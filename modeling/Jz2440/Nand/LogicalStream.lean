import Jz2440.Nand.BadBlock

/-!
# What `nand_read` with bad-block skipping loads

The test for bad blocks runs only at block-aligned addresses, so everything
depends on where the loop starts.

* `nandRead_onlyGood_iff`: no byte comes from a bad block iff the start address
  is block-aligned or lies in a good block (or nothing is read). The property
  covers runs that never end too.
* `nandRead_logicalStream`: from such a start, and if enough good bytes follow,
  `nand_read` returns with the first `len` bytes of the good blocks, in address
  order.
* `nandRead_returns_iff`: from such a start, `nand_read` returns iff nothing is read
  or some block is good. With too few good blocks `addr` wraps, and the same blocks
  are read again.
-/

namespace Jz2440.Nand.BadBlock

open Jz2440.Common

/-- `addr` is the start of a block, or its block is good. -/
def GoodStart (cell : ℕ → ℕ → Byte) (addr : ℕ) : Prop :=
  addr % 131072 = 0 ∨ ¬ Bad cell (addr / 131072)

/-- The position of the loop when bytes are still missing: `col` is the column
    of `addr`, and the block of `addr` is good or will be tested. -/
structure Ready (cell : ℕ → ℕ → Byte) (s : LoadState) : Prop where
  lt : s.addr < addrSpace
  col : s.col = s.addr % 2048
  good : GoodStart cell s.addr

theorem pageBytes_of_lt {len : ℕ} {s : LoadState} (hi : s.i + pageBytes len s < len) :
    pageBytes len s = 2048 - s.col := by
  unfold pageBytes at hi ⊢
  omega

theorem pageBytes_pos {len : ℕ} {s : LoadState} (hi : s.i < len) (hcol : s.col = s.addr % 2048) :
    0 < pageBytes len s := by
  unfold pageBytes
  omega

/-- After a skipped block the loop is at the start of the next one. -/
theorem Ready.skip {cell : ℕ → ℕ → Byte} {s : LoadState} (h : Ready cell s)
    (halign : s.addr % 131072 = 0) (chip : Chip) :
    Ready cell { s with addr := (s.addr + 131072) % addrSpace, chip := chip } := by
  have hcol := h.col
  refine ⟨Nat.mod_lt _ (by decide), ?_, Or.inl ?_⟩
  · simp only [addrSpace]
    omega
  · simp only [addrSpace]
    omega

/-- After a page that did not complete the buffer the loop is at the start of
    the next page, in the same good block or at the start of the next one. -/
theorem Ready.page {cell : ℕ → ℕ → Byte} {len : ℕ} {s s' : LoadState} (h : Ready cell s)
    (hgood : ¬ Bad cell (s.addr / 131072)) (hload : PageLoaded len s s') (hi : s'.i < len) :
    Ready cell s' := by
  have hn : pageBytes len s = 2048 - s.col := pageBytes_of_lt (by rw [← hload.i]; exact hi)
  have hcol := h.col
  have hlt : s.addr < 2 ^ 32 := h.lt
  have haddr : s'.addr = (s.addr + (2048 - s.addr % 2048)) % 2 ^ 32 := by
    rw [hload.addr, hn, hcol, addrSpace]
  refine ⟨by rw [hload.addr]; exact Nat.mod_lt _ (by decide), by rw [hload.col]; omega, ?_⟩
  by_cases hblock : s'.addr % 131072 = 0
  · exact Or.inl hblock
  · right
    rwa [show s'.addr / 131072 = s.addr / 131072 by omega]

/-- The block of `addr` is good when a page of it is read. -/
theorem Ready.good_of_read {cell : ℕ → ℕ → Byte} {s : LoadState} (h : Ready cell s)
    (hread : s.addr % 131072 = 0 → ¬ Bad cell (s.addr / 131072)) :
    ¬ Bad cell (s.addr / 131072) := by
  rcases h.good with halign | hgood
  · exact hread halign
  · exact hgood

/-! ## No byte from a bad block -/

/-- Every byte that is in the buffer so far is the content of a cell of a good
    block. -/
def OnlyGood (cell : ℕ → ℕ → Byte) (s : LoadState) : Prop :=
  ∀ k < s.i, ∃ p, s.src[k]? = some p ∧ s.buf k = cell p.1 p.2 ∧ ¬ Bad cell (p.1 / 64)

/-- The invariant of the loop head. -/
structure SafeInv (cell : ℕ → ℕ → Byte) (len : ℕ) (s : LoadState) : Prop where
  same : s.chip.cell = cell
  length : s.src.length = s.i
  onlyGood : OnlyGood cell s
  ready : s.i < len → Ready cell s

/-- Where the bytes of a page come from. -/
theorem PageLoaded.src_getElem? {len : ℕ} {s s' : LoadState} (h : PageLoaded len s s')
    (hlen : s.src.length = s.i) {k : ℕ} (h1 : s.i ≤ k) (h2 : k < s.i + pageBytes len s) :
    s'.src[k]? = some (s.addr / 2048, s.addr % 2048 + (k - s.i)) := by
  rw [h.src, List.getElem?_append_right (by omega), hlen, List.getElem?_map,
    List.getElem?_range (by omega), Option.map_some]

theorem PageLoaded.onlyGood {cell : ℕ → ℕ → Byte} {len : ℕ} {s s' : LoadState}
    (h : PageLoaded len s s') (hinv : SafeInv cell len s)
    (hgood : ¬ Bad cell (s.addr / 131072)) : OnlyGood cell s' := by
  intro k hk
  rw [h.i] at hk
  by_cases hold : k < s.i
  · obtain ⟨p, hp, hbuf, hgp⟩ := hinv.onlyGood k hold
    refine ⟨p, ?_, by rw [h.rest k (Or.inl hold), hbuf], hgp⟩
    rw [h.src, List.getElem?_append_left (by rw [hinv.length]; exact hold), hp]
  · refine ⟨_, h.src_getElem? hinv.length (by omega) hk, ?_, ?_⟩
    · rw [h.stored k (by omega) hk, hinv.same]
    · simp only
      rwa [show s.addr / 2048 / 64 = s.addr / 131072 by omega]

/-- A pass keeps the invariant. -/
theorem SafeInv.pass {cell : ℕ → ℕ → Byte} {len : ℕ} {s s' : LoadState} (h : SafeInv cell len s)
    (hpass : nandReadPass len s = .again s') : SafeInv cell len s' := by
  by_cases hi : s.i < len
  · have hready := h.ready hi
    rcases nandReadPass_cases len s hi hready.lt hready.col with
      ⟨halign, -, chip, hcell, heq⟩ | ⟨hread, s₁, hload, heq⟩
    · obtain rfl := Pass.again.inj (heq.symm.trans hpass)
      exact ⟨hcell.trans h.same, h.length, fun k hk => h.onlyGood k hk,
        fun _ => hready.skip halign chip⟩
    · obtain rfl := Pass.again.inj (heq.symm.trans hpass)
      rw [h.same] at hread
      have hgood := hready.good_of_read hread
      refine ⟨hload.cell.trans h.same, ?_, hload.onlyGood h hgood, hready.page hgood hload⟩
      rw [hload.src, hload.i, List.length_append, List.length_map, List.length_range, h.length]
  · unfold nandReadPass at hpass
    rw [if_neg hi] at hpass
    cases hpass

/-- At every point of the run of `nand_read(addr, buf, len)`, also of one that
    never ends, the bytes stored so far come from good blocks. -/
def NeverLoadsBad (chip : Chip) (addr : ℕ) (buf : ℕ → Byte) (len : ℕ) : Prop :=
  ∀ s, Reach (headStep (nandReadPass len)) anyStep (loadStart addr buf chip) s →
    OnlyGood chip.cell s

theorem neverLoadsBad_of_goodStart (chip : Chip) (addr : ℕ) (buf : ℕ → Byte) (len : ℕ)
    (haddr : addr < addrSpace) (hstart : GoodStart chip.cell addr) :
    NeverLoadsBad chip addr buf len := by
  intro s hs
  refine (Reach.invariant (SafeInv chip.cell len) ?_ (fun t _ t' ht _ hpass => ?_) hs).onlyGood
  · exact ⟨rfl, rfl, fun k hk => absurd hk (Nat.not_lt_zero k), fun _ => ⟨haddr, rfl, hstart⟩⟩
  · exact ht.pass (headStep_eq_some.mp hpass)

/-- From inside a bad block the first byte is read without any test. -/
theorem not_neverLoadsBad (chip : Chip) (addr : ℕ) (buf : ℕ → Byte) (len : ℕ)
    (haddr : addr < addrSpace) (hlen : 0 < len) (hstart : ¬ GoodStart chip.cell addr) :
    ¬ NeverLoadsBad chip addr buf len := by
  intro hnever
  unfold GoodStart at hstart
  push Not at hstart
  obtain ⟨halign, hbad⟩ := hstart
  rcases nandReadPass_cases len (loadStart addr buf chip) hlen haddr rfl with
    ⟨h0, -⟩ | ⟨-, s, hload, hpass⟩
  · exact halign h0
  · have hpos := pageBytes_pos (s := loadStart addr buf chip) hlen rfl
    have hreach : Reach (headStep (nandReadPass len)) anyStep (loadStart addr buf chip) s :=
      Reach.refl.tail (a := ()) trivial (headStep_eq_some.mpr hpass)
    have hsrc := hload.src_getElem? (k := 0) rfl le_rfl (by rw [Nat.add_comm]; exact hpos)
    obtain ⟨p, hp, -, hgood⟩ := hnever s hreach 0 (by rw [hload.i]; exact Nat.lt_add_left 0 hpos)
    rw [hsrc] at hp
    obtain rfl := Option.some.inj hp
    apply hgood
    simp only [loadStart]
    rwa [show addr / 2048 / 64 = addr / 131072 by omega]

/-- `nand_read` stores no byte of a bad block iff nothing is read, or the start
    address is block-aligned, or it lies in a good block. -/
theorem nandRead_onlyGood_iff (chip : Chip) (addr : ℕ) (buf : ℕ → Byte) (len : ℕ)
    (haddr : addr < addrSpace) :
    NeverLoadsBad chip addr buf len ↔ len = 0 ∨ GoodStart chip.cell addr := by
  constructor
  · intro hnever
    by_contra hcon
    push Not at hcon
    exact not_neverLoadsBad chip addr buf len haddr (Nat.pos_of_ne_zero hcon.1) hcon.2 hnever
  · rintro (rfl | hstart)
    · intro s hs k hk
      -- with `len = 0` the loop is left at once
      have hi : s.i = 0 := Reach.invariant (fun t => t.i = 0) rfl (fun t u t' ht _ hpass => by
        rw [headStep_eq_some] at hpass
        unfold nandReadPass at hpass
        rw [if_neg (by omega)] at hpass
        cases hpass) hs
      omega
    · exact neverLoadsBad_of_goodStart chip addr buf len haddr hstart

/-- A chip whose cells are all `FFh`, except that block `b` is marked bad. -/
def chipWithBad (b : ℕ) : Chip :=
  ⟨fun p c => if p = b * 64 ∧ c = 2048 then 0 else 0xff, .idle, false⟩

/-- The load of the kernel in `main` (boot.c:80), with block 2 bad: the start
    address lies in block 3. -/
theorem kernelLoad_onlyGood :
    NeverLoadsBad (chipWithBad 2) (0x60000 + 64) (fun _ => 0) 0x200000 :=
  (nandRead_onlyGood_iff (chipWithBad 2) (0x60000 + 64) (fun _ => 0) 0x200000 (by decide)).mpr
    (Or.inr (Or.inr (by decide)))

/-- The same load when block 3 itself is bad. -/
theorem kernelLoad_from_bad_block :
    ¬ NeverLoadsBad (chipWithBad 3) (0x60000 + 64) (fun _ => 0) 0x200000 := by
  apply not_neverLoadsBad _ _ _ _ (by decide) (by decide)
  rintro (halign | hgood)
  · exact absurd halign (by decide)
  · exact hgood (by decide)

/-! ## The logical stream -/

/-- The main-area bytes of the good blocks, in address order from `addr` on. -/
def goodStream (cell : ℕ → ℕ → Byte) (addr : ℕ) : List Byte :=
  ((List.range' addr (addrSpace - addr)).filter fun a => ¬ Bad cell (a / 131072)).map
    (mainByte cell)

theorem goodStream_end (cell : ℕ → ℕ → Byte) : goodStream cell addrSpace = [] := by
  rw [goodStream, Nat.sub_self]
  rfl

/-- The stream from `addr` is what the next `n` addresses contribute, followed by
    the stream from `addr + n`. -/
theorem goodStream_split (cell : ℕ → ℕ → Byte) {addr n : ℕ} (h : addr + n ≤ addrSpace) :
    goodStream cell addr =
      ((List.range' addr n).filter fun a => ¬ Bad cell (a / 131072)).map (mainByte cell) ++
        goodStream cell (addr + n) := by
  simp only [goodStream]
  rw [show addrSpace - addr = n + (addrSpace - (addr + n)) by omega, ← List.range'_append_1,
    List.filter_append, List.map_append]

/-- A bad block contributes nothing. -/
theorem goodStream_bad {cell : ℕ → ℕ → Byte} {addr : ℕ} (h : addr + 131072 ≤ addrSpace)
    (halign : addr % 131072 = 0) (hbad : Bad cell (addr / 131072)) :
    goodStream cell addr = goodStream cell (addr + 131072) := by
  have hnil : (List.range' addr 131072).filter (fun a => ¬ Bad cell (a / 131072)) = [] := by
    rw [List.filter_eq_nil_iff]
    intro a ha
    rw [List.mem_range'_1] at ha
    rw [show a / 131072 = addr / 131072 by omega]
    simpa using hbad
  have hsplit := goodStream_split cell h
  rwa [hnil, List.map_nil, List.nil_append] at hsplit

/-- Addresses inside a good block all contribute. -/
theorem goodStream_good {cell : ℕ → ℕ → Byte} {addr n : ℕ} (h : addr + n ≤ addrSpace)
    (hpage : addr % 131072 + n ≤ 131072) (hgood : ¬ Bad cell (addr / 131072)) :
    goodStream cell addr =
      (List.range n).map (fun j => mainByte cell (addr + j)) ++ goodStream cell (addr + n) := by
  have hall : (List.range' addr n).filter (fun a => ¬ Bad cell (a / 131072)) =
      List.range' addr n := by
    rw [List.filter_eq_self]
    intro a ha
    rw [List.mem_range'_1] at ha
    rw [show a / 131072 = addr / 131072 by omega]
    simpa using hgood
  rw [goodStream_split cell h, hall, List.range'_eq_map_range, List.map_map]
  rfl

section Stream

variable (cell : ℕ → ℕ → Byte) (addr₀ len : ℕ) (buf : ℕ → Byte)

/-- The invariant of the loop head: the first `i` bytes of the stream are in the
    buffer, and if bytes are missing, the stream goes on at `addr`. -/
structure StreamInv (s : LoadState) : Prop where
  same : s.chip.cell = cell
  le : s.i ≤ len
  rest : ∀ k, s.i ≤ k → s.buf k = buf k
  stream : ∃ tail, goodStream cell addr₀ = (List.range s.i).map s.buf ++ tail ∧
    (s.i < len → tail = goodStream cell s.addr ∧ Ready cell s)

/-- Bytes are missing and the address decreases this measure; 0 at the end. -/
def streamMeasure (s : LoadState) : ℕ := if s.i < len then addrSpace - s.addr else 0

variable {cell addr₀ len buf}

/-- While bytes are missing, the stream is not at its end. -/
theorem lt_addrSpace_of_missing {i a : ℕ} {bytes : ℕ → Byte} (hi : i < len)
    (hlen : len ≤ (goodStream cell addr₀).length) (ha : a ≤ addrSpace)
    (hstream : goodStream cell addr₀ = (List.range i).map bytes ++ goodStream cell a) :
    a < addrSpace := by
  rcases Nat.lt_or_eq_of_le ha with h | rfl
  · exact h
  · rw [hstream, goodStream_end, List.append_nil, List.length_map, List.length_range] at hlen
    omega

/-- The bytes in the buffer after a page has been read. -/
theorem PageLoaded.map_buf {s s' : LoadState} (h : PageLoaded len s s')
    (hcol : s.col = s.addr % 2048) :
    (List.range s'.i).map s'.buf = (List.range s.i).map s.buf ++
      (List.range (pageBytes len s)).map fun j => mainByte s.chip.cell (s.addr + j) := by
  rw [h.i, List.range_add, List.map_append, List.map_map]
  congr 1
  · apply List.map_congr_left
    intro k hk
    exact h.rest k (Or.inl (List.mem_range.mp hk))
  · apply List.map_congr_left
    intro j hj
    have hj := List.mem_range.mp hj
    have hn : pageBytes len s ≤ 2048 - s.col := Nat.min_le_left _ _
    simp only [Function.comp_apply]
    rw [h.stored _ (by omega) (by omega), Nat.add_sub_cancel_left, mainByte]
    congr 1 <;> omega

/-- A bad block contributes nothing to the stream. -/
theorem StreamInv.skip {s : LoadState} (hlen : len ≤ (goodStream cell addr₀).length)
    (h : StreamInv cell addr₀ len buf s) (hi : s.i < len) (halign : s.addr % 131072 = 0)
    (hbad : Bad cell (s.addr / 131072)) {chip : Chip} (hcell : chip.cell = cell) :
    StreamInv cell addr₀ len buf
        { s with addr := (s.addr + 131072) % addrSpace, chip := chip } ∧
      streamMeasure len { s with addr := (s.addr + 131072) % addrSpace, chip := chip } <
        streamMeasure len s := by
  obtain ⟨tail, hstream, htail⟩ := h.stream
  obtain ⟨rfl, hready⟩ := htail hi
  have hlt : s.addr < 2 ^ 32 := hready.lt
  have hend : s.addr + 131072 ≤ addrSpace := by unfold addrSpace; omega
  rw [goodStream_bad hend halign hbad] at hstream
  have hnext := lt_addrSpace_of_missing hi hlen hend hstream
  have haddr : (s.addr + 131072) % addrSpace = s.addr + 131072 := Nat.mod_eq_of_lt hnext
  refine ⟨⟨hcell, h.le, h.rest, _, hstream, fun _ => ⟨?_, hready.skip halign chip⟩⟩, ?_⟩
  · simp only [haddr]
  · simp only [streamMeasure, haddr, if_pos hi]
    omega

/-- The rest of a page of a good block is the next part of the stream. -/
theorem StreamInv.page {s s' : LoadState} (hlen : len ≤ (goodStream cell addr₀).length)
    (h : StreamInv cell addr₀ len buf s) (hi : s.i < len) (hload : PageLoaded len s s')
    (hread : s.addr % 131072 = 0 → ¬ Bad cell (s.addr / 131072)) :
    StreamInv cell addr₀ len buf s' ∧ streamMeasure len s' < streamMeasure len s := by
  obtain ⟨tail, hstream, htail⟩ := h.stream
  obtain ⟨rfl, hready⟩ := htail hi
  have hlt : s.addr < 2 ^ 32 := hready.lt
  have hcol := hready.col
  have hmeasure : streamMeasure len s = addrSpace - s.addr := if_pos hi
  have hgood := hready.good_of_read hread
  have hpos := pageBytes_pos hi hcol
  have hn : pageBytes len s ≤ 2048 - s.col := Nat.min_le_left _ _
  have hn' : pageBytes len s ≤ len - s.i := Nat.min_le_right _ _
  have hend : s.addr + pageBytes len s ≤ addrSpace := by unfold addrSpace; omega
  have hstream' : goodStream cell addr₀ = (List.range s'.i).map s'.buf ++
      goodStream cell (s.addr + pageBytes len s) := by
    rw [hload.map_buf hcol, List.append_assoc, h.same, hstream,
      goodStream_good hend (by omega) hgood]
  -- if bytes are still missing then `addr` has not wrapped
  have hnext : s'.i < len → s'.addr = s.addr + pageBytes len s := by
    intro hi'
    rw [hload.addr]
    exact Nat.mod_eq_of_lt (lt_addrSpace_of_missing hi' hlen hend hstream')
  refine ⟨⟨hload.cell.trans h.same, ?_, ?_, _, hstream', fun hi' => ⟨?_, ?_⟩⟩, ?_⟩
  · rw [hload.i]; omega
  · intro k hk
    have := hload.i
    rw [hload.rest k (by omega), h.rest k (by omega)]
  · rw [hnext hi']
  · exact hready.page hgood hload hi'
  · rw [hmeasure]
    unfold streamMeasure
    split_ifs with hi'
    · rw [hnext hi']
      have := lt_addrSpace_of_missing hi' hlen hend hstream'
      omega
    · have := hready.lt
      omega

/-- A pass keeps the invariant and decreases the measure, or leaves the loop
    with all `len` bytes. -/
theorem StreamInv.pass {s : LoadState} (hlen : len ≤ (goodStream cell addr₀).length)
    (h : StreamInv cell addr₀ len buf s) :
    (∃ s', nandReadPass len s = .again s' ∧ StreamInv cell addr₀ len buf s' ∧
      streamMeasure len s' < streamMeasure len s) ∨
    ∃ r, nandReadPass len s = .leave r ∧ StreamInv cell addr₀ len buf r ∧ r.i = len := by
  by_cases hi : s.i < len
  · obtain ⟨tail, -, htail⟩ := h.stream
    obtain ⟨-, hready⟩ := htail hi
    left
    rcases nandReadPass_cases len s hi hready.lt hready.col with
      ⟨halign, hbad, chip, hcell, heq⟩ | ⟨hread, s', hload, heq⟩
    · rw [h.same] at hbad hcell
      exact ⟨_, heq, h.skip hlen hi halign hbad hcell⟩
    · rw [h.same] at hread
      exact ⟨s', heq, h.page hlen hi hload hread⟩
  · right
    refine ⟨s, ?_, h, by have := h.le; omega⟩
    unfold nandReadPass
    rw [if_neg hi]

/-- At the end the buffer holds the start of the stream. -/
theorem StreamInv.map_buf {s : LoadState} (h : StreamInv cell addr₀ len buf s) (hi : s.i = len) :
    (List.range len).map s.buf = (goodStream cell addr₀).take len := by
  obtain ⟨tail, hstream, -⟩ := h.stream
  rw [hstream, hi, List.take_left' (by simp)]

/-- `nand_read` returns, with the invariant and all bytes. -/
theorem nandRead_yields (chip : Chip) (addr : ℕ) (buf : ℕ → Byte) (len : ℕ)
    (haddr : addr < addrSpace) (hstart : GoodStart chip.cell addr)
    (hlen : len ≤ (goodStream chip.cell addr).length) :
    ∃ s, Yields (fun fuel => nandRead fuel addr buf len chip) s ∧
      StreamInv chip.cell addr len buf s ∧ s.i = len :=
  Returns.of_variant (StreamInv chip.cell addr len buf)
    (fun s => StreamInv chip.cell addr len buf s ∧ s.i = len) (streamMeasure len)
    (fun _ hs => hs.pass hlen) (s := loadStart addr buf chip)
    ⟨rfl, Nat.zero_le len, fun _ _ => rfl, _, rfl, fun _ => ⟨rfl, haddr, rfl, hstart⟩⟩

end Stream

/-- **The logical stream.** From a block-aligned address or one in a good block,
    and with at least `len` bytes in good blocks from there on, `nand_read`
    returns with the first `len` of these bytes in `buf`, in address order, and
    writes nothing else. -/
theorem nandRead_logicalStream (chip : Chip) (addr : ℕ) (buf : ℕ → Byte) (len : ℕ)
    (haddr : addr < addrSpace) (hstart : GoodStart chip.cell addr)
    (hlen : len ≤ (goodStream chip.cell addr).length) :
    ∃ s, Yields (fun fuel => nandRead fuel addr buf len chip) s ∧
      (List.range len).map s.buf = (goodStream chip.cell addr).take len ∧
      ∀ k, len ≤ k → s.buf k = buf k := by
  obtain ⟨s, hret, hinv, hi⟩ := nandRead_yields chip addr buf len haddr hstart hlen
  exact ⟨s, hret, hinv.map_buf hi, fun k hk => hinv.rest k (by omega)⟩

/-- The kernel up to the second byte of block 5, with block 4 bad. -/
theorem kernelLoad_logicalStream :
    ∃ s, Yields (fun fuel => nandRead fuel (0x60000 + 64) (fun _ => 0) 131010 (chipWithBad 4)) s ∧
      (List.range 131010).map s.buf =
        (goodStream (chipWithBad 4).cell (0x60000 + 64)).take 131010 ∧
      ∀ k, 131010 ≤ k → s.buf k = 0 := by
  have hgood₃ : ¬ Bad (chipWithBad 4).cell ((0x60000 + 64) / 131072) := by decide
  have hbad₄ : Bad (chipWithBad 4).cell (0x80000 / 131072) := by decide
  have hgood₅ : ¬ Bad (chipWithBad 4).cell (0xa0000 / 131072) := by decide
  have hlen : 131010 ≤ (goodStream (chipWithBad 4).cell (0x60000 + 64)).length := by
    rw [goodStream_good (n := 131008) (by decide) (by decide) hgood₃,
      goodStream_bad (by decide) (by decide) hbad₄,
      goodStream_good (n := 2) (by decide) (by decide) hgood₅]
    simp only [List.length_append, List.length_map, List.length_range]
    omega
  exact nandRead_logicalStream (chipWithBad 4) (0x60000 + 64) (fun _ => 0) 131010 (by decide)
    (Or.inr hgood₃) hlen

/-! ## When `nand_read` returns -/

/-- The number of blocks in the address space. -/
def blocks : ℕ := 32768

section Return

variable {cell : ℕ → ℕ → Byte} {len good : ℕ} {buf : ℕ → Byte} {s : LoadState}

/-- The invariant of the loop head, whatever is read. -/
structure RunInv (cell : ℕ → ℕ → Byte) (len : ℕ) (buf : ℕ → Byte) (s : LoadState) : Prop where
  same : s.chip.cell = cell
  rest : ∀ k, len ≤ k → s.buf k = buf k
  ready : s.i < len → Ready cell s

/-- The bytes that are missing, and for each of them the blocks up to the block `good`. -/
def runMeasure (len good : ℕ) (s : LoadState) : ℕ :=
  (len - s.i) * blocks + (good + blocks - s.addr / 131072) % blocks

/-- A bad block is one block less on the way to `good`, also from the last block to the first;
    a page is at least one byte less. -/
theorem RunInv.pass (h : RunInv cell len buf s) (hgood : ¬ Bad cell good) (hlt : good < blocks) :
    (∃ s', nandReadPass len s = .again s' ∧ RunInv cell len buf s' ∧
      runMeasure len good s' < runMeasure len good s) ∨
    ∃ r, nandReadPass len s = .leave r ∧ RunInv cell len buf r := by
  by_cases hi : s.i < len
  · have hready := h.ready hi
    have haddr : s.addr < 2 ^ 32 := hready.lt
    left
    rcases nandReadPass_cases len s hi hready.lt hready.col with
      ⟨halign, hbad, chip, hcell, heq⟩ | ⟨hread, s', hload, heq⟩
    · refine ⟨_, heq, ⟨hcell.trans h.same, h.rest, fun _ => hready.skip halign chip⟩, ?_⟩
      have hne : s.addr / 131072 ≠ good := by
        rintro rfl
        exact hgood (h.same ▸ hbad)
      simp only [runMeasure, blocks, addrSpace] at hlt ⊢
      omega
    · rw [h.same] at hread
      have hpos := pageBytes_pos hi hready.col
      have hle : pageBytes len s ≤ len - s.i := Nat.min_le_right _ _
      refine ⟨s', heq, ⟨hload.cell.trans h.same, fun k hk => ?_,
        hready.page (hready.good_of_read hread) hload⟩, ?_⟩
      · rw [hload.rest k (by omega), h.rest k hk]
      · simp only [runMeasure, blocks, hload.i]
        omega
  · refine .inr ⟨s, ?_, h⟩
    unfold nandReadPass
    rw [if_neg hi]

theorem nandRead_returns (chip : Chip) (addr : ℕ) (buf : ℕ → Byte) {len : ℕ}
    (haddr : addr < addrSpace) (hstart : GoodStart chip.cell addr)
    (h : len = 0 ∨ ∃ good < blocks, ¬ Bad chip.cell good) :
    ∃ s, Yields (fun fuel => nandRead fuel addr buf len chip) s ∧
      ∀ k, len ≤ k → s.buf k = buf k := by
  rcases h with rfl | ⟨good, hlt, hgood⟩
  · exact ⟨_, Returns.of_leave (if_neg (Nat.not_lt_zero _)), fun _ _ => rfl⟩
  · obtain ⟨s, hs, hinv⟩ := Returns.of_variant (RunInv chip.cell len buf)
      (RunInv chip.cell len buf) (runMeasure len good) (fun _ ht => ht.pass hgood hlt)
      (s := loadStart addr buf chip) ⟨rfl, fun _ _ => rfl, fun _ => ⟨haddr, rfl, hstart⟩⟩
    exact ⟨s, hs, hinv.rest⟩

/-- While all blocks are bad, the loop goes from block to block. -/
structure SkipsAll (cell : ℕ → ℕ → Byte) (s : LoadState) : Prop where
  same : s.chip.cell = cell
  none : s.i = 0
  lt : s.addr < addrSpace
  aligned : s.addr % 131072 = 0
  col : s.col = s.addr % 2048

theorem SkipsAll.pass (h : SkipsAll cell s) (hlen : 0 < len)
    (hbad : ∀ b < blocks, Bad cell b) :
    ∃ s', nandReadPass len s = .again s' ∧ SkipsAll cell s' := by
  have haddr : s.addr < 2 ^ 32 := h.lt
  have haligned := h.aligned
  rcases nandReadPass_cases len s (by rw [h.none]; exact hlen) h.lt h.col with
    ⟨-, -, chip, hcell, heq⟩ | ⟨hread, -⟩
  · refine ⟨_, heq, hcell.trans h.same, h.none, Nat.mod_lt _ (by decide), ?_, ?_⟩
    · simp only [addrSpace]
      omega
    · have hcol := h.col
      simp only [addrSpace]
      omega
  · refine absurd (hbad (s.addr / 131072) ?_) (h.same ▸ hread haligned)
    unfold blocks
    omega

/-- From the start of a block or from inside a good one, `nand_read` returns iff nothing is to be
    read or there is a good block at all. -/
theorem nandRead_returns_iff (chip : Chip) (addr : ℕ) (buf : ℕ → Byte) (len : ℕ)
    (haddr : addr < addrSpace) (hstart : GoodStart chip.cell addr) :
    (∃ s, Yields (fun fuel => nandRead fuel addr buf len chip) s) ↔
      len = 0 ∨ ∃ good < blocks, ¬ Bad chip.cell good := by
  constructor
  · rintro ⟨s, n, hn⟩
    by_contra hnot
    push Not at hnot
    obtain ⟨hlen, hbad⟩ := hnot
    have hspace : addr < 2 ^ 32 := haddr
    have haligned : addr % 131072 = 0 := by
      refine hstart.resolve_right (not_not.mpr (hbad _ ?_))
      unfold blocks
      omega
    have hnever : nandRead n addr buf len chip = none :=
      loop_eq_none (SkipsAll chip.cell) (fun t ht => ht.pass (Nat.pos_of_ne_zero hlen) hbad) n
        ⟨rfl, rfl, haddr, haligned, rfl⟩
    cases hnever.symm.trans (hn n le_rfl)
  · intro h
    obtain ⟨s, hs, -⟩ := nandRead_returns chip addr buf haddr hstart h
    exact ⟨s, hs⟩

end Return

end Jz2440.Nand.BadBlock
