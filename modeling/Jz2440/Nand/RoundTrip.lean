import Jz2440.Nand.Flash

/-!
# Writing and reading back

* `nandRead_spec`: `nand_read` returns, and stores the main-area bytes from
  `addr` on in `buf[0..len-1]`, across any number of pages.
* `nandWrite_spec`: `nand_write` returns after one pass. Its inner loop does not
  advance `col`, so all `len` bytes go into one program command for the first
  page.
* `nandWrite_nandRead_iff`: on erased pages the two functions round-trip iff the
  bytes beyond the end of the first page are all `FFh`; in particular whenever
  the range lies in one page.
-/

namespace Jz2440.Nand

open Jz2440.Common

theorem and_2047 (a : ℕ) : a &&& (2048 - 1) = a % 2048 :=
  Nat.and_two_pow_sub_one_eq_mod a 11

/-! ## `nand_read` -/

section Read

variable (addr len : ℕ) (buf : ℕ → Byte) (chip : Chip)

/-- What holds at every point of `nand_read`: `i` bytes from `addr` on are in
    the buffer, the rest of it is as before, and `page`, `col` are the page and
    the column of the next byte. -/
structure ReadInv (s : ReadState) : Prop where
  pos : s.page * 2048 + s.col = addr + s.i
  le : s.i ≤ len
  cell : s.chip.cell = chip.cell
  selected : s.chip.selected = true
  stored : ∀ k < s.i, s.buf k = mainByte chip.cell (addr + k)
  rest : ∀ k, s.i ≤ k → s.buf k = buf k

/-- Inside the inner loop the chip outputs the columns of `page` from `col` on. -/
def Streaming (s : ReadState) : Prop :=
  ReadInv addr len buf chip s ∧ s.chip.phase = .readOut s.page s.col ∧ s.col ≤ 2048

variable {addr len buf chip}

theorem Streaming.readByte {s : ReadState} (h : Streaming addr len buf chip s)
    (hmore : s.More len) : Streaming addr len buf chip (readByte s) := by
  obtain ⟨hinv, hphase, _⟩ := h
  have hdata := nandData_readOut s.chip hinv.selected hphase
  have hpos := hinv.pos
  have hlt := hmore.1
  -- the byte that the chip outputs is the main-area byte `addr + i`
  have hbyte : s.chip.cell s.page s.col = mainByte chip.cell (addr + s.i) := by
    rw [mainByte, hinv.cell, ← hpos]
    congr 1 <;> omega
  simp only [Nand.readByte, hdata]
  refine ⟨⟨by simp only; omega, hmore.2, hinv.cell, hinv.selected, ?_, ?_⟩, rfl, hlt⟩
  · intro k hk
    by_cases hki : k = s.i
    · subst hki
      simp only [Function.update_self]
      exact hbyte
    · simp only [Function.update_of_ne hki]
      exact hinv.stored k (by simp only at hk; omega)
  · intro k hk
    simp only at hk
    simp only [Function.update_of_ne (show k ≠ s.i by omega)]
    exact hinv.rest k (by omega)

/-- The inner loop reads to the end of the page or of the buffer. -/
theorem Streaming.readColumns {s : ReadState} (h : Streaming addr len buf chip s) :
    Streaming addr len buf chip (readColumns len s) ∧ ¬ (readColumns len s).More len := by
  constructor
  · exact repeatWhile_invariant _ (fun _ ht hc => ht.readByte hc) 2048 h
  · refine repeatWhile_exit (fun t : ReadState => 2048 - t.col) (fun t hc => ?_) 2048 (by omega)
    have hcol : (Nand.readByte t).col = t.col + 1 := rfl
    have := hc.1
    rw [hcol]
    omega

/-- The inner loop reads at least one byte if there is one to read. -/
theorem readColumns_progress {s : ReadState} (hmore : s.More len) :
    s.i < (readColumns len s).i := by
  have hrest : s.i + 1 ≤ (repeatWhile (ReadState.More len) readByte 2047 (readByte s)).i :=
    repeatWhile_invariant (fun t : ReadState => s.i + 1 ≤ t.i)
      (fun t ht _ => Nat.le_succ_of_le ht) 2047 (le_refl (s.i + 1))
  rw [readColumns, repeatWhile, if_pos hmore]
  omega

/-- One pass of the outer loop: it leaves with all `len` bytes read, or goes on
    with the next page, having read at least one byte. -/
theorem nandReadPass_cases {s : ReadState} (hdev : addr + len ≤ 2 ^ 32)
    (h : ReadInv addr len buf chip s) (hcol : s.col < 2048) :
    (∃ s', nandReadPass len s = .again s' ∧ (ReadInv addr len buf chip s' ∧ s'.col < 2048) ∧
      len - s'.i < len - s.i) ∨
    ∃ r, nandReadPass len s = .leave r ∧ ReadInv addr len buf chip r ∧ r.i = len := by
  by_cases hi : s.i < len
  · have hpos := h.pos
    have hcmd := nandCmd_read s.chip s.col s.page h.selected (by omega) (by omega)
    have hpass : nandReadPass len s =
        let s' := readColumns len { s with chip := { s.chip with phase := .readOut s.page s.col } }
        if s'.i = len then .leave s' else .again { s' with col := 0, page := s'.page + 1 } := by
      unfold nandReadPass
      rw [if_pos hi]
      simp only [hcmd]
    set s₁ : ReadState := { s with chip := { s.chip with phase := .readOut s.page s.col } }
    have hs₁ : Streaming addr len buf chip s₁ :=
      ⟨⟨hpos, h.le, h.cell, h.selected, h.stored, h.rest⟩, rfl, hcol.le⟩
    obtain ⟨⟨hinv, -, hle⟩, hexit⟩ := hs₁.readColumns
    have hprog : s.i < (readColumns len s₁).i := readColumns_progress (s := s₁) ⟨hcol, hi⟩
    rw [hpass]
    simp only
    generalize readColumns len s₁ = s₂ at hinv hle hexit hprog ⊢
    have hi₂ := hinv.le
    by_cases hend : s₂.i = len
    · right
      exact ⟨s₂, if_pos hend, hinv, hend⟩
    · left
      -- the inner loop stopped before `len`, so it stopped at the end of the page
      have hfull : s₂.col = 2048 := by
        unfold ReadState.More at hexit
        omega
      have hpos₂ := hinv.pos
      refine ⟨{ s₂ with col := 0, page := s₂.page + 1 }, if_neg hend, ⟨⟨?_, hi₂, hinv.cell,
        hinv.selected, hinv.stored, hinv.rest⟩, by simp⟩, by simp only; omega⟩
      change (s₂.page + 1) * 2048 + 0 = addr + s₂.i
      rw [← hpos₂, hfull, Nat.add_mul]
  · right
    refine ⟨s, ?_, h, by have := h.le; omega⟩
    unfold nandReadPass
    rw [if_neg hi]

/-- `nand_read` returns with the `len` main-area bytes from `addr` on in the
    buffer. It writes nothing else and leaves the cells as they are. -/
theorem nandRead_spec (buf : ℕ → Byte) (chip : Chip) (hdev : addr + len ≤ 2 ^ 32) :
    ∃ buf' chip', Yields (fun fuel => nandRead fuel addr buf len chip) (buf', chip') ∧
      (∀ k < len, buf' k = mainByte chip.cell (addr + k)) ∧ (∀ k, len ≤ k → buf' k = buf k) ∧
      chip'.cell = chip.cell := by
  obtain ⟨s, hret, hinv, hi⟩ := Returns.of_variant
    (fun s => ReadInv addr len buf chip s ∧ s.col < 2048)
    (fun s => ReadInv addr len buf chip s ∧ s.i = len) (fun s => len - s.i)
    (fun s hs => nandReadPass_cases hdev hs.1 hs.2)
    (s := { i := 0, page := addr / 2048, col := addr &&& (2048 - 1), buf := buf,
            chip := nandSelect chip })
    ⟨⟨by simp only [and_2047]; omega, Nat.zero_le _, rfl, rfl, fun k hk => absurd hk (by simp),
      fun _ _ => rfl⟩, by simp only [and_2047]; omega⟩
  refine ⟨s.buf, nandDeselect s.chip, hret.map _, fun k hk => hinv.stored k (by omega),
    fun k hk => hinv.rest k (by omega), hinv.cell⟩

end Read

/-! ## `nand_write` -/

/-- The state `s` of `nand_write`, in the data phase, after `n` data bytes. -/
def sentBytes (s : WriteState) (cycles : List Byte) (buf : ℕ → Byte) (n : ℕ) : WriteState :=
  { s with i := n, chip := { s.chip with phase := .program cycles ((List.range n).map buf) } }

theorem writeByte_sentBytes (s : WriteState) (cycles : List Byte) (buf : ℕ → Byte) (n : ℕ)
    (hsel : s.chip.selected = true) :
    writeByte buf (sentBytes s cycles buf n) = sentBytes s cycles buf (n + 1) := by
  have hdata := nandWData_program (sentBytes s cycles buf n).chip (buf n) hsel rfl
  rw [writeByte]
  simp only [sentBytes, List.range_succ, List.map_append] at hdata ⊢
  rw [hdata]
  rfl

/-- The inner loop of `nand_write`, started in the data phase with `col` inside
    the page, sends all remaining bytes of the buffer. -/
theorem writeColumns_spec (buf : ℕ → Byte) (len : ℕ) (s : WriteState) (cycles : List Byte)
    (hcol : s.col < 2048) (hsel : s.chip.selected = true) :
    writeColumns buf len (sentBytes s cycles buf 0) = sentBytes s cycles buf len := by
  refine repeatWhile_count (sentBytes s cycles buf) len (fun j hj => ⟨hcol, hj⟩)
    (fun j _ => writeByte_sentBytes s cycles buf j hsel) ?_ len le_rfl
  intro hmore
  exact absurd hmore.2 (lt_irrefl len)

/-- `nand_write` returns after one pass: all bytes are programmed into the page
    of `addr`, from its column on. -/
theorem nandWrite_spec (addr len : ℕ) (buf : ℕ → Byte) (chip : Chip) (haddr : addr < 2 ^ 32) :
    ∃ chip', Yields (fun fuel => nandWrite fuel addr buf len chip) chip' ∧
      chip'.cell =
        programPage chip.cell (addr / 2048) (addr % 2048) ((List.range len).map buf) := by
  set s₀ : WriteState := ⟨0, addr / 2048, addr % 2048, nandSelect chip⟩ with hs₀
  set cycles := [addrByte (addr % 2048) 0, addrByte (addr % 2048) 8, addrByte (addr / 2048) 0,
    addrByte (addr / 2048) 8, addrByte (addr / 2048) 16] with hcycles
  have hcmd := nandCmd_program (nandSelect chip) (addr % 2048) (addr / 2048) rfl
  have hpass : ∃ s, nandWritePass buf len s₀ = .leave s ∧
      s.chip.cell =
        programPage chip.cell (addr / 2048) (addr % 2048) ((List.range len).map buf) := by
    have hsend := writeColumns_spec buf len s₀ cycles (Nat.mod_lt _ (by norm_num)) rfl
    have hcommit := nandCmd_commit (sentBytes s₀ cycles buf len).chip
      (addr % 2048) (addr / 2048) rfl rfl (by omega) (by omega)
    refine ⟨{ sentBytes s₀ cycles buf len with
      chip := nandCmd 0x10 (sentBytes s₀ cycles buf len).chip }, ?_, by rw [hcommit]; rfl⟩
    unfold nandWritePass
    simp only [hs₀, hcmd]
    change (let s := writeColumns buf len (sentBytes s₀ cycles buf 0)
      let s := { s with chip := nandCmd 0x10 s.chip }
      if s.i = len then Pass.leave s else Pass.again { s with col := 0, page := s.page + 1 }) = _
    rw [hsend]
    exact if_pos rfl
  obtain ⟨s, hleave, hcell⟩ := hpass
  refine ⟨nandDeselect s.chip, ?_, hcell⟩
  have hret : Returns (nandWritePass buf len) s₀ s := .of_leave hleave
  simp only [nandWrite, and_2047]
  exact hret.map _

/-! ## The round trip -/

/-- The pages that hold the `len` bytes from `addr` on are erased. -/
def Erased (chip : Chip) (addr len : ℕ) : Prop :=
  ∀ a, addr ≤ a → a < addr + len → ∀ c, chip.cell (a / 2048) c = 0xff

/-- The main-area bytes after `nand_write` on erased pages: the bytes that fit
    into the first page are stored, nothing else changes. -/
theorem mainByte_nandWrite {chip : Chip} {addr len : ℕ} (buf : ℕ → Byte)
    (herased : Erased chip addr len) (a : ℕ) :
    mainByte (programPage chip.cell (addr / 2048) (addr % 2048) ((List.range len).map buf)) a =
      if a / 2048 = addr / 2048 ∧ addr ≤ a ∧ a < addr + len then buf (a - addr)
      else mainByte chip.cell a := by
  rw [mainByte_programPage]
  simp only [List.length_map, List.length_range]
  by_cases ha : a / 2048 = addr / 2048 ∧ addr ≤ a ∧ a < addr + len
  · rw [if_pos (by omega), if_pos ha, mainByte, herased a ha.2.1 ha.2.2,
      show a % 2048 - addr % 2048 = a - addr by omega, List.getD_eq_getElem?_getD,
      List.getElem?_eq_getElem (by simp; omega)]
    simp only [List.getElem_map, List.getElem_range, Option.getD_some]
    exact BitVec.allOnes_and
  · rw [if_neg (by omega), if_neg ha]

/-- `nand_write` and then `nand_read` on erased pages: the bytes up to the end of
    the first page come back, the others read as erased. -/
theorem nandWrite_nandRead {chip : Chip} {addr len : ℕ} (buf out : ℕ → Byte)
    (hdev : addr + len ≤ 2 ^ 32) (haddr : addr < 2 ^ 32) (herased : Erased chip addr len) :
    ∃ chip₁ chip₂ out', Yields (fun fuel => nandWrite fuel addr buf len chip) chip₁ ∧
      Yields (fun fuel => nandRead fuel addr out len chip₁) (out', chip₂) ∧
      (∀ k < len, out' k = if addr % 2048 + k < 2048 then buf k else 0xff) ∧
      ∀ a, a < addr ∨ addr + len ≤ a → mainByte chip₁.cell a = mainByte chip.cell a := by
  obtain ⟨chip₁, hwrite, hcell⟩ := nandWrite_spec addr len buf chip haddr
  obtain ⟨out', chip₂, hread, hbytes, -, -⟩ :=
    nandRead_spec out chip₁ hdev
  refine ⟨chip₁, chip₂, out', hwrite, hread, ?_, ?_⟩
  · intro k hk
    rw [hbytes k hk, hcell, mainByte_nandWrite buf herased]
    by_cases hpage : addr % 2048 + k < 2048
    · rw [if_pos hpage, if_pos (by omega), Nat.add_sub_cancel_left]
    · rw [if_neg hpage, if_neg (by omega), mainByte]
      exact herased _ (by omega) (by omega) _
  · intro a ha
    rw [hcell, mainByte_nandWrite buf herased, if_neg (by omega)]

/-- After `nand_write(addr, buf, len)` a `nand_read(addr, out, len)` gives back
    `buf`, and every main-area byte outside the range is unchanged. -/
def RoundTrips (chip : Chip) (addr len : ℕ) (buf out : ℕ → Byte) : Prop :=
  ∃ chip₁ chip₂ out', Yields (fun fuel => nandWrite fuel addr buf len chip) chip₁ ∧
    Yields (fun fuel => nandRead fuel addr out len chip₁) (out', chip₂) ∧
    (∀ k < len, out' k = buf k) ∧
    ∀ a, a < addr ∨ addr + len ≤ a → mainByte chip₁.cell a = mainByte chip.cell a

/-- On erased pages the round trip works iff every byte of `buf` that lies
    beyond the page of `addr` is `FFh`, the value of an erased byte. -/
theorem nandWrite_nandRead_iff (chip : Chip) (addr len : ℕ) (buf out : ℕ → Byte)
    (haddr : addr < 2 ^ 32) (hdev : addr + len ≤ 2 ^ 32) (herased : Erased chip addr len) :
    RoundTrips chip addr len buf out ↔ ∀ k < len, 2048 ≤ addr % 2048 + k → buf k = 0xff := by
  obtain ⟨chip₁, chip₂, out', hwrite, hread, hbytes, hframe⟩ :=
    nandWrite_nandRead buf out hdev haddr herased
  constructor
  · rintro ⟨chip₁', chip₂', out'', hwrite', hread', hbuf, -⟩ k hk hpage
    obtain rfl := hwrite.unique hwrite'
    obtain ⟨rfl, -⟩ := Prod.mk.inj (hread.unique hread')
    rw [← hbuf k hk, hbytes k hk, if_neg (by omega)]
  · intro hff
    refine ⟨chip₁, chip₂, out', hwrite, hread, fun k hk => ?_, hframe⟩
    rw [hbytes k hk]
    by_cases hpage : addr % 2048 + k < 2048
    · rw [if_pos hpage]
    · rw [if_neg hpage, hff k hk (by omega)]

/-- An erased chip. -/
def blankChip : Chip := ⟨fun _ _ => 0xff, .idle, false⟩

/-- Two bytes that end exactly at the end of a page come back. -/
theorem roundTrips_at_page_end : RoundTrips blankChip 2046 2 (fun _ => 0x5a) (fun _ => 0) :=
  (nandWrite_nandRead_iff blankChip 2046 2 (fun _ => 0x5a) (fun _ => 0) (by norm_num) (by norm_num)
    (fun _ _ _ _ => rfl)).mpr (by omega)

/-- Two bytes across a page boundary do not. -/
theorem not_roundTrips_across_pages :
    Erased blankChip 2047 2 ∧ ¬ RoundTrips blankChip 2047 2 (fun _ => 0x5a) (fun _ => 0) := by
  have herased : Erased blankChip 2047 2 := fun _ _ _ _ => rfl
  refine ⟨herased, ?_⟩
  rintro ⟨chip₁', chip₂', out'', hwrite', hread', hbuf, -⟩
  obtain ⟨chip₁, chip₂, out', hwrite, hread, hbytes, -⟩ :=
    nandWrite_nandRead (fun _ => 0x5a) (fun _ => 0) (by norm_num) (by norm_num) herased
  obtain rfl := hwrite.unique hwrite'
  obtain ⟨rfl, -⟩ := Prod.mk.inj (hread.unique hread')
  have hbyte := (hbytes 1 (by norm_num)).symm.trans (hbuf 1 (by norm_num))
  exact absurd hbyte (by decide)

end Jz2440.Nand
