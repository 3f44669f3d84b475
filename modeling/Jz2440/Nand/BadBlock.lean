import Jz2440.Common.Loop
import Jz2440.Nand.Chip

/-!
# `nand_read` with bad-block skipping

Model of `nand_bad` and `nand_read` in
`hard_driver/drivers_and_test/32th_my_bootloader/3th_detect_bad_block/init.c`
(the boot loader). The same two functions, word for word, are in
`hard_driver/first_hard/025_sensors_022/007_irda_nec_ok_022_009/nand_flash.c`.

`nand_read` works through the pages from `addr` on. At an address that is a
multiple of 128 KB it first asks `nand_bad` whether the block is bad and skips
it if so. `addr` is an `unsigned int` and wraps at `2^32`; `col` and `i` are
`int` and stay below 2049 and below `2^32`.

`src` is not a variable of the code: it records the page and the column that
each stored byte was read from.
-/

namespace Jz2440.Nand.BadBlock

open Jz2440.Common

/-- The address space of `unsigned int addr`. -/
def addrSpace : ℕ := 2 ^ 32

/-- A block is bad iff the byte at column 2048 of its first page is not `FFh`. -/
def Bad (cell : ℕ → ℕ → Byte) (block : ℕ) : Prop := cell (block * 64) 2048 ≠ 0xff

instance (cell : ℕ → ℕ → Byte) (block : ℕ) : Decidable (Bad cell block) :=
  inferInstanceAs (Decidable (_ ≠ _))

/-- `nand_bad` (init.c:162-195): whether the first spare byte of the page of
    `addr` differs from `FFh`, and the chip afterwards. -/
def nandBad (addr : ℕ) (chip : Chip) : Bool × Chip :=
  let chip := nandSelect chip
  let chip := nandCmd 0x00 chip
  let chip := nandCol 2048 chip
  let chip := nandPage (addr / 2048) chip
  let chip := nandCmd 0x30 chip
  let d := nandData chip
  (d.1 != 0xff, nandDeselect d.2)

/-- `nand_addr` (init.c:110-127). -/
def nandAddr (addr : ℕ) (chip : Chip) : Chip := nandPage (addr / 2048) (nandCol (addr % 2048) chip)

/-- The local variables of `nand_read`, the buffer, the chip, and where the
    bytes came from. -/
structure LoadState where
  addr : ℕ
  col : ℕ
  i : ℕ
  buf : ℕ → Byte
  src : List (ℕ × ℕ)
  chip : Chip

/-- The page and column that the chip outputs next. -/
def outPos (chip : Chip) : Option (ℕ × ℕ) :=
  match chip.phase with
  | .readOut page col => some (page, col)
  | _ => none

/-- The condition `(col < 2048) && (i < len)` of the inner loop. -/
def LoadState.More (len : ℕ) (s : LoadState) : Prop := s.col < 2048 ∧ s.i < len

instance (len : ℕ) : DecidablePred (LoadState.More len) :=
  fun _ => inferInstanceAs (Decidable (_ ∧ _))

/-- `buf[i] = nand_data(); i++; addr++; col++` (init.c:229-234). -/
def loadByte (s : LoadState) : LoadState :=
  let d := nandData s.chip
  { addr := (s.addr + 1) % addrSpace, col := s.col + 1, i := s.i + 1,
    buf := Function.update s.buf s.i d.1, src := s.src ++ (outPos s.chip).toList, chip := d.2 }

/-- The inner loop of `nand_read`; `col` counts up to 2048. -/
def loadColumns (len : ℕ) (s : LoadState) : LoadState :=
  repeatWhile (LoadState.More len) loadByte 2048 s

/-- The rest of a pass when the block is not skipped (init.c:212-240). -/
def loadPage (len : ℕ) (s : LoadState) : LoadState :=
  let chip := nandSelect s.chip
  let chip := nandCmd 0x00 chip
  let chip := nandAddr s.addr chip
  let chip := nandCmd 0x30 chip
  let s := loadColumns len { s with chip := chip }
  { s with col := 0, chip := nandDeselect s.chip }

/-- One pass of `while (i < len)` (init.c:203-242). `nand_bad` is called only at
    a multiple of the block size. -/
def nandReadPass (len : ℕ) (s : LoadState) : Pass LoadState LoadState :=
  if s.i < len then
    if s.addr &&& 0x1ffff = 0 then
      let b := nandBad s.addr s.chip
      if b.1 then .again { s with addr := (s.addr + 128 * 1024) % addrSpace, chip := b.2 }
      else .again (loadPage len { s with chip := b.2 })
    else .again (loadPage len s)
  else .leave s

/-- The state at the first test of the loop condition. -/
def loadStart (addr : ℕ) (buf : ℕ → Byte) (chip : Chip) : LoadState :=
  { addr := addr, col := addr % 2048, i := 0, buf := buf, src := [], chip := chip }

/-- `nand_read` (init.c:198-243): the state when it returns. -/
def nandRead (fuel addr : ℕ) (buf : ℕ → Byte) (len : ℕ) (chip : Chip) : Option LoadState :=
  loop (nandReadPass len) fuel (loadStart addr buf chip)

/-! ## One page -/

theorem nandBad_eq (addr : ℕ) (chip : Chip) (haddr : addr < addrSpace) :
    nandBad addr chip = (chip.cell (addr / 2048) 2048 != 0xff,
      { chip with phase := .readOut (addr / 2048) 2049, selected := false }) := by
  unfold addrSpace at haddr
  have hcmd := nandCmd_read (nandSelect chip) 2048 (addr / 2048) rfl (by norm_num) (by omega)
  simp only [nandBad, hcmd]
  rfl

theorem nandBad_iff {addr : ℕ} (chip : Chip) (haddr : addr < addrSpace)
    (halign : addr % 131072 = 0) :
    (nandBad addr chip).1 = true ↔ Bad chip.cell (addr / 131072) := by
  rw [nandBad_eq addr chip haddr, Bad, show addr / 2048 = addr / 131072 * 64 by omega]
  simp

/-- The state after `n` bytes of `page` have been stored. -/
def loaded (s : LoadState) (page n : ℕ) : LoadState :=
  { addr := (s.addr + n) % addrSpace, col := s.col + n, i := s.i + n,
    buf := fun k =>
      if s.i ≤ k ∧ k < s.i + n then s.chip.cell page (s.col + (k - s.i)) else s.buf k,
    src := s.src ++ (List.range n).map fun j => (page, s.col + j),
    chip := { s.chip with phase := .readOut page (s.col + n), selected := true } }

theorem loadByte_loaded (s : LoadState) (page n : ℕ) :
    loadByte (loaded s page n) = loaded s page (n + 1) := by
  have hdata := nandData_readOut (loaded s page n).chip rfl rfl
  have haddr : ((s.addr + n) % addrSpace + 1) % addrSpace = (s.addr + (n + 1)) % addrSpace := by
    rw [Nat.mod_add_mod, Nat.add_assoc]
  have hbuf : Function.update (loaded s page n).buf (s.i + n) (s.chip.cell page (s.col + n)) =
      (loaded s page (n + 1)).buf := by
    funext k
    simp only [loaded]
    by_cases hk : k = s.i + n
    · subst hk
      rw [Function.update_self, if_pos (by omega), Nat.add_sub_cancel_left]
    · rw [Function.update_of_ne hk]
      by_cases hk' : s.i ≤ k ∧ k < s.i + n
      · rw [if_pos hk', if_pos (by omega)]
      · rw [if_neg hk', if_neg (by omega)]
  unfold loadByte
  rw [hdata]
  simp only [loaded] at hbuf ⊢
  rw [haddr, hbuf]
  simp [outPos, List.range_succ, Nat.add_assoc]

/-- How many bytes the inner loop reads. -/
def pageBytes (len : ℕ) (s : LoadState) : ℕ := min (2048 - s.col) (len - s.i)

/-- A pass that reads stores the next bytes of the page of `addr`. -/
theorem loadPage_eq (len : ℕ) (s : LoadState) (haddr : s.addr < addrSpace)
    (hcol : s.col = s.addr % 2048) :
    loadPage len s =
      { loaded s (s.addr / 2048) (pageBytes len s) with
        col := 0
        chip := nandDeselect (loaded s (s.addr / 2048) (pageBytes len s)).chip } := by
  have hspace : s.addr < 2 ^ 32 := haddr
  have hcmd := nandCmd_read (nandSelect s.chip) (s.addr % 2048) (s.addr / 2048) rfl
    (by omega) (by omega)
  have hstart : { s with chip := { nandSelect s.chip with
      phase := .readOut (s.addr / 2048) (s.addr % 2048) } } = loaded s (s.addr / 2048) 0 := by
    obtain ⟨addr, col, i, buf, src, chip⟩ := s
    simp only at hcol haddr
    have hb : ∀ k, ¬ (i ≤ k ∧ k < i) := by omega
    simp [loaded, nandSelect, hcol, Nat.mod_eq_of_lt haddr, hb]
  have hloop : loadColumns len (loaded s (s.addr / 2048) 0) =
      loaded s (s.addr / 2048) (pageBytes len s) := by
    refine repeatWhile_count (loaded s (s.addr / 2048)) (pageBytes len s) ?_
      (fun j _ => loadByte_loaded s _ j) ?_ 2048 (by unfold pageBytes; omega)
    · intro j hj
      unfold pageBytes at hj
      exact ⟨by simp only [loaded]; omega, by simp only [loaded]; omega⟩
    · rintro ⟨h1, h2⟩
      simp only [loaded, pageBytes] at h1 h2
      omega
  unfold loadPage nandAddr
  simp only [hcmd]
  rw [hstart, hloop]

/-! ## One pass -/

/-- `s'` is `s` after the next bytes of the page of `addr` have been stored. -/
structure PageLoaded (len : ℕ) (s s' : LoadState) : Prop where
  addr : s'.addr = (s.addr + pageBytes len s) % addrSpace
  col : s'.col = 0
  i : s'.i = s.i + pageBytes len s
  stored : ∀ k, s.i ≤ k → k < s.i + pageBytes len s →
    s'.buf k = s.chip.cell (s.addr / 2048) (s.addr % 2048 + (k - s.i))
  rest : ∀ k, k < s.i ∨ s.i + pageBytes len s ≤ k → s'.buf k = s.buf k
  src : s'.src =
    s.src ++ (List.range (pageBytes len s)).map fun j => (s.addr / 2048, s.addr % 2048 + j)
  cell : s'.chip.cell = s.chip.cell

theorem loadPage_pageLoaded (len : ℕ) (s : LoadState) (haddr : s.addr < addrSpace)
    (hcol : s.col = s.addr % 2048) : PageLoaded len s (loadPage len s) := by
  rw [loadPage_eq len s haddr hcol]
  refine ⟨rfl, rfl, rfl, fun k h1 h2 => ?_, fun k hk => ?_, ?_, rfl⟩
  · simp only [loaded]
    rw [if_pos ⟨h1, h2⟩, hcol]
  · simp only [loaded]
    rw [if_neg (by omega)]
  · simp only [loaded, hcol]

/-- Only the cells of the chip matter for the result of a pass. -/
theorem PageLoaded.of_chip {len : ℕ} {s s' : LoadState} {chip : Chip}
    (h : PageLoaded len { s with chip := chip } s') (hcell : chip.cell = s.chip.cell) :
    PageLoaded len s s' := by
  refine ⟨h.addr, h.col, h.i, fun k h1 h2 => ?_, h.rest, h.src, h.cell.trans hcell⟩
  rw [← hcell]
  exact h.stored k h1 h2

/-- What a pass does when bytes are still missing: at the start of a bad block it
    moves on to the next block; otherwise it reads from the page of `addr`, and
    if `addr` is the start of a block then that block is good. -/
theorem nandReadPass_cases (len : ℕ) (s : LoadState) (hi : s.i < len) (haddr : s.addr < addrSpace)
    (hcol : s.col = s.addr % 2048) :
    (s.addr % 131072 = 0 ∧ Bad s.chip.cell (s.addr / 131072) ∧
      ∃ chip, chip.cell = s.chip.cell ∧ nandReadPass len s =
        .again { s with addr := (s.addr + 131072) % addrSpace, chip := chip }) ∨
    ((s.addr % 131072 = 0 → ¬ Bad s.chip.cell (s.addr / 131072)) ∧
      ∃ s', PageLoaded len s s' ∧ nandReadPass len s = .again s') := by
  unfold nandReadPass
  rw [if_pos hi, show (0x1ffff : ℕ) = 2 ^ 17 - 1 by rfl, Nat.and_two_pow_sub_one_eq_mod]
  by_cases halign : s.addr % 2 ^ 17 = 0
  · have hbad := nandBad_iff s.chip haddr (by simpa using halign)
    have hcell : (nandBad s.addr s.chip).2.cell = s.chip.cell := by
      rw [nandBad_eq s.addr s.chip haddr]
    rw [if_pos halign]
    by_cases hb : (nandBad s.addr s.chip).1 = true
    · left
      exact ⟨by simpa using halign, hbad.mp hb, _, hcell, if_pos hb⟩
    · right
      have hload := loadPage_pageLoaded len { s with chip := (nandBad s.addr s.chip).2 } haddr hcol
      exact ⟨fun _ h => hb (hbad.mpr h), _, hload.of_chip hcell, if_neg hb⟩
  · right
    rw [if_neg halign]
    exact ⟨fun h => absurd h (by simpa using halign), _, loadPage_pageLoaded len s haddr hcol, rfl⟩

end Jz2440.Nand.BadBlock
