import Jz2440.Common.Loop
import Jz2440.Nand.Chip

/-!
# `nand_erase`

Model of `nand_erase` in `nand_flash.c` of
`hard_driver/first_hard/019_nand_flash_016/004_erase_write_016_005`.

The loop erases a block, subtracts its size from `len` and only then tests `len`
for 0; `addr` and `len` are `unsigned int`. What it does is kept as the list of its
accesses to the controller, and `NandAccess.apply` says what they do to the chip.

* `nandErase_yields`: the accesses of every call with aligned arguments.
* `erasesExactly_iff`: they erase the requested blocks and no others iff the range is
  not empty and does not go past the end of the 32-bit address space.
* `nandErase_cells`: what the call then leaves in the cells.
-/

namespace Jz2440.Nand

open Jz2440.Common

/-! ## The code -/

/-- An access to the controller. -/
inductive NandAccess
  | select
  | deselect
  | cmd (b : Byte)
  | addr (b : Byte)
  deriving DecidableEq

/-- The size of a block, `128*1024`. -/
def blockSize : ℕ := 128 * 1024

/-- The accesses for one block (nand_flash.c:149-158). -/
def erasePage (page : ℕ) : List NandAccess :=
  [.cmd 0x60, .addr (addrByte page 0), .addr (addrByte page 8), .addr (addrByte page 16),
    .cmd 0xd0]

/-- `addr`, `len` and the accesses so far. -/
structure EraseState where
  addr : Word
  len : Word
  accesses : List NandAccess

/-- One pass of `while (1)` (nand_flash.c:147-166). -/
def nandErasePass (s : EraseState) : Pass EraseState EraseState :=
  let page := s.addr.toNat / 2048
  let accesses := s.accesses ++ erasePage page
  let len := s.len - BitVec.ofNat 32 blockSize
  if len = 0 then .leave ⟨s.addr, len, accesses⟩
  else .again ⟨s.addr + BitVec.ofNat 32 blockSize, len, accesses⟩

/-- `nand_erase` (nand_flash.c:129-170): the return value and the accesses. -/
def nandErase (addr len : Word) (fuel : ℕ) : Option (ℤ × List NandAccess) :=
  if addr &&& 0x1FFFF#32 ≠ 0 then some (-1, [])
  else if len &&& 0x1FFFF#32 ≠ 0 then some (-1, [])
  else (loop nandErasePass fuel ⟨addr, len, [.select]⟩).map fun s =>
    (0, s.accesses ++ [.deselect])

/-! ## The loop -/

/-- The number of passes: a length of 0 wraps round. -/
def erasePasses (len : Word) : ℕ := if len = 0 then 2 ^ 15 else len.toNat / blockSize

/-- The accesses of `n` passes. -/
def eraseFrom (addr : Word) (n : ℕ) : List NandAccess :=
  (List.range n).flatMap fun k => erasePage ((addr + BitVec.ofNat 32 (blockSize * k)).toNat / 2048)

theorem and_mask_eq_zero_iff (n : Word) : n &&& 0x1FFFF#32 = 0 ↔ blockSize ∣ n.toNat := by
  have hand : (n &&& 0x1FFFF#32).toNat = n.toNat % blockSize := by
    rw [BitVec.toNat_and]
    exact Nat.and_two_pow_sub_one_eq_mod n.toNat 17
  rw [Nat.dvd_iff_mod_eq_zero, ← hand]
  exact ⟨fun h => by rw [h]; rfl, fun h => BitVec.eq_of_toNat_eq h⟩

theorem eq_zero_iff_toNat (n : Word) : n = 0 ↔ n.toNat = 0 :=
  ⟨fun h => by rw [h]; rfl, fun h => BitVec.eq_of_toNat_eq h⟩

theorem erasePasses_pos {len : Word} (hlen : blockSize ∣ len.toNat) : 0 < erasePasses len := by
  unfold erasePasses
  split_ifs with h0
  · decide
  · rw [eq_zero_iff_toNat] at h0
    exact Nat.div_pos (Nat.le_of_dvd (Nat.pos_of_ne_zero h0) hlen) (by decide)

/-- `len` is 0 for the first time after the last pass. -/
theorem len_sub_eq_zero_iff {len : Word} (hlen : blockSize ∣ len.toNat) {k : ℕ}
    (hk : k < erasePasses len) :
    len - BitVec.ofNat 32 (blockSize * (k + 1)) = 0 ↔ k + 1 = erasePasses len := by
  have hlt := len.isLt
  obtain ⟨n, hn⟩ := hlen
  rw [eq_zero_iff_toNat, BitVec.toNat_sub, BitVec.toNat_ofNat]
  unfold erasePasses at hk ⊢
  split_ifs at hk ⊢ with h0
  · rw [eq_zero_iff_toNat] at h0
    unfold blockSize
    omega
  · rw [eq_zero_iff_toNat] at h0
    rw [hn, Nat.mul_div_cancel_left n (by decide)] at hk ⊢
    unfold blockSize at hn ⊢
    omega

theorem eraseFrom_succ (addr : Word) (n : ℕ) :
    eraseFrom addr (n + 1) =
      eraseFrom addr n ++ erasePage ((addr + BitVec.ofNat 32 (blockSize * n)).toNat / 2048) := by
  simp [eraseFrom, List.range_succ]

theorem nandErase_yields {addr len : Word} (haddr : blockSize ∣ addr.toNat)
    (hlen : blockSize ∣ len.toNat) :
    Yields (nandErase addr len)
      (0, .select :: eraseFrom addr (erasePasses len) ++ [.deselect]) := by
  obtain ⟨m, hm⟩ := Nat.exists_eq_add_of_le' (erasePasses_pos hlen)
  have hloop : Returns nandErasePass ⟨addr, len, [.select]⟩
      ⟨addr + BitVec.ofNat 32 (blockSize * m), 0, .select :: eraseFrom addr (m + 1)⟩ := by
    refine Returns.of_count (fun k => (⟨addr + BitVec.ofNat 32 (blockSize * k),
      len - BitVec.ofNat 32 (blockSize * k), .select :: eraseFrom addr k⟩ : EraseState)) m
      (by simp [eraseFrom]) (fun k hk => ?_) ?_
    · have hnext := len_sub_eq_zero_iff hlen (show k < erasePasses len by omega)
      rw [Nat.mul_succ, BitVec.ofNat_add, ← BitVec.sub_sub] at hnext
      simp only [nandErasePass]
      rw [if_neg (by rw [hnext]; omega), eraseFrom_succ, Nat.mul_succ, BitVec.ofNat_add,
        BitVec.add_assoc, BitVec.sub_sub]
      rfl
    · have hlast := len_sub_eq_zero_iff hlen (show m < erasePasses len by omega)
      rw [Nat.mul_succ, BitVec.ofNat_add, ← BitVec.sub_sub] at hlast
      have hzero := hlast.mpr hm.symm
      simp only [nandErasePass]
      rw [if_pos hzero, hzero, eraseFrom_succ]
      rfl
  have hyields := hloop.map fun s => ((0 : ℤ), s.accesses ++ [NandAccess.deselect])
  rw [hm]
  unfold nandErase
  rw [← and_mask_eq_zero_iff] at haddr hlen
  simpa only [haddr, hlen, ne_eq, not_true_eq_false, if_false] using hyields

/-! ## The requested blocks -/

/-- The erase command for a block. -/
def eraseCommand (block : ℕ) : List NandAccess := erasePage (64 * block)

/-- `nand_erase` refuses ranges that are not aligned and otherwise issues one erase command
    for each block of the range, in order, and nothing else. -/
def ErasesExactly (addr len : Word) : Prop :=
  if blockSize ∣ addr.toNat ∧ blockSize ∣ len.toNat then
    Yields (nandErase addr len)
      (0, .select :: ((List.range (len.toNat / blockSize)).flatMap fun k =>
        eraseCommand (addr.toNat / blockSize + k)) ++ [.deselect])
  else Yields (nandErase addr len) (-1, [])

theorem nandErase_refuses {addr len : Word}
    (h : ¬ (blockSize ∣ addr.toNat ∧ blockSize ∣ len.toNat)) :
    Yields (nandErase addr len) (-1, []) := by
  rw [← and_mask_eq_zero_iff, ← and_mask_eq_zero_iff] at h
  refine ⟨0, fun fuel _ => ?_⟩
  by_cases haddr : addr &&& 0x1FFFF#32 = 0
  · have hlen : len &&& 0x1FFFF#32 ≠ 0 := fun hlen => h ⟨haddr, hlen⟩
    rw [nandErase, if_neg (not_not.mpr haddr), if_pos hlen]
  · rw [nandErase, if_pos haddr]

/-- The page of pass `k`, where `addr` does not wrap round. -/
theorem page_of_pass {addr : Word} (haddr : blockSize ∣ addr.toNat) {k : ℕ}
    (hk : addr.toNat + blockSize * k < 2 ^ 32) :
    (addr + BitVec.ofNat 32 (blockSize * k)).toNat / 2048 =
      64 * (addr.toNat / blockSize + k) := by
  obtain ⟨n, hn⟩ := haddr
  rw [hn, Nat.mul_div_cancel_left n (by decide), BitVec.toNat_add, BitVec.toNat_ofNat, hn]
  rw [hn] at hk
  unfold blockSize at hk ⊢
  omega

/-- The page of the pass in which `addr` has come round to 0. -/
theorem page_of_wrap {addr : Word} {k : ℕ} (hk : addr.toNat + blockSize * k = 2 ^ 32) :
    (addr + BitVec.ofNat 32 (blockSize * k)).toNat / 2048 = 0 := by
  have hlt := addr.isLt
  rw [BitVec.toNat_add, BitVec.toNat_ofNat]
  unfold blockSize at hk ⊢
  omega

theorem length_flatMap_range {α : Type*} {f : ℕ → List α} {c : ℕ} (hf : ∀ k, (f k).length = c)
    (n : ℕ) : ((List.range n).flatMap f).length = n * c := by
  simp [List.length_flatMap, hf]

/-- Two sequences of commands of one length are equal only if they are so command by command. -/
theorem flatMap_range_inj {α : Type*} {f g : ℕ → List α} {c : ℕ} (hf : ∀ k, (f k).length = c)
    (hg : ∀ k, (g k).length = c) {n : ℕ}
    (h : (List.range n).flatMap f = (List.range n).flatMap g) {k : ℕ} (hk : k < n) :
    f k = g k := by
  induction n with
  | zero => exact absurd hk (Nat.not_lt_zero k)
  | succ n ih =>
    simp only [List.range_succ, List.flatMap_append, List.flatMap_singleton] at h
    obtain ⟨hinit, hlast⟩ := List.append_inj' h (by rw [hf, hg])
    rcases Nat.lt_succ_iff_lt_or_eq.mp hk with hlt | rfl
    · exact ih hinit hlt
    · exact hlast

theorem erasesExactly_of_inRange {addr len : Word} (haddr : blockSize ∣ addr.toNat)
    (hlen : blockSize ∣ len.toNat) (hne : len ≠ 0) (hend : addr.toNat + len.toNat ≤ 2 ^ 32) :
    ErasesExactly addr len := by
  have hyields := nandErase_yields haddr hlen
  have hpasses : erasePasses len = len.toNat / blockSize := if_neg hne
  have hblocks : eraseFrom addr (len.toNat / blockSize) =
      (List.range (len.toNat / blockSize)).flatMap fun k =>
        eraseCommand (addr.toNat / blockSize + k) := by
    apply List.flatMap_congr
    intro k hk
    rw [List.mem_range, Nat.lt_div_iff_mul_lt (by decide)] at hk
    rw [page_of_pass haddr (by rw [Nat.mul_comm]; omega)]
    rfl
  rw [hpasses, hblocks] at hyields
  rw [ErasesExactly, if_pos ⟨haddr, hlen⟩]
  exact hyields

/-- The commands for an empty range, and those after the end of the address space, are not
    the requested ones. -/
theorem not_erasesExactly {addr len : Word} (haddr : blockSize ∣ addr.toNat)
    (hlen : blockSize ∣ len.toNat) (hout : len = 0 ∨ 2 ^ 32 < addr.toNat + len.toNat) :
    ¬ ErasesExactly addr len := by
  intro hexact
  rw [ErasesExactly, if_pos ⟨haddr, hlen⟩] at hexact
  have heq := (Prod.mk.inj (hexact.unique (nandErase_yields haddr hlen))).2
  rw [List.append_left_inj, List.cons_inj_right] at heq
  have hpasses : len.toNat / blockSize = erasePasses len := by
    have hlength := congrArg List.length heq
    rw [eraseFrom, length_flatMap_range (c := 5) fun _ => rfl,
      length_flatMap_range (c := 5) fun _ => rfl] at hlength
    omega
  rcases hout with rfl | hlong
  · exact absurd hpasses (by decide)
  · -- the pass in which `addr` has come round erases block 0 and not block 2 ^ 15
    rw [hpasses] at heq
    obtain ⟨n, hn⟩ := haddr
    have hlt := addr.isLt
    have hk : 2 ^ 15 - n < erasePasses len := by
      obtain ⟨l, hl⟩ := hlen
      rw [← hpasses, hl, Nat.mul_div_cancel_left l (by decide)]
      unfold blockSize at hn hl
      omega
    have hcommand := flatMap_range_inj (c := 5) (fun _ => rfl) (fun _ => rfl) heq hk
    have hblock : addr.toNat / blockSize + (2 ^ 15 - n) = 2 ^ 15 := by
      rw [hn, Nat.mul_div_cancel_left n (by decide)]
      unfold blockSize at hn
      omega
    rw [hblock, page_of_wrap (by unfold blockSize at hn ⊢; omega)] at hcommand
    exact absurd hcommand (by decide)

/-- `nand_erase` erases exactly the requested range iff the arguments are not aligned, or the
    range is not empty and ends inside the 32-bit address space. -/
theorem erasesExactly_iff (addr len : Word) :
    ErasesExactly addr len ↔ (blockSize ∣ addr.toNat ∧ blockSize ∣ len.toNat →
      len ≠ 0 ∧ addr.toNat + len.toNat ≤ 2 ^ 32) := by
  constructor
  · rintro hexact ⟨haddr, hlen⟩
    by_contra hout
    refine not_erasesExactly haddr hlen ?_ hexact
    by_cases hzero : len = 0
    · exact .inl hzero
    · exact .inr (by by_contra hend; exact hout ⟨hzero, by omega⟩)
  · intro h
    by_cases haligned : blockSize ∣ addr.toNat ∧ blockSize ∣ len.toNat
    · obtain ⟨hne, hend⟩ := h haligned
      exact erasesExactly_of_inRange haligned.1 haligned.2 hne hend
    · rw [ErasesExactly, if_neg haligned]
      exact nandErase_refuses haligned

/-- Two blocks at the end of the address space. -/
theorem erasesExactly_last_blocks : ErasesExactly 0xfffc0000 0x40000 :=
  (erasesExactly_iff 0xfffc0000 0x40000).mpr fun _ => by decide

/-- `nand_erase(0, 0)` erases. -/
theorem not_erasesExactly_empty : ¬ ErasesExactly 0 0 :=
  not_erasesExactly (by decide) (by decide) (.inl rfl)

/-! ## The cells -/

/-- What an access does to the chip. -/
def NandAccess.apply : NandAccess → Chip → Chip
  | .select => nandSelect
  | .deselect => nandDeselect
  | .cmd b => nandCmd b
  | .addr b => nandAddrByte b

/-- The chip after some accesses. -/
def applyAll (accesses : List NandAccess) (chip : Chip) : Chip :=
  accesses.foldl (fun chip a => a.apply chip) chip

/-- The erase command on the selected chip. -/
theorem applyAll_eraseCommand {chip : Chip} (hsel : chip.selected = true) {block : ℕ}
    (hblock : block < 2 ^ 18) :
    applyAll (eraseCommand block) chip =
      { chip with cell := eraseBlock chip.cell (64 * block), phase := .idle } := by
  have hrow : rowOf (addrByte (64 * block) 0) (addrByte (64 * block) 8)
      (addrByte (64 * block) 16) = 64 * block := rowOf_addrByte (by omega)
  obtain ⟨cell, phase, selected⟩ := chip
  subst hsel
  simp [applyAll, eraseCommand, erasePage, NandAccess.apply, nandCmd, nandAddrByte, Chip.command,
    Chip.address, hrow]

/-- Some consecutive erase commands. -/
theorem applyAll_eraseCommands (chip : Chip) (hsel : chip.selected = true) {first n : ℕ}
    (hlast : first + n ≤ 2 ^ 18) :
    (applyAll ((List.range n).flatMap fun k => eraseCommand (first + k)) chip).selected = true ∧
      ∀ p c, (applyAll ((List.range n).flatMap fun k => eraseCommand (first + k)) chip).cell p c =
        if first ≤ p / 64 ∧ p / 64 < first + n then 0xff else chip.cell p c := by
  induction n with
  | zero =>
    refine ⟨hsel, fun p c => ?_⟩
    rw [if_neg (by omega)]
    rfl
  | succ n ih =>
    obtain ⟨hsel', hcell⟩ := ih (by omega)
    have hsplit : applyAll ((List.range (n + 1)).flatMap fun k => eraseCommand (first + k)) chip =
        applyAll (eraseCommand (first + n))
          (applyAll ((List.range n).flatMap fun k => eraseCommand (first + k)) chip) := by
      simp [applyAll, List.range_succ, List.foldl_append]
    rw [hsplit, applyAll_eraseCommand hsel' (by omega)]
    refine ⟨hsel', fun p c => ?_⟩
    show eraseBlock _ (64 * (first + n)) p c = _
    rw [eraseBlock, hcell, Nat.mul_div_cancel_left _ (by decide)]
    by_cases hp : p / 64 = first + n
    · rw [if_pos hp, if_pos (by omega)]
    · rw [if_neg hp]
      congr 1
      simp only [eq_iff_iff]
      omega

/-- A range that is erased exactly has only bytes `FFh` afterwards, and all other cells are as
    they were. -/
theorem nandErase_cells {addr len : Word} (haddr : blockSize ∣ addr.toNat)
    (hlen : blockSize ∣ len.toNat) (hne : len ≠ 0) (hend : addr.toNat + len.toNat ≤ 2 ^ 32)
    (chip : Chip) :
    ∃ accesses, Yields (nandErase addr len) (0, accesses) ∧ ∀ p c,
      (applyAll accesses chip).cell p c =
        if addr.toNat ≤ 2048 * p ∧ 2048 * p < addr.toNat + len.toNat then 0xff
        else chip.cell p c := by
  have hexact := erasesExactly_of_inRange haddr hlen hne hend
  rw [ErasesExactly, if_pos ⟨haddr, hlen⟩] at hexact
  refine ⟨_, hexact, fun p c => ?_⟩
  obtain ⟨a, ha⟩ := haddr
  obtain ⟨n, hn⟩ := hlen
  rw [ha, hn] at hend ⊢
  rw [Nat.mul_div_cancel_left a (by decide), Nat.mul_div_cancel_left n (by decide)]
  have hlast : a + n ≤ 2 ^ 18 := by
    unfold blockSize at hend
    omega
  obtain ⟨-, hcell⟩ := applyAll_eraseCommands (nandSelect chip) rfl hlast
  have hchip : (applyAll (.select :: ((List.range n).flatMap fun k => eraseCommand (a + k)) ++
      [.deselect]) chip).cell p c =
      (applyAll ((List.range n).flatMap fun k => eraseCommand (a + k))
        (nandSelect chip)).cell p c := by
    simp [applyAll, List.foldl_append, NandAccess.apply, nandDeselect]
  rw [hchip, hcell]
  congr 1
  simp only [eq_iff_iff]
  unfold blockSize
  omega

end Jz2440.Nand
