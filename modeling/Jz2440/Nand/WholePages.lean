import Jz2440.Common.Memory
import Jz2440.Nand.RoundTrip

/-!
# Copying the program from NAND flash in whole pages

Model of `nand_read` in `nand.c` of
`hard_driver/first_hard/023_spi_020/05th_spi_i2c_adc_jz2440_spi_controller_020_006`, as it runs on
the S3C2440 with large pages, and of the same function in `hard_driver/hard/nand/nand.c`, which
first checks the alignment. Both read 2048 bytes at a time, from the column of the address on.

`i` is an `int`, but it is compared as an `unsigned long` and passed on as an `unsigned int`, so
that below `2^32` it is a natural number. The pointer `buf` is the offset `n` into the buffer.
The busy loops of the primitives are left out; those of the S3C2410 are not modelled.

* `nandRead_yields`: the buffer after `nand_read`, for every address and size.
* `copiesExactly_iff`: it holds exactly the requested bytes iff none are requested, or address
  and size are multiples of 2048 and end below `2^29`. The last address cycle has only two bits
  of the page.
* `nandReadAligned_within`: the check keeps the other one from writing beyond the buffer.
-/

namespace Jz2440.Nand.WholePages

open Jz2440.Common

/-! ## The code -/

/-- `s3c2440_write_addr_lp` (nand.c:245-267). -/
def writeAddrLp (addr : ℕ) (chip : Chip) : Chip :=
  let col := addr &&& (2048 - 1)
  let page := addr / 2048
  let chip := nandAddrByte (BitVec.ofNat 8 (col &&& 0xff)) chip
  let chip := nandAddrByte (BitVec.ofNat 8 ((col >>> 8) &&& 0x0f)) chip
  let chip := nandAddrByte (BitVec.ofNat 8 (page &&& 0xff)) chip
  let chip := nandAddrByte (BitVec.ofNat 8 ((page >>> 8) &&& 0xff)) chip
  nandAddrByte (BitVec.ofNat 8 ((page >>> 16) &&& 0x03)) chip

/-- `i`, the offset of `buf`, the buffer and the chip. -/
structure CopyState where
  i : ℕ
  n : ℕ
  buf : ℕ → Byte
  chip : Chip

/-- `*buf = read_data(); buf++; i++` (nand.c:420-426). -/
def copyByte (s : CopyState) : CopyState :=
  let d := nandData s.chip
  { i := s.i + 1, n := s.n + 1, buf := Function.update s.buf s.n d.1, chip := d.2 }

/-- One pass of the loop of `nand_read` (nand.c:408-427). -/
def nandReadPass (stop : ℕ) (s : CopyState) : Pass CopyState CopyState :=
  if s.i < stop then
    let chip := nandCmd 0x00 s.chip
    let chip := writeAddrLp s.i chip
    let chip := nandCmd 0x30 chip
    .again (copyByte^[2048] { s with chip := chip })
  else .leave s

/-- `nand_read` (nand.c:401-433), to which `CopyCode2SDRAM` (init.c:113-118) passes its arguments
    on: the buffer and the chip afterwards. -/
def nandRead (fuel : ℕ) (buf : ℕ → Byte) (startAddr size : ℕ) (chip : Chip) :
    Option ((ℕ → Byte) × Chip) :=
  (loop (nandReadPass (startAddr + size)) fuel ⟨startAddr, 0, buf, nandSelect chip⟩).map fun s =>
    (s.buf, nandDeselect s.chip)

/-- `nand_read` of `hard/nand/nand.c` (nand.c:330-372). -/
def nandReadAligned (fuel : ℕ) (buf : ℕ → Byte) (startAddr size : ℕ) (chip : Chip) :
    Option ((ℕ → Byte) × Chip) :=
  if startAddr &&& (2048 - 1) ≠ 0 ∨ size &&& (2048 - 1) ≠ 0 then some (buf, chip)
  else nandRead fuel buf startAddr size chip

/-! ## One page -/

/-- An address cycle that is masked to its low `k` bits. -/
theorem toNat_cycle (n mask k : ℕ) (hmask : mask = 2 ^ k - 1) (hk : k ≤ 8) :
    (BitVec.ofNat 8 (n &&& mask)).toNat = n % 2 ^ k := by
  rw [hmask, BitVec.toNat_ofNat, Nat.and_two_pow_sub_one_eq_mod]
  refine Nat.mod_eq_of_lt (lt_of_lt_of_le (Nat.mod_lt n (Nat.two_pow_pos k)) ?_)
  exact Nat.pow_le_pow_right (by decide) hk

theorem colOf_cycles (addr : ℕ) :
    colOf (BitVec.ofNat 8 ((addr &&& (2048 - 1)) &&& 0xff))
      (BitVec.ofNat 8 (((addr &&& (2048 - 1)) >>> 8) &&& 0x0f)) = addr % 2048 := by
  rw [colOf, toNat_cycle _ 0xff 8 rfl le_rfl, toNat_cycle _ 0x0f 4 rfl (by decide),
    and_2047, Nat.shiftRight_eq_div_pow]
  omega

theorem rowOf_cycles (page : ℕ) :
    rowOf (BitVec.ofNat 8 (page &&& 0xff)) (BitVec.ofNat 8 ((page >>> 8) &&& 0xff))
      (BitVec.ofNat 8 ((page >>> 16) &&& 0x03)) = page % 2 ^ 18 := by
  rw [rowOf, toNat_cycle _ 0xff 8 rfl le_rfl, toNat_cycle _ 0xff 8 rfl le_rfl,
    toNat_cycle _ 0x03 2 rfl (by decide), Nat.shiftRight_eq_div_pow, Nat.shiftRight_eq_div_pow]
  omega

/-- The read command puts the chip at the column of the address, in the page that the low 18
    bits of the page number name. -/
theorem nandCmd_read_lp (chip : Chip) (addr : ℕ) (hsel : chip.selected = true) :
    nandCmd 0x30 (writeAddrLp addr (nandCmd 0x00 chip)) =
      { chip with phase := .readOut (addr / 2048 % 2 ^ 18) (addr % 2048) } := by
  obtain ⟨cell, phase, selected⟩ := chip
  dsimp only at hsel
  subst hsel
  rw [← colOf_cycles addr, ← rowOf_cycles (addr / 2048)]
  rfl

theorem copyByte_eq (s : CopyState) (page col : ℕ) (hsel : s.chip.selected = true)
    (hphase : s.chip.phase = .readOut page col) :
    copyByte s =
      { i := s.i + 1, n := s.n + 1, buf := Function.update s.buf s.n (s.chip.cell page col)
        chip := { s.chip with phase := .readOut page (col + 1) } } := by
  simp only [copyByte, nandData_readOut _ hsel hphase]

/-- `k` bytes of the page, from the column on. -/
theorem copyByte_iterate {s : CopyState} {page col : ℕ} (hsel : s.chip.selected = true)
    (hphase : s.chip.phase = .readOut page col) (k : ℕ) :
    copyByte^[k] s =
      { i := s.i + k, n := s.n + k
        buf := storeRange s.buf s.n k fun j => s.chip.cell page (col + j)
        chip := { s.chip with phase := .readOut page (col + k) } } := by
  induction k with
  | zero =>
    obtain ⟨i, n, buf, cell, phase, selected⟩ := s
    dsimp only at hphase
    rw [hphase, storeRange_zero]
    rfl
  | succ k ih =>
    rw [Function.iterate_succ_apply', ih, copyByte_eq _ page (col + k) (by exact hsel) rfl,
      ← storeRange_succ]
    rfl

/-! ## All pages -/

/-- The byte that ends up at offset `k` of the buffer: byte `k % 2048` of pass `k / 2048`. -/
def streamed (cell : ℕ → ℕ → Byte) (startAddr k : ℕ) : Byte :=
  cell ((startAddr / 2048 + k / 2048) % 2 ^ 18) (startAddr % 2048 + k % 2048)

/-- The phase of the chip after `p` passes. -/
def phaseAfter (chip : Chip) (startAddr : ℕ) : ℕ → Phase
  | 0 => chip.phase
  | p + 1 => .readOut ((startAddr / 2048 + p) % 2 ^ 18) (startAddr % 2048 + 2048)

/-- The state at the head of the loop after `p` passes. -/
def stateAfter (buf : ℕ → Byte) (startAddr : ℕ) (chip : Chip) (p : ℕ) : CopyState :=
  { i := startAddr + 2048 * p
    n := 2048 * p
    buf := storeRange buf 0 (2048 * p) (streamed chip.cell startAddr)
    chip := { chip with phase := phaseAfter chip startAddr p, selected := true } }

section Pages

variable (buf : ℕ → Byte) (startAddr size : ℕ) (chip : Chip)

theorem nandReadPass_again {p : ℕ} (hp : 2048 * p < size) :
    nandReadPass (startAddr + size) (stateAfter buf startAddr chip p) =
      .again (stateAfter buf startAddr chip (p + 1)) := by
  have hmore : startAddr + 2048 * p < startAddr + size := by omega
  have hpage : (startAddr + 2048 * p) / 2048 = startAddr / 2048 + p := by omega
  have hcol : (startAddr + 2048 * p) % 2048 = startAddr % 2048 := by omega
  have hbytes : ∀ j < 2048, streamed chip.cell startAddr (2048 * p + j) =
      chip.cell ((startAddr / 2048 + p) % 2 ^ 18) (startAddr % 2048 + j) := by
    intro j hj
    rw [streamed, show (2048 * p + j) / 2048 = p by omega,
      show (2048 * p + j) % 2048 = j by omega]
  rw [nandReadPass, stateAfter, if_pos hmore]
  dsimp only
  rw [nandCmd_read_lp _ _ rfl, copyByte_iterate rfl rfl, hpage, hcol, stateAfter, phaseAfter,
    show 2048 * (p + 1) = 2048 * p + 2048 by omega, ← storeRange_append,
    storeRange_congr _ _ hbytes, Nat.zero_add, ← Nat.add_assoc]

/-- `nand_read` returns. It has stored a multiple of 2048 bytes. -/
theorem nandRead_yields :
    ∃ chip', Yields (fun fuel => nandRead fuel buf startAddr size chip)
      (storeRange buf 0 (2048 * ((size + 2047) / 2048)) (streamed chip.cell startAddr), chip') ∧
      chip'.cell = chip.cell := by
  have hstart : (⟨startAddr, 0, buf, nandSelect chip⟩ : CopyState) =
      stateAfter buf startAddr chip 0 := by
    rw [stateAfter, Nat.mul_zero, storeRange_zero]
    rfl
  have hloop : Returns (nandReadPass (startAddr + size)) ⟨startAddr, 0, buf, nandSelect chip⟩
      (stateAfter buf startAddr chip ((size + 2047) / 2048)) := by
    refine Returns.of_count (stateAfter buf startAddr chip) ((size + 2047) / 2048) hstart
      (fun p hp => nandReadPass_again buf startAddr size chip (by omega)) (if_neg ?_)
    show ¬ startAddr + 2048 * ((size + 2047) / 2048) < startAddr + size
    omega
  exact ⟨_, hloop.map _, rfl⟩

end Pages

/-! ## What is copied -/

/-- `nand_read` stores the main-area bytes from `startAddr` on in `buf[0..size-1]` and no
    other byte, whatever is in the flash and in the buffer. -/
def CopiesExactly (startAddr size : ℕ) : Prop :=
  ∀ (chip : Chip) (buf : ℕ → Byte),
    ∃ buf' chip', Yields (fun fuel => nandRead fuel buf startAddr size chip) (buf', chip') ∧
      (∀ k < size, buf' k = mainByte chip.cell (startAddr + k)) ∧
      ∀ k, size ≤ k → buf' k = buf k

variable {startAddr size : ℕ}

/-- The result of `nand_read`, if it copies exactly. -/
theorem CopiesExactly.streamed_eq (h : CopiesExactly startAddr size) (cell : ℕ → ℕ → Byte)
    {k : ℕ} (hk : k < size) :
    streamed cell startAddr k = mainByte cell (startAddr + k) := by
  obtain ⟨buf', chip', hyields, hmain, -⟩ := h ⟨cell, .idle, false⟩ fun _ => 0
  obtain ⟨chip₁, hyields₁, -⟩ := nandRead_yields (fun _ => 0) startAddr size ⟨cell, .idle, false⟩
  obtain ⟨rfl, -⟩ := Prod.mk.inj (hyields.unique hyields₁)
  rw [← hmain k hk]
  have hat := storeRange_at (fun _ => 0) 0 (streamed cell startAddr)
    (show k < 2048 * ((size + 2047) / 2048) by omega)
  rw [Nat.zero_add] at hat
  exact hat.symm

/-- The last page is read to its end. -/
theorem CopiesExactly.size_dvd (h : CopiesExactly startAddr size) : size % 2048 = 0 := by
  by_contra hsize
  obtain ⟨buf', chip', hyields, -, hrest⟩ := h ⟨fun _ _ => 0, .idle, false⟩ fun _ => 0xff
  obtain ⟨chip₁, hyields₁, -⟩ :=
    nandRead_yields (fun _ => 0xff) startAddr size ⟨fun _ _ => 0, .idle, false⟩
  obtain ⟨rfl, -⟩ := Prod.mk.inj (hyields.unique hyields₁)
  have hbeyond := hrest size le_rfl
  rw [storeRange, if_pos (by omega)] at hbeyond
  have hzero : (0 : Byte) = 0xff := hbeyond
  exact absurd hzero (by decide)

/-- From an address inside a page, the spare area follows. -/
theorem CopiesExactly.start_dvd (h : CopiesExactly startAddr size) (hsize : 2048 ≤ size) :
    startAddr % 2048 = 0 := by
  by_contra hstart
  have hspare := h.streamed_eq (fun _ c => if c < 2048 then 0 else 1)
    (show 2048 - startAddr % 2048 < size by omega)
  rw [streamed, mainByte, if_neg (by omega), if_pos (by omega)] at hspare
  exact absurd hspare (by decide)

/-- Behind `2^29` the page number is cut off. -/
theorem CopiesExactly.stop_le (h : CopiesExactly startAddr size) (hsize : 0 < size) :
    startAddr + size ≤ 2 ^ 29 := by
  by_contra hstop
  have hlast := h.streamed_eq (fun p _ => if p < 2 ^ 18 then 0 else 1)
    (show size - 1 < size by omega)
  rw [streamed, mainByte, if_pos (Nat.mod_lt _ (by decide)), if_neg (by omega)] at hlast
  exact absurd hlast (by decide)

theorem copiesExactly_aligned (hstart : startAddr % 2048 = 0) (hsize : size % 2048 = 0)
    (hstop : startAddr + size ≤ 2 ^ 29) : CopiesExactly startAddr size := by
  intro chip buf
  obtain ⟨chip', hyields, -⟩ := nandRead_yields buf startAddr size chip
  have hcount : 2048 * ((size + 2047) / 2048) = size := by omega
  rw [hcount] at hyields
  refine ⟨_, chip', hyields, fun k hk => ?_, fun k hk => ?_⟩
  · have hat := storeRange_at buf 0 (streamed chip.cell startAddr) hk
    rw [Nat.zero_add] at hat
    rw [hat, streamed, mainByte]
    congr 1 <;> omega
  · exact storeRange_of_disjoint _ _ (by omega)

/-- For every address and size below `2^31`, `nand_read` stores exactly the requested bytes iff
    none are requested, or whole pages that lie below `2^29`. -/
theorem copiesExactly_iff (startAddr size : ℕ) (_hrange : startAddr + size < 2 ^ 31) :
    CopiesExactly startAddr size ↔
      size = 0 ∨ (startAddr % 2048 = 0 ∧ size % 2048 = 0 ∧ startAddr + size ≤ 2 ^ 29) := by
  constructor
  · intro h
    by_cases hzero : size = 0
    · exact .inl hzero
    · have hsize := h.size_dvd
      exact .inr ⟨h.start_dvd (by omega), hsize, h.stop_le (by omega)⟩
  · rintro (rfl | ⟨hstart, hsize, hstop⟩)
    · intro chip buf
      obtain ⟨chip', hyields, -⟩ := nandRead_yields buf startAddr 0 chip
      exact ⟨_, chip', hyields, fun k hk => absurd hk (Nat.not_lt_zero k),
        fun k _ => storeRange_of_disjoint _ _ (by omega)⟩
    · exact copiesExactly_aligned hstart hsize hstop

theorem copiesExactly_two_pages : 2048 + 4096 < 2 ^ 31 ∧ CopiesExactly 2048 4096 :=
  ⟨by decide, (copiesExactly_iff 2048 4096 (by decide)).mpr (.inr (by decide))⟩

/-- 100 bytes from address 0: the rest of the page is written behind them. -/
theorem not_copiesExactly_part :
    ¬ ∀ startAddr size, startAddr + size < 2 ^ 31 → CopiesExactly startAddr size := by
  intro h
  exact absurd (h 0 100 (by decide)).size_dvd (by decide)

/-- With the check of the alignment nothing is written beyond the buffer. -/
theorem nandReadAligned_within (buf : ℕ → Byte) (startAddr size : ℕ) (chip : Chip) :
    ∃ buf' chip', Yields (fun fuel => nandReadAligned fuel buf startAddr size chip) (buf', chip') ∧
      ∀ k, size ≤ k → buf' k = buf k := by
  unfold nandReadAligned
  rw [and_2047, and_2047]
  by_cases haligned : startAddr % 2048 ≠ 0 ∨ size % 2048 ≠ 0
  · simp only [if_pos haligned]
    exact ⟨buf, chip, ⟨0, fun _ _ => rfl⟩, fun _ _ => rfl⟩
  · simp only [if_neg haligned]
    obtain ⟨chip', hyields, -⟩ := nandRead_yields buf startAddr size chip
    exact ⟨_, chip', hyields, fun k hk => storeRange_of_disjoint _ _ (by omega)⟩

end Jz2440.Nand.WholePages
