import Jz2440.Common.Memory
import Jz2440.Nand.LogicalStream

/-!
# Loading the program into SDRAM

Model of `isBootFromNorFlash` and `copy2sdram` in `init.c` of
`hard_driver/first_hard/025_sensors_022/007_irda_nec_ok_022_009`. The program runs at
first from address 0, which is NOR flash or the SRAM that the NAND controller has
filled, and copies itself to its link address in SDRAM: from NOR word by word, from NAND
with `nand_read`, which skips bad blocks (`Nand.BadBlock`).

* `copy2sdram_nor`: from NOR flash, from the loop over its words (`copyWords_yields`).
* `nandRead_range`: `nand_read` from address 0, as a range of SDRAM.
* `copy2sdram_same`: both ways leave the same SDRAM.
-/

namespace Jz2440.Boot

open Jz2440.Common
open Jz2440.Nand (Chip nandDeselect)
open Jz2440.Nand.BadBlock (nandRead goodStream nandRead_yields chipWithBad goodStream_bad
  goodStream_good)

/-! ## The memory at address 0 -/

/-- What is at address 0: SRAM can be written like memory, NOR flash cannot. -/
structure BootMem where
  mem : Mem
  writable : Bool

def BootMem.store (b : BootMem) (a : ℕ) (w : Word) : BootMem :=
  if b.writable then { b with mem := storeWord b.mem a w } else b

/-- `isBootFromNorFlash` (init.c:95-113). -/
def isBootFromNorFlash (b : BootMem) : Bool × BootMem :=
  let val := loadWord b.mem 0
  let b := b.store 0 0x12345678
  if loadWord b.mem 0 = 0x12345678 then (false, b.store 0 val) else (true, b)

/-- If the answer is 1 then nothing has been written. -/
theorem isBootFromNorFlash_nor {b : BootMem} (h : (isBootFromNorFlash b).1 = true) :
    (isBootFromNorFlash b).2 = b := by
  unfold isBootFromNorFlash at h ⊢
  cases hw : b.writable with
  | false =>
    simp only [BootMem.store, hw, Bool.false_eq_true, if_false] at h ⊢
    split_ifs
    · rfl
    · rfl
  | true =>
    simp only [BootMem.store, hw, if_true, loadWord_storeWord_self] at h
    exact absurd h Bool.false_ne_true

/-! ## `copy2sdram` -/

/-- The pointers `dest` and `src`, and the SDRAM. -/
structure CopyState where
  dest : ℕ
  src : ℕ
  sdram : Mem

/-- One pass of `while (dest < end) *dest++ = *src++`. -/
def copyWordsPass (boot : Mem) (stop : ℕ) (s : CopyState) : Pass CopyState Mem :=
  if s.dest < stop then
    .again ⟨s.dest + 4, s.src + 4, storeWord s.sdram s.dest (loadWord boot s.src)⟩
  else .leave s.sdram

/-- `nand_init` (nand_flash.c:7-16): the chip is not selected. -/
def nandInit (chip : Chip) : Chip := nandDeselect chip

/-- `copy2sdram` (init.c:116-141): the SDRAM afterwards. -/
def copy2sdram (fuel codeStart bssStart : ℕ) (boot : BootMem) (chip : Chip) (sdram : Mem) :
    Option Mem :=
  let len := bssStart - codeStart
  let nor := isBootFromNorFlash boot
  if nor.1 then loop (copyWordsPass nor.2.mem bssStart) fuel ⟨codeStart, 0, sdram⟩
  else
    -- `buf[i]` of `nand_read` is the byte at `codeStart + i`
    (nandRead fuel 0 (fun i => sdram (codeStart + i)) len (nandInit chip)).map fun s x =>
      if codeStart ≤ x then s.buf (x - codeStart) else sdram x

/-! ## The two ways -/

/-- The NOR flash from address 0 on, as a range of SDRAM. -/
theorem copyWords_yields (boot : Mem) (codeStart words : ℕ) (sdram : Mem) :
    Yields
      (fun fuel => loop (copyWordsPass boot (codeStart + 4 * words)) fuel ⟨codeStart, 0, sdram⟩)
      (storeRange sdram codeStart (4 * words) boot) := by
  refine Returns.of_count
    (fun k => (⟨codeStart + 4 * k, 4 * k, storeRange sdram codeStart (4 * k) boot⟩ : CopyState))
    words (by rw [Nat.mul_zero, storeRange_zero, Nat.add_zero]) (fun k hk => ?_) ?_
  · rw [copyWordsPass, if_pos (by simp only; omega), storeWord_loadWord, storeRange_append]
    rfl
  · rw [copyWordsPass, if_neg (by simp only; omega)]

/-- The program, booted from NOR flash. -/
theorem copy2sdram_nor {codeStart bssStart : ℕ} (hcode : codeStart % 4 = 0)
    (hbss : bssStart % 4 = 0) (hle : codeStart ≤ bssStart) {boot : BootMem}
    (hnor : (isBootFromNorFlash boot).1 = true) (chip : Chip) (sdram : Mem) :
    Yields (fun fuel => copy2sdram fuel codeStart bssStart boot chip sdram)
      (storeRange sdram codeStart (bssStart - codeStart) boot.mem) := by
  obtain ⟨words, rfl⟩ : ∃ words, bssStart = codeStart + 4 * words :=
    ⟨(bssStart - codeStart) / 4, by omega⟩
  have hcopy := copyWords_yields boot.mem codeStart words sdram
  simp only [copy2sdram, hnor, if_true, isBootFromNorFlash_nor hnor]
  rwa [Nat.add_sub_cancel_left]

/-- `nand_read` from address 0, as a range of SDRAM. -/
theorem nandRead_range (image : ℕ → Byte) (codeStart len : ℕ) (chip : Chip) (sdram : Mem)
    (hstored : (goodStream chip.cell 0).take len = (List.range len).map image) :
    Yields (fun fuel => (nandRead fuel 0 (fun i => sdram (codeStart + i)) len chip).map fun s x =>
      if codeStart ≤ x then s.buf (x - codeStart) else sdram x)
      (storeRange sdram codeStart len image) := by
  have hlen : len ≤ (goodStream chip.cell 0).length := by
    have := congrArg List.length hstored
    rw [List.length_take, List.length_map, List.length_range] at this
    omega
  obtain ⟨s, hyields, hinv, hi⟩ := nandRead_yields chip 0 (fun i => sdram (codeStart + i)) len
    (by decide) (.inl rfl) hlen
  have hbuf : ∀ k < len, s.buf k = image k := by
    intro k hk
    have hmap := (hinv.map_buf hi).trans hstored
    exact List.map_inj_left.mp hmap k (List.mem_range.mpr hk)
  have hsdram : (fun x => if codeStart ≤ x then s.buf (x - codeStart) else sdram x) =
      storeRange sdram codeStart len image := by
    funext x
    by_cases hx : codeStart ≤ x
    · obtain ⟨k, rfl⟩ := Nat.exists_eq_add_of_le hx
      rw [if_pos hx, Nat.add_sub_cancel_left]
      by_cases hk : k < len
      · rw [hbuf k hk, storeRange_at _ _ _ hk]
      · rw [hinv.rest k (by omega), storeRange_of_disjoint _ _ (by omega)]
    · rw [if_neg hx, storeRange_of_disjoint _ _ (by omega)]
  rw [← hsdram]
  exact hyields.map _

/-- Booted from NOR or from NAND, the SDRAM from `__code_start` to `__bss_start` holds the
    image afterwards and the rest of it is as before. The image is in the NOR flash from
    address 0 on, and in the good blocks of the NAND flash from block 0 on. -/
theorem copy2sdram_same (image : ℕ → Byte) (codeStart bssStart : ℕ) (hcode : codeStart % 4 = 0)
    (hbss : bssStart % 4 = 0) (hle : codeStart ≤ bssStart) (norBoot nandBoot : BootMem)
    (hnor : (isBootFromNorFlash norBoot).1 = true)
    (hnand : (isBootFromNorFlash nandBoot).1 = false) (idleChip chip : Chip)
    (hflash : ∀ k < bssStart - codeStart, norBoot.mem k = image k)
    (hstored : (goodStream chip.cell 0).take (bssStart - codeStart) =
      (List.range (bssStart - codeStart)).map image) (sdram : Mem) :
    ∃ sdram',
      Yields (fun fuel => copy2sdram fuel codeStart bssStart norBoot idleChip sdram) sdram' ∧
      Yields (fun fuel => copy2sdram fuel codeStart bssStart nandBoot chip sdram) sdram' ∧
      (∀ k < bssStart - codeStart, sdram' (codeStart + k) = image k) ∧
      ∀ x, x < codeStart ∨ bssStart ≤ x → sdram' x = sdram x := by
  refine ⟨storeRange sdram codeStart (bssStart - codeStart) image, ?_, ?_, ?_, ?_⟩
  · have hcopy := copy2sdram_nor hcode hbss hle hnor idleChip sdram
    rwa [storeRange_congr sdram codeStart hflash] at hcopy
  · simp only [copy2sdram, hnand, Bool.false_eq_true, if_false]
    exact nandRead_range image codeStart _ (nandInit chip) sdram hstored
  · exact fun k hk => storeRange_at _ _ _ hk
  · exact fun x hx => storeRange_of_disjoint _ _ (by omega)

/-- Eight bytes of 0xff, in NOR flash and in a NAND flash whose block 0 is bad. -/
theorem copy2sdram_same_bad_block :
    ∃ sdram',
      Yields (fun fuel => copy2sdram fuel 0xb0000000 0xb0000008 ⟨fun _ => 0xff, false⟩
        (chipWithBad 0) fun _ => 0) sdram' ∧
      Yields (fun fuel => copy2sdram fuel 0xb0000000 0xb0000008 ⟨fun _ => 0, true⟩
        (chipWithBad 0) fun _ => 0) sdram' ∧
      (∀ k < 8, sdram' (0xb0000000 + k) = 0xff) ∧
      ∀ x, x < 0xb0000000 ∨ 0xb0000008 ≤ x → sdram' x = 0 := by
  have hstored : (goodStream (chipWithBad 0).cell 0).take 8 = (List.range 8).map fun _ => 0xff := by
    rw [goodStream_bad (by decide) (by decide) (by decide),
      goodStream_good (n := 8) (by decide) (by decide) (by decide), List.take_left' (by simp)]
    decide
  exact copy2sdram_same (fun _ => 0xff) 0xb0000000 0xb0000008 (by decide) (by decide) (by decide)
    ⟨fun _ => 0xff, false⟩ ⟨fun _ => 0, true⟩ (by decide) (by decide) (chipWithBad 0)
    (chipWithBad 0) (fun _ _ => rfl) hstored fun _ => 0

end Jz2440.Boot
