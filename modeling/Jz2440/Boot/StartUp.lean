import Jz2440.Boot.Copy

/-!
# The memory that the start-up code touches

Model of `clean_bss` in `init.c` of
`hard_driver/first_hard/025_sensors_022/007_irda_nec_ok_022_009`, and of the two calls in
`start.S` (lines 174 and 177): `copy2sdram` (`Boot/Copy.lean`) and then `clean_bss`. The symbols
`__code_start`, `__bss_start` and `_end` come from `sdram.lds`.

The loop of `copy2sdram` runs while `dest < end`, but that of `clean_bss` while `start <= end`, so
it clears the word at `_end` too, which is the first one behind the program. The pointer `start`
has 32 bits: if `_end` is the last word of the address space, the loop never ends.

* `cleanBss_yields`: the range that is cleared, for every `_end`, aligned or not.
* `copy2sdram_returns_iff`: `copy2sdram` returns unless it searches a NAND flash for a good block
  that is not there; `copy2sdram_frame`: what it leaves alone.
* `touchesExactly_iff`: start-up touches exactly the memory of the program iff it returns and the
  word at `_end` was 0 before.
-/

namespace Jz2440.Boot

open Jz2440.Common
open Jz2440.Nand (Chip)
open Jz2440.Nand.BadBlock (nandRead Bad blocks nandRead_returns nandRead_returns_iff)

/-! ## The code -/

/-- `start` and the SDRAM. -/
structure CleanState where
  start : ℕ
  sdram : Mem

/-- One pass of `while (start <= end) *start++ = 0`. -/
def cleanBssPass (stop : ℕ) (s : CleanState) : Pass CleanState Mem :=
  if s.start ≤ stop then .again ⟨(s.start + 4) % 2 ^ 32, storeWord s.sdram s.start 0⟩
  else .leave s.sdram

/-- `clean_bss` (init.c:144-158): the SDRAM afterwards. -/
def cleanBss (fuel bssStart stop : ℕ) (sdram : Mem) : Option Mem :=
  loop (cleanBssPass stop) fuel ⟨bssStart, sdram⟩

/-- `__code_start`, `__bss_start` and `_end`, all of them word-aligned. -/
structure Layout where
  codeStart : ℕ
  bssStart : ℕ
  stop : ℕ
  code_aligned : codeStart % 4 = 0
  bss_aligned : bssStart % 4 = 0
  stop_aligned : stop % 4 = 0
  code_le : codeStart ≤ bssStart
  bss_le : bssStart ≤ stop
  stop_lt : stop < 2 ^ 32

/-! ## `clean_bss` -/

theorem storeWord_zero (m : Mem) (a : ℕ) : storeWord m a 0 = storeRange m a 4 fun _ => 0 := by
  refine storeRange_congr m a fun k _ => ?_
  simp [byteOf]

/-- `clean_bss` clears whole words up to and including the one at `_end`. -/
theorem cleanBss_yields {bssStart stop words : ℕ} (hle : bssStart ≤ stop)
    (hwords : words = (stop - bssStart) / 4 + 1) (hlt : bssStart + 4 * words < 2 ^ 32)
    (sdram : Mem) :
    Yields (fun fuel => cleanBss fuel bssStart stop sdram)
      (storeRange sdram bssStart (4 * words) fun _ => 0) := by
  refine Returns.of_count
    (fun k => (⟨bssStart + 4 * k, storeRange sdram bssStart (4 * k) fun _ => 0⟩ : CleanState))
    words (by rw [Nat.mul_zero, storeRange_zero, Nat.add_zero]) (fun k hk => ?_) ?_
  · rw [cleanBssPass, if_pos (by simp only; omega), storeWord_zero, storeRange_append]
    simp only [Nat.mod_eq_of_lt (show bssStart + 4 * k + 4 < 2 ^ 32 by omega)]
    rfl
  · rw [cleanBssPass, if_neg (by simp only; omega)]

/-- Every aligned address is at most the last one. -/
theorem cleanBss_never {bssStart : ℕ} (haligned : bssStart % 4 = 0) (hlt : bssStart < 2 ^ 32)
    (sdram : Mem) (fuel : ℕ) : cleanBss fuel bssStart 0xfffffffc sdram = none := by
  refine loop_eq_none (fun s => s.start % 4 = 0 ∧ s.start < 2 ^ 32) (fun s hs => ?_) fuel
    ⟨haligned, hlt⟩
  obtain ⟨hs, hs'⟩ := hs
  refine ⟨_, if_pos (by omega), ?_, Nat.mod_lt _ (by decide)⟩
  simp only
  omega

/-! ## `copy2sdram` -/

/-- Booted from NOR flash, or nothing to copy, or a block of the NAND flash is good. -/
def CanCopy (l : Layout) (boot : BootMem) (chip : Chip) : Prop :=
  (isBootFromNorFlash boot).1 = true ∨ l.codeStart = l.bssStart ∨
    ∃ good < blocks, ¬ Bad chip.cell good

section Copy

variable (l : Layout) {boot : BootMem} {chip : Chip} (sdram : Mem)

/-- What `copy2sdram` leaves alone if it returns. -/
theorem copy2sdram_frame (h : CanCopy l boot chip) :
    ∃ copied, Yields (fun fuel => copy2sdram fuel l.codeStart l.bssStart boot chip sdram) copied ∧
      ∀ x, x < l.codeStart ∨ l.bssStart ≤ x → copied x = sdram x := by
  have hle := l.code_le
  cases hnor : (isBootFromNorFlash boot).1 with
  | true =>
    have hcopy := copy2sdram_nor l.code_aligned l.bss_aligned hle hnor chip sdram
    exact ⟨_, hcopy, fun x hx => storeRange_of_disjoint _ _ (by omega)⟩
  | false =>
    have hgood : l.bssStart - l.codeStart = 0 ∨ ∃ good < blocks, ¬ Bad chip.cell good := by
      rcases h with hboot | hempty | hgood
      · exact absurd (hnor.symm.trans hboot) Bool.false_ne_true
      · exact .inl (by omega)
      · exact .inr hgood
    obtain ⟨s, hs, hrest⟩ := nandRead_returns (nandInit chip) 0
      (fun i => sdram (l.codeStart + i)) (by decide) (.inl rfl) hgood
    simp only [copy2sdram, hnor, Bool.false_eq_true, if_false]
    refine ⟨_, hs.map _, fun x hx => ?_⟩
    split_ifs with hx'
    · rw [hrest _ (by omega), Nat.add_sub_cancel' hx']
    · rfl

theorem copy2sdram_returns_iff :
    (∃ copied,
      Yields (fun fuel => copy2sdram fuel l.codeStart l.bssStart boot chip sdram) copied) ↔
      CanCopy l boot chip := by
  constructor
  · rintro ⟨copied, n, hn⟩
    cases hnor : (isBootFromNorFlash boot).1 with
    | true => exact .inl hnor
    | false =>
      right
      have hrun := hn n le_rfl
      simp only [copy2sdram, hnor, Bool.false_eq_true, if_false, Option.map_eq_some_iff] at hrun
      obtain ⟨s, hs, -⟩ := hrun
      have hle := l.code_le
      obtain hlen | hgood := (nandRead_returns_iff (nandInit chip) 0 _ _ (by decide) (.inl rfl)).mp
        ⟨s, Returns.of_loop hs⟩
      · exact .inl (by omega)
      · exact .inr hgood
  · intro h
    obtain ⟨copied, hcopied, -⟩ := copy2sdram_frame l sdram h
    exact ⟨copied, hcopied⟩

end Copy

/-! ## Both together -/

/-- The BSS is 0, `clean_bss` has left the image as it was copied, and outside the program the
    SDRAM is as before. -/
structure Touched (l : Layout) (before copied after : Mem) : Prop where
  bss : ∀ x, l.bssStart ≤ x → x < l.stop → after x = 0
  image : ∀ x, l.codeStart ≤ x → x < l.bssStart → after x = copied x
  outside : ∀ x, x < l.codeStart ∨ l.stop ≤ x → after x = before x

/-- `copy2sdram` and then `clean_bss` return and have touched exactly the memory of the program. -/
def TouchesExactly (l : Layout) (boot : BootMem) (chip : Chip) (sdram : Mem) : Prop :=
  ∃ copied after,
    Yields (fun fuel => copy2sdram fuel l.codeStart l.bssStart boot chip sdram) copied ∧
      Yields (fun fuel => cleanBss fuel l.bssStart l.stop copied) after ∧
      Touched l sdram copied after

section StartUp

variable {l : Layout} {boot : BootMem} {chip : Chip} {sdram : Mem}

/-- The BSS and the word behind it are cleared. -/
theorem cleanBss_layout (l : Layout) (h : l.stop ≠ 0xfffffffc) (copied : Mem) :
    Yields (fun fuel => cleanBss fuel l.bssStart l.stop copied)
      (storeRange copied l.bssStart (l.stop + 4 - l.bssStart) fun _ => 0) := by
  have hbss := l.bss_aligned
  have hstop := l.stop_aligned
  have hle := l.bss_le
  have hlt := l.stop_lt
  have hyields := cleanBss_yields hle rfl (by omega) copied
  rwa [show 4 * ((l.stop - l.bssStart) / 4 + 1) = l.stop + 4 - l.bssStart by omega] at hyields

theorem stop_ne_of_returns {copied after : Mem}
    (h : Yields (fun fuel => cleanBss fuel l.bssStart l.stop copied) after) :
    l.stop ≠ 0xfffffffc := by
  intro hstop
  have hle := l.bss_le
  obtain ⟨n, hn⟩ := h
  have hnever := cleanBss_never l.bss_aligned (by omega) copied n
  rw [← hstop] at hnever
  cases hnever.symm.trans (hn n le_rfl)

/-- The word at `_end` is 0 afterwards, so it has to be 0 before. -/
theorem zero_of_touchesExactly (h : TouchesExactly l boot chip sdram) :
    ∀ k < 4, sdram (l.stop + k) = 0 := by
  obtain ⟨copied, after, -, hclean, htouched⟩ := h
  have hle := l.bss_le
  have hyields := cleanBss_layout l (stop_ne_of_returns hclean) copied
  obtain rfl := hclean.unique hyields
  intro k hk
  rw [← htouched.outside (l.stop + k) (.inr (Nat.le_add_right _ _)), storeRange,
    if_pos (by omega)]

theorem touchesExactly_of_zero (hcopy : CanCopy l boot chip) (hstop : l.stop ≠ 0xfffffffc)
    (hzero : ∀ k < 4, sdram (l.stop + k) = 0) : TouchesExactly l boot chip sdram := by
  obtain ⟨copied, hcopied, hframe⟩ := copy2sdram_frame l sdram hcopy
  have hcode := l.code_le
  have hle := l.bss_le
  refine ⟨copied, _, hcopied, cleanBss_layout l hstop copied, ?_, ?_, ?_⟩
  · intro x hx hx'
    rw [storeRange, if_pos (by omega)]
  · intro x _ hx
    exact storeRange_of_disjoint _ _ (.inl hx)
  · intro x hx
    by_cases hword : l.stop ≤ x ∧ x < l.stop + 4
    · obtain ⟨k, rfl⟩ := Nat.exists_eq_add_of_le hword.1
      rw [storeRange, if_pos (by omega), hzero k (by omega)]
    · rw [storeRange_of_disjoint _ _ (by omega)]
      exact hframe x (by omega)

/-- For every layout, every SDRAM and both ways to boot, start-up touches exactly the memory of
    the program iff the program can be copied, `_end` is not the last word of the address space,
    and the word at `_end` is already 0. -/
theorem touchesExactly_iff (l : Layout) (boot : BootMem) (chip : Chip) (sdram : Mem) :
    TouchesExactly l boot chip sdram ↔
      CanCopy l boot chip ∧ l.stop ≠ 0xfffffffc ∧ ∀ k < 4, sdram (l.stop + k) = 0 := by
  constructor
  · intro h
    have hzero := zero_of_touchesExactly h
    obtain ⟨copied, after, hcopy, hclean, -⟩ := h
    exact ⟨(copy2sdram_returns_iff l sdram).mp ⟨copied, hcopy⟩, stop_ne_of_returns hclean, hzero⟩
  · rintro ⟨hcopy, hstop, hzero⟩
    exact touchesExactly_of_zero hcopy hstop hzero

end StartUp

/-- A program of 8 bytes at the address of `sdram.lds`, with 4 bytes of BSS. -/
def smallLayout : Layout where
  codeStart := 0xb0000000
  bssStart := 0xb0000008
  stop := 0xb000000c
  code_aligned := by decide
  bss_aligned := by decide
  stop_aligned := by decide
  code_le := by decide
  bss_le := by decide
  stop_lt := by decide

/-- NOR flash at address 0. -/
def norBoot : BootMem := ⟨fun _ => 0xff, false⟩

/-- An SDRAM that is 0 behind the program, and has other bytes in it. -/
theorem touchesExactly_small :
    (isBootFromNorFlash norBoot).1 = true ∧
      TouchesExactly smallLayout norBoot (Nand.BadBlock.chipWithBad 0)
        fun x => if x < 0xb000000c then 0xaa else 0 := by
  have hnor : (isBootFromNorFlash norBoot).1 = true := by decide
  refine ⟨hnor, (touchesExactly_iff _ _ _ _).mpr ⟨.inl hnor, by decide, fun k _ => ?_⟩⟩
  exact if_neg (by show ¬ 0xb000000c + k < 0xb000000c; omega)

/-- Behind the program there is something else, of which the first word is cleared. -/
theorem not_touchesExactly_small :
    (∃ copied after,
      Yields (fun fuel => copy2sdram fuel 0xb0000000 0xb0000008 norBoot
        (Nand.BadBlock.chipWithBad 0) fun _ => 0xaa) copied ∧
      Yields (fun fuel => cleanBss fuel 0xb0000008 0xb000000c copied) after ∧
      after 0xb000000c = 0) ∧
      ¬ TouchesExactly smallLayout norBoot (Nand.BadBlock.chipWithBad 0) fun _ => 0xaa := by
  have hcopy : CanCopy smallLayout norBoot (Nand.BadBlock.chipWithBad 0) := .inl (by decide)
  obtain ⟨copied, hcopied, -⟩ := copy2sdram_frame smallLayout (fun _ => 0xaa) hcopy
  refine ⟨⟨copied, _, hcopied, cleanBss_layout smallLayout (by decide) copied, rfl⟩, fun h => ?_⟩
  exact absurd (zero_of_touchesExactly h 0 (by decide)) (by decide)

end Jz2440.Boot
