import Jz2440.Common.BitField
import Jz2440.Common.Bytes

/-!
# The palette of the frame buffer driver

Model of `chan_to_field` and `s3c_lcdfb_setcolreg` in
`hard_driver/drivers_and_test/10th_lcd/4th/lcd.c`. The frame buffer layer passes the number of a
colour register and three channels of 16 bits; the driver packs the upper bits of the channels
into the fields of a pixel and keeps the result in `pseudo_palette`.

The array has 16 entries, but the driver refuses only a `regno` above 16. It is modelled as a
function from indices to words, so that the word behind its end is visible too. A shift by 32, for
an empty field at the end of the pixel, gives 0 as on the ARM. The parameter `transp` is not used.

* `chanToField_get`, `chanToField_onlyIn`: the packed channel.
* `packs_val`: the three packed channels are the pixel; `Packs.unique`: there is only one.
* `setsColour_iff`: the function does what it should iff `regno` is not 16.
* `palette_of_calls`: the entries after any sequence of calls.
-/

namespace Jz2440.LinuxLcd

open Jz2440.Common

/-! ## The code -/

/-- `struct fb_bitfield`, for a field of at most 16 bits of a pixel of 32 bits. -/
structure FbBitfield extends BitField 32 where
  length_le : length ≤ 16

/-- `red`, `green` and `blue` of `struct fb_var_screeninfo`, which do not overlap. -/
structure FbVar where
  red : FbBitfield
  green : FbBitfield
  blue : FbBitfield
  red_green : red.Apart green.toBitField
  red_blue : red.Apart blue.toBitField
  green_blue : green.Apart blue.toBitField

/-- `chan_to_field` (lcd.c:72-77). -/
def chanToField (chan : Word) (bf : FbBitfield) : Word :=
  let chan := chan &&& 0xffff#32
  let chan := chan >>> (16 - bf.length)
  chan <<< bf.offset

/-- `s3c_lcdfb_setcolreg` (lcd.c:80-97): the result and the palette afterwards. -/
def s3cLcdfbSetcolreg (regno red green blue : Word) (var : FbVar) (pseudoPalette : ℕ → Word) :
    ℤ × (ℕ → Word) :=
  if regno > 16 then (1, pseudoPalette)
  else
    let val := chanToField red var.red
    let val := val ||| chanToField green var.green
    let val := val ||| chanToField blue var.blue
    (0, Function.update pseudoPalette regno.toNat val)

/-! ## One channel -/

section Channel

variable (chan : Word) (bf : FbBitfield)

theorem getLsbD_low16 (i : ℕ) :
    (chan &&& 0xffff#32).getLsbD i = (decide (i < 16) && chan.getLsbD i) := by
  have hmask : 0xffff#32 = (BitVec.allOnes 16).setWidth 32 := by decide
  have hbits : (0xffff#32).getLsbD i = decide (i < 16) := by
    rw [hmask, BitVec.getLsbD_setWidth, BitVec.getLsbD_allOnes, Bool.eq_iff_iff, Bool.and_eq_true,
      decide_eq_true_iff, decide_eq_true_iff]
    omega
  rw [BitVec.getLsbD_and, hbits, Bool.and_comm]

/-- The bits of the packed channel. The shift to the right leaves `length` of the 16 bits. -/
theorem getLsbD_chanToField (i : ℕ) :
    (chanToField chan bf).getLsbD i =
      (decide (bf.Has i) && chan.getLsbD (16 - bf.length + (i - bf.offset))) := by
  have hlength := bf.length_le
  have hinside := bf.inside
  have hhas : (decide (i < 32) && !decide (i < bf.offset) &&
      decide (16 - bf.length + (i - bf.offset) < 16)) = decide (bf.Has i) := by
    rw [Bool.eq_iff_iff, decide_eq_true_iff (p := bf.Has i), BitField.Has]
    simp only [Bool.and_eq_true, Bool.not_eq_true', decide_eq_true_iff, decide_eq_false_iff_not]
    omega
  unfold chanToField
  rw [BitVec.getLsbD_shiftLeft, BitVec.getLsbD_ushiftRight, getLsbD_low16, ← Bool.and_assoc, hhas]

/-- All bits of the packed channel are in its field. -/
theorem chanToField_onlyIn : OnlyIn [bf.toBitField] (chanToField chan bf) := by
  intro i hi
  rw [getLsbD_chanToField, Bool.and_eq_true, decide_eq_true_iff] at hi
  exact ⟨bf.toBitField, List.mem_singleton_self _, hi.1⟩

/-- The field holds the upper bits of the channel. -/
theorem chanToField_get :
    bf.get (chanToField chan bf) = chan.extractLsb' (16 - bf.length) bf.length := by
  apply BitVec.eq_of_getLsbD_eq
  intro j hj
  have hhas : bf.Has (bf.offset + j) := ⟨Nat.le_add_right _ _, by omega⟩
  rw [BitField.getLsbD_get _ _ hj, getLsbD_chanToField, decide_eq_true hhas, Bool.true_and,
    Nat.add_sub_cancel_left, BitVec.getLsbD_extractLsb', decide_eq_true hj, Bool.true_and]

end Channel

/-! ## A pixel -/

/-- The fields of `val` hold the upper bits of the channels, and its other bits are 0. -/
structure Packs (var : FbVar) (red green blue val : Word) : Prop where
  red : var.red.get val = red.extractLsb' (16 - var.red.length) var.red.length
  green : var.green.get val = green.extractLsb' (16 - var.green.length) var.green.length
  blue : var.blue.get val = blue.extractLsb' (16 - var.blue.length) var.blue.length
  rest : OnlyIn [var.red.toBitField, var.green.toBitField, var.blue.toBitField] val

theorem Packs.unique {var : FbVar} {red green blue val val' : Word}
    (h : Packs var red green blue val) (h' : Packs var red green blue val') : val = val' := by
  refine h.rest.eq_of_get h'.rest fun f hf => ?_
  simp only [List.mem_cons, List.not_mem_nil, or_false] at hf
  rcases hf with rfl | rfl | rfl
  · exact h.red.trans h'.red.symm
  · exact h.green.trans h'.green.symm
  · exact h.blue.trans h'.blue.symm

theorem packs_val (var : FbVar) (red green blue : Word) :
    Packs var red green blue
      (chanToField red var.red ||| chanToField green var.green ||| chanToField blue var.blue) := by
  have hred := chanToField_onlyIn red var.red
  have hgreen := chanToField_onlyIn green var.green
  have hblue := chanToField_onlyIn blue var.blue
  refine ⟨?_, ?_, ?_, (hred.or hgreen).or hblue⟩
  · rw [BitField.get_or_left _ hblue (by simpa using var.red_blue),
      BitField.get_or_left _ hgreen (by simpa using var.red_green), chanToField_get]
  · rw [BitField.get_or_left _ hblue (by simpa using var.green_blue),
      BitField.get_or_right hred _ (by simpa using var.red_green.symm), chanToField_get]
  · rw [BitField.get_or_right (hred.or hgreen) _
      (by simpa using ⟨var.red_blue.symm, var.green_blue.symm⟩), chanToField_get]

/-! ## One call -/

/-- The entries 0 to 15 can be set, to the pixel of the channels; everything else is refused and
    changes nothing. -/
structure SetsColour (var : FbVar) (regno red green blue : Word) (before : ℕ → Word)
    (r : ℤ × (ℕ → Word)) : Prop where
  succeeds : r.1 = 0 ↔ regno.toNat < 16
  entry : r.1 = 0 → Packs var red green blue (r.2 regno.toNat)
  others : r.1 = 0 → ∀ i, i ≠ regno.toNat → r.2 i = before i
  refused : r.1 ≠ 0 → r.1 = 1 ∧ r.2 = before

section Call

variable (var : FbVar) {regno : Word} (red green blue : Word) (pseudoPalette : ℕ → Word)

theorem setcolreg_refused (h : 16 < regno.toNat) :
    s3cLcdfbSetcolreg regno red green blue var pseudoPalette = (1, pseudoPalette) :=
  if_pos (BitVec.lt_def.mpr (show (16 : Word).toNat < regno.toNat from h))

theorem setcolreg_accepted (h : regno.toNat ≤ 16) :
    s3cLcdfbSetcolreg regno red green blue var pseudoPalette =
      (0, Function.update pseudoPalette regno.toNat
        (chanToField red var.red ||| chanToField green var.green ||| chanToField blue var.blue)) :=
  if_neg fun hgt => absurd (BitVec.lt_def.mp hgt) (not_lt.mpr h)

theorem setcolreg_packs (h : regno.toNat ≤ 16) :
    Packs var red green blue
      ((s3cLcdfbSetcolreg regno red green blue var pseudoPalette).2 regno.toNat) := by
  rw [setcolreg_accepted var red green blue pseudoPalette h]
  show Packs var red green blue (Function.update pseudoPalette regno.toNat _ regno.toNat)
  rw [Function.update_self]
  exact packs_val var red green blue

/-- A call changes at most its own entry, and none from 17 on. -/
theorem setcolreg_of_ne {i : ℕ} (h : i ≠ regno.toNat ∨ 16 < i) :
    (s3cLcdfbSetcolreg regno red green blue var pseudoPalette).2 i = pseudoPalette i := by
  rcases le_or_gt regno.toNat 16 with hle | hgt
  · rw [setcolreg_accepted var red green blue pseudoPalette hle]
    exact Function.update_of_ne (by omega) _ _
  · rw [setcolreg_refused var red green blue pseudoPalette hgt]

/-- For all fields and channels, `s3c_lcdfb_setcolreg` sets the colour register iff `regno` is not
    16, for which it writes behind the array. -/
theorem setsColour_iff (regno : Word) :
    SetsColour var regno red green blue pseudoPalette
      (s3cLcdfbSetcolreg regno red green blue var pseudoPalette) ↔ regno ≠ 16 := by
  obtain hlt | heq | hgt := Nat.lt_trichotomy regno.toNat 16
  · have hne : regno ≠ 16 := by bv_omega
    have hret : (s3cLcdfbSetcolreg regno red green blue var pseudoPalette).1 = 0 := by
      rw [setcolreg_accepted var red green blue pseudoPalette hlt.le]
    exact iff_of_true ⟨iff_of_true hret hlt,
      fun _ => setcolreg_packs var red green blue pseudoPalette hlt.le,
      fun _ i hi => setcolreg_of_ne var red green blue pseudoPalette (.inl hi),
      fun hrefused => absurd hret hrefused⟩ hne
  · have heq' : regno = 16 := BitVec.eq_of_toNat_eq heq
    refine iff_of_false (fun hsets => ?_) (not_not.mpr heq')
    rw [setcolreg_accepted var red green blue pseudoPalette heq.le] at hsets
    have := hsets.succeeds.mp rfl
    omega
  · have hne : regno ≠ 16 := by bv_omega
    refine iff_of_true ?_ hne
    rw [setcolreg_refused var red green blue pseudoPalette hgt]
    exact ⟨iff_of_false one_ne_zero (by omega), fun hret => absurd hret one_ne_zero,
      fun hret => absurd hret one_ne_zero, fun _ => ⟨rfl, rfl⟩⟩

end Call

/-- The fields that `lcd_init` sets (lcd.c:120-127). -/
def lcdVar : FbVar where
  red := ⟨⟨16, 8, by decide⟩, by decide⟩
  green := ⟨⟨8, 8, by decide⟩, by decide⟩
  blue := ⟨⟨0, 8, by decide⟩, by decide⟩
  red_green := (BitField.apart_of_le (by decide)).symm
  red_blue := (BitField.apart_of_le (by decide)).symm
  green_blue := (BitField.apart_of_le (by decide)).symm

/-- Orange in register 15. -/
theorem setsColour_orange :
    (s3cLcdfbSetcolreg 15 0xffff 0x8000 0 lcdVar fun _ => 0).2 15 = 0xff8000 ∧
      SetsColour lcdVar 15 0xffff 0x8000 0 (fun _ => 0)
        (s3cLcdfbSetcolreg 15 0xffff 0x8000 0 lcdVar fun _ => 0) :=
  ⟨by decide, (setsColour_iff lcdVar 0xffff 0x8000 0 (fun _ => 0) 15).mpr (by decide)⟩

/-- A call for register 16 succeeds and overwrites the word behind the array. -/
theorem not_setsColour_sixteen :
    (s3cLcdfbSetcolreg 16 0xffff 0 0 lcdVar fun _ => 0).1 = 0 ∧
      (s3cLcdfbSetcolreg 16 0xffff 0 0 lcdVar fun _ => 0).2 16 = 0xff0000 ∧
      ¬ SetsColour lcdVar 16 0xffff 0 0 (fun _ => 0)
        (s3cLcdfbSetcolreg 16 0xffff 0 0 lcdVar fun _ => 0) := by
  have hret : (s3cLcdfbSetcolreg 16 0xffff 0 0 lcdVar fun _ => 0).1 = 0 := by decide
  exact ⟨hret, by decide, fun hsets => absurd (hsets.succeeds.mp hret) (by decide)⟩

/-! ## Every sequence of calls -/

/-- The arguments of a call. -/
structure ColourCall where
  regno : Word
  red : Word
  green : Word
  blue : Word

/-- The palette after a call. -/
def setColour (var : FbVar) (pseudoPalette : ℕ → Word) (c : ColourCall) : ℕ → Word :=
  (s3cLcdfbSetcolreg c.regno c.red c.green c.blue var pseudoPalette).2

section Calls

variable (var : FbVar) (pseudoPalette : ℕ → Word)

theorem setColours_of_ne {calls : List ColourCall} {i : ℕ}
    (h : 16 < i ∨ ∀ c ∈ calls, c.regno.toNat ≠ i) :
    calls.foldl (setColour var) pseudoPalette i = pseudoPalette i := by
  induction calls generalizing pseudoPalette with
  | nil => rfl
  | cons c calls ih =>
    rw [List.foldl_cons, ih]
    · refine setcolreg_of_ne var c.red c.green c.blue pseudoPalette ?_
      exact h.symm.imp (fun hne => (hne c List.mem_cons_self).symm) id
    · exact h.imp id fun hne d hd => hne d (List.mem_cons_of_mem c hd)

/-- After any sequence of calls, an entry holds the colour that was set last; and unless one of
    the calls was for register 16, nothing behind the array has changed. -/
theorem palette_of_calls (calls : List ColourCall) :
    (∀ pre c post, calls = pre ++ c :: post → c.regno.toNat < 16 →
      (∀ d ∈ post, d.regno.toNat ≠ c.regno.toNat) →
        Packs var c.red c.green c.blue
          (calls.foldl (setColour var) pseudoPalette c.regno.toNat)) ∧
      ((∀ c ∈ calls, c.regno ≠ 16) → ∀ i, 16 ≤ i →
        calls.foldl (setColour var) pseudoPalette i = pseudoPalette i) := by
  constructor
  · rintro pre c post rfl hlt hlast
    rw [List.foldl_append, List.foldl_cons, setColours_of_ne var _ (.inr hlast)]
    exact setcolreg_packs var c.red c.green c.blue _ hlt.le
  · intro hne i hi
    refine setColours_of_ne var pseudoPalette ?_
    obtain rfl | hgt := Nat.eq_or_lt_of_le hi
    · exact .inr fun c hc heq => hne c hc (BitVec.eq_of_toNat_eq heq)
    · exact .inl hgt

end Calls

end Jz2440.LinuxLcd
