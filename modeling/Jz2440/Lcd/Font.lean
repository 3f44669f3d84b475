import Mathlib.Data.List.TakeWhile
import Jz2440.Boot.Tags
import Jz2440.Common.CInt
import Jz2440.Lcd.FontData
import Jz2440.Lcd.Line

/-!
# Printing text

Model of `lcd/font.c` in `hard_driver/first_hard/025_sensors_022/007_irda_nec_ok_022_009`,
as the list of the pixels that it passes to `fb_put_pixel`. A `char` is unsigned on this
processor.

The cursor goes to the next line when `x + 8` is not on the screen any more. A character
that begins on the screen may still end beyond it.

* `fbPrintString_eq`: the pixels of a text are those of its characters, each at the column
  and row where its cell begins.
* `fbPrintString_inside_iff`: a text stays inside exactly if each of its characters begins
  where the dots of its glyph are on the screen.
* `forall_inside_iff`: all texts from a column on do exactly if it and `xres` are multiples
  of eight.
-/

namespace Jz2440.Lcd

open Jz2440.Common
open Jz2440.Boot (CString)

/-! ## The code -/

/-- The passes of `for (i = x; i < x + n; i++)`, by how far `i` is from `x`. -/
def passes (x : Int32) (n : ℕ) : List ℕ :=
  (List.range n).takeWhile fun k => x + .ofNat k < x + .ofNat n

/-- `fb_print_char` (font.c:15-38). -/
def fbPrintChar (x y : Int32) (c : Byte) : List Pixel :=
  (passes y 16).flatMap fun j =>
    let data := fontdata8x16 (c.toNat * 16 + j)
    (passes x 8).filterMap fun i =>
      let bit := 7 - i
      if data.getLsbD bit then some (x + .ofNat i, y + .ofNat j) else none

/-- The cursor, and the pixels so far. -/
structure TextState where
  x : Int32
  y : Int32
  pixels : List Pixel

/-- One pass of the loop of `fb_print_string` (font.c:46-63), for the character `c`. -/
def printStep (xres : Int32) (s : TextState) (c : Byte) : TextState :=
  if c = 0x0a then { s with y := s.y + 16 } -- '\n'
  else if c = 0x0d then { s with x := 0 } -- '\r'
  else
    let pixels := s.pixels ++ fbPrintChar s.x s.y c
    let x := s.x + 8
    if x ≥ xres then ⟨0, s.y + 16, pixels⟩ else ⟨x, s.y, pixels⟩

/-- `fb_print_string` (font.c:42-65). -/
def fbPrintString (xres x y : Int32) (str : CString) : List Pixel :=
  (str.bytes.foldl (printStep xres) ⟨x, y, []⟩).pixels

/-! ## One character -/

section Char

variable {x y : Int32} {c : Byte} {n : ℕ}

theorem mem_passes {k : ℕ} (h : k ∈ passes x n) : k < n :=
  List.mem_range.mp ((List.takeWhile_sublist _).subset h)

theorem toInt_add_eight (h : x.toInt + 8 < 2 ^ 31) : (x + 8).toInt = x.toInt + 8 :=
  toInt_add_ofNat (by decide) (by exact_mod_cast h)

/-- Without an overflow there are `n` passes. -/
theorem passes_eq (hn : n < 2 ^ 31) (h : x.toInt + n < 2 ^ 31) : passes x n = List.range n := by
  apply List.takeWhile_eq_self_iff.mpr
  intro k hk
  have hlt := List.mem_range.mp hk
  rw [decide_eq_true_eq, Int32.lt_iff_toInt_lt, toInt_add_ofNat (by omega) (by omega),
    toInt_add_ofNat hn h]
  omega

/-- The cell of a character reaches over the end of `int`. -/
theorem toInt_add_eight_of_overflow (h : 2 ^ 31 ≤ x.toInt + 8) :
    (x + 8).toInt = x.toInt + 8 - 2 ^ 32 := by
  have hx := x.toInt_lt
  rw [Int32.toInt_add, show (8 : Int32).toInt = 8 from rfl, Int.bmod_eq_iff (by decide)]
  omega

/-- With an overflow there are none: the end of the loop is below its start. -/
theorem passes_eq_nil (hn : 0 < n) (hn' : n < 2 ^ 31) (h : 2 ^ 31 ≤ x.toInt + n) :
    passes x n = [] := by
  have hx := inInt_toInt x
  have hend : (x + .ofNat n).toInt = x.toInt + n - 2 ^ 32 := by
    rw [Int32.toInt_add, Int32.toInt_ofNat_of_lt hn', Int.bmod_eq_iff (by decide)]
    unfold InInt at hx
    omega
  obtain ⟨m, rfl⟩ : ∃ m, n = m + 1 := ⟨n - 1, by omega⟩
  rw [passes, List.range_succ_eq_map, List.takeWhile_cons_of_neg]
  rw [decide_eq_true_eq, Int32.lt_iff_toInt_lt, hend, show x + Int32.ofNat 0 = x by simp]
  unfold InInt at hx
  omega

/-- The loop over `n` columns or rows from `x` on is run at all. -/
def Runs (x : Int32) (n : ℕ) : Prop := x.toInt + n < 2 ^ 31

instance (x : Int32) (n : ℕ) : Decidable (Runs x n) := inferInstanceAs (Decidable (_ < _))

theorem mem_passes_iff (hn : 0 < n) (hn' : n < 2 ^ 31) {k : ℕ} :
    k ∈ passes x n ↔ Runs x n ∧ k < n := by
  by_cases hrun : Runs x n
  · rw [passes_eq hn' hrun, List.mem_range, and_iff_right hrun]
  · rw [passes_eq_nil hn hn' (not_lt.mp hrun)]
    simp [hrun]

theorem mem_fbPrintChar {p : Pixel} :
    p ∈ fbPrintChar x y c ↔ ∃ j ∈ passes y 16, ∃ i ∈ passes x 8,
      (fontdata8x16 (c.toNat * 16 + j)).getLsbD (7 - i) ∧ (x + .ofNat i, y + .ofNat j) = p := by
  simp [fbPrintChar, List.mem_flatMap, List.mem_filterMap]

/-- The columns of a character whose cell is on the screen. -/
theorem column_inside {xres : Int32} (h0 : 0 ≤ x.toInt) (h8 : x.toInt + 8 ≤ xres.toInt) {p : Pixel}
    (hp : p ∈ fbPrintChar x y c) : 0 ≤ p.1 ∧ p.1 < xres := by
  obtain ⟨j, -, i, hi, -, rfl⟩ := mem_fbPrintChar.mp hp
  have hlt := mem_passes hi
  have hres := xres.toInt_lt
  have hcolumn := toInt_add_ofNat (a := x) (k := i) (by omega) (by omega)
  rw [Int32.le_iff_toInt_le, Int32.lt_iff_toInt_lt, hcolumn, Int32.toInt_zero]
  omega

/-- The glyph of `c` has a dot in column `i`. -/
def DotIn (c : Byte) (i : ℕ) : Prop :=
  ∃ j < 16, (fontdata8x16 (c.toNat * 16 + j)).getLsbD (7 - i) = true

instance (c : Byte) (i : ℕ) : Decidable (DotIn c i) :=
  inferInstanceAs (Decidable (∃ j < 16, _))

/-- The number of the columns up to the last dot of the glyph; 0 if it is blank. -/
def glyphWidth (c : Byte) : ℕ := Nat.findGreatest (fun w => 0 < w ∧ DotIn c (w - 1)) 8

/-- The number of the columns before its first dot; 8 if it is blank. -/
def glyphLeft (c : Byte) : ℕ := 8 - Nat.findGreatest (fun w => 0 < w ∧ DotIn c (8 - w)) 8

theorem DotIn.lt_glyphWidth {i : ℕ} (hi : i < 8) (h : DotIn c i) : i < glyphWidth c :=
  Nat.le_findGreatest (P := fun w => 0 < w ∧ DotIn c (w - 1)) (m := i + 1) hi
    ⟨Nat.succ_pos i, by rwa [Nat.add_sub_cancel]⟩

theorem DotIn.glyphLeft_le {i : ℕ} (hi : i < 8) (h : DotIn c i) : glyphLeft c ≤ i := by
  have hle : 8 - i ≤ Nat.findGreatest (fun w => 0 < w ∧ DotIn c (8 - w)) 8 :=
    Nat.le_findGreatest (Nat.sub_le 8 i) ⟨by omega, by rwa [Nat.sub_sub_self hi.le]⟩
  unfold glyphLeft
  omega

/-- The last and the first dot of a glyph that is not blank. -/
theorem dotIn_ends (h : 0 < glyphWidth c) :
    (glyphWidth c ≤ 8 ∧ DotIn c (glyphWidth c - 1)) ∧ glyphLeft c < 8 ∧ DotIn c (glyphLeft c) := by
  have hlast := Nat.findGreatest_of_ne_zero (P := fun w => 0 < w ∧ DotIn c (w - 1)) rfl h.ne'
  have hle : glyphWidth c ≤ 8 := Nat.findGreatest_le 8
  refine ⟨⟨hle, hlast.2⟩, ?_⟩
  -- the last dot shows that there is a first one
  have hfirst := DotIn.glyphLeft_le (i := glyphWidth c - 1) (by omega) hlast.2
  have hpos : Nat.findGreatest (fun w => 0 < w ∧ DotIn c (8 - w)) 8 ≠ 0 := by
    intro hzero
    unfold glyphLeft at hfirst
    omega
  have hdot := Nat.findGreatest_of_ne_zero (P := fun w => 0 < w ∧ DotIn c (8 - w)) rfl hpos
  exact ⟨by omega, hdot.2⟩

/-- The dots of the glyph are on the screen if its cell begins at `x`, or the glyph is not
    drawn: it is blank, or a loop ends before it begins. -/
def GlyphFits (xres x y : Int32) (c : Byte) : Prop :=
  Runs x 8 → Runs y 16 → 0 < glyphWidth c →
    0 ≤ x.toInt + glyphLeft c ∧ x.toInt + glyphWidth c ≤ xres.toInt

/-- A character is inside of the screen exactly if its glyph fits. -/
theorem fbPrintChar_inside_iff (xres x y : Int32) (c : Byte) :
    (∀ p ∈ fbPrintChar x y c, 0 ≤ p.1 ∧ p.1 < xres) ↔ GlyphFits xres x y c := by
  have hcolumn : ∀ {i : ℕ}, Runs x 8 → i < 8 → (x + .ofNat i).toInt = x.toInt + i := by
    intro i hrun hi
    unfold Runs at hrun
    exact toInt_add_ofNat (by omega) (by omega)
  constructor
  · intro hinside hrun hrun' hwidth
    have hdot : ∀ i < 8, DotIn c i → 0 ≤ x.toInt + i ∧ x.toInt + i < xres.toInt := by
      rintro i hi ⟨j, hj, hbit⟩
      have hmem : (x + .ofNat i, y + .ofNat j) ∈ fbPrintChar x y c :=
        mem_fbPrintChar.mpr ⟨j, (mem_passes_iff (by decide) (by decide)).mpr ⟨hrun', hj⟩, i,
          (mem_passes_iff (by decide) (by decide)).mpr ⟨hrun, hi⟩, hbit, rfl⟩
      have hin := hinside _ hmem
      rwa [Int32.le_iff_toInt_le, Int32.lt_iff_toInt_lt, hcolumn hrun hi, Int32.toInt_zero] at hin
    obtain ⟨⟨hle, hlast⟩, hlt, hfirst⟩ := dotIn_ends hwidth
    have hright := (hdot _ (by omega) hlast).2
    exact ⟨(hdot _ hlt hfirst).1, by omega⟩
  · intro hfits p hp
    obtain ⟨j, hj, i, hi, hbit, rfl⟩ := mem_fbPrintChar.mp hp
    obtain ⟨hrun', hj⟩ := (mem_passes_iff (by decide) (by decide)).mp hj
    obtain ⟨hrun, hi⟩ := (mem_passes_iff (by decide) (by decide)).mp hi
    have hdot : DotIn c i := ⟨j, hj, hbit⟩
    have hwidth := hdot.lt_glyphWidth hi
    have hleft := hdot.glyphLeft_le hi
    obtain ⟨h0, hres⟩ := hfits hrun hrun' (by omega)
    rw [Int32.le_iff_toInt_le, Int32.lt_iff_toInt_lt, hcolumn hrun hi, Int32.toInt_zero]
    omega

/-- The lowest row but two of an underscore is a line over all columns of its cell. -/
theorem underscore_mem {i : ℕ} (hi : i < 8) (h : x.toInt + 8 < 2 ^ 31) :
    (x + .ofNat i, (13 : Int32)) ∈ fbPrintChar x 0 0x5f := by
  refine mem_fbPrintChar.mpr ⟨13, ?_, i, ?_, ?_, rfl⟩
  · decide
  · rw [passes_eq (by decide) (by exact_mod_cast h)]
    exact List.mem_range.mpr hi
  · have hrow : fontdata8x16 ((0x5f : Byte).toNat * 16 + 13) = 0xff := by decide
    rw [hrow]
    have hall : ∀ b < 8, (0xff : Byte).getLsbD b = true := by decide
    exact hall _ (by omega)

end Char

/-! ## The cells of a text -/

/-- A character, and the column and row where its cell begins. -/
structure Cell where
  x : Int32
  y : Int32
  c : Byte

/-- The cells of a text from column `x` and row `y` on: a cell is eight columns wide, and
    after one that reaches `xres` the text goes on in the next line. -/
def cells (xres : Int32) : Int32 → Int32 → List Byte → List Cell
  | _, _, [] => []
  | x, y, c :: l =>
    if c = 0x0a then cells xres x (y + 16) l
    else if c = 0x0d then cells xres 0 y l
    else ⟨x, y, c⟩ :: if x + 8 ≥ xres then cells xres 0 (y + 16) l else cells xres (x + 8) y l

theorem foldl_printStep_pixels (xres x y : Int32) (pixels : List Pixel) (l : List Byte) :
    (l.foldl (printStep xres) ⟨x, y, pixels⟩).pixels =
      pixels ++ (cells xres x y l).flatMap fun cell => fbPrintChar cell.x cell.y cell.c := by
  induction l generalizing x y pixels with
  | nil => simp [cells]
  | cons c l ih =>
    rw [List.foldl_cons]
    by_cases hn : c = 0x0a
    · rw [printStep, if_pos hn, ih, cells, if_pos hn]
    · by_cases hr : c = 0x0d
      · rw [printStep, if_neg hn, if_pos hr, ih, cells, if_neg hn, if_pos hr]
      · rw [printStep, if_neg hn, if_neg hr, cells, if_neg hn, if_neg hr, List.flatMap_cons,
          ← List.append_assoc]
        by_cases hwrap : x + 8 ≥ xres
        · simp only [if_pos hwrap, ih]
        · simp only [if_neg hwrap, ih]

/-- The pixels of a text are those of its characters. -/
theorem fbPrintString_eq (xres x y : Int32) (str : CString) :
    fbPrintString xres x y str =
      (cells xres x y str.bytes).flatMap fun cell => fbPrintChar cell.x cell.y cell.c := by
  rw [fbPrintString, foldl_printStep_pixels, List.nil_append]

/-- All pixels of the text are on the screen. -/
structure StaysOnScreen (xres x y : Int32) (str : CString) : Prop where
  columns : ∀ p ∈ fbPrintString xres x y str, 0 ≤ p.1 ∧ p.1 < xres

/-! ## A whole string -/

section Text

variable {xres : Int32} {s : TextState}

/-- The cursor is at the beginning of a cell, and all pixels are on the screen. -/
structure Inside (xres : Int32) (s : TextState) : Prop where
  nonneg : 0 ≤ s.x.toInt
  lt : s.x.toInt < xres.toInt
  dvd : 8 ∣ s.x.toInt
  pixels : ∀ p ∈ s.pixels, 0 ≤ p.1 ∧ p.1 < xres

theorem printStep_inside (hres : 8 ∣ xres.toInt) (h : Inside xres s) (c : Byte) :
    Inside xres (printStep xres s c) := by
  obtain ⟨hnonneg, hlt, hdvd, hpixels⟩ := h
  have hbound := xres.toInt_lt
  have hzero : Inside xres ⟨0, s.y, s.pixels⟩ := by
    refine ⟨le_rfl, ?_, Int.dvd_zero 8, hpixels⟩
    rw [Int32.toInt_zero]
    omega
  unfold printStep
  split_ifs with hn hr
  · exact ⟨hnonneg, hlt, hdvd, hpixels⟩
  · exact hzero
  · have hcell : ∀ p ∈ s.pixels ++ fbPrintChar s.x s.y c, 0 ≤ p.1 ∧ p.1 < xres := by
      intro p hp
      rcases List.mem_append.mp hp with hp | hp
      · exact hpixels p hp
      · exact column_inside hnonneg (by omega) hp
    have hnext : (s.x + 8).toInt = s.x.toInt + 8 := toInt_add_eight (by omega)
    by_cases hwrap : s.x + 8 ≥ xres
    · rw [if_pos hwrap]
      exact ⟨hzero.nonneg, hzero.lt, hzero.dvd, hcell⟩
    · rw [if_neg hwrap]
      rw [ge_iff_le, Int32.le_iff_toInt_le, hnext] at hwrap
      refine ⟨?_, ?_, ?_, hcell⟩ <;> rw [hnext] <;> omega

theorem foldl_printStep_inside (hres : 8 ∣ xres.toInt) (h : Inside xres s) (l : List Byte) :
    Inside xres (l.foldl (printStep xres) s) := by
  induction l generalizing s with
  | nil => exact h
  | cons c l ih => exact ih (printStep_inside hres h c)

theorem printStep_pixels_subset (c : Byte) : s.pixels ⊆ (printStep xres s c).pixels := by
  unfold printStep
  dsimp only
  split_ifs
  · exact List.Subset.refl _
  · exact List.Subset.refl _
  · exact List.subset_append_left _ _
  · exact List.subset_append_left _ _

theorem foldl_pixels_subset (l : List Byte) :
    s.pixels ⊆ (l.foldl (printStep xres) s).pixels := by
  induction l generalizing s with
  | nil => exact List.Subset.refl _
  | cons c l ih => exact List.Subset.trans (printStep_pixels_subset c) ih

/-- A pixel of the next character is one of the whole text. -/
theorem mem_foldl_cons {p : Pixel} {c : Byte} (hn : c ≠ 0x0a) (hr : c ≠ 0x0d)
    (hp : p ∈ fbPrintChar s.x s.y c) (l : List Byte) :
    p ∈ ((c :: l).foldl (printStep xres) s).pixels := by
  apply foldl_pixels_subset l
  unfold printStep
  rw [if_neg hn, if_neg hr]
  dsimp only
  split_ifs <;> exact List.mem_append_right _ hp

/-- A character with another cell to the right of it. -/
theorem printStep_of_lt {c : Byte} (hn : c ≠ 0x0a) (hr : c ≠ 0x0d)
    (hlt : (s.x + 8).toInt < xres.toInt) :
    printStep xres s c = ⟨s.x + 8, s.y, s.pixels ++ fbPrintChar s.x s.y c⟩ := by
  have hnot : ¬ s.x + 8 ≥ xres := by
    rw [ge_iff_le, Int32.le_iff_toInt_le]
    omega
  rw [printStep, if_neg hn, if_neg hr]
  exact if_neg hnot

/-- If no cell ends at the edge, a line of underscores reaches beyond it. -/
theorem exists_outside (xres : Int32) (k : ℕ) (hy : s.y = 0) (h0 : 0 ≤ s.x.toInt)
    (hlt : s.x.toInt + 8 * k < xres.toInt) (hgt : xres.toInt < s.x.toInt + 8 * k + 8) :
    ∃ p ∈ ((List.replicate (k + 2) (0x5f : Byte)).foldl (printStep xres) s).pixels,
      ¬ (0 ≤ p.1 ∧ p.1 < xres) := by
  have hreslt := xres.toInt_lt
  induction k generalizing s with
  | zero =>
    by_cases hfit : s.x.toInt + 8 < 2 ^ 31
    · refine ⟨(s.x + .ofNat 7, 13), mem_foldl_cons (by decide) (by decide) ?_ _, ?_⟩
      · rw [hy]
        exact underscore_mem (by decide) hfit
      · rintro ⟨-, hcolumn⟩
        rw [Int32.lt_iff_toInt_lt, toInt_add_ofNat (by decide) (by norm_num; omega)] at hcolumn
        omega
    · -- the cell of the first one reaches over the end of `int`; the next one is at the
      -- other end
      have hnext := toInt_add_eight_of_overflow (x := s.x) (by omega)
      have hxlt := s.x.toInt_lt
      rw [List.replicate_succ, List.foldl_cons,
        printStep_of_lt (by decide) (by decide) (by omega)]
      refine ⟨(s.x + 8 + .ofNat 0, 13), mem_foldl_cons (by decide) (by decide) ?_ _, ?_⟩
      · dsimp only
        rw [hy]
        exact underscore_mem (by decide) (by omega)
      · rintro ⟨hcolumn, -⟩
        rw [Int32.le_iff_toInt_le, toInt_add_ofNat (by decide) (by omega), hnext,
          Int32.toInt_zero] at hcolumn
        omega
  | succ k ih =>
    have hnext := toInt_add_eight (x := s.x) (by omega)
    rw [List.replicate_succ, List.foldl_cons, printStep_of_lt (by decide) (by decide) (by omega)]
    refine ih hy ?_ ?_ ?_ <;> dsimp only <;> rw [hnext] <;> push_cast at hlt hgt <;> omega

/-- The same from the start of a string, after characters that leave the cursor at `s`. -/
theorem exists_string_outside (xres : Int32) (pre : List Byte) (hpre : ∀ b ∈ pre, b ≠ 0) (x : Int32)
    (hs : pre.foldl (printStep xres) ⟨x, 0, []⟩ = s) (hy : s.y = 0) (h0 : 0 ≤ s.x.toInt)
    (hlt : s.x.toInt < xres.toInt) (hndvd : ¬ 8 ∣ xres.toInt - s.x.toInt) :
    ∃ str : CString, ∃ p ∈ fbPrintString xres x 0 str, ¬ (0 ≤ p.1 ∧ p.1 < xres) := by
  obtain ⟨k, hk⟩ : ∃ k : ℕ, (k : ℤ) = (xres.toInt - s.x.toInt) / 8 :=
    ⟨_, Int.toNat_of_nonneg (by omega)⟩
  obtain ⟨p, hp, hout⟩ := exists_outside xres k hy h0 (by omega) (by omega)
  refine ⟨⟨pre ++ List.replicate (k + 2) 0x5f, ?_⟩, p, ?_, hout⟩
  · intro b hb
    rcases List.mem_append.mp hb with hb | hb
    · exact hpre b hb
    · rw [List.eq_of_mem_replicate hb]
      decide
  · rw [fbPrintString, List.foldl_append, hs]
    exact hp

end Text

/-- All texts from column `x` on stay on the screen exactly if its width and `x` are
    multiples of eight. -/
theorem forall_inside_iff (xres x : Int32) (hres : 8 ≤ xres) (h0 : 0 ≤ x) (hx : x ≤ xres - 8) :
    (∀ y str, StaysOnScreen xres x y str) ↔ 8 ∣ xres.toInt ∧ 8 ∣ x.toInt := by
  have hres' : 8 ≤ xres.toInt := Int32.le_iff_toInt_le.mp hres
  have h0' : 0 ≤ x.toInt := Int32.le_iff_toInt_le.mp h0
  have hlt : x.toInt + 8 ≤ xres.toInt := by
    have hbound := xres.toInt_lt
    rw [Int32.le_iff_toInt_le, toInt_sub_of_inInt] at hx
    · rw [show (8 : Int32).toInt = 8 from rfl] at hx
      omega
    · rw [show (8 : Int32).toInt = 8 from rfl]
      exact ⟨by omega, by omega⟩
  constructor
  · intro hstays
    by_contra hndvd
    by_cases hstart : 8 ∣ xres.toInt - x.toInt
    · -- a `'\r'` first
      obtain ⟨str, p, hp, hout⟩ := exists_string_outside xres [0x0d] (by decide) x rfl
        rfl le_rfl (show (0 : ℤ) < _ by omega) (show ¬ 8 ∣ xres.toInt - 0 by omega)
      exact hout ((hstays 0 str).columns p hp)
    · obtain ⟨str, p, hp, hout⟩ := exists_string_outside xres [] (by simp) x rfl rfl
        h0' (show x.toInt < _ by omega) hstart
      exact hout ((hstays 0 str).columns p hp)
  · rintro ⟨hdvd, hdvd'⟩ y str
    have hstart : Inside xres ⟨x, y, []⟩ := ⟨h0', show x.toInt < _ by omega, hdvd', by simp⟩
    exact ⟨(foldl_printStep_inside hdvd hstart str.bytes).pixels⟩

/-- A text stays inside of the screen exactly if each of its characters begins at a column
    from which the dots of its glyph are on the screen. -/
theorem fbPrintString_inside_iff (xres x y : Int32) (str : CString) :
    StaysOnScreen xres x y str ↔
      ∀ cell ∈ cells xres x y str.bytes, GlyphFits xres cell.x cell.y cell.c := by
  constructor
  · rintro ⟨hcolumns⟩ cell hcell
    refine (fbPrintChar_inside_iff ..).mp fun p hp => hcolumns p ?_
    rw [fbPrintString_eq]
    exact List.mem_flatMap.mpr ⟨cell, hcell, hp⟩
  · refine fun hfits => ⟨fun p hp => ?_⟩
    rw [fbPrintString_eq] at hp
    obtain ⟨cell, hcell, hp⟩ := List.mem_flatMap.mp hp
    exact (fbPrintChar_inside_iff ..).mpr (hfits cell hcell) p hp

/-- One underscore from column 470 on just stays inside. -/
example : StaysOnScreen 480 470 0 ⟨[0x5f], by decide⟩ :=
  ⟨List.forall_iff_forall_mem.mp (by decide +kernel)⟩

/-- Two underscores from column 470 on: the second one goes on in the next scan line. -/
theorem fbPrintString_outside :
    ((480, 13) : Pixel) ∈ fbPrintString 480 470 0 ⟨[0x5f, 0x5f], by decide⟩ := by
  decide +kernel

end Jz2440.Lcd
