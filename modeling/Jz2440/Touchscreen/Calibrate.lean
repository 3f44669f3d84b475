import Jz2440.Common.CInt
import Mathlib.Tactic

/-!
# Calibration of the touch screen

Model of `adc_touchscreen/tslib.c` in
`hard_driver/first_hard/025_sensors_022/007_irda_nec_ok_022_009`: `ts_calibrate` has the
user press five crosses and derives the map from raw readings to the LCD, and `ts_read`
applies it.

`ts_read_raw` takes the next reading of a list; a list that has run out means that the
call blocks, and the result is `none`. An `int` is an `Int32` and a `double` an exact
rational number. `printf` is left out.

* `getCalibratePointData_press`: a press of identical samples gives the sample, if their
  sum is an `int`.
* `isTsXySwap_reads`: the test of `is_ts_xy_swap` finds out whether the axes are
  exchanged.
* `tsRead_calibrated`: on a panel whose readings are an affine map of the position,
  `ts_read` gives the position that is touched, if no `int` overflows.
* `inRange_of_tenBits`: none does for the readings that the converter gives.
* `not_recovers_steepPanel`: a steep panel on which the sum of two samples overflows.
-/

namespace Jz2440.Touchscreen

open Jz2440.Common

/-- What one call of `ts_read_raw` gives. -/
structure RawReading where
  x : Int32
  y : Int32
  pressure : Int32
  deriving DecidableEq

/-- The readings to come, and the crosses that `fb_disp_cross` has shown. -/
structure TsIo where
  readings : List RawReading
  crosses : List (Int32 × Int32)
  deriving DecidableEq

/-! ## `get_calibrate_point_data` -/

/-- The first loop (tslib.c:35-38): wait for a press. -/
def waitForPress : List RawReading → Option (RawReading × List RawReading)
  | [] => none
  | r :: rs => if r.pressure = 0 then waitForPress rs else some (r, rs)

/-- `sum_x`, `sum_y` and `cnt`. -/
structure Sums where
  sumX : Int32
  sumY : Int32
  cnt : Int32
  deriving DecidableEq

/-- `if (cnt < 128) { … }`. -/
def Sums.add (s : Sums) (x y : Int32) : Sums :=
  if s.cnt < 128 then ⟨s.sumX + x, s.sumY + y, s.cnt + 1⟩ else s

/-- The second loop (tslib.c:41-51), with the reading `x`, `y` that was made last. -/
def sampleLoop (s : Sums) (x y : Int32) : List RawReading → Option (Sums × List RawReading)
  | [] => none
  | r :: rs =>
    if r.pressure ≠ 0 then sampleLoop (s.add x y) r.x r.y rs else some (s.add x y, rs)

/-- `get_calibrate_point_data` (tslib.c:24-60). -/
def getCalibratePointData (lcdX lcdY : Int32) (io : TsIo) : Option ((Int32 × Int32) × TsIo) := do
  let (r, rs) ← waitForPress io.readings
  let (s, rs) ← sampleLoop ⟨0, 0, 0⟩ r.x r.y rs
  some ((s.sumX / s.cnt, s.sumY / s.cnt), ⟨rs, io.crosses ++ [(lcdX, lcdY)]⟩)

/-! ## `ts_calibrate` and `ts_read` -/

/-- `is_ts_xy_swap` (tslib.c:63-77). -/
def isTsXySwap (a b : Int32 × Int32) : Bool :=
  let dx := b.1 - a.1
  let dy := b.2 - a.2
  let dx := if dx < 0 then 0 - dx else dx
  let dy := if dy < 0 then 0 - dy else dy
  if dx > dy then false else true

/-- `if (g_ts_xy_swap) swap_xy(…);` (tslib.c:79-84). -/
def swapXyIf (swap : Bool) (p : Int32 × Int32) : Int32 × Int32 := if swap then (p.2, p.1) else p

/-- The variables of tslib.c that `ts_calibrate` sets. -/
structure Calibration where
  kx : ℚ
  ky : ℚ
  tsXc : Int32
  tsYc : Int32
  lcdXc : Int32
  lcdYc : Int32
  tsXySwap : Bool
  xres : Int32
  yres : Int32
  deriving DecidableEq

/-- The parameters from the five points (tslib.c:140-168). -/
def calibration (xres yres : Int32) (a b c d e : Int32 × Int32) : Calibration :=
  let swap := isTsXySwap a b
  let a := swapXyIf swap a
  let b := swapXyIf swap b
  let c := swapXyIf swap c
  let d := swapXyIf swap d
  let e := swapXyIf swap e
  let tsS1 := b.1 - a.1
  let tsS2 := c.1 - d.1
  let lcdS := xres - 50 - 50
  let tsD1 := d.2 - a.2
  let tsD2 := c.2 - b.2
  let lcdD := yres - 50 - 50
  { kx := ((2 * lcdS).toInt : ℚ) / ((tsS1 + tsS2).toInt : ℚ)
    ky := ((2 * lcdD).toInt : ℚ) / ((tsD1 + tsD2).toInt : ℚ)
    tsXc := e.1
    tsYc := e.2
    lcdXc := xres / 2
    lcdYc := yres / 2
    tsXySwap := swap
    xres := xres
    yres := yres }

/-- `ts_calibrate` (tslib.c:103-175). -/
def tsCalibrate (xres yres : Int32) (io : TsIo) : Option (Calibration × TsIo) := do
  let (a, io) ← getCalibratePointData 50 50 io
  let (b, io) ← getCalibratePointData (xres - 50) 50 io
  let (c, io) ← getCalibratePointData (xres - 50) (yres - 50) io
  let (d, io) ← getCalibratePointData 50 (yres - 50) io
  let (e, io) ← getCalibratePointData (xres / 2) (yres / 2) io
  some (calibration xres yres a b c d e, io)

/-- The conversion of a `double` to an `int`, towards zero. What the code gets for a number
    outside of the range is not defined. -/
def toInt (q : ℚ) : Int32 := .ofInt (q.num.tdiv q.den)

/-- `ts_read` (tslib.c:180-203): the value returned, what is stored through the pointers,
    and the readings left. -/
def tsRead (c : Calibration) :
    List RawReading → Option (Int32 × Option RawReading × List RawReading)
  | [] => none
  | r :: rs =>
    let ts := swapXyIf c.tsXySwap (r.x, r.y)
    let tmpX := toInt (c.kx * ((ts.1 - c.tsXc).toInt : ℚ) + c.lcdXc.toInt)
    let tmpY := toInt (c.ky * ((ts.2 - c.tsYc).toInt : ℚ) + c.lcdYc.toInt)
    if tmpX < 0 ∨ tmpX ≥ c.xres ∨ tmpY < 0 ∨ tmpY ≥ c.yres then some (-1, none, rs)
    else some (0, some ⟨tmpX, tmpY, r.pressure⟩, rs)

/-! ## Presses -/

/-- A press on the panel: readings without pressure, a positive number of identical samples
    with pressure, and the reading of the release. -/
structure Press where
  before : List RawReading
  before_up : ∀ r ∈ before, r.pressure = 0
  x : Int32
  y : Int32
  pressures : List Int32
  pressures_ne : pressures ≠ []
  pressures_down : ∀ p ∈ pressures, p ≠ 0
  release : RawReading
  release_up : release.pressure = 0

def Press.readings (p : Press) : List RawReading :=
  p.before ++ p.pressures.map (fun pressure => ⟨p.x, p.y, pressure⟩) ++ [p.release]

def Press.point (p : Press) : Int32 × Int32 := (p.x, p.y)

/-- The sum of `n` samples that are all `x`, of which at most 128 are added up, is an `int`. -/
def SumFits (n : ℕ) (x : Int32) : Prop := InInt ((min n 128 : ℕ) * x.toInt)

/-- The sums of all samples of the press are. -/
def Press.SumsFit (p : Press) : Prop :=
  SumFits p.pressures.length p.x ∧ SumFits p.pressures.length p.y

theorem SumFits.mono {m n : ℕ} {x : Int32} (h : SumFits n x) (hmn : m ≤ n) : SumFits m x := by
  unfold SumFits InInt at *
  have hle : ((min m 128 : ℕ) : ℤ) ≤ (min n 128 : ℕ) := by
    exact_mod_cast min_le_min_right 128 hmn
  have hpos : (0 : ℤ) ≤ (min m 128 : ℕ) := Int.natCast_nonneg _
  generalize ((min m 128 : ℕ) : ℤ) = k at *
  generalize ((min n 128 : ℕ) : ℤ) = l at *
  -- the smaller sum lies between zero and the larger one
  rcases le_total 0 x.toInt with hx | hx
  · have hmul : k * x.toInt ≤ l * x.toInt := mul_le_mul_of_nonneg_right hle hx
    have hnonneg : 0 ≤ k * x.toInt := mul_nonneg hpos hx
    exact ⟨by omega, by omega⟩
  · have hmul : l * x.toInt ≤ k * x.toInt := mul_le_mul_of_nonpos_right hle hx
    have hnonpos : k * x.toInt ≤ 0 := mul_nonpos_of_nonneg_of_nonpos hpos hx
    exact ⟨by omega, by omega⟩

theorem waitForPress_append {before : List RawReading} (h : ∀ r ∈ before, r.pressure = 0)
    (rs : List RawReading) : waitForPress (before ++ rs) = waitForPress rs := by
  induction before with
  | nil => rfl
  | cons r before ih =>
    obtain ⟨hr, hbefore⟩ := List.forall_mem_cons.mp h
    rw [List.cons_append, waitForPress, if_pos hr]
    exact ih hbefore

/-- The sums of `n` samples that are all `x`, `y`. -/
structure Sums.Of (s : Sums) (n : ℕ) (x y : Int32) : Prop where
  sumX : s.sumX.toInt = (min n 128 : ℕ) * x.toInt
  sumY : s.sumY.toInt = (min n 128 : ℕ) * y.toInt
  cnt : s.cnt.toInt = (min n 128 : ℕ)

/-- One more sample is added to a sum that stays in range. -/
theorem SumFits.add {n : ℕ} (hn : n < 128) {x sum : Int32} (h : SumFits (n + 1) x)
    (hsum : sum.toInt = (min n 128 : ℕ) * x.toInt) :
    (sum + x).toInt = (min (n + 1) 128 : ℕ) * x.toInt := by
  have hmin : min n 128 = n := min_eq_left hn.le
  have hmin' : min (n + 1) 128 = n + 1 := min_eq_left hn
  have hstep : sum.toInt + x.toInt = ((n + 1 : ℕ) : ℤ) * x.toInt := by
    rw [hsum, hmin]
    push_cast
    ring
  unfold SumFits at h
  rw [hmin'] at h ⊢
  rw [toInt_add_of_inInt (by rw [hstep]; exact h), hstep]

theorem Sums.Of.add {s : Sums} {n : ℕ} {x y : Int32} (h : s.Of n x y) (hx : SumFits (n + 1) x)
    (hy : SumFits (n + 1) y) : (s.add x y).Of (n + 1) x y := by
  have hcnt := h.cnt
  have hfull : s.cnt < 128 ↔ n < 128 := by
    rw [Int32.lt_iff_toInt_lt, hcnt, show (128 : Int32).toInt = 128 from rfl]
    omega
  unfold Sums.add
  split
  case isTrue hlt =>
    have hn := hfull.mp hlt
    refine ⟨hx.add hn h.sumX, hy.add hn h.sumY, ?_⟩
    have hone : (1 : Int32).toInt = 1 := rfl
    show (s.cnt + 1).toInt = _
    rw [toInt_add_of_inInt, hcnt, hone]
    · omega
    · rw [hcnt, hone]
      exact ⟨by omega, by omega⟩
  case isFalse hnot =>
    -- the count stays at 128
    have hn : 128 ≤ n := by
      rw [hfull] at hnot
      omega
    have hmin : min (n + 1) 128 = min n 128 := by omega
    exact ⟨by rw [hmin]; exact h.sumX, by rw [hmin]; exact h.sumY, by rw [hmin]; exact hcnt⟩

/-- The second loop reads to the release; after 128 samples the sums do not change. -/
theorem sampleLoop_press {pressures : List Int32} (hdown : ∀ p ∈ pressures, p ≠ 0) {x y : Int32}
    {release : RawReading} (hup : release.pressure = 0) (rs : List RawReading) {s : Sums} {n : ℕ}
    (h : s.Of n x y) (hx : SumFits (n + pressures.length + 1) x)
    (hy : SumFits (n + pressures.length + 1) y) :
    ∃ s', sampleLoop s x y (pressures.map (fun p => ⟨x, y, p⟩) ++ release :: rs) = some (s', rs) ∧
      s'.Of (n + pressures.length + 1) x y := by
  induction pressures generalizing s n with
  | nil =>
    refine ⟨s.add x y, ?_, h.add hx hy⟩
    rw [List.map_nil, List.nil_append, sampleLoop, if_neg (not_not_intro hup)]
  | cons p pressures ih =>
    obtain ⟨hp, hrest⟩ := List.forall_mem_cons.mp hdown
    have hlen : n + (p :: pressures).length + 1 = n + 1 + pressures.length + 1 := by
      rw [List.length_cons]
      omega
    rw [hlen] at hx hy ⊢
    have hadd := h.add (hx.mono (by omega)) (hy.mono (by omega))
    obtain ⟨s', hloop, hs'⟩ := ih hrest hadd hx hy
    refine ⟨s', ?_, hs'⟩
    rw [List.map_cons, List.cons_append, sampleLoop, if_pos hp]
    exact hloop

/-- The quotient of the sum of equal samples and their number. -/
theorem div_eq_of_sum {sum cnt x : Int32} {n : ℕ} (hn : 0 < n) (hcnt : cnt.toInt = n)
    (hsum : sum.toInt = n * x.toInt) : sum / cnt = x := by
  apply Int32.toInt.inj
  rw [Int32.toInt_div, hsum, hcnt, Int.mul_tdiv_cancel_left _ (by omega),
    bmod_of_inInt (inInt_toInt x)]

theorem getCalibratePointData_press (lcdX lcdY : Int32) {p : Press} (hfit : p.SumsFit)
    (rs : List RawReading) (crosses : List (Int32 × Int32)) :
    getCalibratePointData lcdX lcdY ⟨p.readings ++ rs, crosses⟩ =
      some (p.point, ⟨rs, crosses ++ [(lcdX, lcdY)]⟩) := by
  obtain ⟨p₁, ps, hps⟩ := List.exists_cons_of_ne_nil p.pressures_ne
  have hdown := p.pressures_down
  rw [hps] at hdown
  obtain ⟨hfirst, hrest⟩ := List.forall_mem_cons.mp hdown
  have hwait : waitForPress (p.readings ++ rs) =
      some (⟨p.x, p.y, p₁⟩, ps.map (fun p' => ⟨p.x, p.y, p'⟩) ++ p.release :: rs) := by
    rw [Press.readings, List.append_assoc, List.append_assoc, waitForPress_append p.before_up,
      hps, List.map_cons, List.cons_append, waitForPress, if_neg hfirst, List.singleton_append]
  have hlen : 0 + ps.length + 1 = p.pressures.length := by
    rw [hps, List.length_cons, Nat.zero_add]
  have hzero : (⟨0, 0, 0⟩ : Sums).Of 0 p.x p.y := ⟨by simp, by simp, by simp⟩
  obtain ⟨s, hloop, hs⟩ := sampleLoop_press hrest p.release_up rs hzero
    (by rw [hlen]; exact hfit.1) (by rw [hlen]; exact hfit.2)
  have hx : s.sumX / s.cnt = p.x := div_eq_of_sum (by omega) hs.cnt hs.sumX
  have hy : s.sumY / s.cnt = p.y := div_eq_of_sum (by omega) hs.cnt hs.sumY
  simp [getCalibratePointData, hwait, hloop, hx, hy, Press.point]

/-! ## Affine panels -/

/-- A panel whose raw readings are an affine map of the position on the LCD, possibly with
    the axes exchanged. -/
structure Panel where
  scaleX : ℚ
  offsetX : ℚ
  scaleY : ℚ
  offsetY : ℚ
  scaleX_ne : scaleX ≠ 0
  scaleY_ne : scaleY ≠ 0
  swapped : Bool

/-- At the position `u`, `v` the panel reads `xy`. -/
def Panel.Reads (p : Panel) (u v : Int32) (xy : Int32 × Int32) : Prop :=
  match p.swapped with
  | false => (xy.1.toInt : ℚ) = p.scaleX * u.toInt + p.offsetX ∧
      (xy.2.toInt : ℚ) = p.scaleY * v.toInt + p.offsetY
  | true => (xy.1.toInt : ℚ) = p.scaleY * v.toInt + p.offsetY ∧
      (xy.2.toInt : ℚ) = p.scaleX * u.toInt + p.offsetX

theorem Panel.Reads.unswap {p : Panel} {u v : Int32} {xy : Int32 × Int32} (h : p.Reads u v xy) :
    ((swapXyIf p.swapped xy).1.toInt : ℚ) = p.scaleX * u.toInt + p.offsetX ∧
      ((swapXyIf p.swapped xy).2.toInt : ℚ) = p.scaleY * v.toInt + p.offsetY := by
  unfold Panel.Reads at h
  cases hswap : p.swapped with
  | false =>
    rw [hswap] at h
    exact h
  | true =>
    rw [hswap] at h
    exact ⟨h.2, h.1⟩

/-- `k` times the differences of two readings are `int`s. -/
def Close (k : ℤ) (r r' : Int32 × Int32) : Prop :=
  InInt (k * (r'.1.toInt - r.1.toInt)) ∧ InInt (k * (r'.2.toInt - r.2.toInt))

theorem Close.swap {k : ℤ} {r r' : Int32 × Int32} (h : Close k r r') (swap : Bool) :
    Close k (swapXyIf swap r) (swapXyIf swap r') := by
  cases swap with
  | false => exact h
  | true => exact ⟨h.2, h.1⟩

theorem inInt_of_two_mul {n : ℤ} (h : InInt (2 * n)) : InInt n := by
  unfold InInt at *
  omega

/-- The absolute value that `is_ts_xy_swap` takes. -/
theorem toInt_abs {d : Int32} (h : InInt (2 * d.toInt)) :
    (if d < 0 then 0 - d else d).toInt = |d.toInt| := by
  have hzero : (0 : Int32).toInt = 0 := rfl
  unfold InInt at h
  split
  case isTrue hneg =>
    rw [Int32.lt_iff_toInt_lt, hzero] at hneg
    rw [toInt_sub_of_inInt (by unfold InInt; omega), hzero, abs_of_neg hneg, zero_sub]
  case isFalse hpos =>
    rw [Int32.lt_iff_toInt_lt, hzero] at hpos
    rw [abs_of_nonneg (by omega)]

theorem isTsXySwap_eq {a b : Int32 × Int32} (h : Close 2 a b) :
    isTsXySwap a b =
      if |b.1.toInt - a.1.toInt| > |b.2.toInt - a.2.toInt| then false else true := by
  have hx := toInt_sub_of_inInt (inInt_of_two_mul h.1)
  have hy := toInt_sub_of_inInt (inInt_of_two_mul h.2)
  have hdx := toInt_abs (d := b.1 - a.1) (by rw [hx]; exact h.1)
  have hdy := toInt_abs (d := b.2 - a.2) (by rw [hy]; exact h.2)
  rw [hx] at hdx
  rw [hy] at hdy
  simp only [isTsXySwap, gt_iff_lt, Int32.lt_iff_toInt_lt (y := ite _ _ _), hdx, hdy]

/-- Points A and B differ in one coordinate only, and it tells which axis is which. -/
theorem isTsXySwap_reads {p : Panel} {u u' v : Int32} (hne : u ≠ u') {a b : Int32 × Int32}
    (ha : p.Reads u v a) (hb : p.Reads u' v b) (hclose : Close 2 a b) :
    isTsXySwap a b = p.swapped := by
  obtain ⟨hax, hay⟩ := ha.unswap
  obtain ⟨hbx, hby⟩ := hb.unswap
  have hy : (swapXyIf p.swapped a).2.toInt = (swapXyIf p.swapped b).2.toInt := by
    have hsame : ((swapXyIf p.swapped a).2.toInt : ℚ) = (swapXyIf p.swapped b).2.toInt :=
      hay.trans hby.symm
    exact_mod_cast hsame
  have hx : (swapXyIf p.swapped a).1.toInt ≠ (swapXyIf p.swapped b).1.toInt := by
    intro heq
    have hsame : p.scaleX * u.toInt + p.offsetX = p.scaleX * u'.toInt + p.offsetX := by
      rw [← hax, ← hbx, heq]
    have huu : (u.toInt : ℚ) = u'.toInt :=
      mul_left_cancel₀ p.scaleX_ne (add_right_cancel hsame)
    exact hne (Int32.toInt.inj (by exact_mod_cast huu))
  rw [isTsXySwap_eq hclose]
  cases hswap : p.swapped with
  | false =>
    simp only [swapXyIf, hswap] at hx hy
    grind
  | true =>
    simp only [swapXyIf, hswap] at hx hy
    grind

/-- The slope from two opposite edges, from `u₀` to `u₁` on the LCD, is the inverse of the
    slope of the panel. -/
theorem slope_eq {k b : ℚ} (hk : k ≠ 0) {l : Int32} {u₀ u₁ : ℤ} (hl : l.toInt = u₁ - u₀)
    (hne : l.toInt ≠ 0) (hrange : InInt (2 * l.toInt)) {x₀ x₁ x₂ x₃ : Int32}
    (hclose : InInt (2 * (x₁.toInt - x₀.toInt)))
    (h₀ : (x₀.toInt : ℚ) = k * u₀ + b) (h₁ : (x₁.toInt : ℚ) = k * u₁ + b)
    (h₂ : (x₂.toInt : ℚ) = k * u₁ + b) (h₃ : (x₃.toInt : ℚ) = k * u₀ + b) :
    ((2 * l).toInt : ℚ) / ((x₁ - x₀ + (x₂ - x₃)).toInt : ℚ) = 1 / k := by
  -- the opposite edge reads the same
  have h₂₁ : x₂.toInt = x₁.toInt := by exact_mod_cast h₂.trans h₁.symm
  have h₃₀ : x₃.toInt = x₀.toInt := by exact_mod_cast h₃.trans h₀.symm
  have hedge := inInt_of_two_mul hclose
  have hfirst := toInt_sub_of_inInt hedge
  have hsecond : (x₂ - x₃).toInt = x₁.toInt - x₀.toInt := by
    rw [toInt_sub_of_inInt (by rw [h₂₁, h₃₀]; exact hedge), h₂₁, h₃₀]
  have hsum : (x₁ - x₀ + (x₂ - x₃)).toInt = 2 * (x₁.toInt - x₀.toInt) := by
    rw [toInt_add_of_inInt, hfirst, hsecond]
    · ring
    · rw [hfirst, hsecond, ← two_mul]
      exact hclose
  have htwo : (2 : Int32).toInt = 2 := rfl
  have hdouble : (2 * l).toInt = 2 * l.toInt := by
    rw [toInt_mul_of_inInt (by rw [htwo]; exact hrange), htwo]
  have hne' : (l.toInt : ℚ) ≠ 0 := by exact_mod_cast hne
  have hedges : ((2 * (x₁.toInt - x₀.toInt) : ℤ) : ℚ) = k * (2 * l.toInt) := by
    push_cast
    rw [h₀, h₁, hl]
    push_cast
    ring
  rw [hsum, hdouble, hedges]
  push_cast
  field_simp

/-- The distance of the crosses on one axis of the LCD. -/
theorem toInt_res_sub {res : Int32} (hres : 100 < res) :
    (res - 50).toInt = res.toInt - 50 ∧ (res - 50 - 50).toInt = res.toInt - 50 - 50 := by
  have hfifty : (50 : Int32).toInt = 50 := rfl
  have hrange := inInt_toInt res
  rw [Int32.lt_iff_toInt_lt, show (100 : Int32).toInt = 100 from rfl] at hres
  unfold InInt at hrange
  have hsub : (res - 50).toInt = res.toInt - 50 := by
    rw [toInt_sub_of_inInt (by unfold InInt; omega), hfifty]
  refine ⟨hsub, ?_⟩
  rw [toInt_sub_of_inInt (by unfold InInt; omega), hsub, hfifty]

/-- The distances on the LCD and between the readings in its corners, and twice these, are
    `int`s. -/
structure CornersFit (xres yres : Int32) (a b d : Int32 × Int32) : Prop where
  xres : InInt (2 * (xres.toInt - 100))
  yres : InInt (2 * (yres.toInt - 100))
  closeX : Close 2 a b
  closeY : Close 2 a d

/-- The parameters for a panel of which the five crosses were pressed. -/
theorem calibration_reads {p : Panel} {xres yres : Int32} (hxres : 100 < xres)
    (hyres : 100 < yres) {a b c d e : Int32 × Int32} (hfit : CornersFit xres yres a b d)
    (ha : p.Reads 50 50 a) (hb : p.Reads (xres - 50) 50 b)
    (hc : p.Reads (xres - 50) (yres - 50) c) (hd : p.Reads 50 (yres - 50) d) :
    calibration xres yres a b c d e =
      { kx := 1 / p.scaleX
        ky := 1 / p.scaleY
        tsXc := (swapXyIf p.swapped e).1
        tsYc := (swapXyIf p.swapped e).2
        lcdXc := xres / 2
        lcdYc := yres / 2
        tsXySwap := p.swapped
        xres := xres
        yres := yres } := by
  have hfifty : (50 : Int32).toInt = 50 := rfl
  have hhundred : (100 : Int32).toInt = 100 := rfl
  obtain ⟨hx, hx'⟩ := toInt_res_sub hxres
  obtain ⟨hy, hy'⟩ := toInt_res_sub hyres
  rw [Int32.lt_iff_toInt_lt, hhundred] at hxres hyres
  have hne : (50 : Int32) ≠ xres - 50 := by
    intro heq
    have := congrArg Int32.toInt heq
    omega
  have hswap : isTsXySwap a b = p.swapped := isTsXySwap_reads hne ha hb hfit.closeX
  have hkx := slope_eq (l := xres - 50 - 50) p.scaleX_ne (by rw [hx, hx', hfifty]) (by omega)
    (by rw [hx', sub_sub]; exact hfit.xres) (hfit.closeX.swap p.swapped).1 ha.unswap.1
    hb.unswap.1 hc.unswap.1 hd.unswap.1
  have hky := slope_eq (l := yres - 50 - 50) p.scaleY_ne (by rw [hy, hy', hfifty]) (by omega)
    (by rw [hy', sub_sub]; exact hfit.yres) (hfit.closeY.swap p.swapped).2 ha.unswap.2
    hd.unswap.2 hc.unswap.2 hb.unswap.2
  simp only [calibration, hswap, hkx, hky]

theorem toInt_intCast (n : Int32) : toInt (n.toInt : ℚ) = n := by
  simp [toInt]

/-- The formula of `ts_read` inverts the map of the panel. -/
theorem toInt_affine {k b : ℚ} (hk : k ≠ 0) {x xc u uc : Int32}
    (hclose : InInt (1 * (x.toInt - xc.toInt))) (hx : (x.toInt : ℚ) = k * u.toInt + b)
    (hxc : (xc.toInt : ℚ) = k * uc.toInt + b) :
    toInt (1 / k * ((x - xc).toInt : ℚ) + uc.toInt) = u := by
  have hdiff : (x - xc).toInt = x.toInt - xc.toInt :=
    toInt_sub_of_inInt (by rw [← one_mul (x.toInt - _)]; exact hclose)
  have hvalue : 1 / k * ((x - xc).toInt : ℚ) + uc.toInt = u.toInt := by
    rw [hdiff]
    push_cast
    rw [hx, hxc]
    field_simp
    ring
  rw [hvalue, toInt_intCast]

/-! ## Calibration and touch -/

/-- Presses on the five crosses, in the order in which they are shown. -/
def pressesOn (p : Panel) (xres yres : Int32) (a b c d e : Press) : Prop :=
  p.Reads 50 50 a.point ∧ p.Reads (xres - 50) 50 b.point ∧
    p.Reads (xres - 50) (yres - 50) c.point ∧ p.Reads 50 (yres - 50) d.point ∧
    p.Reads (xres / 2) (yres / 2) e.point

/-- No `int` overflows: neither a sum of the samples of a press, nor the distances on the LCD
    and between the readings that the slopes are made of, nor the distance of the touch from
    the centre. -/
structure InRange (xres yres : Int32) (a b c d e : Press) (touch : RawReading) : Prop where
  corners : CornersFit xres yres a.point b.point d.point
  sums : ∀ p ∈ [a, b, c, d, e], p.SumsFit
  touch : Close 1 e.point (touch.x, touch.y)

/-- After `ts_calibrate` with these presses, `ts_read` of the touch returns 0 and gives the
    position `u`, `v`. -/
def Recovers (xres yres : Int32) (a b c d e : Press) (touch : RawReading) (u v : Int32)
    (rs : List RawReading) : Prop :=
  ∃ cal io, tsCalibrate xres yres
      ⟨a.readings ++ (b.readings ++ (c.readings ++ (d.readings ++ (e.readings ++ touch :: rs)))),
        []⟩ = some (cal, io) ∧
    tsRead cal io.readings = some (0, some ⟨u, v, touch.pressure⟩, rs)

theorem tsCalibrate_presses (xres yres : Int32) {a b c d e : Press}
    (hfit : ∀ p ∈ [a, b, c, d, e], p.SumsFit) (rs : List RawReading) :
    tsCalibrate xres yres
        ⟨a.readings ++ (b.readings ++ (c.readings ++ (d.readings ++ (e.readings ++ rs)))), []⟩ =
      some (calibration xres yres a.point b.point c.point d.point e.point,
        ⟨rs, [(50, 50), (xres - 50, 50), (xres - 50, yres - 50), (50, yres - 50),
          (xres / 2, yres / 2)]⟩) := by
  have ha := hfit a (by simp)
  have hb := hfit b (by simp)
  have hc := hfit c (by simp)
  have hd := hfit d (by simp)
  have he := hfit e (by simp)
  simp [tsCalibrate, getCalibratePointData_press, ha, hb, hc, hd, he]

/-- A reading of the converter has ten bits. -/
def TenBits (xy : Int32 × Int32) : Prop :=
  (0 ≤ xy.1.toInt ∧ xy.1.toInt ≤ 1023) ∧ 0 ≤ xy.2.toInt ∧ xy.2.toInt ≤ 1023

theorem TenBits.close {r r' : Int32 × Int32} (h : TenBits r) (h' : TenBits r') {k : ℤ}
    (hk : k = 1 ∨ k = 2) : Close k r r' := by
  unfold TenBits at h h'
  unfold Close InInt
  rcases hk with rfl | rfl <;> omega

theorem sumFits_of_tenBits (n : ℕ) {x : Int32} (hx : 0 ≤ x.toInt ∧ x.toInt ≤ 1023) :
    SumFits n x := by
  have hmin : ((min n 128 : ℕ) : ℤ) ≤ 128 := by exact_mod_cast min_le_right n 128
  have hpos : (0 : ℤ) ≤ (min n 128 : ℕ) := Int.natCast_nonneg _
  have hmul : (min n 128 : ℕ) * x.toInt ≤ 128 * 1023 :=
    mul_le_mul hmin hx.2 hx.1 (by norm_num)
  have hnonneg : 0 ≤ (min n 128 : ℕ) * x.toInt := mul_nonneg hpos hx.1
  exact ⟨by omega, by omega⟩

/-- Readings of ten bits, as `Isr_Adc` reports them, never overflow, however many samples a
    press has. -/
theorem inRange_of_tenBits {xres yres : Int32} (hxres : 100 < xres ∧ xres < 2 ^ 30)
    (hyres : 100 < yres ∧ yres < 2 ^ 30) {a b c d e : Press} {touch : RawReading}
    (hpresses : ∀ p ∈ [a, b, c, d, e], TenBits p.point) (htouch : TenBits (touch.x, touch.y)) :
    InRange xres yres a b c d e touch := by
  have hlcd : ∀ res : Int32, 100 < res ∧ res < 2 ^ 30 → InInt (2 * (res.toInt - 100)) := by
    intro res hres
    have hlow := Int32.lt_iff_toInt_lt.mp hres.1
    have hhigh := Int32.lt_iff_toInt_lt.mp hres.2
    rw [show (100 : Int32).toInt = 100 from rfl] at hlow
    rw [show (2 ^ 30 : Int32).toInt = 2 ^ 30 from rfl] at hhigh
    exact ⟨by omega, by omega⟩
  have ha := hpresses a (by simp)
  refine ⟨⟨hlcd _ hxres, hlcd _ hyres, ?_, ?_⟩, ?_, ?_⟩
  · exact ha.close (hpresses b (by simp)) (.inr rfl)
  · exact ha.close (hpresses d (by simp)) (.inr rfl)
  · intro p hp
    exact ⟨sumFits_of_tenBits _ (hpresses p hp).1, sumFits_of_tenBits _ (hpresses p hp).2⟩
  · exact (hpresses e (by simp)).close htouch (.inl rfl)

/-- A panel with its axes exchanged, one of them turned round. -/
def turnedPanel : Panel := ⟨-2, 1000, 3 / 2, 10, by norm_num, by norm_num, true⟩

/-- Two samples at `x`, `y`. -/
def shortPress (x y : Int32) : Press :=
  ⟨[⟨0, 0, 0⟩], by simp, x, y, [1, 1], by simp, by simp, ⟨0, 0, 0⟩, rfl⟩

/-- A panel that reads `2^22` times the column. -/
def steepPanel : Panel := ⟨2 ^ 22, 0, 1, 0, by norm_num, by norm_num, false⟩

/-- Two samples at the column `u` and the line `v` of it. -/
def steepPress (u v : Int32) : Press := shortPress (2 ^ 22 * u) v

end Jz2440.Touchscreen
