import Jz2440.Common.Bytes
import Jz2440.Common.Runs

/-!
# The touch-screen driver for Linux

Model of `hard_driver/drivers_and_test/11th_ts/8th/s3c_ts.c`. `adc_irq` averages four
samples of a touch. The end of a touch is reported by three handlers, but only `adc_irq`
then starts its count anew, and the timer that one burst has armed may fire in the middle
of the next.

Each sample carries the number of reports of `BTN_TOUCH = 0` before it, so that a point
is made of samples of one touch if they all carry the number of such reports so far.

* `cnt_le_three`: in every run `cnt` stays in 0..3, so that the arrays are not overrun.
* `points_of_one_touch`: if the timer does not find the pen up while samples are counted,
  every point is made of samples of one touch.
* `timer_mixes_touches`: otherwise a point may mix two touches.
* `boundsSpread_iff`: when the four samples of a point are near its coordinates.
* `points_filtered`: in every run every point is the average of samples that were accepted.
-/

namespace Jz2440.LinuxTs

open Jz2440.Common

/-! ## Registers -/

/-- `enter_wait_pen_down_mode` (s3c_ts.c:33-36). -/
def waitPenDown : Word := 0xd3#32

/-- `enter_wait_pen_up_mode` (s3c_ts.c:38-41). -/
def waitPenUp : Word := 0x1d3#32

/-- `enter_measure_xy_mode` (s3c_ts.c:43-46). -/
def measureXy : Word := (1#32 <<< 3) ||| (1#32 <<< 2)

/-- `ADCTSC` bits 1:0: the controller waits for a pen interrupt. -/
def isWaiting (adctsc : Word) : Prop := adctsc &&& 3#32 = 3#32

instance (w : Word) : Decidable (isWaiting w) := inferInstanceAs (Decidable (_ = _))

/-- `adcdat0 & (1<<15)`. -/
def penUp (adcdat0 : Word) : Bool := adcdat0 &&& (1#32 <<< 15) ≠ 0#32

/-! ## State -/

/-- An entry of the arrays `x` and `y`, and the number of reports of `BTN_TOUCH = 0` before
    it was taken. -/
structure Sample where
  x : ℕ
  y : ℕ
  touch : ℕ
  deriving DecidableEq

/-- A report of `ABS_X` and `ABS_Y`: their values, the samples that were averaged, and the
    number of reports of `BTN_TOUCH = 0` before it. -/
structure Point where
  absX : ℕ
  absY : ℕ
  samples : List Sample
  touch : ℕ
  deriving DecidableEq

/-- The level of the pen, the controller with the conversions that were started and have not
    raised `adc_irq`, the timer, the variables of `adc_irq`, and what was reported. -/
structure S3cTs where
  up : Bool
  adctsc : Word
  converting : ℕ
  timerPending : Bool
  cnt : ℕ
  xy : ℕ → Sample
  releases : ℕ
  points : List Point

/-- After `s3c_ts_init` (s3c_ts.c:175-239), which has started the timer. -/
def tsInit : S3cTs := ⟨true, waitPenDown, 0, true, 0, fun _ => ⟨0, 0, 0⟩, 0, []⟩

/-! ## Handlers -/

/-- `s3c_filter_ts` (s3c_ts.c:53-79) for one of the two arrays. -/
def withinLimit (a b c : ℕ) : Bool :=
  let avr := (a + b) / 2
  let det := if c > avr then c - avr else avr - c
  ¬ det > 10

/-- `s3c_filter_ts` (s3c_ts.c:53-79). -/
def s3cFilterTs (x y : ℕ → ℕ) : Bool :=
  if ¬ (withinLimit (x 0) (x 1) (x 2) ∧ withinLimit (y 0) (y 1) (y 2)) then false
  else if ¬ (withinLimit (x 1) (x 2) (x 3) ∧ withinLimit (y 1) (y 2) (y 3)) then false
  else true

/-- The pen is up: `ABS_PRESSURE` and `BTN_TOUCH` are reported as 0. -/
def reportRelease (s : S3cTs) : S3cTs :=
  { s with releases := s.releases + 1, adctsc := waitPenDown }

/-- `enter_measure_xy_mode(); start_adc();`. -/
def measure (s : S3cTs) : S3cTs :=
  { s with adctsc := measureXy, converting := s.converting + 1 }

/-- The common body of the two handlers that look at the pen. -/
def lookAtPen (adcdat0 : Word) (s : S3cTs) : S3cTs :=
  if penUp adcdat0 then reportRelease s else measure s

/-- `s3c_ts_timer_function` (s3c_ts.c:81-97). -/
def s3cTsTimerFunction (adcdat0 : Word) (s : S3cTs) : S3cTs := lookAtPen adcdat0 s

/-- `pen_down_up_irq` (s3c_ts.c:100-118). -/
def penDownUpIrq (adcdat0 : Word) (s : S3cTs) : S3cTs := lookAtPen adcdat0 s

/-- The report of a burst (s3c_ts.c:150-158). -/
def reportPoint (s : S3cTs) : S3cTs :=
  if s3cFilterTs (fun i => (s.xy i).x) (fun i => (s.xy i).y) then
    { s with points := s.points ++ [
      { absX := ((s.xy 0).x + (s.xy 1).x + (s.xy 2).x + (s.xy 3).x) / 4
        absY := ((s.xy 0).y + (s.xy 1).y + (s.xy 2).y + (s.xy 3).y) / 4
        samples := [s.xy 0, s.xy 1, s.xy 2, s.xy 3]
        touch := s.releases }] }
  else s

/-- `x[cnt] = adcdat0 & 0x3ff; y[cnt] = adcdat1 & 0x3ff; ++cnt;`. -/
def takeSample (adcdat0 adcdat1 : Word) (s : S3cTs) : S3cTs :=
  let sample : Sample := ⟨(adcdat0 &&& 0x3ff#32).toNat, (adcdat1 &&& 0x3ff#32).toNat, s.releases⟩
  { s with xy := Function.update s.xy s.cnt sample, cnt := s.cnt + 1 }

/-- `adc_irq` (s3c_ts.c:120-173). -/
def adcIrq (adcdat0 adcdat1 : Word) (s : S3cTs) : S3cTs :=
  if penUp adcdat0 then reportRelease { s with cnt := 0 }
  else
    let s := takeSample adcdat0 adcdat1 s
    if s.cnt = 4 then
      { reportPoint s with cnt := 0, adctsc := waitPenUp, timerPending := true }
    else measure s

/-! ## Steps -/

/-- The pen moves, or a handler runs and reads these data registers. -/
inductive TsMove
  | pen (up : Bool)
  | penIrq (adcdat0 : Word)
  | timer (adcdat0 : Word)
  | adcIrq (adcdat0 adcdat1 : Word)
  deriving DecidableEq

/-- `pen_down_up_irq` comes in a waiting mode, `adc_irq` after `start_adc` and the timer
    function when the timer is pending; bit 15 of `ADCDAT0` is the level of the pen. -/
def tsMove (s : S3cTs) : TsMove → Option S3cTs
  | .pen up => some { s with up := up }
  | .penIrq adcdat0 =>
    if penUp adcdat0 = s.up ∧ isWaiting s.adctsc then some (penDownUpIrq adcdat0 s) else none
  | .timer adcdat0 =>
    if penUp adcdat0 = s.up ∧ s.timerPending then
      some (s3cTsTimerFunction adcdat0 { s with timerPending := false })
    else none
  | .adcIrq adcdat0 adcdat1 =>
    if penUp adcdat0 = s.up ∧ 0 < s.converting then
      some (adcIrq adcdat0 adcdat1 { s with converting := s.converting - 1 })
    else none

/-- All that a step can do. -/
theorem tsMove_cases {s s' : S3cTs} {e : TsMove} (h : tsMove s e = some s') :
    (∃ up, e = .pen up ∧ s' = { s with up := up }) ∨
    (∃ adcdat0, e = .penIrq adcdat0 ∧ isWaiting s.adctsc ∧ s' = penDownUpIrq adcdat0 s) ∨
    (∃ adcdat0, e = .timer adcdat0 ∧
      s' = s3cTsTimerFunction adcdat0 { s with timerPending := false }) ∨
    ∃ adcdat0 adcdat1, e = .adcIrq adcdat0 adcdat1 ∧
      s' = adcIrq adcdat0 adcdat1 { s with converting := s.converting - 1 } := by
  cases e with
  | pen up => exact .inl ⟨up, rfl, (Option.some.inj h).symm⟩
  | penIrq adcdat0 =>
    obtain ⟨⟨-, hwait⟩, h⟩ := Option.ite_none_right_eq_some.mp h
    exact .inr (.inl ⟨adcdat0, rfl, hwait, (Option.some.inj h).symm⟩)
  | timer adcdat0 =>
    obtain ⟨-, h⟩ := Option.ite_none_right_eq_some.mp h
    exact .inr (.inr (.inl ⟨adcdat0, rfl, (Option.some.inj h).symm⟩))
  | adcIrq adcdat0 adcdat1 =>
    obtain ⟨-, h⟩ := Option.ite_none_right_eq_some.mp h
    exact .inr (.inr (.inr ⟨adcdat0, adcdat1, rfl, (Option.some.inj h).symm⟩))

/-- The samples were all taken after the last report of `BTN_TOUCH = 0`. -/
def Point.OfOneTouch (p : Point) : Prop := ∀ sample ∈ p.samples, sample.touch = p.touch

instance (p : Point) : Decidable p.OfOneTouch := inferInstanceAs (Decidable (∀ _ ∈ _, _))

/-- `cnt` is in 0..3 and no point mixes two touches. -/
def TouchesApart (s : S3cTs) : Prop := s.cnt ≤ 3 ∧ ∀ p ∈ s.points, p.OfOneTouch

/-- The timer function does not find the pen up while samples are counted. -/
def TimerBetweenBursts (s : S3cTs) : TsMove → Prop
  | .timer adcdat0 => penUp adcdat0 = true → s.cnt = 0
  | _ => True

instance (s : S3cTs) : (e : TsMove) → Decidable (TimerBetweenBursts s e)
  | .timer _ => inferInstanceAs (Decidable (_ → _))
  | .pen _ | .penIrq _ | .adcIrq _ _ => isTrue trivial

/-! ## `cnt` -/

theorem cnt_adcIrq {s : S3cTs} (h : s.cnt ≤ 3) (adcdat0 adcdat1 : Word) :
    (adcIrq adcdat0 adcdat1 s).cnt ≤ 3 := by
  unfold adcIrq
  split
  case isTrue => exact Nat.zero_le 3
  case isFalse =>
    dsimp only
    split
    case isTrue => exact Nat.zero_le 3
    case isFalse hne =>
      have hcnt : s.cnt + 1 ≠ 4 := hne
      show s.cnt + 1 ≤ 3
      omega

theorem cnt_lookAtPen (adcdat0 : Word) (s : S3cTs) : (lookAtPen adcdat0 s).cnt = s.cnt := by
  unfold lookAtPen
  split <;> rfl

/-- The arrays are not overrun, whatever the order of the handlers. -/
theorem cnt_le_three {s : S3cTs} (hrun : Reach tsMove anyStep tsInit s) : s.cnt ≤ 3 := by
  refine hrun.invariant (fun s => s.cnt ≤ 3) (Nat.zero_le 3) ?_
  intro s e s' h _ hstep
  obtain ⟨up, -, rfl⟩ | ⟨adcdat0, -, -, rfl⟩ | ⟨adcdat0, -, rfl⟩ | ⟨adcdat0, adcdat1, -, rfl⟩ :=
    tsMove_cases hstep
  · exact h
  · exact (cnt_lookAtPen adcdat0 s).trans_le h
  · exact (cnt_lookAtPen adcdat0 _).trans_le h
  · have hdone : ({ s with converting := s.converting - 1 } : S3cTs).cnt ≤ 3 := h
    exact cnt_adcIrq hdone adcdat0 adcdat1

/-! ## Samples and points of one touch -/

/-- The counted samples were taken since the last report of `BTN_TOUCH = 0`, and no point
    mixes two touches. -/
structure OneTouch (s : S3cTs) : Prop where
  counted : ∀ i < s.cnt, (s.xy i).touch = s.releases
  points : ∀ p ∈ s.points, p.OfOneTouch

/-- While samples are counted the controller measures, and so there is no pen interrupt. -/
structure TouchInv (s : S3cTs) : Prop extends OneTouch s where
  measuring : 0 < s.cnt → s.adctsc = measureXy

theorem OneTouch.measure {s : S3cTs} (h : OneTouch s) : TouchInv (measure s) :=
  ⟨⟨h.counted, h.points⟩, fun _ => rfl⟩

/-- A report of `BTN_TOUCH = 0` does no harm while nothing is counted. -/
theorem touchInv_reportRelease {s : S3cTs} (hcnt : s.cnt = 0)
    (hpoints : ∀ p ∈ s.points, p.OfOneTouch) : TouchInv (reportRelease s) := by
  have hnone : ∀ i, ¬ i < (reportRelease s).cnt := by
    intro i hi
    have hi : i < s.cnt := hi
    omega
  exact ⟨⟨fun i hi => absurd hi (hnone i), hpoints⟩, fun h => absurd h (hnone 0)⟩

theorem OneTouch.lookAtPen {s : S3cTs} (h : OneTouch s) {adcdat0 : Word}
    (hok : penUp adcdat0 = true → s.cnt = 0) : TouchInv (lookAtPen adcdat0 s) := by
  unfold LinuxTs.lookAtPen
  split
  case isTrue hup => exact touchInv_reportRelease (hok hup) h.points
  case isFalse => exact h.measure

theorem OneTouch.takeSample {s : S3cTs} (h : OneTouch s) (adcdat0 adcdat1 : Word) :
    OneTouch (takeSample adcdat0 adcdat1 s) := by
  refine ⟨fun i hi => ?_, h.points⟩
  have hi : i < s.cnt + 1 := hi
  by_cases hlast : i = s.cnt
  · subst hlast
    simp [LinuxTs.takeSample]
  · have hold : (s.xy i).touch = s.releases := h.counted i (by omega)
    simpa [LinuxTs.takeSample, Function.update_of_ne hlast] using hold

theorem OneTouch.reportPoint {s : S3cTs} (h : OneTouch s) (hcnt : s.cnt = 4) :
    ∀ p ∈ (reportPoint s).points, p.OfOneTouch := by
  unfold LinuxTs.reportPoint
  split
  case isFalse => exact h.points
  case isTrue =>
    refine List.forall_mem_append.mpr ⟨h.points, List.forall_mem_singleton.mpr ?_⟩
    have hall : ∀ i < 4, (s.xy i).touch = s.releases := by
      rw [← hcnt]
      exact h.counted
    simp [Point.OfOneTouch, hall]

theorem OneTouch.adcIrq {s : S3cTs} (h : OneTouch s) (adcdat0 adcdat1 : Word) :
    TouchInv (adcIrq adcdat0 adcdat1 s) := by
  unfold LinuxTs.adcIrq
  split
  case isTrue => exact touchInv_reportRelease rfl h.points
  case isFalse =>
    have htaken := h.takeSample adcdat0 adcdat1
    dsimp only
    split
    case isTrue hfour => exact ⟨⟨nofun, htaken.reportPoint hfour⟩, nofun⟩
    case isFalse => exact htaken.measure

theorem touchInv_init : TouchInv tsInit where
  counted i hi := absurd hi (Nat.not_lt_zero i)
  points _ hp := absurd hp List.not_mem_nil
  measuring h := absurd h (Nat.lt_irrefl 0)

theorem TouchInv.step {s s' : S3cTs} {e : TsMove} (h : TouchInv s) (hok : TimerBetweenBursts s e)
    (hstep : tsMove s e = some s') : TouchInv s' := by
  obtain ⟨up, rfl, rfl⟩ | ⟨adcdat0, rfl, hwait, rfl⟩ | ⟨adcdat0, rfl, rfl⟩ |
    ⟨adcdat0, adcdat1, rfl, rfl⟩ := tsMove_cases hstep
  · exact ⟨⟨h.counted, h.points⟩, h.measuring⟩
  · refine h.lookAtPen fun _ => ?_
    -- a waiting mode is not the measuring mode
    by_contra hcnt
    rw [h.measuring (Nat.pos_of_ne_zero hcnt)] at hwait
    exact absurd hwait (by decide)
  · have hfired : OneTouch { s with timerPending := false } := ⟨h.counted, h.points⟩
    exact hfired.lookAtPen hok
  · have hdone : OneTouch { s with converting := s.converting - 1 } := ⟨h.counted, h.points⟩
    exact hdone.adcIrq adcdat0 adcdat1

/-! ## Runs -/

/-- In every run in which the timer function does not find the pen up while samples are
    counted, `cnt` is in 0..3 and no point mixes two touches. -/
theorem points_of_one_touch {s : S3cTs} (hrun : Reach tsMove TimerBetweenBursts tsInit s) :
    TouchesApart s := by
  have hcnt := cnt_le_three (hrun.mono fun _ _ _ => trivial)
  have hinv : TouchInv s :=
    hrun.invariant TouchInv touchInv_init fun _ _ _ ht hok => ht.step hok
  exact ⟨hcnt, hinv.points⟩

/-- A touch at (100, 200), the pen goes up, and the timer fires before the next touch. -/
def timerBeforeTouch : List TsMove :=
  [.pen false, .penIrq 0, .adcIrq 100 200, .adcIrq 100 200, .adcIrq 100 200, .adcIrq 100 200,
   .pen true, .timer 0x8000, .pen false, .penIrq 0, .adcIrq 100 200]

theorem points_of_one_touch_timerBeforeTouch :
    ∃ s, exec tsMove tsInit timerBeforeTouch = some s ∧
      (s.cnt = 1 ∧ s.points.map Point.absX = [100]) ∧ TouchesApart s := by
  have hrun : (exec (guarded tsMove TimerBetweenBursts) tsInit timerBeforeTouch).map
      (fun s => (s.cnt, s.points.map Point.absX)) = some (1, [100]) := by decide +kernel
  obtain ⟨s, hs, hpoint⟩ := Option.map_eq_some_iff.mp hrun
  exact ⟨s, exec_of_guarded hs, Prod.mk.inj hpoint, points_of_one_touch (.of_exec_guarded hs)⟩

/-- The timer that the first touch has armed fires in the second one, just when the pen is up
    for a moment: the first sample of the second touch is kept for the third. -/
def timerInTouch : List TsMove :=
  [.pen false, .penIrq 0, .adcIrq 100 200, .adcIrq 100 200, .adcIrq 100 200, .adcIrq 100 200,
   .pen true, .penIrq 0x8000, .pen false, .penIrq 0, .adcIrq 100 200,
   .pen true, .timer 0x8000, .pen false, .adcIrq 108 208, .adcIrq 108 208, .adcIrq 108 208]

theorem timer_mixes_touches : ¬ ∀ s, Reach tsMove anyStep tsInit s → TouchesApart s := by
  intro h
  have hrun : (exec tsMove tsInit timerInTouch).map (fun s => s.points.getLast?) =
      some (some ⟨106, 206, [⟨100, 200, 1⟩, ⟨108, 208, 2⟩, ⟨108, 208, 2⟩, ⟨108, 208, 2⟩], 2⟩) := by
    decide +kernel
  obtain ⟨s, hs, hlast⟩ := Option.map_eq_some_iff.mp hrun
  have hpoint := (h s (.of_exec hs)).2 _ (List.mem_of_getLast? hlast)
  exact absurd hpoint (by decide)

/-! ## The spread of accepted samples -/

/-- The value that `adc_irq` reports for an axis (s3c_ts.c:153-154). -/
def reported (x : ℕ → ℕ) : ℕ := (x 0 + x 1 + x 2 + x 3) / 4

/-- Sample `i` differs from the reported value by at most `4 * ERR_LIMIT`. -/
def Near (x : ℕ → ℕ) (i : ℕ) : Prop := x i ≤ reported x + 4 * 10 ∧ reported x ≤ x i + 4 * 10

instance (x : ℕ → ℕ) (i : ℕ) : Decidable (Near x i) := inferInstanceAs (Decidable (_ ∧ _))

/-- A filter that accepts only samples near the reported values. -/
def BoundsSpread (x y : ℕ → ℕ) : Prop :=
  s3cFilterTs x y = true → (∀ i < 4, Near x i) ∧ ∀ i < 4, Near y i

/-- The third of three samples is near the average of the other two, without a division. -/
def Follows (a b c : ℕ) : Prop := 2 * c ≤ a + b + 20 ∧ a + b ≤ 2 * c + 21

/-- Each of the first two of four samples is near the average of the other three. -/
structure Steady (a b c d : ℕ) : Prop where
  first : 3 * a ≤ b + c + d + 160 ∧ b + c + d ≤ 3 * a + 163
  second : 3 * b ≤ a + c + d + 160 ∧ a + c + d ≤ 3 * b + 163

theorem withinLimit_iff (a b c : ℕ) : withinLimit a b c = true ↔ Follows a b c := by
  unfold withinLimit Follows
  dsimp only
  rw [decide_eq_true_iff]
  split_ifs <;> omega

theorem s3cFilterTs_iff (x y : ℕ → ℕ) : s3cFilterTs x y = true ↔
    (Follows (x 0) (x 1) (x 2) ∧ Follows (x 1) (x 2) (x 3)) ∧
      Follows (y 0) (y 1) (y 2) ∧ Follows (y 1) (y 2) (y 3) := by
  simp only [← withinLimit_iff]
  unfold s3cFilterTs
  split_ifs with hfirst hsecond
  · tauto
  · tauto
  · tauto

/-- The last two samples are near the averages before them, and so near the reported value if
    the first two are. -/
theorem near_iff {x : ℕ → ℕ} (hfirst : Follows (x 0) (x 1) (x 2))
    (hsecond : Follows (x 1) (x 2) (x 3)) :
    (∀ i < 4, Near x i) ↔ Steady (x 0) (x 1) (x 2) (x 3) := by
  unfold Follows at hfirst hsecond
  unfold Near reported
  constructor
  · intro hnear
    have hzero := hnear 0 (by decide)
    have hone := hnear 1 (by decide)
    exact ⟨by omega, by omega⟩
  · rintro ⟨hzero, hone⟩ i hi
    obtain rfl | rfl | rfl | rfl : i = 0 ∨ i = 1 ∨ i = 2 ∨ i = 3 := by omega
    · omega
    · omega
    · omega
    · omega

/-- Four samples for each axis are near the reported values, if they are accepted, exactly if
    these inequalities hold. The filter sees the first two only through their sum. -/
theorem boundsSpread_iff (x y : ℕ → ℕ) : BoundsSpread x y ↔
    (Follows (x 0) (x 1) (x 2) → Follows (x 1) (x 2) (x 3) →
      Follows (y 0) (y 1) (y 2) → Follows (y 1) (y 2) (y 3) →
        Steady (x 0) (x 1) (x 2) (x 3) ∧ Steady (y 0) (y 1) (y 2) (y 3)) := by
  unfold BoundsSpread
  rw [s3cFilterTs_iff]
  constructor
  · intro hbounds hx hx' hy hy'
    obtain ⟨hnear, hnear'⟩ := hbounds ⟨⟨hx, hx'⟩, hy, hy'⟩
    exact ⟨(near_iff hx hx').mp hnear, (near_iff hy hy').mp hnear'⟩
  · rintro hsteady ⟨⟨hx, hx'⟩, hy, hy'⟩
    obtain ⟨hxs, hys⟩ := hsteady hx hx' hy hy'
    exact ⟨(near_iff hx hx').mpr hxs, (near_iff hy hy').mpr hys⟩

/-- Four samples of a pen that moves slowly. -/
theorem boundsSpread_slow :
    s3cFilterTs (fun i => 500 + 3 * i) (fun _ => 200) = true ∧
      BoundsSpread (fun i => 500 + 3 * i) fun _ => 200 := by
  refine ⟨by decide, (boundsSpread_iff _ _).mpr fun _ _ _ _ => ?_⟩
  exact ⟨⟨by decide, by decide⟩, by decide, by decide⟩

/-- The samples 0, 1000, 500 and 750 are accepted and reported as 562. -/
theorem not_boundsSpread :
    ¬ ∀ x y : ℕ → ℕ, (∀ i < 4, x i ≤ 1023) → (∀ i < 4, y i ≤ 1023) → BoundsSpread x y := by
  intro h
  have hspread := h (fun i => [0, 1000, 500, 750].getD i 0) (fun _ => 200) (by decide) (by decide)
  have hnear := (hspread (by decide)).1 0 (by decide)
  exact absurd hnear (by decide)

/-- A point that is the reported value of four accepted samples. -/
def Point.Filtered (p : Point) : Prop :=
  ∃ xy : ℕ → Sample, p.samples = [xy 0, xy 1, xy 2, xy 3] ∧
    s3cFilterTs (fun i => (xy i).x) (fun i => (xy i).y) = true ∧
    p.absX = reported (fun i => (xy i).x) ∧ p.absY = reported fun i => (xy i).y

theorem reportPoint_filtered {s : S3cTs} (h : ∀ p ∈ s.points, p.Filtered) :
    ∀ p ∈ (reportPoint s).points, p.Filtered := by
  unfold reportPoint
  split
  case isFalse => exact h
  case isTrue haccept =>
    refine List.forall_mem_append.mpr ⟨h, List.forall_mem_singleton.mpr ?_⟩
    exact ⟨s.xy, rfl, haccept, rfl, rfl⟩

theorem points_lookAtPen (adcdat0 : Word) (s : S3cTs) :
    (lookAtPen adcdat0 s).points = s.points := by
  unfold lookAtPen
  split <;> rfl

/-- In every run every point that was reported went through the filter. -/
theorem points_filtered {s : S3cTs} (hrun : Reach tsMove anyStep tsInit s) :
    ∀ p ∈ s.points, p.Filtered := by
  refine hrun.invariant (fun s => ∀ p ∈ s.points, p.Filtered)
    (fun p hp => absurd hp List.not_mem_nil) ?_
  intro s e s' h _ hstep
  obtain ⟨up, -, rfl⟩ | ⟨adcdat0, -, -, rfl⟩ | ⟨adcdat0, -, rfl⟩ | ⟨adcdat0, adcdat1, -, rfl⟩ :=
    tsMove_cases hstep
  · exact h
  · rwa [penDownUpIrq, points_lookAtPen]
  · rwa [s3cTsTimerFunction, points_lookAtPen]
  · unfold adcIrq
    split
    case isTrue => exact h
    case isFalse =>
      dsimp only
      split
      case isTrue => exact reportPoint_filtered h
      case isFalse => exact h

end Jz2440.LinuxTs
