import Jz2440.Touchscreen.Handlers

/-!
# Can the touch-screen driver get stuck?

The driver goes on only when something wakes it: a pen edge in a waiting mode,
the end of a conversion, or an interrupt that is already pending. It is stuck
in the automatic measuring mode with no conversion in progress and nothing
pending, since `touchscreen_timer_irq` leaves that mode alone.

`AdcTsIntHandle` clears both pending bits at its end, whatever it has tested
before. A conversion that the handler has just started and that completes before
the clear is lost.

* `not_stuck`: if no conversion completes in automatic mode while only the clear
  is left to do, then the driver is never stuck.
* `stuck_of_late_completion`: each such completion does get it stuck, and
  `stuck_forever`: it then stays stuck.
-/

namespace Jz2440.Touchscreen

open Jz2440.Common

/-- Something will wake the driver. -/
def Awake (s : TsState) : Prop :=
  isWaiting s.adctsc ∨ s.converting = true ∨ s.tcPnd = true ∨ s.adcPnd = true

/-- The driver is not stuck: whenever no handler runs, something will wake it. -/
def NotStuck (s : TsState) : Prop := s.pc = .idle → Awake s

/-- The condition on the steps: a conversion does not complete in automatic mode
    while `AdcTsIntHandle` has only its clear of `SUBSRCPND` left to do. -/
def TsOk (s : TsState) : TsEvent → Prop
  | .convDone => s.pc = .clear → isWaiting s.adctsc
  | _ => True

instance (s : TsState) : (e : TsEvent) → Decidable (TsOk s e)
  | .convDone => inferInstanceAs (Decidable (_ → _))
  | .irq | .timer | .stmt _ _ | .penEdge => inferInstanceAs (Decidable True)

/-! ## The invariant -/

/-- What each statement can rely on: before the clear, a wake-up that the clear
    does not take away; after entering a waiting mode, that mode. -/
def WakeInv (s : TsState) : Prop :=
  match s.pc with
  | .idle | .handleTc | .timerStatus | .timerAuto => Awake s
  | .handleAdc => isWaiting s.adctsc ∨ s.converting = true ∨ s.adcPnd = true
  | .clear => isWaiting s.adctsc ∨ s.converting = true
  | .tcReport | .adcTimerEnable | .upReport | .timerReport => isWaiting s.adctsc
  | _ => True

theorem WakeInv.notStuck {s : TsState} (h : WakeInv s) : NotStuck s := by
  intro hpc
  simpa [WakeInv, hpc] using h

/-- Every statement of the handlers keeps the invariant. -/
theorem WakeInv.stmt {s : TsState} (h : WakeInv s) (adcdat0 adcdat1 : Word) :
    WakeInv (stmt adcdat0 adcdat1 s) := by
  cases hpc : s.pc with
  | handleTc =>
    -- the test of bit 9 fails: one of the other three reasons to wake remains
    simp only [WakeInv, hpc, Awake] at h
    cases htc : s.tcPnd <;> simp_all [Touchscreen.stmt, WakeInv]
  | handleAdc =>
    simp only [WakeInv, hpc] at h
    cases hadc : s.adcPnd <;> simp_all [Touchscreen.stmt, WakeInv]
  | clear =>
    simp only [WakeInv, hpc] at h
    simp only [Touchscreen.stmt, hpc, WakeInv, Awake]
    tauto
  | timerStatus =>
    simp only [WakeInv, hpc, Awake] at h
    cases ht : s.timerEnable <;> simp_all [Touchscreen.stmt, WakeInv, Awake]
  | timerAuto =>
    simp only [WakeInv, hpc, Awake] at h
    by_cases ha : isInAutoMode s.adctsc <;> simp_all [Touchscreen.stmt, WakeInv, Awake]
  | tcTest | adcTest | timerTest =>
    by_cases hup : penUp adcdat0 <;> simp [Touchscreen.stmt, WakeInv, hpc, hup]
  | adcCount =>
    by_cases hcnt : s.adcCnt = 16 <;> simp [Touchscreen.stmt, WakeInv, hpc, hcnt]
  | _ =>
    simp_all [Touchscreen.stmt, WakeInv, Awake, isWaiting_waitPenDown, isWaiting_waitPenUp]

/-- Every step that meets the condition keeps the invariant. -/
theorem WakeInv.step {s s' : TsState} {e : TsEvent} (h : WakeInv s) (hok : TsOk s e)
    (hstep : tsStep s e = some s') : WakeInv s' := by
  obtain ⟨rfl, ⟨hpc, -⟩, rfl⟩ | ⟨rfl, hpc, rfl⟩ | ⟨adcdat0, adcdat1, rfl, -, rfl⟩ |
    ⟨rfl, -, rfl⟩ | ⟨rfl, -, rfl⟩ := tsStep_cases hstep
  · exact h.notStuck hpc
  · exact h.notStuck hpc
  · exact h.stmt adcdat0 adcdat1
  · -- the completion turns "converting" into "bit 10 set"; at the clear only a
    -- waiting mode is left, which is the condition
    cases hpc : s.pc with
    | clear => simpa [WakeInv, hpc] using hok hpc
    | _ => simp_all [WakeInv, Awake]
  · cases hpc : s.pc <;> simp_all [WakeInv, Awake]

theorem wakeInv_init : WakeInv tsInit := Or.inl isWaiting_waitPenDown

/-! ## Whole runs -/

/-- In every run in which no conversion completes in automatic mode while
    `AdcTsIntHandle` has only its clear left to do, the driver is never stuck. -/
theorem not_stuck (s : TsState) (hrun : Reach tsStep TsOk tsInit s) : NotStuck s :=
  (Reach.invariant WakeInv wakeInv_init (fun _ _ _ ht hok hstep => ht.step hok hstep) hrun).notStuck

/-- A touch whose first conversion completes after the handler has returned. -/
def normalTouch : List TsEvent :=
  [.penEdge, .irq, .stmt 0 0, .stmt 0 0, .stmt 0 0, .stmt 0 0, .stmt 0 0, .stmt 0 0, .convDone]

theorem not_stuck_normalTouch :
    ∃ s, exec tsStep tsInit normalTouch = some s ∧ s.pc = .idle ∧ NotStuck s := by
  have hpc : (exec (guarded tsStep TsOk) tsInit normalTouch).map TsState.pc = some .idle := by
    decide
  obtain ⟨s, hs, hpc⟩ := Option.map_eq_some_iff.mp hpc
  exact ⟨s, exec_of_guarded hs, hpc, not_stuck s (.of_exec_guarded hs)⟩

/-- The same touch, but the conversion completes just before the clear. -/
def lateCompletion : List TsEvent :=
  [.penEdge, .irq, .stmt 0 0, .stmt 0 0, .stmt 0 0, .stmt 0 0, .stmt 0 0, .convDone, .stmt 0 0]

/-- The driver can get stuck. -/
theorem stuck_after_lateCompletion :
    ¬ ∀ s, Reach tsStep anyStep tsInit s → NotStuck s := by
  intro h
  have hrun : exec tsStep tsInit lateCompletion =
      some { tsInit with adctsc := autoMeasure, pc := .idle } := by decide
  rcases h _ (.of_exec hrun) rfl with hw | hc | ht | ha
  · exact absurd hw (by decide)
  · exact absurd hc (by decide)
  · exact absurd ht (by decide)
  · exact absurd ha (by decide)

/-! ## The condition is exact -/

/-- A completion in automatic mode just before the clear gets the driver stuck. -/
theorem stuck_of_late_completion {s : TsState} (hpc : s.pc = .clear)
    (hauto : ¬ isWaiting s.adctsc) (hconv : s.converting = true) (adcdat0 adcdat1 : Word) :
    ∃ s', exec tsStep s [.convDone, .stmt adcdat0 adcdat1] = some s' ∧ ¬ NotStuck s' := by
  refine ⟨{ s with converting := false, tcPnd := false, adcPnd := false, pc := .idle }, ?_, ?_⟩
  · simp [exec, tsStep, stmt, hconv, hpc]
  · intro h
    rcases h rfl with hw | hc | ht | ha
    · exact hauto hw
    · cases hc
    · cases ht
    · cases ha

/-- Stuck: automatic mode, nothing in progress and nothing pending; at most the
    timer handler runs, up to its test of the mode. -/
structure Stuck (s : TsState) : Prop where
  auto : s.adctsc = autoMeasure
  converting : s.converting = false
  tcPnd : s.tcPnd = false
  adcPnd : s.adcPnd = false
  pc : s.pc = .idle ∨ s.pc = .timerStatus ∨ s.pc = .timerAuto

theorem Stuck.step {s s' : TsState} {e : TsEvent} (h : Stuck s) (hstep : tsStep s e = some s') :
    Stuck s' := by
  obtain ⟨-, ⟨-, hirq⟩, -⟩ | ⟨-, -, rfl⟩ | ⟨adcdat0, adcdat1, -, hidle, rfl⟩ |
    ⟨-, hconv, -⟩ | ⟨-, hwait, -⟩ := tsStep_cases hstep
  · simp [h.tcPnd, h.adcPnd] at hirq
  · exact ⟨h.auto, h.converting, h.tcPnd, h.adcPnd, Or.inr (Or.inl rfl)⟩
  · rcases h.pc with hpc | hpc | hpc
    · exact absurd hpc hidle
    · simp only [stmt, hpc]
      refine ⟨h.auto, h.converting, h.tcPnd, h.adcPnd, ?_⟩
      cases s.timerEnable <;> simp
    · -- the timer handler returns: the mode is still automatic
      have hauto : isInAutoMode s.adctsc := by rw [h.auto]; decide
      simp only [stmt, hpc, if_pos hauto]
      exact ⟨h.auto, h.converting, h.tcPnd, h.adcPnd, Or.inl rfl⟩
  · simp [h.converting] at hconv
  · rw [h.auto] at hwait
    exact absurd hwait not_isWaiting_autoMeasure

/-- Nothing wakes a stuck driver. -/
theorem stuck_forever {s s' : TsState} (h : Stuck s) (hrun : Reach tsStep anyStep s s') :
    Stuck s' :=
  Reach.invariant Stuck h (fun _ _ _ ht _ hstep => ht.step hstep) hrun

end Jz2440.Touchscreen
