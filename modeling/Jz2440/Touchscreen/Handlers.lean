import Jz2440.Common.Bytes
import Jz2440.Common.Runs

/-!
# The touch-screen interrupt handlers, statement by statement

Model of `AdcTsIntHandle` (with `Isr_Tc` and `Isr_Adc`) and of
`touchscreen_timer_irq` in `adc_touchscreen/touchscreen.c` of
`hard_driver/first_hard/025_sensors_022/007_irda_nec_ok_022_009`.

The handlers do not preempt each other, but the touch-screen hardware works on
while they run. The program counter `Pc` names the statement that comes next;
between any two statements a started conversion may complete, which sets
`SUBSRCPND` bit 10, and in a waiting-for-interrupt mode a pen edge may set bit 9.

Each step of a handler carries the values that `ADCDAT0` and `ADCDAT1` read at
that moment. Left out: `printf`, and the arrays `test_x_array` and
`test_y_array`, which only a debugging print reads.
-/

namespace Jz2440.Touchscreen

open Jz2440.Common

/-! ## Registers -/

/-- The value `enter_wait_pen_down_mode` writes to `ADCTSC` (touchscreen.c:45-48):
    `WAIT_PEN_DOWN | PULLUP_ENABLE | YM_ENABLE | YP_DISABLE | XP_DISABLE |
    XM_DISABLE | WAIT_INT_MODE`. -/
def waitPenDown : Word :=
  (0#32 <<< 8) ||| (0#32 <<< 3) ||| (1#32 <<< 7) ||| (1#32 <<< 6) ||| (1#32 <<< 4) |||
    (0#32 <<< 5) ||| 3#32

/-- The value `enter_wait_pen_up_mode` writes to `ADCTSC` (touchscreen.c:50-53). -/
def waitPenUp : Word :=
  (1#32 <<< 8) ||| (0#32 <<< 3) ||| (1#32 <<< 7) ||| (1#32 <<< 6) ||| (1#32 <<< 4) |||
    (0#32 <<< 5) ||| 3#32

/-- The value `enter_auto_measure_mode` writes to `ADCTSC` (touchscreen.c:55-58):
    `AUTO_PST | NO_OPR_MODE`. -/
def autoMeasure : Word := (1#32 <<< 2) ||| 0#32

/-- `is_in_auto_mode` (touchscreen.c:60-63): `ADCTSC & AUTO_PST`. -/
def isInAutoMode (adctsc : Word) : Prop := adctsc &&& (1#32 <<< 2) ≠ 0

/-- `ADCTSC` bits 1:0 are `WAIT_INT_MODE`: pen edges raise an interrupt. -/
def isWaiting (adctsc : Word) : Prop := adctsc &&& 3#32 = 3#32

/-- `ADCDAT0 & (1<<15)`: the pen is up. -/
def penUp (adcdat0 : Word) : Prop := adcdat0 &&& (1#32 <<< 15) ≠ 0

instance (w : Word) : Decidable (isInAutoMode w) := inferInstanceAs (Decidable (_ ≠ _))
instance (w : Word) : Decidable (isWaiting w) := inferInstanceAs (Decidable (_ = _))
instance (w : Word) : Decidable (penUp w) := inferInstanceAs (Decidable (_ ≠ _))

theorem isWaiting_waitPenDown : isWaiting waitPenDown := by decide
theorem isWaiting_waitPenUp : isWaiting waitPenUp := by decide
theorem not_isWaiting_autoMeasure : ¬ isWaiting autoMeasure := by decide

/-! ## State -/

/-- The statement that comes next. `idle`: no handler is running. -/
inductive Pc
  | idle
  -- `AdcTsIntHandle`
  | handleTc | handleAdc | clear
  -- `Isr_Tc`
  | tcTest | tcWaitPenDown | tcReport | tcAuto | tcStart
  -- `Isr_Adc`
  | adcReadX | adcReadY | adcWaitPenUp | adcTest | adcAccumulate | adcCount | adcAverage
  | adcReset | adcWaitAgain | adcTimerEnable | adcAuto | adcStart
  | upReset | upTimerDisable | upWaitPenDown | upReport
  -- `touchscreen_timer_irq`
  | timerStatus | timerAuto | timerTest | timerDisable | timerWaitPenDown | timerReport
  | timerEnterAuto | timerStart
  deriving DecidableEq

/-- The reading for the main program: `g_ts_x`, `g_ts_y`, `g_ts_pressure`,
    `g_ts_data_valid`. -/
structure TsData where
  x : ℕ
  y : ℕ
  pressure : ℕ
  valid : Bool
  deriving DecidableEq

/-- `report_ts_xy` (touchscreen.c:103-114): dropped while the last reading has
    not been taken. -/
def reportTsXy (x y pressure : ℕ) (d : TsData) : TsData :=
  if d.valid = false then ⟨x, y, pressure, true⟩ else d

/-- The hardware (`ADCTSC`, bits 9 and 10 of `SUBSRCPND`, whether a conversion
    is in progress) and the variables of the driver. -/
structure TsState where
  adctsc : Word
  tcPnd : Bool
  adcPnd : Bool
  converting : Bool
  timerEnable : Bool
  adcCnt : ℕ
  adcX : ℕ
  adcY : ℕ
  x : Word
  y : Word
  data : TsData
  pc : Pc
  deriving DecidableEq

/-- After `touchscreen_init`. -/
def tsInit : TsState :=
  { adctsc := waitPenDown, tcPnd := false, adcPnd := false, converting := false,
    timerEnable := false, adcCnt := 0, adcX := 0, adcY := 0, x := 0, y := 0,
    data := ⟨0, 0, 0, false⟩, pc := .idle }

/-! ## Statements -/

/-- The next statement of the running handler; `adcdat0` and `adcdat1` are the
    values of the data registers. -/
def stmt (adcdat0 adcdat1 : Word) (s : TsState) : TsState :=
  match s.pc with
  | .idle => s
  -- AdcTsIntHandle (touchscreen.c:235-243)
  | .handleTc => { s with pc := if s.tcPnd then .tcTest else .handleAdc }
  | .handleAdc => { s with pc := if s.adcPnd then .adcReadX else .clear }
  | .clear => { s with tcPnd := false, adcPnd := false, pc := .idle }
  -- Isr_Tc (touchscreen.c:65-86)
  | .tcTest => { s with pc := if penUp adcdat0 then .tcWaitPenDown else .tcAuto }
  | .tcWaitPenDown => { s with adctsc := waitPenDown, pc := .tcReport }
  | .tcReport => { s with data := reportTsXy 0 0 0 s.data, pc := .handleAdc }
  | .tcAuto => { s with adctsc := autoMeasure, pc := .tcStart }
  | .tcStart => { s with converting := true, pc := .handleAdc }
  -- Isr_Adc (touchscreen.c:157-233)
  | .adcReadX => { s with x := adcdat0, pc := .adcReadY }
  | .adcReadY => { s with y := adcdat1, pc := .adcWaitPenUp }
  | .adcWaitPenUp => { s with adctsc := waitPenUp, pc := .adcTest }
  | .adcTest => { s with pc := if penUp adcdat0 then .upReset else .adcAccumulate }
  | .adcAccumulate =>
    { s with
      adcX := s.adcX + (s.x &&& 0x3ff#32).toNat
      adcY := s.adcY + (s.y &&& 0x3ff#32).toNat
      adcCnt := s.adcCnt + 1
      pc := .adcCount }
  | .adcCount => { s with pc := if s.adcCnt = 16 then .adcAverage else .adcAuto }
  | .adcAverage =>
    { s with
      adcX := s.adcX >>> 4
      adcY := s.adcY >>> 4
      data := reportTsXy (s.adcX >>> 4) (s.adcY >>> 4) 1 s.data
      pc := .adcReset }
  | .adcReset => { s with adcCnt := 0, adcX := 0, adcY := 0, pc := .adcWaitAgain }
  | .adcWaitAgain => { s with adctsc := waitPenUp, pc := .adcTimerEnable }
  | .adcTimerEnable => { s with timerEnable := true, pc := .clear }
  | .adcAuto => { s with adctsc := autoMeasure, pc := .adcStart }
  | .adcStart => { s with converting := true, pc := .clear }
  | .upReset => { s with adcCnt := 0, adcX := 0, adcY := 0, pc := .upTimerDisable }
  | .upTimerDisable => { s with timerEnable := false, pc := .upWaitPenDown }
  | .upWaitPenDown => { s with adctsc := waitPenDown, pc := .upReport }
  | .upReport => { s with data := reportTsXy 0 0 0 s.data, pc := .clear }
  -- touchscreen_timer_irq (touchscreen.c:128-155)
  | .timerStatus => { s with pc := if s.timerEnable then .timerAuto else .idle }
  | .timerAuto => { s with pc := if isInAutoMode s.adctsc then .idle else .timerTest }
  | .timerTest => { s with pc := if penUp adcdat0 then .timerDisable else .timerEnterAuto }
  | .timerDisable => { s with timerEnable := false, pc := .timerWaitPenDown }
  | .timerWaitPenDown => { s with adctsc := waitPenDown, pc := .timerReport }
  | .timerReport => { s with data := reportTsXy 0 0 0 s.data, pc := .idle }
  | .timerEnterAuto => { s with adctsc := autoMeasure, pc := .timerStart }
  | .timerStart => { s with converting := true, pc := .idle }

/-- Who moves: an interrupt or the 10 ms timer starts a handler, the running
    handler executes a statement, or the hardware moves. -/
inductive TsEvent
  | irq
  | timer
  | stmt (adcdat0 adcdat1 : Word)
  | convDone
  | penEdge
  deriving DecidableEq

/-- One step. -/
def tsStep (s : TsState) : TsEvent → Option TsState
  | .irq =>
    if s.pc = .idle ∧ (s.tcPnd ∨ s.adcPnd) then some { s with pc := .handleTc } else none
  | .timer => if s.pc = .idle then some { s with pc := .timerStatus } else none
  | .stmt adcdat0 adcdat1 => if s.pc = .idle then none else some (stmt adcdat0 adcdat1 s)
  | .convDone =>
    if s.converting then some { s with converting := false, adcPnd := true } else none
  | .penEdge => if isWaiting s.adctsc then some { s with tcPnd := true } else none

/-- All that a step can do. -/
theorem tsStep_cases {s s' : TsState} {e : TsEvent} (h : tsStep s e = some s') :
    (e = .irq ∧ (s.pc = .idle ∧ (s.tcPnd = true ∨ s.adcPnd = true)) ∧
      s' = { s with pc := .handleTc }) ∨
    (e = .timer ∧ s.pc = .idle ∧ s' = { s with pc := .timerStatus }) ∨
    (∃ adcdat0 adcdat1, e = .stmt adcdat0 adcdat1 ∧ s.pc ≠ .idle ∧
      s' = stmt adcdat0 adcdat1 s) ∨
    (e = .convDone ∧ s.converting = true ∧ s' = { s with converting := false, adcPnd := true }) ∨
    (e = .penEdge ∧ isWaiting s.adctsc ∧ s' = { s with tcPnd := true }) := by
  cases e with
  | irq =>
    obtain ⟨hirq, h⟩ := Option.ite_none_right_eq_some.mp h
    exact .inl ⟨rfl, hirq, (Option.some.inj h).symm⟩
  | timer =>
    obtain ⟨hpc, h⟩ := Option.ite_none_right_eq_some.mp h
    exact .inr (.inl ⟨rfl, hpc, (Option.some.inj h).symm⟩)
  | stmt adcdat0 adcdat1 =>
    obtain ⟨hpc, h⟩ := Option.ite_none_left_eq_some.mp h
    exact .inr (.inr (.inl ⟨adcdat0, adcdat1, rfl, hpc, (Option.some.inj h).symm⟩))
  | convDone =>
    obtain ⟨hconv, h⟩ := Option.ite_none_right_eq_some.mp h
    exact .inr (.inr (.inr (.inl ⟨rfl, hconv, (Option.some.inj h).symm⟩)))
  | penEdge =>
    obtain ⟨hwait, h⟩ := Option.ite_none_right_eq_some.mp h
    exact .inr (.inr (.inr (.inr ⟨rfl, hwait, (Option.some.inj h).symm⟩)))

end Jz2440.Touchscreen
