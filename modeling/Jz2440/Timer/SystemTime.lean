import Jz2440.Common.Runs

/-!
# The system time

Model of `get_system_time_us`, `delta_time_us` and `timer_irq` (timer.c) and of
`irda_irq` (sensors/irda/irda_raw.c) in
`hard_driver/first_hard/025_sensors_022/007_irda_nec_ok_022_009`.

The time is put together from the free-running counter `TCNTO0` and the tick
count `g_system_time_10ms_cnt`. The counter runs from 50000 down to 0 and
reloads; the reload latches a timer-0 request, and `timer_irq` increments the
count when that request is served. Handlers do not nest, so another handler
such as `irda_irq` may run between the reload and the service.

A call of `get_system_time_us` is two steps: it reads `TCNTO0`, and later the
count. Between them the counter runs on, and a call from main code can be
interrupted.

`irda_raw.c` calls the function without a declaration. A caller there takes the
result for an `int` and extends its low word by the sign (`implicitInt`).

* `time_monotone`: if `TCNTO0` is never read while a timer-0 request is pending,
  no tick is counted between the two reads of a call, and the time stays below
  `2^32` microseconds, then successive calls return non-decreasing values, and
  their callers see them so.
* `time_runs_backwards`: without that condition they do not.
-/

namespace Jz2440.Timer

open Jz2440.Common

/-- `us = (50000 - TCNTO0)/5` (timer.c:131); `TCNTO0` is at most 50000. -/
def sampleUs (tcnto : ℕ) : ℕ := (50000 - tcnto) / 5

/-- `g_system_time_10ms_cnt * 10 * 1000 + us` in `unsigned long long`
    (timer.c:132). -/
def systemTimeUs (cnt us : ℕ) : ℕ := (cnt * 10 * 1000 + us) % 2 ^ 64

/-- `delta_time_us` (timer.c:135-138): the 64-bit difference, cut to an
    `unsigned int`. -/
def deltaTimeUs (pre now : ℕ) : ℕ := (now + 2 ^ 64 - pre) % 2 ^ 64 % 2 ^ 32

/-- What a caller in irda_raw.c makes of the result of a function that is not
    declared: the low word is an `int`, and it is converted to
    `unsigned long long`. -/
def implicitInt (v : ℕ) : ℕ := ((BitVec.ofNat 32 v).signExtend 64).toNat

/-- A call of `get_system_time_us` that has read `TCNTO0`. `seen` lists the
    values that earlier calls had returned when it began. -/
structure Sampled where
  us : ℕ
  seen : List ℕ
  deriving DecidableEq

/-- A call that has returned. -/
structure Call where
  value : ℕ
  seen : List ℕ
  deriving DecidableEq

/-- A pulse measured by `irda_irq`: `g_last_time`, `cur` and the result of
    `delta_time_us`, which is stored in `event.duration`. -/
structure Pulse where
  pre : ℕ
  cur : ℕ
  duration : ℕ
  deriving DecidableEq

/-- The timer hardware, the variables of `timer.c` and `irda_raw.c`, the calls in
    progress in main code and in `irda_irq`, and the history. -/
structure TimerState where
  tcnto : ℕ
  pending : Bool
  cnt : ℕ
  lastTime : ℕ
  main : Option Sampled
  irda : Option Sampled
  calls : List Call
  pulses : List Pulse
  deriving DecidableEq

/-- After `timer_init`. -/
def timerInit : TimerState := ⟨50000, false, 0, 0, none, none, [], []⟩

/-- Who moves: the counter, the service of a timer-0 request, main code inside
    `get_system_time_us`, or `irda_irq`. -/
inductive TimerEvent
  | tick
  | reload
  | timerIrq
  | mainSample
  | mainReturn
  | irdaSample
  | irdaReturn
  deriving DecidableEq

/-- The first statement of `get_system_time_us`. -/
def sampleCall (s : TimerState) : Sampled := ⟨sampleUs s.tcnto, s.calls.map Call.value⟩

/-- The return of a call: its second statement reads the count. -/
def returnCall (s : TimerState) (c : Sampled) : Call := ⟨systemTimeUs s.cnt c.us, c.seen⟩

/-- One step. A handler runs to its end before another one or main code goes
    on: while `irda_irq` is inside its call, only the hardware moves. -/
def timerStep (s : TimerState) : TimerEvent → Option TimerState
  | .tick => if 0 < s.tcnto then some { s with tcnto := s.tcnto - 1 } else none
  | .reload => if s.tcnto = 0 then some { s with tcnto := 50000, pending := true } else none
  | .timerIrq =>
    if s.pending ∧ s.irda = none then
      some { s with cnt := (s.cnt + 1) % 2 ^ 64, pending := false }
    else none
  | .mainSample =>
    if s.main = none ∧ s.irda = none then some { s with main := some (sampleCall s) } else none
  | .mainReturn =>
    match s.main, s.irda with
    | some c, none => some { s with main := none, calls := s.calls ++ [returnCall s c] }
    | _, _ => none
  | .irdaSample => if s.irda = none then some { s with irda := some (sampleCall s) } else none
  | .irdaReturn =>
    match s.irda with
    | some c =>
      let cur := implicitInt (returnCall s c).value
      some { s with
        irda := none
        lastTime := cur
        calls := s.calls ++ [returnCall s c]
        pulses := s.pulses ++ [⟨s.lastTime, cur, deltaTimeUs s.lastTime cur⟩] }
    | none => none

/-- Each call returned at least what every call before it had returned, its
    caller saw at least what the callers before had seen, and every duration of
    `irda_irq` is the difference of a time and an earlier one. -/
def TimeMonotone (s : TimerState) : Prop :=
  (∀ c ∈ s.calls, ∀ v ∈ c.seen, v ≤ c.value ∧ implicitInt v ≤ implicitInt c.value) ∧
    ∀ p ∈ s.pulses, p.pre ≤ p.cur ∧ p.duration = (p.cur - p.pre) % 2 ^ 32

/-- The condition on the steps: `TCNTO0` is read only while no timer-0 request is
    pending, a tick is counted only while no call in main code is between its
    two reads, and the time in microseconds stays below `2^32`. -/
def TimerOk (s : TimerState) : TimerEvent → Prop
  | .mainSample => s.pending = false
  | .irdaSample => s.pending = false
  | .timerIrq => s.main = none ∧ (s.cnt + 2) * 10000 < 2 ^ 32
  | _ => True

instance (s : TimerState) : (e : TimerEvent) → Decidable (TimerOk s e)
  | .mainSample => inferInstanceAs (Decidable (_ = _))
  | .irdaSample => inferInstanceAs (Decidable (_ = _))
  | .timerIrq => inferInstanceAs (Decidable (_ ∧ _))
  | .tick | .reload | .mainReturn | .irdaReturn => inferInstanceAs (Decidable True)

/-! ## What the callers see -/

theorem implicitInt_eq {v : ℕ} (hv : v < 2 ^ 32) :
    implicitInt v = if v < 2 ^ 31 then v else v + (2 ^ 64 - 2 ^ 32) := by
  have hlow : (BitVec.ofNat 32 v).toNat = v := by
    rw [BitVec.toNat_ofNat, Nat.mod_eq_of_lt hv]
  have hmsb : (BitVec.ofNat 32 v).msb = decide (2 ^ 31 ≤ v) := by
    rw [BitVec.msb_eq_decide, hlow]
  rw [implicitInt, BitVec.toNat_signExtend, BitVec.toNat_setWidth, hlow, hmsb]
  split_ifs with hneg hsmall hsmall <;> simp only [decide_eq_true_eq] at hneg <;> omega

theorem implicitInt_le_implicitInt {v w : ℕ} (h : v ≤ w) (hw : w < 2 ^ 32) :
    implicitInt v ≤ implicitInt w := by
  rw [implicitInt_eq (h.trans_lt hw), implicitInt_eq hw]
  split_ifs <;> omega

theorem implicitInt_lt (v : ℕ) : implicitInt v < 2 ^ 64 := BitVec.isLt _

/-! ## The invariant -/

/-- The latest time that a call could return now: the reload of a pending
    request has not been counted, but the full 10 ms before it have passed. -/
def latest (s : TimerState) : ℕ :=
  s.cnt * 10000 + if s.pending then 10000 else sampleUs s.tcnto

/-- A call in progress will return the time at which it read `TCNTO0`: not
    before what it has seen, not after now. -/
def SampleOk (s : TimerState) (c : Sampled) : Prop :=
  c.us ≤ 10000 ∧ s.cnt * 10000 + c.us ≤ latest s ∧ ∀ v ∈ c.seen, v ≤ s.cnt * 10000 + c.us

/-- `g_last_time` is how `irda_irq` saw a time that was not after `now`. -/
def LastBefore (s : TimerState) (now : ℕ) : Prop := ∃ t ≤ now, s.lastTime = implicitInt t

structure TimeInv (s : TimerState) : Prop where
  tcnto : s.tcnto ≤ 50000
  cnt : (s.cnt + 1) * 10000 < 2 ^ 32
  monotone : TimeMonotone s
  calls : ∀ c ∈ s.calls, c.value ≤ latest s
  last : LastBefore s (latest s)
  main : ∀ c, s.main = some c → SampleOk s c
  irda : ∀ c, s.irda = some c → SampleOk s c ∧ LastBefore s (s.cnt * 10000 + c.us)

theorem sampleUs_le (tcnto : ℕ) : sampleUs tcnto ≤ 10000 := by
  unfold sampleUs
  omega

/-- Hardware steps and `timer_irq` only move the latest time forward. -/
theorem TimeInv.advance {s s' : TimerState} (h : TimeInv s) (htcnto : s'.tcnto ≤ 50000)
    (hcnt : (s'.cnt + 1) * 10000 < 2 ^ 32) (hlatest : latest s ≤ latest s')
    (hmain : ∀ c, s'.main = some c → s.main = some c ∧ s'.cnt = s.cnt)
    (hirda : ∀ c, s'.irda = some c → s.irda = some c ∧ s'.cnt = s.cnt)
    (hlast : s'.lastTime = s.lastTime) (hcalls : s'.calls = s.calls)
    (hpulses : s'.pulses = s.pulses) : TimeInv s' := by
  have hsample : ∀ c, SampleOk s c → s'.cnt = s.cnt → SampleOk s' c := by
    intro c hc heq
    exact ⟨hc.1, by rw [heq]; exact hc.2.1.trans hlatest, by rw [heq]; exact hc.2.2⟩
  refine ⟨htcnto, hcnt, ?_, ?_, ?_, ?_, ?_⟩
  · unfold TimeMonotone
    rw [hcalls, hpulses]
    exact h.monotone
  · rw [hcalls]
    exact fun c hc => (h.calls c hc).trans hlatest
  · obtain ⟨t, ht, heq⟩ := h.last
    exact ⟨t, ht.trans hlatest, hlast.trans heq⟩
  · intro c hc
    obtain ⟨hc, heq⟩ := hmain c hc
    exact hsample c (h.main c hc) heq
  · intro c hc
    obtain ⟨hc, heq⟩ := hirda c hc
    obtain ⟨hok, t, ht, hseen⟩ := h.irda c hc
    refine ⟨hsample c hok heq, t, ?_, hlast.trans hseen⟩
    rw [heq]
    exact ht

/-- A call that reads `TCNTO0` while no request is pending samples the latest
    time. -/
theorem TimeInv.sampleOk {s : TimerState} (h : TimeInv s) (hpend : s.pending = false) :
    SampleOk s (sampleCall s) ∧ s.cnt * 10000 + (sampleCall s).us = latest s := by
  have hnow : s.cnt * 10000 + (sampleCall s).us = latest s := by
    simp [sampleCall, latest, hpend]
  refine ⟨⟨sampleUs_le _, hnow.le, ?_⟩, hnow⟩
  intro v hv
  simp only [sampleCall, List.mem_map] at hv
  obtain ⟨c, hc, rfl⟩ := hv
  rw [hnow]
  exact h.calls c hc

/-- The time stays in the range in which the callers see its order. -/
theorem TimeInv.latest_lt {s : TimerState} (h : TimeInv s) : latest s < 2 ^ 32 := by
  have hcnt := h.cnt
  have hus := sampleUs_le s.tcnto
  unfold latest
  split_ifs <;> omega

/-- The value of a call in progress does not wrap. -/
theorem TimeInv.returnCall_value {s : TimerState} (h : TimeInv s) {c : Sampled}
    (hc : SampleOk s c) : (returnCall s c).value = s.cnt * 10000 + c.us := by
  have hcnt := h.cnt
  have hus := hc.1
  simp only [returnCall, systemTimeUs]
  rw [Nat.mod_eq_of_lt (by omega)]
  ring

theorem deltaTimeUs_of_le {pre now : ℕ} (h : pre ≤ now) (hnow : now < 2 ^ 64) :
    deltaTimeUs pre now = (now - pre) % 2 ^ 32 := by
  unfold deltaTimeUs
  rw [show now + 2 ^ 64 - pre = now - pre + 2 ^ 64 by omega, Nat.add_mod_right,
    Nat.mod_eq_of_lt (show now - pre < 2 ^ 64 by omega)]

/-- The return of a call keeps the order of the history. -/
theorem TimeInv.calls_append {s : TimerState} (h : TimeInv s) {c : Sampled} (hc : SampleOk s c) :
    (∀ d ∈ s.calls ++ [returnCall s c], ∀ v ∈ d.seen,
        v ≤ d.value ∧ implicitInt v ≤ implicitInt d.value) ∧
      ∀ d ∈ s.calls ++ [returnCall s c], d.value ≤ latest s := by
  have hvalue := h.returnCall_value hc
  constructor
  · intro d hd v hv
    rcases List.mem_append.mp hd with hd | hd
    · exact h.monotone.1 d hd v hv
    · obtain rfl := List.mem_singleton.mp hd
      have hle := hc.2.2 v hv
      rw [hvalue]
      exact ⟨hle, implicitInt_le_implicitInt hle (hc.2.1.trans_lt h.latest_lt)⟩
  · intro d hd
    rcases List.mem_append.mp hd with hd | hd
    · exact h.calls d hd
    · obtain rfl := List.mem_singleton.mp hd
      rw [hvalue]
      exact hc.2.1

/-- The time that `irda_irq` stores is not before the one stored last, and the duration is their
    difference. -/
theorem TimeInv.duration {s : TimerState} (h : TimeInv s) {c : Sampled} (hirda : s.irda = some c) :
    s.lastTime ≤ implicitInt (returnCall s c).value ∧
      deltaTimeUs s.lastTime (implicitInt (returnCall s c).value) =
        (implicitInt (returnCall s c).value - s.lastTime) % 2 ^ 32 := by
  obtain ⟨hc, t, ht, hlast⟩ := h.irda c hirda
  have hle : s.lastTime ≤ implicitInt (returnCall s c).value := by
    rw [hlast, h.returnCall_value hc]
    exact implicitInt_le_implicitInt ht (hc.2.1.trans_lt h.latest_lt)
  exact ⟨hle, deltaTimeUs_of_le hle (implicitInt_lt _)⟩

/-! ## The steps -/

section Step

variable {s s' : TimerState}

theorem TimeInv.tick (h : TimeInv s) (hstep : timerStep s .tick = some s') : TimeInv s' := by
  have htcnto := h.tcnto
  simp only [timerStep, Option.ite_none_right_eq_some, Option.some.injEq] at hstep
  obtain ⟨hpos, rfl⟩ := hstep
  refine h.advance (by simp only; omega) h.cnt ?_ (fun c hc => ⟨hc, rfl⟩) (fun c hc => ⟨hc, rfl⟩)
    rfl rfl rfl
  simp only [latest, sampleUs]
  split_ifs <;> omega

theorem TimeInv.reload (h : TimeInv s) (hstep : timerStep s .reload = some s') : TimeInv s' := by
  simp only [timerStep, Option.ite_none_right_eq_some, Option.some.injEq] at hstep
  obtain ⟨hzero, rfl⟩ := hstep
  refine h.advance le_rfl h.cnt ?_ (fun c hc => ⟨hc, rfl⟩) (fun c hc => ⟨hc, rfl⟩) rfl rfl rfl
  simp only [latest, sampleUs, hzero]
  split_ifs <;> omega

theorem TimeInv.timerIrq (h : TimeInv s) (hok : TimerOk s .timerIrq)
    (hstep : timerStep s .timerIrq = some s') : TimeInv s' := by
  simp only [timerStep, Option.ite_none_right_eq_some, Option.some.injEq] at hstep
  obtain ⟨⟨hpend, hirda⟩, rfl⟩ := hstep
  obtain ⟨hmain, hbound⟩ := hok
  -- the tick is counted: the 10 ms of the pending request move into the count
  have hcnt : (s.cnt + 1) % 2 ^ 64 = s.cnt + 1 := Nat.mod_eq_of_lt (by omega)
  refine h.advance h.tcnto (by simp only [hcnt]; omega) ?_ (fun c hc => ?_) (fun c hc => ?_)
    rfl rfl rfl
  · simp only [latest, hpend, hcnt, if_true]
    omega
  · simp [hmain] at hc
  · simp [hirda] at hc

theorem TimeInv.mainSample (h : TimeInv s) (hpend : s.pending = false)
    (hstep : timerStep s .mainSample = some s') : TimeInv s' := by
  simp only [timerStep, Option.ite_none_right_eq_some, Option.some.injEq] at hstep
  obtain ⟨-, rfl⟩ := hstep
  refine ⟨h.tcnto, h.cnt, h.monotone, h.calls, h.last, ?_, h.irda⟩
  intro c hc
  obtain rfl := Option.some.inj hc
  exact (h.sampleOk hpend).1

theorem TimeInv.irdaSample (h : TimeInv s) (hpend : s.pending = false)
    (hstep : timerStep s .irdaSample = some s') : TimeInv s' := by
  simp only [timerStep, Option.ite_none_right_eq_some, Option.some.injEq] at hstep
  obtain ⟨-, rfl⟩ := hstep
  refine ⟨h.tcnto, h.cnt, h.monotone, h.calls, h.last, h.main, ?_⟩
  intro c hc
  obtain rfl := Option.some.inj hc
  obtain ⟨hsample, hnow⟩ := h.sampleOk hpend
  obtain ⟨t, ht, hlast⟩ := h.last
  exact ⟨hsample, t, ht.trans hnow.ge, hlast⟩

theorem TimeInv.mainReturn (h : TimeInv s) (hstep : timerStep s .mainReturn = some s') :
    TimeInv s' := by
  simp only [timerStep] at hstep
  split at hstep
  case h_1 c hmain hirda =>
    obtain rfl := Option.some.inj hstep
    have hcalls := h.calls_append (h.main c hmain)
    exact ⟨h.tcnto, h.cnt, ⟨hcalls.1, h.monotone.2⟩, hcalls.2, h.last, by simp, h.irda⟩
  case h_2 => cases hstep

theorem TimeInv.irdaReturn (h : TimeInv s) (hstep : timerStep s .irdaReturn = some s') :
    TimeInv s' := by
  simp only [timerStep] at hstep
  split at hstep
  case h_1 c hirda =>
    obtain rfl := Option.some.inj hstep
    have hcalls := h.calls_append (h.irda c hirda).1
    have hvalue := hcalls.2 (returnCall s c) (List.mem_append_right _ (List.mem_singleton_self _))
    refine ⟨h.tcnto, h.cnt, ⟨hcalls.1, ?_⟩, hcalls.2, ⟨_, hvalue, rfl⟩, h.main, by simp⟩
    intro p hp
    rcases List.mem_append.mp hp with hp | hp
    · exact h.monotone.2 p hp
    · obtain rfl := List.mem_singleton.mp hp
      exact h.duration hirda
  case h_2 => cases hstep

/-- Every step that meets the condition keeps the invariant. -/
theorem TimeInv.step {e : TimerEvent} (h : TimeInv s) (hok : TimerOk s e)
    (hstep : timerStep s e = some s') : TimeInv s' := by
  cases e with
  | tick => exact h.tick hstep
  | reload => exact h.reload hstep
  | timerIrq => exact h.timerIrq hok hstep
  | mainSample => exact h.mainSample hok hstep
  | irdaSample => exact h.irdaSample hok hstep
  | mainReturn => exact h.mainReturn hstep
  | irdaReturn => exact h.irdaReturn hstep

end Step

theorem timeInv_init : TimeInv timerInit := by
  refine ⟨le_rfl, by norm_num [timerInit], ⟨?_, ?_⟩, ?_, ⟨0, Nat.zero_le _, rfl⟩, ?_, ?_⟩ <;>
    simp [timerInit]

/-! ## The time in whole runs -/

/-- In every run in which `TCNTO0` is read only while no timer-0 request is
    pending, no tick is counted between the two reads of a call and the time
    stays below `2^32` microseconds, the system time never runs backwards. -/
theorem time_monotone (s : TimerState) (hrun : Reach timerStep TimerOk timerInit s) :
    TimeMonotone s :=
  (Reach.invariant TimeInv timeInv_init (fun _ _ _ ht hok hstep => ht.step hok hstep) hrun).monotone

/-- A run of main code that is interrupted by `irda_irq` inside its call. -/
def quietRun : List TimerEvent :=
  [.irdaSample, .irdaReturn, .tick, .mainSample, .tick, .irdaSample, .irdaReturn, .mainReturn]

theorem time_monotone_quietRun : ∃ s, exec timerStep timerInit quietRun = some s ∧
    s.calls.length = 3 ∧ TimeMonotone s := by
  have hlen : (exec (guarded timerStep TimerOk) timerInit quietRun).map
      (fun s => s.calls.length) = some 3 := by decide
  obtain ⟨s, hs, hlen⟩ := Option.map_eq_some_iff.mp hlen
  exact ⟨s, exec_of_guarded hs, hlen, time_monotone s (.of_exec_guarded hs)⟩

/-- `n` counts of the timer. -/
theorem exec_ticks (n : ℕ) (s : TimerState) (h : n ≤ s.tcnto) :
    exec timerStep s (List.replicate n .tick) = some { s with tcnto := s.tcnto - n } := by
  induction n generalizing s with
  | zero => rfl
  | succ n ih =>
    have htick : timerStep s .tick = some { s with tcnto := s.tcnto - 1 } := if_pos (by omega)
    rw [List.replicate_succ, exec, htick, Option.bind_some, ih _ (by simp only; omega)]
    simp only [Option.some.injEq]
    rw [show s.tcnto - 1 - n = s.tcnto - (n + 1) by omega]

/-- Two edges of the remote control around a reload: the second `irda_irq` runs
    before the pending timer-0 request is served. -/
def edgesAroundReload : List TimerEvent :=
  List.replicate 50000 .tick ++ [.irdaSample, .irdaReturn, .reload, .irdaSample, .irdaReturn]

/-- The calls of this run return 10000 and then 0. -/
theorem exec_edgesAroundReload :
    exec timerStep timerInit edgesAroundReload =
      some ⟨50000, true, 0, 0, none, none, [⟨10000, []⟩, ⟨0, [10000]⟩],
        [⟨0, 10000, 10000⟩, ⟨10000, 0, 4294957296⟩]⟩ := by
  have hzero : { timerInit with tcnto := timerInit.tcnto - 50000 } =
      (⟨0, false, 0, 0, none, none, [], []⟩ : TimerState) := by
    simp [timerInit]
  rw [edgesAroundReload, exec_append, exec_ticks 50000 timerInit (by simp [timerInit]),
    Option.bind_some, hzero]
  decide

/-- The system time can run backwards. -/
theorem time_runs_backwards :
    ¬ ∀ s, Reach timerStep anyStep timerInit s → TimeMonotone s := by
  intro h
  have hmono := h _ (.of_exec exec_edgesAroundReload)
  exact absurd (hmono.1 ⟨0, [10000]⟩ (by simp) 10000 (by simp)).1 (by norm_num)

end Jz2440.Timer
