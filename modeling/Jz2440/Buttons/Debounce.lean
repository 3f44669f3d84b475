import Jz2440.Common.Runs
import Mathlib.Data.Fin.Basic
import Mathlib.Logic.Function.Basic

/-!
# Four keys and one debounce timer

Model of `drivers_and_test/8th_buttons_input/buttons.c`. An edge on a key runs
`buttons_irq`, which stores the descriptor of the key in `irq_pd` and (re)starts the
timer; `buttons_timer_function` reports the level of the key that `irq_pd` names. It
is cut into its statements, since an interrupt may come between any two of them.
`buttons_irq` is one step: one interrupt does not nest in another.

* `debounceStep_preserves`: what one step preserves if `buttons_irq` does not
  overwrite the descriptor of another key that the timer is pending for.
* `debounced_of_reach`: in every run of such steps, whenever everything has settled,
  the last value reported for each key is its level.
* `debounce_loses_key`: without the condition a key is forgotten.
-/

namespace Jz2440.Buttons

open Jz2440.Common

/-- The index of a key in `pins_desc`. -/
abbrev Key := Fin 4

/-- Where `buttons_timer_function` is. -/
inductive TimerFunction
  | idle
  | fetched (pindesc : Key)
  | pinRead (pindesc : Key) (pinval : Bool)
  deriving DecidableEq

/-- The pins, the driver's variables and what was reported. -/
structure Debounce where
  /-- the pin levels; a pressed key is low -/
  level : Key → Bool
  /-- the edges for which `buttons_irq` has not run yet -/
  edges : Key → ℕ
  irqPd : Option Key
  timerPending : Bool
  timerFunction : TimerFunction
  /-- the last value that `input_event` reported, 1 for pressed -/
  reported : Key → Option Bool
  /-- the key has had an edge -/
  touched : Key → Bool

/-- What may happen next. -/
inductive DebounceEvent
  /-- the pin of a key changes its level -/
  | change (k : Key)
  /-- `buttons_irq` runs for an edge of a key -/
  | irq (k : Key)
  /-- the timer expires: `buttons_timer_function` up to its test of `pindesc` -/
  | expire
  /-- `pinval = s3c2410_gpio_getpin(pindesc->pin)` -/
  | getpin
  /-- `input_event(buttons_dev, EV_KEY, pindesc->key_val, !pinval)` -/
  | report
  deriving DecidableEq

/-- `buttons_irq` (buttons.c:42-48). -/
def buttonsIrq (devId : Key) (s : Debounce) : Debounce :=
  { s with irqPd := some devId, timerPending := true }

/-- One event; `buttons_timer_function` is buttons.c:50-72. -/
def debounceStep (s : Debounce) : DebounceEvent → Option Debounce
  | .change k => some { s with
      level := Function.update s.level k (!s.level k)
      edges := Function.update s.edges k (s.edges k + 1)
      touched := Function.update s.touched k true }
  | .irq k =>
    if 0 < s.edges k then
      some (buttonsIrq k { s with edges := Function.update s.edges k (s.edges k - 1) })
    else none
  | .expire =>
    if s.timerPending ∧ s.timerFunction = .idle then
      match s.irqPd with
      | none => some { s with timerPending := false }
      | some pindesc => some { s with timerPending := false, timerFunction := .fetched pindesc }
    else none
  | .getpin =>
    match s.timerFunction with
    | .fetched pindesc => some { s with timerFunction := .pinRead pindesc (s.level pindesc) }
    | _ => none
  | .report =>
    match s.timerFunction with
    | .pinRead pindesc pinval => some { s with
        reported := Function.update s.reported pindesc (some !pinval), timerFunction := .idle }
    | _ => none

/-- After `buttons_init`: the timer was added and `irq_pd` is still NULL. -/
def debounceInit (level : Key → Bool) : Debounce :=
  ⟨level, fun _ => 0, none, true, .idle, fun _ => none, fun _ => false⟩

/-- The timer is not pending, its function is not running and every edge was delivered. -/
def Settled (s : Debounce) : Prop :=
  s.timerPending = false ∧ s.timerFunction = .idle ∧ ∀ k, s.edges k = 0

instance (s : Debounce) : Decidable (Settled s) := inferInstanceAs (Decidable (_ ∧ _ ∧ ∀ _, _))

/-- The last report of every key that has had an edge is its level. -/
def Debounced (s : Debounce) : Prop :=
  ∀ k, s.touched k = true → s.reported k = some (!s.level k)

/-- `buttons_irq` does not run for one key while the timer is pending for another one. -/
def KeepsPending (s : Debounce) : DebounceEvent → Prop
  | .irq k => s.timerPending = true → s.irqPd = none ∨ s.irqPd = some k
  | _ => True

instance (s : Debounce) : (e : DebounceEvent) → Decidable (KeepsPending s e)
  | .irq _ => inferInstanceAs (Decidable (_ = true → _ ∨ _))
  | .change _ => isTrue trivial
  | .expire => isTrue trivial
  | .getpin => isTrue trivial
  | .report => isTrue trivial

/-! ## The invariant -/

/-- A report of the level that key `k` has now is still to come: an edge waits for its
    interrupt, or the timer is pending for the key. -/
def Due (s : Debounce) (k : Key) : Prop :=
  0 < s.edges k ∨ (s.timerPending = true ∧ s.irqPd = some k)

structure DebounceInv (s : Debounce) : Prop where
  /-- what the timer function has read is the level, or a newer report is due -/
  fresh : ∀ k v, s.timerFunction = .pinRead k v → v = s.level k ∨ Due s k
  /-- the last report is the level, or another one is on its way -/
  covered : ∀ k, s.touched k = true → s.reported k = some (!s.level k) ∨ Due s k ∨
    s.timerFunction = .fetched k ∨ ∃ v, s.timerFunction = .pinRead k v

theorem debounceInv_init (level : Key → Bool) : DebounceInv (debounceInit level) :=
  ⟨nofun, fun _ h => absurd h Bool.false_ne_true⟩

/-- The invariant, shown key by key. -/
theorem DebounceInv.of_keys {s : Debounce}
    (h : ∀ k, (∀ v, s.timerFunction = .pinRead k v → v = s.level k ∨ Due s k) ∧
      (s.touched k = true → s.reported k = some (!s.level k) ∨ Due s k ∨
        s.timerFunction = .fetched k ∨ ∃ v, s.timerFunction = .pinRead k v)) : DebounceInv s :=
  ⟨fun k => (h k).1, fun k => (h k).2⟩

section Steps

variable {s s' : Debounce} (hs : DebounceInv s)
include hs

theorem debounceInv_change (k : Key) (h : debounceStep s (.change k) = some s') :
    DebounceInv s' := by
  obtain rfl := Option.some.inj h
  apply DebounceInv.of_keys
  intro j
  by_cases hj : j = k
  · have hdue : Due { s with
        level := Function.update s.level k (!s.level k)
        edges := Function.update s.edges k (s.edges k + 1)
        touched := Function.update s.touched k true } j := by
      left
      show 0 < Function.update s.edges k (s.edges k + 1) j
      rw [hj, Function.update_self]
      exact Nat.succ_pos _
    exact ⟨fun _ _ => .inr hdue, fun _ => .inr (.inl hdue)⟩
  · simp only [Due, Function.update_of_ne hj]
    exact ⟨hs.fresh j, hs.covered j⟩

/-- `buttons_irq` makes a report of its key due; for the others nothing changes, since
    the timer was not pending for them. -/
theorem debounceInv_irq (k : Key) (hok : KeepsPending s (.irq k))
    (h : debounceStep s (.irq k) = some s') : DebounceInv s' := by
  obtain ⟨-, h⟩ := Option.ite_none_right_eq_some.mp h
  obtain rfl := Option.some.inj h
  apply DebounceInv.of_keys
  intro j
  by_cases hj : j = k
  · have hdue : Due (buttonsIrq k { s with
        edges := Function.update s.edges k (s.edges k - 1) }) j := by
      right
      rw [hj]
      exact ⟨rfl, rfl⟩
    exact ⟨fun _ _ => .inr hdue, fun _ => .inr (.inl hdue)⟩
  · have hdue : Due s j → 0 < s.edges j := by
      rintro (hedge | ⟨hpending, hpd⟩)
      · exact hedge
      · rcases hok hpending with hnone | hsome
        · exact absurd (hnone.symm.trans hpd) nofun
        · exact absurd (Option.some.inj (hpd.symm.trans hsome)) hj
    simp only [buttonsIrq, Due, Function.update_of_ne hj]
    refine ⟨fun v hv => (hs.fresh j v hv).imp id fun h => .inl (hdue h), ?_⟩
    exact fun htouched => (hs.covered j htouched).imp id (Or.imp (fun h => .inl (hdue h)) id)

theorem debounceInv_expire (h : debounceStep s .expire = some s') : DebounceInv s' := by
  obtain ⟨⟨hpending, hidle⟩, h⟩ := Option.ite_none_right_eq_some.mp h
  have hcovered : ∀ j, s.touched j = true →
      s.reported j = some (!s.level j) ∨ 0 < s.edges j ∨ s.irqPd = some j := by
    intro j htouched
    rcases hs.covered j htouched with h | (h | ⟨-, h⟩) | h | ⟨v, h⟩
    · exact .inl h
    · exact .inr (.inl h)
    · exact .inr (.inr h)
    · exact absurd (hidle.symm.trans h) nofun
    · exact absurd (hidle.symm.trans h) nofun
  cases hpd : s.irqPd with
  | none =>
    rw [hpd] at h
    obtain rfl := Option.some.inj h
    refine ⟨fun k v hv => absurd (hidle.symm.trans hv) nofun, fun j htouched => ?_⟩
    rcases hcovered j htouched with h | h | h
    · exact .inl h
    · exact .inr (.inl (.inl h))
    · exact absurd (hpd.symm.trans h) nofun
  | some pindesc =>
    rw [hpd] at h
    obtain rfl := Option.some.inj h
    refine ⟨fun k v hv => absurd hv nofun, fun j htouched => ?_⟩
    rcases hcovered j htouched with h | h | h
    · exact .inl h
    · exact .inr (.inl (.inl h))
    · rw [← Option.some.inj (hpd.symm.trans h)]
      exact .inr (.inr (.inl rfl))

theorem debounceInv_getpin (h : debounceStep s .getpin = some s') : DebounceInv s' := by
  simp only [debounceStep] at h
  split at h
  · rename_i pindesc hfetched
    obtain rfl := Option.some.inj h
    refine ⟨?_, fun j htouched => ?_⟩
    · rintro k v ⟨⟩
      exact .inl rfl
    · rcases hs.covered j htouched with h | h | h | ⟨v, h⟩
      · exact .inl h
      · exact .inr (.inl h)
      · obtain rfl : pindesc = j := by
          rw [hfetched] at h
          exact TimerFunction.fetched.inj h
        exact .inr (.inr (.inr ⟨_, rfl⟩))
      · exact absurd (hfetched.symm.trans h) nofun
  · exact absurd h nofun

theorem debounceInv_report (h : debounceStep s .report = some s') : DebounceInv s' := by
  simp only [debounceStep] at h
  split at h
  · rename_i pindesc pinval hread
    obtain rfl := Option.some.inj h
    refine ⟨fun k v hv => absurd hv nofun, fun j htouched => ?_⟩
    by_cases hj : j = pindesc
    · subst hj
      dsimp only
      rw [Function.update_self]
      rcases hs.fresh j pinval hread with rfl | hdue
      · exact .inl rfl
      · exact .inr (.inl hdue)
    · dsimp only
      rw [Function.update_of_ne hj]
      rcases hs.covered j htouched with h | h | h | ⟨v, h⟩
      · exact .inl h
      · exact .inr (.inl h)
      · exact absurd (hread.symm.trans h) nofun
      · exact absurd (TimerFunction.pinRead.inj (hread.symm.trans h)).1.symm hj
  · exact absurd h nofun

end Steps

theorem debounceStep_preserves (s : Debounce) (e : DebounceEvent) (s' : Debounce)
    (hs : DebounceInv s) (hok : KeepsPending s e) (h : debounceStep s e = some s') :
    DebounceInv s' := by
  cases e with
  | change k => exact debounceInv_change hs k h
  | irq k => exact debounceInv_irq hs k hok h
  | expire => exact debounceInv_expire hs h
  | getpin => exact debounceInv_getpin hs h
  | report => exact debounceInv_report hs h

/-! ## Runs -/

/-- If `buttons_irq` never runs for one key while the timer is pending for another one,
    every key is debounced whenever the driver has settled. -/
theorem debounced_of_reach (level : Key → Bool) (s : Debounce)
    (h : Reach debounceStep KeepsPending (debounceInit level) s) (hsettled : Settled s) :
    Debounced s := by
  have hinv : DebounceInv s :=
    h.invariant DebounceInv (debounceInv_init level) debounceStep_preserves
  obtain ⟨hpending, hidle, hedges⟩ := hsettled
  intro k htouched
  rcases hinv.covered k htouched with h | (h | ⟨h, -⟩) | h | ⟨v, h⟩
  · exact h
  · exact absurd (hedges k) h.ne'
  · exact absurd (hpending.symm.trans h) nofun
  · exact absurd (hidle.symm.trans h) nofun
  · exact absurd (hidle.symm.trans h) nofun

-- the keys of the runs below are literals of `Key`
local instance neZero_debouncedKeys : NeZero 4 := ⟨by decide⟩

/-- One key is pressed and then another one, and the timer expires in between. -/
def pressInTurn : List DebounceEvent :=
  [.change 0, .irq 0, .expire, .getpin, .report, .change 1, .irq 1, .expire, .getpin, .report]

theorem debounced_pressInTurn :
    ∃ s, exec debounceStep (debounceInit fun _ => true) pressInTurn = some s ∧ Settled s ∧
      s.touched 0 = true ∧ Debounced s := by
  have hrun : (exec (guarded debounceStep KeepsPending) (debounceInit fun _ => true)
      pressInTurn).map (fun s => (decide (Settled s), s.touched 0)) = some (true, true) := by
    decide +kernel
  obtain ⟨s, hs, hobs⟩ := Option.map_eq_some_iff.mp hrun
  simp only [Prod.mk.injEq, decide_eq_true_eq] at hobs
  obtain ⟨hsettled, htouched⟩ := hobs
  exact ⟨s, exec_of_guarded hs, hsettled, htouched,
    debounced_of_reach (fun _ => true) s (.of_exec_guarded hs) hsettled⟩

/-- Two keys are pressed within the 10 ms: the first one is never reported. -/
def pressTogether : List DebounceEvent :=
  [.change 0, .irq 0, .change 1, .irq 1, .expire, .getpin, .report]

theorem debounce_loses_key :
    ¬ ∀ s, Reach debounceStep anyStep (debounceInit fun _ => true) s → Settled s →
      Debounced s := by
  intro h
  have hrun : (exec debounceStep (debounceInit fun _ => true) pressTogether).map
      (fun s => (decide (Settled s), s.touched 0, s.reported 0)) = some (true, true, none) := by
    decide +kernel
  obtain ⟨s, hs, hobs⟩ := Option.map_eq_some_iff.mp hrun
  simp only [Prod.mk.injEq, decide_eq_true_eq] at hobs
  obtain ⟨hsettled, htouched, hreported⟩ := hobs
  have hlast := h s (.of_exec hs) hsettled 0 htouched
  exact absurd (hreported.symm.trans hlast) nofun

end Jz2440.Buttons
