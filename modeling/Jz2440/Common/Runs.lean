import Mathlib.Tactic

/-!
# Runs of a step function

Code that shares its state with interrupts, hardware or other processes is
modelled by a partial step function `step : σ → α → Option σ`. A label `a : α`
says who moves; `none` means that this move is not possible in the state.

* `Reach step ok s₀ s`: some run from `s₀` ends in `s`, and every step of it,
  taken in state `t` with label `a`, meets `ok t a`.
* `Reach.invariant`: the induction rule for invariants of such runs.
* `Reach.exists_lift`: a machine that only records more has the same runs.
* `exec`: a run as a function of its list of labels, for concrete runs;
  `guarded step ok` allows only the steps that meet `ok`.
-/

namespace Jz2440.Common

variable {σ α : Type*}

/-- The states that runs from `s₀` reach when every step meets `ok`. -/
inductive Reach (step : σ → α → Option σ) (ok : σ → α → Prop) (s₀ : σ) : σ → Prop
  | refl : Reach step ok s₀ s₀
  | tail {s s' : σ} {a : α} : Reach step ok s₀ s → ok s a → step s a = some s' →
      Reach step ok s₀ s'

/-- No condition on the steps. -/
def anyStep (_ : σ) (_ : α) : Prop := True

instance (s : σ) (a : α) : Decidable (anyStep s a) := isTrue trivial

section Reach

variable {step : σ → α → Option σ} {ok : σ → α → Prop} {s₀ s : σ}

/-- What holds at the start and is kept by every step that meets `ok` holds in
    every state reached. -/
theorem Reach.invariant (Inv : σ → Prop) (hinit : Inv s₀)
    (hstep : ∀ t a t', Inv t → ok t a → step t a = some t' → Inv t')
    (h : Reach step ok s₀ s) : Inv s := by
  induction h with
  | refl => exact hinit
  | tail _ hok hs ih => exact hstep _ _ _ ih hok hs

theorem Reach.trans {s' : σ} (h : Reach step ok s₀ s) (h' : Reach step ok s s') :
    Reach step ok s₀ s' := by
  induction h' with
  | refl => exact h
  | tail _ ha hs ih => exact .tail ih ha hs

theorem Reach.mono {ok' : σ → α → Prop} (hok : ∀ t a, ok t a → ok' t a)
    (h : Reach step ok s₀ s) : Reach step ok' s₀ s := by
  induction h with
  | refl => exact .refl
  | tail _ ha hs ih => exact .tail ih (hok _ _ ha) hs

/-- A machine that does every step of another one, and records more, does all its runs. -/
theorem Reach.exists_lift {τ : Type*} {step' : τ → α → Option τ} {t₀ : τ} (proj : τ → σ)
    (hlift : ∀ t a s', step (proj t) a = some s' → ∃ t', step' t a = some t' ∧ proj t' = s')
    (h : Reach step anyStep (proj t₀) s) : ∃ t, Reach step' anyStep t₀ t ∧ proj t = s := by
  induction h with
  | refl => exact ⟨t₀, .refl, rfl⟩
  | tail _ _ hstep ih =>
    obtain ⟨t, hrun, rfl⟩ := ih
    obtain ⟨t', hstep', hproj⟩ := hlift t _ _ hstep
    exact ⟨t', hrun.tail trivial hstep', hproj⟩

end Reach

/-! ## Runs given by their labels -/

/-- The state after the steps `as`, or `none` if one of them is not possible. -/
def exec (step : σ → α → Option σ) : σ → List α → Option σ
  | s, [] => some s
  | s, a :: as => (step s a).bind fun s' => exec step s' as

theorem exec_append (step : σ → α → Option σ) (s : σ) (as bs : List α) :
    exec step s (as ++ bs) = (exec step s as).bind fun s' => exec step s' bs := by
  induction as generalizing s with
  | nil => rfl
  | cons a as ih =>
    simp only [List.cons_append, exec]
    cases step s a with
    | none => rfl
    | some s' => exact ih s'

/-- `step` restricted to the steps that meet `ok`. -/
def guarded (step : σ → α → Option σ) (ok : σ → α → Prop) [∀ s a, Decidable (ok s a)] (s : σ)
    (a : α) : Option σ :=
  if ok s a then step s a else none

/-- A run that meets `ok` is a run. -/
theorem exec_of_guarded {step : σ → α → Option σ} {ok : σ → α → Prop}
    [∀ s a, Decidable (ok s a)] {s s' : σ} {as : List α}
    (h : exec (guarded step ok) s as = some s') : exec step s as = some s' := by
  induction as generalizing s with
  | nil => exact h
  | cons a as ih =>
    simp only [exec, Option.bind_eq_some_iff] at h ⊢
    obtain ⟨t, ht, hrest⟩ := h
    unfold guarded at ht
    split_ifs at ht with hok
    exact ⟨t, ht, ih hrest⟩

theorem Reach.of_exec_guarded {step : σ → α → Option σ} {ok : σ → α → Prop}
    [∀ s a, Decidable (ok s a)] {s s' : σ} {as : List α}
    (h : exec (guarded step ok) s as = some s') : Reach step ok s s' := by
  induction as generalizing s with
  | nil => cases h; exact .refl
  | cons a as ih =>
    simp only [exec, Option.bind_eq_some_iff] at h
    obtain ⟨t, ht, hrest⟩ := h
    unfold guarded at ht
    split_ifs at ht with hok
    exact (Reach.refl.tail hok ht).trans (ih hrest)

theorem guarded_anyStep (step : σ → α → Option σ) : guarded step anyStep = step := by
  funext s a
  exact if_pos trivial

theorem Reach.of_exec {step : σ → α → Option σ} {s s' : σ} {as : List α}
    (h : exec step s as = some s') : Reach step anyStep s s' := by
  have h' : exec (guarded step anyStep) s as = some s' := by rwa [guarded_anyStep]
  exact .of_exec_guarded h'

end Jz2440.Common
