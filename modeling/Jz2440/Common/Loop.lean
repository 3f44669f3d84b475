import Jz2440.Common.Runs

/-!
# Loops of imperative code

A `while` loop is given by its body, one pass at a time: a pass starts at the
loop head in a state `s : σ` and either comes back to the head or leaves the
loop with a result. The loop condition and `break` are part of the pass.

* `loop body fuel s`: the result of the loop if it takes at most `fuel` passes.
* `Yields f r`: the computation `f` has the result `r` for every large enough
  fuel; `Returns body s r` says so of a loop.
* `loop_post`: partial correctness from an invariant; `loop_eq_none`: a loop that never leaves.
* `Returns.of_variant`: total correctness from an invariant and a measure;
  `loop_within`: the same with the number of passes; `Returns.of_count`: the same for a
  loop whose states are known in closed form.
* `loopM body fuel s`: a loop whose body has loops of its own; `Yields.loopM_count` is its
  rule.
* `headStep body`: the passes as a step function, so that `Reach` speaks of
  the states at the loop head also when the loop never ends.
* `repeatWhile cond step n s`: a loop whose number of passes is bounded by `n`
  beforehand; `repeatWhile_invariant` and `repeatWhile_exit` are its rules.
-/

namespace Jz2440.Common

variable {σ ρ : Type*}

/-- What one pass through the body of a loop does. -/
inductive Pass (σ ρ : Type*)
  | again (s : σ)
  | leave (r : ρ)

/-- The loop, run for at most `fuel` passes. -/
def loop (body : σ → Pass σ ρ) : ℕ → σ → Option ρ
  | 0, _ => none
  | fuel + 1, s =>
    match body s with
    | .again s' => loop body fuel s'
    | .leave r => some r

/-! ## Computations with fuel -/

/-- Every large enough fuel gives the result `r`. -/
def Yields (f : ℕ → Option ρ) (r : ρ) : Prop := ∃ n, ∀ fuel, n ≤ fuel → f fuel = some r

theorem Yields.map {τ : Type*} {f : ℕ → Option ρ} {r : ρ} (h : Yields f r) (g : ρ → τ) :
    Yields (fun fuel => (f fuel).map g) (g r) := by
  obtain ⟨n, hn⟩ := h
  exact ⟨n, fun fuel hf => by simp only [hn fuel hf, Option.map_some]⟩

/-- One computation after the other. -/
theorem Yields.bind {τ : Type*} {f : ℕ → Option ρ} {g : ℕ → ρ → Option τ} {r : ρ} {q : τ}
    (h : Yields f r) (h' : Yields (fun fuel => g fuel r) q) :
    Yields (fun fuel => (f fuel).bind (g fuel)) q := by
  obtain ⟨n, hn⟩ := h
  obtain ⟨n', hn'⟩ := h'
  refine ⟨max n n', fun fuel hf => ?_⟩
  simp only [hn fuel (le_trans (le_max_left n n') hf), Option.bind_some]
  exact hn' fuel (le_trans (le_max_right n n') hf)

/-- There is at most one result. -/
theorem Yields.unique {f : ℕ → Option ρ} {r r' : ρ} (h : Yields f r) (h' : Yields f r') :
    r = r' := by
  obtain ⟨n, hn⟩ := h
  obtain ⟨n', hn'⟩ := h'
  have := hn (max n n') (le_max_left _ _)
  rw [hn' _ (le_max_right _ _)] at this
  exact (Option.some.inj this).symm

/-! ## Total correctness -/

/-- The loop started in `s` leaves with `r`. -/
def Returns (body : σ → Pass σ ρ) (s : σ) (r : ρ) : Prop := Yields (fun fuel => loop body fuel s) r

section Loop

variable {body : σ → Pass σ ρ} {s : σ} {r : ρ}

theorem loop_succ_leave (h : body s = .leave r) (fuel : ℕ) :
    loop body (fuel + 1) s = some r := by
  simp only [loop, h]

theorem loop_succ_again {s' : σ} (h : body s = .again s') (fuel : ℕ) :
    loop body (fuel + 1) s = loop body fuel s' := by
  simp only [loop, h]

theorem Returns.of_leave (h : body s = .leave r) : Returns body s r := by
  refine ⟨1, fun fuel hf => ?_⟩
  obtain ⟨n, rfl⟩ := Nat.exists_eq_add_of_le' hf
  exact loop_succ_leave h n

theorem Returns.of_again {s' : σ} (h : body s = .again s') (hr : Returns body s' r) :
    Returns body s r := by
  obtain ⟨n, hn⟩ := hr
  refine ⟨n + 1, fun fuel hf => ?_⟩
  obtain ⟨m, rfl⟩ := Nat.exists_eq_add_of_le' hf
  simp only [← Nat.add_assoc, loop_succ_again h]
  exact hn _ (by omega)

/-- A loop that runs through the states `f 0, f 1, …, f m` and leaves from the last one. -/
theorem Returns.of_count (f : ℕ → σ) (m : ℕ) (hs : s = f 0)
    (hstep : ∀ j < m, body (f j) = .again (f (j + 1))) (hleave : body (f m) = .leave r) :
    Returns body s r := by
  have hfrom : ∀ j ≤ m, Returns body (f (m - j)) r := by
    intro j
    induction j with
    | zero => exact fun _ => .of_leave hleave
    | succ j ih =>
      intro hj
      have hnext := hstep (m - (j + 1)) (by omega)
      rw [show m - (j + 1) + 1 = m - j by omega] at hnext
      exact .of_again hnext (ih (by omega))
  have hzero := hfrom m le_rfl
  rwa [Nat.sub_self, ← hs] at hzero

/-- Partial correctness: what holds if the loop leaves at all. -/
theorem loop_post (Inv : σ → Prop) (Post : ρ → Prop)
    (hagain : ∀ t t', Inv t → body t = .again t' → Inv t')
    (hleave : ∀ t r, Inv t → body t = .leave r → Post r) (fuel : ℕ) (hs : Inv s)
    (h : loop body fuel s = some r) : Post r := by
  induction fuel generalizing s with
  | zero => cases h
  | succ fuel ih =>
    cases hb : body s with
    | again s' =>
      rw [loop_succ_again hb] at h
      exact ih (hagain s s' hs hb) h
    | leave r' =>
      rw [loop_succ_leave hb, Option.some_inj] at h
      exact h ▸ hleave s r' hs hb

/-- A loop whose passes all come back to the head never leaves. -/
theorem loop_eq_none (Inv : σ → Prop) (hpass : ∀ t, Inv t → ∃ t', body t = .again t' ∧ Inv t')
    (fuel : ℕ) (hs : Inv s) : loop body fuel s = none := by
  induction fuel generalizing s with
  | zero => rfl
  | succ fuel ih =>
    obtain ⟨s', hb, hs'⟩ := hpass s hs
    rw [loop_succ_again hb]
    exact ih hs'

/-- If a pass from a state with at most `n` passes left either leaves or comes back with
    fewer of them left, then the loop leaves within them. -/
theorem loop_within (Inv : ℕ → σ → Prop) (Post : ρ → Prop)
    (hpass : ∀ n t, Inv n t → (∃ n' t', body t = .again t' ∧ Inv n' t' ∧ n' < n) ∨
      ∃ r, body t = .leave r ∧ Post r)
    {n fuel : ℕ} (hs : Inv n s) (hfuel : n < fuel) :
    ∃ r, loop body fuel s = some r ∧ Post r := by
  induction fuel generalizing n s with
  | zero => omega
  | succ fuel ih =>
    rcases hpass n s hs with ⟨n', s', hb, hinv, hlt⟩ | ⟨r, hb, hpost⟩
    · rw [loop_succ_again hb]
      exact ih hinv (by omega)
    · exact ⟨r, loop_succ_leave hb fuel, hpost⟩

/-- More fuel than enough does not change the result. -/
theorem Returns.of_loop {fuel : ℕ} (h : loop body fuel s = some r) : Returns body s r := by
  induction fuel generalizing s with
  | zero => cases h
  | succ fuel ih =>
    cases hb : body s with
    | again s' =>
      rw [loop_succ_again hb] at h
      exact .of_again hb (ih h)
    | leave r' =>
      rw [loop_succ_leave hb, Option.some_inj] at h
      exact .of_leave (h ▸ hb)

/-- Total correctness. If each pass from a state of the invariant either leaves
    with a result in `Post`, or comes back to the head with the invariant and
    a smaller measure, then the loop leaves with a result in `Post`. -/
theorem Returns.of_variant (Inv : σ → Prop) (Post : ρ → Prop) (μ : σ → ℕ)
    (hpass : ∀ t, Inv t → (∃ t', body t = .again t' ∧ Inv t' ∧ μ t' < μ t) ∨
      ∃ r, body t = .leave r ∧ Post r)
    (hs : Inv s) : ∃ r, Returns body s r ∧ Post r := by
  obtain ⟨r, hr, hpost⟩ := loop_within (fun n t => Inv t ∧ μ t = n) Post (by
    rintro n t ⟨hinv, rfl⟩
    rcases hpass t hinv with ⟨t', hb, hinv', hlt⟩ | hleave
    · exact .inl ⟨μ t', t', hb, ⟨hinv', rfl⟩, hlt⟩
    · exact .inr hleave) ⟨hs, rfl⟩ (Nat.lt_succ_self (μ s))
  exact ⟨r, .of_loop hr, hpost⟩

end Loop

/-! ## Loops with loops in their body -/

/-- A loop whose body needs fuel as well, run for at most `fuel` passes. -/
def loopM (body : ℕ → σ → Option (Pass σ ρ)) : ℕ → σ → Option ρ
  | 0, _ => none
  | fuel + 1, s => (body fuel s).bind fun
    | .again s' => loopM body fuel s'
    | .leave r => some r

section LoopM

variable {body : ℕ → σ → Option (Pass σ ρ)} {s : σ} {r : ρ}

theorem loopM_succ_leave {fuel : ℕ} (h : body fuel s = some (.leave r)) :
    loopM body (fuel + 1) s = some r := by
  simp only [loopM, h, Option.bind_some]

theorem loopM_succ_again {s' : σ} {fuel : ℕ} (h : body fuel s = some (.again s')) :
    loopM body (fuel + 1) s = loopM body fuel s' := by
  simp only [loopM, h, Option.bind_some]

theorem Yields.loopM_leave (h : Yields (fun fuel => body fuel s) (.leave r)) :
    Yields (fun fuel => loopM body fuel s) r := by
  obtain ⟨n, hn⟩ := h
  refine ⟨n + 1, fun fuel hf => ?_⟩
  cases fuel with
  | zero => omega
  | succ fuel => exact loopM_succ_leave (hn fuel (by omega))

theorem Yields.loopM_again {s' : σ} (h : Yields (fun fuel => body fuel s) (.again s'))
    (hr : Yields (fun fuel => loopM body fuel s') r) :
    Yields (fun fuel => loopM body fuel s) r := by
  obtain ⟨n, hn⟩ := h
  obtain ⟨n', hn'⟩ := hr
  refine ⟨max n n' + 1, fun fuel hf => ?_⟩
  cases fuel with
  | zero => omega
  | succ fuel => exact (loopM_succ_again (hn fuel (by omega))).trans (hn' fuel (by omega))

/-- An invariant that is kept for `m` passes, after which the loop leaves. -/
theorem Yields.loopM_count (Inv : ℕ → σ → Prop) (Post : ρ → Prop) (m : ℕ) (hs : Inv 0 s)
    (hagain : ∀ k < m, ∀ t, Inv k t →
      ∃ t', Yields (fun fuel => body fuel t) (.again t') ∧ Inv (k + 1) t')
    (hleave : ∀ t, Inv m t → ∃ r, Yields (fun fuel => body fuel t) (.leave r) ∧ Post r) :
    ∃ r, Yields (fun fuel => loopM body fuel s) r ∧ Post r := by
  have hfrom : ∀ j ≤ m, ∀ t, Inv (m - j) t →
      ∃ r, Yields (fun fuel => loopM body fuel t) r ∧ Post r := by
    intro j
    induction j with
    | zero =>
      intro _ t ht
      obtain ⟨r, hr, hpost⟩ := hleave t ht
      exact ⟨r, hr.loopM_leave, hpost⟩
    | succ j ih =>
      intro hj t ht
      obtain ⟨t', hb, ht'⟩ := hagain (m - (j + 1)) (by omega) t ht
      rw [show m - (j + 1) + 1 = m - j by omega] at ht'
      obtain ⟨r, hr, hpost⟩ := ih (by omega) t' ht'
      exact ⟨r, hb.loopM_again hr, hpost⟩
  exact hfrom m le_rfl s (by rwa [Nat.sub_self])

end LoopM

/-! ## States at the loop head -/

/-- One pass as a step; a pass that leaves the loop is not a step. -/
def headStep (body : σ → Pass σ ρ) (s : σ) (_ : Unit) : Option σ :=
  match body s with
  | .again s' => some s'
  | .leave _ => none

theorem headStep_eq_some {body : σ → Pass σ ρ} {s s' : σ} {u : Unit} :
    headStep body s u = some s' ↔ body s = .again s' := by
  unfold headStep
  cases body s <;> simp

/-! ## Bounded loops -/

/-- `while (cond) step`, for at most `n` passes. -/
def repeatWhile (cond : σ → Prop) [DecidablePred cond] (step : σ → σ) : ℕ → σ → σ
  | 0, s => s
  | n + 1, s => if cond s then repeatWhile cond step n (step s) else s

section Bounded

variable {cond : σ → Prop} [DecidablePred cond] {step : σ → σ}

theorem repeatWhile_invariant (Inv : σ → Prop) (hstep : ∀ t, Inv t → cond t → Inv (step t))
    (n : ℕ) {s : σ} (hs : Inv s) : Inv (repeatWhile cond step n s) := by
  induction n generalizing s with
  | zero => exact hs
  | succ n ih =>
    rw [repeatWhile]
    split_ifs with hc
    · exact ih (hstep s hs hc)
    · exact hs

/-- The bound is never what ends the loop if it is at least a measure that
    every pass decreases. -/
theorem repeatWhile_exit (μ : σ → ℕ) (hdec : ∀ t, cond t → μ (step t) < μ t) (n : ℕ) {s : σ}
    (hn : μ s ≤ n) : ¬ cond (repeatWhile cond step n s) := by
  induction n generalizing s with
  | zero =>
    intro hc
    have := hdec s hc
    omega
  | succ n ih =>
    rw [repeatWhile]
    split_ifs with hc
    · have := hdec s hc
      exact ih (by omega)
    · exact hc

/-- A loop that runs through the states `f 0, f 1, …, f m` and stops there. -/
theorem repeatWhile_count (f : ℕ → σ) (m : ℕ) (hcond : ∀ j < m, cond (f j))
    (hstep : ∀ j < m, step (f j) = f (j + 1)) (hexit : ¬ cond (f m)) (n : ℕ) (hn : m ≤ n) :
    repeatWhile cond step n (f 0) = f m := by
  have hrun : ∀ k n, k ≤ m → m - k ≤ n → repeatWhile cond step n (f k) = f m := by
    intro k n hk hkn
    induction n generalizing k with
    | zero =>
      obtain rfl : k = m := by omega
      rfl
    | succ n ih =>
      rw [repeatWhile]
      rcases Nat.lt_or_eq_of_le hk with hlt | rfl
      · rw [if_pos (hcond k hlt), hstep k hlt]
        exact ih (k + 1) hlt (by omega)
      · rw [if_neg hexit]
  exact hrun 0 n (Nat.zero_le m) (by omega)

end Bounded

end Jz2440.Common
