import Jz2440.Common.Runs

/-!
# Processes that share a state

Any number of processes run the same code over one shared state. A process is
the list entry that holds its local variables and its program counter; an event
starts a new process or lets one process make a step, with a choice `c : γ`
where the environment decides the outcome.

* `poolStep_move`: what the step of one process does to the whole pool.
* `exec_moves`, `exec_of_moves`: a stretch of a run in which only one process moves.
* `countP_set_add`: how the number of processes in some situation changes when
  one process moves; `eq_of_countP_le_one`: at most one process is in it.
-/

namespace Jz2440.Common

variable {σ ℓ ι γ : Type*}

/-- The shared state and the local states of the processes. -/
structure Pool (σ ℓ : Type*) where
  shared : σ
  procs : List ℓ

/-- A new process is started with the arguments `a`, or process `i` moves. -/
inductive PoolEvent (ι γ : Type*)
  | spawn (a : ι)
  | move (i : ℕ) (c : γ)

/-- The step function of the pool. -/
def poolStep (start : ι → ℓ) (step : σ → ℓ → γ → Option (σ × ℓ)) (P : Pool σ ℓ) :
    PoolEvent ι γ → Option (Pool σ ℓ)
  | .spawn a => some ⟨P.shared, P.procs ++ [start a]⟩
  | .move i c =>
    P.procs[i]?.bind fun p => (step P.shared p c).map fun r => ⟨r.1, P.procs.set i r.2⟩

theorem poolStep_move {start : ι → ℓ} {step : σ → ℓ → γ → Option (σ × ℓ)} {P P' : Pool σ ℓ}
    {i : ℕ} {c : γ} (h : poolStep start step P (.move i c) = some P') :
    ∃ p r, P.procs[i]? = some p ∧ step P.shared p c = some r ∧
      P' = ⟨r.1, P.procs.set i r.2⟩ := by
  simp only [poolStep, Option.bind_eq_some_iff, Option.map_eq_some_iff] at h
  obtain ⟨p, hp, r, hr, rfl⟩ := h
  exact ⟨p, r, hp, hr, rfl⟩

/-- While only process `i` moves, it runs as it would alone. -/
theorem exec_moves (start : ι → ℓ) {step : σ → ℓ → γ → Option (σ × ℓ)} {P : Pool σ ℓ} {i : ℕ}
    {p : ℓ} {cs : List γ} {r : σ × ℓ} (hp : P.procs[i]? = some p)
    (h : exec (fun x => step x.1 x.2) (P.shared, p) cs = some r) :
    exec (poolStep start step) P (cs.map (.move i)) = some ⟨r.1, P.procs.set i r.2⟩ := by
  induction cs generalizing P p with
  | nil =>
    cases h
    obtain ⟨hi, rfl⟩ := List.getElem?_eq_some_iff.mp hp
    simp [exec]
  | cons c cs ih =>
    simp only [exec, Option.bind_eq_some_iff] at h
    obtain ⟨x, hx, hrest⟩ := h
    have hi := (List.getElem?_eq_some_iff.mp hp).1
    have hstep : poolStep start step P (.move i c) = some ⟨x.1, P.procs.set i x.2⟩ := by
      simp [poolStep, hp, hx]
    rw [List.map_cons, exec, hstep, Option.bind_some, ih (List.getElem?_set_self hi) hrest,
      List.set_set]

/-- The converse: what such a stretch has done, the process has done alone. -/
theorem exec_of_moves {start : ι → ℓ} {step : σ → ℓ → γ → Option (σ × ℓ)} {P P' : Pool σ ℓ}
    {i : ℕ} {p : ℓ} {cs : List γ} (hp : P.procs[i]? = some p)
    (h : exec (poolStep start step) P (cs.map (.move i)) = some P') :
    ∃ r, exec (fun x => step x.1 x.2) (P.shared, p) cs = some r ∧
      P' = ⟨r.1, P.procs.set i r.2⟩ := by
  induction cs generalizing P p with
  | nil =>
    cases h
    obtain ⟨hi, rfl⟩ := List.getElem?_eq_some_iff.mp hp
    exact ⟨_, rfl, by simp⟩
  | cons c cs ih =>
    simp only [List.map_cons, exec, Option.bind_eq_some_iff] at h ⊢
    obtain ⟨P₁, hstep, hrest⟩ := h
    obtain ⟨p', x, hp', hx, rfl⟩ := poolStep_move hstep
    obtain rfl : p' = p := Option.some.inj (hp'.symm.trans hp)
    have hi := (List.getElem?_eq_some_iff.mp hp).1
    obtain ⟨r, hr, rfl⟩ := ih (List.getElem?_set_self hi) hrest
    exact ⟨r, ⟨x, hx, hr⟩, by rw [List.set_set]⟩

/-- The process that has moved is in its new state. -/
theorem eq_of_getElem?_set {l : List ℓ} {i : ℕ} {a b c : ℓ} (h : l[i]? = some a)
    (hset : (l.set i b)[i]? = some c) : b = c := by
  obtain ⟨hi, -⟩ := List.getElem?_eq_some_iff.mp h
  exact Option.some.inj ((List.getElem?_set_self hi).symm.trans hset)

/-! ## Counting processes -/

/-- When `a` is replaced by `b`, a count loses what `a` contributed and gains
    what `b` contributes. -/
theorem countP_set_add (p : ℓ → Bool) {l : List ℓ} {i : ℕ} {a : ℓ} (h : l[i]? = some a) (b : ℓ) :
    (l.set i b).countP p + (if p a then 1 else 0) = l.countP p + if p b then 1 else 0 := by
  obtain ⟨hi, rfl⟩ := List.getElem?_eq_some_iff.mp h
  have hle : (if p l[i] then 1 else 0) ≤ l.countP p := by
    split_ifs with ha
    · exact List.countP_pos_iff.mpr ⟨l[i], List.getElem_mem hi, ha⟩
    · exact Nat.zero_le _
  rw [List.countP_set hi]
  omega

/-- If at most one entry satisfies `p`, two entries that do are the same. -/
theorem eq_of_countP_le_one (p : ℓ → Bool) {l : List ℓ} (h : l.countP p ≤ 1) {i j : ℕ} {a b : ℓ}
    (hi : l[i]? = some a) (hj : l[j]? = some b) (ha : p a = true) (hb : p b = true) : i = j := by
  induction l generalizing i j with
  | nil => simp at hi
  | cons x l ih =>
    rw [List.countP_cons] at h
    have hpos : ∀ {k : ℕ} {y : ℓ}, l[k]? = some y → p y = true → 0 < l.countP p := by
      intro k y hk hy
      exact List.countP_pos_iff.mpr ⟨y, List.mem_of_getElem? hk, hy⟩
    cases i with
    | zero =>
      cases j with
      | zero => rfl
      | succ j =>
        obtain rfl : x = a := by simpa using hi
        have := hpos (by simpa using hj) hb
        rw [if_pos ha] at h
        omega
    | succ i =>
      cases j with
      | zero =>
        obtain rfl : x = b := by simpa using hj
        have := hpos (by simpa using hi) ha
        rw [if_pos hb] at h
        omega
      | succ j =>
        have : i = j := ih (by omega) (by simpa using hi) (by simpa using hj)
        rw [this]

/-- What holds of every process and of the new state of the one that moved. -/
theorem forall_mem_set {Q : ℓ → Prop} {l : List ℓ} (h : ∀ x ∈ l, Q x) (i : ℕ) {b : ℓ} (hb : Q b) :
    ∀ x ∈ l.set i b, Q x := by
  intro x hx
  rcases List.mem_or_eq_of_mem_set hx with hx | rfl
  · exact h x hx
  · exact hb

end Jz2440.Common
