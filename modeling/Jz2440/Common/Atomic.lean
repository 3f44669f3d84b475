import Jz2440.Common.Loop

/-!
# Sections that one process at a time is inside of

Processes run a section of code on a state that they share. A section takes many steps, and the
environment chooses some of what happens in it. If only the process inside makes these steps, the
sections may as well have been run one after the other, in the order in which they have ended.

* `Body.Goes`, `Body.Ends`: a section that is run alone.
* `Serial`: what is on record is explained by some order of whole sections, the recorded one.
* `Consistent.record`, `Consistent.enter`, `Consistent.again`, `Consistent.leave`: what the steps
  of a run keep. Whoever makes these steps only has to show that nobody else is inside.
-/

namespace Jz2440.Common

variable {ι σ ℓ ρ χ ε : Type*}

/-- One step of a section: a choice of the environment, what the process knows and the shared
    state. -/
abbrev Body (χ ℓ σ ρ : Type*) := χ → ℓ → σ → Option (Pass ℓ ρ × σ)

/-- The section, run alone, gets from one state to another. -/
inductive Body.Goes (b : Body χ ℓ σ ρ) (l : ℓ) (s : σ) : ℓ → σ → Prop
  | refl : Goes b l s l s
  | tail {l₁ l₂ : ℓ} {s₁ s₂ : σ} (c : χ) : Goes b l s l₁ s₁ → b c l₁ s₁ = some (.again l₂, s₂) →
      Goes b l s l₂ s₂

/-- The section, run alone, ends with the result `r`. -/
def Body.Ends (b : Body χ ℓ σ ρ) (l : ℓ) (s : σ) (r : ρ) (s' : σ) : Prop :=
  ∃ c l₁ s₁, b.Goes l s l₁ s₁ ∧ b c l₁ s₁ = some (.leave r, s')

/-- What a section keeps of the two states while it goes on. -/
theorem Body.Goes.invariant {b : Body χ ℓ σ ρ} {l : ℓ} {s : σ} (Inv : ℓ → σ → Prop)
    (hinit : Inv l s)
    (hstep : ∀ c l₁ s₁ l₂ s₂, Inv l₁ s₁ → b c l₁ s₁ = some (.again l₂, s₂) → Inv l₂ s₂)
    {l' : ℓ} {s' : σ} (h : b.Goes l s l' s') : Inv l' s' := by
  induction h with
  | refl => exact hinit
  | tail c _ hb ih => exact hstep c _ _ _ _ ih hb

/-- The records are explained one after the other: `explains s e s'` says that something that
    takes `s` to `s'` in one go would have left the record `e`. -/
inductive Serial (explains : σ → ε → σ → Prop) (s₀ : σ) : List ε → σ → Prop
  | nil : Serial explains s₀ [] s₀
  | snoc {log : List ε} {s s' : σ} {e : ε} : Serial explains s₀ log s → explains s e s' →
      Serial explains s₀ (log ++ [e]) s'

/-- What every record keeps holds whenever one is made. -/
theorem Serial.invariant {explains : σ → ε → σ → Prop} {s₀ s : σ} {log : List ε}
    (Inv : σ → Prop) (hinit : Inv s₀)
    (hstep : ∀ e ∈ log, ∀ t t', Inv t → explains t e t' → Inv t')
    (h : Serial explains s₀ log s) :
    Inv s ∧ ∀ e ∈ log, ∃ t t', Inv t ∧ explains t e t' := by
  induction h with
  | nil => exact ⟨hinit, fun e he => absurd he List.not_mem_nil⟩
  | @snoc log t t' e _ he ih =>
    obtain ⟨ht, hlog⟩ := ih fun e' he' => hstep e' (List.mem_append_left _ he')
    refine ⟨hstep e (List.mem_append_right _ (List.mem_singleton_self e)) t t' ht he, ?_⟩
    refine List.forall_mem_append.mpr ⟨hlog, List.forall_mem_singleton.mpr ?_⟩
    exact ⟨t, t', ht, he⟩

/-- The shared state, the process inside with what it knew when it entered and what it knows now,
    and the records so far. -/
structure Shared (ι σ ℓ ε : Type*) where
  state : σ
  inside : Option (ι × ℓ × ℓ)
  log : List ε

/-- The records are explained, and the section that has begun goes on from there. -/
def Consistent (b : Body χ ℓ σ ρ) (explains : σ → ε → σ → Prop) (s₀ : σ)
    (d : Shared ι σ ℓ ε) : Prop :=
  ∃ s, Serial explains s₀ d.log s ∧
    match d.inside with
    | none => d.state = s
    | some (_, l₀, l) => b.Goes l₀ s l d.state

section Consistent

variable {b : Body χ ℓ σ ρ} {explains : σ → ε → σ → Prop} {s₀ : σ} {state : σ}
  {inside : Option (ι × ℓ × ℓ)} {log : List ε}

theorem consistent_init (b : Body χ ℓ σ ρ) (explains : σ → ε → σ → Prop) (s₀ : σ) :
    Consistent b explains s₀ (⟨s₀, none, []⟩ : Shared ι σ ℓ ε) := ⟨s₀, .nil, rfl⟩

/-- Something that does not touch the shared state may happen at any time. -/
theorem Consistent.record (h : Consistent b explains s₀ ⟨state, inside, log⟩) {e : ε}
    (he : ∀ s, explains s e s) : Consistent b explains s₀ ⟨state, inside, log ++ [e]⟩ := by
  obtain ⟨s, hserial, hinside⟩ := h
  exact ⟨s, hserial.snoc (he s), hinside⟩

theorem Consistent.enter (h : Consistent b explains s₀ (⟨state, none, log⟩ : Shared ι σ ℓ ε))
    (i : ι) (l : ℓ) : Consistent b explains s₀ ⟨state, some (i, l, l), log⟩ := by
  obtain ⟨s, hserial, hstate⟩ := h
  refine ⟨s, hserial, ?_⟩
  rw [show state = s from hstate]
  exact .refl

theorem Consistent.again {i : ι} {l₀ l l' : ℓ} {s' : σ} {c : χ}
    (h : Consistent b explains s₀ ⟨state, some (i, l₀, l), log⟩)
    (hb : b c l state = some (.again l', s')) :
    Consistent b explains s₀ ⟨s', some (i, l₀, l'), log⟩ := by
  obtain ⟨s, hserial, hgoes⟩ := h
  exact ⟨s, hserial, .tail c hgoes hb⟩

theorem Consistent.leave {i : ι} {l₀ l : ℓ} {s' : σ} {c : χ} {r : ρ} {e : ε}
    (h : Consistent b explains s₀ ⟨state, some (i, l₀, l), log⟩)
    (hb : b c l state = some (.leave r, s')) (he : ∀ s, b.Ends l₀ s r s' → explains s e s') :
    Consistent b explains s₀ (⟨s', none, log ++ [e]⟩ : Shared ι σ ℓ ε) := by
  obtain ⟨s, hserial, hgoes⟩ := h
  exact ⟨s', hserial.snoc (he s ⟨c, l, state, hgoes, hb⟩), rfl⟩

end Consistent

end Jz2440.Common
