import Mathlib.Logic.Basic

/-!
# Programs that talk to a device

A `Prog` is a program whose only effects are requests to its environment: it is
the tree of its requests and of what it does with each answer. A `Handler` answers
the requests and has a state of its own, so one program can be run against
several environments, and two environments are compared for all programs at once.

* `Prog.run_stable`: what no request ends holds after every run.
* `Prog.run_sim`: two handlers that answer alike give every program the same
  result, as long as the second one has not failed.
* `Prog.run_refines`: the same for handlers that do not fail.
* `Prog.Only.run_refines`: the same for programs that make some of the requests only.
-/

namespace Jz2440.Common

/-- A program with requests `r : ρ`, which are answered by a value of type `ans r`. -/
inductive Prog (ρ : Type) (ans : ρ → Type) (α : Type) : Type
  | done (a : α)
  | call (r : ρ) (next : ans r → Prog ρ ans α)

namespace Prog

variable {ρ : Type} {ans : ρ → Type} {α β σ τ : Type}

/-- Run `p`, then the program that `f` makes of its result. -/
def bind : Prog ρ ans α → (α → Prog ρ ans β) → Prog ρ ans β
  | done a, f => f a
  | call r next, f => call r fun x => (next x).bind f

instance : Monad (Prog ρ ans) where
  pure := done
  bind := bind

/-- The program that makes one request and returns the answer. -/
def request (r : ρ) : Prog ρ ans (ans r) := call r done

/-- How an environment answers a request and what becomes of its state. -/
abbrev Handler (ρ : Type) (ans : ρ → Type) (σ : Type) := (r : ρ) → σ → ans r × σ

/-- The result of a program and the state of the environment afterwards. -/
def run (h : Handler ρ ans σ) : Prog ρ ans α → σ → α × σ
  | done a, s => (a, s)
  | call r next, s => (next (h r s).1).run h (h r s).2

@[simp] theorem run_pure (h : Handler ρ ans σ) (a : α) (s : σ) :
    (pure a : Prog ρ ans α).run h s = (a, s) := rfl

@[simp] theorem run_request (h : Handler ρ ans σ) (r : ρ) (s : σ) :
    (request r).run h s = h r s := rfl

@[simp] theorem run_bind (h : Handler ρ ans σ) (p : Prog ρ ans α) (f : α → Prog ρ ans β) (s : σ) :
    (p >>= f).run h s = (f (p.run h s).1).run h (p.run h s).2 := by
  show (p.bind f).run h s = _
  induction p generalizing s with
  | done a => rfl
  | call r next ih => exact ih (h r s).1 (h r s).2

theorem run_stable {h : Handler ρ ans σ} {F : σ → Prop} (hF : ∀ r s, F s → F (h r s).2)
    (p : Prog ρ ans α) {s : σ} (hs : F s) : F (p.run h s).2 := by
  induction p generalizing s with
  | done a => exact hs
  | call r next ih => exact ih _ (hF r s hs)

/-- If every request keeps `R` with equal answers or makes the second side fail, and a
    failure is for ever, then so does every program. -/
theorem run_sim {h₁ : Handler ρ ans σ} {h₂ : Handler ρ ans τ} {R : σ → τ → Prop}
    {F : τ → Prop} (hF : ∀ r t, F t → F (h₂ r t).2)
    (hstep : ∀ r s t, R s t → (R (h₁ r s).2 (h₂ r t).2 ∧ (h₁ r s).1 = (h₂ r t).1) ∨ F (h₂ r t).2)
    (p : Prog ρ ans α) {s : σ} {t : τ} (hst : R s t) :
    (R (p.run h₁ s).2 (p.run h₂ t).2 ∧ (p.run h₁ s).1 = (p.run h₂ t).1) ∨ F (p.run h₂ t).2 := by
  induction p generalizing s t with
  | done a => exact .inl ⟨hst, rfl⟩
  | call r next ih =>
    simp only [run]
    rcases hstep r s t hst with ⟨hR, hans⟩ | ht
    · rw [← hans]
      exact ih _ hR
    · exact .inr (run_stable hF _ ht)

theorem run_refines {h₁ : Handler ρ ans σ} {h₂ : Handler ρ ans τ} {R : σ → τ → Prop}
    (hstep : ∀ r s t, R s t → R (h₁ r s).2 (h₂ r t).2 ∧ (h₁ r s).1 = (h₂ r t).1)
    (p : Prog ρ ans α) {s : σ} {t : τ} (hst : R s t) :
    R (p.run h₁ s).2 (p.run h₂ t).2 ∧ (p.run h₁ s).1 = (p.run h₂ t).1 := by
  have hrun := run_sim (fun _ _ (h : False) => h) (fun r s t hst => .inl (hstep r s t hst)) p hst
  exact hrun.resolve_right id

/-! ## Programs that make some requests only -/

/-- All requests of the program satisfy `ok`, whatever the answers to the earlier ones are. -/
def Only (ok : ρ → Prop) : Prog ρ ans α → Prop
  | done _ => True
  | call r next => ok r ∧ ∀ x, (next x).Only ok

variable {ok : ρ → Prop}

theorem only_pure (a : α) : (pure a : Prog ρ ans α).Only ok := trivial

theorem only_request {r : ρ} (hr : ok r) : (request r : Prog ρ ans (ans r)).Only ok :=
  ⟨hr, fun _ => trivial⟩

theorem Only.bind {p : Prog ρ ans α} {f : α → Prog ρ ans β} (hp : p.Only ok)
    (hf : ∀ a, (f a).Only ok) : (p >>= f).Only ok := by
  show (p.bind f).Only ok
  induction p with
  | done a => exact hf a
  | call r next ih => exact ⟨hp.1, fun x => ih x (hp.2 x)⟩

/-- Two handlers need to agree on the requests that the program makes. -/
theorem Only.run_refines {p : Prog ρ ans α} (hp : p.Only ok) (h₁ : Handler ρ ans σ)
    (h₂ : Handler ρ ans τ) (R : σ → τ → Prop)
    (hstep : ∀ r s t, ok r → R s t → R (h₁ r s).2 (h₂ r t).2 ∧ (h₁ r s).1 = (h₂ r t).1)
    {s : σ} {t : τ} (hst : R s t) :
    R (p.run h₁ s).2 (p.run h₂ t).2 ∧ (p.run h₁ s).1 = (p.run h₂ t).1 := by
  induction p generalizing s t with
  | done a => exact ⟨hst, rfl⟩
  | call r next ih =>
    obtain ⟨hR, hans⟩ := hstep r s t hp.1 hst
    simp only [run]
    rw [← hans]
    exact ih _ (hp.2 _) hR

end Prog

end Jz2440.Common
