import Mathlib.Data.List.Basic

/-!
# Histories

A history lists what has happened, the latest event last.

* `After p q log`: something with `p` has happened and nothing with `q` since. It is
  the form in which "a request that was not served yet" or "a report that nobody has
  read yet" appear in invariants.
* `EachTime P log`: whenever something happened, `P` held of what had happened before.
* `lastRun p log`: how many of the latest events had `p`, without a gap.

`after_append`, `eachTime_append` and `lastRun_append` say how one more event changes them.
-/

namespace Jz2440.Common

variable {α : Type*}

/-- The history has an event with `p` and no event with `q` after it. -/
def After (p q : α → Prop) (log : List α) : Prop :=
  ∃ pre x post, log = pre ++ x :: post ∧ p x ∧ ∀ y ∈ post, ¬ q y

/-- For every event `x` of the history, `P` holds of the history before it and of `x`. -/
def EachTime (P : List α → α → Prop) (log : List α) : Prop :=
  ∀ pre x post, log = pre ++ x :: post → P pre x

/-- An event of `log ++ [e]` is the last one or an event of `log`. -/
theorem append_singleton_split {log front back : List α} {e x : α}
    (h : log ++ [e] = front ++ x :: back) :
    (log = front ∧ e = x) ∨ ∃ mid, back = mid ++ [e] ∧ log = front ++ x :: mid := by
  rcases List.append_eq_append_iff.mp h with ⟨as, hfront, hlast⟩ | ⟨bs, hlog, hback⟩
  · -- `x` is not before the end of `log`, so it is `e`
    cases as with
    | nil =>
      rw [List.append_nil] at hfront
      exact .inl ⟨hfront.symm, (List.cons.inj hlast).1⟩
    | cons a as =>
      have hlen := congrArg List.length hlast
      simp at hlen
  · cases bs with
    | nil =>
      rw [List.append_nil] at hlog
      exact .inl ⟨hlog, (List.cons.inj hback).1.symm⟩
    | cons b bs =>
      obtain ⟨rfl, hback'⟩ := List.cons.inj hback
      exact .inr ⟨bs, hback', hlog⟩

theorem not_after_nil (p q : α → Prop) : ¬ After p q [] := by
  rintro ⟨pre, x, post, h, -⟩
  exact absurd h.symm (List.append_ne_nil_of_right_ne_nil pre (List.cons_ne_nil x post))

theorem after_append (p q : α → Prop) (log : List α) (e : α) :
    After p q (log ++ [e]) ↔ p e ∨ (¬ q e ∧ After p q log) := by
  constructor
  · rintro ⟨pre, x, post, hlog, hx, hpost⟩
    rcases append_singleton_split hlog with ⟨-, rfl⟩ | ⟨post', rfl, hlog'⟩
    · exact .inl hx
    · obtain ⟨hpost', he⟩ := List.forall_mem_append.mp hpost
      exact .inr ⟨he e (List.mem_singleton_self e), pre, x, post', hlog', hx, hpost'⟩
  · rintro (he | ⟨he, pre, x, post, rfl, hx, hpost⟩)
    · exact ⟨log, e, [], rfl, he, fun y hy => absurd hy List.not_mem_nil⟩
    · refine ⟨pre, x, post ++ [e], by simp, hx, List.forall_mem_append.mpr ⟨hpost, ?_⟩⟩
      exact List.forall_mem_singleton.mpr he

theorem eachTime_nil (P : List α → α → Prop) : EachTime P [] := fun pre x post h =>
  absurd h.symm (List.append_ne_nil_of_right_ne_nil pre (List.cons_ne_nil x post))

theorem eachTime_append (P : List α → α → Prop) (log : List α) (e : α) :
    EachTime P (log ++ [e]) ↔ EachTime P log ∧ P log e := by
  constructor
  · intro h
    refine ⟨fun pre x post hlog => h pre x (post ++ [e]) ?_, h log e [] rfl⟩
    rw [hlog, List.append_assoc, List.cons_append]
  · rintro ⟨h, he⟩ pre x post hlog
    rcases append_singleton_split hlog with ⟨rfl, rfl⟩ | ⟨post', -, hlog'⟩
    · exact he
    · exact h pre x post' hlog'

theorem EachTime.left {P : List α → α → Prop} {log log' : List α} (h : EachTime P (log ++ log')) :
    EachTime P log := by
  intro pre x post hlog
  apply h pre x (post ++ log')
  rw [hlog, List.append_assoc, List.cons_append]

/-- The number of events with `p` at the end of the history. -/
def lastRun (p : α → Bool) (log : List α) : ℕ := (log.reverse.takeWhile p).length

theorem lastRun_append (p : α → Bool) (log : List α) (e : α) :
    lastRun p (log ++ [e]) = if p e then lastRun p log + 1 else 0 := by
  unfold lastRun
  rw [List.reverse_append, List.reverse_singleton, List.singleton_append, List.takeWhile_cons]
  split_ifs
  · exact List.length_cons
  · rfl

/-- Events with `p` prolong the run. -/
theorem lastRun_append_of_forall {p : α → Bool} {more : List α} (h : ∀ e ∈ more, p e = true)
    (log : List α) : lastRun p (log ++ more) = lastRun p log + more.length := by
  induction more generalizing log with
  | nil => rw [List.append_nil, List.length_nil, Nat.add_zero]
  | cons e more ih =>
    obtain ⟨he, hmore⟩ := List.forall_mem_cons.mp h
    rw [List.append_cons, ih hmore, lastRun_append, if_pos he, List.length_cons]
    omega

end Jz2440.Common
