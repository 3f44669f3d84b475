import Mathlib.Tactic

/-!
# Bit fields of a word

A field of a word is a range of its bits. A word that is put together from fields is
determined by them and by the fact that it has no other bits.

* `BitField.get_eq_iff`: two words agree in a field iff they agree in its bits.
* `BitField.get_or_left`, `BitField.get_or_right`: a field of `x ||| y` if the bits of the other
  word are elsewhere.
* `OnlyIn.or`, `OnlyIn.eq_of_get`: words with bits in given fields only.
-/

namespace Jz2440.Common

/-- A field of a word of `w` bits. -/
structure BitField (w : ℕ) where
  offset : ℕ
  length : ℕ
  inside : offset + length ≤ w

variable {w : ℕ}

namespace BitField

/-- Bit `i` belongs to the field. -/
def Has (f : BitField w) (i : ℕ) : Prop := f.offset ≤ i ∧ i < f.offset + f.length

instance (f : BitField w) (i : ℕ) : Decidable (f.Has i) := inferInstanceAs (Decidable (_ ∧ _))

/-- No bit belongs to both fields. -/
def Apart (f g : BitField w) : Prop := ∀ i, f.Has i → ¬ g.Has i

/-- The contents of the field. -/
def get (f : BitField w) (x : BitVec w) : BitVec f.length := x.extractLsb' f.offset f.length

theorem Apart.symm {f g : BitField w} (h : f.Apart g) : g.Apart f := fun i hg hf => h i hf hg

theorem apart_of_le {f g : BitField w} (h : f.offset + f.length ≤ g.offset) : f.Apart g := by
  intro i hf hg
  have := hf.2
  have := hg.1
  omega

theorem getLsbD_get (f : BitField w) (x : BitVec w) {j : ℕ} (hj : j < f.length) :
    (f.get x).getLsbD j = x.getLsbD (f.offset + j) := by
  rw [get, BitVec.getLsbD_extractLsb', decide_eq_true hj, Bool.true_and]

theorem get_eq_iff {f : BitField w} {x y : BitVec w} :
    f.get x = f.get y ↔ ∀ i, f.Has i → x.getLsbD i = y.getLsbD i := by
  constructor
  · rintro h i ⟨hle, hlt⟩
    obtain ⟨j, rfl⟩ := Nat.exists_eq_add_of_le hle
    rw [← getLsbD_get f x (by omega), ← getLsbD_get f y (by omega), h]
  · intro h
    apply BitVec.eq_of_getLsbD_eq
    intro j hj
    rw [getLsbD_get f x hj, getLsbD_get f y hj]
    exact h _ ⟨Nat.le_add_right _ _, by omega⟩

end BitField

/-! ## Words with bits in given fields only -/

/-- Every bit of the word that is set belongs to one of the fields. -/
def OnlyIn (fs : List (BitField w)) (x : BitVec w) : Prop :=
  ∀ i, x.getLsbD i = true → ∃ f ∈ fs, f.Has i

section OnlyIn

variable {fs gs : List (BitField w)} {x y : BitVec w}

theorem OnlyIn.getLsbD_eq_false (h : OnlyIn fs x) {i : ℕ} (hi : ∀ f ∈ fs, ¬ f.Has i) :
    x.getLsbD i = false := by
  rw [← Bool.not_eq_true]
  intro hbit
  obtain ⟨f, hf, hhas⟩ := h i hbit
  exact hi f hf hhas

theorem OnlyIn.or (hx : OnlyIn fs x) (hy : OnlyIn gs y) : OnlyIn (fs ++ gs) (x ||| y) := by
  intro i hi
  rw [BitVec.getLsbD_or, Bool.or_eq_true] at hi
  rcases hi with hi | hi
  · obtain ⟨f, hf, hhas⟩ := hx i hi
    exact ⟨f, List.mem_append_left gs hf, hhas⟩
  · obtain ⟨g, hg, hhas⟩ := hy i hi
    exact ⟨g, List.mem_append_right fs hg, hhas⟩

/-- The contents of the fields determine the word. -/
theorem OnlyIn.eq_of_get (hx : OnlyIn fs x) (hy : OnlyIn fs y) (h : ∀ f ∈ fs, f.get x = f.get y) :
    x = y := by
  apply BitVec.eq_of_getLsbD_eq
  intro i _
  by_cases hi : ∃ f ∈ fs, f.Has i
  · obtain ⟨f, hf, hhas⟩ := hi
    exact BitField.get_eq_iff.mp (h f hf) i hhas
  · have hnone : ∀ f ∈ fs, ¬ f.Has i := fun f hf hhas => hi ⟨f, hf, hhas⟩
    rw [hx.getLsbD_eq_false hnone, hy.getLsbD_eq_false hnone]

theorem BitField.get_or_left {f : BitField w} (x : BitVec w) (hy : OnlyIn gs y)
    (h : ∀ g ∈ gs, f.Apart g) : f.get (x ||| y) = f.get x := by
  refine get_eq_iff.mpr fun i hi => ?_
  rw [BitVec.getLsbD_or, hy.getLsbD_eq_false fun g hg => h g hg i hi, Bool.or_false]

theorem BitField.get_or_right {f : BitField w} (hx : OnlyIn fs x) (y : BitVec w)
    (h : ∀ g ∈ fs, f.Apart g) : f.get (x ||| y) = f.get y := by
  rw [BitVec.or_comm]
  exact get_or_left y hx h

end OnlyIn

end Jz2440.Common
