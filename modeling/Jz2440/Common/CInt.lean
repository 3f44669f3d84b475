import Mathlib.Tactic

/-!
# The type `int`

An `int` is an `Int32`; its operations wrap around. Code that does not overflow is
reasoned about in the integers: each lemma here turns an operation into the one on
integers, for results in the range of the type.
-/

namespace Jz2440.Common

/-- The range of `int`. -/
def InInt (n : ℤ) : Prop := -2 ^ 31 ≤ n ∧ n < 2 ^ 31

instance (n : ℤ) : Decidable (InInt n) := inferInstanceAs (Decidable (_ ∧ _))

theorem inInt_toInt (a : Int32) : InInt a.toInt := ⟨a.le_toInt, a.toInt_lt⟩

theorem bmod_of_inInt {n : ℤ} (h : InInt n) : n.bmod (2 ^ 32) = n :=
  Int.bmod_eq_of_le h.1 h.2

theorem toInt_add_of_inInt {a b : Int32} (h : InInt (a.toInt + b.toInt)) :
    (a + b).toInt = a.toInt + b.toInt := by
  rw [Int32.toInt_add, bmod_of_inInt h]

theorem toInt_sub_of_inInt {a b : Int32} (h : InInt (a.toInt - b.toInt)) :
    (a - b).toInt = a.toInt - b.toInt := by
  rw [Int32.toInt_sub, bmod_of_inInt h]

theorem toInt_mul_of_inInt {a b : Int32} (h : InInt (a.toInt * b.toInt)) :
    (a * b).toInt = a.toInt * b.toInt := by
  rw [Int32.toInt_mul, bmod_of_inInt h]

theorem toInt_add_ofNat {a : Int32} {k : ℕ} (hk : k < 2 ^ 31) (h : a.toInt + k < 2 ^ 31) :
    (a + .ofNat k).toInt = a.toInt + k := by
  have ha := (inInt_toInt a).1
  have hof := Int32.toInt_ofNat_of_lt hk
  rw [toInt_add_of_inInt, hof]
  rw [hof]
  exact ⟨by omega, h⟩

end Jz2440.Common
