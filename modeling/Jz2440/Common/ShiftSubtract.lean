import Mathlib.Tactic

/-!
# Division by shifting and subtracting

Division in base two finds the bits of the quotient from the highest one on: the
multiple `b * 2 ^ k` of the divisor is subtracted from what is left of the dividend if
it fits, and bit `k` of the quotient says whether it did.

* `DividedTo a b k q r`: the bits from `2 ^ k` on are done.
* `DividedTo.subtract`, `DividedTo.skip`: the next bit.
* `DividedTo.quotient`, `DividedTo.remainder`: after the last bit.
* `or_two_pow`: a bit that is still clear is set by `or`.
* `eq_two_pow_of_and_pred`: the usual test for a power of two.
-/

namespace Jz2440.Common

/-- `a` divided by `b` down to bit `k`: the quotient so far is `q`, and `r` is left over. -/
structure DividedTo (a b k q r : ℕ) : Prop where
  eq : q * b + r = a
  dvd : 2 ^ k ∣ q
  lt : r < b * 2 ^ k

variable {a b k q r : ℕ}

theorem DividedTo.start (h : a < b * 2 ^ k) : DividedTo a b k 0 a :=
  ⟨by rw [zero_mul, zero_add], dvd_zero _, h⟩

theorem DividedTo.subtract (h : DividedTo a b (k + 1) q r) (hle : b * 2 ^ k ≤ r) :
    DividedTo a b k (q + 2 ^ k) (r - b * 2 ^ k) where
  eq := by
    have heq := h.eq
    rw [add_mul, mul_comm (2 ^ k) b]
    omega
  dvd := dvd_add ((pow_dvd_pow 2 (Nat.le_succ k)).trans h.dvd) dvd_rfl
  lt := by
    have hlt := h.lt
    rw [pow_succ, ← mul_assoc] at hlt
    omega

theorem DividedTo.skip (h : DividedTo a b (k + 1) q r) (hlt : r < b * 2 ^ k) :
    DividedTo a b k q r :=
  ⟨h.eq, (pow_dvd_pow 2 (Nat.le_succ k)).trans h.dvd, hlt⟩

theorem DividedTo.quotient (h : DividedTo a b 0 q r) : q = a / b := by
  have hlt : r < b := by simpa using h.lt
  rw [← h.eq, mul_comm, Nat.mul_add_div (by omega), Nat.div_eq_of_lt hlt, add_zero]

theorem DividedTo.remainder (h : DividedTo a b 0 q r) : r = a % b := by
  have hlt : r < b := by simpa using h.lt
  rw [← h.eq, mul_comm, Nat.mul_add_mod, Nat.mod_eq_of_lt hlt]

/-- Nothing is left over: the bits still to be done are clear. -/
theorem DividedTo.of_zero (h : DividedTo a b k q 0) : DividedTo a b 0 q 0 := by
  have hpos : 0 < b := Nat.pos_of_mul_pos_right h.lt
  exact ⟨h.eq, by simp, by simpa using hpos⟩

theorem or_two_pow (h : 2 ^ (k + 1) ∣ q) : q ||| 2 ^ k = q + 2 ^ k := by
  obtain ⟨m, rfl⟩ := h
  exact (Nat.two_pow_add_eq_or_of_lt (Nat.pow_lt_pow_right (by decide) (Nat.lt_succ_self k)) m).symm

/-- Below the highest bit of `b` there is nothing: otherwise `b - 1` has that bit too. -/
theorem eq_two_pow_of_and_pred (hpos : 0 < b) (h : b &&& (b - 1) = 0) : b = 2 ^ b.log2 := by
  by_contra hne
  have hle : 2 ^ b.log2 ≤ b := Nat.log2_self_le hpos.ne'
  have hlt : b < 2 ^ (b.log2 + 1) := Nat.lt_log2_self
  have htop : b.testBit b.log2 = true :=
    Nat.testBit_of_two_pow_le_and_two_pow_add_one_gt hle hlt
  have hpred : (b - 1).testBit b.log2 = true :=
    Nat.testBit_of_two_pow_le_and_two_pow_add_one_gt (by omega) (by omega)
  have hand : (b &&& (b - 1)).testBit b.log2 = true := by
    rw [Nat.testBit_and, htop, hpred, Bool.and_true]
  rw [h, Nat.zero_testBit] at hand
  cases hand

end Jz2440.Common
