import Mathlib.Tactic

/-!
# Bytes and memory

An `unsigned char` is a `BitVec 8`. A buffer that C code reaches through a
pointer is a function from offsets to bytes, so that accesses below and beyond
the buffer are visible too; one store is `Function.update`.

* `and_bit_ne_zero_iff`, `and_bit_ne_iff`: the tests of one bit.
-/

namespace Jz2440.Common

/-- `unsigned char`. -/
abbrev Byte := BitVec 8

/-- The value of an `unsigned int` register. -/
abbrev Word := BitVec 32

/-! ## Masks of one bit -/

section Bits

variable {w : ℕ} (x y : BitVec w) {i : ℕ}

theorem and_bit (i : ℕ) : x &&& (1#w <<< i) = if x.getLsbD i then 1#w <<< i else 0#w :=
  BitVec.and_twoPow x i

theorem bit_ne_zero (hi : i < w) : 1#w <<< i ≠ 0#w := by
  intro hzero
  have hbit : (1#w <<< i).getLsbD i = false := by rw [hzero, BitVec.getLsbD_zero]
  rw [BitVec.getLsbD_shiftLeft, Nat.sub_self, BitVec.getLsbD_one] at hbit
  simp [hi, Nat.zero_lt_of_lt hi] at hbit

theorem and_bit_ne_zero_iff (hi : i < w) : x &&& (1#w <<< i) ≠ 0#w ↔ x.getLsbD i = true := by
  have hne := bit_ne_zero hi
  rw [and_bit]
  cases x.getLsbD i <;> simp [hne]

theorem and_bit_ne_iff (hi : i < w) :
    x &&& (1#w <<< i) ≠ y &&& (1#w <<< i) ↔ x.getLsbD i ≠ y.getLsbD i := by
  have hne := bit_ne_zero hi
  rw [and_bit, and_bit]
  cases x.getLsbD i <;> cases y.getLsbD i <;> simp [hne, hne.symm]

end Bits

end Jz2440.Common
