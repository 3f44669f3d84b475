import Mathlib.Tactic

/-!
# Ones' complement checksums

The checksum of the Internet protocols: 16-bit words are added with the carry added back in at
the low end, and the complement of the sum is stored among the words.

* `onesAdd_assoc`, `onesAdd_comm`: the sum does not depend on the order of the words.
* `onesSum_checksum`: with the checksum stored in the place of a zero the sum is `0xffff`, which
  is what a receiver checks.
-/

namespace Jz2440.Common

/-- Addition with the carry added back in. -/
def onesAdd (a b : BitVec 16) : BitVec 16 :=
  BitVec.ofNat 16 (if a.toNat + b.toNat < 2 ^ 16 then a.toNat + b.toNat
    else a.toNat + b.toNat - (2 ^ 16 - 1))

/-- The ones' complement sum. -/
def onesSum (words : List (BitVec 16)) : BitVec 16 := words.foldr onesAdd 0

theorem toNat_onesAdd (a b : BitVec 16) :
    (onesAdd a b).toNat = if a.toNat + b.toNat < 2 ^ 16 then a.toNat + b.toNat
      else a.toNat + b.toNat - (2 ^ 16 - 1) := by
  have ha := a.isLt
  have hb := b.isLt
  rw [onesAdd, BitVec.toNat_ofNat]
  exact Nat.mod_eq_of_lt (by split_ifs <;> omega)

theorem onesAdd_comm (a b : BitVec 16) : onesAdd a b = onesAdd b a := by
  unfold onesAdd
  rw [Nat.add_comm]

theorem onesAdd_assoc (a b c : BitVec 16) :
    onesAdd (onesAdd a b) c = onesAdd a (onesAdd b c) := by
  have ha := a.isLt
  have hb := b.isLt
  have hc := c.isLt
  apply BitVec.eq_of_toNat_eq
  simp only [toNat_onesAdd]
  split_ifs <;> omega

/-- A number and its complement. -/
theorem onesAdd_not (a : BitVec 16) : onesAdd (~~~a) a = 0xffff := by
  have ha := a.isLt
  apply BitVec.eq_of_toNat_eq
  rw [toNat_onesAdd, BitVec.toNat_not, if_pos (by omega)]
  show _ = 65535
  omega

/-- A word of the list can be added last. -/
theorem onesSum_append_cons (pre : List (BitVec 16)) (w : BitVec 16) (post : List (BitVec 16)) :
    onesSum (pre ++ w :: post) = onesAdd w (onesSum (pre ++ post)) := by
  induction pre with
  | nil => rfl
  | cons x pre ih =>
    show onesAdd x (onesSum (pre ++ w :: post)) = onesAdd w (onesAdd x (onesSum (pre ++ post)))
    rw [ih, ← onesAdd_assoc, onesAdd_comm x w, onesAdd_assoc]

theorem onesAdd_zero (a : BitVec 16) : onesAdd 0 a = a := by
  have ha := a.isLt
  apply BitVec.eq_of_toNat_eq
  have hzero : (0 : BitVec 16).toNat = 0 := rfl
  rw [toNat_onesAdd, hzero, Nat.zero_add, if_pos ha]

/-- The sum of words among which is their own checksum. -/
theorem onesSum_checksum (pre post : List (BitVec 16)) :
    onesSum (pre ++ ~~~onesSum (pre ++ 0 :: post) :: post) = 0xffff := by
  rw [onesSum_append_cons, onesSum_append_cons, onesAdd_zero, onesAdd_not]

end Jz2440.Common
