import Mathlib.Data.Nat.ModEq
import Mathlib.Tactic

/-!
# Slots that are handed on in turn

`n` slots go round between two parties. Handovers are numbered: number `i` is that of slot
`i % n`. Of those made, the numbers below `r` have come back, so the slots of `r`, …, `w - 1` are
with the other party, `slots n r w` in order.

Two numbers that are less than `n` apart have different slots; so `mod_mem_slots` tells from the
numbers alone who has a slot. `slots_push` and `slots_pop` are one more handover and one more
return.
-/

namespace Jz2440.Common

/-- The slots of the numbers from `r` up to `w`. -/
def slots (n r w : ℕ) : List ℕ := (List.range' r (w - r)).map (· % n)

variable {n r w : ℕ}

theorem slots_self (n r : ℕ) : slots n r r = [] := by
  rw [slots, Nat.sub_self]
  rfl

theorem slots_push (n : ℕ) (h : r ≤ w) : slots n r (w + 1) = slots n r w ++ [w % n] := by
  rw [slots, Nat.succ_sub h, List.range'_1_concat, List.map_append, Nat.add_sub_cancel' h]
  rfl

theorem slots_pop (n : ℕ) (h : r < w) : slots n r w = r % n :: slots n (r + 1) w := by
  obtain ⟨k, rfl⟩ := Nat.exists_eq_add_of_lt h
  rw [slots, slots, show r + k + 1 - r = k + 1 by omega, List.range'_succ, List.map_cons,
    show r + k + 1 - (r + 1) = k by omega]

/-- Among `n` numbers in a row, a slot is with the other party if its number is. -/
theorem mod_mem_slots {a i : ℕ} (har : a ≤ r) (hw : w ≤ a + n) (hi : a ≤ i ∧ i < a + n) :
    i % n ∈ slots n r w ↔ r ≤ i ∧ i < w := by
  rw [slots, List.mem_map]
  constructor
  · rintro ⟨j, hj, hmod⟩
    rw [List.mem_range'_1] at hj
    have hj' : j ∈ Finset.Ico a (a + n) := Finset.mem_Ico.mpr (by omega)
    have hij : j = i := Nat.mod_injOn_Ico a n hj' (Finset.mem_Ico.mpr hi) hmod
    omega
  · rintro ⟨hri, hiw⟩
    exact ⟨i, List.mem_range'_1.mpr (by omega), rfl⟩

/-- The next slot is with the other party only if all are. -/
theorem next_mem_slots (hn : 0 < n) (hrw : r ≤ w) (hw : w ≤ r + n) :
    w % n ∈ slots n r w ↔ w = r + n := by
  obtain hlt | rfl := hw.lt_or_eq
  · rw [mod_mem_slots le_rfl hw ⟨hrw, hlt⟩]
    omega
  · rw [Nat.add_mod_right, mod_mem_slots le_rfl le_rfl (by omega)]
    omega

/-- The slots do not change when all numbers grow by a round. -/
theorem slots_mod (n w d : ℕ) : slots n (w % n) (w % n + d) = slots n w (w + d) := by
  rw [slots, slots, Nat.add_sub_cancel_left, Nat.add_sub_cancel_left, List.range'_eq_map_range,
    List.range'_eq_map_range, List.map_map, List.map_map]
  exact List.map_congr_left fun k _ => Nat.mod_add_mod w n k

/-- The slot after that of number `i`. -/
theorem succ_mod_slot (n i : ℕ) : (i % n + 1) % n = (i + 1) % n := by
  rw [Nat.mod_add_mod]

/-- The slot before that of number `i + 1`. -/
theorem pred_mod_slot (hn : 0 < n) (i : ℕ) : (n + (i + 1) % n - 1) % n = i % n := by
  have h : n + (i + 1) % n - 1 ≡ i [MOD n] := by
    apply Nat.ModEq.add_right_cancel' 1
    rw [Nat.sub_add_cancel (by omega), Nat.ModEq, Nat.add_mod_left, Nat.mod_mod]
  exact h

end Jz2440.Common
