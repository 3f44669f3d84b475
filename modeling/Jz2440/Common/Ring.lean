import Mathlib.Tactic

/-!
# Circular buffers

A circular buffer of `N` cells with a read index `r` and a write index `w`. The
buffer is empty when `r = w`; so one cell always stays free, and the buffer is
full when the place after `w` is `r`.

`ringContents` is the list of the stored values. Storing a value at `w` and
advancing `w` appends it (`ringContents_push`); advancing `r` takes away the
value at `r` (`ringContents_pop`).
-/

namespace Jz2440.Common

variable {α : Type*}

/-- The place after `i`. -/
def ringNext (N i : ℕ) : ℕ := if i + 1 < N then i + 1 else 0

/-- The number of places from `r` to `w`. -/
def ringLen (N r w : ℕ) : ℕ := if r ≤ w then w - r else w + N - r

/-- The place `k` places after `r`. -/
def ringAt (N r k : ℕ) : ℕ := if r + k < N then r + k else r + k - N

/-- The values stored from `r` up to `w`. -/
def ringContents (N : ℕ) (cells : ℕ → α) (r w : ℕ) : List α :=
  (List.range (ringLen N r w)).map fun k => cells (ringAt N r k)

section Indices

variable {N r w : ℕ}

theorem ringNext_lt {i : ℕ} (hi : i < N) : ringNext N i < N := by
  unfold ringNext
  split_ifs <;> omega

theorem ringLen_self (N r : ℕ) : ringLen N r r = 0 := by
  unfold ringLen
  rw [if_pos (le_refl r), Nat.sub_self]

theorem ringLen_full_iff (hr : r < N) (hw : w < N) :
    ringLen N r w = N - 1 ↔ ringNext N w = r := by
  unfold ringLen ringNext
  split_ifs <;> omega

/-- Advancing `w` in a buffer that is not full makes room for one more value. -/
theorem ringLen_next_right (hr : r < N) (hw : w < N) (hfull : ringNext N w ≠ r) :
    ringLen N r (ringNext N w) = ringLen N r w + 1 := by
  unfold ringLen ringNext at *
  split_ifs at * <;> omega

theorem ringLen_next_left (hr : r < N) (hw : w < N) (hne : r ≠ w) :
    ringLen N r w = ringLen N (ringNext N r) w + 1 := by
  unfold ringLen ringNext
  split_ifs <;> omega

theorem ringAt_zero (hr : r < N) : ringAt N r 0 = r := by
  unfold ringAt
  split_ifs <;> omega

/-- The place after the last value is `w`, and none before it is. -/
theorem ringAt_eq_iff (hr : r < N) (hw : w < N) {k : ℕ} (hk : k ≤ ringLen N r w) :
    ringAt N r k = w ↔ k = ringLen N r w := by
  unfold ringAt ringLen at *
  split_ifs at * <;> omega

theorem ringAt_succ (hr : r < N) (hw : w < N) {k : ℕ} (hk : k < ringLen N (ringNext N r) w) :
    ringAt N r (k + 1) = ringAt N (ringNext N r) k := by
  unfold ringAt ringLen ringNext at *
  split_ifs at * <;> omega

end Indices

/-! ## Contents -/

section Contents

variable {N r w : ℕ} {cells : ℕ → α}

theorem ringContents_self (N : ℕ) (cells : ℕ → α) (r : ℕ) : ringContents N cells r r = [] := by
  unfold ringContents
  rw [ringLen_self]
  rfl

theorem length_ringContents : (ringContents N cells r w).length = ringLen N r w := by
  simp [ringContents]

/-- A value stored at `w` is appended to the contents. -/
theorem ringContents_push (hr : r < N) (hw : w < N) (hfull : ringNext N w ≠ r) (x : α) :
    ringContents N (Function.update cells w x) r (ringNext N w) =
      ringContents N cells r w ++ [x] := by
  unfold ringContents
  rw [ringLen_next_right hr hw hfull, List.range_succ, List.map_append]
  congr 1
  · -- the values stored before are not at `w`
    apply List.map_congr_left
    intro k hk
    rw [List.mem_range] at hk
    have hne : ringAt N r k ≠ w := by
      rw [Ne, ringAt_eq_iff hr hw (by omega)]
      omega
    exact Function.update_of_ne hne x cells
  · rw [List.map_singleton, (ringAt_eq_iff hr hw (le_refl _)).mpr rfl, Function.update_self]

/-- The value at `r` is the first of the contents. -/
theorem ringContents_pop (hr : r < N) (hw : w < N) (hne : r ≠ w) :
    ringContents N cells r w = cells r :: ringContents N cells (ringNext N r) w := by
  unfold ringContents
  rw [ringLen_next_left hr hw hne, List.range_succ_eq_map, List.map_cons, List.map_map,
    ringAt_zero hr]
  congr 1
  apply List.map_congr_left
  intro k hk
  show cells (ringAt N r (k + 1)) = cells (ringAt N (ringNext N r) k)
  rw [ringAt_succ hr hw (List.mem_range.mp hk)]

end Contents

end Jz2440.Common
