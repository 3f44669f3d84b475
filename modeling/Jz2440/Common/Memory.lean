import Jz2440.Common.Bytes

/-!
# Byte memory with little-endian words

A memory is a function from byte addresses to bytes. Everything that code stores
with one assignment or one copying loop is a range of bytes: `storeRange m a n f`
is the memory after `f 0, …, f (n - 1)` were stored from address `a` on. A word is
the range of its four bytes, least significant byte first.

* `storeRange_succ`, `storeRange_append`: a loop that stores byte by byte, or piece
  by piece, builds up one range.
* `foldl_storeTile_congr`: tiles of equal size may be filled in any order.
* `loadWord_storeWord_self`, `loadWord_storeWord_of_disjoint`,
  `loadWord_storeRange_of_disjoint`: what a word load sees of a store.
-/

namespace Jz2440.Common

/-- A memory by byte addresses. -/
abbrev Mem := ℕ → Byte

/-- The memory after the bytes `f 0, …, f (n - 1)` were stored from `a` on. -/
def storeRange (m : Mem) (a n : ℕ) (f : ℕ → Byte) : Mem :=
  fun x => if a ≤ x ∧ x < a + n then f (x - a) else m x

/-- Byte `i` of a word, counted from the least significant one. -/
def byteOf (w : Word) (i : ℕ) : Byte := w.extractLsb' (8 * i) 8

/-- The word at `a`. -/
def loadWord (m : Mem) (a : ℕ) : Word := m (a + 3) ++ m (a + 2) ++ m (a + 1) ++ m a

/-- The memory after the word `w` was stored at `a`. -/
def storeWord (m : Mem) (a : ℕ) (w : Word) : Mem := storeRange m a 4 (byteOf w)

variable {m m' : Mem} {a b n : ℕ} {f : ℕ → Byte}

/-! ## Ranges -/

theorem storeRange_at (m : Mem) (a : ℕ) (f : ℕ → Byte) {k : ℕ} (hk : k < n) :
    storeRange m a n f (a + k) = f k := by
  rw [storeRange, if_pos (by omega), Nat.add_sub_cancel_left]

theorem storeRange_of_disjoint (m : Mem) (f : ℕ → Byte) {x : ℕ} (hx : x < a ∨ a + n ≤ x) :
    storeRange m a n f x = m x := by
  rw [storeRange, if_neg (by omega)]

theorem storeRange_zero (m : Mem) (a : ℕ) (f : ℕ → Byte) : storeRange m a 0 f = m := by
  funext x
  exact storeRange_of_disjoint m f (by omega)

/-- Only the bytes that are stored matter. -/
theorem storeRange_congr {g : ℕ → Byte} (m : Mem) (a : ℕ) (h : ∀ k < n, f k = g k) :
    storeRange m a n f = storeRange m a n g := by
  funext x
  unfold storeRange
  split_ifs with hx
  · exact h _ (by omega)
  · rfl

/-- Two ranges, one after the other. -/
theorem storeRange_append (m : Mem) (a n k : ℕ) (f : ℕ → Byte) :
    storeRange (storeRange m a n f) (a + n) k (fun j => f (n + j)) =
      storeRange m a (n + k) f := by
  funext x
  by_cases hx : a + n ≤ x ∧ x < a + n + k
  · obtain ⟨j, rfl⟩ := Nat.exists_eq_add_of_le hx.1
    rw [storeRange_at _ _ _ (by omega), Nat.add_assoc, storeRange_at _ _ _ (by omega)]
  · rw [storeRange_of_disjoint _ _ (by omega)]
    by_cases hx' : a ≤ x ∧ x < a + n
    · obtain ⟨j, rfl⟩ := Nat.exists_eq_add_of_le hx'.1
      rw [storeRange_at _ _ _ (by omega), storeRange_at _ _ _ (by omega)]
    · rw [storeRange_of_disjoint _ _ (by omega), storeRange_of_disjoint _ _ (by omega)]

/-- One more byte at the end. -/
theorem storeRange_succ (m : Mem) (a n : ℕ) (f : ℕ → Byte) :
    Function.update (storeRange m a n f) (a + n) (f n) = storeRange m a (n + 1) f := by
  funext x
  by_cases hx : x = a + n
  · rw [hx, Function.update_self, storeRange_at _ _ _ (Nat.lt_succ_self n)]
  · rw [Function.update_of_ne hx, ← storeRange_append m a n 1 f]
    exact (storeRange_of_disjoint _ _ (by omega)).symm

/-! ## Tiles -/

/-- The memory after tile `i` was filled, of the tiles of `w` bytes from `a` on. -/
def storeTile (a w : ℕ) (f : ℕ → Byte) (m : Mem) (i : ℕ) : Mem := storeRange m (a + i * w) w f

/-- A tile is the addresses with the same quotient. -/
theorem storeTile_apply {w : ℕ} (hw : 0 < w) (m : Mem) (a : ℕ) (f : ℕ → Byte) (i x : ℕ) :
    storeTile a w f m i x = if a ≤ x ∧ (x - a) / w = i then f ((x - a) % w) else m x := by
  rw [storeTile]
  by_cases hx : a ≤ x ∧ (x - a) / w = i
  · obtain ⟨hle, rfl⟩ := hx
    have hdiv := Nat.div_add_mod' (x - a) w
    rw [if_pos ⟨hle, rfl⟩, ← storeRange_at m (a + (x - a) / w * w) f (Nat.mod_lt (x - a) hw)]
    congr 1
    omega
  · rw [if_neg hx, storeRange_of_disjoint]
    by_contra hin
    apply hx
    refine ⟨by omega, (Nat.div_eq_iff hw).mpr ⟨by omega, by omega⟩⟩

/-- After all tiles of a list were filled it only matters which ones are in it. -/
theorem foldl_storeTile_apply {w : ℕ} (hw : 0 < w) (m : Mem) (a : ℕ) (f : ℕ → Byte) (l : List ℕ)
    (x : ℕ) : l.foldl (storeTile a w f) m x =
      if a ≤ x ∧ (x - a) / w ∈ l then f ((x - a) % w) else m x := by
  induction l generalizing m with
  | nil => simp
  | cons i l ih =>
    rw [List.foldl_cons, ih, storeTile_apply hw]
    by_cases hle : a ≤ x
    · simp only [hle, true_and, List.mem_cons]
      split_ifs <;> simp_all
    · simp only [hle, false_and, if_false]

theorem foldl_storeTile_congr {w : ℕ} (hw : 0 < w) (m : Mem) (a : ℕ) (f : ℕ → Byte)
    {l l' : List ℕ} (h : ∀ i, i ∈ l ↔ i ∈ l') :
    l.foldl (storeTile a w f) m = l'.foldl (storeTile a w f) m := by
  funext x
  simp only [foldl_storeTile_apply hw, h]

/-! ## Words -/

theorem loadWord_congr (h : ∀ k < 4, m (a + k) = m' (b + k)) : loadWord m a = loadWord m' b := by
  have h0 := h 0 (by omega)
  rw [Nat.add_zero, Nat.add_zero] at h0
  simp only [loadWord, h0, h 1 (by omega), h 2 (by omega), h 3 (by omega)]

/-- A word is put together from its bytes. -/
theorem byteOf_append (w : Word) :
    (byteOf w 3 ++ byteOf w 2 ++ byteOf w 1 ++ byteOf w 0 : Word) = w := by
  ext i hi
  simp only [byteOf, BitVec.getElem_append, BitVec.getElem_extractLsb']
  split_ifs <;> rw [← BitVec.getLsbD_eq_getElem hi] <;> congr 1 <;> omega

theorem byteOf_loadWord (m : Mem) (a : ℕ) {k : ℕ} (hk : k < 4) :
    byteOf (loadWord m a) k = m (a + k) := by
  ext i hi
  rw [byteOf, loadWord, BitVec.getElem_extractLsb', ← BitVec.getLsbD_eq_getElem hi]
  simp only [BitVec.getLsbD_append]
  -- bit `8 * k + i` of the word is bit `i` of the byte `k`
  obtain rfl | rfl | rfl | rfl : k = 0 ∨ k = 1 ∨ k = 2 ∨ k = 3 := by omega
  · rw [if_pos (by omega), Nat.mul_zero, Nat.zero_add, Nat.add_zero]
  · rw [if_neg (by omega), if_pos (by omega), Nat.mul_one, Nat.add_sub_cancel_left]
  · rw [if_neg (by omega), if_neg (by omega), if_pos (by omega)]
    congr 1
    omega
  · rw [if_neg (by omega), if_neg (by omega), if_neg (by omega)]
    congr 1
    omega

theorem loadWord_storeWord_self (m : Mem) (a : ℕ) (w : Word) :
    loadWord (storeWord m a w) a = w := by
  have hbyte : ∀ k < 4, storeWord m a w (a + k) = byteOf w k := fun k hk =>
    storeRange_at m a (byteOf w) hk
  have h0 := hbyte 0 (by omega)
  rw [Nat.add_zero] at h0
  rw [loadWord, h0, hbyte 1 (by omega), hbyte 2 (by omega), hbyte 3 (by omega), byteOf_append]

theorem loadWord_storeRange_of_disjoint (m : Mem) (f : ℕ → Byte) (h : b + 4 ≤ a ∨ a + n ≤ b) :
    loadWord (storeRange m a n f) b = loadWord m b :=
  loadWord_congr fun _ _ => storeRange_of_disjoint m f (by omega)

theorem loadWord_storeWord_of_disjoint (m : Mem) (w : Word) (h : b + 4 ≤ a ∨ a + 4 ≤ b) :
    loadWord (storeWord m a w) b = loadWord m b :=
  loadWord_storeRange_of_disjoint m (byteOf w) h

theorem storeWord_of_disjoint (m : Mem) (w : Word) {x : ℕ} (hx : x < a ∨ a + 4 ≤ x) :
    storeWord m a w x = m x :=
  storeRange_of_disjoint m (byteOf w) hx

/-- Storing a word that was loaded copies four bytes. -/
theorem storeWord_loadWord (m m' : Mem) (a b : ℕ) :
    storeWord m a (loadWord m' b) = storeRange m a 4 fun k => m' (b + k) :=
  storeRange_congr m a fun _ hk => byteOf_loadWord m' b hk

/-! ## Half-words -/

/-- The 16-bit half-word at `a`. -/
def loadHalf (m : Mem) (a : ℕ) : BitVec 16 := m (a + 1) ++ m a

/-- The memory after the half-word `w` was stored at `a`. -/
def storeHalf (m : Mem) (a : ℕ) (w : BitVec 16) : Mem :=
  storeRange m a 2 fun k => w.extractLsb' (8 * k) 8

theorem loadHalf_congr (h : ∀ k < 2, m (a + k) = m' (a + k)) : loadHalf m a = loadHalf m' a := by
  have h0 := h 0 (by omega)
  rw [Nat.add_zero] at h0
  simp only [loadHalf, h0, h 1 (by omega)]

theorem loadHalf_storeHalf_self (m : Mem) (a : ℕ) (w : BitVec 16) :
    loadHalf (storeHalf m a w) a = w := by
  have h0 := storeRange_at m a (fun k => w.extractLsb' (8 * k) 8) (by omega : 0 < 2)
  have h1 := storeRange_at m a (fun k => w.extractLsb' (8 * k) 8) (by omega : 1 < 2)
  rw [Nat.add_zero] at h0
  rw [loadHalf, storeHalf, h0, h1]
  ext i hi
  simp only [BitVec.getElem_append, BitVec.getElem_extractLsb']
  split_ifs <;> rw [← BitVec.getLsbD_eq_getElem hi] <;> congr 1 <;> omega

theorem loadHalf_storeHalf_of_disjoint (m : Mem) (w : BitVec 16) {a b : ℕ}
    (h : b + 2 ≤ a ∨ a + 2 ≤ b) : loadHalf (storeHalf m a w) b = loadHalf m b :=
  loadHalf_congr fun _ hk => storeRange_of_disjoint _ _ (by omega)

/-! ## Frames -/

/-- `m'` is `m` below the address `a`. -/
def SameBelow (a : ℕ) (m m' : Mem) : Prop := ∀ x < a, m' x = m x

theorem SameBelow.trans {m₁ m₂ m₃ : Mem} (h : SameBelow a m₁ m₂) (h' : SameBelow b m₂ m₃)
    (hab : a ≤ b) : SameBelow a m₁ m₃ := fun x hx => (h' x (by omega)).trans (h x hx)

theorem SameBelow.loadWord_eq (h : SameBelow a m m') (hb : b + 4 ≤ a) :
    loadWord m' b = loadWord m b :=
  loadWord_congr fun _ _ => h _ (by omega)

end Jz2440.Common
