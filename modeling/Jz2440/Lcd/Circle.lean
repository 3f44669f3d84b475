import Jz2440.Lcd.Line

/-!
# Drawing a circle

Model of `draw_circle` (lcd/geometry.c) in
`hard_driver/first_hard/025_sensors_022/007_irda_nec_ok_022_009`, as the list of the pixels
that it passes to `fb_put_pixel`.

A pass plots `(a, b)` and its seven mirror images. Then it tries a step to `a + 1`; if
that leaves the circle, it goes down to `b - 1` instead. The loop goes on while
`22 * b * b >= r * r`, far beyond the diagonal.

* `Walk`: the points of this walk, and what of the circle they have covered.
* `circlePass_walk`: one pass.
* `drawCircle_ends_iff`: the loop ends after at most `2 * r + 1` passes, unless `r` is 0.
* `drawCircle_isRing`: the pixels form a thin ring without gaps.
-/

namespace Jz2440.Lcd

open Jz2440.Common

/-! ## The code -/

/-- `a`, `b`, and the pixels so far. -/
structure CircleState where
  a : Int32
  b : Int32
  pixels : List Pixel

/-- The eight calls of `fb_put_pixel` in a pass (geometry.c:25-33). -/
def mirrorPixels (x y a b : Int32) : List Pixel :=
  [(x + a, y - b), (x - a, y - b), (x - a, y + b), (x + a, y + b),
    (x + b, y + a), (x + b, y - a), (x - b, y - a), (x - b, y + a)]

/-- One pass of the loop (geometry.c:23-42). -/
def circlePass (x y r : Int32) (s : CircleState) : Pass CircleState (List Pixel) :=
  if 22 * s.b * s.b ≥ r * r then
    let pixels := s.pixels ++ mirrorPixels x y s.a s.b
    let a := s.a + 1
    let num := (a * a + s.b * s.b) - r * r
    if num > 0 then .again ⟨a - 1, s.b - 1, pixels⟩ else .again ⟨a, s.b, pixels⟩
  else .leave s.pixels

/-- `draw_circle` (geometry.c:18-43). -/
def drawCircle (x y r : Int32) (fuel : ℕ) : Option (List Pixel) :=
  loop (circlePass x y r) fuel ⟨0, r, []⟩

/-! ## The tests of the code -/

section Tests

variable {R a b : ℕ}

theorem guard_iff (hR : R ≤ 9000) (hb : b ≤ R) :
    22 * Int32.ofNat b * Int32.ofNat b ≥ Int32.ofNat R * Int32.ofNat R ↔
      R * R ≤ 22 * b * b := by
  have hRR := Nat.mul_self_le_mul_self hR
  have hbb := Nat.mul_self_le_mul_self hb
  have h22 : (22 : Int32) * Int32.ofNat b * Int32.ofNat b = Int32.ofNat (22 * b * b) := by
    rw [Int32.ofNat_mul, Int32.ofNat_mul]
    rfl
  rw [h22, ← Int32.ofNat_mul, ge_iff_le,
    Int32.ofNat_le_iff_le (by omega) (by rw [Nat.mul_assoc]; omega)]

theorem num_pos_iff (hR : R ≤ 9000) (ha : a ≤ R) (hb : b ≤ R) :
    ((Int32.ofNat a + 1) * (Int32.ofNat a + 1) + Int32.ofNat b * Int32.ofNat b) -
        Int32.ofNat R * Int32.ofNat R > 0 ↔
      R * R < (a + 1) * (a + 1) + b * b := by
  have hRR := Nat.mul_self_le_mul_self hR
  have hbb := Nat.mul_self_le_mul_self hb
  have haa := Nat.mul_self_le_mul_self (show a + 1 ≤ 9001 by omega)
  have hone : Int32.ofNat a + 1 = Int32.ofNat (a + 1) := (Int32.ofNat_add a 1).symm
  have hsum : (Int32.ofNat (a + 1) * Int32.ofNat (a + 1) + Int32.ofNat b * Int32.ofNat b).toInt =
      ((a + 1) * (a + 1) + b * b : ℕ) := by
    rw [← Int32.ofNat_mul, ← Int32.ofNat_mul, ← Int32.ofNat_add,
      Int32.toInt_ofNat_of_lt (by omega)]
  have hr : (Int32.ofNat R * Int32.ofNat R).toInt = (R * R : ℕ) := by
    rw [← Int32.ofNat_mul, Int32.toInt_ofNat_of_lt (by omega)]
  rw [hone, gt_iff_lt, Int32.lt_iff_toInt_lt, toInt_sub_of_inInt, hsum, hr, Int32.toInt_zero]
  · omega
  · rw [hsum, hr]
    constructor <;> omega

end Tests

/-! ## The walk -/

/-- `(a, b)` is the last point inside the circle, in the direction of the diagonal. -/
def OnRing (R a b : ℕ) : Prop :=
  a * a + b * b ≤ R * R ∧ R * R < (a + 1) * (a + 1) + (b + 1) * (b + 1)

/-- The walk is at `(a, b)` and has plotted the points `visited`. -/
structure Walk (R a b : ℕ) (visited : List (ℕ × ℕ)) : Prop where
  here : OnRing R a b
  ring : ∀ p ∈ visited, OnRing R p.1 p.2
  columns : ∀ c < a, ∃ p ∈ visited, p.1 = c
  rows : ∀ c, b < c → c ≤ R → ∃ p ∈ visited, p.2 = c
  started : b < R → ∃ p ∈ visited, p.1 = 0

section Walk

variable {R a b : ℕ} {visited : List (ℕ × ℕ)}

theorem OnRing.le (h : OnRing R a b) : a ≤ R ∧ b ≤ R := by
  have hinside := h.1
  constructor
  · exact Nat.mul_self_le_mul_self_iff.mp (by omega)
  · exact Nat.mul_self_le_mul_self_iff.mp (by omega)

theorem walk_start (R : ℕ) : Walk R 0 R [] where
  here := by
    have hmono := Nat.mul_self_le_mul_self (Nat.le_add_right R 1)
    exact ⟨by omega, by omega⟩
  ring := by simp
  columns := by simp
  rows := fun c hlt hle => absurd hlt (by omega)
  started := fun hlt => absurd hlt (by omega)

/-- What has been visited stays so. -/
theorem exists_visited_append {P : ℕ × ℕ → Prop} (h : ∃ p ∈ visited, P p) (q : ℕ × ℕ) :
    ∃ p ∈ visited ++ [q], P p := by
  obtain ⟨p, hp, hP⟩ := h
  exact ⟨p, List.mem_append_left _ hp, hP⟩

/-- The point of this pass is one of those visited from now on. -/
theorem Walk.ring_append (h : Walk R a b visited) :
    ∀ p ∈ visited ++ [(a, b)], OnRing R p.1 p.2 := by
  intro p hp
  rcases List.mem_append.mp hp with hp | hp
  · exact h.ring p hp
  · rw [List.mem_singleton.mp hp]
    exact h.here

theorem Walk.started_append (h : Walk R a b visited) : ∃ p ∈ visited ++ [(a, b)], p.1 = 0 := by
  rcases Nat.eq_zero_or_pos a with rfl | hpos
  · exact ⟨(0, b), by simp, rfl⟩
  · exact exists_visited_append (h.columns 0 hpos) _

/-- The step to `a + 1` stays in the circle. -/
theorem Walk.advance (h : Walk R a b visited) (hin : (a + 1) * (a + 1) + b * b ≤ R * R) :
    Walk R (a + 1) b (visited ++ [(a, b)]) where
  here := by
    have hout := h.here.2
    have hmono := Nat.mul_self_le_mul_self (Nat.le_add_right (a + 1) 1)
    exact ⟨hin, by omega⟩
  ring := h.ring_append
  columns := by
    intro c hc
    rcases Nat.lt_succ_iff_lt_or_eq.mp hc with hlt | rfl
    · exact exists_visited_append (h.columns c hlt) _
    · exact ⟨(c, b), by simp, rfl⟩
  rows := fun c hlt hle => exists_visited_append (h.rows c hlt hle) _
  started := fun _ => h.started_append

/-- It does not, and the walk goes down. -/
theorem Walk.down (h : Walk R a (b + 1) visited)
    (hout : R * R < (a + 1) * (a + 1) + (b + 1) * (b + 1)) :
    Walk R a b (visited ++ [(a, b + 1)]) where
  here := by
    have hin := h.here.1
    have hmono := Nat.mul_self_le_mul_self (Nat.le_add_right b 1)
    exact ⟨by omega, hout⟩
  ring := h.ring_append
  columns := fun c hc => exists_visited_append (h.columns c hc) _
  rows := by
    intro c hlt hle
    rcases Nat.eq_or_lt_of_le hlt with heq | hlt
    · exact ⟨(a, b + 1), by simp, heq⟩
    · exact exists_visited_append (h.rows c hlt hle) _
  started := fun _ => h.started_append

/-- When the guard fails, the walk is past the diagonal. A circle with `r = 1` ends at `(0, 0)`,
    but there the column 0 has been visited. -/
theorem Walk.covers (h : Walk R a b visited) (hend : 22 * b * b < R * R) {c : ℕ} (hc : c ≤ R) :
    ∃ p ∈ visited, p.1 = c ∨ p.2 = c := by
  rw [Nat.mul_assoc] at hend
  have hlt : b < R := by
    by_contra hle
    have := Nat.mul_self_le_mul_self (Nat.le_of_not_lt hle)
    omega
  rcases Nat.lt_or_ge c a with hca | hca
  · obtain ⟨p, hp, hpc⟩ := h.columns c hca
    exact ⟨p, hp, .inl hpc⟩
  rcases Nat.lt_or_ge b c with hbc | hbc
  · obtain ⟨p, hp, hpc⟩ := h.rows c hbc hc
    exact ⟨p, hp, .inr hpc⟩
  · -- not yet past the diagonal: `20 * b * b < 4 * b + 2`
    have hout := h.here.2
    have hdiag := Nat.mul_self_le_mul_self (show a + 1 ≤ b + 1 by omega)
    have hexpand : (b + 1) * (b + 1) = b * b + 2 * b + 1 := by ring
    have hsquare := Nat.le_mul_self b
    obtain ⟨p, hp, hpc⟩ := h.started hlt
    exact ⟨p, hp, .inl (by omega)⟩

end Walk

/-! ## The code follows the walk -/

/-- The pixels for the points of a walk. -/
def ringPixels (x y : Int32) (visited : List (ℕ × ℕ)) : List Pixel :=
  visited.flatMap fun p => mirrorPixels x y (.ofNat p.1) (.ofNat p.2)

/-- The state of the code during a walk. -/
def walkState (x y : Int32) (a b : ℕ) (visited : List (ℕ × ℕ)) : CircleState :=
  ⟨.ofNat a, .ofNat b, ringPixels x y visited⟩

theorem ringPixels_append (x y : Int32) (visited : List (ℕ × ℕ)) (a b : ℕ) :
    ringPixels x y (visited ++ [(a, b)]) =
      ringPixels x y visited ++ mirrorPixels x y (.ofNat a) (.ofNat b) := by
  simp [ringPixels]

section Code

variable {R a b : ℕ} {visited : List (ℕ × ℕ)}

/-- One pass is a step of the walk, or the end of it. -/
theorem circlePass_walk (x y : Int32) (hpos : 1 ≤ R) (hR : R ≤ 9000) (h : Walk R a b visited) :
    (∃ a' b' visited', circlePass x y (.ofNat R) (walkState x y a b visited) =
        .again (walkState x y a' b' visited') ∧
      Walk R a' b' visited' ∧ R - a' + b' < R - a + b) ∨
    (circlePass x y (.ofNat R) (walkState x y a b visited) = .leave (ringPixels x y visited) ∧
      22 * b * b < R * R) := by
  obtain ⟨ha, hb⟩ := h.here.le
  unfold circlePass walkState
  by_cases hguard : R * R ≤ 22 * b * b
  · left
    rw [if_pos ((guard_iff hR hb).mpr hguard)]
    by_cases hnum : R * R < (a + 1) * (a + 1) + b * b
    · obtain ⟨b, rfl⟩ : ∃ k, b = k + 1 := by
        refine Nat.exists_eq_add_one.mpr (Nat.pos_of_ne_zero ?_)
        rintro rfl
        have := Nat.mul_self_le_mul_self hpos
        omega
      refine ⟨a, b, visited ++ [(a, b + 1)], ?_, h.down hnum, by omega⟩
      refine (if_pos ((num_pos_iff hR ha hb).mpr hnum)).trans ?_
      rw [ringPixels_append, Int32.ofNat_add b 1, Int32.add_sub_cancel]
      congr 2
      exact Int32.add_sub_cancel _ _
    · refine ⟨a + 1, b, visited ++ [(a, b)], ?_, h.advance (Nat.le_of_not_lt hnum), ?_⟩
      · refine (if_neg ((num_pos_iff hR ha hb).not.mpr hnum)).trans ?_
        rw [ringPixels_append, Int32.ofNat_add a 1]
        rfl
      · have := (h.advance (Nat.le_of_not_lt hnum)).here.le
        omega
  · right
    exact ⟨if_neg ((guard_iff hR hb).not.mpr hguard), Nat.lt_of_not_le hguard⟩

/-- A circle that is not a point is walked around in at most `2 * R` iterations. -/
theorem drawCircle_walk (x y : Int32) (hpos : 1 ≤ R) (hR : R ≤ 9000) {fuel : ℕ}
    (hfuel : 2 * R < fuel) :
    ∃ pixels, drawCircle x y (.ofNat R) fuel = some pixels ∧
      ∃ a b visited, pixels = ringPixels x y visited ∧ Walk R a b visited ∧
        22 * b * b < R * R := by
  refine loop_within
    (fun n s => ∃ a b visited, s = walkState x y a b visited ∧ Walk R a b visited ∧
      n = R - a + b) _ ?_ ⟨0, R, [], rfl, walk_start R, rfl⟩ (by omega)
  rintro n s ⟨a, b, visited, rfl, hwalk, rfl⟩
  rcases circlePass_walk x y hpos hR hwalk with
    ⟨a', b', visited', hagain, hwalk', hlt⟩ | ⟨hleave, hend⟩
  · exact .inl ⟨_, _, hagain, ⟨a', b', visited', rfl, hwalk', rfl⟩, hlt⟩
  · exact .inr ⟨_, hleave, a, b, visited, rfl, hwalk, hend⟩

end Code

/-! ## Termination -/

/-- With `r = 0` the guard `22 * b * b >= 0` still holds after the first iteration. -/
theorem drawCircle_zero (x y : Int32) : drawCircle x y 0 2 = none := by
  have hfirst : circlePass x y 0 ⟨0, 0, []⟩ = .again ⟨0, -1, mirrorPixels x y 0 0⟩ := rfl
  have hguard : (22 : Int32) * -1 * -1 ≥ 0 * 0 := by decide
  have hnum : ((0 : Int32) + 1) * (0 + 1) + -1 * -1 - 0 * 0 > 0 := by decide
  obtain ⟨s, hsecond⟩ : ∃ s, circlePass x y 0 ⟨0, -1, mirrorPixels x y 0 0⟩ = .again s :=
    ⟨_, (if_pos hguard).trans (if_pos hnum)⟩
  rw [drawCircle, loop_succ_again hfirst, loop_succ_again hsecond, loop]

/-- `draw_circle` leaves its loop after at most `2 * r + 1` iterations exactly for the radii
    other than 0; the fuel counts the last test of the guard as well. -/
theorem drawCircle_ends_iff (x y : Int32) (r : ℕ) (hr : r ≤ 9000) :
    (drawCircle x y (.ofNat r) (2 * r + 2)).isSome ↔ r ≠ 0 := by
  constructor
  · rintro hsome rfl
    rw [show Int32.ofNat 0 = 0 from rfl, drawCircle_zero] at hsome
    cases hsome
  · intro hne
    obtain ⟨pixels, hdraw, -⟩ :=
      drawCircle_walk x y (Nat.pos_of_ne_zero hne) hr (show 2 * r < 2 * r + 2 by omega)
    rw [hdraw, Option.isSome_some]

theorem drawCircle_ends_five : (drawCircle 100 100 (.ofNat 5) (2 * 5 + 2)).isSome :=
  (drawCircle_ends_iff 100 100 5 (by decide)).mpr (by decide)

theorem drawCircle_zero_goes_on : drawCircle 100 100 (.ofNat 0) (2 * 0 + 2) = none := by decide

/-! ## The ring -/

/-- Where the pixels are, relative to the centre. -/
def offsets (x y : Int32) (pixels : List Pixel) : List (ℤ × ℤ) :=
  pixels.map fun p => ((p.1 - x).toInt, (p.2 - y).toInt)

/-- A thin symmetric ring without gaps. -/
structure IsRing (r : ℕ) (S : List (ℤ × ℤ)) : Prop where
  neg_fst : ∀ u v, (u, v) ∈ S → (-u, v) ∈ S
  neg_snd : ∀ u v, (u, v) ∈ S → (u, -v) ∈ S
  swap : ∀ u v, (u, v) ∈ S → (v, u) ∈ S
  inside : ∀ u v, (u, v) ∈ S → u * u + v * v ≤ r * r
  outside : ∀ u v, (u, v) ∈ S → (r : ℤ) * r < (|u| + 1) ^ 2 + (|v| + 1) ^ 2
  columns : ∀ c : ℤ, |c| ≤ r → ∃ v, (c, v) ∈ S
  rows : ∀ c : ℤ, |c| ≤ r → ∃ u, (u, c) ∈ S

section Ring

variable {R : ℕ} {visited : List (ℕ × ℕ)}

theorem mem_offsets_mirrorPixels (x y : Int32) {a b : ℕ} (ha : a ≤ 9000) (hb : b ≤ 9000)
    (u v : ℤ) :
    (u, v) ∈ offsets x y (mirrorPixels x y (.ofNat a) (.ofNat b)) ↔
      (u.natAbs = a ∧ v.natAbs = b) ∨ (u.natAbs = b ∧ v.natAbs = a) := by
  have hplus : ∀ (z : Int32) (n : ℕ), n ≤ 9000 → (z + .ofNat n - z).toInt = n := by
    intro z n hn
    rw [Int32.add_comm, Int32.add_sub_cancel, Int32.toInt_ofNat_of_lt (by omega)]
  have hminus : ∀ (z : Int32) (n : ℕ), n ≤ 9000 → (z - .ofNat n - z).toInt = -n := by
    intro z n hn
    rw [Int32.sub_eq_add_neg z, Int32.add_comm, Int32.add_sub_cancel, Int32.toInt_neg,
      Int32.toInt_ofNat_of_lt (by omega), bmod_of_inInt ⟨by omega, by omega⟩]
  simp only [offsets, mirrorPixels, List.map_cons, List.map_nil, hplus _ _ ha, hplus _ _ hb,
    hminus _ _ ha, hminus _ _ hb, List.mem_cons, Prod.mk.injEq, List.not_mem_nil, or_false,
    Int.natAbs_eq_iff]
  constructor
  · rintro (h | h | h | h | h | h | h | h) <;> simp only [h, true_or, or_true, and_self]
  · rintro (⟨hu | hu, hv | hv⟩ | ⟨hu | hu, hv | hv⟩) <;>
      simp only [hu, hv, true_or, or_true, and_self]

theorem mem_offsets_ringPixels (x y : Int32) (hring : ∀ p ∈ visited, OnRing R p.1 p.2)
    (hR : R ≤ 9000) (u v : ℤ) :
    (u, v) ∈ offsets x y (ringPixels x y visited) ↔
      ∃ p ∈ visited, (u.natAbs = p.1 ∧ v.natAbs = p.2) ∨ (u.natAbs = p.2 ∧ v.natAbs = p.1) := by
  have hmem : (u, v) ∈ offsets x y (ringPixels x y visited) ↔
      ∃ p ∈ visited, (u, v) ∈ offsets x y (mirrorPixels x y (.ofNat p.1) (.ofNat p.2)) := by
    simp only [offsets, ringPixels, List.map_flatMap, List.mem_flatMap]
  rw [hmem]
  refine exists_congr fun p => and_congr_right fun hp => ?_
  obtain ⟨h1, h2⟩ := (hring p hp).le
  exact mem_offsets_mirrorPixels x y (by omega) (by omega) u v

/-- The mirror images of the points on the ring, with no gap among the points. -/
theorem isRing_ringPixels (x y : Int32) (hR : R ≤ 9000)
    (hring : ∀ p ∈ visited, OnRing R p.1 p.2)
    (hcover : ∀ c ≤ R, ∃ p ∈ visited, p.1 = c ∨ p.2 = c) :
    IsRing R (offsets x y (ringPixels x y visited)) := by
  have hmem := mem_offsets_ringPixels x y hring hR
  have hon : ∀ u v, (u, v) ∈ offsets x y (ringPixels x y visited) →
      OnRing R u.natAbs v.natAbs := by
    intro u v huv
    obtain ⟨p, hp, ⟨h1, h2⟩ | ⟨h1, h2⟩⟩ := (hmem u v).mp huv
    · rw [h1, h2]
      exact hring p hp
    · have := hring p hp
      rw [h1, h2]
      exact ⟨by rw [Nat.add_comm]; exact this.1, by rw [Nat.add_comm]; exact this.2⟩
  have hswap : ∀ u v, (u, v) ∈ offsets x y (ringPixels x y visited) →
      (v, u) ∈ offsets x y (ringPixels x y visited) := by
    intro u v huv
    obtain ⟨p, hp, h⟩ := (hmem u v).mp huv
    exact (hmem v u).mpr ⟨p, hp, by omega⟩
  have hcolumns : ∀ c : ℤ, |c| ≤ R → ∃ v, (c, v) ∈ offsets x y (ringPixels x y visited) := by
    intro c hc
    rw [Int.abs_eq_natAbs, Nat.cast_le] at hc
    obtain ⟨p, hp, h | h⟩ := hcover c.natAbs hc
    · exact ⟨p.2, (hmem c p.2).mpr ⟨p, hp, .inl ⟨h.symm, rfl⟩⟩⟩
    · exact ⟨p.1, (hmem c p.1).mpr ⟨p, hp, .inr ⟨h.symm, rfl⟩⟩⟩
  refine ⟨?_, ?_, hswap, ?_, ?_, hcolumns, ?_⟩
  · intro u v huv
    rw [hmem, Int.natAbs_neg, ← hmem]
    exact huv
  · intro u v huv
    rw [hmem, Int.natAbs_neg, ← hmem]
    exact huv
  · intro u v huv
    have hin := (hon u v huv).1
    rw [← Int.natAbs_mul_self' u, ← Int.natAbs_mul_self' v]
    exact_mod_cast hin
  · intro u v huv
    have hout := (hon u v huv).2
    rw [Int.abs_eq_natAbs, Int.abs_eq_natAbs, sq, sq]
    exact_mod_cast hout
  · intro c hc
    obtain ⟨v, hv⟩ := hcolumns c hc
    exact ⟨v, hswap c v hv⟩

end Ring

/-- Around every centre `draw_circle` plots a thin symmetric ring without gaps. -/
theorem drawCircle_isRing (x y : Int32) (r : ℕ) (hpos : 1 ≤ r) (hr : r ≤ 9000) :
    ∃ pixels, Yields (drawCircle x y (.ofNat r)) pixels ∧ IsRing r (offsets x y pixels) := by
  obtain ⟨a, b, visited, hyields, hwalk, hend⟩ : ∃ a b visited,
      Yields (drawCircle x y (.ofNat r)) (ringPixels x y visited) ∧ Walk r a b visited ∧
        22 * b * b < r * r := by
    obtain ⟨_, hdraw, a, b, visited, rfl, hwalk, hend⟩ :=
      drawCircle_walk x y hpos hr (Nat.lt_succ_self (2 * r))
    exact ⟨a, b, visited, Returns.of_loop hdraw, hwalk, hend⟩
  exact ⟨_, hyields, isRing_ringPixels x y hr hwalk.ring fun c hc => hwalk.covers hend hc⟩

theorem drawCircle_isRing_five :
    ∃ pixels, Yields (drawCircle 100 100 (.ofNat 5)) pixels ∧
      IsRing 5 (offsets 100 100 pixels) :=
  drawCircle_isRing 100 100 5 (by decide) (by decide)

end Jz2440.Lcd
