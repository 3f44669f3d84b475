import Jz2440.Common.CInt
import Jz2440.Common.Loop

/-!
# Drawing a line

Model of `draw_line` (lcd/geometry.c) in
`hard_driver/first_hard/025_sensors_022/007_irda_nec_ok_022_009`. It is kept as the list of
the pixels that it passes to `fb_put_pixel`.

The eight loops differ in which axis is the longer one and in the two directions.
Along the longer axis a loop goes one step in each pass; along the other one it goes a
step when the error term `e` is positive.

* `offset M m k`: the steps along the other axis before pass `k`, without machine
  arithmetic; `abs_offset_le`: they stay within half a pixel of the ideal line.
* `lineLoop_yields`: each of the loops computes them.
* `drawLine_isLine`: the line that is drawn, in all octants.
-/

namespace Jz2440.Lcd

open Jz2440.Common

/-! ## The code -/

/-- The arguments of a call of `fb_put_pixel`; the colour is the same in all calls. -/
abbrev Pixel := Int32 × Int32

/-- A loop of `draw_line`: the coordinate along the longer axis, the other one, `e`, and the
    pixels so far. -/
structure LineState where
  p : Int32
  q : Int32
  e : Int32
  pixels : List Pixel

/-- One pass of the loops of `draw_line` (geometry.c:59-65 and so on): `sp` and `sq` are the
    directions, `dp` and `dq` the differences, and `p2` is the end. If the line is `steep`, the
    longer axis is the y axis. -/
def linePass (steep : Bool) (sp sq dp dq p2 : Int32) (s : LineState) :
    Pass LineState (List Pixel) :=
  if (if sp = 1 then s.p ≤ p2 else s.p ≥ p2) then
    let pixel := if steep then (s.q, s.p) else (s.p, s.q)
    let qe := if s.e > 0 then (s.q + sq, s.e - dp) else (s.q, s.e)
    .again ⟨s.p + sp, qe.1, qe.2 + dq, s.pixels ++ [pixel]⟩
  else .leave s.pixels

/-- A loop with its initial `e`, from `(p1, q1)` on. -/
def lineLoop (steep : Bool) (sp sq dp dq p2 p1 q1 : Int32) (fuel : ℕ) : Option (List Pixel) :=
  loop (linePass steep sp sq dp dq p2) fuel ⟨p1, q1, dq - dp / 2, []⟩

/-- `draw_line` (geometry.c:46-160). -/
def drawLine (x1 y1 x2 y2 : Int32) (fuel : ℕ) : Option (List Pixel) :=
  let dx := x2 - x1
  let dy := y2 - y1
  if dx ≥ 0 then
    if dy ≥ 0 then
      if dx ≥ dy then lineLoop false 1 1 dx dy x2 x1 y1 fuel -- 1/8 octant
      else lineLoop true 1 1 dy dx y2 y1 x1 fuel -- 2/8 octant
    else
      let dy := -dy
      if dx ≥ dy then lineLoop false 1 (-1) dx dy x2 x1 y1 fuel -- 8/8 octant
      else lineLoop true (-1) 1 dy dx y2 y1 x1 fuel -- 7/8 octant
  else
    let dx := -dx
    if dy ≥ 0 then
      if dx ≥ dy then lineLoop false (-1) 1 dx dy x2 x1 y1 fuel -- 4/8 octant
      else lineLoop true 1 (-1) dy dx y2 y1 x1 fuel -- 3/8 octant
    else
      let dy := -dy
      if dx ≥ dy then lineLoop false (-1) (-1) dx dy x2 x1 y1 fuel -- 5/8 octant
      else lineLoop true (-1) (-1) dy dx y2 y1 x1 fuel -- 6/8 octant

/-! ## The ideal line -/

/-- The steps along the shorter axis before pass `k`, for a line with the extents `M` and `m`. -/
def offset (M m : ℕ) : ℕ → ℕ
  | 0 => 0
  | k + 1 =>
    let o := offset M m k
    if (0 : ℤ) < (k + 1) * m - M * o - (M / 2 : ℕ) then o + 1 else o

/-- The error term in pass `k`. -/
def errorTerm (M m k : ℕ) : ℤ := (k + 1) * m - M * offset M m k - (M / 2 : ℕ)

theorem offset_succ (M m k : ℕ) :
    offset M m (k + 1) = if 0 < errorTerm M m k then offset M m k + 1 else offset M m k := rfl

theorem errorTerm_succ (M m k : ℕ) :
    errorTerm M m (k + 1) =
      (if 0 < errorTerm M m k then errorTerm M m k - M else errorTerm M m k) + m := by
  have hstep : errorTerm M m (k + 1) = (k + 2) * m - M * offset M m (k + 1) - (M / 2 : ℕ) := by
    rw [errorTerm]
    push_cast
    ring
  rw [hstep, offset_succ]
  split_ifs
  · rw [errorTerm]
    push_cast
    ring
  · rw [errorTerm]
    ring

/-- The distance from the ideal line, `errorTerm - m + M / 2`, is at most half of `M`. -/
theorem errorTerm_bound {M m : ℕ} (h : m ≤ M) (k : ℕ) :
    -(M : ℤ) ≤ 2 * (errorTerm M m k - m + (M / 2 : ℕ)) ∧
      2 * (errorTerm M m k - m + (M / 2 : ℕ)) ≤ M := by
  induction k with
  | zero =>
    have hzero : errorTerm M m 0 = m - (M / 2 : ℕ) := by simp [errorTerm, offset]
    rw [hzero]
    omega
  | succ k ih =>
    rw [errorTerm_succ]
    split_ifs <;> omega

/-- In every pass the line is within half a pixel of the ideal one. -/
theorem abs_offset_le {M m : ℕ} (h : m ≤ M) (k : ℕ) :
    2 * |(M : ℤ) * offset M m k - k * m| ≤ M := by
  have hk := errorTerm_bound h k
  have heq : (M : ℤ) * offset M m k - k * m = -(errorTerm M m k - m + (M / 2 : ℕ)) := by
    rw [errorTerm]
    ring
  rw [heq, abs_neg, ← abs_two, ← abs_mul, abs_le]
  omega

theorem offset_le {M m k : ℕ} (h : m ≤ M) (hk : k ≤ M) : offset M m k ≤ m := by
  by_contra hlt
  have hpos : 0 < M := by
    rcases Nat.eq_zero_or_pos M with rfl | hpos
    · obtain rfl : k = 0 := by omega
      exact absurd (Nat.zero_le m) hlt
    · exact hpos
  have hbound := abs_offset_le h k
  have hsteps : M * (m + 1) ≤ M * offset M m k := Nat.mul_le_mul_left M (by omega)
  have hideal : k * m ≤ M * m := Nat.mul_le_mul_right m hk
  have habs := le_abs_self ((M : ℤ) * offset M m k - k * m)
  rw [Nat.mul_succ] at hsteps
  zify at hsteps hideal
  omega

/-- The last pixel is the end point. -/
theorem offset_end {M m : ℕ} (h : m ≤ M) : offset M m M = m := by
  refine le_antisymm (offset_le h le_rfl) ?_
  by_contra hlt
  have hbound := abs_offset_le h M
  have hsteps : M * (offset M m M + 1) ≤ M * m := Nat.mul_le_mul_left M (by omega)
  have habs := neg_le_abs ((M : ℤ) * offset M m M - M * m)
  rw [Nat.mul_succ] at hsteps
  zify at hsteps
  omega

/-! ## The loops -/

section Loops

variable {steep : Bool} {sp sq dp dq p2 p1 q1 : Int32} {M m : ℕ}

/-- The pixel of pass `k`. -/
def linePixel (steep : Bool) (sp sq p1 q1 : Int32) (M m k : ℕ) : Pixel :=
  let p := Int32.ofInt (p1.toInt + sp.toInt * k)
  let q := Int32.ofInt (q1.toInt + sq.toInt * offset M m k)
  if steep then (q, p) else (p, q)

/-- The state before pass `k`. -/
def lineState (steep : Bool) (sp sq p1 q1 : Int32) (M m k : ℕ) : LineState :=
  ⟨.ofInt (p1.toInt + sp.toInt * k), .ofInt (q1.toInt + sq.toInt * offset M m k),
    .ofInt (errorTerm M m k), (List.range k).map (linePixel steep sp sq p1 q1 M m)⟩

theorem ofInt_step (a s : Int32) (k : ℕ) :
    Int32.ofInt (a.toInt + s.toInt * k) + s = .ofInt (a.toInt + s.toInt * (k + 1 : ℕ)) := by
  have hsum : a.toInt + s.toInt * (k + 1 : ℕ) = a.toInt + s.toInt * k + s.toInt := by
    push_cast
    ring
  rw [hsum, Int32.ofInt_add (_ + _), Int32.ofInt_toInt]

/-- What the passes have in common: two directions, two extents, and an end that is not the
    last `int` in its direction. -/
structure LineArgs (sp dp dq p2 p1 : Int32) (M m : ℕ) : Prop where
  sp_unit : sp = 1 ∨ sp = -1
  dp_eq : dp.toInt = M
  dq_eq : dq.toInt = m
  le : m ≤ M
  end_eq : p2.toInt = p1.toInt + sp.toInt * M
  past_end : InInt (p2.toInt + sp.toInt)

theorem LineArgs.lt (h : LineArgs sp dp dq p2 p1 M m) : (M : ℤ) < 2 ^ 31 :=
  h.dp_eq ▸ dp.toInt_lt

theorem LineArgs.error_pos_iff (h : LineArgs sp dp dq p2 p1 M m) (k : ℕ) :
    Int32.ofInt (errorTerm M m k) > 0 ↔ 0 < errorTerm M m k := by
  have hbound := errorTerm_bound h.le k
  have hle := h.le
  have hlt := h.lt
  rw [gt_iff_lt, Int32.lt_iff_toInt_lt, Int32.toInt_ofInt_of_le (by omega) (by omega),
    Int32.toInt_zero]

/-- The guard holds up to the end and not one step past it. -/
theorem LineArgs.guard_iff (h : LineArgs sp dp dq p2 p1 M m) {k : ℕ} (hk : k ≤ M + 1) :
    (if sp = 1 then Int32.ofInt (p1.toInt + sp.toInt * k) ≤ p2
      else Int32.ofInt (p1.toInt + sp.toInt * k) ≥ p2) ↔ k ≤ M := by
  have hp1 := inInt_toInt p1
  have hend := h.end_eq
  have hpast := h.past_end
  have hone : (1 : Int32).toInt = 1 := rfl
  have hneg : (-1 : Int32).toInt = -1 := rfl
  unfold InInt at hp1 hpast
  rcases h.sp_unit with rfl | rfl
  · rw [hone] at hend hpast ⊢
    rw [if_pos rfl, Int32.le_iff_toInt_le, Int32.toInt_ofInt_of_le (by omega) (by omega)]
    omega
  · rw [hneg] at hend hpast ⊢
    rw [if_neg (by decide), ge_iff_le, Int32.le_iff_toInt_le,
      Int32.toInt_ofInt_of_le (by omega) (by omega)]
    omega

theorem LineArgs.pass_again (h : LineArgs sp dp dq p2 p1 M m) {k : ℕ} (hk : k ≤ M) :
    linePass steep sp sq dp dq p2 (lineState steep sp sq p1 q1 M m k) =
      .again (lineState steep sp sq p1 q1 M m (k + 1)) := by
  have hdp : dp = Int32.ofInt M := by rw [← h.dp_eq, Int32.ofInt_toInt]
  have hdq : dq = Int32.ofInt m := by rw [← h.dq_eq, Int32.ofInt_toInt]
  have hguard := (h.guard_iff (show k ≤ M + 1 by omega)).mpr hk
  refine (if_pos hguard).trans ?_
  by_cases he : 0 < errorTerm M m k
  · have herror : Int32.ofInt (errorTerm M m k - M + m) =
        Int32.ofInt (errorTerm M m k) - dp + dq := by
      rw [Int32.ofInt_add, Int32.ofInt_sub, hdp, hdq]
    simp only [lineState, h.error_pos_iff, if_pos he, ofInt_step, offset_succ, errorTerm_succ,
      herror, List.range_succ, List.map_append, List.map_cons, List.map_nil]
    rfl
  · have herror : Int32.ofInt (errorTerm M m k + m) = Int32.ofInt (errorTerm M m k) + dq := by
      rw [Int32.ofInt_add, hdq]
    simp only [lineState, h.error_pos_iff, if_neg he, ofInt_step, offset_succ, errorTerm_succ,
      herror, List.range_succ, List.map_append, List.map_cons, List.map_nil]
    rfl

theorem LineArgs.start (h : LineArgs sp dp dq p2 p1 M m) :
    (⟨p1, q1, dq - dp / 2, []⟩ : LineState) = lineState steep sp sq p1 q1 M m 0 := by
  have hhalf : dp / 2 = Int32.ofInt (M / 2 : ℕ) := by
    have hlt := h.lt
    apply Int32.toInt_inj.mp
    rw [Int32.toInt_div, h.dp_eq, Int32.toInt_ofInt_of_le (by omega) (by omega)]
    show ((M : ℤ).tdiv 2).bmod (2 ^ 32) = _
    rw [Int.tdiv_eq_ediv_of_nonneg (by omega), bmod_of_inInt ⟨by omega, by omega⟩]
    rfl
  have hdq : dq = Int32.ofInt m := by rw [← h.dq_eq, Int32.ofInt_toInt]
  have herror : errorTerm M m 0 = m - (M / 2 : ℕ) := by simp [errorTerm, offset]
  rw [lineState, herror, Int32.ofInt_sub, hhalf, hdq]
  simp [offset]

/-- A loop draws the ideal line. -/
theorem lineLoop_yields (h : LineArgs sp dp dq p2 p1 M m) :
    Yields (fun fuel => lineLoop steep sp sq dp dq p2 p1 q1 fuel)
      ((List.range (M + 1)).map (linePixel steep sp sq p1 q1 M m)) := by
  refine Returns.of_count (lineState steep sp sq p1 q1 M m) (M + 1) h.start
    (fun k hk => h.pass_again (by omega)) ?_
  have hguard := (h.guard_iff (le_refl (M + 1))).not.mpr (by omega)
  exact if_neg hguard

end Loops

/-! ## The line -/

/-- The direction from `a` to `b`. -/
def dir (a b : ℤ) : ℤ := if a ≤ b then 1 else -1

/-- A pixel that is `along` steps from the start on the longer axis and `across` steps on the
    other one is the pixel `k` of a line with the extents `M` and `m`. -/
def Follows (M m k : ℕ) (along across : ℤ) : Prop :=
  along = k ∧ 2 * |M * across - k * m| ≤ M

/-- A line from `(x1, y1)` to `(x2, y2)`. -/
structure IsLine (x1 y1 x2 y2 : ℤ) (pixels : List (ℤ × ℤ)) : Prop where
  length : pixels.length = max (x2 - x1).natAbs (y2 - y1).natAbs + 1
  first : pixels.head? = some (x1, y1)
  last : pixels.getLast? = some (x2, y2)
  near : ∀ k x y, pixels[k]? = some (x, y) →
    if (y2 - y1).natAbs ≤ (x2 - x1).natAbs then
      Follows (x2 - x1).natAbs (y2 - y1).natAbs k (dir x1 x2 * (x - x1)) (dir y1 y2 * (y - y1))
    else
      Follows (y2 - y1).natAbs (x2 - x1).natAbs k (dir y1 y2 * (y - y1)) (dir x1 x2 * (x - x1))

theorem dir_mul_natAbs (a b : ℤ) : a + dir a b * (b - a).natAbs = b := by
  unfold dir
  split_ifs <;> omega

theorem dir_mul_dir_mul (a b n : ℤ) : dir a b * (a + dir a b * n - a) = n := by
  unfold dir
  split_ifs <;> omega

theorem follows_offset {M m : ℕ} (h : m ≤ M) (k : ℕ) (a b c d : ℤ) :
    Follows M m k (dir a b * (a + dir a b * k - a))
      (dir c d * (c + dir c d * offset M m k - c)) := by
  rw [dir_mul_dir_mul, dir_mul_dir_mul]
  exact ⟨rfl, abs_offset_le h k⟩

/-- The ideal line, as it is drawn in the octants with the longer axis x or y. -/
def idealLine (x1 y1 x2 y2 : ℤ) : List (ℤ × ℤ) :=
  let dx := (x2 - x1).natAbs
  let dy := (y2 - y1).natAbs
  if dy ≤ dx then
    (List.range (dx + 1)).map fun k : ℕ =>
      (x1 + dir x1 x2 * k, y1 + dir y1 y2 * offset dx dy k)
  else
    (List.range (dy + 1)).map fun k : ℕ =>
      (x1 + dir x1 x2 * offset dy dx k, y1 + dir y1 y2 * k)

theorem isLine_of_map {x1 y1 x2 y2 : ℤ} {M : ℕ} (f : ℕ → ℤ × ℤ)
    (hM : M = max (x2 - x1).natAbs (y2 - y1).natAbs) (hfirst : f 0 = (x1, y1))
    (hlast : f M = (x2, y2))
    (hnear : ∀ k, if (y2 - y1).natAbs ≤ (x2 - x1).natAbs then
        Follows (x2 - x1).natAbs (y2 - y1).natAbs k (dir x1 x2 * ((f k).1 - x1))
          (dir y1 y2 * ((f k).2 - y1))
      else
        Follows (y2 - y1).natAbs (x2 - x1).natAbs k (dir y1 y2 * ((f k).2 - y1))
          (dir x1 x2 * ((f k).1 - x1))) :
    IsLine x1 y1 x2 y2 ((List.range (M + 1)).map f) := by
  refine ⟨?_, ?_, ?_, ?_⟩
  · rw [List.length_map, List.length_range, hM]
  · rw [List.range_succ_eq_map, List.map_cons, List.head?_cons, hfirst]
  · rw [List.range_succ, List.map_append, List.map_singleton, List.getLast?_concat, hlast]
  · intro k x y hk
    obtain ⟨hlt, heq⟩ := List.getElem?_eq_some_iff.mp hk
    rw [List.getElem_map, List.getElem_range] at heq
    have hline := hnear k
    rwa [heq] at hline

theorem idealLine_isLine (x1 y1 x2 y2 : ℤ) : IsLine x1 y1 x2 y2 (idealLine x1 y1 x2 y2) := by
  have hx := dir_mul_natAbs x1 x2
  have hy := dir_mul_natAbs y1 y2
  unfold idealLine
  by_cases hflat : (y2 - y1).natAbs ≤ (x2 - x1).natAbs
  · simp only [if_pos hflat]
    refine isLine_of_map _ (max_eq_left hflat).symm (by simp [offset]) ?_ fun k => ?_
    · rw [offset_end hflat, hx, hy]
    · rw [if_pos hflat]
      exact follows_offset hflat k x1 x2 y1 y2
  · have hsteep : (x2 - x1).natAbs ≤ (y2 - y1).natAbs := by omega
    simp only [if_neg hflat]
    refine isLine_of_map _ (max_eq_right hsteep).symm (by simp [offset]) ?_ fun k => ?_
    · rw [offset_end hsteep, hx, hy]
    · rw [if_neg hflat]
      exact follows_offset hsteep k y1 y2 x1 x2

/-! ## The whole function -/

/-- A pixel by its coordinates. -/
def Pixel.coords (p : Pixel) : ℤ × ℤ := (p.1.toInt, p.2.toInt)

/-- Neither the differences and their absolute values, nor the last sum, one step past the end
    on the longer axis, overflow. -/
structure NoOverflow (x1 y1 x2 y2 : Int32) : Prop where
  dx : (x2.toInt - x1.toInt).natAbs < 2 ^ 31
  dy : (y2.toInt - y1.toInt).natAbs < 2 ^ 31
  past_end : if (y2.toInt - y1.toInt).natAbs ≤ (x2.toInt - x1.toInt).natAbs then
      InInt (x2.toInt + dir x1.toInt x2.toInt)
    else InInt (y2.toInt + dir y1.toInt y2.toInt)

section Octants

variable {x1 y1 x2 y2 sx sy dx dy : Int32}

theorem eq_of_toInt_dir {s : Int32} {a b : ℤ} (h : s.toInt = dir a b) : s = 1 ∨ s = -1 := by
  unfold dir at h
  split_ifs at h
  · exact .inl (Int32.toInt_inj.mp h)
  · exact .inr (Int32.toInt_inj.mp h)

/-- A coordinate between two `int`s is one. -/
theorem toInt_between (a b : Int32) {n : ℕ} (hn : n ≤ (b.toInt - a.toInt).natAbs) :
    (Int32.ofInt (a.toInt + dir a.toInt b.toInt * n)).toInt =
      a.toInt + dir a.toInt b.toInt * n := by
  have ha := inInt_toInt a
  have hb := inInt_toInt b
  unfold InInt at ha hb
  unfold dir
  split_ifs
  · exact Int32.toInt_ofInt_of_le (by omega) (by omega)
  · exact Int32.toInt_ofInt_of_le (by omega) (by omega)

/-- What a loop draws, from `(p1, q1)` to `(p2, q2)` with the longer axis first. -/
theorem lineLoop_coords {p1 q1 p2 q2 sp sq dp dq : Int32} (steep : Bool)
    (hsp : sp.toInt = dir p1.toInt p2.toInt) (hsq : sq.toInt = dir q1.toInt q2.toInt)
    (hdp : dp.toInt = (p2.toInt - p1.toInt).natAbs) (hdq : dq.toInt = (q2.toInt - q1.toInt).natAbs)
    (hle : (q2.toInt - q1.toInt).natAbs ≤ (p2.toInt - p1.toInt).natAbs)
    (hpast : InInt (p2.toInt + dir p1.toInt p2.toInt)) :
    ∃ pixels, Yields (fun fuel => lineLoop steep sp sq dp dq p2 p1 q1 fuel) pixels ∧
      pixels.map Pixel.coords = (List.range ((p2.toInt - p1.toInt).natAbs + 1)).map fun k : ℕ =>
        let p := p1.toInt + dir p1.toInt p2.toInt * k
        let q := q1.toInt + dir q1.toInt q2.toInt *
          offset (p2.toInt - p1.toInt).natAbs (q2.toInt - q1.toInt).natAbs k
        if steep then (q, p) else (p, q) := by
  have hargs : LineArgs sp dp dq p2 p1 _ _ :=
    ⟨eq_of_toInt_dir hsp, hdp, hdq, hle, by rw [hsp, dir_mul_natAbs], by rwa [hsp]⟩
  refine ⟨_, lineLoop_yields hargs, ?_⟩
  rw [List.map_map]
  apply List.map_congr_left
  intro k hk
  have hk' : k ≤ (p2.toInt - p1.toInt).natAbs := by
    rw [List.mem_range] at hk
    omega
  have hp := toInt_between p1 p2 hk'
  have hq := toInt_between q1 q2 (offset_le hle hk')
  simp only [Function.comp_apply, linePixel, Pixel.coords, hsp, hsq]
  cases steep with
  | false => exact Prod.ext hp hq
  | true => exact Prod.ext hq hp

theorem lineLoop_flat (h : NoOverflow x1 y1 x2 y2) (hsx : sx.toInt = dir x1.toInt x2.toInt)
    (hsy : sy.toInt = dir y1.toInt y2.toInt) (hdx : dx.toInt = (x2.toInt - x1.toInt).natAbs)
    (hdy : dy.toInt = (y2.toInt - y1.toInt).natAbs) (hle : dx ≥ dy) :
    ∃ pixels, Yields (fun fuel => lineLoop false sx sy dx dy x2 x1 y1 fuel) pixels ∧
      IsLine x1.toInt y1.toInt x2.toInt y2.toInt (pixels.map Pixel.coords) := by
  have hflat : (y2.toInt - y1.toInt).natAbs ≤ (x2.toInt - x1.toInt).natAbs := by
    have := Int32.le_iff_toInt_le.mp hle
    omega
  have hpast := h.past_end
  rw [if_pos hflat] at hpast
  obtain ⟨pixels, hyields, hcoords⟩ := lineLoop_coords false hsx hsy hdx hdy hflat hpast
  have hideal := idealLine_isLine x1.toInt y1.toInt x2.toInt y2.toInt
  rw [idealLine, if_pos hflat] at hideal
  exact ⟨pixels, hyields, by rw [hcoords]; exact hideal⟩

theorem lineLoop_steep (h : NoOverflow x1 y1 x2 y2) (hsx : sx.toInt = dir x1.toInt x2.toInt)
    (hsy : sy.toInt = dir y1.toInt y2.toInt) (hdx : dx.toInt = (x2.toInt - x1.toInt).natAbs)
    (hdy : dy.toInt = (y2.toInt - y1.toInt).natAbs) (hlt : ¬ dx ≥ dy) :
    ∃ pixels, Yields (fun fuel => lineLoop true sy sx dy dx y2 y1 x1 fuel) pixels ∧
      IsLine x1.toInt y1.toInt x2.toInt y2.toInt (pixels.map Pixel.coords) := by
  have hnotflat : ¬ (y2.toInt - y1.toInt).natAbs ≤ (x2.toInt - x1.toInt).natAbs := by
    intro hle
    apply hlt
    apply Int32.le_iff_toInt_le.mpr
    omega
  have hpast := h.past_end
  rw [if_neg hnotflat] at hpast
  obtain ⟨pixels, hyields, hcoords⟩ :=
    lineLoop_coords true hsy hsx hdy hdx (by omega) hpast
  have hideal := idealLine_isLine x1.toInt y1.toInt x2.toInt y2.toInt
  rw [idealLine, if_neg hnotflat] at hideal
  exact ⟨pixels, hyields, by rw [hcoords]; exact hideal⟩

/-- The branches on the sign of a difference. -/
theorem nonneg_cases (a b : Int32) (h : (b.toInt - a.toInt).natAbs < 2 ^ 31) :
    (b - a ≥ 0 ∧ (1 : Int32).toInt = dir a.toInt b.toInt ∧
      (b - a).toInt = (b.toInt - a.toInt).natAbs) ∨
    (¬ b - a ≥ 0 ∧ (-1 : Int32).toInt = dir a.toInt b.toInt ∧
      (-(b - a)).toInt = (b.toInt - a.toInt).natAbs) := by
  have hsub : (b - a).toInt = b.toInt - a.toInt :=
    toInt_sub_of_inInt ⟨by omega, by omega⟩
  have hsign : b - a ≥ 0 ↔ a.toInt ≤ b.toInt := by
    rw [ge_iff_le, Int32.le_iff_toInt_le, hsub, Int32.toInt_zero]
    omega
  unfold dir
  by_cases hle : a.toInt ≤ b.toInt
  · exact .inl ⟨hsign.mpr hle, (if_pos hle).symm, by omega⟩
  · refine .inr ⟨hsign.not.mpr hle, (if_neg hle).symm, ?_⟩
    rw [Int32.toInt_neg, hsub, bmod_of_inInt ⟨by omega, by omega⟩]
    omega

end Octants

/-- In all octants `draw_line` draws a line from `(x1, y1)` to `(x2, y2)`: with one pixel for
    each step along the longer axis, and within half a pixel on the other one. -/
theorem drawLine_isLine (x1 y1 x2 y2 : Int32) (h : NoOverflow x1 y1 x2 y2) :
    ∃ pixels, Yields (fun fuel => drawLine x1 y1 x2 y2 fuel) pixels ∧
      IsLine x1.toInt y1.toInt x2.toInt y2.toInt (pixels.map Pixel.coords) := by
  unfold drawLine
  rcases nonneg_cases x1 x2 h.dx with ⟨hx, hsx, hdx⟩ | ⟨hx, hsx, hdx⟩ <;>
    rcases nonneg_cases y1 y2 h.dy with ⟨hy, hsy, hdy⟩ | ⟨hy, hsy, hdy⟩ <;>
    simp only [hx, hy, if_true, if_false] <;>
    split_ifs with hle
  all_goals first
    | exact lineLoop_flat h hsx hsy hdx hdy hle
    | exact lineLoop_steep h hsx hsy hdx hdy hle

/-- A line in the 6/8 octant. -/
theorem drawLine_isLine_up_left :
    ∃ pixels, Yields (fun fuel => drawLine 3 4 1 (-1) fuel) pixels ∧
      IsLine 3 4 1 (-1) (pixels.map Pixel.coords) :=
  drawLine_isLine 3 4 1 (-1) ⟨by decide, by decide, by decide⟩

end Jz2440.Lcd
