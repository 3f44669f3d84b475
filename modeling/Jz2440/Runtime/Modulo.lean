import Jz2440.Runtime.Division

/-!
# Unsigned remainder

`ARM_MOD_BODY` does without a quotient: `order` counts the comparisons that are left. They
are made in batches of four, and the last one, two or three apart.

* `LeftTo`: what is left of the dividend when the higher bits of the quotient are done.
* `Reducing`: the comparisons below bit `j` are to be done, and `order` is `j - 4`.
* `armModBody_reduces`: `ARM_MOD_BODY` leaves the remainder.
-/

namespace Jz2440.Runtime

open Jz2440.Common Jz2440.Common.Arm

/-! ## The code -/

/-- A comparison and subtraction. -/
def subIf (dividend : Reg) (divisor : Operand) : List Instr :=
  [.test .cmp dividend divisor, .when .hs (.dp .sub dividend dividend divisor)]

/-- The same with the divisor halved for the next one. -/
def subHalve (dividend divisor : Reg) : List Instr :=
  subIf dividend (.reg divisor) ++ [.mov divisor (.shift divisor .lsr 1)]

/-- The end of a batch of four (lib1funcs.S:191-193). -/
def nextBatch (dividend divisor order : Reg) : List Instr :=
  [.test .cmp dividend (.imm 1),
    .mov divisor (.shift divisor .lsr 4),
    .when .ge (.dps .sub order order (.imm 4))]

/-- A batch of four comparisons (lib1funcs.S:183-193). -/
def batchLoop (dividend divisor order : Reg) : List Instr :=
  subIf dividend (.reg divisor) ++ subIf dividend (.shift divisor .lsr 1) ++
    subIf dividend (.shift divisor .lsr 2) ++ subIf dividend (.shift divisor .lsr 3) ++
    nextBatch dividend divisor order

/-- The test after the batches (lib1funcs.S:196-197). -/
def batchesDone (dividend order : Reg) : List Instr :=
  [.test .tst order (.imm 3), .when .ne (.test .teq dividend (.imm 0))]

/-- Label `4` of `ARM_MOD_BODY`: one comparison is left. -/
def modLast (dividend divisor : Reg) (next : Code) : Code :=
  .seq (subIf dividend (.reg divisor)) next

/-- Label `3`: two are left. -/
def modTwo (dividend divisor : Reg) (next : Code) : Code :=
  .seq (subHalve dividend divisor) (modLast dividend divisor next)

/-- Label `2` (lib1funcs.S:201-211): one, two or three are left, as `order` says. -/
def modTail (dividend divisor order : Reg) (next : Code) : Code :=
  .seq [.test .cmn order (.imm 2)] <|
  .branch .lt (modLast dividend divisor next) <|
  .branch .eq (modTwo dividend divisor next) <|
  .seq (subHalve dividend divisor) (modTwo dividend divisor next)

/-- `ARM_MOD_BODY` (lib1funcs.S:145-213), as it is assembled for the architectures below 5;
    `spare` is not used then. -/
def armModBody (dividend divisor order : Reg) (next : Code) : Code :=
  .seq [.mov order (.imm 0)] <|
  .loop (scaleUp dividend divisor 0x10000000 4 (.dp .add order order (.imm 4))) .lo <|
  .loop (scaleUp dividend divisor 0x80000000 1 (.dp .add order order (.imm 1))) .lo <|
  .seq [.dps .sub order order (.imm 3)] <|
  .branch .lt (modTail dividend divisor order next) <|
  .loop (batchLoop dividend divisor order) .ge <|
  .seq (batchesDone dividend order) <|
  .branch .eq next (modTail dividend divisor order next)

/-- What both remainder routines do first (lib1funcs.S:245-248 and 302-305): a divisor 1, a
    dividend that is not above the divisor, and powers of two. -/
def modEasy : List Instr :=
  [.when .ne (.test .cmp .r0 (.reg .r1)),
    .when .eq (.mov .r0 (.imm 0)),
    .when .hi (.test .tst .r1 (.reg .r2)),
    .when .eq (.dp .and .r0 .r0 (.reg .r2))]

/-- `__umodsi3` (lib1funcs.S:241-253). -/
def umodsi3 : Code :=
  .seq [.dps .sub .r2 .r1 (.imm 1)] <|
  .branch .lo ldiv0 <|
  .seq modEasy <|
  .branch .ls (.ret .movPcLr) <|
  armModBody .r0 .r1 .r2 (.ret .movPcLr)

/-! ## The remainder -/

section Mod

variable {dividend divisor order : Reg} {a b j k : ℕ} {s : Cpu}

/-- What is left of `a` in `r` once the bits of the quotient from `2 ^ j` on are done. -/
def LeftTo (a b j : ℕ) (r : Word) : Prop := ∃ q, DividedTo a b j q r.toNat

theorem LeftTo.next {r d : Word} (h : LeftTo a b (k + 1) r) (hd : d.toNat = b * 2 ^ k) :
    LeftTo a b k (if d ≤ r then r - d else r) := by
  obtain ⟨q, hq⟩ := h
  split_ifs with hle
  · refine ⟨q + 2 ^ k, ?_⟩
    rw [BitVec.toNat_sub_of_le hle, hd]
    rw [BitVec.le_def, hd] at hle
    exact hq.subtract hle
  · rw [BitVec.le_def, hd] at hle
    exact ⟨q, hq.skip (by omega)⟩

theorem runs_subIf (d : Operand) :
    (s.runs (subIf dividend d)).get dividend =
      if s.operand d ≤ s.get dividend then s.get dividend - s.operand d else s.get dividend := by
  have hflags : ∀ f, (s.setFlags f).operand d = s.operand d := fun f =>
    Cpu.operand_congr s fun _ _ => rfl
  have hhs := holds_subFlags (s.get dividend) (s.operand d) .hs
  split_ifs with hle
  · simp [Cpu.runs, subIf, Cpu.step, TestOp.flags, DpOp.val, hhs.mpr hle, hflags]
  · simp [Cpu.runs, subIf, Cpu.step, TestOp.flags, mt hhs.mp hle]

theorem keeps_subIf (dividend : Reg) (d : Operand) (s : Cpu) :
    Keeps [dividend] s (s.runs (subIf dividend d)) :=
  keeps_runs (by simp [subIf, Instr.Within]) s

/-- The comparisons for the bits below `2 ^ j` are still to be done. -/
structure Reducing (dividend divisor order : Reg) (a b j : ℕ) (s : Cpu) : Prop where
  divisor : ∀ k, j = k + 1 → (s.get divisor).toNat = b * 2 ^ k
  order : (s.get order).toInt = j - 4
  left : LeftTo a b j (s.get dividend)

/-- The four comparisons of one batch. -/
theorem Reducing.batch (hne : dividend ≠ divisor) {i : ℕ}
    (h : Reducing dividend divisor order a b (i + 4) s) {t : Cpu}
    (ht : t = s.runs (subIf dividend (.reg divisor) ++ subIf dividend (.shift divisor .lsr 1) ++
      subIf dividend (.shift divisor .lsr 2) ++ subIf dividend (.shift divisor .lsr 3))) :
    Keeps [dividend] s t ∧ LeftTo a b i (t.get dividend) := by
  have hdiv := h.divisor (i + 3) rfl
  -- one comparison, from a state in which the divisor is as at the head
  have hbit : ∀ (u : Cpu) (n m : ℕ) (d : Operand), i + 3 = m + n → Keeps [dividend] s u →
      d.reads = [divisor] → s.operand d = s.get divisor >>> n →
      LeftTo a b (m + 1) (u.get dividend) →
      Keeps [dividend] s (u.runs (subIf dividend d)) ∧
      LeftTo a b m ((u.runs (subIf dividend d)).get dividend) := by
    intro u n m d hm hu hd hval hleft
    have hud : (u.operand d).toNat = b * 2 ^ m := by
      rw [Cpu.operand_congr s fun x hx => hu.get (by simp_all [ne_comm]), hval,
        BitVec.toNat_ushiftRight, Nat.shiftRight_eq_div_pow, hdiv, hm, pow_add, ← mul_assoc,
        Nat.mul_div_cancel _ (Nat.two_pow_pos n)]
    refine ⟨hu.trans (keeps_subIf dividend d u), ?_⟩
    rw [runs_subIf]
    exact hleft.next hud
  obtain ⟨hk₁, hp₁⟩ := hbit s 0 (i + 3) (.reg divisor) rfl (.refl _ s) rfl (by simp [Cpu.operand])
    h.left
  obtain ⟨hk₂, hp₂⟩ := hbit _ 1 (i + 2) (.shift divisor .lsr 1) rfl hk₁ rfl rfl hp₁
  obtain ⟨hk₃, hp₃⟩ := hbit _ 2 (i + 1) (.shift divisor .lsr 2) rfl hk₂ rfl rfl hp₂
  obtain ⟨hk₄, hp₄⟩ := hbit _ 3 i (.shift divisor .lsr 3) rfl hk₃ rfl rfl hp₃
  rw [ht, Cpu.runs_append, Cpu.runs_append, Cpu.runs_append]
  exact ⟨hk₄, hp₄⟩

/-- The end of a batch: there is another one if something is left of the dividend and four
    comparisons are to be done. -/
theorem runs_nextBatch (hdd : dividend ≠ divisor) (hdo : dividend ≠ order) (hne : divisor ≠ order)
    (hsmall : (s.get dividend).toNat < 2 ^ 31) {u : Cpu}
    (hu : u = s.runs (nextBatch dividend divisor order)) :
    (Cond.ge.holds u.flags = true ↔ s.get dividend ≠ 0#32 ∧ 4 ≤ (s.get order).toInt) ∧
      u.get dividend = s.get dividend ∧ u.get divisor = s.get divisor >>> 4 ∧
      (s.get dividend ≠ 0#32 → u.get order = s.get order - 4#32) := by
  have hge := holds_subFlags (s.get dividend) 1#32 .ge
  have hsome : Cond.ge.order (s.get dividend) 1#32 ↔ s.get dividend ≠ 0#32 := by
    rw [Cond.order, show (1#32).toInt = 1 by decide, BitVec.toInt_eq_toNat_of_lt (by omega), Ne,
      BitVec.toNat_eq, BitVec.toNat_zero]
    omega
  rw [hsome] at hge
  by_cases hzero : s.get dividend = 0#32
  · have hleave := mt hge.mp (not_not.mpr hzero)
    rw [hzero] at hleave
    rw [hu]
    refine ⟨?_, ?_, ?_, fun h => absurd hzero h⟩ <;>
      simp [Cpu.runs, nextBatch, Cpu.step, Cpu.operand, TestOp.flags, hleave, Shift.val,
        Cpu.get_set_of_ne _ _ _ hdd, hzero]
  · have hgo := hge.mpr hzero
    have hnext := holds_subFlags (s.get order) 4#32 .ge
    have hfour : Cond.ge.order (s.get order) 4#32 ↔ 4 ≤ (s.get order).toInt := by
      rw [Cond.order, show (4#32).toInt = 4 by decide]
    rw [hfour] at hnext
    rw [hu]
    refine ⟨?_, ?_, ?_, fun _ => ?_⟩ <;>
      simp [Cpu.runs, nextBatch, Cpu.step, Cpu.operand, TestOp.flags, DpOp.flags, DpOp.val, hgo,
        Shift.val, Cpu.get_set_of_ne, hdd, hdo, hne, hne.symm, hnext, hzero]

theorem toInt_sub_of_nonneg {w n : Word} (hw : 0 ≤ w.toInt) (hn : 0 ≤ n.toInt) :
    (w - n).toInt = w.toInt - n.toInt := by
  have hw' := BitVec.toInt_lt (x := w)
  have hn' := BitVec.toInt_lt (x := n)
  rw [BitVec.toInt_sub, Int.bmod]
  norm_num at *
  omega

theorem LeftTo.eq_mod {r : Word} (h : LeftTo a b 0 r) : r.toNat = a % b := by
  obtain ⟨q, hq⟩ := h
  exact hq.remainder

theorem LeftTo.mod_eq_zero (h : LeftTo a b j 0#32) : a % b = 0 := by
  obtain ⟨q, hq⟩ := h
  exact (DividedTo.of_zero hq).remainder.symm

/-- The batches end when nothing is left of the dividend, or with less than four comparisons
    to be done. -/
theorem Reducing.loop (hdd : dividend ≠ divisor) (hdo : dividend ≠ order) (hne : divisor ≠ order)
    (hb : 0 < b) {i : ℕ} (h : Reducing dividend divisor order a b (i + 4) s) :
    ∃ t, Returns (loopPass (batchLoop dividend divisor order) .ge) s t ∧
      (t.get dividend = 0#32 ∧ a % b = 0 ∨ ∃ j < 4, Reducing dividend divisor order a b j t) := by
  refine Returns.of_variant (fun t => ∃ i, Reducing dividend divisor order a b (i + 4) t) _
    (fun t => (t.get divisor).toNat) ?_ ⟨i, h⟩
  rintro t ⟨i, ht⟩
  have htop := ht.divisor (i + 3) rfl
  obtain ⟨hkeeps, hleft⟩ := ht.batch hdd rfl
  rw [batchLoop, loopPass_append]
  generalize t.runs _ = v at hkeeps hleft ⊢
  have hdivisor : v.get divisor = t.get divisor := hkeeps.get (by simp [hdd.symm])
  have horder : (v.get order).toInt = i := by
    rw [hkeeps.get (by simp [hdo.symm]), ht.order]
    omega
  have hsmall : (v.get dividend).toNat < 2 ^ 31 := by
    obtain ⟨q, hq⟩ := hleft
    have hlt := (t.get divisor).isLt
    have hq' := hq.lt
    rw [htop, pow_add, ← mul_assoc] at hlt
    omega
  obtain ⟨hgo, hdividend, hshift, hnext⟩ := runs_nextBatch hdd hdo hne hsmall rfl
  have hdiv4 : (v.get divisor >>> 4).toNat = b * 2 ^ (i + 3) / 2 ^ 4 := by
    rw [BitVec.toNat_ushiftRight, Nat.shiftRight_eq_div_pow, hdivisor, htop]
  generalize hu : v.runs (nextBatch dividend divisor order) = u at hgo hdividend hshift hnext
  by_cases hzero : v.get dividend = 0#32
  · refine .inr ⟨u, ?_, .inl ⟨hdividend.trans hzero, ?_⟩⟩
    · rw [loopPass, hu, if_neg (mt hgo.mp fun h => h.1 hzero)]
    · rw [hzero] at hleft
      exact hleft.mod_eq_zero
  · -- the comparisons below bit `i` are to be done
    have hreduced : Reducing dividend divisor order a b i u := by
      refine ⟨?_, ?_, by rwa [hdividend]⟩
      · rintro k rfl
        rw [hshift, hdiv4, show k + 1 + 3 = k + 4 by omega, pow_add, ← mul_assoc,
          Nat.mul_div_cancel _ (by decide)]
      · rw [hnext hzero, toInt_sub_of_nonneg (by omega) (by decide), horder]
        rfl
    by_cases hfull : 4 ≤ (v.get order).toInt
    · refine .inl ⟨u, ?_, ⟨i - 4, ?_⟩, ?_⟩
      · rw [loopPass, hu, if_pos (hgo.mpr ⟨hzero, hfull⟩)]
      · rwa [show i - 4 + 4 = i by omega]
      · rw [hshift, hdiv4, htop]
        exact Nat.div_lt_self (Nat.mul_pos hb (Nat.two_pow_pos _)) (by decide)
    · refine .inr ⟨u, ?_, .inr ⟨i, by omega, hreduced⟩⟩
      rw [loopPass, hu, if_neg (mt hgo.mp fun h => hfull h.2)]

/-- A piece of code that goes on with the remainder in the dividend's register. -/
def Reduces (dividend divisor order : Reg) (r : ℕ) (code : Code → Code) (s : Cpu) : Prop :=
  ∃ t, Keeps [dividend, divisor, order] s t ∧ (t.get dividend).toNat = r ∧
    ∀ next u, Ends next t u → Ends (code next) s u

/-- Bit `k` is the next one. -/
structure AtBit (dividend divisor : Reg) (a b k : ℕ) (s : Cpu) : Prop where
  divisor : (s.get divisor).toNat = b * 2 ^ k
  left : LeftTo a b (k + 1) (s.get dividend)

theorem AtBit.subHalve (hne : dividend ≠ divisor) (h : AtBit dividend divisor a b (k + 1) s) :
    AtBit dividend divisor a b k (s.runs (subHalve dividend divisor)) := by
  have hdiv : (s.runs (subIf dividend (.reg divisor))).get divisor = s.get divisor :=
    (keeps_subIf dividend _ s).get (by simp [hne.symm])
  have hleft : LeftTo a b (k + 1) ((s.runs (subIf dividend (.reg divisor))).get dividend) := by
    rw [runs_subIf]
    exact h.left.next h.divisor
  rw [Runtime.subHalve, Cpu.runs_append]
  refine ⟨?_, ?_⟩
  · simp only [Cpu.runs, List.foldl_cons, List.foldl_nil, Cpu.step, Cpu.get_set_self, Cpu.operand,
      Shift.val]
    rw [← Cpu.runs, hdiv, BitVec.toNat_ushiftRight, Nat.shiftRight_eq_div_pow, h.divisor, pow_add,
      ← mul_assoc, Nat.mul_div_cancel _ (by decide)]
  · exact (Cpu.get_set_of_ne _ _ _ hne).symm ▸ hleft

theorem AtBit.modLast (h : AtBit dividend divisor a b 0 s) :
    Reduces dividend divisor order (a % b) (modLast dividend divisor) s := by
  refine ⟨s.runs (subIf dividend (.reg divisor)), keeps_runs (by simp [subIf, Instr.Within]) s, ?_,
    fun next u hu => .seq hu⟩
  rw [runs_subIf]
  exact (h.left.next h.divisor).eq_mod

theorem Reduces.done {r : ℕ} (h : (s.get dividend).toNat = r) :
    Reduces dividend divisor order r id s :=
  ⟨s, .refl _ s, h, fun _ _ hu => hu⟩

theorem Reduces.seq {code : Code → Code} {is : List Instr} {r : ℕ}
    (his : ∀ i ∈ is, i.Within [dividend, divisor, order])
    (h : Reduces dividend divisor order r code (s.runs is)) :
    Reduces dividend divisor order r (fun next => .seq is (code next)) s := by
  obtain ⟨t, hkeeps, hres, hends⟩ := h
  exact ⟨t, (keeps_runs his s).trans hkeeps, hres, fun next u hu => .seq (hends next u hu)⟩

theorem Reduces.taken {code rest : Code → Code} {c : Cond} {r : ℕ} (hc : c.holds s.flags = true)
    (h : Reduces dividend divisor order r code s) :
    Reduces dividend divisor order r (fun next => .branch c (code next) (rest next)) s := by
  obtain ⟨t, hkeeps, hres, hends⟩ := h
  exact ⟨t, hkeeps, hres, fun next u hu => .taken hc (hends next u hu)⟩

theorem Reduces.not_taken {code target : Code → Code} {c : Cond} {r : ℕ}
    (hc : ¬ c.holds s.flags = true) (h : Reduces dividend divisor order r code s) :
    Reduces dividend divisor order r (fun next => .branch c (target next) (code next)) s := by
  obtain ⟨t, hkeeps, hres, hends⟩ := h
  exact ⟨t, hkeeps, hres, fun next u hu => .not_taken hc (hends next u hu)⟩

theorem Reduces.loop {code : Code → Code} {body : List Instr} {c : Cond} {r : ℕ} {t : Cpu}
    (hbody : ∀ i ∈ body, i.Within [dividend, divisor, order])
    (hr : Returns (loopPass body c) s t) (h : Reduces dividend divisor order r code t) :
    Reduces dividend divisor order r (fun next => .loop body c (code next)) s := by
  obtain ⟨u, hkeeps, hres, hends⟩ := h
  exact ⟨u, (keeps_returns hbody hr).trans hkeeps, hres,
    fun next v hv => .loop hr (hends next v hv)⟩

theorem AtBit.modTwo (hne : dividend ≠ divisor) (h : AtBit dividend divisor a b 1 s) :
    Reduces dividend divisor order (a % b) (modTwo dividend divisor) s :=
  .seq (by simp [Runtime.subHalve, subIf, Instr.Within]) (h.subHalve hne).modLast

/-- Label `2` does the comparisons that are left. -/
theorem Reducing.modTail (hne : dividend ≠ divisor) (h : Reducing dividend divisor order a b j s)
    (hpos : 0 < j) (hj : j < 4) :
    Reduces dividend divisor order (a % b) (modTail dividend divisor order) s := by
  obtain ⟨k, rfl⟩ := Nat.exists_eq_add_of_le' hpos
  have hat : AtBit dividend divisor a b k (s.runs [.test .cmn order (.imm 2)]) :=
    ⟨h.divisor k rfl, h.left⟩
  have hflags : (s.runs [.test .cmn order (.imm 2)]).flags = addFlags (s.get order) 2#32 := rfl
  have hword : s.get order = BitVec.ofInt 32 ((k + 1 : ℕ) - 4) := by
    rw [← h.order, BitVec.ofInt_toInt]
  rw [hword] at hflags
  refine .seq (by simp [Instr.Within]) ?_
  obtain rfl | rfl | rfl : k = 0 ∨ k = 1 ∨ k = 2 := by omega
  · exact .taken (by rw [hflags]; decide) hat.modLast
  · exact .not_taken (by rw [hflags]; decide) (.taken (by rw [hflags]; decide) (hat.modTwo hne))
  · exact .not_taken (by rw [hflags]; decide) (.not_taken (by rw [hflags]; decide)
      (.seq (by simp [Runtime.subHalve, subIf, Instr.Within]) ((hat.subHalve hne).modTwo hne)))

/-- `order` counts the shifts of the divisor. -/
def IsOrder (k : ℕ) (w : Word) : Prop := w.toNat = k

theorem IsOrder.add {k n : ℕ} {w : Word} (hlt : 2 ^ (k + n) < 2 ^ 32) (h : IsOrder k w) :
    IsOrder (k + n) (w + BitVec.ofNat 32 n) := by
  have hsum : k + n < 32 := (Nat.pow_lt_pow_iff_right (by decide)).mp hlt
  rw [IsOrder] at h ⊢
  rw [BitVec.toNat_add, BitVec.toNat_ofNat, h]
  omega

/-- The loops of `ARM_MOD_BODY` add to `order`. -/
theorem Scaled.loop_order (hdd : dividend ≠ divisor) (hdo : dividend ≠ order)
    (hne : divisor ≠ order) (hb : 0 < b) (limit : Word) (n : ℕ) (hn : 0 < n)
    (hfit : limit.toNat * 2 ^ n ≤ 2 ^ 32)
    (h : Scaled dividend divisor order IsOrder a b k s) :
    ∃ t, Returns (loopPass (scaleUp dividend divisor limit n
        (.dp .add order order (.imm (BitVec.ofNat 32 n)))) .lo) s t ∧
      ∃ k, Scaled dividend divisor order IsOrder a b k t ∧
        (limit.toNat ≤ b * 2 ^ k ∨ a ≤ b * 2 ^ k) :=
  h.loop (f := fun w => w + BitVec.ofNat 32 n) hdd hdo hne hb hn hfit (fun _ => rfl)
    fun _ _ => IsOrder.add

/-- `subs order, order, #3`: what the branch to label `2` asks, and the state it finds. -/
theorem Scaled.reducing (hdo : dividend ≠ order) (hne : divisor ≠ order) (hb : 0 < b)
    (hend : 2 ^ 31 ≤ b * 2 ^ k ∨ a ≤ b * 2 ^ k)
    (h : Scaled dividend divisor order IsOrder a b k s) :
    Reducing dividend divisor order a b (k + 1) (s.runs [.dps .sub order order (.imm 3)]) ∧
      (Cond.lt.holds (s.runs [.dps .sub order order (.imm 3)]).flags = true ↔ k < 3) := by
  have hk : k < 32 := by
    have hlt := (s.get divisor).isLt
    rw [h.divisor] at hlt
    exact (Nat.pow_lt_pow_iff_right (by decide)).mp
      (lt_of_le_of_lt (Nat.le_mul_of_pos_left _ hb) hlt)
  have hcount : (s.get order).toInt = k := by
    have hval : (s.get order).toNat = k := h.counter
    rw [BitVec.toInt_eq_toNat_of_lt (by omega), hval]
  refine ⟨⟨?_, ?_, 0, ?_⟩, ?_⟩
  · rintro k' hk'
    obtain rfl : k = k' := by omega
    exact h.divisor ▸ congrArg BitVec.toNat (Cpu.get_set_of_ne _ _ _ hne)
  · show ((s.set order (s.get order - 3#32)).get order).toInt = _
    rw [Cpu.get_set_self, toInt_sub_of_nonneg (by omega) (by decide), hcount]
    push_cast [show (3#32).toInt = 3 by decide]
    ring
  · have hsame : (s.runs [.dps .sub order order (.imm 3)]).get dividend = s.get dividend :=
      Cpu.get_set_of_ne _ _ _ hdo
    rw [hsame, h.dividend]
    exact h.dividedTo hb hend
  · refine (holds_subFlags (s.get order) 3#32 .lt).trans ?_
    rw [Cond.order, hcount, show (3#32).toInt = 3 by decide]
    omega

theorem holds_batchesDone (dividend order : Reg) (s : Cpu) :
    Cond.eq.holds (s.runs (batchesDone dividend order)).flags = true ↔
      s.get order &&& 3#32 = 0#32 ∨ s.get dividend = 0#32 := by
  by_cases hlow : s.get order &&& 3#32 = 0#32 <;>
    simp [batchesDone, Cpu.runs, Cpu.step, Cpu.operand, TestOp.flags, hlow]

theorem get_batchesDone (dividend order r : Reg) (s : Cpu) :
    (s.runs (batchesDone dividend order)).get r = s.get r := by
  have hkeeps : Keeps [] s (s.runs (batchesDone dividend order)) :=
    keeps_runs (by simp [batchesDone, Instr.Within]) s
  exact hkeeps.get (by simp)

theorem Reducing.order_and_three (h : Reducing dividend divisor order a b j s) (hj : j < 4) :
    s.get order &&& 3#32 = 0#32 ↔ j = 0 := by
  have hword : s.get order = BitVec.ofInt 32 (j - 4) := by rw [← h.order, BitVec.ofInt_toInt]
  rw [hword]
  interval_cases j <;> decide

/-- `ARM_MOD_BODY` leaves the remainder in the register of the dividend. -/
theorem armModBody_reduces (hdd : dividend ≠ divisor) (hdo : dividend ≠ order)
    (hne : divisor ≠ order) (ha : (s.get dividend).toNat = a) (hdiv : (s.get divisor).toNat = b)
    (hb : 0 < b) :
    Reduces dividend divisor order (a % b) (armModBody dividend divisor order) s := by
  have h₀ : Scaled dividend divisor order IsOrder a b 0 (s.runs [.mov order (.imm 0)]) := by
    refine ⟨?_, ?_, ?_⟩ <;>
      simp [Cpu.runs, Cpu.step, Cpu.operand, Cpu.get_set_of_ne, hdo, hne, ha, hdiv, IsOrder]
  obtain ⟨t₁, hr₁, k₁, h₁, -⟩ := h₀.loop_order hdd hdo hne hb 0x10000000#32 4 (by decide)
    (by decide)
  obtain ⟨t₂, hr₂, k₂, h₂, hend⟩ := h₁.loop_order hdd hdo hne hb 0x80000000#32 1 (by decide)
    (by decide)
  obtain ⟨hred, hlt⟩ := h₂.reducing hdo hne hb hend
  refine .seq (by simp [Instr.Within]) (.loop (by simp [scaleUp, Instr.Within]) hr₁
    (.loop (by simp [scaleUp, Instr.Within]) hr₂ (.seq (by simp [Instr.Within]) ?_)))
  by_cases hk : k₂ < 3
  · exact .taken (hlt.mpr hk) (hred.modTail hdd (Nat.succ_pos k₂) (by omega))
  · obtain ⟨i, rfl⟩ := Nat.exists_eq_add_of_le' (Nat.le_of_not_lt hk)
    obtain ⟨t₃, hr₃, hleft⟩ := hred.loop hdd hdo hne hb
    have hdone := holds_batchesDone dividend order t₃
    have hsame := fun r => get_batchesDone dividend order r t₃
    refine .not_taken (mt hlt.mp hk) (.loop
      (by simp [batchLoop, subIf, nextBatch, Instr.Within]) hr₃
      (.seq (by simp [batchesDone, Instr.Within]) ?_))
    rcases hleft with ⟨hzero, hmod⟩ | ⟨j, hj, hred'⟩
    · refine .taken (hdone.mpr (.inr hzero)) (.done ?_)
      rw [hsame, hmod]
      exact congrArg BitVec.toNat hzero
    · rw [hred'.order_and_three hj] at hdone
      have hagain : Reducing dividend divisor order a b j (t₃.runs (batchesDone dividend order)) :=
        ⟨by simpa only [hsame] using hred'.divisor, by simpa only [hsame] using hred'.order,
          by simpa only [hsame] using hred'.left⟩
      by_cases hlast : j = 0 ∨ t₃.get dividend = 0#32
      · refine .taken (hdone.mpr hlast) (.done ?_)
        rw [hsame]
        rcases hlast with rfl | hzero
        · exact hred'.left.eq_mod
        · have hleft := hred'.left
          rw [hzero] at hleft ⊢
          exact hleft.mod_eq_zero.symm
      · exact .not_taken (mt hdone.mp hlast)
          (hagain.modTail hdd (Nat.pos_of_ne_zero fun h => hlast (.inl h)) hj)

end Mod

/-! ## Unsigned remainder -/

section Unsigned

variable {s : Cpu}

theorem and_pred_of_tst {a b : Word} (hb : b ≠ 0#32) (h : b &&& (b - 1#32) = 0#32) :
    a &&& (b - 1#32) = a % b := by
  obtain ⟨k, -, hval⟩ := eq_two_pow_of_tst hb h
  have hpred : (b - 1#32).toNat = b.toNat - 1 :=
    BitVec.toNat_sub_of_le (BitVec.le_def.mpr (toNat_pos_of_ne hb))
  refine BitVec.eq_of_toNat_eq ?_
  rw [BitVec.toNat_and, hpred, hval, Nat.and_two_pow_sub_one_eq_mod, BitVec.toNat_umod, hval]

theorem keeps_modEasy (s : Cpu) : Keeps [.r0] s (s.runs modEasy) :=
  keeps_runs (by simp [modEasy, Instr.Within]) s

/-- After the easy cases either `ls` holds and the remainder is there, or nothing has changed. -/
theorem runs_modEasy (hb : s.get .r1 ≠ 0#32) (hflags : s.flags = subFlags (s.get .r1) 1#32)
    (hr2 : s.get .r2 = s.get .r1 - 1#32) :
    (Cond.ls.holds (s.runs modEasy).flags = true ∧
      (s.runs modEasy).get .r0 = s.get .r0 % s.get .r1) ∨
    (¬ Cond.ls.holds (s.runs modEasy).flags = true ∧ (s.runs modEasy).get .r0 = s.get .r0) := by
  have hone := fun c => holds_subFlags (s.get .r1) 1#32 c
  have hcmp := fun c => holds_subFlags (s.get .r0) (s.get .r1) c
  simp only [← hflags] at hone
  by_cases h₁ : s.get .r1 = 1#32
  · left
    have hne := mt (hone .ne).mp (not_not.mpr h₁)
    have heq := (hone .eq).mpr h₁
    have hhi := mt (hone .hi).mp (BitVec.not_lt.mpr (h₁ ▸ BitVec.le_refl _))
    have hls := (hone .ls).mpr (h₁ ▸ BitVec.le_refl _)
    rw [h₁, BitVec.umod_one]
    constructor <;>
      simp [modEasy, Cpu.runs, Cpu.step, Cpu.operand, DpOp.val, hne, heq, hhi, hls]
  · have hne := (hone .ne).mpr h₁
    by_cases hgt : s.get .r1 < s.get .r0
    · have heq := mt (hcmp .eq).mp (BitVec.ne_of_lt hgt).symm
      have hhi := (hcmp .hi).mpr hgt
      have hcarry : (subFlags (s.get .r0) (s.get .r1)).c = true :=
        decide_eq_true (BitVec.le_of_lt hgt)
      by_cases hpow : s.get .r1 &&& s.get .r2 = 0#32
      · left
        have hmod : s.get .r0 &&& s.get .r2 = s.get .r0 % s.get .r1 := by
          rw [hr2] at hpow ⊢
          exact and_pred_of_tst hb hpow
        constructor <;>
          simp [modEasy, Cpu.runs, Cpu.step, Cpu.operand, TestOp.flags, DpOp.val, hne, heq, hhi,
            hpow, hmod]
      · right
        constructor <;>
          simp [modEasy, Cpu.runs, Cpu.step, Cpu.operand, TestOp.flags, hne, heq, hhi, hpow,
            Cpu.carryOut, hcarry]
    · left
      have hle : s.get .r0 ≤ s.get .r1 := BitVec.not_lt.mp hgt
      have hhi := mt (hcmp .hi).mp hgt
      have hls := (hcmp .ls).mpr hle
      by_cases hsame : s.get .r0 = s.get .r1
      · have heq := (hcmp .eq).mpr hsame
        have hzero : s.get .r0 % s.get .r1 = 0#32 := by rw [hsame, BitVec.umod_self]
        rw [hzero]
        constructor <;>
          simp [modEasy, Cpu.runs, Cpu.step, Cpu.operand, TestOp.flags, DpOp.val, hne, heq, hhi,
            hls]
      · have heq := mt (hcmp .eq).mp hsame
        have hsmall : s.get .r0 % s.get .r1 = s.get .r0 := BitVec.umod_eq_of_lt (by bv_omega)
        rw [hsmall]
        constructor <;>
          simp [modEasy, Cpu.runs, Cpu.step, Cpu.operand, TestOp.flags, hne, heq, hhi, hls]

/-- The remainder as both routines find it. -/
theorem mod_reduces (hb : s.get .r1 ≠ 0#32) (hflags : s.flags = subFlags (s.get .r1) 1#32)
    (hr2 : s.get .r2 = s.get .r1 - 1#32) :
    Reduces .r0 .r1 .r2 ((s.get .r0).toNat % (s.get .r1).toNat)
      (fun next => .seq modEasy (.branch .ls next (armModBody .r0 .r1 .r2 next))) s := by
  refine .seq (by simp [modEasy, Instr.Within]) ?_
  rcases runs_modEasy hb hflags hr2 with ⟨hls, hmod⟩ | ⟨hls, hsame⟩
  · exact .taken hls (.done (congrArg BitVec.toNat hmod))
  · have hr1 := (keeps_modEasy s).get (r := .r1) (by decide)
    exact .not_taken hls (armModBody_reduces (by decide) (by decide) (by decide)
      (congrArg BitVec.toNat hsame) (congrArg BitVec.toNat hr1) (toNat_pos_of_ne hb))

/-- `__umodsi3` returns the remainder, and 0 for a division by zero. -/
theorem umodsi3_computes (s : Cpu) :
    Computes umodsi3 s (if s.get .r1 = 0#32 then 0#32 else s.get .r0 % s.get .r1) := by
  have hlo := holds_subFlags (s.get .r1) 1#32 .lo
  generalize hs₁ : s.runs [.dps .sub .r2 .r1 (.imm 1)] = s₁
  have hkeeps : Keeps [.r0, .r1, .r2] s s₁ := by
    rw [← hs₁]
    exact keeps_runs (by simp [Instr.Within]) s
  have hflags : s₁.flags = subFlags (s.get .r1) 1#32 := by rw [← hs₁]; rfl
  have hr0 : s₁.get .r0 = s.get .r0 := by rw [← hs₁]; rfl
  have hr1 : s₁.get .r1 = s.get .r1 := by rw [← hs₁]; rfl
  have hr2 : s₁.get .r2 = s₁.get .r1 - 1#32 := by rw [← hs₁]; rfl
  rw [← hflags] at hlo
  split_ifs with hzero
  · have hbelow : s.get .r1 < 1#32 := hzero ▸ (by decide : 0#32 < 1#32)
    exact .of_keeps hkeeps (by decide) (by decide)
      (fun u hu => .seq_to hs₁ (.taken (hlo.mpr hbelow) hu)) (ldiv0_computes s₁)
  · have habove : ¬ s.get .r1 < 1#32 := by bv_omega
    obtain ⟨t, ht, hres, hends⟩ := mod_reduces (hr1 ▸ hzero) (hr1.symm ▸ hflags) hr2
    refine Computes.ret (hkeeps.trans ht) (by decide) (by decide)
      (.seq_to hs₁ (.not_taken (mt hlo.mp habove) (hends _ _ (.ret .movPcLr t)))) ?_
    rw [hr0, hr1] at hres
    exact BitVec.eq_of_toNat_eq (hres.trans BitVec.toNat_umod.symm)

end Unsigned

end Jz2440.Runtime
