import Jz2440.Runtime.Modulo

/-!
# Signed division and remainder

`__divsi3` and `__modsi3` work on the absolute values and keep the sign of the result in
`ip`. The absolute value of the least integer is itself, which is right as an unsigned word.
-/

namespace Jz2440.Runtime

open Jz2440.Common Jz2440.Common.Arm

/-! ## The code -/

/-- The result gets the sign that `ip` has. -/
def signResult : List Instr := [.test .cmp .r12 (.imm 0), .when .mi (.dp .rsb .r0 .r0 (.imm 0))]

/-- Label `10` of `__divsi3`: a division by 1 or -1. -/
def divsi3One : Code :=
  .seq [.test .teq .r12 (.reg .r0), .when .mi (.dp .rsb .r0 .r0 (.imm 0))] (.ret .movPcLr)

/-- Label `11` of `__divsi3`: the dividend is not above the divisor. -/
def divsi3NotAbove : Code :=
  .seq [.when .lo (.mov .r0 (.imm 0)),
    .when .eq (.mov .r0 (.shift .r12 .asr 31)),
    .when .eq (.dp .orr .r0 .r0 (.imm 1))] (.ret .movPcLr)

/-- Label `12` of `__divsi3`: the divisor is a power of two. -/
def divsi3Pow2 : Code :=
  .seq (armDiv2Order .r1 .r2) <|
  .seq [.test .cmp .r12 (.imm 0),
    .mov .r0 (.shiftReg .r3 .lsr .r2),
    .when .mi (.dp .rsb .r0 .r0 (.imm 0))] (.ret .movPcLr)

/-- `__divsi3` once both operands are positive (lib1funcs.S:267-275). -/
def divsi3Rest : Code :=
  .branch .ls divsi3NotAbove <|
  .seq [.test .tst .r1 (.reg .r2)] <|
  .branch .eq divsi3Pow2 <|
  armDivBody .r3 .r1 .r0 .r2 <|
  .seq signResult (.ret .movPcLr)

/-- `__divsi3` (lib1funcs.S:256-291). -/
def divsi3 : Code :=
  .seq [.test .cmp .r1 (.imm 0), .dp .eor .r12 .r0 (.reg .r1)] <|
  .branch .eq ldiv0 <|
  .seq [.when .mi (.dp .rsb .r1 .r1 (.imm 0)), .dps .sub .r2 .r1 (.imm 1)] <|
  .branch .eq divsi3One <|
  .seq [.movs .r3 (.reg .r0),
    .when .mi (.dp .rsb .r3 .r0 (.imm 0)),
    .test .cmp .r3 (.reg .r1)]
  divsi3Rest

/-- `__modsi3` (lib1funcs.S:294-312). -/
def modsi3 : Code :=
  .seq [.test .cmp .r1 (.imm 0)] <|
  .branch .eq ldiv0 <|
  .seq [.when .mi (.dp .rsb .r1 .r1 (.imm 0)),
    .movs .r12 (.reg .r0),
    .when .mi (.dp .rsb .r0 .r0 (.imm 0)),
    .dps .sub .r2 .r1 (.imm 1)] <|
  .seq modEasy <|
  .branch .ls (.seq signResult (.ret .movPcLr)) <|
  armModBody .r0 .r1 .r2 <|
  .seq signResult (.ret .movPcLr)

/-! ## Absolute values and signs -/

theorem sdiv_eq_abs (a b : Word) :
    a.sdiv b = if (a ^^^ b).msb then -(a.abs / b.abs) else a.abs / b.abs := by
  rw [BitVec.sdiv_eq, BitVec.msb_xor, BitVec.abs, BitVec.abs]
  cases a.msb <;> cases b.msb <;> simp

theorem srem_eq_abs (a b : Word) :
    a.srem b = if a.msb then -(a.abs % b.abs) else a.abs % b.abs := by
  rw [BitVec.srem_eq, BitVec.abs, BitVec.abs]
  cases a.msb <;> cases b.msb <;> simp

theorem abs_ne_zero {b : Word} (hb : b ≠ 0#32) : b.abs ≠ 0#32 := by
  rw [BitVec.abs]
  split_ifs
  · exact fun h => hb (BitVec.neg_eq_zero_iff.mp h)
  · exact hb

/-- The word 1 with the sign of `w`, as label `11` makes it. -/
theorem asr_or_one (w : Word) : w.sshiftRight 31 ||| 1#32 = if w.msb then -1#32 else 1#32 := by
  have hlt := BitVec.toInt_lt (x := w)
  have hle := BitVec.le_toInt (x := w)
  have hshift : w.sshiftRight 31 = if w.msb then -1#32 else 0#32 := by
    refine BitVec.eq_of_toInt_eq ?_
    rw [BitVec.toInt_sshiftRight, Int.shiftRight_eq_div_pow, BitVec.msb_eq_toInt]
    by_cases hneg : w.toInt < 0
    · rw [decide_eq_true hneg, if_pos rfl, show (-1#32 : Word).toInt = -1 by decide]
      omega
    · rw [decide_eq_false hneg, if_neg Bool.false_ne_true, BitVec.toInt_zero]
      omega
  rw [hshift]
  cases w.msb <;> decide

/-- `rsbmi` after the sign of a register has been tested makes it positive. -/
theorem abs_eq_rsb (w : Word) : (if w.msb then 0#32 - w else w) = w.abs := by
  rw [BitVec.abs, BitVec.zero_sub]
  rfl

section Div

variable {s : Cpu}

/-- The last two instructions of the main path. -/
theorem runs_signResult (s : Cpu) :
    (s.runs signResult).get .r0 = if (s.get .r12).msb then -s.get .r0 else s.get .r0 := by
  have hmi := holds_subFlags (s.get .r12) 0#32 .mi
  rw [Cond.order, BitVec.sub_zero] at hmi
  split_ifs with hneg
  · simp [signResult, Cpu.runs, Cpu.step, Cpu.operand, TestOp.flags, DpOp.val, hmi.mpr hneg]
  · simp [signResult, Cpu.runs, Cpu.step, Cpu.operand, TestOp.flags, mt hmi.mp hneg]

theorem divsi3Rest_within : divsi3Rest.Within [.r0, .r1, .r2, .r3] := by
  simp [divsi3Rest, divsi3NotAbove, divsi3Pow2, signResult, armDivBody, scaleUp, divisionLoop,
    subBit, nextBits, armDiv2Order, orderFirst, orderHalve, orderLast, Code.Within, Instr.Within]

/-- The quotient of the absolute values, with the sign of `ip`. -/
theorem divsi3Rest_ends (hflags : s.flags = subFlags (s.get .r3) (s.get .r1))
    (hb : s.get .r1 ≠ 0#32) (hr2 : s.get .r2 = s.get .r1 - 1#32) :
    ∃ t, Ends divsi3Rest s t ∧ t.get .r0 =
      if (s.get .r12).msb then -(s.get .r3 / s.get .r1) else s.get .r3 / s.get .r1 := by
  have hcmp := fun c => holds_subFlags (s.get .r3) (s.get .r1) c
  simp only [← hflags] at hcmp
  by_cases hle : s.get .r3 ≤ s.get .r1
  · -- label 11
    refine ⟨_, .taken ((hcmp .ls).mpr hle) (.seq (.ret .movPcLr _)), ?_⟩
    by_cases hsame : s.get .r3 = s.get .r1
    · have hone : s.get .r3 / s.get .r1 = 1#32 := by
        rw [hsame]
        exact BitVec.eq_of_toNat_eq (Nat.div_self (toNat_pos_of_ne hb))
      have hlo := mt (hcmp .lo).mp (BitVec.not_lt.mpr (hsame ▸ BitVec.le_refl _))
      rw [hone, ← asr_or_one]
      simp [Cpu.exit, Cpu.runs, Cpu.step, Cpu.operand, Shift.val, DpOp.val, hlo,
        (hcmp .eq).mpr hsame]
    · have hlt : s.get .r3 < s.get .r1 := by bv_omega
      have hzero : s.get .r3 / s.get .r1 = 0#32 := BitVec.eq_of_toNat_eq (Nat.div_eq_of_lt hlt)
      rw [hzero, BitVec.neg_zero, ite_self]
      simp [Cpu.exit, Cpu.runs, Cpu.step, Cpu.operand, (hcmp .lo).mpr hlt, mt (hcmp .eq).mp hsame]
  · generalize hs₁ : s.runs [.test .tst .r1 (.reg .r2)] = s₁
    have hsame : ∀ r, s₁.get r = s.get r := by
      rw [← hs₁]
      exact fun r => rfl
    have hflag : Cond.eq.holds s₁.flags = true ↔ s.get .r1 &&& s.get .r2 = 0#32 := by
      rw [← hs₁]
      simp [Cpu.runs, Cpu.step, TestOp.flags, Cpu.operand]
    have hls := mt (hcmp .ls).mp hle
    by_cases hpow : s.get .r1 &&& s.get .r2 = 0#32
    · -- label 12
      have hquot := shiftReg_armDiv2Order (s := s₁) (by decide : [Reg.r3, .r1, .r2].Nodup)
        (hsame .r1 ▸ hb) (by rwa [hsame, ← hr2])
      have hkeeps : Keeps [.r1, .r2] s₁ (s₁.runs (armDiv2Order .r1 .r2)) :=
        keeps_runs (by simp [armDiv2Order, orderFirst, orderHalve, orderLast, Instr.Within]) s₁
      refine ⟨_, .not_taken hls (.seq_to hs₁ (.taken (hflag.mpr hpow) (.seq (.seq
        (.ret .movPcLr _))))), ?_⟩
      generalize s₁.runs (armDiv2Order .r1 .r2) = s₂ at hquot hkeeps ⊢
      have hip : s₂.get .r12 = s.get .r12 := (hkeeps.get (by decide)).trans (hsame .r12)
      have hmi := holds_subFlags (s₂.get .r12) 0#32 .mi
      rw [Cond.order, BitVec.sub_zero] at hmi
      rw [← hip, ← hsame .r3, ← hsame .r1, ← hquot]
      split_ifs with hneg
      · simp [Cpu.exit, Cpu.runs, Cpu.step, Cpu.operand, TestOp.flags, DpOp.val, hmi.mpr hneg]
      · simp [Cpu.exit, Cpu.runs, Cpu.step, Cpu.operand, TestOp.flags, mt hmi.mp hneg]
    · obtain ⟨t, hkeeps, hquot, hends⟩ := armDivBody_ends (s := s₁)
        (⟨by decide, by decide, by decide, by decide, by decide, by decide⟩ : Apart .r3 .r1 .r0 .r2)
        rfl rfl (toNat_pos_of_ne (hsame .r1 ▸ hb))
      refine ⟨_, .not_taken hls (.seq_to hs₁ (.not_taken (mt hflag.mp hpow)
        (hends _ _ (.seq (.ret .movPcLr _))))), ?_⟩
      refine (runs_signResult t).trans ?_
      have hr0 : t.get .r0 = s.get .r3 / s.get .r1 := by
        rw [← hsame, ← hsame]
        exact BitVec.eq_of_toNat_eq hquot
      rw [hkeeps.get (by decide), hsame, hr0]

theorem divsi3Rest_computes (hflags : s.flags = subFlags (s.get .r3) (s.get .r1))
    (hb : s.get .r1 ≠ 0#32) (hr2 : s.get .r2 = s.get .r1 - 1#32) :
    Computes divsi3Rest s
      (if (s.get .r12).msb then -(s.get .r3 / s.get .r1) else s.get .r3 / s.get .r1) := by
  obtain ⟨t, hends, hres⟩ := divsi3Rest_ends hflags hb hr2
  exact ⟨t, hends, hres, hends.callConv divsi3Rest_within (by decide) (by decide)⟩

/-- The divisor made positive, and the test for 1 or -1. -/
theorem runs_absDivisor (hflags : s.flags = subFlags (s.get .r1) 0#32) {t : Cpu}
    (ht : s.runs [.when .mi (.dp .rsb .r1 .r1 (.imm 0)), .dps .sub .r2 .r1 (.imm 1)] = t) :
    Keeps [.r1, .r2] s t ∧ t.get .r1 = (s.get .r1).abs ∧ t.get .r2 = t.get .r1 - 1#32 ∧
      t.flags = subFlags (t.get .r1) 1#32 := by
  have hmi := holds_subFlags (s.get .r1) 0#32 .mi
  rw [Cond.order, BitVec.sub_zero, ← hflags] at hmi
  subst ht
  refine ⟨keeps_runs (by simp [Instr.Within]) s, ?_⟩
  rw [← abs_eq_rsb]
  split_ifs with hneg
  · simp [Cpu.runs, Cpu.step, Cpu.operand, DpOp.val, DpOp.flags, hmi.mpr hneg, Cpu.get_set_of_ne]
  · simp [Cpu.runs, Cpu.step, Cpu.operand, DpOp.val, DpOp.flags, mt hmi.mp hneg, Cpu.get_set_of_ne]

/-- The dividend made positive in `r3`, and compared with the divisor. -/
theorem runs_absDividend {t : Cpu} (ht : s.runs [.movs .r3 (.reg .r0),
      .when .mi (.dp .rsb .r3 .r0 (.imm 0)), .test .cmp .r3 (.reg .r1)] = t) :
    Keeps [.r3] s t ∧ t.get .r3 = (s.get .r0).abs ∧
      t.flags = subFlags (t.get .r3) (t.get .r1) := by
  subst ht
  refine ⟨keeps_runs (by simp [Instr.Within]) s, ?_⟩
  rw [← abs_eq_rsb]
  by_cases hneg : (s.get .r0).msb = true <;>
    simp [Cpu.runs, Cpu.step, Cpu.operand, TestOp.flags, DpOp.val, hneg, Cpu.get_set_of_ne]

theorem sdiv_of_abs_eq_one {a b : Word} (h : b.abs = 1#32) :
    a.sdiv b = if b.msb then -a else a := by
  rw [sdiv_eq_abs, h, BitVec.udiv_one, BitVec.msb_xor, BitVec.abs]
  cases a.msb <;> cases b.msb <;> simp

/-- Division by 1 or -1: `ip ^ r0` is the divisor as it came in. -/
theorem divsi3One_computes {a b : Word} (hr0 : s.get .r0 = a) (hip : s.get .r12 = a ^^^ b)
    (hone : b.abs = 1#32) : Computes divsi3One s (a.sdiv b) := by
  have hxor : a ^^^ b ^^^ a = b := by
    rw [BitVec.xor_comm a b, BitVec.xor_assoc, BitVec.xor_self, BitVec.xor_zero]
  have hkeeps : Keeps [.r0] s (s.runs [.test .teq .r12 (.reg .r0),
      .when .mi (.dp .rsb .r0 .r0 (.imm 0))]) := keeps_runs (by simp [Instr.Within]) s
  refine Computes.ret hkeeps (by decide) (by decide) (.seq (.ret .movPcLr _)) ?_
  rw [sdiv_of_abs_eq_one hone]
  by_cases hneg : b.msb = true <;>
    simp [Cpu.runs, Cpu.step, Cpu.operand, TestOp.flags, DpOp.val, hr0, hip, hxor, hneg]

/-- `__divsi3` returns the quotient rounded towards zero, and 0 for a division by zero. -/
theorem divsi3_computes (s : Cpu) : Computes divsi3 s ((s.get .r0).sdiv (s.get .r1)) := by
  generalize hs₁ : s.runs [.test .cmp .r1 (.imm 0), .dp .eor .r12 .r0 (.reg .r1)] = s₁
  have hkeeps₁ : Keeps [.r12] s s₁ := hs₁ ▸ keeps_runs (by simp [Instr.Within]) s
  have hr0 : s₁.get .r0 = s.get .r0 := hkeeps₁.get (by decide)
  have hr1 : s₁.get .r1 = s.get .r1 := hkeeps₁.get (by decide)
  have hip : s₁.get .r12 = s.get .r0 ^^^ s.get .r1 := by
    rw [← hs₁]
    simp [Cpu.runs, Cpu.step, Cpu.operand, DpOp.val]
  have hflags : s₁.flags = subFlags (s₁.get .r1) 0#32 := by rw [hr1, ← hs₁]; rfl
  have heq := holds_subFlags (s₁.get .r1) 0#32 .eq
  rw [← hflags, Cond.order, hr1] at heq
  by_cases hzero : s.get .r1 = 0#32
  · rw [hzero, BitVec.sdiv_zero]
    exact .of_keeps hkeeps₁ (by decide) (by decide)
      (fun u hu => .seq_to hs₁ (.taken (heq.mpr hzero) hu)) (ldiv0_computes s₁)
  · generalize hs₂ : s₁.runs
      [.when .mi (.dp .rsb .r1 .r1 (.imm 0)), .dps .sub .r2 .r1 (.imm 1)] = s₂
    obtain ⟨hkeeps₂, hr1', hr2, hflags₂⟩ := runs_absDivisor hflags hs₂
    rw [hr1] at hr1'
    have hr0' : s₂.get .r0 = s.get .r0 := (hkeeps₂.get (by decide)).trans hr0
    have hip' : s₂.get .r12 = s.get .r0 ^^^ s.get .r1 := (hkeeps₂.get (by decide)).trans hip
    have hone := holds_subFlags (s₂.get .r1) 1#32 .eq
    rw [← hflags₂, Cond.order, hr1'] at hone
    refine .of_keeps hkeeps₁ (by decide) (by decide)
      (fun u hu => .seq_to hs₁ (.not_taken (mt heq.mp hzero) hu)) ?_
    refine .of_keeps hkeeps₂ (by decide) (by decide) (fun u hu => .seq_to hs₂ hu) ?_
    by_cases habs : (s.get .r1).abs = 1#32
    · exact .of_keeps (.refl [] s₂) (by decide) (by decide) (fun u hu => .taken (hone.mpr habs) hu)
        (divsi3One_computes hr0' hip' habs)
    · generalize hs₃ : s₂.runs [.movs .r3 (.reg .r0), .when .mi (.dp .rsb .r3 .r0 (.imm 0)),
        .test .cmp .r3 (.reg .r1)] = s₃
      obtain ⟨hkeeps₃, hr3, hflags₃⟩ := runs_absDividend hs₃
      have hr1₃ : s₃.get .r1 = (s.get .r1).abs := (hkeeps₃.get (by decide)).trans hr1'
      have hr2₃ : s₃.get .r2 = s₃.get .r1 - 1#32 := by
        rw [hkeeps₃.get (by decide), hkeeps₃.get (by decide), hr2]
      have hip₃ : s₃.get .r12 = s.get .r0 ^^^ s.get .r1 := (hkeeps₃.get (by decide)).trans hip'
      have hrest := divsi3Rest_computes hflags₃ (hr1₃ ▸ abs_ne_zero hzero) hr2₃
      rw [hip₃, hr3, hr1₃, hr0', ← sdiv_eq_abs] at hrest
      exact .of_keeps hkeeps₃ (by decide) (by decide)
        (fun u hu => .not_taken (mt hone.mp habs) (.seq_to hs₃ hu)) hrest

end Div

section Mod

variable {s : Cpu}

/-- Both operands made positive, with the dividend kept in `ip`. -/
theorem runs_absBoth (hflags : s.flags = subFlags (s.get .r1) 0#32) {t : Cpu}
    (ht : s.runs [.when .mi (.dp .rsb .r1 .r1 (.imm 0)), .movs .r12 (.reg .r0),
      .when .mi (.dp .rsb .r0 .r0 (.imm 0)), .dps .sub .r2 .r1 (.imm 1)] = t) :
    Keeps [.r0, .r1, .r2, .r12] s t ∧ t.get .r0 = (s.get .r0).abs ∧
      t.get .r1 = (s.get .r1).abs ∧ t.get .r12 = s.get .r0 ∧ t.get .r2 = t.get .r1 - 1#32 ∧
      t.flags = subFlags (t.get .r1) 1#32 := by
  have hmi := holds_subFlags (s.get .r1) 0#32 .mi
  rw [Cond.order, BitVec.sub_zero, ← hflags] at hmi
  subst ht
  refine ⟨keeps_runs (by simp [Instr.Within]) s, ?_⟩
  rw [← abs_eq_rsb, ← abs_eq_rsb]
  by_cases ha : (s.get .r0).msb = true <;> by_cases hb : (s.get .r1).msb = true <;>
    simp [Cpu.runs, Cpu.step, Cpu.operand, DpOp.val, DpOp.flags, hmi, ha, hb, Cpu.get_set_of_ne]

/-- `__modsi3` returns the remainder, which has the sign of the dividend, and 0 for a
    division by zero. -/
theorem modsi3_computes (s : Cpu) :
    Computes modsi3 s (if s.get .r1 = 0#32 then 0#32 else (s.get .r0).srem (s.get .r1)) := by
  generalize hs₁ : s.runs [.test .cmp .r1 (.imm 0)] = s₁
  have hkeeps₁ : Keeps [.r0, .r1, .r2, .r12] s s₁ := hs₁ ▸ keeps_runs (by simp [Instr.Within]) s
  have hr0 : s₁.get .r0 = s.get .r0 := by rw [← hs₁]; rfl
  have hr1 : s₁.get .r1 = s.get .r1 := by rw [← hs₁]; rfl
  have hflags : s₁.flags = subFlags (s₁.get .r1) 0#32 := by rw [hr1, ← hs₁]; rfl
  have heq := holds_subFlags (s₁.get .r1) 0#32 .eq
  rw [← hflags, Cond.order, hr1] at heq
  split_ifs with hzero
  · exact .of_keeps hkeeps₁ (by decide) (by decide)
      (fun u hu => .seq_to hs₁ (.taken (heq.mpr hzero) hu)) (ldiv0_computes s₁)
  · generalize hs₂ : s₁.runs [.when .mi (.dp .rsb .r1 .r1 (.imm 0)), .movs .r12 (.reg .r0),
      .when .mi (.dp .rsb .r0 .r0 (.imm 0)), .dps .sub .r2 .r1 (.imm 1)] = s₂
    obtain ⟨hkeeps₂, hr0', hr1', hip, hr2, hflags₂⟩ := runs_absBoth hflags hs₂
    rw [hr0] at hr0' hip
    rw [hr1] at hr1'
    obtain ⟨t, ht, hres, hends⟩ := mod_reduces (hr1' ▸ abs_ne_zero hzero) hflags₂ hr2
    have hmod : t.get .r0 = (s.get .r0).abs % (s.get .r1).abs := by
      rw [hr0', hr1', ← BitVec.toNat_umod] at hres
      exact BitVec.eq_of_toNat_eq hres
    have ht' : Keeps [.r0, .r1, .r2, .r12] s₂ (t.runs signResult) :=
      (ht.mono (by decide)).trans (keeps_runs (by simp [signResult, Instr.Within]) t)
    refine Computes.ret ((hkeeps₁.trans hkeeps₂).trans ht') (by decide) (by decide)
      (.seq_to hs₁ (.not_taken (mt heq.mp hzero) (.seq_to hs₂ (hends _ _ (.seq
        (.ret .movPcLr _)))))) ?_
    rw [runs_signResult, hmod, ht.get (by decide), hip, ← srem_eq_abs]

end Mod

end Jz2440.Runtime
