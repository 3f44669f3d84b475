import Jz2440.Common.Arm
import Jz2440.Common.ShiftSubtract

/-!
# Unsigned division

The core has no divide instruction, and a bare-metal program is not linked against the
library of the compiler: `lib1funcs.S` brings `__udivsi3`, `__umodsi3`, `__divsi3` and
`__modsi3`. It is assembled for architecture 1, so that the parts with `clz` are not used.

This module has the pieces that the routines share and `__udivsi3`.

* `Scaled`: the divisor has been shifted up, and a counter says by how much.
* `Dividing`: the head of the division loop; four bits of the quotient in each pass.
* `armDivBody_ends`: `ARM_DIV_BODY` leaves the quotient.
* `armDiv2Order_get`: `ARM_DIV2_ORDER` finds the logarithm of a power of two.
* `Computes`: a routine comes back to its caller with a value, in the way that the
  procedure call standard asks.
-/

namespace Jz2440.Runtime

open Jz2440.Common Jz2440.Common.Arm

/-! ## The code -/

/-- One of the loops that scale the divisor up while it is below `limit` and below the
    dividend (lib1funcs.S:75-78 and 83-86, 162-165 and 170-173); `count` keeps account of
    the shift. -/
def scaleUp (dividend divisor : Reg) (limit : Word) (k : ℕ) (count : Instr) : List Instr :=
  [.test .cmp divisor (.imm limit),
    .when .lo (.test .cmp divisor (.reg dividend)),
    .when .lo (.mov divisor (.shift divisor .lsl k)),
    .when .lo count]

/-- Subtract the operand if it fits, and set the bit of the result. -/
def subBit (dividend result : Reg) (divisor bit : Operand) : List Instr :=
  [.test .cmp dividend divisor,
    .when .hs (.dp .sub dividend dividend divisor),
    .when .hs (.dp .orr result result bit)]

/-- On to the next four bits, unless nothing is left over or there are none. -/
def nextBits (dividend divisor curbit : Reg) : List Instr :=
  [.test .cmp dividend (.imm 0),
    .when .ne (.movs curbit (.shift curbit .lsr 4)),
    .when .ne (.mov divisor (.shift divisor .lsr 4))]

/-- The division loop (lib1funcs.S:94-108). -/
def divisionLoop (dividend divisor result curbit : Reg) : List Instr :=
  subBit dividend result (.reg divisor) (.reg curbit) ++
  subBit dividend result (.shift divisor .lsr 1) (.shift curbit .lsr 1) ++
  subBit dividend result (.shift divisor .lsr 2) (.shift curbit .lsr 2) ++
  subBit dividend result (.shift divisor .lsr 3) (.shift curbit .lsr 3) ++
  nextBits dividend divisor curbit

/-- `ARM_DIV_BODY` (lib1funcs.S:48-111), as it is assembled for the architectures below 5. -/
def armDivBody (dividend divisor result curbit : Reg) (next : Code) : Code :=
  .seq [.test .tst divisor (.imm 0xe0000000),
      .when .eq (.mov divisor (.shift divisor .lsl 3)),
      .when .eq (.mov curbit (.imm 8)),
      .when .ne (.mov curbit (.imm 1))] <|
  .loop (scaleUp dividend divisor 0x10000000 4 (.mov curbit (.shift curbit .lsl 4))) .lo <|
  .loop (scaleUp dividend divisor 0x80000000 1 (.mov curbit (.shift curbit .lsl 1))) .lo <|
  .seq [.mov result (.imm 0)] <|
  .loop (divisionLoop dividend divisor result curbit) .ne next

/-- The first piece of `ARM_DIV2_ORDER` (lib1funcs.S:123-126). -/
def orderFirst (divisor order : Reg) : List Instr :=
  [.test .cmp divisor (.imm (1#32 <<< 16)),
    .when .hs (.mov divisor (.shift divisor .lsr 16)),
    .when .hs (.mov order (.imm 16)),
    .when .lo (.mov order (.imm 0))]

/-- One of its next two pieces (lib1funcs.S:128-130 and 132-134). -/
def orderHalve (divisor order : Reg) (n : ℕ) : List Instr :=
  [.test .cmp divisor (.imm (1#32 <<< n)),
    .when .hs (.mov divisor (.shift divisor .lsr n)),
    .when .hs (.dp .add order order (.imm (BitVec.ofNat 32 n)))]

/-- Its last piece (lib1funcs.S:136-138). -/
def orderLast (divisor order : Reg) : List Instr :=
  [.test .cmp divisor (.imm (1#32 <<< 2)),
    .when .hi (.dp .add order order (.imm 3)),
    .when .ls (.dp .add order order (.shift divisor .lsr 1))]

/-- `ARM_DIV2_ORDER` (lib1funcs.S:114-142). -/
def armDiv2Order (divisor order : Reg) : List Instr :=
  orderFirst divisor order ++ orderHalve divisor order 8 ++ orderHalve divisor order 4 ++
    orderLast divisor order

/-- `Ldiv0` (lib1funcs.S:315-320); the call of `__div0` is commented out there. -/
def ldiv0 : Code := .seq [.stmdb [.lr], .mov .r0 (.imm 0)] (.ret .ldrPc)

/-- Label `11` of `__udivsi3`: the dividend is not above the divisor. -/
def udivsi3NotAbove : Code :=
  .seq [.when .eq (.mov .r0 (.imm 1)), .when .ne (.mov .r0 (.imm 0))] (.ret .movPcLr)

/-- Label `12` of `__udivsi3`: the divisor is a power of two. -/
def udivsi3Pow2 : Code :=
  .seq (armDiv2Order .r1 .r2) (.seq [.mov .r0 (.shiftReg .r0 .lsr .r2)] (.ret .movPcLr))

/-- `__udivsi3` for divisors above 1 (lib1funcs.S:221-229). -/
def udivsi3Rest : Code :=
  .seq [.test .cmp .r0 (.reg .r1)] <|
  .branch .ls udivsi3NotAbove <|
  .seq [.test .tst .r1 (.reg .r2)] <|
  .branch .eq udivsi3Pow2 <|
  armDivBody .r0 .r1 .r2 .r3 <|
  .seq [.mov .r0 (.reg .r2)] (.ret .movPcLr)

/-- `__udivsi3` (lib1funcs.S:216-238). -/
def udivsi3 : Code :=
  .seq [.dps .sub .r2 .r1 (.imm 1)] <|
  .branch .eq (.ret .movPcLr) <|
  .branch .lo ldiv0 udivsi3Rest

/-! ## Scaling the divisor up -/

theorem toNat_shiftLeft_of_lt {w : Word} {k : ℕ} (h : w.toNat * 2 ^ k < 2 ^ 32) :
    (w <<< k).toNat = w.toNat * 2 ^ k := by
  rw [BitVec.toNat_shiftLeft, Nat.shiftLeft_eq, Nat.mod_eq_of_lt h]

section ScaleUp

variable {dividend divisor c : Reg} {limit : Word} {n : ℕ} {count : Instr} {f : Word → Word}
  {s : Cpu}

/-- The state after a pass that scales the divisor up; `f` is what happens to the counter. -/
def scaledUp (dividend divisor c : Reg) (n : ℕ) (f : Word → Word) (s : Cpu) : Cpu :=
  ((s.setFlags (subFlags (s.get divisor) (s.get dividend))).set divisor
    (s.get divisor <<< n)).set c (f (s.get c))

theorem loopPass_scaleUp_again (hlimit : s.get divisor < limit)
    (hlt : s.get divisor < s.get dividend)
    (hcount : ∀ t : Cpu, t.step count = t.set c (f (t.get c))) (hc : c ≠ divisor) :
    loopPass (scaleUp dividend divisor limit n count) .lo s =
      .again (scaledUp dividend divisor c n f s) := by
  have h₁ := (holds_subFlags (s.get divisor) limit .lo).mpr hlimit
  have h₂ := (holds_subFlags (s.get divisor) (s.get dividend) .lo).mpr hlt
  simp [loopPass, Cpu.runs, scaleUp, Cpu.step, Cpu.operand, TestOp.flags, h₁, h₂, hcount, Shift.val,
    scaledUp, Cpu.get_set_of_ne _ _ _ hc]

theorem loopPass_scaleUp_leave (h : ¬ (s.get divisor < limit ∧ s.get divisor < s.get dividend)) :
    ∃ f, loopPass (scaleUp dividend divisor limit n count) .lo s = .leave (s.setFlags f) := by
  by_cases hlimit : s.get divisor < limit
  · have h₁ := (holds_subFlags (s.get divisor) limit .lo).mpr hlimit
    have h₂ := mt (holds_subFlags (s.get divisor) (s.get dividend) .lo).mp
      fun hlt => h ⟨hlimit, hlt⟩
    refine ⟨subFlags (s.get divisor) (s.get dividend), ?_⟩
    simp [loopPass, Cpu.runs, scaleUp, Cpu.step, Cpu.operand, TestOp.flags, h₁, h₂]
  · have h₁ := mt (holds_subFlags (s.get divisor) limit .lo).mp hlimit
    refine ⟨subFlags (s.get divisor) limit, ?_⟩
    simp [loopPass, Cpu.runs, scaleUp, Cpu.step, Cpu.operand, TestOp.flags, h₁]

/-- The divisor has been multiplied by `2 ^ k`, and the counter stands for `k` as `Counts` says. -/
structure Scaled (dividend divisor c : Reg) (Counts : ℕ → Word → Prop) (a b k : ℕ) (s : Cpu) :
    Prop where
  dividend : (s.get dividend).toNat = a
  divisor : (s.get divisor).toNat = b * 2 ^ k
  counter : Counts k (s.get c)

variable {Counts : ℕ → Word → Prop} {a b k : ℕ}

theorem Scaled.up (hdd : dividend ≠ divisor) (hdc : dividend ≠ c) (hc : divisor ≠ c)
    (hfit : (s.get divisor).toNat * 2 ^ n < 2 ^ 32)
    (hcounts : Counts k (s.get c) → Counts (k + n) (f (s.get c)))
    (h : Scaled dividend divisor c Counts a b k s) :
    Scaled dividend divisor c Counts a b (k + n) (scaledUp dividend divisor c n f s) := by
  refine ⟨?_, ?_, ?_⟩
  · simp [scaledUp, Cpu.get_set_of_ne, hdd, hdc, h.dividend]
  · simp only [scaledUp, Cpu.get_set_of_ne _ _ _ hc, Cpu.get_set_self]
    rw [toNat_shiftLeft_of_lt hfit, h.divisor, pow_add, mul_assoc]
  · simp only [scaledUp, Cpu.get_set_self]
    exact hcounts h.counter

/-- A loop that scales up ends, and then the divisor has reached the limit or the dividend. -/
theorem Scaled.loop (hdd : dividend ≠ divisor) (hdc : dividend ≠ c) (hc : divisor ≠ c) (hb : 0 < b)
    (hn : 0 < n) (hfit : limit.toNat * 2 ^ n ≤ 2 ^ 32)
    (hcount : ∀ t : Cpu, t.step count = t.set c (f (t.get c)))
    (hcounts : ∀ k w, 2 ^ (k + n) < 2 ^ 32 → Counts k w → Counts (k + n) (f w))
    (h : Scaled dividend divisor c Counts a b k s) :
    ∃ t, Returns (loopPass (scaleUp dividend divisor limit n count) .lo) s t ∧
      ∃ k, Scaled dividend divisor c Counts a b k t ∧
        (limit.toNat ≤ b * 2 ^ k ∨ a ≤ b * 2 ^ k) := by
  refine Returns.of_variant (fun t => ∃ k, Scaled dividend divisor c Counts a b k t) _
    (fun t => 2 ^ 32 - (t.get divisor).toNat) ?_ ⟨k, h⟩
  rintro t ⟨k, ht⟩
  by_cases hscale : t.get divisor < limit ∧ t.get divisor < t.get dividend
  · left
    have hlt : (t.get divisor).toNat * 2 ^ n < 2 ^ 32 :=
      lt_of_lt_of_le (Nat.mul_lt_mul_of_pos_right hscale.1 (Nat.two_pow_pos n)) hfit
    have hpow : 2 ^ (k + n) < 2 ^ 32 := by
      rw [ht.divisor, mul_assoc, ← pow_add] at hlt
      exact lt_of_le_of_lt (Nat.le_mul_of_pos_left _ hb) hlt
    have hup := ht.up hdd hdc hc hlt (hcounts k _ hpow)
    refine ⟨_, loopPass_scaleUp_again hscale.1 hscale.2 hcount hc.symm, ⟨k + n, hup⟩, ?_⟩
    have hpos : 0 < b * 2 ^ k := Nat.mul_pos hb (Nat.two_pow_pos k)
    have hgrow : b * 2 ^ k < b * 2 ^ (k + n) :=
      Nat.mul_lt_mul_of_pos_left (Nat.pow_lt_pow_right (by decide) (by omega)) hb
    have htop := (t.get divisor).isLt
    rw [hup.divisor, ht.divisor]
    rw [ht.divisor] at htop
    omega
  · right
    obtain ⟨f, hf⟩ := loopPass_scaleUp_leave hscale
    refine ⟨_, hf, k, ⟨ht.dividend, ht.divisor, ht.counter⟩, ?_⟩
    rw [← ht.divisor, ← ht.dividend]
    rw [BitVec.lt_def, BitVec.lt_def] at hscale
    omega

/-- What is left to be found after the divisor has been scaled up: the bits from `k` down. -/
theorem Scaled.dividedTo (h : Scaled dividend divisor c Counts a b k s) (hb : 0 < b)
    (hend : 2 ^ 31 ≤ b * 2 ^ k ∨ a ≤ b * 2 ^ k) : DividedTo a b (k + 1) 0 a := by
  have hlt := (s.get dividend).isLt
  have hpow : 0 < b * 2 ^ k := Nat.mul_pos hb (Nat.two_pow_pos k)
  have htwice : b * 2 ^ (k + 1) = b * 2 ^ k * 2 := by rw [pow_succ, mul_assoc]
  rw [h.dividend] at hlt
  exact .start (by omega)

end ScaleUp

/-! ## The quotient -/

section Div

variable {dividend divisor result curbit : Reg} {a b : ℕ} {s : Cpu}

/-- The registers that are passed to `ARM_DIV_BODY` are four. -/
structure Apart (dividend divisor result curbit : Reg) : Prop where
  dividend_divisor : dividend ≠ divisor
  dividend_result : dividend ≠ result
  dividend_curbit : dividend ≠ curbit
  divisor_result : divisor ≠ result
  divisor_curbit : divisor ≠ curbit
  result_curbit : result ≠ curbit

/-- `curbit` is the bit that the scaled divisor stands for. -/
def IsBit (k : ℕ) (w : Word) : Prop := w.toNat = 2 ^ k

theorem IsBit.shift {k n : ℕ} {w : Word} (hlt : 2 ^ (k + n) < 2 ^ 32) (h : IsBit k w) :
    IsBit (k + n) (w <<< n) := by
  rw [IsBit] at h
  rw [IsBit, toNat_shiftLeft_of_lt, h, pow_add]
  rwa [h, ← pow_add]

/-- The loops of `ARM_DIV_BODY` shift `curbit` with the divisor. -/
theorem Scaled.loop_bit {k : ℕ} (hapart : Apart dividend divisor result curbit) (hb : 0 < b)
    (limit : Word) (n : ℕ) (hn : 0 < n) (hfit : limit.toNat * 2 ^ n ≤ 2 ^ 32)
    (h : Scaled dividend divisor curbit IsBit a b k s) :
    ∃ t, Returns (loopPass (scaleUp dividend divisor limit n
        (.mov curbit (.shift curbit .lsl n))) .lo) s t ∧
      ∃ k, Scaled dividend divisor curbit IsBit a b k t ∧
        (limit.toNat ≤ b * 2 ^ k ∨ a ≤ b * 2 ^ k) :=
  h.loop (f := fun w => w <<< n) hapart.dividend_divisor hapart.dividend_curbit
    hapart.divisor_curbit hb hn hfit (fun _ => rfl) fun _ _ => IsBit.shift

/-- What `subBit` does to the two registers. -/
theorem runs_subBit {d bit : Operand} (hne : dividend ≠ result) (hbit : dividend ∉ bit.reads) :
    ((s.runs (subBit dividend result d bit)).get dividend,
      (s.runs (subBit dividend result d bit)).get result) =
      if s.operand d ≤ s.get dividend then
        (s.get dividend - s.operand d, s.get result ||| s.operand bit)
      else (s.get dividend, s.get result) := by
  -- the operands are read again after the dividend has been written
  have hsame : ∀ {o : Operand}, dividend ∉ o.reads → ∀ f w,
      ((s.setFlags f).set dividend w).operand o = s.operand o := fun ho f w =>
    Cpu.operand_congr s fun x hx => Cpu.get_set_of_ne _ _ _ (fun h => ho (h ▸ hx))
  have hflags : ∀ (o : Operand) f, (s.setFlags f).operand o = s.operand o := fun o f =>
    Cpu.operand_congr s fun _ _ => rfl
  have hhs := holds_subFlags (s.get dividend) (s.operand d) .hs
  split_ifs with hle
  · simp [Cpu.runs, subBit, Cpu.step, TestOp.flags, DpOp.val, hhs.mpr hle, hsame hbit, hflags,
      Cpu.get_set_of_ne _ _ _ hne, Cpu.get_set_of_ne _ _ _ hne.symm]
  · simp [Cpu.runs, subBit, Cpu.step, TestOp.flags, mt hhs.mp hle]

theorem keeps_subBit (dividend result : Reg) (d bit : Operand) (s : Cpu) :
    Keeps [dividend, result] s (s.runs (subBit dividend result d bit)) := by
  refine keeps_runs ?_ s
  simp [subBit, Instr.Within]

/-- `j` of the bits from `k` down are done; bits below 0 do not change the result. -/
def Progress (a b k j : ℕ) (q r : Word) : Prop :=
  if j ≤ k then DividedTo a b (k + 1 - j) q.toNat r.toNat else q.toNat = a / b

theorem Progress.next {k j : ℕ} {q r d c : Word} (h : Progress a b k j q r)
    (hd : d.toNat = b * 2 ^ k / 2 ^ j) (hc : c.toNat = 2 ^ k / 2 ^ j) {p : Word × Word}
    (hp : p = if d ≤ r then (r - d, q ||| c) else (r, q)) : Progress a b k (j + 1) p.2 p.1 := by
  by_cases hj : j ≤ k
  · rw [Progress, if_pos hj] at h
    obtain ⟨i, rfl⟩ := Nat.exists_eq_add_of_le hj
    rw [show j + i + 1 - j = i + 1 by omega] at h
    have hpow : 2 ^ (j + i) = 2 ^ i * 2 ^ j := by rw [pow_add, mul_comm]
    rw [hpow, ← mul_assoc, Nat.mul_div_cancel _ (Nat.two_pow_pos j)] at hd
    rw [hpow, Nat.mul_div_cancel _ (Nat.two_pow_pos j)] at hc
    have hpart : DividedTo a b i p.2.toNat p.1.toNat := by
      rw [hp]
      split_ifs with hle
      · have hsub : (r - d).toNat = r.toNat - b * 2 ^ i := by
          rw [BitVec.toNat_sub_of_le hle, hd]
        rw [hsub, BitVec.toNat_or, hc, or_two_pow h.dvd]
        rw [BitVec.le_def, hd] at hle
        exact h.subtract hle
      · rw [BitVec.le_def, hd] at hle
        exact h.skip (by omega)
    rw [Progress]
    split_ifs with hlast
    · rwa [show j + i + 1 - (j + 1) = i by omega]
    · obtain rfl : i = 0 := by omega
      exact hpart.quotient
  · rw [Progress, if_neg hj] at h
    rw [Nat.div_eq_of_lt (Nat.pow_lt_pow_right (by decide) (by omega))] at hc
    obtain rfl : c = 0#32 := BitVec.eq_of_toNat_eq hc
    rw [Progress, if_neg (by omega), hp]
    split_ifs
    · simpa using h
    · exact h

/-- The head of the division loop, with bit `k` the next one. -/
structure Dividing (dividend divisor result curbit : Reg) (a b k : ℕ) (s : Cpu) : Prop where
  divisor : (s.get divisor).toNat = b * 2 ^ k
  curbit : (s.get curbit).toNat = 2 ^ k
  divided : DividedTo a b (k + 1) (s.get result).toNat (s.get dividend).toNat

/-- The four subtractions of one pass. -/
theorem Dividing.fourBits {k : ℕ} (hapart : Apart dividend divisor result curbit)
    (h : Dividing dividend divisor result curbit a b k s) {t : Cpu}
    (ht : t = s.runs (subBit dividend result (.reg divisor) (.reg curbit) ++
      subBit dividend result (.shift divisor .lsr 1) (.shift curbit .lsr 1) ++
      subBit dividend result (.shift divisor .lsr 2) (.shift curbit .lsr 2) ++
      subBit dividend result (.shift divisor .lsr 3) (.shift curbit .lsr 3))) :
    Keeps [dividend, result] s t ∧ Progress a b k 4 (t.get result) (t.get dividend) := by
  have ⟨h₁, h₂, h₃, h₄, h₅, h₆⟩ := hapart
  -- one subtraction, from a state in which the two other registers are as at the head
  have hbit : ∀ (u : Cpu) (j : ℕ) (d c : Operand), Keeps [dividend, result] s u →
      d.reads = [divisor] → c.reads = [curbit] → s.operand d = s.get divisor >>> j →
      s.operand c = s.get curbit >>> j → Progress a b k j (u.get result) (u.get dividend) →
      Keeps [dividend, result] s (u.runs (subBit dividend result d c)) ∧
      Progress a b k (j + 1) ((u.runs (subBit dividend result d c)).get result)
        ((u.runs (subBit dividend result d c)).get dividend) := by
    intro u j d c hu hd hc hdval hcval hprog
    have hud : u.operand d = s.get divisor >>> j := by
      rw [← hdval]
      exact Cpu.operand_congr s fun x hx => hu.get (by simp_all [ne_comm])
    have huc : u.operand c = s.get curbit >>> j := by
      rw [← hcval]
      exact Cpu.operand_congr s fun x hx => hu.get (by simp_all [ne_comm])
    refine ⟨hu.trans (keeps_subBit dividend result d c u), ?_⟩
    refine Progress.next hprog ?_ ?_ (runs_subBit h₂ (by simp_all))
    · rw [hud, BitVec.toNat_ushiftRight, Nat.shiftRight_eq_div_pow, h.divisor]
    · rw [huc, BitVec.toNat_ushiftRight, Nat.shiftRight_eq_div_pow, h.curbit]
  have hstart : Progress a b k 0 (s.get result) (s.get dividend) := by
    rw [Progress, if_pos (Nat.zero_le k)]
    exact h.divided
  obtain ⟨hk₁, hp₁⟩ := hbit s 0 (.reg divisor) (.reg curbit) (.refl _ s) rfl rfl
    (by simp [Cpu.operand]) (by simp [Cpu.operand]) hstart
  obtain ⟨hk₂, hp₂⟩ := hbit _ 1 (.shift divisor .lsr 1) (.shift curbit .lsr 1) hk₁ rfl rfl
    rfl rfl hp₁
  obtain ⟨hk₃, hp₃⟩ := hbit _ 2 (.shift divisor .lsr 2) (.shift curbit .lsr 2) hk₂ rfl rfl
    rfl rfl hp₂
  obtain ⟨hk₄, hp₄⟩ := hbit _ 3 (.shift divisor .lsr 3) (.shift curbit .lsr 3) hk₃ rfl rfl
    rfl rfl hp₃
  rw [ht, Cpu.runs_append, Cpu.runs_append, Cpu.runs_append]
  exact ⟨hk₄, hp₄⟩

/-- The end of a pass: the loop leaves, or the next four bits are in place. -/
theorem loopPass_nextBits (hapart : Apart dividend divisor result curbit) (t : Cpu) :
    (∃ u, loopPass (nextBits dividend divisor curbit) .ne t = .leave u ∧
      u.get result = t.get result ∧ (t.get dividend = 0#32 ∨ t.get curbit >>> 4 = 0#32)) ∨
    ∃ u, loopPass (nextBits dividend divisor curbit) .ne t = .again u ∧
      t.get dividend ≠ 0#32 ∧ t.get curbit >>> 4 ≠ 0#32 ∧ u.get result = t.get result ∧
      u.get dividend = t.get dividend ∧ u.get curbit = t.get curbit >>> 4 ∧
      u.get divisor = t.get divisor >>> 4 := by
  have ⟨h₁, h₂, h₃, h₄, h₅, h₆⟩ := hapart
  have hne := holds_subFlags (t.get dividend) 0#32 .ne
  by_cases hzero : t.get dividend = 0#32
  · left
    have hleave : Cond.ne.holds (subFlags (t.get dividend) 0#32) = false :=
      Bool.eq_false_iff.mpr (mt hne.mp fun h => h hzero)
    refine ⟨t.setFlags (subFlags (t.get dividend) 0#32), ?_, rfl, .inl hzero⟩
    simp [loopPass, Cpu.runs, nextBits, Cpu.step, Cpu.operand, TestOp.flags, hleave]
  · have hgo : Cond.ne.holds (subFlags (t.get dividend) 0#32) = true := hne.mpr hzero
    by_cases hlast : t.get curbit >>> 4 = 0#32
    · left
      refine ⟨_, if_neg ?_, ?_, .inr hlast⟩ <;>
        simp [Cpu.runs, nextBits, Cpu.step, Cpu.operand, TestOp.flags, hgo, Shift.val, hlast,
          Cpu.get_set_of_ne _ _ _ h₆]
    · right
      refine ⟨_, if_pos ?_, hzero, hlast, ?_, ?_, ?_, ?_⟩ <;>
        simp [Cpu.runs, nextBits, Cpu.step, Cpu.operand, TestOp.flags, hgo, Shift.val, hlast,
          Cpu.get_set_of_ne, h₁, h₃, h₄.symm, h₅, h₅.symm, h₆]

theorem ushiftRight_four_toNat {w : Word} {c k : ℕ} (hw : w.toNat = c * 2 ^ (k + 4)) :
    (w >>> 4).toNat = c * 2 ^ k := by
  rw [BitVec.toNat_ushiftRight, Nat.shiftRight_eq_div_pow, hw, pow_add, ← mul_assoc,
    Nat.mul_div_cancel _ (by decide)]

/-- The division loop ends with the quotient. -/
theorem Dividing.loop {k : ℕ} (hapart : Apart dividend divisor result curbit)
    (h : Dividing dividend divisor result curbit a b k s) :
    ∃ t, Returns (loopPass (divisionLoop dividend divisor result curbit) .ne) s t ∧
      (t.get result).toNat = a / b := by
  have ⟨h₁, h₂, h₃, h₄, h₅, h₆⟩ := hapart
  refine Returns.of_variant (fun t => ∃ k, Dividing dividend divisor result curbit a b k t) _
    (fun t => (t.get curbit).toNat) ?_ ⟨k, h⟩
  rintro t ⟨k, ht⟩
  obtain ⟨hkeeps, hprog⟩ := ht.fourBits hapart rfl
  have hcurbit := hkeeps.get (r := curbit) (by simp [h₃.symm, h₆.symm])
  have hdivisor := hkeeps.get (r := divisor) (by simp [h₁.symm, h₄])
  rw [divisionLoop, loopPass_append]
  by_cases hk : k < 4
  · -- the last bits: curbit becomes zero
    rw [Progress, if_neg (by omega)] at hprog
    have hzero : t.get curbit >>> 4 = 0#32 := by
      refine BitVec.eq_of_toNat_eq ?_
      rw [BitVec.toNat_ushiftRight, Nat.shiftRight_eq_div_pow, ht.curbit]
      exact Nat.div_eq_of_lt (Nat.pow_lt_pow_right (by decide) hk)
    rcases loopPass_nextBits hapart _ with ⟨u, hpass, hres, -⟩ | ⟨u, -, -, hne, -⟩
    · exact .inr ⟨u, hpass, by rw [hres, hprog]⟩
    · rw [hcurbit] at hne
      exact absurd hzero hne
  · rw [Progress, if_pos (by omega)] at hprog
    obtain ⟨i, rfl⟩ := Nat.exists_eq_add_of_le' (Nat.le_of_not_lt hk)
    rw [show i + 4 + 1 - 4 = i + 1 by omega] at hprog
    have hcur : (t.get curbit >>> 4).toNat = 2 ^ i := by
      have hone := ushiftRight_four_toNat (c := 1) (by rw [ht.curbit, one_mul])
      rwa [one_mul] at hone
    have hdiv := ushiftRight_four_toNat ht.divisor
    rcases loopPass_nextBits hapart _ with
      ⟨u, hpass, hres, hwhy⟩ | ⟨u, hpass, -, -, hres, hrem, hc, hd⟩
    · refine .inr ⟨u, hpass, ?_⟩
      rcases hwhy with hzero | hzero
      · rw [hzero] at hprog
        rw [hres]
        exact hprog.of_zero.quotient
      · rw [hcurbit] at hzero
        rw [hzero] at hcur
        exact absurd hcur (Nat.two_pow_pos i).ne
    · refine .inl ⟨u, hpass, ⟨i, ?_, ?_, ?_⟩, ?_⟩
      · rw [hd, hdivisor, hdiv]
      · rw [hc, hcurbit, hcur]
      · rw [hres, hrem]
        exact hprog
      · rw [hc, hcurbit, hcur, ht.curbit]
        exact Nat.pow_lt_pow_right (by decide) (by omega)

theorem lt_of_and_high {w : Word} (h : w &&& 0xe0000000#32 = 0#32) : w.toNat * 2 ^ 3 < 2 ^ 32 := by
  have hlt : w.toNat < 2 ^ 29 := by
    refine Nat.lt_pow_two_of_testBit _ fun i hi => ?_
    by_cases hi' : i < 32
    · have hbit : (w &&& 0xe0000000#32).getLsbD i = false := by rw [h, BitVec.getLsbD_zero]
      have hmask : (0xe0000000#32).getLsbD i = true := by interval_cases i <;> rfl
      rw [BitVec.getLsbD_and, hmask, Bool.and_true] at hbit
      exact hbit
    · exact BitVec.getLsbD_of_ge w i (by omega)
  omega

/-- The first shift, by three bits if they are free. -/
theorem scaled_first (hapart : Apart dividend divisor result curbit)
    (ha : (s.get dividend).toNat = a) (hb : (s.get divisor).toNat = b) :
    ∃ k, Scaled dividend divisor curbit IsBit a b k (s.runs
      [.test .tst divisor (.imm 0xe0000000),
        .when .eq (.mov divisor (.shift divisor .lsl 3)),
        .when .eq (.mov curbit (.imm 8)),
        .when .ne (.mov curbit (.imm 1))]) := by
  have ⟨h₁, _, h₂, _, h₃, _⟩ := hapart
  by_cases hhigh : s.get divisor &&& 0xe0000000#32 = 0#32
  · have hshift := toNat_shiftLeft_of_lt (lt_of_and_high hhigh)
    rw [hb] at hshift
    refine ⟨3, ?_, hshift ▸ congrArg BitVec.toNat ?_, ?_⟩ <;>
      simp [Cpu.runs, Cpu.step, Cpu.operand, TestOp.flags, hhigh, Cpu.get_set_of_ne, h₁, h₂, h₃,
        Shift.val, IsBit, ha]
  · refine ⟨0, ?_, ?_, ?_⟩ <;>
      simp [Cpu.runs, Cpu.step, Cpu.operand, TestOp.flags, hhigh, Cpu.get_set_of_ne, h₂, h₃,
        IsBit, ha, hb]

/-- `ARM_DIV_BODY` leaves the quotient in its result register. -/
theorem armDivBody_ends (hapart : Apart dividend divisor result curbit)
    (ha : (s.get dividend).toNat = a) (hb : (s.get divisor).toNat = b) (hpos : 0 < b) :
    ∃ t, Keeps [dividend, divisor, result, curbit] s t ∧ (t.get result).toNat = a / b ∧
      ∀ next u, Ends next t u → Ends (armDivBody dividend divisor result curbit next) s u := by
  obtain ⟨k₀, h₀⟩ := scaled_first (s := s) hapart ha hb
  obtain ⟨t₁, hr₁, k₁, h₁, -⟩ := h₀.loop_bit hapart hpos 0x10000000#32 4 (by decide) (by decide)
  obtain ⟨t₂, hr₂, k₂, h₂, hend⟩ := h₁.loop_bit hapart hpos 0x80000000#32 1 (by decide) (by decide)
  have hdivided : Dividing dividend divisor result curbit a b k₂ (t₂.set result 0#32) := by
    refine ⟨?_, ?_, ?_⟩
    · rw [Cpu.get_set_of_ne _ _ _ hapart.divisor_result, h₂.divisor]
    · rw [Cpu.get_set_of_ne _ _ _ hapart.result_curbit.symm]
      exact h₂.counter
    · rw [Cpu.get_set_self, Cpu.get_set_of_ne _ _ _ hapart.dividend_result, h₂.dividend]
      exact h₂.dividedTo hpos hend
  obtain ⟨t, hr, hquot⟩ := hdivided.loop hapart
  refine ⟨t, ?_, hquot, fun next u hu => ?_⟩
  · refine (keeps_runs ?_ s).trans <| (keeps_returns ?_ hr₁).trans <|
      (keeps_returns ?_ hr₂).trans <| (keeps_set ?_ t₂ 0#32).trans (keeps_returns ?_ hr)
    all_goals simp [scaleUp, divisionLoop, subBit, nextBits, Instr.Within]
  · exact .seq (.loop hr₁ (.loop hr₂ (.seq (.loop hr hu))))

end Div

/-! ## The logarithm -/

section Log

variable {divisor order : Reg} {k : ℕ} {s : Cpu}

/-- `2 ^ j` is left of a divisor `2 ^ k`, and `order` has the rest. -/
structure LogTo (divisor order : Reg) (k j : ℕ) (s : Cpu) : Prop where
  divisor : (s.get divisor).toNat = 2 ^ j
  order : (s.get order).toNat + j = k

/-- One halving of the range that the logarithm lies in. -/
theorem LogTo.halve {j n : ℕ} (hne : divisor ≠ order) (hn : n < 32) (hk : k < 32)
    (hj : j < 2 * n) (h : LogTo divisor order k j s) :
    ∃ j' < n, LogTo divisor order k j' (s.runs (orderHalve divisor order n)) := by
  unfold orderHalve
  generalize hbit : 1#32 <<< n = bit
  have hbit : bit.toNat = 2 ^ n := by
    rw [← hbit, toNat_shiftLeft_of_lt]
    · exact one_mul _
    · exact (one_mul (2 ^ n)).symm ▸ Nat.pow_lt_pow_right (by decide) hn
  have hhs := holds_subFlags (s.get divisor) bit .hs
  by_cases hle : bit ≤ s.get divisor
  · have hle' := hle
    rw [BitVec.le_def, hbit, h.divisor] at hle'
    obtain ⟨i, rfl⟩ := Nat.exists_eq_add_of_le' ((Nat.pow_le_pow_iff_right (by decide)).mp hle')
    have hdivisor : (s.get divisor >>> n).toNat = 2 ^ i := by
      rw [BitVec.toNat_ushiftRight, Nat.shiftRight_eq_div_pow, h.divisor, pow_add,
        Nat.mul_div_cancel _ (Nat.two_pow_pos n)]
    have horder : (s.get order + BitVec.ofNat 32 n).toNat + i = k := by
      have hsum := h.order
      rw [BitVec.toNat_add, BitVec.toNat_ofNat, Nat.mod_eq_of_lt (by omega : n < 2 ^ 32),
        Nat.mod_eq_of_lt (by omega)]
      omega
    refine ⟨i, by omega, hdivisor ▸ congrArg BitVec.toNat ?_, ?_⟩
    · simp [Cpu.runs, Cpu.step, Cpu.operand, TestOp.flags, hhs.mpr hle, Cpu.get_set_of_ne, hne,
        Shift.val]
    · rw [← horder]
      simp [Cpu.runs, Cpu.step, Cpu.operand, TestOp.flags, hhs.mpr hle, Cpu.get_set_of_ne,
        hne.symm, DpOp.val]
  · have hlt := hle
    rw [BitVec.le_def, hbit, h.divisor, not_le] at hlt
    refine ⟨j, (Nat.pow_lt_pow_iff_right (by decide)).mp hlt, ?_, ?_⟩ <;>
      simp [Cpu.runs, Cpu.step, Cpu.operand, TestOp.flags, mt hhs.mp hle, h.divisor, h.order]

theorem logTo_first (hne : divisor ≠ order) (hk : k < 32) (h : (s.get divisor).toNat = 2 ^ k) :
    ∃ j < 16, LogTo divisor order k j (s.runs (orderFirst divisor order)) := by
  have hhs := holds_subFlags (s.get divisor) 0x10000#32 .hs
  have hlo := holds_subFlags (s.get divisor) 0x10000#32 .lo
  by_cases hle : 0x10000#32 ≤ s.get divisor
  · have hle' : 2 ^ 16 ≤ 2 ^ k := by rwa [BitVec.le_def, h] at hle
    obtain ⟨i, rfl⟩ := Nat.exists_eq_add_of_le' ((Nat.pow_le_pow_iff_right (by decide)).mp hle')
    have hdivisor : (s.get divisor >>> 16).toNat = 2 ^ i := by
      rw [BitVec.toNat_ushiftRight, Nat.shiftRight_eq_div_pow, h, pow_add,
        Nat.mul_div_cancel _ (by decide)]
    have hlo' : ¬ Cond.lo.holds (subFlags (s.get divisor) 0x10000#32) = true :=
      mt hlo.mp (BitVec.not_lt.mpr hle)
    refine ⟨i, by omega, hdivisor ▸ congrArg BitVec.toNat ?_, ?_⟩ <;>
      simp [orderFirst, Cpu.runs, Cpu.step, Cpu.operand, TestOp.flags, hhs.mpr hle, hlo',
        Cpu.get_set_of_ne, hne, Shift.val, add_comm]
  · have hlt : s.get divisor < 0x10000#32 := BitVec.not_le.mp hle
    have hlt' : 2 ^ k < 2 ^ 16 := by rwa [BitVec.lt_def, h] at hlt
    refine ⟨k, (Nat.pow_lt_pow_iff_right (by decide)).mp hlt', ?_, ?_⟩ <;>
      simp [orderFirst, Cpu.runs, Cpu.step, Cpu.operand, TestOp.flags, mt hhs.mp hle, hlo.mpr hlt,
        Cpu.get_set_of_ne, hne, h]

/-- The last two bits of the logarithm. -/
theorem LogTo.last {j : ℕ} (hk : k < 32) (hj : j < 4) (h : LogTo divisor order k j s) :
    ((s.runs (orderLast divisor order)).get order).toNat = k := by
  have hhi := holds_subFlags (s.get divisor) 4#32 .hi
  have hls := holds_subFlags (s.get divisor) 4#32 .ls
  have hsum := h.order
  by_cases hlast : j = 3
  · subst hlast
    have hgt : 4#32 < s.get divisor := by
      rw [BitVec.lt_def, h.divisor]
      decide
    have hls' := mt hls.mp (BitVec.not_le.mpr hgt)
    simp [orderLast, Cpu.runs, Cpu.step, Cpu.operand, TestOp.flags, hhi.mpr hgt, hls', DpOp.val]
    omega
  · have hle : s.get divisor ≤ 4#32 := by
      rw [BitVec.le_def, h.divisor]
      exact Nat.pow_le_pow_right (by decide) (by omega : j ≤ 2)
    have hhi' := mt hhi.mp (BitVec.not_lt.mpr hle)
    have hhalf : (s.get divisor).toNat / 2 = j := by
      rw [h.divisor]
      interval_cases j <;> first | rfl | exact absurd rfl hlast
    simp [orderLast, Cpu.runs, Cpu.step, Cpu.operand, TestOp.flags, hhi', hls.mpr hle, DpOp.val,
      Shift.val, Nat.shiftRight_eq_div_pow, hhalf]
    omega

/-- `ARM_DIV2_ORDER` finds the logarithm of a power of two. -/
theorem armDiv2Order_get (hne : divisor ≠ order) (hk : k < 32)
    (h : (s.get divisor).toNat = 2 ^ k) :
    ((s.runs (armDiv2Order divisor order)).get order).toNat = k := by
  obtain ⟨j₁, hj₁, h₁⟩ := logTo_first hne hk h
  obtain ⟨j₂, hj₂, h₂⟩ := h₁.halve hne (n := 8) (by decide) hk hj₁
  obtain ⟨j₃, hj₃, h₃⟩ := h₂.halve hne (n := 4) (by decide) hk hj₂
  rw [armDiv2Order, Cpu.runs_append, Cpu.runs_append, Cpu.runs_append]
  exact h₃.last hk hj₃

end Log

/-! ## Unsigned division -/

/-- The word below the stack pointer, which only a division by zero writes. -/
def StackSlot (s : Cpu) (x : ℕ) : Prop :=
  (s.get .sp - 4#32).toNat ≤ x ∧ x < (s.get .sp - 4#32).toNat + 4

/-- A division routine called in `s` comes back to its caller with `w`. -/
def Computes (code : Code) (s : Cpu) (w : Word) : Prop :=
  ∃ t, Ends code s t ∧ t.get .r0 = w ∧ CallConv (fun x => ¬ StackSlot s x) s t

section Computes

variable {rs : List Reg} {s t : Cpu} {code : Code} {w : Word}

/-- A return from a state in which only scratch registers have been written. -/
theorem Computes.ret (h : Keeps rs s t) (hrs : rs ⊆ scratch) (hlr : .lr ∉ rs)
    (hends : Ends code s (t.exit .movPcLr)) (hres : t.get .r0 = w) : Computes code s w :=
  ⟨_, hends, hres, h.callConv hrs hlr⟩

/-- Scratch registers may be written first. -/
theorem Computes.of_keeps {rest : Code} (h : Keeps rs s t) (hrs : rs ⊆ scratch) (hlr : .lr ∉ rs)
    (hends : ∀ u, Ends rest t u → Ends code s u) (hrest : Computes rest t w) :
    Computes code s w := by
  obtain ⟨u, hu, hres, hconv⟩ := hrest
  have hsp : t.get .sp = s.get .sp := h.get fun hmem => absurd (hrs hmem) (by decide)
  refine ⟨u, hends u hu, hres, .of_keeps h hrs hlr ?_⟩
  simpa only [StackSlot, hsp] using hconv

end Computes

section Unsigned

variable {s : Cpu}

theorem ldiv0_computes (s : Cpu) : Computes ldiv0 s 0#32 := by
  have hsp : s.get .sp - 4#32 + 4#32 = s.get .sp := BitVec.sub_add_cancel _ _
  generalize hslot : s.get .sp - 4#32 = slot at hsp
  have hrun : s.runs [.stmdb [.lr], .mov .r0 (.imm 0)] =
      ((s.set .sp slot).setMem (storeWord s.mem slot.toNat (s.get .lr))).set .r0 0#32 := by
    simp [Cpu.runs, Cpu.step, Cpu.operand, hslot, storeWords]
  have hends : Ends ldiv0 s ((s.runs [.stmdb [.lr], .mov .r0 (.imm 0)]).exit .ldrPc) :=
    .seq (.ret .ldrPc _)
  simp only [hrun, Cpu.exit, Cpu.get_set_of_ne _ _ _ (show Reg.sp ≠ .r0 by decide), Cpu.get_setMem,
    Cpu.get_set_self, Cpu.mem_set, Cpu.mem_setMem, loadWord_storeWord_self, hsp] at hends
  refine ⟨_, hends, ?_, rfl, ?_, rfl, rfl, ?_⟩
  · simp [Cpu.get_set_of_ne]
  · intro m r hr
    by_cases hstack : m = bank s.cpsr.mode .sp ∧ r = .sp
    · obtain ⟨rfl, rfl⟩ := hstack
      exact if_pos ⟨rfl, rfl⟩
    · by_cases hres : m = bank s.cpsr.mode .r0 ∧ r = .r0
      · obtain ⟨rfl, rfl⟩ := hres
        exact absurd hr (by simp [scratch])
      · exact (if_neg hstack).trans ((if_neg hres).trans (if_neg hstack))
  · intro x hx
    rw [StackSlot, hslot] at hx
    exact storeWord_of_disjoint s.mem (s.get .lr) (by omega)

theorem udivsi3Rest_within : udivsi3Rest.Within [.r0, .r1, .r2, .r3] := by
  simp [udivsi3Rest, udivsi3NotAbove, udivsi3Pow2, armDivBody, scaleUp, divisionLoop, subBit,
    nextBits, armDiv2Order, orderFirst, orderHalve, orderLast, Code.Within, Instr.Within]

theorem toNat_pos_of_ne {w : Word} (h : w ≠ 0#32) : 0 < w.toNat :=
  Nat.pos_of_ne_zero fun hzero => h (BitVec.eq_of_toNat_eq hzero)

theorem eq_two_pow_of_tst {w : Word} (hw : w ≠ 0#32) (h : w &&& (w - 1#32) = 0#32) :
    ∃ k < 32, w.toNat = 2 ^ k := by
  have hpos := toNat_pos_of_ne hw
  have hpred : (w - 1#32).toNat = w.toNat - 1 :=
    BitVec.toNat_sub_of_le (BitVec.le_def.mpr hpos)
  have hand : w.toNat &&& (w.toNat - 1) = 0 := by
    rw [← hpred, ← BitVec.toNat_and, h]
    rfl
  have hpow := eq_two_pow_of_and_pred hpos hand
  refine ⟨w.toNat.log2, ?_, hpow⟩
  have hlt := w.isLt
  rw [hpow] at hlt
  exact (Nat.pow_lt_pow_iff_right (by decide)).mp hlt

/-- A shift by the logarithm of the divisor, as at label `12`. -/
theorem shiftReg_armDiv2Order {r divisor order : Reg} (hnodup : [r, divisor, order].Nodup)
    (hne : s.get divisor ≠ 0#32) (hpow : s.get divisor &&& (s.get divisor - 1#32) = 0#32) :
    (s.runs (armDiv2Order divisor order)).operand (.shiftReg r .lsr order) =
      s.get r / s.get divisor := by
  obtain ⟨⟨hrd, hro⟩, hdo⟩ : (r ≠ divisor ∧ r ≠ order) ∧ divisor ≠ order := by simpa using hnodup
  obtain ⟨k, hk, hval⟩ := eq_two_pow_of_tst hne hpow
  have hkeeps : Keeps [divisor, order] s (s.runs (armDiv2Order divisor order)) := by
    refine keeps_runs ?_ s
    simp [armDiv2Order, orderFirst, orderHalve, orderLast, Instr.Within]
  have hlog := armDiv2Order_get hdo hk hval
  refine BitVec.eq_of_toNat_eq ?_
  simp only [Cpu.operand, Shift.val, hlog, hkeeps.get (r := r) (by simp [hrd, hro]),
    Nat.mod_eq_of_lt (by omega : k < 256)]
  rw [BitVec.toNat_ushiftRight, Nat.shiftRight_eq_div_pow, BitVec.toNat_udiv, hval]

/-- The value of `__udivsi3` for divisors above 1. -/
theorem udivsi3Rest_ends (hb : 1#32 < s.get .r1) (hr2 : s.get .r2 = s.get .r1 - 1#32) :
    ∃ t, Ends udivsi3Rest s t ∧ t.get .r0 = s.get .r0 / s.get .r1 := by
  have hne : s.get .r1 ≠ 0#32 := by bv_omega
  have hls := holds_subFlags (s.get .r0) (s.get .r1) .ls
  by_cases hle : s.get .r0 ≤ s.get .r1
  · -- label 11
    have heq := holds_subFlags (s.get .r0) (s.get .r1) .eq
    have hne' := holds_subFlags (s.get .r0) (s.get .r1) .ne
    refine ⟨_, .seq (.taken (hls.mpr hle) (.seq (.ret .movPcLr _))), ?_⟩
    by_cases hsame : s.get .r0 = s.get .r1
    · have hone : s.get .r0 / s.get .r1 = 1#32 := by
        rw [hsame]
        exact BitVec.eq_of_toNat_eq (Nat.div_self (toNat_pos_of_ne hne))
      rw [hone]
      simp [Cpu.exit, Cpu.runs, Cpu.step, TestOp.flags, Cpu.operand, heq.mpr hsame,
        mt hne'.mp (not_not.mpr hsame)]
    · have hzero : s.get .r0 / s.get .r1 = 0#32 := by
        refine BitVec.eq_of_toNat_eq (Nat.div_eq_of_lt ?_)
        bv_omega
      rw [hzero]
      simp [Cpu.exit, Cpu.runs, Cpu.step, TestOp.flags, Cpu.operand, mt heq.mp hsame,
        hne'.mpr hsame]
  · by_cases hpow : s.get .r1 &&& s.get .r2 = 0#32
    · -- label 12
      have hquot := shiftReg_armDiv2Order (s := (s.runs [.test .cmp .r0 (.reg .r1)]).runs
        [.test .tst .r1 (.reg .r2)]) (by decide : [Reg.r0, .r1, .r2].Nodup) hne (hr2 ▸ hpow)
      refine ⟨_, .seq (.not_taken (mt hls.mp hle) (.seq (.taken ?_ (.seq (.seq
        (.ret .movPcLr _)))))), ?_⟩
      · simp [Cpu.runs, Cpu.step, TestOp.flags, Cpu.operand, hpow]
      · exact hquot
    · obtain ⟨t, -, hquot, hends⟩ := armDivBody_ends (s := (s.runs [.test .cmp .r0 (.reg .r1)]).runs
        [.test .tst .r1 (.reg .r2)])
        (⟨by decide, by decide, by decide, by decide, by decide, by decide⟩ : Apart .r0 .r1 .r2 .r3)
        rfl rfl (toNat_pos_of_ne hne)
      refine ⟨_, .seq (.not_taken (mt hls.mp hle) (.seq (.not_taken ?_
        (hends _ _ (.seq (.ret .movPcLr _)))))), ?_⟩
      · simp [Cpu.runs, Cpu.step, TestOp.flags, Cpu.operand, hpow]
      · exact BitVec.eq_of_toNat_eq hquot

theorem udivsi3Rest_computes (hb : 1#32 < s.get .r1) (hr2 : s.get .r2 = s.get .r1 - 1#32) :
    Computes udivsi3Rest s (s.get .r0 / s.get .r1) := by
  obtain ⟨t, hends, hres⟩ := udivsi3Rest_ends hb hr2
  exact ⟨t, hends, hres, hends.callConv udivsi3Rest_within (by decide) (by decide)⟩

/-- `__udivsi3` returns the quotient, and 0 for a division by zero. -/
theorem udivsi3_computes (s : Cpu) : Computes udivsi3 s (s.get .r0 / s.get .r1) := by
  have heq := holds_subFlags (s.get .r1) 1#32 .eq
  have hlo := holds_subFlags (s.get .r1) 1#32 .lo
  generalize hs₁ : s.runs [.dps .sub .r2 .r1 (.imm 1)] = s₁
  have hkeeps : Keeps [.r0, .r1, .r2, .r3] s s₁ := by
    rw [← hs₁]
    exact keeps_runs (by simp [Instr.Within]) s
  have hflags : s₁.flags = subFlags (s.get .r1) 1#32 := by rw [← hs₁]; rfl
  have hr0 : s₁.get .r0 = s.get .r0 := by rw [← hs₁]; rfl
  have hr1 : s₁.get .r1 = s.get .r1 := by rw [← hs₁]; rfl
  have hr2 : s₁.get .r2 = s₁.get .r1 - 1#32 := by rw [← hs₁]; rfl
  rw [← hflags] at heq hlo
  by_cases hone : s.get .r1 = 1#32
  · refine Computes.ret hkeeps (by decide) (by decide)
      (.seq_to hs₁ (.taken (heq.mpr hone) (.ret .movPcLr _))) ?_
    rw [hone, BitVec.udiv_one, hr0]
  · by_cases hzero : s.get .r1 = 0#32
    · have hbelow : s.get .r1 < 1#32 := hzero ▸ (by decide : 0#32 < 1#32)
      rw [hzero, BitVec.udiv_zero]
      exact .of_keeps hkeeps (by decide) (by decide)
        (fun u hu => .seq_to hs₁ (.not_taken (mt heq.mp hone) (.taken (hlo.mpr hbelow) hu)))
        (ldiv0_computes s₁)
    · have habove : ¬ s.get .r1 < 1#32 := by bv_omega
      rw [← hr0, ← hr1]
      exact .of_keeps hkeeps (by decide) (by decide)
        (fun u hu => .seq_to hs₁ (.not_taken (mt heq.mp hone) (.not_taken (mt hlo.mp habove) hu)))
        (udivsi3Rest_computes (by rw [hr1]; bv_omega) hr2)

end Unsigned

end Jz2440.Runtime
