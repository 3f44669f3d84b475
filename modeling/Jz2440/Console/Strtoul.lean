import Jz2440.Common.Loop
import Jz2440.Common.Memory
import Mathlib.Data.List.TakeWhile

/-!
# Reading numbers

Model of `_ctype`, `simple_strtoul` and `simple_strtol` in `string_utils.c` of
`hard_driver/first_hard/025_sensors_022/007_irda_nec_ok_022_009`. An `unsigned long` has 32
bits.

* `Reads`: what a number is, in terms of the text: a prefix chooses the base, and the
  longest run of digits is the number.
* `simpleStrtoul_yields`: the pointer loop finds this number and its end.
-/

namespace Jz2440.Console

open Jz2440.Common

/-! ## Classes of characters -/

/-- The classes of `_ctype` (string_utils.c:10-17). -/
def upper : Byte := 0x01
def lower : Byte := 0x02
def digit : Byte := 0x04
def cntrl : Byte := 0x08
def punct : Byte := 0x10
def space : Byte := 0x20
def hexDigit : Byte := 0x40
def hardSpace : Byte := 0x80

/-- `_ctype` (string_utils.c:20-44), with equal entries in a row counted. -/
def ctype : List Byte :=
  .replicate 9 cntrl ++ .replicate 5 (cntrl ||| space) ++ .replicate 18 cntrl ++
  [space ||| hardSpace] ++ .replicate 15 punct ++ .replicate 10 digit ++ .replicate 7 punct ++
  .replicate 6 (upper ||| hexDigit) ++ .replicate 20 upper ++ .replicate 6 punct ++
  .replicate 6 (lower ||| hexDigit) ++ .replicate 20 lower ++ .replicate 4 punct ++ [cntrl] ++
  .replicate 32 0 ++ [space ||| hardSpace] ++ .replicate 31 punct ++ .replicate 23 upper ++
  [punct] ++ .replicate 7 upper ++ .replicate 24 lower ++ [punct] ++ .replicate 8 lower

/-- `__ismask`. -/
def ismask (c : Byte) : Byte := ctype.getD c.toNat 0

def isdigit (c : Byte) : Bool := ismask c &&& digit != 0

def islower (c : Byte) : Bool := ismask c &&& lower != 0

def isxdigit (c : Byte) : Bool := ismask c &&& (digit ||| hexDigit) != 0

/-- `toupper` (string_utils.c:77-82). -/
def toupper (c : Byte) : Byte := if islower c then c - (0x61 - 0x41) else c

/-! ## `simple_strtoul` -/

/-- `value` in the loop of `simple_strtoul` (string_utils.c:105-106). -/
def digitVal (c : Byte) : Word :=
  if isdigit c then c.setWidth 32 - 0x30#32
  else (if islower c then toupper c else c).setWidth 32 - 0x41#32 + 10#32

/-- The digit test of the loop. -/
def isDigitOf (base : Word) (c : Byte) : Bool := isxdigit c && decide (digitVal c < base)

/-- The loop of `simple_strtoul` (string_utils.c:105-109) on `cp` and `result`. -/
def strtoulPass (mem : Mem) (base : Word) : ℕ × Word → Pass (ℕ × Word) (ℕ × Word)
  | (cp, result) =>
    if isDigitOf base (mem cp) then .again (cp + 1, result * base + digitVal (mem cp))
    else .leave (cp, result)

/-- The prefix of the number (string_utils.c:92-104): `cp` after it, and the base. -/
def strtoulPrefix (mem : Mem) (cp : ℕ) (base : Word) : ℕ × Word :=
  if mem cp = 0x30#8 then
    if (mem (cp + 1) = 0x78#8 ∨ mem (cp + 1) = 0x58#8) ∧ isxdigit (mem (cp + 2)) then
      (cp + 2, 16#32)
    else (cp + 1, if base = 0#32 then 8#32 else base)
  else (cp, if base = 0#32 then 10#32 else base)

/-- `simple_strtoul` (string_utils.c:88-113): `*endp` and the result. -/
def simpleStrtoul (mem : Mem) (cp : ℕ) (base : Word) (fuel : ℕ) : Option (ℕ × Word) :=
  let (cp, base) := strtoulPrefix mem cp base
  loop (strtoulPass mem base) fuel (cp, 0#32)

/-- `simple_strtol` (string_utils.c:115-120). -/
def simpleStrtol (mem : Mem) (cp : ℕ) (base : Word) (fuel : ℕ) : Option (ℕ × Word) :=
  if mem cp = 0x2d#8 then
    (simpleStrtoul mem (cp + 1) base fuel).map fun (endp, result) => (endp, -result)
  else simpleStrtoul mem cp base fuel

/-! ## Numbers in a text -/

/-- The text `l` stands at `p`, with the terminator behind it. -/
def TextAt (mem : Mem) : ℕ → List Byte → Prop
  | p, [] => mem p = 0#8
  | p, c :: l => mem p = c ∧ TextAt mem (p + 1) l

/-- The base of the number that a text begins with, and what comes after its prefix. -/
def afterPrefix (base : Word) : List Byte → Word × List Byte
  | [] => (if base = 0#32 then 10#32 else base, [])
  | c :: l =>
    if c = 0x30#8 then
      if (l[0]? = some 0x78#8 ∨ l[0]? = some 0x58#8) ∧ l[1]?.any isxdigit then (16#32, l.drop 1)
      else (if base = 0#32 then 8#32 else base, l)
    else (if base = 0#32 then 10#32 else base, c :: l)

/-- The number with the digits `ds`, the most significant one first. -/
def digitsValue (base : ℕ) (ds : List Byte) : ℕ :=
  ds.foldl (fun v c => v * base + (digitVal c).toNat) 0

/-- The digits of the number that a text begins with. -/
def leadingDigits (base : Word) (l : List Byte) : List Byte :=
  (afterPrefix base l).2.takeWhile (isDigitOf (afterPrefix base l).1)

/-- The number that a text begins with. -/
def leadingNumber (base : Word) (l : List Byte) : ℕ :=
  digitsValue (afterPrefix base l).1.toNat (leadingDigits base l)

/-- The length of its text. -/
def leadingLength (base : Word) (l : List Byte) : ℕ :=
  l.length - (afterPrefix base l).2.length + (leadingDigits base l).length

variable {mem : Mem} {p : ℕ} {l : List Byte} {base : Word}

theorem TextAt.getD (h : TextAt mem p l) {i : ℕ} (hi : i ≤ l.length) :
    mem (p + i) = l.getD i 0#8 := by
  induction l generalizing p i with
  | nil =>
    obtain rfl : i = 0 := by simpa using hi
    exact h
  | cons c l ih =>
    cases i with
    | zero => exact h.1
    | succ i =>
      rw [List.length_cons] at hi
      rw [← Nat.add_assoc, Nat.add_right_comm, ih h.2 (by omega), List.getD_cons_succ]

theorem TextAt.drop (h : TextAt mem p l) {i : ℕ} (hi : i ≤ l.length) :
    TextAt mem (p + i) (l.drop i) := by
  induction l generalizing p i with
  | nil =>
    obtain rfl : i = 0 := by simpa using hi
    exact h
  | cons c l ih =>
    cases i with
    | zero => exact h
    | succ i =>
      rw [List.length_cons] at hi
      rw [← Nat.add_assoc, Nat.add_right_comm]
      exact ih h.2 (by omega)

theorem isxdigit_zero : isxdigit 0#8 = false := by decide +kernel

/-- The terminator is no digit. -/
theorem isDigitOf_zero (base : Word) : isDigitOf base 0#8 = false := by
  exact (congrArg (· && _) isxdigit_zero).trans (Bool.false_and _)

/-- The loop takes the digits, and stops behind them. -/
theorem strtoulPass_returns (h : TextAt mem p l) (base : Word) (v : ℕ) :
    Returns (strtoulPass mem base) (p, BitVec.ofNat 32 v)
      (p + (l.takeWhile (isDigitOf base)).length,
        BitVec.ofNat 32 ((l.takeWhile (isDigitOf base)).foldl
        (fun v c => v * base.toNat + (digitVal c).toNat) v)) := by
  induction l generalizing p v with
  | nil =>
    refine .of_leave (if_neg ?_)
    rw [show mem p = 0#8 from h, isDigitOf_zero]
    exact Bool.false_ne_true
  | cons c l ih =>
    by_cases hc : isDigitOf base c = true
    · rw [List.takeWhile_cons_of_pos hc, List.length_cons, List.foldl_cons, Nat.add_comm _ 1,
        ← Nat.add_assoc]
      refine .of_again (if_pos (h.1.symm ▸ hc)) ?_
      have hstep : BitVec.ofNat 32 v * base + digitVal (mem p) =
          BitVec.ofNat 32 (v * base.toNat + (digitVal c).toNat) := by
        rw [h.1, BitVec.ofNat_add, BitVec.ofNat_mul, BitVec.ofNat_toNat, BitVec.ofNat_toNat,
          BitVec.setWidth_eq, BitVec.setWidth_eq]
      rw [hstep]
      exact ih h.2 _
    · rw [List.takeWhile_cons_of_neg hc]
      refine .of_leave (if_neg ?_)
      rwa [h.1]

/-- The test for a hexadecimal prefix, behind the first zero. -/
theorem hexPrefix_iff (h : TextAt mem p l) :
    ((mem p = 0x78#8 ∨ mem p = 0x58#8) ∧ isxdigit (mem (p + 1))) ↔
      (l[0]? = some 0x78#8 ∨ l[0]? = some 0x58#8) ∧ l[1]?.any isxdigit := by
  match l, h with
  | [], h => simp [show mem p = 0#8 from h]
  | [c], h => simp [h.1, show mem (p + 1) = 0#8 from h.2, isxdigit_zero]
  | c :: d :: l, h => simp [h.1, h.2.1]

/-- The prefix is skipped. -/
theorem strtoulPrefix_eq (h : TextAt mem p l) (base : Word) :
    ∃ k, strtoulPrefix mem p base = (p + k, (afterPrefix base l).1) ∧
      TextAt mem (p + k) (afterPrefix base l).2 ∧ l.length - (afterPrefix base l).2.length = k := by
  cases l with
  | nil =>
    have hne : mem p ≠ 0x30#8 := by
      rw [show mem p = 0#8 from h]
      decide
    rw [strtoulPrefix, if_neg hne]
    exact ⟨0, rfl, h, rfl⟩
  | cons c l =>
    by_cases hc : c = 0x30#8
    · rw [strtoulPrefix, if_pos (h.1.trans hc), afterPrefix, if_pos hc]
      by_cases hhex : (l[0]? = some 0x78#8 ∨ l[0]? = some 0x58#8) ∧ l[1]?.any isxdigit
      · have hlen : 1 ≤ l.length := by
          rcases hhex.1 with hx | hx <;> exact (List.getElem?_eq_some_iff.mp hx).1
        rw [if_pos ((hexPrefix_iff h.2).mpr hhex), if_pos hhex]
        refine ⟨2, rfl, h.2.drop hlen, ?_⟩
        rw [List.length_cons, List.length_drop]
        omega
      · rw [if_neg (mt (hexPrefix_iff h.2).mp hhex), if_neg hhex]
        exact ⟨1, rfl, h.2, Nat.add_sub_cancel_left _ _⟩
    · have hne : mem p ≠ 0x30#8 := fun h' => hc (h.1.symm.trans h')
      rw [strtoulPrefix, if_neg hne, afterPrefix, if_neg hc]
      exact ⟨0, rfl, h, Nat.sub_self _⟩

/-- `simple_strtoul` reads the number that the text begins with, modulo `2 ^ 32`. -/
theorem simpleStrtoul_yields (h : TextAt mem p l) (base : Word) :
    Yields (simpleStrtoul mem p base)
      (p + leadingLength base l, BitVec.ofNat 32 (leadingNumber base l)) := by
  obtain ⟨k, hbase, hrest, hk⟩ := strtoulPrefix_eq h base
  have hloop := strtoulPass_returns hrest (afterPrefix base l).1 0
  rw [leadingLength, hk, ← Nat.add_assoc]
  unfold simpleStrtoul
  rw [hbase]
  exact hloop

end Jz2440.Console
