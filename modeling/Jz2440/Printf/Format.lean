import Jz2440.Common.Bytes
import Jz2440.Common.CInt
import Jz2440.Common.Loop

/-!
# Formatted output

Model of `my_printf.c` in `hard_driver/first_hard/025_sensors_022/007_irda_nec_ok_022_009`,
with the printed text as its result. An `int` and a `long` have 32 bits. The behaviour is
undefined, `none`, if `out_num` runs over its array, if an argument is missing or is not of
the type of its conversion, and if the format ends after a `%`.

All numbers go through `out_num`, as a `long`. It takes the sign of its argument also for
unsigned conversions, and it pads the digits before it puts the sign in front.

* `digitLoop_eq`: the loop computes the digits.
* `printf_number`: what a conversion of a number prints.
* `printf_unsigned_iff`, `printf_pads_iff`: where this is what C asks for.
-/

namespace Jz2440.Printf

open Jz2440.Common

/-! ## Numbers -/

/-- `hex_tab` (my_printf.c:15-16). -/
def hexTab (i : ℕ) : Char :=
  ['0', '1', '2', '3', '4', '5', '6', '7', '8', '9', 'a', 'b', 'c', 'd', 'e', 'f'].getD i '0'

/-- `MAX_NUMBER_BYTES` (my_printf.h:9). -/
def maxNumberBytes : ℕ := 64

/-- The array of `out_num`: the bytes before `s`, and the text from there up to the
    `'\0'`. -/
structure NumBuf where
  room : ℕ
  text : List Char

/-- `*--s = c`. -/
def NumBuf.push (c : Char) : NumBuf → Option NumBuf
  | ⟨0, _⟩ => none
  | ⟨room + 1, text⟩ => some ⟨room, c :: text⟩

/-- The `do` loop of `out_num` (my_printf.c:47-50), with `room` bytes before `text`. -/
def digitLoop (base : ℕ) : ℕ → List Char → ℕ → ℕ → Option (NumBuf × ℕ)
  | 0, _, _, _ => none
  | room + 1, text, m, count =>
    let text := hexTab (m % base) :: text
    let count := count + 1
    let m := m / base
    if m ≠ 0 then digitLoop base room text m count else some (⟨room, text⟩, count)

/-- The `for` loop of `out_num` (my_printf.c:53-54), `i` times. -/
def pad (lead : Char) : ℕ → NumBuf → Option NumBuf
  | 0, buf => some buf
  | i + 1, buf => (buf.push lead).bind (pad lead i)

/-- The padding of `out_num` (my_printf.c:52-55). -/
def padTo (lead : Char) (maxwidth count : Int32) (buf : NumBuf) : Option NumBuf :=
  if maxwidth ≠ 0 ∧ count < maxwidth then pad lead (maxwidth - count).toNatClampNeg buf
  else some buf

/-- The sign of `out_num` (my_printf.c:57-58). -/
def pushSign (n : Int32) (buf : NumBuf) : Option NumBuf :=
  if n < 0 then buf.push '-' else some buf

/-- `out_num` (my_printf.c:31-61). -/
def outNum (n : Int32) (base : ℕ) (lead : Char) (maxwidth : Int32) : Option (List Char) := do
  let m := if n < 0 then (-n).toBitVec.toNat else n.toBitVec.toNat
  let (buf, count) ← digitLoop base (maxNumberBytes - 1) [] m 0
  let buf ← padTo lead maxwidth (.ofNat count) buf
  let buf ← pushSign n buf
  return buf.text

/-! ## Formats -/

/-- An argument of `printf`. -/
inductive Arg
  | num (v : Word)
  | str (s : List Char)

/-- `va_arg` for a number, and what is printed for it. -/
def withNum (args : List Arg) (f : Word → Option (List Char)) :
    Option (List Char × List Arg) :=
  match args with
  | .num v :: args => (f v).map fun text => (text, args)
  | _ => none

/-- The `switch` of `my_vprintf` (my_printf.c:92-103): the text and the arguments that are
    left. -/
def conversion (c lead : Char) (maxwidth : Int32) (args : List Arg) :
    Option (List Char × List Arg) :=
  if c = 'd' then withNum args fun v => outNum (.ofBitVec v) 10 lead maxwidth
  else if c = 'o' then withNum args fun v => outNum (.ofBitVec v) 8 lead maxwidth
  else if c = 'u' then withNum args fun v => outNum (.ofBitVec v) 10 lead maxwidth
  else if c = 'x' then withNum args fun v => outNum (.ofBitVec v) 16 lead maxwidth
  else if c = 'c' then withNum args fun v => some [Char.ofNat (v.toNat % 256)]
  else if c = 's' then
    match args with
    | .str s :: args => some (s, args)
    | _ => none
  else some ([c], args)

/-- The loop that reads `maxwidth` (my_printf.c:86-90), and the rest of the format. -/
def readWidth : List Char → Int32 → Int32 × List Char
  | [], maxwidth => (maxwidth, [])
  | c :: fmt, maxwidth =>
    if '0' ≤ c ∧ c ≤ '9' then
      readWidth fmt (maxwidth * 10 + .ofNat (c.toNat - '0'.toNat))
    else (maxwidth, c :: fmt)

/-- What stands before the letter of a conversion (my_printf.c:76-90): `lead`, `maxwidth`, and the
    rest of the format. -/
def readDirective : List Char → Char × Int32 × List Char
  | '0' :: fmt => ('0', readWidth fmt 0)
  | fmt => (' ', readWidth fmt 0)

/-- The rest of the format and of the arguments, and the text so far. -/
structure PrintState where
  fmt : List Char
  args : List Arg
  out : List Char

/-- One pass of the loop of `my_vprintf` (my_printf.c:70-104). -/
def vprintfPass (s : PrintState) : Pass PrintState (Option (List Char)) :=
  match s.fmt with
  | [] => .leave (some s.out)
  | c :: fmt =>
    if c ≠ '%' then .again ⟨fmt, s.args, s.out ++ [c]⟩
    else
      let (lead, maxwidth, fmt) := readDirective fmt
      match fmt with
      | [] => .leave none
      | c :: fmt =>
        match conversion c lead maxwidth s.args with
        | none => .leave none
        | some (text, args) => .again ⟨fmt, args, s.out ++ text⟩

/-- `my_vprintf` (my_printf.c:65-106). -/
def myVprintf (fmt : List Char) (args : List Arg) (fuel : ℕ) : Option (Option (List Char)) :=
  loop vprintfPass fuel ⟨fmt, args, []⟩

/-- `printf` (my_printf.c:110-118). -/
def printf (fmt : List Char) (args : List Arg) (fuel : ℕ) : Option (Option (List Char)) :=
  myVprintf fmt args fuel

/-- The call ends and has printed `text`. -/
def Prints (fmt : List Char) (args : List Arg) (text : List Char) : Prop :=
  Yields (printf fmt args) (some text)

/-! ## What `out_num` prints -/

/-- The text of a number: the sign, padding up to `w` digits, and the digits. -/
def numberText (n : ℤ) (base : ℕ) (lead : Char) (w : ℕ) : List Char :=
  (if n < 0 then ['-'] else []) ++
    (List.replicate (w - (Nat.toDigits base n.natAbs).length) lead ++ Nat.toDigits base n.natAbs)

section Numbers

variable {base room : ℕ}

theorem hexTab_eq : ∀ i < 16, hexTab i = Nat.digitChar i := by decide

theorem digitLoop_eq (hbase : 1 < base) (hbase' : base ≤ 16) (text : List Char) (m count : ℕ)
    (hroom : (Nat.toDigits base m).length ≤ room) :
    digitLoop base room text m count =
      some (⟨room - (Nat.toDigits base m).length, Nat.toDigits base m ++ text⟩,
        count + (Nat.toDigits base m).length) := by
  induction room generalizing text m count with
  | zero =>
    have := Nat.length_toDigits_pos (b := base) (n := m)
    omega
  | succ room ih =>
    have hdigit := hexTab_eq (m % base) (by have := Nat.mod_lt m (show 0 < base by omega); omega)
    rw [digitLoop, hdigit]
    by_cases hlt : m < base
    · rw [Nat.div_eq_of_lt hlt, Nat.mod_eq_of_lt hlt, Nat.toDigits_of_lt_base hlt]
      rfl
    · have hne : m / base ≠ 0 := Nat.div_ne_zero_iff.mpr ⟨by omega, by omega⟩
      have hsplit := Nat.toDigits_of_base_le hbase (Nat.le_of_not_lt hlt)
      rw [hsplit, List.length_append, List.length_singleton] at hroom ⊢
      rw [if_pos hne, ih _ _ _ (by omega), List.append_assoc, List.singleton_append,
        Nat.add_sub_add_right, Nat.add_assoc, Nat.add_comm 1]

theorem pad_eq (lead : Char) {i : ℕ} (text : List Char) (h : i ≤ room) :
    pad lead i ⟨room, text⟩ = some ⟨room - i, List.replicate i lead ++ text⟩ := by
  induction i generalizing room text with
  | zero => rfl
  | succ i ih =>
    obtain ⟨room, rfl⟩ := Nat.exists_eq_add_of_le' (show 1 ≤ room by omega)
    rw [pad, NumBuf.push, Option.bind_some, ih _ (by omega), List.replicate_succ',
      List.append_assoc, List.singleton_append]
    congr 2
    omega

/-- The argument without its sign; that of `-2 ^ 31` is an `unsigned long` as well. -/
theorem magnitude_eq (n : Int32) :
    (if n < 0 then (-n).toBitVec.toNat else n.toBitVec.toNat) = n.toInt.natAbs := by
  have hint : n.toInt = n.toBitVec.toInt := rfl
  have hlt := n.toBitVec.isLt
  have hcond := BitVec.toInt_eq_toNat_cond n.toBitVec
  by_cases hneg : n < 0
  · rw [if_pos hneg, Int32.toBitVec_neg, BitVec.toNat_neg]
    rw [Int32.lt_iff_toInt_lt, Int32.toInt_zero] at hneg
    split_ifs at hcond <;> omega
  · rw [if_neg hneg]
    rw [Int32.lt_iff_toInt_lt, Int32.toInt_zero] at hneg
    split_ifs at hcond <;> omega

/-- The digits and the padding take at most `max w 11` bytes. -/
theorem length_toDigits_le (hbase : 8 ≤ base) (n : Int32) :
    (Nat.toDigits base n.toInt.natAbs).length ≤ 11 := by
  have hn := inInt_toInt n
  apply (Nat.length_toDigits_le_iff (by omega) (by decide)).mpr
  calc n.toInt.natAbs ≤ 2 ^ 31 := by have := hn.1; have := hn.2; omega
    _ < 8 ^ 11 := by decide
    _ ≤ base ^ 11 := Nat.pow_le_pow_left hbase 11

/-- Without room for it there is no padding. -/
theorem pad_eq_none (lead : Char) {i : ℕ} (text : List Char) (h : room < i) :
    pad lead i ⟨room, text⟩ = none := by
  induction i generalizing room text with
  | zero => exact absurd h (Nat.not_lt_zero room)
  | succ i ih =>
    cases room with
    | zero => rfl
    | succ room => exact ih _ (Nat.lt_of_succ_lt_succ h)

/-- The digits are padded up to `maxwidth`, if that is not negative. -/
theorem padTo_eq (lead : Char) (maxwidth : Int32) {len : ℕ} (hlen : len ≤ 11) (buf : NumBuf) :
    padTo lead maxwidth (.ofNat len) buf = pad lead (maxwidth.toInt.toNat - len) buf := by
  have hof : (Int32.ofNat len).toInt = len := Int32.toInt_ofNat_of_lt (by omega)
  have hlt : Int32.ofNat len < maxwidth ↔ (len : ℤ) < maxwidth.toInt := by
    rw [Int32.lt_iff_toInt_lt, hof]
  unfold padTo
  by_cases h : (len : ℤ) < maxwidth.toInt
  · have hne : maxwidth ≠ 0 := by
      rintro rfl
      rw [Int32.toInt_zero] at h
      omega
    have hsub : (maxwidth - .ofNat len).toInt = maxwidth.toInt - len := by
      have hmax := inInt_toInt maxwidth
      rw [toInt_sub_of_inInt, hof]
      rw [hof]
      exact ⟨by omega, by have := hmax.2; omega⟩
    rw [if_pos ⟨hne, hlt.mpr h⟩, ← Int32.toNat_toInt, hsub]
    congr 1
    omega
  · rw [if_neg fun hand => h (hlt.mp hand.2), show maxwidth.toInt.toNat - len = 0 by omega]
    rfl

/-- The digits and the padding leave `63 - max w len` bytes for the sign. -/
theorem outNum_eq_bind (n : Int32) (hbase : 8 ≤ base) (hbase' : base ≤ 16) (lead : Char)
    (maxwidth : Int32) :
    outNum n base lead maxwidth =
      ((pad lead (maxwidth.toInt.toNat - (Nat.toDigits base n.toInt.natAbs).length)
        ⟨maxNumberBytes - 1 - (Nat.toDigits base n.toInt.natAbs).length,
          Nat.toDigits base n.toInt.natAbs⟩).bind (pushSign n)).map NumBuf.text := by
  have hlen := length_toDigits_le hbase n
  have hroom : (Nat.toDigits base n.toInt.natAbs).length ≤ maxNumberBytes - 1 := by
    rw [maxNumberBytes]
    omega
  have hdigits := digitLoop_eq (by omega) hbase' [] n.toInt.natAbs 0 hroom
  simp only [outNum, magnitude_eq, hdigits, Option.bind_eq_bind, Option.bind_some, Nat.zero_add,
    List.append_nil, padTo_eq lead maxwidth hlen, Option.map_eq_bind, Option.bind_assoc]
  rfl

theorem outNum_eq (n : Int32) (hbase : 8 ≤ base) (hbase' : base ≤ 16) (lead : Char)
    {maxwidth : Int32} (hw : maxwidth.toInt + (if n.toInt < 0 then 1 else 0) < maxNumberBytes) :
    outNum n base lead maxwidth = some (numberText n.toInt base lead maxwidth.toInt.toNat) := by
  have hlen := length_toDigits_le hbase n
  rw [maxNumberBytes] at hw
  rw [outNum_eq_bind n hbase hbase', pad_eq, Option.bind_some, numberText]
  · unfold pushSign
    have hsign : n < 0 ↔ n.toInt < 0 := by rw [Int32.lt_iff_toInt_lt, Int32.toInt_zero]
    by_cases hneg : n < 0
    · rw [if_pos (hsign.mp hneg)] at hw
      obtain ⟨room, hroom⟩ := Nat.exists_eq_add_of_le' (m := 1)
        (n := maxNumberBytes - 1 - (Nat.toDigits base n.toInt.natAbs).length -
          (maxwidth.toInt.toNat - (Nat.toDigits base n.toInt.natAbs).length))
        (by rw [maxNumberBytes]; omega)
      rw [if_pos hneg, if_pos (hsign.mp hneg), hroom]
      rfl
    · rw [if_neg hneg, if_neg (hsign.not.mp hneg)]
      rfl
  · rw [maxNumberBytes]
    split_ifs at hw <;> omega

/-- A number that does not fit overruns the array. -/
theorem outNum_eq_none (n : Int32) (hbase : 8 ≤ base) (hbase' : base ≤ 16) (lead : Char)
    {maxwidth : Int32} (hw : ¬ maxwidth.toInt + (if n.toInt < 0 then 1 else 0) < maxNumberBytes) :
    outNum n base lead maxwidth = none := by
  have hlen := length_toDigits_le hbase n
  rw [maxNumberBytes] at hw
  rw [outNum_eq_bind n hbase hbase']
  by_cases hover : 63 < maxwidth.toInt
  · rw [pad_eq_none _ _ (by rw [maxNumberBytes]; omega)]
    rfl
  · -- the padding fills the array, and there is a sign
    have hneg : n.toInt < 0 := by
      by_contra hnonneg
      rw [if_neg hnonneg] at hw
      omega
    rw [if_pos hneg] at hw
    rw [pad_eq _ _ (by rw [maxNumberBytes]; omega), Option.bind_some, pushSign,
      if_pos (by rwa [Int32.lt_iff_toInt_lt, Int32.toInt_zero]),
      show maxNumberBytes - 1 - (Nat.toDigits base n.toInt.natAbs).length -
        (maxwidth.toInt.toNat - (Nat.toDigits base n.toInt.natAbs).length) = 0 by
          rw [maxNumberBytes]; omega]
    rfl

end Numbers

/-! ## What `printf` prints -/

/-- A format that is one conversion. -/
theorem prints_of_conversion {fmt : List Char} {c lead : Char} {maxwidth : Int32} {arg : Arg}
    {text : List Char} (hfmt : readDirective fmt = (lead, maxwidth, [c]))
    (hconv : conversion c lead maxwidth [arg] = some (text, [])) :
    Prints ('%' :: fmt) [arg] text := by
  have hfirst : vprintfPass ⟨'%' :: fmt, [arg], []⟩ = .again ⟨[], [], text⟩ := by
    simp only [vprintfPass, ne_eq, not_true_eq_false, if_false, hfmt, hconv, List.nil_append]
  exact Returns.of_again hfirst (Returns.of_leave rfl)

/-- The conversions of numbers with their bases. -/
inductive IsNumber : Char → ℕ → Prop
  | d : IsNumber 'd' 10
  | o : IsNumber 'o' 8
  | u : IsNumber 'u' 10
  | x : IsNumber 'x' 16

theorem readDirective_letter {c : Char} {base : ℕ} (hc : IsNumber c base) :
    readDirective [c] = (' ', .ofNat 0, [c]) := by
  cases hc <;> rfl

/-- All conversions of numbers print the text of a signed number. -/
theorem printf_number {c : Char} {base : ℕ} (hc : IsNumber c base) {fmt : List Char} {lead : Char}
    {w : ℕ} (hw : w ≤ 60) (hfmt : readDirective fmt = (lead, .ofNat w, [c])) (v : Word) :
    Prints ('%' :: fmt) [.num v] (numberText v.toInt base lead w) := by
  apply prints_of_conversion hfmt
  have hconv : ∀ base, 8 ≤ base → base ≤ 16 →
      withNum [.num v] (fun v => outNum (.ofBitVec v) base lead (.ofNat w)) =
        some (numberText v.toInt base lead w, []) := by
    intro base hbase hbase'
    have hwidth : (Int32.ofNat w).toInt = w := Int32.toInt_ofNat_of_lt (by omega)
    rw [withNum, outNum_eq _ hbase hbase' lead, Option.map_some, Int32.toInt_ofBitVec, hwidth,
      Int.toNat_natCast]
    rw [hwidth, maxNumberBytes]
    split_ifs <;> omega
  cases hc with
  | d => exact hconv 10 (by decide) (by decide)
  | o => exact hconv 8 (by decide) (by decide)
  | u => exact hconv 10 (by decide) (by decide)
  | x => exact hconv 16 (by decide) (by decide)

/-- Without a width there is no padding. -/
theorem printf_letter {c : Char} {base : ℕ} (hc : IsNumber c base) (v : Word) :
    Prints ['%', c] [.num v]
      ((if v.toInt < 0 then ['-'] else []) ++ Nat.toDigits base v.toInt.natAbs) := by
  have hprints := printf_number hc (by decide) (readDirective_letter hc) v
  rwa [numberText, Nat.zero_sub, List.replicate_zero, List.nil_append] at hprints

/-! ## What C asks for -/

/-- The decimal representation. -/
def decimal (n : ℤ) : List Char := (if n < 0 then ['-'] else []) ++ Nat.toDigits 10 n.natAbs

/-- The number padded on the left with spaces. -/
def spacePadded (w : ℕ) (n : ℤ) : List Char :=
  List.replicate (w - (decimal n).length) ' ' ++ decimal n

/-- The number with zeros between the sign and the digits. -/
def zeroPadded (w : ℕ) (n : ℤ) : List Char :=
  (if n < 0 then ['-'] else []) ++
    (List.replicate (w - (decimal n).length) '0' ++ Nat.toDigits 10 n.natAbs)

theorem length_decimal (n : ℤ) :
    (decimal n).length = (if n < 0 then 1 else 0) + (Nat.toDigits 10 n.natAbs).length := by
  rw [decimal, List.length_append]
  split_ifs <;> rfl

theorem length_spacePadded (w : ℕ) (n : ℤ) :
    (spacePadded w n).length = max w (decimal n).length := by
  rw [spacePadded, List.length_append, List.length_replicate]
  omega

theorem length_zeroPadded (w : ℕ) (n : ℤ) :
    (zeroPadded w n).length = max w (decimal n).length := by
  have hdecimal := length_decimal n
  rw [zeroPadded, List.length_append, List.length_append, List.length_replicate]
  split_ifs at hdecimal ⊢ <;> simp only [List.length_singleton, List.length_nil] <;> omega

/-- A number below `2 ^ 31` is printed by its digits. -/
theorem printf_of_lt {c : Char} {base : ℕ} (hc : IsNumber c base) {v : Word}
    (hv : v.toNat < 2 ^ 31) : Prints ['%', c] [.num v] (Nat.toDigits base v.toNat) := by
  have hint : v.toInt = v.toNat := BitVec.toInt_eq_toNat_of_lt (by omega)
  have hprints := printf_letter hc v
  rwa [hint, if_neg (by omega), List.nil_append, Int.natAbs_natCast] at hprints

theorem mem_toDigits {base n : ℕ} (hbase : 1 < base) {c : Char} (h : c ∈ Nat.toDigits base n) :
    ∃ i < base, c = Nat.digitChar i := by
  induction n using Nat.strong_induction_on with
  | h n ih =>
    rcases Nat.lt_or_ge n base with hlt | hge
    · rw [Nat.toDigits_of_lt_base hlt, List.mem_singleton] at h
      exact ⟨n, hlt, h⟩
    · rw [Nat.toDigits_of_base_le hbase hge, List.mem_append, List.mem_singleton] at h
      rcases h with hmem | hlast
      · exact ih _ (Nat.div_lt_self (by omega) hbase) hmem
      · exact ⟨n % base, Nat.mod_lt n (by omega), hlast⟩

theorem sign_ne_digit : ∀ i < 16, '-' ≠ Nat.digitChar i := by decide

/-- From there on there is a sign in front, which is not a digit. -/
theorem not_printf_of_le {c : Char} {base : ℕ} (hc : IsNumber c base) {v : Word}
    (hv : 2 ^ 31 ≤ v.toNat) : ¬ Prints ['%', c] [.num v] (Nat.toDigits base v.toNat) := by
  intro hdigits
  have hneg : v.toInt < 0 := by
    have := v.isLt
    rw [BitVec.toInt_eq_toNat_cond, if_neg (by omega)]
    omega
  have hprints := printf_letter hc v
  rw [if_pos hneg] at hprints
  have hmem : '-' ∈ Nat.toDigits base v.toNat := by
    rw [Option.some.inj (hdigits.unique hprints)]
    exact List.mem_cons_self
  have hbase : 1 < base ∧ base ≤ 16 := by cases hc <;> decide
  obtain ⟨i, hi, hdigit⟩ := mem_toDigits hbase.1 hmem
  exact sign_ne_digit i (by omega) hdigit

theorem printf_digits_iff {c : Char} {base : ℕ} (hc : IsNumber c base) (v : Word) :
    Prints ['%', c] [.num v] (Nat.toDigits base v.toNat) ↔ v.toNat < 2 ^ 31 := by
  constructor
  · intro hdigits
    by_contra hge
    exact not_printf_of_le hc (Nat.le_of_not_lt hge) hdigits
  · exact printf_of_lt hc

/-- The conversions of unsigned numbers are right exactly below `2 ^ 31`; `%d` is always
    right. -/
theorem printf_unsigned_iff (v : Word) :
    (Prints ['%', 'u'] [.num v] (Nat.toDigits 10 v.toNat) ↔ v.toNat < 2 ^ 31) ∧
      (Prints ['%', 'x'] [.num v] (Nat.toDigits 16 v.toNat) ↔ v.toNat < 2 ^ 31) ∧
      (Prints ['%', 'o'] [.num v] (Nat.toDigits 8 v.toNat) ↔ v.toNat < 2 ^ 31) ∧
      Prints ['%', 'd'] [.num v] (decimal v.toInt) :=
  ⟨printf_digits_iff .u v, printf_digits_iff .x v, printf_digits_iff .o v, printf_letter .d v⟩

/-- The largest unsigned number is printed as -1. -/
theorem printf_unsigned_max :
    Prints ['%', 'u'] [.num 0xffffffff] ['-', '1'] ∧
      ¬ Prints ['%', 'u'] [.num 0xffffffff] (Nat.toDigits 10 0xffffffff) := by
  exact ⟨printf_letter .u 0xffffffff, not_printf_of_le .u (by decide)⟩

/-- `%wd` and `%0wd` print what C asks for. -/
structure PadsLikeC (w : ℕ) (v : Word) : Prop where
  spaces : Prints ('%' :: (Nat.toDigits 10 w ++ ['d'])) [.num v] (spacePadded w v.toInt)
  zeros : Prints ('%' :: '0' :: (Nat.toDigits 10 w ++ ['d'])) [.num v] (zeroPadded w v.toInt)
  spaces_length : (spacePadded w v.toInt).length = max w (decimal v.toInt).length
  zeros_length : (zeroPadded w v.toInt).length = max w (decimal v.toInt).length

/-- The widths are read as they are written. -/
theorem readDirective_width : ∀ w < 61, 1 ≤ w →
    readDirective (Nat.toDigits 10 w ++ ['d']) = (' ', .ofNat w, ['d']) ∧
      readDirective ('0' :: (Nat.toDigits 10 w ++ ['d'])) = ('0', .ofNat w, ['d']) := by
  decide

/-- Without a sign, or without padding, it does not matter which of them comes first. -/
theorem numberText_eq_padded {n : ℤ} {w : ℕ}
    (h : 0 ≤ n ∨ w ≤ (Nat.toDigits 10 n.natAbs).length) :
    numberText n 10 ' ' w = spacePadded w n ∧ numberText n 10 '0' w = zeroPadded w n := by
  have hdecimal := length_decimal n
  unfold numberText spacePadded zeroPadded
  rcases h with hnonneg | hle
  · rw [if_neg (by omega), Nat.zero_add] at hdecimal
    rw [hdecimal, decimal, if_neg (by omega)]
    exact ⟨rfl, rfl⟩
  · rw [Nat.sub_eq_zero_of_le hle, Nat.sub_eq_zero_of_le (by omega)]
    exact ⟨rfl, rfl⟩

/-- The padding is right exactly for numbers without a sign and for those that are not
    padded. -/
theorem printf_pads_iff (w : ℕ) (hw : 1 ≤ w) (hw' : w ≤ 60) (v : Word) :
    PadsLikeC w v ↔ 0 ≤ v.toInt ∨ w ≤ (Nat.toDigits 10 v.toInt.natAbs).length := by
  obtain ⟨hspaces, hzeros⟩ := readDirective_width w (by omega) hw
  have hprints := printf_number .d hw' hspaces v
  have hprints' := printf_number .d hw' hzeros v
  have hdecimal := length_decimal v.toInt
  constructor
  · intro hpads
    by_contra hnot
    have heq := congrArg List.length (Option.some.inj (hpads.spaces.unique hprints))
    rw [length_spacePadded, numberText, List.length_append, List.length_append,
      List.length_replicate, if_pos (by omega), List.length_singleton] at heq
    rw [if_pos (by omega)] at hdecimal
    omega
  · intro hor
    obtain ⟨hspaced, hzeroed⟩ := numberText_eq_padded hor
    rw [hspaced] at hprints
    rw [hzeroed] at hprints'
    exact ⟨hprints, hprints', length_spacePadded w _, length_zeroPadded w _⟩

/-- `printf("num=%8d\n\r", 12345)` and its like. -/
theorem printf_pads_eight : PadsLikeC 8 12345 :=
  (printf_pads_iff 8 (by decide) (by decide) 12345).mpr (.inl (by decide))

/-- The sign stands before the padding, which does not count it. -/
theorem printf_pads_minus_five :
    Prints ['%', '3', 'd'] [.num (-5)] ['-', ' ', ' ', '5'] ∧
      ¬ Prints ['%', '3', 'd'] [.num (-5)] (spacePadded 3 (-5)) := by
  have hprints : Prints ['%', '3', 'd'] [.num (-5)] ['-', ' ', ' ', '5'] :=
    printf_number (w := 3) .d (by decide)
      (show readDirective ['3', 'd'] = (' ', .ofNat 3, ['d']) from rfl) (-5)
  refine ⟨hprints, ?_⟩
  intro hspaced
  exact absurd (Option.some.inj (hspaced.unique hprints)) (by decide)

end Jz2440.Printf
