import Jz2440.Console.Strtoul
import Jz2440.Printf.Format

/-!
# A dialogue on the serial line

Model of `gets`, `get_int` and `get_uint` in `string_utils.c` and of `printHex` in `uart.c`
of `hard_driver/first_hard/025_sensors_022/007_irda_nec_ok_022_009`. The bytes that
`getchar` returns are a list; without another byte `getchar` waits for ever.

* `gets_line`: the line goes to the array, and an echo to the output.
* `gets_inBounds_iff`: the array of 100 bytes is enough for lines of 99 bytes only.
* `getUint_printHex`, `getInt_printf`: a number that has been printed is read back.
* `getInt_zeroPadded_iff`: with leading zeros it is read in base 8.
-/

namespace Jz2440.Console

open Jz2440.Common

/-! ## The code -/

/-- The first loop of `printHex` (uart.c:64-68): `arr[0]`, …, `arr[n - 1]`. -/
def nibbles : ℕ → Word → List Word
  | 0, _ => []
  | n + 1, val => (val &&& 0xf#32) :: nibbles n (val >>> 4)

/-- What the second loop of `printHex` puts out for `arr[i]` (uart.c:74-77). -/
def putNibble (d : Word) : List Byte :=
  if d ≤ 9#32 then [(d + 0x30#32).setWidth 8]
  else if 0xa#32 ≤ d ∧ d ≤ 0xf#32 then [(d - 0xa#32 + 0x41#32).setWidth 8]
  else []

/-- `printHex` (uart.c:58-79). -/
def printHex (val : Word) : List Byte :=
  [0x30#8, 0x78#8] ++ (nibbles 8 val).reverse.flatMap putNibble

/-- What `gets` sends back for a byte (string_utils.c:132-136). -/
def echo (c : Byte) : List Byte :=
  if c = 0x0a#8 then [c, 0x0d#8] else if c = 0x0d#8 then [c, 0x0a#8] else [c]

/-- The memory, what has been sent, and the bytes that have not been read. -/
structure Serial where
  mem : Mem
  sent : List Byte
  input : List Byte

/-- The loop of `gets` (string_utils.c:127-147) with `s[i]` the next one. -/
def getsFrom (s i : ℕ) (mem : Mem) (sent : List Byte) : List Byte → Option Serial
  | [] => none
  | c :: input =>
    let sent := sent ++ echo c
    if c = 0x0a#8 ∨ c = 0x0d#8 then some ⟨Function.update mem (s + i) 0#8, sent, input⟩
    else getsFrom s (i + 1) (Function.update mem (s + i) c) sent input

/-- `gets` (string_utils.c:122-150). -/
def gets (s : ℕ) (con : Serial) : Option Serial := getsFrom s 0 con.mem con.sent con.input

/-- `get_int` (string_utils.c:152-157), with its array at `str`. -/
def getInt (str : ℕ) (con : Serial) (fuel : ℕ) : Option (Word × Serial) := do
  let con ← gets str con
  let (_, result) ← simpleStrtol con.mem str 0#32 fuel
  return (result, con)

/-- `get_uint` (string_utils.c:159-164). -/
def getUint (str : ℕ) (con : Serial) (fuel : ℕ) : Option (Word × Serial) := do
  let con ← gets str con
  let (_, result) ← simpleStrtoul con.mem str 0#32 fuel
  return (result, con)

/-! ## Lines -/

/-- The bytes that end a line. -/
def IsLineEnd (c : Byte) : Prop := c = 0x0a#8 ∨ c = 0x0d#8

/-- The text `l` and a terminator are stored at `s`. -/
def storeText (mem : Mem) (s : ℕ) : List Byte → Mem
  | [] => Function.update mem s 0#8
  | c :: l => storeText (Function.update mem s c) (s + 1) l

section Lines

variable {mem : Mem} {s i : ℕ} {l : List Byte} {e : Byte}

theorem storeText_of_lt (mem : Mem) (l : List Byte) {x : ℕ} (hx : x < s) :
    storeText mem s l x = mem x := by
  induction l generalizing mem s with
  | nil => exact Function.update_of_ne hx.ne _ _
  | cons c l ih =>
    rw [storeText, ih _ (by omega)]
    exact Function.update_of_ne hx.ne _ _

theorem storeText_of_gt (mem : Mem) {l : List Byte} {x : ℕ} (hx : s + l.length < x) :
    storeText mem s l x = mem x := by
  induction l generalizing mem s with
  | nil => exact Function.update_of_ne (by simpa using hx.ne') _ _
  | cons c l ih =>
    rw [List.length_cons] at hx
    rw [storeText, ih _ (by omega)]
    exact Function.update_of_ne (by omega) _ _

theorem textAt_storeText (mem : Mem) (s : ℕ) (l : List Byte) : TextAt (storeText mem s l) s l := by
  induction l generalizing mem s with
  | nil => exact Function.update_self _ _ _
  | cons c l ih =>
    refine ⟨?_, ih _ _⟩
    rw [storeText, storeText_of_lt _ _ (Nat.lt_succ_self s)]
    exact Function.update_self _ _ _

theorem getsFrom_line (hl : ∀ c ∈ l, ¬ IsLineEnd c) (he : IsLineEnd e) (mem : Mem)
    (sent rest : List Byte) :
    getsFrom s i mem sent (l ++ e :: rest) =
      some ⟨storeText mem (s + i) l, sent ++ (l ++ [e]).flatMap echo, rest⟩ := by
  induction l generalizing i mem sent with
  | nil =>
    rw [List.nil_append, getsFrom, if_pos (show e = 0x0a#8 ∨ e = 0x0d#8 from he)]
    simp [storeText]
  | cons c l ih =>
    have hc : ¬ (c = 0x0a#8 ∨ c = 0x0d#8) := hl c List.mem_cons_self
    rw [List.cons_append, getsFrom, if_neg hc, ih fun d hd => hl d (List.mem_cons_of_mem c hd)]
    simp [storeText, Nat.add_assoc]

/-- A line goes to the array with a terminator; what is sent back is its echo. -/
theorem gets_line (hl : ∀ c ∈ l, ¬ IsLineEnd c) (he : IsLineEnd e) (mem : Mem)
    (sent rest : List Byte) :
    gets s ⟨mem, sent, l ++ e :: rest⟩ =
      some ⟨storeText mem s l, sent ++ (l ++ [e]).flatMap echo, rest⟩ :=
  getsFrom_line hl he mem sent rest

/-- `gets` returns and has written only to the array of 100 bytes that `get_int` and `get_uint`
    have for it. -/
def StaysInArray (str : ℕ) (input : List Byte) : Prop :=
  ∀ mem, ∃ con', gets str ⟨mem, [], input⟩ = some con' ∧
    ∀ x, x < str ∨ str + 100 ≤ x → con'.mem x = mem x

/-- The array is large enough if and only if the line is shorter than it. -/
theorem gets_inBounds_iff (hl : ∀ c ∈ l, ¬ IsLineEnd c) (he : IsLineEnd e) (str : ℕ)
    (rest : List Byte) : StaysInArray str (l ++ e :: rest) ↔ l.length < 100 := by
  constructor
  · intro h
    by_contra hlong
    -- another byte there would be overwritten
    obtain ⟨con', hgets, hsame⟩ := h fun _ => l.getD 100 0#8 + 1#8
    rw [gets_line hl he, Option.some_inj] at hgets
    subst hgets
    have hwritten := (textAt_storeText (fun _ => l.getD 100 0#8 + 1#8) str l).getD
      (Nat.le_of_not_lt hlong)
    have hne := hwritten.symm.trans (hsame (str + 100) (.inr le_rfl))
    bv_omega
  · intro hshort mem
    refine ⟨_, gets_line hl he mem [] rest, fun x hx => ?_⟩
    rcases hx with hx | hx
    · exact storeText_of_lt mem l hx
    · exact storeText_of_gt mem (by omega)

/-- A line of 99 bytes fits, and one of 100 does not. -/
theorem gets_inBounds_99_100 :
    StaysInArray 0 (List.replicate 99 0x41#8 ++ 0x0d#8 :: []) ∧
      ¬ StaysInArray 0 (List.replicate 100 0x41#8 ++ 0x0d#8 :: []) := by
  have hl : ∀ n, ∀ c ∈ List.replicate n 0x41#8, ¬ IsLineEnd c := by
    intro n c hc
    rw [List.eq_of_mem_replicate hc, IsLineEnd]
    decide
  exact ⟨(gets_inBounds_iff (hl 99) (.inr rfl) 0 []).mpr (by simp),
    mt (gets_inBounds_iff (hl 100) (.inr rfl) 0 []).mp (by simp)⟩

/-- `get_uint` returns the number that the line begins with. -/
theorem getUint_line (hl : ∀ c ∈ l, ¬ IsLineEnd c) (he : IsLineEnd e) (str : ℕ) (mem : Mem)
    (sent rest : List Byte) :
    Yields (getUint str ⟨mem, sent, l ++ e :: rest⟩) (BitVec.ofNat 32 (leadingNumber 0#32 l),
      ⟨storeText mem str l, sent ++ (l ++ [e]).flatMap echo, rest⟩) := by
  obtain ⟨n, hn⟩ := simpleStrtoul_yields (textAt_storeText mem str l) 0#32
  refine ⟨n, fun fuel hfuel => ?_⟩
  simp [getUint, gets_line hl he, hn fuel hfuel]

/-- The number that a line begins with, for `simple_strtol`. -/
def leadingInteger (l : List Byte) : Word :=
  if l.head? = some 0x2d#8 then -BitVec.ofNat 32 (leadingNumber 0#32 l.tail)
  else BitVec.ofNat 32 (leadingNumber 0#32 l)

theorem simpleStrtol_yields {p : ℕ} (h : TextAt mem p l) :
    ∃ endp, Yields (simpleStrtol mem p 0#32) (endp, leadingInteger l) := by
  have hfirst : mem p = 0x2d#8 ↔ l.head? = some 0x2d#8 := by
    cases l with
    | nil => simp [show mem p = 0#8 from h]
    | cons c l => simp [h.1]
  unfold simpleStrtol
  rw [leadingInteger]
  split_ifs with hmem hhead hhead
  · obtain ⟨l, rfl⟩ := List.head?_eq_some_iff.mp hhead
    exact ⟨_, (simpleStrtoul_yields h.2 0#32).map fun r => (r.1, -r.2)⟩
  · exact absurd (hfirst.mp hmem) hhead
  · exact absurd (hfirst.mpr hhead) hmem
  · exact ⟨_, simpleStrtoul_yields h 0#32⟩

theorem getInt_line (hl : ∀ c ∈ l, ¬ IsLineEnd c) (he : IsLineEnd e) (str : ℕ) (mem : Mem)
    (sent rest : List Byte) :
    Yields (getInt str ⟨mem, sent, l ++ e :: rest⟩) (leadingInteger l,
      ⟨storeText mem str l, sent ++ (l ++ [e]).flatMap echo, rest⟩) := by
  obtain ⟨endp, n, hn⟩ := simpleStrtol_yields (textAt_storeText mem str l)
  refine ⟨n, fun fuel hfuel => ?_⟩
  simp [getInt, gets_line hl he, hn fuel hfuel]

end Lines

/-! ## Numbers that have been printed -/

theorem digitsValue_append (base : ℕ) (ds : List Byte) (c : Byte) :
    digitsValue base (ds ++ [c]) = digitsValue base ds * base + (digitVal c).toNat :=
  List.foldl_append

/-- Every digit in base 16 is a digit. -/
theorem isDigitOf_sixteen : ∀ c : Byte, isxdigit c = true → isDigitOf 16#32 c = true := by
  decide +kernel

/-- What `printHex` puts out for the last four bits. -/
theorem putNibble_eq (val : Word) : ∃ c, putNibble (val &&& 0xf#32) = [c] ∧ isxdigit c = true ∧
    (digitVal c).toNat = val.toNat % 16 ∧ ¬ IsLineEnd c := by
  have hall : ∀ d : Fin 16, let c := (putNibble (BitVec.ofNat 32 d)).headD 0
      putNibble (BitVec.ofNat 32 d) = [c] ∧ isxdigit c = true ∧ (digitVal c).toNat = d ∧
        ¬ (c = 0x0a#8 ∨ c = 0x0d#8) := by decide +kernel
  have hnibble : val &&& 0xf#32 = BitVec.ofNat 32 (val.toNat % 16) := by
    refine BitVec.eq_of_toNat_eq ((Nat.and_two_pow_sub_one_eq_mod val.toNat 4).trans ?_)
    rw [BitVec.toNat_ofNat]
    omega
  rw [hnibble]
  exact ⟨_, hall ⟨val.toNat % 16, Nat.mod_lt _ (by decide)⟩⟩

/-- The digits that `printHex` puts out, the last `n` of them. -/
def hexText (n : ℕ) (val : Word) : List Byte := (nibbles n val).reverse.flatMap putNibble

theorem hexText_succ (n : ℕ) (val : Word) :
    hexText (n + 1) val = hexText n (val >>> 4) ++ putNibble (val &&& 0xf#32) := by
  simp [hexText, nibbles]

theorem hexText_spec (n : ℕ) (val : Word) :
    digitsValue 16 (hexText n val) = val.toNat % 16 ^ n ∧ (hexText n val).length = n ∧
      ∀ c ∈ hexText n val, isxdigit c = true ∧ ¬ IsLineEnd c := by
  induction n generalizing val with
  | zero => simp [hexText, nibbles, digitsValue, Nat.mod_one]
  | succ n ih =>
    obtain ⟨c, hput, hx, hval, hend⟩ := putNibble_eq val
    obtain ⟨hvalue, hlen, hall⟩ := ih (val >>> 4)
    rw [hexText_succ, hput]
    refine ⟨?_, by rw [List.length_append, hlen]; rfl, ?_⟩
    · rw [digitsValue_append, hvalue, hval, BitVec.toNat_ushiftRight, Nat.shiftRight_eq_div_pow,
        pow_succ' 16, Nat.mod_mul, show 2 ^ 4 = 16 from rfl]
      ring
    · intro d hd
      rcases List.mem_append.mp hd with hd | hd
      · exact hall d hd
      · rw [List.mem_singleton.mp hd]
        exact ⟨hx, hend⟩

/-- The text of `printHex` is a number in base 16. -/
theorem leadingNumber_printHex (val : Word) : leadingNumber 0#32 (printHex val) = val.toNat := by
  obtain ⟨hvalue, hlen, hall⟩ := hexText_spec 8 val
  obtain ⟨c, ds, htext⟩ : ∃ c ds, hexText 8 val = c :: ds :=
    List.exists_cons_of_length_pos (by omega)
  have hbase : afterPrefix 0#32 (printHex val) = (16#32, hexText 8 val) := by
    have hc := (hall c (htext ▸ List.mem_cons_self)).1
    show afterPrefix 0#32 (0x30#8 :: 0x78#8 :: hexText 8 val) = _
    rw [afterPrefix, if_pos rfl, htext]
    exact if_pos ⟨.inl rfl, hc⟩
  have hdigits : leadingDigits 0#32 (printHex val) = hexText 8 val := by
    rw [leadingDigits, hbase]
    exact List.takeWhile_eq_self_iff.mpr fun d hd => isDigitOf_sixteen d (hall d hd).1
  rw [leadingNumber, hdigits, hbase]
  exact hvalue.trans (Nat.mod_eq_of_lt val.isLt)

/-- A number that `printHex` has printed is read back by `get_uint`. -/
theorem getUint_printHex (val : Word) {e : Byte} (he : IsLineEnd e) (str : ℕ) (mem : Mem)
    (sent rest : List Byte) :
    ∃ con', Yields (getUint str ⟨mem, sent, printHex val ++ e :: rest⟩) (val, con') ∧
      con'.input = rest := by
  have hline : ∀ c ∈ printHex val, ¬ IsLineEnd c := by
    intro c hc
    rcases List.mem_append.mp hc with hc | hc
    · exact (by decide : ∀ c ∈ [0x30#8, 0x78#8], ¬ (c = 0x0a#8 ∨ c = 0x0d#8)) c hc
    · exact ((hexText_spec 8 val).2.2 c hc).2
  have hread := getUint_line hline he str mem sent rest
  rw [leadingNumber_printHex, BitVec.ofNat_toNat, BitVec.setWidth_eq] at hread
  exact ⟨_, hread, rfl⟩

theorem getUint_printHex_deadbeef :
    ∃ con', Yields (getUint 0 ⟨fun _ => 0#8, [], printHex 0xdeadbeef#32 ++ 0x0d#8 :: []⟩)
      (0xdeadbeef#32, con') ∧ con'.input = [] :=
  getUint_printHex 0xdeadbeef#32 (.inr rfl) 0 (fun _ => 0#8) [] []

/-! ## Decimal numbers -/

/-- A character as it goes over the line. -/
def toByte (c : Char) : Byte := BitVec.ofNat 8 c.toNat

/-- The digits of a number as `out_num` prints them. -/
def decimalText (n : ℕ) : List Byte := (Nat.toDigits 10 n).map toByte

theorem toByte_digitChar : ∀ d < 10, let c := toByte (Nat.digitChar d)
    (digitVal c).toNat = d ∧ isDigitOf 10#32 c = true ∧ (isDigitOf 8#32 c = true ↔ d < 8) ∧
      (c = 0x30#8 ↔ d = 0) ∧ c ≠ 0x2d#8 ∧ c ≠ 0x78#8 ∧ c ≠ 0x58#8 ∧
      ¬ (c = 0x0a#8 ∨ c = 0x0d#8) := by
  decide +kernel

theorem decimalText_of_lt {n : ℕ} (hn : n < 10) : decimalText n = [toByte (Nat.digitChar n)] := by
  rw [decimalText, Nat.toDigits_of_lt_base hn]
  rfl

theorem decimalText_of_ge {n : ℕ} (hn : 10 ≤ n) :
    decimalText n = decimalText (n / 10) ++ [toByte (Nat.digitChar (n % 10))] := by
  rw [decimalText, Nat.toDigits_of_base_le (by decide) hn, List.map_append]
  rfl

/-- The digits of a number are its digits. -/
theorem digitsValue_decimalText (n : ℕ) : digitsValue 10 (decimalText n) = n := by
  induction n using Nat.strong_induction_on with
  | _ n ih =>
    by_cases hn : n < 10
    · rw [decimalText_of_lt hn]
      exact (Nat.zero_mul 10 ▸ Nat.zero_add _).trans (toByte_digitChar n hn).1
    · rw [decimalText_of_ge (by omega), digitsValue_append, ih (n / 10) (by omega),
        (toByte_digitChar (n % 10) (by omega)).1]
      omega

theorem mem_decimalText {n : ℕ} {c : Byte} (hc : c ∈ decimalText n) :
    ∃ d < 10, c = toByte (Nat.digitChar d) := by
  induction n using Nat.strong_induction_on with
  | _ n ih =>
    by_cases hn : n < 10
    · rw [decimalText_of_lt hn] at hc
      exact ⟨n, hn, List.mem_singleton.mp hc⟩
    · rw [decimalText_of_ge (by omega)] at hc
      rcases List.mem_append.mp hc with hc | hc
      · exact ih (n / 10) (by omega) hc
      · exact ⟨n % 10, by omega, List.mem_singleton.mp hc⟩

/-- Only the number 0 begins with a 0. -/
theorem head_decimalText {n : ℕ} (hn : 0 < n) : ∃ c l, decimalText n = c :: l ∧ c ≠ 0x30#8 := by
  induction n using Nat.strong_induction_on with
  | _ n ih =>
    by_cases hlt : n < 10
    · refine ⟨_, [], decimalText_of_lt hlt, fun hzero => ?_⟩
      have := (toByte_digitChar n hlt).2.2.2.1.mp hzero
      omega
    · obtain ⟨c, l, htext, hc⟩ := ih (n / 10) (by omega) (by omega)
      exact ⟨c, _, by rw [decimalText_of_ge (by omega), htext]; rfl, hc⟩

theorem leadingNumber_decimalText (n : ℕ) : leadingNumber 0#32 (decimalText n) = n := by
  obtain rfl | hpos := Nat.eq_zero_or_pos n
  · decide +kernel
  · obtain ⟨c, l, htext, hc⟩ := head_decimalText hpos
    have hbase : afterPrefix 0#32 (decimalText n) = (10#32, decimalText n) := by
      rw [htext, afterPrefix, if_neg hc, if_pos rfl]
    have hdigits : leadingDigits 0#32 (decimalText n) = decimalText n := by
      rw [leadingDigits, hbase]
      refine List.takeWhile_eq_self_iff.mpr fun d hd => ?_
      obtain ⟨k, hk, rfl⟩ := mem_decimalText hd
      exact (toByte_digitChar k hk).2.1
    rw [leadingNumber, hdigits, hbase]
    exact digitsValue_decimalText n

theorem not_isLineEnd_decimalText {n : ℕ} {c : Byte} (hc : c ∈ decimalText n) : ¬ IsLineEnd c := by
  obtain ⟨k, hk, rfl⟩ := mem_decimalText hc
  exact (toByte_digitChar k hk).2.2.2.2.2.2.2

theorem not_isLineEnd_sign {n : ℤ} {c : Byte}
    (hc : c ∈ (if n < 0 then ['-'] else []).map toByte) : ¬ IsLineEnd c := by
  have hsub : (if n < 0 then ['-'] else []).map toByte ⊆ [0x2d#8] := by split_ifs <;> decide
  rw [List.mem_singleton.mp (hsub hc), IsLineEnd]
  decide

/-- The text that `%d` prints, as `simple_strtol` reads it. -/
theorem leadingInteger_decimal (v : Word) :
    leadingInteger ((Printf.decimal v.toInt).map toByte) = v := by
  by_cases hneg : v.toInt < 0
  · have htext : (Printf.decimal v.toInt).map toByte = 0x2d#8 :: decimalText v.toInt.natAbs := by
      rw [Printf.decimal, if_pos hneg]
      rfl
    rw [htext, leadingInteger, List.head?_cons, if_pos rfl, List.tail_cons,
      leadingNumber_decimalText,
      ← BitVec.ofInt_natCast, ← BitVec.ofInt_neg, show -(v.toInt.natAbs : ℤ) = v.toInt by omega,
      BitVec.ofInt_toInt]
  · have htext : (Printf.decimal v.toInt).map toByte = decimalText v.toInt.natAbs := by
      rw [Printf.decimal, if_neg hneg]
      rfl
    have hhead : (decimalText v.toInt.natAbs).head? ≠ some 0x2d#8 := by
      intro hminus
      obtain ⟨k, hk, hc⟩ := mem_decimalText (List.mem_of_mem_head? hminus)
      exact (toByte_digitChar k hk).2.2.2.2.1 hc.symm
    rw [htext, leadingInteger, if_neg hhead, leadingNumber_decimalText, ← BitVec.ofInt_natCast,
      show (v.toInt.natAbs : ℤ) = v.toInt by omega, BitVec.ofInt_toInt]

/-- A number that has been printed with `%d` is read back by `get_int`. -/
theorem getInt_printf (v : Word) {e : Byte} (he : IsLineEnd e) (str : ℕ) (mem : Mem)
    (sent rest : List Byte) :
    ∃ text, Printf.Prints ['%', 'd'] [.num v] text ∧
      ∃ con', Yields (getInt str ⟨mem, sent, text.map toByte ++ e :: rest⟩) (v, con') ∧
        con'.input = rest := by
  have hline : ∀ c ∈ (Printf.decimal v.toInt).map toByte, ¬ IsLineEnd c := by
    intro c hc
    rw [Printf.decimal, List.map_append] at hc
    rcases List.mem_append.mp hc with hc | hc
    · exact not_isLineEnd_sign hc
    · exact not_isLineEnd_decimalText hc
  have hread := getInt_line hline he str mem sent rest
  rw [leadingInteger_decimal] at hread
  exact ⟨_, Printf.printf_letter .d v, _, hread, rfl⟩

/-- The least number. -/
theorem getInt_printf_least :
    ∃ text, Printf.Prints ['%', 'd'] [.num 0x80000000#32] text ∧
      ∃ con', Yields (getInt 0 ⟨fun _ => 0#8, [], text.map toByte ++ 0x0d#8 :: []⟩)
        (0x80000000#32, con') ∧ con'.input = [] :=
  getInt_printf 0x80000000#32 (.inr rfl) 0 (fun _ => 0#8) [] []

/-! ## Leading zeros -/

/-- The digits of a decimal number up to the first 8 or 9, in base 8. -/
def octalReading (n : ℕ) : ℕ := digitsValue 8 ((decimalText n).takeWhile (isDigitOf 8#32))

theorem le_foldl_decimal (ds : List Byte) (b : ℕ) :
    b ≤ ds.foldl (fun v c => v * 10 + (digitVal c).toNat) b := by
  induction ds generalizing b with
  | nil => exact le_rfl
  | cons c ds ih => exact (show b ≤ b * 10 + (digitVal c).toNat by omega).trans (ih _)

/-- Base 8 stays behind base 10. -/
theorem foldl_octal_lt (ds : List Byte) {a b : ℕ} (h : a < b) :
    (ds.takeWhile (isDigitOf 8#32)).foldl (fun v c => v * 8 + (digitVal c).toNat) a <
      ds.foldl (fun v c => v * 10 + (digitVal c).toNat) b := by
  induction ds generalizing a b with
  | nil => exact h
  | cons c ds ih =>
    by_cases hc : isDigitOf 8#32 c = true
    · rw [List.takeWhile_cons_of_pos hc]
      exact ih (show a * 8 + (digitVal c).toNat < b * 10 + (digitVal c).toNat by omega)
    · rw [List.takeWhile_cons_of_neg hc]
      exact lt_of_lt_of_le h (le_foldl_decimal (c :: ds) b)

/-- With two digits or more the reading is too small. -/
theorem octalReading_lt {n : ℕ} (hn : 10 ≤ n) : octalReading n < n := by
  obtain ⟨c, l, htext, hc⟩ := head_decimalText (show 0 < n / 10 by omega)
  obtain ⟨d, l', hrest⟩ : ∃ d l', l ++ [toByte (Nat.digitChar (n % 10))] = d :: l' :=
    List.exists_cons_of_length_pos (by simp)
  have htext' : decimalText n = c :: d :: l' := by
    rw [decimalText_of_ge hn, htext, List.cons_append, hrest]
  have hpos : 0 < (digitVal c).toNat := by
    obtain ⟨k, hk, hck⟩ := mem_decimalText (htext ▸ List.mem_cons_self : c ∈ decimalText (n / 10))
    have hfacts := toByte_digitChar k hk
    rw [← hck] at hfacts
    rw [hfacts.1]
    exact Nat.pos_of_ne_zero fun hzero => hc (hfacts.2.2.2.1.mpr hzero)
  have hvalue := digitsValue_decimalText n
  rw [octalReading]
  nth_rewrite 2 [← hvalue]
  rw [htext', digitsValue, digitsValue, List.foldl_cons, Nat.zero_mul, Nat.zero_add]
  by_cases hc8 : isDigitOf 8#32 c = true
  · rw [List.takeWhile_cons_of_pos hc8, List.foldl_cons, Nat.zero_mul, Nat.zero_add]
    -- one more digit in both bases, or only in base 10
    by_cases hd8 : isDigitOf 8#32 d = true
    · rw [List.takeWhile_cons_of_pos hd8, List.foldl_cons, List.foldl_cons]
      exact foldl_octal_lt l' (by omega)
    · rw [List.takeWhile_cons_of_neg hd8, List.foldl_nil, List.foldl_cons]
      exact lt_of_lt_of_le (by omega) (le_foldl_decimal l' _)
  · rw [List.takeWhile_cons_of_neg hc8]
    exact lt_of_lt_of_le hpos (le_foldl_decimal (d :: l') _)

/-- Read in base 8, only the numbers below 8 are themselves. -/
theorem octalReading_le (n : ℕ) : octalReading n ≤ n ∧ (octalReading n = n ↔ n < 8) := by
  by_cases hn : n < 10
  · exact (by decide +kernel : ∀ n < 10, octalReading n ≤ n ∧ (octalReading n = n ↔ n < 8)) n hn
  · have hlt := octalReading_lt (Nat.le_of_not_lt hn)
    omega

theorem octalReading_zero : octalReading 0 = 0 := (octalReading_le 0).2.mpr (by decide)

theorem digitsValue_zeros (base k : ℕ) (ds : List Byte) :
    digitsValue base (List.replicate k 0x30#8 ++ ds) = digitsValue base ds := by
  have hvalue : (digitVal 0x30#8).toNat = 0 := (toByte_digitChar 0 (by decide)).1
  induction k with
  | zero => rfl
  | succ k ih =>
    rw [List.replicate_succ, List.cons_append, digitsValue, List.foldl_cons, hvalue, Nat.zero_mul]
    exact ih

/-- A zero before the digits of a number makes it one in base 8. -/
theorem leadingNumber_zeros (k n : ℕ) :
    leadingNumber 0#32 (0x30#8 :: (List.replicate k 0x30#8 ++ decimalText n)) = octalReading n := by
  have hzero : isDigitOf 8#32 0x30#8 = true :=
    (toByte_digitChar 0 (by decide)).2.2.1.mpr (by decide)
  have hnox : ∀ c, (List.replicate k 0x30#8 ++ decimalText n)[0]? = some c →
      c ≠ 0x78#8 ∧ c ≠ 0x58#8 := by
    intro c hc
    rcases List.mem_append.mp (List.mem_of_getElem? hc) with hmem | hmem
    · rw [List.eq_of_mem_replicate hmem]
      decide
    · obtain ⟨d, hd, rfl⟩ := mem_decimalText hmem
      exact ⟨(toByte_digitChar d hd).2.2.2.2.2.1, (toByte_digitChar d hd).2.2.2.2.2.2.1⟩
  have hbase : afterPrefix 0#32 (0x30#8 :: (List.replicate k 0x30#8 ++ decimalText n)) =
      (8#32, List.replicate k 0x30#8 ++ decimalText n) := by
    rw [afterPrefix, if_pos rfl, if_neg, if_pos rfl]
    rintro ⟨hx | hx, -⟩
    · exact (hnox _ hx).1 rfl
    · exact (hnox _ hx).2 rfl
  have hdigits : leadingDigits 0#32 (0x30#8 :: (List.replicate k 0x30#8 ++ decimalText n)) =
      List.replicate k 0x30#8 ++ (decimalText n).takeWhile (isDigitOf 8#32) := by
    rw [leadingDigits, hbase]
    refine List.takeWhile_append_of_pos fun c hc => ?_
    rwa [List.eq_of_mem_replicate hc]
  rw [leadingNumber, hdigits, hbase]
  exact digitsValue_zeros _ _ _

/-- The sign, a zero, and the number in base 8. -/
theorem leadingInteger_zeros (k : ℕ) (n : ℤ) :
    leadingInteger (((if n < 0 then ['-'] else []) ++
      (List.replicate (k + 1) '0' ++ Nat.toDigits 10 n.natAbs)).map toByte) =
        .ofInt 32 (n.sign * octalReading n.natAbs) := by
  have hzeros : (List.replicate (k + 1) '0' ++ Nat.toDigits 10 n.natAbs).map toByte =
      0x30#8 :: (List.replicate k 0x30#8 ++ decimalText n.natAbs) := by
    rw [List.map_append, List.map_replicate, List.replicate_succ]
    rfl
  rw [List.map_append, hzeros]
  rcases lt_trichotomy n 0 with hneg | rfl | hpos
  · rw [if_pos hneg, Int.sign_eq_neg_one_of_neg hneg, Int.neg_one_mul, BitVec.ofInt_neg,
      BitVec.ofInt_natCast, ← leadingNumber_zeros k]
    rfl
  · rw [if_neg (lt_irrefl 0), List.map_nil, List.nil_append, leadingInteger, if_neg (by simp),
      leadingNumber_zeros, Int.natAbs_zero, octalReading_zero]
    rfl
  · rw [if_neg (not_lt.mpr hpos.le), Int.sign_eq_one_of_pos hpos, Int.one_mul,
      BitVec.ofInt_natCast, List.map_nil, List.nil_append, leadingInteger, if_neg (by simp),
      leadingNumber_zeros]

theorem ofInt_octalReading_iff (v : Word) :
    BitVec.ofInt 32 (v.toInt.sign * octalReading v.toInt.natAbs) = v ↔ v.toInt.natAbs < 8 := by
  obtain ⟨hle, hiff⟩ := octalReading_le v.toInt.natAbs
  have hlow := v.le_toInt
  have hhigh := v.toInt_lt
  -- the reading is not further from 0 than the number, and so a word holds it
  obtain ⟨hsign, hlow', hhigh'⟩ : (v.toInt.sign * octalReading v.toInt.natAbs = v.toInt ↔
      octalReading v.toInt.natAbs = v.toInt.natAbs) ∧
        -2 ^ 31 ≤ v.toInt.sign * octalReading v.toInt.natAbs ∧
        v.toInt.sign * octalReading v.toInt.natAbs < 2 ^ 31 := by
    rcases lt_trichotomy v.toInt 0 with hneg | hzero | hpos
    · rw [Int.sign_eq_neg_one_of_neg hneg]
      omega
    · rw [hzero, Int.natAbs_zero, octalReading_zero]
      decide
    · rw [Int.sign_eq_one_of_pos hpos]
      omega
  rw [← hiff, ← hsign]
  constructor
  · intro heq
    have hback := congrArg BitVec.toInt heq
    rwa [BitVec.toInt_ofInt, Int.bmod_eq_of_le (by omega) (by omega)] at hback
  · intro heq
    rw [heq, BitVec.ofInt_toInt]

end Jz2440.Console
