import Mathlib.Data.Rat.Defs
import Mathlib.Algebra.Field.Rat
import Mathlib.Data.List.GetD
import Jz2440.Common.Bytes
import Jz2440.Common.Prog

/-!
# The temperature of the DS18B20

Model of `sensors/ds18b20/ds18b20.c` in
`hard_driver/first_hard/025_sensors_022/007_irda_nec_ok_022_009`, without its timing. The
code does three things to the wire: it resets it and looks for the presence pulse, it
writes a bit, it reads a bit. A sensor is whatever answers these requests.

Two places of `ds18b20_read_temperature` decide what is decoded. The tests for the
resolution compare before they mask, `ram[4] & ((3<<5) == 0)`, so none of them
succeeds. And bit 11, the sign, is read as the sign of a magnitude.

* `decode_eq`: what is computed from the nine bytes.
* `readTemperature_of_delivers`: that is what is stored, for every sensor.
* `decode_eq_temperature_iff`: for which bytes it is the temperature.
* `ds18b20_delivers`: a sensor that follows the commands delivers its scratchpad.
-/

namespace Jz2440.Sensors

open Jz2440.Common

/-! ## The wire -/

/-- A reset pulse, answered by the level afterwards; a bit that is written; a bit that is
    read. -/
inductive WireReq
  | reset
  | write (bit : Bool)
  | read
  deriving DecidableEq

abbrev WireReq.Ans : WireReq → Type
  | .write _ => Unit
  | _ => Bool

abbrev WireProg := Prog WireReq WireReq.Ans

abbrev Sensor (σ : Type) := Prog.Handler WireReq WireReq.Ans σ

/-! ## The code -/

/-- `ds18b20_initialization` (ds18b20.c:63-74). -/
def ds18b20Initialization : WireProg Bool := Prog.request WireReq.reset

/-- `ds18b20_write_bit` (ds18b20.c:76-90). -/
def ds18b20WriteBit (val : Bool) : WireProg Unit := Prog.request (WireReq.write val)

/-- `ds18b20_read_bit` (ds18b20.c:92-102). -/
def ds18b20ReadBit : WireProg Bool := Prog.request WireReq.read

/-- The loop of `ds18b20_write_byte` (ds18b20.c:104-111) over the bits `is`. -/
def writeBits (data : Byte) : List ℕ → WireProg Unit
  | [] => pure ()
  | i :: is => do
    ds18b20WriteBit (data &&& (1 <<< i) ≠ 0)
    writeBits data is

/-- `ds18b20_write_byte` (ds18b20.c:104-111). -/
def ds18b20WriteByte (data : Byte) : WireProg Unit := writeBits data (List.range 8)

/-- The loop of `ds18b20_read_byte` (ds18b20.c:113-125) over the bits `is`. -/
def readBits : List ℕ → Byte → WireProg Byte
  | [], data => pure data
  | i :: is, data => do
    let bit ← ds18b20ReadBit
    readBits is (if bit then data ||| (1 <<< i) else data)

/-- `ds18b20_read_byte` (ds18b20.c:113-125). -/
def ds18b20ReadByte : WireProg Byte := readBits (List.range 8) 0

/-- `SKIP_ROM`, `CONVERT_TEAMPERATURE` and `READ_SCRATCHPAD` (ds18b20.c:10-18). -/
def skipRom : Byte := 0xcc
def convertTemperature : Byte := 0x44
def readScratchpad : Byte := 0xbe

/-- `ds18b20_wait_when_processing` (ds18b20.c:158-167). -/
def ds18b20WaitWhenProcessing : ℕ → WireProg ℤ
  | 0 => pure (-1)
  | timeoutUs + 1 => do
    let bit ← ds18b20ReadBit
    if bit then pure 0 else ds18b20WaitWhenProcessing timeoutUs

/-- `ds18b20_start_convert` (ds18b20.c:169-188). -/
def ds18b20StartConvert : WireProg ℤ := do
  let val ← ds18b20Initialization
  if val then pure (-1)
  else do
    ds18b20WriteByte skipRom
    ds18b20WriteByte convertTemperature
    let err ← ds18b20WaitWhenProcessing 1000000
    if err ≠ 0 then pure (-1) else pure 0

/-- The loop of `ds18b20_read_ram` (ds18b20.c:203-206), with `n` bytes to go. -/
def readBytes : ℕ → WireProg (List Byte)
  | 0 => pure []
  | n + 1 => do
    let byte ← ds18b20ReadByte
    let rest ← readBytes n
    pure (byte :: rest)

/-- `ds18b20_read_ram` (ds18b20.c:190-209): `none` is the return value -1. -/
def ds18b20ReadRam : WireProg (Option (List Byte)) := do
  let val ← ds18b20Initialization
  if val then pure none
  else do
    ds18b20WriteByte skipRom
    ds18b20WriteByte readScratchpad
    let ram ← readBytes 9
    pure (some ram)

/-- `val` (ds18b20.c:216). -/
def weights : List ℚ := [1 / 16, 1 / 8, 1 / 4, 1 / 2, 1, 2, 4, 8, 16, 32, 64]

/-- The value of a comparison in C. -/
def truth (p : Prop) [Decidable p] : Byte := if p then 1 else 0

/-- The first bit that counts (ds18b20.c:231-239): `==` binds tighter than `&`. -/
def firstBit (config : Byte) : ℕ :=
  if config &&& truth (3 <<< 5 = 0) ≠ 0 then 3
  else if config &&& truth (3 <<< 5 = 1 <<< 5) ≠ 0 then 2
  else if config &&& truth (3 <<< 5 = 2 <<< 5) ≠ 0 then 1
  else 0

/-- The loops that add up the weights of the bits `is` of a byte (ds18b20.c:241-251); bit `i`
    has the weight `val[shift + i]`. -/
def addBits (byte : Byte) (shift : ℕ) (is : List ℕ) (sum : ℚ) : ℚ :=
  is.foldl (fun sum i =>
    if byte &&& (1 <<< i) ≠ 0 then sum + weights.getD (shift + i) 0 else sum) sum

/-- What `ds18b20_read_temperature` computes from `ram` (ds18b20.c:230-256). -/
def decode (ram : List Byte) : ℚ :=
  let i := firstBit (ram.getD 4 0)
  let sum := addBits (ram.getD 0 0) 0 (List.range' i (8 - i)) 0
  let sum := addBits (ram.getD 1 0) 8 (List.range 3) sum
  if ram.getD 1 0 &&& (1 <<< 3) ≠ 0 then 0 - sum else sum

/-- `ds18b20_read_temperature` (ds18b20.c:212-258): the return value and `*temp`. -/
def ds18b20ReadTemperature (temp : ℚ) : WireProg (ℤ × ℚ) := do
  let err ← ds18b20StartConvert
  if err ≠ 0 then pure (err, temp)
  else do
    match ← ds18b20ReadRam with
    | none => pure (-1, temp)
    | some ram => pure (0, decode ram)

/-! ## What a sensor delivers -/

section Delivery

variable {σ : Type} (sensor : Sensor σ)

/-- The answers to the next `n` reads. -/
def reads : ℕ → σ → List Bool × σ
  | 0, s => ([], s)
  | n + 1, s =>
    let r := sensor .read s
    let rest := reads n r.2
    (r.1 :: rest.1, rest.2)

/-- The bits of a byte in the order in which they are sent. -/
def lsbFirst (b : Byte) : List Bool := (List.range 8).map b.getLsbD

/-- The conversion succeeds, the sensor is present, and it answers the 72 reads after the
    command with the bits of the nine bytes. -/
def Delivers (s : σ) (ram : List Byte) : Prop :=
  (ds18b20StartConvert.run sensor s).1 = 0 ∧
    let s := (ds18b20StartConvert.run sensor s).2
    (ds18b20Initialization.run sensor s).1 = false ∧
      let s := (ds18b20Initialization.run sensor s).2
      let s := ((ds18b20WriteByte skipRom).run sensor s).2
      let s := ((ds18b20WriteByte readScratchpad).run sensor s).2
      ram.length = 9 ∧ (reads sensor (8 * 9) s).1 = ram.flatMap lsbFirst

theorem length_reads (n : ℕ) (s : σ) : (reads sensor n s).1.length = n := by
  induction n generalizing s with
  | zero => rfl
  | succ n ih => exact congrArg (· + 1) (ih _)

theorem reads_add (m n : ℕ) (s : σ) :
    (reads sensor (m + n) s).1 =
      (reads sensor m s).1 ++ (reads sensor n (reads sensor m s).2).1 := by
  induction m generalizing s with
  | zero => rw [Nat.zero_add]; rfl
  | succ m ih =>
    rw [Nat.succ_add]
    exact congrArg (_ :: ·) (ih _)

/-- The bits that arrive are put together in the order of `is`. -/
theorem readBits_run {b : Byte} (is : List ℕ) (data : Byte) (s : σ)
    (h : (reads sensor is.length s).1 = is.map b.getLsbD) :
    (readBits is data).run sensor s =
      (is.foldl (fun (data : Byte) i => if b.getLsbD i then data ||| (1 <<< i) else data) data,
        (reads sensor is.length s).2) := by
  induction is generalizing data s with
  | nil => rfl
  | cons i is ih =>
    obtain ⟨hbit, hrest⟩ := List.cons.inj h
    rw [readBits, Prog.run_bind, ds18b20ReadBit, Prog.run_request, ih _ _ hrest, hbit]
    rfl

theorem orBits_eq (b : Byte) : (List.range 8).foldl
    (fun (data : Byte) i => if b.getLsbD i then data ||| (1 <<< i) else data) 0 = b := by
  revert b
  decide +kernel

theorem readByte_run {b : Byte} {s : σ} (h : (reads sensor 8 s).1 = lsbFirst b) :
    ds18b20ReadByte.run sensor s = (b, (reads sensor 8 s).2) := by
  have hrun := readBits_run sensor (List.range 8) 0 s h
  rwa [orBits_eq] at hrun

theorem readBytes_run (ram : List Byte) (s : σ)
    (h : (reads sensor (8 * ram.length) s).1 = ram.flatMap lsbFirst) :
    ((readBytes ram.length).run sensor s).1 = ram := by
  induction ram generalizing s with
  | nil => rfl
  | cons b ram ih =>
    rw [List.length_cons, Nat.mul_succ, Nat.add_comm, reads_add, List.flatMap_cons] at h
    obtain ⟨hbyte, hrest⟩ := List.append_inj h (by rw [length_reads]; rfl)
    rw [List.length_cons, readBytes, Prog.run_bind, readByte_run sensor hbyte, Prog.run_bind,
      Prog.run_pure, ih _ hrest]

theorem readTemperature_of_delivers {sensor : Sensor σ} {s : σ} {ram : List Byte}
    (h : Delivers sensor s ram) (temp : ℚ) :
    ((ds18b20ReadTemperature temp).run sensor s).1 = (0, decode ram) := by
  obtain ⟨hconvert, hpresent, hlength, hreads⟩ := h
  have hram := readBytes_run sensor ram _ (by rw [hlength]; exact hreads)
  rw [hlength] at hram
  simp only [ds18b20ReadTemperature, Prog.run_bind, hconvert, ne_eq, not_true_eq_false, if_false,
    ds18b20ReadRam, hpresent, Bool.false_eq_true, Prog.run_pure, hram]

end Delivery

/-! ## What is decoded -/

theorem firstBit_eq (config : Byte) : firstBit config = 0 := by
  revert config
  decide

theorem weights_getD {i : ℕ} (hi : i < 11) : weights.getD i 0 = 2 ^ i / 16 := by
  interval_cases i <;> norm_num [weights]

theorem and_mask_ne_zero_iff (b : Byte) {i : ℕ} (hi : i < 8) :
    b &&& (1 <<< i) ≠ 0 ↔ b.getLsbD i = true := by
  have hmask : ((1 <<< i : ℕ) : Byte) = 1#8 <<< i := by interval_cases i <;> rfl
  rw [hmask]
  exact and_bit_ne_zero_iff b hi

/-- A loop over the bits below `n` adds the number that they are, in units of `val[shift]`. -/
theorem addBits_range (b : Byte) {shift n : ℕ} (hn : n ≤ 8) (hshift : shift + n ≤ 11) (sum : ℚ) :
    addBits b shift (List.range n) sum = sum + ((b.toNat % 2 ^ n : ℕ) : ℚ) * 2 ^ shift / 16 := by
  induction n with
  | zero => simp [addBits, Nat.mod_one]
  | succ n ih =>
    have hsum := ih (by omega) (by omega)
    unfold addBits at hsum ⊢
    rw [List.range_succ, List.foldl_append, hsum, List.foldl_cons, List.foldl_nil,
      weights_getD (by omega), Nat.mod_pow_succ, ← Nat.toNat_testBit]
    simp only [and_mask_ne_zero_iff b (show n < 8 by omega)]
    rw [BitVec.getLsbD]
    cases b.toNat.testBit n with
    | false => simp
    | true =>
      simp only [if_true, Bool.toNat_true]
      push_cast
      ring

/-- The eleven bits below the sign. -/
def magnitude (ram : List Byte) : ℕ := (ram.getD 0 0).toNat + 256 * ((ram.getD 1 0).toNat % 8)

theorem decode_eq (ram : List Byte) :
    decode ram = (if (ram.getD 1 0).getLsbD 3 then -magnitude ram else magnitude ram : ℤ) / 16 := by
  have hsum : 0 + (((ram.getD 0 0).toNat % 2 ^ 8 : ℕ) : ℚ) * 2 ^ 0 / 16 +
      (((ram.getD 1 0).toNat % 2 ^ 3 : ℕ) : ℚ) * 2 ^ 8 / 16 = (magnitude ram : ℚ) / 16 := by
    rw [Nat.mod_eq_of_lt (ram.getD 0 0).isLt, magnitude]
    push_cast
    ring
  simp only [decode, firstBit_eq, Nat.sub_zero, ← List.range_eq_range',
    addBits_range _ (le_refl 8) (by decide : 0 + 8 ≤ 11),
    addBits_range _ (by decide : 3 ≤ 8) (le_refl (8 + 3)), hsum,
    and_mask_ne_zero_iff _ (by decide : 3 < 8)]
  split_ifs
  · rw [zero_sub, ← neg_div, Int.cast_neg, Int.cast_natCast]
  · rw [Int.cast_natCast]

/-! ## The temperature -/

/-- The temperature register, `ram[1]*256 + ram[0]`. -/
def register (ram : List Byte) : BitVec 16 := ram.getD 1 0 ++ ram.getD 0 0

/-- Bits 11, …, 15 of the register are equal. -/
def SignExtended (ram : List Byte) : Prop :=
  ∀ i < 5, (register ram).getLsbD (11 + i) = (register ram).getLsbD 11

instance (ram : List Byte) : Decidable (SignExtended ram) :=
  inferInstanceAs (Decidable (∀ i < 5, _))

/-- The number of low bits without meaning: 3, 2, 1, 0 for the bits 00, 01, 10, 11 of `ram[4]`. -/
def unusedBits (ram : List Byte) : ℕ := 3 - ((ram.getD 4 0).extractLsb' 5 2).toNat

/-- The register with these bits cleared, as a signed number. -/
def temperature (ram : List Byte) : ℤ :=
  ((register ram >>> unusedBits ram) <<< unusedBits ram).toInt

theorem register_toNat (ram : List Byte) :
    (register ram).toNat = (ram.getD 1 0).toNat * 256 + (ram.getD 0 0).toNat := by
  have hlow := (ram.getD 0 0).isLt
  rw [register, BitVec.toNat_append, ← Nat.shiftLeft_add_eq_or_of_lt hlow, Nat.shiftLeft_eq]

theorem signExtended_iff (ram : List Byte) :
    SignExtended ram ↔ (ram.getD 1 0).toNat / 8 = 0 ∨ (ram.getD 1 0).toNat / 8 = 31 := by
  have hbit : ∀ i < 5, (register ram).getLsbD (11 + i) = (ram.getD 1 0).getLsbD (3 + i) := by
    intro i hi
    rw [register, BitVec.getLsbD_append, if_neg (by omega)]
    congr 1
    omega
  have hbyte : ∀ b : Byte, (∀ i < 5, b.getLsbD (3 + i) = b.getLsbD 3) ↔
      b.toNat / 8 = 0 ∨ b.toNat / 8 = 31 := by
    decide +kernel
  rw [← hbyte, SignExtended]
  refine forall₂_congr fun i hi => ?_
  rw [hbit i hi, hbit 0 (by decide)]

theorem toNat_clear (r : BitVec 16) (k : ℕ) :
    ((r >>> k) <<< k).toNat = r.toNat - r.toNat % 2 ^ k := by
  have hle : r.toNat / 2 ^ k * 2 ^ k ≤ r.toNat := Nat.div_mul_le_self _ _
  rw [BitVec.toNat_shiftLeft, BitVec.toNat_ushiftRight, Nat.shiftLeft_eq, Nat.shiftRight_eq_div_pow,
    Nat.mod_eq_of_lt (lt_of_le_of_lt hle r.isLt), Nat.mul_comm]
  have := Nat.div_add_mod r.toNat (2 ^ k)
  omega

/-- The temperature, from the magnitude and the sign. -/
theorem temperature_eq {ram : List Byte} (h : SignExtended ram) :
    temperature ram = magnitude ram - (magnitude ram % 2 ^ unusedBits ram : ℕ) -
      if (ram.getD 1 0).getLsbD 3 then 2048 else 0 := by
  have hk : unusedBits ram ≤ 3 := Nat.sub_le _ _
  have hlow := (ram.getD 0 0).isLt
  have hsign : (ram.getD 1 0).getLsbD 3 = true ↔ (ram.getD 1 0).toNat / 8 % 2 = 1 := by
    rw [BitVec.getLsbD, Nat.testBit_eq_decide_div_mod_eq, decide_eq_true_eq]
  rw [signExtended_iff] at h
  rw [temperature, BitVec.toInt_eq_toNat_cond, toNat_clear, register_toNat]
  simp only [hsign, magnitude]
  generalize (ram.getD 1 0).toNat = high at *
  generalize (ram.getD 0 0).toNat = low at *
  generalize unusedBits ram = k at *
  -- the mask is a power of two that divides 256, so it only meets the low byte
  interval_cases k <;> rcases h with h | h <;> split_ifs <;> omega

/-- The number that is decoded is the temperature iff no bit without meaning is set, and the
    temperature is not negative or is -64 degrees, which is its own magnitude. -/
theorem decode_eq_temperature_iff {ram : List Byte} (h : SignExtended ram) :
    decode ram = temperature ram / 16 ↔
      magnitude ram % 2 ^ unusedBits ram = 0 ∧ (0 ≤ temperature ram ∨ temperature ram = -1024) := by
  have hk : unusedBits ram ≤ 3 := Nat.sub_le _ _
  have hlt : magnitude ram < 2048 := by
    have hlow := (ram.getD 0 0).isLt
    unfold magnitude
    omega
  rw [decode_eq, div_left_inj' (by norm_num), Int.cast_inj, temperature_eq h]
  generalize magnitude ram = m at *
  generalize unusedBits ram = k at *
  interval_cases k <;> split_ifs <;> omega

/-- For every sensor and every nine bytes that it delivers, `ds18b20_read_temperature` stores
    the temperature iff no bit without meaning is set in the register and the temperature is
    not negative, or is -64 degrees. -/
theorem readTemperature_iff {σ : Type} (sensor : Sensor σ) (s : σ) (ram : List Byte)
    (hdelivers : Delivers sensor s ram) (hext : SignExtended ram) (temp : ℚ) :
    ((ds18b20ReadTemperature temp).run sensor s).1 = (0, (temperature ram : ℚ) / 16) ↔
      (register ram).toNat % 2 ^ unusedBits ram = 0 ∧
        (0 ≤ temperature ram ∨ temperature ram = -1024) := by
  have hmod : (register ram).toNat % 2 ^ unusedBits ram = magnitude ram % 2 ^ unusedBits ram := by
    have hk : unusedBits ram ≤ 3 := Nat.sub_le _ _
    rw [register_toNat, magnitude]
    generalize unusedBits ram = k at *
    interval_cases k <;> omega
  rw [readTemperature_of_delivers hdelivers, Prod.mk.injEq, hmod]
  simp only [true_and]
  exact decode_eq_temperature_iff hext

/-! ## A sensor -/

/-- A DS18B20: its scratchpad, the number of reads until its conversion is done, the bits that
    it has received since the reset, and the number of bits that it has sent. -/
structure Ds18b20 where
  ram : List Byte
  busy : ℕ
  received : List Bool
  sent : ℕ

/-- It is present, and follows the two commands that the code uses. -/
def ds18b20 : Sensor Ds18b20
  | .reset, t => (false, { t with received := [], sent := 0 })
  | .write bit, t => ((), { t with received := t.received ++ [bit] })
  | .read, t =>
    if t.received = lsbFirst skipRom ++ lsbFirst convertTemperature then
      (t.busy = 0, { t with busy := t.busy - 1 })
    else if t.received = lsbFirst skipRom ++ lsbFirst readScratchpad then
      ((t.ram.flatMap lsbFirst).getD t.sent true, { t with sent := t.sent + 1 })
    else (true, t)

theorem writeBits_run (data : Byte) (is : List ℕ) (t : Ds18b20) :
    ((writeBits data is).run ds18b20 t).2 =
      { t with received := t.received ++ is.map fun i => decide (data &&& (1 <<< i) ≠ 0) } := by
  induction is generalizing t with
  | nil =>
    rw [List.map_nil, List.append_nil]
    rfl
  | cons i is ih =>
    rw [writeBits, Prog.run_bind, ds18b20WriteBit, Prog.run_request, ih]
    simp [ds18b20]

theorem writeByte_run (b : Byte) (t : Ds18b20) :
    ((ds18b20WriteByte b).run ds18b20 t).2 = { t with received := t.received ++ lsbFirst b } := by
  have hbits : (List.range 8).map (fun i => decide (b &&& (1 <<< i) ≠ 0)) = lsbFirst b := by
    apply List.map_congr_left
    intro i hi
    simp only [and_mask_ne_zero_iff b (List.mem_range.mp hi), Bool.decide_eq_true]
  rw [ds18b20WriteByte, writeBits_run, hbits]

theorem waitWhenProcessing_run {timeoutUs : ℕ} {t : Ds18b20}
    (hreceived : t.received = lsbFirst skipRom ++ lsbFirst convertTemperature)
    (hbusy : t.busy < timeoutUs) :
    (ds18b20WaitWhenProcessing timeoutUs).run ds18b20 t = (0, { t with busy := 0 }) := by
  induction timeoutUs generalizing t with
  | zero => omega
  | succ timeoutUs ih =>
    rw [ds18b20WaitWhenProcessing, Prog.run_bind, ds18b20ReadBit, Prog.run_request]
    simp only [ds18b20, if_pos hreceived]
    by_cases hzero : t.busy = 0
    · simp [hzero]
    · have hbusy' : t.busy - 1 < timeoutUs := by omega
      simp only [hzero, decide_false, Bool.false_eq_true, if_false]
      exact ih (t := { t with busy := t.busy - 1 }) hreceived hbusy'

theorem initialization_run (t : Ds18b20) :
    ds18b20Initialization.run ds18b20 t = (false, ⟨t.ram, t.busy, [], 0⟩) := rfl

theorem startConvert_run {t : Ds18b20} (hbusy : t.busy < 1000000) :
    ds18b20StartConvert.run ds18b20 t =
      (0, ⟨t.ram, 0, lsbFirst skipRom ++ lsbFirst convertTemperature, 0⟩) := by
  have hwait : (ds18b20WaitWhenProcessing 1000000).run ds18b20
      ⟨t.ram, t.busy, lsbFirst skipRom ++ lsbFirst convertTemperature, 0⟩ =
      (0, ⟨t.ram, 0, lsbFirst skipRom ++ lsbFirst convertTemperature, 0⟩) :=
    waitWhenProcessing_run rfl hbusy
  simp only [ds18b20StartConvert, Prog.run_bind, initialization_run, Bool.false_eq_true, if_false,
    writeByte_run, List.nil_append, hwait, ne_eq, not_true_eq_false, Prog.run_pure]

theorem reads_run {t : Ds18b20} (n : ℕ)
    (hreceived : t.received = lsbFirst skipRom ++ lsbFirst readScratchpad)
    (hn : t.sent + n = (t.ram.flatMap lsbFirst).length) :
    (reads ds18b20 n t).1 = (t.ram.flatMap lsbFirst).drop t.sent := by
  have hother : t.received ≠ lsbFirst skipRom ++ lsbFirst convertTemperature := by
    rw [hreceived]
    decide
  induction n generalizing t with
  | zero => exact (List.drop_eq_nil_of_le (by omega)).symm
  | succ n ih =>
    have hlt : t.sent < (t.ram.flatMap lsbFirst).length := by omega
    have hread : ds18b20 .read t =
        ((t.ram.flatMap lsbFirst)[t.sent], { t with sent := t.sent + 1 }) := by
      simp only [ds18b20, if_neg hother, if_pos hreceived, List.getD_eq_getElem _ _ hlt]
    rw [reads, hread, List.drop_eq_getElem_cons hlt]
    have hn' : t.sent + 1 + n = (t.ram.flatMap lsbFirst).length := by omega
    exact congrArg (_ :: ·) (ih (t := { t with sent := t.sent + 1 }) hreceived hn' hother)

/-- It delivers its scratchpad. -/
theorem ds18b20_delivers {ram : List Byte} (hram : ram.length = 9) {busy : ℕ}
    (hbusy : busy < 1000000) : Delivers ds18b20 ⟨ram, busy, [], 0⟩ ram := by
  have hlength : (ram.flatMap lsbFirst).length = 8 * 9 := by
    rw [List.length_flatMap, ← hram]
    simp [lsbFirst, Nat.mul_comm]
  rw [Delivers, startConvert_run hbusy]
  refine ⟨rfl, rfl, hram, ?_⟩
  simp only [initialization_run, writeByte_run, List.nil_append]
  exact reads_run (8 * 9) rfl hlength.symm

/-- 25.0625 degrees at 12 bits. -/
def roomTemperature : List Byte := [0x91, 0x01, 0x4b, 0x46, 0x7f, 0xff, 0x0f, 0x10, 0x25]

theorem readTemperature_room :
    Delivers ds18b20 ⟨roomTemperature, 700000, [], 0⟩ roomTemperature ∧
      SignExtended roomTemperature ∧ temperature roomTemperature = 401 ∧
      ((ds18b20ReadTemperature 0).run ds18b20 ⟨roomTemperature, 700000, [], 0⟩).1 =
        (0, (temperature roomTemperature : ℚ) / 16) := by
  have hdelivers : Delivers ds18b20 ⟨roomTemperature, 700000, [], 0⟩ roomTemperature :=
    ds18b20_delivers rfl (by decide)
  have hext : SignExtended roomTemperature := by decide
  exact ⟨hdelivers, hext, by decide,
    (readTemperature_iff ds18b20 _ _ hdelivers hext 0).mpr (by decide)⟩

/-- -0.0625 degrees at 12 bits. -/
def justBelowZero : List Byte := [0xff, 0xff, 0x4b, 0x46, 0x7f, 0xff, 0x0f, 0x10, 0x25]

/-- It is stored as -127.9375 degrees. -/
theorem readTemperature_below_zero :
    Delivers ds18b20 ⟨justBelowZero, 0, [], 0⟩ justBelowZero ∧ SignExtended justBelowZero ∧
      temperature justBelowZero = -1 ∧
      ((ds18b20ReadTemperature 0).run ds18b20 ⟨justBelowZero, 0, [], 0⟩).1 = (0, -2047 / 16) := by
  have hdelivers : Delivers ds18b20 ⟨justBelowZero, 0, [], 0⟩ justBelowZero :=
    ds18b20_delivers rfl (by decide)
  refine ⟨hdelivers, by decide, by decide, ?_⟩
  have hmagnitude : magnitude justBelowZero = 2047 := by decide
  have hsign : (justBelowZero.getD 1 0).getLsbD 3 = true := by decide
  rw [readTemperature_of_delivers hdelivers, decode_eq, hmagnitude, if_pos hsign]
  norm_num

end Jz2440.Sensors
