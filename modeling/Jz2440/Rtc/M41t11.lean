import Mathlib.Data.List.GetD
import Jz2440.Eeprom.Store

/-!
# The real-time clock

Model of `m41t11.c` in
`hard_driver/first_hard/023_spi_020/05th_spi_i2c_adc_jz2440_spi_controller_020_006`, over
the I2C driver of `Eeprom/Driver.lean`.

On the bus the clock is a register file that is accessed as the EEPROM is: the
first byte that is written after START sets the register address, and the
address counts up with every byte. Between two calls the clock stands still.

The fields of `rtc_time` are `int`; `tm_year` is rebased to the year 2000 in
place, and the result of that assignment is an `int` again.

* `setDatetime_accepts`, `setDatetime_refuses`: which dates are written.
* `getDatetime_setDatetime`: a valid date of the years 2000 to 2099 is read back.
* `acceptsExactly_iff`: for which fields acceptance means that the date is valid and
  can be read back.
* `keepsDate_iff`: for which fields the caller's structure keeps its year.
-/

namespace Jz2440.Rtc

open Jz2440.Common Jz2440.Eeprom

/-! ## The code -/

/-- `struct rtc_time` (m41t11.h:5-14). -/
structure RtcTime where
  tmSec : Word
  tmMin : Word
  tmHour : Word
  tmWday : Word
  tmMday : Word
  tmMon : Word
  tmYear : Word
  deriving DecidableEq

/-- `BCD_TO_BIN` (m41t11.c:20). -/
def bcdToBin (val : Byte) : ℕ := (val &&& 15).toNat + (val >>> 4).toNat * 10

/-- `BIN_TO_BCD` (m41t11.c:21) of an `int`, cut to the `unsigned char` that it is
    assigned to. Division truncates towards zero. -/
def binToBcd (val : Word) : Byte := BitVec.ofInt 8 (val.toInt.tdiv 10 * 16 + val.toInt.tmod 10)

/-- `epoch` (m41t11.c:24). -/
def epoch : Word := 2000#32

/-- `days_in_mo` (m41t11.c:26-27). -/
def daysInMo : List ℕ := [0, 31, 28, 31, 30, 31, 30, 31, 31, 30, 31, 30, 31]

/-- `leap_yr` (m41t11.c:42-43). -/
def leapYr (year : Word) : Bool :=
  (decide (year.toInt.tmod 4 = 0) && decide (year.toInt.tmod 100 ≠ 0)) ||
    decide (year.toInt.tmod 400 = 0)

/-- `struct rtc_registers` (m41t11.c:9-18), as `m41t11_set_datetime` fills it
    (m41t11.c:67-74). -/
def rtcRegisters (dt : RtcTime) : List Byte :=
  [binToBcd dt.tmSec, binToBcd dt.tmMin, binToBcd dt.tmHour, binToBcd dt.tmWday,
    binToBcd dt.tmMday, binToBcd dt.tmMon, binToBcd dt.tmYear, 0]

/-- `addr_and_regs`: the register address 0 and the registers. -/
def addrAndRegs (dt : RtcTime) : List Byte := 0 :: rtcRegisters dt

/-- `m41t11_set_datetime` (m41t11.c:32-79): the return value, `*dt` and the machine. -/
def m41t11SetDatetime (dt : RtcTime) (fuel : ℕ) (m : Machine At24c02) :
    Option (ℤ × RtcTime × Machine At24c02) :=
  if dt.tmMon.toInt < 1 ∨ dt.tmMon.toInt > 12 ∨ dt.tmMday.toInt = 0 then some (-1, dt, m)
  else if dt.tmMday.toInt > daysInMo.getD dt.tmMon.toInt.toNat 0 +
      (if dt.tmMon.toInt = 2 ∧ leapYr dt.tmYear then 1 else 0) then some (-2, dt, m)
  else if dt.tmHour.toInt ≥ 24 ∨ dt.tmMin.toInt ≥ 60 ∨ dt.tmSec.toInt ≥ 60 then some (-3, dt, m)
  else
    let dt := { dt with tmYear := dt.tmYear - epoch }
    if dt.tmYear.toInt > 255 then some (-4, dt, m)
    else
      let dt := if dt.tmYear.toInt ≥ 100 then { dt with tmYear := dt.tmYear - 100#32 } else dt
      (i2cWrite at24c02 0xD0 (fun k => (addrAndRegs dt).getD k.toNat 0) 9 fuel m).map fun m =>
        (0, dt, m)

/-- The fields that `m41t11_get_datetime` makes of the registers (m41t11.c:94-109). -/
def datetimeOf (rtc : ℤ → Byte) : RtcTime where
  tmSec := BitVec.ofNat 32 (bcdToBin (rtc 0 &&& 0x7f))
  tmMin := BitVec.ofNat 32 (bcdToBin (rtc 1 &&& 0x7f))
  tmHour := BitVec.ofNat 32 (bcdToBin (rtc 2 &&& 0x3f))
  tmWday := BitVec.ofNat 32 (bcdToBin (rtc 3 &&& 0x07))
  tmMday := BitVec.ofNat 32 (bcdToBin (rtc 4 &&& 0x3f))
  tmMon := BitVec.ofNat 32 (bcdToBin (rtc 5 &&& 0x1f))
  tmYear := epoch + BitVec.ofNat 32 (bcdToBin (rtc 6 &&& 0xff))

/-- `m41t11_get_datetime` (m41t11.c:84-112): the return value, `*dt` and the machine. -/
def m41t11GetDatetime (fuel : ℕ) (m : Machine At24c02) :
    Option (ℤ × RtcTime × Machine At24c02) :=
  (i2cWrite at24c02 0xD0 (fun _ => 0) 1 fuel m).bind fun m =>
    (i2cRead at24c02 0xD0 (fun _ => 0) 8 fuel m).map fun m => (0, datetimeOf m.i2c.pData, m)

/-! ## The register file -/

theorem add_ofNat_succ (a : Byte) (k : ℕ) :
    a + BitVec.ofNat 8 (k + 1) = a + 1 + BitVec.ofNat 8 k := by
  rw [BitVec.ofNat_add, BitVec.add_comm (BitVec.ofNat 8 k), ← BitVec.add_assoc]
  rfl

theorem write_data {t : At24c02} (hset : t.setsAddress = false) (b : Byte) :
    (at24c02.write b t).mem = Function.update t.mem t.address b ∧
      (at24c02.write b t).address = t.address + 1 ∧ (at24c02.write b t).setsAddress = false := by
  simp [at24c02, hset]

/-- Bytes that are not at the addresses written to stay. -/
theorem take_mem_of_ne (bs : List Byte) {t : At24c02} (hset : t.setsAddress = false) {a : Byte}
    (ha : ∀ k < bs.length, a ≠ t.address + BitVec.ofNat 8 k) :
    (at24c02.take bs t).mem a = t.mem a := by
  induction bs generalizing t with
  | nil => rfl
  | cons b bs ih =>
    obtain ⟨hmem, haddress, hset'⟩ := write_data hset b
    have hfirst : a ≠ t.address := by simpa using ha 0 (by simp)
    show (at24c02.take bs (at24c02.write b t)).mem a = t.mem a
    rw [ih hset', hmem]
    · exact Function.update_of_ne hfirst b t.mem
    · intro k hk
      rw [haddress, ← add_ofNat_succ]
      exact ha (k + 1) (by simpa using hk)

/-- Data bytes go to consecutive addresses. -/
theorem take_mem (bs : List Byte) {t : At24c02} (hset : t.setsAddress = false)
    (hlen : bs.length ≤ 256) {k : ℕ} (hk : k < bs.length) :
    (at24c02.take bs t).mem (t.address + BitVec.ofNat 8 k) = bs[k] := by
  induction bs generalizing t k with
  | nil => exact absurd hk (Nat.not_lt_zero k)
  | cons b bs ih =>
    obtain ⟨hmem, haddress, hset'⟩ := write_data hset b
    simp only [List.length_cons] at hlen hk
    show (at24c02.take bs (at24c02.write b t)).mem _ = _
    cases k with
    | zero =>
      -- the later bytes do not come round to the first address again
      rw [take_mem_of_ne bs hset', hmem]
      · simp
      · intro j hj
        rw [haddress]
        bv_omega
    | succ k =>
      rw [add_ofNat_succ, ← haddress]
      exact ih hset' (by omega) (Nat.lt_of_succ_lt_succ hk)

/-- A read sends consecutive bytes and changes none. -/
theorem send_mem (n : ℕ) (t : At24c02) :
    (at24c02.send n t).2.mem = t.mem ∧ ∀ k (hk : k < (at24c02.send n t).1.length),
      (at24c02.send n t).1[k] = t.mem (t.address + BitVec.ofNat 8 k) := by
  induction n generalizing t with
  | zero => exact ⟨rfl, fun k hk => absurd hk (Nat.not_lt_zero k)⟩
  | succ n ih =>
    obtain ⟨hmem, hsent⟩ := ih { t with address := t.address + 1 }
    refine ⟨hmem, fun k hk => ?_⟩
    cases k with
    | zero => simp [Device.send, at24c02]
    | succ k =>
      rw [add_ofNat_succ]
      exact hsent k (Nat.lt_of_succ_lt_succ hk)

/-- The registers, by the index that the code's structure has them at. -/
def registers (m : Machine At24c02) (k : ℤ) : Byte := m.device.mem (BitVec.ofInt 8 k)

theorem datetimeOf_congr {rtc rtc' : ℤ → Byte} (h : ∀ k < 8, rtc (k : ℕ) = rtc' k) :
    datetimeOf rtc = datetimeOf rtc' := by
  have h0 : rtc 0 = rtc' 0 := h 0 (by decide)
  have h1 : rtc 1 = rtc' 1 := h 1 (by decide)
  have h2 : rtc 2 = rtc' 2 := h 2 (by decide)
  have h3 : rtc 3 = rtc' 3 := h 3 (by decide)
  have h4 : rtc 4 = rtc' 4 := h 4 (by decide)
  have h5 : rtc 5 = rtc' 5 := h 5 (by decide)
  have h6 : rtc 6 = rtc' 6 := h 6 (by decide)
  simp only [datetimeOf, h0, h1, h2, h3, h4, h5, h6]

/-- `m41t11_get_datetime` returns what the registers say and leaves them alone. -/
theorem getDatetime_yields (m : Machine At24c02) :
    ∃ m', Yields (fun fuel => m41t11GetDatetime fuel m) (0, datetimeOf (registers m), m') ∧
      m'.device.mem = m.device.mem := by
  obtain ⟨m₁, hwrite, -, hdevice₁⟩ := i2cWrite_sends at24c02 0xD0 (fun _ => 0) 1 m
  obtain ⟨m₂, hread, -, hdevice₂, hstored, -⟩ :=
    i2cRead_receives at24c02 0xD0 (fun _ => 0) (by decide : 1 ≤ 8) m₁
  obtain ⟨hmem, hsent⟩ := send_mem 8 (at24c02.start true m₁.device)
  have haddress : m₁.device.address = 0 := by rw [hdevice₁]; rfl
  have hmem₁ : m₁.device.mem = m.device.mem := by rw [hdevice₁]; rfl
  have hbyte : ∀ k < 8, m₂.i2c.pData (k : ℕ) = registers m k := by
    intro k hk
    have hlen : k < (at24c02.send 8 (at24c02.start true m₁.device)).1.length := by
      rwa [length_send]
    have := hstored k hlen
    rw [hsent k hlen, zero_add] at this
    rw [this]
    show m₁.device.mem (m₁.device.address + _) = m.device.mem _
    rw [haddress, hmem₁, BitVec.ofInt_natCast]
    exact congrArg _ (BitVec.zero_add _)
  refine ⟨m₂, ?_, ?_⟩
  · rw [← datetimeOf_congr hbyte]
    exact hwrite.bind (hread.map fun m => (0, datetimeOf m.i2c.pData, m))
  · rw [hdevice₂]
    exact hmem.trans hmem₁

/-- The bytes of a buffer that holds a list. -/
theorem bytesFrom_getD (bs : List Byte) (n : ℕ) (hn : bs.length = n) :
    bytesFrom (fun k => bs.getD k.toNat 0) 0 n = bs := by
  subst hn
  refine List.ext_getElem (by simp [bytesFrom]) fun k hk hk' => ?_
  simp [bytesFrom, hk']

/-- The first byte after START is the register address. -/
theorem take_address (b : Byte) (bs : List Byte) (t : At24c02) :
    at24c02.take (b :: bs) (at24c02.start false t) =
      at24c02.take bs { t with address := b, setsAddress := false } :=
  rfl

/-- A write of the register address 0 and of registers. -/
theorem i2cWrite_registers (dt : RtcTime) (m : Machine At24c02) :
    ∃ m', Yields (fun fuel =>
        i2cWrite at24c02 0xD0 (fun k => (addrAndRegs dt).getD k.toNat 0) 9 fuel m) m' ∧
      datetimeOf (registers m') = datetimeOf fun k => (rtcRegisters dt).getD k.toNat 0 := by
  obtain ⟨m', hwrite, -, hdevice⟩ :=
    i2cWrite_sends at24c02 0xD0 (fun k => (addrAndRegs dt).getD k.toNat 0) 9 m
  refine ⟨m', hwrite, datetimeOf_congr fun k hk => ?_⟩
  rw [bytesFrom_getD (addrAndRegs dt) 9 rfl, addrAndRegs, take_address] at hdevice
  have hmem := take_mem (rtcRegisters dt)
    (t := { m.device with address := 0, setsAddress := false }) rfl (by simp [rtcRegisters]) hk
  rw [show (0 : Byte) + BitVec.ofNat 8 k = BitVec.ofNat 8 k from BitVec.zero_add _] at hmem
  rw [registers, hdevice, BitVec.ofInt_natCast, Int.toNat_natCast, List.getD_eq_getElem _ _ hk]
  exact hmem

/-! ## Binary-coded decimals -/

/-- The byte with the two digits of `n`. -/
def bcdByte (n : ℕ) : Byte := BitVec.ofNat 8 (n / 10 * 16 + n % 10)

theorem binToBcd_eq {val : Word} {n : ℕ} (h : val.toInt = n) : binToBcd val = bcdByte n := by
  rw [binToBcd, bcdByte, h, ← BitVec.ofInt_natCast]
  rfl

/-- A field comes back if its mask keeps all bits of its digits. -/
theorem ofNat_bcdToBin (lim : ℕ) {mask : Byte}
    (hmask : ∀ n < lim, bcdToBin (bcdByte n &&& mask) = n) {val : Word} (h : 0 ≤ val.toInt)
    (h' : val.toInt < lim) : BitVec.ofNat 32 (bcdToBin (binToBcd val &&& mask)) = val := by
  obtain ⟨n, hn⟩ := Int.eq_ofNat_of_zero_le h
  rw [binToBcd_eq hn, hmask n (by omega), ← BitVec.ofInt_natCast, ← hn, BitVec.ofInt_toInt]

theorem bcdToBin_le (val : Byte) : bcdToBin val ≤ 165 := by
  have hlow : (val &&& 15).toNat ≤ 15 := by
    rw [BitVec.toNat_and]
    exact Nat.and_le_right
  have hhigh : (val >>> 4).toNat ≤ 15 := by
    rw [BitVec.toNat_ushiftRight, Nat.shiftRight_eq_div_pow]
    omega
  unfold bcdToBin
  omega

/-! ## Dates -/

/-- The leap years of the Gregorian calendar. -/
def IsLeap (year : ℤ) : Prop := (4 ∣ year ∧ ¬ 100 ∣ year) ∨ 400 ∣ year

instance (year : ℤ) : Decidable (IsLeap year) := inferInstanceAs (Decidable (_ ∨ _))

/-- The number of days of a month of the Gregorian calendar. -/
def daysInMonth (year month : ℤ) : ℤ :=
  if month = 2 then if IsLeap year then 29 else 28
  else if month = 4 ∨ month = 6 ∨ month = 9 ∨ month = 11 then 30
  else 31

/-- A valid Gregorian date and time. -/
structure RtcTime.Valid (dt : RtcTime) : Prop where
  month : 1 ≤ dt.tmMon.toInt ∧ dt.tmMon.toInt ≤ 12
  day : 1 ≤ dt.tmMday.toInt ∧ dt.tmMday.toInt ≤ daysInMonth dt.tmYear.toInt dt.tmMon.toInt
  hour : 0 ≤ dt.tmHour.toInt ∧ dt.tmHour.toInt ≤ 23
  minute : 0 ≤ dt.tmMin.toInt ∧ dt.tmMin.toInt ≤ 59
  second : 0 ≤ dt.tmSec.toInt ∧ dt.tmSec.toInt ≤ 59

/-- What the code tests. Only the month has a lower bound, and the year has one where
    `tm_year - 2000` wraps round. -/
structure RtcTime.Passes (dt : RtcTime) : Prop where
  month : 1 ≤ dt.tmMon.toInt ∧ dt.tmMon.toInt ≤ 12
  day : dt.tmMday.toInt ≠ 0 ∧ dt.tmMday.toInt ≤ daysInMonth dt.tmYear.toInt dt.tmMon.toInt
  hour : dt.tmHour.toInt ≤ 23
  minute : dt.tmMin.toInt ≤ 59
  second : dt.tmSec.toInt ≤ 59
  year : -2 ^ 31 + 2000 ≤ dt.tmYear.toInt ∧ dt.tmYear.toInt ≤ 2255

theorem RtcTime.Valid.passes {dt : RtcTime} (h : dt.Valid) (hlow : 2000 ≤ dt.tmYear.toInt)
    (hhigh : dt.tmYear.toInt ≤ 2099) : dt.Passes := by
  obtain ⟨hmonth, hday, hhour, hminute, hsecond⟩ := h
  exact ⟨hmonth, ⟨by omega, hday.2⟩, hhour.2, hminute.2, hsecond.2, by omega, by omega⟩

theorem leapYr_iff (year : Word) : leapYr year = true ↔ IsLeap year.toInt := by
  simp only [leapYr, IsLeap, Int.dvd_iff_tmod_eq_zero, Bool.or_eq_true, Bool.and_eq_true,
    decide_eq_true_eq]

/-- The table and the leap day of the code give the days of the month. -/
theorem daysInMo_eq (year : Word) {month : ℤ} (h : 1 ≤ month) (h' : month ≤ 12) :
    (daysInMo.getD month.toNat 0 : ℤ) + (if month = 2 ∧ leapYr year then 1 else 0) =
      daysInMonth year.toInt month := by
  simp only [leapYr_iff]
  unfold daysInMonth
  by_cases hleap : IsLeap year.toInt
  · interval_cases month <;> simp [hleap, daysInMo]
  · interval_cases month <;> simp [hleap, daysInMo]

/-! ## Setting the date -/

/-- The assignment `dt->tm_year -= epoch`. It wraps for the lowest years. -/
theorem toInt_sub_epoch (year : Word) :
    (year - epoch).toInt =
      if -2 ^ 31 + 2000 ≤ year.toInt then year.toInt - 2000 else year.toInt - 2000 + 2 ^ 32 := by
  have hlow : -2 ^ 31 ≤ year.toInt := BitVec.le_toInt year
  have hhigh : year.toInt < 2 ^ 31 := BitVec.toInt_lt
  have hepoch : epoch.toInt = 2000 := by decide
  rw [BitVec.toInt_sub, hepoch, Int.bmod_def]
  split_ifs <;> omega

/-- `*dt` as it is written to the clock. -/
def RtcTime.rebased (dt : RtcTime) : RtcTime :=
  let dt := { dt with tmYear := dt.tmYear - epoch }
  if dt.tmYear.toInt ≥ 100 then { dt with tmYear := dt.tmYear - 100#32 } else dt

/-- What the code tests before it comes to the year. -/
structure RtcTime.PassesDate (dt : RtcTime) : Prop where
  month : 1 ≤ dt.tmMon.toInt ∧ dt.tmMon.toInt ≤ 12
  day : dt.tmMday.toInt ≠ 0 ∧ dt.tmMday.toInt ≤ daysInMonth dt.tmYear.toInt dt.tmMon.toInt
  hour : dt.tmHour.toInt ≤ 23
  minute : dt.tmMin.toInt ≤ 59
  second : dt.tmSec.toInt ≤ 59

/-- A date that fails one of these tests is refused, and `*dt` stays as it is. -/
theorem setDatetime_of_not_passesDate {dt : RtcTime} (h : ¬ dt.PassesDate) :
    ∃ ret : ℤ, ret < 0 ∧ ∀ fuel m, m41t11SetDatetime dt fuel m = some (ret, dt, m) := by
  by_cases hmonth : dt.tmMon.toInt < 1 ∨ dt.tmMon.toInt > 12 ∨ dt.tmMday.toInt = 0
  · exact ⟨-1, by decide, fun _ _ => if_pos hmonth⟩
  by_cases hday : dt.tmMday.toInt > daysInMo.getD dt.tmMon.toInt.toNat 0 +
      (if dt.tmMon.toInt = 2 ∧ leapYr dt.tmYear then 1 else 0)
  · exact ⟨-2, by decide, fun _ _ => (if_neg hmonth).trans (if_pos hday)⟩
  by_cases htime : dt.tmHour.toInt ≥ 24 ∨ dt.tmMin.toInt ≥ 60 ∨ dt.tmSec.toInt ≥ 60
  · exact ⟨-3, by decide,
      fun _ _ => (if_neg hmonth).trans ((if_neg hday).trans (if_pos htime))⟩
  -- all of them are passed
  refine absurd ⟨by omega, ⟨by omega, ?_⟩, by omega, by omega, by omega⟩ h
  rw [daysInMo_eq dt.tmYear (by omega) (by omega)] at hday
  omega

/-- Otherwise `tm_year` is rebased, and the result decides. -/
theorem setDatetime_of_passesDate {dt : RtcTime} (h : dt.PassesDate) (fuel : ℕ)
    (m : Machine At24c02) :
    m41t11SetDatetime dt fuel m =
      if (dt.tmYear - epoch).toInt > 255 then
        some (-4, { dt with tmYear := dt.tmYear - epoch }, m)
      else
        (i2cWrite at24c02 0xD0 (fun k => (addrAndRegs dt.rebased).getD k.toNat 0) 9 fuel m).map
          fun m => (0, dt.rebased, m) := by
  obtain ⟨hmonth, hday, hhour, hminute, hsecond⟩ := h
  have hmonth' : ¬ (dt.tmMon.toInt < 1 ∨ dt.tmMon.toInt > 12 ∨ dt.tmMday.toInt = 0) := by omega
  have hday' : ¬ dt.tmMday.toInt > daysInMo.getD dt.tmMon.toInt.toNat 0 +
      (if dt.tmMon.toInt = 2 ∧ leapYr dt.tmYear then 1 else 0) := by
    rw [daysInMo_eq dt.tmYear hmonth.1 hmonth.2]
    omega
  have htime : ¬ (dt.tmHour.toInt ≥ 24 ∨ dt.tmMin.toInt ≥ 60 ∨ dt.tmSec.toInt ≥ 60) := by omega
  rw [m41t11SetDatetime, if_neg hmonth', if_neg hday', if_neg htime]
  rfl

/-- The last test: `tm_year - 2000` is at most 255 and has not wrapped round. -/
theorem passes_iff (dt : RtcTime) :
    dt.Passes ↔ dt.PassesDate ∧ ¬ (dt.tmYear - epoch).toInt > 255 := by
  have hlow : -2 ^ 31 ≤ dt.tmYear.toInt := BitVec.le_toInt dt.tmYear
  have hhigh : dt.tmYear.toInt < 2 ^ 31 := BitVec.toInt_lt
  rw [toInt_sub_epoch]
  constructor
  · rintro ⟨hmonth, hday, hhour, hminute, hsecond, hyear⟩
    refine ⟨⟨hmonth, hday, hhour, hminute, hsecond⟩, ?_⟩
    rw [if_pos hyear.1]
    omega
  · rintro ⟨⟨hmonth, hday, hhour, hminute, hsecond⟩, hyear⟩
    refine ⟨hmonth, hday, hhour, hminute, hsecond, ?_⟩
    split_ifs at hyear
    · omega
    · omega

/-- A date that fails a test is refused, and the bus is not used. -/
theorem setDatetime_refuses {dt : RtcTime} (h : ¬ dt.Passes) (m : Machine At24c02) :
    ∃ ret dt', ret < 0 ∧ Yields (fun fuel => m41t11SetDatetime dt fuel m) (ret, dt', m) := by
  by_cases hdate : dt.PassesDate
  · have hyear : (dt.tmYear - epoch).toInt > 255 := by
      by_contra hyear
      exact h ((passes_iff dt).mpr ⟨hdate, hyear⟩)
    exact ⟨-4, { dt with tmYear := dt.tmYear - epoch }, by decide, 0,
      fun fuel _ => (setDatetime_of_passesDate hdate fuel m).trans (if_pos hyear)⟩
  · obtain ⟨ret, hret, hset⟩ := setDatetime_of_not_passesDate hdate
    exact ⟨ret, dt, hret, 0, fun fuel _ => hset fuel m⟩

/-- A date that passes the tests is written to the clock. -/
theorem setDatetime_accepts {dt : RtcTime} (h : dt.Passes) (m : Machine At24c02) :
    ∃ m', Yields (fun fuel => m41t11SetDatetime dt fuel m) (0, dt.rebased, m') ∧
      datetimeOf (registers m') = datetimeOf fun k => (rtcRegisters dt.rebased).getD k.toNat 0 := by
  obtain ⟨m', hwrite, hregisters⟩ := i2cWrite_registers dt.rebased m
  refine ⟨m', ?_, hregisters⟩
  obtain ⟨hdate, hyear⟩ := (passes_iff dt).mp h
  simp only [setDatetime_of_passesDate hdate, if_neg hyear]
  exact hwrite.map fun m => (0, dt.rebased, m)

/-! ## Reading the date back -/

theorem toInt_tmYear_datetimeOf (rtc : ℤ → Byte) :
    (datetimeOf rtc).tmYear.toInt = 2000 + bcdToBin (rtc 6 &&& 0xff) := by
  have hle := bcdToBin_le (rtc 6 &&& 0xff)
  have hnat : (datetimeOf rtc).tmYear.toNat = 2000 + bcdToBin (rtc 6 &&& 0xff) := by
    simp only [datetimeOf, epoch]
    rw [BitVec.toNat_add, BitVec.toNat_ofNat, BitVec.toNat_ofNat]
    omega
  rw [BitVec.toInt_eq_toNat_of_lt (by omega), hnat]
  push_cast
  rfl

/-- Dates of the years 2000 to 2099 are stored as they are, without the century. -/
theorem rebased_of_century {dt : RtcTime} (h : 2000 ≤ dt.tmYear.toInt)
    (h' : dt.tmYear.toInt ≤ 2099) :
    dt.rebased = { dt with tmYear := dt.tmYear - epoch } ∧
      (dt.tmYear - epoch).toInt = dt.tmYear.toInt - 2000 := by
  have hyear : (dt.tmYear - epoch).toInt = dt.tmYear.toInt - 2000 := by
    rw [toInt_sub_epoch, if_pos (by omega)]
  refine ⟨if_neg ?_, hyear⟩
  show ¬ (dt.tmYear - epoch).toInt ≥ 100
  omega

/-- All fields but the day of the week come back. -/
theorem datetimeOf_rtcRegisters {dt : RtcTime} (hvalid : dt.Valid) (h : 2000 ≤ dt.tmYear.toInt)
    (h' : dt.tmYear.toInt ≤ 2099) :
    datetimeOf (fun k => (rtcRegisters dt.rebased).getD k.toNat 0) =
      { dt with tmWday := BitVec.ofNat 32 (bcdToBin (binToBcd dt.tmWday &&& 0x07)) } := by
  obtain ⟨hmonth, hday, hhour, hminute, hsecond⟩ := hvalid
  obtain ⟨hrebased, hyear⟩ := rebased_of_century h h'
  have hmday : dt.tmMday.toInt < 32 := by
    have : daysInMonth dt.tmYear.toInt dt.tmMon.toInt ≤ 31 := by
      unfold daysInMonth
      split_ifs <;> decide
    omega
  have hback : epoch + BitVec.ofNat 32 (bcdToBin (binToBcd (dt.tmYear - epoch) &&& 0xff)) =
      dt.tmYear := by
    rw [ofNat_bcdToBin 100 (by decide) (by omega) (by omega), BitVec.add_comm,
      BitVec.sub_add_cancel]
  rw [hrebased]
  simp only [datetimeOf, rtcRegisters, RtcTime.mk.injEq]
  refine ⟨?_, ?_, ?_, ?_, ?_, ?_, hback⟩
  · exact ofNat_bcdToBin 60 (by decide) hsecond.1 (by omega)
  · exact ofNat_bcdToBin 60 (by decide) hminute.1 (by omega)
  · exact ofNat_bcdToBin 24 (by decide) hhour.1 (by omega)
  · rfl
  · exact ofNat_bcdToBin 32 (by decide) (by omega) (by omega)
  · exact ofNat_bcdToBin 13 (by decide) (by omega) (by omega)

/-- A year that passes the tests comes back only if it is one of 2000 to 2099: a lower one
    cannot be read, and a higher one is stored as the year a century before it. -/
theorem century_of_read_back {dt : RtcTime} (h : dt.Passes)
    (hback : 2000 + (bcdToBin (binToBcd dt.rebased.tmYear &&& 0xff) : ℤ) = dt.tmYear.toInt) :
    2000 ≤ dt.tmYear.toInt ∧ dt.tmYear.toInt ≤ 2099 := by
  have hyear := h.year
  refine ⟨by omega, ?_⟩
  by_contra hlate
  have hsub : (dt.tmYear - epoch).toInt = dt.tmYear.toInt - 2000 := by
    rw [toInt_sub_epoch, if_pos hyear.1]
  have hrebased : dt.rebased.tmYear = dt.tmYear - epoch - 100#32 := by
    have hge : (dt.tmYear - epoch).toInt ≥ 100 := by omega
    exact congrArg RtcTime.tmYear (if_pos hge)
  have hval : dt.rebased.tmYear.toInt = dt.tmYear.toInt - 2100 := by
    have hhundred : (100#32).toInt = 100 := by decide
    rw [hrebased, BitVec.toInt_sub, hsub, hhundred, Int.bmod_def]
    split_ifs <;> omega
  have hfield : BitVec.ofNat 32 (bcdToBin (binToBcd dt.rebased.tmYear &&& 0xff)) =
      dt.rebased.tmYear :=
    ofNat_bcdToBin 160 (by decide +kernel) (by omega) (by omega)
  have hle := bcdToBin_le (binToBcd dt.rebased.tmYear &&& 0xff)
  rw [← hfield, BitVec.toInt_ofNat', Int.bmod_def] at hval
  split_ifs at hval <;> omega

/-- A valid date of the years 2000 to 2099 is written, and as long as the registers keep their
    values it is read back. -/
theorem getDatetime_setDatetime (dt : RtcTime) (m : Machine At24c02) (hvalid : dt.Valid)
    (hyear : 2000 ≤ dt.tmYear.toInt ∧ dt.tmYear.toInt ≤ 2099)
    (hwday : 0 ≤ dt.tmWday.toInt ∧ dt.tmWday.toInt ≤ 7) :
    ∃ dt' m', Yields (fun fuel => m41t11SetDatetime dt fuel m) (0, dt', m') ∧
      ∀ m₁ : Machine At24c02, m₁.device.mem = m'.device.mem →
        ∃ m₂, Yields (fun fuel => m41t11GetDatetime fuel m₁) (0, dt, m₂) := by
  obtain ⟨m', hset, hregisters⟩ := setDatetime_accepts (hvalid.passes hyear.1 hyear.2) m
  refine ⟨dt.rebased, m', hset, fun m₁ hmem => ?_⟩
  obtain ⟨m₂, hget, -⟩ := getDatetime_yields m₁
  have hwday' : BitVec.ofNat 32 (bcdToBin (binToBcd dt.tmWday &&& 0x07)) = dt.tmWday :=
    ofNat_bcdToBin 8 (by decide) hwday.1 (by omega)
  have hback : datetimeOf (registers m₁) = dt := by
    have hsame : registers m₁ = registers m' := by
      funext k
      rw [registers, registers, hmem]
    rw [hsame, hregisters, datetimeOf_rtcRegisters hvalid hyear.1 hyear.2, hwday']
  rw [hback] at hget
  exact ⟨m₂, hget⟩

/-- 29 February 2024, 23:59:58. -/
def leapDay : RtcTime := ⟨58, 59, 23, 4, 29, 2, 2024⟩

theorem leapDay_valid : leapDay.Valid := by
  constructor <;> decide

theorem getDatetime_setDatetime_leapDay :
    leapDay.Valid ∧ ∃ dt' m', Yields (fun fuel => m41t11SetDatetime leapDay fuel idleBus)
        (0, dt', m') ∧
      ∀ m₁ : Machine At24c02, m₁.device.mem = m'.device.mem →
        ∃ m₂, Yields (fun fuel => m41t11GetDatetime fuel m₁) (0, leapDay, m₂) :=
  ⟨leapDay_valid, getDatetime_setDatetime leapDay idleBus leapDay_valid (by decide) (by decide)⟩

/-! ## What acceptance means -/

/-- The two agree in year, month, day, hour, minute and second. -/
structure RtcTime.SameTime (dt dt' : RtcTime) : Prop where
  year : dt.tmYear = dt'.tmYear
  month : dt.tmMon = dt'.tmMon
  day : dt.tmMday = dt'.tmMday
  hour : dt.tmHour = dt'.tmHour
  minute : dt.tmMin = dt'.tmMin
  second : dt.tmSec = dt'.tmSec

/-- `m41t11_set_datetime` returns 0 iff the date is valid and a following
    `m41t11_get_datetime` reproduces it; otherwise it returns a negative code and does not
    use the bus. -/
def AcceptsExactly (dt : RtcTime) (m : Machine At24c02) : Prop :=
  ∃ ret dt' m' got m'',
    Yields (fun fuel => m41t11SetDatetime dt fuel m) (ret, dt', m') ∧
      Yields (fun fuel => m41t11GetDatetime fuel m') (0, got, m'') ∧
      (ret = 0 ↔ dt.Valid ∧ got.SameTime dt) ∧
      (¬ (dt.Valid ∧ got.SameTime dt) → ret < 0 ∧ m'.wire = m.wire)

theorem acceptsExactly_of_refused {dt : RtcTime} (h : ¬ dt.Passes) (m : Machine At24c02) :
    AcceptsExactly dt m := by
  obtain ⟨ret, dt', hret, hset⟩ := setDatetime_refuses h m
  obtain ⟨m'', hget, -⟩ := getDatetime_yields m
  refine ⟨ret, dt', m, _, m'', hset, hget, ?_, fun _ => ⟨hret, rfl⟩⟩
  refine iff_of_false (by omega) ?_
  -- a valid date is refused only for its year, and such a year is never read
  rintro ⟨hvalid, hsame⟩
  have hyear := toInt_tmYear_datetimeOf (registers m)
  rw [hsame.year] at hyear
  have hle := bcdToBin_le (registers m 6 &&& 0xff)
  obtain ⟨hmonth, hday, hhour, hminute, hsecond⟩ := hvalid
  exact h ⟨hmonth, ⟨by omega, hday.2⟩, hhour.2, hminute.2, hsecond.2, by omega, by omega⟩

theorem acceptsExactly_of_century {dt : RtcTime} (hvalid : dt.Valid) (h : 2000 ≤ dt.tmYear.toInt)
    (h' : dt.tmYear.toInt ≤ 2099) (m : Machine At24c02) : AcceptsExactly dt m := by
  obtain ⟨m', hset, hregisters⟩ := setDatetime_accepts (hvalid.passes h h') m
  obtain ⟨m'', hget, -⟩ := getDatetime_yields m'
  rw [hregisters, datetimeOf_rtcRegisters hvalid h h'] at hget
  have hsame : RtcTime.SameTime
      { dt with tmWday := BitVec.ofNat 32 (bcdToBin (binToBcd dt.tmWday &&& 0x07)) } dt :=
    ⟨rfl, rfl, rfl, rfl, rfl, rfl⟩
  exact ⟨0, dt.rebased, m', _, m'', hset, hget, iff_of_true rfl ⟨hvalid, hsame⟩,
    fun hnot => absurd ⟨hvalid, hsame⟩ hnot⟩

theorem not_acceptsExactly {dt : RtcTime} (h : dt.Passes)
    (hout : ¬ (dt.Valid ∧ 2000 ≤ dt.tmYear.toInt ∧ dt.tmYear.toInt ≤ 2099))
    (m : Machine At24c02) : ¬ AcceptsExactly dt m := by
  rintro ⟨ret, dt', m', got, m'', hset, hget, hiff, -⟩
  obtain ⟨m₁, hset₁, hregisters⟩ := setDatetime_accepts h m
  obtain ⟨rfl, hrest⟩ := Prod.mk.inj (hset.unique hset₁)
  obtain ⟨-, rfl⟩ := Prod.mk.inj hrest
  obtain ⟨m₂, hget₁, -⟩ := getDatetime_yields m'
  obtain ⟨-, hrest⟩ := Prod.mk.inj (hget.unique hget₁)
  obtain ⟨hgot, -⟩ := Prod.mk.inj hrest
  obtain ⟨hvalid, hsame⟩ := hiff.mp rfl
  refine hout ⟨hvalid, century_of_read_back h ?_⟩
  rw [← hsame.year, hgot, hregisters, toInt_tmYear_datetimeOf]
  rfl

/-- Acceptance means exactly this iff the fields fail one of the code's tests, or are a valid
    date of the years 2000 to 2099. -/
theorem acceptsExactly_iff (dt : RtcTime) (m : Machine At24c02) :
    AcceptsExactly dt m ↔
      (dt.Passes → dt.Valid ∧ 2000 ≤ dt.tmYear.toInt ∧ dt.tmYear.toInt ≤ 2099) := by
  constructor
  · intro haccepts hpasses
    by_contra hout
    exact not_acceptsExactly hpasses hout m haccepts
  · intro h
    by_cases hpasses : dt.Passes
    · obtain ⟨hvalid, hlow, hhigh⟩ := h hpasses
      exact acceptsExactly_of_century hvalid hlow hhigh m
    · exact acceptsExactly_of_refused hpasses m

theorem acceptsExactly_leapDay : AcceptsExactly leapDay idleBus :=
  (acceptsExactly_iff leapDay idleBus).mpr fun _ => ⟨leapDay_valid, by decide, by decide⟩

/-- 1 January 1999 is written to the clock as the year 0xff and read back as 2165. -/
theorem not_acceptsExactly_1999 :
    ¬ AcceptsExactly ⟨0, 0, 0, 5, 1, 1, 1999⟩ idleBus := by
  refine not_acceptsExactly ?_ ?_ idleBus
  · constructor <;> decide
  · rintro ⟨-, hyear, -⟩
    exact absurd hyear (by decide)

/-! ## The caller's structure -/

/-- `m41t11_set_datetime` leaves `*dt` as it was, and a second call with the same structure
    returns the same code and sends the same bytes. -/
def KeepsDate (dt : RtcTime) (m : Machine At24c02) : Prop :=
  ∃ ret dt₁ m₁ dt₂ m₂ sent,
    Yields (fun fuel => m41t11SetDatetime dt fuel m) (ret, dt₁, m₁) ∧ dt₁ = dt ∧
      Yields (fun fuel => m41t11SetDatetime dt₁ fuel m₁) (ret, dt₂, m₂) ∧ dt₂ = dt ∧
      m₁.wire = m.wire ++ sent ∧ m₂.wire = m₁.wire ++ sent

/-- Rebasing changes every year. -/
theorem sub_epoch_ne (year : Word) : year - epoch ≠ year := by
  unfold epoch
  bv_omega

theorem rebased_tmYear_ne (dt : RtcTime) : dt.rebased.tmYear ≠ dt.tmYear := by
  unfold RtcTime.rebased
  dsimp only
  split_ifs
  · have : dt.tmYear - epoch - 100#32 ≠ dt.tmYear := by
      unfold epoch
      bv_omega
    exact this
  · exact sub_epoch_ne dt.tmYear

/-- The call leaves the year changed whenever it comes to rebase it, also if it then returns
    an error code. -/
theorem tmYear_ne_of_passesDate {dt dt' : RtcTime} {m m' : Machine At24c02} {ret : ℤ}
    (h : dt.PassesDate) (hset : Yields (fun fuel => m41t11SetDatetime dt fuel m) (ret, dt', m')) :
    dt'.tmYear ≠ dt.tmYear := by
  obtain ⟨n, hn⟩ := hset
  have hlast : m41t11SetDatetime dt n m = some (ret, dt', m') := hn n le_rfl
  rw [setDatetime_of_passesDate h] at hlast
  split_ifs at hlast
  · cases hlast
    exact sub_epoch_ne dt.tmYear
  · obtain ⟨m₁, -, hresult⟩ := Option.map_eq_some_iff.mp hlast
    cases hresult
    exact rebased_tmYear_ne dt

/-- The caller's date is kept iff it is refused before the year is rebased. -/
theorem keepsDate_iff (dt : RtcTime) (m : Machine At24c02) :
    KeepsDate dt m ↔ ¬ dt.PassesDate := by
  constructor
  · rintro ⟨ret, dt₁, m₁, dt₂, m₂, sent, hset, rfl, -⟩ hdate
    exact tmYear_ne_of_passesDate hdate hset rfl
  · intro hdate
    obtain ⟨ret, -, hset⟩ := setDatetime_of_not_passesDate hdate
    exact ⟨ret, dt, m, dt, m, [], ⟨0, fun fuel _ => hset fuel m⟩, rfl,
      ⟨0, fun fuel _ => hset fuel m⟩, rfl, (List.append_nil _).symm, (List.append_nil _).symm⟩

/-- 30 February is refused both times. -/
theorem keepsDate_february30 : KeepsDate ⟨0, 0, 0, 5, 30, 2, 2024⟩ idleBus :=
  (keepsDate_iff _ idleBus).mpr fun hdate => absurd hdate.day.2 (by decide)

/-- The caller of the leap day has the year 24 afterwards. -/
theorem not_keepsDate_leapDay : ¬ KeepsDate leapDay idleBus := by
  have hdate : leapDay.PassesDate := by
    constructor <;> decide
  rintro ⟨ret, dt₁, m₁, dt₂, m₂, sent, hset, hkept, -⟩
  exact tmYear_ne_of_passesDate hdate hset (congrArg RtcTime.tmYear hkept)

end Jz2440.Rtc
