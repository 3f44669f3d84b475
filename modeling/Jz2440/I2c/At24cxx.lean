import Jz2440.Boot.Tags
import Jz2440.Eeprom.Store
import Jz2440.I2c.Transmit

/-!
# Writing a string to the EEPROM

Model of `at24cxx_write` (i2c/at24cxx.c) and `do_write_at24cxx` (i2c/i2c_test.c) in
`hard_driver/first_hard/022_i2c_019/005th_i2c_ok_019_007`, over the interrupt-driven
controller.

Each byte is a message of its own: the word address, which is `addr` cut to a byte,
and the byte. On the bus is an AT24C02 of 256 bytes, the device of `Eeprom/Store.lean`,
which takes the bytes that are written to `IICDS` after its address, if it has
acknowledged it.

* `at24cxxWrite_stores`: what a call stores, whichever messages are acknowledged.
* `keepsBelow_iff`: no cell below the start address is touched, and each cell that is
  changed ends with its byte of the string, iff the string fits into `str[100]` and behind
  the address.
-/

namespace Jz2440.I2c

open Jz2440.Common
open Jz2440.Boot (CString)
open Jz2440.Eeprom (At24c02 at24c02 Device)

/-! ## The code -/

/-- The interrupts of one message of two bytes. -/
structure Answer where
  ack : BusIrq
  first : BusIrq
  second : BusIrq

/-- The message of one byte (at24cxx.c:16-25), and its interrupts. -/
def byteExchange (addr : Word) (data : Byte) (answer : Answer) : Exchange where
  msg := ⟨0x50, 0, 2, -1, 0, fun i => if i = 0 then addr.setWidth 8 else data⟩
  ack := answer.ack
  data := [answer.first, answer.second]
  len_nonneg := Int.natCast_nonneg 2
  enough := le_refl 2

/-- `i2c_transfer` (i2c_controller.c:41-44), with the only controller there is. -/
def i2cTransfer (iiccon : Word) (exs : List Exchange) : Option (ℤ × List (Exchange × I2cState)) :=
  s3c2440MasterXfer iiccon exs

/-- `at24cxx_write` (at24cxx.c:6-34): the return value and the messages that were started. -/
def at24cxxWrite : Word → Word → List Byte → List Answer →
    Option (ℤ × List (Exchange × I2cState))
  | _, _, [], _ => some (0, [])
  | _, _, _ :: _, [] => none
  | iiccon, addr, d :: data, answer :: answers =>
    (i2cTransfer iiccon [byteExchange addr d answer]).bind fun r =>
      if r.1 ≠ 0 then some r
      else
        let iiccon := (r.2.getLast?.map fun run => run.2.iiccon).getD iiccon
        (at24cxxWrite iiccon (addr + 1) data answers).map fun r' => (r'.1, r.2 ++ r'.2)

/-- The size of the array `str` (i2c_test.c:5). -/
def strSize : ℕ := 100

/-- `do_write_at24cxx` (i2c_test.c:2-24) with the address and the string that are entered:
    the messages of the `at24cxx_write` that it performs. `gets` does not know the size of
    `str`; what happens if the string and its NUL go past the end is not defined. -/
def doWriteAt24cxx (iiccon addr : Word) (str : CString) (answers : List Answer) :
    Option (List (Exchange × I2cState)) :=
  if addr.toNat > 256 then some []
  -- in sdram.dis `addr` lies right behind `str`
  else if strSize < str.bytes.length + 1 then none
  else (at24cxxWrite iiccon addr (str.bytes ++ [0]) answers).map Prod.snd

/-! ## The EEPROM -/

/-- The bytes after the address byte among some register writes. -/
def dataBytes (writes : List RegWrite) : List Byte :=
  (writes.filterMap fun
    | .iicds v => some (v.setWidth 8)
    | _ => none).tail

/-- The EEPROM during a message. -/
def eepromTakes (t : At24c02) (run : Exchange × I2cState) : At24c02 :=
  if run.1.ack.noAck then t
  else at24c02.stop (at24c02.take (dataBytes run.2.writes) (at24c02.start false t))

/-- The cells after bytes were written to `addr`, `addr + 1`, … cut to a byte. -/
def storeCells (mem : Byte → Byte) : Word → List Byte → Byte → Byte
  | _, [] => mem
  | addr, d :: data => storeCells (Function.update mem (addr.setWidth 8) d) (addr + 1) data

theorem dataBytes_busWrites (writes : List RegWrite) :
    dataBytes (busWrites writes) = dataBytes writes := by
  unfold dataBytes busWrites
  rw [List.filterMap_filter]
  congr 2
  funext w
  cases w <;> simp [RegWrite.onBus]

/-- One message of two bytes. -/
theorem i2cTransfer_byte (iiccon addr : Word) (d : Byte) (answer : Answer) :
    ∃ s, i2cTransfer iiccon [byteExchange addr d answer] =
        some (if answer.ack.noAck then -1 else 0, [(byteExchange addr d answer, s)]) ∧
      (¬ answer.ack.noAck → dataBytes s.writes = [addr.setWidth 8, d]) := by
  by_cases hno : answer.ack.noAck
  · obtain ⟨s, htx, -, -⟩ := doMasterTx_noAck (byteExchange addr d answer).msg rfl
      (byteExchange addr d answer).len_nonneg iiccon [] hno [answer.first, answer.second]
    have hmaster : doMaster iiccon (byteExchange addr d answer) =
        some (-1, s, [answer.first, answer.second]) := htx
    refine ⟨s, ?_, fun hack => absurd hno hack⟩
    rw [i2cTransfer, s3c2440MasterXfer, hmaster, if_pos hno]
    rfl
  · obtain ⟨s, htx, hsent, -⟩ := doMasterTx_ack (byteExchange addr d answer).msg rfl iiccon [] hno
      (show (([answer.first, answer.second].length : ℕ) : ℤ) = 2 from rfl) []
    have hmaster : doMaster iiccon (byteExchange addr d answer) = some (0, s, []) := htx
    refine ⟨s, ?_, fun _ => ?_⟩
    · rw [i2cTransfer, s3c2440MasterXfer, hmaster, if_neg hno]
      rfl
    · rw [← dataBytes_busWrites, hsent]
      simp [dataBytes, busWrites, sentBytes, byteExchange, List.range_succ]

/-- A message stores its byte, if the EEPROM acknowledges its address. -/
theorem eepromTakes_byte {addr : Word} {d : Byte} {answer : Answer} (hack : ¬ answer.ack.noAck)
    {s : I2cState} (hbytes : dataBytes s.writes = [addr.setWidth 8, d]) (t : At24c02) :
    (eepromTakes t (byteExchange addr d answer, s)).mem =
      Function.update t.mem (addr.setWidth 8) d := by
  have hack' : ¬ (byteExchange addr d answer).ack.noAck := hack
  rw [eepromTakes, if_neg hack', hbytes]
  rfl

/-- A call stores the bytes up to the first message that is not acknowledged. -/
theorem at24cxxWrite_stores (data : List Byte) (iiccon addr : Word) (answers : List Answer)
    (henough : data.length ≤ answers.length) (t : At24c02) :
    ∃ ret runs n, at24cxxWrite iiccon addr data answers = some (ret, runs) ∧
      n ≤ data.length ∧ ((∀ answer ∈ answers, ¬ answer.ack.noAck) → n = data.length) ∧
      (runs.foldl eepromTakes t).mem = storeCells t.mem addr (data.take n) := by
  induction data generalizing iiccon addr answers t with
  | nil => exact ⟨0, [], 0, by simp [at24cxxWrite], le_rfl, fun _ => rfl, rfl⟩
  | cons d data ih =>
    cases answers with
    | nil => simp at henough
    | cons answer answers =>
      obtain ⟨s, htransfer, hbytes⟩ := i2cTransfer_byte iiccon addr d answer
      by_cases hno : answer.ack.noAck
      · rw [if_pos hno] at htransfer
        refine ⟨-1, [(byteExchange addr d answer, s)], 0, ?_, Nat.zero_le _, ?_, ?_⟩
        · rw [at24cxxWrite, htransfer]
          rfl
        · exact fun hall => absurd hno (hall answer List.mem_cons_self)
        · have hno' : (byteExchange addr d answer).ack.noAck := hno
          rw [List.foldl_cons, List.foldl_nil, eepromTakes, if_pos hno']
          rfl
      · rw [if_neg hno] at htransfer
        obtain ⟨ret, runs, n, hwrite, hn, hall, hmem⟩ := ih s.iiccon (addr + 1) answers
          (by simpa using henough) (eepromTakes t (byteExchange addr d answer, s))
        refine ⟨ret, (byteExchange addr d answer, s) :: runs, n + 1, ?_, by simpa using hn, ?_, ?_⟩
        · rw [at24cxxWrite, htransfer, Option.bind_some, if_neg (not_not.mpr rfl)]
          simp only [List.getLast?_singleton, Option.map_some, Option.getD_some, hwrite]
          rfl
        · intro hack
          rw [hall fun answer h => hack answer (List.mem_cons_of_mem _ h), List.length_cons]
        · rw [List.foldl_cons, hmem, eepromTakes_byte hno (hbytes hno), List.take_succ_cons]
          rfl

/-! ## Where the cells are -/

/-- Bytes that do not go past the last cell. -/
theorem storeCells_inRange (data : List Byte) (addr : Word) (mem : Byte → Byte)
    (hend : addr.toNat + data.length ≤ 256) (c : Byte) :
    storeCells mem addr data c =
      if addr.toNat ≤ c.toNat ∧ c.toNat < addr.toNat + data.length then
        data.getD (c.toNat - addr.toNat) 0
      else mem c := by
  induction data generalizing addr mem with
  | nil => rw [if_neg (by simp)]; rfl
  | cons d data ih =>
    simp only [List.length_cons] at hend ⊢
    have hnext : (addr + 1).toNat = addr.toNat + 1 := by
      rw [BitVec.toNat_add]
      exact Nat.mod_eq_of_lt (show addr.toNat + 1 < 2 ^ 32 by omega)
    have hcell : (addr.setWidth 8).toNat = addr.toNat := by
      rw [BitVec.toNat_setWidth]
      omega
    rw [storeCells, ih (addr + 1) _ (by omega), hnext]
    by_cases hc : c.toNat = addr.toNat
    · have heq : c = addr.setWidth 8 := BitVec.eq_of_toNat_eq (by omega)
      rw [if_neg (by omega), if_pos (by omega), heq, Function.update_self, hcell, Nat.sub_self]
      rfl
    · have hne : c ≠ addr.setWidth 8 := fun h => hc (by rw [h, hcell])
      by_cases hin : addr.toNat + 1 ≤ c.toNat ∧ c.toNat < addr.toNat + 1 + data.length
      · rw [if_pos hin, if_pos (by omega),
          show c.toNat - addr.toNat = c.toNat - (addr.toNat + 1) + 1 by omega]
        rfl
      · rw [if_neg hin, if_neg (by omega), Function.update_of_ne hne]

/-- The last byte is never overwritten. -/
theorem storeCells_last (data : List Byte) (addr : Word) (mem : Byte → Byte) (d : Byte) :
    storeCells mem addr (data ++ [d]) (BitVec.ofNat 8 (addr.toNat + data.length)) = d := by
  induction data generalizing addr mem with
  | nil =>
    have hcell : BitVec.ofNat 8 (addr.toNat + 0) = addr.setWidth 8 := rfl
    rw [List.nil_append, storeCells, storeCells, List.length_nil, hcell, Function.update_self]
  | cons b data ih =>
    have hnext := ih (addr + 1) (Function.update mem (addr.setWidth 8) b)
    have hcell : BitVec.ofNat 8 ((addr + 1).toNat + data.length) =
        BitVec.ofNat 8 (addr.toNat + (data.length + 1)) := by
      apply BitVec.eq_of_toNat_eq
      rw [BitVec.toNat_ofNat, BitVec.toNat_ofNat, BitVec.toNat_add]
      show ((addr.toNat + 1) % 2 ^ 32 + data.length) % 2 ^ 8 = _
      omega
    rw [hcell] at hnext
    exact hnext

/-! ## The string -/

/-- `do_write_at24cxx` leaves the cells below `addr` as they are, and every cell
    `addr + k` that it changes ends with `str[k]`, whatever the EEPROM held before and
    whichever messages it acknowledges. What is not defined does not count. -/
def KeepsBelow (addr : Word) (str : CString) : Prop :=
  ∀ (iiccon : Word) (t : At24c02) (answers : List Answer),
    str.bytes.length + 1 ≤ answers.length →
      ∃ runs, doWriteAt24cxx iiccon addr str answers = some runs ∧
        (∀ c : Byte, c.toNat < addr.toNat → (runs.foldl eepromTakes t).mem c = t.mem c) ∧
        ∀ k (c : Byte), c.toNat = addr.toNat + k →
          (runs.foldl eepromTakes t).mem c ≠ t.mem c →
            (runs.foldl eepromTakes t).mem c = str.get k

theorem getD_take_append (str : CString) {k n : ℕ} (hk : k < n) :
    ((str.bytes ++ [0]).take n).getD k 0 = str.get k := by
  rw [CString.get, List.getD_eq_getElem?_getD, List.getElem?_take_of_lt hk,
    List.getD_eq_getElem?_getD]
  rcases Nat.lt_or_ge k str.bytes.length with hlt | hge
  · rw [List.getElem?_append_left hlt]
  · rw [List.getElem?_append_right hge, List.getElem?_eq_none hge]
    cases k - str.bytes.length <;> rfl

theorem keepsBelow_of_fits {addr : Word} {str : CString} (hsize : str.bytes.length ≤ 99)
    (hfits : addr.toNat + str.bytes.length + 1 ≤ 256) : KeepsBelow addr str := by
  have hstr : ¬ strSize < str.bytes.length + 1 := by
    unfold strSize
    omega
  intro iiccon t answers henough
  obtain ⟨ret, runs, n, hwrite, hn, -, hmem⟩ :=
    at24cxxWrite_stores (str.bytes ++ [0]) iiccon addr answers (by simpa using henough) t
  have hlength : ((str.bytes ++ [0]).take n).length = n := by
    rw [List.length_take]
    omega
  have hcell := storeCells_inRange ((str.bytes ++ [0]).take n) addr t.mem
    (by simp only [List.length_append, List.length_singleton] at hn; omega)
  refine ⟨runs, ?_, fun c hc => ?_, fun k c hc hchanged => ?_⟩
  · rw [doWriteAt24cxx, if_neg (by omega), if_neg hstr, hwrite]
    rfl
  · rw [hmem, hcell, if_neg (by omega)]
  · rw [hmem, hcell] at hchanged ⊢
    by_cases hin : addr.toNat ≤ c.toNat ∧ c.toNat < addr.toNat + ((str.bytes ++ [0]).take n).length
    · rw [if_pos hin, hc, Nat.add_sub_cancel_left]
      exact getD_take_append str (by omega)
    · rw [if_neg hin] at hchanged
      exact absurd rfl hchanged

/-- An EEPROM that acknowledges everything. -/
def acks (n : ℕ) : List Answer := List.replicate n ⟨⟨0, 0⟩, ⟨0, 0⟩, ⟨0, 0⟩⟩

/-- A string that does not fit into `str` leaves it. -/
theorem not_keepsBelow_of_overrun {addr : Word} {str : CString} (haddr : addr.toNat ≤ 256)
    (hlong : 99 < str.bytes.length) : ¬ KeepsBelow addr str := by
  intro hkeeps
  obtain ⟨runs, hrun, -⟩ :=
    hkeeps 0 ⟨fun _ => 1, 0, false⟩ (acks (str.bytes.length + 1)) (by simp [acks])
  have hstr : strSize < str.bytes.length + 1 := by
    unfold strSize
    omega
  rw [doWriteAt24cxx, if_neg (by omega), if_pos hstr] at hrun
  cases hrun

/-- A string that goes past the last cell ends with its NUL in a cell that is below the
    address, or that belongs to another character. -/
theorem not_keepsBelow {addr : Word} {str : CString} (haddr : addr.toNat ≤ 256)
    (hlong : 256 < addr.toNat + str.bytes.length + 1) : ¬ KeepsBelow addr str := by
  intro hkeeps
  obtain ⟨runs, hrun, hbelow, hbytes⟩ :=
    hkeeps 0 ⟨fun _ => 1, 0, false⟩ (acks (str.bytes.length + 1)) (by simp [acks])
  obtain ⟨ret, runs', n, hwrite, -, hall, hmem⟩ := at24cxxWrite_stores (str.bytes ++ [0]) 0 addr
    (acks (str.bytes.length + 1)) (by simp [acks]) ⟨fun _ => 1, 0, false⟩
  obtain rfl : runs' = runs := by
    rw [doWriteAt24cxx, if_neg (by omega)] at hrun
    obtain ⟨-, hrun⟩ := Option.ite_none_left_eq_some.mp hrun
    rw [hwrite] at hrun
    exact Option.some.inj hrun
  have hn : n = (str.bytes ++ [0]).length := by
    refine hall fun answer hanswer => ?_
    rw [List.eq_of_mem_replicate hanswer]
    decide
  rw [hn, List.take_length] at hmem
  have hnul := storeCells_last str.bytes addr (fun _ => 1) 0
  rw [← hmem] at hnul
  set c := BitVec.ofNat 8 (addr.toNat + str.bytes.length) with hc
  have hcell : c.toNat = (addr.toNat + str.bytes.length) % 256 := by
    rw [hc, BitVec.toNat_ofNat]
  have hchanged : (runs'.foldl eepromTakes ⟨fun _ => 1, 0, false⟩).mem c ≠ 1 := by
    rw [hnul]
    decide
  rcases Nat.lt_or_ge c.toNat addr.toNat with hlt | hge
  · exact hchanged (hbelow c hlt)
  · obtain ⟨k, hk⟩ := Nat.exists_eq_add_of_le hge
    have hchar := hbytes k c hk hchanged
    rw [hnul] at hchar
    exact str.get_ne_zero (by omega) hchar.symm

/-- For an address that `do_write_at24cxx` accepts, nothing below it is touched and each cell
    ends with its character iff the string and its NUL fit into `str` and behind the address. -/
theorem keepsBelow_iff (addr : Word) (haddr : addr.toNat ≤ 256) (str : CString) :
    KeepsBelow addr str ↔ str.bytes.length ≤ 99 ∧ addr.toNat + str.bytes.length + 1 ≤ 256 := by
  constructor
  · intro hkeeps
    refine ⟨?_, ?_⟩
    · by_contra hlong
      exact not_keepsBelow_of_overrun haddr (by omega) hkeeps
    · by_contra hlong
      exact not_keepsBelow haddr (by omega) hkeeps
  · rintro ⟨hsize, hfits⟩
    exact keepsBelow_of_fits hsize hfits

/-- The string "hi" in the last three cells. -/
theorem keepsBelow_last_cells :
    (253#32).toNat ≤ 256 ∧ KeepsBelow 253 ⟨[0x68, 0x69], by decide⟩ :=
  ⟨by decide, (keepsBelow_iff 253 (by decide) ⟨[0x68, 0x69], by decide⟩).mpr (by decide)⟩

/-- The empty string at address 256 is written to cell 0. -/
theorem not_keepsBelow_256 : ¬ KeepsBelow 256 ⟨[], by decide⟩ :=
  not_keepsBelow (by decide) (by decide)

end Jz2440.I2c
