import Jz2440.Common.Bytes
import Jz2440.Common.Loop

/-!
# The I2C driver with one buffer

Model of `i2c.c` in
`hard_driver/first_hard/023_spi_020/05th_spi_i2c_adc_jz2440_spi_controller_020_006`.

`i2c_write` and `i2c_read` set up one structure, start a transfer and wait until
`DataCount` has its last value; `I2CIntHandle` does the work, once for each interrupt of
the bus. The two directions share the structure: a write counts down to -1 and a read
to 0, and a read starts with `Pt = -1` for the interrupt that the address byte raises.

The controller is modelled with the device on the bus:

* A write to `IICSTAT` with bit 5 set sends START and the byte in `IICDS`; bit 6 is the
  direction. With bit 5 clear, STOP follows when the transfer is resumed.
* A write to `IICCON` with bit 4 clear resumes: STOP, or the byte in `IICDS` is sent, or a
  byte comes from the device, acknowledged if bit 7 is set. Every byte raises an interrupt.

`wire` records what goes over the bus. `printf`, `Delay` and the test for a lost
arbitration, which only prints, are left out.

* `i2cWrite_sends`: a write puts the address and the bytes of the buffer on the bus, and
  then STOP.
* `i2cRead_receives`: a read stores the bytes that the device sends and acknowledges all
  but the last.
-/

namespace Jz2440.Eeprom

open Jz2440.Common

/-! ## The bus -/

inductive BusEvent
  | address (b : Byte) (reading : Bool)
  | sent (b : Byte)
  | received (b : Byte) (ack : Bool)
  | stop
  deriving DecidableEq

/-- A device on the bus, with the state `τ`. -/
structure Device (τ : Type) where
  start : Bool → τ → τ
  write : Byte → τ → τ
  read : τ → Byte × τ
  stop : τ → τ

variable {τ : Type} (dev : Device τ)

/-- The device takes these bytes. -/
def Device.take (bs : List Byte) (t : τ) : τ := bs.foldl (fun t b => dev.write b t) t

/-- The next `n` bytes that the device sends, and its state after them. -/
def Device.send : ℕ → τ → List Byte × τ
  | 0, t => ([], t)
  | n + 1, t =>
    let (b, t) := dev.read t
    let (bs, t) := Device.send n t
    (b :: bs, t)

/-! ## The driver and the controller -/

/-- `WRDATA` and `RDDATA`; the structure starts with neither. -/
inductive Mode
  | unset
  | wrdata
  | rddata
  deriving DecidableEq

/-- `struct tI2C` (i2c.c:14-20), with the memory that `pData` points to. -/
structure I2c where
  pData : ℤ → Byte
  dataCount : ℤ
  mode : Mode
  pt : ℤ

/-- The structure of the driver, the registers of the controller, whether it has raised an
    interrupt, the device, and what has gone over the bus. -/
structure Machine (τ : Type) where
  i2c : I2c
  iicds : Byte
  iicstat : Word
  irq : Bool
  device : τ
  wire : List BusEvent

/-- `IICSTAT = v`. -/
def writeIicstat (v : Word) (m : Machine τ) : Machine τ :=
  if v.getLsbD 5 then
    let reading := !v.getLsbD 6
    { m with
      iicstat := v
      irq := true
      device := dev.start reading m.device
      wire := m.wire ++ [.address m.iicds reading] }
  else { m with iicstat := v }

/-- `IICCON = v`. -/
def writeIiccon (v : Word) (m : Machine τ) : Machine τ :=
  if v.getLsbD 4 then m
  else if !m.iicstat.getLsbD 5 then
    { m with device := dev.stop m.device, wire := m.wire ++ [.stop] }
  else if m.iicstat.getLsbD 6 then
    { m with
      irq := true
      device := dev.write m.iicds m.device
      wire := m.wire ++ [.sent m.iicds] }
  else
    let (b, t) := dev.read m.device
    { m with
      iicds := b
      irq := true
      device := t
      wire := m.wire ++ [.received b (v.getLsbD 7)] }

/-- The two places that resume a read: no ACK for the last byte. -/
def resumeRead (m : Machine τ) : Machine τ :=
  writeIiccon dev (if m.i2c.dataCount = 1 then 0x2f else 0xaf) m

/-- `I2CIntHandle` (i2c.c:86-160). -/
def i2cIntHandle (m : Machine τ) : Machine τ :=
  match m.i2c.mode with
  | .wrdata =>
    let dataCount := m.i2c.dataCount
    let m := { m with i2c := { m.i2c with dataCount := dataCount - 1 } }
    if dataCount = 0 then writeIiccon dev 0xaf (writeIicstat dev 0xd0 m)
    else
      let m := { m with
        iicds := m.i2c.pData m.i2c.pt
        i2c := { m.i2c with pt := m.i2c.pt + 1 } }
      writeIiccon dev 0xaf m
  | .rddata =>
    if m.i2c.pt = -1 then
      resumeRead dev { m with i2c := { m.i2c with pt := 0 } }
    else
      let m := { m with
        i2c := { m.i2c with
          pData := Function.update m.i2c.pData m.i2c.pt m.iicds
          pt := m.i2c.pt + 1
          dataCount := m.i2c.dataCount - 1 } }
      if m.i2c.dataCount = 0 then writeIiccon dev 0xaf (writeIicstat dev 0x90 m)
      else resumeRead dev m
  | .unset => m

/-- One pass of `while (g_tS3C24xx_I2C.DataCount != last);`, with the interrupt that comes
    in it if there is one. -/
def waitPass (last : ℤ) (m : Machine τ) : Pass (Machine τ) (Machine τ) :=
  if m.i2c.dataCount = last then .leave m
  else if m.irq then .again (i2cIntHandle dev { m with irq := false })
  else .again m

/-- `i2c_write` (i2c.c:50-62). -/
def i2cWrite (slvAddr : Word) (buf : ℤ → Byte) (len : ℤ) (fuel : ℕ) (m : Machine τ) :
    Option (Machine τ) :=
  let m := { m with i2c := ⟨buf, len, .wrdata, 0⟩, iicds := slvAddr.setWidth 8 }
  loop (waitPass dev (-1)) fuel (writeIicstat dev 0xf0 m)

/-- `i2c_read` (i2c.c:68-80). -/
def i2cRead (slvAddr : Word) (buf : ℤ → Byte) (len : ℤ) (fuel : ℕ) (m : Machine τ) :
    Option (Machine τ) :=
  let m := { m with i2c := ⟨buf, len, .rddata, -1⟩, iicds := slvAddr.setWidth 8 }
  loop (waitPass dev 0) fuel (writeIicstat dev 0xb0 m)

/-! ## Writing -/

/-- `buf[i], …, buf[i + n - 1]`. -/
def bytesFrom (buf : ℤ → Byte) (i : ℤ) (n : ℕ) : List Byte :=
  (List.range n).map fun k : ℕ => buf (i + k)

theorem bytesFrom_succ (buf : ℤ → Byte) (i : ℤ) (n : ℕ) :
    bytesFrom buf i (n + 1) = buf i :: bytesFrom buf (i + 1) n := by
  simp only [bytesFrom, List.range_succ_eq_map, List.map_cons, List.map_map, Nat.cast_zero,
    add_zero]
  congr 1
  apply List.map_congr_left
  intro k _
  show buf (i + (k + 1 : ℕ)) = buf (i + 1 + k)
  congr 1
  push_cast
  ring

/-- The interrupt after the last byte. -/
theorem waitPass_write_last {m : Machine τ} (hmode : m.i2c.mode = .wrdata)
    (hcount : m.i2c.dataCount = 0) (hirq : m.irq = true) :
    waitPass dev (-1) m = .again { m with
      i2c := { m.i2c with dataCount := -1 }
      iicstat := 0xd0
      irq := false
      device := dev.stop m.device
      wire := m.wire ++ [.stop] } := by
  simp [waitPass, i2cIntHandle, hmode, hcount, hirq, writeIicstat, writeIiccon]

/-- An interrupt with `n + 1` bytes left to send. -/
theorem waitPass_write_next {m : Machine τ} {n : ℕ} (hmode : m.i2c.mode = .wrdata)
    (hcount : m.i2c.dataCount = (n + 1 : ℕ)) (hstat : m.iicstat = 0xf0) (hirq : m.irq = true) :
    waitPass dev (-1) m = .again { m with
      i2c := { m.i2c with dataCount := n, pt := m.i2c.pt + 1 }
      iicds := m.i2c.pData m.i2c.pt
      device := dev.write (m.i2c.pData m.i2c.pt) m.device
      wire := m.wire ++ [.sent (m.i2c.pData m.i2c.pt)] } := by
  have hlast : m.i2c.dataCount ≠ -1 := by omega
  have hzero : m.i2c.dataCount ≠ 0 := by omega
  have hnext : m.i2c.dataCount - 1 = n := by omega
  simp [waitPass, i2cIntHandle, hmode, hlast, hzero, hnext, hirq, hstat, writeIiccon]

/-- A write with `n` bytes left to send. -/
theorem write_rest (n : ℕ) {m : Machine τ} (hmode : m.i2c.mode = .wrdata)
    (hcount : m.i2c.dataCount = n) (hstat : m.iicstat = 0xf0) (hirq : m.irq = true) :
    ∃ m', Returns (waitPass dev (-1)) m m' ∧
      m'.wire = m.wire ++ (bytesFrom m.i2c.pData m.i2c.pt n).map .sent ++ [.stop] ∧
      m'.device = dev.stop (dev.take (bytesFrom m.i2c.pData m.i2c.pt n) m.device) := by
  induction n generalizing m with
  | zero =>
    have hpass := waitPass_write_last dev hmode hcount hirq
    exact ⟨_, .of_again hpass (.of_leave (if_pos rfl)), by simp [bytesFrom], rfl⟩
  | succ n ih =>
    have hpass := waitPass_write_next dev hmode hcount hstat hirq
    obtain ⟨m', hreturns, hwire, hdevice⟩ := ih (m := { m with
      i2c := { m.i2c with dataCount := n, pt := m.i2c.pt + 1 }
      iicds := m.i2c.pData m.i2c.pt
      device := dev.write (m.i2c.pData m.i2c.pt) m.device
      wire := m.wire ++ [.sent (m.i2c.pData m.i2c.pt)] }) hmode rfl hstat hirq
    refine ⟨m', .of_again hpass hreturns, ?_, ?_⟩
    · rw [hwire, bytesFrom_succ]
      simp
    · rw [hdevice, bytesFrom_succ]
      rfl

/-- `i2c_write` returns when the address, the bytes of the buffer and STOP have gone over the
    bus, and nothing else. -/
theorem i2cWrite_sends (slvAddr : Word) (buf : ℤ → Byte) (len : ℕ) (m : Machine τ) :
    ∃ m', Yields (fun fuel => i2cWrite dev slvAddr buf len fuel m) m' ∧
      m'.wire = m.wire ++ [.address (slvAddr.setWidth 8) false] ++
        (bytesFrom buf 0 len).map .sent ++ [.stop] ∧
      m'.device = dev.stop (dev.take (bytesFrom buf 0 len) (dev.start false m.device)) :=
  write_rest dev len rfl rfl rfl rfl

/-! ## Reading -/

/-- The bus when these bytes are received: all but the last are acknowledged. -/
def receivedAll : List Byte → List BusEvent
  | [] => []
  | [b] => [.received b false]
  | b :: bs => .received b true :: receivedAll bs

theorem receivedAll_cons (b : Byte) (bs : List Byte) :
    receivedAll (b :: bs) = .received b (bs.length ≠ 0) :: receivedAll bs := by
  cases bs <;> rfl

/-- `p'` is `p` with the bytes `bs` stored from index `i` on. -/
def StoredFrom (p p' : ℤ → Byte) (i : ℤ) (bs : List Byte) : Prop :=
  (∀ k (hk : k < bs.length), p' (i + k) = bs[k]) ∧
    ∀ j, j < i ∨ i + bs.length ≤ j → p' j = p j

theorem StoredFrom.singleton (p : ℤ → Byte) (i : ℤ) (b : Byte) :
    StoredFrom p (Function.update p i b) i [b] := by
  refine ⟨fun k hk => ?_, fun j hj => ?_⟩
  · obtain rfl : k = 0 := Nat.lt_one_iff.mp hk
    simp
  · rw [List.length_singleton] at hj
    have hne : j ≠ i := by omega
    rw [Function.update_of_ne hne]

theorem StoredFrom.cons {p p' : ℤ → Byte} {i : ℤ} {b : Byte} {bs : List Byte}
    (h : StoredFrom (Function.update p i b) p' (i + 1) bs) : StoredFrom p p' i (b :: bs) := by
  refine ⟨fun k hk => ?_, fun j hj => ?_⟩
  · cases k with
    | zero => simpa using h.2 i (.inl (by omega))
    | succ k =>
      have hstored := h.1 k (by simpa using hk)
      rw [show i + 1 + (k : ℤ) = i + (k + 1 : ℕ) by push_cast; ring] at hstored
      simpa using hstored
  · rw [List.length_cons] at hj
    push_cast at hj
    have hne : j ≠ i := by omega
    rw [h.2 j (by omega), Function.update_of_ne hne]

theorem length_send (n : ℕ) (t : τ) : (dev.send n t).1.length = n := by
  induction n generalizing t with
  | zero => rfl
  | succ n ih => exact congrArg Nat.succ (ih _)

theorem receivedAll_send (n : ℕ) (t : τ) :
    receivedAll (dev.send (n + 1) t).1 =
      .received (dev.read t).1 (n ≠ 0) :: receivedAll (dev.send n (dev.read t).2).1 := by
  have hcons := receivedAll_cons (dev.read t).1 (dev.send n (dev.read t).2).1
  rwa [length_send] at hcons

/-- With `n + 1` bytes left, the next one is received, and acknowledged unless it is the
    last. -/
theorem resumeRead_eq {m : Machine τ} {n : ℕ} (hcount : m.i2c.dataCount = (n + 1 : ℕ))
    (hstat : m.iicstat = 0xb0) :
    resumeRead dev m = { m with
      iicds := (dev.read m.device).1
      irq := true
      device := (dev.read m.device).2
      wire := m.wire ++ [.received (dev.read m.device).1 (n ≠ 0)] } := by
  by_cases hn : n = 0
  · simp [resumeRead, writeIiccon, hcount, hstat, hn]
  · simp [resumeRead, writeIiccon, hcount, hstat, hn]

/-- The interrupt of the address byte. -/
theorem waitPass_read_address {m : Machine τ} {n : ℕ} (hmode : m.i2c.mode = .rddata)
    (hcount : m.i2c.dataCount = (n + 1 : ℕ)) (hpt : m.i2c.pt = -1) (hirq : m.irq = true) :
    waitPass dev 0 m =
      .again (resumeRead dev { m with irq := false, i2c := { m.i2c with pt := 0 } }) := by
  have hzero : m.i2c.dataCount ≠ 0 := by omega
  simp [waitPass, i2cIntHandle, hmode, hzero, hpt, hirq]

/-- The interrupt of the last byte. -/
theorem waitPass_read_last {m : Machine τ} (hmode : m.i2c.mode = .rddata)
    (hcount : m.i2c.dataCount = 1) (hpt : 0 ≤ m.i2c.pt) (hirq : m.irq = true) :
    waitPass dev 0 m = .again { m with
      i2c := { m.i2c with
        pData := Function.update m.i2c.pData m.i2c.pt m.iicds
        pt := m.i2c.pt + 1
        dataCount := 0 }
      iicstat := 0x90
      irq := false
      device := dev.stop m.device
      wire := m.wire ++ [.stop] } := by
  have haddress : m.i2c.pt ≠ -1 := by omega
  simp [waitPass, i2cIntHandle, hmode, hcount, haddress, hirq, writeIicstat, writeIiccon]

/-- The interrupt of a byte that `n + 1` more follow. -/
theorem waitPass_read_next {m : Machine τ} {n : ℕ} (hmode : m.i2c.mode = .rddata)
    (hcount : m.i2c.dataCount = (n + 1 + 1 : ℕ)) (hpt : 0 ≤ m.i2c.pt) (hirq : m.irq = true) :
    waitPass dev 0 m = .again (resumeRead dev { m with
      i2c := { m.i2c with
        pData := Function.update m.i2c.pData m.i2c.pt m.iicds
        pt := m.i2c.pt + 1
        dataCount := (n + 1 : ℕ) }
      irq := false }) := by
  have haddress : m.i2c.pt ≠ -1 := by omega
  have hzero : m.i2c.dataCount ≠ 0 := by omega
  have hnext : m.i2c.dataCount - 1 = (n + 1 : ℕ) := by omega
  have hmore : ((n + 1 : ℕ) : ℤ) ≠ 0 := by omega
  simp only [waitPass, i2cIntHandle, hmode, if_neg hzero, if_pos hirq, if_neg haddress, hnext,
    if_neg hmore]

/-- A read that is resumed with `n + 1` bytes still to come. -/
theorem resumeRead_rest (n : ℕ) {m : Machine τ} (hmode : m.i2c.mode = .rddata)
    (hcount : m.i2c.dataCount = (n + 1 : ℕ)) (hpt : 0 ≤ m.i2c.pt) (hstat : m.iicstat = 0xb0) :
    ∃ m', Returns (waitPass dev 0) (resumeRead dev m) m' ∧
      m'.wire = m.wire ++ receivedAll (dev.send (n + 1) m.device).1 ++ [.stop] ∧
      m'.device = dev.stop (dev.send (n + 1) m.device).2 ∧
      StoredFrom m.i2c.pData m'.i2c.pData m.i2c.pt (dev.send (n + 1) m.device).1 := by
  induction n generalizing m with
  | zero =>
    rw [resumeRead_eq dev hcount hstat]
    have hpass := waitPass_read_last dev (m := { m with
      iicds := (dev.read m.device).1
      irq := true
      device := (dev.read m.device).2
      wire := m.wire ++ [.received (dev.read m.device).1 false] }) hmode hcount hpt rfl
    refine ⟨_, .of_again hpass (.of_leave (if_pos rfl)), ?_, rfl, .singleton _ _ _⟩
    simp [Device.send, receivedAll]
  | succ n ih =>
    -- the byte that has come is stored, and the read is resumed for the rest
    rw [resumeRead_eq dev hcount hstat]
    set m₁ : Machine τ := { m with
      iicds := (dev.read m.device).1
      irq := true
      device := (dev.read m.device).2
      wire := m.wire ++ [.received (dev.read m.device).1 (n + 1 ≠ 0)] } with hm₁
    have hpass := waitPass_read_next dev (m := m₁) hmode hcount hpt rfl
    obtain ⟨m', hreturns, hwire, hdevice, hstored⟩ := ih (m := { m₁ with
      i2c := { m₁.i2c with
        pData := Function.update m₁.i2c.pData m₁.i2c.pt m₁.iicds
        pt := m₁.i2c.pt + 1
        dataCount := (n + 1 : ℕ) }
      irq := false }) hmode rfl (Int.le_add_one hpt) hstat
    refine ⟨m', .of_again hpass hreturns, ?_, hdevice, hstored.cons⟩
    rw [hwire, receivedAll_send dev (n + 1) m.device]
    simp only [hm₁, List.append_assoc, List.cons_append, List.nil_append]

/-- `i2c_read` of `len ≥ 1` bytes returns when it has stored the next `len` bytes of the
    device in order, acknowledged all but the last and sent STOP. -/
theorem i2cRead_receives (slvAddr : Word) (buf : ℤ → Byte) {len : ℕ} (hlen : 1 ≤ len)
    (m : Machine τ) :
    ∃ m', Yields (fun fuel => i2cRead dev slvAddr buf len fuel m) m' ∧
      m'.wire = m.wire ++ [.address (slvAddr.setWidth 8) true] ++
        receivedAll (dev.send len (dev.start true m.device)).1 ++ [.stop] ∧
      m'.device = dev.stop (dev.send len (dev.start true m.device)).2 ∧
      StoredFrom buf m'.i2c.pData 0 (dev.send len (dev.start true m.device)).1 := by
  obtain ⟨n, rfl⟩ := Nat.exists_eq_add_of_le' hlen
  set m₁ : Machine τ := writeIicstat dev 0xb0
    { m with i2c := ⟨buf, (n + 1 : ℕ), .rddata, -1⟩, iicds := slvAddr.setWidth 8 } with hm₁
  have hpass := waitPass_read_address dev (m := m₁) (n := n) rfl rfl rfl rfl
  obtain ⟨m', hreturns, hrest⟩ := resumeRead_rest dev n
    (m := { m₁ with irq := false, i2c := { m₁.i2c with pt := 0 } }) rfl rfl le_rfl rfl
  exact ⟨m', Returns.of_again hpass hreturns, hrest⟩

end Jz2440.Eeprom
