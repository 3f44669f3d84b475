import Jz2440.Common.History
import Jz2440.Eeprom.Driver

/-!
# The EEPROM as a byte store

Model of `at24cxx.c` in
`hard_driver/first_hard/023_spi_020/05th_spi_i2c_adc_jz2440_spi_controller_020_006`, over
the driver of `Driver.lean` with an AT24C02 on the bus: the first byte that is written
after START sets the address, further bytes are stored there, and a read sends the byte
at the address. Its write cycle takes no time here.

* `at24cxxWrite_yields`, `at24cxxRead_yields`: what one call does to the memory of the device.
* `runCalls_yields`: every sequence of calls returns, and each read returns the last value
  that was written to its address.
* `byte_store`: this, with the transfers of the driver that it rests on.
-/

namespace Jz2440.Eeprom

open Jz2440.Common

/-! ## The device and the calls -/

structure At24c02 where
  mem : Byte → Byte
  address : Byte
  setsAddress : Bool

def at24c02 : Device At24c02 where
  start reading t := { t with setsAddress := !reading }
  write b t :=
    if t.setsAddress then { t with address := b, setsAddress := false }
    else { t with mem := Function.update t.mem t.address b, address := t.address + 1 }
  read t := (t.mem t.address, { t with address := t.address + 1 })
  stop t := t

/-- `at24cxx_read` (at24cxx.c:5-14); `val` is what the uninitialised variable holds. -/
def at24cxxRead (address val : Byte) (fuel : ℕ) (m : Machine At24c02) :
    Option (Byte × Machine At24c02) :=
  (i2cWrite at24c02 0xA0 (fun _ => address) 1 fuel m).bind fun m =>
    (i2cRead at24c02 0xA0 (fun _ => val) 1 fuel m).map fun m => (m.i2c.pData 0, m)

/-- `at24cxx_write` (at24cxx.c:16-22). -/
def at24cxxWrite (address data : Byte) (fuel : ℕ) (m : Machine At24c02) :
    Option (Machine At24c02) :=
  i2cWrite at24c02 0xA0 (fun k => if k = 0 then address else data) 2 fuel m

/-- The address that a call of the driver has sent is the one that a read then sees. -/
theorem at24cxxRead_yields (address val : Byte) (m : Machine At24c02) :
    ∃ m', Yields (fun fuel => at24cxxRead address val fuel m) (m.device.mem address, m') ∧
      m'.device.mem = m.device.mem := by
  obtain ⟨m₁, hwrite, -, hdevice₁⟩ := i2cWrite_sends at24c02 0xA0 (fun _ => address) 1 m
  obtain ⟨m₂, hread, -, hdevice₂, hstored, -⟩ :=
    i2cRead_receives at24c02 0xA0 (fun _ => val) le_rfl m₁
  have hfirst : m₂.i2c.pData 0 = m₁.device.mem m₁.device.address := hstored 0 Nat.one_pos
  have hval : m₂.i2c.pData 0 = m.device.mem address := by
    rw [hfirst, hdevice₁]
    rfl
  refine ⟨m₂, ?_, ?_⟩
  · rw [← hval]
    exact hwrite.bind (hread.map fun m => (m.i2c.pData 0, m))
  · rw [hdevice₂, hdevice₁]
    rfl

theorem at24cxxWrite_yields (address data : Byte) (m : Machine At24c02) :
    ∃ m', Yields (fun fuel => at24cxxWrite address data fuel m) m' ∧
      m'.device.mem = Function.update m.device.mem address data := by
  obtain ⟨m', hwrite, -, hdevice⟩ :=
    i2cWrite_sends at24c02 0xA0 (fun k => if k = 0 then address else data) 2 m
  refine ⟨m', hwrite, ?_⟩
  rw [hdevice]
  rfl

/-! ## Sequences of calls -/

inductive Call
  | write (address data : Byte)
  | read (address val : Byte)
  deriving DecidableEq

/-- A call that has returned, with the value that a read returned. -/
structure Done where
  call : Call
  result : Option Byte
  deriving DecidableEq

/-- The machine and the calls that have returned. -/
structure Session where
  machine : Machine At24c02
  log : List Done

def runCall (fuel : ℕ) (s : Session) : Call → Option Session
  | .write address data =>
    (at24cxxWrite address data fuel s.machine).map fun m =>
      ⟨m, s.log ++ [⟨.write address data, none⟩]⟩
  | .read address val =>
    (at24cxxRead address val fuel s.machine).map fun r =>
      ⟨r.2, s.log ++ [⟨.read address val, some r.1⟩]⟩

/-- The calls one after the other. -/
def runCalls (fuel : ℕ) : List Call → Session → Option Session
  | [], s => some s
  | c :: cs, s => (runCall fuel s c).bind (runCalls fuel cs)

/-- The value that a call writes to address `a`. -/
def Call.writes (a : Byte) : Call → Option Byte
  | .write address data => if address = a then some data else none
  | .read _ _ => none

/-- The last value that was written to address `a`. -/
def lastWritten (log : List Done) (a : Byte) : Option Byte :=
  (log.filterMap fun d => d.call.writes a).getLast?

/-- A read returns the last value written to its address, or what the device held there at
    first. -/
def ReturnsLast (mem : Byte → Byte) (log : List Done) (d : Done) : Prop :=
  ∀ address val, d.call = .read address val →
    d.result = some ((lastWritten log address).getD (mem address))

theorem lastWritten_append (log : List Done) (d : Done) (a : Byte) :
    lastWritten (log ++ [d]) a = ((d.call.writes a).or (lastWritten log a)) := by
  unfold lastWritten
  rw [List.filterMap_append, List.getLast?_append]
  cases h : d.call.writes a <;> simp [h]

/-- The device holds what was written last, and the reads so far have returned it. -/
structure StoreInv (mem : Byte → Byte) (s : Session) : Prop where
  held : ∀ a, s.machine.device.mem a = (lastWritten s.log a).getD (mem a)
  returned : EachTime (ReturnsLast mem) s.log

/-- Every call returns and keeps the invariant. -/
theorem runCall_yields {mem : Byte → Byte} {s : Session} (h : StoreInv mem s) (c : Call) :
    ∃ s', Yields (fun fuel => runCall fuel s c) s' ∧
      s'.log.map Done.call = s.log.map Done.call ++ [c] ∧ StoreInv mem s' := by
  cases c with
  | write address data =>
    obtain ⟨m', hyields, hmem⟩ := at24cxxWrite_yields address data s.machine
    refine ⟨_, hyields.map _, by simp, ?_, ?_⟩
    · intro a
      show m'.device.mem a = _
      rw [hmem, lastWritten_append, Function.update_apply, h.held]
      by_cases ha : a = address
      · simp [ha, Call.writes]
      · simp [ha, Ne.symm ha, Call.writes]
    · exact (eachTime_append ..).mpr ⟨h.returned, nofun⟩
  | read address val =>
    obtain ⟨m', hyields, hmem⟩ := at24cxxRead_yields address val s.machine
    refine ⟨_, hyields.map _, by simp, ?_, ?_⟩
    · intro a
      show m'.device.mem a = _
      rw [hmem, lastWritten_append, h.held]
      rfl
    · refine (eachTime_append ..).mpr ⟨h.returned, ?_⟩
      intro address' val' hcall
      obtain ⟨rfl, rfl⟩ := Call.read.inj hcall
      exact congrArg some (h.held address)

/-- Every sequence of calls returns and keeps the invariant. -/
theorem runCalls_yields (mem : Byte → Byte) (cs : List Call) {s : Session}
    (h : StoreInv mem s) :
    ∃ s', Yields (fun fuel => runCalls fuel cs s) s' ∧
      s'.log.map Done.call = s.log.map Done.call ++ cs ∧ StoreInv mem s' := by
  induction cs generalizing s with
  | nil => exact ⟨s, ⟨0, fun _ _ => rfl⟩, (List.append_nil _).symm, h⟩
  | cons c cs ih =>
    obtain ⟨s₁, hcall, hlog₁, h₁⟩ := runCall_yields h c
    obtain ⟨s₂, hcalls, hlog₂, h₂⟩ := ih h₁
    refine ⟨s₂, hcall.bind hcalls, ?_, h₂⟩
    rw [hlog₂, hlog₁, List.append_assoc, List.singleton_append]

/-- The driver puts exactly the bytes of a write on the bus and stores exactly the bytes of a
    read; the calls over it make the EEPROM a byte store. -/
theorem byte_store :
    (∀ {τ : Type} (dev : Device τ) (slvAddr : Word) (buf : ℤ → Byte) (len : ℕ) (m : Machine τ),
      1 ≤ len → ∃ m', Yields (fun fuel => i2cWrite dev slvAddr buf len fuel m) m' ∧
        m'.wire = m.wire ++ [.address (slvAddr.setWidth 8) false] ++
          (bytesFrom buf 0 len).map .sent ++ [.stop]) ∧
    (∀ {τ : Type} (dev : Device τ) (slvAddr : Word) (buf : ℤ → Byte) (len : ℕ) (m : Machine τ),
      1 ≤ len → ∃ m', Yields (fun fuel => i2cRead dev slvAddr buf len fuel m) m' ∧
        m'.wire = m.wire ++ [.address (slvAddr.setWidth 8) true] ++
          receivedAll (dev.send len (dev.start true m.device)).1 ++ [.stop] ∧
        StoredFrom buf m'.i2c.pData 0 (dev.send len (dev.start true m.device)).1) ∧
    ∀ (cs : List Call) (m : Machine At24c02),
      ∃ s, Yields (fun fuel => runCalls fuel cs ⟨m, []⟩) s ∧
        s.log.map Done.call = cs ∧ EachTime (ReturnsLast m.device.mem) s.log := by
  refine ⟨?_, ?_, ?_⟩
  · intro τ dev slvAddr buf len m _
    obtain ⟨m', hyields, hwire, -⟩ := i2cWrite_sends dev slvAddr buf len m
    exact ⟨m', hyields, hwire⟩
  · intro τ dev slvAddr buf len m hlen
    obtain ⟨m', hyields, hwire, -, hstored⟩ := i2cRead_receives dev slvAddr buf hlen m
    exact ⟨m', hyields, hwire, hstored⟩
  · intro cs m
    obtain ⟨s, hyields, hlog, hinv⟩ := runCalls_yields m.device.mem cs (s := ⟨m, []⟩)
      ⟨fun _ => rfl, eachTime_nil _⟩
    exact ⟨s, hyields, hlog, hinv.returned⟩

/-- After `i2c_init`, with an EEPROM that holds its addresses. -/
def idleBus : Machine At24c02 :=
  ⟨⟨fun _ => 0, 0, .unset, 0⟩, 0, 0x10, false, ⟨id, 5, false⟩, []⟩

theorem byte_store_two_bytes :
    ∃ m', Yields (fun fuel => i2cRead at24c02 0xA0 (fun _ => 0) (2 : ℕ) fuel idleBus) m' ∧
      m'.wire = [.address 0xA0 true, .received 5 true, .received 6 false, .stop] ∧
      StoredFrom (fun _ => 0) m'.i2c.pData 0 [5, 6] :=
  byte_store.2.1 at24c02 0xA0 (fun _ => 0) 2 idleBus (by decide)

end Jz2440.Eeprom
