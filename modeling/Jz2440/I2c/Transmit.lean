import Jz2440.I2c.Transfer

/-!
# What a master transmit puts on the bus

A write message of `len` bytes takes `1 + len` interrupts. The counter
`cnt_transferred` starts at -1; after its increment it is the index of the byte
that the handler sends next, and the end of the message when it is `len`.

* `bufIndex`: where the handler reads `buf`; `i2cInterruptFunc_withBuf` says that
  the handler depends on nothing else of it.
* `waitLoop_tx`: the run of the wait loop over the interrupts of a message.
* `doMasterTx_transmits`: the address byte, the bytes of the message in order and
  one STOP; only the address byte and the STOP if the address is not acknowledged.
-/

namespace Jz2440.I2c

open Jz2440.Common

/-! ## What is sent and where it is read -/

/-- The register writes that put a byte or a STOP on the bus. -/
def RegWrite.onBus : RegWrite → Bool
  | .iicds _ => true
  | .iicstat v => v = 0xd0 || v = 0x90
  | .iiccon _ => false

/-- The bytes and STOPs among some register writes. -/
def busWrites (writes : List RegWrite) : List RegWrite := writes.filter RegWrite.onBus

@[simp] theorem busWrites_setIiccon (v : Word) (s : I2cState) :
    busWrites (setIiccon v s).writes = busWrites s.writes := by
  simp [busWrites, setIiccon, RegWrite.onBus]

@[simp] theorem busWrites_setIicds (v : Word) (s : I2cState) :
    busWrites (setIicds v s).writes = busWrites s.writes ++ [.iicds v] := by
  simp [busWrites, setIicds, List.filter_cons, RegWrite.onBus]

/-- The index at which the handler reads `p_cur_msg->buf` when it sends a byte
    (s3c2440_i2c_controller.c:65-70). -/
def bufIndex (irq : BusIrq) (s : I2cState) : Option ℤ :=
  let s := incCnt s
  if s.msg.flags = 0 ∧ ¬ (s.msg.cntTransferred = 0 ∧ irq.noAck) ∧
      s.msg.cntTransferred < s.msg.len then some s.msg.cntTransferred
  else none

/-- The indices at which `buf` is read while the wait loop spins. -/
def bufReads : I2cState → List BusIrq → List ℤ
  | _, [] => []
  | s, irq :: irqs =>
    if Waiting s.msg then
      (bufIndex irq (raiseIrq s)).toList ++ bufReads (i2cInterruptFunc irq (raiseIrq s)) irqs
    else []

theorem bufReads_done {s : I2cState} (h : ¬ Waiting s.msg) (irqs : List BusIrq) :
    bufReads s irqs = [] := by
  cases irqs with
  | nil => rfl
  | cons irq irqs => exact if_neg h

/-- The same message in another memory. -/
def I2cState.withBuf (buf : ℤ → Byte) (s : I2cState) : I2cState :=
  { s with msg := { s.msg with buf := buf } }

/-- For a write message the handler depends on `buf` at that index only. -/
theorem i2cInterruptFunc_withBuf (irq : BusIrq) (s : I2cState) (hflags : s.msg.flags = 0)
    (buf : ℤ → Byte) (h : ∀ i ∈ bufIndex irq s, buf i = s.msg.buf i) :
    i2cInterruptFunc irq (s.withBuf buf) = (i2cInterruptFunc irq s).withBuf buf := by
  by_cases hno : s.msg.cntTransferred + 1 = 0 ∧ irq.noAck
  · simp [i2cInterruptFunc, I2cState.withBuf, incCnt, txInterrupt, hflags, hno, failIic, stopIic,
      resumeIic, setIiccon, setIicstat]
  · by_cases hlt : s.msg.cntTransferred + 1 < s.msg.len
    · have hread : buf (s.msg.cntTransferred + 1) = s.msg.buf (s.msg.cntTransferred + 1) := by
        apply h
        simp [bufIndex, incCnt, hflags, hno, hlt]
      simp [i2cInterruptFunc, I2cState.withBuf, incCnt, txInterrupt, hflags, hno, hlt, hread,
        resumeIic, setIiccon, setIicds]
    · simp [i2cInterruptFunc, I2cState.withBuf, incCnt, txInterrupt, hflags, hno, hlt, stopIic,
        resumeIic, setIiccon, setIicstat]

/-! ## One interrupt -/

/-- An interrupt before the last one sends the next byte. -/
theorem i2cInterruptFunc_tx_next (irq : BusIrq) (s : I2cState) (hflags : s.msg.flags = 0)
    (hlt : s.msg.cntTransferred + 1 < s.msg.len) (hack : s.msg.cntTransferred = -1 → ¬ irq.noAck) :
    (i2cInterruptFunc irq (raiseIrq s)).msg =
        { s.msg with cntTransferred := s.msg.cntTransferred + 1 } ∧
      busWrites (i2cInterruptFunc irq (raiseIrq s)).writes = busWrites s.writes ++
        [.iicds ((s.msg.buf (s.msg.cntTransferred + 1)).setWidth 32)] ∧
      bufIndex irq (raiseIrq s) = some (s.msg.cntTransferred + 1) := by
  have hno : ¬ (s.msg.cntTransferred + 1 = 0 ∧ irq.noAck) := fun h => hack (by omega) h.2
  refine ⟨?_, ?_, ?_⟩
  · simp [i2cInterruptFunc, incCnt, txInterrupt, hflags, hno, hlt]
  · simp [i2cInterruptFunc, incCnt, txInterrupt, hflags, hno, hlt, resumeIic, raiseIrq]
  · simp [bufIndex, incCnt, hflags, hno, hlt]

theorem busWrites_stopIic (s : I2cState) :
    busWrites (stopIic 0xd0 s).writes = busWrites s.writes ++ [.iicstat 0xd0] := by
  rw [stopIic, resumeIic, busWrites_setIiccon]
  simp [busWrites, setIicstat, RegWrite.onBus]

/-- The interrupt that completes the count issues the STOP and reads nothing. -/
theorem i2cInterruptFunc_tx_last (irq : BusIrq) (s : I2cState) (hflags : s.msg.flags = 0)
    (heq : s.msg.cntTransferred + 1 = s.msg.len) (hack : s.msg.cntTransferred = -1 → ¬ irq.noAck) :
    (i2cInterruptFunc irq (raiseIrq s)).msg =
        { s.msg with cntTransferred := s.msg.cntTransferred + 1 } ∧
      busWrites (i2cInterruptFunc irq (raiseIrq s)).writes =
        busWrites s.writes ++ [.iicstat 0xd0] ∧
      bufIndex irq (raiseIrq s) = none := by
  have hstop : s.msg.stop = 0xd0 := if_pos hflags
  have hge : ¬ s.msg.cntTransferred + 1 < s.msg.len := by omega
  rw [i2cInterruptFunc_last irq s heq hack (.inl hflags), hstop]
  refine ⟨rfl, busWrites_stopIic _, ?_⟩
  simp [bufIndex, incCnt, hge]

/-! ## The whole message -/

/-- The bytes `buf[i], …, buf[i + n - 1]` as they are written to `IICDS`. -/
def sentBytes (buf : ℤ → Byte) (i : ℤ) (n : ℕ) : List RegWrite :=
  (List.range n).map fun k : ℕ => .iicds ((buf (i + k)).setWidth 32)

theorem map_range_succ_int {α : Type*} (f : ℤ → α) (i : ℤ) (n : ℕ) :
    ((List.range (n + 1)).map fun k : ℕ => f (i + k)) =
      f i :: (List.range n).map fun k : ℕ => f (i + 1 + k) := by
  rw [List.range_succ_eq_map, List.map_cons, List.map_map, Nat.cast_zero, add_zero]
  congr 1
  apply List.map_congr_left
  intro k _
  show f (i + (k + 1 : ℕ)) = f (i + 1 + k)
  congr 1
  push_cast
  ring

/-- The wait loop of a write message over its interrupts, started when
    `cnt_transferred` of them have been counted. -/
theorem waitLoop_tx (n : ℕ) (irqs rest : List BusIrq) (s : I2cState) (hflags : s.msg.flags = 0)
    (herr : s.msg.err = 0) (hirqs : irqs.length = n + 1) (hcnt : -1 ≤ s.msg.cntTransferred)
    (hlen : s.msg.cntTransferred + (n + 1) = s.msg.len)
    (hack : s.msg.cntTransferred = -1 → ∀ irq ∈ irqs.head?, ¬ irq.noAck) :
    ∃ s', waitLoop s (irqs ++ rest) = some (s', rest) ∧ s'.msg.err = 0 ∧
      busWrites s'.writes = busWrites s.writes ++
        sentBytes s.msg.buf (s.msg.cntTransferred + 1) n ++ [.iicstat 0xd0] ∧
      bufReads s (irqs ++ rest) =
        (List.range n).map fun k : ℕ => s.msg.cntTransferred + 1 + k := by
  induction n generalizing irqs s with
  | zero =>
    obtain ⟨irq, rfl⟩ := List.length_eq_one_iff.mp hirqs
    have hwait : Waiting s.msg := ⟨herr, by omega⟩
    obtain ⟨hmsg, hwrites, hindex⟩ := i2cInterruptFunc_tx_last irq s hflags (by omega)
      (fun h => hack h irq rfl)
    have hdone : ¬ Waiting (i2cInterruptFunc irq (raiseIrq s)).msg := by
      rw [hmsg]
      intro h
      exact h.2 (by dsimp only; omega)
    refine ⟨i2cInterruptFunc irq (raiseIrq s), ?_, by rw [hmsg]; exact herr, ?_, ?_⟩
    · rw [List.singleton_append, waitLoop, if_pos hwait, waitLoop_done hdone]
    · rw [hwrites]
      simp [sentBytes]
    · rw [List.singleton_append, bufReads, if_pos hwait, hindex, bufReads_done hdone]
      rfl
  | succ n ih =>
    cases irqs with
    | nil => simp at hirqs
    | cons irq irqs =>
      have hwait : Waiting s.msg := ⟨herr, by omega⟩
      obtain ⟨hmsg, hwrites, hindex⟩ := i2cInterruptFunc_tx_next irq s hflags (by omega)
        (fun h => hack h irq rfl)
      obtain ⟨s', hloop, herr', hsent, hreads⟩ := ih irqs (i2cInterruptFunc irq (raiseIrq s))
        (by rw [hmsg]; exact hflags) (by rw [hmsg]; exact herr) (by simpa using hirqs)
        (by rw [hmsg]; dsimp only; omega) (by rw [hmsg]; dsimp only; omega)
        (by rw [hmsg]; dsimp only; omega)
      rw [hmsg] at hsent hreads
      dsimp only at hsent hreads
      refine ⟨s', ?_, herr', ?_, ?_⟩
      · rw [List.cons_append, waitLoop, if_pos hwait, hloop]
      · rw [hsent, hwrites, sentBytes, sentBytes, map_range_succ_int fun i =>
          RegWrite.iicds ((s.msg.buf i).setWidth 32)]
        simp only [List.append_assoc, List.cons_append, List.nil_append]
      · rw [List.cons_append, bufReads, if_pos hwait, hindex, hreads,
          map_range_succ_int fun i => i]
        rfl

/-- The indices at which `buf` is read during `do_master_tx`. -/
def txBufReads (msg : I2cMsg) (iiccon : Word) (writes : List RegWrite) (irqs : List BusIrq) :
    List ℤ :=
  bufReads (startMaster (msg.addr <<< 1) 0xf0 msg iiccon writes) irqs

theorem busWrites_startMaster (ds : Word) (msg : I2cMsg) (iiccon : Word) (writes : List RegWrite) :
    busWrites (startMaster ds 0xf0 msg iiccon writes).writes =
      busWrites writes ++ [.iicds ds] := by
  simp [startMaster, setIiccon, setIicstat, setIicds, busWrites, List.filter_cons, RegWrite.onBus]

/-- What is on the bus, and how the call ends, when the address is acknowledged. -/
theorem doMasterTx_ack (msg : I2cMsg) (hflags : msg.flags = 0) (iiccon : Word)
    (writes : List RegWrite) {ack : BusIrq} (hack : ¬ ack.noAck) {data : List BusIrq}
    (hdata : (data.length : ℤ) = msg.len) (rest : List BusIrq) :
    ∃ s, doMasterTx msg iiccon writes (ack :: data ++ rest) = some (0, s, rest) ∧
      busWrites s.writes = busWrites writes ++
        .iicds (msg.addr <<< 1) :: sentBytes msg.buf 0 data.length ++ [.iicstat 0xd0] ∧
      txBufReads msg iiccon writes (ack :: data ++ rest) =
        (List.range data.length).map fun k : ℕ => (k : ℤ) := by
  obtain ⟨s, hloop, herr, hsent, hreads⟩ := waitLoop_tx data.length (ack :: data) rest
    (startMaster (msg.addr <<< 1) 0xf0 msg iiccon writes) hflags rfl rfl le_rfl
    (by rw [startMaster_msg]; dsimp only; omega) (by rintro - irq ⟨⟩; exact hack)
  refine ⟨s, ?_, ?_, ?_⟩
  · rw [doMasterTx, hloop, Option.map_some, masterResult, herr]
    rfl
  · rw [hsent, busWrites_startMaster]
    simp only [startMaster_msg, List.append_assoc, List.cons_append, List.nil_append]
    rfl
  · rw [txBufReads, hreads]
    apply List.map_congr_left
    intro k _
    rw [startMaster_msg]
    dsimp only
    omega

/-- Without an acknowledge the call ends after the first interrupt. -/
theorem doMasterTx_noAck (msg : I2cMsg) (hflags : msg.flags = 0) (hlen : 0 ≤ msg.len)
    (iiccon : Word) (writes : List RegWrite) {ack : BusIrq} (hno : ack.noAck)
    (rest : List BusIrq) :
    ∃ s, doMasterTx msg iiccon writes (ack :: rest) = some (-1, s, rest) ∧
      busWrites s.writes =
        busWrites writes ++ [.iicds (msg.addr <<< 1), .iicstat 0xd0] ∧
      txBufReads msg iiccon writes (ack :: rest) = [] := by
  set s₀ := startMaster (msg.addr <<< 1) 0xf0 msg iiccon writes with hs₀
  have hwait : Waiting s₀.msg := by
    refine ⟨rfl, ?_⟩
    rw [hs₀, startMaster_msg]
    dsimp only
    omega
  have hstop : s₀.msg.stop = 0xd0 := if_pos hflags
  have hint := i2cInterruptFunc_noAck ack s₀ rfl hno
  rw [hstop] at hint
  have hdone : ¬ Waiting (failIic 0xd0 (incCnt (raiseIrq s₀))).msg :=
    fun h => absurd h.1 (by simp [failIic])
  refine ⟨failIic 0xd0 (incCnt (raiseIrq s₀)), ?_, ?_, ?_⟩
  · rw [doMasterTx, ← hs₀, waitLoop, if_pos hwait, hint, waitLoop_done hdone, Option.map_some]
    rfl
  · refine (busWrites_stopIic _).trans ?_
    show busWrites s₀.writes ++ _ = _
    rw [hs₀, busWrites_startMaster, List.append_assoc]
    rfl
  · have hindex : bufIndex ack (raiseIrq s₀) = none := by
      have hcnt : s₀.msg.cntTransferred = -1 := rfl
      simp [bufIndex, incCnt, hcnt, hno]
    rw [txBufReads, ← hs₀, bufReads, if_pos hwait, hindex, hint, bufReads_done hdone]
    rfl

/-- `do_master_tx` puts the address byte, the message and one STOP on the bus, reads `buf`
    only inside of the message, and returns 0 after `len + 1` interrupts. If the address is
    not acknowledged it sends no data byte and returns -1 after the first interrupt. -/
theorem doMasterTx_transmits (msg : I2cMsg) (hflags : msg.flags = 0) (iiccon : Word)
    (writes : List RegWrite) (ack : BusIrq) (data : List BusIrq)
    (hdata : (data.length : ℤ) = msg.len) (rest : List BusIrq) :
    (¬ ack.noAck → ∃ s, doMasterTx msg iiccon writes (ack :: data ++ rest) = some (0, s, rest) ∧
      busWrites s.writes = busWrites writes ++
        .iicds (msg.addr <<< 1) :: sentBytes msg.buf 0 data.length ++ [.iicstat 0xd0] ∧
      txBufReads msg iiccon writes (ack :: data ++ rest) =
        (List.range data.length).map fun k : ℕ => (k : ℤ)) ∧
    (ack.noAck → ∃ s,
      doMasterTx msg iiccon writes (ack :: data ++ rest) = some (-1, s, data ++ rest) ∧
      busWrites s.writes =
        busWrites writes ++ [.iicds (msg.addr <<< 1), .iicstat 0xd0] ∧
      txBufReads msg iiccon writes (ack :: data ++ rest) = []) := by
  constructor
  · intro hack
    exact doMasterTx_ack msg hflags iiccon writes hack hdata rest
  · intro hno
    exact doMasterTx_noAck msg hflags (by omega) iiccon writes hno (data ++ rest)

/-- The message of `at24cxx_write` for the byte 0x41 at address 0x10. -/
def byteMsg : I2cMsg := ⟨0x50, 0, 2, -1, 0, fun i => if i = 0 then 0x10 else 0x41⟩

theorem doMasterTx_transmits_byteMsg :
    byteMsg.flags = 0 ∧ ∃ s,
      doMasterTx byteMsg 0xbe [] [⟨0, 0⟩, ⟨0, 0⟩, ⟨0, 0⟩] = some (0, s, []) ∧
      busWrites s.writes = [.iicds 0xa0, .iicds 0x10, .iicds 0x41, .iicstat 0xd0] ∧
      txBufReads byteMsg 0xbe [] [⟨0, 0⟩, ⟨0, 0⟩, ⟨0, 0⟩] = [0, 1] :=
  ⟨rfl, (doMasterTx_transmits byteMsg rfl 0xbe [] ⟨0, 0⟩ [⟨0, 0⟩, ⟨0, 0⟩] rfl []).1 (by decide)⟩

end Jz2440.I2c
