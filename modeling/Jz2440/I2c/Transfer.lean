import Jz2440.I2c.Controller

/-!
# The end of every message of a transfer

`s3c2440_master_xfer` sends its messages one after the other. The bus is released
by a STOP, which only the interrupt handler writes, while the end of a message
is noticed by the wait loop, which looks at `err` and `cnt_transferred`.

* `doMaster_outcome`: what one message leaves behind: its result, its STOPs and
  whether the bus is still busy.
* `s3c2440MasterXfer_eq`: the messages that are started and the result of the transfer.
* `s3c2440MasterXfer_releases_iff`: every started message ends with one STOP and a bus
  at rest iff none of them is an acknowledged read of length 0.
-/

namespace Jz2440.I2c

open Jz2440.Common

/-! ## The bus as the register writes drive it -/

/-- The STOPs among some register writes. -/
def stops (writes : List RegWrite) : List Word :=
  writes.filterMap fun
    | .iicstat v => if v = 0xd0 ∨ v = 0x90 then some v else none
    | _ => none

/-- Bit 5 of the last value written to `IICSTAT`: the bus is busy from a START on
    until a STOP. While it is busy the controller may raise another interrupt. -/
def busBusy (writes : List RegWrite) : Bool :=
  writes.foldl (fun busy w => match w with
    | .iicstat v => v.getLsbD 5
    | _ => busy) false

/-- The STOP of a message. -/
def I2cMsg.stop (msg : I2cMsg) : Word := if msg.flags = 0 then 0xd0 else 0x90

section Writes

variable (s : I2cState) (v : Word)

@[simp] theorem stops_setIiccon : stops (setIiccon v s).writes = stops s.writes := by
  simp [stops, setIiccon]

@[simp] theorem stops_setIicds : stops (setIicds v s).writes = stops s.writes := by
  simp [stops, setIicds]

@[simp] theorem stops_resumeIic : stops (resumeIic s).writes = stops s.writes :=
  stops_setIiccon s _

@[simp] theorem stops_resumeRx : stops (resumeRx s).writes = stops s.writes := by
  unfold resumeRx
  split
  · exact stops_setIiccon s _
  · exact stops_setIiccon s _

@[simp] theorem busBusy_setIiccon : busBusy (setIiccon v s).writes = busBusy s.writes := by
  simp [busBusy, setIiccon]

@[simp] theorem busBusy_resumeRx : busBusy (resumeRx s).writes = busBusy s.writes := by
  unfold resumeRx
  split
  · exact busBusy_setIiccon s _
  · exact busBusy_setIiccon s _

theorem stops_stopIic (msg : I2cMsg) :
    stops (stopIic msg.stop s).writes = stops s.writes ++ [msg.stop] := by
  rw [stopIic, stops_resumeIic]
  unfold I2cMsg.stop
  split <;> simp [stops, setIicstat]

theorem busBusy_stopIic (msg : I2cMsg) : busBusy (stopIic msg.stop s).writes = false := by
  rw [stopIic, resumeIic, busBusy_setIiccon]
  unfold I2cMsg.stop
  split <;> simp [busBusy, setIicstat]

end Writes

/-! ## One message -/

/-- A message and the interrupts that the bus has for it: the one after the address
    byte and at least `len` further ones. -/
structure Exchange where
  msg : I2cMsg
  ack : BusIrq
  data : List BusIrq
  len_nonneg : 0 ≤ msg.len
  enough : msg.len ≤ data.length

/-- A read of no bytes whose address is acknowledged. -/
def Exchange.EmptyRead (ex : Exchange) : Prop :=
  ex.msg.flags ≠ 0 ∧ ex.msg.len = 0 ∧ ¬ ex.ack.noAck

/-- `do_master_tx` or `do_master_rx`, as `s3c2440_master_xfer` chooses
    (s3c2440_i2c_controller.c:232-235). The record of register writes starts anew. -/
def doMaster (iiccon : Word) (ex : Exchange) : Option (ℤ × I2cState × List BusIrq) :=
  if ex.msg.flags = 0 then doMasterTx ex.msg iiccon [] (ex.ack :: ex.data)
  else doMasterRx ex.msg iiccon [] (ex.ack :: ex.data)

/-- After the acknowledged address byte of a read the bus is resumed, whatever `len` is. -/
theorem i2cInterruptFunc_read_ack (irq : BusIrq) (s : I2cState) (hflags : s.msg.flags ≠ 0)
    (hcnt : s.msg.cntTransferred = -1) (hack : ¬ irq.noAck) :
    i2cInterruptFunc irq (raiseIrq s) = resumeRx (incCnt (raiseIrq s)) := by
  simp [i2cInterruptFunc, incCnt, rxInterrupt, hflags, hcnt, hack]

/-- Between the first and the last interrupt the handler counts, and writes no STOP. -/
theorem i2cInterruptFunc_between (irq : BusIrq) (s : I2cState)
    (hlt : s.msg.cntTransferred + 1 < s.msg.len) (hack : s.msg.cntTransferred = -1 → ¬ irq.noAck) :
    ∃ buf, (i2cInterruptFunc irq (raiseIrq s)).msg =
        { s.msg with cntTransferred := s.msg.cntTransferred + 1, buf := buf } ∧
      stops (i2cInterruptFunc irq (raiseIrq s)).writes = stops s.writes := by
  by_cases hflags : s.msg.flags = 0
  · have hno : ¬ (s.msg.cntTransferred + 1 = 0 ∧ irq.noAck) := fun h => hack (by omega) h.2
    refine ⟨s.msg.buf, ?_, ?_⟩
    · simp [i2cInterruptFunc, incCnt, txInterrupt, hflags, hno, hlt]
    · simp [i2cInterruptFunc, incCnt, txInterrupt, hflags, hno, hlt, raiseIrq]
  · by_cases hfirst : s.msg.cntTransferred + 1 = 0
    · have hcnt : s.msg.cntTransferred = -1 := by omega
      rw [i2cInterruptFunc_read_ack irq s hflags hcnt (hack hcnt)]
      exact ⟨s.msg.buf, resumeRx_msg _, stops_resumeRx _⟩
    · refine ⟨Function.update s.msg.buf s.msg.cntTransferred (irq.iicds.setWidth 8), ?_, ?_⟩
      · simp [i2cInterruptFunc, incCnt, rxInterrupt, hflags, hfirst, hlt]
      · simp [i2cInterruptFunc, incCnt, rxInterrupt, hflags, hfirst, hlt, raiseIrq]

/-- The interrupt that completes the count writes the STOP, if it is not the one
    after the address byte of a read. -/
theorem i2cInterruptFunc_last (irq : BusIrq) (s : I2cState)
    (heq : s.msg.cntTransferred + 1 = s.msg.len) (hack : s.msg.cntTransferred = -1 → ¬ irq.noAck)
    (hread : s.msg.flags = 0 ∨ 0 < s.msg.len) :
    i2cInterruptFunc irq (raiseIrq s) = stopIic s.msg.stop (incCnt (raiseIrq s)) := by
  have hge : ¬ s.msg.cntTransferred + 1 < s.msg.len := by omega
  by_cases hflags : s.msg.flags = 0
  · have hno : ¬ (s.msg.cntTransferred + 1 = 0 ∧ irq.noAck) := fun h => hack (by omega) h.2
    simp [i2cInterruptFunc, incCnt, txInterrupt, hflags, hno, hge, I2cMsg.stop]
  · have hfirst : s.msg.cntTransferred + 1 ≠ 0 := by
      rcases hread with h | h
      · exact absurd h hflags
      · omega
    simp [i2cInterruptFunc, incCnt, rxInterrupt, hflags, hfirst, hge, I2cMsg.stop]

/-- An address byte that is not acknowledged: STOP and `err = -1`. -/
theorem i2cInterruptFunc_noAck (irq : BusIrq) (s : I2cState) (hcnt : s.msg.cntTransferred = -1)
    (hno : irq.noAck) :
    i2cInterruptFunc irq (raiseIrq s) = failIic s.msg.stop (incCnt (raiseIrq s)) := by
  by_cases hflags : s.msg.flags = 0
  · simp [i2cInterruptFunc, incCnt, txInterrupt, hflags, hcnt, hno, I2cMsg.stop]
  · simp [i2cInterruptFunc, incCnt, rxInterrupt, hflags, hcnt, hno, I2cMsg.stop]

/-- The wait loop while interrupts are still to be counted: it ends with one STOP. -/
theorem waitLoop_stops (irqs : List BusIrq) (s : I2cState) (herr : s.msg.err = 0)
    (hcnt : -1 ≤ s.msg.cntTransferred) (hlt : s.msg.cntTransferred < s.msg.len)
    (henough : s.msg.len ≤ s.msg.cntTransferred + irqs.length)
    (hack : s.msg.cntTransferred = -1 → ∀ irq ∈ irqs.head?, ¬ irq.noAck)
    (hread : s.msg.flags = 0 ∨ 0 < s.msg.len) (hstops : stops s.writes = []) :
    ∃ s' rest, waitLoop s irqs = some (s', rest) ∧ s'.msg.err = 0 ∧
      stops s'.writes = [s.msg.stop] ∧ busBusy s'.writes = false := by
  induction irqs generalizing s with
  | nil =>
    simp only [List.length_nil, Nat.cast_zero, add_zero] at henough
    omega
  | cons irq irqs ih =>
    have hwait : Waiting s.msg := ⟨herr, by omega⟩
    have hack' : s.msg.cntTransferred = -1 → ¬ irq.noAck := fun h => hack h irq rfl
    rw [waitLoop, if_pos hwait]
    by_cases hlast : s.msg.cntTransferred + 1 = s.msg.len
    · rw [i2cInterruptFunc_last irq s hlast hack' hread]
      have hdone : ¬ Waiting (stopIic s.msg.stop (incCnt (raiseIrq s))).msg := fun h => h.2 hlast
      refine ⟨stopIic s.msg.stop (incCnt (raiseIrq s)), irqs, waitLoop_done hdone irqs, herr, ?_,
        busBusy_stopIic _ s.msg⟩
      rw [stops_stopIic]
      show stops s.writes ++ _ = _
      rw [hstops, List.nil_append]
    · obtain ⟨buf, hmsg, hstops'⟩ := i2cInterruptFunc_between irq s (by omega) hack'
      simp only [List.length_cons, Nat.cast_add, Nat.cast_one] at henough
      obtain ⟨s', rest, hloop, herr', hone, hidle⟩ := ih (i2cInterruptFunc irq (raiseIrq s))
        (by rw [hmsg]; exact herr) (by rw [hmsg]; dsimp only; omega)
        (by rw [hmsg]; dsimp only; omega) (by rw [hmsg]; dsimp only; omega)
        (by rw [hmsg]; dsimp only; omega) (by rw [hmsg]; exact hread)
        (by rw [hstops', hstops])
      rw [hmsg] at hone
      exact ⟨s', rest, hloop, herr', hone, hidle⟩

/-- What a message leaves behind: a result that says whether its address was
    acknowledged, and one STOP and a bus at rest unless it was an empty read. -/
structure Outcome (ex : Exchange) (ret : ℤ) (s : I2cState) : Prop where
  ret_eq : ret = if ex.ack.noAck then -1 else 0
  released : ¬ ex.EmptyRead → stops s.writes = [ex.msg.stop] ∧ busBusy s.writes = false
  emptyRead : ex.EmptyRead → stops s.writes = [] ∧ busBusy s.writes = true

/-- The START of the message has been sent, and nothing has been transferred. -/
structure Started (ex : Exchange) (s : I2cState) : Prop where
  msg : s.msg = { ex.msg with cntTransferred := -1, err := 0 }
  stops : stops s.writes = []
  busy : busBusy s.writes = true

section Started

variable {ex : Exchange} {s : I2cState}

theorem Started.cnt (h : Started ex s) : s.msg.cntTransferred = -1 := by rw [h.msg]

theorem Started.len (h : Started ex s) : s.msg.len = ex.msg.len := by rw [h.msg]

theorem Started.flags (h : Started ex s) : s.msg.flags = ex.msg.flags := by rw [h.msg]

theorem Started.stop (h : Started ex s) : s.msg.stop = ex.msg.stop := by
  rw [I2cMsg.stop, h.flags, I2cMsg.stop]

theorem Started.waiting (h : Started ex s) : Waiting s.msg := by
  have hlen := ex.len_nonneg
  refine ⟨by rw [h.msg], ?_⟩
  rw [h.cnt, h.len]
  omega

/-- An address without an answer is the end of the message. -/
theorem Started.noAck (h : Started ex s) (hno : ex.ack.noAck) :
    ∃ s' rest, waitLoop s (ex.ack :: ex.data) = some (s', rest) ∧
      Outcome ex (masterResult s'.msg) s' := by
  rw [waitLoop, if_pos h.waiting, i2cInterruptFunc_noAck ex.ack s h.cnt hno]
  have hdone : ¬ Waiting (failIic s.msg.stop (incCnt (raiseIrq s))).msg :=
    fun h => absurd h.1 (by simp [failIic])
  refine ⟨_, ex.data, waitLoop_done hdone ex.data, ?_, ?_, ?_⟩
  · rw [if_pos hno]
    simp [masterResult, failIic]
  · intro _
    refine ⟨?_, busBusy_stopIic _ s.msg⟩
    rw [← h.stop]
    refine (stops_stopIic _ s.msg).trans ?_
    show Jz2440.I2c.stops s.writes ++ _ = _
    rw [h.stops, List.nil_append]
  · exact fun hempty => absurd hno hempty.2.2

/-- A read of no bytes ends after its address, without a STOP. -/
theorem Started.emptyRead (h : Started ex s) (hempty : ex.EmptyRead) :
    ∃ s' rest, waitLoop s (ex.ack :: ex.data) = some (s', rest) ∧
      Outcome ex (masterResult s'.msg) s' := by
  have hno := hempty.2.2
  rw [waitLoop, if_pos h.waiting,
    i2cInterruptFunc_read_ack ex.ack s (by rw [h.flags]; exact hempty.1) h.cnt hno]
  have hdone : ¬ Waiting (resumeRx (incCnt (raiseIrq s))).msg := by
    rw [resumeRx_msg]
    refine fun hwait => hwait.2 ?_
    show s.msg.cntTransferred + 1 = s.msg.len
    rw [h.cnt, h.len, hempty.2.1]
    rfl
  refine ⟨_, ex.data, waitLoop_done hdone ex.data, ?_, ?_, ?_⟩
  · rw [if_neg hno, masterResult, resumeRx_msg]
    show (if s.msg.err ≠ 0 then (-1 : ℤ) else 0) = 0
    rw [h.msg]
    rfl
  · exact fun hnot => absurd hempty hnot
  · intro _
    rw [stops_resumeRx, busBusy_resumeRx]
    exact ⟨h.stops, h.busy⟩

/-- Every other message transfers its bytes and ends with a STOP. -/
theorem Started.transferred (h : Started ex s) (hno : ¬ ex.ack.noAck) (hempty : ¬ ex.EmptyRead) :
    ∃ s' rest, waitLoop s (ex.ack :: ex.data) = some (s', rest) ∧
      Outcome ex (masterResult s'.msg) s' := by
  have hlen := ex.len_nonneg
  have henough := ex.enough
  have hcnt := h.cnt
  have hlen' := h.len
  have hread : s.msg.flags = 0 ∨ 0 < s.msg.len := by
    by_contra hcon
    push Not at hcon
    exact hempty ⟨by rw [← h.flags]; exact hcon.1, by omega, hno⟩
  obtain ⟨s', rest, hloop, herr, hone, hidle⟩ := waitLoop_stops (ex.ack :: ex.data) s
    (by rw [h.msg]) (by omega) (by omega) (by simp only [List.length_cons]; omega)
    (by rintro - irq ⟨⟩; exact hno) hread h.stops
  refine ⟨s', rest, hloop, ?_, ?_, ?_⟩
  · rw [if_neg hno, masterResult, herr]
    rfl
  · intro _
    rw [← h.stop]
    exact ⟨hone, hidle⟩
  · exact fun hread => absurd hread hempty

/-- The wait loop of any message, from the START on. -/
theorem Started.outcome (h : Started ex s) :
    ∃ s' rest, waitLoop s (ex.ack :: ex.data) = some (s', rest) ∧
      Outcome ex (masterResult s'.msg) s' := by
  by_cases hno : ex.ack.noAck
  · exact h.noAck hno
  · by_cases hempty : ex.EmptyRead
    · exact h.emptyRead hempty
    · exact h.transferred hno hempty

end Started

theorem doMaster_outcome (iiccon : Word) (ex : Exchange) :
    ∃ ret s rest, doMaster iiccon ex = some (ret, s, rest) ∧ Outcome ex ret s := by
  unfold doMaster
  split
  · have hstart : Started ex (startMaster (ex.msg.addr <<< 1) 0xf0 ex.msg iiccon []) :=
      ⟨rfl, rfl, rfl⟩
    obtain ⟨s, rest, hloop, hout⟩ := hstart.outcome
    exact ⟨_, s, rest, by rw [doMasterTx, hloop]; rfl, hout⟩
  · have hstart : Started ex
        (startMaster ((ex.msg.addr <<< 1) ||| (1#32 <<< 0)) 0xb0 ex.msg iiccon []) :=
      ⟨rfl, rfl, rfl⟩
    obtain ⟨s, rest, hloop, hout⟩ := hstart.outcome
    exact ⟨_, s, rest, by rw [doMasterRx, hloop]; rfl, hout⟩

/-! ## The transfer -/

/-- `s3c2440_master_xfer` (s3c2440_i2c_controller.c:225-240): the return value, and
    for each message that was started the state when its `do_master_tx` or
    `do_master_rx` returned. -/
def s3c2440MasterXfer : Word → List Exchange → Option (ℤ × List (Exchange × I2cState))
  | _, [] => some (0, [])
  | iiccon, ex :: exs =>
    match doMaster iiccon ex with
    | none => none
    | some (err, s, _) =>
      if err ≠ 0 then some (err, [(ex, s)])
      else (s3c2440MasterXfer s.iiccon exs).map fun r => (r.1, (ex, s) :: r.2)

/-- The messages up to the first one whose address is not acknowledged. -/
def started : List Exchange → List Exchange
  | [] => []
  | ex :: exs => if ex.ack.noAck then [ex] else ex :: started exs

/-- The result of a transfer, as the answers to the address bytes determine it. -/
def xferResult (exs : List Exchange) : ℤ := if ∃ ex ∈ exs, ex.ack.noAck then -1 else 0

theorem s3c2440MasterXfer_eq (iiccon : Word) (exs : List Exchange) :
    ∃ runs, s3c2440MasterXfer iiccon exs = some (xferResult exs, runs) ∧
      runs.map Prod.fst = started exs ∧ ∀ run ∈ runs, ∃ ret, Outcome run.1 ret run.2 := by
  induction exs generalizing iiccon with
  | nil => exact ⟨[], by simp [s3c2440MasterXfer, xferResult], rfl, by simp⟩
  | cons ex exs ih =>
    obtain ⟨ret, s, rest, hmaster, hout⟩ := doMaster_outcome iiccon ex
    by_cases hno : ex.ack.noAck
    · have hret : ret = -1 := by rw [hout.ret_eq, if_pos hno]
      refine ⟨[(ex, s)], ?_, ?_, ?_⟩
      · simp [s3c2440MasterXfer, hmaster, hret, xferResult, hno]
      · simp [started, hno]
      · simpa using ⟨ret, hout⟩
    · have hret : ret = 0 := by rw [hout.ret_eq, if_neg hno]
      obtain ⟨runs, hxfer, hstarted, hall⟩ := ih s.iiccon
      refine ⟨(ex, s) :: runs, ?_, ?_, ?_⟩
      · simp [s3c2440MasterXfer, hmaster, hret, hxfer, xferResult, hno]
      · simp [started, hno, hstarted]
      · intro run hrun
        rcases List.mem_cons.mp hrun with rfl | hrun
        · exact ⟨ret, hout⟩
        · exact hall run hrun

theorem started_isPrefix (exs : List Exchange) : started exs <+: exs := by
  induction exs with
  | nil => exact List.prefix_rfl
  | cons ex exs ih =>
    unfold started
    split
    · exact ⟨exs, rfl⟩
    · exact (List.prefix_cons_inj ex).mpr ih

theorem exists_noAck_started (exs : List Exchange) :
    (∃ ex ∈ started exs, ex.ack.noAck) ↔ ∃ ex ∈ exs, ex.ack.noAck := by
  induction exs with
  | nil => rfl
  | cons ex exs ih =>
    by_cases hno : ex.ack.noAck
    · simp [started, hno]
    · simp [started, hno, ih]

theorem ack_of_mem_dropLast_started (exs : List Exchange) :
    ∀ ex ∈ (started exs).dropLast, ¬ ex.ack.noAck := by
  induction exs with
  | nil => exact fun ex h => absurd h (by simp [started])
  | cons ex exs ih =>
    intro e he
    by_cases hno : ex.ack.noAck
    · simp [started, hno] at he
    · rw [started, if_neg hno] at he
      cases hrest : started exs with
      | nil => simp [hrest] at he
      | cons e' es =>
        rw [hrest, List.dropLast_cons_cons, ← hrest, List.mem_cons] at he
        rcases he with rfl | he
        · exact hno
        · exact ih e he

theorem started_eq_self {exs : List Exchange} (h : ¬ ∃ ex ∈ exs, ex.ack.noAck) :
    started exs = exs := by
  induction exs with
  | nil => rfl
  | cons ex exs ih =>
    rw [started, if_neg fun hno => h ⟨ex, List.mem_cons_self, hno⟩, ih]
    rintro ⟨e, he, hno⟩
    exact h ⟨e, List.mem_cons_of_mem ex he, hno⟩

/-- A transfer that releases the bus after every message that it starts: each of them
    has written exactly its STOP and left the bus at rest. The result is -1 iff one of
    them was not acknowledged, and that one is the last one started. -/
structure Releases (exs : List Exchange) (ret : ℤ) (runs : List (Exchange × I2cState)) : Prop where
  inOrder : runs.map Prod.fst <+: exs
  released : ∀ run ∈ runs, stops run.2.writes = [run.1.msg.stop] ∧ busBusy run.2.writes = false
  failed : ret = -1 ↔ ∃ ex ∈ runs.map Prod.fst, ex.ack.noAck
  complete : ret ≠ -1 → ret = 0 ∧ runs.map Prod.fst = exs
  lastStarted : ∀ ex ∈ (runs.map Prod.fst).dropLast, ¬ ex.ack.noAck

/-- A transfer releases the bus after every message iff no message that it starts is an
    acknowledged read of length 0. -/
theorem s3c2440MasterXfer_releases_iff (iiccon : Word) (exs : List Exchange) :
    (∃ ret runs, s3c2440MasterXfer iiccon exs = some (ret, runs) ∧ Releases exs ret runs) ↔
      ∀ ex ∈ started exs, ¬ ex.EmptyRead := by
  obtain ⟨runs, hxfer, hstarted, hall⟩ := s3c2440MasterXfer_eq iiccon exs
  constructor
  · rintro ⟨ret, runs', hxfer', hreleases⟩ ex hex hempty
    rw [hxfer, Option.some_inj] at hxfer'
    obtain ⟨-, rfl⟩ := Prod.mk.inj hxfer'
    rw [← hstarted, List.mem_map] at hex
    obtain ⟨run, hrun, rfl⟩ := hex
    obtain ⟨_, hout⟩ := hall run hrun
    have hbusy := (hout.emptyRead hempty).2
    rw [(hreleases.released run hrun).2] at hbusy
    exact Bool.noConfusion hbusy
  · intro hread
    refine ⟨xferResult exs, runs, hxfer, ?_, ?_, ?_, ?_, ?_⟩
    · rw [hstarted]
      exact started_isPrefix exs
    · intro run hrun
      obtain ⟨_, hout⟩ := hall run hrun
      apply hout.released
      apply hread
      rw [← hstarted]
      exact List.mem_map_of_mem hrun
    · rw [hstarted, exists_noAck_started, xferResult]
      split <;> simp_all
    · rw [hstarted, xferResult]
      split
      · exact fun h => absurd rfl h
      · rename_i hno
        exact fun _ => ⟨rfl, started_eq_self hno⟩
    · rw [hstarted]
      exact ack_of_mem_dropLast_started exs

/-- The two messages of `at24cxx_read(addr, data, len)` (at24cxx.c:37-62) to a device that
    acknowledges its address and sends zeros. -/
def at24cxxReadExchanges (addr : Byte) (len : ℕ) : List Exchange :=
  [⟨⟨0x50, 0, 1, -1, 0, fun _ => addr⟩, ⟨0, 0⟩, [⟨0, 0⟩], Int.one_nonneg, le_refl 1⟩,
    ⟨⟨0x50, 1, len, -1, 0, fun _ => 0⟩, ⟨0, 0⟩, List.replicate len ⟨0, 0⟩,
      Int.natCast_nonneg len, by simp⟩]

theorem at24cxxRead_two_releases :
    ∃ ret runs, s3c2440MasterXfer 0xbe (at24cxxReadExchanges 0x10 2) = some (ret, runs) ∧
      Releases (at24cxxReadExchanges 0x10 2) ret runs :=
  (s3c2440MasterXfer_releases_iff 0xbe (at24cxxReadExchanges 0x10 2)).mpr (by
    intro ex hex hempty
    have hlen : ex.msg.len = 1 ∨ ex.msg.len = 2 := by
      rcases List.mem_cons.mp ((started_isPrefix _).subset hex) with rfl | hex
      · exact .inl rfl
      · exact .inr (by rw [List.mem_singleton.mp hex]; rfl)
    have := hempty.2.1
    omega)

/-- A read of length 0 leaves the bus busy and without a STOP. -/
theorem at24cxxRead_zero_not_released :
    ¬ ∃ ret runs, s3c2440MasterXfer 0xbe (at24cxxReadExchanges 0x10 0) = some (ret, runs) ∧
      Releases (at24cxxReadExchanges 0x10 0) ret runs := by
  rintro ⟨ret, runs, hxfer, hreleases⟩
  have hrun : (s3c2440MasterXfer 0xbe (at24cxxReadExchanges 0x10 0)).map
      (fun r => r.2.map fun run => busBusy run.2.writes) = some [false, true] := by decide
  rw [hxfer, Option.map_some, Option.some_inj] at hrun
  have hlast : true ∈ runs.map fun run => busBusy run.2.writes := by
    rw [hrun]
    decide
  obtain ⟨run, hmem, hbusy⟩ := List.mem_map.mp hlast
  rw [(hreleases.released run hmem).2] at hbusy
  exact Bool.noConfusion hbusy

end Jz2440.I2c
