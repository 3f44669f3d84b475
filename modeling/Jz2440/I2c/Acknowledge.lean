import Jz2440.I2c.Transfer

/-!
# The acknowledges of a master receive

While the bus is busy with a read, each resume of the bus (a write of `IICCON` with
bit 4 clear) clocks in one byte, which the controller acknowledges iff bit 7 of
`IICCON` is set. So the acknowledge of a byte is chosen at the interrupt before it:
after the address byte, or after the byte before.

* `busView`: the bytes that are clocked in and the STOPs, as the register writes
  determine them.
* `waitLoop_rx_events`: the run of the wait loop over the data interrupts.
* `doMasterRx_acknowledges`: `len` bytes are clocked in, all but the last are
  acknowledged, and one STOP follows.
-/

namespace Jz2440.I2c

open Jz2440.Common

/-! ## The bus during a read -/

/-- A byte that is clocked in, with the acknowledge enabled or not, or a STOP. -/
inductive RxEvent
  | byte (ack : Bool)
  | stop
  deriving DecidableEq

/-- Bit 5 of `IICSTAT`, and what has happened on the bus. -/
structure BusView where
  busy : Bool
  events : List RxEvent

/-- What a register write does on the bus. -/
def BusView.step (b : BusView) : RegWrite → BusView
  | .iiccon v =>
    { b with events := b.events ++ if b.busy && !v.getLsbD 4 then [.byte (v.getLsbD 7)] else [] }
  | .iicstat v => ⟨v.getLsbD 5, b.events ++ if v = 0x90 then [.stop] else []⟩
  | .iicds _ => b

/-- What some register writes have done on the bus. -/
def busView (writes : List RegWrite) : BusView := writes.foldl BusView.step ⟨false, []⟩

theorem busView_append (writes : List RegWrite) (w : RegWrite) :
    busView (writes ++ [w]) = (busView writes).step w := by
  simp only [busView, List.foldl_append, List.foldl_cons, List.foldl_nil]

theorem busView_busy (writes : List RegWrite) : (busView writes).busy = busBusy writes := by
  induction writes using List.reverseRecOn with
  | nil => rfl
  | append_singleton writes w ih =>
    rw [busView_append]
    cases w with
    | iiccon v => simpa [BusView.step, busBusy] using ih
    | iicstat v => simp [BusView.step, busBusy]
    | iicds v => simpa [BusView.step, busBusy] using ih

/-- The state of `do_master_rx` when it has issued its START. -/
def rxStart (msg : I2cMsg) (iiccon : Word) (writes : List RegWrite) : I2cState :=
  startMaster ((msg.addr <<< 1) ||| (1#32 <<< 0)) 0xb0 msg iiccon writes

theorem busView_rxStart_busy (msg : I2cMsg) (iiccon : Word) (writes : List RegWrite) :
    (busView (rxStart msg iiccon writes).writes).busy = true := by
  simp only [rxStart, startMaster, setIiccon, setIicstat, setIicds, busView_append, BusView.step]
  rfl

/-- The start of a read on an idle bus clocks in nothing yet. -/
theorem busView_rxStart_events (msg : I2cMsg) (iiccon : Word) {writes : List RegWrite}
    (hbusy : busBusy writes = false) :
    (busView (rxStart msg iiccon writes).writes).events = (busView writes).events := by
  have hidle : (busView writes).busy = false := by rw [busView_busy, hbusy]
  simp only [rxStart, startMaster, setIiccon, setIicstat, setIicds, busView_append, BusView.step,
    hidle]
  simp

/-- A resume clocks in one byte, which is acknowledged unless it is the last one. -/
theorem busView_resumeRx {s : I2cState} (hbusy : (busView s.writes).busy = true) :
    busView (resumeRx s).writes =
      ⟨true, (busView s.writes).events ++ [.byte (!decide (isLastData s.msg))]⟩ := by
  unfold resumeRx
  split_ifs with hlast
  · simp [resumeIicWithoutAck, setIiccon, busView_append, BusView.step, hbusy, hlast]
  · simp [resumeIicWithAck, setIiccon, busView_append, BusView.step, hbusy, hlast]

/-- The STOP ends the transfer, and the resume after it clocks in nothing. -/
theorem busView_stopIic (s : I2cState) :
    busView (stopIic 0x90 s).writes = ⟨false, (busView s.writes).events ++ [.stop]⟩ := by
  simp only [stopIic, resumeIic, setIiccon, setIicstat, busView_append, BusView.step]
  simp

/-! ## The whole message -/

/-- The bytes of a message of length `len`: byte `k` is acknowledged iff it is not the last. -/
def rxBytes (len : ℤ) (n : ℕ) : List RxEvent :=
  (List.range n).map fun k : ℕ => .byte (decide ((k : ℤ) + 1 < len))

theorem rxBytes_succ (len : ℤ) (n : ℕ) :
    rxBytes len (n + 1) = rxBytes len n ++ [.byte (decide ((n : ℤ) + 1 < len))] := by
  simp [rxBytes, List.range_succ]

theorem rxBytes_of_length {len : ℤ} {n : ℕ} (h : (n : ℤ) = len) :
    rxBytes len n = (List.range n).map fun k => .byte (decide (k + 1 < n)) := by
  rw [rxBytes, ← h]
  apply List.map_congr_left
  intro k _
  congr 2
  simp only [eq_iff_iff]
  omega

/-- The acknowledge that the handler chooses when `n` bytes have arrived. -/
theorem not_isLastData {msg : I2cMsg} {n : ℕ} (hcnt : msg.cntTransferred = n)
    (hle : (n : ℤ) + 1 ≤ msg.len) :
    (!decide (isLastData msg)) = decide ((n : ℤ) + 1 < msg.len) := by
  rw [← decide_not, decide_eq_decide]
  show ¬ (msg.cntTransferred = msg.len - 1) ↔ _
  rw [hcnt]
  omega

/-- The interrupt for a data byte that is not the last one. -/
theorem i2cInterruptFunc_rx_next (irq : BusIrq) (s : I2cState) (hflags : s.msg.flags ≠ 0)
    (hcnt : 0 ≤ s.msg.cntTransferred) (hlt : s.msg.cntTransferred + 1 < s.msg.len) :
    ∃ s₁ : I2cState, i2cInterruptFunc irq (raiseIrq s) = resumeRx s₁ ∧ s₁.writes = s.writes ∧
      s₁.msg.flags = s.msg.flags ∧ s₁.msg.len = s.msg.len ∧ s₁.msg.err = s.msg.err ∧
      s₁.msg.cntTransferred = s.msg.cntTransferred + 1 := by
  have hne : s.msg.cntTransferred + 1 ≠ 0 := by omega
  refine ⟨{ incCnt (raiseIrq s) with msg := { (incCnt (raiseIrq s)).msg with
    buf := Function.update s.msg.buf s.msg.cntTransferred (irq.iicds.setWidth 8) } }, ?_,
    rfl, rfl, rfl, rfl, rfl⟩
  simp [i2cInterruptFunc, incCnt, rxInterrupt, hflags, hne, hlt]

/-- The wait loop of a read over its data interrupts, started when `n` bytes have arrived and
    the next one is being clocked in. -/
theorem waitLoop_rx_events (irqs rest : List BusIrq) (events : List RxEvent) (n : ℕ)
    (s : I2cState) (hirqs : irqs ≠ []) (hflags : s.msg.flags ≠ 0) (herr : s.msg.err = 0)
    (hcnt : s.msg.cntTransferred = n) (hlen : (n : ℤ) + irqs.length = s.msg.len)
    (hview : busView s.writes = ⟨true, events ++ rxBytes s.msg.len (n + 1)⟩) :
    ∃ s', waitLoop s (irqs ++ rest) = some (s', rest) ∧ s'.msg.err = 0 ∧
      busView s'.writes = ⟨false, events ++ rxBytes s.msg.len (n + irqs.length) ++ [.stop]⟩ := by
  induction irqs generalizing n s with
  | nil => exact absurd rfl hirqs
  | cons irq irqs ih =>
    simp only [List.length_cons, Nat.cast_add, Nat.cast_one] at hlen
    have hwait : Waiting s.msg := ⟨herr, by omega⟩
    rw [List.cons_append, waitLoop, if_pos hwait]
    by_cases hlast : irqs = []
    · -- the last byte has arrived
      subst hlast
      simp only [List.length_nil, Nat.cast_zero, zero_add] at hlen
      have hint := i2cInterruptFunc_last irq s (by omega) (by omega) (.inr (by omega))
      have hstop : s.msg.stop = 0x90 := if_neg hflags
      rw [hstop] at hint
      have hdone : ¬ Waiting (stopIic 0x90 (incCnt (raiseIrq s))).msg := fun h => h.2 (by
        show s.msg.cntTransferred + 1 = s.msg.len
        omega)
      refine ⟨stopIic 0x90 (incCnt (raiseIrq s)), ?_, herr, ?_⟩
      · rw [hint, List.nil_append, waitLoop_done hdone]
      · rw [busView_stopIic]
        show BusView.mk false ((busView s.writes).events ++ [.stop]) = _
        rw [hview]
        rfl
    · -- the next byte is the last one iff `n + 2 = len`
      have hpos : 0 < irqs.length := List.length_pos_of_ne_nil hlast
      obtain ⟨s₁, hint, hwrites, hflags₁, hlen₁, herr₁, hcnt₁⟩ :=
        i2cInterruptFunc_rx_next irq s hflags (by omega) (by omega)
      have hbusy : (busView s₁.writes).busy = true := by rw [hwrites, hview]
      have hcnt₂ : s₁.msg.cntTransferred = (n + 1 : ℕ) := by
        rw [hcnt₁, hcnt]
        push_cast
        rfl
      have hack : (!decide (isLastData s₁.msg)) = decide (((n + 1 : ℕ) : ℤ) + 1 < s.msg.len) := by
        rw [← hlen₁]
        exact not_isLastData hcnt₂ (by push_cast; omega)
      rw [hint]
      obtain ⟨s', hloop, herr', hview'⟩ := ih (n + 1) (resumeRx s₁) hlast
        (by rwa [resumeRx_msg, hflags₁]) (by rwa [resumeRx_msg, herr₁])
        (by rw [resumeRx_msg, hcnt₂])
        (by rw [resumeRx_msg, hlen₁]; push_cast; omega)
        (by rw [busView_resumeRx hbusy, hwrites, hview, hack, resumeRx_msg, hlen₁,
          rxBytes_succ _ (n + 1), List.append_assoc])
      refine ⟨s', hloop, herr', ?_⟩
      rw [hview', resumeRx_msg, hlen₁, List.length_cons, Nat.add_assoc, Nat.add_comm 1]

/-- A read of `len ≥ 1` bytes from a slave that acknowledges its address clocks in exactly
    `len` bytes from its START on, acknowledges all of them but the last, and then issues one
    STOP. Before its START it does nothing to an idle bus. -/
theorem doMasterRx_acknowledges (msg : I2cMsg) (hflags : msg.flags ≠ 0) (hlen : 1 ≤ msg.len)
    (iiccon : Word) (writes : List RegWrite) (ack : BusIrq) (hack : ¬ ack.noAck)
    (data : List BusIrq) (hdata : (data.length : ℤ) = msg.len) (rest : List BusIrq) :
    (∃ s, doMasterRx msg iiccon writes (ack :: data ++ rest) = some (0, s, rest) ∧
      busView s.writes = ⟨false, (busView (rxStart msg iiccon writes).writes).events ++
        ((List.range data.length).map fun k => .byte (decide (k + 1 < data.length))) ++
        [.stop]⟩) ∧
      (busBusy writes = false →
        (busView (rxStart msg iiccon writes).writes).events = (busView writes).events) := by
  refine ⟨?_, busView_rxStart_events msg iiccon⟩
  set s₀ := rxStart msg iiccon writes with hs₀
  have hbusy : (busView s₀.writes).busy = true := busView_rxStart_busy msg iiccon writes
  have hwait : Waiting s₀.msg := by
    refine ⟨rfl, ?_⟩
    rw [hs₀, rxStart, startMaster_msg]
    dsimp only
    omega
  have hint := i2cInterruptFunc_read_ack ack s₀ hflags rfl hack
  have hdecide : (!decide (isLastData (incCnt (raiseIrq s₀)).msg)) =
      decide (((0 : ℕ) : ℤ) + 1 < msg.len) :=
    not_isLastData rfl hlen
  have hview₁ : busView (resumeRx (incCnt (raiseIrq s₀))).writes =
      ⟨true, (busView s₀.writes).events ++ rxBytes msg.len 1⟩ := by
    rw [busView_resumeRx (s := incCnt (raiseIrq s₀)) hbusy, hdecide]
    rfl
  obtain ⟨s', hloop, herr, hview⟩ := waitLoop_rx_events data rest (busView s₀.writes).events 0
    (resumeRx (incCnt (raiseIrq s₀))) (by rintro rfl; simp at hdata; omega)
    (by rw [resumeRx_msg]; exact hflags) (by rw [resumeRx_msg]; rfl) (by rw [resumeRx_msg]; rfl)
    (by rw [resumeRx_msg, Nat.cast_zero, zero_add]; exact hdata)
    (by rw [hview₁, resumeRx_msg]; rfl)
  refine ⟨s', ?_, ?_⟩
  · rw [doMasterRx, ← rxStart, ← hs₀, List.cons_append, waitLoop, if_pos hwait, hint, hloop,
      Option.map_some, masterResult, herr]
    rfl
  · rw [hview, resumeRx_msg]
    show BusView.mk false (_ ++ rxBytes msg.len _ ++ _) = _
    rw [zero_add, rxBytes_of_length hdata]

/-- A read of three bytes. -/
theorem doMasterRx_acknowledges_three :
    ∃ s, doMasterRx ⟨0x50, 1, 3, -1, 0, fun _ => 0⟩ 0xbe []
        [⟨0, 0⟩, ⟨0, 1⟩, ⟨0, 2⟩, ⟨0, 3⟩] = some (0, s, []) ∧
      busView s.writes = ⟨false, [.byte true, .byte true, .byte false, .stop]⟩ :=
  (doMasterRx_acknowledges ⟨0x50, 1, 3, -1, 0, fun _ => 0⟩ (by decide) (by decide) 0xbe []
    ⟨0, 0⟩ (by decide) [⟨0, 1⟩, ⟨0, 2⟩, ⟨0, 3⟩] rfl []).1

end Jz2440.I2c
