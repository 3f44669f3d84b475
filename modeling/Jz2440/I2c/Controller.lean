import Jz2440.Common.Bytes

/-!
# The interrupt-driven I2C controller

Model of `i2c/s3c2440_i2c_controller.c` in
`hard_driver/first_hard/022_i2c_019/005th_i2c_ok_019_007`.

A transfer is started by `do_master_tx` or `do_master_rx`, which write the
address byte and then wait in an empty loop. All further work is done by
`i2c_interrupt_func`, once per bus interrupt, on the message that
`p_cur_msg` points to.

* The registers that the code only reads at interrupt time (`IICSTAT`,
  `IICDS`) are part of the interrupt: `BusIrq`.
* `IICCON` is part of the state. The controller sets its bit 4 when it raises
  an interrupt; the handler resumes the bus by clearing it.
* `writes` records every register write in order. The code does not read it.
* `buf` is a function on all offsets, so a store outside the message shows.
* `printf` and `delay` have no effect on this state and are left out.
-/

namespace Jz2440.I2c

open Jz2440.Common

/-- `struct i2c_msg` (i2c/i2c_controller.h:5-12), with the memory `buf` points
    to, indexed by the offset from `buf`. -/
structure I2cMsg where
  addr : Word
  flags : ℤ
  len : ℤ
  cntTransferred : ℤ
  err : ℤ
  buf : ℤ → Byte

/-- A write to one of the controller's registers. -/
inductive RegWrite
  | iiccon (v : Word)
  | iicstat (v : Word)
  | iicds (v : Word)
  deriving DecidableEq

/-- The current message `*p_cur_msg`, the register `IICCON`, and the register
    writes so far. -/
structure I2cState where
  msg : I2cMsg
  iiccon : Word
  writes : List RegWrite

/-- One bus interrupt: what `IICSTAT` and `IICDS` read while it is served. -/
structure BusIrq where
  iicstat : Word
  iicds : Word

/-- `IICSTAT` bit 0: the last byte was not acknowledged. -/
def BusIrq.noAck (irq : BusIrq) : Prop := irq.iicstat &&& (1#32 <<< 0) ≠ 0

instance (irq : BusIrq) : Decidable irq.noAck := inferInstanceAs (Decidable (_ ≠ _))

/-! ## Register accesses -/

/-- `IICCON = v`. -/
def setIiccon (v : Word) (s : I2cState) : I2cState :=
  { s with iiccon := v, writes := s.writes ++ [.iiccon v] }

/-- `IICSTAT = v`. -/
def setIicstat (v : Word) (s : I2cState) : I2cState :=
  { s with writes := s.writes ++ [.iicstat v] }

/-- `IICDS = v`. -/
def setIicds (v : Word) (s : I2cState) : I2cState :=
  { s with writes := s.writes ++ [.iicds v] }

@[simp] theorem setIiccon_msg (v : Word) (s : I2cState) : (setIiccon v s).msg = s.msg := rfl
@[simp] theorem setIicstat_msg (v : Word) (s : I2cState) : (setIicstat v s).msg = s.msg := rfl
@[simp] theorem setIicds_msg (v : Word) (s : I2cState) : (setIicds v s).msg = s.msg := rfl

/-- `IICCON &= ~(1<<4)`: clear the interrupt and resume the bus. -/
def resumeIic (s : I2cState) : I2cState := setIiccon (s.iiccon &&& ~~~(1#32 <<< 4)) s

/-- `resume_iic_with_ack` (s3c2440_i2c_controller.c:14-20). -/
def resumeIicWithAck (s : I2cState) : I2cState :=
  let iiccon := s.iiccon ||| (1#32 <<< 7)
  let iiccon := iiccon &&& ~~~(1#32 <<< 4)
  setIiccon iiccon s

/-- `resume_iic_without_ack` (s3c2440_i2c_controller.c:22-27). -/
def resumeIicWithoutAck (s : I2cState) : I2cState :=
  setIiccon (s.iiccon &&& ~~~((1#32 <<< 7) ||| (1#32 <<< 4))) s

@[simp] theorem resumeIic_msg (s : I2cState) : (resumeIic s).msg = s.msg := rfl
@[simp] theorem resumeIicWithAck_msg (s : I2cState) : (resumeIicWithAck s).msg = s.msg := rfl
@[simp] theorem resumeIicWithoutAck_msg (s : I2cState) : (resumeIicWithoutAck s).msg = s.msg := rfl

/-! ## The interrupt handler -/

/-- `isLastData` (s3c2440_i2c_controller.c:6-12). -/
def isLastData (msg : I2cMsg) : Prop := msg.cntTransferred = msg.len - 1

instance (msg : I2cMsg) : Decidable (isLastData msg) := inferInstanceAs (Decidable (_ = _))

/-- The resume at the end of the read branch, with an ACK unless the byte that
    comes next is the last one (s3c2440_i2c_controller.c:105-113, 125-133). -/
def resumeRx (s : I2cState) : I2cState :=
  if isLastData s.msg then resumeIicWithoutAck s else resumeIicWithAck s

@[simp] theorem resumeRx_msg (s : I2cState) : (resumeRx s).msg = s.msg := by
  unfold resumeRx; split <;> rfl

/-- `IICSTAT = stop; IICCON &= ~(1<<4)`: issue a STOP. -/
def stopIic (stop : Word) (s : I2cState) : I2cState := resumeIic (setIicstat stop s)

@[simp] theorem stopIic_msg (stop : Word) (s : I2cState) : (stopIic stop s).msg = s.msg := rfl

/-- The branch for a missing ACK of the address: STOP and `err = -1`. -/
def failIic (stop : Word) (s : I2cState) : I2cState :=
  let s := stopIic stop s
  { s with msg := { s.msg with err := -1 } }

/-- The write branch of the handler (s3c2440_i2c_controller.c:44-79);
    `cnt_transferred` has already been incremented. -/
def txInterrupt (irq : BusIrq) (s : I2cState) : I2cState :=
  if s.msg.cntTransferred = 0 ∧ irq.noAck then failIic 0xd0 s
  else if s.msg.cntTransferred < s.msg.len then
    resumeIic (setIicds ((s.msg.buf s.msg.cntTransferred).setWidth 32) s)
  else stopIic 0xd0 s

/-- The read branch of the handler (s3c2440_i2c_controller.c:80-141);
    `cnt_transferred` has already been incremented. -/
def rxInterrupt (irq : BusIrq) (s : I2cState) : I2cState :=
  if s.msg.cntTransferred = 0 then
    if irq.noAck then failIic 0x90 s else resumeRx s
  else if s.msg.cntTransferred < s.msg.len then
    let index := s.msg.cntTransferred - 1
    resumeRx { s with msg :=
      { s.msg with buf := Function.update s.msg.buf index (irq.iicds.setWidth 8) } }
  else stopIic 0x90 s

/-- `p_cur_msg->cnt_transferred++`. -/
def incCnt (s : I2cState) : I2cState :=
  { s with msg := { s.msg with cntTransferred := s.msg.cntTransferred + 1 } }

/-- `i2c_interrupt_func` (s3c2440_i2c_controller.c:30-142). -/
def i2cInterruptFunc (irq : BusIrq) (s : I2cState) : I2cState :=
  let s := incCnt s
  if s.msg.flags = 0 then txInterrupt irq s else rxInterrupt irq s

/-- The controller raises an interrupt: bit 4 of `IICCON` reads 1. -/
def raiseIrq (s : I2cState) : I2cState := { s with iiccon := s.iiccon ||| (1#32 <<< 4) }

@[simp] theorem raiseIrq_msg (s : I2cState) : (raiseIrq s).msg = s.msg := rfl

/-! ## Starting a message and waiting for its end -/

/-- The start of `do_master_tx` and `do_master_rx` up to the wait loop:
    `ds` is the address byte and `stat` starts the transfer. -/
def startMaster (ds stat : Word) (msg : I2cMsg) (iiccon : Word) (writes : List RegWrite) :
    I2cState :=
  let s : I2cState := ⟨{ msg with cntTransferred := -1, err := 0 }, iiccon, writes⟩
  let s := setIiccon (s.iiccon ||| (1#32 <<< 7)) s
  let s := setIicstat (1#32 <<< 4) s
  let s := setIicds ds s
  setIicstat stat s

@[simp] theorem startMaster_msg (ds stat : Word) (msg : I2cMsg) (iiccon : Word)
    (writes : List RegWrite) :
    (startMaster ds stat msg iiccon writes).msg = { msg with cntTransferred := -1, err := 0 } :=
  rfl

/-- The condition `!msg->err && msg->cnt_transferred != msg->len` of the wait
    loops (s3c2440_i2c_controller.c:187, 217). -/
def Waiting (msg : I2cMsg) : Prop := msg.err = 0 ∧ msg.cntTransferred ≠ msg.len

instance (msg : I2cMsg) : Decidable (Waiting msg) := inferInstanceAs (Decidable (_ ∧ _))

/-- `while (!msg->err && msg->cnt_transferred != msg->len);` with the bus
    interrupts that arrive while it spins. `none` means that the interrupts are
    used up and the loop still spins; otherwise the interrupts that are left
    are returned too. -/
def waitLoop : I2cState → List BusIrq → Option (I2cState × List BusIrq)
  | s, [] => if Waiting s.msg then none else some (s, [])
  | s, irq :: irqs =>
    if Waiting s.msg then waitLoop (i2cInterruptFunc irq (raiseIrq s)) irqs
    else some (s, irq :: irqs)

theorem waitLoop_done {s : I2cState} (h : ¬ Waiting s.msg) (irqs : List BusIrq) :
    waitLoop s irqs = some (s, irqs) := by
  cases irqs <;> rw [waitLoop, if_neg h]

/-- `if (msg->err) return -1; else return 0;`. -/
def masterResult (msg : I2cMsg) : ℤ := if msg.err ≠ 0 then -1 else 0

/-- `do_master_tx` (s3c2440_i2c_controller.c:165-193): the return value, the
    state afterwards and the interrupts that were not needed. -/
def doMasterTx (msg : I2cMsg) (iiccon : Word) (writes : List RegWrite) (irqs : List BusIrq) :
    Option (ℤ × I2cState × List BusIrq) :=
  (waitLoop (startMaster (msg.addr <<< 1) 0xf0 msg iiccon writes) irqs).map fun r =>
    (masterResult r.1.msg, r.1, r.2)

/-- `do_master_rx` (s3c2440_i2c_controller.c:195-223). -/
def doMasterRx (msg : I2cMsg) (iiccon : Word) (writes : List RegWrite) (irqs : List BusIrq) :
    Option (ℤ × I2cState × List BusIrq) :=
  (waitLoop (startMaster ((msg.addr <<< 1) ||| (1#32 <<< 0)) 0xb0 msg iiccon writes) irqs).map
    fun r => (masterResult r.1.msg, r.1, r.2)

end Jz2440.I2c
