import Jz2440.Spi.Gpio

/-!
# The SPI controller

Model of `SPISendByte` and `SPIRecvByte` of
`05th_spi_i2c_adc_jz2440_spi_controller_020_006/s3c2440_spi.c` and of channel 1 of
the controller. A write to `SPTDAT1` starts a shift. Bit 0 of `SPSTA1` reads 0
for a number of polls, which `polls` gives for every shift; then the byte has
reached the device and `SPRDAT1` holds the answer. `SPISendByte` polls before it
writes, `SPIRecvByte` after, so neither of them waits for the byte that a
`SPISendByte` before it has left behind.

* `handshake_of_fast`: if the bytes that nobody waits for take no time, the controller
  does for every program what the bit-banged functions do.
* `spiOps_handshake_iff_nil`: if every shift lasts for at least one poll, each of the flash
  and OLED operations disturbs a shift.
-/

namespace Jz2440.Spi

open Jz2440.Common

/-! ## The channel -/

/-- The channel and what the devices have seen. -/
structure SpiCtl where
  /-- the polls for which `SPSTA1` still reads 0; a shift is in progress iff it is not 0 -/
  left : ℕ
  /-- the byte in the shift register -/
  shifting : SpiEvent
  sprdat1 : Byte
  /-- the number of shifts so far -/
  started : ℕ
  seen : List SpiEvent
  /-- `SPTDAT1` was written while a shift was in progress -/
  overrun : Bool
  /-- a chip-select line was raised while a shift was in progress -/
  cut : Bool

/-- The channel after `SPIInit`. -/
def SpiCtl.init : SpiCtl := ⟨0, .asked, 0, 0, [], false, false⟩

section Channel

variable (polls : ℕ → ℕ) (reply : List SpiEvent → Byte)

/-- The shift is over: the devices see the byte, and theirs is in `SPRDAT1`. -/
def SpiCtl.complete (c : SpiCtl) : SpiCtl :=
  { c with left := 0, sprdat1 := reply c.seen, seen := c.seen ++ [c.shifting] }

/-- `SPTDAT1 = val`. A byte that is still being shifted is lost. -/
def writeSptdat1 (val : SpiEvent) (c : SpiCtl) : SpiCtl :=
  let c := { c with
    left := polls c.started, shifting := val, started := c.started + 1
    overrun := c.overrun || c.left != 0 }
  if c.left = 0 then c.complete reply else c

/-- `SPSTA1 & 1`. -/
def spsta1 (c : SpiCtl) : Bool × SpiCtl :=
  match c.left with
  | 0 => (true, c)
  | 1 => (false, c.complete reply)
  | left + 2 => (false, { c with left := left + 1 })

/-- `while (!(SPSTA1 & 1));`, which ends after at most `fuel` polls. -/
def pollRedy : ℕ → SpiCtl → SpiCtl
  | 0, c => c
  | fuel + 1, c =>
    match spsta1 reply c with
    | (true, c) => c
    | (false, c) => pollRedy fuel c

def waitRedy (c : SpiCtl) : SpiCtl := pollRedy reply (c.left + 1) c

/-- The controller as a bus: `SPISendByte` and `SPIRecvByte` (s3c2440_spi.c:25-36), and
    the lines that are set directly. -/
def ctlBus : SpiBus SpiCtl
  | .setCs dev val, c =>
    ((), { c with cut := c.cut || (val && c.left != 0), seen := c.seen ++ [.cs dev val] })
  | .setDc val, c => ((), { c with seen := c.seen ++ [.dc val] })
  | .send val, c => ((), writeSptdat1 polls reply (.byte val) (waitRedy reply c))
  | .recv, c =>
    let c := waitRedy reply (writeSptdat1 polls reply .asked c)
    (c.sprdat1, c)

/-- The channel when the shift in progress, if there is one, has ended. -/
def SpiCtl.finish (c : SpiCtl) : SpiCtl := if c.left = 0 then c else c.complete reply

/-- The loop ends with a poll that reads 1. -/
theorem waitRedy_eq (c : SpiCtl) : waitRedy reply c = c.finish reply := by
  unfold waitRedy
  suffices ∀ n (c : SpiCtl), c.left = n → pollRedy reply (n + 1) c = c.finish reply from
    this c.left c rfl
  intro n
  induction n with
  | zero =>
    intro c hc
    simp [pollRedy, spsta1, SpiCtl.finish, hc]
  | succ n ih =>
    intro c hc
    unfold pollRedy
    cases n with
    | zero => simp [spsta1, SpiCtl.finish, hc, pollRedy, SpiCtl.complete]
    | succ n =>
      simp only [spsta1, hc]
      rw [ih _ rfl]
      simp [SpiCtl.finish, hc, SpiCtl.complete]

theorem finish_left (c : SpiCtl) : (c.finish reply).left = 0 := by
  unfold SpiCtl.finish
  split
  · assumption
  · rfl

/-- Letting the shift end changes neither the flags nor the number of shifts. -/
theorem finish_frame (c : SpiCtl) : (c.finish reply).overrun = c.overrun ∧
    (c.finish reply).cut = c.cut ∧ (c.finish reply).started = c.started := by
  unfold SpiCtl.finish
  split
  · exact ⟨rfl, rfl, rfl⟩
  · exact ⟨rfl, rfl, rfl⟩

theorem writeSptdat1_frame (val : SpiEvent) (c : SpiCtl) :
    (writeSptdat1 polls reply val c).overrun = (c.overrun || c.left != 0) ∧
      (writeSptdat1 polls reply val c).cut = c.cut ∧
      (writeSptdat1 polls reply val c).started = c.started + 1 ∧
      (writeSptdat1 polls reply val c).left = polls c.started := by
  unfold writeSptdat1
  dsimp only
  split
  · exact ⟨rfl, rfl, rfl, Eq.symm ‹_›⟩
  · exact ⟨rfl, rfl, rfl, rfl⟩

/-- A byte that is written to the idle channel reaches the devices, and the answer is
    theirs at that point. -/
theorem finish_writeSptdat1 (val : SpiEvent) (c : SpiCtl) :
    ((writeSptdat1 polls reply val c).finish reply).seen = c.seen ++ [val] ∧
      ((writeSptdat1 polls reply val c).finish reply).sprdat1 = reply c.seen := by
  unfold writeSptdat1 SpiCtl.finish
  dsimp only
  split
  · exact ⟨rfl, rfl⟩
  · exact ⟨rfl, rfl⟩

end Channel

/-! ## The handshake -/

/-- A run of `p` over the controller keeps the handshake: `SPTDAT1` is not written and
    no chip-select line is raised during a shift, and the devices see the bits that they
    see with the bit-banged functions. -/
structure Handshake {α : Type} (di : List BitEvent → Bool) (level : Bool) (polls : ℕ → ℕ)
    (p : SpiProg α) : Prop where
  noOverrun : (p.run (ctlBus polls (replyOf di level)) .init).2.overrun = false
  noCut : (p.run (ctlBus polls (replyOf di level)) .init).2.cut = false
  sameBits : (bitsOf level ((p.run (ctlBus polls (replyOf di level)) .init).2.finish
    (replyOf di level)).seen).1 = (p.run (gpioBus di) ⟨false, level, []⟩).2.bits

/-! ### Bytes that nobody waits for -/

/-- What the controller has to do with the byte-wise events so far. -/
structure Track where
  shifts : ℕ
  /-- the last shift was started by `SPISendByte`, which does not poll afterwards -/
  unpolled : Bool
  /-- the shifts that another access to the bus did not wait for -/
  unwaited : List ℕ

/-- The last shift has to be over now. -/
def Track.need (t : Track) : List ℕ :=
  if t.unpolled then t.unwaited ++ [t.shifts - 1] else t.unwaited

def Track.step (t : Track) : SpiEvent → Track
  | .byte _ => { t with shifts := t.shifts + 1, unpolled := true }
  | .asked => ⟨t.shifts + 1, false, t.need⟩
  | .cs _ _ => { t with unwaited := t.need }
  | .dc _ => { t with unwaited := t.need }

def track (h : List SpiEvent) : Track := h.foldl Track.step ⟨0, false, []⟩

@[simp] theorem track_append (h : List SpiEvent) (e : SpiEvent) :
    track (h ++ [e]) = (track h).step e := by
  rw [track, List.foldl_append]
  rfl

/-- Some shift that nobody waited for takes time. -/
def Slow (polls : ℕ → ℕ) (h : List SpiEvent) : Prop := ∃ k ∈ (track h).unwaited, polls k ≠ 0

theorem mem_need {t : Track} {k : ℕ} (hk : k ∈ t.unwaited) : k ∈ t.need := by
  unfold Track.need
  split
  · exact List.mem_append_left _ hk
  · exact hk

theorem mem_unwaited_step {t : Track} {k : ℕ} (hk : k ∈ t.unwaited) (e : SpiEvent) :
    k ∈ (t.step e).unwaited := by
  cases e with
  | byte val => exact hk
  | asked => exact mem_need hk
  | cs dev val => exact mem_need hk
  | dc val => exact mem_need hk

theorem Slow.step {polls : ℕ → ℕ} {reply : List SpiEvent → Byte} (r : SpiReq) (h : List SpiEvent)
    (hslow : Slow polls h) : Slow polls (byteBus reply r h).2 := by
  obtain ⟨k, hk, hpos⟩ := hslow
  refine ⟨k, ?_, hpos⟩
  cases r <;> exact (track_append h _).symm ▸ mem_unwaited_step hk _

/-- The controller is in step with the byte-wise events `h`: nothing was disturbed, and
    when the shift in progress ends the devices have seen `h`. -/
structure InStep (polls : ℕ → ℕ) (reply : List SpiEvent → Byte) (c : SpiCtl)
    (h : List SpiEvent) : Prop where
  noOverrun : c.overrun = false
  noCut : c.cut = false
  started : c.started = (track h).shifts
  left : c.left = if (track h).unpolled then polls ((track h).shifts - 1) else 0
  seen : (c.finish reply).seen = h

section InStep

variable {polls : ℕ → ℕ} {reply : List SpiEvent → Byte} {c : SpiCtl} {h : List SpiEvent}

/-- The last shift is over, or the next access finds it in progress. -/
theorem InStep.left_or (hc : InStep polls reply c h) :
    c.left = 0 ∨ ∃ k ∈ (track h).need, polls k ≠ 0 := by
  by_cases hleft : c.left = 0
  · exact .inl hleft
  · right
    have hpoll := hc.left
    cases hun : (track h).unpolled with
    | false =>
      rw [hun] at hpoll
      exact absurd hpoll hleft
    | true =>
      rw [hun, if_pos rfl] at hpoll
      refine ⟨(track h).shifts - 1, ?_, by omega⟩
      rw [Track.need, hun, if_pos rfl]
      exact List.mem_append_right _ (List.mem_singleton_self _)

theorem InStep.seen_of_left (hc : InStep polls reply c h) (hleft : c.left = 0) : c.seen = h := by
  have hseen := hc.seen
  rwa [SpiCtl.finish, if_pos hleft] at hseen

/-- Setting a line while nothing is shifted. -/
theorem InStep.setLine (hc : InStep polls reply c h) (hleft : c.left = 0) (e : SpiEvent)
    (hshifts : ((track h).step e).shifts = (track h).shifts)
    (hunpolled : ((track h).step e).unpolled = (track h).unpolled) :
    InStep polls reply { c with cut := false, seen := c.seen ++ [e] } (h ++ [e]) := by
  refine ⟨hc.noOverrun, rfl, ?_, ?_, ?_⟩
  · rw [track_append, hshifts]
    exact hc.started
  · rw [track_append, hshifts, hunpolled]
    exact hc.left
  · rw [SpiCtl.finish, if_pos hleft, hc.seen_of_left hleft]

/-- A byte is sent after the one before it: `SPISendByte` polls REDY first. -/
theorem InStep.send (hc : InStep polls reply c h) (val : Byte) :
    InStep polls reply (writeSptdat1 polls reply (.byte val) (waitRedy reply c))
      (h ++ [.byte val]) := by
  obtain ⟨hover, hcut, hstarted⟩ := finish_frame reply c
  obtain ⟨hover', hcut', hstarted', hleft'⟩ :=
    writeSptdat1_frame polls reply (.byte val) (c.finish reply)
  rw [waitRedy_eq]
  refine ⟨?_, ?_, ?_, ?_, ?_⟩
  · rw [hover', hover, hc.noOverrun, finish_left]
    rfl
  · rw [hcut', hcut, hc.noCut]
  · rw [hstarted', hstarted, hc.started, track_append]
    rfl
  · rw [hleft', hstarted, hc.started, track_append]
    rfl
  · rw [(finish_writeSptdat1 polls reply (.byte val) _).1, hc.seen]

/-- A byte is asked for while nothing is shifted: it is waited for, and read. -/
theorem InStep.recv (hc : InStep polls reply c h) (hleft : c.left = 0) :
    InStep polls reply (waitRedy reply (writeSptdat1 polls reply .asked c)) (h ++ [.asked]) ∧
      (waitRedy reply (writeSptdat1 polls reply .asked c)).sprdat1 = reply h := by
  obtain ⟨hover, hcut, hstarted, -⟩ := writeSptdat1_frame polls reply .asked c
  obtain ⟨hover', hcut', hstarted'⟩ := finish_frame reply (writeSptdat1 polls reply .asked c)
  obtain ⟨hseen, hans⟩ := finish_writeSptdat1 polls reply .asked c
  rw [hc.seen_of_left hleft] at hseen hans
  have hidle := finish_left reply (writeSptdat1 polls reply .asked c)
  rw [waitRedy_eq]
  refine ⟨⟨?_, ?_, ?_, ?_, ?_⟩, hans⟩
  · rw [hover', hover, hc.noOverrun, hleft]
    rfl
  · rw [hcut', hcut, hc.noCut]
  · rw [hstarted', hstarted, hc.started, track_append]
    rfl
  · rw [hidle, track_append]
    rfl
  · rw [SpiCtl.finish, if_pos hidle, hseen]

theorem InStep.step (hc : InStep polls reply c h) (r : SpiReq) :
    (InStep polls reply (ctlBus polls reply r c).2 (byteBus reply r h).2 ∧
      (ctlBus polls reply r c).1 = (byteBus reply r h).1) ∨ Slow polls (byteBus reply r h).2 := by
  cases r with
  | setCs dev val =>
    rcases hc.left_or with hleft | hslow
    · have hcut : (c.cut || (val && c.left != 0)) = false := by simp [hc.noCut, hleft]
      refine .inl ⟨?_, rfl⟩
      show InStep polls reply { c with cut := _, seen := _ } _
      rw [hcut]
      exact hc.setLine hleft (.cs dev val) rfl rfl
    · exact .inr (by rw [Slow, byteBus, track_append]; exact hslow)
  | setDc val =>
    rcases hc.left_or with hleft | hslow
    · refine .inl ⟨?_, rfl⟩
      have hstep := hc.setLine hleft (.dc val) rfl rfl
      rwa [← hc.noCut] at hstep
    · exact .inr (by rw [Slow, byteBus, track_append]; exact hslow)
  | send val => exact .inl ⟨hc.send val, rfl⟩
  | recv =>
    rcases hc.left_or with hleft | hslow
    · exact .inl (hc.recv hleft)
    · exact .inr (by rw [Slow, byteBus, track_append]; exact hslow)

end InStep

/-- If no byte that is left unwaited takes time, the handshake is kept. -/
theorem handshake_of_fast {α : Type} (di : List BitEvent → Bool) (level : Bool) (polls : ℕ → ℕ)
    (p : SpiProg α) (hfast : ¬ Slow polls (p.run (byteBus (replyOf di level)) []).2) :
    Handshake di level polls p := by
  have hctl : InStep polls (replyOf di level) .init [] := ⟨rfl, rfl, rfl, rfl, rfl⟩
  have hgpio : SeesBits level ⟨false, level, []⟩ [] := rfl
  obtain ⟨hstep, -⟩ := (Prog.run_sim Slow.step (fun r _ _ hst => hst.step r) p hctl).resolve_right
    hfast
  obtain ⟨hbits, -⟩ := gpioBus_refines_byteBus di level p hgpio
  refine ⟨hstep.noOverrun, hstep.noCut, ?_⟩
  rw [hstep.seen]
  exact (congrArg Prod.fst hbits).symm

/-! ### Shifts that last -/

/-- A shift was disturbed. -/
def Violated (c : SpiCtl) : Prop := c.overrun = true ∨ c.cut = true

section Violated

variable {polls : ℕ → ℕ} {reply : List SpiEvent → Byte}

theorem Violated.finish {c : SpiCtl} (hc : Violated c) : Violated (c.finish reply) := by
  obtain ⟨hover, hcut, -⟩ := finish_frame reply c
  rwa [Violated, hover, hcut]

theorem Violated.writeSptdat1 {c : SpiCtl} (hc : Violated c) (val : SpiEvent) :
    Violated (writeSptdat1 polls reply val c) := by
  obtain ⟨hover, hcut, -⟩ := writeSptdat1_frame polls reply val c
  rw [Violated, hover, hcut]
  rcases hc with hc | hc
  · exact .inl (by rw [hc]; rfl)
  · exact .inr hc

/-- What is disturbed once stays so. -/
theorem Violated.step (r : SpiReq) (c : SpiCtl) (hc : Violated c) :
    Violated (ctlBus polls reply r c).2 := by
  cases r with
  | setCs dev val => exact hc.imp id fun hcut => by show (c.cut || _) = true; rw [hcut]; rfl
  | setDc val => exact hc
  | send val =>
    show Violated (Spi.writeSptdat1 polls reply (.byte val) (waitRedy reply c))
    rw [waitRedy_eq]
    exact hc.finish.writeSptdat1 (.byte val)
  | recv =>
    show Violated (waitRedy reply (Spi.writeSptdat1 polls reply .asked c))
    rw [waitRedy_eq]
    exact (hc.writeSptdat1 .asked).finish

/-- From every state, `p` disturbs a shift. -/
def Violates (polls : ℕ → ℕ) (reply : List SpiEvent → Byte) {α : Type} (p : SpiProg α) : Prop :=
  ∀ c, Violated (p.run (ctlBus polls reply) c).2

/-- From every state, `p` ends with a byte being shifted. -/
def LeavesShift (polls : ℕ → ℕ) (reply : List SpiEvent → Byte) {α : Type} (p : SpiProg α) : Prop :=
  ∀ c, 0 < (p.run (ctlBus polls reply) c).2.left

variable {α β : Type} {p : SpiProg α} {f : α → SpiProg β}

theorem Violated.bind {c : SpiCtl} (hp : Violated (p.run (ctlBus polls reply) c).2) :
    Violated ((p >>= f).run (ctlBus polls reply) c).2 := by
  rw [Prog.run_bind]
  exact Prog.run_stable Violated.step _ hp

theorem Violates.bind_left (hp : Violates polls reply p) : Violates polls reply (p >>= f) :=
  fun c => (hp c).bind

theorem Violates.bind_right (hf : ∀ a, Violates polls reply (f a)) :
    Violates polls reply (p >>= f) := by
  intro c
  rw [Prog.run_bind]
  exact hf _ _

theorem LeavesShift.bind_right (hf : ∀ a, LeavesShift polls reply (f a)) :
    LeavesShift polls reply (p >>= f) := by
  intro c
  rw [Prog.run_bind]
  exact hf _ _

theorem LeavesShift.bind (hp : LeavesShift polls reply p)
    (hf : ∀ a c, 0 < c.left → Violated ((f a).run (ctlBus polls reply) c).2) :
    Violates polls reply (p >>= f) := by
  intro c
  rw [Prog.run_bind]
  exact hf _ _ (hp c)

/-- `SPIRecvByte` writes without a poll before. -/
theorem violated_recv {c : SpiCtl} (hleft : 0 < c.left) :
    Violated (spiRecvByte.run (ctlBus polls reply) c).2 := by
  obtain ⟨hover, -⟩ := writeSptdat1_frame polls reply .asked c
  show Violated (waitRedy reply (Spi.writeSptdat1 polls reply .asked c))
  rw [waitRedy_eq]
  apply Violated.finish
  left
  rw [hover, Bool.or_eq_true, bne_iff_ne]
  exact .inr hleft.ne'

/-- Nor does anything wait before a chip-select line is raised. -/
theorem violated_raise {c : SpiCtl} (hleft : 0 < c.left) (dev : SpiDev) :
    Violated ((Prog.request (SpiReq.setCs dev true)).run (ctlBus polls reply) c).2 := by
  right
  show (c.cut || (true && c.left != 0)) = true
  rw [Bool.true_and, Bool.or_eq_true, bne_iff_ne]
  exact .inr hleft.ne'

end Violated

section Operations

variable {polls : ℕ → ℕ} {reply : List SpiEvent → Byte} (hpos : ∀ k, 0 < polls k)
include hpos

/-- `SPISendByte` returns with its byte being shifted. -/
theorem leavesShift_send (val : Byte) : LeavesShift polls reply (spiSendByte val) := by
  intro c
  obtain ⟨-, -, -, hleft⟩ := writeSptdat1_frame polls reply (.byte val) (waitRedy reply c)
  show 0 < (writeSptdat1 polls reply (.byte val) (waitRedy reply c)).left
  rw [hleft]
  exact hpos _

theorem leavesShift_sendAddr (addr : Word) : LeavesShift polls reply (spiFlashSendAddr addr) :=
  .bind_right fun _ => .bind_right fun _ => leavesShift_send hpos _

theorem violates_writeEnable (enable : Bool) :
    Violates polls reply (spiFlashWriteEnable enable) := by
  apply Violates.bind_right
  intro _
  apply (leavesShift_send hpos _).bind
  exact fun _ _ hleft => violated_raise hleft .flash

theorem violates_readStatusReg (cmd : Byte) : Violates polls reply (readStatusReg cmd) := by
  apply Violates.bind_right
  intro _
  apply (leavesShift_send hpos cmd).bind
  exact fun _ _ hleft => (violated_recv hleft).bind

theorem violates_readID : Violates polls reply spiFlashReadID := by
  apply Violates.bind_right
  intro _
  apply Violates.bind_right
  intro _
  apply (leavesShift_sendAddr hpos 0).bind
  exact fun _ _ hleft => (violated_recv hleft).bind

theorem violates_read (addr : Word) (len : ℕ) : Violates polls reply (spiFlashRead addr len) := by
  apply Violates.bind_right
  intro _
  apply Violates.bind_right
  intro _
  apply (leavesShift_sendAddr hpos addr).bind
  intro _ c hleft
  cases len with
  | zero => exact (violated_raise hleft .flash).bind
  | succ len => exact (violated_recv hleft).bind.bind

theorem violates_oledWrite (dc : Bool) (val : Byte) : Violates polls reply (oledWrite dc val) := by
  apply Violates.bind_right
  intro _
  apply Violates.bind_right
  intro _
  apply (leavesShift_send hpos val).bind
  exact fun _ _ hleft => (violated_raise hleft .oled).bind

/-- Every operation disturbs a shift. -/
theorem SpiOp.violates (fuel : ℕ) (op : SpiOp) : Violates polls reply (op.prog fuel) := by
  cases op with
  | readID => exact (violates_readID hpos).bind_left
  | read addr len => exact (violates_read hpos addr len).bind_left
  | program addr buf => exact (violates_writeEnable hpos true).bind_left
  | eraseSector addr => exact (violates_writeEnable hpos true).bind_left
  | readStatusReg1 => exact (violates_readStatusReg hpos 0x05).bind_left
  | readStatusReg2 => exact (violates_readStatusReg hpos 0x35).bind_left
  | writeStatusReg reg1 reg2 => exact (violates_writeEnable hpos true).bind_left
  | init => exact (violates_readStatusReg hpos 0x05).bind_left.bind_left
  | writeCmd cmd => exact (violates_oledWrite hpos false cmd).bind_left
  | writeDat dat => exact (violates_oledWrite hpos true dat).bind_left

theorem violates_spiOps (fuel : ℕ) (op : SpiOp) (ops : List SpiOp) :
    Violates polls reply (spiOps fuel (op :: ops)) :=
  (op.violates hpos fuel).bind_left

end Operations

/-- When every shift lasts for at least one poll, the handshake is kept by the empty
    sequence of operations only. -/
theorem spiOps_handshake_iff_nil (di : List BitEvent → Bool) (level : Bool) (polls : ℕ → ℕ)
    (hpos : ∀ k, 0 < polls k) (fuel : ℕ) (ops : List SpiOp) :
    Handshake di level polls (spiOps fuel ops) ↔ ops = [] := by
  constructor
  · rintro ⟨hover, hcut, -⟩
    cases ops with
    | nil => rfl
    | cons op ops =>
      rcases violates_spiOps hpos fuel op ops .init with h | h
      · rw [hover] at h
        exact absurd h Bool.false_ne_true
      · rw [hcut] at h
        exact absurd h Bool.false_ne_true
  · rintro rfl
    exact handshake_of_fast di level polls _ fun ⟨k, hk, _⟩ => absurd hk List.not_mem_nil

/-- No operation at all, and the identification of the flash followed by a byte for the display. -/
theorem spiOps_handshake_readID :
    Handshake (fun _ => true) false (fun _ => 1) (spiOps 1 []) ∧
      ¬ Handshake (fun _ => true) false (fun _ => 1) (spiOps 1 [.readID, .writeDat 0x55]) := by
  constructor
  · exact (spiOps_handshake_iff_nil _ _ _ (fun _ => Nat.one_pos) 1 []).mpr rfl
  · exact (spiOps_handshake_iff_nil _ _ _ (fun _ => Nat.one_pos) 1 _).not.mpr (List.cons_ne_nil _ _)

/-- Switching the display off raises the chip-select line during the only shift. -/
theorem oledWriteCmd_cuts_shift :
    (∀ k, 0 < (fun _ : ℕ => 1) k) ∧
      ¬ Handshake (fun _ => true) false (fun _ => 1) (spiOps 1 [.writeCmd 0xae]) := by
  refine ⟨fun _ => Nat.one_pos, fun h => ?_⟩
  have hcut := h.noCut
  revert hcut
  decide

end Jz2440.Spi
