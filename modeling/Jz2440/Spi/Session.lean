import Jz2440.Spi.FlashChip
import Jz2440.Spi.Screen

/-!
# The flash and the OLED on one bus

The flash and the OLED of `023_spi_020/04th_spi_i2c_adc_jz2440_ok_020_005` share the clock and the
data lines; only their select lines tell them apart. `Board` has both, `main` (main.c:12-57) calls
the functions of `spi_flash.c` and `oled.c` in turn.

`Desk` says what such calls are for: a memory of bytes and a picture. No call reads the picture, so
that a lost or a misplaced byte would never be noticed by the code.

* `Prog.Only`: the functions for one device do not touch the select line of the other one;
  `run_of_flashOnly` and `run_of_sends` follow.
* `Represents.call`: one call on the board is that call on the desk.
* `calls_refine`: so is any sequence of calls, from any state of the two devices before they are
  initialised.
-/

namespace Jz2440.Spi

open Jz2440.Common

/-! ## The board -/

/-- The OLED with its lines. -/
structure Oled where
  dc : Bool
  cs : Bool
  panel : Panel

/-- The OLED takes the bytes that are sent while its select line is low. -/
def Oled.step (pk : PanelKind) (r : SpiReq) (o : Oled) : Oled :=
  match r with
  | .setCs .oled val => { o with cs := val }
  | .setDc val => { o with dc := val }
  | .send val =>
    if o.cs then o
    else { o with panel := o.panel.step pk (if o.dc then .dat val else .cmd val) }
  | _ => o

/-- The two devices on the bus. -/
structure Board where
  flash : OnBus FlashCore
  oled : Oled

/-- Both devices see every request; only the flash answers. -/
def boardBus (kind : FlashKind) (pk : PanelKind) : SpiBus Board := fun r s =>
  ((kind.chip.bus r s.flash).1, ⟨(kind.chip.bus r s.flash).2, s.oled.step pk r⟩)

/-! ## Which lines the functions touch -/

/-- A request of the functions of `spi_flash.c`. -/
def FlashReq : SpiReq → Prop
  | .setCs .oled _ => False
  | .setDc _ => False
  | _ => True

/-- A request of the functions of `oled.c`. -/
def OledReq : SpiReq → Prop
  | .setCs .flash _ => False
  | .recv => False
  | _ => True

section OnlyFlash

theorem only_flashSetCs (val : Bool) : (spiFlashSetCs val).Only FlashReq :=
  Prog.only_request trivial

theorem only_flashSend (val : Byte) : (spiSendByte val).Only FlashReq := Prog.only_request trivial

theorem only_flashRecv : spiRecvByte.Only FlashReq := Prog.only_request trivial

theorem only_sendBytes (l : List Byte) : (sendBytes l).Only FlashReq := by
  induction l with
  | nil => exact Prog.only_pure _
  | cons b l ih => exact (only_flashSend b).bind fun _ => ih

theorem only_recvBytes (n : ℕ) : (recvBytes n).Only FlashReq := by
  induction n with
  | zero => exact Prog.only_pure _
  | succ n ih => exact only_flashRecv.bind fun _ => ih.bind fun _ => Prog.only_pure _

theorem only_sendAddr (addr : Word) : (spiFlashSendAddr addr).Only FlashReq :=
  only_sendBytes (addrBytes addr)

theorem only_writeEnable (enable : Bool) : (spiFlashWriteEnable enable).Only FlashReq :=
  (only_flashSetCs false).bind fun _ => (only_flashSend _).bind fun _ => only_flashSetCs true

theorem only_readStatusReg (cmd : Byte) : (readStatusReg cmd).Only FlashReq :=
  (only_flashSetCs false).bind fun _ => (only_flashSend cmd).bind fun _ =>
    only_flashRecv.bind fun _ => (only_flashSetCs true).bind fun _ => Prog.only_pure _

theorem only_waitWhenBusy (fuel : ℕ) : (spiFlashWaitWhenBusy fuel).Only FlashReq := by
  induction fuel with
  | zero => exact Prog.only_pure _
  | succ fuel ih =>
    refine (only_readStatusReg 0x05).bind fun val => ?_
    split
    · exact ih
    · exact Prog.only_pure _

theorem only_writeStatusReg (fuel : ℕ) (reg1 reg2 : Byte) :
    (spiFlashWriteStatusReg fuel reg1 reg2).Only FlashReq :=
  (only_writeEnable true).bind fun _ => (only_flashSetCs false).bind fun _ =>
    (only_flashSend _).bind fun _ => (only_flashSend _).bind fun _ =>
      (only_flashSend _).bind fun _ => (only_flashSetCs true).bind fun _ => only_waitWhenBusy fuel

theorem only_init (fuel : ℕ) : (spiFlashInit fuel).Only FlashReq := by
  have hclear : ∀ mask1 mask2 : Byte, Prog.Only FlashReq (do
      let reg1 ← spiFlashReadStatusReg1
      let reg2 ← spiFlashReadStatusReg2
      spiFlashWriteStatusReg fuel (reg1 &&& mask1) (reg2 &&& mask2)) := fun mask1 mask2 =>
    (only_readStatusReg 0x05).bind fun _ => (only_readStatusReg 0x35).bind fun _ =>
      only_writeStatusReg fuel _ _
  refine (hclear _ _).bind fun done => ?_
  cases done with
  | none => exact Prog.only_pure _
  | some u => exact hclear _ _

theorem only_eraseSector (fuel : ℕ) (addr : Word) :
    (spiFlashEraseSector fuel addr).Only FlashReq :=
  (only_writeEnable true).bind fun _ => (only_flashSetCs false).bind fun _ =>
    (only_flashSend _).bind fun _ => (only_sendAddr addr).bind fun _ =>
      (only_flashSetCs true).bind fun _ => only_waitWhenBusy fuel

theorem only_program (fuel : ℕ) (addr : Word) (buf : List Byte) :
    (spiFlashProgram fuel addr buf).Only FlashReq :=
  (only_writeEnable true).bind fun _ => (only_flashSetCs false).bind fun _ =>
    (only_flashSend _).bind fun _ => (only_sendAddr addr).bind fun _ =>
      (only_sendBytes buf).bind fun _ => (only_flashSetCs true).bind fun _ => only_waitWhenBusy fuel

theorem only_read (addr : Word) (len : ℕ) : (spiFlashRead addr len).Only FlashReq :=
  (only_flashSetCs false).bind fun _ => (only_flashSend _).bind fun _ =>
    (only_sendAddr addr).bind fun _ => (only_recvBytes len).bind fun _ =>
      (only_flashSetCs true).bind fun _ => Prog.only_pure _

theorem only_readID : spiFlashReadID.Only FlashReq :=
  (only_flashSetCs false).bind fun _ => (only_flashSend _).bind fun _ =>
    (only_sendAddr 0).bind fun _ => only_flashRecv.bind fun _ => only_flashRecv.bind fun _ =>
      (only_flashSetCs true).bind fun _ => Prog.only_pure _

end OnlyFlash

section OnlyOled

theorem only_oledWrite (dc : Bool) (val : Byte) : (oledWrite dc val).Only OledReq := by
  have hdc : ∀ v, (oledSetDc v).Only OledReq := fun _ => Prog.only_request trivial
  have hcs : ∀ v, (oledSetCs v).Only OledReq := fun _ => Prog.only_request trivial
  have hsend : (spiSendByte val).Only OledReq := Prog.only_request trivial
  exact (hdc dc).bind fun _ => (hcs false).bind fun _ => hsend.bind fun _ =>
    (hcs true).bind fun _ => hdc true

theorem only_oledWriteCmds (l : List Byte) : (oledWriteCmds l).Only OledReq := by
  induction l with
  | nil => exact Prog.only_pure _
  | cons b l ih => exact (only_oledWrite false b).bind fun _ => ih

theorem only_oledWriteDats (l : List Byte) : (oledWriteDats l).Only OledReq := by
  induction l with
  | nil => exact Prog.only_pure _
  | cons b l ih => exact (only_oledWrite true b).bind fun _ => ih

theorem only_oledSetPos (page col : Int32) : (oledSetPos page col).Only OledReq :=
  (only_oledWrite false _).bind fun _ => (only_oledWrite false _).bind fun _ =>
    only_oledWrite false _

theorem only_oledPutChar (page col : Int32) (c : Byte) : (oledPutChar page col c).Only OledReq :=
  (only_oledSetPos _ _).bind fun _ => (only_oledWriteDats _).bind fun _ =>
    (only_oledSetPos _ _).bind fun _ => only_oledWriteDats _

theorem only_oledPrint (page col : Int32) (str : List Byte) :
    (oledPrint page col str).Only OledReq := by
  induction str generalizing page col with
  | nil => exact Prog.only_pure _
  | cons c str ih =>
    refine (only_oledPutChar page col c).bind fun _ => ?_
    dsimp only
    split
    · exact ih _ _
    · exact ih _ _

theorem only_oledClearPage (page : Int32) : (oledClearPage page).Only OledReq :=
  (only_oledSetPos page 0).bind fun _ => only_oledWriteDats _

theorem only_oledClearLoop (n : ℕ) (page : Int32) : (oledClearLoop n page).Only OledReq := by
  induction n generalizing page with
  | zero => exact Prog.only_pure _
  | succ n ih => exact (only_oledClearPage page).bind fun _ => ih (page + 1)

theorem only_oledInit : oledInit.Only OledReq :=
  (only_oledWriteCmds _).bind fun _ => (only_oledWriteCmds _).bind fun _ =>
    (only_oledClearLoop 8 0).bind fun _ => only_oledWrite false _

end OnlyOled

/-! ## One device at a time -/

section Run

variable {kind : FlashKind} {pk : PanelKind} {α : Type}

/-- A function for the flash does on the board what it does on the flash alone. -/
theorem run_of_flashOnly {p : SpiProg α} (hp : p.Only FlashReq) {s : Board}
    (hcs : s.oled.cs = true) : p.run (boardBus kind pk) s =
      ((p.run kind.chip.bus s.flash).1, ⟨(p.run kind.chip.bus s.flash).2, s.oled⟩) := by
  have hstep : ∀ r (t : Board) f, FlashReq r → t = ⟨f, s.oled⟩ →
      (boardBus kind pk r t).2 = ⟨(kind.chip.bus r f).2, s.oled⟩ ∧
        (boardBus kind pk r t).1 = (kind.chip.bus r f).1 := by
    rintro r _ f hr rfl
    have holed : s.oled.step pk r = s.oled := by
      cases r with
      | setCs dev val =>
        cases dev with
        | flash => rfl
        | oled => exact hr.elim
      | setDc val => exact hr.elim
      | send val => exact if_pos hcs
      | recv => rfl
    refine ⟨?_, rfl⟩
    rw [boardBus, holed]
  have hrun := hp.run_refines (boardBus kind pk) kind.chip.bus (fun t f => t = ⟨f, s.oled⟩) hstep
    (show s = ⟨s.flash, s.oled⟩ from rfl)
  exact Prod.ext hrun.2 hrun.1

/-- The OLED after some byte-wise events, if its lines were high before. -/
def oledAfter (pk : PanelKind) (panel : Panel) (h : List SpiEvent) : Oled :=
  ⟨(oledLines h).dc, (oledLines h).cs, (oledLines h).got.foldl (Panel.step pk) panel⟩

theorem oledAfter_step (panel : Panel) (r : SpiReq) (h : List SpiEvent) :
    oledAfter pk panel (byteBus (fun _ => 0) r h).2 = (oledAfter pk panel h).step pk r := by
  have happend : ∀ e, oledLines (h ++ [e]) = (oledLines h).step e := fun e => by
    rw [oledLines, List.foldl_append]
    rfl
  cases r with
  | setCs dev val =>
    cases dev <;> simp only [byteBus, oledAfter, happend, OledLines.step, Oled.step]
  | setDc val => simp only [byteBus, oledAfter, happend, OledLines.step, Oled.step]
  | send val =>
    by_cases hcs : (oledLines h).cs = true
    · simp [byteBus, oledAfter, happend, OledLines.step, Oled.step, hcs]
    · simp [byteBus, oledAfter, happend, OledLines.step, Oled.step, hcs]
  | recv => simp only [byteBus, oledAfter, happend, OledLines.step, Oled.step]

/-- A function for the OLED leaves the flash alone, and the panel gets its bytes. -/
theorem run_of_sends {p : SpiProg Unit} {l : List OledByte} (hp : p.Only OledReq)
    (hsends : Sends p l) {f : OnBus FlashCore} (hsel : f.selected = false) (panel : Panel) :
    p.run (boardBus kind pk) ⟨f, ⟨true, true, panel⟩⟩ =
      ((), ⟨f, ⟨true, true, l.foldl (Panel.step pk) panel⟩⟩) := by
  have hstep : ∀ r (t : Board) h, OledReq r → t = ⟨f, oledAfter pk panel h⟩ →
      (boardBus kind pk r t).2 = ⟨f, oledAfter pk panel (byteBus (fun _ => 0) r h).2⟩ ∧
        (boardBus kind pk r t).1 = (byteBus (fun _ => 0) r h).1 := by
    rintro r _ h hr rfl
    rw [oledAfter_step]
    cases r with
    | setCs dev val =>
      cases dev with
      | flash => exact hr.elim
      | oled => exact ⟨rfl, rfl⟩
    | setDc val => exact ⟨rfl, rfl⟩
    | send val =>
      have hflash : (kind.chip.bus (.send val) f).2 = f := if_neg (by simp [hsel])
      refine ⟨?_, rfl⟩
      rw [boardBus, hflash]
    | recv => exact hr.elim
  have hrun := hp.run_refines (boardBus kind pk) (byteBus fun _ => 0)
    (fun t h => t = ⟨f, oledAfter pk panel h⟩) hstep
    (show (⟨f, ⟨true, true, panel⟩⟩ : Board) = ⟨f, oledAfter pk panel []⟩ from rfl)
  rw [oledAfter, hsends (fun _ => 0) [] [] rfl] at hrun
  exact Prod.ext rfl hrun.1

end Run

/-! ## What the calls are for -/

/-- A call of one of the functions by `main`. -/
inductive Call
  | flashInit
  | readID
  | eraseSector (addr : Word)
  | program (addr : Word) (buf : List Byte)
  | read (addr : Word) (len : ℕ)
  | oledInit
  | print (page col : ℕ) (str : Printable)
  | clearPage (page : ℕ)

/-- The call as a program, with the bytes that it returns. -/
def Call.prog (fuel : ℕ) : Call → SpiProg (Option (List Byte))
  | flashInit => do
    let done ← spiFlashInit fuel
    return done.map fun _ => []
  | readID => do
    let id ← spiFlashReadID
    return some [id.1, id.2]
  | eraseSector addr => do
    let done ← spiFlashEraseSector fuel addr
    return done.map fun _ => []
  | program addr buf => do
    let done ← spiFlashProgram fuel addr buf
    return done.map fun _ => []
  | read addr len => do
    let buf ← spiFlashRead addr len
    return some buf
  | oledInit => do
    Spi.oledInit
    return some []
  | print page col str => do
    oledPrint (.ofNat page) (.ofNat col) str.bytes
    return some []
  | clearPage page => do
    oledClearPage (.ofNat page)
    return some []

/-- A sequence of calls, with what each of them returns. -/
def callsProg (fuel : ℕ) : List Call → SpiProg (Option (List (List Byte)))
  | [] => return some []
  | call :: calls => do
    match ← call.prog fuel with
    | none => return none
    | some out =>
      let rest ← callsProg fuel calls
      return rest.map fun outs => out :: outs

/-- A memory and a picture, and which of the devices are initialised. -/
structure Desk where
  mem : ℕ → Byte
  pic : Picture
  flashUp : Bool
  oledUp : Bool

/-- What a call does. -/
def Desk.call (d : Desk) : Call → Desk
  | .flashInit => { d with flashUp := true }
  | .readID => d
  | .eraseSector addr => { d with mem := eraseSector addr.toNat d.mem }
  | .program addr buf => { d with mem := programPage (fun _ => false) addr.toNat buf d.mem }
  | .read _ _ => d
  | .oledInit => { d with pic := Picture.blank, oledUp := true }
  | .print page col str => { d with pic := d.pic.print (8 * page + col / 8) str.bytes }
  | .clearPage page => { d with pic := d.pic.clearPage page }

/-- What a call returns. -/
def Desk.result (kind : FlashKind) (d : Desk) : Call → List Byte
  | .readID => [kind.mid, kind.did]
  | .read addr len => (List.range len).map fun k => d.mem (addr.toNat + k)
  | _ => []

/-- What a sequence of calls returns. -/
def Desk.results (kind : FlashKind) : Desk → List Call → List (List Byte)
  | _, [] => []
  | d, call :: calls => d.result kind call :: (d.call call).results kind calls

/-- A call is in range: addresses have 24 bits, texts have their place on the display. Before they
    are initialised, the flash is only read and the OLED is left alone. -/
def Desk.Allows (d : Desk) : Call → Prop
  | .flashInit => True
  | .readID => True
  | .eraseSector addr => d.flashUp = true ∧ addr.toNat < 2 ^ 24
  | .program addr _ => d.flashUp = true ∧ addr.toNat < 2 ^ 24
  | .read addr _ => addr.toNat < 2 ^ 24
  | .oledInit => True
  | .print page col str => d.oledUp = true ∧ 2 ∣ page ∧ page ≤ 6 ∧ 8 ∣ col ∧ col ≤ 120 ∧
      col + 8 * str.bytes.length ≤ 64 * (8 - page)
  | .clearPage page => d.oledUp = true ∧ page < 8

instance (d : Desk) : (call : Call) → Decidable (d.Allows call)
  | .flashInit => .isTrue trivial
  | .readID => .isTrue trivial
  | .eraseSector _ => inferInstanceAs (Decidable (_ ∧ _))
  | .program _ _ => inferInstanceAs (Decidable (_ ∧ _))
  | .read _ _ => inferInstanceAs (Decidable (_ < _))
  | .oledInit => .isTrue trivial
  | .print _ _ _ => inferInstanceAs (Decidable (_ ∧ _))
  | .clearPage _ => inferInstanceAs (Decidable (_ ∧ _))

/-- All calls of a sequence are in range. -/
def Desk.AllowsAll : Desk → List Call → Prop
  | _, [] => True
  | d, call :: calls => d.Allows call ∧ (d.call call).AllowsAll calls

instance decidableAllowsAll (d : Desk) : (calls : List Call) → Decidable (d.AllowsAll calls)
  | [] => .isTrue trivial
  | call :: calls =>
    have := decidableAllowsAll (d.call call) calls
    inferInstanceAs (Decidable (_ ∧ _))

/-- The board is in the state that the desk describes. The select lines are high. -/
structure Represents (kind : FlashKind) (s : Board) (d : Desk) : Prop where
  selected : s.flash.selected = false
  idle : s.flash.core.busy = 0
  unlocked : s.flash.core.locked kind = false
  bytes : s.flash.core.mem = d.mem
  unprotected : d.flashUp = true → s.flash.core.Unprotected kind
  cs : s.oled.cs = true
  dc : d.oledUp = true → s.oled.dc = true
  ready : d.oledUp = true → s.oled.panel.Ready
  shows : d.oledUp = true → s.oled.panel.display.Shows d.pic

section Step

variable {kind : FlashKind} {pk : PanelKind} {s : Board} {d : Desk} {fuel : ℕ}

/-- A function for the flash on the board. -/
theorem Represents.run_flash {α : Type} (hs : Represents kind s d) (pk : PanelKind) {p : SpiProg α}
    (hp : p.Only FlashReq) {a : α} {c' : FlashCore} (hdoes : Does kind p s.flash.core a c') :
    ∃ f, p.run (boardBus kind pk) s = (a, ⟨f, s.oled⟩) ∧ f.core = c' ∧ f.selected = false := by
  obtain ⟨hret, hcore, hsel⟩ := hdoes s.flash rfl hs.selected
  refine ⟨_, ?_, hcore, hsel⟩
  rw [run_of_flashOnly hp hs.cs, hret]

/-- The flash may get other bytes and another protection, as long as it stays unlocked. -/
theorem Represents.stored (hs : Represents kind s d) {f : OnBus FlashCore} {c : FlashCore}
    (hcore : f.core = c) (hsel : f.selected = false) (hidle : c.busy = 0)
    (hlock : c.locked kind = false) (up : Bool) (hun : up = true → c.Unprotected kind) :
    Represents kind ⟨f, s.oled⟩ { d with mem := c.mem, flashUp := up } := by
  subst hcore
  exact { selected := hsel
          idle := hidle
          unlocked := hlock
          bytes := rfl
          unprotected := hun
          cs := hs.cs
          dc := hs.dc
          ready := hs.ready
          shows := hs.shows }

/-- A function for the OLED on the board. -/
theorem Represents.run_oled (hs : Represents kind s d) (hup : d.oledUp = true)
    {p : SpiProg Unit} {l : List OledByte} (hp : p.Only OledReq) (hsends : Sends p l) :
    p.run (boardBus kind pk) s =
      ((), ⟨s.flash, ⟨true, true, l.foldl (Panel.step pk) s.oled.panel⟩⟩) := by
  have hstart : s = ⟨s.flash, ⟨s.oled.dc, s.oled.cs, s.oled.panel⟩⟩ := rfl
  rw [hs.dc hup, hs.cs] at hstart
  rw [hstart]
  exact run_of_sends hp hsends hs.selected s.oled.panel

/-- `OLEDInit` on the board; its first command sets the data/command line. -/
theorem Represents.run_oledInit (hs : Represents kind s d) : oledInit.run (boardBus kind pk) s =
    ((), ⟨s.flash, ⟨true, true, initBytes.foldl (Panel.step pk) s.oled.panel⟩⟩) := by
  have hfirst : ∀ dc, (oledWriteCmd 0xAE).run (boardBus kind pk)
        ⟨s.flash, ⟨dc, true, s.oled.panel⟩⟩ =
      (oledWriteCmd 0xAE).run (boardBus kind pk) ⟨s.flash, ⟨true, true, s.oled.panel⟩⟩ :=
    fun _ => rfl
  have hline : oledInit.run (boardBus kind pk) ⟨s.flash, ⟨s.oled.dc, true, s.oled.panel⟩⟩ =
      oledInit.run (boardBus kind pk) ⟨s.flash, ⟨true, true, s.oled.panel⟩⟩ := by
    simp only [oledInit, oledInitCmds, oledWriteCmds, Prog.run_bind, hfirst]
  have hstart : s = ⟨s.flash, ⟨s.oled.dc, s.oled.cs, s.oled.panel⟩⟩ := rfl
  rw [hs.cs] at hstart
  rw [hstart, hline]
  exact run_of_sends only_oledInit sends_oledInit hs.selected s.oled.panel

/-- The panel is up and shows the picture after some positions and data. -/
theorem Represents.shown (hs : Represents kind s d) (hup : d.oledUp = true) {pic : Picture}
    {l : List OledByte} (hl : ∀ b, .cmd b ∈ l → IsPageCommand b ∨ IsColumnCommand b)
    (hpic : (l.foldl (Display.step pk.other) s.oled.panel.display).Shows pic) :
    Represents kind ⟨s.flash, ⟨true, true, l.foldl (Panel.step pk) s.oled.panel⟩⟩
      { d with pic := pic } := by
  have hready := hs.ready hup
  rw [hready.foldl l hl]
  exact { selected := hs.selected
          idle := hs.idle
          unlocked := hs.unlocked
          bytes := hs.bytes
          unprotected := hs.unprotected
          cs := rfl
          dc := fun _ => rfl
          ready := fun _ => ⟨hready.arg, hready.mode⟩
          shows := fun _ => hpic }

/-- One call on the board is that call on the desk. -/
theorem Represents.call (hs : Represents kind s d) (pk : PanelKind) (hfuel : kind.busyTime < fuel)
    (call : Call) (hcall : d.Allows call) :
    ((call.prog fuel).run (boardBus kind pk) s).1 = some (d.result kind call) ∧
      Represents kind ((call.prog fuel).run (boardBus kind pk) s).2 (d.call call) := by
  cases call with
  | flashInit =>
    have hdoes := does_init hs.idle hfuel hs.unlocked
    obtain ⟨f, hrun, hcore, hsel⟩ := hs.run_flash pk (only_init fuel) hdoes
    rw [Call.prog, Prog.run_bind, hrun]
    have hlock := locked_cleared kind s.flash.core.mem s.flash.core.sr1 s.flash.core.sr2 false 0
    have hmem := hs.stored hcore hsel rfl hlock true fun _ =>
      unprotected_cleared kind _ _ _ _ _
    rw [hs.bytes] at hmem
    exact ⟨rfl, hmem⟩
  | readID =>
    obtain ⟨f, hrun, hcore, hsel⟩ := hs.run_flash pk only_readID (does_readID hs.idle)
    rw [Call.prog, Prog.run_bind, hrun]
    have hmem := hs.stored hcore hsel hs.idle hs.unlocked d.flashUp hs.unprotected
    rw [hs.bytes] at hmem
    exact ⟨rfl, hmem⟩
  | eraseSector addr =>
    obtain ⟨hup, haddr⟩ := hcall
    have hdoes := does_eraseSector hs.idle hfuel (hs.unprotected hup) haddr
    obtain ⟨f, hrun, hcore, hsel⟩ := hs.run_flash pk (only_eraseSector fuel addr) hdoes
    rw [Call.prog, Prog.run_bind, hrun]
    have hmem := hs.stored hcore hsel rfl hs.unlocked d.flashUp hs.unprotected
    rw [hs.bytes] at hmem
    exact ⟨rfl, hmem⟩
  | program addr buf =>
    obtain ⟨hup, haddr⟩ := hcall
    have hdoes := does_program hs.idle hfuel (hs.unprotected hup) haddr buf
    obtain ⟨f, hrun, hcore, hsel⟩ := hs.run_flash pk (only_program fuel addr buf) hdoes
    rw [Call.prog, Prog.run_bind, hrun]
    have hmem := hs.stored hcore hsel rfl hs.unlocked d.flashUp hs.unprotected
    rw [hs.bytes] at hmem
    exact ⟨rfl, hmem⟩
  | read addr len =>
    have hdoes := does_read kind hs.idle hcall len
    obtain ⟨f, hrun, hcore, hsel⟩ := hs.run_flash pk (only_read addr len) hdoes
    rw [Call.prog, Prog.run_bind, hrun]
    have hmem := hs.stored hcore hsel hs.idle hs.unlocked d.flashUp hs.unprotected
    rw [hs.bytes] at hmem
    exact ⟨by rw [hs.bytes]; rfl, hmem⟩
  | oledInit =>
    obtain ⟨hready, -, hblank⟩ := foldl_initBytes pk s.oled.panel
    rw [Call.prog, Prog.run_bind, hs.run_oledInit]
    generalize initBytes.foldl (Panel.step pk) s.oled.panel = panel at hready hblank ⊢
    exact ⟨rfl, { selected := hs.selected
                  idle := hs.idle
                  unlocked := hs.unlocked
                  bytes := hs.bytes
                  unprotected := hs.unprotected
                  cs := rfl
                  dc := fun _ => rfl
                  ready := fun _ => hready
                  shows := fun _ => hblank }⟩
  | print page col str =>
    obtain ⟨hup, hpage, hpage', hcol, hcol', hfit⟩ := hcall
    have hsends := sends_oledPrint (.ofNat page) (.ofNat col) str.bytes
    have hcells : textBytes (.ofNat page) (.ofNat col) str.bytes =
        cellsBytes (8 * page + col / 8) str.bytes :=
      (sent_eq_textBytes (fun _ => 0) page col str).symm.trans
        (sent_eq_cellsBytes (fun _ => 0) hpage hcol hcol' str)
    have hroom : 8 * page + col / 8 + str.bytes.length ≤ 64 := by omega
    rw [Call.prog, Prog.run_bind, hs.run_oled hup (only_oledPrint _ _ _) hsends, hcells]
    exact ⟨rfl, hs.shown hup (fun b hb => cellsBytes_commands _ hroom hb)
      (foldl_cellsBytes_shows (hs.shows hup) _ hroom)⟩
  | clearPage page =>
    obtain ⟨hup, hpage⟩ := hcall
    rw [Call.prog, Prog.run_bind, hs.run_oled hup (only_oledClearPage _) (sends_oledClearPage _)]
    exact ⟨rfl, hs.shown hup (fun b hb => clearBytes_commands hpage hb)
      (foldl_clearBytes_shows (hs.shows hup) hpage)⟩

end Step

/-- Any sequence of calls in range returns, with the results that it has on the desk, and leaves
    the board in the state of the desk. -/
theorem calls_refine (kind : FlashKind) (pk : PanelKind) (fuel : ℕ) (hfuel : kind.busyTime < fuel)
    (calls : List Call) (s : Board) (d : Desk) (hs : Represents kind s d)
    (hcalls : d.AllowsAll calls) :
    ((callsProg fuel calls).run (boardBus kind pk) s).1 = some (d.results kind calls) ∧
      Represents kind ((callsProg fuel calls).run (boardBus kind pk) s).2
        (calls.foldl Desk.call d) := by
  induction calls generalizing s d with
  | nil => exact ⟨rfl, hs⟩
  | cons call calls ih =>
    obtain ⟨hret, hnext⟩ := hs.call pk hfuel call hcalls.1
    obtain ⟨hrets, hend⟩ := ih _ _ hnext hcalls.2
    simp only [callsProg, Prog.run_bind, hret, Prog.run_pure, hrets, List.foldl_cons]
    exact ⟨rfl, hend⟩

/-- The calls of `main` (main.c:24-50), with the texts that it prints if all goes well. -/
def mainCalls : List Call :=
  [.oledInit,
    .print 0 0
      ⟨[0x77, 0x77, 0x77, 0x2e, 0x31, 0x30, 0x30, 0x61, 0x73, 0x6b, 0x2e, 0x6e, 0x65, 0x74],
        by decide⟩,
    .readID,
    .print 2 0
      ⟨[0x53, 0x50, 0x49, 0x20, 0x3a, 0x20, 0x65, 0x66, 0x2c, 0x20, 0x31, 0x37], by decide⟩,
    .flashInit,
    .eraseSector 4096,
    .program 4096 [0x31, 0x30, 0x30, 0x61, 0x73, 0x6b, 0],
    .read 4096 7,
    .print 4 0 ⟨[0x31, 0x30, 0x30, 0x61, 0x73, 0x6b], by decide⟩,
    .clearPage 2,
    .clearPage 3,
    .print 2 0 ⟨[0x49, 0x32, 0x43, 0x20, 0x4f, 0x4b, 0x21], by decide⟩]

/-- A board whose flash is protected and full of zeros, and whose panel waits for an argument. -/
def sampleBoard : Board where
  flash := ⟨⟨fun _ => 0, 0x1c, 0, false, 0⟩, false, [], 0⟩
  oled := ⟨false, true, ⟨⟨0, 0, fun _ _ => 0x55⟩, some 0x81, .horizontal, false⟩⟩

/-- What the calls of `main` return on it. -/
theorem calls_refine_main :
    ((callsProg 4 mainCalls).run (boardBus (sampleKind false) ⟨fun _ d => d, fun _ _ d => d⟩)
      sampleBoard).1 = some [[], [], [0xef, 0x17], [], [], [], [],
        [0x31, 0x30, 0x30, 0x61, 0x73, 0x6b, 0], [], [], [], []] := by
  have hs : Represents (sampleKind false) sampleBoard ⟨fun _ => 0, Picture.blank, false, false⟩ :=
    { selected := rfl, idle := rfl, unlocked := by decide, bytes := rfl, unprotected := nofun
      cs := rfl, dc := nofun, ready := nofun, shows := nofun }
  have hrun := (calls_refine (sampleKind false) ⟨fun _ d => d, fun _ _ d => d⟩ 4 (by decide)
    mainCalls sampleBoard _ hs (by decide)).1
  rw [hrun]
  decide

end Jz2440.Spi
