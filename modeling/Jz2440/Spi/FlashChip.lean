import Jz2440.Spi.W25

/-!
# The SPI flash with its status registers

`W25.lean` has the flash chip as far as `SPIFlashProgram` and `SPIFlashRead` use it. Here the chip
has its two status registers too, and all commands of
`023_spi_020/04th_spi_i2c_adc_jz2440_ok_020_005/spi_flash.c`. The registers say which bytes are
protected (BP2..0 in bits 4..2 of the first one, CMP in bit 6 of the second one) and whether they
can be written themselves (SRP0 in bit 7, SRP1 in bit 0). Which bytes a pattern of BP, TB, SEC and
CMP protects depends on the type; only that none is protected without BP and CMP is assumed.

A chip collects the bytes of a command while it is selected, and executes it when it is deselected;
`SerialChip` is any device of this kind.

* `run_command`: what a command does to a chip and what it returns, for any chip.
* `does_init`, `spiFlashInit_unprotects_iff`: `SPIFlashInit` removes the protection, unless the
  registers are locked.
* `does_eraseSector`, `does_program`, `does_read`: on an unprotected chip the operations are those
  on a memory of bytes.
-/

namespace Jz2440.Spi

open Jz2440.Common

/-! ## Chips with commands -/

/-- What a chip with the state `κ` does with a command, and what it answers: the bytes of the
    command, the number of bytes that it has sent before. -/
structure SerialChip (κ : Type) where
  execute : List Byte → κ → κ
  answer : List Byte → ℕ → κ → Byte × κ

/-- A chip on the bus: the bytes received since it was selected, the number of bytes sent since. -/
structure OnBus (κ : Type) where
  core : κ
  selected : Bool
  input : List Byte
  given : ℕ

/-- The bus with a chip at the select line of the flash. -/
def SerialChip.bus {κ : Type} (chip : SerialChip κ) : SpiBus (OnBus κ)
  | .setCs .flash false, s => ((), { s with selected := true, input := [], given := 0 })
  | .setCs .flash true, s =>
    ((), if s.selected then { s with core := chip.execute s.input s.core, selected := false }
      else s)
  | .setCs .oled _, s => ((), s)
  | .setDc _, s => ((), s)
  | .send val, s => ((), if s.selected then { s with input := s.input ++ [val] } else s)
  | .recv, s =>
    if s.selected then
      ((chip.answer s.input s.given s.core).1,
        { s with core := (chip.answer s.input s.given s.core).2, given := s.given + 1 })
    else (0xff, s)

/-- What a chip sends on the command `l`, from byte number `i` on. -/
def SerialChip.answers {κ : Type} (chip : SerialChip κ) (l : List Byte) :
    ℕ → ℕ → κ → List Byte × κ
  | _, 0, c => ([], c)
  | i, n + 1, c =>
    let r := chip.answer l i c
    let rest := chip.answers l (i + 1) n r.2
    (r.1 :: rest.1, rest.2)

/-- One command: the bytes `l` are sent, then `n` bytes are received. -/
def command (l : List Byte) (n : ℕ) : SpiProg (List Byte) := do
  spiFlashSetCs false
  sendBytes l
  let out ← recvBytes n
  spiFlashSetCs true
  return out

section Command

variable {κ : Type} (chip : SerialChip κ)

theorem run_sendBytes_bus (l : List Byte) (s : OnBus κ) (hsel : s.selected = true) :
    (sendBytes l).run chip.bus s = ((), { s with input := s.input ++ l }) := by
  induction l generalizing s with
  | nil => simp [sendBytes]
  | cons b l ih =>
    have hsend : (spiSendByte b).run chip.bus s = ((), { s with input := s.input ++ [b] }) := by
      show ((), if s.selected then _ else s) = _
      rw [if_pos hsel]
    rw [sendBytes, Prog.run_bind, hsend]
    dsimp only
    rw [ih _ (by exact hsel), List.append_assoc, List.singleton_append]

theorem run_recvBytes_bus (n : ℕ) (s : OnBus κ) (hsel : s.selected = true) :
    (recvBytes n).run chip.bus s = ((chip.answers s.input s.given n s.core).1,
      { s with core := (chip.answers s.input s.given n s.core).2, given := s.given + n }) := by
  induction n generalizing s with
  | zero => rfl
  | succ n ih =>
    have hrecv : spiRecvByte.run chip.bus s = ((chip.answer s.input s.given s.core).1,
        { s with core := (chip.answer s.input s.given s.core).2, given := s.given + 1 }) := by
      show (if s.selected then _ else (0xff, s)) = _
      rw [if_pos hsel]
    rw [recvBytes, Prog.run_bind, hrecv]
    simp only [Prog.run_bind, Prog.run_pure]
    rw [ih _ (by exact hsel)]
    simp only [SerialChip.answers, Nat.add_assoc, Nat.add_comm 1 n]

/-- A command on the bus: the chip answers, and then it executes the command. -/
theorem run_command (l : List Byte) (n : ℕ) (s : OnBus κ) :
    (command l n).run chip.bus s = ((chip.answers l 0 n s.core).1,
      ⟨chip.execute l (chip.answers l 0 n s.core).2, false, l, n⟩) := by
  have hlower : (spiFlashSetCs false).run chip.bus s =
      ((), { s with selected := true, input := [], given := 0 }) := rfl
  rw [command, Prog.run_bind, hlower]
  dsimp only
  rw [Prog.run_bind, run_sendBytes_bus chip l _ rfl]
  dsimp only
  rw [Prog.run_bind, run_recvBytes_bus chip n _ rfl]
  simp only [List.nil_append, Nat.zero_add]
  rfl

end Command

/-! ## The operations as commands -/

section Commands

variable {σ : Type} (bus : SpiBus σ) (s : σ)

/-- The three bytes of an address. -/
def addrBytes (addr : Word) : List Byte :=
  [(addr >>> 16).setWidth 8, (addr >>> 8).setWidth 8, (addr &&& 0xff).setWidth 8]

theorem run_sendBytes_append (l l' : List Byte) : (sendBytes (l ++ l')).run bus s =
    (sendBytes l').run bus ((sendBytes l).run bus s).2 := by
  induction l generalizing s with
  | nil => rfl
  | cons b l ih => rw [List.cons_append, sendBytes, sendBytes, Prog.run_bind, Prog.run_bind, ih]

theorem run_writeEnable_command (enable : Bool) : (spiFlashWriteEnable enable).run bus s =
    ((), ((command [if enable then 0x06 else 0x04] 0).run bus s).2) := rfl

theorem run_readStatusReg_command (cmd : Byte) : (readStatusReg cmd).run bus s =
    (((command [cmd] 1).run bus s).1.headD 0, ((command [cmd] 1).run bus s).2) := rfl

theorem run_readID_command : spiFlashReadID.run bus s =
    let r := (command (0x90 :: addrBytes 0) 2).run bus s
    ((r.1.getD 0 0, r.1.getD 1 0), r.2) := rfl

theorem run_read_command (addr : Word) (len : ℕ) : (spiFlashRead addr len).run bus s =
    (command (0x03 :: addrBytes addr) len).run bus s := rfl

theorem run_writeStatusReg_command (fuel : ℕ) (reg1 reg2 : Byte) :
    (spiFlashWriteStatusReg fuel reg1 reg2).run bus s =
      (spiFlashWaitWhenBusy fuel).run bus
        ((command [0x01, reg1, reg2] 0).run bus ((spiFlashWriteEnable true).run bus s).2).2 := rfl

theorem run_eraseSector_command (fuel : ℕ) (addr : Word) :
    (spiFlashEraseSector fuel addr).run bus s =
      (spiFlashWaitWhenBusy fuel).run bus
        ((command (0x20 :: addrBytes addr) 0).run bus
          ((spiFlashWriteEnable true).run bus s).2).2 := rfl

theorem run_program_command (fuel : ℕ) (addr : Word) (buf : List Byte) :
    (spiFlashProgram fuel addr buf).run bus s =
      (spiFlashWaitWhenBusy fuel).run bus
        ((command (0x02 :: addrBytes addr ++ buf) 0).run bus
          ((spiFlashWriteEnable true).run bus s).2).2 := by
  simp only [spiFlashProgram, command, Prog.run_bind, run_sendBytes_append]
  rfl

end Commands

/-! ## The flash chip -/

/-- A type of flash chip on its board: how many status reads it stays busy for, the level at its
    write-protect pin, its identification, and the bytes that the status registers protect. -/
structure FlashKind where
  busyTime : ℕ
  wp : Bool
  mid : Byte
  did : Byte
  protects : Byte → Byte → ℕ → Bool
  /-- without BP2..0 and CMP nothing is protected -/
  protects_none : ∀ sr1 sr2 x, sr1 &&& 0x1c#8 = 0#8 → sr2 &&& 0x40#8 = 0#8 →
    protects sr1 sr2 x = false

/-- The state of the chip: its bytes, the status registers without the two bits that are not
    stored, the write enable latch, and for how many status reads the chip is still busy. -/
structure FlashCore where
  mem : ℕ → Byte
  sr1 : Byte
  sr2 : Byte
  wel : Bool
  busy : ℕ

/-- Neither of the status registers can be written. -/
def FlashCore.locked (kind : FlashKind) (c : FlashCore) : Bool :=
  c.sr2.getLsbD 0 || (c.sr1.getLsbD 7 && !kind.wp)

/-- No byte is protected. -/
def FlashCore.Unprotected (kind : FlashKind) (c : FlashCore) : Prop :=
  ∀ x, kind.protects c.sr1 c.sr2 x = false

/-- The first status register as it is read, with WEL and BUSY. -/
def FlashCore.status1 (c : FlashCore) : Byte :=
  (c.sr1 &&& 0xfc#8) ||| (if c.wel then 2#8 else 0#8) ||| (if c.busy ≠ 0 then 1#8 else 0#8)

/-- The second status register after a write of `val`: CMP, QE and SRP1 are written, the lock bits
    LB3..1 can only be set, and the others stay. -/
def writeSr2 (sr2 val : Byte) : Byte :=
  (val &&& 0x43#8) ||| ((sr2 ||| val) &&& 0x38#8) ||| (sr2 &&& 0x84#8)

/-- The memory after the sector of 4096 bytes around `addr` was erased. -/
def eraseSector (addr : ℕ) (mem : ℕ → Byte) : ℕ → Byte := fun x =>
  if x / 4096 = addr / 4096 then 0xff else mem x

/-- The commands of the chip. A busy chip executes none, and those that change anything but the
    write enable latch need this latch. -/
def FlashCore.execute (kind : FlashKind) (input : List Byte) (c : FlashCore) : FlashCore :=
  if c.busy ≠ 0 then c
  else match input with
    | [cmd] =>
      if cmd = 0x06 then { c with wel := true }
      else if cmd = 0x04 then { c with wel := false }
      else c
    | [cmd, reg1, reg2] =>
      if cmd = 0x01 ∧ c.wel ∧ c.locked kind = false then
        { c with sr1 := reg1 &&& 0xfc#8, sr2 := writeSr2 c.sr2 reg2
                 wel := false, busy := kind.busyTime }
      else c
    | [cmd, a2, a1, a0] =>
      if cmd = 0x20 ∧ c.wel ∧ kind.protects c.sr1 c.sr2 (addr24 a2 a1 a0) = false then
        { c with mem := eraseSector (addr24 a2 a1 a0) c.mem, wel := false, busy := kind.busyTime }
      else c
    | cmd :: a2 :: a1 :: a0 :: b :: data =>
      if cmd = 0x02 ∧ c.wel then
        { c with mem := programPage (kind.protects c.sr1 c.sr2) (addr24 a2 a1 a0) (b :: data) c.mem
                 wel := false, busy := kind.busyTime }
      else c
    | _ => c

/-- What the chip sends: its registers, the memory, its identification. Time goes by while the
    first register is read. -/
def FlashCore.answer (kind : FlashKind) (input : List Byte) (i : ℕ) (c : FlashCore) :
    Byte × FlashCore :=
  match input with
  | [cmd] =>
    if cmd = 0x05 then (c.status1, { c with busy := c.busy - 1 })
    else if cmd = 0x35 then (c.sr2, c)
    else (0xff, c)
  | [cmd, a2, a1, a0] =>
    if cmd = 0x03 ∧ c.busy = 0 then (c.mem (addr24 a2 a1 a0 + i), c)
    else if cmd = 0x90 ∧ c.busy = 0 then
      (if (addr24 a2 a1 a0 + i) % 2 = 0 then kind.mid else kind.did, c)
    else (0xff, c)
  | _ => (0xff, c)

/-- The flash as a chip on the bus. -/
def FlashKind.chip (kind : FlashKind) : SerialChip FlashCore where
  execute := FlashCore.execute kind
  answer := FlashCore.answer kind

/-! ## The operations on the chip -/

/-- On a deselected chip in the state `c`, the program returns `a` and leaves the chip deselected
    in the state `c'`. -/
def Does {α : Type} (kind : FlashKind) (p : SpiProg α) (c : FlashCore) (a : α) (c' : FlashCore) :
    Prop :=
  ∀ s : OnBus FlashCore, s.core = c → s.selected = false → (p.run kind.chip.bus s).1 = a ∧
    (p.run kind.chip.bus s).2.core = c' ∧ (p.run kind.chip.bus s).2.selected = false

section Does

variable {kind : FlashKind} {c c' c'' : FlashCore} {α β : Type}

theorem Does.bind {p : SpiProg α} {f : α → SpiProg β} {a : α} {b : β} (hp : Does kind p c a c')
    (hf : Does kind (f a) c' b c'') : Does kind (p >>= f) c b c'' := by
  intro s hs hsel
  obtain ⟨hret, hcore, hsel'⟩ := hp s hs hsel
  rw [Prog.run_bind, hret]
  exact hf _ hcore hsel'

theorem does_pure (kind : FlashKind) (c : FlashCore) (a : α) :
    Does kind (pure a : SpiProg α) c a c :=
  fun _ hs hsel => ⟨rfl, hs, hsel⟩

theorem does_command (kind : FlashKind) (l : List Byte) (n : ℕ) (c : FlashCore) :
    Does kind (command l n) c (kind.chip.answers l 0 n c).1
      ((kind.chip.answers l 0 n c).2.execute kind l) := by
  intro s hs _
  rw [run_command, hs]
  exact ⟨rfl, rfl, rfl⟩

theorem does_writeEnable (hbusy : c.busy = 0) :
    Does kind (spiFlashWriteEnable true) c () { c with wel := true } := by
  intro s hs hsel
  obtain ⟨-, hcore, hsel⟩ := does_command kind [0x06] 0 c s hs hsel
  rw [run_writeEnable_command]
  refine ⟨rfl, hcore.trans ?_, hsel⟩
  simp [SerialChip.answers, FlashCore.execute, hbusy]

theorem does_readStatusReg1 (kind : FlashKind) (c : FlashCore) :
    Does kind spiFlashReadStatusReg1 c c.status1 { c with busy := c.busy - 1 } := by
  intro s hs hsel
  obtain ⟨hret, hcore, hsel⟩ := does_command kind [0x05] 1 c s hs hsel
  rw [spiFlashReadStatusReg1, run_readStatusReg_command, hret]
  refine ⟨rfl, hcore.trans ?_, hsel⟩
  simp [SerialChip.answers, FlashKind.chip, FlashCore.answer, FlashCore.execute]

theorem does_readStatusReg2 (kind : FlashKind) (c : FlashCore) :
    Does kind spiFlashReadStatusReg2 c c.sr2 c := by
  intro s hs hsel
  obtain ⟨hret, hcore, hsel⟩ := does_command kind [0x35] 1 c s hs hsel
  rw [spiFlashReadStatusReg2, run_readStatusReg_command, hret]
  refine ⟨rfl, hcore.trans ?_, hsel⟩
  simp [SerialChip.answers, FlashKind.chip, FlashCore.answer, FlashCore.execute]

theorem status1_busy (c : FlashCore) : c.status1 &&& 1 ≠ 0 ↔ c.busy ≠ 0 := by
  have hbits : ∀ sr1 : Byte, ∀ wel busy : Bool, ((sr1 &&& 0xfc#8) ||| (if wel then 2#8 else 0#8) |||
      (if busy then 1#8 else 0#8)) &&& 1#8 ≠ 0#8 ↔ busy = true := by
    decide
  have := hbits c.sr1 c.wel (decide (c.busy ≠ 0))
  simpa [FlashCore.status1] using this

/-- The wait loop ends when the chip is ready. -/
theorem does_waitWhenBusy (kind : FlashKind) (fuel : ℕ) (hfuel : c.busy < fuel) :
    Does kind (spiFlashWaitWhenBusy fuel) c (some ()) { c with busy := 0 } := by
  induction fuel generalizing c with
  | zero => exact absurd hfuel (Nat.not_lt_zero _)
  | succ fuel ih =>
    rw [spiFlashWaitWhenBusy]
    refine (does_readStatusReg1 kind c).bind ?_
    by_cases hbusy : c.busy = 0
    · rw [if_neg fun h => (status1_busy c).mp h hbusy, hbusy]
      exact does_pure kind _ _
    · rw [if_pos ((status1_busy c).mpr hbusy)]
      exact ih (by dsimp only; omega)

/-- The operations that change the chip: write enable, one command, and the wait for its end. -/
theorem does_writing {p : SpiProg (Option Unit)} {fuel : ℕ} {l : List Byte}
    (hp : ∀ s : OnBus FlashCore, p.run kind.chip.bus s =
      (spiFlashWaitWhenBusy fuel).run kind.chip.bus
        ((command l 0).run kind.chip.bus
          ((spiFlashWriteEnable true).run kind.chip.bus s).2).2)
    (hbusy : c.busy = 0) (hexec : ({ c with wel := true } : FlashCore).execute kind l = c')
    (hfuel : c'.busy < fuel) : Does kind p c (some ()) { c' with busy := 0 } := by
  intro s hs hsel
  obtain ⟨-, hcore₁, hsel₁⟩ := does_writeEnable hbusy s hs hsel
  obtain ⟨-, hcore₂, hsel₂⟩ := does_command kind l 0 _ _ hcore₁ hsel₁
  rw [hp]
  exact does_waitWhenBusy kind fuel hfuel _ (hcore₂.trans hexec) hsel₂

/-- `SPIFlashWriteStatusReg` writes the two registers. -/
theorem does_writeStatusReg {fuel : ℕ} (hbusy : c.busy = 0) (hfuel : kind.busyTime < fuel)
    (hlock : c.locked kind = false) (reg1 reg2 : Byte) :
    Does kind (spiFlashWriteStatusReg fuel reg1 reg2) c (some ())
      { c with sr1 := reg1 &&& 0xfc#8, sr2 := writeSr2 c.sr2 reg2, wel := false, busy := 0 } := by
  have hexec : ({ c with wel := true } : FlashCore).execute kind [0x01, reg1, reg2] =
      { c with sr1 := reg1 &&& 0xfc#8, sr2 := writeSr2 c.sr2 reg2, wel := false,
               busy := kind.busyTime } := by
    have hlock' : ({ c with wel := true } : FlashCore).locked kind = false := hlock
    rw [FlashCore.execute, if_neg (not_not.mpr hbusy)]
    simp only [hlock', and_self, if_true]
  exact does_writing (fun s => run_writeStatusReg_command _ s fuel reg1 reg2) hbusy hexec hfuel

/-- If they are locked, only the write enable latch is left set. -/
theorem does_writeStatusReg_locked {fuel : ℕ} (hbusy : c.busy = 0) (hfuel : 0 < fuel)
    (hlock : c.locked kind = true) (reg1 reg2 : Byte) :
    Does kind (spiFlashWriteStatusReg fuel reg1 reg2) c (some ())
      { c with wel := true, busy := 0 } := by
  have hexec : ({ c with wel := true } : FlashCore).execute kind [0x01, reg1, reg2] =
      { c with wel := true } := by
    have hlock' : ({ c with wel := true } : FlashCore).locked kind = true := hlock
    rw [FlashCore.execute, if_neg (not_not.mpr hbusy)]
    simp only [hlock', Bool.true_eq_false, and_false, if_false]
  exact does_writing (fun s => run_writeStatusReg_command _ s fuel reg1 reg2) hbusy hexec
    (hbusy.trans_lt hfuel)

/-! ## `SPIFlashInit` -/

/-- WEL and BUSY are read with the first register, but they are not stored in it. -/
theorem status1_stored (c : FlashCore) : c.status1 &&& 0xfc#8 = c.sr1 &&& 0xfc#8 := by
  have hbits : ∀ sr1 : Byte, ∀ wel busy : Bool, ((sr1 &&& 0xfc#8) ||| (if wel then 2#8 else 0#8) |||
      (if busy then 1#8 else 0#8)) &&& 0xfc#8 = sr1 &&& 0xfc#8 := by
    decide
  have := hbits c.sr1 c.wel (decide (c.busy ≠ 0))
  simpa [FlashCore.status1] using this

/-- Both functions read the two registers, clear some bits and write them back. -/
theorem does_clearing {fuel : ℕ} (hbusy : c.busy = 0) {mask1 mask2 : Byte}
    (hwrite : Does kind
      (spiFlashWriteStatusReg fuel (c.status1 &&& mask1) (c.sr2 &&& mask2)) c (some ()) c') :
    Does kind (do
      let reg1 ← spiFlashReadStatusReg1
      let reg2 ← spiFlashReadStatusReg2
      spiFlashWriteStatusReg fuel (reg1 &&& mask1) (reg2 &&& mask2)) c (some ()) c' := by
  have hidle : c.busy - 1 = c.busy := by omega
  have hread := does_readStatusReg1 kind c
  rw [hidle] at hread
  exact hread.bind ((does_readStatusReg2 kind c).bind hwrite)

theorem does_clearing_unlocked {fuel : ℕ} (hbusy : c.busy = 0) (hfuel : kind.busyTime < fuel)
    (hlock : c.locked kind = false) (mask1 mask2 : Byte) :
    Does kind (do
      let reg1 ← spiFlashReadStatusReg1
      let reg2 ← spiFlashReadStatusReg2
      spiFlashWriteStatusReg fuel (reg1 &&& mask1) (reg2 &&& mask2)) c (some ())
      { c with sr1 := c.sr1 &&& (0xfc#8 &&& mask1), sr2 := writeSr2 c.sr2 (c.sr2 &&& mask2)
               wel := false, busy := 0 } := by
  have hsr1 : (c.status1 &&& mask1) &&& 0xfc#8 = c.sr1 &&& (0xfc#8 &&& mask1) := by
    rw [BitVec.and_assoc, BitVec.and_comm mask1, ← BitVec.and_assoc, status1_stored,
      BitVec.and_assoc]
  rw [← hsr1]
  exact does_clearing hbusy (does_writeStatusReg hbusy hfuel hlock _ _)

/-- SRP0 and SRP1 are cleared, so the registers can be written. -/
theorem locked_cleared (kind : FlashKind) (mem : ℕ → Byte) (sr1 sr2 : Byte) (wel : Bool)
    (busy : ℕ) :
    FlashCore.locked kind ⟨mem, sr1 &&& 0x60#8, sr2 &&& 0xbe#8, wel, busy⟩ = false := by
  simp [FlashCore.locked]

/-- BP2..0 and CMP are cleared, so nothing is protected. -/
theorem unprotected_cleared (kind : FlashKind) (mem : ℕ → Byte) (sr1 sr2 : Byte) (wel : Bool)
    (busy : ℕ) :
    FlashCore.Unprotected kind ⟨mem, sr1 &&& 0x60#8, sr2 &&& 0xbe#8, wel, busy⟩ := by
  intro x
  apply kind.protects_none
  · rw [BitVec.and_assoc]
    exact BitVec.and_zero
  · rw [BitVec.and_assoc]
    exact BitVec.and_zero

/-- What `SPIFlashInit` leaves of the registers: SEC and TB of the first one, all but CMP and SRP1
    of the second one. -/
theorem does_init {fuel : ℕ} (hbusy : c.busy = 0) (hfuel : kind.busyTime < fuel)
    (hlock : c.locked kind = false) :
    Does kind (spiFlashInit fuel) c (some ())
      { c with sr1 := c.sr1 &&& 0x60#8, sr2 := c.sr2 &&& 0xbe#8, wel := false, busy := 0 } := by
  have hsr2 : ∀ sr2 : Byte, writeSr2 sr2 (sr2 &&& ~~~(1#8 <<< 0)) = sr2 &&& 0xfe#8 ∧
      writeSr2 (sr2 &&& 0xfe#8) ((sr2 &&& 0xfe#8) &&& ~~~(1#8 <<< 6)) = sr2 &&& 0xbe#8 := by
    decide
  have hsr1 : ∀ sr1 : Byte, (sr1 &&& (0xfc#8 &&& ~~~(1#8 <<< 7))) &&& (0xfc#8 &&& ~~~(7#8 <<< 2)) =
      sr1 &&& 0x60#8 := by
    decide
  have hfirst := does_clearing_unlocked hbusy hfuel hlock (~~~(1#8 <<< 7)) (~~~(1#8 <<< 0))
  rw [(hsr2 c.sr2).1] at hfirst
  -- SRP0 and SRP1 are cleared now, so the second write is accepted too
  have hlock₁ : ∀ mem wel busy, FlashCore.locked kind
      ⟨mem, c.sr1 &&& (0xfc#8 &&& ~~~(1#8 <<< 7)), c.sr2 &&& 0xfe#8, wel, busy⟩ = false := by
    intro mem wel busy
    simp [FlashCore.locked]
  have hsecond := does_clearing_unlocked rfl hfuel (hlock₁ c.mem false 0) (~~~(7#8 <<< 2))
    (~~~(1#8 <<< 6))
  dsimp only at hsecond
  rw [(hsr2 c.sr2).2, hsr1] at hsecond
  exact hfirst.bind hsecond

theorem does_init_locked {fuel : ℕ} (hbusy : c.busy = 0) (hfuel : 0 < fuel)
    (hlock : c.locked kind = true) :
    Does kind (spiFlashInit fuel) c (some ()) { c with wel := true, busy := 0 } := by
  have hfirst := does_writeStatusReg_locked hbusy hfuel hlock (c.status1 &&& ~~~(1#8 <<< 7))
    (c.sr2 &&& ~~~(1#8 <<< 0))
  have hsecond := does_writeStatusReg_locked (c := { c with wel := true, busy := 0 }) rfl hfuel
    hlock (FlashCore.status1 { c with wel := true, busy := 0 } &&& ~~~(7#8 <<< 2))
    (c.sr2 &&& ~~~(1#8 <<< 6))
  exact (does_clearing hbusy hfirst).bind (does_clearing rfl hsecond)

/-! ## The memory -/

/-- `SPIFlashEraseSector` erases a sector. -/
theorem does_eraseSector {fuel : ℕ} (hbusy : c.busy = 0) (hfuel : kind.busyTime < fuel)
    (hun : c.Unprotected kind) {addr : Word} (haddr : addr.toNat < 2 ^ 24) :
    Does kind (spiFlashEraseSector fuel addr) c (some ())
      { c with mem := eraseSector addr.toNat c.mem, wel := false, busy := 0 } := by
  have hexec : ({ c with wel := true } : FlashCore).execute kind (0x20 :: addrBytes addr) =
      { c with mem := eraseSector addr.toNat c.mem, wel := false, busy := kind.busyTime } := by
    unfold FlashCore.execute addrBytes
    rw [if_neg (not_not.mpr hbusy), ← addr24_bytes addr haddr]
    simp [hun _]
  exact does_writing (fun s => run_eraseSector_command _ s fuel addr) hbusy hexec hfuel

/-- `SPIFlashProgram` programs one page, however many bytes there are. Without any the chip does
    not take the command, and the write enable latch stays set. -/
theorem does_program {fuel : ℕ} (hbusy : c.busy = 0) (hfuel : kind.busyTime < fuel)
    (hun : c.Unprotected kind) {addr : Word} (haddr : addr.toNat < 2 ^ 24) (buf : List Byte) :
    Does kind (spiFlashProgram fuel addr buf) c (some ())
      { c with mem := programPage (fun _ => false) addr.toNat buf c.mem, wel := buf.isEmpty
               busy := 0 } := by
  have hprot : kind.protects c.sr1 c.sr2 = fun _ => false := funext hun
  cases buf with
  | nil =>
    have hexec : ({ c with wel := true } : FlashCore).execute kind (0x02 :: addrBytes addr ++ []) =
        { c with wel := true } := by
      unfold FlashCore.execute addrBytes
      rw [if_neg (not_not.mpr hbusy)]
      simp
    rw [programPage_nil]
    exact does_writing (fun s => run_program_command _ s fuel addr []) hbusy hexec
      (hbusy.trans_lt (Nat.zero_lt_of_lt hfuel))
  | cons b buf =>
    have hexec : ({ c with wel := true } : FlashCore).execute kind
        (0x02 :: addrBytes addr ++ b :: buf) =
          { c with mem := programPage (fun _ => false) addr.toNat (b :: buf) c.mem, wel := false
                   busy := kind.busyTime } := by
      unfold FlashCore.execute addrBytes
      rw [if_neg (not_not.mpr hbusy), ← addr24_bytes addr haddr]
      simp [hprot]
    exact does_writing (fun s => run_program_command _ s fuel addr (b :: buf)) hbusy hexec hfuel

theorem answers_read (hbusy : c.busy = 0) (a2 a1 a0 : Byte) (i len : ℕ) :
    kind.chip.answers [0x03, a2, a1, a0] i len c =
      ((List.range len).map fun k => c.mem (addr24 a2 a1 a0 + i + k), c) := by
  induction len generalizing i with
  | zero => rfl
  | succ len ih =>
    have hone : kind.chip.answer [0x03, a2, a1, a0] i c = (c.mem (addr24 a2 a1 a0 + i), c) := by
      simp [FlashKind.chip, FlashCore.answer, hbusy]
    rw [SerialChip.answers, hone]
    dsimp only
    have hshift : (fun k => c.mem (addr24 a2 a1 a0 + (i + 1) + k)) =
        (fun k => c.mem (addr24 a2 a1 a0 + i + k)) ∘ Nat.succ := by
      funext k
      rw [Function.comp_apply, Nat.succ_eq_add_one, ← Nat.add_assoc, Nat.add_right_comm _ 1 k,
        Nat.add_assoc _ k 1]
    rw [ih, hshift, List.range_succ_eq_map, List.map_cons, List.map_map, Nat.add_zero]

/-- `SPIFlashRead` returns the bytes from its address on. -/
theorem does_read (kind : FlashKind) (hbusy : c.busy = 0) {addr : Word}
    (haddr : addr.toNat < 2 ^ 24) (len : ℕ) :
    Does kind (spiFlashRead addr len) c
      ((List.range len).map fun k => c.mem (addr.toNat + k)) c := by
  intro s hs hsel
  obtain ⟨hret, hcore, hsel'⟩ := does_command kind (0x03 :: addrBytes addr) len c s hs hsel
  rw [addrBytes, answers_read hbusy, addr24_bytes addr haddr] at hret hcore
  rw [run_read_command]
  refine ⟨hret, hcore.trans ?_, hsel'⟩
  unfold FlashCore.execute
  rw [if_neg (not_not.mpr hbusy)]
  simp

/-- `SPIFlashReadID` returns the identification. -/
theorem does_readID (hbusy : c.busy = 0) : Does kind spiFlashReadID c (kind.mid, kind.did) c := by
  intro s hs hsel
  obtain ⟨hret, hcore, hsel'⟩ := does_command kind (0x90 :: addrBytes 0) 2 c s hs hsel
  have hanswers : kind.chip.answers (0x90 :: addrBytes 0) 0 2 c = ([kind.mid, kind.did], c) := by
    simp [SerialChip.answers, FlashKind.chip, FlashCore.answer, addrBytes, hbusy, addr24]
  rw [hanswers] at hret hcore
  rw [run_readID_command]
  dsimp only
  rw [hret]
  refine ⟨rfl, hcore.trans ?_, hsel'⟩
  unfold FlashCore.execute addrBytes
  rw [if_neg (not_not.mpr hbusy)]
  simp

end Does

/-- After `SPIFlashInit` no byte is protected, except if the registers were locked and some were
    protected before. -/
theorem spiFlashInit_unprotects_iff (kind : FlashKind) (c : FlashCore) (hbusy : c.busy = 0)
    (fuel : ℕ) (hfuel : kind.busyTime < fuel) :
    ∃ c', Does kind (spiFlashInit fuel) c (some ()) c' ∧ c'.mem = c.mem ∧ c'.busy = 0 ∧
      (c'.Unprotected kind ↔ c.locked kind = false ∨ c.Unprotected kind) := by
  cases hlock : c.locked kind with
  | false =>
    exact ⟨_, does_init hbusy hfuel hlock, rfl, rfl, fun _ => .inl rfl,
      fun _ => unprotected_cleared kind _ _ _ _ _⟩
  | true =>
    refine ⟨_, does_init_locked hbusy (Nat.zero_lt_of_lt hfuel) hlock, rfl, rfl, .inr, ?_⟩
    rintro (h | h)
    · cases h
    · exact h

/-- A chip type on which any of BP2..0 and CMP protects everything. -/
def sampleKind (wp : Bool) : FlashKind where
  busyTime := 3
  wp := wp
  mid := 0xef
  did := 0x17
  protects sr1 sr2 _ := sr1 &&& 0x1c#8 != 0#8 || sr2 &&& 0x40#8 != 0#8
  protects_none sr1 sr2 x h1 h2 := by simp [h1, h2]

/-- With SRP0 and all of BP2..0 set, the level at the write-protect pin decides. -/
theorem spiFlashInit_unprotects_srp0 :
    (∃ c', Does (sampleKind true) (spiFlashInit 4) ⟨fun _ => 0, 0x9c, 0, false, 0⟩ (some ()) c' ∧
      c'.Unprotected (sampleKind true)) ∧
    (∃ c', Does (sampleKind false) (spiFlashInit 4) ⟨fun _ => 0, 0x9c, 0, false, 0⟩ (some ()) c' ∧
      ¬ c'.Unprotected (sampleKind false)) := by
  obtain ⟨c₁, hdoes₁, -, -, hiff₁⟩ := spiFlashInit_unprotects_iff (sampleKind true)
    ⟨fun _ => 0, 0x9c, 0, false, 0⟩ rfl 4 (by decide)
  obtain ⟨c₂, hdoes₂, -, -, hiff₂⟩ := spiFlashInit_unprotects_iff (sampleKind false)
    ⟨fun _ => 0, 0x9c, 0, false, 0⟩ rfl 4 (by decide)
  refine ⟨⟨c₁, hdoes₁, hiff₁.mpr (.inl (by decide))⟩, ⟨c₂, hdoes₂, fun hun => ?_⟩⟩
  rcases hiff₂.mp hun with hlock | hbefore
  · exact absurd hlock (by decide)
  · exact absurd (hbefore 0) (by decide)

end Jz2440.Spi
