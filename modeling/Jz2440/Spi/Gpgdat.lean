import Jz2440.Spi.Gpio

/-!
# The bit-banged SPI functions on the port register

`Gpio.lean` models the functions of `04th_spi_i2c_adc_jz2440_ok_020_005/gpio_spi.c` on a clock and
a data line. Below that, both lines are bits of `GPGDAT`, and each access is a read of the whole
register, a change of one bit, and a write of all of them. An edge of the clock is a difference
between two writes.

A read of an output bit gives what was written last, a read of an input bit the level of the pin;
the other pins of the port may be of either kind. The device samples MOSI (bit 6) at each rising
edge of CLK (bit 7) and changes MISO (bit 5) only at falling edges, so that the level of MISO is a
function of the number of falling edges so far, whatever the device does. The edges and the
writes are recorded; the code does not have them.

* `lines_setClk`, `lines_setDo`: on the two lines, the register functions are those of
  `Gpio.lean`; `lines_sendLoop` and `lines_recvLoop` carry this over to the loops.
* `spiSendByte_spec`, `spiRecvByte_spec`: one call.
* `transfers_faithful`: any sequence of calls, from any contents of the register.
* `initPins`: the pins are of these kinds after `SPI_GPIO_Init`, whatever `GPGCON` was before.
-/

namespace Jz2440.Spi.Gpgdat

open Jz2440.Common Jz2440.Spi

/-! ## The port -/

/-- The pins of the port: which of them are outputs, the level of MISO after each number of
    falling edges, and the levels of the other inputs at each read. -/
structure Pins where
  outputs : Word
  miso : ℕ → Bool
  others : ℕ → Word
  clkOut : outputs.getLsbD 7 = true
  mosiOut : outputs.getLsbD 6 = true
  misoIn : outputs.getLsbD 5 = false

/-- `GPGCON` after `SPI_GPIO_Init` (gpio_spi.c:18-19). -/
def spiGpioInit (gpgcon : Word) : Word :=
  let gpgcon := gpgcon &&& ~~~((3#32 <<< (2 * 2)) ||| (3#32 <<< (4 * 2)) ||| (3#32 <<< (5 * 2)) |||
    (3#32 <<< (6 * 2)) ||| (3#32 <<< (7 * 2)))
  gpgcon ||| ((1#32 <<< (2 * 2)) ||| (1#32 <<< (4 * 2)) ||| (1#32 <<< (6 * 2)) |||
    (1#32 <<< (7 * 2)))

/-- The pins that `GPGCON` makes outputs: the two bits of the pin are 01. -/
def outputsOf (gpgcon : Word) : Word :=
  (BitVec.ofBoolListLE ((List.range 16).map fun i =>
    gpgcon.getLsbD (2 * i) && !gpgcon.getLsbD (2 * i + 1))).setWidth 32

theorem getLsbD_outputsOf (gpgcon : Word) {i : ℕ} (hi : i < 16) :
    (outputsOf gpgcon).getLsbD i = (gpgcon.getLsbD (2 * i) && !gpgcon.getLsbD (2 * i + 1)) := by
  have hi32 : i < 32 := by omega
  rw [outputsOf, BitVec.getLsbD_setWidth, BitVec.getLsbD_ofBoolListLE]
  simp [hi, hi32]

/-- The pins after `SPI_GPIO_Init`, with any device and any other inputs. -/
def initPins (gpgcon : Word) (miso : ℕ → Bool) (others : ℕ → Word) : Pins where
  outputs := outputsOf (spiGpioInit gpgcon)
  miso := miso
  others := others
  clkOut := by
    rw [getLsbD_outputsOf _ (by decide)]
    simp [spiGpioInit]
  mosiOut := by
    rw [getLsbD_outputsOf _ (by decide)]
    simp [spiGpioInit]
  misoIn := by
    rw [getLsbD_outputsOf _ (by decide)]
    simp [spiGpioInit]

/-- A rising edge: the level of MOSI, and that of MISO just before it. -/
structure Rise where
  mosi : Bool
  miso : Bool
  deriving DecidableEq

/-- What was written to `GPGDAT` last, the number of reads and of falling edges, the rising
    edges, and everything that was written. -/
structure Port where
  latch : Word
  reads : ℕ
  falls : ℕ
  rises : List Rise
  writes : List Word

/-- The levels at the input pins. -/
def Pins.levels (pins : Pins) (p : Port) : Word :=
  if pins.miso p.falls then pins.others p.reads ||| (1#32 <<< 5)
  else pins.others p.reads &&& ~~~(1#32 <<< 5)

/-- A read of `GPGDAT`. -/
def readGpgdat (pins : Pins) (p : Port) : Word × Port :=
  ((p.latch &&& pins.outputs) ||| (pins.levels p &&& ~~~pins.outputs),
    { p with reads := p.reads + 1 })

/-- A write of `GPGDAT`. -/
def writeGpgdat (pins : Pins) (w : Word) (p : Port) : Port :=
  { p with
    latch := w
    falls := if p.latch.getLsbD 7 && !w.getLsbD 7 then p.falls + 1 else p.falls
    rises := if !p.latch.getLsbD 7 && w.getLsbD 7 then
        p.rises ++ [⟨w.getLsbD 6, pins.miso p.falls⟩] else p.rises
    writes := p.writes ++ [w] }

/-! ## The code -/

/-- `GPGDAT |= (1<<n)` or `GPGDAT &= ~(1<<n)`. -/
def setBit (pins : Pins) (n : ℕ) (val : Bool) (p : Port) : Port :=
  let r := readGpgdat pins p
  if val then writeGpgdat pins (r.1 ||| (1#32 <<< n)) r.2
  else writeGpgdat pins (r.1 &&& ~~~(1#32 <<< n)) r.2

/-- `SPI_Set_CLK` (gpio_spi.c:23-29). -/
def setClk (pins : Pins) (val : Bool) (p : Port) : Port := setBit pins 7 val p

/-- `SPI_Set_DO` (gpio_spi.c:31-37). -/
def setDo (pins : Pins) (val : Bool) (p : Port) : Port := setBit pins 6 val p

/-- `SPI_Get_DI` (gpio_spi.c:39-45). -/
def getDi (pins : Pins) (p : Port) : Bool × Port :=
  let r := readGpgdat pins p
  (r.1 &&& (1#32 <<< 5) ≠ 0, r.2)

/-- The loop of `SPISendByte` with `n` bits to go. -/
def sendLoop (pins : Pins) : ℕ → Byte → Port → Port
  | 0, _, p => p
  | n + 1, val, p =>
    let p := setClk pins false p
    let p := setDo pins (val &&& 0x80 ≠ 0) p
    let p := setClk pins true p
    sendLoop pins n (val <<< 1) p

/-- The loop of `SPIRecvByte` with `n` bits to go. -/
def recvLoop (pins : Pins) : ℕ → Byte → Port → Byte × Port
  | 0, val, p => (val, p)
  | n + 1, val, p =>
    let val := val <<< 1
    let p := setClk pins false p
    let d := getDi pins p
    let val := if d.1 then val ||| 1 else val
    let p := setClk pins true d.2
    recvLoop pins n val p

/-- `SPISendByte` (gpio_spi.c:47-58). -/
def spiSendByte (pins : Pins) (val : Byte) (p : Port) : Port := sendLoop pins 8 val p

/-- `SPIRecvByte` (gpio_spi.c:60-73). -/
def spiRecvByte (pins : Pins) (p : Port) : Byte × Port := recvLoop pins 8 0 p

/-! ## One access -/

section Access

variable (pins : Pins) (p : Port)

theorem readGpgdat_output {i : ℕ} (h : pins.outputs.getLsbD i = true) :
    (readGpgdat pins p).1.getLsbD i = p.latch.getLsbD i := by
  simp only [readGpgdat, BitVec.getLsbD_or, BitVec.getLsbD_and, BitVec.getLsbD_not, h,
    Bool.and_true, Bool.not_true, Bool.and_false, Bool.or_false]

theorem readGpgdat_miso : (readGpgdat pins p).1.getLsbD 5 = pins.miso p.falls := by
  have hlevel : (pins.levels p).getLsbD 5 = pins.miso p.falls := by
    unfold Pins.levels
    cases pins.miso p.falls <;> simp
  simp only [readGpgdat, BitVec.getLsbD_or, BitVec.getLsbD_and, BitVec.getLsbD_not, pins.misoIn,
    hlevel, Bool.and_false, Bool.false_or, Bool.not_false, Bool.and_true]
  exact Bool.and_true _

theorem getDi_eq : getDi pins p = (pins.miso p.falls, { p with reads := p.reads + 1 }) := by
  have htest : decide ((readGpgdat pins p).1 &&& (1#32 <<< 5) ≠ 0) = pins.miso p.falls := by
    rw [Bool.eq_iff_iff, decide_eq_true_iff, ← readGpgdat_miso]
    exact and_bit_ne_zero_iff _ (by decide)
  exact congrArg₂ Prod.mk htest rfl

/-- An access writes one bit; the other output bits are written as they were. -/
theorem setBit_eq {n : ℕ} (hn : n < 32) (val : Bool) :
    ∃ w : Word, setBit pins n val p = writeGpgdat pins w { p with reads := p.reads + 1 } ∧
      ∀ i, pins.outputs.getLsbD i = true →
        w.getLsbD i = if i = n then val else p.latch.getLsbD i := by
  have hbit : 1#32 <<< n = BitVec.twoPow 32 n := (BitVec.twoPow_eq 32 n).symm
  cases val with
  | true =>
    refine ⟨(readGpgdat pins p).1 ||| (1#32 <<< n), rfl, fun i hi => ?_⟩
    rw [hbit, BitVec.getLsbD_or, readGpgdat_output pins p hi, BitVec.getLsbD_twoPow]
    by_cases hin : i = n
    · simp [hin, hn]
    · simp [hin, Ne.symm hin]
  | false =>
    refine ⟨(readGpgdat pins p).1 &&& ~~~(1#32 <<< n), rfl, fun i hi => ?_⟩
    have hi32 : i < 32 := BitVec.lt_of_getLsbD hi
    rw [hbit, BitVec.getLsbD_and, BitVec.getLsbD_not, readGpgdat_output pins p hi,
      BitVec.getLsbD_twoPow]
    by_cases hin : i = n
    · simp [hin, hn]
    · simp [hin, Ne.symm hin, hi32]

end Access

/-! ## The two lines -/

/-- The clock and the data line, and what a device has seen on them. -/
def Port.lines (p : Port) : Gpio :=
  ⟨p.latch.getLsbD 7, p.latch.getLsbD 6, p.rises.map fun r => .clock r.mosi⟩

section Lines

variable (pins : Pins) (p : Port)

theorem lines_setClk (val : Bool) : (setClk pins val p).lines = spiSetClk val p.lines := by
  obtain ⟨w, hw, hbits⟩ := setBit_eq pins p (show 7 < 32 by decide) val
  have hclk : w.getLsbD 7 = val := hbits 7 pins.clkOut
  have hmosi : w.getLsbD 6 = p.latch.getLsbD 6 := hbits 6 pins.mosiOut
  rw [setClk, hw, writeGpgdat, Port.lines, spiSetClk, Port.lines, hclk, hmosi, Bool.and_comm val]
  dsimp only
  split_ifs
  · rw [List.map_append]
    rfl
  · rfl

theorem lines_setDo (val : Bool) : (setDo pins val p).lines = spiSetDo val p.lines := by
  obtain ⟨w, hw, hbits⟩ := setBit_eq pins p (show 6 < 32 by decide) val
  have hclk : w.getLsbD 7 = p.latch.getLsbD 7 := hbits 7 pins.clkOut
  have hmosi : w.getLsbD 6 = val := hbits 6 pins.mosiOut
  rw [setDo, hw, writeGpgdat, Port.lines, spiSetDo, Port.lines, hclk, hmosi]
  dsimp only
  rw [if_neg (by cases p.latch.getLsbD 7 <;> decide)]

/-- The loop of `SPISendByte` does to the lines what it does in `Gpio.lean`. -/
theorem lines_sendLoop (n : ℕ) (val : Byte) :
    (sendLoop pins n val p).lines = gpioSendLoop n val p.lines := by
  induction n generalizing val p with
  | zero => rfl
  | succ n ih => rw [sendLoop, ih, lines_setClk, lines_setDo, lines_setClk, gpioSendLoop]

/-- So does the loop of `SPIRecvByte`, whatever the device answers. -/
theorem lines_recvLoop (di : List BitEvent → Bool) (n : ℕ) (val val' : Byte) :
    (recvLoop pins n val p).2.lines = (gpioRecvLoop di n val' p.lines).2 := by
  induction n generalizing val val' p with
  | zero => rfl
  | succ n ih =>
    have hlow : (getDi pins (setClk pins false p)).2.lines = spiSetClk false p.lines := by
      rw [getDi_eq]
      exact lines_setClk pins p false
    show (recvLoop pins n _ (setClk pins true (getDi pins (setClk pins false p)).2)).2.lines =
      (gpioRecvLoop di n _ (spiSetClk true (spiSetClk false p.lines))).2
    rw [← hlow, ← lines_setClk]
    exact ih _ _ _

/-! ## Edges -/

theorem setClk_low : (setClk pins false p).rises = p.rises ∧
    (setClk pins false p).latch.getLsbD 7 = false := by
  obtain ⟨w, hw, hbits⟩ := setBit_eq pins p (show 7 < 32 by decide) false
  have hclk : w.getLsbD 7 = false := hbits 7 pins.clkOut
  rw [setClk, hw, writeGpgdat]
  refine ⟨if_neg ?_, hclk⟩
  rw [hclk, Bool.and_false]
  exact Bool.false_ne_true

theorem setDo_edges (val : Bool) : (setDo pins val p).rises = p.rises ∧
    (setDo pins val p).latch.getLsbD 7 = p.latch.getLsbD 7 := by
  obtain ⟨w, hw, hbits⟩ := setBit_eq pins p (show 6 < 32 by decide) val
  have hclk : w.getLsbD 7 = p.latch.getLsbD 7 := hbits 7 pins.clkOut
  rw [setDo, hw, writeGpgdat]
  refine ⟨if_neg ?_, hclk⟩
  rw [hclk, Bool.not_and_self]
  exact Bool.false_ne_true

/-- The rising edge. -/
theorem setClk_high (h : p.latch.getLsbD 7 = false) :
    (setClk pins true p).rises = p.rises ++ [⟨p.latch.getLsbD 6, pins.miso p.falls⟩] := by
  obtain ⟨w, hw, hbits⟩ := setBit_eq pins p (show 7 < 32 by decide) true
  have hclk : w.getLsbD 7 = true := hbits 7 pins.clkOut
  have hmosi : w.getLsbD 6 = p.latch.getLsbD 6 := hbits 6 pins.mosiOut
  rw [setClk, hw, writeGpgdat]
  dsimp only
  rw [hclk, hmosi, h, if_pos (by decide)]

end Lines

/-! ## The loops -/

/-- The bits, shifted in from the right. -/
def shiftIn (val : Byte) (bits : List Bool) : Byte :=
  bits.foldl (fun val bit => if bit then (val <<< 1) ||| 1 else val <<< 1) val

/-- Eight bits make a byte, the first of them the most significant one. -/
theorem msbFirst_shiftIn {bits : List Bool} (h : bits.length = 8) :
    msbFirst (shiftIn 0 bits) = bits := by
  have hall : ∀ bits : List.Vector Bool 8, msbFirst (shiftIn 0 bits.1) = bits.1 := by
    decide +kernel
  exact hall ⟨bits, h⟩

section Loops

variable (pins : Pins)

/-- Each pass of the loop of `SPIRecvByte` has one rising edge and shifts in the level of MISO
    before it. -/
theorem recvLoop_spec (n : ℕ) (val : Byte) (p : Port) :
    ∃ rises : List Rise, rises.length = n ∧ (recvLoop pins n val p).2.rises = p.rises ++ rises ∧
      (recvLoop pins n val p).1 = shiftIn val (rises.map Rise.miso) := by
  induction n generalizing val p with
  | zero => exact ⟨[], rfl, (List.append_nil _).symm, rfl⟩
  | succ n ih =>
    obtain ⟨hrises, hclk⟩ := setClk_low pins p
    rw [recvLoop, getDi_eq]
    dsimp only
    generalize setClk pins false p = p₁ at hrises hclk ⊢
    have hrise := setClk_high pins { p₁ with reads := p₁.reads + 1 } hclk
    obtain ⟨rises, hlen, hmore, hval⟩ := ih
      (if pins.miso p₁.falls then (val <<< 1) ||| 1 else val <<< 1)
      (setClk pins true { p₁ with reads := p₁.reads + 1 })
    refine ⟨⟨p₁.latch.getLsbD 6, pins.miso p₁.falls⟩ :: rises, by rw [List.length_cons, hlen],
      ?_, hval⟩
    rw [hmore, hrise, List.append_assoc]
    exact congrArg (· ++ _) hrises

/-- Each pass of the loop of `SPISendByte` has one rising edge. -/
theorem sendLoop_rises (n : ℕ) (val : Byte) (p : Port) :
    ∃ rises : List Rise, (sendLoop pins n val p).rises = p.rises ++ rises := by
  induction n generalizing val p with
  | zero => exact ⟨[], (List.append_nil _).symm⟩
  | succ n ih =>
    obtain ⟨hlow, hclk⟩ := setClk_low pins p
    obtain ⟨hdo, hclk'⟩ := setDo_edges pins (setClk pins false p) (val &&& 0x80 ≠ 0)
    have hrise := setClk_high pins (setDo pins (val &&& 0x80 ≠ 0) (setClk pins false p))
      (hclk'.trans hclk)
    obtain ⟨rises, hmore⟩ := ih (val <<< 1)
      (setClk pins true (setDo pins (val &&& 0x80 ≠ 0) (setClk pins false p)))
    rw [hdo, hlow] at hrise
    rw [hrise, List.append_assoc] at hmore
    exact ⟨_, hmore⟩

/-- `SPISendByte` has eight rising edges, at which MOSI has the bits of the byte. -/
theorem spiSendByte_spec (val : Byte) (p : Port) :
    ∃ rises : List Rise, rises.length = 8 ∧ (spiSendByte pins val p).rises = p.rises ++ rises ∧
      rises.map Rise.mosi = msbFirst val := by
  obtain ⟨rises, hrises⟩ := sendLoop_rises pins 8 val p
  have hlines : (spiSendByte pins val p).lines.bits =
      p.lines.bits ++ (msbFirst val).map .clock := by
    rw [spiSendByte, lines_sendLoop]
    exact gpioSendLoop_bits 8 val p.lines
  have hmosi : rises.map Rise.mosi = msbFirst val := by
    have hbits : (p.rises ++ rises).map (fun r => BitEvent.clock r.mosi) =
        p.rises.map (fun r => BitEvent.clock r.mosi) ++ (msbFirst val).map .clock := by
      rw [← hrises]
      exact hlines
    rw [List.map_append, List.append_cancel_left_eq] at hbits
    have hinj : Function.Injective BitEvent.clock := fun a b h => BitEvent.clock.inj h
    refine List.map_injective_iff.mpr hinj ?_
    rw [List.map_map]
    exact hbits
  have hlen : rises.length = 8 := by
    rw [← List.length_map (f := Rise.mosi), hmosi]
    rfl
  exact ⟨rises, hlen, hrises, hmosi⟩

/-- `SPIRecvByte` has eight rising edges, and returns the levels of MISO before them. -/
theorem spiRecvByte_spec (p : Port) :
    ∃ rises : List Rise, rises.length = 8 ∧ (spiRecvByte pins p).2.rises = p.rises ++ rises ∧
      rises.map Rise.miso = msbFirst (spiRecvByte pins p).1 := by
  obtain ⟨rises, hlen, hrises, hval⟩ := recvLoop_spec pins 8 0 p
  refine ⟨rises, hlen, hrises, ?_⟩
  rw [spiRecvByte, hval, msbFirst_shiftIn (by rwa [List.length_map])]

end Loops

/-! ## The other bits -/

/-- Everything that was written keeps the output bits other than 6 and 7 as they are in
    `latch`. -/
def KeepsOthers (pins : Pins) (latch : Word) (p : Port) : Prop :=
  ∀ w ∈ p.latch :: p.writes, ∀ i, pins.outputs.getLsbD i = true → i ≠ 6 → i ≠ 7 →
    w.getLsbD i = latch.getLsbD i

section Others

variable {pins : Pins} {latch : Word} {p : Port}

theorem KeepsOthers.setBit (h : KeepsOthers pins latch p) {n : ℕ} (hn : n = 6 ∨ n = 7)
    (val : Bool) : KeepsOthers pins latch (setBit pins n val p) := by
  obtain ⟨w, hw, hbits⟩ := setBit_eq pins p (show n < 32 by omega) val
  have hnew : ∀ i, pins.outputs.getLsbD i = true → i ≠ 6 → i ≠ 7 →
      w.getLsbD i = latch.getLsbD i := by
    intro i hi h6 h7
    rw [hbits i hi, if_neg (by omega)]
    exact h p.latch List.mem_cons_self i hi h6 h7
  rw [hw]
  intro w' hw'
  obtain rfl | hw' := List.mem_cons.mp hw'
  · exact hnew
  · obtain hw' | hw' := List.mem_append.mp hw'
    · exact h w' (List.mem_cons_of_mem _ hw')
    · rw [List.mem_singleton.mp hw']
      exact hnew

theorem KeepsOthers.sendLoop (h : KeepsOthers pins latch p) (n : ℕ) (val : Byte) :
    KeepsOthers pins latch (sendLoop pins n val p) := by
  induction n generalizing val p with
  | zero => exact h
  | succ n ih =>
    exact ih (((h.setBit (.inr rfl) _).setBit (.inl rfl) _).setBit (.inr rfl) _) _

theorem KeepsOthers.recvLoop (h : KeepsOthers pins latch p) (n : ℕ) (val : Byte) :
    KeepsOthers pins latch (recvLoop pins n val p).2 := by
  induction n generalizing val p with
  | zero => exact h
  | succ n ih =>
    have hlow := h.setBit (.inr rfl : 7 = 6 ∨ 7 = 7) false
    rw [Gpgdat.recvLoop, getDi_eq]
    exact ih (KeepsOthers.setBit (p := { setClk pins false p with
      reads := (setClk pins false p).reads + 1 }) hlow (.inr rfl) true) _

end Others

/-! ## Sequences of calls -/

/-- The two functions. -/
inductive SpiCall
  | send (val : Byte)
  | recv
  deriving DecidableEq

/-- A call that has returned: what it has returned (0 for `SPISendByte`), and the rising edges
    that it has made. -/
structure Done where
  call : SpiCall
  ret : Byte
  rises : List Rise

/-- The port and the calls so far. -/
structure Session where
  port : Port
  log : List Done

/-- One more call. -/
def perform (pins : Pins) (s : Session) (c : SpiCall) : Session :=
  let r : Byte × Port := match c with
    | .send val => (0, spiSendByte pins val s.port)
    | .recv => spiRecvByte pins s.port
  ⟨r.2, s.log ++ [⟨c, r.1, r.2.rises.drop s.port.rises.length⟩]⟩

/-- The port with some contents of the register, before the first call. -/
def startSession (latch : Word) : Session := ⟨⟨latch, 0, 0, [], []⟩, []⟩

/-- Eight rising edges; MOSI has the bits of the byte that is sent, and the byte that is received
    has the levels of MISO. -/
def Done.Faithful (d : Done) : Prop :=
  d.rises.length = 8 ∧ match d.call with
    | .send val => d.rises.map Rise.mosi = msbFirst val
    | .recv => d.rises.map Rise.miso = msbFirst d.ret

/-- All edges are those of the calls, and each call is faithful. -/
structure SessionInv (pins : Pins) (latch : Word) (s : Session) : Prop where
  edges : s.port.rises = s.log.flatMap Done.rises
  faithful : ∀ d ∈ s.log, d.Faithful
  others : KeepsOthers pins latch s.port

theorem SessionInv.perform {pins : Pins} {latch : Word} {s : Session}
    (h : SessionInv pins latch s) (c : SpiCall) : SessionInv pins latch (perform pins s c) := by
  obtain ⟨hedges, hfaithful, hothers⟩ := h
  cases c with
  | send val =>
    obtain ⟨rises, hlen, hrises, hmosi⟩ := spiSendByte_spec pins val s.port
    refine ⟨?_, List.forall_mem_append.mpr ⟨hfaithful, List.forall_mem_singleton.mpr ?_⟩,
      hothers.sendLoop 8 val⟩
    · simp [Gpgdat.perform, hrises, ← hedges]
    · simp only [hrises, List.drop_left]
      exact ⟨hlen, hmosi⟩
  | recv =>
    obtain ⟨rises, hlen, hrises, hmiso⟩ := spiRecvByte_spec pins s.port
    refine ⟨?_, List.forall_mem_append.mpr ⟨hfaithful, List.forall_mem_singleton.mpr ?_⟩,
      hothers.recvLoop 8 0⟩
    · simp [Gpgdat.perform, hrises, ← hedges]
    · simp only [hrises, List.drop_left]
      exact ⟨hlen, hmiso⟩

/-- In every sequence of calls, from any contents of `GPGDAT`, each call makes eight rising
    edges and there are no others; the device receives the bytes that are sent and the code the
    bytes that the device sends, most significant bit first; and everything that is written
    keeps the other output bits. -/
theorem transfers_faithful (pins : Pins) (latch : Word) (calls : List SpiCall) :
    (calls.foldl (perform pins) (startSession latch)).log.map Done.call = calls ∧
      SessionInv pins latch (calls.foldl (perform pins) (startSession latch)) := by
  have hstart : SessionInv pins latch (startSession latch) :=
    ⟨rfl, fun d hd => absurd hd List.not_mem_nil, fun w hw i _ _ _ => by
      rw [List.mem_singleton.mp hw]
      rfl⟩
  have hrun : ∀ s, SessionInv pins latch s →
      (calls.foldl (perform pins) s).log.map Done.call = s.log.map Done.call ++ calls ∧
        SessionInv pins latch (calls.foldl (perform pins) s) := by
    induction calls with
    | nil => exact fun s hs => ⟨(List.append_nil _).symm, hs⟩
    | cons c calls ih =>
      intro s hs
      obtain ⟨hcalls, hinv⟩ := ih (perform pins s c) (hs.perform c)
      refine ⟨hcalls.trans ?_, hinv⟩
      simp [perform]
  exact hrun _ hstart

/-- The device answers 0xef to the command 0x9f, with the pins as after reset and
    `SPI_GPIO_Init`. -/
theorem transfers_faithful_readId :
    let pins := initPins 0 (fun falls => falls ≠ 11) fun _ => 0
    let s := [SpiCall.send 0x9f, .recv].foldl (perform pins) (startSession 4)
    s.log.map Done.ret = [0, 0xef] ∧ SessionInv pins 4 s :=
  ⟨by decide +kernel, (transfers_faithful _ _ _).2⟩

end Jz2440.Spi.Gpgdat
