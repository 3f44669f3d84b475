import Jz2440.Spi.Flash

/-!
# The bit-banged SPI functions

Model of `SPISendByte` and `SPIRecvByte` of
`04th_spi_i2c_adc_jz2440_ok_020_005/gpio_spi.c`. A device samples the data line at
every rising edge of the clock, so what it sees is the sequence of these samples
and of the changes of its other lines: a list of `BitEvent`. What it answers on
its own data line is a function of what it has seen, `di`.

A second, byte-wise bus (`byteBus`) records whole bytes. While a byte is received
the master has nothing to say: `SPIRecvByte` leaves its data line as it is.

* `gpioSendLoop_bits`, `gpioSendLoop_dout`: what the loop of eight clocks sends, and the
  level that it leaves on the data line; `gpioRecvLoop_eq`: the loop that receives.
* `gpioBus_refines_byteBus`: on the bit-banged bus every program has the result that
  it has on the byte-wise bus, and the devices see the bits of the bytes, most
  significant bit first.
-/

namespace Jz2440.Spi

open Jz2440.Common

/-! ## The byte-wise bus -/

/-- A byte-wise event: a line changes, a byte is sent, or one is asked for. -/
inductive SpiEvent
  | cs (dev : SpiDev) (val : Bool)
  | dc (val : Bool)
  | byte (val : Byte)
  | asked
  deriving DecidableEq

/-- A bus whose devices see whole bytes and answer by `reply`. -/
def byteBus (reply : List SpiEvent → Byte) : SpiBus (List SpiEvent)
  | .setCs dev val, h => ((), h ++ [.cs dev val])
  | .setDc val, h => ((), h ++ [.dc val])
  | .send val, h => ((), h ++ [.byte val])
  | .recv, h => (reply h, h ++ [.asked])

/-! ## The pins -/

/-- What a device sees: a line changes, or the clock rises with a bit on the data line. -/
inductive BitEvent
  | cs (dev : SpiDev) (val : Bool)
  | dc (val : Bool)
  | clock (bit : Bool)
  deriving DecidableEq

/-- The clock and data pins (GPG7, GPG6), and what the devices have seen. -/
structure Gpio where
  clk : Bool
  dout : Bool
  bits : List BitEvent

/-- `SPI_Set_CLK` (gpio_spi.c:23-29). -/
def spiSetClk (val : Bool) (g : Gpio) : Gpio :=
  { g with clk := val, bits := if val && !g.clk then g.bits ++ [.clock g.dout] else g.bits }

/-- `SPI_Set_DO` (gpio_spi.c:31-37). -/
def spiSetDo (val : Bool) (g : Gpio) : Gpio := { g with dout := val }

/-- `SPI_Get_DI` (gpio_spi.c:39-45): the level that the device drives. -/
def spiGetDi (di : List BitEvent → Bool) (g : Gpio) : Bool := di g.bits

/-- The loop of `SPISendByte` (gpio_spi.c:47-58) with `n` bits to go. -/
def gpioSendLoop : ℕ → Byte → Gpio → Gpio
  | 0, _, g => g
  | n + 1, val, g =>
    let g := spiSetClk false g
    let g := spiSetDo (val &&& 0x80 ≠ 0) g
    let g := spiSetClk true g
    gpioSendLoop n (val <<< 1) g

/-- The loop of `SPIRecvByte` (gpio_spi.c:60-73) with `n` bits to go. -/
def gpioRecvLoop (di : List BitEvent → Bool) : ℕ → Byte → Gpio → Byte × Gpio
  | 0, val, g => (val, g)
  | n + 1, val, g =>
    let val := val <<< 1
    let g := spiSetClk false g
    let val := if spiGetDi di g then val ||| 1 else val
    let g := spiSetClk true g
    gpioRecvLoop di n val g

/-- The bit-banged bus. -/
def gpioBus (di : List BitEvent → Bool) : SpiBus Gpio
  | .setCs dev val, g => ((), { g with bits := g.bits ++ [.cs dev val] })
  | .setDc val, g => ((), { g with bits := g.bits ++ [.dc val] })
  | .send val, g => ((), gpioSendLoop 8 val g)
  | .recv, g => gpioRecvLoop di 8 0 g

/-! ## The bits of a byte -/

/-- The bits of a byte in the order in which they are sent. -/
def msbFirst (val : Byte) : List Bool := (List.range 8).map val.getMsbD

/-- What the devices have seen after some byte-wise events, and the level of the data
    line then; `level` is the level that the line has at first. -/
def bitsOf (level : Bool) (h : List SpiEvent) : List BitEvent × Bool :=
  h.foldl (fun s e => match e with
    | .cs dev val => (s.1 ++ [.cs dev val], s.2)
    | .dc val => (s.1 ++ [.dc val], s.2)
    | .byte val => (s.1 ++ (msbFirst val).map .clock, val.getMsbD 7)
    | .asked => (s.1 ++ List.replicate 8 (.clock s.2), s.2)) ([], level)

/-- The next `n` bits that the device answers, shifted into `val`, while the data line
    stays at `level`. -/
def answerBits (di : List BitEvent → Bool) (level : Bool) : ℕ → Byte → List BitEvent → Byte
  | 0, val, _ => val
  | n + 1, val, bits =>
    answerBits di level n ((val <<< 1) ||| (if di bits then 1 else 0)) (bits ++ [.clock level])

/-- The byte that the device answers after some byte-wise events. -/
def replyOf (di : List BitEvent → Bool) (level : Bool) (h : List SpiEvent) : Byte :=
  answerBits di (bitsOf level h).2 8 0 (bitsOf level h).1

theorem msb_set_iff (val : Byte) : decide (val &&& 0x80 ≠ 0) = val.getMsbD 0 := by
  revert val
  decide

theorem spiSetClk_send (bit : Bool) (g : Gpio) :
    spiSetClk true (spiSetDo bit (spiSetClk false g)) = ⟨true, bit, g.bits ++ [.clock bit]⟩ := by
  simp [spiSetClk, spiSetDo]

theorem spiSetClk_recv (g : Gpio) :
    spiSetClk true (spiSetClk false g) = ⟨true, g.dout, g.bits ++ [.clock g.dout]⟩ := by
  simp [spiSetClk]

/-! ## The loops -/

theorem gpioSendLoop_bits (n : ℕ) (val : Byte) (g : Gpio) :
    (gpioSendLoop n val g).bits =
      g.bits ++ ((List.range n).map val.getMsbD).map .clock := by
  induction n generalizing val g with
  | zero => exact (List.append_nil _).symm
  | succ n ih =>
    have hshift : (val <<< 1).getMsbD = val.getMsbD ∘ Nat.succ := by
      funext i
      exact BitVec.getMsbD_shiftLeft val 1
    rw [gpioSendLoop, spiSetClk_send, ih, hshift, msb_set_iff, List.range_succ_eq_map,
      ← List.map_map, List.append_assoc]
    rfl

theorem gpioSendLoop_dout (n : ℕ) (val : Byte) (g : Gpio) :
    (gpioSendLoop (n + 1) val g).dout = val.getMsbD n := by
  induction n generalizing val g with
  | zero =>
    rw [gpioSendLoop, spiSetClk_send, gpioSendLoop]
    exact msb_set_iff val
  | succ n ih =>
    rw [gpioSendLoop, ih]
    exact BitVec.getMsbD_shiftLeft val 1

theorem gpioRecvLoop_eq (di : List BitEvent → Bool) (n : ℕ) (val : Byte) (g : Gpio) :
    (gpioRecvLoop di n val g).1 = answerBits di g.dout n val g.bits ∧
      (gpioRecvLoop di n val g).2.bits = g.bits ++ List.replicate n (.clock g.dout) ∧
      (gpioRecvLoop di n val g).2.dout = g.dout := by
  induction n generalizing val g with
  | zero => exact ⟨rfl, (List.append_nil _).symm, rfl⟩
  | succ n ih =>
    have hval : (if spiGetDi di (spiSetClk false g) then (val <<< 1) ||| 1 else val <<< 1) =
        (val <<< 1) ||| (if di g.bits then 1 else 0) := by
      show (if di (spiSetClk false g).bits then _ else _) = _
      rw [show (spiSetClk false g).bits = g.bits from rfl]
      split
      · rfl
      · exact (BitVec.or_zero).symm
    rw [gpioRecvLoop, spiSetClk_recv, hval]
    obtain ⟨hans, hbits, hdout⟩ := ih ((val <<< 1) ||| (if di g.bits then 1 else 0))
      ⟨true, g.dout, g.bits ++ [.clock g.dout]⟩
    refine ⟨hans, ?_, hdout⟩
    rw [hbits, List.replicate_succ, List.append_assoc, List.singleton_append]

/-! ## Refinement -/

/-- The devices have seen the bits of the byte-wise events, and the data line is at
    the level that they leave. -/
def SeesBits (level : Bool) (g : Gpio) (h : List SpiEvent) : Prop :=
  (g.bits, g.dout) = bitsOf level h

theorem bitsOf_append (level : Bool) (h : List SpiEvent) (e : SpiEvent) :
    bitsOf level (h ++ [e]) = match e with
      | .cs dev val => ((bitsOf level h).1 ++ [.cs dev val], (bitsOf level h).2)
      | .dc val => ((bitsOf level h).1 ++ [.dc val], (bitsOf level h).2)
      | .byte val => ((bitsOf level h).1 ++ (msbFirst val).map .clock, val.getMsbD 7)
      | .asked => ((bitsOf level h).1 ++ List.replicate 8 (.clock (bitsOf level h).2),
          (bitsOf level h).2) := by
  rw [bitsOf, List.foldl_append]
  rfl

theorem SeesBits.step {di : List BitEvent → Bool} {level : Bool} {g : Gpio} {h : List SpiEvent}
    (hgh : SeesBits level g h) (r : SpiReq) :
    SeesBits level (gpioBus di r g).2 (byteBus (replyOf di level) r h).2 ∧
      (gpioBus di r g).1 = (byteBus (replyOf di level) r h).1 := by
  unfold SeesBits at *
  cases r with
  | setCs dev val =>
    refine ⟨?_, rfl⟩
    show _ = bitsOf level (h ++ [.cs dev val])
    rw [bitsOf_append, ← hgh]
    rfl
  | setDc val =>
    refine ⟨?_, rfl⟩
    show _ = bitsOf level (h ++ [.dc val])
    rw [bitsOf_append, ← hgh]
    rfl
  | send val =>
    refine ⟨?_, rfl⟩
    show ((gpioSendLoop 8 val g).bits, (gpioSendLoop 8 val g).dout) =
      bitsOf level (h ++ [.byte val])
    rw [bitsOf_append, ← hgh, gpioSendLoop_bits, gpioSendLoop_dout]
    rfl
  | recv =>
    obtain ⟨hans, hbits, hdout⟩ := gpioRecvLoop_eq di 8 0 g
    refine ⟨?_, ?_⟩
    · show ((gpioRecvLoop di 8 0 g).2.bits, (gpioRecvLoop di 8 0 g).2.dout) =
        bitsOf level (h ++ [.asked])
      rw [bitsOf_append, ← hgh, hbits, hdout]
    · show (gpioRecvLoop di 8 0 g).1 = replyOf di level h
      rw [replyOf, ← hgh, hans]

/-- Every program over the bit-banged functions has the result that it has on the
    byte-wise bus, and the devices see the bits of its bytes. -/
theorem gpioBus_refines_byteBus {α : Type} (di : List BitEvent → Bool) (level : Bool)
    (p : SpiProg α) {g : Gpio} {h : List SpiEvent} (hgh : SeesBits level g h) :
    SeesBits level (p.run (gpioBus di) g).2 (p.run (byteBus (replyOf di level)) h).2 ∧
      (p.run (gpioBus di) g).1 = (p.run (byteBus (replyOf di level)) h).1 :=
  Prog.run_refines (fun r _ _ hst => hst.step r) p hgh

end Jz2440.Spi
