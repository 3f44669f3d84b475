import Jz2440.Common.Bytes
import Jz2440.Common.Prog

/-!
# The SPI flash and OLED operations

Model of `spi_flash.c` and of the byte writes of `oled.c` in
`hard_driver/first_hard/023_spi_020`. The files of the directories
`04th_spi_i2c_adc_jz2440_ok_020_005` and
`05th_spi_i2c_adc_jz2440_spi_controller_020_006` differ in one include only: the
former uses the bit-banged `SPISendByte` and `SPIRecvByte` of `gpio_spi.c`, the
latter those of `s3c2440_spi.c`. So the operations are programs over these two
functions and over the select and data/command lines, and the two versions of the
functions are two handlers.

`while (SPIFlashReadStatusReg1() & 1);` may poll for ever; it gets fuel, and an
operation that has run out of it returns `none`.
-/

namespace Jz2440.Spi

open Jz2440.Common

/-- The devices on the bus, each with a chip-select line of its own. -/
inductive SpiDev
  | flash
  | oled
  deriving DecidableEq

/-- What the operations do to the bus: set a chip-select line (active low), set the
    data/command line of the OLED, send a byte, receive a byte. -/
inductive SpiReq
  | setCs (dev : SpiDev) (val : Bool)
  | setDc (val : Bool)
  | send (val : Byte)
  | recv
  deriving DecidableEq

/-- Only `SPIRecvByte` returns a value. -/
abbrev SpiReq.Ans : SpiReq → Type
  | .recv => Byte
  | _ => Unit

abbrev SpiProg := Prog SpiReq SpiReq.Ans

abbrev SpiBus (σ : Type) := Prog.Handler SpiReq SpiReq.Ans σ

def spiSendByte (val : Byte) : SpiProg Unit := Prog.request (SpiReq.send val)
def spiRecvByte : SpiProg Byte := Prog.request SpiReq.recv

/-! ## The flash -/

/-- `SPIFlash_Set_CS` (spi_flash.c:5-11). -/
def spiFlashSetCs (val : Bool) : SpiProg Unit := Prog.request (SpiReq.setCs .flash val)

/-- `SPIFlashSendAddr` (spi_flash.c:13-18): the argument of `SPISendByte` is an
    `unsigned char`. -/
def spiFlashSendAddr (addr : Word) : SpiProg Unit := do
  spiSendByte ((addr >>> 16).setWidth 8)
  spiSendByte ((addr >>> 8).setWidth 8)
  spiSendByte ((addr &&& 0xff).setWidth 8)

/-- `SPIFlashReadID` (spi_flash.c:23-35). -/
def spiFlashReadID : SpiProg (Byte × Byte) := do
  spiFlashSetCs false
  spiSendByte 0x90
  spiFlashSendAddr 0
  let mid ← spiRecvByte
  let did ← spiRecvByte
  spiFlashSetCs true
  return (mid, did)

/-- `SPIFlashWriteEnable` (spi_flash.c:37-51). -/
def spiFlashWriteEnable (enable : Bool) : SpiProg Unit := do
  spiFlashSetCs false
  spiSendByte (if enable then 0x06 else 0x04)
  spiFlashSetCs true

/-- The common body of the two functions that read a status register. -/
def readStatusReg (cmd : Byte) : SpiProg Byte := do
  spiFlashSetCs false
  spiSendByte cmd
  let val ← spiRecvByte
  spiFlashSetCs true
  return val

/-- `SPIFlashReadStatusReg1` (spi_flash.c:53-61). -/
def spiFlashReadStatusReg1 : SpiProg Byte := readStatusReg 0x05

/-- `SPIFlashReadStatusReg2` (spi_flash.c:63-71). -/
def spiFlashReadStatusReg2 : SpiProg Byte := readStatusReg 0x35

/-- `SPIFlashWaitWhenBusy` (spi_flash.c:73-76). -/
def spiFlashWaitWhenBusy : ℕ → SpiProg (Option Unit)
  | 0 => pure none
  | fuel + 1 => do
    let val ← spiFlashReadStatusReg1
    if val &&& 1 ≠ 0 then spiFlashWaitWhenBusy fuel else return some ()

/-- `SPIFlashWriteStatusReg` (spi_flash.c:78-89). -/
def spiFlashWriteStatusReg (fuel : ℕ) (reg1 reg2 : Byte) : SpiProg (Option Unit) := do
  spiFlashWriteEnable true
  spiFlashSetCs false
  spiSendByte 0x01
  spiSendByte reg1
  spiSendByte reg2
  spiFlashSetCs true
  spiFlashWaitWhenBusy fuel

/-- `SPIFlashClearProtectForStatusReg` (spi_flash.c:91-102). -/
def spiFlashClearProtectForStatusReg (fuel : ℕ) : SpiProg (Option Unit) := do
  let reg1 ← spiFlashReadStatusReg1
  let reg2 ← spiFlashReadStatusReg2
  spiFlashWriteStatusReg fuel (reg1 &&& ~~~(1#8 <<< 7)) (reg2 &&& ~~~(1#8 <<< 0))

/-- `SPIFlashClearProtectForData` (spi_flash.c:105-117). -/
def spiFlashClearProtectForData (fuel : ℕ) : SpiProg (Option Unit) := do
  let reg1 ← spiFlashReadStatusReg1
  let reg2 ← spiFlashReadStatusReg2
  spiFlashWriteStatusReg fuel (reg1 &&& ~~~(7#8 <<< 2)) (reg2 &&& ~~~(1#8 <<< 6))

/-- `SPIFlashEraseSector` (spi_flash.c:120-130). -/
def spiFlashEraseSector (fuel : ℕ) (addr : Word) : SpiProg (Option Unit) := do
  spiFlashWriteEnable true
  spiFlashSetCs false
  spiSendByte 0x20
  spiFlashSendAddr addr
  spiFlashSetCs true
  spiFlashWaitWhenBusy fuel

/-- `for (i = 0; i < len; i++) SPISendByte(buf[i]);`, where `buf` is the list of its
    first `len` bytes. -/
def sendBytes : List Byte → SpiProg Unit
  | [] => pure ()
  | b :: buf => do
    spiSendByte b
    sendBytes buf

/-- `for (i = 0; i < len; i++) buf[i] = SPIRecvByte();`. -/
def recvBytes : ℕ → SpiProg (List Byte)
  | 0 => pure []
  | len + 1 => do
    let b ← spiRecvByte
    let buf ← recvBytes len
    return b :: buf

/-- `SPIFlashProgram` (spi_flash.c:133-150). -/
def spiFlashProgram (fuel : ℕ) (addr : Word) (buf : List Byte) : SpiProg (Option Unit) := do
  spiFlashWriteEnable true
  spiFlashSetCs false
  spiSendByte 0x02
  spiFlashSendAddr addr
  sendBytes buf
  spiFlashSetCs true
  spiFlashWaitWhenBusy fuel

/-- `SPIFlashRead` (spi_flash.c:152-163). -/
def spiFlashRead (addr : Word) (len : ℕ) : SpiProg (List Byte) := do
  spiFlashSetCs false
  spiSendByte 0x03
  spiFlashSendAddr addr
  let buf ← recvBytes len
  spiFlashSetCs true
  return buf

/-- `SPIFlashInit` (spi_flash.c:166-170). -/
def spiFlashInit (fuel : ℕ) : SpiProg (Option Unit) := do
  match ← spiFlashClearProtectForStatusReg fuel with
  | none => return none
  | some () => spiFlashClearProtectForData fuel

/-! ## The OLED -/

/-- `OLED_Set_DC` (oled.c:6-12). -/
def oledSetDc (val : Bool) : SpiProg Unit := Prog.request (SpiReq.setDc val)

/-- `OLED_Set_CS` (oled.c:14-20). -/
def oledSetCs (val : Bool) : SpiProg Unit := Prog.request (SpiReq.setCs .oled val)

/-- The common body of the two write functions. -/
def oledWrite (dc : Bool) (val : Byte) : SpiProg Unit := do
  oledSetDc dc
  oledSetCs false
  spiSendByte val
  oledSetCs true
  oledSetDc true

/-- `OLEDWriteCmd` (oled.c:22-31). -/
def oledWriteCmd (cmd : Byte) : SpiProg Unit := oledWrite false cmd

/-- `OLEDWriteDat` (oled.c:33-42). -/
def oledWriteDat (dat : Byte) : SpiProg Unit := oledWrite true dat

/-! ## Sequences of operations -/

/-- A call of one of the operations. -/
inductive SpiOp
  | readID
  | read (addr : Word) (len : ℕ)
  | program (addr : Word) (buf : List Byte)
  | eraseSector (addr : Word)
  | readStatusReg1
  | readStatusReg2
  | writeStatusReg (reg1 reg2 : Byte)
  | init
  | writeCmd (cmd : Byte)
  | writeDat (dat : Byte)

/-- The call as a program; the results are not needed here. -/
def SpiOp.prog (fuel : ℕ) : SpiOp → SpiProg (Option Unit)
  | readID => do let _ ← spiFlashReadID; return some ()
  | read addr len => do let _ ← spiFlashRead addr len; return some ()
  | program addr buf => spiFlashProgram fuel addr buf
  | eraseSector addr => spiFlashEraseSector fuel addr
  | readStatusReg1 => do let _ ← spiFlashReadStatusReg1; return some ()
  | readStatusReg2 => do let _ ← spiFlashReadStatusReg2; return some ()
  | writeStatusReg reg1 reg2 => spiFlashWriteStatusReg fuel reg1 reg2
  | init => spiFlashInit fuel
  | writeCmd cmd => do oledWriteCmd cmd; return some ()
  | writeDat dat => do oledWriteDat dat; return some ()

/-- A sequence of calls; what follows a call that does not end is not reached. -/
def spiOps (fuel : ℕ) : List SpiOp → SpiProg (Option Unit)
  | [] => return some ()
  | op :: ops => do
    match ← op.prog fuel with
    | none => return none
    | some () => spiOps fuel ops

end Jz2440.Spi
