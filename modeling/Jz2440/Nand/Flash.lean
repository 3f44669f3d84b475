import Jz2440.Common.Loop
import Jz2440.Nand.Chip

/-!
# `nand_read` and `nand_write`

Model of `nand_flash.c` in
`hard_driver/first_hard/019_nand_flash_016/004_erase_write_016_005`.

Both functions keep three counters: `i` (bytes done), `page` and `col`. The
outer loop handles one page per pass, the inner loop the columns of that page.
`addr` and `len` are `unsigned int`; with `addr + len` inside the device no
counter overflows, so the counters are natural numbers.
-/

namespace Jz2440.Nand

open Jz2440.Common

/-! ## `nand_read` -/

/-- The local variables of `nand_read` (nand_flash.c:84-88), the buffer and the
    chip. -/
structure ReadState where
  i : ℕ
  page : ℕ
  col : ℕ
  buf : ℕ → Byte
  chip : Chip

/-- The condition `(col < 2048) && (i < len)` of the inner loop. -/
def ReadState.More (len : ℕ) (s : ReadState) : Prop := s.col < 2048 ∧ s.i < len

instance (len : ℕ) : DecidablePred (ReadState.More len) :=
  fun _ => inferInstanceAs (Decidable (_ ∧ _))

/-- `buf[i++] = nand_data(); col++` (nand_flash.c:114-117). -/
def readByte (s : ReadState) : ReadState :=
  let d := nandData s.chip
  { s with buf := Function.update s.buf s.i d.1, i := s.i + 1, col := s.col + 1, chip := d.2 }

/-- The inner loop of `nand_read`; `col` counts up to 2048. -/
def readColumns (len : ℕ) (s : ReadState) : ReadState :=
  repeatWhile (ReadState.More len) readByte 2048 s

/-- One pass of the outer loop of `nand_read` (nand_flash.c:92-123). -/
def nandReadPass (len : ℕ) (s : ReadState) : Pass ReadState ReadState :=
  if s.i < len then
    let chip := nandCmd 0x00 s.chip
    let chip := nandCol s.col chip
    let chip := nandPage s.page chip
    let chip := nandCmd 0x30 chip
    let s := readColumns len { s with chip := chip }
    if s.i = len then .leave s
    else .again { s with col := 0, page := s.page + 1 }
  else .leave s

/-- `nand_read` (nand_flash.c:84-126): the buffer and the chip afterwards. -/
def nandRead (fuel addr : ℕ) (buf : ℕ → Byte) (len : ℕ) (chip : Chip) :
    Option ((ℕ → Byte) × Chip) :=
  (loop (nandReadPass len) fuel
    { i := 0, page := addr / 2048, col := addr &&& (2048 - 1), buf := buf,
      chip := nandSelect chip }).map fun s => (s.buf, nandDeselect s.chip)

/-! ## `nand_write` -/

/-- The local variables of `nand_write` (nand_flash.c:172-176) and the chip. -/
structure WriteState where
  i : ℕ
  page : ℕ
  col : ℕ
  chip : Chip

/-- The condition `(col < 2048) && (i < len)` of the inner loop. -/
def WriteState.More (len : ℕ) (s : WriteState) : Prop := s.col < 2048 ∧ s.i < len

instance (len : ℕ) : DecidablePred (WriteState.More len) :=
  fun _ => inferInstanceAs (Decidable (_ ∧ _))

/-- `nand_w_data(buf[i++])` (nand_flash.c:195-198). The loop has no increment
    of `col`. -/
def writeByte (buf : ℕ → Byte) (s : WriteState) : WriteState :=
  { s with chip := nandWData (buf s.i) s.chip, i := s.i + 1 }

/-- The inner loop of `nand_write`; `i` counts up to `len`. -/
def writeColumns (buf : ℕ → Byte) (len : ℕ) (s : WriteState) : WriteState :=
  repeatWhile (WriteState.More len) (writeByte buf) len s

/-- One pass of the outer `while (1)` of `nand_write` (nand_flash.c:180-211). -/
def nandWritePass (buf : ℕ → Byte) (len : ℕ) (s : WriteState) : Pass WriteState WriteState :=
  let chip := nandCmd 0x80 s.chip
  let chip := nandCol s.col chip
  let chip := nandPage s.page chip
  let s := writeColumns buf len { s with chip := chip }
  let s := { s with chip := nandCmd 0x10 s.chip }
  if s.i = len then .leave s
  else .again { s with col := 0, page := s.page + 1 }

/-- `nand_write` (nand_flash.c:172-214): the chip afterwards. -/
def nandWrite (fuel addr : ℕ) (buf : ℕ → Byte) (len : ℕ) (chip : Chip) : Option Chip :=
  (loop (nandWritePass buf len) fuel
    { i := 0, page := addr / 2048, col := addr &&& (2048 - 1), chip := nandSelect chip }).map
    fun s => nandDeselect s.chip

end Jz2440.Nand
