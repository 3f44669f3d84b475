import Jz2440.Common.Bytes

/-!
# The NAND flash chip and the register accesses of its drivers

The drivers reach the chip only through `NFCONT` (chip select), `NFCCMD`
(command), `NFADDR` (address cycle) and `NFDATA` (data). The chip is a state
machine over these accesses:

* a page has a main area of 2048 bytes, followed by the spare area that starts
  at column 2048; a block is 64 pages, 128 KB of main area;
* read: `00h`, two column cycles, three row cycles, `30h`; then each read of
  `NFDATA` gives the next byte of the page;
* program: `80h`, five address cycles, data bytes, `10h`; byte `j` goes to
  column `col + j` of the addressed page. Programming only clears bits, so on
  an erased column it stores the byte;
* erase: `60h`, three row cycles, `D0h`; all columns of the block become `FFh`.

The chip is ready again when `wait_ready` returns, so waiting does not show in
the state. Accesses while the chip is not selected have no effect.
-/

namespace Jz2440.Nand

open Jz2440.Common

/-- How far the chip has got in a command sequence. -/
inductive Phase
  | idle
  | readAddr (cycles : List Byte)
  | readOut (page col : ℕ)
  | program (cycles data : List Byte)
  | eraseAddr (cycles : List Byte)

/-- The chip: its cells by page and column, its command phase, and whether
    `NFCONT` bit 1 selects it. -/
structure Chip where
  cell : ℕ → ℕ → Byte
  phase : Phase
  selected : Bool

/-- The column that two column cycles address. -/
def colOf (c₀ c₁ : Byte) : ℕ := c₀.toNat + 256 * c₁.toNat

/-- The page that three row cycles address. -/
def rowOf (r₀ r₁ r₂ : Byte) : ℕ := r₀.toNat + 256 * r₁.toNat + 65536 * r₂.toNat

/-- The cells after programming `data` into `page` from column `col` on. -/
def programPage (cell : ℕ → ℕ → Byte) (page col : ℕ) (data : List Byte) : ℕ → ℕ → Byte :=
  fun p c =>
    if p = page ∧ col ≤ c ∧ c < col + data.length then cell p c &&& data.getD (c - col) 0
    else cell p c

/-- The cells after erasing the block of `page`. -/
def eraseBlock (cell : ℕ → ℕ → Byte) (page : ℕ) : ℕ → ℕ → Byte :=
  fun p c => if p / 64 = page / 64 then 0xff else cell p c

/-- The reaction of the selected chip to a command byte. -/
def Chip.command (chip : Chip) (cmd : Byte) : Chip :=
  if cmd = 0x00 then { chip with phase := .readAddr [] }
  else if cmd = 0x80 then { chip with phase := .program [] [] }
  else if cmd = 0x60 then { chip with phase := .eraseAddr [] }
  else
    match chip.phase with
    | .readAddr [c₀, c₁, r₀, r₁, r₂] =>
      if cmd = 0x30 then { chip with phase := .readOut (rowOf r₀ r₁ r₂) (colOf c₀ c₁) }
      else { chip with phase := .idle }
    | .program [c₀, c₁, r₀, r₁, r₂] data =>
      if cmd = 0x10 then
        { chip with
          cell := programPage chip.cell (rowOf r₀ r₁ r₂) (colOf c₀ c₁) data, phase := .idle }
      else { chip with phase := .idle }
    | .eraseAddr [r₀, r₁, r₂] =>
      if cmd = 0xd0 then
        { chip with cell := eraseBlock chip.cell (rowOf r₀ r₁ r₂), phase := .idle }
      else { chip with phase := .idle }
    | _ => { chip with phase := .idle }

/-- The reaction of the selected chip to an address cycle. -/
def Chip.address (chip : Chip) (b : Byte) : Chip :=
  match chip.phase with
  | .readAddr cycles => { chip with phase := .readAddr (cycles ++ [b]) }
  | .program cycles data => { chip with phase := .program (cycles ++ [b]) data }
  | .eraseAddr cycles => { chip with phase := .eraseAddr (cycles ++ [b]) }
  | _ => chip

/-! ## Driver primitives -/

/-- `nand_select`. -/
def nandSelect (chip : Chip) : Chip := { chip with selected := true }

/-- `nand_deselect`. -/
def nandDeselect (chip : Chip) : Chip := { chip with selected := false }

/-- `nand_cmd`. -/
def nandCmd (cmd : Byte) (chip : Chip) : Chip :=
  if chip.selected then chip.command cmd else chip

/-- `nand_addr_byte`, and the assignments to `NFADDR` in `nand_col` and
    `nand_page`. -/
def nandAddrByte (b : Byte) (chip : Chip) : Chip :=
  if chip.selected then chip.address b else chip

/-- `nand_w_data`. -/
def nandWData (val : Byte) (chip : Chip) : Chip :=
  if chip.selected then
    match chip.phase with
    | .program cycles data => { chip with phase := .program cycles (data ++ [val]) }
    | _ => chip
  else chip

/-- `nand_data`: the byte read and the chip afterwards. Outside the output phase
    of a read nothing drives the data lines; the drivers never read then. -/
def nandData (chip : Chip) : Byte × Chip :=
  match chip.selected, chip.phase with
  | true, .readOut page col => (chip.cell page col, { chip with phase := .readOut page (col + 1) })
  | _, _ => (0xff, chip)

/-- `(n >> k) & 0xff` as an `unsigned char`. -/
def addrByte (n k : ℕ) : Byte := BitVec.ofNat 8 ((n >>> k) &&& 0xff)

/-- The two column cycles (`nand_col`). -/
def nandCol (col : ℕ) (chip : Chip) : Chip :=
  nandAddrByte (addrByte col 8) (nandAddrByte (addrByte col 0) chip)

/-- The three row cycles (`nand_page`). -/
def nandPage (page : ℕ) (chip : Chip) : Chip :=
  nandAddrByte (addrByte page 16) (nandAddrByte (addrByte page 8)
    (nandAddrByte (addrByte page 0) chip))

/-! ## Command sequences -/

theorem addrByte_toNat (n k : ℕ) : (addrByte n k).toNat = n / 2 ^ k % 256 := by
  simp only [addrByte, BitVec.toNat_ofNat, show (0xff : ℕ) = 2 ^ 8 - 1 by rfl,
    Nat.and_two_pow_sub_one_eq_mod, Nat.shiftRight_eq_div_pow]
  omega

theorem colOf_addrByte {col : ℕ} (h : col < 2 ^ 16) :
    colOf (addrByte col 0) (addrByte col 8) = col := by
  simp only [colOf, addrByte_toNat]
  omega

theorem rowOf_addrByte {page : ℕ} (h : page < 2 ^ 24) :
    rowOf (addrByte page 0) (addrByte page 8) (addrByte page 16) = page := by
  simp only [rowOf, addrByte_toNat]
  omega

/-- The read command sequence puts the chip at column `col` of `page`. -/
theorem nandCmd_read (chip : Chip) (col page : ℕ) (hsel : chip.selected = true)
    (hcol : col < 2 ^ 16) (hpage : page < 2 ^ 24) :
    nandCmd 0x30 (nandPage page (nandCol col (nandCmd 0x00 chip))) =
      { chip with phase := .readOut page col } := by
  obtain ⟨cell, phase, selected⟩ := chip
  subst hsel
  simp [nandCmd, nandPage, nandCol, nandAddrByte, Chip.command, Chip.address,
    colOf_addrByte hcol, rowOf_addrByte hpage]

/-- The program command sequence up to the data bytes. -/
theorem nandCmd_program (chip : Chip) (col page : ℕ) (hsel : chip.selected = true) :
    nandPage page (nandCol col (nandCmd 0x80 chip)) =
      { chip with phase := .program [addrByte col 0, addrByte col 8, addrByte page 0,
        addrByte page 8, addrByte page 16] [] } := by
  obtain ⟨cell, phase, selected⟩ := chip
  subst hsel
  simp [nandCmd, nandPage, nandCol, nandAddrByte, Chip.command, Chip.address]

/-- `10h` after the data bytes programs them into the addressed page. -/
theorem nandCmd_commit (chip : Chip) (col page : ℕ) {data : List Byte} (hsel : chip.selected = true)
    (hphase : chip.phase = .program [addrByte col 0, addrByte col 8, addrByte page 0,
      addrByte page 8, addrByte page 16] data)
    (hcol : col < 2 ^ 16) (hpage : page < 2 ^ 24) :
    nandCmd 0x10 chip =
      { chip with cell := programPage chip.cell page col data, phase := .idle } := by
  obtain ⟨cell, phase, selected⟩ := chip
  subst hsel hphase
  simp [nandCmd, Chip.command, colOf_addrByte hcol, rowOf_addrByte hpage]

/-- In the output phase, `nand_data` reads the current column and advances. -/
theorem nandData_readOut (chip : Chip) {page col : ℕ} (hsel : chip.selected = true)
    (hphase : chip.phase = .readOut page col) :
    nandData chip = (chip.cell page col, { chip with phase := .readOut page (col + 1) }) := by
  simp only [nandData, hsel, hphase]

theorem nandWData_program (chip : Chip) {cycles data : List Byte} (val : Byte)
    (hsel : chip.selected = true) (hphase : chip.phase = .program cycles data) :
    nandWData val chip = { chip with phase := .program cycles (data ++ [val]) } := by
  simp only [nandWData, hsel, hphase, if_true]

/-! ## Main-area addresses -/

/-- The main-area byte at byte address `a`. -/
def mainByte (cell : ℕ → ℕ → Byte) (a : ℕ) : Byte := cell (a / 2048) (a % 2048)

theorem mainByte_programPage (cell : ℕ → ℕ → Byte) (page col : ℕ) (data : List Byte) (a : ℕ) :
    mainByte (programPage cell page col data) a =
      if a / 2048 = page ∧ col ≤ a % 2048 ∧ a % 2048 < col + data.length then
        mainByte cell a &&& data.getD (a % 2048 - col) 0
      else mainByte cell a :=
  rfl

end Jz2440.Nand
