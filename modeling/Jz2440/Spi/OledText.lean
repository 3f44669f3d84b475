import Jz2440.Spi.Gpio

/-!
# Text on the OLED

Model of `OLEDSetPos`, `OLEDPutChar` and `OLEDPrint` of
`023_spi_020/05th_spi_i2c_adc_jz2440_spi_controller_020_006/oled.c`, and of a display in page
addressing mode: 8 pages of 128 columns. What the display receives is read off the events
on the byte-wise bus.

`OLEDPrint` goes to the next two pages after column 127; nothing stops it after the last
ones.

* `Sends p l`: the program `p` sends the bytes `l` to the display.
* `foldl_cellBytes`: a character changes the bytes of its cell only.
* `oledPrint_inside_iff`: a text stays inside of the display exactly if it fits in from its
  first cell on.
-/

namespace Jz2440.Spi

open Jz2440.Common

/-! ## The code -/

/-- The characters of `oled_asc2_8x16` (oledfont.h:3-100), from the blank on, with the first of
    their 16 bytes in the highest byte. -/
def oledGlyphs : List ℕ := [
  0x00000000000000000000000000000000, 0x000000f8000000000000003330000000,
  0x00100c06100c06000000000000000000, 0x40c07840c0784000043f04043f040400,
  0x007088fc08300000001820ff211e0000, 0xf008f000e018000000211c031e211e00,
  0x00f00888700000001e21232419272110, 0x10160e00000000000000000000000000,
  0x000000e0180402000000000718204000, 0x00020418e00000000040201807000000,
  0x404080f0804040000202010f01020200, 0x000000f0000000000101011f01010100,
  0x000000000000000080b0700000000000, 0x00000000000000000001010101010101,
  0x00000000000000000030300000000000, 0x00000000806018040060180601000000,
  0x00e010080810e000000f102020100f00, 0x001010f8000000000020203f20200000,
  0x00700808088870000030282422213000, 0x00300888884830000018202020110e00,
  0x0000c02010f8000000070424243f2400, 0x00f80888880808000019212020110e00,
  0x00e0108888180000000f112020110e00, 0x00380808c83808000000003f00000000,
  0x0070880808887000001c222121221c00, 0x00e010080810e0000000312222110f00,
  0x000000c0c00000000000003030000000, 0x00000080000000000000806000000000,
  0x00008040201008000001020408102000, 0x40404040404040000404040404040400,
  0x00081020408000000020100804020100, 0x007048080808f0000000003036010000,
  0xc030c828e810e0000718272423140b00, 0x0000c038e0000000203c230202273820,
  0x08f8888888700000203f202020110e00, 0xc0300808080838000718202020100800,
  0x08f808080810e000203f202020100f00, 0x08f88888e8081000203f202023201800,
  0x08f88888e8081000203f200003000000, 0xc03008080838000007182020221e0200,
  0x08f808000008f808203f210101213f20, 0x000808f8080800000020203f20200000,
  0x00000808f8080800c08080807f000000, 0x08f888c028180800203f200126382000,
  0x08f8080000000000203f202020203000, 0x08f8f800f8f80800203f003f003f2000,
  0x08f830c00008f808203f200007183f00, 0xe01008080810e0000f10202020100f00,
  0x08f808080808f000203f210101010000, 0xe01008080810e0000f18242438504f00,
  0x08f8888888887000203f2000030c3020, 0x00708808080838000038202121221c00,
  0x180808f8080818000000203f20000000, 0x08f808000008f808001f202020201f00,
  0x0878880000c83808000007380e010000, 0xf80800f80008f800033c0700073c0300,
  0x081868808068180820302c03032c3020, 0x0838c800c83808000000203f20000000,
  0x10080808c83808002038262120201800, 0x000000fe020202000000007f40404000,
  0x000c30c000000000000000010638c000, 0x00020202fe000000004040407f000000,
  0x00000402020204000000000000000000, 0x00000000000000008080808080808080,
  0x00020204000000000000000000000000, 0x00008080808000000019242222223f20,
  0x08f8008080000000003f112020110e00, 0x0000008080800000000e112020201100,
  0x000000808088f800000e112020103f20, 0x0000808080800000001f222222221300,
  0x008080f0888888180020203f20200000, 0x0000808080808000006b949494936000,
  0x08f8008080800000203f210000203f20, 0x00809898000000000020203f20200000,
  0x000000809898000000c08080807f0000, 0x08f8000080808000203f24022d302000,
  0x000808f8000000000020203f20200000, 0x8080808080808000203f20003f20003f,
  0x8080008080800000203f210000203f20, 0x0000808080800000001f202020201f00,
  0x808000808000000080ffa12020110e00, 0x0000008080808000000e112020a0ff80,
  0x808080008080800020203f2120000100, 0x00008080808080000033242424241900,
  0x008080e0808000000000001f20200000, 0x8080000000808000001f202020103f20,
  0x808080000080808000010e3008060100, 0x80800080008080800f300c030c300f00,
  0x00808000808080000020312e0e312000, 0x808080000080808080818e7018060100,
  0x00808080808080000021302c22213000, 0x00000000807c020200000000003f4040,
  0x00000000ff00000000000000ff000000, 0x0002027c800000000040403f00000000,
  0x00060101020204040000000000000000]

/-- `oled_asc2_8x16[n][i]`. -/
def oledAsc2 (n i : ℕ) : Byte := BitVec.ofNat 8 (oledGlyphs.getD n 0 >>> (8 * (15 - i)))

/-- An `int` as the argument of `OLEDWriteCmd`, an `unsigned char`. -/
def uchar (n : Int32) : Byte := n.toBitVec.setWidth 8

/-- `OLEDSetPos` (oled.c:50-56). -/
def oledSetPos (page col : Int32) : SpiProg Unit := do
  oledWriteCmd (uchar (0xB0 + page))
  oledWriteCmd (uchar (col &&& 0xf))
  oledWriteCmd (uchar ((0x10 : Int32) + (col >>> 4)))

/-- A loop of `OLEDWriteDat` over some bytes. -/
def oledWriteDats : List Byte → SpiProg Unit
  | [] => pure ()
  | b :: l => do
    oledWriteDat b
    oledWriteDats l

/-- `OLEDPutChar` (oled.c:110-127). -/
def oledPutChar (page col : Int32) (c : Byte) : SpiProg Unit := do
  let dots := oledAsc2 (c.toNat - 0x20)
  oledSetPos page col
  oledWriteDats ((List.range 8).map dots)
  oledSetPos (page + 1) col
  oledWriteDats ((List.range 8).map fun i => dots (i + 8))

/-- `OLEDPrint` (oled.c:134-148). -/
def oledPrint (page col : Int32) : List Byte → SpiProg Unit
  | [] => pure ()
  | c :: str => do
    oledPutChar page col c
    let col := col + 8
    if col > 127 then oledPrint (page + 2) 0 str else oledPrint page col str

/-! ## What the display receives -/

/-- A byte with the level of the data/command line. -/
inductive OledByte
  | cmd (b : Byte)
  | dat (b : Byte)
  deriving DecidableEq

/-- The lines of the OLED, and what it has received. -/
structure OledLines where
  dc : Bool
  cs : Bool
  got : List OledByte

/-- The OLED listens while its select line is low. -/
def OledLines.step (s : OledLines) : SpiEvent → OledLines
  | .cs .oled val => { s with cs := val }
  | .dc val => { s with dc := val }
  | .byte b => if s.cs then s else { s with got := s.got ++ [if s.dc then .dat b else .cmd b] }
  | _ => s

/-- What the OLED has received after some events; at first it is not selected. -/
def oledLines (h : List SpiEvent) : OledLines := h.foldl OledLines.step ⟨true, true, []⟩

/-- The program sends the bytes `l` to the OLED and leaves its lines high. -/
def Sends (p : SpiProg Unit) (l : List OledByte) : Prop :=
  ∀ reply h got, oledLines h = ⟨true, true, got⟩ →
    oledLines (p.run (byteBus reply) h).2 = ⟨true, true, got ++ l⟩

theorem sends_cmd (b : Byte) : Sends (oledWriteCmd b) [.cmd b] := by
  intro reply h got hgot
  unfold oledLines at hgot ⊢
  simp [oledWriteCmd, oledWrite, oledSetDc, oledSetCs, spiSendByte, byteBus, hgot, OledLines.step]

theorem sends_dat (b : Byte) : Sends (oledWriteDat b) [.dat b] := by
  intro reply h got hgot
  unfold oledLines at hgot ⊢
  simp [oledWriteDat, oledWrite, oledSetDc, oledSetCs, spiSendByte, byteBus, hgot, OledLines.step]

theorem sends_pure : Sends (pure ()) [] := by
  intro reply h got hgot
  rw [Prog.run_pure, hgot, List.append_nil]

theorem Sends.bind {p q : SpiProg Unit} {l l' : List OledByte} (hp : Sends p l)
    (hq : Sends q l') : Sends (p >>= fun _ => q) (l ++ l') := by
  intro reply h got hgot
  rw [Prog.run_bind, hq reply _ _ (hp reply h got hgot), List.append_assoc]

/-! ## The bytes of a text -/

/-- The bytes that `OLEDSetPos` sends. -/
def posBytes (page col : Int32) : List OledByte :=
  [.cmd (uchar (0xB0 + page)), .cmd (uchar (col &&& 0xf)),
    .cmd (uchar ((0x10 : Int32) + (col >>> 4)))]

/-- The bytes that `OLEDPutChar` sends. -/
def charBytes (page col : Int32) (c : Byte) : List OledByte :=
  let dots := oledAsc2 (c.toNat - 0x20)
  posBytes page col ++ ((List.range 8).map dots).map .dat ++
    (posBytes (page + 1) col ++ ((List.range 8).map fun i => dots (i + 8)).map .dat)

/-- The bytes that `OLEDPrint` sends. -/
def textBytes (page col : Int32) : List Byte → List OledByte
  | [] => []
  | c :: str =>
    charBytes page col c ++
      if col + 8 > 127 then textBytes (page + 2) 0 str else textBytes page (col + 8) str

theorem sends_oledSetPos (page col : Int32) : Sends (oledSetPos page col) (posBytes page col) :=
  (sends_cmd _).bind ((sends_cmd _).bind (sends_cmd _))

theorem sends_oledWriteDats (l : List Byte) : Sends (oledWriteDats l) (l.map .dat) := by
  induction l with
  | nil => exact sends_pure
  | cons b l ih => exact (sends_dat b).bind ih

theorem sends_oledPutChar (page col : Int32) (c : Byte) :
    Sends (oledPutChar page col c) (charBytes page col c) := by
  have hfirst := sends_oledWriteDats ((List.range 8).map (oledAsc2 (c.toNat - 0x20)))
  have hsecond := sends_oledWriteDats
    ((List.range 8).map fun i => oledAsc2 (c.toNat - 0x20) (i + 8))
  unfold charBytes
  rw [List.append_assoc]
  exact (sends_oledSetPos _ _).bind (hfirst.bind ((sends_oledSetPos _ _).bind hsecond))

theorem sends_oledPrint (page col : Int32) (str : List Byte) :
    Sends (oledPrint page col str) (textBytes page col str) := by
  induction str generalizing page col with
  | nil => exact sends_pure
  | cons c str ih =>
    refine (sends_oledPutChar page col c).bind ?_
    by_cases hwrap : col + 8 > 127
    · rw [if_pos hwrap]
      exact (if_pos hwrap).symm ▸ ih _ _
    · rw [if_neg hwrap]
      exact (if_neg hwrap).symm ▸ ih _ _

/-! ## The display -/

/-- A display in page addressing mode: where the next byte goes, and the GDDRAM by pages and
    columns. -/
structure Display where
  page : ℕ
  col : ℕ
  gddram : ℕ → ℕ → Byte

/-- What the display does with a byte; for all commands but those for the position this is
    left open. -/
def Display.step (other : Byte → Display → Display) (d : Display) : OledByte → Display
  | .cmd b =>
    if b ≤ 0x0f then { d with col := d.col / 16 * 16 + b.toNat }
    else if b ≤ 0x17 then { d with col := (b.toNat - 0x10) * 16 + d.col % 16 }
    else if 0xb0 ≤ b ∧ b ≤ 0xb7 then { d with page := b.toNat - 0xb0 }
    else other b d
  | .dat b =>
    { d with
      col := (d.col + 1) % 128
      gddram := fun p x => if p = d.page ∧ x = d.col then b else d.gddram p x }

/-- A command that sets the page to one of the display's. -/
def IsPageCommand (b : Byte) : Prop := 0xb0 ≤ b ∧ b ≤ 0xb7

/-- A command for the lower or the higher part of a column up to 127. -/
def IsColumnCommand (b : Byte) : Prop := b ≤ 0x17

section Display

variable {other : Byte → Display → Display} {d : Display} {page col : ℕ}

theorem uchar_page : ∀ page < 8, uchar (0xB0 + .ofNat page) = BitVec.ofNat 8 (0xb0 + page) := by
  decide

theorem uchar_low : ∀ col < 128, uchar (.ofNat col &&& 0xf) = BitVec.ofNat 8 (col % 16) := by
  decide

theorem uchar_high : ∀ col < 128,
    uchar ((0x10 : Int32) + (Int32.ofNat col >>> 4)) = BitVec.ofNat 8 (0x10 + col / 16) := by
  decide

theorem step_page (hpage : page < 8) :
    d.step other (.cmd (BitVec.ofNat 8 (0xb0 + page))) = { d with page := page } := by
  have hnat : (BitVec.ofNat 8 (0xb0 + page)).toNat = 0xb0 + page := by
    rw [BitVec.toNat_ofNat]
    omega
  rw [Display.step, if_neg (by rw [BitVec.le_def, hnat]; simp; omega),
    if_neg (by rw [BitVec.le_def, hnat]; simp; omega), if_pos, hnat, Nat.add_sub_cancel_left]
  rw [BitVec.le_def, BitVec.le_def, hnat]
  exact ⟨Nat.le_add_right _ _, Nat.add_le_add_left (Nat.le_of_lt_succ hpage) 0xb0⟩

theorem step_low {n : ℕ} (hn : n < 16) :
    d.step other (.cmd (BitVec.ofNat 8 n)) = { d with col := d.col / 16 * 16 + n } := by
  have hnat : (BitVec.ofNat 8 n).toNat = n := by
    rw [BitVec.toNat_ofNat]
    omega
  rw [Display.step, if_pos, hnat]
  rw [BitVec.le_def, hnat]
  exact Nat.le_of_lt_succ hn

theorem step_high {n : ℕ} (hn : n < 8) :
    d.step other (.cmd (BitVec.ofNat 8 (0x10 + n))) =
      { d with col := n * 16 + d.col % 16 } := by
  have hnat : (BitVec.ofNat 8 (0x10 + n)).toNat = 0x10 + n := by
    rw [BitVec.toNat_ofNat]
    omega
  rw [Display.step, if_neg (by rw [BitVec.le_def, hnat]; simp; omega), if_pos, hnat,
    Nat.add_sub_cancel_left]
  rw [BitVec.le_def, hnat]
  exact Nat.add_le_add_left (Nat.le_of_lt_succ hn) 0x10

theorem foldl_posBytes (hpage : page < 8) (hcol : col < 128) :
    (posBytes (.ofNat page) (.ofNat col)).foldl (Display.step other) d =
      { d with page := page, col := col } := by
  rw [posBytes, uchar_page page hpage, uchar_low col hcol, uchar_high col hcol, List.foldl_cons,
    List.foldl_cons, List.foldl_cons, List.foldl_nil, step_page hpage,
    step_low (Nat.mod_lt _ (by decide)), step_high (by omega)]
  have hparts : col / 16 * 16 + (d.col / 16 * 16 + col % 16) % 16 = col := by omega
  rw [hparts]

theorem posBytes_commands (hpage : page < 8) (hcol : col < 128) {b : Byte}
    (hb : .cmd b ∈ posBytes (.ofNat page) (.ofNat col)) : IsPageCommand b ∨ IsColumnCommand b := by
  rw [posBytes, uchar_page page hpage, uchar_low col hcol, uchar_high col hcol] at hb
  simp only [List.mem_cons, OledByte.cmd.injEq, List.not_mem_nil, or_false] at hb
  unfold IsPageCommand IsColumnCommand
  rcases hb with rfl | rfl | rfl
  · left
    constructor <;> simp [BitVec.le_def] <;> omega
  · right
    simp [BitVec.le_def]
    omega
  · right
    simp [BitVec.le_def]
    omega

/-- Data are written from the current column on. -/
theorem foldl_dat (l : List Byte) (hfit : d.col + l.length ≤ 128) {p x : ℕ}
    (hout : ¬ (p = d.page ∧ d.col ≤ x ∧ x < d.col + l.length)) :
    ((l.map .dat).foldl (Display.step other) d).gddram p x = d.gddram p x := by
  induction l generalizing d with
  | nil => rfl
  | cons b l ih =>
    rw [List.length_cons] at hfit hout
    rw [List.map_cons, List.foldl_cons]
    cases l with
    | nil => exact if_neg (by rw [List.length_nil] at hout; omega)
    | cons b' l =>
      rw [List.length_cons] at hfit hout
      have hcol : (d.step other (.dat b)).col = d.col + 1 := Nat.mod_eq_of_lt (by omega)
      rw [ih (by rw [hcol, List.length_cons]; omega)]
      · exact if_neg (by omega)
      · rw [hcol, List.length_cons]
        show ¬ (p = d.page ∧ _)
        omega

end Display

/-! ## Cells -/

/-- The page of cell `k`; there are 16 of them on two pages. -/
def cellPage (k : ℕ) : ℕ := 2 * (k / 16)

/-- The first column of cell `k`. -/
def cellCol (k : ℕ) : ℕ := 8 * (k % 16)

/-- The byte of the GDDRAM belongs to cell `k`. -/
def InCell (k p x : ℕ) : Prop := p / 2 = k / 16 ∧ x / 8 = k % 16

/-- The bytes for the character `c` in cell `k`. -/
def cellBytes (k : ℕ) (c : Byte) : List OledByte :=
  charBytes (.ofNat (cellPage k)) (.ofNat (cellCol k)) c

/-- The bytes for the text `str` from cell `k` on. -/
def cellsBytes (k : ℕ) (str : List Byte) : List OledByte :=
  textBytes (.ofNat (cellPage k)) (.ofNat (cellCol k)) str

section Cells

variable {other : Byte → Display → Display} {d : Display} {k p x : ℕ}

theorem ofNat_cellPage_succ (k : ℕ) :
    Int32.ofNat (cellPage k) + 1 = Int32.ofNat (cellPage k + 1) :=
  (Int32.ofNat_add _ 1).symm

theorem cellPage_lt (hk : k < 64) : cellPage k + 1 < 8 := by
  unfold cellPage
  omega

theorem cellCol_le (k : ℕ) : cellCol k + 8 ≤ 128 := by
  unfold cellCol
  omega

/-- A character changes the bytes of its cell only. -/
theorem foldl_cellBytes (hk : k < 64) (c : Byte) (hout : ¬ InCell k p x) :
    ((cellBytes k c).foldl (Display.step other) d).gddram p x = d.gddram p x := by
  unfold InCell at hout
  have hpage := cellPage_lt hk
  have hcol := cellCol_le k
  have hrow : ∀ (page : ℕ) (l : List Byte) (d : Display), page / 2 = k / 16 → page < 8 →
      l.length = 8 →
      ((posBytes (.ofNat page) (.ofNat (cellCol k)) ++ l.map OledByte.dat).foldl
        (Display.step other) d).gddram p x = d.gddram p x := by
    intro page l d hk' hlt hl
    rw [List.foldl_append, foldl_posBytes hlt (by omega), foldl_dat]
    · rw [hl]
      exact hcol
    · rw [hl]
      show ¬ (p = page ∧ cellCol k ≤ x ∧ x < cellCol k + 8)
      unfold cellCol
      omega
  rw [cellBytes, charBytes, ofNat_cellPage_succ, List.foldl_append,
    hrow (cellPage k + 1) _ _ (by unfold cellPage; omega) hpage (by simp),
    hrow (cellPage k) _ _ (by unfold cellPage; omega) (by omega) (by simp)]

theorem cellBytes_commands (hk : k < 64) {b c : Byte} (hb : .cmd b ∈ cellBytes k c) :
    IsPageCommand b ∨ IsColumnCommand b := by
  have hpage := cellPage_lt hk
  have hcol := cellCol_le k
  rw [cellBytes, charBytes, ofNat_cellPage_succ] at hb
  simp only [List.mem_append, List.mem_map, reduceCtorEq, and_false, exists_false, or_false] at hb
  rcases hb with hb | hb
  · exact posBytes_commands (by omega) (by omega) hb
  · exact posBytes_commands hpage (by omega) hb

/-- The next character goes to the next cell. -/
theorem cellsBytes_cons (hk : k < 64) (c : Byte) (str : List Byte) :
    cellsBytes k (c :: str) = cellBytes k c ++ cellsBytes (k + 1) str := by
  have hnext : ∀ k < 64, if Int32.ofNat (cellCol k) + 8 > 127
      then Int32.ofNat (cellPage k) + 2 = .ofNat (cellPage (k + 1)) ∧
        0 = Int32.ofNat (cellCol (k + 1))
      else Int32.ofNat (cellPage k) = .ofNat (cellPage (k + 1)) ∧
        Int32.ofNat (cellCol k) + 8 = .ofNat (cellCol (k + 1)) := by
    decide
  have hcell := hnext k hk
  rw [cellsBytes, textBytes, cellBytes, cellsBytes]
  congr 1
  split_ifs at hcell ⊢ with hwrap
  · rw [hcell.1, ← hcell.2]
  · rw [← hcell.1, hcell.2]

/-! ## Texts -/

theorem cellsBytes_commands (str : List Byte) (hfit : k + str.length ≤ 64) {b : Byte}
    (hb : .cmd b ∈ cellsBytes k str) : IsPageCommand b ∨ IsColumnCommand b := by
  induction str generalizing k with
  | nil => cases hb
  | cons c str ih =>
    rw [List.length_cons] at hfit
    rw [cellsBytes_cons (by omega), List.mem_append] at hb
    rcases hb with hb | hb
    · exact cellBytes_commands (by omega) hb
    · exact ih (by omega) hb

theorem foldl_cellsBytes (str : List Byte) (hfit : k + str.length ≤ 64)
    (hout : ∀ i < str.length, ¬ InCell (k + i) p x) :
    ((cellsBytes k str).foldl (Display.step other) d).gddram p x = d.gddram p x := by
  induction str generalizing k d with
  | nil => rfl
  | cons c str ih =>
    rw [List.length_cons] at hfit hout
    have hrest : ∀ i < str.length, ¬ InCell (k + 1 + i) p x := by
      intro i hi
      rw [Nat.add_assoc, Nat.add_comm 1 i]
      exact hout (i + 1) (by omega)
    rw [cellsBytes_cons (by omega), List.foldl_append, ih (by omega) hrest]
    exact foldl_cellBytes (by omega) c (hout 0 (by omega))

/-- The cell after the last one would be on page 8. -/
theorem mem_cellsBytes_of_too_long (str : List Byte) (hk : k ≤ 64) (hlong : 64 < k + str.length) :
    .cmd 0xb8 ∈ cellsBytes k str := by
  induction str generalizing k with
  | nil =>
    rw [List.length_nil] at hlong
    omega
  | cons c str ih =>
    rw [List.length_cons] at hlong
    rcases Nat.lt_or_eq_of_le hk with hlt | rfl
    · rw [cellsBytes_cons hlt]
      exact List.mem_append_right _ (ih hlt (by omega))
    · have hfirst : .cmd 0xb8 ∈ posBytes (.ofNat (cellPage 64)) (.ofNat (cellCol 64)) := by decide
      rw [cellsBytes, textBytes, charBytes]
      exact List.mem_append_left _ (List.mem_append_left _ (List.mem_append_left _ hfirst))

end Cells

/-! ## Staying inside -/

/-- A string of printable ASCII characters. -/
structure Printable where
  bytes : List Byte
  printable : ∀ b ∈ bytes, 0x20 ≤ b ∧ b ≤ 0x7e

/-- What the OLED receives from `OLEDPrint`. -/
def sent (reply : List SpiEvent → Byte) (page col : ℕ) (str : Printable) : List OledByte :=
  (oledLines ((oledPrint (.ofNat page) (.ofNat col) str.bytes).run (byteBus reply) []).2).got

/-- All commands set pages and columns of the display, and only the cells of the characters
    change, whatever the display does on other commands. -/
structure StaysInside (page col : ℕ) (str : Printable) : Prop where
  commands : ∀ reply b, .cmd b ∈ sent reply page col str → IsPageCommand b ∨ IsColumnCommand b
  changes : ∀ reply other (d : Display) p x,
    ((sent reply page col str).foldl (Display.step other) d).gddram p x ≠ d.gddram p x →
      ∃ i < str.bytes.length, InCell (8 * page + col / 8 + i) p x

theorem sent_eq_textBytes (reply : List SpiEvent → Byte) (page col : ℕ) (str : Printable) :
    sent reply page col str = textBytes (.ofNat page) (.ofNat col) str.bytes := by
  rw [sent, sends_oledPrint _ _ _ reply [] [] rfl, List.nil_append]

theorem sent_eq_cellsBytes (reply : List SpiEvent → Byte) {page col : ℕ} (hpage : 2 ∣ page)
    (hcol : 8 ∣ col) (hcol' : col ≤ 120) (str : Printable) :
    sent reply page col str = cellsBytes (8 * page + col / 8) str.bytes := by
  have hp : cellPage (8 * page + col / 8) = page := by
    unfold cellPage
    omega
  have hc : cellCol (8 * page + col / 8) = col := by
    unfold cellCol
    omega
  rw [sent_eq_textBytes, cellsBytes, hp, hc]

theorem not_isCommand_page_eight : ¬ (IsPageCommand 0xb8 ∨ IsColumnCommand 0xb8) := by
  unfold IsPageCommand IsColumnCommand
  decide

/-- A text stays inside of the display exactly if it has enough cells from the first one on. -/
theorem oledPrint_inside_iff (page col : ℕ) (hpage : 2 ∣ page) (hpage' : page ≤ 6)
    (hcol : 8 ∣ col) (hcol' : col ≤ 120) (str : Printable) :
    StaysInside page col str ↔ col + 8 * str.bytes.length ≤ 64 * (8 - page) := by
  constructor
  · intro hinside
    by_contra hlong
    have hmem : .cmd 0xb8 ∈ sent (fun _ => 0) page col str := by
      rw [sent_eq_cellsBytes _ hpage hcol hcol']
      exact mem_cellsBytes_of_too_long _ (by omega) (by omega)
    exact not_isCommand_page_eight (hinside.commands _ _ hmem)
  · intro hfit
    refine ⟨?_, ?_⟩
    · intro reply b hb
      rw [sent_eq_cellsBytes _ hpage hcol hcol'] at hb
      exact cellsBytes_commands _ (by omega) hb
    · intro reply other d p x hne
      by_contra hout
      apply hne
      rw [sent_eq_cellsBytes _ hpage hcol hcol']
      apply foldl_cellsBytes _ (by omega)
      intro i hi hin
      exact hout ⟨i, hi, hin⟩

/-- The text of `Test_Adc` (adc_ts.c:114), for the voltages 1.234 and 2.345. -/
def testAdcText : Printable where
  bytes := [0x41, 0x44, 0x43, 0x3a, 0x20, 0x31, 0x2e, 0x32, 0x33, 0x34, 0x2c, 0x20, 0x32, 0x2e,
    0x33, 0x34, 0x35]
  printable := by decide

/-- It has its place on the pages 4 to 7. -/
theorem oledPrint_inside_page_four : StaysInside 4 0 testAdcText :=
  (oledPrint_inside_iff 4 0 (by decide) (by decide) (by decide) (by decide) testAdcText).mpr
    (by decide)

/-- From page 6 on, where `Test_Adc` prints it, the last character goes to page 8. -/
theorem oledPrint_page_eight :
    .cmd 0xb8 ∈ sent (fun _ => 0) 6 0 testAdcText ∧ ¬ StaysInside 6 0 testAdcText := by
  have hmem : .cmd 0xb8 ∈ sent (fun _ => 0) 6 0 testAdcText := by
    rw [sent_eq_textBytes]
    decide +kernel
  exact ⟨hmem, fun hinside => not_isCommand_page_eight (hinside.commands _ _ hmem)⟩

end Jz2440.Spi
