import Jz2440.Spi.OledText

/-!
# The picture on the OLED

Model of `OLEDInit`, `OLEDClear` and `OLEDClearPage` of
`023_spi_020/04th_spi_i2c_adc_jz2440_ok_020_005/oled.c`; `OLEDPrint` is in `OledText.lean`. The
functions do not read the display. What is on it is known only if it is known where each byte
goes, and this depends on the addressing mode and on whether the display takes a byte as a command
or as the argument of the one before.

`Panel` is a display with these two. What it does on the commands that `oled.c` sends for other
purposes, and in the other addressing modes, is left open.

* `foldl_initBytes`: after `OLEDInit` the picture is blank, whatever the state of the panel was.
* `foldl_cellsBytes_shows`: a text replaces the picture of its cells.
* `foldl_clearBytes_shows`: `OLEDClearPage` blanks its page.
-/

namespace Jz2440.Spi

open Jz2440.Common

/-! ## The code -/

/-- A sequence of calls of `OLEDWriteCmd`. -/
def oledWriteCmds : List Byte → SpiProg Unit
  | [] => pure ()
  | b :: l => do
    oledWriteCmd b
    oledWriteCmds l

/-- `OLEDSetPageAddrMode` (oled.c:44-48). -/
def oledSetPageAddrMode : SpiProg Unit := oledWriteCmds [0x20, 0x02]

/-- `OLEDClearPage` (oled.c:150-156). -/
def oledClearPage (page : Int32) : SpiProg Unit := do
  oledSetPos page 0
  oledWriteDats (List.replicate 128 0)

/-- The loop of `OLEDClear`, for `n` more pages; its body is that of `OLEDClearPage`. -/
def oledClearLoop : ℕ → Int32 → SpiProg Unit
  | 0, _ => pure ()
  | n + 1, page => do
    oledClearPage page
    oledClearLoop n (page + 1)

/-- `OLEDClear` (oled.c:59-68). -/
def oledClear : SpiProg Unit := oledClearLoop 8 0

/-- The commands of `OLEDInit` before `OLEDSetPageAddrMode` (oled.c:73-96). -/
def oledInitCmds : List Byte :=
  [0xAE, 0x00, 0x10, 0x40, 0xB0, 0x81, 0x66, 0xA1, 0xA6, 0xA8, 0x3F, 0xC8, 0xD3, 0x00, 0xD5, 0x80,
    0xD9, 0x1F, 0xDA, 0x12, 0xDB, 0x30, 0x8D, 0x14]

/-- `OLEDInit` (oled.c:70-103). -/
def oledInit : SpiProg Unit := do
  oledWriteCmds oledInitCmds
  oledSetPageAddrMode
  oledClear
  oledWriteCmd 0xAF

/-! ## The bytes that are sent -/

/-- The bytes that `OLEDClearPage` sends. -/
def clearBytes (page : Int32) : List OledByte :=
  posBytes page 0 ++ (List.replicate 128 0).map .dat

/-- The bytes that `OLEDClear` sends. -/
def clearsBytes : ℕ → Int32 → List OledByte
  | 0, _ => []
  | n + 1, page => clearBytes page ++ clearsBytes n (page + 1)

/-- The bytes that `OLEDInit` sends. -/
def initBytes : List OledByte :=
  oledInitCmds.map .cmd ++ ([0x20, 0x02].map .cmd ++ (clearsBytes 8 0 ++ [.cmd 0xAF]))

theorem sends_oledWriteCmds (l : List Byte) : Sends (oledWriteCmds l) (l.map .cmd) := by
  induction l with
  | nil => exact sends_pure
  | cons b l ih => exact (sends_cmd b).bind ih

theorem sends_oledClearPage (page : Int32) : Sends (oledClearPage page) (clearBytes page) :=
  (sends_oledSetPos page 0).bind (sends_oledWriteDats _)

theorem sends_oledClearLoop (n : ℕ) (page : Int32) :
    Sends (oledClearLoop n page) (clearsBytes n page) := by
  induction n generalizing page with
  | zero => exact sends_pure
  | succ n ih => exact (sends_oledClearPage page).bind (ih (page + 1))

theorem sends_oledInit : Sends oledInit initBytes :=
  (sends_oledWriteCmds _).bind ((sends_oledWriteCmds _).bind
    ((sends_oledClearLoop 8 0).bind (sends_cmd 0xAF)))

/-! ## The panel -/

/-- The addressing modes of the display. -/
inductive AddrMode
  | horizontal
  | vertical
  | page
  deriving DecidableEq

/-- What is left open about a panel: its other commands, and what it does with a byte in the other
    addressing modes. -/
structure PanelKind where
  other : Byte → Display → Display
  elsewhere : AddrMode → OledByte → Display → Display

/-- A display with the command whose argument is to come, its addressing mode, and whether it is
    switched on. -/
structure Panel where
  display : Display
  arg : Option Byte
  mode : AddrMode
  on : Bool

/-- The commands of `oled.c` that have an argument. -/
def takesArg (b : Byte) : Bool :=
  [0x20#8, 0x81#8, 0x8d#8, 0xa8#8, 0xd3#8, 0xd5#8, 0xd9#8, 0xda#8, 0xdb#8].contains b

/-- The mode after the argument `b` of command 0x20. -/
def AddrMode.set (m : AddrMode) (b : Byte) : AddrMode :=
  if b &&& 3#8 = 0#8 then .horizontal
  else if b &&& 3#8 = 1#8 then .vertical
  else if b &&& 3#8 = 2#8 then .page
  else m

/-- A byte for the position or for the GDDRAM. -/
def Panel.place (kind : PanelKind) (s : Panel) (b : OledByte) : Panel :=
  { s with display := if s.mode = .page then s.display.step kind.other b
                      else kind.elsewhere s.mode b s.display }

/-- What the panel does with a byte. -/
def Panel.step (kind : PanelKind) (s : Panel) : OledByte → Panel
  | .cmd b =>
    match s.arg with
    | some c => { s with arg := none, mode := if c = 0x20#8 then s.mode.set b else s.mode }
    | none =>
      if takesArg b then { s with arg := some b }
      else if b = 0xae#8 then { s with on := false }
      else if b = 0xaf#8 then { s with on := true }
      else s.place kind (.cmd b)
  | .dat b => s.place kind (.dat b)

/-- A panel that takes the next byte as a command or as data in page addressing mode. -/
structure Panel.Ready (s : Panel) : Prop where
  arg : s.arg = none
  mode : s.mode = .page

section Panel

variable {kind : PanelKind} {s : Panel}

theorem not_takesArg_position : ∀ b : Byte, (0xb0#8 ≤ b ∧ b ≤ 0xb7#8) ∨ b ≤ 0x17#8 →
    takesArg b = false ∧ b ≠ 0xae#8 ∧ b ≠ 0xaf#8 := by
  decide

theorem Panel.Ready.step_cmd (hs : s.Ready) {b : Byte} (hb : IsPageCommand b ∨ IsColumnCommand b) :
    s.step kind (.cmd b) = { s with display := s.display.step kind.other (.cmd b) } := by
  obtain ⟨harg, hoff, hon⟩ := not_takesArg_position b hb
  rw [Panel.step, hs.arg]
  simp only [harg, Bool.false_eq_true, if_false, if_neg hoff, if_neg hon, Panel.place,
    if_pos hs.mode, hs.arg]

theorem Panel.Ready.step_dat (hs : s.Ready) (b : Byte) :
    s.step kind (.dat b) = { s with display := s.display.step kind.other (.dat b) } := by
  rw [Panel.step, Panel.place, if_pos hs.mode]

/-- Positions and data leave the panel ready, so that only its display matters. -/
theorem Panel.Ready.foldl (hs : s.Ready) (l : List OledByte)
    (hl : ∀ b, .cmd b ∈ l → IsPageCommand b ∨ IsColumnCommand b) :
    l.foldl (Panel.step kind) s =
      { s with display := l.foldl (Display.step kind.other) s.display } := by
  induction l generalizing s with
  | nil => rfl
  | cons b l ih =>
    have hstep : s.step kind b = { s with display := s.display.step kind.other b } := by
      cases b with
      | cmd b => exact hs.step_cmd (hl b (List.mem_cons_self ..))
      | dat b => exact hs.step_dat b
    rw [List.foldl_cons, List.foldl_cons, hstep]
    exact ih ⟨hs.arg, hs.mode⟩
      fun b hb => hl b (List.mem_cons_of_mem _ hb)

end Panel

/-! ## Pictures -/

/-- What is to be seen, by pages and columns. -/
abbrev Picture := ℕ → ℕ → Byte

/-- The first `n` pages of the display show those of the picture. -/
def Display.ShowsBelow (d : Display) (n : ℕ) (pic : Picture) : Prop :=
  ∀ p < n, ∀ x < 128, d.gddram p x = pic p x

/-- All 8 pages of the display show those of the picture. -/
def Display.Shows (d : Display) (pic : Picture) : Prop := d.ShowsBelow 8 pic

/-- The byte of the character `c` on page `p` and in column `x` of its cell. -/
def glyph (c : Byte) (p x : ℕ) : Byte := oledAsc2 (c.toNat - 0x20) (8 * (p % 2) + x % 8)

/-- The picture with the text `str` in the cells from `k` on. -/
def Picture.print (pic : Picture) (k : ℕ) (str : List Byte) : Picture := fun p x =>
  let cell := 16 * (p / 2) + x / 8
  if k ≤ cell ∧ cell < k + str.length then glyph (str.getD (cell - k) 0) p x else pic p x

/-- The picture with a blank page. -/
def Picture.clearPage (pic : Picture) (page : ℕ) : Picture := fun p x =>
  if p = page then 0 else pic p x

def Picture.blank : Picture := fun _ _ => 0

section Pictures

variable {other : Byte → Display → Display} {d : Display} {pic : Picture}

/-- The bytes that are written in one page. -/
theorem foldl_dat_inside (other : Byte → Display → Display) (d : Display) (l : List Byte)
    (hfit : d.col + l.length ≤ 128) {i : ℕ} {b : Byte} (hi : l[i]? = some b) :
    ((l.map .dat).foldl (Display.step other) d).gddram d.page (d.col + i) = b := by
  induction l generalizing d i with
  | nil => simp at hi
  | cons a l ih =>
    have hlen := (List.getElem?_eq_some_iff.mp hi).1
    rw [List.length_cons] at hfit hlen
    rw [List.map_cons, List.foldl_cons]
    cases i with
    | zero =>
      -- the later bytes go to the columns after this one
      rw [List.getElem?_cons_zero, Option.some_inj] at hi
      by_cases hnil : l = []
      · rw [hnil, ← hi]
        exact if_pos ⟨rfl, rfl⟩
      · have hpos : 0 < l.length := List.length_pos_iff.mpr hnil
        have hcol : (d.step other (.dat a)).col = d.col + 1 := Nat.mod_eq_of_lt (by omega)
        rw [foldl_dat l (by rw [hcol]; omega) (by rw [hcol]; omega), ← hi]
        exact if_pos ⟨rfl, rfl⟩
    | succ i =>
      rw [List.getElem?_cons_succ] at hi
      have hcol : (d.step other (.dat a)).col = d.col + 1 := Nat.mod_eq_of_lt (by omega)
      have hrest := ih (d.step other (.dat a)) (by rw [hcol]; omega) hi
      rw [hcol, Nat.add_assoc, Nat.add_comm 1 i] at hrest
      exact hrest

/-- What `OLEDSetPos` and some data leave in the GDDRAM. -/
theorem foldl_row (other : Byte → Display → Display) (d : Display) {page col : ℕ}
    (hpage : page < 8) (hcol : col < 128) (l : List Byte) (hfit : col + l.length ≤ 128) (p x : ℕ) :
    ((posBytes (.ofNat page) (.ofNat col) ++ l.map OledByte.dat).foldl
        (Display.step other) d).gddram p x =
      if p = page ∧ col ≤ x ∧ x < col + l.length then l.getD (x - col) 0 else d.gddram p x := by
  rw [List.foldl_append, foldl_posBytes hpage hcol]
  split
  · rename_i hin
    have hbyte : l[x - col]? = some (l.getD (x - col) 0) := by
      rw [List.getD_eq_getElem?_getD, List.getElem?_eq_getElem (by omega), Option.getD_some]
    have hrow := foldl_dat_inside other { d with page := page, col := col } l hfit hbyte
    have hx : col + (x - col) = x := by omega
    dsimp only at hrow
    rw [hx] at hrow
    rw [hin.1]
    exact hrow
  · rename_i hout
    exact foldl_dat l hfit hout

theorem clearBytes_commands {page : ℕ} (hpage : page < 8) {b : Byte}
    (hb : .cmd b ∈ clearBytes (.ofNat page)) : IsPageCommand b ∨ IsColumnCommand b := by
  rw [clearBytes, List.mem_append] at hb
  rcases hb with hb | hb
  · exact posBytes_commands hpage (show 0 < 128 by decide) hb
  · simp at hb

theorem foldl_clearBytes {page : ℕ} (hpage : page < 8) (p x : ℕ) :
    ((clearBytes (.ofNat page)).foldl (Display.step other) d).gddram p x =
      if p = page ∧ x < 128 then 0 else d.gddram p x := by
  have hcol : 0 < 128 := by decide
  refine (foldl_row other d hpage hcol (List.replicate 128 0) (by simp) p x).trans ?_
  by_cases hin : p = page ∧ x < 128
  · rw [if_pos ⟨hin.1, Nat.zero_le x, by simpa using hin.2⟩, if_pos hin]
    rw [List.getD_eq_getElem?_getD, Nat.sub_zero, List.getElem?_replicate, if_pos hin.2,
      Option.getD_some]
  · rw [if_neg (by simpa using hin), if_neg hin]

theorem foldl_clearBytes_shows (hd : d.Shows pic) {page : ℕ} (hpage : page < 8) :
    ((clearBytes (.ofNat page)).foldl (Display.step other) d).Shows (pic.clearPage page) := by
  intro p hp x hx
  rw [foldl_clearBytes hpage, Picture.clearPage]
  by_cases h : p = page
  · rw [if_pos ⟨h, hx⟩, if_pos h]
  · rw [if_neg (fun h' => h h'.1), if_neg h]
    exact hd p hp x hx

/-- One character replaces the picture of its cell. -/
theorem foldl_cellBytes_shows (hd : d.Shows pic) {k : ℕ} (hk : k < 64) (c : Byte) :
    ((cellBytes k c).foldl (Display.step other) d).Shows (pic.print k [c]) := by
  intro p hp x hx
  have hpage := cellPage_lt hk
  have hcol := cellCol_le k
  have hcol' : cellCol k < 128 := by omega
  have hupper := foldl_row other d (Nat.lt_of_succ_lt hpage) hcol'
    ((List.range 8).map (oledAsc2 (c.toNat - 0x20))) (by simpa using hcol) p x
  generalize hmid : (posBytes (.ofNat (cellPage k)) (.ofNat (cellCol k)) ++
    ((List.range 8).map (oledAsc2 (c.toNat - 0x20))).map OledByte.dat).foldl
      (Display.step other) d = mid at hupper
  have hlower := foldl_row other mid hpage hcol'
    ((List.range 8).map fun i => oledAsc2 (c.toNat - 0x20) (i + 8)) (by simpa using hcol) p x
  rw [cellBytes, charBytes, ofNat_cellPage_succ, List.foldl_append, hmid, hlower, hupper,
    Picture.print]
  simp only [List.length_map, List.length_range, List.length_singleton]
  unfold cellPage cellCol
  by_cases hin : k ≤ 16 * (p / 2) + x / 8 ∧ 16 * (p / 2) + x / 8 < k + 1
  · rw [if_pos hin]
    have hx8 : x - 8 * (k % 16) = x % 8 := by omega
    have hrange : ∀ f : ℕ → Byte, ((List.range 8).map f).getD (x % 8) 0 = f (x % 8) := by
      intro f
      rw [List.getD_eq_getElem?_getD, List.getElem?_map, List.getElem?_range (by omega)]
      rfl
    have hcell : 16 * (p / 2) + x / 8 - k = 0 := by omega
    rw [hx8, hrange, hrange, hcell, List.getD_cons_zero, glyph]
    by_cases hodd : p = 2 * (k / 16) + 1
    · rw [if_pos (by omega), show p % 2 = 1 by omega, Nat.add_comm]
    · rw [if_neg (by omega), if_pos (by omega), show p % 2 = 0 by omega, Nat.mul_zero, Nat.zero_add]
  · rw [if_neg hin, if_neg (by omega), if_neg (by omega)]
    exact hd p hp x hx

theorem print_cons (pic : Picture) (k : ℕ) (c : Byte) (str : List Byte) :
    pic.print k (c :: str) = (pic.print k [c]).print (k + 1) str := by
  funext p x
  simp only [Picture.print, List.length_cons, List.length_nil]
  generalize 16 * (p / 2) + x / 8 = cell
  by_cases hfirst : cell = k
  · rw [if_pos (by omega), if_neg (by omega), if_pos (by omega), hfirst, Nat.sub_self]
    rfl
  · by_cases hrest : k + 1 ≤ cell ∧ cell < k + 1 + str.length
    · rw [if_pos (by omega), if_pos hrest, show cell - k = cell - (k + 1) + 1 by omega,
        List.getD_cons_succ]
    · rw [if_neg (by omega), if_neg hrest, if_neg (by omega)]

/-- A text replaces the picture of its cells. -/
theorem foldl_cellsBytes_shows (hd : d.Shows pic) (str : List Byte) {k : ℕ}
    (hfit : k + str.length ≤ 64) :
    ((cellsBytes k str).foldl (Display.step other) d).Shows (pic.print k str) := by
  induction str generalizing k d pic with
  | nil =>
    intro p hp x hx
    rw [Picture.print, if_neg (by rw [List.length_nil]; omega)]
    exact hd p hp x hx
  | cons c str ih =>
    rw [List.length_cons] at hfit
    rw [cellsBytes_cons (by omega), List.foldl_append, print_cons]
    exact ih (foldl_cellBytes_shows hd (by omega) c) (by omega)

end Pictures

/-! ## `OLEDInit` -/

section Init

variable {kind : PanelKind}

theorem clearsBytes_commands {n page : ℕ} (hn : page + n ≤ 8) {b : Byte}
    (hb : .cmd b ∈ clearsBytes n (.ofNat page)) : IsPageCommand b ∨ IsColumnCommand b := by
  induction n generalizing page with
  | zero => cases hb
  | succ n ih =>
    rw [clearsBytes, List.mem_append, show Int32.ofNat page + 1 = .ofNat (page + 1) from
      (Int32.ofNat_add page 1).symm] at hb
    rcases hb with hb | hb
    · exact clearBytes_commands (by omega) hb
    · exact ih (by omega) hb

/-- The loop of `OLEDClear` blanks the pages one after the other. -/
theorem foldl_clearsBytes {other : Byte → Display → Display} {d : Display} {n page : ℕ}
    (hn : page + n = 8) (hd : d.ShowsBelow page Picture.blank) :
    ((clearsBytes n (.ofNat page)).foldl (Display.step other) d).Shows Picture.blank := by
  induction n generalizing page d with
  | zero =>
    obtain rfl : page = 8 := hn
    exact hd
  | succ n ih =>
    rw [clearsBytes, List.foldl_append, show Int32.ofNat page + 1 = .ofNat (page + 1) from
      (Int32.ofNat_add page 1).symm]
    apply ih (by omega)
    intro p hp x hx
    rw [foldl_clearBytes (by omega)]
    split
    · rfl
    · exact hd p (by omega) x hx

/-- The pending argument and the mode after a command; they do not depend on the display. -/
def nextControl (c : Option Byte × AddrMode) (b : Byte) : Option Byte × AddrMode :=
  match c.1 with
  | some a => (none, if a = 0x20#8 then c.2.set b else c.2)
  | none => if takesArg b then (some b, c.2) else (none, c.2)

theorem control_step (s : Panel) (b : Byte) :
    ((s.step kind (.cmd b)).arg, (s.step kind (.cmd b)).mode) = nextControl (s.arg, s.mode) b := by
  rw [Panel.step, nextControl]
  cases harg : s.arg with
  | some a => rfl
  | none =>
    dsimp only
    split_ifs
    · rfl
    · rw [← harg]
    · rw [← harg]
    · rw [← harg]
      rfl

theorem control_foldl (l : List Byte) (s : Panel) :
    (((l.map .cmd).foldl (Panel.step kind) s).arg, ((l.map .cmd).foldl (Panel.step kind) s).mode) =
      l.foldl nextControl (s.arg, s.mode) := by
  induction l generalizing s with
  | nil => rfl
  | cons b l ih => rw [List.map_cons, List.foldl_cons, List.foldl_cons, ih, control_step]

/-- The first command may be taken as an argument; all others are taken as what they are. -/
theorem foldl_initCmds_ready (kind : PanelKind) (s : Panel) :
    (((oledInitCmds ++ [0x20, 0x02]).map OledByte.cmd).foldl (Panel.step kind) s).Ready := by
  have hcontrol : (oledInitCmds ++ [0x20, 0x02]).foldl nextControl (s.arg, s.mode) =
      (none, .page) := by
    have hfirst : ∃ m, nextControl (s.arg, s.mode) 0xAE = (none, m) := by
      rw [nextControl]
      cases s.arg with
      | some a => exact ⟨_, rfl⟩
      | none => exact ⟨s.mode, rfl⟩
    obtain ⟨m, hm⟩ := hfirst
    rw [show oledInitCmds ++ [0x20, 0x02] = 0xAE :: (oledInitCmds.tail ++ [0x20, 0x02]) from rfl,
      List.foldl_cons, hm]
    cases m <;> decide
  rw [← control_foldl] at hcontrol
  exact ⟨congrArg Prod.fst hcontrol, congrArg Prod.snd hcontrol⟩

/-- `OLEDInit` leaves a blank panel that is switched on, from any state of the panel. -/
theorem foldl_initBytes (kind : PanelKind) (s : Panel) :
    (initBytes.foldl (Panel.step kind) s).Ready ∧
      (initBytes.foldl (Panel.step kind) s).on = true ∧
      (initBytes.foldl (Panel.step kind) s).display.Shows Picture.blank := by
  have hready := foldl_initCmds_ready kind s
  rw [List.map_append, List.foldl_append] at hready
  rw [initBytes, List.foldl_append, List.foldl_append, List.foldl_append]
  generalize ([0x20, 0x02].map OledByte.cmd).foldl (Panel.step kind)
    ((oledInitCmds.map .cmd).foldl (Panel.step kind) s) = s₁ at hready ⊢
  rw [hready.foldl (clearsBytes 8 0) fun b hb => clearsBytes_commands (show 0 + 8 ≤ 8 by decide) hb]
  have hon : ∀ d : Display, ({ s₁ with display := d } : Panel).step kind (.cmd 0xAF) =
      { s₁ with display := d, on := true } := by
    intro d
    rw [Panel.step]
    dsimp only
    rw [hready.arg]
    rfl
  have hblank : ((clearsBytes 8 (.ofNat 0)).foldl (Display.step kind.other) s₁.display).Shows
      Picture.blank := foldl_clearsBytes rfl fun p hp => absurd hp (Nat.not_lt_zero p)
  rw [List.foldl_cons, List.foldl_nil, hon]
  refine ⟨⟨hready.arg, hready.mode⟩, rfl, ?_⟩
  dsimp only
  exact hblank

end Init

end Jz2440.Spi
