import Jz2440.Boot.Tags
import Jz2440.Common.Loop

/-!
# Writing a string to NOR flash

Model of `do_write_nor_flash` and the functions below it in `nor_flash.c` of
`hard_driver/first_hard/025_sensors_022/007_irda_nec_ok_022_009`. The string is programmed as
16-bit words, two characters at a time, and a last word ends it.

The chip is connected without the lowest address line: the byte address `a` of the processor is
in word `a >> 1`. Three word writes unlock the chip, and the next one is programmed, which only
clears bits. Then the chip is busy for some reads, in which bit 6 of what it returns changes from
read to read; how many they are is up to the chip. It ignores writes meanwhile. Input and output
on the console are left out.

* `waitReady_yields`: `wait_ready` returns, and not before the chip is ready.
* `programWord_yields`: the unlock sequence, one word and the wait.
* `doWriteNorFlash_bytes`: every byte of the flash afterwards.
* `writes_string_iff`: the string is stored at the address iff the address is even. The lowest
  bit of an odd one is lost in `addr>>1`.
-/

namespace Jz2440.Nor

open Jz2440.Common
open Jz2440.Boot (CString)

/-! ## The chip -/

/-- How far the unlock sequence has got. -/
inductive Phase
  | idle
  | first
  | second
  | program
  deriving DecidableEq

/-- What the chip does on its own: for how many reads it is busy with the `n`-th word that is
    programmed, and what it returns to the `n`-th read while it is busy. -/
structure Timing where
  busyReads : ℕ → ℕ
  status : ℕ → BitVec 16
  toggles : ∀ n, (status (n + 1)).getLsbD 6 ≠ (status n).getLsbD 6

/-- The words of the chip, its command phase, for how many reads it is still busy, and how many
    words were programmed and how many reads came while it was busy. -/
structure Chip where
  cell : Word → BitVec 16
  phase : Phase
  busy : ℕ
  programmed : ℕ
  busyReads : ℕ

/-- The reaction to a write of `val` to word `offset`. -/
def Chip.write (tm : Timing) (offset : Word) (val : BitVec 16) (chip : Chip) : Chip :=
  if 0 < chip.busy then chip
  else
    match chip.phase with
    | .idle =>
      if offset = 0x555 ∧ val = 0xaa then { chip with phase := .first } else chip
    | .first =>
      if offset = 0x2aa ∧ val = 0x55 then { chip with phase := .second }
      else { chip with phase := .idle }
    | .second =>
      if offset = 0x555 ∧ val = 0xa0 then { chip with phase := .program }
      else { chip with phase := .idle }
    | .program =>
      { chip with
        cell := Function.update chip.cell offset (chip.cell offset &&& val)
        phase := .idle
        busy := tm.busyReads chip.programmed
        programmed := chip.programmed + 1 }

/-- What a read of word `offset` returns. -/
def Chip.read (tm : Timing) (offset : Word) (chip : Chip) : BitVec 16 × Chip :=
  if 0 < chip.busy then
    (tm.status chip.busyReads,
      { chip with busy := chip.busy - 1, busyReads := chip.busyReads + 1 })
  else (chip.cell offset, chip)

/-- The byte of the flash at the byte address `a`. -/
def Chip.byte (chip : Chip) (a : Word) : Byte :=
  (chip.cell (a >>> 1)).extractLsb' (8 * (a.toNat % 2)) 8

/-- The chip takes commands. -/
structure Chip.Ready (chip : Chip) : Prop where
  idle : chip.phase = .idle
  done : chip.busy = 0

/-! ## The code -/

/-- `NOR_FLASH_BASE` (nor_flash.c:5). -/
def norFlashBase : Word := 0

/-- `nor_write_word` (nor_flash.c:11-15); the chip sees the address without its lowest bit. -/
def norWriteWord (tm : Timing) (base offset val : Word) (chip : Chip) : Chip :=
  chip.write tm ((base + (offset <<< 1)) >>> 1) (val.setWidth 16)

/-- `nor_cmd` (nor_flash.c:18-21). -/
def norCmd (tm : Timing) (offset cmd : Word) (chip : Chip) : Chip :=
  norWriteWord tm norFlashBase offset cmd chip

/-- `nor_read_word` (nor_flash.c:23-27). -/
def norReadWord (tm : Timing) (base offset : Word) (chip : Chip) : Word × Chip :=
  let r := chip.read tm ((base + (offset <<< 1)) >>> 1)
  (r.1.setWidth 32, r.2)

/-- `nor_dat` (nor_flash.c:29-32). -/
def norDat (tm : Timing) (offset : Word) (chip : Chip) : Word × Chip :=
  norReadWord tm norFlashBase offset chip

/-- The variables of `wait_ready` and the chip. -/
structure WaitState where
  pre : Word
  val : Word
  chip : Chip

/-- One pass of the loop of `wait_ready` (nor_flash.c:42-46). -/
def waitPass (tm : Timing) (addr : Word) (s : WaitState) : Pass WaitState Chip :=
  if s.val &&& (1#32 <<< 6) ≠ s.pre &&& (1#32 <<< 6) then
    let r := norDat tm (addr >>> 1) s.chip
    .again ⟨s.val, r.1, r.2⟩
  else .leave s.chip

/-- `wait_ready` (nor_flash.c:35-47). -/
def waitReady (tm : Timing) (fuel : ℕ) (addr : Word) (chip : Chip) : Option Chip :=
  let pre := norDat tm (addr >>> 1) chip
  let val := norDat tm (addr >>> 1) pre.2
  loop (waitPass tm addr) fuel ⟨pre.1, val.1, val.2⟩

/-- The unlock sequence, the word and the wait (nor_flash.c:170-175, 184-189). -/
def programWord (tm : Timing) (fuel : ℕ) (addr val : Word) (chip : Chip) : Option Chip :=
  let chip := norCmd tm 0x555 0xaa chip
  let chip := norCmd tm 0x2aa 0x55 chip
  let chip := norCmd tm 0x555 0xa0 chip
  let chip := norCmd tm (addr >>> 1) val chip
  waitReady tm fuel addr chip

/-- The variables of `do_write_nor_flash` and the chip. -/
structure WriteState where
  i : ℕ
  j : ℕ
  addr : Word
  chip : Chip

/-- One pass of the loop of `do_write_nor_flash` (nor_flash.c:165-180). -/
def writePass (tm : Timing) (str : ℕ → Byte) (fuel : ℕ) (s : WriteState) :
    Option (Pass WriteState WriteState) :=
  if str s.i ≠ 0 ∧ str s.j ≠ 0 then
    let val := (str s.i).setWidth 32 + ((str s.j).setWidth 32 <<< 8)
    (programWord tm fuel s.addr val s.chip).map fun chip =>
      .again ⟨s.i + 2, s.j + 2, s.addr + 2, chip⟩
  else some (.leave s)

/-- `do_write_nor_flash` (nor_flash.c:144-190), for the address and the string that were
    entered. -/
def doWriteNorFlash (tm : Timing) (fuel : ℕ) (addr : Word) (str : ℕ → Byte) (chip : Chip) :
    Option Chip :=
  (loopM (writePass tm str) fuel ⟨0, 1, addr, chip⟩).bind fun s =>
    programWord tm fuel s.addr ((str s.i).setWidth 32) s.chip

/-! ## `wait_ready` -/

/-- The word that the chip sees behind `addr >> 1`. -/
theorem wordAt_eq (addr : Word) : (norFlashBase + ((addr >>> 1) <<< 1)) >>> 1 = addr >>> 1 := by
  unfold norFlashBase
  bv_omega

theorem norDat_busy (tm : Timing) (addr : Word) {chip : Chip} (h : 0 < chip.busy) :
    norDat tm (addr >>> 1) chip = ((tm.status chip.busyReads).setWidth 32,
      { chip with busy := chip.busy - 1, busyReads := chip.busyReads + 1 }) := by
  simp only [norDat, norReadWord, Chip.read, if_pos h]

theorem norDat_done (tm : Timing) (addr : Word) {chip : Chip} (h : chip.busy = 0) :
    norDat tm (addr >>> 1) chip = ((chip.cell (addr >>> 1)).setWidth 32, chip) := by
  simp only [norDat, norReadWord, Chip.read, h, Nat.lt_irrefl, if_false, wordAt_eq]

/-- The test for a change of bit 6. -/
theorem and_bit6_ne_iff (v w : BitVec 16) :
    v.setWidth 32 &&& (1#32 <<< 6) ≠ w.setWidth 32 &&& (1#32 <<< 6) ↔
      v.getLsbD 6 ≠ w.getLsbD 6 := by
  rw [and_bit_ne_iff _ _ (by decide), BitVec.getLsbD_setWidth, BitVec.getLsbD_setWidth]
  rfl

/-- At the head of the loop, either the chip is done, or both reads came while it was busy. -/
structure Waits (tm : Timing) (chip : Chip) (s : WaitState) : Prop where
  cell : s.chip.cell = chip.cell
  phase : s.chip.phase = chip.phase
  busy : 0 < s.chip.busy → ∃ n, s.chip.busyReads = n + 2 ∧
    s.pre = (tm.status n).setWidth 32 ∧ s.val = (tm.status (n + 1)).setWidth 32

/-- How many passes are left at most: as many as the chip is busy, one to see its word and one
    to see it again. -/
def passesLeft (data : Word) (s : WaitState) : ℕ :=
  if 0 < s.chip.busy then s.chip.busy + 2
  else if s.val ≠ data then 2
  else if s.pre ≠ data then 1
  else 0

/-- The state after one more read. -/
def reread (tm : Timing) (addr : Word) (s : WaitState) : WaitState :=
  ⟨s.val, (norDat tm (addr >>> 1) s.chip).1, (norDat tm (addr >>> 1) s.chip).2⟩

section Wait

variable {tm : Timing} {chip : Chip} {s : WaitState}

theorem Waits.reread_busy (h : Waits tm chip s) (hb : 0 < s.chip.busy) (addr data : Word) :
    Waits tm chip (reread tm addr s) ∧ passesLeft data (reread tm addr s) < passesLeft data s := by
  obtain ⟨n, hreads, -, hval⟩ := h.busy hb
  rw [reread, norDat_busy tm addr hb]
  refine ⟨⟨h.cell, h.phase, fun _ => ⟨n + 1, by simp only [hreads], hval, by rw [hreads]⟩⟩, ?_⟩
  unfold passesLeft
  dsimp only
  rw [if_pos hb]
  split_ifs <;> omega

/-- Once the chip is done, the word of `addr` is read. -/
theorem Waits.reread_done (h : Waits tm chip s) (hdone : s.chip.busy = 0) (addr : Word)
    (hchange : s.val ≠ s.pre) :
    Waits tm chip (reread tm addr s) ∧
      passesLeft ((chip.cell (addr >>> 1)).setWidth 32) (reread tm addr s) <
        passesLeft ((chip.cell (addr >>> 1)).setWidth 32) s := by
  have hb : ¬ 0 < s.chip.busy := by omega
  rw [reread, norDat_done tm addr hdone, h.cell]
  refine ⟨⟨h.cell, h.phase, fun hb' => absurd hb' hb⟩, ?_⟩
  unfold passesLeft
  dsimp only
  rw [if_neg hb, if_neg hb, if_neg (not_not.mpr rfl)]
  by_cases hv : s.val = (chip.cell (addr >>> 1)).setWidth 32
  · rw [if_neg (not_not.mpr hv), if_neg (not_not.mpr hv), if_pos (hv ▸ hchange.symm)]
    omega
  · rw [if_pos hv, if_pos hv]
    omega

theorem waitPass_spec (addr : Word) (h : Waits tm chip s) :
    (∃ s', waitPass tm addr s = .again s' ∧ Waits tm chip s' ∧
      passesLeft ((chip.cell (addr >>> 1)).setWidth 32) s' <
        passesLeft ((chip.cell (addr >>> 1)).setWidth 32) s) ∨
    ∃ r, waitPass tm addr s = .leave r ∧ r.cell = chip.cell ∧ r.phase = chip.phase ∧
      r.busy = 0 := by
  by_cases hchange : s.val &&& (1#32 <<< 6) ≠ s.pre &&& (1#32 <<< 6)
  · refine .inl ⟨reread tm addr s, if_pos hchange, ?_⟩
    by_cases hb : 0 < s.chip.busy
    · exact h.reread_busy hb addr _
    · refine h.reread_done (by omega) addr fun heq => hchange ?_
      rw [heq]
  · refine .inr ⟨s.chip, if_neg hchange, h.cell, h.phase, ?_⟩
    -- two reads in a row while the chip is busy differ in bit 6
    by_contra hb
    obtain ⟨n, -, hpre, hval⟩ := h.busy (Nat.pos_of_ne_zero hb)
    rw [hpre, hval] at hchange
    exact hchange ((and_bit6_ne_iff _ _).mpr (tm.toggles n))

end Wait

/-- `wait_ready` returns when the chip is ready, and has not changed it otherwise. -/
theorem waitReady_yields (tm : Timing) (addr : Word) (chip : Chip) :
    ∃ chip', Yields (fun fuel => waitReady tm fuel addr chip) chip' ∧
      chip'.cell = chip.cell ∧ chip'.phase = chip.phase ∧ chip'.busy = 0 := by
  refine Returns.of_variant (Waits tm chip) _ _ (fun s hs => waitPass_spec addr hs) ?_
  -- the first two reads
  by_cases hb : 0 < chip.busy
  · rw [norDat_busy tm addr hb]
    by_cases hb' : 0 < chip.busy - 1
    · rw [norDat_busy tm addr (by exact hb')]
      refine ⟨rfl, rfl, fun _ => ⟨chip.busyReads, rfl, rfl, rfl⟩⟩
    · rw [norDat_done tm addr (by show chip.busy - 1 = 0; omega)]
      exact ⟨rfl, rfl, fun h => absurd h hb'⟩
  · have hdone : chip.busy = 0 := by omega
    rw [norDat_done tm addr hdone, norDat_done tm addr hdone]
    exact ⟨rfl, rfl, fun h => absurd h hb⟩

/-! ## One word -/

/-- The unlock sequence makes the next write program its word. -/
theorem unlock_eq (tm : Timing) {chip : Chip} (h : chip.Ready) :
    norCmd tm 0x555 0xa0 (norCmd tm 0x2aa 0x55 (norCmd tm 0x555 0xaa chip)) =
      { chip with phase := .program } := by
  obtain ⟨cell, phase, busy, programmed, busyReads⟩ := chip
  obtain ⟨hidle, hdone⟩ := h
  dsimp only at hidle hdone
  subst hidle hdone
  rfl

theorem programWord_yields (tm : Timing) (addr val : Word) {chip : Chip} (h : chip.Ready) :
    ∃ chip', Yields (fun fuel => programWord tm fuel addr val chip) chip' ∧ chip'.Ready ∧
      chip'.cell = Function.update chip.cell (addr >>> 1)
        (chip.cell (addr >>> 1) &&& val.setWidth 16) := by
  simp only [programWord, unlock_eq tm h]
  obtain ⟨chip', hyields, hcell, hphase, hbusy⟩ :=
    waitReady_yields tm addr (norCmd tm (addr >>> 1) val { chip with phase := .program })
  have hprogram : norCmd tm (addr >>> 1) val { chip with phase := .program } =
      { chip with
        cell := Function.update chip.cell (addr >>> 1)
          (chip.cell (addr >>> 1) &&& val.setWidth 16)
        phase := .idle
        busy := tm.busyReads chip.programmed
        programmed := chip.programmed + 1 } := by
    simp only [norCmd, norWriteWord, Chip.write, h.done, Nat.lt_irrefl, if_false, wordAt_eq]
  rw [hprogram] at hcell hphase
  exact ⟨chip', hyields, ⟨hphase, hbusy⟩, hcell⟩

/-! ## Bytes of a word -/

/-- The byte address at which the words of the string begin. -/
def wordBase (addr : Word) : Word := (addr >>> 1) <<< 1

/-- How far a byte is behind the beginning of the words. -/
def behind (addr b : Word) : ℕ := (b - wordBase addr).toNat

/-- The bytes of word `k` are those whose distance has the quotient `k` by 2. -/
theorem sameWord_iff (addr b : Word) {k : ℕ} (hk : k < 2 ^ 31) :
    b >>> 1 = (addr + BitVec.ofNat 32 (2 * k)) >>> 1 ↔ behind addr b / 2 = k := by
  unfold behind wordBase
  bv_omega

theorem behind_mod_two (addr b : Word) : b.toNat % 2 = behind addr b % 2 := by
  unfold behind wordBase
  bv_omega

theorem byte_of_update {chip chip' : Chip} {a : Word} {v : BitVec 16}
    (h : chip'.cell = Function.update chip.cell a (chip.cell a &&& v)) (b : Word) :
    chip'.byte b = if b >>> 1 = a then chip.byte b &&& v.extractLsb' (8 * (b.toNat % 2)) 8
      else chip.byte b := by
  unfold Chip.byte
  rw [h]
  by_cases hb : b >>> 1 = a
  · rw [if_pos hb, hb, Function.update_self]
    exact BitVec.extractLsb'_and ..
  · rw [if_neg hb, Function.update_of_ne hb]

/-- The word of two characters. -/
theorem extract_two (x y : Byte) {k : ℕ} (hk : k < 2) :
    ((x.setWidth 32 + (y.setWidth 32 <<< 8)).setWidth 16).extractLsb' (8 * k) 8 =
      if k = 0 then x else y := by
  have hx := x.isLt
  have hy := y.isLt
  have hval : ((x.setWidth 32 + (y.setWidth 32 <<< 8)).setWidth 16).toNat =
      x.toNat + 256 * y.toNat := by
    bv_omega
  apply BitVec.eq_of_toNat_eq
  rw [BitVec.extractLsb'_toNat, hval, Nat.shiftRight_eq_div_pow]
  obtain rfl | rfl : k = 0 ∨ k = 1 := by omega
  · rw [if_pos rfl]
    omega
  · rw [if_neg (by decide)]
    omega

/-- Word `k` of the string is programmed. -/
theorem programPair_yields (tm : Timing) (addr : Word) {k : ℕ} (hk : k < 2 ^ 31) (x y : Byte)
    {chip : Chip} (h : chip.Ready) :
    ∃ chip', Yields (fun fuel => programWord tm fuel (addr + BitVec.ofNat 32 (2 * k))
        (x.setWidth 32 + (y.setWidth 32 <<< 8)) chip) chip' ∧ chip'.Ready ∧
      ∀ b, chip'.byte b = if behind addr b / 2 = k then
          chip.byte b &&& (if behind addr b % 2 = 0 then x else y) else chip.byte b := by
  obtain ⟨chip', hyields, hready, hcell⟩ := programWord_yields tm
    (addr + BitVec.ofNat 32 (2 * k)) (x.setWidth 32 + (y.setWidth 32 <<< 8)) h
  refine ⟨chip', hyields, hready, fun b => ?_⟩
  rw [byte_of_update hcell, behind_mod_two addr, extract_two x y (Nat.mod_lt _ (by decide))]
  simp only [sameWord_iff addr b hk]

/-! ## The string -/

/-- The buffer holds the string and its terminating NUL. -/
def HoldsString (buf : ℕ → Byte) (str : CString) : Prop := ∀ i ≤ str.bytes.length, buf i = str.get i

/-- The first `n` bytes of the words, counted from their beginning, are programmed with the
    string, filled up with zeros. -/
def StoredUpTo (addr : Word) (str : CString) (n : ℕ) (chip chip' : Chip) : Prop :=
  ∀ b, chip'.byte b =
    if behind addr b < n then chip.byte b &&& str.get (behind addr b) else chip.byte b

/-- One more word. -/
theorem StoredUpTo.succ {addr : Word} {str : CString} {k : ℕ} {chip c c' : Chip}
    (h : StoredUpTo addr str (2 * k) chip c)
    (hword : ∀ b, c'.byte b = if behind addr b / 2 = k then
        c.byte b &&& (if behind addr b % 2 = 0 then str.get (2 * k) else str.get (2 * k + 1))
      else c.byte b) :
    StoredUpTo addr str (2 * (k + 1)) chip c' := by
  intro b
  rw [hword b, h b]
  by_cases hk : behind addr b / 2 = k
  · have hold : ¬ behind addr b < 2 * k := by omega
    have hnew : behind addr b < 2 * (k + 1) := by omega
    rw [if_pos hk, if_neg hold, if_pos hnew]
    by_cases hmod : behind addr b % 2 = 0
    · rw [if_pos hmod, show behind addr b = 2 * k by omega]
    · rw [if_neg hmod, show behind addr b = 2 * k + 1 by omega]
  · rw [if_neg hk]
    by_cases hlt : behind addr b < 2 * k
    · rw [if_pos hlt, if_pos (by omega)]
    · rw [if_neg hlt, if_neg (by omega)]

/-- At the head of the loop, after `k` words. -/
structure PairsDone (addr : Word) (str : CString) (chip : Chip) (k : ℕ) (s : WriteState) :
    Prop where
  i : s.i = 2 * k
  j : s.j = 2 * k + 1
  address : s.addr = addr + BitVec.ofNat 32 (2 * k)
  ready : s.chip.Ready
  stored : StoredUpTo addr str (2 * k) chip s.chip

section Pass

variable (tm : Timing) {addr : Word} {buf : ℕ → Byte} {str : CString} {chip : Chip} {k : ℕ}
  {s : WriteState}

theorem writePass_again (hbuf : HoldsString buf str) (hlen : str.bytes.length ≤ 98)
    (hk : k < str.bytes.length / 2) (h : PairsDone addr str chip k s) :
    ∃ s', Yields (fun fuel => writePass tm buf fuel s) (.again s') ∧
      PairsDone addr str chip (k + 1) s' := by
  obtain ⟨hi, hj, haddr, hready, hstored⟩ := h
  have hbufi : buf s.i = str.get (2 * k) := by rw [hi]; exact hbuf _ (by omega)
  have hbufj : buf s.j = str.get (2 * k + 1) := by rw [hj]; exact hbuf _ (by omega)
  have hmore : buf s.i ≠ 0 ∧ buf s.j ≠ 0 := by
    rw [hbufi, hbufj]
    exact ⟨str.get_ne_zero (by omega), str.get_ne_zero (by omega)⟩
  obtain ⟨c', hyields, hready', hword⟩ := programPair_yields tm addr (by omega : k < 2 ^ 31)
    (str.get (2 * k)) (str.get (2 * k + 1)) hready
  refine ⟨⟨s.i + 2, s.j + 2, s.addr + 2, c'⟩, ?_, ?_⟩
  · rw [← hbufi, ← hbufj, ← haddr] at hyields
    simp only [writePass, if_pos hmore]
    exact hyields.map _
  · refine ⟨by simp only [hi]; omega, by simp only [hj]; omega, ?_, hready', hstored.succ hword⟩
    show s.addr + 2 = _
    rw [haddr]
    bv_omega

theorem writePass_leave (hbuf : HoldsString buf str)
    (h : PairsDone addr str chip (str.bytes.length / 2) s) :
    Yields (fun fuel => writePass tm buf fuel s) (.leave s) := by
  have hlast : ¬ (buf s.i ≠ 0 ∧ buf s.j ≠ 0) := by
    rw [h.i, h.j]
    -- the NUL is the first of the next two characters or the second one
    obtain hlen | hlen : 2 * (str.bytes.length / 2) = str.bytes.length ∨
        2 * (str.bytes.length / 2) + 1 = str.bytes.length := by omega
    · rw [hlen, hbuf _ le_rfl, str.get_length]
      exact fun hne => hne.1 rfl
    · rw [hlen, hbuf _ le_rfl, str.get_length]
      exact fun hne => hne.2 rfl
  exact ⟨0, fun fuel _ => if_neg hlast⟩

end Pass

/-- The last word holds the last character of an odd number, and zeros. -/
theorem get_behind_last (str : CString) : str.get (2 * (str.bytes.length / 2) + 1) = 0 :=
  List.getD_eq_default _ _ (by omega)

/-- Every byte of the flash after `do_write_nor_flash`. -/
theorem doWriteNorFlash_bytes (tm : Timing) (addr : Word) {buf : ℕ → Byte} {str : CString}
    (hbuf : HoldsString buf str) (hlen : str.bytes.length ≤ 98) {chip : Chip} (h : chip.Ready) :
    ∃ chip', Yields (fun fuel => doWriteNorFlash tm fuel addr buf chip) chip' ∧
      StoredUpTo addr str (2 * (str.bytes.length / 2 + 1)) chip chip' := by
  have hstart : PairsDone addr str chip 0 ⟨0, 1, addr, chip⟩ :=
    ⟨rfl, rfl, (BitVec.add_zero addr).symm, h, fun b => (if_neg (Nat.not_lt_zero _)).symm⟩
  obtain ⟨s, hloop, hs⟩ := Yields.loopM_count
    (PairsDone addr str chip) (PairsDone addr str chip (str.bytes.length / 2))
    (str.bytes.length / 2) hstart (fun k hk t ht => writePass_again tm hbuf hlen hk ht)
    fun t ht => ⟨t, writePass_leave tm hbuf ht, ht⟩
  obtain ⟨hi, hj, haddr, hready, hstored⟩ := hs
  obtain ⟨chip', hyields, -, hword⟩ := programPair_yields tm addr
    (by omega : str.bytes.length / 2 < 2 ^ 31) (str.get (2 * (str.bytes.length / 2))) 0 hready
  have hval : (buf s.i).setWidth 32 = (str.get (2 * (str.bytes.length / 2))).setWidth 32 +
      ((0 : Byte).setWidth 32 <<< 8) := by
    rw [hi, hbuf _ (by omega)]
    exact (BitVec.add_zero _).symm
  rw [← hval, ← haddr] at hyields
  refine ⟨chip', hloop.bind hyields, hstored.succ ?_⟩
  rw [get_behind_last]
  exact hword

/-! ## Where the string is stored -/

/-- The number of words that the string and its NUL take. -/
def wordsOf (str : CString) : ℕ := (str.bytes.length + 2) / 2

/-- The flash is erased on the words of the string from `addr` on. -/
def Erased (chip : Chip) (addr : Word) (str : CString) : Prop :=
  ∀ b, (b - addr).toNat < 2 * wordsOf str → chip.byte b = 0xff

/-- The string and its NUL are at `addr`, and nothing outside of its words has changed. -/
structure WritesString (chip chip' : Chip) (addr : Word) (str : CString) : Prop where
  stored : ∀ k ≤ str.bytes.length, chip'.byte (addr + BitVec.ofNat 32 k) = str.get k
  unchanged : ∀ b, 2 * wordsOf str ≤ (b - addr).toNat → chip'.byte b = chip.byte b

/-- `do_write_nor_flash` returns and has written the string, whatever else is in the flash. -/
def WritesStringAt (tm : Timing) (addr : Word) (buf : ℕ → Byte) (str : CString) : Prop :=
  ∀ chip : Chip, chip.Ready → Erased chip addr str →
    ∃ chip', Yields (fun fuel => doWriteNorFlash tm fuel addr buf chip) chip' ∧
      WritesString chip chip' addr str

theorem behind_of_even {addr : Word} (h : addr.toNat % 2 = 0) (b : Word) :
    behind addr b = (b - addr).toNat := by
  have hbase : wordBase addr = addr := by
    unfold wordBase
    bv_omega
  rw [behind, hbase]

theorem behind_of_odd {addr : Word} (h : addr.toNat % 2 = 1) (b : Word) :
    behind addr b = (b - (addr - 1)).toNat := by
  have hbase : wordBase addr = addr - 1 := by
    unfold wordBase
    bv_omega
  rw [behind, hbase]

theorem writes_of_even {tm : Timing} {addr : Word} {buf : ℕ → Byte} {str : CString}
    (hbuf : HoldsString buf str) (hlen : str.bytes.length ≤ 98) (heven : addr.toNat % 2 = 0) :
    WritesStringAt tm addr buf str := by
  intro chip hready herased
  obtain ⟨chip', hyields, hbytes⟩ := doWriteNorFlash_bytes tm addr hbuf hlen hready
  have hwords : 2 * (str.bytes.length / 2 + 1) = 2 * wordsOf str := by
    unfold wordsOf
    omega
  refine ⟨chip', hyields, fun k hk => ?_, fun b hb => ?_⟩
  · have hdist : (addr + BitVec.ofNat 32 k - addr).toNat = k := by bv_omega
    rw [hbytes, behind_of_even heven, hdist, if_pos (by omega), herased _ (by
      rw [hdist]
      unfold wordsOf
      omega)]
    exact BitVec.allOnes_and
  · rw [hbytes, behind_of_even heven, hwords, if_neg (by omega)]

/-- The chip with every byte erased. -/
def blankChip : Chip := ⟨fun _ => 0xffff, .idle, 0, 0, 0⟩

theorem blankChip_byte (b : Word) : blankChip.byte b = 0xff := by
  unfold Chip.byte
  obtain hmod | hmod : b.toNat % 2 = 0 ∨ b.toNat % 2 = 1 := by omega
  · rw [hmod]
    show (0xffff : BitVec 16).extractLsb' 0 8 = 0xff
    decide
  · rw [hmod]
    show (0xffff : BitVec 16).extractLsb' 8 8 = 0xff
    decide

/-- The string is stored one byte before an odd address: its last character is overwritten by
    the NUL, and the empty string clears the byte before the address. -/
theorem not_writes_of_odd {tm : Timing} {addr : Word} {buf : ℕ → Byte} {str : CString}
    (hbuf : HoldsString buf str) (hlen : str.bytes.length ≤ 98) (hodd : addr.toNat % 2 = 1) :
    ¬ WritesStringAt tm addr buf str := by
  intro hwrites
  obtain ⟨chip', hyields, hstored, hunchanged⟩ :=
    hwrites blankChip ⟨rfl, rfl⟩ fun b _ => blankChip_byte b
  obtain ⟨chip₁, hyields₁, hbytes⟩ :=
    doWriteNorFlash_bytes tm addr hbuf hlen (show blankChip.Ready from ⟨rfl, rfl⟩)
  obtain rfl := hyields.unique hyields₁
  cases hlength : str.bytes.length with
  | zero =>
    have hbehind : (addr - 1 - (addr - 1)).toNat = 0 := by bv_omega
    have hfar : 2 * wordsOf str ≤ (addr - 1 - addr).toNat := by
      unfold wordsOf
      rw [hlength]
      bv_omega
    have hsame := hunchanged (addr - 1) hfar
    rw [hbytes, behind_of_odd hodd, hbehind, if_pos (by omega), blankChip_byte, ← hlength,
      str.get_length] at hsame
    exact absurd hsame (by decide)
  | succ n =>
    have hbehind : (addr + BitVec.ofNat 32 n - (addr - 1)).toNat = n + 1 := by bv_omega
    have hlast := hstored n (by omega)
    rw [hbytes, behind_of_odd hodd, hbehind, if_pos (by omega), blankChip_byte, ← hlength,
      str.get_length] at hlast
    exact str.get_ne_zero (by omega) hlast.symm

/-- For every string of at most 98 characters, `do_write_nor_flash` stores it at the address iff
    the address is even. -/
theorem writes_string_iff (tm : Timing) (addr : Word) (buf : ℕ → Byte) (str : CString)
    (hbuf : HoldsString buf str) (hlen : str.bytes.length ≤ 98) :
    WritesStringAt tm addr buf str ↔ addr.toNat % 2 = 0 := by
  constructor
  · intro hwrites
    by_contra hodd
    exact not_writes_of_odd hbuf hlen (by omega) hwrites
  · exact writes_of_even hbuf hlen

/-- A chip that is busy for three reads after each word. -/
def threeReads : Timing where
  busyReads _ := 3
  status n := if n % 2 = 0 then 0x40 else 0
  toggles n := by
    obtain hn | hn : n % 2 = 0 ∧ (n + 1) % 2 = 1 ∨ n % 2 = 1 ∧ (n + 1) % 2 = 0 := by omega
    · simp [hn]
    · simp [hn]

/-- "abc". -/
def abc : CString := ⟨[0x61, 0x62, 0x63], by decide⟩

theorem holdsString_abc : HoldsString abc.get abc := fun _ _ => rfl

theorem writes_string_even :
    HoldsString abc.get abc ∧ WritesStringAt threeReads 0x80000 abc.get abc :=
  ⟨holdsString_abc,
    (writes_string_iff threeReads 0x80000 abc.get abc holdsString_abc (by decide)).mpr (by decide)⟩

/-- At the address 0x80001 the string is not stored. -/
theorem not_writes_string_odd : ¬ WritesStringAt threeReads 0x80001 abc.get abc :=
  not_writes_of_odd holdsString_abc (by decide) (by decide)

end Jz2440.Nor
