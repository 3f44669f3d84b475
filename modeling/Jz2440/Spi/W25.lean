import Jz2440.Common.Loop
import Jz2440.Spi.Flash

/-!
# Programming the SPI flash and reading it back

A model of the flash chip (W25Qxx) as far as `SPIFlashProgram` and `SPIFlashRead`
use it. Command 0x02 collects its data in a latch of one page, whose pointer wraps
to the start of the page; when the chip is deselected the latch is programmed into
the page, which can only clear bits. `SPIFlashProgram` sends any number of bytes
with one command.

* `pageLatch_cases`: what the latch holds at the end.
* `spiFlashProgram_run`, `spiFlashRead_run`: the two operations on the chip.
* `program_read_iff`: on erased bytes the two operations round-trip iff the bytes
  that leave the first page, and those that are overwritten in the latch, are all
  0xff; in particular whenever the range lies in one page.
-/

namespace Jz2440.Spi

open Jz2440.Common

/-! ## The chip -/

/-- The state of the chip. -/
structure W25 where
  mem : ℕ → Byte
  /-- protected bytes cannot be programmed -/
  prot : ℕ → Bool
  /-- the write enable latch -/
  wel : Bool
  /-- the number of status reads for which the chip is still busy -/
  busy : ℕ
  selected : Bool
  /-- the bytes received since the chip was selected -/
  input : List Byte
  /-- the number of bytes sent since then -/
  given : ℕ

/-- The address that follows a command, most significant byte first. -/
def addr24 (a2 a1 a0 : Byte) : ℕ := a2.toNat * 65536 + a1.toNat * 256 + a0.toNat

/-- The page latch after `data`, whose first byte goes to offset `off`. -/
def pageLatch : ℕ → List Byte → (ℕ → Byte) → ℕ → Byte
  | _, [], latch => latch
  | off, b :: data, latch => pageLatch ((off + 1) % 256) data (Function.update latch off b)

/-- The memory after the latch was programmed into the page of `addr`. -/
def programPage (prot : ℕ → Bool) (addr : ℕ) (data : List Byte) (mem : ℕ → Byte) : ℕ → Byte :=
  fun x =>
    if x / 256 = addr / 256 ∧ prot x = false then
      mem x &&& pageLatch (addr % 256) data (fun _ => 0xff) (x % 256)
    else mem x

/-- The command is executed when the chip is deselected. A busy chip ignores it, and a
    program command needs the write enable latch and at least one byte of data. After it
    the chip is busy for `busyTime` status reads. -/
def W25.execute (busyTime : ℕ) (c : W25) : W25 :=
  if c.busy ≠ 0 then c
  else match c.input with
    | [cmd] =>
      if cmd = 0x06 then { c with wel := true }
      else if cmd = 0x04 then { c with wel := false }
      else c
    | cmd :: a2 :: a1 :: a0 :: b :: data =>
      if cmd = 0x02 ∧ c.wel then
        { c with mem := programPage c.prot (addr24 a2 a1 a0) (b :: data) c.mem
                 wel := false, busy := busyTime }
      else c
    | _ => c

/-- The byte that the chip sends next: the status after command 0x05, the memory from
    the address on after command 0x03. -/
def W25.output (c : W25) : Byte :=
  match c.input with
  | [cmd] =>
    if cmd = 0x05 then (if c.busy ≠ 0 then 1 else 0) ||| (if c.wel then 2 else 0) else 0xff
  | [cmd, a2, a1, a0] =>
    if cmd = 0x03 ∧ c.busy = 0 then c.mem (addr24 a2 a1 a0 + c.given) else 0xff
  | _ => 0xff

/-- The bus with the flash chip on it. -/
def w25Bus (busyTime : ℕ) : SpiBus W25
  | .setCs .flash false, c => ((), { c with selected := true, input := [], given := 0 })
  | .setCs .flash true, c =>
    ((), if c.selected then { c.execute busyTime with selected := false } else c)
  | .setCs .oled _, c => ((), c)
  | .setDc _, c => ((), c)
  | .send val, c => ((), if c.selected then { c with input := c.input ++ [val] } else c)
  | .recv, c =>
    if c.selected then
      (c.output, { c with given := c.given + 1
                          busy := if c.input = [0x05] then c.busy - 1 else c.busy })
    else (0xff, c)

/-! ## The latch -/

/-- Offset `o` of the latch holds the last of the bytes that were sent there. -/
theorem pageLatch_cases (data : List Byte) {off o : ℕ} (latch : ℕ → Byte) (hoff : off < 256) :
    (∃ k, (off + k) % 256 = o ∧ data.length ≤ k + 256 ∧
      data[k]? = some (pageLatch off data latch o)) ∨
      ((∀ k < data.length, (off + k) % 256 ≠ o) ∧ pageLatch off data latch o = latch o) := by
  induction data generalizing off latch with
  | nil => exact .inr ⟨fun k hk => absurd hk (Nat.not_lt_zero k), rfl⟩
  | cons b data ih =>
    rw [pageLatch]
    rcases ih (Function.update latch off b) (Nat.mod_lt (off + 1) (by norm_num)) with
      ⟨k, hk, hlast, hbyte⟩ | ⟨hnone, hkeep⟩
    · refine .inl ⟨k + 1, by omega, by simp only [List.length_cons]; omega, ?_⟩
      rw [List.getElem?_cons_succ, hbyte]
    · rw [hkeep]
      by_cases ho : o = off
      · -- a further round would have overwritten the byte
        have hshort : data.length < 256 := by
          by_contra hlong
          exact hnone 255 (by omega) (by omega)
        refine .inl ⟨0, by omega, by simp only [List.length_cons]; omega, ?_⟩
        rw [ho, Function.update_self, List.getElem?_cons_zero]
      · refine .inr ⟨?_, Function.update_of_ne ho b latch⟩
        intro k hk
        cases k with
        | zero => omega
        | succ k =>
          have := hnone k (by simpa using hk)
          omega

/-! ## The operations on the chip -/

section Run

variable {busyTime : ℕ} {c : W25}

theorem run_lower (c : W25) : (spiFlashSetCs false).run (w25Bus busyTime) c =
    ((), { c with selected := true, input := [], given := 0 }) := rfl

theorem run_raise (hsel : c.selected = true) : (spiFlashSetCs true).run (w25Bus busyTime) c =
    ((), { c.execute busyTime with selected := false }) := by
  show ((), if c.selected then _ else c) = _
  rw [if_pos hsel]

theorem run_send (hsel : c.selected = true) (val : Byte) :
    (spiSendByte val).run (w25Bus busyTime) c = ((), { c with input := c.input ++ [val] }) := by
  show ((), if c.selected then _ else c) = _
  rw [if_pos hsel]

theorem run_recv (hsel : c.selected = true) : spiRecvByte.run (w25Bus busyTime) c =
    (c.output, { c with given := c.given + 1
                        busy := if c.input = [0x05] then c.busy - 1 else c.busy }) := by
  show (if c.selected then _ else (0xff, c)) = _
  rw [if_pos hsel]

theorem run_sendAddr (hsel : c.selected = true) (addr : Word) :
    (spiFlashSendAddr addr).run (w25Bus busyTime) c =
      ((), { c with input := c.input ++ [(addr >>> 16).setWidth 8, (addr >>> 8).setWidth 8,
                                         (addr &&& 0xff).setWidth 8] }) := by
  simp only [spiFlashSendAddr, Prog.run_bind, run_send hsel, run_send, hsel, List.append_assoc,
    List.cons_append, List.nil_append]

theorem run_sendBytes (hsel : c.selected = true) (buf : List Byte) :
    (sendBytes buf).run (w25Bus busyTime) c = ((), { c with input := c.input ++ buf }) := by
  induction buf generalizing c with
  | nil => simp [sendBytes]
  | cons b buf ih =>
    rw [sendBytes, Prog.run_bind, run_send hsel]
    dsimp only
    rw [ih (by exact hsel), List.append_assoc, List.singleton_append]

/-- The three bytes of a 24-bit address are put together again. -/
theorem addr24_bytes (addr : Word) (haddr : addr.toNat < 2 ^ 24) :
    addr24 ((addr >>> 16).setWidth 8) ((addr >>> 8).setWidth 8) ((addr &&& 0xff).setWidth 8) =
      addr.toNat := by
  have hlow : (addr &&& 0xff).toNat = addr.toNat % 256 := by
    rw [BitVec.toNat_and]
    exact Nat.and_two_pow_sub_one_eq_mod addr.toNat 8
  simp only [addr24, BitVec.toNat_setWidth, BitVec.toNat_ushiftRight, hlow,
    Nat.shiftRight_eq_div_pow]
  omega

/-- `SPIFlashRead` streams the memory from its address on. -/
theorem run_recvBytes (hsel : c.selected = true) (hbusy : c.busy = 0) {a2 a1 a0 : Byte}
    (hinput : c.input = [0x03, a2, a1, a0]) (len : ℕ) :
    (recvBytes len).run (w25Bus busyTime) c =
      ((List.range len).map fun i => c.mem (addr24 a2 a1 a0 + c.given + i),
        { c with given := c.given + len }) := by
  induction len generalizing c with
  | zero => rfl
  | succ len ih =>
    have hout : c.output = c.mem (addr24 a2 a1 a0 + c.given + 0) := by
      simp [W25.output, hinput, hbusy]
    have hcmd : c.input ≠ [0x05] := by simp [hinput]
    rw [recvBytes, Prog.run_bind, run_recv hsel, if_neg hcmd, hout]
    simp only [Prog.run_bind, Prog.run_pure]
    rw [ih (by exact hsel) (by exact hbusy) (by exact hinput)]
    have hshift : (fun i => c.mem (addr24 a2 a1 a0 + (c.given + 1) + i)) =
        (fun i => c.mem (addr24 a2 a1 a0 + c.given + i)) ∘ Nat.succ := by
      funext i
      show _ = c.mem (addr24 a2 a1 a0 + c.given + (i + 1))
      congr 1
      omega
    simp only [List.range_succ_eq_map, List.map_cons, List.map_map, hshift,
      show c.given + 1 + len = c.given + (len + 1) by omega]

theorem run_writeEnable (hbusy : c.busy = 0) :
    (spiFlashWriteEnable true).run (w25Bus busyTime) c =
      ((), { c with wel := true, selected := false, input := [0x06], given := 0 }) := by
  simp only [spiFlashWriteEnable, Prog.run_bind, run_lower, run_send, run_raise, if_true]
  simp [W25.execute, hbusy]

/-- A status read reports whether the chip is busy, and time goes by. -/
theorem run_readStatusReg1 (c : W25) :
    ((spiFlashReadStatusReg1.run (w25Bus busyTime) c).1 &&& 1 ≠ 0 ↔ c.busy ≠ 0) ∧
      (spiFlashReadStatusReg1.run (w25Bus busyTime) c).2 =
        { c with selected := false, input := [0x05], given := 1, busy := c.busy - 1 } := by
  simp only [spiFlashReadStatusReg1, readStatusReg, Prog.run_bind, Prog.run_pure, run_lower,
    run_send, run_recv, run_raise, List.nil_append, if_true]
  refine ⟨?_, ?_⟩
  · by_cases hbusy : c.busy = 0
    · cases c.wel <;> simp [W25.output, hbusy]
    · cases c.wel <;> simp [W25.output, hbusy]
  · simp [W25.execute]

/-- The wait loop ends when the chip is ready. -/
theorem run_waitWhenBusy (fuel : ℕ) (hfuel : c.busy < fuel) :
    (spiFlashWaitWhenBusy fuel).run (w25Bus busyTime) c =
      (some (), { c with selected := false, input := [0x05], given := 1, busy := 0 }) := by
  induction fuel generalizing c with
  | zero => exact absurd hfuel (Nat.not_lt_zero _)
  | succ fuel ih =>
    obtain ⟨hval, hnext⟩ := run_readStatusReg1 c
    rw [spiFlashWaitWhenBusy, Prog.run_bind, hnext]
    by_cases hbusy : c.busy = 0
    · rw [if_neg fun h => hval.mp h hbusy, Prog.run_pure, hbusy]
    · rw [if_pos (hval.mpr hbusy), ih (by dsimp only; omega)]

theorem programPage_nil (prot : ℕ → Bool) (addr : ℕ) (mem : ℕ → Byte) :
    programPage prot addr [] mem = mem := by
  funext x
  unfold programPage
  split
  · exact BitVec.and_allOnes
  · rfl

/-- `SPIFlashProgram` programs one page, however many bytes there are. -/
theorem spiFlashProgram_run (busyTime : ℕ) (hbusy : c.busy = 0) (addr : Word)
    (haddr : addr.toNat < 2 ^ 24) (buf : List Byte) :
    ∃ c', (∀ fuel, busyTime < fuel →
        (spiFlashProgram fuel addr buf).run (w25Bus busyTime) c = (some (), c')) ∧
      c'.busy = 0 ∧ c'.mem = programPage c.prot addr.toNat buf c.mem := by
  simp only [spiFlashProgram, Prog.run_bind, run_writeEnable hbusy, run_lower, run_send,
    run_sendAddr, run_sendBytes, run_raise, List.nil_append, List.cons_append]
  cases buf with
  | nil =>
    refine ⟨_, fun fuel hfuel => run_waitWhenBusy fuel ?_, rfl, ?_⟩
    · simp only [W25.execute, hbusy]
      exact Nat.zero_lt_of_lt hfuel
    · rw [programPage_nil]
      simp [W25.execute, hbusy]
  | cons b buf =>
    refine ⟨_, fun fuel hfuel => run_waitWhenBusy fuel ?_, rfl, ?_⟩
    · simpa [W25.execute, hbusy] using hfuel
    · rw [← addr24_bytes addr haddr]
      simp [W25.execute, hbusy]

theorem spiFlashRead_run (busyTime : ℕ) (hbusy : c.busy = 0) (addr : Word)
    (haddr : addr.toNat < 2 ^ 24) (len : ℕ) :
    ∃ c', (spiFlashRead addr len).run (w25Bus busyTime) c =
      ((List.range len).map fun i => c.mem (addr.toNat + i), c') ∧ c'.mem = c.mem := by
  simp only [spiFlashRead, Prog.run_bind, Prog.run_pure, run_lower, run_send, run_sendAddr,
    List.nil_append, List.cons_append]
  rw [run_recvBytes (by rfl) (by exact hbusy) (by rfl), addr24_bytes addr haddr,
    run_raise (by rfl)]
  refine ⟨_, rfl, ?_⟩
  simp [W25.execute, hbusy]

end Run

/-! ## The round trip -/

/-- `SPIFlashProgram(addr, buf, len)` and then `SPIFlashRead(addr, out, len)`. -/
def programThenRead (fuel : ℕ) (addr : Word) (buf : List Byte) :
    SpiProg (Option (List Byte)) := do
  match ← spiFlashProgram fuel addr buf with
  | none => return none
  | some () =>
    let out ← spiFlashRead addr buf.length
    return some out

/-- The bytes that are read and the chip afterwards. -/
def roundTrip (busyTime : ℕ) (c : W25) (addr : Word) (buf : List Byte) (fuel : ℕ) :
    Option (List Byte × W25) :=
  let r := (programThenRead fuel addr buf).run (w25Bus busyTime) c
  r.1.map fun out => (out, r.2)

theorem roundTrip_yields (busyTime : ℕ) {c : W25} (hbusy : c.busy = 0) (addr : Word)
    (haddr : addr.toNat < 2 ^ 24) (buf : List Byte) :
    ∃ c', Yields (roundTrip busyTime c addr buf)
        ((List.range buf.length).map fun i => c'.mem (addr.toNat + i), c') ∧
      c'.mem = programPage c.prot addr.toNat buf c.mem := by
  obtain ⟨c₁, hprogram, hbusy₁, hmem₁⟩ := spiFlashProgram_run busyTime hbusy addr haddr buf
  obtain ⟨c₂, hread, hmem₂⟩ := spiFlashRead_run busyTime hbusy₁ addr haddr buf.length
  refine ⟨c₂, ⟨busyTime + 1, fun fuel hfuel => ?_⟩, by rw [hmem₂, hmem₁]⟩
  rw [roundTrip, programThenRead, Prog.run_bind, hprogram fuel hfuel]
  simp only [Prog.run_bind, Prog.run_pure, hread, hmem₂]
  rfl

section Page

variable {prot : ℕ → Bool} {mem : ℕ → Byte} {addr : ℕ} {buf : List Byte}

/-- Within the page, a byte of the range holds its byte of `buf` or a later one that was
    sent to the same place. -/
theorem programPage_inside {k : ℕ} (hk : k < buf.length) (hpage : addr % 256 + k < 256)
    (herased : mem (addr + k) = 0xff) (hprot : prot (addr + k) = false) :
    ∃ j, (j = k ∨ k + 256 ≤ j) ∧ buf.length ≤ j + 256 ∧
      buf[j]? = some (programPage prot addr buf mem (addr + k)) := by
  have hdiv : (addr + k) / 256 = addr / 256 := by omega
  have hval : programPage prot addr buf mem (addr + k) =
      pageLatch (addr % 256) buf (fun _ => 0xff) ((addr + k) % 256) := by
    rw [programPage, if_pos ⟨hdiv, hprot⟩, herased]
    exact BitVec.allOnes_and
  rw [hval]
  rcases pageLatch_cases buf (fun _ => 0xff) (Nat.mod_lt addr (by norm_num)) with
    ⟨j, hj, hlast, hbyte⟩ | ⟨hnone, -⟩
  · exact ⟨j, by omega, hlast, hbyte⟩
  · exact absurd (by omega) (hnone k hk)

/-- Beyond the page nothing is programmed. -/
theorem programPage_beyond {k : ℕ} (hpage : 256 ≤ addr % 256 + k) :
    programPage prot addr buf mem (addr + k) = mem (addr + k) := by
  have hdiv : (addr + k) / 256 ≠ addr / 256 := by omega
  rw [programPage, if_neg fun h => hdiv h.1]

/-- A byte outside the range changes only by a byte of `buf` that has wrapped. -/
theorem programPage_outside (prot : ℕ → Bool) (mem : ℕ → Byte) {x : ℕ}
    (hx : x < addr ∨ addr + buf.length ≤ x) :
    programPage prot addr buf mem x = mem x ∨
      ∃ j < buf.length, ∃ b, 256 ≤ addr % 256 + j ∧ buf[j]? = some b ∧
        programPage prot addr buf mem x = mem x &&& b := by
  unfold programPage
  split
  · rename_i hpage
    rcases pageLatch_cases buf (fun _ => 0xff) (Nat.mod_lt addr (by norm_num)) with
      ⟨j, hj, -, hbyte⟩ | ⟨-, hkeep⟩
    · have hlt : j < buf.length := (List.getElem?_eq_some_iff.mp hbyte).1
      exact .inr ⟨j, hlt, _, by omega, hbyte, rfl⟩
    · left
      rw [hkeep]
      exact BitVec.and_allOnes
  · exact .inl rfl

/-- Programming an erased range leaves the bytes of `buf` there and changes nothing else
    iff the bytes that do not stay at their own place are all 0xff. -/
theorem programPage_iff (herased : ∀ k < buf.length, mem (addr + k) = 0xff)
    (hprot : ∀ k < buf.length, prot (addr + k) = false) :
    ((∀ k < buf.length, buf[k]? = some (programPage prot addr buf mem (addr + k))) ∧
      ∀ x, x < addr ∨ addr + buf.length ≤ x → programPage prot addr buf mem x = mem x) ↔
      ∀ k < buf.length, 256 ≤ addr % 256 + k ∨ k + 256 < buf.length → buf[k]? = some 0xff := by
  constructor
  · rintro ⟨hbuf, -⟩
    have hbeyond : ∀ k < buf.length, 256 ≤ addr % 256 + k → buf[k]? = some 0xff := by
      intro k hk hpage
      rw [hbuf k hk, programPage_beyond hpage, herased k hk]
    intro k hk hmoved
    by_cases hpage : addr % 256 + k < 256
    · obtain ⟨j, hj, hlast, hbyte⟩ := programPage_inside hk hpage (herased k hk) (hprot k hk)
      have hlt : j < buf.length := (List.getElem?_eq_some_iff.mp hbyte).1
      rw [hbuf k hk, ← hbyte]
      exact hbeyond j hlt (by omega)
    · exact hbeyond k hk (by omega)
  · intro hones
    refine ⟨fun k hk => ?_, fun x hx => ?_⟩
    · by_cases hpage : addr % 256 + k < 256
      · obtain ⟨j, hj, -, hbyte⟩ := programPage_inside hk hpage (herased k hk) (hprot k hk)
        have hlt : j < buf.length := (List.getElem?_eq_some_iff.mp hbyte).1
        rw [← hbyte]
        rcases hj with rfl | hj
        · rfl
        · rw [hones k hk (.inr (by omega)), hones j hlt (.inl (by omega))]
      · rw [programPage_beyond (by omega), herased k hk]
        exact hones k hk (.inl (by omega))
    · rcases programPage_outside prot mem hx with h | ⟨j, hj, b, hwrap, hbyte, h⟩
      · exact h
      · rw [hones j hj (.inl hwrap), Option.some_inj] at hbyte
        rw [h, ← hbyte]
        exact BitVec.and_allOnes

end Page

/-- Both calls return, what was written is read back, and no other byte has changed. -/
def RoundTrip (busyTime : ℕ) (c : W25) (addr : Word) (buf : List Byte) : Prop :=
  ∃ c', Yields (roundTrip busyTime c addr buf) (buf, c') ∧
    ∀ x, x < addr.toNat ∨ addr.toNat + buf.length ≤ x → c'.mem x = c.mem x

theorem map_range_eq_iff (buf : List Byte) (f : ℕ → Byte) :
    (List.range buf.length).map f = buf ↔ ∀ k < buf.length, buf[k]? = some (f k) := by
  constructor
  · intro h k hk
    rw [← h, List.getElem?_map, List.getElem?_range hk, Option.map_some]
  · intro h
    apply List.ext_getElem?
    intro k
    by_cases hk : k < buf.length
    · rw [h k hk, List.getElem?_map, List.getElem?_range hk, Option.map_some]
    · rw [List.getElem?_eq_none (by simpa using hk), List.getElem?_eq_none (by omega)]

/-- On erased and unprotected bytes `SPIFlashProgram` and `SPIFlashRead` round-trip iff
    every byte that lies beyond the first page, or that a later byte overwrites in the
    latch, is 0xff. -/
theorem program_read_iff (busyTime : ℕ) (c : W25) (hbusy : c.busy = 0) (addr : Word)
    (haddr : addr.toNat < 2 ^ 24) (buf : List Byte)
    (herased : ∀ k < buf.length, c.mem (addr.toNat + k) = 0xff)
    (hprot : ∀ k < buf.length, c.prot (addr.toNat + k) = false) :
    RoundTrip busyTime c addr buf ↔
      ∀ k < buf.length, 256 ≤ addr.toNat % 256 + k ∨ k + 256 < buf.length →
        buf[k]? = some 0xff := by
  obtain ⟨c', hrun, hmem⟩ := roundTrip_yields busyTime hbusy addr haddr buf
  rw [← programPage_iff herased hprot, ← hmem, ← map_range_eq_iff]
  constructor
  · rintro ⟨c'', hrun', hframe⟩
    obtain ⟨hout, rfl⟩ := Prod.mk.inj (hrun.unique hrun')
    exact ⟨hout, hframe⟩
  · rintro ⟨hout, hframe⟩
    rw [hout] at hrun
    exact ⟨c', hrun, hframe⟩

/-- An erased and unprotected chip that is not selected. -/
def erasedW25 : W25 := ⟨fun _ => 0xff, fun _ => false, false, 0, false, [], 0⟩

theorem program_read_within_page :
    erasedW25.busy = 0 ∧ RoundTrip 3 erasedW25 0x1f0 [0x11, 0x22] :=
  ⟨rfl, (program_read_iff 3 erasedW25 rfl 0x1f0 (by decide) [0x11, 0x22] (fun _ _ => rfl)
    (fun _ _ => rfl)).mpr (by decide)⟩

/-- The second of two bytes at the end of a page goes to the start of the page. -/
theorem program_read_across_pages :
    erasedW25.busy = 0 ∧ (0x1ff : Word).toNat < 2 ^ 24 ∧
      ¬ RoundTrip 3 erasedW25 0x1ff [0x11, 0x22] := by
  refine ⟨rfl, by decide, ?_⟩
  rintro ⟨c', hrun, -⟩
  obtain ⟨_, hrun', hmem⟩ :=
    roundTrip_yields 3 (rfl : erasedW25.busy = 0) 0x1ff (by decide) [0x11, 0x22]
  have hout := (Prod.mk.inj (hrun'.unique hrun)).1
  rw [hmem] at hout
  revert hout
  decide

end Jz2440.Spi
