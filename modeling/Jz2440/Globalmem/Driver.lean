import Jz2440.Common.Errno
import Jz2440.Common.History
import Jz2440.Common.Memory
import Jz2440.Common.Runs

/-!
# The `globalmem` character device

Model of `globalmem_ioctl`, `globalmem_read`, `globalmem_write` and
`globalmem_llseek` in `hard_driver/friendlyArm/globalmem/driver/globalmem.c`, called
one after the other on one open file.

`f_pos` and `offset` are 64 bits wide and signed, `size`, `p` and `count` are 32
bits wide and unsigned; the conversions between them are those of the code. A copy to or
from user space succeeds, or faults without copying. `mem` is a function on all
offsets, so that an access outside of the array shows.

* `window_eq`: while the position is in range, a transfer is clipped at the end of the
  array, and the conversions lose nothing.
* `globalmem_seekable`: in every sequence of calls the position stays in range, no access
  leaves the array, and every call acts on the array as a seekable file does.
* `globalmemLlseek_exact_iff`: for which offsets a seek is exact over all 64 bits.
-/

namespace Jz2440.Globalmem

open Jz2440.Common

/-- `GLOBALMEM_SIZE`. -/
def globalmemSize : ℕ := 0x1000

/-! ## The code -/

/-- `dev->mem` and `filp->f_pos`. -/
structure Gmem where
  mem : Mem
  fPos : BitVec 64

/-- What a call returns, the bytes that it has copied, the part of `mem` that it has
    accessed (start and length), and the device after it. -/
structure Outcome where
  ret : ℤ
  data : List Byte
  access : Option (ℕ × ℕ)
  after : Gmem

/-- `p` and the clipped `count` of a transfer, or the value that is returned without one
    (globalmem.c:72-81, 100-109). -/
def window (fPos : BitVec 64) (size : Word) : Except ℤ (ℕ × ℕ) :=
  let p := (fPos.setWidth 32).toNat
  let count := size.toNat
  if p ≥ globalmemSize then .error (if count ≠ 0 then - ENXIO else 0)
  else .ok (p, if count > globalmemSize - p then globalmemSize - p else count)

/-- What `globalmem_read` and `globalmem_write` have in common. `copy p count` gives the
    bytes that are copied and `mem` after the copy. -/
def transfer (size : Word) (fault : Bool) (s : Gmem) (copy : ℕ → ℕ → List Byte × Mem) : Outcome :=
  match window s.fPos size with
  | .error ret => ⟨ret, [], none, s⟩
  | .ok (p, count) =>
    if fault then ⟨-EFAULT, [], some (p, count), s⟩
    else ⟨count, (copy p count).1, some (p, count),
      ⟨(copy p count).2, s.fPos + BitVec.ofNat 64 count⟩⟩

/-- `globalmem_read` (globalmem.c:69-94). -/
def globalmemRead (size : Word) (fault : Bool) (s : Gmem) : Outcome :=
  transfer size fault s fun p count => ((List.range count).map fun k => s.mem (p + k), s.mem)

/-- `globalmem_write` (globalmem.c:97-122). -/
def globalmemWrite (buf : ℕ → Byte) (size : Word) (fault : Bool) (s : Gmem) : Outcome :=
  transfer size fault s fun p count => ((List.range count).map buf, storeRange s.mem p count buf)

/-- `globalmem_llseek` (globalmem.c:125-158). -/
def globalmemLlseek (offset : BitVec 64) (orig : Word) (s : Gmem) : Outcome :=
  if orig = 0 then
    if offset.toInt < 0 then ⟨-EINVAL, [], none, s⟩
    else if (offset.setWidth 32).toNat > globalmemSize then ⟨-EINVAL, [], none, s⟩
    else
      let fPos := (offset.setWidth 32).setWidth 64
      ⟨fPos.toInt, [], none, { s with fPos := fPos }⟩
  else if orig = 1 then
    if (s.fPos + offset).toInt > globalmemSize then ⟨-EINVAL, [], none, s⟩
    else if (s.fPos + offset).toInt < 0 then ⟨-EINVAL, [], none, s⟩
    else
      let fPos := s.fPos + offset
      ⟨fPos.toInt, [], none, { s with fPos := fPos }⟩
  else ⟨-EINVAL, [], none, s⟩

/-- `globalmem_ioctl` (globalmem.c:51-66); `MEM_CLEAR` is 1. -/
def globalmemIoctl (cmd : Word) (s : Gmem) : Outcome :=
  if cmd = 1 then
    ⟨0, [], some (0, globalmemSize), { s with mem := storeRange s.mem 0 globalmemSize fun _ => 0 }⟩
  else ⟨-EINVAL, [], none, s⟩

/-! ## Sequences of calls -/

/-- The calls on the open file. -/
inductive Call
  | read (size : Word) (fault : Bool)
  | write (buf : ℕ → Byte) (size : Word) (fault : Bool)
  | llseek (offset : BitVec 64) (orig : Word)
  | ioctl (cmd : Word)

def Call.perform : Call → Gmem → Outcome
  | .read size fault => globalmemRead size fault
  | .write buf size fault => globalmemWrite buf size fault
  | .llseek offset orig => globalmemLlseek offset orig
  | .ioctl cmd => globalmemIoctl cmd

/-- A call that has returned. -/
structure Done where
  call : Call
  before : Gmem
  out : Outcome

/-- The device and the calls so far. -/
structure File where
  dev : Gmem
  log : List Done

def fileStep (s : File) (c : Call) : Option File :=
  let out := c.perform s.dev
  some ⟨out.after, s.log ++ [⟨c, s.dev, out⟩]⟩

/-- Zeroed memory and position 0; what lies behind the array is not ours. -/
def openFile (behind : Mem) : File := ⟨⟨storeRange behind 0 globalmemSize fun _ => 0, 0⟩, []⟩

/-! ## The seekable array -/

/-- The position as a number. -/
def Gmem.pos (s : Gmem) : ℕ := s.fPos.toNat

/-- The value that a call has given to byte `i` of the array. -/
def Done.stores (i : ℕ) (d : Done) : Option Byte :=
  match d.call with
  | .write _ _ _ => if d.before.pos ≤ i then d.out.data[i - d.before.pos]? else none
  | .ioctl cmd => if cmd = 1 then some 0 else none
  | _ => none

/-- The value of byte `i` that was written or cleared last. -/
def lastValue (log : List Done) (i : ℕ) : Byte :=
  ((log.filterMap (Done.stores i)).getLast?).getD 0

/-- The number of bytes from the position on that a transfer can have. -/
def Done.room (d : Done) (size : Word) : ℕ := min size.toNat (globalmemSize - d.before.pos)

/-- A transfer at the end of the array, or one that faults, has no effect; otherwise the
    position is advanced by the number of bytes that it returns. -/
structure Transfers (d : Done) (size : Word) (fault : Bool) : Prop where
  atEnd : d.before.pos = globalmemSize →
    d.out.ret = (if size ≠ 0 then - ENXIO else 0) ∧ d.out.data = [] ∧ d.out.after = d.before
  faulted : d.before.pos < globalmemSize → fault = true →
    d.out.ret = -EFAULT ∧ d.out.data = [] ∧ d.out.after = d.before
  copied : d.before.pos < globalmemSize → fault = false →
    d.out.ret = d.room size ∧ d.out.data.length = d.room size ∧
      d.out.after.pos = d.before.pos + d.room size

/-- What a call does to the array, given the calls before it. -/
def Correct (log : List Done) (d : Done) : Prop :=
  match d.call with
  | .read size fault => Transfers d size fault ∧ d.out.after.mem = d.before.mem ∧
      ∀ k (hk : k < d.out.data.length), d.out.data[k] = lastValue log (d.before.pos + k)
  | .write buf size fault => Transfers d size fault ∧
      d.out.data = (List.range d.out.data.length).map buf ∧
      d.out.after.mem = storeRange d.before.mem d.before.pos d.out.data.length buf
  | .llseek _ _ => d.out.after.mem = d.before.mem ∧
      (d.out.ret = d.out.after.pos ∨ d.out.ret = -EINVAL ∧ d.out.after = d.before)
  | .ioctl cmd => d.out.after.fPos = d.before.fPos ∧
      d.out.after.mem = if cmd = 1 then storeRange d.before.mem 0 globalmemSize fun _ => 0
        else d.before.mem

/-- The call has accessed nothing outside of the array. -/
def Inside (d : Done) : Prop := ∀ a ∈ d.out.access, a.1 + a.2 ≤ globalmemSize

/-! ## Positions in range -/

section Position

variable {s : Gmem}

theorem toInt_fPos (h : s.pos ≤ globalmemSize) : s.fPos.toInt = s.pos := by
  have hsize : globalmemSize = 4096 := rfl
  rw [BitVec.toInt_eq_toNat_of_lt]
  · rfl
  · show 2 * s.pos < 2 ^ 64
    omega

/-- A transfer is clipped at the end of the array. -/
theorem window_eq (h : s.pos ≤ globalmemSize) (size : Word) :
    window s.fPos size =
      if s.pos = globalmemSize then .error (if size ≠ 0 then - ENXIO else 0)
      else .ok (s.pos, min size.toNat (globalmemSize - s.pos)) := by
  have hsize : globalmemSize = 4096 := rfl
  have hp : (s.fPos.setWidth 32).toNat = s.pos := by
    rw [BitVec.toNat_setWidth]
    exact Nat.mod_eq_of_lt (show s.pos < 2 ^ 32 by omega)
  have hne : size.toNat ≠ 0 ↔ size ≠ 0 :=
    not_congr ⟨fun h => BitVec.eq_of_toNat_eq h, fun h => by rw [h]; rfl⟩
  simp only [window, hp]
  by_cases hend : s.pos = globalmemSize
  · rw [if_pos (by omega), if_pos hend]
    simp only [hne]
  · rw [if_neg (by omega), if_neg hend]
    congr 2
    split_ifs
    · omega
    · omega

theorem pos_add (h : s.pos ≤ globalmemSize) {n : ℕ} (hn : n ≤ globalmemSize) (mem : Mem) :
    Gmem.pos ⟨mem, s.fPos + BitVec.ofNat 64 n⟩ = s.pos + n := by
  have hsize : globalmemSize = 4096 := rfl
  show (s.fPos + BitVec.ofNat 64 n).toNat = s.fPos.toNat + n
  have hpos : s.fPos.toNat ≤ globalmemSize := h
  rw [BitVec.toNat_add, BitVec.toNat_ofNat]
  omega

/-- A signed position in range, as a number. -/
theorem toNat_le_of_toInt {fPos : BitVec 64} (h : 0 ≤ fPos.toInt)
    (h' : fPos.toInt ≤ globalmemSize) : fPos.toNat ≤ globalmemSize := by
  rw [BitVec.toInt_eq_toNat_cond] at h h'
  split_ifs at h h' with hlt
  · exact_mod_cast h'
  · have := fPos.isLt
    omega

end Position

/-! ## One call -/

/-- The position is in range, and the array holds what was written or cleared last. -/
structure Holds (log : List Done) (s : Gmem) : Prop where
  inRange : s.pos ≤ globalmemSize
  content : ∀ i < globalmemSize, s.mem i = lastValue log i

/-- A call is correct, stays inside of the array and keeps the position in range. -/
structure Safe (log : List Done) (d : Done) : Prop where
  correct : Correct log d
  inside : Inside d
  inRange : d.out.after.pos ≤ globalmemSize

section Calls

variable {log : List Done} {s : Gmem}

/-- A transfer ends in one of three ways. -/
theorem transfer_cases (h : s.pos ≤ globalmemSize) (size : Word) (fault : Bool)
    (copy : ℕ → ℕ → List Byte × Mem) :
    (s.pos = globalmemSize ∧
      transfer size fault s copy = ⟨if size ≠ 0 then - ENXIO else 0, [], none, s⟩) ∨
    (∃ n, n = min size.toNat (globalmemSize - s.pos) ∧ s.pos < globalmemSize ∧ fault = true ∧
      transfer size fault s copy = ⟨-EFAULT, [], some (s.pos, n), s⟩) ∨
    ∃ n, n = min size.toNat (globalmemSize - s.pos) ∧ s.pos < globalmemSize ∧ fault = false ∧
      transfer size fault s copy = ⟨n, (copy s.pos n).1, some (s.pos, n),
        ⟨(copy s.pos n).2, s.fPos + BitVec.ofNat 64 n⟩⟩ := by
  unfold transfer
  rw [window_eq h]
  by_cases hend : s.pos = globalmemSize
  · rw [if_pos hend]
    exact .inl ⟨hend, rfl⟩
  · rw [if_neg hend]
    have hlt : s.pos < globalmemSize := lt_of_le_of_ne h hend
    cases fault with
    | true => exact .inr (.inl ⟨_, rfl, hlt, rfl, rfl⟩)
    | false => exact .inr (.inr ⟨_, rfl, hlt, rfl, rfl⟩)

theorem transfer_transfers (h : s.pos ≤ globalmemSize) (c : Call) (size : Word) (fault : Bool)
    (copy : ℕ → ℕ → List Byte × Mem) (hcopy : ∀ p n, (copy p n).1.length = n) :
    Transfers ⟨c, s, transfer size fault s copy⟩ size fault ∧
      Inside ⟨c, s, transfer size fault s copy⟩ ∧
      (transfer size fault s copy).after.pos ≤ globalmemSize := by
  rcases transfer_cases h size fault copy with
    ⟨hend, heq⟩ | ⟨n, hn, hlt, rfl, heq⟩ | ⟨n, hn, hlt, rfl, heq⟩
  · rw [heq]
    exact ⟨⟨fun _ => ⟨rfl, rfl, rfl⟩, fun hlt => absurd hend hlt.ne, fun hlt => absurd hend hlt.ne⟩,
      by simp [Inside], h⟩
  · rw [heq]
    refine ⟨⟨fun hend => absurd hend hlt.ne, fun _ _ => ⟨rfl, rfl, rfl⟩,
      fun _ hf => Bool.noConfusion hf⟩, ?_, h⟩
    rintro _ ⟨⟩
    show s.pos + n ≤ globalmemSize
    omega
  · have hpos : Gmem.pos ⟨(copy s.pos n).2, s.fPos + BitVec.ofNat 64 n⟩ = s.pos + n :=
      pos_add h (by omega) _
    rw [heq]
    refine ⟨⟨fun hend => absurd hend hlt.ne, fun _ hf => Bool.noConfusion hf,
      fun _ _ => ?_⟩, ?_, ?_⟩
    · rw [Done.room, ← hn]
      exact ⟨rfl, hcopy s.pos n, hpos⟩
    · rintro _ ⟨⟩
      show s.pos + n ≤ globalmemSize
      omega
    · show Gmem.pos _ ≤ _
      rw [hpos]
      omega

theorem globalmemRead_safe (h : Holds log s) (size : Word) (fault : Bool) :
    Safe log ⟨.read size fault, s, globalmemRead size fault s⟩ := by
  obtain ⟨htransfers, hinside, hrange⟩ := transfer_transfers h.inRange (.read size fault) size fault
    (fun p n => ((List.range n).map fun k => s.mem (p + k), s.mem)) (by simp)
  refine ⟨⟨htransfers, ?_⟩, hinside, hrange⟩
  rcases transfer_cases h.inRange size fault
      fun p n => ((List.range n).map fun k => s.mem (p + k), s.mem) with
    ⟨-, heq⟩ | ⟨n, -, -, -, heq⟩ | ⟨n, hn, hlt, -, heq⟩
  · rw [globalmemRead, heq]
    exact ⟨rfl, fun k hk => absurd hk (Nat.not_lt_zero k)⟩
  · rw [globalmemRead, heq]
    exact ⟨rfl, fun k hk => absurd hk (Nat.not_lt_zero k)⟩
  · rw [globalmemRead, heq]
    refine ⟨rfl, fun k hk => ?_⟩
    have hk' : k < n := by simpa using hk
    have hread := h.content (s.pos + k) (by omega)
    simpa using hread

theorem globalmemWrite_safe (h : Holds log s) (buf : ℕ → Byte) (size : Word) (fault : Bool) :
    Safe log ⟨.write buf size fault, s, globalmemWrite buf size fault s⟩ := by
  obtain ⟨htransfers, hinside, hrange⟩ :=
    transfer_transfers h.inRange (.write buf size fault) size fault
      (fun p n => ((List.range n).map buf, storeRange s.mem p n buf)) (by simp)
  refine ⟨⟨htransfers, ?_⟩, hinside, hrange⟩
  rcases transfer_cases h.inRange size fault
      fun p n => ((List.range n).map buf, storeRange s.mem p n buf) with
    ⟨-, heq⟩ | ⟨n, -, -, -, heq⟩ | ⟨n, -, -, -, heq⟩
  · rw [globalmemWrite, heq]
    exact ⟨rfl, (storeRange_zero s.mem s.pos buf).symm⟩
  · rw [globalmemWrite, heq]
    exact ⟨rfl, (storeRange_zero s.mem s.pos buf).symm⟩
  · rw [globalmemWrite, heq]
    constructor
    · simp
    · simp

theorem globalmemLlseek_safe (h : Holds log s) (offset : BitVec 64) (orig : Word) :
    Safe log ⟨.llseek offset orig, s, globalmemLlseek offset orig s⟩ := by
  have hrefused : Safe log ⟨.llseek offset orig, s, ⟨-EINVAL, [], none, s⟩⟩ :=
    ⟨⟨rfl, .inr ⟨rfl, rfl⟩⟩, by simp [Inside], h.inRange⟩
  have hmoved : ∀ fPos : BitVec 64, fPos.toNat ≤ globalmemSize →
      Safe log ⟨.llseek offset orig, s, ⟨fPos.toInt, [], none, { s with fPos := fPos }⟩⟩ := by
    intro fPos hpos
    exact ⟨⟨rfl, .inl (toInt_fPos (s := { s with fPos := fPos }) hpos)⟩, by simp [Inside], hpos⟩
  unfold globalmemLlseek
  split_ifs with horig hneg hbig horig hbig hneg
  · exact hrefused
  · exact hrefused
  · refine hmoved _ ?_
    rw [BitVec.toNat_setWidth_of_le (by decide)]
    omega
  · exact hrefused
  · exact hrefused
  · exact hmoved _ (toNat_le_of_toInt (by omega) (by omega))
  · exact hrefused

theorem globalmemIoctl_safe (h : Holds log s) (cmd : Word) :
    Safe log ⟨.ioctl cmd, s, globalmemIoctl cmd s⟩ := by
  unfold globalmemIoctl
  split_ifs with hclear
  · refine ⟨⟨rfl, ?_⟩, ?_, h.inRange⟩
    · rw [if_pos hclear]
    · rintro _ ⟨⟩
      exact le_rfl
  · refine ⟨⟨rfl, ?_⟩, by simp [Inside], h.inRange⟩
    rw [if_neg hclear]

theorem perform_safe (h : Holds log s) (c : Call) : Safe log ⟨c, s, c.perform s⟩ := by
  cases c with
  | read size fault => exact globalmemRead_safe h size fault
  | write buf size fault => exact globalmemWrite_safe h buf size fault
  | llseek offset orig => exact globalmemLlseek_safe h offset orig
  | ioctl cmd => exact globalmemIoctl_safe h cmd

end Calls

/-! ## Whole sequences -/

theorem lastValue_append (log : List Done) (d : Done) (i : ℕ) :
    lastValue (log ++ [d]) i = (d.stores i).getD (lastValue log i) := by
  unfold lastValue
  rw [List.filterMap_append]
  cases hd : d.stores i with
  | none => simp [hd]
  | some b => simp [hd]

/-- The array after a correct call. -/
theorem Correct.content {log : List Done} {d : Done} (h : Correct log d) (i : ℕ)
    (hi : i < globalmemSize) : d.out.after.mem i = (d.stores i).getD (d.before.mem i) := by
  obtain ⟨c, s, out⟩ := d
  cases c with
  | read size fault => exact congrFun h.2.1 i
  | write buf size fault =>
    obtain ⟨-, hdata, hmem⟩ := h
    dsimp only at hdata hmem ⊢
    rw [hmem, storeRange, Done.stores]
    dsimp only
    by_cases hlow : s.pos ≤ i
    · rw [if_pos hlow]
      by_cases hhigh : i < s.pos + out.data.length
      · have hlt : i - s.pos < out.data.length := by omega
        have hget : out.data[i - s.pos]? = some (buf (i - s.pos)) := by
          rw [hdata]
          simp [hlt]
        rw [if_pos ⟨hlow, hhigh⟩, hget, Option.getD_some]
      · have hget : out.data[i - s.pos]? = none := List.getElem?_eq_none (by omega)
        rw [if_neg fun h => hhigh h.2, hget, Option.getD_none]
    · rw [if_neg fun h => hlow h.1, if_neg hlow, Option.getD_none]
  | llseek offset orig => exact congrFun h.1 i
  | ioctl cmd =>
    obtain ⟨-, hmem⟩ := h
    dsimp only at hmem ⊢
    rw [hmem, Done.stores]
    dsimp only
    split_ifs
    · rw [storeRange, if_pos ⟨Nat.zero_le i, by omega⟩]
      rfl
    · rfl

/-- The invariant of a sequence of calls. -/
structure FileInv (s : File) : Prop where
  holds : Holds s.log s.dev
  inside : ∀ d ∈ s.log, Inside d
  correct : EachTime Correct s.log

theorem FileInv.step {s s' : File} {c : Call} (h : FileInv s) (hstep : fileStep s c = some s') :
    FileInv s' := by
  cases hstep
  have hsafe := perform_safe h.holds c
  refine ⟨⟨hsafe.inRange, fun i hi => ?_⟩, ?_,
    (eachTime_append _ _ _).mpr ⟨h.correct, hsafe.correct⟩⟩
  · rw [lastValue_append, ← h.holds.content i hi]
    exact hsafe.correct.content i hi
  · exact List.forall_mem_append.mpr ⟨h.inside, List.forall_mem_singleton.mpr hsafe.inside⟩

theorem fileInv_openFile (behind : Mem) : FileInv (openFile behind) := by
  refine ⟨⟨Nat.zero_le _, fun i hi => ?_⟩, fun d hd => absurd hd List.not_mem_nil, eachTime_nil _⟩
  show storeRange behind 0 globalmemSize (fun _ => 0) i = 0
  rw [storeRange, if_pos ⟨Nat.zero_le i, by omega⟩]

theorem fileInv_of_reach {behind : Mem} {s : File}
    (h : Reach fileStep anyStep (openFile behind) s) : FileInv s :=
  h.invariant FileInv (fileInv_openFile behind) fun _ _ _ hinv _ hstep => hinv.step hstep

/-- In every sequence of calls on the open file the position stays in 0, …, 4096, no access
    leaves the array, and every call does what it does to a seekable array: a read returns
    the bytes that were written or cleared last. -/
theorem globalmem_seekable (behind : Mem) (s : File)
    (h : Reach fileStep anyStep (openFile behind) s) :
    0 ≤ s.dev.fPos.toInt ∧ s.dev.fPos.toInt ≤ globalmemSize ∧ (∀ d ∈ s.log, Inside d) ∧
      EachTime Correct s.log := by
  have hinv := fileInv_of_reach h
  have hpos := toInt_fPos hinv.holds.inRange
  have hrange := hinv.holds.inRange
  exact ⟨by omega, by omega, hinv.inside, hinv.correct⟩

/-- Three bytes are written, and ten are read from the second one on. -/
theorem globalmem_seekable_write_read :
    ∃ s, exec fileStep (openFile fun _ => 0xff)
        [.write (fun k => BitVec.ofNat 8 (k + 1)) 3 false, .llseek (-2) 1, .read 10 false] =
          some s ∧
      (s.log.map fun d => (d.out.ret, d.out.data.take 4)) =
        [(3, [1, 2, 3]), (1, []), (10, [2, 3, 0, 0])] ∧
      0 ≤ s.dev.fPos.toInt ∧ s.dev.fPos.toInt ≤ globalmemSize ∧ (∀ d ∈ s.log, Inside d) ∧
      EachTime Correct s.log := by
  have hrun : (exec fileStep (openFile fun _ => 0xff)
      [.write (fun k => BitVec.ofNat 8 (k + 1)) 3 false, .llseek (-2) 1, .read 10 false]).map
        (fun s => s.log.map fun d => (d.out.ret, d.out.data.take 4)) =
      some [(3, [1, 2, 3]), (1, []), (10, [2, 3, 0, 0])] := by decide +kernel
  obtain ⟨s, hs, hlog⟩ := Option.map_eq_some_iff.mp hrun
  exact ⟨s, hs, hlog, globalmem_seekable (fun _ => 0xff) s (.of_exec hs)⟩

/-! ## Where `globalmem_llseek` is exact -/

/-- What `offset` is relative to: the start of the file for whence 0, the position for whence 1. -/
def seekBase (s : Gmem) (orig : Word) : Option ℤ :=
  if orig = 0 then some 0 else if orig = 1 then some s.fPos.toInt else none

/-- The call asks for the position `target`, computed without wrap-around, and it is one of the
    file. -/
def SeeksTo (s : Gmem) (offset : BitVec 64) (orig : Word) (target : ℤ) : Prop :=
  (∃ base, seekBase s orig = some base ∧ target = base + offset.toInt) ∧
    0 ≤ target ∧ target ≤ globalmemSize

/-- The call sets the position asked for and returns it, or refuses and changes nothing; and it
    refuses only what is not a position of the file. -/
structure SeeksExactly (s : Gmem) (offset : BitVec 64) (orig : Word) (out : Outcome) : Prop where
  outcome : (∃ target, SeeksTo s offset orig target ∧ out.ret = target ∧
      out.after.fPos.toInt = target) ∨ (out.ret = -EINVAL ∧ out.after.fPos = s.fPos)
  succeeds : out.ret ≠ -EINVAL ↔ ∃ target, SeeksTo s offset orig target

/-- The offset does not fit into an `unsigned int`, but what is left of it does into the file. -/
def LosesHighBits (offset : BitVec 64) (orig : Word) : Prop :=
  orig = 0 ∧ 2 ^ 32 ≤ offset.toInt ∧ offset.toInt % 2 ^ 32 ≤ globalmemSize

section Exact

variable {s : Gmem} {offset : BitVec 64} {orig : Word}

theorem seeksExactly_refused (h : ∀ target, ¬ SeeksTo s offset orig target) :
    SeeksExactly s offset orig ⟨-EINVAL, [], none, s⟩ where
  outcome := .inr ⟨rfl, rfl⟩
  succeeds := ⟨fun hret => absurd rfl hret, fun ⟨target, htarget⟩ => absurd htarget (h target)⟩

theorem seeksExactly_moved {fPos : BitVec 64} (h : SeeksTo s offset orig fPos.toInt) :
    SeeksExactly s offset orig ⟨fPos.toInt, [], none, { s with fPos := fPos }⟩ where
  outcome := .inl ⟨fPos.toInt, h, rfl, rfl⟩
  succeeds := by
    have hnonneg := h.2.1
    refine ⟨fun _ => ⟨_, h⟩, fun _ hret => ?_⟩
    have hneg : fPos.toInt = -22 := hret
    omega

theorem seeksTo_zero {target : ℤ} : SeeksTo s offset 0 target ↔
    target = offset.toInt ∧ 0 ≤ target ∧ target ≤ globalmemSize := by
  simp [SeeksTo, seekBase]

theorem seeksTo_one {target : ℤ} : SeeksTo s offset 1 target ↔
    target = s.fPos.toInt + offset.toInt ∧ 0 ≤ target ∧ target ≤ globalmemSize := by
  simp [SeeksTo, seekBase]

/-- The cast to `unsigned int` of an offset that is not negative. -/
theorem toInt_setWidth (hoffset : 0 ≤ offset.toInt) :
    ((offset.setWidth 32).toNat : ℤ) = offset.toInt % 2 ^ 32 := by
  rw [BitVec.toNat_setWidth, Int.natCast_emod, BitVec.toInt_eq_toNat_of_lt]
  · rfl
  · have := BitVec.toInt_eq_toNat_cond offset
    have := offset.isLt
    omega

theorem toInt_setWidth_setWidth (offset : BitVec 64) :
    ((offset.setWidth 32).setWidth 64).toInt = (offset.setWidth 32).toNat := by
  have hlt := (offset.setWidth 32).isLt
  rw [BitVec.toInt_eq_toNat_of_lt, BitVec.toNat_setWidth_of_le (by decide)]
  rw [BitVec.toNat_setWidth_of_le (by decide)]
  omega

/-- From a position of the file, a sum that wraps round is negative. -/
theorem toInt_fPos_add (h : s.pos ≤ globalmemSize) (offset : BitVec 64) :
    (s.fPos + offset).toInt = s.fPos.toInt + offset.toInt ∨
      globalmemSize < s.fPos.toInt + offset.toInt ∧ (s.fPos + offset).toInt < 0 := by
  have hpos : s.fPos.toInt = s.pos := toInt_fPos h
  have hlow : -2 ^ 63 ≤ offset.toInt := BitVec.le_toInt offset
  have hhigh : offset.toInt < 2 ^ 63 := BitVec.toInt_lt
  rw [BitVec.toInt_add, Int.bmod_def]
  unfold globalmemSize at *
  split_ifs <;> omega

/-- Whence 0: the offset is compared and stored after a cast. -/
theorem llseek_set_iff : SeeksExactly s offset 0 (globalmemLlseek offset 0 s) ↔
    ¬ (2 ^ 32 ≤ offset.toInt ∧ offset.toInt % 2 ^ 32 ≤ globalmemSize) := by
  rw [globalmemLlseek, if_pos rfl]
  by_cases hneg : offset.toInt < 0
  · rw [if_pos hneg]
    refine ⟨fun _ => by omega, fun _ => seeksExactly_refused fun target htarget => ?_⟩
    have := seeksTo_zero.mp htarget
    omega
  · have hcast := toInt_setWidth (not_lt.mp hneg)
    rw [if_neg hneg]
    by_cases hbig : (offset.setWidth 32).toNat > globalmemSize
    · rw [if_pos hbig]
      refine ⟨fun _ => by omega, fun _ => seeksExactly_refused fun target htarget => ?_⟩
      have := seeksTo_zero.mp htarget
      unfold globalmemSize at *
      omega
    · rw [if_neg hbig]
      have hset := toInt_setWidth_setWidth offset
      constructor
      · -- a call that does not refuse returns the offset itself, which the cast has kept
        intro hexact hlost
        obtain ⟨target, htarget, hret, -⟩ | ⟨hret, -⟩ := hexact.outcome
        · have := seeksTo_zero.mp htarget
          unfold globalmemSize at *
          omega
        · have hret : ((offset.setWidth 32).setWidth 64).toInt = -22 := hret
          omega
      · intro hkept
        refine seeksExactly_moved (seeksTo_zero.mpr ?_)
        unfold globalmemSize at *
        omega

/-- Whence 1: the sum is compared and stored in full width. -/
theorem llseek_cur_exact (h : s.pos ≤ globalmemSize) :
    SeeksExactly s offset 1 (globalmemLlseek offset 1 s) := by
  have hsum := toInt_fPos_add h offset
  rw [globalmemLlseek, if_neg (by decide), if_pos rfl]
  by_cases hbig : (s.fPos + offset).toInt > globalmemSize
  · rw [if_pos hbig]
    refine seeksExactly_refused fun target htarget => ?_
    have := seeksTo_one.mp htarget
    omega
  · rw [if_neg hbig]
    by_cases hneg : (s.fPos + offset).toInt < 0
    · rw [if_pos hneg]
      refine seeksExactly_refused fun target htarget => ?_
      have := seeksTo_one.mp htarget
      omega
    · rw [if_neg hneg]
      refine seeksExactly_moved (seeksTo_one.mpr ?_)
      omega

theorem llseek_other_exact (hset : orig ≠ 0) (hcur : orig ≠ 1) :
    SeeksExactly s offset orig (globalmemLlseek offset orig s) := by
  rw [globalmemLlseek, if_neg hset, if_neg hcur]
  refine seeksExactly_refused ?_
  rintro target ⟨⟨base, hbase, -⟩, -⟩
  rw [seekBase, if_neg hset, if_neg hcur] at hbase
  cases hbase

end Exact

/-- In every reachable state of the file, `globalmem_llseek` is exact except for an offset from
    the start whose low 32 bits alone are a position of the file. -/
theorem globalmemLlseek_exact_iff (behind : Mem) (s : File)
    (h : Reach fileStep anyStep (openFile behind) s) (offset : BitVec 64) (orig : Word) :
    SeeksExactly s.dev offset orig (globalmemLlseek offset orig s.dev) ↔
      ¬ LosesHighBits offset orig := by
  unfold LosesHighBits
  by_cases hset : orig = 0
  · subst hset
    simp only [true_and, llseek_set_iff]
  · simp only [hset, false_and, not_false_eq_true, iff_true]
    by_cases hcur : orig = 1
    · subst hcur
      exact llseek_cur_exact (fileInv_of_reach h).holds.inRange
    · exact llseek_other_exact hset hcur

/-- After a seek to 4096, one byte back. -/
theorem globalmemLlseek_exact_back :
    ∃ s, exec fileStep (openFile fun _ => 0xff) [.llseek 4096 0] = some s ∧
      (globalmemLlseek (-1) 1 s.dev).ret = 4095 ∧
      (SeeksExactly s.dev (-1) 1 (globalmemLlseek (-1) 1 s.dev) ↔ ¬ LosesHighBits (-1) 1) := by
  obtain ⟨s, hs⟩ : ∃ s, exec fileStep (openFile fun _ => 0xff) [.llseek 4096 0] = some s :=
    ⟨_, rfl⟩
  have hiff := globalmemLlseek_exact_iff (fun _ => 0xff) s (.of_exec hs) (-1) 1
  refine ⟨s, hs, ?_, hiff⟩
  cases hs
  decide +kernel

/-- A seek to 4294967296 returns 0 and goes to the start of the file. -/
theorem not_globalmemLlseek_exact :
    ¬ ∀ s, Reach fileStep anyStep (openFile fun _ => 0xff) s → ∀ offset orig,
      SeeksExactly s.dev offset orig (globalmemLlseek offset orig s.dev) := by
  intro h
  have hexact := h _ .refl (BitVec.ofNat 64 (2 ^ 32)) 0
  exact absurd hexact fun hexact => llseek_set_iff.mp hexact (by decide)

end Jz2440.Globalmem
