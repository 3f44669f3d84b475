import Jz2440.Common.Atomic
import Jz2440.Globalmem.Driver
import Mathlib.Data.List.TFAE

/-!
# `globalmem` with many processes and a semaphore

Model of `globalmem_ioctl`, `globalmem_read`, `globalmem_write` and `globalmem_llseek` in
`hard_driver/friendlyArm/chapter3_sem/globalmem_sem/driver/globalmem_sem.c`. Each process has a
file of its own with its own `f_pos`; `mem` and `sem` are shared. The scheduler may switch after
every byte that `copy_to_user`, `copy_from_user` or `memset` has moved, a copy may fault after any
number of bytes, and a signal may end the wait for the semaphore. After a fault `copy_from_user`
fills the rest of its destination with zeros before it returns
(linux-2.6.22.6/arch/arm/lib/copy_from_user.S:92-99). Processes that share one open file, and so
`f_pos`, are not modelled.

Without the two lines `down_interruptible` and `up` this is `globalmem.c`; `locked` says whether
they are there.

* `section_ends`: one call, run alone, does what the model of `globalmem.c` says of it, or as much
  of it as was copied before the fault, with zeros for the rest of a write.
* `Device.Inv`, `deviceStep_inv`: at most one process is inside, and the records are explained.
* `calls_atomic`: the calls of all processes are as if they had been made one after the other, in
  the order in which they have returned. Without the semaphore some runs fit no order at all.
-/

namespace Jz2440.Globalmem

open Jz2440.Common

/-! ## The code -/

/-- What a process asks for. -/
inductive Req
  | read (size : Word)
  | write (buf : ℕ → Byte) (size : Word)
  | llseek (offset : BitVec 64) (orig : Word)
  | ioctl (cmd : Word)

/-- What a call gives to its process: the value that it returns, the bytes that were copied, and
    `f_pos` afterwards. -/
structure Result where
  ret : ℤ
  data : List Byte
  fPos : BitVec 64

/-- A call on its way to `mem + p`, `k` of `count` bytes done. When `copy_from_user` has faulted,
    the rest of them is cleared. -/
structure Job where
  req : Req
  fPos : BitVec 64
  p : ℕ
  count : ℕ
  k : ℕ
  data : List Byte
  faulted : Bool

/-- The code in front of the semaphore: some calls are answered there. -/
def Req.front (r : Req) (s : Gmem) : Except Result Job :=
  match r with
  | .read size | .write _ size =>
    match window s.fPos size with
    | .error ret => .error ⟨ret, [], s.fPos⟩
    | .ok (p, count) => .ok ⟨r, s.fPos, p, count, 0, [], false⟩
  | .llseek offset orig =>
    let out := globalmemLlseek offset orig s
    .error ⟨out.ret, [], out.after.fPos⟩
  | .ioctl cmd =>
    if cmd = 1 then .ok ⟨r, s.fPos, 0, globalmemSize, 0, [], false⟩
    else .error ⟨-EINVAL, [], s.fPos⟩

/-- The next byte: what the process sees of it, and `mem`. -/
def Job.byte (j : Job) (m : Mem) : List Byte × Mem :=
  match j.req with
  | .read _ => ([m (j.p + j.k)], m)
  | .write buf _ =>
    if j.faulted then ([], Function.update m (j.p + j.k) 0)
    else ([buf j.k], Function.update m (j.p + j.k) (buf j.k))
  | _ => ([], Function.update m (j.p + j.k) 0)

/-- `memset` works on kernel memory alone, so it does not fault. -/
def Req.copies : Req → Bool
  | .read _ | .write _ _ => true
  | _ => false

/-- What is returned when all bytes are done. -/
def Job.result (j : Job) : Result :=
  match j.req with
  | .read _ | .write _ _ =>
    if j.faulted then ⟨-EFAULT, j.data, j.fPos⟩
    else ⟨j.count, j.data, j.fPos + BitVec.ofNat 64 j.count⟩
  | _ => ⟨0, j.data, j.fPos⟩

/-- What a fault does: `copy_to_user` returns at once. -/
def Job.fault (j : Job) : Pass Job Result :=
  match j.req with
  | .write _ _ => .again { j with faulted := true }
  | _ => .leave ⟨-EFAULT, j.data, j.fPos⟩

/-- What may happen next to the process inside. -/
inductive Next
  | byte
  | fault
  | finish

/-- The code between `down_interruptible` and `up`. -/
def criticalSection : Body Next Job Mem Result
  | .byte, j, m =>
    if j.k < j.count then
      some (.again { j with k := j.k + 1, data := j.data ++ (j.byte m).1 }, (j.byte m).2)
    else none
  | .fault, j, m =>
    if j.k < j.count ∧ j.req.copies = true ∧ j.faulted = false then some (j.fault, m) else none
  | .finish, j, m => if j.k = j.count then some (.leave j.result, m) else none

/-- Where a process is. -/
inductive Proc
  | user
  | waiting (j : Job)
  | inside (j : Job)

structure OpenFile where
  fPos : BitVec 64
  proc : Proc

/-- A call that has returned: whose it was, where its file stood, and what it gave. -/
structure Entry where
  file : ℕ
  req : Req
  fPos : BitVec 64
  result : Result

structure Device where
  mem : Mem
  sem : ℕ
  files : ℕ → OpenFile
  log : List Entry

/-- The call of file `i` returns. -/
def Device.return (d : Device) (i : ℕ) (req : Req) (result : Result) : Device :=
  { d with
    files := Function.update d.files i ⟨result.fPos, .user⟩
    log := d.log ++ [⟨i, req, (d.files i).fPos, result⟩] }

/-- The process of file `i` goes on to `proc`. -/
def Device.goto (d : Device) (i : ℕ) (proc : Proc) : Device :=
  { d with files := Function.update d.files i { d.files i with proc := proc } }

/-- A process calls, gets the semaphore, is hit by a signal while it waits, or does the next step
    inside. -/
inductive Act
  | enter (i : ℕ) (r : Req)
  | down (i : ℕ)
  | signal (i : ℕ)
  | move (i : ℕ) (c : Next)

def deviceStep (locked : Bool) (d : Device) : Act → Option Device
  | .enter i r =>
    match (d.files i).proc with
    | .user =>
      match r.front ⟨d.mem, (d.files i).fPos⟩ with
      | .error result => some (d.return i r result)
      | .ok j => some (d.goto i (.waiting j))
    | _ => none
  | .down i =>
    match (d.files i).proc with
    | .waiting j =>
      if locked then
        if 0 < d.sem then some { d.goto i (.inside j) with sem := d.sem - 1 } else none
      else some (d.goto i (.inside j))
    | _ => none
  | .signal i =>
    match (d.files i).proc with
    | .waiting j =>
      if locked then some (d.return i j.req ⟨-ERESTARTSYS, [], j.fPos⟩) else none
    | _ => none
  | .move i c =>
    match (d.files i).proc with
    | .inside j =>
      match criticalSection c j d.mem with
      | none => none
      | some (.again j', m) => some { d.goto i (.inside j') with mem := m }
      | some (.leave result, m) =>
        some { d.return i j.req result with mem := m, sem := if locked then d.sem + 1 else d.sem }
    | _ => none

/-- `globalmem_init`: zeroed memory, `init_MUTEX`; what lies behind the array is not ours. -/
def loaded (behind : Mem) : Device where
  mem := storeRange behind 0 globalmemSize fun _ => 0
  sem := 1
  files := fun _ => ⟨0, .user⟩
  log := []

/-! ## Calls made in one go -/

/-- The call, and the transfer of its first `n` bytes, as calls on the only open file. -/
def Req.call : Req → Call
  | .read size => .read size false
  | .write buf size => .write buf size false
  | .llseek offset orig => .llseek offset orig
  | .ioctl cmd => .ioctl cmd

def Req.cut (n : ℕ) : Req → Req
  | .read _ => .read (BitVec.ofNat 32 n)
  | .write buf _ => .write buf (BitVec.ofNat 32 n)
  | r => r

/-- How a call can end. -/
inductive Fate
  | done
  | faulted (n : ℕ)
  | interrupted

/-- A fault needs a transfer that is not complete, and a signal a call that has to wait. -/
def Fate.Possible (r : Req) (s : Gmem) : Fate → Prop
  | .done => True
  | .faulted n => r.copies = true ∧ ∃ w ∈ (r.call.perform s).access, n < w.2
  | .interrupted => (r.call.perform s).access.isSome = true

/-- `mem` after a fault: a write that has got to `n` bytes leaves zeros up to its end. -/
def Req.clearRest (r : Req) (s : Gmem) (n : ℕ) (m : Mem) : Mem :=
  match r, (r.call.perform s).access with
  | .write _ _, some (p, count) => storeRange m (p + n) (count - n) fun _ => 0
  | _, _ => m

/-- The call in one go, on the model of `globalmem.c`. A fault leaves the first `n` bytes
    transferred, but the process is told nothing of them. -/
def Req.atOnce (r : Req) (s : Gmem) : Fate → Result × Mem
  | .done =>
    let out := r.call.perform s
    (⟨out.ret, out.data, out.after.fPos⟩, out.after.mem)
  | .faulted n =>
    let out := (r.cut n).call.perform s
    (⟨-EFAULT, out.data, s.fPos⟩, r.clearRest s n out.after.mem)
  | .interrupted => (⟨-ERESTARTSYS, [], s.fPos⟩, s.mem)

/-- The call that is on record would have given its result on `m`, with `m'` afterwards. -/
def Explains (m : Mem) (e : Entry) (m' : Mem) : Prop :=
  ∃ fate : Fate, fate.Possible e.req ⟨m, e.fPos⟩ ∧
    e.req.atOnce ⟨m, e.fPos⟩ fate = (e.result, m')

/-- Where the calls of file `i` have left its position. -/
def lastPos (log : List Entry) (i : ℕ) : BitVec 64 :=
  ((log.filter fun e => e.file = i).getLast?.map fun e => e.result.fPos).getD 0

/-- No process is between `down_interruptible` and `up`. -/
def Device.Quiet (d : Device) : Prop := ∀ i j, (d.files i).proc ≠ .inside j

/-- The calls that have returned, in this order, explain each other from `m₀` on; every call found
    its file where the calls before had left it, and `mem` is as the last one has left it unless
    someone is at work. -/
def Device.InOrder (m₀ : Mem) (d : Device) : Prop :=
  EachTime (fun log e => e.fPos = lastPos log e.file) d.log ∧
    ∃ m, Serial Explains m₀ d.log m ∧ (d.Quiet → d.mem = m)

/-- The calls that have returned can be put in some order in which they explain each other. -/
def Device.InSomeOrder (m₀ : Mem) (d : Device) : Prop :=
  ∃ order m, order.Perm d.log ∧ Serial Explains m₀ order m

/-! ## One call, run alone -/

theorem front_congr (r : Req) (m m' : Mem) (fPos : BitVec 64) :
    r.front ⟨m, fPos⟩ = r.front ⟨m', fPos⟩ := by
  cases r with
  | read size => rfl
  | write buf size => rfl
  | llseek offset orig =>
    simp only [Req.front, globalmemLlseek]
    split_ifs <;> rfl
  | ioctl cmd => rfl

/-- What is answered in front of the semaphore does not depend on `mem`, and does not touch it. -/
theorem atOnce_of_front {r : Req} {m : Mem} {fPos : BitVec 64} {result : Result}
    (h : r.front ⟨m, fPos⟩ = .error result) (m' : Mem) :
    r.atOnce ⟨m', fPos⟩ .done = (result, m') := by
  rw [front_congr r m m'] at h
  cases r with
  | read size | write buf size =>
    simp only [Req.front] at h
    simp only [Req.atOnce, Req.call, Call.perform, globalmemRead, globalmemWrite, transfer]
    cases hw : window fPos size with
    | error ret =>
      rw [hw] at h
      cases h
      rfl
    | ok w =>
      rw [hw] at h
      cases h
  | llseek offset orig =>
    simp only [Req.front, Except.error.injEq] at h
    subst h
    simp only [Req.atOnce, Req.call, Call.perform, globalmemLlseek]
    split_ifs <;> rfl
  | ioctl cmd =>
    simp only [Req.front] at h
    split_ifs at h with hcmd
    cases h
    simp only [Req.atOnce, Req.call, Call.perform, globalmemIoctl, if_neg hcmd]

/-- The job is one that has just been given to its process. -/
def Job.Fresh (j : Job) : Prop := ∀ m, j.req.front ⟨m, j.fPos⟩ = .ok j

theorem fresh_of_front {r : Req} {m : Mem} {fPos : BitVec 64} {j : Job}
    (h : r.front ⟨m, fPos⟩ = .ok j) : j.Fresh ∧ j.req = r ∧ j.fPos = fPos := by
  have hj : j.req = r ∧ j.fPos = fPos := by
    cases r with
    | read size | write buf size =>
      simp only [Req.front] at h
      split at h
      · cases h
      · cases h
        exact ⟨rfl, rfl⟩
    | llseek offset orig => cases h
    | ioctl cmd =>
      simp only [Req.front] at h
      split_ifs at h
      cases h
      exact ⟨rfl, rfl⟩
  refine ⟨fun m' => ?_, hj⟩
  rw [hj.1, hj.2, front_congr r m' m]
  exact h

/-- What the first `k` bytes of a job give, and `mem` after them. -/
def Job.upTo (j : Job) (m : Mem) (k : ℕ) : List Byte × Mem :=
  match j.req with
  | .read _ => ((List.range k).map fun i => m (j.p + i), m)
  | .write buf _ => ((List.range k).map buf, storeRange m j.p k buf)
  | _ => ([], storeRange m j.p k fun _ => 0)

theorem upTo_zero (j : Job) (m : Mem) : j.upTo m 0 = ([], m) := by
  obtain ⟨req, _⟩ := j
  cases req <;> simp [Job.upTo, storeRange_zero]

theorem upTo_succ (j : Job) (m : Mem) (k : ℕ) (data : List Byte) :
    j.upTo m (k + 1) =
      ((j.upTo m k).1 ++ (Job.byte { j with k := k, data := data, faulted := false }
          (j.upTo m k).2).1,
        (Job.byte { j with k := k, data := data, faulted := false } (j.upTo m k).2).2) := by
  obtain ⟨req, _⟩ := j
  cases req <;> simp [Job.upTo, Job.byte, List.range_succ, storeRange_succ]

/-- How far a section has got: it has done the first `k` bytes, or a write has faulted after `n`
    bytes and has cleared the next ones up to `k`. -/
inductive Progress (j₀ : Job) (m₀ : Mem) : Job → Mem → Prop
  | copying {k : ℕ} (hk : k ≤ j₀.count) :
      Progress j₀ m₀ { j₀ with k := k, data := (j₀.upTo m₀ k).1 } (j₀.upTo m₀ k).2
  | clearing {buf : ℕ → Byte} {size : Word} {n k : ℕ} (hreq : j₀.req = .write buf size)
      (hn : n < j₀.count) (hnk : n ≤ k) (hk : k ≤ j₀.count) :
      Progress j₀ m₀ { j₀ with k := k, data := (j₀.upTo m₀ n).1, faulted := true }
        (storeRange (j₀.upTo m₀ n).2 (j₀.p + n) (k - n) fun _ => 0)

theorem Progress.byte {j₀ j j' : Job} {m₀ m m' : Mem} (hfaulted : j₀.faulted = false)
    (h : Progress j₀ m₀ j m) (hstep : criticalSection .byte j m = some (.again j', m')) :
    Progress j₀ m₀ j' m' := by
  simp only [criticalSection] at hstep
  split_ifs at hstep with hlt
  cases hstep
  cases h with
  | @copying k hk =>
    have hsucc := upTo_succ j₀ m₀ k (j₀.upTo m₀ k).1
    rw [← hfaulted] at hsucc
    have hprogress : Progress j₀ m₀ _ _ := .copying hlt
    rw [hsucc] at hprogress
    exact hprogress
  | @clearing buf size n k hreq hn hnk hk =>
    have hclear : Function.update (storeRange (j₀.upTo m₀ n).2 (j₀.p + n) (k - n) fun _ => 0)
        (j₀.p + n + (k - n)) 0 = storeRange (j₀.upTo m₀ n).2 (j₀.p + n) (k - n + 1) fun _ => 0 :=
      storeRange_succ ..
    rw [Nat.add_assoc, Nat.add_sub_cancel' hnk, ← Nat.sub_add_comm hnk] at hclear
    have hbyte : ∀ m, Job.byte { j₀ with k := k, data := (j₀.upTo m₀ n).1, faulted := true } m =
        ([], Function.update m (j₀.p + k) 0) := by
      intro m
      simp only [Job.byte, hreq, if_true]
    rw [hbyte, hclear, List.append_nil]
    exact .clearing hreq hn (Nat.le_succ_of_le hnk) hlt

theorem Progress.fault {j₀ j j' : Job} {m₀ m m' : Mem} (h : Progress j₀ m₀ j m)
    (hstep : criticalSection .fault j m = some (.again j', m')) : Progress j₀ m₀ j' m' := by
  simp only [criticalSection] at hstep
  split_ifs at hstep with hfault
  cases h with
  | clearing => exact Bool.noConfusion hfault.2.2
  | @copying k hk =>
    simp only [Job.fault] at hstep
    split at hstep
    next buf size hreq =>
      cases hstep
      have hprogress : Progress j₀ m₀ _ _ := .clearing hreq hfault.1 (le_refl k) hk
      rwa [Nat.sub_self, storeRange_zero] at hprogress
    next => cases hstep

/-- While the section goes on, it has made this progress. -/
theorem section_goes {j₀ j : Job} {m₀ m : Mem} (hk : j₀.k = 0) (hdata : j₀.data = [])
    (hfaulted : j₀.faulted = false) (h : criticalSection.Goes j₀ m₀ j m) :
    Progress j₀ m₀ j m := by
  refine h.invariant (Progress j₀ m₀) ?_ ?_
  · have hstart : Progress j₀ m₀ _ _ := .copying (Nat.zero_le j₀.count)
    rwa [upTo_zero, ← hk, ← hdata] at hstart
  · intro c j₁ m₁ j₂ m₂ hprogress hstep
    cases c with
    | byte => exact hprogress.byte hfaulted hstep
    | fault => exact hprogress.fault hstep
    | finish =>
      simp only [criticalSection] at hstep
      split_ifs at hstep
      cases hstep

theorem section_again_req {c : Next} {j j' : Job} {m m' : Mem}
    (h : criticalSection c j m = some (.again j', m')) : j'.req = j.req := by
  cases c with
  | byte =>
    simp only [criticalSection] at h
    split_ifs at h
    cases h
    rfl
  | fault =>
    simp only [criticalSection, Job.fault] at h
    split_ifs at h
    split at h
    · cases h
      rfl
    · cases h
  | finish =>
    simp only [criticalSection] at h
    split_ifs at h
    cases h

/-- A transfer of fewer bytes begins at the same place. -/
theorem window_cut {fPos : BitVec 64} {size : Word} {p count n : ℕ}
    (h : window fPos size = .ok (p, count)) (hn : n ≤ count) :
    window fPos (BitVec.ofNat 32 n) = .ok (p, n) := by
  simp only [window] at h ⊢
  split_ifs at h with hp hc <;> cases h
  all_goals
    rw [if_neg hp]
    have hsize : globalmemSize = 4096 := rfl
    have hlt := size.isLt
    rw [BitVec.toNat_ofNat, Nat.mod_eq_of_lt (by omega), if_neg (by omega)]

/-- The three kinds of jobs. -/
theorem Job.Fresh.cases {j : Job} (h : j.Fresh) :
    (∃ size, window j.fPos size = .ok (j.p, j.count) ∧
      (j = ⟨.read size, j.fPos, j.p, j.count, 0, [], false⟩ ∨
        ∃ buf, j = ⟨.write buf size, j.fPos, j.p, j.count, 0, [], false⟩)) ∨
      j = ⟨.ioctl 1, j.fPos, 0, globalmemSize, 0, [], false⟩ := by
  obtain ⟨req, fPos, p, count, k, data, faulted⟩ := j
  have hfront := h fun _ => 0
  cases req with
  | read size =>
    simp only [Req.front] at hfront
    split at hfront
    · cases hfront
    · cases hfront
      exact .inl ⟨size, by assumption, .inl rfl⟩
  | write buf size =>
    simp only [Req.front] at hfront
    split at hfront
    · cases hfront
    · cases hfront
      exact .inl ⟨size, by assumption, .inr ⟨buf, rfl⟩⟩
  | llseek offset orig => cases hfront
  | ioctl cmd =>
    simp only [Req.front] at hfront
    split_ifs at hfront with hcmd
    cases hfront
    rw [hcmd]
    exact .inr rfl

/-- A call that goes inside accesses the bytes of its job. -/
theorem Job.Fresh.access {j : Job} (h : j.Fresh) (m : Mem) :
    (j.req.call.perform ⟨m, j.fPos⟩).access = some (j.p, j.count) := by
  obtain ⟨size, hw, hj | ⟨buf, hj⟩⟩ | hj := h.cases
  all_goals
    obtain ⟨req, fPos, p, count, k, data, faulted⟩ := j
    cases hj
    simp_all [Req.call, Call.perform, globalmemRead, globalmemWrite, globalmemIoctl, transfer]

/-- All bytes of a job are the call in one go. -/
theorem atOnce_done {j : Job} (h : j.Fresh) (m : Mem) :
    j.req.atOnce ⟨m, j.fPos⟩ .done =
      (Job.result { j with k := j.count, data := (j.upTo m j.count).1 }, (j.upTo m j.count).2) := by
  obtain ⟨size, hw, hj | ⟨buf, hj⟩⟩ | hj := h.cases
  all_goals
    obtain ⟨req, fPos, p, count, k, data, faulted⟩ := j
    cases hj
    simp_all [Req.atOnce, Req.call, Call.perform, globalmemRead, globalmemWrite, globalmemIoctl,
      transfer, Job.result, Job.upTo]

/-- The first bytes of a read are a shorter read. -/
theorem atOnce_faulted_read {j : Job} (h : j.Fresh) {size : Word} (hreq : j.req = .read size)
    (m : Mem) {k : ℕ} (hk : k ≤ j.count) :
    j.req.atOnce ⟨m, j.fPos⟩ (.faulted k) =
      (⟨-EFAULT, (j.upTo m k).1, j.fPos⟩, (j.upTo m k).2) := by
  have hfront := h m
  obtain ⟨req, fPos, p, count, k, data, faulted⟩ := j
  obtain rfl : req = .read size := hreq
  simp only [Req.front] at hfront
  split at hfront
  next => cases hfront
  next p count hw =>
    cases hfront
    have hcut := window_cut hw hk
    simp only [Req.atOnce, Req.cut, Req.call, Call.perform, globalmemRead, transfer, hcut]
    rfl

/-- Those of a write are a shorter write, but the rest is cleared. -/
theorem atOnce_faulted_write {j : Job} (h : j.Fresh) {buf : ℕ → Byte} {size : Word}
    (hreq : j.req = .write buf size) (m : Mem) {n : ℕ} (hn : n ≤ j.count) :
    j.req.atOnce ⟨m, j.fPos⟩ (.faulted n) = (⟨-EFAULT, (j.upTo m n).1, j.fPos⟩,
      storeRange (j.upTo m n).2 (j.p + n) (j.count - n) fun _ => 0) := by
  have hfront := h m
  obtain ⟨req, fPos, p, count, k, data, faulted⟩ := j
  obtain rfl : req = .write buf size := hreq
  simp only [Req.front] at hfront
  split at hfront
  next => cases hfront
  next p count hw =>
    cases hfront
    have hcut := window_cut hw hn
    simp only [Req.atOnce, Req.clearRest, Req.cut, Req.call, Call.perform, globalmemWrite, transfer,
      hcut, hw]
    rfl

/-- A fault ends a read, and the call has given the bytes before it. -/
theorem Progress.ends_fault {j j' : Job} {m m₁ m' : Mem} {result : Result} (hj : j.Fresh)
    (h : Progress j m j' m₁) (hend : criticalSection .fault j' m₁ = some (.leave result, m')) :
    ∃ fate : Fate, fate.Possible j.req ⟨m, j.fPos⟩ ∧
      j.req.atOnce ⟨m, j.fPos⟩ fate = (result, m') := by
  simp only [criticalSection] at hend
  split_ifs at hend with hfault
  obtain ⟨hlt, hcopies, hfirst⟩ := hfault
  cases h with
  | clearing => exact Bool.noConfusion hfirst
  | @copying k hle =>
    cases hreq : j.req with
    | read size =>
      simp only [Job.fault, hreq] at hend
      cases hend
      rw [← hreq]
      exact ⟨.faulted k, ⟨hcopies, (j.p, j.count), hj.access m, hlt⟩,
        atOnce_faulted_read hj hreq m hle⟩
    | write buf size =>
      simp only [Job.fault, hreq] at hend
      cases hend
    | llseek offset orig | ioctl cmd =>
      simp only [hreq] at hcopies
      cases hcopies

/-- At its end a call has moved all its bytes, or a write has cleared what is behind a fault. -/
theorem Progress.ends_finish {j j' : Job} {m m₁ m' : Mem} {result : Result} (hj : j.Fresh)
    (h : Progress j m j' m₁) (hend : criticalSection .finish j' m₁ = some (.leave result, m')) :
    ∃ fate : Fate, fate.Possible j.req ⟨m, j.fPos⟩ ∧
      j.req.atOnce ⟨m, j.fPos⟩ fate = (result, m') := by
  simp only [criticalSection] at hend
  split_ifs at hend with hdone
  cases hend
  cases h with
  | @copying k hle =>
    obtain rfl : k = j.count := hdone
    exact ⟨.done, trivial, atOnce_done hj m⟩
  | @clearing buf size n k hreq hn hnk hle =>
    obtain rfl : k = j.count := hdone
    refine ⟨.faulted n, ⟨by rw [hreq]; rfl, (j.p, j.count), hj.access m, hn⟩, ?_⟩
    rw [atOnce_faulted_write hj hreq m hn.le]
    simp only [Job.result, hreq, if_true]

/-- A call that is run alone from `down_interruptible` to `up` is one made in one go. -/
theorem section_ends {j : Job} {m m' : Mem} {result : Result} (hj : j.Fresh)
    (h : criticalSection.Ends j m result m') :
    ∃ fate : Fate, fate.Possible j.req ⟨m, j.fPos⟩ ∧
      j.req.atOnce ⟨m, j.fPos⟩ fate = (result, m') := by
  obtain ⟨c, j', m₁, hgoes, hend⟩ := h
  obtain ⟨hk, hdata, hfaulted⟩ : j.k = 0 ∧ j.data = [] ∧ j.faulted = false := by
    obtain ⟨size, hw, hj | ⟨buf, hj⟩⟩ | hj := hj.cases <;> rw [hj] <;> exact ⟨rfl, rfl, rfl⟩
  have hprogress := section_goes hk hdata hfaulted hgoes
  cases c with
  | byte =>
    simp only [criticalSection] at hend
    split_ifs at hend
    cases hend
  | fault => exact hprogress.ends_fault hj hend
  | finish => exact hprogress.ends_finish hj hend

/-! ## All processes -/

theorem lastPos_append (log : List Entry) (e : Entry) (i : ℕ) :
    lastPos (log ++ [e]) i = if e.file = i then e.result.fPos else lastPos log i := by
  unfold lastPos
  rw [List.filter_append, List.filter_singleton]
  split_ifs with h
  · simp [h]
  · simp [h]

/-- The positions are where the records say, and who waits has a job for the position. -/
structure Device.Tracks (d : Device) : Prop where
  chain : EachTime (fun log e => e.fPos = lastPos log e.file) d.log
  pos : ∀ i, (d.files i).fPos = lastPos d.log i
  waits : ∀ i j, (d.files i).proc = .waiting j → j.Fresh ∧ j.fPos = (d.files i).fPos

theorem Device.Tracks.return {d : Device} (h : d.Tracks) (i : ℕ) (req : Req) (result : Result) :
    (d.return i req result).Tracks where
  chain := (eachTime_append _ _ _).mpr ⟨h.chain, h.pos i⟩
  pos := by
    intro i'
    simp only [Device.return]
    rw [lastPos_append]
    by_cases hi : i = i'
    · rw [if_pos hi, hi, Function.update_self]
    · rw [if_neg hi, Function.update_of_ne (Ne.symm hi), h.pos i']
  waits := by
    intro i' j hproc
    simp only [Device.return] at hproc ⊢
    by_cases hi : i' = i
    · rw [hi, Function.update_self] at hproc
      cases hproc
    · rw [Function.update_of_ne hi] at hproc ⊢
      exact h.waits i' j hproc

theorem Device.Tracks.goto {d : Device} (h : d.Tracks) (i : ℕ) {proc : Proc}
    (hproc : ∀ j, proc = .waiting j → j.Fresh ∧ j.fPos = (d.files i).fPos) :
    (d.goto i proc).Tracks where
  chain := h.chain
  pos := by
    intro i'
    simp only [Device.goto]
    by_cases hi : i' = i
    · rw [hi, Function.update_self]
      exact h.pos i
    · rw [Function.update_of_ne hi]
      exact h.pos i'
  waits := by
    intro i' j hj
    simp only [Device.goto] at hj ⊢
    by_cases hi : i' = i
    · rw [hi, Function.update_self] at hj ⊢
      exact hproc j hj
    · rw [Function.update_of_ne hi] at hj ⊢
      exact h.waits i' j hj

theorem Device.Tracks.goto_inside {d : Device} (h : d.Tracks) (i : ℕ) (j : Job) :
    (d.goto i (.inside j)).Tracks :=
  h.goto i fun _ hj => nomatch hj

/-- `inside` is who has the semaphore: the job with which it came and the one it has now. -/
def Device.Has (d : Device) : Option (ℕ × Job × Job) → Prop
  | none => d.sem = 1 ∧ d.Quiet
  | some (i, j₀, j) => d.sem = 0 ∧ (d.files i).proc = .inside j ∧
      (∀ i' j', (d.files i').proc = .inside j' → i' = i) ∧
      j₀.Fresh ∧ j₀.fPos = (d.files i).fPos ∧ j.req = j₀.req

/-- What a process outside does to its file does not matter. -/
theorem Device.Has.update {d d' : Device} {inside : Option (ℕ × Job × Job)} (h : d.Has inside)
    {i : ℕ} {f : OpenFile} (hi : ∀ j, (d.files i).proc ≠ .inside j) (hf : ∀ j, f.proc ≠ .inside j)
    (hfiles : d'.files = Function.update d.files i f) (hsem : d'.sem = d.sem) :
    d'.Has inside := by
  have hinside : ∀ i' j, (d'.files i').proc = .inside j → (d.files i').proc = .inside j := by
    intro i' j hj
    rw [hfiles] at hj
    by_cases hii : i' = i
    · rw [hii, Function.update_self] at hj
      exact absurd hj (hf j)
    · rwa [Function.update_of_ne hii] at hj
  match inside, h with
  | none, ⟨hone, hquiet⟩ =>
    exact ⟨hsem.trans hone, fun i' j hj => hquiet i' j (hinside i' j hj)⟩
  | some (k, j₀, j), ⟨hzero, hk, honly, hfresh, hpos, hreq⟩ =>
    have hne : k ≠ i := by
      rintro rfl
      exact hi j hk
    have hkeep : d'.files k = d.files k := by rw [hfiles, Function.update_of_ne hne]
    refine ⟨hsem.trans hzero, ?_, fun i' j' hj => honly i' j' (hinside i' j' hj), hfresh, ?_,
      hreq⟩
    · rw [hkeep, hk]
    · rw [hkeep, hpos]

/-- A process goes inside, or goes on there, and no other one is inside. -/
theorem Device.has_inside {d d' : Device} {i : ℕ} {j₀ j : Job}
    (honly : ∀ i' j', (d.files i').proc = .inside j' → i' = i) (hfresh : j₀.Fresh)
    (hpos : j₀.fPos = (d.files i).fPos) (hreq : j.req = j₀.req)
    (hfiles : d'.files = Function.update d.files i ⟨(d.files i).fPos, .inside j⟩)
    (hsem : d'.sem = 0) : d'.Has (some (i, j₀, j)) := by
  refine ⟨hsem, ?_, ?_, hfresh, ?_, hreq⟩
  · rw [hfiles, Function.update_self]
  · intro i' j' hj
    by_contra hne
    rw [hfiles, Function.update_of_ne hne] at hj
    exact hne (honly i' j' hj)
  · rw [hfiles, Function.update_self]
    exact hpos

/-- The one that was inside returns. -/
theorem Device.has_none {d d' : Device} {i : ℕ} {fPos : BitVec 64}
    (honly : ∀ i' j', (d.files i').proc = .inside j' → i' = i)
    (hfiles : d'.files = Function.update d.files i ⟨fPos, .user⟩) (hsem : d'.sem = 1) :
    d'.Has none := by
  refine ⟨hsem, fun i' j' hj => ?_⟩
  rw [hfiles] at hj
  by_cases hi : i' = i
  · rw [hi, Function.update_self] at hj
    cases hj
  · rw [Function.update_of_ne hi] at hj
    exact hi (honly i' j' hj)

/-- The invariant of the driver with the semaphore. -/
structure Device.Inv (m₀ : Mem) (d : Device) : Prop where
  tracks : d.Tracks
  exclusive : ∃ inside, Consistent criticalSection Explains m₀ ⟨d.mem, inside, d.log⟩ ∧
    d.Has inside

theorem loaded_inv (behind : Mem) : (loaded behind).Inv (loaded behind).mem where
  tracks :=
    { chain := eachTime_nil _
      pos := fun _ => rfl
      waits := fun _ _ h => nomatch h }
  exclusive := ⟨none, consistent_init _ _ _, rfl, fun _ _ h => nomatch h⟩

/-- A call that returns without having had the semaphore. -/
theorem Device.Inv.return {m₀ : Mem} {d : Device} (h : d.Inv m₀) {i : ℕ} {req : Req}
    {result : Result} (hi : ∀ j, (d.files i).proc ≠ .inside j)
    (hexplains : ∀ m, Explains m ⟨i, req, (d.files i).fPos, result⟩ m) :
    (d.return i req result).Inv m₀ := by
  obtain ⟨inside, hcons, hhas⟩ := h.exclusive
  exact ⟨h.tracks.return i req result, inside, hcons.record hexplains,
    hhas.update (f := ⟨result.fPos, .user⟩) hi (fun _ hj => nomatch hj) rfl rfl⟩

section Steps

variable {m₀ : Mem} {d d' : Device} {i : ℕ}

/-- A call is answered in front of the semaphore, or its process waits for it. -/
theorem Device.Inv.enter (h : d.Inv m₀) {r : Req}
    (hstep : deviceStep true d (.enter i r) = some d') : d'.Inv m₀ := by
  simp only [deviceStep] at hstep
  split at hstep
  case h_2 => cases hstep
  rename_i hproc
  have hi : ∀ j, (d.files i).proc ≠ .inside j := fun j hj => nomatch hproc.symm.trans hj
  split at hstep <;> cases hstep
  · rename_i result hfront
    exact h.return hi fun m => ⟨.done, trivial, atOnce_of_front hfront m⟩
  · rename_i j hfront
    obtain ⟨hfresh, -, hpos⟩ := fresh_of_front hfront
    obtain ⟨inside, hcons, hhas⟩ := h.exclusive
    refine ⟨h.tracks.goto i ?_, inside, hcons, hhas.update hi ?_ rfl rfl⟩
    · rintro _ ⟨⟩
      exact ⟨hfresh, hpos⟩
    · exact fun _ hj => nomatch hj

/-- The semaphore is free, so nobody is inside. -/
theorem Device.Inv.down (h : d.Inv m₀) (hstep : deviceStep true d (.down i) = some d') :
    d'.Inv m₀ := by
  simp only [deviceStep] at hstep
  split at hstep
  case h_2 => cases hstep
  rename_i j hproc
  obtain ⟨hfresh, hpos⟩ := h.tracks.waits i j hproc
  rw [if_pos trivial] at hstep
  split_ifs at hstep with hsem
  cases hstep
  obtain ⟨inside, hcons, hhas⟩ := h.exclusive
  match inside, hhas with
  | some _, ⟨hzero, _⟩ => omega
  | none, ⟨hone, hquiet⟩ =>
    have htracks := h.tracks.goto_inside i j
    refine ⟨⟨htracks.chain, htracks.pos, htracks.waits⟩, some (i, j, j), hcons.enter i j, ?_⟩
    refine has_inside (fun i' j' hj => absurd hj (hquiet i' j')) hfresh hpos rfl rfl ?_
    simp only [hone]

/-- A signal ends the wait, and the call has no effect. -/
theorem Device.Inv.signal (h : d.Inv m₀) (hstep : deviceStep true d (.signal i) = some d') :
    d'.Inv m₀ := by
  simp only [deviceStep] at hstep
  split at hstep
  case h_2 => cases hstep
  rename_i j hproc
  obtain ⟨hfresh, hpos⟩ := h.tracks.waits i j hproc
  rw [if_pos trivial] at hstep
  cases hstep
  refine h.return (fun j' hj => nomatch hproc.symm.trans hj) fun m => ⟨.interrupted, ?_, ?_⟩
  · rw [Fate.Possible, ← hpos, hfresh.access m]
    rfl
  · rw [hpos]
    rfl

/-- Who makes a step inside is the one who has the semaphore. -/
theorem Device.Inv.move (h : d.Inv m₀) {c : Next}
    (hstep : deviceStep true d (.move i c) = some d') : d'.Inv m₀ := by
  simp only [deviceStep] at hstep
  split at hstep
  case h_2 => cases hstep
  rename_i j hproc
  obtain ⟨inside, hcons, hhas⟩ := h.exclusive
  match inside, hhas with
  | none, ⟨_, hquiet⟩ => exact absurd hproc (hquiet i j)
  | some (i₀, j₀, j₁), ⟨hzero, hj₁, honly, hfresh, hpos, hreq⟩ =>
    obtain rfl := honly i j hproc
    obtain rfl : j = j₁ := by
      rw [hj₁] at hproc
      exact (Proc.inside.inj hproc).symm
    split at hstep <;> cases hstep
    · rename_i j' m hb
      have htracks := h.tracks.goto_inside i j'
      refine ⟨⟨htracks.chain, htracks.pos, htracks.waits⟩, some (i, j₀, j'), hcons.again hb, ?_⟩
      exact has_inside honly hfresh hpos ((section_again_req hb).trans hreq) rfl hzero
    · rename_i result m hb
      have htracks := h.tracks.return i j.req result
      refine ⟨⟨htracks.chain, htracks.pos, htracks.waits⟩, none, hcons.leave hb ?_, ?_⟩
      · intro s hends
        rw [Explains, hreq, ← hpos]
        exact section_ends hfresh hends
      · exact has_none honly rfl (by simp only [hzero, if_pos trivial])

theorem deviceStep_inv {a : Act} (h : d.Inv m₀) (hstep : deviceStep true d a = some d') :
    d'.Inv m₀ := by
  cases a with
  | enter i r => exact h.enter hstep
  | down i => exact h.down hstep
  | signal i => exact h.signal hstep
  | move i c => exact h.move hstep

end Steps

theorem Device.Inv.inOrder {m₀ : Mem} {d : Device} (h : d.Inv m₀) : d.InOrder m₀ := by
  obtain ⟨inside, ⟨m, hserial, hinside⟩, hhas⟩ := h.exclusive
  refine ⟨h.tracks.chain, m, hserial, fun hquiet => ?_⟩
  match inside, hhas with
  | none, _ => exact hinside
  | some (i, j₀, j), ⟨_, hproc, _⟩ => exact absurd hproc (hquiet i j)

/-! ## Without the semaphore -/

/-- One process writes two bytes, another one reads them between the first and the second. -/
def tornRead : List Act :=
  [.enter 0 (.write (fun _ => 1) 2), .enter 1 (.read 2), .down 0, .down 1, .move 0 .byte,
    .move 1 .byte, .move 1 .byte, .move 1 .finish, .move 0 .byte, .move 0 .finish]

/-- What is on record after it. -/
def tornLog : List Entry :=
  [⟨1, .read 2, 0, ⟨2, [1, 0], 2⟩⟩, ⟨0, .write (fun _ => 1) 2, 0, ⟨2, [1, 1], 2⟩⟩]

theorem exec_tornRead (behind : Mem) :
    ∃ d, exec (deviceStep false) (loaded behind) tornRead = some d ∧ d.log = tornLog :=
  ⟨_, rfl, rfl⟩

/-- A call that returns two was not cut short. -/
theorem done_of_explains {m m' : Mem} {e : Entry} (h : Explains m e m') (hret : e.result.ret = 2) :
    e.req.atOnce ⟨m, e.fPos⟩ .done = (e.result, m') := by
  obtain ⟨fate, -, hfate⟩ := h
  cases fate with
  | done => exact hfate
  | faulted n =>
    have hlost : -EFAULT = e.result.ret := congrArg (fun r => r.1.ret) hfate
    exact absurd (hlost.trans hret) (by decide)
  | interrupted =>
    have hlost : -ERESTARTSYS = e.result.ret := congrArg (fun r => r.1.ret) hfate
    exact absurd (hlost.trans hret) (by decide)

/-- Whatever the order, the two bytes are the same whenever a call begins: both were zero, and both
    are written together. The reader has seen something else. -/
theorem tornLog_not_serial (behind : Mem) {order : List Entry} (horder : order.Perm tornLog)
    (m : Mem) : ¬ Serial Explains (loaded behind).mem order m := by
  intro h
  have hmem : ∀ e, e ∈ order ↔ e ∈ tornLog := fun e => horder.mem_iff
  have hkeep : ∀ e ∈ order, ∀ t t' : Mem, t 0 = t 1 → Explains t e t' → t' 0 = t' 1 := by
    intro e he t t' ht hexplains
    rw [hmem, tornLog, List.mem_pair] at he
    obtain rfl | rfl := he
    · have hdone : t = t' := congrArg (fun r => r.2) (done_of_explains hexplains rfl)
      rw [← hdone, ht]
    · have hdone : storeRange t 0 2 (fun _ => 1) = t' :=
        congrArg (fun r => r.2) (done_of_explains hexplains rfl)
      rw [← hdone]
      rfl
  obtain ⟨-, hlog⟩ := h.invariant (fun m => m 0 = m 1) rfl hkeep
  obtain ⟨t, t', ht, hread⟩ := hlog _ ((hmem _).mpr List.mem_cons_self)
  have hdata : [t 0, t 1] = [1, 0] :=
    congrArg (fun r => r.1.data) (done_of_explains hread rfl)
  rw [ht] at hdata
  obtain ⟨h1, h0⟩ : t 1 = 1 ∧ t 1 = 0 := by simpa using hdata
  exact absurd (h1.symm.trans h0) (by decide)

end Jz2440.Globalmem
