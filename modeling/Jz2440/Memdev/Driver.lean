import Jz2440.Common.Bytes
import Jz2440.Common.Errno
import Jz2440.Common.Pool

/-!
# The `memdev_poll` character device

Model of `mem_read`, `mem_write` and `mem_poll` in
`hard_driver/friendlyArm/chapter4_wait/memdev_poll/driver/memdev_poll.c`.

There are `MEMDEV_NR_DEVS = 2` devices, each with its own buffer and its own
semaphore, and one global flag `have_data`. Calls run concurrently; each
statement that touches shared state is a step of its own. The environment
chooses whether an interruptible wait is interrupted and whether a copy to or
from user space faults.

* `down`, `down_interruptible`: possible only when the count is positive;
  `down_interruptible` may instead be interrupted.
* `wait_event_interruptible`: goes on when its condition holds or when it is
  interrupted; the code ignores its return value.
* `copy_to_user`, `copy_from_user`: succeed, or fault after `n < count` bytes;
  `copy_from_user` then fills the rest of its destination with zeros
  (linux-2.6.22.6/arch/arm/lib/copy_from_user.S:92-99).
* `downs` and `ups` count what a call has done to the semaphore, and `log`
  records the transfers in the order in which they set `have_data`. The code
  does not have these.

`mem_read` and `mem_write` have the same shape, and one definition serves both;
`printk`, `wake_up` and `poll_wait` change nothing in this state. `*ppos` is the
file position of the call, which the kernel passes by reference.

`callStep_move` says once what a step of a call can do.
-/

namespace Jz2440.Memdev

open Jz2440.Common

/-- `MEMDEV_SIZE` (memdev.h:14). -/
def memdevSize : ℕ := 4096

/-- A device number below `MEMDEV_NR_DEVS` (memdev.h:10), as `mem_open` accepts
    it. -/
abbrev Dev := Fin 2

/-- The three file operations. -/
inductive Op
  | memRead
  | memWrite
  | memPoll
  deriving DecidableEq

/-- `POLLIN | POLLRDNORM` and `POLLOUT | POLLWRNORM`. -/
def pollIn : ℤ := 0x41
def pollOut : ℤ := 0x104

/-- The statement that a call executes next. -/
inductive Pc
  -- `mem_read`, `mem_write`
  | entry | down | test | loopUp | loopNonblock | wait | copy | faultUp | setFlag | finalUp
  -- `mem_poll`
  | pollDown | pollIn | pollOut | pollUp
  | returned
  deriving DecidableEq

/-- The arguments of a call: the operation, the device of `filp`, `O_NONBLOCK`,
    `*ppos`, `size`, and the user buffer. -/
structure CallArgs where
  op : Op
  dev : Dev
  nonblock : Bool
  ppos : ℕ
  size : ℕ
  ubuf : ℕ → Byte

/-- A call: its arguments, `*ppos` and the user buffer as it leaves them, its
    local variables, and its counts of `down` and `up`. -/
structure Call where
  args : CallArgs
  ppos : ℕ
  ubuf : ℕ → Byte
  p : ℕ
  count : ℕ
  ret : ℤ
  pc : Pc
  downs : ℕ
  ups : ℕ

/-- A transfer that has set `have_data`: its operation, device, initial `*ppos`
    and result. -/
structure Transfer where
  op : Op
  dev : Dev
  ppos : ℕ
  ret : ℤ
  deriving DecidableEq

/-- What the calls share. -/
structure Shared where
  haveData : Bool
  sem : Dev → ℕ
  data : Dev → ℕ → Byte
  log : List Transfer

/-- After `memdev_init`: `init_MUTEX` sets both counts to 1. -/
def memInit : Pool Shared Call := ⟨⟨false, fun _ => 1, fun _ _ => 0, []⟩, []⟩

/-- A call at its entry; `p = *ppos` is an `unsigned long` and `count = size` an
    `unsigned int`. -/
def Call.start (a : CallArgs) : Call :=
  { args := a, ppos := a.ppos, ubuf := a.ubuf, p := a.ppos % 2 ^ 32, count := a.size % 2 ^ 32,
    ret := 0, pc := if a.op = .memPoll then .pollDown else .entry, downs := 0, ups := 0 }

/-- How the environment lets a statement end. -/
inductive Choice
  | go
  | intr
  | fault (n : ℕ)
  deriving DecidableEq

/-! ## Semaphore operations -/

/-- `down(&dev->sem)` by a call that then continues at `pc`. -/
def downSem (sh : Shared) (c : Call) (pc : Pc) : Option (Shared × Call) :=
  if 0 < sh.sem c.args.dev then
    some ({ sh with sem := Function.update sh.sem c.args.dev (sh.sem c.args.dev - 1) },
      { c with downs := c.downs + 1, pc := pc })
  else none

/-- `up(&dev->sem)` by a call that then continues at `pc`. -/
def upSem (sh : Shared) (c : Call) (pc : Pc) : Shared × Call :=
  ({ sh with sem := Function.update sh.sem c.args.dev (sh.sem c.args.dev + 1) },
    { c with ups := c.ups + 1, pc := pc })

/-- The entry of a call in the log. -/
def Call.transfer (c : Call) : Transfer := ⟨c.args.op, c.args.dev, c.args.ppos, c.ret⟩

/-- `return ret`. -/
def Call.finish (c : Call) (ret : ℤ) : Call := { c with ret := ret, pc := .returned }

/-! ## Statements -/

/-- The `while` condition that keeps a call out: `!have_data` in `mem_read`
    (memdev_poll.c:82), `have_data` in `mem_write` (memdev_poll.c:134). -/
def mustWait (op : Op) (haveData : Bool) : Bool :=
  match op with
  | .memRead => !haveData
  | _ => haveData

/-- `have_data` after a transfer: `false` in `mem_read` (memdev_poll.c:105),
    `true` in `mem_write` (memdev_poll.c:158). -/
def flagAfter (op : Op) : Bool :=
  match op with
  | .memRead => false
  | _ => true

/-- The copy of `count` bytes, with a fault after `n` if that is less:
    `copy_to_user` in `mem_read`, `copy_from_user` in `mem_write`. -/
def copyBytes (sh : Shared) (c : Call) (n : ℕ) : Shared × Call :=
  match c.args.op with
  | .memRead => (sh, { c with
      ubuf := fun k => if k < n then sh.data c.args.dev (c.p + k) else c.ubuf k })
  | _ => ({ sh with
      data := Function.update sh.data c.args.dev fun a =>
        if c.p ≤ a ∧ a < c.p + n then c.ubuf (a - c.p)
        else if c.p ≤ a ∧ a < c.p + c.count then 0
        else sh.data c.args.dev a }, c)

/-- One step of a call. -/
def callStep (sh : Shared) (c : Call) (choice : Choice) : Option (Shared × Call) :=
  match c.pc, choice with
  -- memdev_poll.c:74-77, 124-127
  | .entry, .go =>
    if memdevSize ≤ c.p then some (sh, c.finish 0)
    else some (sh, { c with
      count := if memdevSize - c.p < c.count then memdevSize - c.p else c.count, pc := .down })
  -- memdev_poll.c:79-80, 89-90 and 129-130, 142-143
  | .down, .go => downSem sh c .test
  | .down, .intr => some (sh, c.finish (-ERESTARTSYS))
  -- memdev_poll.c:82-91, 134-144
  | .test, .go =>
    some (sh, { c with pc := if mustWait c.args.op sh.haveData then .loopUp else .copy })
  | .loopUp, .go => some (upSem sh c .loopNonblock)
  | .loopNonblock, .go =>
    if c.args.nonblock then some (sh, c.finish (-EAGAIN)) else some (sh, { c with pc := .wait })
  | .wait, .go =>
    if mustWait c.args.op sh.haveData then none else some (sh, { c with pc := .down })
  | .wait, .intr => some (sh, { c with pc := .down })
  -- memdev_poll.c:94-103, 148-156
  | .copy, .go =>
    let r := copyBytes sh c c.count
    some (r.1, { r.2 with ppos := c.ppos + c.count, ret := c.count, pc := .setFlag })
  | .copy, .fault n =>
    if n < c.count then
      let r := copyBytes sh c n
      some (r.1, { r.2 with ret := -EFAULT, pc := .faultUp })
    else none
  | .faultUp, .go => some (upSem sh c .setFlag)
  -- memdev_poll.c:105-106, 158-159
  | .setFlag, .go =>
    some ({ sh with haveData := flagAfter c.args.op, log := sh.log ++ [c.transfer] },
      { c with pc := .finalUp })
  | .finalUp, .go => some (upSem sh c .returned)
  -- mem_poll (memdev_poll.c:196-221)
  | .pollDown, .go => downSem sh c .pollIn
  | .pollIn, .go =>
    some (sh, { c with ret := if sh.haveData then pollIn else 0, pc := .pollOut })
  | .pollOut, .go =>
    some (sh, { c with ret := if sh.haveData then c.ret else c.ret + pollOut, pc := .pollUp })
  | .pollUp, .go => some (upSem sh c .returned)
  | _, _ => none

/-- The driver: any number of calls. -/
def memStep : Pool Shared Call → PoolEvent CallArgs Choice → Option (Pool Shared Call) :=
  poolStep Call.start callStep

/-! ## What a step does -/

/-- Between a `down` and the `up` that belongs to it. -/
def Pc.inside : Pc → Bool
  | .test | .loopUp | .copy | .faultUp | .setFlag | .finalUp | .pollIn | .pollOut | .pollUp => true
  | _ => false

/-- Between the test of `have_data` and the update of `have_data`. -/
def Pc.critical : Pc → Bool
  | .copy | .faultUp | .setFlag => true
  | _ => false

/-- A statement of `mem_read` or `mem_write` after the check of `*ppos`. -/
def Pc.checked : Pc → Bool
  | .down | .test | .loopUp | .loopNonblock | .wait | .copy | .faultUp | .setFlag | .finalUp => true
  | _ => false

/-- A move from `pc` to `pc'` that does not touch `sem` or `have_data` and does
    not enter the part between test and update. -/
def Pc.quietTo (pc pc' : Pc) : Bool :=
  !pc.critical && !pc'.critical && pc.inside == pc'.inside && (pc.checked || !pc'.checked) &&
    pc' != .entry

theorem Pc.quietTo_iff {pc pc' : Pc} : pc.quietTo pc' = true ↔
    pc.critical = false ∧ pc'.critical = false ∧ pc'.inside = pc.inside ∧
      (pc'.checked = true → pc.checked = true) ∧ pc' ≠ .entry := by
  simp only [Pc.quietTo, Bool.and_eq_true, Bool.not_eq_true', beq_iff_eq, bne_iff_ne,
    Bool.or_eq_true, and_assoc]
  rw [eq_comm (a := pc.inside)]
  cases pc.checked <;> cases pc'.checked <;> simp

/-- The steps of a call, by what they do to the shared state. -/
inductive CallMove (sh : Shared) (c : Call) : Choice → Shared → Call → Prop
  /-- The check of `*ppos` passes. -/
  | check {count : ℕ} (hpc : c.pc = .entry) (hp : c.p < memdevSize) :
      CallMove sh c .go sh { c with count := count, pc := .down }
  /-- Any other step that leaves the shared state alone. -/
  | quiet {choice : Choice} {ret : ℤ} {pc : Pc} (hpc : c.pc.quietTo pc = true) :
      CallMove sh c choice sh { c with ret := ret, pc := pc }
  /-- `down` succeeds. -/
  | acquire {pc : Pc} (hsem : 0 < sh.sem c.args.dev)
      (hpc : (c.pc = .down ∧ pc = .test) ∨ (c.pc = .pollDown ∧ pc = .pollIn)) :
      CallMove sh c .go
        { sh with sem := Function.update sh.sem c.args.dev (sh.sem c.args.dev - 1) }
        { c with downs := c.downs + 1, pc := pc }
  /-- The `up` that belongs to a `down`. -/
  | release {pc : Pc} (hpc : (c.pc = .loopUp ∧ pc = .loopNonblock) ∨
        (c.pc = .finalUp ∧ pc = .returned) ∨ (c.pc = .pollUp ∧ pc = .returned)) :
      CallMove sh c .go (upSem sh c pc).1 (upSem sh c pc).2
  /-- `have_data` allows the transfer. -/
  | pass (hpc : c.pc = .test) (hflag : mustWait c.args.op sh.haveData = false) :
      CallMove sh c .go sh { c with pc := .copy }
  /-- The copy succeeds. -/
  | transfer {ubuf : ℕ → Byte} {data : Dev → ℕ → Byte} {ppos : ℕ} (hpc : c.pc = .copy) :
      CallMove sh c .go { sh with data := data }
        { c with ubuf := ubuf, ppos := ppos, ret := c.count, pc := .setFlag }
  /-- The copy faults. -/
  | fault {n : ℕ} {ubuf : ℕ → Byte} {data : Dev → ℕ → Byte} (hpc : c.pc = .copy) :
      CallMove sh c (.fault n) { sh with data := data }
        { c with ubuf := ubuf, ret := -EFAULT, pc := .faultUp }
  /-- The `up` of the fault branch, to which no `down` belongs. -/
  | faultUp (hpc : c.pc = .faultUp) :
      CallMove sh c .go (upSem sh c .setFlag).1 (upSem sh c .setFlag).2
  /-- `have_data` is updated. -/
  | setFlag (hpc : c.pc = .setFlag) :
      CallMove sh c .go
        { sh with haveData := flagAfter c.args.op, log := sh.log ++ [c.transfer] }
        { c with pc := .finalUp }

/-- Every step of a call is one of these. -/
theorem callStep_move {sh : Shared} {c : Call} {choice : Choice} {r : Shared × Call}
    (h : callStep sh c choice = some r) : CallMove sh c choice r.1 r.2 := by
  cases hpc : c.pc <;> cases choice <;> simp only [callStep, hpc, reduceCtorEq] at h
  case entry.go =>
    rcases Nat.lt_or_ge c.p memdevSize with hp | hp
    · rw [if_neg (by omega)] at h
      cases h
      exact .check hpc hp
    · rw [if_pos hp] at h
      cases h
      exact .quiet (by rw [hpc]; rfl)
  case down.go =>
    obtain ⟨hsem, h⟩ := Option.ite_none_right_eq_some.mp h
    cases h
    exact .acquire hsem (.inl ⟨hpc, rfl⟩)
  case pollDown.go =>
    obtain ⟨hsem, h⟩ := Option.ite_none_right_eq_some.mp h
    cases h
    exact .acquire hsem (.inr ⟨hpc, rfl⟩)
  case test.go =>
    cases hflag : mustWait c.args.op sh.haveData <;> rw [hflag] at h <;> cases h
    · exact .pass hpc hflag
    · exact .quiet (by rw [hpc]; rfl)
  case loopNonblock.go =>
    cases hnb : c.args.nonblock <;> rw [hnb] at h <;> cases h <;>
      exact .quiet (by rw [hpc]; rfl)
  case wait.go =>
    obtain ⟨-, h⟩ := Option.ite_none_left_eq_some.mp h
    cases h
    exact .quiet (by rw [hpc]; rfl)
  case copy.go =>
    cases hop : c.args.op <;> simp only [copyBytes, hop] at h <;> cases h <;>
      exact .transfer hpc
  case copy.fault n =>
    obtain ⟨-, h⟩ := Option.ite_none_right_eq_some.mp h
    cases hop : c.args.op <;> simp only [copyBytes, hop] at h <;> cases h <;> exact .fault hpc
  case loopUp.go => cases h; exact .release (.inl ⟨hpc, rfl⟩)
  case finalUp.go => cases h; exact .release (.inr (.inl ⟨hpc, rfl⟩))
  case pollUp.go => cases h; exact .release (.inr (.inr ⟨hpc, rfl⟩))
  case faultUp.go => cases h; exact .faultUp hpc
  case setFlag.go => cases h; exact .setFlag hpc
  all_goals
    cases h
    exact .quiet (by rw [hpc]; rfl)

end Jz2440.Memdev
