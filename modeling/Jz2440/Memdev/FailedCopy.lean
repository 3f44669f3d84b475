import Jz2440.Memdev.Semaphore

/-!
# A copy that fails

The update of `have_data` (memdev_poll.c:105, 158) lies on the common exit of a copy that
succeeds and of one that faults, so that a call that returns `-EFAULT` updates the flag as
well: a failed read takes away the data, and a failed write announces data that is not there.

A call found the flag in its favour when it tested it, and sets it to the opposite. If no other
call runs since the test, then the flag is never the same as before the copy.

* `AfterCopy.step`: all that a call does from its copy on.
* `flag_flipped`: a call that runs alone from its test on flips the flag in any case.
* `not_keepsHandshake`: so a failed copy always changes the handshake.
-/

namespace Jz2440.Memdev

open Jz2440.Common

/-- Call `i` is at its copy in `P` and runs alone to its return in `P'`. -/
structure ReturnsAlone (P P' : Pool Shared Call) (i : ℕ) (c c' : Call) : Prop where
  before : P.procs[i]? = some c
  copying : c.pc = .copy
  alone : ∃ cs : List Choice, exec memStep P (cs.map (.move i)) = some P'
  after : P'.procs[i]? = some c'
  returned : c'.pc = .returned

/-- Call `i` tests `have_data` in `P` and runs alone from there on: it gets to its copy in `P₁`,
    and the copy fails. -/
structure FailsAlone (P P₁ P' : Pool Shared Call) (i : ℕ) (c c' : Call) : Prop where
  testing : (P.procs[i]?).map Call.pc = some .test
  tested : memStep P (.move i .go) = some P₁
  returns : ReturnsAlone P₁ P' i c c'
  failed : c'.ret = -EFAULT

/-- `have_data` and `*ppos` are as before the copy. -/
def KeepsHandshake (P P' : Pool Shared Call) (c c' : Call) : Prop :=
  P'.shared.haveData = P.shared.haveData ∧ c'.ppos = c.ppos

/-! ## From the copy on -/

/-- Where the call `c`, at its copy with the shared state `sh`, gets to. -/
inductive AfterCopy (sh : Shared) (c : Call) : Shared × Call → Prop
  | copy : AfterCopy sh c (sh, c)
  | faultUp {x : Shared × Call} (hpc : x.2.pc = .faultUp) (hop : x.2.args.op = c.args.op)
      (hflag : x.1.haveData = sh.haveData) (hppos : x.2.ppos = c.ppos) : AfterCopy sh c x
  | setFlag {x : Shared × Call} (hpc : x.2.pc = .setFlag) (hop : x.2.args.op = c.args.op)
      (hfault : x.2.ret = -EFAULT → x.1.haveData = sh.haveData ∧ x.2.ppos = c.ppos) :
      AfterCopy sh c x
  | flagSet {x : Shared × Call} (hpc : x.2.pc = .finalUp ∨ x.2.pc = .returned)
      (hflag : x.1.haveData = flagAfter c.args.op)
      (hfault : x.2.ret = -EFAULT → x.2.ppos = c.ppos) : AfterCopy sh c x

theorem copyBytes_haveData (sh : Shared) (c : Call) (n : ℕ) :
    (copyBytes sh c n).1.haveData = sh.haveData := by
  unfold copyBytes
  split <;> rfl

theorem copyBytes_ppos (sh : Shared) (c : Call) (n : ℕ) :
    (copyBytes sh c n).2.ppos = c.ppos := by
  unfold copyBytes
  split <;> rfl

theorem AfterCopy.step {sh : Shared} {c : Call} {x x' : Shared × Call} {choice : Choice}
    (hcopy : c.pc = .copy) (h : AfterCopy sh c x) (hstep : callStep x.1 x.2 choice = some x') :
    AfterCopy sh c x' := by
  cases h with
  | copy =>
    cases choice with
    | go =>
      simp only [callStep, hcopy] at hstep
      cases hstep
      -- the number of bytes copied is not an error number
      refine .setFlag rfl (by rw [copyBytes_args]) fun hret => ?_
      have hret : (c.count : ℤ) = -14 := hret
      omega
    | intr => simp only [callStep, hcopy, reduceCtorEq] at hstep
    | fault n =>
      simp only [callStep, hcopy] at hstep
      obtain ⟨-, hstep⟩ := Option.ite_none_right_eq_some.mp hstep
      cases hstep
      exact .faultUp rfl (by rw [copyBytes_args]) (copyBytes_haveData sh c n)
        (copyBytes_ppos sh c n)
  | faultUp hpc hop hflag hppos =>
    cases choice <;> simp only [callStep, hpc, reduceCtorEq] at hstep
    cases hstep
    exact .setFlag rfl hop fun _ => ⟨hflag, hppos⟩
  | setFlag hpc hop hfault =>
    cases choice <;> simp only [callStep, hpc, reduceCtorEq] at hstep
    cases hstep
    exact .flagSet (.inl rfl) (congrArg flagAfter hop) fun hret => (hfault hret).2
  | flagSet hpc hflag hfault =>
    obtain hpc | hpc := hpc
    · cases choice <;> simp only [callStep, hpc, reduceCtorEq] at hstep
      cases hstep
      exact .flagSet (.inr rfl) hflag hfault
    · cases choice <;> simp only [callStep, hpc, reduceCtorEq] at hstep

/-- A call that has returned has set the flag, and has not moved `*ppos` if the copy failed. -/
theorem ReturnsAlone.flagSet {P P' : Pool Shared Call} {i : ℕ} {c c' : Call}
    (h : ReturnsAlone P P' i c c') :
    P'.shared.haveData = flagAfter c.args.op ∧ (c'.ret = -EFAULT → c'.ppos = c.ppos) := by
  obtain ⟨hbefore, hcopy, ⟨cs, hrun⟩, hafter, hreturned⟩ := h
  obtain ⟨x, hexec, rfl⟩ := exec_of_moves hbefore hrun
  obtain rfl : x.2 = c' := eq_of_getElem?_set hbefore hafter
  have hinv : AfterCopy P.shared c x :=
    (Reach.of_exec hexec).invariant (AfterCopy P.shared c) .copy
      fun _ _ _ hafter _ hstep => hafter.step hcopy hstep
  cases hinv with
  | copy => exact absurd (hcopy.symm.trans hreturned) (by decide)
  | faultUp hpc => exact absurd (hpc.symm.trans hreturned) (by decide)
  | setFlag hpc => exact absurd (hpc.symm.trans hreturned) (by decide)
  | flagSet _ hflag hfault => exact ⟨hflag, hfault⟩

/-- A call that runs alone from its test on flips the flag, whether its copy succeeds or not. -/
theorem flag_flipped {P P₁ P' : Pool Shared Call} {i : ℕ} {c c' : Call}
    (htest : (P.procs[i]?).map Call.pc = some .test) (hstep : memStep P (.move i .go) = some P₁)
    (h : ReturnsAlone P₁ P' i c c') : P'.shared.haveData = !P₁.shared.haveData := by
  obtain ⟨p, x, hp, hx, rfl⟩ := poolStep_move hstep
  obtain ⟨t, ht, hpc⟩ := Option.map_eq_some_iff.mp htest
  obtain rfl : p = t := Option.some.inj (hp.symm.trans ht)
  simp only [callStep, hpc] at hx
  cases hx
  have hc := eq_of_getElem?_set hp h.before
  have hcopying := h.copying
  subst hc
  -- the call is at its copy because the flag was in its favour
  have hflag : mustWait p.args.op P.shared.haveData = false := by
    by_contra hwait
    rw [Bool.not_eq_false] at hwait
    simp [hwait] at hcopying
  rw [h.flagSet.1]
  dsimp only
  revert hflag
  cases p.args.op <;> cases P.shared.haveData <;> decide

/-! ## The handshake -/

/-- In every state of the driver, a call that runs alone and returns `-EFAULT` flips the flag and
    keeps `*ppos`. -/
theorem not_keepsHandshake (P P₁ P' : Pool Shared Call) (i : ℕ) (c c' : Call)
    (h : FailsAlone P P₁ P' i c c') :
    ¬ KeepsHandshake P₁ P' c c' ∧ P'.shared.haveData = !P₁.shared.haveData ∧ c'.ppos = c.ppos := by
  have hflip := flag_flipped h.testing h.tested h.returns
  refine ⟨?_, hflip, h.returns.flagSet.2 h.failed⟩
  rintro ⟨hkept, -⟩
  rw [hflip] at hkept
  exact Bool.not_ne_self _ hkept

/-- Call `i` makes `n` steps without a fault. -/
def goOn (i n : ℕ) : List (PoolEvent CallArgs Choice) := List.replicate n (.move i .go)

/-- After `events` call `i` makes its test, and its copy fails: the states before the test and at
    the copy, with the call there, and the state and the call at the return. -/
def failedAfter (events : List (PoolEvent CallArgs Choice)) (i : ℕ) :
    Option (Pool Shared Call × (Pool Shared Call × Call) × Pool Shared Call × Call) := do
  let P ← exec memStep memInit events
  let P₁ ← memStep P (.move i .go)
  let c ← P₁.procs[i]?
  let P' ← exec memStep P₁ ([Choice.fault 0, .go, .go, .go].map (.move i))
  let c' ← P'.procs[i]?
  return (P, (P₁, c), P', c')

theorem failsAlone_of_failedAfter {events : List (PoolEvent CallArgs Choice)} {i : ℕ}
    {P P₁ P' : Pool Shared Call} {c c' : Call}
    (h : failedAfter events i = some (P, (P₁, c), P', c'))
    (htest : (P.procs[i]?).map Call.pc = some .test) (hpc : c.pc = .copy)
    (hpc' : c'.pc = .returned) (hret : c'.ret = -EFAULT) :
    Reach memStep anyStep memInit P ∧ FailsAlone P P₁ P' i c c' := by
  simp only [failedAfter, bind, Option.bind_eq_some_iff] at h
  obtain ⟨P₀, hP, P₂, hP₁, c₀, hc, P₃, hP', c₁, hc', hend⟩ := h
  cases hend
  exact ⟨.of_exec hP, htest, hP₁, ⟨hc, hpc, ⟨_, hP'⟩, hc', hpc'⟩, hret⟩

/-- A read of the byte that a write has announced. -/
def readAfterWrite : List (PoolEvent CallArgs Choice) :=
  [.spawn oneByteWrite] ++ goOn 0 6 ++ [.spawn { oneByteWrite with op := .memRead }] ++ goOn 1 2

/-- Its copy fails, and the byte cannot be read any more. -/
theorem not_keepsHandshake_readAfterWrite :
    ∃ P P₁ P' c c', (Reach memStep anyStep memInit P ∧ FailsAlone P P₁ P' 1 c c') ∧
      ¬ KeepsHandshake P₁ P' c c' ∧ P'.shared.haveData = !P₁.shared.haveData ∧
      c'.ppos = c.ppos := by
  have hrun : (failedAfter readAfterWrite 1).map (fun r =>
      ((r.1.procs[1]?).map Call.pc, r.2.1.2.pc, r.2.2.2.pc, r.2.2.2.ret)) =
      some (some .test, .copy, .returned, -EFAULT) := by decide +kernel
  obtain ⟨⟨P, ⟨P₁, c⟩, P', c'⟩, hr, hend⟩ := Option.map_eq_some_iff.mp hrun
  simp only [Prod.mk.injEq] at hend
  obtain ⟨htest, hpc, hpc', hret⟩ := hend
  have hfails := failsAlone_of_failedAfter hr htest hpc hpc' hret
  exact ⟨P, P₁, P', c, c', hfails, not_keepsHandshake P P₁ P' 1 c c' hfails.2⟩

/-- After a failed write, data is announced that was never written. -/
theorem not_keepsHandshake_faultyWrite :
    ¬ ∀ P P₁ P' i c c', Reach memStep anyStep memInit P → FailsAlone P P₁ P' i c c' →
      KeepsHandshake P₁ P' c c' := by
  intro h
  have hrun : (failedAfter ([.spawn oneByteWrite] ++ goOn 0 2) 0).map (fun r =>
      (((r.1.procs[0]?).map Call.pc, r.2.1.2.pc, r.2.2.2.pc, r.2.2.2.ret),
        r.2.1.1.shared.haveData, r.2.2.1.shared.haveData)) =
      some ((some .test, .copy, .returned, -EFAULT), false, true) := by decide +kernel
  obtain ⟨⟨P, ⟨P₁, c⟩, P', c'⟩, hr, hend⟩ := Option.map_eq_some_iff.mp hrun
  simp only [Prod.mk.injEq] at hend
  obtain ⟨⟨htest, hpc, hpc', hret⟩, hbefore, hafter⟩ := hend
  obtain ⟨hreach, hfails⟩ := failsAlone_of_failedAfter hr htest hpc hpc' hret
  have hkept := (h P P₁ P' 0 c c' hreach hfails).1
  rw [hbefore, hafter] at hkept
  exact absurd hkept (by decide)

end Jz2440.Memdev
