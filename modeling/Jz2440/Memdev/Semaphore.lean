import Jz2440.Memdev.Driver

/-!
# The semaphore of a device

`dev->sem` is meant to be a mutex. It is one as long as no copy to or from user
space faults (`sem_mutex_of_faultFree`). On a fault both `mem_read` and
`mem_write` do an `up` in the fault branch and another one before they return
(memdev_poll.c:97 and 106, 149 and 159), so that the count ends at 2 and the
device has lost its mutual exclusion (`not_sem_mutex_after_fault`). This happens
after every fault (`not_sem_mutex_of_fault`).
-/

namespace Jz2440.Memdev

open Jz2440.Common

/-- The call is in progress on `d` and has done one more `down` than `up`. -/
def Call.holds (d : Dev) (c : Call) : Bool :=
  c.args.dev == d && c.pc != .returned && c.downs == c.ups + 1

/-- The call is at its access to the `data` of `d`. -/
def Call.touches (d : Dev) (c : Call) : Bool := c.args.dev == d && c.pc == .copy

/-- The semaphore of `d` works as a mutex. -/
structure SemMutex (P : Pool Shared Call) (d : Dev) : Prop where
  /-- It is free, or exactly one call holds it. -/
  count : P.shared.sem d + P.procs.countP (Call.holds d) = 1
  /-- A call that has returned did as many `up`s as `down`s. -/
  balanced : ∀ c ∈ P.procs, c.args.dev = d → c.pc = .returned → c.ups = c.downs
  le_one : P.shared.sem d ≤ 1
  /-- No two calls touch `data` at a time. -/
  exclusive : ∀ (i j : ℕ) (ci cj : Call), P.procs[i]? = some ci → P.procs[j]? = some cj →
    ci.touches d = true → cj.touches d = true → i = j

/-- The step is not a fault in `copy_to_user` or `copy_from_user`. -/
def FaultFree (_ : Pool Shared Call) : PoolEvent CallArgs Choice → Prop
  | .move _ (.fault _) => False
  | _ => True

instance (P : Pool Shared Call) (e : PoolEvent CallArgs Choice) : Decidable (FaultFree P e) := by
  unfold FaultFree
  split <;> infer_instance

/-! ## One call -/

/-- The counts of a call agree with its place in the code, and it is not in the
    fault branch. -/
structure Call.Balanced (c : Call) : Prop where
  noFault : c.pc ≠ .faultUp
  downs : c.downs = c.ups + if c.pc.inside then 1 else 0

theorem Call.Balanced.holds_eq {c : Call} (h : c.Balanced) (d : Dev) :
    c.holds d = (c.args.dev == d && c.pc.inside) := by
  have hd := h.downs
  unfold Call.holds
  cases hin : c.pc.inside
  · rw [hin, if_neg Bool.false_ne_true] at hd
    have : ¬ c.downs = c.ups + 1 := by omega
    simp [this]
  · rw [hin, if_pos rfl] at hd
    have : c.pc ≠ .returned := by
      intro hpc
      rw [hpc] at hin
      exact absurd hin (by decide)
    simp [this, hd]

theorem Call.start_balanced (a : CallArgs) : (Call.start a).Balanced := by
  unfold Call.start
  split_ifs
  · exact ⟨nofun, rfl⟩
  · exact ⟨nofun, rfl⟩

/-- `down` takes one from the count of the call's device only. -/
theorem sem_acquire (sem : Dev → ℕ) {e : Dev} (h : 0 < sem e) (d : Dev) :
    Function.update sem e (sem e - 1) d + (if e = d then 1 else 0) = sem d := by
  by_cases hd : e = d
  · subst hd
    rw [Function.update_self, if_pos rfl]
    omega
  · rw [Function.update_of_ne (Ne.symm hd), if_neg hd]
    rfl

/-- `up` adds one to the count of the call's device only. -/
theorem sem_release (sem : Dev → ℕ) (e d : Dev) :
    Function.update sem e (sem e + 1) d = sem d + if e = d then 1 else 0 := by
  by_cases hd : e = d
  · subst hd
    rw [Function.update_self, if_pos rfl]
  · rw [Function.update_of_ne (Ne.symm hd), if_neg hd]
    rfl

/-- Without a fault, a step of a call keeps its balance, and the count of a
    semaphore changes exactly as the holding of the call does. -/
theorem CallMove.balance {sh sh' : Shared} {c c' : Call} {choice : Choice}
    (hm : CallMove sh c choice sh' c') (hb : c.Balanced) (hnf : ∀ n, choice ≠ .fault n) :
    c'.Balanced ∧ ∀ d, sh'.sem d + (if c'.holds d then 1 else 0) =
      sh.sem d + if c.holds d then 1 else 0 := by
  have hdowns := hb.downs
  -- it is enough to compare the places in the code
  suffices h : c'.Balanced ∧ ∀ d,
      sh'.sem d + (if c'.args.dev = d ∧ c'.pc.inside = true then 1 else 0) =
        sh.sem d + if c.args.dev = d ∧ c.pc.inside = true then 1 else 0 by
    refine ⟨h.1, fun d => ?_⟩
    have := h.2 d
    simpa only [h.1.holds_eq, hb.holds_eq, Bool.and_eq_true, beq_iff_eq] using this
  cases hm with
  | check hpc _ =>
    rw [hpc] at hdowns ⊢
    exact ⟨⟨nofun, hdowns⟩, fun d => rfl⟩
  | @quiet _ _ pc hpc =>
    obtain ⟨-, hcrit, hin, -, -⟩ := Pc.quietTo_iff.mp hpc
    refine ⟨⟨?_, ?_⟩, fun d => ?_⟩
    · intro (h : pc = .faultUp)
      rw [h] at hcrit
      exact absurd hcrit (by decide)
    · simpa only [hin] using hdowns
    · simp only [hin]
  | acquire hsem hpc =>
    rcases hpc with ⟨hpc, rfl⟩ | ⟨hpc, rfl⟩
    all_goals
      rw [hpc] at hdowns ⊢
      refine ⟨⟨nofun, ?_⟩, fun d => ?_⟩
      · simpa [Pc.inside] using hdowns
      · simpa [Pc.inside] using sem_acquire sh.sem hsem d
  | release hpc =>
    rcases hpc with ⟨hpc, rfl⟩ | ⟨hpc, rfl⟩ | ⟨hpc, rfl⟩
    all_goals
      rw [hpc] at hdowns ⊢
      refine ⟨⟨nofun, ?_⟩, fun d => ?_⟩
      · simpa [Pc.inside, upSem] using hdowns
      · simpa [Pc.inside, upSem] using sem_release sh.sem c.args.dev d
  | pass hpc _ =>
    rw [hpc] at hdowns ⊢
    exact ⟨⟨nofun, hdowns⟩, fun d => rfl⟩
  | transfer hpc =>
    rw [hpc] at hdowns ⊢
    exact ⟨⟨nofun, hdowns⟩, fun d => rfl⟩
  | fault _ => exact absurd rfl (hnf _)
  | faultUp hpc => exact absurd hpc hb.noFault
  | setFlag hpc =>
    rw [hpc] at hdowns ⊢
    exact ⟨⟨nofun, hdowns⟩, fun d => rfl⟩

/-! ## All calls -/

/-- The invariant of a run without faults. -/
structure SemInv (P : Pool Shared Call) : Prop where
  calls : ∀ c ∈ P.procs, c.Balanced
  count : ∀ d, P.shared.sem d + P.procs.countP (Call.holds d) = 1

theorem semInv_init : SemInv memInit where
  calls := by simp [memInit]
  count := fun _ => rfl

theorem SemInv.step {P P' : Pool Shared Call} {e : PoolEvent CallArgs Choice} (hinv : SemInv P)
    (hok : FaultFree P e) (h : memStep P e = some P') : SemInv P' := by
  cases e with
  | spawn a =>
    cases h
    refine ⟨?_, fun d => ?_⟩
    · exact List.forall_mem_append.mpr
        ⟨hinv.calls, List.forall_mem_singleton.mpr (Call.start_balanced a)⟩
    · -- the new call does not hold the semaphore
      have hnew : (Call.start a).holds d = false := by simp [Call.holds, Call.start]
      simpa [List.countP_append, hnew] using hinv.count d
  | move i choice =>
    obtain ⟨c, r, hc, hr, rfl⟩ := poolStep_move h
    have hnf : ∀ n, choice ≠ .fault n := by
      rintro n rfl
      exact hok
    have hb := hinv.calls c (List.mem_of_getElem? hc)
    obtain ⟨hb', hsem⟩ := (callStep_move hr).balance hb hnf
    refine ⟨forall_mem_set hinv.calls i hb', fun d => ?_⟩
    have hcount := countP_set_add (Call.holds d) hc r.2
    have := hsem d
    have := hinv.count d
    dsimp only at *
    omega

theorem SemInv.mutex {P : Pool Shared Call} (hinv : SemInv P) (d : Dev) : SemMutex P d where
  count := hinv.count d
  balanced := by
    intro c hc _ hpc
    have := (hinv.calls c hc).downs
    rw [hpc] at this
    exact this.symm
  le_one := by
    have := hinv.count d
    omega
  exclusive := by
    intro i j ci cj hi hj hci hcj
    -- a call at the copy is one that holds the semaphore
    have hold : ∀ (k : ℕ) (ck : Call), P.procs[k]? = some ck → ck.touches d = true →
        ck.holds d = true := by
      intro k ck hk ht
      rw [(hinv.calls ck (List.mem_of_getElem? hk)).holds_eq]
      simp only [Call.touches, Bool.and_eq_true, beq_iff_eq] at ht ⊢
      refine ⟨ht.1, ?_⟩
      rw [ht.2]
      rfl
    have hone : P.procs.countP (Call.holds d) ≤ 1 := by
      have := hinv.count d
      omega
    exact eq_of_countP_le_one _ hone hi hj (hold i ci hi hci) (hold j cj hj hcj)

theorem semInv_of_reach {P : Pool Shared Call} (h : Reach memStep FaultFree memInit P) :
    SemInv P :=
  h.invariant SemInv semInv_init fun _ _ _ hinv hok hs => hinv.step hok hs

/-- In every run in which no copy faults, the semaphore of each device is a mutex
    at every moment. -/
theorem sem_mutex_of_faultFree (P : Pool Shared Call) (h : Reach memStep FaultFree memInit P)
    (d : Dev) : SemMutex P d :=
  (semInv_of_reach h).mutex d

/-- A one-byte write to device 0, by a call that may block. -/
def oneByteWrite : CallArgs := ⟨.memWrite, 0, false, 0, 1, fun _ => 0x5a⟩

/-- The write runs to its copy while a poll waits for the semaphore. -/
def writeAndPoll : List (PoolEvent CallArgs Choice) :=
  [.spawn oneByteWrite, .spawn { oneByteWrite with op := .memPoll }, .move 0 .go, .move 0 .go,
    .move 0 .go]

theorem sem_mutex_writeAndPoll :
    ∃ P, exec memStep memInit writeAndPoll = some P ∧ P.procs.countP (Call.touches 0) = 1 ∧
      SemMutex P 0 := by
  have hcount : (exec (guarded memStep FaultFree) memInit writeAndPoll).map
      (fun P => P.procs.countP (Call.touches 0)) = some 1 := by decide +kernel
  obtain ⟨P, hP, hcount⟩ := Option.map_eq_some_iff.mp hcount
  exact ⟨P, exec_of_guarded hP, hcount, sem_mutex_of_faultFree P (.of_exec_guarded hP) 0⟩

/-- The write faults in its copy and runs to its end. -/
def faultyWrite : List (PoolEvent CallArgs Choice) :=
  [.spawn oneByteWrite, .move 0 .go, .move 0 .go, .move 0 .go, .move 0 (.fault 0), .move 0 .go,
    .move 0 .go, .move 0 .go]

/-- With faults the semaphore does not stay a mutex. -/
theorem not_sem_mutex_after_fault :
    ¬ ∀ P, Reach memStep anyStep memInit P → ∀ d, SemMutex P d := by
  intro h
  have hsem : (exec memStep memInit faultyWrite).map (fun P => P.shared.sem 0) = some 2 := by
    decide +kernel
  obtain ⟨P, hP, hsem⟩ := Option.map_eq_some_iff.mp hsem
  have := (h P (.of_exec hP) 0).le_one
  omega

/-! ## The condition is exact -/

theorem copyBytes_sem (sh : Shared) (c : Call) (n : ℕ) : (copyBytes sh c n).1.sem = sh.sem := by
  unfold copyBytes
  split <;> rfl

theorem copyBytes_args (sh : Shared) (c : Call) (n : ℕ) : (copyBytes sh c n).2.args = c.args := by
  unfold copyBytes
  split <;> rfl

/-- The rest of a call whose copy faults: the count of its semaphore grows by 2. -/
theorem callStep_fault (sh : Shared) {c : Call} {n : ℕ} (hpc : c.pc = .copy) (hn : n < c.count) :
    ∃ r, exec (fun x => callStep x.1 x.2) (sh, c) [.fault n, .go, .go, .go] = some r ∧
      r.1.sem c.args.dev = sh.sem c.args.dev + 2 := by
  simp only [exec, callStep, hpc, if_pos hn, Option.bind_some]
  refine ⟨_, rfl, ?_⟩
  simp only [upSem, copyBytes_sem, copyBytes_args, Function.update_self]

/-- Whenever a copy faults, the call goes on to a state in which the semaphore is
    not a mutex. -/
theorem not_sem_mutex_of_fault {P : Pool Shared Call} {i n : ℕ} {c : Call}
    (hc : P.procs[i]? = some c) (hpc : c.pc = .copy) (hn : n < c.count) :
    ∃ P', exec memStep P ([.fault n, .go, .go, .go].map (.move i)) = some P' ∧
      ¬ SemMutex P' c.args.dev := by
  obtain ⟨r, hr, hsem⟩ := callStep_fault P.shared hpc hn
  refine ⟨_, exec_moves Call.start hc hr, fun hmutex => ?_⟩
  have := hmutex.le_one
  dsimp only at this
  omega

end Jz2440.Memdev
