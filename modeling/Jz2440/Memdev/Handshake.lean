import Jz2440.Memdev.Semaphore

/-!
# The handshake of the two devices

Each device is meant to be a slot for one message: a write fills it, a read
empties it, and the other operation waits. `slotStep` is that slot, and
`handshake_of_exec_slot` says that its runs have the ordering that users rely
on.

The driver keeps one flag `have_data` for both devices, while each device has its
own semaphore. So a write to one device lets a read of the other one through
(`interference`). The devices behave as two slots in every run in which the flag
is used by one device at a time (`noInterference_of_handshakeOk`):

* no copy faults, and no call is given a position of 2^32 or more, which
  `unsigned long p = *ppos` would cut off;
* a call that finds the flag in its favour does so while no call on the other
  device is between its own test and its own update of the flag, and, if the
  flag is set, the last transfer was on the same device.
-/

namespace Jz2440.Memdev

open Jz2440.Common

/-! ## A slot for one message -/

/-- The operation that a slot allows. -/
def nextOp (full : Bool) : Op := if full then .memRead else .memWrite

/-- A slot: the allowed operation changes it from empty to full or back. -/
def slotStep (full : Bool) (op : Op) : Option Bool :=
  if op = nextOp full then some (!full) else none

/-- The ordering of the reads and writes of one device. -/
structure Handshake (ops : List Op) : Prop where
  write_between_reads : ∀ j k : ℕ, j < k → ops[j]? = some .memRead → ops[k]? = some .memRead →
    ∃ m, j < m ∧ m < k ∧ ops[m]? = some .memWrite
  write_before_read : ∀ k : ℕ, ops[k]? = some .memRead → ∃ m, m < k ∧ ops[m]? = some .memWrite
  read_between_writes : ∀ j k : ℕ, j < k → ops[j]? = some .memWrite → ops[k]? = some .memWrite →
    ∃ m, j < m ∧ m < k ∧ ops[m]? = some .memRead

/-- The operations of a slot alternate. -/
theorem exec_slot_getElem? {full full' : Bool} {ops : List Op}
    (h : exec slotStep full ops = some full') {k : ℕ} (hk : k < ops.length) :
    ops[k]? = some (nextOp (full ^^ decide (k % 2 = 1))) := by
  induction ops generalizing full k with
  | nil => simp at hk
  | cons op ops ih =>
    simp only [exec, slotStep, Option.bind_eq_some_iff, Option.ite_none_right_eq_some,
      Option.some.injEq] at h
    obtain ⟨_, ⟨hop, rfl⟩, hrest⟩ := h
    cases k with
    | zero => simp [hop]
    | succ k =>
      rw [List.getElem?_cons_succ, ih hrest (by simpa using hk)]
      congr 2
      rcases Nat.mod_two_eq_zero_or_one k with hmod | hmod
      · have : (k + 1) % 2 = 1 := by omega
        simp [hmod, this]
      · have : (k + 1) % 2 = 0 := by omega
        simp [hmod, this]

/-- Of a slot that starts empty, the reads have the odd places and the writes the
    even ones. -/
theorem exec_slot_place {full : Bool} {ops : List Op} (h : exec slotStep false ops = some full)
    {k : ℕ} {op : Op} (hk : ops[k]? = some op) :
    (op = .memRead ↔ k % 2 = 1) ∧ (op = .memWrite ↔ k % 2 = 0) := by
  have hlt : k < ops.length := (List.getElem?_eq_some_iff.mp hk).1
  rw [exec_slot_getElem? h hlt, Bool.false_xor] at hk
  rcases Nat.mod_two_eq_zero_or_one k with hmod | hmod
  · rw [hmod] at hk
    cases hk
    simp [nextOp, hmod]
  · rw [hmod] at hk
    cases hk
    simp [nextOp, hmod]

/-- An entry before an existing one exists. -/
theorem exec_slot_exists {full : Bool} {ops : List Op} (h : exec slotStep false ops = some full)
    {m k : ℕ} (hmk : m ≤ k) {op : Op} (hk : ops[k]? = some op) :
    (m % 2 = 1 → ops[m]? = some .memRead) ∧ (m % 2 = 0 → ops[m]? = some .memWrite) := by
  have hlt : k < ops.length := (List.getElem?_eq_some_iff.mp hk).1
  have hm : ops[m]? = some ops[m] := List.getElem?_eq_getElem (by omega)
  have hplace := exec_slot_place h hm
  refine ⟨fun hodd => ?_, fun heven => ?_⟩
  · rw [hm, hplace.1.mpr hodd]
  · rw [hm, hplace.2.mpr heven]

theorem handshake_of_exec_slot {full : Bool} {ops : List Op}
    (h : exec slotStep false ops = some full) : Handshake ops where
  write_between_reads := by
    intro j k hjk hj hk
    have hj1 := (exec_slot_place h hj).1.mp rfl
    have hk1 := (exec_slot_place h hk).1.mp rfl
    exact ⟨j + 1, by omega, by omega, (exec_slot_exists h (by omega) hk).2 (by omega)⟩
  write_before_read := by
    intro k hk
    have hk1 := (exec_slot_place h hk).1.mp rfl
    exact ⟨k - 1, by omega, (exec_slot_exists h (by omega) hk).2 (by omega)⟩
  read_between_writes := by
    intro j k hjk hj hk
    have hj0 := (exec_slot_place h hj).2.mp rfl
    have hk0 := (exec_slot_place h hk).2.mp rfl
    exact ⟨j + 1, by omega, by omega, (exec_slot_exists h (by omega) hk).1 (by omega)⟩

/-! ## The property and its condition -/

/-- A call that starts with `*ppos < MEMDEV_SIZE` and returns a count. -/
def Transfer.successful (t : Transfer) : Bool := decide (t.ppos < memdevSize) && decide (0 ≤ t.ret)

/-- The successful transfers of device `d`, in their order. -/
def opsOn (log : List Transfer) (d : Dev) : List Op :=
  (log.filter fun t => t.successful && t.dev == d).map Transfer.op

/-- Each device has the ordering of a slot of its own. -/
def NoInterference (P : Pool Shared Call) : Prop := ∀ d, Handshake (opsOn P.shared.log d)

/-- The device of the last transfer. -/
def owner (log : List Transfer) : Option Dev := log.getLast?.map Transfer.dev

/-- The flag is used by one device at a time (see the head of this file). -/
def HandshakeOk (P : Pool Shared Call) : PoolEvent CallArgs Choice → Prop
  | .spawn a => a.ppos < 2 ^ 32
  | .move i choice => FaultFree P (.move i choice) ∧ ∀ c ∈ P.procs[i]?, c.pc = .test →
      mustWait c.args.op P.shared.haveData = false →
        (∀ c' ∈ P.procs, c'.pc.critical = true → c'.args.dev = c.args.dev) ∧
        (P.shared.haveData = true → owner P.shared.log = some c.args.dev)

instance (P : Pool Shared Call) : (e : PoolEvent CallArgs Choice) → Decidable (HandshakeOk P e)
  | .spawn a => inferInstanceAs (Decidable (a.ppos < 2 ^ 32))
  | .move _ _ => inferInstanceAs (Decidable (_ ∧ _))

/-! ## One call -/

/-- What the place of a call in the code says about its data. -/
structure Call.Placed (c : Call) : Prop where
  p_eq : c.p = c.args.ppos
  transfer : c.pc = .entry ∨ c.pc.checked = true → c.args.op ≠ .memPoll
  p_lt : c.pc.checked = true → c.p < memdevSize
  ret_nonneg : c.pc = .setFlag → 0 ≤ c.ret

theorem Call.start_placed {a : CallArgs} (h : a.ppos < 2 ^ 32) : (Call.start a).Placed where
  p_eq := Nat.mod_eq_of_lt h
  transfer := by
    unfold Call.start
    split_ifs with hop
    · simp [Pc.checked]
    · exact fun _ => hop
  p_lt := by
    unfold Call.start
    split_ifs <;> simp [Pc.checked]
  ret_nonneg := fun _ => le_refl 0

/-- After the check of `*ppos` a call keeps its operation and its position. -/
theorem Call.Placed.of_checked {c c' : Call} (h : c.Placed) (hck : c.pc.checked = true)
    (hargs : c'.args = c.args) (hp : c'.p = c.p) (hret : c'.pc = .setFlag → 0 ≤ c'.ret) :
    c'.Placed where
  p_eq := by rw [hp, hargs, h.p_eq]
  transfer := by
    intro _
    rw [hargs]
    exact h.transfer (.inr hck)
  p_lt := by
    intro _
    rw [hp]
    exact h.p_lt hck
  ret_nonneg := hret

theorem CallMove.placed {sh sh' : Shared} {c c' : Call} {choice : Choice}
    (hm : CallMove sh c choice sh' c') (h : c.Placed) (hb : c.Balanced)
    (hnf : ∀ n, choice ≠ .fault n) : c'.Placed := by
  cases hm with
  | check hpc hp => exact ⟨h.p_eq, fun _ => h.transfer (.inl hpc), fun _ => hp, by simp⟩
  | @quiet _ _ pc hpc =>
    obtain ⟨-, hcrit, -, hck, hentry⟩ := Pc.quietTo_iff.mp hpc
    refine ⟨h.p_eq, ?_, fun hpc' => h.p_lt (hck hpc'), fun (hset : pc = .setFlag) => ?_⟩
    · rintro (hpc' | hpc')
      · exact absurd hpc' hentry
      · exact h.transfer (.inr (hck hpc'))
    · rw [hset] at hcrit
      exact absurd hcrit (by decide)
  | acquire _ hpc =>
    rcases hpc with ⟨hpc, rfl⟩ | ⟨hpc, rfl⟩
    · exact h.of_checked (by rw [hpc]; rfl) rfl rfl (by simp)
    · exact ⟨h.p_eq, by simp [Pc.checked], by simp [Pc.checked], by simp⟩
  | release hpc =>
    rcases hpc with ⟨hpc, rfl⟩ | ⟨hpc, rfl⟩ | ⟨hpc, rfl⟩
    · exact h.of_checked (by rw [hpc]; rfl) rfl rfl (by simp [upSem])
    · exact h.of_checked (by rw [hpc]; rfl) rfl rfl (by simp [upSem])
    · exact ⟨h.p_eq, by simp [Pc.checked, upSem], by simp [Pc.checked, upSem], by simp [upSem]⟩
  | pass hpc _ => exact h.of_checked (by rw [hpc]; rfl) rfl rfl (by simp)
  | transfer hpc =>
    exact h.of_checked (by rw [hpc]; rfl) rfl rfl fun _ => Int.natCast_nonneg c.count
  | fault _ => exact absurd rfl (hnf _)
  | faultUp hpc => exact absurd hpc hb.noFault
  | setFlag hpc => exact h.of_checked (by rw [hpc]; rfl) rfl rfl (by simp)

theorem CallMove.args_eq {sh sh' : Shared} {c c' : Call} {choice : Choice}
    (hm : CallMove sh c choice sh' c') : c'.args = c.args := by
  cases hm <;> rfl

/-- What a step does to the flag and the log: nothing, or the call passes its
    test, or it updates the flag. -/
theorem CallMove.flag_cases {sh sh' : Shared} {c c' : Call} {choice : Choice}
    (hm : CallMove sh c choice sh' c') :
    (sh'.haveData = sh.haveData ∧ sh'.log = sh.log ∧
      (c'.pc.critical = true → c.pc.critical = true)) ∨
    (sh' = sh ∧ c.pc = .test ∧ mustWait c.args.op sh.haveData = false ∧ c'.pc = .copy) ∨
    (c.pc = .setFlag ∧ sh'.haveData = flagAfter c.args.op ∧
      sh'.log = sh.log ++ [c.transfer] ∧ c'.pc = .finalUp) := by
  cases hm with
  | check hpc _ => exact .inl ⟨rfl, rfl, nofun⟩
  | quiet hpc =>
    refine .inl ⟨rfl, rfl, fun hcrit => ?_⟩
    rw [(Pc.quietTo_iff.mp hpc).2.1] at hcrit
    exact absurd hcrit Bool.false_ne_true
  | acquire _ hpc =>
    rcases hpc with ⟨-, rfl⟩ | ⟨-, rfl⟩ <;> exact .inl ⟨rfl, rfl, nofun⟩
  | release hpc =>
    rcases hpc with ⟨-, rfl⟩ | ⟨-, rfl⟩ | ⟨-, rfl⟩ <;> exact .inl ⟨rfl, rfl, nofun⟩
  | pass hpc hflag => exact .inr (.inl ⟨rfl, hpc, hflag, rfl⟩)
  | transfer hpc => exact .inl ⟨rfl, rfl, fun _ => by rw [hpc]; rfl⟩
  | fault hpc => exact .inl ⟨rfl, rfl, fun _ => by rw [hpc]; rfl⟩
  | faultUp hpc => exact .inl ⟨rfl, rfl, fun _ => by rw [hpc]; rfl⟩
  | setFlag hpc => exact .inr (.inr ⟨hpc, rfl, rfl, rfl⟩)

theorem eq_nextOp_of_not_mustWait {op : Op} {haveData : Bool} (hop : op ≠ .memPoll)
    (h : mustWait op haveData = false) : op = nextOp haveData := by
  cases op <;> cases haveData <;> simp_all [mustWait, nextOp]

theorem flagAfter_nextOp (haveData : Bool) : flagAfter (nextOp haveData) = !haveData := by
  cases haveData <;> rfl

/-! ## All calls -/

/-- The slot of device `d` is full. -/
def slotFull (sh : Shared) (d : Dev) : Bool := sh.haveData && owner sh.log == some d

/-- The invariant of the runs that meet the condition. -/
structure HandInv (P : Pool Shared Call) : Prop where
  sem : SemInv P
  placed : ∀ c ∈ P.procs, c.Placed
  /-- At most one call of both devices is between its test and its update. -/
  one : P.procs.countP (fun c => c.pc.critical) ≤ 1
  /-- That call does what the slot of its device allows. -/
  allowed : ∀ c ∈ P.procs, c.pc.critical = true → c.args.op = nextOp P.shared.haveData ∧
    (P.shared.haveData = true → owner P.shared.log = some c.args.dev)
  /-- The transfers of a device are a run of its slot. -/
  slots : ∀ d, exec slotStep false (opsOn P.shared.log d) = some (slotFull P.shared d)

theorem handInv_init : HandInv memInit where
  sem := semInv_init
  placed := by simp [memInit]
  one := by simp [memInit]
  allowed := by simp [memInit]
  slots := fun _ => rfl

theorem HandInv.spawn {P : Pool Shared Call} (hinv : HandInv P) {a : CallArgs}
    (ha : a.ppos < 2 ^ 32) (hsem : SemInv ⟨P.shared, P.procs ++ [Call.start a]⟩) :
    HandInv ⟨P.shared, P.procs ++ [Call.start a]⟩ := by
  have hnew : (Call.start a).pc.critical = false := by
    unfold Call.start
    split_ifs <;> rfl
  refine ⟨hsem, ?_, ?_, ?_, hinv.slots⟩
  · exact List.forall_mem_append.mpr
      ⟨hinv.placed, List.forall_mem_singleton.mpr (Call.start_placed ha)⟩
  · simpa [List.countP_append, hnew] using hinv.one
  · refine List.forall_mem_append.mpr ⟨hinv.allowed, List.forall_mem_singleton.mpr fun hcrit => ?_⟩
    rw [hnew] at hcrit
    exact absurd hcrit Bool.false_ne_true

/-- A call at its test holds the semaphore of its device, so that no other call on
    that device is between test and update. -/
theorem SemInv.no_critical {P : Pool Shared Call} (hinv : SemInv P) {i : ℕ} {c : Call}
    (hc : P.procs[i]? = some c) (hpc : c.pc = .test)
    (hdev : ∀ c' ∈ P.procs, c'.pc.critical = true → c'.args.dev = c.args.dev) :
    P.procs.countP (fun c => c.pc.critical) = 0 := by
  have hinside : ∀ pc : Pc, pc.critical = true → pc.inside = true := by
    intro pc
    cases pc <;> decide
  have hone : P.procs.countP (Call.holds c.args.dev) ≤ 1 := by
    have := hinv.count c.args.dev
    omega
  rw [List.countP_eq_zero]
  intro c' hc' hcrit
  obtain ⟨j, hj⟩ := List.mem_iff_getElem?.mp hc'
  have hold : c.holds c.args.dev = true := by
    rw [(hinv.calls c (List.mem_of_getElem? hc)).holds_eq, hpc]
    simp [Pc.inside]
  have hold' : c'.holds c.args.dev = true := by
    rw [(hinv.calls c' hc').holds_eq, hdev c' hc' hcrit, hinside _ hcrit]
    simp
  -- so `c'` is the call at the test
  have hij := eq_of_countP_le_one _ hone hc hj hold hold'
  subst hij
  obtain rfl : c = c' := Option.some.inj (hc.symm.trans hj)
  rw [hpc] at hcrit
  exact absurd hcrit (by decide)

/-- The log of a device after a transfer of the device. -/
theorem opsOn_append {log : List Transfer} {t : Transfer} (ht : t.successful = true) (d : Dev) :
    opsOn (log ++ [t]) d = if t.dev = d then opsOn log d ++ [t.op] else opsOn log d := by
  by_cases hd : t.dev = d
  · simp [opsOn, ht, hd]
  · simp [opsOn, ht, hd]

theorem owner_append (log : List Transfer) (t : Transfer) : owner (log ++ [t]) = some t.dev := by
  simp [owner]

/-- The update of the flag is a step of the slot of the call's device, and leaves
    the other slot as it was. -/
theorem slots_setFlag {sh sh' : Shared} {t : Transfer} (ht : t.successful = true)
    (hop : t.op = nextOp sh.haveData) (howner : sh.haveData = true → owner sh.log = some t.dev)
    (hslots : ∀ d, exec slotStep false (opsOn sh.log d) = some (slotFull sh d))
    (hflag : sh'.haveData = flagAfter t.op) (hlog : sh'.log = sh.log ++ [t]) (d : Dev) :
    exec slotStep false (opsOn sh'.log d) = some (slotFull sh' d) := by
  have hfull' : slotFull sh' d = (!sh.haveData && t.dev == d) := by
    simp [slotFull, hflag, hlog, hop, flagAfter_nextOp, owner_append]
  have hfull : slotFull sh d = (sh.haveData && t.dev == d) := by
    cases hdata : sh.haveData
    · simp [slotFull, hdata]
    · simp [slotFull, hdata, howner hdata]
  rw [hfull', hlog, opsOn_append ht]
  by_cases hd : t.dev = d
  · rw [if_pos hd, exec_append, hslots d, hfull, hd]
    simp [exec, slotStep, hop]
  · rw [if_neg hd, hslots d, hfull, beq_eq_false_iff_ne.mpr hd, Bool.and_false, Bool.and_false]

theorem HandInv.step {P P' : Pool Shared Call} {e : PoolEvent CallArgs Choice} (hinv : HandInv P)
    (hok : HandshakeOk P e) (h : memStep P e = some P') : HandInv P' := by
  cases e with
  | spawn a =>
    have hsem := hinv.sem.step (e := .spawn a) trivial h
    cases h
    exact hinv.spawn hok hsem
  | move i choice =>
    obtain ⟨hff, hpass⟩ := hok
    have hsem := hinv.sem.step hff h
    obtain ⟨c, r, hc, hr, rfl⟩ := poolStep_move h
    have hmem := List.mem_of_getElem? hc
    have hnf : ∀ n, choice ≠ .fault n := by
      rintro n rfl
      exact hff
    have hm := callStep_move hr
    have hplaced := forall_mem_set hinv.placed i
      (hm.placed (hinv.placed c hmem) (hinv.sem.calls c hmem) hnf)
    have hcount := countP_set_add (fun c => c.pc.critical) hc r.2
    have hone := hinv.one
    rcases hm.flag_cases with ⟨hdata, hlog, hcrit⟩ | ⟨hsh, hpc, hflag, hpc'⟩ |
        ⟨hpc, hdata, hlog, hpc'⟩
    · -- neither the flag nor the log changes
      refine ⟨hsem, hplaced, ?_, ?_, ?_⟩
      · have hle : (if r.2.pc.critical then 1 else 0) ≤ if c.pc.critical then 1 else 0 := by
          by_cases hcrit' : r.2.pc.critical = true
          · rw [if_pos hcrit', if_pos (hcrit hcrit')]
          · rw [if_neg hcrit']
            exact Nat.zero_le _
        dsimp only
        omega
      · simp only [hdata, hlog]
        refine forall_mem_set hinv.allowed i fun hcrit' => ?_
        rw [hm.args_eq]
        exact hinv.allowed c hmem (hcrit hcrit')
      · simpa only [slotFull, hdata, hlog] using hinv.slots
    · -- the call passes its test
      obtain ⟨hdev, howner⟩ := hpass c hc hpc hflag
      have hzero := hinv.sem.no_critical hc hpc hdev
      have hop := (hinv.placed c hmem).transfer (.inr (by rw [hpc]; rfl))
      refine ⟨hsem, hplaced, ?_, ?_, ?_⟩
      · dsimp only at *
        split_ifs at hcount <;> omega
      · rw [hsh]
        refine forall_mem_set hinv.allowed i fun _ => ?_
        rw [hm.args_eq]
        exact ⟨eq_nextOp_of_not_mustWait hop hflag, howner⟩
      · rw [hsh]
        exact hinv.slots
    · -- the call updates the flag; no other call is between test and update
      have hcrit : c.pc.critical = true := by rw [hpc]; rfl
      obtain ⟨hop, howner⟩ := hinv.allowed c hmem hcrit
      have hp := hinv.placed c hmem
      have hsucc : c.transfer.successful = true := by
        have hlt := hp.p_lt (by rw [hpc]; rfl)
        rw [hp.p_eq] at hlt
        simp [Transfer.successful, Call.transfer, hlt, hp.ret_nonneg hpc]
      have hzero : (P.procs.set i r.2).countP (fun c => c.pc.critical) = 0 := by
        rw [if_pos hcrit, hpc', if_neg (by decide)] at hcount
        omega
      refine ⟨hsem, hplaced, by dsimp only; omega, ?_, ?_⟩
      · intro c' hc' hcrit'
        exact absurd hcrit' (List.countP_eq_zero.mp hzero c' hc')
      · exact slots_setFlag hsucc hop howner hinv.slots hdata hlog

/-- The devices do not interfere in any run in which the flag is used by one
    device at a time. -/
theorem noInterference_of_handshakeOk (P : Pool Shared Call)
    (h : Reach memStep HandshakeOk memInit P) : NoInterference P := by
  have hinv : HandInv P :=
    h.invariant HandInv handInv_init fun _ _ _ hinv hok hs => hinv.step hok hs
  intro d
  exact handshake_of_exec_slot (hinv.slots d)

/-- A call from its entry to its return, with one pass of the test. -/
def straight (i : ℕ) : List (PoolEvent CallArgs Choice) := List.replicate 6 (.move i .go)

def oneByteRead (d : Dev) : CallArgs := ⟨.memRead, d, false, 0, 1, fun _ => 0⟩

-- the devices of the runs below are literals of `Dev`
local instance neZero_devs : NeZero 2 := ⟨by decide⟩

/-- Device 0 is written and read, then device 1. -/
def oneAfterTheOther : List (PoolEvent CallArgs Choice) :=
  [.spawn oneByteWrite, .spawn (oneByteRead 0), .spawn { oneByteWrite with dev := 1 },
    .spawn (oneByteRead 1)] ++ straight 0 ++ straight 1 ++ straight 2 ++ straight 3

theorem noInterference_oneAfterTheOther :
    ∃ P, exec memStep memInit oneAfterTheOther = some P ∧
      opsOn P.shared.log 1 = [.memWrite, .memRead] ∧ NoInterference P := by
  have hops : (exec (guarded memStep HandshakeOk) memInit oneAfterTheOther).map
      (fun P => opsOn P.shared.log 1) = some [.memWrite, .memRead] := by decide +kernel
  obtain ⟨P, hP, hops⟩ := Option.map_eq_some_iff.mp hops
  exact ⟨P, exec_of_guarded hP, hops, noInterference_of_handshakeOk P (.of_exec_guarded hP)⟩

/-- Device 0 is written, and device 1 is read. -/
def readOther : List (PoolEvent CallArgs Choice) :=
  [.spawn oneByteWrite, .spawn (oneByteRead 1)] ++ straight 0 ++ straight 1

/-- The devices interfere although no copy faults. -/
theorem interference :
    ¬ ∀ P, Reach memStep FaultFree memInit P → NoInterference P := by
  intro h
  have hops : (exec (guarded memStep FaultFree) memInit readOther).map
      (fun P => opsOn P.shared.log 1) = some [.memRead] := by decide +kernel
  obtain ⟨P, hP, hops⟩ := Option.map_eq_some_iff.mp hops
  have hread := (h P (.of_exec_guarded hP) 1).write_before_read 0
  rw [hops] at hread
  obtain ⟨m, hm, -⟩ := hread rfl
  omega

end Jz2440.Memdev
