import Jz2440.Common.Bytes
import Jz2440.Common.Errno
import Jz2440.Common.History
import Jz2440.Common.Pool
import Mathlib.Data.Fin.Basic

/-!
# Reading button events

Model of `sixth_drv_read`, `buttons_timer_function` and `buttons_irq` in
`drivers_and_test/7th_buttons_all/buttons.c`. The timer function stores the event in
`key_val` and sets `ev_press`; a read waits for `ev_press`, copies `key_val` and clears
the flag. Any number of reads may be in progress on the opened device. The timer
function runs to its end before a read goes on.

A history records the reports of the timer function and the reads that return 1.

* `freshStep_preserves`: what one step preserves if no signal ends a wait without an
  event and no read passes its test while another one is between its own test and the
  clearing of the flag.
* `reads_fresh`: in every run of such steps each read delivers a report that came after
  the read before it.
* `read_stale_after_signal`: a signal makes a read return an old value.
-/

namespace Jz2440.Buttons

open Jz2440.Common

/-- The timer function has stored a value, or a read has delivered one. -/
inductive KeyEvent
  | report (val : Byte)
  | read (val : Byte)
  deriving DecidableEq

def KeyEvent.IsRead : KeyEvent → Prop
  | report _ => False
  | read _ => True

instance : DecidablePred KeyEvent.IsRead
  | .report _ => isFalse id
  | .read _ => isTrue trivial

/-- The driver's variables and the history; `irq_pd` is an index of `pins_desc`. -/
structure KeyShared where
  irqPd : Option (Fin 4)
  timerPending : Bool
  keyVal : Byte
  evPress : Bool
  log : List KeyEvent

/-- The arguments of a read: `O_NONBLOCK` and `size`. -/
structure ReadArgs where
  nonblock : Bool
  size : ℕ
  deriving DecidableEq

/-- The next statement of a read, or its result. -/
inductive ReadPc
  | test
  | copy
  | clear (val : Byte)
  | returned (ret : ℤ)
  deriving DecidableEq

structure ReadCall where
  args : ReadArgs
  pc : ReadPc
  deriving DecidableEq

def ReadCall.start (a : ReadArgs) : ReadCall := ⟨a, .test⟩

/-- How a statement of a read ends: as it should, or by a signal that ends the sleep. -/
inductive ReadChoice
  | go
  | signal
  deriving DecidableEq

/-- `sixth_drv_read` (buttons.c:98-119), statement by statement. The result of
    `wait_event_interruptible` is ignored. -/
def sixthDrvRead (sh : KeyShared) (c : ReadCall) (choice : ReadChoice) :
    Option (KeyShared × ReadCall) :=
  match c.pc with
  | .test =>
    if c.args.size ≠ 1 then some (sh, { c with pc := .returned (-EINVAL) })
    else if c.args.nonblock then
      if sh.evPress = false then some (sh, { c with pc := .returned (-EAGAIN) })
      else some (sh, { c with pc := .copy })
    else if sh.evPress = true ∨ choice = .signal then some (sh, { c with pc := .copy })
    else none
  | .copy => some (sh, { c with pc := .clear sh.keyVal })
  | .clear val =>
    some ({ sh with evPress := false, log := sh.log ++ [.read val] }, { c with pc := .returned 1 })
  | .returned _ => none

/-- `pins_desc[k].key_val` (buttons.c:43-48). -/
def keyValOf (k : Fin 4) : Byte := BitVec.ofNat 8 (k + 1)

/-- `buttons_timer_function` (buttons.c:163-187), with the level `pinval` that it reads. -/
def buttonsTimerFunction (pinval : Bool) (sh : KeyShared) : KeyShared :=
  match sh.irqPd with
  | none => sh
  | some pindesc =>
    let keyVal := if pinval then 0x80 ||| keyValOf pindesc else keyValOf pindesc
    { sh with keyVal := keyVal, evPress := true, log := sh.log ++ [.report keyVal] }

/-- An edge runs `buttons_irq`, the timer expires, or a read starts or makes a step. -/
inductive KeyStep
  | edge (k : Fin 4)
  | expire (pinval : Bool)
  | reader (e : PoolEvent ReadArgs ReadChoice)

/-- One event; `buttons_irq` is buttons.c:59-65. -/
def keyStep (P : Pool KeyShared ReadCall) : KeyStep → Option (Pool KeyShared ReadCall)
  | .edge k => some { P with shared := { P.shared with irqPd := some k, timerPending := true } }
  | .expire pinval =>
    if P.shared.timerPending then
      some { P with shared := buttonsTimerFunction pinval { P.shared with timerPending := false } }
    else none
  | .reader e => poolStep ReadCall.start sixthDrvRead P e

/-- After `sixth_drv_init`. -/
def keyInit : Pool KeyShared ReadCall := ⟨⟨none, true, 0, false, []⟩, []⟩

/-! ## Freshness -/

/-- Every read delivers the value of a report that no other read came after. -/
def Fresh (log : List KeyEvent) : Prop :=
  EachTime (fun before e => ∀ val, e = .read val →
    After (· = .report val) KeyEvent.IsRead before) log

def readCount (log : List KeyEvent) : ℕ := log.countP fun e => decide e.IsRead
def reportCount (log : List KeyEvent) : ℕ := log.countP fun e => decide ¬ e.IsRead

theorem readCount_append (log log' : List KeyEvent) :
    readCount (log ++ log') = readCount log + readCount log' := List.countP_append

theorem reportCount_append (log log' : List KeyEvent) :
    reportCount (log ++ log') = reportCount log + reportCount log' := List.countP_append

/-- Then there are no more reads than reports: before the last read there is a report
    of its own, and no read between the two. -/
theorem Fresh.readCount_le {log : List KeyEvent} (h : Fresh log) :
    readCount log ≤ reportCount log := by
  induction hn : log.length using Nat.strong_induction_on generalizing log with
  | h n ih =>
    rcases List.eq_nil_or_concat log with rfl | ⟨init, e, rfl⟩
    · exact le_refl 0
    · rw [List.concat_eq_append] at h hn ⊢
      rw [List.length_append, List.length_singleton] at hn
      obtain ⟨hinit, he⟩ := (eachTime_append _ init e).mp h
      cases e with
      | report val =>
        have hle := ih init.length (by omega) hinit rfl
        rw [readCount_append, reportCount_append]
        show readCount init + 0 ≤ reportCount init + 1
        omega
      | read val =>
        obtain ⟨pre, x, post, rfl, rfl, hpost⟩ := he val rfl
        have hle := ih pre.length (by rw [List.length_append, List.length_cons] at hn; omega)
          hinit.left rfl
        have hpost : readCount post = 0 := by
          apply List.countP_eq_zero.mpr
          intro y hy
          simpa using hpost y hy
        rw [readCount_append, readCount_append, reportCount_append, reportCount_append]
        have hread : readCount (KeyEvent.report val :: post) = readCount post :=
          List.countP_cons_of_neg fun h => of_decide_eq_true h
        have hreport : reportCount (KeyEvent.report val :: post) = reportCount post + 1 :=
          List.countP_cons_of_pos (decide_eq_true id)
        show readCount pre + readCount (KeyEvent.report val :: post) + 1 ≤
          reportCount pre + reportCount (KeyEvent.report val :: post) + 0
        omega

/-! ## The condition -/

/-- The read is between its test and the clearing of the flag. -/
def ReadCall.inside (c : ReadCall) : Bool :=
  match c.pc with
  | .copy => true
  | .clear _ => true
  | _ => false

/-- A read goes on from its test only with an event, and only while no other read is
    between its test and the clearing of the flag. -/
def PassesAlone (P : Pool KeyShared ReadCall) (choice : ReadChoice) (c : ReadCall) : Prop :=
  c.pc = .test → c.args.size = 1 →
    (choice = .signal → P.shared.evPress = true) ∧
      (P.shared.evPress = true → ∀ q ∈ P.procs, q.inside = false)

instance (P : Pool KeyShared ReadCall) (choice : ReadChoice) (c : ReadCall) :
    Decidable (PassesAlone P choice c) :=
  inferInstanceAs (Decidable (_ → _ → (_ → _) ∧ (_ → ∀ _ ∈ _, _)))

def ReadsAlone (P : Pool KeyShared ReadCall) : KeyStep → Prop
  | .reader (.move i choice) => ∀ c ∈ P.procs[i]?, PassesAlone P choice c
  | _ => True

instance (P : Pool KeyShared ReadCall) : (e : KeyStep) → Decidable (ReadsAlone P e)
  | .reader (.move _ _) => inferInstanceAs (Decidable (∀ _ ∈ _, _))
  | .reader (.spawn _) => isTrue trivial
  | .edge _ => isTrue trivial
  | .expire _ => isTrue trivial

/-! ## The invariant -/

/-- What a step of a read does. -/
inductive ReadMove (sh : KeyShared) (c : ReadCall) (choice : ReadChoice) :
    KeyShared → ReadCall → Prop
  | fail (ret : ℤ) : c.pc = .test → ReadMove sh c choice sh { c with pc := .returned ret }
  | pass : c.pc = .test → c.args.size = 1 → sh.evPress = true ∨ choice = .signal →
      ReadMove sh c choice sh { c with pc := .copy }
  | copy : c.pc = .copy → ReadMove sh c choice sh { c with pc := .clear sh.keyVal }
  | clear (val : Byte) : c.pc = .clear val → ReadMove sh c choice
      { sh with evPress := false, log := sh.log ++ [.read val] } { c with pc := .returned 1 }

theorem sixthDrvRead_move {sh sh' : KeyShared} {c c' : ReadCall} {choice : ReadChoice}
    (h : sixthDrvRead sh c choice = some (sh', c')) : ReadMove sh c choice sh' c' := by
  unfold sixthDrvRead at h
  split at h
  · rename_i hpc
    split_ifs at h with hsize hnonblock hpress hwait
    · cases h
      exact .fail _ hpc
    · cases h
      exact .fail _ hpc
    · cases h
      exact .pass hpc (not_not.mp hsize) (.inl (by simpa using hpress))
    · cases h
      exact .pass hpc (not_not.mp hsize) hwait
  · rename_i hpc
    cases h
    exact .copy hpc
  · rename_i val hpc
    cases h
    exact .clear val hpc
  · exact absurd h nofun

structure FreshInv (P : Pool KeyShared ReadCall) : Prop where
  /-- the flag stands for a report that nobody has read -/
  flag : P.shared.evPress = true →
    After (· = .report P.shared.keyVal) KeyEvent.IsRead P.shared.log
  /-- at most one read is between its test and the clearing of the flag -/
  alone : P.procs.countP ReadCall.inside ≤ 1
  copying : ∀ c ∈ P.procs, c.pc = .copy → P.shared.evPress = true
  copied : ∀ c ∈ P.procs, ∀ val, c.pc = .clear val →
    After (· = .report val) KeyEvent.IsRead P.shared.log
  fresh : Fresh P.shared.log

theorem freshInv_init : FreshInv keyInit :=
  ⟨fun h => absurd h Bool.false_ne_true, Nat.zero_le 1, nofun, nofun, eachTime_nil _⟩

/-- A report is not read yet, and it takes nothing from what the reads have copied. -/
theorem freshInv_expire {P : Pool KeyShared ReadCall} (hP : FreshInv P) (pinval : Bool) :
    FreshInv { P with
      shared := buttonsTimerFunction pinval { P.shared with timerPending := false } } := by
  unfold buttonsTimerFunction
  split
  · exact ⟨hP.flag, hP.alone, hP.copying, hP.copied, hP.fresh⟩
  · refine ⟨?_, hP.alone, ?_, ?_, ?_⟩
    · intro _
      exact (after_append _ _ _ _).mpr (.inl rfl)
    · intro _ _ _
      rfl
    · intro c hc val hclear
      exact (after_append _ _ _ _).mpr (.inr ⟨id, hP.copied c hc val hclear⟩)
    · exact (eachTime_append _ _ _).mpr ⟨hP.fresh, nofun⟩

theorem freshInv_spawn {P : Pool KeyShared ReadCall} (hP : FreshInv P) (a : ReadArgs) :
    FreshInv ⟨P.shared, P.procs ++ [.start a]⟩ := by
  refine ⟨hP.flag, ?_, ?_, ?_, hP.fresh⟩
  · rw [List.countP_append]
    exact hP.alone
  · rw [List.forall_mem_append]
    exact ⟨hP.copying, by simp [ReadCall.start]⟩
  · rw [List.forall_mem_append]
    exact ⟨hP.copied, by simp [ReadCall.start]⟩

theorem inside_of_pc {c : ReadCall} {pc : ReadPc} (h : c.pc = pc) :
    c.inside = ReadCall.inside ⟨c.args, pc⟩ := by
  rw [← h]

theorem not_inside_of_count {procs : List ReadCall} (h : procs.countP ReadCall.inside = 0)
    {c : ReadCall} (hc : c ∈ procs) : ¬ c.inside = true :=
  List.countP_eq_zero.mp h c hc

theorem freshInv_move {P : Pool KeyShared ReadCall} (hP : FreshInv P) {i : ℕ} {c c' : ReadCall}
    {choice : ReadChoice} {sh' : KeyShared} (hc : P.procs[i]? = some c)
    (hok : PassesAlone P choice c) (hmove : ReadMove P.shared c choice sh' c') :
    FreshInv ⟨sh', P.procs.set i c'⟩ := by
  have hmem : c ∈ P.procs := List.mem_of_getElem? hc
  have hcount := countP_set_add ReadCall.inside hc c'
  have halone := hP.alone
  cases hmove with
  | fail ret hpc =>
    rw [inside_of_pc hpc, if_neg nofun, if_neg nofun] at hcount
    refine ⟨hP.flag, ?_, ?_, ?_, hP.fresh⟩
    · exact hcount.trans_le halone
    · exact forall_mem_set hP.copying i nofun
    · exact forall_mem_set hP.copied i nofun
  | pass hpc hsize hpress =>
    obtain ⟨hsignal, hfree⟩ := hok hpc hsize
    have hev : P.shared.evPress = true := hpress.elim id hsignal
    have hnone : P.procs.countP ReadCall.inside = 0 := by
      apply List.countP_eq_zero.mpr
      intro q hq
      rw [hfree hev q hq]
      exact Bool.false_ne_true
    rw [inside_of_pc hpc, if_neg nofun, if_pos (by rfl), hnone] at hcount
    refine ⟨hP.flag, ?_, fun _ _ _ => hev, ?_, hP.fresh⟩
    · exact hcount.le
    · exact forall_mem_set hP.copied i nofun
  | copy hpc =>
    rw [inside_of_pc hpc, if_pos (by rfl), if_pos (by rfl)] at hcount
    refine ⟨hP.flag, ?_, ?_, ?_, hP.fresh⟩
    · exact (Nat.add_right_cancel hcount).trans_le halone
    · exact forall_mem_set hP.copying i nofun
    · apply forall_mem_set hP.copied i
      rintro val ⟨⟩
      exact hP.flag (hP.copying c hmem hpc)
  | clear val hpc =>
    rw [inside_of_pc hpc, if_pos (by rfl), if_neg nofun] at hcount
    have hnone : (P.procs.set i { c with pc := .returned 1 }).countP ReadCall.inside = 0 := by
      omega
    refine ⟨fun h => absurd h Bool.false_ne_true, hnone.trans_le (Nat.zero_le 1), ?_, ?_, ?_⟩
    · intro q hq hcopy
      exact absurd (inside_of_pc hcopy) (not_inside_of_count hnone hq)
    · intro q hq w hclear
      exact absurd (inside_of_pc hclear) (not_inside_of_count hnone hq)
    · refine (eachTime_append _ _ _).mpr ⟨hP.fresh, ?_⟩
      rintro w ⟨⟩
      exact hP.copied c hmem val hpc

theorem freshStep_preserves (P : Pool KeyShared ReadCall) (e : KeyStep)
    (P' : Pool KeyShared ReadCall) (hP : FreshInv P) (hok : ReadsAlone P e)
    (h : keyStep P e = some P') : FreshInv P' := by
  cases e with
  | edge k =>
    obtain rfl := Option.some.inj h
    exact ⟨hP.flag, hP.alone, hP.copying, hP.copied, hP.fresh⟩
  | expire pinval =>
    obtain ⟨-, h⟩ := Option.ite_none_right_eq_some.mp h
    obtain rfl := Option.some.inj h
    exact freshInv_expire hP pinval
  | reader e =>
    cases e with
    | spawn a =>
      obtain rfl := Option.some.inj h
      exact freshInv_spawn hP a
    | move i choice =>
      have hstep : poolStep ReadCall.start sixthDrvRead P (.move i choice) = some P' := h
      obtain ⟨c, ⟨sh', c'⟩, hc, hread, rfl⟩ := poolStep_move hstep
      exact freshInv_move hP hc (hok c hc) (sixthDrvRead_move hread)

/-! ## Runs -/

/-- If no signal ends a wait without an event and the reads do not overlap, every read
    that returns 1 delivers a report that came after the previous one, and there are no
    more of them than reports. -/
theorem reads_fresh (P : Pool KeyShared ReadCall) (h : Reach keyStep ReadsAlone keyInit P) :
    Fresh P.shared.log ∧ readCount P.shared.log ≤ reportCount P.shared.log := by
  have hinv : FreshInv P := h.invariant FreshInv freshInv_init freshStep_preserves
  exact ⟨hinv.fresh, hinv.fresh.readCount_le⟩

-- the keys of the runs below are literals of `Fin 4`
local instance neZero_readKeys : NeZero 4 := ⟨by decide⟩

/-- A key is pressed and read by a blocking read, which returns its value. -/
def pressThenRead : List KeyStep :=
  [.edge 2, .expire false, .reader (.spawn ⟨false, 1⟩), .reader (.move 0 .go),
    .reader (.move 0 .go), .reader (.move 0 .go)]

theorem reads_fresh_pressThenRead :
    ∃ P, exec keyStep keyInit pressThenRead = some P ∧
      P.shared.log = [.report 3, .read 3] ∧ Fresh P.shared.log ∧
      readCount P.shared.log ≤ reportCount P.shared.log := by
  have hrun : (exec (guarded keyStep ReadsAlone) keyInit pressThenRead).map
      (fun P => P.shared.log) = some [.report 3, .read 3] := by decide +kernel
  obtain ⟨P, hP, hlog⟩ := Option.map_eq_some_iff.mp hrun
  exact ⟨P, exec_of_guarded hP, hlog, reads_fresh P (.of_exec_guarded hP)⟩

/-- A signal ends the sleep of a read before anything was reported: it returns 1. -/
theorem read_stale_after_signal :
    ¬ ∀ P, Reach keyStep anyStep keyInit P →
      Fresh P.shared.log ∧ readCount P.shared.log ≤ reportCount P.shared.log := by
  intro h
  have hrun : (exec keyStep keyInit [.reader (.spawn ⟨false, 1⟩), .reader (.move 0 .signal),
      .reader (.move 0 .go), .reader (.move 0 .go)]).map (fun P => P.shared.log) =
      some [.read 0] := by decide +kernel
  obtain ⟨P, hP, hlog⟩ := Option.map_eq_some_iff.mp hrun
  have hle := (h P (.of_exec hP)).2
  rw [hlog] at hle
  exact absurd hle (by decide)

end Jz2440.Buttons
