import Jz2440.Common.Bytes
import Jz2440.Common.Ring
import Jz2440.Common.Runs

/-!
# The ring buffer of infrared events

Model of `sensors/irda/circle_buffer.c` in
`hard_driver/first_hard/025_sensors_022/007_irda_nec_ok_022_009`.

`irda_irq` puts events into the buffer with `ir_event_put`; main code takes them
out with `ir_event_get` and `ir_event_get_timeout`. Interrupts do not nest, so
`ir_event_put` is one step of the model; it can come between any two statements
of the main code. A `return` that follows another statement is taken together
with it.

`fifo_of_reach`: in every such run the buffer is a bounded queue of 1023 events
that loses and duplicates nothing.
-/

namespace Jz2440.Irda

open Jz2440.Common

/-- `irda_raw_event` (irda_raw.h:5-8). -/
structure IrdaRawEvent where
  pol : ℤ
  duration : ℤ
  deriving DecidableEq

/-! ## The buffer -/

/-- `NEXT_PLACE(i)` (circle_buffer.c:4). -/
def nextPlace (i : ℕ) : ℕ := (i + 1) &&& 0x3FF

/-- `g_events`, `g_r` and `g_w` (circle_buffer.c:6-8). -/
structure Buffer where
  gEvents : ℕ → IrdaRawEvent
  gR : ℕ
  gW : ℕ

/-- `is_ir_event_buf_empty` (circle_buffer.c:10-13). -/
def isIrEventBufEmpty (b : Buffer) : Bool := b.gR == b.gW

/-- `is_ir_event_buf_full` (circle_buffer.c:15-18). -/
def isIrEventBufFull (b : Buffer) : Bool := nextPlace b.gW == b.gR

/-- `ir_event_put` (circle_buffer.c:20-27): its result and the buffer after it. -/
def irEventPut (b : Buffer) (e : IrdaRawEvent) : ℤ × Buffer :=
  if isIrEventBufFull b then (-1, b)
  else (0, { b with gEvents := Function.update b.gEvents b.gW e, gW := nextPlace b.gW })

/-- The events that are stored, oldest first. -/
def Buffer.stored (b : Buffer) : List IrdaRawEvent := ringContents 1024 b.gEvents b.gR b.gW

/-! ## The main code -/

/-- The two functions that take an event out of the buffer. -/
inductive GetFn
  | irEventGet
  | irEventGetTimeout
  deriving DecidableEq

/-- The statement that the main code executes next; `idle` is outside the two
    functions. -/
inductive Pc
  | idle
  | loop
  | test (fn : GetFn)
  | copy
  | advance
  | udelay
  deriving DecidableEq

/-- A call that has returned: its result, and `g_r` and `*pd` before and after. -/
structure GetRecord where
  ret : ℤ
  rBefore : ℕ
  rAfter : ℕ
  pdBefore : IrdaRawEvent
  pdAfter : IrdaRawEvent
  deriving DecidableEq

/-- The buffer, the main code's `*pd` and `timeout_us`, and, for the statement of
    the result only, `g_r` and `*pd` at the start of the call, the events for
    which `ir_event_put` returned 0, and the calls that have returned. -/
structure State where
  buf : Buffer
  pc : Pc
  pd : IrdaRawEvent
  timeoutUs : Word
  rBefore : ℕ
  pdBefore : IrdaRawEvent
  accepted : List IrdaRawEvent
  gets : List GetRecord

def ringInit : State :=
  { buf := ⟨fun _ => ⟨0, 0⟩, 0, 0⟩, pc := .idle, pd := ⟨0, 0⟩, timeoutUs := 0, rBefore := 0,
    pdBefore := ⟨0, 0⟩, accepted := [], gets := [] }

/-- `return ret` of a call. -/
def State.return (s : State) (ret : ℤ) : State :=
  { s with pc := .idle, gets := s.gets ++ [⟨ret, s.rBefore, s.buf.gR, s.pdBefore, s.pd⟩] }

/-- A call with `*pd = pd`. -/
def State.call (s : State) (pd : IrdaRawEvent) (timeoutUs : Word) (pc : Pc) : State :=
  { s with pc := pc, pd := pd, timeoutUs := timeoutUs, rBefore := s.buf.gR, pdBefore := pd }

/-- The next statement of `ir_event_get` (circle_buffer.c:29-36) or
    `ir_event_get_timeout` (circle_buffer.c:39-53). Both take the event out with
    the same two statements. -/
def stmt (s : State) : Option State :=
  match s.pc with
  | .idle => none
  -- while (timeout_us--)
  | .loop =>
    let s' := { s with timeoutUs := s.timeoutUs - 1 }
    if s.timeoutUs = 0 then some (s'.return (-1))
    else some { s' with pc := .test .irEventGetTimeout }
  | .test fn =>
    if isIrEventBufEmpty s.buf then
      match fn with
      | .irEventGet => some (s.return (-1))
      | .irEventGetTimeout => some { s with pc := .udelay }
    else some { s with pc := .copy }
  -- *pd = g_events[g_r]
  | .copy => some { s with pd := s.buf.gEvents s.buf.gR, pc := .advance }
  -- g_r = NEXT_PLACE(g_r); return 0
  | .advance => some ({ s with buf := { s.buf with gR := nextPlace s.buf.gR } }.return 0)
  | .udelay => some { s with pc := .loop }

/-- An interrupt puts an event, the main code calls one of its functions, or it
    executes its next statement. -/
inductive RingEvent
  | put (e : IrdaRawEvent)
  | get (pd : IrdaRawEvent)
  | getTimeout (pd : IrdaRawEvent) (timeoutUs : Word)
  | stmt

/-- One step of a run. -/
def ringStep (s : State) : RingEvent → Option State
  | .put e =>
    let r := irEventPut s.buf e
    some { s with
      buf := r.2, accepted := if r.1 = 0 then s.accepted ++ [e] else s.accepted }
  | .get pd => if s.pc = .idle then some (s.call pd s.timeoutUs (.test .irEventGet)) else none
  | .getTimeout pd t => if s.pc = .idle then some (s.call pd t .loop) else none
  | .stmt => stmt s

/-- The events that successful calls have delivered. -/
def State.delivered (s : State) : List IrdaRawEvent :=
  (s.gets.filter fun g => g.ret = 0).map GetRecord.pdAfter

/-- The buffer is a bounded first-in-first-out queue. -/
structure Fifo (s : State) : Prop where
  r_lt : s.buf.gR < 1024
  w_lt : s.buf.gW < 1024
  /-- Nothing is lost, duplicated or reordered. -/
  lossless : s.accepted = s.delivered ++ s.buf.stored
  /-- `ir_event_put` fails exactly when 1023 events are stored. -/
  put_full : ∀ e, (irEventPut s.buf e).1 = -1 ↔ s.buf.stored.length = 1023
  put_failed : ∀ e, (irEventPut s.buf e).1 = -1 → (irEventPut s.buf e).2 = s.buf
  /-- A failed call has changed neither `g_r` nor `*pd`. -/
  get_failed : ∀ g ∈ s.gets, g.ret = -1 → g.rAfter = g.rBefore ∧ g.pdAfter = g.pdBefore
  /-- No statement of the main code changes `g_w`. -/
  get_w : ∀ s', stmt s = some s' → s'.buf.gW = s.buf.gW

/-! ## The buffer as a queue -/

theorem nextPlace_eq {i : ℕ} (hi : i < 1024) : nextPlace i = ringNext 1024 i := by
  have h : nextPlace i = (i + 1) % 1024 := Nat.and_two_pow_sub_one_eq_mod (i + 1) 10
  rw [h]
  unfold ringNext
  split_ifs <;> omega

theorem nextPlace_lt {i : ℕ} (hi : i < 1024) : nextPlace i < 1024 := by
  rw [nextPlace_eq hi]
  exact ringNext_lt hi

/-- Both indices are in the array. -/
structure Buffer.InRange (b : Buffer) : Prop where
  r_lt : b.gR < 1024
  w_lt : b.gW < 1024

theorem isIrEventBufFull_iff {b : Buffer} (h : b.InRange) :
    isIrEventBufFull b = true ↔ b.stored.length = 1023 := by
  unfold isIrEventBufFull Buffer.stored
  rw [beq_iff_eq, nextPlace_eq h.w_lt, length_ringContents]
  exact (ringLen_full_iff h.r_lt h.w_lt).symm

/-- A put that succeeds appends the event and leaves the oldest one where it is. -/
theorem irEventPut_stored {b : Buffer} (h : b.InRange) (hfull : isIrEventBufFull b = false)
    (e : IrdaRawEvent) : (irEventPut b e).2.stored = b.stored ++ [e] := by
  have hne : ringNext 1024 b.gW ≠ b.gR := by
    rw [← nextPlace_eq h.w_lt]
    simpa [isIrEventBufFull] using hfull
  unfold irEventPut Buffer.stored
  rw [hfull, if_neg Bool.false_ne_true]
  dsimp only
  rw [nextPlace_eq h.w_lt]
  exact ringContents_push h.r_lt h.w_lt hne e

theorem stored_advance {b : Buffer} (h : b.InRange) (hne : b.gR ≠ b.gW) :
    b.stored = b.gEvents b.gR :: { b with gR := nextPlace b.gR }.stored := by
  unfold Buffer.stored
  dsimp only
  rw [nextPlace_eq h.r_lt]
  exact ringContents_pop h.r_lt h.w_lt hne

theorem isIrEventBufEmpty_iff {b : Buffer} (h : b.InRange) :
    isIrEventBufEmpty b = true ↔ b.stored = [] := by
  rw [isIrEventBufEmpty, beq_iff_eq]
  constructor
  · intro hEq
    unfold Buffer.stored
    rw [hEq]
    exact ringContents_self 1024 b.gEvents b.gW
  · intro hnil
    by_contra hne
    rw [stored_advance h hne] at hnil
    exact absurd hnil (List.cons_ne_nil _ _)

/-! ## Runs -/

/-- The invariant of every run. -/
structure RingInv (s : State) : Prop where
  inRange : s.buf.InRange
  lossless : s.accepted = s.delivered ++ s.buf.stored
  /-- An event is there from the test up to the update of `g_r`. -/
  nonempty : s.pc = .copy ∨ s.pc = .advance → s.buf.gR ≠ s.buf.gW
  /-- It has been copied. -/
  copied : s.pc = .advance → s.pd = s.buf.gEvents s.buf.gR
  /-- Up to the copy, a call has changed nothing. -/
  untouched : s.pc ≠ .idle → s.pc ≠ .advance → s.buf.gR = s.rBefore ∧ s.pd = s.pdBefore
  get_failed : ∀ g ∈ s.gets, g.ret = -1 → g.rAfter = g.rBefore ∧ g.pdAfter = g.pdBefore

theorem ringInv_init : RingInv ringInit where
  inRange := ⟨by decide, by decide⟩
  lossless := rfl
  nonempty := by simp [ringInit]
  copied := nofun
  untouched := fun h => absurd rfl h
  get_failed := nofun

theorem RingInv.put {s s' : State} (h : RingInv s) {e : IrdaRawEvent}
    (hs : ringStep s (.put e) = some s') : RingInv s' := by
  cases hs
  cases hfull : isIrEventBufFull s.buf
  · have hstored := irEventPut_stored h.inRange hfull e
    have hput : irEventPut s.buf e =
        (0, { s.buf with
          gEvents := Function.update s.buf.gEvents s.buf.gW e, gW := nextPlace s.buf.gW }) := by
      unfold irEventPut
      rw [hfull, if_neg Bool.false_ne_true]
    rw [hput] at hstored ⊢
    refine ⟨⟨h.inRange.r_lt, nextPlace_lt h.inRange.w_lt⟩, ?_, ?_, ?_, h.untouched, h.get_failed⟩
    · rw [hstored, if_pos rfl, h.lossless, List.append_assoc]
      rfl
    · intro _ hEq
      have : nextPlace s.buf.gW ≠ s.buf.gR := by simpa [isIrEventBufFull] using hfull
      exact this hEq.symm
    · intro hpc
      show s.pd = Function.update s.buf.gEvents s.buf.gW e s.buf.gR
      rw [Function.update_of_ne (h.nonempty (.inr hpc)), h.copied hpc]
  · have hput : irEventPut s.buf e = (-1, s.buf) := by
      unfold irEventPut
      rw [hfull, if_pos rfl]
    rw [hput]
    exact h

/-- A new call has changed nothing. -/
theorem RingInv.call {s : State} (h : RingInv s) (pd : IrdaRawEvent) (timeoutUs : Word) {pc : Pc}
    (hcopy : pc ≠ .copy) (hadv : pc ≠ .advance) : RingInv (s.call pd timeoutUs pc) where
  inRange := h.inRange
  lossless := h.lossless
  nonempty := fun hpc => absurd hpc (not_or.mpr ⟨hcopy, hadv⟩)
  copied := fun hpc => absurd hpc hadv
  untouched := fun _ _ => ⟨rfl, rfl⟩
  get_failed := h.get_failed

/-- A statement before the copy that only moves on. -/
theorem RingInv.goto {s : State} (h : RingInv s) (hidle : s.pc ≠ .idle) (hadv : s.pc ≠ .advance)
    {pc : Pc} (hadv' : pc ≠ .advance) (hne : pc = .copy → s.buf.gR ≠ s.buf.gW) :
    RingInv { s with pc := pc } where
  inRange := h.inRange
  lossless := h.lossless
  nonempty := by
    rintro (hpc | hpc)
    · exact hne hpc
    · exact absurd hpc hadv'
  copied := fun hpc => absurd hpc hadv'
  untouched := fun _ _ => h.untouched hidle hadv
  get_failed := h.get_failed

theorem RingInv.timeout {s : State} (h : RingInv s) (timeoutUs : Word) :
    RingInv { s with timeoutUs := timeoutUs } :=
  ⟨h.inRange, h.lossless, h.nonempty, h.copied, h.untouched, h.get_failed⟩

theorem delivered_return (s : State) (ret : ℤ) :
    (s.return ret).delivered = if ret = 0 then s.delivered ++ [s.pd] else s.delivered := by
  by_cases hret : ret = 0 <;> simp [State.delivered, State.return, hret]

theorem RingInv.return_failed {s : State} (h : RingInv s) (hidle : s.pc ≠ .idle)
    (hadv : s.pc ≠ .advance) : RingInv (s.return (-1)) where
  inRange := h.inRange
  lossless := by
    rw [delivered_return, if_neg (by decide)]
    exact h.lossless
  nonempty := by simp [State.return]
  copied := nofun
  untouched := fun hpc => absurd rfl hpc
  get_failed := List.forall_mem_append.mpr
    ⟨h.get_failed, List.forall_mem_singleton.mpr fun _ => h.untouched hidle hadv⟩

theorem RingInv.advance {s : State} (h : RingInv s) (hpc : s.pc = .advance) :
    RingInv ({ s with buf := { s.buf with gR := nextPlace s.buf.gR } }.return 0) where
  inRange := ⟨nextPlace_lt h.inRange.r_lt, h.inRange.w_lt⟩
  lossless := by
    rw [delivered_return, if_pos rfl]
    show s.accepted = s.delivered ++ [s.pd] ++ { s.buf with gR := nextPlace s.buf.gR }.stored
    rw [h.lossless, stored_advance h.inRange (h.nonempty (.inr hpc)), h.copied hpc,
      List.append_assoc, List.singleton_append]
  nonempty := by simp [State.return]
  copied := nofun
  untouched := fun hpc => absurd rfl hpc
  get_failed := by
    refine List.forall_mem_append.mpr ⟨h.get_failed, List.forall_mem_singleton.mpr fun hret => ?_⟩
    exact absurd (show (0 : ℤ) = -1 from hret) (by decide)

theorem RingInv.stmt {s s' : State} (h : RingInv s) (hs : stmt s = some s') : RingInv s' := by
  unfold Irda.stmt at hs
  split at hs
  next => cases hs
  next hpc =>
    -- the loop of `ir_event_get_timeout`
    have hidle : s.pc ≠ .idle := by rw [hpc]; nofun
    have hadv : s.pc ≠ .advance := by rw [hpc]; nofun
    have h' := h.timeout (s.timeoutUs - 1)
    dsimp only at hs
    split_ifs at hs <;> cases hs
    · exact h'.return_failed hidle hadv
    · exact h'.goto hidle hadv nofun nofun
  next fn hpc =>
    have hidle : s.pc ≠ .idle := by rw [hpc]; nofun
    have hadv : s.pc ≠ .advance := by rw [hpc]; nofun
    split_ifs at hs with hempty
    · cases fn <;> cases hs
      · exact h.return_failed hidle hadv
      · exact h.goto hidle hadv nofun nofun
    · cases hs
      refine h.goto hidle hadv nofun fun _ => ?_
      simpa [isIrEventBufEmpty] using hempty
  next hpc =>
    cases hs
    exact ⟨h.inRange, h.lossless, fun _ => h.nonempty (.inl hpc), fun _ => rfl,
      fun _ hadv => absurd rfl hadv, h.get_failed⟩
  next hpc =>
    cases hs
    exact h.advance hpc
  next hpc =>
    cases hs
    exact h.goto (by rw [hpc]; nofun) (by rw [hpc]; nofun) nofun nofun

theorem RingInv.step {s s' : State} {a : RingEvent} (h : RingInv s)
    (hs : ringStep s a = some s') : RingInv s' := by
  cases a with
  | put e => exact h.put hs
  | get pd =>
    obtain ⟨-, hs⟩ := Option.ite_none_right_eq_some.mp hs
    cases hs
    exact h.call pd _ nofun nofun
  | getTimeout pd t =>
    obtain ⟨-, hs⟩ := Option.ite_none_right_eq_some.mp hs
    cases hs
    exact h.call pd t nofun nofun
  | stmt => exact h.stmt hs

theorem stmt_gW {s s' : State} (hs : stmt s = some s') : s'.buf.gW = s.buf.gW := by
  unfold stmt at hs
  split at hs
  next => cases hs
  next =>
    dsimp only at hs
    split_ifs at hs <;> cases hs <;> rfl
  next fn _ =>
    split_ifs at hs
    · cases fn <;> cases hs <;> rfl
    · cases hs
      rfl
  all_goals
    cases hs
    rfl

theorem RingInv.fifo {s : State} (h : RingInv s) : Fifo s where
  r_lt := h.inRange.r_lt
  w_lt := h.inRange.w_lt
  lossless := h.lossless
  put_full := by
    intro e
    rw [← isIrEventBufFull_iff h.inRange]
    unfold irEventPut
    split_ifs with hfull <;> simp [hfull]
  put_failed := by
    intro e he
    unfold irEventPut at he ⊢
    split_ifs at he ⊢
    rfl
  get_failed := h.get_failed
  get_w := fun _ hs => stmt_gW hs

/-- In every run, with puts between any two statements of the main code, the
    buffer is a bounded queue. -/
theorem fifo_of_reach (s : State) (h : Reach ringStep anyStep ringInit s) : Fifo s :=
  (h.invariant RingInv ringInv_init fun _ _ _ hinv _ hs => hinv.step hs).fifo

/-- A call on the empty buffer fails; then an event arrives, and a second one
    while the first is being taken out. -/
def putDuringGet : List RingEvent :=
  [.get ⟨0, 7⟩, .stmt, .put ⟨0, 9000⟩, .getTimeout ⟨0, 0⟩ 10, .stmt, .stmt, .stmt, .put ⟨1, 4500⟩,
    .stmt]

theorem fifo_putDuringGet :
    ∃ s, exec ringStep ringInit putDuringGet = some s ∧
      (s.delivered, s.buf.stored) = ([⟨0, 9000⟩], [⟨1, 4500⟩]) ∧ Fifo s := by
  have hlists : (exec ringStep ringInit putDuringGet).map
      (fun s => (s.delivered, s.buf.stored)) = some ([⟨0, 9000⟩], [⟨1, 4500⟩]) := by
    decide +kernel
  obtain ⟨s, hs, hlists⟩ := Option.map_eq_some_iff.mp hlists
  exact ⟨s, hs, hlists, fifo_of_reach s (.of_exec hs)⟩

end Jz2440.Irda
