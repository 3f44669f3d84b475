import Jz2440.Common.History
import Jz2440.Common.Runs
import Mathlib.Data.Fin.Basic
import Mathlib.Logic.Function.Basic

/-!
# The interrupt dispatcher

Model of `handle_irq_c` and `register_irq` in `interrupt.c` of
`hard_driver/first_hard/025_sensors_022/007_irda_nec_ok_022_009`. A source latches its
request in `SRCPND`, where a second request is not seen beside the first. The
dispatcher runs when an unmasked request is pending; it calls the handler and clears
the bit of `SRCPND` after that. IRQs are not nested.

A history records the requests and the calls of the handlers. What a handler does is
left out: it does not touch `SRCPND`, `INTPND` or `INTMSK`.

* `dispatchStep_preserves`: what one step preserves if no source raises a request
  between the start of its handler and the write to `SRCPND`.
* `requests_kept`: in every run of such steps each request is still latched or a call
  of its handler came after it.
* `request_lost_in_handler`: a request that comes while its handler runs is lost.
-/

namespace Jz2440.Interrupt

open Jz2440.Common

/-- A bit of `SRCPND`, `INTPND` and `INTMSK`. -/
abbrev Source := Fin 32

/-- A source raises a request, or the dispatcher calls its handler. -/
inductive IrqEvent
  | raised (b : Source)
  | invoked (b : Source)
  deriving DecidableEq

/-- The next statement of `handle_irq_c` (interrupt.c:120-131). -/
inductive DispatchPc
  | idle
  /-- `irq_array[bit](bit)` -/
  | call (bit : Source)
  /-- inside of the handler -/
  | handling (bit : Source)
  /-- `SRCPND = (1<<bit)` -/
  | clearSrc (bit : Source)
  /-- `INTPND = (1<<bit)` -/
  | clearInt (bit : Source)
  deriving DecidableEq

/-- The registers as sets of bits, the dispatcher and the history. `INTPND` holds the one
    request that the controller has chosen. -/
structure Dispatcher where
  srcpnd : Source → Bool
  intmsk : Source → Bool
  intpnd : Option Source
  pc : DispatchPc
  log : List IrqEvent

inductive DispatchStep
  /-- a source raises a request -/
  | raise (b : Source)
  /-- the main program calls `register_irq` -/
  | register (irq : Source)
  /-- the controller chooses a pending request -/
  | choose (b : Source)
  /-- `handle_irq_c` is entered, or it goes on with its next statement -/
  | go
  deriving DecidableEq

/-- `SRCPND` and `INTPND` are cleared by writing a 1. -/
def clearBit (bits : Source → Bool) (b : Source) : Source → Bool := Function.update bits b false

def dispatchStep (s : Dispatcher) : DispatchStep → Option Dispatcher
  | .raise b => some { s with
      srcpnd := Function.update s.srcpnd b true
      log := s.log ++ [.raised b] }
  | .register irq =>
    if s.pc = .idle then some { s with intmsk := Function.update s.intmsk irq false } else none
  | .choose b =>
    if s.intpnd = none ∧ s.srcpnd b = true ∧ s.intmsk b = false then
      some { s with intpnd := some b }
    else none
  | .go =>
    match s.pc with
    | .idle =>
      match s.intpnd with
      | none => none
      | some bit => some { s with pc := .call bit }
    | .call bit => some { s with pc := .handling bit, log := s.log ++ [.invoked bit] }
    | .handling bit => some { s with pc := .clearSrc bit }
    | .clearSrc bit => some { s with srcpnd := clearBit s.srcpnd bit, pc := .clearInt bit }
    | .clearInt _ => some { s with intpnd := none, pc := .idle }

/-- After reset: everything is masked and nothing is pending. -/
def dispatchInit : Dispatcher := ⟨fun _ => false, fun _ => true, none, .idle, []⟩

/-- A request was raised and its handler has not been called since. -/
def Unserved (b : Source) (log : List IrqEvent) : Prop := After (· = .raised b) (· = .invoked b) log

/-- Every unserved request is still latched. -/
def RequestsKept (s : Dispatcher) : Prop := ∀ b, Unserved b s.log → s.srcpnd b = true

/-- The handler of `b` has started and `SRCPND` was not yet cleared for it. -/
def DispatchPc.serving (pc : DispatchPc) (b : Source) : Bool :=
  match pc with
  | .handling bit => bit == b
  | .clearSrc bit => bit == b
  | _ => false

/-- No source raises a request while it is served. -/
def RaisesApart (s : Dispatcher) : DispatchStep → Prop
  | .raise b => s.pc.serving b = false
  | _ => True

instance (s : Dispatcher) : (e : DispatchStep) → Decidable (RaisesApart s e)
  | .raise _ => inferInstanceAs (Decidable (_ = _))
  | .register _ => isTrue trivial
  | .choose _ => isTrue trivial
  | .go => isTrue trivial

/-! ## The invariant -/

theorem unserved_raised (b c : Source) (log : List IrqEvent) :
    Unserved c (log ++ [.raised b]) ↔ b = c ∨ Unserved c log := by
  rw [Unserved, after_append]
  simp [Unserved]

theorem unserved_invoked (b c : Source) (log : List IrqEvent) :
    Unserved c (log ++ [.invoked b]) ↔ b ≠ c ∧ Unserved c log := by
  rw [Unserved, after_append]
  simp [Unserved]

structure DispatchInv (s : Dispatcher) : Prop where
  kept : RequestsKept s
  /-- nothing is left unserved when `SRCPND` is about to be cleared -/
  served : ∀ b, s.pc.serving b = true → ¬ Unserved b s.log

theorem dispatchInv_init : DispatchInv dispatchInit :=
  ⟨fun _ h => absurd h (not_after_nil _ _), nofun⟩

theorem dispatchInv_raise {s : Dispatcher} (hs : DispatchInv s) (b : Source)
    (hok : s.pc.serving b = false) : DispatchInv { s with
      srcpnd := Function.update s.srcpnd b true
      log := s.log ++ [.raised b] } := by
  refine ⟨fun c hc => ?_, fun c hserving hc => ?_⟩
  · by_cases hcb : c = b
    · rw [hcb]
      exact Function.update_self b true s.srcpnd
    · show Function.update s.srcpnd b true c = true
      rw [Function.update_of_ne hcb]
      exact hs.kept c (((unserved_raised b c s.log).mp hc).resolve_left fun h => hcb h.symm)
  · rcases (unserved_raised b c s.log).mp hc with rfl | hc
    · exact absurd (hok.symm.trans hserving) Bool.false_ne_true
    · exact hs.served c hserving hc

/-- The handler is called: from now on nothing of its source is unserved. -/
theorem dispatchInv_call {s : Dispatcher} (hs : DispatchInv s) (bit : Source) :
    DispatchInv { s with pc := .handling bit, log := s.log ++ [.invoked bit] } := by
  refine ⟨fun c hc => ?_, fun c hserving hc => ?_⟩
  · exact hs.kept c ((unserved_invoked bit c s.log).mp hc).2
  · have hne := ((unserved_invoked bit c s.log).mp hc).1
    exact hne (beq_iff_eq.mp hserving)

/-- `SRCPND` is cleared for a source that has nothing unserved. -/
theorem dispatchInv_clearSrc {s : Dispatcher} (hs : DispatchInv s) (bit : Source)
    (hserved : ¬ Unserved bit s.log) :
    DispatchInv { s with srcpnd := clearBit s.srcpnd bit, pc := .clearInt bit } := by
  refine ⟨fun c hc => ?_, nofun⟩
  by_cases hcb : c = bit
  · rw [hcb] at hc
    exact absurd hc hserved
  · show Function.update s.srcpnd bit false c = true
    rw [Function.update_of_ne hcb]
    exact hs.kept c hc

theorem dispatchInv_go {s s' : Dispatcher} (hs : DispatchInv s)
    (h : dispatchStep s .go = some s') : DispatchInv s' := by
  obtain ⟨srcpnd, intmsk, intpnd, pc, log⟩ := s
  cases pc with
  | idle =>
    cases intpnd with
    | none => exact absurd h nofun
    | some bit =>
      obtain rfl := Option.some.inj h
      exact ⟨hs.kept, nofun⟩
  | call bit =>
    obtain rfl := Option.some.inj h
    exact dispatchInv_call hs bit
  | handling bit =>
    obtain rfl := Option.some.inj h
    exact ⟨hs.kept, hs.served⟩
  | clearSrc bit =>
    obtain rfl := Option.some.inj h
    exact dispatchInv_clearSrc hs bit (hs.served bit (beq_self_eq_true bit))
  | clearInt bit =>
    obtain rfl := Option.some.inj h
    exact ⟨hs.kept, nofun⟩

theorem dispatchStep_preserves (s : Dispatcher) (e : DispatchStep) (s' : Dispatcher)
    (hs : DispatchInv s) (hok : RaisesApart s e) (h : dispatchStep s e = some s') :
    DispatchInv s' := by
  cases e with
  | raise b =>
    obtain rfl := Option.some.inj h
    exact dispatchInv_raise hs b hok
  | register irq =>
    obtain ⟨-, h⟩ := Option.ite_none_right_eq_some.mp h
    obtain rfl := Option.some.inj h
    exact ⟨hs.kept, hs.served⟩
  | choose b =>
    obtain ⟨-, h⟩ := Option.ite_none_right_eq_some.mp h
    obtain rfl := Option.some.inj h
    exact ⟨hs.kept, hs.served⟩
  | go => exact dispatchInv_go hs h

/-! ## Runs -/

/-- If no source raises a request between the start of its handler and the write to
    `SRCPND`, every request is still latched or was followed by a call of the handler. -/
theorem requests_kept (s : Dispatcher) (h : Reach dispatchStep RaisesApart dispatchInit s) :
    RequestsKept s :=
  (h.invariant DispatchInv dispatchInv_init dispatchStep_preserves).kept

/-- Two edges of the IR pin (EINT1), the second one after `SRCPND` was cleared. -/
def edgesApart : List DispatchStep :=
  [.register 1, .raise 1, .choose 1, .go, .go, .go, .go, .raise 1, .go]

theorem requests_kept_edgesApart :
    ∃ s, exec dispatchStep dispatchInit edgesApart = some s ∧
      s.log = [.raised 1, .invoked 1, .raised 1] ∧ RequestsKept s := by
  have hrun : (exec (guarded dispatchStep RaisesApart) dispatchInit edgesApart).map
      (fun s => s.log) = some [.raised 1, .invoked 1, .raised 1] := by decide +kernel
  obtain ⟨s, hs, hlog⟩ := Option.map_eq_some_iff.mp hrun
  exact ⟨s, exec_of_guarded hs, hlog, requests_kept s (.of_exec_guarded hs)⟩

/-- The second edge comes while `irda_irq` still runs: it is neither latched nor served. -/
theorem request_lost_in_handler :
    ∃ s, Reach dispatchStep anyStep dispatchInit s ∧
      s.log = [.raised 1, .invoked 1, .raised 1] ∧ s.srcpnd 1 = false ∧ ¬ RequestsKept s := by
  have hrun : (exec dispatchStep dispatchInit
      [.register 1, .raise 1, .choose 1, .go, .go, .raise 1, .go, .go, .go]).map
      (fun s => (s.log, s.srcpnd 1)) =
      some ([.raised 1, .invoked 1, .raised 1], false) := by decide +kernel
  obtain ⟨s, hs, hobs⟩ := Option.map_eq_some_iff.mp hrun
  obtain ⟨hlog, hsrc⟩ := Prod.mk.inj hobs
  refine ⟨s, .of_exec hs, hlog, hsrc, fun hkept => ?_⟩
  have hunserved : Unserved 1 s.log := by
    rw [hlog]
    exact (unserved_raised 1 1 [.raised 1, .invoked 1]).mpr (.inl rfl)
  exact absurd (hsrc.symm.trans (hkept 1 hunserved)) Bool.false_ne_true

end Jz2440.Interrupt
