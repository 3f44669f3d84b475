import Jz2440.Common.Bytes
import Jz2440.Common.Runs
import Mathlib.Data.Fin.Basic
import Mathlib.Logic.Function.Basic

/-!
# The counting button driver

Model of `drivers_and_test/buttons/s3c24xx_buttons.c`. `buttons_interrupt` increments
the counter of its key, and `s3c24xx_buttons_read` copies the counters to the user and
then sets all of them to zero. The interrupt may come between any two statements of
the read. A short `count` copies only the first bytes of the four `int`s, which are
stored with the low byte first.

* `countStep_preserves`: what one step preserves if no interrupt comes between the copy
  and the `memset`, and every counter fits into the bytes that are copied of it.
* `presses_accounted`: in every run of such steps each interrupt is either counted by a
  read that has returned or still in the counter.
* `presses_lost_by_preemption`: a press between the copy and the `memset` is lost.
-/

namespace Jz2440.Buttons

open Jz2440.Common

/-- The next statement of `s3c24xx_buttons_read`, with its `count` argument and, after the
    copy, with what the user has got for each key. -/
inductive CountPc
  | idle
  | wait (count : ℕ)
  | clearFlag (count : ℕ)
  | copy (count : ℕ)
  | memset (copied : Fin 4 → ℕ)

/-- The driver's variables, the number of interrupts of each key, and the sum of the
    counts that reads have delivered. -/
structure Counting where
  pressCnt : Fin 4 → Word
  evPress : Bool
  pc : CountPc
  interrupts : Fin 4 → ℕ
  delivered : Fin 4 → ℕ

/-- What may happen next: an interrupt of a key, a call of read, its next statement, or a
    signal that ends the sleep. -/
inductive CountEvent
  | interrupt (i : Fin 4)
  | call (count : ℕ)
  | go
  | signal
  deriving DecidableEq

/-- `buttons_interrupt` (s3c24xx_buttons.c:42-51). -/
def buttonsInterrupt (i : Fin 4) (s : Counting) : Counting :=
  { s with
    pressCnt := Function.update s.pressCnt i (s.pressCnt i + 1)
    evPress := true
    interrupts := Function.update s.interrupts i (s.interrupts i + 1) }

/-- The number of bytes of `press_cnt[i]` among the first `min(sizeof(press_cnt), count)`
    bytes of the array. -/
def bytesCopied (count : ℕ) (i : Fin 4) : ℕ := min 4 (min 16 count - 4 * i)

/-- The count of key `i` that these bytes make up. -/
def countCopied (count : ℕ) (pressCnt : Fin 4 → Word) (i : Fin 4) : ℕ :=
  (pressCnt i).toNat % 256 ^ bytesCopied count i

/-- One event; `s3c24xx_buttons_read` is s3c24xx_buttons.c:101-117. The result of
    `wait_event_interruptible` is ignored, so a signal lets the read go on. -/
def countStep (s : Counting) : CountEvent → Option Counting
  | .interrupt i => some (buttonsInterrupt i s)
  | .call count =>
    match s.pc with
    | .idle => some { s with pc := .wait count }
    | _ => none
  | .go =>
    match s.pc with
    | .idle => none
    | .wait count => if s.evPress then some { s with pc := .clearFlag count } else none
    | .clearFlag count => some { s with evPress := false, pc := .copy count }
    | .copy count => some { s with pc := .memset (countCopied count s.pressCnt) }
    | .memset copied => some { s with
        pressCnt := fun _ => 0
        delivered := fun i => s.delivered i + copied i
        pc := .idle }
  | .signal =>
    match s.pc with
    | .wait count => some { s with pc := .clearFlag count }
    | _ => none

def countInit : Counting := ⟨fun _ => 0, false, .idle, fun _ => 0, fun _ => 0⟩

/-- Every interrupt of every key is delivered or still counted. -/
def Accounted (s : Counting) : Prop :=
  ∀ i, (s.interrupts i : ℤ) = s.delivered i + (s.pressCnt i).toInt

/-- The counters have been copied and not yet set to zero. -/
def CountPc.hasCopied : CountPc → Bool
  | .memset _ => true
  | _ => false

/-- At the copy every counter fits into the bytes that are copied of it. -/
def CopyFits (pressCnt : Fin 4 → Word) : CountPc → Prop
  | .copy count => ∀ i, (pressCnt i).toNat < 256 ^ bytesCopied count i
  | _ => True

/-- No interrupt comes between the copy and the `memset`, none makes its counter overflow,
    and nothing is cut off at the copy. -/
def LosesNothing (s : Counting) : CountEvent → Prop
  | .interrupt i => (s.pressCnt i).toNat + 1 < 2 ^ 31 ∧ s.pc.hasCopied = false
  | .go => CopyFits s.pressCnt s.pc
  | _ => True

instance (pressCnt : Fin 4 → Word) : (pc : CountPc) → Decidable (CopyFits pressCnt pc)
  | .copy _ => inferInstanceAs (Decidable (∀ _, _))
  | .idle => isTrue trivial
  | .wait _ => isTrue trivial
  | .clearFlag _ => isTrue trivial
  | .memset _ => isTrue trivial

instance (s : Counting) : (e : CountEvent) → Decidable (LosesNothing s e)
  | .interrupt _ => inferInstanceAs (Decidable (_ ∧ _))
  | .go => inferInstanceAs (Decidable (CopyFits _ _))
  | .call _ => isTrue trivial
  | .signal => isTrue trivial

/-! ## The invariant -/

structure CountInv (s : Counting) : Prop where
  small : ∀ i, (s.pressCnt i).toNat < 2 ^ 31
  accounted : ∀ i, s.interrupts i = s.delivered i + (s.pressCnt i).toNat
  copied : ∀ copied, s.pc = .memset copied → ∀ i, copied i = (s.pressCnt i).toNat

theorem countInv_init : CountInv countInit :=
  ⟨fun _ => Nat.two_pow_pos 31, fun _ => rfl, nofun⟩

theorem CountInv.accounted_int {s : Counting} (hs : CountInv s) : Accounted s := by
  intro i
  have hsmall := hs.small i
  rw [hs.accounted i, BitVec.toInt_eq_toNat_of_lt (by omega)]
  push_cast
  rfl

theorem countInv_interrupt {s : Counting} (hs : CountInv s) (i : Fin 4)
    (hok : LosesNothing s (.interrupt i)) : CountInv (buttonsInterrupt i s) := by
  obtain ⟨hsmall, hpc⟩ := hok
  have hinc : (s.pressCnt i + 1).toNat = (s.pressCnt i).toNat + 1 := by
    rw [BitVec.toNat_add]
    exact Nat.mod_eq_of_lt (by show (s.pressCnt i).toNat + 1 < _; omega)
  refine ⟨?_, fun j => ?_, fun copied hmemset => ?_⟩
  · refine (Function.forall_update_iff s.pressCnt fun _ cnt => cnt.toNat < 2 ^ 31).mpr ⟨?_, ?_⟩
    · rw [hinc]
      exact hsmall
    · exact fun j _ => hs.small j
  · by_cases hj : j = i
    · simp only [buttonsInterrupt, hj, Function.update_self, hinc, hs.accounted i]
      omega
    · simp only [buttonsInterrupt, Function.update_of_ne hj]
      exact hs.accounted j
  · rw [show s.pc = .memset copied from hmemset] at hpc
    exact Bool.noConfusion hpc

theorem countInv_go {s s' : Counting} (hs : CountInv s) (hok : LosesNothing s .go)
    (h : countStep s .go = some s') : CountInv s' := by
  obtain ⟨hsmall, haccounted, hcopied⟩ := hs
  cases hpc : s.pc with
  | idle => simp [countStep, hpc] at h
  | wait count =>
    simp only [countStep, hpc, Option.ite_none_right_eq_some, Option.some.injEq] at h
    obtain ⟨-, rfl⟩ := h
    exact ⟨hsmall, haccounted, nofun⟩
  | clearFlag count =>
    simp only [countStep, hpc, Option.some.injEq] at h
    subst h
    exact ⟨hsmall, haccounted, nofun⟩
  | copy count =>
    simp only [LosesNothing, hpc, CopyFits] at hok
    simp only [countStep, hpc, Option.some.injEq] at h
    subst h
    refine ⟨hsmall, haccounted, ?_⟩
    rintro copied ⟨⟩ i
    exact Nat.mod_eq_of_lt (hok i)
  | memset copied =>
    simp only [countStep, hpc, Option.some.injEq] at h
    subst h
    refine ⟨fun _ => Nat.two_pow_pos 31, fun i => ?_, nofun⟩
    show s.interrupts i = s.delivered i + copied i + 0
    rw [haccounted i, hcopied copied hpc i, Nat.add_zero]

theorem countStep_preserves (s : Counting) (e : CountEvent) (s' : Counting) (hs : CountInv s)
    (hok : LosesNothing s e) (h : countStep s e = some s') : CountInv s' := by
  cases e with
  | interrupt i =>
    obtain rfl := Option.some.inj h
    exact countInv_interrupt hs i hok
  | call count =>
    simp only [countStep] at h
    split at h
    · obtain rfl := Option.some.inj h
      exact ⟨hs.small, hs.accounted, nofun⟩
    · exact absurd h nofun
  | go => exact countInv_go hs hok h
  | signal =>
    simp only [countStep] at h
    split at h
    · obtain rfl := Option.some.inj h
      exact ⟨hs.small, hs.accounted, nofun⟩
    · exact absurd h nofun

/-! ## Runs -/

/-- As long as nothing is lost at a single step, every press is accounted for in every
    state. -/
theorem presses_accounted (s : Counting) (h : Reach countStep LosesNothing countInit s) :
    Accounted s :=
  (h.invariant CountInv countInv_init countStep_preserves).accounted_int

/-- Two presses of the first key, one of the last, a read, and another press. -/
def pressAndRead : List CountEvent :=
  [.interrupt 0, .interrupt 0, .interrupt 3, .call 16, .go, .go, .go, .go, .interrupt 0]

theorem presses_accounted_pressAndRead :
    ∃ s, exec countStep countInit pressAndRead = some s ∧ s.delivered 0 = 2 ∧ Accounted s := by
  have hrun : (exec (guarded countStep LosesNothing) countInit pressAndRead).map
      (fun s => s.delivered 0) = some 2 := by decide +kernel
  obtain ⟨s, hs, hdelivered⟩ := Option.map_eq_some_iff.mp hrun
  exact ⟨s, exec_of_guarded hs, hdelivered, presses_accounted s (.of_exec_guarded hs)⟩

/-- A press between the copy and the `memset` is lost. -/
theorem presses_lost_by_preemption :
    ¬ ∀ s, Reach countStep anyStep countInit s → Accounted s := by
  intro h
  have hrun : (exec countStep countInit
      [.interrupt 0, .call 16, .go, .go, .go, .interrupt 0, .go]).map
      (fun s => (s.interrupts 0, s.delivered 0, s.pressCnt 0)) = some (2, 1, 0) := by
    decide +kernel
  obtain ⟨s, hs, hobs⟩ := Option.map_eq_some_iff.mp hrun
  simp only [Prod.mk.injEq] at hobs
  obtain ⟨hinterrupts, hdelivered, hcnt⟩ := hobs
  have hsum := h s (.of_exec hs) 0
  rw [hinterrupts, hdelivered, hcnt] at hsum
  exact absurd hsum (by decide)

end Jz2440.Buttons
