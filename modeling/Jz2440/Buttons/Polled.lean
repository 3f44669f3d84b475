import Jz2440.Common.Bytes
import Jz2440.Common.History
import Jz2440.Common.Runs

/-!
# The polled keys

Model of `key_timer_handle` in
`hard_driver/friendlyArm/polling_key/completion/driver/poll_key_drv.c`. The timer function looks
at six keys every 20 ms. A key is taken as pressed when its pin was low twice in a row; the
counter `pressed[i]` stops at 3, so that a key that is held down is not taken as pressed again.

`key_read` resets `ev_press` and `key_values`, and the timer may come between these two. The
level of each pin is what the call reads there; a pressed key makes its pin low. `printk`,
`wake_up_interruptible` and `add_timer` change nothing in this state.

* `keyPass_spec`: what one pass of the loop does to its key, in terms of the low samples so far.
* `keyTimerHandle_exact`: what one call does.
* `polled_exact`: in every run the calls that assign `key_values[i]` are those at which a run of
  low samples of key `i` reaches length 2.
-/

namespace Jz2440.Buttons

open Jz2440.Common

/-! ## The code -/

/-- `MAX_KEYS` (poll_key_drv.c:43). -/
def maxKeys : ℕ := 6

/-- `pressed`, `key_values` and `ev_press`, and the keys whose `key_values` the last call of
    `key_timer_handle` has assigned, in the order of the assignments. The code does not have
    the latter. -/
structure Polled where
  pressed : ℕ → Byte
  keyValues : ℕ → ℕ
  evPress : Bool
  assigned : List ℕ

/-- `pressed[i] ++; if(pressed[i] > 2) pressed[i] = 3;` (poll_key_drv.c:86-87). -/
def countPressed (i : ℕ) (s : Polled) : Polled :=
  let s := { s with pressed := Function.update s.pressed i (s.pressed i + 1) }
  if s.pressed i > 2 then { s with pressed := Function.update s.pressed i 3 } else s

/-- `key_values[i] = i + 1; ev_press = 1;` (poll_key_drv.c:92-93). -/
def raiseEvent (i : ℕ) (s : Polled) : Polled :=
  { s with
    keyValues := Function.update s.keyValues i (i + 1)
    evPress := true
    assigned := s.assigned ++ [i] }

/-- One pass of the loop of `key_timer_handle` (poll_key_drv.c:83-100). -/
def keyPass (down : Bool) (i : ℕ) (s : Polled) : Polled :=
  let s := if down = false then countPressed i s else s
  let s := if down = false ∧ s.pressed i = 2 then raiseEvent i s else s
  if down = true ∧ s.pressed i ≠ 0 then { s with pressed := Function.update s.pressed i 0 } else s

/-- `key_timer_handle` (poll_key_drv.c:74-104). -/
def keyTimerHandle (down : ℕ → Bool) (s : Polled) : Polled :=
  (List.range maxKeys).foldl (fun s i => keyPass (down i) i s) { s with assigned := [] }

/-! ## Runs -/

/-- A call of `key_timer_handle`: the levels that it has read, and the variables before and
    after it. -/
structure Tick where
  down : ℕ → Bool
  before : Polled
  after : Polled

/-- The variables and the calls so far. -/
structure PolledRun where
  keys : Polled
  ticks : List Tick

/-- The timer function, or one of the two assignments of `key_read` (poll_key_drv.c:142, 146). -/
inductive PollEvent
  | tick (down : ℕ → Bool)
  | clearEvPress
  | clearKeyValues

def pollStep (s : PolledRun) : PollEvent → Option PolledRun
  | .tick down =>
    let keys := keyTimerHandle down s.keys
    some ⟨keys, s.ticks ++ [⟨down, s.keys, keys⟩]⟩
  | .clearEvPress => some { s with keys := { s.keys with evPress := false } }
  | .clearKeyValues => some { s with keys := { s.keys with keyValues := fun _ => 0 } }

/-- The static variables at the start. -/
def pollInit : PolledRun := ⟨⟨fun _ => 0, fun _ => 0, false, []⟩, []⟩

/-- The length of the run of low samples of key `i` that the calls end with. -/
def lowRun (i : ℕ) (ticks : List Tick) : ℕ := lastRun (fun t => !t.down i) ticks

/-- The call assigns `key_values[i] = i + 1` and `ev_press = 1` for the keys whose run of low
    samples it brings to length 2, once for each, and for no other key. -/
structure EventsExact (ticks : List Tick) (t : Tick) : Prop where
  assigned : t.after.assigned = (List.range maxKeys).filter fun i => lowRun i (ticks ++ [t]) = 2
  value : ∀ i ∈ t.after.assigned, t.after.keyValues i = i + 1 ∧ t.after.evPress = true
  otherValue : ∀ i, i ∉ t.after.assigned → t.after.keyValues i = t.before.keyValues i
  noEvent : t.after.assigned = [] → t.after.evPress = t.before.evPress

/-! ## One key -/

/-- A run of low samples after one more sample. -/
def nextRun (down : Bool) (n : ℕ) : ℕ := if down then 0 else n + 1

theorem lowRun_append (i : ℕ) (ticks : List Tick) (t : Tick) :
    lowRun i (ticks ++ [t]) = nextRun (t.down i) (lowRun i ticks) := by
  rw [lowRun, lastRun_append, nextRun]
  cases t.down i <;> rfl

/-- The counter of a run of `n` low samples. -/
def counter (n : ℕ) : Byte := BitVec.ofNat 8 (min 3 n)

theorem countPressed_eq {s : Polled} {i n : ℕ} (h : s.pressed i = counter n) :
    countPressed i s = { s with pressed := Function.update s.pressed i (counter (n + 1)) } := by
  unfold countPressed
  simp only [Function.update_self, Function.update_idem, h]
  by_cases hn : n < 2
  · have hsmall : ∀ m < 2, ¬ counter m + 1 > 2 ∧ counter m + 1 = counter (m + 1) := by decide
    rw [if_neg (hsmall n hn).1, (hsmall n hn).2]
  · have hsat : min 3 (n + 1) = 3 := by omega
    have hbig : counter n + 1 > 2 := by
      obtain hmin | hmin : min 3 n = 2 ∨ min 3 n = 3 := by omega
      · rw [counter, hmin]
        decide
      · rw [counter, hmin]
        decide
    rw [if_pos hbig, counter, hsat]
    rfl

theorem counter_eq_two_iff (n : ℕ) : counter n = 2 ↔ n = 2 := by
  obtain rfl | rfl | rfl | hn : n = 0 ∨ n = 1 ∨ n = 2 ∨ 3 ≤ n := by omega
  · decide
  · decide
  · decide
  · rw [counter, Nat.min_eq_left hn]
    exact iff_of_false (by decide) (by omega)

theorem keyPass_high (i : ℕ) (s : Polled) :
    keyPass true i s = { s with pressed := Function.update s.pressed i 0 } := by
  simp only [keyPass, Bool.true_eq_false, if_false, false_and, true_and]
  by_cases hzero : s.pressed i = 0
  · have hsame : Function.update s.pressed i 0 = s.pressed := by
      rw [← hzero, Function.update_eq_self]
    rw [if_neg (not_not.mpr hzero), hsame]
  · rw [if_pos hzero]

theorem keyPass_low (i : ℕ) (s : Polled) :
    keyPass false i s =
      (if (countPressed i s).pressed i = 2 then raiseEvent i else id) (countPressed i s) := by
  simp only [keyPass, true_and, if_true, Bool.false_eq_true, false_and, if_false]
  split_ifs <;> rfl

/-- A pass of the loop sets the counter of its key to the new length of the run, and raises an
    event if that is 2. -/
theorem keyPass_spec {s : Polled} {i n : ℕ} (h : s.pressed i = counter n) (down : Bool) :
    keyPass down i s =
      (if nextRun down n = 2 then raiseEvent i else id)
        { s with pressed := Function.update s.pressed i (counter (nextRun down n)) } := by
  cases down with
  | true => exact keyPass_high i s
  | false =>
    rw [keyPass_low, countPressed_eq h]
    simp only [Function.update_self, counter_eq_two_iff]
    rfl

/-! ## One call -/

/-- After the passes for the keys below `k`, where `run i` is the new length of the run of
    low samples of key `i` and `n i` the one before. -/
structure PassedUpTo (n run : ℕ → ℕ) (s₀ : Polled) (k : ℕ) (s : Polled) : Prop where
  done : ∀ i < k, s.pressed i = counter (run i)
  rest : ∀ i, k ≤ i → s.pressed i = counter (n i)
  assigned : s.assigned = (List.range k).filter fun i => run i = 2
  value : ∀ i ∈ s.assigned, s.keyValues i = i + 1 ∧ s.evPress = true
  otherValue : ∀ i, i ∉ s.assigned → s.keyValues i = s₀.keyValues i
  noEvent : s.assigned = [] → s.evPress = s₀.evPress

section Pass

variable {n run : ℕ → ℕ} {s₀ s : Polled} {k : ℕ}

/-- The counters after the pass for key `k`. -/
theorem PassedUpTo.pressed_next (h : PassedUpTo n run s₀ k s) :
    (∀ i < k + 1, Function.update s.pressed k (counter (run k)) i = counter (run i)) ∧
      ∀ i, k + 1 ≤ i → Function.update s.pressed k (counter (run k)) i = counter (n i) := by
  constructor
  · intro i hi
    by_cases hik : i = k
    · rw [hik, Function.update_self]
    · rw [Function.update_of_ne hik]
      exact h.done i (by omega)
  · intro i hi
    rw [Function.update_of_ne (by omega)]
    exact h.rest i (by omega)

/-- The keys with an event after the pass for key `k`. -/
theorem PassedUpTo.assigned_next (h : PassedUpTo n run s₀ k s) :
    (List.range (k + 1)).filter (fun i => run i = 2) =
      s.assigned ++ if run k = 2 then [k] else [] := by
  rw [List.range_succ, List.filter_append, ← h.assigned]
  by_cases htwo : run k = 2 <;> simp [htwo]

theorem PassedUpTo.not_mem_assigned (h : PassedUpTo n run s₀ k s) : k ∉ s.assigned := by
  rw [h.assigned]
  simp

theorem PassedUpTo.next (h : PassedUpTo n run s₀ k s) {down : Bool}
    (hrun : run k = nextRun down (n k)) : PassedUpTo n run s₀ (k + 1) (keyPass down k s) := by
  obtain ⟨hdone, hrest⟩ := h.pressed_next
  have hrange := h.assigned_next
  rw [keyPass_spec (h.rest k le_rfl), ← hrun]
  by_cases htwo : run k = 2
  · rw [if_pos htwo] at hrange ⊢
    refine ⟨hdone, hrest, hrange.symm, ?_, ?_, ?_⟩
    · intro i hi
      refine ⟨?_, rfl⟩
      show Function.update s.keyValues k (k + 1) i = i + 1
      obtain hi | hi := List.mem_append.mp hi
      · rw [Function.update_of_ne (ne_of_mem_of_not_mem hi h.not_mem_assigned)]
        exact (h.value i hi).1
      · rw [List.mem_singleton.mp hi, Function.update_self]
    · intro i hi
      obtain ⟨hi, hik⟩ := not_or.mp (mt List.mem_append.mpr hi)
      show Function.update s.keyValues k (k + 1) i = s₀.keyValues i
      rw [Function.update_of_ne (mt List.mem_singleton.mpr hik)]
      exact h.otherValue i hi
    · intro hnil
      exact absurd hnil (List.append_ne_nil_of_right_ne_nil _ (List.cons_ne_nil k []))
  · rw [if_neg htwo, List.append_nil] at hrange
    rw [if_neg htwo]
    exact ⟨hdone, hrest, hrange.symm, h.value, h.otherValue, h.noEvent⟩

end Pass

theorem keyTimerHandle_passes {n : ℕ → ℕ} {s : Polled} (h : ∀ i, s.pressed i = counter (n i))
    (down : ℕ → Bool) (k : ℕ) :
    PassedUpTo n (fun i => nextRun (down i) (n i)) s k
      ((List.range k).foldl (fun s i => keyPass (down i) i s) { s with assigned := [] }) := by
  induction k with
  | zero =>
    exact ⟨fun i hi => absurd hi (Nat.not_lt_zero i), fun i _ => h i, rfl,
      fun i hi => absurd hi List.not_mem_nil, fun i _ => rfl, fun _ => rfl⟩
  | succ k ih =>
    rw [List.range_succ, List.foldl_append]
    exact ih.next rfl

theorem keyTimerHandle_exact {ticks : List Tick} {s : Polled}
    (h : ∀ i, s.pressed i = counter (if i < maxKeys then lowRun i ticks else 0)) (down : ℕ → Bool) :
    EventsExact ticks ⟨down, s, keyTimerHandle down s⟩ ∧
      ∀ i, (keyTimerHandle down s).pressed i = counter (if i < maxKeys then
        lowRun i (ticks ++ [⟨down, s, keyTimerHandle down s⟩]) else 0) := by
  have hpasses := keyTimerHandle_passes h down maxKeys
  have hrun : ∀ i < maxKeys, nextRun (down i) (if i < maxKeys then lowRun i ticks else 0) =
      lowRun i (ticks ++ [⟨down, s, keyTimerHandle down s⟩]) := by
    intro i hi
    rw [if_pos hi, lowRun_append]
  constructor
  · refine ⟨hpasses.assigned.trans ?_, hpasses.value, hpasses.otherValue, hpasses.noEvent⟩
    refine List.filter_congr fun i hi => ?_
    rw [hrun i (List.mem_range.mp hi)]
  · intro i
    split_ifs with hi
    · rw [← hrun i hi]
      exact hpasses.done i hi
    · have hrest := hpasses.rest i (not_lt.mp hi)
      rwa [if_neg hi] at hrest

/-! ## Every run -/

/-- `pressed` counts the low samples up to 3, and every call so far has raised the events that
    it should. -/
structure PolledInv (s : PolledRun) : Prop where
  pressed : ∀ i, s.keys.pressed i = counter (if i < maxKeys then lowRun i s.ticks else 0)
  exact : EachTime EventsExact s.ticks

theorem polledInv_init : PolledInv pollInit := by
  refine ⟨fun i => ?_, eachTime_nil _⟩
  split_ifs <;> rfl

theorem PolledInv.step {s s' : PolledRun} {e : PollEvent} (h : PolledInv s)
    (hstep : pollStep s e = some s') : PolledInv s' := by
  cases e with
  | tick down =>
    cases hstep
    obtain ⟨hexact, hpressed⟩ := keyTimerHandle_exact h.pressed down
    exact ⟨hpressed, (eachTime_append _ _ _).mpr ⟨h.exact, hexact⟩⟩
  | clearEvPress =>
    cases hstep
    exact ⟨h.pressed, h.exact⟩
  | clearKeyValues =>
    cases hstep
    exact ⟨h.pressed, h.exact⟩

theorem polledInv_of_reach {s : PolledRun} (h : Reach pollStep anyStep pollInit s) :
    PolledInv s :=
  h.invariant PolledInv polledInv_init fun _ _ _ hinv _ hstep => hinv.step hstep

/-- A run of low samples that has raised its event raises no other one. -/
theorem no_second_event {ticks : List Tick} (h : EachTime EventsExact ticks) {i : ℕ}
    {pre mid post : List Tick} {a b : Tick} (hticks : ticks = pre ++ a :: (mid ++ b :: post))
    (ha : i ∈ a.after.assigned) (hlow : ∀ t ∈ mid ++ [b], t.down i = false) :
    i ∉ b.after.assigned := by
  have hfirst := (h pre a _ hticks).assigned
  have hsecond := (h (pre ++ a :: mid) b post (by rw [hticks]; simp)).assigned
  rw [hfirst, List.mem_filter, decide_eq_true_eq] at ha
  rw [hsecond, List.mem_filter, decide_eq_true_eq]
  rintro ⟨-, hb⟩
  have hsplit : pre ++ a :: mid ++ [b] = (pre ++ [a]) ++ (mid ++ [b]) := by simp
  have hlonger := lastRun_append_of_forall (p := fun t : Tick => !t.down i)
    (fun t ht => by rw [hlow t ht]; rfl) (pre ++ [a])
  rw [hsplit, lowRun, hlonger] at hb
  have htwo : lastRun (fun t : Tick => !t.down i) (pre ++ [a]) = 2 := ha.2
  rw [htwo, List.length_append, List.length_singleton] at hb
  omega

/-- In every run, `pressed[i]` is the length of the current run of low samples of key `i`, at
    most 3; the calls that raise an event for key `i` are those at which such a run reaches
    length 2; and no later sample of the run raises another event. -/
theorem polled_exact (s : PolledRun) (h : Reach pollStep anyStep pollInit s) :
    (∀ i < maxKeys, (s.keys.pressed i).toNat = min 3 (lowRun i s.ticks)) ∧
      EachTime EventsExact s.ticks ∧
      ∀ i < maxKeys, ∀ pre a mid b post, s.ticks = pre ++ a :: (mid ++ b :: post) →
        i ∈ a.after.assigned → (∀ t ∈ mid ++ [b], t.down i = false) → i ∉ b.after.assigned := by
  have hinv := polledInv_of_reach h
  refine ⟨fun i hi => ?_, hinv.exact, fun i _ pre a mid b post hticks ha hlow =>
    no_second_event hinv.exact hticks ha hlow⟩
  have hmin : min 3 (lowRun i s.ticks) < 2 ^ 8 := by omega
  rw [hinv.pressed i, if_pos hi, counter, BitVec.toNat_ofNat, Nat.mod_eq_of_lt hmin]

/-- Key 2 bounces once, and is then held down for four calls. -/
def bouncing : List PollEvent :=
  [true, false, true, false, false, false, false, true].map fun level =>
    .tick fun i => i != 2 || level

theorem polled_exact_bouncing :
    ∃ s, exec pollStep pollInit bouncing = some s ∧
      s.ticks.map (fun t => t.after.assigned) = [[], [], [], [], [2], [], [], []] ∧
      EachTime EventsExact s.ticks := by
  have hrun : (exec pollStep pollInit bouncing).map
      (fun s => s.ticks.map fun t => t.after.assigned) =
        some [[], [], [], [], [2], [], [], []] := by decide +kernel
  obtain ⟨s, hs, hassigned⟩ := Option.map_eq_some_iff.mp hrun
  exact ⟨s, hs, hassigned, (polled_exact s (.of_exec hs)).2.1⟩

end Jz2440.Buttons
