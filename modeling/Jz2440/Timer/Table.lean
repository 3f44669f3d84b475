import Mathlib.Data.Fin.Tuple.Basic
import Jz2440.Boot.Tags

/-!
# The table of software timers

Model of `register_timer`, `unregister_timer` and `timer_irq` (timer.c) and of
`strcmp` (string_utils.c) in
`hard_driver/first_hard/025_sensors_022/007_irda_nec_ok_022_009`.

A slot of `timer_array` has a `name` and an `fp`. Registration and the interrupt
test `fp`, unregistration compares `name`, and it does so without a test for
NULL. On this board address 0 can be read, so `strcmp(NULL, name)` compares
`name` with the bytes there: the string `atNull`, of which nothing is assumed.

What the table is for is said by the `Registry` over it: the name and the
function of each slot that is in use.

* `none_mem_compared_iff`: when `unregister_timer` compares a NULL name.
* `timer_calls_correct`: in a run in which that does not happen, every call does
  to the registry what it is meant to do.
-/

namespace Jz2440.Timer

open Jz2440.Common
open Jz2440.Boot (CString)

/-! ## `strcmp` -/

/-- The loop of `strcmp` on what is left of the two strings. Behind the last
    character of a string its NUL is read. -/
def strcmpBytes : List Byte → List Byte → Byte
  | [], ct => 0 - ct.headD 0
  | c :: cs, ct =>
    let res := c - ct.headD 0
    if res ≠ 0 ∨ c = 0 then res else strcmpBytes cs ct.tail

/-- `strcmp` (string_utils.c:171-181), with its result as a `signed char`. -/
def strcmp (cs ct : CString) : Byte := strcmpBytes cs.bytes ct.bytes

theorem strcmpBytes_eq_zero_iff {cs ct : List Byte} (hcs : ∀ b ∈ cs, b ≠ 0)
    (hct : ∀ b ∈ ct, b ≠ 0) : strcmpBytes cs ct = 0 ↔ cs = ct := by
  induction cs generalizing ct with
  | nil =>
    cases ct with
    | nil => exact iff_of_true rfl rfl
    | cons b ct =>
      have hb : b ≠ 0 := hct b List.mem_cons_self
      simpa [strcmpBytes] using hb
  | cons c cs ih =>
    have hc : c ≠ 0#8 := hcs c List.mem_cons_self
    cases ct with
    | nil => simp [strcmpBytes, hc]
    | cons b ct =>
      have hrest := ih (fun x hx => hcs x (List.mem_cons_of_mem c hx))
        (fun x hx => hct x (List.mem_cons_of_mem b hx))
      by_cases hcb : c = b
      · subst hcb
        simpa [strcmpBytes, hc] using hrest
      · have hne : c - b ≠ 0#8 := fun h => hcb (by bv_omega)
        simp [strcmpBytes, hne, hcb]

/-- Two strings compare equal iff they have the same characters. -/
theorem strcmp_eq_zero_iff (cs ct : CString) : strcmp cs ct = 0 ↔ cs = ct := by
  obtain ⟨cs, hcs⟩ := cs
  obtain ⟨ct, hct⟩ := ct
  rw [CString.mk.injEq]
  exact strcmpBytes_eq_zero_iff hcs hct

/-! ## The table -/

/-- `TIMER_NUM`. -/
def timerNum : ℕ := 32

/-- `timer_desc` (timer.c:9-12); `none` is a NULL pointer. -/
structure TimerDesc (F : Type) where
  name : Option CString
  fp : Option F

/-- `timer_array` (timer.c:14). -/
abbrev TimerArray (F : Type) := Fin timerNum → TimerDesc F

section Functions

variable {F : Type}

/-- `register_timer` (timer.c:18-31): the return value and the table after it. -/
def registerTimer (name : CString) (fp : F) (a : TimerArray F) : ℤ × TimerArray F :=
  match Fin.find? fun i => (a i).fp.isNone with
  | some i => (0, Function.update a i ⟨some name, some fp⟩)
  | none => (-1, a)

/-- `!strcmp(timer_array[i].name, name)`. -/
def nameEqual (atNull name : CString) (d : TimerDesc F) : Bool :=
  strcmp (d.name.getD atNull) name == 0

/-- The slots that a loop over the table looks at when it leaves at `hit`, or at
    the end. -/
def visited (hit : Option (Fin timerNum)) : List (Fin timerNum) :=
  match hit with
  | some i => (List.finRange timerNum).filter (· ≤ i)
  | none => List.finRange timerNum

/-- `unregister_timer` (timer.c:33-46): the stored names that it compares, and the
    table after it. -/
def unregisterTimer (atNull name : CString) (a : TimerArray F) :
    List (Option CString) × TimerArray F :=
  let hit := Fin.find? fun i => nameEqual atNull name (a i)
  ((visited hit).map fun i => (a i).name,
    match hit with
    | some i => Function.update a i ⟨none, none⟩
    | none => a)

/-- The functions that `timer_irq` calls, in order (timer.c:54-60). They do not
    register or unregister timers themselves. -/
def timerIrq (a : TimerArray F) : List F :=
  (List.finRange timerNum).filterMap fun i => (a i).fp

end Functions

/-! ## The registry -/

/-- What is registered: for each slot in use, a name and a function. -/
abbrev Registry (F : Type) := Fin timerNum → Option (CString × F)

namespace Registry

variable {F : Type} (r r' : Registry F)

/-- The slots in use. -/
def occupied : Finset (Fin timerNum) := {i | (r i).isSome}

/-- The slot holds a timer of that name. -/
def Named (name : CString) (i : Fin timerNum) : Prop := ∃ fp, r i = some (name, fp)

/-- A timer is added, unless all slots are in use. -/
def Adds (name : CString) (fp : F) (ret : ℤ) : Prop :=
  (ret = -1 ∧ r.occupied.card = timerNum ∧ r' = r) ∨
    (ret = 0 ∧ r.occupied.card ≠ timerNum ∧
      ∃ i, r i = none ∧ r' = Function.update r i (some (name, fp)))

/-- The lowest slot of that name is given up, or there is none and nothing changes. -/
def Removes (name : CString) : Prop :=
  (∃ i, r.Named name i ∧ (∀ j < i, ¬ r.Named name j) ∧ r' = Function.update r i none) ∨
    ((∀ i, ¬ r.Named name i) ∧ r' = r)

/-- Each slot in use is called once, and nothing else is called. -/
def Ticks (called : List F) : Prop :=
  ∃ slots : List (Fin timerNum), slots.Nodup ∧ (∀ i, i ∈ slots ↔ i ∈ r.occupied) ∧
    called.map some = slots.map fun i => (r i).map Prod.snd

end Registry

section Refinement

variable {F : Type}

/-- The registry that a table stands for. -/
def registry (a : TimerArray F) : Registry F := fun i =>
  (a i).name.bind fun name => (a i).fp.map fun fp => (name, fp)

/-- In each slot both fields are set, or none. -/
def WellFormed (a : TimerArray F) : Prop := ∀ i, (a i).name.isSome = (a i).fp.isSome

variable {a : TimerArray F}

theorem registry_eq_none_iff_fp (h : WellFormed a) (i : Fin timerNum) :
    registry a i = none ↔ (a i).fp = none := by
  have hi := h i
  unfold registry
  cases hname : (a i).name with
  | none => simpa [hname] using hi
  | some name => simp

theorem named_iff (h : WellFormed a) (name : CString) (i : Fin timerNum) :
    (registry a).Named name i ↔ (a i).name = some name := by
  have hi := h i
  unfold Registry.Named registry
  cases hname : (a i).name with
  | none => simp
  | some stored =>
    rw [hname, Option.isSome_some] at hi
    obtain ⟨fp, hfp⟩ := Option.isSome_iff_exists.mp hi.symm
    simp [hfp]

theorem registry_update (a : TimerArray F) (i : Fin timerNum) (name : Option CString)
    (fp : Option F) :
    registry (Function.update a i ⟨name, fp⟩) =
      Function.update (registry a) i (name.bind fun n => fp.map fun f => (n, f)) := by
  funext j
  by_cases hj : j = i
  · subst hj
    simp [registry]
  · simp [registry, Function.update_of_ne hj]

theorem WellFormed.update (h : WellFormed a) (i : Fin timerNum) {d : TimerDesc F}
    (hd : d.name.isSome = d.fp.isSome) : WellFormed (Function.update a i d) := by
  intro j
  by_cases hj : j = i
  · subst hj
    simpa using hd
  · simpa [Function.update_of_ne hj] using h j

theorem card_occupied_eq_iff (h : WellFormed a) :
    (registry a).occupied.card = timerNum ↔ ∀ i, (a i).fp ≠ none := by
  have hcard : (registry a).occupied.card = timerNum ↔ (registry a).occupied = Finset.univ := by
    rw [← Finset.card_eq_iff_eq_univ, Fintype.card_fin]
  rw [hcard, Finset.eq_univ_iff_forall]
  refine forall_congr' fun i => ?_
  simp [Registry.occupied, Option.isSome_iff_ne_none, registry_eq_none_iff_fp h]

/-! ## Each function against the registry -/

theorem registerTimer_wellFormed (h : WellFormed a) (name : CString) (fp : F) :
    WellFormed (registerTimer name fp a).2 := by
  unfold registerTimer
  split
  · exact h.update _ rfl
  · exact h

theorem registerTimer_adds (h : WellFormed a) (name : CString) (fp : F) :
    (registry a).Adds (registry (registerTimer name fp a).2) name fp
      (registerTimer name fp a).1 := by
  unfold registerTimer
  split
  · rename_i i hfind
    have hfree : (a i).fp = none := Option.isNone_iff_eq_none.mp (Fin.find?_eq_some_iff.mp hfind).1
    refine .inr ⟨rfl, ?_, i, (registry_eq_none_iff_fp h i).mpr hfree, ?_⟩
    · rw [ne_eq, card_occupied_eq_iff h]
      exact fun hall => hall i hfree
    · exact registry_update a i (some name) (some fp)
  · rename_i hfind
    refine .inl ⟨rfl, (card_occupied_eq_iff h).mpr fun i hfree => ?_, rfl⟩
    have := Fin.find?_eq_none_iff.mp hfind i
    simp [hfree] at this

theorem mem_visited_iff (hit : Option (Fin timerNum)) (i : Fin timerNum) :
    i ∈ visited hit ↔ ∀ j ∈ hit, i ≤ j := by
  cases hit <;> simp [visited]

theorem nameEqual_iff (atNull name : CString) (d : TimerDesc F) :
    nameEqual atNull name d = true ↔ d.name.getD atNull = name := by
  rw [nameEqual, beq_iff_eq, strcmp_eq_zero_iff]

theorem nameEqual_of_name {name : CString} {d : TimerDesc F} (h : d.name = some name)
    (atNull : CString) : nameEqual atNull name d = true := by
  rw [nameEqual_iff, h, Option.getD_some]

theorem name_of_nameEqual {atNull name : CString} {d : TimerDesc F}
    (h : nameEqual atNull name d = true) : d.name = none ∨ d.name = some name := by
  cases hname : d.name with
  | none => exact .inl rfl
  | some stored =>
    rw [nameEqual_iff, hname, Option.getD_some] at h
    exact .inr (congrArg some h)

/-- Each slot without a name lies above one with the name `name`. -/
def NamedBelowHoles (name : CString) (a : TimerArray F) : Prop :=
  ∀ i, (a i).name = none → ∃ j < i, (a j).name = some name

instance (name : CString) (a : TimerArray F) : Decidable (NamedBelowHoles name a) :=
  inferInstanceAs (Decidable (∀ _, _ → _))

/-- `unregister_timer` compares a NULL name iff it meets an empty slot before one with
    the name that it looks for. -/
theorem none_mem_compared_iff (atNull name : CString) (a : TimerArray F) :
    none ∈ (unregisterTimer atNull name a).1 ↔ ¬ NamedBelowHoles name a := by
  simp only [unregisterTimer, List.mem_map, mem_visited_iff]
  constructor
  · rintro ⟨i, hvisited, hi⟩ hbelow
    obtain ⟨j, hj, hname⟩ := hbelow i hi
    have hequal : nameEqual atNull name (a j) = true := nameEqual_of_name hname atNull
    -- the scan has stopped at `j` at the latest, so it has not come to `i`
    have hsome : (Fin.find? fun i => nameEqual atNull name (a i)).isSome = true :=
      Fin.isSome_find?_iff.mpr ⟨j, hequal⟩
    obtain ⟨hit, hfind⟩ := Option.isSome_iff_exists.mp hsome
    have hle : i ≤ hit := hvisited hit hfind
    have hfirst := (Fin.find?_eq_some_iff.mp hfind).2 j (lt_of_lt_of_le hj hle)
    rw [hequal] at hfirst
    exact Bool.noConfusion hfirst
  · intro hnot
    unfold NamedBelowHoles at hnot
    push Not at hnot
    obtain ⟨i, hi, hbelow⟩ := hnot
    cases hfind : Fin.find? fun i => nameEqual atNull name (a i) with
    | none => exact ⟨i, by simp, hi⟩
    | some hit =>
      by_cases hle : i ≤ hit
      · exact ⟨i, by simpa using hle, hi⟩
      · -- the scan has stopped below `i`, where no slot has the name: at another hole
        have hname := name_of_nameEqual (Fin.find?_eq_some_iff.mp hfind).1
        exact ⟨hit, by simp, hname.resolve_right (hbelow hit (lt_of_not_ge hle))⟩

theorem unregisterTimer_wellFormed (h : WellFormed a) (atNull name : CString) :
    WellFormed (unregisterTimer atNull name a).2 := by
  simp only [unregisterTimer]
  split
  · exact h.update _ rfl
  · exact h

theorem unregisterTimer_removes (h : WellFormed a) (atNull : CString) {name : CString}
    (hbelow : NamedBelowHoles name a) :
    (registry a).Removes (registry (unregisterTimer atNull name a).2) name := by
  simp only [unregisterTimer]
  cases hfind : Fin.find? fun i => nameEqual atNull name (a i) with
  | none =>
    refine .inr ⟨fun i hi => ?_, rfl⟩
    have := Fin.find?_eq_none_iff.mp hfind i
    simp [nameEqual_of_name ((named_iff h name i).mp hi) atNull] at this
  | some hit =>
    obtain ⟨hhit, hfirst⟩ := Fin.find?_eq_some_iff.mp hfind
    have hbefore : ∀ j < hit, (a j).name ≠ some name := by
      intro j hj hname
      have := hfirst j hj
      simp [nameEqual_of_name hname atNull] at this
    refine .inl ⟨hit, (named_iff h name hit).mpr ?_, fun j hj hnamed => ?_, ?_⟩
    · refine (name_of_nameEqual hhit).resolve_left fun hname => ?_
      obtain ⟨j, hj, hnamed⟩ := hbelow hit hname
      exact hbefore j hj hnamed
    · exact hbefore j hj ((named_iff h name j).mp hnamed)
    · exact registry_update a hit none none

theorem timerIrq_ticks (h : WellFormed a) : (registry a).Ticks (timerIrq a) := by
  refine ⟨(List.finRange timerNum).filter fun i => (a i).fp.isSome,
    (List.nodup_finRange timerNum).filter _, fun i => ?_, ?_⟩
  · simp [Registry.occupied, Option.isSome_iff_ne_none, registry_eq_none_iff_fp h]
  · unfold timerIrq
    induction List.finRange timerNum with
    | nil => rfl
    | cons i is ih =>
      cases hfp : (a i).fp with
      | none => simpa [hfp] using ih
      | some fp =>
        have hi := h i
        rw [hfp, Option.isSome_some] at hi
        obtain ⟨name, hname⟩ := Option.isSome_iff_exists.mp hi
        simp only [List.filterMap_cons, hfp, List.map_cons, List.filter_cons, Option.isSome_some,
          if_true, ih]
        simp [registry, hname, hfp]

end Refinement

/-! ## Sequences of calls -/

/-- A call that was made, with the table before it. -/
inductive TimerCall (F : Type)
  | register (before : TimerArray F) (name : CString) (fp : F) (ret : ℤ) (after : TimerArray F)
  | unregister (before : TimerArray F) (name : CString) (compared : List (Option CString))
      (after : TimerArray F)
  | irq (before : TimerArray F) (called : List F)

/-- What each call is meant to do. -/
def TimerCall.Correct {F : Type} : TimerCall F → Prop
  | .register before name fp ret after => (registry before).Adds (registry after) name fp ret
  | .unregister before name compared after =>
    (∀ stored ∈ compared, stored ≠ none) ∧ (registry before).Removes (registry after) name
  | .irq before called => (registry before).Ticks called

/-- The calls of the three functions. -/
inductive TimerOp (F : Type)
  | register (name : CString) (fp : F)
  | unregister (name : CString)
  | irq

/-- The table, and the calls so far. -/
structure TableState (F : Type) where
  table : TimerArray F
  calls : List (TimerCall F)

section Run

variable {F : Type}

/-- The zeroed table. -/
def initTable : TableState F := ⟨fun _ => ⟨none, none⟩, []⟩

def tableStep (atNull : CString) (s : TableState F) : TimerOp F → Option (TableState F)
  | .register name fp =>
    let r := registerTimer name fp s.table
    some ⟨r.2, s.calls ++ [.register s.table name fp r.1 r.2]⟩
  | .unregister name =>
    let r := unregisterTimer atNull name s.table
    some ⟨r.2, s.calls ++ [.unregister s.table name r.1 r.2]⟩
  | .irq => some ⟨s.table, s.calls ++ [.irq s.table (timerIrq s.table)]⟩

/-- A timer is unregistered only when no hole comes before the first slot of its name;
    if there is no such slot, only when the table has no holes. -/
def ScanMeetsNoHole (s : TableState F) : TimerOp F → Prop
  | .unregister name => NamedBelowHoles name s.table
  | _ => True

instance (s : TableState F) (op : TimerOp F) : Decidable (ScanMeetsNoHole s op) :=
  match op with
  | .unregister name => inferInstanceAs (Decidable (NamedBelowHoles name s.table))
  | .register _ _ => isTrue trivial
  | .irq => isTrue trivial

/-- The table is well formed and every call was correct. -/
structure TableInv (s : TableState F) : Prop where
  wellFormed : WellFormed s.table
  correct : ∀ call ∈ s.calls, call.Correct

theorem TableInv.step {atNull : CString} {s s' : TableState F} {op : TimerOp F} (h : TableInv s)
    (hok : ScanMeetsNoHole s op) (hstep : tableStep atNull s op = some s') : TableInv s' := by
  have hcalls : ∀ {call : TimerCall F}, call.Correct →
      ∀ c ∈ s.calls ++ [call], c.Correct := by
    intro call hcall
    exact List.forall_mem_append.mpr ⟨h.correct, List.forall_mem_singleton.mpr hcall⟩
  cases op with
  | register name fp =>
    cases hstep
    exact ⟨registerTimer_wellFormed h.wellFormed name fp,
      hcalls (registerTimer_adds h.wellFormed name fp)⟩
  | unregister name =>
    cases hstep
    refine ⟨unregisterTimer_wellFormed h.wellFormed atNull name, hcalls ⟨?_, ?_⟩⟩
    · rintro stored hstored rfl
      exact (none_mem_compared_iff atNull name s.table).mp hstored hok
    · exact unregisterTimer_removes h.wellFormed atNull hok
  | irq =>
    cases hstep
    exact ⟨h.wellFormed, hcalls (timerIrq_ticks h.wellFormed)⟩

theorem tableInv_initTable : TableInv (initTable : TableState F) :=
  ⟨fun _ => rfl, fun _ h => absurd h List.not_mem_nil⟩

/-- If `unregister_timer` is never called for a name that a hole precedes in the table,
    then every call of the sequence is correct. -/
theorem timer_calls_correct (atNull : CString) (s : TableState F)
    (h : Reach (tableStep atNull) ScanMeetsNoHole initTable s) :
    ∀ call ∈ s.calls, call.Correct :=
  (h.invariant TableInv tableInv_initTable fun _ _ _ hinv hok hstep => hinv.step hok hstep).correct

end Run

/-- The name "led". -/
def ledName : CString := ⟨[0x6c, 0x65, 0x64], by decide⟩

/-- The name "key". -/
def keyName : CString := ⟨[0x6b, 0x65, 0x79], by decide⟩

/-- Slot 0 is given up and filled again before another timer is unregistered. -/
theorem timer_calls_correct_refill :
    ∃ s : TableState ℕ, exec (tableStep ⟨[], by decide⟩) initTable
        [.register ledName 1, .register keyName 2, .unregister ledName, .register ledName 3,
          .unregister keyName, .irq] = some s ∧
      timerIrq s.table = [3] ∧ ∀ call ∈ s.calls, call.Correct := by
  have hrun : (exec (guarded (tableStep ⟨[], by decide⟩) ScanMeetsNoHole) initTable
      [.register ledName 1, .register keyName 2, .unregister ledName, .register ledName 3,
        .unregister keyName, .irq]).map (fun s => timerIrq s.table) = some [3] := by
    decide +kernel
  obtain ⟨s, hs, hcalled⟩ := Option.map_eq_some_iff.mp hrun
  exact ⟨s, exec_of_guarded hs, hcalled, timer_calls_correct _ s (.of_exec_guarded hs)⟩

/-- On the zeroed table `unregister_timer` compares a NULL name; here with 0 at address 0. -/
theorem unregister_compares_null :
    ∃ s : TableState ℕ,
      exec (tableStep ⟨[], by decide⟩) initTable [.unregister ledName] = some s ∧
        ¬ ∀ call ∈ s.calls, call.Correct := by
  refine ⟨_, rfl, fun hall => ?_⟩
  have hcall := hall _ List.mem_cons_self
  refine hcall.1 none ((none_mem_compared_iff _ ledName _).mpr fun hbelow => ?_) rfl
  obtain ⟨j, -, hj⟩ := hbelow ⟨0, by decide⟩ rfl
  exact absurd hj (Option.some_ne_none ledName).symm

end Jz2440.Timer
