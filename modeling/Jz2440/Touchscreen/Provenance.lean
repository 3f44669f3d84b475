import Jz2440.Touchscreen.Mailbox

/-!
# Where the readings of the reader come from

`ts_read_raw` copies the three fields of the slot one after another, without a lock, and
`report_ts_xy` may run in between. Here every call of `report_ts_xy` has a number, and
each field of the slot, and each copy that the reader makes of one, carries the number
of the call that wrote it.

* `exists_traced_run`: every run of the mailbox is a run with these numbers.
* `traceStep_preserves`: from the test of the flag until the reader clears it, no call
  writes the slot.
* `obtained_in_order`: in every run the three fields of a reading come from one call, and
  the numbers of the calls increase from reading to reading.
-/

namespace Jz2440.Touchscreen

open Jz2440.Common

/-- For each of the three fields the number of the call of `report_ts_xy` that wrote it. -/
structure Origin where
  x : ℕ
  y : ℕ
  pressure : ℕ
  deriving DecidableEq

/-- All three fields written by call `n`. -/
def Origin.call (n : ℕ) : Origin := ⟨n, n, n⟩

/-- The mailbox with the calls so far, oldest first, the origins of the slot and of the
    reader's copies, and for each reading that the reader has got its origins. -/
structure Traced where
  box : Mailbox
  reports : List Reading
  slot : Origin
  copied : Origin
  taken : List Origin
  deriving DecidableEq

/-- What a step of the mailbox does to the origins. -/
def trace (t : Traced) (box : Mailbox) : MailStep → Traced
  | .report r =>
    { t with
      box := box
      reports := t.reports ++ [r]
      slot := if t.box.data.valid = false then .call t.reports.length else t.slot }
  | .go =>
    match t.box.pc with
    | .copyX => { t with box := box, copied := { t.copied with x := t.slot.x } }
    | .copyY _ => { t with box := box, copied := { t.copied with y := t.slot.y } }
    | .copyPressure _ _ =>
      { t with box := box, copied := { t.copied with pressure := t.slot.pressure } }
    | .clearValid _ => { t with box := box, taken := t.taken ++ [t.copied] }
    | _ => { t with box := box }

def traceStep (t : Traced) (e : MailStep) : Option Traced :=
  (mailStep t.box e).map fun box => trace t box e

def traceInit : Traced := ⟨mailInit, [], .call 0, .call 0, []⟩

@[simp] theorem trace_box (t : Traced) (box : Mailbox) (e : MailStep) :
    (trace t box e).box = box := by
  obtain ⟨⟨data, pc, lastReport, obtained⟩, reports, slot, copied, taken⟩ := t
  cases e with
  | report r => rfl
  | go => cases pc <;> rfl

/-- The numbers only watch the mailbox: each of its runs is a run with numbers. -/
theorem exists_traced_run {s : Mailbox} (h : Reach mailStep anyStep mailInit s) :
    ∃ t, Reach traceStep anyStep traceInit t ∧ t.box = s := by
  refine Reach.exists_lift Traced.box (fun t e box hbox => ?_) h
  have htrace : traceStep t e = some (trace t box e) := by rw [traceStep, hbox, Option.map_some]
  exact ⟨_, htrace, trace_box t box e⟩

/-- The readings that the reader has got are readings of calls, whole, at most one of each
    call, and in the order of the calls. -/
structure InOrder (t : Traced) : Prop where
  untorn : ∀ o ∈ t.taken, o = .call o.x
  values : t.box.obtained.map some = t.taken.map fun o => t.reports[o.x]?
  increasing : (t.taken.map Origin.x).Pairwise (· < ·)

/-! ## The invariant -/

def TsData.reading (d : TsData) : Reading := ⟨d.x, d.y, d.pressure⟩

/-- Between the test of the flag and its clearing the slot is full, and what has been copied
    so far is what the slot holds. -/
def ReaderPc.Copied (d : TsData) (slot copied : Origin) : ReaderPc → Prop
  | .idle => True
  | .wait => True
  | .copyX => d.valid = true
  | .copyY px => d.valid = true ∧ px = d.x ∧ copied.x = slot.x
  | .copyPressure px py => d.valid = true ∧ (px = d.x ∧ py = d.y) ∧
      copied.x = slot.x ∧ copied.y = slot.y
  | .clearValid r => d.valid = true ∧ r = d.reading ∧ copied = slot

structure TraceInv (t : Traced) : Prop where
  inOrder : InOrder t
  taken_lt : ∀ o ∈ t.taken, o.x < t.reports.length
  /-- a full slot holds the reading of one call, and a later one than those taken -/
  slot : t.box.data.valid = true → t.slot = .call t.slot.x ∧
    t.reports[t.slot.x]? = some t.box.data.reading ∧ ∀ o ∈ t.taken, o.x < t.slot.x
  pc : t.box.pc.Copied t.box.data t.slot t.copied

theorem traceInv_init : TraceInv traceInit :=
  ⟨⟨nofun, rfl, .nil⟩, nofun, nofun, trivial⟩

/-- While the slot is empty the reader has copied nothing of it. -/
theorem ReaderPc.Copied.of_empty {d : TsData} {slot copied : Origin} (hd : d.valid = false)
    {pc : ReaderPc} (h : pc.Copied d slot copied) (d' : TsData) (slot' : Origin) :
    pc.Copied d' slot' copied := by
  have hfull : d.valid ≠ true := by simp [hd]
  cases pc with
  | idle => exact trivial
  | wait => exact trivial
  | copyX => exact absurd h hfull
  | copyY px => exact absurd h.1 hfull
  | copyPressure px py => exact absurd h.1 hfull
  | clearValid r => exact absurd h.1 hfull

/-- A further call does not change the readings of the calls before it. -/
theorem InOrder.report {t : Traced} (h : InOrder t) (hlt : ∀ o ∈ t.taken, o.x < t.reports.length)
    (r : Reading) (d : TsData) (slot : Origin) :
    InOrder { t with
      box := { t.box with data := d, lastReport := some r }
      reports := t.reports ++ [r]
      slot := slot } := by
  refine ⟨h.untorn, ?_, h.increasing⟩
  have hsame : ∀ o ∈ t.taken, t.reports[o.x]? = (t.reports ++ [r])[o.x]? := fun o ho =>
    (List.getElem?_append_left (hlt o ho)).symm
  exact h.values.trans (List.map_congr_left hsame)

theorem traceInv_report {t : Traced} (ht : TraceInv t) (r : Reading) :
    TraceInv (trace t { t.box with
      data := reportTsXy r.x r.y r.pressure t.box.data, lastReport := some r } (.report r)) := by
  have hlt : ∀ o ∈ t.taken, o.x < (t.reports ++ [r]).length := fun o ho => by
    rw [List.length_append]
    exact Nat.lt_add_right _ (ht.taken_lt o ho)
  refine ⟨ht.inOrder.report ht.taken_lt r _ _, hlt, ?_, ?_⟩
  · -- the call fills an empty slot and leaves a full one as it is
    intro hfull
    by_cases hvalid : t.box.data.valid = false
    · simp only [trace, reportTsXy, if_pos hvalid]
      exact ⟨rfl, List.getElem?_concat_length, ht.taken_lt⟩
    · have hvalid' : t.box.data.valid = true := by simpa using hvalid
      obtain ⟨hcall, hvalue, hlater⟩ := ht.slot hvalid'
      simp only [trace, reportTsXy, if_neg hvalid]
      refine ⟨hcall, ?_, hlater⟩
      have hslot : t.slot.x < t.reports.length := (List.getElem?_eq_some_iff.mp hvalue).1
      rw [List.getElem?_append_left hslot]
      exact hvalue
  · by_cases hvalid : t.box.data.valid = false
    · exact ht.pc.of_empty hvalid _ _
    · simp only [trace, reportTsXy, if_neg hvalid]
      exact ht.pc

/-- The reader takes the reading that it has copied. -/
theorem InOrder.take {t : Traced} (h : InOrder t) {o : Origin} {r : Reading}
    (hcall : o = .call o.x) (hvalue : t.reports[o.x]? = some r)
    (hlater : ∀ o' ∈ t.taken, o'.x < o.x) {box : Mailbox}
    (hbox : box.obtained = t.box.obtained ++ [r]) :
    InOrder { t with box := box, taken := t.taken ++ [o] } := by
  refine ⟨?_, ?_, ?_⟩
  · intro o' ho'
    obtain ho' | ho' := List.mem_append.mp ho'
    · exact h.untorn o' ho'
    · obtain rfl := List.mem_singleton.mp ho'
      exact hcall
  · show box.obtained.map some = (t.taken ++ [o]).map fun o => t.reports[o.x]?
    rw [hbox, List.map_append, List.map_append, h.values, List.map_singleton,
      List.map_singleton, hvalue]
  · show ((t.taken ++ [o]).map Origin.x).Pairwise (· < ·)
    rw [List.map_append, List.pairwise_append]
    refine ⟨h.increasing, List.pairwise_singleton _ _, ?_⟩
    intro n hn m hm
    obtain ⟨o', ho', rfl⟩ := List.mem_map.mp hn
    obtain rfl := List.mem_singleton.mp hm
    exact hlater o' ho'

/-- The reader goes on to its next statement and takes nothing yet. -/
theorem TraceInv.move {t : Traced} (ht : TraceInv t) {pc : ReaderPc} {copied : Origin}
    (hpc : pc.Copied t.box.data t.slot copied) :
    TraceInv { t with box := { t.box with pc := pc }, copied := copied } :=
  ⟨⟨ht.inOrder.untorn, ht.inOrder.values, ht.inOrder.increasing⟩, ht.taken_lt, ht.slot, hpc⟩

theorem traceInv_go {t : Traced} {box : Mailbox} (ht : TraceInv t)
    (h : mailStep t.box .go = some box) : TraceInv (trace t box .go) := by
  obtain ⟨⟨data, pc, lastReport, obtained⟩, reports, slot, copied, taken⟩ := t
  have hpc : pc.Copied data slot copied := ht.pc
  cases pc with
  | idle =>
    obtain rfl := Option.some.inj h
    exact ht.move trivial
  | wait =>
    obtain ⟨hvalid, h⟩ := Option.ite_none_left_eq_some.mp h
    obtain rfl := Option.some.inj h
    have hfull : data.valid = true := by simpa using hvalid
    exact ht.move hfull
  | copyX =>
    obtain rfl := Option.some.inj h
    exact ht.move ⟨hpc, rfl, rfl⟩
  | copyY px =>
    obtain rfl := Option.some.inj h
    obtain ⟨hfull, hx, hox⟩ := hpc
    exact ht.move ⟨hfull, ⟨hx, rfl⟩, hox, rfl⟩
  | copyPressure px py =>
    obtain rfl := Option.some.inj h
    obtain ⟨hfull, ⟨hx, hy⟩, hox, hoy⟩ := hpc
    have hreading : (⟨px, py, data.pressure⟩ : Reading) = data.reading := by rw [hx, hy]; rfl
    have hcopied : (⟨copied.x, copied.y, slot.pressure⟩ : Origin) = slot := by rw [hox, hoy]
    exact ht.move ⟨hfull, hreading, hcopied⟩
  | clearValid r =>
    obtain rfl := Option.some.inj h
    obtain ⟨hfull, hreading, rfl⟩ := hpc
    obtain ⟨hcall, hvalue, hlater⟩ := ht.slot hfull
    rw [← hreading] at hvalue
    refine ⟨ht.inOrder.take hcall hvalue hlater rfl, ?_, nofun, trivial⟩
    intro o ho
    obtain ho | ho := List.mem_append.mp ho
    · exact ht.taken_lt o ho
    · obtain rfl := List.mem_singleton.mp ho
      exact (List.getElem?_eq_some_iff.mp hvalue).1

theorem traceStep_preserves (t : Traced) (e : MailStep) (t' : Traced) (ht : TraceInv t)
    (h : traceStep t e = some t') : TraceInv t' := by
  obtain ⟨box, hbox, rfl⟩ := Option.map_eq_some_iff.mp h
  cases e with
  | report r =>
    obtain rfl := Option.some.inj hbox
    exact traceInv_report ht r
  | go => exact traceInv_go ht hbox

/-! ## Runs -/

/-- Whatever is reported between the statements of the reader, it gets whole readings, none
    of them twice, and in the order of the reports. -/
theorem obtained_in_order {t : Traced} (hrun : Reach traceStep anyStep traceInit t) :
    InOrder t :=
  (hrun.invariant TraceInv traceInv_init fun t e t' ht _ => traceStep_preserves t e t' ht).inOrder

/-- Two reports while the reader copies the first one, and a fourth that it also gets. -/
def reportsInBetween : List MailStep :=
  [.report ⟨10, 20, 1⟩, .go, .go, .go, .report ⟨30, 40, 1⟩, .go, .report ⟨0, 0, 0⟩, .go, .go,
   .report ⟨50, 60, 1⟩, .go, .go, .go, .go, .go, .go]

theorem obtained_in_order_reportsInBetween :
    ∃ t, exec traceStep traceInit reportsInBetween = some t ∧
      (t.box.obtained = [⟨10, 20, 1⟩, ⟨50, 60, 1⟩] ∧ t.taken = [.call 0, .call 3]) ∧
      InOrder t := by
  have hrun : (exec traceStep traceInit reportsInBetween).map
      (fun t => (t.box.obtained, t.taken)) =
      some ([⟨10, 20, 1⟩, ⟨50, 60, 1⟩], [.call 0, .call 3]) := by decide +kernel
  obtain ⟨t, ht, hgot⟩ := Option.map_eq_some_iff.mp hrun
  exact ⟨t, ht, Prod.mk.inj hgot, obtained_in_order (.of_exec ht)⟩

end Jz2440.Touchscreen
