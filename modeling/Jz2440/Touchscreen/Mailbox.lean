import Jz2440.Touchscreen.Handlers

/-!
# The mailbox between the touch-screen handlers and the reader

The handlers hand their readings to the main program through one slot: `report_ts_xy`
drops a reading while the slot is full, and `ts_read_raw` waits for a reading, copies
it and empties the slot. A report may come between any two statements of
`ts_read_raw`; it runs at interrupt time, so it is one step.

* `mailStep_preserves`: what one step preserves if a report of pressure 0 finds the slot
  empty or with another report of pressure 0.
* `penUp_kept`: in every run of such steps, after a report of pressure 0 the reader alone
  empties the slot, and whenever it has done so the last reading that it has got has
  pressure 0.
* `penUp_lost`: a pen-up that finds the slot full is lost.
-/

namespace Jz2440.Touchscreen

open Jz2440.Common

/-- A reading of the touch screen. -/
structure Reading where
  x : ℕ
  y : ℕ
  pressure : ℕ
  deriving DecidableEq

/-- The next statement of `ts_read_raw` (touchscreen.c:116-123) with what it has copied. -/
inductive ReaderPc
  | idle
  | wait
  | copyX
  | copyY (px : ℕ)
  | copyPressure (px py : ℕ)
  | clearValid (r : Reading)
  deriving DecidableEq

/-- The slot, the reader, the last report, and the readings that the reader has got. -/
structure Mailbox where
  data : TsData
  pc : ReaderPc
  lastReport : Option Reading
  obtained : List Reading
  deriving DecidableEq

/-- A handler reports a reading, or the reader goes on. -/
inductive MailStep
  | report (r : Reading)
  | go
  deriving DecidableEq

def mailStep (s : Mailbox) : MailStep → Option Mailbox
  | .report r => some { s with data := reportTsXy r.x r.y r.pressure s.data, lastReport := some r }
  | .go =>
    match s.pc with
    | .idle => some { s with pc := .wait }
    | .wait => if s.data.valid = false then none else some { s with pc := .copyX }
    | .copyX => some { s with pc := .copyY s.data.x }
    | .copyY px => some { s with pc := .copyPressure px s.data.y }
    | .copyPressure px py => some { s with pc := .clearValid ⟨px, py, s.data.pressure⟩ }
    | .clearValid r => some { s with
        data := { s.data with valid := false }, pc := .idle, obtained := s.obtained ++ [r] }

def mailInit : Mailbox := ⟨⟨0, 0, 0, false⟩, .idle, none, []⟩

/-- The reader moves and nothing is reported. -/
def ReaderOnly (_ : Mailbox) (e : MailStep) : Prop := e = .go

instance (s : Mailbox) (e : MailStep) : Decidable (ReaderOnly s e) :=
  inferInstanceAs (Decidable (_ = _))

/-- The slot is empty and the reader is not about to take anything from it. -/
def Drained (s : Mailbox) : Prop := s.data.valid = false ∧ (s.pc = .idle ∨ s.pc = .wait)

/-- The last reading that the reader has got is a pen-up. -/
def EndsWithPenUp (s : Mailbox) : Prop := ∃ r ∈ s.obtained.getLast?, r.pressure = 0

/-- The reader alone can empty the slot. -/
def CanDrain (s : Mailbox) : Prop := ∃ s', Reach mailStep ReaderOnly s s' ∧ Drained s'

/-- If the last report is a pen-up, the reader alone can empty the slot, and when it has
    done so it has got a pen-up last. -/
def PenUpKept (s : Mailbox) : Prop :=
  ∀ r ∈ s.lastReport, r.pressure = 0 →
    CanDrain s ∧ ∀ s', Reach mailStep ReaderOnly s s' → Drained s' → EndsWithPenUp s'

/-- A pen-up is reported only while the slot is empty or holds another pen-up. -/
def PenUpFits (s : Mailbox) : MailStep → Prop
  | .report r => r.pressure = 0 → s.data.valid = true → s.data.pressure = 0
  | .go => True

instance (s : Mailbox) : (e : MailStep) → Decidable (PenUpFits s e)
  | .report _ => inferInstanceAs (Decidable (_ → _ → _))
  | .go => isTrue trivial

/-! ## The reader empties the slot -/

theorem CanDrain.of_go {s s' : Mailbox} (hstep : mailStep s .go = some s') (h : CanDrain s') :
    CanDrain s := by
  obtain ⟨t, hreach, hdrained⟩ := h
  have hgo : Reach mailStep ReaderOnly s s' := Reach.refl.tail rfl hstep
  exact ⟨t, hgo.trans hreach, hdrained⟩

/-- A full slot is emptied by one call, and an empty one needs none. -/
theorem canDrain (s : Mailbox) : CanDrain s := by
  obtain ⟨d, pc, lastReport, obtained⟩ := s
  have hclear : ∀ r, CanDrain ⟨d, .clearValid r, lastReport, obtained⟩ := fun r =>
    .of_go rfl ⟨_, .refl, rfl, .inl rfl⟩
  have hpressure : ∀ px py, CanDrain ⟨d, .copyPressure px py, lastReport, obtained⟩ := fun _ _ =>
    .of_go rfl (hclear _)
  have hy : ∀ px, CanDrain ⟨d, .copyY px, lastReport, obtained⟩ := fun _ =>
    .of_go rfl (hpressure _ _)
  have hx : CanDrain ⟨d, .copyX, lastReport, obtained⟩ := .of_go rfl (hy _)
  have hwait : CanDrain ⟨d, .wait, lastReport, obtained⟩ := by
    by_cases hvalid : d.valid = false
    · exact ⟨_, .refl, hvalid, .inr rfl⟩
    · exact .of_go (if_neg hvalid) hx
  cases pc with
  | idle => exact .of_go rfl hwait
  | wait => exact hwait
  | copyX => exact hx
  | copyY px => exact hy px
  | copyPressure px py => exact hpressure px py
  | clearValid r => exact hclear r

/-! ## The invariant -/

/-- What the reader knows about the slot at its next statement. -/
def ReaderPc.Ok (d : TsData) : ReaderPc → Prop
  | .idle => True
  | .wait => True
  | .copyX => d.valid = true
  | .copyY _ => d.valid = true
  | .copyPressure _ _ => d.valid = true
  | .clearValid r => d.valid = true ∧ r.pressure = d.pressure

structure MailInv (s : Mailbox) : Prop where
  pc : s.pc.Ok s.data
  /-- a pen-up that was reported last is in the slot or has been taken last -/
  penUp : ∀ r ∈ s.lastReport, r.pressure = 0 →
    (s.data.valid = true ∧ s.data.pressure = 0) ∨ (s.data.valid = false ∧ EndsWithPenUp s)

theorem mailInv_init : MailInv mailInit := ⟨trivial, nofun⟩

/-- While the slot is empty the reader knows nothing about it. -/
theorem ReaderPc.Ok.of_empty {d : TsData} (hd : d.valid = false) {pc : ReaderPc} (h : pc.Ok d)
    (d' : TsData) : pc.Ok d' := by
  cases pc with
  | idle => exact trivial
  | wait => exact trivial
  | copyX => exact absurd (hd.symm.trans h) Bool.false_ne_true
  | copyY px => exact absurd (hd.symm.trans h) Bool.false_ne_true
  | copyPressure px py => exact absurd (hd.symm.trans h) Bool.false_ne_true
  | clearValid r => exact absurd (hd.symm.trans h.1) Bool.false_ne_true

theorem mailInv_report {s : Mailbox} (hs : MailInv s) (r : Reading)
    (hok : PenUpFits s (.report r)) : MailInv { s with
      data := reportTsXy r.x r.y r.pressure s.data, lastReport := some r } := by
  unfold reportTsXy
  split_ifs with hvalid
  · refine ⟨hs.pc.of_empty hvalid _, ?_⟩
    rintro r' ⟨⟩ hpressure
    exact .inl ⟨rfl, hpressure⟩
  · have hvalid : s.data.valid = true := by simpa using hvalid
    refine ⟨hs.pc, ?_⟩
    rintro r' ⟨⟩ hpressure
    exact .inl ⟨hvalid, hok hpressure hvalid⟩

theorem mailInv_go {s s' : Mailbox} (hs : MailInv s) (h : mailStep s .go = some s') :
    MailInv s' := by
  obtain ⟨data, pc, lastReport, obtained⟩ := s
  obtain ⟨hpc, hpenUp⟩ := hs
  cases pc with
  | idle =>
    obtain rfl := Option.some.inj h
    exact ⟨trivial, hpenUp⟩
  | wait =>
    obtain ⟨hvalid, h⟩ := Option.ite_none_left_eq_some.mp h
    obtain rfl := Option.some.inj h
    have hfull : data.valid = true := by simpa using hvalid
    exact ⟨hfull, hpenUp⟩
  | copyX =>
    obtain rfl := Option.some.inj h
    exact ⟨hpc, hpenUp⟩
  | copyY px =>
    obtain rfl := Option.some.inj h
    exact ⟨hpc, hpenUp⟩
  | copyPressure px py =>
    obtain rfl := Option.some.inj h
    exact ⟨⟨hpc, rfl⟩, hpenUp⟩
  | clearValid r =>
    obtain rfl := Option.some.inj h
    obtain ⟨hvalid, hcopied⟩ := hpc
    refine ⟨trivial, fun r' hr' hpressure => .inr ⟨rfl, r, List.getLast?_concat, ?_⟩⟩
    rcases hpenUp r' hr' hpressure with ⟨-, hslot⟩ | ⟨hempty, -⟩
    · rw [hcopied]
      exact hslot
    · exact absurd (hempty.symm.trans hvalid) Bool.false_ne_true

theorem mailStep_preserves (s : Mailbox) (e : MailStep) (s' : Mailbox) (hs : MailInv s)
    (hok : PenUpFits s e) (h : mailStep s e = some s') : MailInv s' := by
  cases e with
  | report r =>
    obtain rfl := Option.some.inj h
    exact mailInv_report hs r hok
  | go => exact mailInv_go hs h

theorem lastReport_go {s s' : Mailbox} (h : mailStep s .go = some s') :
    s'.lastReport = s.lastReport := by
  grind [mailStep]

theorem lastReport_of_readerOnly {s s' : Mailbox} (h : Reach mailStep ReaderOnly s s') :
    s'.lastReport = s.lastReport := by
  refine h.invariant (fun t => t.lastReport = s.lastReport) rfl ?_
  rintro t e t' ht rfl hstep
  rw [lastReport_go hstep, ht]

/-! ## Runs -/

/-- If every pen-up finds the slot empty or with another pen-up in it, no pen-up is lost
    on the way to the reader. -/
theorem penUp_kept (s : Mailbox) (h : Reach mailStep PenUpFits mailInit s) : PenUpKept s := by
  intro r hr hpressure
  refine ⟨canDrain s, fun s' hreader hdrained => ?_⟩
  have hfits : Reach mailStep PenUpFits s s' := hreader.mono (by rintro t e rfl; trivial)
  have hinv : MailInv s' :=
    (h.trans hfits).invariant MailInv mailInv_init mailStep_preserves
  rw [← lastReport_of_readerOnly hreader] at hr
  rcases hinv.penUp r hr hpressure with ⟨hvalid, -⟩ | ⟨-, hlast⟩
  · exact absurd (hdrained.1.symm.trans hvalid) Bool.false_ne_true
  · exact hlast

/-- A touch that the reader takes, and the pen-up after it. -/
def touchTaken : List MailStep :=
  [.report ⟨10, 20, 1⟩, .go, .go, .go, .go, .go, .go, .report ⟨0, 0, 0⟩]

theorem penUp_kept_touchTaken :
    ∃ s, exec mailStep mailInit touchTaken = some s ∧ s.lastReport = some ⟨0, 0, 0⟩ ∧
      PenUpKept s := by
  have hrun : (exec (guarded mailStep PenUpFits) mailInit touchTaken).map
      (fun s => s.lastReport) = some (some ⟨0, 0, 0⟩) := by decide +kernel
  obtain ⟨s, hs, hlast⟩ := Option.map_eq_some_iff.mp hrun
  exact ⟨s, exec_of_guarded hs, hlast, penUp_kept s (.of_exec_guarded hs)⟩

/-- The pen is lifted before the reader has taken the touch: the reader gets the touch
    and then nothing more. -/
theorem penUp_lost :
    ¬ ∀ s, Reach mailStep anyStep mailInit s → PenUpKept s := by
  intro h
  have hreport : exec mailStep mailInit [.report ⟨10, 20, 1⟩, .report ⟨0, 0, 0⟩] =
      some ⟨⟨10, 20, 1, true⟩, .idle, some ⟨0, 0, 0⟩, []⟩ := by decide +kernel
  have hread : exec (guarded mailStep ReaderOnly)
      ⟨⟨10, 20, 1, true⟩, .idle, some ⟨0, 0, 0⟩, []⟩ [.go, .go, .go, .go, .go, .go] =
      some ⟨⟨10, 20, 1, false⟩, .idle, some ⟨0, 0, 0⟩, [⟨10, 20, 1⟩]⟩ := by decide +kernel
  obtain ⟨-, hlast⟩ := h _ (.of_exec hreport) _ rfl rfl
  obtain ⟨r, hr, hpressure⟩ := hlast _ (.of_exec_guarded hread) ⟨rfl, .inl rfl⟩
  obtain rfl : (⟨10, 20, 1⟩ : Reading) = r := Option.some.inj hr
  exact absurd hpressure (by decide)

end Jz2440.Touchscreen
