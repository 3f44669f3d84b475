import Jz2440.Common.Bytes
import Jz2440.Common.Runs

/-!
# A mouse as a keyboard

Model of `hard_driver/drivers_and_test/12th_usb/4th/usbmouse_as_key.c`. Byte 0 of a
report of the mouse holds the state of its three buttons. `usbmouse_as_key_irq`
compares it with the report before and sends an event for each button that has
changed, as the keys L, S and Enter.

The report before is kept in the static variable `pre_val`, which outlives the input
device: a new device starts with all keys up, whatever `pre_val` says.

* `reports_agree`: if the first report of every device finds `pre_val` with no button
  pressed, then after every report the keys agree with the buttons, and an event is sent
  only for a key that changes.
* `first_report_disagrees`: otherwise they disagree after that first report.
-/

namespace Jz2440.Usb

open Jz2440.Common

/-- `KEY_L`, `KEY_S` and `KEY_ENTER`. -/
inductive Key
  | l
  | s
  | enter
  deriving DecidableEq

/-- The bit of a report that stands for the key. -/
def Key.bit : Key → ℕ
  | .l => 0
  | .s => 1
  | .enter => 2

/-- `input_event(uk_dev, EV_KEY, key, value)`. -/
structure KeyEvent where
  key : Key
  value : Bool
  deriving DecidableEq

/-- One of the three tests of `usbmouse_as_key_irq`. -/
def reportKey (preVal usbBuf0 : Byte) (key : Key) : List KeyEvent :=
  if preVal &&& (1#8 <<< key.bit) ≠ usbBuf0 &&& (1#8 <<< key.bit) then
    [⟨key, usbBuf0 &&& (1#8 <<< key.bit) ≠ 0#8⟩]
  else []

/-- `usbmouse_as_key_irq` (usbmouse_as_key.c:26-70): the events that it sends. -/
def usbmouseAsKeyIrq (preVal usbBuf0 : Byte) : List KeyEvent :=
  reportKey preVal usbBuf0 .l ++ reportKey preVal usbBuf0 .s ++ reportKey preVal usbBuf0 .enter

/-- The keys of an input device: for each one the value of its last event. -/
abbrev Keys := Key → Bool

def Keys.event (keys : Keys) (e : KeyEvent) : Keys := Function.update keys e.key e.value

/-- A report that was handled: the keys before, the events, and the keys after it. -/
structure Handled where
  report : Byte
  before : Keys
  events : List KeyEvent
  after : Keys

/-- `pre_val`, the input device if there is one, whether it has had a report, and the
    reports that were handled. -/
structure Mouse where
  preVal : Byte
  ukDev : Option Keys
  reported : Bool
  handled : List Handled

inductive MouseStep
  | probe
  | report (usbBuf0 : Byte)
  | disconnect
  deriving DecidableEq

/-- One event. `usbmouse_as_key_probe` (usbmouse_as_key.c:72-121) makes a new input device;
    `usbmouse_as_key_disconnect` (123-134) removes it and stops the reports. -/
def mouseStep (m : Mouse) : MouseStep → Option Mouse
  | .probe => some { m with ukDev := some fun _ => false, reported := false }
  | .report usbBuf0 =>
    match m.ukDev with
    | none => none
    | some keys =>
      let events := usbmouseAsKeyIrq m.preVal usbBuf0
      let after := events.foldl Keys.event keys
      some ⟨usbBuf0, some after, true, m.handled ++ [⟨usbBuf0, keys, events, after⟩]⟩
  | .disconnect =>
    match m.ukDev with
    | none => none
    | some _ => some { m with ukDev := none }

def mouseInit : Mouse := ⟨0, none, false, []⟩

/-- The keys agree with the buttons, and every event has changed a key. -/
def Handled.Agrees (h : Handled) : Prop :=
  (∀ key, h.after key = h.report.getLsbD key.bit) ∧ ∀ e ∈ h.events, h.before e.key ≠ e.value

/-- No button is pressed in `pre_val` when the first report of a device is handled. -/
def StartsReleased (m : Mouse) : MouseStep → Prop
  | .report _ => m.reported = false → m.preVal &&& 7#8 = 0#8
  | _ => True

instance (m : Mouse) : (e : MouseStep) → Decidable (StartsReleased m e)
  | .report _ => inferInstanceAs (Decidable (_ → _))
  | .probe => isTrue trivial
  | .disconnect => isTrue trivial

/-! ## One report -/

theorem reportKey_eq (preVal usbBuf0 : Byte) (key : Key) :
    reportKey preVal usbBuf0 key =
      if preVal.getLsbD key.bit = usbBuf0.getLsbD key.bit then []
      else [⟨key, usbBuf0.getLsbD key.bit⟩] := by
  have hbit : key.bit < 8 := by cases key <;> decide
  simp only [reportKey, and_bit_ne_iff _ _ hbit, and_bit_ne_zero_iff _ hbit, ite_not,
    Bool.decide_eq_true, ne_eq]

theorem reportKey_changes {preVal usbBuf0 : Byte} {key : Key} {e : KeyEvent}
    (he : e ∈ reportKey preVal usbBuf0 key) :
    e.value = usbBuf0.getLsbD e.key.bit ∧ preVal.getLsbD e.key.bit ≠ e.value := by
  rw [reportKey_eq] at he
  split at he
  · cases he
  · rename_i hne
    obtain rfl := List.mem_singleton.mp he
    exact ⟨rfl, hne⟩

theorem irq_changes {preVal usbBuf0 : Byte} {e : KeyEvent}
    (he : e ∈ usbmouseAsKeyIrq preVal usbBuf0) :
    e.value = usbBuf0.getLsbD e.key.bit ∧ preVal.getLsbD e.key.bit ≠ e.value := by
  simp only [usbmouseAsKeyIrq, List.mem_append] at he
  obtain (he | he) | he := he <;> exact reportKey_changes he

/-- One test leaves the other keys alone and brings its own key from the old report to the
    new one. -/
theorem event_reportKey (preVal usbBuf0 : Byte) (keys : Keys) (key k : Key) :
    (reportKey preVal usbBuf0 key).foldl Keys.event keys k =
      if k = key ∧ preVal.getLsbD key.bit ≠ usbBuf0.getLsbD key.bit then
        usbBuf0.getLsbD key.bit
      else keys k := by
  rw [reportKey_eq]
  split
  case isTrue heq => simp [heq]
  case isFalse hne => simp [hne, Keys.event, Function.update_apply]

/-- A key follows its button if the button changed since `pre_val`, and is left alone
    otherwise. -/
theorem event_irq (preVal usbBuf0 : Byte) (keys : Keys) (k : Key) :
    (usbmouseAsKeyIrq preVal usbBuf0).foldl Keys.event keys k =
      if preVal.getLsbD k.bit = usbBuf0.getLsbD k.bit then keys k
      else usbBuf0.getLsbD k.bit := by
  simp only [usbmouseAsKeyIrq, List.foldl_append, event_reportKey]
  cases k <;> simp

/-- Where the keys are as `pre_val` says, the report is handled as it should be. -/
theorem irq_agrees {preVal : Byte} (usbBuf0 : Byte) {keys : Keys}
    (hkeys : ∀ key, keys key = preVal.getLsbD key.bit) :
    Handled.Agrees ⟨usbBuf0, keys, usbmouseAsKeyIrq preVal usbBuf0,
      (usbmouseAsKeyIrq preVal usbBuf0).foldl Keys.event keys⟩ := by
  constructor
  · intro key
    show (usbmouseAsKeyIrq preVal usbBuf0).foldl Keys.event keys key = _
    rw [event_irq, hkeys]
    split
    case isTrue heq => exact heq
    case isFalse => rfl
  · intro e he
    show keys e.key ≠ e.value
    rw [hkeys]
    exact (irq_changes he).2

theorem released_iff (b : Byte) : b &&& 7#8 = 0#8 ↔ ∀ key : Key, b.getLsbD key.bit = false := by
  have hall : ∀ b : Byte, b &&& 7#8 = 0#8 ↔
      b.getLsbD 0 = false ∧ b.getLsbD 1 = false ∧ b.getLsbD 2 = false := by decide
  rw [hall]
  constructor
  · rintro ⟨h₀, h₁, h₂⟩ key
    cases key <;> assumption
  · exact fun h => ⟨h .l, h .s, h .enter⟩

/-! ## Every run -/

/-- The keys of a device that has had a report are as `pre_val` says; those of a device that
    has not are up. -/
structure MouseInv (m : Mouse) : Prop where
  keys_eq : ∀ keys, m.ukDev = some keys →
    ∀ key, keys key = (m.reported && m.preVal.getLsbD key.bit)
  agrees : ∀ h ∈ m.handled, h.Agrees

theorem mouseInv_init : MouseInv mouseInit :=
  ⟨nofun, nofun⟩

theorem mouseInv_step {m m' : Mouse} {e : MouseStep} (hinv : MouseInv m)
    (hok : StartsReleased m e) (hstep : mouseStep m e = some m') : MouseInv m' := by
  obtain ⟨preVal, ukDev, reported, handled⟩ := m
  cases e with
  | probe =>
    obtain rfl := Option.some.inj hstep
    refine ⟨?_, hinv.agrees⟩
    rintro keys hkeys key
    obtain rfl := Option.some.inj hkeys
    rfl
  | disconnect =>
    cases ukDev with
    | none => cases hstep
    | some keys =>
      obtain rfl := Option.some.inj hstep
      exact ⟨nofun, hinv.agrees⟩
  | report usbBuf0 =>
    cases ukDev with
    | none => cases hstep
    | some keys =>
      obtain rfl := Option.some.inj hstep
      -- a new device has its keys up, and then so does `pre_val` by the condition
      have hkeys : ∀ key, keys key = preVal.getLsbD key.bit := by
        intro key
        rw [hinv.keys_eq keys rfl key]
        cases reported with
        | true => rfl
        | false => exact ((released_iff preVal).mp (hok rfl) key).symm
      have hagree := irq_agrees usbBuf0 hkeys
      refine ⟨?_, ?_⟩
      · rintro after hafter key
        obtain rfl := Option.some.inj hafter
        exact hagree.1 key
      · intro h hmem
        obtain hmem | hmem := List.mem_append.mp hmem
        · exact hinv.agrees h hmem
        · obtain rfl := List.mem_singleton.mp hmem
          exact hagree

/-- In every run in which the first report of each device finds no button pressed in
    `pre_val`, every report leaves the keys as its buttons are, and its events change keys. -/
theorem reports_agree {m : Mouse} (hrun : Reach mouseStep StartsReleased mouseInit m) :
    ∀ h ∈ m.handled, h.Agrees :=
  (hrun.invariant MouseInv mouseInv_init fun _ _ _ => mouseInv_step).agrees

/-- The left button goes down and up, and then a second mouse has two buttons pressed. -/
def replugReleased : List MouseStep :=
  [.probe, .report 1, .report 0, .disconnect, .probe, .report 3]

theorem reports_agree_replugReleased :
    ∃ m, exec mouseStep mouseInit replugReleased = some m ∧
      m.handled.map Handled.report = [1, 0, 3] ∧ ∀ h ∈ m.handled, h.Agrees := by
  have hrun : (exec (guarded mouseStep StartsReleased) mouseInit replugReleased).map
      (fun m => m.handled.map Handled.report) = some [1, 0, 3] := by decide +kernel
  obtain ⟨m, hm, hreports⟩ := Option.map_eq_some_iff.mp hrun
  exact ⟨m, exec_of_guarded hm, hreports, reports_agree (.of_exec_guarded hm)⟩

/-- The condition cannot be dropped: on a new device whose keys are up, a report that repeats
    a pressed button of `pre_val` leaves its key up. -/
theorem first_report_disagrees {preVal : Byte} (hpressed : preVal &&& 7#8 ≠ 0#8) :
    ¬ Handled.Agrees ⟨preVal, fun _ => false, usbmouseAsKeyIrq preVal preVal,
      (usbmouseAsKeyIrq preVal preVal).foldl Keys.event fun _ => false⟩ := by
  intro hagree
  apply hpressed
  rw [released_iff]
  intro key
  have hkey : (usbmouseAsKeyIrq preVal preVal).foldl Keys.event (fun _ => false) key =
      preVal.getLsbD key.bit := hagree.1 key
  rw [event_irq, if_pos rfl] at hkey
  exact hkey.symm

/-- The mouse is unplugged with its left button pressed, and the next one reports the left
    button pressed too: no event is sent and `KEY_L` of the new device stays up. -/
theorem replug_pressed_disagrees :
    ¬ ∀ m, Reach mouseStep anyStep mouseInit m → ∀ h ∈ m.handled, h.Agrees := by
  intro hall
  have hrun : exec mouseStep mouseInit [.probe, .report 1, .disconnect, .probe, .report 1] =
      some ⟨1, some fun _ => false, true,
        [⟨1, fun _ => false, usbmouseAsKeyIrq 0 1, Function.update (fun _ => false) .l true⟩,
         ⟨1, fun _ => false, usbmouseAsKeyIrq 1 1,
          (usbmouseAsKeyIrq 1 1).foldl Keys.event fun _ => false⟩]⟩ := rfl
  have hlast := hall _ (.of_exec hrun) _ (List.mem_cons_of_mem _ (List.mem_singleton.mpr rfl))
  exact first_report_disagrees (by decide) hlast

end Jz2440.Usb
