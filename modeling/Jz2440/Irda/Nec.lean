import Jz2440.Common.Loop
import Jz2440.Irda.CircleBuffer

/-!
# The NEC decoder

Model of `irda_nec_read` in `sensors/irda/irda_nec.c` of
`hard_driver/first_hard/025_sensors_022/007_irda_nec_ok_022_009`.

The decoder polls the ring buffer. Here its input is the list of the events to
come, each with the number of polls that find the buffer empty before the event
arrives; `irEventGet_simulates` connects such a list with the buffer.
`irda_nec_read` waits for a first event without a limit, so it is a `loop`; the
further events have to arrive within 10000 polls.

`irdaNecRead_frame`: a frame with jitter of up to 280 us on each pulse is decoded
to the bytes that it encodes.
-/

namespace Jz2440.Irda

open Jz2440.Common

/-- The events to come, each after a number of polls of the empty buffer. -/
abbrev EventStream := List (ℕ × IrdaRawEvent)

/-- `ir_event_get`: one poll. `none` is the result -1. -/
def irEventGet : EventStream → Option IrdaRawEvent × EventStream
  | [] => (none, [])
  | (0, e) :: evs => (some e, evs)
  | (delay + 1, e) :: evs => (none, (delay, e) :: evs)

/-- `ir_event_get_timeout`: at most `timeoutUs` polls. -/
def irEventGetTimeout : ℕ → EventStream → Option IrdaRawEvent × EventStream
  | 0, evs => (none, evs)
  | timeoutUs + 1, evs =>
    match irEventGet evs with
    | (some e, evs) => (some e, evs)
    | (none, evs) => irEventGetTimeout timeoutUs evs

/-! ## The decoder -/

/-- irda_nec.c:9-17. -/
def durationBase : ℤ := 563
def durationDelta : ℤ := durationBase / 2
def durationHeadLow : ℤ := 16 * durationBase
def durationHeadHigh : ℤ := 8 * durationBase
def durationRepeatHigh : ℤ := 4 * durationBase
def durationDataLow : ℤ := 1 * durationBase
def durationData1High : ℤ := 3 * durationBase
def durationData0High : ℤ := 1 * durationBase

/-- `duration_in_margin` (irda_nec.c:20-26). -/
def durationInMargin (duration us : ℤ) : Bool :=
  decide (duration > us - durationDelta) && decide (duration < us + durationDelta)

/-- The test that the code makes of every event. -/
def isPulse (event : IrdaRawEvent) (pol us : ℤ) : Bool :=
  event.pol == pol && durationInMargin event.duration us

/-- The body of the `for` loop (irda_nec.c:61-103); `none` is a `return -1`. -/
def readBit (i : ℕ) (val : Word) (evs : EventStream) : Option Word × EventStream :=
  match irEventGetTimeout 10000 evs with
  | (none, evs) => (none, evs)
  | (some event, evs) =>
    if isPulse event 0 durationDataLow then
      match irEventGetTimeout 10000 evs with
      | (none, evs) => (none, evs)
      | (some event, evs) =>
        if isPulse event 1 durationData1High then (some (val ||| (1#32 <<< i)), evs)
        else if isPulse event 1 durationData0High then (some val, evs)
        else (none, evs)
    else (none, evs)

/-- The `for` loop, with `n` bits to go. -/
def readBits : (n i : ℕ) → Word → EventStream → Option Word × EventStream
  | 0, _, val, evs => (some val, evs)
  | n + 1, i, val, evs =>
    match readBit i val evs with
    | (none, evs) => (none, evs)
    | (some val, evs) => readBits n (i + 1) val evs

/-- The result of `irda_nec_read`, `*address` and `*data` after it, and the events
    that it leaves. -/
structure NecResult where
  ret : ℤ
  address : ℤ
  data : ℤ
  rest : EventStream

/-- `byte[j] = (val >> 8*j) & 0xff` (irda_nec.c:107-110). -/
def byteOf (val : Word) (j : ℕ) : Byte := ((val >>> (8 * j)) &&& 0xff#32).setWidth 8

/-- irda_nec.c:107-129. The comparison of `byte[0]` with `~byte[1]` has no effect. -/
def checkVal (val : Word) (address data : ℤ) (evs : EventStream) : NecResult :=
  if byteOf val 2 ≠ ~~~byteOf val 3 then ⟨-1, address, data, evs⟩
  else ⟨0, (byteOf val 0).toNat, (byteOf val 2).toNat, evs⟩

/-- One pass of `while (1)` (irda_nec.c:38-151). After a head pulse that nothing
    follows in time, the code goes back to the loop head. -/
def irdaNecReadPass (address data : ℤ) (evs : EventStream) : Pass EventStream NecResult :=
  match irEventGet evs with
  | (none, evs) => .again evs
  | (some event, evs) =>
    if isPulse event 0 durationHeadLow then
      match irEventGetTimeout 10000 evs with
      | (none, evs) => .again evs
      | (some event, evs) =>
        if isPulse event 1 durationHeadHigh then
          match readBits 32 0 0 evs with
          | (none, evs) => .leave ⟨-1, address, data, evs⟩
          | (some val, evs) => .leave (checkVal val address data evs)
        else if isPulse event 1 durationRepeatHigh then .leave ⟨1, address, data, evs⟩
        else .leave ⟨-1, address, data, evs⟩
    else .leave ⟨-1, address, data, evs⟩

/-- `irda_nec_read` (irda_nec.c:31-152) with `*address` and `*data` as given. -/
def irdaNecRead (fuel : ℕ) (address data : ℤ) (evs : EventStream) : Option NecResult :=
  loop (irdaNecReadPass address data) fuel evs

/-! ## Frames -/

/-- The bits of a byte, least significant bit first. -/
def byteBits (v : Byte) : List Bool := (List.range 8).map v.getLsbD

/-- Level and duration of the two pulses of each bit. -/
def bitPulses (bits : List Bool) : List (ℤ × ℤ) :=
  bits.flatMap fun bit => [(0, 563), (1, if bit then 3 * 563 else 563)]

/-- The pulses of a frame that encodes `a`, `b`, `d` and the complement of `d`. -/
def framePulses (a b d : Byte) : List (ℤ × ℤ) :=
  (0, 16 * 563) :: (1, 8 * 563) :: bitPulses ([a, b, d, ~~~d].flatMap byteBits)

/-- The event is the given pulse with at most 280 us of jitter. -/
def Near (pulse : ℤ × ℤ) (ev : ℕ × IrdaRawEvent) : Prop :=
  ev.2.pol = pulse.1 ∧ |ev.2.duration - pulse.2| ≤ 280

/-- The events of a frame, with no timeout after the first one. -/
structure NecFrame (a b d : Byte) (frame : EventStream) : Prop where
  pulses : List.Forall₂ Near (framePulses a b d) frame
  noTimeout : ∀ ev ∈ frame.tail, ev.1 < 10000

/-! ## Polling -/

/-- The events that have arrived. -/
def arrived (evs : EventStream) : List IrdaRawEvent :=
  (evs.takeWhile fun ev => ev.1 == 0).map Prod.snd

/-- When the buffer holds the events that have arrived, `ir_event_get` of the
    buffer, run without interrupts, does what `irEventGet` says. -/
theorem irEventGet_simulates {s : State} (h : RingInv s) (hidle : s.pc = .idle) {evs : EventStream}
    (hstored : s.buf.stored = arrived evs) (pd : IrdaRawEvent) :
    match irEventGet evs with
    | (some e, rest) => ∃ s', exec ringStep s [.get pd, .stmt, .stmt, .stmt] = some s' ∧
        s'.gets.getLast?.map GetRecord.ret = some 0 ∧ s'.pd = e ∧ s'.buf.stored = arrived rest
    | (none, _) => ∃ s', exec ringStep s [.get pd, .stmt] = some s' ∧
        s'.gets.getLast?.map GetRecord.ret = some (-1) ∧ s'.pd = pd ∧ s'.buf = s.buf := by
  -- the buffer is empty exactly when the first event is still to come
  have hfail : arrived evs = [] → ∃ s', exec ringStep s [.get pd, .stmt] = some s' ∧
      s'.gets.getLast?.map GetRecord.ret = some (-1) ∧ s'.pd = pd ∧ s'.buf = s.buf := by
    intro hnil
    have hempty := (isIrEventBufEmpty_iff h.inRange).mpr (hstored.trans hnil)
    refine ⟨(s.call pd s.timeoutUs (.test .irEventGet)).return (-1), ?_, ?_, rfl, rfl⟩
    · simp [exec, ringStep, hidle, stmt, State.call, hempty]
    · simp [State.return]
  rcases evs with _ | ⟨⟨_ | delay, e⟩, evs⟩
  case nil => exact hfail rfl
  case cons.succ => exact hfail rfl
  case cons.zero =>
    have hcons : s.buf.stored = e :: arrived evs := hstored
    have hempty : isIrEventBufEmpty s.buf = false := by
      rw [← Bool.not_eq_true, isIrEventBufEmpty_iff h.inRange, hcons]
      exact List.cons_ne_nil _ _
    have hne : s.buf.gR ≠ s.buf.gW := by simpa [isIrEventBufEmpty] using hempty
    rw [stored_advance h.inRange hne, List.cons.injEq] at hcons
    let called := s.call pd s.timeoutUs (.test .irEventGet)
    refine ⟨{ called with
      pd := s.buf.gEvents s.buf.gR, pc := .advance
      buf := { s.buf with gR := nextPlace s.buf.gR } }.return 0, ?_, ?_, hcons.1, hcons.2⟩
    · simp [exec, ringStep, hidle, stmt, State.call, hempty, called]
    · simp [State.return]

/-- An event that arrives in time is received. -/
theorem irEventGetTimeout_eq {timeoutUs : ℕ} {ev : ℕ × IrdaRawEvent} (h : ev.1 < timeoutUs)
    (evs : EventStream) : irEventGetTimeout timeoutUs (ev :: evs) = (some ev.2, evs) := by
  obtain ⟨delay, e⟩ := ev
  induction delay generalizing timeoutUs with
  | zero =>
    obtain ⟨t, rfl⟩ := Nat.exists_eq_add_of_lt h
    rw [Nat.zero_add]
    rfl
  | succ delay ih =>
    obtain ⟨t, rfl⟩ := Nat.exists_eq_add_of_lt h
    show irEventGetTimeout (delay + 1 + t) ((delay, e) :: evs) = (some e, evs)
    exact ih (by simp only; omega)

/-! ## Pulses -/

/-- A pulse with jitter passes the test for it. -/
theorem isPulse_of_near {pol us : ℤ} {ev : ℕ × IrdaRawEvent} (h : Near (pol, us) ev) :
    isPulse ev.2 pol us = true := by
  obtain ⟨hpol, hdur⟩ := h
  obtain ⟨hlo, hhi⟩ := abs_le.mp hdur
  have hdelta : durationDelta = 281 := rfl
  have hmargin : ev.2.duration > us - durationDelta ∧ ev.2.duration < us + durationDelta := by
    dsimp only at hlo hhi
    omega
  simpa [isPulse, durationInMargin] using And.intro hpol hmargin

/-- The short pulse of a 0 bit is not taken for the long one of a 1 bit. -/
theorem not_isPulse_data1 {ev : ℕ × IrdaRawEvent} (h : Near (1, 563) ev) :
    isPulse ev.2 1 durationData1High = false := by
  obtain ⟨-, hdur⟩ := h
  obtain ⟨-, hhi⟩ := abs_le.mp hdur
  have hlow : ¬ ev.2.duration > durationData1High - durationDelta := by
    have hmargin : durationData1High - durationDelta = 1408 := rfl
    dsimp only at hhi
    omega
  simp [isPulse, durationInMargin, hlow]

/-- `val` with the bits `bits` set from position `i` on. -/
def orBits : ℕ → Word → List Bool → Word
  | _, val, [] => val
  | i, val, bit :: bits => orBits (i + 1) (if bit then val ||| (1#32 <<< i) else val) bits

theorem readBit_eq {bit : Bool} {low high : ℕ × IrdaRawEvent} (hlow : Near (0, 563) low)
    (hhigh : Near (1, if bit then 3 * 563 else 563) high) (hdlow : low.1 < 10000)
    (hdhigh : high.1 < 10000) (i : ℕ) (val : Word) (evs : EventStream) :
    readBit i val (low :: high :: evs) =
      (some (if bit then val ||| (1#32 <<< i) else val), evs) := by
  have hl : isPulse low.2 0 durationDataLow = true := isPulse_of_near hlow
  unfold readBit
  simp only [irEventGetTimeout_eq hdlow, irEventGetTimeout_eq hdhigh, hl, if_true]
  cases bit with
  | true =>
    have hh : isPulse high.2 1 durationData1High = true := isPulse_of_near hhigh
    simp only [hh, if_true]
  | false =>
    have hh : isPulse high.2 1 durationData0High = true := isPulse_of_near hhigh
    simp only [not_isPulse_data1 hhigh, hh, if_true, Bool.false_eq_true, if_false]

/-- The `for` loop reads the bits that the pulses encode. -/
theorem readBits_eq {bits : List Bool} {pulses : EventStream}
    (h : List.Forall₂ Near (bitPulses bits) pulses) (hdelay : ∀ ev ∈ pulses, ev.1 < 10000) (i : ℕ)
    (val : Word) (evs : EventStream) :
    readBits bits.length i val (pulses ++ evs) = (some (orBits i val bits), evs) := by
  induction bits generalizing pulses i val with
  | nil =>
    cases h
    rfl
  | cons bit bits ih =>
    obtain ⟨low, pulses₁, hlow, h₁, rfl⟩ := List.forall₂_cons_left_iff.mp h
    obtain ⟨high, pulses₂, hhigh, h₂, rfl⟩ := List.forall₂_cons_left_iff.mp h₁
    simp only [List.mem_cons, forall_eq_or_imp] at hdelay
    obtain ⟨hdlow, hdhigh, hdelay⟩ := hdelay
    rw [List.length_cons, List.cons_append, List.cons_append]
    simp only [readBits, readBit_eq hlow hhigh hdlow hdhigh]
    exact ih h₂ hdelay (i + 1) _

/-! ## Bits and bytes -/

theorem getLsbD_orBits (i : ℕ) (val : Word) (bits : List Bool) {k : ℕ} (hk : k < 32) :
    (orBits i val bits).getLsbD k =
      (val.getLsbD k || (decide (i ≤ k) && bits[k - i]?.getD false)) := by
  induction bits generalizing i val with
  | nil => simp [orBits]
  | cons bit bits ih =>
    rw [orBits, ih]
    have hbit : (if bit then val ||| (1#32 <<< i) else val).getLsbD k =
        (val.getLsbD k || (bit && decide (k = i))) := by
      cases bit
      · simp
      · have : (1#32 <<< i).getLsbD k = decide (k = i) := by
          simp only [BitVec.getLsbD_shiftLeft, BitVec.getLsbD_one, hk]
          by_cases hki : k = i
          · simp [hki]
          · have : k < i ∨ k - i ≠ 0 := by omega
            rcases this with h | h <;> simp [hki, h]
        simp [BitVec.getLsbD_or, this]
    rw [hbit]
    rcases Nat.lt_trichotomy k i with hki | hki | hki
    · have h1 : ¬ i ≤ k := by omega
      have h2 : ¬ i + 1 ≤ k := by omega
      simp [h1, h2, hki.ne]
    · subst hki
      simp
    · have h1 : i ≤ k := by omega
      have h2 : i + 1 ≤ k := by omega
      have hsub : k - i = k - (i + 1) + 1 := by omega
      simp [h1, h2, hki.ne', hsub]

theorem getElem?_flatMap_byteBits (bytes : List Byte) {j k : ℕ} (hj : j < bytes.length)
    (hk : k < 8) :
    (bytes.flatMap byteBits)[8 * j + k]? = some ((bytes.get ⟨j, hj⟩).getLsbD k) := by
  induction bytes generalizing j with
  | nil => simp at hj
  | cons v bytes ih =>
    have hlen : (byteBits v).length = 8 := by simp [byteBits]
    rw [List.flatMap_cons]
    cases j with
    | zero =>
      rw [List.getElem?_append_left (by omega)]
      simp [byteBits, hk]
    | succ j =>
      rw [List.getElem?_append_right (by omega), hlen,
        show 8 * (j + 1) + k - 8 = 8 * j + k by omega, ih (by simpa using hj)]
      rfl

/-- The bytes of the value are the bytes that the bits encode. -/
theorem byteOf_orBits (bytes : List Byte) {j : ℕ} (hj : j < bytes.length) (hj4 : j < 4) :
    byteOf (orBits 0 0 (bytes.flatMap byteBits)) j = bytes.get ⟨j, hj⟩ := by
  apply BitVec.eq_of_getLsbD_eq
  intro k hk
  have hmask : (0xff#32).getLsbD k = true := by
    interval_cases k <;> rfl
  have hbit := getLsbD_orBits 0 0 (bytes.flatMap byteBits) (show 8 * j + k < 32 by omega)
  rw [Nat.sub_zero, getElem?_flatMap_byteBits bytes hj hk] at hbit
  simp only [byteOf, BitVec.getLsbD_setWidth, BitVec.getLsbD_and, BitVec.getLsbD_ushiftRight, hbit,
    hmask, hk]
  simp

theorem checkVal_rest (val : Word) (address data : ℤ) (evs : EventStream) :
    (checkVal val address data evs).rest = evs := by
  unfold checkVal
  split_ifs <;> rfl

theorem checkVal_frame (a b d : Byte) (address data : ℤ) (evs : EventStream) :
    checkVal (orBits 0 0 ([a, b, d, ~~~d].flatMap byteBits)) address data evs =
      ⟨0, a.toNat, d.toNat, evs⟩ := by
  have h0 := byteOf_orBits [a, b, d, ~~~d] (j := 0) (by simp) (by decide)
  have h2 := byteOf_orBits [a, b, d, ~~~d] (j := 2) (by simp) (by decide)
  have h3 := byteOf_orBits [a, b, d, ~~~d] (j := 3) (by simp) (by decide)
  unfold checkVal
  rw [h0, h2, h3]
  simp

/-! ## The whole frame -/

/-- Polls before the first event change nothing. -/
theorem irdaNecRead_wait {address data : ℤ} {delay : ℕ} {e : IrdaRawEvent} {evs : EventStream}
    {r : NecResult}
    (h : Returns (irdaNecReadPass address data) ((0, e) :: evs) r) :
    Returns (irdaNecReadPass address data) ((delay, e) :: evs) r := by
  induction delay with
  | zero => exact h
  | succ delay ih =>
    have hpass : irdaNecReadPass address data ((delay + 1, e) :: evs) =
        .again ((delay, e) :: evs) := rfl
    exact .of_again hpass ih

/-- A call that starts at the first event of a frame takes exactly the frame. -/
theorem NecFrame.returns {a b d : Byte} {frame : EventStream} (h : NecFrame a b d frame)
    (rest : EventStream) (address data : ℤ) :
    Returns (irdaNecReadPass address data) (frame ++ rest) ⟨0, a.toNat, d.toNat, rest⟩ := by
  obtain ⟨hpulses, hdelay⟩ := h
  obtain ⟨low, frame₁, hlow, hpulses₁, rfl⟩ := List.forall₂_cons_left_iff.mp hpulses
  obtain ⟨high, frame₂, hhigh, hpulses₂, rfl⟩ := List.forall₂_cons_left_iff.mp hpulses₁
  simp only [List.tail_cons, List.mem_cons, forall_eq_or_imp] at hdelay
  obtain ⟨hdhigh, hdelay⟩ := hdelay
  obtain ⟨delay, e⟩ := low
  show Returns (irdaNecReadPass address data) ((delay, e) :: high :: (frame₂ ++ rest)) _
  apply irdaNecRead_wait
  apply Returns.of_leave
  have hl : isPulse e 0 durationHeadLow = true := isPulse_of_near hlow
  have hh : isPulse high.2 1 durationHeadHigh = true := isPulse_of_near hhigh
  have hbits := readBits_eq hpulses₂ hdelay 0 0 rest
  rw [show ([a, b, d, ~~~d].flatMap byteBits).length = 32 by simp [byteBits]] at hbits
  simp only [irdaNecReadPass, irEventGet, hl, if_true,
    irEventGetTimeout_eq hdhigh, hh, hbits, checkVal_frame]

/-- Whatever bytes it encodes, a frame with jitter is decoded to its address and
    data byte, and exactly its 66 events are consumed. -/
theorem irdaNecRead_frame (a b d : Byte) (frame : EventStream) (h : NecFrame a b d frame)
    (rest : EventStream) (address data : ℤ) :
    Yields (fun fuel => irdaNecRead fuel address data (frame ++ rest))
      ⟨0, a.toNat, d.toNat, rest⟩ ∧ frame.length = 66 := by
  refine ⟨h.returns rest address data, ?_⟩
  rw [← h.pulses.length_eq]
  rfl

/-- The frame of a remote control that sends the bytes 0x00, 0xff, 0x16, 0xe9. -/
def keyFrame : EventStream := (framePulses 0x00 0xff 0x16).map fun p => (3, ⟨p.1, p.2 + 100⟩)

theorem necFrame_keyFrame : NecFrame 0x00 0xff 0x16 keyFrame := by
  constructor
  · unfold keyFrame
    rw [List.forall₂_map_right_iff, List.forall₂_same]
    intro p _
    refine ⟨rfl, ?_⟩
    dsimp only
    rw [add_sub_cancel_left]
    decide
  · intro ev hev
    obtain ⟨p, -, rfl⟩ := List.mem_map.mp (List.mem_of_mem_tail hev)
    norm_num

theorem irdaNecRead_keyFrame :
    NecFrame 0x00 0xff 0x16 keyFrame ∧
      Yields (fun fuel => irdaNecRead fuel 0 0 (keyFrame ++ [])) ⟨0, 0, 0x16, []⟩ :=
  ⟨necFrame_keyFrame, (irdaNecRead_frame 0x00 0xff 0x16 keyFrame necFrame_keyFrame [] 0 0).1⟩

end Jz2440.Irda
