import Jz2440.Common.Errno
import Jz2440.Common.History
import Jz2440.Common.Runs
import Jz2440.Sound.Buffers

/-!
# Recording sound

Model of `smdk2410_audio_read` in `hard_driver/drivers_and_test/21th_sound/driver/s3c-wm8976.c`,
called by the process that has opened the device for reading while the DMA controller records. As
for playing, the controller may move between any two steps of the process.

The first read hands all buffers to the controller, unless `smdk2410_audio_poll` or
`SNDCTL_DSP_SETFRAGMENT` have set them up before; then the read finds them empty and hands them over
one by one.

* `Ring.Rec`: what holds of the buffers between two steps.
* `recStep_inv`: every step of either side keeps the invariant.
* `recording`: what the calls have taken out of the buffers and what is still there is what was
  recorded, in order, and only a call that faults keeps from the process what it has taken.
-/

namespace Jz2440.Sound

open Jz2440.Common

namespace Recording

/-! ## The code -/

/-- A call of `smdk2410_audio_read`. -/
structure ReadCall where
  count : ℕ
  nonblock : Bool

/-- Where the process is: `left` is `count`, `got` is what lies between `buffer0` and `buffer`, and
    `part` is what was copied of the chunk so far. -/
inductive Pc
  | user
  | prime (c : ReadCall) (i : ℕ)
  | read (c : ReadCall) (left : ℕ) (got : List Byte)
  | copy (c : ReadCall) (left : ℕ) (got : List Byte) (chunk : ℕ) (part : List Byte)

/-- A call that has returned, with the bytes that it has taken out of buffers. A chunk whose copy
    faults stays in its buffer and is copied again by the next call. -/
structure ReadDone where
  call : ReadCall
  ret : ℤ
  got : List Byte

/-- `buffers` says whether `s->buffers` is set. -/
structure Recorder where
  ring : Ring
  buffers : Bool
  pc : Pc
  log : List ReadDone

def Recorder.return (p : Recorder) (e : ReadDone) : Recorder :=
  { p with pc := .user, log := p.log ++ [e] }

/-- `ret` after the loop, if it was entered. -/
def ReadCall.ret (c : ReadCall) (got : List Byte) : ℤ :=
  if got.length ≠ 0 then got.length else if c.nonblock then - EAGAIN else - ERESTARTSYS

/-- `while (count > 0)`; `ret` is that of the last pass. -/
def Recorder.loop (p : Recorder) (c : ReadCall) (left : ℕ) (got : List Byte) : Recorder :=
  if 0 < left then { p with pc := .read c left got } else p.return ⟨c, got.length, got⟩

inductive Act
  | call (c : ReadCall)
  | prime (e : Enqueued)
  | down
  | giveUp
  | byte
  | fault
  | finish (e : Enqueued)
  | dma (sample : Byte)

/-- `s3c2410_dma_enqueue`, whose result is not looked at, and `NEXT_BUF`. -/
def Ring.hand (f : Frags) (g : Ring) (e : Enqueued) : Ring :=
  if e.queues then g.enqueue f f.fragsize g.buf
  else { g with bufIdx := (g.bufIdx + 1) % f.nbfrags }

def recStep (f : Frags) (p : Recorder) : Act → Option Recorder
  | .call c =>
    match p.pc with
    | .user =>
      if p.buffers then some (p.loop c c.count [])
      else some { p with buffers := true, pc := .prime c 0 }
    | _ => none
  | .prime e =>
    match p.pc with
    | .prime c i =>
      if 0 < p.ring.buf.sem then
        let ring := Ring.hand f (p.ring.setBuf { p.ring.buf with sem := p.ring.buf.sem - 1 }) e
        if i + 1 < f.nbfrags then some { p with ring := ring, pc := .prime c (i + 1) }
        else some (Recorder.loop { p with ring := ring } c c.count [])
      else none
    | _ => none
  | .down =>
    match p.pc with
    | .read c left got =>
      if 0 < p.ring.buf.sem then
        some { p with
          ring := p.ring.setBuf { p.ring.buf with sem := p.ring.buf.sem - 1 }
          pc := .copy c left got (min p.ring.buf.size left) [] }
      else none
    | _ => none
  | .giveUp =>
    match p.pc with
    | .read c _ got =>
      if p.ring.buf.sem = 0 then some (p.return ⟨c, c.ret got, got⟩) else none
    | _ => none
  | .byte =>
    match p.pc with
    | .copy c left got chunk part =>
      if part.length < chunk then
        let byte := p.ring.buf.data (f.fragsize - p.ring.buf.size + part.length)
        some { p with pc := .copy c left got chunk (part ++ [byte]) }
      else none
    | _ => none
  | .fault =>
    match p.pc with
    | .copy c _ got chunk part =>
      if part.length < chunk then
        some (Recorder.return
          { p with ring := p.ring.setBuf { p.ring.buf with sem := p.ring.buf.sem + 1 } }
          ⟨c, -EFAULT, got⟩)
      else none
    | _ => none
  | .finish e =>
    match p.pc with
    | .copy c left got chunk part =>
      if part.length = chunk then
        let b := { p.ring.buf with size := p.ring.buf.size - chunk }
        if 0 < b.size then
          some (Recorder.return { p with ring := p.ring.setBuf { b with sem := b.sem + 1 } }
            ⟨c, c.ret (got ++ part), got ++ part⟩)
        else
          some (Recorder.loop { p with ring := Ring.hand f (p.ring.setBuf b) e } c
            (left - chunk) (got ++ part))
      else none
    | _ => none
  | .dma sample => (p.ring.dmaIn sample).map fun ring => { p with ring := ring }

/-- Before the first read, with or without `audio_setup_buf`. -/
def openRecorder (junk : ℕ → ℕ → Byte) (buffers : Bool) : Recorder :=
  ⟨audioSetupBuf junk, buffers, .user, []⟩

/-! ## What was given and what is still there -/

def Pc.got : Pc → List Byte
  | .read _ _ got | .copy _ _ got _ _ => got
  | _ => []

/-- The bytes that the calls have taken out of buffers so far. -/
def Recorder.taken (p : Recorder) : List Byte := p.log.flatMap ReadDone.got ++ p.pc.got

/-- The bytes of a buffer that were not read yet. -/
def unread (f : Frags) (b : Buf) : List Byte :=
  (List.range b.size).map fun k => b.data (f.fragsize - b.size + k)

/-- The buffers that the controller has given back, in the order in which they are read. -/
def Ring.free (f : Frags) (g : Ring) : List ℕ :=
  slots f.nbfrags g.bufIdx (g.bufIdx + (f.nbfrags - g.queue.length))

/-- What the controller has put into its buffer so far. -/
def Ring.arriving (g : Ring) : List Byte :=
  match g.queue with
  | [] => []
  | (i, _) :: _ => (List.range g.pos).map (g.bufs i).data

/-- The bytes that are recorded and not read. -/
def Ring.backlog (f : Frags) (g : Ring) : List Byte :=
  (Ring.free f g).flatMap (fun i => unread f (g.bufs i)) ++ Ring.arriving g

/-- A count is the number of the bytes that were taken, and after any error but `-EFAULT` none
    were. -/
def ReadDone.Ok (e : ReadDone) : Prop :=
  (0 ≤ e.ret → e.ret = e.got.length) ∧ e.got.length ≤ e.call.count ∧
    (e.ret < 0 → e.ret = -EFAULT ∨ e.got = [])

/-- No buffer is lost because it could not be enqueued. -/
def enqueues (a : Act) : Bool :=
  match a with
  | .prime e | .finish e => e.queues
  | _ => true

/-! ## The buffers between two steps -/

/-- The controller fills whole buffers, and is not beyond the end of its buffer. -/
structure Ring.Rec (f : Frags) (held : Bool) (g : Ring) : Prop where
  turn : g.Turn f held
  size_le : ∀ i < f.nbfrags, (g.bufs i).size ≤ f.fragsize
  queue_size : ∀ q ∈ g.queue, q.2 = f.fragsize
  pos_le : g.pos ≤ f.fragsize
  pos_idle : g.queue = [] → g.pos = 0

section Rec

variable {f : Frags} {held : Bool} {g : Ring}

theorem rec_audioSetupBuf (f : Frags) (junk : ℕ → ℕ → Byte) :
    Ring.Rec f false (audioSetupBuf junk) where
  turn := turn_audioSetupBuf f junk
  size_le := fun _ _ => Nat.zero_le _
  queue_size := nofun
  pos_le := Nat.zero_le _
  pos_idle := fun _ => rfl

/-- The buffers outside of the queue are those from `s->buf` on. -/
theorem free_eq (h : g.Turn f held) :
    ∃ r w, r ≤ w ∧ w ≤ r + f.nbfrags ∧ g.bufIdx = w % f.nbfrags ∧
      g.queued = slots f.nbfrags r w ∧ Ring.free f g = slots f.nbfrags w (r + f.nbfrags) := by
  obtain ⟨r, w, hrw, hwn, hidx, hslots⟩ := h.turn
  have hlen : g.queue.length = w - r := by
    have := congrArg List.length hslots
    simpa [Ring.queued, slots] using this
  refine ⟨r, w, hrw, hwn, hidx, hslots, ?_⟩
  rw [Ring.free, hidx, slots_mod, hlen, show w + (f.nbfrags - (w - r)) = r + f.nbfrags by omega]

/-- No buffer is on both sides. -/
theorem free_not_queued (h : g.Turn f held) {i : ℕ} (hi : i ∈ Ring.free f g) : i ∉ g.queued := by
  obtain ⟨r, w, hrw, hwn, -, hslots, hfree⟩ := free_eq h
  rw [hfree, slots, List.mem_map] at hi
  obtain ⟨k, hk, rfl⟩ := hi
  rw [List.mem_range'_1] at hk
  rw [hslots, mod_mem_slots le_rfl hwn (by omega)]
  omega

/-- While `s->buf` is not in the queue, it is the first of the free buffers. -/
theorem free_cons (h : g.Turn f held) (hmine : g.bufIdx ∉ g.queued) :
    ∃ rest, Ring.free f g = g.bufIdx :: rest ∧ g.bufIdx ∉ rest := by
  obtain ⟨r, w, hrw, hwn, hidx, hslots, hfree⟩ := free_eq h
  have hn := f.two_le
  have hlt : w < r + f.nbfrags := by
    rw [hslots, hidx, next_mem_slots (by omega) hrw hwn] at hmine
    omega
  refine ⟨slots f.nbfrags (w + 1) (r + f.nbfrags), ?_, ?_⟩
  · rw [hfree, slots_pop _ hlt, hidx]
  · rw [hidx, mod_mem_slots (Nat.le_succ w) (by omega) (by omega)]
    omega

/-- A change of `s->buf` shows in its own bytes only. -/
theorem backlog_setBuf (h : g.Turn f held) (hmine : g.bufIdx ∉ g.queued) :
    ∃ tail, ∀ b, Ring.backlog f (g.setBuf b) = unread f b ++ tail := by
  obtain ⟨rest, hfree, hrest⟩ := free_cons h hmine
  refine ⟨rest.flatMap (fun i => unread f (g.bufs i)) ++ Ring.arriving g, fun b => ?_⟩
  have hfree' : Ring.free f (g.setBuf b) = g.bufIdx :: rest := hfree
  have htail : rest.flatMap (fun i => unread f ((g.setBuf b).bufs i)) =
      rest.flatMap fun i => unread f (g.bufs i) := by
    refine List.flatMap_congr fun i hi => ?_
    rw [g.bufs_setBuf_of_ne b (by rintro rfl; exact hrest hi)]
  have harriving : Ring.arriving (g.setBuf b) = Ring.arriving g := by
    unfold Ring.arriving
    cases hqueue : g.queue with
    | nil => simp only [Ring.setBuf, hqueue]
    | cons q rest =>
      have hne : q.1 ≠ g.bufIdx := fun heq => hmine (by simp [Ring.queued, hqueue, heq])
      simp only [Ring.setBuf, hqueue, Function.update_of_ne hne]
  have hbuf : (g.setBuf b).bufs g.bufIdx = b := g.buf_setBuf b
  rw [Ring.backlog, hfree', List.flatMap_cons, hbuf, htail, harriving, List.append_assoc]

theorem setBuf_buf (g : Ring) : g.setBuf g.buf = g := by
  simp [Ring.setBuf, Ring.buf]

/-- A buffer that is handed over takes its bytes out of the backlog. -/
theorem backlog_enqueue (h : Ring.Rec f true g) :
    Ring.backlog f g = unread f g.buf ++ Ring.backlog f (g.enqueue f f.fragsize g.buf) := by
  have hmine := h.turn.mine rfl
  obtain ⟨r, w, hrw, hwn, hidx, hslots⟩ := h.turn.turn
  have hn := f.two_le
  have hlt := h.turn.bufIdx_lt
  have hroom : g.queue.length < f.nbfrags := by
    have hlen : g.queue.length = w - r := by
      have := congrArg List.length hslots
      simpa [Ring.queued, slots] using this
    rw [hslots, hidx, next_mem_slots (by omega) hrw hwn] at hmine
    omega
  have hfree : Ring.free f g = g.bufIdx :: Ring.free f (g.enqueue f f.fragsize g.buf) := by
    simp only [Ring.free, Ring.enqueue, List.length_append, List.length_singleton, slots_mod]
    rw [slots_pop _ (by omega), Nat.mod_eq_of_lt hlt]
    congr 2
    omega
  have harriving : Ring.arriving (g.enqueue f f.fragsize g.buf) = Ring.arriving g := by
    simp only [Ring.arriving, Ring.enqueue, setBuf_buf]
    cases hqueue : g.queue with
    | nil => simp [h.pos_idle hqueue]
    | cons q rest => rfl
  rw [Ring.backlog, hfree, List.flatMap_cons, Ring.backlog, harriving, List.append_assoc]
  simp only [Ring.enqueue, setBuf_buf]
  rfl

/-- The buffer that comes back is the last of the free ones. -/
theorem free_returned (h : g.Turn f held) {i size : ℕ} {rest : List (ℕ × ℕ)}
    (hqueue : g.queue = (i, size) :: rest) (b : Buf) :
    Ring.free f (g.returned i rest b) = Ring.free f g ++ [i] := by
  obtain ⟨r, w, hrw, hwn, hidx, hi, hrest⟩ := h.cons hqueue
  have hlen : rest.length = w - (r + 1) := by
    have := congrArg List.length hrest
    simpa [slots] using this
  have hslot : (g.bufIdx + (f.nbfrags - g.queue.length)) % f.nbfrags = i := by
    rw [hidx, hi, Nat.mod_add_mod, hqueue, List.length_cons, hlen,
      show w + (f.nbfrags - (w - (r + 1) + 1)) = r + f.nbfrags by omega, Nat.add_mod_right]
  have hgrow : g.bufIdx + (f.nbfrags - rest.length) =
      g.bufIdx + (f.nbfrags - g.queue.length) + 1 := by
    rw [hqueue, List.length_cons]
    omega
  change slots f.nbfrags g.bufIdx (g.bufIdx + (f.nbfrags - rest.length)) = _
  rw [hgrow, slots_push _ (Nat.le_add_right _ _), hslot]
  rfl

/-- What the controller records is added to the backlog, and what it gives back stays in it. -/
theorem Ring.Rec.dmaIn {g' : Ring} {sample : Byte} (h : Ring.Rec f held g)
    (hdma : g.dmaIn sample = some g') :
    Ring.Rec f held g' ∧ (∃ more, g'.wire = g.wire ++ more ∧
      Ring.backlog f g' = Ring.backlog f g ++ more) ∧ g'.bufIdx = g.bufIdx ∧
      (held = true → g'.buf = g.buf) := by
  obtain ⟨i, size, rest, hqueue, hcase⟩ := dmaIn_cases hdma
  obtain rfl : size = f.fragsize :=
    h.queue_size (i, size) (by rw [hqueue]; exact List.mem_cons_self)
  have hmem : i ∈ g.queued := by
    rw [Ring.queued, hqueue]
    exact List.mem_cons_self
  have hmine : held = true → g.bufIdx ≠ i := fun hheld heq => h.turn.mine hheld (heq ▸ hmem)
  have hfree : ∀ k ∈ Ring.free f g, k ≠ i := by
    rintro k hk rfl
    exact free_not_queued h.turn hk hmem
  have harriving : Ring.arriving g = (List.range g.pos).map (g.bufs i).data := by
    rw [Ring.arriving, hqueue]
  obtain ⟨hpos, rfl⟩ | ⟨hpos, rfl⟩ := hcase
  · refine ⟨?_, ⟨[sample], rfl, ?_⟩, rfl, fun hheld => Function.update_of_ne (hmine hheld) _ _⟩
    · refine ⟨h.turn.congr rfl rfl fun k => ?_, fun k hk => ?_, h.queue_size, hpos, ?_⟩
      · by_cases hki : k = i
        · simp [hki]
        · simp [hki]
      · by_cases hki : k = i
        · simpa [hki] using h.size_le i (h.turn.queued_lt hmem)
        · simpa [hki] using h.size_le k hk
      · intro hempty
        rw [hqueue] at hempty
        cases hempty
    · have hkeep : (Ring.free f g).flatMap (fun k => unread f (Function.update g.bufs i
          { g.bufs i with data := Function.update (g.bufs i).data g.pos sample } k)) =
          (Ring.free f g).flatMap fun k => unread f (g.bufs k) := by
        refine List.flatMap_congr fun k hk => ?_
        rw [Function.update_of_ne (hfree k hk)]
      have hmore : (List.range (g.pos + 1)).map (Function.update (g.bufs i).data g.pos sample) =
          (List.range g.pos).map (g.bufs i).data ++ [sample] := by
        rw [List.range_succ, List.map_append, List.map_singleton, Function.update_self]
        congr 1
        refine List.map_congr_left fun k hk => Function.update_of_ne ?_ _ _
        exact Nat.ne_of_lt (List.mem_range.mp hk)
      rw [Ring.backlog, Ring.backlog, harriving, List.append_assoc, ← hmore]
      congr 1
      simp only [Ring.arriving, hqueue, Function.update_self]
  · have hend : g.pos = f.fragsize := le_antisymm h.pos_le hpos
    refine ⟨⟨h.turn.returned hqueue rfl, fun k hk => ?_, fun q hq => ?_, Nat.zero_le _,
      fun _ => rfl⟩, ⟨[], (List.append_nil _).symm, ?_⟩, rfl,
      fun hheld => Function.update_of_ne (hmine hheld) _ _⟩
    · by_cases hki : k = i
      · simp [Ring.returned, hki]
      · simpa [Ring.returned, hki] using h.size_le k hk
    · exact h.queue_size q (by rw [hqueue]; exact List.mem_cons_of_mem _ hq)
    · -- the buffer is now the last of the free ones, and full
      have hkeep : (Ring.free f g).flatMap (fun k => unread f ((g.returned i rest
          { g.bufs i with size := f.fragsize }).bufs k)) =
          (Ring.free f g).flatMap fun k => unread f (g.bufs k) := by
        refine List.flatMap_congr fun k hk => ?_
        simp [Ring.returned, hfree k hk]
      have hlast : unread f ((g.returned i rest { g.bufs i with size := f.fragsize }).bufs i) =
          (List.range g.pos).map (g.bufs i).data := by
        simp [Ring.returned, unread, hend]
      have hidle : Ring.arriving (g.returned i rest { g.bufs i with size := f.fragsize }) = [] := by
        unfold Ring.arriving
        split <;> rfl
      rw [Ring.backlog, free_returned h.turn hqueue, List.flatMap_append, List.flatMap_singleton,
        hkeep, hlast, hidle, List.append_nil, List.append_nil, Ring.backlog, harriving]

theorem Ring.Rec.setBuf {held' : Bool} (h : Ring.Rec f held g) {b : Buf}
    (hturn : (g.setBuf b).Turn f held') (hsize : b.size ≤ f.fragsize) :
    Ring.Rec f held' (g.setBuf b) where
  turn := hturn
  size_le := by
    intro i hi
    by_cases hidx : i = g.bufIdx
    · rw [hidx]
      exact (congrArg Buf.size (g.buf_setBuf b)).trans_le hsize
    · rw [g.bufs_setBuf_of_ne b hidx]
      exact h.size_le i hi
  queue_size := h.queue_size
  pos_le := h.pos_le
  pos_idle := h.pos_idle

theorem Ring.Rec.enqueue (h : Ring.Rec f true g) :
    Ring.Rec f false (g.enqueue f f.fragsize g.buf) where
  turn := h.turn.enqueue _ rfl
  size_le := by
    simp only [Ring.enqueue, setBuf_buf]
    exact h.size_le
  queue_size := List.forall_mem_append.mpr ⟨h.queue_size, List.forall_mem_singleton.mpr rfl⟩
  pos_le := h.pos_le
  pos_idle := by
    intro hempty
    simp [Ring.enqueue] at hempty

end Rec

/-! ## The process and the controller -/

/-- The process has the semaphore of `s->buf`. -/
def Recorder.holds (p : Recorder) : Bool :=
  match p.pc with
  | .copy _ _ _ _ _ => true
  | _ => false

/-- From buffer `i` on, the buffers were not handed over yet. -/
def Ring.Fresh (f : Frags) (g : Ring) (i : ℕ) : Prop :=
  g.bufIdx = i ∧ ∀ k, i ≤ k → k < f.nbfrags → k ∉ g.queued ∧ (g.bufs k).size = 0

/-- What the process knows where it is. -/
def Recorder.AtPc (f : Frags) (p : Recorder) : Prop :=
  match p.pc with
  | .user => p.buffers = false → Ring.Fresh f p.ring 0
  | .prime _ i => p.buffers = true ∧ i < f.nbfrags ∧ Ring.Fresh f p.ring i
  | .read c left got => p.buffers = true ∧ got.length + left = c.count
  | .copy c left got chunk part => p.buffers = true ∧ got.length + left = c.count ∧
      chunk = min p.ring.buf.size left ∧ part.length ≤ chunk ∧
      part = (List.range part.length).map fun k =>
        p.ring.buf.data (f.fragsize - p.ring.buf.size + k)

/-- The buffers are in order and hold what is recorded and not taken, `got` in the call that is
    going on. -/
structure Recorder.Fits (f : Frags) (held : Bool) (got : List Byte) (p : Recorder) : Prop where
  ring : Ring.Rec f held p.ring
  stream : p.log.flatMap ReadDone.got ++ got ++ Ring.backlog f p.ring = p.ring.wire
  log : ∀ e ∈ p.log, e.Ok

structure Recorder.Inv (f : Frags) (p : Recorder) : Prop where
  fits : p.Fits f p.holds p.pc.got
  atPc : p.AtPc f

section Inv

variable {f : Frags} {p : Recorder}

theorem openRecorder_inv (f : Frags) (junk : ℕ → ℕ → Byte) (buffers : Bool) :
    (openRecorder junk buffers).Inv f := by
  refine ⟨⟨rec_audioSetupBuf f junk, ?_, nofun⟩, fun _ => ⟨rfl, fun k _ _ => ⟨nofun, rfl⟩⟩⟩
  have hempty : Ring.backlog f (openRecorder junk buffers).ring = [] := by
    simp [Ring.backlog, Ring.arriving, openRecorder, audioSetupBuf, unread]
  rw [hempty]
  rfl

theorem Recorder.Fits.return {got : List Byte} {e : ReadDone} (h : p.Fits f false got)
    (hgot : got = e.got) (hbuffers : p.buffers = true) (he : e.Ok) : (p.return e).Inv f where
  fits :=
    { ring := h.ring
      stream := by
        simp only [Recorder.return, Pc.got, List.append_nil, List.flatMap_append,
          List.flatMap_singleton, ← hgot]
        exact h.stream
      log := List.forall_mem_append.mpr ⟨h.log, List.forall_mem_singleton.mpr he⟩ }
  atPc := fun hnone => by
    have : p.buffers = false := hnone
    rw [hbuffers] at this
    cases this

theorem Recorder.Fits.loop {c : ReadCall} {left : ℕ} {got : List Byte} (h : p.Fits f false got)
    (hbuffers : p.buffers = true) (hcount : got.length + left = c.count) :
    (p.loop c left got).Inv f := by
  unfold Recorder.loop
  split_ifs with hleft
  · exact ⟨⟨h.ring, h.stream, h.log⟩, hbuffers, hcount⟩
  · exact h.return rfl hbuffers ⟨fun _ => rfl, by dsimp only; omega, fun hret => by
      dsimp only at hret
      omega⟩

/-- A change of `s->buf` that takes `part` out of it. -/
theorem Recorder.Fits.setBuf {held held' : Bool} {got got' part : List Byte} {b : Buf}
    (h : p.Fits f held got) (hmine : p.ring.bufIdx ∉ p.ring.queued)
    (hturn : (p.ring.setBuf b).Turn f held') (hsize : b.size ≤ f.fragsize)
    (hpart : unread f p.ring.buf = part ++ unread f b) (hgot : got' = got ++ part) (pc : Pc) :
    Recorder.Fits f held' got' { p with ring := p.ring.setBuf b, pc := pc } where
  ring := h.ring.setBuf hturn hsize
  stream := by
    obtain ⟨tail, htail⟩ := backlog_setBuf h.ring.turn hmine
    have hstream := h.stream
    have hold := htail p.ring.buf
    rw [setBuf_buf, hpart] at hold
    rw [hold] at hstream
    change p.log.flatMap ReadDone.got ++ got' ++ Ring.backlog f (p.ring.setBuf b) = p.ring.wire
    rw [htail b, hgot, ← hstream]
    simp only [List.append_assoc]
  log := h.log

/-- An empty buffer goes to the controller. -/
theorem Recorder.Fits.hand {got : List Byte} {e : Enqueued} (he : e.queues = true)
    (h : p.Fits f true got) (hempty : p.ring.buf.size = 0) (pc : Pc) :
    Recorder.Fits f false got { p with ring := Ring.hand f p.ring e, pc := pc } := by
  rw [Ring.hand, if_pos he]
  refine ⟨h.ring.enqueue, ?_, h.log⟩
  have hstream := h.stream
  have hnone : unread f p.ring.buf = [] := by simp [unread, hempty]
  rw [backlog_enqueue h.ring, hnone, List.nil_append] at hstream
  exact hstream

theorem Recorder.Fits.down {got : List Byte} (h : p.Fits f false got)
    (hsem : 0 < p.ring.buf.sem) (pc : Pc) :
    Recorder.Fits f true got
      { p with ring := p.ring.setBuf { p.ring.buf with sem := p.ring.buf.sem - 1 }, pc := pc } := by
  have hturn : (p.ring.setBuf { p.ring.buf with sem := p.ring.buf.sem - 1 }).Turn f true :=
    h.ring.turn.down hsem rfl
  exact h.setBuf (h.ring.turn.not_queued h.ring.turn.bufIdx_lt hsem) hturn
    (h.ring.size_le _ h.ring.turn.bufIdx_lt) (List.nil_append _).symm (List.append_nil _).symm pc

/-- What was copied and what stays make up what was in the buffer. -/
theorem unread_split {b : Buf} {n : ℕ} (hn : n ≤ b.size) (hsize : b.size ≤ f.fragsize) :
    unread f b = (List.range n).map (fun k => b.data (f.fragsize - b.size + k)) ++
      unread f { b with size := b.size - n } := by
  have hrange : List.range b.size = List.range n ++ (List.range (b.size - n)).map (n + ·) := by
    rw [← List.range_add, Nat.add_sub_cancel' hn]
  rw [unread, hrange, List.map_append, List.map_map]
  congr 1
  refine List.map_congr_left fun k _ => ?_
  simp only [Function.comp_apply]
  congr 1
  omega

theorem fresh_hand {g : Ring} {i : ℕ} (h : Ring.Fresh f g i) (hi : i + 1 < f.nbfrags) {b : Buf}
    {e : Enqueued} (he : e.queues = true) :
    Ring.Fresh f (Ring.hand f (g.setBuf b) e) (i + 1) := by
  obtain ⟨rfl, hfresh⟩ := h
  rw [Ring.hand, if_pos he]
  refine ⟨Nat.mod_eq_of_lt hi, fun k hk hkn => ?_⟩
  obtain ⟨hnot, hsize⟩ := hfresh k (by omega) hkn
  have hqueued : ((g.setBuf b).enqueue f f.fragsize (g.setBuf b).buf).queued =
      g.queued ++ [g.bufIdx] := by
    simp [Ring.enqueue, Ring.queued, Ring.setBuf]
  have hbufs : ((g.setBuf b).enqueue f f.fragsize (g.setBuf b).buf).bufs = (g.setBuf b).bufs := by
    simp only [Ring.enqueue, setBuf_buf]
  have hne : k ≠ g.bufIdx := by omega
  rw [hqueued, hbufs, g.bufs_setBuf_of_ne b hne]
  exact ⟨by simp [hnot, hne], hsize⟩

theorem fresh_dmaIn {g g' : Ring} {i : ℕ} {sample : Byte} (h : Ring.Fresh f g i)
    (hdma : g.dmaIn sample = some g') : Ring.Fresh f g' i := by
  obtain ⟨j, size, rest, hqueue, hcase⟩ := dmaIn_cases hdma
  have hqueued : g.queued = j :: rest.map Prod.fst := by simp [Ring.queued, hqueue]
  obtain ⟨hpos, rfl⟩ | ⟨hpos, rfl⟩ := hcase
  · refine ⟨h.1, fun k hk hkn => ?_⟩
    obtain ⟨hnot, hsize⟩ := h.2 k hk hkn
    have hne : k ≠ j := fun heq => hnot (by simp [hqueued, heq])
    exact ⟨hnot, by simpa [hne] using hsize⟩
  · refine ⟨h.1, fun k hk hkn => ?_⟩
    obtain ⟨hnot, hsize⟩ := h.2 k hk hkn
    rw [hqueued, List.mem_cons, not_or] at hnot
    exact ⟨hnot.2, by simpa [Ring.returned, hnot.1] using hsize⟩

theorem inv_prime {p' : Recorder} {e : Enqueued} (h : p.Inv f) (he : e.queues = true)
    (hstep : recStep f p (.prime e) = some p') : p'.Inv f := by
  obtain ⟨hfits, hat⟩ := h
  cases hpc : p.pc with
  | prime c i =>
    simp only [Recorder.holds, Pc.got, Recorder.AtPc, recStep, hpc] at hfits hat hstep
    obtain ⟨hbuffers, hi, hfresh⟩ := hat
    have hempty : p.ring.buf.size = 0 := by
      rw [Ring.buf, hfresh.1]
      exact (hfresh.2 i le_rfl hi).2
    split_ifs at hstep with hsem hmore
    all_goals
      have hfits' := (hfits.down hsem p.pc).hand he (by rw [Ring.buf_setBuf]; exact hempty) p.pc
      cases hstep
    · exact ⟨⟨hfits'.ring, hfits'.stream, hfits'.log⟩, hbuffers, hmore, fresh_hand hfresh hmore he⟩
    · exact hfits'.loop hbuffers (Nat.zero_add _)
  | _ =>
    simp only [recStep, hpc] at hstep
    cases hstep

theorem ret_ok {c : ReadCall} {got : List Byte} (hcount : got.length ≤ c.count) :
    ReadDone.Ok ⟨c, c.ret got, got⟩ := by
  refine ⟨?_, hcount, ?_⟩
  · unfold ReadCall.ret
    split_ifs <;> simp [EAGAIN, ERESTARTSYS]
  · intro hret
    refine .inr (List.length_eq_zero_iff.mp ?_)
    by_contra hne
    simp only [ReadCall.ret, if_pos hne] at hret
    omega

theorem inv_finish {p' : Recorder} {e : Enqueued} (h : p.Inv f) (he : e.queues = true)
    (hstep : recStep f p (.finish e) = some p') : p'.Inv f := by
  obtain ⟨hfits, hat⟩ := h
  cases hpc : p.pc with
  | copy c left got chunk part =>
    simp only [Recorder.holds, Pc.got, Recorder.AtPc, recStep, hpc] at hfits hat hstep
    obtain ⟨hbuffers, hcount, hchunk, -, hpart⟩ := hat
    have hle : p.ring.buf.size ≤ f.fragsize := hfits.ring.size_le _ hfits.ring.turn.bufIdx_lt
    have hmine := hfits.ring.turn.mine rfl
    split_ifs at hstep with hend hmore
    all_goals
      have hsplit := unread_split (f := f) (b := p.ring.buf) (n := chunk) (by omega) hle
      rw [← hend, ← hpart, hend] at hsplit
      cases hstep
    · -- some bytes stay for the next read
      have hturn : (p.ring.setBuf { p.ring.buf with
        size := p.ring.buf.size - chunk, sem := p.ring.buf.sem + 1 }).Turn f false :=
        hfits.ring.turn.up rfl
      have hfits' := hfits.setBuf hmine hturn (by dsimp only; omega) hsplit rfl p.pc
      refine hfits'.return rfl hbuffers (ret_ok ?_)
      rw [List.length_append]
      omega
    · -- the buffer is empty
      have hturn : (p.ring.setBuf { p.ring.buf with
        size := p.ring.buf.size - chunk }).Turn f true := hfits.ring.turn.setBuf rfl
      have hfits' := (hfits.setBuf hmine hturn (by dsimp only; omega) hsplit rfl p.pc).hand he
        (by rw [Ring.buf_setBuf]; dsimp only; omega) p.pc
      refine hfits'.loop hbuffers ?_
      rw [List.length_append]
      omega
  | _ =>
    simp only [recStep, hpc] at hstep
    cases hstep

theorem inv_dma {p' : Recorder} {sample : Byte} (h : p.Inv f)
    (hstep : recStep f p (.dma sample) = some p') : p'.Inv f := by
  simp only [recStep, Option.map_eq_some_iff] at hstep
  obtain ⟨ring, hdma, rfl⟩ := hstep
  obtain ⟨hring, ⟨more, hwire, hbacklog⟩, hidx, hbuf⟩ := h.fits.ring.dmaIn hdma
  refine ⟨⟨hring, ?_, h.fits.log⟩, ?_⟩
  · change p.log.flatMap ReadDone.got ++ p.pc.got ++ Ring.backlog f ring = ring.wire
    rw [hbacklog, hwire, ← List.append_assoc, h.fits.stream]
  · have hat := h.atPc
    unfold Recorder.AtPc Recorder.holds at *
    cases hpc : p.pc with
    | user =>
      simp only [hpc] at hat ⊢
      exact fun hnone => fresh_dmaIn (hat hnone) hdma
    | prime c i =>
      simp only [hpc] at hat ⊢
      exact ⟨hat.1, hat.2.1, fresh_dmaIn hat.2.2 hdma⟩
    | read c left got =>
      simp only [hpc] at hat ⊢
      exact hat
    | copy c left got chunk part =>
      simp only [hpc] at hat hbuf ⊢
      rw [hbuf trivial]
      exact hat

theorem inv_call {p' : Recorder} {c : ReadCall} (h : p.Inv f)
    (hstep : recStep f p (.call c) = some p') : p'.Inv f := by
  cases hpc : p.pc <;> simp only [recStep, hpc] at hstep <;> try cases hstep
  obtain ⟨hfits, hat⟩ := h
  simp only [Recorder.holds, Pc.got, Recorder.AtPc, hpc] at hfits hat
  have hn := f.two_le
  split_ifs at hstep with hbuffers <;> cases hstep
  · exact hfits.loop hbuffers (Nat.zero_add _)
  · refine ⟨⟨hfits.ring, hfits.stream, hfits.log⟩, rfl, by omega, hat ?_⟩
    exact Bool.eq_false_iff.mpr hbuffers

theorem inv_down {p' : Recorder} (h : p.Inv f) (hstep : recStep f p .down = some p') :
    p'.Inv f := by
  obtain ⟨hfits, hat⟩ := h
  cases hpc : p.pc with
  | read c left got =>
    simp only [Recorder.holds, Pc.got, Recorder.AtPc, recStep, hpc] at hfits hat hstep
    split_ifs at hstep with hsem
    cases hstep
    refine ⟨hfits.down hsem _, ?_⟩
    simp only [Recorder.AtPc, Ring.buf_setBuf]
    exact ⟨hat.1, hat.2, trivial, Nat.zero_le _, rfl⟩
  | _ =>
    simp only [recStep, hpc] at hstep
    cases hstep

theorem inv_giveUp {p' : Recorder} (h : p.Inv f) (hstep : recStep f p .giveUp = some p') :
    p'.Inv f := by
  obtain ⟨hfits, hat⟩ := h
  cases hpc : p.pc with
  | read c left got =>
    simp only [Recorder.holds, Pc.got, Recorder.AtPc, recStep, hpc] at hfits hat hstep
    split_ifs at hstep
    cases hstep
    exact hfits.return rfl hat.1 (ret_ok (by omega))
  | _ =>
    simp only [recStep, hpc] at hstep
    cases hstep

theorem inv_byte {p' : Recorder} (h : p.Inv f) (hstep : recStep f p .byte = some p') :
    p'.Inv f := by
  obtain ⟨hfits, hat⟩ := h
  cases hpc : p.pc with
  | copy c left got chunk part =>
    simp only [Recorder.holds, Pc.got, Recorder.AtPc, recStep, hpc] at hfits hat hstep
    split_ifs at hstep with hlt
    cases hstep
    obtain ⟨hbuffers, hcount, hchunk, -, hpart⟩ := hat
    refine ⟨⟨hfits.ring, hfits.stream, hfits.log⟩, hbuffers, hcount, hchunk, ?_, ?_⟩
    · rw [List.length_append]
      exact hlt
    · rw [List.length_append, List.length_singleton, List.range_succ, List.map_append, ← hpart]
      rfl
  | _ =>
    simp only [recStep, hpc] at hstep
    cases hstep

theorem inv_fault {p' : Recorder} (h : p.Inv f) (hstep : recStep f p .fault = some p') :
    p'.Inv f := by
  obtain ⟨hfits, hat⟩ := h
  cases hpc : p.pc with
  | copy c left got chunk part =>
    simp only [Recorder.holds, Pc.got, Recorder.AtPc, recStep, hpc] at hfits hat hstep
    split_ifs at hstep
    cases hstep
    obtain ⟨hbuffers, hcount, -⟩ := hat
    have hturn : (p.ring.setBuf { p.ring.buf with sem := p.ring.buf.sem + 1 }).Turn f false :=
      hfits.ring.turn.up rfl
    have hfits' := hfits.setBuf (hfits.ring.turn.mine rfl) hturn
      (hfits.ring.size_le _ hfits.ring.turn.bufIdx_lt) (List.nil_append _).symm
      (List.append_nil _).symm p.pc
    refine hfits'.return rfl hbuffers ⟨?_, by dsimp only; omega, fun _ => .inl rfl⟩
    simp [EFAULT]
  | _ =>
    simp only [recStep, hpc] at hstep
    cases hstep

theorem recStep_inv {p' : Recorder} {a : Act} (h : p.Inv f) (hok : enqueues a = true)
    (hstep : recStep f p a = some p') : p'.Inv f := by
  cases a with
  | call c => exact inv_call h hstep
  | prime e => exact inv_prime h hok hstep
  | down => exact inv_down h hstep
  | giveUp => exact inv_giveUp h hstep
  | byte => exact inv_byte h hstep
  | fault => exact inv_fault h hstep
  | finish e => exact inv_finish h hok hstep
  | dma sample => exact inv_dma h hstep

end Inv

/-- Whatever the process and the controller do, and in whichever order: what the calls have taken
    and what lies in the buffers are together what was recorded, in the same order. Every call that
    does not fault tells the truth about its bytes. -/
theorem recording (f : Frags) (junk : ℕ → ℕ → Byte) (buffers : Bool) (p : Recorder)
    (h : Reach (recStep f) (fun _ a => enqueues a = true) (openRecorder junk buffers) p) :
    p.taken ++ Ring.backlog f p.ring = p.ring.wire ∧ ∀ e ∈ p.log, e.Ok := by
  have hinv : p.Inv f := h.invariant (Recorder.Inv f) (openRecorder_inv f junk buffers)
    fun _ _ _ hp hok hstep => recStep_inv hp hok hstep
  exact ⟨hinv.fits.stream, hinv.fits.log⟩

/-- With two buffers of sixteen bytes, four bytes are read after the first buffer is full. -/
def fourBytesRun : List Act :=
  [.call ⟨4, false⟩, .prime .ok, .prime .ok] ++
    (List.range 17).map (fun k => .dma (BitVec.ofNat 8 k)) ++
    [.down, .byte, .byte, .byte, .byte, .finish .ok]

theorem recording_fourBytes :
    ∃ p, Reach (recStep (setFragment 0)) (fun _ a => enqueues a = true)
        (openRecorder (fun _ _ => 0xff) false) p ∧
      (p.log.map fun e => (e.ret, e.got)) = [(4, [0, 1, 2, 3])] ∧ p.ring.wire.length = 16 ∧
      p.taken ++ Ring.backlog (setFragment 0) p.ring = p.ring.wire := by
  have hrun : ((exec (guarded (recStep (setFragment 0)) fun _ a => enqueues a = true)
      (openRecorder (fun _ _ => 0xff) false) fourBytesRun).map fun p =>
        (p.log.map fun e => (e.ret, e.got), p.ring.wire.length)) =
      some ([(4, [0, 1, 2, 3])], 16) := by
    decide +kernel
  obtain ⟨p, hexec, hvalues⟩ := Option.map_eq_some_iff.mp hrun
  obtain ⟨hlog, hwire⟩ := Prod.mk.inj hvalues
  have hreach := Reach.of_exec_guarded hexec
  exact ⟨p, hreach, hlog, hwire, (recording (setFragment 0) _ false p hreach).1⟩

end Recording

end Jz2440.Sound
