import Jz2440.Common.Errno
import Jz2440.Common.History
import Jz2440.Common.Runs
import Jz2440.Sound.Buffers

/-!
# Playing sound

Model of `smdk2410_audio_write` and `audio_sync` in
`hard_driver/drivers_and_test/21th_sound/driver/s3c-wm8976.c`, called by the process that has
opened the device for writing while the DMA controller plays. The controller may move between any
two steps of the process, also between two bytes of a copy. A copy may fault at any byte, a signal
may end a wait, and `s3c2410_dma_enqueue` may fail before or after it has queued the buffer. The
code does not always see which: `audio_sync` takes the buffer for queued in any case, and
`smdk2410_audio_write` for not queued whenever there was an error.

`vfs_write` has checked the buffer before the driver is called, so `access_ok` is true in
`copy_from_user_mono_stereo`, which then returns `-EFAULT`: a mono process cannot write.

* `Ring.Play`: what holds of the buffers between two steps.
* `playStep_inv`: every step of either side keeps the invariant.
* `playback`: what is heard is what was accepted, in order and without a gap, and `audio_sync`
  returns 0 only when all of it was heard.
* `timeout_plays_twice`: after an error with the buffer in the queue it is played twice.
* `buffer_returns_iff`: who waits gets the buffer, unless a buffer could not be enqueued before.
-/

namespace Jz2440.Sound

open Jz2440.Common

/-! ## The code -/

/-- A call of `smdk2410_audio_write`; `mono` stands for `audio_channels != 2`. -/
structure WriteCall where
  buffer : ℕ → Byte
  count : ℕ
  nonblock : Bool
  mono : Bool

/-- Where the process is. In the loop of `smdk2410_audio_write`, `left` is `count` and `done` is
    `buffer - buffer0`. -/
inductive Pc
  | user
  | write (c : WriteCall) (left done : ℕ)
  | copy (c : WriteCall) (left done chunk k : ℕ)
  | syncDown
  | syncEnqueue
  | syncWait (j : ℕ)

/-- A call that has returned. For a write we note how many bytes it has put into buffers, and for
    `audio_sync` how many bytes were played by then. -/
inductive Returned
  | write (c : WriteCall) (ret : ℤ) (taken : ℕ)
  | sync (ret : ℤ) (heard : ℕ)

structure Player where
  ring : Ring
  pc : Pc
  log : List Returned

def Player.return (p : Player) (e : Returned) : Player :=
  { p with pc := .user, log := p.log ++ [e] }

/-- `ret` when the loop was left because there was no buffer (lines 501, 505, 550). -/
def WriteCall.ret (c : WriteCall) (done : ℕ) : ℤ :=
  if done ≠ 0 then done else if c.nonblock then - EAGAIN else - ERESTARTSYS

/-- `while (count > 0)`. -/
def Player.loop (p : Player) (c : WriteCall) (left done : ℕ) : Player :=
  if 0 < left then { p with pc := .write c left done } else p.return (.write c done done)

/-- `chunksize` (lines 511-513, 521-524). -/
def chunksize (f : Frags) (c : WriteCall) (size left : ℕ) : ℕ :=
  min (if c.mono then (f.fragsize - size) / 2 else f.fragsize - size) left

/-- The buffer before `s->buf` (line 432). -/
def prevBuf (f : Frags) (g : Ring) : ℕ := (f.nbfrags + g.bufIdx - 1) % f.nbfrags

inductive Act
  | callWrite (c : WriteCall)
  | callSync
  | down
  | giveUp
  | byte
  | fault
  | finish (e : Enqueued)
  | dma

def playStep (f : Frags) (p : Player) : Act → Option Player
  | .callWrite c =>
    match p.pc with
    | .user => some (p.loop c (c.count / 4 * 4) 0)
    | _ => none
  | .callSync =>
    match p.pc with
    | .user =>
      some { p with pc := if p.ring.buf.size ≠ 0 then .syncDown else .syncWait (prevBuf f p.ring) }
    | _ => none
  | .down =>
    match p.pc with
    | .write c left done =>
      if 0 < p.ring.buf.sem then
        some { p with
          ring := p.ring.setBuf { p.ring.buf with sem := p.ring.buf.sem - 1 }
          pc := .copy c left done (chunksize f c p.ring.buf.size left) 0 }
      else none
    | .syncDown =>
      if 0 < p.ring.buf.sem then
        some { p with
          ring := p.ring.setBuf { p.ring.buf with sem := p.ring.buf.sem - 1 }
          pc := .syncEnqueue }
      else none
    | .syncWait j =>
      -- `down_interruptible` and `up`
      if 0 < (p.ring.bufs j).sem then some (p.return (.sync 0 p.ring.wire.length)) else none
    | _ => none
  | .giveUp =>
    match p.pc with
    | .write c _ done =>
      if p.ring.buf.sem = 0 then some (p.return (.write c (c.ret done) done)) else none
    | .syncWait j =>
      if (p.ring.bufs j).sem = 0 then some (p.return (.sync (-EINTR) p.ring.wire.length))
      else none
    | _ => none
  | .byte =>
    match p.pc with
    | .copy c left done chunk k =>
      if k < chunk ∧ c.mono = false then
        some { p with
          ring := p.ring.setBuf { p.ring.buf with
            data := Function.update p.ring.buf.data (p.ring.buf.size + k) (c.buffer (done + k)) }
          pc := .copy c left done chunk (k + 1) }
      else none
    | _ => none
  | .fault =>
    match p.pc with
    | .copy c _ done chunk k =>
      if k < chunk ∨ c.mono = true then
        -- `copy_from_user` clears what it could not copy
        let data := if c.mono then p.ring.buf.data else
          storeRange p.ring.buf.data (p.ring.buf.size + k) (chunk - k) fun _ => 0
        let b := { p.ring.buf with data := data, sem := p.ring.buf.sem + 1 }
        some (Player.return { p with ring := p.ring.setBuf b } (.write c (-EFAULT) done))
      else none
    | _ => none
  | .finish e =>
    match p.pc with
    | .copy c left done chunk k =>
      if k = chunk ∧ c.mono = false then
        let b := { p.ring.buf with size := p.ring.buf.size + chunk }
        if b.size < f.fragsize then
          some (Player.return { p with ring := p.ring.setBuf { b with sem := b.sem + 1 } }
            (.write c (c.ret (done + chunk)) (done + chunk)))
        else
          match e with
          | .ok =>
            some (Player.loop { p with ring := p.ring.enqueue f b.size { b with size := 0 } }
              c (left - chunk) (done + chunk))
          -- the semaphore stays down and the buffer full, also if it is in the queue
          | .noMemory =>
            some (Player.return { p with ring := p.ring.setBuf b }
              (.write c (-ENOMEM) (done + chunk)))
          | .timeout =>
            some (Player.return
              { p with ring := { p.ring.setBuf b with
                queue := p.ring.queue ++ [(p.ring.bufIdx, b.size)] } }
              (.write c (-EINVAL) (done + chunk)))
      else none
    | .syncEnqueue =>
      -- the result of `s3c2410_dma_enqueue` is not looked at
      let b := { p.ring.buf with size := 0 }
      let ring := if e.queues then p.ring.enqueue f p.ring.buf.size b
        else { p.ring.setBuf b with bufIdx := (p.ring.bufIdx + 1) % f.nbfrags }
      some { p with ring := ring, pc := .syncWait (prevBuf f ring) }
    | _ => none
  | .dma => p.ring.dmaOut.map fun ring => { p with ring := ring }

/-- After `audio_setup_buf`. -/
def openPlayer (junk : ℕ → ℕ → Byte) : Player := ⟨audioSetupBuf junk, .user, []⟩

/-! ## What was accepted and what is to be played -/

/-- The first `n` bytes of the buffer of a call. -/
def WriteCall.bytes (c : WriteCall) (n : ℕ) : List Byte := (List.range n).map c.buffer

def Returned.bytes : Returned → List Byte
  | .write c _ taken => c.bytes taken
  | .sync _ _ => []

def Pc.bytes : Pc → List Byte
  | .write c _ done | .copy c _ done _ _ => c.bytes done
  | _ => []

/-- The bytes that were put into buffers so far, by the calls that have returned and by the one
    that is going on. -/
def Player.accepted (p : Player) : List Byte := p.log.flatMap Returned.bytes ++ p.pc.bytes

/-- The bytes in the queue of the controller. -/
def Ring.queueBytes (g : Ring) : List Byte :=
  g.queue.flatMap fun q => (List.range q.2).map (g.bufs q.1).data

/-- The bytes that are not played yet. -/
def Ring.pending (g : Ring) : List Byte :=
  g.queueBytes.drop g.pos ++ (List.range g.buf.size).map g.buf.data

/-- What a call says about itself: a count is the number of bytes taken, without a buffer no byte
    was taken, and after `audio_sync` everything was heard. -/
def Returned.Ok (log : List Returned) : Returned → Prop
  | .write c ret taken => taken ≤ c.count ∧ (0 ≤ ret → ret = taken) ∧
      (ret = -EAGAIN ∨ ret = -ERESTARTSYS → taken = 0) ∧ (c.mono = true → taken = 0)
  | .sync ret heard => ret = 0 → heard = (log.flatMap Returned.bytes).length

/-- The code is right about whether the buffer is in the queue: `audio_sync` takes it to be there
    in any case, and `smdk2410_audio_write` only if there was no error. -/
def seesQueue (p : Player) (a : Act) : Bool :=
  match p.pc, a with
  | .syncEnqueue, .finish e => e.queues
  | _, .finish e => e ≠ .timeout
  | _, _ => true

/-! ## The buffers between two steps -/

/-- Only `s->buf` holds bytes that are not in the queue, and the controller is not beyond the end of
    its buffer. -/
structure Ring.Play (f : Frags) (held : Bool) (g : Ring) : Prop where
  turn : g.Turn f held
  size_le : g.buf.size ≤ f.fragsize
  other_size : ∀ i < f.nbfrags, i ≠ g.bufIdx → (g.bufs i).size = 0
  queued_size : g.bufIdx ∈ g.queued → g.buf.size = 0
  pos_le : g.pos ≤ ((g.queue.head?.map Prod.snd).getD 0)
  queue_size : ∀ q ∈ g.queue, q.2 ≤ f.fragsize

section Play

variable {f : Frags} {held : Bool} {g : Ring}

theorem queueBytes_congr {bufs bufs' : ℕ → Buf} {queue : List (ℕ × ℕ)}
    (h : ∀ q ∈ queue, (bufs q.1).data = (bufs' q.1).data) :
    (queue.flatMap fun q => (List.range q.2).map (bufs q.1).data) =
      queue.flatMap fun q => (List.range q.2).map (bufs' q.1).data := by
  induction queue with
  | nil => rfl
  | cons q rest ih =>
    obtain ⟨hq, hrest⟩ := List.forall_mem_cons.mp h
    rw [List.flatMap_cons, List.flatMap_cons, hq, ih hrest]

/-- What the process does to a buffer that is not in the queue does not reach the queue. -/
theorem queueBytes_setBuf (h : g.bufIdx ∉ g.queued) (b : Buf) :
    (g.setBuf b).queueBytes = g.queueBytes := by
  refine queueBytes_congr fun q hq => ?_
  have hne : q.1 ≠ g.bufIdx := fun heq => h (heq ▸ List.mem_map_of_mem hq)
  rw [g.bufs_setBuf_of_ne b hne]

theorem pending_setBuf (h : g.bufIdx ∉ g.queued) (b : Buf) :
    (g.setBuf b).pending = g.queueBytes.drop g.pos ++ (List.range b.size).map b.data := by
  rw [Ring.pending, queueBytes_setBuf h, Ring.buf_setBuf]
  rfl

theorem Ring.Play.pos_le_length (h : g.Play f held) : g.pos ≤ g.queueBytes.length := by
  have hpos := h.pos_le
  rw [Ring.queueBytes]
  cases hqueue : g.queue with
  | nil =>
    rw [hqueue] at hpos
    exact hpos
  | cons q rest =>
    rw [hqueue] at hpos
    rw [List.flatMap_cons, List.length_append, List.length_map, List.length_range]
    exact le_trans hpos (Nat.le_add_right _ _)

theorem play_audioSetupBuf (f : Frags) (junk : ℕ → ℕ → Byte) :
    (audioSetupBuf junk).Play f false where
  turn := turn_audioSetupBuf f junk
  size_le := Nat.zero_le _
  other_size := fun _ _ _ => rfl
  queued_size := fun _ => rfl
  pos_le := le_rfl
  queue_size := nofun

/-- A change of `s->buf` that leaves its semaphore to the caller. -/
theorem Ring.Play.setBuf {held' : Bool} (h : g.Play f held) {b : Buf}
    (hturn : (g.setBuf b).Turn f held') (hsize : b.size ≤ f.fragsize)
    (hqueued : g.bufIdx ∈ g.queued → b.size = 0) : (g.setBuf b).Play f held' where
  turn := hturn
  size_le := by rwa [Ring.buf_setBuf]
  other_size := by
    intro i hi hne
    rw [g.bufs_setBuf_of_ne b hne]
    exact h.other_size i hi hne
  queued_size := by rwa [Ring.buf_setBuf]
  pos_le := h.pos_le
  queue_size := h.queue_size

theorem Ring.Play.next_size (h : g.Play f held) :
    (g.bufs ((g.bufIdx + 1) % f.nbfrags)).size = 0 := by
  have hn := f.two_le
  exact h.other_size _ (Nat.mod_lt _ (by omega)) h.turn.next_ne

theorem bufs_enqueue_next (h : g.Turn f held) (size : ℕ) (b : Buf) :
    (g.enqueue f size b).buf = g.bufs ((g.bufIdx + 1) % f.nbfrags) :=
  g.bufs_setBuf_of_ne b h.next_ne

/-- The buffer goes into the queue with what it holds. -/
theorem Ring.Play.enqueue (h : g.Play f true) {size : ℕ} {b : Buf} (hsize : size ≤ f.fragsize)
    (hsem : b.sem = g.buf.sem) (hb : b.size = 0) : (g.enqueue f size b).Play f false where
  turn := h.turn.enqueue size hsem
  size_le := by
    rw [bufs_enqueue_next h.turn, h.next_size]
    exact Nat.zero_le _
  other_size := by
    intro i hi _
    by_cases hidx : i = g.bufIdx
    · rw [hidx]
      exact (congrArg Buf.size (g.buf_setBuf b)).trans hb
    · exact (congrArg Buf.size (g.bufs_setBuf_of_ne b hidx)).trans (h.other_size i hi hidx)
  queued_size := fun _ => by rw [bufs_enqueue_next h.turn, h.next_size]
  pos_le := by
    have hpos := h.pos_le
    simp only [Ring.enqueue, Ring.setBuf]
    cases hqueue : g.queue with
    | nil =>
      rw [hqueue] at hpos
      exact le_trans hpos (Nat.zero_le _)
    | cons q rest =>
      rw [hqueue] at hpos
      exact hpos
  queue_size := List.forall_mem_append.mpr ⟨h.queue_size, List.forall_mem_singleton.mpr hsize⟩

theorem Ring.Play.pending_enqueue (h : g.Play f true) (size : ℕ) {b : Buf}
    (hdata : b.data = g.buf.data) :
    (g.enqueue f size b).pending =
      g.queueBytes.drop g.pos ++ (List.range size).map g.buf.data := by
  have hqueue : (g.enqueue f size b).queueBytes =
      g.queueBytes ++ (List.range size).map g.buf.data := by
    change ((g.queue ++ [(g.bufIdx, size)]).flatMap fun q =>
      (List.range q.2).map ((g.setBuf b).bufs q.1).data) = _
    rw [List.flatMap_append]
    congr 1
    · exact queueBytes_setBuf (h.turn.mine rfl) b
    · have hbuf := congrArg Buf.data (g.buf_setBuf b)
      rw [List.flatMap_singleton, ← hdata]
      exact congrArg (List.map · (List.range size)) hbuf
  rw [Ring.pending, hqueue, bufs_enqueue_next h.turn, h.next_size, List.range_zero, List.map_nil,
    List.append_nil]
  exact List.drop_append_of_le_length h.pos_le_length

/-- The controller takes from the front, and leaves the buffer of the process alone. -/
theorem Ring.Play.dmaOut {g' : Ring} (h : g.Play f held) (hdma : g.dmaOut = some g') :
    g'.Play f held ∧ g'.wire ++ g'.pending = g.wire ++ g.pending ∧ g'.bufIdx = g.bufIdx ∧
      g'.buf.size = g.buf.size ∧ g'.buf.data = g.buf.data := by
  obtain ⟨i, size, rest, hqueue, hcase⟩ := dmaOut_cases hdma
  have hbytes : g.queueBytes = (List.range size).map (g.bufs i).data ++
      rest.flatMap fun q => (List.range q.2).map (g.bufs q.1).data := by
    rw [Ring.queueBytes, hqueue, List.flatMap_cons]
  obtain ⟨hpos, rfl⟩ | ⟨hpos, rfl⟩ := hcase
  · refine ⟨⟨⟨h.turn.turn, h.turn.sem_le, h.turn.down_iff, h.turn.mine⟩, h.size_le,
      h.other_size, h.queued_size, ?_, h.queue_size⟩, ?_, rfl, rfl, rfl⟩
    · simp only [hqueue]
      exact hpos
    · have hlen : g.pos < g.queueBytes.length := by
        rw [hbytes, List.length_append, List.length_map, List.length_range]
        omega
      have hnext : g.queueBytes[g.pos] = (g.bufs i).data g.pos := by
        simp only [hbytes]
        rw [List.getElem_append_left (by simpa using hpos), List.getElem_map,
          List.getElem_range]
      have hdrop : g.queueBytes.drop g.pos =
          (g.bufs i).data g.pos :: g.queueBytes.drop (g.pos + 1) := by
        rw [List.drop_eq_getElem_cons hlen, hnext]
      change (g.wire ++ [(g.bufs i).data g.pos]) ++
        (g.queueBytes.drop (g.pos + 1) ++ (List.range g.buf.size).map g.buf.data) = _
      rw [Ring.pending, hdrop, List.append_assoc]
      rfl
  · have hend : g.pos = size := by
      have hle := h.pos_le
      rw [hqueue] at hle
      exact le_antisymm hle hpos
    have hkeep : ∀ k, ((g.returned i rest (g.bufs i)).bufs k).size = (g.bufs k).size ∧
        ((g.returned i rest (g.bufs i)).bufs k).data = (g.bufs k).data := by
      intro k
      by_cases hk : k = i
      · rw [hk]
        simp [Ring.returned]
      · simp [Ring.returned, hk]
    obtain ⟨hsize, hdata⟩ := hkeep g.bufIdx
    refine ⟨⟨h.turn.returned hqueue rfl, ?_, ?_, ?_, Nat.zero_le _, ?_⟩, ?_, rfl, hsize, hdata⟩
    · exact hsize.trans_le h.size_le
    · intro k hk hne
      exact (hkeep k).1.trans (h.other_size k hk hne)
    · intro hmem
      refine hsize.trans (h.queued_size ?_)
      rw [Ring.queued, hqueue]
      exact List.mem_cons_of_mem _ hmem
    · intro q hq
      exact h.queue_size q (by rw [hqueue]; exact List.mem_cons_of_mem _ hq)
    · have hrest : (g.returned i rest (g.bufs i)).queueBytes =
          rest.flatMap fun q => (List.range q.2).map (g.bufs q.1).data :=
        queueBytes_congr fun q _ => (hkeep q.1).2
      have hlen : ((List.range size).map (g.bufs i).data).length = g.pos := by
        rw [List.length_map, List.length_range, hend]
      change g.wire ++ ((g.returned i rest (g.bufs i)).queueBytes.drop 0 ++
        (List.range (g.returned i rest (g.bufs i)).buf.size).map
          (g.returned i rest (g.bufs i)).buf.data) = _
      rw [hrest, List.drop_zero, Ring.pending, hbytes, ← hlen, List.drop_left]
      congr 2
      exact congrArg₂ (fun n d => List.map d (List.range n)) hsize hdata

/-- More bytes in `s->buf` are more bytes to be played. -/
theorem stream_setBuf (h : g.bufIdx ∉ g.queued) {b : Buf} {more : List Byte}
    (hmore : (List.range b.size).map b.data = (List.range g.buf.size).map g.buf.data ++ more) :
    (g.setBuf b).wire ++ (g.setBuf b).pending = g.wire ++ g.pending ++ more := by
  rw [pending_setBuf h, hmore, Ring.pending, List.append_assoc, List.append_assoc]
  rfl

end Play

/-! ## The process and the controller -/

/-- The semaphore of `s->buf` is down: while the process works on it, and for good after it could
    not be enqueued. -/
def Player.holds (f : Frags) (p : Player) : Bool :=
  match p.pc with
  | .copy _ _ _ _ _ | .syncEnqueue => true
  | _ => p.ring.buf.size = f.fragsize

/-- What the process knows where it is. -/
def Player.AtPc (f : Frags) (p : Player) : Prop :=
  match p.pc with
  | .user => True
  | .write c left done => 0 < left ∧ done + left ≤ c.count ∧ (c.mono = true → done = 0)
  | .copy c left done chunk k => 0 < left ∧ done + left ≤ c.count ∧ (c.mono = true → done = 0) ∧
      p.ring.buf.size < f.fragsize ∧ chunk = chunksize f c p.ring.buf.size left ∧ k ≤ chunk ∧
      ∀ i < k, p.ring.buf.data (p.ring.buf.size + i) = c.buffer (done + i)
  | .syncDown => True
  | .syncEnqueue => True
  | .syncWait j => p.ring.buf.size = 0 ∧ j = prevBuf f p.ring

/-- The buffers are in order and hold what is accepted and not heard, `bytes` from the call that is
    going on. -/
structure Player.Fits (f : Frags) (held : Bool) (bytes : List Byte) (p : Player) : Prop where
  ring : p.ring.Play f held
  stream : p.ring.wire ++ p.ring.pending = p.log.flatMap Returned.bytes ++ bytes
  log : EachTime Returned.Ok p.log

structure Player.Inv (f : Frags) (p : Player) : Prop where
  fits : p.Fits f (p.holds f) p.pc.bytes
  atPc : p.AtPc f

section Inv

variable {f : Frags} {p : Player}

theorem WriteCall.bytes_add (c : WriteCall) (a b : ℕ) :
    c.bytes (a + b) = c.bytes a ++ (List.range b).map fun i => c.buffer (a + i) := by
  rw [WriteCall.bytes, List.range_add, List.map_append, List.map_map]
  rfl

/-- Who gets the semaphore of `s->buf` was not holding it. -/
theorem Ring.Play.not_held {held : Bool} {g : Ring} (h : g.Play f held) (hsem : 0 < g.buf.sem) :
    held = false := by
  by_contra hheld
  have hzero := (h.turn.down_iff _ h.turn.bufIdx_lt).mpr (.inr ⟨eq_true_of_ne_false hheld, rfl⟩)
  exact absurd hzero (Nat.ne_of_gt hsem)

theorem Player.Fits.return {held : Bool} {bytes : List Byte} {e : Returned}
    (h : p.Fits f held bytes) (hheld : held = decide (p.ring.buf.size = f.fragsize))
    (hbytes : bytes = e.bytes) (he : e.Ok p.log) : (p.return e).Inv f where
  fits :=
    { ring := by
        subst hheld
        exact h.ring
      stream := by
        simp only [Player.return, Pc.bytes, List.append_nil, List.flatMap_append,
          List.flatMap_singleton, ← hbytes]
        exact h.stream
      log := (eachTime_append _ _ _).mpr ⟨h.log, he⟩ }
  atPc := trivial

theorem Player.Fits.loop {held : Bool} {c : WriteCall} {left done : ℕ}
    (h : p.Fits f held (c.bytes done)) (hheld : held = decide (p.ring.buf.size = f.fragsize))
    (hle : done + left ≤ c.count) (hmono : c.mono = true → done = 0) :
    (p.loop c left done).Inv f := by
  unfold Player.loop
  split_ifs with hleft
  · subst hheld
    exact ⟨⟨h.ring, h.stream, h.log⟩, hleft, hle, hmono⟩
  · refine h.return hheld rfl ⟨by omega, fun _ => rfl, ?_, hmono⟩
    rintro (hret | hret)
    · simp only [EAGAIN] at hret
      omega
    · simp only [ERESTARTSYS] at hret
      omega

/-- A change of `s->buf` while the process has its semaphore. -/
theorem Player.Fits.setBuf {held held' : Bool} {bytes bytes' more : List Byte} {b : Buf}
    (h : p.Fits f held bytes) (hfree : p.ring.bufIdx ∉ p.ring.queued)
    (hturn : (p.ring.setBuf b).Turn f held') (hsize : b.size ≤ f.fragsize)
    (hmore : (List.range b.size).map b.data =
      (List.range p.ring.buf.size).map p.ring.buf.data ++ more)
    (hbytes : bytes' = bytes ++ more) (pc : Pc) :
    Player.Fits f held' bytes' { p with ring := p.ring.setBuf b, pc := pc } where
  ring := h.ring.setBuf hturn hsize fun hmem => absurd hmem hfree
  stream := by rw [stream_setBuf hfree hmore, h.stream, hbytes, List.append_assoc]
  log := h.log

theorem openPlayer_inv (f : Frags) (junk : ℕ → ℕ → Byte) : (openPlayer junk).Inv f := by
  have hsize : ¬ 0 = f.fragsize := by
    have := f.sixteen_le
    omega
  refine ⟨⟨?_, rfl, eachTime_nil _⟩, trivial⟩
  have hholds : (openPlayer junk).holds f = false := decide_eq_false hsize
  rw [hholds]
  exact play_audioSetupBuf f junk

/-- `down` in front of a copy or of the `s3c2410_dma_enqueue` of `audio_sync`. -/
theorem Player.Fits.down {held : Bool} {bytes : List Byte} (h : p.Fits f held bytes)
    (hsem : 0 < p.ring.buf.sem) (pc : Pc) :
    Player.Fits f true bytes
      { p with ring := p.ring.setBuf { p.ring.buf with sem := p.ring.buf.sem - 1 }, pc := pc } := by
  have hheld := h.ring.not_held hsem
  subst hheld
  have hturn : (p.ring.setBuf { p.ring.buf with sem := p.ring.buf.sem - 1 }).Turn f true :=
    h.ring.turn.down hsem rfl
  exact h.setBuf (h.ring.turn.not_queued h.ring.turn.bufIdx_lt hsem) hturn
    h.ring.size_le (List.append_nil _).symm (List.append_nil _).symm pc

/-- The buffer that the process has worked on goes to the controller. -/
theorem Player.Fits.enqueue {bytes bytes' more : List Byte} {size : ℕ} {b : Buf}
    (h : p.Fits f true bytes) (hsize : size ≤ f.fragsize) (hsem : b.sem = p.ring.buf.sem)
    (hzero : b.size = 0) (hdata : b.data = p.ring.buf.data)
    (hmore : (List.range size).map p.ring.buf.data =
      (List.range p.ring.buf.size).map p.ring.buf.data ++ more)
    (hbytes : bytes' = bytes ++ more) (pc : Pc) :
    Player.Fits f false bytes' { p with ring := p.ring.enqueue f size b, pc := pc } ∧
      (p.ring.enqueue f size b).buf.size = 0 := by
  refine ⟨⟨h.ring.enqueue hsize hsem hzero, ?_, h.log⟩, ?_⟩
  · have hstream := h.stream
    rw [Ring.pending] at hstream
    change p.ring.wire ++ (p.ring.enqueue f size b).pending = p.log.flatMap Returned.bytes ++ bytes'
    rw [h.ring.pending_enqueue size hdata, hmore, hbytes, ← List.append_assoc (List.flatMap _ _),
      ← hstream]
    simp only [List.append_assoc]
  · rw [bufs_enqueue_next h.ring.turn, h.ring.next_size]

/-- A chunk of `k` bytes was copied, and lies behind the bytes that count in `s->buf`. -/
structure Player.Copied (f : Frags) (p : Player) (c : WriteCall) (left done k : ℕ) : Prop where
  fits : p.Fits f true (c.bytes done)
  left_pos : 0 < left
  count : done + left ≤ c.count
  stereo : c.mono = false
  size_lt : p.ring.buf.size < f.fragsize
  chunk : k = min (f.fragsize - p.ring.buf.size) left
  more : (List.range (p.ring.buf.size + k)).map p.ring.buf.data =
    (List.range p.ring.buf.size).map p.ring.buf.data ++
      (List.range k).map fun i => c.buffer (done + i)

theorem Player.Inv.copied {c : WriteCall} {left done chunk : ℕ} (h : p.Inv f)
    (hpc : p.pc = .copy c left done chunk chunk) (hstereo : c.mono = false) :
    p.Copied f c left done chunk := by
  obtain ⟨hfits, hat⟩ := h
  simp only [Player.AtPc, hpc] at hat
  simp only [Player.holds, Pc.bytes, hpc] at hfits
  obtain ⟨hleft, hcount, -, hsize, hchunk, -, hcopied⟩ := hat
  refine ⟨hfits, hleft, hcount, hstereo, hsize, ?_, ?_⟩
  · nth_rewrite 1 [hchunk]
    rw [chunksize, if_neg (by simp [hstereo])]
  · rw [List.range_add, List.map_append, List.map_map]
    congr 1
    exact List.map_congr_left fun i hi => hcopied i (List.mem_range.mp hi)

section Copied

variable {c : WriteCall} {left done k : ℕ}

theorem Player.Copied.mono (h : p.Copied f c left done k) : c.mono = true → done + k = 0 :=
  fun hmono => by simp [h.stereo] at hmono

/-- The buffer is not full (lines 537-540). -/
theorem Player.Copied.room (h : p.Copied f c left done k)
    (hroom : p.ring.buf.size + k < f.fragsize) :
    (Player.return { p with ring := p.ring.setBuf { p.ring.buf with
        size := p.ring.buf.size + k, sem := p.ring.buf.sem + 1 } }
      (.write c (c.ret (done + k)) (done + k))).Inv f := by
  have hturn : (p.ring.setBuf { p.ring.buf with
      size := p.ring.buf.size + k, sem := p.ring.buf.sem + 1 }).Turn f false :=
    h.fits.ring.turn.up rfl
  have hfits := h.fits.setBuf (h.fits.ring.turn.mine rfl) hturn (Nat.le_of_lt hroom) h.more
    (c.bytes_add done k) p.pc
  have hleft := h.left_pos
  have hcount := h.count
  have hsize := h.size_lt
  have hchunk := h.chunk
  have hk : done + k ≠ 0 := by omega
  refine hfits.return ?_ rfl ⟨?_, ?_, ?_, h.mono⟩
  · rw [Ring.buf_setBuf]
    exact (decide_eq_false (Nat.ne_of_lt hroom)).symm
  · omega
  · intro _
    rw [WriteCall.ret, if_pos hk]
  · rw [WriteCall.ret, if_pos hk]
    simp only [EAGAIN, ERESTARTSYS]
    omega

/-- The full buffer is in the queue. -/
theorem Player.Copied.enqueued (h : p.Copied f c left done k)
    (hfull : p.ring.buf.size + k = f.fragsize) :
    (Player.loop
      { p with ring := p.ring.enqueue f (p.ring.buf.size + k) { p.ring.buf with size := 0 } }
      c (left - k) (done + k)).Inv f := by
  obtain ⟨hfits, hempty⟩ := h.fits.enqueue (b := { p.ring.buf with size := 0 })
    (Nat.le_of_eq hfull) rfl rfl rfl h.more (c.bytes_add done k) p.pc
  have hcount := h.count
  have hchunk := h.chunk
  refine hfits.loop ?_ (by omega) h.mono
  have hfrag := f.sixteen_le
  exact (decide_eq_false fun hsize => by rw [hempty] at hsize; omega).symm

/-- The full buffer is not in the queue. -/
theorem Player.Copied.stuck (h : p.Copied f c left done k)
    (hfull : p.ring.buf.size + k = f.fragsize) :
    (Player.return { p with ring := p.ring.setBuf { p.ring.buf with size := p.ring.buf.size + k } }
      (.write c (-ENOMEM) (done + k))).Inv f := by
  have hturn : (p.ring.setBuf { p.ring.buf with size := p.ring.buf.size + k }).Turn f true :=
    h.fits.ring.turn.setBuf rfl
  have hfits := h.fits.setBuf (h.fits.ring.turn.mine rfl) hturn (Nat.le_of_eq hfull) h.more
    (c.bytes_add done k) p.pc
  have hcount := h.count
  have hchunk := h.chunk
  refine hfits.return ?_ rfl ⟨?_, ?_, ?_, h.mono⟩
  · rw [Ring.buf_setBuf]
    exact (decide_eq_true hfull).symm
  · omega
  · simp [ENOMEM]
  · simp [ENOMEM, EAGAIN, ERESTARTSYS]

end Copied

/-- What is left of the loop after a chunk was copied (lines 535-547). -/
theorem inv_finish_copy {p' : Player} {c : WriteCall} {left done chunk k : ℕ} {e : Enqueued}
    (h : p.Inv f) (hpc : p.pc = .copy c left done chunk k) (hsees : e ≠ .timeout)
    (hstep : playStep f p (.finish e) = some p') : p'.Inv f := by
  simp only [playStep, hpc] at hstep
  obtain ⟨⟨rfl, hstereo⟩, hstep⟩ := Option.ite_none_right_eq_some.mp hstep
  have hcopied := h.copied hpc hstereo
  split_ifs at hstep with hroom
  · cases hstep
    exact hcopied.room hroom
  · have hfull : p.ring.buf.size + k = f.fragsize := by
      have hsize := hcopied.size_lt
      have hchunk := hcopied.chunk
      omega
    cases e with
    | ok =>
      cases hstep
      exact hcopied.enqueued hfull
    | noMemory =>
      cases hstep
      exact hcopied.stuck hfull
    | timeout => exact absurd rfl hsees

/-- When the last buffer before `s->buf` is back and `s->buf` is empty, everything was heard. -/
theorem Ring.Play.pending_eq_nil {held : Bool} {g : Ring} (h : g.Play f held)
    (hsize : g.buf.size = 0) (hsem : 0 < (g.bufs (prevBuf f g)).sem) : g.pending = [] := by
  have hn := f.two_le
  have hqueue : g.queue = [] := by
    by_contra hne
    exact h.turn.not_queued (Nat.mod_lt _ (by omega)) hsem (h.turn.prev_queued hne)
  rw [Ring.pending, Ring.queueBytes, hqueue, hsize]
  simp

theorem inv_down {p' : Player} (h : p.Inv f) (hstep : playStep f p .down = some p') :
    p'.Inv f := by
  obtain ⟨hfits, hat⟩ := h
  cases hpc : p.pc with
  | write c left done =>
    simp only [Player.holds, Pc.bytes, Player.AtPc, playStep, hpc] at hfits hat hstep
    split_ifs at hstep with hsem
    cases hstep
    obtain ⟨hleft, hcount, hmono⟩ := hat
    have hroom := of_decide_eq_false (hfits.ring.not_held hsem)
    have hle := hfits.ring.size_le
    refine ⟨hfits.down hsem _, ?_⟩
    simp only [Player.AtPc, Ring.buf_setBuf]
    exact ⟨hleft, hcount, hmono, by omega, trivial, Nat.zero_le _, nofun⟩
  | syncDown =>
    simp only [Player.holds, Pc.bytes, playStep, hpc] at hfits hstep
    split_ifs at hstep with hsem
    cases hstep
    exact ⟨hfits.down hsem _, trivial⟩
  | syncWait j =>
    simp only [Player.holds, Pc.bytes, Player.AtPc, playStep, hpc] at hfits hat hstep
    split_ifs at hstep with hsem
    cases hstep
    obtain ⟨hsize, rfl⟩ := hat
    refine hfits.return rfl rfl fun _ => ?_
    have hstream := hfits.stream
    rw [hfits.ring.pending_eq_nil hsize hsem, List.append_nil, List.append_nil] at hstream
    rw [hstream]
  | _ =>
    simp only [playStep, hpc] at hstep
    cases hstep

theorem inv_giveUp {p' : Player} (h : p.Inv f) (hstep : playStep f p .giveUp = some p') :
    p'.Inv f := by
  obtain ⟨hfits, hat⟩ := h
  cases hpc : p.pc with
  | write c left done =>
    simp only [Player.holds, Pc.bytes, Player.AtPc, playStep, hpc] at hfits hat hstep
    split_ifs at hstep
    cases hstep
    obtain ⟨hleft, hcount, hmono⟩ := hat
    refine hfits.return rfl rfl ⟨by omega, ?_, ?_, hmono⟩
    · unfold WriteCall.ret
      split_ifs <;> simp [EAGAIN, ERESTARTSYS]
    · unfold WriteCall.ret EAGAIN ERESTARTSYS
      rintro (hret | hret) <;> split_ifs at hret <;> simp at hret <;> omega
  | syncWait j =>
    simp only [Player.holds, Pc.bytes, playStep, hpc] at hfits hstep
    split_ifs at hstep
    cases hstep
    exact hfits.return rfl rfl fun hret => absurd hret (by decide)
  | _ =>
    simp only [playStep, hpc] at hstep
    cases hstep

theorem inv_byte {p' : Player} (h : p.Inv f) (hstep : playStep f p .byte = some p') :
    p'.Inv f := by
  obtain ⟨hfits, hat⟩ := h
  cases hpc : p.pc with
  | copy c left done chunk k =>
    simp only [Player.holds, Pc.bytes, Player.AtPc, playStep, hpc] at hfits hat hstep
    split_ifs at hstep with hlt
    cases hstep
    obtain ⟨hleft, hcount, hmono, hsize, hchunk, -, hcopied⟩ := hat
    have hturn : (p.ring.setBuf { p.ring.buf with
        data := Function.update p.ring.buf.data (p.ring.buf.size + k) (c.buffer (done + k)) }).Turn
          f true := hfits.ring.turn.setBuf rfl
    refine ⟨hfits.setBuf (hfits.ring.turn.mine rfl) hturn (Nat.le_of_lt hsize) ?_
      (List.append_nil _).symm _, ?_⟩
    · rw [List.append_nil]
      refine List.map_congr_left fun i hi => ?_
      have hi' : i < p.ring.buf.size := List.mem_range.mp hi
      exact Function.update_of_ne (by omega) _ _
    · simp only [Player.AtPc, Ring.buf_setBuf]
      refine ⟨hleft, hcount, hmono, hsize, hchunk, hlt.1, fun i hi => ?_⟩
      obtain hi' | rfl := Nat.lt_succ_iff_lt_or_eq.mp hi
      · rw [Function.update_of_ne (by omega)]
        exact hcopied i hi'
      · rw [Function.update_self]
  | _ =>
    simp only [playStep, hpc] at hstep
    cases hstep

theorem inv_fault {p' : Player} (h : p.Inv f) (hstep : playStep f p .fault = some p') :
    p'.Inv f := by
  obtain ⟨hfits, hat⟩ := h
  cases hpc : p.pc with
  | copy c left done chunk k =>
    simp only [Player.holds, Pc.bytes, Player.AtPc, playStep, hpc] at hfits hat hstep
    obtain ⟨-, hstep⟩ := Option.ite_none_right_eq_some.mp hstep
    cases hstep
    obtain ⟨hleft, hcount, hmono, hsize, -⟩ := hat
    -- what was cleared lies behind the bytes that count
    have hkeep : (List.range p.ring.buf.size).map (if c.mono = true then p.ring.buf.data else
        storeRange p.ring.buf.data (p.ring.buf.size + k) (chunk - k) fun _ => 0) =
          (List.range p.ring.buf.size).map p.ring.buf.data ++ [] := by
      rw [List.append_nil]
      refine List.map_congr_left fun i hi => ?_
      have hi' : i < p.ring.buf.size := List.mem_range.mp hi
      split_ifs
      · rfl
      · exact storeRange_of_disjoint _ _ (.inl (by omega))
    have hturn : (p.ring.setBuf { p.ring.buf with
        data := if c.mono = true then p.ring.buf.data else
          storeRange p.ring.buf.data (p.ring.buf.size + k) (chunk - k) fun _ => 0
        sem := p.ring.buf.sem + 1 }).Turn f false := hfits.ring.turn.up rfl
    have hfits' := hfits.setBuf (hfits.ring.turn.mine rfl) hturn hfits.ring.size_le hkeep
      (List.append_nil _).symm p.pc
    refine hfits'.return ?_ rfl ⟨?_, ?_, ?_, hmono⟩
    · rw [Ring.buf_setBuf]
      exact (decide_eq_false (Nat.ne_of_lt hsize)).symm
    · omega
    · simp [EFAULT]
    · simp [EFAULT, EAGAIN, ERESTARTSYS]
  | _ =>
    simp only [playStep, hpc] at hstep
    cases hstep

theorem inv_finish {p' : Player} {e : Enqueued} (h : p.Inv f)
    (hok : seesQueue p (.finish e) = true) (hstep : playStep f p (.finish e) = some p') :
    p'.Inv f := by
  cases hpc : p.pc with
  | copy c left done chunk k =>
    have hsees : e ≠ .timeout := by simpa [seesQueue, hpc] using hok
    exact inv_finish_copy h hpc hsees hstep
  | syncEnqueue =>
    have hqueues : e.queues = true := by simpa [seesQueue, hpc] using hok
    obtain ⟨hfits, -⟩ := h
    simp only [Player.holds, Pc.bytes, playStep, hpc, hqueues, if_true] at hfits hstep
    cases hstep
    obtain ⟨hfits', hempty⟩ := hfits.enqueue (b := { p.ring.buf with size := 0 })
      hfits.ring.size_le rfl rfl rfl (List.append_nil _).symm (List.append_nil _).symm p.pc
    refine ⟨⟨?_, hfits'.stream, hfits'.log⟩, hempty, rfl⟩
    have hholds : ¬ (p.ring.enqueue f p.ring.buf.size
        { p.ring.buf with size := 0 }).buf.size = f.fragsize := by
      have := f.sixteen_le
      rw [hempty]
      omega
    simp only [Player.holds]
    rw [decide_eq_false hholds]
    exact hfits'.ring
  | _ =>
    simp only [playStep, hpc] at hstep
    cases hstep

theorem inv_dma {p' : Player} (h : p.Inv f) (hstep : playStep f p .dma = some p') :
    p'.Inv f := by
  simp only [playStep, Option.map_eq_some_iff] at hstep
  obtain ⟨ring, hdma, rfl⟩ := hstep
  obtain ⟨hring, hstream, hidx, hsize, hdata⟩ := h.fits.ring.dmaOut hdma
  have hholds : Player.holds f { p with ring := ring } = p.holds f := by
    simp only [Player.holds, hsize]
  refine ⟨⟨?_, hstream.trans h.fits.stream, h.fits.log⟩, ?_⟩
  · rw [hholds]
    exact hring
  · have hat := h.atPc
    simp only [Player.AtPc, prevBuf, hidx, hsize, hdata] at hat ⊢
    exact hat

theorem inv_callWrite {p' : Player} {c : WriteCall} (h : p.Inv f)
    (hstep : playStep f p (.callWrite c) = some p') : p'.Inv f := by
  cases hpc : p.pc <;> simp only [playStep, hpc] at hstep <;> cases hstep
  have hfits := h.fits
  simp only [Player.holds, Pc.bytes, hpc] at hfits
  exact hfits.loop rfl (by omega) fun _ => rfl

theorem inv_callSync {p' : Player} (h : p.Inv f) (hstep : playStep f p .callSync = some p') :
    p'.Inv f := by
  cases hpc : p.pc <;> simp only [playStep, hpc] at hstep <;> cases hstep
  have hfits := h.fits
  simp only [Player.holds, Pc.bytes, hpc] at hfits
  by_cases hsize : p.ring.buf.size = 0
  · rw [if_neg (not_not.mpr hsize)]
    exact ⟨⟨hfits.ring, hfits.stream, hfits.log⟩, hsize, rfl⟩
  · rw [if_pos hsize]
    exact ⟨⟨hfits.ring, hfits.stream, hfits.log⟩, trivial⟩

theorem playStep_inv {p' : Player} {a : Act} (h : p.Inv f) (hok : seesQueue p a = true)
    (hstep : playStep f p a = some p') : p'.Inv f := by
  cases a with
  | callWrite c => exact inv_callWrite h hstep
  | callSync => exact inv_callSync h hstep
  | down => exact inv_down h hstep
  | giveUp => exact inv_giveUp h hstep
  | byte => exact inv_byte h hstep
  | fault => exact inv_fault h hstep
  | finish e => exact inv_finish h hok hstep
  | dma => exact inv_dma h hstep

end Inv

/-! ## Results -/

section Results

variable {f : Frags} {p : Player}

theorem length_queueBytes_le {g : Ring} {n : ℕ} (h : ∀ q ∈ g.queue, q.2 ≤ n) :
    g.queueBytes.length ≤ g.queue.length * n := by
  rw [Ring.queueBytes]
  generalize g.queue = queue at h
  induction queue with
  | nil => exact Nat.zero_le _
  | cons q rest ih =>
    obtain ⟨hq, hrest⟩ := List.forall_mem_cons.mp h
    have hle := ih hrest
    rw [List.flatMap_cons, List.length_append, List.length_map, List.length_range,
      List.length_cons, Nat.succ_mul]
    omega

/-- There is never more to be played than the buffers hold. -/
theorem Ring.Play.length_pending_le {held : Bool} {g : Ring} (h : g.Play f held) :
    g.pending.length ≤ f.nbfrags * f.fragsize := by
  obtain ⟨r, w, hrw, hwn, hidx, hslots⟩ := h.turn.turn
  have hlen : g.queue.length = w - r := by
    have := congrArg List.length hslots
    simpa [Ring.queued, slots] using this
  have hqueue := length_queueBytes_le h.queue_size
  have hdrop : (g.queueBytes.drop g.pos).length ≤ g.queueBytes.length := by
    rw [List.length_drop]
    omega
  rw [Ring.pending, List.length_append, List.length_map, List.length_range]
  by_cases hfree : g.bufIdx ∈ g.queued
  · rw [h.queued_size hfree]
    calc (g.queueBytes.drop g.pos).length + 0 ≤ g.queue.length * f.fragsize := by omega
      _ ≤ f.nbfrags * f.fragsize := Nat.mul_le_mul_right _ (by omega)
  · have hroom : g.queue.length + 1 ≤ f.nbfrags := by
      have hn := f.two_le
      rw [hslots, hidx, next_mem_slots (by omega) hrw hwn] at hfree
      omega
    have hsize := h.size_le
    calc (g.queueBytes.drop g.pos).length + g.buf.size
        ≤ (g.queue.length + 1) * f.fragsize := by rw [Nat.succ_mul]; omega
      _ ≤ f.nbfrags * f.fragsize := Nat.mul_le_mul_right _ hroom

theorem inv_of_reach (junk : ℕ → ℕ → Byte)
    (h : Reach (playStep f) (fun p a => seesQueue p a = true) (openPlayer junk) p) : p.Inv f :=
  h.invariant (Player.Inv f) (openPlayer_inv f junk) fun _ _ _ hp hok hstep =>
    playStep_inv hp hok hstep

/-- Whatever the process and the controller do, and in whichever order: what was heard and what is
    still to be played are together what the process was told is accepted; at most 128 KB are to be
    played; and every call tells the truth, `audio_sync` in particular. -/
theorem playback (f : Frags) (junk : ℕ → ℕ → Byte) (p : Player)
    (h : Reach (playStep f) (fun p a => seesQueue p a = true) (openPlayer junk) p) :
    p.ring.wire ++ p.ring.pending = p.accepted ∧
      p.ring.pending.length ≤ 128 * 1024 ∧ EachTime Returned.Ok p.log := by
  have hinv := inv_of_reach junk h
  exact ⟨hinv.fits.stream, le_trans hinv.fits.ring.length_pending_le f.total_le, hinv.fits.log⟩

/-- Four bytes are written and played. -/
def fourBytes : WriteCall := ⟨fun i => BitVec.ofNat 8 i, 7, false, false⟩

def fourBytesRun : List Act :=
  [.callWrite fourBytes, .down, .byte, .byte, .byte, .byte, .finish .ok, .callSync, .down,
    .finish .ok, .dma, .dma, .dma, .dma, .dma, .down]

/-- What a call has returned, and its count. -/
def Returned.values : Returned → ℤ × ℕ
  | .write _ ret taken => (ret, taken)
  | .sync ret heard => (ret, heard)

theorem playback_fourBytes :
    ∃ p, Reach (playStep defaultFrags) (fun p a => seesQueue p a = true)
        (openPlayer fun _ _ => 0xff) p ∧
      (p.log.map Returned.values, p.ring.wire) = ([(4, 4), (0, 4)], [0, 1, 2, 3]) ∧
      p.ring.wire ++ p.ring.pending = p.accepted := by
  have hrun : ((exec (guarded (playStep defaultFrags) fun p a => seesQueue p a = true)
      (openPlayer fun _ _ => 0xff) fourBytesRun).map fun p =>
        (p.log.map Returned.values, p.ring.wire)) =
      some ([(4, 4), (0, 4)], [0, 1, 2, 3]) := by
    decide +kernel
  obtain ⟨p, hexec, hvalues⟩ := Option.map_eq_some_iff.mp hrun
  have hreach := Reach.of_exec_guarded hexec
  exact ⟨p, hreach, hvalues, (playback defaultFrags _ p hreach).1⟩

/-- With two buffers of sixteen bytes, a buffer is queued by a call that then fails. When it was
    played, the next write finds it still full and queues it again. -/
def timeoutRun : List Act :=
  [.callWrite { fourBytes with count := 16 }, .down] ++ List.replicate 16 .byte ++
    [.finish .timeout] ++ List.replicate 17 .dma ++ [.callWrite fourBytes, .down, .finish .ok] ++
    List.replicate 16 .dma

/-- Without the condition more bytes are heard than were accepted. -/
theorem timeout_plays_twice :
    ¬ ∀ p, Reach (playStep (setFragment 0)) anyStep (openPlayer fun _ _ => 0xff) p →
      p.ring.wire ++ p.ring.pending = p.accepted := by
  intro h
  have hrun : ((exec (playStep (setFragment 0)) (openPlayer fun _ _ => 0xff) timeoutRun).map
      fun p => (p.ring.wire.length, p.accepted.length)) = some (32, 16) := by
    decide +kernel
  obtain ⟨p, hexec, hvalues⟩ := Option.map_eq_some_iff.mp hrun
  obtain ⟨hwire, haccepted⟩ := Prod.mk.inj hvalues
  have hlength := congrArg List.length (h p (.of_exec hexec))
  rw [List.length_append, hwire, haccepted] at hlength
  omega

/-- The buffer whose semaphore the process waits for. -/
def Player.awaits (p : Player) : Option ℕ :=
  match p.pc with
  | .write _ _ _ | .syncDown => some p.ring.bufIdx
  | .syncWait j => some j
  | _ => none

/-- Only the controller moves. -/
def DmaOnly (_ : Player) (a : Act) : Prop := a = .dma

/-- The steps that the controller has to do until its queue is empty. -/
def Ring.work (g : Ring) : ℕ := (g.queue.map fun q => q.2 + 1).sum - g.pos

theorem Ring.Play.work_lt {held : Bool} {g g' : Ring} (h : g.Play f held)
    (hdma : g.dmaOut = some g') : g'.work < g.work := by
  obtain ⟨i, size, rest, hqueue, hcase⟩ := dmaOut_cases hdma
  have hpos := h.pos_le
  simp only [hqueue, List.head?_cons, Option.map_some, Option.getD_some] at hpos
  obtain ⟨hlt, rfl⟩ | ⟨hge, rfl⟩ := hcase
  · simp only [Ring.work, hqueue, List.map_cons, List.sum_cons]
    omega
  · simp only [Ring.work, Ring.returned, hqueue, List.map_cons, List.sum_cons]
    omega

theorem dmaOut_of_queued {g : Ring} {j : ℕ} (hj : j ∈ g.queued) : ∃ g', g.dmaOut = some g' := by
  unfold Ring.dmaOut
  cases hqueue : g.queue with
  | nil =>
    rw [Ring.queued, hqueue] at hj
    exact absurd hj List.not_mem_nil
  | cons q rest =>
    dsimp only
    split_ifs
    · exact ⟨_, rfl⟩
    · exact ⟨_, rfl⟩

theorem awaits_lt (h : p.Inv f) {j : ℕ} (hj : p.awaits = some j) : j < f.nbfrags := by
  have hn := f.two_le
  have hat := h.atPc
  unfold Player.awaits at hj
  unfold Player.AtPc at hat
  split at hj
  · cases hj
    exact h.fits.ring.turn.bufIdx_lt
  · cases hj
    exact h.fits.ring.turn.bufIdx_lt
  · rename_i hpc
    rw [hpc] at hat
    cases hj
    rw [hat.2]
    exact Nat.mod_lt _ (by omega)
  · cases hj

/-- A process that waits holds `s->buf` only if it is full. -/
theorem holds_of_awaits {j : ℕ} (hj : p.awaits = some j) :
    p.holds f = decide (p.ring.buf.size = f.fragsize) := by
  unfold Player.awaits at hj
  unfold Player.holds
  split at hj <;> rename_i hpc <;> first | simp only [hpc] | cases hj

/-- A step of the controller does not change what the process waits for. -/
theorem inv_dmaStep {ring : Ring} (h : p.Inv f) (hdma : p.ring.dmaOut = some ring) :
    playStep f p .dma = some { p with ring := ring } ∧ Player.Inv f { p with ring := ring } ∧
      Player.awaits { p with ring := ring } = p.awaits ∧ ring.buf.size = p.ring.buf.size := by
  obtain ⟨-, -, hidx, hsize, -⟩ := h.fits.ring.dmaOut hdma
  have hstep : playStep f p .dma = some { p with ring := ring } := by
    rw [playStep, hdma]
    rfl
  refine ⟨hstep, inv_dma h hstep, ?_, hsize⟩
  simp only [Player.awaits, hidx]

/-- If `s->buf` is not stuck, the controller gives back the buffer that the process waits for. -/
theorem buffer_returns {n j : ℕ} (hwork : p.ring.work = n) (h : p.Inv f)
    (hj : p.awaits = some j) (hsize : p.ring.buf.size ≠ f.fragsize) :
    ∃ q, Reach (playStep f) DmaOnly p q ∧ 0 < (q.ring.bufs j).sem := by
  induction n using Nat.strong_induction_on generalizing p with
  | _ n ih =>
    by_cases hsem : 0 < (p.ring.bufs j).sem
    · exact ⟨p, .refl, hsem⟩
    · -- the buffer is in the queue, so the controller can move, and its work gets less
      have hheld : p.holds f = false := (holds_of_awaits hj).trans (decide_eq_false hsize)
      have hqueued : j ∈ p.ring.queued := by
        obtain hmem | ⟨htrue, -⟩ := (h.fits.ring.turn.down_iff j (awaits_lt h hj)).mp (by omega)
        · exact hmem
        · rw [hheld] at htrue
          cases htrue
      obtain ⟨ring, hdma⟩ := dmaOut_of_queued hqueued
      have hless := h.fits.ring.work_lt hdma
      obtain ⟨hstep, hinv, hawaits, hkeep⟩ := inv_dmaStep h hdma
      rw [← hawaits] at hj
      rw [← hkeep] at hsize
      obtain ⟨q, hreach, hq⟩ := ih ring.work (hwork ▸ hless) rfl hinv hj hsize
      have hfirst : Reach (playStep f) DmaOnly p { p with ring := ring } :=
        Reach.refl.tail rfl hstep
      exact ⟨q, hfirst.trans hreach, hq⟩

/-- A buffer that could not be enqueued never comes back. -/
theorem stuck_stays {j : ℕ} {q : Player} (h : p.Inv f) (hj : p.awaits = some j)
    (hsize : p.ring.buf.size = f.fragsize) (hreach : Reach (playStep f) DmaOnly p q) :
    (q.ring.bufs j).sem = 0 := by
  have hinv : q.Inv f ∧ q.awaits = some j ∧ q.ring.buf.size = f.fragsize := by
    refine hreach.invariant (fun q => q.Inv f ∧ q.awaits = some j ∧ q.ring.buf.size = f.fragsize)
      ⟨h, hj, hsize⟩ ?_
    rintro t a t' ⟨ht, hjt, hsizet⟩ rfl hstep
    obtain ⟨ring, hdma, rfl⟩ := Option.map_eq_some_iff.mp hstep
    obtain ⟨-, hinv, hawaits, hkeep⟩ := inv_dmaStep ht hdma
    exact ⟨hinv, hawaits.trans hjt, hkeep.trans hsizet⟩
  obtain ⟨hq, hjq, hsizeq⟩ := hinv
  refine (hq.fits.ring.turn.down_iff j (awaits_lt hq hjq)).mpr (.inr ⟨?_, ?_⟩)
  · exact (holds_of_awaits hjq).trans (decide_eq_true hsizeq)
  · have hat := hq.atPc
    have hfrag := f.sixteen_le
    unfold Player.awaits at hjq
    unfold Player.AtPc at hat
    split at hjq
    · exact (Option.some.inj hjq).symm
    · exact (Option.some.inj hjq).symm
    · -- `audio_sync` waits for the buffer before an empty one
      rename_i hpc
      rw [hpc] at hat
      omega
    · cases hjq

/-- The controller alone brings back the buffer that the process waits for, unless a buffer could
    not be enqueued before: then the process waits forever. -/
theorem buffer_returns_iff (f : Frags) (junk : ℕ → ℕ → Byte) (p : Player) (j : ℕ)
    (h : Reach (playStep f) (fun p a => seesQueue p a = true) (openPlayer junk) p)
    (hj : p.awaits = some j) :
    (∃ q, Reach (playStep f) DmaOnly p q ∧ 0 < (q.ring.bufs j).sem) ↔
      p.ring.buf.size ≠ f.fragsize := by
  have hinv := inv_of_reach junk h
  refine ⟨?_, buffer_returns rfl hinv hj⟩
  rintro ⟨q, hreach, hsem⟩ hsize
  have hzero := stuck_stays hinv hj hsize hreach
  omega

/-- `audio_sync` waits for the buffer with the four bytes. -/
theorem buffer_returns_fourBytes :
    ∃ p, Reach (playStep defaultFrags) (fun p a => seesQueue p a = true)
        (openPlayer fun _ _ => 0xff) p ∧
      p.awaits = some 0 ∧ (p.ring.bufs 0).sem = 0 ∧
      ∃ q, Reach (playStep defaultFrags) DmaOnly p q ∧ 0 < (q.ring.bufs 0).sem := by
  have hrun : ((exec (guarded (playStep defaultFrags) fun p a => seesQueue p a = true)
      (openPlayer fun _ _ => 0xff) (fourBytesRun.take 10)).map fun p =>
        (p.awaits, (p.ring.bufs 0).sem, p.ring.buf.size)) = some (some 0, 0, 0) := by
    decide +kernel
  obtain ⟨p, hexec, hvalues⟩ := Option.map_eq_some_iff.mp hrun
  obtain ⟨hawaits, hsem, hsize⟩ : p.awaits = some 0 ∧ (p.ring.bufs 0).sem = 0 ∧
      p.ring.buf.size = 0 := by simpa using hvalues
  have hreach := Reach.of_exec_guarded hexec
  refine ⟨p, hreach, hawaits, hsem, (buffer_returns_iff defaultFrags _ p 0 hreach hawaits).mpr ?_⟩
  rw [hsize]
  decide

end Results

end Jz2440.Sound
