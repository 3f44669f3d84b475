import Jz2440.Common.Belt
import Jz2440.Common.Memory

/-!
# The buffers of the sound driver

Model of the buffers that `smdk2410_audio_write` and `smdk2410_audio_read` share with the DMA
controller, from `hard_driver/drivers_and_test/21th_sound/driver/s3c-wm8976.c`: `audio_buf_t`,
`audio_stream_t`, `NEXT_BUF`, `audio_setup_buf`, the two callbacks, and `SNDCTL_DSP_SETFRAGMENT`.

A buffer belongs to the process while its semaphore is up and to the controller while it is in the
queue of `s3c2410_dma_enqueue`. The controller works on the first buffer of the queue, byte by
byte, and calls the callback when it is done with it. That the buffers lie apart in memory is taken
from the allocator.

* `Ring.Turn`: the process and the controller take the buffers in turn, and the semaphores say who
  has which. `Turn.down`, `Turn.up`, `Turn.enqueue`, `Turn.returned`: every operation keeps this.
-/

namespace Jz2440.Sound

open Jz2440.Common

/-! ## The code -/

/-- `audio_nbfrags` and `audio_fragsize`. -/
structure Frags where
  nbfrags : ℕ
  fragsize : ℕ
  two_le : 2 ≤ nbfrags
  sixteen_le : 16 ≤ fragsize
  total_le : nbfrags * fragsize ≤ 128 * 1024

/-- `AUDIO_NBFRAGS_DEFAULT` and `AUDIO_FRAGSIZE_DEFAULT`. -/
def defaultFrags : Frags := ⟨8, 8192, by decide, by decide, by decide⟩

/-- `1 << n` on this processor: the lowest byte of `n` counts, and from 32 on nothing is left. -/
def shiftOne (n : ℕ) : ℕ := if n % 256 < 32 then 2 ^ (n % 256) else 0

/-- The size of a fragment that is asked for, brought into range (lines 848-852). -/
def askedFragsize (val : Word) : ℕ :=
  let audioFragsize := shiftOne (val &&& 0xffff).toNat
  let audioFragsize := if audioFragsize < 16 then 16 else audioFragsize
  if audioFragsize > 16384 then 16384 else audioFragsize

/-- The number of fragments that is asked for, brought into range (lines 853-857). -/
def askedNbfrags (val : Word) : ℕ :=
  let audioNbfrags := ((val >>> 16) &&& 0x7fff).toNat
  let audioNbfrags := if audioNbfrags < 2 then 2 else audioNbfrags
  if audioNbfrags * askedFragsize val > 128 * 1024 then 128 * 1024 / askedFragsize val
  else audioNbfrags

theorem askedFragsize_mem (val : Word) : 16 ≤ askedFragsize val ∧ askedFragsize val ≤ 16384 := by
  unfold askedFragsize
  dsimp only
  split_ifs <;> omega

/-- `SNDCTL_DSP_SETFRAGMENT`. -/
def setFragment (val : Word) : Frags where
  nbfrags := askedNbfrags val
  fragsize := askedFragsize val
  two_le := by
    have hsize := askedFragsize_mem val
    have hquot : 2 ≤ 128 * 1024 / askedFragsize val :=
      (Nat.le_div_iff_mul_le (by omega)).mpr (by omega)
    unfold askedNbfrags
    dsimp only
    split_ifs <;> omega
  sixteen_le := (askedFragsize_mem val).1
  total_le := by
    have hdiv := Nat.div_mul_le_self (128 * 1024) (askedFragsize val)
    unfold askedNbfrags
    dsimp only
    split_ifs <;> omega

/-- `audio_buf_t`. -/
structure Buf where
  size : ℕ
  data : ℕ → Byte
  sem : ℕ

/-- `audio_stream_t`, with the queue of the DMA channel (buffers and sizes), the number of bytes
    that are done of the first buffer in it, and the bytes that went over the IIS bus so far. -/
structure Ring where
  bufs : ℕ → Buf
  bufIdx : ℕ
  queue : List (ℕ × ℕ)
  pos : ℕ
  wire : List Byte

/-- `audio_setup_buf`; what the memory holds is not known. -/
def audioSetupBuf (junk : ℕ → ℕ → Byte) : Ring := ⟨fun i => ⟨0, junk i, 1⟩, 0, [], 0, []⟩

/-- `s->buf`. -/
def Ring.buf (g : Ring) : Buf := g.bufs g.bufIdx

def Ring.setBuf (g : Ring) (b : Buf) : Ring :=
  { g with bufs := Function.update g.bufs g.bufIdx b }

/-- How `s3c2410_dma_enqueue` ends (linux-2.6.22.6/arch/arm/plat-s3c24xx/dma.c:455-533): well,
    because it gets no memory, or because the controller, with the buffer already in its queue,
    does not load the buffer before it in time. -/
inductive Enqueued
  | ok
  | noMemory
  | timeout
  deriving DecidableEq

/-- The buffer is in the queue. -/
def Enqueued.queues : Enqueued → Bool
  | .noMemory => false
  | _ => true

/-- `s3c2410_dma_enqueue` for `s->buf`, which is left as `b`, and `NEXT_BUF`. -/
def Ring.enqueue (f : Frags) (g : Ring) (size : ℕ) (b : Buf) : Ring :=
  { g.setBuf b with
    queue := g.queue ++ [(g.bufIdx, size)]
    bufIdx := (g.bufIdx + 1) % f.nbfrags }

/-- The controller is done with buffer `i`, which is left as `b`, and the callback has run. -/
def Ring.returned (g : Ring) (i : ℕ) (rest : List (ℕ × ℕ)) (b : Buf) : Ring :=
  { g with
    bufs := Function.update g.bufs i { b with sem := b.sem + 1 }
    queue := rest
    pos := 0 }

/-- Playing: the next byte goes to the bus, or `audio_dmaout_done_callback`. -/
def Ring.dmaOut (g : Ring) : Option Ring :=
  match g.queue with
  | [] => none
  | (i, size) :: rest =>
    if g.pos < size then
      some { g with wire := g.wire ++ [(g.bufs i).data g.pos], pos := g.pos + 1 }
    else some (g.returned i rest (g.bufs i))

/-- Recording: the next byte comes from the bus, or `audio_dmain_done_callback`. -/
def Ring.dmaIn (g : Ring) (sample : Byte) : Option Ring :=
  match g.queue with
  | [] => none
  | (i, size) :: rest =>
    if g.pos < size then
      some { g with
        bufs := Function.update g.bufs i
          { g.bufs i with data := Function.update (g.bufs i).data g.pos sample }
        wire := g.wire ++ [sample]
        pos := g.pos + 1 }
    else some (g.returned i rest { g.bufs i with size := size })

theorem dmaOut_cases {g g' : Ring} (h : g.dmaOut = some g') :
    ∃ i size rest, g.queue = (i, size) :: rest ∧
      ((g.pos < size ∧
          g' = { g with wire := g.wire ++ [(g.bufs i).data g.pos], pos := g.pos + 1 }) ∨
        (size ≤ g.pos ∧ g' = g.returned i rest (g.bufs i))) := by
  unfold Ring.dmaOut at h
  split at h
  · cases h
  · rename_i i size rest hqueue
    refine ⟨i, size, rest, hqueue, ?_⟩
    split_ifs at h with hpos
    · exact .inl ⟨hpos, (Option.some.inj h).symm⟩
    · exact .inr ⟨Nat.le_of_not_lt hpos, (Option.some.inj h).symm⟩

theorem dmaIn_cases {g g' : Ring} {sample : Byte} (h : g.dmaIn sample = some g') :
    ∃ i size rest, g.queue = (i, size) :: rest ∧
      ((g.pos < size ∧ g' = { g with
          bufs := Function.update g.bufs i
            { g.bufs i with data := Function.update (g.bufs i).data g.pos sample }
          wire := g.wire ++ [sample]
          pos := g.pos + 1 }) ∨
        (size ≤ g.pos ∧ g' = g.returned i rest { g.bufs i with size := size })) := by
  unfold Ring.dmaIn at h
  split at h
  · cases h
  · rename_i i size rest hqueue
    refine ⟨i, size, rest, hqueue, ?_⟩
    split_ifs at h with hpos
    · exact .inl ⟨hpos, (Option.some.inj h).symm⟩
    · exact .inr ⟨Nat.le_of_not_lt hpos, (Option.some.inj h).symm⟩

/-! ## Who has a buffer -/

/-- The buffers that the controller has. -/
def Ring.queued (g : Ring) : List ℕ := g.queue.map Prod.fst

@[simp] theorem Ring.buf_setBuf (g : Ring) (b : Buf) : (g.setBuf b).buf = b :=
  Function.update_self _ _ _

@[simp] theorem Ring.queued_setBuf (g : Ring) (b : Buf) : (g.setBuf b).queued = g.queued := rfl

@[simp] theorem Ring.bufIdx_setBuf (g : Ring) (b : Buf) : (g.setBuf b).bufIdx = g.bufIdx := rfl

@[simp] theorem Ring.queued_returned (g : Ring) (i : ℕ) (rest : List (ℕ × ℕ)) (b : Buf) :
    (g.returned i rest b).queued = rest.map Prod.fst := rfl

theorem Ring.bufs_setBuf_of_ne (g : Ring) (b : Buf) {i : ℕ} (hi : i ≠ g.bufIdx) :
    (g.setBuf b).bufs i = g.bufs i := Function.update_of_ne hi _ _

/-- The buffers go round: those in the queue are the ones before `s->buf`, in order. A semaphore is
    down for a buffer in the queue and for `s->buf` while the process holds it. -/
structure Ring.Turn (f : Frags) (held : Bool) (g : Ring) : Prop where
  turn : ∃ r w, r ≤ w ∧ w ≤ r + f.nbfrags ∧ g.bufIdx = w % f.nbfrags ∧
    g.queued = slots f.nbfrags r w
  sem_le : ∀ i < f.nbfrags, (g.bufs i).sem ≤ 1
  down_iff : ∀ i < f.nbfrags,
    (g.bufs i).sem = 0 ↔ i ∈ g.queued ∨ (held = true ∧ i = g.bufIdx)
  mine : held = true → g.bufIdx ∉ g.queued

section Turn

variable {f : Frags} {held : Bool} {g : Ring}

theorem turn_audioSetupBuf (f : Frags) (junk : ℕ → ℕ → Byte) :
    (audioSetupBuf junk).Turn f false where
  turn := ⟨0, 0, le_rfl, Nat.zero_le _, (Nat.zero_mod _).symm, (slots_self _ 0).symm⟩
  sem_le := fun _ _ => le_rfl
  down_iff := fun i _ => by simp [audioSetupBuf, Ring.queued]
  mine := nofun

theorem Ring.Turn.bufIdx_lt (h : g.Turn f held) : g.bufIdx < f.nbfrags := by
  obtain ⟨r, w, -, -, hidx, -⟩ := h.turn
  have hn := f.two_le
  rw [hidx]
  exact Nat.mod_lt _ (by omega)

theorem Ring.Turn.next_ne (h : g.Turn f held) : (g.bufIdx + 1) % f.nbfrags ≠ g.bufIdx := by
  have hn := f.two_le
  have hlt := h.bufIdx_lt
  obtain hsmall | hlast : g.bufIdx + 1 < f.nbfrags ∨ g.bufIdx + 1 = f.nbfrags := by omega
  · rw [Nat.mod_eq_of_lt hsmall]
    omega
  · rw [hlast, Nat.mod_self]
    omega

theorem Ring.Turn.queued_lt (h : g.Turn f held) {i : ℕ} (hi : i ∈ g.queued) : i < f.nbfrags := by
  obtain ⟨r, w, -, -, -, hqueue⟩ := h.turn
  have hn := f.two_le
  rw [hqueue, slots, List.mem_map] at hi
  obtain ⟨k, -, rfl⟩ := hi
  exact Nat.mod_lt _ (by omega)

/-- Who gets a semaphore down has found its buffer outside of the queue. -/
theorem Ring.Turn.not_queued (h : g.Turn f held) {i : ℕ} (hi : i < f.nbfrags)
    (hsem : 0 < (g.bufs i).sem) : i ∉ g.queued := by
  intro hqueued
  have hzero := (h.down_iff i hi).mpr (.inl hqueued)
  omega

/-- The queue, if it is not empty, begins with the slot of `r`. -/
theorem Ring.Turn.cons {i size : ℕ} {rest : List (ℕ × ℕ)} (h : g.Turn f held)
    (hqueue : g.queue = (i, size) :: rest) :
    ∃ r w, r < w ∧ w ≤ r + f.nbfrags ∧ g.bufIdx = w % f.nbfrags ∧ i = r % f.nbfrags ∧
      rest.map Prod.fst = slots f.nbfrags (r + 1) w := by
  obtain ⟨r, w, hrw, hwn, hidx, hslots⟩ := h.turn
  rw [Ring.queued, hqueue, List.map_cons] at hslots
  obtain rfl | hlt := hrw.eq_or_lt
  · rw [slots_self] at hslots
    cases hslots
  · rw [slots_pop _ hlt] at hslots
    exact ⟨r, w, hlt, hwn, hidx, (List.cons.inj hslots).1, (List.cons.inj hslots).2⟩

/-- A buffer is in the queue once. -/
theorem Ring.Turn.head_not_mem (h : g.Turn f held) {i size : ℕ} {rest : List (ℕ × ℕ)}
    (hqueue : g.queue = (i, size) :: rest) : i ∉ rest.map Prod.fst := by
  obtain ⟨r, w, hrw, hwn, -, rfl, hrest⟩ := h.cons hqueue
  have hn := f.two_le
  rw [hrest, mod_mem_slots (Nat.le_succ r) hwn (by omega)]
  omega

/-- The buffer before `s->buf` is the last one in the queue. -/
theorem Ring.Turn.prev_queued (h : g.Turn f held) (hne : g.queue ≠ []) :
    (f.nbfrags + g.bufIdx - 1) % f.nbfrags ∈ g.queued := by
  obtain ⟨r, w, hrw, hwn, hidx, hslots⟩ := h.turn
  have hn := f.two_le
  obtain rfl | hlt := hrw.eq_or_lt
  · rw [slots_self] at hslots
    exact absurd (List.map_eq_nil_iff.mp hslots) hne
  · obtain ⟨k, rfl⟩ : ∃ k, w = k + 1 := ⟨w - 1, by omega⟩
    rw [hslots, hidx, pred_mod_slot (by omega), mod_mem_slots le_rfl hwn (by omega)]
    omega

/-- Of the buffers, only the semaphores matter. -/
theorem Ring.Turn.congr {g' : Ring} (h : g.Turn f held) (hidx : g'.bufIdx = g.bufIdx)
    (hqueued : g'.queued = g.queued) (hsem : ∀ i, (g'.bufs i).sem = (g.bufs i).sem) :
    g'.Turn f held where
  turn := by
    rw [hidx, hqueued]
    exact h.turn
  sem_le := fun i hi => by
    rw [hsem]
    exact h.sem_le i hi
  down_iff := fun i hi => by
    rw [hsem, hqueued, hidx]
    exact h.down_iff i hi
  mine := by
    rw [hqueued, hidx]
    exact h.mine

theorem Ring.Turn.setBuf (h : g.Turn f held) {b : Buf} (hsem : b.sem = g.buf.sem) :
    (g.setBuf b).Turn f held := by
  refine h.congr rfl rfl fun i => ?_
  by_cases hi : i = g.bufIdx
  · rw [hi]
    exact (congrArg Buf.sem (g.buf_setBuf b)).trans hsem
  · rw [g.bufs_setBuf_of_ne b hi]

/-- `down` on `s->buf`. -/
theorem Ring.Turn.down (h : g.Turn f false) (hsem : 0 < g.buf.sem) {b : Buf}
    (hb : b.sem = g.buf.sem - 1) : (g.setBuf b).Turn f true := by
  have hone : g.buf.sem ≤ 1 := h.sem_le _ h.bufIdx_lt
  have hbuf : ((g.setBuf b).bufs g.bufIdx).sem = 0 :=
    (congrArg Buf.sem (g.buf_setBuf b)).trans (by omega)
  refine ⟨h.turn, fun i hi => ?_, fun i hi => ?_, fun _ => h.not_queued h.bufIdx_lt hsem⟩
  · by_cases hidx : i = g.bufIdx
    · rw [hidx, hbuf]
      exact Nat.zero_le 1
    · rw [g.bufs_setBuf_of_ne _ hidx]
      exact h.sem_le i hi
  · by_cases hidx : i = g.bufIdx
    · rw [hidx]
      exact iff_of_true hbuf (.inr ⟨rfl, rfl⟩)
    · rw [g.bufs_setBuf_of_ne _ hidx, h.down_iff i hi]
      simp [hidx]

/-- `up` on `s->buf`. -/
theorem Ring.Turn.up (h : g.Turn f true) {b : Buf} (hb : b.sem = g.buf.sem + 1) :
    (g.setBuf b).Turn f false := by
  have hzero : g.buf.sem = 0 := (h.down_iff _ h.bufIdx_lt).mpr (.inr ⟨rfl, rfl⟩)
  have hbuf : ((g.setBuf b).bufs g.bufIdx).sem = 1 :=
    (congrArg Buf.sem (g.buf_setBuf b)).trans (by omega)
  refine ⟨h.turn, fun i hi => ?_, fun i hi => ?_, nofun⟩
  · by_cases hidx : i = g.bufIdx
    · rw [hidx, hbuf]
    · rw [g.bufs_setBuf_of_ne _ hidx]
      exact h.sem_le i hi
  · by_cases hidx : i = g.bufIdx
    · rw [hidx, hbuf]
      exact iff_of_false Nat.one_ne_zero (by simpa using h.mine rfl)
    · rw [g.bufs_setBuf_of_ne _ hidx, h.down_iff i hi]
      simp [hidx]

/-- The buffer that the process holds goes to the controller. -/
theorem Ring.Turn.enqueue (h : g.Turn f true) (size : ℕ) {b : Buf} (hsem : b.sem = g.buf.sem) :
    (g.enqueue f size b).Turn f false := by
  obtain ⟨r, w, hrw, hwn, hidx, hslots⟩ := h.turn
  have hn := f.two_le
  have hroom : w ≠ r + f.nbfrags := by
    have hmine := h.mine rfl
    rwa [hslots, hidx, next_mem_slots (by omega) hrw hwn] at hmine
  have hqueued : (g.enqueue f size b).queued = g.queued ++ [g.bufIdx] := by
    simp [Ring.enqueue, Ring.queued]
  have hset := h.setBuf hsem
  refine ⟨⟨r, w + 1, by omega, by omega, ?_, ?_⟩, hset.sem_le, fun i hi => ?_, nofun⟩
  · simp only [Ring.enqueue, hidx, succ_mod_slot]
  · rw [hqueued, hslots, slots_push _ hrw, hidx]
  · rw [hqueued]
    exact (hset.down_iff i hi).trans (by simp)

/-- The first buffer of the queue comes back. -/
theorem Ring.Turn.returned (h : g.Turn f held) {i size : ℕ} {rest : List (ℕ × ℕ)} {b : Buf}
    (hqueue : g.queue = (i, size) :: rest) (hsem : b.sem = (g.bufs i).sem) :
    (g.returned i rest b).Turn f held := by
  have hhead := h.head_not_mem hqueue
  obtain ⟨r, w, hrw, hwn, hidx, -, hrest⟩ := h.cons hqueue
  have hqueued : g.queued = i :: rest.map Prod.fst := by simp [Ring.queued, hqueue]
  have hmem : i ∈ g.queued := by rw [hqueued]; exact List.mem_cons_self
  have hzero := (h.down_iff i (h.queued_lt hmem)).mpr (.inl hmem)
  have hmine : held = true → g.bufIdx ≠ i := fun hheld heq => h.mine hheld (heq ▸ hmem)
  refine ⟨⟨r + 1, w, by omega, by omega, hidx, hrest⟩, fun k hk => ?_, fun k hk => ?_, ?_⟩
  · by_cases hki : k = i
    · simp [Ring.returned, hki, hsem, hzero]
    · simpa [Ring.returned, hki] using h.sem_le k hk
  · by_cases hki : k = i
    · rw [hki, Ring.queued_returned]
      refine iff_of_false (by simp [Ring.returned]) ?_
      rintro (hback | ⟨hheld, heq⟩)
      · exact hhead hback
      · exact hmine hheld heq.symm
    · have hk' := h.down_iff k hk
      rw [hqueued, List.mem_cons, or_iff_right hki] at hk'
      simp only [Ring.returned, Function.update_of_ne hki]
      exact hk'
  · intro hheld hback
    refine h.mine hheld ?_
    rw [hqueued]
    exact List.mem_cons_of_mem _ hback

end Turn

end Jz2440.Sound
