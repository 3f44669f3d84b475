import Jz2440.Common.Bytes

/-!
# Reading the DHT11

Model of `dht11_read` in `sensors/dht11/dht11.c` of
`hard_driver/first_hard/025_sensors_022/007_irda_nec_ok_022_009`.

The code sees the data pin only through `dht11_data_get`. Its input is therefore
the sequence of the levels that successive calls return, and a position in it;
delays and the configuration of the pin have no effect of their own.

`dht11_recv_byte` reports a timeout as -1, which `dht11_read` stores in an
`unsigned char` like any other result, and the sum of four such bytes is compared
with the fifth as an `int`.

* `FrameAt`: what a complete frame is, said of the levels alone.
* `CountedAt`: the five bytes as the code counts them, with 255 for a byte that is lost,
  said of the levels alone.
* `dht11Read_of_countedAt`: what `dht11_read` does with them.
* `readsExactly_iff`: for which levels `dht11_read` accepts exactly the complete and
  correct frames.
-/

namespace Jz2440.Sensors

open Jz2440.Common

/-! ## The code -/

section Code

variable (levels : ℕ → Bool)

/-- `dht11_wait_for_val` (dht11.c:97-106): the result and the position after it. -/
def dht11WaitForVal (val : Bool) : (timeoutUs pos : ℕ) → ℤ × ℕ
  | 0, pos => (-1, pos)
  | timeoutUs + 1, pos =>
    if levels pos = val then (0, pos + 1) else dht11WaitForVal val timeoutUs (pos + 1)

/-- The `for` loop of `dht11_recv_byte` with `n` bits to go (dht11.c:75-94). -/
def recvBits : (n data pos : ℕ) → ℤ × ℕ
  | 0, data, pos => (data, pos)
  | n + 1, data, pos =>
    let high := dht11WaitForVal levels true 1000 pos
    if high.1 ≠ 0 then (-1, high.2)
    else
      let data := (data <<< 1) ||| (if levels high.2 then 1 else 0)
      let low := dht11WaitForVal levels false 1000 (high.2 + 1)
      if low.1 ≠ 0 then (-1, low.2) else recvBits n data low.2

/-- `dht11_recv_byte` (dht11.c:70-95). -/
def dht11RecvByte (pos : ℕ) : ℤ × ℕ := recvBits levels 8 0 pos

/-- What the five calls of `dht11_recv_byte` have returned. -/
structure Received where
  humM : ℤ
  humN : ℤ
  tempM : ℤ
  tempN : ℤ
  check : ℤ
  deriving DecidableEq

/-- The five calls (dht11.c:135-139). -/
def recvFrame (pos : ℕ) : Received :=
  let humM := dht11RecvByte levels pos
  let humN := dht11RecvByte levels humM.2
  let tempM := dht11RecvByte levels humN.2
  let tempN := dht11RecvByte levels tempM.2
  let check := dht11RecvByte levels tempN.2
  ⟨humM.1, humN.1, tempM.1, tempN.1, check.1⟩

/-- The conversion to `unsigned char`, read as an `int` again. -/
def narrow (n : ℤ) : ℤ := (BitVec.ofInt 8 n : Byte).toNat

/-- `hum_m + hum_n + temp_m + temp_n == check` (dht11.c:144). -/
def Received.Accepted (f : Received) : Prop :=
  narrow f.humM + narrow f.humN + narrow f.tempM + narrow f.tempN = narrow f.check

instance (f : Received) : Decidable f.Accepted := inferInstanceAs (Decidable (_ = _))

/-- The return value, and `*hum` and `*temp`. -/
structure ReadResult where
  ret : ℤ
  hum : ℤ
  temp : ℤ
  deriving DecidableEq

/-- The end of `dht11_read`, from the first `dht11_recv_byte` on (dht11.c:135-155). -/
def readFrame (hum temp : ℤ) (pos : ℕ) : ReadResult :=
  let f := recvFrame levels pos
  if f.Accepted then ⟨0, narrow f.humM, narrow f.tempM⟩ else ⟨-1, hum, temp⟩

/-- `dht11_read` (dht11.c:109-157). The first level is the one that `dht11_wait_ack` reads. -/
def dht11Read (hum temp : ℤ) : ReadResult :=
  if levels 0 ≠ false then ⟨-1, hum, temp⟩
  else
    let high := dht11WaitForVal levels true 1000 1
    if high.1 ≠ 0 then ⟨-1, hum, temp⟩
    else
      let low := dht11WaitForVal levels false 1000 high.2
      if low.1 ≠ 0 then ⟨-1, hum, temp⟩ else readFrame levels hum temp low.2

end Code

/-! ## Frames -/

section Frames

variable (levels : ℕ → Bool)

/-- Within `timeout` polls from `pos` on the level `val` is read, by the poll before `next`. -/
def SeenIn (val : Bool) (timeout pos next : ℕ) : Prop :=
  ∃ k < timeout, levels (pos + k) = val ∧ (∀ j < k, levels (pos + j) ≠ val) ∧ next = pos + k + 1

/-- In `timeout` polls from `pos` on the level `val` is not read. -/
def Missing (val : Bool) (timeout pos next : ℕ) : Prop :=
  (∀ j < timeout, levels (pos + j) ≠ val) ∧ next = pos + timeout

/-- The response of the sensor: low at once, then high, then low. -/
def AckAt (next : ℕ) : Prop :=
  levels 0 = false ∧ ∃ mid, SeenIn levels true 1000 1 mid ∧ SeenIn levels false 1000 mid next

/-- Bits in order: high, the level that is the bit, and low. -/
def BitsAt : List Bool → ℕ → ℕ → Prop
  | [], pos, next => next = pos
  | bit :: bits, pos, next =>
    ∃ mid mid', SeenIn levels true 1000 pos mid ∧ levels mid = bit ∧
      SeenIn levels false 1000 (mid + 1) mid' ∧ BitsAt bits mid' next

/-- One of the next `n` bits is lost: its high or its low level does not come in time. -/
def LostIn : ℕ → ℕ → ℕ → Prop
  | 0, _, _ => False
  | n + 1, pos, next =>
    Missing levels true 1000 pos next ∨
      ∃ mid, SeenIn levels true 1000 pos mid ∧
        (Missing levels false 1000 (mid + 1) next ∨
          ∃ mid', SeenIn levels false 1000 (mid + 1) mid' ∧ LostIn n mid' next)

/-- The number with these bits, most significant bit first. -/
def bitsValue (bits : List Bool) : ℕ := bits.foldl (fun v bit => 2 * v + bit.toNat) 0

/-- A byte of eight bits. -/
def ByteAt (b pos next : ℕ) : Prop :=
  ∃ bits, bits.length = 8 ∧ BitsAt levels bits pos next ∧ b = bitsValue bits

/-- The byte is there, or it is lost, and then it counts as 255. -/
def CountsAs (b pos next : ℕ) : Prop :=
  ByteAt levels b pos next ∨ b = 255 ∧ LostIn levels 8 pos next

/-- Five bytes: those of a frame, or as they count. -/
structure Frame where
  humM : ℕ
  humN : ℕ
  tempM : ℕ
  tempN : ℕ
  check : ℕ

/-- The sum of the first four bytes. -/
def Frame.sum (b : Frame) : ℕ := b.humM + b.humN + b.tempM + b.tempN

/-- The fifth byte is the sum of the others, modulo 256. -/
def Frame.Correct (b : Frame) : Prop := b.check = b.sum % 256

/-- A complete frame: the response and 40 bits, none of them with a timeout. -/
def FrameAt (b : Frame) : Prop :=
  ∃ p₀ p₁ p₂ p₃ p₄ p₅, AckAt levels p₀ ∧ ByteAt levels b.humM p₀ p₁ ∧
    ByteAt levels b.humN p₁ p₂ ∧ ByteAt levels b.tempM p₂ p₃ ∧ ByteAt levels b.tempN p₃ p₄ ∧
    ByteAt levels b.check p₄ p₅

/-- After the response, five bytes that are there or lost. -/
def CountedAt (b : Frame) : Prop :=
  ∃ p₀ p₁ p₂ p₃ p₄ p₅, AckAt levels p₀ ∧ CountsAs levels b.humM p₀ p₁ ∧
    CountsAs levels b.humN p₁ p₂ ∧ CountsAs levels b.tempM p₂ p₃ ∧
    CountsAs levels b.tempN p₃ p₄ ∧ CountsAs levels b.check p₄ p₅

/-- `dht11_read` succeeds with the bytes of a complete and correct frame, and in every
    other case it fails and leaves `*hum` and `*temp` alone. -/
def ReadsExactly (hum temp : ℤ) : Prop :=
  (∀ b, FrameAt levels b → b.Correct → dht11Read levels hum temp = ⟨0, b.humM, b.tempM⟩) ∧
    ((∀ b, FrameAt levels b → ¬ b.Correct) → dht11Read levels hum temp = ⟨-1, hum, temp⟩)

end Frames

/-! ## Waiting -/

section Waiting

variable {levels : ℕ → Bool} {val : Bool} {timeout pos next : ℕ}

theorem wait_of_seenIn (h : SeenIn levels val timeout pos next) :
    dht11WaitForVal levels val timeout pos = (0, next) := by
  obtain ⟨k, hk, hlevel, hbefore, rfl⟩ := h
  induction k generalizing timeout pos with
  | zero =>
    obtain ⟨t, rfl⟩ := Nat.exists_eq_add_of_lt hk
    rw [Nat.zero_add, dht11WaitForVal]
    exact if_pos hlevel
  | succ k ih =>
    obtain ⟨t, rfl⟩ := Nat.exists_eq_add_of_lt hk
    have hfirst : levels pos ≠ val := hbefore 0 (Nat.succ_pos k)
    rw [dht11WaitForVal, if_neg hfirst, ih (by omega)]
    · congr 1
      omega
    · rwa [Nat.add_assoc, Nat.add_comm 1]
    · intro j hj
      rw [Nat.add_assoc, Nat.add_comm 1]
      exact hbefore (j + 1) (by omega)

theorem wait_of_missing (h : Missing levels val timeout pos next) :
    dht11WaitForVal levels val timeout pos = (-1, next) := by
  obtain ⟨hnever, rfl⟩ := h
  induction timeout generalizing pos with
  | zero => rfl
  | succ timeout ih =>
    have hfirst : levels pos ≠ val := hnever 0 (Nat.succ_pos timeout)
    rw [dht11WaitForVal, if_neg hfirst, ih]
    · congr 1
      omega
    · intro j hj
      rw [Nat.add_assoc, Nat.add_comm 1]
      exact hnever (j + 1) (by omega)

/-- A level is seen, or it is missing. -/
theorem seenIn_or_missing (levels : ℕ → Bool) (val : Bool) (timeout pos : ℕ) :
    (∃ next, SeenIn levels val timeout pos next) ∨
      ∃ next, Missing levels val timeout pos next := by
  by_cases hseen : ∃ k < timeout, levels (pos + k) = val
  · obtain ⟨hlt, hlevel⟩ := Nat.find_spec hseen
    refine .inl ⟨_, Nat.find hseen, hlt, hlevel, fun j hj hval => ?_, rfl⟩
    exact Nat.find_min hseen hj ⟨hj.trans hlt, hval⟩
  · exact .inr ⟨_, fun j hj hval => hseen ⟨j, hj, hval⟩, rfl⟩

end Waiting

/-! ## Bytes -/

section Bytes

variable {levels : ℕ → Bool} {bits : List Bool} {b pos next : ℕ}

theorem shift_or_bit (data : ℕ) (bit : Bool) :
    (data <<< 1) ||| (if bit then 1 else 0) = 2 * data + bit.toNat := by
  have hlt : (if bit then 1 else 0) < 2 ^ 1 := by cases bit <;> decide
  rw [← Nat.shiftLeft_add_eq_or_of_lt hlt, Nat.shiftLeft_eq, Nat.mul_comm]
  cases bit <;> rfl

theorem recvBits_of_bitsAt (h : BitsAt levels bits pos next) (data : ℕ) :
    recvBits levels bits.length data pos =
      (((bits.foldl (fun v bit => 2 * v + bit.toNat) data : ℕ) : ℤ), next) := by
  induction bits generalizing pos data with
  | nil =>
    cases h
    rfl
  | cons bit bits ih =>
    obtain ⟨mid, mid', hhigh, hbit, hlow, hrest⟩ := h
    simp only [List.length_cons, recvBits, wait_of_seenIn hhigh, wait_of_seenIn hlow, hbit,
      shift_or_bit, ne_eq, not_true_eq_false, if_false, ih hrest, List.foldl_cons]

theorem recvBits_of_lostIn {n : ℕ} (h : LostIn levels n pos next) (data : ℕ) :
    recvBits levels n data pos = (-1, next) := by
  induction n generalizing pos data with
  | zero => exact h.elim
  | succ n ih =>
    obtain hhigh | ⟨mid, hhigh, hlow | ⟨mid', hlow, hrest⟩⟩ := h
    · simp only [recvBits, wait_of_missing hhigh]
      rfl
    · simp only [recvBits, wait_of_seenIn hhigh, wait_of_missing hlow]
      rfl
    · simp only [recvBits, wait_of_seenIn hhigh, wait_of_seenIn hlow, ne_eq, not_true_eq_false,
        if_false, ih hrest]

/-- All bits are there, or one of them is lost. -/
theorem bitsAt_or_lostIn (levels : ℕ → Bool) (n pos : ℕ) :
    (∃ bits next, bits.length = n ∧ BitsAt levels bits pos next) ∨
      ∃ next, LostIn levels n pos next := by
  induction n generalizing pos with
  | zero => exact .inl ⟨[], pos, rfl, rfl⟩
  | succ n ih =>
    rcases seenIn_or_missing levels true 1000 pos with ⟨mid, hhigh⟩ | ⟨next, hhigh⟩
    · rcases seenIn_or_missing levels false 1000 (mid + 1) with ⟨mid', hlow⟩ | ⟨next, hlow⟩
      · rcases ih mid' with ⟨bits, next, hlength, hbits⟩ | ⟨next, hlost⟩
        · exact .inl ⟨levels mid :: bits, next, congrArg (· + 1) hlength,
            mid, mid', hhigh, rfl, hlow, hbits⟩
        · exact .inr ⟨next, .inr ⟨mid, hhigh, .inr ⟨mid', hlow, hlost⟩⟩⟩
      · exact .inr ⟨next, .inr ⟨mid, hhigh, .inl hlow⟩⟩
    · exact .inr ⟨next, .inl hhigh⟩

theorem foldl_bits_lt (bits : List Bool) (v : ℕ) :
    bits.foldl (fun v bit => 2 * v + bit.toNat) v < (v + 1) * 2 ^ bits.length := by
  induction bits generalizing v with
  | nil => simp
  | cons bit bits ih =>
    have hbit : bit.toNat ≤ 1 := Bool.toNat_le bit
    calc bits.foldl (fun v bit => 2 * v + bit.toNat) (2 * v + bit.toNat)
        < (2 * v + bit.toNat + 1) * 2 ^ bits.length := ih _
      _ ≤ (2 * (v + 1)) * 2 ^ bits.length := Nat.mul_le_mul_right _ (by omega)
      _ = (v + 1) * 2 ^ (bits.length + 1) := by ring

theorem ByteAt.lt (h : ByteAt levels b pos next) : b < 256 := by
  obtain ⟨bits, hlength, -, rfl⟩ := h
  have hlt := foldl_bits_lt bits 0
  rwa [hlength] at hlt

theorem recvByte_of_byteAt (h : ByteAt levels b pos next) :
    dht11RecvByte levels pos = ((b : ℤ), next) := by
  obtain ⟨bits, hlength, hbits, rfl⟩ := h
  rw [dht11RecvByte, ← hlength, recvBits_of_bitsAt hbits]
  rfl

theorem recvByte_of_lostIn (h : LostIn levels 8 pos next) :
    dht11RecvByte levels pos = (-1, next) :=
  recvBits_of_lostIn h 0

theorem byteAt_or_lostIn (levels : ℕ → Bool) (pos : ℕ) :
    (∃ b next, ByteAt levels b pos next) ∨ ∃ next, LostIn levels 8 pos next := by
  rcases bitsAt_or_lostIn levels 8 pos with ⟨bits, next, hlength, hbits⟩ | hlost
  · exact .inl ⟨bitsValue bits, next, bits, hlength, hbits, rfl⟩
  · exact .inr hlost

/-- The code receives a byte exactly where there is one. -/
theorem byteAt_iff :
    ByteAt levels b pos next ↔ dht11RecvByte levels pos = ((b : ℤ), next) := by
  refine ⟨recvByte_of_byteAt, fun h => ?_⟩
  rcases byteAt_or_lostIn levels pos with ⟨b', next', hbyte⟩ | ⟨next', hlost⟩
  · obtain ⟨hb, rfl⟩ := Prod.mk.inj ((recvByte_of_byteAt hbyte).symm.trans h)
    rwa [Int.ofNat.inj hb] at hbyte
  · rw [recvByte_of_lostIn hlost] at h
    exact absurd (congrArg Prod.fst h) (by simp only; omega)

theorem narrow_natCast {n : ℕ} (h : n < 256) : narrow n = n := by
  simp [narrow, Nat.mod_eq_of_lt h]

theorem CountsAs.lt (h : CountsAs levels b pos next) : b < 256 := by
  obtain hbyte | ⟨rfl, -⟩ := h
  · exact hbyte.lt
  · decide

/-- What is stored in an `unsigned char` is the byte as it counts. -/
theorem CountsAs.recvByte (h : CountsAs levels b pos next) :
    narrow (dht11RecvByte levels pos).1 = b ∧ (dht11RecvByte levels pos).2 = next := by
  obtain hbyte | ⟨rfl, hlost⟩ := h
  · rw [recvByte_of_byteAt hbyte]
    exact ⟨narrow_natCast hbyte.lt, rfl⟩
  · rw [recvByte_of_lostIn hlost]
    exact ⟨rfl, rfl⟩

theorem exists_countsAs (levels : ℕ → Bool) (pos : ℕ) : ∃ b next, CountsAs levels b pos next := by
  rcases byteAt_or_lostIn levels pos with ⟨b, next, hbyte⟩ | ⟨next, hlost⟩
  · exact ⟨b, next, .inl hbyte⟩
  · exact ⟨255, next, .inr ⟨rfl, hlost⟩⟩

end Bytes

/-! ## Reading a frame -/

section Reading

variable {levels : ℕ → Bool} {b b' : Frame} {start start' : ℕ}

/-- What the calls return for a complete frame. -/
def Frame.received (b : Frame) : Received := ⟨b.humM, b.humN, b.tempM, b.tempN, b.check⟩

theorem AckAt.unique (h : AckAt levels start) (h' : AckAt levels start') : start = start' := by
  obtain ⟨-, mid, hhigh, hlow⟩ := h
  obtain ⟨-, mid', hhigh', hlow'⟩ := h'
  obtain ⟨-, rfl⟩ := Prod.mk.inj ((wait_of_seenIn hhigh).symm.trans (wait_of_seenIn hhigh'))
  exact (Prod.mk.inj ((wait_of_seenIn hlow).symm.trans (wait_of_seenIn hlow'))).2

/-- After the response, the five calls return the bytes of a frame exactly if it is there. -/
theorem frameAt_iff (hack : AckAt levels start) :
    FrameAt levels b ↔ recvFrame levels start = b.received := by
  constructor
  · rintro ⟨p₀, p₁, p₂, p₃, p₄, p₅, hack', h₀, h₁, h₂, h₃, h₄⟩
    obtain rfl := hack.unique hack'
    rw [byteAt_iff] at h₀ h₁ h₂ h₃ h₄
    simp only [recvFrame, h₀, h₁, h₂, h₃, h₄, Frame.received]
  · intro h
    simp only [recvFrame, Frame.received, Received.mk.injEq] at h
    obtain ⟨h₀, h₁, h₂, h₃, h₄⟩ := h
    exact ⟨start, _, _, _, _, _, hack, byteAt_iff.mpr (Prod.ext h₀ rfl),
      byteAt_iff.mpr (Prod.ext h₁ rfl), byteAt_iff.mpr (Prod.ext h₂ rfl),
      byteAt_iff.mpr (Prod.ext h₃ rfl), byteAt_iff.mpr (Prod.ext h₄ rfl)⟩

theorem FrameAt.countedAt (h : FrameAt levels b) : CountedAt levels b := by
  obtain ⟨p₀, p₁, p₂, p₃, p₄, p₅, hack, h₀, h₁, h₂, h₃, h₄⟩ := h
  exact ⟨p₀, p₁, p₂, p₃, p₄, p₅, hack, .inl h₀, .inl h₁, .inl h₂, .inl h₃, .inl h₄⟩

theorem AckAt.exists_countedAt (h : AckAt levels start) : ∃ b, CountedAt levels b := by
  obtain ⟨b₀, p₁, h₀⟩ := exists_countsAs levels start
  obtain ⟨b₁, p₂, h₁⟩ := exists_countsAs levels p₁
  obtain ⟨b₂, p₃, h₂⟩ := exists_countsAs levels p₂
  obtain ⟨b₃, p₄, h₃⟩ := exists_countsAs levels p₃
  obtain ⟨b₄, p₅, h₄⟩ := exists_countsAs levels p₄
  exact ⟨⟨b₀, b₁, b₂, b₃, b₄⟩, start, p₁, p₂, p₃, p₄, p₅, h, h₀, h₁, h₂, h₃, h₄⟩

theorem dht11Read_of_ackAt (h : AckAt levels start) (hum temp : ℤ) :
    dht11Read levels hum temp = readFrame levels hum temp start := by
  obtain ⟨hlevel, mid, hhigh, hlow⟩ := h
  simp only [dht11Read, hlevel, wait_of_seenIn hhigh, wait_of_seenIn hlow, ne_eq,
    not_true_eq_false, if_false]

theorem dht11Read_of_not_ackAt (h : ∀ start, ¬ AckAt levels start) (hum temp : ℤ) :
    dht11Read levels hum temp = ⟨-1, hum, temp⟩ := by
  by_cases hlevel : levels 0 = false
  · rcases seenIn_or_missing levels true 1000 1 with ⟨mid, hhigh⟩ | ⟨next, hhigh⟩
    · rcases seenIn_or_missing levels false 1000 mid with ⟨start, hlow⟩ | ⟨next, hlow⟩
      · exact absurd ⟨hlevel, mid, hhigh, hlow⟩ (h start)
      · simp only [dht11Read, hlevel, wait_of_seenIn hhigh, wait_of_missing hlow]
        rfl
    · simp only [dht11Read, hlevel, wait_of_missing hhigh]
      rfl
  · rw [dht11Read, if_pos hlevel]

/-! ### The check -/

/-- The bytes are accepted if the first four, as they count, sum to the fifth, as numbers. -/
theorem dht11Read_of_countedAt (h : CountedAt levels b) (hum temp : ℤ) :
    dht11Read levels hum temp =
      if b.sum = b.check then ⟨0, b.humM, b.tempM⟩ else ⟨-1, hum, temp⟩ := by
  obtain ⟨start, _, _, _, _, _, hack, h₀, h₁, h₂, h₃, h₄⟩ := h
  obtain ⟨hhumM, rfl⟩ := h₀.recvByte
  obtain ⟨hhumN, rfl⟩ := h₁.recvByte
  obtain ⟨htempM, rfl⟩ := h₂.recvByte
  obtain ⟨htempN, rfl⟩ := h₃.recvByte
  obtain ⟨hcheck, rfl⟩ := h₄.recvByte
  rw [dht11Read_of_ackAt hack, readFrame]
  simp only [recvFrame, Received.Accepted, Frame.sum, hhumM, hhumN, htempM, htempN, hcheck]
  norm_cast

theorem FrameAt.check_lt (h : FrameAt levels b) : b.check < 256 := by
  obtain ⟨_, _, _, _, _, _, -, -, -, -, -, h₄⟩ := h
  exact h₄.lt

/-- A byte that is lost counts as 255, so with one in it a frame passes only with both sides
    255. -/
theorem CountedAt.accepted_iff (h : CountedAt levels b) (hnone : ∀ b', ¬ FrameAt levels b') :
    b.sum = b.check ↔ b.sum = 255 ∧ b.check = 255 := by
  obtain ⟨p₀, p₁, p₂, p₃, p₄, p₅, hack, h₀, h₁, h₂, h₃, h₄⟩ := h
  have hlost : b.humM = 255 ∨ b.humN = 255 ∨ b.tempM = 255 ∨ b.tempN = 255 ∨ b.check = 255 := by
    by_contra hbytes
    simp only [not_or] at hbytes
    obtain ⟨hne₀, hne₁, hne₂, hne₃, hne₄⟩ := hbytes
    exact hnone b ⟨p₀, p₁, p₂, p₃, p₄, p₅, hack, h₀.resolve_right fun h => hne₀ h.1,
      h₁.resolve_right fun h => hne₁ h.1, h₂.resolve_right fun h => hne₂ h.1,
      h₃.resolve_right fun h => hne₃ h.1, h₄.resolve_right fun h => hne₄ h.1⟩
  have hlt := h₄.lt
  unfold Frame.sum
  omega

theorem success_ne_failure {hum temp hum' temp' : ℤ} :
    (⟨0, hum, temp⟩ : ReadResult) ≠ ⟨-1, hum', temp'⟩ := by
  intro heq
  have hret : (0 : ℤ) = -1 := congrArg ReadResult.ret heq
  omega

/-- `dht11_read` accepts exactly the complete and correct frames unless the four bytes of
    such a frame sum to 256 or more, or some byte is lost and both sides count as 255. -/
theorem readsExactly_iff (levels : ℕ → Bool) (hum temp : ℤ) :
    ReadsExactly levels hum temp ↔
      (∀ b, FrameAt levels b → b.Correct → b.sum < 256) ∧
        ∀ b, CountedAt levels b → (∀ b', ¬ FrameAt levels b') →
          ¬ (b.sum = 255 ∧ b.check = 255) := by
  constructor
  · rintro ⟨hgood, hbad⟩
    refine ⟨fun b hb hcorrect => ?_, fun b hb hnone hboth => ?_⟩
    · have hread := hgood b hb hcorrect
      rw [dht11Read_of_countedAt hb.countedAt] at hread
      by_cases hsum : b.sum = b.check
      · exact hsum ▸ hb.check_lt
      · rw [if_neg hsum] at hread
        exact absurd hread.symm success_ne_failure
    · have hread := hbad fun b' hb' => absurd hb' (hnone b')
      rw [dht11Read_of_countedAt hb, if_pos ((hb.accepted_iff hnone).mpr hboth)] at hread
      exact absurd hread success_ne_failure
  · rintro ⟨hsum, hlost⟩
    refine ⟨fun b hb hcorrect => ?_, fun hnone => ?_⟩
    · have hcheck : b.sum = b.check := by
        rw [hcorrect, Nat.mod_eq_of_lt (hsum b hb hcorrect)]
      rw [dht11Read_of_countedAt hb.countedAt, if_pos hcheck]
    · by_cases hack : ∃ start, AckAt levels start
      · obtain ⟨start, hack⟩ := hack
        by_cases hcomplete : ∃ b, FrameAt levels b
        · obtain ⟨b, hb⟩ := hcomplete
          have hne : b.sum ≠ b.check := by
            intro heq
            apply hnone b hb
            rw [Frame.Correct, heq, Nat.mod_eq_of_lt hb.check_lt]
          rw [dht11Read_of_countedAt hb.countedAt, if_neg hne]
        · obtain ⟨b, hb⟩ := hack.exists_countedAt
          have hne := mt (hb.accepted_iff (not_exists.mp hcomplete)).mp
            (hlost b hb (not_exists.mp hcomplete))
          rw [dht11Read_of_countedAt hb, if_neg hne]
      · exact dht11Read_of_not_ackAt (not_exists.mp hack) hum temp

/-! ### Some frames -/

/-- The levels for the response and these bytes, each wait with one poll; then low for good. -/
def pinLevels (bytes : List Byte) (pos : ℕ) : Bool :=
  if pos < 3 then pos == 1
  else
    let bit := (pos - 3) / 3
    match (pos - 3) % 3 with
    | 0 => decide (bit < 8 * bytes.length)
    | 1 => (bytes.getD (bit / 8) 0).getMsbD (bit % 8)
    | _ => false

theorem ackAt_pinLevels (bytes : List Byte) : AckAt (pinLevels bytes) 3 := by
  have hnone : ∀ (pos : ℕ) (val : Bool), ∀ j < 0, pinLevels bytes (pos + j) ≠ val :=
    fun _ _ j hj => absurd hj (Nat.not_lt_zero j)
  exact ⟨rfl, 2, ⟨0, by decide, rfl, hnone 1 true, rfl⟩, 0, by decide, rfl, hnone 2 false, rfl⟩

/-- 45 % and 23 degrees. -/
theorem readsExactly_climate : ReadsExactly (pinLevels [45, 0, 23, 0, 68]) 7 7 := by
  have hack := ackAt_pinLevels [45, 0, 23, 0, 68]
  have hreceived : recvFrame (pinLevels [45, 0, 23, 0, 68]) 3 = ⟨45, 0, 23, 0, 68⟩ := by
    decide +kernel
  have hframe : FrameAt (pinLevels [45, 0, 23, 0, 68]) ⟨45, 0, 23, 0, 68⟩ :=
    (frameAt_iff hack).mpr hreceived
  refine (readsExactly_iff _ 7 7).mpr ⟨fun b hb _ => ?_, fun b _ hnone => ?_⟩
  · have heq : b.received = ⟨45, 0, 23, 0, 68⟩ := ((frameAt_iff hack).mp hb).symm.trans hreceived
    simp only [Frame.received, Received.mk.injEq] at heq
    unfold Frame.sum
    omega
  · exact absurd hframe (hnone _)

/-- A correct frame with the sum 256 is rejected; a frame whose fifth byte never arrives is
    accepted, since the timeout counts as the byte 255. -/
theorem not_readsExactly_sum_timeout :
    ¬ ReadsExactly (pinLevels [200, 0, 56, 0, 0]) 7 7 ∧
      ¬ ReadsExactly (pinLevels [255, 0, 0, 0]) 7 7 := by
  constructor
  · rintro ⟨hgood, -⟩
    have hframe : FrameAt (pinLevels [200, 0, 56, 0, 0]) ⟨200, 0, 56, 0, 0⟩ :=
      (frameAt_iff (ackAt_pinLevels _)).mpr (by decide +kernel)
    have hread : dht11Read (pinLevels [200, 0, 56, 0, 0]) 7 7 = ⟨-1, 7, 7⟩ := by decide +kernel
    exact absurd (hread.symm.trans (hgood _ hframe rfl)) (by decide)
  · rintro ⟨-, hbad⟩
    have hreceived : recvFrame (pinLevels [255, 0, 0, 0]) 3 = ⟨255, 0, 0, 0, -1⟩ := by
      decide +kernel
    have hread : dht11Read (pinLevels [255, 0, 0, 0]) 7 7 = ⟨0, 255, 0⟩ := by decide +kernel
    have hfail := hbad fun b hb => ?_
    · exact absurd (hread.symm.trans hfail) success_ne_failure
    · -- the fifth byte is lost
      have heq := ((frameAt_iff (ackAt_pinLevels _)).mp hb).symm.trans hreceived
      simp only [Frame.received, Received.mk.injEq] at heq
      omega

end Reading

end Jz2440.Sensors
