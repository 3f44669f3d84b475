import Jz2440.I2c.Controller

/-!
# What a master receive leaves in the buffer

A read message of `len ≥ 1` bytes to a slave that acknowledges its address takes
`1 + len` interrupts: one for the address byte and one per data byte. The
handler counts them from `cnt_transferred = -1`, so data byte `k` arrives with
`cnt_transferred = k + 1` and is stored at `buf[k]`, except that the branch for
`cnt_transferred = len` issues the STOP without reading `IICDS`.

* `waitLoop_rx`: the run of the wait loop over the data interrupts.
* `doMasterRx_received`: the buffer after a receive: every byte but the last
  is stored, the last element keeps its old value.
* `doMasterRx_delivers_iff`: hence `do_master_rx` delivers all `len` bytes iff
  the last element already held the last byte before the call.
-/

namespace Jz2440.I2c

open Jz2440.Common

/-- The data byte of an interrupt: `IICDS` as an `unsigned char`. -/
def BusIrq.data (irq : BusIrq) : Byte := irq.iicds.setWidth 8

/-! ## One data interrupt -/

/-- An interrupt for data byte `cnt` that is not the last one stores the byte. -/
theorem i2cInterruptFunc_rx_store (irq : BusIrq) (s : I2cState) (hflags : s.msg.flags = 1)
    (hcnt : 0 ≤ s.msg.cntTransferred) (hlt : s.msg.cntTransferred + 1 < s.msg.len) :
    (i2cInterruptFunc irq (raiseIrq s)).msg = { s.msg with
      cntTransferred := s.msg.cntTransferred + 1
      buf := Function.update s.msg.buf s.msg.cntTransferred irq.data } := by
  have hne : s.msg.cntTransferred + 1 ≠ 0 := by omega
  simp [i2cInterruptFunc, rxInterrupt, incCnt, hflags, hne, hlt, BusIrq.data]

/-- The interrupt for the last data byte issues the STOP and stores nothing. -/
theorem i2cInterruptFunc_rx_last (irq : BusIrq) (s : I2cState) (hflags : s.msg.flags = 1)
    (hcnt : 0 ≤ s.msg.cntTransferred) (hlast : s.msg.cntTransferred + 1 = s.msg.len) :
    (i2cInterruptFunc irq (raiseIrq s)).msg =
      { s.msg with cntTransferred := s.msg.cntTransferred + 1 } := by
  have hne : s.msg.len ≠ 0 := by omega
  simp [i2cInterruptFunc, rxInterrupt, incCnt, hflags, hne, hlast]

/-- The interrupt after an acknowledged address byte only counts. -/
theorem i2cInterruptFunc_rx_ack (irq : BusIrq) (s : I2cState) (hflags : s.msg.flags = 1)
    (hcnt : s.msg.cntTransferred = -1) (hack : ¬ irq.noAck) :
    (i2cInterruptFunc irq (raiseIrq s)).msg = { s.msg with cntTransferred := 0 } := by
  simp [i2cInterruptFunc, rxInterrupt, incCnt, hflags, hcnt, hack]

/-! ## The whole transfer -/

/-- The wait loop of a read message over its data interrupts, started when
    `cnt` data bytes have arrived: it exits without an error, the bytes but the
    last are stored in order, and nothing else changes. -/
theorem waitLoop_rx (irqs : List BusIrq) :
    ∀ s : I2cState, s.msg.flags = 1 → s.msg.err = 0 → 0 ≤ s.msg.cntTransferred →
      s.msg.cntTransferred + irqs.length = s.msg.len → irqs ≠ [] →
      ∃ s', waitLoop s irqs = some (s', []) ∧ s'.msg.err = 0 ∧
        (∀ k (hk : k + 1 < irqs.length),
          s'.msg.buf (s.msg.cntTransferred + k) = irqs[k].data) ∧
        ∀ j, j < s.msg.cntTransferred ∨ s.msg.len - 1 ≤ j → s'.msg.buf j = s.msg.buf j := by
  induction irqs with
  | nil => intro s _ _ _ _ hne; exact absurd rfl hne
  | cons irq irqs ih =>
    intro s hflags herr hcnt hlen _
    simp only [List.length_cons, Nat.cast_add, Nat.cast_one] at hlen
    have hwait : Waiting s.msg := ⟨herr, by omega⟩
    rw [waitLoop, if_pos hwait]
    cases irqs with
    | nil =>
      -- the last byte: `cnt_transferred = len` ends the loop, nothing is stored
      have hmsg := i2cInterruptFunc_rx_last irq s hflags hcnt (by simpa using hlen)
      have hdone : ¬ Waiting (i2cInterruptFunc irq (raiseIrq s)).msg := by
        rw [hmsg]; intro h; exact h.2 (by simpa using hlen)
      rw [waitLoop_done hdone]
      refine ⟨_, rfl, by rw [hmsg]; exact herr, ?_, fun j _ => by rw [hmsg]⟩
      intro k hk
      simp at hk
    | cons irq' irqs =>
      have hmsg := i2cInterruptFunc_rx_store irq s hflags hcnt (by
        simp only [List.length_cons] at hlen; omega)
      obtain ⟨s', hrun, herr', hdata, hframe⟩ := ih (i2cInterruptFunc irq (raiseIrq s))
        (by rw [hmsg]; exact hflags) (by rw [hmsg]; exact herr) (by rw [hmsg]; simp only; omega)
        (by rw [hmsg]; simp only [List.length_cons] at hlen ⊢; omega) (by simp)
      rw [hmsg] at hdata hframe
      simp only at hdata hframe
      refine ⟨s', hrun, herr', ?_, ?_⟩
      · intro k hk
        cases k with
        | zero =>
          rw [hframe _ (Or.inl (by simp))]
          simp
        | succ k =>
          have := hdata k (by simpa using hk)
          rw [show s.msg.cntTransferred + 1 + (k : ℤ) = s.msg.cntTransferred + ((k + 1 : ℕ) : ℤ) by
            push_cast; ring] at this
          simpa using this
      · intro j hj
        rw [hframe j (by omega)]
        apply Function.update_of_ne
        simp only [List.length_cons] at hlen
        omega

/-- The state after `do_master_rx` for a read message of `len ≥ 1` bytes whose
    address is acknowledged: it returns 0, the bytes but the last are stored,
    and the last element is not written. -/
theorem doMasterRx_received (msg : I2cMsg) (iiccon : Word) (writes : List RegWrite)
    (ack : BusIrq) (irqs : List BusIrq) (hflags : msg.flags = 1) (hlen : 1 ≤ msg.len)
    (hack : ¬ ack.noAck) (hirqs : (irqs.length : ℤ) = msg.len) :
    ∃ s, doMasterRx msg iiccon writes (ack :: irqs) = some (0, s, []) ∧
      (∀ k (hk : k + 1 < irqs.length), s.msg.buf k = irqs[k].data) ∧
      ∀ j, j < 0 ∨ msg.len - 1 ≤ j → s.msg.buf j = msg.buf j := by
  unfold doMasterRx
  set s₀ := startMaster ((msg.addr <<< 1) ||| (1#32 <<< 0)) 0xb0 msg iiccon writes with hs₀
  have hmsg₀ : s₀.msg = { msg with cntTransferred := -1, err := 0 } := rfl
  have hwait : Waiting s₀.msg := by
    rw [hmsg₀]; exact ⟨rfl, by simp only; omega⟩
  have hmsg := i2cInterruptFunc_rx_ack ack s₀ hflags rfl hack
  rw [waitLoop, if_pos hwait]
  obtain ⟨s, hrun, herr, hdata, hframe⟩ := waitLoop_rx irqs (i2cInterruptFunc ack (raiseIrq s₀))
    (by rw [hmsg]; exact hflags) (by rw [hmsg]; rfl) (by rw [hmsg])
    (by rw [hmsg, hmsg₀]; simpa using hirqs) (by rintro rfl; simp at hirqs; omega)
  rw [hmsg, hmsg₀] at hdata hframe
  refine ⟨s, ?_, fun k hk => by simpa using hdata k hk, fun j hj => by simpa using hframe j hj⟩
  rw [hrun]
  simp [masterResult, herr]

/-! ## Delivery of every byte -/

/-- The receive of `msg` returned 0 after all interrupts, with byte `k` of the
    slave in `buf[k]` for every `k < len` and no other element written. -/
def RxDelivers (msg : I2cMsg) (irqs : List BusIrq) (res : Option (ℤ × I2cState × List BusIrq)) :
    Prop :=
  ∃ s, res = some (0, s, []) ∧ (∀ k (hk : k < irqs.length), s.msg.buf k = irqs[k].data) ∧
    ∀ j, j < 0 ∨ msg.len ≤ j → s.msg.buf j = msg.buf j

/-- `do_master_rx` delivers every byte of the slave iff `buf[len-1]` already
    held the last byte: the branch that issues the STOP does not store it. -/
theorem doMasterRx_delivers_iff (msg : I2cMsg) (iiccon : Word) (writes : List RegWrite)
    (ack : BusIrq) (irqs : List BusIrq) (hflags : msg.flags = 1) (hlen : 1 ≤ msg.len)
    (hack : ¬ ack.noAck) (hirqs : (irqs.length : ℤ) = msg.len) :
    RxDelivers msg irqs (doMasterRx msg iiccon writes (ack :: irqs)) ↔
      irqs.getLast?.map BusIrq.data = some (msg.buf (msg.len - 1)) := by
  obtain ⟨s, hres, hdata, hframe⟩ :=
    doMasterRx_received msg iiccon writes ack irqs hflags hlen hack hirqs
  have hlast : s.msg.buf (msg.len - 1) = msg.buf (msg.len - 1) := hframe _ (Or.inr le_rfl)
  have hpos : irqs.length - 1 < irqs.length := by omega
  have hidx : ((irqs.length - 1 : ℕ) : ℤ) = msg.len - 1 := by omega
  rw [List.getLast?_eq_getElem?, List.getElem?_eq_getElem hpos, Option.map_some,
    Option.some.injEq]
  constructor
  · rintro ⟨s', hres', hall, -⟩
    rw [hres] at hres'
    obtain rfl : s = s' := by simpa using hres'
    rw [← hlast, ← hidx]
    exact (hall _ hpos).symm
  · intro hheld
    refine ⟨s, hres, fun k hk => ?_, fun j hj => hframe j (by omega)⟩
    rcases Nat.lt_or_ge (k + 1) irqs.length with hk' | hk'
    · exact hdata k hk'
    · obtain rfl : k = irqs.length - 1 := by omega
      rw [hidx, hlast]
      exact hheld.symm

/-- A read of `len` bytes from the EEPROM at 0x50 into a buffer of `fill`
    bytes, as `at24cxx_read` (i2c/at24cxx.c:37-62) sets it up. -/
def at24cxxReadMsg (len : ℤ) (fill : Byte) : I2cMsg :=
  ⟨0x50, 1, len, -1, 0, fun _ => fill⟩

/-- Two bytes `0x11, 0x22` into a buffer that already holds `0x22`. -/
theorem doMasterRx_delivers_held_byte :
    RxDelivers (at24cxxReadMsg 2 0x22) [⟨0, 0x11⟩, ⟨0, 0x22⟩]
      (doMasterRx (at24cxxReadMsg 2 0x22) 0xbe [] [⟨0, 0⟩, ⟨0, 0x11⟩, ⟨0, 0x22⟩]) :=
  (doMasterRx_delivers_iff (at24cxxReadMsg 2 0x22) 0xbe [] ⟨0, 0⟩ [⟨0, 0x11⟩, ⟨0, 0x22⟩]
    rfl (by decide) (by decide) rfl).mpr (by decide)

/-- Reading the single byte `0xab` into a zeroed buffer does not deliver it. -/
theorem doMasterRx_loses_last_byte :
    (at24cxxReadMsg 1 0).flags = 1 ∧ 1 ≤ (at24cxxReadMsg 1 0).len ∧ ¬ (BusIrq.mk 0 0).noAck ∧
      ¬ RxDelivers (at24cxxReadMsg 1 0) [⟨0, 0xab⟩]
        (doMasterRx (at24cxxReadMsg 1 0) 0xbe [] [⟨0, 0⟩, ⟨0, 0xab⟩]) := by
  refine ⟨rfl, by decide, by decide, ?_⟩
  rintro ⟨s, hres, hall, -⟩
  obtain ⟨s', hres', -, hframe⟩ := doMasterRx_received (at24cxxReadMsg 1 0) 0xbe [] ⟨0, 0⟩
    [⟨0, 0xab⟩] rfl (by decide) (by decide) rfl
  rw [hres] at hres'
  obtain rfl : s = s' := by simpa using hres'
  have hbyte := (hframe 0 (Or.inr (by decide))).symm.trans (hall 0 (by simp))
  exact absurd hbyte (by decide)

end Jz2440.I2c
