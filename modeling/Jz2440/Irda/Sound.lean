import Jz2440.Irda.Nec

/-!
# What the NEC decoder accepts

`irda_nec_read` on arbitrary events and timeouts. What a call consumes is seen in the
events alone, without the polls that find the buffer empty: `events`.

* `readBits_sound`: the pulses behind a value that the `for` loop returns.
* `irdaNecReadPass_sound`: what one pass through the outer loop consumes, on each of its
  exits.
* `irdaNecRead_sound`: a call that returns 0 has just consumed a frame, and its two bytes
  are those of the frame; any other call leaves `*address` and `*data` alone.
-/

namespace Jz2440.Irda

open Jz2440.Common

/-- The events to come, without their delays. -/
def events (evs : EventStream) : List IrdaRawEvent := evs.map Prod.snd

/-- The event is the given pulse with at most 280 us of jitter. -/
def NearEvent (pulse : ℤ × ℤ) (e : IrdaRawEvent) : Prop :=
  e.pol = pulse.1 ∧ |e.duration - pulse.2| ≤ 280

theorem isPulse_iff {e : IrdaRawEvent} {pol us : ℤ} :
    isPulse e pol us = true ↔ NearEvent (pol, us) e := by
  have hdelta : durationDelta = 281 := rfl
  simp only [isPulse, durationInMargin, NearEvent, Bool.and_eq_true, beq_iff_eq,
    decide_eq_true_eq, abs_le]
  refine and_congr_right fun _ => ?_
  omega

/-! ## Polls -/

/-- A poll consumes the event that it returns, and nothing else. -/
theorem events_irEventGet {evs evs' : EventStream} {o : Option IrdaRawEvent}
    (h : irEventGet evs = (o, evs')) : events evs = o.toList ++ events evs' := by
  rcases evs with _ | ⟨⟨_ | delay, e⟩, evs⟩
  · cases h
    rfl
  · cases h
    rfl
  · cases h
    rfl

theorem events_irEventGetTimeout {timeoutUs : ℕ} {evs evs' : EventStream}
    {o : Option IrdaRawEvent} (h : irEventGetTimeout timeoutUs evs = (o, evs')) :
    events evs = o.toList ++ events evs' := by
  induction timeoutUs generalizing evs with
  | zero =>
    cases h
    rfl
  | succ timeoutUs ih =>
    rw [irEventGetTimeout] at h
    rcases hget : irEventGet evs with ⟨_ | e, evs₁⟩
    · rw [hget] at h
      exact (events_irEventGet hget).trans (ih h)
    · rw [hget] at h
      cases h
      exact events_irEventGet hget

/-! ## Bits -/

/-- A bit is read from a low and a high pulse. -/
theorem readBit_sound {i : ℕ} {val val' : Word} {evs evs' : EventStream}
    (h : readBit i val evs = (some val', evs')) :
    ∃ (bit : Bool) (low high : IrdaRawEvent), events evs = low :: high :: events evs' ∧
      NearEvent (0, 563) low ∧ NearEvent (1, if bit then 3 * 563 else 563) high ∧
      val' = if bit then val ||| (1#32 <<< i) else val := by
  rw [readBit] at h
  rcases hget₁ : irEventGetTimeout 10000 evs with ⟨_ | low, evs₁⟩
  · rw [hget₁] at h
    cases h
  rw [hget₁] at h
  dsimp only at h
  by_cases hlow : isPulse low 0 durationDataLow = true
  · rw [if_pos hlow] at h
    rcases hget₂ : irEventGetTimeout 10000 evs₁ with ⟨_ | high, evs₂⟩
    · rw [hget₂] at h
      cases h
    rw [hget₂] at h
    dsimp only at h
    have hevents : events evs = low :: high :: events evs₂ := by
      rw [events_irEventGetTimeout hget₁, events_irEventGetTimeout hget₂]
      rfl
    split_ifs at h with hone hzero
    · cases h
      exact ⟨true, low, high, hevents, isPulse_iff.mp hlow, isPulse_iff.mp hone, rfl⟩
    · cases h
      exact ⟨false, low, high, hevents, isPulse_iff.mp hlow, isPulse_iff.mp hzero, rfl⟩
    · cases h
  · rw [if_neg hlow] at h
    cases h

/-- Whether it succeeds or not, the body of the `for` loop consumes the next events. -/
theorem events_readBit (i : ℕ) (val : Word) (evs : EventStream) :
    ∃ consumed, events evs = consumed ++ events (readBit i val evs).2 := by
  unfold readBit
  rcases hget₁ : irEventGetTimeout 10000 evs with ⟨_ | low, evs₁⟩
  · exact ⟨[], events_irEventGetTimeout hget₁⟩
  have hevents₁ : events evs = low :: events evs₁ := events_irEventGetTimeout hget₁
  dsimp only
  by_cases hlow : isPulse low 0 durationDataLow = true
  · rw [if_pos hlow]
    rcases hget₂ : irEventGetTimeout 10000 evs₁ with ⟨_ | high, evs₂⟩
    · exact ⟨[low], hevents₁.trans (congrArg (low :: ·) (events_irEventGetTimeout hget₂))⟩
    have hevents₂ : events evs = [low, high] ++ events evs₂ :=
      hevents₁.trans (congrArg (low :: ·) (events_irEventGetTimeout hget₂))
    dsimp only
    split_ifs
    · exact ⟨[low, high], hevents₂⟩
    · exact ⟨[low, high], hevents₂⟩
    · exact ⟨[low, high], hevents₂⟩
  · rw [if_neg hlow]
    exact ⟨[low], hevents₁⟩

theorem events_readBits (n i : ℕ) (val : Word) (evs : EventStream) :
    ∃ consumed, events evs = consumed ++ events (readBits n i val evs).2 := by
  induction n generalizing i val evs with
  | zero => exact ⟨[], rfl⟩
  | succ n ih =>
    obtain ⟨consumed₁, hevents₁⟩ := events_readBit i val evs
    rw [readBits]
    rcases hbit : readBit i val evs with ⟨_ | val₁, evs₁⟩
    · rw [hbit] at hevents₁
      exact ⟨consumed₁, hevents₁⟩
    · rw [hbit] at hevents₁
      obtain ⟨consumed₂, hevents₂⟩ := ih (i + 1) val₁ evs₁
      refine ⟨consumed₁ ++ consumed₂, ?_⟩
      rw [hevents₁, hevents₂, List.append_assoc]

/-- The value of the `for` loop and the pulses that it was read from. -/
theorem readBits_sound {n i : ℕ} {val val' : Word} {evs evs' : EventStream}
    (h : readBits n i val evs = (some val', evs')) :
    ∃ bits frame, bits.length = n ∧ events evs = frame ++ events evs' ∧
      List.Forall₂ NearEvent (bitPulses bits) frame ∧ val' = orBits i val bits := by
  induction n generalizing i val evs with
  | zero =>
    cases h
    exact ⟨[], [], rfl, rfl, .nil, rfl⟩
  | succ n ih =>
    rw [readBits] at h
    rcases hbit : readBit i val evs with ⟨_ | val₁, evs₁⟩
    · rw [hbit] at h
      cases h
    · rw [hbit] at h
      obtain ⟨bit, low, high, hevents, hlow, hhigh, rfl⟩ := readBit_sound hbit
      obtain ⟨bits, frame, hlen, hrest, hframe, rfl⟩ := ih h
      refine ⟨bit :: bits, low :: high :: frame, by rw [List.length_cons, hlen], ?_, ?_, rfl⟩
      · rw [hevents, hrest]
        rfl
      · exact .cons hlow (.cons hhigh hframe)

theorem getLsbD_byteOf (val : Word) {j k : ℕ} (hk : k < 8) :
    (byteOf val j).getLsbD k = val.getLsbD (8 * j + k) := by
  have hmask : (0xff#32).getLsbD k = true := by
    interval_cases k <;> rfl
  simp only [byteOf, BitVec.getLsbD_setWidth, BitVec.getLsbD_and, BitVec.getLsbD_ushiftRight, hmask,
    hk]
  simp

/-- 32 bits are the bits of the four bytes of their value. -/
theorem bits_eq_bytes {bits : List Bool} (hlen : bits.length = 32) :
    bits = [byteOf (orBits 0 0 bits) 0, byteOf (orBits 0 0 bits) 1, byteOf (orBits 0 0 bits) 2,
      byteOf (orBits 0 0 bits) 3].flatMap byteBits := by
  set val := orBits 0 0 bits with hval
  set bytes := [byteOf val 0, byteOf val 1, byteOf val 2, byteOf val 3] with hbytes
  have hget : ∀ j (hj : j < bytes.length), bytes.get ⟨j, hj⟩ = byteOf val j := by
    intro j hj
    have hj4 : j < 4 := hj
    interval_cases j <;> rfl
  apply List.ext_getElem?
  intro m
  rcases Nat.lt_or_ge m 32 with hm | hm
  · have hbit : bits[m]? = some (val.getLsbD m) := by
      rw [hval, getLsbD_orBits 0 0 bits hm, Nat.sub_zero, List.getElem?_eq_getElem (by omega)]
      simp
    have hj : m / 8 < bytes.length := show m / 8 < 4 by omega
    have hk : m % 8 < 8 := Nat.mod_lt m (by decide)
    have hbyte := getElem?_flatMap_byteBits bytes hj hk
    rw [hget, getLsbD_byteOf val hk, Nat.div_add_mod] at hbyte
    rw [hbit, hbyte]
  · rw [List.getElem?_eq_none (by omega), List.getElem?_eq_none (by simp [hbytes, byteBits]; omega)]

/-! ## A call -/

/-- The events are a frame that encodes the bytes `a`, `b`, `d` and the complement of `d`. -/
def IsFrame (a b d : Byte) (frame : List IrdaRawEvent) : Prop :=
  List.Forall₂ NearEvent (framePulses a b d) frame

/-- A call that has consumed `consumed` and leaves `r`: with 0 it ends with a frame, with 1 or -1
    it leaves the outputs alone. -/
def Sound (address data : ℤ) (consumed : List IrdaRawEvent) (r : NecResult) : Prop :=
  (r.ret = 0 ∧ ∃ before frame a b d, consumed = before ++ frame ∧ frame.length = 66 ∧
      IsFrame a b d frame ∧ r.address = a.toNat ∧ r.data = d.toNat) ∨
    ((r.ret = 1 ∨ r.ret = -1) ∧ r.address = address ∧ r.data = data)

/-- The check of the complement, for a value whose pulses are known. -/
theorem checkVal_sound {bits : List Bool} (hlen : bits.length = 32) {low high : IrdaRawEvent}
    (hlow : NearEvent (0, 16 * 563) low) (hhigh : NearEvent (1, 8 * 563) high)
    {pulses : List IrdaRawEvent} (hpulses : List.Forall₂ NearEvent (bitPulses bits) pulses)
    (address data : ℤ) (evs : EventStream) :
    Sound address data (low :: high :: pulses)
      (checkVal (orBits 0 0 bits) address data evs) := by
  unfold checkVal
  split_ifs with hcheck
  · exact .inr ⟨.inr rfl, rfl, rfl⟩
  · have hcomplement : byteOf (orBits 0 0 bits) 3 = ~~~byteOf (orBits 0 0 bits) 2 := by
      rw [not_not.mp hcheck, BitVec.not_not]
    have hbits := bits_eq_bytes hlen
    rw [hcomplement] at hbits
    have hframe : IsFrame (byteOf (orBits 0 0 bits) 0) (byteOf (orBits 0 0 bits) 1)
        (byteOf (orBits 0 0 bits) 2) (low :: high :: pulses) := by
      refine .cons hlow (.cons hhigh ?_)
      rwa [← hbits]
    refine .inl ⟨rfl, [], low :: high :: pulses, _, _, _, rfl, ?_, hframe, rfl, rfl⟩
    rw [← hframe.length_eq]
    rfl

/-- One pass through the outer loop: it consumes some events, and on an exit it is sound. -/
theorem irdaNecReadPass_sound (address data : ℤ) (evs : EventStream) :
    match irdaNecReadPass address data evs with
    | .again evs' => ∃ consumed, events evs = consumed ++ events evs'
    | .leave r => ∃ consumed, events evs = consumed ++ events r.rest ∧
        Sound address data consumed r := by
  have hkept : ∀ {consumed : List IrdaRawEvent} {ret : ℤ} {rest : EventStream},
      ret = 1 ∨ ret = -1 → Sound address data consumed ⟨ret, address, data, rest⟩ :=
    fun hret => .inr ⟨hret, rfl, rfl⟩
  unfold irdaNecReadPass
  rcases hget₁ : irEventGet evs with ⟨_ | low, evs₁⟩
  · exact ⟨[], events_irEventGet hget₁⟩
  have hevents₁ : events evs = low :: events evs₁ := events_irEventGet hget₁
  dsimp only
  by_cases hlow : isPulse low 0 durationHeadLow = true
  · rw [if_pos hlow]
    rcases hget₂ : irEventGetTimeout 10000 evs₁ with ⟨_ | high, evs₂⟩
    · exact ⟨[low], hevents₁.trans (congrArg (low :: ·) (events_irEventGetTimeout hget₂))⟩
    have hevents₂ : events evs = low :: high :: events evs₂ :=
      hevents₁.trans (congrArg (low :: ·) (events_irEventGetTimeout hget₂))
    dsimp only
    by_cases hhigh : isPulse high 1 durationHeadHigh = true
    · rw [if_pos hhigh]
      rcases hbits : readBits 32 0 0 evs₂ with ⟨_ | val, evs₃⟩
      · obtain ⟨consumed, hevents₃⟩ := events_readBits 32 0 0 evs₂
        rw [hbits] at hevents₃
        refine ⟨low :: high :: consumed, ?_, hkept (.inr rfl)⟩
        rw [hevents₂, hevents₃]
        rfl
      · obtain ⟨bits, pulses, hlen, hevents₃, hpulses, rfl⟩ := readBits_sound hbits
        refine ⟨low :: high :: pulses, ?_, ?_⟩
        · rw [hevents₂, hevents₃, checkVal_rest]
          rfl
        · exact checkVal_sound hlen (isPulse_iff.mp hlow) (isPulse_iff.mp hhigh) hpulses address
            data evs₃
    · rw [if_neg hhigh]
      split_ifs
      · exact ⟨[low, high], hevents₂, hkept (.inl rfl)⟩
      · exact ⟨[low, high], hevents₂, hkept (.inr rfl)⟩
  · rw [if_neg hlow]
    exact ⟨[low], hevents₁, hkept (.inr rfl)⟩

/-- Events that were consumed before do not matter. -/
theorem Sound.after {address data : ℤ} {consumed : List IrdaRawEvent} {r : NecResult}
    (h : Sound address data consumed r) (earlier : List IrdaRawEvent) :
    Sound address data (earlier ++ consumed) r := by
  rcases h with ⟨hret, before, frame, a, b, d, rfl, hframe⟩ | hkept
  · exact .inl ⟨hret, earlier ++ before, frame, a, b, d, by rw [List.append_assoc], hframe⟩
  · exact .inr hkept

/-- Whatever the events and their delays are, a call that returns 0 has consumed a frame last,
    and `*address` and `*data` are its first and its third byte; a call that returns 1 or -1
    leaves both as they were, and there is no other return value. -/
theorem irdaNecRead_sound (fuel : ℕ) (address data : ℤ) (evs : EventStream) (r : NecResult)
    (h : irdaNecRead fuel address data evs = some r) :
    ∃ consumed, events evs = consumed ++ events r.rest ∧ Sound address data consumed r := by
  unfold irdaNecRead at h
  induction fuel generalizing evs with
  | zero => cases h
  | succ fuel ih =>
    have hpass := irdaNecReadPass_sound address data evs
    cases hbody : irdaNecReadPass address data evs with
    | again evs₁ =>
      rw [hbody] at hpass
      obtain ⟨earlier, hevents₁⟩ := hpass
      rw [loop_succ_again hbody] at h
      obtain ⟨consumed, hevents, hsound⟩ := ih evs₁ h
      exact ⟨earlier ++ consumed, by rw [hevents₁, hevents, List.append_assoc],
        hsound.after earlier⟩
    | leave r₁ =>
      rw [hbody] at hpass
      rw [loop_succ_leave hbody, Option.some_inj] at h
      rw [← h]
      exact hpass

theorem irdaNecRead_sound_keyFrame :
    ∃ fuel r, irdaNecRead fuel 0 0 (keyFrame ++ []) = some r ∧ r.ret = 0 ∧
      ∃ consumed, events (keyFrame ++ []) = consumed ++ events r.rest ∧ Sound 0 0 consumed r := by
  obtain ⟨fuel, hfuel⟩ := necFrame_keyFrame.returns [] 0 0
  exact ⟨fuel, _, hfuel fuel le_rfl, rfl, irdaNecRead_sound fuel 0 0 _ _ (hfuel fuel le_rfl)⟩

end Jz2440.Irda
