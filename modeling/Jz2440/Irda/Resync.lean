import Jz2440.Irda.Nec

/-!
# The NEC decoder after garbage

`irda_nec_read` leaves at many places, and each time the rest of the events is
left to the next call. A high pulse of 10 ms or more is none of the pulses of a
frame, so whichever call receives it returns at once. The next call then starts
at the event that follows.

* `Before.pass`, `irdaNecRead_before`: what one call does to a list of events
  with such an idle pulse in it.
* `irdaNecRead_resync`: whatever comes before the idle pulse, the frame after it
  is decoded, and no earlier call takes an event of it.
-/

namespace Jz2440.Irda

open Jz2440.Common

/-- A high pulse that is longer than every pulse of a frame. -/
def IsIdle (e : IrdaRawEvent) : Prop := e.pol = 1 ∧ 10000 ≤ e.duration

/-- The number of polls that it takes to receive all events. -/
def polls (evs : EventStream) : ℕ := (evs.map fun ev => ev.1 + 1).sum

/-- The idle pulse `e` is still to come, and `tail` comes after it. -/
def Before (e : IrdaRawEvent) (tail evs : EventStream) : Prop :=
  ∃ garbage delay, evs = garbage ++ (delay, e) :: tail

/-- The code never looks for a high pulse longer than that of the head. -/
theorem not_isPulse_of_isIdle {e : IrdaRawEvent} (h : IsIdle e) {pol us : ℤ}
    (hlow : pol = 0 ∨ us ≤ durationHeadHigh) :
    isPulse e pol us = false := by
  obtain ⟨hpol, hdur⟩ := h
  rcases hlow with rfl | hus
  · simp [isPulse, hpol]
  · have hhead : durationHeadHigh = 4504 := rfl
    have hdelta : durationDelta = 281 := rfl
    have hlong : ¬ e.duration < us + durationDelta := by omega
    simp [isPulse, durationInMargin, hlong]

section Garbage

variable {e : IrdaRawEvent} {tail evs : EventStream}

theorem Before.suffix (h : Before e tail evs) : tail <:+ evs := by
  obtain ⟨garbage, delay, rfl⟩ := h
  exact ⟨garbage ++ [(delay, e)], by simp⟩

/-! ## Polls -/

/-- A poll brings the idle pulse nearer, or it receives it. -/
theorem Before.get (h : Before e tail evs) :
    (∃ o evs', irEventGet evs = (o, evs') ∧ Before e tail evs' ∧ polls evs' < polls evs) ∨
      irEventGet evs = (some e, tail) := by
  obtain ⟨garbage, delay, rfl⟩ := h
  rcases garbage with _ | ⟨⟨_ | n, x⟩, garbage⟩
  · cases delay with
    | zero => exact .inr rfl
    | succ delay =>
      refine .inl ⟨none, (delay, e) :: tail, rfl, ⟨[], delay, rfl⟩, ?_⟩
      simp [polls]
  · refine .inl ⟨some x, garbage ++ (delay, e) :: tail, rfl, ⟨garbage, delay, rfl⟩, ?_⟩
    simp [polls]
  · refine .inl ⟨none, (n, x) :: garbage ++ (delay, e) :: tail, rfl,
      ⟨(n, x) :: garbage, delay, rfl⟩, ?_⟩
    simp [polls]

theorem Before.getTimeout (timeoutUs : ℕ) (h : Before e tail evs) :
    (∃ o evs', irEventGetTimeout timeoutUs evs = (o, evs') ∧ Before e tail evs' ∧
      polls evs' ≤ polls evs) ∨ irEventGetTimeout timeoutUs evs = (some e, tail) := by
  induction timeoutUs generalizing evs with
  | zero => exact .inl ⟨none, evs, rfl, h, le_refl _⟩
  | succ timeoutUs ih =>
    unfold irEventGetTimeout
    rcases h.get with ⟨o, evs', hget, hbefore, hlt⟩ | hget
    · rw [hget]
      cases o with
      | some x => exact .inl ⟨some x, evs', rfl, hbefore, hlt.le⟩
      | none =>
        rcases ih hbefore with ⟨o, evs'', htimeout, hbefore', hle⟩ | htimeout
        · exact .inl ⟨o, evs'', htimeout, hbefore', by omega⟩
        · exact .inr htimeout
    · rw [hget]
      exact .inr rfl

/-! ## The bits of a broken frame -/

/-- The loop body stays before the idle pulse, or it fails on it. -/
theorem Before.readBit (he : IsIdle e) (i : ℕ) (val : Word) (h : Before e tail evs) :
    (∃ o evs', readBit i val evs = (o, evs') ∧ Before e tail evs' ∧ polls evs' ≤ polls evs) ∨
      readBit i val evs = (none, tail) := by
  have hlow : isPulse e 0 durationDataLow = false :=
    not_isPulse_of_isIdle he (.inl rfl)
  have hone : isPulse e 1 durationData1High = false :=
    not_isPulse_of_isIdle he (.inr (by decide))
  have hzero : isPulse e 1 durationData0High = false :=
    not_isPulse_of_isIdle he (.inr (by decide))
  unfold Irda.readBit
  rcases h.getTimeout 10000 with ⟨o₁, evs₁, hget₁, h₁, hle₁⟩ | hget₁
  · rw [hget₁]
    cases o₁ with
    | none => exact .inl ⟨none, evs₁, rfl, h₁, hle₁⟩
    | some low =>
      dsimp only
      split_ifs
      · rcases h₁.getTimeout 10000 with ⟨o₂, evs₂, hget₂, h₂, hle₂⟩ | hget₂
        · rw [hget₂]
          have hle : polls evs₂ ≤ polls evs := hle₂.trans hle₁
          cases o₂ with
          | none => exact .inl ⟨none, evs₂, rfl, h₂, hle⟩
          | some high =>
            dsimp only
            split_ifs
            · exact .inl ⟨_, evs₂, rfl, h₂, hle⟩
            · exact .inl ⟨_, evs₂, rfl, h₂, hle⟩
            · exact .inl ⟨_, evs₂, rfl, h₂, hle⟩
        · rw [hget₂]
          simp [hone, hzero]
      · exact .inl ⟨none, evs₁, rfl, h₁, hle₁⟩
  · rw [hget₁]
    simp [hlow]

theorem Before.readBits (he : IsIdle e) (n i : ℕ) (val : Word) (h : Before e tail evs) :
    (∃ o evs', readBits n i val evs = (o, evs') ∧ Before e tail evs' ∧ polls evs' ≤ polls evs) ∨
      readBits n i val evs = (none, tail) := by
  induction n generalizing i val evs with
  | zero => exact .inl ⟨some val, evs, rfl, h, le_refl _⟩
  | succ n ih =>
    unfold Irda.readBits
    rcases h.readBit he i val with ⟨o, evs₁, hbit, h₁, hle₁⟩ | hbit
    · rw [hbit]
      cases o with
      | none => exact .inl ⟨none, evs₁, rfl, h₁, hle₁⟩
      | some val' =>
        rcases ih (i + 1) val' h₁ with ⟨o, evs₂, hbits, h₂, hle₂⟩ | hbits
        · exact .inl ⟨o, evs₂, hbits, h₂, hle₂.trans hle₁⟩
        · exact .inr hbits
    · rw [hbit]
      exact .inr rfl

/-! ## A call -/

/-- A call leaves the events after the idle pulse, or it has come nearer to it. -/
def Leaves (e : IrdaRawEvent) (tail evs evs' : EventStream) : Prop :=
  evs' = tail ∨ (Before e tail evs' ∧ polls evs' < polls evs)

theorem Before.pass (he : IsIdle e) (address data : ℤ) (h : Before e tail evs) :
    (∃ evs', irdaNecReadPass address data evs = .again evs' ∧ Before e tail evs' ∧
      polls evs' < polls evs) ∨
      ∃ r, irdaNecReadPass address data evs = .leave r ∧ Leaves e tail evs r.rest := by
  have hlow : isPulse e 0 durationHeadLow = false :=
    not_isPulse_of_isIdle he (.inl rfl)
  have hhigh : isPulse e 1 durationHeadHigh = false :=
    not_isPulse_of_isIdle he (.inr (by decide))
  have hrepeat : isPulse e 1 durationRepeatHigh = false :=
    not_isPulse_of_isIdle he (.inr (by decide))
  unfold irdaNecReadPass
  rcases h.get with ⟨o₁, evs₁, hget₁, h₁, hlt₁⟩ | hget₁
  · rw [hget₁]
    cases o₁ with
    | none => exact .inl ⟨evs₁, rfl, h₁, hlt₁⟩
    | some event =>
      dsimp only
      split_ifs
      · rcases h₁.getTimeout 10000 with ⟨o₂, evs₂, hget₂, h₂, hle₂⟩ | hget₂
        · rw [hget₂]
          have hlt₂ : polls evs₂ < polls evs := hle₂.trans_lt hlt₁
          cases o₂ with
          | none => exact .inl ⟨evs₂, rfl, h₂, hlt₂⟩
          | some event =>
            dsimp only
            split_ifs
            · rcases h₂.readBits he 32 0 0 with ⟨o₃, evs₃, hbits, h₃, hle₃⟩ | hbits
              · rw [hbits]
                have hlt₃ : polls evs₃ < polls evs := hle₃.trans_lt hlt₂
                cases o₃ with
                | none => exact .inr ⟨_, rfl, .inr ⟨h₃, hlt₃⟩⟩
                | some val =>
                  refine .inr ⟨_, rfl, ?_⟩
                  rw [checkVal_rest]
                  exact .inr ⟨h₃, hlt₃⟩
              · rw [hbits]
                exact .inr ⟨_, rfl, .inl rfl⟩
            · exact .inr ⟨_, rfl, .inr ⟨h₂, hlt₂⟩⟩
            · exact .inr ⟨_, rfl, .inr ⟨h₂, hlt₂⟩⟩
        · rw [hget₂]
          simp only [hhigh, hrepeat, Bool.false_eq_true, if_false]
          exact .inr ⟨_, rfl, .inl rfl⟩
      · exact .inr ⟨_, rfl, .inr ⟨h₁, hlt₁⟩⟩
  · rw [hget₁]
    simp only [hlow, Bool.false_eq_true, if_false]
    exact .inr ⟨_, rfl, .inl rfl⟩

/-- Every call before the idle pulse returns. -/
theorem irdaNecRead_before (he : IsIdle e) (address data : ℤ) (h : Before e tail evs) :
    ∃ r : NecResult, Yields (fun fuel => irdaNecRead fuel address data evs) r ∧
      Leaves e tail evs r.rest := by
  refine Returns.of_variant (fun t => Before e tail t ∧ polls t ≤ polls evs)
    (fun r : NecResult => Leaves e tail evs r.rest) polls ?_ ⟨h, le_refl _⟩
  rintro t ⟨ht, hle⟩
  rcases ht.pass he address data with ⟨t', hagain, ht', hlt⟩ | ⟨r, hleave, hrest⟩
  · exact .inl ⟨t', hagain, ⟨ht', by omega⟩, hlt⟩
  · refine .inr ⟨r, hleave, ?_⟩
    rcases hrest with hrest | ⟨hbefore, hlt⟩
    · exact .inl hrest
    · exact .inr ⟨hbefore, by omega⟩

end Garbage

/-! ## Repeated calls -/

/-- `irda_nec_read` is called again and again with the same two variables, as
    `irda_nec_test` does (irda_nec.c:154-174); the list holds the results. -/
inductive NecCalls : ℤ → ℤ → EventStream → List NecResult → Prop
  | nil {address data : ℤ} {evs : EventStream} : NecCalls address data evs []
  | cons {address data : ℤ} {evs : EventStream} {r : NecResult} {rs : List NecResult} :
      Yields (fun fuel => irdaNecRead fuel address data evs) r →
      NecCalls r.address r.data r.rest rs → NecCalls address data evs (r :: rs)

/-- The calls before the idle pulse lead to one that leaves exactly `tail`, from
    where the calls go on. -/
theorem necCalls_to_tail {e : IrdaRawEvent} (he : IsIdle e) {tail : EventStream} {next : NecResult}
    (hnext : ∀ address data, Yields (fun fuel => irdaNecRead fuel address data tail) next)
    {evs : EventStream} (h : Before e tail evs) (address data : ℤ) :
    ∃ (rs : List NecResult) (last : NecResult),
      NecCalls address data evs (rs ++ [last, next]) ∧ last.rest = tail ∧
        ∀ r ∈ rs ++ [last], tail <:+ r.rest := by
  induction hn : polls evs using Nat.strong_induction_on generalizing evs address data with
  | h n ih =>
    obtain ⟨r, hr, hleaves⟩ := irdaNecRead_before he address data h
    rcases hleaves with hrest | ⟨hbefore, hlt⟩
    · have hgood := hnext r.address r.data
      rw [← hrest] at hgood
      refine ⟨[], r, .cons hr (.cons hgood .nil), hrest, ?_⟩
      simp [hrest]
    · obtain ⟨rs, last, hcalls, hlast, hsuffix⟩ :=
        ih (polls r.rest) (by omega) hbefore r.address r.data rfl
      refine ⟨r :: rs, last, .cons hr hcalls, hlast, ?_⟩
      intro x hx
      rcases List.mem_cons.mp hx with rfl | hx
      · exact hbefore.suffix
      · exact hsuffix x hx

/-- After any garbage and an idle pulse, repeated calls reach one that starts at the
    first event of the frame and decodes it. No call before that one takes an event
    of the frame: each leaves a list that ends with the whole frame. -/
theorem irdaNecRead_resync (garbage : EventStream) (delay : ℕ) (idle : IrdaRawEvent)
    (hidle : IsIdle idle) (a b d : Byte) (frame : EventStream) (h : NecFrame a b d frame)
    (rest : EventStream) (address data : ℤ) :
    ∃ rs last, NecCalls address data (garbage ++ (delay, idle) :: (frame ++ rest))
        (rs ++ [last, ⟨0, a.toNat, d.toNat, rest⟩]) ∧
      last.rest = frame ++ rest ∧ ∀ r ∈ rs ++ [last], (frame ++ rest) <:+ r.rest :=
  necCalls_to_tail hidle (h.returns rest) ⟨garbage, delay, rfl⟩ address data

/-- A head that breaks off, a pause, and then the frame of a key. -/
theorem irdaNecRead_resync_keyFrame :
    ∃ rs last, NecCalls 0 0
        ([(2, ⟨0, 9000⟩), (20000, ⟨1, 4500⟩), (0, ⟨0, 560⟩)] ++
          (7, ⟨1, 60000⟩) :: (keyFrame ++ []))
        (rs ++ [last, ⟨0, 0, 0x16, []⟩]) ∧
      last.rest = keyFrame ++ [] ∧ ∀ r ∈ rs ++ [last], (keyFrame ++ []) <:+ r.rest :=
  irdaNecRead_resync _ 7 ⟨1, 60000⟩ ⟨rfl, by decide⟩ 0x00 0xff 0x16 keyFrame
    necFrame_keyFrame [] 0 0

end Jz2440.Irda
