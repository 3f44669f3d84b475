import Jz2440.Common.CInt
import Jz2440.Common.Loop

/-!
# Busy waiting

Model of `udelay` and `mdelay` (timer.c) in
`hard_driver/first_hard/025_sensors_022/007_irda_nec_ok_022_009`.

`TCNTO0` counts from 50000 down to 0, one count in a tick, and reloads: its period
is 50001 ticks. `udelay` reads it again and again and subtracts what has passed
between two reads; when the reads are is not in its hands, so `samples k` is the tick
of the read `k`, for any non-decreasing `samples`. A reload between two reads is taken
for no tick at all, and longer gaps are seen modulo the period.

* `ticksSeen_le`: a pass never subtracts more than has passed.
* `ticksSeen_eq`: if the reads are less than a period apart, it subtracts all but the
  reload.
* `udelay_waits`: `udelay(n)` does not return before `5 * n` ticks, and it returns.
-/

namespace Jz2440.Timer

open Jz2440.Common

/-! ## The code -/

/-- `TCNTO0` at a tick. -/
def tcnto0 (tick : ℕ) : ℕ := 50000 - tick % 50001

/-- The counter goes down by one in each tick and reloads after 0. -/
theorem tcnto0_succ (tick : ℕ) :
    tcnto0 (tick + 1) = if tcnto0 tick = 0 then 50000 else tcnto0 tick - 1 := by
  unfold tcnto0
  split_ifs <;> omega

/-- `cnt` and `pre`, and the number of the last read. -/
structure DelayState where
  cnt : Int32
  pre : Int32
  last : ℕ

/-- One pass of the loop (timer.c:100-110). -/
def udelayPass (samples : ℕ → ℕ) (s : DelayState) : Pass DelayState DelayState :=
  if 0 < s.cnt then
    let cur := Int32.ofNat (tcnto0 (samples (s.last + 1)))
    let delta := if cur ≤ s.pre then s.pre - cur else s.pre + (50000 - cur)
    .again ⟨s.cnt - delta, cur, s.last + 1⟩
  else .leave s

/-- `udelay` (timer.c:93-111): the number of its last read. -/
def udelay (samples : ℕ → ℕ) (n : Int32) (fuel : ℕ) : Option ℕ :=
  (loop (udelayPass samples) fuel ⟨n * 5, Int32.ofNat (tcnto0 (samples 0)), 0⟩).map
    DelayState.last

/-- `mdelay` (timer.c:113-116). -/
def mdelay (samples : ℕ → ℕ) (m : Int32) (fuel : ℕ) : Option ℕ := udelay samples (m * 1000) fuel

/-! ## What a pass subtracts -/

/-- The `delta` between reads at two ticks. -/
def ticksSeen (t t' : ℕ) : ℕ :=
  if tcnto0 t' ≤ tcnto0 t then tcnto0 t - tcnto0 t' else tcnto0 t + (50000 - tcnto0 t')

theorem ticksSeen_le {t t' : ℕ} (h : t ≤ t') : ticksSeen t t' ≤ t' - t := by
  unfold ticksSeen tcnto0
  split_ifs <;> omega

/-- The ticks until `t` without the reloads. -/
def countedTicks (t : ℕ) : ℕ := t - t / 50001

theorem ticksSeen_eq {t t' : ℕ} (h : t ≤ t') (h' : t' < t + 50001) :
    ticksSeen t t' = countedTicks t' - countedTicks t := by
  unfold ticksSeen tcnto0 countedTicks
  split_ifs <;> omega

theorem countedTicks_mono {t t' : ℕ} (h : t ≤ t') : countedTicks t ≤ countedTicks t' := by
  unfold countedTicks
  omega

theorem ticksSeen_le_max (t t' : ℕ) : ticksSeen t t' ≤ 50000 := by
  unfold ticksSeen tcnto0
  split_ifs <;> omega

theorem toInt_tcnto0 (t : ℕ) : (Int32.ofNat (tcnto0 t)).toInt = tcnto0 t :=
  Int32.toInt_ofNat_of_lt (by unfold tcnto0; omega)

theorem toInt_delta (t t' : ℕ) :
    (if Int32.ofNat (tcnto0 t') ≤ Int32.ofNat (tcnto0 t) then
      Int32.ofNat (tcnto0 t) - Int32.ofNat (tcnto0 t')
    else Int32.ofNat (tcnto0 t) + (50000 - Int32.ofNat (tcnto0 t'))).toInt = ticksSeen t t' := by
  have hmax : ∀ t, tcnto0 t ≤ 50000 := fun t => Nat.sub_le _ _
  have ht := hmax t
  have ht' := hmax t'
  have hreload : (50000 - Int32.ofNat (tcnto0 t')).toInt = 50000 - tcnto0 t' := by
    rw [toInt_sub_of_inInt] <;> rw [toInt_tcnto0]
    · rfl
    · constructor
      · show -2 ^ 31 ≤ (50000 : ℤ) - _
        omega
      · show (50000 : ℤ) - _ < _
        omega
  unfold ticksSeen
  simp only [Int32.le_iff_toInt_le, toInt_tcnto0, Nat.cast_le]
  split_ifs with hle
  · rw [toInt_sub_of_inInt, toInt_tcnto0, toInt_tcnto0, Nat.cast_sub hle]
    rw [toInt_tcnto0, toInt_tcnto0]
    constructor <;> omega
  · rw [toInt_add_of_inInt, toInt_tcnto0, hreload, Nat.cast_add, Nat.cast_sub ht']
    · rfl
    · rw [toInt_tcnto0, hreload]
      constructor <;> omega

/-- A pass subtracts the ticks that it has seen since the last read. -/
theorem udelayPass_again {samples : ℕ → ℕ} {s : DelayState} (hcnt : 0 < s.cnt)
    (hpre : s.pre = Int32.ofNat (tcnto0 (samples s.last))) :
    ∃ s', udelayPass samples s = .again s' ∧ s'.last = s.last + 1 ∧
      s'.pre = Int32.ofNat (tcnto0 (samples s'.last)) ∧
      s'.cnt.toInt = s.cnt.toInt - ticksSeen (samples s.last) (samples s'.last) := by
  have hpos : 0 < s.cnt.toInt := Int32.lt_iff_toInt_lt.mp hcnt
  have hdelta := toInt_delta (samples s.last) (samples (s.last + 1))
  have hmax := ticksSeen_le_max (samples s.last) (samples (s.last + 1))
  have hlt := s.cnt.toInt_lt
  rw [udelayPass, if_pos hcnt, hpre]
  refine ⟨_, rfl, rfl, rfl, ?_⟩
  rw [toInt_sub_of_inInt, hdelta]
  rw [hdelta]
  constructor <;> omega

theorem udelayPass_leave {samples : ℕ → ℕ} {s : DelayState} (hcnt : ¬ 0 < s.cnt) :
    udelayPass samples s = .leave s := if_neg hcnt

/-! ## Whole calls -/

section Calls

variable {samples : ℕ → ℕ} {n : Int32}

/-- What is left to wait for and what has passed make up the whole. -/
structure NotEarly (samples : ℕ → ℕ) (n : Int32) (s : DelayState) : Prop where
  pre : s.pre = Int32.ofNat (tcnto0 (samples s.last))
  cnt : 5 * n.toInt ≤ s.cnt.toInt + (samples s.last - samples 0 : ℕ)

theorem NotEarly.again (hmono : Monotone samples) {s s' : DelayState} (h : NotEarly samples n s)
    (hpass : udelayPass samples s = .again s') : NotEarly samples n s' := by
  by_cases hcnt : 0 < s.cnt
  · obtain ⟨s₁, hagain, hlast, hpre, htoInt⟩ := udelayPass_again hcnt h.pre
    obtain rfl : s₁ = s' := by
      rw [hagain] at hpass
      exact Pass.again.inj hpass
    have hseen := ticksSeen_le (hmono (show s.last ≤ s₁.last by omega))
    have hstart := hmono (Nat.zero_le s.last)
    have hnext := hmono (show s.last ≤ s₁.last by omega)
    have hleft := h.cnt
    refine ⟨hpre, ?_⟩
    omega
  · rw [udelayPass_leave hcnt] at hpass
    cases hpass

theorem toInt_cnt (hn : 0 ≤ n.toInt) (hrange : 5 * n.toInt < 2 ^ 31) :
    (n * 5).toInt = 5 * n.toInt := by
  rw [toInt_mul_of_inInt]
  · exact Int.mul_comm _ 5
  · show InInt (n.toInt * 5)
    constructor <;> omega

theorem notEarly_start (hn : 0 ≤ n.toInt) (hrange : 5 * n.toInt < 2 ^ 31) :
    NotEarly samples n ⟨n * 5, Int32.ofNat (tcnto0 (samples 0)), 0⟩ :=
  ⟨rfl, by rw [toInt_cnt hn hrange]; omega⟩

theorem udelay_not_early (hmono : Monotone samples) (hn : 0 ≤ n.toInt)
    (hrange : 5 * n.toInt < 2 ^ 31) {fuel last : ℕ} (h : udelay samples n fuel = some last) :
    5 * n.toInt ≤ (samples last - samples 0 : ℕ) := by
  obtain ⟨s, hloop, rfl⟩ := Option.map_eq_some_iff.mp h
  refine loop_post (NotEarly samples n)
    (fun s => 5 * n.toInt ≤ (samples s.last - samples 0 : ℕ))
    (fun t t' ht hpass => ht.again hmono hpass) (fun t r ht hpass => ?_) fuel
    (notEarly_start hn hrange) hloop
  have hdone : ¬ 0 < t.cnt := by
    intro hcnt
    obtain ⟨s', hagain, -⟩ := udelayPass_again hcnt ht.pre
    rw [hagain] at hpass
    cases hpass
  rw [udelayPass_leave hdone] at hpass
  obtain rfl := Pass.leave.inj hpass
  have hcnt : t.cnt.toInt ≤ 0 := not_lt.mp fun hpos => hdone (Int32.lt_iff_toInt_lt.mpr hpos)
  have hleft := ht.cnt
  omega

/-- A millisecond is a thousand microseconds, as long as these are an `int`. -/
theorem mdelay_not_early (hmono : Monotone samples) {m : Int32} (hm : 0 ≤ m.toInt)
    (hrange : 5000 * m.toInt < 2 ^ 31) {fuel last : ℕ} (h : mdelay samples m fuel = some last) :
    5000 * m.toInt ≤ (samples last - samples 0 : ℕ) := by
  have hmul : (m * 1000).toInt = m.toInt * 1000 := by
    apply toInt_mul_of_inInt
    show InInt (m.toInt * 1000)
    constructor <;> omega
  have hearly := udelay_not_early hmono (by omega) (by omega) h
  omega

/-- With reads less than a period apart, exactly the counted ticks are subtracted. -/
structure Counting (samples : ℕ → ℕ) (n : Int32) (s : DelayState) : Prop where
  pre : s.pre = Int32.ofNat (tcnto0 (samples s.last))
  cnt : s.cnt.toInt =
    5 * n.toInt - (countedTicks (samples s.last) - countedTicks (samples 0) : ℕ)

theorem udelay_returns (hmono : Monotone samples) (hn : 0 ≤ n.toInt)
    (hrange : 5 * n.toInt < 2 ^ 31) (hgap : ∀ k, samples (k + 1) < samples k + 50001)
    (hadvance : ∀ t, ∃ k, t ≤ samples k) :
    ∃ last, Yields (fun fuel => udelay samples n fuel) last := by
  -- at the read `K` the counted ticks are enough
  obtain ⟨K, hK⟩ := hadvance (2 * (samples 0 + (5 * n.toInt).toNat))
  have henough : 5 * n.toInt ≤ (countedTicks (samples K) - countedTicks (samples 0) : ℕ) := by
    unfold countedTicks
    omega
  have hpass : ∀ s, Counting samples n s →
      (∃ s', udelayPass samples s = .again s' ∧ Counting samples n s' ∧
        K - s'.last < K - s.last) ∨ ∃ r, udelayPass samples s = .leave r ∧ True := by
    intro s hs
    by_cases hcnt : 0 < s.cnt
    · obtain ⟨s', hagain, hlast, hpre, htoInt⟩ := udelayPass_again hcnt hs.pre
      have hpos : 0 < s.cnt.toInt := Int32.lt_iff_toInt_lt.mp hcnt
      have hstart := countedTicks_mono (hmono (Nat.zero_le s.last))
      have hnext := countedTicks_mono (hmono (Nat.le_add_right s.last 1))
      have hbefore : s.last < K := by
        by_contra hle
        have hcounted := countedTicks_mono (hmono (not_lt.mp hle))
        have heq := hs.cnt
        omega
      have hseen := ticksSeen_eq (hmono (Nat.le_add_right s.last 1)) (hgap s.last)
      refine .inl ⟨s', hagain, ⟨hpre, ?_⟩, by omega⟩
      rw [htoInt, hs.cnt, hlast, hseen]
      omega
    · exact .inr ⟨s, udelayPass_leave hcnt, trivial⟩
  have hstart : Counting samples n ⟨n * 5, Int32.ofNat (tcnto0 (samples 0)), 0⟩ :=
    ⟨rfl, by rw [toInt_cnt hn hrange, Nat.sub_self, Nat.cast_zero, sub_zero]⟩
  obtain ⟨s, hreturns, -⟩ := Returns.of_variant _ _ (fun s => K - s.last) hpass hstart
  exact ⟨s.last, hreturns.map DelayState.last⟩

end Calls

/-- `udelay(n)` never returns before `5 * n` ticks have passed since its first read of
    `TCNTO0`, whenever its reads are; and it returns if they are always less than a period
    apart and go on for ever. -/
theorem udelay_waits (samples : ℕ → ℕ) (hmono : Monotone samples) (n : Int32)
    (hn : 0 ≤ n.toInt) (hrange : 5 * n.toInt < 2 ^ 31) :
    (∀ fuel last, udelay samples n fuel = some last →
      5 * n.toInt ≤ (samples last - samples 0 : ℕ)) ∧
    ((∀ k, samples (k + 1) < samples k + 50001) → (∀ t, ∃ k, t ≤ samples k) →
      ∃ last, Yields (fun fuel => udelay samples n fuel) last) :=
  ⟨fun _ _ h => udelay_not_early hmono hn hrange h, udelay_returns hmono hn hrange⟩

/-- A delay of 3 us, read every 5 ticks. `TCNTO0` reloads at tick 50001, and this tick is not
    counted. -/
theorem udelay_waits_three :
    (∃ last, Yields (fun fuel => udelay (fun k => 49990 + 5 * k) 3 fuel) last ∧ 15 ≤ 5 * last) ∧
      udelay (fun k => 49990 + 5 * k) 3 5 = some 4 := by
  obtain ⟨hearly, hreturns⟩ := udelay_waits (fun k => 49990 + 5 * k)
    (fun a b h => Nat.add_le_add_left (Nat.mul_le_mul_left 5 h) 49990) 3 (by decide) (by decide)
  obtain ⟨last, hyields⟩ := hreturns (fun k => by omega) (fun t => ⟨t, by omega⟩)
  obtain ⟨fuel, hfuel⟩ := id hyields
  have hticks := hearly fuel last (hfuel fuel le_rfl)
  refine ⟨⟨last, hyields, ?_⟩, by decide⟩
  have hn : (3 : Int32).toInt = 3 := rfl
  rw [hn] at hticks
  omega

end Jz2440.Timer
