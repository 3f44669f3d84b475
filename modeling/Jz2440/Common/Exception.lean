import Jz2440.Common.Arm

/-!
# Taking an exception and returning from it

An exception switches the core to a mode of its own, with its own `sp` and `lr`. A handler
that pushes `r0`–`r12` and `lr`, calls C functions and pulls them again with the status of
the interrupted program is not noticed by that program.

* `Cpu.enter`: what the core does when it takes an exception.
* `Serving`: the interrupted program is saved in the frame at `base`; `Serving.runs` and
  `Serving.bl` carry it over the instructions of the handler.
* `Callee`: a C function that a handler calls, with the calling convention it obeys.
* `Resumed`: the interrupted program goes on as before; `Serving.resumed` is the return.
-/

namespace Jz2440.Common.Arm

open Jz2440.Common

/-! ## Words in memory -/

/-- The words at `a` are `ws`. -/
def HoldsWords (m : Mem) (a : ℕ) : List Word → Prop
  | [] => True
  | w :: ws => loadWord m a = w ∧ HoldsWords m (a + 4) ws

theorem storeWords_of_lt (m : Mem) {a x : ℕ} (ws : List Word) (h : x < a) :
    storeWords m a ws x = m x := by
  induction ws generalizing m a with
  | nil => rfl
  | cons w ws ih =>
    rw [storeWords, ih _ (by omega)]
    exact storeWord_of_disjoint m w (.inl h)

theorem storeWords_of_ge (m : Mem) {a x : ℕ} (ws : List Word) (h : a + 4 * ws.length ≤ x) :
    storeWords m a ws x = m x := by
  induction ws generalizing m a with
  | nil => rfl
  | cons w ws ih =>
    rw [List.length_cons] at h
    rw [storeWords, ih _ (by omega)]
    exact storeWord_of_disjoint m w (.inr (by omega))

theorem holdsWords_storeWords (m : Mem) (a : ℕ) (ws : List Word) :
    HoldsWords (storeWords m a ws) a ws := by
  induction ws generalizing m a with
  | nil => trivial
  | cons w ws ih =>
    refine ⟨?_, ih _ _⟩
    refine Eq.trans (loadWord_congr fun k hk => ?_) (loadWord_storeWord_self m a w)
    exact storeWords_of_lt _ ws (by omega)

theorem HoldsWords.congr {m m' : Mem} {a : ℕ} {ws : List Word} (h : HoldsWords m a ws)
    (hsame : ∀ x, a ≤ x → x < a + 4 * ws.length → m' x = m x) : HoldsWords m' a ws := by
  induction ws generalizing a with
  | nil => trivial
  | cons w ws ih =>
    rw [List.length_cons] at hsame
    refine ⟨(loadWord_congr fun k hk => hsame _ (by omega) (by omega)).trans h.1, ih h.2 ?_⟩
    exact fun x hx hx' => hsame x (by omega) (by omega)

/-- The last of the words. -/
theorem HoldsWords.last {m : Mem} {a : ℕ} {ws : List Word} {w : Word}
    (h : HoldsWords m a (ws ++ [w])) : loadWord m (a + 4 * ws.length) = w := by
  induction ws generalizing a with
  | nil => exact h.1
  | cons v ws ih =>
    rw [← ih h.2, List.length_cons]
    exact congrArg (loadWord m) (by omega)

theorem HoldsWords.left {m : Mem} {a : ℕ} {ws vs : List Word} (h : HoldsWords m a (ws ++ vs)) :
    HoldsWords m a ws := by
  induction ws generalizing a with
  | nil => trivial
  | cons w ws ih => exact ⟨h.1, ih h.2⟩

/-! ## Registers loaded from memory -/

section LoadRegs

variable {s : Cpu} {a : ℕ} {rs : List Reg}

theorem loadRegs_eq (s : Cpu) (a : ℕ) (rs : List Reg) :
    s.loadRegs a rs = { s with reg := (s.loadRegs a rs).reg } := by
  induction rs generalizing s a with
  | nil => rfl
  | cons r rs ih =>
    rw [Cpu.loadRegs, ih]
    rfl

/-- Registers that are not in the list stay as they are. -/
theorem loadRegs_of_notMem {m : Mode} {x : Reg} (hx : x ∉ rs ∨ m ≠ bank s.cpsr.mode x) :
    (s.loadRegs a rs).reg m x = s.reg m x := by
  induction rs generalizing s a with
  | nil => rfl
  | cons r rs ih =>
    have hx' : x ∉ rs ∨ m ≠ bank s.cpsr.mode x :=
      hx.imp_left fun h hmem => h (List.mem_cons_of_mem r hmem)
    have hhead : ¬ (m = bank s.cpsr.mode r ∧ x = r) := by
      rintro ⟨hm, rfl⟩
      exact hx.elim (· List.mem_cons_self) (· hm)
    rw [Cpu.loadRegs, ih (s := s.set r _) hx']
    exact if_neg hhead

/-- Registers that are in the list get their words back. -/
theorem loadRegs_of_mem {v : Reg → Word} (hnodup : rs.Nodup) (h : HoldsWords s.mem a (rs.map v))
    {x : Reg} (hx : x ∈ rs) : (s.loadRegs a rs).reg (bank s.cpsr.mode x) x = v x := by
  induction rs generalizing s a with
  | nil => cases hx
  | cons r rs ih =>
    obtain ⟨hr, hnodup⟩ := List.nodup_cons.mp hnodup
    rcases List.mem_cons.mp hx with rfl | hmem
    · rw [Cpu.loadRegs, loadRegs_of_notMem (.inl hr)]
      exact (if_pos ⟨rfl, rfl⟩).trans h.1
    · exact ih (s := s.set r _) hnodup h.2 hmem

end LoadRegs

/-! ## Exceptions -/

/-- The core takes an exception: the status and the return address are kept in the registers
    of the exception's mode, in which interrupts are masked. -/
def Cpu.enter (s : Cpu) (m : Mode) (ret vector : Word) : Cpu :=
  { s with
    reg := fun m' r => if m' = m ∧ r = .lr then ret else s.reg m' r
    pc := vector
    cpsr := { s.cpsr with i := true, t := false, mode := m }
    spsr := fun m' => if m' = m then s.cpsr else s.spsr m' }

/-- The registers that a handler saves, but `lr`. -/
def general : List Reg :=
  [.r0, .r1, .r2, .r3, .r4, .r5, .r6, .r7, .r8, .r9, .r10, .r11, .r12]

/-- The bytes of the frame that holds `general` and the return address. -/
def InFrame (base : Word) (x : ℕ) : Prop := base.toNat ≤ x ∧ x < base.toNat + 56

/-- A handler in mode `m` has saved the interrupted program `s` at `base`. Of the memory at the
    addresses `own` nothing has changed. -/
structure Serving (m : Mode) (own : ℕ → Prop) (s : Cpu) (ret base : Word) (v : Cpu) : Prop where
  mode : v.cpsr.mode = m
  status : v.spsr m = s.cpsr
  spsr : ∀ m' ≠ m, v.spsr m' = s.spsr m'
  reg : ∀ m' r, m' ≠ bank m r → v.reg m' r = s.reg m' r
  sp : v.get .sp = base
  frame : HoldsWords v.mem base.toNat (general.map (s.reg .usr) ++ [ret])
  mem : ∀ x, own x → v.mem x = s.mem x

/-- The interrupted program goes on at `ret`; of the registers only the two that belong to
    the mode of the handler may differ. -/
structure Resumed (m : Mode) (own : ℕ → Prop) (s : Cpu) (ret : Word) (t : Cpu) : Prop where
  pc : t.pc = ret
  cpsr : t.cpsr = s.cpsr
  spsr : ∀ m' ≠ m, t.spsr m' = s.spsr m'
  reg : ∀ m' r, m' ≠ m ∨ r ∈ general → t.reg m' r = s.reg m' r
  mem : ∀ x, own x → t.mem x = s.mem x

theorem mem_general_iff (r : Reg) : r ∈ general ↔ r ≠ .sp ∧ r ≠ .lr := by
  cases r <;> decide

theorem bank_of_notMem {m : Mode} {r : Reg} (hr : r ∉ general) : bank m r = m := by
  rw [mem_general_iff, not_and_or, not_not, not_not] at hr
  rcases hr with rfl | rfl <;> rfl

theorem bank_general {m : Mode} (hm : m ≠ .fiq) {r : Reg} (hr : r ∈ general) : bank m r = .usr := by
  rw [mem_general_iff] at hr
  cases r <;> cases m <;> first | rfl | exact absurd rfl hm | exact absurd rfl hr.1 |
    exact absurd rfl hr.2

section Serving

variable {m : Mode} {own : ℕ → Prop} {s v w : Cpu} {ret base : Word}

theorem Serving.keeps {rs : List Reg} (h : Serving m own s ret base v) (hk : Keeps rs v w)
    (hsp : .sp ∉ rs) : Serving m own s ret base w where
  mode := hk.mode.trans h.mode
  status := by rw [hk.spsr, h.status]
  spsr m' hm' := by rw [hk.spsr, h.spsr m' hm']
  reg m' r hr := (hk.reg m' r (.inr (h.mode ▸ hr))).trans (h.reg m' r hr)
  sp := (hk.get hsp).trans h.sp
  frame := by rw [hk.mem]; exact h.frame
  mem x hx := (congrFun hk.mem x).trans (h.mem x hx)

theorem Serving.runs (h : Serving m own s ret base v) (rs : List Reg) (is : List Instr)
    (his : ∀ i ∈ is, i.Within rs) (hsp : .sp ∉ rs) : Serving m own s ret base (v.runs is) :=
  h.keeps (keeps_runs his v) hsp

/-- A call that obeys the procedure call standard and does not touch the frame. -/
theorem Serving.call (h : Serving m own s ret base v)
    (hc : CallConv (fun x => InFrame base x ∨ own x) v w) : Serving m own s ret base w where
  mode := by rw [hc.cpsr, h.mode]
  status := by rw [hc.spsr, h.status]
  spsr m' hm' := by rw [hc.spsr, h.spsr m' hm']
  reg m' r hr := (hc.reg m' r (.inr (h.mode ▸ hr))).trans (h.reg m' r hr)
  sp := (hc.get (by decide)).trans h.sp
  frame := h.frame.congr fun x hx hx' => hc.mem x (.inl ⟨hx, by simpa [general] using hx'⟩)
  mem x hx := (hc.mem x (.inr hx)).trans (h.mem x hx)

/-- The registers are pushed, once `sp` has been set and `lr` is the return address. -/
theorem serving_stmdb (hm : m ≠ .fiq) {link vector : Word}
    (hv : Keeps [.sp, .lr] (s.enter m link vector) v) (hsp : v.get .sp - 56#32 = base)
    (hlr : v.get .lr = ret) (hown : ∀ x, own x → ¬ InFrame base x) :
    Serving m own s ret base (v.step (.stmdb (general ++ [.lr]))) := by
  have hmode : v.cpsr.mode = m := hv.mode
  have hreg : ∀ m' r, m' ≠ m ∨ r ∈ general → v.reg m' r = s.reg m' r := by
    intro m' r hr
    have hout : r ∉ [Reg.sp, .lr] ∨ m' ≠ bank m r := by
      rcases hr with hm' | hr
      · by_cases hbank : r ∈ [Reg.sp, .lr]
        · right
          rcases List.mem_pair.mp hbank with rfl | rfl <;> exact hm'
        · exact .inl hbank
      · rw [mem_general_iff] at hr
        exact .inl (by simp [hr])
    rw [hv.reg m' r hout]
    refine if_neg ?_
    rintro ⟨rfl, rfl⟩
    exact hr.elim (· rfl) (by decide)
  have hwords : (general ++ [Reg.lr]).map v.get = general.map (s.reg .usr) ++ [ret] := by
    rw [List.map_append, List.map_singleton, hlr]
    refine congrArg (· ++ [ret]) (List.map_congr_left fun r hr => ?_)
    rw [Cpu.get, hmode, bank_general hm hr]
    exact hreg _ _ (.inr hr)
  have hbase : v.get .sp - BitVec.ofNat 32 (4 * (general ++ [Reg.lr]).length) = base := hsp
  simp only [Cpu.step, hbase, hwords]
  refine ⟨hmode, ?_, ?_, ?_, Cpu.get_set_self v .sp base, holdsWords_storeWords _ _ _, ?_⟩
  · show v.spsr m = s.cpsr
    rw [hv.spsr]
    exact if_pos rfl
  · intro m' hm'
    show v.spsr m' = s.spsr m'
    rw [hv.spsr]
    exact if_neg hm'
  · intro m' r hr
    have hsp' : ¬ (m' = bank v.cpsr.mode .sp ∧ r = .sp) := by
      rintro ⟨rfl, rfl⟩
      exact hr (by rw [hmode])
    refine (if_neg hsp').trans (hreg m' r ?_)
    by_cases hg : r ∈ general
    · exact .inr hg
    · rw [bank_of_notMem hg] at hr
      exact .inl hr
  · intro x hx
    have hmem : v.mem = s.mem := hv.mem
    have hout := hown x hx
    rw [InFrame, not_and_or] at hout
    show storeWords v.mem base.toNat _ x = s.mem x
    rw [hmem]
    rcases hout with hlt | hge
    · exact storeWords_of_lt _ _ (by omega)
    · exact storeWords_of_ge _ _ (by simpa [general] using hge)

/-- `ldmia sp!, {r0-r12, pc}^` gives the core back to the interrupted program. -/
theorem Serving.resumed (hm : m ≠ .fiq) (h : Serving m own s ret base v) :
    Resumed m own s ret (v.exit (.ldmiaPc general)) := by
  have hsame := loadRegs_eq v base.toNat general
  refine ⟨?_, ?_, ?_, ?_, ?_⟩
  · show loadWord v.mem ((v.get .sp).toNat + 4 * general.length) = ret
    rw [h.sp, ← h.frame.last, List.length_map]
  · show v.spsr v.cpsr.mode = s.cpsr
    rw [h.mode, h.status]
  · intro m' hm'
    show (v.loadRegs (v.get .sp).toNat general).spsr m' = s.spsr m'
    rw [h.sp, hsame]
    exact h.spsr m' hm'
  · intro m' r hr
    have hmode : (v.loadRegs base.toNat general).cpsr.mode = m := by
      rw [hsame]
      exact h.mode
    have hsp : ¬ (m' = bank (v.loadRegs base.toNat general).cpsr.mode .sp ∧ r = .sp) := by
      rintro ⟨hm', rfl⟩
      rw [hmode] at hm'
      exact hr.elim (· hm') (by decide)
    refine (show _ = (v.loadRegs base.toNat general).reg m' r from ?_).trans ?_
    · rw [← h.sp] at hsp ⊢
      exact if_neg hsp
    · by_cases hload : r ∈ general ∧ m' = bank m r
      · obtain ⟨hg, rfl⟩ := hload
        have hword := loadRegs_of_mem (by decide) h.frame.left hg
        rw [h.mode] at hword
        rw [hword, bank_general hm hg]
      · have hout : r ∉ general ∨ m' ≠ bank v.cpsr.mode r := by
          rw [h.mode]
          exact not_and_or.mp hload
        rw [loadRegs_of_notMem hout]
        refine h.reg m' r fun hm' => ?_
        by_cases hg : r ∈ general
        · exact hload ⟨hg, hm'⟩
        · rw [bank_of_notMem hg] at hm'
          exact hr.elim (· hm') hg
  · intro x hx
    show (v.loadRegs (v.get .sp).toNat general).mem x = s.mem x
    rw [h.sp, hsame]
    exact h.mem x hx

/-- A function as a handler calls it from mode `m` with the frame at `base`: it obeys the
    procedure call standard, and leaves the frame and the memory at `own` alone. -/
structure Callee (m : Mode) (own : ℕ → Prop) (base : Word) where
  run : Cpu → Cpu
  conv : ∀ v, v.cpsr.mode = m → v.get .sp = base →
    CallConv (fun x => InFrame base x ∨ own x) v (run v)

theorem Serving.bl (h : Serving m own s ret base v) (f : Callee m own base) (link : Word) :
    Serving m own s ret base (v.step (.bl link f.run)) := by
  have hlr : Serving m own s ret base (v.set .lr link) :=
    h.keeps (keeps_set (List.mem_singleton_self _) v link) (by decide)
  exact hlr.call (f.conv _ hlr.mode hlr.sp)

end Serving

end Jz2440.Common.Arm
