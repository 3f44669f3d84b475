import Jz2440.Common.Loop
import Jz2440.Common.Memory

/-!
# Hand-written code for an ARM core

The registers of an ARMv4 core with their banks, the condition flags, and the
instructions that hand-written routines are made of: data processing with a shifted
second operand, compares, conditional execution, the stack, calls and returns.

A routine is a `Code`: straight-line pieces, forward branches, and loops that end in
a backward branch. `Code.exec` runs it, with fuel for the loops.

* `holds_subFlags`: what each condition says after a compare.
* `Ends code s t`: the routine started in `s` ends in `t`; `Ends.seq`, `Ends.branch`
  and `Ends.loop` are its rules.
* `Keeps rs s t`: only the registers `rs` and the flags differ; `Code.keeps` gives it
  for a whole routine from the registers that its instructions name.
* `CallConv`: what a function that obeys the procedure call standard leaves alone.
-/

namespace Jz2440.Common.Arm

open Jz2440.Common

/-! ## The state of the core -/

/-- The registers but the program counter. -/
inductive Reg
  | r0 | r1 | r2 | r3 | r4 | r5 | r6 | r7 | r8 | r9 | r10 | r11 | r12 | sp | lr
  deriving DecidableEq

/-- The modes of the core; `sys` shares the registers of `usr` and is left out. -/
inductive Mode
  | usr | fiq | irq | svc | abt | und
  deriving DecidableEq

/-- The condition flags. -/
structure Flags where
  n : Bool
  z : Bool
  c : Bool
  v : Bool
  deriving DecidableEq

/-- A program status register: the flags, the interrupt masks, the Thumb bit and the mode. -/
structure Psr where
  flags : Flags
  i : Bool
  f : Bool
  t : Bool
  mode : Mode
  deriving DecidableEq

/-- The mode bits M4–M0. -/
def Mode.bits : Mode → BitVec 5
  | .usr => 0b10000
  | .fiq => 0b10001
  | .irq => 0b10010
  | .svc => 0b10011
  | .abt => 0b10111
  | .und => 0b11011

/-- The status register as the word that `mrs` reads. -/
def Psr.toWord (p : Psr) : Word :=
  BitVec.ofBool p.flags.n ++ BitVec.ofBool p.flags.z ++ BitVec.ofBool p.flags.c ++
    BitVec.ofBool p.flags.v ++ 0#20 ++ BitVec.ofBool p.i ++ BitVec.ofBool p.f ++
    BitVec.ofBool p.t ++ p.mode.bits

/-- The mode in whose bank `r` lies when the core is in mode `m`. -/
def bank : Mode → Reg → Mode
  | m, .sp => m
  | m, .lr => m
  | .fiq, .r8 => .fiq
  | .fiq, .r9 => .fiq
  | .fiq, .r10 => .fiq
  | .fiq, .r11 => .fiq
  | .fiq, .r12 => .fiq
  | _, _ => .usr

/-- The core and the memory. `reg m r` is register `r` of the bank of mode `m`. -/
structure Cpu where
  reg : Mode → Reg → Word
  pc : Word
  cpsr : Psr
  spsr : Mode → Psr
  mem : Mem

namespace Cpu

/-- A register as the current mode sees it. -/
def get (s : Cpu) (r : Reg) : Word := s.reg (bank s.cpsr.mode r) r

/-- A write to a register of the current mode. -/
def set (s : Cpu) (r : Reg) (w : Word) : Cpu :=
  { s with reg := fun m x => if m = bank s.cpsr.mode r ∧ x = r then w else s.reg m x }

def flags (s : Cpu) : Flags := s.cpsr.flags

def setFlags (s : Cpu) (f : Flags) : Cpu := { s with cpsr := { s.cpsr with flags := f } }

def setMem (s : Cpu) (m : Mem) : Cpu := { s with mem := m }

def setPc (s : Cpu) (w : Word) : Cpu := { s with pc := w }

variable (s : Cpu) (r : Reg) (w : Word) (f : Flags) (m : Mem)

@[simp] theorem get_set_self : (s.set r w).get r = w := if_pos ⟨rfl, rfl⟩

theorem get_set_of_ne {x : Reg} (h : x ≠ r) : (s.set r w).get x = s.get x :=
  if_neg fun hx => h hx.2

@[simp] theorem mem_set : (s.set r w).mem = s.mem := rfl

@[simp] theorem get_setMem (x : Reg) : (s.setMem m).get x = s.get x := rfl

@[simp] theorem mem_setMem : (s.setMem m).mem = m := rfl

@[simp] theorem get_setPc (x : Reg) : (s.setPc w).get x = s.get x := rfl

@[simp] theorem flags_set : (s.set r w).flags = s.flags := rfl

@[simp] theorem flags_setFlags : (s.setFlags f).flags = f := rfl

@[simp] theorem setFlags_setFlags (g : Flags) : (s.setFlags f).setFlags g = s.setFlags g := rfl

@[simp] theorem get_setFlags (x : Reg) : (s.setFlags f).get x = s.get x := rfl

end Cpu

/-! ## Conditions -/

/-- The condition field of an instruction. -/
inductive Cond
  | eq | ne | hs | lo | mi | pl | hi | ls | ge | lt
  deriving DecidableEq

def Cond.holds (f : Flags) : Cond → Bool
  | .eq => f.z
  | .ne => !f.z
  | .hs => f.c
  | .lo => !f.c
  | .mi => f.n
  | .pl => !f.n
  | .hi => f.c && !f.z
  | .ls => !f.c || f.z
  | .ge => f.n == f.v
  | .lt => f.n != f.v

/-- The flags of `a - b`; the carry is set if there is no borrow. -/
def subFlags (a b : Word) : Flags := ⟨(a - b).msb, a - b == 0#32, decide (b ≤ a), a.ssubOverflow b⟩

/-- The flags of `a + b`. -/
def addFlags (a b : Word) : Flags :=
  ⟨(a + b).msb, a + b == 0#32, a.uaddOverflow b, a.saddOverflow b⟩

/-- The flags of a logical result: the carry comes from the shifter. -/
def logicFlags (w : Word) (carry : Bool) (old : Flags) : Flags := ⟨w.msb, w == 0#32, carry, old.v⟩

/-- The order that a condition stands for after `a` has been compared with `b`. -/
def Cond.order (a b : Word) : Cond → Prop
  | .eq => a = b
  | .ne => a ≠ b
  | .hs => b ≤ a
  | .lo => a < b
  | .mi => (a - b).msb = true
  | .pl => (a - b).msb = false
  | .hi => b < a
  | .ls => a ≤ b
  | .ge => b.toInt ≤ a.toInt
  | .lt => a.toInt < b.toInt

theorem sub_eq_zero_iff (a b : Word) : a - b = 0#32 ↔ a = b := by bv_omega

theorem msb_sub_eq_overflow_iff (a b : Word) :
    ((a - b).msb = a.ssubOverflow b) ↔ b.toInt ≤ a.toInt := by
  have hmsb : (a - b).msb = decide ((a - b).toInt < 0) := BitVec.msb_eq_toInt
  have hsub : (a - b).toInt = (a.toInt - b.toInt).bmod (2 ^ 32) := BitVec.toInt_sub
  have ha := BitVec.toInt_lt (x := a)
  have ha' := BitVec.le_toInt (x := a)
  have hb := BitVec.toInt_lt (x := b)
  have hb' := BitVec.le_toInt (x := b)
  rw [hmsb, BitVec.ssubOverflow, Bool.eq_iff_iff]
  simp only [decide_eq_true_eq, Bool.or_eq_true, hsub, Int.bmod]
  norm_num at *
  split_ifs <;> omega

theorem holds_subFlags (a b : Word) (c : Cond) : c.holds (subFlags a b) = true ↔ c.order a b := by
  have hzero := sub_eq_zero_iff a b
  have hle : a ≤ b ↔ a < b ∨ a = b := by bv_omega
  have hlt : b < a ↔ b ≤ a ∧ a ≠ b := by bv_omega
  have hge := msb_sub_eq_overflow_iff a b
  cases c <;> simp [Cond.holds, Cond.order, subFlags, hzero, hle, hlt, hge]

@[simp] theorem holds_logicFlags_eq (w : Word) (carry : Bool) (old : Flags) :
    Cond.eq.holds (logicFlags w carry old) = (w == 0#32) := rfl

@[simp] theorem holds_logicFlags_ne (w : Word) (carry : Bool) (old : Flags) :
    Cond.ne.holds (logicFlags w carry old) = (w != 0#32) := rfl

@[simp] theorem holds_logicFlags_mi (w : Word) (carry : Bool) (old : Flags) :
    Cond.mi.holds (logicFlags w carry old) = w.msb := rfl

@[simp] theorem holds_logicFlags_ls (w : Word) (carry : Bool) (old : Flags) :
    Cond.ls.holds (logicFlags w carry old) = (!carry || w == 0#32) := rfl

/-! ## Instructions -/

/-- The shifts of a second operand. -/
inductive Shift
  | lsl | lsr | asr

def Shift.val (w : Word) (k : ℕ) : Shift → Word
  | .lsl => w <<< k
  | .lsr => w >>> k
  | .asr => w.sshiftRight k

/-- The last bit that is shifted out; a shift by nothing leaves the carry alone. -/
def Shift.carry (w : Word) (k : ℕ) (old : Bool) (sh : Shift) : Bool :=
  if k = 0 then old
  else match sh with
    | .lsl => decide (k ≤ 32) && w.getLsbD (32 - k)
    | .lsr => w.getLsbD (k - 1)
    | .asr => w.getLsbD (min (k - 1) 31)

/-- The second operand: a constant, a register, or a register shifted by a constant or
    by the low byte of a register. -/
inductive Operand
  | imm (w : Word)
  | reg (r : Reg)
  | shift (r : Reg) (sh : Shift) (k : ℕ)
  | shiftReg (r : Reg) (sh : Shift) (amount : Reg)

/-- The registers that an operand reads. -/
def Operand.reads : Operand → List Reg
  | .imm _ => []
  | .reg r => [r]
  | .shift r _ _ => [r]
  | .shiftReg r _ amount => [r, amount]

/-- The operations with a destination register. -/
inductive DpOp
  | and | eor | sub | rsb | add | orr | bic

def DpOp.val (a b : Word) : DpOp → Word
  | .and => a &&& b
  | .eor => a ^^^ b
  | .sub => a - b
  | .rsb => b - a
  | .add => a + b
  | .orr => a ||| b
  | .bic => a &&& ~~~b

def DpOp.flags (a b : Word) (carry : Bool) (old : Flags) : DpOp → Flags
  | .sub => subFlags a b
  | .rsb => subFlags b a
  | .add => addFlags a b
  | op => logicFlags (op.val a b) carry old

/-- The operations that only set the flags. -/
inductive TestOp
  | cmp | cmn | tst | teq

def TestOp.flags (a b : Word) (carry : Bool) (old : Flags) : TestOp → Flags
  | .cmp => subFlags a b
  | .cmn => addFlags a b
  | .tst => logicFlags (a &&& b) carry old
  | .teq => logicFlags (a ^^^ b) carry old

namespace Cpu

def operand (s : Cpu) : Operand → Word
  | .imm w => w
  | .reg r => s.get r
  | .shift r sh k => sh.val (s.get r) k
  | .shiftReg r sh amount => sh.val (s.get r) ((s.get amount).toNat % 256)

/-- The carry out of the shifter. A constant above 255 is a rotated one, whose rotation
    puts its top bit into the carry. -/
def carryOut (s : Cpu) : Operand → Bool
  | .imm w => if w < 256#32 then s.flags.c else w.msb
  | .reg _ => s.flags.c
  | .shift r sh k => sh.carry (s.get r) k s.flags.c
  | .shiftReg r sh amount => sh.carry (s.get r) ((s.get amount).toNat % 256) s.flags.c

variable (s : Cpu)

theorem operand_congr {t : Cpu} {o : Operand} (h : ∀ r ∈ o.reads, t.get r = s.get r) :
    t.operand o = s.operand o := by
  cases o with
  | imm w => rfl
  | reg r => exact h r (by simp [Operand.reads])
  | shift r sh k => simp only [operand, h r (by simp [Operand.reads])]
  | shiftReg r sh amount =>
    simp only [operand, h r (by simp [Operand.reads]), h amount (by simp [Operand.reads])]

end Cpu

/-- The words `ws`, one after the other from `a` on. -/
def storeWords (m : Mem) (a : ℕ) : List Word → Mem
  | [] => m
  | w :: ws => storeWords (storeWord m a w) (a + 4) ws

/-- An instruction that goes on to the next one. -/
inductive Instr
  /-- the instruction with a condition -/
  | when (c : Cond) (i : Instr)
  /-- `mov rd, o`, also for `ldr rd, =constant` -/
  | mov (rd : Reg) (o : Operand)
  /-- `movs rd, o` -/
  | movs (rd : Reg) (o : Operand)
  | dp (op : DpOp) (rd rn : Reg) (o : Operand)
  /-- the same with the flags set -/
  | dps (op : DpOp) (rd rn : Reg) (o : Operand)
  | test (op : TestOp) (rn : Reg) (o : Operand)
  /-- `mrs rd, cpsr` -/
  | mrs (rd : Reg)
  /-- `stmdb sp!, {rs}`; with one register also `str r, [sp, #-4]!` -/
  | stmdb (rs : List Reg)
  /-- a call, with its return address, of a function given by its effect -/
  | bl (ret : Word) (f : Cpu → Cpu)

/-- One instruction. -/
def Cpu.step (s : Cpu) : Instr → Cpu
  | .when c i => if c.holds s.flags then s.step i else s
  | .mov rd o => s.set rd (s.operand o)
  | .movs rd o =>
    (s.set rd (s.operand o)).setFlags (logicFlags (s.operand o) (s.carryOut o) s.flags)
  | .dp op rd rn o => s.set rd (op.val (s.get rn) (s.operand o))
  | .dps op rd rn o =>
    (s.set rd (op.val (s.get rn) (s.operand o))).setFlags
      (op.flags (s.get rn) (s.operand o) (s.carryOut o) s.flags)
  | .test op rn o => s.setFlags (op.flags (s.get rn) (s.operand o) (s.carryOut o) s.flags)
  | .mrs rd => s.set rd s.cpsr.toWord
  | .stmdb rs =>
    let base := s.get .sp - BitVec.ofNat 32 (4 * rs.length)
    (s.set .sp base).setMem (storeWords s.mem base.toNat (rs.map s.get))
  | .bl ret f => f (s.set .lr ret)

/-- A piece of straight-line code. -/
def Cpu.runs (s : Cpu) (is : List Instr) : Cpu := is.foldl Cpu.step s

theorem Cpu.runs_append (s : Cpu) (is js : List Instr) : s.runs (is ++ js) = (s.runs is).runs js :=
  List.foldl_append

/-! ## Routines -/

/-- The instructions that leave a routine. -/
inductive Exit
  /-- `mov pc, lr` -/
  | movPcLr
  /-- `ldr pc, [sp], #4` -/
  | ldrPc
  /-- `ldmia sp!, {rs, pc}^`: the registers, the program counter and the status of the
      interrupted program -/
  | ldmiaPc (rs : List Reg)

/-- The registers `rs` loaded from the words at `a`. -/
def Cpu.loadRegs (s : Cpu) (a : ℕ) : List Reg → Cpu
  | [] => s
  | r :: rs => (s.set r (loadWord s.mem a)).loadRegs (a + 4) rs

def Cpu.exit (s : Cpu) : Exit → Cpu
  | .movPcLr => s.setPc (s.get .lr)
  | .ldrPc => (s.set .sp (s.get .sp + 4#32)).setPc (loadWord s.mem (s.get .sp).toNat)
  | .ldmiaPc rs =>
    let base := s.get .sp
    let t := (s.loadRegs base.toNat rs).set .sp (base + BitVec.ofNat 32 (4 * (rs.length + 1)))
    { t.setPc (loadWord s.mem (base.toNat + 4 * rs.length)) with cpsr := s.spsr s.cpsr.mode }

/-- A routine by its flow of control: a branch forward carries the code at its label,
    and a loop is a piece of code that ends in a branch back to its first instruction. -/
inductive Code
  | ret (e : Exit)
  | seq (is : List Instr) (next : Code)
  | branch (c : Cond) (target next : Code)
  | loop (body : List Instr) (c : Cond) (next : Code)

/-- One pass of a loop that branches back if `c` holds at its end. -/
def loopPass (body : List Instr) (c : Cond) (s : Cpu) : Pass Cpu Cpu :=
  let t := s.runs body
  if c.holds t.flags then .again t else .leave t

theorem loopPass_append (is js : List Instr) (c : Cond) (s : Cpu) :
    loopPass (is ++ js) c s = loopPass js c (s.runs is) := by
  simp only [loopPass, Cpu.runs_append]

def Code.exec (fuel : ℕ) : Code → Cpu → Option Cpu
  | .ret e, s => some (s.exit e)
  | .seq is next, s => next.exec fuel (s.runs is)
  | .branch c target next, s =>
    if c.holds s.flags then target.exec fuel s else next.exec fuel s
  | .loop body c next, s => (Common.loop (loopPass body c) fuel s).bind (next.exec fuel)

/-- The routine started in `s` comes to its end, in `t`. -/
def Ends (code : Code) (s t : Cpu) : Prop := Yields (fun fuel => code.exec fuel s) t

section Ends

variable {s t u : Cpu} {code next : Code} {c : Cond}

theorem Ends.ret (e : Exit) (s : Cpu) : Ends (.ret e) s (s.exit e) := ⟨0, fun _ _ => rfl⟩

theorem Ends.seq {is : List Instr} (h : Ends next (s.runs is) t) : Ends (.seq is next) s t := h

theorem Ends.seq_to {is : List Instr} (hs : s.runs is = u) (h : Ends next u t) :
    Ends (.seq is next) s t := by
  subst hs
  exact h

theorem Ends.taken {target : Code} (hc : c.holds s.flags = true) (h : Ends target s t) :
    Ends (.branch c target next) s t := by
  obtain ⟨n, hn⟩ := h
  exact ⟨n, fun fuel hf => (if_pos hc).trans (hn fuel hf)⟩

theorem Ends.not_taken {target : Code} (hc : ¬ c.holds s.flags = true) (h : Ends next s t) :
    Ends (.branch c target next) s t := by
  obtain ⟨n, hn⟩ := h
  exact ⟨n, fun fuel hf => (if_neg hc).trans (hn fuel hf)⟩

theorem Ends.loop {body : List Instr} (hr : Returns (loopPass body c) s u) (h : Ends next u t) :
    Ends (.loop body c next) s t :=
  Yields.bind hr h

end Ends

/-! ## What code leaves alone -/

/-- Only the registers `rs` of the current mode and the flags differ. -/
structure Keeps (rs : List Reg) (s t : Cpu) : Prop where
  reg : ∀ m r, r ∉ rs ∨ m ≠ bank s.cpsr.mode r → t.reg m r = s.reg m r
  pc : t.pc = s.pc
  cpsr : t.cpsr = { s.cpsr with flags := t.cpsr.flags }
  spsr : t.spsr = s.spsr
  mem : t.mem = s.mem

section Keeps

variable {rs : List Reg} {s t u : Cpu}

theorem Keeps.refl (rs : List Reg) (s : Cpu) : Keeps rs s s :=
  ⟨fun _ _ _ => rfl, rfl, rfl, rfl, rfl⟩

theorem Keeps.mode (h : Keeps rs s t) : t.cpsr.mode = s.cpsr.mode := by rw [h.cpsr]

theorem Keeps.trans (h : Keeps rs s t) (h' : Keeps rs t u) : Keeps rs s u where
  reg m r hr := by
    have hr' : r ∉ rs ∨ m ≠ bank t.cpsr.mode r := by rwa [h.mode]
    exact (h'.reg m r hr').trans (h.reg m r hr)
  pc := h'.pc.trans h.pc
  cpsr := by rw [h'.cpsr, h.cpsr]
  spsr := h'.spsr.trans h.spsr
  mem := h'.mem.trans h.mem

theorem Keeps.mono {rs' : List Reg} (h : Keeps rs s t) (hrs : rs ⊆ rs') : Keeps rs' s t :=
  { h with reg := fun m r hr => h.reg m r (hr.imp_left fun hout hmem => hout (hrs hmem)) }

theorem Keeps.get (h : Keeps rs s t) {r : Reg} (hr : r ∉ rs) : t.get r = s.get r := by
  rw [Cpu.get, h.mode, h.reg _ _ (.inl hr)]
  rfl

theorem keeps_set {r : Reg} (hr : r ∈ rs) (s : Cpu) (w : Word) : Keeps rs s (s.set r w) := by
  refine ⟨fun m x hx => if_neg ?_, rfl, rfl, rfl, rfl⟩
  rintro ⟨rfl, rfl⟩
  exact hx.elim (· hr) (· rfl)

theorem keeps_setFlags (rs : List Reg) (s : Cpu) (f : Flags) : Keeps rs s (s.setFlags f) :=
  ⟨fun _ _ _ => rfl, rfl, rfl, rfl, rfl⟩

/-- The instruction writes no register but those of `rs`, and no memory. -/
def Instr.Within (rs : List Reg) : Instr → Prop
  | .when _ i => i.Within rs
  | .mov rd _ => rd ∈ rs
  | .movs rd _ => rd ∈ rs
  | .dp _ rd _ _ => rd ∈ rs
  | .dps _ rd _ _ => rd ∈ rs
  | .test _ _ _ => True
  | .mrs rd => rd ∈ rs
  | .stmdb _ => False
  | .bl _ _ => False

theorem keeps_step {i : Instr} (hi : i.Within rs) (s : Cpu) : Keeps rs s (s.step i) := by
  induction i with
  | when c i ih =>
    simp only [Cpu.step]
    split_ifs
    · exact ih hi
    · exact .refl rs s
  | mov rd o => exact keeps_set hi s _
  | movs rd o => exact (keeps_set hi s _).trans (keeps_setFlags rs _ _)
  | dp op rd rn o => exact keeps_set hi s _
  | dps op rd rn o => exact (keeps_set hi s _).trans (keeps_setFlags rs _ _)
  | test op rn o => exact keeps_setFlags rs s _
  | mrs rd => exact keeps_set hi s _
  | stmdb rs' => exact hi.elim
  | bl ret f => exact hi.elim

theorem keeps_runs {is : List Instr} (his : ∀ i ∈ is, i.Within rs) (s : Cpu) :
    Keeps rs s (s.runs is) := by
  induction is generalizing s with
  | nil => exact .refl rs s
  | cons i is ih =>
    exact (keeps_step (his i List.mem_cons_self) s).trans
      (ih (fun j hj => his j (List.mem_cons_of_mem i hj)) (s.step i))

/-- The routine writes no register but those of `rs`, no memory, and returns through `lr`. -/
def Code.Within (rs : List Reg) : Code → Prop
  | .ret e => e = .movPcLr
  | .seq is next => (∀ i ∈ is, i.Within rs) ∧ next.Within rs
  | .branch _ target next => target.Within rs ∧ next.Within rs
  | .loop body _ next => (∀ i ∈ body, i.Within rs) ∧ next.Within rs

theorem keeps_loop {body : List Instr} {c : Cond} (hbody : ∀ i ∈ body, i.Within rs) {fuel : ℕ}
    (h : Common.loop (loopPass body c) fuel s = some t) : Keeps rs s t := by
  refine loop_post (Keeps rs s) (Keeps rs s) ?_ ?_ fuel (.refl rs s) h
  all_goals
    intro u v hu hv
    simp only [loopPass] at hv
    split_ifs at hv
    cases hv
    exact hu.trans (keeps_runs hbody u)

theorem keeps_returns {body : List Instr} {c : Cond} (hbody : ∀ i ∈ body, i.Within rs)
    (h : Returns (loopPass body c) s t) : Keeps rs s t := by
  obtain ⟨n, hn⟩ := h
  exact keeps_loop hbody (hn n le_rfl)

theorem Code.keeps {code : Code} (hcode : code.Within rs) {fuel : ℕ}
    (h : code.exec fuel s = some t) : ∃ u, Keeps rs s u ∧ t = u.exit .movPcLr := by
  induction code generalizing s with
  | ret e =>
    cases hcode
    exact ⟨s, .refl rs s, (Option.some.inj h).symm⟩
  | seq is next ih =>
    obtain ⟨u, hu, rfl⟩ := ih hcode.2 h
    exact ⟨u, (keeps_runs hcode.1 s).trans hu, rfl⟩
  | branch c target next iht ihn =>
    simp only [Code.exec] at h
    split_ifs at h
    · exact iht hcode.1 h
    · exact ihn hcode.2 h
  | loop body c next ih =>
    obtain ⟨v, hloop, hnext⟩ := Option.bind_eq_some_iff.mp h
    obtain ⟨u, hu, rfl⟩ := ih hcode.2 hnext
    exact ⟨u, (keeps_loop hcode.1 hloop).trans hu, rfl⟩

theorem Ends.keeps {code : Code} (hcode : code.Within rs) (h : Ends code s t) :
    ∃ u, Keeps rs s u ∧ t = u.exit .movPcLr := by
  obtain ⟨n, hn⟩ := h
  exact Code.keeps hcode (hn n le_rfl)

end Keeps

/-! ## The procedure call standard -/

/-- The registers that a called function may change. -/
def scratch : List Reg := [.r0, .r1, .r2, .r3, .r12, .lr]

/-- A call that began in `s` has returned in `t`: it came back to its return address, in
    the same mode, with the registers that the standard protects, and with the bytes of
    the frames of its callers, which are at the addresses `frames`. -/
structure CallConv (frames : ℕ → Prop) (s t : Cpu) : Prop where
  pc : t.pc = s.get .lr
  reg : ∀ m r, r ∉ scratch ∨ m ≠ bank s.cpsr.mode r → t.reg m r = s.reg m r
  cpsr : t.cpsr = { s.cpsr with flags := t.cpsr.flags }
  spsr : t.spsr = s.spsr
  mem : ∀ x, frames x → t.mem x = s.mem x

section CallConv

variable {rs : List Reg} {s t u : Cpu} {frames : ℕ → Prop}

theorem CallConv.get (h : CallConv frames s t) {r : Reg} (hr : r ∉ scratch) :
    t.get r = s.get r := by
  have hmode : t.cpsr.mode = s.cpsr.mode := by rw [h.cpsr]
  rw [Cpu.get, hmode, h.reg _ _ (.inl hr)]
  rfl

theorem Keeps.callConv (h : Keeps rs s t) (hrs : rs ⊆ scratch) (hlr : .lr ∉ rs) :
    CallConv frames s (t.exit .movPcLr) where
  pc := h.get hlr
  reg m r hr := h.reg m r (hr.imp_left fun hs hmem => hs (hrs hmem))
  cpsr := h.cpsr
  spsr := h.spsr
  mem _ _ := congrFun h.mem _

/-- A routine that writes scratch registers only obeys the standard. -/
theorem Ends.callConv {code : Code} (hcode : code.Within rs) (hrs : rs ⊆ scratch) (hlr : .lr ∉ rs)
    (h : Ends code s t) : CallConv frames s t := by
  obtain ⟨u, hu, rfl⟩ := h.keeps hcode
  exact hu.callConv hrs hlr

/-- Scratch registers may be written before the call. -/
theorem CallConv.of_keeps (h : Keeps rs s t) (hrs : rs ⊆ scratch) (hlr : .lr ∉ rs)
    (h' : CallConv frames t u) : CallConv frames s u where
  pc := h'.pc.trans (h.get hlr)
  reg m r hr := by
    have hr' : r ∉ scratch ∨ m ≠ bank t.cpsr.mode r := by rwa [h.mode]
    exact (h'.reg m r hr').trans (h.reg m r (hr.imp_left fun hs hmem => hs (hrs hmem)))
  cpsr := by rw [h'.cpsr, h.cpsr]
  spsr := h'.spsr.trans h.spsr
  mem x hx := (h'.mem x hx).trans (congrFun h.mem x)

end CallConv

end Jz2440.Common.Arm
