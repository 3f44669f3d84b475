import Jz2440.Common.Exception
import Jz2440.Common.Runs

/-!
# The exception handlers of start.S

Model of `do_und`, `do_swi` and `do_irq` in `start.S` of
`hard_driver/first_hard/025_sensors_022/007_irda_nec_ok_022_009`. Each one sets up the
stack of its mode, pushes `r0`–`r12` and `lr`, calls C functions and pulls the registers
and the status of the interrupted program. The C functions are arbitrary ones that obey
the procedure call standard (`Callee`).

* `doIrq_resumed`, `doSwi_resumed`, `doUnd_resumed`: the interrupted program goes on as if
  nothing had happened; `printSWIVal` gets the number of the `swi`.
* `interrupts_unseen`: a program in user mode computes the same whenever and however often
  it is interrupted, on the memory that the handlers leave alone.
-/

namespace Jz2440.Interrupt

open Jz2440.Common Jz2440.Common.Arm

/-! ## The code -/

/-- `do_und` (start.S:24-46); `link` is the address after the call. -/
def doUnd (printException : Cpu → Cpu) (undString link : Word) : Code :=
  .seq [.mov .sp (.imm 0x34000000),
    .stmdb (general ++ [.lr]),
    .mrs .r0,
    .mov .r1 (.imm undString),
    .bl link printException] <|
  .ret (.ldmiaPc general)

/-- `do_swi` (start.S:53-80). -/
def doSwi (printException printSWIVal : Cpu → Cpu) (swiString link link' : Word) : Code :=
  .seq [.mov .sp (.imm 0x33e00000),
    .stmdb (general ++ [.lr]),
    .mov .r4 (.reg .lr),
    .mrs .r0,
    .mov .r1 (.imm swiString),
    .bl link printException,
    .dp .sub .r0 .r4 (.imm 4),
    .bl link' printSWIVal] <|
  .ret (.ldmiaPc general)

/-- `do_irq` (start.S:87-108). -/
def doIrq (handleIrqC : Cpu → Cpu) (link : Word) : Code :=
  .seq [.mov .sp (.imm 0x33d00000),
    .dp .sub .lr .lr (.imm 4),
    .stmdb (general ++ [.lr]),
    .bl link handleIrqC] <|
  .ret (.ldmiaPc general)

/-- The frames of the three handlers. -/
def undFrame : Word := 0x33ffffc8
def swiFrame : Word := 0x33dfffc8
def irqFrame : Word := 0x33cfffc8

/-- The value that `printSWIVal` prints (uart.c:91-96). -/
def swiVal (u : Cpu) : Word := loadWord u.mem (u.get .r0).toNat &&& ~~~0xff000000#32

/-! ## The core at an exception -/

/-- An interrupt is taken before the instruction at `pc`: `lr` is 4 above it. -/
def takeIrq (s : Cpu) : Cpu := s.enter .irq (s.pc + 4#32) 0x18

/-- A `swi` has been fetched, and `pc` is the instruction after it. -/
def takeSwi (s : Cpu) : Cpu := s.enter .svc s.pc 0x8

/-- So for an undefined instruction. -/
def takeUnd (s : Cpu) : Cpu := s.enter .und s.pc 0x4

variable {own : ℕ → Prop} {s : Cpu}

/-! ## Each handler -/

theorem serving_irq (hown : ∀ x, own x → ¬ InFrame irqFrame x) (s : Cpu) :
    Serving .irq own s s.pc irqFrame ((takeIrq s).runs [.mov .sp (.imm 0x33d00000),
      .dp .sub .lr .lr (.imm 4), .stmdb (general ++ [.lr])]) := by
  refine serving_stmdb (v := (takeIrq s).runs [.mov .sp (.imm 0x33d00000),
    .dp .sub .lr .lr (.imm 4)]) (by decide) (keeps_runs (by simp [Instr.Within]) _) ?_ ?_ hown
  · simp [Cpu.runs, Cpu.step, Cpu.operand, Cpu.get_set_of_ne, irqFrame]
  · exact BitVec.add_sub_cancel s.pc 4#32

/-- `do_irq` gives the core back to the interrupted program. -/
theorem doIrq_resumed (hown : ∀ x, own x → ¬ InFrame irqFrame x)
    (handleIrqC : Callee .irq own irqFrame) (link : Word) (s : Cpu) :
    ∃ t, (doIrq handleIrqC.run link).exec 0 (takeIrq s) = some t ∧ Resumed .irq own s s.pc t :=
  ⟨_, rfl, ((serving_irq hown s).bl handleIrqC link).resumed (by decide)⟩

theorem serving_und (hown : ∀ x, own x → ¬ InFrame undFrame x) (s : Cpu) :
    Serving .und own s s.pc undFrame ((takeUnd s).runs [.mov .sp (.imm 0x34000000),
      .stmdb (general ++ [.lr])]) := by
  refine serving_stmdb (v := (takeUnd s).runs [.mov .sp (.imm 0x34000000)]) (by decide)
    (keeps_runs (by simp [Instr.Within]) _) ?_ rfl hown
  simp [Cpu.runs, Cpu.step, Cpu.operand, undFrame]

/-- `do_und` goes on after the undefined instruction. -/
theorem doUnd_resumed (hown : ∀ x, own x → ¬ InFrame undFrame x)
    (printException : Callee .und own undFrame) (undString link : Word) (s : Cpu) :
    ∃ t, (doUnd printException.run undString link).exec 0 (takeUnd s) = some t ∧
      Resumed .und own s s.pc t := by
  refine ⟨_, rfl, ?_⟩
  have hargs := (serving_und hown s).runs [.r0, .r1] [.mrs .r0, .mov .r1 (.imm undString)]
    (by simp [Instr.Within]) (by decide)
  exact (hargs.bl printException link).resumed (by decide)

theorem serving_swi (hown : ∀ x, own x → ¬ InFrame swiFrame x) (s : Cpu) :
    Serving .svc own s s.pc swiFrame ((takeSwi s).runs [.mov .sp (.imm 0x33e00000),
      .stmdb (general ++ [.lr])]) := by
  refine serving_stmdb (v := (takeSwi s).runs [.mov .sp (.imm 0x33e00000)]) (by decide)
    (keeps_runs (by simp [Instr.Within]) _) ?_ rfl hown
  simp [Cpu.runs, Cpu.step, Cpu.operand, swiFrame]

/-- `do_swi` keeps the address after the `swi` in `r4`. -/
theorem serving_swi_r4 (hown : ∀ x, own x → ¬ InFrame swiFrame x) (swiString : Word) (s : Cpu)
    {v : Cpu} (hv : v = (takeSwi s).runs [.mov .sp (.imm 0x33e00000), .stmdb (general ++ [.lr]),
      .mov .r4 (.reg .lr), .mrs .r0, .mov .r1 (.imm swiString)]) :
    Serving .svc own s s.pc swiFrame v ∧ v.get .r4 = s.pc := by
  subst hv
  exact ⟨(serving_swi hown s).runs [.r0, .r1, .r4] [.mov .r4 (.reg .lr), .mrs .r0,
    .mov .r1 (.imm swiString)] (by simp [Instr.Within]) (by decide), rfl⟩

/-- `do_swi` goes on after the `swi`, and has `printSWIVal` called in a state `u` in which it
    finds the number of the `swi`. -/
theorem doSwi_resumed (hown : ∀ x, own x → ¬ InFrame swiFrame x)
    (printException printSWIVal : Callee .svc own swiFrame) (swiString link link' : Word) (s : Cpu)
    (hcode : ∀ k < 4, own ((s.pc - 4#32).toNat + k)) :
    ∃ t u, (doSwi printException.run printSWIVal.run swiString link link').exec 0 (takeSwi s) =
        some t ∧ Resumed .svc own s s.pc t ∧ t = (printSWIVal.run u).exit (.ldmiaPc general) ∧
      swiVal u = loadWord s.mem (s.pc - 4#32).toNat &&& 0x00ffffff#32 := by
  generalize hv : (takeSwi s).runs [.mov .sp (.imm 0x33e00000), .stmdb (general ++ [.lr]),
    .mov .r4 (.reg .lr), .mrs .r0, .mov .r1 (.imm swiString)] = v
  obtain ⟨hserving, hr4⟩ := serving_swi_r4 hown swiString s hv.symm
  have hcalled := hserving.bl printException link
  have hr4' : (v.step (.bl link printException.run)).get .r4 = s.pc := by
    have hlr := hserving.keeps (keeps_set (List.mem_singleton_self .lr) v link) (by decide)
    rw [← hr4, ← Cpu.get_set_of_ne v .lr link (show Reg.r4 ≠ .lr by decide)]
    exact (printException.conv _ hlr.mode hlr.sp).get (r := .r4) (by decide)
  generalize hw : v.step (.bl link printException.run) = w at hcalled hr4'
  generalize hu : (w.step (.dp .sub .r0 .r4 (.imm 4))).set .lr link' = u
  have hr0 : u.get .r0 = s.pc - 4#32 := by
    rw [← hu, ← hr4', Cpu.get_set_of_ne _ _ _ (by decide)]
    exact Cpu.get_set_self w .r0 _
  have hkeeps : Keeps [.r0, .lr] w u := by
    rw [← hu]
    exact (keeps_step (by simp [Instr.Within]) w).trans (keeps_set (by simp) _ link')
  have hserving' : Serving .svc own s s.pc swiFrame u := hcalled.keeps hkeeps (by decide)
  have hruns : (takeSwi s).runs ([.mov .sp (.imm 0x33e00000), .stmdb (general ++ [.lr]),
      .mov .r4 (.reg .lr), .mrs .r0, .mov .r1 (.imm swiString)] ++ [.bl link printException.run,
      .dp .sub .r0 .r4 (.imm 4), .bl link' printSWIVal.run]) = printSWIVal.run u := by
    rw [Cpu.runs_append, hv, ← hu, ← hw]
    rfl
  refine ⟨(printSWIVal.run u).exit (.ldmiaPc general), u, ?_, ?_, rfl, ?_⟩
  · exact congrArg (fun t : Cpu => some (t.exit (.ldmiaPc general))) hruns
  · exact (hserving'.call (printSWIVal.conv u hserving'.mode hserving'.sp)).resumed (by decide)
  · rw [swiVal, hr0, loadWord_congr fun k hk => hserving'.mem _ (hcode k hk)]
    rfl

/-- The core in user mode at the address `pc`. -/
def userCore (pc : Word) (mem : Mem) : Cpu :=
  let psr : Psr := ⟨⟨false, false, false, false⟩, false, false, false, .usr⟩
  ⟨fun _ _ => 0#32, pc, psr, fun _ => psr, mem⟩

/-- A C function that returns at once. -/
def returnOnly (m : Mode) (own : ℕ → Prop) (base : Word) : Callee m own base where
  run v := v.exit .movPcLr
  conv v _ _ := (Keeps.refl [] v).callConv (by decide) (by decide)

/-- `swi 0x123` at the address 0x104, as in start.S:201. -/
theorem doSwi_resumed_0x123 :
    ∃ t u, (doSwi (returnOnly .svc (· < 4096) swiFrame).run
        (returnOnly .svc (· < 4096) swiFrame).run 0#32 0#32 0#32).exec 0
        (takeSwi (userCore 0x108#32 (storeWord (fun _ => 0#8) 0x104 0xef000123#32))) = some t ∧
      t = ((returnOnly .svc (· < 4096) swiFrame).run u).exit (.ldmiaPc general) ∧
      swiVal u = 0x123#32 := by
  have hown : ∀ x, x < 4096 → ¬ InFrame swiFrame x := by
    rintro x hx ⟨hle, -⟩
    exact absurd (hle.trans_lt hx) (by decide)
  obtain ⟨t, u, ht, -, hcall, hval⟩ := doSwi_resumed hown (returnOnly .svc (· < 4096) swiFrame)
    (returnOnly .svc (· < 4096) swiFrame) 0#32 0#32 0#32
    (userCore 0x108#32 (storeWord (fun _ => 0#8) 0x104 0xef000123#32)) (by decide)
  refine ⟨t, u, ht, hcall, hval.trans ?_⟩
  show loadWord (storeWord (fun _ => 0#8) 0x104 0xef000123#32) 0x104 &&& 0x00ffffff#32 = 0x123#32
  rw [loadWord_storeWord_self]
  rfl

/-! ## A program in user mode -/

/-- A step of the program, or an interrupt with what `handle_irq_c` does this time. -/
inductive CoreEvent (own : ℕ → Prop)
  | step
  | irq (handleIrqC : Callee .irq own irqFrame)

def CoreEvent.isStep : CoreEvent own → Bool
  | .step => true
  | .irq _ => false

/-- The core runs a program, whose instructions do what `prog` says, or takes an interrupt
    unless they are masked. -/
def coreNext (prog : Cpu → Cpu) (link : Word) (s : Cpu) : CoreEvent own → Option Cpu
  | .step => some (prog s)
  | .irq handleIrqC =>
    if s.cpsr.i then none else (doIrq handleIrqC.run link).exec 0 (takeIrq s)

/-- What a program in user mode sees: its registers and status, and the memory at `own`. -/
structure SameView (own : ℕ → Prop) (s t : Cpu) : Prop where
  pc : t.pc = s.pc
  cpsr : t.cpsr = s.cpsr
  reg : ∀ r, t.reg .usr r = s.reg .usr r
  mem : ∀ x, own x → t.mem x = s.mem x

theorem SameView.refl (own : ℕ → Prop) (s : Cpu) : SameView own s s :=
  ⟨rfl, rfl, fun _ => rfl, fun _ _ => rfl⟩

theorem SameView.trans {t u : Cpu} (h : SameView own s t) (h' : SameView own t u) :
    SameView own s u :=
  ⟨h'.pc.trans h.pc, h'.cpsr.trans h.cpsr, fun r => (h'.reg r).trans (h.reg r),
    fun x hx => (h'.mem x hx).trans (h.mem x hx)⟩

/-- User mode with interrupts enabled, as `reset` leaves it (start.S:183-186). -/
def UserMode (s : Cpu) : Prop := s.cpsr.mode = .usr ∧ s.cpsr.i = false

/-- A program in user mode computes the same, on the memory that the handlers leave alone,
    whenever and however often it is interrupted. -/
theorem interrupts_unseen (hown : ∀ x, own x → ¬ InFrame irqFrame x) (link : Word)
    {prog : Cpu → Cpu} (huser : ∀ s, UserMode s → UserMode (prog s))
    (hprog : ∀ s t, SameView own s t → SameView own (prog s) (prog t)) (hs : UserMode s)
    (es : List (CoreEvent own)) :
    ∃ t, exec (coreNext prog link) s es = some t ∧
      SameView own (prog^[es.countP CoreEvent.isStep] s) t := by
  -- the interrupted run may have begun in another state that looks the same
  suffices h : ∀ s', UserMode s' → SameView own s s' →
      ∃ t, exec (coreNext prog link) s' es = some t ∧
        SameView own (prog^[es.countP CoreEvent.isStep] s) t from h s hs (.refl own s)
  clear hs
  induction es generalizing s with
  | nil => exact fun s' _ hview => ⟨s', rfl, hview⟩
  | cons e es ih =>
    intro s' hs' hview
    cases e with
    | step =>
      obtain ⟨t, ht, hsame⟩ := ih (s := prog s) (prog s') (huser s' hs') (hprog s s' hview)
      refine ⟨t, ht, ?_⟩
      rwa [List.countP_cons_of_pos rfl, Function.iterate_succ_apply]
    | irq handleIrqC =>
      obtain ⟨u, hu, hres⟩ := doIrq_resumed hown handleIrqC link s'
      have hsame : SameView own s' u :=
        ⟨hres.pc, hres.cpsr, fun r => hres.reg .usr r (.inl (by decide)), hres.mem⟩
      have hu' : UserMode u := by
        rw [UserMode, hres.cpsr]
        exact hs'
      obtain ⟨t, ht, hsame'⟩ := ih u hu' (hview.trans hsame)
      refine ⟨t, ?_, ?_⟩
      · simp only [exec, coreNext, hs'.2, Bool.false_eq_true, if_false, hu, Option.bind_some]
        exact ht
      · rwa [List.countP_cons_of_neg Bool.false_ne_true]

/-- A program that adds 1 to `r0` for ever. -/
def countUp (s : Cpu) : Cpu := (s.set .r0 (s.get .r0 + 1#32)).setPc s.pc

/-- A `handle_irq_c` that returns at once. -/
def idleIrq : Callee .irq (· < 4096) irqFrame := returnOnly .irq (· < 4096) irqFrame

theorem countUp_sameView (own : ℕ → Prop) (s t : Cpu) (h : SameView own s t) :
    SameView own (countUp s) (countUp t) := by
  have hbank : ∀ m : Mode, bank m .r0 = .usr := by
    intro m
    cases m <;> rfl
  have hr0 : t.get .r0 = s.get .r0 := by
    rw [Cpu.get, Cpu.get, hbank, hbank]
    exact h.reg .r0
  refine ⟨h.pc, h.cpsr, fun r => ?_, h.mem⟩
  simp only [countUp, Cpu.set, Cpu.setPc, hbank, hr0, h.reg]

theorem interrupts_unseen_countUp :
    ∃ t, exec (coreNext countUp 0#32) (userCore 0x30000000#32 fun _ => 0#8)
        [.step, .irq idleIrq, .step, .irq idleIrq] = some t ∧
      SameView (· < 4096) (countUp^[2] (userCore 0x30000000#32 fun _ => 0#8)) t := by
  have hown : ∀ x, x < 4096 → ¬ InFrame irqFrame x := by
    rintro x hx ⟨hle, -⟩
    exact absurd (hle.trans_lt hx) (by decide)
  have huser : ∀ s, UserMode s → UserMode (countUp s) := fun _ h => h
  obtain ⟨t, ht, hview⟩ := interrupts_unseen hown 0#32 huser (countUp_sameView _)
    (s := userCore 0x30000000#32 fun _ => 0#8) ⟨rfl, rfl⟩
    [.step, .irq idleIrq, .step, .irq idleIrq]
  exact ⟨t, ht, hview⟩

end Jz2440.Interrupt
