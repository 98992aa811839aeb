import Mathlib.Logic.Function.Basic
import Timix.Lib.Machine

/-!
# ARM: the instructions of `arch/arm/kernel/atomic.S` and `head.S`

Every instruction carries a condition on the flags; one whose condition fails does nothing.
`ldrex` opens the local exclusive monitor at an address and `strex` stores only while it is open
there.  An otherwise possible `strex` may fail: `spurious` lists what happens at the following
ones, `true` for a failure, and after its end they all succeed.  `ldrexd` and `strexd` are the
same with two words.  Memory is a map from the addresses of words; the code uses aligned addresses
only, so that distinct words do not overlap.

* `atomicSwapConditional` — the routine, `1b` and `1f` being positions 0 and 8.
* `atomicSwap8Conditional` — `1b` and `1f` are positions 2 and 12.
* `atomicSwap`, `atomicAdd` — `1b` is position 0.
-/

set_option autoImplicit false

namespace Timix.Arm

abbrev Word := BitVec 32

inductive Reg where
  | r0
  | r1
  | r2
  | r3
  | r4
  | r5
  | r6
  | r7
  | r8
  | r10
  | sp
  | lr
  deriving DecidableEq, Repr

structure Flags where
  n : Bool
  z : Bool
  c : Bool
  v : Bool
  deriving DecidableEq, Repr

inductive Cond where
  | al
  | eq
  | ne
  | ge
  deriving DecidableEq, Repr

def Cond.holds (f : Flags) : Cond → Bool
  | .al => true
  | .eq => f.z
  | .ne => !f.z
  | .ge => f.n == f.v

@[simp] theorem Cond.holds_al (f : Flags) : Cond.al.holds f = true := rfl

/-- The flexible second operand. -/
inductive Operand where
  | reg (r : Reg)
  | imm (w : Word)
  deriving DecidableEq, Repr

inductive Op where
  /-- `ldrex rt, [rn]`. -/
  | ldrex (rt rn : Reg)
  /-- `strex rd, rt, [rn]`. -/
  | strex (rd rt rn : Reg)
  | clrex
  /-- `ldrexd rt, rt2, [rn]`. -/
  | ldrexd (rt rt2 rn : Reg)
  /-- `strexd rd, rt, rt2, [rn]`. -/
  | strexd (rd rt rt2 rn : Reg)
  /-- `ldr rt, [rn, #offset]`. -/
  | ldr (rt rn : Reg) (offset : Word)
  /-- `ldr rt, =w`. -/
  | ldrConst (rt : Reg) (w : Word)
  /-- `str rt, [rn, #offset]`. -/
  | str (rt rn : Reg) (offset : Word)
  /-- `stmdb rn!, {regs}`. -/
  | stmdb (rn : Reg) (regs : List Reg)
  /-- `ldmia rn!, {regs}`. -/
  | ldmia (rn : Reg) (regs : List Reg)
  | cmp (rn : Reg) (op2 : Operand)
  | mov (rd : Reg) (op2 : Operand)
  | add (rd rn : Reg) (op2 : Operand)
  | sub (rd rn : Reg) (op2 : Operand)
  | bic (rd rn : Reg) (op2 : Operand)
  | orr (rd rn : Reg) (op2 : Operand)
  /-- `lsr rd, rn, #shift`. -/
  | lsr (rd rn : Reg) (shift : Nat)
  | b (label : Nat)
  /-- `bx lr`. -/
  | bxLr
  deriving DecidableEq, Repr

structure Instr where
  op : Op
  cond : Cond
  deriving DecidableEq, Repr

structure State where
  regs : Reg → Word
  flags : Flags
  monitor : Option Word
  mem : Word → Word
  spurious : List Bool
  ip : Nat

def State.setReg (s : State) (r : Reg) (w : Word) : State :=
  { s with regs := Function.update s.regs r w }

/-- Load `rs` from the words at `a` and above, the lowest register first. -/
def State.loadMultiple (s : State) (a : Word) : List Reg → State
  | [] => s
  | r :: rs => (s.setReg r (s.mem a)).loadMultiple (a + 4) rs

/-- Store `rs` in the words at `a` and above, the lowest register first. -/
def State.storeMultiple (s : State) (a : Word) : List Reg → State
  | [] => s
  | r :: rs => { s with mem := Function.update s.mem a (s.regs r) }.storeMultiple (a + 4) rs

theorem State.storeMultiple_eq (s : State) (a : Word) (rs : List Reg) :
    s.storeMultiple a rs = { s with mem := (s.storeMultiple a rs).mem } := by
  induction rs generalizing s a with
  | nil => rfl
  | cons r rs ih => exact ih { s with mem := Function.update s.mem a (s.regs r) } (a + 4)

@[simp] theorem State.storeMultiple_regs (s : State) (a : Word) (rs : List Reg) :
    (s.storeMultiple a rs).regs = s.regs := by rw [s.storeMultiple_eq]

@[simp] theorem State.storeMultiple_ip (s : State) (a : Word) (rs : List Reg) :
    (s.storeMultiple a rs).ip = s.ip := by rw [s.storeMultiple_eq]

@[simp] theorem State.storeMultiple_flags (s : State) (a : Word) (rs : List Reg) :
    (s.storeMultiple a rs).flags = s.flags := by rw [s.storeMultiple_eq]

@[simp] theorem State.storeMultiple_spurious (s : State) (a : Word) (rs : List Reg) :
    (s.storeMultiple a rs).spurious = s.spurious := by rw [s.storeMultiple_eq]

theorem State.loadMultiple_eq (s : State) (a : Word) (rs : List Reg) :
    s.loadMultiple a rs = { s with regs := (s.loadMultiple a rs).regs } := by
  induction rs generalizing s a with
  | nil => rfl
  | cons r rs ih => exact ih (s.setReg r (s.mem a)) (a + 4)

/-- The size of a list of registers in memory. -/
def size (regs : List Reg) : Word := BitVec.ofNat 32 (4 * regs.length)

def State.next (s : State) : State := { s with ip := s.ip + 1 }

section Fields

variable (s : State) (r : Reg) (w : Word)

@[simp] theorem State.setReg_regs_self : (s.setReg r w).regs r = w := Function.update_self ..

@[simp] theorem State.setReg_regs_ne {r' : Reg} (h : r' ≠ r) : (s.setReg r w).regs r' = s.regs r' :=
  Function.update_of_ne h ..

@[simp] theorem State.setReg_flags : (s.setReg r w).flags = s.flags := rfl

@[simp] theorem State.setReg_mem : (s.setReg r w).mem = s.mem := rfl

@[simp] theorem State.setReg_ip : (s.setReg r w).ip = s.ip := rfl

@[simp] theorem State.next_regs : s.next.regs = s.regs := rfl

@[simp] theorem State.next_flags : s.next.flags = s.flags := rfl

@[simp] theorem State.next_mem : s.next.mem = s.mem := rfl

@[simp] theorem State.next_ip : s.next.ip = s.ip + 1 := rfl

end Fields

def Operand.eval (s : State) : Operand → Word
  | .reg r => s.regs r
  | .imm w => w

/-- The flags after `cmp a, b`. -/
def cmpFlags (a b : Word) : Flags where
  n := (a - b).msb
  z := a == b
  c := decide (b ≤ a)
  v := a.msb != b.msb && (a - b).msb != a.msb

open Machine (Outcome)

/-- The effect of an operation that is carried out. -/
def Op.exec (s : State) : Op → Outcome State
  | .ldrex rt rn =>
    .running ({ s with monitor := some (s.regs rn) }.setReg rt (s.mem (s.regs rn))).next
  | .strex rd rt rn =>
    if s.monitor = some (s.regs rn) ∧ s.spurious.head?.getD false = false then
      .running ({ s with
        mem := Function.update s.mem (s.regs rn) (s.regs rt)
        monitor := none
        spurious := s.spurious.tail }.setReg rd 0).next
    else .running ({ s with monitor := none, spurious := s.spurious.tail }.setReg rd 1).next
  | .clrex => .running { s with monitor := none }.next
  | .ldrexd rt rt2 rn =>
    .running (({ s with monitor := some (s.regs rn) }.setReg rt (s.mem (s.regs rn))).setReg rt2
      (s.mem (s.regs rn + 4))).next
  | .strexd rd rt rt2 rn =>
    if s.monitor = some (s.regs rn) ∧ s.spurious.head?.getD false = false then
      .running ({ s with
        mem := Function.update (Function.update s.mem (s.regs rn) (s.regs rt))
          (s.regs rn + 4) (s.regs rt2)
        monitor := none
        spurious := s.spurious.tail }.setReg rd 0).next
    else .running ({ s with monitor := none, spurious := s.spurious.tail }.setReg rd 1).next
  | .ldr rt rn offset => .running (s.setReg rt (s.mem (s.regs rn + offset))).next
  | .ldrConst rt w => .running (s.setReg rt w).next
  | .str rt rn offset =>
    .running { s with mem := Function.update s.mem (s.regs rn + offset) (s.regs rt) }.next
  | .stmdb rn regs =>
    .running ((s.storeMultiple (s.regs rn - size regs) regs).setReg rn
      (s.regs rn - size regs)).next
  | .ldmia rn regs =>
    .running ((s.loadMultiple (s.regs rn) regs).setReg rn (s.regs rn + size regs)).next
  | .cmp rn op2 => .running { s with flags := cmpFlags (s.regs rn) (op2.eval s) }.next
  | .mov rd op2 => .running (s.setReg rd (op2.eval s)).next
  | .add rd rn op2 => .running (s.setReg rd (s.regs rn + op2.eval s)).next
  | .sub rd rn op2 => .running (s.setReg rd (s.regs rn - op2.eval s)).next
  | .bic rd rn op2 => .running (s.setReg rd (s.regs rn &&& ~~~op2.eval s)).next
  | .orr rd rn op2 => .running (s.setReg rd (s.regs rn ||| op2.eval s)).next
  | .lsr rd rn shift => .running (s.setReg rd (s.regs rn >>> shift)).next
  | .b label => .running { s with ip := label }
  | .bxLr => .returned s

/-- The registers an operation may write. -/
def Op.dests : Op → List Reg
  | .ldrex rt _ => [rt]
  | .strex rd _ _ => [rd]
  | .ldrexd rt rt2 _ => [rt, rt2]
  | .strexd rd _ _ _ => [rd]
  | .ldr rt _ _ => [rt]
  | .ldrConst rt _ => [rt]
  | .stmdb rn _ => [rn]
  | .ldmia rn regs => rn :: regs
  | .mov rd _ => [rd]
  | .add rd _ _ => [rd]
  | .sub rd _ _ => [rd]
  | .bic rd _ _ => [rd]
  | .orr rd _ _ => [rd]
  | .lsr rd _ _ => [rd]
  | _ => []

/-- One instruction of `code`. -/
def step (code : List Instr) (s : State) : Option (Outcome State) :=
  code[s.ip]?.map fun i => if i.cond.holds s.flags then i.op.exec s else .running s.next

/-! ## Registers that code leaves alone -/

section Frame

variable {r : Reg} {s t : State}

theorem State.loadMultiple_regs (a : Word) {rs : List Reg} (hr : r ∉ rs) :
    (s.loadMultiple a rs).regs r = s.regs r := by
  induction rs generalizing s a with
  | nil => rfl
  | cons r' rs ih =>
    rw [List.mem_cons, not_or] at hr
    exact (ih (a + 4) hr.2).trans (s.setReg_regs_ne _ _ hr.1)

theorem Op.exec_regs {op : Op} (hr : r ∉ op.dests) : (op.exec s).state.regs r = s.regs r := by
  cases op with
  | strex rd rt rn =>
    simp only [Op.dests, List.mem_singleton] at hr
    rw [Op.exec]
    split <;> simp [Outcome.state, hr]
  | strexd rd rt rt2 rn =>
    simp only [Op.dests, List.mem_singleton] at hr
    rw [Op.exec]
    split <;> simp [Outcome.state, hr]
  | ldrexd rt rt2 rn =>
    simp only [Op.dests, List.mem_cons, List.not_mem_nil, or_false, not_or] at hr
    simp [Op.exec, Outcome.state, hr.1, hr.2]
  | ldmia rn regs =>
    simp only [Op.dests, List.mem_cons, not_or] at hr
    simp [Op.exec, Outcome.state, hr.1, State.loadMultiple_regs _ hr.2]
  | _ => simp_all [Op.exec, Op.dests, Outcome.state]

theorem step_regs {code : List Instr} (hr : ∀ i ∈ code, r ∉ i.op.dests) {o : Outcome State}
    (h : step code s = some o) : o.state.regs r = s.regs r := by
  unfold step at h
  cases hi : code[s.ip]? with
  | none =>
    rw [hi] at h
    cases h
  | some i =>
    rw [hi, Option.map_some, Option.some.injEq] at h
    subst h
    split
    · exact Op.exec_regs (hr i (List.mem_of_getElem? hi))
    · rfl

/-- A register that no instruction writes has its old value on return. -/
theorem returns_regs_eq {code : List Instr} (hr : ∀ i ∈ code, r ∉ i.op.dests)
    (h : Machine.Returns (step code) s t) : t.regs r = s.regs r := by
  refine Machine.Returns.of_invariant (I := fun u : State => u.regs r = s.regs r)
    (Q := fun u : State => u.regs r = s.regs r) ?_ ?_ rfl h
  · intro u v hI hstep
    exact (step_regs hr hstep).trans hI
  · intro u v hI hstep
    exact (step_regs hr hstep).trans hI

end Frame

/-- `atomic_swap_conditional`. -/
def atomicSwapConditional : List Instr :=
  [⟨.ldrex .r3 .r0, .al⟩,
   ⟨.cmp .r2 (.reg .r3), .eq⟩,
   ⟨.b 8, .eq⟩,
   ⟨.strex .r3 .r1 .r0, .al⟩,
   ⟨.cmp .r3 (.imm 0), .al⟩,
   ⟨.b 0, .ne⟩,
   ⟨.mov .r0 (.imm 0), .al⟩,
   ⟨.bxLr, .al⟩,
   ⟨.clrex, .al⟩,
   ⟨.mov .r0 (.imm 1), .al⟩,
   ⟨.bxLr, .al⟩]

/-- `atomic_swap8_conditional`. -/
def atomicSwap8Conditional : List Instr :=
  [⟨.stmdb .sp [.r4, .r5, .r6, .r7], .al⟩,
   ⟨.ldr .r4 .sp 0x14, .al⟩,
   ⟨.ldrexd .r6 .r7 .r0, .al⟩,
   ⟨.cmp .r3 (.reg .r6), .al⟩,
   ⟨.cmp .r4 (.reg .r7), .eq⟩,
   ⟨.b 12, .ne⟩,
   ⟨.strexd .r5 .r6 .r7 .r0, .al⟩,
   ⟨.cmp .r5 (.imm 0), .al⟩,
   ⟨.b 2, .ne⟩,
   ⟨.mov .r0 (.imm 0), .al⟩,
   ⟨.ldmia .sp [.r4, .r6], .al⟩,
   ⟨.bxLr, .al⟩,
   ⟨.clrex, .al⟩,
   ⟨.mov .r0 (.imm 1), .al⟩,
   ⟨.ldmia .sp [.r4, .r5, .r6, .r7], .al⟩,
   ⟨.bxLr, .al⟩]

/-- `atomic_swap`. -/
def atomicSwap : List Instr :=
  [⟨.ldrex .r2 .r0, .al⟩,
   ⟨.strex .r3 .r1 .r0, .al⟩,
   ⟨.cmp .r3 (.imm 0), .eq⟩,
   ⟨.b 0, .ne⟩,
   ⟨.mov .r0 (.reg .r2), .al⟩,
   ⟨.bxLr, .al⟩]

/-- `atomic_add`. -/
def atomicAdd : List Instr :=
  [⟨.ldrex .r2 .r0, .al⟩,
   ⟨.add .r2 .r2 (.reg .r1), .al⟩,
   ⟨.strex .r3 .r2 .r0, .al⟩,
   ⟨.cmp .r3 (.imm 0), .eq⟩,
   ⟨.b 0, .ne⟩,
   ⟨.mov .r0 (.reg .r2), .al⟩,
   ⟨.bxLr, .al⟩]

end Timix.Arm
