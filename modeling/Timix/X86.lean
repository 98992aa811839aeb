import Mathlib.Logic.Function.Basic
import Timix.Lib.Linear

/-!
# x86: the routines of `arch/x86/kernel/atomic.S`

The instructions that `atomic.S` uses, on a private register file, zero flag and stack, and a
shared memory of 32-bit words.  Memory is a map from the addresses of words; what the routines are
given is aligned, so that distinct words do not overlap.  An 8-byte operand is the word at its
address and the one 4 above.

One `Instr.exec` is one instruction; a `lock`-prefixed instruction reads and writes memory in one
indivisible step.  An `xaddl` without the prefix takes two: it reads the word in one step and
writes it back in another.

* `Cpu.stack off` — the word at `off(%esp)`; `pushl` and `popl` move it by 4.
* `Cpu.loaded` — what an `xaddl` has read and not written back yet.
* `Cpu.step` — one step of a routine; `ret` hands the registers to the caller.
* `atomicSwap`, `atomicSwapConditional`, `atomicSwap8Conditional`, `atomicAdd` — the routines, their
  labels as list positions.
-/

set_option autoImplicit false

namespace Timix.X86

open Linear (Outcome)

abbrev Word := BitVec 32

/-- The shared memory, one word an address. -/
abbrev Mem := Word → Word

inductive Reg where
  | eax
  | ebx
  | ecx
  | edx
  | edi
  deriving DecidableEq, Repr

inductive Instr where
  /-- `movl off(%esp), dst`. -/
  | movStack (off : Nat) (dst : Reg)
  /-- `movl $imm, dst`. -/
  | movImm (imm : Word) (dst : Reg)
  | pushl (src : Reg)
  | popl (dst : Reg)
  /-- `lock xchgl src, (addr)`. -/
  | lockXchg (src addr : Reg)
  /-- `lock cmpxchgl src, (addr)`. -/
  | lockCmpxchg (src addr : Reg)
  /-- `lock cmpxchg8b (addr)`. -/
  | lockCmpxchg8b (addr : Reg)
  /-- `xaddl src, (addr)`. -/
  | xaddl (src addr : Reg)
  | jnz (label : Nat)
  | ret
  deriving DecidableEq, Repr

def Instr.locked : Instr → Bool
  | .lockXchg .. | .lockCmpxchg .. | .lockCmpxchg8b _ => true
  | _ => false

/-- The instruction looks at the shared memory. -/
def Instr.accesses : Instr → Bool
  | .xaddl .. => true
  | i => i.locked

/-- Private state of a processor inside a routine. -/
structure Cpu where
  regs : Reg → Word
  zf : Bool
  stack : Nat → Word
  ip : Nat
  loaded : Option Word

def Cpu.setReg (c : Cpu) (r : Reg) (w : Word) : Cpu :=
  { c with regs := Function.update c.regs r w }

def Cpu.next (c : Cpu) : Cpu := { c with ip := c.ip + 1 }

section Fields

variable (c : Cpu) (r : Reg) (w : Word)

@[simp] theorem Cpu.setReg_regs : (c.setReg r w).regs = Function.update c.regs r w := rfl
@[simp] theorem Cpu.setReg_stack : (c.setReg r w).stack = c.stack := rfl
@[simp] theorem Cpu.setReg_ip : (c.setReg r w).ip = c.ip := rfl
@[simp] theorem Cpu.setReg_loaded : (c.setReg r w).loaded = c.loaded := rfl
@[simp] theorem Cpu.next_regs : c.next.regs = c.regs := rfl
@[simp] theorem Cpu.next_stack : c.next.stack = c.stack := rfl
@[simp] theorem Cpu.next_ip : c.next.ip = c.ip + 1 := rfl
@[simp] theorem Cpu.next_loaded : c.next.loaded = c.loaded := rfl

end Fields

def Cpu.push (c : Cpu) (w : Word) : Cpu :=
  { c with stack := fun off => if off < 4 then w else c.stack (off - 4) }

def Cpu.pop (c : Cpu) : Cpu := { c with stack := fun off => c.stack (off + 4) }

def Instr.exec (c : Cpu) (mem : Mem) : Instr → Outcome Cpu Mem Cpu
  | .movStack off dst => .running (c.setReg dst (c.stack off)).next mem
  | .movImm imm dst => .running (c.setReg dst imm).next mem
  | .pushl src => .running (c.push (c.regs src)).next mem
  | .popl dst => .running (c.pop.setReg dst (c.stack 0)).next mem
  | .lockXchg src addr =>
    .running (c.setReg src (mem (c.regs addr))).next
      (Function.update mem (c.regs addr) (c.regs src))
  | .lockCmpxchg src addr =>
    let dest := mem (c.regs addr)
    if c.regs .eax = dest then
      .running { c with zf := true }.next (Function.update mem (c.regs addr) (c.regs src))
    else .running ({ c with zf := false }.setReg .eax dest).next mem
  | .lockCmpxchg8b addr =>
    let lo := mem (c.regs addr)
    let hi := mem (c.regs addr + 4)
    if c.regs .eax = lo ∧ c.regs .edx = hi then
      .running { c with zf := true }.next
        (Function.update (Function.update mem (c.regs addr) (c.regs .ebx)) (c.regs addr + 4)
          (c.regs .ecx))
    else .running (({ c with zf := false }.setReg .eax lo).setReg .edx hi).next mem
  | .xaddl src addr =>
    match c.loaded with
    | none => .running { c with loaded := some (mem (c.regs addr)) } mem
    | some old =>
      let sum := old + c.regs src
      .running ({ c with zf := sum == 0, loaded := none }.setReg src old).next
        (Function.update mem (c.regs addr) sum)
  | .jnz label => .running (if c.zf then c.next else { c with ip := label }) mem
  | .ret => .returned c

/-- One step of `code`. -/
def Cpu.step (code : List Instr) (c : Cpu) (mem : Mem) : Option (Outcome Cpu Mem Cpu) :=
  code[c.ip]?.map (Instr.exec c mem)

/-- What some caller left behind. -/
def junkCpu : Cpu := ⟨fun _ => 7, true, fun _ => 9, 7, some 7⟩

/-- `atomic_swap`. -/
def atomicSwap : List Instr :=
  [.movStack 4 .ecx, .movStack 8 .eax, .lockXchg .eax .ecx, .ret]

/-- `atomic_swap_conditional`; `no_xchg` is position 7. -/
def atomicSwapConditional : List Instr :=
  [.movStack 12 .eax, .movStack 8 .ecx, .movStack 4 .edx, .lockCmpxchg .ecx .edx, .jnz 7,
    .movImm 0 .eax, .ret, .movImm 1 .eax, .ret]

/-- `atomic_swap8_conditional`; `no_xchg8b` is position 13. -/
def atomicSwap8Conditional : List Instr :=
  [.pushl .ebx, .pushl .edi, .movStack 12 .edi, .movStack 16 .ebx, .movStack 20 .ecx,
    .movStack 24 .eax, .movStack 28 .edx, .lockCmpxchg8b .edi, .jnz 13, .movImm 0 .eax,
    .popl .edi, .popl .ebx, .ret, .movImm 1 .eax, .popl .edi, .popl .ebx, .ret]

/-- `atomic_add`. -/
def atomicAdd : List Instr :=
  [.movStack 4 .ecx, .movStack 8 .eax, .xaddl .eax .ecx, .ret]

end Timix.X86
