import Mathlib.Logic.Function.Basic
import Timix.Lib.Machine
import Timix.Mutex

/-!
# Nios II: the instructions of `arch/nios2/kernel/atomic.S`

Registers, the control register `status` (`ctl0`), a memory of 32-bit words at aligned addresses.
`r0` reads as 0.

* `intdis`, `inten` — the macros of `nios-macros.h`, as they are written there.
* `Call` — a call of one of the routines with its arguments; `Call.code` is the routine, its
  label `1` being position 14.
* `Entry` — the registers on entry, by the calling convention.
-/

set_option autoImplicit false

namespace Timix.Nios

abbrev Word := BitVec 32

inductive Reg where
  | r0
  | r2
  | r4
  | r5
  | r6
  | r8
  | r9
  deriving DecidableEq, Repr

inductive Instr where
  /-- `rdctl rc, ctl0`. -/
  | rdctl (rc : Reg)
  /-- `wrctl ctl0, ra`. -/
  | wrctl (ra : Reg)
  | movi (rb : Reg) (imm : Word)
  | addi (rb ra : Reg) (imm : Word)
  | and (rc ra rb : Reg)
  | or (rc ra rb : Reg)
  | nor (rc ra rb : Reg)
  /-- `ldw rb, 0(ra)`. -/
  | ldw (rb ra : Reg)
  /-- `stw rb, 0(ra)`. -/
  | stw (rb ra : Reg)
  | bne (ra rb : Reg) (label : Nat)
  | ret
  deriving DecidableEq, Repr

structure State where
  regs : Reg → Word
  status : Word
  mem : Word → Word
  ip : Nat

def State.reg (s : State) (r : Reg) : Word := if r = .r0 then 0 else s.regs r

/-- Write a register and go on to the next instruction. -/
def State.put (s : State) (r : Reg) (w : Word) : State :=
  { s with regs := Function.update s.regs r w, ip := s.ip + 1 }

open Machine (Outcome)
open Timix.Mutex

def Instr.exec (s : State) : Instr → Outcome State
  | .rdctl rc => .running (s.put rc s.status)
  | .wrctl ra => .running { s with status := s.reg ra, ip := s.ip + 1 }
  | .movi rb imm => .running (s.put rb imm)
  | .addi rb ra imm => .running (s.put rb (s.reg ra + imm))
  | .and rc ra rb => .running (s.put rc (s.reg ra &&& s.reg rb))
  | .or rc ra rb => .running (s.put rc (s.reg ra ||| s.reg rb))
  | .nor rc ra rb => .running (s.put rc (~~~(s.reg ra ||| s.reg rb)))
  | .ldw rb ra => .running (s.put rb (s.mem (s.reg ra)))
  | .stw rb ra =>
    .running { s with mem := Function.update s.mem (s.reg ra) (s.reg rb), ip := s.ip + 1 }
  | .bne ra rb label =>
    .running { s with ip := if s.reg ra ≠ s.reg rb then label else s.ip + 1 }
  | .ret => .returned s

/-- One instruction of `code`. -/
def step (code : List Instr) (s : State) : Option (Outcome State) :=
  code[s.ip]?.map (Instr.exec s)

/-- `inten rn, rm`. -/
def inten (rn rm : Reg) : List Instr :=
  [.rdctl rn, .movi rm 1, .nor rm rm .r0, .and rn rn rm, .wrctl rn]

/-- `intdis rn, rm`. -/
def intdis (rn rm : Reg) : List Instr :=
  [.rdctl rn, .movi rm 1, .or rm rm .r0, .wrctl rn]

def XCHG_FAILURE : Word := 1

/-- `atomic_swap`. -/
def atomicSwap : List Instr :=
  intdis .r8 .r9 ++ [.ldw .r2 .r4, .stw .r5 .r4] ++ inten .r8 .r9 ++ [.ret]

/-- `atomic_swap_conditional`. -/
def atomicSwapConditional : List Instr :=
  intdis .r8 .r9 ++ [.ldw .r2 .r4, .bne .r2 .r6 14, .stw .r5 .r4] ++ inten .r8 .r9 ++
    [.movi .r2 XCHG_SUCCESS, .ret] ++ inten .r8 .r9 ++ [.movi .r4 XCHG_FAILURE, .ret]

/-- `atomic_add`. -/
def atomicAdd : List Instr :=
  intdis .r8 .r9 ++ [.ldw .r2 .r4, .addi .r2 .r2 1, .stw .r2 .r4] ++ inten .r8 .r9 ++ [.ret]

inductive Call where
  | swap (val : Word)
  | swapConditional (newval oldval : Word)
  | add (val : Word)
  deriving DecidableEq, Repr

def Call.code : Call → List Instr
  | .swap _ => atomicSwap
  | .swapConditional .. => atomicSwapConditional
  | .add _ => atomicAdd

/-- The arguments in `r4`, `r5` and `r6` for a call on the word at `addr`; the other registers
    are `junk`. -/
def Call.entryRegs (addr : Word) (c : Call) (junk : Reg → Word) : Reg → Word
  | .r4 => addr
  | .r5 =>
    match c with
    | .swap val => val
    | .swapConditional newval _ => newval
    | .add val => val
  | .r6 =>
    match c with
    | .swapConditional _ oldval => oldval
    | _ => junk .r6
  | r => junk r

/-- On entry to a call, with any status and memory. -/
def Entry (addr : Word) (c : Call) (s : State) : Prop :=
  s.ip = 0 ∧ ∃ junk, s.regs = c.entryRegs addr junk

end Timix.Nios
