import Timix.Lib.Linear
import Timix.Lib.Machine
import Timix.X86

/-!
# The `lock`-prefixed atomics on several x86 processors (`arch/x86/kernel/atomic.S`)

Any number of processors run `atomic_swap`, `atomic_swap_conditional` and
`atomic_swap8_conditional` on a shared memory, one instruction a step.

* `Call` — a call with its arguments; `Call.code` is the routine.
* `Call.Documented` — the contract of `atomic.h`.
* `Alone` — a call carried out alone: the contract and the calling convention.
* `AtLock` — the instruction that takes effect is next, and what follows returns its result.

Principal result: `x86_atomics_linearizable`.
-/

set_option autoImplicit false

namespace Timix.AtomicX86

open Timix.X86
open Linear (Outcome)

inductive Call where
  | swap (mem val : Word)
  | swapConditional (mem newval oldval : Word)
  | swap8Conditional (mem newvalLo newvalHi oldvalLo oldvalHi : Word)
  deriving DecidableEq, Repr

def Call.code : Call → List Instr
  | .swap .. => atomicSwap
  | .swapConditional .. => atomicSwapConditional
  | .swap8Conditional .. => atomicSwap8Conditional

/-- The arguments, from `4(%esp)` upwards. -/
def Call.args : Call → List Word
  | .swap mem val => [mem, val]
  | .swapConditional mem newval oldval => [mem, newval, oldval]
  | .swap8Conditional mem newvalLo newvalHi oldvalLo oldvalHi =>
    [mem, newvalLo, newvalHi, oldvalLo, oldvalHi]

/-- On entry: the arguments are on the stack, everything else is `junk`. -/
def Call.entryCpu (c : Call) (junk : Cpu) : Cpu :=
  { junk with
    stack := fun off =>
      if off % 4 = 0 ∧ 0 < off then (c.args[off / 4 - 1]?).getD (junk.stack off)
      else junk.stack off
    ip := 0
    loaded := none }

/-- A processor inside a call. -/
structure Frame where
  call : Call
  cpu : Cpu

/-- An operation is a call with the registers and the stack it finds. -/
def entry (a : Call × Cpu) : Frame := ⟨a.1, a.1.entryCpu a.2⟩

/-- One instruction. -/
def next (f : Frame) (mem : Mem) : Option (Outcome Frame Mem Cpu) :=
  match f.call.code[f.cpu.ip]? with
  | none => none
  | some i =>
    match i.exec f.cpu mem with
    | .running c mem' => some (.running ⟨f.call, c⟩ mem')
    | .returned c => some (.returned c)

abbrev State (P : Type) := Linear.State P Frame Mem (Call × Cpu) Cpu

/-! ## What a call is for -/

/-- What `atomic.h` says about a call that finds `mem`, leaves `mem'` and returns `ret`. -/
def Call.Documented (mem : Mem) (ret : Word) (mem' : Mem) : Call → Prop
  | .swap a val => ret = mem a ∧ mem' = Function.update mem a val
  | .swapConditional a newval oldval =>
    (mem a = oldval ∧ ret = 0 ∧ mem' = Function.update mem a newval) ∨
      (mem a ≠ oldval ∧ ret ≠ 0 ∧ mem' = mem)
  | .swap8Conditional a newvalLo newvalHi oldvalLo oldvalHi =>
    ((mem a = oldvalLo ∧ mem (a + 4) = oldvalHi) ∧ ret = 0 ∧
      mem' = Function.update (Function.update mem a newvalLo) (a + 4) newvalHi) ∨
      (¬ (mem a = oldvalLo ∧ mem (a + 4) = oldvalHi) ∧ ret ≠ 0 ∧ mem' = mem)

/-- A call carried out alone: it keeps its contract, and it gives the stack and the registers that
belong to the caller back as they were. -/
structure Alone (mem : Mem) (a : Call × Cpu) (out : Cpu) (mem' : Mem) : Prop where
  documented : a.1.Documented mem (out.regs .eax) mem'
  ebx : out.regs .ebx = a.2.regs .ebx
  edi : out.regs .edi = a.2.regs .edi
  stack : out.stack = (a.1.entryCpu a.2).stack

/-! ## Private instructions -/

/-- One instruction that does not look at the memory. -/
def quiet (code : List Instr) (c : Cpu) : Option (Machine.Outcome Cpu) :=
  match code[c.ip]? with
  | none => none
  | some i =>
    if i.accesses then none
    else
      match i.exec c fun _ => 0 with
      | .running c' _ => some (.running c')
      | .returned c' => some (.returned c')

/-- An outcome of the private machine, on a memory that it leaves alone. -/
def Call.onto (call : Call) (mem : Mem) : Machine.Outcome Cpu → Outcome Frame Mem Cpu
  | .running c => .running ⟨call, c⟩ mem
  | .returned c => .returned c

/-- A private step is a step. -/
theorem next_of_quiet {f : Frame} {o : Machine.Outcome Cpu} (h : quiet f.call.code f.cpu = some o)
    (mem : Mem) : next f mem = some (f.call.onto mem o) := by
  unfold quiet at h
  unfold next
  split at h
  · cases h
  rename_i i hi
  split at h
  · cases h
  rename_i hl
  cases i with
  | lockXchg | lockCmpxchg | lockCmpxchg8b | xaddl => exact absurd rfl hl
  | _ => cases h; rfl

/-- The instruction that takes effect is next; whatever it finds, the private instructions behind
it return what the call alone would. -/
def AtLock (a : Call × Cpu) (c : Cpu) : Prop :=
  ∃ i, a.1.code[c.ip]? = some i ∧ i.locked = true ∧
    ∀ mem, ∃ c' mem' out, i.exec c mem = .running c' mem' ∧
      Machine.Returns (quiet a.1.code) c' out ∧ Alone mem a out mem'

/-- Private instructions lead to the one that takes effect. -/
structure Before (f : Frame) (a : Call × Cpu) : Prop where
  call : f.call = a.1
  reaches : ∃ c, Machine.Reaches (quiet a.1.code) f.cpu c ∧ AtLock a c

/-- Private instructions lead to the return. -/
def After (f : Frame) (out : Cpu) : Prop := Machine.Returns (quiet f.call.code) f.cpu out

/-! ## The three routines -/

section Routines

variable (junk : Cpu)

theorem swap_before (a val : Word) :
    Before (entry (.swap a val, junk)) (.swap a val, junk) := by
  refine ⟨rfl, _, ⟨2, rfl⟩, _, rfl, rfl, ?_⟩
  intro mem
  exact ⟨_, _, _, rfl, ⟨1, rfl⟩, ⟨rfl, rfl⟩, rfl, rfl, rfl⟩

theorem swapConditional_before (a newval oldval : Word) :
    Before (entry (.swapConditional a newval oldval, junk))
      (.swapConditional a newval oldval, junk) := by
  refine ⟨rfl, _, ⟨3, rfl⟩, _, rfl, rfl, ?_⟩
  intro mem
  by_cases h : oldval = mem a
  · exact ⟨_, _, _, if_pos h, ⟨3, rfl⟩, Or.inl ⟨h.symm, rfl, rfl⟩, rfl, rfl, rfl⟩
  · exact ⟨_, _, _, if_neg h, ⟨3, rfl⟩, Or.inr ⟨Ne.symm h, (by decide : (1 : Word) ≠ 0), rfl⟩,
      rfl, rfl, rfl⟩

theorem swap8Conditional_before (a newvalLo newvalHi oldvalLo oldvalHi : Word) :
    Before (entry (.swap8Conditional a newvalLo newvalHi oldvalLo oldvalHi, junk))
      (.swap8Conditional a newvalLo newvalHi oldvalLo oldvalHi, junk) := by
  refine ⟨rfl, _, ⟨7, rfl⟩, _, rfl, rfl, ?_⟩
  intro mem
  by_cases h : oldvalLo = mem a ∧ oldvalHi = mem (a + 4)
  · exact ⟨_, _, _, if_pos h, ⟨5, rfl⟩, Or.inl ⟨⟨h.1.symm, h.2.symm⟩, rfl, rfl⟩, rfl, rfl, rfl⟩
  · refine ⟨_, _, _, if_neg h, ⟨5, rfl⟩, Or.inr ⟨?_, (by decide : (1 : Word) ≠ 0), rfl⟩,
      rfl, rfl, rfl⟩
    rintro ⟨hlo, hhi⟩
    exact h ⟨hlo.symm, hhi.symm⟩

end Routines

theorem entry_before : ∀ a : Call × Cpu, Before (entry a) a
  | (.swap a val, junk) => swap_before junk a val
  | (.swapConditional a newval oldval, junk) => swapConditional_before junk a newval oldval
  | (.swap8Conditional a newvalLo newvalHi oldvalLo oldvalHi, junk) =>
    swap8Conditional_before junk a newvalLo newvalHi oldvalLo oldvalHi

/-! ## One step -/

/-- **The step that takes effect is the `lock`-prefixed one.** -/
theorem points : Linear.Points Alone entry next Before After where
  entry := entry_before
  before := by
    rintro f mem a o ⟨hcall, c, ⟨n, hn⟩, hlock⟩ ho
    cases n with
    | zero =>
      obtain rfl : f.cpu = c := Option.some.inj hn
      obtain ⟨i, hi, -, heff⟩ := hlock
      obtain ⟨c', mem', out, hexec, hret, halone⟩ := heff mem
      unfold next at ho
      simp only [hcall, hi, hexec] at ho
      cases ho
      exact ⟨_, _, rfl, Or.inr ⟨out, halone, hret⟩⟩
    | succ n =>
      rw [Machine.steps] at hn
      split at hn
      · rename_i c' hq
        rw [next_of_quiet (hcall ▸ hq)] at ho
        cases ho
        exact ⟨_, _, rfl, Or.inl ⟨rfl, hcall, c, ⟨n, hn⟩, hlock⟩⟩
      · cases hn
  after := by
    intro f mem out o hret ho
    rcases Machine.Returns.step_cases hret with ⟨c', hq, hret'⟩ | hq
    · rw [next_of_quiet hq] at ho
      cases ho
      exact Or.inl ⟨_, rfl, hret'⟩
    · rw [next_of_quiet hq] at ho
      cases ho
      exact Or.inr rfl

/-- Position `k` goes on to a later position of the code, unless it returns. -/
def forward (code : List Instr) (k : Nat) : Bool :=
  match code[k]? with
  | some .ret => true
  | some (.xaddl ..) => false
  | some (.jnz label) => k + 1 < code.length && k < label && label < code.length
  | _ => k + 1 < code.length

theorem code_forward (call : Call) : ∀ k < call.code.length, forward call.code k = true := by
  cases call with
  | swap =>
    change ∀ k < atomicSwap.length, forward atomicSwap k = true
    decide
  | swapConditional =>
    change ∀ k < atomicSwapConditional.length, forward atomicSwapConditional k = true
    decide
  | swap8Conditional =>
    change ∀ k < atomicSwap8Conditional.length, forward atomicSwap8Conditional k = true
    decide

theorem exec_ip {i : Instr} {c c' : Cpu} {mem mem' : Mem}
    (hx : ∀ src addr, i ≠ .xaddl src addr) (h : i.exec c mem = .running c' mem') :
    i ≠ .ret ∧ (c'.ip = c.ip + 1 ∨ ∃ label, i = .jnz label ∧ c'.ip = label) := by
  cases i with
  | xaddl src addr => exact absurd rfl (hx src addr)
  | jnz label =>
    cases h
    refine ⟨by simp, ?_⟩
    split
    · exact Or.inl rfl
    · exact Or.inr ⟨label, rfl, rfl⟩
  | lockCmpxchg | lockCmpxchg8b =>
    simp only [Instr.exec] at h
    split at h
    · cases h; exact ⟨by simp, Or.inl rfl⟩
    · cases h; exact ⟨by simp, Or.inl rfl⟩
  | ret => cases h
  | _ => cases h; exact ⟨by simp, Or.inl rfl⟩

theorem forward_exec {code : List Instr} {i : Instr} {c c' : Cpu} {mem mem' : Mem}
    (hfwd : forward code c.ip = true) (hi : code[c.ip]? = some i)
    (h : i.exec c mem = .running c' mem') : c.ip < c'.ip ∧ c'.ip < code.length := by
  unfold forward at hfwd
  rw [hi] at hfwd
  have hx : ∀ src addr, i ≠ .xaddl src addr := by
    rintro src addr rfl
    cases hfwd
  obtain ⟨hret, hip⟩ := exec_ip hx h
  rcases hip with hip | ⟨label, rfl, hip⟩
  · have hnext : c.ip + 1 < code.length := by
      cases i with
      | ret => exact absurd rfl hret
      | xaddl src addr => exact absurd rfl (hx src addr)
      | jnz label =>
        simp only [Bool.and_eq_true, decide_eq_true_eq] at hfwd
        exact hfwd.1.1
      | _ => exact of_decide_eq_true hfwd
    omega
  · simp only [Bool.and_eq_true, decide_eq_true_eq] at hfwd
    omega

/-- **Every instruction goes forward.** -/
theorem ranked : Linear.Ranked entry next (fun f => f.cpu.ip < f.call.code.length)
    fun f => f.call.code.length - 1 - f.cpu.ip where
  entry a := by
    obtain ⟨c, junk⟩ := a
    cases c <;> exact Nat.zero_lt_succ _
  next := by
    intro f mem hok
    have hfwd := code_forward f.call f.cpu.ip hok
    obtain ⟨i, hi⟩ : ∃ i, f.call.code[f.cpu.ip]? = some i := ⟨_, List.getElem?_eq_getElem hok⟩
    unfold next
    simp only [hi]
    split
    · rename_i c mem' hexec
      refine ⟨_, rfl, ?_⟩
      rintro _ _ ⟨⟩
      obtain ⟨hlt, hlen⟩ := forward_exec hfwd hi hexec
      exact ⟨hlen, by dsimp only; omega⟩
    · refine ⟨_, rfl, ?_⟩
      rintro _ _ ⟨⟩

theorem code_length_le (call : Call) : call.code.length ≤ 17 := by
  cases call with
  | swap => exact Nat.le_of_ble_eq_true rfl
  | swapConditional => exact Nat.le_of_ble_eq_true rfl
  | swap8Conditional => exact Nat.le_of_ble_eq_true rfl

variable {P : Type} [DecidableEq P]

/-- **The `lock`-prefixed atomics on x86 are linearizable and wait-free.**  Whatever the
interleaving of the instructions of any number of processors, their calls and returns are those of
an object that carries every call out alone, by its documentation and the calling convention, at
one instant between the call and its return; and a processor inside a call has returned once it has
taken 17 further steps, whatever the others do. -/
theorem x86_atomics_linearizable (mem : Mem) (es : List (Linear.Event P (Call × Cpu)))
    {s : State P} (h : Lts.exec (Linear.step entry next) (Linear.start mem) es = some s) :
    Linear.Linearizable Alone mem s.hist s.shared ∧
    ∀ p f, s.loc p = some f → ∀ (es' : List (Linear.Event P (Call × Cpu))) (t : State P),
      Lts.exec (Linear.step entry next) s es' = some t →
      17 ≤ es'.countP (Linear.Event.isRun p) →
      ∃ out, .ret p out ∈ t.hist.drop s.hist.length := by
  refine ⟨points.linearizable h, ?_⟩
  intro p f hf es' t ht hcount
  refine ranked.returns (ranked.allOk h) hf ?_ ht
  have hlen := code_length_le f.call
  omega

/-- Processor `p` swaps 8 bytes at 64, processor `q` the upper 4 of them, just before. -/
def overlap {P : Type} (p q : P) : List (Linear.Event P (Call × Cpu)) :=
  .call p (.swap8Conditional 64 1 2 0 0, junkCpu) :: List.replicate 7 (.run p) ++
    .call q (.swap 68 5, junkCpu) :: List.replicate 4 (.run q) ++ List.replicate 6 (.run p)

theorem overlap_linearizable : ∃ s : State (Fin 2),
    Lts.exec (Linear.step entry next) (Linear.start fun _ => 0) (overlap 0 1) = some s ∧
      s.shared 64 = 0 ∧ s.shared 68 = 5 ∧ (∀ p, (s.loc p).isNone) ∧
      Linear.Linearizable Alone (fun _ => 0) s.hist s.shared :=
  ⟨_, rfl, rfl, rfl, by decide, (x86_atomics_linearizable (fun _ => 0) (overlap 0 1) rfl).1⟩

end Timix.AtomicX86
