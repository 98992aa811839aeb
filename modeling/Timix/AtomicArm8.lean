import Mathlib.Data.BitVec
import Timix.Arm

/-!
# The ARM 8-byte compare-and-swap (`arch/arm/kernel/atomic.S`)

The caller passes the low and high words of the new value in `r1` and `r2`, the low word of the
old value in `r3` and its high word on the stack.

* `Entry8`, `Contract8` — the state on entry, and what `atomic.h` and the calling convention ask.
* `reaches_loop` — `r4` receives the word above the fifth argument, called `stacked` here.
* `loop_equal` — when `*mem` is `stacked : oldlo`, the routine stores back what it read, returns 0
  and leaves `sp` 8 bytes low; this after any number of failing `strexd`.
* `mismatch_returns` — otherwise it returns 1 with everything as on entry.

Principal result: `arm_swap8_conditional_contract_iff`.
-/

set_option autoImplicit false

namespace Timix.Arm

open Machine

/-- The words below the stack pointer, in which `stmdb sp!, {r4 - r7}` saves its registers. -/
def savedSlots (s : State) : List Word :=
  [s.regs .sp - 16, s.regs .sp - 12, s.regs .sp - 8, s.regs .sp - 4]

/-- On entry to `atomic_swap8_conditional(mem, newlo, newhi, oldlo, oldhi)`: the fifth argument is
the word at the stack pointer, and what is below it belongs to nobody. -/
structure Entry8 (s : State) (addr newlo newhi oldlo oldhi : Word) : Prop where
  ip : s.ip = 0
  r0 : s.regs .r0 = addr
  r1 : s.regs .r1 = newlo
  r2 : s.regs .r2 = newhi
  r3 : s.regs .r3 = oldlo
  arg : s.mem (s.regs .sp) = oldhi
  lo : addr ∉ savedSlots s
  hi : addr + 4 ∉ savedSlots s

/-- What `atomic.h` promises, and the registers that a caller finds again. -/
def Contract8 (s s' : State) (addr newlo newhi oldlo oldhi : Word) : Prop :=
  (if s.mem addr = oldlo ∧ s.mem (addr + 4) = oldhi then
    s'.regs .r0 = 0 ∧ s'.mem addr = newlo ∧ s'.mem (addr + 4) = newhi
  else s'.regs .r0 ≠ 0 ∧ s'.mem addr = s.mem addr ∧ s'.mem (addr + 4) = s.mem (addr + 4)) ∧
  ∀ r ∈ [Reg.sp, .r4, .r5, .r6, .r7], s'.regs r = s.regs r

/-- The word above the fifth argument, at `[sp, #0x14]` after the push. -/
def stacked (s : State) : Word := s.mem (s.regs .sp + 4)

/-- A memory with the registers from `r4` to `r7` in their slots, and no other change. -/
structure Saved (s : State) (mem : Word → Word) : Prop where
  r4 : mem (s.regs .sp - 16) = s.regs .r4
  r5 : mem (s.regs .sp - 12) = s.regs .r5
  r6 : mem (s.regs .sp - 8) = s.regs .r6
  r7 : mem (s.regs .sp - 4) = s.regs .r7
  rest : ∀ a, a ∉ savedSlots s → mem a = s.mem a

/-- At `1b`. -/
structure AtLoop (s t : State) (addr oldlo : Word) : Prop where
  ip : t.ip = 2
  r0 : t.regs .r0 = addr
  r3 : t.regs .r3 = oldlo
  r4 : t.regs .r4 = stacked s
  sp : t.regs .sp = s.regs .sp - 16
  saved : Saved s t.mem

variable {s t : State} {addr newlo newhi oldlo oldhi : Word}

theorem stacked_slot (s : State) : s.regs .sp + 4 ∉ savedSlots s := by
  simp only [savedSlots, List.mem_cons, List.not_mem_nil, or_false, not_or]
  refine ⟨?_, ?_, ?_, ?_⟩
  all_goals bv_omega

theorem saved_storeMultiple (s : State) :
    Saved s (s.storeMultiple (s.regs .sp - 16) [.r4, .r5, .r6, .r7]).mem := by
  have e1 : s.regs .sp - 16 + 4 = s.regs .sp - 12 := by bv_omega
  have e2 : s.regs .sp - 12 + 4 = s.regs .sp - 8 := by bv_omega
  have e3 : s.regs .sp - 8 + 4 = s.regs .sp - 4 := by bv_omega
  rw [State.storeMultiple, State.storeMultiple, State.storeMultiple, State.storeMultiple,
    State.storeMultiple, e1, e2, e3]
  dsimp only
  refine ⟨?_, ?_, ?_, ?_, ?_⟩
  · rw [Function.update_of_ne (by bv_omega), Function.update_of_ne (by bv_omega),
      Function.update_of_ne (by bv_omega), Function.update_self]
  · rw [Function.update_of_ne (by bv_omega), Function.update_of_ne (by bv_omega),
      Function.update_self]
  · rw [Function.update_of_ne (by bv_omega), Function.update_self]
  · rw [Function.update_self]
  · intro a ha
    simp only [savedSlots, List.mem_cons, List.not_mem_nil, or_false, not_or] at ha
    obtain ⟨h1, h2, h3, h4⟩ := ha
    rw [Function.update_of_ne h4, Function.update_of_ne h3, Function.update_of_ne h2,
      Function.update_of_ne h1]

/-- From the entry to `1b`. -/
theorem reaches_loop (h : Entry8 s addr newlo newhi oldlo oldhi) :
    ∃ t, steps (step atomicSwap8Conditional) 2 s = some t ∧ AtLoop s t addr oldlo ∧
      t.spurious = s.spurious := by
  obtain ⟨h0, h1, h2, h3, h4, h5, h6, h7⟩ := h
  have hsaved := saved_storeMultiple s
  have e : s.regs .sp - 16#32 + 20#32 = s.regs .sp + 4 := by bv_omega
  refine ⟨_, by
    simp [steps, step, h0, atomicSwap8Conditional, Cond.holds, Op.exec, State.next,
      State.setReg, size, e]; rfl, ⟨?_, ?_, ?_, ?_, ?_, ?_⟩, ?_⟩
  · rfl
  · simpa using h1
  · simpa using h4
  · simpa [stacked] using hsaved.rest _ (stacked_slot s)
  · simp
  · exact hsaved
  · simp

/-- What the compare at `1b` decides. -/
def Equal (s : State) (addr oldlo : Word) : Prop :=
  s.mem addr = oldlo ∧ s.mem (addr + 4) = stacked s

/-- At the `strexd`, the compare passed. -/
structure AtStrexd (s t : State) (addr oldlo : Word) : Prop where
  ip : t.ip = 6
  r0 : t.regs .r0 = addr
  r3 : t.regs .r3 = oldlo
  r4 : t.regs .r4 = stacked s
  r6 : t.regs .r6 = t.mem addr
  r7 : t.regs .r7 = t.mem (addr + 4)
  sp : t.regs .sp = s.regs .sp - 16
  monitor : t.monitor = some addr
  saved : Saved s t.mem

/-- From `1b` to the `strexd`. -/
theorem reaches_strexd (h : AtLoop s t addr oldlo) (hlo : addr ∉ savedSlots s)
    (hhi : addr + 4 ∉ savedSlots s) (heq : Equal s addr oldlo) :
    ∃ u, steps (step atomicSwap8Conditional) 4 t = some u ∧ AtStrexd s u addr oldlo ∧
      u.spurious = t.spurious := by
  obtain ⟨h0, h1, h2, h3, h4, hsaved⟩ := h
  have hm : t.mem addr = oldlo := (hsaved.rest _ hlo).trans heq.1
  have hm' : t.mem (addr + 4#32) = stacked s := (hsaved.rest _ hhi).trans heq.2
  refine ⟨_, by
    simp [steps, step, h0, atomicSwap8Conditional, Cond.holds, Op.exec, State.next,
      State.setReg, Operand.eval, cmpFlags, h1, h2, h3, hm, hm']; rfl,
    ⟨?_, ?_, ?_, ?_, ?_, ?_, ?_, ?_, ?_⟩, ?_⟩
  all_goals simp [*]

/-- A `strexd` that fails leads back to `1b`. -/
theorem strexd_fails (h : AtStrexd s t addr oldlo) {l : List Bool}
    (hs : t.spurious = true :: l) :
    ∃ u, steps (step atomicSwap8Conditional) 3 t = some u ∧ AtLoop s u addr oldlo ∧
      u.spurious = l := by
  obtain ⟨h0, h1, h2, h3, h4, h5, h6, h7, hsaved⟩ := h
  refine ⟨_, by
    simp [steps, step, h0, atomicSwap8Conditional, Cond.holds, Op.exec, State.next,
      State.setReg, hs, Operand.eval, cmpFlags]; rfl, ⟨?_, ?_, ?_, ?_, ?_, ?_⟩, ?_⟩
  all_goals simp [*]

/-- A `strexd` that succeeds stores the two words just read, so memory stays as it is; the routine
returns 0 with the stack pointer 8 bytes low. -/
theorem strexd_stores (h : AtStrexd s t addr oldlo)
    (hs : t.spurious.head?.getD false = false) :
    ∃ u, Returns (step atomicSwap8Conditional) t u ∧ u.regs .r0 = 0 ∧ u.mem = t.mem ∧
      u.regs .sp = s.regs .sp - 8 := by
  obtain ⟨h0, h1, h2, h3, h4, h5, h6, h7, hsaved⟩ := h
  refine ⟨_, Returns.of_steps (n := 5) (by
    simp [steps, step, h0, atomicSwap8Conditional, Cond.holds, Op.exec, State.next,
      State.setReg, hs, h1, h4, h5, h7, Operand.eval, cmpFlags, size,
      State.loadMultiple]; rfl) (Returns.ret rfl), ?_, ?_, ?_⟩
  · simp
  · simp
  · simp
    bv_omega

/-- **Equal words**: after any number of failing `strexd`, by induction on those to come. -/
theorem loop_equal (h : AtLoop s t addr oldlo) (hlo : addr ∉ savedSlots s)
    (hhi : addr + 4 ∉ savedSlots s) (heq : Equal s addr oldlo) :
    ∃ u, Returns (step atomicSwap8Conditional) t u ∧ u.regs .r0 = 0 ∧
      u.regs .sp = s.regs .sp - 8 := by
  induction hl : t.spurious generalizing t with
  | nil =>
    obtain ⟨u, hu, hat, hsp⟩ := reaches_strexd h hlo hhi heq
    obtain ⟨v, hv, h0, -, h8⟩ := strexd_stores hat (by rw [hsp, hl]; rfl)
    exact ⟨v, Returns.of_steps hu hv, h0, h8⟩
  | cons b l ih =>
    obtain ⟨u, hu, hat, hsp⟩ := reaches_strexd h hlo hhi heq
    cases b with
    | false =>
      obtain ⟨v, hv, h0, -, h8⟩ := strexd_stores hat (by rw [hsp, hl]; rfl)
      exact ⟨v, Returns.of_steps hu hv, h0, h8⟩
    | true =>
      obtain ⟨v, hv, hback, hvl⟩ := strexd_fails hat (hsp.trans hl)
      obtain ⟨w, hw, h0, h8⟩ := ih hback hvl
      exact ⟨w, Returns.of_steps hu (Returns.of_steps hv hw), h0, h8⟩

/-- At `1f`, the compare failed. -/
structure AtMismatch (s t : State) : Prop where
  ip : t.ip = 12
  sp : t.regs .sp = s.regs .sp - 16
  saved : Saved s t.mem

/-- From `1b` to `1f`; when the low words differ the high ones are not compared. -/
theorem reaches_mismatch (h : AtLoop s t addr oldlo) (hlo : addr ∉ savedSlots s)
    (hhi : addr + 4 ∉ savedSlots s) (hne : ¬ Equal s addr oldlo) :
    ∃ u, steps (step atomicSwap8Conditional) 4 t = some u ∧ AtMismatch s u := by
  obtain ⟨h0, h1, h2, h3, h4, hsaved⟩ := h
  have hm : t.mem addr = s.mem addr := hsaved.rest _ hlo
  have hm' : t.mem (addr + 4#32) = s.mem (addr + 4#32) := hsaved.rest _ hhi
  by_cases heq : oldlo = s.mem addr
  · have hne' : ¬ stacked s = s.mem (addr + 4#32) := by
      intro he
      exact hne ⟨heq.symm, he.symm⟩
    refine ⟨_, by
      simp [steps, step, h0, atomicSwap8Conditional, Cond.holds, Op.exec, State.next,
        State.setReg, Operand.eval, cmpFlags, h1, h2, h3, hm, hm', heq, hne']; rfl, ?_, ?_, ?_⟩
    · rfl
    · simp [h4]
    · exact hsaved
  · refine ⟨_, by
      simp [steps, step, h0, atomicSwap8Conditional, Cond.holds, Op.exec, State.next,
        State.setReg, Operand.eval, cmpFlags, h1, h2, hm, heq]; rfl, ?_, ?_, ?_⟩
    · rfl
    · simp [h4]
    · exact hsaved

/-- From `1f`: 1 is returned, and the pop restores every register. -/
theorem mismatch_returns (h : AtMismatch s t) :
    ∃ u, Returns (step atomicSwap8Conditional) t u ∧ u.regs .r0 = 1 ∧ u.mem = t.mem ∧
      ∀ r ∈ [Reg.sp, .r4, .r5, .r6, .r7], u.regs r = s.regs r := by
  obtain ⟨h0, h1, h4, h5, h6, h7, -⟩ := h
  have e1 : s.regs .sp - 16#32 + 4#32 = s.regs .sp - 12 := by bv_omega
  have e2 : s.regs .sp - 12#32 + 4#32 = s.regs .sp - 8 := by bv_omega
  have e3 : s.regs .sp - 8#32 + 4#32 = s.regs .sp - 4 := by bv_omega
  refine ⟨_, Returns.of_steps (n := 3) (by
    simp [steps, step, h0, atomicSwap8Conditional, Cond.holds, Op.exec, State.next,
      State.setReg, h1, Operand.eval, size, State.loadMultiple, e1, e2, e3]; rfl)
      (Returns.ret rfl), ?_, ?_, ?_⟩
  · simp
  · simp
  · intro r hr
    simp only [List.mem_cons, List.not_mem_nil, or_false] at hr
    obtain rfl | rfl | rfl | rfl | rfl := hr
    · simp
    · simpa using h4
    · simpa using h5
    · simpa using h6
    · simpa using h7

/-- **The two ways through the routine.** -/
theorem returns_cases8 (h : Entry8 s addr newlo newhi oldlo oldhi) :
    ∃ s', Returns (step atomicSwap8Conditional) s s' ∧
      ((Equal s addr oldlo ∧ s'.regs .r0 = 0 ∧ s'.regs .sp = s.regs .sp - 8) ∨
        (¬ Equal s addr oldlo ∧ s'.regs .r0 = 1 ∧ s'.mem addr = s.mem addr ∧
          s'.mem (addr + 4) = s.mem (addr + 4) ∧
          ∀ r ∈ [Reg.sp, .r4, .r5, .r6, .r7], s'.regs r = s.regs r)) := by
  obtain ⟨t, ht, hat, -⟩ := reaches_loop h
  by_cases heq : Equal s addr oldlo
  · obtain ⟨u, hu, h0, h8⟩ := loop_equal hat h.lo h.hi heq
    exact ⟨u, Returns.of_steps ht hu, Or.inl ⟨heq, h0, h8⟩⟩
  · obtain ⟨u, hu, hmis⟩ := reaches_mismatch hat h.lo h.hi heq
    obtain ⟨v, hv, h0, hmem, hregs⟩ := mismatch_returns hmis
    refine ⟨v, Returns.of_steps ht (Returns.of_steps hu hv), Or.inr ⟨heq, h0, ?_, ?_, hregs⟩⟩
    · rw [hmem]
      exact hmis.saved.rest _ h.lo
    · rw [hmem]
      exact hmis.saved.rest _ h.hi

/-- **When the ARM 8-byte compare-and-swap keeps its contract.**  It always returns, and does what
it should exactly if the low words differ, or the high word of `*mem` is neither the old value's
nor the word above it on the stack: in particular never when there is something to swap. -/
theorem arm_swap8_conditional_contract_iff (s : State) (addr newlo newhi oldlo oldhi : Word)
    (h : Entry8 s addr newlo newhi oldlo oldhi) :
    ∃ s', Returns (step atomicSwap8Conditional) s s' ∧
      (Contract8 s s' addr newlo newhi oldlo oldhi ↔
        s.mem addr ≠ oldlo ∨ (s.mem (addr + 4) ≠ oldhi ∧ s.mem (addr + 4) ≠ stacked s)) := by
  obtain ⟨s', hs', ⟨⟨hlo, hhi⟩, -, h8⟩ | ⟨hne, h0, hmlo, hmhi, hregs⟩⟩ := returns_cases8 h
  · refine ⟨s', hs', ?_, ?_⟩
    · intro hc
      have hsp : s'.regs .sp = s.regs .sp := hc.2 .sp (by simp)
      rw [h8] at hsp
      bv_omega
    · rintro (hcond | ⟨-, hcond⟩)
      · exact absurd hlo hcond
      · exact absurd hhi hcond
  · refine ⟨s', hs', ?_, ?_⟩
    · rintro ⟨hc, -⟩
      by_cases hlo : s.mem addr = oldlo
      · refine Or.inr ⟨?_, ?_⟩
        · intro hhi
          rw [if_pos ⟨hlo, hhi⟩, h0] at hc
          exact absurd hc.1 (by decide)
        · intro hst
          exact hne ⟨hlo, hst⟩
      · exact Or.inl hlo
    · intro hcond
      refine ⟨?_, hregs⟩
      rw [if_neg]
      · exact ⟨by rw [h0]; decide, hmlo, hmhi⟩
      · rintro ⟨hlo, hhi⟩
        rcases hcond with hcond | ⟨hcond, -⟩
        · exact hcond hlo
        · exact hcond hhi

/-- `atomic_swap8_conditional` at 64 with the stack pointer at 256: `*mem` is `8 : 7`, the new
value `2 : 1` and the old one `8 : 7`; above the fifth argument lies 0. -/
def swapsWide : State where
  regs
    | .r0 => 64
    | .r1 => 1
    | .r2 => 2
    | .r3 => 7
    | .sp => 256
    | _ => 0
  flags := ⟨false, false, false, false⟩
  monitor := none
  mem a := if a = 64 then 7 else if a = 68 then 8 else if a = 256 then 8 else 0
  spurious := []
  ip := 0

/-- Equal values, and yet 1 is returned and nothing stored; with 8 in the word above the fifth
argument, 0 is returned, nothing is stored and the stack pointer comes back as 248. -/
theorem wide_swap_fails : Entry8 swapsWide 64 1 2 7 8 ∧
    (∃ s', Returns (step atomicSwap8Conditional) swapsWide s' ∧ s'.regs .r0 = 1 ∧
      s'.mem 64 = 7 ∧ s'.mem 68 = 8 ∧ ¬ Contract8 swapsWide s' 64 1 2 7 8) ∧
    ∃ s', Returns (step atomicSwap8Conditional)
        { swapsWide with mem := Function.update swapsWide.mem 260 8 } s' ∧
      s'.regs .r0 = 0 ∧ s'.mem 64 = 7 ∧ s'.mem 68 = 8 ∧ s'.regs .sp = 248 := by
  refine ⟨⟨rfl, rfl, rfl, rfl, rfl, rfl, by decide, by decide⟩,
    ⟨_, ⟨10, rfl⟩, rfl, rfl, rfl, ?_⟩, _, ⟨12, rfl⟩, rfl, rfl, rfl, rfl⟩
  intro hc
  have hnew := hc.1
  rw [if_pos ⟨rfl, rfl⟩] at hnew
  exact absurd hnew.1 (by decide)

/-- A mismatch in the low word is reported as it should be. -/
theorem wide_mismatch_reported :
    ∃ s', Returns (step atomicSwap8Conditional)
        { swapsWide with mem := Function.update swapsWide.mem 64 6, spurious := [true] } s' ∧
      s'.regs .r0 ≠ 0 ∧ s'.regs .r5 = 0 := by
  obtain ⟨s', hs', hc⟩ := arm_swap8_conditional_contract_iff
    { swapsWide with mem := Function.update swapsWide.mem 64 6, spurious := [true] } 64 1 2 7 8
    ⟨rfl, rfl, rfl, rfl, rfl, rfl, by decide, by decide⟩
  obtain ⟨hret, hregs⟩ := hc.2 (Or.inl (by decide))
  rw [if_neg (by decide)] at hret
  exact ⟨s', hs', hret.1, hregs .r5 (by simp)⟩

end Timix.Arm
