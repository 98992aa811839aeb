import Timix.Nios

/-!
# What the Nios II routines return (`arch/nios2/kernel/atomic.S`)

Run without interruption, every routine leaves its result in `r2`.

* `Call.effect` — the word a call leaves and what it returns, as a function of the word it finds.
* `returns_effect` — every call returns, with that effect.

Principal result: `nios_contract_iff`.
-/

set_option autoImplicit false

namespace Timix.Nios

open Machine Timix.Mutex

/-- The word left and the word returned.  The failure result of the conditional swap goes to `r4`,
    so `r2` still holds the word loaded; `atomic_add` adds 1 and returns the sum. -/
def Call.effect (w : Word) : Call → Word × Word
  | .swap val => (val, w)
  | .swapConditional newval oldval => if w = oldval then (newval, XCHG_SUCCESS) else (w, w)
  | .add _ => (w + 1, w + 1)

/-- What `atomic.h` documents for a call that finds `w`, leaves `w'` and returns `r`. -/
def Call.Documented (w w' r : Word) : Call → Prop
  | .swap val => w' = val ∧ r = w
  | .swapConditional newval oldval => if w = oldval then r = 0 ∧ w' = newval else r ≠ 0 ∧ w' = w
  | .add val => w' = w + val ∧ r = w

variable {addr : Word} {c : Call} {s : State}

/-- **Every routine returns**, changing no other word. -/
theorem returns_effect (h : Entry addr c s) :
    ∃ s', Returns (step c.code) s s' ∧ s'.regs .r2 = (c.effect (s.mem addr)).2 ∧
      s'.mem = Function.update s.mem addr (c.effect (s.mem addr)).1 := by
  obtain ⟨hip, junk, hregs⟩ := h
  cases c with
  | swap val =>
    refine ⟨_, ⟨12, by
      simp [run, step, hip, Call.code, atomicSwap, intdis, inten, Instr.exec, State.put]; rfl⟩,
      ?_, ?_⟩
    · simp [hregs, Call.entryRegs, State.reg, Call.effect]
    · simp [hregs, Call.entryRegs, State.reg, Call.effect]
  | swapConditional newval oldval =>
    by_cases hw : s.mem addr = oldval
    · refine ⟨_, ⟨14, by
        simp [run, step, hip, Call.code, atomicSwapConditional, intdis, inten, Instr.exec,
          State.put, State.reg, hregs, Call.entryRegs, hw]; rfl⟩, ?_, ?_⟩
      · simp [Call.effect, hw]
      · simp [Call.effect, hw]
    · refine ⟨_, ⟨13, by
        simp [run, step, hip, Call.code, atomicSwapConditional, intdis, inten, Instr.exec,
          State.put, State.reg, hregs, Call.entryRegs, hw]; rfl⟩, ?_, ?_⟩
      · simp [Call.effect, hw]
      · simp [Call.effect, hw]
  | add val =>
    refine ⟨_, ⟨13, by
      simp [run, step, hip, Call.code, atomicAdd, intdis, inten, Instr.exec, State.put]; rfl⟩,
      ?_, ?_⟩
    · simp [hregs, Call.entryRegs, State.reg, Call.effect]
    · simp [hregs, Call.entryRegs, State.reg, Call.effect]

/-- When the effect is the documented one. -/
def Call.AsDocumented (w : Word) : Call → Prop
  | .swap _ => True
  | .swapConditional _ oldval => w = oldval ∨ w ≠ 0
  | .add _ => False

theorem documented_effect_iff (w : Word) (c : Call) :
    c.Documented w (c.effect w).1 (c.effect w).2 ↔ c.AsDocumented w := by
  cases c with
  | swap val => simp [Call.Documented, Call.effect, Call.AsDocumented]
  | swapConditional newval oldval =>
    by_cases hw : w = oldval
    · simp [Call.Documented, Call.effect, Call.AsDocumented, hw, XCHG_SUCCESS]
    · simp [Call.Documented, Call.effect, Call.AsDocumented, hw]
  | add val =>
    simp [Call.Documented, Call.effect, Call.AsDocumented]

/-- **When the Nios II routines keep their contracts.**  Run without interruption every call
returns, having changed no other word.  `atomic_swap` is as documented, `atomic_swap_conditional`
exactly if the words are equal or the word found is not 0, `atomic_add` never. -/
theorem nios_contract_iff (addr : Word) (c : Call) (s : State) (h : Entry addr c s) :
    ∃ s', Returns (step c.code) s s' ∧ (∀ a ≠ addr, s'.mem a = s.mem a) ∧
      (c.Documented (s.mem addr) (s'.mem addr) (s'.regs .r2) ↔ c.AsDocumented (s.mem addr)) := by
  obtain ⟨s', hs', hr, hm⟩ := returns_effect h
  refine ⟨s', hs', ?_, ?_⟩
  · intro a ha
    rw [hm, Function.update_of_ne ha]
  · rw [hm, Function.update_self, hr]
    exact documented_effect_iff (s.mem addr) c

/-- A call on the word at address 64, which is 0 as all memory. -/
def zeroEntry (c : Call) : State where
  regs := c.entryRegs 64 fun _ => 0
  status := 0
  mem _ := 0
  ip := 0

/-- The word 3 is not the expected 1: the conditional swap leaves it and returns 3. -/
theorem failed_swap_as_documented :
    ∃ s', Returns (step atomicSwapConditional)
        { zeroEntry (.swapConditional 5 1) with mem := fun _ => 3 } s' ∧
      s'.mem 64 = 3 ∧ s'.regs .r2 ≠ 0 := by
  obtain ⟨s', hs', _, hd⟩ := nios_contract_iff 64 (.swapConditional 5 1)
    { zeroEntry (.swapConditional 5 1) with mem := fun _ => 3 } ⟨rfl, fun _ => 0, rfl⟩
  obtain ⟨hret, hmem⟩ := hd.2 (Or.inr (by decide))
  exact ⟨s', hs', hmem, hret⟩

/-- The word 0 is not the expected 1, yet the conditional swap returns 0; `atomic_add` of 2 leaves
and returns 1. -/
theorem nios_contract_fails :
    (∃ s', Entry 64 (.swapConditional 5 1) (zeroEntry (.swapConditional 5 1)) ∧
      Returns (step atomicSwapConditional) (zeroEntry (.swapConditional 5 1)) s' ∧
      s'.mem 64 = 0 ∧ s'.regs .r2 = XCHG_SUCCESS ∧
      ¬ (Call.swapConditional 5 1).Documented 0 (s'.mem 64) (s'.regs .r2)) ∧
    (∃ s', Entry 64 (.add 2) (zeroEntry (.add 2)) ∧
      Returns (step atomicAdd) (zeroEntry (.add 2)) s' ∧ s'.mem 64 = 1 ∧ s'.regs .r2 = 1 ∧
      ¬ (Call.add 2).Documented 0 (s'.mem 64) (s'.regs .r2)) :=
  ⟨⟨_, ⟨rfl, fun _ => 0, rfl⟩, ⟨13, rfl⟩, rfl, rfl, fun h => h.1 rfl⟩,
    ⟨_, ⟨rfl, fun _ => 0, rfl⟩, ⟨13, rfl⟩, rfl, rfl, fun h => absurd h.2 (by decide)⟩⟩

end Timix.Nios
