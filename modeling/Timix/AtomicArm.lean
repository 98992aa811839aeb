import Timix.Arm
import Timix.Mutex

/-!
# The ARM compare-and-swap (`arch/arm/kernel/atomic.S`)

`atomic_swap_conditional` compares with `cmpeq`, which is carried out only if the Z flag is set
on entry, and leaves at `beq 1f`, which is taken when the words are equal.

* `returns_of_clear` — with Z clear, nothing is compared: the routine stores `newval` and
  returns 0, after any number of failing `strex`.
* `returns_of_equal`, `returns_of_unequal` — with Z set, equal words are left alone and unequal
  ones overwritten.

Principal result: `arm_swap_conditional_contract_iff`.
-/

set_option autoImplicit false

namespace Timix.Arm

open Machine Timix.Mutex

/-- On entry to `atomic_swap_conditional(mem, newval, oldval)`. -/
structure Entry (s : State) (addr newval oldval : Word) : Prop where
  ip : s.ip = 0
  r0 : s.regs .r0 = addr
  r1 : s.regs .r1 = newval
  r2 : s.regs .r2 = oldval

/-- What `atomic.h` promises. -/
def Contract (s s' : State) (addr newval oldval : Word) : Prop :=
  if s.mem addr = oldval then s'.regs .r0 = 0 ∧ s'.mem = Function.update s.mem addr newval
  else s'.regs .r0 ≠ 0 ∧ s'.mem = s.mem

/-- `mutex_trylock` after `atomic_swap_conditional` returned in `s'`. -/
def mutexTrylock (s' : State) : Int :=
  if s'.regs .r0 = 0 then MUTEX_GOT_IT else MUTEX_DONT_GOT_IT

variable {s : State} {addr newval oldval : Word}

@[simp] theorem cmpFlags_z (a b : Word) : (cmpFlags a b).z = (a == b) := rfl

/-- The routine takes its early exit only with Z set and equal words. -/
def Stores (s : State) (addr oldval : Word) : Prop := s.flags.z = true → s.mem addr ≠ oldval

/-- At the `strex`, with the compare passed or skipped. -/
structure AtStrex (s t : State) (addr newval oldval : Word) : Prop where
  ip : t.ip = 3
  r0 : t.regs .r0 = addr
  r1 : t.regs .r1 = newval
  r2 : t.regs .r2 = oldval
  monitor : t.monitor = some addr
  mem : t.mem = s.mem
  spurious : t.spurious = s.spurious

/-- From the entry to the `strex`. -/
theorem reaches_strex (h : Entry s addr newval oldval) (hz : Stores s addr oldval) :
    ∃ t, steps (step atomicSwapConditional) 3 s = some t ∧ AtStrex s t addr newval oldval := by
  obtain ⟨h0, h1, h2, h3⟩ := h
  cases hf : s.flags.z with
  | false =>
    refine ⟨_, by
      simp [steps, step, h0, atomicSwapConditional, Cond.holds, hf, Op.exec, State.next,
        State.setReg]; rfl, ?_, ?_, ?_, ?_, ?_, ?_, ?_⟩
    all_goals simp [*]
  | true =>
    have hne : ¬ oldval = s.mem addr := fun he => hz hf he.symm
    refine ⟨_, by
      simp [steps, step, h0, atomicSwapConditional, Cond.holds, hf, Op.exec, State.next,
        State.setReg, Operand.eval, h1, h3, hne]; rfl, ?_, ?_, ?_, ?_, ?_, ?_, ?_⟩
    all_goals simp [*]

/-- A `strex` that fails leads back to the entry, with Z clear. -/
theorem strex_fails {t : State} (h : AtStrex s t addr newval oldval) {l : List Bool}
    (hs : s.spurious = true :: l) :
    ∃ u, steps (step atomicSwapConditional) 3 t = some u ∧ Entry u addr newval oldval ∧
      u.flags.z = false ∧ u.mem = s.mem ∧ u.spurious = l := by
  obtain ⟨h0, h1, h2, h3, h4, h5, h6⟩ := h
  rw [hs] at h6
  refine ⟨_, by
    simp [steps, step, h0, atomicSwapConditional, Cond.holds, Op.exec, State.next,
      State.setReg, h6, Operand.eval]; rfl, ⟨?_, ?_, ?_, ?_⟩, ?_, ?_, ?_⟩
  all_goals simp [*]

/-- A `strex` that succeeds leads to the return of 0. -/
theorem strex_stores {t : State} (h : AtStrex s t addr newval oldval)
    (hs : s.spurious.head?.getD false = false) :
    ∃ u, Returns (step atomicSwapConditional) t u ∧ u.regs .r0 = 0 ∧
      u.mem = Function.update s.mem addr newval := by
  obtain ⟨h0, h1, h2, h3, h4, h5, h6⟩ := h
  rw [← h6] at hs
  refine ⟨_, Returns.of_steps (n := 4) (by
    simp [steps, step, h0, atomicSwapConditional, Cond.holds, Op.exec, State.next,
      State.setReg, hs, h1, h4, Operand.eval]; rfl) (Returns.ret rfl), ?_, ?_⟩
  all_goals simp [*]

/-- **The storing path**, after any number of failing `strex`: induction on those to come. -/
theorem returns_of_stores (h : Entry s addr newval oldval) (hz : Stores s addr oldval) :
    ∃ t, Returns (step atomicSwapConditional) s t ∧ t.regs .r0 = 0 ∧
      t.mem = Function.update s.mem addr newval := by
  induction hl : s.spurious generalizing s with
  | nil =>
    obtain ⟨t, ht, hat⟩ := reaches_strex h hz
    obtain ⟨u, hu, hu1⟩ := strex_stores hat (by rw [hl]; rfl)
    exact ⟨u, Returns.of_steps ht hu, hu1⟩
  | cons b l ih =>
    obtain ⟨t, ht, hat⟩ := reaches_strex h hz
    cases b with
    | false =>
      obtain ⟨u, hu, hu1⟩ := strex_stores hat (by rw [hl]; rfl)
      exact ⟨u, Returns.of_steps ht hu, hu1⟩
    | true =>
      obtain ⟨u, hu, hu1, hu2, hu3, hu4⟩ := strex_fails hat hl
      obtain ⟨v, hv, hv1, hv2⟩ := ih hu1 (fun hc => by rw [hu2] at hc; cases hc) hu4
      exact ⟨v, Returns.of_steps ht (Returns.of_steps hu hv), hv1, by rw [hv2, hu3]⟩

/-- **The early exit**: Z set and equal words. -/
theorem returns_of_equal (h : Entry s addr newval oldval) (hz : s.flags.z = true)
    (heq : s.mem addr = oldval) :
    ∃ t, Returns (step atomicSwapConditional) s t ∧ t.regs .r0 = 1 ∧ t.mem = s.mem := by
  obtain ⟨h0, h1, h2, h3⟩ := h
  refine ⟨_, Returns.of_steps (n := 5) (by
    simp [steps, step, h0, atomicSwapConditional, Cond.holds, hz, Op.exec, State.next,
      State.setReg, Operand.eval, h1, h3, heq]; rfl) (Returns.ret rfl), ?_, ?_⟩
  all_goals simp [*]

/-- What `mutex_trylock` has to do: take a free mutex, leave a held one. -/
def TrylockOk (s s' : State) (addr : Word) : Prop :=
  if s.mem addr = MUTEX_OWNER_UNLOCKED then mutexTrylock s' = MUTEX_GOT_IT ∧ s'.mem addr = 1
  else mutexTrylock s' = MUTEX_DONT_GOT_IT ∧ s'.mem = s.mem

/-- The three ways through the routine. -/
theorem returns_cases (h : Entry s addr newval oldval) :
    ∃ s', Returns (step atomicSwapConditional) s s' ∧
      ((s.flags.z = true ∧ s.mem addr = oldval ∧ s'.regs .r0 = 1 ∧ s'.mem = s.mem) ∨
        ((s.flags.z = false ∨ s.mem addr ≠ oldval) ∧ s'.regs .r0 = 0 ∧
          s'.mem = Function.update s.mem addr newval)) := by
  cases hz : s.flags.z with
  | false =>
    have hs : Stores s addr oldval := by
      intro ht
      rw [hz] at ht
      cases ht
    obtain ⟨s', hs', hret⟩ := returns_of_stores h hs
    exact ⟨s', hs', Or.inr ⟨Or.inl rfl, hret⟩⟩
  | true =>
    by_cases heq : s.mem addr = oldval
    · obtain ⟨s', hs', hret⟩ := returns_of_equal h hz heq
      exact ⟨s', hs', Or.inl ⟨rfl, heq, hret⟩⟩
    · obtain ⟨s', hs', hret⟩ := returns_of_stores h fun _ => heq
      exact ⟨s', hs', Or.inr ⟨Or.inr heq, hret⟩⟩

/-- **When the ARM compare-and-swap keeps its contract.**  It always returns, and does what
`atomic.h` says exactly if Z is clear on entry and the words are equal; `mutex_trylock` on it is
right exactly if Z is clear and the mutex is free. -/
theorem arm_swap_conditional_contract_iff (s : State) (addr : Word) :
    (∀ newval oldval, Entry s addr newval oldval →
      ∃ s', Returns (step atomicSwapConditional) s s' ∧
        (Contract s s' addr newval oldval ↔ s.flags.z = false ∧ s.mem addr = oldval)) ∧
    (Entry s addr 1 MUTEX_OWNER_UNLOCKED →
      ∃ s', Returns (step atomicSwapConditional) s s' ∧
        (TrylockOk s s' addr ↔ s.flags.z = false ∧ s.mem addr = MUTEX_OWNER_UNLOCKED)) := by
  constructor
  · intro newval oldval h
    obtain ⟨s', hs', ⟨hz, heq, h0, hm⟩ | ⟨hor, h0, hm⟩⟩ := returns_cases h
    · refine ⟨s', hs', ?_⟩
      simp [Contract, heq, h0, hz]
    · refine ⟨s', hs', ?_⟩
      by_cases heq : s.mem addr = oldval
      · have hz : s.flags.z = false := hor.resolve_right (not_not.2 heq)
        simp [Contract, heq, h0, hm, hz]
      · simp [Contract, heq, h0]
  · intro h
    obtain ⟨s', hs', ⟨hz, heq, h0, hm⟩ | ⟨hor, h0, hm⟩⟩ := returns_cases h
    · refine ⟨s', hs', ?_⟩
      simp [TrylockOk, mutexTrylock, heq, h0, hz, MUTEX_GOT_IT, MUTEX_DONT_GOT_IT]
    · refine ⟨s', hs', ?_⟩
      by_cases heq : s.mem addr = MUTEX_OWNER_UNLOCKED
      · have hz : s.flags.z = false := hor.resolve_right (not_not.2 heq)
        simp [TrylockOk, mutexTrylock, heq, h0, hm, hz]
      · simp [TrylockOk, mutexTrylock, heq, h0, MUTEX_GOT_IT, MUTEX_DONT_GOT_IT]

/-- `mutex_trylock` on the free mutex at address 64, entered with Z set. -/
def freeMutexZ : State where
  regs
    | .r0 => 64
    | .r1 => 1
    | _ => 0
  flags := ⟨false, true, false, false⟩
  monitor := none
  mem _ := 0
  spurious := []
  ip := 0

/-- With Z set a free mutex is not obtained: the routine returns 1 although the words are equal. -/
theorem free_mutex_refused : ∃ s', Entry freeMutexZ 64 1 0 ∧
    Returns (step atomicSwapConditional) freeMutexZ s' ∧ freeMutexZ.mem 64 = 0 ∧
    s'.regs .r0 = 1 ∧ s'.mem 64 = 0 ∧ mutexTrylock s' = MUTEX_DONT_GOT_IT ∧
    ¬ Contract freeMutexZ s' 64 1 0 :=
  ⟨_, ⟨rfl, rfl, rfl, rfl⟩, ⟨6, rfl⟩, rfl, rfl, rfl, rfl, fun h => by
    rw [Contract, if_pos (show freeMutexZ.mem 64 = 0 from rfl)] at h
    exact absurd h.1 (by decide)⟩

/-- With Z clear the free mutex is obtained, after two failing `strex`. -/
theorem free_mutex_obtained : ∃ s',
    Returns (step atomicSwapConditional)
      { freeMutexZ with flags := ⟨false, false, false, false⟩, spurious := [true, true] } s' ∧
    s'.regs .r0 = 0 := by
  obtain ⟨s', hs', hc⟩ := (arm_swap_conditional_contract_iff
    { freeMutexZ with flags := ⟨false, false, false, false⟩, spurious := [true, true] } 64).1 1 0
    ⟨rfl, rfl, rfl, rfl⟩
  have hcontract := hc.2 ⟨rfl, rfl⟩
  rw [Contract, if_pos (show freeMutexZ.mem 64 = 0 from rfl)] at hcontract
  exact ⟨s', hs', hcontract.1⟩

end Timix.Arm
