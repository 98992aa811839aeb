import Mathlib.Tactic.Tauto
import Timix.Arm

/-!
# The ARM retry loops (`arch/arm/kernel/atomic.S`)

`atomic_swap` and `atomic_add` leave their loop when the `cmpeq r3, #0` behind the `strex` finds
0.  That comparison is carried out only with Z set: a routine entered with Z clear, or whose first
`strex` fails and clears Z, branches back for ever.

* `Looping` — Z is clear inside the loop; `looping_step` keeps it.
* `swap_returns`, `add_returns` — with Z set and a first `strex` that succeeds, the routine stores
  once and returns; `atomic_add` returns the new word.

Principal result: `arm_retry_loops_iff`.
-/

set_option autoImplicit false

namespace Timix.Arm

open Machine

/-- On entry to `atomic_swap(mem, val)` or `atomic_add(mem, val)`. -/
structure LoopEntry (s : State) (addr val : Word) : Prop where
  ip : s.ip = 0
  r0 : s.regs .r0 = addr
  r1 : s.regs .r1 = val

/-- The next instruction of `code` is a `strex` that stores. -/
def storing (code : List Instr) (s : State) : Bool :=
  match code[s.ip]? with
  | some ⟨.strex _ _ rn, _⟩ =>
    decide (s.monitor = some (s.regs rn) ∧ s.spurious.head?.getD false = false)
  | _ => false

/-- The routine returns the old word, after a single store, which left `new`. -/
def UpdatesOnce (code : List Instr) (s : State) (addr new : Word) : Prop :=
  ∃ n s', run (step code) n s = some s' ∧ count (step code) (storing code) n s = 1 ∧
    s'.mem = Function.update s.mem addr new ∧ s'.regs .r0 = s.mem addr

variable {s : State} {addr val : Word}

/-! ## Endless loops -/

/-- Inside the loop, the branch back being instruction `last`, with Z clear. -/
structure Looping (last : Nat) (s : State) : Prop where
  z : s.flags.z = false
  ip : s.ip ≤ last

/-- An instruction that sets no flag. -/
def Op.Quiet : Op → Prop
  | .cmp .. | .b _ | .bxLr => False
  | _ => True

/-- A quiet instruction goes on to the next one. -/
theorem Op.exec_quiet {op : Op} (h : op.Quiet) (s : State) :
    ∃ t, op.exec s = .running t ∧ t.flags = s.flags ∧ t.ip = s.ip + 1 := by
  cases op with
  | strex rd rt rn =>
    simp only [Op.exec]
    split
    · exact ⟨_, rfl, rfl, rfl⟩
    · exact ⟨_, rfl, rfl, rfl⟩
  | strexd rd rt rt2 rn =>
    simp only [Op.exec]
    split
    · exact ⟨_, rfl, rfl, rfl⟩
    · exact ⟨_, rfl, rfl, rfl⟩
  | stmdb rn regs =>
    rw [Op.exec, s.storeMultiple_eq]
    exact ⟨_, rfl, rfl, rfl⟩
  | ldmia rn regs =>
    rw [Op.exec, s.loadMultiple_eq]
    exact ⟨_, rfl, rfl, rfl⟩
  | cmp => exact h.elim
  | b => exact h.elim
  | bxLr => exact h.elim
  | _ => exact ⟨_, rfl, rfl, rfl⟩

/-- A loop whose instructions are quiet or carried out with Z set only, up to a `bne` back to its
start. -/
structure RetryLoop (code : List Instr) (last : Nat) : Prop where
  body : ∀ k < last, ∃ i, code[k]? = some i ∧ (i.cond = .eq ∨ i.op.Quiet)
  back : code[last]? = some ⟨.b 0, .ne⟩

/-- **With Z clear every instruction stays in the loop.** -/
theorem looping_step {code : List Instr} {last : Nat} (hc : RetryLoop code last)
    (h : Looping last s) : ∃ t, step code s = some (.running t) ∧ Looping last t := by
  obtain ⟨hz, hip⟩ := h
  rcases Nat.lt_or_eq_of_le hip with hlt | heq
  · obtain ⟨i, hi, hcond⟩ := hc.body s.ip hlt
    have hstep : step code s =
        some (if i.cond.holds s.flags then i.op.exec s else .running s.next) := by
      unfold step
      rw [hi]
      rfl
    rw [hstep]
    cases hh : i.cond.holds s.flags with
    | false => exact ⟨s.next, rfl, hz, hlt⟩
    | true =>
      have hq : i.op.Quiet := by
        refine hcond.resolve_left ?_
        intro heq
        rw [heq, Cond.holds, hz] at hh
        cases hh
      obtain ⟨t, ht, hf, hn⟩ := Op.exec_quiet hq s
      exact ⟨t, by rw [if_pos rfl, ht], by rw [hf, hz], by rw [hn]; exact hlt⟩
  · refine ⟨{ s with ip := 0 }, ?_, hz, Nat.zero_le _⟩
    unfold step
    rw [heq, hc.back, Option.map_some, Cond.holds, hz]
    rfl

theorem Looping.not_updatesOnce {code : List Instr} {last k : Nat} {t : State} {new : Word}
    (hc : RetryLoop code last) (hk : steps (step code) k s = some t) (h : Looping last t) :
    ¬ UpdatesOnce code s addr new := by
  rintro ⟨n, s', hrun, _⟩
  rw [not_returns_of_steps hk (fun n => run_eq_none (fun _ => looping_step hc) n h) n] at hrun
  cases hrun

theorem retryLoop_swap : RetryLoop atomicSwap 3 where
  body k hk := by
    rcases k with _ | _ | _ | k
    · exact ⟨_, rfl, Or.inr trivial⟩
    · exact ⟨_, rfl, Or.inr trivial⟩
    · exact ⟨_, rfl, Or.inl rfl⟩
    · omega
  back := rfl

theorem retryLoop_add : RetryLoop atomicAdd 4 where
  body k hk := by
    rcases k with _ | _ | _ | _ | k
    · exact ⟨_, rfl, Or.inr trivial⟩
    · exact ⟨_, rfl, Or.inr trivial⟩
    · exact ⟨_, rfl, Or.inr trivial⟩
    · exact ⟨_, rfl, Or.inl rfl⟩
    · omega
  back := rfl

/-! ## One pass -/

/-- A first `strex` that fails clears Z: the branch back is reached with Z clear. -/
theorem swap_fails (h : LoopEntry s addr val) (hz : s.flags.z = true)
    (hf : s.spurious.head?.getD false = true) :
    ∃ t, steps (step atomicSwap) 3 s = some t ∧ Looping 3 t := by
  obtain ⟨h0, h1, h2⟩ := h
  refine ⟨_, by
    simp [steps, step, h0, atomicSwap, Cond.holds, hz, Op.exec, State.next, State.setReg, hf,
      Operand.eval]; rfl, ?_, ?_⟩
  all_goals simp [cmpFlags]

theorem add_fails (h : LoopEntry s addr val) (hz : s.flags.z = true)
    (hf : s.spurious.head?.getD false = true) :
    ∃ t, steps (step atomicAdd) 4 s = some t ∧ Looping 4 t := by
  obtain ⟨h0, h1, h2⟩ := h
  refine ⟨_, by
    simp [steps, step, h0, atomicAdd, Cond.holds, hz, Op.exec, State.next, State.setReg, hf,
      Operand.eval]; rfl, ?_, ?_⟩
  all_goals simp [cmpFlags]

/-- With Z set and a `strex` that succeeds, `atomic_swap` stores once and returns the old word. -/
theorem swap_returns (h : LoopEntry s addr val) (hz : s.flags.z = true)
    (hf : s.spurious.head?.getD false = false) : UpdatesOnce atomicSwap s addr val := by
  obtain ⟨h0, h1, h2⟩ := h
  refine ⟨6, _, by
    simp [run, step, h0, atomicSwap, Cond.holds, hz, Op.exec, State.next, State.setReg, hf,
      Operand.eval, cmpFlags]; rfl, ?_, ?_, ?_⟩
  · simp [count, step, h0, atomicSwap, Cond.holds, hz, Op.exec, State.next, State.setReg, hf,
      Operand.eval, cmpFlags, storing]
  · simp [h1, h2]
  · simp [h1]

/-- `atomic_add` stores once too, but what it returns is the new word. -/
theorem add_returns (h : LoopEntry s addr val) (hz : s.flags.z = true)
    (hf : s.spurious.head?.getD false = false) :
    ∃ s', run (step atomicAdd) 7 s = some s' ∧
      count (step atomicAdd) (storing atomicAdd) 7 s = 1 ∧
      s'.mem = Function.update s.mem addr (s.mem addr + val) ∧ s'.regs .r0 = s.mem addr + val := by
  obtain ⟨h0, h1, h2⟩ := h
  refine ⟨_, by
    simp [run, step, h0, atomicAdd, Cond.holds, hz, Op.exec, State.next, State.setReg, hf,
      Operand.eval, cmpFlags]; rfl, ?_, ?_, ?_⟩
  · simp [count, step, h0, atomicAdd, Cond.holds, hz, Op.exec, State.next, State.setReg, hf,
      Operand.eval, cmpFlags, storing]
  · simp [h1, h2]
  · simp [h1, h2]

/-- What both loops need in order to come back at all. -/
def FirstPass (s : State) : Prop := s.flags.z = true ∧ s.spurious.head?.getD false = false

/-- A loop that updates once was entered with Z set and did not see its first `strex` fail. -/
theorem firstPass_of_updatesOnce {code : List Instr} {last k : Nat} {new : Word}
    (hc : RetryLoop code last) (hip : s.ip = 0)
    (hfail : s.flags.z = true → s.spurious.head?.getD false = true →
      ∃ t, steps (step code) k s = some t ∧ Looping last t)
    (h : UpdatesOnce code s addr new) : FirstPass s := by
  have hz : s.flags.z = true := by
    rw [← Bool.not_eq_false]
    intro hz
    exact Looping.not_updatesOnce hc (k := 0) rfl ⟨hz, by omega⟩ h
  refine ⟨hz, ?_⟩
  rw [← Bool.not_eq_true]
  intro hf
  obtain ⟨t, ht, hloop⟩ := hfail hz hf
  exact Looping.not_updatesOnce hc ht hloop h

/-- **When the ARM retry loops come back with the old word after one store.**  Both need Z set on
entry and a first `strex` that does not fail; `atomic_add` moreover returns the old word only if
the amount added is 0. -/
theorem arm_retry_loops_iff (s : State) (addr val : Word) (h : LoopEntry s addr val) :
    (UpdatesOnce atomicSwap s addr val ↔ FirstPass s) ∧
    (UpdatesOnce atomicAdd s addr (s.mem addr + val) ↔ FirstPass s ∧ val = 0) := by
  refine ⟨⟨?_, ?_⟩, ?_, ?_⟩
  · exact firstPass_of_updatesOnce retryLoop_swap h.ip (swap_fails h)
  · rintro ⟨hz, hf⟩
    exact swap_returns h hz hf
  · intro hu
    have hfirst := firstPass_of_updatesOnce retryLoop_add h.ip (add_fails h) hu
    obtain ⟨s', hrun', -, -, hr'⟩ := add_returns h hfirst.1 hfirst.2
    obtain ⟨n, t, hrun, -, -, hr⟩ := hu
    refine ⟨hfirst, ?_⟩
    obtain rfl : t = s' := run_unique hrun hrun'
    have hval : s.mem addr + val = s.mem addr := by rw [← hr', hr]
    bv_omega
  · rintro ⟨⟨hz, hf⟩, hval⟩
    obtain ⟨s', hrun, hcount, hmem, hr⟩ := add_returns h hz hf
    exact ⟨7, s', hrun, hcount, hmem, by simp [hr, hval]⟩

/-- `atomic_swap(64, 5)` or `atomic_add(64, 5)` on the word 3, Z set, the first `strex` failing. -/
def failsOnce : State where
  regs
    | .r0 => 64
    | .r1 => 5
    | _ => 0
  flags := ⟨false, true, false, false⟩
  monitor := none
  mem _ := 3
  spurious := [true]
  ip := 0

/-- Without the failure: the swap stores 5 and returns 3. -/
theorem swap_updates_once :
    UpdatesOnce atomicSwap { failsOnce with spurious := [] } 64 5 :=
  (arm_retry_loops_iff { failsOnce with spurious := [] } 64 5 ⟨rfl, rfl, rfl⟩).1.2 ⟨rfl, rfl⟩

/-- One failing `strex`, and neither routine ever returns; without it `atomic_add` leaves 8 and
returns 8 instead of 3. -/
theorem retry_loops_hang_or_return_new :
    LoopEntry failsOnce 64 5 ∧
    (∀ n, run (step atomicSwap) n failsOnce = none) ∧
    (∀ n, run (step atomicAdd) n failsOnce = none) ∧
    ¬ UpdatesOnce atomicSwap failsOnce 64 5 ∧
    ¬ UpdatesOnce atomicAdd failsOnce 64 8 ∧
    ∃ s', run (step atomicAdd) 7 { failsOnce with spurious := [] } = some s' ∧
      s'.mem 64 = 8 ∧ s'.regs .r0 = 8 := by
  have hentry : LoopEntry failsOnce 64 5 := ⟨rfl, rfl, rfl⟩
  obtain ⟨t, ht, hloop⟩ := swap_fails hentry rfl rfl
  obtain ⟨t', ht', hloop'⟩ := add_fails hentry rfl rfl
  refine ⟨hentry, ?_, ?_, Looping.not_updatesOnce retryLoop_swap ht hloop,
    Looping.not_updatesOnce retryLoop_add ht' hloop', _, rfl, rfl, rfl⟩
  · exact not_returns_of_steps ht
      (fun n => run_eq_none (fun _ => looping_step retryLoop_swap) n hloop)
  · exact not_returns_of_steps ht'
      (fun n => run_eq_none (fun _ => looping_step retryLoop_add) n hloop')

end Timix.Arm
