import Timix.Lib.Owner
import Timix.Lib.Run
import Timix.Mutex
import Timix.X86

/-!
# Mutexes on x86 (`kernel/mutex.c` over `arch/x86/kernel/atomic.S`)

Any number of threads run `mutex_lock`, `mutex_trylock` and `mutex_unlock` on the mutex at
address `mp`, one step being one instruction of `atomic_swap_conditional` or one private step of
the C code around it.

* `Pc` — `mutex_trylock` is entered (`tryCall`), runs the assembly routine (`tryAsm`), compares
  its result with `XCHG_SUCCESS` (`tryRet`); `mutex_lock` tests the result (`lockTest`) and loops.
* `Thread.holds` — ghost: the thread is between a successful return and its unlock store.
* `Thread.taken` — ghost: the thread made a successful exchange and has not stored `NULL` since.
* `Thread.changed` — ghost: a step of the current `mutex_trylock` changed `mp->owner`.

Principal result: `x86_mutex_exclusion`.
-/

set_option autoImplicit false

namespace Timix.MutexX86

open Timix.X86 Timix.Mutex Owner
open Linear (Outcome)

/-- Program points; `inLock` when `mutex_trylock` is called by `mutex_lock`. -/
inductive Pc where
  | idle
  /-- The call of `atomic_swap_conditional`. -/
  | tryCall (inLock : Bool)
  | tryAsm (inLock : Bool) (c : Cpu)
  /-- `if (swap == XCHG_SUCCESS)`. -/
  | tryRet (inLock : Bool) (swap : Word)
  /-- `while (mutex_trylock(mp) == MUTEX_DONT_GOT_IT)`. -/
  | lockTest (got : Int)
  /-- `mp->owner = MUTEX_OWNER_UNLOCKED`. -/
  | unlockStore

structure Thread where
  pc : Pc
  holds : Bool
  taken : Bool
  changed : Bool

/-- The shared memory, the threads, and what every `mutex_trylock` returned and whether it had
    changed `mp->owner`, oldest first. -/
structure State (T : Type) where
  mem : Mem
  thr : T → Thread
  rets : List (T × Int × Bool)

/-- A thread outside calls `mutex_lock`, `mutex_trylock` or, holding the mutex, `mutex_unlock`;
    `atomic_swap_conditional` is entered with any register contents `junk`; a thread inside
    takes its next step. -/
inductive Event (T : Type) where
  | lock (t : T)
  | trylock (t : T)
  | unlock (t : T)
  | enter (t : T) (junk : Cpu)
  | run (t : T)

variable {T : Type} [DecidableEq T]

def State.setThr (s : State T) (t : T) (th : Thread) : State T :=
  { s with thr := Function.update s.thr t th }

/-- The registers and the stack on entry to `atomic_swap_conditional(&(mp->owner), 1, NULL)`. -/
def entryCpu (mp : Word) (junk : Cpu) : Cpu :=
  { junk with
    stack := fun off =>
      if off = 4 then mp else if off = 8 then 1 else if off = 12 then MUTEX_OWNER_UNLOCKED
      else junk.stack off
    ip := 0
    loaded := none }

/-- The next instruction is a `lock cmpxchgl` on the mutex that finds its accumulator there. -/
def exchanges (mp : Word) (mem : Mem) (c : Cpu) : Bool :=
  match atomicSwapConditional[c.ip]? with
  | some (.lockCmpxchg _ addr) => c.regs addr == mp && c.regs .eax == mem mp
  | _ => false

/-- One event. -/
def step (mp : Word) (s : State T) : Event T → Option (State T)
  | .lock t => match (s.thr t).pc with
    | .idle => some (s.setThr t { s.thr t with pc := .tryCall true })
    | _ => none
  | .trylock t => match (s.thr t).pc with
    | .idle => some (s.setThr t { s.thr t with pc := .tryCall false })
    | _ => none
  | .unlock t => match (s.thr t).pc with
    | .idle =>
      if (s.thr t).holds then some (s.setThr t { s.thr t with pc := .unlockStore }) else none
    | _ => none
  | .enter t junk => match (s.thr t).pc with
    | .tryCall inLock =>
      some (s.setThr t { s.thr t with pc := .tryAsm inLock (entryCpu mp junk), changed := false })
    | _ => none
  | .run t => match (s.thr t).pc with
    | .tryAsm inLock c =>
      match c.step atomicSwapConditional s.mem with
      | none => none
      | some (.returned c') =>
        some (s.setThr t { s.thr t with pc := .tryRet inLock (c'.regs .eax) })
      | some (.running c' mem') =>
        some ({ s with mem := mem' }.setThr t { s.thr t with
          pc := .tryAsm inLock c'
          taken := (s.thr t).taken || exchanges mp s.mem c
          changed := (s.thr t).changed || decide (mem' mp ≠ s.mem mp) })
    | .tryRet inLock swap =>
      let got := if swap = XCHG_SUCCESS then MUTEX_GOT_IT else MUTEX_DONT_GOT_IT
      let s := { s with rets := s.rets ++ [(t, got, (s.thr t).changed)] }
      if inLock then some (s.setThr t { s.thr t with pc := .lockTest got })
      else some (s.setThr t { s.thr t with
        pc := .idle, holds := (s.thr t).holds || decide (got = MUTEX_GOT_IT) })
    | .lockTest got =>
      if got = MUTEX_DONT_GOT_IT then some (s.setThr t { s.thr t with pc := .tryCall true })
      else some (s.setThr t { s.thr t with pc := .idle, holds := true })
    | .unlockStore =>
      some ({ s with mem := Function.update s.mem mp MUTEX_OWNER_UNLOCKED }.setThr t
        { s.thr t with pc := .idle, holds := false, taken := false })
    | _ => none

/-- After `mutex_init`, with all threads outside. -/
def initial (mp : Word) (mem : Mem) : State T where
  mem := Function.update mem mp MUTEX_OWNER_UNLOCKED
  thr _ := ⟨.idle, false, false, false⟩
  rets := []

/-! ## The invariant -/

/-- The exchange of the current call was made exactly if `mp->owner` was changed; only a thread
    that did not hold the mutex made one. -/
structure Settled (th : Thread) : Prop where
  taken : th.taken = (th.holds || th.changed)
  fresh : th.changed = true → th.holds = false

theorem Settled.pc {th : Thread} (h : Settled th) (p : Pc) : Settled { th with pc := p } :=
  ⟨h.taken, h.fresh⟩

/-- What holds at each instruction of `atomic_swap_conditional`. -/
def PointOk (mp : Word) (c : Cpu) (th : Thread) : Prop :=
  match c.ip with
  | 0 => th.changed = false
  | 1 => th.changed = false ∧ c.regs .eax = 0
  | 2 => th.changed = false ∧ c.regs .eax = 0 ∧ c.regs .ecx = 1
  | 3 => th.changed = false ∧ c.regs .eax = 0 ∧ c.regs .ecx = 1 ∧ c.regs .edx = mp
  | 4 => c.zf = th.changed
  | 5 => th.changed = true
  | 6 => th.changed = true ∧ c.regs .eax = 0
  | 7 => th.changed = false
  | 8 => th.changed = false ∧ c.regs .eax = 1
  | _ => False

structure AsmOk (mp : Word) (c : Cpu) (th : Thread) : Prop where
  stack : c.stack 4 = mp ∧ c.stack 8 = 1 ∧ c.stack 12 = 0
  settled : Settled th
  point : PointOk mp c th

/-- What a program point says about its thread. -/
def ThreadOk (mp : Word) (th : Thread) : Prop :=
  match th.pc with
  | .idle | .tryCall _ => th.taken = th.holds
  | .tryAsm _ c => AsmOk mp c th
  | .tryRet _ swap => Settled th ∧ (swap = XCHG_SUCCESS ↔ th.changed = true)
  | .lockTest got => Settled th ∧ (got = MUTEX_DONT_GOT_IT ↔ th.changed = false)
  | .unlockStore => th.holds = true ∧ th.taken = true

/-- The mutex invariant: `o` is the thread whose exchange stands. -/
structure Inv (mp : Word) (s : State T) (o : Option T) : Prop where
  thr : ∀ t, ThreadOk mp (s.thr t)
  owner : Held o Thread.taken s.thr
  mem : s.mem mp = if o.isSome then 1 else MUTEX_OWNER_UNLOCKED
  rets : ∀ r ∈ s.rets, r.2.1 = MUTEX_DONT_GOT_IT → r.2.2 = false

omit [DecidableEq T] in
theorem inv_initial (mp : Word) (mem : Mem) : Inv mp (initial mp mem : State T) none where
  thr _ := rfl
  owner _ := by simp [initial]
  mem := by simp [initial]
  rets r hr := by cases hr

/-! ## `atomic_swap_conditional`, instruction by instruction -/

theorem AsmOk.entry (mp : Word) (junk : Cpu) {th : Thread} (ht : th.taken = th.holds)
    (hc : th.changed = false) : AsmOk mp (entryCpu mp junk) th where
  stack := ⟨rfl, rfl, rfl⟩
  settled := ⟨by rw [ht, hc, Bool.or_false], fun h => by rw [hc] at h; cases h⟩
  point := hc

/-- **One instruction**: it is private, or it is the exchange, or the routine returns. -/
theorem AsmOk.step {mp : Word} {c : Cpu} {th : Thread} {mem : Mem} {out : Outcome Cpu Mem Cpu}
    (h : AsmOk mp c th) (hstep : c.step atomicSwapConditional mem = some out) :
    (∃ c', out = .running c' mem ∧ exchanges mp mem c = false ∧ AsmOk mp c' th) ∨
    (∃ c', out = .running c' (Function.update mem mp 1) ∧ exchanges mp mem c = true ∧
      th.changed = false ∧ mem mp = 0 ∧
      ∀ th', Settled th' → th'.changed = true → AsmOk mp c' th') ∨
    ∃ c', out = .returned c' ∧ (c'.regs .eax = XCHG_SUCCESS ↔ th.changed = true) := by
  obtain ⟨⟨h4, h8, h12⟩, hset, hp⟩ := h
  obtain ⟨regs, zf, stack, ip, loaded⟩ := c
  simp only at h4 h8 h12
  unfold PointOk at hp
  split at hp <;> rename_i hip <;> simp only at hip hp <;> subst hip
  case h_1 =>
    -- movl 12(%esp), %eax
    cases hstep
    exact Or.inl ⟨_, rfl, rfl, ⟨h4, h8, h12⟩, hset, hp, by simp [Cpu.next, Cpu.setReg, h12]⟩
  case h_2 =>
    cases hstep
    exact Or.inl ⟨_, rfl, rfl, ⟨h4, h8, h12⟩, hset, hp.1, by simp [Cpu.next, Cpu.setReg, hp],
      by simp [Cpu.next, Cpu.setReg, h8]⟩
  case h_3 =>
    cases hstep
    exact Or.inl ⟨_, rfl, rfl, ⟨h4, h8, h12⟩, hset, hp.1, by simp [Cpu.next, Cpu.setReg, hp],
      by simp [Cpu.next, Cpu.setReg, hp], by simp [Cpu.next, Cpu.setReg, h4]⟩
  case h_4 =>
    -- lock cmpxchgl %ecx, (%edx)
    obtain ⟨hc, heax, hecx, hedx⟩ := hp
    simp [Cpu.step, atomicSwapConditional, Instr.exec, heax, hecx, hedx] at hstep
    subst hstep
    by_cases hm : 0#32 = mem mp
    · refine Or.inr (Or.inl ⟨_, if_pos hm, ?_, hc, hm.symm, ?_⟩)
      · simp [exchanges, atomicSwapConditional, heax, hedx, hm]
      · intro th' hs hc'
        exact ⟨⟨h4, h8, h12⟩, hs, hc'.symm⟩
    · refine Or.inl ⟨_, if_neg hm, ?_, ⟨h4, h8, h12⟩, hset, ?_⟩
      · simp [exchanges, atomicSwapConditional, heax, hedx, hm]
      · exact hc.symm
  case h_5 =>
    -- jnz no_xchg
    simp [Cpu.step, atomicSwapConditional, Instr.exec] at hstep
    subst hstep
    cases zf with
    | true => exact Or.inl ⟨_, rfl, rfl, ⟨h4, h8, h12⟩, hset, hp.symm⟩
    | false => exact Or.inl ⟨_, rfl, rfl, ⟨h4, h8, h12⟩, hset, hp.symm⟩
  case h_6 =>
    cases hstep
    exact Or.inl ⟨_, rfl, rfl, ⟨h4, h8, h12⟩, hset, hp, by simp [Cpu.next, Cpu.setReg]⟩
  case h_7 =>
    cases hstep
    exact Or.inr (Or.inr ⟨_, rfl, by simp [hp, XCHG_SUCCESS]⟩)
  case h_8 =>
    cases hstep
    exact Or.inl ⟨_, rfl, rfl, ⟨h4, h8, h12⟩, hset, hp, by simp [Cpu.next, Cpu.setReg]⟩
  case h_9 =>
    cases hstep
    exact Or.inr (Or.inr ⟨_, rfl, by simp [hp, XCHG_SUCCESS]⟩)

/-! ## All steps -/

section Step

variable {mp : Word} {s s' : State T} {o : Option T} {t : T}

theorem threadOk_update {thr : T → Thread} {th : Thread} (h : ∀ u, ThreadOk mp (thr u))
    (hth : ThreadOk mp th) : ∀ u, ThreadOk mp (Function.update thr t th u) :=
  (Function.forall_update_iff thr fun _ => ThreadOk mp).2 ⟨hth, fun u _ => h u⟩

omit [DecidableEq T] in
/-- A free mutex is nobody's. -/
theorem Inv.owner_none (h : Inv mp s o) (hfree : s.mem mp = 0) : o = none := by
  have hmem := h.mem
  rw [hfree] at hmem
  cases o with
  | none => rfl
  | some v =>
    rw [Option.isSome_some, if_pos rfl] at hmem
    exact absurd hmem (by decide)

/-- A step of `t` that keeps memory, its `taken` bit and the results. -/
theorem Inv.keep (h : Inv mp s o) {th : Thread} (hth : ThreadOk mp th)
    (ht : th.taken = (s.thr t).taken) : Inv mp (s.setThr t th) o where
  thr := threadOk_update h.thr hth
  owner := h.owner.move ht
  mem := h.mem
  rets := h.rets

/-- **The exchange**: the mutex was free and is now `t`'s. -/
theorem Inv.exchange (h : Inv mp s o) {th : Thread} (hfree : s.mem mp = 0)
    (hth : ThreadOk mp th) (ht : th.taken = true) :
    Inv mp ({ s with mem := Function.update s.mem mp 1 }.setThr t th) (some t) where
  thr := threadOk_update h.thr hth
  owner := h.owner.take (h.owner_none hfree) ht
  mem := Function.update_self ..
  rets := h.rets

/-- **The unlock store**: nobody has the mutex any more. -/
theorem Inv.release (h : Inv mp s o) {th : Thread} (htaken : (s.thr t).taken = true)
    (hth : ThreadOk mp th) (ht : th.taken = false) :
    Inv mp ({ s with mem := Function.update s.mem mp MUTEX_OWNER_UNLOCKED }.setThr t th) none where
  thr := threadOk_update h.thr hth
  owner := h.owner.drop htaken ht
  mem := Function.update_self ..
  rets := h.rets

omit [DecidableEq T] in
/-- The return of `mutex_trylock`. -/
theorem Inv.tryRet (h : Inv mp s o) {got : Int}
    (hgot : got = MUTEX_DONT_GOT_IT ↔ (s.thr t).changed = false) :
    Inv mp { s with rets := s.rets ++ [(t, got, (s.thr t).changed)] } o where
  thr := h.thr
  owner := h.owner
  mem := h.mem
  rets := by
    intro r hr hr0
    rcases List.mem_append.1 hr with hr | hr
    · exact h.rets r hr hr0
    · rw [List.mem_singleton.1 hr] at hr0 ⊢
      exact hgot.1 hr0

/-- **An instruction of the routine keeps the invariant**; the exchange passes the mutex to
`t`. -/
theorem Inv.asm (h : Inv mp s o) {inLock : Bool} {c c' : Cpu} {mem' : Mem}
    (hok : AsmOk mp c (s.thr t))
    (hc : c.step atomicSwapConditional s.mem = some (.running c' mem')) :
    ∃ o', Inv mp ({ s with mem := mem' }.setThr t { s.thr t with
      pc := .tryAsm inLock c'
      taken := (s.thr t).taken || exchanges mp s.mem c
      changed := (s.thr t).changed || decide (mem' mp ≠ s.mem mp) }) o' := by
  rcases hok.step hc with ⟨_, he, hex, hok'⟩ | ⟨_, he, hex, hch, hm, hok'⟩ | ⟨_, he, _⟩
  · -- private: neither the memory nor the ghosts change
    cases he
    refine ⟨o, h.keep ?_ (by simp [hex])⟩
    rw [hex, Bool.or_false]
    simp only [ne_eq, not_true_eq_false, decide_false, Bool.or_false]
    exact ⟨hok'.stack, hok'.settled.pc _, hok'.point⟩
  · cases he
    have hnot : (s.thr t).taken = false := h.owner.not_of_free (h.owner_none hm) t
    have hset := hok.settled.taken
    rw [hnot, hch, Bool.or_false] at hset
    refine ⟨some t, h.exchange hm ?_ (by simp [hex])⟩
    refine hok' _ ⟨?_, fun _ => hset.symm⟩ ?_
    · simp [hex, ← hset, hm]
    · simp [hm]
  · cases he

/-- The result of `mutex_trylock` says whether the routine changed `mp->owner`. -/
theorem dont_got_it_iff {swap : Word} {changed : Bool}
    (hswap : swap = XCHG_SUCCESS ↔ changed = true) :
    (if swap = XCHG_SUCCESS then MUTEX_GOT_IT else MUTEX_DONT_GOT_IT) = MUTEX_DONT_GOT_IT ↔
      changed = false := by
  rw [← Bool.not_eq_true, ← hswap]
  split
  · rename_i hx
    exact iff_of_false (by decide) (not_not.2 hx)
  · rename_i hx
    exact iff_of_true rfl hx

/-- A step inside a call. -/
theorem Inv.run (h : Inv mp s o) (hs : MutexX86.step mp s (.run t) = some s') :
    ∃ o', Inv mp s' o' := by
  have hok := h.thr t
  unfold ThreadOk at hok
  simp only [MutexX86.step] at hs
  split at hs
  · rename_i inLock c hpc
    rw [hpc] at hok
    split at hs
    · cases hs
    · rename_i c' hc
      cases hs
      rcases hok.step hc with ⟨_, he, _⟩ | ⟨_, he, _⟩ | ⟨_, he, hret⟩
      · cases he
      · cases he
      · cases he
        exact ⟨o, h.keep ⟨hok.settled.pc _, hret⟩ rfl⟩
    · rename_i c' mem' hc
      cases hs
      exact h.asm hok hc
  · rename_i inLock swap hpc
    rw [hpc] at hok
    obtain ⟨hset, hswap⟩ := hok
    have hgot := dont_got_it_iff hswap
    split at hs
    · cases hs
      exact ⟨o, (h.tryRet hgot).keep ⟨hset.pc _, hgot⟩ rfl⟩
    · cases hs
      refine ⟨o, (h.tryRet hgot).keep ?_ rfl⟩
      show (s.thr t).taken = ((s.thr t).holds || _)
      rw [hset.taken]
      cases hc : (s.thr t).changed with
      | true => simp [hswap.2 hc, MUTEX_GOT_IT]
      | false => rw [hgot.2 hc]; simp [MUTEX_DONT_GOT_IT, MUTEX_GOT_IT]
  · rename_i got hpc
    rw [hpc] at hok
    obtain ⟨hset, hgot⟩ := hok
    split at hs
    · rename_i hd
      cases hs
      refine ⟨o, h.keep ?_ rfl⟩
      show (s.thr t).taken = (s.thr t).holds
      rw [hset.taken, hgot.1 hd, Bool.or_false]
    · rename_i hd
      cases hs
      have hch : (s.thr t).changed = true := by
        rw [← Bool.not_eq_false]
        intro hc
        exact hd (hgot.2 hc)
      refine ⟨o, h.keep ?_ rfl⟩
      show (s.thr t).taken = true
      rw [hset.taken, hch, Bool.or_true]
  · rename_i hpc
    rw [hpc] at hok
    cases hs
    exact ⟨none, h.release hok.2 rfl rfl⟩
  · cases hs

/-- **Every step keeps the mutex invariant.** -/
theorem Inv.step {e : Event T} (h : Inv mp s o) (hs : step mp s e = some s') :
    ∃ o', Inv mp s' o' := by
  cases e with
  | lock t | trylock t =>
    have hok := h.thr t
    unfold ThreadOk at hok
    simp only [MutexX86.step] at hs
    split at hs
    · rename_i hpc
      rw [hpc] at hok
      cases hs
      exact ⟨o, h.keep hok rfl⟩
    · cases hs
  | unlock t =>
    have hok := h.thr t
    unfold ThreadOk at hok
    simp only [MutexX86.step] at hs
    split at hs
    · rename_i hpc
      rw [hpc] at hok
      split at hs
      · rename_i hh
        cases hs
        exact ⟨o, h.keep ⟨hh, by rw [← hh]; exact hok⟩ rfl⟩
      · cases hs
    · cases hs
  | enter t junk =>
    have hok := h.thr t
    unfold ThreadOk at hok
    simp only [MutexX86.step] at hs
    split at hs
    · rename_i inLock hpc
      rw [hpc] at hok
      cases hs
      exact ⟨o, h.keep (AsmOk.entry mp junk hok rfl) rfl⟩
    · cases hs
  | run t => exact h.run hs

omit [DecidableEq T] in
/-- A thread that holds the mutex made the exchange that stands. -/
theorem Inv.taken_of_holds (h : Inv mp s o) (hh : (s.thr t).holds = true) :
    (s.thr t).taken = true := by
  have hok := h.thr t
  unfold ThreadOk at hok
  split at hok
  · rw [hok, hh]
  · rw [hok, hh]
  · rw [hok.settled.taken, hh, Bool.true_or]
  · rw [hok.1.taken, hh, Bool.true_or]
  · rw [hok.1.taken, hh, Bool.true_or]
  · exact hok.2

end Step

/-- **Mutual exclusion on x86.**  Whatever the interleaving of the instructions, at most one
thread is between a successful `mutex_lock` or `mutex_trylock` and its unlock store, `mp->owner`
is `NULL` exactly when no successful exchange stands, and a `mutex_trylock` that failed has not
changed `mp->owner`. -/
theorem x86_mutex_exclusion (mp : Word) (mem : Mem) (es : List (Event T)) {s : State T}
    (h : Lts.exec (step mp) (initial mp mem) es = some s) :
    (∀ t u, (s.thr t).holds = true → (s.thr u).holds = true → t = u) ∧
    (s.mem mp = MUTEX_OWNER_UNLOCKED ↔ ∀ t, (s.thr t).taken = false) ∧
    ∀ t changed, (t, MUTEX_DONT_GOT_IT, changed) ∈ s.rets → changed = false := by
  obtain ⟨o, hi⟩ : ∃ o, Inv mp s o :=
    Lts.exec_inv (I := fun s => ∃ o, Inv mp s o) (fun s e s' ⟨_, hi⟩ hs => hi.step hs)
      ⟨none, inv_initial mp mem⟩ h
  refine ⟨?_, ?_, fun t changed hr => hi.rets _ hr rfl⟩
  · intro t u ht hu
    exact hi.owner.unique (hi.taken_of_holds ht) (hi.taken_of_holds hu)
  · rw [hi.mem]
    cases ho : o with
    | none =>
      exact iff_of_true rfl (hi.owner.not_of_free ho)
    | some t =>
      apply iff_of_false (by rw [Option.isSome_some, if_pos rfl]; decide)
      intro hall
      have := (hi.owner t).1 ho
      rw [hall t] at this
      cases this

/-- Thread `t` locks the mutex, then thread `u` fails to. -/
def lockThenTrylock {T : Type} (t u : T) : List (Event T) :=
  [.lock t, .enter t junkCpu] ++ List.replicate 9 (.run t) ++ [.trylock u, .enter u junkCpu] ++
    List.replicate 8 (.run u)

theorem lockThenTrylock_excludes : ∃ s : State (Fin 2),
    Lts.exec (step 64) (initial 64 fun _ => 5) (lockThenTrylock 0 1) = some s ∧
      (s.thr 0).holds = true ∧
      s.rets = [(0, MUTEX_GOT_IT, true), (1, MUTEX_DONT_GOT_IT, false)] ∧
      ∀ t u, (s.thr t).holds = true → (s.thr u).holds = true → t = u :=
  ⟨_, rfl, rfl, rfl, (x86_mutex_exclusion 64 (fun _ => 5) (lockThenTrylock 0 1) rfl).1⟩

end Timix.MutexX86
