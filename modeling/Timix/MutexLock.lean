import Timix.Lib.Linear
import Timix.MutexX86

/-!
# x86 mutexes are locks (`kernel/mutex.c`)

The atomic lock: `mutex_lock` takes effect when nobody owns the lock, `mutex_trylock` says whether
that was so, `mutex_unlock` gives it back.  The calls and returns of `Timix.MutexX86`, at the
granularity of single instructions, are those of that object.

* `label` — the calls and returns that an event shows.
* `Thread.status` — what the lock knows of a thread; a `mutex_lock` that has to go round again is
  still pending, a `mutex_trylock` has taken effect at its `lock cmpxchgl`.
* `Thread.rank` — how far a thread inside `mutex_lock` is from acquiring a free mutex.

Principal result: `x86_mutex_linearizable`.
-/

set_option autoImplicit false

namespace Timix.MutexX86

open Timix.X86 Timix.Mutex Owner Linear

inductive Op where
  | lock
  | trylock
  | unlock
  deriving DecidableEq, Repr

variable {T : Type} [DecidableEq T]

/-- A call of `t` carried out alone on a lock with an owner or without. -/
inductive Alone : Option T → T × Op → Option Int → Option T → Prop where
  | lock (t : T) : Alone none (t, .lock) none (some t)
  | got (t : T) : Alone none (t, .trylock) (some MUTEX_GOT_IT) (some t)
  | missed (t u : T) : Alone (some u) (t, .trylock) (some MUTEX_DONT_GOT_IT) (some u)
  | unlock (t : T) : Alone (some t) (t, .unlock) none none

/-- The calls, and the returns with their results. -/
def label (s : State T) : Event T → List (Act T (T × Op) (Option Int))
  | .lock t => [.call t (t, .lock)]
  | .trylock t => [.call t (t, .trylock)]
  | .unlock t => [.call t (t, .unlock)]
  | .enter .. => []
  | .run t => match (s.thr t).pc with
    | .tryRet false swap =>
      [.ret t (some (if swap = XCHG_SUCCESS then MUTEX_GOT_IT else MUTEX_DONT_GOT_IT))]
    | .lockTest got => if got = MUTEX_DONT_GOT_IT then [] else [.ret t none]
    | .unlockStore => [.ret t none]
    | _ => []

/-- The result of a `mutex_trylock` that changed `mp->owner` or not. -/
def gotIt (changed : Bool) : Int := if changed then MUTEX_GOT_IT else MUTEX_DONT_GOT_IT

def Thread.status (t : T) (th : Thread) : Status (T × Op) (Option Int) :=
  match th.pc with
  | .idle => .out
  | .tryCall true => .pending (t, .lock)
  | .tryCall false => .pending (t, .trylock)
  | .tryAsm true _ | .tryRet true _ | .lockTest _ =>
    if th.changed then .done none else .pending (t, .lock)
  | .tryAsm false c =>
    if 3 < c.ip then .done (some (gotIt th.changed)) else .pending (t, .trylock)
  | .tryRet false _ => .done (some (gotIt th.changed))
  | .unlockStore => .pending (t, .unlock)

/-- The lock has shown the same calls and returns, has the same owner, and knows where every
thread is. -/
def Shown (mp : Word) (s : State T) (h : List (Act T (T × Op) (Option Int))) : Prop :=
  ∃ o, Inv mp s o ∧ Atomic Alone none h o fun t => (s.thr t).status t

section Step

variable {mp : Word} {s s' : State T} {o o' : Option T} {t : T}
  {h : List (Act T (T × Op) (Option Int))}

theorem status_update (thr : T → Thread) (t : T) (th : Thread) :
    (fun u => (Function.update thr t th u).status u) =
      Function.update (fun u => (thr u).status u) t (th.status t) :=
  funext (Function.apply_update (fun u th => Thread.status u th) thr t th)

omit [DecidableEq T] in
/-- The owner is read off the threads. -/
theorem Inv.owner_eq (hi : Inv mp s o) (hi' : Inv mp s' o')
    (ht : ∀ u, (s'.thr u).taken = (s.thr u).taken) : o' = o := by
  apply Option.ext
  intro u
  rw [hi'.owner u, hi.owner u, ht u]

theorem taken_update {th : Thread} (ht : th.taken = (s.thr t).taken) (u : T) :
    (Function.update s.thr t th u).taken = (s.thr u).taken := by
  by_cases hu : u = t
  · subst hu
    rw [Function.update_self, ht]
  · rw [Function.update_of_ne hu]

/-- `t` goes on, unseen or with one event at the lock, and the owner stays. -/
theorem Shown.keep (th : Thread) {l : List (Act T (T × Op) (Option Int))} (hi : Inv mp s o)
    (hthr : s'.thr = Function.update s.thr t th) (ht : th.taken = (s.thr t).taken)
    (hi' : ∃ o', Inv mp s' o')
    (hat : Atomic Alone none (h ++ l) o
      (Function.update (fun u => (s.thr u).status u) t (th.status t))) :
    Shown mp s' (h ++ l) := by
  obtain ⟨o', hi'⟩ := hi'
  obtain rfl : o' = o := by
    apply hi.owner_eq hi'
    rw [hthr]
    exact taken_update ht
  refine ⟨o', hi', ?_⟩
  rw [hthr, status_update]
  exact hat

/-- `t` goes on, and the lock knows nothing of it. -/
theorem Shown.silent (th : Thread) (hi : Inv mp s o)
    (hat : Atomic Alone none h o fun u => (s.thr u).status u)
    (hthr : s'.thr = Function.update s.thr t th) (ht : th.taken = (s.thr t).taken)
    (hi' : ∃ o', Inv mp s' o') (hst : th.status t = (s.thr t).status t) :
    Shown mp s' (h ++ []) := by
  refine Shown.keep th hi hthr ht hi' ?_
  rw [List.append_nil, hst]
  rwa [Function.update_eq_self (f := fun u => (s.thr u).status u)]

/-! ## Inside the routine -/

section Asm

variable {c c' : Cpu} {mem mem' : Mem} {th : Thread}

/-- An instruction goes on to the next one, or jumps to `no_xchg`. -/
theorem step_ip (hs : c.step atomicSwapConditional mem = some (.running c' mem')) :
    c'.ip = c.ip + 1 ∨ c.ip = 4 ∧ c'.ip = 7 := by
  obtain ⟨regs, zf, stack, ip, loaded⟩ := c
  rcases ip with _ | _ | _ | _ | _ | _ | _ | _ | _ | ip
  case succ.succ.succ.zero =>
    -- lock cmpxchgl %ecx, (%edx)
    simp only [Cpu.step, atomicSwapConditional, Instr.exec, Nat.reduceAdd, List.getElem?_cons_succ,
      List.getElem?_cons_zero, Option.map_some, Option.some.injEq] at hs
    split at hs
    · cases hs; exact Or.inl rfl
    · cases hs; exact Or.inl rfl
  case succ.succ.succ.succ.zero =>
    -- jnz no_xchg
    cases zf with
    | true => cases hs; exact Or.inl rfl
    | false => cases hs; exact Or.inr ⟨rfl, rfl⟩
  all_goals first | (cases hs; exact Or.inl rfl) | cases hs

/-- The routine returns behind its exchange. -/
theorem ip_of_returned (hs : c.step atomicSwapConditional mem = some (.returned c')) :
    c.ip = 6 ∨ c.ip = 8 := by
  obtain ⟨i, hi, he⟩ := Option.map_eq_some_iff.1 hs
  have hret : i = .ret := by
    cases i with
    | lockCmpxchg | lockCmpxchg8b | xaddl => simp only [Instr.exec] at he; split at he <;> cases he
    | ret => rfl
    | _ => cases he
  subst hret
  generalize c.ip = k at hi
  rcases k with _ | _ | _ | _ | _ | _ | _ | _ | _ | k
  case succ.succ.succ.succ.succ.succ.zero => exact Or.inl rfl
  case succ.succ.succ.succ.succ.succ.succ.succ.zero => exact Or.inr rfl
  all_goals cases hi

/-- The exchange is instruction 3, and it fails only on a mutex that is taken. -/
theorem AsmOk.exchanges_iff (hok : AsmOk mp c th) :
    exchanges mp mem c = true ↔ c.ip = 3 ∧ mem mp = 0 := by
  obtain ⟨regs, zf, stack, ip, loaded⟩ := c
  obtain ⟨-, -, hp⟩ := hok
  rcases ip with _ | _ | _ | _ | ip
  case succ.succ.succ.zero =>
    obtain ⟨-, heax, -, hedx⟩ : th.changed = false ∧ regs .eax = 0 ∧ regs .ecx = 1 ∧
      regs .edx = mp := hp
    change (regs .edx == mp && regs .eax == mem mp) = true ↔ _
    rw [Bool.and_eq_true, beq_iff_eq, beq_iff_eq, heax]
    exact ⟨fun h => ⟨rfl, h.2.symm⟩, fun h => ⟨hedx, h.2.symm⟩⟩
  case succ.succ.succ.succ =>
    rcases ip with _ | _ | _ | _ | _ | ip <;> simp [exchanges, atomicSwapConditional]
  all_goals simp [exchanges, atomicSwapConditional]

end Asm

/-! ## All steps -/

theorem gotIt_eq {swap : Word} {changed : Bool} (hswap : swap = XCHG_SUCCESS ↔ changed = true) :
    (if swap = XCHG_SUCCESS then MUTEX_GOT_IT else MUTEX_DONT_GOT_IT) = gotIt changed := by
  unfold gotIt
  by_cases hs : swap = XCHG_SUCCESS
  · rw [if_pos hs, if_pos (hswap.1 hs)]
  · rw [if_neg hs, if_neg fun hc => hs (hswap.2 hc)]

/-- **An instruction of the routine**: the exchange takes effect, of `mutex_lock` if it succeeds,
of `mutex_trylock` in any case. -/
theorem Shown.asm (hi : Inv mp s o) (hat : Atomic Alone none h o fun u => (s.thr u).status u)
    {inLock : Bool} {c c' : Cpu} {mem' : Mem} (hpc : (s.thr t).pc = .tryAsm inLock c)
    (hs : c.step atomicSwapConditional s.mem = some (.running c' mem'))
    (hi' : ∃ o', Inv mp ({ s with mem := mem' }.setThr t { s.thr t with
      pc := .tryAsm inLock c'
      taken := (s.thr t).taken || exchanges mp s.mem c
      changed := (s.thr t).changed || decide (mem' mp ≠ s.mem mp) }) o') :
    Shown mp ({ s with mem := mem' }.setThr t { s.thr t with
      pc := .tryAsm inLock c'
      taken := (s.thr t).taken || exchanges mp s.mem c
      changed := (s.thr t).changed || decide (mem' mp ≠ s.mem mp) }) (h ++ []) := by
  have hok := hi.thr t
  rw [ThreadOk, hpc] at hok
  have hip := step_ip hs
  have hno : exchanges mp s.mem c = false → mem' = s.mem →
      Shown mp ({ s with mem := mem' }.setThr t { s.thr t with
        pc := .tryAsm inLock c'
        taken := (s.thr t).taken || exchanges mp s.mem c
        changed := (s.thr t).changed || decide (mem' mp ≠ s.mem mp) }) (h ++ []) := by
    rintro hex rfl
    have htaken : ((s.thr t).taken || exchanges mp s.mem c) = (s.thr t).taken := by
      rw [hex, Bool.or_false]
    have hchanged : ((s.thr t).changed || decide (s.mem mp ≠ s.mem mp)) = (s.thr t).changed := by
      simp
    rw [htaken, hchanged] at hi' ⊢
    by_cases hmiss : c.ip = 3 ∧ inLock = false
    · -- a `mutex_trylock` that finds the mutex taken
      obtain ⟨h3, rfl⟩ := hmiss
      have hch : (s.thr t).changed = false := by
        have hp := hok.point
        rw [PointOk, h3] at hp
        exact hp.1
      obtain ⟨u, rfl⟩ : ∃ u, o = some u := by
        cases o with
        | some u => exact ⟨u, rfl⟩
        | none =>
          have hex' := hok.exchanges_iff.2 ⟨h3, hi.mem⟩
          rw [hex] at hex'
          cases hex'
      refine Shown.keep _ hi rfl rfl hi' ?_
      rw [List.append_nil]
      have hst : (s.thr t).status t = .pending (t, .trylock) := by
        rw [Thread.status, hpc]
        exact if_neg (by omega)
      have hst' : Thread.status t { s.thr t with pc := .tryAsm false c' } =
          .done (some MUTEX_DONT_GOT_IT) := by
        rw [Thread.status, hch]
        exact if_pos (by omega)
      rw [hst']
      exact hat.effect hst (.missed t u)
    · refine Shown.silent _ hi hat rfl rfl hi' ?_
      rw [Thread.status, Thread.status, hpc]
      cases inLock with
      | true => rfl
      | false =>
        have hne : c.ip ≠ 3 := fun h3 => hmiss ⟨h3, rfl⟩
        have hiff : 3 < c'.ip ↔ 3 < c.ip := by omega
        simp only [hiff]
  rcases hok.step hs with ⟨_, he, hex, _⟩ | ⟨_, he, hex, hch, hm, _⟩ | ⟨_, he, _⟩
  · cases he
    exact hno hex rfl
  · -- the exchange takes effect
    cases he
    obtain ⟨h3, -⟩ := hok.exchanges_iff.1 hex
    obtain ⟨o', hi'⟩ := hi'
    have htaken : ((s.thr t).taken || exchanges mp s.mem c) = true := by
      rw [hex, Bool.or_true]
    have hchanged : ((s.thr t).changed || decide (Function.update s.mem mp 1 mp ≠ s.mem mp)) =
        true := by
      rw [hch, Function.update_self, hm]
      rfl
    rw [htaken, hchanged] at hi' ⊢
    obtain rfl : o' = some t := (hi'.owner t).2 (by
      show Thread.taken (Function.update s.thr t _ t) = true
      rw [Function.update_self])
    obtain rfl := hi.owner_none hm
    refine ⟨some t, hi', ?_⟩
    show Atomic Alone none _ _ fun u => (Function.update s.thr t _ u).status u
    rw [List.append_nil, status_update]
    cases inLock with
    | true =>
      refine hat.effect (a := (t, .lock)) ?_ (.lock t)
      show (s.thr t).status t = _
      rw [Thread.status, hpc, hch]
      rfl
    | false =>
      have hst' : Thread.status t
          { s.thr t with pc := .tryAsm false c', taken := true, changed := true } =
            .done (some MUTEX_GOT_IT) := if_pos (by omega)
      rw [hst']
      refine hat.effect (a := (t, .trylock)) ?_ (.got t)
      show (s.thr t).status t = _
      rw [Thread.status, hpc]
      exact if_neg (by omega)
  · cases he

/-- A step inside a call. -/
theorem Shown.run (hi : Inv mp s o) (hat : Atomic Alone none h o fun u => (s.thr u).status u)
    (hs : MutexX86.step mp s (.run t) = some s') (hi' : ∃ o', Inv mp s' o') :
    Shown mp s' (h ++ label s (.run t)) := by
  have hok := hi.thr t
  unfold ThreadOk at hok
  simp only [MutexX86.step] at hs
  unfold label
  dsimp only
  split at hs
  · rename_i inLock c hpc
    rw [hpc] at hok ⊢
    split at hs
    · cases hs
    · rename_i c' hc
      cases hs
      refine Shown.silent { s.thr t with pc := .tryRet inLock (c'.regs .eax) } hi hat rfl rfl hi' ?_
      have hip := ip_of_returned hc
      rw [Thread.status, Thread.status, hpc]
      cases inLock with
      | true => rfl
      | false => exact (if_pos (by omega)).symm
    · cases hs
      exact Shown.asm hi hat hpc ‹_› hi'
  · rename_i inLock swap hpc
    rw [hpc] at hok ⊢
    obtain ⟨hset, hswap⟩ := hok
    cases inLock with
    | true =>
      cases hs
      refine Shown.silent { s.thr t with
        pc := .lockTest (if swap = XCHG_SUCCESS then MUTEX_GOT_IT else MUTEX_DONT_GOT_IT) }
        hi hat rfl rfl hi' ?_
      rw [Thread.status, Thread.status, hpc]
    | false =>
      -- `mutex_trylock` returns
      cases hs
      refine Shown.keep { s.thr t with
        pc := .idle
        holds := (s.thr t).holds ||
          decide ((if swap = XCHG_SUCCESS then MUTEX_GOT_IT else MUTEX_DONT_GOT_IT) =
            MUTEX_GOT_IT) } hi rfl rfl hi' ?_
      refine hat.ret ?_
      rw [gotIt_eq hswap, Thread.status, hpc]
  · rename_i got hpc
    rw [hpc] at hok ⊢
    obtain ⟨hset, hgot⟩ := hok
    dsimp only
    split at hs
    · rename_i hd
      cases hs
      rw [if_pos hd]
      refine Shown.silent { s.thr t with pc := .tryCall true } hi hat rfl rfl hi' ?_
      rw [Thread.status, Thread.status, hpc]
      dsimp only
      rw [hgot.1 hd]
      rfl
    · -- `mutex_lock` returns
      rename_i hd
      cases hs
      rw [if_neg hd]
      refine Shown.keep { s.thr t with pc := .idle, holds := true } hi rfl rfl hi' ?_
      refine hat.ret ?_
      have hch : (s.thr t).changed = true := by
        rw [← Bool.not_eq_false]
        exact fun hc => hd (hgot.2 hc)
      rw [Thread.status, hpc]
      exact if_pos hch
  · rename_i hpc
    rw [hpc] at hok ⊢
    cases hs
    obtain rfl : o = some t := (hi.owner t).2 hok.2
    refine ⟨none, hi.release hok.2 rfl rfl, ?_⟩
    show Atomic Alone none _ _ fun u => (Function.update s.thr t _ u).status u
    rw [status_update]
    have hst : (s.thr t).status t = .pending (t, .unlock) := by rw [Thread.status, hpc]
    -- the store takes effect, and the call is over
    have heff := (hat.effect hst (.unlock t)).ret (Function.update_self ..)
    rwa [Function.update_idem] at heff
  · cases hs

/-- **Every step** is a call, a return, an effect, or nothing at the lock. -/
theorem Shown.step {e : Event T} (hsh : Shown mp s h) (hs : MutexX86.step mp s e = some s') :
    Shown mp s' (h ++ label s e) := by
  obtain ⟨o, hi, hat⟩ := hsh
  have hi' := hi.step hs
  have hcall : ∀ {t : T} {op : Op} {p : Pc}, (s.thr t).pc = .idle →
      Thread.status t { s.thr t with pc := p } = .pending (t, op) →
      Atomic Alone none (h ++ [.call t (t, op)]) o
        (Function.update (fun u => (s.thr u).status u) t
          (Thread.status t { s.thr t with pc := p })) := by
    intro t op p hpc hp
    rw [hp]
    exact hat.call _ (by rw [Thread.status, hpc])
  cases e with
  | lock t | trylock t =>
    simp only [MutexX86.step] at hs
    split at hs
    · rename_i hpc
      cases hs
      exact Shown.keep _ hi rfl rfl hi' (hcall hpc rfl)
    · cases hs
  | unlock t =>
    simp only [MutexX86.step] at hs
    split at hs
    · rename_i hpc
      split at hs
      · cases hs
        exact Shown.keep _ hi rfl rfl hi' (hcall hpc rfl)
      · cases hs
    · cases hs
  | enter t junk =>
    simp only [MutexX86.step] at hs
    split at hs
    · rename_i inLock hpc
      cases hs
      refine Shown.silent { s.thr t with
        pc := .tryAsm inLock (entryCpu mp junk), changed := false } hi hat rfl rfl hi' ?_
      rw [Thread.status, Thread.status, hpc]
      cases inLock <;> rfl
    · cases hs
  | run t => exact Shown.run hi hat hs hi'

theorem shown_initial (mp : Word) (mem : Mem) : Shown mp (initial mp mem : State T) [] :=
  ⟨none, inv_initial mp mem, .start⟩

/-! ## A free mutex is acquired -/

/-- Inside `mutex_lock`. -/
def Pc.locking : Pc → Bool
  | .tryCall inLock | .tryAsm inLock _ | .tryRet inLock _ => inLock
  | .lockTest _ => true
  | _ => false

/-- The `mutex_lock` in progress has made its exchange. -/
def Thread.won (th : Thread) : Bool :=
  match th.pc with
  | .tryCall _ => false
  | _ => th.changed

/-- How many steps are left to the end of a `mutex_lock` that finds the mutex free. -/
def Thread.rank (th : Thread) : Nat :=
  match th.pc with
  | .tryAsm _ c => if th.changed = false ∧ 3 < c.ip then 21 - c.ip else 9 - c.ip
  | .tryRet .. => if th.changed then 2 else 12
  | .lockTest _ => if th.changed then 1 else 11
  | .tryCall _ => 10
  | _ => 0

/-- The steps that thread `t` takes by itself. -/
def Event.own (t : T) : Event T → Prop
  | .run u | .enter u _ => u = t
  | _ => False

/-- `t` is inside `mutex_lock`, and the mutex is free or its own already. -/
structure Winning (mp : Word) (s : State T) (t : T) : Prop where
  inv : ∃ o, Inv mp s o
  locking : (s.thr t).pc.locking = true
  free : s.mem mp = MUTEX_OWNER_UNLOCKED ∨ (s.thr t).won = true

/-- `t` has come out of `mutex_lock`, or is nearer to its end. -/
def Nearer (mp : Word) (s s' : State T) (t : T) : Prop :=
  ((s'.thr t).pc = .idle ∧ (s'.thr t).holds = true) ∨
    Winning mp s' t ∧ (s'.thr t).rank < (s.thr t).rank

theorem step_exists {c : Cpu} {mem : Mem} {th : Thread} (hok : AsmOk mp c th) :
    ∃ out, c.step atomicSwapConditional mem = some out := by
  obtain ⟨regs, zf, stack, ip, loaded⟩ := c
  obtain ⟨-, -, hp⟩ := hok
  rcases ip with _ | _ | _ | _ | _ | _ | _ | _ | _ | ip
  case succ.succ.succ.succ.succ.succ.succ.succ.succ => exact hp.elim
  all_goals exact ⟨_, rfl⟩

/-- `t` is still inside, and nearer. -/
theorem Nearer.inside {e : Event T} {th : Thread} (hi : Inv mp s o)
    (hs : MutexX86.step mp s e = some s') (hth : s'.thr t = th) (hl : th.pc.locking = true)
    (hfree : s'.mem mp = MUTEX_OWNER_UNLOCKED ∨ th.won = true) (hrank : th.rank < (s.thr t).rank) :
    Nearer mp s s' t := by
  subst hth
  exact Or.inr ⟨⟨hi.step hs, hl, hfree⟩, hrank⟩

/-- **An instruction of `t` alone.** -/
theorem Winning.asm (hw : Winning mp s t) {c : Cpu} (hpc : (s.thr t).pc = .tryAsm true c)
    (hs : MutexX86.step mp s (.run t) = some s') : Nearer mp s s' t := by
  obtain ⟨⟨o, hi⟩, hl, hfree⟩ := hw
  have hok := hi.thr t
  rw [ThreadOk, hpc] at hok
  have hrank : (s.thr t).rank =
      if (s.thr t).changed = false ∧ 3 < c.ip then 21 - c.ip else 9 - c.ip := by
    rw [Thread.rank, hpc]
  have hwon : (s.thr t).won = (s.thr t).changed := by rw [Thread.won, hpc]
  rw [hwon] at hfree
  have hp := hok.point
  unfold PointOk at hp
  have hstep := hs
  simp only [MutexX86.step, hpc] at hs
  split at hs
  · cases hs
  · rename_i c' hout
    cases hs
    refine Nearer.inside hi hstep (Function.update_self ..) rfl hfree ?_
    rw [hrank]
    show (if (s.thr t).changed = true then 2 else 12) < _
    rcases ip_of_returned hout with hip | hip
    · rw [hip] at hp ⊢
      rw [if_pos hp.1, hp.1]
      decide
    · rw [hip] at hp ⊢
      rw [hp.1]
      decide
  · rename_i c' mem' hout
    cases hs
    have hip := step_ip hout
    have hle : c.ip ≤ 8 := by
      split at hp <;> first | omega | exact hp.elim
    rcases hok.step hout with ⟨_, he, hex, _⟩ | ⟨_, he, hex, hch, hm, _⟩ | ⟨_, he, _⟩
    · cases he
      have hchanged : ((s.thr t).changed || decide (s.mem mp ≠ s.mem mp)) = (s.thr t).changed := by
        simp
      have hne : (s.thr t).changed = false → c.ip ≠ 3 := by
        intro hch h3
        rw [hch] at hfree
        have hmem := hfree.resolve_right Bool.false_ne_true
        rw [hok.exchanges_iff.2 ⟨h3, hmem⟩] at hex
        cases hex
      refine Nearer.inside hi hstep (Function.update_self ..) rfl ?_ ?_
      · show _ ∨ ((s.thr t).changed || _) = true
        rw [hchanged]
        exact hfree
      · rw [hrank]
        show (if ((s.thr t).changed || _) = false ∧ _ then _ else _) < _
        rw [hchanged]
        by_cases hch : (s.thr t).changed = false
        · have hne := hne hch
          by_cases h3 : 3 < c.ip
          · have h3' : 3 < c'.ip := by omega
            rw [if_pos ⟨hch, h3'⟩, if_pos ⟨hch, h3⟩]
            omega
          · have h3' : ¬ 3 < c'.ip := by omega
            rw [if_neg fun hx => h3' hx.2, if_neg fun hx => h3 hx.2]
            omega
        · rw [if_neg fun hx => hch hx.1, if_neg fun hx => hch hx.1]
          omega
    · cases he
      obtain ⟨h3, -⟩ := hok.exchanges_iff.1 hex
      have hchanged : ((s.thr t).changed || decide (Function.update s.mem mp 1 mp ≠ s.mem mp)) =
          true := by
        rw [hch, Function.update_self, hm]
        rfl
      refine Nearer.inside hi hstep (Function.update_self ..) rfl (Or.inr hchanged) ?_
      have hearly : ¬ ((s.thr t).changed = false ∧ 3 < c.ip) := by omega
      rw [hrank, if_neg hearly]
      show (if ((s.thr t).changed || _) = false ∧ _ then _ else _) < _
      rw [hchanged, if_neg (by simp)]
      omega
    · cases he

/-- **A step of `t` alone.** -/
theorem Winning.step (hw : Winning mp s t) {e : Event T} (he : Event.own t e)
    (hs : MutexX86.step mp s e = some s') : Nearer mp s s' t := by
  obtain ⟨o, hi⟩ := hw.inv
  have hl := hw.locking
  have hfree := hw.free
  have hok := hi.thr t
  unfold ThreadOk at hok
  have hstep := hs
  have hwon : ∀ p, (s.thr t).pc = p → (∀ inLock, p ≠ .tryCall inLock) →
      (s.thr t).won = (s.thr t).changed := by
    rintro _ rfl hp
    unfold Thread.won
    split
    · exact absurd ‹_› (hp _)
    · rfl
  cases e with
  | lock | trylock | unlock => exact he.elim
  | enter u junk =>
    obtain rfl : u = t := he
    simp only [MutexX86.step] at hs
    split at hs
    case h_2 => cases hs
    rename_i inLock hpc
    cases hs
    rw [hpc] at hl
    have hmem : s.mem mp = MUTEX_OWNER_UNLOCKED := by
      refine hfree.resolve_right ?_
      rw [Thread.won, hpc]
      exact Bool.false_ne_true
    have hrank : (s.thr u).rank = 10 := by rw [Thread.rank, hpc]
    refine Nearer.inside hi hstep (Function.update_self ..) hl (Or.inl hmem) ?_
    rw [hrank]
    exact Nat.lt_succ_self 9
  | run u =>
    obtain rfl : u = t := he
    cases hpc : (s.thr u).pc with
    | idle => rw [hpc] at hl; cases hl
    | unlockStore => rw [hpc] at hl; cases hl
    | tryCall inLock =>
      simp only [MutexX86.step, hpc] at hs
      cases hs
    | tryAsm inLock c =>
      rw [hpc] at hl
      obtain rfl : inLock = true := hl
      exact hw.asm hpc hs
    | tryRet inLock swap =>
      rw [hpc] at hl
      obtain rfl : inLock = true := hl
      simp only [MutexX86.step, hpc] at hs
      cases hs
      have hrank : (s.thr u).rank = if (s.thr u).changed then 2 else 12 := by rw [Thread.rank, hpc]
      rw [hwon _ hpc (by simp)] at hfree
      refine Nearer.inside hi hstep (Function.update_self ..) rfl hfree ?_
      rw [hrank]
      show (if (s.thr u).changed then 1 else 11) < _
      split <;> decide
    | lockTest got =>
      rw [hpc] at hok
      obtain ⟨-, hgot⟩ := hok
      simp only [MutexX86.step, hpc] at hs
      split at hs
      · rename_i hd
        cases hs
        have hch := hgot.1 hd
        have hrank : (s.thr u).rank = 11 := by
          rw [Thread.rank, hpc]
          exact if_neg (by simp [hch])
        rw [hwon _ hpc (by simp), hch] at hfree
        refine Nearer.inside hi hstep (Function.update_self ..) rfl (Or.inl ?_) ?_
        · exact hfree.resolve_right Bool.false_ne_true
        · rw [hrank]
          exact Nat.lt_succ_self 10
      · -- `mutex_lock` comes back
        cases hs
        left
        show Thread.pc (Function.update s.thr u _ u) = _ ∧
          Thread.holds (Function.update s.thr u _ u) = true
        rw [Function.update_self]
        exact ⟨rfl, rfl⟩

/-- `t` can go on, whatever its registers hold. -/
theorem Winning.goes_on (hw : Winning mp s t) :
    ∃ e s', Event.own t e ∧ MutexX86.step mp s e = some s' := by
  obtain ⟨o, hi⟩ := hw.inv
  have hl := hw.locking
  have hok := hi.thr t
  unfold ThreadOk at hok
  cases hpc : (s.thr t).pc with
  | idle | unlockStore => rw [hpc] at hl; cases hl
  | tryCall inLock => exact ⟨.enter t junkCpu, _, rfl, by simp only [MutexX86.step, hpc]; rfl⟩
  | tryAsm inLock c =>
    rw [hpc] at hok
    obtain ⟨out, hout⟩ : ∃ out, c.step atomicSwapConditional s.mem = some out := step_exists hok
    cases out <;> exact ⟨.run t, _, rfl, by simp only [MutexX86.step, hpc, hout]; rfl⟩
  | tryRet inLock swap =>
    rw [hpc] at hl
    obtain rfl : inLock = true := hl
    exact ⟨.run t, _, rfl, by simp only [MutexX86.step, hpc]; rfl⟩
  | lockTest got =>
    by_cases hd : got = MUTEX_DONT_GOT_IT
    · exact ⟨.run t, _, rfl, by simp only [MutexX86.step, hpc, if_pos hd]; rfl⟩
    · exact ⟨.run t, _, rfl, by simp only [MutexX86.step, hpc, if_neg hd]; rfl⟩

/-- Outside there is nothing `t` can do by itself. -/
theorem own_of_idle {e : Event T} (he : Event.own t e) (hidle : (s.thr t).pc = .idle) :
    MutexX86.step mp s e = none := by
  cases e with
  | lock | trylock | unlock => exact he.elim
  | enter u junk | run u =>
    obtain rfl : u = t := he
    simp only [MutexX86.step, hidle]

/-- **All steps of `t` alone.** -/
theorem Winning.wins {es : List (Event T)} (hw : Winning mp s t) (hown : ∀ e ∈ es, Event.own t e)
    (hs : Lts.exec (MutexX86.step mp) s es = some s') :
    es.length ≤ (s.thr t).rank + 1 ∧
      ((s'.thr t).pc = .idle ∧ (s'.thr t).holds = true ∨
        Winning mp s' t ∧ (s'.thr t).rank + es.length ≤ (s.thr t).rank) := by
  induction es generalizing s with
  | nil =>
    obtain rfl : s = s' := Option.some.inj hs
    exact ⟨Nat.zero_le _, Or.inr ⟨hw, Nat.le_refl _⟩⟩
  | cons e es ih =>
    obtain ⟨m, hm, hs⟩ := Lts.exec_cons.1 hs
    have hown' : ∀ e ∈ es, Event.own t e := fun e he => hown e (List.mem_cons_of_mem _ he)
    rcases hw.step (hown e (List.mem_cons_self ..)) hm with hout | ⟨hw', hlt⟩
    · -- `t` is out, so the run is over
      cases es with
      | nil =>
        obtain rfl : m = s' := Option.some.inj hs
        exact ⟨Nat.succ_le_succ (Nat.zero_le _), Or.inl hout⟩
      | cons d ds =>
        obtain ⟨n, hn, -⟩ := Lts.exec_cons.1 hs
        rw [own_of_idle (hown' d (List.mem_cons_self ..)) hout.1] at hn
        cases hn
    · obtain ⟨hlen, hend⟩ := ih hw' hown' hs
      rw [List.length_cons]
      refine ⟨by omega, hend.imp_right ?_⟩
      rintro ⟨hw'', hle⟩
      exact ⟨hw'', by omega⟩

theorem rank_lt (th : Thread) : th.rank < 21 := by
  unfold Thread.rank
  split <;> (try split) <;> omega

end Step

/-- **Mutexes on x86 are locks.**  Whatever the interleaving of the instructions, the calls of
`mutex_lock`, `mutex_trylock` and `mutex_unlock` and what they return are those of an atomic lock,
whose owner is there exactly if `mp->owner` is not `NULL`; and while the mutex is free, a thread
inside `mutex_lock` that is alone in taking steps, whatever it finds in its registers, takes at most
21 of them and can go on until it has come out holding the mutex. -/
theorem x86_mutex_linearizable (mp : Word) (mem : Mem) (es : List (Event T)) {s : State T}
    (h : Lts.exec (step mp) (initial mp mem) es = some s) :
    (∃ o, Linearizable Alone none (Lts.trace (step mp) label (initial mp mem) es) o ∧
      s.mem mp = if o.isSome then 1 else MUTEX_OWNER_UNLOCKED) ∧
    ∀ t, (s.thr t).pc.locking = true → s.mem mp = MUTEX_OWNER_UNLOCKED →
      ∀ es' s', (∀ e ∈ es', Event.own t e) → Lts.exec (step mp) s es' = some s' →
        es'.length ≤ 21 ∧
          ((s'.thr t).pc = .idle ∧ (s'.thr t).holds = true ∨
            ∃ e s'', Event.own t e ∧ step mp s' e = some s'') := by
  obtain ⟨o, hi, hat⟩ := Lts.exec_inv_trace (I := Shown mp)
    (fun _ _ _ _ hsh hs => hsh.step hs) (shown_initial mp mem) h
  rw [List.nil_append] at hat
  refine ⟨⟨o, ⟨_, hat⟩, hi.mem⟩, ?_⟩
  intro t hl hfree es' s' hown hes
  have hw : Winning mp s t := ⟨⟨o, hi⟩, hl, Or.inl hfree⟩
  obtain ⟨hlen, hend⟩ := hw.wins hown hes
  have hlt := rank_lt (s.thr t)
  exact ⟨by omega, hend.imp_right fun hw' => hw'.1.goes_on⟩

theorem lockThenTrylock_linearizable : ∃ s : State (Fin 2),
    Lts.exec (step 64) (initial 64 fun _ => 5) (lockThenTrylock 0 1) = some s ∧
      s.mem 64 = 1 ∧
      ∃ o, Linearizable Alone none
        (Lts.trace (step 64) label (initial 64 fun _ => 5) (lockThenTrylock 0 1)) o ∧
          s.mem 64 = if o.isSome then 1 else MUTEX_OWNER_UNLOCKED :=
  ⟨_, rfl, rfl, (x86_mutex_linearizable 64 (fun _ => 5) (lockThenTrylock 0 1) rfl).1⟩

end Timix.MutexX86
