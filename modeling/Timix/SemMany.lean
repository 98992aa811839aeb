import Timix.Lib.Linear
import Timix.Lib.Semaphore
import Timix.Sem

/-!
# The semaphores of a system (`kernel/sem.c`)

Any number of semaphores, each a `Timix.Sem`, and the threads that use them.  A thread is inside at
most one call; the return is a step of its own, after the last `mutex_unlock`.  A thread that is
inside no call may interrupt another, in whichever semaphore that one waits.

* `Place` — where a thread is; `step`, `label` — calls and returns are seen.
* `ManyInv` — the lock and the queue of every semaphore, and the threads are where the semaphores
  say.
* `tokens` — what was put in by the signals called, less what the waits that returned 0 have taken.
* `Accounts` — the account of every semaphore, kept while the tokens fit into an `int`; a return of
  0 on its way is then paid for (`tokens_pos`).

The `step` lemmas of the tokens: `tokens_call`, `tokens_run`, `tokens_ret`.
-/

set_option autoImplicit false

namespace Timix.Sem.Many

open Census Owner
open Timix.Cond (EINTR)
open Linear (Act)
open Semaphore (Op)

variable {T K : Type}

/-- Where a thread is. -/
inductive Place (K : Type) where
  | out
  | inside (k : K) (a : Op)
  /-- In `cond_interrupt`; the thread to unblock waited for `k`. -/
  | interrupting (k : K)
  /-- The call is to return `r`. -/
  | back (k : K) (a : Op) (r : Int)
  deriving DecidableEq, Repr

structure State (T K : Type) where
  sem : K → Sem.State T
  place : T → Place K

inductive Event (T K : Type) where
  | call (t : T) (k : K) (a : Op)
  | interrupt (i u : T)
  | run (t : T)
  | ret (t : T)
  deriving DecidableEq, Repr

def opEvent (t : T) : Op → Sem.Event T
  | .wait => .wait t
  | .signal => .signal t

/-- What a call returns whose next step is the last one. -/
def result : Pc T → Int
  | .waitErr => -EINTR
  | _ => 0

/-- `sem_init(sem, n k)` for every semaphore. -/
def initial (n : K → Int32) : State T K := ⟨fun k => semInit (n k), fun _ => .out⟩

section Model

variable [DecidableEq T] [DecidableEq K]

def State.setSem (s : State T K) (k : K) (x : Sem.State T) : State T K :=
  { s with sem := Function.update s.sem k x }

def State.setPlace (s : State T K) (t : T) (p : Place K) : State T K :=
  { s with place := Function.update s.place t p }

/-- `cond_interrupt(u)`; a thread that waits for no semaphore is left alone. -/
def interrupt (s : State T K) (i u : T) : Option (State T K) :=
  match s.place u with
  | .inside k _ =>
    match Sem.step (s.sem k) (.interrupt i u) with
    | none => none
    | some x =>
      if x.pc i = .idle then some s else some ((s.setSem k x).setPlace i (.interrupting k))
  | _ => some s

def step (s : State T K) : Event T K → Option (State T K)
  | .call t k a =>
    match s.place t with
    | .out =>
      match Sem.step (s.sem k) (opEvent t a) with
      | none => none
      | some x => some ((s.setSem k x).setPlace t (.inside k a))
    | _ => none
  | .interrupt i u =>
    match s.place i with
    | .out => interrupt s i u
    | _ => none
  | .run t =>
    match s.place t with
    | .inside k a =>
      match Sem.run (s.sem k) t with
      | none => none
      | some x =>
        if x.pc t = .idle then
          some ((s.setSem k x).setPlace t (.back k a (result ((s.sem k).pc t))))
        else some (s.setSem k x)
    | .interrupting k =>
      match Sem.run (s.sem k) t with
      | none => none
      | some x => some ((s.setSem k x).setPlace t .out)
    | _ => none
  | .ret t =>
    match s.place t with
    | .back .. => some (s.setPlace t .out)
    | _ => none

/-- Calls and returns. -/
def label (s : State T K) : Event T K → List (Act T (K × Op) Int)
  | .call t k a => [.call t (k, a)]
  | .ret t =>
    match s.place t with
    | .back _ _ r => [.ret t r]
    | _ => []
  | _ => []

end Model

/-! ## Where the threads are -/

/-- What a thread is doing at one semaphore. -/
inductive Role where
  | none
  | op (a : Op)
  | interrupting
  deriving DecidableEq

def role : Pc T → Role
  | .idle => .none
  | .waitLock | .waitDec | .waitSleep | .asleep | .taken | .woken _ | .waitTest _ | .waitErr
  | .waitGot => .op .wait
  | .sigLock | .sigInc | .sigCond | .sigUnlock => .op .signal
  | .intrWake _ => .interrupting

variable [DecidableEq T] [DecidableEq K]

def Place.role (k : K) : Place K → Role
  | .inside l a => if l = k then .op a else .none
  | .interrupting l => if l = k then .interrupting else .none
  | .out | .back .. => .none

section Moves

variable {s s' : Sem.State T} {t u : T}

theorem role_setPc (s : Sem.State T) (t : T) (p : Pc T) : role ((s.setPc t p).pc t) = role p := by
  simp only [State.setPc, Function.update_self]

/-- A step changes what its own thread does, and nothing else. -/
theorem role_move (hq : QueueOk s.queue s.pc) (hm : Move s t s') (hu : u ≠ t) :
    role (s'.pc u) = role (s.pc u) := by
  cases hm with
  | intrMiss => rfl
  | @intrTake v _ hv | @sigWake _ v _ hq' | @intrWake v hv =>
    have hrole : role (s.pc v) = .op .wait := by
      first
        | rw [hv]; rfl
        | rw [(hq.mem v).1 (by rw [hq']; simp)]; rfl
        | rw [hq.taken t v hv]; rfl
    simp only [State.setPc]
    rw [Function.update_of_ne hu]
    by_cases huv : u = v
    · rw [huv, Function.update_self, hrole]
      rfl
    · rw [Function.update_of_ne huv]
  | _ => exact congrArg role (Function.update_of_ne hu ..)

/-- A call goes on, or is through. -/
theorem role_run (hs : Sem.run s t = some s') :
    s'.pc t = .idle ∨ role (s'.pc t) = role (s.pc t) := by
  have hrun : s.pc t ≠ .idle := by
    intro hpc
    simp [Sem.run, hpc] at hs
  cases run_move hs with
  | callWait hpc | callSignal hpc | intrTake hpc | intrMiss hpc => exact absurd hpc hrun
  | retErr | ret0 | sigUnlock => exact Or.inl (Function.update_self ..)
  | intrWake => exact Or.inl (Function.update_self ..)
  | waitLock hpc | decSleep hpc | decGot hpc | sleep hpc | relock hpc | rollback hpc
  | testGot hpc | sigLock hpc | sigInc hpc | sigNobody hpc | sigWake hpc =>
    right
    simp only [State.setPc, Function.update_self, hpc]
    rfl

/-- The unblocking is all that is left of a `cond_interrupt`. -/
theorem interrupting_run (hs : Sem.run s t = some s') (hrole : role (s.pc t) = .interrupting) :
    s'.pc t = .idle := by
  cases hpc : s.pc t <;> rw [hpc] at hrole <;> cases hrole
  simp only [Sem.run, hpc] at hs
  cases hs
  exact Function.update_self ..

end Moves

/-- What each event does. -/
inductive Move (s : State T K) : Event T K → State T K → Prop where
  | call {t : T} {k : K} {a : Op} {x : Sem.State T} (hp : s.place t = .out)
      (hx : Sem.step (s.sem k) (opEvent t a) = some x) :
      Move s (.call t k a) ((s.setSem k x).setPlace t (.inside k a))
  | miss {i u : T} (hp : s.place i = .out) : Move s (.interrupt i u) s
  | hit {i u : T} {k : K} {x : Sem.State T} (hp : s.place i = .out)
      (hx : Sem.step (s.sem k) (.interrupt i u) = some x) (hne : x.pc i ≠ .idle) :
      Move s (.interrupt i u) ((s.setSem k x).setPlace i (.interrupting k))
  | go {t : T} {k : K} {a : Op} {x : Sem.State T} (hp : s.place t = .inside k a)
      (hx : Sem.run (s.sem k) t = some x) (hne : x.pc t ≠ .idle) :
      Move s (.run t) (s.setSem k x)
  | through {t : T} {k : K} {a : Op} {x : Sem.State T} (hp : s.place t = .inside k a)
      (hx : Sem.run (s.sem k) t = some x) (hidle : x.pc t = .idle) :
      Move s (.run t) ((s.setSem k x).setPlace t (.back k a (result ((s.sem k).pc t))))
  | wake {t : T} {k : K} {x : Sem.State T} (hp : s.place t = .interrupting k)
      (hx : Sem.run (s.sem k) t = some x) :
      Move s (.run t) ((s.setSem k x).setPlace t .out)
  | ret {t : T} {k : K} {a : Op} {r : Int} (hp : s.place t = .back k a r) :
      Move s (.ret t) (s.setPlace t .out)

variable {n : K → Int32} {s s' : State T K} {t : T} {k : K}

/-- **Step inversion.** -/
theorem step_move {e : Event T K} (h : step s e = some s') : Move s e s' := by
  cases e with
  | call t k a =>
    simp only [step] at h
    split at h
    · split at h
      · cases h
      · cases h
        exact .call ‹_› ‹_›
    · cases h
  | interrupt i u =>
    simp only [step, interrupt] at h
    split at h
    · split at h
      · split at h
        · cases h
        · split at h
          · cases h
            exact .miss ‹_›
          · cases h
            exact .hit ‹_› ‹_› ‹_›
      · cases h
        exact .miss ‹_›
    · cases h
  | run t =>
    simp only [step] at h
    split at h
    · split at h
      · cases h
      · split at h
        · cases h
          exact .through ‹_› ‹_› ‹_›
        · cases h
          exact .go ‹_› ‹_› ‹_›
    · split at h
      · cases h
      · cases h
        exact .wake ‹_› ‹_›
    · cases h
  | ret t =>
    simp only [step] at h
    split at h
    · cases h
      exact .ret ‹_›
    · cases h

/-! ## The invariant -/

/-- The lock and the queue of every semaphore, and the threads are where the semaphores say. -/
structure ManyInv (s : State T K) : Prop where
  sem : ∀ k, SemOk (s.sem k)
  role : ∀ k t, role ((s.sem k).pc t) = (s.place t).role k
  back : ∀ t k a r, s.place t = .back k a r → r = 0 ∨ a = .wait ∧ r = -EINTR

omit [DecidableEq T] in
theorem manyInv_initial (n : K → Int32) : ManyInv (initial n : State T K) where
  sem k := semOk_initial (n k)
  role _ _ := rfl
  back _ _ _ _ h := by cases h

/-- Thread `t` moves at semaphore `k`, and goes to `p`. -/
theorem ManyInv.moved (h : ManyInv s) {e : Sem.Event T} {x : Sem.State T} {p : Place K}
    (hx : Sem.step (s.sem k) e = some x) (hm : Sem.Move (s.sem k) t x)
    (hrole : Many.role (x.pc t) = p.role k) (hother : ∀ l, l ≠ k → p.role l = (s.place t).role l)
    (hback : ∀ l a r, p = .back l a r → r = 0 ∨ a = .wait ∧ r = -EINTR) :
    ManyInv ((s.setSem k x).setPlace t p) where
  sem l := by
    by_cases hl : l = k
    · subst hl
      have hkeep : SemOk x := (h.sem l).step hx
      simpa only [State.setPlace, State.setSem, Function.update_self] using hkeep
    · simpa only [State.setPlace, State.setSem, Function.update_of_ne hl] using h.sem l
  role l u := by
    simp only [State.setPlace, State.setSem]
    by_cases hu : u = t <;> by_cases hl : l = k
    · subst hu hl
      rw [Function.update_self, Function.update_self, hrole]
    · subst hu
      rw [Function.update_of_ne hl, Function.update_self, hother l hl, h.role]
    · subst hl
      rw [Function.update_self, Function.update_of_ne hu, role_move (h.sem l).queue hm hu, h.role]
    · rw [Function.update_of_ne hl, Function.update_of_ne hu, h.role]
  back u l a r hu := by
    simp only [State.setPlace] at hu
    by_cases hut : u = t
    · subst hut
      rw [Function.update_self] at hu
      exact hback l a r hu
    · rw [Function.update_of_ne hut] at hu
      exact h.back u l a r hu

/-- The step of a call is the step of its thread. -/
theorem call_move {a : Op} {s x : Sem.State T} (hx : Sem.step s (opEvent t a) = some x) :
    Sem.Move s t x ∧ Many.role (x.pc t) = .op a := by
  cases a with
  | wait =>
    simp only [opEvent, Sem.step] at hx
    split at hx
    · cases hx
      exact ⟨.callWait ‹_›, role_setPc ..⟩
    · cases hx
  | signal =>
    simp only [opEvent, Sem.step] at hx
    split at hx
    · cases hx
      exact ⟨.callSignal ‹_›, role_setPc ..⟩
    · cases hx

/-- An interrupt that does not come back at once has found its thread. -/
theorem interrupt_move {i u : T} {s x : Sem.State T} (hx : Sem.step s (.interrupt i u) = some x)
    (hne : x.pc i ≠ .idle) : Sem.Move s i x ∧ Many.role (x.pc i) = .interrupting := by
  simp only [Sem.step] at hx
  split at hx
  · split at hx
    · cases hx
      exact ⟨.intrTake ‹_› ‹_›, role_setPc ..⟩
    · cases hx
      exact absurd ‹_› hne
  · cases hx

omit [DecidableEq T] in
theorem result_cases (p : Pc T) {a : Op} (hp : Many.role p = .op a) :
    result p = 0 ∨ a = .wait ∧ result p = -EINTR := by
  cases p with
  | waitErr =>
    cases hp
    exact Or.inr ⟨rfl, rfl⟩
  | _ => exact Or.inl rfl

/-- **Every step keeps the invariant.** -/
theorem ManyInv.step (h : ManyInv s) {e : Event T K} (hs : Many.step s e = some s') :
    ManyInv s' := by
  cases step_move hs with
  | @call t k a x hp hx =>
    obtain ⟨hm, hrole⟩ := call_move hx
    refine h.moved hx hm ?_ ?_ ?_
    · rw [hrole, Place.role, if_pos rfl]
    · intro l hl
      rw [hp, Place.role, if_neg (Ne.symm hl)]
      rfl
    · rintro _ _ _ ⟨⟩
  | miss => exact h
  | @hit i u k x hp hx hne =>
    obtain ⟨hm, hrole⟩ := interrupt_move hx hne
    refine h.moved hx hm ?_ ?_ ?_
    · rw [hrole, Place.role, if_pos rfl]
    · intro l hl
      rw [hp, Place.role, if_neg (Ne.symm hl)]
      rfl
    · rintro _ _ _ ⟨⟩
  | @go t k a x hp hx hne =>
    have hkeep : s.setSem k x = (s.setSem k x).setPlace t (s.place t) := by
      simp only [State.setPlace, State.setSem, Function.update_eq_self]
    rw [hkeep]
    refine h.moved (e := .run t) hx (run_move hx) ?_ (fun _ _ => rfl) fun l b r => h.back t l b r
    rw [← h.role]
    exact (role_run hx).resolve_left hne
  | @through t k a x hp hx hidle =>
    refine h.moved (e := .run t) hx (run_move hx) ?_ ?_ ?_
    · rw [hidle]
      rfl
    · intro l hl
      rw [hp]
      simp only [Place.role, if_neg (Ne.symm hl)]
    · rintro _ _ _ ⟨⟩
      refine result_cases _ ?_
      rw [h.role, hp, Place.role, if_pos rfl]
  | @wake t k x hp hx =>
    refine h.moved (e := .run t) hx (run_move hx) ?_ ?_ ?_
    · have hrole : Many.role ((s.sem k).pc t) = .interrupting := by
        rw [h.role, hp, Place.role, if_pos rfl]
      rw [interrupting_run hx hrole]
      rfl
    · intro l hl
      rw [hp]
      simp only [Place.role, if_neg (Ne.symm hl)]
    · rintro _ _ _ ⟨⟩
  | @ret t k a r hp =>
    refine ⟨h.sem, ?_, ?_⟩
    · intro l u
      simp only [State.setPlace, h.role]
      by_cases hu : u = t
      · subst hu
        rw [Function.update_self, hp]
        rfl
      · rw [Function.update_of_ne hu]
    · intro u l b q hu
      simp only [State.setPlace] at hu
      by_cases hut : u = t
      · subst hut
        rw [Function.update_self] at hu
        cases hu
      · rw [Function.update_of_ne hut] at hu
        exact h.back u l b q hu

/-! ## The tokens -/

variable [Fintype T]

/-- A signal that has not incremented `sem_count` yet. -/
def early : Pc T → Bool
  | .sigLock | .sigInc => true
  | _ => false

/-- The signals called, less the waits that are through with result 0. -/
def put (s : Sem.State T) : Int := s.signals + tally early s.pc - s.ret0

/-- The wait has got its token and not returned yet. -/
def Place.grants (k : K) : Place K → Bool
  | .back l .wait r => decide (l = k ∧ r = 0)
  | _ => false

/-- The tokens of semaphore `k`: those there were and those of the signals called, less those of the
    waits that returned 0. -/
def tokens (n : K → Int32) (s : State T K) (k : K) : Int :=
  (n k).toInt + put (s.sem k) + tally (Place.grants k) s.place

/-- A thread moves between points that make no difference. -/
theorem early_update {pc : T → Pc T} {p₀ : Pc T} (p : Pc T) (hpc : pc t = p₀)
    (hp : early p = early p₀) : tally early (Function.update pc t p) = tally early pc := by
  have htally := tally_update early pc t p
  rw [hpc, hp] at htally
  omega

theorem put_call {a : Op} {s x : Sem.State T} (hx : Sem.step s (opEvent t a) = some x) :
    put x = put s + if a = .signal then 1 else 0 := by
  cases a with
  | wait =>
    simp only [opEvent, Sem.step] at hx
    split at hx
    · rename_i hpc
      cases hx
      simp [put, State.ret0, Sem.State.setPc, early_update .waitLock hpc rfl]
    · cases hx
  | signal =>
    simp only [opEvent, Sem.step] at hx
    split at hx
    · rename_i hpc
      cases hx
      have htally := tally_update early s.pc t .sigLock
      rw [hpc] at htally
      simp only [early, Bool.toNat_false, Bool.toNat_true] at htally
      simp only [put, State.ret0, Sem.State.setPc, if_pos]
      omega
    · cases hx

theorem put_interrupt {i u : T} {s x : Sem.State T}
    (hx : Sem.step s (.interrupt i u) = some x) : put x = put s := by
  simp only [Sem.step] at hx
  split at hx
  · rename_i hi
    split at hx
    · rename_i hu
      cases hx
      have hiu : i ≠ u := by
        rintro rfl
        rw [hi] at hu
        cases hu
      have hi' : Function.update s.pc u .taken i = .idle := (Function.update_of_ne hiu ..).trans hi
      simp [put, State.ret0, Sem.State.setPc, early_update (.intrWake u) hi' rfl,
        early_update .taken hu rfl]
    · cases hx
      rfl
  · cases hx

theorem put_run {s x : Sem.State T} (hq : QueueOk s.queue s.pc) (hx : Sem.run s t = some x) :
    put x + (if s.pc t = .waitGot then 1 else 0) = put s := by
  have hrun : s.pc t ≠ .idle := by
    intro hpc
    simp [Sem.run, hpc] at hx
  cases run_move hx with
  | callWait hpc | callSignal hpc | intrTake hpc | intrMiss hpc => exact absurd hpc hrun
  | waitLock hpc | decSleep hpc | decGot hpc | sleep hpc | relock hpc | rollback hpc
  | testGot hpc | sigLock hpc | sigNobody hpc | sigUnlock hpc =>
    simp only [put, hpc, reduceCtorEq, if_false, Int.add_zero]
    exact congrArg (fun n : Nat => (s.signals : Int) + n - s.ret0) (early_update _ hpc rfl)
  | sigInc hpc =>
    have htally := tally_update early s.pc t .sigCond
    rw [hpc] at htally
    simp only [early, Bool.toNat_false, Bool.toNat_true] at htally
    simp only [put, State.ret0, Sem.State.setPc, hpc, reduceCtorEq, if_false]
    omega
  | retErr hpc =>
    have hret := ret0_append s t (-EINTR)
    have hearly := early_update .idle hpc rfl
    simp [put, State.ret0, Sem.State.setPc, hpc, EINTR, hearly] at hret ⊢
  | ret0 hpc =>
    have hret := ret0_append s t 0
    have hearly := early_update .idle hpc rfl
    simp [put, State.ret0, Sem.State.setPc, hpc, hearly] at hret ⊢
    omega
  | @sigWake l u hpc hq' =>
    have hu : s.pc u = .asleep := (hq.mem u).1 (by rw [hq']; simp)
    have htu : t ≠ u := by
      rintro rfl
      rw [hpc] at hu
      cases hu
    have ht : Function.update s.pc u (.woken .signal) t = .sigCond :=
      (Function.update_of_ne htu ..).trans hpc
    simp [put, State.ret0, Sem.State.setPc, early_update .sigUnlock ht rfl,
      early_update (.woken .signal) hu rfl, hpc]
  | @intrWake u hpc =>
    have hu := hq.taken t u hpc
    have htu : t ≠ u := by
      rintro rfl
      rw [hpc] at hu
      cases hu
    have ht : Function.update s.pc u (.woken .interrupt) t = .intrWake u :=
      (Function.update_of_ne htu ..).trans hpc
    simp [put, State.ret0, Sem.State.setPc, early_update .idle ht rfl,
      early_update (.woken .interrupt) hu rfl, hpc]

/-- The account of every semaphore. -/
def Accounts (n : K → Int32) (s : State T K) : Prop :=
  ∀ k, Numbers (n k).toInt (s.sem k).count.toInt (s.sem k).signals (s.sem k).ret0 (s.sem k).pc

omit [DecidableEq T] [DecidableEq K] in
theorem accounts_initial (hn : ∀ k, 0 ≤ n k) : Accounts n (initial n : State T K) :=
  fun k => numbers_initial (hn k)

omit [Fintype T] in
/-- A semaphore takes a step of its own, or stays as it is. -/
theorem sem_step {e : Event T K} (hs : Many.step s e = some s') (l : K) :
    s'.sem l = s.sem l ∨ ∃ d, Sem.step (s.sem l) d = some (s'.sem l) := by
  have hset : ∀ {k : K} {d : Sem.Event T} {x : Sem.State T}, Sem.step (s.sem k) d = some x →
      (s.setSem k x).sem l = s.sem l ∨
        ∃ d, Sem.step (s.sem l) d = some ((s.setSem k x).sem l) := by
    intro k d x hx
    simp only [State.setSem]
    by_cases hl : l = k
    · subst hl
      exact Or.inr ⟨d, by rw [Function.update_self, hx]⟩
    · exact Or.inl (Function.update_of_ne hl ..)
  cases step_move hs with
  | call hp hx | hit hp hx => exact hset hx
  | @go t _ _ _ hp hx | @through t _ _ _ hp hx | @wake t _ _ hp hx => exact hset (d := .run t) hx
  | miss | ret => exact Or.inl rfl

/-- **No step loses the account while the tokens fit into an `int`**, if there are at most `2 ^ 31`
    threads. -/
theorem Accounts.step (ha : Accounts n s) (h : ManyInv s) {e : Event T K}
    (hs : Many.step s e = some s') (hthreads : Fintype.card T ≤ 2 ^ 31)
    (htokens : ∀ k, tokens n s k ≤ Int32.maxValue.toInt) : Accounts n s' := by
  intro k
  rcases sem_step hs k with hsame | ⟨d, hd⟩
  · rw [hsame]
    exact ha k
  · have hinv : SemInv (n k) (s.sem k) := ⟨h.sem k, ha k⟩
    have hin : InRange (s.sem k) d := by
      cases d with
      | wait t | signal t | interrupt i u => trivial
      | run t =>
        have hput := put_run (h.sem k).queue hd
        have htoken := htokens k
        refine hinv.inRange hd hthreads ?_
        simp only [tokens, put] at hput htoken
        omega
    exact (hinv.step hin hd).numbers

omit [DecidableEq T] in
/-- A return of 0 on its way is paid for. -/
theorem tokens_pos (h : Accounts n s) (hp : s.place t = .back k .wait 0) : 0 < tokens n s k := by
  obtain ⟨ha, hb⟩ := h k
  have hback : 0 < tally (Place.grants k) s.place := tally_pos.2 ⟨t, by simp [hp, Place.grants]⟩
  simp only [tokens, put]
  omega

/-- A thread goes from a place that counts as much as the one it goes to. -/
theorem grants_update {p : Place K} (hp : p.grants k = (s.place t).grants k) :
    tally (Place.grants k) (Function.update s.place t p) = tally (Place.grants k) s.place := by
  have htally := tally_update (Place.grants k) s.place t p
  rw [hp] at htally
  omega

theorem tokens_call {a : Op} {k : K} (hs : Many.step s (.call t k a) = some s') (l : K) :
    tokens n s' l = tokens n s l + if l = k ∧ a = .signal then 1 else 0 := by
  cases step_move hs with
  | call hp hx =>
    have hput := put_call hx
    simp only [tokens, State.setPlace, State.setSem]
    rw [grants_update (by rw [hp]; rfl)]
    by_cases hl : l = k
    · subst hl
      rw [Function.update_self, hput]
      simp only [true_and]
      omega
    · rw [Function.update_of_ne hl]
      simp [hl]

theorem tokens_interrupt {i u : T} (hs : Many.step s (.interrupt i u) = some s') (l : K) :
    tokens n s' l = tokens n s l := by
  cases step_move hs with
  | miss => rfl
  | @hit _ _ k _ hp hx _ =>
    simp only [tokens, State.setPlace, State.setSem]
    rw [grants_update (by rw [hp]; rfl)]
    by_cases hl : l = k
    · subst hl
      rw [Function.update_self, put_interrupt hx]
    · rw [Function.update_of_ne hl]

omit [Fintype T] in
/-- The last step of a call: a wait that returns 0, or nothing that counts. -/
theorem run_last {a : Op} {s x : Sem.State T} (hx : Sem.run s t = some x) (hidle : x.pc t = .idle)
    (hrole : Many.role (s.pc t) = .op a) :
    s.pc t = .waitGot ∧ a = .wait ∨ s.pc t ≠ .waitGot ∧ (a ≠ .wait ∨ result (s.pc t) ≠ 0) := by
  have hpc : ∀ p, x.pc t = p → p = .idle := fun p hp => hp.symm.trans hidle
  cases run_move hx with
  | callWait hp | callSignal hp | intrTake hp | intrMiss hp | intrWake hp =>
    rw [hp] at hrole
    cases hrole
  | ret0 hp =>
    rw [hp] at hrole ⊢
    cases hrole
    exact Or.inl ⟨rfl, rfl⟩
  | retErr hp =>
    rw [hp]
    exact Or.inr ⟨by simp, Or.inr (by simp [result, EINTR])⟩
  | sigUnlock hp =>
    rw [hp] at hrole ⊢
    cases hrole
    exact Or.inr ⟨by simp, Or.inl (by simp)⟩
  | _ => cases hpc _ (Function.update_self ..)

theorem tokens_run (h : ManyInv s) (hs : Many.step s (.run t) = some s') (l : K) :
    tokens n s' l = tokens n s l := by
  have hput : ∀ k x, Sem.run (s.sem k) t = some x →
      put x + (if (s.sem k).pc t = .waitGot then 1 else 0) = put (s.sem k) :=
    fun k x hx => put_run (h.sem k).queue hx
  cases step_move hs with
  | @go _ k a x hp hx hne =>
    have hgot : (s.sem k).pc t ≠ .waitGot := by
      intro hpc
      simp only [Sem.run, hpc] at hx
      cases hx
      exact hne (Function.update_self ..)
    have hsame := hput k x hx
    rw [if_neg hgot, Int.add_zero] at hsame
    simp only [tokens, State.setSem]
    by_cases hl : l = k
    · rw [hl, Function.update_self, hsame]
    · rw [Function.update_of_ne hl]
  | @through _ k a x hp hx hidle =>
    have hrole : Many.role ((s.sem k).pc t) = .op a := by
      rw [h.role, hp, Place.role, if_pos rfl]
    have hsame := hput k x hx
    have htally := tally_update (Place.grants l) s.place t (.back k a (result ((s.sem k).pc t)))
    rw [hp] at htally
    simp only [tokens, State.setPlace, State.setSem]
    by_cases hl : l = k
    · subst hl
      rw [Function.update_self]
      rcases run_last hx hidle hrole with ⟨hpc, rfl⟩ | ⟨hpc, hno⟩
      · rw [if_pos hpc] at hsame
        have hzero : result ((s.sem l).pc t) = 0 := by rw [hpc]; rfl
        rw [hzero] at htally ⊢
        simp only [Place.grants, Bool.toNat_false, and_self, decide_true, Bool.toNat_true] at htally
        omega
      · have hfalse : (Place.back l a (result ((s.sem l).pc t))).grants l = false := by
          cases a with
          | wait => simpa [Place.grants] using hno
          | signal => rfl
        rw [if_neg hpc] at hsame
        rw [hfalse] at htally
        simp only [Place.grants, Bool.toNat_false] at htally
        omega
    · have hfalse : (Place.back k a (result ((s.sem k).pc t))).grants l = false := by
        cases a with
        | wait => simp [Place.grants, Ne.symm hl]
        | signal => rfl
      rw [Function.update_of_ne hl]
      rw [hfalse] at htally
      simp only [Place.grants, Bool.toNat_false] at htally
      omega
  | @wake _ k x hp hx =>
    have hrole : Many.role ((s.sem k).pc t) = .interrupting := by
      rw [h.role, hp, Place.role, if_pos rfl]
    have hgot : (s.sem k).pc t ≠ .waitGot := by
      intro hpc
      rw [hpc] at hrole
      cases hrole
    have hsame := hput k x hx
    rw [if_neg hgot, Int.add_zero] at hsame
    simp only [tokens, State.setPlace, State.setSem]
    rw [grants_update (by rw [hp]; rfl)]
    by_cases hl : l = k
    · rw [hl, Function.update_self, hsame]
    · rw [Function.update_of_ne hl]

theorem tokens_ret {a : Op} {r : Int} (hp : s.place t = .back k a r)
    (hs : Many.step s (.ret t) = some s') (l : K) :
    tokens n s' l = tokens n s l - if l = k ∧ a = .wait ∧ r = 0 then 1 else 0 := by
  cases step_move hs with
  | ret =>
    have htally := tally_update (Place.grants l) s.place t .out
    rw [hp] at htally
    have hgrants : (Place.back k a r).grants l = decide (l = k ∧ a = .wait ∧ r = 0) := by
      cases a <;> simp [Place.grants, eq_comm]
    rw [hgrants] at htally
    simp only [Place.grants, Bool.toNat_false] at htally
    simp only [tokens, State.setPlace]
    by_cases hg : l = k ∧ a = .wait ∧ r = 0
    · simp only [hg, and_self, decide_true, Bool.toNat_true, if_true] at htally ⊢
      omega
    · simp only [hg, decide_false, Bool.toNat_false, if_false] at htally ⊢
      omega

end Timix.Sem.Many
