import Timix.Cond
import Timix.Lib.Census
import Timix.Lib.Owner
import Timix.Lib.Run

/-!
# Semaphores (`kernel/sem.c`)

Any number of threads run `sem_wait`, `sem_signal` and `cond_interrupt` on one semaphore.  A step
is the code between two operations on `sem_lock` or on the condition variable; the condition
variable is what `Timix.CondWait` shows it to be:

* a waiter enters the queue and gives `sem_lock` up in one step (`waitSleep`);
* `cond_signal` wakes the oldest queued thread, if any (`sigCond`);
* `cond_interrupt` takes a queued thread out (`Event.interrupt`) and unblocks it later
  (`intrWake`);
* a woken thread takes `sem_lock` again before `cond_wait` returns (`woken`).

`sched_set_blocked` does not fail.  `State.signals` counts the signals that incremented
`sem_count`, `State.rets` lists what the calls of `sem_wait` returned.

`sem_count` is a C `int`; where it overflows it wraps around, and the account is lost
(`signalAtMax_overflows`).  `InRange` says of a step that it does not overflow; it never does while
the tokens fit into an `int` and there are at most `2 ^ 31` threads (`SemInv.inRange`).

Principal result: `sem_never_over_grants`.
-/

set_option autoImplicit false

namespace Timix.Sem

open Census Owner
open Timix.Cond (Ender EINTR)

/-- Program points. -/
inductive Pc (T : Type) where
  | idle
  /-- `sem_wait`: `mutex_lock(&(sem->sem_lock))`. -/
  | waitLock
  /-- `sem_count--` and the test. -/
  | waitDec
  /-- `cond_wait`: enter the queue, unlock `sem_lock`. -/
  | waitSleep
  | asleep
  /-- Taken out of the queue by a `cond_interrupt`, not unblocked yet. -/
  | taken
  /-- `cond_wait`: lock `sem_lock` again. -/
  | woken (k : Ender)
  /-- The test for `-EINTR`. -/
  | waitTest (k : Ender)
  /-- `mutex_unlock`, `return -EINTR`. -/
  | waitErr
  /-- `mutex_unlock`, `return 0`. -/
  | waitGot
  /-- `sem_signal`: `mutex_lock`. -/
  | sigLock
  /-- `sem_count++`. -/
  | sigInc
  /-- `cond_signal`. -/
  | sigCond
  | sigUnlock
  /-- `cond_interrupt(u)` with `u` taken out of the queue. -/
  | intrWake (u : T)
  deriving DecidableEq

/-- `sem_t`, its condition variable's queue (front first, the newest) and the threads. -/
@[ext]
structure State (T : Type) where
  count : Int32
  lock : Option T
  queue : List T
  pc : T → Pc T
  signals : Nat
  rets : List (T × Int)

/-- An idle thread calls `sem_wait` or `sem_signal` or interrupts `u`; a thread inside a call
    takes its next step. -/
inductive Event (T : Type) where
  | wait (t : T)
  | signal (t : T)
  | interrupt (i u : T)
  | run (t : T)
  deriving DecidableEq

/-- The number of `sem_wait` calls that returned 0. -/
def State.ret0 {T : Type} (s : State T) : Nat := s.rets.countP fun r => r.2 == 0

section Model

variable {T : Type} [DecidableEq T]

def State.setPc (s : State T) (t : T) (p : Pc T) : State T :=
  { s with pc := Function.update s.pc t p }

/-- After `sem_init(sem, count)`. -/
def semInit (count : Int32) : State T where
  count := count
  lock := none
  queue := []
  pc _ := .idle
  signals := 0
  rets := []

/-- The next step of a thread inside a call. -/
def run (s : State T) (t : T) : Option (State T) :=
  match s.pc t with
  | .idle | .asleep | .taken => none
  | .waitLock => if s.lock = none then some ({ s with lock := some t }.setPc t .waitDec) else none
  | .waitDec =>
    let s : State T := { s with count := s.count - 1 }
    if s.count < 0 then some (s.setPc t .waitSleep) else some (s.setPc t .waitGot)
  | .waitSleep => some ({ s with queue := t :: s.queue, lock := none }.setPc t .asleep)
  | .woken k =>
    if s.lock = none then some ({ s with lock := some t }.setPc t (.waitTest k)) else none
  | .waitTest k =>
    if k = .interrupt then some ({ s with count := s.count + 1 }.setPc t .waitErr)
    else some (s.setPc t .waitGot)
  | .waitErr => some ({ s with lock := none, rets := s.rets ++ [(t, -EINTR)] }.setPc t .idle)
  | .waitGot => some ({ s with lock := none, rets := s.rets ++ [(t, 0)] }.setPc t .idle)
  | .sigLock => if s.lock = none then some ({ s with lock := some t }.setPc t .sigInc) else none
  | .sigInc =>
    some ({ s with count := s.count + 1, signals := s.signals + 1 }.setPc t .sigCond)
  | .sigCond =>
    match s.queue.getLast? with
    | none => some (s.setPc t .sigUnlock)
    | some u =>
      some (({ s with queue := s.queue.dropLast }.setPc u (.woken .signal)).setPc t .sigUnlock)
  | .sigUnlock => some ({ s with lock := none }.setPc t .idle)
  | .intrWake u => some ((s.setPc u (.woken .interrupt)).setPc t .idle)

/-- One event.  An interrupt of a thread that is not queued does nothing. -/
def step (s : State T) : Event T → Option (State T)
  | .wait t => if s.pc t = .idle then some (s.setPc t .waitLock) else none
  | .signal t => if s.pc t = .idle then some (s.setPc t .sigLock) else none
  | .interrupt i u =>
    if s.pc i = .idle then
      if s.pc u = .asleep then
        some (({ s with queue := s.queue.erase u }.setPc u .taken).setPc i (.intrWake u))
      else some s
    else none
  | .run t => run s t

end Model

/-! ## The range of `sem_count` -/

theorem toInt_succ {c : Int32} (h : c ≠ Int32.maxValue) : (c + 1).toInt = c.toInt + 1 := by
  have hmax : c.toInt ≠ 2 ^ 31 - 1 := fun hc => h (Int32.toInt_inj.1 hc)
  have hlt := c.toInt_lt
  have hge := c.le_toInt
  rw [Int32.toInt_add, Int32.toInt_one]
  exact Int.bmod_eq_of_le (by omega) (by omega)

theorem toInt_pred {c : Int32} (h : c ≠ Int32.minValue) : (c - 1).toInt = c.toInt - 1 := by
  have hmin : c.toInt ≠ -2 ^ 31 := fun hc => h (Int32.toInt_inj.1 hc)
  have hlt := c.toInt_lt
  have hge := c.le_toInt
  rw [Int32.toInt_sub, Int32.toInt_one]
  exact Int.bmod_eq_of_le (by omega) (by omega)

/-- The test after the decrement. -/
theorem pred_neg {c : Int32} (h : c ≠ Int32.minValue) : c - 1 < 0 ↔ c.toInt - 1 < 0 := by
  rw [Int32.lt_iff_toInt_lt, toInt_pred h, Int32.toInt_zero]

/-- The step does not overflow `sem_count`. -/
def InRange {T : Type} (s : State T) : Event T → Prop
  | .run t =>
    (s.pc t = .waitDec → s.count ≠ Int32.minValue) ∧
    (s.pc t = .sigInc ∨ s.pc t = .waitTest .interrupt → s.count ≠ Int32.maxValue)
  | _ => True

instance {T : Type} [DecidableEq T] (s : State T) : (e : Event T) → Decidable (InRange s e)
  | .run t => inferInstanceAs (Decidable ((s.pc t = .waitDec → s.count ≠ Int32.minValue) ∧
      (s.pc t = .sigInc ∨ s.pc t = .waitTest .interrupt → s.count ≠ Int32.maxValue)))
  | .wait _ | .signal _ | .interrupt .. => isTrue trivial

/-! ## Inversion of a step -/

section Move

variable {T : Type} [DecidableEq T]

/-- The steps of thread `t`, one constructor for each program point and branch. -/
inductive Move (s : State T) (t : T) : State T → Prop where
  | callWait (hpc : s.pc t = .idle) : Move s t (s.setPc t .waitLock)
  | callSignal (hpc : s.pc t = .idle) : Move s t (s.setPc t .sigLock)
  | intrTake {u : T} (hpc : s.pc t = .idle) (hu : s.pc u = .asleep) :
      Move s t (({ s with queue := s.queue.erase u }.setPc u .taken).setPc t (.intrWake u))
  | intrMiss (hpc : s.pc t = .idle) : Move s t s
  | waitLock (hpc : s.pc t = .waitLock) (hfree : s.lock = none) :
      Move s t ({ s with lock := some t }.setPc t .waitDec)
  | decSleep (hpc : s.pc t = .waitDec) (hc : s.count - 1 < 0) :
      Move s t ({ s with count := s.count - 1 }.setPc t .waitSleep)
  | decGot (hpc : s.pc t = .waitDec) (hc : ¬ s.count - 1 < 0) :
      Move s t ({ s with count := s.count - 1 }.setPc t .waitGot)
  | sleep (hpc : s.pc t = .waitSleep) :
      Move s t ({ s with queue := t :: s.queue, lock := none }.setPc t .asleep)
  | relock {k : Ender} (hpc : s.pc t = .woken k) (hfree : s.lock = none) :
      Move s t ({ s with lock := some t }.setPc t (.waitTest k))
  | rollback (hpc : s.pc t = .waitTest .interrupt) :
      Move s t ({ s with count := s.count + 1 }.setPc t .waitErr)
  | testGot {k : Ender} (hpc : s.pc t = .waitTest k) (hk : k ≠ .interrupt) :
      Move s t (s.setPc t .waitGot)
  | retErr (hpc : s.pc t = .waitErr) :
      Move s t ({ s with lock := none, rets := s.rets ++ [(t, -EINTR)] }.setPc t .idle)
  | ret0 (hpc : s.pc t = .waitGot) :
      Move s t ({ s with lock := none, rets := s.rets ++ [(t, 0)] }.setPc t .idle)
  | sigLock (hpc : s.pc t = .sigLock) (hfree : s.lock = none) :
      Move s t ({ s with lock := some t }.setPc t .sigInc)
  | sigInc (hpc : s.pc t = .sigInc) :
      Move s t ({ s with count := s.count + 1, signals := s.signals + 1 }.setPc t .sigCond)
  | sigNobody (hpc : s.pc t = .sigCond) (hq : s.queue = []) : Move s t (s.setPc t .sigUnlock)
  | sigWake {l : List T} {u : T} (hpc : s.pc t = .sigCond) (hq : s.queue = l ++ [u]) :
      Move s t (({ s with queue := l }.setPc u (.woken .signal)).setPc t .sigUnlock)
  | sigUnlock (hpc : s.pc t = .sigUnlock) : Move s t ({ s with lock := none }.setPc t .idle)
  | intrWake {u : T} (hpc : s.pc t = .intrWake u) :
      Move s t ((s.setPc u (.woken .interrupt)).setPc t .idle)

theorem run_move {s s' : State T} {t : T} (h : run s t = some s') : Move s t s' := by
  unfold run at h
  split at h
  case h_1 => cases h
  case h_2 => cases h
  case h_3 => cases h
  case h_4 hpc =>
    split at h
    · cases h; exact .waitLock hpc ‹_›
    · cases h
  case h_5 hpc =>
    dsimp only at h
    split at h
    · cases h; exact .decSleep hpc ‹_›
    · cases h; exact .decGot hpc ‹_›
  case h_6 hpc => cases h; exact .sleep hpc
  case h_7 k hpc =>
    split at h
    · cases h; exact .relock hpc ‹_›
    · cases h
  case h_8 k hpc =>
    split at h
    · rename_i hk
      subst hk
      cases h; exact .rollback hpc
    · cases h; exact .testGot hpc ‹_›
  case h_9 hpc => cases h; exact .retErr hpc
  case h_10 hpc => cases h; exact .ret0 hpc
  case h_11 hpc =>
    split at h
    · cases h; exact .sigLock hpc ‹_›
    · cases h
  case h_12 hpc => cases h; exact .sigInc hpc
  case h_13 hpc =>
    split at h
    · rename_i hq
      cases h; exact .sigNobody hpc (List.getLast?_eq_none_iff.1 hq)
    · rename_i u hq
      cases h; exact .sigWake hpc (List.dropLast_append_getLast? u hq).symm
  case h_14 hpc => cases h; exact .sigUnlock hpc
  case h_15 u hpc => cases h; exact .intrWake hpc

/-- **Step inversion**: the step of a thread inside a call is the event that names it. -/
theorem step_move {s s' : State T} {e : Event T} (h : step s e = some s') :
    ∃ t, Move s t s' ∧ (s.pc t ≠ .idle → e = .run t) := by
  cases e with
  | wait t =>
    simp only [step] at h
    split at h
    · rename_i hpc
      cases h; exact ⟨t, .callWait hpc, fun hne => absurd hpc hne⟩
    · cases h
  | signal t =>
    simp only [step] at h
    split at h
    · rename_i hpc
      cases h; exact ⟨t, .callSignal hpc, fun hne => absurd hpc hne⟩
    · cases h
  | interrupt i u =>
    simp only [step] at h
    split at h
    · rename_i hpc
      split at h
      · cases h; exact ⟨i, .intrTake hpc ‹_›, fun hne => absurd hpc hne⟩
      · cases h; exact ⟨i, .intrMiss hpc, fun hne => absurd hpc hne⟩
    · cases h
  | run t => exact ⟨t, run_move h, fun _ => rfl⟩

end Move

/-! ## The lock and the queue -/

section Inv

variable {T : Type}

/-- `sem_lock` is held. -/
def Pc.inside : Pc T → Bool
  | .waitDec | .waitSleep | .waitTest _ | .waitErr | .waitGot | .sigInc | .sigCond
  | .sigUnlock => true
  | _ => false

/-- The program points that the queue and the interrupts say nothing about. -/
def Pc.plain : Pc T → Bool
  | .asleep | .taken | .intrWake _ => false
  | _ => true

/-- The queue holds the sleeping threads; who is about to be unblocked by an interrupt has been
    taken out, by one thread. -/
structure QueueOk (queue : List T) (pc : T → Pc T) : Prop where
  mem : ∀ t, t ∈ queue ↔ pc t = .asleep
  nodup : queue.Nodup
  taken : ∀ i u, pc i = .intrWake u → pc u = .taken
  unique : ∀ i j u, pc i = .intrWake u → pc j = .intrWake u → i = j

variable [DecidableEq T] {s s' : State T} {t : T} {queue : List T} {pc : T → Pc T}

omit [DecidableEq T] in
theorem Pc.plain_ne {p : Pc T} (h : p.plain = true) :
    p ≠ .asleep ∧ p ≠ .taken ∧ ∀ u, p ≠ .intrWake u := by
  refine ⟨?_, ?_, fun u => ?_⟩ <;> rintro rfl <;> cases h

/-- A thread that is not asleep, and not about to be unblocked, moves to a plain point. -/
theorem QueueOk.keep (h : QueueOk queue pc) {p : Pc T} (h₀ : pc t ≠ .asleep)
    (hn : ∀ i, pc i ≠ .intrWake t) (hp : p.plain = true) :
    QueueOk queue (Function.update pc t p) := by
  obtain ⟨hp₁, _, hp₃⟩ := Pc.plain_ne hp
  have hwake : ∀ i u, Function.update pc t p i = .intrWake u → pc i = .intrWake u :=
    fun i u hi => eq_of_update hi (hp₃ u)
  refine ⟨?_, h.nodup, ?_, ?_⟩
  · apply (Function.forall_update_iff _ fun u (q : Pc T) => u ∈ queue ↔ q = .asleep).2
    refine ⟨?_, fun u _ => h.mem u⟩
    rw [h.mem t]
    exact iff_of_false h₀ hp₁
  · intro i u hi
    have hut : u ≠ t := by
      rintro rfl
      exact hn i (hwake i u hi)
    rw [Function.update_of_ne hut, h.taken i u (hwake i u hi)]
  · intro i j u hi hj
    exact h.unique i j u (hwake i u hi) (hwake j u hj)

omit [DecidableEq T] in
/-- Nobody is about to unblock a thread that has not been taken out. -/
theorem QueueOk.no_wake (h : QueueOk queue pc) (ht : pc t ≠ .taken) (i : T) :
    pc i ≠ .intrWake t := fun hi => ht (h.taken i t hi)

theorem QueueOk.plain (h : QueueOk queue pc) {p₀ p : Pc T} (hpc : pc t = p₀)
    (h₀ : p₀.plain = true) (hp : p.plain = true) : QueueOk queue (Function.update pc t p) := by
  obtain ⟨h₁, h₂, _⟩ := Pc.plain_ne (hpc ▸ h₀)
  exact h.keep h₁ (h.no_wake h₂) hp

theorem QueueOk.enqueue (h : QueueOk queue pc) (h₀ : (pc t).plain = true) :
    QueueOk (t :: queue) (Function.update pc t .asleep) := by
  obtain ⟨h₁, h₂, h₃⟩ := Pc.plain_ne h₀
  have hwake : ∀ i u, Function.update pc t .asleep i = .intrWake u → pc i = .intrWake u :=
    fun i u hi => eq_of_update hi (by simp)
  refine ⟨?_, List.nodup_cons.2 ⟨fun hm => h₁ ((h.mem t).1 hm), h.nodup⟩,
    ?_, fun i j u hi hj => h.unique i j u (hwake i u hi) (hwake j u hj)⟩
  · apply (Function.forall_update_iff _ fun u (q : Pc T) => u ∈ t :: queue ↔ q = .asleep).2
    refine ⟨iff_of_true (List.mem_cons_self ..) rfl, ?_⟩
    intro u hu
    rw [List.mem_cons, h.mem u]
    simp [hu]
  · intro i u hi
    have hu := h.taken i u (hwake i u hi)
    have hut : u ≠ t := by
      rintro rfl
      exact h₂ hu
    rw [Function.update_of_ne hut, hu]

/-- A queued thread leaves the queue, woken or taken out. -/
theorem QueueOk.dequeue (h : QueueOk queue pc) {u : T} {p : Pc T} (hu : pc u = .asleep)
    (hp : p.plain = true ∨ p = .taken) :
    QueueOk (queue.erase u) (Function.update pc u p) := by
  have hp' : p ≠ .asleep ∧ ∀ w, p ≠ .intrWake w := by
    rcases hp with hp | rfl
    · exact ⟨(Pc.plain_ne hp).1, (Pc.plain_ne hp).2.2⟩
    · exact ⟨by simp, by simp⟩
  have hwake : ∀ i w, Function.update pc u p i = .intrWake w → pc i = .intrWake w :=
    fun i w hi => eq_of_update hi (hp'.2 w)
  refine ⟨?_, h.nodup.erase u, ?_,
    fun i j w hi hj => h.unique i j w (hwake i w hi) (hwake j w hj)⟩
  · apply (Function.forall_update_iff _ fun w (q : Pc T) => w ∈ queue.erase u ↔ q = .asleep).2
    refine ⟨?_, ?_⟩
    · rw [h.nodup.mem_erase_iff]
      simp [hp'.1]
    · intro w hw
      rw [h.nodup.mem_erase_iff, h.mem w]
      simp [hw]
  · intro i w hi
    have hw := h.taken i w (hwake i w hi)
    have hwu : w ≠ u := by
      rintro rfl
      rw [hu] at hw
      cases hw
    rw [Function.update_of_ne hwu, hw]

/-- A `cond_interrupt` goes on to unblock the thread it took out. -/
theorem QueueOk.startWake (h : QueueOk queue pc) {u : T} (h₀ : (pc t).plain = true)
    (hu : pc u = .taken) (hn : ∀ i, pc i ≠ .intrWake u) :
    QueueOk queue (Function.update pc t (.intrWake u)) := by
  obtain ⟨h₁, h₂, _⟩ := Pc.plain_ne h₀
  have hwake : ∀ i w, Function.update pc t (.intrWake u) i = .intrWake w →
      (i = t ∧ w = u) ∨ pc i = .intrWake w := by
    intro i w hi
    by_cases hit : i = t
    · subst hit; rw [Function.update_self] at hi; cases hi; exact Or.inl ⟨rfl, rfl⟩
    · rw [Function.update_of_ne hit] at hi; exact Or.inr hi
  refine ⟨?_, h.nodup, ?_, ?_⟩
  · apply (Function.forall_update_iff _ fun w (q : Pc T) => w ∈ queue ↔ q = .asleep).2
    refine ⟨?_, fun w _ => h.mem w⟩
    rw [h.mem t]
    exact iff_of_false h₁ (by simp)
  · intro i w hi
    have hw : pc w = .taken := by
      rcases hwake i w hi with ⟨_, rfl⟩ | hi
      · exact hu
      · exact h.taken i w hi
    have hwt : w ≠ t := by rintro rfl; exact h₂ hw
    rw [Function.update_of_ne hwt, hw]
  · intro i j w hi hj
    rcases hwake i w hi with ⟨rfl, rfl⟩ | hi'
    · rcases hwake j w hj with ⟨rfl, _⟩ | hj'
      · rfl
      · exact absurd hj' (hn j)
    · rcases hwake j w hj with ⟨_, rfl⟩ | hj'
      · exact absurd hi' (hn i)
      · exact h.unique i j w hi' hj'

/-- **Every step keeps the queue invariant.** -/
theorem QueueOk.move (h : QueueOk s.queue s.pc) (hm : Move s t s') : QueueOk s'.queue s'.pc := by
  cases hm with
  | callWait hpc => exact h.plain hpc rfl rfl
  | callSignal hpc => exact h.plain hpc rfl rfl
  | @intrTake u hpc hu =>
    have htu : t ≠ u := by rintro rfl; rw [hpc] at hu; cases hu
    have hut : (Function.update s.pc u .taken) t = s.pc t := Function.update_of_ne htu _ _
    refine (h.dequeue hu (Or.inr rfl)).startWake (by rw [hut, hpc]; rfl)
      (Function.update_self ..) ?_
    intro i hi
    by_cases hiu : i = u
    · rw [hiu, Function.update_self] at hi; cases hi
    · rw [Function.update_of_ne hiu] at hi
      exact h.no_wake (by rw [hu]; simp) i hi
  | intrMiss hpc => exact h
  | waitLock hpc hfree => exact h.plain hpc rfl rfl
  | decSleep hpc hc => exact h.plain hpc rfl rfl
  | decGot hpc hc => exact h.plain hpc rfl rfl
  | sleep hpc => exact h.enqueue (by rw [hpc]; rfl)
  | relock hpc hfree => exact h.plain hpc rfl rfl
  | rollback hpc => exact h.plain hpc rfl rfl
  | testGot hpc hk => exact h.plain hpc rfl rfl
  | retErr hpc => exact h.plain hpc rfl rfl
  | ret0 hpc => exact h.plain hpc rfl rfl
  | sigLock hpc hfree => exact h.plain hpc rfl rfl
  | sigInc hpc => exact h.plain hpc rfl rfl
  | sigNobody hpc hq => exact h.plain hpc rfl rfl
  | @sigWake l u hpc hq =>
    have hu : s.pc u = .asleep := (h.mem u).1 (by rw [hq]; simp)
    have htu : t ≠ u := by rintro rfl; rw [hpc] at hu; cases hu
    have hl : s.queue.erase u = l := by
      have hn := h.nodup
      rw [hq, List.nodup_append] at hn
      rw [hq, List.erase_append_right _ fun hm => hn.2.2 u hm u (by simp) rfl]
      simp
    have hd := h.dequeue hu (p := .woken .signal) (Or.inl rfl)
    rw [hl] at hd
    exact hd.plain ((Function.update_of_ne htu _ _).trans hpc) rfl rfl
  | sigUnlock hpc => exact h.plain hpc rfl rfl
  | @intrWake u hpc =>
    have hu := h.taken t u hpc
    have htu : t ≠ u := by rintro rfl; rw [hpc] at hu; cases hu
    have hidle := h.keep (t := t) (p := .idle) (by rw [hpc]; simp)
      (h.no_wake (by rw [hpc]; simp)) rfl
    have hwoken := hidle.keep (t := u) (p := .woken .interrupt)
      (by rw [Function.update_of_ne htu.symm, hu]; simp) (fun i hi => ?_) rfl
    · rw [Function.update_comm htu] at hwoken
      exact hwoken
    · by_cases hit : i = t
      · rw [hit, Function.update_self] at hi; cases hi
      · rw [Function.update_of_ne hit] at hi
        exact hit (h.unique i t u hi hpc)

/-- **Every step keeps the owner of `sem_lock`.** -/
theorem lock_move (h : Held s.lock Pc.inside s.pc) (hq : QueueOk s.queue s.pc) (hm : Move s t s') :
    Held s'.lock Pc.inside s'.pc := by
  cases hm with
  | callWait hpc => exact h.move (by rw [hpc]; rfl)
  | callSignal hpc => exact h.move (by rw [hpc]; rfl)
  | @intrTake u hpc hu =>
    have htu : t ≠ u := by rintro rfl; rw [hpc] at hu; cases hu
    have h' := h.move (i := u) (p := .taken) (by rw [hu]; rfl)
    exact h'.move (by rw [Function.update_of_ne htu, hpc]; rfl)
  | intrMiss hpc => exact h
  | waitLock hpc hfree => exact h.take hfree rfl
  | decSleep hpc hc => exact h.move (by rw [hpc]; rfl)
  | decGot hpc hc => exact h.move (by rw [hpc]; rfl)
  | sleep hpc => exact h.drop (by rw [hpc]; rfl) rfl
  | relock hpc hfree => exact h.take hfree rfl
  | rollback hpc => exact h.move (by rw [hpc]; rfl)
  | testGot hpc hk => exact h.move (by rw [hpc]; rfl)
  | retErr hpc => exact h.drop (by rw [hpc]; rfl) rfl
  | ret0 hpc => exact h.drop (by rw [hpc]; rfl) rfl
  | sigLock hpc hfree => exact h.take hfree rfl
  | sigInc hpc => exact h.move (by rw [hpc]; rfl)
  | sigNobody hpc hl => exact h.move (by rw [hpc]; rfl)
  | @sigWake l u hpc hl =>
    have hu : s.pc u = .asleep := (hq.mem u).1 (by rw [hl]; simp)
    have htu : t ≠ u := by rintro rfl; rw [hpc] at hu; cases hu
    have h' := h.move (i := u) (p := .woken .signal) (by rw [hu]; rfl)
    exact h'.move (by rw [Function.update_of_ne htu, hpc]; rfl)
  | sigUnlock hpc => exact h.drop (by rw [hpc]; rfl) rfl
  | @intrWake u hpc =>
    have hu := hq.taken t u hpc
    have htu : t ≠ u := by rintro rfl; rw [hpc] at hu; cases hu
    have h' := h.move (i := u) (p := .woken .interrupt) (by rw [hu]; rfl)
    exact h'.move (by rw [Function.update_of_ne htu, hpc]; rfl)

end Inv

/-! ## The account -/

section Account

variable {T : Type}

/-- In `sem_wait`, with the decrement to its debit: going to sleep or asleep. -/
def Pc.sleeping : Pc T → Bool
  | .waitSleep | .asleep => true
  | _ => false

/-- Taken out by a `cond_interrupt`, the decrement not undone yet. -/
def Pc.interrupted : Pc T → Bool
  | .taken => true
  | .woken k | .waitTest k => k == .interrupt
  | _ => false

/-- Not put to sleep, or woken by a signal, and not returned yet. -/
def Pc.granted : Pc T → Bool
  | .waitGot => true
  | .woken k | .waitTest k => k != .interrupt
  | _ => false

/-- Between the increment of a signal and its `cond_signal`. -/
def Pc.atCond : Pc T → Bool
  | .sigCond => true
  | _ => false

/-- A wait that has decremented `sem_count` and not yet returned or rolled back. -/
def Pc.inProgress (p : Pc T) : Bool := p.sleeping || (p.interrupted || p.granted)

variable [Fintype T]

/-- The account of the tokens: `sem_count` is what was put in, less what was taken out, less the
    waits in progress; and it falls below zero by waiters only. -/
structure Numbers (k count : Int) (signals ret0 : Nat) (pc : T → Pc T) : Prop where
  account : count = k + signals - ret0 -
    (tally Pc.sleeping pc + tally Pc.interrupted pc + tally Pc.granted pc)
  bound : tally Pc.atCond pc ≤ count + tally Pc.sleeping pc + tally Pc.interrupted pc

variable [DecidableEq T] {k : Int32} {s s' : State T} {t : T}

/-- The tallies when `t` moves to `p`. -/
theorem tallies (pc : T → Pc T) (t : T) (p : Pc T) :
    (tally Pc.sleeping (Function.update pc t p) + (pc t).sleeping.toNat =
      tally Pc.sleeping pc + p.sleeping.toNat) ∧
    (tally Pc.interrupted (Function.update pc t p) + (pc t).interrupted.toNat =
      tally Pc.interrupted pc + p.interrupted.toNat) ∧
    (tally Pc.granted (Function.update pc t p) + (pc t).granted.toNat =
      tally Pc.granted pc + p.granted.toNat) ∧
    (tally Pc.atCond (Function.update pc t p) + (pc t).atCond.toNat =
      tally Pc.atCond pc + p.atCond.toNat) :=
  ⟨tally_update .., tally_update .., tally_update .., tally_update ..⟩

omit [DecidableEq T] in
/-- Only the holder of `sem_lock` is at `cond_signal`. -/
theorem atCond_eq_zero (h : Held s.lock Pc.inside s.pc) (ht : (s.pc t).inside = true)
    (hc : (s.pc t).atCond = false) : tally Pc.atCond s.pc = 0 := by
  rw [tally_eq_zero]
  intro i
  cases hi : (s.pc i).atCond with
  | false => rfl
  | true =>
    have hin : (s.pc i).inside = true := by
      cases hp : s.pc i <;> rw [hp] at hi <;> simp_all [Pc.atCond, Pc.inside]
    rw [h.unique hin ht, hc] at hi
    cases hi

/-- One thread moves and the numbers follow. -/
theorem Numbers.shift {k c c' : Int} {sg sg' r r' : Nat} {pc : T → Pc T} (h : Numbers k c sg r pc)
    {p₀ p : Pc T} (hpc : pc t = p₀)
    (hacc : c' + r' + p.sleeping.toNat + p.interrupted.toNat + p.granted.toNat + sg =
      c + r + p₀.sleeping.toNat + p₀.interrupted.toNat + p₀.granted.toNat + sg')
    (hbound : p.atCond.toNat + c + p₀.sleeping.toNat + p₀.interrupted.toNat ≤
      p₀.atCond.toNat + c' + p.sleeping.toNat + p.interrupted.toNat) :
    Numbers k c' sg' r' (Function.update pc t p) := by
  obtain ⟨ha, hb⟩ := h
  obtain ⟨h1, h2, h3, h4⟩ := tallies pc t p
  rw [hpc] at h1 h2 h3 h4
  constructor <;> omega

omit [Fintype T] [DecidableEq T] in
theorem ret0_append (s : State T) (t : T) (r : Int) :
    ({ s with rets := s.rets ++ [(t, r)] } : State T).ret0 = s.ret0 + if r = 0 then 1 else 0 := by
  simp [State.ret0, List.countP_append, List.countP_cons]

/-- **Every step that does not overflow keeps the account.** -/
theorem Numbers.move {k : Int} (h : Numbers k s.count.toInt s.signals s.ret0 s.pc)
    (hl : Held s.lock Pc.inside s.pc) (hq : QueueOk s.queue s.pc) (hm : Move s t s')
    (hin : InRange s (.run t)) : Numbers k s'.count.toInt s'.signals s'.ret0 s'.pc := by
  cases hm with
  | callWait hpc => exact h.shift hpc rfl (Int.le_refl _)
  | callSignal hpc => exact h.shift hpc rfl (Int.le_refl _)
  | @intrTake u hpc hu =>
    have htu : t ≠ u := by rintro rfl; rw [hpc] at hu; cases hu
    have h' : Numbers k s.count.toInt s.signals s.ret0 (Function.update s.pc u .taken) :=
      h.shift hu (by simp [Pc.sleeping, Pc.interrupted, Pc.granted])
        (by simp [Pc.sleeping, Pc.interrupted, Pc.atCond])
    exact h'.shift ((Function.update_of_ne htu _ _).trans hpc) rfl (Int.le_refl _)
  | intrMiss hpc => exact h
  | waitLock hpc hfree => exact h.shift hpc rfl (Int.le_refl _)
  | decSleep hpc hc =>
    show Numbers k (s.count - 1).toInt s.signals s.ret0 (Function.update s.pc t .waitSleep)
    rw [toInt_pred (hin.1 hpc)]
    refine h.shift hpc ?_ (by simp [Pc.sleeping, Pc.interrupted, Pc.atCond])
    simp only [Pc.sleeping, Pc.interrupted, Pc.granted, Bool.toNat_false, Bool.toNat_true]
    omega
  | decGot hpc hc =>
    -- the count stays at or above zero, and nobody else holds the lock
    have hz := atCond_eq_zero hl (t := t) (by rw [hpc]; rfl) (by rw [hpc]; rfl)
    rw [pred_neg (hin.1 hpc)] at hc
    show Numbers k (s.count - 1).toInt s.signals s.ret0 (Function.update s.pc t .waitGot)
    rw [toInt_pred (hin.1 hpc)]
    obtain ⟨ha, hb⟩ := h
    obtain ⟨h1, h2, h3, h4⟩ := tallies s.pc t .waitGot
    simp only [hpc, Pc.sleeping, Pc.interrupted, Pc.granted, Pc.atCond, Bool.toNat_false,
      Bool.toNat_true] at h1 h2 h3 h4
    constructor <;> omega
  | sleep hpc => exact h.shift hpc rfl (Int.le_refl _)
  | @relock κ hpc hfree => exact h.shift hpc rfl (Int.le_refl _)
  | rollback hpc =>
    show Numbers k (s.count + 1).toInt s.signals s.ret0 (Function.update s.pc t .waitErr)
    rw [toInt_succ (hin.2 (Or.inr hpc))]
    refine h.shift hpc ?_ (by simp [Pc.sleeping, Pc.interrupted, Pc.atCond])
    simp only [Pc.sleeping, Pc.interrupted, Pc.granted, beq_self_eq_true, bne_self_eq_false,
      Bool.toNat_false, Bool.toNat_true]
    omega
  | @testGot κ hpc hk =>
    have hk' : (κ == Ender.interrupt) = false := by simp [hk]
    have hk'' : (κ != Ender.interrupt) = true := by simp [hk]
    show Numbers k s.count.toInt s.signals s.ret0 (Function.update s.pc t .waitGot)
    exact h.shift hpc (by simp [Pc.sleeping, Pc.interrupted, Pc.granted, hk', hk''])
      (by simp [Pc.sleeping, Pc.interrupted, Pc.atCond, hk'])
  | retErr hpc =>
    have hr : (({ s with lock := none, rets := s.rets ++ [(t, -EINTR)] } : State T).setPc t
        .idle).ret0 = s.ret0 := ret0_append s t (-EINTR)
    rw [hr]
    exact h.shift hpc rfl (Int.le_refl _)
  | ret0 hpc =>
    have hr : (({ s with lock := none, rets := s.rets ++ [(t, 0)] } : State T).setPc t
        .idle).ret0 = s.ret0 + 1 := ret0_append s t 0
    rw [hr]
    show Numbers k s.count.toInt s.signals (s.ret0 + 1) (Function.update s.pc t .idle)
    refine h.shift hpc ?_ (by simp [Pc.sleeping, Pc.interrupted, Pc.atCond])
    simp only [Pc.sleeping, Pc.interrupted, Pc.granted, Bool.toNat_false, Bool.toNat_true]
    omega
  | sigLock hpc hfree => exact h.shift hpc rfl (Int.le_refl _)
  | sigInc hpc =>
    show Numbers k (s.count + 1).toInt (s.signals + 1) s.ret0 (Function.update s.pc t .sigCond)
    rw [toInt_succ (hin.2 (Or.inl hpc))]
    apply h.shift hpc
    · simp only [Pc.sleeping, Pc.interrupted, Pc.granted, Bool.toNat_false]
      omega
    · simp only [Pc.sleeping, Pc.interrupted, Pc.atCond, Bool.toNat_false, Bool.toNat_true]
      omega
  | sigNobody hpc hl =>
    show Numbers k s.count.toInt s.signals s.ret0 (Function.update s.pc t .sigUnlock)
    exact h.shift hpc rfl (by simp [Pc.sleeping, Pc.interrupted, Pc.atCond])
  | @sigWake l u hpc hl =>
    have hu : s.pc u = .asleep := (hq.mem u).1 (by rw [hl]; simp)
    have htu : t ≠ u := by rintro rfl; rw [hpc] at hu; cases hu
    obtain ⟨ha, hb⟩ := h
    obtain ⟨h1, h2, h3, h4⟩ := tallies s.pc u (.woken .signal)
    obtain ⟨h5, h6, h7, h8⟩ := tallies (Function.update s.pc u (.woken .signal)) t .sigUnlock
    rw [Function.update_of_ne htu, hpc] at h5 h6 h7 h8
    rw [hu] at h1 h2 h3 h4
    simp [Pc.sleeping, Pc.interrupted, Pc.granted, Pc.atCond,
      show (Ender.signal == Ender.interrupt) = false from rfl,
      show (Ender.signal != Ender.interrupt) = true from rfl] at h1 h2 h3 h4 h5 h6 h7 h8
    constructor <;> simp only [State.setPc, State.ret0] at * <;> omega
  | sigUnlock hpc => exact h.shift hpc rfl (Int.le_refl _)
  | @intrWake u hpc =>
    have hu := hq.taken t u hpc
    have htu : t ≠ u := by rintro rfl; rw [hpc] at hu; cases hu
    have h' : Numbers k s.count.toInt s.signals s.ret0
        (Function.update s.pc u (.woken .interrupt)) :=
      h.shift hu (by simp [Pc.sleeping, Pc.interrupted, Pc.granted])
        (by simp [Pc.sleeping, Pc.interrupted, Pc.atCond])
    exact h'.shift ((Function.update_of_ne htu _ _).trans hpc) rfl (Int.le_refl _)

/-! ## Runs -/

/-- The lock and the queue, whatever `sem_count` is. -/
structure SemOk (s : State T) : Prop where
  lock : Held s.lock Pc.inside s.pc
  queue : QueueOk s.queue s.pc

omit [DecidableEq T] [Fintype T] in
theorem semOk_initial (k : Int32) : SemOk (semInit k : State T) where
  lock t := by simp [semInit, Pc.inside]
  queue := ⟨by simp [semInit], List.nodup_nil, by simp [semInit], by simp [semInit]⟩

omit [Fintype T] in
theorem SemOk.step {e : Event T} (h : SemOk s) (hs : step s e = some s') : SemOk s' := by
  obtain ⟨t, hm, _⟩ := step_move hs
  exact ⟨lock_move h.lock h.queue hm, h.queue.move hm⟩

/-- The invariant of the semaphore. -/
structure SemInv (k : Int32) (s : State T) : Prop extends SemOk s where
  numbers : Numbers k.toInt s.count.toInt s.signals s.ret0 s.pc

omit [DecidableEq T] in
theorem numbers_initial {k : Int32} (hk : 0 ≤ k) :
    Numbers k.toInt (semInit k : State T).count.toInt (semInit k : State T).signals
      (semInit k : State T).ret0 (semInit k : State T).pc := by
  have h0 : ∀ p : Pc T → Bool, p .idle = false → tally p (fun _ : T => (.idle : Pc T)) = 0 :=
    fun p hp => tally_eq_zero.2 fun _ => hp
  rw [Int32.le_iff_toInt_le, Int32.toInt_zero] at hk
  constructor <;>
    simp [h0 Pc.sleeping rfl, h0 Pc.interrupted rfl, h0 Pc.granted rfl, h0 Pc.atCond rfl, semInit,
      State.ret0, hk]

omit [DecidableEq T] in
theorem semInv_initial {k : Int32} (hk : 0 ≤ k) : SemInv k (semInit k : State T) where
  toSemOk := semOk_initial k
  numbers := numbers_initial hk

omit [Fintype T] in
/-- An event whose thread is outside changes no count. -/
theorem InRange.of_event {e : Event T} (hin : InRange s e) (he : s.pc t ≠ .idle → e = .run t) :
    InRange s (.run t) := by
  by_cases hpc : s.pc t = .idle
  · refine ⟨fun h => ?_, fun h => ?_⟩
    · rw [hpc] at h
      cases h
    · rw [hpc] at h
      rcases h with h | h <;> cases h
  · rwa [he hpc] at hin

theorem SemInv.step {e : Event T} (h : SemInv k s) (hin : InRange s e) (hs : step s e = some s') :
    SemInv k s' := by
  obtain ⟨t, hm, he⟩ := step_move hs
  exact ⟨h.toSemOk.step hs, h.numbers.move h.lock h.queue hm (hin.of_event he)⟩

theorem SemInv.exec {es : List (Event T)} (hk : 0 ≤ k)
    (hin : Lts.Along Sem.step InRange (semInit k) es)
    (h : Lts.exec Sem.step (semInit k) es = some s) : SemInv k s :=
  Lts.exec_inv_along InRange (SemInv k) (fun _ _ _ hi hin hs => hi.step hin hs)
    (semInv_initial hk) hin h

/-- **No overflow while the tokens fit into an `int`**, if there are at most `2 ^ 31` threads. -/
theorem SemInv.inRange {e : Event T} (h : SemInv k s) (hs : Sem.step s e = some s')
    (hthreads : Fintype.card T ≤ 2 ^ 31)
    (htokens : k.toInt + s'.signals - s'.ret0 ≤ Int32.maxValue.toInt) : InRange s e := by
  cases e with
  | wait t | signal t | interrupt i u => trivial
  | run t =>
    obtain ⟨ha, hb⟩ := h.numbers
    refine ⟨fun hpc hmin => ?_, fun hpc hmax => ?_⟩
    · -- the debts are those of the other threads
      have hdebts := tally_or (p := Pc.sleeping) (q := Pc.interrupted) (f := s.pc) fun p hp => by
        cases p <;> simp_all [Pc.sleeping, Pc.interrupted]
      have hothers := tally_lt_card (p := fun p => Pc.sleeping p || Pc.interrupted p) (f := s.pc)
        (i := t) (by rw [hpc]; rfl)
      have hlow : s.count.toInt = -2 ^ 31 := by rw [hmin, Int32.toInt_minValue]
      omega
    · have hhigh : s.count.toInt = Int32.maxValue.toInt := by rw [hmax]
      rcases hpc with hpc | hpc
      · simp only [Sem.step, run, hpc] at hs
        cases hs
        simp only [State.setPc, State.ret0] at htokens ha
        omega
      · have hpos : 0 < tally Pc.interrupted s.pc := tally_pos.2 ⟨t, by rw [hpc]; rfl⟩
        simp only [Sem.step, run, hpc, if_true] at hs
        cases hs
        simp only [State.setPc, State.ret0] at htokens ha
        omega

omit [Fintype T] in
theorem signals_le {e : Event T} (hs : Sem.step s e = some s') : s.signals ≤ s'.signals := by
  obtain ⟨t, hm, -⟩ := step_move hs
  cases hm with
  | sigInc => exact Nat.le_succ _
  | _ => exact Nat.le_refl _

/-- The same for a run. -/
theorem inRange_of_few (hk : 0 ≤ k) {es : List (Event T)}
    (h : Lts.exec Sem.step (semInit k) es = some s) (hthreads : Fintype.card T ≤ 2 ^ 31)
    (htokens : k.toInt + s.signals ≤ Int32.maxValue.toInt) :
    Lts.Along Sem.step InRange (semInit k) es := by
  induction es using List.reverseRecOn generalizing s with
  | nil => trivial
  | append_singleton es e ih =>
    obtain ⟨m, hm, hs⟩ := Lts.exec_concat.1 h
    have hle := signals_le hs
    have hes := ih hm (by omega)
    refine (Lts.along_append ..).2 ⟨hes, fun m' hm' => ⟨?_, fun _ _ => trivial⟩⟩
    obtain rfl : m = m' := Option.some.inj (hm.symm.trans hm')
    exact (SemInv.exec hk hes hm).inRange hs hthreads (by omega)

/-- **A semaphore never over-grants**, as long as `sem_count` does not overflow.  The waits that
returned 0, with those that were not put to sleep or were woken by a signal and have not returned
yet, are at most as many as the tokens; while `sem_lock` is free `sem_count` is what was put in less
the waits that returned 0 and those in progress. -/
theorem sem_never_over_grants {k : Int32} (hk : 0 ≤ k) {es : List (Event T)} {s : State T}
    (hin : Lts.Along Sem.step InRange (semInit k) es)
    (h : Lts.exec Sem.step (semInit k) es = some s) :
    s.ret0 + tally Pc.granted s.pc ≤ k.toInt + s.signals ∧
    (s.lock = none →
      s.count.toInt = k.toInt + s.signals - s.ret0 - tally Pc.inProgress s.pc) := by
  obtain ⟨_, ha, hb⟩ := SemInv.exec hk hin h
  have hsum : tally Pc.inProgress s.pc =
      tally Pc.sleeping s.pc + tally Pc.interrupted s.pc + tally Pc.granted s.pc := by
    rw [Nat.add_assoc, ← tally_or, ← tally_or]
    · rfl
    · intro p hp
      cases p <;> simp_all [Pc.sleeping, Pc.interrupted, Pc.granted]
    · intro p hp
      cases p <;> simp_all [Pc.interrupted, Pc.granted]
  constructor
  · omega
  · intro _
    omega

end Account

/-- Thread `t` goes to sleep on an empty semaphore, thread `u` signals and waits itself. -/
def signalThenWait {T : Type} (t u : T) : List (Event T) :=
  [.wait t, .run t, .run t, .run t, .signal u, .run u, .run u, .run u, .run u, .wait u, .run u,
    .run u, .run u]

theorem signalThenWait_grants_one : ∃ s : State (Fin 2),
    Lts.exec step (semInit 0) (signalThenWait 0 1) = some s ∧
    s.pc 0 = .woken .signal ∧ s.queue = [1] ∧
    s.ret0 + tally Pc.granted s.pc ≤ (0 : Int32).toInt + s.signals := by
  have hin : Lts.Along step InRange (semInit 0) (signalThenWait (0 : Fin 2) 1) := by decide
  exact ⟨_, rfl, rfl, rfl, (sem_never_over_grants (by decide) hin rfl).1⟩

/-- **`sem_count` overflows**: a semaphore initialised to the largest `int` is signalled once. -/
theorem signalAtMax_overflows : ∃ s : State (Fin 1),
    Lts.exec step (semInit Int32.maxValue) [.signal 0, .run 0, .run 0, .run 0, .run 0] = some s ∧
    s.lock = none ∧ s.count = Int32.minValue ∧
    s.count.toInt ≠
      Int32.maxValue.toInt + s.signals - s.ret0 - tally Pc.inProgress s.pc :=
  ⟨_, rfl, rfl, rfl, by decide⟩

end Timix.Sem
