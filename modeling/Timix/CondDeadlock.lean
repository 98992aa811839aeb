import Timix.CondStep
import Timix.Lib.Run
import Timix.Lib.WaitFor

/-!
# Deadlocks of the condition-variable code (`kernel/cond.c`)

One user mutex `mp`, any number of threads and condition variables.  A thread that waits in
`mutex_lock` waits for the owner of that lock (`Pc.wants`, `State.holds`).

A queue lock is only held by threads that do not wait, so a cycle can only run through `mp` and
the node locks.  The one pair of calls that closes it is a woken waiter, which takes `mp` while it
holds its own node lock (`wakeMp`), and a thread that holds `mp` and waits in `cond_interrupt` for
that node lock (`intrNode`).

* `MpStep` — what a step does to `mp` and to the program points that matter here.
* `StepOk` — the condition on a step; a step that violates it closes a cycle
  (`deadlocked_of_not_stepOk`).
* `FreeInv` — the invariant of the runs that meet it.

Principal result: `cond_deadlock_free_iff`.
-/

set_option autoImplicit false

namespace Timix.Cond

open Timix.Queue Owner Lts WaitFor

variable {T C : Type} [DecidableEq T] [DecidableEq C]

/-- The locks. -/
inductive Lock (T C : Type) where
  | mp
  /-- `cond_q_node.lock` of a thread. -/
  | node (u : T)
  /-- `q_lock` of a condition variable. -/
  | q (cv : C)
  deriving DecidableEq, Repr

/-- The lock that thread `t` waits for in `mutex_lock`. -/
def Pc.wants (t : T) : Pc T C Unit → Option (Lock T C)
  | .lockMp _ | .wakeMp .. => some .mp
  | .waitNode .. | .wakeNode .. => some (.node t)
  | .intrNode u => some (.node u)
  | .waitQ cv _ _ | .signalQ cv | .bcastQ cv | .intrQ _ cv => some (.q cv)
  | _ => none

def State.wants (s : State T C Unit) (t : T) : Option (Lock T C) := (s.pc t).wants t

/-- Thread `t` holds a lock. -/
def State.holds (s : State T C Unit) (l : Lock T C) (t : T) : Prop :=
  match l with
  | .mp => s.mutexes () = some t
  | .node u => s.nodeLock u = some t
  | .q cv => s.qLock cv = some t

/-- Some threads wait for each other in a circle. -/
def State.Deadlocked (s : State T C Unit) : Prop :=
  WaitFor.Deadlocked s.wants s.holds

def Pc.atWakeMp : Pc T C Unit → Bool
  | .wakeMp .. => true
  | _ => false

def Pc.atWakeCv : Pc T C Unit → Bool
  | .wakeCv .. => true
  | _ => false

/-- The condition on a step: the thread that holds `mp` neither locks it again nor calls
    `cond_interrupt` on a waiter that waits for `mp`, and no waiter goes on to wait for `mp` while
    that thread waits for its node lock. -/
def StepOk (s : State T C Unit) : Event T C Unit → Prop
  | .call t (.mutexLock _) => ¬ (s.pc t = .idle ∧ s.mutexes () = some t)
  | .call t (.condInterrupt u) =>
    ¬ (s.pc t = .idle ∧ s.mutexes () = some t ∧ (s.pc u).atWakeMp = true)
  | .run u => ¬ ((s.pc u).atWakeCv = true ∧ ∃ h ∈ s.mutexes (), s.pc h = .intrNode u)
  | _ => True

instance (s : State T C Unit) (e : Event T C Unit) : Decidable (StepOk s e) :=
  match e with
  | .call t (.mutexLock _) =>
    inferInstanceAs (Decidable (¬ (s.pc t = .idle ∧ s.mutexes () = some t)))
  | .call t (.condInterrupt u) =>
    inferInstanceAs (Decidable
      (¬ (s.pc t = .idle ∧ s.mutexes () = some t ∧ (s.pc u).atWakeMp = true)))
  | .run u =>
    inferInstanceAs (Decidable
      (¬ ((s.pc u).atWakeCv = true ∧ ∃ h ∈ s.mutexes (), s.pc h = .intrNode u)))
  | .call _ (.mutexUnlock _) | .call _ (.condWait ..) | .call _ (.condWaitUninterruptable ..)
  | .call _ (.condSignal _) | .call _ (.condBroadcast _) | .eintr _ => isTrue trivial

/-! ## What a step does to `mp` -/

/-- Between giving `mp` up, or asking for it, and having it. -/
def Pc.away : Pc T C Unit → Bool
  | .lockMp _ | .waitUnlockQ .. | .asleep .. | .wakeNode .. | .wakeCv .. | .wakeMp .. => true
  | _ => false

/-- Neither waiting in `cond_interrupt` for a node lock nor, woken, for `mp`. -/
def Pc.apart : Pc T C Unit → Bool
  | .intrNode _ | .wakeMp .. => false
  | _ => true

variable {s s' : State T C Unit} {t : T}

/-- The other threads stay where they are. -/
def Others (s s' : State T C Unit) (t : T) : Prop := ∀ u ≠ t, s'.pc u = s.pc u

/-- What a step does to `mp`. -/
inductive MpStep (s s' : State T C Unit) : Event T C Unit → Prop where
  | quiet {e : Event T C Unit} (t : T) (hothers : Others s s' t) (hmp : s'.mutexes = s.mutexes)
      (hpc : (s'.pc t).apart = true) (haway : (s'.pc t).away = true → (s.pc t).away = true) :
      MpStep s s' e
  | take {e : Event T C Unit} (t : T) (hothers : Others s s' t) (hmp : s'.mutexes () = some t)
      (hpc : (s'.pc t).apart = true) (haway : (s'.pc t).away = false) : MpStep s s' e
  | drop {e : Event T C Unit} (hmp : s'.mutexes () = none) : MpStep s s' e
  | callLock (t : T) (mp : Unit) (hothers : Others s s' t) (hmp : s'.mutexes = s.mutexes)
      (hidle : s.pc t = .idle) (hpc : s'.pc t = .lockMp mp) :
      MpStep s s' (.call t (.mutexLock mp))
  | callInterrupt (t u : T) (hothers : Others s s' t) (hmp : s'.mutexes = s.mutexes)
      (hidle : s.pc t = .idle) (hpc : s'.pc t = .intrNode u) :
      MpStep s s' (.call t (.condInterrupt u))
  | wakeCv (u : T) (hothers : Others s s' u) (hmp : s'.mutexes = s.mutexes)
      (hcv : (s.pc u).atWakeCv = true) (hpc : (s'.pc u).atWakeMp = true) : MpStep s s' (.run u)

omit [DecidableEq C] in
theorem others_setPc {m : State T C Unit} (hm : m.pc = s.pc) (p : Pc T C Unit) :
    Others s (m.setPc t p) t := by
  intro u hu
  rw [← hm]
  exact Function.update_of_ne hu ..

omit [DecidableEq C] in
theorem setPc_pc (m : State T C Unit) (p : Pc T C Unit) : (m.setPc t p).pc t = p :=
  Function.update_self ..

omit [DecidableEq C] in
theorem MpStep.quiet_setPc {m : State T C Unit} {e : Event T C Unit} {p : Pc T C Unit}
    (hm : m.pc = s.pc) (hmp : m.mutexes = s.mutexes) (hp : p.apart = true)
    (haway : p.away = true → (s.pc t).away = true) : MpStep s (m.setPc t p) e :=
  .quiet t (others_setPc hm p) hmp (by rw [setPc_pc, hp]) (by rwa [setPc_pc])

omit [DecidableEq C] in
theorem MpStep.take_setPc {m : State T C Unit} {e : Event T C Unit} {p : Pc T C Unit}
    (hm : m.pc = s.pc) (hmp : m.mutexes () = some t) (hp : p.apart = true)
    (haway : p.away = false) : MpStep s (m.setPc t p) e :=
  .take t (others_setPc hm p) hmp (by rw [setPc_pc, hp]) (by rw [setPc_pc, haway])

omit [DecidableEq T] [DecidableEq C] in
theorem setMutex_mutexes (s : State T C Unit) (mp : Unit) (o : Option T) :
    (s.setMutex mp o).mutexes () = o := by
  simp [State.setMutex]

omit [DecidableEq T] [DecidableEq C] in
theorem endPc_apart (o : BitVec 32) (ret : Int) : (endPc o ret : Pc T C Unit).apart = true := by
  unfold endPc
  split <;> rfl

omit [DecidableEq T] [DecidableEq C] in
theorem endPc_away (o : BitVec 32) (ret : Int) : (endPc o ret : Pc T C Unit).away = false := by
  unfold endPc
  split <;> rfl

theorem condQPop_mutexes (s : State T C Unit) (cv : C) :
    (condQPop s cv).1.mutexes = s.mutexes := by
  unfold condQPop
  split <;> rfl

theorem doCondSignalUnsafe_mutexes (s : State T C Unit) (cv : C) (t : T) (k : Ender) :
    (doCondSignalUnsafe s cv t k).mutexes = s.mutexes := by
  rcases doCondSignalUnsafe_cases s cv t k with ⟨_, h⟩ | ⟨u, _, h⟩
  · rw [h]
  · rw [h]
    rfl

omit [DecidableEq T] [DecidableEq C] in
theorem not_away {p : Pc T C Unit} (h : p.away = false) {a : Prop} : p.away = true → a := by
  intro ht
  rw [h] at ht
  cases ht

/-- The steps inside the calls. -/
theorem run_mpStep (h : run s t = some s') : MpStep s s' (.run t) := by
  have hidle : s.pc t ≠ .idle := by
    intro hidle
    simp [run, hidle] at h
  cases run_move h with
  | callLock mp hpc => exact absurd hpc hidle
  | callUnlock mp hpc hmp => exact absurd hpc hidle
  | callWait cv mp o hpc hmp ho => exact absurd hpc hidle
  | callSignal cv hpc => exact absurd hpc hidle
  | callBroadcast cv hpc => exact absurd hpc hidle
  | callInterrupt u hpc => exact absurd hpc hidle
  | @lockMp mp hpc hmp => exact .take_setPc rfl (setMutex_mutexes s mp (some t)) rfl rfl
  | @wakeMp mp o hpc hmp => exact .take_setPc rfl (setMutex_mutexes s mp (some t)) rfl rfl
  | @waitUnlockMp cv mp o hpc => exact .drop (setMutex_mutexes s mp none)
  | wakeCv hpc =>
    refine .wakeCv t (others_setPc rfl _) rfl (by rw [hpc]; rfl) ?_
    rw [setPc_pc]
    rfl
  | waitUnlockQ hpc => exact .quiet_setPc rfl rfl rfl (fun _ => by rw [hpc]; rfl)
  | resume hpc hb => exact .quiet_setPc rfl rfl rfl (fun _ => by rw [hpc]; rfl)
  | wakeNode hpc hfree => exact .quiet_setPc rfl rfl rfl (fun _ => by rw [hpc]; rfl)
  | @waitFail cv mp o hpc =>
    rw [endWait_eq]
    exact .quiet_setPc (condQPop_locks s cv).2.2.2 (condQPop_mutexes s cv) (endPc_apart ..)
      (not_away (endPc_away ..))
  | wakeTest hpc =>
    rw [endWait_eq]
    exact .quiet_setPc rfl rfl (endPc_apart ..) (not_away (endPc_away ..))
  | @signalBody cv hpc =>
    exact .quiet_setPc (doCondSignalUnsafe_locks s cv t .signal).2.2.2
      (doCondSignalUnsafe_mutexes s cv t .signal) rfl (not_away rfl)
  | @bcastLoop cv hpc hne =>
    have hpcs := (doCondSignalUnsafe_locks s cv t .broadcast).2.2.2
    refine .quiet t (fun u _ => by rw [hpcs]) (doCondSignalUnsafe_mutexes s cv t .broadcast) ?_ ?_
    · rw [hpcs, hpc]
      rfl
    · rw [hpcs]
      exact id
  | intrRefuse hpc hno => exact .quiet_setPc rfl rfl rfl (not_away rfl)
  | intrMiss hpc => exact .quiet_setPc rfl rfl rfl (not_away rfl)
  | intrHit hpc => exact .quiet_setPc rfl rfl rfl (not_away rfl)
  | _ => exact .quiet_setPc rfl rfl rfl (not_away rfl)

/-- **What an event does to `mp`.** -/
theorem step_mpStep {e : Event T C Unit} (h : step s e = some s') : MpStep s s' e := by
  cases e with
  | run t => exact run_mpStep h
  | eintr t =>
    simp only [step] at h
    split at h
    · split at h
      · cases h
      · obtain rfl := Option.some.inj h
        exact .quiet_setPc rfl rfl rfl (not_away rfl)
    · cases h
  | call t c =>
    simp only [step] at h
    split at h
    case h_2 => cases h
    case h_1 hidle =>
      cases c with
      | mutexLock mp =>
        obtain rfl := Option.some.inj h
        exact .callLock t mp (others_setPc rfl _) rfl hidle (setPc_pc ..)
      | condInterrupt u =>
        obtain rfl := Option.some.inj h
        exact .callInterrupt t u (others_setPc rfl _) rfl hidle (setPc_pc ..)
      | condSignal cv =>
        obtain rfl := Option.some.inj h
        exact .quiet_setPc rfl rfl rfl (not_away rfl)
      | condBroadcast cv =>
        obtain rfl := Option.some.inj h
        exact .quiet_setPc rfl rfl rfl (not_away rfl)
      | mutexUnlock mp =>
        simp only [start] at h
        split at h
        · obtain rfl := Option.some.inj h
          exact .drop (setMutex_mutexes s mp none)
        · cases h
      | condWait cv mp =>
        simp only [start] at h
        split at h
        · obtain rfl := Option.some.inj h
          exact .quiet_setPc rfl rfl rfl (not_away rfl)
        · cases h
      | condWaitUninterruptable cv mp =>
        simp only [start] at h
        split at h
        · obtain rfl := Option.some.inj h
          exact .quiet_setPc rfl rfl rfl (not_away rfl)
        · cases h

theorem LockInv.step {e : Event T C Unit} (h : LockInv s) (hs : step s e = some s') :
    LockInv s' := by
  cases e with
  | eintr t =>
    simp only [Cond.step] at hs
    split at hs
    · rename_i hpc
      split at hs
      · cases hs
      · obtain rfl := Option.some.inj hs
        exact h.keep (by rw [hpc]; rfl) (by rw [hpc]; rfl)
    · cases hs
  | call t c =>
    obtain ⟨u, hm⟩ := step_move (by intro _ he; cases he) hs
    exact h.move hm
  | run t =>
    obtain ⟨u, hm⟩ := step_move (by intro _ he; cases he) hs
    exact h.move hm

/-! ## Runs without deadlock -/

/-- Who waits for `mp`, or will, does not have it; the thread that has it does not wait in
    `cond_interrupt` for a waiter that waits for `mp`. -/
structure FreeInv (s : State T C Unit) : Prop where
  lock : LockInv s
  away : ∀ t, (s.pc t).away = true → s.mutexes () ≠ some t
  pair : ∀ t u, s.mutexes () = some t → s.pc t = .intrNode u → (s.pc u).atWakeMp = false

omit [DecidableEq T] [DecidableEq C] in
theorem freeInv_initial : FreeInv (initial : State T C Unit) where
  lock := lockInv_initial
  away _ h := by cases h
  pair _ _ h := by cases h

omit [DecidableEq T] [DecidableEq C] in
theorem Pc.apart.not_intrNode {p : Pc T C Unit} (h : p.apart = true) (u : T) : p ≠ .intrNode u := by
  rintro rfl
  cases h

omit [DecidableEq T] [DecidableEq C] in
theorem Pc.apart.not_atWakeMp {p : Pc T C Unit} (h : p.apart = true) : p.atWakeMp = false := by
  cases p with
  | wakeMp => cases h
  | _ => rfl

/-- **A step that meets the condition.** -/
theorem FreeInv.step {e : Event T C Unit} (h : FreeInv s) (hok : StepOk s e)
    (hs : step s e = some s') : FreeInv s' := by
  refine ⟨h.lock.step hs, ?_, ?_⟩
  · intro u hu
    cases step_mpStep hs with
    | drop hmp => rw [hmp]; simp
    | quiet t hothers hmp hpc haway =>
      rw [hmp]
      by_cases hut : u = t
      · subst hut
        exact h.away u (haway hu)
      · exact h.away u (by rwa [hothers u hut] at hu)
    | take t hothers hmp hpc haway =>
      rw [hmp]
      intro htu
      obtain rfl := Option.some.inj htu
      rw [haway] at hu
      cases hu
    | callLock t mp hothers hmp hidle hpc =>
      rw [hmp]
      by_cases hut : u = t
      · subst hut
        exact fun hown => hok ⟨hidle, hown⟩
      · exact h.away u (by rwa [hothers u hut] at hu)
    | callInterrupt t v hothers hmp hidle hpc =>
      rw [hmp]
      by_cases hut : u = t
      · subst hut
        rw [hpc] at hu
        cases hu
      · exact h.away u (by rwa [hothers u hut] at hu)
    | wakeCv t hothers hmp hcv hpc =>
      rw [hmp]
      by_cases hut : u = t
      · subst hut
        apply h.away u
        cases hpu : s.pc u with
        | wakeCv => rfl
        | _ => rw [hpu] at hcv; cases hcv
      · exact h.away u (by rwa [hothers u hut] at hu)
  · intro i u hown hi
    cases step_mpStep hs with
    | drop hmp =>
      rw [hmp] at hown
      cases hown
    | quiet t hothers hmp hpc haway =>
      rw [hmp] at hown
      have hit : i ≠ t := by
        rintro rfl
        exact Pc.apart.not_intrNode hpc u hi
      by_cases hut : u = t
      · subst hut
        exact Pc.apart.not_atWakeMp hpc
      · rw [hothers u hut]
        exact h.pair i u hown (by rw [← hothers i hit, hi])
    | take t hothers hmp hpc haway =>
      rw [hmp] at hown
      obtain rfl := Option.some.inj hown
      exact absurd hi (Pc.apart.not_intrNode hpc u)
    | callLock t mp hothers hmp hidle hpc =>
      rw [hmp] at hown
      have hit : i ≠ t := by
        rintro rfl
        rw [hpc] at hi
        cases hi
      by_cases hut : u = t
      · subst hut
        rw [hpc]
        rfl
      · rw [hothers u hut]
        exact h.pair i u hown (by rw [← hothers i hit, hi])
    | callInterrupt t v hothers hmp hidle hpc =>
      rw [hmp] at hown
      by_cases hut : u = t
      · subst hut
        rw [hpc]
        rfl
      rw [hothers u hut]
      by_cases hit : i = t
      · subst hit
        rw [hpc] at hi
        obtain rfl := Pc.intrNode.inj hi
        rw [← Bool.not_eq_true]
        exact fun hwake => hok ⟨hidle, hown, hwake⟩
      · exact h.pair i u hown (by rw [← hothers i hit, hi])
    | wakeCv t hothers hmp hcv hpc =>
      rw [hmp] at hown
      have hit : i ≠ t := by
        rintro rfl
        rw [hi] at hpc
        cases hpc
      have hi' : s.pc i = .intrNode u := by rw [← hothers i hit, hi]
      by_cases hut : u = t
      · subst hut
        exact absurd ⟨hcv, i, hown, hi'⟩ hok
      · rw [hothers u hut]
        exact h.pair i u hown hi'

/-! ## Cycles -/

section

omit [DecidableEq T] [DecidableEq C]

/-- Somebody who holds a queue lock does not wait. -/
theorem wants_of_q {p : Pc T C Unit} {cv : C} (h : p.q = some cv) (t : T) : p.wants t = none := by
  cases p with
  | waitPush | waitBlock | waitFail | waitUnlockMp | waitUnlockQ | signalBody | bcastLoop
  | intrScan => rfl
  | _ => cases h

/-- Somebody who holds a node lock waits for a queue lock, or is a woken waiter that waits for
    `mp`, or does not wait. -/
theorem wants_of_node {p : Pc T C Unit} {t u : T} (h : p.node t = some u) :
    p.wants t = none ∨ (∃ cv, p.wants t = some (.q cv)) ∨ (p.atWakeMp = true ∧ u = t) := by
  cases p with
  | waitQ cv => exact Or.inr (Or.inl ⟨cv, rfl⟩)
  | intrQ _ cv => exact Or.inr (Or.inl ⟨cv, rfl⟩)
  | wakeMp => exact Or.inr (Or.inr ⟨rfl, (Option.some.inj h).symm⟩)
  | waitPush | wakeCv | wakeTest | intrCheck | intrScan | intrMiss | intrHit => exact Or.inl rfl
  | _ => cases h

/-- Somebody who holds `mp` and waits for a node lock does so in `cond_interrupt`, or it is its
    own. -/
theorem wants_node {p : Pc T C Unit} {t u : T} (h : p.wants t = some (.node u)) :
    p = .intrNode u ∨ (u = t ∧ p.atWakeMp = false) := by
  cases p with
  | intrNode v =>
    cases h
    exact Or.inl rfl
  | waitNode | wakeNode =>
    cases h
    exact Or.inr ⟨rfl, rfl⟩
  | _ => cases h

theorem away_of_wants_mp {p : Pc T C Unit} {t : T} (h : p.wants t = some .mp) :
    p.away = true := by
  cases p with
  | lockMp | wakeMp => rfl
  | _ => cases h

theorem wants_of_atWakeMp {p : Pc T C Unit} (h : p.atWakeMp = true) (t : T) :
    p.wants t = some .mp := by
  cases p with
  | wakeMp => rfl
  | _ => cases h

/-- **No cycle.** -/
theorem FreeInv.not_deadlocked (h : FreeInv s) : ¬ s.Deadlocked := by
  -- nobody on a cycle waits for a queue lock, as its holder does not wait
  have hq : ∀ i, OnCycle s.wants s.holds i →
      ∀ cv, (s.pc i).wants i ≠ some (.q cv) := by
    intro i hi cv hcv
    obtain ⟨j, ⟨k, hk, hj⟩, hcycle⟩ := hi.waits
    obtain rfl : k = .q cv := Option.some.inj (hk.symm.trans hcv)
    obtain ⟨l, ⟨k, hk', _⟩, _⟩ := hcycle.waits
    rw [State.wants, wants_of_q ((h.lock.q j cv).1 hj) j] at hk'
    cases hk'
  -- who waits for a node lock waits for a woken waiter that waits for `mp`
  have hnode : ∀ i, OnCycle s.wants s.holds i → ∀ u,
      (s.pc i).wants i = some (.node u) →
      (s.pc u).atWakeMp = true ∧ OnCycle s.wants s.holds u := by
    intro i hi u hu
    obtain ⟨j, ⟨k, hk, hj⟩, hcycle⟩ := hi.waits
    obtain rfl : k = .node u := Option.some.inj (hk.symm.trans hu)
    obtain ⟨l, ⟨k, hk', _⟩, _⟩ := hcycle.waits
    rcases wants_of_node ((h.lock.node j u).1 hj) with hnone | ⟨cv, hcv⟩ | ⟨hwake, rfl⟩
    · rw [State.wants, hnone] at hk'
      cases hk'
    · exact absurd hcv (hq j hcycle cv)
    · exact ⟨hwake, hcycle⟩
  -- who waits for `mp` waits for its owner, which waits for a node lock
  have hmp : ∀ i, OnCycle s.wants s.holds i →
      (s.pc i).wants i ≠ some .mp := by
    intro i hi hwant
    obtain ⟨j, ⟨k, hk, hj⟩, hcycle⟩ := hi.waits
    obtain rfl : k = .mp := Option.some.inj (hk.symm.trans hwant)
    have hown : s.mutexes () = some j := hj
    obtain ⟨l, ⟨k, hk', _⟩, _⟩ := hcycle.waits
    cases k with
    | q cv => exact hq j hcycle cv hk'
    | mp => exact h.away j (away_of_wants_mp hk') hown
    | node u =>
      obtain ⟨hwake, _⟩ := hnode j hcycle u hk'
      rcases wants_node hk' with hintr | ⟨rfl, hno⟩
      · rw [h.pair j u hown hintr] at hwake
        cases hwake
      · rw [hno] at hwake
        cases hwake
  rintro ⟨i, hi⟩
  obtain ⟨j, ⟨k, hk, _⟩, _⟩ := hi.waits
  cases k with
  | q cv => exact hq i hi cv hk
  | mp => exact hmp i hi hk
  | node u =>
    obtain ⟨hwake, hu⟩ := hnode i hi u hk
    exact hmp u hu (wants_of_atWakeMp hwake u)

end

/-- **A step that violates the condition closes a cycle.** -/
theorem deadlocked_of_not_stepOk (h : LockInv s) {e : Event T C Unit} (hok : ¬ StepOk s e) :
    ∃ s', step s e = some s' ∧ s'.Deadlocked := by
  cases e with
  | eintr t => exact absurd trivial hok
  | call t c =>
    cases c with
    | mutexLock mp =>
      obtain ⟨hidle, hown⟩ := not_not.1 hok
      refine ⟨s.setPc t (.lockMp mp), by simp [step, hidle, start], ?_⟩
      exact deadlocked_self (i := t) (k := .mp) (by rw [State.wants, setPc_pc]; rfl) hown
    | condInterrupt u =>
      obtain ⟨hidle, hown, hwake⟩ := not_not.1 hok
      refine ⟨(s.log (.intrBegin t u)).setPc t (.intrNode u), by simp [step, hidle, start], ?_⟩
      have hut : u ≠ t := by
        rintro rfl
        rw [hidle] at hwake
        cases hwake
      have hpcu : ((s.log (.intrBegin t u)).setPc t (.intrNode u)).pc u = s.pc u :=
        Function.update_of_ne hut ..
      have hnode : s.nodeLock u = some u := by
        apply (h.node u u).2
        dsimp only
        cases hpu : s.pc u with
        | wakeMp => rfl
        | _ => rw [hpu] at hwake; cases hwake
      refine deadlocked_pair (i := t) (j := u) (k := .node u) (l := .mp) ?_ hnode ?_ hown
      · rw [State.wants, setPc_pc]
        rfl
      · rw [State.wants, hpcu]
        exact wants_of_atWakeMp hwake u
    | _ => exact absurd trivial hok
  | run u =>
    obtain ⟨hcv, t, hown, hintr⟩ := not_not.1 hok
    cases hpu : s.pc u with
    | wakeCv cv mp o =>
      refine ⟨(s.setNodeCv u none).setPc u (.wakeMp mp o), by simp [step, run, hpu], ?_⟩
      have hut : t ≠ u := by
        rintro rfl
        rw [hpu] at hintr
        cases hintr
      have hpct : ((s.setNodeCv u none).setPc u (.wakeMp mp o)).pc t = .intrNode u := by
        rw [← hintr]
        exact Function.update_of_ne hut ..
      have hnode : s.nodeLock u = some u := (h.node u u).2 (by dsimp only; rw [hpu]; rfl)
      refine deadlocked_pair (i := u) (j := t) (k := .mp) (l := .node u) ?_ hown ?_ hnode
      · rw [State.wants, setPc_pc]
        rfl
      · rw [State.wants, hpct]
        rfl
    | _ => rw [hpu] at hcv; cases hcv

/-- **When the condition-variable code does not deadlock.**  A run never reaches a state with a
cycle of threads, each holding `mp`, a node lock or a queue lock and waiting in `mutex_lock` for
the next one's, exactly if its steps meet `StepOk`. -/
theorem cond_deadlock_free_iff (es : List (Event T C Unit)) :
    (∀ pre post s, es = pre ++ post → exec step initial pre = some s →
      ¬ State.Deadlocked s) ↔ Along step StepOk initial es := by
  constructor
  · intro h
    rw [along_iff]
    intro pre e post s hes hs
    by_contra hok
    have hlock : LockInv s := exec_inv (fun _ _ _ h => h.step) lockInv_initial hs
    obtain ⟨s', hs', hdead⟩ := deadlocked_of_not_stepOk hlock hok
    exact h (pre ++ [e]) post s' (by rw [hes, List.append_assoc]; rfl)
      (exec_concat.2 ⟨s, hs, hs'⟩) hdead
  · rintro hok pre post s rfl hs
    have hpre := ((along_append initial pre post).1 hok).1
    exact (exec_inv_along StepOk FreeInv (fun _ _ _ h => h.step) freeInv_initial hpre
      hs).not_deadlocked

/-! ## Two runs -/

/-- Thread `u` waits, thread `t` signals it without holding the mutex and locks the mutex; `u`
    wakes up and takes its node lock. -/
def wokenWaiter {T C : Type} (t u : T) (cv : C) : List (Event T C Unit) :=
  [.call u (.mutexLock ()), .run u, .call u (.condWait cv ()), .run u, .run u, .run u, .run u,
    .run u, .run u, .run u, .call t (.condSignal cv), .run t, .run t, .call t (.mutexLock ()),
    .run t, .run u, .run u, .run u]

/-- `t` interrupts the woken waiter: each waits for the other's lock. -/
theorem interrupt_of_woken_deadlocks :
    ∃ s : State (Fin 2) (Fin 1) Unit,
      exec step initial (wokenWaiter 0 1 0 ++ [.call 0 (.condInterrupt 1)]) = some s ∧
        s.Deadlocked := by
  refine ⟨_, rfl, ?_⟩
  exact deadlocked_pair (i := 0) (j := 1) (k := .node 1) (l := .mp) rfl rfl rfl rfl

/-- Without the interrupt there is no deadlock. -/
theorem wokenWaiter_free :
    ∃ s : State (Fin 2) (Fin 1) Unit,
      exec step initial (wokenWaiter 0 1 0) = some s ∧ ¬ s.Deadlocked :=
  ⟨_, rfl, (cond_deadlock_free_iff (wokenWaiter (0 : Fin 2) 1 (0 : Fin 1))).2 (by decide)
    (wokenWaiter 0 1 0) [] _ (List.append_nil _).symm rfl⟩

end Timix.Cond
