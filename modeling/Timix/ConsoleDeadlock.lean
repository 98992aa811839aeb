import Timix.ConsoleLocks
import Timix.Lib.WaitFor

/-!
# Deadlocks of the console driver

A thread waits for the holder of the semaphore in its `sem_wait` (`Pc.wants`).  Only a switch that
holds the `cons_buffer_lock` of its new screen and waits for that of the old one can be on a
cycle.  It reads `screen_idx` before it holds either, so the switches that complete in between can
turn the two locks round.

* `StepOk` — the condition on a step: a switch that gets its first lock has read an index that is
  still `screen_idx`, and is not the new one (`Pc.IndexOk`).
* `SwitchStep` — what a step does to `screen_idx` and to the switches in their second wait.
* `FreeInv` — the invariant of the runs that meet the condition: the second waits are ordered by
  the time they began.

Principal results: `set_screen_deadlock_free`, `stale_index_deadlocks`.
-/

set_option autoImplicit false

namespace Timix.Console

open Lts WaitFor

variable {W H N : Nat}

/-- The semaphore a thread waits for. -/
def Pc.wants : Pc W H N → Option (Sem N)
  | .waitCons n _ => some (.consLock n)
  | .waitBuf n _ => some (.consBufferLock n)
  | .setWaitNew n _ => some (.consBufferLock n)
  | .setWaitOld _ old => some (.consBufferLock old)
  | _ => none

variable {T : Type} [DecidableEq T] {clear : Int} {screenOf : T → Fin N} {s s' : State T W H N}
  {t : T}

def State.wants (s : State T W H N) (t : T) : Option (Sem N) := (s.pc t).wants

def State.holds (s : State T W H N) (l : Sem N) (t : T) : Prop := l ∈ (s.pc t).locks

/-- Some threads wait for each other in a circle. -/
def State.Deadlocked (s : State T W H N) : Prop := WaitFor.Deadlocked s.wants s.holds

/-- The condition on a switch that may take its first lock: `screen_idx` is still the index of
    `old_scr_lock`, and not the new one. -/
def Pc.IndexOk (s : State T W H N) : Pc W H N → Prop
  | .setWaitNew n old => 0 < s.sem (.consBufferLock n) → s.screenIdx = old ∧ old ≠ n
  | _ => True

instance (s : State T W H N) (p : Pc W H N) : Decidable (p.IndexOk s) :=
  match p with
  | .setWaitNew n old =>
    inferInstanceAs (Decidable (0 < s.sem (.consBufferLock n) → s.screenIdx = old ∧ old ≠ n))
  | .idle | .waitCons .. | .waitBuf .. | .backOut .. | .choose .. | .body .. | .sigBuf ..
  | .sigCons .. | .setTest _ | .setOld _ | .setWaitOld .. | .saveIdx .. | .saving .. | .loading ..
  | .setIdx .. | .sigOld .. | .sigNew _ => isTrue trivial

/-- The condition on a step. -/
def StepOk (s : State T W H N) : Event T → Prop
  | .run t => (s.pc t).IndexOk s
  | .call .. | .eintr _ => True

instance (s : State T W H N) (e : Event T) : Decidable (StepOk s e) :=
  match e with
  | .run t => inferInstanceAs (Decidable ((s.pc t).IndexOk s))
  | .call .. | .eintr _ => isTrue trivial

/-! ## What a step does to the switches -/

/-- In its second wait. -/
def Pc.inSecond : Pc W H N → Bool
  | .setWaitOld .. => true
  | _ => false

/-- What an event does to `screen_idx` and the second waits. -/
inductive SwitchStep (s s' : State T W H N) : Event T → Prop where
  | quiet {e : Event T} {p : Pc W H N} (hupd : s'.pc = Function.update s.pc e.thread p)
      (hidx : s'.screenIdx = s.screenIdx) (hp : p.inSecond = false) : SwitchStep s s' e
  | first {t : T} {n old : Fin N} (hpc : s.pc t = .setWaitNew n old)
      (hfree : 0 < s.sem (.consBufferLock n))
      (hupd : s'.pc = Function.update s.pc t (.setWaitOld n old))
      (hidx : s'.screenIdx = s.screenIdx) : SwitchStep s s' (.run t)
  | index {t : T} {n old : Fin N} (hpc : s.pc t = .setIdx n old)
      (hupd : s'.pc = Function.update s.pc t (.sigOld n old)) (hidx : s'.screenIdx = n) :
      SwitchStep s s' (.run t)

omit [DecidableEq T] in
theorem setBuffer_screenIdx (s : State T W H N) (b : Bool) (n : Fin N) (scr : Screen W H) :
    (s.setBuffer b n scr).screenIdx = s.screenIdx := by
  cases b <;> rfl

theorem Move.switchStep {e : Event T} (h : Move clear screenOf s e s') : SwitchStep s s' e := by
  cases h with
  | setWaitNew hpc hfree => exact .first hpc hfree rfl rfl
  | setIdx hpc => exact .index hpc rfl rfl
  | @access t n op b p q scr hpc hstep =>
    exact .quiet (setBuffer_pc s b n scr t _) (setBuffer_screenIdx s b n scr) rfl
  | _ => exact .quiet rfl rfl rfl

/-! ## No cycle -/

/-- The invariant of the runs whose steps meet the condition; `ord` dates the second waits, all
    before `now`. -/
structure FreeInv (s : State T W H N) (own : Sem N → Option T) (ord : T → Nat) (now : Nat) :
    Prop where
  lock : LockInv s own
  fresh : ∀ t n old, s.pc t = .setWaitOld n old → s.screenIdx ≠ n
  dated : ∀ t n old, s.pc t = .setWaitOld n old → ord t < now
  later : ∀ t u n old old', s.pc t = .setWaitOld n old → s.pc u = .setWaitOld old old' →
    ord t < ord u

omit [DecidableEq T] in
theorem freeInv_start (console : Screen W H) (screens : Fin N → Screen W H) (idx : Fin N) :
    FreeInv (start console screens idx : State T W H N) (fun _ => none) (fun _ => 0) 0 where
  lock := lockInv_start console screens idx
  fresh _ _ _ h := by cases h
  dated _ _ _ h := by cases h
  later _ _ _ _ _ h := by cases h

variable {own : Sem N → Option T} {ord : T → Nat} {now : Nat}

/-- A thread in its second wait after a step that began none was there before. -/
theorem second_of_quiet {u : T} {p : Pc W H N} {n old : Fin N}
    (hupd : s'.pc = Function.update s.pc t p) (hp : p.inSecond = false)
    (hu : s'.pc u = .setWaitOld n old) : u ≠ t ∧ s.pc u = .setWaitOld n old := by
  rw [hupd] at hu
  by_cases hut : u = t
  · subst hut
    rw [Function.update_self] at hu
    rw [hu] at hp
    cases hp
  · rw [Function.update_of_ne hut] at hu
    exact ⟨hut, hu⟩

/-- After a step that began one, it is that one or was there before. -/
theorem second_of_first {u : T} {n old m m' : Fin N}
    (hupd : s'.pc = Function.update s.pc t (.setWaitOld m m'))
    (hu : s'.pc u = .setWaitOld n old) :
    u = t ∧ n = m ∧ old = m' ∨ u ≠ t ∧ s.pc u = .setWaitOld n old := by
  rw [hupd] at hu
  by_cases hut : u = t
  · subst hut
    rw [Function.update_self] at hu
    cases hu
    exact Or.inl ⟨rfl, rfl, rfl⟩
  · rw [Function.update_of_ne hut] at hu
    exact Or.inr ⟨hut, hu⟩

/-- **Steps that meet the condition keep the invariant.** -/
theorem FreeInv.step (h : FreeInv s own ord now) {e : Event T} (hok : StepOk s e)
    (hstep : step clear screenOf s e = some s') : ∃ own ord now, FreeInv s' own ord now := by
  have hmove := step_move hstep
  obtain ⟨_, hsem⟩ := hmove.semStep
  obtain ⟨own', hlock⟩ := h.lock.step hsem
  cases hmove.switchStep with
  | quiet hupd hidx hp =>
    refine ⟨own', ord, now, hlock, ?_, ?_, ?_⟩
    · intro u n old hu
      rw [hidx]
      exact h.fresh u n old (second_of_quiet hupd hp hu).2
    · intro u n old hu
      exact h.dated u n old (second_of_quiet hupd hp hu).2
    · intro u v n old old' hu hv
      exact h.later u v n old old' (second_of_quiet hupd hp hu).2 (second_of_quiet hupd hp hv).2
  | @index t m m' hpc hupd hidx =>
    refine ⟨own', ord, now, hlock, ?_, ?_, ?_⟩
    · -- thread `t` has the lock of the screen that becomes current
      rintro u n old hu hn
      obtain ⟨hne, hu⟩ := second_of_quiet hupd rfl hu
      obtain rfl : m = n := hidx.symm.trans hn
      apply hne
      exact h.lock.unique (l := .consBufferLock m) (by rw [hu]; simp [Pc.locks])
        (by rw [hpc]; simp [Pc.locks])
    · intro u n old hu
      exact h.dated u n old (second_of_quiet hupd rfl hu).2
    · intro u v n old old' hu hv
      exact h.later u v n old old' (second_of_quiet hupd rfl hu).2 (second_of_quiet hupd rfl hv).2
  | @first t m m' hpc hfree hupd hidx =>
    obtain ⟨hcur, hne⟩ : s.screenIdx = m' ∧ m' ≠ m := by
      simp only [StepOk, hpc] at hok
      exact hok hfree
    refine ⟨own', Function.update ord t now, now + 1, hlock, ?_, ?_, ?_⟩
    · intro u n old hu
      rw [hidx]
      rcases second_of_first hupd hu with ⟨_, rfl, _⟩ | ⟨_, hu⟩
      · rw [hcur]
        exact hne
      · exact h.fresh u n old hu
    · intro u n old hu
      rcases second_of_first hupd hu with ⟨rfl, _⟩ | ⟨hut, hu⟩
      · rw [Function.update_self]
        exact Nat.lt_succ_self now
      · rw [Function.update_of_ne hut]
        exact Nat.lt_succ_of_lt (h.dated u n old hu)
    · intro u v n old old' hu hv
      rcases second_of_first hupd hu with ⟨rfl, _, rfl⟩ | ⟨hut, hu⟩
      · -- nobody has locked the current screen to switch to it
        rcases second_of_first hupd hv with ⟨_, hold, _⟩ | ⟨_, hv⟩
        · exact absurd hold hne
        · exact absurd hcur (h.fresh v old old' hv)
      · rw [Function.update_of_ne hut]
        rcases second_of_first hupd hv with ⟨rfl, _⟩ | ⟨hvt, hv⟩
        · rw [Function.update_self]
          exact h.dated u n old hu
        · rw [Function.update_of_ne hvt]
          exact h.later u v n old old' hu hv

/-- Who waits holds nothing, or only a `cons_lock`, or is in its second wait. -/
theorem wants_cases {p : Pc W H N} {l : Sem N} (h : p.wants = some l) :
    p.locks = [] ∨ (∃ n, p.locks = [.consLock n]) ∨ ∃ n old, p = .setWaitOld n old := by
  cases p with
  | waitCons | setWaitNew => exact Or.inl rfl
  | waitBuf n op => exact Or.inr (Or.inl ⟨n, rfl⟩)
  | setWaitOld n old => exact Or.inr (Or.inr ⟨n, old, rfl⟩)
  | _ => cases h

theorem locks_of_wants_cons {p : Pc W H N} {n : Fin N} (h : p.wants = some (.consLock n)) :
    p.locks = [] := by
  cases p with
  | waitCons => rfl
  | _ => cases h

omit [DecidableEq T] in
/-- Only switches in their second wait are on a cycle. -/
theorem second_of_onCycle (h : OnCycle s.wants s.holds t) :
    ∃ n old, s.pc t = .setWaitOld n old := by
  obtain ⟨_, ⟨_, hwant, _⟩, _⟩ := h.waits
  obtain ⟨u, ⟨l, hu, hl⟩, hcycle⟩ := h.waited
  rw [State.holds] at hl
  rcases wants_cases hwant with hnone | ⟨n, hone⟩ | hsecond
  · rw [hnone] at hl
    cases hl
  · -- who waits for a `cons_lock` holds nothing, so nobody waits for it
    rw [hone, List.mem_singleton] at hl
    obtain ⟨_, ⟨k, _, hk⟩, _⟩ := hcycle.waited
    rw [State.holds, locks_of_wants_cons (hl ▸ hu)] at hk
    cases hk
  · exact hsecond

omit [DecidableEq T] in
/-- **No cycle**: along it the second waits would begin later and later. -/
theorem FreeInv.not_deadlocked (h : FreeInv s own ord now) : ¬ s.Deadlocked := by
  rintro ⟨t, ht⟩
  refine ht.not_of_rank (P := fun t => OnCycle s.wants s.holds t) (r := ord) ?_ ht
  rintro i j hi ⟨l, hwant, hholds⟩ hj
  obtain ⟨n, old, hpi⟩ := second_of_onCycle hi
  obtain ⟨n', old', hpj⟩ := second_of_onCycle hj
  rw [State.wants, hpi] at hwant
  cases hwant
  rw [State.holds, hpj] at hholds
  have heq : Sem.consBufferLock old = .consBufferLock n' := List.mem_singleton.1 hholds
  cases heq
  exact ⟨hj, h.later i j n old old' hpi hpj⟩

/-- **When concurrent switches do not deadlock.**  In a run in which every switch that gets its
first lock has read an index that is still `screen_idx`, and is not the new one, no state reached
has a cycle of threads each holding a `cons_lock` or a `cons_buffer_lock` and waiting for one held
by the next. -/
theorem set_screen_deadlock_free (clear : Int) (screenOf : T → Fin N) (console : Screen W H)
    (screens : Fin N → Screen W H) (idx : Fin N) (es : List (Event T))
    (hok : Along (Console.step clear screenOf) StepOk (start console screens idx) es)
    (pre post : List (Event T)) (s : State T W H N) (hes : es = pre ++ post)
    (hs : exec (Console.step clear screenOf) (start console screens idx) pre = some s) :
    ¬ s.Deadlocked := by
  subst hes
  have hpre := ((along_append _ pre post).1 hok).1
  obtain ⟨own, ord, now, h⟩ := exec_inv_along StepOk
    (fun s => ∃ own ord now, FreeInv s own ord now)
    (fun _ _ _ ⟨_, _, _, h⟩ hok hstep => h.step hok hstep)
    ⟨_, _, _, freeInv_start console screens idx⟩ hpre hs
  exact h.not_deadlocked

/-! ## Two runs -/

/-- Thread `a` reads index 0 and is about to lock screen 1 and then screen 0; thread `c` switches
    to screen 1; thread `b` reads index 1 and locks screen 0. -/
def overlapping {T : Type} (a b c : T) : List (Event T) :=
  [.call a (.setScreen 1), .run a, .run a, .call c (.setScreen 1)] ++ List.replicate 20 (.run c) ++
    [.call b (.setScreen 0), .run b, .run b, .run b]

/-- Thread `a` locks screen 1 on its stale index: it waits for thread `b`, which waits for it. -/
theorem stale_index_deadlocks :
    ∃ s : State (Fin 3) 1 1 2,
      exec (Console.step 0 fun _ => 0) (start oneCell (fun _ => oneCell) 0)
        (overlapping 0 1 2 ++ [.run 0]) = some s ∧ s.Deadlocked := by
  refine ⟨_, rfl, ?_⟩
  exact deadlocked_pair (i := 0) (j := 1) (k := .consBufferLock 0) (l := .consBufferLock 1) rfl
    (.head _) rfl (.head _)

/-- Without that step there is no deadlock. -/
theorem overlapping_free :
    ∃ s : State (Fin 3) 1 1 2,
      exec (Console.step 0 fun _ => 0) (start oneCell (fun _ => oneCell) 0) (overlapping 0 1 2) =
        some s ∧ ¬ s.Deadlocked :=
  ⟨_, rfl, set_screen_deadlock_free 0 (fun _ => 0) oneCell (fun _ => oneCell) 0
    (overlapping (0 : Fin 3) 1 2) (by decide) (overlapping 0 1 2) [] _ (List.append_nil _).symm rfl⟩

end Timix.Console
