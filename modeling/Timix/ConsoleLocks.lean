import Timix.Console

/-!
# The semaphores of the console driver

`Pc.locks` lists the semaphores a thread has waited for and not signalled yet.  A console
operation takes `cons_lock`, then `cons_buffer_lock`, and gives them back in the opposite order; a
switch takes the `cons_buffer_lock` of two screens.

* `SemStep` — what a step does to the semaphores.
* `LockInv` — every semaphore is held by at most one thread, and its value says whether it is.

Principal result: `one_print_at_buffer`.
-/

set_option autoImplicit false

namespace Timix.Console

open Owner

variable {W H N : Nat}

/-- The semaphores held at a program point. -/
def Pc.locks : Pc W H N → List (Sem N)
  | .waitBuf n _ | .backOut n _ | .sigCons n _ _ => [.consLock n]
  | .choose n _ | .body n _ _ _ | .sigBuf n _ _ => [.consBufferLock n, .consLock n]
  | .setWaitOld n _ | .sigNew n => [.consBufferLock n]
  | .saveIdx n old | .saving n old _ _ | .loading n old _ | .setIdx n old | .sigOld n old =>
    [.consBufferLock old, .consBufferLock n]
  | .idle | .waitCons .. | .setTest _ | .setOld _ | .setWaitNew .. => []

def Pc.holds (l : Sem N) (p : Pc W H N) : Bool := decide (l ∈ p.locks)

variable {T : Type} [DecidableEq T] {clear : Int} {screenOf : T → Fin N} {s s' : State T W H N}
  {t : T}

/-- A thread goes to `p`; it takes a semaphore, gives one back, or does neither. -/
inductive SemStep (s s' : State T W H N) (t : T) (p : Pc W H N) : Prop where
  | quiet (hpc : s'.pc = Function.update s.pc t p) (hsem : s'.sem = s.sem)
      (hp : p.locks = (s.pc t).locks)
  | take (l : Sem N) (hpc : s'.pc = Function.update s.pc t p) (hfree : 0 < s.sem l)
      (hsem : s'.sem = Function.update s.sem l (s.sem l - 1)) (hp : p.locks = l :: (s.pc t).locks)
  | drop (l : Sem N) (hpc : s'.pc = Function.update s.pc t p)
      (hsem : s'.sem = Function.update s.sem l (s.sem l + 1)) (hp : (s.pc t).locks = l :: p.locks)

theorem setBuffer_pc (s : State T W H N) (b : Bool) (n : Fin N) (scr : Screen W H) (t : T)
    (p : Pc W H N) : ((s.setBuffer b n scr).setPc t p).pc = Function.update s.pc t p := by
  cases b <;> rfl

omit [DecidableEq T] in
theorem setBuffer_sem (s : State T W H N) (b : Bool) (n : Fin N) (scr : Screen W H) :
    (s.setBuffer b n scr).sem = s.sem := by
  cases b <;> rfl

/-- Where an event leaves its thread. -/
def Event.thread : Event T → T
  | .call t _ | .run t | .eintr t => t

/-- **What an event does to the semaphores.** -/
theorem Move.semStep {e : Event T} (h : Move clear screenOf s e s') :
    ∃ p, SemStep s s' e.thread p := by
  cases h with
  | lockCons hpc hfree => exact ⟨_, .take _ rfl hfree rfl (by rw [Event.thread, hpc]; rfl)⟩
  | lockBuf hpc hfree => exact ⟨_, .take _ rfl hfree rfl (by rw [Event.thread, hpc]; rfl)⟩
  | setWaitNew hpc hfree => exact ⟨_, .take _ rfl hfree rfl (by rw [Event.thread, hpc]; rfl)⟩
  | setWaitOld hpc hfree => exact ⟨_, .take _ rfl hfree rfl (by rw [Event.thread, hpc]; rfl)⟩
  | backOut hpc => exact ⟨_, .drop _ rfl rfl (by rw [Event.thread, hpc]; rfl)⟩
  | sigBuf hpc => exact ⟨_, .drop _ rfl rfl (by rw [Event.thread, hpc]; rfl)⟩
  | sigCons hpc => exact ⟨_, .drop _ rfl rfl (by rw [Event.thread, hpc]; rfl)⟩
  | sigOld hpc => exact ⟨_, .drop _ rfl rfl (by rw [Event.thread, hpc]; rfl)⟩
  | sigNew hpc => exact ⟨_, .drop _ rfl rfl (by rw [Event.thread, hpc]; rfl)⟩
  | @access t n op b p q scr hpc hstep =>
    refine ⟨_, .quiet (setBuffer_pc s b n scr t _) (setBuffer_sem s b n scr) ?_⟩
    rw [Event.thread, hpc]
    rfl
  | callOp t op hpc => exact ⟨_, .quiet rfl rfl (by rw [Event.thread, hpc]; rfl)⟩
  | refuse t c hpc => exact ⟨_, .quiet rfl rfl (by rw [Event.thread, hpc])⟩
  | callSet t n hpc => exact ⟨_, .quiet rfl rfl (by rw [Event.thread, hpc]; rfl)⟩
  | intrCons hpc | intrBuf hpc | choose hpc | bodyEnd hpc | setSame hpc _ | setTest hpc _
  | setOld hpc | saveIdx hpc | saveField hpc | saveEnd hpc | loadField hpc | loadEnd hpc
  | setIdx hpc => exact ⟨_, .quiet rfl rfl (by rw [Event.thread, hpc]; rfl)⟩

/-- The semaphores are binary: `own l` is the thread that holds `l`, and nobody holds one twice. -/
structure LockInv (s : State T W H N) (own : Sem N → Option T) : Prop where
  held : ∀ l, Held (own l) (Pc.holds l) s.pc
  sem : ∀ l, s.sem l = if (own l).isSome then 0 else 1
  nodup : ∀ t, (s.pc t).locks.Nodup

omit [DecidableEq T] in
theorem lockInv_start (console : Screen W H) (screens : Fin N → Screen W H) (idx : Fin N) :
    LockInv (start console screens idx : State T W H N) fun _ => none where
  held l i := by simp [start, Pc.holds, Pc.locks]
  sem _ := rfl
  nodup _ := List.nodup_nil

variable {own : Sem N → Option T} {l : Sem N} {u : T}

section

omit [DecidableEq T]

theorem LockInv.unique (h : LockInv s own) (ht : l ∈ (s.pc t).locks) (hu : l ∈ (s.pc u).locks) :
    t = u :=
  (h.held l).unique (decide_eq_true ht) (decide_eq_true hu)

theorem LockInv.own_eq (h : LockInv s own) (ht : l ∈ (s.pc t).locks) : own l = some t :=
  (h.held l t).2 (decide_eq_true ht)

theorem LockInv.free (h : LockInv s own) (hfree : 0 < s.sem l) : own l = none := by
  cases ho : own l with
  | none => rfl
  | some u =>
    rw [h.sem l, ho] at hfree
    simp at hfree

theorem LockInv.sem_le_one (h : LockInv s own) (l : Sem N) : s.sem l ≤ 1 := by
  rw [h.sem l]
  split <;> decide

/-- A semaphore nobody holds has value 1. -/
theorem LockInv.sem_one (h : LockInv s own) (hno : ∀ t, l ∉ (s.pc t).locks) : s.sem l = 1 := by
  rw [h.sem l]
  cases ho : own l with
  | none => rfl
  | some u => exact absurd (of_decide_eq_true ((h.held l u).1 ho)) (hno u)

end

theorem nodup_update {pc : T → Pc W H N} {p : Pc W H N} (h : ∀ t, (pc t).locks.Nodup)
    (hp : p.locks.Nodup) (u : T) : (Function.update pc t p u).locks.Nodup := by
  by_cases hu : u = t
  · subst hu
    rwa [Function.update_self]
  · rw [Function.update_of_ne hu]
    exact h u

omit [DecidableEq T] in
/-- A semaphore and its holder change together. -/
theorem sem_update {sem : Sem N → Int} (h : ∀ l, sem l = if (own l).isSome then 0 else 1)
    {o : Option T} {v : Int} (hv : v = if o.isSome then 0 else 1) (m : Sem N) :
    Function.update sem l v m = if (Function.update own l o m).isSome then 0 else 1 := by
  by_cases hm : m = l
  · subst hm
    rw [Function.update_self, Function.update_self, hv]
  · rw [Function.update_of_ne hm, Function.update_of_ne hm, h m]

/-- **Every step keeps the semaphores in order.** -/
theorem LockInv.step (h : LockInv s own) {p : Pc W H N} (hs : SemStep s s' t p) :
    ∃ own', LockInv s' own' := by
  cases hs with
  | quiet hpc hsem hp =>
    refine ⟨own, ?_, ?_, ?_⟩
    · intro l
      rw [hpc]
      exact (h.held l).move (by rw [Pc.holds, Pc.holds, hp])
    · rw [hsem]
      exact h.sem
    · rw [hpc]
      exact nodup_update h.nodup (hp ▸ h.nodup t)
  | take l hpc hfree hsem hp =>
    have hnone := h.free hfree
    have hnot : l ∉ (s.pc t).locks := by
      intro hl
      rw [h.own_eq hl] at hnone
      cases hnone
    refine ⟨Function.update own l (some t), ?_, ?_, ?_⟩
    · intro m
      rw [hpc]
      by_cases hm : m = l
      · subst hm
        rw [Function.update_self]
        exact (h.held m).take hnone (by simp [Pc.holds, hp])
      · rw [Function.update_of_ne hm]
        exact (h.held m).move (by simp [Pc.holds, hp, hm])
    · rw [hsem]
      exact sem_update h.sem (by rw [h.sem l, hnone]; rfl)
    · rw [hpc]
      exact nodup_update h.nodup (by rw [hp]; exact List.nodup_cons.2 ⟨hnot, h.nodup t⟩)
  | drop l hpc hsem hp =>
    have hmem : l ∈ (s.pc t).locks := by rw [hp]; exact List.mem_cons_self
    obtain ⟨hnot, hnodup⟩ := List.nodup_cons.1 (hp ▸ h.nodup t)
    refine ⟨Function.update own l none, ?_, ?_, ?_⟩
    · intro m
      rw [hpc]
      by_cases hm : m = l
      · subst hm
        rw [Function.update_self]
        exact (h.held m).drop (decide_eq_true hmem) (decide_eq_false hnot)
      · rw [Function.update_of_ne hm]
        exact (h.held m).move (by simp [Pc.holds, hp, hm])
    · rw [hsem]
      exact sem_update h.sem (by rw [h.sem l, h.own_eq hmem]; rfl)
    · rw [hpc]
      exact nodup_update h.nodup hnodup

theorem LockInv.of_step (h : LockInv s own) {e : Event T}
    (hs : Console.step clear screenOf s e = some s') : ∃ own', LockInv s' own' := by
  obtain ⟨p, hp⟩ := (step_move hs).semStep
  exact h.step hp

theorem exec_lockInv {console : Screen W H} {screens : Fin N → Screen W H} {idx : Fin N}
    {es : List (Event T)}
    (hs : Lts.exec (Console.step clear screenOf) (start console screens idx) es = some s) :
    ∃ own, LockInv s own :=
  Lts.exec_inv (I := fun s => ∃ own, LockInv s own)
    (fun _ _ _ ⟨_, h⟩ hstep => h.of_step hstep) ⟨_, lockInv_start console screens idx⟩ hs

/-! ## Printing threads at a screen -/

/-- A console operation holds the `cons_buffer_lock` of screen `n`, or is queued on it. -/
def Pc.atBuffer (n : Fin N) : Pc W H N → Bool
  | .waitBuf m _ | .choose m _ | .body m _ _ _ | .sigBuf m _ _ => m == n
  | _ => false

/-- A call that has to do with screen `n` is in progress. -/
def Pc.involves (n : Fin N) : Pc W H N → Bool
  | .idle => false
  | .waitCons m _ | .waitBuf m _ | .backOut m _ | .choose m _ | .body m _ _ _ | .sigBuf m _ _
  | .sigCons m _ _ | .setOld m | .sigNew m => m == n
  | .setTest m => m == n.val
  | .setWaitNew m old | .setWaitOld m old | .saveIdx m old | .saving m old _ _
  | .loading m old _ | .setIdx m old | .sigOld m old => m == n || old == n

theorem Pc.atBuffer.locks {p : Pc W H N} {n : Fin N} (h : p.atBuffer n = true) :
    Sem.consLock n ∈ p.locks := by
  cases p with
  | waitBuf | choose | body | sigBuf =>
    obtain rfl := beq_iff_eq.1 h
    simp [Pc.locks]
  | _ => cases h

theorem Pc.involves.locks {p : Pc W H N} {n : Fin N} (h : p.involves n = false) :
    Sem.consLock n ∉ p.locks ∧ Sem.consBufferLock n ∉ p.locks := by
  cases p with
  | idle | waitCons | setTest | setOld | setWaitNew => simp [Pc.locks]
  | waitBuf | backOut | sigCons | choose | body | sigBuf | sigNew =>
    have hne := beq_eq_false_iff_ne.1 h
    simp [Pc.locks, Ne.symm hne]
  | setWaitOld | saveIdx | saving | loading | setIdx | sigOld =>
    obtain ⟨hne, hne'⟩ := Bool.or_eq_false_iff.1 h
    simp [Pc.locks, Ne.symm (beq_eq_false_iff_ne.1 hne), Ne.symm (beq_eq_false_iff_ne.1 hne')]

/-- **A screen switch waits for at most one pending print.**  In every state reached, at most one
console operation holds or is queued on the `cons_buffer_lock` of a screen, and the semaphores of
a screen that no call in progress has to do with are both back at 1, whichever waits returned
`-EINTR`. -/
theorem one_print_at_buffer (clear : Int) (screenOf : T → Fin N) (console : Screen W H)
    (screens : Fin N → Screen W H) (idx : Fin N) (es : List (Event T)) {s : State T W H N}
    (hs : Lts.exec (Console.step clear screenOf) (start console screens idx) es = some s) :
    (∀ n t u, (s.pc t).atBuffer n = true → (s.pc u).atBuffer n = true → t = u) ∧
    ∀ n, (∀ t, (s.pc t).involves n = false) →
      s.sem (.consLock n) = 1 ∧ s.sem (.consBufferLock n) = 1 := by
  obtain ⟨own, h⟩ := exec_lockInv hs
  constructor
  · intro n t u ht hu
    exact h.unique (Pc.atBuffer.locks ht) (Pc.atBuffer.locks hu)
  · intro n hn
    exact ⟨h.sem_one fun t => (Pc.involves.locks (hn t)).1,
      h.sem_one fun t => (Pc.involves.locks (hn t)).2⟩

/-- A screen of one cell. -/
def oneCell : Screen 1 1 where
  consBuf _ := ⟨46, 7⟩
  consCurX := 0
  consCurY := 0
  consCurState := CURSOR_STATE_VISIBLE
  consCurColor := 7

/-- A print on screen 0 is interrupted in its second wait while a switch to screen 1 is on its
    way. -/
def interruptedPrint : List (Event Bool) :=
  [.call false (.op .clearConsole), .run false, .call true (.setScreen 1), .eintr false, .run true,
    .run false]

theorem one_print_at_buffer_interrupted : ∃ s : State Bool 1 1 2,
    Lts.exec (Console.step 0 fun _ => 0) (start oneCell (fun _ => oneCell) 0) interruptedPrint =
      some s ∧ s.sem (.consLock 0) = 1 ∧ s.sem (.consBufferLock 0) = 1 := by
  refine ⟨_, rfl, (one_print_at_buffer 0 (fun _ => 0) oneCell (fun _ => oneCell) 0
    interruptedPrint rfl).2 0 ?_⟩
  intro t
  cases t <;> rfl

end Timix.Console
