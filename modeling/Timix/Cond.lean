import Timix.VariableQueue

/-!
# Condition variables (`kernel/cond.c`)

Executable model of `cond.c` for any number of threads, condition variables and user mutexes.
One `step` of a thread is one section between two lock operations: taking a mutex is a step of
its own (enabled when the mutex is free), the straight-line code up to the next lock operation
is another.  The wait queues are the pointer-level queues of `Timix.VariableQueue`; a node is
identified with its thread.

* `condQPush`, `condQPop`, `doCondSignalUnsafe` — the internal queue functions; the `Q_FOREACH`
  loop of `cond_q_remove` is the program point `intrScan`, one node a step.
* `State.blocked` — the scheduler's view: `sched_set_blocked` sets it, `sched_unblock_tcb` clears
  it, a thread returns from `sched_unlock_scheduler_and_yield` when it is clear.
  `sched_lock_scheduler` restricts the interleavings and is not modelled: other threads may run
  between any two steps.
* `State.hist` — ghost: what the calls did and returned, oldest first.
* `mutexes` — user mutexes; `mutex_lock` blocks until the owner is `NULL`.

A failing assertion stops the thread for good (`panic` loops): `Pc.panicked`.

Principal result: `failed_sleep_not_rolled_back` — when `sched_set_blocked` fails inside
`cond_wait`, the condition variable is never rolled back, whatever is queued.
-/

set_option autoImplicit false

namespace Timix.Cond

open Timix.Queue

/-- `COND_INTERRUPTED`. -/
def COND_INTERRUPTED : BitVec 32 := 1

/-- `COND_UNINTERRUPTABLE`. -/
def COND_UNINTERRUPTABLE : BitVec 32 := 2

def EINTR : Int := 4
def EINVAL : Int := 22

variable {T C M : Type}

/-- Which call ended a wait. -/
inductive Ender where
  | signal
  | broadcast
  | interrupt
  deriving DecidableEq, Repr

/-- What the calls did: the ghost history. -/
inductive Obs (T C : Type) where
  | waitBegin (t : T) (cv : C) (opts : BitVec 32)
  | unblock (t target : T) (by_ : Ender)
  | waitEnd (t : T) (ret : Int)
  | intrBegin (t target : T)
  | intrEnd (t target : T) (ret : Int)
  deriving DecidableEq, Repr

/-- Program points. -/
inductive Pc (T C M : Type) where
  | idle
  /-- `mutex_lock(mp)` of the caller. -/
  | lockMp (mp : M)
  /-- `do_cond_wait`: `Q_INIT_ELEM(q, entry)`. -/
  | waitInit (cv : C) (mp : M) (opts : BitVec 32)
  /-- `mutex_lock(&(tcb->cond_q_node.lock))`. -/
  | waitNode (cv : C) (mp : M) (opts : BitVec 32)
  /-- `mutex_lock(&(cv->q_lock))`. -/
  | waitQ (cv : C) (mp : M) (opts : BitVec 32)
  /-- `cond_q_push`, `flags`, `cv`, `mutex_unlock` of the node. -/
  | waitPush (cv : C) (mp : M) (opts : BitVec 32)
  /-- `sched_force_set_blocked()` or `sched_set_blocked()`. -/
  | waitBlock (cv : C) (mp : M) (opts : BitVec 32)
  /-- `sched_set_blocked` returned `-EINTR`. -/
  | waitFail (cv : C) (mp : M) (opts : BitVec 32)
  | waitUnlockMp (cv : C) (mp : M) (opts : BitVec 32)
  | waitUnlockQ (cv : C) (mp : M) (opts : BitVec 32)
  /-- `sched_unlock_scheduler_and_yield()`. -/
  | asleep (cv : C) (mp : M) (opts : BitVec 32)
  /-- Woken: `mutex_lock(&(tcb->cond_q_node.lock))`. -/
  | wakeNode (cv : C) (mp : M) (opts : BitVec 32)
  /-- `tcb->cond_q_node.cv = NULL`. -/
  | wakeCv (cv : C) (mp : M) (opts : BitVec 32)
  /-- `mutex_lock(mp)`. -/
  | wakeMp (mp : M) (opts : BitVec 32)
  /-- The test of `COND_INTERRUPTED`, `mutex_unlock` of the node, return. -/
  | wakeTest (mp : M) (opts : BitVec 32)
  | signalQ (cv : C)
  | signalBody (cv : C)
  | bcastQ (cv : C)
  /-- The `while` loop of `cond_broadcast`. -/
  | bcastLoop (cv : C)
  /-- `cond_interrupt`: `mutex_lock(&(thread->cond_q_node.lock))`. -/
  | intrNode (u : T)
  /-- The tests of `cv` and `COND_UNINTERRUPTABLE`. -/
  | intrCheck (u : T)
  | intrQ (u : T) (cv : C)
  /-- `cond_q_remove`: `Q_FOREACH` at `node`. -/
  | intrScan (u : T) (cv : C) (node : Option T)
  /-- `val == -ESRCH`. -/
  | intrMiss (u : T)
  /-- `val == 0`: set `COND_INTERRUPTED`, `sched_unblock_tcb(thread)`. -/
  | intrHit (u : T)
  | panicked
  deriving DecidableEq, Repr

/-- The wait queues; the other fields of every thread's `cond_q_node` (a mutex is its owner);
    the `q_lock` of every condition variable; the user mutexes; the scheduler's view; the program
    points; the history. -/
structure State (T C M : Type) where
  heap : QHeap C T
  nodeLock : T → Option T
  nodeTcb : T → T
  nodeCv : T → Option C
  nodeFlags : T → BitVec 32
  qLock : C → Option T
  mutexes : M → Option T
  blocked : T → Bool
  pc : T → Pc T C M
  hist : List (Obs T C)

/-- Calls of the interface. -/
inductive Call (T C M : Type) where
  | mutexLock (mp : M)
  | mutexUnlock (mp : M)
  | condWait (cv : C) (mp : M)
  | condWaitUninterruptable (cv : C) (mp : M)
  | condSignal (cv : C)
  | condBroadcast (cv : C)
  | condInterrupt (u : T)
  deriving DecidableEq, Repr

/-- An idle thread makes a call; a thread inside a call takes its next step; at
    `sched_set_blocked` the call fails with `-EINTR`. -/
inductive Event (T C M : Type) where
  | call (t : T) (c : Call T C M)
  | run (t : T)
  | eintr (t : T)
  deriving DecidableEq, Repr

section Model

variable [DecidableEq T] [DecidableEq C] [DecidableEq M]

def State.setPc (s : State T C M) (t : T) (p : Pc T C M) : State T C M :=
  { s with pc := Function.update s.pc t p }

def State.setNodeLock (s : State T C M) (u : T) (o : Option T) : State T C M :=
  { s with nodeLock := Function.update s.nodeLock u o }

def State.setNodeTcb (s : State T C M) (u tcb : T) : State T C M :=
  { s with nodeTcb := Function.update s.nodeTcb u tcb }

def State.setNodeCv (s : State T C M) (u : T) (cv : Option C) : State T C M :=
  { s with nodeCv := Function.update s.nodeCv u cv }

def State.setNodeFlags (s : State T C M) (u : T) (f : BitVec 32) : State T C M :=
  { s with nodeFlags := Function.update s.nodeFlags u f }

def State.setHeap (s : State T C M) (h : QHeap C T) : State T C M := { s with heap := h }

def State.setQLock (s : State T C M) (cv : C) (o : Option T) : State T C M :=
  { s with qLock := Function.update s.qLock cv o }

def State.setMutex (s : State T C M) (mp : M) (o : Option T) : State T C M :=
  { s with mutexes := Function.update s.mutexes mp o }

def State.setBlocked (s : State T C M) (t : T) (b : Bool) : State T C M :=
  { s with blocked := Function.update s.blocked t b }

def State.log (s : State T C M) (o : Obs T C) : State T C M := { s with hist := s.hist ++ [o] }

/-- `cond_init`. -/
def condInit (s : State T C M) (cv : C) : State T C M :=
  let s := s.setQLock cv none
  s.setHeap (qInitHead s.heap cv)

/-- `cond_thread_init`. -/
def condThreadInit (s : State T C M) (thread : T) : State T C M :=
  let s := s.setNodeLock thread none
  let s := s.setNodeCv thread none
  let s := s.setNodeTcb thread thread
  let s := s.setNodeFlags thread 0
  s.setHeap (qInitElem s.heap thread)

/-- `sched_unblock_tcb(target)`, called by `t`. -/
def schedUnblockTcb (s : State T C M) (t target : T) (k : Ender) : State T C M :=
  (s.setBlocked target false).log (.unblock t target k)

/-- `cond_q_push`. -/
def condQPush (s : State T C M) (cv : C) (q tcb : T) : State T C M :=
  let s := s.setNodeTcb q tcb
  s.setHeap (qInsertFront s.heap cv q)

/-- `cond_q_pop`: the `tcb` of the removed node, `none` for `COND_Q_EMPTY`. -/
def condQPop (s : State T C M) (cv : C) : State T C M × Option T :=
  match qGetTail s.heap cv with
  | none => (s, none)
  | some node =>
    let s := s.setHeap (qRemove s.heap cv node)
    let s := s.setHeap (qInitElem s.heap node)
    (s, some (s.nodeTcb node))

/-- `do_cond_signal_unsafe`, called by `t`. -/
def doCondSignalUnsafe (s : State T C M) (cv : C) (t : T) (k : Ender) : State T C M :=
  match condQPop s cv with
  | (s, none) => s
  | (s, some tcb) => schedUnblockTcb s t tcb k

/-- `q->flags = 0; if (opts & COND_UNINTERRUPTABLE) q->flags |= COND_UNINTERRUPTABLE;`. -/
def waitFlags (opts : BitVec 32) : BitVec 32 :=
  let flags : BitVec 32 := 0
  if opts &&& COND_UNINTERRUPTABLE ≠ 0 then flags ||| COND_UNINTERRUPTABLE else flags

/-- Return from a wait: `cond_wait_uninterruptable` asserts that the result is 0. -/
def State.endWait (s : State T C M) (t : T) (opts : BitVec 32) (ret : Int) : State T C M :=
  let s := s.log (.waitEnd t ret)
  if opts &&& COND_UNINTERRUPTABLE ≠ 0 ∧ ret ≠ 0 then s.setPc t .panicked else s.setPc t .idle

/-- Return from `cond_interrupt(u)`. -/
def State.endIntr (s : State T C M) (t u : T) (ret : Int) : State T C M :=
  (s.log (.intrEnd t u ret)).setPc t .idle

/-- An idle thread makes a call.  A waiter holds `mp`, an unlocked mutex is held. -/
def start (s : State T C M) (t : T) : Call T C M → Option (State T C M)
  | .mutexLock mp => some (s.setPc t (.lockMp mp))
  | .mutexUnlock mp => if s.mutexes mp = some t then some (s.setMutex mp none) else none
  | .condWait cv mp => if s.mutexes mp = some t then some (s.setPc t (.waitInit cv mp 0)) else none
  | .condWaitUninterruptable cv mp =>
    if s.mutexes mp = some t then some (s.setPc t (.waitInit cv mp COND_UNINTERRUPTABLE)) else none
  | .condSignal cv => some (s.setPc t (.signalQ cv))
  | .condBroadcast cv => some (s.setPc t (.bcastQ cv))
  | .condInterrupt u => some ((s.log (.intrBegin t u)).setPc t (.intrNode u))

/-- The next step of a thread inside a call. -/
def run (s : State T C M) (t : T) : Option (State T C M) :=
  match s.pc t with
  | .idle => none
  | .lockMp mp =>
    if s.mutexes mp = none then some ((s.setMutex mp (some t)).setPc t .idle) else none
  | .waitInit cv mp o => some ((s.setHeap (qInitElem s.heap t)).setPc t (.waitNode cv mp o))
  | .waitNode cv mp o =>
    if s.nodeLock t = none then some ((s.setNodeLock t (some t)).setPc t (.waitQ cv mp o))
    else none
  | .waitQ cv mp o =>
    if s.qLock cv = none then some ((s.setQLock cv (some t)).setPc t (.waitPush cv mp o)) else none
  | .waitPush cv mp o =>
    let s := condQPush s cv t t
    let s := s.setNodeFlags t (waitFlags o)
    let s := s.setNodeCv t (some cv)
    let s := s.setNodeLock t none
    some ((s.log (.waitBegin t cv o)).setPc t (.waitBlock cv mp o))
  | .waitBlock cv mp o => some ((s.setBlocked t true).setPc t (.waitUnlockMp cv mp o))
  | .waitFail cv _ o =>
    let s := (condQPop s cv).1
    let s := s.setQLock cv none
    some (s.endWait t o (-EINTR))
  | .waitUnlockMp cv mp o => some ((s.setMutex mp none).setPc t (.waitUnlockQ cv mp o))
  | .waitUnlockQ cv mp o => some ((s.setQLock cv none).setPc t (.asleep cv mp o))
  | .asleep cv mp o => if s.blocked t then none else some (s.setPc t (.wakeNode cv mp o))
  | .wakeNode cv mp o =>
    if s.nodeLock t = none then some ((s.setNodeLock t (some t)).setPc t (.wakeCv cv mp o))
    else none
  | .wakeCv _ mp o => some ((s.setNodeCv t none).setPc t (.wakeMp mp o))
  | .wakeMp mp o =>
    if s.mutexes mp = none then some ((s.setMutex mp (some t)).setPc t (.wakeTest mp o)) else none
  | .wakeTest _ o =>
    let ret := if s.nodeFlags t &&& COND_INTERRUPTED ≠ 0 then -EINTR else 0
    some ((s.setNodeLock t none).endWait t o ret)
  | .signalQ cv =>
    if s.qLock cv = none then some ((s.setQLock cv (some t)).setPc t (.signalBody cv)) else none
  | .signalBody cv =>
    some (((doCondSignalUnsafe s cv t .signal).setQLock cv none).setPc t .idle)
  | .bcastQ cv =>
    if s.qLock cv = none then some ((s.setQLock cv (some t)).setPc t (.bcastLoop cv)) else none
  | .bcastLoop cv =>
    if qGetFront s.heap cv ≠ none then some (doCondSignalUnsafe s cv t .broadcast)
    else some ((s.setQLock cv none).setPc t .idle)
  | .intrNode u =>
    if s.nodeLock u = none then some ((s.setNodeLock u (some t)).setPc t (.intrCheck u))
    else none
  | .intrCheck u =>
    match s.nodeCv u with
    | none => some ((s.setNodeLock u none).endIntr t u (-EINVAL))
    | some cv =>
      if s.nodeFlags u &&& COND_UNINTERRUPTABLE ≠ 0 then
        some ((s.setNodeLock u none).endIntr t u (-EINVAL))
      else some (s.setPc t (.intrQ u cv))
  | .intrQ u cv =>
    if s.qLock cv = none then
      some ((s.setQLock cv (some t)).setPc t (.intrScan u cv (qGetFront s.heap cv)))
    else none
  | .intrScan u cv none => some ((s.setQLock cv none).setPc t (.intrMiss u))
  | .intrScan u cv (some node) =>
    if s.nodeTcb node = u then
      -- `assert(thread_node == &thread->cond_q_node)`
      if node = u then
        some (((s.setHeap (qRemove s.heap cv node)).setQLock cv none).setPc t (.intrHit u))
      else some (s.setPc t .panicked)
    else some (s.setPc t (.intrScan u cv (s.heap.next node)))
  | .intrMiss u => some ((s.setNodeLock u none).endIntr t u (-EINVAL))
  | .intrHit u =>
    let s := s.setNodeFlags u (s.nodeFlags u ||| COND_INTERRUPTED)
    let s := schedUnblockTcb s t u .interrupt
    some ((s.setNodeLock u none).endIntr t u 0)
  | .panicked => none

/-- One event. -/
def step (s : State T C M) : Event T C M → Option (State T C M)
  | .call t c => match s.pc t with
    | .idle => start s t c
    | _ => none
  | .run t => run s t
  | .eintr t => match s.pc t with
    | .waitBlock cv mp o =>
      if o &&& COND_UNINTERRUPTABLE ≠ 0 then none else some (s.setPc t (.waitFail cv mp o))
    | _ => none

/-- After `cond_init`, `cond_thread_init` and `mutex_init` of everything, with all threads
    outside the module. -/
def initial : State T C M where
  heap := ⟨fun _ => none, fun _ => none, fun _ => none, fun _ => none, fun _ => none⟩
  nodeLock _ := none
  nodeTcb t := t
  nodeCv _ := none
  nodeFlags _ := 0
  qLock _ := none
  mutexes _ := none
  blocked _ := false
  pc _ := .idle
  hist := []

/-- Initialising `f` at `a`, then at every element of `l`. -/
theorem init_update {K V : Type} [DecidableEq K] (g f : K → V) (a : K) (l : List K) :
    (fun k => if k ∈ l then g k else Function.update f a (g a) k) =
      fun k => if k ∈ a :: l then g k else f k := by
  funext k
  by_cases hk : k = a
  · subst hk; simp
  · simp [hk]

omit [DecidableEq T] [DecidableEq M] in
theorem foldl_condInit (cvs : List C) (s : State T C M) :
    cvs.foldl condInit s = { s with
      qLock := fun c => if c ∈ cvs then none else s.qLock c
      heap := { s.heap with
        head := fun c => if c ∈ cvs then none else s.heap.head c
        tail := fun c => if c ∈ cvs then none else s.heap.tail c
        ptr := fun c => if c ∈ cvs then none else s.heap.ptr c } } := by
  induction cvs generalizing s with
  | nil => simp
  | cons a cvs ih =>
    rw [List.foldl_cons, ih]
    simp only [condInit, State.setQLock, State.setHeap, qInitHead, QHeap.setHead, QHeap.setTail,
      QHeap.setPtr, init_update fun _ => none]

omit [DecidableEq C] [DecidableEq M] in
theorem foldl_condThreadInit (ts : List T) (s : State T C M) :
    ts.foldl condThreadInit s = { s with
      nodeLock := fun t => if t ∈ ts then none else s.nodeLock t
      nodeCv := fun t => if t ∈ ts then none else s.nodeCv t
      nodeTcb := fun t => if t ∈ ts then t else s.nodeTcb t
      nodeFlags := fun t => if t ∈ ts then 0 else s.nodeFlags t
      heap := { s.heap with
        next := fun t => if t ∈ ts then none else s.heap.next t
        prev := fun t => if t ∈ ts then none else s.heap.prev t } } := by
  induction ts generalizing s with
  | nil => simp
  | cons a ts ih =>
    rw [List.foldl_cons, ih]
    simp only [condThreadInit, State.setNodeLock, State.setNodeCv, State.setNodeTcb,
      State.setNodeFlags, State.setHeap, qInitElem, QHeap.setNext, QHeap.setPrev,
      init_update fun _ => none, init_update fun t => t, init_update fun _ => (0 : BitVec 32)]

omit [DecidableEq M] in
/-- **Initialisation**, over any memory content, gives `initial`. -/
theorem inits_initial {cvs : List C} {ts : List T} (hc : ∀ c, c ∈ cvs) (ht : ∀ t, t ∈ ts)
    (s : State T C M) (hmp : ∀ mp, s.mutexes mp = none) (hb : ∀ t, s.blocked t = false)
    (hpc : ∀ t, s.pc t = .idle) (hh : s.hist = []) :
    ts.foldl condThreadInit (cvs.foldl condInit s) = initial := by
  rw [foldl_condInit, foldl_condThreadInit]
  simp [initial, hc, ht, ← funext_iff, hh] at hmp hb hpc ⊢
  exact ⟨hmp, hb, hpc⟩

end Model

/-! ## The queue functions -/

section Queue

variable [DecidableEq T] [DecidableEq C] {s : State T C M} {L : C → List T} {cv : C}

theorem condQPush_rep (h : Represents s.heap L) {t tcb : T} (ht : ∀ c, t ∉ L c) :
    Represents (condQPush s cv t tcb).heap (Function.update L cv (t :: L cv)) :=
  qInsertFront_spec h ht

/-- Initialising the links of a removed node again changes nothing. -/
theorem qInitElem_qRemove (s : QHeap C T) (cv : C) (t : T) :
    qInitElem (qRemove s cv t) t = qRemove s cv t := by
  rw [qRemove_eq]
  simp [qInitElem, QHeap.setNext, QHeap.setPrev]

/-- `cond_q_pop` takes out the oldest entry, the last one of the list. -/
theorem condQPop_concat (h : Represents s.heap L) {l : List T} {u : T} (hl : L cv = l ++ [u]) :
    condQPop s cv = (s.setHeap (qRemove s.heap cv u), some (s.nodeTcb u)) ∧
      Represents (qRemove s.heap cv u) (Function.update L cv l) := by
  have ht : s.heap.tail cv = some u := by rw [h.tail, hl, List.getLast?_concat]
  have hu : u ∉ l := by
    have := h.nodup cv
    rw [hl, List.nodup_append] at this
    exact fun hm => this.2.2 u hm u (by simp) rfl
  refine ⟨by simp [condQPop, qGetTail, ht, qInitElem_qRemove, State.setHeap], ?_⟩
  have := qRemove_spec h (q := cv) (e := u) (by simp [hl])
  rwa [hl, List.erase_append_right _ hu, List.erase_cons_head, List.append_nil] at this

end Queue

/-! ## A failed sleep -/

section FailedSleep

variable [DecidableEq T] [DecidableEq C] [DecidableEq M]

/-- `cond_wait(cv, mp)` by `t`, undisturbed, with `sched_set_blocked` failing. -/
def failedWait (t : T) (cv : C) (mp : M) : List (Event T C M) :=
  [.call t (.condWait cv mp), .run t, .run t, .run t, .run t, .eintr t, .run t]

/-- The wait queue of `cv` is `l`, read off the `next` links. -/
def IsQueue (s : State T C M) (cv : C) (l : List T) : Prop :=
  Links.Chain s.heap.next (s.heap.head cv) l

/-- What a failed `cond_wait` of `t` owes its caller. -/
structure RolledBack (s s' : State T C M) (t : T) (cv : C) (mp : M) : Prop where
  queue : ∀ l, IsQueue s cv l → IsQueue s' cv l
  out : ∀ c l, IsQueue s' c l → t ∉ l
  cv_null : s'.nodeCv t = none
  holds_mp : s'.mutexes mp = some t
  q_free : s'.qLock cv = none

/-- **A failed sleep**: the entry that leaves is the oldest one, not the one just inserted, and
    `cond_q_node.cv` stays. -/
theorem failedWait_spec {s : State T C M} {L : C → List T} {t : T} {cv : C} {mp : M}
    (hpc : s.pc t = .idle) (hmp : s.mutexes mp = some t) (hnode : s.nodeLock t = none)
    (hq : s.qLock cv = none) (hrep : Represents s.heap L) (ht : ∀ c, t ∉ L c) :
    ∃ s', Lts.exec step s (failedWait t cv mp) = some s' ∧
      s'.hist = s.hist ++ [.waitBegin t cv 0, .waitEnd t (-EINTR)] ∧ s'.pc t = .idle ∧
      Represents s'.heap (Function.update L cv (t :: L cv).dropLast) ∧
      s'.nodeCv t = some cv ∧ s'.mutexes mp = some t ∧ s'.qLock cv = none := by
  obtain ⟨l, u, hl⟩ : ∃ l u, t :: L cv = l ++ [u] :=
    ⟨_, _, (List.dropLast_append_getLast (List.cons_ne_nil t (L cv))).symm⟩
  have hpush : Represents (qInsertFront s.heap cv t) (Function.update L cv (t :: L cv)) :=
    qInsertFront_spec hrep ht
  have hopts : ¬ (0 : BitVec 32) &&& COND_UNINTERRUPTABLE ≠ 0 := by decide
  -- the state in which `cond_q_pop` is called
  obtain ⟨m, hm⟩ : ∃ m : State T C M, m =
      { s with
        heap := qInsertFront s.heap cv t
        nodeLock := Function.update s.nodeLock t none
        nodeTcb := Function.update s.nodeTcb t t
        nodeCv := Function.update s.nodeCv t (some cv)
        nodeFlags := Function.update s.nodeFlags t (waitFlags 0)
        qLock := Function.update s.qLock cv (some t)
        pc := Function.update s.pc t (.waitFail cv mp 0)
        hist := s.hist ++ [.waitBegin t cv 0] } := ⟨_, rfl⟩
  have hpre : Lts.exec step s (failedWait t cv mp) = step m (.run t) := by
    simp [failedWait, Lts.exec, step, start, run, hpc, hmp, hnode, hq, State.setPc,
      State.setNodeLock, State.setNodeTcb, State.setNodeCv, State.setNodeFlags, State.setHeap,
      State.setQLock, State.log, condQPush,
      qInitElem_of_free hrep ht, hm]
  have hpc' : m.pc t = .waitFail cv mp 0 := by rw [hm]; simp
  have hrep' : Represents m.heap (Function.update L cv (t :: L cv)) := by rw [hm]; exact hpush
  have hl' : Function.update L cv (t :: L cv) cv = l ++ [u] := by simp [hl]
  obtain ⟨hpop, hrep''⟩ := condQPop_concat hrep' hl'
  rw [Function.update_idem] at hrep''
  refine ⟨_, by
    rw [hpre]
    simp only [step, run, hpc', hpop]; rfl, ?_, ?_, ?_, ?_, ?_, ?_⟩
  all_goals simp only [State.endWait, hopts, false_and, if_false, State.setHeap]
  · rw [hm]; simp [State.log, State.setPc, State.setQLock]
  · simp [State.setPc]
  · rw [hl, List.dropLast_concat]
    exact hrep''
  · rw [hm]; simp [State.log, State.setPc, State.setQLock]
  · rw [hm]; simp [State.log, State.setPc, State.setQLock, hmp]
  · simp [State.log, State.setPc, State.setQLock]

/-- **A failed sleep is never rolled back.**  Whatever is queued on `cv`, when
`sched_set_blocked` fails inside `cond_wait` the call returns `-EINTR` with the mutex held and
`q_lock` free, but `cond_q_node.cv` is left at `cv`; the wait queue is the old one only if nobody
else was waiting. -/
theorem failed_sleep_not_rolled_back {s : State T C M} {L : C → List T} (t : T) (cv : C) (mp : M)
    (hpc : s.pc t = .idle) (hmp : s.mutexes mp = some t) (hnode : s.nodeLock t = none)
    (hq : s.qLock cv = none) (hrep : Represents s.heap L) (ht : ∀ c, t ∉ L c) :
    ∃ s', Lts.exec step s (failedWait t cv mp) = some s' ∧
      s'.hist = s.hist ++ [.waitBegin t cv 0, .waitEnd t (-EINTR)] ∧
      ¬ RolledBack s s' t cv mp ∧
      s'.mutexes mp = some t ∧ s'.qLock cv = none ∧ s'.nodeCv t = some cv ∧
      ((∀ l, IsQueue s cv l → IsQueue s' cv l) ↔ L cv = []) := by
  obtain ⟨s', hs', hhist, _, hrep', hcv, hmp', hq'⟩ := failedWait_spec hpc hmp hnode hq hrep ht
  have hafter : IsQueue s' cv (t :: L cv).dropLast := by
    have := hrep'.fwd cv
    rwa [Function.update_self] at this
  refine ⟨s', hs', hhist, ?_, hmp', hq', hcv, ?_, ?_⟩
  · intro h
    rw [h.cv_null] at hcv
    cases hcv
  · intro h
    have heq : L cv = (t :: L cv).dropLast := Links.Chain.unique (h _ (hrep.fwd cv)) hafter
    cases hl : L cv with
    | nil => rfl
    | cons a l =>
      -- the caller's own entry is still queued, and it was not queued before
      have hmem : t ∈ L cv := by rw [heq, hl]; simp
      exact absurd hmem (ht cv)
  · intro hl l hbefore
    have : l = L cv := Links.Chain.unique hbefore (hrep.fwd cv)
    rw [this, hl]
    rwa [hl] at hafter

end FailedSleep

/-- Thread `u` sleeps on the condition variable, then thread `t` takes the mutex. -/
def oneSleeper {T C M : Type} (t u : T) (cv : C) (mp : M) : List (Event T C M) :=
  [.call u (.mutexLock mp), .run u, .call u (.condWait cv mp), .run u, .run u, .run u, .run u,
    .run u, .run u, .run u, .call t (.mutexLock mp), .run t]

/-- With one sleeper queued, the failed sleep of thread 0 drops the sleeper and stays queued. -/
theorem failed_sleep_drops_sleeper :
    ∃ s s' : State (Fin 2) (Fin 1) (Fin 1), Lts.exec step initial (oneSleeper 0 1 0 0) = some s ∧
      Lts.exec step s (failedWait 0 0 0) = some s' ∧ IsQueue s 0 [1] ∧ IsQueue s' 0 [0] ∧
      s'.nodeCv 0 = some 0 ∧ s'.pc 0 = .idle ∧ ¬ RolledBack s s' 0 0 0 := by
  refine ⟨_, _, rfl, rfl, ⟨rfl, rfl⟩, ⟨rfl, rfl⟩, rfl, rfl, ?_⟩
  intro h
  exact absurd h.cv_null (by decide)

/-- Thread `u` is queued on `cv`, thread `t` holds every mutex. -/
def queuedState {T C M : Type} [DecidableEq T] [DecidableEq C] (t u : T) (cv : C) : State T C M :=
  let s : State T C M := initial
  { s with heap := qInsertFront s.heap cv u, mutexes := fun _ => some t }

theorem queuedState_rep {T C M : Type} [DecidableEq T] [DecidableEq C] (t u : T) (cv : C) :
    Represents (queuedState (M := M) t u cv).heap (Function.update (fun _ => []) cv [u]) := by
  have hempty : Represents (initial : State T C M).heap (fun _ => []) :=
    represents_empty (fun _ => ⟨rfl, rfl⟩) (fun _ => ⟨rfl, rfl⟩)
  exact qInsertFront_spec hempty (by simp)

theorem failed_sleep_not_rolled_back_one :
    ∃ s s' : State (Fin 2) (Fin 1) (Fin 1), s = queuedState 0 1 0 ∧
      Lts.exec step s (failedWait 0 0 0) = some s' ∧
      ¬ RolledBack s s' 0 0 0 ∧ ¬ ∀ l, IsQueue s 0 l → IsQueue s' 0 l := by
  obtain ⟨s', hs', _, hno, _, _, _, hiff⟩ :=
    failed_sleep_not_rolled_back (s := queuedState (0 : Fin 2) 1 (0 : Fin 1)) 0 0 (0 : Fin 1)
      rfl rfl rfl rfl (queuedState_rep 0 1 0) (by decide)
  exact ⟨_, s', rfl, hs', hno, fun h => absurd (hiff.1 h) (by decide)⟩

end Timix.Cond
