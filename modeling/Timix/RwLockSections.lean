import Mathlib.Data.Fintype.Card
import Timix.Lib.Prog
import Timix.Lib.Refine
import Timix.RwLock
import Timix.VariableQueue

/-!
# The sections of a reader/writer lock, access by access (`kernel/rwlock.c`)

`Timix.RwLock` takes a section under `lock->lock` in one step and keeps the waiting threads in a
list.  Here a step is one access to a field of the lock, one macro of `variable_queue.h` on the
threads' `rwlock_q_node`, or one operation on `lock->lock` or a condition variable, and the steps of
different threads interleave.  The two assertions of `rwlock_downgrade` are one step: they read the
lock without `lock->lock`.

* `Queued` — the links of a queue whose other elements were never initialised.
* `Fields`, `body` — the memory of the lock, and the code between two operations on `lock->lock`.
* `step` — the owner of `lock->lock` makes the next access of its section, or ends it (`Exit`).
* `Agrees.body` — a section that is not disturbed does what the step of `Timix.RwLock` does.
* `Tracks` — the simulation relation: the section under way has not taken effect yet.

Principal result: `rwlock_sections_atomic`.
-/

set_option autoImplicit false

namespace Timix.Queue

open Links

/-! ## Queues among uninitialised elements -/

section Queued

variable {E : Type} [DecidableEq E] {s : QHeap Unit E} {l : List E} {e : E}

/-- The links of the elements outside `l` are cleared. -/
def QHeap.only (s : QHeap Unit E) (l : List E) : QHeap Unit E :=
  { s with
    next := fun a => if a ∈ l then s.next a else none
    prev := fun a => if a ∈ l then s.prev a else none }

/-- The queue holds `l`; the links of the other elements may be anything. -/
def Queued (s : QHeap Unit E) (l : List E) : Prop := Represents (s.only l) fun _ => l

theorem queued_init (s : QHeap Unit E) : Queued (qInitHead s ()) [] :=
  represents_empty (fun _ => by simp [QHeap.only, qInitHead, QHeap.setHead, QHeap.setTail,
    QHeap.setPtr]) fun _ => by simp [QHeap.only]

theorem Queued.nodup (h : Queued s l) : l.Nodup := Represents.nodup h ()

theorem Queued.head (h : Queued s l) : s.head () = l.head? := Represents.head h ()

theorem Queued.chain (h : Queued s l) : Chain s.next (s.head ()) l :=
  (Represents.fwd h ()).congr fun _ ha => if_pos ha

theorem update_unit {β : Type} (f : Unit → β) (b : β) : Function.update f () b = fun _ => b := by
  funext u
  cases u
  exact Function.update_self ..

theorem relink_apply (f : E → Option E) (p v : Option E) (a : E) :
    relink f p v a = if p = some a then v else f a := by
  cases p with
  | none => simp
  | some b => simp [Function.update_apply, eq_comm]

/-- `Q_INIT_ELEM`, then `Q_INSERT_FRONT`. -/
theorem Queued.insertFront (h : Queued s l) (he : e ∉ l) :
    Queued (qInsertFront (qInitElem s e) () e) (e :: l) := by
  have hhead : ∀ a, s.head () = some a → a ∈ l := fun a ha => List.mem_of_head? (h.head ▸ ha)
  have heq : (qInsertFront (qInitElem s e) () e).only (e :: l) = qInsertFront (s.only l) () e := by
    rw [qInsertFront_eq, qInsertFront_eq]
    simp only [QHeap.only, qInitElem, QHeap.setNext, QHeap.setPrev, QHeap.mk.injEq, and_true]
    refine ⟨?_, ?_, trivial, rfl⟩
    · funext a
      by_cases hae : a = e
      · subst hae
        simp
      · simp [hae]
    · funext a
      rw [relink_apply, relink_apply]
      by_cases hae : a = e
      · subst hae
        have hne : s.head () ≠ some a := fun ha => he (hhead a ha)
        simp [hne, he]
      · by_cases ha : s.head () = some a
        · simp [ha, hhead a ha]
        · simp [ha, hae]
  have hins := qInsertFront_spec (q := ()) h fun _ => he
  rw [update_unit] at hins
  rw [Queued, heq]
  exact hins

/-- `Q_REMOVE`. -/
theorem Queued.remove (h : Queued s l) (he : e ∈ l) : Queued (qRemove s () e) (l.erase e) := by
  have hnext : ∀ a, s.next e = some a → a ∈ l := fun a ha =>
    h.next_mem (q := ()) he ((if_pos he).trans ha)
  have hprev : ∀ a, s.prev e = some a → a ∈ l := fun a ha =>
    h.prev_mem (q := ()) he ((if_pos he).trans ha)
  -- a link field `f` whose neighbour `p` of `e` is redirected to `v`
  have hlinks : ∀ (f : E → Option E) (p v : Option E), (∀ a, p = some a → a ∈ l) →
      (fun a => if a ∈ l.erase e then Function.update (relink f p v) e none a else none) =
        Function.update (relink (fun a => if a ∈ l then f a else none) p v) e none := by
    intro f p v hp
    funext a
    by_cases hae : a = e
    · subst hae
      simp
    · rw [Function.update_of_ne hae, Function.update_of_ne hae, relink_apply, relink_apply]
      simp only [List.mem_erase_of_ne hae]
      by_cases ha : p = some a
      · simp [ha, hp a ha]
      · simp [ha]
  have heq : (qRemove s () e).only (l.erase e) = qRemove (s.only l) () e := by
    rw [qRemove_eq, qRemove_eq]
    simp only [QHeap.only, if_pos he, QHeap.mk.injEq, and_true]
    exact ⟨hlinks s.next _ _ hprev, hlinks s.prev _ _ hnext⟩
  have hrem := qRemove_spec (q := ()) h he
  rw [update_unit] at hrem
  rw [Queued, heq]
  exact hrem

end Queued

end Timix.Queue

namespace Timix.RwLock.Sections

open Timix.Cond (EINTR)
open Timix.Queue
open Lts (Shows Simulates exec trace)

/-! ## The memory and the code -/

/-- The fields of `rwlock_t`, the links and the `mode` of the threads' `rwlock_q_node`. -/
structure Fields (T : Type) where
  count : Int
  mode : Option Access
  waiting : QHeap Unit T
  nodeMode : T → Access

/-- How a section ends: `cond_wait`; a signal to the waiters of `next`, before `mutex_unlock`;
    `mutex_unlock` and a return from `rwlock_lock` with `r`, or from `rwlock_unlock`; a failed
    assertion. -/
inductive Exit where
  | sleep (type : Access) (u : Bool)
  | wake (next : Access)
  | reply (r : Int)
  | done
  | fail
  deriving DecidableEq

section Code

variable {T : Type}

def getCount : Prog (Fields T) Int := Prog.read Fields.count

def setCount (n : Int) : Prog (Fields T) Unit := Prog.modify fun b => { b with count := n }

def getMode : Prog (Fields T) (Option Access) := Prog.read Fields.mode

def setMode (mode : Option Access) : Prog (Fields T) Unit :=
  Prog.modify fun b => { b with mode := mode }

/-- `rwlock_q_peek`; `mode` reads `head->mode` for a caller that asks for it.  `none` is
    `RWLOCK_Q_EMPTY`. -/
def rwlockQPeek {α : Type} (mode : T → Prog (Fields T) α) : Prog (Fields T) (Option α) := do
  match ← Prog.read fun b => qGetFront b.waiting () with
  | none => pure none
  | some head => some <$> mode head

variable [DecidableEq T]

def rwlockQPush (q : T) (mode : Access) : Prog (Fields T) Unit := do
  Prog.modify fun b => { b with nodeMode := Function.update b.nodeMode q mode }
  Prog.modify fun b => { b with waiting := qInitElem b.waiting q }
  Prog.modify fun b => { b with waiting := qInsertFront b.waiting () q }

/-- The loop of `rwlock_q_remove` from `curr` on, with at most `n` rounds. -/
def qRemoveFrom (thr : T) : Nat → Option T → Prog (Fields T) Bool
  | n + 1, some curr =>
    if curr = thr then do
      Prog.modify fun b => { b with waiting := Queue.qRemove b.waiting () curr }
      pure true
    else do
      let next ← Prog.read fun b => b.waiting.next curr
      qRemoveFrom thr n next
  | _, _ => pure false

variable [Fintype T]

/-- `rwlock_q_remove`; no queue of the threads' nodes has more rounds. -/
def rwlockQRemove (thr : T) : Prog (Fields T) Bool := do
  let head ← Prog.read fun b => qGetFront b.waiting ()
  qRemoveFrom thr (Fintype.card T) head

/-- The test of the waiting loops. -/
def mustWait : Access → Prog (Fields T) Bool
  | .read => do return (← getMode) = some .write
  | .write => do return (← getCount) ≠ 0

/-- `lock->mode = type; lock->count++;` up to `return 0`. -/
def acquire (type : Access) : Prog (Fields T) Exit := do
  setMode (some type)
  setCount ((← getCount) + 1)
  return .reply 0

/-- The waiting loop from its test on. -/
def waitLoop (t : T) (type : Access) (u : Bool) : Prog (Fields T) Exit := do
  if ← mustWait type then return .sleep type u
  if ← rwlockQRemove t then acquire type else return .fail

/-- `lock->count == 0 && lock->mode == RWLOCK_UNLOCKED`. -/
def isFree : Prog (Fields T) Bool := do
  if (← getCount) = 0 then return (← getMode) = none else return false

/-- `do_rwlock_lock` from `mutex_lock` on. -/
def doRwlockLock (t : T) (type : Access) (u : Bool) : Prog (Fields T) Exit := do
  if ← isFree then
    setCount ((← getCount) + 1)
    setMode (some type)
    return .reply 0
  match type with
  | .read =>
    -- the caller passes `NULL` for the mode
    match ← rwlockQPeek fun _ => pure () with
    | some () =>
      rwlockQPush t .read
      waitLoop t .read u
    | none => acquire .read
  | .write =>
    rwlockQPush t .write
    waitLoop t .write u

/-- `do_rwlock_lock` from the return of `rwlock_wait` on. -/
def waitReturned (t : T) (type : Access) (u i : Bool) : Prog (Fields T) Exit :=
  match i, u with
  | false, _ => waitLoop t type u
  | true, true => return .fail
  | true, false => do
    if ← rwlockQRemove t then return .reply (-EINTR) else return .fail

/-- `rwlock_unlock` from `mutex_lock` on. -/
def rwlockUnlock : Prog (Fields T) Exit := do
  setCount ((← getCount) - 1)
  if (← getCount) < 0 then return .fail
  if (← getCount) > 0 then return .done
  match ← rwlockQPeek fun head => Prog.read fun b => b.nodeMode head with
  | none =>
    setMode none
    return .done
  | some nextMode =>
    setMode (some nextMode)
    return .wake nextMode

/-- `rwlock_downgrade` from `mutex_lock` on. -/
def rwlockDowngrade : Prog (Fields T) Exit := do
  setMode (some .read)
  return .wake .read

/-- The section of a thread that takes `lock->lock`. -/
def body (t : T) : Pc → Prog (Fields T) Exit
  | .entering type u => doRwlockLock t type u
  | .woken type u i => waitReturned t type u i
  | .unlocking _ => rwlockUnlock
  | .downgrading => rwlockDowngrade
  | .idle | .asleep .. => return .done

end Code

/-! ## The system -/

/-- The memory, the queues of the condition variables (the newest in front), the threads, and the
    owner of `lock->lock` with the rest of its section. -/
structure State (T : Type) where
  fields : Fields T
  cv : Access → List T
  pc : T → Pc
  inside : Option (T × Prog (Fields T) Exit)
  failed : Bool

section System

variable {T : Type} [DecidableEq T]

/-- After `rwlock_init`; the nodes hold anything. -/
def rwlockInit (waiting : QHeap Unit T) (nodeMode : T → Access) : State T where
  fields := ⟨0, none, qInitHead waiting (), nodeMode⟩
  cv _ := []
  pc _ := .idle
  inside := none
  failed := false

def State.setPc (s : State T) (t : T) (p : Pc) : State T :=
  { s with pc := Function.update s.pc t p }

/-- Outside every function of the lock. -/
def State.isOut (s : State T) (t : T) : Bool := s.pc t = .idle && s.inside.map Prod.fst ≠ some t

/-- `cond_interrupt(t)`. -/
def condInterrupt (s : State T) (t : T) : State T :=
  match s.pc t with
  | .asleep type false =>
    { s with cv := Function.update s.cv type ((s.cv type).erase t) }.setPc t
      (.woken type false true)
  | _ => s

/-- `cond_broadcast(&(lock->readers))` or `cond_signal(&(lock->writers))`. -/
def wakeNext (s : State T) : Access → State T
  | .read =>
    { s with
      cv := Function.update s.cv .read []
      pc := fun v => if v ∈ s.cv .read then (s.pc v).wake else s.pc v }
  | .write =>
    match (s.cv .write).getLast? with
    | none => s
    | some v =>
      { s with cv := Function.update s.cv .write (s.cv .write).dropLast }.setPc v (s.pc v).wake

/-- The owner of `lock->lock` ends its section.  After a signal it has still to unlock. -/
def finish (s : State T) (t : T) : Exit → State T
  | .sleep type u =>
    { s with cv := Function.update s.cv type (t :: s.cv type), inside := none }.setPc t
      (.asleep type u)
  | .wake next => { (wakeNext s next).setPc t .idle with inside := some (t, return .done) }
  | .reply _ | .done => { s with inside := none }.setPc t .idle
  | .fail => { s with failed := true }

/-- Waiting for `lock->lock`. -/
def Pc.wants : Pc → Bool
  | .idle | .asleep .. => false
  | _ => true

variable [Fintype T]

/-- The next step of a thread inside a call. -/
def run (s : State T) (t : T) : Option (State T) :=
  match s.inside with
  | none => if Pc.wants (s.pc t) then some { s with inside := some (t, body t (s.pc t)) } else none
  | some (o, p) =>
    if o = t then
      match p with
      | .ret x => some (finish s t x)
      | p => (p.step s.fields).map fun r => { s with fields := r.2, inside := some (t, r.1) }
    else none

/-- One event.  The assertions of `rwlock_downgrade` read the memory as it is. -/
def step (s : State T) (e : Event T) : Option (State T) :=
  if s.failed then none
  else
    match e with
    | .lock t type u => if s.isOut t then some (s.setPc t (.entering type u)) else none
    | .unlock t type => if s.isOut t then some (s.setPc t (.unlocking type)) else none
    | .downgrade t =>
      if s.isOut t then
        if s.fields.mode = some .write ∧ s.fields.count = 1 then some (s.setPc t .downgrading)
        else some { s with failed := true }
      else none
    | .interrupt t => some (condInterrupt s t)
    | .run t => run s t

/-- The calls and interrupts, and what `rwlock_lock` returns. -/
def label (s : State T) : Event T → List (Event T ⊕ T × Int)
  | .run _ =>
    match s.inside with
    | some (o, .ret (.reply r)) => [.inr (o, r)]
    | _ => []
  | e => [.inl e]

/-- The same for the sections in one step. -/
def sectionLabel (s : RwLock.State T) : Event T → List (Event T ⊕ T × Int)
  | .run t =>
    match RwLock.run s t with
    | some s' => (s'.rets.drop s.rets.length).map .inr
    | none => []
  | e => [.inl e]

end System

/-! ## What an undisturbed section does -/

section Spec

variable {T : Type} [DecidableEq T] {b : Fields T} {s : State T} {c : RwLock.State T} {t : T}
  {type : Access} {u : Bool}

/-- The memory holds the fields of `c`. -/
structure Matches (b : Fields T) (c : RwLock.State T) : Prop where
  count : b.count = c.count
  mode : b.mode = c.mode
  waiting : Queued b.waiting (c.waiting.map Prod.fst)
  nodes : ∀ e ∈ c.waiting, b.nodeMode e.1 = e.2

/-- The memory `b` and the threads of `s` are those of `c`. -/
structure Agrees (b : Fields T) (s : State T) (c : RwLock.State T) : Prop where
  fields : Matches b c
  cv : s.cv = c.cv
  pc : s.pc = c.pc
  failed : s.failed = c.failed

theorem Matches.of_eq {c' : RwLock.State T} (h : Matches b c) (hc : c'.count = c.count)
    (hm : c'.mode = c.mode) (hw : c'.waiting = c.waiting) : Matches b c' :=
  ⟨h.count.trans hc.symm, h.mode.trans hm.symm, hw ▸ h.waiting, hw ▸ h.nodes⟩

def Exit.replies (t : T) : Exit → List (T × Int)
  | .reply r => [(t, r)]
  | _ => []

/-- A section of `t` that leaves `b` and ends with `x` turns `c` into `c'`. -/
def Ends (s : State T) (t : T) (c c' : RwLock.State T) (x : Exit) (b : Fields T) : Prop :=
  Agrees b (finish s t x) c' ∧ c'.rets = c.rets ++ x.replies t

theorem mem_of_qRemove : ∀ {l l' : List (T × Access)}, RwLock.qRemove t l = some l' →
    ∀ e ∈ l', e ∈ l
  | [], _, h => by cases h
  | d :: l, l', h => by
    rw [RwLock.qRemove] at h
    intro e he
    split at h
    · cases h
      exact List.mem_cons_of_mem d he
    · obtain ⟨r, hr, rfl⟩ := Option.map_eq_some_iff.1 h
      rcases List.mem_cons.1 he with rfl | he
      · exact List.mem_cons_self ..
      · exact List.mem_cons_of_mem d (mem_of_qRemove hr e he)

theorem qRemove_fst : ∀ l : List (T × Access), (RwLock.qRemove t l).map (List.map Prod.fst) =
    if t ∈ l.map Prod.fst then some ((l.map Prod.fst).erase t) else none
  | [] => rfl
  | d :: l => by
    have ih := qRemove_fst l
    rw [RwLock.qRemove]
    by_cases hd : d.1 = t
    · simp [hd]
    · rw [if_neg hd, Option.map_map]
      have hcomp : List.map Prod.fst ∘ (d :: ·) = (d.1 :: ·) ∘ List.map (Prod.fst (β := Access)) :=
        rfl
      rw [hcomp, ← Option.map_map, ih]
      by_cases hm : t ∈ l.map Prod.fst
      · simp [hm, hd]
      · simp [hm, Ne.symm hd]

/-- The loop of `rwlock_q_remove` takes the node out if it meets it. -/
theorem qRemoveFrom_ensures : ∀ {l : List T} {n : Nat} {p : Option T},
    Links.Chain b.waiting.next p l → l.length ≤ n →
    (qRemoveFrom t n p).Ensures (fun found b' => found = decide (t ∈ l) ∧
      b' = if t ∈ l then { b with waiting := Queue.qRemove b.waiting () t } else b) b
  | [], n, p, hl, _ => by
    obtain rfl : p = none := hl
    have hnone : qRemoveFrom t n none = pure false := by cases n <;> rfl
    rw [hnone]
    simp
  | a :: l, n, p, hl, hn => by
    obtain ⟨rfl, hl⟩ := hl
    obtain ⟨n, rfl⟩ : ∃ m, n = m + 1 := ⟨n - 1, by simp at hn; omega⟩
    rw [qRemoveFrom]
    by_cases ha : a = t
    · subst ha
      simp
    · have ih := qRemoveFrom_ensures hl (Nat.le_of_succ_le_succ hn)
      rw [if_neg ha]
      simpa [Ne.symm ha] using ih

omit [DecidableEq T] in
theorem peek_eq_none (hw : c.waiting = []) : RwLock.rwlockQPeek c = none := by
  rw [RwLock.rwlockQPeek, hw]

omit [DecidableEq T] in
theorem peek_eq_some {e : T × Access} {l : List (T × Access)} (hw : c.waiting = e :: l) :
    RwLock.rwlockQPeek c = some e.2 := by
  rw [RwLock.rwlockQPeek, hw]

theorem Agrees.peek_nil (h : Agrees b s c) (hw : c.waiting = []) {α : Type}
    {mode : T → Prog (Fields T) α} {Q : Option α → Fields T → Prop} (hQ : Q none b) :
    (rwlockQPeek mode).Ensures Q b := by
  have hhead : qGetFront b.waiting () = none := by
    have := h.fields.waiting.head
    rwa [hw] at this
  simpa [rwlockQPeek, hhead] using hQ

theorem Agrees.peek_cons (h : Agrees b s c) {e : T × Access} {l : List (T × Access)}
    (hw : c.waiting = e :: l) {α : Type} {mode : T → Prog (Fields T) α}
    {Q : Option α → Fields T → Prop} (hQ : (mode e.1).Ensures (fun a => Q (some a)) b) :
    (rwlockQPeek mode).Ensures Q b := by
  have hhead : qGetFront b.waiting () = some e.1 := by
    have := h.fields.waiting.head
    rwa [hw] at this
  simpa [rwlockQPeek, hhead] using hQ

/-- `rwlock_q_push` of a node that is not queued. -/
theorem Agrees.push (h : Agrees b s c) (hnew : t ∉ c.waiting.map Prod.fst) :
    (rwlockQPush t type).Ensures (fun _ b' => Agrees b' s (RwLock.rwlockQPush c t type)) b := by
  simp only [rwlockQPush, Prog.ensures_bind, Prog.ensures_modify]
  refine ⟨⟨h.fields.count, h.fields.mode, h.fields.waiting.insertFront hnew, ?_⟩, h.cv, h.pc,
    h.failed⟩
  intro e he
  rcases List.mem_cons.1 he with rfl | he
  · exact Function.update_self ..
  · have hne : e.1 ≠ t := fun heq => hnew (heq ▸ List.mem_map_of_mem he)
    rw [← h.fields.nodes e he]
    exact Function.update_of_ne hne _ _

variable [Fintype T]

/-- `rwlock_q_remove` finds a node exactly if it is queued. -/
theorem Agrees.remove (h : Agrees b s c) {Q : Bool → Fields T → Prop}
    (hfound : ∀ l, RwLock.qRemove t c.waiting = some l →
      ∀ b', Agrees b' s { c with waiting := l } → Q true b')
    (hnone : RwLock.qRemove t c.waiting = none → Q false b) :
    (rwlockQRemove t).Ensures Q b := by
  have hlen : (c.waiting.map Prod.fst).length ≤ Fintype.card T :=
    h.fields.waiting.nodup.length_le_card
  simp only [rwlockQRemove, Prog.ensures_bind, Prog.ensures_read]
  refine (qRemoveFrom_ensures h.fields.waiting.chain hlen).mono ?_
  rintro found b' ⟨rfl, rfl⟩
  have hfst := qRemove_fst (t := t) c.waiting
  by_cases hm : t ∈ c.waiting.map Prod.fst
  · rw [if_pos hm] at hfst ⊢
    obtain ⟨l, hl, hmap⟩ := Option.map_eq_some_iff.1 hfst
    rw [decide_eq_true hm]
    have hq := h.fields.waiting.remove hm
    rw [← hmap] at hq
    exact hfound l hl _ ⟨⟨h.fields.count, h.fields.mode, hq, fun e he =>
      h.fields.nodes e (mem_of_qRemove hl e he)⟩, h.cv, h.pc, h.failed⟩
  · rw [if_neg hm] at hfst ⊢
    rw [decide_eq_false hm]
    exact hnone (Option.map_eq_none_iff.1 hfst)

omit [Fintype T] in
theorem Agrees.mustWait (h : Agrees b s c) :
    (mustWait type).Ensures (fun r b' => b' = b ∧ (r = true ↔ c.mustWait type)) b := by
  cases type with
  | read => simp [Sections.mustWait, getMode, h.fields.mode, RwLock.State.mustWait]
  | write => simp [Sections.mustWait, getCount, h.fields.count, RwLock.State.mustWait]

omit [Fintype T] in
theorem Agrees.isFree (h : Agrees b s c) :
    Sections.isFree.Ensures (fun r b' => b' = b ∧ (r = true ↔ c.count = 0 ∧ c.mode = none)) b := by
  simp only [Sections.isFree, getCount, getMode, Prog.ensures_bind, Prog.ensures_read,
    Prog.ensures_ite, Prog.ensures_pure, h.fields.count, h.fields.mode]
  split <;> simp [*]

omit [DecidableEq T] [Fintype T] in
theorem ensures_setMode {α : Type} {m : Option Access} {k : Prog (Fields T) α}
    {Q : α → Fields T → Prop} :
    (setMode m >>= fun _ => k).Ensures Q b ↔ k.Ensures Q { b with mode := m } := by
  rw [setMode, Prog.ensures_bind, Prog.ensures_modify]

/-! ### How a section ends -/

section

omit [Fintype T]

theorem Agrees.fails (h : Agrees b s c) : Ends s t c c.fail .fail b :=
  ⟨⟨h.fields.of_eq rfl rfl rfl, h.cv, h.pc, rfl⟩, (List.append_nil _).symm⟩

theorem Agrees.sleeps (h : Agrees b s c) :
    Ends s t c (rwlockWait c t type u) (.sleep type u) b := by
  refine ⟨⟨h.fields.of_eq rfl rfl rfl, ?_, ?_, h.failed⟩, (List.append_nil _).symm⟩
  · simp [finish, rwlockWait, State.setPc, RwLock.State.setPc, h.cv]
  · simp [finish, rwlockWait, State.setPc, RwLock.State.setPc, h.pc]

/-- Whatever becomes of the mutex. -/
theorem Agrees.idles (h : Agrees b s c) (inside : Option (T × Prog (Fields T) Exit)) :
    Agrees b { s.setPc t .idle with inside := inside } (c.setPc t .idle) :=
  ⟨h.fields.of_eq rfl rfl rfl, h.cv, congrArg (fun pc : T → Pc => Function.update pc t .idle)
    h.pc, h.failed⟩

theorem Agrees.returns (h : Agrees b s c) (r : Int) :
    Ends s t c ({ c with rets := c.rets ++ [(t, r)] }.setPc t .idle) (.reply r) b := by
  have h' : Agrees b s { c with rets := c.rets ++ [(t, r)] } :=
    ⟨h.fields.of_eq rfl rfl rfl, h.cv, h.pc, h.failed⟩
  exact ⟨h'.idles none, rfl⟩

theorem Agrees.unlocks (h : Agrees b s c) : Ends s t c (c.setPc t .idle) .done b :=
  ⟨h.idles none, (List.append_nil _).symm⟩

theorem Agrees.wakeNext (h : Agrees b s c) (next : Access) :
    Agrees b (wakeNext s next) (RwLock.wakeNext c next) := by
  have hw := wakeNext_woke c next
  have hf : Matches b (RwLock.wakeNext c next) := h.fields.of_eq hw.count hw.mode hw.waiting
  cases next with
  | read =>
    have heq : RwLock.wakeNext c .read = _ := condBroadcast_eq c .read
    refine ⟨hf, ?_, ?_, h.failed.trans hw.failed.symm⟩
    · rw [heq, ← h.cv]
      rfl
    · rw [heq, ← h.cv, ← h.pc]
      rfl
  | write =>
    show Agrees b (match (s.cv .write).getLast? with | none => s | some v => _)
      (match (c.cv .write).getLast? with | none => c | some v => _)
    rw [h.cv]
    cases (c.cv .write).getLast? with
    | none => exact h
    | some v =>
      refine ⟨h.fields.of_eq rfl rfl rfl, rfl, ?_, h.failed⟩
      show Function.update s.pc v (s.pc v).wake = Function.update c.pc v (c.pc v).wake
      rw [h.pc]

theorem Agrees.signals (h : Agrees b s c) (next : Access) :
    Ends s t c ((RwLock.wakeNext c next).setPc t .idle) (.wake next) b := by
  have hw := wakeNext_woke c next
  refine ⟨(h.wakeNext next).idles _, ?_⟩
  exact hw.rets.trans (List.append_nil _).symm

/-- Both orders of the two writes. -/
theorem Agrees.acquires (h : Agrees b s c) :
    Ends s t c (RwLock.acquire c t type) (.reply 0)
      { b with mode := some type, count := b.count + 1 } := by
  have h' : Agrees { b with mode := some type, count := b.count + 1 } s
      { c with mode := some type, count := c.count + 1, holds := (t, type) :: c.holds } :=
    ⟨⟨congrArg (· + 1) h.fields.count, rfl, h.fields.waiting, h.fields.nodes⟩, h.cv, h.pc,
      h.failed⟩
  exact h'.returns 0

theorem Agrees.acquire (h : Agrees b s c) :
    (acquire type).Ensures (Ends s t c (RwLock.acquire c t type)) b := by
  simpa [Sections.acquire, setMode, setCount, getCount] using h.acquires

end

theorem Agrees.waitLoop (h : Agrees b s c) :
    (waitLoop t type u).Ensures (Ends s t c (RwLock.waitLoop c t type u)) b := by
  rw [Sections.waitLoop, Prog.ensures_bind]
  apply h.mustWait.mono
  rintro r b' ⟨rfl, hr⟩
  rw [Prog.ensures_ite, RwLock.waitLoop]
  by_cases hwait : c.mustWait type
  · rw [if_pos (hr.2 hwait), if_pos hwait]
    exact h.sleeps
  · rw [if_neg fun ht => hwait (hr.1 ht), if_neg hwait, Prog.ensures_bind, RwLock.rwlockQRemove]
    apply h.remove
    · intro l hl b' h'
      rw [hl]
      exact h'.acquire
    · intro hnone
      rw [hnone]
      exact h.fails

theorem Agrees.doRwlockLock (h : Agrees b s c) (hnew : t ∉ c.waiting.map Prod.fst) :
    (doRwlockLock t type u).Ensures (Ends s t c (RwLock.doRwlockLock c t type u)) b := by
  unfold Sections.doRwlockLock
  rw [Prog.ensures_bind]
  apply h.isFree.mono
  rintro r b' ⟨rfl, hr⟩
  unfold RwLock.doRwlockLock
  rw [Prog.ensures_ite]
  by_cases hfree : c.count = 0 ∧ c.mode = none
  · rw [if_pos (hr.2 hfree), if_pos hfree]
    simpa [setMode, setCount, getCount] using h.acquires
  · rw [if_neg fun ht => hfree (hr.1 ht), if_neg hfree]
    cases type with
    | read =>
      dsimp only
      rw [Prog.ensures_bind]
      cases hw : c.waiting with
      | nil =>
        rw [peek_eq_none hw]
        exact h.peek_nil hw h.acquire
      | cons e l =>
        rw [peek_eq_some hw]
        apply h.peek_cons hw
        dsimp only
        rw [Prog.ensures_pure, Prog.ensures_bind]
        apply (h.push hnew).mono
        intro _ b' h'
        exact h'.waitLoop
    | write =>
      dsimp only
      rw [Prog.ensures_bind]
      apply (h.push hnew).mono
      intro _ b' h'
      exact h'.waitLoop

theorem Agrees.waitReturned (h : Agrees b s c) {i : Bool} :
    (waitReturned t type u i).Ensures (Ends s t c (RwLock.waitReturned c t type u i)) b := by
  unfold Sections.waitReturned RwLock.waitReturned
  split
  · exact h.waitLoop
  · exact h.fails
  · rw [Prog.ensures_bind, RwLock.rwlockQRemove]
    apply h.remove
    · intro l hl b' h'
      rw [hl]
      exact h'.returns (-EINTR)
    · intro hnone
      rw [hnone]
      exact h.fails

omit [Fintype T] in
theorem Agrees.mode (h : Agrees b s c) (m : Option Access) :
    Agrees { b with mode := m } s { c with mode := m } :=
  ⟨⟨h.fields.count, rfl, h.fields.waiting, h.fields.nodes⟩, h.cv, h.pc, h.failed⟩

omit [Fintype T] in
theorem Agrees.rwlockUnlock (h : Agrees b s c) :
    rwlockUnlock.Ensures (Ends s t c (RwLock.rwlockUnlock c t type)) b := by
  have h' : Agrees { b with count := c.count - 1 } s
      { c with count := c.count - 1, holds := c.holds.erase (t, type) } :=
    ⟨⟨rfl, h.fields.mode, h.fields.waiting, h.fields.nodes⟩, h.cv, h.pc, h.failed⟩
  unfold Sections.rwlockUnlock RwLock.rwlockUnlock
  simp only [setCount, getCount, Prog.ensures_bind, Prog.ensures_read, Prog.ensures_modify,
    Prog.ensures_ite, h.fields.count]
  by_cases hneg : c.count - 1 < 0
  · rw [if_pos hneg, if_pos hneg]
    exact h'.fails
  rw [if_neg hneg, if_neg hneg]
  by_cases hpos : c.count - 1 > 0
  · rw [if_pos hpos, if_pos hpos]
    exact h'.unlocks
  rw [if_neg hpos, if_neg hpos]
  -- whom the lock is handed to
  have hpeek : RwLock.rwlockQPeek { c with
      count := c.count - 1, holds := c.holds.erase (t, type) } = RwLock.rwlockQPeek c := rfl
  rw [hpeek]
  by_cases hw : c.waiting = []
  · rw [peek_eq_none hw]
    apply h'.peek_nil hw
    dsimp only
    rw [ensures_setMode]
    exact (h'.mode none).unlocks
  · obtain ⟨e, l, hw⟩ := List.exists_cons_of_ne_nil hw
    have hnode : b.nodeMode e.1 = e.2 := h.fields.nodes e (hw ▸ List.mem_cons_self ..)
    rw [peek_eq_some hw]
    apply h'.peek_cons hw
    rw [Prog.ensures_read, hnode]
    dsimp only
    rw [ensures_setMode]
    cases e.2 with
    | read => exact (h'.mode (some .read)).signals .read
    | write => exact (h'.mode (some .write)).signals .write

omit [Fintype T] in
theorem Agrees.rwlockDowngrade (h : Agrees b s c) :
    rwlockDowngrade.Ensures (Ends s t c (RwLock.rwlockDowngrade c t)) b := by
  have h' : Agrees b s { c with
      holds := c.holds.map fun h => if h = (t, .write) then (t, .read) else h } :=
    ⟨h.fields.of_eq rfl rfl rfl, h.cv, h.pc, h.failed⟩
  rw [Sections.rwlockDowngrade, ensures_setMode]
  exact (h'.mode (some .read)).signals .read

/-- **A section that nothing disturbs does what the step of `Timix.RwLock` does.** -/
theorem Agrees.body (h : Agrees b s c) (hw : WaitOk c) (hpc : Pc.wants (c.pc t) = true) :
    ∃ c', RwLock.run c t = some c' ∧ (body t (c.pc t)).Ensures (Ends s t c c') b := by
  unfold RwLock.run
  cases hp : c.pc t with
  | entering type u =>
    have hnew : t ∉ c.waiting.map Prod.fst := by
      intro hm
      obtain ⟨⟨v, a⟩, hva, hv⟩ := List.mem_map.1 hm
      obtain rfl : v = t := hv
      have hentry := (hw.entries.mem v a).1 hva
      rw [hp] at hentry
      cases hentry
    exact ⟨_, rfl, h.doRwlockLock hnew⟩
  | woken type u i => exact ⟨_, rfl, h.waitReturned⟩
  | unlocking type => exact ⟨_, rfl, h.rwlockUnlock⟩
  | downgrading => exact ⟨_, rfl, h.rwlockDowngrade⟩
  | idle | asleep =>
    rw [hp] at hpc
    cases hpc

end Spec

/-! ## The simulation -/

section Simulation

variable {T : Type} [DecidableEq T] [Fintype T] {s s' : State T} {c : RwLock.State T} {t : T}

/-- A section under way has not taken effect in `c` yet; there it would do what the rest of it is
    about to do. -/
structure Tracks (s : State T) (c : RwLock.State T) : Prop where
  wait : WaitOk c
  cv : s.cv = c.cv
  pc : s.pc = c.pc
  failed : s.failed = c.failed
  free : s.inside = none → Matches s.fields c
  awake : ∀ t p, s.inside = some (t, p) → (s.pc t).sleepsOn = none
  busy : ∀ t p, s.inside = some (t, p) → s.failed = false →
    ∃ b, Matches b c ∧ (body t (s.pc t)).run b = p.run s.fields

theorem tracks_initial (q : QHeap Unit T) (nodeMode : T → Access) :
    Tracks (rwlockInit q nodeMode) RwLock.rwlockInit where
  wait := waitOk_initial
  cv := rfl
  pc := rfl
  failed := rfl
  free _ := ⟨rfl, rfl, queued_init q, fun _ h => by cases h⟩
  awake _ _ h := by cases h
  busy _ _ h := by cases h

/-- A thread that does not own `lock->lock` moves, and the lock stays as it is. -/
theorem Tracks.beside (h : Tracks s c) {c' : RwLock.State T} {e : Event T}
    (hm : Move c e c') {cv : Access → List T} {p : Pc} (hne : ∀ q, s.inside ≠ some (t, q))
    (hcv : cv = c'.cv) (hpc : c'.pc = Function.update c.pc t p) (hf : c'.failed = c.failed)
    (hlock : c'.count = c.count ∧ c'.mode = c.mode ∧ c'.waiting = c.waiting) :
    Tracks ({ s with cv := cv }.setPc t p) c' where
  wait := h.wait.move hm
  cv := hcv
  pc := by rw [hpc, ← h.pc]; rfl
  failed := h.failed.trans hf.symm
  free hin := (h.free hin).of_eq hlock.1 hlock.2.1 hlock.2.2
  awake v q hv := by
    have hvt : v ≠ t := by rintro rfl; exact hne q hv
    show (Function.update s.pc t p v).sleepsOn = none
    rw [Function.update_of_ne hvt]
    exact h.awake v q hv
  busy v q hv hok := by
    have hvt : v ≠ t := by rintro rfl; exact hne q hv
    obtain ⟨b, hb, hrun⟩ := h.busy v q hv hok
    refine ⟨b, hb.of_eq hlock.1 hlock.2.1 hlock.2.2, ?_⟩
    show (body v (Function.update s.pc t p v)).run b = _
    rw [Function.update_of_ne hvt]
    exact hrun

/-- The assertions of `rwlock_downgrade` meet no section under way. -/
def Unraced (s : State T) (e : Event T) : Prop := ∀ t, e = .downgrade t → s.inside = none

instance (s : State T) : (e : Event T) → Decidable (Unraced s e)
  | .downgrade _ => decidable_of_iff (s.inside = none) ⟨fun h _ _ => h, fun h => h _ rfl⟩
  | .lock .. | .unlock .. | .interrupt _ | .run _ => isTrue fun _ h => by cases h

omit [Fintype T] in
theorem State.isOut_iff : s.isOut t = true ↔ s.pc t = .idle ∧ ∀ q, s.inside ≠ some (t, q) := by
  unfold State.isOut
  cases s.inside with
  | none => simp
  | some x => obtain ⟨v, q⟩ := x; simp

theorem Tracks.interrupt (h : Tracks s c) (hok : s.failed = false) :
    ∃ c', Shows RwLock.step sectionLabel c [.inl (.interrupt t)] c' ∧
      Tracks (condInterrupt s t) c' := by
  have hf : c.failed = false := h.failed ▸ hok
  by_cases hhit : ∃ type, c.pc t = .asleep type false
  · obtain ⟨type, hpc⟩ := hhit
    have hm := Move.interrupt hpc
    have hs : condInterrupt s t =
        ({ s with cv := Function.update c.cv type ((c.cv type).erase t) }.setPc t
          (.woken type false true)) := by
      rw [condInterrupt, h.pc, hpc, h.cv]
    have hne : ∀ q, s.inside ≠ some (t, q) := by
      intro q hq
      have hawake := h.awake t q hq
      rw [h.pc, hpc] at hawake
      cases hawake
    refine ⟨_, Shows.single _ (hm.step h.wait hf), ?_⟩
    rw [hs]
    exact h.beside hm hne rfl rfl rfl ⟨rfl, rfl, rfl⟩
  · have hn : ∀ type, c.pc t ≠ .asleep type false := fun type hpc => hhit ⟨type, hpc⟩
    have hs : condInterrupt s t = s := by
      unfold condInterrupt
      rw [h.pc]
      split
      · exact absurd ‹_› (hn _)
      · rfl
    exact ⟨c, Shows.single _ ((Move.miss hn).step h.wait hf), hs.symm ▸ h⟩

/-- A thread takes `lock->lock`. -/
theorem Tracks.enter (h : Tracks s c) (hin : s.inside = none) (hpc : Pc.wants (s.pc t) = true) :
    Tracks { s with inside := some (t, body t (s.pc t)) } c where
  wait := h.wait
  cv := h.cv
  pc := h.pc
  failed := h.failed
  free hnone := by cases hnone
  awake v q hv := by
    cases hv
    show (s.pc t).sleepsOn = none
    cases hp : s.pc t <;> simp [hp, Pc.wants, Pc.sleepsOn] at hpc ⊢
  busy v q hv _ := by
    cases hv
    exact ⟨s.fields, h.free hin, rfl⟩

/-- The owner of `lock->lock` makes one access. -/
theorem Tracks.access (h : Tracks s c) {p q : Prog (Fields T) Exit} {b : Fields T}
    (hin : s.inside = some (t, p)) (hstep : p.step s.fields = some (q, b)) :
    Tracks { s with fields := b, inside := some (t, q) } c where
  wait := h.wait
  cv := h.cv
  pc := h.pc
  failed := h.failed
  free hnone := by cases hnone
  awake v r hv := by
    cases hv
    exact h.awake t p hin
  busy v r hv hok := by
    cases hv
    obtain ⟨b₀, hb₀, hrun⟩ := h.busy t p hin hok
    exact ⟨b₀, hb₀, hrun.trans (Prog.run_step hstep)⟩

omit [Fintype T] in
theorem finish_fields (s : State T) (t : T) (x : Exit) : (finish s t x).fields = s.fields := by
  cases x with
  | wake next =>
    cases next with
    | read => rfl
    | write =>
      unfold finish wakeNext
      cases (s.cv .write).getLast? <;> rfl
  | _ => rfl

/-- A section that has taken effect. -/
theorem Agrees.tracks {x : Exit} (h : Agrees s.fields (finish s t x) c) (hw : WaitOk c)
    (hin : s.inside = some (t, .ret x)) (hawake : (s.pc t).sleepsOn = none) :
    Tracks (finish s t x) c := by
  have hidle : ∀ next, (finish s t (.wake next)).pc t = .idle := fun next =>
    Function.update_self ..
  refine ⟨hw, h.cv, h.pc, h.failed, ?_, ?_, ?_⟩
  · intro _
    rw [finish_fields]
    exact h.fields
  · intro v p hv
    cases x with
    | wake next =>
      cases hv
      rw [hidle next]
      rfl
    | fail =>
      cases hin.symm.trans hv
      exact hawake
    | _ => cases hv
  · intro v p hv hok
    cases x with
    | wake next =>
      cases hv
      -- nothing is left but `mutex_unlock`
      rw [hidle next, finish_fields]
      exact ⟨s.fields, h.fields, rfl⟩
    | fail => cases hok
    | _ => cases hv

/-- The owner of `lock->lock` ends its section, which takes effect now if it has not before. -/
theorem Tracks.leave (h : Tracks s c) {x : Exit} (hin : s.inside = some (t, .ret x))
    (hok : s.failed = false) :
    ∃ c', Shows RwLock.step sectionLabel c ((x.replies t).map .inr) c' ∧
      Tracks (finish s t x) c' := by
  have hf : c.failed = false := h.failed ▸ hok
  have hawake := h.awake t _ hin
  obtain ⟨b, hb, hrun⟩ := h.busy t _ hin hok
  have hrun : (body t (s.pc t)).run b = some (x, s.fields) := hrun
  cases hwants : Pc.wants (s.pc t) with
  | true =>
    rw [h.pc] at hwants hrun
    obtain ⟨c', hc', hens⟩ := Agrees.body ⟨hb, h.cv, h.pc, h.failed⟩ h.wait hwants
    obtain ⟨hagree, hrets⟩ := hens.of_run hrun
    have hstep : RwLock.step c (.run t) = some c' := by simp [RwLock.step, hf, hc']
    have hlabel : sectionLabel c (.run t) = (x.replies t).map .inr := by
      simp [sectionLabel, hc', hrets]
    exact ⟨c', hlabel ▸ Shows.single _ hstep,
      hagree.tracks (h.wait.move (h.wait.step_move hstep)) hin hawake⟩
  | false =>
    have hpc : s.pc t = .idle := by
      cases hp : s.pc t <;> simp [hp, Pc.wants, Pc.sleepsOn] at hwants hawake ⊢
    rw [hpc] at hrun
    cases hrun
    refine ⟨c, Shows.refl c, Agrees.tracks ⟨hb, h.cv, ?_, h.failed⟩ h.wait hin hawake⟩
    show Function.update s.pc t .idle = c.pc
    rw [← hpc, Function.update_eq_self, h.pc]

omit [DecidableEq T] [Fintype T] in
theorem label_access {p : Prog (Fields T) Exit} {b : Fields T} {r : Prog (Fields T) Exit × Fields T}
    (hin : s.inside = some (t, p)) (hstep : p.step b = some r) : label s (.run t) = [] := by
  cases p with
  | ret x => cases hstep
  | get k => rw [label, hin]
  | set f k => rw [label, hin]

/-- **One step of a thread inside a call.** -/
theorem Tracks.run (h : Tracks s c) (hok : s.failed = false) (hs : run s t = some s') :
    ∃ c', Shows RwLock.step sectionLabel c (label s (.run t)) c' ∧ Tracks s' c' := by
  unfold Sections.run at hs
  split at hs
  · rename_i hin
    split at hs
    · cases hs
      have hlabel : label s (.run t) = [] := by simp [label, hin]
      exact ⟨c, hlabel ▸ Shows.refl c, h.enter hin ‹_›⟩
    · cases hs
  · rename_i o p hin
    split at hs
    · rename_i heq
      subst heq
      split at hs
      · rename_i x
        cases hs
        have hlabel : label s (.run o) = (x.replies o).map .inr := by
          cases x <;> simp [label, hin, Exit.replies]
        exact hlabel ▸ h.leave hin hok
      · obtain ⟨⟨q, b⟩, hstep, rfl⟩ := Option.map_eq_some_iff.1 hs
        exact ⟨c, label_access hin hstep ▸ Shows.refl c, h.access hin hstep⟩
    · cases hs

/-- A call of a thread that is outside. -/
theorem Tracks.call (h : Tracks s c) (hout : s.isOut t = true) {p : Pc} {e : Event T}
    (he : sectionLabel c e = [.inl e]) (hm : Move c e (c.setPc t p)) (hok : s.failed = false) :
    ∃ c', Shows RwLock.step sectionLabel c [.inl e] c' ∧ Tracks (s.setPc t p) c' :=
  ⟨_, he ▸ Shows.single e (hm.step h.wait (h.failed ▸ hok)),
    h.beside hm (State.isOut_iff.1 hout).2 h.cv rfl rfl ⟨rfl, rfl, rfl⟩⟩

/-- **One step.** -/
theorem simulates : Lts.SimulatesAlong (step : State T → _) label Unraced RwLock.step sectionLabel
    Tracks := by
  intro s e s' c h hrace hs
  unfold step at hs
  split at hs
  · cases hs
  rename_i hok
  have hok : s.failed = false := by simpa using hok
  have hout : ∀ {t}, s.isOut t = true → c.pc t = .idle := fun ht =>
    h.pc ▸ (State.isOut_iff.1 ht).1
  cases e with
  | lock t type u =>
    dsimp only at hs
    split at hs
    · rename_i ht
      cases hs
      exact h.call ht rfl (.callLock (hout ht)) hok
    · cases hs
  | unlock t type =>
    dsimp only at hs
    split at hs
    · rename_i ht
      cases hs
      exact h.call ht rfl (.callUnlock (hout ht)) hok
    · cases hs
  | downgrade t =>
    have hin := hrace t rfl
    have hb := h.free hin
    dsimp only at hs
    rw [hb.mode, hb.count] at hs
    split at hs
    · rename_i ht
      split at hs
      · rename_i hw
        cases hs
        exact h.call ht rfl (.callDowngrade (hout ht) hw.1 hw.2) hok
      · rename_i hw
        cases hs
        have hm := Move.badDowngrade (hout ht) hw
        refine ⟨_, Shows.single _ (hm.step h.wait (h.failed ▸ hok)), h.wait.move hm, h.cv, h.pc,
          rfl, ?_, ?_, ?_⟩
        · exact fun _ => hb.of_eq rfl rfl rfl
        · exact h.awake
        · intro _ _ _ hfail
          cases hfail
    · cases hs
  | interrupt t =>
    cases hs
    exact h.interrupt hok
  | run t => exact h.run hok hs

/-- **The sections of a reader/writer lock are atomic.**  Whatever the interleaving of the accesses,
if the assertions of `rwlock_downgrade` meet no section under way: some run of `Timix.RwLock` has
the same calls and interrupts and the same results of `rwlock_lock`, in the same order.  At its end
every thread is as far, the same threads sleep in the same queues, and the same assertions have
failed; and while `lock->lock` is free, the memory holds its count, its mode and, in the intrusive
queue, its waiting threads. -/
theorem rwlock_sections_atomic (q : QHeap Unit T) (nodeMode : T → Access) {es : List (Event T)}
    (hrace : Lts.Along step Unraced (rwlockInit q nodeMode) es)
    (h : exec step (rwlockInit q nodeMode) es = some s) :
    ∃ (as : List (Event T)) (c : RwLock.State T),
      exec RwLock.step RwLock.rwlockInit as = some c ∧
      trace RwLock.step sectionLabel RwLock.rwlockInit as =
        trace step label (rwlockInit q nodeMode) es ∧
      c.pc = s.pc ∧ c.cv = s.cv ∧ c.failed = s.failed ∧
      (s.inside = none → s.fields.count = c.count ∧ s.fields.mode = c.mode ∧
        qForeach s.fields.waiting (Fintype.card T) () = some (c.waiting.map Prod.fst) ∧
        ∀ e ∈ c.waiting, s.fields.nodeMode e.1 = e.2) := by
  obtain ⟨c, ⟨as, has, htrace⟩, hc⟩ := simulates.refines (tracks_initial q nodeMode) hrace h
  refine ⟨as, c, has, htrace, hc.pc.symm, hc.cv.symm, hc.failed.symm, ?_⟩
  intro hin
  obtain ⟨hcount, hmode, hwaiting, hnodes⟩ := hc.free hin
  exact ⟨hcount, hmode, hwaiting.chain.walk hwaiting.nodup.length_le_card, hnodes⟩

end Simulation

/-- `t` locks for writing; while `u` queues up to write, `w` calls to read and then queues up too;
    `t` downgrades and `w` gets the lock. -/
def downgradeAmong {T : Type} (t u w : T) : List (Event T) :=
  [.lock t .write false] ++ List.replicate 7 (.run t) ++ [.lock u .write false] ++
    List.replicate 3 (.run u) ++ [.lock w .read false] ++ List.replicate 4 (.run u) ++
    List.replicate 8 (.run w) ++ [.downgrade t] ++ List.replicate 4 (.run t) ++
    List.replicate 8 (.run w)

/-- Memory before `rwlock_init`: every link points to `t`. -/
def stale {T : Type} (t : T) : QHeap Unit T :=
  ⟨fun _ => some t, fun _ => some t, fun _ => some t, fun _ => some t, fun _ => some t⟩

theorem downgradeAmong_atomic :
    ∃ s, exec step (rwlockInit (stale (1 : Fin 3)) fun _ => .read) (downgradeAmong 0 1 2) =
        some s ∧
      ∃ (as : List (Event (Fin 3))) (c : RwLock.State (Fin 3)),
        exec RwLock.step RwLock.rwlockInit as = some c ∧
        trace RwLock.step sectionLabel RwLock.rwlockInit as =
          trace step label (rwlockInit (stale 1) fun _ => .read) (downgradeAmong 0 1 2) ∧
        c.count = 2 ∧ c.mode = some .read ∧ c.waiting.map Prod.fst = [1] := by
  have hrace : Lts.Along step Unraced (rwlockInit (stale (1 : Fin 3)) fun _ => .read)
      (downgradeAmong 0 1 2) := by
    decide
  obtain ⟨as, c, has, htrace, -, -, -, hrest⟩ := rwlock_sections_atomic _ _ hrace rfl
  obtain ⟨hcount, hmode, hwaiting, -⟩ := hrest rfl
  exact ⟨_, rfl, as, c, has, htrace, hcount.symm, hmode.symm, (Option.some.inj hwaiting).symm⟩

end Timix.RwLock.Sections
