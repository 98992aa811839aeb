import Mathlib.Data.Fintype.Basic
import Timix.Cond
import Timix.Lib.Owner
import Timix.Lib.Run

/-!
# Reader/writer locks (`kernel/rwlock.c`)

Any number of threads run `rwlock_lock`, `rwlock_lock_uninterruptable`, `rwlock_unlock` and
`rwlock_downgrade` on one lock.  A step is a whole section under `lock->lock`: from taking that
mutex, or from `cond_wait` taking it again, up to its release by `mutex_unlock` or by going to
sleep in `cond_wait`.  The two condition variables are what `Timix.CondWait` shows them to be:

* a waiter enters the queue and gives `lock->lock` up in one step;
* `cond_signal` wakes the oldest queued thread, if any, `cond_broadcast` all of them;
* `cond_interrupt` takes a queued thread out and wakes it, unless its wait is uninterruptable;
* a woken thread takes `lock->lock` again before `cond_wait` returns.

`sched_set_blocked` does not fail.  A failing assertion halts the system (`State.failed`).
`State.holds` lists who has acquired the lock and not released it, and in which mode,
`State.rets` what the calls of `rwlock_lock` returned.
-/

set_option autoImplicit false

namespace Timix.RwLock

open Timix.Cond (EINTR)

/-- `RWLOCK_READ`, `RWLOCK_WRITE`. -/
inductive Access where
  | read
  | write
  deriving DecidableEq

instance : Fintype Access where
  elems := {.read, .write}
  complete type := by cases type <;> decide

/-- Program points.  `u` is the flag `RWLOCK_UNINTERRUPTABLE`, `i` the flag `COND_INTERRUPTED`. -/
inductive Pc where
  | idle
  /-- `do_rwlock_lock`: `mutex_lock(&(lock->lock))`. -/
  | entering (type : Access) (u : Bool)
  /-- In the queue of the condition variable of its type. -/
  | asleep (type : Access) (u : Bool)
  /-- `cond_wait`: lock `lock->lock` again. -/
  | woken (type : Access) (u i : Bool)
  /-- `rwlock_unlock` of a hold in mode `type`: `mutex_lock`. -/
  | unlocking (type : Access)
  /-- `rwlock_downgrade`, the assertions passed: `mutex_lock`. -/
  | downgrading
  deriving DecidableEq

/-- `rwlock_t`, the queues of its condition variables (`cv .read` of `readers`, `cv .write` of
    `writers`) and the threads.  Queues have the newest element in front; `mode` is `none` for
    `RWLOCK_UNLOCKED`. -/
@[ext]
structure State (T : Type) where
  count : Int
  mode : Option Access
  waiting : List (T × Access)
  cv : Access → List T
  pc : T → Pc
  holds : List (T × Access)
  rets : List (T × Int)
  failed : Bool

/-- An idle thread calls a function of the lock, somebody interrupts `t`, a thread inside a call
    runs its next section. -/
inductive Event (T : Type) where
  | lock (t : T) (type : Access) (u : Bool)
  | unlock (t : T) (type : Access)
  | downgrade (t : T)
  | interrupt (t : T)
  | run (t : T)
  deriving DecidableEq

/-- A signal wakes a sleeping thread. -/
def Pc.wake : Pc → Pc
  | .asleep type u => .woken type u false
  | p => p

/-- `rwlock_q_peek`. -/
def rwlockQPeek {T : Type} (s : State T) : Option Access :=
  match s.waiting with
  | [] => none
  | head :: _ => some head.2

/-- The test of the waiting loops. -/
def State.mustWait {T : Type} (s : State T) : Access → Prop
  | .read => s.mode = some .write
  | .write => s.count ≠ 0

instance {T : Type} (s : State T) : (type : Access) → Decidable (s.mustWait type)
  | .read => inferInstanceAs (Decidable (s.mode = some .write))
  | .write => inferInstanceAs (Decidable (s.count ≠ 0))

section Model

variable {T : Type} [DecidableEq T]

def State.setPc (s : State T) (t : T) (p : Pc) : State T :=
  { s with pc := Function.update s.pc t p }

/-- After `rwlock_init`. -/
def rwlockInit : State T where
  count := 0
  mode := none
  waiting := []
  cv _ := []
  pc _ := .idle
  holds := []
  rets := []
  failed := false

/-- A failed assertion. -/
def State.fail (s : State T) : State T := { s with failed := true }

def condSignal (s : State T) (type : Access) : State T :=
  match (s.cv type).getLast? with
  | none => s
  | some u =>
    { s with cv := Function.update s.cv type (s.cv type).dropLast }.setPc u (s.pc u).wake

/-- Signals as long as the queue is not empty. -/
def condBroadcast (s : State T) (type : Access) : State T :=
  Nat.iterate (fun s => condSignal s type) (s.cv type).length s

/-- `cond_interrupt(t)`; an error, and no effect, unless `t` sleeps in an interruptible wait. -/
def condInterrupt (s : State T) (t : T) : State T :=
  match s.pc t with
  | .asleep type false =>
    { s with cv := Function.update s.cv type ((s.cv type).erase t) }.setPc t
      (.woken type false true)
  | _ => s

def rwlockQPush (s : State T) (t : T) (type : Access) : State T :=
  { s with waiting := (t, type) :: s.waiting }

/-- The loop of `rwlock_q_remove`; `none` is `RWLOCK_Q_NOT_FOUND`. -/
def qRemove (t : T) : List (T × Access) → Option (List (T × Access))
  | [] => none
  | curr :: l => if curr.1 = t then some l else (qRemove t l).map (curr :: ·)

def rwlockQRemove (s : State T) (t : T) : Option (State T) :=
  (qRemove t s.waiting).map fun l => { s with waiting := l }

/-- `rwlock_wait`: go to sleep on the condition variable of the type. -/
def rwlockWait (s : State T) (t : T) (type : Access) (u : Bool) : State T :=
  { s with cv := Function.update s.cv type (t :: s.cv type) }.setPc t (.asleep type u)

/-- `lock->mode = type; lock->count++;` and return 0. -/
def acquire (s : State T) (t : T) (type : Access) : State T :=
  { s with
    mode := some type, count := s.count + 1, holds := (t, type) :: s.holds,
    rets := s.rets ++ [(t, 0)] }.setPc t .idle

/-- The waiting loop from its test on, up to the next sleep or the end of the call. -/
def waitLoop (s : State T) (t : T) (type : Access) (u : Bool) : State T :=
  if s.mustWait type then rwlockWait s t type u
  else
    match rwlockQRemove s t with
    | none => s.fail
    | some s => acquire s t type

/-- `do_rwlock_lock` from taking `lock->lock` on. -/
def doRwlockLock (s : State T) (t : T) (type : Access) (u : Bool) : State T :=
  if s.count = 0 ∧ s.mode = none then acquire s t type
  else
    match type with
    | .read =>
      match rwlockQPeek s with
      | some _ => waitLoop (rwlockQPush s t .read) t .read u
      | none => acquire s t .read
    | .write => waitLoop (rwlockQPush s t .write) t .write u

/-- `do_rwlock_lock` from the return of `rwlock_wait` on.  An uninterruptable wait asserts that
    it was not interrupted. -/
def waitReturned (s : State T) (t : T) (type : Access) (u i : Bool) : State T :=
  match i, u with
  | false, _ => waitLoop s t type u
  | true, true => s.fail
  | true, false =>
    match rwlockQRemove s t with
    | none => s.fail
    | some s => { s with rets := s.rets ++ [(t, -EINTR)] }.setPc t .idle

def rwlockUnlock (s : State T) (t : T) (type : Access) : State T :=
  let s : State T := { s with count := s.count - 1, holds := s.holds.erase (t, type) }
  if s.count < 0 then s.fail
  else if s.count > 0 then s.setPc t .idle
  else
    -- pick who to hand the lock to
    match rwlockQPeek s with
    | none => { s with mode := none }.setPc t .idle
    | some .read => (condBroadcast { s with mode := some .read } .read).setPc t .idle
    | some .write => (condSignal { s with mode := some .write } .write).setPc t .idle

/-- `rwlock_downgrade` after its assertions.  A hold of `t` for writing becomes one for
    reading. -/
def rwlockDowngrade (s : State T) (t : T) : State T :=
  let holds := s.holds.map fun h => if h = (t, .write) then (t, .read) else h
  (condBroadcast { s with mode := some .read, holds := holds } .read).setPc t .idle

/-- The next section of a thread inside a call. -/
def run (s : State T) (t : T) : Option (State T) :=
  match s.pc t with
  | .idle | .asleep _ _ => none
  | .entering type u => some (doRwlockLock s t type u)
  | .woken type u i => some (waitReturned s t type u i)
  | .unlocking type => some (rwlockUnlock s t type)
  | .downgrading => some (rwlockDowngrade s t)

/-- One event.  `rwlock_downgrade` tests `mode` and `count` before it takes `lock->lock`. -/
def step (s : State T) (e : Event T) : Option (State T) :=
  if s.failed then none
  else
    match e with
    | .lock t type u => if s.pc t = .idle then some (s.setPc t (.entering type u)) else none
    | .unlock t type => if s.pc t = .idle then some (s.setPc t (.unlocking type)) else none
    | .downgrade t =>
      if s.pc t = .idle then
        if s.mode = some .write ∧ s.count = 1 then some (s.setPc t .downgrading) else some s.fail
      else none
    | .interrupt t => some (condInterrupt s t)
    | .run t => run s t

end Model

/-! ## Signals -/

section Signals

variable {T : Type} [DecidableEq T] {s s' : State T} {t : T}

/-- `s'` is `s` with some sleeping threads woken. -/
structure Woke (s s' : State T) : Prop where
  count : s'.count = s.count
  mode : s'.mode = s.mode
  waiting : s'.waiting = s.waiting
  holds : s'.holds = s.holds
  rets : s'.rets = s.rets
  failed : s'.failed = s.failed
  pc : ∀ u, s'.pc u = s.pc u ∨ s'.pc u = (s.pc u).wake

theorem Pc.wake_wake (p : Pc) : p.wake.wake = p.wake := by cases p <;> rfl

theorem condSignal_woke (s : State T) (type : Access) : Woke s (condSignal s type) := by
  unfold condSignal
  split
  · exact ⟨rfl, rfl, rfl, rfl, rfl, rfl, fun _ => Or.inl rfl⟩
  · rename_i u _
    refine ⟨rfl, rfl, rfl, rfl, rfl, rfl, ?_⟩
    intro v
    by_cases hv : v = u
    · subst hv
      exact Or.inr (Function.update_self ..)
    · exact Or.inl (Function.update_of_ne hv _ _)

/-- **What a signal keeps, a broadcast keeps.** -/
theorem condBroadcast_inv {P : State T → Prop} {type : Access}
    (hstep : ∀ s, P s → P (condSignal s type)) (h : P s) : P (condBroadcast s type) :=
  Function.Iterate.rec P h hstep _

/-- **A broadcast wakes the whole queue.** -/
theorem condBroadcast_eq (s : State T) (type : Access) :
    condBroadcast s type =
      { s with
        cv := Function.update s.cv type []
        pc := fun v => if v ∈ s.cv type then (s.pc v).wake else s.pc v } := by
  have hiter : ∀ (n : Nat) (s : State T), (s.cv type).length = n →
      Nat.iterate (fun s => condSignal s type) n s =
        { s with
          cv := Function.update s.cv type []
          pc := fun v => if v ∈ s.cv type then (s.pc v).wake else s.pc v } := by
    intro n
    induction n with
    | zero =>
      intro s h
      have hnil := List.length_eq_zero_iff.1 h
      have hcv : Function.update s.cv type [] = s.cv := by rw [← hnil, Function.update_eq_self]
      rw [hcv, hnil]
      simp
    | succ n ih =>
      intro s h
      obtain ⟨u, hu⟩ : ∃ u, (s.cv type).getLast? = some u := by
        cases hl : (s.cv type).getLast? with
        | none => rw [List.getLast?_eq_none_iff.1 hl] at h; cases h
        | some u => exact ⟨u, rfl⟩
      have hsplit := List.dropLast_append_getLast? u hu
      have hsig : condSignal s type = { s with
          cv := Function.update s.cv type (s.cv type).dropLast }.setPc u (s.pc u).wake := by
        rw [condSignal, hu]
      rw [Function.iterate_succ_apply, hsig, ih]
      · ext1
        case pc =>
          funext v
          show (if v ∈ Function.update s.cv type (s.cv type).dropLast type then
              (Function.update s.pc u (s.pc u).wake v).wake
            else Function.update s.pc u (s.pc u).wake v) = _
          rw [Function.update_self]
          by_cases hv : v = u
          · subst hv
            rw [Function.update_self, Pc.wake_wake, ite_self]
            exact (if_pos (List.mem_of_getLast? hu)).symm
          · have hmem : v ∈ s.cv type ↔ v ∈ (s.cv type).dropLast := by
              conv_lhs => rw [← hsplit]
              simp [hv]
            rw [Function.update_of_ne hv]
            simp only [hmem]
        case cv => exact Function.update_idem ..
        all_goals rfl
      · show (Function.update s.cv type (s.cv type).dropLast type).length = n
        rw [Function.update_self, List.length_dropLast]
        omega
  exact hiter _ s rfl

theorem condBroadcast_woke (s : State T) (type : Access) : Woke s (condBroadcast s type) := by
  rw [condBroadcast_eq]
  refine ⟨rfl, rfl, rfl, rfl, rfl, rfl, ?_⟩
  intro v
  dsimp only
  split
  · exact Or.inr rfl
  · exact Or.inl rfl

theorem condBroadcast_cv (s : State T) (type : Access) : (condBroadcast s type).cv type = [] := by
  rw [condBroadcast_eq]
  exact Function.update_self ..

/-- Whom `rwlock_unlock` wakes when it hands the lock over. -/
def wakeNext (s : State T) : Access → State T
  | .read => condBroadcast s .read
  | .write => condSignal s .write

theorem wakeNext_woke (s : State T) (type : Access) : Woke s (wakeNext s type) := by
  cases type
  · exact condBroadcast_woke s .read
  · exact condSignal_woke s .write

omit [DecidableEq T] in
/-- A thread that does not sleep is not touched. -/
theorem Woke.pc_eq (h : Woke s s') {p : Pc} (hpc : s.pc t = p) (hp : p.wake = p) :
    s'.pc t = p := by
  rcases h.pc t with ht | ht <;> rw [ht, hpc]
  exact hp

end Signals

/-! ## Entries and queues -/

section Waiting

variable {T : Type} [DecidableEq T] {s s' : State T} {t : T}

/-- The mode for which the thread has an entry in `lock->waiting`. -/
def Pc.entry : Pc → Option Access
  | .asleep type _ | .woken type _ _ => some type
  | _ => none

/-- The condition variable on which the thread sleeps. -/
def Pc.sleepsOn : Pc → Option Access
  | .asleep type _ => some type
  | _ => none

/-- The entries in `lock->waiting` are those of the threads in the waiting loops. -/
structure EntriesOk (waiting : List (T × Access)) (pc : T → Pc) : Prop where
  mem : ∀ t type, (t, type) ∈ waiting ↔ (pc t).entry = some type
  once : (waiting.map Prod.fst).Nodup

/-- The queues hold the sleeping threads. -/
structure QueuesOk (cv : Access → List T) (pc : T → Pc) : Prop where
  mem : ∀ t type, t ∈ cv type ↔ (pc t).sleepsOn = some type
  nodup : ∀ type, (cv type).Nodup

/-- The invariant of the waiting list and the queues; no uninterruptable wait is interrupted. -/
structure WaitOk (s : State T) : Prop where
  entries : EntriesOk s.waiting s.pc
  queues : QueuesOk s.cv s.pc
  firm : ∀ t type, s.pc t ≠ .woken type true true

omit [DecidableEq T] in
theorem waitOk_initial : WaitOk (rwlockInit : State T) where
  entries := ⟨by simp [rwlockInit, Pc.entry], List.nodup_nil⟩
  queues := ⟨by simp [rwlockInit, Pc.sleepsOn], fun _ => List.nodup_nil⟩
  firm := fun _ _ h => by cases h

/-- The other entries. -/
def others (t : T) (l : List (T × Access)) : List (T × Access) := l.filter fun e => e.1 ≠ t

theorem mem_others {l : List (T × Access)} {e : T × Access} :
    e ∈ others t l ↔ e ∈ l ∧ e.1 ≠ t := by
  simp [others]

/-- **`rwlock_q_remove` finds the entry and takes it out.** -/
theorem qRemove_eq : ∀ {l : List (T × Access)}, (l.map Prod.fst).Nodup → t ∈ l.map Prod.fst →
    qRemove t l = some (others t l)
  | [], _, hm => by cases hm
  | e :: l, hn, hm => by
    obtain ⟨he, hn⟩ := List.nodup_cons.1 hn
    rw [qRemove]
    split
    · rename_i heq
      subst heq
      have hl : others e.1 l = l := by
        unfold others
        rw [List.filter_eq_self]
        intro d hd
        simpa using fun h : d.1 = e.1 => he (h ▸ List.mem_map_of_mem hd)
      rw [← hl]
      simp [others]
    · rename_i hne
      have hm : t ∈ l.map Prod.fst := by
        rcases List.mem_cons.1 hm with rfl | hm
        · exact absurd rfl hne
        · exact hm
      rw [qRemove_eq hn hm]
      simp [others, hne]

theorem WaitOk.remove (h : WaitOk s) {type : Access} (ht : (s.pc t).entry = some type) :
    rwlockQRemove s t = some { s with waiting := others t s.waiting } := by
  have hm : t ∈ s.waiting.map Prod.fst := List.mem_map_of_mem ((h.entries.mem t type).2 ht)
  rw [rwlockQRemove, qRemove_eq h.entries.once hm]
  rfl

section Keep

variable {waiting : List (T × Access)} {cv : Access → List T} {pc : T → Pc} {type : Access} {p : Pc}

theorem EntriesOk.keep (h : EntriesOk waiting pc) (hp : p.entry = (pc t).entry) :
    EntriesOk waiting (Function.update pc t p) := by
  refine ⟨(Function.forall_update_iff _ fun v (q : Pc) =>
    ∀ a, (v, a) ∈ waiting ↔ q.entry = some a).2 ⟨?_, fun v _ => h.mem v⟩, h.once⟩
  intro a
  rw [h.mem t a, hp]

theorem EntriesOk.push (h : EntriesOk waiting pc) (h₀ : (pc t).entry = none)
    (hp : p.entry = some type) : EntriesOk ((t, type) :: waiting) (Function.update pc t p) := by
  have hnew : ∀ a, (t, a) ∉ waiting := by
    intro a hm
    rw [(h.mem t a).1 hm] at h₀
    cases h₀
  constructor
  · refine (Function.forall_update_iff _ fun v (q : Pc) =>
      ∀ a, (v, a) ∈ (t, type) :: waiting ↔ q.entry = some a).2 ⟨?_, ?_⟩
    · intro a
      rw [hp, List.mem_cons]
      simp [hnew a, eq_comm]
    · intro v hv a
      rw [← h.mem v a, List.mem_cons]
      simp [hv]
  · rw [List.map_cons]
    refine List.nodup_cons.2 ⟨?_, h.once⟩
    intro hm
    obtain ⟨⟨v, a⟩, hm, hv⟩ := List.mem_map.1 hm
    exact hnew a (by rw [← show v = t from hv]; exact hm)

theorem EntriesOk.leave (h : EntriesOk waiting pc) (hp : p.entry = none) :
    EntriesOk (others t waiting) (Function.update pc t p) := by
  refine ⟨(Function.forall_update_iff _ fun v (q : Pc) =>
    ∀ a, (v, a) ∈ others t waiting ↔ q.entry = some a).2 ⟨?_, ?_⟩,
    h.once.sublist (List.filter_sublist.map _)⟩
  · intro a
    rw [mem_others, hp]
    simp
  · intro v hv a
    rw [mem_others, h.mem v a]
    simp [hv]

theorem QueuesOk.keep (h : QueuesOk cv pc) (hp : p.sleepsOn = (pc t).sleepsOn) :
    QueuesOk cv (Function.update pc t p) := by
  refine ⟨(Function.forall_update_iff _ fun v (q : Pc) => ∀ a, v ∈ cv a ↔ q.sleepsOn = some a).2
    ⟨?_, fun v _ => h.mem v⟩, h.nodup⟩
  intro a
  rw [h.mem t a, hp]

theorem QueuesOk.push (h : QueuesOk cv pc) (h₀ : (pc t).sleepsOn = none)
    (hp : p.sleepsOn = some type) :
    QueuesOk (Function.update cv type (t :: cv type)) (Function.update pc t p) := by
  have hnew : ∀ a, t ∉ cv a := by
    intro a hm
    rw [(h.mem t a).1 hm] at h₀
    cases h₀
  have hmem : ∀ v a, v ∈ Function.update cv type (t :: cv type) a ↔
      v ∈ cv a ∨ (v = t ∧ a = type) := by
    intro v
    refine (Function.forall_update_iff _ fun a (l : List T) =>
      v ∈ l ↔ v ∈ cv a ∨ (v = t ∧ a = type)).2 ⟨?_, ?_⟩
    · rw [List.mem_cons]
      tauto
    · intro a ha
      simp [ha]
  constructor
  · refine (Function.forall_update_iff _ fun v (q : Pc) => ∀ a,
      v ∈ Function.update cv type (t :: cv type) a ↔ q.sleepsOn = some a).2 ⟨?_, ?_⟩
    · intro a
      rw [hmem, hp]
      simp [hnew a, eq_comm]
    · intro v hv a
      rw [hmem, h.mem v a]
      simp [hv]
  · exact (Function.forall_update_iff _ fun _ (l : List T) => l.Nodup).2
      ⟨List.nodup_cons.2 ⟨hnew type, h.nodup type⟩, fun a _ => h.nodup a⟩

theorem QueuesOk.pop (h : QueuesOk cv pc) (h₀ : (pc t).sleepsOn = some type)
    (hp : p.sleepsOn = none) :
    QueuesOk (Function.update cv type ((cv type).erase t)) (Function.update pc t p) := by
  have hmem : ∀ v a, v ∈ Function.update cv type ((cv type).erase t) a ↔ v ≠ t ∧ v ∈ cv a := by
    intro v
    refine (Function.forall_update_iff _ fun a (l : List T) => v ∈ l ↔ v ≠ t ∧ v ∈ cv a).2
      ⟨(h.nodup type).mem_erase_iff, ?_⟩
    intro a ha
    rw [iff_and_self, h.mem v a]
    rintro hv rfl
    rw [h₀] at hv
    exact ha (Option.some.inj hv).symm
  constructor
  · refine (Function.forall_update_iff _ fun v (q : Pc) => ∀ a,
      v ∈ Function.update cv type ((cv type).erase t) a ↔ q.sleepsOn = some a).2 ⟨?_, ?_⟩
    · intro a
      rw [hmem, hp]
      simp
    · intro v hv a
      rw [hmem, h.mem v a]
      simp [hv]
  · exact (Function.forall_update_iff _ fun _ (l : List T) => l.Nodup).2
      ⟨(h.nodup type).erase t, fun a _ => h.nodup a⟩

/-- A thread moves to a point that is not an interrupted uninterruptable wait. -/
theorem firm_update (h : ∀ t type, pc t ≠ .woken type true true)
    (hp : ∀ type, p ≠ .woken type true true) :
    ∀ v a, Function.update pc t p v ≠ .woken a true true :=
  (Function.forall_update_iff _ fun _ (q : Pc) => ∀ a, q ≠ .woken a true true).2
    ⟨hp, fun v _ => h v⟩

end Keep

/-- Moving between points outside the waiting loops. -/
theorem WaitOk.outside (h : WaitOk s) {p₀ p : Pc} (hpc : s.pc t = p₀) (h₀ : p₀.entry = none)
    (h₁ : p₀.sleepsOn = none) (hp : p.entry = none) (hq : p.sleepsOn = none) :
    WaitOk (s.setPc t p) where
  entries := h.entries.keep (by rw [hpc, h₀, hp])
  queues := h.queues.keep (by rw [hpc, h₁, hq])
  firm := firm_update h.firm fun type => by rintro rfl; cases hp

theorem dropLast_eq_erase {l : List T} {u : T} (hn : l.Nodup) (hl : l.getLast? = some u) :
    l.dropLast = l.erase u := by
  obtain ⟨l₀, rfl⟩ : ∃ l₀, l = l₀ ++ [u] := ⟨_, (List.dropLast_append_getLast? u hl).symm⟩
  have hu : u ∉ l₀ := fun hm => (List.nodup_append.1 hn).2.2 u hm u (by simp) rfl
  rw [List.dropLast_concat, List.erase_append_right _ hu]
  simp

omit [DecidableEq T] in
/-- The thread that a signal takes sleeps there. -/
theorem WaitOk.asleep_of_last (h : WaitOk s) {type : Access} {u : T}
    (hl : (s.cv type).getLast? = some u) : ∃ f, s.pc u = .asleep type f := by
  have hs := (h.queues.mem u type).1 (List.mem_of_getLast? hl)
  cases hp : s.pc u with
  | asleep a f => rw [hp] at hs; cases hs; exact ⟨f, rfl⟩
  | _ => rw [hp] at hs; cases hs

theorem WaitOk.signal (h : WaitOk s) (type : Access) : WaitOk (condSignal s type) := by
  unfold condSignal
  split
  · exact h
  · rename_i u hl
    obtain ⟨f, hu⟩ := h.asleep_of_last hl
    rw [dropLast_eq_erase (h.queues.nodup type) hl]
    exact ⟨h.entries.keep (by rw [hu]; rfl), h.queues.pop (by rw [hu]; rfl) (by rw [hu]; rfl),
      firm_update h.firm (by rw [hu]; exact fun _ h => by cases h)⟩

theorem WaitOk.wakeNext (h : WaitOk s) (type : Access) : WaitOk (wakeNext s type) := by
  cases type
  · exact condBroadcast_inv (fun _ h => h.signal .read) h
  · exact h.signal .write

/-! ## Inversion of a step -/

/-- The events, one constructor for each branch. -/
inductive Move (s : State T) : Event T → State T → Prop where
  | callLock {t : T} {type : Access} {u : Bool} (hpc : s.pc t = .idle) :
      Move s (.lock t type u) (s.setPc t (.entering type u))
  | callUnlock {t : T} {type : Access} (hpc : s.pc t = .idle) :
      Move s (.unlock t type) (s.setPc t (.unlocking type))
  | callDowngrade {t : T} (hpc : s.pc t = .idle) (hm : s.mode = some .write) (hc : s.count = 1) :
      Move s (.downgrade t) (s.setPc t .downgrading)
  | badDowngrade {t : T} (hpc : s.pc t = .idle) (hn : ¬ (s.mode = some .write ∧ s.count = 1)) :
      Move s (.downgrade t) s.fail
  | interrupt {t : T} {type : Access} (hpc : s.pc t = .asleep type false) :
      Move s (.interrupt t)
        ({ s with cv := Function.update s.cv type ((s.cv type).erase t) }.setPc t
          (.woken type false true))
  | miss {t : T} (hn : ∀ type, s.pc t ≠ .asleep type false) : Move s (.interrupt t) s
  | enter {t : T} {type : Access} {u : Bool} (hpc : s.pc t = .entering type u)
      (hgo : type = .read ∧ s.waiting = [] ∨ ¬ s.mustWait type) :
      Move s (.run t) (acquire s t type)
  | queueUp {t : T} {type : Access} {u : Bool} (hpc : s.pc t = .entering type u)
      (hwait : s.mustWait type) (hsome : type = .read → s.waiting ≠ []) :
      Move s (.run t) (rwlockWait (rwlockQPush s t type) t type u)
  | take {t : T} {type : Access} {u : Bool} (hpc : s.pc t = .woken type u false)
      (hgo : ¬ s.mustWait type) :
      Move s (.run t) (acquire { s with waiting := others t s.waiting } t type)
  | again {t : T} {type : Access} {u : Bool} (hpc : s.pc t = .woken type u false)
      (hwait : s.mustWait type) : Move s (.run t) (rwlockWait s t type u)
  | giveUp {t : T} {type : Access} (hpc : s.pc t = .woken type false true) :
      Move s (.run t) ({ s with
        waiting := others t s.waiting, rets := s.rets ++ [(t, -EINTR)] }.setPc t .idle)
  | badUnlock {t : T} {type : Access} (hpc : s.pc t = .unlocking type) (hc : s.count < 1) :
      Move s (.run t) { s with count := s.count - 1, holds := s.holds.erase (t, type) }.fail
  | unlockMore {t : T} {type : Access} (hpc : s.pc t = .unlocking type) (hc : 1 < s.count) :
      Move s (.run t)
        ({ s with count := s.count - 1, holds := s.holds.erase (t, type) }.setPc t .idle)
  | unlockFree {t : T} {type : Access} (hpc : s.pc t = .unlocking type) (hc : s.count = 1)
      (hw : s.waiting = []) :
      Move s (.run t) ({ s with
        count := s.count - 1, mode := none, holds := s.holds.erase (t, type) }.setPc t .idle)
  | handOver {t : T} {type next : Access} (hpc : s.pc t = .unlocking type) (hc : s.count = 1)
      (hw : rwlockQPeek s = some next) :
      Move s (.run t) ((wakeNext { s with
        count := s.count - 1, mode := some next, holds := s.holds.erase (t, type) } next).setPc t
          .idle)
  | downgrade {t : T} (hpc : s.pc t = .downgrading) : Move s (.run t) (rwlockDowngrade s t)

theorem qRemove_push (s : State T) (type : Access) :
    rwlockQRemove (rwlockQPush s t type) t = some s := by
  simp [rwlockQRemove, rwlockQPush, qRemove]

theorem waitLoop_push_acquire {type : Access} (hgo : ¬ s.mustWait type) (u : Bool) :
    waitLoop (rwlockQPush s t type) t type u = acquire s t type := by
  have hgo' : ¬ (rwlockQPush s t type).mustWait type := by cases type <;> exact hgo
  rw [waitLoop, if_neg hgo', qRemove_push]

theorem waitLoop_push_wait {type : Access} (hwait : s.mustWait type) (u : Bool) :
    waitLoop (rwlockQPush s t type) t type u = rwlockWait (rwlockQPush s t type) t type u := by
  have hwait' : (rwlockQPush s t type).mustWait type := by cases type <;> exact hwait
  rw [waitLoop, if_pos hwait']

omit [DecidableEq T] in
theorem not_mustWait_of_free {type : Access} (h : s.count = 0 ∧ s.mode = none) :
    ¬ s.mustWait type := by
  cases type with
  | read =>
    intro hwait
    have hwait : s.mode = some .write := hwait
    rw [h.2] at hwait
    cases hwait
  | write => exact not_not.2 h.1

theorem doRwlockLock_acquire {type : Access}
    (hgo : type = .read ∧ s.waiting = [] ∨ ¬ s.mustWait type) (u : Bool) :
    doRwlockLock s t type u = acquire s t type := by
  unfold doRwlockLock
  split
  · rfl
  · cases type with
    | read =>
      cases hw : s.waiting with
      | nil => simp only [rwlockQPeek, hw]
      | cons d l =>
        simp only [rwlockQPeek, hw]
        apply waitLoop_push_acquire
        rcases hgo with ⟨_, hnil⟩ | hgo
        · rw [hw] at hnil; cases hnil
        · exact hgo
    | write =>
      apply waitLoop_push_acquire
      rcases hgo with ⟨hr, _⟩ | hgo
      · cases hr
      · exact hgo

theorem doRwlockLock_wait {type : Access} (hwait : s.mustWait type)
    (hsome : type = .read → s.waiting ≠ []) (u : Bool) :
    doRwlockLock s t type u = rwlockWait (rwlockQPush s t type) t type u := by
  unfold doRwlockLock
  rw [if_neg fun hfree => not_mustWait_of_free hfree hwait]
  cases type with
  | read =>
    cases hw : s.waiting with
    | nil => exact absurd hw (hsome rfl)
    | cons d l =>
      simp only [rwlockQPeek, hw]
      exact waitLoop_push_wait hwait u
  | write => exact waitLoop_push_wait hwait u

theorem enter_move {type : Access} {u : Bool} (hpc : s.pc t = .entering type u) :
    Move s (.run t) (doRwlockLock s t type u) := by
  by_cases hgo : type = .read ∧ s.waiting = [] ∨ ¬ s.mustWait type
  · rw [doRwlockLock_acquire hgo]
    exact .enter hpc hgo
  · rw [not_or, not_not] at hgo
    have hsome : type = .read → s.waiting ≠ [] := fun hr hnil => hgo.1 ⟨hr, hnil⟩
    rw [doRwlockLock_wait hgo.2 hsome]
    exact .queueUp hpc hgo.2 hsome

theorem WaitOk.woken_move (h : WaitOk s) {type : Access} {u i : Bool}
    (hpc : s.pc t = .woken type u i) : Move s (.run t) (waitReturned s t type u i) := by
  have hentry : (s.pc t).entry = some type := by rw [hpc]; rfl
  have hrem := h.remove hentry
  unfold waitReturned
  split
  · unfold waitLoop
    split
    · exact .again hpc ‹_›
    · rw [hrem]
      exact .take hpc ‹_›
  · exact absurd hpc (h.firm t type)
  · rw [hrem]
    exact .giveUp hpc

theorem unlock_move {type : Access} (hpc : s.pc t = .unlocking type) :
    Move s (.run t) (rwlockUnlock s t type) := by
  unfold rwlockUnlock
  dsimp only
  split
  · exact .badUnlock hpc (by omega)
  · split
    · exact .unlockMore hpc (by omega)
    · split
      · rename_i hp
        refine .unlockFree hpc (by omega) ?_
        cases hw : s.waiting with
        | nil => rfl
        | cons e l => simp [rwlockQPeek, hw] at hp
      · rename_i hp
        have hm := Move.handOver hpc (by omega) hp
        exact hm
      · rename_i hp
        have hm := Move.handOver hpc (by omega) hp
        exact hm

/-- **Step inversion.** -/
theorem WaitOk.step_move (h : WaitOk s) {e : Event T} (hs : step s e = some s') : Move s e s' := by
  unfold step at hs
  split at hs
  · cases hs
  · cases e with
    | lock t type u =>
      dsimp only at hs
      split at hs
      · cases hs; exact .callLock ‹_›
      · cases hs
    | unlock t type =>
      dsimp only at hs
      split at hs
      · cases hs; exact .callUnlock ‹_›
      · cases hs
    | downgrade t =>
      dsimp only at hs
      split at hs
      · rename_i hpc
        split at hs
        · rename_i hok
          cases hs; exact .callDowngrade hpc hok.1 hok.2
        · cases hs; exact .badDowngrade hpc ‹_›
      · cases hs
    | interrupt t =>
      cases hs
      unfold condInterrupt
      split
      · exact .interrupt ‹_›
      · rename_i hn
        exact .miss hn
    | run t =>
      dsimp only [run] at hs
      split at hs
      · cases hs
      · cases hs
      · cases hs; exact enter_move ‹_›
      · cases hs; exact h.woken_move ‹_›
      · cases hs; exact unlock_move ‹_›
      · rename_i hpc
        cases hs; exact .downgrade hpc

/-- **Every branch is taken**: the inversion is exact. -/
theorem Move.step (hw : WaitOk s) (hf : s.failed = false) {e : Event T} (hm : Move s e s') :
    step s e = some s' := by
  cases hm with
  | callLock hpc | callUnlock hpc => simp [RwLock.step, hf, hpc]
  | callDowngrade hpc hmode hc => simp [RwLock.step, hf, hpc, hmode, hc]
  | badDowngrade hpc hn => simp [RwLock.step, hf, hpc, hn]
  | interrupt hpc => simp [RwLock.step, hf, condInterrupt, hpc]
  | @miss t hn =>
    have hmiss : condInterrupt s t = s := by
      unfold condInterrupt
      split
      · rename_i type hpc
        exact absurd hpc (hn type)
      · rfl
    simp [RwLock.step, hf, hmiss]
  | enter hpc hgo => simp [RwLock.step, hf, run, hpc, doRwlockLock_acquire hgo]
  | queueUp hpc hwait hsome => simp [RwLock.step, hf, run, hpc, doRwlockLock_wait hwait hsome]
  | @take t type u hpc hgo =>
    have hentry : (s.pc t).entry = some type := by rw [hpc]; rfl
    simp [RwLock.step, hf, run, hpc, waitReturned, waitLoop, hgo, hw.remove hentry]
  | again hpc hwait => simp [RwLock.step, hf, run, hpc, waitReturned, waitLoop, hwait]
  | @giveUp t type hpc =>
    have hentry : (s.pc t).entry = some type := by rw [hpc]; rfl
    simp [RwLock.step, hf, run, hpc, waitReturned, hw.remove hentry]
  | @badUnlock t type hpc hc =>
    have hneg : s.count - 1 < 0 := by omega
    simp [RwLock.step, hf, run, hpc, rwlockUnlock, hneg]
  | @unlockMore t type hpc hc =>
    have hneg : ¬ s.count - 1 < 0 := by omega
    simp [RwLock.step, hf, run, hpc, rwlockUnlock, hneg, hc]
  | @unlockFree t type hpc hc hnil =>
    simp [RwLock.step, hf, run, hpc, rwlockUnlock, hc, rwlockQPeek, hnil]
  | @handOver t type next hpc hc hpeek =>
    have hpeek' : rwlockQPeek { s with
      count := s.count - 1, holds := s.holds.erase (t, type) } = some next := hpeek
    have hunlock : rwlockUnlock s t type = (wakeNext { s with
        count := s.count - 1, mode := some next, holds := s.holds.erase (t, type) } next).setPc t
          .idle := by
      unfold rwlockUnlock
      dsimp only
      rw [if_neg (by omega), if_neg (by omega), hpeek']
      cases next <;> rfl
    simp [RwLock.step, hf, run, hpc, hunlock]
  | downgrade hpc => simp [RwLock.step, hf, run, hpc]
/-- **Every event keeps the waiting list and the queues.** -/
theorem WaitOk.move (h : WaitOk s) {e : Event T} (hm : Move s e s') : WaitOk s' := by
  cases hm with
  | callLock hpc => exact h.outside hpc rfl rfl rfl rfl
  | callUnlock hpc => exact h.outside hpc rfl rfl rfl rfl
  | callDowngrade hpc _ _ => exact h.outside hpc rfl rfl rfl rfl
  | badDowngrade hpc _ => exact ⟨h.entries, h.queues, h.firm⟩
  | @interrupt t type hpc =>
    exact ⟨h.entries.keep (by rw [hpc]; rfl), h.queues.pop (by rw [hpc]; rfl) rfl,
      firm_update h.firm (by simp)⟩
  | miss hn => exact h
  | @enter t type u hpc hgo =>
    exact ⟨h.entries.keep (by rw [hpc]; rfl), h.queues.keep (by rw [hpc]; rfl),
      firm_update h.firm (by simp)⟩
  | queueUp hpc hwait hsome =>
    exact ⟨h.entries.push (by rw [hpc]; rfl) rfl, h.queues.push (by rw [hpc]; rfl) rfl,
      firm_update h.firm (by simp)⟩
  | take hpc hgo =>
    exact ⟨h.entries.leave rfl, h.queues.keep (by rw [hpc]; rfl), firm_update h.firm (by simp)⟩
  | again hpc hwait =>
    exact ⟨h.entries.keep (by rw [hpc]; rfl), h.queues.push (by rw [hpc]; rfl) rfl,
      firm_update h.firm (by simp)⟩
  | giveUp hpc =>
    exact ⟨h.entries.leave rfl, h.queues.keep (by rw [hpc]; rfl), firm_update h.firm (by simp)⟩
  | badUnlock hpc hc => exact ⟨h.entries, h.queues, h.firm⟩
  | unlockMore hpc hc | unlockFree hpc hc hw =>
    exact ⟨h.entries.keep (by rw [hpc]; rfl), h.queues.keep (by rw [hpc]; rfl),
      firm_update h.firm (by simp)⟩
  | @handOver t type next hpc hc hw =>
    have h' : WaitOk { s with
        count := s.count - 1, mode := some next, holds := s.holds.erase (t, type) } :=
      ⟨h.entries, h.queues, h.firm⟩
    exact (h'.wakeNext next).outside ((wakeNext_woke _ next).pc_eq hpc rfl) rfl rfl rfl rfl
  | @downgrade t hpc =>
    have h' : WaitOk { s with
        mode := some .read,
        holds := s.holds.map fun h => if h = (t, .write) then (t, .read) else h } :=
      ⟨h.entries, h.queues, h.firm⟩
    exact (h'.wakeNext .read).outside ((condBroadcast_woke _ .read).pc_eq hpc rfl) rfl rfl rfl rfl

theorem not_failed_of_step {e : Event T} (hs : step s e = some s') : s.failed = false := by
  unfold step at hs
  split at hs
  · cases hs
  · simpa using ‹¬ s.failed = true›

end Waiting

end Timix.RwLock
