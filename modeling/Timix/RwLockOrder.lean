import Timix.Lib.Arrival
import Timix.RwLock

/-!
# The order of `lock->waiting`

`rwlock_q_push` inserts at the front (`Q_INSERT_FRONT`) and `rwlock_q_peek` looks at the front, so
the entry that `rwlock_unlock` hands the lock to is the one pushed last.

* `qStep` — `rwlock_q_push` of an entry that is not queued, `rwlock_q_remove` of any entry.
* `queueOrder`, `waitingOrder` — the entries in the order in which they were queued, oldest first,
  after a sequence of these calls and after a run of the lock.
* `Move.stacks` — every event pushes in front or takes entries out.

Principal result: `hand_over_to_oldest_iff`.
-/

set_option autoImplicit false

namespace Timix.RwLock

open Arrival (Stacks arrivals arrivals_of_stacks)

/-- A call on `lock->waiting`. -/
inductive QOp (T : Type) where
  | push (t : T) (mode : Access)
  | remove (t : T)
  deriving DecidableEq

variable {T : Type} [DecidableEq T] {s s' : State T} {t : T} {e : Event T} {type : Access}

/-- Only an entry that is not queued is pushed; removing one that is not there changes nothing. -/
def qStep (s : State T) : QOp T → Option (State T)
  | .push t mode =>
    if t ∈ s.waiting.map Prod.fst then none else some (rwlockQPush s t mode)
  | .remove t => some ((rwlockQRemove s t).getD s)

/-- The queued entries in the order of their `rwlock_q_push`, oldest first. -/
def queueOrder (ops : List (QOp T)) : List (T × Access) :=
  arrivals qStep State.waiting [] rwlockInit ops

/-- The waiting requests in the order in which they queued up, longest waiting first. -/
def waitingOrder (es : List (Event T)) : List (T × Access) :=
  arrivals step State.waiting [] rwlockInit es

theorem qRemove_none : ∀ {l : List (T × Access)}, t ∉ l.map Prod.fst → qRemove t l = none
  | [], _ => rfl
  | curr :: l, h => by
    rw [List.map_cons, List.mem_cons, not_or] at h
    rw [qRemove, if_neg (Ne.symm h.1), qRemove_none h.2]
    rfl

theorem qStep_stacks {op : QOp T} (hn : (s.waiting.map Prod.fst).Nodup)
    (hs : qStep s op = some s') :
    (s'.waiting.map Prod.fst).Nodup ∧ Stacks s.waiting s'.waiting := by
  cases op with
  | push t mode =>
    rw [qStep] at hs
    split at hs
    · cases hs
    · rename_i hnew
      cases hs
      refine ⟨List.nodup_cons.2 ⟨hnew, hn⟩, Stacks.push ?_⟩
      intro hmem
      exact hnew (List.mem_map_of_mem hmem)
  | remove t =>
    cases hs
    unfold rwlockQRemove
    by_cases ht : t ∈ s.waiting.map Prod.fst
    · rw [qRemove_eq hn ht]
      exact ⟨hn.sublist (List.filter_sublist.map _), Stacks.leave _⟩
    · rw [qRemove_none ht]
      exact ⟨hn, Stacks.refl _⟩

/-- **Every event pushes in front or takes entries out.** -/
theorem Move.stacks (hw : WaitOk s) (hm : Move s e s') : Stacks s.waiting s'.waiting := by
  cases hm with
  | @queueUp t type u hpc hwait hsome =>
    apply Stacks.push
    intro hmem
    have hentry := (hw.entries.mem t type).1 hmem
    rw [hpc] at hentry
    cases hentry
  | take hpc hgo => exact Stacks.leave _
  | giveUp hpc => exact Stacks.leave _
  | @handOver t a next hpc hc hpeek =>
    have hwoke := (wakeNext_woke { s with
      count := s.count - 1, mode := some next, holds := s.holds.erase (t, a) } next).waiting
    show Stacks s.waiting (wakeNext _ next).waiting
    rw [hwoke]
    exact Stacks.refl _
  | @downgrade t hpc =>
    rw [show (rwlockDowngrade s t).waiting = s.waiting from (condBroadcast_woke _ .read).waiting]
    exact Stacks.refl _
  | _ => exact Stacks.refl _

/-- After any calls, `lock->waiting` is the order of the pushes backwards. -/
theorem queueOrder_eq {ops : List (QOp T)} (h : Lts.exec qStep rwlockInit ops = some s) :
    queueOrder ops = s.waiting.reverse :=
  arrivals_of_stacks (I := fun s : State T => (s.waiting.map Prod.fst).Nodup)
    (fun _ _ _ hn hs => qStep_stacks hn hs) (s := rwlockInit) List.nodup_nil h

/-- After any run, `lock->waiting` has the longest waiting request last. -/
theorem waitingOrder_eq {es : List (Event T)} (h : Lts.exec step rwlockInit es = some s) :
    waitingOrder es = s.waiting.reverse :=
  arrivals_of_stacks (I := WaitOk)
    (fun _ _ _ hw hs => ⟨hw.move (hw.step_move hs), (hw.step_move hs).stacks hw⟩)
    waitOk_initial h

omit [DecidableEq T] in
theorem rwlockQPeek_eq (s : State T) : rwlockQPeek s = s.waiting.head?.map Prod.snd := by
  unfold rwlockQPeek
  cases s.waiting <;> rfl

omit [DecidableEq T] in
/-- `rwlock_q_peek` reports the mode of the newest entry. -/
theorem rwlockQPeek_of_order {order : List (T × Access)} (ho : order = s.waiting.reverse)
    (hne : order ≠ []) : rwlockQPeek s = some (order.getLast hne).2 := by
  subst ho
  have hne' : s.waiting ≠ [] := by
    intro hnil
    exact hne (by rw [hnil]; rfl)
  rw [rwlockQPeek_eq, List.getLast_reverse, List.head?_eq_some_head hne', Option.map_some]

/-- The last holder's unlock gives the lock the mode that `rwlock_q_peek` reports. -/
theorem WaitOk.mode_handed_over (hw : WaitOk s) (hs : step s (.run t) = some s')
    (hpc : s.pc t = .unlocking type) (hc : s.count = 1) : s'.mode = rwlockQPeek s := by
  have hf := not_failed_of_step hs
  cases hp : rwlockQPeek s with
  | none =>
    have hnil : s.waiting = [] := by
      rw [rwlockQPeek_eq, Option.map_eq_none_iff] at hp
      exact List.head?_eq_none_iff.1 hp
    have hs' := (Move.unlockFree hpc hc hnil).step hw hf
    rw [hs] at hs'
    rw [Option.some.inj hs']
    rfl
  | some next =>
    have hs' := (Move.handOver hpc hc hp).step hw hf
    rw [hs] at hs'
    rw [Option.some.inj hs']
    exact (wakeNext_woke _ next).mode

/-- **When the lock goes to the request that has waited longest.**  Whatever was queued and
removed before, `rwlock_q_peek` reports the mode of the oldest entry exactly if the newest entry
asks for the same; and so in every run, when the last holder unlocks with waiters present, for
the mode that `lock->mode` becomes. -/
theorem hand_over_to_oldest_iff :
    (∀ (ops : List (QOp T)) (s : State T), Lts.exec qStep rwlockInit ops = some s →
      ∀ hne : queueOrder ops ≠ [],
        (rwlockQPeek s = some ((queueOrder ops).head hne).2 ↔
          ((queueOrder ops).getLast hne).2 = ((queueOrder ops).head hne).2)) ∧
    ∀ (es : List (Event T)) (s s' : State T) (t : T) (type : Access),
      Lts.exec step rwlockInit es = some s → s.pc t = .unlocking type → s.count = 1 →
      step s (.run t) = some s' → ∀ hne : waitingOrder es ≠ [],
        (s'.mode = some ((waitingOrder es).head hne).2 ↔
          ((waitingOrder es).getLast hne).2 = ((waitingOrder es).head hne).2) := by
  constructor
  · intro ops s h hne
    rw [rwlockQPeek_of_order (queueOrder_eq h) hne, Option.some_inj]
  · intro es s s' t type h hpc hc hs hne
    have hw : WaitOk s :=
      Lts.exec_inv (fun _ _ _ hw hs => hw.move (hw.step_move hs)) waitOk_initial h
    rw [hw.mode_handed_over hs hpc hc, rwlockQPeek_of_order (waitingOrder_eq h) hne,
      Option.some_inj]

/-- Thread `t` holds the lock for writing, thread `u` queues up for writing and thread `w` after it
    for `type`; thread `t` is about to unlock. -/
def writerThen {T : Type} (type : Access) (t u w : T) : List (Event T) :=
  [.lock t .write false, .run t, .lock u .write false, .run u, .lock w type false, .run w,
    .unlock t .write]

/-- **The newest request gets the lock**: thread 1 has waited longer, for writing, and the lock goes
into read mode. -/
theorem hand_over_to_newest :
    (∃ s : State (Fin 3), Lts.exec qStep rwlockInit [.push 1 .write, .push 2 .read] = some s ∧
      queueOrder [.push (1 : Fin 3) .write, .push 2 .read] = [(1, .write), (2, .read)] ∧
      rwlockQPeek s = some .read) ∧
    ∃ s s' : State (Fin 3), Lts.exec step rwlockInit (writerThen .read 0 1 2) = some s ∧
      waitingOrder (writerThen .read (0 : Fin 3) 1 2) = [(1, .write), (2, .read)] ∧
      s.pc 0 = .unlocking .write ∧ s.count = 1 ∧ step s (.run 0) = some s' ∧
      s'.mode = some .read :=
  ⟨⟨_, rfl, by decide, rfl⟩, _, _, rfl, by decide, rfl, rfl, rfl, rfl⟩

/-- Two writers: the lock goes into the mode the longer waiting one asks for. -/
theorem hand_over_to_oldest_writers :
    (∃ (s : State (Fin 3)) (hne : queueOrder (T := Fin 3)
        [.push 0 .read, .push 1 .write, .push 2 .write, .remove 0] ≠ []),
      Lts.exec qStep rwlockInit [.push 0 .read, .push 1 .write, .push 2 .write, .remove 0] =
        some s ∧
      rwlockQPeek s = some ((queueOrder _).head hne).2) ∧
    ∃ (s s' : State (Fin 3)) (hne : waitingOrder (writerThen .write (0 : Fin 3) 1 2) ≠ []),
      Lts.exec step rwlockInit (writerThen .write 0 1 2) = some s ∧ step s (.run 0) = some s' ∧
      s'.mode = some ((waitingOrder _).head hne).2 :=
  ⟨⟨_, by decide, rfl, (hand_over_to_oldest_iff.1 [.push 0 .read, .push 1 .write, .push 2 .write,
      .remove 0] _ rfl (by decide)).2 (by decide)⟩,
    _, _, by decide, rfl, rfl, (hand_over_to_oldest_iff.2 (writerThen .write 0 1 2) _ _ 0 .write
      rfl rfl rfl rfl (by decide)).2 (by decide)⟩

end Timix.RwLock
