import Timix.Cond
import Timix.Lib.Owner

/-!
# What one step of the condition-variable code does

`Move s t s'` lists the steps of thread `t`, one constructor for each program point and branch,
with its guard; `step_move` inverts the executable `step`.  The lock invariant `LockInv` (a node
lock or a queue lock is held exactly at the program points between its `mutex_lock` and its
`mutex_unlock`) is the first that uses it.
-/

set_option autoImplicit false

namespace Timix.Cond

open Timix.Queue Owner

variable {T C M : Type} [DecidableEq T] [DecidableEq C] [DecidableEq M]

/-- One step of thread `t` that is not a failing sleep. -/
inductive Move (s : State T C M) (t : T) : State T C M → Prop where
  | callLock (mp : M) (hpc : s.pc t = .idle) : Move s t (s.setPc t (.lockMp mp))
  | callUnlock (mp : M) (hpc : s.pc t = .idle) (hmp : s.mutexes mp = some t) :
      Move s t (s.setMutex mp none)
  | callWait (cv : C) (mp : M) (o : BitVec 32) (hpc : s.pc t = .idle)
      (hmp : s.mutexes mp = some t) (ho : o = 0 ∨ o = COND_UNINTERRUPTABLE) :
      Move s t (s.setPc t (.waitInit cv mp o))
  | callSignal (cv : C) (hpc : s.pc t = .idle) : Move s t (s.setPc t (.signalQ cv))
  | callBroadcast (cv : C) (hpc : s.pc t = .idle) : Move s t (s.setPc t (.bcastQ cv))
  | callInterrupt (u : T) (hpc : s.pc t = .idle) :
      Move s t ((s.log (.intrBegin t u)).setPc t (.intrNode u))
  | lockMp {mp : M} (hpc : s.pc t = .lockMp mp) (hmp : s.mutexes mp = none) :
      Move s t ((s.setMutex mp (some t)).setPc t .idle)
  | waitInit {cv : C} {mp : M} {o : BitVec 32} (hpc : s.pc t = .waitInit cv mp o) :
      Move s t ((s.setHeap (qInitElem s.heap t)).setPc t (.waitNode cv mp o))
  | waitNode {cv : C} {mp : M} {o : BitVec 32} (hpc : s.pc t = .waitNode cv mp o)
      (hfree : s.nodeLock t = none) :
      Move s t ((s.setNodeLock t (some t)).setPc t (.waitQ cv mp o))
  | waitQ {cv : C} {mp : M} {o : BitVec 32} (hpc : s.pc t = .waitQ cv mp o)
      (hfree : s.qLock cv = none) : Move s t ((s.setQLock cv (some t)).setPc t (.waitPush cv mp o))
  | waitPush {cv : C} {mp : M} {o : BitVec 32} (hpc : s.pc t = .waitPush cv mp o) :
      Move s t ((((((condQPush s cv t t).setNodeFlags t (waitFlags o)).setNodeCv t
        (some cv)).setNodeLock t none).log (.waitBegin t cv o)).setPc t (.waitBlock cv mp o))
  | waitBlock {cv : C} {mp : M} {o : BitVec 32} (hpc : s.pc t = .waitBlock cv mp o) :
      Move s t ((s.setBlocked t true).setPc t (.waitUnlockMp cv mp o))
  | waitFail {cv : C} {mp : M} {o : BitVec 32} (hpc : s.pc t = .waitFail cv mp o) :
      Move s t (((condQPop s cv).1.setQLock cv none).endWait t o (-EINTR))
  | waitUnlockMp {cv : C} {mp : M} {o : BitVec 32} (hpc : s.pc t = .waitUnlockMp cv mp o) :
      Move s t ((s.setMutex mp none).setPc t (.waitUnlockQ cv mp o))
  | waitUnlockQ {cv : C} {mp : M} {o : BitVec 32} (hpc : s.pc t = .waitUnlockQ cv mp o) :
      Move s t ((s.setQLock cv none).setPc t (.asleep cv mp o))
  | resume {cv : C} {mp : M} {o : BitVec 32} (hpc : s.pc t = .asleep cv mp o)
      (hb : s.blocked t = false) : Move s t (s.setPc t (.wakeNode cv mp o))
  | wakeNode {cv : C} {mp : M} {o : BitVec 32} (hpc : s.pc t = .wakeNode cv mp o)
      (hfree : s.nodeLock t = none) :
      Move s t ((s.setNodeLock t (some t)).setPc t (.wakeCv cv mp o))
  | wakeCv {cv : C} {mp : M} {o : BitVec 32} (hpc : s.pc t = .wakeCv cv mp o) :
      Move s t ((s.setNodeCv t none).setPc t (.wakeMp mp o))
  | wakeMp {mp : M} {o : BitVec 32} (hpc : s.pc t = .wakeMp mp o) (hmp : s.mutexes mp = none) :
      Move s t ((s.setMutex mp (some t)).setPc t (.wakeTest mp o))
  | wakeTest {mp : M} {o : BitVec 32} (hpc : s.pc t = .wakeTest mp o) :
      Move s t ((s.setNodeLock t none).endWait t o
        (if s.nodeFlags t &&& COND_INTERRUPTED ≠ 0 then -EINTR else 0))
  | signalQ {cv : C} (hpc : s.pc t = .signalQ cv) (hfree : s.qLock cv = none) :
      Move s t ((s.setQLock cv (some t)).setPc t (.signalBody cv))
  | signalBody {cv : C} (hpc : s.pc t = .signalBody cv) :
      Move s t (((doCondSignalUnsafe s cv t .signal).setQLock cv none).setPc t .idle)
  | bcastQ {cv : C} (hpc : s.pc t = .bcastQ cv) (hfree : s.qLock cv = none) :
      Move s t ((s.setQLock cv (some t)).setPc t (.bcastLoop cv))
  | bcastLoop {cv : C} (hpc : s.pc t = .bcastLoop cv) (hne : s.heap.head cv ≠ none) :
      Move s t (doCondSignalUnsafe s cv t .broadcast)
  | bcastEnd {cv : C} (hpc : s.pc t = .bcastLoop cv) (hempty : s.heap.head cv = none) :
      Move s t ((s.setQLock cv none).setPc t .idle)
  | intrNode {u : T} (hpc : s.pc t = .intrNode u) (hfree : s.nodeLock u = none) :
      Move s t ((s.setNodeLock u (some t)).setPc t (.intrCheck u))
  | intrRefuse {u : T} (hpc : s.pc t = .intrCheck u)
      (hno : s.nodeCv u = none ∨ s.nodeFlags u &&& COND_UNINTERRUPTABLE ≠ 0) :
      Move s t ((s.setNodeLock u none).endIntr t u (-EINVAL))
  | intrCheck {u : T} {cv : C} (hpc : s.pc t = .intrCheck u) (hcv : s.nodeCv u = some cv)
      (hfl : s.nodeFlags u &&& COND_UNINTERRUPTABLE = 0) : Move s t (s.setPc t (.intrQ u cv))
  | intrQ {u : T} {cv : C} (hpc : s.pc t = .intrQ u cv) (hfree : s.qLock cv = none) :
      Move s t ((s.setQLock cv (some t)).setPc t (.intrScan u cv (s.heap.head cv)))
  | scanEnd {u : T} {cv : C} (hpc : s.pc t = .intrScan u cv none) :
      Move s t ((s.setQLock cv none).setPc t (.intrMiss u))
  | scanNext {u a : T} {cv : C} (hpc : s.pc t = .intrScan u cv (some a)) (hne : s.nodeTcb a ≠ u) :
      Move s t (s.setPc t (.intrScan u cv (s.heap.next a)))
  | scanHit {u : T} {cv : C} (hpc : s.pc t = .intrScan u cv (some u)) (htcb : s.nodeTcb u = u) :
      Move s t (((s.setHeap (qRemove s.heap cv u)).setQLock cv none).setPc t (.intrHit u))
  | scanPanic {u a : T} {cv : C} (hpc : s.pc t = .intrScan u cv (some a)) (htcb : s.nodeTcb a = u)
      (hne : a ≠ u) : Move s t (s.setPc t .panicked)
  | intrMiss {u : T} (hpc : s.pc t = .intrMiss u) :
      Move s t ((s.setNodeLock u none).endIntr t u (-EINVAL))
  | intrHit {u : T} (hpc : s.pc t = .intrHit u) :
      Move s t (((schedUnblockTcb (s.setNodeFlags u (s.nodeFlags u ||| COND_INTERRUPTED)) t u
        .interrupt).setNodeLock u none).endIntr t u 0)

theorem start_move {s s' : State T C M} {t : T} {c : Call T C M} (hpc : s.pc t = .idle)
    (h : start s t c = some s') : Move s t s' := by
  cases c with
  | mutexLock mp => cases h; exact .callLock mp hpc
  | mutexUnlock mp =>
    simp only [start] at h
    split at h
    · cases h; exact .callUnlock mp hpc ‹_›
    · cases h
  | condWait cv mp =>
    simp only [start] at h
    split at h
    · cases h; exact .callWait cv mp 0 hpc ‹_› (Or.inl rfl)
    · cases h
  | condWaitUninterruptable cv mp =>
    simp only [start] at h
    split at h
    · cases h; exact .callWait cv mp _ hpc ‹_› (Or.inr rfl)
    · cases h
  | condSignal cv => cases h; exact .callSignal cv hpc
  | condBroadcast cv => cases h; exact .callBroadcast cv hpc
  | condInterrupt u => cases h; exact .callInterrupt u hpc

theorem run_move {s s' : State T C M} {t : T} (h : run s t = some s') : Move s t s' := by
  unfold run at h
  split at h
  case h_1 => cases h
  case h_2 mp hpc =>
    split at h
    · cases h; exact .lockMp hpc ‹_›
    · cases h
  case h_3 cv mp o hpc => cases h; exact .waitInit hpc
  case h_4 cv mp o hpc =>
    split at h
    · cases h; exact .waitNode hpc ‹_›
    · cases h
  case h_5 cv mp o hpc =>
    split at h
    · cases h; exact .waitQ hpc ‹_›
    · cases h
  case h_6 cv mp o hpc => cases h; exact .waitPush hpc
  case h_7 cv mp o hpc => cases h; exact .waitBlock hpc
  case h_8 cv mp o hpc => cases h; exact .waitFail hpc
  case h_9 cv mp o hpc => cases h; exact .waitUnlockMp hpc
  case h_10 cv mp o hpc => cases h; exact .waitUnlockQ hpc
  case h_11 cv mp o hpc =>
    split at h
    · cases h
    · cases h; exact .resume hpc (by simpa using ‹¬ s.blocked t = true›)
  case h_12 cv mp o hpc =>
    split at h
    · cases h; exact .wakeNode hpc ‹_›
    · cases h
  case h_13 cv mp o hpc => cases h; exact .wakeCv hpc
  case h_14 mp o hpc =>
    split at h
    · cases h; exact .wakeMp hpc ‹_›
    · cases h
  case h_15 mp o hpc => cases h; exact .wakeTest hpc
  case h_16 cv hpc =>
    split at h
    · cases h; exact .signalQ hpc ‹_›
    · cases h
  case h_17 cv hpc => cases h; exact .signalBody hpc
  case h_18 cv hpc =>
    split at h
    · cases h; exact .bcastQ hpc ‹_›
    · cases h
  case h_19 cv hpc =>
    split at h
    · cases h; exact .bcastLoop hpc ‹_›
    · rename_i hne
      cases h; exact .bcastEnd hpc (not_not.1 hne)
  case h_20 u hpc =>
    split at h
    · cases h; exact .intrNode hpc ‹_›
    · cases h
  case h_21 u hpc =>
    split at h
    · cases h; exact .intrRefuse hpc (Or.inl ‹_›)
    · split at h
      · cases h; exact .intrRefuse hpc (Or.inr ‹_›)
      · rename_i hfl
        cases h; exact .intrCheck hpc ‹_› (not_not.1 hfl)
  case h_22 u cv hpc =>
    split at h
    · cases h; exact .intrQ hpc ‹_›
    · cases h
  case h_23 u cv hpc => cases h; exact .scanEnd hpc
  case h_24 u cv a hpc =>
    split at h
    · split at h
      · rename_i htcb hau
        subst hau
        cases h; exact .scanHit hpc htcb
      · cases h; exact .scanPanic hpc ‹_› ‹_›
    · cases h; exact .scanNext hpc ‹_›
  case h_25 u hpc => cases h; exact .intrMiss hpc
  case h_26 u hpc => cases h; exact .intrHit hpc
  case h_27 => cases h

/-- **Step inversion**: every event but a failing sleep is a `Move`. -/
theorem step_move {s s' : State T C M} {e : Event T C M} (he : ∀ t, e ≠ .eintr t)
    (h : step s e = some s') : ∃ t, Move s t s' := by
  cases e with
  | call t c =>
    simp only [step] at h
    split at h
    · exact ⟨t, start_move ‹_› h⟩
    · cases h
  | run t => exact ⟨t, run_move h⟩
  | eintr t => exact absurd rfl (he t)

/-! ## Locks -/

/-- The node whose lock thread `t` holds at a program point. -/
def Pc.node (t : T) : Pc T C M → Option T
  | .waitQ .. | .waitPush .. | .wakeCv .. | .wakeMp .. | .wakeTest .. => some t
  | .intrCheck u | .intrQ u _ | .intrScan u _ _ | .intrMiss u | .intrHit u => some u
  | _ => none

/-- The condition variable whose `q_lock` is held at a program point. -/
def Pc.q : Pc T C M → Option C
  | .waitPush cv _ _ | .waitBlock cv _ _ | .waitFail cv _ _ | .waitUnlockMp cv _ _
  | .waitUnlockQ cv _ _ | .signalBody cv | .bcastLoop cv | .intrScan _ cv _ => some cv
  | _ => none

/-- The locks agree with the program points; every node's `tcb` is its own thread. -/
structure LockInv (s : State T C M) : Prop where
  tcb : ∀ t, s.nodeTcb t = t
  node : Owned s.nodeLock (fun i => (s.pc i).node i)
  q : Owned s.qLock (fun i => (s.pc i).q)

/-- The program point after a wait returned `ret`. -/
def endPc (o : BitVec 32) (ret : Int) : Pc T C M :=
  if o &&& COND_UNINTERRUPTABLE ≠ 0 ∧ ret ≠ 0 then .panicked else .idle

omit [DecidableEq C] [DecidableEq M] in
theorem endWait_eq (s : State T C M) (t : T) (o : BitVec 32) (ret : Int) :
    s.endWait t o ret = (s.log (.waitEnd t ret)).setPc t (endPc o ret) := by
  unfold State.endWait endPc
  split <;> rfl

omit [DecidableEq T] [DecidableEq C] [DecidableEq M] in
@[simp] theorem endPc_node (t : T) (o : BitVec 32) (ret : Int) :
    (endPc o ret : Pc T C M).node t = none := by
  unfold endPc; split <;> rfl

omit [DecidableEq T] [DecidableEq C] [DecidableEq M] in
@[simp] theorem endPc_q (o : BitVec 32) (ret : Int) : (endPc o ret : Pc T C M).q = none := by
  unfold endPc; split <;> rfl

omit [DecidableEq M] in
/-- `do_cond_signal_unsafe` either finds the queue empty or unblocks the thread at its tail. -/
theorem doCondSignalUnsafe_cases (s : State T C M) (cv : C) (t : T) (k : Ender) :
    (s.heap.tail cv = none ∧ doCondSignalUnsafe s cv t k = s) ∨
    ∃ u, s.heap.tail cv = some u ∧ doCondSignalUnsafe s cv t k =
      schedUnblockTcb (s.setHeap (qRemove s.heap cv u)) t (s.nodeTcb u) k := by
  unfold doCondSignalUnsafe condQPop qGetTail
  cases hu : s.heap.tail cv with
  | none => exact Or.inl ⟨rfl, rfl⟩
  | some u =>
    refine Or.inr ⟨u, rfl, ?_⟩
    simp only [State.setHeap, qInitElem_qRemove]

omit [DecidableEq M] in
/-- `do_cond_signal_unsafe` touches no lock. -/
theorem doCondSignalUnsafe_locks (s : State T C M) (cv : C) (t : T) (k : Ender) :
    (doCondSignalUnsafe s cv t k).nodeTcb = s.nodeTcb ∧
    (doCondSignalUnsafe s cv t k).nodeLock = s.nodeLock ∧
    (doCondSignalUnsafe s cv t k).qLock = s.qLock ∧ (doCondSignalUnsafe s cv t k).pc = s.pc := by
  rcases doCondSignalUnsafe_cases s cv t k with ⟨_, h⟩ | ⟨u, _, h⟩ <;> rw [h] <;>
    exact ⟨rfl, rfl, rfl, rfl⟩

omit [DecidableEq M] in
theorem condQPop_locks (s : State T C M) (cv : C) :
    (condQPop s cv).1.nodeTcb = s.nodeTcb ∧ (condQPop s cv).1.nodeLock = s.nodeLock ∧
    (condQPop s cv).1.qLock = s.qLock ∧ (condQPop s cv).1.pc = s.pc := by
  unfold condQPop
  split <;> exact ⟨rfl, rfl, rfl, rfl⟩

omit [DecidableEq T] [DecidableEq C] [DecidableEq M] in
theorem lockInv_initial : LockInv (initial : State T C M) :=
  ⟨fun _ => rfl, fun i k => by simp [initial, Pc.node], fun i k => by simp [initial, Pc.q]⟩

section Step

variable {s : State T C M} {t : T}

omit [DecidableEq C] [DecidableEq M] in
/-- A step of `t` to `p` that touches no lock. -/
theorem LockInv.keep (h : LockInv s) {p : Pc T C M} (hn : p.node t = (s.pc t).node t)
    (hq : p.q = (s.pc t).q) : LockInv (s.setPc t p) :=
  ⟨h.tcb, h.node.move (f := Pc.node) hn, h.q.move (f := fun _ => Pc.q) hq⟩

omit [DecidableEq C] [DecidableEq M] in
theorem LockInv.takeNode (h : LockInv s) {p : Pc T C M} {u : T} (hfree : s.nodeLock u = none)
    (hi : (s.pc t).node t = none) (hn : p.node t = some u) (hq : p.q = (s.pc t).q) :
    LockInv ((s.setNodeLock u (some t)).setPc t p) :=
  ⟨h.tcb, h.node.take (f := Pc.node) hfree hi hn, h.q.move (f := fun _ => Pc.q) hq⟩

omit [DecidableEq C] [DecidableEq M] in
theorem LockInv.dropNode (h : LockInv s) {p : Pc T C M} {u : T} (hi : (s.pc t).node t = some u)
    (hn : p.node t = none) (hq : p.q = (s.pc t).q) :
    LockInv ((s.setNodeLock u none).setPc t p) :=
  ⟨h.tcb, h.node.drop (f := Pc.node) hi hn, h.q.move (f := fun _ => Pc.q) hq⟩

omit [DecidableEq M] in
theorem LockInv.takeQ (h : LockInv s) {p : Pc T C M} {cv : C} (hfree : s.qLock cv = none)
    (hi : (s.pc t).q = none) (hn : p.node t = (s.pc t).node t) (hq : p.q = some cv) :
    LockInv ((s.setQLock cv (some t)).setPc t p) :=
  ⟨h.tcb, h.node.move (f := Pc.node) hn, h.q.take (f := fun _ => Pc.q) hfree hi hq⟩

omit [DecidableEq M] in
theorem LockInv.dropQ (h : LockInv s) {p : Pc T C M} {cv : C} (hi : (s.pc t).q = some cv)
    (hn : p.node t = (s.pc t).node t) (hq : p.q = none) :
    LockInv ((s.setQLock cv none).setPc t p) :=
  ⟨h.tcb, h.node.move (f := Pc.node) hn, h.q.drop (f := fun _ => Pc.q) hi hq⟩

omit [DecidableEq T] [DecidableEq C] [DecidableEq M] in
/-- The lock invariant only looks at the locks, the `tcb` fields and the program points. -/
theorem LockInv.congr {s' : State T C M} (h : LockInv s) (htcb : s'.nodeTcb = s.nodeTcb)
    (hn : s'.nodeLock = s.nodeLock) (hq : s'.qLock = s.qLock) (hpc : s'.pc = s.pc) :
    LockInv s' := by
  obtain ⟨h1, h2, h3⟩ := h
  exact ⟨htcb ▸ h1, by rw [hn, hpc]; exact h2, by rw [hq, hpc]; exact h3⟩

omit [DecidableEq C] [DecidableEq M] in
/-- `cond_interrupt` unlocks the node and returns. -/
theorem LockInv.endIntr (h : LockInv s) {u : T} {ret : Int} (hi : (s.pc t).node t = some u)
    (hq : (s.pc t).q = none) : LockInv ((s.setNodeLock u none).endIntr t u ret) := by
  have h' : LockInv (s.log (.intrEnd t u ret)) := h.congr rfl rfl rfl rfl
  exact h'.dropNode (p := .idle) hi rfl hq.symm

/-- **Every step keeps the lock invariant.** -/
theorem LockInv.move {s' : State T C M} (h : LockInv s) (hm : Move s t s') : LockInv s' := by
  cases hm with
  | callLock mp hpc => exact h.keep (by rw [hpc]; rfl) (by rw [hpc]; rfl)
  | callUnlock mp hpc hmp => exact h.congr rfl rfl rfl rfl
  | callWait cv mp o hpc hmp ho => exact h.keep (by rw [hpc]; rfl) (by rw [hpc]; rfl)
  | callSignal cv hpc => exact h.keep (by rw [hpc]; rfl) (by rw [hpc]; rfl)
  | callBroadcast cv hpc => exact h.keep (by rw [hpc]; rfl) (by rw [hpc]; rfl)
  | callInterrupt u hpc =>
    have h' : LockInv (s.log (.intrBegin t u)) := h.congr rfl rfl rfl rfl
    exact h'.keep (by show _ = (s.pc t).node t; rw [hpc]; rfl)
      (by show _ = (s.pc t).q; rw [hpc]; rfl)
  | @lockMp mp hpc hmp =>
    have h' : LockInv (s.setMutex mp (some t)) := h.congr rfl rfl rfl rfl
    exact h'.keep (by show _ = (s.pc t).node t; rw [hpc]; rfl)
      (by show _ = (s.pc t).q; rw [hpc]; rfl)
  | waitInit hpc =>
    have h' : LockInv (s.setHeap (qInitElem s.heap t)) := h.congr rfl rfl rfl rfl
    exact h'.keep (by show _ = (s.pc t).node t; rw [hpc]; rfl)
      (by show _ = (s.pc t).q; rw [hpc]; rfl)
  | waitNode hpc hfree =>
    exact h.takeNode hfree (by rw [hpc]; rfl) rfl (by rw [hpc]; rfl)
  | waitQ hpc hfree => exact h.takeQ hfree (by rw [hpc]; rfl) (by rw [hpc]; rfl) rfl
  | @waitPush cv mp o hpc =>
    have h' : LockInv ((((condQPush s cv t t).setNodeFlags t (waitFlags o)).setNodeCv t
        (some cv)).log (.waitBegin t cv o)) := by
      refine h.congr ?_ rfl rfl rfl
      show Function.update s.nodeTcb t t = s.nodeTcb
      rw [Function.update_eq_self_iff, h.tcb]
    exact h'.dropNode (t := t) (u := t) (p := .waitBlock cv mp o)
      (by show (s.pc t).node t = some t; rw [hpc]; rfl) rfl
      (by show _ = (s.pc t).q; rw [hpc]; rfl)
  | waitBlock hpc =>
    have h' : LockInv (s.setBlocked t true) := h.congr rfl rfl rfl rfl
    exact h'.keep (by show _ = (s.pc t).node t; rw [hpc]; rfl)
      (by show _ = (s.pc t).q; rw [hpc]; rfl)
  | @waitFail cv mp o hpc =>
    obtain ⟨e1, e2, e3, e4⟩ := condQPop_locks s cv
    have h' : LockInv (condQPop s cv).1 := h.congr e1 e2 e3 e4
    have h'' : LockInv ((((condQPop s cv).1).log (.waitEnd t (-EINTR))).setQLock cv none |>.setPc t
        (endPc o (-EINTR))) := by
      have h1 : LockInv ((condQPop s cv).1.log (.waitEnd t (-EINTR))) := h'.congr rfl rfl rfl rfl
      refine h1.dropQ ?_ ?_ (endPc_q _ _)
      · show ((condQPop s cv).1.pc t).q = some cv
        rw [e4, hpc]; rfl
      · show _ = ((condQPop s cv).1.pc t).node t
        rw [e4, hpc, endPc_node]; rfl
    rw [endWait_eq]
    exact h''
  | @waitUnlockMp cv mp o hpc =>
    have h' : LockInv (s.setMutex mp none) := h.congr rfl rfl rfl rfl
    exact h'.keep (by show _ = (s.pc t).node t; rw [hpc]; rfl)
      (by show _ = (s.pc t).q; rw [hpc]; rfl)
  | waitUnlockQ hpc => exact h.dropQ (by rw [hpc]; rfl) (by rw [hpc]; rfl) rfl
  | resume hpc hb => exact h.keep (by rw [hpc]; rfl) (by rw [hpc]; rfl)
  | wakeNode hpc hfree => exact h.takeNode hfree (by rw [hpc]; rfl) rfl (by rw [hpc]; rfl)
  | wakeCv hpc =>
    have h' : LockInv (s.setNodeCv t none) := h.congr rfl rfl rfl rfl
    exact h'.keep (by show _ = (s.pc t).node t; rw [hpc]; rfl)
      (by show _ = (s.pc t).q; rw [hpc]; rfl)
  | @wakeMp mp o hpc hmp =>
    have h' : LockInv (s.setMutex mp (some t)) := h.congr rfl rfl rfl rfl
    exact h'.keep (by show _ = (s.pc t).node t; rw [hpc]; rfl)
      (by show _ = (s.pc t).q; rw [hpc]; rfl)
  | @wakeTest mp o hpc =>
    rw [endWait_eq]
    have h' : LockInv (s.log (.waitEnd t
        (if s.nodeFlags t &&& COND_INTERRUPTED ≠ 0 then -EINTR else 0))) :=
      h.congr rfl rfl rfl rfl
    exact h'.dropNode (u := t) (by show (s.pc t).node t = _; rw [hpc]; rfl) (endPc_node _ _ _)
      (by show _ = (s.pc t).q; rw [hpc, endPc_q]; rfl)
  | signalQ hpc hfree => exact h.takeQ hfree (by rw [hpc]; rfl) (by rw [hpc]; rfl) rfl
  | @signalBody cv hpc =>
    obtain ⟨e1, e2, e3, e4⟩ := doCondSignalUnsafe_locks s cv t .signal
    have h' : LockInv (doCondSignalUnsafe s cv t .signal) := h.congr e1 e2 e3 e4
    exact h'.dropQ (by rw [e4, hpc]; rfl) (by rw [e4, hpc]; rfl) rfl
  | bcastQ hpc hfree => exact h.takeQ hfree (by rw [hpc]; rfl) (by rw [hpc]; rfl) rfl
  | @bcastLoop cv hpc hne =>
    obtain ⟨e1, e2, e3, e4⟩ := doCondSignalUnsafe_locks s cv t .broadcast
    exact h.congr e1 e2 e3 e4
  | bcastEnd hpc hempty => exact h.dropQ (by rw [hpc]; rfl) (by rw [hpc]; rfl) rfl
  | intrNode hpc hfree => exact h.takeNode hfree (by rw [hpc]; rfl) rfl (by rw [hpc]; rfl)
  | intrRefuse hpc hno => exact h.endIntr (by rw [hpc]; rfl) (by rw [hpc]; rfl)
  | intrCheck hpc hcv hfl => exact h.keep (by rw [hpc]; rfl) (by rw [hpc]; rfl)
  | intrQ hpc hfree => exact h.takeQ hfree (by rw [hpc]; rfl) (by rw [hpc]; rfl) rfl
  | scanEnd hpc => exact h.dropQ (by rw [hpc]; rfl) (by rw [hpc]; rfl) rfl
  | scanNext hpc hne => exact h.keep (by rw [hpc]; rfl) (by rw [hpc]; rfl)
  | @scanHit u cv hpc htcb =>
    have h' : LockInv (s.setHeap (qRemove s.heap cv u)) := h.congr rfl rfl rfl rfl
    exact h'.dropQ (by show (s.pc t).q = some cv; rw [hpc]; rfl)
      (by show _ = (s.pc t).node t; rw [hpc]; rfl) rfl
  | scanPanic hpc htcb hne => exact absurd ((h.tcb _).symm.trans htcb) hne
  | intrMiss hpc => exact h.endIntr (by rw [hpc]; rfl) (by rw [hpc]; rfl)
  | @intrHit u hpc =>
    have h' : LockInv (schedUnblockTcb (s.setNodeFlags u (s.nodeFlags u ||| COND_INTERRUPTED)) t u
        .interrupt) := h.congr rfl rfl rfl rfl
    exact h'.endIntr (by show (s.pc t).node t = _; rw [hpc]; rfl)
      (by show (s.pc t).q = _; rw [hpc]; rfl)

end Step

end Timix.Cond
