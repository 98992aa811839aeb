import Timix.RwLock

/-!
# Readers that overtake a waiting writer

A reader that finds somebody waiting enqueues, but the loop behind `rwlock_q_push` waits only
while `lock->mode` is `RWLOCK_WRITE`: in read mode the reader takes its entry out again and
acquires the lock at once.

* `Acquires` — the step with which a call of a thread acquires the lock for reading.
* `StillWaits` — the writer's request is in `lock->waiting`, and the step neither hands the lock
  over to readers nor downgrades it.
* `FindsWrite` — a reader that takes `lock->lock` for the first time finds write mode.
* `Behind` — a queued reader sees write mode; `Behind.move` keeps this while the writer waits.

Principal result: `reader_waits_behind_writer_iff`.
-/

set_option autoImplicit false

namespace Timix.RwLock

variable {T : Type} [DecidableEq T] {s s' : State T} {r t w : T} {e : Event T} {type : Access}

/-- The call of `r` acquires the lock for reading. -/
def Acquires (r : T) (s : State T) (e : Event T) : Prop :=
  ∃ s', step s e = some s' ∧ s'.holds = (r, .read) :: s.holds

/-- `rwlock_unlock` hands the lock over to readers, or `rwlock_downgrade` admits them. -/
def ToReaders (s : State T) : Event T → Prop
  | .run t => (∃ type, s.pc t = .unlocking type ∧ s.count = 1 ∧ rwlockQPeek s = some .read) ∨
      s.pc t = .downgrading
  | _ => False

/-- The request of `w` for writing still waits, and the step gives nothing to readers. -/
def StillWaits (w : T) (s : State T) (e : Event T) : Prop :=
  (w, .write) ∈ s.waiting ∧ ¬ ToReaders s e

/-- If `r` takes `lock->lock` for the first time in a call for reading, the mode is
    `RWLOCK_WRITE`. -/
def FindsWrite (r : T) (s : State T) (e : Event T) : Prop :=
  e = .run r → ∀ u, s.pc r = .entering .read u → s.mode = some .write

instance (s : State T) : (e : Event T) → Decidable (ToReaders s e)
  | .run t => inferInstanceAs (Decidable ((∃ type, s.pc t = .unlocking type ∧ s.count = 1 ∧
      rwlockQPeek s = some .read) ∨ s.pc t = .downgrading))
  | .lock .. | .unlock .. | .downgrade _ | .interrupt _ => isFalse id

instance (w : T) (s : State T) (e : Event T) : Decidable (StillWaits w s e) :=
  inferInstanceAs (Decidable (_ ∧ ¬ _))

instance (r : T) (s : State T) (e : Event T) : Decidable (FindsWrite r s e) :=
  inferInstanceAs (Decidable (_ → ∀ u, s.pc r = .entering .read u → s.mode = some .write))

/-- The two ways to acquire the lock for reading. -/
theorem Move.acquires (hm : Move s e s') (h : s'.holds = (r, .read) :: s.holds) :
    e = .run r ∧ ∃ u,
      (s.pc r = .entering .read u ∧ (s.waiting = [] ∨ s.mode ≠ some .write)) ∨
        (s.pc r = .woken .read u false ∧ s.mode ≠ some .write) := by
  have hgrow : s'.holds.length ≠ s.holds.length + 1 → False := by
    intro hne
    apply hne
    rw [h, List.length_cons]
  have herase : ∀ x, (s.holds.erase x).length ≠ s.holds.length + 1 := by
    intro x
    have := List.length_erase_le (a := x) (l := s.holds)
    omega
  cases hm with
  | @enter t type u hpc hgo =>
    obtain ⟨rfl, rfl⟩ := Prod.mk.inj (List.cons.inj h).1
    refine ⟨rfl, u, Or.inl ⟨hpc, ?_⟩⟩
    rcases hgo with ⟨_, hnil⟩ | hgo
    · exact Or.inl hnil
    · exact Or.inr hgo
  | @take t type u hpc hgo =>
    obtain ⟨rfl, rfl⟩ := Prod.mk.inj (List.cons.inj h).1
    exact ⟨rfl, u, Or.inr ⟨hpc, hgo⟩⟩
  | badUnlock hpc hc => exact (hgrow (herase _)).elim
  | unlockMore hpc hc => exact (hgrow (herase _)).elim
  | unlockFree hpc hc hw => exact (hgrow (herase _)).elim
  | @handOver t a next hpc hc hpeek =>
    refine (hgrow ?_).elim
    show (wakeNext _ next).holds.length ≠ _
    rw [(wakeNext_woke _ next).holds]
    exact herase _
  | @downgrade t hpc =>
    refine (hgrow ?_).elim
    show (condBroadcast _ .read).holds.length ≠ _
    rw [(condBroadcast_woke _ .read).holds, List.length_map]
    omega
  | _ => exact (hgrow (by simp [State.setPc, State.fail, rwlockWait, rwlockQPush])).elim

/-- A reader with an entry sees write mode. -/
def Behind (r : T) (s : State T) : Prop := (r, .read) ∈ s.waiting → s.mode = some .write

/-- While a writer waits, write mode ends only when the lock is given to readers. -/
theorem Move.keeps_write (hm : Move s e s') (hw : StillWaits w s e)
    (hmode : s.mode = some .write) : s'.mode = some .write := by
  obtain ⟨hwait, hno⟩ := hw
  have hne : s.waiting ≠ [] := List.ne_nil_of_mem hwait
  cases hm with
  | @enter t type u hpc hgo =>
    cases type with
    | write => rfl
    | read =>
      rcases hgo with ⟨_, hnil⟩ | hgo
      · exact absurd hnil hne
      · exact absurd hmode hgo
  | @take t type u hpc hgo =>
    cases type with
    | write => rfl
    | read => exact absurd hmode hgo
  | unlockFree hpc hc hnil => exact absurd hnil hne
  | @handOver t a next hpc hc hpeek =>
    cases next with
    | write => exact (wakeNext_woke _ .write).mode
    | read => exact absurd (Or.inl ⟨a, hpc, hc, hpeek⟩) hno
  | downgrade hpc => exact absurd (Or.inr hpc) hno
  | _ => exact hmode

/-- An entry in the queue was there before, or has just been pushed by a thread that must wait. -/
theorem Move.mem_waiting (hm : Move s e s') (h : (r, type) ∈ s'.waiting) :
    (r, type) ∈ s.waiting ∨ s.mustWait type ∧ s'.mode = s.mode := by
  cases hm with
  | @queueUp t a u hpc hwait hsome =>
    rcases List.mem_cons.1 h with heq | h
    · cases heq
      exact Or.inr ⟨hwait, rfl⟩
    · exact Or.inl h
  | take hpc hgo => exact Or.inl (mem_others.1 h).1
  | giveUp hpc => exact Or.inl (mem_others.1 h).1
  | @handOver t a next hpc hc hpeek =>
    have hwoke := (wakeNext_woke { s with
      count := s.count - 1, mode := some next, holds := s.holds.erase (t, a) } next).waiting
    have h : (r, type) ∈ (wakeNext _ next).waiting := h
    rw [hwoke] at h
    exact Or.inl h
  | @downgrade t hpc =>
    have h : (r, type) ∈ (condBroadcast _ .read).waiting := h
    rw [(condBroadcast_woke _ .read).waiting] at h
    exact Or.inl h
  | _ => exact Or.inl h

theorem Behind.move (h : Behind r s) (hm : Move s e s') (hw : StillWaits w s e) :
    Behind r s' := by
  intro hr
  rcases hm.mem_waiting hr with hold | ⟨hwait, hsame⟩
  · exact hm.keeps_write hw (h hold)
  · exact hsame.trans hwait

/-- **One step**: while a writer waits, a reader whose entry sees write mode acquires the lock
exactly if it has just come and finds another mode. -/
theorem Behind.acquires_iff (h : Behind r s) (hwo : WaitOk s) (hw : StillWaits w s e)
    (hs : step s e = some s') : ¬ Acquires r s e ↔ FindsWrite r s e := by
  have hne : s.waiting ≠ [] := List.ne_nil_of_mem hw.1
  constructor
  · rintro hno rfl u hpc
    by_contra hmode
    apply hno
    have hgo : .read = Access.read ∧ s.waiting = [] ∨ ¬ s.mustWait .read := Or.inr hmode
    have hs' := (Move.enter hpc hgo).step hwo (not_failed_of_step hs)
    exact ⟨_, hs', rfl⟩
  · rintro hfinds ⟨s'', hs'', hholds⟩
    obtain ⟨rfl, u, ⟨hpc, hnil | hmode⟩ | ⟨hpc, hmode⟩⟩ := (hwo.step_move hs'').acquires hholds
    · exact hne hnil
    · exact hmode (hfinds rfl u hpc)
    · have hentry : (s.pc r).entry = some .read := by rw [hpc]; rfl
      exact hmode (h ((hwo.entries.mem r .read).2 hentry))

/-- **When a reader waits behind a writer.**  In every run, from a call of `rwlock_lock` for
reading made while a writer's request waits, and as long as that request waits and the lock is
neither handed over nor downgraded to readers: the reader does not acquire the lock exactly if it
finds write mode when it first takes `lock->lock`. -/
theorem reader_waits_behind_writer_iff (r w : T) (u : Bool) (es₁ es₂ : List (Event T))
    {s s₂ : State T} (h₁ : Lts.exec step rwlockInit es₁ = some s)
    (h₂ : Lts.exec step s (.lock r .read u :: es₂) = some s₂)
    (hw : Lts.Along step (StillWaits w) s (.lock r .read u :: es₂)) :
    Lts.Along step (fun s e => ¬ Acquires r s e) s (.lock r .read u :: es₂) ↔
      Lts.Along step (FindsWrite r) s (.lock r .read u :: es₂) := by
  have hwo : WaitOk s :=
    Lts.exec_inv (fun _ _ _ hw hs => hw.move (hw.step_move hs)) waitOk_initial h₁
  have hbehind : Behind r s := by
    intro hr
    have hentry := (hwo.entries.mem r .read).1 hr
    obtain ⟨m, hm, -⟩ := Lts.exec_cons.1 h₂
    cases hwo.step_move hm with
    | callLock hpc =>
      rw [hpc] at hentry
      cases hentry
  refine Lts.along_congr (I := fun s => WaitOk s ∧ Behind r s) ?_ ⟨hwo, hbehind⟩ hw h₂
  intro s e s' hi hok hs
  have hm := hi.1.step_move hs
  exact ⟨hi.2.acquires_iff hi.1 hok hs, hi.1.move hm, hi.2.move hm hok⟩

/-- Thread `t` holds the lock in mode `type`, thread `w` queues up for writing. -/
def writerQueues {T : Type} (type : Access) (t w : T) : List (Event T) :=
  [.lock t type false, .run t, .lock w .write false, .run w]

/-- **A reader overtakes**: thread 0 holds the lock for reading, thread 1 waits for writing, and
thread 2 acquires the lock for reading in its first section. -/
theorem reader_overtakes_writer :
    ∃ s m s₂ : State (Fin 3),
      Lts.exec step rwlockInit (writerQueues .read 0 1) = some s ∧
      Lts.Along step (StillWaits 1) s [.lock 2 .read false, .run 2] ∧
      step s (.lock 2 .read false) = some m ∧ step m (.run 2) = some s₂ ∧
      s₂.holds = [(2, .read), (0, .read)] ∧ (1, .write) ∈ s₂.waiting ∧
      ¬ Lts.Along step (fun s e => ¬ Acquires 2 s e) s [.lock 2 .read false, .run 2] :=
  ⟨_, _, _, rfl, by decide, rfl, rfl, rfl, by decide, fun h => (h.2 _ rfl).1 ⟨_, rfl, rfl⟩⟩

/-- Behind a writer that waits for another writer the reader stays where it is, also when it is
interrupted, gives up and comes back. -/
theorem reader_waits_for_writers :
    ∃ s : State (Fin 3), Lts.exec step rwlockInit (writerQueues .write 0 1) = some s ∧
      Lts.Along step (fun s e => ¬ Acquires 2 s e) s
        [.lock 2 .read false, .run 2, .interrupt 2, .run 2, .lock 2 .read false, .run 2] :=
  ⟨_, rfl, (reader_waits_behind_writer_iff 2 1 false (writerQueues .write 0 1)
    [.run 2, .interrupt 2, .run 2, .lock 2 .read false, .run 2] rfl rfl (by decide)).2
    (by decide)⟩

end Timix.RwLock
