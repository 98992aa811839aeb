import Timix.RwLockExclusion

/-!
# The books of a reader/writer lock

Between any two sections under `lock->lock` the count is the number of holds, `lock->waiting`
lists the threads inside the waiting loops, and the lock is unlocked only if nobody holds it and
nobody waits.  None of the assertions fails.

* `Orderly` — a thread unlocks only a hold it has, and calls `rwlock_downgrade` only when its
  assertions are met.
* `Unlocked` — `RWLOCK_UNLOCKED` means a count of 0 and an empty queue; `Unlocked.move` keeps it.

Principal result: `rwlock_books_exact`.
-/

set_option autoImplicit false

namespace Timix.RwLock

variable {T : Type} [DecidableEq T] {s s' : State T} {t : T} {e : Event T} {type : Access}

/-- What the callers promise; `rwlock_downgrade` asserts its part. -/
def Orderly (s : State T) (e : Event T) : Prop :=
  Owns s e ∧ ∀ t, e = .downgrade t → s.mode = some .write ∧ s.count = 1

instance (s : State T) : (e : Event T) → Decidable (Orderly s e)
  | .downgrade t => decidable_of_iff (Owns s (.downgrade t) ∧ s.mode = some .write ∧ s.count = 1)
      ⟨fun h => ⟨h.1, fun _ _ => h.2⟩, fun h => ⟨h.1, h.2 t rfl⟩⟩
  | .lock .. => isTrue ⟨trivial, fun _ h => by cases h⟩
  | .unlock t type => decidable_of_iff (Owns s (.unlock t type))
      ⟨fun h => ⟨h, fun _ h => by cases h⟩, And.left⟩
  | .interrupt _ => isTrue ⟨trivial, fun _ h => by cases h⟩
  | .run _ => isTrue ⟨trivial, fun _ h => by cases h⟩

/-- An unlocked lock is neither held nor waited for. -/
def Unlocked (s : State T) : Prop := s.mode = none → s.count = 0 ∧ s.waiting = []

theorem Unlocked.move (h : Unlocked s) (hh : HoldsOk s) (hm : Move s e s') : Unlocked s' := by
  intro hmode
  cases hm with
  | callLock hpc => exact h hmode
  | callUnlock hpc => exact h hmode
  | callDowngrade hpc hwrite hc => exact h hmode
  | badDowngrade hpc hn => exact h hmode
  | interrupt hpc => exact h hmode
  | miss hn => exact h hmode
  | enter hpc hgo => cases hmode
  | @queueUp t type u hpc hwait hsome =>
    -- nobody queues up for an unlocked lock
    obtain ⟨hc, hnil⟩ := h hmode
    exact absurd hwait (not_mustWait_of_free ⟨hc, hmode⟩)
  | take hpc hgo => cases hmode
  | again hpc hwait => exact h hmode
  | giveUp hpc =>
    obtain ⟨hc, hnil⟩ := h hmode
    refine ⟨hc, ?_⟩
    show others _ s.waiting = []
    rw [hnil]
    rfl
  | @badUnlock t a hpc hc =>
    have := hh.pos (hh.unlocking t a hpc)
    omega
  | unlockMore hpc hc =>
    have := (h hmode).1
    omega
  | unlockFree hpc hc hnil =>
    refine ⟨?_, hnil⟩
    show s.count - 1 = 0
    omega
  | @handOver t a next hpc hc hpeek =>
    have hwoke := (wakeNext_woke { s with
      count := s.count - 1, mode := some next, holds := s.holds.erase (t, a) } next).mode
    have hmode : (wakeNext _ next).mode = none := hmode
    rw [hwoke] at hmode
    cases hmode
  | @downgrade t hpc =>
    have hmode : (condBroadcast _ .read).mode = none := hmode
    rw [(condBroadcast_woke _ .read).mode] at hmode
    cases hmode

/-- The invariant of orderly runs. -/
structure BooksInv (s : State T) : Prop where
  wait : WaitOk s
  holds : HoldsOk s
  unlocked : Unlocked s
  ok : s.failed = false

omit [DecidableEq T] in
theorem booksInv_initial : BooksInv (rwlockInit : State T) :=
  ⟨waitOk_initial, holdsOk_initial, fun _ => ⟨rfl, rfl⟩, rfl⟩

theorem BooksInv.step (h : BooksInv s) (hok : Orderly s e) (hs : step s e = some s') :
    BooksInv s' := by
  have hm := h.wait.step_move hs
  exact ⟨h.wait.move hm, h.holds.move hm (by rintro t a rfl; exact hok.1),
    h.unlocked.move h.holds hm, h.holds.not_failed hm h.ok hok.2⟩

/-- Of entries that belong to different threads, one is a thread's. -/
theorem filter_thread {l : List (T × Access)} (hn : (l.map Prod.fst).Nodup)
    (ht : (t, type) ∈ l) : l.filter (fun e => e.1 = t) = [(t, type)] := by
  induction l with
  | nil => cases ht
  | cons d l ih =>
    obtain ⟨hd, hn⟩ := List.nodup_cons.1 hn
    rcases List.mem_cons.1 ht with rfl | ht
    · have hnone : l.filter (fun e => e.1 = t) = [] := by
        rw [List.filter_eq_nil_iff]
        intro c hc hct
        have hct : c.1 = t := by simpa using hct
        exact hd (List.mem_map.2 ⟨c, hc, hct⟩)
      rw [List.filter_cons_of_pos (by simp), hnone]
    · have hne : d.1 ≠ t := by
        intro hdt
        exact hd (List.mem_map.2 ⟨_, ht, hdt.symm⟩)
      rw [List.filter_cons_of_neg (by simpa using hne), ih hn ht]

/-- A thread inside a waiting loop has one entry in the queue, the others have none. -/
theorem EntriesOk.entries_of {waiting : List (T × Access)} {pc : T → Pc}
    (h : EntriesOk waiting pc) (t : T) :
    waiting.filter (fun e => e.1 = t) = ((pc t).entry.map fun type => (t, type)).toList := by
  cases hp : (pc t).entry with
  | none =>
    rw [Option.map_none, Option.toList_none, List.filter_eq_nil_iff]
    rintro ⟨v, a⟩ hmem hv
    obtain rfl : v = t := by simpa using hv
    rw [(h.mem v a).1 hmem] at hp
    cases hp
  | some type =>
    rw [filter_thread h.once ((h.mem t type).2 hp)]
    rfl

/-- **The bookkeeping is exact and no assertion fails**, in every run of threads that unlock only
their own holds. -/
theorem rwlock_books_exact (es : List (Event T))
    (hok : Lts.Along RwLock.step Orderly rwlockInit es)
    (h : Lts.exec RwLock.step rwlockInit es = some s) :
    s.count = s.holds.length ∧
    (∀ t, s.waiting.filter (fun e => e.1 = t) =
      ((s.pc t).entry.map fun type => (t, type)).toList) ∧
    (s.mode = none → s.count = 0 ∧ s.waiting = []) ∧ s.failed = false := by
  obtain ⟨hw, hh, hu, hf⟩ : BooksInv s :=
    Lts.exec_inv_along Orderly BooksInv (fun _ _ _ hi hok hs => hi.step hok hs) booksInv_initial
      hok h
  exact ⟨hh.count, hw.entries.entries_of, hu, hf⟩

/-- Thread `t` holds the lock for writing, threads `u` and `w` queue up, `u` is interrupted and
    gives up; thread `t` unlocks and `w` acquires the lock. -/
def queueAndGiveUp {T : Type} (t u w : T) : List (Event T) :=
  [.lock t .write false, .run t, .lock u .write false, .run u, .lock w .read true, .run w,
    .interrupt u, .run u, .unlock t .write, .run t, .run w]

theorem queueAndGiveUp_books :
    ∃ s : State (Fin 3), Lts.exec RwLock.step rwlockInit (queueAndGiveUp 0 1 2) = some s ∧
      s.holds = [(2, .read)] ∧ s.count = 1 ∧ s.failed = false := by
  obtain ⟨hcount, -, -, hf⟩ := rwlock_books_exact (queueAndGiveUp (0 : Fin 3) 1 2) (by decide) rfl
  exact ⟨_, rfl, rfl, hcount, hf⟩

end Timix.RwLock
