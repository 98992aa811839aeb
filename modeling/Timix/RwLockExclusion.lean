import Timix.RwLock

/-!
# Exclusion of a reader/writer lock

A reader that takes `lock->lock` while the lock is held for writing queues up only if somebody
waits already (`rwlock_q_peek`); with `lock->waiting` empty it acquires the lock next to the
writer.  All other paths keep readers and writers apart.

* `Owns` — a thread unlocks or downgrades only a hold it has.
* `NoBarge` — the section does not let a reader in next to a writer.
* `HoldsOk` — `lock->count` counts the holds.
* `Excl` — nobody holds the lock, or one thread for writing, or all holders for reading, and
  `lock->mode` says which.

Principal result: `rwlock_exclusion_along`.
-/

set_option autoImplicit false

namespace Timix.RwLock

open Owner (eq_of_update)

variable {T : Type} [DecidableEq T] {s s' : State T} {t v : T} {e : Event T} {type : Access}

/-! ## Holds -/

/-- What the callers promise. -/
def Owns (s : State T) : Event T → Prop
  | .unlock t type => (t, type) ∈ s.holds
  | .downgrade t => ∃ h ∈ s.holds, h.1 = t
  | _ => True

instance (s : State T) : (e : Event T) → Decidable (Owns s e)
  | .unlock t type => inferInstanceAs (Decidable ((t, type) ∈ s.holds))
  | .downgrade t => inferInstanceAs (Decidable (∃ h ∈ s.holds, h.1 = t))
  | .lock .. | .interrupt _ | .run _ => isTrue trivial

/-- The point at which the event puts a thread that begins a call. -/
def Event.begins : Event T → Option (T × Pc)
  | .lock t type u => some (t, .entering type u)
  | .unlock t type => some (t, .unlocking type)
  | .downgrade t => some (t, .downgrading)
  | _ => none

omit [DecidableEq T] in
/-- Waking does not bring a thread to a point that does not sleep or wake. -/
theorem Woke.pc_of (h : Woke s s') {p : Pc} (hv : s'.pc v = p) (hp : p.entry = none) :
    s.pc v = p := by
  rcases h.pc v with hw | hw
  · rw [← hw, hv]
  · rw [hw] at hv
    cases hs : s.pc v <;> rw [hs] at hv <;> first | exact hv | (rw [← hv] at hp; cases hp)

/-- A thread about to unlock or downgrade was so before, or begins the call. -/
theorem Move.begun (hm : Move s e s') {p : Pc} (hp : p.entry = none) (hidle : p ≠ .idle)
    (h : s'.pc v = p) : s.pc v = p ∨ e.begins = some (v, p) := by
  have hcall : ∀ {t : T} {q : Pc}, Function.update s.pc t q v = p →
      s.pc v = p ∨ some (t, q) = some (v, p) := by
    intro t q h
    by_cases hv : v = t
    · subst hv
      rw [Function.update_self] at h
      rw [h]
      exact Or.inr rfl
    · rw [Function.update_of_ne hv] at h
      exact Or.inl h
  have hne : ∀ {q : Pc}, q.entry.isSome = true → q ≠ p := by
    rintro q hq rfl
    rw [hp] at hq
    cases hq
  cases hm with
  | callLock hpc | callUnlock hpc => exact hcall h
  | callDowngrade hpc hm hc => exact hcall h
  | badDowngrade hpc hn => exact Or.inl h
  | interrupt hpc => exact Or.inl (eq_of_update h (hne rfl))
  | miss hn => exact Or.inl h
  | enter hpc hgo | take hpc hgo => exact Or.inl (eq_of_update h hidle.symm)
  | queueUp hpc hwait hsome => exact Or.inl (eq_of_update h (hne rfl))
  | again hpc hwait => exact Or.inl (eq_of_update h (hne rfl))
  | giveUp hpc => exact Or.inl (eq_of_update h hidle.symm)
  | badUnlock hpc hc => exact Or.inl h
  | unlockMore hpc hc => exact Or.inl (eq_of_update h hidle.symm)
  | unlockFree hpc hc hw => exact Or.inl (eq_of_update h hidle.symm)
  | handOver hpc hc hw =>
    have h₁ := eq_of_update h hidle.symm
    have h₂ := (wakeNext_woke _ _).pc_of h₁ hp
    exact Or.inl h₂
  | downgrade hpc =>
    have h₁ := eq_of_update h hidle.symm
    have h₂ := (condBroadcast_woke _ _).pc_of h₁ hp
    exact Or.inl h₂

/-- The holds of other threads stay. -/
theorem Move.holds_other (hm : Move s e s') (he : e ≠ .run v) (h : (v, type) ∈ s.holds) :
    (v, type) ∈ s'.holds := by
  have herase : ∀ {t : T} {a : Access}, e = .run t → (v, type) ∈ s.holds.erase (t, a) := by
    rintro t a rfl
    refine (List.mem_erase_of_ne ?_).2 h
    rintro hvt
    cases hvt
    exact he rfl
  cases hm with
  | callLock hpc | callUnlock hpc => exact h
  | callDowngrade hpc hm hc => exact h
  | badDowngrade hpc hn => exact h
  | interrupt hpc => exact h
  | miss hn => exact h
  | enter hpc hgo | take hpc hgo => exact List.mem_cons_of_mem _ h
  | queueUp hpc hwait hsome => exact h
  | again hpc hwait => exact h
  | giveUp hpc => exact h
  | badUnlock hpc hc => exact herase rfl
  | unlockMore hpc hc => exact herase rfl
  | unlockFree hpc hc hw => exact herase rfl
  | @handOver t a next hpc hc hw =>
    show (v, type) ∈ (wakeNext _ next).holds
    rw [(wakeNext_woke _ next).holds]
    exact herase rfl
  | @downgrade t hpc =>
    show (v, type) ∈ (condBroadcast _ .read).holds
    rw [(condBroadcast_woke _ .read).holds]
    refine List.mem_map.2 ⟨(v, type), h, if_neg ?_⟩
    intro hvt
    cases hvt
    exact he rfl

/-- `lock->count` counts the holds, and who is about to unlock has the hold. -/
structure HoldsOk (s : State T) : Prop where
  count : s.count = s.holds.length
  unlocking : ∀ t type, s.pc t = .unlocking type → (t, type) ∈ s.holds

omit [DecidableEq T] in
theorem HoldsOk.pos (h : HoldsOk s) (ht : (t, type) ∈ s.holds) : 1 ≤ s.count := by
  have := List.length_pos_of_mem ht
  have := h.count
  omega

theorem HoldsOk.move (h : HoldsOk s) (hm : Move s e s')
    (hok : ∀ t type, e = .unlock t type → (t, type) ∈ s.holds) : HoldsOk s' := by
  constructor
  · have hc := h.count
    have herase : ∀ {t type}, s.pc t = .unlocking type →
        s.count - 1 = (s.holds.erase (t, type)).length := by
      intro t type hpc
      have hmem := h.unlocking t type hpc
      have hpos := List.length_pos_of_mem hmem
      rw [List.length_erase_of_mem hmem]
      omega
    cases hm with
    | callLock hpc | callUnlock hpc => exact hc
    | callDowngrade hpc _ _ => exact hc
    | badDowngrade hpc hn => exact hc
    | interrupt hpc => exact hc
    | miss hn => exact hc
    | enter hpc hgo | take hpc hgo =>
      show s.count + 1 = ((_, _) :: s.holds).length
      rw [List.length_cons]
      omega
    | queueUp hpc hwait hsome => exact hc
    | again hpc hwait => exact hc
    | giveUp hpc => exact hc
    | badUnlock hpc _ => exact herase hpc
    | unlockMore hpc _ => exact herase hpc
    | unlockFree hpc _ hw => exact herase hpc
    | @handOver t a next hpc _ hw =>
      show (wakeNext _ next).count = (wakeNext _ next).holds.length
      rw [(wakeNext_woke _ next).count, (wakeNext_woke _ next).holds]
      exact herase hpc
    | @downgrade t hpc =>
      show (condBroadcast _ .read).count = (condBroadcast _ .read).holds.length
      rw [(condBroadcast_woke _ .read).count, (condBroadcast_woke _ .read).holds, List.length_map]
      exact hc
  · intro v a hv
    rcases hm.begun (p := .unlocking a) rfl (by simp) hv with hv₀ | he
    · have hmem := h.unlocking v a hv₀
      by_cases hev : e = .run v
      · -- the section of `v` itself: it leaves the call, or finds the count at zero
        subst hev
        have hpos := h.pos hmem
        cases hm with
        | badUnlock hpc hc => omega
        | handOver | unlockMore | unlockFree =>
          rw [show (State.setPc _ v .idle).pc v = .idle from Function.update_self ..] at hv
          cases hv
        | enter hpc _ | queueUp hpc _ _ | take hpc _ | again hpc _ | giveUp hpc | downgrade hpc =>
          rw [hpc] at hv₀
          cases hv₀
      · exact hm.holds_other hev hmem
    · cases e with
      | unlock t b =>
        cases he
        exact hm.holds_other (by simp) (hok v a rfl)
      | _ => cases he

/-- **The assertions hold** if `rwlock_downgrade` is called with its own met. -/
theorem HoldsOk.not_failed (h : HoldsOk s) (hm : Move s e s') (hf : s.failed = false)
    (hok : ∀ t, e = .downgrade t → s.mode = some .write ∧ s.count = 1) : s'.failed = false := by
  cases hm with
  | badDowngrade hpc hn => exact absurd (hok _ rfl) hn
  | @badUnlock t a hpc hc =>
    have := h.pos (h.unlocking t a hpc)
    omega
  | handOver hpc hc hw => exact (wakeNext_woke _ _).failed.trans hf
  | downgrade hpc => exact (condBroadcast_woke _ _).failed.trans hf
  | _ => exact hf

/-- Who is about to downgrade has a hold. -/
def DowngradesOwn (s : State T) : Prop :=
  ∀ t, s.pc t = .downgrading → ∃ type, (t, type) ∈ s.holds

theorem DowngradesOwn.move (h : DowngradesOwn s) (hm : Move s e s')
    (hok : ∀ t, e = .downgrade t → ∃ h ∈ s.holds, h.1 = t) : DowngradesOwn s' := by
  intro v hv
  rcases hm.begun (p := .downgrading) rfl (by simp) hv with hv₀ | he
  · obtain ⟨a, ha⟩ := h v hv₀
    by_cases hev : e = .run v
    · subst hev
      cases hm with
      | downgrade hpc =>
        rw [show (rwlockDowngrade s v).pc v = .idle from Function.update_self ..] at hv
        cases hv
      | badUnlock hpc _ | handOver hpc _ _ | unlockMore hpc _ | unlockFree hpc _ _ | enter hpc _
      | queueUp hpc _ _ | take hpc _ | again hpc _ | giveUp hpc =>
        rw [hpc] at hv₀
        cases hv₀
    · exact ⟨a, hm.holds_other hev ha⟩
  · cases e with
    | downgrade t =>
      cases he
      obtain ⟨⟨_, a⟩, ha, rfl⟩ := hok v rfl
      exact ⟨a, hm.holds_other (by simp) ha⟩
    | _ => cases he

/-! ## Exclusion -/

/-- The section does not let a reader in on finding nobody waiting, while the lock is held for
    writing. -/
def NoBarge (s : State T) : Event T → Prop
  | .run t => ∀ u, s.pc t = .entering .read u → s.waiting = [] → s.count ≠ 0 →
      s.mode ≠ some .write
  | _ => True

/-- A thread unlocks or downgrades only a hold it has, and no reader is let in next to a
    writer. -/
def StepOk (s : State T) (e : Event T) : Prop := Owns s e ∧ NoBarge s e

instance (s : State T) : (e : Event T) → Decidable (NoBarge s e)
  | .run t => inferInstanceAs (Decidable (∀ u, s.pc t = .entering .read u → s.waiting = [] →
      s.count ≠ 0 → s.mode ≠ some .write))
  | .lock .. | .unlock .. | .downgrade _ | .interrupt _ => isTrue trivial

instance (s : State T) (e : Event T) : Decidable (StepOk s e) :=
  inferInstanceAs (Decidable (_ ∧ _))

/-- Nobody holds the lock, or one thread for writing, or all holders for reading. -/
def Excl (mode : Option Access) (holds : List (T × Access)) : Prop :=
  holds = [] ∨ (∃ t, holds = [(t, .write)] ∧ mode = some .write) ∨
    (mode = some .read ∧ ∀ h ∈ holds, h.2 = .read)

variable {mode : Option Access} {holds : List (T × Access)}

theorem Excl.erase (h : Excl mode holds) (x : T × Access) : Excl mode (holds.erase x) := by
  rcases h with rfl | ⟨t, rfl, hmode⟩ | ⟨hmode, hread⟩
  · exact Or.inl rfl
  · by_cases hx : (t, Access.write) = x
    · left
      rw [hx]
      simp
    · right; left
      refine ⟨t, ?_, hmode⟩
      rw [List.erase_of_not_mem]
      simpa using Ne.symm hx
  · exact Or.inr (Or.inr ⟨hmode, fun d hd => hread d (List.mem_of_mem_erase hd)⟩)

omit [DecidableEq T] in
/-- A reader is let in if nobody holds the lock or it is not in write mode. -/
theorem Excl.addReader (h : Excl mode holds) (hgo : holds = [] ∨ mode ≠ some .write) :
    Excl (some .read) ((t, .read) :: holds) := by
  refine Or.inr (Or.inr ⟨rfl, ?_⟩)
  intro d hd
  rcases List.mem_cons.1 hd with rfl | hd
  · rfl
  · rcases h with rfl | ⟨w, rfl, hmode⟩ | ⟨_, hread⟩
    · cases hd
    · rcases hgo with hnil | hne
      · cases hnil
      · exact absurd hmode hne
    · exact hread d hd

omit [DecidableEq T] in
theorem Excl.addWriter (hnil : holds = []) : Excl (some .write) ((t, .write) :: holds) := by
  subst hnil
  exact Or.inr (Or.inl ⟨t, rfl, rfl⟩)

/-- **The holder downgrades.** -/
theorem Excl.downgrade (h : Excl mode holds) (ht : ∃ type, (t, type) ∈ holds) :
    Excl (some .read) (holds.map fun h => if h = (t, .write) then (t, .read) else h) := by
  refine Or.inr (Or.inr ⟨rfl, ?_⟩)
  intro d hd
  obtain ⟨c, hc, rfl⟩ := List.mem_map.1 hd
  obtain ⟨a, ha⟩ := ht
  rcases h with rfl | ⟨w, rfl, _⟩ | ⟨_, hread⟩
  · cases hc
  · obtain rfl := List.mem_singleton.1 hc
    cases List.mem_singleton.1 ha
    simp
  · split
    · rfl
    · exact hread c hc

omit [DecidableEq T] in
theorem HoldsOk.nil_of_count (h : HoldsOk s) (hc : s.count = 0) : s.holds = [] := by
  have := h.count
  exact List.length_eq_zero_iff.1 (by omega)

omit [DecidableEq T] in
/-- A lock acquired by somebody who need not wait. -/
theorem Excl.acquire (h : Excl s.mode s.holds) (hh : HoldsOk s)
    (hgo : type = .read ∧ s.holds = [] ∨ ¬ s.mustWait type) :
    Excl (some type) ((t, type) :: s.holds) := by
  cases type with
  | read =>
    apply h.addReader
    rcases hgo with ⟨_, hnil⟩ | hgo
    · exact Or.inl hnil
    · exact Or.inr hgo
  | write =>
    apply Excl.addWriter
    rcases hgo with ⟨hr, _⟩ | hgo
    · cases hr
    · exact hh.nil_of_count (not_not.1 hgo)

/-- **Every step that lets no reader in next to a writer keeps exclusion.** -/
theorem Excl.move (h : Excl s.mode s.holds) (hh : HoldsOk s) (hd : DowngradesOwn s)
    (hm : Move s e s') (hok : NoBarge s e) : Excl s'.mode s'.holds := by
  have hlast : ∀ {t a}, s.pc t = .unlocking a → s.count = 1 → s.holds.erase (t, a) = [] := by
    intro t a hpc hc
    have := hh.count
    apply List.length_eq_zero_iff.1
    rw [List.length_erase_of_mem (hh.unlocking t a hpc)]
    omega
  cases hm with
  | callLock hpc | callUnlock hpc => exact h
  | callDowngrade hpc hm hc => exact h
  | badDowngrade hpc hn => exact h
  | interrupt hpc => exact h
  | miss hn => exact h
  | @enter t type u hpc hgo =>
    apply h.acquire hh
    rcases hgo with ⟨rfl, hw⟩ | hgo
    · by_cases hc : s.count = 0
      · exact Or.inl ⟨rfl, hh.nil_of_count hc⟩
      · exact Or.inr (hok u hpc hw hc)
    · exact Or.inr hgo
  | queueUp hpc hwait hsome => exact h
  | take hpc hgo => exact h.acquire hh (Or.inr hgo)
  | again hpc hwait => exact h
  | giveUp hpc => exact h
  | badUnlock hpc hc => exact h.erase _
  | unlockMore hpc hc => exact h.erase _
  | unlockFree hpc hc hw => exact Or.inl (hlast hpc hc)
  | @handOver t a next hpc hc hw =>
    left
    show (wakeNext _ next).holds = []
    rw [(wakeNext_woke _ next).holds]
    exact hlast hpc hc
  | @downgrade t hpc =>
    show Excl (condBroadcast _ .read).mode (condBroadcast _ .read).holds
    rw [(condBroadcast_woke _ .read).mode, (condBroadcast_woke _ .read).holds]
    exact h.downgrade (hd t hpc)

/-- The invariant behind exclusion. -/
structure ExclInv (s : State T) : Prop where
  wait : WaitOk s
  holds : HoldsOk s
  downgrades : DowngradesOwn s
  excl : Excl s.mode s.holds

omit [DecidableEq T] in
theorem holdsOk_initial : HoldsOk (rwlockInit : State T) where
  count := rfl
  unlocking := fun _ _ h => by cases h

omit [DecidableEq T] in
theorem downgradesOwn_initial : DowngradesOwn (rwlockInit : State T) := fun _ h => by cases h

omit [DecidableEq T] in
theorem exclInv_initial : ExclInv (rwlockInit : State T) :=
  ⟨waitOk_initial, holdsOk_initial, downgradesOwn_initial, Or.inl rfl⟩

theorem ExclInv.step (h : ExclInv s) (hok : StepOk s e) (hs : step s e = some s') :
    ExclInv s' := by
  have hm := h.wait.step_move hs
  exact ⟨h.wait.move hm, h.holds.move hm (by rintro t a rfl; exact hok.1),
    h.downgrades.move hm (by rintro t rfl; exact hok.1),
    h.excl.move h.holds h.downgrades hm hok.2⟩

/-- **Readers and writers exclude each other**, in a run in which no `rwlock_lock` for reading
finds `lock->waiting` empty while the lock is held for writing: a thread that holds the lock for
writing is the only holder, `lock->mode` is `RWLOCK_WRITE` and `lock->count` is 1; while threads
hold it for reading `lock->mode` is `RWLOCK_READ`. -/
theorem rwlock_exclusion_along (es : List (Event T))
    (hok : Lts.Along RwLock.step StepOk rwlockInit es)
    (h : Lts.exec RwLock.step rwlockInit es = some s) :
    (∀ t, (t, .write) ∈ s.holds →
      (∀ u type, (u, type) ∈ s.holds → u = t) ∧ s.mode = some .write ∧ s.count = 1) ∧
    ∀ t, (t, .read) ∈ s.holds → s.mode = some .read := by
  obtain ⟨_, hh, _, hx⟩ : ExclInv s :=
    Lts.exec_inv_along StepOk ExclInv (fun _ _ _ hi hok hs => hi.step hok hs) exclInv_initial hok h
  have hcount := hh.count
  constructor
  · intro t ht
    rcases hx with hnil | ⟨w, hw, hmode⟩ | ⟨_, hread⟩
    · rw [hnil] at ht
      cases ht
    · rw [hw] at ht hcount ⊢
      cases List.mem_singleton.1 ht
      refine ⟨?_, hmode, hcount⟩
      intro u type hu
      cases List.mem_singleton.1 hu
      rfl
    · cases hread _ ht
  · intro t ht
    rcases hx with hnil | ⟨w, hw, _⟩ | ⟨hmode, _⟩
    · rw [hnil] at ht
      cases ht
    · rw [hw] at ht
      cases List.mem_singleton.1 ht
    · exact hmode

/-- Thread `t` holds the lock for writing and downgrades; thread `u` has queued up for writing,
    thread `w` behind it for reading. -/
def downgradeAdmitsReader {T : Type} (t u w : T) : List (Event T) :=
  [.lock t .write false, .run t, .lock u .write false, .run u, .lock w .read false, .run w,
    .downgrade t, .run t, .run w]

theorem downgradeAdmitsReader_excludes :
    ∃ s : State (Fin 3), Lts.exec RwLock.step rwlockInit (downgradeAdmitsReader 0 1 2) = some s ∧
      s.holds = [(2, .read), (0, .read)] ∧ s.mode = some .read :=
  ⟨_, rfl, rfl,
    (rwlock_exclusion_along (downgradeAdmitsReader 0 1 2) (by decide) rfl).2 0 (by decide)⟩

/-- **`NoBarge` is exact**: a step that does not meet it lets a reader in next to a writer. -/
theorem ExclInv.barge (h : ExclInv s) (hs : RwLock.step s e = some s') (hok : ¬ NoBarge s e) :
    ∃ t w, (t, .read) ∈ s'.holds ∧ (w, .write) ∈ s'.holds := by
  cases e with
  | run t =>
    simp only [NoBarge, not_forall, not_not] at hok
    obtain ⟨u, hpc, hw, hc, hmode⟩ := hok
    have hcount := h.holds.count
    have hs' : s' = acquire s t .read := by
      simp only [RwLock.step, RwLock.run, hpc, not_failed_of_step hs] at hs
      rw [← Option.some.inj hs, doRwlockLock, if_neg fun hfree => hc hfree.1]
      simp only [rwlockQPeek, hw]
    rw [hs']
    rcases h.excl with hnil | ⟨w, hw, _⟩ | ⟨hread, _⟩
    · rw [hnil] at hcount
      exact absurd hcount hc
    · refine ⟨t, w, List.mem_cons_self .., List.mem_cons_of_mem _ ?_⟩
      rw [hw]
      exact List.mem_cons_self ..
    · rw [hread] at hmode
      cases hmode
  | _ => exact absurd trivial hok

/-- Thread `t` acquires the lock for writing, thread `u` for reading. -/
def readerBarges {T : Type} (t u : T) : List (Event T) :=
  [.lock t .write false, .run t, .lock u .read false, .run u]

/-- **A writer and a reader hold the lock.** -/
theorem readerBarges_breaks_exclusion :
    Lts.Along RwLock.step Owns rwlockInit (readerBarges (0 : Fin 2) 1) ∧
    ∃ s, Lts.exec RwLock.step rwlockInit (readerBarges (0 : Fin 2) 1) = some s ∧
      s.holds = [(1, .read), (0, .write)] ∧ s.mode = some .read ∧ s.count = 2 :=
  ⟨by decide, _, rfl, rfl, rfl, rfl⟩

end Timix.RwLock
