import Timix.RwLockExclusion

/-!
# Hand-off of a reader/writer lock

`rwlock_unlock` of the last hold leaves `lock->count` at 0, sets `lock->mode` to what the front
entry of `lock->waiting` asks for and wakes all readers or the oldest sleeping writer.  Who
acquires the lock then is whoever takes `lock->lock` next: a woken thread or a newcomer.

* `Taker` — an awake thread with an entry that acquires the lock if it runs next.
* `HandOff` — a lock that nobody holds has a taker if anybody waits, and no reader sleeps unless
  the lock is in write mode.
* `Heir` — a waiter that becomes, or stays, a taker when the lock is handed over.

Principal result: `no_lost_hand_off`.
-/

set_option autoImplicit false

namespace Timix.RwLock

open Owner (eq_of_update)

variable {T : Type} [DecidableEq T] {s s' : State T} {t v : T} {e : Event T} {type : Access}

/-- Awake, with an entry in `lock->waiting`, not interrupted, and not to wait on once it runs
    with `lock->count` at 0. -/
def Taker (mode : Option Access) (p : Pc) : Prop :=
  ∃ type u, p = .woken type u false ∧ (type = .read → mode ≠ some .write)

/-- No reader sleeps unless the lock is in write mode, and a lock that is free but waited for has
    a taker. -/
structure HandOff (s : State T) : Prop where
  readers : ∀ t u, s.pc t = .asleep .read u → s.mode = some .write
  taker : s.count = 0 → s.waiting ≠ [] → ∃ t, Taker s.mode (s.pc t)

/-- An uninterrupted waiter for the mode to which the lock is handed over, or a writer already
    awake. -/
def Heir (next : Access) (p : Pc) : Prop :=
  ∃ u, p = .asleep next u ∨ p = .woken next u false ∨ p = .woken .write u false

/-- The lock is not handed over to interrupted waiters only. -/
def HasHeir (s : State T) : Event T → Prop
  | .run t => ∀ type, s.pc t = .unlocking type → s.count = 1 → ∀ next, rwlockQPeek s = some next →
      ∃ v, Heir next (s.pc v)
  | _ => True

instance (next : Access) (p : Pc) : Decidable (Heir next p) :=
  inferInstanceAs (Decidable (∃ u, p = .asleep next u ∨ p = .woken next u false ∨
    p = .woken .write u false))

instance [Fintype T] (s : State T) : (e : Event T) → Decidable (HasHeir s e)
  | .run t => inferInstanceAs (Decidable (∀ type, s.pc t = .unlocking type → s.count = 1 →
      ∀ next, rwlockQPeek s = some next → ∃ v, Heir next (s.pc v)))
  | .lock .. | .unlock .. | .downgrade _ | .interrupt _ => isTrue trivial

omit [DecidableEq T] in
theorem WaitOk.no_sleeper (h : WaitOk s) (hnil : s.cv type = []) (t : T) (u : Bool) :
    s.pc t ≠ .asleep type u := by
  intro ht
  have hm := (h.queues.mem t type).2 (by rw [ht]; rfl)
  rw [hnil] at hm
  cases hm

omit [DecidableEq T] in
theorem WaitOk.waiting_ne_nil (h : WaitOk s) (ht : (s.pc t).entry = some type) :
    s.waiting ≠ [] := by
  intro hnil
  have hm := (h.entries.mem t type).2 ht
  rw [hnil] at hm
  cases hm

/-- One thread moves that was no taker and does not go to sleep as a reader. -/
theorem HandOff.keep (h : HandOff s) {p₀ p : Pc} (hpc : s.pc t = p₀)
    (h₀ : ∀ type u, p₀ ≠ .woken type u false) (hp : ∀ u, p ≠ .asleep .read u) :
    HandOff (s.setPc t p) := by
  constructor
  · intro v u hv
    exact h.readers v u (eq_of_update hv (hp u))
  · intro hc hw
    obtain ⟨v, type, u, hv, hmode⟩ := h.taker hc hw
    have hvt : v ≠ t := by
      rintro rfl
      exact h₀ type u (hpc ▸ hv)
    exact ⟨v, type, u, (Function.update_of_ne hvt _ _).trans hv, hmode⟩

/-- Somebody acquires the lock. -/
theorem HandOff.acquire (h : HandOff s) (hw : WaitOk s) (hh : HoldsOk s)
    (hgo : type = .read ∧ s.waiting = [] ∨ ¬ s.mustWait type) (l : List (T × Access)) :
    HandOff (acquire { s with waiting := l } t type) := by
  constructor
  · intro v u hv
    have hv := eq_of_update hv (by simp)
    have hmode := h.readers v u hv
    cases type with
    | write => rfl
    | read =>
      rcases hgo with ⟨_, hnil⟩ | hgo
      · have hentry : (s.pc v).entry = some .read := by rw [hv]; rfl
        exact absurd hnil (hw.waiting_ne_nil hentry)
      · exact absurd hmode hgo
  · intro hc _
    have hcount := hh.count
    have hc : s.count + 1 = 0 := hc
    omega

/-- Somebody goes to sleep, in a new or an old entry. -/
theorem HandOff.sleep (h : HandOff s) (hwait : s.mustWait type) (l : List (T × Access))
    (hsome : type = .read → s.waiting ≠ [])
    (hpc : ∀ a u, s.pc t = .woken a u false → a = type) (u : Bool) :
    HandOff (rwlockWait { s with waiting := l } t type u) := by
  constructor
  · intro v f hv
    show s.mode = some .write
    by_cases hvt : v = t
    · subst hvt
      rw [show (rwlockWait _ v type u).pc v = .asleep type u from Function.update_self ..] at hv
      cases hv
      exact hwait
    · exact h.readers v f ((Function.update_of_ne hvt _ _).symm.trans hv)
  · intro hc _
    -- only a reader waits for a free lock, and it is not the taker
    cases type with
    | write => exact absurd hc hwait
    | read =>
      obtain ⟨v, a, f, hv, hmode⟩ := h.taker hc (hsome rfl)
      have hvt : v ≠ t := by
        rintro rfl
        exact hmode (hpc a f hv) hwait
      exact ⟨v, a, f, (Function.update_of_ne hvt _ _).trans hv, hmode⟩

/-- **Handing over makes the heir a taker.** -/
theorem wakeNext_taker (h : WaitOk s) {next : Access} (hmode : s.mode = some next)
    (hv : Heir next (s.pc v)) : ∃ w, Taker (some next) ((wakeNext s next).pc w) := by
  have hawake : ∀ {a u}, s.pc v = .woken a u false → (a = .read → next ≠ .write) →
      ∃ w, Taker (some next) ((wakeNext s next).pc w) := by
    intro a u hv hne
    have hv' := (wakeNext_woke s next).pc_eq hv rfl
    exact ⟨v, a, u, hv', fun ha hn => hne ha (Option.some.inj hn)⟩
  obtain ⟨u, hv | hv | hv⟩ := hv
  · cases next with
    | read =>
      -- all sleeping readers are woken
      have hpc := (wakeNext_woke s .read).pc v
      rw [hv] at hpc
      rcases hpc with hpc | hpc
      · exact absurd hpc ((h.wakeNext .read).no_sleeper (condBroadcast_cv s .read) v u)
      · exact ⟨v, .read, u, hpc, (by simp)⟩
    | write =>
      -- the oldest sleeping writer is woken
      have hmem : v ∈ s.cv .write := (h.queues.mem v .write).2 (by rw [hv]; rfl)
      obtain ⟨w, hw⟩ : ∃ w, (s.cv .write).getLast? = some w := by
        cases hl : (s.cv .write).getLast? with
        | none =>
          rw [List.getLast?_eq_none_iff.1 hl] at hmem
          cases hmem
        | some w => exact ⟨w, rfl⟩
      obtain ⟨f, hf⟩ := h.asleep_of_last hw
      refine ⟨w, .write, f, ?_, (by simp)⟩
      show (condSignal s .write).pc w = _
      rw [condSignal, hw]
      show Function.update s.pc w (s.pc w).wake w = _
      rw [Function.update_self, hf]
      rfl
  · apply hawake hv
    rintro rfl
    exact fun h => by cases h
  · exact hawake hv (by simp)

/-- Handing over wakes only those who sleep for that mode. -/
theorem WaitOk.wakeNext_pc (h : WaitOk s) (next : Access) (v : T) :
    (RwLock.wakeNext s next).pc v = s.pc v ∨
      ∃ u, s.pc v = .asleep next u ∧ (RwLock.wakeNext s next).pc v = .woken next u false := by
  cases next with
  | read =>
    show (condBroadcast s .read).pc v = _ ∨ ∃ u, _ ∧ (condBroadcast s .read).pc v = _
    rw [condBroadcast_eq]
    dsimp only
    split
    · rename_i hmem
      have hs := (h.queues.mem v .read).1 hmem
      cases hp : s.pc v with
      | asleep a u =>
        rw [hp] at hs
        cases hs
        exact Or.inr ⟨u, rfl, rfl⟩
      | _ => rw [hp] at hs; cases hs
    · exact Or.inl rfl
  | write =>
    show (condSignal s .write).pc v = _ ∨ ∃ u, _ ∧ (condSignal s .write).pc v = _
    unfold condSignal
    split
    · exact Or.inl rfl
    · rename_i w hw
      obtain ⟨u, hu⟩ := h.asleep_of_last hw
      by_cases hv : v = w
      · subst hv
        refine Or.inr ⟨u, hu, ?_⟩
        show Function.update s.pc v (s.pc v).wake v = _
        rw [Function.update_self, hu]
        rfl
      · exact Or.inl (Function.update_of_ne hv _ _)

/-- **`HasHeir` is exact**: a step that does not meet it leaves a free lock waited for, without a
taker. -/
theorem WaitOk.stuck (h : WaitOk s) (hs : step s e = some s') (hok : ¬ HasHeir s e) :
    s'.count = 0 ∧ s'.waiting ≠ [] ∧ ∀ v, ¬ Taker s'.mode (s'.pc v) := by
  cases e with
  | run t =>
    simp only [HasHeir, not_forall, not_exists] at hok
    obtain ⟨type, hpc, hc, next, hpeek, hno⟩ := hok
    have hs' := (Move.handOver hpc hc hpeek).step h (not_failed_of_step hs)
    rw [hs] at hs'
    rw [Option.some.inj hs']
    have hw : WaitOk { s with
        count := s.count - 1, mode := some next, holds := s.holds.erase (t, type) } :=
      ⟨h.entries, h.queues, h.firm⟩
    have hwoke := wakeNext_woke { s with
        count := s.count - 1, mode := some next, holds := s.holds.erase (t, type) } next
    refine ⟨?_, ?_, ?_⟩
    · apply hwoke.count.trans
      show s.count - 1 = 0
      omega
    · show (RwLock.wakeNext _ next).waiting ≠ []
      rw [hwoke.waiting]
      intro hnil
      simp only [rwlockQPeek, show s.waiting = [] from hnil] at hpeek
      cases hpeek
    · rintro v ⟨a, u, hv, hmode⟩
      have hv := eq_of_update hv (by simp)
      have hmode : a = .read → some next ≠ some .write := by
        intro ha hn
        exact hmode ha (hwoke.mode.trans hn)
      rcases hw.wakeNext_pc next v with hsame | ⟨f, hslept, _⟩
      · have hv₀ : s.pc v = .woken a u false := hsame.symm.trans hv
        cases a with
        | write => exact hno v ⟨u, Or.inr (Or.inr hv₀)⟩
        | read =>
          cases next with
          | read => exact hno v ⟨u, Or.inr (Or.inl hv₀)⟩
          | write => exact hmode rfl rfl
      · exact hno v ⟨f, Or.inl hslept⟩
  | _ => exact absurd trivial hok

/-- **Every step whose hand-over has an heir keeps the hand-off.** -/
theorem HandOff.move (h : HandOff s) (hw : WaitOk s) (hh : HoldsOk s) (hm : Move s e s')
    (hheir : HasHeir s e) : HandOff s' := by
  cases hm with
  | callLock hpc | callUnlock hpc => exact h.keep hpc (by simp) (by simp)
  | callDowngrade hpc _ _ => exact h.keep hpc (by simp) (by simp)
  | badDowngrade hpc _ => exact ⟨h.readers, h.taker⟩
  | @interrupt t type hpc =>
    have h' := h.keep (p := .woken type false true) hpc (by simp) (by simp)
    exact ⟨h'.readers, h'.taker⟩
  | miss _ => exact h
  | enter hpc hgo => exact h.acquire hw hh hgo s.waiting
  | take hpc hgo => exact h.acquire hw hh (Or.inr hgo) _
  | queueUp hpc hwait hsome =>
    exact h.sleep hwait _ hsome (fun a u hp => by rw [hpc] at hp; cases hp) _
  | @again t type u hpc hwait =>
    have hentry : (s.pc t).entry = some type := by rw [hpc]; rfl
    exact h.sleep hwait s.waiting (fun _ => hw.waiting_ne_nil hentry)
      (fun a u hp => by rw [hpc] at hp; cases hp; rfl) u
  | @giveUp t type hpc =>
    have h' := h.keep (p := .idle) hpc (by simp) (by simp)
    refine ⟨h'.readers, fun hc hne => h'.taker hc fun hnil => hne ?_⟩
    show others t s.waiting = []
    rw [show s.waiting = [] from hnil]
    rfl
  | @badUnlock t a hpc hc =>
    have := hh.pos (hh.unlocking t a hpc)
    omega
  | unlockMore hpc hc =>
    have h' := h.keep (p := .idle) hpc (by simp) (by simp)
    refine ⟨h'.readers, ?_⟩
    intro hc'
    have hc' : s.count - 1 = 0 := hc'
    omega
  | unlockFree hpc hc hnil =>
    refine ⟨?_, fun _ hne => absurd hnil hne⟩
    intro v u hv
    have hv := eq_of_update hv (by simp)
    have hentry : (s.pc v).entry = some .read := by rw [hv]; rfl
    exact absurd hnil (hw.waiting_ne_nil hentry)
  | @handOver t a next hpc hc hpeek =>
    obtain ⟨v, hv⟩ := hheir a hpc hc next hpeek
    have hw' : WaitOk { s with
        count := s.count - 1, mode := some next, holds := s.holds.erase (t, a) } :=
      ⟨hw.entries, hw.queues, hw.firm⟩
    have hwoke := wakeNext_woke { s with
        count := s.count - 1, mode := some next, holds := s.holds.erase (t, a) } next
    have h' : HandOff (wakeNext { s with
        count := s.count - 1, mode := some next, holds := s.holds.erase (t, a) } next) := by
      constructor
      · intro v u hv
        cases next with
        | read => exact absurd hv ((hw'.wakeNext .read).no_sleeper (condBroadcast_cv _ .read) v u)
        | write => exact hwoke.mode
      · intro _ _
        rw [hwoke.mode]
        exact wakeNext_taker hw' rfl hv
    exact h'.keep (hwoke.pc_eq hpc rfl) (by simp) (by simp)
  | @downgrade t hpc =>
    have hw' : WaitOk { s with
        mode := some .read,
        holds := s.holds.map fun h => if h = (t, .write) then (t, .read) else h } :=
      ⟨hw.entries, hw.queues, hw.firm⟩
    have hwoke := condBroadcast_woke { s with
        mode := some .read,
        holds := s.holds.map fun h => if h = (t, .write) then (t, .read) else h } .read
    have h' : HandOff (condBroadcast { s with
        mode := some .read,
        holds := s.holds.map fun h => if h = (t, .write) then (t, .read) else h } .read) := by
      constructor
      · intro v u hv
        exact absurd hv ((hw'.wakeNext .read).no_sleeper (condBroadcast_cv _ .read) v u)
      · intro hc hne
        rw [hwoke.waiting] at hne
        obtain ⟨v, type, u, hv, _⟩ := h.taker (hwoke.count.symm.trans hc) hne
        exact ⟨v, type, u, hwoke.pc_eq hv rfl, fun _ => by rw [hwoke.mode]; simp⟩
    exact h'.keep (hwoke.pc_eq hpc rfl) (by simp) (by simp)

/-- A taker acquires the lock if it is the next to run. -/
theorem taker_acquires (hw : WaitOk s) (hf : s.failed = false) (hc : s.count = 0)
    (ht : Taker s.mode (s.pc t)) :
    ∃ type u, s.pc t = .woken type u false ∧ (t, type) ∈ s.waiting ∧
      step s (.run t) = some (acquire { s with waiting := others t s.waiting } t type) := by
  obtain ⟨type, u, hpc, hmode⟩ := ht
  have hentry : (s.pc t).entry = some type := by rw [hpc]; rfl
  have hgo : ¬ s.mustWait type := by
    cases type with
    | read => exact hmode rfl
    | write => exact not_not.2 hc
  refine ⟨type, u, hpc, (hw.entries.mem t type).2 hentry, ?_⟩
  simp only [step, run, hf, hpc, waitReturned, waitLoop, if_neg hgo, hw.remove hentry]
  rfl

/-! ## Uninterruptable users -/

/-- Locking only by `rwlock_lock_uninterruptable`, unlocking only a hold, downgrading only when
    the assertions hold. -/
def Firm (s : State T) : Event T → Prop
  | .lock _ _ u => u = true
  | .unlock t type => (t, type) ∈ s.holds
  | .downgrade _ => s.mode = some .write ∧ s.count = 1
  | _ => True

instance (s : State T) : (e : Event T) → Decidable (Firm s e)
  | .lock _ _ u => inferInstanceAs (Decidable (u = true))
  | .unlock t type => inferInstanceAs (Decidable ((t, type) ∈ s.holds))
  | .downgrade _ => inferInstanceAs (Decidable (s.mode = some .write ∧ s.count = 1))
  | .interrupt _ | .run _ => isTrue trivial

/-- Not in an interruptible call. -/
def Pc.firm : Pc → Bool
  | .entering _ u | .asleep _ u | .woken _ u _ => u
  | _ => true

omit [DecidableEq T] in
theorem Woke.firm (h : Woke s s') (hf : ∀ v, (s.pc v).firm = true) (v : T) :
    (s'.pc v).firm = true := by
  have hv := hf v
  rcases h.pc v with hw | hw <;> rw [hw]
  · exact hv
  · cases hp : s.pc v <;> rw [hp] at hv <;> exact hv

/-- All waits are uninterruptable. -/
theorem firm_move (h : ∀ v, (s.pc v).firm = true) (hm : Move s e s') (hok : Firm s e) (v : T) :
    (s'.pc v).firm = true := by
  have hset : ∀ {pc : T → Pc} {t : T} {p : Pc}, (∀ v, (pc v).firm = true) → p.firm = true →
      (Function.update pc t p v).firm = true := by
    intro pc t p hpc hp
    by_cases hv : v = t
    · subst hv; rw [Function.update_self]; exact hp
    · rw [Function.update_of_ne hv]; exact hpc v
  have hat : ∀ {t : T} {p : Pc}, s.pc t = p → p.firm = true := fun hpc => hpc ▸ h _
  cases hm with
  | callLock hpc => exact hset h hok
  | callUnlock hpc => exact hset h rfl
  | callDowngrade hpc _ _ => exact hset h rfl
  | badDowngrade hpc hn => exact h v
  | interrupt hpc => cases hat hpc
  | miss hn => exact h v
  | enter hpc hgo | take hpc hgo => exact hset h rfl
  | queueUp hpc hwait hsome =>
    have hu := hat hpc
    exact hset h hu
  | again hpc hwait =>
    have hu := hat hpc
    exact hset h hu
  | giveUp hpc => cases hat hpc
  | badUnlock hpc hc => exact h v
  | unlockMore hpc hc => exact hset h rfl
  | unlockFree hpc hc hw => exact hset h rfl
  | handOver hpc hc hw => exact hset ((wakeNext_woke _ _).firm h) rfl
  | downgrade hpc => exact hset ((condBroadcast_woke _ _).firm h) rfl

/-- The invariant of uninterruptable users. -/
structure FirmInv (s : State T) : Prop where
  wait : WaitOk s
  holds : HoldsOk s
  handOff : HandOff s
  firm : ∀ v, (s.pc v).firm = true
  ok : s.failed = false

omit [DecidableEq T] in
theorem handOff_initial : HandOff (rwlockInit : State T) where
  readers := fun _ _ h => by cases h
  taker := fun _ h => absurd rfl h

omit [DecidableEq T] in
theorem firmInv_initial : FirmInv (rwlockInit : State T) :=
  ⟨waitOk_initial, holdsOk_initial, handOff_initial, fun _ => rfl, rfl⟩

omit [DecidableEq T] in
/-- The front entry is an heir. -/
theorem FirmInv.hasHeir (h : FirmInv s) (e : Event T) : HasHeir s e := by
  cases e with
  | run t =>
    intro _ _ _ next hpeek
    obtain ⟨v, hv⟩ : ∃ v, (v, next) ∈ s.waiting := by
      unfold rwlockQPeek at hpeek
      split at hpeek
      · cases hpeek
      · rename_i head l hw
        cases hpeek
        exact ⟨head.1, by rw [hw]; exact List.mem_cons_self ..⟩
    have hentry := (h.wait.entries.mem v next).1 hv
    have hfirm := h.firm v
    refine ⟨v, ?_⟩
    cases hp : s.pc v with
    | asleep a u =>
      rw [hp] at hentry
      cases hentry
      exact ⟨u, Or.inl rfl⟩
    | woken a u i =>
      rw [hp] at hentry hfirm
      cases hentry
      obtain rfl : u = true := hfirm
      cases i with
      | false => exact ⟨true, Or.inr (Or.inl rfl)⟩
      | true => exact absurd hp (h.wait.firm v next)
    | _ => rw [hp] at hentry; cases hentry
  | _ => trivial

theorem FirmInv.step (h : FirmInv s) (hok : Firm s e) (hs : step s e = some s') : FirmInv s' := by
  have hm := h.wait.step_move hs
  exact ⟨h.wait.move hm, h.holds.move hm (by rintro t a rfl; exact hok),
    h.handOff.move h.wait h.holds hm (h.hasHeir e), firm_move h.firm hm hok,
    h.holds.not_failed hm h.ok (by rintro t rfl; exact hok)⟩

/-- **No hand-off is lost among uninterruptable users.**  While `lock->count` is 0 and somebody
waits, a thread with an entry in `lock->waiting` is awake and acquires the lock if it is the next
to take `lock->lock`; and no reader sleeps on `lock->readers` unless `lock->mode` is
`RWLOCK_WRITE`. -/
theorem no_lost_hand_off (es : List (Event T)) (hok : Lts.Along RwLock.step Firm rwlockInit es)
    (h : Lts.exec RwLock.step rwlockInit es = some s) :
    (s.count = 0 → s.waiting ≠ [] → ∃ t type u, (t, type) ∈ s.waiting ∧
      s.pc t = .woken type u false ∧
      ∃ s', RwLock.step s (.run t) = some s' ∧ s'.holds = (t, type) :: s.holds ∧
        s'.pc t = .idle) ∧
    ∀ t ∈ s.cv .read, s.mode = some .write := by
  have hi : FirmInv s :=
    Lts.exec_inv_along Firm FirmInv (fun _ _ _ hi hok hs => hi.step hok hs) firmInv_initial hok h
  constructor
  · intro hc hne
    obtain ⟨t, ht⟩ := hi.handOff.taker hc hne
    obtain ⟨type, u, hpc, hmem, hstep⟩ := taker_acquires hi.wait hi.ok hc ht
    exact ⟨t, type, u, hmem, hpc, _, hstep, rfl, Function.update_self ..⟩
  · intro t ht
    have hs := (hi.wait.queues.mem t .read).1 ht
    cases hp : s.pc t with
    | asleep a u =>
      rw [hp] at hs
      cases hs
      exact hi.handOff.readers t u hp
    | _ => rw [hp] at hs; cases hs

/-- Thread `t` holds the lock for writing, thread `u` and then thread `w` queue up for writing,
    thread `t` unlocks. -/
def handOverToOldest {T : Type} (t u w : T) : List (Event T) :=
  [.lock t .write true, .run t, .lock u .write true, .run u, .lock w .write true, .run w,
    .unlock t .write, .run t]

theorem handOverToOldest_has_taker :
    ∃ s : State (Fin 3), Lts.exec RwLock.step rwlockInit (handOverToOldest 0 1 2) = some s ∧
      s.count = 0 ∧ s.waiting = [(2, .write), (1, .write)] ∧
      ∃ t type u, (t, type) ∈ s.waiting ∧ s.pc t = .woken type u false ∧
        ∃ s', RwLock.step s (.run t) = some s' ∧ s'.holds = (t, type) :: s.holds ∧
          s'.pc t = .idle :=
  ⟨_, rfl, rfl, rfl, (no_lost_hand_off (handOverToOldest 0 1 2) (by decide) rfl).1 rfl (by decide)⟩

end Timix.RwLock
