import Timix.Lib.Census
import Timix.RwLockHandoff

/-!
# A reader/writer lock drains

Uninterruptable users that call `rwlock_lock_uninterruptable` only while they hold nothing never
deadlock.  Once no new call of it or of `rwlock_downgrade` begins, every schedule in which the
threads finish their calls and give up their holds comes to an end, and it ends with every waiter
served and the lock as `rwlock_init` left it.

* `Polite` — what the callers promise.
* `Closing` — the events that begin no new call but `rwlock_unlock`.
* `Apart` — who asks for the lock holds nothing, and nobody holds it twice.
* `potential` — the sections and calls that are left; every closing step uses up some of it.
* `Served` — the threads that stopped asking have returned 0.

Principal result: `rwlock_drains`.
-/

set_option autoImplicit false

namespace Timix.RwLock

open Census (total total_update total_le total_le_add_card)

variable {T : Type} [DecidableEq T] {s s' : State T} {t v : T} {e : Event T} {type : Access}

/-! ## Users -/

/-- Nobody asks for the lock while holding it. -/
def LocksOnce (s : State T) : Event T → Prop
  | .lock t _ _ => t ∉ s.holds.map Prod.fst
  | _ => True

/-- Uninterruptable users that unlock and downgrade only holds of their own. -/
def Polite (s : State T) (e : Event T) : Prop := Firm s e ∧ Owns s e ∧ LocksOnce s e

/-- Calls go on and holds are given up. -/
def Closing (s : State T) : Event T → Prop
  | .unlock t type => (t, type) ∈ s.holds
  | .interrupt _ | .run _ => True
  | .lock .. | .downgrade _ => False

/-- Somebody does something; `cond_interrupt` does nothing to uninterruptable users. -/
def Event.works : Event T → Bool
  | .interrupt _ => false
  | _ => true

instance (s : State T) : (e : Event T) → Decidable (LocksOnce s e)
  | .lock t _ _ => inferInstanceAs (Decidable (t ∉ s.holds.map Prod.fst))
  | .unlock .. | .downgrade _ | .interrupt _ | .run _ => isTrue trivial

instance (s : State T) (e : Event T) : Decidable (Polite s e) :=
  inferInstanceAs (Decidable (_ ∧ _ ∧ _))

instance (s : State T) : (e : Event T) → Decidable (Closing s e)
  | .unlock t type => inferInstanceAs (Decidable ((t, type) ∈ s.holds))
  | .interrupt _ | .run _ => isTrue trivial
  | .lock .. | .downgrade _ => isFalse id

omit [DecidableEq T] in
theorem Closing.polite (h : Closing s e) : Polite s e := by
  cases e with
  | unlock t type => exact ⟨h, h, trivial⟩
  | interrupt t | run t => exact ⟨trivial, trivial, trivial⟩
  | lock t type u => exact h.elim
  | downgrade t => exact h.elim

/-! ## Asking and holding -/

/-- Inside `do_rwlock_lock`. -/
def Pc.asks : Pc → Bool
  | .entering _ _ | .asleep _ _ | .woken _ _ _ => true
  | _ => false

@[simp] theorem Pc.asks_wake (p : Pc) : p.wake.asks = p.asks := by cases p <;> rfl

omit [DecidableEq T] in
theorem Woke.asks (h : Woke s s') (v : T) : (s'.pc v).asks = (s.pc v).asks := by
  rcases h.pc v with hv | hv <;> simp [hv]

/-- Who asks for the lock holds nothing, and nobody holds it twice. -/
structure Apart (holders : List T) (pc : T → Pc) : Prop where
  asks : ∀ v, (pc v).asks = true → v ∉ holders
  once : holders.Nodup

section Apart

variable {holders l : List T} {pc : T → Pc} {p : Pc}

/-- A thread begins to ask, goes on asking or stops. -/
theorem Apart.set (h : Apart holders pc) (hp : p.asks = true → t ∉ holders) :
    Apart holders (Function.update pc t p) :=
  ⟨(Function.forall_update_iff _ fun v (q : Pc) => q.asks = true → v ∉ holders).2
    ⟨hp, fun v _ => h.asks v⟩, h.once⟩

omit [DecidableEq T] in
theorem Apart.sub (h : Apart holders pc) (hl : l.Sublist holders) : Apart l pc :=
  ⟨fun v hv hm => h.asks v hv (hl.subset hm), h.once.sublist hl⟩

omit [DecidableEq T] in
theorem Apart.congr {pc' : T → Pc} (h : Apart holders pc)
    (hpc : ∀ v, (pc' v).asks = (pc v).asks) : Apart holders pc' :=
  ⟨fun v hv => h.asks v (by rwa [← hpc v]), h.once⟩

/-- A thread that asks acquires the lock. -/
theorem Apart.acquire (h : Apart holders pc) (ht : (pc t).asks = true) :
    Apart (t :: holders) (Function.update pc t .idle) := by
  refine ⟨(Function.forall_update_iff _ fun v (q : Pc) => q.asks = true → v ∉ t :: holders).2
    ⟨fun hp => absurd hp (by decide), ?_⟩, List.nodup_cons.2 ⟨h.asks t ht, h.once⟩⟩
  intro v hv hp
  simpa [hv] using h.asks v hp

end Apart

theorem map_fst_erase (l : List (T × Access)) (x : T × Access) :
    ((l.erase x).map Prod.fst).Sublist (l.map Prod.fst) := List.erase_sublist.map _

theorem map_fst_downgrade (t : T) (l : List (T × Access)) :
    (l.map fun h => if h = (t, .write) then (t, .read) else h).map Prod.fst = l.map Prod.fst := by
  rw [List.map_map]
  apply List.map_congr_left
  intro h _
  show (if h = (t, .write) then (t, Access.read) else h).1 = h.1
  split
  · rename_i heq
    rw [heq]
  · rfl

theorem Apart.move (h : Apart (s.holds.map Prod.fst) s.pc) (hm : Move s e s')
    (hok : LocksOnce s e) : Apart (s'.holds.map Prod.fst) s'.pc := by
  cases hm with
  | callLock hpc => exact h.set fun _ => hok
  | callUnlock hpc => exact h.set (by simp [Pc.asks])
  | callDowngrade hpc _ _ => exact h.set (by simp [Pc.asks])
  | badDowngrade hpc hn => exact h
  | @interrupt t type hpc => exact h.set fun _ => h.asks t (by rw [hpc]; rfl)
  | miss hn => exact h
  | enter hpc hgo | take hpc hgo => exact h.acquire (by rw [hpc]; rfl)
  | @queueUp t type u hpc hwait hsome => exact h.set fun _ => h.asks t (by rw [hpc]; rfl)
  | @again t type u hpc hwait => exact h.set fun _ => h.asks t (by rw [hpc]; rfl)
  | giveUp hpc => exact h.set (by simp [Pc.asks])
  | badUnlock hpc hc => exact h.sub (map_fst_erase _ _)
  | unlockMore hpc hc => exact (h.sub (map_fst_erase _ _)).set (by simp [Pc.asks])
  | unlockFree hpc hc hw => exact (h.sub (map_fst_erase _ _)).set (by simp [Pc.asks])
  | @handOver t a next hpc hc hw =>
    have hwoke := wakeNext_woke { s with
      count := s.count - 1, mode := some next, holds := s.holds.erase (t, a) } next
    show Apart ((wakeNext _ next).holds.map Prod.fst) _
    rw [hwoke.holds]
    exact ((h.sub (map_fst_erase s.holds (t, a))).congr hwoke.asks).set (by simp [Pc.asks])
  | @downgrade t hpc =>
    have hwoke := condBroadcast_woke { s with
      mode := some .read,
      holds := s.holds.map fun h => if h = (t, .write) then (t, .read) else h } .read
    show Apart ((condBroadcast _ .read).holds.map Prod.fst) _
    rw [hwoke.holds, map_fst_downgrade]
    exact (h.congr hwoke.asks).set (by simp [Pc.asks])

/-- A lock that is neither held nor waited for is unlocked. -/
def Freed (s : State T) : Prop := s.count = 0 → s.waiting = [] → s.mode = none

/-- Nobody gives up waiting among uninterruptable users. -/
theorem Freed.move (h : Freed s) (hh : HoldsOk s) (hd : DowngradesOwn s)
    (hfirm : ∀ v, (s.pc v).firm = true) (hm : Move s e s') : Freed s' := by
  have hcount := hh.count
  intro hc hnil
  cases hm with
  | callLock hpc | callUnlock hpc => exact h hc hnil
  | callDowngrade hpc _ _ => exact h hc hnil
  | badDowngrade hpc hn => exact h hc hnil
  | interrupt hpc => exact h hc hnil
  | miss hn => exact h hc hnil
  | enter hpc hgo | take hpc hgo =>
    have hc : s.count + 1 = 0 := hc
    omega
  | queueUp hpc hwait hsome => cases hnil
  | again hpc hwait => exact h hc hnil
  | @giveUp t type hpc =>
    have hu := hfirm t
    rw [hpc] at hu
    cases hu
  | @badUnlock t a hpc hn =>
    have := hh.pos (hh.unlocking t a hpc)
    omega
  | unlockMore hpc hn =>
    have hc : s.count - 1 = 0 := hc
    omega
  | unlockFree hpc _ _ => rfl
  | @handOver t a next hpc _ hpeek =>
    have hnil : (wakeNext _ next).waiting = [] := hnil
    rw [(wakeNext_woke _ next).waiting] at hnil
    have hnil : s.waiting = [] := hnil
    simp [rwlockQPeek, hnil] at hpeek
  | @downgrade t hpc =>
    obtain ⟨a, ha⟩ := hd t hpc
    have hpos := hh.pos ha
    have hc : (condBroadcast _ .read).count = 0 := hc
    rw [(condBroadcast_woke _ .read).count] at hc
    have hc : s.count = 0 := hc
    omega

/-- The invariant of polite users. -/
structure PoliteInv (s : State T) : Prop where
  firm : FirmInv s
  downgrades : DowngradesOwn s
  apart : Apart (s.holds.map Prod.fst) s.pc
  freed : Freed s

omit [DecidableEq T] in
theorem politeInv_initial : PoliteInv (rwlockInit : State T) :=
  ⟨firmInv_initial, downgradesOwn_initial, ⟨fun _ h => (by cases h), List.nodup_nil⟩,
    fun _ _ => rfl⟩

theorem PoliteInv.step (h : PoliteInv s) (hok : Polite s e) (hs : step s e = some s') :
    PoliteInv s' := by
  have hm := h.firm.wait.step_move hs
  exact ⟨h.firm.step hok.1 hs, h.downgrades.move hm (by rintro t rfl; exact hok.2.1),
    h.apart.move hm hok.2.2, h.freed.move h.firm.holds h.downgrades h.firm.firm hm⟩

/-! ## What is left to do -/

/-- What a thread may still cost: one unit for each section and each call, `n` for waking
    others.  A hold costs `n + 2`. -/
def Pc.weight (n : Nat) : Pc → Nat
  | .unlocking _ => 0
  | .idle => 1
  | .downgrading => n + 2
  | .asleep _ _ => n + 3
  | .entering _ _ | .woken _ _ _ => n + 4

theorem Pc.weight_le (n : Nat) (p : Pc) : p.weight n ≤ n + 4 := by
  cases p <;> simp [Pc.weight]

theorem Pc.weight_wake (n : Nat) (p : Pc) : p.wake.weight n ≤ p.weight n + 1 := by
  cases p <;> simp [Pc.wake, Pc.weight]

section Potential

variable [Fintype T]

def potential (s : State T) : Nat :=
  total (Pc.weight (Fintype.card T)) s.pc + (Fintype.card T + 2) * s.holds.length

omit [DecidableEq T] in
theorem Woke.total_le (h : Woke s s') (n : Nat) :
    total (Pc.weight n) s'.pc ≤ total (Pc.weight n) s.pc + Fintype.card T := by
  apply total_le_add_card
  intro v
  rcases h.pc v with hv | hv <;> rw [hv]
  · exact Nat.le_succ _
  · exact Pc.weight_wake n _

omit [DecidableEq T] in
/-- At most one hold a thread. -/
theorem Apart.potential_le (h : Apart (s.holds.map Prod.fst) s.pc) :
    potential s ≤ 2 * (Fintype.card T + 3) * Fintype.card T := by
  have hpc := total_le (w := Pc.weight (Fintype.card T)) fun v => (s.pc v).weight_le _
  have hlen := h.once.length_le_card
  rw [List.length_map] at hlen
  calc potential s ≤ Fintype.card T * (Fintype.card T + 4) +
        (Fintype.card T + 2) * Fintype.card T :=
        Nat.add_le_add hpc (Nat.mul_le_mul_left _ hlen)
    _ = (Fintype.card T + 4 + (Fintype.card T + 2)) * Fintype.card T := by
        rw [Nat.mul_comm, ← Nat.add_mul]
    _ = 2 * (Fintype.card T + 3) * Fintype.card T := by
        congr 1
        omega

/-- A thread moves. -/
theorem potential_setPc {p₀ : Pc} (hpc : s.pc t = p₀) (p : Pc) :
    potential (s.setPc t p) + p₀.weight (Fintype.card T) =
      potential s + p.weight (Fintype.card T) := by
  subst hpc
  have hpc := total_update (Pc.weight (Fintype.card T)) s.pc t p
  simp only [potential, State.setPc]
  omega

/-- A hold is given up. -/
theorem potential_erase {u : State T} (hh : HoldsOk s) (hpc : s.pc t = .unlocking type)
    (hu : u.pc = s.pc ∧ u.holds = s.holds.erase (t, type)) :
    potential u + (Fintype.card T + 2) = potential s := by
  have hmem := hh.unlocking t type hpc
  have hpos := List.length_pos_of_mem hmem
  obtain ⟨k, hk⟩ : ∃ k, s.holds.length = k + 1 := ⟨s.holds.length - 1, by omega⟩
  rw [potential, potential, hu.1, hu.2, List.length_erase_of_mem hmem, hk,
    Nat.mul_succ, Nat.add_sub_cancel, Nat.add_assoc]

omit [DecidableEq T] in
theorem Woke.potential_le (h : Woke s s') : potential s' ≤ potential s + Fintype.card T := by
  have hpc := h.total_le (Fintype.card T)
  simp only [potential, h.holds]
  omega

/-- A thread that asked acquires the lock. -/
theorem potential_acquire {p₀ : Pc} (hpc : s.pc t = p₀)
    (hp₀ : p₀.weight (Fintype.card T) = Fintype.card T + 4) (l : List (T × Access)) :
    potential (acquire { s with waiting := l } t type) + 1 = potential s := by
  have hset := potential_setPc hpc .idle
  have hhold : potential (acquire { s with waiting := l } t type) =
      potential (s.setPc t .idle) + (Fintype.card T + 2) := by
    simp only [potential, acquire, State.setPc, List.length_cons, Nat.mul_succ]
    omega
  rw [hp₀] at hset
  simp only [Pc.weight] at hset
  omega

/-- **A closing step uses up potential.** -/
theorem potential_move (hh : HoldsOk s) (hfirm : ∀ v, (s.pc v).firm = true) (hm : Move s e s')
    (hok : Closing s e) : potential s' + e.works.toNat ≤ potential s := by
  cases hm with
  | callLock hpc => exact hok.elim
  | @callUnlock t type hpc =>
    have hset := potential_setPc hpc (.unlocking type)
    exact hset.le
  | callDowngrade hpc _ _ => exact hok.elim
  | badDowngrade hpc hn => exact hok.elim
  | @interrupt t type hpc =>
    have hu := hfirm t
    rw [hpc] at hu
    cases hu
  | miss hn => exact Nat.le_refl _
  | enter hpc hgo => exact (potential_acquire hpc rfl s.waiting).le
  | take hpc hgo => exact (potential_acquire hpc rfl _).le
  | @queueUp t type u hpc hwait hsome =>
    have hset := potential_setPc hpc (.asleep type u)
    have hset : potential (rwlockWait (rwlockQPush s t type) t type u) + (Fintype.card T + 4) =
      potential s + (Fintype.card T + 3) := hset
    show _ + 1 ≤ _
    omega
  | @again t type u hpc hwait =>
    have hset := potential_setPc hpc (.asleep type u)
    have hset : potential (rwlockWait s t type u) + (Fintype.card T + 4) =
      potential s + (Fintype.card T + 3) := hset
    show _ + 1 ≤ _
    omega
  | @giveUp t type hpc =>
    have hu := hfirm t
    rw [hpc] at hu
    cases hu
  | @badUnlock t a hpc hc =>
    have := hh.pos (hh.unlocking t a hpc)
    omega
  | @unlockMore t a hpc hc =>
    have herase := potential_erase (u := { s with
      count := s.count - 1, holds := s.holds.erase (t, a) }) hh hpc ⟨rfl, rfl⟩
    have hset := potential_setPc (s := { s with
      count := s.count - 1, holds := s.holds.erase (t, a) }) hpc .idle
    simp only [Pc.weight] at hset
    show _ + 1 ≤ _
    omega
  | @unlockFree t a hpc hc hw =>
    have herase := potential_erase (u := { s with
      count := s.count - 1, mode := none, holds := s.holds.erase (t, a) }) hh hpc ⟨rfl, rfl⟩
    have hset := potential_setPc (s := { s with
      count := s.count - 1, mode := none, holds := s.holds.erase (t, a) }) hpc .idle
    simp only [Pc.weight] at hset
    show _ + 1 ≤ _
    omega
  | @handOver t a next hpc hc hw =>
    have herase := potential_erase (u := { s with
      count := s.count - 1, mode := some next, holds := s.holds.erase (t, a) }) hh hpc ⟨rfl, rfl⟩
    have hwoke := wakeNext_woke { s with
      count := s.count - 1, mode := some next, holds := s.holds.erase (t, a) } next
    have hwake := hwoke.potential_le
    have hset := potential_setPc (hwoke.pc_eq hpc rfl) .idle
    simp only [Pc.weight] at hset
    show _ + 1 ≤ _
    omega
  | @downgrade t hpc =>
    have hmap : potential { s with
        mode := some .read,
        holds := s.holds.map fun h => if h = (t, .write) then (t, .read) else h } =
        potential s := by
      simp only [potential, List.length_map]
    have hwoke := condBroadcast_woke { s with
      mode := some .read,
      holds := s.holds.map fun h => if h = (t, .write) then (t, .read) else h } .read
    have hwake := hwoke.potential_le
    have hset := potential_setPc (hwoke.pc_eq hpc rfl) .idle
    have hset : potential (rwlockDowngrade s t) + (Fintype.card T + 2) = _ + 1 := hset
    show _ + 1 ≤ _
    omega

end Potential

/-! ## Who asked is served -/

/-- Between the two states nobody begins to ask, and who stops asking returns 0 once. -/
structure Served (s s' : State T) : Prop where
  asks : ∀ v, (s'.pc v).asks = true → (s.pc v).asks = true
  rets : ∃ l, s'.rets = s.rets ++ l ∧ ∀ v, l.filter (fun r => r.1 = v) =
    if (s.pc v).asks = true ∧ (s'.pc v).asks = false then [(v, 0)] else []

theorem Served.same (hasks : ∀ v, (s'.pc v).asks = (s.pc v).asks) (hrets : s'.rets = s.rets) :
    Served s s' := by
  refine ⟨fun v hv => by rwa [← hasks v], [], by rw [hrets, List.append_nil], ?_⟩
  intro v
  rw [hasks v, if_neg (by simp), List.filter_nil]

theorem Served.trans {m : State T} (h₁ : Served s m) (h₂ : Served m s') : Served s s' := by
  obtain ⟨l₁, hl₁, hf₁⟩ := h₁.rets
  obtain ⟨l₂, hl₂, hf₂⟩ := h₂.rets
  refine ⟨fun v hv => h₁.asks v (h₂.asks v hv), l₁ ++ l₂, ?_, ?_⟩
  · rw [hl₂, hl₁, List.append_assoc]
  · intro v
    have ha₁ := h₁.asks v
    have ha₂ := h₂.asks v
    rw [List.filter_append, hf₁, hf₂]
    cases hs : (s.pc v).asks <;> cases hm : (m.pc v).asks <;> cases ht : (s'.pc v).asks <;>
      simp_all

/-- One thread changes its point. -/
theorem asks_setPc {p₀ p : Pc} (hpc : s.pc t = p₀) (hp : p.asks = p₀.asks) (v : T) :
    ((s.setPc t p).pc v).asks = (s.pc v).asks := by
  by_cases hv : v = t
  · rw [hv, hpc, ← hp]
    exact congrArg Pc.asks (Function.update_self ..)
  · exact congrArg Pc.asks (Function.update_of_ne hv _ _)

theorem Served.acquire (ht : (s.pc t).asks = true) (l : List (T × Access)) :
    Served s (acquire { s with waiting := l } t type) := by
  have hother : ∀ v, v ≠ t → (RwLock.acquire { s with waiting := l } t type).pc v = s.pc v :=
    fun v hv => Function.update_of_ne hv _ _
  have hself : (RwLock.acquire { s with waiting := l } t type).pc t = .idle :=
    Function.update_self ..
  refine ⟨?_, [(t, 0)], rfl, ?_⟩
  · intro v hv
    by_cases hvt : v = t
    · rwa [hvt]
    · rwa [hother v hvt] at hv
  · intro v
    by_cases hvt : v = t
    · subst hvt
      rw [hself, if_pos ⟨ht, rfl⟩]
      simp
    · rw [hother v hvt, if_neg (by simp)]
      simp [Ne.symm hvt]

theorem Served.move (hh : HoldsOk s) (hfirm : ∀ v, (s.pc v).firm = true) (hm : Move s e s')
    (hok : Closing s e) : Served s s' := by
  cases hm with
  | callLock hpc => exact hok.elim
  | callUnlock hpc => exact .same (asks_setPc hpc rfl) rfl
  | callDowngrade hpc _ _ => exact hok.elim
  | badDowngrade hpc hn => exact hok.elim
  | @interrupt t type hpc =>
    have hu := hfirm t
    rw [hpc] at hu
    cases hu
  | miss hn => exact .same (fun _ => rfl) rfl
  | enter hpc hgo => exact .acquire (by rw [hpc]; rfl) s.waiting
  | take hpc hgo => exact .acquire (by rw [hpc]; rfl) _
  | queueUp hpc hwait hsome => exact .same (asks_setPc hpc rfl) rfl
  | again hpc hwait => exact .same (asks_setPc hpc rfl) rfl
  | @giveUp t type hpc =>
    have hu := hfirm t
    rw [hpc] at hu
    cases hu
  | @badUnlock t a hpc hc =>
    have := hh.pos (hh.unlocking t a hpc)
    omega
  | unlockMore hpc hc => exact .same (asks_setPc hpc rfl) rfl
  | unlockFree hpc hc hw => exact .same (asks_setPc hpc rfl) rfl
  | @handOver t a next hpc hc hw =>
    have hwoke := wakeNext_woke { s with
      count := s.count - 1, mode := some next, holds := s.holds.erase (t, a) } next
    refine .same (fun v => ?_) hwoke.rets
    exact (asks_setPc (p := .idle) (hwoke.pc_eq hpc rfl) rfl v).trans (hwoke.asks v)
  | @downgrade t hpc =>
    have hwoke := condBroadcast_woke { s with
      mode := some .read,
      holds := s.holds.map fun h => if h = (t, .write) then (t, .read) else h } .read
    refine .same (fun v => ?_) hwoke.rets
    exact (asks_setPc (p := .idle) (hwoke.pc_eq hpc rfl) rfl v).trans (hwoke.asks v)

/-! ## At rest -/

/-- The lock as `rwlock_init` left it, and nobody inside a call. -/
structure AtRest (s : State T) : Prop where
  idle : ∀ t, s.pc t = .idle
  holds : s.holds = []
  count : s.count = 0
  mode : s.mode = none
  waiting : s.waiting = []
  cv : ∀ type, s.cv type = []

/-- Where no thread can run, all are outside their calls or asleep. -/
theorem FirmInv.stopped (h : FirmInv s) (ht : RwLock.step s (.run t) = none) :
    s.pc t = .idle ∨ ∃ type u, s.pc t = .asleep type u := by
  cases hpc : s.pc t with
  | idle => exact Or.inl rfl
  | asleep type u => exact Or.inr ⟨type, u, rfl⟩
  | _ => simp [RwLock.step, run, h.ok, hpc] at ht

/-- **No deadlock**: polite users come to a stop only at rest. -/
theorem PoliteInv.atRest (h : PoliteInv s)
    (hstop : ∀ e, Closing s e → e.works = true → RwLock.step s e = none) : AtRest s := by
  have hpc := fun t => h.firm.stopped (hstop (.run t) trivial rfl)
  -- an idle thread has given its hold up, a sleeping one has none
  have hholds : s.holds = [] := by
    rw [List.eq_nil_iff_forall_not_mem]
    rintro ⟨t, type⟩ hmem
    rcases hpc t with ht | ⟨a, u, ht⟩
    · have hun := hstop (.unlock t type) hmem rfl
      simp [RwLock.step, h.firm.ok, ht] at hun
    · exact h.apart.asks t (by rw [ht]; rfl) (List.mem_map_of_mem hmem)
  have hcount : s.count = 0 := by
    rw [h.firm.holds.count, hholds]
    rfl
  -- a taker could run
  have hwaiting : s.waiting = [] := by
    by_contra hne
    obtain ⟨t, type, u, ht, -⟩ := h.firm.handOff.taker hcount hne
    rcases hpc t with hi | ⟨a, f, ha⟩
    · rw [ht] at hi
      cases hi
    · rw [ht] at ha
      cases ha
  have hidle : ∀ t, s.pc t = .idle := by
    intro t
    rcases hpc t with ht | ⟨a, u, ht⟩
    · exact ht
    · have hentry : (s.pc t).entry = some a := by rw [ht]; rfl
      exact absurd hwaiting (h.firm.wait.waiting_ne_nil hentry)
  refine ⟨hidle, hholds, hcount, h.freed hcount hwaiting, hwaiting, ?_⟩
  intro type
  rw [List.eq_nil_iff_forall_not_mem]
  intro t hmem
  have hs := (h.firm.wait.queues.mem t type).1 hmem
  rw [hidle t] at hs
  cases hs

theorem stopped_of_idle (hidle : ∀ t, s.pc t = .idle) (hnil : s.holds = []) (e : Event T)
    (hok : Closing s e) (he : e.works = true) : step s e = none := by
  cases e with
  | lock t type u => exact hok.elim
  | downgrade t => exact hok.elim
  | interrupt t => cases he
  | unlock t type =>
    have hmem : (t, type) ∈ s.holds := hok
    rw [hnil] at hmem
    cases hmem
  | run t => simp [step, run, hidle t]

/-- **A reader/writer lock drains.**  From any state that polite users reach, a schedule in which no
new call of `rwlock_lock_uninterruptable` or `rwlock_downgrade` begins consists of at most
`2(n + 3)n` calls and sections, for `n` threads.  It can stop only when all calls have returned, all
holds are given up and the lock is as `rwlock_init` left it; by then every thread that was inside
`rwlock_lock_uninterruptable` has acquired the lock once, and nobody else. -/
theorem rwlock_drains [Fintype T] (es fs : List (Event T)) {s s' : State T}
    (hok : Lts.Along RwLock.step Polite rwlockInit es)
    (h : Lts.exec RwLock.step rwlockInit es = some s)
    (hclose : Lts.Along RwLock.step Closing s fs) (h' : Lts.exec RwLock.step s fs = some s') :
    fs.countP Event.works ≤ 2 * (Fintype.card T + 3) * Fintype.card T ∧
    ((∀ e, Closing s' e → e.works = true → RwLock.step s' e = none) →
      AtRest s' ∧ ∃ l, s'.rets = s.rets ++ l ∧
        ∀ t, l.filter (fun r => r.1 = t) = if (s.pc t).asks = true then [(t, 0)] else []) := by
  have hi : PoliteInv s :=
    Lts.exec_inv_along Polite PoliteInv (fun _ _ _ hi hok hs => hi.step hok hs) politeInv_initial
      hok h
  constructor
  · have hfuel := Lts.exec_budget
      (fun s e t hi hok hs => ⟨hi.step hok.polite hs,
        potential_move hi.firm.holds hi.firm.firm (hi.firm.wait.step_move hs) hok⟩) hi hclose h'
    exact (Nat.le_add_left _ _).trans (hfuel.trans hi.apart.potential_le)
  · intro hstop
    obtain ⟨hi', hserved⟩ : PoliteInv s' ∧ Served s s' :=
      Lts.exec_inv_along Closing (fun t => PoliteInv t ∧ Served s t)
        (fun _ _ _ hi hok hs => ⟨hi.1.step hok.polite hs, hi.2.trans
          (.move hi.1.firm.holds hi.1.firm.firm (hi.1.firm.wait.step_move hs) hok)⟩)
        ⟨hi, .same (fun _ => rfl) rfl⟩ hclose h'
    have hrest := hi'.atRest hstop
    obtain ⟨l, hl, hf⟩ := hserved.rets
    refine ⟨hrest, l, hl, ?_⟩
    intro t
    have hidle : (s'.pc t).asks = false := by rw [hrest.idle t]; rfl
    rw [hf t, hidle]
    simp

/-- Thread `t` holds the lock for writing and `u` and `w` have queued up, for writing and reading;
    then all get through. -/
def queueBehindWriter {T : Type} (t u w : T) : List (Event T) :=
  [.lock t .write true, .run t, .lock u .write true, .run u, .lock w .read true, .run w]

def drainQueue {T : Type} (t u w : T) : List (Event T) :=
  [.unlock t .write, .run t, .interrupt w, .run w, .unlock w .read, .run w, .run u,
    .unlock u .write, .run u]

theorem drainQueue_drains :
    ∃ s s' : State (Fin 3),
      Lts.exec RwLock.step rwlockInit (queueBehindWriter 0 1 2) = some s ∧
      Lts.exec RwLock.step s (drainQueue 0 1 2) = some s' ∧ AtRest s' ∧
      s'.rets = [(0, 0), (2, 0), (1, 0)] ∧
      (drainQueue (0 : Fin 3) 1 2).countP Event.works ≤ 36 := by
  have hdrain := rwlock_drains (queueBehindWriter (0 : Fin 3) 1 2) (drainQueue 0 1 2) (by decide)
    rfl (by decide) rfl
  refine ⟨_, _, rfl, rfl, (hdrain.2 (stopped_of_idle (by decide) rfl)).1, rfl, hdrain.1⟩

end Timix.RwLock
