import Timix.CondWait
import Timix.Lib.Monitor
import Timix.Lib.Refine

/-!
# The condition-variable code is a monitor (`kernel/cond.c`)

What the callers of `cond.c` see, the calls and what they return, is what the callers of a monitor
see, whose operations take effect at one instant (`Timix.Lib.Monitor`).

* `State.returns`, `label` — what a step of the code shows to the callers.
* `State.view` — how far a thread has got at the monitor.  A wait takes effect when it gives up the
  mutex, a signal when it pops the queue, a broadcast when it takes `q_lock`: the threads it has yet
  to pop are already woken.  A `cond_interrupt` takes effect when it takes its thread out of the
  queue, or when it learns that there is nothing to interrupt.
* `Mirrors` — the monitor has the owners of the mutexes, the `view` of every thread, and of every
  wait queue the threads that wait by their `view`, the oldest first.
* `Mirrors.run`, `Mirrors.call` — every step of the code is answered by the monitor.

Principal result: `cond_refines_monitor`.
-/

set_option autoImplicit false

namespace Timix.Cond

open Timix.Queue Owner Monitor Lts

variable {T C M : Type}

/-! ## What the callers see -/

def Call.op : Call T C M → Op T C M
  | .mutexLock mp => .lock mp
  | .mutexUnlock mp => .unlock mp
  | .condWait cv mp => .wait cv mp true
  | .condWaitUninterruptable cv mp => .wait cv mp false
  | .condSignal cv => .signal cv
  | .condBroadcast cv => .broadcast cv
  | .condInterrupt u => .interrupt u

/-- What the code returns for the monitor's replies; a `void` function returns 0. -/
def ret : Reply → Int
  | .done => 0
  | .interrupted => -EINTR
  | .refused => -EINVAL

def seen : Linear.Act T (Op T C M) Reply → Linear.Act T (Op T C M) Int
  | .call t a => .call t a
  | .ret t r => .ret t (ret r)

section Model

variable [DecidableEq T] [DecidableEq C] [DecidableEq M]

/-- What the next step of `t` inside a call returns to the caller, if it returns. -/
def State.returns (s : State T C M) (t : T) : Option Int :=
  match s.pc t with
  | .lockMp _ | .signalBody _ | .intrHit _ => some 0
  | .bcastLoop cv => if qGetFront s.heap cv ≠ none then none else some 0
  | .waitFail .. => some (-EINTR)
  | .wakeTest .. => some (if s.nodeFlags t &&& COND_INTERRUPTED ≠ 0 then -EINTR else 0)
  | .intrCheck u =>
    match s.nodeCv u with
    | none => some (-EINVAL)
    | some _ => if s.nodeFlags u &&& COND_UNINTERRUPTABLE ≠ 0 then some (-EINVAL) else none
  | .intrMiss _ => some (-EINVAL)
  | _ => none

/-- The calls and returns of one event; `mutex_unlock` is one step. -/
def label (s : State T C M) : Event T C M → List (Linear.Act T (Op T C M) Int)
  | .call t (.mutexUnlock mp) => [.call t (.unlock mp), .ret t 0]
  | .call t c => [.call t c.op]
  | .run t => (s.returns t).toList.map (.ret t)
  | .eintr _ => []

def monitorLabel (m : Monitor.State T C M) (e : Monitor.Event T C M) :
    List (Linear.Act T (Op T C M) Int) :=
  (Monitor.label m e).map seen

/-! ## How far a thread has got -/

/-- What a woken thread will report. -/
def State.reply (s : State T C M) (t : T) : Reply :=
  if s.nodeFlags t &&& COND_INTERRUPTED ≠ 0 then .interrupted else .done

open Classical in
/-- A thread that waits on `cv`, the mutex given up. -/
noncomputable def State.slept (s : State T C M) (t : T) (cv : C) (mp : M) (o : BitVec 32) :
    Status T C M :=
  if s.blocked t = false then .woken mp (s.reply t)
  else if ∃ i, s.pc i = .intrHit t then .woken mp .interrupted
  else if ∃ i, s.pc i = .bcastLoop cv then .woken mp .done
  else .waiting cv mp (decide (o = 0))

/-- How far thread `t` has got at the monitor. -/
noncomputable def State.view (s : State T C M) (t : T) : Status T C M :=
  match s.pc t with
  | .idle | .panicked => .out
  | .lockMp mp => .called (.lock mp)
  | .waitInit cv mp o | .waitNode cv mp o | .waitQ cv mp o | .waitPush cv mp o
  | .waitBlock cv mp o | .waitFail cv mp o | .waitUnlockMp cv mp o =>
    .called (.wait cv mp (decide (o = 0)))
  | .waitUnlockQ cv mp o | .asleep cv mp o => s.slept t cv mp o
  | .wakeNode _ mp _ | .wakeCv _ mp _ | .wakeMp mp _ => .woken mp (s.reply t)
  | .wakeTest .. => .done (s.reply t)
  | .signalQ cv | .signalBody cv => .called (.signal cv)
  | .bcastQ cv => .called (.broadcast cv)
  | .bcastLoop _ => .done .done
  | .intrNode u | .intrCheck u | .intrQ u _ | .intrScan u _ _ => .called (.interrupt u)
  | .intrMiss _ => .done .refused
  | .intrHit _ => .done .done

/-- Points at which others count as woken that are still blocked. -/
def Pc.wakes : Pc T C M → Bool
  | .intrHit _ | .bcastLoop _ => true
  | _ => false

/-- The mutex that a wait has yet to give up. -/
def Pc.gives : Pc T C M → Option M
  | .waitInit _ mp _ | .waitNode _ mp _ | .waitQ _ mp _ | .waitPush _ mp _ | .waitBlock _ mp _
  | .waitUnlockMp _ mp _ => some mp
  | _ => none

/-- The wait queue in which a wait stands that has yet to give up its mutex. -/
def Pc.joins : Pc T C M → Option C
  | .waitBlock cv _ _ | .waitUnlockMp cv _ _ => some cv
  | _ => none

/-- The monitor is where the code is. -/
structure Mirrors (s : State T C M) (L : C → List T) (m : Monitor.State T C M) : Prop where
  owner : m.owner = s.mutexes
  status : ∀ t, m.status t = s.view t
  queue : ∀ cv, m.queue cv = (L cv).reverse.filter fun t => (s.view t).waits
  held : ∀ t mp, (s.pc t).gives = some mp → s.mutexes mp = some t
  front : ∀ t cv, (s.pc t).joins = some cv → (L cv).head? = some t

variable {s s' : State T C M} {L L' : C → List T} {ph : T → Phase C} {t u : T}
  {m m' : Monitor.State T C M}

omit [DecidableEq T] [DecidableEq C] [DecidableEq M] in
theorem reply_congr (h : s'.nodeFlags u = s.nodeFlags u) : s'.reply u = s.reply u := by
  rw [State.reply, State.reply, h]

omit [DecidableEq T] [DecidableEq C] [DecidableEq M] in
theorem reply_of_waiting {o : BitVec 32} (ho : IsOpts o) (hf : s.nodeFlags u = waitFlags o) :
    s.reply u = .done := by
  rw [State.reply, hf]
  rcases ho with rfl | rfl <;> decide

omit [DecidableEq T] [DecidableEq C] [DecidableEq M] in
theorem slept_ne_out {cv : C} {mp : M} {o : BitVec 32} : s.slept u cv mp o ≠ .out := by
  unfold State.slept
  split
  · simp
  split
  · simp
  split <;> simp

omit [DecidableEq C] [DecidableEq M] in
/-- The threads outside at the monitor are the threads outside the code. -/
theorem WaitInv.view_out (hw : WaitInv s L ph) : s.view t = .out ↔ s.pc t = .idle := by
  have hloc := hw.loc t
  rw [State.view]
  cases hpc : s.pc t <;> rw [hpc] at hloc
  case panicked => exact hloc.elim
  case waitUnlockQ => exact iff_of_false slept_ne_out (by simp)
  case asleep => exact iff_of_false slept_ne_out (by simp)
  all_goals simp

omit [DecidableEq T] [DecidableEq C] [DecidableEq M] in
theorem slept_congr {cv : C} {mp : M} {o : BitVec 32} (hb : s'.blocked u = s.blocked u)
    (hf : s'.nodeFlags u = s.nodeFlags u)
    (hhit : (∃ i, s'.pc i = .intrHit u) ↔ ∃ i, s.pc i = .intrHit u)
    (hcast : s.blocked u = true → (∀ i, s.pc i ≠ .intrHit u) →
      ((∃ i, s'.pc i = .bcastLoop cv) ↔ ∃ i, s.pc i = .bcastLoop cv)) :
    s'.slept u cv mp o = s.slept u cv mp o := by
  unfold State.slept
  rw [hb, reply_congr hf]
  by_cases hblocked : s.blocked u = false
  · rw [if_pos hblocked, if_pos hblocked]
  · by_cases hi : ∃ i, s.pc i = .intrHit u
    · rw [if_neg hblocked, if_neg hblocked, if_pos hi, if_pos (hhit.2 hi)]
    · have hc := hcast (Bool.of_not_eq_false hblocked) fun i h => hi ⟨i, h⟩
      rw [if_neg hblocked, if_neg hblocked, if_neg hi, if_neg (hhit.not.2 hi)]
      by_cases hb : ∃ i, s.pc i = .bcastLoop cv
      · rw [if_pos hb, if_pos (hc.2 hb)]
      · rw [if_neg hb, if_neg (hc.not.2 hb)]

omit [DecidableEq T] [DecidableEq C] [DecidableEq M] in
/-- What the view of a thread depends on. -/
theorem view_congr (hpc : s'.pc u = s.pc u) (hb : s'.blocked u = s.blocked u)
    (hf : s'.nodeFlags u = s.nodeFlags u)
    (hhit : (∃ i, s'.pc i = .intrHit u) ↔ ∃ i, s.pc i = .intrHit u)
    (hcast : ∀ cv mp o, s.pc u = .waitUnlockQ cv mp o ∨ s.pc u = .asleep cv mp o →
      s.blocked u = true → (∀ i, s.pc i ≠ .intrHit u) →
      ((∃ i, s'.pc i = .bcastLoop cv) ↔ ∃ i, s.pc i = .bcastLoop cv)) :
    s'.view u = s.view u := by
  unfold State.view
  rw [hpc, reply_congr hf]
  split <;> first
    | rfl
    | exact slept_congr hb hf hhit (hcast _ _ _ (Or.inl ‹_›))
    | exact slept_congr hb hf hhit (hcast _ _ _ (Or.inr ‹_›))

omit [DecidableEq C] [DecidableEq M] in
/-- Whether somebody is at `q`, after a move of `t` that neither comes from there nor leads
    there. -/
theorem exists_point_iff {p q : Pc T C M} (hpc : s'.pc = Function.update s.pc t p) (hp : p ≠ q)
    (h₀ : s.pc t ≠ q) : (∃ i, s'.pc i = q) ↔ ∃ i, s.pc i = q := by
  rw [hpc]
  refine exists_congr fun i => ?_
  by_cases hi : i = t
  · subst hi
    rw [Function.update_self]
    exact iff_of_false hp h₀
  · rw [Function.update_of_ne hi]

omit [DecidableEq C] [DecidableEq M] in
/-- Somebody else moves, and not at a point at which he wakes. -/
theorem view_other {p : Pc T C M} (hpc : s'.pc = Function.update s.pc t p)
    (h₀ : (s.pc t).wakes = false) (hp : p.wakes = false) (hu : u ≠ t)
    (hb : s'.blocked u = s.blocked u) (hf : s'.nodeFlags u = s.nodeFlags u) :
    s'.view u = s.view u := by
  have hiff : ∀ q : Pc T C M, q.wakes = true → ((∃ i, s'.pc i = q) ↔ ∃ i, s.pc i = q) := by
    intro q hq
    refine exists_point_iff hpc ?_ ?_
    · rintro rfl
      rw [hp] at hq
      cases hq
    · rintro rfl
      rw [h₀] at hq
      cases hq
  exact view_congr (by rw [hpc, Function.update_of_ne hu]) hb hf (hiff _ rfl)
    fun _ _ _ _ _ _ => hiff _ rfl

omit [DecidableEq T] [DecidableEq C] [DecidableEq M] in
/-- Who waits by his view. -/
theorem view_waiting {cv : C} {mp : M} {i : Bool} (h : s.view u = .waiting cv mp i) :
    ∃ o, i = decide (o = 0) ∧ (s.pc u = .waitUnlockQ cv mp o ∨ s.pc u = .asleep cv mp o) ∧
      s.blocked u = true ∧ (∀ j, s.pc j ≠ .intrHit u) ∧ ∀ j, s.pc j ≠ .bcastLoop cv := by
  have hslept : ∀ cv' mp' o, s.slept u cv' mp' o = .waiting cv mp i →
      (cv' = cv ∧ mp' = mp ∧ i = decide (o = 0)) ∧ s.blocked u = true ∧
        (∀ j, s.pc j ≠ .intrHit u) ∧ ∀ j, s.pc j ≠ .bcastLoop cv := by
    intro cv' mp' o h
    unfold State.slept at h
    split at h
    · cases h
    split at h
    · cases h
    split at h
    · cases h
    rename_i hb hi hc
    cases h
    exact ⟨⟨rfl, rfl, rfl⟩, Bool.of_not_eq_false hb, not_exists.1 hi, not_exists.1 hc⟩
  unfold State.view at h
  cases hpc : s.pc u <;> rw [hpc] at h
  case waitUnlockQ cv' mp' o =>
    obtain ⟨⟨rfl, rfl, hi⟩, hrest⟩ := hslept cv' mp' o h
    exact ⟨o, hi, Or.inl rfl, hrest⟩
  case asleep cv' mp' o =>
    obtain ⟨⟨rfl, rfl, hi⟩, hrest⟩ := hslept cv' mp' o h
    exact ⟨o, hi, Or.inr rfl, hrest⟩
  all_goals cases h

omit [DecidableEq T] [DecidableEq C] [DecidableEq M] in
theorem slept_waiting {cv : C} {mp : M} {o : BitVec 32} (hb : s.blocked u = true)
    (hi : ∀ j, s.pc j ≠ .intrHit u) (hc : ∀ j, s.pc j ≠ .bcastLoop cv) :
    s.slept u cv mp o = .waiting cv mp (decide (o = 0)) := by
  unfold State.slept
  rw [if_neg (by rw [hb]; decide), if_neg (not_exists.2 hi), if_neg (not_exists.2 hc)]

omit [DecidableEq T] [DecidableEq C] [DecidableEq M] in
theorem slept_broadcast {cv : C} {mp : M} {o : BitVec 32} (hb : s.blocked u = true)
    (hi : ∀ j, s.pc j ≠ .intrHit u) (hc : s.pc t = .bcastLoop cv) :
    s.slept u cv mp o = .woken mp .done := by
  unfold State.slept
  rw [if_neg (by rw [hb]; decide), if_neg (not_exists.2 hi), if_pos ⟨t, hc⟩]

omit [DecidableEq T] [DecidableEq C] [DecidableEq M] in
theorem slept_hit {cv : C} {mp : M} {o : BitVec 32} (hb : s.blocked u = true)
    (hi : s.pc t = .intrHit u) : s.slept u cv mp o = .woken mp .interrupted := by
  unfold State.slept
  rw [if_neg (by rw [hb]; decide), if_pos ⟨t, hi⟩]

/-! ## The answers of the monitor -/

theorem shows_call (ht : m.status t = .out) (a : Op T C M) :
    Shows Monitor.step monitorLabel m [.call t a] (m.setStatus t (.called a)) :=
  Shows.single (Monitor.Event.call t a) (by simp only [Monitor.step, if_pos ht])

theorem shows_effect (h : effect m t = some m') : Shows Monitor.step monitorLabel m [] m' :=
  Shows.single (Monitor.Event.effect t) h

theorem shows_ret {r : Reply} (ht : m.status t = .done r) :
    Shows Monitor.step monitorLabel m [.ret t (ret r)] (m.setStatus t .out) := by
  have h : Shows Monitor.step monitorLabel m (monitorLabel m (.ret t)) (m.setStatus t .out) :=
    Shows.single _ (by simp only [Monitor.step, ht])
  simp only [monitorLabel, Monitor.label, ht] at h
  exact h

/-- An operation takes effect and returns. -/
theorem shows_effect_ret {r : Reply} (h : effect m t = some m') (ht : m'.status t = .done r) :
    Shows Monitor.step monitorLabel m [.ret t (ret r)] (m'.setStatus t .out) :=
  (shows_effect h).trans (shows_ret ht)

/-! ## The thread that moves and the others -/

omit [DecidableEq T] [DecidableEq C] [DecidableEq M] in
theorem Pc.joins_q {p : Pc T C M} {cv : C} (h : p.joins = some cv) : p.q = some cv := by
  cases p <;> first | exact h | cases h

omit [DecidableEq C] [DecidableEq M] in
/-- The mutexes that the waits have yet to give up, after a step of `t` to `p`. -/
theorem Mirrors.held_step (h : Mirrors s L m) {p : Pc T C M}
    (hpc : s'.pc = Function.update s.pc t p)
    (hown : ∀ mp, p.gives = some mp → s'.mutexes mp = some t)
    (hoth : ∀ u mp, u ≠ t → s.mutexes mp = some u → s'.mutexes mp = some u) (u : T) (mp : M)
    (hu : (s'.pc u).gives = some mp) : s'.mutexes mp = some u := by
  rw [hpc] at hu
  by_cases hut : u = t
  · subst hut
    rw [Function.update_self] at hu
    exact hown mp hu
  · rw [Function.update_of_ne hut] at hu
    exact hoth u mp hut (h.held u mp hu)

omit [DecidableEq C] [DecidableEq M] in
/-- The fronts of the queues; `t` holds the lock of every queue that changes. -/
theorem Mirrors.front_step (h : Mirrors s L m) (hl : LockInv s) {p : Pc T C M}
    (hpc : s'.pc = Function.update s.pc t p)
    (hown : ∀ cv, p.joins = some cv → (L' cv).head? = some t)
    (hq : ∀ cv, L' cv = L cv ∨ (s.pc t).q = some cv) (u : T) (cv : C)
    (hu : (s'.pc u).joins = some cv) : (L' cv).head? = some u := by
  rw [hpc] at hu
  by_cases hut : u = t
  · subst hut
    rw [Function.update_self] at hu
    exact hown cv hu
  · rw [Function.update_of_ne hut] at hu
    rcases hq cv with hL | hq
    · rw [hL]
      exact h.front u cv hu
    · exact absurd (hl.q.unique (Pc.joins_q hu) hq) hut

omit [DecidableEq T] [DecidableEq M] in
/-- Only the queue of `cv` changes, and `t` holds its lock. -/
theorem queues_change {cv : C} {l : List T} (hq : (s.pc t).q = some cv) (c : C) :
    Function.update L cv l c = L c ∨ (s.pc t).q = some c := by
  by_cases hc : c = cv
  · subst hc
    exact Or.inr hq
  · exact Or.inl (Function.update_of_ne hc ..)

/-! ## Steps that leave the queues alone -/

omit [DecidableEq C] [DecidableEq M] in
/-- A step of `t` after which only `t` is somewhere else, in no queue the others look at. -/
theorem Mirrors.keep (h : Mirrors s L m) (hl : LockInv s) {p : Pc T C M}
    (hpc : s'.pc = Function.update s.pc t p) (h₀ : (s.pc t).wakes = false) (hp : p.wakes = false)
    (hb : ∀ u, u ≠ t → s'.blocked u = s.blocked u)
    (hf : ∀ u, u ≠ t → s'.nodeFlags u = s.nodeFlags u)
    (howner : m'.owner = s'.mutexes) (hqueue : m'.queue = m.queue)
    (hstatus : m'.status = Function.update m.status t (s'.view t))
    (hwaits : (s'.view t).waits = (s.view t).waits)
    (hown : ∀ mp, p.gives = some mp → s'.mutexes mp = some t)
    (hoth : ∀ u mp, u ≠ t → s.mutexes mp = some u → s'.mutexes mp = some u)
    (hjoins : ∀ cv, p.joins = some cv → (s.pc t).joins = some cv) : Mirrors s' L m' := by
  have hview : ∀ u, u ≠ t → s'.view u = s.view u := fun u hu =>
    view_other hpc h₀ hp hu (hb u hu) (hf u hu)
  refine ⟨howner, ?_, ?_, ?_, ?_⟩
  · intro u
    rw [hstatus]
    by_cases hu : u = t
    · rw [hu, Function.update_self]
    · rw [Function.update_of_ne hu, h.status, hview u hu]
  · intro cv
    rw [hqueue, h.queue]
    apply List.filter_congr
    intro u _
    by_cases hu : u = t
    · rw [hu, hwaits]
    · rw [hview u hu]
  · exact h.held_step hpc hown hoth
  · exact h.front_step hl hpc (fun cv hj => h.front t cv (hjoins cv hj)) fun _ => Or.inl rfl

omit [DecidableEq C] [DecidableEq M] in
/-- A step that the monitor does not notice. -/
theorem Mirrors.silent (h : Mirrors s L m) (hl : LockInv s) {p : Pc T C M}
    (hpc : s'.pc = Function.update s.pc t p) (h₀ : (s.pc t).wakes = false) (hp : p.wakes = false)
    (hb : ∀ u, u ≠ t → s'.blocked u = s.blocked u)
    (hf : ∀ u, u ≠ t → s'.nodeFlags u = s.nodeFlags u) (hmp : s'.mutexes = s.mutexes)
    (hview : s'.view t = s.view t) (hgives : ∀ mp, p.gives = some mp → (s.pc t).gives = some mp)
    (hjoins : ∀ cv, p.joins = some cv → (s.pc t).joins = some cv) : Mirrors s' L m := by
  refine h.keep hl hpc h₀ hp hb hf (by rw [h.owner, hmp]) rfl ?_ (by rw [hview]) ?_ ?_ hjoins
  · rw [hview, ← h.status, Function.update_eq_self]
  · intro mp hg
    rw [hmp]
    exact h.held t mp (hgives mp hg)
  · intro u mp _ hu
    rw [hmp]
    exact hu

/-! ## The steps that change a queue or a view of others -/

/-- The monitor shows `l` and is where the code is again. -/
def Answered (s' : State T C M) (m : Monitor.State T C M)
    (l : List (Linear.Act T (Op T C M) Int)) : Prop :=
  ∃ L' m', Represents s'.heap L' ∧ Shows Monitor.step monitorLabel m l m' ∧ Mirrors s' L' m'

omit [DecidableEq C] [DecidableEq M] in
/-- A blocked thread that no `cond_interrupt` has taken out is queued. -/
theorem WaitInv.mem_of_blocked (hw : WaitInv s L ph) {cv : C} {mp : M} {o : BitVec 32}
    (hat : s.pc u = .waitUnlockQ cv mp o ∨ s.pc u = .asleep cv mp o) (hb : s.blocked u = true)
    (hi : ∀ i, s.pc i ≠ .intrHit u) : ph u = .waiting cv o ∧ u ∈ L cv := by
  have hph : ph u = .waiting cv o := by
    have hloc := hw.loc u
    rcases hat with hat | hat
    · rw [hat] at hloc
      exact hloc.2.2.1
    · rw [hat] at hloc
      obtain ⟨-, -, ⟨hph, -⟩ | ⟨_, -, hb', -⟩⟩ := hloc
      · exact hph
      · rw [hb] at hb'
        cases hb'
  exact ⟨hph, (hw.mem u cv).2 ⟨⟨o, hph⟩, hi⟩⟩

omit [DecidableEq C] [DecidableEq M] in
/-- Who waits by his view is queued there. -/
theorem WaitInv.mem_of_view (hw : WaitInv s L ph) {cv : C} {mp : M} {i : Bool}
    (h : s.view u = .waiting cv mp i) :
    u ∈ L cv ∧ ∃ o, i = decide (o = 0) ∧ ph u = .waiting cv o := by
  obtain ⟨o, ho, hat, hb, hi, -⟩ := view_waiting h
  obtain ⟨hph, hmem⟩ := hw.mem_of_blocked hat hb hi
  exact ⟨hmem, o, ho, hph⟩

omit [DecidableEq T] [DecidableEq C] [DecidableEq M] in
theorem waits_iff {x : Status T C M} : x.waits = true ↔ ∃ cv mp i, x = .waiting cv mp i := by
  cases x <;> simp [Status.waits]

/-- **A wait is queued**; the monitor does not know yet. -/
theorem Mirrors.push (h : Mirrors s L m) (hw : WaitInv s L ph) (hl : LockInv s) {cv : C} {mp : M}
    {o : BitVec 32} (hpc : s.pc t = .waitPush cv mp o) : Answered (pushed s t cv mp o) m [] := by
  have hloc := hw.loc t
  rw [hpc] at hloc
  have hfree := hw.not_mem hloc.2.2.1
  have hview : ∀ u, (pushed s t cv mp o).view u = s.view u := by
    intro u
    by_cases hu : u = t
    · subst hu
      rw [State.view, State.view, hpc, show (pushed s u cv mp o).pc u = .waitBlock cv mp o from
        Function.update_self ..]
    · exact view_other (t := t) (p := .waitBlock cv mp o) rfl (by rw [hpc]; rfl) rfl hu rfl
        (Function.update_of_ne hu ..)
  have hnot : (s.view t).waits = false := by
    rw [State.view, hpc]
    rfl
  refine ⟨_, m, condQPush_rep hw.rep hfree, Shows.refl m, h.owner, ?_, ?_, ?_, ?_⟩
  · intro u
    rw [hview, h.status]
  · intro c
    simp only [hview]
    rw [h.queue]
    by_cases hc : c = cv
    · subst hc
      rw [Function.update_self, List.reverse_cons, List.filter_append,
        List.filter_cons_of_neg (by rw [hnot]; decide), List.filter_nil, List.append_nil]
    · rw [Function.update_of_ne hc]
  · exact h.held_step (p := .waitBlock cv mp o) rfl
      (fun mp' hg => h.held t mp' (by rw [hpc]; exact hg)) fun _ _ _ hu => hu
  · refine h.front_step hl (p := .waitBlock cv mp o) rfl (fun c hj => ?_)
      (queues_change (by rw [hpc]; rfl))
    cases hj
    rw [Function.update_self]
    rfl

/-- **A wait takes effect.** -/
theorem Mirrors.giveUp (h : Mirrors s L m) (hw : WaitInv s L ph) (hl : LockInv s) {cv : C} {mp : M}
    {o : BitVec 32} (hpc : s.pc t = .waitUnlockMp cv mp o) :
    Answered ((s.setMutex mp none).setPc t (.waitUnlockQ cv mp o)) m [] := by
  obtain ⟨s', hs'⟩ : ∃ s', s' = (s.setMutex mp none).setPc t (.waitUnlockQ cv mp o) := ⟨_, rfl⟩
  rw [← hs']
  have hloc := hw.loc t
  rw [hpc] at hloc
  obtain ⟨-, -, -, hb, -⟩ := hloc
  have hpc' : s'.pc = Function.update s.pc t (.waitUnlockQ cv mp o) := by rw [hs']; rfl
  have hmp : s'.mutexes = Function.update s.mutexes mp none := by rw [hs']; rfl
  have howner : s.mutexes mp = some t := h.held t mp (by rw [hpc]; rfl)
  have hst : m.status t = .called (.wait cv mp (decide (o = 0))) := by
    rw [h.status, State.view, hpc]
  have heff : effect m t = some (((m.setOwner mp none).setQueue cv (m.queue cv ++ [t])).setStatus t
      (.waiting cv mp (decide (o = 0)))) := by
    simp only [effect, hst]
    rw [if_pos (by rw [h.owner, howner])]
  have hoth : ∀ u, u ≠ t → s'.view u = s.view u := fun u hu =>
    view_other hpc' (by rw [hpc]; rfl) rfl hu (by rw [hs']; rfl) (by rw [hs']; rfl)
  have hview : s'.view t = .waiting cv mp (decide (o = 0)) := by
    rw [State.view, hpc', Function.update_self]
    refine slept_waiting (by rw [hs']; exact hb) ?_ ?_
    · intro i hi
      rw [hpc'] at hi
      exact hw.not_hit (by rw [hpc]; simp) i (eq_of_update hi (by simp))
    · intro i hi
      rw [hpc'] at hi
      have hi : s.pc i = .bcastLoop cv := eq_of_update hi (by simp)
      have hit : i = t := hl.q.unique (k := cv) (by rw [hi]; rfl) (by rw [hpc]; rfl)
      rw [hit, hpc] at hi
      cases hi
  have hnot : (s.view t).waits = false := by
    rw [State.view, hpc]
    rfl
  obtain ⟨rest, hrest⟩ : ∃ rest, L cv = t :: rest := by
    have hfront := h.front t cv (by rw [hpc]; rfl)
    exact ⟨_, (List.cons_head?_tail hfront).symm⟩
  have hnodup := hw.rep.nodup cv
  rw [hrest, List.nodup_cons] at hnodup
  refine ⟨L, _, by rw [hs']; exact hw.rep, shows_effect heff, ?_, ?_, ?_, ?_, ?_⟩
  · rw [hmp, ← h.owner]
    rfl
  · intro u
    by_cases hu : u = t
    · subst hu
      rw [hview]
      exact Function.update_self ..
    · rw [hoth u hu, ← h.status]
      exact Function.update_of_ne hu ..
  · intro c
    by_cases hc : c = cv
    · subst hc
      have hq : m.queue c = rest.reverse.filter fun u => (s.view u).waits := by
        rw [h.queue, hrest, List.reverse_cons, List.filter_append,
          List.filter_cons_of_neg (by rw [hnot]; decide), List.filter_nil, List.append_nil]
      show Function.update m.queue c (m.queue c ++ [t]) c = _
      rw [Function.update_self, hrest, List.reverse_cons, List.filter_append,
        List.filter_cons_of_pos (by rw [hview]; rfl), List.filter_nil, hq]
      congr 1
      refine List.filter_congr fun u hu => ?_
      rw [hoth u]
      rintro rfl
      exact hnodup.1 (List.mem_reverse.1 hu)
    · show Function.update m.queue cv _ c = _
      rw [Function.update_of_ne hc, h.queue]
      refine List.filter_congr fun u hu => ?_
      rw [hoth u]
      rintro rfl
      exact hc (hw.rep.disjoint c cv u (List.mem_reverse.1 hu) (by rw [hrest]; simp))
  · refine h.held_step hpc' (fun _ hg => by cases hg) fun u mp' hut hu => ?_
    rw [hmp, Function.update_of_ne, hu]
    rintro rfl
    rw [howner] at hu
    exact hut (Option.some.inj hu).symm
  · exact h.front_step hl hpc' (fun _ hj => by cases hj) fun _ => Or.inl rfl

omit [DecidableEq T] [DecidableEq C] [DecidableEq M] in
theorem view_woken {cv : C} {mp : M} {o : BitVec 32} (hat : s.pc u = .asleep cv mp o)
    (hb : s.blocked u = false) : s.view u = .woken mp (s.reply u) := by
  rw [State.view, hat]
  exact if_pos hb

omit [DecidableEq C] [DecidableEq M] in
/-- The thread that the holder of `q_lock` finds at the end of the queue. -/
theorem WaitInv.oldest (hw : WaitInv s L ph) (hl : LockInv s) {cv : C}
    (htail : s.heap.tail cv = some u) (hq : (s.pc t).q = some cv) (hout : ph t = .out) :
    ∃ l mp o, L cv = l ++ [u] ∧ u ∉ l ∧ u ≠ t ∧ t ∉ l ∧ s.pc u = .asleep cv mp o ∧
      s.blocked u = true ∧ s.reply u = .done ∧ ∀ i, s.pc i ≠ .intrHit u := by
  obtain ⟨l, hL⟩ := List.getLast?_eq_some_iff.1 (hw.rep.tail cv ▸ htail)
  have hmem : u ∈ L cv := by rw [hL]; simp
  obtain ⟨hut, mp, o, hpu, hb, hph⟩ := hw.asleep_of_mem hl hmem hq hout
  obtain ⟨ho, hf, -⟩ := hw.flags_of_waiting hph
  have hnodup := hw.rep.nodup cv
  rw [hL, List.nodup_append] at hnodup
  refine ⟨l, mp, o, hL, fun hm => hnodup.2.2 u hm u (by simp) rfl, hut, ?_, hpu, hb,
    reply_of_waiting ho hf, ((hw.mem u cv).1 hmem).2⟩
  intro hm
  exact hw.not_mem hout cv (by rw [hL]; exact List.mem_append_left _ hm)

/-- **A signal takes effect**, and returns. -/
theorem Mirrors.signal (h : Mirrors s L m) (hw : WaitInv s L ph) (hl : LockInv s) {cv : C}
    (hpc : s.pc t = .signalBody cv) :
    Answered (((doCondSignalUnsafe s cv t .signal).setQLock cv none).setPc t .idle) m
      [.ret t 0] := by
  have hloc := hw.loc t
  rw [hpc] at hloc
  obtain ⟨-, hout, -⟩ := hloc
  have hst : m.status t = .called (.signal cv) := by rw [h.status, State.view, hpc]
  have hnot : (s.view t).waits = false := by
    rw [State.view, hpc]
    rfl
  have hquiet : (s.pc t).wakes = false := by rw [hpc]; rfl
  rcases doCondSignalUnsafe_cases s cv t .signal with ⟨htail, he⟩ | ⟨u, htail, he⟩
  · have hempty : L cv = [] := by
      rw [hw.rep.tail] at htail
      exact List.getLast?_eq_none_iff.1 htail
    have hq : m.queue cv = [] := by
      rw [h.queue, hempty]
      rfl
    have heff : effect m t = some (m.setStatus t (.done .done)) := by
      simp only [effect, hst, hq]
    rw [he]
    have hview : (((s.setQLock cv none).setPc t .idle).view t) = .out := by
      rw [State.view, show ((s.setQLock cv none).setPc t .idle).pc t = .idle from
        Function.update_self ..]
    refine ⟨L, _, hw.rep, shows_effect_ret heff (Function.update_self ..),
      h.keep hl (p := .idle) rfl hquiet rfl (fun _ _ => rfl) (fun _ _ => rfl) h.owner rfl ?_ ?_
      (fun _ hg => by cases hg) (fun _ _ _ hu => hu) (fun _ hj => by cases hj)⟩
    · rw [hview]
      exact Function.update_idem ..
    · rw [hview, hnot]
      rfl
  · obtain ⟨l, mp, o, hL, hul, hut, htl, hpu, hb, hreply, hhit⟩ :=
      hw.oldest hl htail (t := t) (by rw [hpc]; rfl) hout
    rw [hl.tcb u] at he
    rw [he]
    obtain ⟨s', hs'⟩ : ∃ s', s' = ((schedUnblockTcb (s.setHeap (qRemove s.heap cv u)) t u
      .signal).setQLock cv none).setPc t .idle := ⟨_, rfl⟩
    rw [← hs']
    have hpc' : s'.pc = Function.update s.pc t .idle := by rw [hs']; rfl
    have hblocked : s'.blocked = Function.update s.blocked u false := by rw [hs']; rfl
    have hview : s.view u = .waiting cv mp (decide (o = 0)) := by
      rw [State.view, hpu]
      refine slept_waiting hb hhit fun j hj => ?_
      have hjt : j = t := hl.q.unique (k := cv) (by rw [hj]; rfl) (by rw [hpc]; rfl)
      rw [hjt, hpc] at hj
      cases hj
    have hviewt : s'.view t = .out := by rw [State.view, hpc', Function.update_self]
    have hviewu : s'.view u = .woken mp .done := by
      have hat : s'.pc u = .asleep cv mp o := by rw [hpc', Function.update_of_ne hut, hpu]
      rw [view_woken hat (by rw [hblocked, Function.update_self]),
        reply_congr (s := s) (by rw [hs']; rfl), hreply]
    have hoth : ∀ w, w ≠ t → w ≠ u → s'.view w = s.view w := fun w hwt hwu =>
      view_other hpc' hquiet rfl hwt (by rw [hblocked, Function.update_of_ne hwu])
        (by rw [hs']; rfl)
    have hq : m.queue cv = u :: l.reverse.filter fun w => (s.view w).waits := by
      rw [h.queue, hL, List.reverse_append, List.reverse_singleton, List.singleton_append,
        List.filter_cons_of_pos (by rw [hview]; rfl)]
    have heff : effect m t = some (((m.setQueue cv (l.reverse.filter fun w =>
        (s.view w).waits)).setStatus u (.woken mp .done)).setStatus t (.done .done)) := by
      simp only [effect, hst, hq]
      rw [h.status u, hview]
      rfl
    refine ⟨_, _, by rw [hs']; exact (condQPop_concat hw.rep hL).2,
      shows_effect_ret heff (Function.update_self ..), ?_, ?_, ?_, ?_, ?_⟩
    · rw [hs']
      exact h.owner
    · intro w
      show Function.update (Function.update (Function.update m.status u _) t _) t _ w = _
      by_cases hwt : w = t
      · subst hwt
        rw [Function.update_self, hviewt]
      · rw [Function.update_of_ne hwt, Function.update_of_ne hwt]
        by_cases hwu : w = u
        · subst hwu
          rw [Function.update_self, hviewu]
        · rw [Function.update_of_ne hwu, h.status, hoth w hwt hwu]
    · intro c
      show Function.update m.queue cv _ c = _
      by_cases hc : c = cv
      · subst hc
        rw [Function.update_self, Function.update_self]
        refine List.filter_congr fun w hw' => ?_
        have hw' := List.mem_reverse.1 hw'
        rw [hoth w (fun hwt => htl (hwt ▸ hw')) fun hwu => hul (hwu ▸ hw')]
      · rw [Function.update_of_ne hc, Function.update_of_ne hc, h.queue]
        refine List.filter_congr fun w hw' => ?_
        have hw' := List.mem_reverse.1 hw'
        rw [hoth w]
        · rintro rfl
          exact hw.not_mem hout c hw'
        · rintro rfl
          exact hc (hw.rep.disjoint c cv w hw' (by rw [hL]; simp))
    · exact h.held_step hpc' (fun _ hg => by cases hg) fun _ _ _ hu => by rw [hs']; exact hu
    · exact h.front_step hl hpc' (fun _ hj => by cases hj) (queues_change (by rw [hpc]; rfl))

/-- **A broadcast takes effect**: the threads queued now are woken. -/
theorem Mirrors.broadcast (h : Mirrors s L m) (hw : WaitInv s L ph) (hl : LockInv s) {cv : C}
    (hpc : s.pc t = .bcastQ cv) (hfree : s.qLock cv = none) :
    Answered ((s.setQLock cv (some t)).setPc t (.bcastLoop cv)) m [] := by
  obtain ⟨s', hs'⟩ : ∃ s', s' = (s.setQLock cv (some t)).setPc t (.bcastLoop cv) := ⟨_, rfl⟩
  rw [← hs']
  have hloc := hw.loc t
  rw [hpc] at hloc
  obtain ⟨-, hout, -⟩ := hloc
  have hpc' : s'.pc = Function.update s.pc t (.bcastLoop cv) := by rw [hs']; rfl
  have hst : m.status t = .called (.broadcast cv) := by rw [h.status, State.view, hpc]
  have heff : effect m t = some (((m.wakeAll (m.queue cv)).setQueue cv []).setStatus t
      (.done .done)) := by
    simp only [effect, hst]
  have hnone : ∀ j, s.pc j ≠ .bcastLoop cv := fun j hj =>
    hl.q.not_holds_of_free hfree j (by rw [hj]; rfl)
  have hqueued : ∀ w, w ∈ m.queue cv ↔ w ∈ L cv ∧ (s.view w).waits = true := by
    intro w
    rw [h.queue, List.mem_filter, List.mem_reverse]
  have hhit : ∀ w, (∃ i, s'.pc i = .intrHit w) ↔ ∃ i, s.pc i = .intrHit w := fun w =>
    exists_point_iff hpc' (by simp) (by rw [hpc]; simp)
  have hviewt : s'.view t = .done .done := by rw [State.view, hpc', Function.update_self]
  -- the threads that counted as waiting are those the queue holds
  have hwoken : ∀ w ∈ m.queue cv, s'.view w = (m.status w).wake .done := by
    intro w hwq
    obtain ⟨hwL, hwaits⟩ := (hqueued w).1 hwq
    obtain ⟨c, mp, i, hview⟩ := waits_iff.1 hwaits
    obtain ⟨o, -, hat, hb, hi, -⟩ := view_waiting hview
    obtain rfl : c = cv := hw.rep.disjoint c cv w (hw.mem_of_view hview).1 hwL
    have hwt : w ≠ t := by
      rintro rfl
      exact hw.not_mem hout c hwL
    have hslept : s'.slept w c mp o = .woken mp .done :=
      slept_broadcast (by rw [hs']; exact hb)
        (not_exists.1 ((hhit w).not.2 (not_exists.2 hi)))
        (by rw [hpc', Function.update_self])
    have hpcw : s'.pc w = s.pc w := by rw [hpc', Function.update_of_ne hwt]
    rw [h.status, hview, State.view, hpcw]
    rcases hat with hat | hat <;> rw [hat] <;> exact hslept
  have hoth : ∀ w, w ≠ t → w ∉ m.queue cv → s'.view w = s.view w := by
    intro w hwt hwq
    refine view_congr (by rw [hpc', Function.update_of_ne hwt]) (by rw [hs']; rfl)
      (by rw [hs']; rfl) (hhit w) ?_
    intro c mp o hat hb hi
    have hc : c ≠ cv := by
      rintro rfl
      have hwL := (hw.mem_of_blocked hat hb hi).2
      refine hwq ((hqueued w).2 ⟨hwL, ?_⟩)
      rw [State.view]
      rcases hat with hat | hat <;> rw [hat] <;>
        exact waits_iff.2 ⟨_, _, _, slept_waiting hb hi hnone⟩
    exact exists_point_iff hpc' (by simpa using Ne.symm hc) (by rw [hpc]; simp)
  refine ⟨L, _, by rw [hs']; exact hw.rep, shows_effect heff, by rw [hs']; exact h.owner, ?_, ?_,
    ?_, ?_⟩
  · intro w
    show Function.update (fun w => if w ∈ m.queue cv then (m.status w).wake .done else m.status w)
      t (.done .done) w = _
    by_cases hwt : w = t
    · rw [hwt, Function.update_self, hviewt]
    · rw [Function.update_of_ne hwt]
      by_cases hwq : w ∈ m.queue cv
      · rw [if_pos hwq, hwoken w hwq]
      · rw [if_neg hwq, h.status, hoth w hwt hwq]
  · intro c
    show Function.update m.queue cv [] c = _
    by_cases hc : c = cv
    · subst hc
      rw [Function.update_self, Eq.comm, List.filter_eq_nil_iff]
      intro w hwL hwaits
      obtain ⟨c', mp, i, hview⟩ := waits_iff.1 hwaits
      have hwL := List.mem_reverse.1 hwL
      by_cases hwq : w ∈ m.queue c
      · rw [hwoken w hwq] at hview
        cases hst : m.status w <;> rw [hst] at hview <;> cases hview
      · have hwt : w ≠ t := by
          rintro rfl
          exact hw.not_mem hout c hwL
        rw [hoth w hwt hwq] at hview
        exact hwq ((hqueued w).2 ⟨hwL, waits_iff.2 ⟨_, _, _, hview⟩⟩)
    · rw [Function.update_of_ne hc, h.queue]
      refine List.filter_congr fun w hwL => ?_
      have hwL := List.mem_reverse.1 hwL
      rw [hoth w]
      · rintro rfl
        exact hw.not_mem hout c hwL
      · intro hwq
        exact hc (hw.rep.disjoint c cv w hwL ((hqueued w).1 hwq).1)
  · exact h.held_step hpc' (fun _ hg => by cases hg) fun _ _ _ hu => by rw [hs']; exact hu
  · exact h.front_step hl hpc' (fun _ hj => by cases hj) fun _ => Or.inl rfl

/-- A broadcast pops a thread; at the monitor it was woken before. -/
theorem Mirrors.pop (h : Mirrors s L m) (hw : WaitInv s L ph) (hl : LockInv s) {cv : C}
    (hpc : s.pc t = .bcastLoop cv) :
    Answered (doCondSignalUnsafe s cv t .broadcast) m [] := by
  have hloc := hw.loc t
  rw [hpc] at hloc
  obtain ⟨-, hout, -⟩ := hloc
  rcases doCondSignalUnsafe_cases s cv t .broadcast with ⟨-, he⟩ | ⟨u, htail, he⟩
  · rw [he]
    exact ⟨L, m, hw.rep, Shows.refl m, h⟩
  obtain ⟨l, mp, o, hL, -, -, -, hpu, hb, hreply, hhit⟩ :=
    hw.oldest hl htail (t := t) (by rw [hpc]; rfl) hout
  rw [hl.tcb u] at he
  rw [he]
  obtain ⟨s', hs'⟩ : ∃ s', s' = schedUnblockTcb (s.setHeap (qRemove s.heap cv u)) t u .broadcast :=
    ⟨_, rfl⟩
  rw [← hs']
  have hpc' : s'.pc = s.pc := by rw [hs']; rfl
  have hblocked : s'.blocked = Function.update s.blocked u false := by rw [hs']; rfl
  have hviewu : s.view u = .woken mp .done := by
    rw [State.view, hpu]
    exact slept_broadcast hb hhit hpc
  have hview : ∀ w, s'.view w = s.view w := by
    intro w
    by_cases hwu : w = u
    · subst hwu
      have hat : s'.pc w = .asleep cv mp o := by rw [hpc', hpu]
      rw [hviewu, view_woken hat (by rw [hblocked, Function.update_self]),
        reply_congr (s := s) (by rw [hs']; rfl), hreply]
    · exact view_congr (by rw [hpc']) (by rw [hblocked, Function.update_of_ne hwu])
        (by rw [hs']; rfl) (by rw [hpc']) fun _ _ _ _ _ _ => by rw [hpc']
  have hpc'' : s'.pc = Function.update s.pc t (.bcastLoop cv) := by
    rw [hpc', ← hpc, Function.update_eq_self]
  refine ⟨_, m, by rw [hs']; exact (condQPop_concat hw.rep hL).2, Shows.refl m,
    by rw [hs']; exact h.owner, ?_, ?_, ?_, ?_⟩
  · intro w
    rw [hview, h.status]
  · intro c
    simp only [hview]
    rw [h.queue]
    by_cases hc : c = cv
    · subst hc
      rw [Function.update_self, hL, List.reverse_append, List.reverse_singleton,
        List.singleton_append, List.filter_cons_of_neg (by rw [hviewu]; exact Bool.false_ne_true)]
    · rw [Function.update_of_ne hc]
  · exact h.held_step hpc'' (fun _ hg => by cases hg) fun _ _ _ hu => by rw [hs']; exact hu
  · exact h.front_step hl hpc'' (fun _ hj => by cases hj) (queues_change (by rw [hpc]; rfl))

/-- A broadcast returns. -/
theorem Mirrors.bcastEnd (h : Mirrors s L m) (hw : WaitInv s L ph) (hl : LockInv s) {cv : C}
    (hpc : s.pc t = .bcastLoop cv) (hempty : s.heap.head cv = none) :
    Answered ((s.setQLock cv none).setPc t .idle) m [.ret t 0] := by
  obtain ⟨s', hs'⟩ : ∃ s', s' = (s.setQLock cv none).setPc t .idle := ⟨_, rfl⟩
  rw [← hs']
  have hpc' : s'.pc = Function.update s.pc t .idle := by rw [hs']; rfl
  have hLempty : L cv = [] := by
    rw [hw.rep.head] at hempty
    exact List.head?_eq_none_iff.1 hempty
  have hst : m.status t = .done .done := by rw [h.status, State.view, hpc]
  have hoth : ∀ w, w ≠ t → s'.view w = s.view w := by
    intro w hwt
    refine view_congr (by rw [hpc', Function.update_of_ne hwt]) (by rw [hs']; rfl)
      (by rw [hs']; rfl) (exists_point_iff hpc' (by simp) (by rw [hpc]; simp)) ?_
    · intro c mp o hat hb hi
      have hc : cv ≠ c := by
        rintro rfl
        have hmem := (hw.mem_of_blocked hat hb hi).2
        rw [hLempty] at hmem
        cases hmem
      exact exists_point_iff hpc' (by simp) (by rw [hpc]; simpa using hc)
  have hviewt : s'.view t = .out := by rw [State.view, hpc', Function.update_self]
  have hnot : (s.view t).waits = false := by
    rw [State.view, hpc]
    rfl
  refine ⟨L, _, by rw [hs']; exact hw.rep, shows_ret hst, by rw [hs']; exact h.owner, ?_, ?_, ?_,
    ?_⟩
  · intro w
    show Function.update m.status t .out w = _
    by_cases hwt : w = t
    · rw [hwt, Function.update_self, hviewt]
    · rw [Function.update_of_ne hwt, h.status, hoth w hwt]
  · intro c
    show m.queue c = _
    rw [h.queue]
    refine List.filter_congr fun w _ => ?_
    by_cases hwt : w = t
    · rw [hwt, hviewt, hnot]
      rfl
    · rw [hoth w hwt]
  · exact h.held_step hpc' (fun _ hg => by cases hg) fun _ _ _ hu => by rw [hs']; exact hu
  · exact h.front_step hl hpc' (fun _ hj => by cases hj) fun _ => Or.inl rfl

/-- **A successful interrupt takes effect**: its thread leaves the queue. -/
theorem Mirrors.scanHit (h : Mirrors s L m) (hw : WaitInv s L ph) (hl : LockInv s) {cv : C}
    (hpc : s.pc t = .intrScan u cv (some u)) :
    Answered (((s.setHeap (qRemove s.heap cv u)).setQLock cv none).setPc t (.intrHit u)) m [] := by
  obtain ⟨s', hs'⟩ : ∃ s', s' = ((s.setHeap (qRemove s.heap cv u)).setQLock cv none).setPc t
    (.intrHit u) := ⟨_, rfl⟩
  rw [← hs']
  have hloc := hw.loc t
  rw [hpc] at hloc
  obtain ⟨-, hout, -⟩ := hloc
  have hq : (s.pc t).q = some cv := by rw [hpc]; rfl
  have hmem : u ∈ L cv := by
    obtain ⟨pre, suf, hL, -, hn⟩ := hw.scan t u cv _ hpc
    rw [hL]
    exact List.mem_append_right _ (List.mem_of_head? hn.symm)
  obtain ⟨hut, mp, o, hpu, hb, hph⟩ := hw.asleep_of_mem hl hmem hq hout
  have ho : o = 0 := by
    obtain ⟨-, hfl⟩ := hw.intr t u cv (by rw [hpc]; exact ⟨rfl, rfl⟩)
    obtain ⟨ho, hf, -⟩ := hw.flags_of_waiting hph
    rcases ho with rfl | rfl
    · rfl
    · rw [hf] at hfl
      exact absurd hfl (by decide)
  subst ho
  have hpc' : s'.pc = Function.update s.pc t (.intrHit u) := by rw [hs']; rfl
  have hst : m.status t = .called (.interrupt u) := by rw [h.status, State.view, hpc]
  have hview : s.view u = .waiting cv mp true := by
    rw [State.view, hpu]
    refine slept_waiting hb ((hw.mem u cv).1 hmem).2 fun j hj => ?_
    have hjt : j = t := hl.q.unique (k := cv) (by rw [hj]; rfl) hq
    rw [hjt, hpc] at hj
    cases hj
  have heff : effect m t = some (((m.setQueue cv ((m.queue cv).erase u)).setStatus u
      (.woken mp .interrupted)).setStatus t (.done .done)) := by
    simp only [effect, hst]
    rw [h.status u, hview]
  have hviewt : s'.view t = .done .done := by rw [State.view, hpc', Function.update_self]
  have hviewu : s'.view u = .woken mp .interrupted := by
    rw [State.view, hpc', Function.update_of_ne hut, hpu]
    exact slept_hit (by rw [hs']; exact hb) (by rw [hpc', Function.update_self])
  have hoth : ∀ w, w ≠ t → w ≠ u → s'.view w = s.view w := by
    intro w hwt hwu
    exact view_congr (by rw [hpc', Function.update_of_ne hwt]) (by rw [hs']; rfl)
      (by rw [hs']; rfl)
      (exists_point_iff hpc' (by simpa using Ne.symm hwu) (by rw [hpc]; simp))
      fun _ _ _ _ _ _ => exists_point_iff hpc' (by simp) (by rw [hpc]; simp)
  refine ⟨_, _, by rw [hs']; exact qRemove_spec hw.rep hmem, shows_effect heff,
    by rw [hs']; exact h.owner, ?_, ?_, ?_, ?_⟩
  · intro w
    show Function.update (Function.update m.status u _) t _ w = _
    by_cases hwt : w = t
    · rw [hwt, Function.update_self, hviewt]
    · rw [Function.update_of_ne hwt]
      by_cases hwu : w = u
      · rw [hwu, Function.update_self, hviewu]
      · rw [Function.update_of_ne hwu, h.status, hoth w hwt hwu]
  · intro c
    show Function.update m.queue cv _ c = _
    by_cases hc : c = cv
    · subst hc
      have hnodup := hw.rep.nodup c
      rw [Function.update_self, Function.update_self, h.queue,
        (List.Nodup.filter _ (List.nodup_reverse.2 hnodup)).erase_eq_filter,
        hnodup.erase_eq_filter, ← List.filter_reverse, List.filter_filter, List.filter_filter]
      refine List.filter_congr fun w hwL => ?_
      by_cases hwu : w = u
      · subst hwu
        rw [hviewu]
        simp [Status.waits]
      · rw [hoth w ?_ hwu, Bool.and_comm]
        rintro rfl
        exact hw.not_mem hout c (List.mem_reverse.1 hwL)
    · rw [Function.update_of_ne hc, Function.update_of_ne hc, h.queue]
      refine List.filter_congr fun w hwL => ?_
      have hwL := List.mem_reverse.1 hwL
      rw [hoth w]
      · rintro rfl
        exact hw.not_mem hout c hwL
      · rintro rfl
        exact hc (hw.rep.disjoint c cv w hwL hmem)
  · exact h.held_step hpc' (fun _ hg => by cases hg) fun _ _ _ hu => by rw [hs']; exact hu
  · exact h.front_step hl hpc' (fun _ hj => by cases hj) (queues_change hq)

/-- A successful interrupt returns. -/
theorem Mirrors.interrupted (h : Mirrors s L m) (hw : WaitInv s L ph) (hl : LockInv s)
    (hpc : s.pc t = .intrHit u) : Answered (interrupted s t u) m [.ret t 0] := by
  obtain ⟨s', hs'⟩ : ∃ s', s' = Cond.interrupted s t u := ⟨_, rfl⟩
  rw [← hs']
  have hloc := hw.loc t
  rw [hpc] at hloc
  obtain ⟨-, hout, -⟩ := hloc
  obtain ⟨cv, mp, hpu, hph⟩ := hw.hit t u hpc
  obtain ⟨-, hf, -⟩ := hw.flags_of_waiting hph
  have hut : u ≠ t := by
    rintro rfl
    rw [hpc] at hpu
    cases hpu
  have hb : s.blocked u = true := by
    rcases hw.of_waiting hph with hq | ⟨_, -, hb⟩
    · rw [hpu] at hq
      cases hq
    · exact hb
  have hpc' : s'.pc = Function.update s.pc t .idle := by rw [hs']; rfl
  have hst : m.status t = .done .done := by rw [h.status, State.view, hpc]
  have hviewt : s'.view t = .out := by rw [State.view, hpc', Function.update_self]
  have hviewu : s'.view u = s.view u := by
    have hat : s'.pc u = .asleep cv mp 0 := by rw [hpc', Function.update_of_ne hut, hpu]
    have hreply : s'.reply u = .interrupted := by
      have hf' : s'.nodeFlags u = s.nodeFlags u ||| COND_INTERRUPTED := by
        rw [hs']
        exact Function.update_self ..
      rw [State.reply, hf', hf]
      exact if_pos (by decide)
    rw [view_woken hat (by rw [hs']; exact Function.update_self ..), hreply, State.view, hpu]
    exact (slept_hit hb hpc).symm
  have hoth : ∀ w, w ≠ t → s'.view w = s.view w := by
    intro w hwt
    by_cases hwu : w = u
    · rw [hwu, hviewu]
    exact view_congr (by rw [hpc', Function.update_of_ne hwt])
      (by rw [hs']; exact Function.update_of_ne hwu ..)
      (by rw [hs']; exact Function.update_of_ne hwu ..)
      (exists_point_iff hpc' (by simp) (by rw [hpc]; simpa using Ne.symm hwu))
      fun _ _ _ _ _ _ => exists_point_iff hpc' (by simp) (by rw [hpc]; simp)
  refine ⟨L, _, by rw [hs']; exact hw.rep, shows_ret hst, by rw [hs']; exact h.owner, ?_, ?_, ?_,
    ?_⟩
  · intro w
    show Function.update m.status t .out w = _
    by_cases hwt : w = t
    · rw [hwt, Function.update_self, hviewt]
    · rw [Function.update_of_ne hwt, h.status, hoth w hwt]
  · intro c
    show m.queue c = _
    rw [h.queue]
    refine List.filter_congr fun w hwL => ?_
    rw [hoth w]
    rintro rfl
    exact hw.not_mem hout c (List.mem_reverse.1 hwL)
  · exact h.held_step hpc' (fun _ hg => by cases hg) fun _ _ _ hu => by rw [hs']; exact hu
  · exact h.front_step hl hpc' (fun _ hj => by cases hj) fun _ => Or.inl rfl

/-! ## All steps -/

/-- What a step of `t` between two lock operations shows when it does not return. -/
theorem Mirrors.quiet (h : Mirrors s L m) (hw : WaitInv s L ph) (hl : LockInv s) {p : Pc T C M}
    (hret : s.returns t = none) (hheap : s'.heap = s.heap)
    (hpc : s'.pc = Function.update s.pc t p) (h₀ : (s.pc t).wakes = false) (hp : p.wakes = false)
    (hb : ∀ u, u ≠ t → s'.blocked u = s.blocked u) (hf : s'.nodeFlags = s.nodeFlags)
    (hmp : s'.mutexes = s.mutexes) (hview : s'.view t = s.view t)
    (hgives : ∀ mp, p.gives = some mp → (s.pc t).gives = some mp)
    (hjoins : ∀ cv, p.joins = some cv → (s.pc t).joins = some cv) :
    Answered s' m ((s.returns t).toList.map (.ret t)) := by
  rw [hret]
  exact ⟨L, m, by rw [hheap]; exact hw.rep, Shows.refl m,
    h.silent hl hpc h₀ hp hb (fun u _ => by rw [hf]) hmp hview hgives hjoins⟩

/-- A step after which `t` is in no wait and has no queue changed. -/
theorem Mirrors.answer (h : Mirrors s L m) (hw : WaitInv s L ph) (hl : LockInv s) {p : Pc T C M}
    {l : List (Linear.Act T (Op T C M) Int)} {o : M → Option T} {x : Status T C M}
    (hshow : Shows Monitor.step monitorLabel m l
      ⟨o, m.queue, Function.update m.status t x⟩)
    (hheap : s'.heap = s.heap) (hpc : s'.pc = Function.update s.pc t p)
    (h₀ : (s.pc t).wakes = false) (hp : p.wakes = false) (hb : s'.blocked = s.blocked)
    (hf : s'.nodeFlags = s.nodeFlags) (ho : o = s'.mutexes) (hview : s'.view t = x)
    (hx : x.waits = false) (hnot : (s.view t).waits = false)
    (hoth : ∀ u mp, u ≠ t → s.mutexes mp = some u → s'.mutexes mp = some u)
    (hgives : p.gives = none) (hjoins : p.joins = none) : Answered s' m l := by
  refine ⟨L, _, by rw [hheap]; exact hw.rep, hshow, h.keep hl hpc h₀ hp (fun u _ => by rw [hb])
    (fun u _ => by rw [hf]) ho rfl (by rw [hview]) (by rw [hview, hx, hnot]) ?_ hoth ?_⟩
  · intro mp hg
    rw [hgives] at hg
    cases hg
  · intro cv hj
    rw [hjoins] at hj
    cases hj

/-- There is nothing to interrupt. -/
theorem effect_refused (hst : m.status t = .called (.interrupt u))
    (hno : ∀ cv mp, m.status u ≠ .waiting cv mp true) :
    effect m t = some (m.setStatus t (.done .refused)) := by
  simp only [effect, hst]

omit [DecidableEq T] [DecidableEq C] in
/-- Taking a free mutex takes nothing from others. -/
theorem owner_kept {mp mp' : M} (hmp : s.mutexes mp = none) (hu : s.mutexes mp' = some u) :
    Function.update s.mutexes mp (some t) mp' = some u := by
  refine (Function.update_of_ne ?_ ..).trans hu
  rintro rfl
  rw [hmp] at hu
  cases hu

/-- `mutex_lock` takes the mutex and returns. -/
theorem Mirrors.lockMp (h : Mirrors s L m) (hw : WaitInv s L ph) (hl : LockInv s) {mp : M}
    (hpc : s.pc t = .lockMp mp) (hmp : s.mutexes mp = none) :
    Answered ((s.setMutex mp (some t)).setPc t .idle) m [.ret t 0] := by
  have hst : m.status t = .called (.lock mp) := by rw [h.status, State.view, hpc]
  have heff : effect m t = some ((m.setOwner mp (some t)).setStatus t (.done .done)) := by
    simp only [effect, hst]
    rw [if_pos (by rw [h.owner, hmp])]
  have hshow := shows_effect_ret heff (Function.update_self ..)
  rw [State.setStatus, State.setStatus, Function.update_idem] at hshow
  refine h.answer hw hl (p := .idle) hshow rfl rfl (by rw [hpc]; rfl) rfl rfl rfl ?_ ?_ rfl
    (by rw [State.view, hpc]; rfl) (fun _ _ _ hu => owner_kept hmp hu) rfl rfl
  · show Function.update m.owner mp (some t) = Function.update s.mutexes mp (some t)
    rw [h.owner]
  · simp only [State.view, State.setPc, Function.update_self]

/-- A woken thread takes its mutex again. -/
theorem Mirrors.wakeMp (h : Mirrors s L m) (hw : WaitInv s L ph) (hl : LockInv s) {mp : M}
    {o : BitVec 32} (hpc : s.pc t = .wakeMp mp o) (hmp : s.mutexes mp = none) :
    Answered ((s.setMutex mp (some t)).setPc t (.wakeTest mp o)) m [] := by
  have hst : m.status t = .woken mp (s.reply t) := by rw [h.status, State.view, hpc]
  have heff : effect m t = some ((m.setOwner mp (some t)).setStatus t (.done (s.reply t))) := by
    simp only [effect, hst]
    rw [if_pos (by rw [h.owner, hmp])]
  refine h.answer hw hl (p := .wakeTest mp o) (shows_effect heff) rfl rfl (by rw [hpc]; rfl) rfl
    rfl rfl ?_ ?_ rfl (by rw [State.view, hpc]; rfl) (fun _ _ _ hu => owner_kept hmp hu) rfl rfl
  · show Function.update m.owner mp (some t) = Function.update s.mutexes mp (some t)
    rw [h.owner]
  · simp only [State.view, State.setPc, Function.update_self]
    rfl

/-- `cond_wait` returns. -/
theorem Mirrors.wakeTest (h : Mirrors s L m) (hw : WaitInv s L ph) (hl : LockInv s) {mp : M}
    {o : BitVec 32} (hpc : s.pc t = .wakeTest mp o) :
    Answered ((s.setNodeLock t none).endWait t o
      (if s.nodeFlags t &&& COND_INTERRUPTED ≠ 0 then -EINTR else 0)) m
      [.ret t (ret (s.reply t))] := by
  have hst : m.status t = .done (s.reply t) := by rw [h.status, State.view, hpc]
  have hloc := hw.loc t
  rw [hpc] at hloc
  obtain ⟨ho, -, cv, k, -, -, hf, hk⟩ := hloc
  have hend : (if s.nodeFlags t &&& COND_INTERRUPTED ≠ 0 then -EINTR else 0) = k.ret := by
    rw [hf, ret_of_flags ho k]
  rw [hend, endWait_eq, endPc_of_ret hk]
  refine h.answer hw hl (p := .idle) (shows_ret hst) rfl rfl (by rw [hpc]; rfl) rfl rfl rfl
    h.owner ?_ rfl (by rw [State.view, hpc]; rfl) (fun _ _ _ hu => hu) rfl rfl
  simp only [State.view, State.setPc, Function.update_self]

/-- `cond_interrupt` of a thread that is in no wait, or in one that it may not interrupt. -/
theorem Mirrors.intrRefuse (h : Mirrors s L m) (hw : WaitInv s L ph) (hl : LockInv s)
    (hpc : s.pc t = .intrCheck u)
    (hno : s.nodeCv u = none ∨ s.nodeFlags u &&& COND_UNINTERRUPTABLE ≠ 0) :
    Answered ((s.setNodeLock u none).endIntr t u (-EINVAL)) m [.ret t (ret .refused)] := by
  have hst : m.status t = .called (.interrupt u) := by rw [h.status, State.view, hpc]
  have heff : effect m t = some (m.setStatus t (.done .refused)) := by
    refine effect_refused hst fun cv mp hwait => ?_
    rw [h.status] at hwait
    obtain ⟨-, o, ho, hph⟩ := hw.mem_of_view hwait
    obtain ⟨-, hf, hcv⟩ := hw.flags_of_waiting hph
    have ho := of_decide_eq_true ho.symm
    rw [hcv, hf, ho] at hno
    exact hno.elim (fun hnone => by cases hnone) fun hfl => hfl (by decide)
  have hshow := shows_effect_ret heff (Function.update_self ..)
  rw [State.setStatus, State.setStatus, Function.update_idem] at hshow
  refine h.answer hw hl (p := .idle) hshow rfl rfl (by rw [hpc]; rfl) rfl rfl rfl h.owner ?_ rfl
    (by rw [State.view, hpc]; rfl) (fun _ _ _ hu => hu) rfl rfl
  simp only [State.view, State.endIntr, State.setPc, Function.update_self]

/-- `cond_interrupt` has not found its thread in the queue. -/
theorem Mirrors.scanEnd (h : Mirrors s L m) (hw : WaitInv s L ph) (hl : LockInv s) {cv : C}
    (hpc : s.pc t = .intrScan u cv none) :
    Answered ((s.setQLock cv none).setPc t (.intrMiss u)) m [] := by
  have hst : m.status t = .called (.interrupt u) := by rw [h.status, State.view, hpc]
  have heff : effect m t = some (m.setStatus t (.done .refused)) := by
    refine effect_refused hst fun c mp hwait => ?_
    rw [h.status] at hwait
    obtain ⟨hmem, o, -, hph⟩ := hw.mem_of_view hwait
    obtain ⟨-, -, hc⟩ := hw.flags_of_waiting hph
    obtain ⟨hcv, -⟩ := hw.intr t u cv (by rw [hpc]; exact ⟨rfl, rfl⟩)
    obtain rfl : c = cv := Option.some.inj (hc.symm.trans hcv)
    -- the scan has gone through the whole queue
    obtain ⟨pre, suf, hL, hpre, hn⟩ := hw.scan t u c none hpc
    rw [List.head?_eq_none_iff.1 hn.symm, List.append_nil] at hL
    exact hpre (hL ▸ hmem)
  refine h.answer hw hl (p := .intrMiss u) (shows_effect heff) rfl rfl (by rw [hpc]; rfl) rfl rfl
    rfl h.owner ?_ rfl (by rw [State.view, hpc]; rfl) (fun _ _ _ hu => hu) rfl rfl
  simp only [State.view, State.setPc, Function.update_self]

/-- **Every step inside a call is answered.** -/
theorem Mirrors.run (h : Mirrors s L m) (hw : WaitInv s L ph) (hl : LockInv s)
    (hs : run s t = some s') : Answered s' m ((s.returns t).toList.map (.ret t)) := by
  have hloc := hw.loc t
  have hat : ∀ {s' : State T C M} {p : Pc T C M}, s'.pc = Function.update s.pc t p →
      s'.pc t = p := fun hpc => by rw [hpc, Function.update_self]
  cases run_move hs with
  | callLock mp hpc | callUnlock mp hpc hmp | callWait cv mp o hpc hmp ho | callSignal cv hpc
  | callBroadcast cv hpc | callInterrupt u hpc => rw [Cond.run, hpc] at hs; cases hs
  | lockMp hpc hmp =>
    rw [show s.returns t = some 0 by rw [State.returns, hpc]]
    exact h.lockMp hw hl hpc hmp
  | waitInit hpc =>
    rw [hpc] at hloc
    exact h.quiet hw hl (by rw [State.returns, hpc])
      (qInitElem_of_free hw.rep (hw.not_mem hloc.2.2.1)) rfl (by rw [hpc]; rfl) rfl (fun _ _ => rfl)
      rfl rfl (by rw [State.view, State.view, hat rfl, hpc])
      (fun _ hg => by rw [hpc]; exact hg) fun _ hj => by cases hj
  | waitNode hpc hfree | waitQ hpc hfree =>
    exact h.quiet hw hl (by rw [State.returns, hpc]) rfl rfl (by rw [hpc]; rfl) rfl (fun _ _ => rfl)
      rfl rfl (by rw [State.view, State.view, hat rfl, hpc])
      (fun _ hg => by rw [hpc]; exact hg) fun _ hj => by cases hj
  | waitPush hpc =>
    rw [show s.returns t = none by rw [State.returns, hpc]]
    exact h.push hw hl hpc
  | waitBlock hpc =>
    exact h.quiet hw hl (by rw [State.returns, hpc]) rfl rfl (by rw [hpc]; rfl) rfl
      (fun u hu => Function.update_of_ne hu ..) rfl rfl
      (by rw [State.view, State.view, hat rfl, hpc])
      (fun _ hg => by rw [hpc]; exact hg) fun _ hj => by rw [hpc]; exact hj
  | waitFail hpc => rw [hpc] at hloc; exact hloc.elim
  | waitUnlockMp hpc =>
    rw [show s.returns t = none by rw [State.returns, hpc]]
    exact h.giveUp hw hl hpc
  | @waitUnlockQ cv mp o hpc =>
    have hview : ((s.setQLock cv none).setPc t (.asleep cv mp o)).view t = s.view t := by
      rw [State.view, State.view, hat rfl, hpc]
      exact slept_congr rfl rfl
        (exists_point_iff (t := t) (p := .asleep cv mp o) rfl (by simp) (by rw [hpc]; simp))
        fun _ _ => exists_point_iff (t := t) (p := .asleep cv mp o) rfl (by simp)
          (by rw [hpc]; simp)
    exact h.quiet hw hl (by rw [State.returns, hpc]) rfl rfl (by rw [hpc]; rfl) rfl (fun _ _ => rfl)
      rfl rfl hview (fun _ hg => by cases hg) fun _ hj => by cases hj
  | resume hpc hb =>
    refine h.quiet hw hl (by rw [State.returns, hpc]) rfl rfl (by rw [hpc]; rfl) rfl
      (fun _ _ => rfl) rfl rfl ?_ (fun _ hg => by cases hg) fun _ hj => by cases hj
    rw [view_woken hpc hb, State.view, hat rfl]
    rfl
  | wakeNode hpc | wakeCv hpc =>
    exact h.quiet hw hl (by rw [State.returns, hpc]) rfl rfl (by rw [hpc]; rfl) rfl (fun _ _ => rfl)
      rfl rfl (by rw [State.view, State.view, hat rfl, hpc]; rfl)
      (fun _ hg => by cases hg) fun _ hj => by cases hj
  | wakeMp hpc hmp =>
    rw [show s.returns t = none by rw [State.returns, hpc]]
    exact h.wakeMp hw hl hpc hmp
  | wakeTest hpc =>
    have hret : s.returns t = some (ret (s.reply t)) := by
      rw [State.returns, hpc, State.reply]
      by_cases hfl : s.nodeFlags t &&& COND_INTERRUPTED ≠ 0
      · simp only [if_pos hfl, ret]
      · simp only [if_neg hfl, ret]
    rw [hret]
    exact h.wakeTest hw hl hpc
  | signalQ hpc | intrNode hpc | intrQ hpc | scanNext hpc =>
    exact h.quiet hw hl (by rw [State.returns, hpc]) rfl rfl (by rw [hpc]; rfl) rfl (fun _ _ => rfl)
      rfl rfl (by rw [State.view, State.view, hat rfl, hpc])
      (fun _ hg => by cases hg) fun _ hj => by cases hj
  | signalBody hpc =>
    rw [show s.returns t = some 0 by rw [State.returns, hpc]]
    exact h.signal hw hl hpc
  | bcastQ hpc hfree =>
    rw [show s.returns t = none by rw [State.returns, hpc]]
    exact h.broadcast hw hl hpc hfree
  | bcastLoop hpc hne =>
    rw [show s.returns t = none by rw [State.returns, hpc]; exact if_pos hne]
    exact h.pop hw hl hpc
  | bcastEnd hpc hempty =>
    rw [show s.returns t = some 0 by rw [State.returns, hpc]; exact if_neg (not_not.2 hempty)]
    exact h.bcastEnd hw hl hpc hempty
  | @intrRefuse u hpc hno =>
    have hret : s.returns t = some (ret .refused) := by
      rw [State.returns, hpc]
      cases hc : s.nodeCv u with
      | none => simp only [hc, ret]
      | some cv =>
        simp only [hc]
        exact if_pos (hno.resolve_left (by rw [hc]; simp))
    rw [hret]
    exact h.intrRefuse hw hl hpc hno
  | intrCheck hpc hcv hfl =>
    have hret : s.returns t = none := by
      rw [State.returns, hpc]
      simp only [hcv]
      exact if_neg (not_not.2 hfl)
    exact h.quiet hw hl hret rfl rfl (by rw [hpc]; rfl) rfl (fun _ _ => rfl)
      rfl rfl (by rw [State.view, State.view, hat rfl, hpc])
      (fun _ hg => by cases hg) fun _ hj => by cases hj
  | scanEnd hpc =>
    rw [show s.returns t = none by rw [State.returns, hpc]]
    exact h.scanEnd hw hl hpc
  | scanHit hpc htcb =>
    rw [show s.returns t = none by rw [State.returns, hpc]]
    exact h.scanHit hw hl hpc
  | scanPanic hpc htcb hne => exact absurd ((hl.tcb _).symm.trans htcb) hne
  | @intrMiss u hpc =>
    have hst : m.status t = .done .refused := by rw [h.status, State.view, hpc]
    rw [show s.returns t = some (ret .refused) by rw [State.returns, hpc]; rfl]
    refine h.answer hw hl (p := .idle) (shows_ret hst) rfl rfl (by rw [hpc]; rfl) rfl rfl rfl
      h.owner ?_ rfl (by rw [State.view, hpc]; rfl) (fun _ _ _ hu => hu) rfl rfl
    rw [State.view, hat (p := .idle) rfl]
  | intrHit hpc =>
    rw [show s.returns t = some 0 by rw [State.returns, hpc]]
    exact h.interrupted hw hl hpc

/-- `State.returns` tells the steps after which the thread is outside again. -/
theorem returns_iff_idle (hw : WaitInv s L ph) (hl : LockInv s) (hs : run s t = some s') :
    (∃ r, s.returns t = some r) ↔ s'.pc t = .idle := by
  have hloc := hw.loc t
  have hstay : ∀ {s' : State T C M} {p : Pc T C M}, s'.pc = Function.update s.pc t p →
      p ≠ .idle → s.returns t = none → ((∃ r, s.returns t = some r) ↔ s'.pc t = .idle) := by
    intro s' p hpc hp hret
    rw [hret, hpc, Function.update_self]
    exact iff_of_false (by simp) hp
  have hleave : ∀ {s' : State T C M} {r : Int}, s'.pc = Function.update s.pc t .idle →
      s.returns t = some r → ((∃ r, s.returns t = some r) ↔ s'.pc t = .idle) := by
    intro s' r hpc hret
    rw [hret, hpc, Function.update_self]
    exact iff_of_true ⟨r, rfl⟩ rfl
  cases run_move hs
  case callLock mp hpc => rw [Cond.run, hpc] at hs; cases hs
  case callUnlock mp hpc hmp => rw [Cond.run, hpc] at hs; cases hs
  case callWait cv mp o hpc hmp ho => rw [Cond.run, hpc] at hs; cases hs
  case callSignal cv hpc => rw [Cond.run, hpc] at hs; cases hs
  case callBroadcast cv hpc => rw [Cond.run, hpc] at hs; cases hs
  case callInterrupt u hpc => rw [Cond.run, hpc] at hs; cases hs
  case waitFail hpc => rw [hpc] at hloc; exact hloc.elim
  case scanPanic hpc htcb hne => exact absurd ((hl.tcb _).symm.trans htcb) hne
  case lockMp hpc hmp => exact hleave (r := 0) rfl (by rw [State.returns, hpc])
  case intrHit hpc => exact hleave (r := 0) rfl (by rw [State.returns, hpc])
  case intrMiss hpc => exact hleave (r := -EINVAL) rfl (by rw [State.returns, hpc])
  case signalBody cv hpc =>
    refine hleave (r := 0) ?_ (by rw [State.returns, hpc])
    obtain ⟨-, -, -, e4⟩ := doCondSignalUnsafe_locks s cv t .signal
    rw [← e4]
    rfl
  case bcastEnd hpc hempty =>
    exact hleave (r := 0) rfl (by rw [State.returns, hpc]; exact if_neg (not_not.2 hempty))
  case bcastLoop cv hpc hne =>
    refine hstay (p := .bcastLoop cv) ?_ (by simp)
      (by rw [State.returns, hpc]; exact if_pos hne)
    obtain ⟨-, -, -, e4⟩ := doCondSignalUnsafe_locks s cv t .broadcast
    rw [e4, ← hpc, Function.update_eq_self]
  case wakeTest mp o hpc =>
    obtain ⟨r, hret⟩ : ∃ r, s.returns t = some r := ⟨_, by rw [State.returns, hpc]⟩
    rw [hpc] at hloc
    obtain ⟨ho, -, cv, k, -, -, hf, hk⟩ := hloc
    refine hleave ?_ hret
    rw [endWait_eq, hf, ret_of_flags ho k, endPc_of_ret hk]
    rfl
  case intrRefuse u hpc hno =>
    refine hleave (r := -EINVAL) rfl ?_
    rw [State.returns, hpc]
    cases hc : s.nodeCv u with
    | none => simp only [hc]
    | some cv =>
      simp only [hc]
      exact if_pos (hno.resolve_left (by rw [hc]; simp))
  case intrCheck u cv hpc hcv hfl =>
    refine hstay rfl (by simp) ?_
    rw [State.returns, hpc]
    simp only [hcv]
    exact if_neg (not_not.2 hfl)
  all_goals exact hstay rfl (by simp) (by rw [State.returns, ‹s.pc t = _›])

/-- A call, up to its first lock operation. -/
theorem Mirrors.called (h : Mirrors s L m) (hw : WaitInv s L ph) (hl : LockInv s) {p : Pc T C M}
    {a : Op T C M} (hidle : s.pc t = .idle) (hheap : s'.heap = s.heap)
    (hpc : s'.pc = Function.update s.pc t p) (hp : p.wakes = false) (hb : s'.blocked = s.blocked)
    (hf : s'.nodeFlags = s.nodeFlags) (hmp : s'.mutexes = s.mutexes)
    (hview : s'.view t = .called a)
    (hgives : ∀ mp, p.gives = some mp → s.mutexes mp = some t) (hjoins : p.joins = none) :
    Answered s' m [.call t a] := by
  have hst : m.status t = .out := by rw [h.status, State.view, hidle]
  refine ⟨L, _, by rw [hheap]; exact hw.rep, shows_call hst a,
    h.keep hl hpc (by rw [hidle]; rfl) hp (fun u _ => by rw [hb]) (fun u _ => by rw [hf])
      (by rw [hmp]; exact h.owner) rfl (by rw [hview]; rfl) ?_
      (fun mp hg => by rw [hmp]; exact hgives mp hg) (fun u mp _ hu => by rw [hmp]; exact hu) ?_⟩
  · rw [hview, State.view, hidle]
    rfl
  · intro cv hj
    rw [hjoins] at hj
    cases hj

/-- **Every call is answered.** -/
theorem Mirrors.call (h : Mirrors s L m) (hw : WaitInv s L ph) (hl : LockInv s) {c : Call T C M}
    (hidle : s.pc t = .idle) (hs : start s t c = some s') :
    Answered s' m (label s (.call t c)) := by
  have hat : ∀ {s' : State T C M} {p : Pc T C M}, s'.pc = Function.update s.pc t p →
      s'.pc t = p := fun hpc => by rw [hpc, Function.update_self]
  cases c with
  | mutexLock mp =>
    cases hs
    exact h.called hw hl hidle rfl rfl rfl rfl rfl rfl (by rw [State.view, hat rfl]; rfl)
      (fun _ hg => by cases hg) rfl
  | mutexUnlock mp =>
    simp only [start] at hs
    split at hs
    case isFalse => cases hs
    rename_i hmp
    cases hs
    have hst : m.status t = .out := by rw [h.status, State.view, hidle]
    have heff : effect (m.setStatus t (.called (.unlock mp))) t =
        some (((m.setStatus t (.called (.unlock mp))).setOwner mp none).setStatus t
          (.done .done)) := by
      simp only [effect, State.setStatus, Function.update_self]
      exact if_pos (by rw [h.owner, hmp])
    have hshow := (shows_call hst (.unlock mp)).trans
      (shows_effect_ret heff (Function.update_self ..))
    simp only [State.setStatus, State.setOwner, Function.update_idem] at hshow
    refine h.answer hw hl (p := .idle) hshow rfl ?_ (by rw [hidle]; rfl) rfl rfl rfl ?_ ?_ rfl
      (by rw [State.view, hidle]; rfl) ?_ rfl rfl
    · rw [← hidle, Function.update_eq_self]
      rfl
    · show Function.update m.owner mp none = Function.update s.mutexes mp none
      rw [h.owner]
    · rw [State.view, show (s.setMutex mp none).pc t = .idle from hidle]
    · intro u mp' hut hu
      refine (Function.update_of_ne ?_ ..).trans hu
      rintro rfl
      rw [hmp] at hu
      exact hut (Option.some.inj hu).symm
  | condWait cv mp =>
    simp only [start] at hs
    split at hs
    case isFalse => cases hs
    rename_i hmp
    cases hs
    exact h.called hw hl hidle rfl rfl rfl rfl rfl rfl (by rw [State.view, hat rfl]; rfl)
      (fun _ hg => by cases hg; exact hmp) rfl
  | condWaitUninterruptable cv mp =>
    simp only [start] at hs
    split at hs
    case isFalse => cases hs
    rename_i hmp
    cases hs
    exact h.called hw hl hidle rfl rfl rfl rfl rfl rfl (by rw [State.view, hat rfl]; rfl)
      (fun _ hg => by cases hg; exact hmp) rfl
  | condSignal cv =>
    cases hs
    exact h.called hw hl hidle rfl rfl rfl rfl rfl rfl (by rw [State.view, hat rfl]; rfl)
      (fun _ hg => by cases hg) rfl
  | condBroadcast cv =>
    cases hs
    exact h.called hw hl hidle rfl rfl rfl rfl rfl rfl (by rw [State.view, hat rfl]; rfl)
      (fun _ hg => by cases hg) rfl
  | condInterrupt u =>
    cases hs
    exact h.called hw hl hidle rfl rfl rfl rfl rfl rfl (by rw [State.view, hat rfl]; rfl)
      (fun _ hg => by cases hg) rfl

/-! ## Runs -/

/-- The invariants of the code, and the monitor beside it. -/
def Beside (s : State T C M) (m : Monitor.State T C M) : Prop :=
  LockInv s ∧ ∃ L, (∃ ph, WaitInv s L ph) ∧ Mirrors s L m

omit [DecidableEq C] [DecidableEq M] in
theorem beside_initial : Beside (initial : State T C M) Monitor.initial := by
  refine ⟨lockInv_initial, fun _ => [], ⟨_, waitInv_initial⟩, rfl, fun _ => rfl, fun _ => rfl, ?_,
    ?_⟩
  · intro t mp h
    cases h
  · intro t cv h
    cases h

theorem simulates : Simulates (step : State T C M → _) label (fun e => ∀ t, e ≠ .eintr t)
    Monitor.step monitorLabel Beside := by
  rintro s e s' m ⟨hl, L, ⟨ph, hw⟩, h⟩ he hs
  obtain ⟨t, hm⟩ := step_move he hs
  have hans : Answered s' m (label s e) := by
    cases e with
    | call t c =>
      simp only [step] at hs
      split at hs
      · exact h.call hw hl ‹_› hs
      · cases hs
    | run t => exact h.run hw hl hs
    | eintr t => exact absurd rfl (he t)
  obtain ⟨L', m', hrep, hshow, h'⟩ := hans
  obtain ⟨L'', ph', hw'⟩ := hw.move hl hm
  obtain rfl := hw'.rep.unique hrep
  exact ⟨m', hshow, hl.move hm, _, ⟨ph', hw'⟩, h'⟩

omit [DecidableEq C] [DecidableEq M] in
theorem Beside.owner (h : Beside s m) : m.owner = s.mutexes := by
  obtain ⟨-, L, -, hm⟩ := h
  exact hm.owner

omit [DecidableEq C] [DecidableEq M] in
theorem Beside.outside (h : Beside s m) (t : T) : m.status t = .out ↔ s.pc t = .idle := by
  obtain ⟨-, L, ⟨ph, hw⟩, hm⟩ := h
  rw [hm.status, hw.view_out]

omit [DecidableEq C] [DecidableEq M] in
/-- The queue in memory while its lock is free. -/
theorem Beside.queue (h : Beside s m) {cv : C} (hfree : s.qLock cv = none) :
    IsQueue s cv (m.queue cv).reverse := by
  obtain ⟨hl, L, ⟨ph, hw⟩, hm⟩ := h
  have hall : m.queue cv = (L cv).reverse := by
    rw [hm.queue, List.filter_eq_self]
    intro t ht
    obtain ⟨⟨o, hph⟩, hhit⟩ := (hw.mem t cv).1 (List.mem_reverse.1 ht)
    rcases hw.of_waiting hph with hq | ⟨mp, hpc, hb⟩
    · exact absurd hq (hl.q.not_holds_of_free hfree t)
    · rw [State.view, hpc]
      refine waits_iff.2 ⟨_, _, _, slept_waiting hb hhit fun j hj => ?_⟩
      exact hl.q.not_holds_of_free hfree j (by rw [hj]; rfl)
  rw [hall, List.reverse_reverse]
  exact hw.rep.fwd cv

/-- **The condition-variable code refines the monitor.**  Whatever the interleaving, if no sleep
fails: some run of the monitor shows the same calls with the same results; at its end the mutexes
have the same owners, the same threads are outside, and the wait queues whose lock is free hold
the threads that wait at the monitor, in the order in which a signal will wake them. -/
theorem cond_refines_monitor {es : List (Event T C M)} (hes : ∀ e ∈ es, ∀ t, e ≠ .eintr t)
    (h : exec step initial es = some s) :
    ∃ (as : List (Monitor.Event T C M)) (m : Monitor.State T C M),
      exec Monitor.step Monitor.initial as = some m ∧
      trace Monitor.step monitorLabel Monitor.initial as = trace step label initial es ∧
      m.owner = s.mutexes ∧ (∀ t, m.status t = .out ↔ s.pc t = .idle) ∧
      ∀ cv, s.qLock cv = none → IsQueue s cv (m.queue cv).reverse := by
  obtain ⟨m, ⟨as, has, htrace⟩, hb⟩ := simulates.refines beside_initial hes h
  exact ⟨as, m, has, htrace, hb.owner, hb.outside, fun cv => hb.queue⟩

end Model

/-- What the callers see of `interruptedWait`, and that a monitor shows it. -/
theorem interruptedWait_refines : ∃ s : State (Fin 2) (Fin 1) (Fin 1),
    exec step initial (interruptedWait 0 1 0 0) = some s ∧
    trace step label initial (interruptedWait (0 : Fin 2) 1 (0 : Fin 1) (0 : Fin 1)) =
      [.call 1 (.lock 0), .ret 1 0, .call 1 (.wait 0 0 true), .call 0 (.interrupt 1), .ret 0 0,
        .ret 1 (-EINTR)] ∧
    ∃ (as : List (Monitor.Event (Fin 2) (Fin 1) (Fin 1)))
      (m : Monitor.State (Fin 2) (Fin 1) (Fin 1)),
      exec Monitor.step Monitor.initial as = some m ∧
      trace Monitor.step monitorLabel Monitor.initial as =
        trace step label initial (interruptedWait (0 : Fin 2) 1 (0 : Fin 1) (0 : Fin 1)) ∧
      m.owner = s.mutexes ∧ (∀ t, m.status t = .out ↔ s.pc t = .idle) ∧
      ∀ cv, s.qLock cv = none → IsQueue s cv (m.queue cv).reverse := by
  have hes : ∀ e ∈ interruptedWait (0 : Fin 2) 1 (0 : Fin 1) (0 : Fin 1), ∀ t, e ≠ .eintr t := by
    decide
  exact ⟨_, rfl, rfl, cond_refines_monitor hes rfl⟩

end Timix.Cond
