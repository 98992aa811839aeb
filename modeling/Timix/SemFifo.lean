import Timix.Lib.Refine
import Timix.Lib.Semaphore
import Timix.Sem

/-!
# `sem.c` refines a first-come, first-served semaphore

While nobody is interrupted, `sem_wait` and `sem_signal` are the operations of `Semaphore`.  A wait
takes effect with its test of `sem_count`, a signal with its `cond_signal`; `sem_count` is the
number of tokens less the number of threads queued.

* `Pc.status` — how far a thread has got for its clients.
* `Fifo` — the simulation relation: between the test and the sleep of a wait, and between the
  increment and the `cond_signal` of a signal, the holder of `sem_lock` makes the difference.

Principal result: `sem_refines_fifo`.
-/

set_option autoImplicit false

namespace Timix.Sem

open Owner
open Timix.Cond (Ender EINTR)
open Linear (Act)
open Semaphore (Status)
open Lts (Along Shows SimulatesAlong exec trace)

variable {T : Type}

/-- What the driver of the semaphore shows: calls and returns. -/
def label (s : State T) : Event T → List (Act T Semaphore.Op Int)
  | .wait t => [.call t .wait]
  | .signal t => [.call t .signal]
  | .interrupt _ _ => []
  | .run t =>
    match s.pc t with
    | .waitGot | .sigUnlock => [.ret t 0]
    | .waitErr => [.ret t (-EINTR)]
    | _ => []

def Pc.status : Pc T → Status
  | .waitLock | .waitDec => .called .wait
  | .waitSleep | .asleep => .queued
  | .woken _ | .waitTest _ | .waitGot | .sigUnlock => .done
  | .sigLock | .sigInc | .sigCond => .called .signal
  | .idle | .taken | .waitErr | .intrWake _ => .out

/-- Not interrupted, and not interrupting. -/
def Pc.calm : Pc T → Bool
  | .taken | .waitErr | .intrWake _ => false
  | .woken k | .waitTest k => k != .interrupt
  | _ => true

/-- Past the test and not queued yet. -/
def Pc.joins : Pc T → Bool
  | .waitSleep => true
  | _ => false

/-- The thread that joins the queue next. -/
def joining (lock : Option T) (pc : T → Pc T) : List T :=
  lock.toList.filter fun t => (pc t).joins

/-- The token that has been put in and not been handed over yet. -/
def pending (lock : Option T) (pc : T → Pc T) : Nat :=
  lock.toList.countP fun t => (pc t).atCond

variable [DecidableEq T] {s s' : State T} {m : Semaphore.State T} {t : T}

/-- The semaphore `m` beside the code. -/
structure Fifo (s : State T) (m : Semaphore.State T) : Prop where
  lock : Held s.lock Pc.inside s.pc
  queue : QueueOk s.queue s.pc
  calm : ∀ t, (s.pc t).calm = true
  status : ∀ t, m.status t = (s.pc t).status
  order : m.queue = s.queue.reverse ++ joining s.lock s.pc
  count : s.count.toInt + m.queue.length = m.count + pending s.lock s.pc
  full : Semaphore.Full m

omit [DecidableEq T] in
theorem fifo_initial {k : Int32} (hk : 0 ≤ k) :
    Fifo (semInit k : State T) (Semaphore.initial k.toInt.toNat) where
  lock t := by simp [semInit, Pc.inside]
  queue := ⟨by simp [semInit], List.nodup_nil, by simp [semInit], by simp [semInit]⟩
  calm _ := rfl
  status _ := rfl
  order := rfl
  count := by
    rw [Int32.le_iff_toInt_le, Int32.toInt_zero] at hk
    show k.toInt + (0 : Nat) = (k.toInt.toNat : Nat) + (0 : Nat)
    omega
  full := Semaphore.full_initial _

omit [DecidableEq T] in
/-- The holder of the lock decides. -/
theorem joining_of_inside (h : Held s.lock Pc.inside s.pc) (ht : (s.pc t).inside = true) :
    joining s.lock s.pc = if (s.pc t).joins then [t] else [] := by
  rw [(h t).2 ht]
  cases hj : (s.pc t).joins <;> simp [joining, hj]

omit [DecidableEq T] in
theorem pending_of_inside (h : Held s.lock Pc.inside s.pc) (ht : (s.pc t).inside = true) :
    pending s.lock s.pc = (s.pc t).atCond.toNat := by
  rw [(h t).2 ht]
  cases hc : (s.pc t).atCond <;> simp [pending, hc]

/-- A thread moves between points that make no difference. -/
theorem joining_update (lock : Option T) (pc : T → Pc T) {p : Pc T} (hp : p.joins = (pc t).joins) :
    joining lock (Function.update pc t p) = joining lock pc := by
  apply List.filter_congr
  intro u _
  by_cases hu : u = t
  · rw [hu, Function.update_self, hp]
  · rw [Function.update_of_ne hu]

theorem pending_update (lock : Option T) (pc : T → Pc T) {p : Pc T}
    (hp : p.atCond = (pc t).atCond) :
    pending lock (Function.update pc t p) = pending lock pc := by
  apply List.countP_congr
  intro u _
  by_cases hu : u = t
  · rw [hu, Function.update_self, hp]
  · rw [Function.update_of_ne hu]

/-- Who takes the free lock is in neither window yet. -/
theorem windows_take (hfree : s.lock = none) {p : Pc T}
    (hp : p.joins = false ∧ p.atCond = false) :
    joining (some t) (Function.update s.pc t p) = joining s.lock s.pc ∧
      pending (some t) (Function.update s.pc t p) = pending s.lock s.pc := by
  rw [hfree]
  constructor
  · simp [joining, hp.1]
  · simp [pending, hp.2]

theorem calm_update {pc : T → Pc T} {p : Pc T} (h : ∀ u, (pc u).calm = true)
    (hp : p.calm = true) : ∀ u, (Function.update pc t p u).calm = true :=
  (Function.forall_update_iff _ fun _ (q : Pc T) => q.calm = true).2 ⟨hp, fun u _ => h u⟩

/-- The code has moved one thread, and the semaphore has followed. -/
theorem Fifo.set (h : Fifo s m) (hm : Move s t s') {m' : Semaphore.State T} {p : Pc T}
    (hpc : s'.pc = Function.update s.pc t p) (hcalm : p.calm = true)
    (hstatus : m'.status = Function.update m.status t p.status)
    (horder : m'.queue = s'.queue.reverse ++ joining s'.lock s'.pc)
    (hcount : s'.count.toInt + m'.queue.length = m'.count + pending s'.lock s'.pc)
    (hfull : Semaphore.Full m') : Fifo s' m' where
  lock := lock_move h.lock h.queue hm
  queue := h.queue.move hm
  calm := by
    rw [hpc]
    exact calm_update h.calm hcalm
  status u := by
    rw [hstatus, hpc]
    by_cases hu : u = t
    · rw [hu, Function.update_self, Function.update_self]
    · rw [Function.update_of_ne hu, Function.update_of_ne hu]
      exact h.status u
  order := horder
  count := hcount
  full := hfull

/-- A step that the clients do not see. -/
theorem Fifo.unseen (h : Fifo s m) (hm : Move s t s') {p : Pc T}
    (hpc : s'.pc = Function.update s.pc t p) (hcalm : p.calm = true)
    (hstatus : p.status = (s.pc t).status)
    (horder : s'.queue.reverse ++ joining s'.lock s'.pc = s.queue.reverse ++ joining s.lock s.pc)
    (hcount : s'.count.toInt + pending s.lock s.pc = s.count.toInt + pending s'.lock s'.pc) :
    ∃ m', Shows Semaphore.step Semaphore.label m [] m' ∧ Fifo s' m' := by
  have hcount₀ := h.count
  refine ⟨m, .refl m, h.set hm hpc hcalm ?_ (h.order.trans horder.symm) (by omega) h.full⟩
  rw [hstatus, ← h.status t, Function.update_eq_self]

omit [DecidableEq T] in
theorem Fifo.nobody (h : Fifo s m) (ht : (s.pc t).inside = true) (hj : (s.pc t).joins = false)
    (hc : (s.pc t).atCond = false) :
    m.queue = s.queue.reverse ∧ s.count.toInt + m.queue.length = m.count := by
  have horder := h.order
  have hcount := h.count
  rw [joining_of_inside h.lock ht, hj] at horder
  rw [pending_of_inside h.lock ht, hc] at hcount
  exact ⟨by simpa using horder, by simpa using hcount⟩

/-- **A wait that finds no token joins the queue.** -/
theorem Fifo.decSleep (h : Fifo s m) (hpc : s.pc t = .waitDec) (hmin : s.count ≠ Int32.minValue)
    (hc : s.count - 1 < 0) :
    ∃ m', Shows Semaphore.step Semaphore.label m [] m' ∧
      Fifo ({ s with count := s.count - 1 }.setPc t .waitSleep) m' := by
  have hin : (s.pc t).inside = true := by rw [hpc]; rfl
  obtain ⟨horder, hcount⟩ := h.nobody hin (by rw [hpc]; rfl) (by rw [hpc]; rfl)
  have hneg := (pred_neg hmin).1 hc
  have hzero : m.count = 0 := by
    by_cases hq : m.queue = []
    · rw [hq] at hcount
      simp at hcount
      omega
    · exact h.full hq
  have hst : m.status t = .called .wait := by rw [h.status, hpc]; rfl
  have heff : Semaphore.effect m t =
      some ({ m with queue := m.queue ++ [t] }.setStatus t .queued) := by
    simp only [Semaphore.effect, hst, hzero]
  have hm : Move s t _ := .decSleep hpc hc
  have hlock := lock_move h.lock h.queue hm
  have hpc' : ({ s with count := s.count - 1 }.setPc t .waitSleep).pc t = .waitSleep :=
    Function.update_self ..
  refine ⟨_, Semaphore.shows_effect heff,
    h.set hm rfl rfl rfl ?_ ?_ (Semaphore.full_effect h.full heff)⟩
  · rw [joining_of_inside hlock (by rw [hpc']; rfl), hpc']
    show m.queue ++ [t] = s.queue.reverse ++ [t]
    rw [horder]
  · rw [pending_of_inside hlock (by rw [hpc']; rfl), hpc']
    show (s.count - 1).toInt + ((m.queue ++ [t]).length : Nat) = m.count + (0 : Nat)
    rw [toInt_pred hmin, List.length_append, List.length_singleton]
    omega

/-- **A wait that finds a token takes it.** -/
theorem Fifo.decGot (h : Fifo s m) (hpc : s.pc t = .waitDec) (hmin : s.count ≠ Int32.minValue)
    (hc : ¬ s.count - 1 < 0) :
    ∃ m', Shows Semaphore.step Semaphore.label m [] m' ∧
      Fifo ({ s with count := s.count - 1 }.setPc t .waitGot) m' := by
  have hin : (s.pc t).inside = true := by rw [hpc]; rfl
  obtain ⟨horder, hcount⟩ := h.nobody hin (by rw [hpc]; rfl) (by rw [hpc]; rfl)
  have hpos := (not_congr (pred_neg hmin)).1 hc
  obtain ⟨n, hn⟩ : ∃ n, m.count = n + 1 := ⟨m.count - 1, by omega⟩
  have hst : m.status t = .called .wait := by rw [h.status, hpc]; rfl
  have heff : Semaphore.effect m t = some ({ m with count := n }.setStatus t .done) := by
    simp only [Semaphore.effect, hst, hn]
  have hm : Move s t _ := .decGot hpc hc
  have hlock := lock_move h.lock h.queue hm
  have hpc' : ({ s with count := s.count - 1 }.setPc t .waitGot).pc t = .waitGot :=
    Function.update_self ..
  refine ⟨_, Semaphore.shows_effect heff,
    h.set hm rfl rfl rfl ?_ ?_ (Semaphore.full_effect h.full heff)⟩
  · rw [joining_of_inside hlock (by rw [hpc']; rfl), hpc']
    exact horder.trans (List.append_nil _).symm
  · rw [pending_of_inside hlock (by rw [hpc']; rfl), hpc']
    show (s.count - 1).toInt + (m.queue.length : Nat) = (n : Nat) + (0 : Nat)
    rw [toInt_pred hmin]
    omega

/-- **A signal with nobody queued puts its token back.** -/
theorem Fifo.sigNobody (h : Fifo s m) (hpc : s.pc t = .sigCond) (hq : s.queue = []) :
    ∃ m', Shows Semaphore.step Semaphore.label m [] m' ∧ Fifo (s.setPc t .sigUnlock) m' := by
  have hin : (s.pc t).inside = true := by rw [hpc]; rfl
  have horder := h.order
  have hcount := h.count
  rw [joining_of_inside h.lock hin, hpc, hq] at horder
  rw [pending_of_inside h.lock hin, hpc] at hcount
  have hnil : m.queue = [] := horder
  have hst : m.status t = .called .signal := by rw [h.status, hpc]; rfl
  have heff : Semaphore.effect m t = some ({ m with count := m.count + 1 }.setStatus t .done) := by
    simp only [Semaphore.effect, hst, hnil]
  have hm : Move s t _ := .sigNobody hpc hq
  have hlock := lock_move h.lock h.queue hm
  have hpc' : (s.setPc t .sigUnlock).pc t = .sigUnlock := Function.update_self ..
  refine ⟨_, Semaphore.shows_effect heff,
    h.set hm rfl rfl rfl ?_ ?_ (Semaphore.full_effect h.full heff)⟩
  · rw [joining_of_inside hlock (by rw [hpc']; rfl), hpc']
    show m.queue = s.queue.reverse ++ []
    rw [hnil, hq]
    rfl
  · rw [pending_of_inside hlock (by rw [hpc']; rfl), hpc']
    have hcount : s.count.toInt + m.queue.length = m.count + (1 : Nat) := hcount
    show s.count.toInt + (m.queue.length : Nat) = ((m.count + 1 : Nat) : Int) + (0 : Nat)
    omega

/-- **A signal hands its token to the thread that waits longest.** -/
theorem Fifo.sigWake (h : Fifo s m) {l : List T} {u : T} (hpc : s.pc t = .sigCond)
    (hq : s.queue = l ++ [u]) :
    ∃ m', Shows Semaphore.step Semaphore.label m [] m' ∧
      Fifo (({ s with queue := l }.setPc u (.woken .signal)).setPc t .sigUnlock) m' := by
  have hin : (s.pc t).inside = true := by rw [hpc]; rfl
  have horder := h.order
  have hcount := h.count
  rw [joining_of_inside h.lock hin, hpc, hq, List.reverse_append] at horder
  rw [pending_of_inside h.lock hin, hpc] at hcount
  have hcons : m.queue = u :: l.reverse := by simpa [Pc.joins] using horder
  have hu : s.pc u = .asleep := (h.queue.mem u).1 (by rw [hq]; simp)
  have hst : m.status t = .called .signal := by rw [h.status, hpc]; rfl
  have heff : Semaphore.effect m t =
      some (({ m with queue := l.reverse }.setStatus u .done).setStatus t .done) := by
    simp only [Semaphore.effect, hst, hcons]
  have hm : Move s t _ := .sigWake hpc hq
  have hlock := lock_move h.lock h.queue hm
  have hpc' : (({ s with queue := l }.setPc u (.woken .signal)).setPc t .sigUnlock).pc t =
    .sigUnlock := Function.update_self ..
  refine ⟨_, Semaphore.shows_effect heff, hlock, h.queue.move hm, ?_, ?_, ?_, ?_,
    Semaphore.full_effect h.full heff⟩
  · exact calm_update (calm_update h.calm rfl) rfl
  · intro v
    show Function.update (Function.update m.status u .done) t .done v =
      (Function.update (Function.update s.pc u (.woken .signal)) t .sigUnlock v).status
    by_cases hvt : v = t
    · rw [hvt, Function.update_self, Function.update_self]
      rfl
    rw [Function.update_of_ne hvt, Function.update_of_ne hvt]
    by_cases hvu : v = u
    · rw [hvu, Function.update_self, Function.update_self]
      rfl
    · rw [Function.update_of_ne hvu, Function.update_of_ne hvu]
      exact h.status v
  · rw [joining_of_inside hlock (by rw [hpc']; rfl), hpc']
    exact (List.append_nil _).symm
  · rw [pending_of_inside hlock (by rw [hpc']; rfl), hpc']
    have hcount : s.count.toInt + m.queue.length = m.count + (1 : Nat) := hcount
    rw [hcons, List.length_cons] at hcount
    show s.count.toInt + (l.reverse.length : Nat) = (m.count : Int) + (0 : Nat)
    omega

/-- A thread returns and gives up `sem_lock`. -/
theorem Fifo.ret (h : Fifo s m) (hm : Move s t s') {p₀ : Pc T} (hpc : s.pc t = p₀)
    (h₀ : p₀.inside = true ∧ p₀.joins = false ∧ p₀.atCond = false) (hst₀ : p₀.status = .done)
    (hs' : s'.pc = Function.update s.pc t .idle) (hlock : s'.lock = none)
    (hqueue : s'.queue = s.queue) (hcount : s'.count = s.count) :
    ∃ m', Shows Semaphore.step Semaphore.label m [.ret t 0] m' ∧ Fifo s' m' := by
  obtain ⟨horder, hnum⟩ := h.nobody (t := t) (by rw [hpc]; exact h₀.1) (by rw [hpc]; exact h₀.2.1)
    (by rw [hpc]; exact h₀.2.2)
  have hst : m.status t = .done := by rw [h.status, hpc, hst₀]
  refine ⟨_, Semaphore.shows_ret hst, h.set hm hs' rfl rfl ?_ ?_ h.full⟩
  · rw [hlock, hqueue]
    exact horder.trans (List.append_nil _).symm
  · rw [hlock, hcount]
    exact hnum.trans (Int.add_zero _).symm

/-- **Every section of the code is answered.** -/
theorem Fifo.run (h : Fifo s m) (hin : InRange s (.run t)) (hs : run s t = some s') :
    ∃ m', Shows Semaphore.step Semaphore.label m (label s (.run t)) m' ∧ Fifo s' m' := by
  have hrun : ∀ {p}, s.pc t = p → p ≠ .idle := by
    rintro _ hpc rfl
    simp [Sem.run, hpc] at hs
  have hcalm := h.calm t
  have hm := run_move hs
  cases hm with
  | callWait hpc | callSignal hpc | intrMiss hpc | intrTake hpc _ => exact absurd rfl (hrun hpc)
  | waitLock hpc hfree =>
    simp only [label, hpc]
    obtain ⟨hj, hc⟩ := windows_take (t := t) (p := .waitDec) hfree ⟨rfl, rfl⟩
    exact h.unseen (.waitLock hpc hfree) rfl rfl (by rw [hpc]; rfl) (congrArg _ hj)
      (congrArg (s.count.toInt + ·) (congrArg _ hc.symm))
  | decSleep hpc hc =>
    simp only [label, hpc]
    exact h.decSleep hpc (hin.1 hpc) hc
  | decGot hpc hc =>
    simp only [label, hpc]
    exact h.decGot hpc (hin.1 hpc) hc
  | sleep hpc =>
    simp only [label, hpc]
    have hinside : (s.pc t).inside = true := by rw [hpc]; rfl
    refine h.unseen (.sleep hpc) rfl rfl (by rw [hpc]; rfl) ?_ ?_
    · rw [joining_of_inside h.lock hinside, hpc]
      show (t :: s.queue).reverse ++ [] = s.queue.reverse ++ [t]
      simp
    · rw [pending_of_inside h.lock hinside, hpc]
      rfl
  | @relock k hpc hfree =>
    simp only [label, hpc]
    rw [hpc] at hcalm
    obtain ⟨hj, hc⟩ := windows_take (t := t) (p := .waitTest k) hfree ⟨rfl, rfl⟩
    exact h.unseen (.relock hpc hfree) rfl hcalm (by rw [hpc]; rfl) (congrArg _ hj)
      (congrArg (s.count.toInt + ·) (congrArg _ hc.symm))
  | rollback hpc =>
    rw [hpc] at hcalm
    cases hcalm
  | testGot hpc hk =>
    simp only [label, hpc]
    refine h.unseen (.testGot hpc hk) rfl rfl (by rw [hpc]; rfl) ?_ ?_
    · exact congrArg _ (joining_update _ _ (by rw [hpc]; rfl))
    · exact congrArg (s.count.toInt + ·) (congrArg _ (pending_update _ _ (by rw [hpc]; rfl)).symm)
  | retErr hpc =>
    rw [hpc] at hcalm
    cases hcalm
  | ret0 hpc =>
    simp only [label, hpc]
    exact h.ret (.ret0 hpc) hpc ⟨rfl, rfl, rfl⟩ rfl rfl rfl rfl rfl
  | sigLock hpc hfree =>
    simp only [label, hpc]
    obtain ⟨hj, hc⟩ := windows_take (t := t) (p := .sigInc) hfree ⟨rfl, rfl⟩
    exact h.unseen (.sigLock hpc hfree) rfl rfl (by rw [hpc]; rfl) (congrArg _ hj)
      (congrArg (s.count.toInt + ·) (congrArg _ hc.symm))
  | sigInc hpc =>
    simp only [label, hpc]
    have hinside : (s.pc t).inside = true := by rw [hpc]; rfl
    have hlock := lock_move h.lock h.queue (.sigInc hpc)
    refine h.unseen (.sigInc hpc) rfl rfl (by rw [hpc]; rfl) ?_ ?_
    · exact congrArg _ (joining_update _ _ (by rw [hpc]; rfl))
    · have hpc' : ({ s with
        count := s.count + 1, signals := s.signals + 1 }.setPc t .sigCond).pc t = .sigCond :=
        Function.update_self ..
      rw [pending_of_inside h.lock hinside, pending_of_inside hlock (by rw [hpc']; rfl), hpc, hpc']
      show (s.count + 1).toInt + (0 : Nat) = s.count.toInt + (1 : Nat)
      rw [toInt_succ (hin.2 (Or.inl hpc))]
      omega
  | sigNobody hpc hq =>
    simp only [label, hpc]
    exact h.sigNobody hpc hq
  | sigWake hpc hq =>
    simp only [label, hpc]
    exact h.sigWake hpc hq
  | sigUnlock hpc =>
    simp only [label, hpc]
    exact h.ret (.sigUnlock hpc) hpc ⟨rfl, rfl, rfl⟩ rfl rfl rfl rfl rfl
  | intrWake hpc =>
    rw [hpc] at hcalm
    cases hcalm

/-- A thread calls an operation. -/
theorem Fifo.call (h : Fifo s m) (hpc : s.pc t = .idle) {p : Pc T} (a : Semaphore.Op)
    (hm : Move s t (s.setPc t p)) (hp : p.calm = true ∧ p.joins = false ∧ p.atCond = false)
    (hstatus : p.status = .called a) :
    ∃ m', Shows Semaphore.step Semaphore.label m [.call t a] m' ∧ Fifo (s.setPc t p) m' := by
  have hst : m.status t = .out := by rw [h.status, hpc]; rfl
  refine ⟨_, Semaphore.shows_call hst a, h.set hm rfl hp.1 (by rw [hstatus]; rfl) ?_ ?_ h.full⟩
  · show m.queue = s.queue.reverse ++ joining s.lock (Function.update s.pc t p)
    rw [joining_update _ _ (by rw [hpc, hp.2.1]; rfl)]
    exact h.order
  · show s.count.toInt + (m.queue.length : Nat) =
      m.count + (pending s.lock (Function.update s.pc t p) : Nat)
    rw [pending_update _ _ (by rw [hpc, hp.2.2]; rfl)]
    exact h.count

/-- Nobody is interrupted, and `sem_count` does not overflow. -/
def Undisturbed (s : State T) (e : Event T) : Prop := (∀ i u, e ≠ .interrupt i u) ∧ InRange s e

theorem simulates :
    SimulatesAlong (step : State T → _) label Undisturbed Semaphore.step Semaphore.label Fifo := by
  rintro s e s' m h ⟨he, hin⟩ hs
  cases e with
  | wait t =>
    simp only [step] at hs
    split at hs
    · cases hs
      exact h.call ‹_› .wait (.callWait ‹_›) ⟨rfl, rfl, rfl⟩ rfl
    · cases hs
  | signal t =>
    simp only [step] at hs
    split at hs
    · cases hs
      exact h.call ‹_› .signal (.callSignal ‹_›) ⟨rfl, rfl, rfl⟩ rfl
    · cases hs
  | interrupt i u => exact absurd rfl (he i u)
  | run t => exact h.run hin hs

/-- With one token, thread `t` takes it, `u` and `w` queue up in this order, `t` puts the token back
    and takes part again, behind them. -/
def takeTurns {T : Type} (t u w : T) : List (Event T) :=
  [.wait t, .run t, .run t, .run t, .wait u, .run u, .run u, .run u, .wait w, .run w, .run w,
    .run w, .signal t, .run t, .run t, .run t, .run t, .wait t, .run t, .run t, .run t, .run u,
    .run u, .run u]

end Timix.Sem
