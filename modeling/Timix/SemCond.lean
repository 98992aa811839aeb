import Timix.CondMonitor
import Timix.Lib.Client
import Timix.SemMany

/-!
# `sem.c` over `cond.c`

`Timix.Sem` takes the calls of `mutex_lock`, `mutex_unlock`, `cond_wait`, `cond_signal` and
`cond_interrupt` as one step each, or two.  Here they are calls: the thread makes the call, the
code of `cond.c` takes its own steps, together with those of the other threads, and `sem.c` goes on
with what is returned.  All semaphores share one `cond.c`: semaphore `k` has condition variable `k`
(`sem_signal`) and mutex `k` (`sem_lock`).

* `Point` — program points; a call has a point before it is made and one while it is under way.
* `Code`, `semaphores` — `sem.c` as a client of mutexes and condition variables.
* `Point.seat` — where `Timix.Sem.Many` has a thread, by its point and by how far the monitor has
  got with its call.
* `Counts` — `sem->sem_count--` and its test are two steps here and one in `Timix.Sem`.
* `Follows` — the simulation relation over a monitor (`Timix.Lib.Monitor`), one lemma for each kind
  of step; `simulates` joins them.
* `Above` — `cond.c` refines the monitor (`Timix.CondMonitor`), so `sem.c` over `cond.c` refines
  `sem.c` over the monitor: `code_simulates`.

Principal result: `sem_over_cond`.
-/

set_option autoImplicit false

namespace Timix.SemCond

open Lts
open Linear (Act)
open Semaphore (Op)
open Timix.Cond (EINTR Ender)
open Timix.Sem.Many (ManyInv Place)

variable {T K : Type}

/-! ## The code -/

/-- Program points; `made` once the call there has been made. -/
inductive Point (T K : Type) where
  | out
  /-- `sem_wait`: `mutex_lock(&(sem->sem_lock))`. -/
  | waitLock (k : K) (made : Bool)
  /-- `sem->sem_count--`. -/
  | waitDec (k : K)
  /-- `sem->sem_count < 0`. -/
  | waitTest (k : K)
  /-- `cond_wait(&(sem->sem_signal), &(sem->sem_lock))`. -/
  | waitCond (k : K) (made : Bool)
  /-- It returned `-EINTR`: `sem->sem_count++`. -/
  | waitInc (k : K)
  /-- `mutex_unlock`, `return -EINTR`. -/
  | errUnlock (k : K) (made : Bool)
  /-- `mutex_unlock`, `return 0`. -/
  | gotUnlock (k : K) (made : Bool)
  /-- `sem_signal`: `mutex_lock`. -/
  | sigLock (k : K) (made : Bool)
  /-- `sem->sem_count++`. -/
  | sigInc (k : K)
  /-- `cond_signal(&(sem->sem_signal))`. -/
  | sigCond (k : K) (made : Bool)
  | sigUnlock (k : K) (made : Bool)
  /-- A `cond_interrupt(u)` of somebody else's. -/
  | intr (u : T) (made : Bool)
  deriving DecidableEq, Repr

/-- The values of `sem_count`, and the threads. -/
structure Code (T K : Type) where
  count : K → Int32
  point : T → Point T K

inductive Event (T K : Type) where
  | call (t : T) (k : K) (a : Op)
  | interrupt (i u : T)
  /-- A statement of `sem.c` that is not a call. -/
  | run (t : T)
  deriving DecidableEq, Repr

/-- The call at a point, and whether it has been made. -/
def Point.op : Point T K → Option (Monitor.Op T K K × Bool)
  | .waitLock k made | .sigLock k made => some (.lock k, made)
  | .waitCond k made => some (.wait k k true, made)
  | .errUnlock k made | .gotUnlock k made | .sigUnlock k made => some (.unlock k, made)
  | .sigCond k made => some (.signal k, made)
  | .intr u made => some (.interrupt u, made)
  | _ => none

/-- The point while the call is under way. -/
def Point.makes : Point T K → Point T K
  | .waitLock k _ => .waitLock k true
  | .sigLock k _ => .sigLock k true
  | .waitCond k _ => .waitCond k true
  | .errUnlock k _ => .errUnlock k true
  | .gotUnlock k _ => .gotUnlock k true
  | .sigUnlock k _ => .sigUnlock k true
  | .sigCond k _ => .sigCond k true
  | .intr u _ => .intr u true
  | p => p

/-- The point after the call has returned `r`. -/
def Point.next (r : Int) : Point T K → Point T K
  | .waitLock k _ => .waitDec k
  | .waitCond k _ => if r = -EINTR then .waitInc k else .gotUnlock k false
  | .sigLock k _ => .sigInc k
  | .sigCond k _ => .sigUnlock k false
  | _ => .out

/-- What `sem_wait` and `sem_signal` return with the return of their last call. -/
def Point.returns : Point T K → Option Int
  | .errUnlock .. => some (-EINTR)
  | .gotUnlock .. | .sigUnlock .. => some 0
  | _ => none

def entry (k : K) : Op → Point T K
  | .wait => .waitLock k false
  | .signal => .sigLock k false

section Model

variable [DecidableEq T] [DecidableEq K]

def Code.goto (s : Code T K) (t : T) (p : Point T K) : Code T K :=
  { s with point := Function.update s.point t p }

def Code.setCount (s : Code T K) (k : K) (v : Int32) : Code T K :=
  { s with count := Function.update s.count k v }

/-- The statements between the calls. -/
def Code.run (s : Code T K) (t : T) : Option (Code T K) :=
  match s.point t with
  | .waitDec k => some ((s.setCount k (s.count k - 1)).goto t (.waitTest k))
  | .waitTest k =>
    if s.count k < 0 then some (s.goto t (.waitCond k false))
    else some (s.goto t (.gotUnlock k false))
  | .waitInc k => some ((s.setCount k (s.count k + 1)).goto t (.errUnlock k false))
  | .sigInc k => some ((s.setCount k (s.count k + 1)).goto t (.sigCond k false))
  | _ => none

def Code.step (s : Code T K) : Event T K → Option (Code T K)
  | .call t k a => if s.point t = .out then some (s.goto t (entry k a)) else none
  | .interrupt i u => if s.point i = .out then some (s.goto i (.intr u false)) else none
  | .run t => s.run t

/-- Calls of the lower modules and their returns. -/
def Code.accept (s : Code T K) : Act T (Monitor.Op T K K) Int → Option (Code T K)
  | .call t a =>
    if (s.point t).op = some (a, false) then some (s.goto t (s.point t).makes) else none
  | .ret t r =>
    match (s.point t).op with
    | some (_, true) => some (s.goto t ((s.point t).next r))
    | _ => none

def semaphores (T K : Type) [DecidableEq T] [DecidableEq K] :
    Client (Code T K) (Event T K) (Act T (Monitor.Op T K K) Int) (Act T (K × Op) Int) where
  step := Code.step
  label _
    | .call t k a => [.call t (k, a)]
    | _ => []
  accept := Code.accept
  shows s
    | .ret t _ => (s.point t).returns.toList.map (.ret t)
    | .call .. => []

/-- `sem_init(sem, n k)` for every semaphore. -/
def codeStart (n : K → Int32) : Code T K := ⟨n, fun _ => .out⟩

end Model

/-! ## Where `Timix.Sem.Many` has a thread -/

/-- A place, with the program point there. -/
inductive Seat (T K : Type) where
  | out
  | inside (k : K) (a : Op) (p : Sem.Pc T)
  | back (k : K) (a : Op) (r : Int)

def Seat.place : Seat T K → Place K
  | .out => .out
  | .inside k a _ => .inside k a
  | .back k a r => .back k a r

def Seat.pc [DecidableEq K] (k : K) : Seat T K → Sem.Pc T
  | .inside l _ p => if l = k then p else .idle
  | _ => .idle

/-- Who ends a wait that returns `r`. -/
def ender : Monitor.Reply → Ender
  | .interrupted => .interrupt
  | _ => .signal

def Point.seat : Point T K → Monitor.Status T K K → Seat T K
  | .out, _ | .intr .., _ => .out
  | .waitLock k _, .done _ | .waitDec k, _ | .waitTest k, _ => .inside k .wait .waitDec
  | .waitLock k _, _ => .inside k .wait .waitLock
  | .waitCond k _, .waiting .. => .inside k .wait .asleep
  | .waitCond k _, .woken _ r => .inside k .wait (.woken (ender r))
  | .waitCond k _, .done r => .inside k .wait (.waitTest (ender r))
  | .waitCond k _, _ => .inside k .wait .waitSleep
  | .waitInc k, _ => .inside k .wait (.waitTest .interrupt)
  | .errUnlock k _, .done _ => .back k .wait (-EINTR)
  | .errUnlock k _, _ => .inside k .wait .waitErr
  | .gotUnlock k _, .done _ => .back k .wait 0
  | .gotUnlock k _, _ => .inside k .wait .waitGot
  | .sigLock k _, .done _ | .sigInc k, _ => .inside k .signal .sigInc
  | .sigLock k _, _ => .inside k .signal .sigLock
  | .sigCond k _, .done _ => .inside k .signal .sigUnlock
  | .sigCond k _, _ => .inside k .signal .sigCond
  | .sigUnlock k _, .done _ => .back k .signal 0
  | .sigUnlock k _, _ => .inside k .signal .sigUnlock

/-- The operation that is under way. -/
def Point.under (p : Point T K) : Option (Monitor.Op T K K) :=
  match p.op with
  | some (a, true) => some a
  | _ => none

/-! ## The counts -/

section Counts

variable [DecidableEq T] [DecidableEq K] {c v : K → Int32} {point : T → Point T K} {t : T} {k : K}
  {p : Point T K}

/-- The counts of the code beside those of `Timix.Sem.Many`, which decrements and tests in one
    step. -/
structure Counts (c : K → Int32) (point : T → Point T K) (v : K → Int32) : Prop where
  level : ∀ k, (∀ t, point t ≠ .waitTest k) → v k = c k
  ahead : ∀ t k, point t = .waitTest k → v k = c k + 1

omit [DecidableEq K] in
/-- A thread moves elsewhere. -/
theorem Counts.keep (h : Counts c point v) (h₀ : ∀ k, point t ≠ .waitTest k)
    (hp : ∀ k, p ≠ .waitTest k) : Counts c (Function.update point t p) v where
  level l hl := by
    refine h.level l fun u hu => ?_
    have hut : u ≠ t := by
      rintro rfl
      exact h₀ l hu
    exact hl u (by rwa [Function.update_of_ne hut])
  ahead u l hu := by
    by_cases hut : u = t
    · subst hut
      rw [Function.update_self] at hu
      exact absurd hu (hp l)
    · rw [Function.update_of_ne hut] at hu
      exact h.ahead u l hu

/-- `sem->sem_count--`. -/
theorem Counts.dec (h : Counts c point v) (h₀ : ∀ k, point t ≠ .waitTest k)
    (hk : ∀ u, point u ≠ .waitTest k) :
    Counts (Function.update c k (c k - 1)) (Function.update point t (.waitTest k)) v where
  level l hl := by
    have hlk : l ≠ k := by
      rintro rfl
      exact hl t (Function.update_self ..)
    rw [Function.update_of_ne hlk]
    refine h.level l fun u hu => ?_
    have hut : u ≠ t := by
      rintro rfl
      exact h₀ l hu
    exact hl u (by rwa [Function.update_of_ne hut])
  ahead u l hu := by
    by_cases hut : u = t
    · subst hut
      rw [Function.update_self] at hu
      cases hu
      rw [Function.update_self, h.level k hk, Int32.sub_add_cancel]
    · rw [Function.update_of_ne hut] at hu
      have hlk : l ≠ k := by
        rintro rfl
        exact hk u hu
      rw [Function.update_of_ne hlk]
      exact h.ahead u l hu

/-- The test, with which `Timix.Sem.Many` decrements. -/
theorem Counts.test (h : Counts c point v) (ht : point t = .waitTest k)
    (hk : ∀ u, u ≠ t → point u ≠ .waitTest k) (hp : ∀ k, p ≠ .waitTest k) :
    Counts c (Function.update point t p) (Function.update v k (v k - 1)) where
  level l hl := by
    by_cases hlk : l = k
    · subst hlk
      rw [Function.update_self, h.ahead t l ht, Int32.add_sub_cancel]
    · rw [Function.update_of_ne hlk]
      refine h.level l fun u hu => ?_
      have hut : u ≠ t := by
        rintro rfl
        rw [ht] at hu
        cases hu
        exact hlk rfl
      exact hl u (by rwa [Function.update_of_ne hut])
  ahead u l hu := by
    by_cases hut : u = t
    · subst hut
      rw [Function.update_self] at hu
      exact absurd hu (hp l)
    · rw [Function.update_of_ne hut] at hu
      have hlk : l ≠ k := by
        rintro rfl
        exact hk u hut hu
      rw [Function.update_of_ne hlk]
      exact h.ahead u l hu

/-- `sem->sem_count++`. -/
theorem Counts.inc (h : Counts c point v) (hk : ∀ u, point u ≠ .waitTest k)
    (h₀ : ∀ k, point t ≠ .waitTest k) (hp : ∀ k, p ≠ .waitTest k) :
    Counts (Function.update c k (c k + 1)) (Function.update point t p)
      (Function.update v k (v k + 1)) := by
  have hadd : Counts (Function.update c k (c k + 1)) point (Function.update v k (v k + 1)) := by
    refine ⟨?_, ?_⟩
    · intro l hl
      by_cases hlk : l = k
      · subst hlk
        rw [Function.update_self, Function.update_self, h.level l hl]
      · rw [Function.update_of_ne hlk, Function.update_of_ne hlk]
        exact h.level l hl
    · intro u l hu
      have hlk : l ≠ k := by
        rintro rfl
        exact hk u hu
      rw [Function.update_of_ne hlk, Function.update_of_ne hlk]
      exact h.ahead u l hu
  exact hadd.keep h₀ hp

end Counts

/-! ## The simulation relation -/

section Follows

variable [DecidableEq T] [DecidableEq K]

/-- `Timix.Sem.Many` beside `sem.c` over the monitor. -/
structure Follows (x : Code T K × Monitor.State T K K) (m : Sem.Many.State T K) :
    Prop where
  many : ManyInv m
  doing : ∀ t, Monitor.Doing (x.1.point t).under (x.2.status t)
  place : ∀ t, m.place t = ((x.1.point t).seat (x.2.status t)).place
  pc : ∀ k t, (m.sem k).pc t = ((x.1.point t).seat (x.2.status t)).pc k
  owner : ∀ k, (m.sem k).lock = x.2.owner k
  queue : ∀ k, (m.sem k).queue = (x.2.queue k).reverse
  count : Counts x.1.count x.1.point fun k => (m.sem k).count

variable {x x' : Code T K × Monitor.State T K K} {m m' : Sem.Many.State T K} {t u : T}
  {k : K} {a : Op} {p : Point T K} {y : Monitor.Status T K K} {z : Sem.State T}

omit [DecidableEq K] in
/-- What holds of a point and a status for every thread, after one thread has moved. -/
theorem forall_moved {P : T → Point T K → Monitor.Status T K K → Prop} {f : T → Point T K}
    {g : T → Monitor.Status T K K} (h : ∀ u, P u (f u) (g u)) (ht : P t p y) (u : T) :
    P u (Function.update f t p u) (Function.update g t y u) := by
  by_cases hu : u = t
  · subst hu
    simpa only [Function.update_self] using ht
  · simpa only [Function.update_of_ne hu] using h u

omit [DecidableEq T] in
/-- Where a thread is inside a semaphore. -/
theorem Follows.at_seat (h : Follows x m) {p₀ : Sem.Pc T}
    (hs : (x.1.point t).seat (x.2.status t) = .inside k a p₀) :
    m.place t = .inside k a ∧ (m.sem k).pc t = p₀ := by
  have hplace := h.place t
  have hpc := h.pc k t
  rw [hs] at hplace hpc
  exact ⟨hplace, hpc.trans (if_pos rfl)⟩

/-- Thread `t` goes to `p` and `y`, and moves at semaphore `k`. -/
theorem Follows.moved (h : Follows x m) {e : Sem.Many.Event T K}
    (hm : Sem.Many.step m e = some m') (hsem : m'.sem = Function.update m.sem k z)
    (hplace : m'.place = Function.update m.place t (p.seat y).place)
    (hpc : z.pc = Function.update (m.sem k).pc t ((p.seat y).pc k))
    (hother : ∀ l, l ≠ k → (p.seat y).pc l = ((x.1.point t).seat (x.2.status t)).pc l)
    (hpoint : x'.1.point = Function.update x.1.point t p)
    (hstatus : x'.2.status = Function.update x.2.status t y) (hdoing : Monitor.Doing p.under y)
    (howner : x'.2.owner = Function.update x.2.owner k z.lock)
    (hqueue : x'.2.queue = Function.update x.2.queue k z.queue.reverse)
    (hcount : Counts x'.1.count x'.1.point
      (Function.update (fun l => (m.sem l).count) k z.count)) : Follows x' m' where
  many := h.many.step hm
  doing u := by
    rw [hpoint, hstatus]
    exact forall_moved (P := fun _ p y => Monitor.Doing p.under y) h.doing hdoing u
  place u := by
    rw [hplace, hpoint, hstatus]
    by_cases hu : u = t
    · subst hu
      simp only [Function.update_self]
    · simpa only [Function.update_of_ne hu] using h.place u
  pc l u := by
    rw [hsem, hpoint, hstatus]
    by_cases hl : l = k
    · subst hl
      rw [Function.update_self, hpc]
      by_cases hu : u = t
      · subst hu
        simp only [Function.update_self]
      · simpa only [Function.update_of_ne hu] using h.pc l u
    · rw [Function.update_of_ne hl]
      exact forall_moved (P := fun u p y => (m.sem l).pc u = (p.seat y).pc l) (h.pc l)
        ((h.pc l t).trans (hother l hl).symm) u
  owner l := by
    rw [hsem, howner]
    by_cases hl : l = k
    · subst hl
      simp only [Function.update_self]
    · simpa only [Function.update_of_ne hl] using h.owner l
  queue l := by
    rw [hsem, hqueue]
    by_cases hl : l = k
    · subst hl
      simp only [Function.update_self, List.reverse_reverse]
    · simpa only [Function.update_of_ne hl] using h.queue l
  count := by
    have hv : (fun l => (m'.sem l).count) =
        Function.update (fun l => (m.sem l).count) k z.count := by
      rw [hsem]
      exact Function.comp_update Sem.State.count m.sem k z
    rwa [hv]

/-- A step that changes no seat. -/
theorem Follows.unseen (h : Follows x m) (hpoint : x'.1.point = Function.update x.1.point t p)
    (hstatus : x'.2.status = Function.update x.2.status t y) (hdoing : Monitor.Doing p.under y)
    (hseat : p.seat y = (x.1.point t).seat (x.2.status t)) (howner : x'.2.owner = x.2.owner)
    (hqueue : x'.2.queue = x.2.queue)
    (hcount : Counts x'.1.count x'.1.point fun l => (m.sem l).count) : Follows x' m where
  many := h.many
  doing u := by
    rw [hpoint, hstatus]
    exact forall_moved (P := fun _ p y => Monitor.Doing p.under y) h.doing hdoing u
  place u := by
    rw [hpoint, hstatus]
    exact forall_moved (P := fun u p y => m.place u = (p.seat y).place) h.place
      (by rw [hseat, h.place]) u
  pc l u := by
    rw [hpoint, hstatus]
    exact forall_moved (P := fun u p y => (m.sem l).pc u = (p.seat y).pc l) (h.pc l)
      (by rw [hseat, h.pc]) u
  owner l := by
    rw [howner]
    exact h.owner l
  queue l := by
    rw [hqueue]
    exact h.queue l
  count := hcount

/-- `Timix.Sem` takes a step inside a call. -/
theorem Follows.go (h : Follows x m) {p₀ p₁ : Sem.Pc T}
    (hs₀ : (x.1.point t).seat (x.2.status t) = .inside k a p₀) (hrun : Sem.run (m.sem k) t = some z)
    (hz : z.pc = Function.update (m.sem k).pc t p₁) (hne : p₁ ≠ .idle)
    (hseat : p.seat y = .inside k a p₁) (hpoint : x'.1.point = Function.update x.1.point t p)
    (hstatus : x'.2.status = Function.update x.2.status t y) (hdoing : Monitor.Doing p.under y)
    (howner : x'.2.owner = Function.update x.2.owner k z.lock)
    (hqueue : x'.2.queue = Function.update x.2.queue k z.queue.reverse)
    (hcount : Counts x'.1.count x'.1.point
      (Function.update (fun l => (m.sem l).count) k z.count)) :
    ∃ m', Shows Sem.Many.step Sem.Many.label m [] m' ∧ Follows x' m' := by
  obtain ⟨hplace, -⟩ := h.at_seat hs₀
  have hzt : z.pc t ≠ .idle := by
    rw [hz, Function.update_self]
    exact hne
  have hm : Sem.Many.step m (.run t) = some (m.setSem k z) := by
    simp only [Sem.Many.step, hplace, hrun, if_neg hzt]
  refine ⟨_, .single (Sem.Many.Event.run t) hm, h.moved hm rfl ?_ ?_ ?_ hpoint hstatus hdoing
    howner hqueue hcount⟩
  · rw [hseat, Seat.place, ← hplace, Function.update_eq_self]
    rfl
  · rw [hz, hseat, Seat.pc, if_pos rfl]
  · intro l hl
    rw [hseat, hs₀, Seat.pc, Seat.pc, if_neg (Ne.symm hl), if_neg (Ne.symm hl)]

/-- `Timix.Sem` takes the last step of a call. -/
theorem Follows.through (h : Follows x m) {p₀ : Sem.Pc T}
    (hs₀ : (x.1.point t).seat (x.2.status t) = .inside k a p₀) (hrun : Sem.run (m.sem k) t = some z)
    (hz : z.pc = Function.update (m.sem k).pc t .idle)
    (hseat : p.seat y = .back k a (Sem.Many.result p₀))
    (hpoint : x'.1.point = Function.update x.1.point t p)
    (hstatus : x'.2.status = Function.update x.2.status t y) (hdoing : Monitor.Doing p.under y)
    (howner : x'.2.owner = Function.update x.2.owner k z.lock)
    (hqueue : x'.2.queue = Function.update x.2.queue k z.queue.reverse)
    (hcount : Counts x'.1.count x'.1.point
      (Function.update (fun l => (m.sem l).count) k z.count)) :
    ∃ m', Shows Sem.Many.step Sem.Many.label m [] m' ∧ Follows x' m' := by
  obtain ⟨hplace, hpc⟩ := h.at_seat hs₀
  have hzt : z.pc t = .idle := by rw [hz, Function.update_self]
  have hm : Sem.Many.step m (.run t) =
      some ((m.setSem k z).setPlace t (.back k a (Sem.Many.result p₀))) := by
    simp only [Sem.Many.step, hplace, hrun, if_pos hzt, hpc]
  refine ⟨_, .single (Sem.Many.Event.run t) hm, h.moved hm rfl ?_ ?_ ?_ hpoint hstatus hdoing
    howner hqueue hcount⟩
  · rw [hseat]
    rfl
  · rw [hz, hseat]
    rfl
  · intro l hl
    rw [hseat, hs₀]
    exact (if_neg (Ne.symm hl)).symm

omit [DecidableEq T] in
/-- Nothing but its own thread is at a semaphore whose mutex is held. -/
theorem Follows.alone (h : Follows x m) (ht : ((m.sem k).pc t).inside = true) (u : T)
    (hu : u ≠ t) : x.1.point u ≠ .waitTest k := by
  intro hpoint
  have hpc : (m.sem k).pc u = .waitDec := by
    rw [h.pc, hpoint]
    exact if_pos rfl
  exact hu ((h.many.sem k).lock.unique (by rw [hpc]; rfl) ht)

/-- Neither is its own thread, if it is elsewhere. -/
theorem Follows.nobody (h : Follows x m) (ht : ((m.sem k).pc t).inside = true)
    (hat : x.1.point t ≠ .waitTest k) (u : T) : x.1.point u ≠ .waitTest k := by
  by_cases hu : u = t
  · rwa [hu]
  · exact h.alone ht u hu

/-! ## The statements of `sem.c` -/

/-- A statement of `sem.c` that is a step of `Timix.Sem`. -/
theorem Follows.statement (h : Follows x m) {s : Code T K} {p₀ p₁ : Sem.Pc T}
    (hst : x.2.status t = .out) (hs₀ : (x.1.point t).seat (x.2.status t) = .inside k a p₀)
    (hrun : Sem.run (m.sem k) t = some z) (hz : z.pc = Function.update (m.sem k).pc t p₁)
    (hlock : z.lock = (m.sem k).lock) (hqueue : z.queue = (m.sem k).queue) (hne : p₁ ≠ .idle)
    (hunder : p.under = none) (hseat : p.seat .out = .inside k a p₁)
    (hpoint : s.point = Function.update x.1.point t p)
    (hcount : Counts s.count s.point (Function.update (fun l => (m.sem l).count) k z.count)) :
    ∃ m', Shows Sem.Many.step Sem.Many.label m [] m' ∧ Follows (s, x.2) m' := by
  refine h.go hs₀ hrun hz hne hseat hpoint ?_ ?_ ?_ ?_ hcount
  · rw [← hst, Function.update_eq_self]
  · rw [hunder]
    rfl
  · rw [hlock, h.owner, Function.update_eq_self]
  · rw [hqueue, h.queue, List.reverse_reverse, Function.update_eq_self]

/-- **A statement that is not a call.** -/
theorem Follows.run (h : Follows x m) {s : Code T K} (hs : x.1.run t = some s) :
    ∃ m', Shows Sem.Many.step Sem.Many.label m [] m' ∧ Follows (s, x.2) m' := by
  have hout : ∀ p, x.1.point t = p → p.under = none → x.2.status t = .out := by
    intro p hp hu
    have hdoing := h.doing t
    rw [hp, hu] at hdoing
    exact hdoing
  unfold Code.run at hs
  split at hs
  case h_1 k hat =>
    cases hs
    have hst := hout _ hat rfl
    have hin : ((m.sem k).pc t).inside = true := by
      rw [h.pc, hat]
      exact congrArg Sem.Pc.inside (if_pos rfl)
    refine ⟨m, .refl m, h.unseen (t := t) (p := .waitTest k) (y := .out) rfl ?_ rfl ?_ rfl rfl ?_⟩
    · rw [← hst, Function.update_eq_self]
    · rw [hat]
      rfl
    · exact h.count.dec (by rw [hat]; rintro l ⟨⟩) (h.nobody hin (by rw [hat]; rintro ⟨⟩))
  case h_2 k hat =>
    have hst := hout _ hat rfl
    have hseat : (x.1.point t).seat (x.2.status t) = .inside k .wait .waitDec := by rw [hat]; rfl
    have hpc := (h.at_seat hseat).2
    have hcount : (m.sem k).count - 1 = x.1.count k := by
      rw [h.count.ahead t k hat, Int32.add_sub_cancel]
    have halone := h.alone (t := t) (k := k) (by rw [hpc]; rfl)
    split at hs
    · cases hs
      have hlt : (m.sem k).count - 1 < 0 := by rwa [hcount]
      have hrun : Sem.run (m.sem k) t =
          some ({ m.sem k with count := (m.sem k).count - 1 }.setPc t .waitSleep) := by
        simp only [Sem.run, hpc, if_pos hlt]
      exact h.statement (p := .waitCond k false) hst hseat hrun rfl rfl rfl (by simp) rfl rfl rfl
        (h.count.test hat halone (by rintro l ⟨⟩))
    · cases hs
      have hlt : ¬ (m.sem k).count - 1 < 0 := by rwa [hcount]
      have hrun : Sem.run (m.sem k) t =
          some ({ m.sem k with count := (m.sem k).count - 1 }.setPc t .waitGot) := by
        simp only [Sem.run, hpc, if_neg hlt]
      exact h.statement (p := .gotUnlock k false) hst hseat hrun rfl rfl rfl (by simp) rfl rfl rfl
        (h.count.test hat halone (by rintro l ⟨⟩))
  case h_3 k hat =>
    cases hs
    have hst := hout _ hat rfl
    have hseat : (x.1.point t).seat (x.2.status t) = .inside k .wait (.waitTest .interrupt) := by
      rw [hat]
      rfl
    have hpc := (h.at_seat hseat).2
    have hnobody := h.nobody (t := t) (k := k) (by rw [hpc]; rfl) (by rw [hat]; rintro ⟨⟩)
    have hrun : Sem.run (m.sem k) t =
        some ({ m.sem k with count := (m.sem k).count + 1 }.setPc t .waitErr) := by
      simp only [Sem.run, hpc, if_pos]
    exact h.statement (p := .errUnlock k false) hst hseat hrun rfl rfl rfl (by simp) rfl rfl rfl
      (h.count.inc hnobody (by rw [hat]; rintro l ⟨⟩) (by rintro l ⟨⟩))
  case h_4 k hat =>
    cases hs
    have hst := hout _ hat rfl
    have hseat : (x.1.point t).seat (x.2.status t) = .inside k .signal .sigInc := by rw [hat]; rfl
    have hpc := (h.at_seat hseat).2
    have hnobody := h.nobody (t := t) (k := k) (by rw [hpc]; rfl) (by rw [hat]; rintro ⟨⟩)
    have hrun : Sem.run (m.sem k) t = some ({ m.sem k with
        count := (m.sem k).count + 1
        signals := (m.sem k).signals + 1 }.setPc t .sigCond) := by
      simp only [Sem.run, hpc]
    exact h.statement (p := .sigCond k false) hst hseat hrun rfl rfl rfl (by simp) rfl rfl rfl
      (h.count.inc hnobody (by rw [hat]; rintro l ⟨⟩) (by rintro l ⟨⟩))
  case h_5 => cases hs

/-- **The client's own steps**: a thread calls, interrupts, or goes on. -/
theorem Follows.own (h : Follows x m) {e : Event T K} {s : Code T K}
    (hs : x.1.step e = some s) :
    ∃ m', Shows Sem.Many.step Sem.Many.label m ((semaphores T K).label x.1 e) m' ∧
      Follows (s, x.2) m' := by
  have hidle : ∀ t, x.1.point t = .out → x.2.status t = .out ∧ m.place t = .out ∧
      ∀ k, (m.sem k).pc t = .idle := by
    intro t ht
    have hdoing := h.doing t
    have hplace := h.place t
    have hpc := fun k => h.pc k t
    rw [ht] at hdoing hplace
    simp only [ht] at hpc
    exact ⟨hdoing, hplace, hpc⟩
  cases e with
  | call t k a =>
    simp only [Code.step] at hs
    split at hs
    case isFalse => cases hs
    rename_i hat
    cases hs
    obtain ⟨hst, hplace, hpc⟩ := hidle t hat
    obtain ⟨p₁, hz, hseat, hrun⟩ : ∃ p₁, p₁ ≠ Sem.Pc.idle ∧ (entry k a : Point T K).seat .out =
        .inside k a p₁ ∧ Sem.step (m.sem k) (Sem.Many.opEvent t a) =
          some ((m.sem k).setPc t p₁) := by
      cases a with
      | wait => exact ⟨.waitLock, by simp, rfl, if_pos (hpc k)⟩
      | signal => exact ⟨.sigLock, by simp, rfl, if_pos (hpc k)⟩
    have hm : Sem.Many.step m (.call t k a) =
        some ((m.setSem k ((m.sem k).setPc t p₁)).setPlace t (.inside k a)) := by
      simp only [Sem.Many.step, hplace, hrun]
    refine ⟨_, .single (Sem.Many.Event.call t k a) hm,
      h.moved hm rfl (p := entry k a) (y := .out) ?_ ?_ ?_ rfl ?_ ?_ ?_ ?_ ?_⟩
    · rw [hseat]
      rfl
    · rw [hseat, Seat.pc, if_pos rfl]
      rfl
    · intro l hl
      rw [hseat, hat]
      exact if_neg (Ne.symm hl)
    · rw [← hst, Function.update_eq_self]
    · cases a <;> rfl
    · rw [show ((m.sem k).setPc t p₁).lock = x.2.owner k from h.owner k, Function.update_eq_self]
    · rw [show ((m.sem k).setPc t p₁).queue = (x.2.queue k).reverse from h.queue k,
        List.reverse_reverse, Function.update_eq_self]
    · show Counts x.1.count (Function.update x.1.point t (entry k a))
        (Function.update (fun l => (m.sem l).count) k (m.sem k).count)
      rw [Function.update_eq_self (f := fun l => (m.sem l).count)]
      exact h.count.keep (by rw [hat]; rintro l ⟨⟩) (by cases a <;> rintro l ⟨⟩)
  | interrupt i u =>
    simp only [Code.step] at hs
    split at hs
    case isFalse => cases hs
    rename_i hat
    cases hs
    obtain ⟨hst, -, -⟩ := hidle i hat
    refine ⟨m, .refl m, h.unseen (t := i) (p := .intr u false) (y := .out) rfl ?_ rfl ?_ rfl rfl
      (h.count.keep (by rw [hat]; rintro l ⟨⟩) (by rintro l ⟨⟩))⟩
    · rw [← hst, Function.update_eq_self]
    · rw [hat]
      rfl
  | run t => exact h.run hs

/-! ## The calls -/

/-- **A call is made.** -/
theorem Follows.call (h : Follows x m) {b : Monitor.Op T K K} {s : Code T K}
    (hs : x.1.accept (.call t b) = some s) :
    Follows (s, x.2.setStatus t (.called b)) m := by
  simp only [Code.accept] at hs
  split at hs
  case isFalse => cases hs
  rename_i hop
  cases hs
  have hout : x.2.status t = .out := by
    have hdoing := h.doing t
    rw [Point.under, hop] at hdoing
    exact hdoing
  refine h.unseen (t := t) (p := (x.1.point t).makes) (y := .called b) rfl rfl ?_ ?_ rfl rfl
    (h.count.keep ?_ ?_)
  · cases hat : x.1.point t <;> rw [hat] at hop <;> cases hop <;> exact Monitor.Serves.called _
  · rw [hout]
    cases hat : x.1.point t <;> rw [hat] at hop <;> cases hop <;> rfl
  · intro l hat
    rw [hat] at hop
    cases hop
  · intro l
    cases hat : x.1.point t <;> rw [hat] at hop <;> cases hop <;> rintro ⟨⟩

/-- A call whose return is not one of `sem.c`, and changes nothing. -/
theorem Follows.returned (h : Follows x m) {s : Code T K} (hs : s = x.1.goto t p)
    (hunder : p.under = none) (hseat : p.seat .out = (x.1.point t).seat (x.2.status t))
    (h₀ : ∀ k, x.1.point t ≠ .waitTest k) (hp : ∀ k, p ≠ .waitTest k) :
    Follows (s, x.2.setStatus t .out) m := by
  subst hs
  exact h.unseen (t := t) (p := p) (y := .out) rfl rfl (by rw [hunder]; rfl) hseat rfl rfl
    (h.count.keep h₀ hp)

/-- The last call of `sem_wait` or `sem_signal` has returned. -/
theorem Follows.back (h : Follows x m) {s : Code T K} (hs : s = x.1.goto t .out) {r : Int}
    (hseat : (x.1.point t).seat (x.2.status t) = .back k a r)
    (h₀ : ∀ k, x.1.point t ≠ .waitTest k) :
    ∃ m', Shows Sem.Many.step Sem.Many.label m [.ret t r] m' ∧
      Follows (s, x.2.setStatus t .out) m' := by
  subst hs
  have hplace := h.place t
  have hpc := h.pc k t
  rw [hseat] at hplace hpc
  have hm : Sem.Many.step m (.ret t) = some (m.setPlace t .out) := by
    simp only [Sem.Many.step, hplace, Seat.place]
  have hshow : Shows Sem.Many.step Sem.Many.label m (Sem.Many.label m (.ret t))
      (m.setPlace t .out) := .single _ hm
  rw [show Sem.Many.label m (.ret t) = [.ret t r] by
    simp only [Sem.Many.label, hplace, Seat.place]] at hshow
  refine ⟨_, hshow, h.moved hm (k := k) (z := m.sem k) (p := .out) (y := .out) ?_ rfl ?_ ?_ rfl rfl
    rfl ?_ ?_ ?_⟩
  · rw [Function.update_eq_self]
    rfl
  · rw [show ((Point.out : Point T K).seat .out).pc k = (m.sem k).pc t from hpc.symm,
      Function.update_eq_self]
  · intro l _
    rw [hseat]
    rfl
  · rw [h.owner, Function.update_eq_self]
    rfl
  · rw [h.queue, List.reverse_reverse, Function.update_eq_self]
    rfl
  · rw [Function.update_eq_self (f := fun l => (m.sem l).count)]
    exact h.count.keep h₀ (by rintro l ⟨⟩)

/-- **A call returns.** -/
theorem Follows.ret (h : Follows x m) {r : Monitor.Reply} {s : Code T K}
    (hst : x.2.status t = .done r) (hs : x.1.accept (.ret t (Cond.ret r)) = some s) :
    ∃ m', Shows Sem.Many.step Sem.Many.label m
        ((semaphores T K).shows x.1 (.ret t (Cond.ret r))) m' ∧
      Follows (s, x.2.setStatus t .out) m' := by
  have hdoing := h.doing t
  rw [hst] at hdoing
  have hnext : (∃ b, (x.1.point t).op = some (b, true) ∧ b.Returns r) ∧
      s = x.1.goto t ((x.1.point t).next (Cond.ret r)) := by
    simp only [Code.accept] at hs
    split at hs
    · rename_i b hop
      cases hs
      rw [Point.under, hop] at hdoing
      cases (show Monitor.Serves b (.done r) from hdoing) with
      | done hr => exact ⟨⟨b, hop, hr⟩, rfl⟩
    · cases hs
  obtain ⟨⟨b, hop, hr⟩, hs⟩ := hnext
  simp only [semaphores]
  cases hat : x.1.point t <;> rw [hat] at hop <;> cases hop
  case waitLock k | sigLock k =>
    obtain rfl : r = .done := hr
    exact ⟨m, .refl m, h.returned (hs.trans (by rw [hat])) rfl (by rw [hat, hst]; rfl)
      (by rw [hat]; rintro l ⟨⟩) (by rintro l ⟨⟩)⟩
  case sigCond k =>
    obtain rfl : r = .done := hr
    exact ⟨m, .refl m, h.returned (p := .sigUnlock k false) (hs.trans (by rw [hat]; rfl)) rfl
      (by rw [hat, hst]; rfl) (by rw [hat]; rintro l ⟨⟩) (by rintro l ⟨⟩)⟩
  case intr u =>
    exact ⟨m, .refl m, h.returned (p := .out) (hs.trans (by rw [hat]; rfl)) rfl
      (by rw [hat]; rfl) (by rw [hat]; rintro l ⟨⟩) (by rintro l ⟨⟩)⟩
  case errUnlock k | gotUnlock k | sigUnlock k =>
    exact h.back (hs.trans (by rw [hat]; rfl)) (by rw [hat, hst]; rfl) (by rw [hat]; rintro l ⟨⟩)
  case waitCond k =>
    have hseat : (x.1.point t).seat (x.2.status t) = .inside k .wait (.waitTest (ender r)) := by
      rw [hat, hst]
      rfl
    cases r with
    | refused => exact absurd rfl hr
    | interrupted =>
      exact ⟨m, .refl m, h.returned (p := .waitInc k) (hs.trans (by rw [hat]; rfl)) rfl
        hseat.symm (by rw [hat]; rintro l ⟨⟩) (by rintro l ⟨⟩)⟩
    | done =>
      -- `cond_wait` returned 0: the test of `Timix.Sem`
      have hpc := (h.at_seat hseat).2
      have hrun : Sem.run (m.sem k) t = some ((m.sem k).setPc t .waitGot) := by
        simp only [Sem.run, hpc, ender]
        rfl
      subst hs
      refine h.go (p := .gotUnlock k false) (y := .out) hseat hrun rfl (by simp) rfl ?_ rfl rfl ?_
        ?_ ?_
      · rw [hat]
        rfl
      · rw [show ((m.sem k).setPc t .waitGot).lock = x.2.owner k from h.owner k,
          Function.update_eq_self]
        rfl
      · rw [show ((m.sem k).setPc t .waitGot).queue = (x.2.queue k).reverse from h.queue k,
          List.reverse_reverse, Function.update_eq_self]
        rfl
      · show Counts x.1.count (Function.update x.1.point t _)
          (Function.update (fun l => (m.sem l).count) k (m.sem k).count)
        rw [Function.update_eq_self (f := fun l => (m.sem l).count), hat]
        exact h.count.keep (by rw [hat]; rintro l ⟨⟩) (by rintro l ⟨⟩)

/-! ## The effects -/

omit [DecidableEq T] [DecidableEq K] in
theorem Point.op_of_under {b : Monitor.Op T K K} (h : p.under = some b) :
    p.op = some (b, true) := by
  unfold Point.under at h
  split at h
  · cases h
    assumption
  · cases h

section Points

omit [DecidableEq T] [DecidableEq K]

variable {b : Bool}

theorem Point.of_lock (h : p.op = some (.lock k, b)) : p = .waitLock k b ∨ p = .sigLock k b := by
  cases p <;> cases h
  · exact Or.inl rfl
  · exact Or.inr rfl

theorem Point.of_unlock (h : p.op = some (.unlock k, b)) :
    p = .errUnlock k b ∨ p = .gotUnlock k b ∨ p = .sigUnlock k b := by
  cases p <;> cases h
  · exact Or.inl rfl
  · exact Or.inr (Or.inl rfl)
  · exact Or.inr (Or.inr rfl)

theorem Point.of_wait {cv mp : K} {i : Bool} (h : p.op = some (.wait cv mp i, b)) :
    p = .waitCond cv b ∧ mp = cv ∧ i = true := by
  cases p <;> cases h
  exact ⟨rfl, rfl, rfl⟩

theorem Point.of_signal (h : p.op = some (.signal k, b)) : p = .sigCond k b := by
  cases p <;> cases h
  rfl

theorem Point.of_interrupt (h : p.op = some (.interrupt u, b)) : p = .intr u b := by
  cases p <;> cases h
  rfl

end Points

omit [DecidableEq T] in
/-- Who waits at the monitor is asleep in a `sem_wait`. -/
theorem Follows.waits (h : Follows x m) {cv mp : K} {i : Bool}
    (hu : x.2.status u = .waiting cv mp i) :
    x.1.point u = .waitCond cv true ∧ mp = cv ∧ i = true := by
  have hdoing := h.doing u
  rw [hu] at hdoing
  cases hunder : (x.1.point u).under with
  | none =>
    rw [hunder] at hdoing
    cases hdoing
  | some b =>
    rw [hunder] at hdoing
    cases (show Monitor.Serves b (.waiting cv mp i) from hdoing)
    exact Point.of_wait (Point.op_of_under hunder)

omit [DecidableEq T] in
/-- Who is asleep waits at the monitor. -/
theorem Follows.of_asleep (h : Follows x m) (hu : (m.sem k).pc u = .asleep) :
    x.1.point u = .waitCond k true ∧ x.2.status u = .waiting k k true := by
  have hpc := (h.pc k u).symm.trans hu
  have hst : ∃ cv mp i, x.2.status u = .waiting cv mp i := by
    cases hst : x.2.status u with
    | waiting cv mp i => exact ⟨cv, mp, i, rfl⟩
    | _ =>
      cases hat : x.1.point u <;> rw [hat, hst] at hpc <;>
        simp only [Point.seat, Seat.pc, reduceCtorEq] at hpc <;> split at hpc <;> cases hpc
  obtain ⟨cv, mp, i, hst⟩ := hst
  obtain ⟨hat, rfl, rfl⟩ := h.waits hst
  rw [hat, hst] at hpc
  by_cases hk : mp = k
  · subst hk
    exact ⟨hat, hst⟩
  · cases (if_neg hk).symm.trans hpc

/-- Thread `t` wakes `u`, which is asleep at `k`, and goes on at `y`. -/
theorem Follows.wakes (h : Follows x m) {m₂ : Monitor.State T K K} {r : Monitor.Reply}
    (hmany : ManyInv m') (hu : x.2.status u = .waiting k k true) (htu : t ≠ u)
    (hdoing : ∀ v, Monitor.Doing (x.1.point v).under (m₂.status v))
    (hstatus : m₂.status =
      Function.update (Function.update x.2.status u (.woken k r)) t y)
    (howner : m₂.owner = x.2.owner)
    (hqueue : m₂.queue = Function.update x.2.queue k z.queue.reverse)
    (hsem : m'.sem = Function.update m.sem k z) (hplace : m'.place = m.place)
    (hseat : ((x.1.point t).seat y).place = m.place t)
    (hother : ∀ l, l ≠ k → ((x.1.point t).seat y).pc l = (m.sem l).pc t)
    (hpc : z.pc = Function.update (Function.update (m.sem k).pc u (.woken (ender r))) t
      (((x.1.point t).seat y).pc k))
    (hlock : z.lock = (m.sem k).lock) (hcount : z.count = (m.sem k).count) :
    Follows (x.1, m₂) m' := by
  obtain ⟨hat, -, -⟩ := h.waits hu
  have hseat₀ : (x.1.point u).seat (x.2.status u) = .inside k .wait .asleep := by
    rw [hat, hu]
    rfl
  have hseat₁ : (x.1.point u).seat (.woken k r) = .inside k .wait (.woken (ender r)) := by
    rw [hat]
    rfl
  -- the seats of the two threads, and of the others
  have hcases : ∀ v, v = t ∨ v = u ∧ m₂.status v = .woken k r ∨
      v ≠ t ∧ v ≠ u ∧ m₂.status v = x.2.status v := by
    intro v
    rw [hstatus]
    by_cases hvt : v = t
    · exact Or.inl hvt
    · rw [Function.update_of_ne hvt]
      by_cases hvu : v = u
      · subst hvu
        exact Or.inr (Or.inl ⟨rfl, Function.update_self ..⟩)
      · exact Or.inr (Or.inr ⟨hvt, hvu, Function.update_of_ne hvu ..⟩)
  have hty : m₂.status t = y := by rw [hstatus, Function.update_self]
  refine ⟨hmany, hdoing, ?_, ?_, ?_, ?_, ?_⟩
  · intro v
    rw [hplace]
    rcases hcases v with rfl | ⟨rfl, hv⟩ | ⟨-, -, hv⟩
    · rw [hty, hseat]
    · rw [hv, hseat₁, h.place, hseat₀]
      rfl
    · rw [hv]
      exact h.place v
  · intro l v
    rw [hsem]
    by_cases hl : l = k
    · subst hl
      rw [Function.update_self, hpc]
      rcases hcases v with rfl | ⟨rfl, hv⟩ | ⟨hvt, hvu, hv⟩
      · rw [Function.update_self, hty]
      · rw [Function.update_of_ne htu.symm, Function.update_self, hv, hseat₁]
        exact (if_pos rfl).symm
      · rw [Function.update_of_ne hvt, Function.update_of_ne hvu, hv]
        exact h.pc l v
    · rw [Function.update_of_ne hl]
      rcases hcases v with rfl | ⟨rfl, hv⟩ | ⟨-, -, hv⟩
      · rw [hty, hother l hl]
      · rw [hv, hseat₁, h.pc, hseat₀, Seat.pc, Seat.pc, if_neg (Ne.symm hl), if_neg (Ne.symm hl)]
      · rw [hv]
        exact h.pc l v
  · intro l
    rw [hsem, howner]
    by_cases hl : l = k
    · subst hl
      rw [Function.update_self, hlock]
      exact h.owner l
    · rw [Function.update_of_ne hl]
      exact h.owner l
  · intro l
    rw [hsem, hqueue]
    by_cases hl : l = k
    · subst hl
      simp only [Function.update_self, List.reverse_reverse]
    · simpa only [Function.update_of_ne hl] using h.queue l
  · have hv : (fun l => (m'.sem l).count) = fun l => (m.sem l).count := by
      funext l
      rw [hsem]
      by_cases hl : l = k
      · rw [hl, Function.update_self, hcount]
      · rw [Function.update_of_ne hl]
    rw [hv]
    exact h.count

/-- The queues run in opposite directions. -/
theorem erase_reverse {l : List T} (hl : l.Nodup) (u : T) :
    (l.reverse.erase u).reverse = l.erase u := by
  rw [(List.nodup_reverse.2 hl).erase_eq_filter, hl.erase_eq_filter, List.filter_reverse,
    List.reverse_reverse]

section Effect

variable {m₂ : Monitor.State T K K} {p₀ p₁ : Sem.Pc T}

/-- What the call of a thread leaves as it is. -/
theorem Follows.idle_code (h : Follows x m) (hm : Monitor.effect x.2 t = some m₂)
    (hstatus : m₂.status = Function.update x.2.status t y) (hcount : z.count = (m.sem k).count) :
    x.1.point = Function.update x.1.point t (x.1.point t) ∧
      Monitor.Doing (x.1.point t).under y ∧
      Counts x.1.count x.1.point (Function.update (fun l => (m.sem l).count) k z.count) := by
  refine ⟨by rw [Function.update_eq_self], ?_, ?_⟩
  · have hdoing := Monitor.doing_effect h.doing hm t
    rwa [hstatus, Function.update_self] at hdoing
  · rw [hcount, Function.update_eq_self (f := fun l => (m.sem l).count)]
    exact h.count

/-- An effect that is a step inside a call. -/
theorem Follows.effect_go (h : Follows x m) (hm : Monitor.effect x.2 t = some m₂)
    (hs₀ : (x.1.point t).seat (x.2.status t) = .inside k a p₀) (hrun : Sem.run (m.sem k) t = some z)
    (hz : z.pc = Function.update (m.sem k).pc t p₁) (hne : p₁ ≠ .idle)
    (hseat : (x.1.point t).seat y = .inside k a p₁)
    (hstatus : m₂.status = Function.update x.2.status t y)
    (howner : m₂.owner = Function.update x.2.owner k z.lock)
    (hqueue : m₂.queue = Function.update x.2.queue k z.queue.reverse)
    (hcount : z.count = (m.sem k).count) :
    ∃ m', Shows Sem.Many.step Sem.Many.label m [] m' ∧ Follows (x.1, m₂) m' := by
  obtain ⟨hpoint, hdoing, hcounts⟩ := h.idle_code hm hstatus hcount
  exact h.go hs₀ hrun hz hne hseat hpoint hstatus hdoing howner hqueue hcounts

/-- An effect that is the last step of a call. -/
theorem Follows.effect_through (h : Follows x m) (hm : Monitor.effect x.2 t = some m₂)
    (hs₀ : (x.1.point t).seat (x.2.status t) = .inside k a p₀) (hrun : Sem.run (m.sem k) t = some z)
    (hz : z.pc = Function.update (m.sem k).pc t .idle)
    (hseat : (x.1.point t).seat y = .back k a (Sem.Many.result p₀))
    (hstatus : m₂.status = Function.update x.2.status t y)
    (howner : m₂.owner = Function.update x.2.owner k z.lock)
    (hqueue : m₂.queue = Function.update x.2.queue k z.queue.reverse)
    (hcount : z.count = (m.sem k).count) :
    ∃ m', Shows Sem.Many.step Sem.Many.label m [] m' ∧ Follows (x.1, m₂) m' := by
  obtain ⟨hpoint, hdoing, hcounts⟩ := h.idle_code hm hstatus hcount
  exact h.through hs₀ hrun hz hseat hpoint hstatus hdoing howner hqueue hcounts

omit [DecidableEq T] in
/-- The queue is left alone. -/
theorem Follows.same_queue (h : Follows x m) (hz : z.queue = (m.sem k).queue) :
    x.2.queue = Function.update x.2.queue k z.queue.reverse := by
  rw [hz, h.queue, List.reverse_reverse, Function.update_eq_self]

omit [DecidableEq T] in
theorem Follows.same_owner (h : Follows x m) (hz : z.lock = (m.sem k).lock) :
    x.2.owner = Function.update x.2.owner k z.lock := by
  rw [hz, h.owner, Function.update_eq_self]

end Effect

omit [DecidableEq T] in
/-- The program point of a call under way. -/
theorem Follows.op_called (h : Follows x m) {b : Monitor.Op T K K}
    (ht : x.2.status t = .called b) : (x.1.point t).op = some (b, true) := by
  have hdoing := h.doing t
  rw [ht] at hdoing
  exact Point.op_of_under hdoing.called

section Effects

variable {m₂ : Monitor.State T K K}

/-- `mutex_lock` takes the mutex. -/
theorem Follows.effect_lock (h : Follows x m) (ht : x.2.status t = .called (.lock k))
    (hfree : x.2.owner k = none)
    (hm : Monitor.effect x.2 t = some ((x.2.setOwner k (some t)).setStatus t (.done .done))) :
    ∃ m', Shows Sem.Many.step Sem.Many.label m [] m' ∧
      Follows (x.1, (x.2.setOwner k (some t)).setStatus t (.done .done)) m' := by
  have hlock : (m.sem k).lock = none := (h.owner k).trans hfree
  rcases Point.of_lock (h.op_called ht) with hat | hat
  · have hs₀ : (x.1.point t).seat (x.2.status t) = .inside k .wait .waitLock := by
      rw [hat, ht]
      rfl
    have hrun : Sem.run (m.sem k) t = some ({ m.sem k with lock := some t }.setPc t .waitDec) := by
      simp only [Sem.run, (h.at_seat hs₀).2, if_pos hlock]
    exact h.effect_go hm hs₀ hrun rfl (by simp) (by rw [hat]; rfl) rfl rfl (h.same_queue rfl) rfl
  · have hs₀ : (x.1.point t).seat (x.2.status t) = .inside k .signal .sigLock := by
      rw [hat, ht]
      rfl
    have hrun : Sem.run (m.sem k) t = some ({ m.sem k with lock := some t }.setPc t .sigInc) := by
      simp only [Sem.run, (h.at_seat hs₀).2, if_pos hlock]
    exact h.effect_go hm hs₀ hrun rfl (by simp) (by rw [hat]; rfl) rfl rfl (h.same_queue rfl) rfl

/-- `mutex_unlock`, the last call of `sem_wait` and of `sem_signal`. -/
theorem Follows.effect_unlock (h : Follows x m) (ht : x.2.status t = .called (.unlock k))
    (hm : Monitor.effect x.2 t = some ((x.2.setOwner k none).setStatus t (.done .done))) :
    ∃ m', Shows Sem.Many.step Sem.Many.label m [] m' ∧
      Follows (x.1, (x.2.setOwner k none).setStatus t (.done .done)) m' := by
  rcases Point.of_unlock (h.op_called ht) with hat | hat | hat
  · have hs₀ : (x.1.point t).seat (x.2.status t) = .inside k .wait .waitErr := by
      rw [hat, ht]
      rfl
    have hrun : Sem.run (m.sem k) t = some ({ m.sem k with
        lock := none
        rets := (m.sem k).rets ++ [(t, -EINTR)] }.setPc t .idle) := by
      simp only [Sem.run, (h.at_seat hs₀).2]
    exact h.effect_through hm hs₀ hrun rfl (by rw [hat]; rfl) rfl rfl (h.same_queue rfl) rfl
  · have hs₀ : (x.1.point t).seat (x.2.status t) = .inside k .wait .waitGot := by
      rw [hat, ht]
      rfl
    have hrun : Sem.run (m.sem k) t = some ({ m.sem k with
        lock := none
        rets := (m.sem k).rets ++ [(t, 0)] }.setPc t .idle) := by
      simp only [Sem.run, (h.at_seat hs₀).2]
    exact h.effect_through hm hs₀ hrun rfl (by rw [hat]; rfl) rfl rfl (h.same_queue rfl) rfl
  · have hs₀ : (x.1.point t).seat (x.2.status t) = .inside k .signal .sigUnlock := by
      rw [hat, ht]
      rfl
    have hrun : Sem.run (m.sem k) t = some ({ m.sem k with lock := none }.setPc t .idle) := by
      simp only [Sem.run, (h.at_seat hs₀).2]
    exact h.effect_through hm hs₀ hrun rfl (by rw [hat]; rfl) rfl rfl (h.same_queue rfl) rfl

/-- `cond_wait` gives up the mutex and joins the queue. -/
theorem Follows.effect_wait (h : Follows x m) {mp : K} {i : Bool}
    (ht : x.2.status t = .called (.wait k mp i))
    (hm : Monitor.effect x.2 t = some (((x.2.setOwner mp none).setQueue k
      (x.2.queue k ++ [t])).setStatus t (.waiting k mp i))) :
    ∃ m', Shows Sem.Many.step Sem.Many.label m [] m' ∧
      Follows (x.1, ((x.2.setOwner mp none).setQueue k
        (x.2.queue k ++ [t])).setStatus t (.waiting k mp i)) m' := by
  obtain ⟨hat, rfl, rfl⟩ := Point.of_wait (h.op_called ht)
  have hs₀ : (x.1.point t).seat (x.2.status t) = .inside mp .wait .waitSleep := by
    rw [hat, ht]
    rfl
  have hrun : Sem.run (m.sem mp) t = some ({ m.sem mp with
      queue := t :: (m.sem mp).queue
      lock := none }.setPc t .asleep) := by
    simp only [Sem.run, (h.at_seat hs₀).2]
  refine h.effect_go hm hs₀ hrun rfl (by simp) (by rw [hat]; rfl) rfl rfl ?_ rfl
  show Function.update x.2.queue mp (x.2.queue mp ++ [t]) =
    Function.update x.2.queue mp (t :: (m.sem mp).queue).reverse
  rw [h.queue, List.reverse_cons, List.reverse_reverse]

/-- `cond_signal` finds nobody. -/
theorem Follows.effect_nobody (h : Follows x m) (ht : x.2.status t = .called (.signal k))
    (hq : x.2.queue k = [])
    (hm : Monitor.effect x.2 t = some (x.2.setStatus t (.done .done))) :
    ∃ m', Shows Sem.Many.step Sem.Many.label m [] m' ∧
      Follows (x.1, x.2.setStatus t (.done .done)) m' := by
  have hat := Point.of_signal (h.op_called ht)
  have hs₀ : (x.1.point t).seat (x.2.status t) = .inside k .signal .sigCond := by
    rw [hat, ht]
    rfl
  have hempty : (m.sem k).queue.getLast? = none := by
    rw [h.queue, hq]
    rfl
  have hrun : Sem.run (m.sem k) t = some ((m.sem k).setPc t .sigUnlock) := by
    simp only [Sem.run, (h.at_seat hs₀).2, hempty]
  exact h.effect_go hm hs₀ hrun rfl (by simp) (by rw [hat]; rfl) rfl (h.same_owner rfl)
    (h.same_queue rfl) rfl

/-- `cond_signal` wakes the oldest. -/
theorem Follows.effect_signal (h : Follows x m) {q : List T}
    (ht : x.2.status t = .called (.signal k)) (hq : x.2.queue k = u :: q)
    (hm : Monitor.effect x.2 t = some (((x.2.setQueue k q).setStatus u
      ((x.2.status u).wake .done)).setStatus t (.done .done))) :
    ∃ m', Shows Sem.Many.step Sem.Many.label m [] m' ∧
      Follows (x.1, ((x.2.setQueue k q).setStatus u
        ((x.2.status u).wake .done)).setStatus t (.done .done)) m' := by
  have hat := Point.of_signal (h.op_called ht)
  have hs₀ : (x.1.point t).seat (x.2.status t) = .inside k .signal .sigCond := by
    rw [hat, ht]
    rfl
  obtain ⟨hplace, hpc⟩ := h.at_seat hs₀
  have hqueue : (m.sem k).queue = q.reverse ++ [u] := by rw [h.queue, hq, List.reverse_cons]
  have hasleep : (m.sem k).pc u = .asleep :=
    ((h.many.sem k).queue.mem u).1 (by rw [hqueue]; simp)
  have hu := (h.of_asleep hasleep).2
  have htu : t ≠ u := by
    rintro rfl
    rw [ht] at hu
    cases hu
  have hrun : Sem.run (m.sem k) t = some
      (({ m.sem k with queue := q.reverse }.setPc u (.woken .signal)).setPc t .sigUnlock) := by
    simp only [Sem.run, hpc, hqueue, List.getLast?_concat, List.dropLast_concat]
  have hstep : Sem.Many.step m (.run t) = some (m.setSem k
      (({ m.sem k with queue := q.reverse }.setPc u (.woken .signal)).setPc t .sigUnlock)) := by
    simp only [Sem.Many.step, hplace, hrun]
    rw [if_neg (by simp [Sem.State.setPc])]
  have hseat : (x.1.point t).seat (.done .done) = .inside k .signal .sigUnlock := by
    rw [hat]
    rfl
  refine ⟨_, .single (Sem.Many.Event.run t) hstep, h.wakes (r := .done) (y := .done .done)
    (h.many.step hstep) hu htu (Monitor.doing_effect h.doing hm) ?_ rfl ?_ rfl rfl ?_ ?_ ?_ rfl rfl⟩
  · rw [hu]
    rfl
  · show Function.update x.2.queue k q = Function.update x.2.queue k q.reverse.reverse
    rw [List.reverse_reverse]
  · rw [hseat, hplace]
    rfl
  · intro l hl
    rw [hseat, h.pc, hs₀]
    exact (if_neg (Ne.symm hl)).trans (if_neg (Ne.symm hl)).symm
  · rw [hseat, Seat.pc, if_pos rfl]
    rfl

/-- `cond_interrupt` of a thread that waits: `Timix.Sem` takes it out of the queue in one step and
    unblocks it in another. -/
theorem Follows.effect_interrupt (h : Follows x m) {mp : K}
    (ht : x.2.status t = .called (.interrupt u)) (hu : x.2.status u = .waiting k mp true)
    (hm : Monitor.effect x.2 t = some (((x.2.setQueue k ((x.2.queue k).erase u)).setStatus u
      (.woken mp .interrupted)).setStatus t (.done .done))) :
    ∃ m', Shows Sem.Many.step Sem.Many.label m [] m' ∧
      Follows (x.1, ((x.2.setQueue k ((x.2.queue k).erase u)).setStatus u
        (.woken mp .interrupted)).setStatus t (.done .done)) m' := by
  have hat := Point.of_interrupt (h.op_called ht)
  obtain ⟨hatu, rfl, -⟩ := h.waits hu
  have hseat : ∀ y : Monitor.Status T K K, (x.1.point t).seat y = .out := by
    intro y
    rw [hat]
    rfl
  have hplace : m.place t = .out := (h.place t).trans (congrArg Seat.place (hseat _))
  have hidle : ∀ l, (m.sem l).pc t = .idle :=
    fun l => (h.pc l t).trans (congrArg (Seat.pc l) (hseat _))
  have hseatu : (x.1.point u).seat (x.2.status u) = .inside mp .wait .asleep := by
    rw [hatu, hu]
    rfl
  obtain ⟨hplaceu, hasleep⟩ := h.at_seat hseatu
  have htu : t ≠ u := by
    rintro rfl
    rw [ht] at hu
    cases hu
  have hnodup : (x.2.queue mp).Nodup := by
    rw [← List.nodup_reverse, ← h.queue]
    exact (h.many.sem mp).queue.nodup
  obtain ⟨z₁, hz₁⟩ : ∃ z, z = ({ m.sem mp with queue := (m.sem mp).queue.erase u }.setPc u
    .taken).setPc t (.intrWake u) := ⟨_, rfl⟩
  have htake : Sem.step (m.sem mp) (.interrupt t u) = some z₁ := by
    rw [hz₁]
    simp only [Sem.step, if_pos (hidle mp), if_pos hasleep]
  have hpc₁ : z₁.pc t = .intrWake u := by
    rw [hz₁]
    exact Function.update_self ..
  have hstep₁ : Sem.Many.step m (.interrupt t u) =
      some ((m.setSem mp z₁).setPlace t (.interrupting mp)) := by
    simp only [Sem.Many.step, hplace, Sem.Many.interrupt, hplaceu, htake]
    rw [if_neg (by rw [hpc₁]; simp)]
  have hrun : Sem.run z₁ t = some ((z₁.setPc u (.woken .interrupt)).setPc t .idle) := by
    simp only [Sem.run, hpc₁]
  have hstep₂ : Sem.Many.step ((m.setSem mp z₁).setPlace t (.interrupting mp)) (.run t) =
      some ((((m.setSem mp z₁).setPlace t (.interrupting mp)).setSem mp
        ((z₁.setPc u (.woken .interrupt)).setPc t .idle)).setPlace t .out) := by
    simp only [Sem.Many.step, Sem.Many.State.setPlace, Sem.Many.State.setSem,
      Function.update_self, hrun]
  refine ⟨_, (Shows.single (Sem.Many.Event.interrupt t u) hstep₁).trans
    (.single (Sem.Many.Event.run t) hstep₂), h.wakes (r := .interrupted) (y := .done .done)
    (z := (z₁.setPc u (.woken .interrupt)).setPc t .idle)
    ((h.many.step hstep₁).step hstep₂) hu htu (Monitor.doing_effect h.doing hm) rfl rfl
    ?_ ?_ ?_ ?_ ?_ ?_ ?_ ?_⟩
  · rw [hz₁]
    show Function.update x.2.queue mp ((x.2.queue mp).erase u) =
      Function.update x.2.queue mp ((m.sem mp).queue.erase u).reverse
    rw [h.queue, erase_reverse hnodup]
  · exact Function.update_idem ..
  · show Function.update (Function.update m.place t _) t _ = m.place
    rw [Function.update_idem, ← hplace, Function.update_eq_self]
  · rw [hseat, hplace]
    rfl
  · intro l _
    rw [hseat, hidle]
    rfl
  · rw [hseat, hz₁]
    show Function.update (Function.update (Function.update (Function.update (m.sem mp).pc u
      .taken) t (.intrWake u)) u (.woken .interrupt)) t .idle = _
    rw [Function.update_comm htu.symm, Function.update_idem, Function.update_comm htu,
      Function.update_idem]
    rfl
  · rw [hz₁]
    rfl
  · rw [hz₁]
    rfl

/-- `cond_interrupt` of a thread that does not wait. -/
theorem Follows.effect_refuse (h : Follows x m) (ht : x.2.status t = .called (.interrupt u))
    (hm : Monitor.effect x.2 t = some (x.2.setStatus t (.done .refused))) :
    Follows (x.1, x.2.setStatus t (.done .refused)) m := by
  have hat := Point.of_interrupt (h.op_called ht)
  refine h.unseen (t := t) (p := x.1.point t) (y := .done .refused) ?_ rfl ?_ ?_ rfl rfl h.count
  · rw [Function.update_eq_self]
  · simpa only [Monitor.State.setStatus, Function.update_self] using
      Monitor.doing_effect h.doing hm t
  · rw [hat]
    rfl

/-- A woken thread takes the mutex back. -/
theorem Follows.effect_relock (h : Follows x m) {r : Monitor.Reply}
    (ht : x.2.status t = .woken k r) (hfree : x.2.owner k = none)
    (hm : Monitor.effect x.2 t = some ((x.2.setOwner k (some t)).setStatus t (.done r))) :
    ∃ m', Shows Sem.Many.step Sem.Many.label m [] m' ∧
      Follows (x.1, (x.2.setOwner k (some t)).setStatus t (.done r)) m' := by
  have hdoing := h.doing t
  rw [ht] at hdoing
  obtain ⟨-, cv, i, hunder⟩ := hdoing.woken
  obtain ⟨hat, rfl, rfl⟩ := Point.of_wait (Point.op_of_under hunder)
  have hlock : (m.sem k).lock = none := (h.owner k).trans hfree
  have hs₀ : (x.1.point t).seat (x.2.status t) = .inside k .wait (.woken (ender r)) := by
    rw [hat, ht]
    rfl
  have hrun : Sem.run (m.sem k) t =
      some ({ m.sem k with lock := some t }.setPc t (.waitTest (ender r))) := by
    simp only [Sem.run, (h.at_seat hs₀).2, if_pos hlock]
  exact h.effect_go hm hs₀ hrun rfl (by simp) (by rw [hat]; rfl) rfl rfl (h.same_queue rfl) rfl

/-- **An effect at the monitor.** -/
theorem Follows.effect (h : Follows x m) (hm : Monitor.effect x.2 t = some m₂) :
    ∃ m', Shows Sem.Many.step Sem.Many.label m [] m' ∧ Follows (x.1, m₂) m' := by
  have hm₀ := hm
  cases Monitor.effect_cases hm with
  | lock ht hfree => exact h.effect_lock ht hfree hm₀
  | unlock ht => exact h.effect_unlock ht hm₀
  | wait ht => exact h.effect_wait ht hm₀
  | nobody ht hq => exact h.effect_nobody ht hq hm₀
  | signal ht hq => exact h.effect_signal ht hq hm₀
  | broadcast ht =>
    -- `sem.c` has no `cond_broadcast`
    have hop := h.op_called ht
    cases hat : x.1.point t <;> rw [hat] at hop <;> cases hop
  | interrupt ht hu => exact h.effect_interrupt ht hu hm₀
  | refuse ht => exact ⟨m, .refl m, h.effect_refuse ht hm₀⟩
  | relock ht hfree => exact h.effect_relock ht hfree hm₀

end Effects

/-! ## `sem.c` over the monitor, and over `cond.c` -/

omit [DecidableEq T] in
theorem follows_start (n : K → Int32) :
    Follows ((codeStart n, Monitor.initial) : Code T K × Monitor.State T K K)
      (Sem.Many.initial n) where
  many := Sem.Many.manyInv_initial n
  doing _ := rfl
  place _ := rfl
  pc _ _ := rfl
  owner _ := rfl
  queue _ := rfl
  count := ⟨fun _ _ => rfl, fun _ _ h => by cases h⟩

/-- **Over the monitor `sem.c` is `Timix.Sem.Many`.** -/
theorem simulates :
    Simulates ((semaphores T K).over Monitor.step Cond.monitorLabel)
      ((semaphores T K).overLabel Cond.monitorLabel) (fun _ => True)
      Sem.Many.step Sem.Many.label Follows := by
  rintro ⟨s, o⟩ (e | d) ⟨s', o'⟩ m h - hs
  · obtain ⟨hstep, rfl⟩ := over_inl.1 hs
    exact h.own hstep
  obtain ⟨ho, htake⟩ := over_inr.1 hs
  cases d with
  | call t b =>
    have hlabel : Cond.monitorLabel o (.call t b) = [.call t b] := rfl
    rw [hlabel] at htake
    obtain ⟨htake, htrace⟩ := exec_single (semaphores T K).shows htake
    simp only [Monitor.step] at ho
    split at ho
    case isFalse => cases ho
    cases ho
    refine ⟨m, ?_, h.call htake⟩
    simp only [Client.overLabel]
    rw [hlabel, htrace]
    exact .refl m
  | effect t =>
    obtain rfl : s = s' := Option.some.inj htake
    exact h.effect ho
  | ret t =>
    simp only [Monitor.step] at ho
    split at ho
    case h_2 => cases ho
    rename_i r hst
    cases ho
    have hlabel : Cond.monitorLabel o (.ret t) = [.ret t (Cond.ret r)] := by
      simp only [Cond.monitorLabel, Monitor.label, hst]
      rfl
    rw [hlabel] at htake
    obtain ⟨htake, htrace⟩ := exec_single (semaphores T K).shows htake
    simp only [Client.overLabel]
    rw [hlabel, htrace]
    exact h.ret hst htake

/-- The steps of `sem.c` and those of `cond.c`. -/
def codeStep : Code T K × Cond.State T K K → Event T K ⊕ Cond.Event T K K →
    Option (Code T K × Cond.State T K K) :=
  (semaphores T K).over Cond.step Cond.label

def codeLabel : Code T K × Cond.State T K K → Event T K ⊕ Cond.Event T K K →
    List (Act T (K × Op) Int) :=
  (semaphores T K).overLabel Cond.label

/-- Beside `Timix.Sem.Many`, by way of a monitor. -/
def Above (x : Code T K × Cond.State T K K) (m : Sem.Many.State T K) : Prop :=
  ∃ o, Cond.Beside x.2 o ∧ Follows (x.1, o) m

theorem above_start (n : K → Int32) :
    Above ((codeStart n, Cond.initial) : Code T K × Cond.State T K K) (Sem.Many.initial n) :=
  ⟨Monitor.initial, Cond.beside_initial, follows_start n⟩

theorem code_simulates :
    Simulates (codeStep (T := T) (K := K)) codeLabel
      (fun e => ∀ d, e = .inr d → ∀ t, d ≠ .eintr t) Sem.Many.step Sem.Many.label Above := by
  intro x e x' m h he hs
  obtain ⟨o, hb, hf⟩ := h
  obtain ⟨m', hshow, ⟨c, o'⟩, ⟨rfl, hb'⟩, hf'⟩ :=
    (Cond.simulates.over (semaphores T K)).trans simulates x e x' m
      ⟨(x.1, o), ⟨rfl, hb⟩, hf⟩ he hs
  exact ⟨m', hshow, o', hb', hf'⟩

/-- **The semaphores over the code of `cond.c`.**  Whatever the interleaving of the steps of
`sem.c` with those of `cond.c`, if no sleep fails: some run in which every operation on a mutex or
a condition variable takes one step, or two, shows the same calls and results; at its end the
mutexes have the same owners, `sem_count` is the same at every semaphore where nobody is between
`sem->sem_count--` and its test, and the wait queues whose lock is free hold the threads that are
asleep at the semaphore, in its order. -/
theorem sem_over_cond (n : K → Int32) {es : List (Event T K ⊕ Cond.Event T K K)}
    {x : Code T K × Cond.State T K K} (hes : ∀ e ∈ es, ∀ t, e ≠ .inr (.eintr t))
    (h : exec codeStep (codeStart n, Cond.initial) es = some x) :
    ∃ (fs : List (Sem.Many.Event T K)) (m : Sem.Many.State T K),
      exec Sem.Many.step (Sem.Many.initial n) fs = some m ∧
      trace Sem.Many.step Sem.Many.label (Sem.Many.initial n) fs =
        trace codeStep codeLabel (codeStart n, Cond.initial) es ∧
      (∀ k, (m.sem k).lock = x.2.mutexes k) ∧
      (∀ k, (∀ t, x.1.point t ≠ .waitTest k) → (m.sem k).count = x.1.count k) ∧
      (∀ t, x.1.point t = .out → m.place t = .out) ∧
      ∀ k, x.2.qLock k = none → Cond.IsQueue x.2 k (m.sem k).queue := by
  have hok : ∀ e ∈ es, ∀ d, e = .inr d → ∀ t, d ≠ .eintr t := by
    rintro e he d rfl t rfl
    exact hes _ he t rfl
  obtain ⟨m, ⟨fs, hfs, htrace⟩, o, hb, hf⟩ :=
    code_simulates.refines (above_start n) hok h
  refine ⟨fs, m, hfs, htrace, fun k => ?_, hf.count.level, fun t ht => ?_, fun k hk => ?_⟩
  · rw [hf.owner, hb.owner]
  · rw [hf.place, ht]
    rfl
  · rw [hf.queue]
    exact hb.queue hk

end Follows

/-- Thread `u` goes to sleep in `sem_wait`, thread `t` interrupts it, and `sem_wait` returns. -/
def turnedAway (t u : T) (k : K) : List (Event T K ⊕ Cond.Event T K K) :=
  [.inl (.call u k .wait), .inr (.call u (.mutexLock k)), .inr (.run u), .inl (.run u),
    .inl (.run u), .inr (.call u (.condWait k k))] ++
  List.replicate 7 (.inr (.run u)) ++
  [.inl (.interrupt t u), .inr (.call t (.condInterrupt u))] ++
  List.replicate 5 (.inr (.run t)) ++ List.replicate 5 (.inr (.run u)) ++
  [.inl (.run u), .inr (.call u (.mutexUnlock k))]

theorem turnedAway_over_cond : ∃ x : Code (Fin 2) (Fin 1) × Cond.State (Fin 2) (Fin 1) (Fin 1),
    exec codeStep (codeStart fun _ => 0, Cond.initial) (turnedAway 0 1 0) = some x ∧
    trace codeStep codeLabel (codeStart fun _ => 0, Cond.initial)
      (turnedAway (0 : Fin 2) 1 (0 : Fin 1)) = [.call 1 (0, .wait), .ret 1 (-EINTR)] ∧
    ∃ (fs : List (Sem.Many.Event (Fin 2) (Fin 1))) (m : Sem.Many.State (Fin 2) (Fin 1)),
      exec Sem.Many.step (Sem.Many.initial fun _ => 0) fs = some m ∧
      trace Sem.Many.step Sem.Many.label (Sem.Many.initial fun _ => 0) fs =
        trace codeStep codeLabel (codeStart fun _ => 0, Cond.initial)
          (turnedAway (0 : Fin 2) 1 (0 : Fin 1)) ∧
      (∀ k, (m.sem k).lock = x.2.mutexes k) ∧
      (∀ k, (∀ t, x.1.point t ≠ .waitTest k) → (m.sem k).count = x.1.count k) ∧
      (∀ t, x.1.point t = .out → m.place t = .out) ∧
      ∀ k, x.2.qLock k = none → Cond.IsQueue x.2 k (m.sem k).queue := by
  have hes : ∀ e ∈ turnedAway (0 : Fin 2) 1 (0 : Fin 1), ∀ t, e ≠ .inr (.eintr t) := by
    decide
  exact ⟨_, rfl, rfl, sem_over_cond (fun _ => 0) hes rfl⟩

end Timix.SemCond
