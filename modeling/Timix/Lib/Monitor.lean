import Mathlib.Logic.Function.Basic
import Timix.Lib.Linear

/-!
# Monitors

Mutexes and condition variables as their clients see them.  An operation takes effect at one instant
between its call and its return; a wait takes effect twice: it gives up the mutex and joins the end
of the queue at one instant, and it takes the mutex back at another, after some operation has woken
it.

* `Op`, `Reply` — the operations and what they return.
* `Status` — how far a thread has got with its operation.
* `Event`, `step` — a call, an effect (`effect`), a return.
* `label` — what a client sees: calls and returns.
* `Effect` — what an effect does, case by case; `effect_cases` inverts `effect`.
* `Doing` — how far a thread can have got with the operation its client has called, `doing_effect`.
-/

set_option autoImplicit false

namespace Monitor

variable {T C M : Type}

/-- The operations; a wait says whether it may be interrupted. -/
inductive Op (T C M : Type) where
  | lock (mp : M)
  | unlock (mp : M)
  | wait (cv : C) (mp : M) (interruptable : Bool)
  | signal (cv : C)
  | broadcast (cv : C)
  | interrupt (u : T)
  deriving DecidableEq, Repr

inductive Reply where
  | done
  | interrupted
  | refused
  deriving DecidableEq, Repr

/-- How far a thread has got. -/
inductive Status (T C M : Type) where
  | out
  | called (a : Op T C M)
  | waiting (cv : C) (mp : M) (interruptable : Bool)
  /-- No longer queued: it will take `mp` and return `r`. -/
  | woken (mp : M) (r : Reply)
  | done (r : Reply)
  deriving DecidableEq, Repr

def Status.waits : Status T C M → Bool
  | .waiting .. => true
  | _ => false

def Status.wake (r : Reply) : Status T C M → Status T C M
  | .waiting _ mp _ => .woken mp r
  | x => x

/-- The owner of every mutex, the threads queued on every condition variable, the oldest first. -/
structure State (T C M : Type) where
  owner : M → Option T
  queue : C → List T
  status : T → Status T C M

inductive Event (T C M : Type) where
  | call (t : T) (a : Op T C M)
  | effect (t : T)
  | ret (t : T)
  deriving DecidableEq, Repr

def initial : State T C M := ⟨fun _ => none, fun _ => [], fun _ => .out⟩

section Step

variable [DecidableEq T] [DecidableEq C] [DecidableEq M]

def State.setStatus (m : State T C M) (t : T) (x : Status T C M) : State T C M :=
  { m with status := Function.update m.status t x }

def State.setOwner (m : State T C M) (mp : M) (o : Option T) : State T C M :=
  { m with owner := Function.update m.owner mp o }

def State.setQueue (m : State T C M) (cv : C) (q : List T) : State T C M :=
  { m with queue := Function.update m.queue cv q }

/-- The threads of `l` are woken. -/
def State.wakeAll (m : State T C M) (l : List T) : State T C M :=
  { m with status := fun u => if u ∈ l then (m.status u).wake .done else m.status u }

/-- The operation of `t` takes effect. -/
def effect (m : State T C M) (t : T) : Option (State T C M) :=
  match m.status t with
  | .called (.lock mp) =>
    if m.owner mp = none then some ((m.setOwner mp (some t)).setStatus t (.done .done)) else none
  | .called (.unlock mp) =>
    if m.owner mp = some t then some ((m.setOwner mp none).setStatus t (.done .done)) else none
  | .called (.wait cv mp i) =>
    if m.owner mp = some t then
      some (((m.setOwner mp none).setQueue cv (m.queue cv ++ [t])).setStatus t (.waiting cv mp i))
    else none
  | .called (.signal cv) =>
    match m.queue cv with
    | [] => some (m.setStatus t (.done .done))
    | u :: q =>
      some (((m.setQueue cv q).setStatus u ((m.status u).wake .done)).setStatus t (.done .done))
  | .called (.broadcast cv) =>
    some (((m.wakeAll (m.queue cv)).setQueue cv []).setStatus t (.done .done))
  | .called (.interrupt u) =>
    match m.status u with
    | .waiting cv mp true =>
      some (((m.setQueue cv ((m.queue cv).erase u)).setStatus u
        (.woken mp .interrupted)).setStatus t (.done .done))
    | _ => some (m.setStatus t (.done .refused))
  | .woken mp r =>
    if m.owner mp = none then some ((m.setOwner mp (some t)).setStatus t (.done r)) else none
  | _ => none

def step (m : State T C M) : Event T C M → Option (State T C M)
  | .call t a => if m.status t = .out then some (m.setStatus t (.called a)) else none
  | .effect t => effect m t
  | .ret t =>
    match m.status t with
    | .done _ => some (m.setStatus t .out)
    | _ => none

/-- Calls and returns. -/
def label (m : State T C M) : Event T C M → List (Linear.Act T (Op T C M) Reply)
  | .call t a => [.call t a]
  | .effect _ => []
  | .ret t =>
    match m.status t with
    | .done r => [.ret t r]
    | _ => []

/-! ## Inversion of an effect -/

/-- What the effect of the operation of `t` does, one constructor for each operation and branch. -/
inductive Effect (m : State T C M) (t : T) : State T C M → Prop where
  | lock {mp : M} (ht : m.status t = .called (.lock mp)) (hfree : m.owner mp = none) :
      Effect m t ((m.setOwner mp (some t)).setStatus t (.done .done))
  | unlock {mp : M} (ht : m.status t = .called (.unlock mp)) (hown : m.owner mp = some t) :
      Effect m t ((m.setOwner mp none).setStatus t (.done .done))
  | wait {cv : C} {mp : M} {i : Bool} (ht : m.status t = .called (.wait cv mp i))
      (hown : m.owner mp = some t) :
      Effect m t
        (((m.setOwner mp none).setQueue cv (m.queue cv ++ [t])).setStatus t (.waiting cv mp i))
  | nobody {cv : C} (ht : m.status t = .called (.signal cv)) (hq : m.queue cv = []) :
      Effect m t (m.setStatus t (.done .done))
  | signal {cv : C} {u : T} {q : List T} (ht : m.status t = .called (.signal cv))
      (hq : m.queue cv = u :: q) :
      Effect m t
        (((m.setQueue cv q).setStatus u ((m.status u).wake .done)).setStatus t (.done .done))
  | broadcast {cv : C} (ht : m.status t = .called (.broadcast cv)) :
      Effect m t (((m.wakeAll (m.queue cv)).setQueue cv []).setStatus t (.done .done))
  | interrupt {u : T} {cv : C} {mp : M} (ht : m.status t = .called (.interrupt u))
      (hu : m.status u = .waiting cv mp true) :
      Effect m t (((m.setQueue cv ((m.queue cv).erase u)).setStatus u
        (.woken mp .interrupted)).setStatus t (.done .done))
  | refuse {u : T} (ht : m.status t = .called (.interrupt u)) :
      Effect m t (m.setStatus t (.done .refused))
  | relock {mp : M} {r : Reply} (ht : m.status t = .woken mp r) (hfree : m.owner mp = none) :
      Effect m t ((m.setOwner mp (some t)).setStatus t (.done r))

theorem effect_cases {m m' : State T C M} {t : T} (h : effect m t = some m') : Effect m t m' := by
  unfold effect at h
  split at h
  case h_1 mp ht =>
    split at h
    · cases h
      exact .lock ht ‹_›
    · cases h
  case h_2 mp ht =>
    split at h
    · cases h
      exact .unlock ht ‹_›
    · cases h
  case h_3 cv mp i ht =>
    split at h
    · cases h
      exact .wait ht ‹_›
    · cases h
  case h_4 cv ht =>
    split at h
    · cases h
      exact .nobody ht ‹_›
    · cases h
      exact .signal ht ‹_›
  case h_5 cv ht =>
    cases h
    exact .broadcast ht
  case h_6 u ht =>
    split at h
    · cases h
      exact .interrupt ht ‹_›
    · cases h
      exact .refuse ht
  case h_7 mp r ht =>
    split at h
    · cases h
      exact .relock ht ‹_›
    · cases h
  case h_8 => cases h

/-! ## The operation of a client -/

/-- What an operation may return. -/
def Op.Returns : Op T C M → Reply → Prop
  | .interrupt _, _ => True
  | .wait .., r => r ≠ .refused
  | _, r => r = .done

/-- The operation has been called, and has not returned. -/
inductive Serves : Op T C M → Status T C M → Prop where
  | called (a : Op T C M) : Serves a (.called a)
  | waiting (cv : C) (mp : M) (i : Bool) : Serves (.wait cv mp i) (.waiting cv mp i)
  | woken (cv : C) (mp : M) (i : Bool) {r : Reply} (hr : r ≠ .refused) :
      Serves (.wait cv mp i) (.woken mp r)
  | done {a : Op T C M} {r : Reply} (hr : a.Returns r) : Serves a (.done r)

/-- How far a thread can have got whose client has called an operation, or is outside. -/
def Doing : Option (Op T C M) → Status T C M → Prop
  | none, x => x = .out
  | some a, x => Serves a x

variable {m m' : State T C M} {t : T} {x : Status T C M} {o : Option (Op T C M)}

omit [DecidableEq T] [DecidableEq C] [DecidableEq M] in
theorem Doing.wake (h : Doing o x) {r : Reply} (hr : r ≠ .refused) : Doing o (x.wake r) := by
  cases o with
  | none =>
    rw [show x = .out from h]
    rfl
  | some a =>
    cases (show Serves a x from h) with
    | waiting cv mp i => exact .woken cv mp i hr
    | called => exact .called a
    | woken cv mp i hr' => exact .woken cv mp i hr'
    | done hr' => exact .done hr'

omit [DecidableEq T] [DecidableEq C] [DecidableEq M] in
theorem Doing.called {a : Op T C M} (h : Doing o (.called a)) : o = some a := by
  cases o with
  | none => cases (show Status.called a = .out from h)
  | some b =>
    cases (show Serves b (.called a) from h)
    rfl

omit [DecidableEq T] [DecidableEq C] [DecidableEq M] in
theorem Doing.woken {mp : M} {r : Reply} (h : Doing o (.woken mp r)) :
    r ≠ .refused ∧ ∃ cv i, o = some (.wait cv mp i) := by
  cases o with
  | none => cases (show Status.woken mp r = .out from h)
  | some b =>
    cases (show Serves b (.woken mp r) from h) with
    | woken cv mp i hr => exact ⟨hr, cv, i, rfl⟩

/-- **An effect fits the operations called.** -/
theorem doing_effect {ops : T → Option (Op T C M)} (h : ∀ u, Doing (ops u) (m.status u))
    (hm : effect m t = some m') (u : T) : Doing (ops u) (m'.status u) := by
  have hset : ∀ (n : State T C M) v x, (∀ w, Doing (ops w) (n.status w)) → Doing (ops v) x →
      ∀ w, Doing (ops w) ((n.setStatus v x).status w) := by
    intro n v x hn hx w
    by_cases hw : w = v
    · subst hw
      simpa only [State.setStatus, Function.update_self] using hx
    · simpa only [State.setStatus, Function.update_of_ne hw] using hn w
  have hown : ∀ a r, m.status t = .called a → a.Returns r → Doing (ops t) (.done r) := by
    intro a r ht hr
    have hop := h t
    rw [ht] at hop
    rw [hop.called]
    exact .done hr
  cases effect_cases hm with
  | lock ht | unlock ht | nobody ht | refuse ht =>
    exact hset _ t _ h (hown _ _ ht (by first | rfl | trivial)) u
  | @wait cv mp i ht =>
    have hop := h t
    rw [ht] at hop
    refine hset _ t _ h ?_ u
    rw [hop.called]
    exact .waiting cv mp i
  | signal ht =>
    exact hset _ t _ (hset _ _ _ h ((h _).wake (by simp))) (hown _ _ ht rfl) u
  | @broadcast cv ht =>
    refine hset _ t _ ?_ (hown _ _ ht rfl) u
    intro v
    simp only [State.setQueue, State.wakeAll]
    split
    · exact (h v).wake (by simp)
    · exact h v
  | @interrupt v cv mp ht hv =>
    have hwake := (h v).wake (r := .interrupted) (by simp)
    rw [hv] at hwake
    exact hset _ t _ (hset _ v _ h hwake) (hown _ _ ht trivial) u
  | relock ht =>
    have hop := h t
    rw [ht] at hop
    obtain ⟨hr, cv, i, heq⟩ := hop.woken
    refine hset _ t _ h ?_ u
    rw [heq]
    exact .done hr

end Step

end Monitor
