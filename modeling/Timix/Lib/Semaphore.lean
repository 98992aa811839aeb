import Mathlib.Logic.Function.Basic
import Timix.Lib.Linear
import Timix.Lib.Refine

/-!
# First-come, first-served semaphores

A semaphore as its clients see it.  A wait takes effect at one instant: it takes a token, or joins
the end of the queue if there is none.  A signal hands its token to the head of the queue, or puts
it back if nobody waits; a later wait cannot take it away from the thread it was handed to.

* `effect` — an operation takes effect; `step` — a call, an effect, a return.
* `label` — calls and returns; all operations return 0.
* `Full` — nobody waits while there are tokens; an effect keeps it (`full_effect`).
-/

set_option autoImplicit false

namespace Semaphore

variable {T : Type}

inductive Op where
  | wait
  | signal
  deriving DecidableEq, Repr

/-- How far a thread has got. -/
inductive Status where
  | out
  | called (a : Op)
  | queued
  | done
  deriving DecidableEq, Repr

/-- The tokens and the threads queued, the oldest first. -/
structure State (T : Type) where
  count : Nat
  queue : List T
  status : T → Status

inductive Event (T : Type) where
  | call (t : T) (a : Op)
  | effect (t : T)
  | ret (t : T)
  deriving DecidableEq, Repr

/-- `k` tokens. -/
def initial (k : Nat) : State T := ⟨k, [], fun _ => .out⟩

section Step

variable [DecidableEq T]

def State.setStatus (m : State T) (t : T) (x : Status) : State T :=
  { m with status := Function.update m.status t x }

def effect (m : State T) (t : T) : Option (State T) :=
  match m.status t with
  | .called .wait =>
    match m.count with
    | 0 => some ({ m with queue := m.queue ++ [t] }.setStatus t .queued)
    | n + 1 => some ({ m with count := n }.setStatus t .done)
  | .called .signal =>
    match m.queue with
    | [] => some ({ m with count := m.count + 1 }.setStatus t .done)
    | u :: q => some (({ m with queue := q }.setStatus u .done).setStatus t .done)
  | _ => none

def step (m : State T) : Event T → Option (State T)
  | .call t a => if m.status t = .out then some (m.setStatus t (.called a)) else none
  | .effect t => effect m t
  | .ret t => if m.status t = .done then some (m.setStatus t .out) else none

/-- Calls and returns. -/
def label (_ : State T) : Event T → List (Linear.Act T Op Int)
  | .call t a => [.call t a]
  | .effect _ => []
  | .ret t => [.ret t 0]

theorem shows_call {m : State T} {t : T} (h : m.status t = .out) (a : Op) :
    Lts.Shows step label m [.call t a] (m.setStatus t (.called a)) :=
  .single (Event.call t a) (if_pos h)

theorem shows_effect {m m' : State T} {t : T} (h : effect m t = some m') :
    Lts.Shows step label m [] m' :=
  .single (Event.effect t) h

theorem shows_ret {m : State T} {t : T} (h : m.status t = .done) :
    Lts.Shows step label m [.ret t 0] (m.setStatus t .out) :=
  .single (Event.ret t) (if_pos h)

/-- Nobody waits while there are tokens. -/
def Full (m : State T) : Prop := m.queue ≠ [] → m.count = 0

variable {m m' : State T} {t : T}

omit [DecidableEq T] in
theorem full_initial (k : Nat) : Full (initial k : State T) := fun h => absurd rfl h

theorem full_effect (h : Full m) (hm : effect m t = some m') : Full m' := by
  unfold effect at hm
  split at hm
  · split at hm
    · rename_i hc
      cases hm
      exact fun _ => hc
    · rename_i n hc
      cases hm
      intro hq
      have hzero := h hq
      omega
  · split at hm
    · rename_i hq
      cases hm
      exact fun hne => absurd hq hne
    · rename_i u q hq
      cases hm
      exact fun _ => h (by rw [hq]; simp)
  · cases hm

end Step

end Semaphore
