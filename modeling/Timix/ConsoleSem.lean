import Timix.ConsoleLinear
import Timix.Lib.Late
import Timix.SemMany

/-!
# The console driver over `sem.c`

`Timix.Console` takes `sem_wait` and `sem_signal` as one step each.  Here they are calls of `sem.c`:
a thread makes the call, `sem.c` takes its own steps, together with those of the other threads and
with those of `cond_interrupt`, and the driver goes on with what is returned.

* `Pc.semOp` — the call of `sem.c` at a program point.
* `Code`, `driver` — the driver as a client of the semaphores.  A failing `assert` of
  `scr_set_screen` stops the thread for good.
* `Beside` — the simulation relation.  In `Timix.Console` a signal takes effect when it is called,
  a wait when it returns; `Pc.ahead` is where the caller of a signal already is.

A signal may let other threads go on, and even finish, before it returns to its caller: so the
driver over `sem.c` shows what `Timix.Console` shows, with some returns later (`Linear.mailbox`).

Principal result: `console_over_sem`.
-/

set_option autoImplicit false

namespace Timix.Console

open Lts Linear
open Timix.Sem.Many (Accounts ManyInv Place tokens)

variable {W H N : Nat} {T : Type}

/-! ## The driver as a client -/

/-- The call of `sem.c` that comes next. -/
def Pc.semOp : Pc W H N → Option (Sem N × Semaphore.Op)
  | .waitCons n _ => some (.consLock n, .wait)
  | .waitBuf n _ | .setWaitNew n _ | .setWaitOld _ n => some (.consBufferLock n, .wait)
  | .backOut n _ | .sigCons n _ _ => some (.consLock n, .signal)
  | .sigBuf n _ _ | .sigOld _ n | .sigNew n => some (.consBufferLock n, .signal)
  | _ => none

/-- The driver, and which threads are inside `sem.c`.  The values `con.sem` are not looked at: a
    step of `con` is one with all semaphores free. -/
structure Code (T : Type) (W H N : Nat) where
  con : State T W H N
  inside : T → Bool

variable [DecidableEq T]

def Code.play (clear : Int) (screenOf : T → Fin N) (s : Code T W H N) (e : Event T) :
    Option (Code T W H N) :=
  match step clear screenOf s.con e with
  | none => none
  | some c => some { s with con := { c with sem := fun _ => 1 } }

def Code.setInside (s : Code T W H N) (t : T) (b : Bool) : Code T W H N :=
  { s with inside := Function.update s.inside t b }

/-- The driver's own steps. -/
def Code.own (clear : Int) (screenOf : T → Fin N) (s : Code T W H N) :
    Event T → Option (Code T W H N)
  | .call t c => s.play clear screenOf (.call t c)
  | .run t =>
    match (s.con.pc t).semOp with
    | none => s.play clear screenOf (.run t)
    | some _ => none
  | .eintr _ => none

/-- How thread `t` goes on after `sem.c` has returned `r`. -/
def answer (t : T) (r : Int) : Event T := if r = -EINTR then .eintr t else .run t

/-- Calls of `sem.c` and their returns. -/
def Code.accept (clear : Int) (screenOf : T → Fin N) (s : Code T W H N) :
    Act T (Sem N × Semaphore.Op) Int → Option (Code T W H N)
  | .call t a =>
    if s.inside t = false ∧ (s.con.pc t).semOp = some a then some (s.setInside t true) else none
  | .ret t r =>
    if s.inside t then
      (s.play clear screenOf (answer t r)).map fun s' => s'.setInside t false
    else none

def driver (clear : Int) (screenOf : T → Fin N) :
    Client (Code T W H N) (Event T) (Act T (Sem N × Semaphore.Op) Int)
      (Act T (DriverCall N) Reply) where
  step := Code.own clear screenOf
  label s := label clear screenOf s.con
  accept := Code.accept clear screenOf
  shows s
    | .call _ _ => []
    | .ret t r => label clear screenOf s.con (answer t r)

/-- The driver over the semaphores, one step. -/
abbrev codeStep (clear : Int) (screenOf : T → Fin N) :
    Code T W H N × Sem.Many.State T (Sem N) → Event T ⊕ Sem.Many.Event T (Sem N) →
      Option (Code T W H N × Sem.Many.State T (Sem N)) :=
  (driver clear screenOf).over Sem.Many.step Sem.Many.label

/-- What it shows. -/
abbrev codeLabel (clear : Int) (screenOf : T → Fin N) :
    Code T W H N × Sem.Many.State T (Sem N) → Event T ⊕ Sem.Many.Event T (Sem N) →
      List (Act T (DriverCall N) Reply) :=
  (driver clear screenOf).overLabel Sem.Many.label

/-- `Timix.Console`, with returns that may come later. -/
abbrev lateStep (clear : Int) (screenOf : T → Fin N) :
    (T → Option Reply) × State T W H N → T ⊕ Event T →
      Option ((T → Option Reply) × State T W H N) :=
  (mailbox T (DriverCall N) Reply).over (step clear screenOf) (label clear screenOf)

abbrev lateLabel (clear : Int) (screenOf : T → Fin N) :
    (T → Option Reply) × State T W H N → T ⊕ Event T → List (Act T (DriverCall N) Reply) :=
  (mailbox T (DriverCall N) Reply).overLabel (label clear screenOf)

/-- After `console_init`, whose calls of `sem_init` set every semaphore to 1. -/
def codeStart (console : Screen W H) (screens : Fin N → Screen W H) (idx : Fin N) :
    Code T W H N × Sem.Many.State T (Sem N) :=
  (⟨start console screens idx, fun _ => false⟩, Sem.Many.initial fun _ => 1)

/-! ## Steps beside each other -/

/-- `scr_set_screen` of a screen there is not, or a colour there is not. -/
def Call.refused (N : Nat) : Call → Bool
  | .op operation => operation.invalid
  | .setScreen n => decide (n > N)

/-- Where a call begins. -/
def Call.entry (n : Fin N) : Call → Pc W H N
  | .op operation => .waitCons n operation
  | .setScreen m => .setTest m

/-- The same but for semaphores, program points and returns. -/
structure Alike (s c : State T W H N) : Prop where
  console : c.console = s.console
  screens : c.screens = s.screens
  screenIdx : c.screenIdx = s.screenIdx
  hist : c.hist = s.hist

/-- The values of the semaphores after an operation. -/
def shift (sem : Sem N → Int) : Option (Sem N × Semaphore.Op) → Sem N → Int
  | none => sem
  | some (l, .wait) => Function.update sem l (sem l - 1)
  | some (l, .signal) => Function.update sem l (sem l + 1)

/-- Only a step that goes through is an operation on a semaphore. -/
def Event.semOp (p : Pc W H N) : Event T → Option (Sem N × Semaphore.Op)
  | .run _ => p.semOp
  | _ => none

/-- Two steps that do the same. -/
structure SameStep (s s' c c' : State T W H N) (e : Event T) : Prop where
  alike : Alike s' c'
  pc : ∃ p, s'.pc = Function.update s.pc e.thread p ∧ c'.pc = Function.update c.pc e.thread p
  rets : ∃ o : Option (Call × Reply), s'.rets = s.rets ++ o.toList.map (e.thread, ·) ∧
    c'.rets = c.rets ++ o.toList.map (e.thread, ·)
  sem : c'.sem = shift c.sem (e.semOp (s.pc e.thread))

variable {clear : Int} {screenOf : T → Fin N} {s s' c c' : State T W H N} {t : T} {e : Event T}

/-- The thread goes to `p`. -/
theorem sameStep_setPc (e : Event T) (p : Pc W H N) {x y : State T W H N} (h : Alike x y)
    (hx : x.pc = s.pc ∧ x.rets = s.rets) (hy : y.pc = c.pc ∧ y.rets = c.rets)
    (hsem : y.sem = shift c.sem (e.semOp (s.pc e.thread))) :
    SameStep s (x.setPc e.thread p) c (y.setPc e.thread p) e where
  alike := ⟨h.console, h.screens, h.screenIdx, h.hist⟩
  pc := ⟨p, by rw [← hx.1]; rfl, by rw [← hy.1]; rfl⟩
  rets := ⟨none, hx.2.trans (List.append_nil _).symm, hy.2.trans (List.append_nil _).symm⟩
  sem := hsem

/-- The thread returns. -/
theorem sameStep_finish (e : Event T) (a : Call) (r : Reply) {x y : State T W H N}
    (h : Alike x y) (hx : x.pc = s.pc ∧ x.rets = s.rets) (hy : y.pc = c.pc ∧ y.rets = c.rets)
    (hsem : y.sem = shift c.sem (e.semOp (s.pc e.thread))) :
    SameStep s (x.finish e.thread a r) c (y.finish e.thread a r) e where
  alike := ⟨h.console, h.screens, h.screenIdx, h.hist⟩
  pc := ⟨.idle, by rw [← hx.1]; rfl, by rw [← hy.1]; rfl⟩
  rets := ⟨some (a, r), by rw [← hx.2]; rfl, by rw [← hy.2]; rfl⟩
  sem := hsem

section

omit [DecidableEq T]

theorem Alike.setBuffer (h : Alike s c) (b : Bool) (n : Fin N) (scr : Screen W H) :
    Alike (s.setBuffer b n scr) (c.setBuffer b n scr) := by
  obtain ⟨hcon, hscr, hidx, hhist⟩ := h
  cases b
  · exact ⟨hcon, by simp only [State.setBuffer, hscr]; rfl, hidx, hhist⟩
  · exact ⟨rfl, hscr, hidx, hhist⟩

theorem Alike.buffer (h : Alike s c) (b : Bool) (n : Fin N) : c.buffer b n = s.buffer b n := by
  cases b
  · exact congrFun h.screens n
  · exact h.console

theorem Alike.saveField (h : Alike s c) (n : Fin N) (f : Field W H) :
    Alike (s.saveField n f) (c.saveField n f) :=
  ⟨h.console, by simp only [State.saveField, h.console, h.screens], h.screenIdx, h.hist⟩

theorem Alike.loadField (h : Alike s c) (n : Fin N) (f : Field W H) :
    Alike (s.loadField n f) (c.loadField n f) :=
  ⟨by simp only [State.loadField, h.console, h.screens], h.screens, h.screenIdx, h.hist⟩

theorem Alike.granted (h : Alike s c) (t : T) (n : Fin N) (op : Op) :
    Alike (s.granted t n op) (c.granted t n op) :=
  ⟨h.console, h.screens, h.screenIdx, by simp only [State.granted, h.hist]⟩

theorem Alike.freed (h : Alike s c) : Alike { s with sem := fun _ => 1 } c :=
  ⟨h.console, h.screens, h.screenIdx, h.hist⟩

theorem Alike.trans {d : State T W H N} (h : Alike s c) (h' : Alike c d) : Alike s d :=
  ⟨h'.console.trans h.console, h'.screens.trans h.screens, h'.screenIdx.trans h.screenIdx,
    h'.hist.trans h.hist⟩

theorem Alike.semSignal (h : Alike s c) (l : Sem N) : Alike (s.semSignal l) (c.semSignal l) :=
  ⟨h.console, h.screens, h.screenIdx, h.hist⟩

theorem Alike.semWait (h : Alike s c) (l : Sem N) : Alike (s.semWait l) (c.semWait l) :=
  ⟨h.console, h.screens, h.screenIdx, h.hist⟩

end

/-- A call is refused, or begins. -/
theorem step_call (hidle : s.pc t = .idle) (a : Call) :
    step clear screenOf s (.call t a) =
      some (if a.refused N then s.finish t a ⟨-EINVAL, []⟩
        else s.setPc t (a.entry (screenOf t))) := by
  cases a with
  | op op =>
    simp only [step, hidle, Call.refused, Call.entry]
    exact (apply_ite some _ _ _).symm
  | setScreen n =>
    simp only [step, hidle, Call.refused, Call.entry, decide_eq_true_eq]
    exact (apply_ite some _ _ _).symm

theorem replay_call {a : Call} (hs : step clear screenOf s (.call t a) = some s')
    (h : Alike s c) (hat : s.pc t = .idle) (hpc : c.pc t = s.pc t) :
    ∃ c', step clear screenOf c (.call t a) = some c' ∧ SameStep s s' c c' (.call t a) := by
  refine ⟨_, step_call (hpc.trans hat) a, ?_⟩
  rw [step_call hat] at hs
  cases hs
  cases a.refused N with
  | true =>
    exact sameStep_finish (y := c) (.call t a) a ⟨-EINVAL, []⟩ h ⟨rfl, rfl⟩ ⟨rfl, rfl⟩ rfl
  | false => exact sameStep_setPc (y := c) (.call t a) _ h ⟨rfl, rfl⟩ ⟨rfl, rfl⟩ rfl

/-- `t` takes a step from `p₀` to `p` without a semaphore. -/
theorem replay_local {p₀ p : Pc W H N} {x y : State T W H N} (hat : s.pc t = p₀)
    (hop : p₀.semOp = none) (hpc : c.pc t = s.pc t) (h : Alike x y)
    (hx : x.pc = s.pc ∧ x.rets = s.rets) (hy : y.pc = c.pc ∧ y.rets = c.rets ∧ y.sem = c.sem)
    (hc : c.pc t = p₀ → step clear screenOf c (.run t) = some (y.setPc t p)) :
    ∃ c', step clear screenOf c (.run t) = some c' ∧ SameStep s (x.setPc t p) c c' (.run t) := by
  refine ⟨_, hc (hpc.trans hat), sameStep_setPc (.run t) p h hx ⟨hy.1, hy.2.1⟩ ?_⟩
  rw [hy.2.2, Event.semOp, Event.thread, hat, hop]
  rfl

/-- `t` gets through `sem_wait`. -/
theorem replay_wait {p₀ p : Pc W H N} {l : Sem N} {x y : State T W H N} (hat : s.pc t = p₀)
    (hop : p₀.semOp = some (l, .wait)) (hpc : c.pc t = s.pc t) (h : Alike x y)
    (hx : x.pc = s.pc ∧ x.rets = s.rets)
    (hy : y.pc = c.pc ∧ y.rets = c.rets ∧ y.sem = (c.semWait l).sem)
    (hfree : ∀ l, (s.pc t).semOp = some (l, .wait) → 0 < c.sem l)
    (hc : c.pc t = p₀ → 0 < c.sem l → step clear screenOf c (.run t) = some (y.setPc t p)) :
    ∃ c', step clear screenOf c (.run t) = some c' ∧ SameStep s (x.setPc t p) c c' (.run t) := by
  have hl : 0 < c.sem l := hfree l (by rw [hat, hop])
  refine ⟨_, hc (hpc.trans hat) hl, sameStep_setPc (.run t) p h hx ⟨hy.1, hy.2.1⟩ ?_⟩
  rw [hy.2.2, Event.semOp, Event.thread, hat, hop]
  rfl

/-- `t` signals a semaphore and goes on. -/
theorem replay_signal {p₀ p : Pc W H N} {l : Sem N} (hat : s.pc t = p₀)
    (hop : p₀.semOp = some (l, .signal)) (hpc : c.pc t = s.pc t) (h : Alike s c)
    (hc : c.pc t = p₀ → step clear screenOf c (.run t) = some ((c.semSignal l).setPc t p)) :
    ∃ c', step clear screenOf c (.run t) = some c' ∧
      SameStep s ((s.semSignal l).setPc t p) c c' (.run t) := by
  refine ⟨_, hc (hpc.trans hat), sameStep_setPc (.run t) p (h.semSignal l) ⟨rfl, rfl⟩ ⟨rfl, rfl⟩ ?_⟩
  rw [Event.semOp, Event.thread, hat, hop]
  rfl

/-- `t` signals a semaphore and returns. -/
theorem replay_return {p₀ : Pc W H N} {l : Sem N} {a : Call} {r : Reply} (hat : s.pc t = p₀)
    (hop : p₀.semOp = some (l, .signal)) (hpc : c.pc t = s.pc t) (h : Alike s c)
    (hc : c.pc t = p₀ → step clear screenOf c (.run t) = some ((c.semSignal l).finish t a r)) :
    ∃ c', step clear screenOf c (.run t) = some c' ∧
      SameStep s ((s.semSignal l).finish t a r) c c' (.run t) := by
  refine ⟨_, hc (hpc.trans hat), sameStep_finish (.run t) a r (h.semSignal l) ⟨rfl, rfl⟩ ⟨rfl, rfl⟩
    ?_⟩
  rw [Event.semOp, Event.thread, hat, hop]
  rfl

/-- One access of an operation to the buffer it chose. -/
theorem replay_access {n : Fin N} {op : Op} {b : Bool} {p q : ScrProg W H Reply}
    {scr : Screen W H} (hat : s.pc t = .body n op b p)
    (hstep : p.step (s.buffer b n) = some (q, scr)) (hpc : c.pc t = s.pc t) (h : Alike s c) :
    ∃ c', step clear screenOf c (.run t) = some c' ∧
      SameStep s ((s.setBuffer b n scr).setPc t (.body n op b q)) c c' (.run t) := by
  rw [← h.buffer] at hstep
  refine replay_local hat rfl hpc (h.setBuffer b n scr) (by cases b <;> exact ⟨rfl, rfl⟩)
    (by cases b <;> exact ⟨rfl, rfl, rfl⟩) ?_
  intro hat'
  cases p with
  | ret => cases hstep
  | _ =>
    simp only [step, run, hat', hstep]

/-- `scr_set_screen` of another screen begins. -/
theorem replay_setTest {n : Fin N} (hat : s.pc t = .setTest n.val) (hne : n ≠ s.screenIdx)
    (hpc : c.pc t = s.pc t) (h : Alike s c) :
    ∃ c', step clear screenOf c (.run t) = some c' ∧
      SameStep s (s.setPc t (.setOld n)) c c' (.run t) := by
  refine replay_local hat rfl hpc h ⟨rfl, rfl⟩ ⟨rfl, rfl, rfl⟩ ?_
  intro hat'
  have hidx : ¬ (n.val : Int) = (c.screenIdx.val : Int) := by
    rw [h.screenIdx]
    exact fun heq => hne (Fin.ext (Int.ofNat.inj heq))
  have hn : 0 ≤ (n.val : Int) ∧ (n.val : Int).toNat < N := ⟨by omega, n.isLt⟩
  simp only [step, run, hat', if_neg hidx, dif_pos hn]
  rfl

/-- **Replay**: what a thread can do in `s` it can do in `c`. -/
theorem replay (hs : step clear screenOf s e = some s') (h : Alike s c)
    (hpc : c.pc e.thread = s.pc e.thread)
    (hfree : ∀ l, e.semOp (s.pc e.thread) = some (l, .wait) → 0 < c.sem l) :
    ∃ c', step clear screenOf c e = some c' ∧ SameStep s s' c c' e := by
  have hs₀ := hs
  cases step_move hs with
  | callOp t op hat | refuse t a hat | callSet t n hat => exact replay_call hs₀ h hat hpc
  | @intrCons t n op hat =>
    have hat' : c.pc t = .waitCons n op := hpc.trans hat
    refine ⟨_, ?_, sameStep_finish (y := c) (.eintr t) _ _ h ⟨rfl, rfl⟩ ⟨rfl, rfl⟩ rfl⟩
    simp only [step, hat']
    rfl
  | @intrBuf t n op hat =>
    have hat' : c.pc t = .waitBuf n op := hpc.trans hat
    refine ⟨_, ?_, sameStep_setPc (y := c) (.eintr t) _ h ⟨rfl, rfl⟩ ⟨rfl, rfl⟩ rfl⟩
    simp only [step, hat']
    rfl
  | lockCons hat | setWaitNew hat | setWaitOld hat =>
    refine replay_wait hat rfl hpc (h.semWait _) ⟨rfl, rfl⟩ ⟨rfl, rfl, rfl⟩ hfree ?_
    intro hat' hl
    simp only [step, run, hat', if_pos hl]
  | lockBuf hat =>
    refine replay_wait hat rfl hpc ((h.semWait _).granted _ _ _) ⟨rfl, rfl⟩ ⟨rfl, rfl, rfl⟩ hfree ?_
    intro hat' hl
    simp only [step, run, hat', if_pos hl]
  | sigBuf hat | sigOld hat =>
    refine replay_signal hat rfl hpc h ?_
    intro hat'
    simp only [step, run, hat']
  | backOut hat | sigCons hat | sigNew hat =>
    refine replay_return hat rfl hpc h ?_
    intro hat'
    simp only [step, run, hat']
  | bodyEnd hat | saveEnd hat | loadEnd hat =>
    refine replay_local hat rfl hpc h ⟨rfl, rfl⟩ ⟨rfl, rfl, rfl⟩ ?_
    intro hat'
    simp only [step, run, hat']
  | choose hat | setOld hat | saveIdx hat =>
    refine replay_local hat rfl hpc h ⟨rfl, rfl⟩ ⟨rfl, rfl, rfl⟩ ?_
    intro hat'
    simp only [step, run, hat', h.screenIdx]
  | access hat hstep => exact replay_access hat hstep hpc h
  | @setSame t n hat hn =>
    have hat' : c.pc t = .setTest n := hpc.trans hat
    refine ⟨_, ?_, sameStep_finish (y := c) (.run t) _ _ h ⟨rfl, rfl⟩ ⟨rfl, rfl⟩
      (by rw [Event.semOp, Event.thread, hat]; rfl)⟩
    simp only [step, run, hat', h.screenIdx, if_pos hn]
    rfl
  | setTest hat hne => exact replay_setTest hat hne hpc h
  | saveField hat =>
    refine replay_local hat rfl hpc (h.saveField _ _) ⟨rfl, rfl⟩ ⟨rfl, rfl, rfl⟩ ?_
    intro hat'
    simp only [step, run, hat']
  | loadField hat =>
    refine replay_local hat rfl hpc (h.loadField _ _) ⟨rfl, rfl⟩ ⟨rfl, rfl, rfl⟩ ?_
    intro hat'
    simp only [step, run, hat']
  | @setIdx t n old hat =>
    refine replay_local (y := { c with screenIdx := n }) hat rfl hpc
      ⟨h.console, h.screens, rfl, h.hist⟩ ⟨rfl, rfl⟩ ⟨rfl, rfl, rfl⟩ ?_
    intro hat'
    simp only [step, run, hat']

/-! ## The driver over `sem.c`, and the driver -/

/-- Where the caller of a signal already is, and what it will return. -/
def Pc.ahead (p : Pc W H N) : Bool → Pc W H N × Option Reply
  | false => (p, none)
  | true =>
    match p with
    | .backOut _ op => (.idle, some op.interrupted)
    | .sigBuf n op r => (.sigCons n op r, none)
    | .sigCons _ _ r => (.idle, some r)
    | .sigOld n _ => (.sigNew n, none)
    | .sigNew _ => (.idle, some ⟨0, []⟩)
    | p => (p, none)

/-- Where `sem.c` has a thread that is at `p`. -/
def Pc.Fits (p : Pc W H N) : Bool → Place (Sem N) → Prop
  | false, .out | false, .interrupting _ => True
  | true, .inside l a | true, .back l a _ => p.semOp = some (l, a)
  | _, _ => False

theorem Pc.Fits.outside {p : Pc W H N} {q : Place (Sem N)} (h : p.Fits false q) (p' : Pc W H N) :
    p'.Fits false q := by
  cases q <;> exact h

theorem Pc.ahead_of_wait {p : Pc W H N} {l : Sem N} (hp : p.semOp = some (l, .wait)) (b : Bool) :
    p.ahead b = (p, none) := by
  cases b with
  | false => rfl
  | true => cases p <;> first | rfl | cases hp

variable (clear screenOf) in
/-- A signal goes through in `Timix.Console`. -/
theorem signal_step {l : Sem N} (hop : (s.pc t).semOp = some (l, .signal)) :
    ∃ s', step clear screenOf s (.run t) = some s' ∧ Alike s s' ∧
      s'.pc = Function.update s.pc t ((s.pc t).ahead true).1 ∧
      s'.sem = Function.update s.sem l (s.sem l + 1) ∧
      label clear screenOf s (.run t) = ((s.pc t).ahead true).2.toList.map (.ret t) := by
  cases hpc : s.pc t <;> rw [hpc] at hop <;> cases hop
  case backOut n op =>
    have hs : step clear screenOf s (.run t) =
        some ((s.semSignal (.consLock n)).finish t (.op op) op.interrupted) := by
      simp only [step, run, hpc]
    refine ⟨_, hs, ⟨rfl, rfl, rfl, rfl⟩, rfl, rfl, ?_⟩
    rw [label_eq (l := [(t, .op op, op.interrupted)]) hs rfl]
    rfl
  case sigBuf n op r =>
    have hs : step clear screenOf s (.run t) =
        some ((s.semSignal (.consBufferLock n)).setPc t (.sigCons n op r)) := by
      simp only [step, run, hpc]
    exact ⟨_, hs, ⟨rfl, rfl, rfl, rfl⟩, rfl, rfl, label_inside hs rfl⟩
  case sigCons n op r =>
    have hs : step clear screenOf s (.run t) =
        some ((s.semSignal (.consLock n)).finish t (.op op) r) := by
      simp only [step, run, hpc]
    refine ⟨_, hs, ⟨rfl, rfl, rfl, rfl⟩, rfl, rfl, ?_⟩
    rw [label_eq (l := [(t, .op op, r)]) hs rfl]
    rfl
  case sigOld n old =>
    have hs : step clear screenOf s (.run t) =
        some ((s.semSignal (.consBufferLock old)).setPc t (.sigNew n)) := by
      simp only [step, run, hpc]
    exact ⟨_, hs, ⟨rfl, rfl, rfl, rfl⟩, rfl, rfl, label_inside hs rfl⟩
  case sigNew n =>
    have hs : step clear screenOf s (.run t) =
        some ((s.semSignal (.consBufferLock n)).finish t (.setScreen n.val) ⟨0, []⟩) := by
      simp only [step, run, hpc]
    refine ⟨_, hs, ⟨rfl, rfl, rfl, rfl⟩, rfl, rfl, ?_⟩
    rw [label_eq (l := [(t, .setScreen n.val, ⟨0, []⟩)]) hs rfl]
    rfl

/-- What a step shows is a call of its thread, a return to it, or both. -/
theorem SameStep.labels (h : SameStep s s' c c' e) (hs : step clear screenOf s e = some s')
    (hc : step clear screenOf c e = some c') :
    label clear screenOf c e = label clear screenOf s e ∧
      ∃ (l : List (DriverCall N)) (o : Option Reply),
        label clear screenOf s e = l.map (.call e.thread) ++ o.toList.map (.ret e.thread) := by
  obtain ⟨o, hrets, hrets'⟩ := h.rets
  refine ⟨by rw [label_eq hs hrets, label_eq hc hrets'], ?_⟩
  obtain ⟨l, hl⟩ : ∃ l : List (DriverCall N), e.calls screenOf = l.map (.call e.thread) := by
    cases e with
    | call u a => exact ⟨[a.bound (screenOf u)], rfl⟩
    | run | eintr => exact ⟨[], rfl⟩
  refine ⟨l, o.map Prod.snd, ?_⟩
  rw [label_eq hs hrets, hl]
  cases o <;> rfl

section Simulation

variable [Fintype T]

/-- The console beside the driver over `sem.c`. -/
structure Beside (x : Code T W H N × Sem.Many.State T (Sem N))
    (y : (T → Option Reply) × State T W H N) : Prop where
  many : ManyInv x.2
  alike : Alike x.1.con y.2
  pc : ∀ t, (y.2.pc t, y.1 t) = (x.1.con.pc t).ahead (x.1.inside t)
  sem : ∀ l, y.2.sem l = tokens (fun _ => 1) x.2 l
  place : ∀ t, (x.1.con.pc t).Fits (x.1.inside t) (x.2.place t)

variable {x x' : Code T W H N × Sem.Many.State T (Sem N)}
  {y y' : (T → Option Reply) × State T W H N}

omit [DecidableEq T] in
theorem beside_start (console : Screen W H) (screens : Fin N → Screen W H) (idx : Fin N) :
    Beside (codeStart console screens idx : Code T W H N × _)
      (fun _ => none, start console screens idx) where
  many := Sem.Many.manyInv_initial _
  alike := ⟨rfl, rfl, rfl, rfl⟩
  pc _ := rfl
  sem l := by
    have hidle : Census.tally Sem.Many.early (fun _ : T => (.idle : Sem.Pc T)) = 0 :=
      Census.tally_eq_zero.2 fun _ => rfl
    have hout : Census.tally (Place.grants l) (fun _ : T => (.out : Place (Sem N))) = 0 :=
      Census.tally_eq_zero.2 fun _ => rfl
    simp [codeStart, start, tokens, Sem.Many.put, Sem.Many.initial, Sem.semInit, Sem.State.ret0,
      hidle, hout]
  place _ := trivial

/-- Thread `t` has moved. -/
theorem Beside.move (h : Beside x y) (t : T) {p p' : Pc W H N} {b : Bool} {q : Place (Sem N)}
    {o : Option Reply} (hmany : ManyInv x'.2) (halike : Alike x'.1.con y'.2)
    (hpc : x'.1.con.pc = Function.update x.1.con.pc t p)
    (hinside : x'.1.inside = Function.update x.1.inside t b)
    (hplace : x'.2.place = Function.update x.2.place t q)
    (hpc' : y'.2.pc = Function.update y.2.pc t p') (hreply : y'.1 = Function.update y.1 t o)
    (hahead : (p', o) = p.ahead b) (hfits : p.Fits b q)
    (hsem : ∀ l, y'.2.sem l = tokens (fun _ => 1) x'.2 l) : Beside x' y' where
  many := hmany
  alike := halike
  pc u := by
    rw [hpc, hinside, hpc', hreply]
    by_cases hu : u = t
    · subst hu
      simpa only [Function.update_self] using hahead
    · simpa only [Function.update_of_ne hu] using h.pc u
  sem := hsem
  place u := by
    rw [hpc, hinside, hplace]
    by_cases hu : u = t
    · subst hu
      simpa only [Function.update_self] using hfits
    · simpa only [Function.update_of_ne hu] using h.place u

omit [DecidableEq T] in
/-- Where a thread is that is at no call of a signal, or has not made it. -/
theorem Beside.level (h : Beside x y) {t : T}
    (ht : x.1.inside t = false ∨ ∃ l, (x.1.con.pc t).semOp = some (l, .wait)) :
    y.2.pc t = x.1.con.pc t ∧ y.1 t = none := by
  have hahead : (x.1.con.pc t).ahead (x.1.inside t) = (x.1.con.pc t, none) := by
    rcases ht with ht | ⟨l, hl⟩
    · rw [ht]
      rfl
    · exact Pc.ahead_of_wait hl _
  have hpc := h.pc t
  rw [hahead] at hpc
  exact Prod.mk.inj hpc

/-- The console follows a step of the driver, and shows the same. -/
theorem Beside.follow (h : Beside x y) {e : Event T} {s' : State T W H N}
    (hs : step clear screenOf x.1.con e = some s')
    (hlevel : y.2.pc e.thread = x.1.con.pc e.thread ∧ y.1 e.thread = none)
    (hfree : ∀ l, e.semOp (x.1.con.pc e.thread) = some (l, .wait) → 0 < y.2.sem l) :
    ∃ c', Lts.Shows (lateStep clear screenOf) (lateLabel clear screenOf) y
        (label clear screenOf x.1.con e) (y.1, c') ∧ SameStep x.1.con s' y.2 c' e := by
  obtain ⟨c', hc, hsame⟩ := replay hs h.alike hlevel.1 hfree
  obtain ⟨heq, l, o, hl⟩ := hsame.labels hs hc
  have hshow := shows_at_once (b := y.1) hlevel.2 hc l (heq.trans hl)
  rw [heq] at hshow
  exact ⟨c', hshow, hsame⟩

omit [Fintype T] in
/-- The driver's own steps are at no call of `sem.c`. -/
theorem own_step {x s : Code T W H N} {e : Event T} (hs : x.own clear screenOf e = some s) :
    (x.con.pc e.thread).semOp = none ∧ ∃ c, step clear screenOf x.con e = some c ∧
      s = { x with con := { c with sem := fun _ => 1 } } := by
  have hplay : ∀ e, x.play clear screenOf e = some s → ∃ c, step clear screenOf x.con e = some c ∧
      s = { x with con := { c with sem := fun _ => 1 } } := by
    intro e he
    unfold Code.play at he
    split at he
    · cases he
    · cases he
      exact ⟨_, ‹_›, rfl⟩
  cases e with
  | call t a =>
    obtain ⟨c, hc, hsc⟩ := hplay _ hs
    refine ⟨?_, c, hc, hsc⟩
    cases step_move hc with
    | callOp _ _ hpc | refuse _ _ hpc | callSet _ _ hpc =>
      rw [Event.thread, hpc]
      rfl
  | run t =>
    simp only [Code.own] at hs
    split at hs
    · exact ⟨‹_›, hplay _ hs⟩
    · cases hs
  | eintr t => cases hs

/-- **The driver's own steps.** -/
theorem Beside.own (h : Beside x y) {e : Event T} {s : Code T W H N}
    (hs : x.1.own clear screenOf e = some s) :
    ∃ y', Lts.Shows (lateStep clear screenOf) (lateLabel clear screenOf) y
        (label clear screenOf x.1.con e) y' ∧ Beside (s, x.2) y' := by
  obtain ⟨hop, c, hc, rfl⟩ := own_step hs
  have hin : x.1.inside e.thread = false := by
    have hfits := h.place e.thread
    cases hin : x.1.inside e.thread with
    | false => rfl
    | true =>
      rw [hin] at hfits
      cases hplace : x.2.place e.thread <;> rw [hplace] at hfits
      case inside | back =>
        rw [Pc.Fits, hop] at hfits
        cases hfits
      all_goals exact hfits.elim
  have hnone : e.semOp (x.1.con.pc e.thread) = none := by
    cases e with
    | run t => exact hop
    | _ => rfl
  obtain ⟨c', hshow, hsame⟩ := h.follow hc (h.level (Or.inl hin)) (by rw [hnone]; rintro _ ⟨⟩)
  obtain ⟨p, hpc, hpc'⟩ := hsame.pc
  refine ⟨_, hshow, h.move e.thread (p := p) (b := false) (q := x.2.place e.thread) (o := none)
    h.many hsame.alike.freed hpc ?_ ?_ hpc' ?_ rfl ?_ ?_⟩
  · rw [← hin, Function.update_eq_self]
  · rw [Function.update_eq_self]
  · rw [← (h.level (Or.inl hin)).2, Function.update_eq_self]
  · have hfits := h.place e.thread
    rw [hin] at hfits
    exact hfits.outside p
  · intro l
    rw [hsame.sem, hnone]
    exact h.sem l

/-- A step of `sem.c` that its caller does not see. -/
theorem Beside.unseen (h : Beside x y) {d : Sem.Many.Event T (Sem N)}
    {o : Sem.Many.State T (Sem N)} (ho : Sem.Many.step x.2 d = some o)
    (hd : (∃ t, d = .run t) ∨ ∃ i u, d = .interrupt i u) : Beside (x.1, o) y where
  many := h.many.step ho
  alike := h.alike
  pc := h.pc
  sem l := by
    rw [h.sem l]
    rcases hd with ⟨t, rfl⟩ | ⟨i, u, rfl⟩
    · exact (Sem.Many.tokens_run h.many ho l).symm
    · exact (Sem.Many.tokens_interrupt ho l).symm
  place := by
    have hset : ∀ t q, (x.1.con.pc t).Fits (x.1.inside t) q →
        ∀ u, (x.1.con.pc u).Fits (x.1.inside u) (Function.update x.2.place t q u) := by
      intro t q hq u
      by_cases hu : u = t
      · subst hu
        rwa [Function.update_self]
      · rw [Function.update_of_ne hu]
        exact h.place u
    have hfits : ∀ t q, x.2.place t = q → (x.1.con.pc t).Fits (x.1.inside t) q :=
      fun t q hq => hq ▸ h.place t
    have hfree : ∀ {p : Pc W H N} {b : Bool} {k : Sem N},
        p.Fits b .out ↔ p.Fits b (.interrupting k) := by
      intro p b k
      cases b <;> exact Iff.rfl
    have hbusy : ∀ {p : Pc W H N} {b : Bool} {k : Sem N} {a : Semaphore.Op} {r : Int},
        p.Fits b (.inside k a) → p.Fits b (.back k a r) := by
      intro p b k a r hp
      cases b <;> exact hp
    cases Sem.Many.step_move ho with
    | miss | go => exact h.place
    | hit hp => exact hset _ _ (hfree.1 (hfits _ _ hp))
    | through hp => exact hset _ _ (hbusy (hfits _ _ hp))
    | wake hp => exact hset _ _ (hfree.2 (hfits _ _ hp))
    | call | ret => rcases hd with ⟨_, hd⟩ | ⟨_, _, hd⟩ <;> cases hd

/-- **A call of `sem_wait` or `sem_signal`.** -/
theorem Beside.call (h : Beside x y) {t : T} {l : Sem N} {a : Semaphore.Op} {s : Code T W H N}
    {o : Sem.Many.State T (Sem N)} (ho : Sem.Many.step x.2 (.call t l a) = some o)
    (hs : x.1.accept clear screenOf (.call t (l, a)) = some s) :
    ∃ y', Lts.Shows (lateStep clear screenOf) (lateLabel clear screenOf) y [] y' ∧
      Beside (s, o) y' := by
  have hmany := h.many.step ho
  simp only [Code.accept] at hs
  split at hs
  case isFalse => cases hs
  rename_i hok
  obtain ⟨hin, hop⟩ := hok
  cases hs
  have hplace : o.place = Function.update x.2.place t (.inside l a) := by
    cases Sem.Many.step_move ho
    rfl
  have htokens := Sem.Many.tokens_call (n := fun _ => 1) ho
  have hpc : x.1.con.pc = Function.update x.1.con.pc t (x.1.con.pc t) := by
    rw [Function.update_eq_self]
  have hstay : y.2.pc = Function.update y.2.pc t (y.2.pc t) := by
    rw [Function.update_eq_self]
  obtain ⟨hlevel, hreply⟩ := h.level (Or.inl hin)
  cases a with
  | wait =>
    refine ⟨y, .refl y, h.move t (o := y.1 t) hmany h.alike hpc rfl hplace hstay
      (by rw [Function.update_eq_self]) ?_ hop ?_⟩
    · rw [hlevel, hreply, Pc.ahead_of_wait hop]
    · intro k
      rw [h.sem, htokens]
      simp
  | signal =>
    rw [← hlevel] at hop
    obtain ⟨c, hc, halike, hpc', hsem, hlabel⟩ :=
      signal_step clear screenOf hop
    have hshow := shows_keep (b := y.1) hreply hc [] hlabel
    rw [hlevel] at hop hpc' hshow
    refine ⟨_, hshow, h.move t hmany (h.alike.trans halike) hpc rfl hplace hpc' rfl rfl hop ?_⟩
    intro k
    rw [hsem, htokens]
    by_cases hk : k = l
    · subst hk
      rw [Function.update_self, h.sem]
      simp
    · rw [Function.update_of_ne hk, h.sem]
      simp [hk]

/-- **The return from `sem.c`.** -/
theorem Beside.ret (h : Beside x y) (hacc : Accounts (fun _ => 1) x.2) {t : T} {l : Sem N}
    {a : Semaphore.Op} {r : Int} {s : Code T W H N} {o : Sem.Many.State T (Sem N)}
    (hplace : x.2.place t = .back l a r) (ho : Sem.Many.step x.2 (.ret t) = some o)
    (hs : x.1.accept clear screenOf (.ret t r) = some s) :
    ∃ y', Lts.Shows (lateStep clear screenOf) (lateLabel clear screenOf) y
        (label clear screenOf x.1.con (answer t r)) y' ∧ Beside (s, o) y' := by
  have hmany := h.many.step ho
  have htokens := Sem.Many.tokens_ret (n := fun _ => 1) hplace ho
  have hout : o.place = Function.update x.2.place t .out := by
    cases Sem.Many.step_move ho
    rfl
  have hin : x.1.inside t = true ∧ (x.1.con.pc t).semOp = some (l, a) := by
    have hfits := h.place t
    rw [hplace] at hfits
    cases hin : x.1.inside t with
    | false =>
      rw [hin] at hfits
      exact hfits.elim
    | true =>
      rw [hin] at hfits
      exact ⟨rfl, hfits⟩
  obtain ⟨hin, hop⟩ := hin
  obtain ⟨c, hc, hsc⟩ : ∃ c, step clear screenOf x.1.con (answer t r) = some c ∧
      s = ({ x.1 with con := { c with sem := fun _ => 1 } } : Code T W H N).setInside t false := by
    simp only [Code.accept, if_pos hin, Code.play] at hs
    split at hs
    · cases hs
    · cases hs
      exact ⟨_, ‹_›, rfl⟩
  subst hsc
  have hthread : (answer t r).thread = t := by
    unfold answer
    split <;> rfl
  cases a with
  | wait =>
    have hlevel := h.level (Or.inr ⟨l, hop⟩)
    -- the wait has gone through, or was interrupted
    obtain ⟨hfree, hcount⟩ : (∀ k, (answer t r).semOp (x.1.con.pc t) = some (k, .wait) →
        0 < y.2.sem k) ∧ ∀ k, shift y.2.sem ((answer t r).semOp (x.1.con.pc t)) k =
        tokens (fun _ => 1) o k := by
      rcases h.many.back _ _ _ _ hplace with rfl | ⟨-, rfl⟩
      · have hrun : (answer t 0).semOp (x.1.con.pc t) = some (l, .wait) := hop
        rw [hrun]
        refine ⟨?_, ?_⟩
        · intro k hk
          cases hk
          rw [h.sem]
          exact Sem.Many.tokens_pos hacc hplace
        · intro k
          rw [htokens, shift, ← h.sem]
          by_cases hk : k = l
          · subst hk
            simp
          · simp [hk]
      · refine ⟨?_, ?_⟩
        · rintro k ⟨⟩
        · intro k
          rw [htokens, ← h.sem]
          simp [answer, Event.semOp, shift, EINTR, Cond.EINTR]
    obtain ⟨c', hshow, hsame⟩ := h.follow hc (by rwa [hthread]) (by rwa [hthread])
    obtain ⟨p, hpc, hpc'⟩ := hsame.pc
    rw [hthread] at hpc hpc'
    refine ⟨_, hshow, h.move t (p := p) (o := none) hmany hsame.alike.freed hpc rfl hout hpc' ?_ rfl
      trivial ?_⟩
    · rw [← hlevel.2, Function.update_eq_self]
    · intro k
      rw [hsame.sem, hthread]
      exact hcount k
  | signal =>
    obtain rfl : r = 0 := (h.many.back _ _ _ _ hplace).resolve_right fun hr => by cases hr.1
    obtain ⟨c', hc', halike, hpc, -, hlabel⟩ :=
      signal_step clear screenOf hop
    obtain rfl : c' = c := Option.some.inj (hc'.symm.trans hc)
    have hahead := h.pc t
    rw [hin] at hahead
    have hlevel : y.2.pc t = ((x.1.con.pc t).ahead true).1 := congrArg Prod.fst hahead
    have hreply : y.1 t = ((x.1.con.pc t).ahead true).2 := congrArg Prod.snd hahead
    have hshow := shows_hand (step clear screenOf) (label clear screenOf) y.1 y.2 t
    rw [hreply, ← hlabel] at hshow
    have hstay : y.2.pc = Function.update y.2.pc t (y.2.pc t) := by
      rw [Function.update_eq_self]
    refine ⟨_, hshow, h.move t (o := none) hmany ?_ hpc rfl hout hstay rfl ?_ trivial ?_⟩
    · exact ⟨h.alike.console.trans halike.console.symm, h.alike.screens.trans halike.screens.symm,
        h.alike.screenIdx.trans halike.screenIdx.symm, h.alike.hist.trans halike.hist.symm⟩
    · rw [hlevel]
      rfl
    · intro k
      rw [htokens, h.sem]
      simp

/-- **Every step is answered.** -/
theorem Beside.step (h : Beside x y) (hacc : Accounts (fun _ => 1) x.2)
    {e : Event T ⊕ Sem.Many.Event T (Sem N)} (hs : codeStep clear screenOf x e = some x') :
    ∃ y', Lts.Shows (lateStep clear screenOf) (lateLabel clear screenOf) y
        (codeLabel clear screenOf x e) y' ∧ Beside x' y' := by
  obtain ⟨s, m⟩ := x
  obtain ⟨s', m'⟩ := x'
  cases e with
  | inl e =>
    obtain ⟨hown, hsame⟩ := over_inl.1 hs
    obtain rfl : m' = m := hsame
    exact h.own hown
  | inr d =>
    obtain ⟨hm, hs⟩ := over_inr.1 hs
    cases d with
    | run t =>
      obtain rfl : s = s' := Option.some.inj hs
      exact ⟨y, .refl y, h.unseen hm (Or.inl ⟨t, rfl⟩)⟩
    | interrupt i u =>
      obtain rfl : s = s' := Option.some.inj hs
      exact ⟨y, .refl y, h.unseen hm (Or.inr ⟨i, u, rfl⟩)⟩
    | call t l a =>
      obtain ⟨htake, htrace⟩ := exec_single (driver clear screenOf).shows hs
      obtain ⟨y', hshow, h'⟩ := h.call hm htake
      refine ⟨y', ?_, h'⟩
      simp only [Client.overLabel, Sem.Many.label]
      exact htrace ▸ hshow
    | ret t =>
      obtain ⟨l, a, r, hplace⟩ : ∃ l a r, m.place t = .back l a r := by
        cases Sem.Many.step_move hm with
        | ret hp => exact ⟨_, _, _, hp⟩
      have hlabel : Sem.Many.label m (.ret t) = [.ret t r] := by
        simp only [Sem.Many.label, hplace]
      rw [hlabel] at hs
      obtain ⟨htake, htrace⟩ := exec_single (driver clear screenOf).shows hs
      obtain ⟨y', hshow, h'⟩ := h.ret hacc hplace hm htake
      refine ⟨y', ?_, h'⟩
      simp only [Client.overLabel, hlabel]
      exact htrace ▸ hshow

/-! ## The counts -/

/-- The semaphores of the console are binary, so `sem_count` does not overflow upwards. -/
structure Counted (x : Code T W H N × Sem.Many.State T (Sem N))
    (y : (T → Option Reply) × State T W H N) : Prop extends Beside x y where
  accounts : Accounts (fun _ => 1) x.2
  locks : ∃ own, LockInv y.2 own

omit [DecidableEq T] in
theorem counted_start (console : Screen W H) (screens : Fin N → Screen W H) (idx : Fin N) :
    Counted (codeStart console screens idx : Code T W H N × _)
      (fun _ => none, start console screens idx) where
  toBeside := beside_start console screens idx
  accounts := Sem.Many.accounts_initial fun _ => by decide
  locks := ⟨_, lockInv_start console screens idx⟩

omit [DecidableEq T] in
/-- At most one token, of which the account speaks. -/
theorem Counted.tokens_le (h : Counted x y) (l : Sem N) :
    tokens (fun _ => 1) x.2 l ≤ Int32.maxValue.toInt := by
  obtain ⟨own, hlocks⟩ := h.locks
  have hle := hlocks.sem_le_one l
  rw [h.sem] at hle
  exact Int.le_trans hle (by decide)

omit [Fintype T] in
theorem late_locks {l : List (Act T (DriverCall N) Reply)}
    (hs : Lts.Shows (lateStep clear screenOf) (lateLabel clear screenOf) y l y')
    (h : ∃ own, LockInv y.2 own) : ∃ own, LockInv y'.2 own := by
  obtain ⟨ds, hds, -⟩ := hs
  refine exec_inv (I := fun y : (T → Option Reply) × State T W H N => ∃ own, LockInv y.2 own)
    ?_ h hds
  rintro ⟨b, c⟩ (p | d) ⟨b', c'⟩ ⟨own, hown⟩ hstep
  · obtain ⟨-, rfl⟩ := over_inl.1 hstep
    exact ⟨own, hown⟩
  · obtain ⟨hc, -⟩ := over_inr.1 hstep
    exact hown.of_step hc

/-- **The driver over `sem.c` is the driver, with some returns later.** -/
theorem simulates (hthreads : Fintype.card T ≤ 2 ^ 31) (clear : Int) (screenOf : T → Fin N) :
    Simulates (codeStep (W := W) (H := H) clear screenOf) (codeLabel clear screenOf)
      (fun _ => True) (lateStep clear screenOf) (lateLabel clear screenOf) Counted := by
  rintro x e x' y h - hs
  obtain ⟨y', hshow, h'⟩ := h.toBeside.step h.accounts hs
  refine ⟨y', hshow, h', ?_, late_locks hshow h.locks⟩
  cases e with
  | inl e =>
    obtain ⟨-, hsame⟩ := over_inl.1 hs
    rw [hsame]
    exact h.accounts
  | inr d => exact h.accounts.step h.many (over_inr.1 hs).1 hthreads h.tokens_le

/-- **The driver over `sem.c`.**  Whatever the interleaving, and whoever is interrupted by
`cond_interrupt` while he waits: some run of `Timix.Console` shows the same calls with the same
results, some returns a little later, and ends with the same screens, `screen_idx` and operations
begun on each screen; a thread that is not inside `sem.c` is at the same point and has no return
outstanding.  There are no more threads than `sem_count` can count below zero. -/
theorem console_over_sem (hthreads : Fintype.card T ≤ 2 ^ 31) (clear : Int)
    (screenOf : T → Fin N) (console : Screen W H) (screens : Fin N → Screen W H) (idx : Fin N)
    {es : List (Event T ⊕ Sem.Many.Event T (Sem N))}
    {x : Code T W H N × Sem.Many.State T (Sem N)}
    (h : exec (codeStep clear screenOf) (codeStart console screens idx) es = some x) :
    ∃ (fs : List (Event T)) (c : State T W H N) (b : T → Option Reply),
      exec (step clear screenOf) (start console screens idx) fs = some c ∧
      Postponed (trace (step clear screenOf) (label clear screenOf) (start console screens idx) fs)
        (trace (codeStep clear screenOf) (codeLabel clear screenOf)
          (codeStart console screens idx) es) b ∧
      c.console = x.1.con.console ∧ c.screens = x.1.con.screens ∧
      c.screenIdx = x.1.con.screenIdx ∧ c.hist = x.1.con.hist ∧
      ∀ t, x.1.inside t = false → c.pc t = x.1.con.pc t ∧ b t = none := by
  obtain ⟨⟨b, c⟩, ⟨ds, hds, htrace⟩, hx⟩ := (simulates hthreads clear screenOf).refines
    (counted_start console screens idx) (fun _ _ => trivial) h
  obtain ⟨fs, hfs, hpost⟩ := postponed_of_exec hds
  rw [← htrace]
  exact ⟨fs, c, b, hfs, hpost, hx.alike.console, hx.alike.screens, hx.alike.screenIdx,
    hx.alike.hist, fun t ht => hx.level (Or.inl ht)⟩

end Simulation

/-- Thread `t` asks for the colour while `u` waits for the screen; when `t` gives the screen back,
    `u` goes on and returns before `t` does. -/
def overtaken {T : Type} (t u : T) : List (Event T ⊕ Sem.Many.Event T (Sem 1)) :=
  let take (v : T) (l : Sem 1) : List (Event T ⊕ Sem.Many.Event T (Sem 1)) :=
    [.inr (.call v l .wait), .inr (.run v), .inr (.run v), .inr (.run v), .inr (.ret v)]
  let give (v : T) (l : Sem 1) : List (Event T ⊕ Sem.Many.Event T (Sem 1)) :=
    [.inr (.call v l .signal), .inr (.run v), .inr (.run v), .inr (.run v), .inr (.run v)]
  [.inl (.call t (.op .getTermColor))] ++ take t (.consLock 0) ++ take t (.consBufferLock 0) ++
    [.inl (.run t), .inl (.run t), .inl (.run t)] ++
    [.inl (.call u (.op .getTermColor)), .inr (.call u (.consLock 0) .wait), .inr (.run u),
      .inr (.run u), .inr (.run u)] ++
    give t (.consBufferLock 0) ++ [.inr (.ret t)] ++ give t (.consLock 0) ++
    [.inr (.run u), .inr (.run u), .inr (.run u), .inr (.ret u)] ++ take u (.consBufferLock 0) ++
    [.inl (.run u), .inl (.run u), .inl (.run u)] ++ give u (.consBufferLock 0) ++
    [.inr (.ret u)] ++ give u (.consLock 0) ++ [.inr (.ret u), .inr (.ret t)]

theorem overtaken_postponed :
    ∃ x : Code (Fin 2) 1 1 1 × Sem.Many.State (Fin 2) (Sem 1),
      exec (codeStep 0 fun _ => 0) (codeStart oneCell (fun _ => oneCell) 0) (overtaken 0 1) =
        some x ∧
      x.1.con.rets = [(1, .op .getTermColor, ⟨0, [7]⟩), (0, .op .getTermColor, ⟨0, [7]⟩)] ∧
      ∃ (fs : List (Event (Fin 2))) (c : State (Fin 2) 1 1 1) (b : Fin 2 → Option Reply),
        exec (step 0 fun _ => 0) (start oneCell (fun _ => oneCell) 0) fs = some c ∧
        Postponed (trace (step 0 fun _ => 0) (label 0 fun _ => 0)
            (start oneCell (fun _ => oneCell) 0) fs)
          (trace (codeStep 0 fun _ => 0) (codeLabel 0 fun _ => 0)
            (codeStart oneCell (fun _ => oneCell) 0) (overtaken (0 : Fin 2) 1)) b ∧
        c.console = x.1.con.console ∧ c.screens = x.1.con.screens ∧
        c.screenIdx = x.1.con.screenIdx ∧ c.hist = x.1.con.hist ∧
        ∀ t, x.1.inside t = false → c.pc t = x.1.con.pc t ∧ b t = none :=
  ⟨_, rfl, rfl, console_over_sem (by decide) 0 (fun _ => 0) oneCell (fun _ => oneCell) 0 rfl⟩

end Timix.Console
