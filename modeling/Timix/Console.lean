import Mathlib.Data.List.FinRange
import Timix.Lib.Owner
import Timix.Lib.Run
import Timix.Screen

/-!
# The console driver (`drivers/text_console.c`)

Any number of threads, each bound to one of `N` screens (`CONFIG_SCREEN_COUNT`), call the console
operations and `scr_set_screen`.  One step is a semaphore operation, a read of `screen_idx`, one
access of an operation to its screen buffer (`Prog.step`), or one assignment of `save_screen` or
`load_screen`.

* `sem` — the values of the semaphores: `sem_wait` goes through while the value is positive, and
  that of a console operation may return `-EINTR` instead (`Event.eintr`).
* `hist` — ghost: for each screen the threads that got its `cons_buffer_lock` in an operation, and
  that operation, in that order.
* `rets` — ghost: what the calls returned, oldest first.
* `Move` — what each event does, with its guard; `step_move` inverts the executable `step`.

`cursor_sync` only writes registers of the CRTC: `Timix.HardwareCursor` adds it.  The semaphores of
`console` itself are never waited for and not modelled.  An index outside `screens` stops the
system (`none`).
-/

set_option autoImplicit false

namespace Timix.Console

open Prog

def EINTR : Int := 4
def EINVAL : Int := 22

/-- What a call hands back: its result, and what it stores through its pointer arguments. -/
structure Reply where
  ret : Int
  out : List Int
  deriving DecidableEq, Repr

/-- The console operations. -/
inductive Op where
  | putbyte (c : BitVec 8)
  | putbytes (str : List (BitVec 8))
  | drawChar (row col ch color : Int)
  | clearConsole
  | consSetTermColor (color : Int)
  | getTermColor
  | setCursor (row col : Int)
  | getCursor
  | hideCursor
  | showCursor
  | getChar (row col : Int)
  deriving DecidableEq, Repr

inductive Call where
  | op (op : Op)
  /-- `scr_set_screen(n)`. -/
  | setScreen (n : Int)
  deriving DecidableEq, Repr

/-- `cons_set_term_color` returns `-EINVAL` before it locks anything if
    `color < 0 || (color & ~VALID_COLOR_MASK)`. -/
def Op.invalid : Op → Bool
  | .consSetTermColor color => decide (color < 0 ∨ 0xFF < color)
  | _ => false

/-- The reply when `scr_lock_thread_screen` returned `NULL`. -/
def Op.interrupted : Op → Reply
  | .drawChar .. | .clearConsole => ⟨0, []⟩
  | _ => ⟨-EINTR, []⟩

variable {W H N : Nat}

/-- What an operation does with the screen it has locked. -/
def Op.prog (clear : Int) : Op → ScrProg W H Reply
  | .putbyte c => do
    let _ ← scrPutbyte clear c
    return ⟨c.toInt, []⟩
  | .putbytes str => do
    scrPutbytes clear str
    return ⟨0, []⟩
  | .drawChar row col ch color => do
    scrDrawChar row col ch color
    return ⟨0, []⟩
  | .clearConsole => do
    scrClearConsole clear
    return ⟨0, []⟩
  | .consSetTermColor color => do
    let _ ← scrSetTermColor color
    return ⟨0, []⟩
  | .getTermColor => do
    let color ← scrGetTermColor
    return ⟨0, [color]⟩
  | .setCursor row col => do
    let ret ← scrSetCursor row col
    return ⟨ret, []⟩
  | .getCursor => do
    let pos ← scrGetCursor
    return ⟨0, [pos.1, pos.2]⟩
  | .hideCursor => do
    scrHideCursor
    return ⟨0, []⟩
  | .showCursor => do
    scrShowCursor
    return ⟨0, []⟩
  | .getChar row col => do
    let c ← scrGetChar row col
    return ⟨c.toInt, []⟩

/-- What `save_screen` and `load_screen` copy, one assignment each. -/
inductive Field (W H : Nat) where
  | consCurX
  | consCurY
  | consCurState
  | consCurColor
  /-- One cell of the `memcpy`. -/
  | cell (i : Fin (W * H))
  deriving DecidableEq

def fields (W H : Nat) : List (Field W H) :=
  [.consCurX, .consCurY, .consCurState, .consCurColor] ++ (List.finRange (W * H)).map .cell

/-- `dst` with one field taken from `src`. -/
def Field.copy (src dst : Screen W H) : Field W H → Screen W H
  | .consCurX => { dst with consCurX := src.consCurX }
  | .consCurY => { dst with consCurY := src.consCurY }
  | .consCurState => { dst with consCurState := src.consCurState }
  | .consCurColor => { dst with consCurColor := src.consCurColor }
  | .cell i => { dst with consBuf := Function.update dst.consBuf i (src.consBuf i) }

/-- The semaphores. -/
inductive Sem (N : Nat) where
  /-- `screens[n].cons_lock`. -/
  | consLock (n : Fin N)
  /-- `screens[n].cons_buffer_lock`. -/
  | consBufferLock (n : Fin N)
  deriving DecidableEq, Repr

/-- Program points; `n` is `current_thread->screen` in a console operation and the new screen in
    `scr_set_screen`. -/
inductive Pc (W H N : Nat) where
  | idle
  /-- `sem_wait(cons_lock)`. -/
  | waitCons (n : Fin N) (op : Op)
  /-- `sem_wait(cons_buf_lock)`. -/
  | waitBuf (n : Fin N) (op : Op)
  /-- It returned `-EINTR`: `sem_signal(cons_lock)`. -/
  | backOut (n : Fin N) (op : Op)
  /-- `current_thread->screen == screen_idx`. -/
  | choose (n : Fin N) (op : Op)
  /-- The operation on the buffer; `onConsole` if that is `console`. -/
  | body (n : Fin N) (op : Op) (onConsole : Bool) (p : ScrProg W H Reply)
  /-- `scr_unlock_screen`. -/
  | sigBuf (n : Fin N) (op : Op) (r : Reply)
  | sigCons (n : Fin N) (op : Op) (r : Reply)
  /-- `n == screen_idx`. -/
  | setTest (n : Int)
  /-- `old_scr_lock = &(screens[screen_idx].cons_buffer_lock)`. -/
  | setOld (n : Fin N)
  /-- `sem_wait(scr_lock)`. -/
  | setWaitNew (n old : Fin N)
  /-- `sem_wait(old_scr_lock)`. -/
  | setWaitOld (n old : Fin N)
  /-- `save_screen`: `saved = &screens[screen_idx]`. -/
  | saveIdx (n old : Fin N)
  | saving (n old saved : Fin N) (todo : List (Field W H))
  /-- `load_screen(n)`. -/
  | loading (n old : Fin N) (todo : List (Field W H))
  /-- `screen_idx = n`. -/
  | setIdx (n old : Fin N)
  /-- `sem_signal(old_scr_lock)`. -/
  | sigOld (n old : Fin N)
  /-- `sem_signal(scr_lock)`. -/
  | sigNew (n : Fin N)

structure State (T : Type) (W H N : Nat) where
  console : Screen W H
  screens : Fin N → Screen W H
  screenIdx : Fin N
  sem : Sem N → Int
  pc : T → Pc W H N
  hist : Fin N → List (T × Op)
  rets : List (T × Call × Reply)

/-- An idle thread makes a call; a thread inside a call takes its next step; a `sem_wait` of a
    console operation returns `-EINTR`. -/
inductive Event (T : Type) where
  | call (t : T) (c : Call)
  | run (t : T)
  | eintr (t : T)
  deriving DecidableEq, Repr

variable {T : Type} [DecidableEq T]

def State.setPc (s : State T W H N) (t : T) (p : Pc W H N) : State T W H N :=
  { s with pc := Function.update s.pc t p }

def State.setSem (s : State T W H N) (l : Sem N) (v : Int) : State T W H N :=
  { s with sem := Function.update s.sem l v }

/-- `sem_wait`, when it goes through. -/
def State.semWait (s : State T W H N) (l : Sem N) : State T W H N := s.setSem l (s.sem l - 1)

def State.semSignal (s : State T W H N) (l : Sem N) : State T W H N := s.setSem l (s.sem l + 1)

/-- The buffer an operation works on. -/
def State.buffer (s : State T W H N) (onConsole : Bool) (n : Fin N) : Screen W H :=
  if onConsole then s.console else s.screens n

def State.setBuffer (s : State T W H N) (onConsole : Bool) (n : Fin N) (scr : Screen W H) :
    State T W H N :=
  if onConsole then { s with console := scr }
  else { s with screens := Function.update s.screens n scr }

/-- One assignment of `save_screen`. -/
def State.saveField (s : State T W H N) (saved : Fin N) (f : Field W H) : State T W H N :=
  { s with screens := Function.update s.screens saved (f.copy s.console (s.screens saved)) }

/-- One assignment of `load_screen`. -/
def State.loadField (s : State T W H N) (n : Fin N) (f : Field W H) : State T W H N :=
  { s with console := f.copy (s.screens n) s.console }

/-- Note that an operation has got its `cons_buffer_lock`. -/
def State.granted (s : State T W H N) (t : T) (n : Fin N) (op : Op) : State T W H N :=
  { s with hist := Function.update s.hist n (s.hist n ++ [(t, op)]) }

/-- Return from a call. -/
def State.finish (s : State T W H N) (t : T) (c : Call) (r : Reply) : State T W H N :=
  { s with rets := s.rets ++ [(t, c, r)] }.setPc t .idle

/-- The next step of a thread inside a call. -/
def run (clear : Int) (s : State T W H N) (t : T) : Option (State T W H N) :=
  match s.pc t with
  | .idle => none
  | .waitCons n op =>
    if 0 < s.sem (.consLock n) then some ((s.semWait (.consLock n)).setPc t (.waitBuf n op))
    else none
  | .waitBuf n op =>
    if 0 < s.sem (.consBufferLock n) then
      some (((s.semWait (.consBufferLock n)).granted t n op).setPc t (.choose n op))
    else none
  | .backOut n op => some ((s.semSignal (.consLock n)).finish t (.op op) op.interrupted)
  | .choose n op => some (s.setPc t (.body n op (decide (n = s.screenIdx)) (op.prog clear)))
  | .body n op _ (.ret r) => some (s.setPc t (.sigBuf n op r))
  | .body n op onConsole p =>
    match p.step (s.buffer onConsole n) with
    | none => none
    | some (q, scr) => some ((s.setBuffer onConsole n scr).setPc t (.body n op onConsole q))
  | .sigBuf n op r => some ((s.semSignal (.consBufferLock n)).setPc t (.sigCons n op r))
  | .sigCons n op r => some ((s.semSignal (.consLock n)).finish t (.op op) r)
  | .setTest n =>
    if n = s.screenIdx.val then some (s.finish t (.setScreen n) ⟨0, []⟩)
    else if h : 0 ≤ n ∧ n.toNat < N then some (s.setPc t (.setOld ⟨n.toNat, h.2⟩))
    else none
  | .setOld n => some (s.setPc t (.setWaitNew n s.screenIdx))
  | .setWaitNew n old =>
    if 0 < s.sem (.consBufferLock n) then
      some ((s.semWait (.consBufferLock n)).setPc t (.setWaitOld n old))
    else none
  | .setWaitOld n old =>
    if 0 < s.sem (.consBufferLock old) then
      some ((s.semWait (.consBufferLock old)).setPc t (.saveIdx n old))
    else none
  | .saveIdx n old => some (s.setPc t (.saving n old s.screenIdx (fields W H)))
  | .saving n old _ [] => some (s.setPc t (.loading n old (fields W H)))
  | .saving n old saved (f :: todo) =>
    some ((s.saveField saved f).setPc t (.saving n old saved todo))
  | .loading n old [] => some (s.setPc t (.setIdx n old))
  | .loading n old (f :: todo) =>
    some ((s.loadField n f).setPc t (.loading n old todo))
  | .setIdx n old => some ({ s with screenIdx := n }.setPc t (.sigOld n old))
  | .sigOld n old => some ((s.semSignal (.consBufferLock old)).setPc t (.sigNew n))
  | .sigNew n =>
    some ((s.semSignal (.consBufferLock n)).finish t (.setScreen n.val) ⟨0, []⟩)

/-- One event; thread `t` is bound to screen `screenOf t`. -/
def step (clear : Int) (screenOf : T → Fin N) (s : State T W H N) :
    Event T → Option (State T W H N)
  | .call t (.op op) =>
    match s.pc t with
    | .idle =>
      if op.invalid then some (s.finish t (.op op) ⟨-EINVAL, []⟩)
      else some (s.setPc t (.waitCons (screenOf t) op))
    | _ => none
  | .call t (.setScreen n) =>
    match s.pc t with
    | .idle =>
      if n > N then some (s.finish t (.setScreen n) ⟨-EINVAL, []⟩)
      else some (s.setPc t (.setTest n))
    | _ => none
  | .run t => run clear s t
  | .eintr t =>
    match s.pc t with
    | .waitCons _ op => some (s.finish t (.op op) op.interrupted)
    | .waitBuf n op => some (s.setPc t (.backOut n op))
    | _ => none

/-- After `console_init` and before the first call; the screens may hold anything. -/
def start (console : Screen W H) (screens : Fin N → Screen W H) (idx : Fin N) :
    State T W H N where
  console := console
  screens := screens
  screenIdx := idx
  sem _ := 1
  pc _ := .idle
  hist _ := []
  rets := []

/-! ## What each event does -/

/-- One step, event by event and branch by branch. -/
inductive Move (clear : Int) (screenOf : T → Fin N) (s : State T W H N) :
    Event T → State T W H N → Prop where
  | callOp (t : T) (op : Op) (hpc : s.pc t = .idle) :
      Move clear screenOf s (.call t (.op op)) (s.setPc t (.waitCons (screenOf t) op))
  | refuse (t : T) (c : Call) (hpc : s.pc t = .idle) :
      Move clear screenOf s (.call t c) (s.finish t c ⟨-EINVAL, []⟩)
  | callSet (t : T) (n : Int) (hpc : s.pc t = .idle) :
      Move clear screenOf s (.call t (.setScreen n)) (s.setPc t (.setTest n))
  | intrCons {t : T} {n : Fin N} {op : Op} (hpc : s.pc t = .waitCons n op) :
      Move clear screenOf s (.eintr t) (s.finish t (.op op) op.interrupted)
  | intrBuf {t : T} {n : Fin N} {op : Op} (hpc : s.pc t = .waitBuf n op) :
      Move clear screenOf s (.eintr t) (s.setPc t (.backOut n op))
  | lockCons {t : T} {n : Fin N} {op : Op} (hpc : s.pc t = .waitCons n op)
      (hfree : 0 < s.sem (.consLock n)) :
      Move clear screenOf s (.run t) ((s.semWait (.consLock n)).setPc t (.waitBuf n op))
  | lockBuf {t : T} {n : Fin N} {op : Op} (hpc : s.pc t = .waitBuf n op)
      (hfree : 0 < s.sem (.consBufferLock n)) :
      Move clear screenOf s (.run t)
        (((s.semWait (.consBufferLock n)).granted t n op).setPc t (.choose n op))
  | backOut {t : T} {n : Fin N} {op : Op} (hpc : s.pc t = .backOut n op) :
      Move clear screenOf s (.run t)
        ((s.semSignal (.consLock n)).finish t (.op op) op.interrupted)
  | choose {t : T} {n : Fin N} {op : Op} (hpc : s.pc t = .choose n op) :
      Move clear screenOf s (.run t)
        (s.setPc t (.body n op (decide (n = s.screenIdx)) (op.prog clear)))
  | access {t : T} {n : Fin N} {op : Op} {onConsole : Bool} {p q : ScrProg W H Reply}
      {scr : Screen W H} (hpc : s.pc t = .body n op onConsole p)
      (hstep : p.step (s.buffer onConsole n) = some (q, scr)) :
      Move clear screenOf s (.run t)
        ((s.setBuffer onConsole n scr).setPc t (.body n op onConsole q))
  | bodyEnd {t : T} {n : Fin N} {op : Op} {onConsole : Bool} {r : Reply}
      (hpc : s.pc t = .body n op onConsole (.ret r)) :
      Move clear screenOf s (.run t) (s.setPc t (.sigBuf n op r))
  | sigBuf {t : T} {n : Fin N} {op : Op} {r : Reply} (hpc : s.pc t = .sigBuf n op r) :
      Move clear screenOf s (.run t)
        ((s.semSignal (.consBufferLock n)).setPc t (.sigCons n op r))
  | sigCons {t : T} {n : Fin N} {op : Op} {r : Reply} (hpc : s.pc t = .sigCons n op r) :
      Move clear screenOf s (.run t) ((s.semSignal (.consLock n)).finish t (.op op) r)
  | setSame {t : T} {n : Int} (hpc : s.pc t = .setTest n) (hn : n = s.screenIdx.val) :
      Move clear screenOf s (.run t) (s.finish t (.setScreen n) ⟨0, []⟩)
  | setTest {t : T} {n : Fin N} (hpc : s.pc t = .setTest n.val) (hne : n ≠ s.screenIdx) :
      Move clear screenOf s (.run t) (s.setPc t (.setOld n))
  | setOld {t : T} {n : Fin N} (hpc : s.pc t = .setOld n) :
      Move clear screenOf s (.run t) (s.setPc t (.setWaitNew n s.screenIdx))
  | setWaitNew {t : T} {n old : Fin N} (hpc : s.pc t = .setWaitNew n old)
      (hfree : 0 < s.sem (.consBufferLock n)) :
      Move clear screenOf s (.run t)
        ((s.semWait (.consBufferLock n)).setPc t (.setWaitOld n old))
  | setWaitOld {t : T} {n old : Fin N} (hpc : s.pc t = .setWaitOld n old)
      (hfree : 0 < s.sem (.consBufferLock old)) :
      Move clear screenOf s (.run t) ((s.semWait (.consBufferLock old)).setPc t (.saveIdx n old))
  | saveIdx {t : T} {n old : Fin N} (hpc : s.pc t = .saveIdx n old) :
      Move clear screenOf s (.run t) (s.setPc t (.saving n old s.screenIdx (fields W H)))
  | saveField {t : T} {n old saved : Fin N} {f : Field W H} {todo : List (Field W H)}
      (hpc : s.pc t = .saving n old saved (f :: todo)) :
      Move clear screenOf s (.run t) ((s.saveField saved f).setPc t (.saving n old saved todo))
  | saveEnd {t : T} {n old saved : Fin N} (hpc : s.pc t = .saving n old saved []) :
      Move clear screenOf s (.run t) (s.setPc t (.loading n old (fields W H)))
  | loadField {t : T} {n old : Fin N} {f : Field W H} {todo : List (Field W H)}
      (hpc : s.pc t = .loading n old (f :: todo)) :
      Move clear screenOf s (.run t) ((s.loadField n f).setPc t (.loading n old todo))
  | loadEnd {t : T} {n old : Fin N} (hpc : s.pc t = .loading n old []) :
      Move clear screenOf s (.run t) (s.setPc t (.setIdx n old))
  | setIdx {t : T} {n old : Fin N} (hpc : s.pc t = .setIdx n old) :
      Move clear screenOf s (.run t) ({ s with screenIdx := n }.setPc t (.sigOld n old))
  | sigOld {t : T} {n old : Fin N} (hpc : s.pc t = .sigOld n old) :
      Move clear screenOf s (.run t) ((s.semSignal (.consBufferLock old)).setPc t (.sigNew n))
  | sigNew {t : T} {n : Fin N} (hpc : s.pc t = .sigNew n) :
      Move clear screenOf s (.run t)
        ((s.semSignal (.consBufferLock n)).finish t (.setScreen n.val) ⟨0, []⟩)

variable {clear : Int} {screenOf : T → Fin N} {s s' : State T W H N} {t : T}

theorem run_move (h : run clear s t = some s') : Move clear screenOf s (.run t) s' := by
  unfold run at h
  split at h
  case h_1 => cases h
  case h_2 n op hpc =>
    split at h
    · cases h; exact .lockCons hpc ‹_›
    · cases h
  case h_3 n op hpc =>
    split at h
    · cases h; exact .lockBuf hpc ‹_›
    · cases h
  case h_4 n op hpc => cases h; exact .backOut hpc
  case h_5 n op hpc => cases h; exact .choose hpc
  case h_6 n op b r hpc => cases h; exact .bodyEnd hpc
  case h_7 n op b p hpc =>
    split at h
    · cases h
    · cases h; exact .access ‹_› ‹_›
  case h_8 n op r hpc => cases h; exact .sigBuf hpc
  case h_9 n op r hpc => cases h; exact .sigCons hpc
  case h_10 n hpc =>
    split at h
    · cases h; exact .setSame hpc ‹_›
    · rename_i hne
      split at h
      · rename_i hn
        cases h
        have hcast : n = ((⟨n.toNat, hn.2⟩ : Fin N).val : Int) := (Int.toNat_of_nonneg hn.1).symm
        refine .setTest (hpc.trans (congrArg Pc.setTest hcast)) ?_
        intro hidx
        exact hne (hcast.trans (by rw [hidx]))
      · cases h
  case h_11 n hpc => cases h; exact .setOld hpc
  case h_12 n old hpc =>
    split at h
    · cases h; exact .setWaitNew hpc ‹_›
    · cases h
  case h_13 n old hpc =>
    split at h
    · cases h; exact .setWaitOld hpc ‹_›
    · cases h
  case h_14 n old hpc => cases h; exact .saveIdx hpc
  case h_15 n old saved hpc => cases h; exact .saveEnd hpc
  case h_16 n old saved f todo hpc => cases h; exact .saveField hpc
  case h_17 n old hpc => cases h; exact .loadEnd hpc
  case h_18 n old f todo hpc => cases h; exact .loadField hpc
  case h_19 n old hpc => cases h; exact .setIdx hpc
  case h_20 n old hpc => cases h; exact .sigOld hpc
  case h_21 n hpc => cases h; exact .sigNew hpc

/-- **Step inversion.** -/
theorem step_move {e : Event T} (h : step clear screenOf s e = some s') :
    Move clear screenOf s e s' := by
  cases e with
  | run t => exact run_move h
  | call t c =>
    cases c with
    | op op =>
      simp only [step] at h
      split at h
      · split at h
        · cases h; exact .refuse t _ ‹_›
        · cases h; exact .callOp t op ‹_›
      · cases h
    | setScreen n =>
      simp only [step] at h
      split at h
      · split at h
        · cases h; exact .refuse t _ ‹_›
        · cases h; exact .callSet t n ‹_›
      · cases h
  | eintr t =>
    simp only [step] at h
    split at h
    · cases h; exact .intrCons ‹_›
    · cases h; exact .intrBuf ‹_›
    · cases h

end Timix.Console
