import Mathlib.Logic.Function.Basic
import Timix.ConsoleDeadlock
import Timix.CursorBounds
import Timix.Lib.Guarded

/-!
# Isolation of the screens

One thread `d` calls `scr_set_screen`; any number of threads print.  The logical state of a screen
is in `console` if the screen is current and in `screens` otherwise.

While the switch copies, no operation is under way on either of its two screens, so the operations
see every screen in one place (`State.home`): its logical state, and from the end of `save_screen`
to the assignment of `screen_idx` always `screens`.

* `ThreadInv` — what holds of a thread at each program point: an operation on the buffer has chosen
  the right one, and what a switch has still to copy completes the copy (`copyAll`).
* `Isolated` — the invariant; its `guarded` is the statement about `State.home`.

Principal results: `screens_isolated`, `one_switcher_not_deadlocked`.
-/

set_option autoImplicit false

namespace Timix.Console

open Prog

variable {W H N : Nat}

/-- What is left of `save_screen` or `load_screen`. -/
def copyAll (src : Screen W H) : List (Field W H) → Screen W H → Screen W H
  | [], dst => dst
  | f :: todo, dst => copyAll src todo (f.copy src dst)

/-- The operations in this order on a stand-alone console. -/
def runOps (clear : Int) (ops : List Op) (scr : Screen W H) : Option (Screen W H) :=
  replay (ops.map (Op.prog clear)) scr

variable {T : Type} [DecidableEq T]

/-- The logical state of a screen. -/
def State.logical (s : State T W H N) (k : Fin N) : Screen W H :=
  if k = s.screenIdx then s.console else s.screens k

/-- Nobody holds the `cons_buffer_lock` of screen `k`. -/
def State.BufferFree (s : State T W H N) (k : Fin N) : Prop :=
  ∀ t, Sem.consBufferLock k ∉ (s.pc t).locks

theorem copyAll_append (src : Screen W H) (as bs : List (Field W H)) (dst : Screen W H) :
    copyAll src (as ++ bs) dst = copyAll src bs (copyAll src as dst) := by
  induction as generalizing dst with
  | nil => rfl
  | cons f as ih => exact ih (f.copy src dst)

theorem copyAll_cells (src : Screen W H) (is : List (Fin (W * H))) (dst : Screen W H) :
    copyAll src (is.map .cell) dst =
      { dst with consBuf := fun i => if i ∈ is then src.consBuf i else dst.consBuf i } := by
  induction is generalizing dst with
  | nil => simp [copyAll]
  | cons j is ih =>
    rw [List.map_cons, copyAll, ih]
    simp only [Field.copy, Screen.mk.injEq, and_true]
    funext i
    by_cases hi : i = j
    · subst hi
      simp
    · simp [hi]

/-- **Nothing is left out**: all fields together are the whole screen. -/
theorem copyAll_fields (src dst : Screen W H) : copyAll src (fields W H) dst = src := by
  rw [fields, copyAll_append, copyAll_cells]
  simp [copyAll, Field.copy]

/-! ## The invariant -/

/-- The switch is between `save_screen` and the assignment of `screen_idx`. -/
def Pc.loading? : Pc W H N → Bool
  | .loading .. | .setIdx .. => true
  | _ => false

/-- Where the operations on a screen see it. -/
def State.home (s : State T W H N) (d : T) (k : Fin N) : Screen W H :=
  if (s.pc d).loading? then s.screens k else s.logical k

omit [DecidableEq T] in
theorem home_of_loading {s : State T W H N} {d : T} (h : (s.pc d).loading? = true) :
    s.home d = s.screens := by
  funext k
  exact if_pos h

omit [DecidableEq T] in
theorem home_of_not_loading {s : State T W H N} {d : T} (h : (s.pc d).loading? = false) :
    s.home d = s.logical := by
  funext k
  rw [State.home, h]
  rfl

/-- What is left of the operation under way, and its screen. -/
def Pc.pending (clear : Int) : Pc W H N → Option (Fin N × ScrProg W H Reply)
  | .choose n op => some (n, op.prog clear)
  | .body n _ _ p => some (n, p)
  | _ => none

/-- Thread `d` is the one that calls `scr_set_screen`, and the operations called satisfy `P`. -/
def CallOk (d : T) (P : Op → Prop) : Event T → Prop
  | .call t (.setScreen _) => t = d
  | .call _ (.op op) => P op
  | .run _ | .eintr _ => True

/-- What holds of thread `t` at a program point. -/
def ThreadInv (screenOf : T → Fin N) (d : T) (P : Op → Prop) (s : State T W H N) (t : T) :
    Pc W H N → Prop
  | .idle => True
  | .waitCons n op | .waitBuf n op => n = screenOf t ∧ P op
  | .backOut n _ | .choose n _ | .sigBuf n _ _ | .sigCons n _ _ => n = screenOf t
  | .body n _ onConsole _ => n = screenOf t ∧ onConsole = decide (n = s.screenIdx)
  | .setTest _ | .sigOld .. | .sigNew _ => t = d
  | .setOld n => t = d ∧ n ≠ s.screenIdx
  | .setWaitNew n old | .setWaitOld n old | .saveIdx n old =>
    t = d ∧ s.screenIdx = old ∧ n ≠ old
  | .saving n old saved todo => t = d ∧ s.screenIdx = old ∧ n ≠ old ∧ saved = old ∧
    copyAll s.console todo (s.screens old) = s.console
  | .loading n old todo => t = d ∧ s.screenIdx = old ∧ n ≠ old ∧
    copyAll (s.screens n) todo s.console = s.screens n
  | .setIdx n old => t = d ∧ s.screenIdx = old ∧ n ≠ old ∧ s.console = s.screens n

/-- The operations that got the lock of screen `k`, as programs. -/
def State.begun (s : State T W H N) (clear : Int) (k : Fin N) : List (ScrProg W H Reply) :=
  (s.hist k).map fun e => e.2.prog clear

structure Isolated (clear : Int) (screenOf : T → Fin N) (d : T) (P : Op → Prop)
    (init : Fin N → Screen W H) (s : State T W H N) : Prop where
  lock : ∃ own, LockInv s own
  thread : ∀ t, ThreadInv screenOf d P s t (s.pc t)
  guarded : Guarded init (s.home d) (s.begun clear) fun t => (s.pc t).pending clear
  mine : ∀ k, ∀ e ∈ s.hist k, screenOf e.1 = k ∧ P e.2

variable {clear : Int} {screenOf : T → Fin N} {d : T} {P : Op → Prop} {init : Fin N → Screen W H}
  {s s' : State T W H N} {t u : T}

omit [DecidableEq T] in
theorem Isolated.at_pc (h : Isolated clear screenOf d P init s) {p : Pc W H N} (hpc : s.pc t = p) :
    ThreadInv screenOf d P s t p :=
  hpc ▸ h.thread t

omit [DecidableEq T] in
theorem isolated_start (console : Screen W H) (screens : Fin N → Screen W H) (idx : Fin N) :
    Isolated clear screenOf d P (start console screens idx : State T W H N).logical
      (start console screens idx) where
  lock := ⟨_, lockInv_start console screens idx⟩
  thread _ := trivial
  guarded := guarded_init _
  mine _ _ h := by cases h

/-- An operation under way holds its lock. -/
theorem Pc.pending_locks {p : Pc W H N} {k : Fin N} {q : ScrProg W H Reply}
    (h : p.pending clear = some (k, q)) : Sem.consBufferLock k ∈ p.locks := by
  cases p with
  | choose | body =>
    cases h
    exact .head _
  | _ => cases h

omit [DecidableEq T] in
/-- While the switch loads, it holds the lock of the current screen. -/
theorem Isolated.loading_locks (h : Isolated clear screenOf d P init s)
    (hload : (s.pc d).loading? = true) :
    ∃ n, (s.pc d).locks = [.consBufferLock s.screenIdx, .consBufferLock n] := by
  have hd := h.thread d
  cases hpc : s.pc d with
  | loading n old | setIdx n old =>
    rw [hpc] at hd
    refine ⟨n, ?_⟩
    rw [hd.2.1]
    rfl
  | _ =>
    rw [hpc] at hload
    cases hload

omit [DecidableEq T] in
/-- Outside the locks of a loading switch the operations see the logical state. -/
theorem Isolated.home_eq (h : Isolated clear screenOf d P init s) {k : Fin N}
    (hk : (s.pc d).loading? = true → Sem.consBufferLock k ∉ (s.pc d).locks) :
    s.home d k = s.logical k := by
  cases hload : (s.pc d).loading? with
  | true =>
    obtain ⟨n, hlocks⟩ := h.loading_locks hload
    have hne : k ≠ s.screenIdx := by
      rintro rfl
      apply hk hload
      rw [hlocks]
      exact .head _
    rw [home_of_loading hload, State.logical, if_neg hne]
  | false => rw [home_of_not_loading hload]

/-! ## Every step keeps the invariant -/

/-- Nothing but program points, semaphores and ghosts has changed. -/
structure SameData (s s' : State T W H N) : Prop where
  console : s'.console = s.console
  screens : s'.screens = s.screens
  screenIdx : s'.screenIdx = s.screenIdx

omit [DecidableEq T] in
theorem ThreadInv.same (hdata : SameData s s') {p : Pc W H N} (h : ThreadInv screenOf d P s t p) :
    ThreadInv screenOf d P s' t p := by
  cases p with
  | body | setOld | setWaitNew | setWaitOld | saveIdx =>
    simp only [ThreadInv, hdata.screenIdx]
    exact h
  | saving | loading | setIdx =>
    simp only [ThreadInv, hdata.screenIdx, hdata.console, hdata.screens]
    exact h
  | _ => exact h

/-- What is shared by all steps: thread `t` goes to `p`. -/
theorem Isolated.move {p : Pc W H N} (hlock : ∃ own, LockInv s' own)
    (hupd : s'.pc = Function.update s.pc t p) (hthread : ThreadInv screenOf d P s' t p)
    (hothers : ∀ u ≠ t, ThreadInv screenOf d P s' u (s.pc u))
    (hguarded : Guarded init (s'.home d) (s'.begun clear)
      (Function.update (fun u => (s.pc u).pending clear) t (p.pending clear)))
    (hmine : ∀ k, ∀ e ∈ s'.hist k, screenOf e.1 = k ∧ P e.2) :
    Isolated clear screenOf d P init s' where
  lock := hlock
  thread u := by
    rw [hupd]
    by_cases hu : u = t
    · subst hu
      rwa [Function.update_self]
    · rw [Function.update_of_ne hu]
      exact hothers u hu
  guarded := by
    have hpend : (fun u => (s'.pc u).pending clear) =
        Function.update (fun u => (s.pc u).pending clear) t (p.pending clear) := by
      rw [hupd]
      exact Function.comp_update (Pc.pending clear) s.pc t p
    rwa [hpend]
  mine := hmine

/-- Steps that no operation notices. -/
theorem Isolated.unnoticed (h : Isolated clear screenOf d P init s) {p p' : Pc W H N}
    (hlock : ∃ own, LockInv s' own) (hpc : s.pc t = p') (hupd : s'.pc = Function.update s.pc t p)
    (hhist : s'.hist = s.hist) (hhome : s'.home d = s.home d)
    (hpend : p.pending clear = p'.pending clear) (hthread : ThreadInv screenOf d P s' t p)
    (hothers : ∀ u ≠ t, ThreadInv screenOf d P s' u (s.pc u)) :
    Isolated clear screenOf d P init s' := by
  refine .move hlock hupd hthread hothers ?_ (hhist ▸ h.mine)
  have hbegun : s'.begun clear = s.begun clear := by
    funext k
    rw [State.begun, State.begun, hhist]
  rw [hhome, hbegun, hpend, ← hpc, Function.update_eq_self]
  exact h.guarded

theorem home_same (hdata : SameData s s') {p p' : Pc W H N} (hpc : s.pc t = p')
    (hupd : s'.pc = Function.update s.pc t p) (hload : p.loading? = p'.loading?) :
    s'.home d = s.home d := by
  have hd : (s'.pc d).loading? = (s.pc d).loading? := by
    rw [hupd]
    by_cases hdt : d = t
    · subst hdt
      rw [Function.update_self, hload, hpc]
    · rw [Function.update_of_ne hdt]
  funext k
  simp only [State.home, State.logical, hd, hdata.console, hdata.screens, hdata.screenIdx]

/-- Steps that change no screen. -/
theorem Isolated.plain (h : Isolated clear screenOf d P init s) {p p' : Pc W H N}
    (hlock : ∃ own, LockInv s' own) (hpc : s.pc t = p') (hdata : SameData s s')
    (hupd : s'.pc = Function.update s.pc t p) (hhist : s'.hist = s.hist)
    (hpend : p.pending clear = p'.pending clear) (hload : p.loading? = p'.loading?)
    (hthread : ThreadInv screenOf d P s t p) : Isolated clear screenOf d P init s' :=
  h.unnoticed hlock hpc hupd hhist (home_same hdata hpc hupd hload) hpend (hthread.same hdata)
    fun u _ => (h.thread u).same hdata

omit [DecidableEq T] in
/-- The steps of the switch concern nobody else, apart from the current index. -/
theorem ThreadInv.other {p : Pc W H N} (h : ThreadInv screenOf d P s u p) (hu : u ≠ d)
    (hidx : ∀ n op b q, p = .body n op b q → (n = s'.screenIdx ↔ n = s.screenIdx)) :
    ThreadInv screenOf d P s' u p := by
  cases p with
  | body n op b q => exact ⟨h.1, h.2.trans (decide_eq_decide.2 (hidx n op b q rfl).symm)⟩
  | setTest | setOld | setWaitNew | setWaitOld | saveIdx | saving | loading | setIdx | sigOld
  | sigNew => exact absurd (by first | exact h | exact h.1) hu
  | _ => exact h

omit [DecidableEq T] in
/-- An operation on the right buffer changes the logical state of its screen. -/
theorem logical_setBuffer (s : State T W H N) (n : Fin N) (scr : Screen W H) :
    (s.setBuffer (decide (n = s.screenIdx)) n scr).logical = Function.update s.logical n scr := by
  funext k
  by_cases hn : n = s.screenIdx
  · rw [decide_eq_true hn]
    by_cases hk : k = n
    · rw [hk, Function.update_self]
      exact if_pos hn
    · have hidx : k ≠ s.screenIdx := hn ▸ hk
      rw [Function.update_of_ne hk]
      exact (if_neg hidx).trans (if_neg hidx).symm
  · rw [decide_eq_false hn]
    by_cases hk : k = n
    · rw [hk, Function.update_self]
      exact (if_neg hn).trans (Function.update_self ..)
    · have hscreen : Function.update s.screens n scr k = s.screens k := Function.update_of_ne hk ..
      rw [Function.update_of_ne hk, State.logical, State.logical, ← hscreen]
      rfl

omit [DecidableEq T] in
/-- While a switch holds its two locks, the operations under way are on other screens, and not on
    the console. -/
theorem Isolated.apart (h : Isolated clear screenOf d P init s) {n m old : Fin N} {op : Op}
    {b : Bool} {p : ScrProg W H Reply} (hpc : s.pc t = .body n op b p) (hne : u ≠ t)
    (hlocks : (s.pc u).locks = [.consBufferLock old, .consBufferLock m])
    (hidx : s.screenIdx = old) : b = false ∧ old ≠ n ∧ m ≠ n := by
  obtain ⟨own, hlock⟩ := h.lock
  have hout : ∀ k, Sem.consBufferLock k ∈ (s.pc u).locks → k ≠ n := by
    rintro k hk rfl
    exact hne (hlock.unique hk (by rw [hpc]; exact .head _))
  have hold : old ≠ n := hout old (by rw [hlocks]; exact .head _)
  refine ⟨?_, hold, hout m (by rw [hlocks]; exact .tail _ (.head _))⟩
  rw [(h.at_pc hpc).2, hidx]
  exact decide_eq_false (Ne.symm hold)

/-- An access does not disturb the other threads. -/
theorem Isolated.access_others (h : Isolated clear screenOf d P init s) {n : Fin N} {op : Op}
    {b : Bool} {p : ScrProg W H Reply} (hpc : s.pc t = .body n op b p) (hne : u ≠ t)
    (q : Pc W H N) (scr : Screen W H) :
    ThreadInv screenOf d P ((s.setBuffer b n scr).setPc t q) u (s.pc u) := by
  have hu := h.thread u
  have hidx : ((s.setBuffer b n scr).setPc t q).screenIdx = s.screenIdx :=
    setBuffer_screenIdx s b n scr
  cases hpu : s.pc u with
  | saving m old saved todo =>
    rw [hpu] at hu
    obtain ⟨rfl, hold, hm⟩ := h.apart hpc hne (by rw [hpu]; rfl) hu.2.1
    have hscreen : Function.update s.screens n scr old = s.screens old :=
      Function.update_of_ne hold ..
    refine ⟨hu.1, hu.2.1, hu.2.2.1, hu.2.2.2.1, ?_⟩
    exact (congrArg (copyAll s.console todo) hscreen).trans hu.2.2.2.2
  | loading m old todo =>
    rw [hpu] at hu
    obtain ⟨rfl, hold, hm⟩ := h.apart hpc hne (by rw [hpu]; rfl) hu.2.1
    have hscreen : Function.update s.screens n scr m = s.screens m := Function.update_of_ne hm ..
    refine ⟨hu.1, hu.2.1, hu.2.2.1, ?_⟩
    exact (congrArg (copyAll · todo s.console) hscreen).trans (hu.2.2.2.trans hscreen.symm)
  | setIdx m old =>
    rw [hpu] at hu
    obtain ⟨rfl, hold, hm⟩ := h.apart hpc hne (by rw [hpu]; rfl) hu.2.1
    exact ⟨hu.1, hu.2.1, hu.2.2.1, hu.2.2.2.trans (Function.update_of_ne hm ..).symm⟩
  | body | setOld | setWaitNew | setWaitOld | saveIdx =>
    rw [hpu] at hu
    simp only [ThreadInv, hidx]
    exact hu
  | _ =>
    rw [hpu] at hu
    exact hu

/-- **An access of an operation changes the screen of its thread and no other.** -/
theorem Isolated.home_access (h : Isolated clear screenOf d P init s) {n : Fin N} {op : Op}
    {b : Bool} {p : ScrProg W H Reply} (hpc : s.pc t = .body n op b p) (q : ScrProg W H Reply)
    (scr : Screen W H) :
    ((s.setBuffer b n scr).setPc t (.body n op b q)).home d =
      Function.update (s.home d) n scr := by
  have hload : (((s.setBuffer b n scr).setPc t (.body n op b q)).pc d).loading? =
      (s.pc d).loading? := by
    rw [setBuffer_pc]
    by_cases hd : d = t
    · subst hd
      rw [hpc, Function.update_self]
      rfl
    · rw [Function.update_of_ne hd]
  cases hd : (s.pc d).loading? with
  | true =>
    have hdt : d ≠ t := by
      rintro rfl
      rw [hpc] at hd
      cases hd
    obtain ⟨m, hlocks⟩ := h.loading_locks hd
    obtain ⟨rfl, _⟩ := h.apart hpc hdt hlocks rfl
    rw [home_of_loading (hload.trans hd), home_of_loading hd]
    rfl
  | false =>
    rw [home_of_not_loading (hload.trans hd), home_of_not_loading hd, ← logical_setBuffer,
      ← (h.at_pc hpc).2]
    rfl

section

omit [DecidableEq T]

/-- The buffer an operation has chosen is where its screen is. -/
theorem Isolated.buffer_eq (h : Isolated clear screenOf d P init s) {n : Fin N} {op : Op} {b : Bool}
    {p : ScrProg W H Reply} (hpc : s.pc t = .body n op b p) : s.buffer b n = s.home d n := by
  have hout : (s.pc d).loading? = true → Sem.consBufferLock n ∉ (s.pc d).locks := by
    intro hload hn
    obtain ⟨own, hlock⟩ := h.lock
    obtain rfl : d = t := hlock.unique hn (by rw [hpc]; exact .head _)
    rw [hpc] at hload
    cases hload
  rw [h.home_eq hout, State.buffer, (h.at_pc hpc).2, State.logical]
  by_cases hn : n = s.screenIdx
  · rw [if_pos hn, if_pos (decide_eq_true hn)]
  · rw [if_neg hn, if_neg (by rw [decide_eq_false hn]; decide)]

theorem begun_granted (s : State T W H N) (t : T) (n : Fin N) (op : Op) :
    (s.granted t n op).begun clear =
      Function.update (s.begun clear) n (s.begun clear n ++ [op.prog clear]) := by
  funext k
  by_cases hk : k = n
  · subst hk
    simp [State.begun, State.granted]
  · simp [State.begun, State.granted, hk]

theorem mem_granted {n k : Fin N} {op : Op} {e : T × Op} (h : e ∈ (s.granted t n op).hist k) :
    e ∈ s.hist k ∨ k = n ∧ e = (t, op) := by
  have h : e ∈ Function.update s.hist n (s.hist n ++ [(t, op)]) k := h
  by_cases hk : k = n
  · subst hk
    rw [Function.update_self, List.mem_append, List.mem_singleton] at h
    exact h.imp_right fun he => ⟨rfl, he⟩
  · rw [Function.update_of_ne hk] at h
    exact Or.inl h

theorem begun_setBuffer (s : State T W H N) (b : Bool) (n : Fin N) (scr : Screen W H) :
    (s.setBuffer b n scr).begun clear = s.begun clear := by
  cases b <;> rfl

theorem hist_setBuffer (s : State T W H N) (b : Bool) (n : Fin N) (scr : Screen W H) :
    (s.setBuffer b n scr).hist = s.hist := by
  cases b <;> rfl

end

/-- `save_screen` writes where no operation looks. -/
theorem home_saveField {n old : Fin N} {f : Field W H} {todo : List (Field W H)}
    (hpc : s.pc d = .saving n old old (f :: todo)) (hidx : s.screenIdx = old) :
    ((s.saveField old f).setPc d (.saving n old old todo)).home d = s.home d := by
  have hpc' : ((s.saveField old f).setPc d (.saving n old old todo)).pc d =
      .saving n old old todo := Function.update_self ..
  rw [home_of_not_loading (by rw [hpc']; rfl), home_of_not_loading (by rw [hpc]; rfl)]
  funext k
  by_cases hk : k = s.screenIdx
  · exact (if_pos hk).trans (if_pos hk).symm
  · have hne : k ≠ old := hidx ▸ hk
    exact (if_neg hk).trans ((Function.update_of_ne hne ..).trans (if_neg hk).symm)

/-- When it is done, the old screen is in both places. -/
theorem home_saveEnd {n old : Fin N} (hpc : s.pc d = .saving n old old [])
    (hidx : s.screenIdx = old) (hdone : s.screens old = s.console) :
    (s.setPc d (.loading n old (fields W H))).home d = s.home d := by
  have hpc' : (s.setPc d (.loading n old (fields W H))).pc d = .loading n old (fields W H) :=
    Function.update_self ..
  rw [home_of_loading (by rw [hpc']; rfl), home_of_not_loading (by rw [hpc]; rfl)]
  funext k
  by_cases hk : k = s.screenIdx
  · rw [State.logical, if_pos hk, hk, hidx]
    exact hdone
  · exact (if_neg hk).symm

/-- `load_screen` writes where no operation looks. -/
theorem home_loadField {n old : Fin N} {f : Field W H} {todo : List (Field W H)}
    (hpc : s.pc d = .loading n old (f :: todo)) :
    ((s.loadField n f).setPc d (.loading n old todo)).home d = s.home d := by
  have hpc' : ((s.loadField n f).setPc d (.loading n old todo)).pc d = .loading n old todo :=
    Function.update_self ..
  rw [home_of_loading (by rw [hpc']; rfl), home_of_loading (by rw [hpc]; rfl)]
  rfl

/-- When it is done, the new screen is in both places. -/
theorem home_setIdx {n old : Fin N} (hpc : s.pc d = .setIdx n old)
    (hdone : s.console = s.screens n) :
    ({ s with screenIdx := n }.setPc d (.sigOld n old)).home d = s.home d := by
  have hpc' : ({ s with screenIdx := n }.setPc d (.sigOld n old)).pc d = .sigOld n old :=
    Function.update_self ..
  rw [home_of_not_loading (by rw [hpc']; rfl), home_of_loading (by rw [hpc]; rfl)]
  funext k
  by_cases hk : k = n
  · subst hk
    exact (if_pos rfl).trans hdone
  · exact if_neg hk

/-- **Every step keeps the invariant.** -/
theorem Isolated.step (h : Isolated clear screenOf d P init s) {e : Event T}
    (hcall : CallOk d P e)
    (hstep : Console.step clear screenOf s e = some s') : Isolated clear screenOf d P init s' := by
  have hmove := step_move hstep
  obtain ⟨_, hsem⟩ := hmove.semStep
  obtain ⟨own, hown⟩ := h.lock
  have hlock := hown.step hsem
  cases hmove with
  | callOp t op hpc =>
    exact h.plain hlock hpc ⟨rfl, rfl, rfl⟩ rfl rfl rfl rfl ⟨rfl, hcall⟩
  | callSet t n hpc => exact h.plain hlock hpc ⟨rfl, rfl, rfl⟩ rfl rfl rfl rfl hcall
  | refuse t c hpc => exact h.plain hlock hpc ⟨rfl, rfl, rfl⟩ rfl rfl rfl rfl trivial
  | intrCons hpc | backOut hpc | sigCons hpc | setSame hpc _ | sigNew hpc =>
    exact h.plain hlock hpc ⟨rfl, rfl, rfl⟩ rfl rfl rfl rfl trivial
  | lockCons hpc _ | sigBuf hpc | setWaitNew hpc _ | setWaitOld hpc _ | loadEnd hpc | sigOld hpc =>
    have hthread := h.at_pc hpc
    exact h.plain hlock hpc ⟨rfl, rfl, rfl⟩ rfl rfl rfl rfl hthread
  | intrBuf hpc =>
    exact h.plain hlock hpc ⟨rfl, rfl, rfl⟩ rfl rfl rfl rfl (h.at_pc hpc).1
  | choose hpc =>
    exact h.plain hlock hpc ⟨rfl, rfl, rfl⟩ rfl rfl rfl rfl ⟨h.at_pc hpc, rfl⟩
  | setTest hpc hne =>
    exact h.plain hlock hpc ⟨rfl, rfl, rfl⟩ rfl rfl rfl rfl ⟨h.at_pc hpc, hne⟩
  | setOld hpc =>
    obtain ⟨ht, hne⟩ := h.at_pc hpc
    exact h.plain hlock hpc ⟨rfl, rfl, rfl⟩ rfl rfl rfl rfl ⟨ht, rfl, hne⟩
  | saveIdx hpc =>
    obtain ⟨ht, hidx, hne⟩ := h.at_pc hpc
    exact h.plain hlock hpc ⟨rfl, rfl, rfl⟩ rfl rfl rfl rfl
      ⟨ht, hidx, hne, hidx, copyAll_fields ..⟩
  | @lockBuf t n op hpc hfree =>
    have hnone := hown.free hfree
    obtain ⟨hscreen, hop⟩ := h.at_pc hpc
    have hhome : (((s.semWait (.consBufferLock n)).granted t n op).setPc t (.choose n op)).home d =
        s.home d := home_same ⟨rfl, rfl, rfl⟩ hpc rfl rfl
    refine .move hlock rfl hscreen (fun u _ => (h.thread u).same ⟨rfl, rfl, rfl⟩) ?_ ?_
    · have hguarded := h.guarded.enter (t := t) (k := n) (by rw [hpc]; rfl) ?_ (op.prog clear)
      · rw [← begun_granted s t n op] at hguarded
        rw [hhome]
        exact hguarded
      · intro u r hu
        rw [hown.own_eq (Pc.pending_locks hu)] at hnone
        cases hnone
    · intro k e he
      rcases mem_granted he with he | ⟨rfl, rfl⟩
      · exact h.mine k e he
      · exact ⟨hscreen.symm, hop⟩
  | @access t n op b p q scr hpc haccess =>
    have hthread := h.at_pc hpc
    refine .move hlock (setBuffer_pc ..) ?_ (fun u hu => h.access_others hpc hu _ scr) ?_ ?_
    · refine ⟨hthread.1, hthread.2.trans ?_⟩
      exact decide_eq_decide.2 (by rw [← setBuffer_screenIdx s b n scr]; rfl)
    · rw [h.home_access hpc q scr]
      rw [h.buffer_eq hpc] at haccess
      have hguarded := h.guarded.access (t := t) (by rw [hpc]; rfl) haccess
      rw [← begun_setBuffer s b n scr] at hguarded
      exact hguarded
    · intro k e he
      apply h.mine k e
      rwa [← hist_setBuffer s b n scr]
  | @bodyEnd t n op b r hpc =>
    have hhome : (s.setPc t (.sigBuf n op r)).home d = s.home d :=
      home_same ⟨rfl, rfl, rfl⟩ hpc rfl rfl
    refine .move hlock rfl (h.at_pc hpc).1 (fun u _ => (h.thread u).same ⟨rfl, rfl, rfl⟩) ?_ h.mine
    rw [hhome]
    exact h.guarded.leave (t := t) (by rw [hpc]; rfl)
  | @saveField t n old saved f todo hpc =>
    obtain ⟨rfl, hidx, hne, rfl, hcopy⟩ := h.at_pc hpc
    refine h.unnoticed hlock hpc rfl rfl (home_saveField hpc hidx) rfl
      ⟨rfl, hidx, hne, rfl, ?_⟩ fun u hu => (h.thread u).other hu fun _ _ _ _ _ => Iff.rfl
    have hsaved : (s.saveField saved f).screens saved = f.copy s.console (s.screens saved) :=
      Function.update_self ..
    exact (congrArg (copyAll s.console todo) hsaved).trans hcopy
  | @saveEnd t n old saved hpc =>
    obtain ⟨rfl, hidx, hne, rfl, hdone⟩ := h.at_pc hpc
    exact h.unnoticed hlock hpc rfl rfl (home_saveEnd hpc hidx hdone) rfl
      ⟨rfl, hidx, hne, copyAll_fields ..⟩ fun u _ => (h.thread u).same ⟨rfl, rfl, rfl⟩
  | @loadField t n old f todo hpc =>
    obtain ⟨rfl, hidx, hne, hcopy⟩ := h.at_pc hpc
    exact h.unnoticed hlock hpc rfl rfl (home_loadField hpc) rfl
      ⟨rfl, hidx, hne, hcopy⟩ fun u hu => (h.thread u).other hu fun _ _ _ _ _ => Iff.rfl
  | @setIdx t n old hpc =>
    obtain ⟨rfl, hidx, hne, hdone⟩ := h.at_pc hpc
    refine h.unnoticed hlock hpc rfl rfl (home_setIdx hpc hdone) rfl rfl ?_
    intro u hu
    apply (h.thread u).other hu
    -- an operation under way is on neither of the two screens
    intro m op b q hpu
    obtain ⟨_, hold, hm⟩ := h.apart hpu (Ne.symm hu) (by rw [hpc]; rfl) hidx
    exact iff_of_false (Ne.symm hm) (by rw [hidx]; exact Ne.symm hold)

/-! ## Runs -/

omit [DecidableEq T] in
theorem Isolated.logical_eq (h : Isolated clear screenOf d P init s) {k : Fin N}
    (hk : s.BufferFree k) :
    runOps clear ((s.hist k).map Prod.snd) (init k) = some (s.logical k) := by
  have hquiet := h.guarded.quiet k fun t p hp => hk t (Pc.pending_locks hp)
  rw [h.home_eq fun _ => hk d] at hquiet
  rw [runOps, List.map_map]
  exact hquiet

omit [DecidableEq T] in
theorem callOk_of_mem {es : List (Event T)} (hone : ∀ t n, .call t (.setScreen n) ∈ es → t = d)
    (hops : ∀ t op, .call t (.op op) ∈ es → P op) : ∀ e ∈ es, CallOk d P e := by
  intro e he
  cases e with
  | call t c =>
    cases c with
    | op op => exact hops t op he
    | setScreen n => exact hone t n he
  | run t | eintr t => trivial

theorem exec_isolated {console : Screen W H} {screens : Fin N → Screen W H} {idx : Fin N}
    {es : List (Event T)} (hcalls : ∀ e ∈ es, CallOk d P e)
    (hs : Lts.exec (Console.step clear screenOf) (start console screens idx) es = some s) :
    Isolated clear screenOf d P (start console screens idx : State T W H N).logical s :=
  Lts.exec_inv_along (fun _ e => CallOk d P e) _ (fun _ _ _ h hcall hstep => h.step hcall hstep)
    (isolated_start console screens idx) (Lts.along_of_forall hcalls _) hs

omit [DecidableEq T] in
/-- With one thread that switches, the index it has read is current when it gets its first lock. -/
theorem Isolated.stepOk (h : Isolated clear screenOf d P init s) (e : Event T) : StepOk s e := by
  cases e with
  | call t c | eintr t => trivial
  | run t =>
    show (s.pc t).IndexOk s
    cases hpc : s.pc t with
    | setWaitNew n old =>
      obtain ⟨_, hidx, hne⟩ := h.at_pc hpc
      exact fun _ => ⟨hidx, Ne.symm hne⟩
    | _ => trivial

/-- **One thread that switches does not deadlock**, whatever prints beside it. -/
theorem one_switcher_not_deadlocked (clear : Int) (screenOf : T → Fin N) (d : T)
    (console : Screen W H) (screens : Fin N → Screen W H) (idx : Fin N) (es : List (Event T))
    (s : State T W H N) (hone : ∀ t n, .call t (.setScreen n) ∈ es → t = d)
    (hs : Lts.exec (Console.step clear screenOf) (start console screens idx) es = some s) :
    ¬ s.Deadlocked := by
  have hcalls : ∀ e ∈ es, CallOk d (fun _ => True) e := callOk_of_mem hone fun _ _ _ => trivial
  obtain ⟨_, own, ord, now, hfree⟩ := Lts.exec_inv_along (fun _ e => CallOk d (fun _ => True) e)
    (fun s => Isolated clear screenOf d (fun _ => True)
      (start console screens idx : State T W H N).logical s ∧ ∃ own ord now, FreeInv s own ord now)
    (fun _ e _ ⟨h, _, _, _, hfree⟩ hcall hstep =>
      ⟨h.step hcall hstep, hfree.step (h.stepOk e) hstep⟩)
    ⟨isolated_start console screens idx, _, _, _, freeInv_start console screens idx⟩
    (Lts.along_of_forall hcalls _) hs
  exact hfree.not_deadlocked

/-- **The screens are isolated from each other and from switching.**  Thread `d` is the only one
that calls `scr_set_screen`.  In every state reached, a screen whose `cons_buffer_lock` nobody
holds has the logical state that the operations of its own threads that got the lock, in that
order, give on a stand-alone console; and it is as it was in any earlier state in which its lock
was free, if none of them got it since.  The next access of an operation is inside its buffer, if
the cursors start inside and the arguments are in range. -/
theorem screens_isolated (clear : Int) (screenOf : T → Fin N) (d : T) (console : Screen W H)
    (screens : Fin N → Screen W H) (idx : Fin N) (es : List (Event T)) (s : State T W H N)
    (hone : ∀ t n, .call t (.setScreen n) ∈ es → t = d)
    (hs : Lts.exec (Console.step clear screenOf) (start console screens idx) es = some s) :
    (∀ k, (∀ e ∈ s.hist k, screenOf e.1 = k) ∧ (s.BufferFree k →
      runOps clear ((s.hist k).map Prod.snd)
        ((start console screens idx : State T W H N).logical k) = some (s.logical k))) ∧
    (∀ pre post s₀, es = pre ++ post →
      Lts.exec (Console.step clear screenOf) (start console screens idx) pre = some s₀ →
      ∀ k, s₀.BufferFree k → s.BufferFree k → s.hist k = s₀.hist k →
        s.logical k = s₀.logical k) ∧
    (0 < W → 2 ≤ H → console.Bounded → (∀ k, (screens k).Bounded) →
      (∀ t op, .call t (.op op) ∈ es → op.InRange W H) →
      ∀ t n op b p, s.pc t = .body n op b p →
        (∃ r, p = .ret r) ∨ ∃ q scr, p.step (s.buffer b n) = some (q, scr)) := by
  have hany : ∀ e ∈ es, CallOk d (fun _ => True) e := callOk_of_mem hone fun _ _ _ => trivial
  have h := exec_isolated hany hs
  refine ⟨fun k => ⟨fun e he => (h.mine k e he).1, h.logical_eq⟩, ?_, ?_⟩
  · rintro pre post s₀ rfl hs₀ k hfree₀ hfree hhist
    have h₀ := exec_isolated (fun e he => hany e (List.mem_append_left _ he)) hs₀
    have heq := h.logical_eq hfree
    rw [hhist, h₀.logical_eq hfree₀] at heq
    exact (Option.some.inj heq).symm
  · intro hW hH hconsole hscreens hops t n op b p hpc
    have h := exec_isolated (callOk_of_mem hone hops) hs
    rw [h.buffer_eq hpc]
    refine h.guarded.next (I := Screen.Bounded) ?_ ?_ (t := t) (by rw [hpc]; rfl)
    · rw [State.logical]
      split
      · exact hconsole
      · exact hscreens n
    · intro q hq scr hscr
      obtain ⟨e, he, rfl⟩ := List.mem_map.1 hq
      exact Op.ensures_prog hW hH (h.mine n e he).2 hscr

/-- Thread `false` draws `A`, thread `true` switches to the other screen, thread `false` draws `B`
    on its own screen, now in the background. -/
def drawSwitchDraw : List (Event Bool) :=
  .call false (.op (.drawChar 0 0 65 7)) :: List.replicate 8 (.run false) ++
    .call true (.setScreen 1) :: List.replicate 20 (.run true) ++
    .call false (.op (.drawChar 0 0 66 7)) :: List.replicate 8 (.run false)

theorem screens_isolated_drawn : ∃ s : State Bool 1 1 2,
    Lts.exec (Console.step 0 fun _ => 0) (start oneCell (fun _ => oneCell) 0) drawSwitchDraw =
      some s ∧
    s.hist 0 = [(false, .drawChar 0 0 65 7), (false, .drawChar 0 0 66 7)] ∧
    runOps 0 ((s.hist 0).map Prod.snd)
      ((start oneCell (fun _ => oneCell) 0 : State Bool 1 1 2).logical 0) =
        some (s.logical 0) := by
  have hone : ∀ t n, .call t (.setScreen n) ∈ drawSwitchDraw → t = true := by
    intro t n h
    simp [drawSwitchDraw] at h
    exact h.1
  refine ⟨_, rfl, rfl, ?_⟩
  apply ((screens_isolated 0 (fun _ => 0) true oneCell (fun _ => oneCell) 0 drawSwitchDraw _ hone
    rfl).1 0).2
  intro t
  cases t <;> exact List.not_mem_nil

end Timix.Console
