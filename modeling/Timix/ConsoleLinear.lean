import Timix.Driver
import Timix.Lib.Linear

/-!
# The console is linearizable

One thread `d` calls `scr_set_screen`; any number of threads print, read and draw.  To their
callers the locks, the two places a screen can be in and the copying do not show: a call takes
effect alone, at one instant between its call and its return, and returns what it returns alone.

* `Screens` — what the callers know: the screens, wherever they are, and `screen_idx`.
* `Screens.Serves` — one call, carried out alone.
* `label` — what an event shows: a call, a return, or both.
* `Mirrors` — a list of calls and returns of the atomic console, and where the driver stands.  An
  operation takes effect with its last access, a switch with the assignment of `screen_idx`.

Principal result: `console_linearizable`.
-/

set_option autoImplicit false

namespace Timix.Console

open Prog
open Linear (Act Atomic Linearizable Status)

variable {W H N : Nat}

/-! ## The atomic console -/

structure Screens (W H N : Nat) where
  scr : Fin N → Screen W H
  current : Fin N

/-- A call on its own, what it returns and what it leaves.  An operation whose waits may be
    interrupted may also do nothing and say so. -/
inductive Screens.Serves (clear : Int) (c : Screens W H N) :
    DriverCall N → Reply → Screens W H N → Prop where
  | op {n : Fin N} {op : Op} {r : Reply} {scr : Screen W H} (hop : op.invalid = false)
      (hrun : (op.prog clear).run (c.scr n) = some (r, scr)) :
      Serves clear c (.op n op) r { c with scr := Function.update c.scr n scr }
  | interrupted {n : Fin N} {op : Op} (hop : op.invalid = false) :
      Serves clear c (.op n op) op.interrupted c
  | invalid {n : Fin N} {op : Op} (hop : op.invalid = true) :
      Serves clear c (.op n op) ⟨-EINVAL, []⟩ c
  | setScreen (n : Fin N) : Serves clear c (.setScreen n.val) ⟨0, []⟩ { c with current := n }
  | noScreen {n : Int} (hn : n > N) : Serves clear c (.setScreen n) ⟨-EINVAL, []⟩ c

/-! ## What the driver shows -/

variable {T : Type} [DecidableEq T]

/-- The call of a thread bound to screen `n`. -/
def Call.bound (n : Fin N) : Call → DriverCall N
  | .op operation => .op n operation
  | .setScreen m => .setScreen m

def Event.calls (screenOf : T → Fin N) : Event T → List (Act T (DriverCall N) Reply)
  | .call t c => [.call t (c.bound (screenOf t))]
  | .run _ | .eintr _ => []

def label (clear : Int) (screenOf : T → Fin N) (s : State T W H N) (e : Event T) :
    List (Act T (DriverCall N) Reply) :=
  match step clear screenOf s e with
  | none => []
  | some s' => e.calls screenOf ++ (s'.rets.drop s.rets.length).map fun r => .ret r.1 r.2.2

/-- How far a thread has got with its call. -/
def Pc.status : Pc W H N → Status (DriverCall N) Reply
  | .idle => .out
  | .waitCons n op | .waitBuf n op | .backOut n op | .choose n op | .body n op _ _ =>
    .pending (.op n op)
  | .sigBuf _ _ r | .sigCons _ _ r => .done r
  | .setTest n => .pending (.setScreen n)
  | .setOld n | .setWaitNew n _ | .setWaitOld n _ | .saveIdx n _ | .saving n _ _ _
  | .loading n _ _ | .setIdx n _ => .pending (.setScreen n.val)
  | .sigOld _ _ | .sigNew _ => .done ⟨0, []⟩

/-- The operation under way and what is left of it. -/
def Pc.underWay (clear : Int) :
    Pc W H N → Option (Fin N × ScrProg W H Reply × ScrProg W H Reply)
  | .choose n op => some (n, op.prog clear, op.prog clear)
  | .body n op _ p => some (n, op.prog clear, p)
  | _ => none

variable {clear : Int} {screenOf : T → Fin N} {d : T} {P : Op → Prop} {init : Fin N → Screen W H}
  {s s' : State T W H N} {t u : T} {e : Event T}

theorem label_eq {l : List (T × Call × Reply)} (hs : step clear screenOf s e = some s')
    (hrets : s'.rets = s.rets ++ l) :
    label clear screenOf s e = e.calls screenOf ++ l.map fun r => .ret r.1 r.2.2 := by
  simp [label, hs, hrets]

/-- Steps inside a call. -/
theorem label_inside (hs : step clear screenOf s (.run t) = some s') (hrets : s'.rets = s.rets) :
    label clear screenOf s (.run t) = [] :=
  label_eq (l := []) hs (by rw [hrets, List.append_nil])

/-- An operation under way holds its lock. -/
theorem Pc.underWay_locks {p : Pc W H N} {k : Fin N} {x : ScrProg W H Reply × ScrProg W H Reply}
    (h : p.underWay clear = some (k, x)) : Sem.consBufferLock k ∈ p.locks := by
  cases p with
  | choose | body =>
    cases h
    exact .head _
  | _ => cases h

/-- A refused call is one that is refused alone. -/
theorem refused_serves {c : Call} {C : Screens W H N}
    (hs : step clear screenOf s (.call t c) = some (s.finish t c ⟨-EINVAL, []⟩)) :
    C.Serves clear (c.bound (screenOf t)) ⟨-EINVAL, []⟩ C := by
  have hidle : ∀ p, p ≠ Pc.idle → s.setPc t p ≠ s.finish t c ⟨-EINVAL, []⟩ := by
    intro p hp heq
    have hpc := congrArg (fun s : State T W H N => s.pc t) heq
    exact hp (by simpa [State.setPc, State.finish] using hpc)
  cases c with
  | op op =>
    simp only [step] at hs
    split at hs
    · split at hs
      · rename_i hop
        exact .invalid hop
      · exact absurd (Option.some.inj hs) (hidle _ (by simp))
    · cases hs
  | setScreen n =>
    simp only [step] at hs
    split at hs
    · split at hs
      · rename_i hn
        exact .noScreen hn
      · exact absurd (Option.some.inj hs) (hidle _ (by simp))
    · cases hs

/-- A call that is not refused is valid. -/
theorem called_valid {op : Op}
    (hs : step clear screenOf s (.call t (.op op)) = some (s.setPc t (.waitCons (screenOf t) op))) :
    op.invalid = false := by
  simp only [step] at hs
  split at hs
  · split at hs
    · have hpc := congrArg (fun s : State T W H N => s.pc t) (Option.some.inj hs)
      simp [State.setPc, State.finish] at hpc
    · rename_i hop
      simpa using hop
  · cases hs

/-! ## Every step is a step of the atomic console -/

/-- The atomic console has shown `l` and is in `c`: the screens are those of the driver, an
    operation under way is still to take effect. -/
structure Mirrors (clear : Int) (d : T) (c₀ : Screens W H N)
    (l : List (Act T (DriverCall N) Reply)) (s : State T W H N) (c : Screens W H N) : Prop where
  atomic : Atomic (Screens.Serves clear) c₀ l c fun t => (s.pc t).status
  deferred : Deferred c.scr (s.home d) fun t => (s.pc t).underWay clear
  current : c.current = s.screenIdx
  valid : ∀ t n op, (s.pc t).status = .pending (.op n op) → op.invalid = false

variable {c₀ c c' : Screens W H N} {l l' : List (Act T (DriverCall N) Reply)}

/-- What is shared by all steps: thread `t` goes to `p`. -/
theorem Mirrors.move (h : Mirrors clear d c₀ l s c) {p : Pc W H N}
    (hupd : s'.pc = Function.update s.pc t p)
    (hatomic : Atomic (Screens.Serves clear) c₀ l' c'
      (Function.update (fun u => (s.pc u).status) t p.status))
    (hdeferred : Deferred c'.scr (s'.home d)
      (Function.update (fun u => (s.pc u).underWay clear) t (p.underWay clear)))
    (hcurrent : c'.current = s'.screenIdx)
    (hvalid : ∀ n op, p.status = .pending (.op n op) → op.invalid = false) :
    Mirrors clear d c₀ l' s' c' where
  atomic := by
    have hstatus : (fun u => (s'.pc u).status) =
        Function.update (fun u => (s.pc u).status) t p.status := by
      rw [hupd]
      exact Function.comp_update Pc.status s.pc t p
    rwa [hstatus]
  deferred := by
    have hunder : (fun u => (s'.pc u).underWay clear) =
        Function.update (fun u => (s.pc u).underWay clear) t (p.underWay clear) := by
      rw [hupd]
      exact Function.comp_update (Pc.underWay clear) s.pc t p
    rwa [hunder]
  current := hcurrent
  valid u n op hu := by
    rw [hupd] at hu
    by_cases hut : u = t
    · subst hut
      rw [Function.update_self] at hu
      exact hvalid n op hu
    · rw [Function.update_of_ne hut] at hu
      exact h.valid u n op hu

/-- A step that changes no screen and begins and ends no operation on one. -/
theorem Mirrors.beside (h : Mirrors clear d c₀ l s c) {p p' : Pc W H N} (hpc : s.pc t = p')
    (hupd : s'.pc = Function.update s.pc t p) (hhome : s'.home d = s.home d)
    (hunder : p.underWay clear = p'.underWay clear) (hidx : s'.screenIdx = s.screenIdx)
    (hatomic : Atomic (Screens.Serves clear) c₀ l' c
      (Function.update (fun u => (s.pc u).status) t p.status))
    (hvalid : ∀ n op, p.status = .pending (.op n op) → op.invalid = false) :
    Mirrors clear d c₀ l' s' c := by
  refine h.move hupd hatomic ?_ (h.current.trans hidx.symm) hvalid
  rw [hhome, hunder, ← hpc, Function.update_eq_self]
  exact h.deferred

/-- A step that nobody sees. -/
theorem Mirrors.unseen (h : Mirrors clear d c₀ l s c) {p p' : Pc W H N} (hpc : s.pc t = p')
    (hupd : s'.pc = Function.update s.pc t p) (hhome : s'.home d = s.home d)
    (hunder : p.underWay clear = p'.underWay clear) (hidx : s'.screenIdx = s.screenIdx)
    (hstatus : p.status = p'.status) : Mirrors clear d c₀ (l ++ []) s' c := by
  have hsame : Function.update (fun u => (s.pc u).status) t p.status =
      fun u => (s.pc u).status := by
    rw [hstatus, ← hpc]
    exact Function.update_eq_self ..
  refine h.beside hpc hupd hhome hunder hidx ?_ ?_
  · rw [hsame, List.append_nil]
    exact h.atomic
  · intro n op hp
    exact h.valid t n op (by rw [hpc, ← hstatus, hp])

/-- An operation reaches its first access with the screens as they were. -/
theorem Mirrors.begins (h : Mirrors clear d c₀ l s c) (hi : Isolated clear screenOf d P init s)
    {n : Fin N} {op : Op} (hpc : s.pc t = .waitBuf n op)
    (hfree : 0 < s.sem (.consBufferLock n)) :
    Mirrors clear d c₀ (l ++ [])
      (((s.semWait (.consBufferLock n)).granted t n op).setPc t (.choose n op)) c := by
  have hhome : (((s.semWait (.consBufferLock n)).granted t n op).setPc t (.choose n op)).home d =
      s.home d := home_same ⟨rfl, rfl, rfl⟩ hpc rfl rfl
  obtain ⟨own, hown⟩ := hi.lock
  have hnone := hown.free hfree
  have hstatus : (s.pc t).status = .pending (.op n op) := by rw [hpc]; rfl
  refine h.move rfl ?_ ?_ h.current ?_
  · show Atomic _ c₀ _ c (Function.update _ t (Status.pending (DriverCall.op n op)))
    rw [List.append_nil, ← hstatus, Function.update_eq_self (f := fun u => (s.pc u).status)]
    exact h.atomic
  · rw [hhome]
    refine h.deferred.enter ?_ (by rw [hpc]; rfl) (op.prog clear)
    intro u x hu
    rw [hown.own_eq (Pc.underWay_locks hu)] at hnone
    cases hnone
  · intro m o heq
    cases heq
    exact h.valid t n op hstatus

/-- An access goes unseen. -/
theorem Mirrors.access (h : Mirrors clear d c₀ l s c) (hi : Isolated clear screenOf d P init s)
    {n : Fin N} {op : Op} {b : Bool} {p q : ScrProg W H Reply} {scr : Screen W H}
    (hpc : s.pc t = .body n op b p) (hstep : p.step (s.buffer b n) = some (q, scr)) :
    Mirrors clear d c₀ (l ++ []) ((s.setBuffer b n scr).setPc t (.body n op b q)) c := by
  have hstatus : (s.pc t).status = .pending (.op n op) := by rw [hpc]; rfl
  refine h.move (setBuffer_pc ..) ?_ ?_ ?_ ?_
  · show Atomic _ c₀ _ c (Function.update _ t (Status.pending (DriverCall.op n op)))
    rw [List.append_nil, ← hstatus, Function.update_eq_self (f := fun u => (s.pc u).status)]
    exact h.atomic
  · rw [hi.home_access hpc q scr]
    rw [hi.buffer_eq hpc] at hstep
    exact h.deferred.access (by rw [hpc]; rfl) hstep
  · exact h.current.trans (setBuffer_screenIdx s b n scr).symm
  · intro m o heq
    cases heq
    exact h.valid t n op hstatus

/-- **After its last access the operation takes effect.** -/
theorem Mirrors.effect (h : Mirrors clear d c₀ l s c) {n : Fin N} {op : Op} {b : Bool} {r : Reply}
    (hpc : s.pc t = .body n op b (.ret r)) :
    ∃ c', Mirrors clear d c₀ (l ++ []) (s.setPc t (.sigBuf n op r)) c' := by
  have hhome : (s.setPc t (.sigBuf n op r)).home d = s.home d :=
    home_same ⟨rfl, rfl, rfl⟩ hpc rfl rfl
  have hstatus : (s.pc t).status = .pending (.op n op) := by rw [hpc]; rfl
  have hunder : (s.pc t).underWay clear = some (n, op.prog clear, .ret r) := by rw [hpc]; rfl
  obtain ⟨hrun, hdeferred⟩ := h.deferred.leave hunder
  refine ⟨{ c with scr := Function.update c.scr n (s.home d n) }, h.move rfl ?_ ?_ h.current ?_⟩
  · rw [List.append_nil]
    exact h.atomic.effect hstatus (.op (h.valid t n op hstatus) hrun)
  · rw [hhome]
    exact hdeferred
  · intro m o heq
    cases heq

/-- **The assignment of `screen_idx` is the switch.** -/
theorem Mirrors.switch (h : Mirrors clear d c₀ l s c) (hi : Isolated clear screenOf d P init s)
    {n old : Fin N} (hpc : s.pc t = .setIdx n old) :
    Mirrors clear d c₀ (l ++ []) ({ s with screenIdx := n }.setPc t (.sigOld n old))
      { c with current := n } := by
  have hstatus : (s.pc t).status = .pending (.setScreen n.val) := by rw [hpc]; rfl
  have hunder : (s.pc t).underWay clear = none := by rw [hpc]; rfl
  obtain ⟨rfl, -, -, hdone⟩ := hi.at_pc hpc
  refine h.move rfl ?_ ?_ rfl ?_
  · rw [List.append_nil]
    exact h.atomic.effect hstatus (.setScreen n)
  · rw [home_setIdx hpc hdone]
    show Deferred c.scr _ (Function.update _ t none)
    rw [← hunder, Function.update_eq_self (f := fun u => (s.pc u).underWay clear)]
    exact h.deferred
  · intro m o heq
    cases heq

/-- **One step.** -/
theorem Mirrors.step (h : Mirrors clear d c₀ l s c) (hi : Isolated clear screenOf d P init s)
    (hs : Console.step clear screenOf s e = some s') :
    ∃ c', Mirrors clear d c₀ (l ++ label clear screenOf s e) s' c' := by
  cases step_move hs with
  | callOp t op hpc =>
    rw [label_eq (l := []) hs (List.append_nil _).symm]
    refine ⟨c, h.beside hpc rfl (home_same ⟨rfl, rfl, rfl⟩ hpc rfl rfl) rfl rfl ?_ ?_⟩
    · exact h.atomic.call (.op (screenOf t) op) (by rw [hpc]; rfl)
    · intro n o heq
      cases heq
      exact called_valid hs
  | callSet t n hpc =>
    rw [label_eq (l := []) hs (List.append_nil _).symm]
    refine ⟨c, h.beside hpc rfl (home_same ⟨rfl, rfl, rfl⟩ hpc rfl rfl) rfl rfl ?_ ?_⟩
    · exact h.atomic.call (.setScreen n) (by rw [hpc]; rfl)
    · intro m o heq
      cases heq
  | refuse t a hpc =>
    rw [label_eq (l := [(t, a, ⟨-EINVAL, []⟩)]) hs rfl]
    refine ⟨c, h.beside hpc rfl (home_same ⟨rfl, rfl, rfl⟩ hpc rfl rfl) rfl rfl ?_ ?_⟩
    · have hcall := h.atomic.call (p := t) (a.bound (screenOf t)) (by rw [hpc]; rfl)
      have hret := hcall.effect_ret (p := t) (Function.update_self ..) (refused_serves hs)
      rwa [Function.update_idem, List.append_assoc] at hret
    · intro m o heq
      cases heq
  | @intrCons t n op hpc =>
    have hstatus : (s.pc t).status = .pending (.op n op) := by rw [hpc]; rfl
    rw [label_eq (l := [(t, .op op, op.interrupted)]) hs rfl]
    refine ⟨c, h.beside hpc rfl (home_same ⟨rfl, rfl, rfl⟩ hpc rfl rfl) rfl rfl ?_ ?_⟩
    · exact h.atomic.effect_ret hstatus (.interrupted (h.valid t n op hstatus))
    · intro m o heq
      cases heq
  | @backOut t n op hpc =>
    have hstatus : (s.pc t).status = .pending (.op n op) := by rw [hpc]; rfl
    rw [label_eq (l := [(t, .op op, op.interrupted)]) hs rfl]
    refine ⟨c, h.beside hpc rfl (home_same ⟨rfl, rfl, rfl⟩ hpc rfl rfl) rfl rfl ?_ ?_⟩
    · exact h.atomic.effect_ret hstatus (.interrupted (h.valid t n op hstatus))
    · intro m o heq
      cases heq
  | @sigCons t n op r hpc =>
    rw [label_eq (l := [(t, .op op, r)]) hs rfl]
    refine ⟨c, h.beside hpc rfl (home_same ⟨rfl, rfl, rfl⟩ hpc rfl rfl) rfl rfl ?_ ?_⟩
    · exact h.atomic.ret (by rw [hpc]; rfl)
    · intro m o heq
      cases heq
  | @setSame t n hpc hn =>
    subst hn
    rw [label_eq (l := [(t, .setScreen s.screenIdx.val, ⟨0, []⟩)]) hs rfl]
    refine ⟨c, h.beside hpc rfl (home_same ⟨rfl, rfl, rfl⟩ hpc rfl rfl) rfl rfl ?_ ?_⟩
    · have hserves : c.Serves clear (.setScreen s.screenIdx.val) ⟨0, []⟩ c := by
        have hset : c.Serves clear (.setScreen c.current.val) ⟨0, []⟩ c := .setScreen c.current
        rwa [h.current] at hset
      exact h.atomic.effect_ret (by rw [hpc]; rfl) hserves
    · intro m o heq
      cases heq
  | @sigNew t n hpc =>
    rw [label_eq (l := [(t, .setScreen n.val, ⟨0, []⟩)]) hs rfl]
    refine ⟨c, h.beside hpc rfl (home_same ⟨rfl, rfl, rfl⟩ hpc rfl rfl) rfl rfl ?_ ?_⟩
    · exact h.atomic.ret (by rw [hpc]; rfl)
    · intro m o heq
      cases heq
  | intrBuf hpc =>
    rw [label_eq (l := []) hs (List.append_nil _).symm]
    exact ⟨c, h.unseen hpc rfl (home_same ⟨rfl, rfl, rfl⟩ hpc rfl rfl) rfl rfl rfl⟩
  | lockCons hpc hfree | sigBuf hpc | setTest hpc _ | setOld hpc | setWaitNew hpc hfree
  | setWaitOld hpc hfree | saveIdx hpc | loadEnd hpc | sigOld hpc =>
    rw [label_inside hs rfl]
    exact ⟨c, h.unseen hpc rfl (home_same ⟨rfl, rfl, rfl⟩ hpc rfl rfl) rfl rfl rfl⟩
  | lockBuf hpc hfree =>
    rw [label_inside hs rfl]
    exact ⟨c, h.begins hi hpc hfree⟩
  | @choose t n op hpc =>
    rw [label_inside hs rfl]
    exact ⟨c, h.unseen hpc rfl (home_same ⟨rfl, rfl, rfl⟩ hpc rfl rfl) rfl rfl rfl⟩
  | @access t n op b p q scr hpc hstep =>
    rw [label_inside hs (by cases b <;> rfl)]
    exact ⟨c, h.access hi hpc hstep⟩
  | bodyEnd hpc =>
    rw [label_inside hs rfl]
    exact h.effect hpc
  | saveField hpc =>
    rw [label_inside hs rfl]
    obtain ⟨rfl, hidx, -, rfl, -⟩ := hi.at_pc hpc
    exact ⟨c, h.unseen hpc rfl (home_saveField hpc hidx) rfl rfl rfl⟩
  | saveEnd hpc =>
    rw [label_inside hs rfl]
    obtain ⟨rfl, hidx, -, rfl, hdone⟩ := hi.at_pc hpc
    exact ⟨c, h.unseen hpc rfl (home_saveEnd hpc hidx hdone) rfl rfl rfl⟩
  | loadField hpc =>
    rw [label_inside hs rfl]
    obtain ⟨rfl, -, -, -⟩ := hi.at_pc hpc
    exact ⟨c, h.unseen hpc rfl (home_loadField hpc) rfl rfl rfl⟩
  | setIdx hpc =>
    rw [label_inside hs rfl]
    exact ⟨_, h.switch hi hpc⟩

/-! ## Runs -/

theorem mirrors_start (clear : Int) (d : T) (console : Screen W H) (screens : Fin N → Screen W H)
    (idx : Fin N) :
    Mirrors clear d ⟨(start console screens idx : State T W H N).logical, idx⟩ []
      (start console screens idx) ⟨(start console screens idx : State T W H N).logical, idx⟩ where
  atomic := .start
  deferred := deferred_init _
  current := rfl
  valid _ _ _ h := by cases h

/-- While nobody holds its lock, a screen is what the atomic console says. -/
theorem Mirrors.logical_eq (h : Mirrors clear d c₀ l s c) (hi : Isolated clear screenOf d P init s)
    {k : Fin N} (hk : s.BufferFree k) : c.scr k = s.logical k := by
  rw [h.deferred.quiet k fun t x hx => hk t (Pc.underWay_locks hx)]
  exact hi.home_eq fun _ => hk d

/-- The atomic console at the end of a run. -/
theorem mirrors_of_exec {console : Screen W H} {screens : Fin N → Screen W H} {idx : Fin N}
    {es : List (Event T)} (hone : ∀ t n, .call t (.setScreen n) ∈ es → t = d)
    (hs : Lts.exec (Console.step clear screenOf) (start console screens idx) es = some s) :
    Isolated clear screenOf d (fun _ => True)
      (start console screens idx : State T W H N).logical s ∧
    ∃ c, Mirrors clear d ⟨(start console screens idx : State T W H N).logical, idx⟩
      (Lts.trace (Console.step clear screenOf) (label clear screenOf)
        (start console screens idx) es) s c := by
  have hcalls : ∀ e ∈ es, CallOk d (fun _ => True) e := callOk_of_mem hone fun _ _ _ => trivial
  obtain ⟨hi, c, h⟩ := Lts.exec_inv_trace_along (fun _ e => CallOk d (fun _ => True) e)
    (I := fun s l => Isolated clear screenOf d (fun _ => True)
      (start console screens idx : State T W H N).logical s ∧
      ∃ c, Mirrors clear d ⟨(start console screens idx : State T W H N).logical, idx⟩ l s c)
    (fun _ _ _ _ ⟨hi, _, h⟩ hcall hstep => ⟨hi.step hcall hstep, h.step hi hstep⟩)
    ⟨isolated_start console screens idx, _, mirrors_start clear d console screens idx⟩
    (Lts.along_of_forall hcalls _) hs
  rw [List.nil_append] at h
  exact ⟨hi, c, h⟩

/-- **The console is linearizable.**  Thread `d` is the only one that calls `scr_set_screen`.
Whatever the interleaving of the accesses, the calls of all threads and what they return are those
of a console that carries every call out alone, at one instant between its call and its return; its
current screen is `screen_idx`, and its screens are the logical screens wherever nobody holds the
`cons_buffer_lock`. -/
theorem console_linearizable (clear : Int) (screenOf : T → Fin N) (d : T) (console : Screen W H)
    (screens : Fin N → Screen W H) (idx : Fin N) (es : List (Event T)) (s : State T W H N)
    (hone : ∀ t n, .call t (.setScreen n) ∈ es → t = d)
    (hs : Lts.exec (Console.step clear screenOf) (start console screens idx) es = some s) :
    ∃ c : Screens W H N,
      Linearizable (Screens.Serves clear)
        ⟨(start console screens idx : State T W H N).logical, idx⟩
        (Lts.trace (Console.step clear screenOf) (label clear screenOf)
          (start console screens idx) es) c ∧
      c.current = s.screenIdx ∧ ∀ k, s.BufferFree k → c.scr k = s.logical k := by
  obtain ⟨hi, c, h⟩ := mirrors_of_exec hone hs
  exact ⟨c, ⟨_, h.atomic⟩, h.current, fun k => h.logical_eq hi⟩

/-- Thread `t` asks for the character of a cell, `u` switches to the other screen and `w` draws the
    cell, all at the same time. -/
def readDrawSwitch {T : Type} (t u w : T) : List (Event T) :=
  [.call t (.op (.getChar 0 0)), .call w (.op (.drawChar 0 0 65 7)), .call u (.setScreen 1)] ++
    List.replicate 8 (.run w) ++ List.replicate 20 (.run u) ++ List.replicate 7 (.run t)

theorem readDrawSwitch_linearizable : ∃ s : State (Fin 3) 1 1 2,
    Lts.exec (Console.step 0 fun _ => 0) (start oneCell (fun _ => oneCell) 0)
      (readDrawSwitch 0 1 2) = some s ∧
    s.rets = [(2, .op (.drawChar 0 0 65 7), ⟨0, []⟩), (1, .setScreen 1, ⟨0, []⟩),
      (0, .op (.getChar 0 0), ⟨65, []⟩)] ∧
    ∃ c : Screens 1 1 2,
      Linearizable (Screens.Serves 0)
        ⟨(start oneCell (fun _ => oneCell) 0 : State (Fin 3) 1 1 2).logical, 0⟩
        (Lts.trace (Console.step 0 fun _ => 0) (label 0 fun _ => 0)
          (start oneCell (fun _ => oneCell) 0) (readDrawSwitch (0 : Fin 3) 1 2)) c ∧
      c.current = 1 := by
  have hone : ∀ t n, .call t (.setScreen n) ∈ readDrawSwitch (0 : Fin 3) 1 2 → t = 1 := by
    intro t n h
    simp [readDrawSwitch] at h
    exact h.1
  obtain ⟨c, hlin, hcur, -⟩ := console_linearizable 0 (fun _ => 0) (1 : Fin 3) oneCell
    (fun _ => oneCell) (0 : Fin 2) (readDrawSwitch 0 1 2) _ hone rfl
  exact ⟨_, rfl, rfl, c, hlin, hcur⟩

end Timix.Console
