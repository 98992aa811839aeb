import Timix.ConsoleSem
import Timix.SemCond

/-!
# The console driver down to `cond.c`

`Timix.ConsoleSem` puts the driver over `sem.c`, `Timix.SemCond` puts `sem.c` over `cond.c`.  One
over the other they are `text_console.c`, `sem.c` and `cond.c`, every thread in one of the three.

* `Stack`, `stackStep`, `stackLabel` — the three modules.
* `stack_simulates` — they refine `Timix.Console` with returns that may come later.

Principal result: `stack_linearizable`.
-/

set_option autoImplicit false

namespace Timix.Console

open Lts Linear

variable {W H N : Nat} {T : Type}

/-! ## The three modules -/

/-- `text_console.c`, `sem.c` and `cond.c`. -/
abbrev Stack (T : Type) (W H N : Nat) :=
  Code T W H N × SemCond.Code T (Sem N) × Cond.State T (Sem N) (Sem N)

abbrev StackEvent (T : Type) (N : Nat) :=
  Event T ⊕ SemCond.Event T (Sem N) ⊕ Cond.Event T (Sem N) (Sem N)

variable [DecidableEq T]

def stackStep (clear : Int) (screenOf : T → Fin N) :
    Stack T W H N → StackEvent T N → Option (Stack T W H N) :=
  (driver clear screenOf).over SemCond.codeStep SemCond.codeLabel

def stackLabel (clear : Int) (screenOf : T → Fin N) :
    Stack T W H N → StackEvent T N → List (Act T (DriverCall N) Reply) :=
  (driver clear screenOf).overLabel SemCond.codeLabel

/-- After `console_init`. -/
def stackStart (console : Screen W H) (screens : Fin N → Screen W H) (idx : Fin N) :
    Stack T W H N :=
  (⟨start console screens idx, fun _ => false⟩, SemCond.codeStart fun _ => 1, Cond.initial)

/-! ## What the console holds -/

variable {clear : Int} {screenOf : T → Fin N} {s c : State T W H N} {t : T} {e : Event T}

omit [DecidableEq T] in
theorem Alike.logical (h : Alike s c) : c.logical = s.logical := by
  funext k
  simp only [State.logical, h.screenIdx, h.console, h.screens]

/-- The caller of a signal holds less than it did. -/
theorem Pc.ahead_locks (p : Pc W H N) (b : Bool) : (p.ahead b).1.locks ⊆ p.locks := by
  cases b with
  | false => exact fun _ hl => hl
  | true => cases p <;> simp [Pc.ahead, Pc.locks]

/-- Calls are shown when they are made. -/
theorem call_mem_label {a : DriverCall N} (h : .call t a ∈ label clear screenOf s e) :
    ∃ b : Call, e = .call t b ∧ b.bound (screenOf t) = a := by
  unfold label at h
  split at h
  · cases h
  · rcases List.mem_append.1 h with h | h
    · cases e with
      | call u b =>
        simp only [Event.calls, List.mem_singleton, Act.call.injEq] at h
        obtain ⟨rfl, rfl⟩ := h
        exact ⟨b, rfl, rfl⟩
      | run u | eintr u => cases h
    · obtain ⟨r, -, hr⟩ := List.mem_map.1 h
      cases hr

theorem bound_eq_setScreen {b : Call} {k : Fin N} {n : Int}
    (h : b.bound k = (.setScreen n : DriverCall N)) : b = .setScreen n := by
  cases b <;> cases h
  rfl

section Stack

variable [Fintype T]

omit [Fintype T] in
/-- A `scr_set_screen` that is seen has been called. -/
theorem setScreen_mem {es : List (StackEvent T N)} {x : Stack T W H N} {n : Int}
    (h : .call t (.setScreen n) ∈
      trace (stackStep clear screenOf) (stackLabel clear screenOf) x es) :
    .inl (.call t (.setScreen n)) ∈ es := by
  obtain ⟨e, he, ⟨s, o⟩, hlab⟩ := mem_trace h
  cases e with
  | inl e =>
    obtain ⟨b, rfl, hb⟩ := call_mem_label (s := s.con) hlab
    rwa [bound_eq_setScreen hb] at he
  | inr d =>
    -- the modules below bring the driver returns, and no calls
    obtain ⟨act, -, s', hact⟩ := mem_trace (show _ ∈ trace (driver clear screenOf).accept
      (driver clear screenOf).shows s (SemCond.codeLabel o d) from hlab)
    cases act with
    | call u a => cases hact
    | ret u r =>
      obtain ⟨b, hb, -⟩ := call_mem_label (s := s'.con) hact
      unfold answer at hb
      split at hb <;> cases hb

theorem stack_simulates (hthreads : Fintype.card T ≤ 2 ^ 31) (clear : Int) (screenOf : T → Fin N) :
    Simulates (stackStep (W := W) (H := H) clear screenOf) (stackLabel clear screenOf)
      (fun e => ∀ d, e = .inr d → ∀ f, d = .inr f → ∀ t, f ≠ .eintr t)
      (lateStep clear screenOf) (lateLabel clear screenOf)
      fun x y => ∃ z, (x.1 = z.1 ∧ SemCond.Above x.2 z.2) ∧ Counted z y :=
  (SemCond.code_simulates.over (driver clear screenOf)).trans
    (simulates hthreads clear screenOf)

/-- **The console is linearizable down to `cond.c`.**  Thread `d` is the only one that calls
`scr_set_screen`, and no sleep fails.  Whatever the interleaving of the steps of the driver, of
`sem.c` and of `cond.c`, and whoever is interrupted by `cond_interrupt` while it waits: the calls of
all threads and what they return are those of a console that carries every call out alone, at one
instant between its call and its return; its current screen is `screen_idx`, and its screens are
the logical screens wherever nobody holds the `cons_buffer_lock`.  There are no more threads than
`sem_count` can count below zero. -/
theorem stack_linearizable (hthreads : Fintype.card T ≤ 2 ^ 31) (clear : Int)
    (screenOf : T → Fin N) (d : T) (console : Screen W H) (screens : Fin N → Screen W H)
    (idx : Fin N) {es : List (StackEvent T N)}
    {x : Stack T W H N} (hone : ∀ t n, .inl (.call t (.setScreen n)) ∈ es → t = d)
    (hes : ∀ e ∈ es, ∀ t, e ≠ .inr (.inr (.eintr t)))
    (h : exec (stackStep clear screenOf) (stackStart console screens idx) es = some x) :
    ∃ c : Screens W H N,
      Linearizable (Screens.Serves clear)
        ⟨(start console screens idx : State T W H N).logical, idx⟩
        (trace (stackStep clear screenOf) (stackLabel clear screenOf)
          (stackStart console screens idx) es) c ∧
      c.current = x.1.con.screenIdx ∧
      ∀ k, x.1.con.BufferFree k → c.scr k = x.1.con.logical k := by
  have hok : ∀ e ∈ es, ∀ d, e = .inr d → ∀ f, d = .inr f → ∀ t, f ≠ .eintr t := by
    rintro e he d rfl f rfl t rfl
    exact hes _ he t rfl
  obtain ⟨⟨b, s⟩, ⟨ds, hds, htrace⟩, ⟨z, m⟩, ⟨rfl, -⟩, hx⟩ :=
    (stack_simulates hthreads clear screenOf).refines ⟨codeStart console screens idx,
      ⟨rfl, SemCond.above_start _⟩, counted_start console screens idx⟩ hok h
  obtain ⟨fs, hfs, hpost⟩ := postponed_of_exec hds
  rw [htrace] at hpost
  -- the calls of `scr_set_screen` are the same
  have hone' : ∀ t n, .call t (.setScreen n) ∈ fs → t = d := by
    intro t n hmem
    refine hone t n (setScreen_mem (hpost.mem_call.1 (mem_trace_of_mem hmem ?_ hfs)))
    intro m m' hm
    simp only [label, hm]
    exact List.mem_append_left _ List.mem_cons_self
  obtain ⟨hi, c, hc⟩ := mirrors_of_exec hone' hfs
  refine ⟨c, hpost.linearizable ⟨_, hc.atomic⟩, hc.current.trans hx.alike.screenIdx, fun k hk => ?_⟩
  rw [← hx.alike.logical]
  refine hc.logical_eq hi fun t ht => hk t (Pc.ahead_locks _ (x.1.inside t) ?_)
  rwa [← hx.pc t]

end Stack

/-- Thread `t` asks for the colour of screen `m` while `u` waits to print there; `w` interrupts `u`,
    and switches to screen `n` when `t` has left. -/
def interruptSwitch {T : Type} {N : Nat} (t u w : T) (m n : Fin N) : List (StackEvent T N) :=
  let wait (v : T) (l : Sem N) : List (StackEvent T N) :=
    [.inr (.inl (.call v l .wait)), .inr (.inr (.call v (.mutexLock l))), .inr (.inr (.run v)),
      .inr (.inl (.run v)), .inr (.inl (.run v))]
  let take (v : T) (l : Sem N) : List (StackEvent T N) :=
    wait v l ++ [.inr (.inr (.call v (.mutexUnlock l)))]
  let give (v : T) (l : Sem N) : List (StackEvent T N) :=
    [.inr (.inl (.call v l .signal)), .inr (.inr (.call v (.mutexLock l))), .inr (.inr (.run v)),
      .inr (.inl (.run v)), .inr (.inr (.call v (.condSignal l))), .inr (.inr (.run v)),
      .inr (.inr (.run v)), .inr (.inr (.call v (.mutexUnlock l)))]
  [.inl (.call t (.op .getTermColor))] ++ take t (.consLock m) ++ take t (.consBufferLock m) ++
    [.inl (.call u (.op (.putbyte 65)))] ++ wait u (.consLock m) ++
    [.inr (.inr (.call u (.condWait (.consLock m) (.consLock m))))] ++
    List.replicate 7 (.inr (.inr (.run u))) ++
    [.inr (.inl (.interrupt w u)), .inr (.inr (.call w (.condInterrupt u)))] ++
    List.replicate 5 (.inr (.inr (.run w))) ++ List.replicate 5 (.inr (.inr (.run u))) ++
    [.inr (.inl (.run u)), .inr (.inr (.call u (.mutexUnlock (.consLock m))))] ++
    List.replicate 3 (.inl (.run t)) ++ give t (.consBufferLock m) ++ give t (.consLock m) ++
    [.inl (.call w (.setScreen n.val)), .inl (.run w), .inl (.run w)] ++
    take w (.consBufferLock n) ++ take w (.consBufferLock m) ++
    List.replicate 14 (.inl (.run w)) ++ give w (.consBufferLock m) ++ give w (.consBufferLock n)

theorem interruptSwitch_linearizable : ∃ x : Stack (Fin 3) 1 1 2,
    exec (stackStep 0 fun _ => 0) (stackStart oneCell (fun _ => oneCell) 0)
      (interruptSwitch 0 1 2 0 1) = some x ∧
    x.1.con.rets = [(1, .op (.putbyte 65), ⟨-EINTR, []⟩), (0, .op .getTermColor, ⟨0, [7]⟩),
      (2, .setScreen 1, ⟨0, []⟩)] ∧
    ∃ c : Screens 1 1 2,
      Linearizable (Screens.Serves 0)
        ⟨(start oneCell (fun _ => oneCell) 0 : State (Fin 3) 1 1 2).logical, 0⟩
        (trace (stackStep 0 fun _ => 0) (stackLabel 0 fun _ => 0)
          (stackStart oneCell (fun _ => oneCell) 0) (interruptSwitch (0 : Fin 3) 1 2 0 1)) c ∧
      c.current = 1 := by
  have hone : ∀ t n, .inl (.call t (.setScreen n)) ∈
      interruptSwitch (0 : Fin 3) 1 2 (0 : Fin 2) 1 → t = 2 := by
    intro t n h
    let switches : StackEvent (Fin 3) 2 → Option (Fin 3)
      | .inl (.call t (.setScreen _)) => some t
      | _ => none
    have hmem : t ∈ (interruptSwitch (0 : Fin 3) 1 2 (0 : Fin 2) 1).filterMap switches :=
      List.mem_filterMap.2 ⟨_, h, rfl⟩
    exact List.mem_singleton.1 hmem
  have hes : ∀ e ∈ interruptSwitch (0 : Fin 3) 1 2 (0 : Fin 2) 1, ∀ t,
      e ≠ .inr (.inr (.eintr t)) := by
    decide
  obtain ⟨c, hlin, hcur, -⟩ := stack_linearizable (by decide) 0 (fun _ => 0) (2 : Fin 3) oneCell
    (fun _ => oneCell) (0 : Fin 2) hone hes rfl
  exact ⟨_, rfl, rfl, c, hlin, hcur⟩

end Timix.Console
