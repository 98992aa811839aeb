import Timix.ConsoleIsolation

/-!
# The console driver, one call after the other

What each call of the driver does when nobody disturbs it: the calls of `Timix.Console` as
functions on the console, the saved screens and `screen_idx`.

* `initScreen`, `Driver.init` — after `console_init`.
* `Driver.step` — one call of a thread bound to a screen, or of `scr_set_screen`.
* `Driver.logical` — a screen wherever it is; a switch changes none of them.

Principal result: `Driver.step_runs` (a call that is made while nobody else is inside the driver
runs to its end and has this effect).
-/

set_option autoImplicit false

namespace Timix.Console

open Prog

variable {W H N : Nat}

/-- A screen after `console_init`; `buf` is what its memory holds, `white` stands for
    `FGND_WHITE | BGND_BLACK`. -/
def initScreen (buf : Fin (W * H) → ConsChar) (white : Int) : Screen W H where
  consBuf := buf
  consCurX := 0
  consCurY := 0
  consCurState := CURSOR_STATE_VISIBLE
  consCurColor := white

/-- `console`, `screens` and `screen_idx`. -/
structure Driver (W H N : Nat) where
  console : Screen W H
  screens : Fin N → Screen W H
  screenIdx : Fin N

/-- A console operation of a thread whose `current_thread->screen` is `n`, or
    `scr_set_screen(n)`. -/
inductive DriverCall (N : Nat) where
  | op (n : Fin N) (op : Op)
  | setScreen (n : Int)

namespace Driver

/-- After `console_init`: video memory holds `video`, the memory of the screens `bufs`. -/
def init (video : Fin (W * H) → ConsChar) (bufs : Fin N → Fin (W * H) → ConsChar) (white : Int)
    (idx : Fin N) : Driver W H N where
  console := initScreen video white
  screens n := initScreen (bufs n) white
  screenIdx := idx

/-- The logical state of a screen. -/
def logical (d : Driver W H N) (k : Fin N) : Screen W H :=
  if k = d.screenIdx then d.console else d.screens k

/-- Change the buffer that `scr_lock_thread_screen` hands out for screen `n`. -/
def setBuffer (d : Driver W H N) (n : Fin N) (scr : Screen W H) : Driver W H N :=
  if n = d.screenIdx then { d with console := scr }
  else { d with screens := Function.update d.screens n scr }

/-- `save_screen`. -/
def saveScreen (d : Driver W H N) : Driver W H N :=
  { d with screens := Function.update d.screens d.screenIdx d.console }

/-- `load_screen`. -/
def loadScreen (d : Driver W H N) (n : Fin N) : Driver W H N :=
  { d with console := d.screens n }

/-- `scr_set_screen`. -/
def scrSetScreen (d : Driver W H N) (n : Int) : Option (Int × Driver W H N) :=
  if n > N then some (-EINVAL, d)
  else if n = d.screenIdx.val then some (0, d)
  else if n < 0 then none
  else if h : n.toNat < N then
    some (0, { d.saveScreen.loadScreen ⟨n.toNat, h⟩ with screenIdx := ⟨n.toNat, h⟩ })
  else none

/-- A console operation. -/
def operation (d : Driver W H N) (clear : Int) (n : Fin N) (op : Op) :
    Option (Reply × Driver W H N) :=
  if op.invalid then some (⟨-EINVAL, []⟩, d)
  else ((op.prog clear).run (d.logical n)).map fun r => (r.1, d.setBuffer n r.2)

/-- One call, with what it returns. -/
def call (clear : Int) (d : Driver W H N) : DriverCall N → Option (Reply × Driver W H N)
  | .op n op => d.operation clear n op
  | .setScreen n => (d.scrSetScreen n).map fun r => (⟨r.1, []⟩, r.2)

def step (clear : Int) (d : Driver W H N) (c : DriverCall N) : Option (Driver W H N) :=
  (d.call clear c).map Prod.snd

variable {d d' : Driver W H N} {clear : Int} {n k : Fin N} {op : Op}

theorem logical_setBuffer (d : Driver W H N) (n : Fin N) (scr : Screen W H) :
    (d.setBuffer n scr).logical = Function.update d.logical n scr := by
  funext k
  unfold setBuffer logical
  by_cases hn : n = d.screenIdx
  · rw [if_pos hn]
    by_cases hk : k = n
    · rw [hk, Function.update_self, if_pos hn]
    · rw [Function.update_of_ne hk, if_neg (hn ▸ hk), if_neg (hn ▸ hk)]
  · rw [if_neg hn]
    by_cases hk : k = n
    · rw [hk, Function.update_self, if_neg hn]
      exact Function.update_self ..
    · rw [Function.update_of_ne hk]
      dsimp only
      rw [Function.update_of_ne hk]

/-- **A switch changes no screen.** -/
theorem logical_setScreen {m : Int} {ret : Int} (h : d.scrSetScreen m = some (ret, d')) :
    d'.logical = d.logical := by
  unfold scrSetScreen at h
  split at h
  · cases h
    rfl
  split at h
  · cases h
    rfl
  split at h
  · cases h
  split at h
  · rename_i hne hpos hm
    cases h
    have hidx : (⟨m.toNat, hm⟩ : Fin N) ≠ d.screenIdx := by
      intro heq
      apply hne
      rw [← heq]
      exact (Int.toNat_of_nonneg (Int.not_lt.1 hpos)).symm
    funext k
    show (if k = _ then Function.update d.screens d.screenIdx d.console _ else
      Function.update d.screens d.screenIdx d.console k) = _
    rw [Function.update_of_ne hidx]
    unfold logical
    by_cases hk : k = ⟨m.toNat, hm⟩
    · rw [if_pos hk, if_neg (hk ▸ hidx), hk]
    · rw [if_neg hk]
      by_cases hcur : k = d.screenIdx
      · rw [if_pos hcur, hcur, Function.update_self]
      · rw [if_neg hcur, Function.update_of_ne hcur]
  · cases h

/-- What a call does to the logical screens: an operation plays its program on its own, a refused
    operation and a switch do nothing. -/
theorem step_logical {c : DriverCall N} (h : d.step clear c = some d') :
    ((∀ n op, c = .op n op → op.invalid = true) ∧ d'.logical = d.logical) ∨
      ∃ n op r scr, c = .op n op ∧
        (op.prog clear).run (d.logical n) = some (r, scr) ∧
        d'.logical = Function.update d.logical n scr := by
  obtain ⟨⟨r, _⟩, hcall, rfl⟩ := Option.map_eq_some_iff.1 h
  cases c with
  | op n op =>
    rw [call, operation] at hcall
    split at hcall
    · rename_i hinv
      cases hcall
      refine Or.inl ⟨?_, rfl⟩
      intro m o heq
      cases heq
      exact hinv
    · obtain ⟨⟨r, scr⟩, hrun, heq⟩ := Option.map_eq_some_iff.1 hcall
      cases heq
      exact Or.inr ⟨n, op, r, scr, rfl, hrun, d.logical_setBuffer n scr⟩
  | setScreen n =>
    obtain ⟨⟨ret, _⟩, hset, heq⟩ := Option.map_eq_some_iff.1 hcall
    cases heq
    exact Or.inl ⟨by simp, logical_setScreen hset⟩

end Driver

/-! ## The driver and its steps -/

section Runs

variable {T : Type} [DecidableEq T] {clear : Int} {screenOf : T → Fin N}
  {s s' u : State T W H N} {t : T}

/-- What the calls work on. -/
def State.driver (s : State T W H N) : Driver W H N := ⟨s.console, s.screens, s.screenIdx⟩

def DriverCall.call : DriverCall N → Call
  | .op _ operation => .op operation
  | .setScreen n => .setScreen n

/-- Nobody but `t` is inside the driver. -/
structure Alone (t : T) (s : State T W H N) : Prop where
  others : ∀ u ≠ t, s.pc u = .idle
  lock : ∃ own, LockInv s own

/-- Thread `t` takes some steps. -/
def Runs (clear : Int) (screenOf : T → Fin N) (t : T) (s s' : State T W H N) : Prop :=
  ∃ k, Lts.exec (step clear screenOf) s (List.replicate k (.run t)) = some s'

theorem Runs.refl (s : State T W H N) : Runs clear screenOf t s s := ⟨0, rfl⟩

theorem Runs.next (h : run clear s t = some s') (hr : Runs clear screenOf t s' u) :
    Runs clear screenOf t s u := by
  obtain ⟨k, hk⟩ := hr
  exact ⟨k + 1, Lts.exec_cons.2 ⟨s', h, hk⟩⟩

theorem Runs.trans (h : Runs clear screenOf t s s') (h' : Runs clear screenOf t s' u) :
    Runs clear screenOf t s u := by
  obtain ⟨k, hk⟩ := h
  obtain ⟨l, hl⟩ := h'
  refine ⟨k + l, ?_⟩
  rw [List.replicate_add, Lts.exec_append]
  exact ⟨s', hk, hl⟩

omit [DecidableEq T] in
theorem State.setBuffer_buffer (s : State T W H N) (b : Bool) (n : Fin N) :
    s.setBuffer b n (s.buffer b n) = s := by
  cases b
  · simp [State.setBuffer, State.buffer]
  · simp [State.setBuffer, State.buffer]

theorem State.setPc_self (s : State T W H N) {p : Pc W H N} (h : s.pc t = p) :
    s.setPc t p = s := by
  subst h
  simp [State.setPc]

theorem State.buffer_setBuffer (s : State T W H N) (b : Bool) (n : Fin N) (scr : Screen W H)
    (p : Pc W H N) : ((s.setBuffer b n scr).setPc t p).buffer b n = scr := by
  cases b
  · exact Function.update_self ..
  · rfl

theorem State.setBuffer_setBuffer (s : State T W H N) (b : Bool) (n : Fin N)
    (scr scr' : Screen W H) (p p' : Pc W H N) :
    (((s.setBuffer b n scr).setPc t p).setBuffer b n scr').setPc t p' =
      (s.setBuffer b n scr').setPc t p' := by
  cases b
  · simp [State.setBuffer, State.setPc]
  · simp [State.setBuffer, State.setPc]

/-- The accesses of an operation, from the first to the last. -/
theorem runs_accesses {n : Fin N} {op : Op} {b : Bool} {r : Reply} {scr : Screen W H}
    {p : ScrProg W H Reply} (hpc : s.pc t = .body n op b p)
    (h : p.run (s.buffer b n) = some (r, scr)) :
    Runs clear screenOf t s ((s.setBuffer b n scr).setPc t (.body n op b (.ret r))) := by
  have haccess : ∀ {p q : ScrProg W H Reply} {u : Screen W H} {s : State T W H N},
      s.pc t = .body n op b p → p.step (s.buffer b n) = some (q, u) →
      run clear s t = some ((s.setBuffer b n u).setPc t (.body n op b q)) := by
    intro p q u s hpc hstep
    unfold run
    rw [hpc]
    cases p with
    | ret a => cases hstep
    | get k => simp only [hstep]
    | set f k => simp only [hstep]
  induction p generalizing s with
  | ret a =>
    obtain ⟨rfl, rfl⟩ := Prod.mk.inj (Option.some.inj h)
    rw [s.setBuffer_buffer, s.setPc_self hpc]
    exact Runs.refl s
  | get k ih =>
    apply Runs.next (haccess hpc rfl)
    rw [← s.setBuffer_setBuffer b n (s.buffer b n) scr (.body n op b (k (s.buffer b n)))]
    apply ih
    · exact Function.update_self ..
    · rw [s.buffer_setBuffer]
      exact h
  | set f k ih =>
    rw [Prog.run] at h
    split at h
    · cases h
    · rename_i u hu
      apply Runs.next (haccess hpc (q := k) (u := u) (by rw [Prog.step, hu]; rfl))
      rw [← s.setBuffer_setBuffer b n u scr (.body n op b k)]
      apply ih
      · exact Function.update_self ..
      · rw [s.buffer_setBuffer]
        exact h

/-- `save_screen`, from its first assignment to its last. -/
theorem runs_saving {n old saved : Fin N} {todo : List (Field W H)}
    (hpc : s.pc t = .saving n old saved todo) :
    Runs clear screenOf t s ({ s with
      screens := Function.update s.screens saved (copyAll s.console todo (s.screens saved)) }.setPc
        t (.saving n old saved [])) := by
  induction todo generalizing s with
  | nil =>
    rw [copyAll, Function.update_eq_self, s.setPc_self hpc]
    exact Runs.refl s
  | cons f todo ih =>
    have hstep : run clear s t =
        some ((s.saveField saved f).setPc t (.saving n old saved todo)) := by
      unfold run
      rw [hpc]
    apply Runs.next hstep
    have hrest := ih (s := (s.saveField saved f).setPc t (.saving n old saved todo))
      (Function.update_self ..)
    simpa [State.saveField, State.setPc, copyAll] using hrest

/-- `load_screen`. -/
theorem runs_loading {n old : Fin N} {todo : List (Field W H)}
    (hpc : s.pc t = .loading n old todo) :
    Runs clear screenOf t s ({ s with
      console := copyAll (s.screens n) todo s.console }.setPc t (.loading n old [])) := by
  induction todo generalizing s with
  | nil =>
    rw [copyAll, s.setPc_self hpc]
    exact Runs.refl s
  | cons f todo ih =>
    have hstep : run clear s t = some ((s.loadField n f).setPc t (.loading n old todo)) := by
      unfold run
      rw [hpc]
    apply Runs.next hstep
    have hrest := ih (s := (s.loadField n f).setPc t (.loading n old todo))
      (Function.update_self ..)
    simpa [State.loadField, State.setPc, copyAll] using hrest

theorem Alone.step (h : Alone t s) {e : Event T} (he : e.thread = t)
    (hs : step clear screenOf s e = some s') : Alone t s' := by
  obtain ⟨own, hlock⟩ := h.lock
  obtain ⟨p, hsem⟩ := (step_move hs).semStep
  rw [he] at hsem
  refine ⟨?_, hlock.step hsem⟩
  intro u hu
  have hpc : s'.pc = Function.update s.pc t p := by
    cases hsem with
    | quiet hpc => exact hpc
    | take _ hpc => exact hpc
    | drop _ hpc => exact hpc
  rw [hpc, Function.update_of_ne hu]
  exact h.others u hu

theorem Alone.runs (h : Alone t s) (hr : Runs clear screenOf t s s') : Alone t s' := by
  obtain ⟨k, hk⟩ := hr
  induction k generalizing s with
  | zero =>
    obtain rfl : s = s' := Option.some.inj hk
    exact h
  | succ k ih =>
    obtain ⟨u, hu, hk⟩ := Lts.exec_cons.1 hk
    exact ih (h.step rfl hu) hk

/-- Semaphores that the thread itself does not hold are free. -/
theorem Alone.free (h : Alone t s) {l : Sem N} (hl : l ∉ (s.pc t).locks) : s.sem l = 1 := by
  obtain ⟨own, hlock⟩ := h.lock
  apply hlock.sem_one
  intro u
  by_cases hu : u = t
  · rwa [hu]
  · rw [h.others u hu]
    exact List.not_mem_nil

theorem Alone.pos (h : Alone t s) {p : Pc W H N} (hpc : s.pc t = p) {l : Sem N}
    (hl : l ∉ p.locks) : 0 < s.sem l := by
  rw [h.free (hpc ▸ hl)]
  decide

theorem State.setPc_pc (s : State T W H N) (p : Pc W H N) : (s.setPc t p).pc t = p :=
  Function.update_self ..

omit [DecidableEq T] in
theorem buffer_driver (s : State T W H N) (n : Fin N) :
    s.buffer (decide (n = s.screenIdx)) n = s.driver.logical n := by
  by_cases hn : n = s.screenIdx
  · rw [decide_eq_true hn]
    exact (if_pos hn).symm
  · rw [decide_eq_false hn]
    exact (if_neg hn).symm

omit [DecidableEq T] in
theorem driver_setBuffer (s : State T W H N) (n : Fin N) (scr : Screen W H) :
    (s.setBuffer (decide (n = s.screenIdx)) n scr).driver = s.driver.setBuffer n scr := by
  by_cases hn : n = s.screenIdx
  · rw [decide_eq_true hn]
    exact (if_pos hn).symm
  · rw [decide_eq_false hn]
    exact (if_neg hn).symm

omit [DecidableEq T] in
theorem rets_setBuffer (s : State T W H N) (b : Bool) (n : Fin N) (scr : Screen W H) :
    (s.setBuffer b n scr).rets = s.rets := by
  cases b <;> rfl

/-! ### From one program point to another -/

/-- Thread `t` is alone in the driver and at `p`; the driver is `d`, and `rs` has been returned. -/
structure At (t : T) (p : Pc W H N) (d : Driver W H N) (rs : List (T × Call × Reply))
    (s : State T W H N) : Prop where
  alone : Alone t s
  pc : s.pc t = p
  driver : s.driver = d
  rets : s.rets = rs

/-- From there its steps lead to another point. -/
def Leads (clear : Int) (screenOf : T → Fin N) (t : T) (p : Pc W H N) (d : Driver W H N)
    (rs : List (T × Call × Reply)) (p' : Pc W H N) (d' : Driver W H N)
    (rs' : List (T × Call × Reply)) : Prop :=
  ∀ s, At t p d rs s → ∃ u, Runs clear screenOf t s u ∧ At t p' d' rs' u

section Leads

variable {p p' p'' : Pc W H N} {d d' d'' : Driver W H N} {rs rs' rs'' : List (T × Call × Reply)}

theorem Leads.trans (h : Leads clear screenOf t p d rs p' d' rs')
    (h' : Leads clear screenOf t p' d' rs' p'' d'' rs'') :
    Leads clear screenOf t p d rs p'' d'' rs'' := by
  intro s hs
  obtain ⟨u, hsu, hu⟩ := h s hs
  obtain ⟨v, huv, hv⟩ := h' u hu
  exact ⟨v, hsu.trans huv, hv⟩

/-- Several steps. -/
theorem Leads.of_runs (h : ∀ s, At t p d rs s → ∃ u, Runs clear screenOf t s u ∧
      u.pc t = p' ∧ u.driver = d' ∧ u.rets = rs') :
    Leads clear screenOf t p d rs p' d' rs' := by
  intro s hs
  obtain ⟨u, hsu, hpc, hd, hr⟩ := h s hs
  exact ⟨u, hsu, hs.alone.runs hsu, hpc, hd, hr⟩

/-- One step. -/
theorem Leads.step (h : ∀ s, At t p d rs s → ∃ u, run clear s t = some u ∧
      u.pc t = p' ∧ u.driver = d' ∧ u.rets = rs') :
    Leads clear screenOf t p d rs p' d' rs' := by
  apply Leads.of_runs
  intro s hs
  obtain ⟨u, hrun, hu⟩ := h s hs
  exact ⟨u, Runs.next hrun (Runs.refl u), hu⟩

/-- `scr_lock_thread_screen`. -/
theorem leads_lock (n : Fin N) (op : Op) :
    Leads clear screenOf t (.waitCons n op) d rs
      (.body n op (decide (n = d.screenIdx)) (op.prog clear)) d rs := by
  have hcons : Leads clear screenOf t (.waitCons n op) d rs (.waitBuf n op) d rs := by
    apply Leads.step
    intro s hs
    refine ⟨(s.semWait (.consLock n)).setPc t (.waitBuf n op), ?_, State.setPc_pc .., hs.driver,
      hs.rets⟩
    unfold run
    rw [hs.pc]
    exact if_pos (hs.alone.pos hs.pc List.not_mem_nil)
  have hbuf : Leads clear screenOf t (.waitBuf n op) d rs (.choose n op) d rs := by
    apply Leads.step
    intro s hs
    refine ⟨((s.semWait (.consBufferLock n)).granted t n op).setPc t (.choose n op), ?_,
      State.setPc_pc .., hs.driver, hs.rets⟩
    unfold run
    rw [hs.pc]
    exact if_pos (hs.alone.pos hs.pc (by simp [Pc.locks]))
  have hchoose : Leads clear screenOf t (.choose n op) d rs
      (.body n op (decide (n = d.screenIdx)) (op.prog clear)) d rs := by
    apply Leads.step
    intro s hs
    refine ⟨s.setPc t (.body n op (decide (n = s.screenIdx)) (op.prog clear)), ?_, ?_, hs.driver,
      hs.rets⟩
    · unfold run
      rw [hs.pc]
    · rw [State.setPc_pc, ← hs.driver]
      rfl
  exact (hcons.trans hbuf).trans hchoose

/-- The accesses, and `scr_unlock_screen`. -/
theorem leads_unlock {n : Fin N} {op : Op} {r : Reply} {scr : Screen W H}
    (hrun : (op.prog clear).run (d.logical n) = some (r, scr)) :
    Leads clear screenOf t (.body n op (decide (n = d.screenIdx)) (op.prog clear)) d rs
      .idle (d.setBuffer n scr) (rs ++ [(t, .op op, r)]) := by
  have hbody : Leads clear screenOf t
      (.body n op (decide (n = d.screenIdx)) (op.prog clear)) d rs
      (.body n op (decide (n = d.screenIdx)) (.ret r)) (d.setBuffer n scr) rs := by
    apply Leads.of_runs
    intro s hs
    obtain rfl := hs.driver
    rw [← buffer_driver] at hrun
    exact ⟨_, runs_accesses hs.pc hrun, State.setPc_pc .., driver_setBuffer s n scr,
      (rets_setBuffer s _ n scr).trans hs.rets⟩
  have hret : ∀ (b : Bool) (d : Driver W H N), Leads clear screenOf t
      (.body n op b (.ret r)) d rs (.sigBuf n op r) d rs := by
    intro b d
    apply Leads.step
    intro s hs
    refine ⟨s.setPc t (.sigBuf n op r), ?_, State.setPc_pc .., hs.driver, hs.rets⟩
    unfold run
    rw [hs.pc]
  have hbuf : ∀ d : Driver W H N, Leads clear screenOf t
      (.sigBuf n op r) d rs (.sigCons n op r) d rs := by
    intro d
    apply Leads.step
    intro s hs
    refine ⟨(s.semSignal (.consBufferLock n)).setPc t (.sigCons n op r), ?_, State.setPc_pc ..,
      hs.driver, hs.rets⟩
    unfold run
    rw [hs.pc]
  have hcons : ∀ d : Driver W H N, Leads clear screenOf t (.sigCons n op r) d rs .idle d
      (rs ++ [(t, .op op, r)]) := by
    intro d
    apply Leads.step
    intro s hs
    obtain rfl := hs.rets
    refine ⟨(s.semSignal (.consLock n)).finish t (.op op) r, ?_, State.setPc_pc .., hs.driver, rfl⟩
    unfold run
    rw [hs.pc]
  exact ((hbody.trans (hret _ _)).trans (hbuf _)).trans (hcons _)

/-- `scr_set_screen` up to `save_screen`. -/
theorem leads_setLock {n : Fin N} (hne : n ≠ d.screenIdx) :
    Leads clear screenOf t (.setTest n.val) d rs (.saveIdx n d.screenIdx) d rs := by
  have htest : Leads clear screenOf t (.setTest n.val) d rs (.setOld n) d rs := by
    apply Leads.step
    intro s hs
    obtain rfl := hs.driver
    have hval : ¬ ((n.val : Int) = s.screenIdx.val) := by
      intro heq
      exact hne (Fin.ext (Int.ofNat.inj heq))
    have hn : 0 ≤ (n.val : Int) ∧ (n.val : Int).toNat < N := ⟨Int.natCast_nonneg _, n.isLt⟩
    refine ⟨s.setPc t (.setOld n), ?_, State.setPc_pc .., rfl, hs.rets⟩
    unfold run
    rw [hs.pc]
    exact (if_neg hval).trans (dif_pos hn)
  have hold : Leads clear screenOf t (.setOld n) d rs (.setWaitNew n d.screenIdx) d rs := by
    apply Leads.step
    intro s hs
    obtain rfl := hs.driver
    refine ⟨s.setPc t (.setWaitNew n s.screenIdx), ?_, State.setPc_pc .., rfl, hs.rets⟩
    unfold run
    rw [hs.pc]
  have hnew : Leads clear screenOf t (.setWaitNew n d.screenIdx) d rs
      (.setWaitOld n d.screenIdx) d rs := by
    apply Leads.step
    intro s hs
    refine ⟨(s.semWait (.consBufferLock n)).setPc t (.setWaitOld n d.screenIdx), ?_,
      State.setPc_pc .., hs.driver, hs.rets⟩
    unfold run
    rw [hs.pc]
    exact if_pos (hs.alone.pos hs.pc List.not_mem_nil)
  have hwait : Leads clear screenOf t (.setWaitOld n d.screenIdx) d rs
      (.saveIdx n d.screenIdx) d rs := by
    apply Leads.step
    intro s hs
    refine ⟨(s.semWait (.consBufferLock d.screenIdx)).setPc t (.saveIdx n d.screenIdx), ?_,
      State.setPc_pc .., hs.driver, hs.rets⟩
    unfold run
    rw [hs.pc]
    exact if_pos (hs.alone.pos hs.pc (by simpa [Pc.locks] using Ne.symm hne))
  exact ((htest.trans hold).trans hnew).trans hwait

/-- `save_screen` and `load_screen`. -/
theorem leads_copy (n old : Fin N) :
    Leads clear screenOf t (.saveIdx n old) d rs (.setIdx n old) (d.saveScreen.loadScreen n)
      rs := by
  have hidx : Leads clear screenOf t (.saveIdx n old) d rs
      (.saving n old d.screenIdx (fields W H)) d rs := by
    apply Leads.step
    intro s hs
    obtain rfl := hs.driver
    refine ⟨s.setPc t (.saving n old s.screenIdx (fields W H)), ?_, State.setPc_pc .., rfl,
      hs.rets⟩
    unfold run
    rw [hs.pc]
  have hsave : Leads clear screenOf t (.saving n old d.screenIdx (fields W H)) d rs
      (.saving n old d.screenIdx []) d.saveScreen rs := by
    apply Leads.of_runs
    intro s hs
    obtain rfl := hs.driver
    refine ⟨_, runs_saving hs.pc, State.setPc_pc .., ?_, hs.rets⟩
    rw [copyAll_fields]
    rfl
  have hnext : ∀ (saved : Fin N) (d : Driver W H N), Leads clear screenOf t
      (.saving n old saved []) d rs (.loading n old (fields W H)) d rs := by
    intro saved d
    apply Leads.step
    intro s hs
    refine ⟨s.setPc t (.loading n old (fields W H)), ?_, State.setPc_pc .., hs.driver, hs.rets⟩
    unfold run
    rw [hs.pc]
  have hload : ∀ d : Driver W H N, Leads clear screenOf t (.loading n old (fields W H)) d rs
      (.loading n old []) (d.loadScreen n) rs := by
    intro d
    apply Leads.of_runs
    intro s hs
    obtain rfl := hs.driver
    refine ⟨_, runs_loading hs.pc, State.setPc_pc .., ?_, hs.rets⟩
    rw [copyAll_fields]
    rfl
  have hdone : ∀ d : Driver W H N, Leads clear screenOf t
      (.loading n old []) d rs (.setIdx n old) d rs := by
    intro d
    apply Leads.step
    intro s hs
    refine ⟨s.setPc t (.setIdx n old), ?_, State.setPc_pc .., hs.driver, hs.rets⟩
    unfold run
    rw [hs.pc]
  exact (((hidx.trans hsave).trans (hnext _ _)).trans (hload _)).trans (hdone _)

/-- `screen_idx = n`, and the two signals. -/
theorem leads_setUnlock (n old : Fin N) :
    Leads clear screenOf t (.setIdx n old) d rs .idle { d with screenIdx := n }
      (rs ++ [(t, .setScreen n.val, ⟨0, []⟩)]) := by
  have hidx : Leads clear screenOf t (.setIdx n old) d rs (.sigOld n old)
      { d with screenIdx := n } rs := by
    apply Leads.step
    intro s hs
    obtain rfl := hs.driver
    refine ⟨State.setPc { s with screenIdx := n } t (.sigOld n old), ?_, State.setPc_pc .., rfl,
      hs.rets⟩
    unfold run
    rw [hs.pc]
  have hold : ∀ d : Driver W H N, Leads clear screenOf t (.sigOld n old) d rs (.sigNew n) d rs := by
    intro d
    apply Leads.step
    intro s hs
    refine ⟨(s.semSignal (.consBufferLock old)).setPc t (.sigNew n), ?_, State.setPc_pc ..,
      hs.driver, hs.rets⟩
    unfold run
    rw [hs.pc]
  have hnew : ∀ d : Driver W H N, Leads clear screenOf t (.sigNew n) d rs .idle d
      (rs ++ [(t, .setScreen n.val, ⟨0, []⟩)]) := by
    intro d
    apply Leads.step
    intro s hs
    obtain rfl := hs.rets
    refine ⟨(s.semSignal (.consBufferLock n)).finish t (.setScreen n.val) ⟨0, []⟩, ?_,
      State.setPc_pc .., hs.driver, rfl⟩
    unfold run
    rw [hs.pc]
  exact (hidx.trans (hold _)).trans (hnew _)

end Leads

/-- **A call that nobody disturbs** runs to its end, with the effect and the result that the
functions above give it, and leaves the thread outside the driver again. -/
theorem Driver.step_runs (h : Alone t s) (hidle : s.pc t = .idle) {c : DriverCall N}
    (hc : ∀ n op, c = .op n op → screenOf t = n) {r : Reply} {d : Driver W H N}
    (hcall : s.driver.call clear c = some (r, d)) :
    ∃ k s', Lts.exec (Console.step clear screenOf) s
        (.call t c.call :: List.replicate k (.run t)) = some s' ∧
      Alone t s' ∧ s'.pc t = .idle ∧ s'.driver = d ∧ s'.rets = s.rets ++ [(t, c.call, r)] := by
  have hend : ∀ {u : State T W H N}, Console.step clear screenOf s (.call t c.call) = some u →
      (Alone t u → ∃ s', Runs clear screenOf t u s' ∧ s'.pc t = .idle ∧ s'.driver = d ∧
        s'.rets = s.rets ++ [(t, c.call, r)]) →
      ∃ k s', Lts.exec (Console.step clear screenOf) s
          (.call t c.call :: List.replicate k (.run t)) = some s' ∧
        Alone t s' ∧ s'.pc t = .idle ∧ s'.driver = d ∧
          s'.rets = s.rets ++ [(t, c.call, r)] := by
    intro u hu hrest
    have hal : Alone t u := h.step rfl hu
    obtain ⟨s', ⟨k, hk⟩, hs'⟩ := hrest hal
    exact ⟨k, s', Lts.exec_cons.2 ⟨u, hu, hk⟩, hal.runs ⟨k, hk⟩, hs'⟩
  have hrefuse : r = ⟨-EINVAL, []⟩ → d = s.driver →
      ∃ s', Runs clear screenOf t (s.finish t c.call ⟨-EINVAL, []⟩) s' ∧ s'.pc t = .idle ∧
        s'.driver = d ∧ s'.rets = s.rets ++ [(t, c.call, r)] := by
    rintro rfl rfl
    exact ⟨_, Runs.refl _, State.setPc_pc .., rfl, rfl⟩
  have hdone : ∀ {u : State T W H N} {d' : Driver W H N} {rs : List (T × Call × Reply)},
      (∃ s', Runs clear screenOf t u s' ∧ At t .idle d' rs s') →
      ∃ s', Runs clear screenOf t u s' ∧ s'.pc t = .idle ∧ s'.driver = d' ∧ s'.rets = rs :=
    fun ⟨s', hr, hs'⟩ => ⟨s', hr, hs'.pc, hs'.driver, hs'.rets⟩
  cases c with
  | op n op =>
    rw [Driver.call, Driver.operation] at hcall
    split at hcall
    · rename_i hinv
      cases hcall
      refine hend (u := s.finish t (.op op) ⟨-EINVAL, []⟩) ?_ fun _ => hrefuse rfl rfl
      simp [Console.step, DriverCall.call, hidle, hinv]
    · rename_i hinv
      obtain ⟨⟨r', scr⟩, hrun, heq⟩ := Option.map_eq_some_iff.1 hcall
      cases heq
      refine hend (u := s.setPc t (.waitCons (screenOf t) op)) ?_ ?_
      · simp [Console.step, DriverCall.call, hidle, hinv]
      · intro hal
        have hat : At t (.waitCons n op) s.driver s.rets (s.setPc t (.waitCons (screenOf t) op)) :=
          ⟨hal, by rw [State.setPc_pc, hc n op rfl], rfl, rfl⟩
        exact hdone (((leads_lock n op).trans (leads_unlock hrun)) _ hat)
  | setScreen n =>
    obtain ⟨⟨ret, d'⟩, hset, heq⟩ := Option.map_eq_some_iff.1 hcall
    cases heq
    unfold Driver.scrSetScreen at hset
    split at hset
    · rename_i hbig
      cases hset
      refine hend (u := s.finish t (.setScreen n) ⟨-EINVAL, []⟩) ?_ fun _ => hrefuse rfl rfl
      simp [Console.step, DriverCall.call, hidle, hbig]
    rename_i hbig
    refine hend (u := s.setPc t (.setTest n)) ?_ ?_
    · simp [Console.step, DriverCall.call, hidle, hbig]
    intro hal
    split at hset
    · rename_i hsame
      cases hset
      refine ⟨(s.setPc t (.setTest n)).finish t (.setScreen n) ⟨0, []⟩,
        Runs.next ?_ (Runs.refl _), State.setPc_pc .., rfl, rfl⟩
      unfold run
      rw [State.setPc_pc]
      exact if_pos hsame
    · rename_i hother
      split at hset
      · cases hset
      split at hset
      · rename_i hpos hn
        cases hset
        obtain ⟨m, rfl⟩ : ∃ m : Fin N, n = m.val :=
          ⟨⟨n.toNat, hn⟩, (Int.toNat_of_nonneg (Int.not_lt.1 hpos)).symm⟩
        have hne : m ≠ s.screenIdx := by
          rintro rfl
          exact hother rfl
        have hat : At t (.setTest m.val) s.driver s.rets (s.setPc t (.setTest m.val)) :=
          ⟨hal, State.setPc_pc .., rfl, rfl⟩
        exact hdone ((((leads_setLock hne).trans (leads_copy m _)).trans
          (leads_setUnlock m _)) _ hat)
      · cases hset

end Runs

end Timix.Console
