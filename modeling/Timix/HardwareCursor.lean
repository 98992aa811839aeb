import Timix.ConsoleIsolation
import Timix.VisibleCursor

/-!
# The hardware cursor (`cursor_sync`, `drivers/text_console.c`)

The console driver of `Timix.Console` together with the display controller.  An operation that may
have moved the cursor of `console`, and a switch that has loaded another screen, call `cursor_sync`:
three reads of `console`, then four writes to the two ports of the CRTC, a step each.

* `Crtc` — an index register, and the registers it selects.  `video_defines.h` is not part of the
  repository: the indices `lsb` and `msb` of the two cursor registers are arbitrary.
* `SyncPc`, `syncStep` — `cursor_sync`; `Op.syncs` — the operations that call it on `console`.
* `Display.step` — a step of the console driver, or of a `cursor_sync` within it.
* `Pc.touches` — points at which the cursor of `console` may have moved since it was last shown; one
  thread at most is at such a point.

`console_init` does not call `cursor_sync`: until the first one is over (`synced`) the CRTC shows
whatever it showed.

Principal result: `hardware_cursor_follows`.
-/

set_option autoImplicit false

namespace Timix.Console

open Prog

variable {W H N : Nat}

/-! ## The display controller -/

/-- The index register and the registers behind `CRTC_DATA_REG`. -/
structure Crtc where
  idx : BitVec 8
  regs : BitVec 8 → BitVec 8

inductive Port where
  /-- `CRTC_IDX_REG`. -/
  | idxReg
  /-- `CRTC_DATA_REG`. -/
  | dataReg
  deriving DecidableEq, Repr

/-- `write8`. -/
def Crtc.write8 (c : Crtc) : Port → BitVec 8 → Crtc
  | .idxReg, v => { c with idx := v }
  | .dataReg, v => { c with regs := Function.update c.regs c.idx v }

/-- `GET_LSB`, as an `unsigned char`. -/
def getLsb (b : Int) : BitVec 8 := BitVec.ofInt 8 b

/-- `GET_MSB`, as an `unsigned char`. -/
def getMsb (b : Int) : BitVec 8 := BitVec.ofInt 8 (b / 256)

/-- Where the CRTC shows the cursor. -/
def Crtc.cursor (c : Crtc) (lsb msb : BitVec 8) : BitVec 16 := c.regs msb ++ c.regs lsb

/-- `idx` of `cursor_sync`. -/
def Screen.cursorIdx (s : Screen W H) : Int :=
  if s.consCurState = CURSOR_STATE_HIDDEN then termCharIndex W H W
  else termCharIndex W s.consCurY s.consCurX

/-- Where a screen wants the cursor. -/
def Screen.hwCursor (s : Screen W H) : BitVec 16 := getMsb s.cursorIdx ++ getLsb s.cursorIdx

/-! ## `cursor_sync` -/

/-- The points of `cursor_sync`. -/
inductive SyncPc where
  /-- `row = console.cons_cur_y`. -/
  | row
  /-- `col = console.cons_cur_x`. -/
  | col (row : Int)
  /-- `console.cons_cur_state == CURSOR_STATE_HIDDEN`, and `idx`. -/
  | state (row col : Int)
  /-- `write8(CRTC_IDX_REG, CRTC_CURSOR_LSB_IDX)`. -/
  | lsbIdx (idx : Int)
  | lsbData (idx : Int)
  | msbIdx (idx : Int)
  | msbData (idx : Int)
  | done
  deriving DecidableEq, Repr

def syncStep (lsb msb : BitVec 8) (console : Screen W H) (c : Crtc) : SyncPc → SyncPc × Crtc
  | .row => (.col console.consCurY, c)
  | .col row => (.state row console.consCurX, c)
  | .state row col =>
    if console.consCurState = CURSOR_STATE_HIDDEN then (.lsbIdx (termCharIndex W H W), c)
    else (.lsbIdx (termCharIndex W row col), c)
  | .lsbIdx idx => (.lsbData idx, c.write8 .idxReg lsb)
  | .lsbData idx => (.msbIdx idx, c.write8 .dataReg (getLsb idx))
  | .msbIdx idx => (.msbData idx, c.write8 .idxReg msb)
  | .msbData idx => (.done, c.write8 .dataReg (getMsb idx))
  | .done => (.done, c)

/-- The operations that end with `if (scr_is_console(buf)) cursor_sync()`. -/
def Op.syncs : Op → Bool
  | .putbyte _ | .putbytes _ | .drawChar .. | .setCursor .. | .hideCursor | .showCursor => true
  | .clearConsole | .consSetTermColor _ | .getTermColor | .getCursor | .getChar .. => false

/-- `cursor_sync` is called here. -/
def Pc.callsSync : Pc W H N → Bool
  | .body _ op onConsole (.ret _) => onConsole && op.syncs
  | .loading _ _ [] => true
  | _ => false

/-- The console driver, the CRTC, and how far the threads are inside `cursor_sync`; ghost: whether
    some `cursor_sync` is over. -/
structure Display (T : Type) (W H N : Nat) where
  con : State T W H N
  crtc : Crtc
  sync : T → Option SyncPc
  synced : Bool

variable {T : Type} [DecidableEq T]

def Display.setSync (s : Display T W H N) (t : T) (p : Option SyncPc) : Display T W H N :=
  { s with sync := Function.update s.sync t p }

/-- The next step of a thread that is to call `cursor_sync`, is inside it, or comes back. -/
def Display.syncRun (lsb msb : BitVec 8) (clear : Int) (screenOf : T → Fin N)
    (s : Display T W H N) (t : T) : Option (Display T W H N) :=
  match s.sync t with
  | none => some (s.setSync t (some .row))
  | some .done =>
    (Console.step clear screenOf s.con (.run t)).map fun con =>
      { s.setSync t none with con := con, synced := true }
  | some p =>
    let (q, crtc) := syncStep lsb msb s.con.console s.crtc p
    some { s.setSync t (some q) with crtc := crtc }

/-- One event. -/
def Display.step (lsb msb : BitVec 8) (clear : Int) (screenOf : T → Fin N) (s : Display T W H N)
    (e : Event T) : Option (Display T W H N) :=
  match e with
  | .run t =>
    if (s.con.pc t).callsSync then s.syncRun lsb msb clear screenOf t
    else (Console.step clear screenOf s.con e).map fun con => { s with con := con }
  | _ => (Console.step clear screenOf s.con e).map fun con => { s with con := con }

/-- Before the first call; the CRTC may show anything. -/
def Display.start (console : Screen W H) (screens : Fin N → Screen W H) (idx : Fin N)
    (crtc : Crtc) : Display T W H N where
  con := Console.start console screens idx
  crtc := crtc
  sync _ := none
  synced := false

/-! ## One thread at a time -/

/-- The cursor of `console` may have moved since the CRTC was told. -/
def Pc.touches : Pc W H N → Bool
  | .body _ op onConsole _ => onConsole && op.syncs
  | .loading .. => true
  | _ => false

theorem Pc.callsSync_touches {p : Pc W H N} (h : p.callsSync = true) : p.touches = true := by
  unfold Pc.callsSync at h
  split at h
  · exact h
  · rfl
  · cases h

theorem Op.plain_of_not_syncs {op : Op} (h : op.syncs = false) : op.plain = true := by
  cases op <;> first | rfl | cases h

variable {lsb msb : BitVec 8} {clear : Int} {screenOf : T → Fin N} {d : T}
  {init : Fin N → Screen W H} {c c' : State T W H N} {s s' : Display T W H N} {t u : T}

/-- Nothing is asked of the operations that are called. -/
abbrev IsolatedAny (clear : Int) (screenOf : T → Fin N) (d : T) (init : Fin N → Screen W H)
    (c : State T W H N) : Prop :=
  Isolated clear screenOf d (fun _ => True) init c

omit [DecidableEq T] in
/-- Who touches the cursor holds the lock of the current screen. -/
theorem Isolated.touches_locks (h : IsolatedAny clear screenOf d init c)
    (ht : (c.pc t).touches = true) : Sem.consBufferLock c.screenIdx ∈ (c.pc t).locks := by
  have hthread := h.thread t
  cases hpc : c.pc t with
  | body n op b p =>
    rw [hpc] at ht hthread
    obtain ⟨hb, -⟩ := Bool.and_eq_true_iff.1 ht
    have hn := of_decide_eq_true (hthread.2.symm.trans hb)
    rw [← hn]
    exact .head _
  | loading n old todo =>
    rw [hpc] at hthread
    rw [hthread.2.1]
    exact .head _
  | _ =>
    rw [hpc] at ht
    cases ht

omit [DecidableEq T] in
theorem Isolated.touches_unique (h : IsolatedAny clear screenOf d init c)
    (ht : (c.pc t).touches = true) (hu : (c.pc u).touches = true) : t = u := by
  obtain ⟨own, hlock⟩ := h.lock
  exact hlock.unique (h.touches_locks ht) (h.touches_locks hu)

/-- The operations that do not call `cursor_sync` leave the cursor alone. -/
def PlainKept (c : State T W H N) : Prop :=
  ∀ t n op b p, c.pc t = .body n op b p → op.syncs = false → Keeps Screen.cursor p

omit [DecidableEq T] in
theorem setBuffer_console (s : State T W H N) (n : Fin N) (scr : Screen W H) (b : Bool) :
    (s.setBuffer b n scr).console = if b then scr else s.console := by
  cases b <;> rfl

theorem PlainKept.step (h : PlainKept c) {e : Event T}
    (hs : Console.step clear screenOf c e = some c') : PlainKept c' := by
  have hset : ∀ {s' : State T W H N} {t : T} {p : Pc W H N},
      s'.pc = Function.update c.pc t p →
      (∀ n op b q, p = .body n op b q → op.syncs = false → Keeps Screen.cursor q) →
      PlainKept s' := by
    intro s' t p hpc hp u n op b q hu hop
    rw [hpc] at hu
    by_cases hut : u = t
    · subst hut
      rw [Function.update_self] at hu
      exact hp n op b q hu hop
    · rw [Function.update_of_ne hut] at hu
      exact h u n op b q hu hop
  cases step_move hs with
  | @choose t n op hpc =>
    refine hset rfl fun n' op' b q hq hop => ?_
    cases hq
    exact Op.keeps_cursor (Op.plain_of_not_syncs hop)
  | @access t n op b p q scr hpc haccess =>
    refine hset (setBuffer_pc ..) fun n' op' b' q' hq hop => ?_
    cases hq
    exact ((h t n op b p hpc hop).step haccess).1
  | _ => exact hset rfl fun _ _ _ _ hq => by cases hq

/-- **The cursor of `console` moves only where it is touched.** -/
theorem PlainKept.cursor (h : PlainKept c) {e : Event T}
    (hs : Console.step clear screenOf c e = some c') (hnot : (c.pc e.thread).touches = false) :
    c'.console.cursor = c.console.cursor := by
  cases step_move hs with
  | @access t n op b p q scr hpc haccess =>
    show (c.setBuffer b n scr).console.cursor = _
    rw [setBuffer_console]
    cases b with
    | false => rfl
    | true =>
      have hop : op.syncs = false := by
        rw [Event.thread, hpc] at hnot
        exact hnot
      exact ((h t n op true p hpc hop).step haccess).2
  | @loadField t n old f todo hpc =>
    rw [Event.thread, hpc] at hnot
    cases hnot
  | _ => rfl

/-- A step from a point that touches the cursor, other than `cursor_sync`, leads to another one. -/
theorem touches_of_step {e : Event T} (hs : Console.step clear screenOf c e = some c')
    (ht : (c.pc e.thread).touches = true) (hnot : (c.pc e.thread).callsSync = false) :
    (c'.pc e.thread).touches = true := by
  have hat : ∀ {s' : State T W H N} {t : T} {p : Pc W H N}, s'.pc = Function.update c.pc t p →
      p.touches = true → (s'.pc t).touches = true := by
    intro s' t p hpc hp
    rw [hpc, Function.update_self]
    exact hp
  cases step_move hs with
  | @access t n op b p q scr hpc haccess =>
    rw [Event.thread, hpc] at ht
    exact hat (setBuffer_pc ..) ht
  | @bodyEnd t n op b r hpc =>
    rw [Event.thread, hpc] at ht hnot
    exact absurd (ht.symm.trans hnot) (by decide)
  | @loadField t n old f todo hpc => exact hat rfl rfl
  | @loadEnd t n old hpc =>
    rw [Event.thread, hpc] at hnot
    cases hnot
  | callOp t op hpc | callSet t n hpc | refuse t c hpc =>
    rw [Event.thread, hpc] at ht
    cases ht
  | intrCons hpc | intrBuf hpc | lockCons hpc _ | lockBuf hpc _ | backOut hpc | choose hpc
  | sigBuf hpc | sigCons hpc | setSame hpc _ | setTest hpc _ | setOld hpc | setWaitNew hpc _
  | setWaitOld hpc _ | saveIdx hpc | saveField hpc | saveEnd hpc | setIdx hpc | sigOld hpc
  | sigNew hpc =>
    rw [Event.thread, hpc] at ht
    cases ht

/-! ## What is shown -/

/-- What a thread inside `cursor_sync` has read and written. -/
def SyncPc.Ok (lsb msb : BitVec 8) (console : Screen W H) (c : Crtc) : SyncPc → Prop
  | .row => True
  | .col y => y = console.consCurY
  | .state y x => y = console.consCurY ∧ x = console.consCurX
  | .lsbIdx idx => idx = console.cursorIdx
  | .lsbData idx => idx = console.cursorIdx ∧ c.idx = lsb
  | .msbIdx idx => idx = console.cursorIdx ∧ c.regs lsb = getLsb idx
  | .msbData idx => idx = console.cursorIdx ∧ c.regs lsb = getLsb idx ∧ c.idx = msb
  | .done => c.cursor lsb msb = console.hwCursor

theorem cursorIdx_congr {s t : Screen W H} (h : t.cursor = s.cursor) :
    t.cursorIdx = s.cursorIdx := by
  obtain ⟨hx, hyst⟩ := Prod.mk.inj h
  obtain ⟨hy, hst⟩ := Prod.mk.inj hyst
  rw [Screen.cursorIdx, Screen.cursorIdx, hx, hy, hst]

theorem hwCursor_congr {s t : Screen W H} (h : t.cursor = s.cursor) : t.hwCursor = s.hwCursor := by
  rw [Screen.hwCursor, Screen.hwCursor, cursorIdx_congr h]

theorem SyncPc.Ok.congr {console console' : Screen W H} {r : Crtc} {p : SyncPc}
    (h : p.Ok lsb msb console r) (hc : console'.cursor = console.cursor) :
    p.Ok lsb msb console' r := by
  have hidx := cursorIdx_congr hc
  have hhw := hwCursor_congr hc
  obtain ⟨hx, hyst⟩ := Prod.mk.inj hc
  obtain ⟨hy, hst⟩ := Prod.mk.inj hyst
  cases p <;> simp only [SyncPc.Ok, hidx, hhw, hx, hy] <;> exact h

/-- **A step of `cursor_sync`.** -/
theorem syncStep_ok (hne : lsb ≠ msb) {console : Screen W H} {r : Crtc} {p : SyncPc}
    (h : p.Ok lsb msb console r) :
    (syncStep lsb msb console r p).1.Ok lsb msb console (syncStep lsb msb console r p).2 := by
  cases p with
  | row => rfl
  | col row => exact ⟨h, rfl⟩
  | state row col =>
    obtain ⟨rfl, rfl⟩ := h
    by_cases hhid : console.consCurState = CURSOR_STATE_HIDDEN
    · simp only [syncStep, if_pos hhid]
      exact (if_pos hhid).symm
    · simp only [syncStep, if_neg hhid]
      exact (if_neg hhid).symm
  | lsbIdx idx => exact ⟨h, rfl⟩
  | lsbData idx =>
    obtain ⟨hidx, hreg⟩ := h
    refine ⟨hidx, ?_⟩
    show Function.update r.regs r.idx (getLsb idx) lsb = getLsb idx
    rw [hreg, Function.update_self]
  | msbIdx idx => exact ⟨h.1, h.2, rfl⟩
  | msbData idx =>
    obtain ⟨hidx, hlow, hreg⟩ := h
    simp only [SyncPc.Ok, syncStep, Crtc.cursor, Crtc.write8, Screen.hwCursor, hreg,
      Function.update_self, Function.update_of_ne hne, hlow, hidx]
  | done => exact h

/-- The invariant of the display. -/
structure DisplayInv (lsb msb : BitVec 8) (clear : Int) (screenOf : T → Fin N) (d : T)
    (init : Fin N → Screen W H) (s : Display T W H N) : Prop where
  isolated : IsolatedAny clear screenOf d init s.con
  kept : PlainKept s.con
  sync : ∀ t p, s.sync t = some p →
    (s.con.pc t).callsSync = true ∧ p.Ok lsb msb s.con.console s.crtc
  shown : s.synced = true → (∀ t, (s.con.pc t).touches = false) →
    s.crtc.cursor lsb msb = s.con.console.hwCursor

omit [DecidableEq T] in
theorem displayInv_start (console : Screen W H) (screens : Fin N → Screen W H) (idx : Fin N)
    (crtc : Crtc) :
    DisplayInv lsb msb clear screenOf d (Console.start console screens idx : State T W H N).logical
      (Display.start console screens idx crtc) where
  isolated := isolated_start console screens idx
  kept _ _ _ _ _ h := by cases h
  sync _ _ h := by cases h
  shown h := by cases h

omit [DecidableEq T] in
/-- Inside `cursor_sync` there is one thread at most. -/
theorem DisplayInv.sync_unique (h : DisplayInv lsb msb clear screenOf d init s) {p q : SyncPc}
    (ht : s.sync t = some p) (hu : s.sync u = some q) : t = u :=
  h.isolated.touches_unique (Pc.callsSync_touches (h.sync t p ht).1)
    (Pc.callsSync_touches (h.sync u q hu).1)

/-- A step inside `cursor_sync`. -/
theorem DisplayInv.inside (h : DisplayInv lsb msb clear screenOf d init s)
    (ht : (s.con.pc t).callsSync = true) {p : SyncPc} {r : Crtc}
    (hp : p.Ok lsb msb s.con.console r) :
    DisplayInv lsb msb clear screenOf d init { s.setSync t (some p) with crtc := r } where
  isolated := h.isolated
  kept := h.kept
  sync u q hu := by
    by_cases hut : u = t
    · subst hut
      replace hu : Function.update s.sync u (some p) u = some q := hu
      rw [Function.update_self] at hu
      cases hu
      exact ⟨ht, hp⟩
    · replace hu : Function.update s.sync t (some p) u = some q := hu
      rw [Function.update_of_ne hut] at hu
      exact absurd (h.isolated.touches_unique (Pc.callsSync_touches (h.sync u q hu).1)
        (Pc.callsSync_touches ht)) hut
  shown _ hno := absurd ((Pc.callsSync_touches ht).symm.trans (hno t)) (by decide)

/-- The thread of an event is the only one that it moves. -/
theorem pc_other {e : Event T} (hs : Console.step clear screenOf c e = some c')
    (hu : u ≠ e.thread) : c'.pc u = c.pc u := by
  obtain ⟨p, hsem⟩ := (step_move hs).semStep
  have hpc : c'.pc = Function.update c.pc e.thread p := by
    cases hsem <;> assumption
  rw [hpc, Function.update_of_ne hu]

/-- A step of the console driver, outside `cursor_sync` or at its end. -/
theorem DisplayInv.outside (h : DisplayInv lsb msb clear screenOf d init s) {e : Event T}
    (hcall : CallOk d (fun _ => True) e) {con : State T W H N}
    (hs : Console.step clear screenOf s.con e = some con)
    (hat : (s.con.pc e.thread).callsSync = false ∧ s' = { s with con := con } ∨
      s.sync e.thread = some .done ∧ con.console = s.con.console ∧
        s' = { s.setSync e.thread none with con := con, synced := true }) :
    DisplayInv lsb msb clear screenOf d init s' := by
  have hcon : s'.con = con := by rcases hat with ⟨-, rfl⟩ | ⟨-, -, rfl⟩ <;> rfl
  have hcrtc : s'.crtc = s.crtc := by rcases hat with ⟨-, rfl⟩ | ⟨-, -, rfl⟩ <;> rfl
  have hsyncs : ∀ u p, s'.sync u = some p → u ≠ e.thread ∧ s.sync u = some p := by
    intro u p hu
    rcases hat with ⟨hnot, rfl⟩ | ⟨-, -, rfl⟩
    · refine ⟨?_, hu⟩
      rintro rfl
      exact absurd ((h.sync _ p hu).1.symm.trans hnot) (by decide)
    · by_cases hue : u = e.thread
      · replace hu : Function.update s.sync e.thread none u = some p := hu
        rw [hue, Function.update_self] at hu
        cases hu
      · exact ⟨hue, (Function.update_of_ne hue ..).symm.trans hu⟩
  refine ⟨hcon ▸ h.isolated.step hcall hs, hcon ▸ h.kept.step hs, ?_, ?_⟩
  · intro u p hu
    obtain ⟨hue, hu⟩ := hsyncs u p hu
    obtain ⟨hpc, hok⟩ := h.sync u p hu
    rw [hcon, hcrtc, pc_other hs hue]
    -- only the thread inside `cursor_sync` touches the cursor
    have hnot : (s.con.pc e.thread).touches = false := by
      cases ht : (s.con.pc e.thread).touches with
      | false => rfl
      | true => exact absurd (h.isolated.touches_unique (Pc.callsSync_touches hpc) ht) hue
    exact ⟨hpc, hok.congr (h.kept.cursor hs hnot)⟩
  · intro hsynced hno
    rw [hcon] at hno ⊢
    rw [hcrtc]
    rcases hat with ⟨hnot, rfl⟩ | ⟨hdone, hconsole, rfl⟩
    · have hall : ∀ u, (s.con.pc u).touches = false := by
        intro u
        by_cases hue : u = e.thread
        · subst hue
          cases ht : (s.con.pc e.thread).touches with
          | false => rfl
          | true =>
            have hmoved := touches_of_step hs ht hnot
            rw [hno] at hmoved
            cases hmoved
        · rw [← pc_other hs hue]
          exact hno u
      rw [h.shown hsynced hall]
      exact (hwCursor_congr (h.kept.cursor hs (hall _))).symm
    · rw [hconsole]
      exact (h.sync _ _ hdone).2

/-- **Every step keeps the invariant.** -/
theorem DisplayInv.step (h : DisplayInv lsb msb clear screenOf d init s) (hne : lsb ≠ msb)
    {e : Event T} (hcall : CallOk d (fun _ => True) e)
    (hs : s.step lsb msb clear screenOf e = some s') :
    DisplayInv lsb msb clear screenOf d init s' := by
  have hplain : (s.con.pc e.thread).callsSync = false →
      (Console.step clear screenOf s.con e).map (fun con => { s with con := con }) = some s' →
      DisplayInv lsb msb clear screenOf d init s' := by
    intro hnot hs
    obtain ⟨con, hcon, rfl⟩ := Option.map_eq_some_iff.1 hs
    exact h.outside hcall hcon (Or.inl ⟨hnot, rfl⟩)
  have hidle : ∀ t, (∀ p, (s.con.pc t).callsSync = true → Console.step clear screenOf s.con e ≠
      some p) → e.thread = t → (Console.step clear screenOf s.con e).map
        (fun con => { s with con := con }) = some s' →
      DisplayInv lsb msb clear screenOf d init s' := by
    rintro t hstuck rfl hs
    cases hat : (s.con.pc e.thread).callsSync with
    | false => exact hplain hat hs
    | true =>
      obtain ⟨con, hcon, -⟩ := Option.map_eq_some_iff.1 hs
      exact absurd hcon (hstuck con hat)
  cases e with
  | run t =>
    simp only [Display.step] at hs
    split at hs
    case isFalse hnot => exact hplain (Bool.eq_false_iff.2 hnot) hs
    rename_i hat
    unfold Display.syncRun at hs
    split at hs
    · cases hs
      exact h.inside hat (p := .row) (r := s.crtc) trivial
    · rename_i hdone
      obtain ⟨con, hcon, rfl⟩ := Option.map_eq_some_iff.1 hs
      refine h.outside hcall hcon (Or.inr ⟨hdone, ?_, rfl⟩)
      cases step_move hcon with
      | @access t n op b p q scr hpc haccess =>
        rw [hpc] at hat
        cases p with
        | ret r => cases haccess
        | _ => cases hat
      | @loadField t n old f todo hpc =>
        rw [hpc] at hat
        cases hat
      | _ => rfl
    · rename_i p hp hsync
      cases hs
      exact h.inside hat (syncStep_ok hne (h.sync t p hsync).2)
  | call t call =>
    refine hidle t (fun con hat hcon => ?_) rfl hs
    cases step_move hcon with
    | callOp _ _ hpc | refuse _ _ hpc | callSet _ _ hpc =>
      rw [hpc] at hat
      cases hat
  | eintr t =>
    refine hidle t (fun con hat hcon => ?_) rfl hs
    cases step_move hcon with
    | intrCons hpc | intrBuf hpc =>
      rw [hpc] at hat
      cases hat

/-! ## Where the cursor is shown -/

/-- Two bytes put together are the number, up to what does not fit. -/
theorem toNat_bytes {i : Nat} (hi : i < 65536) : (getMsb i ++ getLsb i).toNat = i := by
  have hlow : (getLsb i).toNat = i % 256 := by
    rw [getLsb, BitVec.toNat_ofInt]
    omega
  have hhigh : (getMsb i).toNat = i / 256 := by
    rw [getMsb, BitVec.toNat_ofInt]
    omega
  rw [BitVec.toNat_append, hlow, hhigh, Nat.shiftLeft_eq]
  have hor := Nat.two_pow_add_eq_or_of_lt (i := 8) (b := i % 256) (by omega) (i / 256)
  rw [Nat.mul_comm, ← hor]
  omega

/-- A visible cursor on the screen is shown on its cell. -/
theorem hwCursor_visible {scr : Screen W H} (hsize : W * H ≤ 65536)
    (hvis : scr.consCurState ≠ CURSOR_STATE_HIDDEN) (hx : 0 ≤ scr.consCurX ∧ scr.consCurX < W)
    (hy : 0 ≤ scr.consCurY ∧ scr.consCurY < H) :
    (scr.hwCursor.toNat : Int) = termCharIndex W scr.consCurY scr.consCurX := by
  obtain ⟨x, hxn⟩ := Int.eq_ofNat_of_zero_le hx.1
  obtain ⟨y, hyn⟩ := Int.eq_ofNat_of_zero_le hy.1
  have hlt : y * W + x < W * H := index_lt (by omega) (by omega)
  have hidx : scr.cursorIdx = ((y * W + x : Nat) : Int) := by
    rw [Screen.cursorIdx, if_neg hvis, termCharIndex, hxn, hyn]
    push_cast
    rfl
  rw [Screen.hwCursor, hidx, toNat_bytes (by omega), ← hidx, Screen.cursorIdx, if_neg hvis]

/-- A hidden cursor is shown below the screen. -/
theorem hwCursor_hidden {scr : Screen W H} (hsize : W * H + W < 65536)
    (hhid : scr.consCurState = CURSOR_STATE_HIDDEN) : W * H ≤ scr.hwCursor.toNat := by
  have hidx : scr.cursorIdx = ((H * W + W : Nat) : Int) := by
    rw [Screen.cursorIdx, if_pos hhid, termCharIndex]
    push_cast
    rfl
  have hcomm := Nat.mul_comm W H
  rw [Screen.hwCursor, hidx, toNat_bytes (by omega)]
  omega

/-! ## Runs -/

theorem exec_displayInv (hne : lsb ≠ msb) {console : Screen W H} {screens : Fin N → Screen W H}
    {idx : Fin N} {crtc : Crtc} {es : List (Event T)}
    (hcalls : ∀ e ∈ es, CallOk d (fun _ => True) e)
    (hs : Lts.exec (Display.step lsb msb clear screenOf) (.start console screens idx crtc) es =
      some s) :
    DisplayInv lsb msb clear screenOf d (Console.start console screens idx : State T W H N).logical
      s :=
  Lts.exec_inv_along (fun _ e => CallOk d (fun _ => True) e) _
    (fun _ _ _ h hcall hstep => h.step hne hcall hstep) (displayInv_start console screens idx crtc)
    (Lts.along_of_forall hcalls _) hs

/-- **The hardware cursor follows the screen that is displayed.**  Thread `d` is the only one that
calls `scr_set_screen`, any others print.  At most one thread is inside `cursor_sync`.  Once one
`cursor_sync` is over, whenever nobody holds the `cons_buffer_lock` of the current screen the CRTC
shows the cursor where the operations on that screen, one after the other, leave it: a visible
cursor on its cell, a hidden one below the screen. -/
theorem hardware_cursor_follows (lsb msb : BitVec 8) (hne : lsb ≠ msb) (clear : Int)
    (screenOf : T → Fin N) (d : T) (console : Screen W H) (screens : Fin N → Screen W H)
    (idx : Fin N) (crtc : Crtc) (es : List (Event T)) (s : Display T W H N)
    (hone : ∀ t n, .call t (.setScreen n) ∈ es → t = d)
    (hs : Lts.exec (Display.step lsb msb clear screenOf) (.start console screens idx crtc) es =
      some s) :
    (∀ t u p q, s.sync t = some p → s.sync u = some q → t = u) ∧
    (s.synced = true → s.con.BufferFree s.con.screenIdx →
      ∃ scr, runOps clear ((s.con.hist s.con.screenIdx).map Prod.snd)
          ((Console.start console screens idx : State T W H N).logical s.con.screenIdx) =
            some scr ∧
        s.crtc.cursor lsb msb = scr.hwCursor ∧
        (W * H ≤ 65536 → scr.consCurState ≠ CURSOR_STATE_HIDDEN →
          0 ≤ scr.consCurX ∧ scr.consCurX < W → 0 ≤ scr.consCurY ∧ scr.consCurY < H →
          ((s.crtc.cursor lsb msb).toNat : Int) = termCharIndex W scr.consCurY scr.consCurX) ∧
        (W * H + W < 65536 → scr.consCurState = CURSOR_STATE_HIDDEN →
          W * H ≤ (s.crtc.cursor lsb msb).toNat)) := by
  have h := exec_displayInv (d := d) hne (callOk_of_mem hone fun _ _ _ => trivial) hs
  refine ⟨fun t u p q => h.sync_unique, ?_⟩
  intro hsynced hfree
  have hno : ∀ t, (s.con.pc t).touches = false := by
    intro t
    cases ht : (s.con.pc t).touches with
    | false => rfl
    | true => exact absurd (h.isolated.touches_locks ht) (hfree t)
  have hshown := h.shown hsynced hno
  refine ⟨_, h.isolated.logical_eq hfree, ?_⟩
  rw [State.logical, if_pos rfl, hshown]
  exact ⟨rfl, hwCursor_visible, hwCursor_hidden⟩

/-- Thread `false` hides the cursor of the displayed screen. -/
def hideDisplayed : List (Event Bool) :=
  .call false (.op .hideCursor) :: List.replicate 15 (.run false)

theorem hideDisplayed_follows : ∃ s : Display Bool 1 1 2,
    Lts.exec (Display.step 15 14 0 fun _ => 0)
      (.start oneCell (fun _ => oneCell) 0 ⟨0, fun _ => 0⟩) hideDisplayed = some s ∧
    s.synced = true ∧
    ∃ scr, runOps 0 ((s.con.hist s.con.screenIdx).map Prod.snd)
        ((Console.start oneCell (fun _ => oneCell) 0 : State Bool 1 1 2).logical s.con.screenIdx) =
          some scr ∧ s.crtc.cursor 15 14 = scr.hwCursor := by
  have hone : ∀ t n, .call t (.setScreen n) ∈ hideDisplayed → t = true := by
    intro t n h
    simp [hideDisplayed] at h
  have hrun : (Lts.exec (Display.step 15 14 0 fun _ => 0)
      (.start oneCell (fun _ => oneCell) 0 ⟨0, fun _ => 0⟩ : Display Bool 1 1 2)
        hideDisplayed).map (fun s => (s.synced, (s.con.pc false).locks, (s.con.pc true).locks)) =
      some (true, [], []) := by decide +kernel
  obtain ⟨s, hs, hend⟩ := Option.map_eq_some_iff.1 hrun
  obtain ⟨hsynced, hlocks⟩ := Prod.mk.inj hend
  obtain ⟨hfalse, htrue⟩ := Prod.mk.inj hlocks
  obtain ⟨scr, hscr, hshown, -⟩ := (hardware_cursor_follows 15 14 (by decide) 0 (fun _ => 0) true
    oneCell (fun _ => oneCell) 0 ⟨0, fun _ => 0⟩ hideDisplayed s hone hs).2 hsynced fun t => by
      cases t
      · rw [hfalse]
        exact List.not_mem_nil
      · rw [htrue]
        exact List.not_mem_nil
  exact ⟨s, hs, hsynced, scr, hscr, hshown⟩

end Timix.Console
