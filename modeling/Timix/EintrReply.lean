import Timix.Driver

/-!
# What `-EINTR` says

A console operation returns `-EINTR` if one of the two waits of `scr_lock_thread_screen` failed.
`putbyte` and `get_char` also return a character, as a signed `char`, and `(char)0xFC` is the same
number.

* `State.reply` — what the last call of a thread returned.
* `SaysEintr` — the steps that make a call return `-EINTR` with a character.
* `CallInv` — where a call stands, and what has happened in it so far.

Principal result: `eintr_reply_iff`, for every call in every run.
-/

set_option autoImplicit false

namespace Timix.Console

open Prog

variable {W H N : Nat}

/-- The operations that return an `int`. -/
def Op.replies : Op → Bool
  | .drawChar .. | .clearConsole => false
  | _ => true

variable {T : Type} [DecidableEq T]

/-- The last call that thread `t` returned from, and its reply. -/
def State.reply (s : State T W H N) (t : T) : Option (Call × Reply) :=
  ((s.rets.filter fun e => e.1 = t).getLast?).map Prod.snd

/-- The operation is `putbyte((char)0xFC)`. -/
def Op.saysEintr : Op → Prop
  | .putbyte c => c.toInt = -EINTR
  | _ => False

/-- The step calls `putbyte((char)0xFC)`, or reads this byte for `get_char`. -/
def SaysEintr (s : State T W H N) : Event T → Prop
  | .call _ (.op op) => op.saysEintr
  | .call _ (.setScreen _) | .eintr _ => False
  | .run t => ∃ n row col b k c, s.pc t = .body n (.getChar row col) b (.get k) ∧
      (s.buffer b n).cell? (termCharIndex W row col) = some c ∧ c.ccCode.toInt = -EINTR

variable {clear : Int} {screenOf : T → Fin N} {s s' : State T W H N} {t u : T} {op : Op}

/-- No step of thread `t` is one of these. -/
def Calm (clear : Int) (screenOf : T → Fin N) (t : T) (s : State T W H N) (es : List (Event T)) :
    Prop :=
  Lts.Along (step clear screenOf) (fun s e => e.thread = t → ¬ SaysEintr s e) s es

/-- No step of thread `t` changes a screen. -/
def Quiet (clear : Int) (screenOf : T → Fin N) (t : T) (s : State T W H N) (es : List (Event T)) :
    Prop :=
  Lts.Along (step clear screenOf) (fun s e => e.thread = t →
    ∀ s', step clear screenOf s e = some s' → s'.console = s.console ∧ s'.screens = s.screens) s es

theorem reply_finish (s : State T W H N) (t : T) (c : Call) (r : Reply) :
    (s.finish t c r).reply t = some (c, r) := by
  simp [State.reply, State.finish, State.setPc]

theorem finish_pc (s : State T W H N) (t : T) (c : Call) (r : Reply) :
    (s.finish t c r).pc t = .idle :=
  State.setPc_pc ..

theorem reply_finish_other (s : State T W H N) (h : u ≠ t) (c : Call) (r : Reply) :
    (s.finish u c r).reply t = s.reply t := by
  simp [State.reply, State.finish, State.setPc, h]

/-- The steps of the others do not change what a thread is told. -/
theorem Move.reply_other {e : Event T} (h : Move clear screenOf s e s') (he : e.thread ≠ t) :
    s'.reply t = s.reply t := by
  cases h with
  | refuse | intrCons | backOut | sigCons | setSame | sigNew =>
    exact reply_finish_other _ he _ _
  | @access u n op b p q scr => cases b <;> rfl
  | _ => rfl

/-! ## The value an operation returns -/

theorem yields_scrSetCursor (row col : Int) :
    Yields (fun ret => ret ≠ -EINTR) (scrSetCursor row col : ScrProg W H Int) := by
  unfold scrSetCursor
  by_cases hneg : row < 0 ∨ col < 0
  · rw [if_pos hneg]
    exact (by decide : (-1 : Int) ≠ -EINTR)
  · rw [if_neg hneg]
    by_cases hbig : row ≥ H ∨ col ≥ W
    · rw [if_pos hbig]
      exact (by decide : (-1 : Int) ≠ -EINTR)
    · rw [if_neg hbig]
      exact (by decide : (0 : Int) ≠ -EINTR)

/-- The operations but `get_char` return `-EINTR` only as `putbyte((char)0xFC)`. -/
theorem yields_prog (clear : Int) (hop : ∀ row col, op ≠ .getChar row col) :
    Yields (fun r => r.ret = -EINTR ↔ op.saysEintr) (op.prog clear : ScrProg W H Reply) := by
  cases op with
  | getChar row col => exact absurd rfl (hop row col)
  | putbyte c => exact yields_bind fun _ => Iff.rfl
  | setCursor row col =>
    exact (yields_scrSetCursor row col).bind fun ret hret => iff_of_false hret id
  | _ => exact yields_bind fun _ => iff_of_false (show (0 : Int) ≠ -EINTR by decide) id

/-- `get_char`, before its access: off the screen it returns 0 at once. -/
theorem getChar_prog (clear row col : Int) :
    ((Op.getChar row col).prog clear : ScrProg W H Reply) = .ret ⟨0, []⟩ ∨
      ∃ k, ((Op.getChar row col).prog clear : ScrProg W H Reply) = .get k ∧
        ∀ scr, Blind (k scr) ∧ Yields (fun r => r.ret = -EINTR ↔
          ∃ c, scr.cell? (termCharIndex W row col) = some c ∧ c.ccCode.toInt = -EINTR)
            (k scr) := by
  have hprog : ((Op.getChar row col).prog clear : ScrProg W H Reply) =
    (scrGetChar row col >>= fun c => pure ⟨c.toInt, []⟩) := rfl
  rw [hprog]
  unfold scrGetChar
  by_cases hout : row < 0 ∨ col < 0 ∨ row ≥ H ∨ col ≥ H
  · rw [if_pos hout]
    exact Or.inl rfl
  · rw [if_neg hout]
    refine Or.inr ⟨_, rfl, ?_⟩
    intro scr
    dsimp only
    cases hcell : scr.cell? (termCharIndex W row col) with
    | some c =>
      refine ⟨trivial, ?_, ?_⟩
      · intro hc
        exact ⟨c, rfl, hc⟩
      · rintro ⟨_, heq, hc⟩
        cases heq
        exact hc
    | none =>
      refine ⟨trivial, iff_of_false (show (0 : Int) ≠ -EINTR by decide) ?_⟩
      rintro ⟨_, heq, -⟩
      cases heq

/-! ## One call -/

/-- Where a call of `op` stands.  `intr`: one of its waits has failed; `quiet`: it has changed no
    screen; `calm`: it has not met the byte `0xFC`; `reply`: what its thread was told last. -/
def CallInv (clear : Int) (op : Op) (intr quiet calm : Prop) (reply : Option (Call × Reply)) :
    Pc W H N → Prop
  | .waitCons _ o | .waitBuf _ o => o = op ∧ ¬ intr ∧ quiet ∧ (calm ↔ ¬ op.saysEintr)
  | .backOut _ o => o = op ∧ intr ∧ quiet
  | .choose _ o => o = op ∧ ¬ intr ∧ (calm ↔ ¬ op.saysEintr)
  | .body _ o _ p => o = op ∧ ¬ intr ∧
    ((calm ∧ ∃ row col, op = .getChar row col ∧ p = op.prog clear) ∨
      (Yields (fun r => r.ret = -EINTR ↔ ¬ calm) p ∧
        ∀ row col, op = .getChar row col → Blind p))
  | .sigBuf _ o r | .sigCons _ o r => o = op ∧ ¬ intr ∧ (r.ret = -EINTR ↔ ¬ calm)
  | .idle => ∃ r, reply = some (.op op, r) ∧
    (intr ∧ quiet ∧ r.ret = -EINTR ∨ ¬ intr ∧ (r.ret = -EINTR ↔ ¬ calm))
  | _ => False

/-- The call made in state `s₀`, after the events `hist`. -/
def Underway (clear : Int) (screenOf : T → Fin N) (t : T) (op : Op) (s₀ s : State T W H N)
    (hist : List (Event T)) : Prop :=
  Lts.exec (step clear screenOf) s₀ hist = some s ∧
    CallInv clear op (.eintr t ∈ hist) (Quiet clear screenOf t s₀ hist)
      (Calm clear screenOf t s₀ hist) (s.reply t) (s.pc t)

variable {s₀ : State T W H N} {hist : List (Event T)}

theorem calm_concat (h : Lts.exec (step clear screenOf) s₀ hist = some s) {e : Event T} :
    Calm clear screenOf t s₀ (hist ++ [e]) ↔
      Calm clear screenOf t s₀ hist ∧ (e.thread = t → ¬ SaysEintr s e) := by
  unfold Calm
  rw [Lts.along_append, h]
  simp [Lts.Along]

theorem quiet_concat (h : Lts.exec (step clear screenOf) s₀ hist = some s) {e : Event T}
    (hs : step clear screenOf s e = some s') :
    Quiet clear screenOf t s₀ (hist ++ [e]) ↔ Quiet clear screenOf t s₀ hist ∧
      (e.thread = t → s'.console = s.console ∧ s'.screens = s.screens) := by
  unfold Quiet
  rw [Lts.along_append, h]
  simp [Lts.Along, hs]

/-- A step of the thread that reads nothing for `get_char`. -/
theorem calm_step (h : Lts.exec (step clear screenOf) s₀ hist = some s) {e : Event T}
    (hno : ¬ SaysEintr s e) :
    Calm clear screenOf t s₀ (hist ++ [e]) ↔ Calm clear screenOf t s₀ hist := by
  rw [calm_concat h]
  exact and_iff_left fun _ => hno

omit [DecidableEq T] in
theorem not_saysEintr {p : Pc W H N} (hpc : s.pc t = p)
    (hp : ∀ n row col b k, p ≠ .body n (.getChar row col) b (.get k)) :
    ¬ SaysEintr s (.run t) := by
  rintro ⟨n, row, col, b, k, c, heq, -⟩
  exact hp n row col b k (hpc.symm.trans heq)

/-- The others do not disturb a call. -/
theorem Underway.other (h : Underway clear screenOf t op s₀ s hist) {e : Event T}
    (he : e.thread ≠ t) (hs : step clear screenOf s e = some s') :
    Underway clear screenOf t op s₀ s' (hist ++ [e]) := by
  obtain ⟨hexec, hinv⟩ := h
  have hmove := step_move hs
  obtain ⟨p, hsem⟩ := hmove.semStep
  have hpc : s'.pc t = s.pc t := by
    cases hsem with
    | quiet hpc | take _ hpc | drop _ hpc => rw [hpc, Function.update_of_ne (Ne.symm he)]
  have hintr : Event.eintr t ∈ hist ++ [e] ↔ Event.eintr t ∈ hist := by
    rw [List.mem_append, List.mem_singleton, or_iff_left]
    rintro rfl
    exact he rfl
  refine ⟨Lts.exec_concat.2 ⟨s, hexec, hs⟩, ?_⟩
  rw [hpc, hmove.reply_other he, propext hintr, propext (calm_concat hexec),
    propext (quiet_concat hexec hs)]
  simpa [he] using hinv

theorem interrupted_ret (hop : op.replies = true) : op.interrupted.ret = -EINTR := by
  cases op with
  | drawChar | clearConsole => cases hop
  | _ => rfl

/-- A wait fails: at once the call is over, or it gives the first semaphore back. -/
theorem Underway.fails (h : Underway clear screenOf t op s₀ s hist) (hop : op.replies = true)
    (hs : step clear screenOf s (.eintr t) = some s') :
    Underway clear screenOf t op s₀ s' (hist ++ [.eintr t]) := by
  obtain ⟨hexec, hinv⟩ := h
  refine ⟨Lts.exec_concat.2 ⟨s, hexec, hs⟩, ?_⟩
  have hmem : Event.eintr t ∈ hist ++ [.eintr t] := by simp
  have hquiet := quiet_concat (t := t) hexec hs
  cases step_move hs with
  | @intrCons _ n o hpc =>
    rw [hpc] at hinv
    obtain ⟨rfl, -, hq, -⟩ := hinv
    rw [reply_finish, finish_pc]
    exact ⟨_, rfl, Or.inl ⟨hmem, hquiet.2 ⟨hq, fun _ => ⟨rfl, rfl⟩⟩, interrupted_ret hop⟩⟩
  | @intrBuf _ n o hpc =>
    rw [hpc] at hinv
    obtain ⟨rfl, -, hq, -⟩ := hinv
    rw [s.setPc_pc]
    exact ⟨rfl, hmem, hquiet.2 ⟨hq, fun _ => ⟨rfl, rfl⟩⟩⟩

/-- A step of the call itself. -/
theorem Underway.own (h : Underway clear screenOf t op s₀ s hist) (hop : op.replies = true)
    (hs : step clear screenOf s (.run t) = some s') :
    Underway clear screenOf t op s₀ s' (hist ++ [.run t]) := by
  obtain ⟨hexec, hinv⟩ := h
  refine ⟨Lts.exec_concat.2 ⟨s, hexec, hs⟩, ?_⟩
  have hmem : (Event.eintr t ∈ hist ++ [.run t]) = (Event.eintr t ∈ hist) := by simp
  have hquiet := quiet_concat (t := t) hexec hs
  have hcalm : ∀ {p : Pc W H N}, s.pc t = p →
      (∀ n row col b k, p ≠ .body n (.getChar row col) b (.get k)) →
      Calm clear screenOf t s₀ (hist ++ [.run t]) = Calm clear screenOf t s₀ hist :=
    fun hpc hp => propext (calm_step hexec (not_saysEintr hpc hp))
  rw [hmem]
  cases step_move hs with
  | lockCons hpc _ =>
    rw [hpc] at hinv
    obtain ⟨rfl, hi, hq, hc⟩ := hinv
    rw [State.setPc_pc, hcalm hpc (by simp)]
    exact ⟨rfl, hi, hquiet.2 ⟨hq, fun _ => ⟨rfl, rfl⟩⟩, hc⟩
  | lockBuf hpc _ =>
    rw [hpc] at hinv
    obtain ⟨rfl, hi, -, hc⟩ := hinv
    rw [State.setPc_pc, hcalm hpc (by simp)]
    exact ⟨rfl, hi, hc⟩
  | backOut hpc =>
    rw [hpc] at hinv
    obtain ⟨rfl, hi, hq⟩ := hinv
    rw [reply_finish, finish_pc]
    exact ⟨_, rfl, Or.inl ⟨hi, hquiet.2 ⟨hq, fun _ => ⟨rfl, rfl⟩⟩, interrupted_ret hop⟩⟩
  | @choose _ n o hpc =>
    rw [hpc] at hinv
    obtain ⟨rfl, hi, hc⟩ := hinv
    rw [State.setPc_pc, hcalm hpc (by simp)]
    refine ⟨rfl, hi, ?_⟩
    by_cases hget : ∃ row col, o = .getChar row col
    · obtain ⟨row, col, rfl⟩ := hget
      exact Or.inl ⟨hc.2 id, row, col, rfl, rfl⟩
    · refine Or.inr ⟨?_, fun row col heq => absurd ⟨row, col, heq⟩ hget⟩
      rw [hc, not_not]
      exact yields_prog clear fun row col heq => hget ⟨row, col, heq⟩
  | @access _ n o b p q scr hpc haccess =>
    rw [hpc] at hinv
    obtain ⟨rfl, hi, hbody⟩ := hinv
    rw [State.setPc_pc]
    refine ⟨rfl, hi, Or.inr ?_⟩
    rcases hbody with ⟨hc, row, col, rfl, rfl⟩ | ⟨hyields, hblind⟩
    · -- the one read of `get_char`
      rcases getChar_prog (W := W) (H := H) clear row col with hprog | ⟨k, hprog, hk⟩
      · rw [hprog] at haccess
        cases haccess
      · rw [hprog] at hpc haccess
        obtain ⟨rfl, -⟩ := Prod.mk.inj (Option.some.inj haccess)
        obtain ⟨hblind, hyields⟩ := hk (s.buffer b n)
        have hsays : SaysEintr s (.run t) ↔ ∃ c, (s.buffer b n).cell? (termCharIndex W row col) =
            some c ∧ c.ccCode.toInt = -EINTR := by
          constructor
          · rintro ⟨n', row', col', b', k', c, heq, hc⟩
            rw [hpc] at heq
            cases heq
            exact ⟨c, hc⟩
          · rintro ⟨c, hc⟩
            exact ⟨n, row, col, b, k, c, hpc, hc⟩
        rw [propext (calm_concat hexec)]
        refine ⟨?_, fun _ _ _ => hblind⟩
        simpa [hc, Event.thread, hsays] using hyields
    · have hno : ¬ SaysEintr s (.run t) := by
        rintro ⟨n', row, col, b', k, c, heq, -⟩
        rw [hpc] at heq
        cases heq
        exact hblind row col rfl
      rw [propext (calm_step hexec hno)]
      exact ⟨hyields.step haccess, fun row col heq => (hblind row col heq).step haccess⟩
  | @bodyEnd _ n o b r hpc =>
    rw [hpc] at hinv
    obtain ⟨rfl, hi, hbody⟩ := hinv
    rw [State.setPc_pc, hcalm hpc (by simp)]
    refine ⟨rfl, hi, ?_⟩
    rcases hbody with ⟨hc, row, col, rfl, hret⟩ | ⟨hyields, -⟩
    · rcases getChar_prog (W := W) (H := H) clear row col with hprog | ⟨k, hprog, -⟩
      · cases hret.trans hprog
        exact iff_of_false (by decide) (not_not.2 hc)
      · cases hret.trans hprog
    · exact hyields
  | sigBuf hpc =>
    rw [hpc] at hinv
    rw [State.setPc_pc, hcalm hpc (by simp)]
    exact hinv
  | sigCons hpc =>
    rw [hpc] at hinv
    obtain ⟨rfl, hi, hr⟩ := hinv
    rw [reply_finish, finish_pc, hcalm hpc (by simp)]
    exact ⟨_, rfl, Or.inr ⟨hi, hr⟩⟩
  | setSame hpc _ | setTest hpc _ | setOld hpc | setWaitNew hpc _ | setWaitOld hpc _ | saveIdx hpc
  | saveField hpc | saveEnd hpc | loadField hpc | loadEnd hpc | setIdx hpc | sigOld hpc
  | sigNew hpc =>
    rw [hpc] at hinv
    exact hinv.elim

theorem Underway.step (h : Underway clear screenOf t op s₀ s hist) (hop : op.replies = true)
    {e : Event T} (he : ∀ c, e ≠ .call t c) (hs : step clear screenOf s e = some s') :
    Underway clear screenOf t op s₀ s' (hist ++ [e]) := by
  by_cases ht : e.thread = t
  · cases e with
    | call u c =>
      obtain rfl : u = t := ht
      exact absurd rfl (he c)
    | run u =>
      obtain rfl : u = t := ht
      exact h.own hop hs
    | eintr u =>
      obtain rfl : u = t := ht
      exact h.fails hop hs
  · exact h.other ht hs

/-- The call itself. -/
theorem underway_call (hidle : s₀.pc t = .idle) (hvalid : op.invalid = false)
    (hs : step clear screenOf s₀ (.call t (.op op)) = some s) :
    Underway clear screenOf t op s₀ s [.call t (.op op)] := by
  have hstep : step clear screenOf s₀ (.call t (.op op)) =
      some (s₀.setPc t (.waitCons (screenOf t) op)) := by
    simp [step, hidle, hvalid]
  obtain rfl := Option.some.inj (hstep.symm.trans hs)
  refine ⟨Lts.exec_cons.2 ⟨_, hs, rfl⟩, ?_⟩
  rw [State.setPc_pc]
  refine ⟨rfl, by simp, ?_, ?_⟩
  · refine ⟨?_, fun _ _ => trivial⟩
    intro _ u hu
    obtain rfl := Option.some.inj (hstep.symm.trans hu)
    exact ⟨rfl, rfl⟩
  · constructor
    · rintro ⟨hno, -⟩
      exact hno rfl
    · intro hno
      exact ⟨fun _ => hno, fun _ _ => trivial⟩

/-- **When `-EINTR` means that nothing was done.**  For every call of an operation that returns an
    `int` (with a valid colour), in every run and however the other threads' steps fall: the call
    returns `-EINTR` exactly if a wait of it failed, and has then changed no screen and kept no
    semaphore, if and only if a wait of it failed or it has met no byte `0xFC`. -/
theorem eintr_reply_iff (clear : Int) (screenOf : T → Fin N) (console : Screen W H)
    (screens : Fin N → Screen W H) (idx : Fin N) (t : T) (op : Op) (hop : op.replies = true)
    (hvalid : op.invalid = false) (pre es : List (Event T)) {s s' : State T W H N}
    (hpre : Lts.exec (step clear screenOf) (start console screens idx) pre = some s)
    (hes : ∀ c, .call t c ∉ es)
    (hrun : Lts.exec (step clear screenOf) s (.call t (.op op) :: es) = some s')
    (hidle : s'.pc t = .idle) :
    ∃ r, s'.reply t = some (.op op, r) ∧
      (((r.ret = -EINTR ↔ .eintr t ∈ es) ∧
        (r.ret = -EINTR → Quiet clear screenOf t s (.call t (.op op) :: es) ∧
          ∀ l, (∀ u ≠ t, l ∉ (s'.pc u).locks) → s'.sem l = 1)) ↔
      (.eintr t ∈ es ∨ Calm clear screenOf t s (.call t (.op op) :: es))) := by
  obtain ⟨s₁, hcall, hexec⟩ := Lts.exec_cons.1 hrun
  have hidle₀ : s.pc t = .idle := by
    cases step_move hcall with
    | callOp _ _ hpc => exact hpc
    | refuse _ _ hpc => exact hpc
  have hunder : Underway clear screenOf t op s s' ([.call t (.op op)] ++ es) :=
    Lts.exec_inv_hist (fun _ e => ∀ c, e ≠ .call t c) (Underway clear screenOf t op s)
      (fun _ _ _ _ h he hstep => h.step hop he hstep) [.call t (.op op)]
      (underway_call hidle₀ hvalid hcall)
      (Lts.along_of_forall (fun e he c heq => hes c (by rw [← heq]; exact he)) s₁) hexec
  have hfree : ∀ l, (∀ u ≠ t, l ∉ (s'.pc u).locks) → s'.sem l = 1 := by
    obtain ⟨own, hlock⟩ := exec_lockInv ((Lts.exec_append _ _ _).2 ⟨s, hpre, hrun⟩)
    intro l hothers
    apply hlock.sem_one
    intro u
    by_cases hu : u = t
    · rw [hu, hidle]
      exact List.not_mem_nil
    · exact hothers u hu
  have hinv := hunder.2
  have hmem : (Event.eintr t ∈ [.call t (.op op)] ++ es) = (Event.eintr t ∈ es) := by simp
  rw [hidle, hmem] at hinv
  obtain ⟨r, hreply, ⟨hi, hquiet, hret⟩ | ⟨hi, hret⟩⟩ := hinv
  · refine ⟨r, hreply, iff_of_true ⟨iff_of_true hret hi, ?_⟩ (Or.inl hi)⟩
    intro _
    exact ⟨hquiet, hfree⟩
  · refine ⟨r, hreply, ?_⟩
    rw [or_iff_right hi]
    constructor
    · intro hgood
      by_contra hcalm
      exact hi (hgood.1.1 (hret.2 hcalm))
    · intro hcalm
      have hne : r.ret ≠ -EINTR := fun h => hret.1 h hcalm
      exact ⟨iff_of_false hne hi, fun h => absurd h hne⟩

/-- `get_char` interrupted in its second wait. -/
def interruptedGet : List (Event Bool) := [.run false, .eintr false, .run false]

theorem interruptedGet_reported : ∃ (s' : State Bool 1 1 2) (r : Reply),
    Lts.exec (step 0 fun _ => 0) (start oneCell (fun _ => oneCell) 0)
      (.call false (.op (.getChar 0 0)) :: interruptedGet) = some s' ∧
    s'.reply false = some (.op (.getChar 0 0), r) ∧
    (r.ret = -EINTR ↔ .eintr false ∈ interruptedGet) := by
  obtain ⟨r, hreply, hiff⟩ := eintr_reply_iff (N := 2) 0 (fun _ => 0) oneCell (fun _ => oneCell) 0
    false (.getChar 0 0) rfl rfl [] interruptedGet rfl (by simp [interruptedGet]) rfl rfl
  exact ⟨_, r, rfl, hreply, (hiff.2 (Or.inl (by decide))).1⟩

/-- Nothing interrupts `putbyte((char)0xFC)`. -/
theorem putbyte_FC_looks_interrupted : ∃ (n : Nat) (s' : State Bool 2 2 2) (r : Reply),
    Lts.exec (step 0 fun _ => 0) (start (initScreen (fun _ => default) 7)
      (fun _ => initScreen (fun _ => default) 7) 0)
      (.call false (.op (.putbyte 0xFC)) :: List.replicate n (.run false)) = some s' ∧
    s'.pc false = .idle ∧ s'.reply false = some (.op (.putbyte 0xFC), r) ∧
    ¬ (r.ret = -EINTR ↔ .eintr false ∈ List.replicate n (Event.run false)) := by
  refine ⟨24, _, ⟨-4, []⟩, rfl, rfl, rfl, ?_⟩
  simp [EINTR]

end Timix.Console
