import Timix.RwLock

/-!
# Leaving a call of `rwlock_lock` out of a run

* `without t s` — the state `s` without the current call of `t`.
* `Unseen t` — the section takes its branch on account of the other threads' entries.
* `Move.without` — such a step can be made without the call of `t`.

Principal result: `erase_call`.
-/

set_option autoImplicit false

namespace Timix.RwLock

open Timix.Cond (EINTR)

variable {T : Type} [DecidableEq T] {s s' : State T} {t j : T} {e : Event T} {type : Access}

/-- The state without the current call of `t`. -/
def without (t : T) (s : State T) : State T :=
  { s with
    waiting := others t s.waiting
    cv := fun type => (s.cv type).erase t
    pc := Function.update s.pc t .idle }

theorem WaitOk.without (h : WaitOk s) (t : T) : WaitOk (without t s) where
  entries := h.entries.leave rfl
  queues := by
    refine ⟨?_, fun a => (h.queues.nodup a).erase t⟩
    intro v a
    show v ∈ (s.cv a).erase t ↔ (Function.update s.pc t .idle v).sleepsOn = some a
    rw [(h.queues.nodup a).mem_erase_iff, h.queues.mem v a]
    by_cases hv : v = t
    · subst hv; rw [Function.update_self]; simp [Pc.sleepsOn]
    · rw [Function.update_of_ne hv]; simp [hv]
  firm := firm_update h.firm (by simp)

/-- A thread outside the queues. -/
theorem WaitOk.erase_cv (h : WaitOk s) (ht : (s.pc t).sleepsOn = none) (type : Access) :
    (s.cv type).erase t = s.cv type := by
  apply List.erase_of_not_mem
  intro hm
  rw [(h.queues.mem t type).1 hm] at ht
  cases ht

theorem WaitOk.others_waiting (h : WaitOk s) (ht : (s.pc t).entry = none) :
    others t s.waiting = s.waiting := by
  unfold others
  rw [List.filter_eq_self]
  rintro ⟨v, a⟩ hm
  have hvt : v ≠ t := by
    rintro rfl
    rw [(h.entries.mem v a).1 hm] at ht
    cases ht
  simpa using hvt

/-- **Without a call that has just begun nothing changes.** -/
theorem WaitOk.without_call (h : WaitOk s) (hpc : s.pc t = .idle) (u : Bool) :
    RwLock.without t (s.setPc t (.entering type u)) = s := by
  ext1
  · rfl
  · rfl
  · exact h.others_waiting (by rw [hpc]; rfl)
  · funext a
    exact h.erase_cv (by rw [hpc]; rfl) a
  · show Function.update (Function.update s.pc t _) t .idle = s.pc
    rw [Function.update_idem, ← hpc, Function.update_eq_self]
  · rfl
  · rfl
  · rfl

/-- **Returning `-EINTR` leaves the state without the call.** -/
theorem WaitOk.without_return (h : WaitOk s) (hpc : s.pc t = .woken type false true)
    (hs : step s (.run t) = some s') :
    s' = { RwLock.without t s with rets := s.rets ++ [(t, -EINTR)] } := by
  have hs' := (Move.giveUp hpc).step h (not_failed_of_step hs)
  rw [hs] at hs'
  rw [Option.some.inj hs']
  ext1
  case cv =>
    funext a
    exact (h.erase_cv (by rw [hpc]; rfl) a).symm
  all_goals rfl

/-! ## Steps of the other threads -/

/-- In an interruptible `rwlock_lock`. -/
def Pc.inCall : Pc → Bool
  | .entering _ u | .asleep _ u | .woken _ u _ => !u
  | _ => false

/-- Whose step the event is, or who is interrupted by it. -/
def Event.thread : Event T → T
  | .lock t _ _ | .unlock t _ | .downgrade t | .interrupt t | .run t => t

/-- An `rwlock_unlock` of `j` hands the lock over in the mode in which it would without the entry
    of `t`, and does not signal `t` in the place of another writer. -/
def SameHandOver (t : T) (s : State T) (j : T) : Prop :=
  ∀ type, s.pc j = .unlocking type → s.count = 1 →
    rwlockQPeek (without t s) = rwlockQPeek s ∧
    (rwlockQPeek s = some .write → (s.cv .write).getLast? = some t → s.cv .write = [t])

/-- A reader `j` does not queue up on account of the entry of `t` alone. -/
def SameQueue (t : T) (s : State T) (j : T) : Prop :=
  ∀ u, s.pc j = .entering .read u → s.mode = some .write → s.waiting ≠ [] →
    others t s.waiting ≠ []

/-- A section of another thread does not depend on the call of `t`. -/
def Unseen (t : T) (s : State T) : Event T → Prop
  | .run j => j ≠ t → SameHandOver t s j ∧ SameQueue t s j
  | _ => True

theorem without_pc (hj : j ≠ t) : (without t s).pc j = s.pc j := Function.update_of_ne hj _ _

theorem without_setPc (hj : j ≠ t) (p : Pc) :
    without t (s.setPc j p) = (without t s).setPc j p := by
  ext1
  case pc => exact Function.update_comm hj p .idle s.pc
  all_goals rfl

theorem erase_update (cv : Access → List T) (l : List T) :
    (fun a => (Function.update cv type l a).erase t) =
      Function.update (fun a => (cv a).erase t) type (l.erase t) := by
  funext a
  exact Function.apply_update (fun _ l => l.erase t) cv type l a

/-- Going to sleep on a condition variable is not seen. -/
theorem WaitOk.erase_queued (h : WaitOk s) (ht : (s.pc t).sleepsOn = none) (type : Access) :
    (fun a => (Function.update s.cv type (t :: s.cv type) a).erase t) =
      fun a => (s.cv a).erase t := by
  rw [erase_update, List.erase_cons_head, ← h.erase_cv ht type]
  exact Function.update_eq_self ..

theorem others_comm (l : List (T × Access)) : others t (others j l) = others j (others t l) := by
  unfold others
  rw [List.filter_comm]

theorem others_cons (hj : j ≠ t) (l : List (T × Access)) :
    others t ((j, type) :: l) = (j, type) :: others t l := by
  simp [others, hj]

theorem without_acquire (hj : j ≠ t) :
    without t (acquire s j type) = acquire (without t s) j type :=
  without_setPc hj .idle

theorem without_wait (hj : j ≠ t) (u : Bool) :
    without t (rwlockWait s j type u) = rwlockWait (without t s) j type u := by
  unfold rwlockWait
  rw [without_setPc hj]
  congr 1
  ext1
  case cv =>
    show (fun a => (Function.update s.cv type (j :: s.cv type) a).erase t) = _
    rw [erase_update, List.erase_cons_tail (by simpa using hj)]
    rfl
  all_goals rfl

theorem without_push (hj : j ≠ t) :
    without t (rwlockQPush s j type) = rwlockQPush (without t s) j type := by
  ext1
  case waiting => exact others_cons hj s.waiting
  all_goals rfl

/-- **A signal that does not go to `t` in the place of another.** -/
theorem without_signal (hlast : (s.cv type).getLast? = some t → s.cv type = [t]) :
    without t (condSignal s type) = condSignal (without t s) type := by
  unfold condSignal
  cases hl : (s.cv type).getLast? with
  | none =>
    have hnil := List.getLast?_eq_none_iff.1 hl
    have hnil' : (without t s).cv type = [] := by
      show (s.cv type).erase t = []
      rw [hnil]
      rfl
    rw [hnil']
    rfl
  | some u =>
    by_cases hu : u = t
    · subst hu
      have hone := hlast hl
      have hnil' : (without u s).cv type = [] := by
        show (s.cv type).erase u = []
        rw [hone]
        simp
      rw [hnil']
      ext1
      case cv =>
        show (fun a => (Function.update s.cv type (s.cv type).dropLast a).erase u) =
          fun a => (s.cv a).erase u
        rw [erase_update]
        funext a
        by_cases ha : a = type
        · subst ha; rw [Function.update_self, hone]; simp
        · rw [Function.update_of_ne ha]
      case pc => exact Function.update_idem ..
      all_goals rfl
    · obtain ⟨l, hcv⟩ : ∃ l, s.cv type = l ++ [u] :=
        ⟨_, (List.dropLast_append_getLast? u hl).symm⟩
      have hcv' : (without t s).cv type = l.erase t ++ [u] := by
        show (s.cv type).erase t = _
        rw [hcv, List.erase_append]
        split
        · rfl
        · rename_i hn
          rw [List.erase_of_not_mem hn, List.erase_of_not_mem (by simpa using Ne.symm hu)]
      rw [hcv', List.getLast?_concat, List.dropLast_concat]
      dsimp only
      rw [without_setPc hu, without_pc hu, hcv, List.dropLast_concat]
      congr 1
      ext1
      case cv => exact erase_update s.cv l
      all_goals rfl

theorem without_broadcast :
    without t (condBroadcast s type) = condBroadcast (without t s) type := by
  rw [condBroadcast_eq, condBroadcast_eq]
  ext1
  case cv => exact erase_update s.cv []
  case pc =>
    funext v
    show Function.update (fun v => if v ∈ s.cv type then (s.pc v).wake else s.pc v) t .idle v =
      if v ∈ (s.cv type).erase t then (Function.update s.pc t .idle v).wake
      else Function.update s.pc t .idle v
    by_cases hv : v = t
    · subst hv
      rw [Function.update_self, Function.update_self]
      simp [Pc.wake]
    · rw [Function.update_of_ne hv, Function.update_of_ne hv]
      simp only [List.mem_erase_of_ne hv]
  all_goals rfl

/-- **A step of another thread can be made without the call**, as long as it does not depend
on it. -/
theorem Move.without (hm : Move s e s') (hj : e.thread ≠ t) (hun : Unseen t s e) :
    Move (without t s) e (without t s') := by
  have hat : ∀ {j : T} {p : Pc}, j ≠ t → s.pc j = p → (RwLock.without t s).pc j = p :=
    fun hj hpc => (without_pc hj).trans hpc
  cases hm with
  | @callLock j type u hpc =>
    have hj : j ≠ t := hj
    rw [without_setPc hj]
    exact .callLock (hat hj hpc)
  | @callUnlock j type hpc =>
    have hj : j ≠ t := hj
    rw [without_setPc hj]
    exact .callUnlock (hat hj hpc)
  | @callDowngrade j hpc hmode hc =>
    have hj : j ≠ t := hj
    rw [without_setPc hj]
    exact .callDowngrade (hat hj hpc) hmode hc
  | badDowngrade hpc hn => exact .badDowngrade (hat hj hpc) hn
  | @interrupt j type hpc =>
    have hj : j ≠ t := hj
    rw [without_setPc hj]
    have hm := Move.interrupt (hat hj hpc)
    have heq : RwLock.without t { s with
          cv := Function.update s.cv type ((s.cv type).erase j) } =
        { RwLock.without t s with
          cv := Function.update (RwLock.without t s).cv type
            (((RwLock.without t s).cv type).erase j) } := by
      ext1
      case cv =>
        show (fun a => (Function.update s.cv type ((s.cv type).erase j) a).erase t) = _
        rw [erase_update, List.erase_comm]
        rfl
      all_goals rfl
    rw [heq]
    exact hm
  | @miss j hn =>
    have hj : j ≠ t := hj
    refine .miss ?_
    intro type
    rw [without_pc hj]
    exact hn type
  | @enter j type u hpc hgo =>
    have hj : j ≠ t := hj
    rw [without_acquire hj]
    refine .enter (hat hj hpc) ?_
    rcases hgo with ⟨hr, hnil⟩ | hgo
    · refine Or.inl ⟨hr, ?_⟩
      show others t s.waiting = []
      rw [hnil]
      rfl
    · exact Or.inr (by cases type <;> exact hgo)
  | @queueUp j type u hpc hwait hsome =>
    have hj : j ≠ t := hj
    rw [without_wait hj, without_push hj]
    refine .queueUp (hat hj hpc) (by cases type <;> exact hwait) ?_
    intro hr
    subst hr
    exact (hun hj).2 u hpc hwait (hsome rfl)
  | @take j type u hpc hgo =>
    have hj : j ≠ t := hj
    have hm := Move.take (hat hj hpc) (by cases type <;> exact hgo)
    have heq : RwLock.without t { s with waiting := others j s.waiting } =
        { RwLock.without t s with waiting := others j (RwLock.without t s).waiting } := by
      ext1
      case waiting => exact others_comm s.waiting
      all_goals rfl
    rw [without_acquire hj, heq]
    exact hm
  | @again j type u hpc hwait =>
    have hj : j ≠ t := hj
    rw [without_wait hj]
    exact .again (hat hj hpc) (by cases type <;> exact hwait)
  | @giveUp j type hpc =>
    have hj : j ≠ t := hj
    have hm := Move.giveUp (hat hj hpc)
    have heq : RwLock.without t { s with
          waiting := others j s.waiting, rets := s.rets ++ [(j, -EINTR)] } =
        { RwLock.without t s with
          waiting := others j (RwLock.without t s).waiting,
          rets := (RwLock.without t s).rets ++ [(j, -EINTR)] } := by
      ext1
      case waiting => exact others_comm s.waiting
      all_goals rfl
    rw [without_setPc hj, heq]
    exact hm
  | badUnlock hpc hc => exact .badUnlock (hat hj hpc) hc
  | @unlockMore j type hpc hc =>
    have hj : j ≠ t := hj
    rw [without_setPc hj]
    exact .unlockMore (hat hj hpc) hc
  | @unlockFree j type hpc hc hnil =>
    have hj : j ≠ t := hj
    rw [without_setPc hj]
    refine .unlockFree (hat hj hpc) hc ?_
    show others t s.waiting = []
    rw [hnil]
    rfl
  | @handOver j type next hpc hc hpeek =>
    have hj : j ≠ t := hj
    obtain ⟨hsame, hlast⟩ := (hun hj).1 type hpc hc
    have hm := Move.handOver (hat hj hpc) hc (hsame.trans hpeek)
    rw [without_setPc hj]
    cases next with
    | read =>
      show Move _ _ ((RwLock.without t (condBroadcast _ .read)).setPc j .idle)
      rw [without_broadcast]
      exact hm
    | write =>
      have hsig := without_signal (s := { s with
        count := s.count - 1, mode := some .write, holds := s.holds.erase (j, type) })
        (hlast hpeek)
      show Move _ _ ((RwLock.without t (condSignal _ .write)).setPc j .idle)
      rw [hsig]
      exact hm
  | @downgrade j hpc =>
    have hj : j ≠ t := hj
    have hm := Move.downgrade (hat hj hpc)
    unfold rwlockDowngrade at hm ⊢
    rw [without_setPc hj, without_broadcast]
    exact hm

/-- **A step of the call itself is not seen.** -/
theorem without_own (hw : WaitOk s) (hm : Move s e s') (ht : e.thread = t)
    (hin : (s.pc t).inCall = true) (hin' : (s'.pc t).inCall = true) :
    without t s' = without t s := by
  have hbusy : ∀ {j : T} {p : Pc}, j = t → s.pc j = p → p.inCall = true := by
    rintro j p rfl rfl
    exact hin
  have hover : ∀ {j : T} {s₁ : State T}, j = t → ((s₁.setPc j .idle).pc t).inCall ≠ true := by
    rintro j s₁ rfl h
    rw [show (s₁.setPc j .idle).pc j = .idle from Function.update_self ..] at h
    cases h
  cases hm with
  | callLock hpc | callUnlock hpc | callDowngrade hpc _ _ | badDowngrade hpc _ | unlockMore hpc _
  | unlockFree hpc _ _ | handOver hpc _ _ | badUnlock hpc _ | downgrade hpc => cases hbusy ht hpc
  | enter hpc _ | take hpc _ | giveUp hpc => exact absurd hin' (hover ht)
  | miss hn => rfl
  | @interrupt j type hpc =>
    obtain rfl : j = t := ht
    ext1
    case cv =>
      show (fun a => (Function.update s.cv type ((s.cv type).erase j) a).erase j) =
        fun a => (s.cv a).erase j
      rw [erase_update]
      funext a
      by_cases ha : a = type
      · subst ha
        rw [Function.update_self]
        exact List.erase_of_not_mem fun hmem =>
          ((hw.queues.nodup a).mem_erase_iff.1 hmem).1 rfl
      · rw [Function.update_of_ne ha]
    case pc => exact Function.update_idem ..
    all_goals rfl
  | @queueUp j type u hpc hwait hsome =>
    obtain rfl : j = t := ht
    ext1
    case waiting =>
      show others j ((j, type) :: s.waiting) = others j s.waiting
      simp [others]
    case cv => exact hw.erase_queued (by rw [hpc]; rfl) type
    case pc => exact Function.update_idem ..
    all_goals rfl
  | @again j type u hpc hwait =>
    obtain rfl : j = t := ht
    ext1
    case cv => exact hw.erase_queued (by rw [hpc]; rfl) type
    case pc => exact Function.update_idem ..
    all_goals rfl

/-- The call of `t` is in progress and no other thread's section depends on it. -/
def UnseenCall (t : T) (s : State T) (e : Event T) : Prop :=
  (s.pc t).inCall = true ∧ Unseen t s e

instance (t : T) (s : State T) (j : T) : Decidable (SameHandOver t s j) :=
  inferInstanceAs (Decidable (∀ type, s.pc j = .unlocking type → s.count = 1 →
    rwlockQPeek (without t s) = rwlockQPeek s ∧
    (rwlockQPeek s = some .write → (s.cv .write).getLast? = some t → s.cv .write = [t])))

instance (t : T) (s : State T) (j : T) : Decidable (SameQueue t s j) :=
  inferInstanceAs (Decidable (∀ u, s.pc j = .entering .read u → s.mode = some .write →
    s.waiting ≠ [] → others t s.waiting ≠ []))

instance (t : T) (s : State T) : (e : Event T) → Decidable (Unseen t s e)
  | .run j => inferInstanceAs (Decidable (j ≠ t → SameHandOver t s j ∧ SameQueue t s j))
  | .lock .. | .unlock .. | .downgrade _ | .interrupt _ => isTrue trivial

instance (t : T) (s : State T) (e : Event T) : Decidable (UnseenCall t s e) :=
  inferInstanceAs (Decidable (_ ∧ _))

/-- **A call nobody saw can be left out of the run.** -/
theorem erase_call {s₁ : State T} (hw : WaitOk s₁) (hidle : s₁.pc t = .idle) {es : List (Event T)}
    (hok : Lts.Along step (UnseenCall t) (s₁.setPc t (.entering type false)) es)
    (h : Lts.exec step (s₁.setPc t (.entering type false)) es = some s)
    (hin : (s.pc t).inCall = true) :
    ∃ es', es'.Sublist es ∧ Lts.exec step s₁ es' = some (without t s) := by
  have hstart : WaitOk (s₁.setPc t (.entering type false)) := hw.outside hidle rfl rfl rfl rfl
  have hrun := Lts.exec_inv_hist (UnseenCall t)
    (fun s hist => WaitOk s ∧ ((s.pc t).inCall = true →
      ∃ es', es'.Sublist hist ∧ Lts.exec step s₁ es' = some (without t s)))
    (fun s hist e s' hI hok hs => ?_) []
    ⟨hstart, fun _ => ⟨[], List.Sublist.refl _, by rw [hw.without_call hidle]; rfl⟩⟩ hok h
  · exact hrun.2 hin
  · obtain ⟨hw, hes⟩ := hI
    have hm := hw.step_move hs
    refine ⟨hw.move hm, ?_⟩
    intro hin'
    obtain ⟨es', hsub, hexec⟩ := hes hok.1
    by_cases ht : e.thread = t
    · refine ⟨es', hsub.trans (List.sublist_append_left ..), ?_⟩
      rw [without_own hw hm ht hok.1 hin']
      exact hexec
    · refine ⟨es' ++ [e], hsub.append (List.Sublist.refl _), Lts.exec_concat.2 ⟨_, hexec, ?_⟩⟩
      have hf : s.failed = false := not_failed_of_step hs
      exact (hm.without ht hok.2).step (hw.without t) hf

end Timix.RwLock
