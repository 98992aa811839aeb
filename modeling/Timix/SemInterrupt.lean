import Timix.Sem

/-!
# Interrupted waiters of a semaphore (`kernel/sem.c`)

An interrupted waiter leaves the queue at once and undoes its decrement only after it has taken
`sem_lock` again.  A `sem_wait` that falls into this window may find `sem_count` at zero although
a token is there, and goes to sleep.

* `OutsideWindow` — the step does not fall into that window: a `sem_wait` that finds
  `sem_count ≤ 0` would still find it so with every pending decrement undone.
* `StepOk` — moreover the step does not overflow `sem_count`.
* `Starved` — with somebody asleep no token is left.
* `without t s` — the state `s` with the current call of `t`, and the interrupts aimed at it,
  never made; `without_step` follows it along a run.

Principal result: `no_token_lost_along`.
-/

set_option autoImplicit false

namespace Timix.Sem

open Census Owner
open Timix.Cond (Ender EINTR)

variable {T : Type} [Fintype T] [DecidableEq T] {k : Int32} {s s' : State T} {t : T}

/-- A `sem_wait` about to decrement does not owe its sleep to decrements that interrupted waiters
    have still to undo. -/
def OutsideWindow (s : State T) : Event T → Prop
  | .run t => s.pc t = .waitDec → s.count ≤ 0 → s.count.toInt + tally Pc.interrupted s.pc ≤ 0
  | _ => True

instance (s : State T) : (e : Event T) → Decidable (OutsideWindow s e)
  | .run t => inferInstanceAs (Decidable (s.pc t = .waitDec → s.count ≤ 0 →
      s.count.toInt + tally Pc.interrupted s.pc ≤ 0))
  | .wait _ | .signal _ | .interrupt .. => isTrue trivial

omit [DecidableEq T] in
theorem OutsideWindow.of_event {e : Event T} (hok : OutsideWindow s e)
    (he : s.pc t ≠ .idle → e = .run t) : OutsideWindow s (.run t) := by
  intro hpc
  obtain rfl := he (by rw [hpc]; simp)
  exact hok hpc

def StepOk (s : State T) (e : Event T) : Prop := InRange s e ∧ OutsideWindow s e

instance (s : State T) (e : Event T) : Decidable (StepOk s e) :=
  inferInstanceAs (Decidable (InRange s e ∧ OutsideWindow s e))

/-- With somebody asleep no token is left, but for the one a signal is handing over. -/
def Starved (count : Int) (pc : T → Pc T) : Prop :=
  0 < tally Pc.sleeping pc →
    count + tally Pc.sleeping pc + tally Pc.interrupted pc ≤ tally Pc.atCond pc

theorem Starved.shift {c c' : Int} {pc : T → Pc T} (h : Starved c pc) {p₀ p : Pc T}
    (hpc : pc t = p₀) (hs : p.sleeping = false ∨ p₀.sleeping = true)
    (hle : c' + p.sleeping.toNat + p.interrupted.toNat + p₀.atCond.toNat ≤
      c + p₀.sleeping.toNat + p₀.interrupted.toNat + p.atCond.toNat) :
    Starved c' (Function.update pc t p) := by
  intro hpos
  obtain ⟨h1, h2, _, h4⟩ := tallies pc t p
  rw [hpc] at h1 h2 h4
  have hpos' : 0 < tally Pc.sleeping pc := by
    rcases hs with hp | hp₀
    · rw [hp, Bool.toNat_false] at h1
      omega
    · exact tally_pos.2 ⟨t, by rw [hpc, hp₀]⟩
  have := h hpos'
  omega

/-- **Every step that meets `StepOk` keeps sleepers starved.** -/
theorem Starved.move (h : Starved s.count.toInt s.pc) (hi : SemInv k s) (hm : Move s t s')
    (hin : InRange s (.run t)) (hok : OutsideWindow s (.run t)) :
    Starved s'.count.toInt s'.pc := by
  have hl := hi.lock
  have hq := hi.queue
  cases hm with
  | callWait hpc => exact h.shift hpc (Or.inl rfl) (Int.le_refl _)
  | callSignal hpc => exact h.shift hpc (Or.inl rfl) (Int.le_refl _)
  | @intrTake u hpc hu =>
    have htu : t ≠ u := by rintro rfl; rw [hpc] at hu; cases hu
    have h' : Starved s.count.toInt (Function.update s.pc u .taken) :=
      h.shift hu (Or.inl rfl) (by simp [Pc.sleeping, Pc.interrupted, Pc.atCond])
    exact h'.shift ((Function.update_of_ne htu _ _).trans hpc) (Or.inl rfl) (Int.le_refl _)
  | intrMiss hpc => exact h
  | waitLock hpc hfree => exact h.shift hpc (Or.inl rfl) (Int.le_refl _)
  | decSleep hpc hc =>
    -- either somebody was asleep already, or no decrement is pending to be undone
    have hz := atCond_eq_zero hl (t := t) (by rw [hpc]; rfl) (by rw [hpc]; rfl)
    rw [pred_neg (hin.1 hpc)] at hc
    have hdebt := hok hpc (by rw [Int32.le_iff_toInt_le, Int32.toInt_zero]; omega)
    obtain ⟨h1, h2, _, h4⟩ := tallies s.pc t .waitSleep
    simp only [hpc, Pc.sleeping, Pc.interrupted, Pc.atCond, Bool.toNat_false, Bool.toNat_true]
      at h1 h2 h4
    intro _
    show (s.count - 1).toInt + tally Pc.sleeping (Function.update s.pc t .waitSleep) +
      tally Pc.interrupted (Function.update s.pc t .waitSleep) ≤
      tally Pc.atCond (Function.update s.pc t .waitSleep)
    rw [toInt_pred (hin.1 hpc)]
    rcases Nat.eq_zero_or_pos (tally Pc.sleeping s.pc) with h0 | hpos
    · omega
    · have := h hpos
      omega
  | decGot hpc hc =>
    show Starved (s.count - 1).toInt (Function.update s.pc t .waitGot)
    rw [toInt_pred (hin.1 hpc)]
    apply h.shift hpc (Or.inl rfl)
    simp only [Pc.sleeping, Pc.interrupted, Pc.atCond, Bool.toNat_false]
    omega
  | sleep hpc => exact h.shift hpc (Or.inr rfl) (Int.le_refl _)
  | @relock κ hpc hfree => exact h.shift hpc (Or.inl rfl) (Int.le_refl _)
  | rollback hpc =>
    show Starved (s.count + 1).toInt (Function.update s.pc t .waitErr)
    rw [toInt_succ (hin.2 (Or.inr hpc))]
    exact h.shift hpc (Or.inl rfl) (by simp [Pc.sleeping, Pc.interrupted, Pc.atCond])
  | @testGot κ hpc hk =>
    show Starved s.count.toInt (Function.update s.pc t .waitGot)
    exact h.shift hpc (Or.inl rfl) (by simp [Pc.sleeping, Pc.interrupted, Pc.atCond])
  | retErr hpc => exact h.shift hpc (Or.inl rfl) (Int.le_refl _)
  | ret0 hpc => exact h.shift hpc (Or.inl rfl) (Int.le_refl _)
  | sigLock hpc hfree => exact h.shift hpc (Or.inl rfl) (Int.le_refl _)
  | sigInc hpc =>
    show Starved (s.count + 1).toInt (Function.update s.pc t .sigCond)
    rw [toInt_succ (hin.2 (Or.inl hpc))]
    exact h.shift hpc (Or.inl rfl) (by simp [Pc.sleeping, Pc.interrupted, Pc.atCond])
  | sigNobody hpc hnil =>
    -- the queue is empty and the signaller holds the lock: nobody is asleep
    intro hpos
    obtain ⟨i, hsl⟩ := tally_pos.1 hpos
    have hit : i ≠ t := by
      rintro rfl
      rw [show ((s.setPc i .sigUnlock).pc i) = .sigUnlock from Function.update_self ..] at hsl
      cases hsl
    have hsl' : (s.pc i).sleeping = true := by
      rwa [show ((s.setPc t .sigUnlock).pc i) = s.pc i from Function.update_of_ne hit _ _] at hsl
    cases hp : s.pc i with
    | asleep =>
      have := (hq.mem i).2 hp
      rw [hnil] at this
      cases this
    | waitSleep => exact absurd (hl.unique (by rw [hp]; rfl) (by rw [hpc]; rfl)) hit
    | _ => rw [hp] at hsl'; cases hsl'
  | @sigWake l u hpc hlast =>
    have hu : s.pc u = .asleep := (hq.mem u).1 (by rw [hlast]; simp)
    have htu : t ≠ u := by rintro rfl; rw [hpc] at hu; cases hu
    obtain ⟨h1, h2, _, h4⟩ := tallies s.pc u (.woken .signal)
    obtain ⟨h5, h6, _, h8⟩ := tallies (Function.update s.pc u (.woken .signal)) t .sigUnlock
    rw [Function.update_of_ne htu, hpc] at h5 h6 h8
    rw [hu] at h1 h2 h4
    simp [Pc.sleeping, Pc.interrupted, Pc.atCond,
      show (Ender.signal == Ender.interrupt) = false from rfl] at h1 h2 h4 h5 h6 h8
    intro hpos
    have := h (by omega)
    simp only [State.setPc] at hpos ⊢
    omega
  | sigUnlock hpc => exact h.shift hpc (Or.inl rfl) (Int.le_refl _)
  | @intrWake u hpc =>
    have hu := hq.taken t u hpc
    have htu : t ≠ u := by rintro rfl; rw [hpc] at hu; cases hu
    have h' : Starved s.count.toInt (Function.update s.pc u (.woken .interrupt)) :=
      h.shift hu (Or.inl rfl) (by simp [Pc.sleeping, Pc.interrupted, Pc.atCond])
    exact h'.shift ((Function.update_of_ne htu _ _).trans hpc) (Or.inl rfl) (Int.le_refl _)

/-- **The window is exact**: a step that falls into it puts a thread to sleep with a token left. -/
theorem not_starved_of_window (hi : SemInv k s) {e : Event T} (hs : step s e = some s')
    (hin : InRange s e) (hwin : ¬ OutsideWindow s e) : ¬ Starved s'.count.toInt s'.pc := by
  cases e with
  | wait t | signal t | interrupt i u => exact absurd trivial hwin
  | run t =>
    have hpc : s.pc t = .waitDec := by
      by_contra hne
      exact hwin fun h => absurd h hne
    have hc : s.count ≤ 0 ∧ 0 < s.count.toInt + tally Pc.interrupted s.pc := by
      constructor <;> by_contra hn
      · exact hwin fun _ hle => absurd hle hn
      · exact hwin fun _ _ => by omega
    rw [Int32.le_iff_toInt_le, Int32.toInt_zero] at hc
    have hz := atCond_eq_zero hi.lock (t := t) (by rw [hpc]; rfl) (by rw [hpc]; rfl)
    simp only [step, run, hpc] at hs
    rw [if_pos ((pred_neg (hin.1 hpc)).2 (by omega))] at hs
    cases hs
    obtain ⟨h1, h2, _, h4⟩ := tallies s.pc t .waitSleep
    simp only [hpc, Pc.sleeping, Pc.interrupted, Pc.atCond, Bool.toNat_false, Bool.toNat_true]
      at h1 h2 h4
    intro hst
    have hle : (s.count - 1).toInt + tally Pc.sleeping (Function.update s.pc t .waitSleep) +
        tally Pc.interrupted (Function.update s.pc t .waitSleep) ≤
        tally Pc.atCond (Function.update s.pc t .waitSleep) :=
      hst (by show 0 < tally Pc.sleeping (Function.update s.pc t .waitSleep); omega)
    rw [toInt_pred (hin.1 hpc)] at hle
    omega

/-! ## A call that returns `-EINTR` -/

/-- In a `sem_wait` that may still return `-EINTR`. -/
def Pc.mayFail : Pc T → Bool
  | .waitLock | .waitDec | .waitSleep | .asleep | .taken | .waitErr => true
  | .woken k | .waitTest k => k == .interrupt
  | _ => false

/-- The call has decremented `sem_count`. -/
def Pc.inDebt (p : Pc T) : Bool := p.sleeping || p.interrupted

/-- What the call has still to give back. -/
def Pc.debt (p : Pc T) : Int32 := if p.inDebt then 1 else 0

/-- Where `i` is if the current call of `t` and the interrupts aimed at it are not made. -/
def hide (t i : T) (p : Pc T) : Pc T := if i = t ∨ p = .intrWake t then .idle else p

/-- The state without the current call of `t`. -/
def without (t : T) (s : State T) : State T :=
  { s with
    count := s.count + (s.pc t).debt
    lock := if s.lock = some t then none else s.lock
    queue := s.queue.erase t
    pc := fun i => hide t i (s.pc i) }

section

omit [Fintype T]

theorem hide_self (t : T) (p : Pc T) : hide t t p = .idle := if_pos (Or.inl rfl)

theorem hide_of_ne {i : T} {p : Pc T} (hi : i ≠ t) (hp : p ≠ .intrWake t) : hide t i p = p :=
  if_neg (by tauto)

/-- The other threads' points are not hidden, and updating one commutes with hiding. -/
theorem hide_update (pc : T → Pc T) (j : T) (p : Pc T) :
    (fun i => hide t i (Function.update pc j p i)) =
      Function.update (fun i => hide t i (pc i)) j (hide t j p) := by
  funext i
  exact Function.apply_update (fun i => hide t i) pc j p i

/-- A step of `j` that the call of `t` does not see. -/
theorem without_setPc {j : T} {p : Pc T} (hj : j ≠ t) (hp : p ≠ .intrWake t) (s : State T) :
    without t (s.setPc j p) = (without t s).setPc j p := by
  ext1
  · show s.count + (Function.update s.pc j p t).debt = _
    rw [Function.update_of_ne hj.symm]; rfl
  · rfl
  · rfl
  · show (fun i => hide t i (Function.update s.pc j p i)) = _
    rw [hide_update, hide_of_ne hj hp]; rfl
  · rfl
  · rfl

/-- A step of the call itself, or of an interrupt aimed at it. -/
theorem without_eq (hpc : ∀ i, i ≠ t → hide t i (s'.pc i) = hide t i (s.pc i))
    (hc : s'.count + (s'.pc t).debt = s.count + (s.pc t).debt)
    (hl : s'.lock = some t ∨ s'.lock = none) (hl' : s.lock = some t ∨ s.lock = none)
    (hq : s'.queue.erase t = s.queue.erase t) (hs : s'.signals = s.signals)
    (hr : s'.rets = s.rets) : without t s' = without t s := by
  ext1
  · exact hc
  · show (if s'.lock = some t then none else s'.lock) = if s.lock = some t then none else s.lock
    rcases hl with h | h <;> rcases hl' with h' | h' <;> simp [h, h']
  · exact hq
  · funext i
    by_cases hi : i = t
    · subst hi
      exact (hide_self i _).trans (hide_self i _).symm
    · exact hpc i hi
  · exact hs
  · exact hr

end

/-- **A step of the call itself is not seen.** -/
theorem without_own (hi : SemInv k s) (hs : run s t = some s') (ht : (s.pc t).mayFail = true)
    (ht' : (s'.pc t).mayFail = true) : without t s' = without t s := by
  have hother : ∀ {s₁ : State T} {p : Pc T} (i : T), i ≠ t →
      hide t i ((s₁.setPc t p).pc i) = hide t i (s₁.pc i) := by
    intro s₁ p i hit
    rw [show (State.setPc _ t _).pc i = _ from Function.update_of_ne hit _ _]
  have hself : ∀ {s₁ : State T} {p : Pc T}, (s₁.setPc t p).pc t = p := Function.update_self ..
  have hheld : (s.pc t).inside = true → s.lock = some t := (hi.lock t).2
  cases run_move hs with
  | waitLock hpc hfree =>
    refine without_eq hother ?_ (Or.inl rfl) (Or.inr hfree) rfl rfl rfl
    rw [hself, hpc]; rfl
  | decSleep hpc hc =>
    have hl := hheld (by rw [hpc]; rfl)
    refine without_eq hother ?_ (Or.inl hl) (Or.inl hl) rfl rfl rfl
    rw [hself, hpc]
    exact (Int32.sub_add_cancel ..).trans (Int32.add_zero _).symm
  | sleep hpc =>
    have hl := hheld (by rw [hpc]; rfl)
    have hn : t ∉ s.queue := by
      intro hm
      rw [(hi.queue.mem t).1 hm] at hpc
      cases hpc
    refine without_eq hother ?_ (Or.inr rfl) (Or.inl hl) ?_ rfl rfl
    · rw [hself, hpc]; rfl
    · show (t :: s.queue).erase t = _
      rw [List.erase_cons_head, List.erase_of_not_mem hn]
  | @relock κ hpc hfree =>
    refine without_eq hother ?_ (Or.inl rfl) (Or.inr hfree) rfl rfl rfl
    rw [hself, hpc]; rfl
  | rollback hpc =>
    have hl := hheld (by rw [hpc]; rfl)
    refine without_eq hother ?_ (Or.inl hl) (Or.inl hl) rfl rfl rfl
    rw [hself, hpc]
    exact Int32.add_zero _
  | decGot hpc hc => rw [hself] at ht'; cases ht'
  | testGot hpc hk => rw [hself] at ht'; cases ht'
  | retErr hpc => rw [hself] at ht'; cases ht'
  | intrMiss hpc => rfl
  | callWait hpc | callSignal hpc | intrTake hpc _ | ret0 hpc | sigLock hpc _ | sigInc hpc
  | sigNobody hpc _ | sigWake hpc _ | sigUnlock hpc | intrWake hpc =>
    rw [hpc] at ht
    cases ht

omit [Fintype T] in
/-- An interrupt that moves `t` and is hidden itself is not seen. -/
theorem hide_intr (pc : T → Pc T) {i : T} (p : Pc T) {q : Pc T}
    (hq : hide t i q = hide t i (pc i)) :
    (fun j => hide t j (Function.update (Function.update pc t p) i q j)) =
      fun j => hide t j (pc j) := by
  rw [hide_update, hide_update]
  funext j
  by_cases hji : j = i
  · subst hji
    rw [Function.update_self, hq]
  · rw [Function.update_of_ne hji]
    by_cases hjt : j = t
    · subst hjt
      rw [Function.update_self, hide_self, hide_self]
    · rw [Function.update_of_ne hjt]

/-- **A step of an interrupt aimed at the call is not seen.** -/
theorem without_take (hi : SemInv k s) {i : T} (hpi : s.pc i = .idle) (ht : s.pc t = .asleep) :
    without t (({ s with queue := s.queue.erase t }.setPc t .taken).setPc i (.intrWake t)) =
      without t s := by
  have hit : i ≠ t := by rintro rfl; rw [hpi] at ht; cases ht
  have hlock : s.lock ≠ some t := by
    intro hl
    have := (hi.lock t).1 hl
    rw [ht] at this
    cases this
  ext1
  · show s.count + (Function.update (Function.update s.pc t .taken) i _ t).debt = _
    rw [Function.update_of_ne hit.symm, Function.update_self]
    show s.count + 1 = s.count + (s.pc t).debt
    rw [ht]; rfl
  · rfl
  · show (s.queue.erase t).erase t = _
    rw [List.erase_of_not_mem fun hm => (hi.queue.nodup.mem_erase_iff.1 hm).1 rfl]
    rfl
  · exact hide_intr s.pc .taken (by rw [hpi]; simp [hide])
  · rfl
  · rfl

theorem without_wake (hi : SemInv k s) {i : T} (hpi : s.pc i = .intrWake t) :
    without t ((s.setPc t (.woken .interrupt)).setPc i .idle) = without t s := by
  have ht := hi.queue.taken i t hpi
  have hit : i ≠ t := by rintro rfl; rw [hpi] at ht; cases ht
  ext1
  · show s.count + (Function.update (Function.update s.pc t _) i .idle t).debt = _
    rw [Function.update_of_ne hit.symm, Function.update_self]
    show s.count + 1 = s.count + (s.pc t).debt
    rw [ht]; rfl
  · rfl
  · rfl
  · exact hide_intr s.pc (.woken .interrupt) (by rw [hpi]; simp [hide])
  · rfl
  · rfl

omit [DecidableEq T] in
/-- A thread that finds no token finds none without the call of `t` either. -/
theorem sleeps_without (hst : Starved s.count.toInt s.pc) (hcond : tally Pc.atCond s.pc = 0)
    (hc : s.count - 1 < 0) (hdebt : s.count.toInt + tally Pc.interrupted s.pc ≤ 0) :
    s.count + (s.pc t).debt - 1 < 0 := by
  cases hd : (s.pc t).inDebt with
  | false => rwa [Pc.debt, hd, if_neg Bool.false_ne_true, Int32.add_zero]
  | true =>
    rw [Pc.debt, hd, if_pos rfl, Int32.add_sub_cancel, Int32.lt_iff_toInt_lt, Int32.toInt_zero]
    rw [Pc.inDebt, Bool.or_eq_true] at hd
    rcases hd with hsl | hin
    · -- nobody sleeps while a token is left
      have hpos := tally_pos.2 ⟨t, hsl⟩
      have hleft := hst hpos
      omega
    · have hpos := tally_pos.2 ⟨t, hin⟩
      omega

omit [Fintype T] [DecidableEq T] in
/-- A thread that finds a token finds one without the call of `t`. -/
theorem passes_without (hmin : s.count ≠ Int32.minValue) (hc : ¬ s.count - 1 < 0) :
    ¬ s.count + (s.pc t).debt - 1 < 0 := by
  cases hd : (s.pc t).inDebt with
  | false => rwa [Pc.debt, hd, if_neg Bool.false_ne_true, Int32.add_zero]
  | true =>
    rw [Pc.debt, hd, if_pos rfl, Int32.add_sub_cancel, Int32.lt_iff_toInt_lt, Int32.toInt_zero]
    rw [pred_neg hmin] at hc
    omega

/-- **A step of another thread can be made without the call**, as long as no signal wakes `t`. -/
theorem without_other (hi : SemInv k s) (hst : Starved s.count.toInt s.pc) {j : T} (hj : j ≠ t)
    (hw : s.pc j ≠ .intrWake t) (hok : StepOk s (.run j)) (hs : run s j = some s')
    (ht' : (s'.pc t).mayFail = true) :
    run (without t s) j = some (without t s') := by
  have hpj : (without t s).pc j = s.pc j := hide_of_ne hj hw
  have hjt : some j ≠ some t := fun h => hj (Option.some.inj h)
  cases run_move hs with
  | waitLock hpc hfree =>
    have hl : (without t s).lock = none := by simp [without, hfree]
    rw [without_setPc (p := .waitDec) hj (by simp)]
    simp only [run, hpj, hpc, hl, if_true]
    congr 2
    ext1 <;> simp [without, hj]
  | decSleep hpc hc =>
    have hz := atCond_eq_zero hi.lock (t := j) (by rw [hpc]; rfl) (by rw [hpc]; rfl)
    have hle : s.count ≤ 0 := by
      rw [pred_neg (hok.1.1 hpc)] at hc
      rw [Int32.le_iff_toInt_le, Int32.toInt_zero]
      omega
    have hlt := sleeps_without (t := t) hst hz hc (hok.2 hpc hle)
    rw [without_setPc (p := .waitSleep) hj (by simp)]
    simp only [run, hpj, hpc]
    rw [if_pos (show (without t s).count - 1 < 0 from hlt)]
    congr 2
    ext1 <;> simp [without]
    grind
  | decGot hpc hc =>
    have hge := passes_without (t := t) (hok.1.1 hpc) hc
    rw [without_setPc (p := .waitGot) hj (by simp)]
    simp only [run, hpj, hpc]
    rw [if_neg (show ¬ (without t s).count - 1 < 0 from hge)]
    congr 2
    ext1 <;> simp [without]
    grind
  | sleep hpc =>
    rw [without_setPc (p := .asleep) hj (by simp)]
    simp only [run, hpj, hpc]
    congr 2
    ext1 <;> simp [without, List.erase_cons_tail, hj]
  | @relock κ hpc hfree =>
    have hl : (without t s).lock = none := by simp [without, hfree]
    rw [without_setPc (p := .waitTest κ) hj (by simp)]
    simp only [run, hpj, hpc, hl, if_true]
    congr 2
    ext1 <;> simp [without, hj]
  | rollback hpc =>
    rw [without_setPc (p := .waitErr) hj (by simp)]
    simp only [run, hpj, hpc, if_true]
    congr 2
    ext1 <;> simp [without]
    grind
  | @testGot κ hpc hk =>
    rw [without_setPc (p := .waitGot) hj (by simp)]
    simp only [run, hpj, hpc, hk, if_false]
  | retErr hpc =>
    rw [without_setPc (p := .idle) hj (by simp)]
    simp only [run, hpj, hpc]
    congr 2
  | ret0 hpc =>
    rw [without_setPc (p := .idle) hj (by simp)]
    simp only [run, hpj, hpc]
    congr 2
  | sigLock hpc hfree =>
    have hl : (without t s).lock = none := by simp [without, hfree]
    rw [without_setPc (p := .sigInc) hj (by simp)]
    simp only [run, hpj, hpc, hl, if_true]
    congr 2
    ext1 <;> simp [without, hj]
  | sigInc hpc =>
    rw [without_setPc (p := .sigCond) hj (by simp)]
    simp only [run, hpj, hpc]
    congr 2
    ext1 <;> simp [without]
    grind
  | sigNobody hpc hq =>
    have hl : (without t s).queue = [] := by simp [without, hq]
    rw [without_setPc (p := .sigUnlock) hj (by simp)]
    simp only [run, hpj, hpc, hl, List.getLast?_nil]
  | @sigWake l u hpc hq =>
    have hut : u ≠ t := by
      rintro rfl
      have : (({ s with queue := l }.setPc u (.woken .signal)).setPc j .sigUnlock).pc u =
          .woken .signal := (Function.update_of_ne hj.symm _ _).trans (Function.update_self ..)
      rw [this] at ht'
      cases ht'
    have hq' : (without t s).queue = l.erase t ++ [u] := by
      show s.queue.erase t = _
      rw [hq, List.erase_append]
      split
      · rfl
      · rename_i hn
        rw [List.erase_of_not_mem hn, List.erase_of_not_mem (by simpa using hut.symm)]
    rw [without_setPc (p := .sigUnlock) hj (by simp),
      without_setPc (p := .woken .signal) hut (by simp)]
    simp only [run, hpj, hpc, hq', List.getLast?_concat, List.dropLast_concat]
    congr 2
  | sigUnlock hpc =>
    rw [without_setPc (p := .idle) hj (by simp)]
    simp only [run, hpj, hpc]
    congr 2
  | @intrWake u hpc =>
    have hut : u ≠ t := by rintro rfl; exact hw hpc
    rw [without_setPc (p := .idle) hj (by simp),
      without_setPc (p := .woken .interrupt) hut (by simp)]
    simp only [run, hpj, hpc]
  | callWait hpc | callSignal hpc | intrTake hpc _ | intrMiss hpc =>
    simp only [run, hpc] at hs
    cases hs

/-- **One step, without the call of `t`**: it is not seen, or it can be made all the same. -/
theorem without_step {e : Event T} (hi : SemInv k s) (hst : Starved s.count.toInt s.pc)
    (hok : StepOk s e) (hs : step s e = some s') (ht : (s.pc t).mayFail = true)
    (ht' : (s'.pc t).mayFail = true) :
    without t s' = without t s ∨ step (without t s) e = some (without t s') := by
  have hidle : ∀ {j}, s.pc j = .idle → j ≠ t := by
    rintro j hj rfl
    rw [hj] at ht
    cases ht
  cases e with
  | wait j =>
    simp only [step] at hs
    split at hs
    · rename_i hpj
      cases hs
      have hpj' : (without t s).pc j = .idle :=
        (hide_of_ne (hidle hpj) (by rw [hpj]; simp)).trans hpj
      right
      rw [without_setPc (p := .waitLock) (hidle hpj) (by simp)]
      exact if_pos hpj'
    · cases hs
  | signal j =>
    simp only [step] at hs
    split at hs
    · rename_i hpj
      cases hs
      have hpj' : (without t s).pc j = .idle :=
        (hide_of_ne (hidle hpj) (by rw [hpj]; simp)).trans hpj
      right
      rw [without_setPc (p := .sigLock) (hidle hpj) (by simp)]
      exact if_pos hpj'
    · cases hs
  | interrupt i u =>
    simp only [step] at hs
    split at hs
    · rename_i hpi
      have hit := hidle hpi
      have hpi' : (without t s).pc i = .idle := (hide_of_ne hit (by rw [hpi]; simp)).trans hpi
      split at hs
      · rename_i hpu
        cases hs
        by_cases hut : u = t
        · subst hut
          exact Or.inl (without_take hi hpi hpu)
        · right
          have hpu' : (without t s).pc u = .asleep :=
            (hide_of_ne hut (by rw [hpu]; simp)).trans hpu
          have hne : (.intrWake u : Pc T) ≠ .intrWake t := fun h => hut (Pc.intrWake.inj h)
          rw [without_setPc (p := .intrWake u) hit hne, without_setPc (p := .taken) hut (by simp)]
          simp only [step, hpi', hpu', if_true]
          congr 3
          ext1 <;> simp [without, List.erase_comm]
      · cases hs
        exact Or.inl rfl
    · cases hs
  | run j =>
    by_cases hj : j = t
    · subst hj
      exact Or.inl (without_own hi hs ht ht')
    · by_cases hw : s.pc j = .intrWake t
      · have hs' : s' = (s.setPc t (.woken .interrupt)).setPc j .idle := by
          simp only [step, run, hw] at hs
          exact (Option.some.inj hs).symm
        rw [hs']
        exact Or.inl (without_wake hi hw)
      · exact Or.inr (without_other hi hst hj hw hok hs ht')

omit [Fintype T] in
/-- A thread that `t` does not touch may fail as before. -/
theorem mayFail_setPc {j : T} {p : Pc T} (h : ((s.setPc j p).pc t).mayFail = true)
    (hj : t = j → p.mayFail = true → (s.pc j).mayFail = true) : (s.pc t).mayFail = true := by
  by_cases htj : t = j
  · subst htj
    rw [show (s.setPc t p).pc t = p from Function.update_self ..] at h
    exact hj rfl h
  · rwa [show (s.setPc j p).pc t = s.pc t from Function.update_of_ne htj _ _] at h

/-- **A call that may still fail could fail before the step**, or is made by it. -/
theorem mayFail_back {j : T} (hi : SemInv k s) (hm : Move s j s')
    (ht' : (s'.pc t).mayFail = true) :
    (s.pc t).mayFail = true ∨ (s.pc t = .idle ∧ s' = s.setPc t .waitLock) := by
  cases hm with
  | callWait hpc =>
    by_cases htj : t = j
    · subst htj
      exact Or.inr ⟨hpc, rfl⟩
    · exact Or.inl (mayFail_setPc ht' fun h => absurd h htj)
  | @intrTake u hpc hu =>
    left
    have h₁ := mayFail_setPc ht' fun _ h => by cases h
    exact mayFail_setPc (s := { s with queue := s.queue.erase u }) h₁ fun _ _ => by
      show (s.pc u).mayFail = true
      rw [hu]; rfl
  | intrMiss hpc => exact Or.inl ht'
  | @sigWake l u hpc hq =>
    left
    have h₁ := mayFail_setPc ht' fun _ h => by cases h
    exact mayFail_setPc (s := { s with queue := l }) h₁ fun _ h => by cases h
  | @intrWake u hpc =>
    left
    have h₁ := mayFail_setPc ht' fun _ h => by cases h
    exact mayFail_setPc h₁ fun _ _ => by rw [hi.queue.taken j u hpc]; rfl
  | @relock κ hpc hfree =>
    refine Or.inl (mayFail_setPc (s := { s with lock := some j }) ht' ?_)
    intro _ h
    show (s.pc j).mayFail = true
    rw [hpc]; exact h
  | waitLock hpc hfree =>
    refine Or.inl (mayFail_setPc (s := { s with lock := some j }) ht' ?_)
    intro _ _
    show (s.pc j).mayFail = true
    rw [hpc]; rfl
  | decSleep hpc hc =>
    refine Or.inl (mayFail_setPc (s := { s with count := s.count - 1 }) ht' ?_)
    intro _ _
    show (s.pc j).mayFail = true
    rw [hpc]; rfl
  | sleep hpc =>
    refine Or.inl (mayFail_setPc (s := { s with queue := j :: s.queue, lock := none }) ht' ?_)
    intro _ _
    show (s.pc j).mayFail = true
    rw [hpc]; rfl
  | rollback hpc =>
    refine Or.inl (mayFail_setPc (s := { s with count := s.count + 1 }) ht' ?_)
    intro _ _
    show (s.pc j).mayFail = true
    rw [hpc]; rfl
  | callSignal hpc => exact Or.inl (mayFail_setPc ht' fun _ h => by cases h)
  | decGot hpc hc =>
    exact Or.inl (mayFail_setPc (s := { s with count := s.count - 1 }) ht' fun _ h => by cases h)
  | testGot hpc hk => exact Or.inl (mayFail_setPc ht' fun _ h => by cases h)
  | retErr hpc =>
    exact Or.inl (mayFail_setPc
      (s := { s with lock := none, rets := s.rets ++ [(j, -EINTR)] }) ht' fun _ h => by cases h)
  | ret0 hpc =>
    exact Or.inl (mayFail_setPc
      (s := { s with lock := none, rets := s.rets ++ [(j, 0)] }) ht' fun _ h => by cases h)
  | sigLock hpc hfree =>
    exact Or.inl (mayFail_setPc (s := { s with lock := some j }) ht' fun _ h => by cases h)
  | sigInc hpc =>
    exact Or.inl (mayFail_setPc
      (s := { s with count := s.count + 1, signals := s.signals + 1 }) ht' fun _ h => by cases h)
  | sigNobody hpc hq => exact Or.inl (mayFail_setPc ht' fun _ h => by cases h)
  | sigUnlock hpc =>
    exact Or.inl (mayFail_setPc (s := { s with lock := none }) ht' fun _ h => by cases h)

omit [Fintype T] in
/-- A thread outside the lock and the queue, whom nobody is about to unblock, can be hidden by
    setting it idle. -/
theorem without_outside (hn : ∀ i, s.pc i ≠ .intrWake t) (hq : t ∉ s.queue)
    (hd : (s.pc t).inDebt = false) :
    without t s = { s with lock := if s.lock = some t then none else s.lock }.setPc t .idle := by
  ext1
  · show s.count + (s.pc t).debt = s.count
    rw [Pc.debt, hd, if_neg Bool.false_ne_true, Int32.add_zero]
  · rfl
  · exact List.erase_of_not_mem hq
  · funext i
    show hide t i (s.pc i) = Function.update s.pc t .idle i
    by_cases hit : i = t
    · subst hit
      rw [hide_self, Function.update_self]
    · rw [hide_of_ne hit (hn i), Function.update_of_ne hit]
  · rfl
  · rfl

/-- **Without a call that has just begun nothing changes.** -/
theorem without_call (hi : SemInv k s) (hpc : s.pc t = .idle) :
    without t (s.setPc t .waitLock) = s := by
  have hl : s.lock ≠ some t := by
    intro hl
    have := (hi.lock t).1 hl
    rw [hpc] at this
    cases this
  have hq : t ∉ s.queue := by
    intro hm
    have := (hi.queue.mem t).1 hm
    rw [hpc] at this
    cases this
  have hn : ∀ i, (s.setPc t .waitLock).pc i ≠ .intrWake t := by
    intro i
    by_cases hit : i = t
    · subst hit
      rw [show (s.setPc i .waitLock).pc i = .waitLock from Function.update_self ..]
      exact fun h => by cases h
    · rw [show (s.setPc t .waitLock).pc i = s.pc i from Function.update_of_ne hit _ _]
      exact hi.queue.no_wake (by rw [hpc]; simp) i
  have hself : (s.setPc t .waitLock).pc t = .waitLock := Function.update_self ..
  rw [without_outside hn hq (by rw [hself]; rfl)]
  ext1
  · rfl
  · exact if_neg hl
  · rfl
  · show Function.update (Function.update s.pc t .waitLock) t .idle = s.pc
    rw [Function.update_idem, ← hpc, Function.update_eq_self]
  · rfl
  · rfl

/-- **Returning `-EINTR` leaves the state that would be there without the call.** -/
theorem without_return (hi : SemInv k s) (hpc : s.pc t = .waitErr) (hs : run s t = some s') :
    s' = { without t s with rets := s.rets ++ [(t, -EINTR)] } := by
  have hl : s.lock = some t := (hi.lock t).2 (by rw [hpc]; rfl)
  have hq : t ∉ s.queue := by
    intro hm
    have := (hi.queue.mem t).1 hm
    rw [hpc] at this
    cases this
  rw [without_outside (hi.queue.no_wake (by rw [hpc]; simp)) hq (by rw [hpc]; rfl), if_pos hl]
  simp only [run, hpc] at hs
  exact (Option.some.inj hs).symm

/-! ## Runs -/

/-- What a run whose steps all meet `StepOk` has established: sleepers are starved, and every
    call that may still return `-EINTR` could have been left out. -/
structure Fair (k : Int32) (s : State T) (hist : List (Event T)) : Prop where
  inv : SemInv k s
  starved : Starved s.count.toInt s.pc
  exec : Lts.exec step (semInit k) hist = some s
  erase : ∀ t, (s.pc t).mayFail = true →
    ∃ es, es.Sublist hist ∧ Lts.exec step (semInit k) es = some (without t s)

theorem fair_initial {k : Int32} (hk : 0 ≤ k) : Fair k (semInit k : State T) [] where
  inv := semInv_initial hk
  starved h := by
    obtain ⟨i, hi⟩ := tally_pos.1 h
    cases hi
  exec := rfl
  erase t ht := by cases ht

theorem Fair.step {hist : List (Event T)} {e : Event T} (h : Fair k s hist) (hok : StepOk s e)
    (hs : step s e = some s') : Fair k s' (hist ++ [e]) := by
  obtain ⟨j, hm, hj⟩ := step_move hs
  refine ⟨h.inv.step hok.1 hs,
    h.starved.move h.inv hm (hok.1.of_event hj) (hok.2.of_event hj),
    Lts.exec_concat.2 ⟨s, h.exec, hs⟩, ?_⟩
  · intro t ht'
    rcases mayFail_back h.inv hm ht' with ht | ⟨hpc, rfl⟩
    · obtain ⟨es, hsub, hes⟩ := h.erase t ht
      rcases without_step h.inv h.starved hok hs ht ht' with heq | hstep
      · exact ⟨es, hsub.trans (List.sublist_append_left ..), by rw [heq]; exact hes⟩
      · exact ⟨es ++ [e], hsub.append (List.Sublist.refl _), Lts.exec_concat.2 ⟨_, hes, hstep⟩⟩
    · rw [without_call h.inv hpc]
      exact ⟨hist, List.sublist_append_left .., h.exec⟩

/-- **No token is lost when a waiter is interrupted**, in a run in which no `sem_wait` goes to
sleep on account of a decrement that an interrupted waiter has still to undo: no thread sleeps
while a token is available, and a `sem_wait` that returns `-EINTR` leaves the semaphore and the
other threads as the run without that call does. -/
theorem no_token_lost_along {k : Int32} (hk : 0 ≤ k) (es : List (Event T)) {s : State T}
    (hok : Lts.Along step StepOk (semInit k) es) (h : Lts.exec step (semInit k) es = some s) :
    ((∀ t, s.pc t = .idle ∨ s.pc t = .asleep) → (∃ t, s.pc t = .asleep) →
      k.toInt + s.signals - s.ret0 = 0) ∧
    ∀ t s', s.pc t = .waitErr → step s (.run t) = some s' →
      ∃ es' s₀, es'.Sublist es ∧ Lts.exec step (semInit k) es' = some s₀ ∧
        s' = { s₀ with rets := s₀.rets ++ [(t, -EINTR)] } := by
  have hf : Fair k s es := Lts.exec_inv_hist StepOk (Fair k)
    (fun _ _ _ _ hi hok hs => hi.step hok hs) [] (fair_initial hk) hok h
  refine ⟨?_, ?_⟩
  · intro hall hsome
    have hpt : ∀ p : Pc T → Bool, p .idle = false → p .asleep = false → tally p s.pc = 0 := by
      intro p hp₁ hp₂
      rw [tally_eq_zero]
      intro t
      rcases hall t with ht | ht <;> rw [ht] <;> assumption
    have hin := hpt Pc.interrupted rfl rfl
    have hgr := hpt Pc.granted rfl rfl
    have hat := hpt Pc.atCond rfl rfl
    obtain ⟨t, ht⟩ := hsome
    have hst := hf.starved (tally_pos.2 ⟨t, by rw [ht]; rfl⟩)
    obtain ⟨ha, hb⟩ := hf.inv.numbers
    omega
  · intro t s' hpc hs
    obtain ⟨es', hsub, hes⟩ := hf.erase t (by rw [hpc]; rfl)
    exact ⟨es', _, hsub, hes, without_return hf.inv hpc hs⟩

/-- Thread `u` goes to sleep on an empty semaphore and is interrupted by thread `t`. -/
def interruptedWait {T : Type} (t u : T) : List (Event T) :=
  [.wait u, .run u, .run u, .run u, .interrupt t u, .run t, .run u, .run u]

theorem interruptedWait_has_no_effect :
    ∃ s s' : State (Fin 3), Lts.exec step (semInit 0) (interruptedWait 0 1) = some s ∧
      s.pc 1 = .waitErr ∧ step s (.run 1) = some s' ∧ s'.rets = [(1, -EINTR)] ∧
      ∃ es' s₀, es'.Sublist (interruptedWait 0 1) ∧ Lts.exec step (semInit 0) es' = some s₀ ∧
        s' = { s₀ with rets := s₀.rets ++ [(1, -EINTR)] } :=
  ⟨_, _, rfl, rfl, rfl, rfl,
    (no_token_lost_along (by decide) (interruptedWait 0 1) (by decide) rfl).2 1 _ rfl rfl⟩

/-- Thread `u` goes to sleep on an empty semaphore and is interrupted; before it runs again,
    thread `t` signals and thread `w` waits. -/
def signalInWindow {T : Type} (t u w : T) : List (Event T) :=
  [.wait u, .run u, .run u, .run u, .interrupt t u, .run t,
    .signal t, .run t, .run t, .run t, .run t, .wait w, .run w, .run w, .run w,
    .run u, .run u, .run u]

/-- **The signal is lost**: thread 2 sleeps, everybody else is idle, a token is there. -/
theorem signalInWindow_loses_token :
    ∃ s : State (Fin 3), Lts.exec step (semInit 0) (signalInWindow 0 1 2) = some s ∧
      (∀ t, s.pc t = .idle ∨ s.pc t = .asleep) ∧ s.pc 2 = .asleep ∧
      s.rets = [(1, -EINTR)] ∧ (0 : Int) + s.signals - s.ret0 = 1 :=
  ⟨_, rfl, by decide, rfl, rfl, rfl⟩

end Timix.Sem
