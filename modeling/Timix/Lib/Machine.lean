import Mathlib.Logic.Basic

/-!
# Routines of a machine

`step s` runs one instruction: it goes on (`running`), hands control back (`returned`), or has
nothing to run (`none`).  `run step n s` plays at most `n` instructions; `Returns step s t` says
that the routine started in `s` comes back in `t`.

`Returns.next`, `Returns.of_steps` and `Returns.ret` play instructions from the front;
`run_unique` says that there is one way to come back, `run_eq_none` that a routine which stays
within an invariant of running states never does.  `count step p n s` counts the instructions
that start in a state satisfying `p`; `guarded ok step` has only those that do.  `Reaches` plays
some instructions, `Reaches.passes` the passes of a loop.  `Returns.of_invariant` is the rule for
what holds when a routine comes back, `Returns.call_iff` the one for a call of a routine that is
known as a machine of its own.
-/

set_option autoImplicit false

namespace Machine

universe u

/-- What one instruction leads to. -/
inductive Outcome (σ : Type u) where
  | running (s : σ)
  | returned (s : σ)

def Outcome.state {σ : Type u} : Outcome σ → σ
  | .running s => s
  | .returned s => s

variable {σ : Type u} {step : σ → Option (Outcome σ)} {s t u : σ}

/-- Play at most `n` instructions; `none` if the routine has not returned by then. -/
def run (step : σ → Option (Outcome σ)) : Nat → σ → Option σ
  | 0, _ => none
  | n + 1, s =>
    match step s with
    | none => none
    | some (.running t) => run step n t
    | some (.returned t) => some t

/-- The routine returns. -/
def Returns (step : σ → Option (Outcome σ)) (s t : σ) : Prop := ∃ n, run step n s = some t

/-- Play exactly `n` instructions, none of which returns. -/
def steps (step : σ → Option (Outcome σ)) : Nat → σ → Option σ
  | 0, s => some s
  | n + 1, s =>
    match step s with
    | some (.running t) => steps step n t
    | _ => none

theorem Returns.ret (h : step s = some (.returned t)) : Returns step s t :=
  ⟨1, by simp [run, h]⟩

theorem Returns.next (h : step s = some (.running t)) (ht : Returns step t u) :
    Returns step s u := by
  obtain ⟨n, hn⟩ := ht
  exact ⟨n + 1, by simp [run, h, hn]⟩

theorem Returns.of_steps : ∀ {n : Nat} {s : σ}, steps step n s = some t → Returns step t u →
    Returns step s u
  | 0, s, h, ht => by
    obtain rfl : s = t := Option.some.inj h
    exact ht
  | n + 1, s, h, ht => by
    simp only [steps] at h
    split at h
    · exact Returns.next ‹_› (Returns.of_steps h ht)
    · cases h

theorem run_succ (n : Nat) (s : σ) :
    run step (n + 1) s =
      match step s with
      | none => none
      | some (.running t) => run step n t
      | some (.returned t) => some t := rfl

theorem run_mono : ∀ {n : Nat} (k : Nat) {s : σ}, run step n s = some t →
    run step (k + n) s = some t
  | 0, _, _, h => by cases h
  | n + 1, k, s, h => by
    rw [← Nat.add_assoc, run_succ]
    rw [run_succ] at h
    split at h
    · cases h
    · exact run_mono k h
    · exact h

theorem run_unique : ∀ {n m : Nat} {s : σ}, run step n s = some t → run step m s = some u → t = u
  | 0, _, _, h, _ => by cases h
  | _ + 1, 0, _, _, h => by cases h
  | n + 1, m + 1, s, h, h' => by
    simp only [run] at h h'
    split at h
    · cases h
    · rename_i hs
      rw [hs] at h'
      exact run_unique h h'
    · rename_i hs
      rw [hs] at h'
      exact Option.some.inj (h.symm.trans h')

theorem Returns.unique (h : Returns step s t) (h' : Returns step s u) : t = u := by
  obtain ⟨n, hn⟩ := h
  obtain ⟨m, hm⟩ := h'
  exact run_unique hn hm

/-- **Divergence**: what keeps running within an invariant does not return. -/
theorem run_eq_none {I : σ → Prop} (hI : ∀ s, I s → ∃ t, step s = some (.running t) ∧ I t) :
    ∀ (n : Nat) {s : σ}, I s → run step n s = none
  | 0, _, _ => rfl
  | n + 1, s, hs => by
    obtain ⟨t, ht, hIt⟩ := hI s hs
    simp only [run, ht]
    exact run_eq_none hI n hIt

theorem run_of_steps : ∀ {k : Nat} {s : σ} (n : Nat), steps step k s = some t →
    run step (k + n) s = run step n t
  | 0, s, n, h => by
    obtain rfl : s = t := Option.some.inj h
    rw [Nat.zero_add]
  | k + 1, s, n, h => by
    simp only [steps] at h
    split at h
    · rename_i m hm
      rw [Nat.add_right_comm, run, hm]
      exact run_of_steps n h
    · cases h

theorem steps_concat (hu : step t = some (.running u)) :
    ∀ {k : Nat} {s : σ}, steps step k s = some t → steps step (k + 1) s = some u
  | 0, s, h => by
    obtain rfl : s = t := Option.some.inj h
    simp [steps, hu]
  | k + 1, s, h => by
    rw [steps] at h ⊢
    split at h
    · exact steps_concat hu h
    · cases h

/-- A routine that gets to `t`, from where it does not return, does not return. -/
theorem not_returns_of_steps {k : Nat} (hk : steps step k s = some t)
    (ht : ∀ n, run step n t = none) (n : Nat) : run step n s = none := by
  cases hn : run step n s with
  | none => rfl
  | some u =>
    have hu := run_mono k hn
    rw [run_of_steps n hk, ht n] at hu
    cases hu

/-- The number of instructions, among at most `n`, that start in a state satisfying `p`. -/
def count (step : σ → Option (Outcome σ)) (p : σ → Bool) : Nat → σ → Nat
  | 0, _ => 0
  | n + 1, s =>
    (p s).toNat +
      match step s with
      | some (.running t) => count step p n t
      | _ => 0

/-- Only the instructions that start in a state satisfying `ok`. -/
def guarded (ok : σ → Bool) (step : σ → Option (Outcome σ)) (s : σ) : Option (Outcome σ) :=
  if ok s then step s else none

/-- Some instructions lead from `s` to `t`. -/
def Reaches (step : σ → Option (Outcome σ)) (s t : σ) : Prop := ∃ n, steps step n s = some t

theorem Reaches.refl (s : σ) : Reaches step s s := ⟨0, rfl⟩

theorem steps_add : ∀ {k : Nat} {s : σ} (n : Nat), steps step k s = some t →
    steps step (k + n) s = steps step n t
  | 0, s, n, h => by
    obtain rfl : s = t := Option.some.inj h
    rw [Nat.zero_add]
  | k + 1, s, n, h => by
    simp only [steps] at h
    split at h
    · rename_i m hm
      rw [Nat.add_right_comm, steps, hm]
      exact steps_add n h
    · cases h

theorem Reaches.trans (h : Reaches step s t) (h' : Reaches step t u) : Reaches step s u := by
  obtain ⟨k, hk⟩ := h
  obtain ⟨n, hn⟩ := h'
  exact ⟨k + n, (steps_add n hk).trans hn⟩

theorem Reaches.next (h : step s = some (.running t)) (ht : Reaches step t u) :
    Reaches step s u := by
  obtain ⟨n, hn⟩ := ht
  exact ⟨n + 1, by rw [steps, h]; exact hn⟩

theorem Returns.of_reaches (h : Reaches step s t) (h' : Returns step t u) : Returns step s u := by
  obtain ⟨k, hk⟩ := h
  exact Returns.of_steps hk h'

/-- **A loop of `N` passes**: pass `i` leads from `I i` to `I (i + 1)`. -/
theorem Reaches.passes {N : Nat} (I : Nat → σ → Prop)
    (hpass : ∀ i < N, ∀ s, I i s → ∃ t, Reaches step s t ∧ I (i + 1) t) (h0 : I 0 s) :
    ∃ t, Reaches step s t ∧ I N t := by
  induction N with
  | zero => exact ⟨s, Reaches.refl s, h0⟩
  | succ N ih =>
    obtain ⟨t, hst, hIt⟩ := ih fun i hi => hpass i (by omega)
    obtain ⟨u, htu, hIu⟩ := hpass N (by omega) t hIt
    exact ⟨u, hst.trans htu, hIu⟩

theorem Returns.of_guarded {ok : σ → Bool} (h : Returns (guarded ok step) s t) :
    Returns step s t := by
  obtain ⟨n, hn⟩ := h
  refine ⟨n, ?_⟩
  induction n generalizing s with
  | zero => cases hn
  | succ n ih =>
    rw [run_succ, guarded] at hn
    rw [run_succ]
    by_cases hok : ok s
    · rw [if_pos hok] at hn
      split at hn
      · cases hn
      · exact ih hn
      · exact hn
    · rw [if_neg hok] at hn
      cases hn

/-- What is left of a run behind its first instructions. -/
theorem Returns.after (h : Reaches step s t) (hu : Returns step s u) : Returns step t u := by
  obtain ⟨k, hk⟩ := h
  obtain ⟨n, hn⟩ := hu
  exact ⟨n, (run_of_steps n hk).symm.trans (run_mono k hn)⟩

theorem Returns.step_cases (h : Returns step s u) :
    (∃ t, step s = some (.running t) ∧ Returns step t u) ∨ step s = some (.returned u) := by
  obtain ⟨n, hn⟩ := h
  cases n with
  | zero => cases hn
  | succ n =>
    rw [run_succ] at hn
    split at hn
    · cases hn
    · rename_i t ht
      exact .inl ⟨t, ht, n, hn⟩
    · rename_i t ht
      rw [ht, Option.some.inj hn]
      exact .inr rfl

/-- **What holds on return**: by induction on the run, from what holds before every instruction. -/
theorem Returns.of_invariant {I Q : σ → Prop}
    (hrun : ∀ s t, I s → step s = some (.running t) → I t)
    (hret : ∀ s t, I s → step s = some (.returned t) → Q t) (hs : I s) (h : Returns step s t) :
    Q t := by
  obtain ⟨n, hn⟩ := h
  induction n generalizing s with
  | zero => cases hn
  | succ n ih =>
    rw [run_succ] at hn
    split at hn
    · cases hn
    · rename_i s' hs'
      exact ih (hrun s s' hs hs') hn
    · rename_i s' hs'
      rw [← Option.some.inj hn]
      exact hret s s' hs hs'

/-! ## Calls

`routine` is a machine of its own, `lift` its state inside the caller's, and `back` what the
caller goes on with when the routine returns. -/

section Call

variable {τ : Type u} {routine : τ → Option (Outcome τ)} {lift back : τ → σ} {I : τ → Prop}

/-- An outcome of the routine, as the caller has it. -/
def Outcome.inside (lift back : τ → σ) : Outcome τ → Outcome σ
  | .running t => .running (lift t)
  | .returned t => .running (back t)

theorem Reaches.call
    (hstep : ∀ a, I a → step (lift a) = (routine a).map (Outcome.inside lift back))
    (hI : ∀ a b, I a → routine a = some (.running b) → I b) {a b : τ} (ha : I a)
    (h : Returns routine a b) : Reaches step (lift a) (back b) := by
  obtain ⟨n, hn⟩ := h
  induction n generalizing a with
  | zero => cases hn
  | succ n ih =>
    rw [run_succ] at hn
    split at hn
    · cases hn
    · rename_i c hc
      obtain ⟨k, hk⟩ := ih (hI a c ha hc) hn
      refine ⟨k + 1, ?_⟩
      rw [steps, hstep a ha, hc]
      exact hk
    · rename_i c hc
      refine ⟨1, ?_⟩
      rw [steps, hstep a ha, hc, ← Option.some.inj hn]
      rfl

/-- **A call**: the caller comes back if the routine does, and then goes on behind it. -/
theorem Returns.call_iff
    (hstep : ∀ a, I a → step (lift a) = (routine a).map (Outcome.inside lift back))
    (hI : ∀ a b, I a → routine a = some (.running b) → I b) {a : τ} (ha : I a) :
    Returns step (lift a) u ↔ ∃ b, Returns routine a b ∧ Returns step (back b) u := by
  constructor
  · rintro ⟨n, hn⟩
    induction n generalizing a with
    | zero => cases hn
    | succ n ih =>
      rw [run_succ, hstep a ha] at hn
      cases hr : routine a with
      | none =>
        rw [hr] at hn
        cases hn
      | some o =>
        rw [hr] at hn
        cases o with
        | running c =>
          obtain ⟨b, hb, hu⟩ := ih (hI a c ha hr) hn
          exact ⟨b, Returns.next hr hb, hu⟩
        | returned b => exact ⟨b, Returns.ret hr, n, hn⟩
  · rintro ⟨b, hb, hu⟩
    exact Returns.of_reaches (Reaches.call hstep hI ha hb) hu

end Call

end Machine
