import Mathlib.Logic.Basic

/-!
# Programs with loops over a state

A `Comp σ α` plays from a state of type `σ` with a bound on the turns of its loops; more turns
never change a result, which is part of the type.  `none` is an action that is not allowed, or
too small a bound.

`p.Returns s a t` says that `p`, played from `s`, comes to its end with value `a` in state `t`.
One rule for each construct takes it apart and puts it together:

* `returns_pure`, `returns_bind`, `returns_act`, `returns_ite`;
* `returns_loop`, `returns_turns`, `returns_leave` — one turn of a loop, several, the last;
* `returns_loop_inv` — what every turn keeps holds at the end.
-/

set_option autoImplicit false

universe u v

/-- What a turn of a loop leads to: another turn, or the end of the loop. -/
inductive Turn (β : Type v) (α : Type v) where
  | again (b : β)
  | leave (a : α)

/-- A program over a state. -/
structure Comp (σ : Type u) (α : Type v) where
  run : Nat → σ → Option (α × σ)
  mono : ∀ {n s r}, run n s = some r → run (n + 1) s = some r

namespace Comp

variable {σ : Type u} {α β : Type v}

theorem mono_le (p : Comp σ α) {n k : Nat} (h : n ≤ k) {s : σ} {r : α × σ}
    (hr : p.run n s = some r) : p.run k s = some r := by
  induction h with
  | refl => exact hr
  | step _ ih => exact p.mono ih

protected def pure (a : α) : Comp σ α where
  run _ s := some (a, s)
  mono h := h

protected def bind (p : Comp σ α) (f : α → Comp σ β) : Comp σ β where
  run n s := (p.run n s).bind fun r => (f r.1).run n r.2
  mono h := by
    obtain ⟨r, hr, hf⟩ := Option.bind_eq_some_iff.1 h
    exact Option.bind_eq_some_iff.2 ⟨r, p.mono hr, (f r.1).mono hf⟩

instance : Monad (Comp σ) where
  pure := Comp.pure
  bind := Comp.bind

/-- A single action. -/
def act (f : σ → Option (α × σ)) : Comp σ α where
  run _ s := f s
  mono h := h

/-- At most `n` turns of a loop. -/
def turns (body : β → Comp σ (Turn β α)) : Nat → β → σ → Option (α × σ)
  | 0, _, _ => none
  | n + 1, b, s =>
    match (body b).run n s with
    | none => none
    | some (.again c, t) => turns body n c t
    | some (.leave a, t) => some (a, t)

theorem turns_mono (body : β → Comp σ (Turn β α)) {n : Nat} {b : β} {s : σ} {r : α × σ}
    (h : turns body n b s = some r) : turns body (n + 1) b s = some r := by
  induction n generalizing b s with
  | zero => cases h
  | succ n ih =>
    rw [turns] at h ⊢
    cases hrun : (body b).run n s with
    | none =>
      rw [hrun] at h
      cases h
    | some x =>
      rw [hrun] at h
      rw [(body b).mono hrun]
      match x, h with
      | (.again c, t), h => exact ih h
      | (.leave a, t), h => exact h

/-- A loop; the locals are `b` before the first turn. -/
def loop (body : β → Comp σ (Turn β α)) (b : β) : Comp σ α where
  run n s := turns body n b s
  mono := turns_mono body

/-! ## What a program returns -/

/-- Played from `s`, the program comes to its end with value `a` in state `t`. -/
def Returns (p : Comp σ α) (s : σ) (a : α) (t : σ) : Prop := ∃ n, p.run n s = some (a, t)

variable {s t : σ} {a : α} {b : β}

theorem Returns.unique {p : Comp σ α} {a' : α} {t' : σ} (h : p.Returns s a t)
    (h' : p.Returns s a' t') : a = a' ∧ t = t' := by
  obtain ⟨n, hn⟩ := h
  obtain ⟨k, hk⟩ := h'
  have hn' := p.mono_le (Nat.le_max_left n k) hn
  have hk' := p.mono_le (Nat.le_max_right n k) hk
  exact Prod.mk.inj (Option.some.inj (hn'.symm.trans hk'))

@[simp] theorem returns_pure {a' : α} :
    (pure a' : Comp σ α).Returns s a t ↔ a' = a ∧ s = t := by
  constructor
  · rintro ⟨n, hn⟩
    exact Prod.mk.inj (Option.some.inj hn)
  · rintro ⟨rfl, rfl⟩
    exact ⟨0, rfl⟩

theorem returns_bind {p : Comp σ α} {f : α → Comp σ β} :
    (p >>= f).Returns s b t ↔ ∃ a u, p.Returns s a u ∧ (f a).Returns u b t := by
  constructor
  · rintro ⟨n, hn⟩
    obtain ⟨⟨a, u⟩, hp, hf⟩ := Option.bind_eq_some_iff.1 hn
    exact ⟨a, u, ⟨n, hp⟩, n, hf⟩
  · rintro ⟨a, u, ⟨n, hn⟩, k, hk⟩
    exact ⟨max n k, Option.bind_eq_some_iff.2 ⟨(a, u), p.mono_le (Nat.le_max_left n k) hn,
      (f a).mono_le (Nat.le_max_right n k) hk⟩⟩

@[simp] theorem returns_pure_bind {f : α → Comp σ β} :
    (pure a >>= f).Returns s b t ↔ (f a).Returns s b t := Iff.rfl

@[simp] theorem returns_act {f : σ → Option (α × σ)} :
    (act f).Returns s a t ↔ f s = some (a, t) :=
  ⟨fun ⟨_, h⟩ => h, fun h => ⟨0, h⟩⟩

@[simp] theorem returns_ite {c : Prop} [Decidable c] {p q : Comp σ α} :
    (if c then p else q).Returns s a t ↔ if c then p.Returns s a t else q.Returns s a t := by
  split <;> rfl

/-- **One turn of a loop.** -/
theorem returns_loop {body : β → Comp σ (Turn β α)} {b : β} :
    (loop body b).Returns s a t ↔
      (∃ c u, (body b).Returns s (.again c) u ∧ (loop body c).Returns u a t) ∨
        (body b).Returns s (.leave a) t := by
  constructor
  · rintro ⟨n, hn⟩
    cases n with
    | zero => cases hn
    | succ n =>
      change turns body (n + 1) b s = some (a, t) at hn
      rw [turns] at hn
      split at hn
      · cases hn
      · exact Or.inl ⟨_, _, ⟨n, ‹_›⟩, n, hn⟩
      · cases hn
        exact Or.inr ⟨n, ‹_›⟩
  · rintro (⟨c, u, ⟨n, hn⟩, k, hk⟩ | ⟨n, hn⟩)
    · refine ⟨max n k + 1, ?_⟩
      change turns body (max n k + 1) b s = some (a, t)
      rw [turns, (body b).mono_le (Nat.le_max_left n k) hn]
      exact (loop body c).mono_le (Nat.le_max_right n k) hk
    · refine ⟨n + 1, ?_⟩
      change turns body (n + 1) b s = some (a, t)
      rw [turns, hn]

/-- **Several turns of a loop**, all to another turn: before turn `i` the locals are `f i` in
    state `g i`, and the turn goes through if `ok i`. -/
theorem returns_turns {body : β → Comp σ (Turn β α)} (f : Nat → β) (g : Nat → σ) (ok : Nat → Prop)
    {k : Nat} (hturn : ∀ i < k, ∀ x u, (body (f i)).Returns (g i) x u ↔
      ok i ∧ .again (f (i + 1)) = x ∧ g (i + 1) = u) :
    (loop body (f 0)).Returns (g 0) a t ↔
      (∀ i < k, ok i) ∧ (loop body (f k)).Returns (g k) a t := by
  induction k with
  | zero => simp
  | succ k ih =>
    rw [ih fun i hi => hturn i (by omega)]
    have hlast : (loop body (f k)).Returns (g k) a t ↔
        ok k ∧ (loop body (f (k + 1))).Returns (g (k + 1)) a t := by
      rw [returns_loop]
      simp only [hturn k (Nat.lt_succ_self k)]
      constructor
      · rintro (⟨c, u, ⟨hok, heq, rfl⟩, hrest⟩ | ⟨-, heq, -⟩)
        · cases heq
          exact ⟨hok, hrest⟩
        · cases heq
      · rintro ⟨hok, hrest⟩
        exact Or.inl ⟨_, _, ⟨hok, rfl, rfl⟩, hrest⟩
    rw [hlast]
    constructor
    · rintro ⟨hall, hok, hrest⟩
      refine ⟨?_, hrest⟩
      intro i hi
      rcases Nat.lt_succ_iff_lt_or_eq.1 hi with hlt | rfl
      · exact hall i hlt
      · exact hok
    · rintro ⟨hall, hrest⟩
      exact ⟨fun i hi => hall i (by omega), hall k (by omega), hrest⟩

/-- The last turn of a loop. -/
theorem returns_leave (ok : Prop) (a' : α) (t' : σ) {body : β → Comp σ (Turn β α)} {b : β}
    (h : ∀ x u, (body b).Returns s x u ↔ ok ∧ .leave a' = x ∧ t' = u) :
    (loop body b).Returns s a t ↔ ok ∧ a' = a ∧ t' = t := by
  rw [returns_loop]
  simp only [h]
  constructor
  · rintro (⟨c, u, ⟨-, heq, -⟩, -⟩ | ⟨hok, heq, ht⟩)
    · cases heq
    · cases heq
      exact ⟨hok, rfl, ht⟩
  · rintro ⟨hok, rfl, ht⟩
    exact Or.inr ⟨hok, rfl, ht⟩

/-- A turn that does not come to its end. -/
theorem not_returns_loop {body : β → Comp σ (Turn β α)} {b : β}
    (h : ∀ x u, ¬ (body b).Returns s x u) : ¬ (loop body b).Returns s a t := by
  rw [returns_loop]
  rintro (⟨c, u, hbody, -⟩ | hbody)
  · exact h _ _ hbody
  · exact h _ _ hbody

/-- **Invariants of a loop**: `I` holds before every turn, `Q` at the end. -/
theorem returns_loop_inv {body : β → Comp σ (Turn β α)} (I : β → σ → Prop) (Q : α → σ → Prop)
    (hagain : ∀ b s c t, I b s → (body b).Returns s (.again c) t → I c t)
    (hleave : ∀ b s a t, I b s → (body b).Returns s (.leave a) t → Q a t) {b : β} (hI : I b s)
    (h : (loop body b).Returns s a t) : Q a t := by
  obtain ⟨n, hn⟩ := h
  change turns body n b s = some (a, t) at hn
  induction n generalizing b s with
  | zero => cases hn
  | succ n ih =>
    rw [turns] at hn
    split at hn
    · cases hn
    · exact ih (hagain _ _ _ _ hI ⟨n, ‹_›⟩) hn
    · cases hn
      exact hleave _ _ _ _ hI ⟨n, ‹_›⟩

end Comp
