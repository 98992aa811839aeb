import Mathlib.Logic.Function.Basic

/-!
# Ownership tables

`own k` is the current owner of lock `k` and `holds i` the lock that actor `i` holds according
to its program point.  `Owned own holds` says that the two agree; taking a free lock and giving
a held one back keep the agreement, and two actors never hold the same lock.
-/

set_option autoImplicit false

namespace Owner

variable {K I : Type} {own : K → Option I} {holds : I → Option K}

/-- The lock table agrees with the program points. -/
def Owned (own : K → Option I) (holds : I → Option K) : Prop :=
  ∀ i k, own k = some i ↔ holds i = some k

theorem Owned.unique (h : Owned own holds) {i j : I} {k : K} (hi : holds i = some k)
    (hj : holds j = some k) : i = j := by
  have h1 := (h i k).2 hi
  rw [(h j k).2 hj] at h1
  exact (Option.some.inj h1).symm

theorem Owned.not_holds_of_free (h : Owned own holds) {k : K} (hk : own k = none) (i : I) :
    holds i ≠ some k := by
  intro hi
  rw [(h i k).2 hi] at hk
  cases hk

variable [DecidableEq K] [DecidableEq I]

/-- Taking a free lock. -/
theorem Owned.acquire (h : Owned own holds) {i : I} {k : K} (hk : own k = none)
    (hi : holds i = none) :
    Owned (Function.update own k (some i)) (Function.update holds i (some k)) := by
  intro j l
  by_cases hj : j = i <;> by_cases hl : l = k
  · subst hj hl; simp
  · subst hj
    have : own l ≠ some j := by
      intro ho
      rw [(h j l).1 ho] at hi
      cases hi
    simp [Function.update_of_ne hl, Ne.symm hl, this]
  · subst hl
    simp [Function.update_of_ne hj, Ne.symm hj, h.not_holds_of_free hk j]
  · simp [Function.update_of_ne hj, Function.update_of_ne hl, h j l]

/-- Giving a held lock back. -/
theorem Owned.release (h : Owned own holds) {i : I} {k : K} (hi : holds i = some k) :
    Owned (Function.update own k none) (Function.update holds i none) := by
  intro j l
  by_cases hj : j = i <;> by_cases hl : l = k
  · subst hj hl; simp
  · subst hj
    have : own l ≠ some j := by
      intro ho
      rw [(h j l).1 ho] at hi
      exact hl (Option.some.inj hi)
    simp [Function.update_of_ne hl, this]
  · subst hl
    have : holds j ≠ some l := fun hh => hj (h.unique hh hi)
    simp [Function.update_of_ne hj, this]
  · simp [Function.update_of_ne hj, Function.update_of_ne hl, h j l]

/-- A point that an update to another one leaves was there before. -/
theorem eq_of_update {P : Type} {pc : I → P} {i j : I} {p q : P}
    (h : Function.update pc i p j = q) (hne : p ≠ q) : pc j = q := by
  by_cases hj : j = i
  · subst hj
    rw [Function.update_self] at h
    exact absurd h hne
  · rwa [Function.update_of_ne hj] at h

/-! ## Locks held at program points

`f i p` is the lock actor `i` holds at program point `p`. -/

section Points

variable {P : Type} {f : I → P → Option K} {pc : I → P} {i : I} {p : P} {k : K}

omit [DecidableEq K] in
theorem Owned.move (h : Owned own (fun j => f j (pc j))) (hp : f i p = f i (pc i)) :
    Owned own (fun j => f j (Function.update pc i p j)) := by
  have : (fun j => f j (Function.update pc i p j)) = fun j => f j (pc j) := by
    simp only [Function.apply_update, hp, Function.update_eq_self]
  rwa [this]

theorem Owned.take (h : Owned own (fun j => f j (pc j))) (hk : own k = none)
    (hi : f i (pc i) = none) (hp : f i p = some k) :
    Owned (Function.update own k (some i)) (fun j => f j (Function.update pc i p j)) := by
  have := h.acquire hk hi
  rw [← hp] at this
  simpa only [Function.apply_update] using this

theorem Owned.drop (h : Owned own (fun j => f j (pc j))) (hi : f i (pc i) = some k)
    (hp : f i p = none) :
    Owned (Function.update own k none) (fun j => f j (Function.update pc i p j)) := by
  have := h.release hi
  rw [← hp] at this
  simpa only [Function.apply_update] using this

end Points

/-! ## One lock

`f p` says whether the lock is held at program point `p`. -/

section Held

variable {P : Type} {own : Option I} {f : P → Bool} {pc : I → P} {i j : I} {p : P}

/-- The owner of the lock is the one actor at a program point that holds it. -/
def Held (own : Option I) (f : P → Bool) (pc : I → P) : Prop :=
  ∀ i, own = some i ↔ f (pc i) = true

omit [DecidableEq I] in
theorem Held.unique (h : Held own f pc) (hi : f (pc i) = true) (hj : f (pc j) = true) : i = j := by
  have h1 := (h i).2 hi
  rw [(h j).2 hj] at h1
  exact (Option.some.inj h1).symm

omit [DecidableEq I] in
theorem Held.not_of_free (h : Held own f pc) (hk : own = none) (i : I) : f (pc i) = false := by
  cases hi : f (pc i) with
  | false => rfl
  | true =>
    rw [(h i).2 hi] at hk
    cases hk

theorem Held.move (h : Held own f pc) (hp : f p = f (pc i)) :
    Held own f (Function.update pc i p) := by
  apply (Function.forall_update_iff _ fun j (q : P) => own = some j ↔ f q = true).2
  refine ⟨?_, fun j _ => h j⟩
  rw [hp]
  exact h i

theorem Held.take (h : Held own f pc) (hk : own = none) (hp : f p = true) :
    Held (some i) f (Function.update pc i p) := by
  apply (Function.forall_update_iff _ fun j (q : P) => some i = some j ↔ f q = true).2
  refine ⟨iff_of_true rfl hp, ?_⟩
  intro j hj
  rw [h.not_of_free hk j]
  exact iff_of_false (fun hi => hj (Option.some.inj hi).symm) (by decide)

theorem Held.drop (h : Held own f pc) (hi : f (pc i) = true) (hp : f p = false) :
    Held none f (Function.update pc i p) := by
  apply (Function.forall_update_iff _ fun j (q : P) => none = some j ↔ f q = true).2
  refine ⟨by simp [hp], ?_⟩
  intro j hj
  exact iff_of_false (by simp) fun hj' => hj (h.unique hj' hi)

end Held

end Owner
