import Mathlib.Data.Nat.Find
import Mathlib.Data.List.Pairwise

/-!
# Maximal stretches of positions

`P` says of every position, a natural number, whether it is inside.

* `Stretch P i j` — the positions from `i` up to `j` are a maximal non-empty stretch inside.
* `FirstStretch P k i j` — the first one that a scan from `k` comes to.
* `StretchesFrom P k l` — `l` has the stretches from `k` on, in order; the list goes on behind its
  first one (`StretchesFrom.cons`).
-/

set_option autoImplicit false

variable {P : Nat → Prop} {i j k : Nat} {l : List (Nat × Nat)}

structure Stretch (P : Nat → Prop) (i j : Nat) : Prop where
  lt : i < j
  inside : ∀ x, i ≤ x → x < j → P x
  left : ∀ x, x + 1 = i → ¬ P x
  right : ¬ P j

/-- Scanning from `k`, positions outside, then those of a stretch. -/
structure FirstStretch (P : Nat → Prop) (k i j : Nat) : Prop where
  le : k ≤ i
  lt : i < j
  skipped : ∀ x, k ≤ x → x < i → ¬ P x
  inside : ∀ x, i ≤ x → x < j → P x
  right : ¬ P j

/-- All stretches from `k` on, in order. -/
structure StretchesFrom (P : Nat → Prop) (k : Nat) (l : List (Nat × Nat)) : Prop where
  sorted : l.Pairwise fun a b => a.1 < b.1
  mem_iff : ∀ i j, (i, j) ∈ l ↔ k ≤ i ∧ Stretch P i j

/-- If something is inside from `k` on, and in the end nothing is, there is a first stretch. -/
theorem exists_firstStretch {n : Nat} (h : ∃ x, k ≤ x ∧ P x) (hn : ∀ x, n ≤ x → ¬ P x) :
    ∃ i j, FirstStretch P k i j := by
  classical
  obtain ⟨hki, hPi⟩ := Nat.find_spec h
  have hend : ∃ y, Nat.find h ≤ y ∧ ¬ P y := by
    refine ⟨max (Nat.find h) n, Nat.le_max_left _ _, hn _ (Nat.le_max_right _ _)⟩
  obtain ⟨hij, hPj⟩ := Nat.find_spec hend
  refine ⟨Nat.find h, Nat.find hend, hki, ?_, ?_, ?_, hPj⟩
  · rcases Nat.lt_or_eq_of_le hij with hlt | heq
    · exact hlt
    · rw [← heq] at hPj
      exact absurd hPi hPj
  · intro x hkx hx hPx
    exact Nat.find_min h hx ⟨hkx, hPx⟩
  · intro x hix hx
    by_contra hPx
    exact Nat.find_min hend hx ⟨hix, hPx⟩

namespace FirstStretch

theorem lt_of_end {n : Nat} (h : FirstStretch P k i j) (hn : ∀ x, n ≤ x → ¬ P x) : i < n := by
  by_contra hge
  exact hn i (by omega) (h.inside i (Nat.le_refl _) h.lt)

theorem le_of_end {n : Nat} (h : FirstStretch P k i j) (hn : ∀ x, n ≤ x → ¬ P x) : j ≤ n := by
  by_contra hgt
  have hlt := h.lt_of_end hn
  exact hn n (Nat.le_refl _) (h.inside n (by omega) (by omega))

/-- A first stretch is maximal if `k` is a place where one may begin. -/
theorem stretch (h : FirstStretch P k i j) (hk : ∀ x, x + 1 = k → ¬ P x) : Stretch P i j where
  lt := h.lt
  inside := h.inside
  left x hx := by
    rcases Nat.lt_or_ge x k with hlt | hge
    · have hle := h.le
      exact hk x (by omega)
    · exact h.skipped x hge (by omega)
  right := h.right

/-- Every other stretch from `k` on lies behind. -/
theorem eq_or_lt {i' j' : Nat} (h : FirstStretch P k i j) (h' : Stretch P i' j') (hk : k ≤ i') :
    (i' = i ∧ j' = j) ∨ j + 1 ≤ i' := by
  have hP : P i' := h'.inside i' (Nat.le_refl _) h'.lt
  have hi : i ≤ i' := by
    by_contra hlt
    exact h.skipped i' hk (by omega) hP
  have hlt := h.lt
  have hlt' := h'.lt
  rcases Nat.lt_or_eq_of_le hi with hi | rfl
  · -- the stretch does not begin inside this one, nor at its end
    have hge : j ≤ i' := by
      by_contra hij
      exact h'.left (i' - 1) (by omega) (h.inside (i' - 1) (by omega) (by omega))
    have hne : i' ≠ j := by
      rintro rfl
      exact h.right hP
    omega
  · refine Or.inl ⟨rfl, ?_⟩
    rcases Nat.lt_trichotomy j' j with hj | hj | hj
    · exact absurd (h.inside j' (by omega) hj) h'.right
    · exact hj
    · exact absurd (h'.inside j (by omega) hj) h.right

end FirstStretch

namespace StretchesFrom

theorem nil (h : ∀ x, k ≤ x → ¬ P x) : StretchesFrom P k [] where
  sorted := List.Pairwise.nil
  mem_iff i j := by
    constructor
    · intro hmem
      cases hmem
    · rintro ⟨hk, hs⟩
      exact absurd (hs.inside i (Nat.le_refl _) hs.lt) (h i hk)

theorem cons (h : FirstStretch P k i j) (hk : ∀ x, x + 1 = k → ¬ P x)
    (hl : StretchesFrom P (j + 1) l) : StretchesFrom P k ((i, j) :: l) where
  sorted := by
    refine List.pairwise_cons.2 ⟨?_, hl.sorted⟩
    rintro ⟨i', j'⟩ hmem
    have hle := ((hl.mem_iff i' j').1 hmem).1
    have hlt := h.lt
    change i < i'
    omega
  mem_iff i' j' := by
    rw [List.mem_cons, hl.mem_iff]
    constructor
    · rintro (heq | ⟨hle, hs⟩)
      · obtain ⟨rfl, rfl⟩ := Prod.mk.inj heq
        exact ⟨h.le, h.stretch hk⟩
      · have := h.le
        have := h.lt
        exact ⟨by omega, hs⟩
    · rintro ⟨hle, hs⟩
      rcases h.eq_or_lt hs hle with ⟨rfl, rfl⟩ | hlt
      · exact Or.inl rfl
      · exact Or.inr ⟨hlt, hs⟩

end StretchesFrom
