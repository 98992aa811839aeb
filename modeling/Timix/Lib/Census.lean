import Mathlib.Algebra.BigOperators.Group.Finset.Basic
import Mathlib.Data.Fintype.BigOperators

/-!
# Counting the members of a finite population

`tally p f` is the number of members `i` whose state `f i` satisfies `p`, `total w f` the sum of
the weights of all states.  When one member changes its state, `tally_update` and `total_update`
relate the numbers before and after by an equation that `omega` can use.
-/

set_option autoImplicit false

namespace Census

variable {I A : Type} [Fintype I] {p q : A → Bool} {f : I → A}

/-- The number of members whose state satisfies `p`. -/
def tally (p : A → Bool) (f : I → A) : Nat := (Finset.univ.filter fun i => p (f i) = true).card

theorem tally_eq_sum (p : A → Bool) (f : I → A) :
    tally p f = Finset.univ.sum fun i => (p (f i)).toNat := by
  unfold tally
  rw [Finset.card_filter]
  apply Finset.sum_congr rfl
  intro i _
  cases p (f i) <;> rfl

/-- **One member changes its state.** -/
theorem tally_update [DecidableEq I] (p : A → Bool) (f : I → A) (i : I) (a : A) :
    tally p (Function.update f i a) + (p (f i)).toNat = tally p f + (p a).toNat := by
  rw [tally_eq_sum, tally_eq_sum]
  rw [← Finset.add_sum_erase _ _ (Finset.mem_univ i), ← Finset.add_sum_erase Finset.univ
    (fun j => (p (f j)).toNat) (Finset.mem_univ i), Function.update_self]
  have hrest : ((Finset.univ.erase i).sum fun j => (p (Function.update f i a j)).toNat) =
      (Finset.univ.erase i).sum fun j => (p (f j)).toNat := by
    apply Finset.sum_congr rfl
    intro j hj
    rw [Function.update_of_ne (Finset.ne_of_mem_erase hj)]
  omega

theorem tally_eq_zero : tally p f = 0 ↔ ∀ i, p (f i) = false := by
  unfold tally
  rw [Finset.card_eq_zero, Finset.filter_eq_empty_iff]
  simp

theorem tally_pos : 0 < tally p f ↔ ∃ i, p (f i) = true := by
  unfold tally
  rw [Finset.card_pos]
  constructor
  · rintro ⟨i, hi⟩
    exact ⟨i, (Finset.mem_filter.1 hi).2⟩
  · rintro ⟨i, hi⟩
    exact ⟨i, Finset.mem_filter.2 ⟨Finset.mem_univ i, hi⟩⟩

theorem tally_lt_card {i : I} (h : p (f i) = false) : tally p f < Fintype.card I := by
  unfold tally
  refine Finset.card_lt_univ_of_notMem (x := i) ?_
  simp [h]

theorem tally_or (h : ∀ a, p a = true → q a = false) :
    tally (fun a => p a || q a) f = tally p f + tally q f := by
  simp only [tally_eq_sum]
  rw [← Finset.sum_add_distrib]
  apply Finset.sum_congr rfl
  intro i _
  cases hp : p (f i) with
  | true => rw [h _ hp]; rfl
  | false => rw [Bool.false_or, Bool.toNat_false, Nat.zero_add]

/-! ## Weights -/

variable {w : A → Nat} {g : I → A} {c : Nat}

/-- The weights of the states of all members together. -/
def total (w : A → Nat) (f : I → A) : Nat := Finset.univ.sum fun i => w (f i)

/-- **One member changes its state.** -/
theorem total_update [DecidableEq I] (w : A → Nat) (f : I → A) (i : I) (a : A) :
    total w (Function.update f i a) + w (f i) = total w f + w a := by
  unfold total
  rw [← Finset.add_sum_erase _ _ (Finset.mem_univ i), ← Finset.add_sum_erase Finset.univ
    (fun j => w (f j)) (Finset.mem_univ i), Function.update_self]
  have hrest : ((Finset.univ.erase i).sum fun j => w (Function.update f i a j)) =
      (Finset.univ.erase i).sum fun j => w (f j) := by
    apply Finset.sum_congr rfl
    intro j hj
    rw [Function.update_of_ne (Finset.ne_of_mem_erase hj)]
  omega

theorem total_le (h : ∀ i, w (f i) ≤ c) : total w f ≤ Fintype.card I * c := by
  have hsum : total w f + (Finset.univ.sum fun i => c - w (f i)) = Fintype.card I * c := by
    rw [total, ← Finset.sum_add_distrib, Finset.sum_congr rfl fun i _ => Nat.add_sub_of_le (h i)]
    simp
  exact Nat.le_of_add_right_le hsum.le

/-- Every member gains at most one unit. -/
theorem total_le_add_card (h : ∀ i, w (g i) ≤ w (f i) + 1) :
    total w g ≤ total w f + Fintype.card I := by
  have hsum : total w g + (Finset.univ.sum fun i => w (f i) + 1 - w (g i)) =
      total w f + Fintype.card I := by
    rw [total, ← Finset.sum_add_distrib, Finset.sum_congr rfl fun i _ => Nat.add_sub_of_le (h i),
      Finset.sum_add_distrib]
    simp [total]
  exact Nat.le_of_add_right_le hsum.le

end Census
