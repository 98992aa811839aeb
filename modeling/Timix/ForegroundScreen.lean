import Timix.Driver

/-!
# The foreground screen (`scr_set_screen`, `scr_get_screen`)

`scr_set_screen` checks its argument with `n > CONFIG_SCREEN_COUNT` only.  A negative index and
`CONFIG_SCREEN_COUNT` itself get past the check, and `screens` is indexed with them.

* `Driver.SetsOrRefuses` — what a call is to do.
* `Driver.setsOrRefuses_iff` — the arguments with which it does so.

Principal result: `set_screen_in_range_iff`, over every sequence of calls.
-/

set_option autoImplicit false

namespace Timix.Console

variable {W H N : Nat}

namespace Driver

/-- `scr_get_screen`. -/
def scrGetScreen (d : Driver W H N) : Int := d.screenIdx.val

/-- The call returns 0 and makes `n`, a screen, the foreground screen, or it returns `-EINVAL` and
    changes nothing; it indexes no array out of range, and `scr_get_screen` keeps to its range. -/
def SetsOrRefuses (d : Driver W H N) (n : Int) : Prop :=
  ∃ ret d', d.scrSetScreen n = some (ret, d') ∧
    (ret = 0 ∧ (0 ≤ n ∧ n < N) ∧ d'.scrGetScreen = n ∧ d'.logical = d.logical ∨
      ret = -EINVAL ∧ d' = d) ∧
    0 ≤ d'.scrGetScreen ∧ d'.scrGetScreen < N

variable {d : Driver W H N} {n : Int}

theorem scrGetScreen_range (d : Driver W H N) : 0 ≤ d.scrGetScreen ∧ d.scrGetScreen < N := by
  have hlt := d.screenIdx.isLt
  unfold scrGetScreen
  omega

theorem scrSetScreen_refuses (h : (N : Int) < n) : d.scrSetScreen n = some (-EINVAL, d) := if_pos h

/-- An index past either end of `screens` is used. -/
theorem scrSetScreen_outside (h : n < 0 ∨ n = N) : d.scrSetScreen n = none := by
  have hlt := d.screenIdx.isLt
  have hle : ¬ n > N := by omega
  have hne : n ≠ d.screenIdx.val := by omega
  unfold scrSetScreen
  rw [if_neg hle, if_neg hne]
  by_cases hneg : n < 0
  · rw [if_pos hneg]
  · have hout : ¬ n.toNat < N := by omega
    rw [if_neg hneg, dif_neg hout]

theorem scrSetScreen_inside (h : 0 ≤ n) (hN : n < N) :
    ∃ d', d.scrSetScreen n = some (0, d') ∧ d'.scrGetScreen = n := by
  have hle : ¬ n > N := by omega
  unfold scrSetScreen
  rw [if_neg hle]
  by_cases hsame : n = d.screenIdx.val
  · rw [if_pos hsame]
    exact ⟨d, rfl, hsame.symm⟩
  · have hneg : ¬ n < 0 := by omega
    have hin : n.toNat < N := by omega
    rw [if_neg hsame, if_neg hneg, dif_pos hin]
    exact ⟨_, rfl, Int.toNat_of_nonneg h⟩

/-- One call, from any state. -/
theorem setsOrRefuses_iff : d.SetsOrRefuses n ↔ 0 ≤ n ∧ n ≠ N := by
  constructor
  · rintro ⟨ret, d', hset, -⟩
    by_contra hbad
    have hout : n < 0 ∨ n = N := by omega
    rw [scrSetScreen_outside hout] at hset
    cases hset
  · rintro ⟨h, hne⟩
    rcases Int.lt_or_gt_of_ne hne with hlt | hgt
    · obtain ⟨d', hset, hget⟩ := scrSetScreen_inside (d := d) h hlt
      exact ⟨0, d', hset, Or.inl ⟨rfl, ⟨h, hlt⟩, hget, logical_setScreen hset⟩,
        d'.scrGetScreen_range⟩
    · exact ⟨-EINVAL, d, scrSetScreen_refuses hgt, Or.inr ⟨rfl, rfl⟩, d.scrGetScreen_range⟩

/-- The calls of a sequence, one after the other. -/
def setStep (d : Driver W H N) (n : Int) : Option (Driver W H N) :=
  (d.scrSetScreen n).map Prod.snd

end Driver

/-- **When the foreground screen is valid.**  In a sequence of calls of `scr_set_screen`, from any
    state, every call either selects a screen or is refused exactly if no argument is negative or
    `CONFIG_SCREEN_COUNT`. -/
theorem set_screen_in_range_iff (d : Driver W H N) (ns : List Int) :
    Lts.Along Driver.setStep Driver.SetsOrRefuses d ns ↔ ∀ n ∈ ns, 0 ≤ n ∧ n ≠ N := by
  induction ns generalizing d with
  | nil => simp [Lts.Along]
  | cons n ns ih =>
    rw [Lts.Along, Driver.setsOrRefuses_iff, List.forall_mem_cons]
    refine and_congr_right ?_
    intro hn
    -- a call that is not to blame leaves a state for the rest
    obtain ⟨ret, d', hset, -⟩ := (Driver.setsOrRefuses_iff (d := d)).2 hn
    have hstep : d.setStep n = some d' := by rw [Driver.setStep, hset]; rfl
    constructor
    · intro hrest
      exact (ih d').1 (hrest d' hstep)
    · intro hrest t ht
      exact (ih t).2 hrest

/-- With two screens, the calls `scr_set_screen(1)`, `scr_set_screen(7)` and `scr_set_screen(2)`:
    the last one indexes `screens` with `CONFIG_SCREEN_COUNT`. -/
theorem set_screen_count_outside :
    ¬ Lts.Along Driver.setStep Driver.SetsOrRefuses
      (Driver.init (fun _ => default) (fun _ _ => default) 7 0 : Driver 1 1 2) [1, 7, 2] := by
  rintro ⟨-, h1⟩
  obtain ⟨-, h7⟩ := h1 _ rfl
  obtain ⟨⟨ret, d', hset, -⟩, -⟩ := h7 _ rfl
  cases hset

end Timix.Console
