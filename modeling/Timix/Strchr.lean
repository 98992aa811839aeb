import Timix.StringImpl

/-!
# Finding a character (`strchr`)

The loop stops at the terminator before it compares, and it compares a promoted plain `char` with
the `int` as it was passed.

* `returns_strchr` — what `strchr` returns.

Principal result: `strchr_finds_iff`.
-/

set_option autoImplicit false

namespace Timix.StringImpl

open Comp Memory

variable {signed : Bool} {m m' : Memory} {p r : Nat} {s : List Byte} {c : Int}

theorem returns_strchr_turn {x : Turn Nat Nat} : (strchr.turn signed c p).Returns m x m' ↔
    m.access p ≠ .none ∧
      if m.byte p ≠ 0 then
        if promote signed (m.byte p) = c then .leave p = x ∧ m = m'
        else .again (p + 1) = x ∧ m = m'
      else .leave NULL = x ∧ m = m' := by
  simp [strchr.turn, promote_eq_zero]

/-- The first position whose promoted character is `c`, or the length. -/
def hit (signed : Bool) (s : List Byte) (c : Int) : Nat :=
  s.findIdx fun b => decide (promote signed b = c)

theorem hit_le (signed : Bool) (s : List Byte) (c : Int) : hit signed s c ≤ s.length :=
  List.findIdx_le_length

theorem promote_hit (h : hit signed s c < s.length) : promote signed s[hit signed s c] = c :=
  of_decide_eq_true (List.findIdx_getElem (w := h))

theorem promote_miss {i : Nat} (h : i < hit signed s c) (hi : i < s.length) :
    promote signed s[i] ≠ c := by
  have := List.not_of_lt_findIdx h
  simpa using this

/-- **What `strchr` returns.** -/
theorem returns_strchr (hs : m.StrAt p s) : (strchr signed p c).Returns m r m' ↔
    (if hit signed s c < s.length then p + hit signed s c else NULL) = r ∧ m = m' := by
  have hle := hit_le signed s c
  have hturn : ∀ i < hit signed s c, ∀ x u, (strchr.turn signed c (p + i)).Returns m x u ↔
      True ∧ .again (p + (i + 1)) = x ∧ m = u := by
    intro i hi x u
    have hlt : i < s.length := by omega
    have hne : s[i] ≠ 0 := hs.holds.ne_zero _ (List.getElem_mem hlt)
    rw [returns_strchr_turn, hs.holds.getElem hlt, and_iff_right (hs.readable i (by omega)),
      if_pos hne, if_neg (promote_miss hi hlt), true_and]
    rfl
  have hleave : ∀ x u, (strchr.turn signed c (p + hit signed s c)).Returns m x u ↔
      True ∧ .leave (if hit signed s c < s.length then p + hit signed s c else NULL) = x ∧
        m = u := by
    intro x u
    rw [returns_strchr_turn, and_iff_right (hs.readable _ (by omega)), true_and]
    by_cases hlt : hit signed s c < s.length
    · have hne : s[hit signed s c] ≠ 0 := hs.holds.ne_zero _ (List.getElem_mem hlt)
      rw [hs.holds.getElem hlt, if_pos hne, if_pos (promote_hit hlt), if_pos hlt]
    · have hend : hit signed s c = s.length := by omega
      rw [hend, hs.holds.nul, if_neg (by simp), if_neg (Nat.lt_irrefl _)]
  have hrun := returns_turns (a := r) (t := m') (fun i => p + i) (fun _ => m) (fun _ => True) hturn
  rw [returns_leave True _ m hleave] at hrun
  unfold strchr
  simpa using hrun

theorem ofInt_promote (signed : Bool) (b : Byte) : BitVec.ofInt 8 (promote signed b) = b := by
  cases signed with
  | false => simp [promote]
  | true => simp [promote]

theorem promote_eq_iff {b : Byte} (h : promote signed b = c) : b = BitVec.ofInt 8 c := by
  rw [← h, ofInt_promote]

/-- **When `strchr` finds the first occurrence.**  `BitVec.ofInt 8 c` is `c` converted to
    `char`; the terminator is the position after the characters. -/
theorem strchr_finds_iff (signed : Bool) (m : Memory) (p : Nat) (s : List Byte) (c : Int)
    (hs : m.StrAt p s) :
    (∃ r, (strchr signed p c).Returns m r m ∧
      ((r = NULL ∧ ∀ j ≤ s.length, m.byte (p + j) ≠ BitVec.ofInt 8 c) ∨
        ∃ j ≤ s.length, r = p + j ∧ m.byte (p + j) = BitVec.ofInt 8 c ∧
          ∀ i < j, m.byte (p + i) ≠ BitVec.ofInt 8 c)) ↔
      BitVec.ofInt 8 c ≠ 0 ∧
        (BitVec.ofInt 8 c ∈ s → c = promote signed (BitVec.ofInt 8 c)) := by
  have hle := hit_le signed s c
  constructor
  · rintro ⟨r, hret, hfound⟩
    obtain ⟨hr, -⟩ := (returns_strchr hs).1 hret
    rcases hfound with ⟨-, hnone⟩ | ⟨j, hj, hrj, hbyte, hfirst⟩
    · have hnul := hnone s.length (Nat.le_refl _)
      rw [hs.holds.nul] at hnul
      refine ⟨Ne.symm hnul, ?_⟩
      intro hmem
      obtain ⟨i, hi, heq⟩ := List.getElem_of_mem hmem
      exact absurd ((hs.holds.getElem hi).trans heq) (hnone i (by omega))
    · have hnull : p + j ≠ NULL := ne_null (hs.readable j (by omega))
      have hlt : hit signed s c < s.length := by
        by_contra hge
        rw [if_neg hge] at hr
        exact hnull (hrj.symm.trans hr.symm)
      have hjk : j = hit signed s c := by
        rw [if_pos hlt] at hr
        omega
      subst hjk
      rw [hs.holds.getElem hlt] at hbyte
      rw [← hbyte]
      exact ⟨hs.holds.ne_zero _ (List.getElem_mem hlt), fun _ => (promote_hit hlt).symm⟩
  · rintro ⟨hne, hchar⟩
    refine ⟨_, (returns_strchr hs).2 ⟨rfl, rfl⟩, ?_⟩
    by_cases hlt : hit signed s c < s.length
    · have hbyte := promote_eq_iff (promote_hit hlt)
      refine Or.inr ⟨hit signed s c, hle, if_pos hlt, (hs.holds.getElem hlt).trans hbyte, ?_⟩
      intro i hi heq
      have his : i < s.length := by omega
      rw [hs.holds.getElem his] at heq
      have hmem : BitVec.ofInt 8 c ∈ s := heq ▸ List.getElem_mem his
      exact promote_miss hi his (by rw [heq, ← hchar hmem])
    · refine Or.inl ⟨if_neg hlt, ?_⟩
      intro j hj heq
      rcases Nat.lt_or_eq_of_le hj with hj | rfl
      · rw [hs.holds.getElem hj] at heq
        have hmem : BitVec.ofInt 8 c ∈ s := heq ▸ List.getElem_mem hj
        have hlt' : j < hit signed s c := by omega
        exact promote_miss hlt' hj (by rw [heq, ← hchar hmem])
      · rw [hs.holds.nul] at heq
        exact hne heq.symm

/-- "abc" at 16. -/
def abc : Memory := empty.place 16 [97, 98, 99, 0] .const

/-- The letter `b` is found in it, -/
theorem strchr_letter : ∃ r, (strchr true 16 98).Returns abc r abc ∧ r ≠ NULL := by
  obtain ⟨r, hret, ⟨-, hnone⟩ | ⟨j, -, rfl, -⟩⟩ :=
    (strchr_finds_iff true abc 16 [97, 98, 99] 98 (by decide)).2 ⟨by decide, by decide⟩
  · exact absurd rfl (hnone 1 (by decide))
  · exact ⟨16 + j, hret, by simp [NULL]⟩

/-- and the terminator is not. -/
theorem strchr_terminator : ¬ ∃ r, (strchr true 16 0).Returns abc r abc ∧
    ((r = NULL ∧ ∀ j ≤ 3, abc.byte (16 + j) ≠ BitVec.ofInt 8 0) ∨
      ∃ j ≤ 3, r = 16 + j ∧ abc.byte (16 + j) = BitVec.ofInt 8 0 ∧
        ∀ i < j, abc.byte (16 + i) ≠ BitVec.ofInt 8 0) := by
  rintro ⟨r, hret, ⟨-, hnone⟩ | ⟨j, -, rfl, -⟩⟩
  · exact hnone 3 (Nat.le_refl _) rfl
  · obtain ⟨heq, -⟩ := hret.unique (⟨5, rfl⟩ : (strchr true 16 0).Returns abc 0 abc)
    omega

end Timix.StringImpl
