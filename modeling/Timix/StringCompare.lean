import Timix.StringImpl

/-!
# Comparing strings (`strcmp`, `strncmp`)

Both loops count an `int` up to the position at which the strings part, and both functions return
the difference of two plain `char`s.  The loop of `strncmp` does not look for the terminator, and
reads the characters at `n` before it compares `n`.

* `returns_strcmp`, `returns_strncmp` — what they return.

Principal results: `strncmp_correct_iff` and `strcmp_order_iff`.
-/

set_option autoImplicit false

namespace Timix.StringImpl

open Comp Memory

variable {signed : Bool} {m m' : Memory} {s1 s2 n i : Nat} {a b : List Byte} {r : Int}

theorem returns_difference : (difference signed s1 s2 i).Returns m r m' ↔
    m.access (s1 + i) ≠ .none ∧ m.access (s2 + i) ≠ .none ∧
      promote signed (m.byte (s1 + i)) - promote signed (m.byte (s2 + i)) = r ∧ m = m' := by
  simp [difference]

/-- Both functions: a loop that counts up to `k`, and the difference there. -/
theorem returns_loop_difference {turn : Nat → Comp Memory (Turn Nat Nat)} {k : Nat} {c d : Byte}
    (hturn : ∀ i < k, ∀ x u, (turn i).Returns m x u ↔
      i < INT_MAX ∧ .again (i + 1) = x ∧ m = u)
    (hleave : ∀ x u, (turn k).Returns m x u ↔ True ∧ .leave k = x ∧ m = u)
    (hread : m.access (s1 + k) ≠ .none ∧ m.access (s2 + k) ≠ .none)
    (hbyte : m.byte (s1 + k) = c ∧ m.byte (s2 + k) = d) :
    (loop turn 0 >>= difference signed s1 s2).Returns m r m' ↔
      k ≤ INT_MAX ∧ promote signed c - promote signed d = r ∧ m = m' := by
  obtain ⟨rfl, rfl⟩ := hbyte
  have hloop : ∀ j u, (loop turn 0).Returns m j u ↔ k ≤ INT_MAX ∧ k = j ∧ m = u := by
    intro j u
    rw [returns_turns (fun i => i) (fun _ => m) (fun i => i < INT_MAX) hturn,
      returns_leave True _ m hleave, true_and, forall_lt_bound]
  rw [returns_bind]
  simp only [hloop, returns_difference]
  constructor
  · rintro ⟨_, _, ⟨hle, rfl, rfl⟩, -, -, hret, hm⟩
    exact ⟨hle, hret, hm⟩
  · rintro ⟨hle, hret, hm⟩
    exact ⟨_, _, ⟨hle, rfl, rfl⟩, hread.1, hread.2, hret, hm⟩

/-! ## `strcmp` -/

theorem returns_strcmp_turn {x : Turn Nat Nat} : (strcmp.turn s1 s2 i).Returns m x m' ↔
    (m.access (s1 + i) ≠ .none ∧ m.access (s2 + i) ≠ .none) ∧
      if m.byte (s1 + i) = m.byte (s2 + i) ∧ m.byte (s1 + i) ≠ 0 then
        i < INT_MAX ∧ .again (i + 1) = x ∧ m = m'
      else .leave i = x ∧ m = m' := by
  unfold strcmp.turn
  by_cases h : m.access (s1 + i) = .none
  · simp [h]
  · simp [h]

/-- **What `strcmp` returns.** -/
theorem returns_strcmp (h1 : m.StrAt s1 a) (h2 : m.StrAt s2 b) :
    (strcmp signed s1 s2).Returns m r m' ↔ (parting a b).pos ≤ INT_MAX ∧
      promote signed (parting a b).left - promote signed (parting a b).right = r ∧ m = m' := by
  obtain ⟨hl, hr⟩ := h1.holds.at_parting h2.holds
  obtain ⟨hle1, hle2⟩ := parting_pos_le a b
  have hread : ∀ i ≤ (parting a b).pos,
      m.access (s1 + i) ≠ .none ∧ m.access (s2 + i) ≠ .none := by
    intro i hi
    exact ⟨h1.readable i (by omega), h2.readable i (by omega)⟩
  have hturn : ∀ i < (parting a b).pos, ∀ x u, (strcmp.turn s1 s2 i).Returns m x u ↔
      i < INT_MAX ∧ .again (i + 1) = x ∧ m = u := by
    intro i hi x u
    rw [returns_strcmp_turn, and_iff_right (hread i (by omega)),
      if_pos (h1.holds.before h2.holds hi)]
  have hleave : ∀ x u, (strcmp.turn s1 s2 (parting a b).pos).Returns m x u ↔
      True ∧ .leave (parting a b).pos = x ∧ m = u := by
    intro x u
    rw [returns_strcmp_turn, and_iff_right (hread _ (Nat.le_refl _)), if_neg, true_and]
    rw [hl, hr]
    rintro ⟨heq, hne⟩
    exact hne (parting_left_zero h1.holds.ne_zero h2.holds.ne_zero heq)
  exact returns_loop_difference hturn hleave (hread _ (Nat.le_refl _)) ⟨hl, hr⟩

/-- The number says how two strings compare, by unsigned bytes, a proper prefix first. -/
def Orders (r : Int) (a b : List Byte) : Prop :=
  (r = 0 ↔ a = b) ∧ (r < 0 ↔ a < b) ∧ (0 < r ↔ b < a)

/-- A difference of plain `char`s orders the strings exactly if these `char`s are in the order of
    the bytes. -/
theorem orders_iff (signed : Bool) (ha : ∀ c ∈ a, c ≠ 0) (hb : ∀ c ∈ b, c ≠ 0) :
    Orders (promote signed (parting a b).left - promote signed (parting a b).right) a b ↔
      (signed = true → ((parting a b).left < 0x80 ↔ (parting a b).right < 0x80)) := by
  have hlt := parting_lt ha hb
  have hgt := parting_lt hb ha
  have heq := parting_eq_iff ha hb
  rw [parting_swap a b] at hgt
  dsimp only at hgt
  generalize (parting a b).left = l at *
  generalize (parting a b).right = r at *
  have hneg : promote signed l - promote signed r < 0 ↔ promote signed l < promote signed r := by
    omega
  have hpos : 0 < promote signed l - promote signed r ↔ promote signed r < promote signed l := by
    omega
  unfold Orders
  rw [← hlt, ← hgt, ← heq, hneg, hpos, Int.sub_eq_zero, promote_inj]
  by_cases hne : l = r
  · simp [hne]
  · have hnat : l.toNat ≠ r.toNat := fun h => hne (BitVec.eq_of_toNat_eq h)
    have hint : promote signed l ≠ promote signed r := fun h => hne (promote_inj.1 h)
    have hbyte : r < l ↔ ¬ l < r := by
      rw [BitVec.lt_def, BitVec.lt_def]
      omega
    have hchar : promote signed r < promote signed l ↔ ¬ promote signed l < promote signed r := by
      omega
    rw [hbyte, hchar, not_iff_not, and_self_iff, promote_lt hne]
    simp

/-- **When `strcmp` follows the order of unsigned bytes.** -/
theorem strcmp_order_iff (signed : Bool) (m : Memory) (s1 s2 : Nat) (a b : List Byte)
    (h1 : m.StrAt s1 a) (h2 : m.StrAt s2 b) :
    (∃ r, (strcmp signed s1 s2).Returns m r m ∧ Orders r a b) ↔
      (parting a b).pos ≤ INT_MAX ∧
        (signed = true → ((parting a b).left < 0x80 ↔ (parting a b).right < 0x80)) := by
  rw [← orders_iff signed h1.holds.ne_zero h2.holds.ne_zero]
  constructor
  · rintro ⟨r, hret, horder⟩
    obtain ⟨hle, rfl, -⟩ := (returns_strcmp h1 h2).1 hret
    exact ⟨hle, horder⟩
  · rintro ⟨hle, horder⟩
    exact ⟨_, (returns_strcmp h1 h2).2 ⟨hle, rfl, rfl⟩, horder⟩

/-- "caf\xC8" and "cafe": an accented letter against a plain one. -/
def accented : Memory :=
  (empty.place 16 [99, 97, 102, 0xC8, 0] .const).place 32 [99, 97, 102, 101, 0] .const

theorem strcmp_accented_unsigned :
    ∃ r, (strcmp false 16 32).Returns accented r accented ∧
      Orders r [99, 97, 102, 0xC8] [99, 97, 102, 101] :=
  (strcmp_order_iff false accented 16 32 [99, 97, 102, 0xC8] [99, 97, 102, 101] (by decide)
    (by decide)).2 ⟨by decide, by decide⟩

/-- Where `char` is signed they come in the other order. -/
theorem strcmp_accented_signed :
    ¬ ∃ r, (strcmp true 16 32).Returns accented r accented ∧
      Orders r [99, 97, 102, 0xC8] [99, 97, 102, 101] := by
  rintro ⟨r, hret, -, hneg, -⟩
  obtain ⟨rfl, -⟩ := hret.unique (⟨5, rfl⟩ : (strcmp true 16 32).Returns accented (-157) accented)
  exact absurd (hneg.1 (by decide)) (by decide)

/-! ## `strncmp` -/

theorem returns_strncmp_turn {x : Turn Nat Nat} : (strncmp.turn s1 s2 n i).Returns m x m' ↔
    (m.access (s1 + i) ≠ .none ∧ m.access (s2 + i) ≠ .none) ∧
      if m.byte (s1 + i) = m.byte (s2 + i) ∧ i < n then
        i < INT_MAX ∧ .again (i + 1) = x ∧ m = m'
      else .leave i = x ∧ m = m' := by
  simp [strncmp.turn, and_assoc]

/-- Strings that differ below `n`. -/
theorem returns_strncmp (h1 : Holds m.byte s1 a) (h2 : Holds m.byte s2 b)
    (hread : ∀ i ≤ (parting a b).pos, m.access (s1 + i) ≠ .none ∧ m.access (s2 + i) ≠ .none)
    (hpos : (parting a b).pos < n) (hne : (parting a b).left ≠ (parting a b).right) :
    (strncmp signed s1 s2 n).Returns m r m' ↔ (parting a b).pos ≤ INT_MAX ∧
      promote signed (parting a b).left - promote signed (parting a b).right = r ∧ m = m' := by
  obtain ⟨hl, hr⟩ := h1.at_parting h2
  have hturn : ∀ i < (parting a b).pos, ∀ x u, (strncmp.turn s1 s2 n i).Returns m x u ↔
      i < INT_MAX ∧ .again (i + 1) = x ∧ m = u := by
    intro i hi x u
    rw [returns_strncmp_turn, and_iff_right (hread i (by omega)),
      if_pos ⟨(h1.before h2 hi).1, by omega⟩]
  have hleave : ∀ x u, (strncmp.turn s1 s2 n (parting a b).pos).Returns m x u ↔
      True ∧ .leave (parting a b).pos = x ∧ m = u := by
    intro x u
    rw [returns_strncmp_turn, and_iff_right (hread _ (Nat.le_refl _)), if_neg, true_and]
    rw [hl, hr]
    exact fun h => hne h.1
  exact returns_loop_difference hturn hleave (hread _ (Nat.le_refl _)) ⟨hl, hr⟩

/-- Strings that agree up to `n`: the characters behind the first `k` are read. -/
theorem not_returns_strncmp {k : Nat} (hkn : k ≤ n)
    (heq : ∀ i < k, m.byte (s1 + i) = m.byte (s2 + i))
    (hread : ∀ i < k, m.access (s1 + i) ≠ .none ∧ m.access (s2 + i) ≠ .none)
    (hout : ¬ (m.access (s1 + k) ≠ .none ∧ m.access (s2 + k) ≠ .none)) :
    ¬ (strncmp signed s1 s2 n).Returns m r m' := by
  have hturn : ∀ i < k, ∀ x u, (strncmp.turn s1 s2 n i).Returns m x u ↔
      i < INT_MAX ∧ .again (i + 1) = x ∧ m = u := by
    intro i hi x u
    rw [returns_strncmp_turn, and_iff_right (hread i hi), if_pos ⟨heq i hi, by omega⟩]
  have hstuck : ∀ x u, ¬ (strncmp.turn s1 s2 n k).Returns m x u := by
    intro x u h
    exact hout (returns_strncmp_turn.1 h).1
  unfold strncmp
  rw [returns_bind]
  rintro ⟨j, u, hloop, -⟩
  rw [returns_turns (fun i => i) (fun _ => m) (fun i => i < INT_MAX) hturn] at hloop
  exact not_returns_loop hstuck hloop.2

/-- **When `strncmp` compares `n` characters.**  The program may read the first `n` characters of
    either string, its terminator counted, and nothing else. -/
theorem strncmp_correct_iff (signed : Bool) (m : Memory) (s1 s2 n : Nat) (a b : List Byte)
    (h1 : Holds m.byte s1 a) (h2 : Holds m.byte s2 b)
    (hread : ∀ x, m.access x ≠ .none ↔ (s1 ≤ x ∧ x < s1 + min n (a.length + 1)) ∨
      (s2 ≤ x ∧ x < s2 + min n (b.length + 1))) :
    (∃ r, (strncmp signed s1 s2 n).Returns m r m ∧ (r = 0 ↔ a.take n = b.take n) ∧
      (a.take n ≠ b.take n → (parting a b).pos < n ∧ r.sign =
        (promote signed (parting a b).left - promote signed (parting a b).right).sign) ∧
      (a.length < n → b.length < n →
        ∃ r', (strcmp signed s1 s2).Returns m r' m ∧ r.sign = r'.sign)) ↔
      a.take n ≠ b.take n ∧ (parting a b).pos ≤ INT_MAX := by
  obtain ⟨hle1, hle2⟩ := parting_pos_le a b
  have hagree := take_eq_take_iff h1.ne_zero h2.ne_zero n
  by_cases htake : a.take n = b.take n
  · -- the loop reads on
    refine iff_of_false ?_ fun h => h.1 htake
    rintro ⟨r, hret, -⟩
    have hsame : min n (a.length + 1) = min n (b.length + 1) := by
      rcases hagree.1 htake with hle | heq
      · omega
      · rw [(parting_eq_iff h1.ne_zero h2.ne_zero).1 heq]
    rw [← hsame] at hread
    refine not_returns_strncmp (Nat.min_le_left n (a.length + 1)) ?_ ?_ ?_ hret
    · intro i hi
      rcases Nat.lt_or_ge i (parting a b).pos with hlt | hge
      · exact (h1.before h2 hlt).1
      · have heq := (hagree.1 htake).resolve_left (by omega)
        obtain rfl := (parting_eq_iff h1.ne_zero h2.ne_zero).1 heq
        simp only [parting_self] at hge
        have hlen : i = a.length := by omega
        rw [hlen, h1.nul, h2.nul]
    · intro i hi
      exact ⟨(hread _).2 (Or.inl (by omega)), (hread _).2 (Or.inr (by omega))⟩
    · rw [hread, hread]
      omega
  · have hpos : (parting a b).pos < n := by
      by_contra hge
      exact htake (hagree.2 (Or.inl (by omega)))
    have hne : (parting a b).left ≠ (parting a b).right := fun h => htake (hagree.2 (Or.inr h))
    have hboth : ∀ i ≤ (parting a b).pos,
        m.access (s1 + i) ≠ .none ∧ m.access (s2 + i) ≠ .none := by
      intro i hi
      exact ⟨(hread _).2 (Or.inl (by omega)), (hread _).2 (Or.inr (by omega))⟩
    constructor
    · rintro ⟨r, hret, -⟩
      exact ⟨htake, ((returns_strncmp h1 h2 hboth hpos hne).1 hret).1⟩
    · rintro ⟨-, hle⟩
      refine ⟨_, (returns_strncmp h1 h2 hboth hpos hne).2 ⟨hle, rfl, rfl⟩, ?_,
        fun _ => ⟨hpos, rfl⟩, ?_⟩
      · rw [Int.sub_eq_zero, promote_inj]
        exact iff_of_false hne htake
      · intro hn1 hn2
        have hs1 : m.StrAt s1 a := ⟨h1, fun i hi => (hread _).2 (Or.inl (by omega))⟩
        have hs2 : m.StrAt s2 b := ⟨h2, fun i hi => (hread _).2 (Or.inr (by omega))⟩
        exact ⟨_, (returns_strcmp hs1 hs2).2 ⟨hle, rfl, rfl⟩, rfl⟩

/-- "one" and "two". -/
def oneTwo : Memory := (empty.place 16 [111, 110, 101, 0] .const).place 32 [116, 119, 111, 0] .const

theorem strncmp_one_two : ∃ r, (strncmp true 16 32 9).Returns oneTwo r oneTwo ∧
    (r = 0 ↔ List.take 9 [111, 110, 101] = List.take 9 ([116, 119, 111] : List Byte)) := by
  have hread : ∀ x, oneTwo.access x ≠ .none ↔ (16 ≤ x ∧ x < 16 + min 9 (3 + 1)) ∨
      (32 ≤ x ∧ x < 32 + min 9 (3 + 1)) := by
    intro x
    simp (disch := decide) only [oneTwo, ne_eq, access_place, access_empty, List.length_cons,
      List.length_nil, reduceCtorEq, and_false, and_true, false_or]
    omega
  obtain ⟨r, hret, hzero, -⟩ := (strncmp_correct_iff true oneTwo 16 32 9 [111, 110, 101]
    [116, 119, 111] (by decide) (by decide) hread).2 ⟨by decide, by decide⟩
  exact ⟨r, hret, hzero⟩

/-- "a" and "a", with other bytes behind their terminators: up to 3 they compare as different. -/
theorem strncmp_equal_differ :
    ∃ m : Memory, Holds m.byte 16 [97] ∧ Holds m.byte 32 [97] ∧
      ∃ r, (strncmp true 16 32 3).Returns m r m ∧
        ¬ (r = 0 ↔ List.take 3 [97] = List.take 3 ([97] : List Byte)) :=
  ⟨(empty.place 16 [97, 0, 120] .const).place 32 [97, 0, 121] .const, by decide, by decide,
    -1, ⟨4, rfl⟩, by decide⟩

end Timix.StringImpl
