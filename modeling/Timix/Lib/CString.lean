import Timix.Lib.Memory

/-!
# Strings that end in NUL

* `Holds` — the bytes of a string stand in memory, and a NUL behind them.
* `Memory.StrAt` — and all of them may be read.
* `parting` — where two strings part: the first position at which they differ, or at which both
  end.  A string is smaller than another if its byte there is (`parting_lt`); strings agree up to
  `n` if they part behind it or not at all (`take_eq_take_iff`).
-/

set_option autoImplicit false

namespace Memory

/-- The bytes of `s`, none of them NUL, and a NUL behind them. -/
def Holds (byte : Nat → Byte) : Nat → List Byte → Prop
  | p, [] => byte p = 0
  | p, c :: s => c ≠ 0 ∧ byte p = c ∧ Holds byte (p + 1) s

/-- A string that may be read. -/
structure StrAt (m : Memory) (p : Nat) (s : List Byte) : Prop where
  holds : Holds m.byte p s
  readable : m.Readable p (s.length + 1)

instance (m : Memory) (p : Nat) (s : List Byte) [Decidable (Holds m.byte p s)] :
    Decidable (m.StrAt p s) :=
  decidable_of_iff (Holds m.byte p s ∧ m.Readable p (s.length + 1))
    ⟨fun h => ⟨h.1, h.2⟩, fun h => ⟨h.1, h.2⟩⟩

namespace Holds

variable {byte byte' : Nat → Byte} {p : Nat} {s t : List Byte} {c : Byte} {i : Nat}

instance decidable (byte : Nat → Byte) : ∀ (p : Nat) (s : List Byte), Decidable (Holds byte p s)
  | p, [] => inferInstanceAs (Decidable (byte p = 0))
  | p, c :: s =>
    have := decidable byte (p + 1) s
    inferInstanceAs (Decidable (c ≠ 0 ∧ byte p = c ∧ Holds byte (p + 1) s))

theorem ne_zero (h : Holds byte p s) : ∀ c ∈ s, c ≠ 0 := by
  induction s generalizing p with
  | nil => simp
  | cons c s ih =>
    obtain ⟨hc, -, hs⟩ := h
    rw [List.forall_mem_cons]
    exact ⟨hc, ih hs⟩

theorem getElem (h : Holds byte p s) (hi : i < s.length) : byte (p + i) = s[i] := by
  induction s generalizing p i with
  | nil => cases hi
  | cons c s ih =>
    obtain ⟨-, hc, hs⟩ := h
    cases i with
    | zero => exact hc
    | succ i =>
      have := ih hs (Nat.lt_of_succ_lt_succ hi)
      rw [show p + (i + 1) = p + 1 + i by omega, this]
      rfl

/-- The terminator. -/
theorem nul (h : Holds byte p s) : byte (p + s.length) = 0 := by
  induction s generalizing p with
  | nil => exact h
  | cons c s ih =>
    rw [List.length_cons, show p + (s.length + 1) = p + 1 + s.length by omega]
    exact ih h.2.2

theorem iff_forall : Holds byte p s ↔ (∀ c ∈ s, c ≠ 0) ∧
    (∀ i (hi : i < s.length), byte (p + i) = s[i]) ∧ byte (p + s.length) = 0 := by
  constructor
  · intro h
    exact ⟨h.ne_zero, fun i hi => h.getElem hi, h.nul⟩
  · intro h
    induction s generalizing p with
    | nil => exact h.2.2
    | cons c s ih =>
      obtain ⟨hne, hget, hnul⟩ := h
      rw [List.forall_mem_cons] at hne
      refine ⟨hne.1, hget 0 (Nat.succ_pos _), ih ⟨hne.2, ?_, ?_⟩⟩
      · intro i hi
        have := hget (i + 1) (Nat.succ_lt_succ hi)
        rwa [show p + (i + 1) = p + 1 + i by omega] at this
      · rwa [List.length_cons, show p + (s.length + 1) = p + 1 + s.length by omega] at hnul

theorem congr (h : Holds byte p s) (hb : ∀ i ≤ s.length, byte' (p + i) = byte (p + i)) :
    Holds byte' p s := by
  rw [iff_forall] at h ⊢
  refine ⟨h.1, ?_, ?_⟩
  · intro i hi
    rw [hb i (by omega), h.2.1 i hi]
  · rw [hb _ (Nat.le_refl _), h.2.2]

/-- A string and its terminator written. -/
theorem write (m : Memory) (p : Nat) (h : ∀ c ∈ s, c ≠ 0) :
    Holds (m.write p (s ++ [0])).byte p s := by
  rw [iff_forall]
  refine ⟨h, ?_, ?_⟩
  · intro i hi
    rw [Memory.byte_write_in _ _ (by simp; omega), List.getElem_append_left hi]
  · rw [Memory.byte_write_in _ _ (by simp), List.getElem_append_right (Nat.le_refl _)]
    simp

end Holds

namespace StrAt

variable {m : Memory} {p : Nat} {s : List Byte} {c : Byte}

theorem nil_iff : m.StrAt p [] ↔ m.access p ≠ .none ∧ m.byte p = 0 := by
  constructor
  · intro h
    exact ⟨h.readable 0 (by simp), h.holds⟩
  · rintro ⟨hr, hb⟩
    refine ⟨hb, ?_⟩
    intro i hi
    obtain rfl : i = 0 := by simpa using hi
    exact hr

theorem cons_iff :
    m.StrAt p (c :: s) ↔ (m.access p ≠ .none ∧ m.byte p = c ∧ c ≠ 0) ∧ m.StrAt (p + 1) s := by
  constructor
  · rintro ⟨⟨hc, hb, hs⟩, hr⟩
    obtain ⟨hr0, hr⟩ := readable_succ.1 hr
    exact ⟨⟨hr0, hb, hc⟩, hs, hr⟩
  · rintro ⟨⟨hr0, hb, hc⟩, hs, hr⟩
    exact ⟨⟨hc, hb, hs⟩, readable_succ.2 ⟨hr0, hr⟩⟩

/-- Writing elsewhere. -/
theorem write {q : Nat} {bs : List Byte} (h : m.StrAt p s)
    (hq : ∀ i ≤ s.length, p + i < q ∨ q + bs.length ≤ p + i) : (m.write q bs).StrAt p s where
  holds := h.holds.congr fun i hi => byte_write_out _ (hq i hi)
  readable i hi := by
    rw [access_write]
    exact h.readable i hi

end StrAt

end Memory

/-! ## Two strings -/

/-- A position in two strings, and the bytes there. -/
structure Parting where
  pos : Nat
  left : Byte
  right : Byte
  deriving DecidableEq, Repr

/-- Where two strings part, the terminators counted. -/
def parting : List Byte → List Byte → Parting
  | [], [] => ⟨0, 0, 0⟩
  | [], d :: _ => ⟨0, 0, d⟩
  | c :: _, [] => ⟨0, c, 0⟩
  | c :: s, d :: t =>
    if c = d then ⟨(parting s t).pos + 1, (parting s t).left, (parting s t).right⟩ else ⟨0, c, d⟩

section Parting

variable {s t : List Byte} {c d : Byte}

@[simp] theorem parting_cons_self :
    parting (c :: s) (c :: t) =
      ⟨(parting s t).pos + 1, (parting s t).left, (parting s t).right⟩ := if_pos rfl

theorem parting_cons_ne (h : c ≠ d) : parting (c :: s) (d :: t) = ⟨0, c, d⟩ := if_neg h

theorem parting_pos_le (s t : List Byte) :
    (parting s t).pos ≤ s.length ∧ (parting s t).pos ≤ t.length := by
  induction s, t using parting.induct with
  | case1 | case2 | case3 => simp [parting]
  | case4 s c t ih => simpa using ih
  | case5 c s d t h => simp [parting_cons_ne h]

theorem parting_swap (s t : List Byte) :
    parting t s = ⟨(parting s t).pos, (parting s t).right, (parting s t).left⟩ := by
  induction s, t using parting.induct with
  | case1 | case2 | case3 => rfl
  | case4 s c t ih => simp [ih]
  | case5 c s d t h => simp [parting_cons_ne h, parting_cons_ne (Ne.symm h)]

theorem parting_self (s : List Byte) : parting s s = ⟨s.length, 0, 0⟩ := by
  induction s with
  | nil => rfl
  | cons c s ih => simp [ih]

/-- Strings that do not part at different bytes are equal. -/
theorem parting_eq_iff (hs : ∀ c ∈ s, c ≠ 0) (ht : ∀ c ∈ t, c ≠ 0) :
    (parting s t).left = (parting s t).right ↔ s = t := by
  induction s, t using parting.induct with
  | case1 => simp [parting]
  | case2 d t =>
    have hd : d ≠ 0#8 := ht d (by simp)
    simp [parting, Ne.symm hd]
  | case3 c s =>
    have hc : c ≠ 0#8 := hs c (by simp)
    simp [parting, hc]
  | case4 s c t ih =>
    rw [List.forall_mem_cons] at hs ht
    simpa using ih hs.2 ht.2
  | case5 c s d t h => simp [parting_cons_ne h, h]

/-- The same byte only at the ends. -/
theorem parting_left_zero (hs : ∀ c ∈ s, c ≠ 0) (ht : ∀ c ∈ t, c ≠ 0)
    (h : (parting s t).left = (parting s t).right) : (parting s t).left = 0 := by
  obtain rfl := (parting_eq_iff hs ht).1 h
  rw [parting_self]

/-- **Lexicographic order**, by unsigned bytes, a proper prefix first. -/
theorem parting_lt (hs : ∀ c ∈ s, c ≠ 0) (ht : ∀ c ∈ t, c ≠ 0) :
    (parting s t).left < (parting s t).right ↔ s < t := by
  induction s, t using parting.induct with
  | case1 => simp [parting]
  | case2 d t =>
    have hd : d ≠ 0#8 := ht d (by simp)
    simp [parting, BitVec.pos_iff_ne_zero, hd]
  | case3 c s => simp [parting]
  | case4 s c t ih =>
    rw [List.forall_mem_cons] at hs ht
    simpa [List.cons_lt_cons_iff] using ih hs.2 ht.2
  | case5 c s d t h => simp [parting_cons_ne h, List.cons_lt_cons_iff, h]

/-- Strings agree up to `n`, cut at their ends, if they part behind it or not at all. -/
theorem take_eq_take_iff (hs : ∀ c ∈ s, c ≠ 0) (ht : ∀ c ∈ t, c ≠ 0) (n : Nat) :
    s.take n = t.take n ↔ n ≤ (parting s t).pos ∨ (parting s t).left = (parting s t).right := by
  induction s, t using parting.induct generalizing n with
  | case1 => simp [parting]
  | case2 d t =>
    have hd : d ≠ 0#8 := ht d (by simp)
    cases n with
    | zero => simp
    | succ n => simp [parting, Ne.symm hd]
  | case3 c s =>
    have hc : c ≠ 0#8 := hs c (by simp)
    cases n with
    | zero => simp
    | succ n => simp [parting, hc]
  | case4 s c t ih =>
    rw [List.forall_mem_cons] at hs ht
    cases n with
    | zero => simp
    | succ n => simpa using ih hs.2 ht.2 n
  | case5 c s d t h =>
    cases n with
    | zero => simp
    | succ n => simp [parting_cons_ne h, h]

open Memory

variable {byte : Nat → Byte} {p q i : Nat}

/-- Before they part the bytes are the same, and none is a terminator. -/
theorem Memory.Holds.before (hs : Holds byte p s) (ht : Holds byte q t)
    (hi : i < (parting s t).pos) : byte (p + i) = byte (q + i) ∧ byte (p + i) ≠ 0 := by
  induction s, t using parting.induct generalizing p q i with
  | case1 | case2 | case3 => simp [parting] at hi
  | case4 s c t ih =>
    obtain ⟨hc, hp, hs⟩ := hs
    obtain ⟨-, hq, ht⟩ := ht
    cases i with
    | zero => exact ⟨hp.trans hq.symm, fun h => hc (hp.symm.trans h)⟩
    | succ i =>
      have := ih hs ht (by simpa using hi)
      rwa [show p + 1 + i = p + (i + 1) by omega, show q + 1 + i = q + (i + 1) by omega] at this
  | case5 c s d t h => simp [parting_cons_ne h] at hi

theorem Memory.Holds.at_parting (hs : Holds byte p s) (ht : Holds byte q t) :
    byte (p + (parting s t).pos) = (parting s t).left ∧
      byte (q + (parting s t).pos) = (parting s t).right := by
  induction s, t using parting.induct generalizing p q with
  | case1 => exact ⟨hs, ht⟩
  | case2 d t => exact ⟨hs, ht.2.1⟩
  | case3 c s => exact ⟨hs.2.1, ht⟩
  | case4 s c t ih =>
    have := ih hs.2.2 ht.2.2
    rw [parting_cons_self]
    rwa [show p + 1 + (parting s t).pos = p + ((parting s t).pos + 1) by omega,
      show q + 1 + (parting s t).pos = q + ((parting s t).pos + 1) by omega] at this
  | case5 c s d t h =>
    rw [parting_cons_ne h]
    exact ⟨hs.2.1, ht.2.1⟩

end Parting
