import Mathlib.Logic.Function.Basic
import Timix.Lib.Comp

/-!
# Memory in bytes, with rights of access

A `Memory` gives every address, a natural number, a byte and says whether a program may read it or
write it; nothing may be done at address 0.  `load` and `store` are the accesses; one that is not
allowed ends the program (`none`), so a program that returns has kept to its rights.

* `Memory.put`, `Memory.write` — a byte, several bytes written; what is read afterwards.
* `Memory.Readable`, `Memory.Writable` — the rights to a range.
-/

set_option autoImplicit false

abbrev Byte := BitVec 8

/-- What a program may do at an address. -/
inductive Memory.Access where
  | none
  | const
  | var
  deriving DecidableEq, Repr

structure Memory where
  byte : Nat → Byte
  access : Nat → Memory.Access
  null : access 0 = .none

namespace Memory

variable {m m' : Memory} {p q : Nat} {b : Byte} {bs : List Byte} {i n : Nat}

def put (m : Memory) (p : Nat) (b : Byte) : Memory := { m with byte := Function.update m.byte p b }

/-- Read a byte. -/
def load (p : Nat) : Comp Memory Byte :=
  .act fun m => if m.access p = .none then none else some (m.byte p, m)

/-- Write a byte. -/
def store (p : Nat) (b : Byte) : Comp Memory Unit :=
  .act fun m => if m.access p = .var then some ((), m.put p b) else none

/-- Several bytes from `p` on. -/
def write (m : Memory) : Nat → List Byte → Memory
  | _, [] => m
  | p, b :: bs => (m.put p b).write (p + 1) bs

@[simp] theorem access_put (m : Memory) (p : Nat) (b : Byte) : (m.put p b).access = m.access := rfl

theorem byte_put (m : Memory) (p : Nat) (b : Byte) : (m.put p b).byte p = b :=
  Function.update_self ..

theorem byte_put_ne (m : Memory) (b : Byte) (h : q ≠ p) : (m.put p b).byte q = m.byte q :=
  Function.update_of_ne h ..

@[simp] theorem access_write (m : Memory) (p : Nat) (bs : List Byte) :
    (m.write p bs).access = m.access := by
  induction bs generalizing m p with
  | nil => rfl
  | cons b bs ih =>
    rw [write, ih]
    rfl

theorem write_append (m : Memory) (p : Nat) (bs cs : List Byte) :
    m.write p (bs ++ cs) = (m.write p bs).write (p + bs.length) cs := by
  induction bs generalizing m p with
  | nil => rfl
  | cons b bs ih =>
    rw [List.cons_append, write, ih, List.length_cons, show p + 1 + bs.length =
      p + (bs.length + 1) by omega]
    rfl

theorem write_concat (m : Memory) (p : Nat) (bs : List Byte) (b : Byte) :
    m.write p (bs ++ [b]) = (m.write p bs).put (p + bs.length) b :=
  write_append m p bs [b]

theorem write_put (m : Memory) (p : Nat) (b c : Byte) (bs : List Byte) :
    (m.put p b).write p (c :: bs) = m.write p (c :: bs) := by
  simp only [write, put, Function.update_idem]

/-- Outside the range nothing changes. -/
theorem byte_write_out (m : Memory) (h : q < p ∨ p + bs.length ≤ q) :
    (m.write p bs).byte q = m.byte q := by
  induction bs generalizing m p with
  | nil => rfl
  | cons b bs ih =>
    rw [List.length_cons] at h
    have hne : q ≠ p := by omega
    have hout : q < p + 1 ∨ p + 1 + bs.length ≤ q := by omega
    rw [write, ih _ hout, byte_put_ne _ _ hne]

/-- In the range the bytes are those written. -/
theorem byte_write_in (m : Memory) (p : Nat) (h : i < bs.length) :
    (m.write p bs).byte (p + i) = bs[i] := by
  induction bs generalizing m p i with
  | nil => cases h
  | cons b bs ih =>
    rw [write]
    cases i with
    | zero =>
      have hout : p < p + 1 ∨ p + 1 + bs.length ≤ p := by omega
      exact (byte_write_out (m.put p b) hout).trans (byte_put m p b)
    | succ i =>
      have hi : i < bs.length := Nat.lt_of_succ_lt_succ h
      rw [show p + (i + 1) = p + 1 + i by omega, ih _ _ hi]
      rfl

/-- The right to read `n` bytes from `p` on. -/
def Readable (m : Memory) (p : Nat) (n : Nat) : Prop := ∀ i < n, m.access (p + i) ≠ .none

/-- The right to write them. -/
def Writable (m : Memory) (p : Nat) (n : Nat) : Prop := ∀ i < n, m.access (p + i) = .var

instance (m : Memory) (p n : Nat) : Decidable (m.Readable p n) :=
  inferInstanceAs (Decidable (∀ i < n, m.access (p + i) ≠ .none))

instance (m : Memory) (p n : Nat) : Decidable (m.Writable p n) :=
  inferInstanceAs (Decidable (∀ i < n, m.access (p + i) = .var))

/-- No rights at all. -/
def empty : Memory := ⟨fun _ => 0, fun _ => .none, rfl⟩

/-- An object of the given bytes at `p`. -/
def place (m : Memory) (p : Nat) (bs : List Byte) (a : Access) : Memory where
  byte x := if p ≤ x ∧ x < p + bs.length then bs.getD (x - p) 0 else m.byte x
  access x := if x ≠ 0 ∧ p ≤ x ∧ x < p + bs.length then a else m.access x
  null := (if_neg fun h => h.1 rfl).trans m.null

theorem access_empty (x : Nat) : empty.access x = .none := rfl

/-- An object decides the access to its own bytes. -/
theorem access_place (m : Memory) (hp : p ≠ 0) (bs : List Byte) (a c : Access) (x : Nat) :
    (m.place p bs a).access x = c ↔
      (p ≤ x ∧ x < p + bs.length) ∧ a = c ∨ ¬ (p ≤ x ∧ x < p + bs.length) ∧ m.access x = c := by
  by_cases h : p ≤ x ∧ x < p + bs.length
  · have hacc : (m.place p bs a).access x = a := if_pos ⟨by omega, h⟩
    simp only [hacc, h, true_and, not_true_eq_false, false_and, or_false]
  · have hacc : (m.place p bs a).access x = m.access x := if_neg fun hx => h hx.2
    simp only [hacc, h, false_and, not_false_eq_true, true_and, false_or]

theorem readable_succ :
    m.Readable p (n + 1) ↔ m.access p ≠ .none ∧ m.Readable (p + 1) n := by
  constructor
  · intro h
    refine ⟨h 0 (by omega), ?_⟩
    intro i hi
    rw [Nat.add_assoc, Nat.add_comm 1]
    exact h (i + 1) (by omega)
  · rintro ⟨h0, h⟩ i hi
    cases i with
    | zero => exact h0
    | succ i =>
      rw [Nat.add_comm i, ← Nat.add_assoc]
      exact h i (by omega)

theorem writable_concat : m.Writable p (n + 1) ↔ m.Writable p n ∧ m.access (p + n) = .var := by
  constructor
  · intro h
    exact ⟨fun i hi => h i (by omega), h n (by omega)⟩
  · rintro ⟨h, hn⟩ i hi
    rcases Nat.lt_succ_iff_lt_or_eq.1 hi with hlt | rfl
    · exact h i hlt
    · exact hn

/-- What may be read is not at address 0. -/
theorem ne_null (h : m.access p ≠ .none) : p ≠ 0 := by
  rintro rfl
  exact h m.null

@[simp] theorem returns_load :
    (load p).Returns m b m' ↔ m.access p ≠ .none ∧ m.byte p = b ∧ m = m' := by
  unfold load
  rw [Comp.returns_act]
  by_cases h : m.access p = .none
  · simp [h]
  · simp [h]

@[simp] theorem returns_store {u : Unit} :
    (store p b).Returns m u m' ↔ m.access p = .var ∧ m.put p b = m' := by
  unfold store
  rw [Comp.returns_act]
  by_cases h : m.access p = .var
  · simp [h]
  · simp [h]

variable {α : Type} {a : α}

@[simp] theorem returns_load_bind {f : Byte → Comp Memory α} :
    (load p >>= f).Returns m a m' ↔ m.access p ≠ .none ∧ (f (m.byte p)).Returns m a m' := by
  rw [Comp.returns_bind]
  simp [and_assoc]

@[simp] theorem returns_store_bind {f : Unit → Comp Memory α} :
    (store p b >>= f).Returns m a m' ↔ m.access p = .var ∧ (f ()).Returns (m.put p b) a m' := by
  rw [Comp.returns_bind]
  constructor
  · rintro ⟨_, u, hstore, hf⟩
    obtain ⟨hp, rfl⟩ := returns_store.1 hstore
    exact ⟨hp, hf⟩
  · rintro ⟨hp, hf⟩
    exact ⟨(), _, returns_store.2 ⟨hp, rfl⟩, hf⟩

end Memory
