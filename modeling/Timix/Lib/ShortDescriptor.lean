import Mathlib.Algebra.Group.Nat.Defs
import Mathlib.Logic.Function.Basic

/-!
# ARM short descriptors, first level

A directory of 4096 words on a 16 KB boundary has one entry for every section of 1 MB.  An entry
whose lowest bits are 2 and whose bit 18 is clear maps its section; an entry 0 is a fault.

* `entryAddress`, `physical` — the entry of an address, and where it takes the address.
* `slot` — the address of an entry by its number.
-/

set_option autoImplicit false

namespace ShortDescriptor

/-- Bits 31 to 14 of the directory, bits 31 to 20 of the address, and two zeros. -/
def entryAddress (dir v : BitVec 32) : BitVec 32 :=
  dir.extractLsb' 14 18 ++ v.extractLsb' 20 12 ++ 0#2

/-- Where the directory takes `v`, if its entry is a section. -/
def physical (mem : BitVec 32 → BitVec 32) (dir v : BitVec 32) : Option (BitVec 32) :=
  let entry := mem (entryAddress dir v)
  if entry.extractLsb' 0 2 = 2#2 ∧ entry.getLsbD 18 = false then
    some (entry.extractLsb' 20 12 ++ v.extractLsb' 0 20)
  else none

/-- Entry `x` of the directory. -/
def slot (dir : BitVec 32) (x : Nat) : BitVec 32 := dir + BitVec.ofNat 32 (4 * x)

variable {dir v : BitVec 32} {mem : BitVec 32 → BitVec 32} {x y : Nat}

theorem toNat_append_add {n k : Nat} (a : BitVec n) (b : BitVec k) :
    (a ++ b).toNat = a.toNat * 2 ^ k + b.toNat := by
  rw [BitVec.toNat_append, ← Nat.shiftLeft_add_eq_or_of_lt b.isLt, Nat.shiftLeft_eq]

theorem toNat_extract (a : BitVec 32) (start n : Nat) :
    (a.extractLsb' start n).toNat = a.toNat / 2 ^ start % 2 ^ n := by
  rw [BitVec.extractLsb'_toNat, Nat.shiftRight_eq_div_pow]

/-- Clearing the low `n` bits. -/
theorem toNat_bic (w : BitVec 32) {n : Nat} :
    (w &&& ~~~BitVec.ofNat 32 (2 ^ n - 1)).toNat = w.toNat / 2 ^ n * 2 ^ n := by
  have hshift : w &&& ~~~BitVec.ofNat 32 (2 ^ n - 1) = w >>> n <<< n := by
    apply BitVec.eq_of_getLsbD_eq
    intro i hi
    simp only [BitVec.getLsbD_and, BitVec.getLsbD_not, BitVec.getLsbD_ofNat,
      Nat.testBit_two_pow_sub_one, BitVec.getLsbD_shiftLeft, BitVec.getLsbD_ushiftRight, hi,
      decide_true, Bool.true_and]
    by_cases h : i < n
    · simp [h]
    · simp [h, show n + (i - n) = i by omega]
  have hle : w.toNat / 2 ^ n * 2 ^ n ≤ w.toNat := Nat.div_mul_le_self _ _
  rw [hshift, BitVec.toNat_shiftLeft, BitVec.toNat_ushiftRight, Nat.shiftRight_eq_div_pow,
    Nat.shiftLeft_eq, Nat.mod_eq_of_lt (Nat.lt_of_le_of_lt hle w.isLt)]

theorem toNat_slot (h : dir.toNat + 4 * x < 2 ^ 32) : (slot dir x).toNat = dir.toNat + 4 * x := by
  rw [slot, BitVec.toNat_add, BitVec.toNat_ofNat, Nat.mod_eq_of_lt (a := 4 * x) (by omega),
    Nat.mod_eq_of_lt h]

theorem slot_inj (hx : x < 4096) (hy : y < 4096) : slot dir x = slot dir y ↔ x = y := by
  constructor
  · intro h
    have h' : BitVec.ofNat 32 (4 * x) = BitVec.ofNat 32 (4 * y) := (BitVec.add_right_inj dir).1 h
    have := congrArg BitVec.toNat h'
    rw [BitVec.toNat_ofNat, BitVec.toNat_ofNat] at this
    omega
  · rintro rfl
    rfl

theorem entryAddress_eq (h : dir.toNat % 2 ^ 14 = 0) :
    entryAddress dir v = slot dir (v.toNat / 2 ^ 20) := by
  have hd := dir.isLt
  have hv := v.isLt
  apply BitVec.eq_of_toNat_eq
  rw [toNat_slot (by omega), entryAddress, toNat_append_add, toNat_append_add, toNat_extract,
    toNat_extract, BitVec.toNat_ofNat]
  omega

/-! ## Sections -/

/-- The entry that maps section `y` with the given attributes. -/
theorem toNat_section {attr : Nat} (hy : y < 4096) (hattr : attr < 2 ^ 20) :
    (BitVec.ofNat 32 (y * 2 ^ 20) ||| BitVec.ofNat 32 attr).toNat = y * 2 ^ 20 + attr := by
  rw [BitVec.toNat_or, BitVec.toNat_ofNat, BitVec.toNat_ofNat, Nat.mod_eq_of_lt (by omega),
    Nat.mod_eq_of_lt (by omega), ← Nat.shiftLeft_eq, ← Nat.shiftLeft_add_eq_or_of_lt hattr]

/-- Attributes that make a section. -/
def IsSection (attr : Nat) : Prop := attr < 2 ^ 20 ∧ attr % 4 = 2 ∧ attr.testBit 18 = false

instance (attr : Nat) : Decidable (IsSection attr) :=
  inferInstanceAs (Decidable (attr < 2 ^ 20 ∧ attr % 4 = 2 ∧ attr.testBit 18 = false))

/-- **What a section entry does**: the section changes, the place in it does not. -/
theorem physical_section {attr : Nat} (hattr : IsSection attr) (hy : y < 4096)
    (h : mem (entryAddress dir v) = BitVec.ofNat 32 (y * 2 ^ 20) ||| BitVec.ofNat 32 attr) :
    physical mem dir v = some (BitVec.ofNat 32 (y * 2 ^ 20 + v.toNat % 2 ^ 20)) := by
  obtain ⟨hlt, htype, hsuper⟩ := hattr
  have hentry := toNat_section hy hlt
  rw [← h] at hentry
  have h0 : (mem (entryAddress dir v)).extractLsb' 0 2 = 2#2 := by
    apply BitVec.eq_of_toNat_eq
    rw [toNat_extract, hentry, BitVec.toNat_ofNat]
    omega
  have h18 : (mem (entryAddress dir v)).getLsbD 18 = false := by
    rw [Nat.testBit_eq_decide_div_mod_eq, decide_eq_false_iff_not] at hsuper
    rw [BitVec.getLsbD, hentry, Nat.testBit_eq_decide_div_mod_eq, decide_eq_false_iff_not]
    omega
  have hv := v.isLt
  unfold physical
  rw [if_pos ⟨h0, h18⟩, Option.some_inj]
  apply BitVec.eq_of_toNat_eq
  rw [toNat_append_add, toNat_extract, toNat_extract, hentry, BitVec.toNat_ofNat]
  omega

/-! ## Places in a section -/

theorem physical_eq_some {q : BitVec 32} :
    physical mem dir v = some q ↔
      ((mem (entryAddress dir v)).extractLsb' 0 2 = 2#2 ∧
        (mem (entryAddress dir v)).getLsbD 18 = false) ∧
      (mem (entryAddress dir v)).extractLsb' 20 12 ++ v.extractLsb' 0 20 = q := by
  unfold physical
  simp only [Option.ite_none_right_eq_some, Option.some.injEq]

theorem physical_toNat {q : BitVec 32} (h : physical mem dir v = some q) :
    q.toNat = (mem (entryAddress dir v)).toNat / 2 ^ 20 * 2 ^ 20 + v.toNat % 2 ^ 20 := by
  have hentry := (mem (entryAddress dir v)).isLt
  have hv := v.isLt
  rw [← (physical_eq_some.1 h).2, toNat_append_add, toNat_extract, toNat_extract]
  omega

/-- The place in the section stays. -/
theorem physical_low {q : BitVec 32} (h : physical mem dir v = some q) :
    q.toNat % 2 ^ 20 = v.toNat % 2 ^ 20 := by
  have hq := physical_toNat h
  omega

/-- A further address of the same section. -/
theorem physical_add {q : BitVec 32} (h : physical mem dir v = some q) {d : Nat}
    (hd : v.toNat % 2 ^ 20 + d < 2 ^ 20) :
    physical mem dir (v + BitVec.ofNat 32 d) = some (q + BitVec.ofNat 32 d) := by
  have hq := physical_toNat h
  have hv := v.isLt
  have hlt := q.isLt
  have hvd : (v + BitVec.ofNat 32 d).toNat = v.toNat + d := by
    rw [BitVec.toNat_add, BitVec.toNat_ofNat]
    omega
  have hentry : entryAddress dir (v + BitVec.ofNat 32 d) = entryAddress dir v := by
    unfold entryAddress
    congr 2
    apply BitVec.eq_of_toNat_eq
    rw [toNat_extract, toNat_extract, hvd]
    omega
  obtain ⟨q', hq'⟩ : ∃ q', physical mem dir (v + BitVec.ofNat 32 d) = some q' := by
    refine ⟨_, physical_eq_some.2 ⟨?_, rfl⟩⟩
    rw [hentry]
    exact (physical_eq_some.1 h).1
  have hq'd := physical_toNat hq'
  rw [hentry, hvd] at hq'd
  rw [hq', Option.some_inj]
  apply BitVec.eq_of_toNat_eq
  rw [BitVec.toNat_add, BitVec.toNat_ofNat]
  omega

/-- A word that is not the entry does not matter. -/
theorem physical_update {a w : BitVec 32} (h : entryAddress dir v ≠ a) :
    physical (Function.update mem a w) dir v = physical mem dir v := by
  unfold physical
  rw [Function.update_of_ne h]

end ShortDescriptor
