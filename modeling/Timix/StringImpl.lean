import Timix.Lib.CString

/-!
# The string functions (`timix/string-impl.h`)

Each function as a program over a `Memory`; pointers are addresses and `NULL` is address 0.  A
`for` or `while` is a `loop` over the locals it changes.

* `promote` — a plain `char` as an `int`; `signed` says which of the two it is on a port.
* `incr` — `i++` on an `int`, which must not overflow.
* `strcat`, `strlen`, `strcpy`, `strncpy`, `strdup`, `strcmp`, `strncmp`, `memset`, `strtok`,
  `strchr`.
-/

set_option autoImplicit false

namespace Timix.StringImpl

open Comp Memory

def INT_MAX : Nat := 0x7FFFFFFF

def NULL : Nat := 0

/-- A plain `char`, promoted to `int`. -/
def promote (signed : Bool) (c : Byte) : Int := if signed then c.toInt else c.toNat

/-- `i++` for an `int` that counts from 0. -/
def incr (i : Nat) : Comp Memory Nat := .act fun m => if i < INT_MAX then some (i + 1, m) else none

/-- `while ((*dest++ = *src++));` -/
def copy (dest src : Nat) : Comp Memory Nat := loop turn (dest, src)
where
  turn : Nat × Nat → Comp Memory (Turn (Nat × Nat) Nat)
  | (dest, src) => do
    let c ← load src
    store dest c
    if c ≠ 0 then return .again (dest + 1, src + 1) else return .leave (dest + 1)

/-- `_strcat`. -/
def strcat (str1 str2 : Nat) : Comp Memory Nat := do
  let str1 ← loop turn str1
  copy str1 str2
where
  turn (str1 : Nat) : Comp Memory (Turn Nat Nat) := do
    if (← load str1) ≠ 0 then return .again (str1 + 1) else return .leave str1

/-- `_strlen`. -/
def strlen (s : Nat) : Comp Memory Nat := loop turn 0
where
  turn (len : Nat) : Comp Memory (Turn Nat Nat) := do
    if (← load (s + len)) ≠ 0 then return .again (← incr len) else return .leave len

/-- `_strcpy`. -/
def strcpy (dest src : Nat) : Comp Memory Nat := copy dest src

/-- `_strncpy`. -/
def strncpy (dest src n : Nat) : Comp Memory Nat := loop turn (dest, src, 0)
where
  turn : Nat × Nat × Nat → Comp Memory (Turn (Nat × Nat × Nat) Nat)
  | (dest, src, i) => do
    let c ← load src
    store dest c
    if c ≠ 0 then
      let i' ← incr i
      if i < n then return .again (dest + 1, src + 1, i') else return .leave (dest + 1)
    else return .leave (dest + 1)

/-- `_strdup`, with the allocator it calls. -/
def strdup (malloc : Nat → Comp Memory Nat) (s : Nat) : Comp Memory Nat := do
  let new ← malloc (← strlen s)
  if new ≠ NULL then
    let _ ← strcpy new s
    return new
  else return new

/-- `s1[i] - s2[i]`. -/
def difference (signed : Bool) (s1 s2 i : Nat) : Comp Memory Int := do
  return promote signed (← load (s1 + i)) - promote signed (← load (s2 + i))

/-- `_strcmp`. -/
def strcmp (signed : Bool) (s1 s2 : Nat) : Comp Memory Int := do
  let i ← loop turn 0
  difference signed s1 s2 i
where
  turn (i : Nat) : Comp Memory (Turn Nat Nat) := do
    if (← load (s1 + i)) = (← load (s2 + i)) ∧ (← load (s1 + i)) ≠ 0 then return .again (← incr i)
    else return .leave i

/-- `_strncmp`. -/
def strncmp (signed : Bool) (s1 s2 n : Nat) : Comp Memory Int := do
  let i ← loop turn 0
  difference signed s1 s2 i
where
  turn (i : Nat) : Comp Memory (Turn Nat Nat) := do
    if (← load (s1 + i)) = (← load (s2 + i)) ∧ i < n then return .again (← incr i)
    else return .leave i

/-- `_memset`. -/
def memset (to_ : Nat) (c : Int) (len : Nat) : Comp Memory Nat := do
  loop turn (to_, len)
  return to_
where
  turn : Nat × Nat → Comp Memory (Turn (Nat × Nat) Unit)
  | (p, len) => do
    if len > 0 then
      store p (BitVec.ofInt 8 c)
      return .again (p + 1, len - 1)
    else return .leave ()

/-- `for (delimp = delim; *delimp; delimp++) if (c == *delimp) ...`: whether it comes to that. -/
def isDelim (signed : Bool) (delim : Nat) (c : Int) : Comp Memory Bool := loop turn delim
where
  turn (delimp : Nat) : Comp Memory (Turn Nat Bool) := do
    let d ← load delimp
    if d = 0 then return .leave false
    else if c = promote signed d then return .leave true
    else return .again (delimp + 1)

/-- `_strtok`: what it returns, and the new value of its static `tok`. -/
def strtok (signed : Bool) (tok str delim : Nat) : Comp Memory (Nat × Nat) := do
  let tok := if str ≠ NULL then str else tok
  if tok = NULL then return (NULL, tok)
  else
    let (c, tok) ← loop findTok tok
    loop (token (tok - 1)) (c, tok)
where
  findTok (tok : Nat) : Comp Memory (Turn Nat (Int × Nat)) := do
    let c := promote signed (← load tok)
    if ← isDelim signed delim c then return .again (tok + 1) else return .leave (c, tok + 1)
  token (ret : Nat) : Int × Nat → Comp Memory (Turn (Int × Nat) (Nat × Nat))
  | (c, tok) => do
    if ← isDelim signed delim c then
      store (tok - 1) 0
      return .leave (ret, tok)
    else
      let c := promote signed (← load tok)
      if c ≠ 0 then return .again (c, tok + 1) else return .leave (ret, NULL)

/-- `_strchr`. -/
def strchr (signed : Bool) (s : Nat) (c : Int) : Comp Memory Nat := loop turn s
where
  turn (s : Nat) : Comp Memory (Turn Nat Nat) := do
    let x := promote signed (← load s)
    if x ≠ 0 then
      if x = c then return .leave s else return .again (s + 1)
    else return .leave NULL

/-! ## Characters -/

variable {signed : Bool} {c d : Byte} {m m' : Memory}

theorem promote_inj : promote signed c = promote signed d ↔ c = d := by
  cases signed with
  | false =>
    constructor
    · intro h
      exact BitVec.eq_of_toNat_eq (Int.ofNat_inj.1 h)
    · rintro rfl
      rfl
  | true => exact BitVec.toInt_inj

theorem promote_zero (signed : Bool) : promote signed 0 = 0 := by
  cases signed <;> rfl

theorem promote_eq_zero : promote signed c = 0 ↔ c = 0 := by
  rw [← promote_zero signed, promote_inj]

/-- Bytes are in order as plain `char`s if these are unsigned, or both bytes lie on the same side
    of 0x80, and only then. -/
theorem promote_lt (hne : c ≠ d) : (promote signed c < promote signed d ↔ c < d) ↔
    (signed = true → (c < 0x80 ↔ d < 0x80)) := by
  have hnat : c.toNat ≠ d.toNat := fun h => hne (BitVec.eq_of_toNat_eq h)
  have hc := c.isLt
  have hd := d.isLt
  cases signed with
  | false => simp [promote, BitVec.lt_def]
  | true =>
    simp only [promote, if_true, BitVec.toInt_eq_toNat_cond, BitVec.lt_def, forall_const]
    have h80 : (0x80 : Byte).toNat = 128 := rfl
    rw [h80]
    split <;> split <;> omega

@[simp] theorem returns_incr {i j : Nat} :
    (incr i).Returns m j m' ↔ i < INT_MAX ∧ i + 1 = j ∧ m = m' := by
  unfold incr
  rw [returns_act]
  by_cases h : i < INT_MAX
  · simp [h]
  · simp [h]

@[simp] theorem returns_incr_bind {α : Type} {a : α} {i : Nat} {f : Nat → Comp Memory α} :
    (incr i >>= f).Returns m a m' ↔ i < INT_MAX ∧ (f (i + 1)).Returns m a m' := by
  rw [returns_bind]
  simp [and_assoc]

/-- As long as every increment before `k` is one the `int` allows. -/
theorem forall_lt_bound {k : Nat} : (∀ i < k, i < INT_MAX) ↔ k ≤ INT_MAX := by
  constructor
  · intro h
    by_contra hgt
    exact Nat.lt_irrefl _ (h INT_MAX (by omega))
  · intro h i hi
    omega

end Timix.StringImpl
