import Mathlib.Data.List.GetD
import Timix.StringImpl

/-!
# Copying strings (`strcpy`, `strncpy`, `strdup`, `strcat`)

The loops copy up to and with the terminator and leave the destination pointer behind it.

* `returns_copy`, `returns_strcat`, `returns_strlen` — what the functions do.
* `copy_frame`, `strcat_frame` — where they write, whatever is in memory.
* `FreshBlock`, `Allocates` — what `malloc` is relied on for.
-/

set_option autoImplicit false

namespace Timix.StringImpl

open Comp Memory

variable {m m' : Memory} {d src n r k : Nat} {s t : List Byte}

/-! ## The copying loop -/

/-- What is not written yet. -/
theorem byte_ahead (hk : k ≤ s.length) (hapart : ∀ i < k, d + i ≠ src + k) :
    (m.write d (s.take k)).byte (src + k) = m.byte (src + k) := by
  apply byte_write_out
  rw [List.length_take_of_le hk]
  by_contra hin
  exact hapart (src + k - d) (by omega) (by omega)

/-- The next byte. -/
theorem write_take_succ (hk : k < s.length) :
    (m.write d (s.take k)).put (d + k) s[k] = m.write d (s.take (k + 1)) := by
  rw [List.take_succ_eq_append_getElem hk, write_concat, List.length_take_of_le (by omega)]

theorem returns_copy_turn {x : Turn (Nat × Nat) Nat} : (copy.turn (d, src)).Returns m x m' ↔
    (m.access src ≠ .none ∧ m.access d = .var) ∧
      if m.byte src ≠ 0 then .again (d + 1, src + 1) = x ∧ m.put d (m.byte src) = m'
      else .leave (d + 1) = x ∧ m.put d (m.byte src) = m' := by
  simp [copy.turn, and_assoc]

/-- **What the loop does**, if it does not write over what it has yet to read. -/
theorem returns_copy (hs : m.StrAt src s)
    (hapart : ∀ i j, i < j → j ≤ s.length → d + i ≠ src + j) :
    (copy d src).Returns m r m' ↔
      m.Writable d (s.length + 1) ∧ d + s.length + 1 = r ∧ m.write d (s ++ [0]) = m' := by
  have hturn : ∀ i < s.length, ∀ x u,
      (copy.turn (d + i, src + i)).Returns (m.write d (s.take i)) x u ↔
        m.access (d + i) = .var ∧ .again (d + (i + 1), src + (i + 1)) = x ∧
          m.write d (s.take (i + 1)) = u := by
    intro i hi x u
    have hbyte : (m.write d (s.take i)).byte (src + i) = s[i] := by
      rw [byte_ahead (by omega) fun j hj => hapart j i hj (by omega), hs.holds.getElem hi]
    have hne : s[i] ≠ 0 := hs.holds.ne_zero _ (List.getElem_mem hi)
    rw [returns_copy_turn, hbyte, if_pos hne, access_write, write_take_succ hi, and_assoc,
      and_iff_right (hs.readable i (by omega))]
    rfl
  have hleave : ∀ x u,
      (copy.turn (d + s.length, src + s.length)).Returns (m.write d (s.take s.length)) x u ↔
        m.access (d + s.length) = .var ∧ .leave (d + s.length + 1) = x ∧
          m.write d (s ++ [0]) = u := by
    intro x u
    have hbyte : (m.write d (s.take s.length)).byte (src + s.length) = 0 := by
      rw [byte_ahead (Nat.le_refl _) fun j hj => hapart j _ hj (Nat.le_refl _), hs.holds.nul]
    rw [returns_copy_turn, hbyte, if_neg (by simp), access_write, List.take_length, write_concat,
      and_assoc, and_iff_right (hs.readable _ (Nat.lt_succ_self _))]
  have hrun := returns_turns (a := r) (t := m') (fun i => (d + i, src + i))
    (fun i => m.write d (s.take i)) (fun i => m.access (d + i) = .var) hturn
  rw [returns_leave _ _ _ hleave, ← and_assoc] at hrun
  rw [writable_concat]
  exact hrun

/-! ## Filling -/

theorem returns_memset_turn {c : Int} {len : Nat} {x : Turn (Nat × Nat) Unit} :
    (memset.turn c (d, len)).Returns m x m' ↔
      if len > 0 then m.access d = .var ∧ .again (d + 1, len - 1) = x ∧
        m.put d (BitVec.ofInt 8 c) = m'
      else .leave () = x ∧ m = m' := by
  simp [memset.turn]

/-- **What `memset` does**: it fills the `n` bytes from `d` on and returns `d`, provided that it may
write them. -/
theorem returns_memset {c : Int} : (memset d c n).Returns m r m' ↔
    m.Writable d n ∧ r = d ∧ m.write d (List.replicate n (BitVec.ofInt 8 c)) = m' := by
  have hturn : ∀ i < n, ∀ x u,
      (memset.turn c (d + i, n - i)).Returns (m.write d (List.replicate i (BitVec.ofInt 8 c))) x u ↔
        m.access (d + i) = .var ∧ .again (d + (i + 1), n - (i + 1)) = x ∧
          m.write d (List.replicate (i + 1) (BitVec.ofInt 8 c)) = u := by
    intro i hi x u
    rw [returns_memset_turn, if_pos (by omega), access_write, List.replicate_succ', write_concat,
      List.length_replicate]
    rfl
  have hleave : ∀ x u, (memset.turn c (d + n, n - n)).Returns
      (m.write d (List.replicate n (BitVec.ofInt 8 c))) x u ↔
        True ∧ .leave () = x ∧ m.write d (List.replicate n (BitVec.ofInt 8 c)) = u := by
    intro x u
    rw [returns_memset_turn, if_neg (by omega), true_and]
  have hloop : ∀ u, (loop (memset.turn c) (d, n)).Returns m () u ↔
      m.Writable d n ∧ m.write d (List.replicate n (BitVec.ofInt 8 c)) = u := by
    intro u
    have hrun := returns_turns (a := ()) (t := u) (fun i => (d + i, n - i))
      (fun i => m.write d (List.replicate i (BitVec.ofInt 8 c))) (fun i => m.access (d + i) = .var)
      hturn
    rw [returns_leave _ _ _ hleave, true_and, and_iff_right rfl] at hrun
    exact hrun
  unfold memset
  rw [returns_bind]
  constructor
  · rintro ⟨_, u, hfill, hret⟩
    obtain ⟨hw, rfl⟩ := (hloop u).1 hfill
    obtain ⟨rfl, rfl⟩ := returns_pure.1 hret
    exact ⟨hw, rfl, rfl⟩
  · rintro ⟨hw, rfl, rfl⟩
    exact ⟨(), _, (hloop _).2 ⟨hw, rfl⟩, returns_pure.2 ⟨rfl, rfl⟩⟩

/-- Below `d` nothing has changed. -/
structure SameBelow (d : Nat) (m u : Memory) : Prop where
  byte : ∀ x < d, u.byte x = m.byte x
  access : u.access = m.access

theorem SameBelow.refl (d : Nat) (m : Memory) : SameBelow d m m := ⟨fun _ _ => rfl, rfl⟩

theorem SameBelow.put {u : Memory} {q : Nat} {b : Byte} (h : SameBelow d m u) (hq : d ≤ q) :
    SameBelow d m (u.put q b) where
  byte x hx := (byte_put_ne u b (by omega)).trans (h.byte x hx)
  access := h.access

/-- Where the loop writes, whatever is in memory. -/
theorem copy_frame (h : (copy d src).Returns m r m') :
    SameBelow d m m' ∧ d < r ∧ ∃ x, d ≤ x ∧ m.access x = .var := by
  refine returns_loop_inv (fun (b : Nat × Nat) (u : Memory) => SameBelow d m u ∧ d ≤ b.1)
    (fun q u => SameBelow d m u ∧ d < q ∧ ∃ x, d ≤ x ∧ m.access x = .var) ?_ ?_
    ⟨SameBelow.refl d m, Nat.le_refl d⟩ h
  · rintro ⟨q, p⟩ u ⟨q', p'⟩ v ⟨hsame, hq⟩ hturn
    obtain ⟨-, hif⟩ := returns_copy_turn.1 hturn
    split at hif
    · obtain ⟨heq, rfl⟩ := hif
      cases heq
      exact ⟨hsame.put hq, Nat.le_succ_of_le hq⟩
    · cases hif.1
  · rintro ⟨q, p⟩ u q' v ⟨hsame, hq⟩ hturn
    obtain ⟨⟨-, hvar⟩, hif⟩ := returns_copy_turn.1 hturn
    split at hif
    · cases hif.1
    · obtain ⟨heq, rfl⟩ := hif
      cases heq
      rw [hsame.access] at hvar
      exact ⟨hsame.put hq, Nat.lt_succ_of_le hq, q, hq, hvar⟩

/-! ## `strlen` and the scan of `strcat` -/

theorem returns_strlen_turn {x : Turn Nat Nat} : (strlen.turn src k).Returns m x m' ↔
    m.access (src + k) ≠ .none ∧
      if m.byte (src + k) ≠ 0 then k < INT_MAX ∧ .again (k + 1) = x ∧ m = m'
      else .leave k = x ∧ m = m' := by
  simp [strlen.turn]

theorem returns_strlen (hs : m.StrAt src s) :
    (strlen src).Returns m r m' ↔ s.length ≤ INT_MAX ∧ s.length = r ∧ m = m' := by
  have hturn : ∀ i < s.length, ∀ x u, (strlen.turn src i).Returns m x u ↔
      i < INT_MAX ∧ .again (i + 1) = x ∧ m = u := by
    intro i hi x u
    have hne : m.byte (src + i) ≠ 0 := by
      rw [hs.holds.getElem hi]
      exact hs.holds.ne_zero _ (List.getElem_mem hi)
    rw [returns_strlen_turn, and_iff_right (hs.readable i (by omega)), if_pos hne]
  have hleave : ∀ x u, (strlen.turn src s.length).Returns m x u ↔
      True ∧ .leave s.length = x ∧ m = u := by
    intro x u
    rw [returns_strlen_turn, and_iff_right (hs.readable _ (Nat.lt_succ_self _)), hs.holds.nul,
      if_neg (by simp), true_and]
  unfold strlen
  rw [returns_turns (fun i => i) (fun _ => m) (fun i => i < INT_MAX) hturn,
    returns_leave True _ m hleave, true_and, forall_lt_bound]

theorem returns_strcat_turn {x : Turn Nat Nat} : (strcat.turn d).Returns m x m' ↔
    m.access d ≠ .none ∧
      if m.byte d ≠ 0 then .again (d + 1) = x ∧ m = m' else .leave d = x ∧ m = m' := by
  simp [strcat.turn]

/-- **What `strcat` does**: it copies to the end of the string at `d`. -/
theorem returns_strcat (ht : m.StrAt d t) :
    (strcat d src).Returns m r m' ↔ (copy (d + t.length) src).Returns m r m' := by
  have hturn : ∀ i < t.length, ∀ x u, (strcat.turn (d + i)).Returns m x u ↔
      True ∧ .again (d + (i + 1)) = x ∧ m = u := by
    intro i hi x u
    have hne : m.byte (d + i) ≠ 0 := by
      rw [ht.holds.getElem hi]
      exact ht.holds.ne_zero _ (List.getElem_mem hi)
    rw [returns_strcat_turn, and_iff_right (ht.readable i (by omega)), if_pos hne, true_and]
    rfl
  have hleave : ∀ x u, (strcat.turn (d + t.length)).Returns m x u ↔
      True ∧ .leave (d + t.length) = x ∧ m = u := by
    intro x u
    rw [returns_strcat_turn, and_iff_right (ht.readable _ (Nat.lt_succ_self _)), ht.holds.nul,
      if_neg (by simp), true_and]
  have hloop : ∀ q u, (loop strcat.turn d).Returns m q u ↔ d + t.length = q ∧ m = u := by
    intro q u
    have hrun := returns_turns (a := q) (t := u) (fun i => d + i) (fun _ => m) (fun _ => True) hturn
    rw [returns_leave True _ m hleave] at hrun
    simpa using hrun
  unfold strcat
  rw [returns_bind]
  simp only [hloop]
  constructor
  · rintro ⟨_, _, ⟨rfl, rfl⟩, hcopy⟩
    exact hcopy
  · intro hcopy
    exact ⟨_, _, ⟨rfl, rfl⟩, hcopy⟩

/-- Where `strcat` writes, whatever is in memory. -/
theorem strcat_frame (h : (strcat d src).Returns m r m') :
    SameBelow d m m' ∧ d < r ∧ ∃ x, d ≤ x ∧ m.access x = .var := by
  unfold strcat at h
  obtain ⟨q, u, hscan, hcopy⟩ := returns_bind.1 h
  have hq : d ≤ q ∧ m = u := by
    refine returns_loop_inv (fun p v => d ≤ p ∧ m = v) (fun p v => d ≤ p ∧ m = v) ?_ ?_
      ⟨Nat.le_refl d, rfl⟩ hscan
    · rintro p v p' w ⟨hp, rfl⟩ hturn
      obtain ⟨-, hif⟩ := returns_strcat_turn.1 hturn
      split at hif
      · obtain ⟨heq, rfl⟩ := hif
        cases heq
        exact ⟨Nat.le_succ_of_le hp, rfl⟩
      · cases hif.1
    · rintro p v p' w ⟨hp, rfl⟩ hturn
      obtain ⟨-, hif⟩ := returns_strcat_turn.1 hturn
      split at hif
      · cases hif.1
      · obtain ⟨heq, rfl⟩ := hif
        cases heq
        exact ⟨hp, rfl⟩
  obtain ⟨hle, rfl⟩ := hq
  obtain ⟨hsame, hlt, x, hx, hvar⟩ := copy_frame hcopy
  exact ⟨⟨fun y hy => hsame.byte y (by omega), hsame.access⟩, by omega, x, by omega, hvar⟩

/-! ## `strncpy` -/

theorem returns_strncpy_turn {x : Turn (Nat × Nat × Nat) Nat} :
    (strncpy.turn n (d, src, k)).Returns m x m' ↔
      (m.access src ≠ .none ∧ m.access d = .var) ∧
        if m.byte src ≠ 0 then k < INT_MAX ∧
          if k < n then .again (d + 1, src + 1, k + 1) = x ∧ m.put d (m.byte src) = m'
          else .leave (d + 1) = x ∧ m.put d (m.byte src) = m'
        else .leave (d + 1) = x ∧ m.put d (m.byte src) = m' := by
  simp [strncpy.turn, and_assoc]

theorem strncpy_turns (hs : m.StrAt src s)
    (hapart : ∀ i j, i < n → i < j → j ≤ s.length → d + i ≠ src + j)
    (hk : k ≤ s.length) (hkn : k ≤ n) :
    (strncpy d src n).Returns m r m' ↔ (∀ i < k, m.access (d + i) = .var ∧ i < INT_MAX) ∧
      (loop (strncpy.turn n) (d + k, src + k, k)).Returns (m.write d (s.take k)) r m' := by
  have hturn : ∀ i < k, ∀ x u,
      (strncpy.turn n (d + i, src + i, i)).Returns (m.write d (s.take i)) x u ↔
        (m.access (d + i) = .var ∧ i < INT_MAX) ∧
          .again (d + (i + 1), src + (i + 1), i + 1) = x ∧ m.write d (s.take (i + 1)) = u := by
    intro i hi x u
    have hlt : i < s.length := by omega
    have hbyte : (m.write d (s.take i)).byte (src + i) = s[i] := by
      rw [byte_ahead (by omega) fun j hj => hapart j i (by omega) hj (by omega),
        hs.holds.getElem hlt]
    have hne : s[i] ≠ 0 := hs.holds.ne_zero _ (List.getElem_mem hlt)
    rw [returns_strncpy_turn, hbyte, if_pos hne, if_pos (by omega), access_write,
      write_take_succ hlt, and_iff_right (hs.readable i (by omega)), and_assoc]
    rfl
  exact returns_turns (fun i => (d + i, src + i, i)) (fun i => m.write d (s.take i))
    (fun i => m.access (d + i) = .var ∧ i < INT_MAX) hturn

/-- A source shorter than `n`: the terminator is the last byte written. -/
theorem returns_strncpy (hs : m.StrAt src s)
    (hapart : ∀ i j, i < n → i < j → j ≤ s.length → d + i ≠ src + j) (hn : s.length < n) :
    (strncpy d src n).Returns m r m' ↔ (m.Writable d (s.length + 1) ∧ s.length ≤ INT_MAX) ∧
      d + s.length + 1 = r ∧ m.write d (s ++ [0]) = m' := by
  have hleave : ∀ x u, (strncpy.turn n (d + s.length, src + s.length, s.length)).Returns
      (m.write d (s.take s.length)) x u ↔
        m.access (d + s.length) = .var ∧ .leave (d + s.length + 1) = x ∧
          m.write d (s ++ [0]) = u := by
    intro x u
    have hbyte : (m.write d (s.take s.length)).byte (src + s.length) = 0 := by
      rw [byte_ahead (Nat.le_refl _) fun j hj => hapart j _ (by omega) hj (Nat.le_refl _),
        hs.holds.nul]
    rw [returns_strncpy_turn, hbyte, if_neg (by simp), access_write, List.take_length,
      write_concat, and_assoc, and_iff_right (hs.readable _ (Nat.lt_succ_self _))]
  rw [strncpy_turns hs hapart (Nat.le_refl _) (by omega), returns_leave _ _ _ hleave,
    writable_concat, ← forall_lt_bound]
  constructor
  · rintro ⟨hall, hlast, hr, hm⟩
    exact ⟨⟨⟨fun i hi => (hall i hi).1, hlast⟩, fun i hi => (hall i hi).2⟩, hr, hm⟩
  · rintro ⟨⟨⟨hw, hlast⟩, hb⟩, hr, hm⟩
    exact ⟨fun i hi => ⟨hw i hi, hb i hi⟩, hlast, hr, hm⟩

/-- A source of `n` bytes or more: `dest[n]` is written too. -/
theorem not_returns_strncpy (hs : m.StrAt src s)
    (hapart : ∀ i j, i < n → i < j → j ≤ s.length → d + i ≠ src + j) (hn : n ≤ s.length)
    (hend : m.access (d + n) ≠ .var) : ¬ (strncpy d src n).Returns m r m' := by
  rw [strncpy_turns hs hapart hn (Nat.le_refl n)]
  rintro ⟨-, hloop⟩
  refine not_returns_loop ?_ hloop
  intro x u h
  have hvar := (returns_strncpy_turn.1 h).1.2
  rw [access_write] at hvar
  exact hend hvar

/-- **When `strncpy` keeps to its buffer and fills it.**  The program may write `n` bytes at
    `dest`; afterwards they are the first bytes of the source and then NUL. -/
theorem strncpy_fills_iff (m : Memory) (dest src n : Nat) (s : List Byte) (hs : m.StrAt src s)
    (hwrite : ∀ x, m.access x = .var ↔ dest ≤ x ∧ x < dest + n)
    (hapart : ∀ i ≤ s.length, ¬ (dest ≤ src + i ∧ src + i < dest + n)) :
    (∃ r m', (strncpy dest src n).Returns m r m' ∧
      (∀ i < n, m'.byte (dest + i) = s.getD i 0) ∧
      ∀ x, ¬ (dest ≤ x ∧ x < dest + n) → m'.byte x = m.byte x) ↔
      s.length < n ∧ s.length ≤ INT_MAX ∧
        ∀ i, s.length < i → i < n → m.byte (dest + i) = 0 := by
  have hend : m.access (dest + n) ≠ .var := by
    rw [Ne, hwrite]
    omega
  have hahead : ∀ i j, i < n → i < j → j ≤ s.length → dest + i ≠ src + j := by
    intro i j hi hij hj heq
    exact hapart j hj (by omega)
  rcases Nat.lt_or_ge s.length n with hn | hn
  · have hrun : ∀ r m', (strncpy dest src n).Returns m r m' ↔
        (m.Writable dest (s.length + 1) ∧ s.length ≤ INT_MAX) ∧ dest + s.length + 1 = r ∧
          m.write dest (s ++ [0]) = m' := fun _ _ => returns_strncpy hs hahead hn
    constructor
    · rintro ⟨r, m', hret, hbuf, -⟩
      obtain ⟨⟨-, hmax⟩, -, rfl⟩ := (hrun r m').1 hret
      refine ⟨hn, hmax, ?_⟩
      intro i hi hin
      have hrest := hbuf i hin
      rwa [byte_write_out _ (by simp; omega), List.getD_eq_default _ _ (by omega)] at hrest
    · rintro ⟨-, hmax, hpad⟩
      have hw : m.Writable dest (s.length + 1) := fun i hi => (hwrite _).2 (by omega)
      refine ⟨_, _, (hrun _ _).2 ⟨⟨hw, hmax⟩, rfl, rfl⟩, ?_, ?_⟩
      · intro i hi
        rcases Nat.lt_trichotomy i s.length with hlt | rfl | hgt
        · rw [byte_write_in _ _ (by simp; omega), List.getElem_append_left hlt,
            List.getD_eq_getElem _ _ hlt]
        · rw [byte_write_in _ _ (by simp), List.getElem_append_right (Nat.le_refl _),
            List.getD_eq_default _ _ (Nat.le_refl _)]
          simp
        · rw [byte_write_out _ (by simp; omega), hpad i hgt hi,
            List.getD_eq_default _ _ (by omega)]
      · intro x hx
        exact byte_write_out _ (by simp; omega)
  · refine iff_of_false ?_ (by omega)
    rintro ⟨r, m', hret, -⟩
    exact not_returns_strncpy hs hahead hn hend hret

/-- "hi" at 16 and a buffer of four bytes at 32, the last of them NUL already. -/
theorem strncpy_hi_fills : ∃ m' : Memory, ∃ r, (strncpy 32 16 4).Returns
      ((empty.place 16 [104, 105, 0] .const).place 32 [120, 120, 120, 0] .var) r m' ∧
    ∀ i < 4, m'.byte (32 + i) = [104, 105].getD i 0 := by
  have hwrite : ∀ x, ((empty.place 16 [104, 105, 0] .const).place 32 [120, 120, 120, 0]
      .var).access x = .var ↔ 32 ≤ x ∧ x < 32 + 4 := by
    intro x
    simp (disch := decide) only [access_place, access_empty, List.length_cons, List.length_nil,
      reduceCtorEq, and_false, and_true, or_false]
  have hpad : ∀ i, 2 < i → i < 4 → ((empty.place 16 [104, 105, 0] .const).place 32
      [120, 120, 120, 0] .var).byte (32 + i) = 0 := by
    intro i hi hlt
    obtain rfl : i = 3 := by omega
    rfl
  obtain ⟨r, m', hret, hbuf, -⟩ := (strncpy_fills_iff
    ((empty.place 16 [104, 105, 0] .const).place 32 [120, 120, 120, 0] .var) 32 16 4 [104, 105]
    (by decide) hwrite (by decide)).2 ⟨by decide, by decide, hpad⟩
  exact ⟨m', r, hret, hbuf⟩

/-- With a buffer of two bytes, `strncpy(dest, "hi", 2)` clears the byte behind it. -/
theorem strncpy_hi_clears : ∃ m m' : Memory, Holds m.byte 16 [104, 105] ∧ m.byte (32 + 2) = 88 ∧
    (∃ r, (strncpy 32 16 2).Returns m r m') ∧ m'.byte (32 + 2) ≠ m.byte (32 + 2) :=
  ⟨(empty.place 16 [104, 105, 0] .const).place 32 [0, 0, 88] .var, _, by decide, by decide,
    ⟨35, 4, rfl⟩, by decide⟩

/-! ## `strdup` -/

/-- `p` is the start of a new block of `k` bytes. -/
structure FreshBlock (m m' : Memory) (p k : Nat) : Prop where
  ne_null : p ≠ NULL
  unused : ∀ i < k, m.access (p + i) = .none
  access : ∀ x, m'.access x = if p ≤ x ∧ x < p + k then .var else m.access x
  byte : ∀ x, ¬ (p ≤ x ∧ x < p + k) → m'.byte x = m.byte x

/-- `malloc(k)` returns `NULL` or a new block of exactly `k` bytes. -/
def Allocates (malloc : Nat → Comp Memory Nat) : Prop :=
  ∀ k m, ∃ p m', (malloc k).Returns m p m' ∧ (p = NULL ∧ m = m' ∨ FreshBlock m m' p k)

/-- Strings are not in a new block. -/
theorem FreshBlock.strAt {p : Nat} (h : FreshBlock m m' p k) (hs : m.StrAt src s) :
    m'.StrAt src s := by
  have hout : ∀ i ≤ s.length, ¬ (p ≤ src + i ∧ src + i < p + k) := by
    rintro i hi ⟨hle, hlt⟩
    have hnone := h.unused (src + i - p) (by omega)
    rw [show p + (src + i - p) = src + i by omega] at hnone
    exact hs.readable i (by omega) hnone
  refine ⟨hs.holds.congr fun i hi => h.byte _ (hout i hi), ?_⟩
  intro i hi
  rw [h.access, if_neg (hout i (by omega))]
  exact hs.readable i hi

/-- The block has no room for the terminator. -/
theorem FreshBlock.not_copy {p : Nat} (h : FreshBlock m m' p s.length) (hs : m.StrAt src s)
    (hconst : ∀ x, m.access x ≠ .var) {u : Memory} : ¬ (copy p src).Returns m' r u := by
  have hapart : ∀ i j, i < j → j ≤ s.length → p + i ≠ src + j := by
    intro i j hij hj heq
    exact hs.readable j (by omega) (heq ▸ h.unused i (by omega))
  rw [returns_copy (h.strAt hs) hapart]
  rintro ⟨hw, -⟩
  have hvar := hw s.length (Nat.lt_succ_self _)
  rw [h.access, if_neg (by omega)] at hvar
  exact hconst _ hvar

/-- **When `strdup` copies into its own block.**  The program may write nothing but what `malloc`
    gives it. -/
theorem strdup_copies_iff (malloc : Nat → Comp Memory Nat) (hmalloc : Allocates malloc)
    (m : Memory) (src : Nat) (s : List Byte) (hs : m.StrAt src s)
    (hconst : ∀ x, m.access x ≠ .var) :
    (∃ r m', (strdup malloc src).Returns m r m' ∧
      (r = NULL ∨ (∀ i ≤ s.length, m.access (r + i) = .none) ∧ m'.StrAt r s) ∧
      ∀ x, m.access x ≠ .none → m'.byte x = m.byte x) ↔
      s.length ≤ INT_MAX ∧ ∃ m', (malloc s.length).Returns m NULL m' := by
  obtain ⟨p, v, hret, hp⟩ := hmalloc s.length m
  constructor
  · rintro ⟨r, m', hdup, -⟩
    unfold strdup at hdup
    obtain ⟨len, u, hlen, hrest⟩ := returns_bind.1 hdup
    obtain ⟨hmax, rfl, rfl⟩ := (returns_strlen hs).1 hlen
    obtain ⟨p', v', hret', hrest⟩ := returns_bind.1 hrest
    obtain ⟨rfl, rfl⟩ := hret.unique hret'
    refine ⟨hmax, ?_⟩
    rcases hp with ⟨rfl, rfl⟩ | hfresh
    · exact ⟨_, hret⟩
    · rw [if_pos hfresh.ne_null] at hrest
      obtain ⟨q, w, hcopy, -⟩ := returns_bind.1 hrest
      exact absurd hcopy (hfresh.not_copy hs hconst)
  · rintro ⟨hmax, v', hret'⟩
    obtain ⟨rfl, rfl⟩ := hret.unique hret'
    have hsame : m = v := by
      rcases hp with ⟨-, hm⟩ | hfresh
      · exact hm
      · exact absurd rfl hfresh.ne_null
    subst hsame
    refine ⟨NULL, m, ?_, Or.inl rfl, fun _ _ => rfl⟩
    unfold strdup
    refine returns_bind.2 ⟨_, m, (returns_strlen hs).2 ⟨hmax, rfl, rfl⟩, ?_⟩
    refine returns_bind.2 ⟨_, m, hret, ?_⟩
    rw [if_neg (by simp)]
    exact returns_pure.2 ⟨rfl, rfl⟩

/-- A heap of 64 bytes at 4096, for one block. -/
def heap (k : Nat) : Comp Memory Nat :=
  .act fun m => if k ≤ 64 ∧ ∀ i < k, m.access (4096 + i) = .none then
    some (4096, m.place 4096 (List.replicate k 0xAA) .var) else some (NULL, m)

theorem allocates_heap : Allocates heap := by
  intro k m
  by_cases hroom : k ≤ 64 ∧ ∀ i < k, m.access (4096 + i) = .none
  · refine ⟨4096, _, returns_act.2 (if_pos hroom), Or.inr ⟨by decide, hroom.2, ?_, ?_⟩⟩
    · intro x
      simp only [place, List.length_replicate]
      by_cases hx : 4096 ≤ x ∧ x < 4096 + k
      · rw [if_pos ⟨by omega, hx⟩, if_pos hx]
      · rw [if_neg fun h => hx h.2, if_neg hx]
    · intro x hx
      simp only [place, List.length_replicate]
      rw [if_neg hx]
  · exact ⟨NULL, m, returns_act.2 (if_neg hroom), Or.inl ⟨rfl, rfl⟩⟩

/-- `strdup("hi")` does not stay within the block it gets. -/
theorem strdup_hi_leaves_block : ¬ ∃ r m', (strdup heap 16).Returns
      (empty.place 16 [104, 105, 0] .const) r m' ∧
    (r = NULL ∨ (∀ i ≤ 2, (empty.place 16 [104, 105, 0] .const).access (r + i) = .none) ∧
      m'.StrAt r [104, 105]) ∧
    ∀ x, (empty.place 16 [104, 105, 0] .const).access x ≠ .none →
      m'.byte x = (empty.place 16 [104, 105, 0] .const).byte x := by
  have hconst : ∀ x, (empty.place 16 [104, 105, 0] .const).access x ≠ .var := by
    intro x
    simp (disch := decide) only [ne_eq, access_place, access_empty, reduceCtorEq, and_false,
      or_false, not_false_eq_true]
  intro h
  obtain ⟨-, m', n, hn⟩ := (strdup_copies_iff heap allocates_heap
    (empty.place 16 [104, 105, 0] .const) 16 [104, 105] (by decide) hconst).1 h
  cases hn

/-- The block at 4096 has two bytes; the byte behind it belongs to something else, and changes. -/
theorem strdup_hi_clears : ∃ m m' : Memory, m.StrAt 16 [104, 105] ∧ m.byte 4098 = 88 ∧
    (∃ v, (heap 2).Returns m 4096 v) ∧ (strdup heap 16).Returns m 4096 m' ∧
    m'.byte 4098 ≠ m.byte 4098 :=
  ⟨(empty.place 16 [104, 105, 0] .const).place 4098 [88] .var, _, by decide, by decide,
    ⟨_, 0, rfl⟩, ⟨4, rfl⟩, by decide⟩

/-! ## Building a string -/

/-- `strcat` onto a string written before. -/
theorem returns_strcat_written (hs : m.StrAt src s) (ht : ∀ c ∈ t, c ≠ 0)
    (hw : m.Writable d ((t ++ s).length + 1))
    (hapart : ∀ i ≤ s.length, src + i < d ∨ d + ((t ++ s).length + 1) ≤ src + i) :
    (strcat d src).Returns (m.write d (t ++ [0])) r m' ↔
      d + (t ++ s).length + 1 = r ∧ m.write d (t ++ s ++ [0]) = m' := by
  rw [List.length_append] at hw hapart ⊢
  have hdest : (m.write d (t ++ [0])).StrAt d t := by
    refine ⟨Holds.write m d ht, ?_⟩
    intro i hi
    rw [access_write, hw i (by omega)]
    simp
  have hsrc : (m.write d (t ++ [0])).StrAt src s := by
    apply hs.write
    intro i hi
    have := hapart i hi
    simp
    omega
  have hahead : ∀ i j, i < j → j ≤ s.length → d + t.length + i ≠ src + j := by
    intro i j hij hj heq
    have := hapart j hj
    omega
  have hroom : (m.write d (t ++ [0])).Writable (d + t.length) (s.length + 1) := by
    intro i hi
    rw [access_write, Nat.add_assoc]
    exact hw _ (by omega)
  have hover : (m.write d (t ++ [0])).write (d + t.length) (s ++ [0]) =
      m.write d (t ++ s ++ [0]) := by
    -- the first byte goes over the terminator
    rw [write_concat m d t, List.append_assoc, write_append m d t (s ++ [0])]
    cases s with
    | nil => exact write_put ..
    | cons c s => exact write_put ..
  rw [returns_strcat hdest, returns_copy hsrc hahead, and_iff_right hroom, hover, Nat.add_assoc d]

/-- **Call after call, `strcpy` and `strcat` build the concatenation**, and write nothing behind
    its terminator. -/
theorem build_string {pa pb pc : Nat} {a b c : List Byte} (ha : m.StrAt pa a) (hb : m.StrAt pb b)
    (hc : m.StrAt pc c) (hw : m.Writable d ((a ++ b ++ c).length + 1))
    (ha' : ∀ i ≤ a.length, pa + i < d ∨ d + ((a ++ b ++ c).length + 1) ≤ pa + i)
    (hb' : ∀ i ≤ b.length, pb + i < d ∨ d + ((a ++ b ++ c).length + 1) ≤ pb + i)
    (hc' : ∀ i ≤ c.length, pc + i < d ∨ d + ((a ++ b ++ c).length + 1) ≤ pc + i) :
    (do
      let _ ← strcpy d pa
      let _ ← strcat d pb
      strcat d pc).Returns m (d + (a ++ b ++ c).length + 1) (m.write d (a ++ b ++ c ++ [0])) := by
  have hlen : (a ++ b ++ c).length = (a ++ b).length + c.length := List.length_append
  have hlen' : (a ++ b).length = a.length + b.length := List.length_append
  refine returns_bind.2 ⟨d + a.length + 1, m.write d (a ++ [0]), ?_, ?_⟩
  · refine (returns_copy ha ?_).2 ⟨fun i hi => hw i (by omega), rfl, rfl⟩
    intro i j hij hj heq
    have := ha' j hj
    omega
  refine returns_bind.2 ⟨d + (a ++ b).length + 1, m.write d (a ++ b ++ [0]), ?_, ?_⟩
  · refine (returns_strcat_written hb ha.holds.ne_zero (fun i hi => hw i (by omega)) ?_).2
      ⟨rfl, rfl⟩
    intro i hi
    have := hb' i hi
    omega
  · refine (returns_strcat_written hc ?_ hw hc').2 ⟨rfl, rfl⟩
    rw [List.forall_mem_append]
    exact ⟨ha.holds.ne_zero, hb.holds.ne_zero⟩

/-- **Their results do not compose.** -/
theorem string_calls_never_compose (m : Memory) (d pa pb pc : Nat) (a b c : List Byte)
    (ha : m.StrAt pa a)
    (hwrite : ∀ x, m.access x = .var ↔ d ≤ x ∧ x < d + (a ++ b ++ c).length + 1)
    (hapart : ∀ i ≤ a.length, ¬ (d ≤ pa + i ∧ pa + i < d + (a ++ b ++ c).length + 1)) :
    (¬ ∃ m', (strcpy d pa).Returns m d m') ∧
    (∀ u, ¬ ∃ m', (strcat d pb).Returns u d m') ∧
    ¬ ∃ r m', (do
      let p ← strcpy d pa
      let q ← strcat p pb
      strcat q pc).Returns m r m' ∧ Holds m'.byte d (a ++ b ++ c) := by
  refine ⟨?_, ?_, ?_⟩
  · rintro ⟨m', h⟩
    exact absurd (copy_frame h).2.1 (Nat.lt_irrefl d)
  · rintro u ⟨m', h⟩
    exact absurd (strcat_frame h).2.1 (Nat.lt_irrefl d)
  · rintro ⟨r, m', h, hholds⟩
    obtain ⟨p, u, hcpy, h⟩ := returns_bind.1 h
    obtain ⟨q, v, hcat, hcat'⟩ := returns_bind.1 h
    have hlen : (a ++ b ++ c).length = a.length + b.length + c.length := by
      rw [List.length_append, List.length_append]
    have hahead : ∀ i j, i < j → j ≤ a.length → d + i ≠ pa + j := by
      intro i j hij hj heq
      exact hapart j hj (by omega)
    obtain ⟨-, rfl, rfl⟩ := (returns_copy ha hahead).1 hcpy
    obtain ⟨hfirst, hpq, x, hx, hvar⟩ := strcat_frame hcat
    obtain ⟨hsecond, -⟩ := strcat_frame hcat'
    -- the terminator of the first string stays where it is
    have hnul : m'.byte (d + a.length) = 0 := by
      rw [hsecond.byte _ (by omega), hfirst.byte _ (by omega)]
      exact (Holds.write m d ha.holds.ne_zero).nul
    rcases Nat.lt_or_ge a.length (a ++ b ++ c).length with hlt | hge
    · rw [hholds.getElem hlt] at hnul
      exact hholds.ne_zero _ (List.getElem_mem hlt) hnul
    · rw [access_write, hwrite] at hvar
      omega

/-- "a", "b" and "c", and a buffer of four bytes at 64. -/
def letters : Memory :=
  (((empty.place 16 [97, 0] .const).place 32 [98, 0] .const).place 48 [99, 0] .const).place 64
    [0, 0, 0, 0] .var

theorem letters_never_compose : (¬ ∃ m', (strcpy 64 16).Returns letters 64 m') ∧
    ¬ ∃ r m', (do
      let p ← strcpy 64 16
      let q ← strcat p 32
      strcat q 48).Returns letters r m' ∧ Holds m'.byte 64 [97, 98, 99] := by
  have hwrite : ∀ x, letters.access x = .var ↔ 64 ≤ x ∧ x < 64 + 3 + 1 := by
    intro x
    simp (disch := decide) only [letters, access_place, access_empty, List.length_cons,
      List.length_nil, reduceCtorEq, and_false, and_true, or_false]
  obtain ⟨hcpy, -, hnested⟩ := string_calls_never_compose letters 64 16 32 48 [97] [98] [99]
    (by decide) hwrite (by decide)
  exact ⟨hcpy, hnested⟩

/-- With room for eight bytes, `strcat(strcat(strcpy(d, "a"), "b"), "c")` leaves "a" at `d`. -/
theorem letters_stay_apart : ∃ m m' : Memory, (m.StrAt 16 [97] ∧ m.StrAt 32 [98] ∧
      m.StrAt 48 [99] ∧ m.Writable 64 8) ∧
    (∃ r, (do
      let p ← strcpy 64 16
      let q ← strcat p 32
      strcat q 48).Returns m r m') ∧ Holds m'.byte 64 [97] ∧ ¬ Holds m'.byte 64 [97, 98, 99] :=
  ⟨(((empty.place 16 [97, 0] .const).place 32 [98, 0] .const).place 48 [99, 0] .const).place 64
    [0, 0, 0, 0, 0, 0, 0, 0] .var, _, by decide, ⟨_, 4, rfl⟩, by decide, by decide⟩

end Timix.StringImpl
