import Timix.Lib.Stretch
import Timix.StringImpl

/-!
# Splitting a string into tokens (`strtok`)

A call scans from the static `tok` for the first character that is no delimiter, then for the end
of the token.  If there is nothing but delimiters left, the first scan ends on the terminator,
takes it for a token and goes on behind it.

* `returns_call_delim`, `returns_call_end` — a call that comes to a token: it ends at a delimiter,
  or with the string.
* `call_without_token` — a call that comes to the terminator instead.

Principal result: `strtok_splits_iff`.
-/

set_option autoImplicit false

namespace Timix.StringImpl

open Comp Memory

variable {signed : Bool} {m m' : Memory} {p pd ps : Nat} {s d : List Byte} {c : Byte}

/-! ## One call -/

theorem returns_isDelim {b : Bool} (hd : m.StrAt pd d) :
    (isDelim signed pd (promote signed c)).Returns m b m' ↔ decide (c ∈ d) = b ∧ m = m' := by
  unfold isDelim
  induction d generalizing pd with
  | nil =>
    obtain ⟨hr, hb⟩ := StrAt.nil_iff.1 hd
    rw [returns_leave True false m]
    · simp
    · intro x u
      simp [isDelim.turn, hr, hb]
  | cons e d ih =>
    obtain ⟨⟨hr, hb, he⟩, hd⟩ := StrAt.cons_iff.1 hd
    have hturn : ∀ x u, (isDelim.turn signed (promote signed c) pd).Returns m x u ↔
        (if c = e then Turn.leave true else .again (pd + 1)) = x ∧ m = u := by
      intro x u
      have he' : e ≠ 0#8 := he
      by_cases hce : c = e
      · simp [isDelim.turn, hr, hb, he', promote_inj, hce]
      · simp [isDelim.turn, hr, hb, he', promote_inj, hce]
    by_cases hce : c = e
    · rw [returns_leave True true m]
      · simp [hce]
      · intro x u
        rw [hturn, if_pos hce, true_and]
    · rw [returns_loop]
      simp only [hturn, if_neg hce]
      constructor
      · rintro (⟨q, u, ⟨heq, rfl⟩, hrest⟩ | ⟨heq, -⟩)
        · cases heq
          have := (ih hd).1 hrest
          simpa [hce] using this
        · cases heq
      · rintro ⟨hb, rfl⟩
        refine Or.inl ⟨_, _, ⟨rfl, rfl⟩, (ih hd).2 ⟨?_, rfl⟩⟩
        simpa [hce] using hb

theorem returns_isDelim_bind {α : Type} {a : α} {f : Bool → Comp Memory α} (hd : m.StrAt pd d) :
    (isDelim signed pd (promote signed c) >>= f).Returns m a m' ↔
      (f (decide (c ∈ d))).Returns m a m' := by
  rw [returns_bind]
  simp only [returns_isDelim hd]
  constructor
  · rintro ⟨_, _, ⟨rfl, rfl⟩, h⟩
    exact h
  · intro h
    exact ⟨_, _, ⟨rfl, rfl⟩, h⟩

theorem returns_findTok_turn {x : Turn Nat (Int × Nat)} (hd : m.StrAt pd d) :
    (strtok.findTok signed pd p).Returns m x m' ↔ m.access p ≠ .none ∧
      (if m.byte p ∈ d then .again (p + 1) else .leave (promote signed (m.byte p), p + 1)) = x ∧
        m = m' := by
  unfold strtok.findTok
  rw [returns_load_bind, returns_isDelim_bind hd]
  by_cases h : m.byte p ∈ d
  · simp [h]
  · simp [h]

theorem returns_token_turn {ret : Nat} {x : Turn (Int × Nat) (Nat × Nat)} (hd : m.StrAt pd d) :
    (strtok.token signed pd ret (promote signed c, p)).Returns m x m' ↔
      if c ∈ d then m.access (p - 1) = .var ∧ .leave (ret, p) = x ∧ m.put (p - 1) 0 = m'
      else m.access p ≠ .none ∧
        (if m.byte p ≠ 0 then .again (promote signed (m.byte p), p + 1)
          else .leave (ret, NULL)) = x ∧ m = m' := by
  unfold strtok.token
  rw [returns_isDelim_bind hd]
  by_cases h : c ∈ d
  · simp [h, and_comm]
  · by_cases hb : m.byte p = 0#8
    · simp [h, promote_eq_zero, hb]
    · simp [h, promote_eq_zero, hb]

/-- The scan over `n` delimiters. -/
theorem returns_findTok {n : Nat} {x : Int × Nat} (hd : m.StrAt pd d)
    (hread : m.Readable p (n + 1)) (hin : ∀ i < n, m.byte (p + i) ∈ d) (hout : m.byte (p + n) ∉ d) :
    (loop (strtok.findTok signed pd) p).Returns m x m' ↔
      (promote signed (m.byte (p + n)), p + n + 1) = x ∧ m = m' := by
  have hturn : ∀ i < n, ∀ x u, (strtok.findTok signed pd (p + i)).Returns m x u ↔
      True ∧ .again (p + (i + 1)) = x ∧ m = u := by
    intro i hi x u
    rw [returns_findTok_turn hd, and_iff_right (hread i (by omega)), if_pos (hin i hi), true_and]
    rfl
  have hleave : ∀ x u, (strtok.findTok signed pd (p + n)).Returns m x u ↔
      True ∧ .leave (promote signed (m.byte (p + n)), p + n + 1) = x ∧ m = u := by
    intro x u
    rw [returns_findTok_turn hd, and_iff_right (hread n (by omega)), if_neg hout, true_and]
  have hrun := returns_turns (a := x) (t := m') (fun i => p + i) (fun _ => m) (fun _ => True) hturn
  rw [returns_leave True _ m hleave] at hrun
  simpa using hrun

/-- The scan over `n` characters that are not. -/
theorem returns_token {ret n : Nat} {x : Nat × Nat} (hd : m.StrAt pd d)
    (hread : m.Readable (p + 1) n) (hout : ∀ i < n, m.byte (p + i) ∉ d)
    (hne : ∀ i < n, m.byte (p + i + 1) ≠ 0) :
    (loop (strtok.token signed pd ret) (promote signed (m.byte p), p + 1)).Returns m x m' ↔
      (loop (strtok.token signed pd ret)
        (promote signed (m.byte (p + n)), p + n + 1)).Returns m x m' := by
  have hturn : ∀ i < n, ∀ x u, (strtok.token signed pd ret
      (promote signed (m.byte (p + i)), p + i + 1)).Returns m x u ↔
      True ∧ .again (promote signed (m.byte (p + (i + 1))), p + (i + 1) + 1) = x ∧ m = u := by
    intro i hi x u
    have hr := hread i hi
    rw [show p + 1 + i = p + i + 1 by omega] at hr
    rw [returns_token_turn hd, if_neg (hout i hi), and_iff_right hr, true_and,
      if_pos (hne i hi)]
    rfl
  have hrun := returns_turns (a := x) (t := m')
    (fun i => (promote signed (m.byte (p + i)), p + i + 1)) (fun _ => m) (fun _ => True) hturn
  simpa using hrun

/-- Whatever the second scan meets, it returns `ret`. -/
theorem ret_of_returns_token {ret : Nat} {y : Int × Nat} {x : Nat × Nat}
    (h : (loop (strtok.token signed pd ret) y).Returns m x m') : x.1 = ret := by
  refine returns_loop_inv (fun _ _ => True) (fun x _ => x.1 = ret) (fun _ _ _ _ _ _ => trivial)
    ?_ trivial h
  rintro ⟨c, p⟩ u a v - hturn
  unfold strtok.token at hturn
  obtain ⟨b, w, -, hrest⟩ := returns_bind.1 hturn
  cases b with
  | true =>
    obtain ⟨-, rfl, -⟩ : w.access (p - 1) = .var ∧ (ret, p) = a ∧ w.put (p - 1) 0 = v := by
      simpa using hrest
    rfl
  | false =>
    obtain ⟨-, -, rfl, -⟩ : w.access p ≠ .none ∧ promote signed (w.byte p) = 0 ∧
        (ret, NULL) = a ∧ w = v := by
      simpa using hrest
    rfl

/-- The first scan from `p` stops behind `n` delimiters. -/
theorem returns_strtok {n : Nat} {x : Nat × Nat} (hd : m.StrAt pd d) (hp : p ≠ 0)
    (hread : m.Readable p (n + 1)) (hin : ∀ i < n, m.byte (p + i) ∈ d) (hout : m.byte (p + n) ∉ d) :
    (strtok signed p NULL pd).Returns m x m' ↔
      (loop (strtok.token signed pd (p + n))
        (promote signed (m.byte (p + n)), p + n + 1)).Returns m x m' := by
  unfold strtok
  simp only [ne_eq, not_true_eq_false, if_false, NULL, if_neg hp]
  rw [returns_bind]
  simp only [returns_findTok hd hread hin hout]
  constructor
  · rintro ⟨_, _, ⟨rfl, rfl⟩, h⟩
    exact h
  · intro h
    exact ⟨_, _, ⟨rfl, rfl⟩, h⟩

/-! ## The cursor -/

/-- Position `x` of `s` has a character that is not in `d`. -/
def Inside (d s : List Byte) (x : Nat) : Prop := ∃ c, s[x]? = some c ∧ c ∉ d

theorem not_inside_end (x : Nat) (hx : s.length ≤ x) : ¬ Inside d s x := by
  rintro ⟨c, hc, -⟩
  rw [List.getElem?_eq_none hx] at hc
  cases hc

/-- What is there when the scan has come to position `k` of `s`. -/
structure Cursor (m : Memory) (ps : Nat) (s : List Byte) (pd : Nat) (d : List Byte) (k : Nat) :
    Prop where
  le : k ≤ s.length
  chars : ∀ c ∈ s, c ≠ 0
  rest : ∀ x, k ≤ x → (hx : x < s.length) → m.byte (ps + x) = s[x]
  nul : m.byte (ps + s.length) = 0
  writable : m.Writable ps (s.length + 1)
  delims : m.StrAt pd d
  apart : ∀ i ≤ d.length, ¬ (ps ≤ pd + i ∧ pd + i ≤ ps + s.length)

namespace Cursor

variable {i j k x : Nat}

theorem readable (h : Cursor m ps s pd d k) {n : Nat} (hn : k + n ≤ s.length + 1) :
    m.Readable (ps + k) n := by
  intro i hi
  rw [Nat.add_assoc, h.writable (k + i) (by omega)]
  simp

theorem ne_null (h : Cursor m ps s pd d k) : ps + k ≠ 0 :=
  Memory.ne_null (h.readable (n := 1) (by have := h.le; omega) 0 (by omega))

theorem byte_inside (h : Cursor m ps s pd d k) (hk : k ≤ x) (hx : Inside d s x) :
    m.byte (ps + x) ∉ d ∧ m.byte (ps + x) ≠ 0 := by
  obtain ⟨c, hc, hcd⟩ := hx
  obtain ⟨hlt, rfl⟩ := List.getElem?_eq_some_iff.1 hc
  rw [h.rest x hk hlt]
  exact ⟨hcd, h.chars _ (List.getElem_mem hlt)⟩

theorem byte_outside (h : Cursor m ps s pd d k) (hk : k ≤ x) (hlt : x < s.length)
    (hx : ¬ Inside d s x) : m.byte (ps + x) ∈ d := by
  by_contra hmem
  rw [h.rest x hk hlt] at hmem
  exact hx ⟨s[x], List.getElem?_eq_getElem hlt, hmem⟩

theorem zero_notMem (h : Cursor m ps s pd d k) : 0 ∉ d := fun hmem =>
  h.delims.holds.ne_zero 0 hmem rfl

/-- The scan stops at position `i` if it has passed only delimiters. -/
theorem returns_strtok (h : Cursor m ps s pd d k) (hki : k ≤ i) (hi : i ≤ s.length)
    (hskip : ∀ x, k ≤ x → x < i → ¬ Inside d s x) (hout : m.byte (ps + i) ∉ d) {y : Nat × Nat} :
    (strtok signed (ps + k) NULL pd).Returns m y m' ↔
      (loop (strtok.token signed pd (ps + i))
        (promote signed (m.byte (ps + i)), ps + i + 1)).Returns m y m' := by
  have hpos : ps + k + (i - k) = ps + i := by omega
  have hin : ∀ x < i - k, m.byte (ps + k + x) ∈ d := by
    intro x hx
    rw [Nat.add_assoc]
    exact h.byte_outside (by omega) (by omega) (hskip (k + x) (by omega) (by omega))
  rw [← hpos] at hout ⊢
  exact StringImpl.returns_strtok h.delims h.ne_null (h.readable (by omega)) hin hout

/-- In a token, `n` characters behind its first. -/
theorem returns_within (h : Cursor m ps s pd d k) (hf : FirstStretch (Inside d s) k i j) {n : Nat}
    (hn : i + n ≤ j) (hj : j ≤ s.length) (hne : ∀ x < n, m.byte (ps + i + x + 1) ≠ 0)
    {y : Nat × Nat} : (strtok signed (ps + k) NULL pd).Returns m y m' ↔
      (loop (strtok.token signed pd (ps + i))
        (promote signed (m.byte (ps + i + n)), ps + i + n + 1)).Returns m y m' := by
  have hki := hf.le
  have hij := hf.lt
  have hfirst : m.byte (ps + i) ∉ d := (h.byte_inside hki (hf.inside i (Nat.le_refl _) hij)).1
  have hout : ∀ x < n, m.byte (ps + i + x) ∉ d := by
    intro x hx
    rw [Nat.add_assoc]
    exact (h.byte_inside (by omega) (hf.inside _ (by omega) (by omega))).1
  have hread : m.Readable (ps + i + 1) n := by
    intro x hx
    rw [show ps + i + 1 + x = ps + (i + 1 + x) by omega, h.writable _ (by omega)]
    simp
  rw [h.returns_strtok hki (by omega) hf.skipped hfirst, returns_token h.delims hread hout hne]

/-- A call that comes to a token with a delimiter behind it. -/
theorem returns_call_delim (signed : Bool) (h : Cursor m ps s pd d k)
    (hf : FirstStretch (Inside d s) k i j) (hj : j < s.length) {y : Nat × Nat} :
    (strtok signed (ps + k) NULL pd).Returns m y m' ↔
      (ps + i, ps + j + 1) = y ∧ m.put (ps + j) 0 = m' := by
  have hki := hf.le
  have hij := hf.lt
  have hmem : m.byte (ps + j) ∈ d := h.byte_outside (by omega) hj hf.right
  have hne : ∀ x < j - i, m.byte (ps + i + x + 1) ≠ 0 := by
    intro x hx
    rw [show ps + i + x + 1 = ps + (i + x + 1) by omega]
    rcases Nat.lt_or_eq_of_le (show i + x + 1 ≤ j by omega) with hlt | heq
    · exact (h.byte_inside (by omega) (hf.inside _ (by omega) hlt)).2
    · rw [heq]
      intro hzero
      rw [hzero] at hmem
      exact h.zero_notMem hmem
  rw [h.returns_within hf (by omega) (by omega) hne, show ps + i + (j - i) = ps + j by omega,
    returns_leave (m.access (ps + j) = .var) (ps + i, ps + j + 1) (m.put (ps + j) 0)]
  · exact and_iff_right (h.writable j (by omega))
  · intro x u
    rw [returns_token_turn h.delims, if_pos hmem]
    rfl

/-- A call that comes to a token with the end of the string behind it. -/
theorem returns_call_end (signed : Bool) (h : Cursor m ps s pd d k)
    (hf : FirstStretch (Inside d s) k i s.length) {y : Nat × Nat} :
    (strtok signed (ps + k) NULL pd).Returns m y m' ↔ (ps + i, NULL) = y ∧ m = m' := by
  have hki := hf.le
  have hlt := hf.lt
  have hpos : ps + i + (s.length - 1 - i) = ps + (s.length - 1) := by omega
  have hend : ps + (s.length - 1) + 1 = ps + s.length := by omega
  have hne : ∀ x < s.length - 1 - i, m.byte (ps + i + x + 1) ≠ 0 := by
    intro x hx
    rw [show ps + i + x + 1 = ps + (i + x + 1) by omega]
    exact (h.byte_inside (by omega) (hf.inside _ (by omega) (by omega))).2
  have hlast : m.byte (ps + (s.length - 1)) ∉ d :=
    (h.byte_inside (by omega) (hf.inside _ (by omega) (by omega))).1
  rw [h.returns_within hf (by omega) (Nat.le_refl _) hne, hpos, hend,
    returns_leave True (ps + i, NULL) m, true_and]
  intro x u
  rw [returns_token_turn h.delims, if_neg hlast, h.nul, h.writable s.length (by omega)]
  simp

/-- A call that comes to none takes the terminator for one. -/
theorem call_without_token (h : Cursor m ps s pd d k) (hno : ∀ x, k ≤ x → ¬ Inside d s x)
    {r t : Nat} (hret : (strtok signed (ps + k) NULL pd).Returns m (r, t) m') :
    r = ps + s.length := by
  have hout : m.byte (ps + s.length) ∉ d := by
    rw [h.nul]
    exact h.zero_notMem
  exact ret_of_returns_token
    ((h.returns_strtok h.le (Nat.le_refl _) (fun x hx _ => hno x hx) hout).1 hret)

/-- The cursor after a call. -/
theorem next (h : Cursor m ps s pd d k) (hkj : k ≤ j) (hj : j < s.length) :
    Cursor (m.put (ps + j) 0) ps s pd d (j + 1) where
  le := hj
  chars := h.chars
  rest x hjx hx := by
    rw [byte_put_ne _ _ (by omega)]
    exact h.rest x (by omega) hx
  nul := by
    rw [byte_put_ne _ _ (by omega)]
    exact h.nul
  writable := h.writable
  delims := by
    have hout : ∀ i ≤ d.length, pd + i < ps + j ∨ ps + j + [(0 : Byte)].length ≤ pd + i := by
      intro i hi
      have := h.apart i hi
      rw [List.length_singleton]
      omega
    exact h.delims.write hout
  apart := h.apart

end Cursor

/-! ## One call after the other -/

/-- What call `n` returns, counted from 0, after `strtok(str, delim)` and then
    `strtok(NULL, delim)` every time. -/
def NthCall (signed : Bool) (delim : Nat) : Nat → Nat → Nat → Memory → Nat → Memory → Prop
  | 0, tok, str, m, ret, m' => ∃ tok', (strtok signed tok str delim).Returns m (ret, tok') m'
  | n + 1, tok, str, m, ret, m' => ∃ r tok' u,
    (strtok signed tok str delim).Returns m (r, tok') u ∧ NthCall signed delim n tok' NULL u ret m'

/-- A call gives the token from `i` up to `j` of the string at `ps`, or none. -/
def Gives (ps : Nat) (s : List Byte) : Option (Nat × Nat) → Nat → Memory → Prop
  | some (i, j), ret, m => ret = ps + i ∧ m.StrAt ret ((s.take j).drop i)
  | none, ret, _ => ret = NULL

variable {n r r' tok str : Nat}

theorem NthCall.unique (h : NthCall signed pd n tok str m r m') {u : Memory}
    (h' : NthCall signed pd n tok str m r' u) : r = r' ∧ m' = u := by
  induction n generalizing tok str m with
  | zero =>
    obtain ⟨t, h⟩ := h
    obtain ⟨t', h'⟩ := h'
    obtain ⟨heq, rfl⟩ := h.unique h'
    exact ⟨(Prod.mk.inj heq).1, rfl⟩
  | succ n ih =>
    obtain ⟨_, t, v, hcall, h⟩ := h
    obtain ⟨_, t', v', hcall', h'⟩ := h'
    obtain ⟨heq, rfl⟩ := hcall.unique hcall'
    obtain ⟨-, rfl⟩ := Prod.mk.inj heq
    exact ih h h'

/-- What the first call finds in `tok` is not used. -/
theorem strtok_str (hstr : str ≠ NULL) (tok : Nat) :
    strtok signed tok str pd = strtok signed str NULL pd := by
  unfold strtok
  simp [hstr]

theorem nthCall_str (hstr : str ≠ NULL) :
    NthCall signed pd n tok str m r m' ↔ NthCall signed pd n str NULL m r m' := by
  cases n with
  | zero => simp only [NthCall, strtok_str hstr]
  | succ n => simp only [NthCall, strtok_str hstr]

/-- Without a `tok` every call returns NULL. -/
theorem nthCall_null : NthCall signed pd n NULL NULL m NULL m := by
  have hcall : (strtok signed NULL NULL pd).Returns m (NULL, NULL) m := ⟨0, rfl⟩
  induction n with
  | zero => exact ⟨_, hcall⟩
  | succ n ih => exact ⟨_, _, _, hcall, ih⟩

/-- Calls after the first. -/
theorem exists_nthCall_cons {u : Memory} {t : Nat} {a : Nat × Nat} {l : List (Nat × Nat)}
    (hcall : (strtok signed p NULL pd).Returns m (r, t) u) (hgive : Gives ps s (some a) r u)
    (hl : ∀ n, ∃ ret m', NthCall signed pd n t NULL u ret m' ∧ Gives ps s l[n]? ret m') (n : Nat) :
    ∃ ret m', NthCall signed pd n p NULL m ret m' ∧ Gives ps s (a :: l)[n]? ret m' := by
  cases n with
  | zero => exact ⟨r, u, ⟨t, hcall⟩, hgive⟩
  | succ n =>
    obtain ⟨ret, m', hn, hgives⟩ := hl n
    exact ⟨ret, m', ⟨r, t, u, hcall, hn⟩, by simpa using hgives⟩

namespace Cursor

variable {i j k : Nat}

/-- The token a call returns ends in NUL. -/
theorem strAt_token (h : Cursor m ps s pd d k) (hf : FirstStretch (Inside d s) k i j)
    (hj : j ≤ s.length) {u : Memory} (hacc : u.access = m.access)
    (hbyte : ∀ x < j, u.byte (ps + x) = m.byte (ps + x)) (hnul : u.byte (ps + j) = 0) :
    u.StrAt (ps + i) ((s.take j).drop i) where
  holds := by
    have hki := hf.le
    have hij := hf.lt
    rw [Holds.iff_forall]
    refine ⟨?_, ?_, ?_⟩
    · intro c hc
      exact h.chars c (List.mem_of_mem_take (List.mem_of_mem_drop hc))
    · intro x hx
      simp only [List.length_drop, List.length_take] at hx
      rw [Nat.add_assoc, hbyte _ (by omega), h.rest _ (by omega) (by omega)]
      simp
    · have hlen : ((s.take j).drop i).length = j - i := by simp; omega
      rw [hlen, show ps + i + (j - i) = ps + j by omega, hnul]
  readable := by
    intro x hx
    have hij := hf.lt
    simp only [List.length_drop, List.length_take] at hx
    rw [hacc, Nat.add_assoc, h.writable _ (by omega)]
    simp

/-- **The calls from a cursor on** give the rest of the tokens if the string does not end in a
    delimiter. -/
theorem splits (h : Cursor m ps s pd d k) (hk : ∀ x, x + 1 = k → ¬ Inside d s x)
    (hlt : k < s.length) (hlast : Inside d s (s.length - 1)) :
    ∃ l, StretchesFrom (Inside d s) k l ∧ ∀ n, ∃ ret m',
      NthCall signed pd n (ps + k) NULL m ret m' ∧ Gives ps s l[n]? ret m' := by
  induction hn : s.length - k using Nat.strong_induction_on generalizing k m with | _ N ih
  have hex : ∃ x, k ≤ x ∧ Inside d s x := ⟨s.length - 1, by omega, hlast⟩
  obtain ⟨i, j, hf⟩ := exists_firstStretch hex not_inside_end
  have hki := hf.le
  have hij := hf.lt
  rcases Nat.lt_or_eq_of_le (hf.le_of_end not_inside_end) with hj | rfl
  · -- the last character is another one, in the rest of the string
    have hne : j ≠ s.length - 1 := by
      rintro rfl
      exact hf.right hlast
    have hcall := (h.returns_call_delim signed hf hj).2 ⟨rfl, rfl⟩
    have hout : ∀ x, x + 1 = j + 1 → ¬ Inside d s x := by
      intro x hx
      obtain rfl : x = j := by omega
      exact hf.right
    obtain ⟨l, hl, hcalls⟩ :=
      ih _ (by omega) (h.next (by omega) hj) hout (by omega) rfl
    refine ⟨(i, j) :: l, hl.cons hf hk, exists_nthCall_cons hcall ⟨rfl, ?_⟩ hcalls⟩
    refine h.strAt_token hf (by omega) rfl ?_ (byte_put _ _ _)
    intro x hx
    exact byte_put_ne _ _ (by omega)
  · have hcall := (h.returns_call_end signed hf).2 ⟨rfl, rfl⟩
    have hnil : StretchesFrom (Inside d s) (s.length + 1) [] :=
      StretchesFrom.nil fun x hx => not_inside_end x (by omega)
    refine ⟨[(i, s.length)], hnil.cons hf hk, exists_nthCall_cons hcall ⟨rfl, ?_⟩ ?_⟩
    · exact h.strAt_token hf (Nat.le_refl _) rfl (fun _ _ => rfl) h.nul
    · intro n
      exact ⟨NULL, m, nthCall_null, by simp [Gives]⟩

/-- If it does, or is empty, one of them gives the terminator. -/
theorem exists_call_end (signed : Bool) (h : Cursor m ps s pd d k)
    (hlast : ¬ Inside d s (s.length - 1)) :
    ∃ n, ∀ r m', NthCall signed pd n (ps + k) NULL m r m' → r = ps + s.length := by
  induction hn : s.length - k using Nat.strong_induction_on generalizing k m with | _ N ih
  by_cases hex : ∃ x, k ≤ x ∧ Inside d s x
  · obtain ⟨i, j, hf⟩ := exists_firstStretch hex not_inside_end
    have hki := hf.le
    have hij := hf.lt
    have hle := hf.le_of_end not_inside_end
    have hj : j < s.length := by
      by_contra hge
      exact hlast (hf.inside _ (by omega) (by omega))
    obtain ⟨n, hn⟩ := ih _ (by omega) (h.next (by omega) hj) rfl
    refine ⟨n + 1, ?_⟩
    rintro r m' ⟨_, t, u, hcall, hrest⟩
    obtain ⟨heq, rfl⟩ := (h.returns_call_delim signed hf hj).1 hcall
    obtain ⟨-, rfl⟩ := Prod.mk.inj heq
    exact hn r m' hrest
  · refine ⟨0, ?_⟩
    rintro r m' ⟨t, hcall⟩
    refine h.call_without_token ?_ hcall
    intro x hx hin
    exact hex ⟨x, hx, hin⟩

end Cursor

/-- **When `strtok` splits a string.**  The calls may read the string and the delimiters and write
    the string, and nothing else; a call that oversteps this does not return. -/
theorem strtok_splits_iff (signed : Bool) (m : Memory) (tok ps pd : Nat) (s d : List Byte)
    (hs : Holds m.byte ps s) (hd : Holds m.byte pd d)
    (hwrite : ∀ x, m.access x = .var ↔ ps ≤ x ∧ x ≤ ps + s.length)
    (hread : ∀ x, m.access x ≠ .none ↔
      (ps ≤ x ∧ x ≤ ps + s.length) ∨ (pd ≤ x ∧ x ≤ pd + d.length))
    (hapart : ∀ i ≤ d.length, ¬ (ps ≤ pd + i ∧ pd + i ≤ ps + s.length)) :
    (∃ l, StretchesFrom (Inside d s) 0 l ∧ ∀ n, ∃ ret m',
      NthCall signed pd n tok ps m ret m' ∧ Gives ps s l[n]? ret m') ↔
      ∃ c, s.getLast? = some c ∧ c ∉ d := by
  have hcursor : Cursor m ps s pd d 0 :=
    { le := Nat.zero_le _
      chars := hs.ne_zero
      rest := fun x _ hx => hs.getElem hx
      nul := hs.nul
      writable := fun i hi => (hwrite _).2 ⟨by omega, by omega⟩
      delims := ⟨hd, fun i hi => (hread _).2 (Or.inr ⟨by omega, by omega⟩)⟩
      apart := hapart }
  have hps : ps ≠ NULL := hcursor.ne_null
  have hlast : (∃ c, s.getLast? = some c ∧ c ∉ d) ↔ Inside d s (s.length - 1) := by
    rw [List.getLast?_eq_getElem?]
    rfl
  rw [hlast]
  simp only [nthCall_str hps]
  constructor
  · rintro ⟨l, hl, hcalls⟩
    by_contra hout
    obtain ⟨n, hn⟩ := hcursor.exists_call_end signed hout
    obtain ⟨ret, m', hcall, hgives⟩ := hcalls n
    have hret : ret = ps + s.length := hn ret m' hcall
    cases hln : l[n]? with
    | none =>
      rw [hln] at hgives
      have hnull : ret = NULL := hgives
      rw [NULL] at hnull hps
      omega
    | some a =>
      rw [hln] at hgives
      obtain ⟨i, j⟩ := a
      obtain ⟨-, hst⟩ := (hl.mem_iff i j).1 (List.mem_of_getElem? hln)
      have hi : ret = ps + i := hgives.1
      exact not_inside_end i (by omega) (hst.inside i (Nat.le_refl _) hst.lt)
  · intro hin
    have hpos : 0 < s.length := by
      by_contra hzero
      exact not_inside_end _ (by omega) hin
    exact hcursor.splits (fun x hx => by omega) hpos hin

/-- "a,b" at 16, the delimiter "," at 32. -/
def list : Memory := (empty.place 16 [97, 44, 98, 0] .var).place 32 [44, 0] .const

/-- It is split. -/
theorem strtok_list_splits : ∃ l, StretchesFrom (Inside [44] [97, 44, 98]) 0 l ∧ ∀ n, ∃ ret m',
    NthCall true 32 n 0 16 list ret m' ∧ Gives 16 [97, 44, 98] l[n]? ret m' := by
  have hwrite : ∀ x, list.access x = .var ↔ 16 ≤ x ∧ x ≤ 16 + 3 := by
    intro x
    simp (disch := decide) only [list, access_place, access_empty, List.length_cons,
      List.length_nil, reduceCtorEq, and_false, and_true, or_false, false_or]
    omega
  have hread : ∀ x, list.access x ≠ .none ↔ (16 ≤ x ∧ x ≤ 16 + 3) ∨ (32 ≤ x ∧ x ≤ 32 + 1) := by
    intro x
    simp (disch := decide) only [list, ne_eq, access_place, access_empty, List.length_cons,
      List.length_nil, reduceCtorEq, and_false, and_true, false_or]
    omega
  exact (strtok_splits_iff true list 0 16 32 [97, 44, 98] [44] (by decide) (by decide) hwrite
    hread (by decide)).2 ⟨98, by decide⟩

/-- "a," at 16 with other bytes behind it. -/
def trailing : Memory := (empty.place 16 [97, 44, 0, 120, 0] .var).place 32 [44, 0] .const

/-- The second call returns a pointer to the terminator, though there is no second token. -/
theorem strtok_trailing : ¬ ∃ l, StretchesFrom (Inside [44] [97, 44]) 0 l ∧ ∀ n, ∃ ret m',
    NthCall true 32 n 0 16 trailing ret m' ∧ Gives 16 [97, 44] l[n]? ret m' := by
  rintro ⟨l, hl, hcalls⟩
  obtain ⟨ret, m', hcall, hgives⟩ := hcalls 1
  have hfirst : (strtok true 0 16 32).Returns trailing (16, 18) (trailing.put 17 0) := ⟨5, rfl⟩
  have hsecond : (strtok true 18 0 32).Returns (trailing.put 17 0) (18, 0)
      (trailing.put 17 0) := ⟨5, rfl⟩
  obtain ⟨rfl, -⟩ := hcall.unique (⟨_, _, _, hfirst, _, hsecond⟩ : NthCall true 32 1 0 16 trailing
    18 (trailing.put 17 0))
  cases hl1 : l[1]? with
  | none =>
    rw [hl1] at hgives
    have hnull : 18 = NULL := hgives
    cases hnull
  | some a =>
    obtain ⟨i, j⟩ := a
    rw [hl1] at hgives
    have hi : 18 = 16 + i := hgives.1
    obtain ⟨-, hst⟩ := (hl.mem_iff i j).1 (List.mem_of_getElem? hl1)
    refine not_inside_end i ?_ (hst.inside i (Nat.le_refl _) hst.lt)
    rw [List.length_cons, List.length_singleton]
    omega

end Timix.StringImpl
