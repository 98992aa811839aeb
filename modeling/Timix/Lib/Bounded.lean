import Mathlib.Data.List.Basic

/-!
# Tables that refine a bounded list

`add s a` is the answer of a table `s` to one addition and the table left behind, or `none` if
it leaves its array.  `Rep s l` says that the table holds the list `l`.

* `Tracks n s l as` — along the additions `as` the table is a list with room for `n` elements:
  an element is put at the end, or the list is full and the table stays as it is.
* `Capacity k` — what one addition does, and `Capacity.tracks`: so does every run of additions.
* `Capacity.accepts` — what an addition leaves whose answer is ignored.
* `Capacity.tracks_iff` — a table of capacity `k` passes for one of capacity `n > k` exactly on
  the runs that fit in `k`.
-/

set_option autoImplicit false

namespace Bounded

variable {σ α ρ : Type} (add : σ → α → Option (ρ × σ)) (Rep : σ → List α → Prop) (done full : ρ)

/-- `l` is what was accepted so far.  Each element of `as` is accepted and put behind it, or
answered `full` with the table as it was: the second if and only if `l` has `n` elements. -/
def Tracks (n : Nat) (s : σ) (l : List α) : List α → Prop
  | [] => Rep s l
  | a :: as => Rep s l ∧
    ((l.length = n ∧ add s a = some (full, s) ∧ Tracks n s l as) ∨
      ∃ s', l.length ≠ n ∧ add s a = some (done, s') ∧ Tracks n s' (l ++ [a]) as)

/-- One addition to a table that holds at most `k` elements. -/
def Capacity (k : Nat) : Prop :=
  ∀ s l a, Rep s l → l.length ≤ k →
    (l.length = k ∧ add s a = some (full, s)) ∨
      ∃ s', l.length < k ∧ add s a = some (done, s') ∧ Rep s' (l ++ [a])

/-- The list after an addition to a table of capacity `k`. -/
def accept (k : Nat) (l : List α) (a : α) : List α := if l.length < k then l ++ [a] else l

variable {add Rep done full} {k : Nat}

theorem accept_length_le {l : List α} (hl : l.length ≤ k) (a : α) :
    (accept k l a).length ≤ k := by
  unfold accept
  split
  · rename_i hroom
    rw [List.length_append, List.length_singleton]
    exact hroom
  · exact hl

theorem Capacity.accepts (hc : Capacity add Rep done full k) {s : σ} {l : List α} (hr : Rep s l)
    (hl : l.length ≤ k) (a : α) : ∃ r s', add s a = some (r, s') ∧ Rep s' (accept k l a) := by
  unfold accept
  rcases hc s l a hr hl with ⟨hfull, ha⟩ | ⟨s', hroom, ha, hr'⟩
  · rw [if_neg (Nat.not_lt_of_le (Nat.le_of_eq hfull.symm))]
    exact ⟨full, s, ha, hr⟩
  · rw [if_pos hroom]
    exact ⟨done, s', ha, hr'⟩

/-- By induction on the additions: the length never passes `k`. -/
theorem Capacity.tracks (hc : Capacity add Rep done full k) (as : List α) :
    ∀ {s : σ} {l : List α}, Rep s l → l.length ≤ k → Tracks add Rep done full k s l as := by
  induction as with
  | nil => intro s l hr _; exact hr
  | cons a as ih =>
    intro s l hr hl
    refine ⟨hr, ?_⟩
    rcases hc s l a hr hl with ⟨hk, ha⟩ | ⟨s', hk, ha, hr'⟩
    · exact .inl ⟨hk, ha, ih hr hl⟩
    · refine .inr ⟨s', Nat.ne_of_lt hk, ha, ih hr' ?_⟩
      rw [List.length_append, List.length_singleton]
      exact hk

/-- As long as there is room the capacity does not show. -/
theorem Capacity.tracks_of_fits (hc : Capacity add Rep done full k) {n : Nat} (hn : k ≤ n)
    (as : List α) : ∀ {s : σ} {l : List α}, Rep s l → l.length + as.length ≤ k →
      Tracks add Rep done full n s l as := by
  induction as with
  | nil => intro s l hr _; exact hr
  | cons a as ih =>
    intro s l hr hl
    rw [List.length_cons] at hl
    refine ⟨hr, ?_⟩
    rcases hc s l a hr (by omega) with ⟨hk, _⟩ | ⟨s', hk, ha, hr'⟩
    · omega
    · refine .inr ⟨s', by omega, ha, ih hr' ?_⟩
      rw [List.length_append, List.length_singleton]
      omega

/-- The addition that finds `k` elements is refused, where a list of capacity `n` has room. -/
theorem Capacity.fits_of_tracks (hc : Capacity add Rep done full k) (hne : full ≠ done) {n : Nat}
    (hn : k < n) (as : List α) : ∀ {s : σ} {l : List α}, l.length ≤ k →
      Tracks add Rep done full n s l as → l.length + as.length ≤ k := by
  induction as with
  | nil => intro s l hl _; exact hl
  | cons a as ih =>
    intro s l hl ht
    rw [List.length_cons]
    obtain ⟨hr, ⟨hln, _, _⟩ | ⟨s', _, ha, ht'⟩⟩ := ht
    · omega
    · rcases hc s l a hr hl with ⟨_, ha'⟩ | ⟨_, hk, _, _⟩
      · rw [ha', Option.some.injEq, Prod.mk.injEq] at ha
        exact absurd ha.1 hne
      · have hfit := ih (l := l ++ [a]) (by rw [List.length_append]; exact hk) ht'
        rw [List.length_append, List.length_singleton] at hfit
        omega

theorem Capacity.tracks_iff (hc : Capacity add Rep done full k) (hne : full ≠ done) {n : Nat}
    (hn : k < n) {s : σ} {l : List α} (hr : Rep s l) (hl : l.length ≤ k) (as : List α) :
    Tracks add Rep done full n s l as ↔ l.length + as.length ≤ k :=
  ⟨hc.fits_of_tracks hne hn as hl, hc.tracks_of_fits (Nat.le_of_lt hn) as hr⟩

end Bounded
