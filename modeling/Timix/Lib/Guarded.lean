import Mathlib.Logic.Function.Basic
import Timix.Lib.Prog

/-!
# Objects whose programs run one at a time

Each object `k` has a value `val k`.  Threads run programs on the objects, one access at a time,
never two on one object; `pend t = some (k, p)` says that thread `t` still has to run `p` on
object `k`, and `hist k` lists the programs begun on `k`, oldest first.  `Guarded` says that the
values are what the programs begun give when they are played whole, in that order (`replay`):

* `Guarded.enter`, `Guarded.access`, `Guarded.leave` — the three steps of a thread;
* `Guarded.quiet` — the value of an object with no program under way;
* `Guarded.next` — the next access of one that is.

`Deferred` keeps the results as well: `abs k` is the value of object `k` in which a program under
way takes effect only when it is through, and then all at once (`Deferred.leave`).
-/

set_option autoImplicit false

universe u v w x

namespace Prog

variable {σ : Type u} {α : Type v} {K : Type w} {T : Type x}

/-- Play programs one after the other. -/
def replay : List (Prog σ α) → σ → Option σ
  | [], s => some s
  | p :: ps, s =>
    match p.run s with
    | none => none
    | some (_, t) => replay ps t

theorem replay_concat (ps : List (Prog σ α)) (p : Prog σ α) {s t : σ} (h : replay ps s = some t) :
    replay (ps ++ [p]) s = (p.run t).map Prod.snd := by
  induction ps generalizing s with
  | nil =>
    obtain rfl : s = t := Option.some.inj h
    rw [List.nil_append, replay]
    cases p.run s <;> rfl
  | cons q ps ih =>
    rw [replay] at h
    rw [List.cons_append, replay]
    cases hq : q.run s with
    | none =>
      rw [hq] at h
      cases h
    | some r =>
      rw [hq] at h
      exact ih h

/-- Programs that keep `I` can be played one after the other. -/
theorem replay_ensures {I : σ → Prop} : ∀ {ps : List (Prog σ α)} {s : σ},
    (∀ p ∈ ps, ∀ s, I s → Ensures (fun _ => I) p s) → I s → ∃ t, replay ps s = some t ∧ I t
  | [], s, _, hs => ⟨s, rfl, hs⟩
  | p :: ps, s, h, hs => by
    obtain ⟨a, t, hrun, ht⟩ := (h p List.mem_cons_self s hs).run
    rw [replay, hrun]
    exact replay_ensures (fun q hq => h q (List.mem_cons_of_mem p hq)) ht

/-- The programs played whole account for every object, up to what is left of the one under way
    on it. -/
structure Guarded (init val : K → σ) (hist : K → List (Prog σ α))
    (pend : T → Option (K × Prog σ α)) : Prop where
  alone : ∀ t u k p q, pend t = some (k, p) → pend u = some (k, q) → t = u
  busy : ∀ t k p, pend t = some (k, p) →
    replay (hist k) (init k) = (p.run (val k)).map Prod.snd
  quiet : ∀ k, (∀ t p, pend t ≠ some (k, p)) → replay (hist k) (init k) = some (val k)

variable {init val : K → σ} {hist : K → List (Prog σ α)}
  {pend : T → Option (K × Prog σ α)} {t : T} {k : K} {p q : Prog σ α}

/-- Nothing has begun. -/
theorem guarded_init (val : K → σ) :
    Guarded val val (fun _ => ([] : List (Prog σ α))) fun _ : T => none where
  alone _ _ _ _ _ h := by cases h
  busy _ _ _ h := by cases h
  quiet _ _ := rfl

/-- If the programs begun keep `I`, the next access of one under way is allowed. -/
theorem Guarded.next (h : Guarded init val hist pend) {I : σ → Prop} (hinit : I (init k))
    (hkeep : ∀ r ∈ hist k, ∀ s, I s → Ensures (fun _ => I) r s) (hp : pend t = some (k, p)) :
    (∃ a, p = .ret a) ∨ ∃ q v, p.step (val k) = some (q, v) := by
  obtain ⟨v, hv, _⟩ := replay_ensures hkeep hinit
  have hrun := (h.busy t k p hp).symm.trans hv
  cases p with
  | ret a => exact Or.inl ⟨a, rfl⟩
  | get f => exact Or.inr ⟨_, _, rfl⟩
  | set f q =>
    right
    rw [run] at hrun
    cases hf : f (val k) with
    | none =>
      rw [hf] at hrun
      cases hrun
    | some u => exact ⟨q, u, by rw [step, hf]; rfl⟩

variable [DecidableEq T]

/-- Who is under way after thread `t` moved to `x`. -/
theorem pend_update {x : Option (K × Prog σ α)} {u : T} {l : K} {r : Prog σ α}
    (h : Function.update pend t x u = some (l, r)) :
    u = t ∧ x = some (l, r) ∨ u ≠ t ∧ pend u = some (l, r) := by
  by_cases hu : u = t
  · subst hu
    rw [Function.update_self] at h
    exact Or.inl ⟨rfl, h⟩
  · rw [Function.update_of_ne hu] at h
    exact Or.inr ⟨hu, h⟩

/-- A step of `t` in its program on `k` frees no other object. -/
theorem unpended_of_update {x : Option (K × Prog σ α)} {l : K} (hp : pend t = some (k, p))
    (hk : l ≠ k) (hl : ∀ u r, Function.update pend t x u ≠ some (l, r)) (u : T) (r : Prog σ α) :
    pend u ≠ some (l, r) := by
  intro hu
  have hut : u ≠ t := by
    rintro rfl
    rw [hp] at hu
    cases hu
    exact hk rfl
  exact hl u r (by rwa [Function.update_of_ne hut])

/-- A thread is through with its program. -/
theorem Guarded.leave (h : Guarded init val hist pend) {a : α} (hp : pend t = some (k, .ret a)) :
    Guarded init val hist (Function.update pend t none) where
  alone u w l r r' hu hw := by
    rcases pend_update hu with ⟨_, hx⟩ | ⟨_, hu⟩
    · cases hx
    rcases pend_update hw with ⟨_, hy⟩ | ⟨_, hw⟩
    · cases hy
    exact h.alone u w l r r' hu hw
  busy u l r hu := by
    rcases pend_update hu with ⟨_, hx⟩ | ⟨_, hu⟩
    · cases hx
    exact h.busy u l r hu
  quiet l hl := by
    by_cases hk : l = k
    · subst hk
      rw [h.busy t l _ hp]
      rfl
    · exact h.quiet l (unpended_of_update hp hk hl)

variable [DecidableEq K]

/-- A thread begins a program on an object with none under way. -/
theorem Guarded.enter (h : Guarded init val hist pend) (hidle : pend t = none)
    (hfree : ∀ u r, pend u ≠ some (k, r)) (p : Prog σ α) :
    Guarded init val (Function.update hist k (hist k ++ [p]))
      (Function.update pend t (some (k, p))) where
  alone u v l r r' hu hv := by
    rcases pend_update hu with ⟨rfl, hx⟩ | ⟨_, hu'⟩ <;>
      rcases pend_update hv with ⟨rfl, hy⟩ | ⟨_, hv'⟩
    · rfl
    · cases hx
      exact absurd hv' (hfree v r')
    · cases hy
      exact absurd hu' (hfree u r)
    · exact h.alone u v l r r' hu' hv'
  busy u l r hu := by
    rcases pend_update hu with ⟨rfl, hx⟩ | ⟨_, hu'⟩
    · cases hx
      rw [Function.update_self]
      exact replay_concat _ p (h.quiet k hfree)
    · have hl : l ≠ k := by
        rintro rfl
        exact hfree u r hu'
      rw [Function.update_of_ne hl]
      exact h.busy u l r hu'
  quiet l hl := by
    have hk : l ≠ k := by
      rintro rfl
      exact hl t p (Function.update_self ..)
    rw [Function.update_of_ne hk]
    apply h.quiet l
    intro u r hu
    have hut : u ≠ t := by
      rintro rfl
      rw [hidle] at hu
      cases hu
    exact hl u r (by rwa [Function.update_of_ne hut])

/-- A thread makes one access. -/
theorem Guarded.access (h : Guarded init val hist pend) (hp : pend t = some (k, p)) {v : σ}
    (hstep : p.step (val k) = some (q, v)) :
    Guarded init (Function.update val k v) hist (Function.update pend t (some (k, q))) where
  alone u w l r r' hu hw := by
    rcases pend_update hu with ⟨rfl, hx⟩ | ⟨_, hu'⟩ <;>
      rcases pend_update hw with ⟨rfl, hy⟩ | ⟨_, hw'⟩
    · rfl
    · cases hx
      exact h.alone u w k p r' hp hw'
    · cases hy
      exact h.alone u w k r p hu' hp
    · exact h.alone u w l r r' hu' hw'
  busy u l r hu := by
    rcases pend_update hu with ⟨rfl, hx⟩ | ⟨hut, hu'⟩
    · cases hx
      rw [Function.update_self, ← run_step hstep]
      exact h.busy u k p hp
    · have hl : l ≠ k := by
        rintro rfl
        exact hut (h.alone u t l r p hu' hp)
      rw [Function.update_of_ne hl]
      exact h.busy u l r hu'
  quiet l hl := by
    have hk : l ≠ k := by
      rintro rfl
      exact hl t q (Function.update_self ..)
    rw [Function.update_of_ne hk]
    exact h.quiet l (unpended_of_update hp hk hl)

/-! ## Effects at the end -/

/-- `pend t = some (k, p₀, p)`: of its program `p₀` on object `k` thread `t` has still to run
    `p`. -/
structure Deferred (abs val : K → σ) (pend : T → Option (K × Prog σ α × Prog σ α)) : Prop where
  alone : ∀ t u k x y, pend t = some (k, x) → pend u = some (k, y) → t = u
  busy : ∀ t k p₀ p, pend t = some (k, p₀, p) → p₀.run (abs k) = p.run (val k)
  quiet : ∀ k, (∀ t x, pend t ≠ some (k, x)) → abs k = val k

section Deferred

variable {abs : K → σ} {pend : T → Option (K × Prog σ α × Prog σ α)} {p₀ : Prog σ α}

omit [DecidableEq K] in
theorem eq_some_of_update {β : Type*} {f : T → Option β} {x : Option β} {u : T} {b : β}
    (h : Function.update f t x u = some b) : u = t ∧ x = some b ∨ u ≠ t ∧ f u = some b := by
  by_cases hu : u = t
  · subst hu
    exact Or.inl ⟨rfl, by rwa [Function.update_self] at h⟩
  · exact Or.inr ⟨hu, by rwa [Function.update_of_ne hu] at h⟩

omit [DecidableEq T] [DecidableEq K] in
theorem deferred_init (val : K → σ) :
    Deferred val val fun _ : T => (none : Option (K × Prog σ α × Prog σ α)) where
  alone _ _ _ _ _ h := by cases h
  busy _ _ _ _ h := by cases h
  quiet _ _ := rfl

omit [DecidableEq K] in
/-- A thread begins a program on an object with none under way. -/
theorem Deferred.enter (h : Deferred abs val pend) (hfree : ∀ u x, pend u ≠ some (k, x))
    (hidle : pend t = none) (p : Prog σ α) :
    Deferred abs val (Function.update pend t (some (k, p, p))) where
  alone u v l x y hu hv := by
    rcases eq_some_of_update hu with ⟨rfl, hx⟩ | ⟨_, hu'⟩ <;>
      rcases eq_some_of_update hv with ⟨rfl, hy⟩ | ⟨_, hv'⟩
    · rfl
    · cases hx
      exact absurd hv' (hfree v y)
    · cases hy
      exact absurd hu' (hfree u x)
    · exact h.alone u v l x y hu' hv'
  busy u l q₀ q hu := by
    rcases eq_some_of_update hu with ⟨rfl, hx⟩ | ⟨_, hu⟩
    · cases hx
      rw [h.quiet k hfree]
    · exact h.busy u l q₀ q hu
  quiet l hl := by
    apply h.quiet l
    intro u x hu
    have hut : u ≠ t := by
      rintro rfl
      rw [hidle] at hu
      cases hu
    exact hl u x (by rwa [Function.update_of_ne hut])

/-- A thread makes one access. -/
theorem Deferred.access (h : Deferred abs val pend) (hp : pend t = some (k, p₀, p)) {v : σ}
    (hstep : p.step (val k) = some (q, v)) :
    Deferred abs (Function.update val k v) (Function.update pend t (some (k, p₀, q))) where
  alone u w l x y hu hw := by
    rcases eq_some_of_update hu with ⟨rfl, hx⟩ | ⟨_, hu'⟩ <;>
      rcases eq_some_of_update hw with ⟨rfl, hy⟩ | ⟨_, hw'⟩
    · rfl
    · cases hx
      exact h.alone u w k _ y hp hw'
    · cases hy
      exact h.alone u w k x _ hu' hp
    · exact h.alone u w l x y hu' hw'
  busy u l r₀ r hu := by
    rcases eq_some_of_update hu with ⟨rfl, hx⟩ | ⟨hut, hu'⟩
    · cases hx
      rw [Function.update_self, ← run_step hstep]
      exact h.busy u k p₀ p hp
    · have hl : l ≠ k := by
        rintro rfl
        exact hut (h.alone u t l _ _ hu' hp)
      rw [Function.update_of_ne hl]
      exact h.busy u l r₀ r hu'
  quiet l hl := by
    have hk : l ≠ k := by
      rintro rfl
      exact hl t _ (Function.update_self ..)
    rw [Function.update_of_ne hk]
    apply h.quiet l
    intro u x hu
    have hut : u ≠ t := by
      rintro rfl
      rw [hp] at hu
      cases hu
      exact hk rfl
    exact hl u x (by rwa [Function.update_of_ne hut])

/-- **A thread is through with its program**, which takes effect now. -/
theorem Deferred.leave (h : Deferred abs val pend) {a : α} (hp : pend t = some (k, p₀, .ret a)) :
    p₀.run (abs k) = some (a, val k) ∧
      Deferred (Function.update abs k (val k)) val (Function.update pend t none) := by
  refine ⟨h.busy t k p₀ _ hp, ⟨?_, ?_, ?_⟩⟩
  · intro u w l x y hu hw
    rcases eq_some_of_update hu with ⟨_, hx⟩ | ⟨_, hu⟩
    · cases hx
    rcases eq_some_of_update hw with ⟨_, hy⟩ | ⟨_, hw⟩
    · cases hy
    exact h.alone u w l x y hu hw
  · intro u l r₀ r hu
    rcases eq_some_of_update hu with ⟨_, hx⟩ | ⟨hut, hu⟩
    · cases hx
    have hl : l ≠ k := by
      rintro rfl
      exact hut (h.alone u t l _ _ hu hp)
    rw [Function.update_of_ne hl]
    exact h.busy u l r₀ r hu
  · intro l hl
    by_cases hk : l = k
    · rw [hk, Function.update_self]
    · rw [Function.update_of_ne hk]
      apply h.quiet l
      intro u x hu
      have hut : u ≠ t := by
        rintro rfl
        rw [hp] at hu
        cases hu
        exact hk rfl
      exact hl u x (by rwa [Function.update_of_ne hut])

end Deferred

end Prog
