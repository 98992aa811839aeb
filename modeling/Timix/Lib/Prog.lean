import Mathlib.Logic.Relation

/-!
# Programs over a state, taken one access at a time

A `Prog σ α` reads the state (`get`), replaces it (`set`, `none` for an access that is not
allowed) and returns a value.  `Prog.run` plays it to its end; `Prog.step` makes one access, so
that programs can be interleaved; `run_step` says that a step does not change the result to come.

`Prog.Ensures p Q s` says that `p`, played from `s`, ends and satisfies `Q`:

* `ensures_bind`, `Ensures.mono` — composition and consequence;
* `ensures_loop` — counting loops, by an invariant;
* `Ensures.run`, `Ensures.of_run` — back to `run`.

`Keeps f p` says that no access of `p` changes `f` of the state: the frame rules `Keeps.run` and
`Keeps.step`.
`Yields P p` says that `P` holds of whatever `p` returns, access by access (`Yields.step`).

`Safe I p s` says that `p`, taken from `s` access by access, never makes one that is not allowed,
and that `I` holds of every state on the way; `Throughout I Q p s` is the inductive form of it,
with a postcondition: `throughout_bind`, `Keeps.throughout`, `Throughout.safe`.
-/

set_option autoImplicit false

universe u v w

/-- A program that reads and writes a state of type `σ`. -/
inductive Prog (σ : Type u) (α : Type v) where
  | ret (a : α)
  | get (k : σ → Prog σ α)
  | set (f : σ → Option σ) (k : Prog σ α)

namespace Prog

variable {σ : Type u} {α : Type v} {β : Type v}

protected def bind : Prog σ α → (α → Prog σ β) → Prog σ β
  | .ret a, f => f a
  | .get k, f => .get fun s => (k s).bind f
  | .set g k, f => .set g (k.bind f)

instance : Monad (Prog σ) where
  pure := .ret
  bind := Prog.bind

/-- Read something. -/
def read (f : σ → α) : Prog σ α := .get fun s => .ret (f s)

/-- Write something. -/
def write (f : σ → Option σ) : Prog σ Unit := .set f (.ret ())

/-- An access that is always allowed. -/
def modify (f : σ → σ) : Prog σ Unit := write fun s => some (f s)

/-- `for (i = lo; i < lo + n; ++i) body(i)`. -/
def loop : Nat → Int → (Int → Prog σ Unit) → Prog σ Unit
  | 0, _, _ => pure ()
  | n + 1, i, body => do
    body i
    loop n (i + 1) body

/-- Play the program; `none` if it makes an access that is not allowed. -/
def run : Prog σ α → σ → Option (α × σ)
  | .ret a, s => some (a, s)
  | .get k, s => (k s).run s
  | .set f k, s =>
    match f s with
    | none => none
    | some t => k.run t

/-- One access; `none` also at the end. -/
def step : Prog σ α → σ → Option (Prog σ α × σ)
  | .ret _, _ => none
  | .get k, s => some (k s, s)
  | .set f k, s => (f s).map fun t => (k, t)

theorem run_step {p q : Prog σ α} {s t : σ} (h : p.step s = some (q, t)) : p.run s = q.run t := by
  cases p with
  | ret a => cases h
  | get k =>
    obtain ⟨rfl, rfl⟩ := Prod.mk.inj (Option.some.inj h)
    rfl
  | set f k =>
    obtain ⟨u, hu, heq⟩ := Option.map_eq_some_iff.1 h
    obtain ⟨rfl, rfl⟩ := Prod.mk.inj heq
    rw [run, hu]

instance : LawfulMonad (Prog σ) :=
  LawfulMonad.mk' _
    (by
      intro α p
      induction p with
      | ret a => rfl
      | get k ih => exact congrArg Prog.get (funext ih)
      | set h k ih => exact congrArg (Prog.set h) ih)
    (fun _ _ => rfl)
    (by
      intro α β γ p f g
      induction p with
      | ret a => rfl
      | get k ih => exact congrArg Prog.get (funext ih)
      | set h k ih => exact congrArg (Prog.set h) ih)

theorem ite_bind {c : Prop} [Decidable c] {p q : Prog σ α} {f : α → Prog σ β} :
    ((if c then p else q) >>= f) = if c then p >>= f else q >>= f := by
  split <;> rfl

theorem run_bind (p : Prog σ α) (f : α → Prog σ β) (s : σ) :
    (p >>= f).run s = (p.run s).bind fun r => (f r.1).run r.2 := by
  induction p generalizing s with
  | ret a => rfl
  | get k ih => exact ih s s
  | set g k ih =>
    show (match g s with | none => none | some t => (k >>= f).run t) = _
    rw [run]
    split
    · rfl
    · exact ih _

theorem run_write (f : σ → Option σ) (s : σ) : (write f).run s = (f s).map fun t => ((), t) := by
  rw [write, run]
  cases f s <;> rfl

theorem run_bind_some {p : Prog σ α} {f : α → Prog σ β} {s t : σ} {b : β} :
    (p >>= f).run s = some (b, t) ↔
      ∃ a u, p.run s = some (a, u) ∧ (f a).run u = some (b, t) := by
  rw [run_bind, Option.bind_eq_some_iff, Prod.exists]

/-! ## Postconditions -/

/-- Played from `s`, the program ends, and `Q` holds of its value and the state it leaves. -/
def Ensures (Q : α → σ → Prop) : Prog σ α → σ → Prop
  | .ret a, s => Q a s
  | .get k, s => Ensures Q (k s) s
  | .set f k, s => ∃ t, f s = some t ∧ Ensures Q k t

variable {Q R : α → σ → Prop} {s : σ}

theorem Ensures.run : ∀ {p : Prog σ α} {s : σ}, Ensures Q p s →
    ∃ a t, p.run s = some (a, t) ∧ Q a t
  | .ret a, s, h => ⟨a, s, rfl, h⟩
  | .get k, s, h => Ensures.run (p := k s) h
  | .set f k, s, ⟨t, ht, h⟩ => by
    obtain ⟨a, u, hu, hQ⟩ := Ensures.run h
    exact ⟨a, u, by rw [Prog.run, ht]; exact hu, hQ⟩

theorem Ensures.of_run {p : Prog σ α} (h : Ensures Q p s) {a : α} {t : σ}
    (hrun : p.run s = some (a, t)) : Q a t := by
  obtain ⟨b, u, hu, hQ⟩ := h.run
  obtain ⟨rfl, rfl⟩ := Prod.mk.inj (Option.some.inj (hu.symm.trans hrun))
  exact hQ

/-- What computes `u` hands it on to the rest. -/
theorem Ensures.run_bind {δ : Type} {p : Prog σ Unit} {f : Unit → Prog σ δ} {u : σ}
    (h : Ensures (fun _ t => t = u) p s) : (p >>= f).run s = (f ()).run u := by
  obtain ⟨_, t, hrun, rfl⟩ := h.run
  rw [Prog.run_bind, hrun, Option.bind_some]

theorem Ensures.mono (hQR : ∀ a t, Q a t → R a t) : ∀ {p : Prog σ α} {s : σ}, Ensures Q p s →
    Ensures R p s
  | .ret a, s, h => hQR a s h
  | .get k, s, h => Ensures.mono hQR (p := k s) h
  | .set _ _, _, ⟨t, ht, h⟩ => ⟨t, ht, Ensures.mono hQR h⟩

/-- What computes `u` ensures whatever holds of `u`. -/
theorem Ensures.of_eq {Q : Unit → σ → Prop} {p : Prog σ Unit} {u : σ}
    (h : Ensures (fun _ t => t = u) p s) (hQ : Q () u) : Ensures Q p s :=
  h.mono fun _ _ ht => ht ▸ hQ

@[simp] theorem ensures_bind {Q : β → σ → Prop} {f : α → Prog σ β} : ∀ {p : Prog σ α} {s : σ},
    Ensures Q (p >>= f) s ↔ Ensures (fun a t => Ensures Q (f a) t) p s
  | .ret _, _ => Iff.rfl
  | .get k, s => ensures_bind (p := k s)
  | .set _ _, _ => exists_congr fun _ => and_congr_right fun _ => ensures_bind

@[simp] theorem ensures_pure {a : α} : Ensures Q (pure a) s ↔ Q a s := Iff.rfl

@[simp] theorem ensures_map {Q : β → σ → Prop} {g : α → β} {p : Prog σ α} :
    Ensures Q (g <$> p) s ↔ Ensures (fun a => Q (g a)) p s := by
  rw [← bind_pure_comp, ensures_bind]
  rfl

@[simp] theorem ensures_read {f : σ → α} : Ensures Q (read f) s ↔ Q (f s) s := Iff.rfl

@[simp] theorem ensures_write {f : σ → Option σ} {Q : Unit → σ → Prop} :
    Ensures Q (write f) s ↔ ∃ t, f s = some t ∧ Q () t := Iff.rfl

@[simp] theorem ensures_modify {f : σ → σ} {Q : Unit → σ → Prop} :
    Ensures Q (modify f) s ↔ Q () (f s) := by
  simp [modify]

theorem ensures_ite {c : Prop} [Decidable c] {p q : Prog σ α} :
    Ensures Q (if c then p else q) s ↔ if c then Ensures Q p s else Ensures Q q s := by
  split <;> rfl

/-- **Loops**: `I k` is the invariant before round `k`. -/
theorem ensures_loop (I : Nat → σ → Prop) {body : Int → Prog σ Unit} :
    ∀ {n : Nat} {lo : Int} {s : σ}, I 0 s →
      (∀ k < n, ∀ s, I k s → Ensures (fun _ => I (k + 1)) (body (lo + k)) s) →
      Ensures (fun _ => I n) (loop n lo body) s
  | 0, _, _, h, _ => h
  | n + 1, lo, s, h, hbody => by
    have hfirst : Ensures (fun _ => I 1) (body lo) s := by
      have := hbody 0 (by omega) s h
      rwa [Int.natCast_zero, Int.add_zero, Nat.zero_add] at this
    rw [loop, ensures_bind]
    apply hfirst.mono
    intro _ t ht
    apply ensures_loop (fun k => I (k + 1)) ht
    intro k hk u hu
    have := hbody (k + 1) (by omega) u hu
    rwa [Int.natCast_succ, Int.add_comm (k : Int) 1, ← Int.add_assoc] at this

/-! ## Frames -/

variable {γ : Type w} {f : σ → γ}

/-- No access changes `f`. -/
def Keeps (f : σ → γ) : Prog σ α → Prop
  | .ret _ => True
  | .get k => ∀ s, Keeps f (k s)
  | .set g k => (∀ s t, g s = some t → f t = f s) ∧ Keeps f k

theorem Keeps.run : ∀ {p : Prog σ α} {s t : σ} {a : α}, Keeps f p → p.run s = some (a, t) →
    f t = f s
  | .ret _, _, _, _, _, h => by
    obtain ⟨-, rfl⟩ := Prod.mk.inj (Option.some.inj h)
    rfl
  | .get k, s, _, _, hp, h => Keeps.run (p := k s) (hp s) h
  | .set g k, s, t, a, hp, h => by
    rw [Prog.run] at h
    split at h
    · cases h
    · rename_i u hu
      exact (Keeps.run hp.2 h).trans (hp.1 s u hu)

theorem Keeps.step {p q : Prog σ α} {s t : σ} (hp : Keeps f p) (h : p.step s = some (q, t)) :
    Keeps f q ∧ f t = f s := by
  cases p with
  | ret a => cases h
  | get k =>
    obtain ⟨rfl, rfl⟩ := Prod.mk.inj (Option.some.inj h)
    exact ⟨hp _, rfl⟩
  | set g k =>
    obtain ⟨u, hu, heq⟩ := Option.map_eq_some_iff.1 h
    obtain ⟨rfl, rfl⟩ := Prod.mk.inj heq
    exact ⟨hp.2, hp.1 s u hu⟩

theorem keeps_bind {p : Prog σ α} {q : α → Prog σ β} (hp : Keeps f p) (hq : ∀ a, Keeps f (q a)) :
    Keeps f (p >>= q) := by
  induction p with
  | ret a => exact hq a
  | get k ih => exact fun s => ih s (hp s)
  | set g k ih => exact ⟨hp.1, ih hp.2⟩

theorem keeps_ite {c : Prop} [Decidable c] {p q : Prog σ α} (hp : Keeps f p) (hq : Keeps f q) :
    Keeps f (if c then p else q) := by
  split
  · exact hp
  · exact hq

theorem keeps_loop {body : Int → Prog σ Unit} (hbody : ∀ i, Keeps f (body i)) :
    ∀ (n : Nat) (lo : Int), Keeps f (loop n lo body)
  | 0, _ => trivial
  | n + 1, lo => keeps_bind (hbody lo) fun _ => keeps_loop hbody n (lo + 1)

/-! ## Values -/

/-- Whatever the states it meets, every value the program returns satisfies `P`. -/
def Yields (P : α → Prop) : Prog σ α → Prop
  | .ret a => P a
  | .get k => ∀ s, Yields P (k s)
  | .set _ k => Yields P k

theorem Yields.bind {P : α → Prop} {R : β → Prop} {p : Prog σ α} {q : α → Prog σ β}
    (hp : Yields P p) (hq : ∀ a, P a → Yields R (q a)) : Yields R (p >>= q) := by
  induction p with
  | ret a => exact hq a hp
  | get k ih => exact fun s => ih s (hp s)
  | set g k ih => exact ih hp

theorem yields_true : ∀ p : Prog σ α, Yields (fun _ => True) p
  | .ret _ => trivial
  | .get k => fun s => yields_true (k s)
  | .set _ k => yields_true k

/-- Programs whose last part alone settles the value. -/
theorem yields_bind {P : β → Prop} {p : Prog σ α} {q : α → Prog σ β}
    (hq : ∀ a, Yields P (q a)) : Yields P (p >>= q) :=
  (yields_true p).bind fun a _ => hq a

theorem Yields.step {P : α → Prop} {p q : Prog σ α} {s t : σ} (h : Yields P p)
    (hstep : p.step s = some (q, t)) : Yields P q := by
  cases p with
  | ret a => cases hstep
  | get k =>
    obtain ⟨rfl, -⟩ := Prod.mk.inj (Option.some.inj hstep)
    exact h s
  | set f k =>
    obtain ⟨u, -, heq⟩ := Option.map_eq_some_iff.1 hstep
    obtain ⟨rfl, -⟩ := Prod.mk.inj heq
    exact h

/-- The program reads nothing any more. -/
def Blind : Prog σ α → Prop
  | .ret _ => True
  | .get _ => False
  | .set _ k => Blind k

theorem Blind.step {p q : Prog σ α} {s t : σ} (h : Blind p) (hstep : p.step s = some (q, t)) :
    Blind q := by
  cases p with
  | ret a => cases hstep
  | get k => exact h.elim
  | set f k =>
    obtain ⟨u, -, heq⟩ := Option.map_eq_some_iff.1 hstep
    obtain ⟨rfl, -⟩ := Prod.mk.inj heq
    exact h

/-! ## What holds on the way -/

variable {I : σ → Prop}

/-- From `(p, s)` some accesses lead to `(q, t)`. -/
def Reaches (p : Prog σ α) (s : σ) (q : Prog σ α) (t : σ) : Prop :=
  Relation.ReflTransGen (fun c d => Prog.step c.1 c.2 = some d) (p, s) (q, t)

/-- `I` holds on the way, and the program goes on until it has returned. -/
def Safe (I : σ → Prop) (p : Prog σ α) (s : σ) : Prop :=
  ∀ q t, Reaches p s q t → I t ∧ ((∃ a, q = .ret a) ∨ (q.step t).isSome)

/-- Played from `s`, the program ends, `I` holds of every state on the way, and `Q` of its value
    and the state it leaves. -/
def Throughout (I : σ → Prop) (Q : α → σ → Prop) : Prog σ α → σ → Prop
  | .ret a, s => I s ∧ Q a s
  | .get k, s => I s ∧ Throughout I Q (k s) s
  | .set f k, s => I s ∧ ∃ t, f s = some t ∧ Throughout I Q k t

theorem Throughout.start {p : Prog σ α} (h : Throughout I Q p s) : I s := by
  cases p with
  | ret a => exact h.1
  | get k => exact h.1
  | set f k => exact h.1

/-- One access. -/
theorem Throughout.step {p q : Prog σ α} {t : σ} (h : Throughout I Q p s)
    (hs : p.step s = some (q, t)) : Throughout I Q q t := by
  cases p with
  | ret a => cases hs
  | get k =>
    obtain ⟨rfl, rfl⟩ := Prod.mk.inj (Option.some.inj hs)
    exact h.2
  | set f k =>
    obtain ⟨u, hu, hk⟩ := h.2
    rw [Prog.step, hu] at hs
    obtain ⟨rfl, rfl⟩ := Prod.mk.inj (Option.some.inj hs)
    exact hk

theorem Throughout.safe {p : Prog σ α} (h : Throughout I Q p s) : Safe I p s := by
  intro q t hreach
  have hq : ∀ d : Prog σ α × σ,
      Relation.ReflTransGen (fun c d => Prog.step c.1 c.2 = some d) (p, s) d →
        Throughout I Q d.1 d.2 := by
    intro d hd
    induction hd with
    | refl => exact h
    | tail _ hstep ih => exact ih.step hstep
  have hqt : Throughout I Q q t := hq (q, t) hreach
  refine ⟨hqt.start, ?_⟩
  cases q with
  | ret a => exact Or.inl ⟨a, rfl⟩
  | get k => exact Or.inr rfl
  | set f k =>
    obtain ⟨u, hu, -⟩ := hqt.2
    right
    rw [Prog.step, hu]
    rfl

theorem Throughout.mono (hQR : ∀ a t, Q a t → R a t) : ∀ {p : Prog σ α} {s : σ},
    Throughout I Q p s → Throughout I R p s
  | .ret a, s, h => ⟨h.1, hQR a s h.2⟩
  | .get k, s, h => ⟨h.1, Throughout.mono hQR (p := k s) h.2⟩
  | .set _ _, _, ⟨hI, t, ht, h⟩ => ⟨hI, t, ht, Throughout.mono hQR h⟩

/-- also at the end. -/
theorem Throughout.final : ∀ {p : Prog σ α} {s : σ}, Throughout I Q p s →
    Throughout I (fun a t => I t ∧ Q a t) p s
  | .ret _, _, h => ⟨h.1, h⟩
  | .get k, s, h => ⟨h.1, Throughout.final (p := k s) h.2⟩
  | .set _ _, _, ⟨hI, t, ht, h⟩ => ⟨hI, t, ht, Throughout.final h⟩

/-- What computes `u` safely ensures whatever holds of `u`. -/
theorem Throughout.of_eq {Q : Unit → σ → Prop} {p : Prog σ Unit} {u : σ}
    (h : Throughout I (fun _ t => t = u) p s) (hQ : Q () u) : Throughout I Q p s :=
  h.mono fun _ _ ht => ht ▸ hQ

theorem throughout_bind {Q : β → σ → Prop} {f : α → Prog σ β} : ∀ {p : Prog σ α} {s : σ},
    Throughout I (fun a t => Throughout I Q (f a) t) p s → Throughout I Q (p >>= f) s
  | .ret _, _, h => h.2
  | .get k, s, h => ⟨h.1, throughout_bind (p := k s) h.2⟩
  | .set _ _, _, ⟨hI, t, ht, h⟩ => ⟨hI, t, ht, throughout_bind h⟩

theorem throughout_read {g : σ → α} (hI : I s) (hQ : Q (g s) s) : Throughout I Q (read g) s :=
  ⟨hI, hI, hQ⟩

theorem throughout_modify {g : σ → σ} {Q : Unit → σ → Prop} (hI : I s) (hI' : I (g s))
    (hQ : Q () (g s)) : Throughout I Q (modify g) s :=
  ⟨hI, g s, rfl, hI', hQ⟩

/-- **Frame**: if `I` depends on `f` only, a program that keeps `f` keeps `I` throughout. -/
theorem Keeps.throughout (hI : ∀ s t, f t = f s → I s → I t) : ∀ {p : Prog σ α} {s : σ},
    Keeps f p → I s → Ensures Q p s → Throughout I (fun a t => f t = f s ∧ Q a t) p s
  | .ret _, _, _, hs, hQ => ⟨hs, rfl, hQ⟩
  | .get k, s, hp, hs, hQ => ⟨hs, Keeps.throughout hI (p := k s) (hp s) hs hQ⟩
  | .set _ _, s, hp, hs, ⟨t, ht, hQ⟩ => by
    have hf := hp.1 s t ht
    refine ⟨hs, t, ht, ?_⟩
    rw [← hf]
    exact Keeps.throughout hI hp.2 (hI s t hf hs) hQ

end Prog
