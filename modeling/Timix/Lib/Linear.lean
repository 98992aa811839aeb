import Mathlib.Logic.Function.Basic
import Timix.Lib.Run

/-!
# Linearizable routines

`alone s a r t` says that the operation `a`, carried out alone in `s`, returns `r` and leaves `t`.
The atomic object serves any number of processes: between its call and its return an operation
takes effect alone, at one instant.

* `Atomic alone s₀ h s st` — the atomic object, started in `s₀`, shows the history `h` of calls and
  returns and is in `s` then, process `p` having got as far as `st p`.
* `Linearizable` — a history of the atomic object.
* `State`, `step` — processes that run routines on a shared state, one step at a time.
* `Points` — what the steps of a routine have to do before, at and behind the one that takes
  effect; then its histories are linearizable (`Points.linearizable`), and if its own steps bring it
  to an end, no process waits for another (`Ranked.returns`).
-/

set_option autoImplicit false

namespace Linear

universe u

variable {P σ α ρ L : Type u}

/-- A call or a return. -/
inductive Act (P α ρ : Type u) where
  | call (p : P) (a : α)
  | ret (p : P) (r : ρ)

/-- How far a process has got with an operation. -/
inductive Status (α ρ : Type u) where
  | out
  | pending (a : α)
  | done (r : ρ)

/-- What one step of a routine leads to. -/
inductive Outcome (L σ ρ : Type u) where
  | running (l : L) (s : σ)
  | returned (r : ρ)

/-- The shared state, the private state of every process inside a routine, and the history. -/
structure State (P L σ α ρ : Type u) where
  shared : σ
  loc : P → Option L
  hist : List (Act P α ρ)

/-- A process calls an operation, or takes its next step. -/
inductive Event (P α : Type u) where
  | call (p : P) (a : α)
  | run (p : P)

section Atomic

variable [DecidableEq P]

/-- A step of `p` inside its routine. -/
def Event.isRun (p : P) : Event P α → Bool
  | .call .. => false
  | .run q => decide (q = p)

/-- The atomic object. -/
inductive Atomic (alone : σ → α → ρ → σ → Prop) (s₀ : σ) :
    List (Act P α ρ) → σ → (P → Status α ρ) → Prop where
  | start : Atomic alone s₀ [] s₀ fun _ => .out
  | call {h : List (Act P α ρ)} {s : σ} {st : P → Status α ρ} {p : P} (a : α)
      (ha : Atomic alone s₀ h s st) (hp : st p = .out) :
      Atomic alone s₀ (h ++ [.call p a]) s (Function.update st p (.pending a))
  | effect {h : List (Act P α ρ)} {s t : σ} {st : P → Status α ρ} {p : P} {a : α} {r : ρ}
      (ha : Atomic alone s₀ h s st) (hp : st p = .pending a) (ht : alone s a r t) :
      Atomic alone s₀ h t (Function.update st p (.done r))
  | ret {h : List (Act P α ρ)} {s : σ} {st : P → Status α ρ} {p : P} {r : ρ}
      (ha : Atomic alone s₀ h s st) (hp : st p = .done r) :
      Atomic alone s₀ (h ++ [.ret p r]) s (Function.update st p .out)

/-- An operation takes effect and returns. -/
theorem Atomic.effect_ret {alone : σ → α → ρ → σ → Prop} {s₀ s t : σ} {h : List (Act P α ρ)}
    {st : P → Status α ρ} {p : P} {a : α} {r : ρ} (ha : Atomic alone s₀ h s st)
    (hp : st p = .pending a) (ht : alone s a r t) :
    Atomic alone s₀ (h ++ [.ret p r]) t (Function.update st p .out) := by
  have hret := (ha.effect hp ht).ret (p := p) (Function.update_self ..)
  rwa [Function.update_idem] at hret

/-- The atomic object can show the history and be in `s` at its end. -/
def Linearizable (alone : σ → α → ρ → σ → Prop) (s₀ : σ) (h : List (Act P α ρ)) (s : σ) : Prop :=
  ∃ st, Atomic alone s₀ h s st

/-! ## Processes -/

def start (s : σ) : State P L σ α ρ := ⟨s, fun _ => none, []⟩

/-- One event; a call of `a` starts its routine in `entry a`. -/
def step (entry : α → L) (next : L → σ → Option (Outcome L σ ρ)) (s : State P L σ α ρ) :
    Event P α → Option (State P L σ α ρ)
  | .call p a =>
    match s.loc p with
    | none => some
      { s with loc := Function.update s.loc p (some (entry a)), hist := s.hist ++ [.call p a] }
    | some _ => none
  | .run p =>
    match s.loc p with
    | none => none
    | some l =>
      match next l s.shared with
      | none => none
      | some (.running l' t) =>
        some { s with shared := t, loc := Function.update s.loc p (some l') }
      | some (.returned r) =>
        some { s with loc := Function.update s.loc p none, hist := s.hist ++ [.ret p r] }

variable {alone : σ → α → ρ → σ → Prop} {entry : α → L} {next : L → σ → Option (Outcome L σ ρ)}
  {before : L → α → Prop} {after : L → ρ → Prop} {s₀ : σ} {s t : State P L σ α ρ} {p : P}

/-- One step of every routine takes effect: the steps before it and behind it are private, and the
last one hands back the result. -/
structure Points (alone : σ → α → ρ → σ → Prop) (entry : α → L)
    (next : L → σ → Option (Outcome L σ ρ)) (before : L → α → Prop) (after : L → ρ → Prop) :
    Prop where
  entry : ∀ a, before (entry a) a
  before : ∀ l s a o, before l a → next l s = some o → ∃ l' t, o = .running l' t ∧
    (t = s ∧ before l' a ∨ ∃ r, alone s a r t ∧ after l' r)
  after : ∀ l s r o, after l r → next l s = some o →
    (∃ l', o = .running l' s ∧ after l' r) ∨ o = .returned r

/-- What the private state says about the operation. -/
def Agrees (before : L → α → Prop) (after : L → ρ → Prop) : Option L → Status α ρ → Prop
  | none, .out => True
  | some l, .pending a => before l a
  | some l, .done r => after l r
  | _, _ => False

/-- The atomic object shows the same history, and every process is where its private state says. -/
def Shown (alone : σ → α → ρ → σ → Prop) (before : L → α → Prop) (after : L → ρ → Prop) (s₀ : σ)
    (s : State P L σ α ρ) : Prop :=
  ∃ st, Atomic alone s₀ s.hist s.shared st ∧ ∀ p, Agrees before after (s.loc p) (st p)

theorem agrees_update {loc : P → Option L} {st : P → Status α ρ} {l : Option L}
    {x : Status α ρ} (h : ∀ p, Agrees before after (loc p) (st p)) (hx : Agrees before after l x)
    (q : P) : Agrees before after (Function.update loc p l q) (Function.update st p x q) := by
  by_cases hq : q = p
  · subst hq
    rw [Function.update_self, Function.update_self]
    exact hx
  · rw [Function.update_of_ne hq, Function.update_of_ne hq]
    exact h q

/-- **One step** is a call, a return, an effect, or nothing at the atomic object. -/
theorem Points.step (hp : Points alone entry next before after) {e : Event P α}
    (h : Shown alone before after s₀ s) (hs : step entry next s e = some t) :
    Shown alone before after s₀ t := by
  obtain ⟨st, hat, hag⟩ := h
  cases e with
  | call p a =>
    have hagp := hag p
    simp only [Linear.step] at hs
    split at hs
    · rename_i hloc
      cases hs
      rw [hloc] at hagp
      have hout : st p = .out := by
        cases hst : st p with
        | out => rfl
        | _ => rw [hst] at hagp; exact hagp.elim
      exact ⟨_, hat.call a hout, agrees_update hag (hp.entry a)⟩
    · cases hs
  | run p =>
    have hagp := hag p
    simp only [Linear.step] at hs
    split at hs
    · cases hs
    rename_i l hloc
    rw [hloc] at hagp
    cases hst : st p with
    | out => rw [hst] at hagp; exact hagp.elim
    | pending a =>
      rw [hst] at hagp
      split at hs
      · cases hs
      · rename_i l' u hn
        cases hs
        obtain ⟨_, _, ho, ⟨rfl, hb⟩ | ⟨r, hr, ha⟩⟩ := hp.before l _ a _ hagp hn
        · cases ho
          refine ⟨st, hat, ?_⟩
          have hkeep := agrees_update (p := p) hag (l := some l') (x := .pending a) hb
          rwa [← hst, Function.update_eq_self] at hkeep
        · cases ho
          exact ⟨_, hat.effect hst hr, agrees_update hag ha⟩
      · rename_i r hn
        obtain ⟨_, _, ho, _⟩ := hp.before l _ a _ hagp hn
        cases ho
    | done r =>
      rw [hst] at hagp
      split at hs
      · cases hs
      · rename_i l' u hn
        cases hs
        rcases hp.after l _ r _ hagp hn with ⟨_, ho, ha⟩ | ho
        · cases ho
          refine ⟨st, hat, ?_⟩
          have hkeep := agrees_update (p := p) hag (l := some l') (x := .done r) ha
          rwa [← hst, Function.update_eq_self] at hkeep
        · cases ho
      · rename_i r' hn
        cases hs
        rcases hp.after l _ r _ hagp hn with ⟨_, ho, _⟩ | ho
        · cases ho
        · cases ho
          exact ⟨_, hat.ret hst, agrees_update hag trivial⟩

theorem shown_start (s : σ) :
    Shown alone before after s (start s : State P L σ α ρ) :=
  ⟨fun _ => .out, .start, fun _ => trivial⟩

/-- **Whatever the interleaving, the calls and returns are those of the atomic object.** -/
theorem Points.linearizable (hp : Points alone entry next before after) {es : List (Event P α)}
    (hs : Lts.exec (Linear.step entry next) (start s₀) es = some s) :
    Linearizable alone s₀ s.hist s.shared := by
  obtain ⟨st, hat, _⟩ := Lts.exec_inv (I := Shown alone before after s₀)
    (fun _ _ _ h hstep => hp.step h hstep) (shown_start s₀) hs
  exact ⟨st, hat⟩

/-! ## Processes that do not wait -/

/-- Every step of a routine brings it nearer to its end. -/
structure Ranked (entry : α → L) (next : L → σ → Option (Outcome L σ ρ)) (ok : L → Prop)
    (rank : L → Nat) : Prop where
  entry : ∀ a, ok (entry a)
  next : ∀ l s, ok l → ∃ o, next l s = some o ∧
    ∀ l' t, o = .running l' t → ok l' ∧ rank l' < rank l

variable {ok : L → Prop} {rank : L → Nat}

/-- Every process inside a routine is somewhere it goes on from. -/
def AllOk (ok : L → Prop) (s : State P L σ α ρ) : Prop := ∀ p l, s.loc p = some l → ok l

theorem allOk_update {l : Option L} {h : List (Act P α ρ)} {t : σ} (hok : AllOk ok s)
    (hl : ∀ l', l = some l' → ok l') :
    AllOk ok { s with shared := t, loc := Function.update s.loc p l, hist := h } := by
  intro q l' hq
  replace hq : Function.update s.loc p l q = some l' := hq
  by_cases hqp : q = p
  · subst hqp
    rw [Function.update_self] at hq
    exact hl l' hq
  · rw [Function.update_of_ne hqp] at hq
    exact hok q l' hq

theorem Ranked.step (hr : Ranked entry next ok rank) {e : Event P α} (hok : AllOk ok s)
    (hs : step entry next s e = some t) : AllOk ok t := by
  cases e with
  | call p a =>
    simp only [Linear.step] at hs
    split at hs
    · cases hs
      exact allOk_update hok fun l' hl' => Option.some.inj hl' ▸ hr.entry a
    · cases hs
  | run p =>
    simp only [Linear.step] at hs
    split at hs
    · cases hs
    rename_i l hloc
    obtain ⟨o, ho, hrun⟩ := hr.next l s.shared (hok p l hloc)
    rw [ho] at hs
    cases o with
    | running l' u =>
      cases hs
      exact allOk_update hok fun l'' hl'' => Option.some.inj hl'' ▸ (hrun l' u rfl).1
    | returned r =>
      cases hs
      exact allOk_update hok fun l'' hl'' => by cases hl''

theorem Ranked.allOk (hr : Ranked entry next ok rank) {es : List (Event P α)}
    (hs : Lts.exec (Linear.step entry next) (start s₀) es = some s) : AllOk ok s :=
  Lts.exec_inv (I := AllOk ok) (fun _ _ _ h hstep => hr.step h hstep)
    (fun _ _ hl => by cases hl) hs

/-- A step only adds to the history. -/
theorem hist_step {e : Event P α} (hs : step entry next s e = some t) : s.hist <+: t.hist := by
  cases e with
  | call p a =>
    simp only [Linear.step] at hs
    split at hs
    · cases hs
      exact List.prefix_append _ _
    · cases hs
  | run p =>
    simp only [Linear.step] at hs
    split at hs
    · cases hs
    split at hs
    · cases hs
    · cases hs
      exact List.prefix_refl _
    · cases hs
      exact List.prefix_append _ _

theorem hist_exec {es : List (Event P α)} (hs : Lts.exec (step entry next) s es = some t) :
    s.hist <+: t.hist :=
  Lts.exec_inv (I := fun u : State P L σ α ρ => s.hist <+: u.hist)
    (fun _ _ _ h hstep => h.trans (hist_step hstep)) (List.prefix_refl _) hs

/-- The step of another process leaves a private state alone. -/
theorem loc_step {q : P} {e : Event P α} (hs : step entry next s e = some t)
    (he : e = .run q ∨ ∃ a, e = .call q a) (hq : p ≠ q) : t.loc p = s.loc p := by
  rcases he with rfl | ⟨a, rfl⟩
  · simp only [Linear.step] at hs
    split at hs
    · cases hs
    split at hs
    · cases hs
    · cases hs
      exact Function.update_of_ne hq ..
    · cases hs
      exact Function.update_of_ne hq ..
  · simp only [Linear.step] at hs
    split at hs
    · cases hs
      exact Function.update_of_ne hq ..
    · cases hs

/-- **A process that has taken as many steps as its rank says has returned**, whatever the others
did in between. -/
theorem Ranked.returns (hr : Ranked entry next ok rank) {es : List (Event P α)} {l : L}
    (hok : AllOk ok s) (hl : s.loc p = some l) (hcount : rank l < es.countP (Event.isRun p))
    (hs : Lts.exec (Linear.step entry next) s es = some t) :
    ∃ r, .ret p r ∈ t.hist.drop s.hist.length := by
  induction es generalizing s l with
  | nil => cases hcount
  | cons e es ih =>
    obtain ⟨u, hu, ht⟩ := Lts.exec_cons.1 hs
    have hpre := hist_step hu
    have hlift : (∃ r, .ret p r ∈ t.hist.drop u.hist.length) →
        ∃ r, .ret p r ∈ t.hist.drop s.hist.length := by
      rintro ⟨r, hmem⟩
      obtain ⟨k, hk⟩ := Nat.exists_eq_add_of_le hpre.length_le
      rw [hk, ← List.drop_drop] at hmem
      exact ⟨r, List.mem_of_mem_drop hmem⟩
    cases he : e.isRun p with
    | true =>
      obtain rfl : e = .run p := by
        cases e with
        | call q a => cases he
        | run q => exact congrArg Event.run (of_decide_eq_true he)
      rw [List.countP_cons_of_pos he] at hcount
      obtain ⟨o, ho, hrun⟩ := hr.next l s.shared (hok p l hl)
      have hu' := hu
      simp only [Linear.step, hl, ho] at hu'
      cases o with
      | running l' v =>
        cases hu'
        have hdec := (hrun l' v rfl).2
        exact hlift (ih (hr.step hok hu) (Function.update_self ..) (by omega) ht)
      | returned r =>
        -- the return itself
        cases hu'
        obtain ⟨more, hmore⟩ := hist_exec ht
        refine ⟨r, ?_⟩
        rw [← hmore, List.append_assoc, List.drop_left]
        exact List.mem_append_left _ (List.mem_singleton_self _)
    | false =>
      rw [List.countP_cons_of_neg (by rw [he]; decide)] at hcount
      refine hlift (ih (hr.step hok hu) ?_ hcount ht)
      rw [← hl]
      cases e with
      | call q a =>
        refine loc_step hu (.inr ⟨a, rfl⟩) ?_
        rintro rfl
        simp [Linear.step, hl] at hu
      | run q => exact loc_step hu (.inl rfl) fun hpq => of_decide_eq_false he hpq.symm

end Atomic

end Linear
