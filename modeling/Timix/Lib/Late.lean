import Timix.Lib.Client
import Timix.Lib.Linear

/-!
# Returns that come later

Between an operation and its caller there may be code that only brings the return later.

* `mailbox` — a client that hands on calls at once, and returns at some later time.
* `Postponed h h' b` — the history `h'` is `h` with some returns later, and `b` those yet to come.
* `postponed_of_exec` — what the object shows, and what the mailbox does.
* `Postponed.linearizable` — what is linearizable remains so if returns come later.
-/

set_option autoImplicit false

namespace Linear

open Lts

universe u

variable {P σ ε α ρ : Type u} [DecidableEq P]

/-! ## The mailbox -/

/-- A return is kept; who waits for one does not call. -/
def hold (b : P → Option ρ) : Act P α ρ → Option (P → Option ρ)
  | .call p _ =>
    match b p with
    | none => some b
    | some _ => none
  | .ret p r =>
    match b p with
    | none => some (Function.update b p (some r))
    | some _ => none

/-- The return is handed over. -/
def deliver (b : P → Option ρ) (p : P) : Option (P → Option ρ) :=
  match b p with
  | none => none
  | some _ => some (Function.update b p none)

def mailbox (P α ρ : Type u) [DecidableEq P] :
    Client (P → Option ρ) P (Act P α ρ) (Act P α ρ) where
  step := deliver
  label b p := (b p).toList.map (.ret p)
  accept := hold
  shows _
    | .call p a => [.call p a]
    | .ret .. => []

/-! ## Histories -/

inductive Postponed : List (Act P α ρ) → List (Act P α ρ) → (P → Option ρ) → Prop where
  | nil : Postponed [] [] fun _ => none
  | call {h h' : List (Act P α ρ)} {b : P → Option ρ} {p : P} (a : α) (hp : Postponed h h' b)
      (hb : b p = none) : Postponed (h ++ [.call p a]) (h' ++ [.call p a]) b
  | hold {h h' : List (Act P α ρ)} {b : P → Option ρ} {p : P} (r : ρ) (hp : Postponed h h' b)
      (hb : b p = none) : Postponed (h ++ [.ret p r]) h' (Function.update b p (some r))
  | deliver {h h' : List (Act P α ρ)} {b : P → Option ρ} {p : P} {r : ρ} (hp : Postponed h h' b)
      (hb : b p = some r) : Postponed h (h' ++ [.ret p r]) (Function.update b p none)

variable {h h' l : List (Act P α ρ)} {b b' : P → Option ρ} {obj : σ → ε → Option σ}
  {lab : σ → ε → List (Act P α ρ)}

/-- The mailbox takes what the object shows. -/
theorem Postponed.accept (hp : Postponed h h' b) (hl : exec (mailbox P α ρ).accept b l = some b') :
    Postponed (h ++ l) (h' ++ trace (mailbox P α ρ).accept (mailbox P α ρ).shows b l) b' := by
  induction l generalizing h h' b with
  | nil =>
    obtain rfl : b = b' := Option.some.inj hl
    simpa only [trace, List.append_nil] using hp
  | cons x l ih =>
    obtain ⟨c, hc, hl⟩ := exec_cons.1 hl
    have hx : Postponed (h ++ [x]) (h' ++ (mailbox P α ρ).shows b x) c := by
      cases x with
      | call p a =>
        simp only [mailbox, Linear.hold] at hc
        split at hc
        · cases hc
          exact hp.call a ‹_›
        · cases hc
      | ret p r =>
        simp only [mailbox, Linear.hold] at hc
        split at hc
        · cases hc
          exact (List.append_nil h').symm ▸ hp.hold r ‹_›
        · cases hc
    have hrest := ih hx hl
    simp only [trace, hc]
    rwa [List.append_assoc, List.append_assoc] at hrest

/-- **The object, and the object with the mailbox.** -/
theorem postponed_of_exec {s₀ s : σ} {es : List (P ⊕ ε)}
    (hs : exec ((mailbox P α ρ).over obj lab) (fun _ => none, s₀) es = some (b, s)) :
    ∃ ds, exec obj s₀ ds = some s ∧ Postponed (trace obj lab s₀ ds)
      (trace ((mailbox P α ρ).over obj lab) ((mailbox P α ρ).overLabel lab)
        (fun _ => none, s₀) es) b := by
  let I (x : (P → Option ρ) × σ) (l : List (Act P α ρ)) : Prop :=
    ∃ ds, exec obj s₀ ds = some x.2 ∧ Postponed (trace obj lab s₀ ds) l x.1
  have hstart : I (fun _ => none, s₀) [] := ⟨[], rfl, .nil⟩
  refine exec_inv_trace (I := I) ?_ hstart hs
  rintro ⟨b, s⟩ l (p | d) ⟨b', s'⟩ ⟨ds, hds, hp⟩ hstep
  · obtain ⟨hb, rfl⟩ := over_inl.1 hstep
    refine ⟨ds, hds, ?_⟩
    simp only [mailbox, Linear.deliver] at hb
    split at hb
    · cases hb
    · rename_i r hr
      cases hb
      simpa only [Client.overLabel, mailbox, hr, Option.toList_some, List.map_cons, List.map_nil]
        using hp.deliver hr
  · obtain ⟨hs', hb⟩ := over_inr.1 hstep
    refine ⟨ds ++ [d], exec_concat.2 ⟨s, hds, hs'⟩, ?_⟩
    rw [trace_append [d] hds]
    simp only [trace, hs', List.append_nil]
    exact hp.accept hb

section Shows

variable {s s' : σ} {e : ε} {p : P}

/-- The mailbox takes calls of `p`, and what is returned to `p` at the end. -/
theorem mailbox_takes (hb : b p = none) (calls : List α) (o : Option ρ) :
    exec (mailbox P α ρ).accept b (calls.map (.call p) ++ o.toList.map (.ret p)) =
        some (Function.update b p o) ∧
      trace (mailbox P α ρ).accept (mailbox P α ρ).shows b
        (calls.map (.call p) ++ o.toList.map (.ret p)) = calls.map (.call p) := by
  induction calls with
  | nil =>
    cases o with
    | none =>
      have hsame : Function.update b p none = b := by rw [← hb, Function.update_eq_self]
      rw [hsame]
      exact ⟨rfl, rfl⟩
    | some r => simp [exec, trace, mailbox, Linear.hold, hb]
  | cons a calls ih => simpa [exec, trace, mailbox, Linear.hold, hb] using ih

/-- The object steps, and the mailbox keeps what it returns to `p`. -/
theorem shows_keep (hb : b p = none) (hs : obj s e = some s') (calls : List α) {o : Option ρ}
    (hl : lab s e = calls.map (.call p) ++ o.toList.map (.ret p)) :
    Shows ((mailbox P α ρ).over obj lab) ((mailbox P α ρ).overLabel lab) (b, s)
      (calls.map (.call p)) (Function.update b p o, s') := by
  obtain ⟨htake, htrace⟩ := mailbox_takes hb calls o
  rw [← hl] at htake htrace
  have hstep : (mailbox P α ρ).over obj lab (b, s) (.inr e) = some (Function.update b p o, s') :=
    over_inr.2 ⟨hs, htake⟩
  exact htrace ▸ Shows.single (Sum.inr e) hstep

variable (obj lab) in
/-- What is kept is handed over. -/
theorem shows_hand (b : P → Option ρ) (s : σ) (p : P) :
    Shows ((mailbox P α ρ).over obj lab) ((mailbox P α ρ).overLabel lab) (b, s)
      ((b p).toList.map (.ret p)) (Function.update b p none, s) := by
  cases hb : b p with
  | none =>
    have hsame : Function.update b p none = b := by rw [← hb, Function.update_eq_self]
    rw [hsame]
    exact .refl _
  | some r =>
    have hdeliver : (mailbox P α ρ).step b p = some (Function.update b p none) := by
      simp only [mailbox, Linear.deliver, hb]
    have hstep : (mailbox P α ρ).over obj lab (b, s) (.inl p) =
        some (Function.update b p none, s) := over_inl.2 ⟨hdeliver, rfl⟩
    have hshow : Shows _ ((mailbox P α ρ).overLabel lab) _ _ _ := Shows.single (Sum.inl p) hstep
    simpa only [Client.overLabel, mailbox, hb] using hshow

/-- The object steps, and what it returns to `p` is handed over at once. -/
theorem shows_at_once (hb : b p = none) (hs : obj s e = some s') (calls : List α) {o : Option ρ}
    (hl : lab s e = calls.map (.call p) ++ o.toList.map (.ret p)) :
    Shows ((mailbox P α ρ).over obj lab) ((mailbox P α ρ).overLabel lab) (b, s) (lab s e)
      (b, s') := by
  have hhand := shows_hand obj lab (Function.update b p o) s' p
  rw [Function.update_self, Function.update_idem, ← hb, Function.update_eq_self] at hhand
  rw [hl]
  exact (shows_keep hb hs calls hl).trans hhand

end Shows

/-- The same calls. -/
theorem Postponed.mem_call (hp : Postponed h h' b) {p : P} {a : α} :
    .call p a ∈ h ↔ .call p a ∈ h' := by
  induction hp with
  | nil => simp
  | call _ _ _ ih => simp [ih]
  | hold _ _ _ ih => simp [ih]
  | deliver _ _ ih => simp [ih]

/-! ## Linearizability -/

/-- Operations take effect. -/
inductive Effects (alone : σ → α → ρ → σ → Prop) (s : σ) (st : P → Status α ρ) :
    σ → (P → Status α ρ) → Prop where
  | refl : Effects alone s st s st
  | tail {t u : σ} {sv : P → Status α ρ} {p : P} {a : α} {r : ρ} (he : Effects alone s st t sv)
      (hp : sv p = .pending a) (ht : alone t a r u) :
      Effects alone s st u (Function.update sv p (.done r))

variable {alone : σ → α → ρ → σ → Prop} {s₀ s t : σ} {st sv : P → Status α ρ}

/-- Back to the last call or return. -/
theorem Atomic.last {x : Act P α ρ} (ha : Atomic alone s₀ (h ++ [x]) s st) :
    ∃ s₁ st₁, Atomic alone s₀ h s₁ st₁ ∧
      ((∃ p a, x = .call p a ∧ st₁ p = .out ∧
        Effects alone s₁ (Function.update st₁ p (.pending a)) s st) ∨
      ∃ p r, x = .ret p r ∧ st₁ p = .done r ∧
        Effects alone s₁ (Function.update st₁ p .out) s st) := by
  generalize hl : h ++ [x] = l at ha
  induction ha with
  | start => simp at hl
  | @call h₁ s st p a ha hp _ =>
    obtain ⟨rfl, hx⟩ := List.append_inj' hl rfl
    cases hx
    exact ⟨s, st, ha, Or.inl ⟨p, a, rfl, hp, .refl⟩⟩
  | effect _ hp ht ih =>
    obtain ⟨s₁, st₁, ha₁, ⟨q, a', hx, hq, he⟩ | ⟨q, r', hx, hq, he⟩⟩ := ih hl
    · exact ⟨s₁, st₁, ha₁, Or.inl ⟨q, a', hx, hq, he.tail hp ht⟩⟩
    · exact ⟨s₁, st₁, ha₁, Or.inr ⟨q, r', hx, hq, he.tail hp ht⟩⟩
  | @ret h₁ s st p r ha hp _ =>
    obtain ⟨rfl, hx⟩ := List.append_inj' hl rfl
    cases hx
    exact ⟨s, st, ha, Or.inr ⟨p, r, rfl, hp, .refl⟩⟩

/-- How far the processes have got, with the returns of `b` yet to come. -/
def withhold (b : P → Option ρ) (st : P → Status α ρ) (p : P) : Status α ρ :=
  match b p with
  | none => st p
  | some r => .done r

omit [DecidableEq P] in
theorem withhold_none {p : P} (hb : b p = none) : withhold b st p = st p := by
  rw [withhold, hb]

theorem withhold_update {p : P} (hb : b p = none) (x : Status α ρ) :
    withhold b (Function.update st p x) = Function.update (withhold b st) p x := by
  funext q
  by_cases hq : q = p
  · subst hq
    rw [withhold_none hb, Function.update_self, Function.update_self]
  · rw [Function.update_of_ne hq, withhold, withhold, Function.update_of_ne hq]

theorem Effects.withhold (he : Effects alone s st t sv) (ha : Atomic alone s₀ h s (withhold b st))
    (hout : ∀ p, b p ≠ none → st p = .out) :
    Atomic alone s₀ h t (withhold b sv) ∧ ∀ p, b p ≠ none → sv p = .out := by
  induction he with
  | refl => exact ⟨ha, hout⟩
  | @tail t u sv p a r _ hp ht ih =>
    obtain ⟨ha, hout⟩ := ih
    have hb : b p = none := by
      by_contra hb
      rw [hout p hb] at hp
      cases hp
    refine ⟨?_, ?_⟩
    · rw [withhold_update hb]
      exact ha.effect ((withhold_none hb).trans hp) ht
    · intro q hq
      have hqp : q ≠ p := by
        rintro rfl
        exact hq hb
      rw [Function.update_of_ne hqp]
      exact hout q hq

/-- **The atomic object shows the later returns as well.** -/
theorem Postponed.atomic (hp : Postponed h h' b) (ha : Atomic alone s₀ h s st) :
    Atomic alone s₀ h' s (withhold b st) ∧ ∀ p, b p ≠ none → st p = .out := by
  induction hp generalizing s st with
  | nil => exact ⟨ha, fun p hb => absurd rfl hb⟩
  | @call h h' b p a _ hb ih =>
    obtain ⟨s₁, st₁, ha₁, ⟨_, _, hx, hst, he⟩ | ⟨_, _, hx, _⟩⟩ := ha.last
    · cases hx
      obtain ⟨ha', hout⟩ := ih ha₁
      refine he.withhold ?_ ?_
      · rw [withhold_update hb]
        exact ha'.call a ((withhold_none hb).trans hst)
      · intro q hq
        have hqp : q ≠ p := by
          rintro rfl
          exact hq hb
        rw [Function.update_of_ne hqp]
        exact hout q hq
    · cases hx
  | @hold h h' b p r _ hb ih =>
    obtain ⟨s₁, st₁, ha₁, ⟨_, _, hx, _⟩ | ⟨_, _, hx, hst, he⟩⟩ := ha.last
    · cases hx
    · cases hx
      obtain ⟨ha', hout⟩ := ih ha₁
      refine he.withhold ?_ ?_
      · -- to its caller the operation is done as before
        have hsame : withhold (Function.update b p (some r)) (Function.update st₁ p .out) =
            withhold b st₁ := by
          funext q
          by_cases hq : q = p
          · subst hq
            rw [withhold_none hb, hst, withhold, Function.update_self]
          · rw [withhold, withhold, Function.update_of_ne hq, Function.update_of_ne hq]
        rwa [hsame]
      · intro q hq
        by_cases hqp : q = p
        · rw [hqp, Function.update_self]
        · rw [Function.update_of_ne hqp] at hq ⊢
          exact hout q hq
  | @deliver h h' b p r _ hb ih =>
    obtain ⟨ha', hout⟩ := ih ha
    have hst : st p = .out := hout p (by rw [hb]; simp)
    refine ⟨?_, ?_⟩
    · have hret := ha'.ret (p := p) (r := r) (by rw [withhold, hb])
      have hsame : withhold (Function.update b p none) st =
          Function.update (withhold b st) p .out := by
        funext q
        by_cases hq : q = p
        · subst hq
          rw [withhold, Function.update_self, Function.update_self, hst]
        · rw [withhold, Function.update_of_ne hq, Function.update_of_ne hq, withhold]
      rwa [hsame]
    · intro q hq
      have hqp : q ≠ p := by
        rintro rfl
        exact hq (Function.update_self ..)
      rw [Function.update_of_ne hqp] at hq
      exact hout q hq

theorem Postponed.linearizable (hp : Postponed h h' b) (hl : Linearizable alone s₀ h s) :
    Linearizable alone s₀ h' s := by
  obtain ⟨st, ha⟩ := hl
  exact ⟨_, (hp.atomic ha).1⟩

end Linear
