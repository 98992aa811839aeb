import Timix.Lib.Refine

/-!
# Clients of an object

A client takes steps of its own, and steps in which it takes what an object shows.  Together they
are a system again (`Client.over`), which shows what the client shows.

* `Simulates.over` — over a lower object a client refines itself over the upper one.
* `Simulates.trans` — refinements compose.
-/

set_option autoImplicit false

namespace Lts

universe u

variable {σ ε τ δ τ' δ' α β : Type u}

/-- `label` is what the client's own steps show, `shows` what it shows when it takes an act of the
    object. -/
structure Client (σ ε α β : Type u) where
  step : σ → ε → Option σ
  label : σ → ε → List β
  accept : σ → α → Option σ
  shows : σ → α → List β

/-- The client and the object: a step of the client, or a step of the object and the client takes
    what it shows. -/
def Client.over (C : Client σ ε α β) (obj : τ → δ → Option τ) (lab : τ → δ → List α) :
    σ × τ → ε ⊕ δ → Option (σ × τ)
  | (s, o), .inl e =>
    match C.step s e with
    | none => none
    | some s' => some (s', o)
  | (s, o), .inr d =>
    match obj o d, exec C.accept s (lab o d) with
    | some o', some s' => some (s', o')
    | _, _ => none

def Client.overLabel (C : Client σ ε α β) (lab : τ → δ → List α) : σ × τ → ε ⊕ δ → List β
  | (s, _), .inl e => C.label s e
  | (s, o), .inr d => trace C.accept C.shows s (lab o d)

variable {C : Client σ ε α β} {obj : τ → δ → Option τ} {lab : τ → δ → List α}
  {obj' : τ' → δ' → Option τ'} {lab' : τ' → δ' → List α} {s s' : σ} {o o' : τ}

theorem over_inl {e : ε} {x : σ × τ} :
    C.over obj lab (s, o) (.inl e) = some x ↔ C.step s e = some x.1 ∧ x.2 = o := by
  obtain ⟨s', o'⟩ := x
  simp only [Client.over]
  cases C.step s e with
  | none => simp
  | some t => simp [eq_comm]

theorem over_inr {d : δ} {x : σ × τ} :
    C.over obj lab (s, o) (.inr d) = some x ↔
      obj o d = some x.2 ∧ exec C.accept s (lab o d) = some x.1 := by
  obtain ⟨s', o'⟩ := x
  simp only [Client.over]
  cases obj o d with
  | none => simp
  | some o₁ =>
    cases exec C.accept s (lab o d) with
    | none => simp
    | some s₁ => simp [and_comm]

theorem exec_single {ω η γ : Type u} {step : ω → η → Option ω} (label : ω → η → List γ) {m n : ω}
    {e : η} (h : exec step m [e] = some n) :
    step m e = some n ∧ trace step label m [e] = label m e := by
  obtain ⟨k, hk, hn⟩ := exec_cons.1 h
  obtain rfl : k = n := Option.some.inj hn
  exact ⟨hk, by simp only [trace, hk, List.append_nil]⟩

theorem trace_append {ω η : Type u} {γ : Type u} {step : ω → η → Option ω}
    {label : ω → η → List γ} {m n : ω} {es : List η} (fs : List η)
    (h : exec step m es = some n) :
    trace step label m (es ++ fs) = trace step label m es ++ trace step label n fs := by
  induction es generalizing m with
  | nil =>
    obtain rfl : m = n := Option.some.inj h
    rfl
  | cons e es ih =>
    obtain ⟨k, hk, hes⟩ := exec_cons.1 h
    simp only [List.cons_append, trace, hk, ih hes, List.append_assoc]

/-- A run of the object, taken by the client. -/
theorem Shows.over {l : List α} (ho : Shows obj lab o l o') (hs : exec C.accept s l = some s') :
    Shows (C.over obj lab) (C.overLabel lab) (s, o) (trace C.accept C.shows s l) (s', o') := by
  obtain ⟨ds, hds, rfl⟩ := ho
  induction ds generalizing s o with
  | nil =>
    obtain rfl : o = o' := Option.some.inj hds
    obtain rfl : s = s' := Option.some.inj hs
    exact .refl _
  | cons d ds ih =>
    obtain ⟨o₁, ho₁, hds⟩ := exec_cons.1 hds
    simp only [trace, ho₁] at hs ⊢
    obtain ⟨s₁, hs₁, hs⟩ := (exec_append ..).1 hs
    rw [trace_append _ hs₁]
    exact .cons (Sum.inr d) (over_inr.2 ⟨ho₁, hs₁⟩) (ih hds hs)

/-- **Replacement.** -/
theorem Simulates.over {ok : δ → Prop} {R : τ → τ' → Prop} (h : Simulates obj lab ok obj' lab' R)
    (C : Client σ ε α β) :
    Simulates (C.over obj lab) (C.overLabel lab) (fun e => ∀ d, e = .inr d → ok d)
      (C.over obj' lab') (C.overLabel lab') fun x y => x.1 = y.1 ∧ R x.2 y.2 := by
  rintro ⟨s, o⟩ (e | d) ⟨s', o'⟩ ⟨_, m⟩ ⟨rfl, hR⟩ hok hs
  · obtain ⟨hstep, rfl⟩ := over_inl.1 hs
    exact ⟨(s', m), .single (Sum.inl e) (over_inl.2 ⟨hstep, rfl⟩), rfl, hR⟩
  · obtain ⟨ho, htake⟩ := over_inr.1 hs
    obtain ⟨m', hm, hR'⟩ := h o d o' m hR (hok d rfl) ho
    exact ⟨(s', m'), hm.over htake, rfl, hR'⟩

/-- **Refinements compose.** -/
theorem Simulates.trans {ω η : Type u} {up : ω → η → Option ω} {labU : ω → η → List α}
    {ok : δ → Prop} {R : τ → τ' → Prop} {S : τ' → ω → Prop}
    (h : Simulates obj lab ok obj' lab' R) (h' : Simulates obj' lab' (fun _ => True) up labU S) :
    Simulates obj lab ok up labU fun x z => ∃ y, R x y ∧ S y z := by
  rintro o d o' z ⟨y, hR, hS⟩ hok ho
  obtain ⟨y', ⟨ds, hds, htrace⟩, hR'⟩ := h o d o' y hR hok ho
  obtain ⟨z', hz, hS'⟩ := h'.refines hS (fun _ _ => trivial) hds
  exact ⟨z', htrace ▸ hz, y', hR', hS'⟩

end Lts
