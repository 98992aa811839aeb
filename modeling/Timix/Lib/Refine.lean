import Timix.Lib.Run

/-!
# Refinement

A system refines another if whatever its runs show, a run of the other shows as well.

* `Shows` — a run that ends in a given state and shows a given list.
* `Simulates` — every step of the lower system is answered by steps of the upper one that show the
  same and end in a related state.
* `SimulatesAlong` — the same for the steps that meet a condition where they are taken.
* `SimulatesAlong.refines`, `Simulates.refines` — then every run of the lower system is answered by
  one of the upper.
-/

set_option autoImplicit false

namespace Lts

universe u v w

variable {σ ε τ δ : Type u} {α : Type w}

section Shows

variable {step : σ → ε → Option σ} {label : σ → ε → List α}

/-- Some run from `s` to `t` shows `l`. -/
def Shows (step : σ → ε → Option σ) (label : σ → ε → List α) (s : σ) (l : List α) (t : σ) : Prop :=
  ∃ es, exec step s es = some t ∧ trace step label s es = l

theorem Shows.refl (s : σ) : Shows step label s [] s := ⟨[], rfl, rfl⟩

/-- A step, then a run. -/
theorem Shows.cons {s m t : σ} {l : List α} (e : ε) (he : step s e = some m)
    (h : Shows step label m l t) : Shows step label s (label s e ++ l) t := by
  obtain ⟨es, hes, rfl⟩ := h
  exact ⟨e :: es, exec_cons.2 ⟨m, he, hes⟩, by simp only [trace, he]⟩

theorem Shows.single {s t : σ} (e : ε) (he : step s e = some t) :
    Shows step label s (label s e) t := by
  simpa using Shows.cons e he (Shows.refl t)

theorem Shows.trans {s m t : σ} {l k : List α} (h : Shows step label s l m)
    (h' : Shows step label m k t) : Shows step label s (l ++ k) t := by
  obtain ⟨es, hes, rfl⟩ := h
  induction es generalizing s with
  | nil =>
    obtain rfl : s = m := Option.some.inj hes
    exact h'
  | cons e es ih =>
    obtain ⟨n, hn, hes⟩ := exec_cons.1 hes
    simpa only [trace, hn, List.append_assoc] using Shows.cons e hn (ih hes)

end Shows

/-- `R` relates the states of the lower system to those of the upper one; `ok` restricts the events
that have to be answered. -/
def Simulates (lower : σ → ε → Option σ) (labelL : σ → ε → List α) (ok : ε → Prop)
    (upper : τ → δ → Option τ) (labelU : τ → δ → List α) (R : σ → τ → Prop) : Prop :=
  ∀ s e s' m, R s m → ok e → lower s e = some s' →
    ∃ m', Shows upper labelU m (labelL s e) m' ∧ R s' m'

variable {lower : σ → ε → Option σ} {labelL : σ → ε → List α} {ok : ε → Prop}
  {upper : τ → δ → Option τ} {labelU : τ → δ → List α} {R : σ → τ → Prop}

/-- `ok` may look at the state in which the event is played. -/
def SimulatesAlong (lower : σ → ε → Option σ) (labelL : σ → ε → List α) (ok : σ → ε → Prop)
    (upper : τ → δ → Option τ) (labelU : τ → δ → List α) (R : σ → τ → Prop) : Prop :=
  ∀ s e s' m, R s m → ok s e → lower s e = some s' →
    ∃ m', Shows upper labelU m (labelL s e) m' ∧ R s' m'

/-- **Forward simulation.** -/
theorem SimulatesAlong.refines {ok : σ → ε → Prop}
    (h : SimulatesAlong lower labelL ok upper labelU R) {es : List ε} {s s' : σ} {m : τ}
    (hR : R s m) (hok : Along lower ok s es) (hs : exec lower s es = some s') :
    ∃ m', Shows upper labelU m (trace lower labelL s es) m' ∧ R s' m' := by
  induction es generalizing s m with
  | nil =>
    obtain rfl : s = s' := Option.some.inj hs
    exact ⟨m, Shows.refl m, hR⟩
  | cons e es ih =>
    obtain ⟨t, ht, hs⟩ := exec_cons.1 hs
    obtain ⟨n, hn, hRn⟩ := h s e t m hR hok.1 ht
    obtain ⟨m', hm', hR'⟩ := ih hRn (hok.2 t ht) hs
    refine ⟨m', ?_, hR'⟩
    simpa only [trace, ht] using hn.trans hm'

/-- The same for a condition on the events alone. -/
theorem Simulates.refines (h : Simulates lower labelL ok upper labelU R) {es : List ε} {s s' : σ}
    {m : τ} (hR : R s m) (hok : ∀ e ∈ es, ok e) (hs : exec lower s es = some s') :
    ∃ m', Shows upper labelU m (trace lower labelL s es) m' ∧ R s' m' :=
  SimulatesAlong.refines (fun s e s' m hR hok => h s e s' m hR hok) hR (along_of_forall hok s) hs

end Lts
