import Mathlib.Logic.Basic

/-!
# Runs of an executable step function

`step s e = some t` is one step of a system from `s` under the event `e` (which names the
actor and its choice); `none` means the event is not enabled.  `exec step s es` plays a whole
list of events.  Rules:

* `exec_inv` — what every step preserves, every run preserves;
* `exec_inv_along` — the same when every step of the run meets a condition (`Along`);
* `exec_inv_hist` — invariants that speak about the events so far;
* `exec_budget` — a run has no more steps of a kind than a supply that these steps use up;
* `along_iff` — a condition along a run, event by event;
* `along_congr` — two conditions that agree at every step hold along the same runs;
* `always_iff` — a property of every state of a run, by what each step needs to keep it;
* `trace` — what the steps of a run show, `exec_inv_trace` the invariant rule that speaks about it.
-/

set_option autoImplicit false

namespace Lts

universe u v w

variable {σ : Type u} {ε : Type v} {step : σ → ε → Option σ}

/-- Play the events in order. -/
def exec (step : σ → ε → Option σ) : σ → List ε → Option σ
  | s, [] => some s
  | s, e :: es =>
    match step s e with
    | none => none
    | some t => exec step t es

/-- Every event of the run meets `ok` in the state in which it is played. -/
def Along (step : σ → ε → Option σ) (ok : σ → ε → Prop) : σ → List ε → Prop
  | _, [] => True
  | s, e :: es => ok s e ∧ ∀ t, step s e = some t → Along step ok t es

instance decidableAlong (ok : σ → ε → Prop) [∀ s e, Decidable (ok s e)] :
    ∀ (s : σ) (es : List ε), Decidable (Along step ok s es)
  | _, [] => isTrue trivial
  | s, e :: es =>
    match h : step s e with
    | none => decidable_of_iff (ok s e) ⟨fun hok => ⟨hok, by simp [h]⟩, And.left⟩
    | some t =>
      have := decidableAlong ok t es
      decidable_of_iff (ok s e ∧ Along step ok t es)
        ⟨fun hok => ⟨hok.1, by simpa [h] using hok.2⟩, fun hok => ⟨hok.1, hok.2 t h⟩⟩

@[simp] theorem exec_nil (s : σ) : exec step s [] = some s := rfl

theorem exec_cons {s u : σ} {e : ε} {es : List ε} :
    exec step s (e :: es) = some u ↔ ∃ t, step s e = some t ∧ exec step t es = some u := by
  rw [exec]
  cases step s e <;> simp

theorem exec_append {u : σ} (s : σ) (es fs : List ε) :
    exec step s (es ++ fs) = some u ↔ ∃ t, exec step s es = some t ∧ exec step t fs = some u := by
  induction es generalizing s with
  | nil => simp
  | cons e es ih =>
    simp only [List.cons_append, exec_cons, ih]
    constructor
    · rintro ⟨t, ht, m, hm, hu⟩
      exact ⟨m, ⟨t, ht, hm⟩, hu⟩
    · rintro ⟨m, ⟨t, ht, hm⟩, hu⟩
      exact ⟨t, ht, m, hm, hu⟩

theorem exec_concat {s u : σ} {es : List ε} {e : ε} :
    exec step s (es ++ [e]) = some u ↔ ∃ t, exec step s es = some t ∧ step t e = some u := by
  simp [exec_append, exec_cons]

/-- **Invariant rule, for runs whose steps all meet `ok`**; `I s hist` may speak about the events
    played so far. -/
theorem exec_inv_hist (ok : σ → ε → Prop) (I : σ → List ε → Prop)
    (hstep : ∀ s hist e t, I s hist → ok s e → step s e = some t → I t (hist ++ [e])) :
    ∀ (hist : List ε) {es : List ε} {s t : σ}, I s hist → Along step ok s es →
      exec step s es = some t → I t (hist ++ es)
  | hist, [], s, t, hs, _, h => by
    obtain rfl : s = t := Option.some.inj h
    rwa [List.append_nil]
  | hist, e :: es, s, t, hs, hok, h => by
    obtain ⟨m, hm, ht⟩ := exec_cons.1 h
    have := exec_inv_hist ok I hstep (hist ++ [e]) (hstep s hist e m hs hok.1 hm) (hok.2 m hm) ht
    rwa [List.append_assoc] at this

theorem exec_inv_along (ok : σ → ε → Prop) (I : σ → Prop)
    (hstep : ∀ s e t, I s → ok s e → step s e = some t → I t) {es : List ε} {s t : σ} (hs : I s)
    (hok : Along step ok s es) (h : exec step s es = some t) : I t :=
  exec_inv_hist ok (fun s _ => I s) (fun s _ e t => hstep s e t) [] hs hok h

theorem along_true : ∀ (s : σ) (es : List ε), Along step (fun _ _ => True) s es
  | _, [] => trivial
  | _, _ :: es => ⟨trivial, fun t _ => along_true t es⟩

theorem along_of_forall {ok : ε → Prop} :
    ∀ {es : List ε}, (∀ e ∈ es, ok e) → ∀ s : σ, Along step (fun _ e => ok e) s es
  | [], _, _ => trivial
  | e :: _, h, _ =>
    ⟨h e (List.mem_cons_self ..),
      fun t _ => along_of_forall (fun d hd => h d (List.mem_cons_of_mem e hd)) t⟩

theorem Along.and_forall {ok : σ → ε → Prop} {ok' : ε → Prop} :
    ∀ {es : List ε} {s : σ}, Along step ok s es → (∀ e ∈ es, ok' e) →
      Along step (fun s e => ok' e ∧ ok s e) s es
  | [], _, _, _ => trivial
  | e :: _, _, h, h' =>
    ⟨⟨h' e (List.mem_cons_self ..), h.1⟩,
      fun t ht => (h.2 t ht).and_forall fun d hd => h' d (List.mem_cons_of_mem e hd)⟩

/-- **Invariant rule.** -/
theorem exec_inv {I : σ → Prop} (hstep : ∀ s e t, I s → step s e = some t → I t) {es : List ε}
    {s t : σ} (hs : I s) (h : exec step s es = some t) : I t :=
  exec_inv_along _ I (fun s e t hs _ => hstep s e t hs) hs (along_true s es) h

/-- **Budget rule**: the steps that `costs` counts are paid for out of `fuel`, which no step
    refills. -/
theorem exec_budget {ok : σ → ε → Prop} {I : σ → Prop} {fuel : σ → Nat} {costs : ε → Bool}
    (hstep : ∀ s e t, I s → ok s e → step s e = some t →
      I t ∧ fuel t + (costs e).toNat ≤ fuel s) {es : List ε} {s t : σ} (hs : I s)
    (hok : Along step ok s es) (h : exec step s es = some t) :
    fuel t + es.countP costs ≤ fuel s := by
  induction es generalizing s with
  | nil =>
    obtain rfl : s = t := Option.some.inj h
    simp
  | cons e es ih =>
    obtain ⟨m, hm, ht⟩ := exec_cons.1 h
    obtain ⟨hI, hpaid⟩ := hstep s e m hs hok.1 hm
    have hrest := ih hI (hok.2 m hm) ht
    rw [List.countP_cons]
    cases hc : costs e <;> simp [hc] at hpaid ⊢ <;> omega

section Trace

variable {α : Type w} {label : σ → ε → List α}

/-- What the steps of a run show, one after the other. -/
def trace (step : σ → ε → Option σ) (label : σ → ε → List α) : σ → List ε → List α
  | _, [] => []
  | s, e :: es =>
    match step s e with
    | none => []
    | some t => label s e ++ trace step label t es

/-- **Invariant rule, for runs whose steps all meet `ok`**; `I s l` may speak about what has been
    shown so far. -/
theorem exec_inv_trace_along (ok : σ → ε → Prop) {I : σ → List α → Prop}
    (hstep : ∀ s l e t, I s l → ok s e → step s e = some t → I t (l ++ label s e)) :
    ∀ {l : List α} {es : List ε} {s t : σ}, I s l → Along step ok s es →
      exec step s es = some t → I t (l ++ trace step label s es)
  | l, [], s, t, hs, _, h => by
    obtain rfl : s = t := Option.some.inj h
    rwa [trace, List.append_nil]
  | l, e :: es, s, t, hs, hok, h => by
    obtain ⟨m, hm, ht⟩ := exec_cons.1 h
    have := exec_inv_trace_along ok hstep (hstep s l e m hs hok.1 hm) (hok.2 m hm) ht
    rw [List.append_assoc] at this
    simpa only [trace, hm] using this

/-- The same for all runs. -/
theorem exec_inv_trace {I : σ → List α → Prop}
    (hstep : ∀ s l e t, I s l → step s e = some t → I t (l ++ label s e)) {l : List α}
    {es : List ε} {s t : σ} (hs : I s l) (h : exec step s es = some t) :
    I t (l ++ trace step label s es) :=
  exec_inv_trace_along _ (fun s l e t hs _ => hstep s l e t hs) hs (along_true s es) h

/-- What is shown is shown by an event of the run. -/
theorem mem_trace {a : α} {es : List ε} {s : σ} (h : a ∈ trace step label s es) :
    ∃ e ∈ es, ∃ t, a ∈ label t e := by
  induction es generalizing s with
  | nil => cases h
  | cons e es ih =>
    simp only [trace] at h
    split at h
    · cases h
    · rcases List.mem_append.1 h with ha | ha
      · exact ⟨e, List.mem_cons_self, s, ha⟩
      · obtain ⟨d, hd, t, hlab⟩ := ih ha
        exact ⟨d, List.mem_cons_of_mem e hd, t, hlab⟩

/-- What an event always shows, a run with the event shows. -/
theorem mem_trace_of_mem {a : α} {e : ε} {es : List ε} {s t : σ} (he : e ∈ es)
    (hlab : ∀ m n, step m e = some n → a ∈ label m e) (h : exec step s es = some t) :
    a ∈ trace step label s es := by
  induction es generalizing s with
  | nil => cases he
  | cons d es ih =>
    obtain ⟨m, hm, ht⟩ := exec_cons.1 h
    simp only [trace, hm, List.mem_append]
    rcases List.mem_cons.1 he with rfl | he
    · exact Or.inl (hlab s m hm)
    · exact Or.inr (ih he ht)

end Trace

theorem along_append {ok : σ → ε → Prop} (s : σ) (es fs : List ε) :
    Along step ok s (es ++ fs) ↔
      Along step ok s es ∧ ∀ t, exec step s es = some t → Along step ok t fs := by
  induction es generalizing s with
  | nil => simp [Along]
  | cons e es ih =>
    simp only [List.cons_append, Along, exec_cons, ih]
    constructor
    · rintro ⟨h1, h2⟩
      exact ⟨⟨h1, fun t ht => (h2 t ht).1⟩, fun t ⟨m, hm, ht⟩ => (h2 m hm).2 t ht⟩
    · rintro ⟨⟨h1, h2⟩, h3⟩
      exact ⟨h1, fun m hm => ⟨h2 m hm, fun t ht => h3 t ⟨m, hm, ht⟩⟩⟩

/-- The condition holds along a run if it holds at every event of it. -/
theorem along_iff {ok : σ → ε → Prop} : ∀ {s : σ} {es : List ε}, Along step ok s es ↔
    ∀ pre e post t, es = pre ++ e :: post → exec step s pre = some t → ok t e
  | s, [] => by
    refine iff_of_true trivial ?_
    intro pre e post t h
    cases pre <;> cases h
  | s, d :: es => by
    constructor
    · rintro ⟨hd, hes⟩ pre e post t h ht
      cases pre with
      | nil =>
        obtain ⟨rfl, rfl⟩ := List.cons.inj h
        obtain rfl : s = t := Option.some.inj ht
        exact hd
      | cons a pre =>
        obtain ⟨rfl, rfl⟩ := List.cons.inj h
        obtain ⟨m, hm, hpre⟩ := exec_cons.1 ht
        exact along_iff.1 (hes m hm) pre e post t rfl hpre
    · intro h
      refine ⟨h [] d es s rfl rfl, ?_⟩
      intro m hm
      rw [along_iff]
      intro pre e post t hes ht
      exact h (d :: pre) e post t (by rw [hes]; rfl) (exec_cons.2 ⟨m, hm, ht⟩)

/-- Two conditions that agree at every step that meets `ok` from a state with the invariant. -/
theorem along_congr {ok P Q : σ → ε → Prop} {I : σ → Prop}
    (hstep : ∀ s e t, I s → ok s e → step s e = some t → (P s e ↔ Q s e) ∧ I t) {es : List ε}
    {s u : σ} (hs : I s) (hok : Along step ok s es) (h : exec step s es = some u) :
    Along step P s es ↔ Along step Q s es := by
  induction es generalizing s with
  | nil => exact Iff.rfl
  | cons e es ih =>
    obtain ⟨t, ht, hu⟩ := exec_cons.1 h
    obtain ⟨hiff, hI⟩ := hstep s e t hs hok.1 ht
    have hrest := ih hI (hok.2 t ht) hu
    simp only [Along, ht, Option.some_inj, forall_eq', hiff, hrest]

/-- If a step from a state with `ok` keeps it exactly under `P`, then `ok` holds in every state of a
    run exactly if `P` holds along it. -/
theorem always_iff {ok I : σ → Prop} {P : σ → ε → Prop}
    (hstep : ∀ s e t, I s → ok s → step s e = some t → I t ∧ (ok t ↔ P s e)) {es : List ε}
    {s u : σ} (hs : I s) (hok : ok s) (h : exec step s es = some u) :
    (∀ pre post t, es = pre ++ post → exec step s pre = some t → ok t) ↔ Along step P s es := by
  induction es generalizing s with
  | nil =>
    refine iff_of_true ?_ trivial
    intro pre post t hes ht
    obtain ⟨rfl, rfl⟩ := List.append_eq_nil_iff.1 hes.symm
    obtain rfl : s = t := Option.some.inj ht
    exact hok
  | cons e es ih =>
    obtain ⟨m, hm, hu⟩ := exec_cons.1 h
    obtain ⟨hI, hiff⟩ := hstep s e m hs hok hm
    constructor
    · intro hall
      have hokm : ok m := hall [e] es m rfl (exec_cons.2 ⟨m, hm, rfl⟩)
      refine ⟨hiff.1 hokm, ?_⟩
      intro t ht
      obtain rfl : m = t := Option.some.inj (hm.symm.trans ht)
      rw [← ih hI hokm hu]
      intro pre post v hes hv
      exact hall (e :: pre) post v (by rw [hes]; rfl) (exec_cons.2 ⟨m, hm, hv⟩)
    · rintro ⟨hP, hrest⟩ pre post t hes ht
      have hokm : ok m := hiff.2 hP
      cases pre with
      | nil =>
        obtain rfl : s = t := Option.some.inj ht
        exact hok
      | cons a pre =>
        obtain ⟨rfl, rfl⟩ := List.cons.inj hes
        obtain ⟨v, hv, ht⟩ := exec_cons.1 ht
        obtain rfl : m = v := Option.some.inj (hm.symm.trans hv)
        exact (ih hI hokm hu).2 (hrest m hm) pre post t rfl ht

end Lts
