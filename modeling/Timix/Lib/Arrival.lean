import Mathlib.Data.List.Basic
import Timix.Lib.Run

/-!
# Order of arrival

A collection is observed along a run: `view s` lists who is there, in whatever order the system
keeps them.  `advance order now` brings an order of arrival up to date, dropping who has left and
putting who is new behind the others; `arrivals step view order s es` is the order of arrival after
the run.

* `Stacks` — one step of a collection that keeps its newest member in front.
* `arrivals_of_stacks` — such a collection is always the order of arrival backwards.
-/

set_option autoImplicit false

namespace Arrival

universe u v w

variable {σ : Type u} {ε : Type v} {α : Type w} [DecidableEq α] {now next : List α}

/-- Who has stayed, then who is new. -/
def advance (order now : List α) : List α :=
  order.filter (fun a => a ∈ now) ++ now.filter fun a => a ∉ order

def arrivals (step : σ → ε → Option σ) (view : σ → List α) : List α → σ → List ε → List α
  | order, _, [] => order
  | order, s, e :: es =>
    match step s e with
    | none => order
    | some t => arrivals step view (advance order (view t)) t es

/-- A newcomer goes to the front, or some members leave. -/
inductive Stacks (now : List α) : List α → Prop where
  | push {a : α} (ha : a ∉ now) : Stacks now (a :: now)
  | leave (p : α → Bool) : Stacks now (now.filter p)

omit [DecidableEq α] in
theorem Stacks.refl (now : List α) : Stacks now now := by
  have h : Stacks now (now.filter fun _ => true) := Stacks.leave _
  rwa [List.filter_true] at h

theorem Stacks.advance (h : Stacks now next) :
    advance now.reverse next = next.reverse := by
  unfold Arrival.advance
  cases h with
  | @push a ha =>
    have hstay : now.reverse.filter (fun b => b ∈ a :: now) = now.reverse := by
      rw [List.filter_eq_self]
      intro b hb
      simpa using Or.inr (List.mem_reverse.1 hb)
    have hnew : (a :: now).filter (fun b => b ∉ now.reverse) = [a] := by
      rw [List.filter_cons_of_pos (by simpa using ha), List.filter_eq_nil_iff.2]
      intro b hb
      simpa using hb
    rw [hstay, hnew, List.reverse_cons]
  | leave p =>
    have hstay : now.reverse.filter (fun b => b ∈ now.filter p) = (now.filter p).reverse := by
      rw [← List.filter_reverse]
      apply List.filter_congr
      intro b hb
      simp [List.mem_reverse.1 hb]
    have hnew : (now.filter p).filter (fun b => b ∉ now.reverse) = [] := by
      rw [List.filter_eq_nil_iff]
      intro b hb
      simpa using (List.mem_filter.1 hb).1
    rw [hstay, hnew, List.append_nil]

/-- **Newest in front**: the collection is the order of arrival backwards. -/
theorem arrivals_of_stacks {step : σ → ε → Option σ} {view : σ → List α} {I : σ → Prop}
    (hstep : ∀ s e t, I s → step s e = some t → I t ∧ Stacks (view s) (view t))
    {es : List ε} {s t : σ} (hs : I s) (h : Lts.exec step s es = some t) :
    arrivals step view (view s).reverse s es = (view t).reverse := by
  induction es generalizing s with
  | nil =>
    obtain rfl : s = t := Option.some.inj h
    rfl
  | cons e es ih =>
    obtain ⟨m, hm, ht⟩ := Lts.exec_cons.1 h
    obtain ⟨hI, hst⟩ := hstep s e m hs hm
    simp only [arrivals, hm, hst.advance]
    exact ih hI ht

end Arrival
