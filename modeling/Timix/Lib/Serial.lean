import Mathlib.Data.List.Basic

/-!
# Serial executions

`alone s a r t` says that the operation `a`, carried out alone in `s`, returns `r` and leaves `t`.
`Serial alone l s t` carries out a whole list of operations with their results; a history of
overlapping operations is `Serializable` if some order of it is such an execution.
-/

set_option autoImplicit false

namespace Serialize

universe u v w

variable {σ : Type u} {α : Type v} {ρ : Type w} {alone : σ → α → ρ → σ → Prop}

/-- One operation after another, from `s` to `t`. -/
def Serial (alone : σ → α → ρ → σ → Prop) : List (α × ρ) → σ → σ → Prop
  | [], s, t => s = t
  | (a, r) :: l, s, u => ∃ t, alone s a r t ∧ Serial alone l t u

/-- In some order of `done`. -/
def Serializable (alone : σ → α → ρ → σ → Prop) (done : List (α × ρ)) (s t : σ) : Prop :=
  ∃ l, l.Perm done ∧ Serial alone l s t

theorem Serial.serializable {l : List (α × ρ)} {s t : σ} (h : Serial alone l s t) :
    Serializable alone l s t :=
  ⟨l, List.Perm.refl l, h⟩

theorem Serial.concat {a : α} {r : ρ} {t u : σ} (hlast : alone t a r u) :
    ∀ {l : List (α × ρ)} {s : σ}, Serial alone l s t → Serial alone (l ++ [(a, r)]) s u
  | [], s, h => by
    obtain rfl : s = t := h
    exact ⟨u, hlast, rfl⟩
  | (_, _) :: _, _, ⟨m, hm, h⟩ => ⟨m, hm, Serial.concat hlast h⟩

end Serialize
