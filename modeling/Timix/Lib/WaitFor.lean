import Mathlib.Logic.Relation

/-!
# Wait-for graphs

`wants i` is the lock actor `i` waits for and `holds k i` says that `i` holds lock `k`.  `WaitsFor`
is the graph of the actors, `Deadlocked` that it has a cycle.

* `OnCycle.waits` — everybody on a cycle waits for somebody on a cycle, and is waited for;
* `OnCycle.not_of_rank` — nobody is on a cycle if a rank grows from each one on it to the next;
* `deadlocked_self`, `deadlocked_pair` — cycles of one and of two.
-/

set_option autoImplicit false

namespace WaitFor

open Relation

variable {I K : Type} {wants : I → Option K} {holds : K → I → Prop} {i j : I} {k l : K}

/-- `i` waits for a lock that `j` holds. -/
def WaitsFor (wants : I → Option K) (holds : K → I → Prop) (i j : I) : Prop :=
  ∃ k, wants i = some k ∧ holds k j

def OnCycle (wants : I → Option K) (holds : K → I → Prop) (i : I) : Prop :=
  TransGen (WaitsFor wants holds) i i

def Deadlocked (wants : I → Option K) (holds : K → I → Prop) : Prop :=
  ∃ i, OnCycle wants holds i

/-- The next one on the cycle. -/
theorem OnCycle.waits (h : OnCycle wants holds i) :
    ∃ j, WaitsFor wants holds i j ∧ OnCycle wants holds j := by
  obtain ⟨j, hij, hji⟩ := TransGen.head'_iff.1 h
  exact ⟨j, hij, TransGen.tail' hji hij⟩

/-- The one before on the cycle. -/
theorem OnCycle.waited (h : OnCycle wants holds i) :
    ∃ j, WaitsFor wants holds j i ∧ OnCycle wants holds j := by
  obtain ⟨j, hij, hji⟩ := TransGen.tail'_iff.1 h
  exact ⟨j, hji, TransGen.head' hji hij⟩

/-- **Ranks**: along a cycle through `P` the rank would grow for ever. -/
theorem OnCycle.not_of_rank {P : I → Prop} {r : I → Nat}
    (hP : ∀ i j, P i → WaitsFor wants holds i j → OnCycle wants holds j → P j ∧ r i < r j)
    (h : OnCycle wants holds i) : ¬ P i := by
  intro hi
  have hgrow : ∀ j, TransGen (WaitsFor wants holds) j i →
      ReflTransGen (WaitsFor wants holds) i j → P j → r j < r i := by
    intro j hj
    induction hj using TransGen.head_induction_on with
    | single hji => exact fun _ hPj => (hP _ i hPj hji h).2
    | head hjk hki ih =>
      intro hij hPj
      have hik := hij.tail hjk
      obtain ⟨hPk, hlt⟩ := hP _ _ hPj hjk (hki.trans_left hik)
      exact Nat.lt_trans hlt (ih hik hPk)
  exact Nat.lt_irrefl _ (hgrow i h .refl hi)

theorem deadlocked_self (hi : wants i = some k) (hk : holds k i) : Deadlocked wants holds :=
  ⟨i, TransGen.single ⟨k, hi, hk⟩⟩

theorem deadlocked_pair (hi : wants i = some k) (hk : holds k j) (hj : wants j = some l)
    (hl : holds l i) : Deadlocked wants holds :=
  ⟨i, (TransGen.single ⟨k, hi, hk⟩).tail ⟨l, hj, hl⟩⟩

end WaitFor
