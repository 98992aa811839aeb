import Timix.VariableQueue

/-!
# `Q_INSERT_AFTER` (`include/timix/variable_queue.h`)

The macro has a case for the tail and one for the interior that share their last two assignments
through the scratch field `ptr`.  In the interior case `ptr` is the successor of the given
element, not the element itself, so the shared assignments link the new element and that
successor to each other.

* `insertAfter_tail` — behind the tail the macro does what it says.
* `insertAfter_interior` — elsewhere `next` leads into a cycle of two elements.

Principal result: `insert_after_correct_iff`.
-/

set_option autoImplicit false

namespace Timix.Queue

open Links

variable {H E : Type} [DecidableEq H] [DecidableEq E]

/-- `Q_INSERT_AFTER`; `none` when it writes through `ptr` while that is `NULL`. -/
def qInsertAfter (s : QHeap H E) (q : H) (inq e : E) : Option (QHeap H E) := do
  let s ←
    if s.tail q = some inq then
      let s := s.setPtr q (s.tail q)
      some (s.setTail q (some e))
    else
      let s := s.setPtr q (s.next inq)
      match s.ptr q with
      | none => none
      | some a =>
        let s := s.setPrev a (some e)
        some (s.setNext e (s.ptr q))
  match s.ptr q with
  | none => none
  | some a =>
    let s := s.setNext a (some e)
    some (s.setPrev e (s.ptr q))

/-- A well-formed queue: `next` leads from the head through the list to `NULL`, `prev` from the
    tail back through it. -/
structure WellFormed (s : QHeap H E) (q : H) (l : List E) : Prop where
  fwd : Chain s.next (s.head q) l
  bwd : Chain s.prev (s.tail q) l.reverse
  nodup : l.Nodup

variable {s : QHeap H E} {q : H} {i e : E} {xs ys : List E}

omit [DecidableEq H] [DecidableEq E] in
theorem WellFormed.tail (h : WellFormed s q xs) : s.tail q = xs.getLast? := by
  rw [h.bwd.head, List.head?_reverse]

/-! ## The fields after the macro -/

theorem qInsertAfter_tail (ht : s.tail q = some i) :
    qInsertAfter s q i e = some
      { next := Function.update s.next i (some e)
        prev := Function.update s.prev e (some i)
        head := s.head
        tail := Function.update s.tail q (some e)
        ptr := Function.update s.ptr q (some i) } := by
  simp [qInsertAfter, QHeap.setNext, QHeap.setPrev, QHeap.setTail, QHeap.setPtr, ht]

theorem qInsertAfter_interior {b : E} (ht : s.tail q ≠ some i) (hb : s.next i = some b) :
    qInsertAfter s q i e = some
      { next := Function.update (Function.update s.next e (some b)) b (some e)
        prev := Function.update (Function.update s.prev b (some e)) e (some b)
        head := s.head
        tail := s.tail
        ptr := Function.update s.ptr q (some b) } := by
  simp [qInsertAfter, QHeap.setNext, QHeap.setPrev, QHeap.setPtr, ht, hb]

/-! ## The two cases -/

/-- Behind the tail. -/
theorem insertAfter_tail (h : WellFormed s q (xs ++ [i])) (he : e ∉ xs ++ [i])
    (hn : s.next e = none) :
    ∃ s', qInsertAfter s q i e = some s' ∧ WellFormed s' q (xs ++ [i, e]) := by
  have ht : s.tail q = some i := by rw [h.tail, List.getLast?_concat]
  have hfwd := h.fwd.snoc h.nodup he hn
  have hhead : s.head q ≠ none := by
    intro hz
    exact absurd (h.fwd.eq_nil_iff.1 hz) (by simp)
  rw [List.getLast?_concat, relink_some, if_neg hhead, List.append_assoc] at hfwd
  have hbwd := h.bwd.cons (e := e) (by rwa [List.mem_reverse])
  refine ⟨_, qInsertAfter_tail ht, hfwd, ?_, ?_⟩
  · rw [ht] at hbwd
    simpa using hbwd
  · have := List.nodup_append.2 ⟨h.nodup, List.nodup_singleton e, fun a ha b hb => by
      rw [List.mem_singleton.1 hb]
      exact ne_of_mem_of_not_mem ha he⟩
    rwa [List.append_assoc] at this

/-- In the interior: `next` of the successor and `next` of the new element lead to each other. -/
theorem insertAfter_interior {b : E} (h : WellFormed s q (xs ++ i :: b :: ys))
    (he : e ∉ xs ++ i :: b :: ys) :
    ∃ s', qInsertAfter s q i e = some s' ∧ s'.next i = some b ∧ s'.next b = some e ∧
      s'.next e = some b ∧ ∀ n, qForeach s' n q = none := by
  obtain ⟨hnx, hni, hdisj⟩ := List.nodup_append.1 h.nodup
  obtain ⟨hib, _⟩ := List.nodup_cons.1 hni
  have hib' : i ≠ b := fun hib' => hib (by simp [hib'])
  have hei : i ≠ e := fun hei => he (by simp [hei])
  have heb : e ≠ b := fun heb => he (by simp [heb])
  have ht : s.tail q ≠ some i := by
    rw [h.tail]
    intro hlast
    rw [List.getLast?_append_cons, List.getLast?_cons_cons] at hlast
    exact hib (List.mem_of_getLast? hlast)
  have hb : s.next i = some b := h.fwd.link
  refine ⟨_, qInsertAfter_interior ht hb, ?_, ?_, ?_, ?_⟩
  · simp [Function.update_of_ne hib', Function.update_of_ne hei, hb]
  · simp
  · simp [Function.update_of_ne heb]
  · intro n
    obtain ⟨m, hxs, him, _⟩ := seg_append.1 h.fwd
    -- the elements before the cycle keep their links
    have hseg : Seg (Function.update (Function.update s.next e (some b)) b (some e)) (s.head q)
        (xs ++ [i]) (some b) := by
      have hbx : b ∉ xs ++ [i] := by
        rw [List.mem_append, List.mem_singleton, not_or]
        exact ⟨fun hm => hdisj b hm b (by simp) rfl, Ne.symm hib'⟩
      have hex : e ∉ xs ++ [i] := by
        intro hm
        exact he (by simpa using Or.imp_right Or.inl (by simpa using hm))
      refine Seg.frame hbx (Seg.frame hex (seg_append.2 ⟨m, hxs, him, ?_⟩))
      exact hb
    have hcycle := walk_cycle (a := b) (b := e)
      (f := Function.update (Function.update s.next e (some b)) b (some e)) (by simp)
      (by simp [Function.update_of_ne heb])
    exact Seg.walk_eq_none (fun n => (hcycle n).1) n hseg

/-- **When `Q_INSERT_AFTER` inserts right after the given element**: exactly if that is the tail.
Then the queue represents the list with the new element behind the given one and `Q_FOREACH` over
it visits that list; otherwise no loop over it ends. -/
theorem insert_after_correct_iff (h : WellFormed s q (xs ++ i :: ys)) (he : e ∉ xs ++ i :: ys)
    (hn : s.next e = none) :
    ∃ s', qInsertAfter s q i e = some s' ∧
      (WellFormed s' q (xs ++ i :: e :: ys) ↔ ys = []) ∧
      ((∃ n, qForeach s' n q = some (xs ++ i :: e :: ys)) ↔ ys = []) ∧
      (ys ≠ [] → ∀ n, qForeach s' n q = none) := by
  cases ys with
  | nil =>
    obtain ⟨s', hs', hw⟩ := insertAfter_tail h he hn
    exact ⟨s', hs', iff_of_true hw rfl, iff_of_true ⟨_, hw.fwd.walk (Nat.le_refl _)⟩ rfl,
      fun hne => absurd rfl hne⟩
  | cons b ys =>
    obtain ⟨s', hs', hi, _, _, hloop⟩ := insertAfter_interior h he
    refine ⟨s', hs', iff_of_false ?_ (by simp), iff_of_false ?_ (by simp), fun _ => hloop⟩
    · intro hw
      have hie : s'.next i = some e := hw.fwd.link
      rw [hi] at hie
      exact he (by simp [Option.some.inj hie])
    · rintro ⟨n, hn⟩
      rw [hloop n] at hn
      cases hn

/-- The queue 0, 1 with element 2 outside. -/
def pairQueue : QHeap Unit Nat where
  next n := if n = 0 then some 1 else none
  prev n := if n = 1 then some 0 else none
  head _ := some 0
  tail _ := some 1
  ptr _ := none

theorem pairQueue_wellFormed : WellFormed pairQueue () [0, 1] :=
  ⟨⟨rfl, rfl, rfl⟩, ⟨rfl, rfl, rfl⟩, by decide⟩

/-- Inserting 2 after 0: 1 and 2 follow each other for ever. -/
theorem insert_after_head_loops : ∃ s', qInsertAfter pairQueue () 0 2 = some s' ∧
    WellFormed pairQueue () [0, 1] ∧ pairQueue.next 2 = none ∧ pairQueue.prev 2 = none ∧
    s'.next 0 = some 1 ∧ s'.next 1 = some 2 ∧ s'.next 2 = some 1 ∧
    ¬ WellFormed s' () [0, 2, 1] := by
  refine ⟨_, rfl, pairQueue_wellFormed, rfl, rfl, rfl, rfl, rfl, ?_⟩
  intro h
  exact absurd (show (some 1 : Option Nat) = some 2 from h.fwd.2.1) (by decide)

/-- Inserting 2 after 1. -/
theorem insert_after_tail_appends : ∃ s', qInsertAfter pairQueue () 1 2 = some s' ∧
    WellFormed s' () [0, 1, 2] := by
  obtain ⟨s', hs', hw, _⟩ := insert_after_correct_iff (e := 2)
    (show WellFormed pairQueue () ([0] ++ 1 :: []) from pairQueue_wellFormed) (by decide) rfl
  exact ⟨s', hs', hw.2 rfl⟩

end Timix.Queue
