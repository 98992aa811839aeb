import Mathlib.Tactic.Tauto
import Timix.Lib.Chain
import Timix.Lib.Run

/-!
# The intrusive queue macros (`include/timix/variable_queue.h`)

Pointer-level model of the queue macros for one `LINK_NAME`: `QHeap` holds the `next` / `prev`
fields of every element (`Q_NEW_LINK`) and the `head` / `tail` / `ptr` fields of every head
(`Q_NEW_HEAD`).  `NULL` is `none`; a macro that writes through a pointer it has not tested
returns `none` when that pointer is `NULL`.  Each definition is the assignment sequence of its
macro, in the macro's order.

`Represents s L` relates a heap to one list for each head.  Principal results:
`qInsertFront_spec` … `qConcat_spec` — every macro, used as its documentation allows, keeps
the heap a representation and performs the list operation; `queue_macros_refine_lists` — the
same over every finite sequence of macros from initialised heads and elements.
-/

set_option autoImplicit false

namespace Timix.Queue

open Links

variable {H E : Type}

/-- The link fields of all elements and the fields of all heads. -/
structure QHeap (H E : Type) where
  next : E → Option E
  prev : E → Option E
  head : H → Option E
  tail : H → Option E
  ptr : H → Option E

section Macros

variable [DecidableEq H] [DecidableEq E]

def QHeap.setNext (s : QHeap H E) (e : E) (v : Option E) : QHeap H E :=
  { s with next := Function.update s.next e v }

def QHeap.setPrev (s : QHeap H E) (e : E) (v : Option E) : QHeap H E :=
  { s with prev := Function.update s.prev e v }

def QHeap.setHead (s : QHeap H E) (q : H) (v : Option E) : QHeap H E :=
  { s with head := Function.update s.head q v }

def QHeap.setTail (s : QHeap H E) (q : H) (v : Option E) : QHeap H E :=
  { s with tail := Function.update s.tail q v }

def QHeap.setPtr (s : QHeap H E) (q : H) (v : Option E) : QHeap H E :=
  { s with ptr := Function.update s.ptr q v }

/-- `Q_INIT_HEAD`. -/
def qInitHead (s : QHeap H E) (q : H) : QHeap H E :=
  let s := s.setHead q none
  let s := s.setTail q none
  s.setPtr q none

/-- `Q_INIT_ELEM`. -/
def qInitElem (s : QHeap H E) (e : E) : QHeap H E :=
  let s := s.setNext e none
  s.setPrev e none

/-- `Q_INSERT_FRONT`. -/
def qInsertFront (s : QHeap H E) (q : H) (e : E) : QHeap H E :=
  let s := s.setNext e (s.head q)
  let s := match s.head q with
    | some a => s.setPrev a (some e)
    | none => s
  let s := s.setHead q (some e)
  if s.tail q = none then s.setTail q (some e) else s

/-- `Q_INSERT_TAIL`. -/
def qInsertTail (s : QHeap H E) (q : H) (e : E) : QHeap H E :=
  let s := s.setPrev e (s.tail q)
  let s := match s.tail q with
    | some a => s.setNext a (some e)
    | none => s
  let s := s.setTail q (some e)
  if s.head q = none then s.setHead q (some e) else s

/-- `Q_CONCAT`. -/
def qConcat (s : QHeap H E) (q₁ q₂ : H) : QHeap H E :=
  let s := match s.tail q₁ with
    | none => (s.setHead q₁ (s.head q₂)).setTail q₁ (s.tail q₂)
    | some t =>
      match s.head q₂ with
      | none => s
      | some a =>
        let s := s.setNext t (s.head q₂)
        let s := s.setPrev a (s.tail q₁)
        s.setTail q₁ (s.tail q₂)
  qInitHead s q₂

/-- `Q_GET_FRONT`. -/
def qGetFront (s : QHeap H E) (q : H) : Option E := s.head q

/-- `Q_GET_TAIL`. -/
def qGetTail (s : QHeap H E) (q : H) : Option E := s.tail q

/-- `Q_INSERT_BEFORE`; `none` when `Q_INQ` is not the head and has no predecessor to write to. -/
def qInsertBefore (s : QHeap H E) (q : H) (inq e : E) : Option (QHeap H E) := do
  let s ←
    if s.head q = some inq then
      let s := s.setPtr q (s.head q)
      some (s.setHead q (some e))
    else
      let s := s.setPtr q (s.prev inq)
      match s.ptr q with
      | none => none
      | some a =>
        let s := s.setNext a (some e)
        some (s.setPrev e (s.ptr q))
  let s := s.setNext e (some inq)
  some (s.setPrev inq (some e))

/-- `Q_REMOVE`. -/
def qRemove (s : QHeap H E) (q : H) (e : E) : QHeap H E :=
  let s := if s.head q = some e then s.setHead q (s.next e) else s
  let s := if s.tail q = some e then s.setTail q (s.prev e) else s
  let s := s.setPtr q (s.prev e)
  let s := match s.ptr q with
    | some a => s.setNext a (s.next e)
    | none => s
  let s := s.setPtr q (s.next e)
  let s := match s.ptr q with
    | some a => s.setPrev a (s.prev e)
    | none => s
  qInitElem s e

/-- `Q_FOREACH` with a body that changes no link: the elements visited, `none` if `fuel` steps
    do not reach the end. -/
def qForeach (s : QHeap H E) (fuel : Nat) (q : H) : Option (List E) := walk s.next fuel (s.head q)

end Macros

/-! ## The fields after each macro -/

section Fields

variable [DecidableEq H] [DecidableEq E] (s : QHeap H E) (q : H) (e i : E)

theorem qInsertFront_eq :
    qInsertFront s q e =
      { next := Function.update s.next e (s.head q)
        prev := relink s.prev (s.head q) (some e)
        head := Function.update s.head q (some e)
        tail := Function.update s.tail q (if s.tail q = none then some e else s.tail q)
        ptr := s.ptr } := by
  unfold qInsertFront
  cases hh : s.head q <;> by_cases ht : s.tail q = none <;>
    simp [QHeap.setNext, QHeap.setPrev, QHeap.setHead, QHeap.setTail, hh, ht]

theorem qInsertTail_eq :
    qInsertTail s q e =
      { next := relink s.next (s.tail q) (some e)
        prev := Function.update s.prev e (s.tail q)
        head := Function.update s.head q (if s.head q = none then some e else s.head q)
        tail := Function.update s.tail q (some e)
        ptr := s.ptr } := by
  unfold qInsertTail
  cases ht : s.tail q <;> by_cases hh : s.head q = none <;>
    simp [QHeap.setNext, QHeap.setPrev, QHeap.setHead, QHeap.setTail, hh, ht]

theorem qRemove_eq :
    qRemove s q e =
      { next := Function.update (relink s.next (s.prev e) (s.next e)) e none
        prev := Function.update (relink s.prev (s.next e) (s.prev e)) e none
        head := Function.update s.head q (if s.head q = some e then s.next e else s.head q)
        tail := Function.update s.tail q (if s.tail q = some e then s.prev e else s.tail q)
        ptr := Function.update s.ptr q (s.next e) } := by
  -- the second test reads `Q_ELEM->next` after the predecessor's `next` was written
  have hsame : ∀ a, Function.update s.next a (s.next e) e = s.next e := by
    intro a
    by_cases hae : e = a
    · subst hae; simp
    · simp [Function.update_of_ne hae]
  unfold qRemove qInitElem
  cases hp : s.prev e <;> cases hn : s.next e <;> simp only [hn] at hsame <;>
    by_cases hh : s.head q = some e <;> by_cases ht : s.tail q = some e <;>
    simp [QHeap.setNext, QHeap.setPrev, QHeap.setHead, QHeap.setTail, QHeap.setPtr, hh, ht, hp, hn,
      hsame]

/-- `Q_INSERT_BEFORE` in front of the head. -/
theorem qInsertBefore_head (hh : s.head q = some i) :
    qInsertBefore s q i e = some
      { next := Function.update s.next e (some i)
        prev := Function.update s.prev i (some e)
        head := Function.update s.head q (some e)
        tail := s.tail
        ptr := Function.update s.ptr q (some i) } := by
  simp [qInsertBefore, QHeap.setNext, QHeap.setPrev, QHeap.setHead, QHeap.setPtr, hh]

/-- `Q_INSERT_BEFORE` behind the predecessor `a`. -/
theorem qInsertBefore_mid {a : E} (hh : s.head q ≠ some i) (ha : s.prev i = some a) :
    qInsertBefore s q i e = some
      { next := Function.update (Function.update s.next a (some e)) e (some i)
        prev := Function.update (Function.update s.prev e (some a)) i (some e)
        head := s.head
        tail := s.tail
        ptr := Function.update s.ptr q (some a) } := by
  simp [qInsertBefore, QHeap.setNext, QHeap.setPrev, QHeap.setPtr, hh, ha]

/-- `Q_CONCAT` onto an empty queue. -/
theorem qConcat_nil {q₁ q₂ : H} (ht : s.tail q₁ = none) :
    qConcat s q₁ q₂ =
      { s with
        head := Function.update (Function.update s.head q₁ (s.head q₂)) q₂ none
        tail := Function.update (Function.update s.tail q₁ (s.tail q₂)) q₂ none
        ptr := Function.update s.ptr q₂ none } := by
  simp [qConcat, qInitHead, QHeap.setHead, QHeap.setTail, QHeap.setPtr, ht]

/-- `Q_CONCAT` of an empty queue. -/
theorem qConcat_of_nil {q₁ q₂ : H} {t : E} (ht : s.tail q₁ = some t) (hh : s.head q₂ = none) :
    qConcat s q₁ q₂ =
      { s with
        head := Function.update s.head q₂ none
        tail := Function.update s.tail q₂ none
        ptr := Function.update s.ptr q₂ none } := by
  simp [qConcat, qInitHead, QHeap.setHead, QHeap.setTail, QHeap.setPtr, ht, hh]

/-- `Q_CONCAT` of two nonempty queues. -/
theorem qConcat_cons {q₁ q₂ : H} {t a : E} (ht : s.tail q₁ = some t) (hh : s.head q₂ = some a) :
    qConcat s q₁ q₂ =
      { next := Function.update s.next t (some a)
        prev := Function.update s.prev a (some t)
        head := Function.update s.head q₂ none
        tail := Function.update (Function.update s.tail q₁ (s.tail q₂)) q₂ none
        ptr := Function.update s.ptr q₂ none } := by
  simp [qConcat, qInitHead, QHeap.setHead, QHeap.setTail, QHeap.setPtr, QHeap.setNext,
    QHeap.setPrev, ht, hh]

end Fields

/-! ## Representation -/

/-- Head `q` represents the list `L q`, in both directions; an element is in at most one queue;
    an element in no queue has both links `NULL`. -/
structure Represents (s : QHeap H E) (L : H → List E) : Prop where
  fwd : ∀ q, Chain s.next (s.head q) (L q)
  bwd : ∀ q, Chain s.prev (s.tail q) (L q).reverse
  nodup : ∀ q, (L q).Nodup
  disjoint : ∀ q r e, e ∈ L q → e ∈ L r → q = r
  free : ∀ e, (∀ q, e ∉ L q) → s.next e = none ∧ s.prev e = none

namespace Represents

variable {s : QHeap H E} {L : H → List E}

/-- The links determine the lists. -/
theorem unique {L' : H → List E} (h : Represents s L) (h' : Represents s L') : L = L' :=
  funext fun q => (h.fwd q).unique (h'.fwd q)

theorem head (h : Represents s L) (q : H) : s.head q = (L q).head? := (h.fwd q).head

theorem tail (h : Represents s L) (q : H) : s.tail q = (L q).getLast? := by
  rw [(h.bwd q).head, List.head?_reverse]

theorem empty_iff (h : Represents s L) (q : H) :
    L q = [] ↔ s.head q = none ∧ s.tail q = none := by
  rw [h.head, h.tail]
  simp

/-- `Q_FOREACH` ends and visits the elements of the queue, each once. -/
theorem foreach [DecidableEq H] [DecidableEq E] (h : Represents s L) (q : H) {n : Nat}
    (hn : (L q).length ≤ n) : qForeach s n q = some (L q) := (h.fwd q).walk hn

theorem head_ne (h : Represents s L) {q : H} {a : E} (ha : a ∉ L q) : s.head q ≠ some a :=
  fun he => ha (List.mem_of_head? (h.head q ▸ he))

theorem tail_ne (h : Represents s L) {q : H} {a : E} (ha : a ∉ L q) : s.tail q ≠ some a :=
  fun he => ha (List.mem_of_getLast? (h.tail q ▸ he))

/-- The links of an element of a queue. -/
theorem links (h : Represents s L) {q : H} {l r : List E} {e : E} (hl : L q = l ++ e :: r) :
    s.next e = r.head? ∧ s.prev e = l.getLast? := by
  have hf := h.fwd q
  have hb := h.bwd q
  rw [hl] at hf hb
  rw [List.reverse_append, List.reverse_cons, List.append_assoc, List.singleton_append] at hb
  exact ⟨hf.link, by rw [hb.link, List.head?_reverse]⟩

/-- The neighbours of a queued element are in its queue. -/
theorem prev_mem (h : Represents s L) {q : H} {e a : E} (he : e ∈ L q) (ha : s.prev e = some a) :
    a ∈ L q := by
  obtain ⟨l, r, hl⟩ := List.append_of_mem he
  rw [(h.links hl).2] at ha
  rw [hl]
  exact List.mem_append_left _ (List.mem_of_getLast? ha)

theorem next_mem (h : Represents s L) {q : H} {e a : E} (he : e ∈ L q) (ha : s.next e = some a) :
    a ∈ L q := by
  obtain ⟨l, r, hl⟩ := List.append_of_mem he
  rw [(h.links hl).1] at ha
  rw [hl]
  exact List.mem_append_right _ (List.mem_cons_of_mem e (List.mem_of_head? ha))

/-- A change confined to the queue of `q` and to free elements represents the new list. -/
theorem modify [DecidableEq H] {s' : QHeap H E} (h : Represents s L) {q : H} {l' : List E}
    (hf : Chain s'.next (s'.head q) l') (hb : Chain s'.prev (s'.tail q) l'.reverse)
    (hn : l'.Nodup) (hnew : ∀ a ∈ l', a ∈ L q ∨ ∀ r, a ∉ L r)
    (hkeep : ∀ r, r ≠ q → s'.head r = s.head r ∧ s'.tail r = s.tail r)
    (hlink : ∀ a, a ∉ L q → a ∉ l' → s'.next a = s.next a ∧ s'.prev a = s.prev a)
    (hgone : ∀ a ∈ L q, a ∉ l' → s'.next a = none ∧ s'.prev a = none) :
    Represents s' (Function.update L q l') := by
  have hout : ∀ r, r ≠ q → ∀ a ∈ L r, a ∉ L q ∧ a ∉ l' := by
    intro r hr a ha
    have hq : a ∉ L q := fun haq => hr (h.disjoint r q a ha haq)
    exact ⟨hq, fun hal => (hnew a hal).elim hq (fun hfree => hfree r ha)⟩
  have hsame : ∀ r, r ≠ q → ∀ a ∈ L r, s'.next a = s.next a ∧ s'.prev a = s.prev a :=
    fun r hr a ha => hlink a (hout r hr a ha).1 (hout r hr a ha).2
  constructor
  · apply (Function.forall_update_iff L fun r l => Chain s'.next (s'.head r) l).2
    refine ⟨hf, ?_⟩
    intro r hr
    rw [(hkeep r hr).1]
    exact (h.fwd r).congr fun a ha => ((hsame r hr a ha).1).symm
  · apply (Function.forall_update_iff L fun r l => Chain s'.prev (s'.tail r) l.reverse).2
    refine ⟨hb, ?_⟩
    intro r hr
    rw [(hkeep r hr).2]
    exact (h.bwd r).congr fun a ha => ((hsame r hr a (List.mem_reverse.1 ha)).2).symm
  · apply (Function.forall_update_iff L fun _ l => l.Nodup).2
    exact ⟨hn, fun r _ => h.nodup r⟩
  · intro r r' a ha ha'
    by_cases hr : r = q <;> by_cases hr' : r' = q
    · rw [hr, hr']
    · subst hr
      rw [Function.update_self] at ha; rw [Function.update_of_ne hr'] at ha'
      exact absurd ha (hout r' hr' a ha').2
    · subst hr'
      rw [Function.update_self] at ha'; rw [Function.update_of_ne hr] at ha
      exact absurd ha' (hout r hr a ha).2
    · rw [Function.update_of_ne hr] at ha; rw [Function.update_of_ne hr'] at ha'
      exact h.disjoint r r' a ha ha'
  · intro a ha
    obtain ⟨hal, hother⟩ := (Function.forall_update_iff L fun _ l => a ∉ l).1 ha
    by_cases haq : a ∈ L q
    · exact hgone a haq hal
    · obtain ⟨h1, h2⟩ := hlink a haq hal
      rw [h1, h2]
      apply h.free
      intro r
      by_cases hr : r = q
      · rw [hr]
        exact haq
      · exact hother r hr

/-- A change confined to the queues of `q₁` and `q₂` that leaves the second empty. -/
theorem merge [DecidableEq H] {s' : QHeap H E} (h : Represents s L) {q₁ q₂ : H} (hq : q₁ ≠ q₂)
    (hf : Chain s'.next (s'.head q₁) (L q₁ ++ L q₂))
    (hb : Chain s'.prev (s'.tail q₁) (L q₁ ++ L q₂).reverse)
    (hempty : s'.head q₂ = none ∧ s'.tail q₂ = none)
    (hkeep : ∀ r, r ≠ q₁ → r ≠ q₂ → s'.head r = s.head r ∧ s'.tail r = s.tail r)
    (hlink : ∀ a, a ∉ L q₁ → a ∉ L q₂ → s'.next a = s.next a ∧ s'.prev a = s.prev a) :
    Represents s' (Function.update (Function.update L q₁ (L q₁ ++ L q₂)) q₂ []) := by
  have hval : ∀ r, Function.update (Function.update L q₁ (L q₁ ++ L q₂)) q₂ [] r =
      if r = q₂ then [] else if r = q₁ then L q₁ ++ L q₂ else L r := by
    intro r
    by_cases h2 : r = q₂ <;> by_cases h1 : r = q₁ <;>
      simp [Function.update_apply, h1, h2]
  have hsame : ∀ r, r ≠ q₁ → r ≠ q₂ → ∀ a ∈ L r, s'.next a = s.next a ∧ s'.prev a = s.prev a :=
    fun r h1 h2 a ha => hlink a (fun h' => h1 (h.disjoint r q₁ a ha h'))
      (fun h' => h2 (h.disjoint r q₂ a ha h'))
  have hdisj : ∀ a ∈ L q₁, a ∉ L q₂ := fun a h1 h2 => hq (h.disjoint q₁ q₂ a h1 h2)
  -- the queue an element of a new queue was in
  have hwas : ∀ r a, a ∈ (if r = q₂ then [] else if r = q₁ then L q₁ ++ L q₂ else L r) →
      (r = q₁ ∧ (a ∈ L q₁ ∨ a ∈ L q₂)) ∨ (r ≠ q₁ ∧ r ≠ q₂ ∧ a ∈ L r) := by
    intro r a ha
    split_ifs at ha with h2 h1
    · cases ha
    · exact Or.inl ⟨h1, List.mem_append.1 ha⟩
    · exact Or.inr ⟨h1, h2, ha⟩
  constructor
  · intro r
    rw [hval]
    split_ifs with h2 h1
    · subst h2; exact hempty.1
    · subst h1; exact hf
    · rw [(hkeep r h1 h2).1]
      exact (h.fwd r).congr fun a ha => ((hsame r h1 h2 a ha).1).symm
  · intro r
    rw [hval]
    split_ifs with h2 h1
    · subst h2; exact hempty.2
    · subst h1; exact hb
    · rw [(hkeep r h1 h2).2]
      exact (h.bwd r).congr fun a ha => ((hsame r h1 h2 a (List.mem_reverse.1 ha)).2).symm
  · intro r
    rw [hval]
    split_ifs with h2 h1
    · exact List.nodup_nil
    · exact List.nodup_append.2 ⟨h.nodup q₁, h.nodup q₂, fun a ha b hb hab => hdisj a ha (hab ▸ hb)⟩
    · exact h.nodup r
  · intro r r' a ha ha'
    rw [hval] at ha ha'
    rcases hwas r a ha with ⟨h1, hin⟩ | ⟨h1, h2, hin⟩ <;>
      rcases hwas r' a ha' with ⟨h1', hin'⟩ | ⟨h1', h2', hin'⟩
    · rw [h1, h1']
    · rcases hin with hin | hin
      · exact absurd (h.disjoint r' q₁ a hin' hin) h1'
      · exact absurd (h.disjoint r' q₂ a hin' hin) h2'
    · rcases hin' with hin' | hin'
      · exact absurd (h.disjoint r q₁ a hin hin') h1
      · exact absurd (h.disjoint r q₂ a hin hin') h2
    · exact h.disjoint r r' a hin hin'
  · intro a ha
    have hout : a ∉ L q₁ ∧ a ∉ L q₂ := by
      have := ha q₁
      rw [hval, if_neg hq, if_pos rfl, List.mem_append, not_or] at this
      exact this
    obtain ⟨h1, h2⟩ := hlink a hout.1 hout.2
    rw [h1, h2]
    apply h.free a
    intro r
    by_cases hr1 : r = q₁
    · rw [hr1]; exact hout.1
    by_cases hr2 : r = q₂
    · rw [hr2]; exact hout.2
    have := ha r
    rwa [hval, if_neg hr2, if_neg hr1] at this

end Represents

/-! ## The macros perform the list operations -/

section Spec

variable [DecidableEq H] [DecidableEq E] {s : QHeap H E} {L : H → List E} {q : H} {e : E}

omit [DecidableEq H] [DecidableEq E] in
/-- Initialised heads and elements represent empty queues. -/
theorem represents_empty (hq : ∀ q, s.head q = none ∧ s.tail q = none)
    (he : ∀ e, s.next e = none ∧ s.prev e = none) : Represents s (fun _ => []) where
  fwd q := (hq q).1
  bwd q := (hq q).2
  nodup _ := List.nodup_nil
  disjoint _ _ _ h := by cases h
  free e _ := he e

omit [DecidableEq H] in
/-- Initialising an element that is in no queue changes nothing. -/
theorem qInitElem_of_free (h : Represents s L) (he : ∀ q, e ∉ L q) : qInitElem s e = s := by
  obtain ⟨h1, h2⟩ := h.free e he
  simp only [qInitElem, QHeap.setNext, QHeap.setPrev]
  rw [← h1, Function.update_eq_self, h1, ← h2, Function.update_eq_self]

theorem qInsertFront_spec (h : Represents s L) (he : ∀ r, e ∉ L r) :
    Represents (qInsertFront s q e) (Function.update L q (e :: L q)) := by
  rw [qInsertFront_eq]
  refine h.modify ?_ ?_ (List.nodup_cons.2 ⟨he q, h.nodup q⟩) ?_ ?_ ?_ ?_
  · simpa using (h.fwd q).cons (he q)
  · have := (h.bwd q).snoc (e := e) (List.nodup_reverse.2 (h.nodup q)) (by simpa using he q)
      (h.free e he).2
    rw [List.getLast?_reverse, ← h.head] at this
    simpa using this
  · intro a ha
    rcases List.mem_cons.1 ha with rfl | ha
    · exact Or.inr he
    · exact Or.inl ha
  · intro r hr
    simp [Function.update_of_ne hr]
  · intro a haq hal
    have hae : a ≠ e := fun hae => hal (by simp [hae])
    exact ⟨Function.update_of_ne hae _ _, relink_of_ne (h.head_ne haq)⟩
  · intro a haq hal
    exact absurd (List.mem_cons_of_mem e haq) hal

theorem qInsertTail_spec (h : Represents s L) (he : ∀ r, e ∉ L r) :
    Represents (qInsertTail s q e) (Function.update L q (L q ++ [e])) := by
  rw [qInsertTail_eq]
  refine h.modify ?_ ?_ ?_ ?_ ?_ ?_ ?_
  · have := (h.fwd q).snoc (e := e) (h.nodup q) (he q) (h.free e he).1
    rw [← h.tail] at this
    simpa using this
  · rw [List.reverse_append, List.reverse_singleton, List.singleton_append]
    simpa using (h.bwd q).cons (e := e) (by simpa using he q)
  · rw [List.nodup_append]
    exact ⟨h.nodup q, by simp, fun a ha b hb => by
      simp only [List.mem_singleton] at hb; subst hb; exact ne_of_mem_of_not_mem ha (he q)⟩
  · intro a ha
    rcases List.mem_append.1 ha with ha | ha
    · exact Or.inl ha
    · simp only [List.mem_singleton] at ha; subst ha; exact Or.inr he
  · intro r hr
    simp [Function.update_of_ne hr]
  · intro a haq hal
    have hae : a ≠ e := fun hae => hal (by simp [hae])
    exact ⟨relink_of_ne (h.tail_ne haq), Function.update_of_ne hae _ _⟩
  · intro a haq hal
    exact absurd (List.mem_append_left _ haq) hal

/-- `e` in front of the first `i`. -/
def listInsertBefore (i e : E) : List E → List E
  | [] => []
  | a :: l => if a = i then e :: a :: l else a :: listInsertBefore i e l

theorem listInsertBefore_append {i : E} : ∀ {l r : List E}, i ∉ l →
    listInsertBefore i e (l ++ i :: r) = l ++ e :: i :: r
  | [], r, _ => by simp [listInsertBefore]
  | a :: l, r, hi => by
    simp only [List.mem_cons, not_or] at hi
    simp [listInsertBefore, Ne.symm hi.1, listInsertBefore_append hi.2]

theorem qInsertBefore_spec {i : E} (h : Represents s L) (he : ∀ r, e ∉ L r) (hi : i ∈ L q) :
    ∃ s', qInsertBefore s q i e = some s' ∧
      Represents s' (Function.update L q (listInsertBefore i e (L q))) := by
  obtain ⟨l, r, hl⟩ := List.append_of_mem hi
  have hn : (l ++ i :: r).Nodup := hl ▸ h.nodup q
  have hil : i ∉ l := fun hm => (List.nodup_append.1 hn).2.2 i hm i (by simp) rfl
  have heq : e ∉ l ++ i :: r := hl ▸ he q
  have hie : i ≠ e := fun hie => he q (hie ▸ hi)
  obtain ⟨_, hprev⟩ := h.links hl
  have hf := h.fwd q
  have hb := h.bwd q
  rw [hl] at hf hb ⊢
  have hrev : (l ++ i :: r).reverse = r.reverse ++ i :: l.reverse := by simp
  rw [hrev] at hb
  have hf' := hf.insertBefore hn heq
  have hb' := hb.insertAfter (e := e) (hrev ▸ List.nodup_reverse.2 hn)
    (by rw [← hrev]; exact fun hm => heq (List.mem_reverse.1 hm))
  rw [listInsertBefore_append hil]
  have hnew : ∀ a ∈ l ++ e :: i :: r, a ∈ L q ∨ ∀ r, a ∉ L r := by
    intro a ha
    rw [hl]
    simp only [List.mem_append, List.mem_cons] at ha ⊢
    rcases ha with ha | rfl | ha
    · exact Or.inl (Or.inl ha)
    · exact Or.inr he
    · exact Or.inl (Or.inr ha)
  have hn' : (l ++ e :: i :: r).Nodup := List.nodup_middle.2 (List.nodup_cons.2 ⟨heq, hn⟩)
  have hgone : ∀ a ∈ L q, a ∈ l ++ e :: i :: r := by
    intro a ha
    rw [hl] at ha
    simp only [List.mem_append, List.mem_cons] at ha ⊢
    tauto
  by_cases hh : s.head q = some i
  · -- `i` is the head: only `head`, `i->prev` and `e->next` are written
    have hl0 : l = [] := by
      have := h.head q
      rw [hh, hl] at this
      cases l with
      | nil => rfl
      | cons a l =>
        simp only [List.cons_append, List.head?_cons, Option.some.injEq] at this
        exact absurd (by simp [this]) hil
    subst hl0
    refine ⟨_, qInsertBefore_head s q e i hh, h.modify ?_ ?_ hn' hnew ?_ ?_ ?_⟩
    · simpa [hh] using hf'
    · rw [List.getLast?_nil] at hprev
      have hez : Function.update s.prev e none = s.prev :=
        Function.update_eq_self_iff.2 (h.free e he).2.symm
      rw [hprev, hez] at hb'
      simpa using hb'
    · intro r' hr'
      simp [Function.update_of_ne hr']
    · intro a _ hal
      simp only [List.nil_append, List.mem_cons, not_or] at hal
      exact ⟨Function.update_of_ne hal.1 _ _, Function.update_of_ne hal.2.1 _ _⟩
    · intro a haq hal
      exact absurd (hgone a haq) hal
  · -- `i` has a predecessor, the last element of `l`
    obtain ⟨b, hb0⟩ : ∃ b, l.getLast? = some b := by
      cases hlast : l.getLast? with
      | some b => exact ⟨b, rfl⟩
      | none =>
        rw [List.getLast?_eq_none_iff] at hlast
        subst hlast
        exact absurd (by rw [h.head q, hl]; rfl) hh
    rw [hb0] at hprev hf'
    refine ⟨_, qInsertBefore_mid s q e i hh hprev, h.modify ?_ ?_ hn' hnew ?_ ?_ ?_⟩
    · simpa [hh] using hf'
    · rw [hprev] at hb'
      simpa using hb'
    · intro r' _
      exact ⟨rfl, rfl⟩
    · intro a haq hal
      simp only [List.mem_append, List.mem_cons, not_or] at hal
      have hab : a ≠ b := fun hab => hal.1 (hab ▸ List.mem_of_getLast? hb0)
      simp [Function.update_of_ne hal.2.1, Function.update_of_ne hal.2.2.1,
        Function.update_of_ne hab]
    · intro a haq hal
      exact absurd (hgone a haq) hal

theorem qRemove_spec (h : Represents s L) (he : e ∈ L q) :
    Represents (qRemove s q e) (Function.update L q ((L q).erase e)) := by
  obtain ⟨l, r, hl⟩ := List.append_of_mem he
  have hn : (l ++ e :: r).Nodup := hl ▸ h.nodup q
  have hel : e ∉ l := fun hm => (List.nodup_append.1 hn).2.2 e hm e (by simp) rfl
  obtain ⟨hnext, hprev⟩ := h.links hl
  have hf := h.fwd q
  have hb := h.bwd q
  rw [hl] at hf hb
  have hrev : (l ++ e :: r).reverse = r.reverse ++ e :: l.reverse := by simp
  rw [hrev] at hb
  have hf' := hf.unlink hn
  have hb' := hb.unlink (hrev ▸ List.nodup_reverse.2 hn)
  rw [← hprev] at hf'
  rw [List.getLast?_reverse, ← hnext, ← List.reverse_append] at hb'
  have herase : (L q).erase e = l ++ r := by
    rw [hl, List.erase_append_right _ hel, List.erase_cons_head]
  rw [herase, qRemove_eq]
  refine h.modify (by simpa using hf') (by simpa using hb') ?_ ?_ ?_ ?_ ?_
  · exact ((List.nodup_middle.1 hn).of_cons)
  · intro a ha
    apply Or.inl
    rw [hl]
    simp only [List.mem_append, List.mem_cons] at ha ⊢
    tauto
  · intro r' hr'
    simp [Function.update_of_ne hr']
  · intro a haq _
    have hae : a ≠ e := fun hae => haq (hae ▸ he)
    exact ⟨(Function.update_of_ne hae _ _).trans (relink_of_ne fun hp => haq (h.prev_mem he hp)),
      (Function.update_of_ne hae _ _).trans (relink_of_ne fun hp => haq (h.next_mem he hp))⟩
  · intro a haq hal
    have hae : a = e := by
      rw [hl] at haq
      simp only [List.mem_append, List.mem_cons, not_or] at haq hal
      tauto
    subst hae
    simp

theorem qConcat_spec {q₁ q₂ : H} (h : Represents s L) (hq : q₁ ≠ q₂) :
    Represents (qConcat s q₁ q₂)
      (Function.update (Function.update L q₁ (L q₁ ++ L q₂)) q₂ []) := by
  have hdisj : ∀ a ∈ L q₁, a ∉ L q₂ := fun a h1 h2 => hq (h.disjoint q₁ q₂ a h1 h2)
  have hother : ∀ (f : H → Option E) (v w : Option E) (r : H), r ≠ q₁ → r ≠ q₂ →
      Function.update (Function.update f q₁ v) q₂ w r = f r := by
    intro f v w r h1 h2
    rw [Function.update_of_ne h2, Function.update_of_ne h1]
  cases ht : s.tail q₁ with
  | none =>
    have hl1 : L q₁ = [] := by
      have := h.tail q₁
      rw [ht] at this
      simpa using this.symm
    rw [qConcat_nil s ht]
    refine h.merge hq ?_ ?_ (by simp) (fun r h1 h2 => ⟨hother _ _ _ r h1 h2, hother _ _ _ r h1 h2⟩)
      (fun _ _ _ => ⟨rfl, rfl⟩)
    · simpa [hl1, Function.update_of_ne hq] using h.fwd q₂
    · simpa [hl1, Function.update_of_ne hq] using h.bwd q₂
  | some t =>
    cases hh : s.head q₂ with
    | none =>
      have hl2 : L q₂ = [] := by
        have := h.head q₂
        rw [hh] at this
        simpa using this.symm
      rw [qConcat_of_nil s ht hh]
      refine h.merge hq ?_ ?_ (by simp) (fun r _ h2 => by simp [Function.update_of_ne h2])
        (fun _ _ _ => ⟨rfl, rfl⟩)
      · simpa [hl2, Function.update_of_ne hq] using h.fwd q₁
      · simpa [hl2, Function.update_of_ne hq] using h.bwd q₁
    | some a =>
      have hf := (h.fwd q₁).append (h.nodup q₁) hdisj (h.fwd q₂)
      have hb := (h.bwd q₂).append (List.nodup_reverse.2 (h.nodup q₂))
        (fun b h2 h1 => hdisj b (List.mem_reverse.1 h1) (List.mem_reverse.1 h2)) (h.bwd q₁)
      have hne1 : s.head q₁ ≠ none := by
        intro hz
        have h1 := (h.fwd q₁).eq_nil_iff.1 hz
        have := h.tail q₁
        rw [ht, h1] at this
        cases this
      have hne2 : s.tail q₂ ≠ none := by
        intro hz
        have h2 := (h.bwd q₂).eq_nil_iff.1 hz
        have := h.head q₂
        rw [hh, List.reverse_eq_nil_iff.1 h2] at this
        cases this
      rw [← h.tail, ht, hh, relink_some, if_neg hne1] at hf
      rw [List.getLast?_reverse, ← h.head, ht, hh, relink_some, if_neg hne2,
        ← List.reverse_append] at hb
      rw [qConcat_cons s ht hh]
      refine h.merge hq ?_ ?_ (by simp) (fun r h1 h2 => ⟨Function.update_of_ne h2 _ _,
        hother _ _ _ r h1 h2⟩) (fun b h1 h2 => ⟨?_, ?_⟩)
      · simpa [Function.update_of_ne hq] using hf
      · simpa [Function.update_of_ne hq] using hb
      · exact Function.update_of_ne (fun hbt : b = t => h.tail_ne h1 (hbt ▸ ht)) _ _
      · exact Function.update_of_ne (fun hba : b = a => h.head_ne h2 (hba ▸ hh)) _ _

end Spec

/-! ## Sequences of macros -/

/-- One use of a macro. -/
inductive QOp (H E : Type) where
  | insertFront (q : H) (e : E)
  | insertTail (q : H) (e : E)
  | insertBefore (q : H) (inq e : E)
  | remove (q : H) (e : E)
  | concat (q₁ q₂ : H)
  deriving DecidableEq, Repr

namespace QOp

/-- The heads an operation names. -/
def heads : QOp H E → List H
  | insertFront q _ => [q]
  | insertTail q _ => [q]
  | insertBefore q _ _ => [q]
  | remove q _ => [q]
  | concat q₁ q₂ => [q₁, q₂]

/-- The documented use: an inserted element is in no queue, `Q_INQ` and a removed element are in
    the named queue, the two queues of a concatenation are different. -/
def Legal (L : H → List E) : QOp H E → Prop
  | insertFront _ e => ∀ r, e ∉ L r
  | insertTail _ e => ∀ r, e ∉ L r
  | insertBefore q inq e => (∀ r, e ∉ L r) ∧ inq ∈ L q
  | remove q e => e ∈ L q
  | concat q₁ q₂ => q₁ ≠ q₂

variable [DecidableEq H] [DecidableEq E]

/-- The macro on the heap. -/
def run (s : QHeap H E) : QOp H E → Option (QHeap H E)
  | insertFront q e => some (qInsertFront s q e)
  | insertTail q e => some (qInsertTail s q e)
  | insertBefore q inq e => qInsertBefore s q inq e
  | remove q e => some (qRemove s q e)
  | concat q₁ q₂ => some (qConcat s q₁ q₂)

/-- The list operation. -/
def listRun (L : H → List E) : QOp H E → (H → List E)
  | insertFront q e => Function.update L q (e :: L q)
  | insertTail q e => Function.update L q (L q ++ [e])
  | insertBefore q inq e => Function.update L q (listInsertBefore inq e (L q))
  | remove q e => Function.update L q ((L q).erase e)
  | concat q₁ q₂ => Function.update (Function.update L q₁ (L q₁ ++ L q₂)) q₂ []

/-- The list operations of a sequence, in order. -/
def listRuns (L : H → List E) (ops : List (QOp H E)) : H → List E := ops.foldl listRun L

/-- Every operation of the sequence is legal where it is used. -/
def LegalRuns (L : H → List E) : List (QOp H E) → Prop
  | [] => True
  | op :: ops => op.Legal L ∧ LegalRuns (op.listRun L) ops

end QOp

/-- The fields of head `r` and the links of the elements `l` are the same in both heaps. -/
def SameQueue (s s' : QHeap H E) (r : H) (l : List E) : Prop :=
  s'.head r = s.head r ∧ s'.tail r = s.tail r ∧ s'.ptr r = s.ptr r ∧
    ∀ a ∈ l, s'.next a = s.next a ∧ s'.prev a = s.prev a

/-- `Q_INIT_HEAD` on the heads and `Q_INIT_ELEM` on the elements, over any memory content. -/
def initQueues [DecidableEq H] [DecidableEq E] (s : QHeap H E) (heads : List H)
    (elems : List E) : QHeap H E := elems.foldl qInitElem (heads.foldl qInitHead s)

section Runs

variable [DecidableEq H] [DecidableEq E] {s : QHeap H E} {L : H → List E}

/-- **Step**: a legal macro refines its list operation. -/
theorem run_spec (h : Represents s L) {op : QOp H E} (hop : op.Legal L) :
    ∃ s', op.run s = some s' ∧ Represents s' (op.listRun L) := by
  cases op with
  | insertFront q e => exact ⟨_, rfl, qInsertFront_spec h hop⟩
  | insertTail q e => exact ⟨_, rfl, qInsertTail_spec h hop⟩
  | insertBefore q inq e => exact qInsertBefore_spec h hop.1 hop.2
  | remove q e => exact ⟨_, rfl, qRemove_spec h hop⟩
  | concat q₁ q₂ => exact ⟨_, rfl, qConcat_spec h hop⟩

/-- An operation leaves the queues it does not name alone. -/
theorem run_frame (h : Represents s L) {op : QOp H E} (hop : op.Legal L) {s' : QHeap H E}
    (hs : op.run s = some s') {r : H} (hr : r ∉ op.heads) :
    op.listRun L r = L r ∧ SameQueue s s' r (L r) := by
  -- an element of `r` is no element of another queue
  have hout : ∀ q, q ≠ r → ∀ a ∈ L r, a ∉ L q := fun q hq a ha haq =>
    hq (h.disjoint q r a haq ha)
  cases op with
  | insertFront q e =>
    have hq : q ≠ r := fun hq => hr (by simp [QOp.heads, hq])
    cases hs
    refine ⟨Function.update_of_ne hq.symm _ _, ?_⟩
    rw [qInsertFront_eq]
    refine ⟨Function.update_of_ne hq.symm _ _, Function.update_of_ne hq.symm _ _, rfl,
      fun a ha => ⟨Function.update_of_ne ?_ _ _, relink_of_ne (h.head_ne (hout q hq a ha))⟩⟩
    exact fun hae => hop r (hae ▸ ha)
  | insertTail q e =>
    have hq : q ≠ r := fun hq => hr (by simp [QOp.heads, hq])
    cases hs
    refine ⟨Function.update_of_ne hq.symm _ _, ?_⟩
    rw [qInsertTail_eq]
    refine ⟨Function.update_of_ne hq.symm _ _, Function.update_of_ne hq.symm _ _, rfl,
      fun a ha => ⟨relink_of_ne (h.tail_ne (hout q hq a ha)), Function.update_of_ne ?_ _ _⟩⟩
    exact fun hae => hop r (hae ▸ ha)
  | insertBefore q i e =>
    have hq : q ≠ r := fun hq => hr (by simp [QOp.heads, hq])
    have hne : ∀ a ∈ L r, a ≠ e ∧ a ≠ i := fun a ha =>
      ⟨fun hae => hop.1 r (hae ▸ ha), fun hai => hout q hq a ha (hai ▸ hop.2)⟩
    refine ⟨Function.update_of_ne hq.symm _ _, ?_⟩
    change qInsertBefore s q i e = some s' at hs
    by_cases hh : s.head q = some i
    · rw [qInsertBefore_head s q e i hh] at hs
      cases hs
      exact ⟨Function.update_of_ne hq.symm _ _, rfl, Function.update_of_ne hq.symm _ _,
        fun a ha =>
          ⟨Function.update_of_ne (hne a ha).1 _ _, Function.update_of_ne (hne a ha).2 _ _⟩⟩
    · cases hp : s.prev i with
      | none => simp [qInsertBefore, QHeap.setPtr, hh, hp] at hs
      | some b =>
        have hb : b ∈ L q := h.prev_mem hop.2 hp
        rw [qInsertBefore_mid s q e i hh hp] at hs
        cases hs
        refine ⟨rfl, rfl, Function.update_of_ne hq.symm _ _, ?_⟩
        intro a ha
        have hab : a ≠ b := fun hab => hout q hq a ha (hab ▸ hb)
        simp [Function.update_of_ne (hne a ha).1, Function.update_of_ne (hne a ha).2,
          Function.update_of_ne hab]
  | remove q e =>
    have hq : q ≠ r := fun hq => hr (by simp [QOp.heads, hq])
    cases hs
    refine ⟨Function.update_of_ne hq.symm _ _, ?_⟩
    rw [qRemove_eq]
    refine ⟨Function.update_of_ne hq.symm _ _, Function.update_of_ne hq.symm _ _,
      Function.update_of_ne hq.symm _ _, ?_⟩
    intro a ha
    have haq := hout q hq a ha
    have hae : a ≠ e := fun hae => haq (hae ▸ hop)
    exact ⟨(Function.update_of_ne hae _ _).trans (relink_of_ne fun hp => haq (h.prev_mem hop hp)),
      (Function.update_of_ne hae _ _).trans (relink_of_ne fun hp => haq (h.next_mem hop hp))⟩
  | concat q₁ q₂ =>
    simp only [QOp.heads, List.mem_cons, List.not_mem_nil, or_false, not_or] at hr
    have hother : ∀ {β : Type} (f : H → β) (v w : β),
        Function.update (Function.update f q₁ v) q₂ w r = f r := by
      intro _ f v w
      rw [Function.update_of_ne hr.2, Function.update_of_ne hr.1]
    cases hs
    refine ⟨hother _ _ _, ?_⟩
    cases ht : s.tail q₁ with
    | none =>
      rw [qConcat_nil s ht]
      exact ⟨hother _ _ _, hother _ _ _, Function.update_of_ne hr.2 _ _, fun _ _ => ⟨rfl, rfl⟩⟩
    | some t =>
      cases hh : s.head q₂ with
      | none =>
        rw [qConcat_of_nil s ht hh]
        exact ⟨Function.update_of_ne hr.2 _ _, Function.update_of_ne hr.2 _ _,
          Function.update_of_ne hr.2 _ _, fun _ _ => ⟨rfl, rfl⟩⟩
      | some b =>
        rw [qConcat_cons s ht hh]
        refine ⟨Function.update_of_ne hr.2 _ _, hother _ _ _, Function.update_of_ne hr.2 _ _,
          fun a ha => ⟨Function.update_of_ne (fun hat : a = t => ?_) _ _,
            Function.update_of_ne (fun hab : a = b => ?_) _ _⟩⟩
        · exact h.tail_ne (hout q₁ (Ne.symm hr.1) a ha) (hat ▸ ht)
        · exact h.head_ne (hout q₂ (Ne.symm hr.2) a ha) (hab ▸ hh)

omit [DecidableEq H] in
theorem initQueues_links (elems : List E) :
    ∀ (s : QHeap H E), (elems.foldl qInitElem s).head = s.head ∧
      (elems.foldl qInitElem s).tail = s.tail ∧
      ∀ e, (e ∈ elems ∨ (s.next e = none ∧ s.prev e = none)) →
        (elems.foldl qInitElem s).next e = none ∧ (elems.foldl qInitElem s).prev e = none := by
  induction elems with
  | nil =>
    intro s
    exact ⟨rfl, rfl, fun e he => he.elim (fun h => by cases h) id⟩
  | cons a elems ih =>
    intro s
    obtain ⟨hh, ht, hl⟩ := ih (qInitElem s a)
    refine ⟨hh, ht, fun e he => hl e ?_⟩
    by_cases hea : e = a
    · subst hea
      exact Or.inr (by simp [qInitElem, QHeap.setNext, QHeap.setPrev])
    · apply he.imp (fun h => (List.mem_cons.1 h).resolve_left hea)
      intro h
      simpa [qInitElem, QHeap.setNext, QHeap.setPrev, Function.update_of_ne hea] using h

omit [DecidableEq E] in
theorem initQueues_heads (heads : List H) :
    ∀ (s : QHeap H E) (q : H), (q ∈ heads ∨ (s.head q = none ∧ s.tail q = none)) →
      (heads.foldl qInitHead s).head q = none ∧ (heads.foldl qInitHead s).tail q = none := by
  induction heads with
  | nil => exact fun s q hq => hq.elim (fun h => by cases h) id
  | cons a heads ih =>
    intro s q hq
    apply ih (qInitHead s a) q
    by_cases hqa : q = a
    · subst hqa
      exact Or.inr (by simp [qInitHead, QHeap.setHead, QHeap.setTail, QHeap.setPtr])
    · apply hq.imp (fun h => (List.mem_cons.1 h).resolve_left hqa)
      intro h
      simpa [qInitHead, QHeap.setHead, QHeap.setTail, QHeap.setPtr, Function.update_of_ne hqa]
        using h

/-- Initialisation, over any memory content, gives empty queues. -/
theorem initQueues_spec {heads : List H} {elems : List E} (hq : ∀ q, q ∈ heads)
    (he : ∀ e, e ∈ elems) (s : QHeap H E) :
    Represents (initQueues s heads elems) (fun _ => []) := by
  obtain ⟨hh, ht, hl⟩ := initQueues_links elems (heads.foldl qInitHead s)
  refine represents_empty ?_ (fun e => hl e (Or.inl (he e)))
  intro q
  unfold initQueues
  rw [hh, ht]
  exact initQueues_heads heads s q (Or.inl (hq q))

/-- **Run**: a legal sequence of macros refines the sequence of list operations. -/
theorem runs_spec : ∀ {ops : List (QOp H E)} {s : QHeap H E} {L : H → List E},
    Represents s L → QOp.LegalRuns L ops →
    ∃ s', Lts.exec QOp.run s ops = some s' ∧ Represents s' (QOp.listRuns L ops)
  | [], s, L, h, _ => ⟨s, rfl, h⟩
  | op :: ops, s, L, h, hop => by
    obtain ⟨m, hm, hrep⟩ := run_spec h hop.1
    obtain ⟨s', hs', hrep'⟩ := runs_spec hrep hop.2
    exact ⟨s', Lts.exec_cons.2 ⟨m, hm, hs'⟩, hrep'⟩

/-- The heap before and after the operation `op` of a legal sequence. -/
theorem runs_split {s : QHeap H E} {L : H → List E} (h : Represents s L)
    {pre post : List (QOp H E)} {op : QOp H E} (hops : QOp.LegalRuns L (pre ++ op :: post)) :
    ∃ m m', Lts.exec QOp.run s pre = some m ∧ op.run m = some m' ∧
      ∀ r, r ∉ op.heads → QOp.listRuns L (pre ++ [op]) r = QOp.listRuns L pre r ∧
        SameQueue m m' r (QOp.listRuns L pre r) := by
  induction pre generalizing s L with
  | nil =>
    obtain ⟨m', hm', _⟩ := run_spec h hops.1
    exact ⟨s, m', rfl, hm', fun r hr => run_frame h hops.1 hm' hr⟩
  | cons a pre ih =>
    obtain ⟨t, ht, hrep⟩ := run_spec h hops.1
    obtain ⟨m, m', hm, hm', hframe⟩ := ih hrep hops.2
    exact ⟨m, m', Lts.exec_cons.2 ⟨t, ht, hm⟩, hm', hframe⟩

/-- **The queue macros refine lists.**  From initialised heads and elements, whatever the memory
held before, every legal sequence of macros runs to the end and each head represents the list
that the list operations give: forwards, backwards, under `Q_FOREACH`; no element is in two
queues, the links of an element in no queue are `NULL`, and a step changes nothing in the queues
it does not name. -/
theorem queue_macros_refine_lists (s₀ : QHeap H E) (heads : List H) (elems : List E)
    (hq : ∀ q, q ∈ heads) (he : ∀ e, e ∈ elems) (ops : List (QOp H E))
    (hops : QOp.LegalRuns (fun _ => []) ops) :
    ∃ s, Lts.exec QOp.run (initQueues s₀ heads elems) ops = some s ∧
      let L := QOp.listRuns (fun _ => []) ops
      (∀ q, Chain s.next (s.head q) (L q)) ∧
      (∀ q, Chain s.prev (s.tail q) (L q).reverse) ∧
      (∀ q, L q = [] ↔ s.head q = none ∧ s.tail q = none) ∧
      (∀ q r e, e ∈ L q → e ∈ L r → q = r) ∧
      (∀ q, (L q).Nodup ∧ ∀ fuel, (L q).length ≤ fuel → qForeach s fuel q = some (L q)) ∧
      (∀ e, (∀ q, e ∉ L q) → s.next e = none ∧ s.prev e = none) ∧
      ∀ pre op post, ops = pre ++ op :: post →
        ∃ m m', Lts.exec QOp.run (initQueues s₀ heads elems) pre = some m ∧
          op.run m = some m' ∧ ∀ r, r ∉ op.heads →
            QOp.listRuns (fun _ => []) (pre ++ [op]) r = QOp.listRuns (fun _ => []) pre r ∧
            SameQueue m m' r (QOp.listRuns (fun _ => []) pre r) := by
  have hinit := initQueues_spec hq he s₀
  obtain ⟨s, hs, h⟩ := runs_spec hinit hops
  refine ⟨s, hs, h.fwd, h.bwd, h.empty_iff, h.disjoint,
    fun q => ⟨h.nodup q, fun fuel hf => h.foreach q hf⟩, h.free, ?_⟩
  intro pre op post hsplit
  subst hsplit
  exact runs_split hinit hops

end Runs

/-- Memory before initialisation: every field points somewhere. -/
def garbageHeap : QHeap (Fin 2) (Fin 3) :=
  ⟨fun _ => some 2, fun _ => some 1, fun _ => some 0, fun _ => some 1, fun _ => some 2⟩

/-- Two queues, three elements: insert at both ends and in the middle, concatenate, remove and
    insert the removed element again. -/
def sampleOps : List (QOp (Fin 2) (Fin 3)) :=
  [.insertFront 0 0, .insertTail 1 1, .insertBefore 0 0 2, .concat 1 0, .remove 1 2,
    .insertTail 0 2]

theorem sampleOps_refine_lists :
    ∃ s, Lts.exec QOp.run (initQueues garbageHeap [0, 1] [0, 1, 2]) sampleOps = some s ∧
      Chain s.next (s.head 1) [1, 0] ∧ Chain s.prev (s.tail 0) [2] := by
  obtain ⟨s, hs, hf, hb, _⟩ := queue_macros_refine_lists garbageHeap [0, 1] [0, 1, 2]
    (by decide) (by decide) sampleOps
    ⟨by unfold QOp.Legal; decide, by unfold QOp.Legal; decide, by unfold QOp.Legal; decide,
      by unfold QOp.Legal; decide, by unfold QOp.Legal; decide, by unfold QOp.Legal; decide,
      trivial⟩
  exact ⟨s, hs, hf 1, hb 0⟩

end Timix.Queue
