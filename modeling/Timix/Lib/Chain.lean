import Mathlib.Logic.Function.Basic
import Mathlib.Data.List.Nodup

/-!
# Chains of nullable links

A link field of a linked structure is a function `f : α → Option α` (`none` is the null
pointer).  `Chain f p l` says that following `f` from `p` visits exactly `l` and then ends at
null; `Seg f p l q` is the same for a segment that ends at `q`.

Every lemma is about *one* direction.  A doubly linked list is a chain of its `next` fields
and, over the reversed list, a chain of its `prev` fields, so each pointer manipulation uses
one lemma for either direction:

* `Chain.cons` / `Chain.snoc` — a new first / last element;
* `Chain.insertBefore` / `Chain.insertAfter` — a new element next to a given one;
* `Chain.unlink` — an element is taken out;
* `Chain.append` — a second chain is linked behind the first;
* `Chain.frame` — writing an element outside the chain changes nothing.

`relink f b v` is the guarded write `if (b != NULL) b->link = v`.
-/

set_option autoImplicit false

namespace Links

variable {α : Type}

/-- Following `f` from `p` visits `l` and arrives at `q`. -/
def Seg (f : α → Option α) : Option α → List α → Option α → Prop
  | p, [], q => p = q
  | p, a :: l, q => p = some a ∧ Seg f (f a) l q

/-- Following `f` from `p` visits `l` and ends at null. -/
abbrev Chain (f : α → Option α) (p : Option α) (l : List α) : Prop := Seg f p l none

@[simp] theorem seg_nil {f : α → Option α} {p q : Option α} : Seg f p [] q ↔ p = q := Iff.rfl

@[simp] theorem seg_cons {f : α → Option α} {p q : Option α} {a : α} {l : List α} :
    Seg f p (a :: l) q ↔ p = some a ∧ Seg f (f a) l q := Iff.rfl

theorem seg_append {f : α → Option α} {q : Option α} {r : List α} :
    ∀ {p : Option α} {l : List α}, Seg f p (l ++ r) q ↔ ∃ m, Seg f p l m ∧ Seg f m r q
  | p, [] => by simp
  | p, a :: l => by
    simp only [List.cons_append, seg_cons, seg_append (l := l)]
    constructor
    · rintro ⟨hp, m, hl, hr⟩
      exact ⟨m, ⟨hp, hl⟩, hr⟩
    · rintro ⟨m, ⟨hp, hl⟩, hr⟩
      exact ⟨hp, m, hl, hr⟩

theorem Seg.head {f : α → Option α} {p q : Option α} {l : List α} (h : Seg f p l q) :
    p = l.head?.or q := by
  cases l with
  | nil => simpa using h
  | cons a l => simpa using h.1

theorem Chain.head {f : α → Option α} {p : Option α} {l : List α} (h : Chain f p l) :
    p = l.head? := by
  simpa using Seg.head h

theorem Chain.eq_nil_iff {f : α → Option α} {p : Option α} {l : List α} (h : Chain f p l) :
    p = none ↔ l = [] := by
  rw [h.head, List.head?_eq_none_iff]

/-- The link of the element in the middle of a chain is the start of the rest. -/
theorem Chain.link {f : α → Option α} {p : Option α} {l r : List α} {e : α}
    (h : Chain f p (l ++ e :: r)) : f e = r.head? := by
  obtain ⟨m, _, he⟩ := seg_append.1 h
  exact Chain.head he.2

/-- A chain is determined by its starting point. -/
theorem Chain.unique {f : α → Option α} : ∀ {p : Option α} {l l' : List α},
    Chain f p l → Chain f p l' → l = l'
  | p, [], l', h, h' => by
    rw [h'.eq_nil_iff.1 h]
  | p, a :: l, [], h, h' => by
    have : p = some a := h.1
    simp_all
  | p, a :: l, b :: l', h, h' => by
    have hab : a = b := Option.some.inj (h.1.symm.trans h'.1)
    subst hab
    rw [Chain.unique h.2 h'.2]

/-- Segments only depend on the links of their own elements. -/
theorem Seg.congr {f g : α → Option α} {q : Option α} :
    ∀ {p : Option α} {l : List α}, (∀ a ∈ l, f a = g a) → Seg f p l q → Seg g p l q
  | _, [], _, h => h
  | _, a :: l, hfg, h =>
    ⟨h.1, by
      rw [← hfg a (by simp)]
      exact Seg.congr (fun b hb => hfg b (List.mem_cons_of_mem a hb)) h.2⟩

section Update

variable [DecidableEq α]

/-- `if (b != NULL) b->link = v`. -/
def relink (f : α → Option α) (b : Option α) (v : Option α) : α → Option α :=
  match b with
  | none => f
  | some b => Function.update f b v

@[simp] theorem relink_none (f : α → Option α) (v : Option α) : relink f none v = f := rfl

@[simp] theorem relink_some (f : α → Option α) (b : α) (v : Option α) :
    relink f (some b) v = Function.update f b v := rfl

theorem relink_of_ne {f : α → Option α} {b : Option α} {v : Option α} {a : α}
    (h : b ≠ some a) : relink f b v a = f a := by
  cases b with
  | none => rfl
  | some b => exact Function.update_of_ne (fun hab => h (congrArg some hab.symm)) _ _

/-- **Frame rule**: a write to an element outside the segment leaves it alone. -/
theorem Seg.frame {f : α → Option α} {p q v : Option α} {l : List α} {e : α}
    (he : e ∉ l) (h : Seg f p l q) : Seg (Function.update f e v) p l q :=
  h.congr fun _ ha => (Function.update_of_ne (ne_of_mem_of_not_mem ha he) _ _).symm

theorem Seg.frame_relink {f : α → Option α} {p q v b : Option α} {l : List α}
    (hb : ∀ a ∈ l, b ≠ some a) (h : Seg f p l q) : Seg (relink f b v) p l q :=
  h.congr fun a ha => (relink_of_ne (hb a ha)).symm

/-- Redirecting the last link of a segment. -/
theorem Seg.redirect {f : α → Option α} {p q v : Option α} {l : List α} (hn : l.Nodup)
    (h : Seg f p l q) : Seg (relink f l.getLast? v) (if l = [] then v else p) l v := by
  rcases l.eq_nil_or_concat with rfl | ⟨l', b, rfl⟩
  · simp
  · rw [List.concat_eq_append] at *
    obtain ⟨m, hl, hb⟩ := seg_append.1 h
    have hbl : b ∉ l' := fun hm => (List.nodup_append.1 hn).2.2 b hm b (by simp) rfl
    rw [List.getLast?_concat, relink_some, if_neg (by simp), seg_append]
    exact ⟨m, hl.frame hbl, hb.1, Function.update_self ..⟩

/-- A new first element. -/
theorem Chain.cons {f : α → Option α} {p : Option α} {l : List α} {e : α} (he : e ∉ l)
    (h : Chain f p l) : Chain (Function.update f e p) (some e) (e :: l) :=
  ⟨rfl, by rw [Function.update_self]; exact Seg.frame he h⟩

/-- A second chain linked behind a first one. -/
theorem Chain.append {f : α → Option α} {p q : Option α} {l r : List α} (hn : l.Nodup)
    (hd : ∀ a ∈ l, a ∉ r) (hl : Chain f p l) (hr : Chain f q r) :
    Chain (relink f l.getLast? q) (if p = none then q else p) (l ++ r) := by
  have hif : (if l = [] then q else p) = if p = none then q else p := by
    simp only [hl.eq_nil_iff]
  refine seg_append.2 ⟨q, hif ▸ Seg.redirect hn hl, Seg.frame_relink ?_ hr⟩
  intro a ha hb
  exact hd a (List.mem_of_getLast? hb) ha

/-- A new last element, whose own link is null. -/
theorem Chain.snoc {f : α → Option α} {p : Option α} {l : List α} {e : α} (hn : l.Nodup)
    (he : e ∉ l) (hz : f e = none) (h : Chain f p l) :
    Chain (relink f l.getLast? (some e)) (if p = none then some e else p) (l ++ [e]) :=
  h.append hn (fun a ha hae => he (by simp only [List.mem_singleton] at hae; exact hae ▸ ha))
    ⟨rfl, hz⟩

/-- A new element in front of `i`. -/
theorem Chain.insertBefore {f : α → Option α} {p : Option α} {l r : List α} {i e : α}
    (hn : (l ++ i :: r).Nodup) (he : e ∉ l ++ i :: r) (h : Chain f p (l ++ i :: r)) :
    Chain (Function.update (relink f l.getLast? (some e)) e (some i))
      (if p = some i then some e else p) (l ++ e :: i :: r) := by
  obtain ⟨m, hl, hi⟩ := seg_append.1 h
  obtain ⟨hnl, _, hdisj⟩ := List.nodup_append.1 hn
  simp only [List.mem_append, List.mem_cons, not_or] at he
  have hif : (if l = [] then some e else p) = if p = some i then some e else p := by
    have hhead := h.head
    cases l with
    | nil => simp only [List.nil_append, List.head?_cons] at hhead; simp [hhead]
    | cons a l =>
      have hai : a ≠ i := hdisj a (by simp) i (by simp)
      simp only [List.cons_append, List.head?_cons] at hhead
      simp [hhead, hai]
  refine seg_append.2 ⟨some e, hif ▸ Seg.frame he.1 (Seg.redirect hnl hl), rfl, ?_⟩
  rw [Function.update_self]
  have hrest : Seg (relink f l.getLast? (some e)) (some i) (i :: r) none := by
    refine Seg.frame_relink ?_ (hi.1 ▸ hi)
    intro a ha hb
    exact hdisj a (List.mem_of_getLast? hb) a ha rfl
  exact Seg.frame (by simp [he.2]) hrest

/-- A new element behind `i`. -/
theorem Chain.insertAfter {f : α → Option α} {p : Option α} {l r : List α} {i e : α}
    (hn : (l ++ i :: r).Nodup) (he : e ∉ l ++ i :: r) (h : Chain f p (l ++ i :: r)) :
    Chain (Function.update (Function.update f e (f i)) i (some e)) p (l ++ i :: e :: r) := by
  obtain ⟨m, hl, hi⟩ := seg_append.1 h
  obtain ⟨_, hnr, hdisj⟩ := List.nodup_append.1 hn
  simp only [List.mem_append, List.mem_cons, not_or] at he
  have hir : i ∉ r := (List.nodup_cons.1 hnr).1
  have hil : i ∉ l := fun hm => hdisj i hm i (by simp) rfl
  refine seg_append.2 ⟨m, Seg.frame hil (Seg.frame he.1 hl), hi.1, ?_⟩
  rw [Function.update_self]
  refine ⟨rfl, ?_⟩
  rw [Function.update_of_ne he.2.1, Function.update_self]
  exact Seg.frame hir (Seg.frame he.2.2 hi.2)

/-- An element is taken out and its own link cleared. -/
theorem Chain.unlink {f : α → Option α} {p : Option α} {l r : List α} {e : α}
    (hn : (l ++ e :: r).Nodup) (h : Chain f p (l ++ e :: r)) :
    Chain (Function.update (relink f l.getLast? (f e)) e none)
      (if p = some e then f e else p) (l ++ r) := by
  obtain ⟨m, hl, he⟩ := seg_append.1 h
  obtain ⟨hnl, hnr, hdisj⟩ := List.nodup_append.1 hn
  have her : e ∉ r := (List.nodup_cons.1 hnr).1
  have hel : e ∉ l := fun hm => hdisj e hm e (by simp) rfl
  have hif : (if l = [] then f e else p) = if p = some e then f e else p := by
    have hhead := h.head
    cases l with
    | nil => simp only [List.nil_append, List.head?_cons] at hhead; simp [hhead]
    | cons a l =>
      have hae : a ≠ e := fun hae => hel (by simp [hae])
      simp only [List.cons_append, List.head?_cons] at hhead
      simp [hhead, hae]
  refine seg_append.2 ⟨f e, hif ▸ Seg.frame hel (Seg.redirect hnl hl), Seg.frame her ?_⟩
  refine Seg.frame_relink ?_ he.2
  intro a ha hb
  exact hdisj a (List.mem_of_getLast? hb) a (List.mem_cons_of_mem e ha) rfl

end Update

/-! ## Walking a chain -/

/-- The loop `for (cur = p; cur != NULL; cur = cur->link)`, with fuel; the visited elements, or
    `none` when the fuel ran out. -/
def walk (f : α → Option α) : Nat → Option α → Option (List α)
  | _, none => some []
  | 0, some _ => none
  | n + 1, some a => (walk f n (f a)).map (a :: ·)

/-- The loop over a chain ends and visits exactly the chain. -/
theorem Chain.walk {f : α → Option α} : ∀ {n : Nat} {p : Option α} {l : List α},
    Chain f p l → l.length ≤ n → walk f n p = some l
  | n, p, [], h, _ => by
    obtain rfl : p = none := h
    cases n <;> rfl
  | 0, p, a :: l, _, hn => by simp at hn
  | n + 1, p, a :: l, h, hn => by
    obtain ⟨rfl, hl⟩ := h
    rw [Links.walk, Chain.walk hl (by simpa using hn)]
    rfl

/-- A loop that enters a cycle of two elements does not end. -/
theorem walk_cycle {f : α → Option α} {a b : α} (hab : f a = some b) (hba : f b = some a) :
    ∀ n, walk f n (some a) = none ∧ walk f n (some b) = none
  | 0 => ⟨rfl, rfl⟩
  | n + 1 => by
    obtain ⟨ha, hb⟩ := walk_cycle hab hba n
    exact ⟨by rw [walk, hab, hb]; rfl, by rw [walk, hba, ha]; rfl⟩

/-- A loop over a segment ends only if the loop from its end does. -/
theorem Seg.walk_eq_none {f : α → Option α} {m : Option α} (hm : ∀ n, walk f n m = none) :
    ∀ {l : List α} {p : Option α} (n : Nat), Seg f p l m → walk f n p = none
  | [], p, n, h => by
    obtain rfl : p = m := h
    exact hm n
  | a :: l, p, n, h => by
    obtain ⟨rfl, hl⟩ := h
    cases n with
    | zero => rfl
    | succ n => rw [walk, Seg.walk_eq_none hm n hl]; rfl

end Links
