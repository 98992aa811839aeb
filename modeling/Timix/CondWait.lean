import Timix.CondStep

/-!
# Every wait is ended exactly once (`kernel/cond.c`)

The invariant `WaitInv s L ph` relates a state to the wait queues `L` and to the phase `ph t` of
every thread's wait: outside, waiting, or ended by a signal, a broadcast or an interrupt.

* `Local` — what the program point of one thread says about its phase, its `blocked` bit and its
  `cond_q_node`.
* `WaitInv.mem` — a thread is queued exactly while its wait has not been ended and no
  `cond_interrupt` has taken it out.
* `WaitInv.move` — every step keeps the invariant; the steps that change a phase are `waitPush`,
  a pop (`signal`), `scanHit` and `intrHit`, all others are `quiet`.
* `IntrInv` — what every thread's calls of `cond_interrupt` did.

Principal result: `wait_ended_exactly_once`.
-/

set_option autoImplicit false

namespace Timix.Cond

open Timix.Queue Owner

variable {T C M : Type}

/-! ## Histories -/

/-- What the waits of one thread did. -/
inductive WaitEv (C : Type) where
  | began (cv : C) (opts : BitVec 32)
  | ended (k : Ender)
  | returned (ret : Int)
  deriving DecidableEq, Repr

/-- A completed wait. -/
structure Wait (C : Type) where
  cv : C
  opts : BitVec 32
  ender : Ender

/-- The result of a wait ended by `k`. -/
def Ender.ret : Ender → Int
  | .interrupt => -EINTR
  | _ => 0

def Wait.trace (w : Wait C) : List (WaitEv C) :=
  [.began w.cv w.opts, .ended w.ender, .returned w.ender.ret]

/-- Only interruptable waits are interrupted. -/
def Wait.Fair (w : Wait C) : Prop := w.ender = .interrupt → w.opts = 0

/-- How far the current wait of a thread got. -/
inductive Phase (C : Type) where
  | out
  | waiting (cv : C) (opts : BitVec 32)
  | ended (cv : C) (opts : BitVec 32) (k : Ender)

def Phase.trace : Phase C → List (WaitEv C)
  | .out => []
  | .waiting cv o => [.began cv o]
  | .ended cv o k => [.began cv o, .ended k]

/-- Completed waits, each ended once and reporting how, then the current one. -/
def Traced (l : List (WaitEv C)) (p : Phase C) : Prop :=
  ∃ ws : List (Wait C), (∀ w ∈ ws, w.Fair) ∧ l = ws.flatMap Wait.trace ++ p.trace

theorem Traced.began {l : List (WaitEv C)} (h : Traced l .out) (cv : C) (o : BitVec 32) :
    Traced (l ++ [.began cv o]) (.waiting cv o) := by
  obtain ⟨ws, hf, rfl⟩ := h
  exact ⟨ws, hf, by simp [Phase.trace]⟩

theorem Traced.ended {l : List (WaitEv C)} {cv : C} {o : BitVec 32} (h : Traced l (.waiting cv o))
    (k : Ender) : Traced (l ++ [.ended k]) (.ended cv o k) := by
  obtain ⟨ws, hf, rfl⟩ := h
  exact ⟨ws, hf, by simp [Phase.trace]⟩

theorem Traced.returned {l : List (WaitEv C)} {cv : C} {o : BitVec 32} {k : Ender}
    (h : Traced l (.ended cv o k)) (hk : k = .interrupt → o = 0) :
    Traced (l ++ [.returned k.ret]) .out := by
  obtain ⟨ws, hf, rfl⟩ := h
  refine ⟨ws ++ [⟨cv, o, k⟩], ?_, by simp [Phase.trace, Wait.trace]⟩
  intro w hw
  rcases List.mem_append.1 hw with hw | hw
  · exact hf w hw
  · rw [List.mem_singleton.1 hw]
    exact hk

/-- What one thread's calls of `cond_interrupt` did. -/
inductive IntrEv (T : Type) where
  | began (u : T)
  | unblocked (u : T)
  | returned (u : T) (ret : Int)
  deriving DecidableEq, Repr

/-- A completed `cond_interrupt(u)`: it unblocked `u`, or it did nothing. -/
structure Interrupt (T : Type) where
  target : T
  hit : Bool

/-- The calls that return 0 are those that unblocked their target. -/
def Interrupt.trace (c : Interrupt T) : List (IntrEv T) :=
  if c.hit then [.began c.target, .unblocked c.target, .returned c.target 0]
  else [.began c.target, .returned c.target (-EINVAL)]

section Obs

variable [DecidableEq T]

def waitEv (t : T) : Obs T C → Option (WaitEv C)
  | .waitBegin u cv o => if u = t then some (.began cv o) else none
  | .unblock _ u k => if u = t then some (.ended k) else none
  | .waitEnd u r => if u = t then some (.returned r) else none
  | _ => none

def intrEv (i : T) : Obs T C → Option (IntrEv T)
  | .intrBegin j u => if j = i then some (.began u) else none
  | .unblock j u .interrupt => if j = i then some (.unblocked u) else none
  | .intrEnd j u r => if j = i then some (.returned u r) else none
  | _ => none

def waitTrace (t : T) (s : State T C M) : List (WaitEv C) := s.hist.filterMap (waitEv t)

def intrTrace (i : T) (s : State T C M) : List (IntrEv T) := s.hist.filterMap (intrEv i)

end Obs

/-! ## The invariant -/

/-- The flags of a node whose wait was ended by `k`. -/
def endFlags (o : BitVec 32) : Ender → BitVec 32
  | .interrupt => waitFlags o ||| COND_INTERRUPTED
  | _ => waitFlags o

def IsOpts (o : BitVec 32) : Prop := o = 0 ∨ o = COND_UNINTERRUPTABLE

/-- The wait was ended. -/
def Woken (ph : Phase C) (blocked : Bool) (flags : BitVec 32) (cv : C) (o : BitVec 32) : Prop :=
  ∃ k, ph = .ended cv o k ∧ blocked = false ∧ flags = endFlags o k ∧ (k = .interrupt → o = 0)

/-- What a program point says about its thread. -/
def Local (ph : Phase C) (blocked : Bool) (node : Option C) (flags : BitVec 32) :
    Pc T C M → Prop
  | .waitFail .. | .panicked => False
  | .waitInit _ _ o | .waitNode _ _ o | .waitQ _ _ o | .waitPush _ _ o =>
    IsOpts o ∧ node = none ∧ ph = .out ∧ blocked = false
  | .waitBlock cv _ o =>
    IsOpts o ∧ node = some cv ∧ ph = .waiting cv o ∧ blocked = false ∧ flags = waitFlags o
  | .waitUnlockMp cv _ o | .waitUnlockQ cv _ o =>
    IsOpts o ∧ node = some cv ∧ ph = .waiting cv o ∧ blocked = true ∧ flags = waitFlags o
  | .asleep cv _ o =>
    IsOpts o ∧ node = some cv ∧
      ((ph = .waiting cv o ∧ blocked = true ∧ flags = waitFlags o) ∨ Woken ph blocked flags cv o)
  | .wakeNode cv _ o | .wakeCv cv _ o => IsOpts o ∧ node = some cv ∧ Woken ph blocked flags cv o
  | .wakeMp _ o | .wakeTest _ o => IsOpts o ∧ node = none ∧ ∃ cv, Woken ph blocked flags cv o
  | _ => node = none ∧ ph = .out ∧ blocked = false

/-- A `cond_interrupt(u)` that saw `cv` in the node of `u` and still holds the node. -/
def Pc.Scans (u : T) (cv : C) : Pc T C M → Prop
  | .intrQ v c | .intrScan v c _ => v = u ∧ c = cv
  | _ => False

/-- The loop of `cond_q_remove` reached `node`: `u` is not among the entries before. -/
def Scanned (l : List T) (u : T) (node : Option T) : Prop :=
  ∃ pre suf, l = pre ++ suf ∧ u ∉ pre ∧ node = suf.head?

/-- The invariant of the waits. -/
structure WaitInv [DecidableEq T] (s : State T C M) (L : C → List T) (ph : T → Phase C) :
    Prop where
  rep : Represents s.heap L
  loc : ∀ t, Local (ph t) (s.blocked t) (s.nodeCv t) (s.nodeFlags t) (s.pc t)
  mem : ∀ t cv, t ∈ L cv ↔ (∃ o, ph t = .waiting cv o) ∧ ∀ i, s.pc i ≠ .intrHit t
  hit : ∀ i u, s.pc i = .intrHit u → ∃ cv mp, s.pc u = .asleep cv mp 0 ∧ ph u = .waiting cv 0
  intr : ∀ i u cv, (s.pc i).Scans u cv →
    s.nodeCv u = some cv ∧ s.nodeFlags u &&& COND_UNINTERRUPTABLE = 0
  scan : ∀ i u cv n, s.pc i = .intrScan u cv n → Scanned (L cv) u n
  traced : ∀ t, Traced (waitTrace t s) (ph t)

section Invariant

variable [DecidableEq T] [DecidableEq C] [DecidableEq M]
variable {s s' : State T C M} {L : C → List T} {ph : T → Phase C} {t : T}

section

omit [DecidableEq C] [DecidableEq M]

theorem waitInv_initial :
    WaitInv (initial : State T C M) (fun _ => []) (fun _ => .out) where
  rep := represents_empty (fun _ => ⟨rfl, rfl⟩) (fun _ => ⟨rfl, rfl⟩)
  loc _ := ⟨rfl, rfl, rfl⟩
  mem t cv := by simp
  hit i u h := by cases h
  intr i u cv h := h.elim
  scan i u cv n h := by cases h
  traced _ := ⟨[], by simp, rfl⟩

/-- A thread outside any wait is not queued. -/
theorem WaitInv.not_mem (h : WaitInv s L ph) (ht : ph t = .out) (cv : C) : t ∉ L cv := by
  intro hm
  obtain ⟨⟨o, ho⟩, _⟩ := (h.mem t cv).1 hm
  rw [ht] at ho
  cases ho

/-- Where a thread is whose wait has not been ended. -/
theorem WaitInv.of_waiting (h : WaitInv s L ph) {u : T} {cv : C} {o : BitVec 32}
    (hu : ph u = .waiting cv o) :
    (s.pc u).q = some cv ∨ ∃ mp, s.pc u = .asleep cv mp o ∧ s.blocked u = true := by
  have hl := h.loc u
  rw [hu] at hl
  cases hpc : s.pc u <;> rw [hpc] at hl <;> simp_all [Local, Woken, Pc.q]

theorem WaitInv.flags_of_waiting (h : WaitInv s L ph) {u : T} {cv : C} {o : BitVec 32}
    (hu : ph u = .waiting cv o) :
    IsOpts o ∧ s.nodeFlags u = waitFlags o ∧ s.nodeCv u = some cv := by
  have hl := h.loc u
  rw [hu] at hl
  cases hpc : s.pc u <;> rw [hpc] at hl <;> simp_all [Local, Woken]

/-- The threads that the holder of `q_lock` finds in the queue are asleep. -/
theorem WaitInv.asleep_of_mem (h : WaitInv s L ph) (hl : LockInv s) {u : T} {cv : C}
    (hu : u ∈ L cv) (hq : (s.pc t).q = some cv) (hout : ph t = .out) :
    u ≠ t ∧ ∃ mp o, s.pc u = .asleep cv mp o ∧ s.blocked u = true ∧ ph u = .waiting cv o := by
  obtain ⟨⟨o, ho⟩, _⟩ := (h.mem u cv).1 hu
  have hut : u ≠ t := by
    rintro rfl
    rw [hout] at ho
    cases ho
  refine ⟨hut, ?_⟩
  rcases h.of_waiting ho with hp | ⟨mp, hp, hb⟩
  · exact absurd (hl.q.unique hp hq) hut
  · exact ⟨mp, o, hp, hb, ho⟩

end

omit [DecidableEq T] [DecidableEq C] [DecidableEq M] in
theorem Pc.Scans.node {p : Pc T C M} {u : T} {cv : C} (h : p.Scans u cv) (i : T) :
    p.node i = some u := by
  cases p <;> simp_all [Pc.Scans, Pc.node]

section

omit [DecidableEq C] [DecidableEq M]

/-- **What a step has to show.**  `t` moves to `p`, at most the thread `v` sees its `blocked` bit,
its node, its phase or its history change, and the mover holds the lock of every queue that
changes and of the node of `v` if that changes. -/
theorem WaitInv.change (h : WaitInv s L ph) (hl : LockInv s) {p : Pc T C M} (v : T)
    {L' : C → List T} {ph' : T → Phase C} (hrep : Represents s'.heap L')
    (hpc : s'.pc = Function.update s.pc t p)
    (hoth : ∀ u, u ≠ v → s'.blocked u = s.blocked u ∧ s'.nodeCv u = s.nodeCv u ∧
      s'.nodeFlags u = s.nodeFlags u ∧ waitTrace u s' = waitTrace u s ∧ ph' u = ph u)
    (hlocv : Local (ph' v) (s'.blocked v) (s'.nodeCv v) (s'.nodeFlags v) (s'.pc v))
    (hloct : Local (ph' t) (s'.blocked t) (s'.nodeCv t) (s'.nodeFlags t) p)
    (htr : Traced (waitTrace v s') (ph' v))
    (hmem : ∀ u c, u ∈ L' c ↔ (∃ o, ph' u = .waiting c o) ∧ ∀ i, s'.pc i ≠ .intrHit u)
    (hhit : ∀ i u, s'.pc i = .intrHit u →
      ∃ cv mp, s'.pc u = .asleep cv mp 0 ∧ ph' u = .waiting cv 0)
    (hnode : (s'.nodeCv v = s.nodeCv v ∧ s'.nodeFlags v = s.nodeFlags v) ∨
      (s.pc t).node t = some v)
    (hq : ∀ c, L' c = L c ∨ (s.pc t).q = some c)
    (hintr : ∀ u cv, p.Scans u cv →
      s'.nodeCv u = some cv ∧ s'.nodeFlags u &&& COND_UNINTERRUPTABLE = 0)
    (hscan : ∀ u cv n, p = .intrScan u cv n → Scanned (L' cv) u n) : WaitInv s' L' ph' := by
  have hpct : s'.pc t = p := by rw [hpc, Function.update_self]
  have hpco : ∀ i, i ≠ t → s'.pc i = s.pc i := fun i hi => by rw [hpc, Function.update_of_ne hi]
  refine ⟨hrep, ?_, hmem, hhit, ?_, ?_, ?_⟩
  · intro u
    by_cases hu : u = v
    · rw [hu]; exact hlocv
    · by_cases hut : u = t
      · rw [hut, hpct]; exact hloct
      · obtain ⟨hb, hc, hf, _, hp⟩ := hoth u hu
        rw [hb, hc, hf, hp, hpco u hut]
        exact h.loc u
  · intro i u cv hi
    by_cases hit : i = t
    · rw [hit, hpct] at hi
      exact hintr u cv hi
    · rw [hpco i hit] at hi
      have hu := h.intr i u cv hi
      by_cases huv : u = v
      · subst huv
        rcases hnode with ⟨hc, hf⟩ | hn
        · rw [hc, hf]; exact hu
        · -- the interrupter holds the node of `v`, so the mover does not
          exact absurd (hl.node.unique (hi.node i) hn) hit
      · obtain ⟨_, hc, hf, _⟩ := hoth u huv
        rw [hc, hf]; exact hu
  · intro i u cv n hi
    by_cases hit : i = t
    · rw [hit, hpct] at hi
      exact hscan u cv n hi
    · rw [hpco i hit] at hi
      rcases hq cv with hL | hc
      · rw [hL]; exact h.scan i u cv n hi
      · have hiq : (s.pc i).q = some cv := by rw [hi]; rfl
        exact absurd (hl.q.unique hiq hc) hit
  · intro u
    by_cases hu : u = v
    · rw [hu]; exact htr
    · obtain ⟨_, _, _, ht, hp⟩ := hoth u hu
      rw [ht, hp]; exact h.traced u

/-- A move of `t` between points other than `intrHit`. -/
theorem intrHit_iff {pc : T → Pc T C M} {p : Pc T C M}
    (h : ∀ u, pc t ≠ .intrHit u ∧ p ≠ .intrHit u) (i u : T) :
    Function.update pc t p i = .intrHit u ↔ pc i = .intrHit u := by
  by_cases hi : i = t
  · subst hi; rw [Function.update_self]; exact iff_of_false (h u).2 (h u).1
  · rw [Function.update_of_ne hi]

/-- Nobody is about to unblock a thread that is not asleep. -/
theorem WaitInv.not_hit (h : WaitInv s L ph) (hslept : ∀ cv mp o, s.pc t ≠ .asleep cv mp o)
    (i : T) : s.pc i ≠ .intrHit t := by
  intro hi
  obtain ⟨cv, mp, hpc, _⟩ := h.hit i t hi
  exact hslept cv mp 0 hpc

/-- A step of `t` that changes no queue and leaves `t` waiting, or not waiting, as before. -/
theorem WaitInv.quiet (h : WaitInv s L ph) (hl : LockInv s) {p : Pc T C M} {q : Phase C}
    (hheap : s'.heap = s.heap) (hpc : s'.pc = Function.update s.pc t p)
    (hoth : ∀ u, u ≠ t → s'.blocked u = s.blocked u ∧ s'.nodeCv u = s.nodeCv u ∧
      s'.nodeFlags u = s.nodeFlags u ∧ waitTrace u s' = waitTrace u s)
    (hloc : Local q (s'.blocked t) (s'.nodeCv t) (s'.nodeFlags t) p)
    (htr : Traced (waitTrace t s') q)
    (hph : ∀ cv o, q = .waiting cv o ↔ ph t = .waiting cv o)
    (hslept : ∀ cv mp o, s.pc t = .asleep cv mp o → ph t ≠ .waiting cv o)
    (hhit : ∀ u, s.pc t ≠ .intrHit u ∧ p ≠ .intrHit u)
    (hnode : (s'.nodeCv t = s.nodeCv t ∧ s'.nodeFlags t = s.nodeFlags t) ∨
      (s.pc t).node t = some t)
    (hintr : ∀ u cv, p.Scans u cv →
      s'.nodeCv u = some cv ∧ s'.nodeFlags u &&& COND_UNINTERRUPTABLE = 0)
    (hscan : ∀ u cv n, p = .intrScan u cv n → Scanned (L cv) u n) :
    WaitInv s' L (Function.update ph t q) := by
  have hph' : ∀ u cv o, Function.update ph t q u = .waiting cv o ↔ ph u = .waiting cv o := by
    intro u cv o
    by_cases hu : u = t
    · subst hu; rw [Function.update_self, hph]
    · rw [Function.update_of_ne hu]
  have hhit' : ∀ i u, s'.pc i = .intrHit u ↔ s.pc i = .intrHit u := hpc ▸ intrHit_iff hhit
  have hloc' :
      Local (Function.update ph t q t) (s'.blocked t) (s'.nodeCv t) (s'.nodeFlags t) p := by
    rw [Function.update_self]; exact hloc
  refine h.change hl t (hheap ▸ h.rep) hpc ?_ ?_ hloc' (by simpa using htr)
    ?_ ?_ hnode (fun _ => Or.inl rfl) hintr hscan
  · intro u hu
    obtain ⟨h1, h2, h3, h4⟩ := hoth u hu
    exact ⟨h1, h2, h3, h4, Function.update_of_ne hu _ _⟩
  · rw [show s'.pc t = p by rw [hpc, Function.update_self]]; exact hloc'
  · intro u c
    simp only [hph', ne_eq, hhit']
    exact h.mem u c
  · intro i u hi
    obtain ⟨cv, mp, hu, hw⟩ := h.hit i u ((hhit' i u).1 hi)
    refine ⟨cv, mp, ?_, (hph' u cv 0).2 hw⟩
    have hut : u ≠ t := by
      rintro rfl
      exact hslept cv mp 0 hu hw
    rw [hpc, Function.update_of_ne hut, hu]

/-- A step of `t` that only moves its program point, as far as the waits go. -/
theorem WaitInv.keep (h : WaitInv s L ph) (hl : LockInv s) {p : Pc T C M}
    (hheap : s'.heap = s.heap) (hpc : s'.pc = Function.update s.pc t p)
    (hb : s'.blocked = s.blocked) (hc : s'.nodeCv = s.nodeCv) (hf : s'.nodeFlags = s.nodeFlags)
    (hw : ∀ u, waitTrace u s' = waitTrace u s)
    (hloc : Local (ph t) (s.blocked t) (s.nodeCv t) (s.nodeFlags t) p)
    (hslept : ∀ cv mp o, s.pc t = .asleep cv mp o → ph t ≠ .waiting cv o)
    (hhit : ∀ u, s.pc t ≠ .intrHit u ∧ p ≠ .intrHit u)
    (hintr : ∀ u cv, p.Scans u cv →
      s.nodeCv u = some cv ∧ s.nodeFlags u &&& COND_UNINTERRUPTABLE = 0)
    (hscan : ∀ u cv n, p = .intrScan u cv n → Scanned (L cv) u n) : WaitInv s' L ph := by
  have := h.quiet hl (t := t) (q := ph t) hheap hpc
    (fun u _ => ⟨by rw [hb], by rw [hc], by rw [hf], hw u⟩) (by rw [hb, hc, hf]; exact hloc)
    (by rw [hw]; exact h.traced t) (fun _ _ => Iff.rfl) hslept hhit
    (Or.inl ⟨by rw [hc], by rw [hf]⟩) (by rw [hc, hf]; exact hintr) hscan
  rwa [Function.update_eq_self] at this

end

/-! ### The steps that change a phase or a queue -/

/-- The state after `cond_q_push` and the updates of the node. -/
def pushed (s : State T C M) (t : T) (cv : C) (mp : M) (o : BitVec 32) : State T C M :=
  (((((condQPush s cv t t).setNodeFlags t (waitFlags o)).setNodeCv t
    (some cv)).setNodeLock t none).log (.waitBegin t cv o)).setPc t (.waitBlock cv mp o)

omit [DecidableEq M] in
/-- **A wait begins.** -/
theorem WaitInv.push (h : WaitInv s L ph) (hl : LockInv s) {cv : C} {mp : M} {o : BitVec 32}
    (hpc : s.pc t = .waitPush cv mp o) :
    WaitInv (pushed s t cv mp o) (Function.update L cv (t :: L cv))
      (Function.update ph t (.waiting cv o)) := by
  have hloc := h.loc t
  rw [hpc] at hloc
  obtain ⟨ho, hc, hout, hb⟩ := hloc
  have hfree := h.not_mem hout
  have hnohit := h.not_hit (t := t) (by rw [hpc]; simp)
  have hpts : ∀ u, s.pc t ≠ .intrHit u ∧ (.waitBlock cv mp o : Pc T C M) ≠ .intrHit u := by
    rw [hpc]; exact fun u => ⟨by simp, by simp⟩
  have hpc' : (pushed s t cv mp o).pc = Function.update s.pc t (.waitBlock cv mp o) := rfl
  have hhist : (pushed s t cv mp o).hist = s.hist ++ [.waitBegin t cv o] := rfl
  have hloc' : Local (Function.update ph t (.waiting cv o) t) ((pushed s t cv mp o).blocked t)
      ((pushed s t cv mp o).nodeCv t) ((pushed s t cv mp o).nodeFlags t)
      (.waitBlock cv mp o : Pc T C M) := by
    refine ⟨ho, Function.update_self .., Function.update_self .., hb, Function.update_self ..⟩
  refine h.change hl t (condQPush_rep h.rep hfree) hpc' ?_ ?_ hloc' ?_
    ?_ ?_ (Or.inr (by rw [hpc]; rfl)) ?_
    (fun _ _ => False.elim) (by simp)
  · intro u hu
    refine ⟨rfl, Function.update_of_ne hu _ _, Function.update_of_ne hu _ _, ?_,
      Function.update_of_ne hu _ _⟩
    simp [waitTrace, hhist, waitEv, Ne.symm hu]
  · rw [show (pushed s t cv mp o).pc t = _ from Function.update_self ..]; exact hloc'
  · have := h.traced t
    rw [hout] at this
    rw [Function.update_self, waitTrace, hhist]
    simpa [waitEv, waitTrace] using this.began cv o
  · intro u c
    rw [hpc']
    simp only [ne_eq, intrHit_iff hpts]
    by_cases hu : u = t
    · subst hu
      rw [Function.update_self]
      by_cases hcc : c = cv
      · subst hcc
        simp [hnohit]
      · rw [Function.update_of_ne hcc]
        apply iff_of_false (hfree c)
        rintro ⟨⟨o', ho'⟩, _⟩
        cases ho'
        exact hcc rfl
    · rw [Function.update_of_ne hu, ← h.mem u c]
      by_cases hcc : c = cv
      · subst hcc
        rw [Function.update_self, List.mem_cons]
        exact or_iff_right hu
      · rw [Function.update_of_ne hcc]
  · intro i u hi
    have hi' : s.pc i = .intrHit u := (intrHit_iff hpts i u).1 hi
    have hut : u ≠ t := by
      rintro rfl
      exact hnohit i hi'
    obtain ⟨c, m, h1, h2⟩ := h.hit i u hi'
    exact ⟨c, m, by rw [hpc', Function.update_of_ne hut, h1], by rw [Function.update_of_ne hut, h2]⟩
  · intro c
    by_cases hcc : c = cv
    · subst hcc; exact Or.inr (by rw [hpc]; rfl)
    · exact Or.inl (Function.update_of_ne hcc _ _)

/-- The queues after `u` has been removed from `cv`. -/
theorem mem_unlinked {h : QHeap C T} (hr : Represents h L) {u w : T} {cv c : C} (hu : u ∈ L cv) :
    w ∈ Function.update L cv ((L cv).erase u) c ↔ w ≠ u ∧ w ∈ L c := by
  by_cases hc : c = cv
  · subst hc
    rw [Function.update_self]
    exact (hr.nodup c).mem_erase_iff
  · rw [Function.update_of_ne hc]
    refine ⟨fun hw => ⟨?_, hw⟩, fun hw => hw.2⟩
    rintro rfl
    exact hc (hr.disjoint _ _ _ hw hu)

omit [DecidableEq M] in
/-- **A signal or broadcast ends the wait of the oldest entry**, if there is one. -/
theorem WaitInv.signal (h : WaitInv s L ph) (hl : LockInv s) {cv : C} {k : Ender}
    (hk : k ≠ .interrupt) (hq : (s.pc t).q = some cv) (hout : ph t = .out)
    (hscan : ∀ u c n, s.pc t ≠ .intrScan u c n) (hintr : ∀ u c, ¬ (s.pc t).Scans u c) :
    ∃ L' ph', WaitInv (doCondSignalUnsafe s cv t k) L' ph' := by
  rcases doCondSignalUnsafe_cases s cv t k with ⟨_, he⟩ | ⟨u, hu, he⟩
  · exact ⟨L, ph, by rw [he]; exact h⟩
  have hmem : u ∈ L cv := List.mem_of_getLast? (h.rep.tail cv ▸ hu)
  obtain ⟨hut, mp, o, hpu, hb, hw⟩ := h.asleep_of_mem hl hmem hq hout
  obtain ⟨ho, hf, hc⟩ := h.flags_of_waiting hw
  rw [hl.tcb u] at he
  rw [he]
  refine ⟨Function.update L cv ((L cv).erase u), Function.update ph u (.ended cv o k), ?_⟩
  have hend : endFlags o k = waitFlags o := by
    cases k with
    | interrupt => exact absurd rfl hk
    | _ => rfl
  refine h.change hl (t := t) (p := s.pc t) u (qRemove_spec h.rep hmem)
    (Function.update_eq_self _ _).symm ?_ ?_ ?_ ?_ ?_ ?_
    (Or.inl ⟨rfl, rfl⟩) ?_ (fun w c hc => absurd hc (hintr w c))
    (fun w c n hc => absurd hc (hscan w c n))
  · intro w hw
    refine ⟨Function.update_of_ne hw _ _, rfl, rfl, ?_, Function.update_of_ne hw _ _⟩
    simp [waitTrace, schedUnblockTcb, State.log, State.setHeap, State.setBlocked, waitEv,
      Ne.symm hw]
  · show Local _ _ _ _ (s.pc u)
    rw [hpu, Function.update_self]
    refine ⟨ho, hc, Or.inr ⟨k, rfl, Function.update_self .., ?_, fun h => absurd h hk⟩⟩
    rw [hend]; exact hf
  · have := h.loc t
    rw [Function.update_of_ne (Ne.symm hut)]
    show Local (ph t) (Function.update s.blocked u false t) (s.nodeCv t) (s.nodeFlags t) (s.pc t)
    rw [Function.update_of_ne (Ne.symm hut)]
    exact this
  · have := h.traced u
    rw [hw] at this
    rw [Function.update_self]
    simpa [waitTrace, schedUnblockTcb, State.log, State.setHeap, State.setBlocked, waitEv]
      using this.ended k
  · intro w c
    rw [mem_unlinked h.rep hmem, h.mem w c]
    show _ ↔ _ ∧ ∀ i, s.pc i ≠ _
    by_cases hwu : w = u
    · subst hwu
      rw [Function.update_self]
      simp
    · rw [Function.update_of_ne hwu]
      exact and_iff_right hwu
  · intro i w hi
    obtain ⟨c, m, h1, h2⟩ := h.hit i w hi
    refine ⟨c, m, h1, ?_⟩
    -- an interrupted thread has left its queue
    have hwu : w ≠ u := by
      rintro rfl
      exact ((h.mem w cv).1 hmem).2 i hi
    rw [Function.update_of_ne hwu, h2]
  · intro c
    by_cases hcc : c = cv
    · subst hcc; exact Or.inr hq
    · exact Or.inl (Function.update_of_ne hcc _ _)

omit [DecidableEq M] in
/-- **A `cond_interrupt` takes a waiter out of its queue.** -/
theorem WaitInv.scanHit (h : WaitInv s L ph) (hl : LockInv s) {u : T} {cv : C}
    (hpc : s.pc t = .intrScan u cv (some u)) :
    WaitInv (((s.setHeap (qRemove s.heap cv u)).setQLock cv none).setPc t (.intrHit u))
      (Function.update L cv ((L cv).erase u)) ph := by
  have hloc := h.loc t
  rw [hpc] at hloc
  obtain ⟨hc, hout, hb⟩ := hloc
  have hmem : u ∈ L cv := by
    obtain ⟨pre, suf, hL, _, hn⟩ := h.scan t u cv _ hpc
    rw [hL]
    exact List.mem_append_right _ (List.mem_of_head? hn.symm)
  have hq : (s.pc t).q = some cv := by rw [hpc]; rfl
  obtain ⟨hut, mp, o, hpu, hbu, hw⟩ := h.asleep_of_mem hl hmem hq hout
  have ho : o = 0 := by
    obtain ⟨_, hfl⟩ := h.intr t u cv (by rw [hpc]; exact ⟨rfl, rfl⟩)
    obtain ⟨ho, hf, _⟩ := h.flags_of_waiting hw
    rcases ho with rfl | rfl
    · rfl
    · rw [hf] at hfl
      exact absurd hfl (by decide)
  subst ho
  have hnohit : ∀ i, s.pc i ≠ .intrHit u := ((h.mem u cv).1 hmem).2
  refine h.change hl (p := .intrHit u) t (qRemove_spec h.rep hmem) rfl
    (fun w hw => ⟨rfl, rfl, rfl, rfl, rfl⟩) ?_ ⟨hc, hout, hb⟩ (h.traced t) ?_
    ?_ (Or.inl ⟨rfl, rfl⟩) ?_ (fun _ _ => False.elim) (by simp)
  · rw [show (State.setPc _ t (.intrHit u)).pc t = .intrHit u from Function.update_self ..]
    exact ⟨hc, hout, hb⟩
  · intro w c
    rw [mem_unlinked h.rep hmem, h.mem w c]
    show _ ↔ _ ∧ ∀ i, Function.update s.pc t (.intrHit u) i ≠ .intrHit w
    constructor
    · rintro ⟨hwu, ho, hn⟩
      refine ⟨ho, ?_⟩
      intro i hi
      by_cases hit : i = t
      · subst hit
        rw [Function.update_self] at hi
        cases hi
        exact hwu rfl
      · rw [Function.update_of_ne hit] at hi
        exact hn i hi
    · rintro ⟨ho, hn⟩
      have hwu : w ≠ u := by
        rintro rfl
        exact hn t (Function.update_self ..)
      refine ⟨hwu, ho, ?_⟩
      intro i hi
      by_cases hit : i = t
      · subst hit
        rw [hpc] at hi
        cases hi
      · exact hn i (by rw [Function.update_of_ne hit, hi])
  · intro i w hi
    by_cases hit : i = t
    · subst hit
      have hi' : Function.update s.pc i (.intrHit u) i = .intrHit w := hi
      rw [Function.update_self] at hi'
      cases hi'
      exact ⟨cv, mp, (Function.update_of_ne hut _ _).trans hpu, hw⟩
    · have hi' : s.pc i = .intrHit w := (Function.update_of_ne hit _ _).symm.trans hi
      obtain ⟨c, m, h1, h2⟩ := h.hit i w hi'
      have hwt : w ≠ t := by
        rintro rfl
        rw [hpc] at h1
        cases h1
      exact ⟨c, m, (Function.update_of_ne hwt _ _).trans h1, h2⟩
  · intro c
    by_cases hcc : c = cv
    · subst hcc; exact Or.inr hq
    · exact Or.inl (Function.update_of_ne hcc _ _)

/-- The state after a `cond_interrupt` that returns 0. -/
def interrupted (s : State T C M) (t u : T) : State T C M :=
  ((schedUnblockTcb (s.setNodeFlags u (s.nodeFlags u ||| COND_INTERRUPTED)) t u
    .interrupt).setNodeLock u none).endIntr t u 0

/-- **A `cond_interrupt` ends the wait of the thread it took out.** -/
theorem WaitInv.interrupt (h : WaitInv s L ph) (hl : LockInv s) {u : T}
    (hpc : s.pc t = .intrHit u) :
    ∃ cv, WaitInv (interrupted s t u) L (Function.update ph u (.ended cv 0 .interrupt)) := by
  have hloc := h.loc t
  rw [hpc] at hloc
  obtain ⟨hc, hout, hb⟩ := hloc
  obtain ⟨cv, mp, hpu, hw⟩ := h.hit t u hpc
  obtain ⟨ho, hf, hcu⟩ := h.flags_of_waiting hw
  have hut : u ≠ t := by
    rintro rfl
    rw [hpc] at hpu
    cases hpu
  have hnot : ∀ c, u ∉ L c := fun c hm => ((h.mem u c).1 hm).2 t hpc
  have honly : ∀ i, s.pc i = .intrHit u → i = t := by
    intro i hi
    exact hl.node.unique (k := u) (by rw [hi]; rfl) (by rw [hpc]; rfl)
  have hpc' : (interrupted s t u).pc = Function.update s.pc t .idle := rfl
  have hhist : (interrupted s t u).hist =
      s.hist ++ [.unblock t u .interrupt] ++ [.intrEnd t u 0] := rfl
  have hhit : ∀ i w, (interrupted s t u).pc i = .intrHit w ↔ s.pc i = .intrHit w ∧ i ≠ t := by
    intro i w
    rw [hpc']
    by_cases hit : i = t
    · subst hit; simp
    · rw [Function.update_of_ne hit]; simp [hit]
  refine ⟨cv, ?_⟩
  refine h.change hl (p := .idle) u h.rep hpc' ?_ ?_ ?_ ?_ ?_
    ?_ (Or.inr (by rw [hpc]; rfl)) (fun _ => Or.inl rfl) (fun _ _ => False.elim)
    (by simp)
  · intro w hw
    refine ⟨Function.update_of_ne hw _ _, rfl, Function.update_of_ne hw _ _, ?_,
      Function.update_of_ne hw _ _⟩
    simp [waitTrace, hhist, waitEv, Ne.symm hw]
  · rw [show (interrupted s t u).pc u = .asleep cv mp 0 from
      (Function.update_of_ne hut _ _).trans hpu, Function.update_self]
    refine ⟨ho, hcu, Or.inr ⟨.interrupt, rfl, Function.update_self .., ?_, fun _ => rfl⟩⟩
    rw [show (interrupted s t u).nodeFlags u = s.nodeFlags u ||| COND_INTERRUPTED from
      Function.update_self .., hf]
    rfl
  · rw [Function.update_of_ne (Ne.symm hut)]
    exact ⟨hc, hout, (Function.update_of_ne (Ne.symm hut) _ _).trans hb⟩
  · have := h.traced u
    rw [hw] at this
    rw [Function.update_self, waitTrace, hhist]
    simpa [waitTrace, waitEv, List.filterMap_cons] using this.ended .interrupt
  · intro w c
    simp only [ne_eq, hhit]
    by_cases hwu : w = u
    · subst hwu
      rw [Function.update_self]
      apply iff_of_false (hnot c)
      rintro ⟨⟨o, ho⟩, _⟩
      cases ho
    · rw [Function.update_of_ne hwu, h.mem w c]
      refine and_congr_right fun _ => forall_congr' ?_
      intro i
      have : s.pc i = .intrHit w → i ≠ t := by
        rintro hi rfl
        rw [hpc] at hi
        cases hi
        exact hwu rfl
      tauto
  · intro i w hi
    obtain ⟨hi', hit⟩ := (hhit i w).1 hi
    obtain ⟨c, m, h1, h2⟩ := h.hit i w hi'
    have hwt : w ≠ t := by
      rintro rfl
      rw [hpc] at h1
      cases h1
    have hwu : w ≠ u := by
      rintro rfl
      exact hit (honly i hi')
    exact ⟨c, m, by rw [hpc', Function.update_of_ne hwt, h1], by rw [Function.update_of_ne hwu, h2]⟩

/-! ### All steps -/

/-- A program point that is neither asleep nor part of a `cond_interrupt` past its checks. -/
def Pc.Plain : Pc T C M → Prop
  | .asleep .. | .intrQ .. | .intrScan .. | .intrHit _ => False
  | _ => True

omit [DecidableEq C] [DecidableEq M] in
/-- A step between plain program points that touches no queue, node or history of waits. -/
theorem WaitInv.plain (h : WaitInv s L ph) (hl : LockInv s) {p₀ p : Pc T C M}
    (h₀ : s.pc t = p₀) (hpc : s'.pc = Function.update s.pc t p) (hp₀ : p₀.Plain) (hp : p.Plain)
    (hloc : Local (ph t) (s.blocked t) (s.nodeCv t) (s.nodeFlags t) p)
    (hw : ∀ u, waitTrace u s' = waitTrace u s)
    (hheap : s'.heap = s.heap) (hb : s'.blocked = s.blocked) (hc : s'.nodeCv = s.nodeCv)
    (hf : s'.nodeFlags = s.nodeFlags) : ∃ L' ph', WaitInv s' L' ph' := by
  refine ⟨L, ph, h.keep hl hheap hpc hb hc hf hw hloc ?_ ?_ ?_ ?_⟩
  · intro cv mp o ha
    rw [← h₀, ha] at hp₀
    exact hp₀.elim
  · intro u
    constructor
    · intro ha
      rw [← h₀, ha] at hp₀
      exact hp₀.elim
    · rintro rfl
      exact hp.elim
  · intro u cv hs
    cases p <;> simp_all [Pc.Scans, Pc.Plain]
  · rintro u cv n rfl
    exact hp.elim

omit [DecidableEq C] [DecidableEq M] in
theorem waitTrace_log_intrBegin (i v u : T) :
    waitTrace u (s.log (.intrBegin i v)) = waitTrace u s := by
  simp [waitTrace, State.log, waitEv]

omit [DecidableEq C] [DecidableEq M] in
theorem waitTrace_log_intrEnd (i v u : T) (r : Int) :
    waitTrace u (s.log (.intrEnd i v r)) = waitTrace u s := by
  simp [waitTrace, State.log, waitEv]

/-- The result of a wait, read off its flags. -/
theorem ret_of_flags {o : BitVec 32} (ho : IsOpts o) (k : Ender) :
    (if endFlags o k &&& COND_INTERRUPTED ≠ 0 then -EINTR else 0) = k.ret := by
  rcases ho with rfl | rfl <;> cases k <;> decide

omit [DecidableEq T] [DecidableEq C] [DecidableEq M] in
/-- An uninterruptable wait returns 0, so `cond_wait_uninterruptable` does not panic. -/
theorem endPc_of_ret {o : BitVec 32} {k : Ender} (hk : k = .interrupt → o = 0) :
    (endPc o k.ret : Pc T C M) = .idle := by
  unfold endPc
  cases k with
  | interrupt => rw [hk rfl]; rfl
  | _ => simp [Ender.ret]

omit [DecidableEq C] [DecidableEq M] in
/-- **A wait returns.** -/
theorem WaitInv.wakeTest (h : WaitInv s L ph) (hl : LockInv s) {mp : M} {o : BitVec 32}
    (hpc : s.pc t = .wakeTest mp o) :
    WaitInv ((s.setNodeLock t none).endWait t o
      (if s.nodeFlags t &&& COND_INTERRUPTED ≠ 0 then -EINTR else 0)) L
      (Function.update ph t .out) := by
  have hloc := h.loc t
  rw [hpc] at hloc
  obtain ⟨ho, hc, cv, k, hph, hb, hf, hk⟩ := hloc
  rw [hf, ret_of_flags ho k, endWait_eq, endPc_of_ret hk]
  refine h.quiet hl (p := .idle) rfl rfl (fun u hu => ⟨rfl, rfl, rfl, ?_⟩) ⟨hc, rfl, hb⟩ ?_ ?_ ?_ ?_
    (Or.inl ⟨rfl, rfl⟩) (fun _ _ => False.elim) (by simp)
  · simp [waitTrace, State.setPc, State.log, State.setNodeLock, waitEv, Ne.symm hu]
  · have := h.traced t
    rw [hph] at this
    simpa [waitTrace, State.setPc, State.log, State.setNodeLock, waitEv] using this.returned hk
  · simp [hph]
  · simp [hpc]
  · simp [hpc]

omit [DecidableEq C] [DecidableEq M] in
/-- `cond_wait` marks its caller blocked. -/
theorem WaitInv.waitBlock (h : WaitInv s L ph) (hl : LockInv s) {cv : C} {mp : M} {o : BitVec 32}
    (hpc : s.pc t = .waitBlock cv mp o) :
    WaitInv ((s.setBlocked t true).setPc t (.waitUnlockMp cv mp o)) L
      (Function.update ph t (ph t)) := by
  have hloc := h.loc t
  rw [hpc] at hloc
  obtain ⟨ho, hc, hph, _, hf⟩ := hloc
  refine h.quiet hl (p := .waitUnlockMp cv mp o) rfl rfl
    (fun u hu => ⟨Function.update_of_ne hu _ _, rfl, rfl, rfl⟩) ?_ (h.traced t)
    (fun _ _ => Iff.rfl) ?_ ?_ (Or.inl ⟨rfl, rfl⟩) (fun _ _ => False.elim) (by simp)
  · exact ⟨ho, hc, hph, Function.update_self .., hf⟩
  all_goals simp [hpc]

omit [DecidableEq M] in
/-- `cond_wait` releases `q_lock` and sleeps. -/
theorem WaitInv.waitUnlockQ (h : WaitInv s L ph) (hl : LockInv s) {cv : C} {mp : M}
    {o : BitVec 32} (hpc : s.pc t = .waitUnlockQ cv mp o) :
    WaitInv ((s.setQLock cv none).setPc t (.asleep cv mp o)) L ph := by
  have hloc := h.loc t
  rw [hpc] at hloc
  obtain ⟨ho, hc, hw⟩ := hloc
  refine h.keep hl rfl rfl rfl rfl rfl (fun _ => rfl) ⟨ho, hc, Or.inl hw⟩ ?_ ?_ ?_ ?_
  all_goals simp [hpc, Pc.Scans]

omit [DecidableEq C] [DecidableEq M] in
/-- Only a thread whose wait was ended goes on. -/
theorem WaitInv.resume (h : WaitInv s L ph) (hl : LockInv s) {cv : C} {mp : M} {o : BitVec 32}
    (hpc : s.pc t = .asleep cv mp o) (hb : s.blocked t = false) :
    WaitInv (s.setPc t (.wakeNode cv mp o)) L ph := by
  have hloc := h.loc t
  rw [hpc] at hloc
  obtain ⟨ho, hc, ⟨_, hb', _⟩ | hw⟩ := hloc
  · rw [hb] at hb'
    cases hb'
  refine h.keep hl rfl rfl rfl rfl rfl (fun _ => rfl) ⟨ho, hc, hw⟩ ?_ ?_ ?_ ?_
  · intro cv mp o _ hph
    obtain ⟨k, hk, _⟩ := hw
    rw [hk] at hph
    cases hph
  all_goals simp [hpc, Pc.Scans]

omit [DecidableEq C] [DecidableEq M] in
/-- A woken thread clears `q->cv`. -/
theorem WaitInv.wakeCv (h : WaitInv s L ph) (hl : LockInv s) {cv : C} {mp : M} {o : BitVec 32}
    (hpc : s.pc t = .wakeCv cv mp o) :
    WaitInv ((s.setNodeCv t none).setPc t (.wakeMp mp o)) L (Function.update ph t (ph t)) := by
  have hloc := h.loc t
  rw [hpc] at hloc
  obtain ⟨ho, _, hw⟩ := hloc
  refine h.quiet hl (p := .wakeMp mp o) rfl rfl
    (fun u hu => ⟨rfl, Function.update_of_ne hu _ _, rfl, rfl⟩) ?_ (h.traced t)
    (fun _ _ => Iff.rfl) ?_ ?_ (Or.inr (by rw [hpc]; rfl)) (fun _ _ => False.elim) (by simp)
  · exact ⟨ho, Function.update_self .., cv, hw⟩
  all_goals simp [hpc]

omit [DecidableEq M] in
/-- `cond_signal` ends the wait of the oldest entry and returns. -/
theorem WaitInv.signalBody (h : WaitInv s L ph) (hl : LockInv s) {cv : C}
    (hpc : s.pc t = .signalBody cv) :
    ∃ L' ph', WaitInv (((doCondSignalUnsafe s cv t .signal).setQLock cv none).setPc t .idle)
      L' ph' := by
  have hloc := h.loc t
  rw [hpc] at hloc
  obtain ⟨L', ph', h'⟩ := h.signal hl (k := .signal) (by simp) (by rw [hpc]; rfl) hloc.2.1
    (by simp [hpc]) (by simp [hpc, Pc.Scans])
  obtain ⟨e1, e2, e3, e4⟩ := doCondSignalUnsafe_locks s cv t .signal
  have hl' : LockInv (doCondSignalUnsafe s cv t .signal) := hl.congr e1 e2 e3 e4
  have hpc' : (doCondSignalUnsafe s cv t .signal).pc t = .signalBody cv := by rw [e4, hpc]
  have hloc' := h'.loc t
  rw [hpc'] at hloc'
  exact h'.plain hl' hpc' rfl trivial trivial hloc' (fun _ => rfl) rfl rfl rfl rfl

omit [DecidableEq C] [DecidableEq M] in
/-- `cond_interrupt` finds its target in an interruptable wait. -/
theorem WaitInv.intrCheck (h : WaitInv s L ph) (hl : LockInv s) {u : T} {cv : C}
    (hpc : s.pc t = .intrCheck u) (hcv : s.nodeCv u = some cv)
    (hfl : s.nodeFlags u &&& COND_UNINTERRUPTABLE = 0) :
    WaitInv (s.setPc t (.intrQ u cv)) L ph := by
  have hloc := h.loc t
  rw [hpc] at hloc
  refine h.keep hl rfl rfl rfl rfl rfl (fun _ => rfl) hloc ?_ ?_ ?_ ?_
  · simp [hpc]
  · simp [hpc]
  · rintro u cv ⟨rfl, rfl⟩
    exact ⟨hcv, hfl⟩
  · simp

omit [DecidableEq M] in
/-- `cond_q_remove` begins at the head. -/
theorem WaitInv.intrQ (h : WaitInv s L ph) (hl : LockInv s) {u : T} {cv : C}
    (hpc : s.pc t = .intrQ u cv) :
    WaitInv ((s.setQLock cv (some t)).setPc t (.intrScan u cv (s.heap.head cv))) L ph := by
  have hloc := h.loc t
  rw [hpc] at hloc
  refine h.keep hl rfl rfl rfl rfl rfl (fun _ => rfl) hloc ?_ ?_ ?_ ?_
  · simp [hpc]
  · simp [hpc]
  · rintro u cv ⟨rfl, rfl⟩
    exact h.intr t _ _ (by rw [hpc]; exact ⟨rfl, rfl⟩)
  · rintro u cv n ⟨⟩
    exact ⟨[], L _, rfl, List.not_mem_nil, h.rep.head _⟩

omit [DecidableEq M] in
/-- `cond_q_remove` does not find its target. -/
theorem WaitInv.scanEnd (h : WaitInv s L ph) (hl : LockInv s) {u : T} {cv : C}
    (hpc : s.pc t = .intrScan u cv none) :
    WaitInv ((s.setQLock cv none).setPc t (.intrMiss u)) L ph := by
  have hloc := h.loc t
  rw [hpc] at hloc
  refine h.keep hl rfl rfl rfl rfl rfl (fun _ => rfl) hloc ?_ ?_ ?_ ?_
  all_goals simp [hpc, Pc.Scans]

omit [DecidableEq C] [DecidableEq M] in
/-- `cond_q_remove` passes an entry of another thread. -/
theorem WaitInv.scanNext (h : WaitInv s L ph) (hl : LockInv s) {u a : T} {cv : C}
    (hpc : s.pc t = .intrScan u cv (some a)) (hne : s.nodeTcb a ≠ u) :
    WaitInv (s.setPc t (.intrScan u cv (s.heap.next a))) L ph := by
  have hloc := h.loc t
  rw [hpc] at hloc
  refine h.keep hl rfl rfl rfl rfl rfl (fun _ => rfl) hloc ?_ ?_ ?_ ?_
  · simp [hpc]
  · simp [hpc]
  · rintro v c ⟨rfl, rfl⟩
    exact h.intr t _ _ (by rw [hpc]; exact ⟨rfl, rfl⟩)
  · rintro v c n ⟨⟩
    obtain ⟨pre, suf, hL, hpre, hn⟩ := h.scan t u cv _ hpc
    obtain ⟨rest, rfl⟩ : ∃ rest, suf = a :: rest := by
      cases suf with
      | nil => cases hn
      | cons b rest => cases hn; exact ⟨rest, rfl⟩
    refine ⟨pre ++ [a], rest, by simp [hL], ?_, (h.rep.links hL).1⟩
    rw [List.mem_append, List.mem_singleton]
    rintro (hm | rfl)
    · exact hpre hm
    · exact hne (hl.tcb u)

/-- **Every step keeps the invariant of the waits.** -/
theorem WaitInv.move (h : WaitInv s L ph) (hl : LockInv s) (hm : Move s t s') :
    ∃ L' ph', WaitInv s' L' ph' := by
  have hloc := h.loc t
  cases hm with
  | callLock mp hpc | callSignal cv hpc | callBroadcast cv hpc | waitUnlockMp hpc
  | lockMp hpc hfree | waitNode hpc hfree | waitQ hpc hfree | wakeNode hpc hfree | wakeMp hpc hfree
  | signalQ hpc hfree | bcastQ hpc hfree | bcastEnd hpc hempty | intrNode hpc hfree =>
    rw [hpc] at hloc
    exact h.plain hl hpc rfl trivial trivial hloc (fun _ => rfl) rfl rfl rfl rfl
  | callUnlock mp hpc hmp =>
    rw [hpc] at hloc
    have hpc' : (s.setMutex mp none).pc = Function.update s.pc t .idle := by
      rw [← hpc, Function.update_eq_self]; rfl
    exact h.plain hl hpc hpc' trivial trivial hloc (fun _ => rfl) rfl rfl rfl rfl
  | callWait cv mp o hpc hmp ho =>
    rw [hpc] at hloc
    exact h.plain hl hpc rfl trivial trivial ⟨ho, hloc⟩ (fun _ => rfl) rfl rfl rfl rfl
  | callInterrupt u hpc =>
    rw [hpc] at hloc
    exact h.plain hl hpc rfl trivial trivial hloc (waitTrace_log_intrBegin t u) rfl rfl rfl rfl
  | waitInit hpc =>
    rw [hpc] at hloc
    exact h.plain hl hpc rfl trivial trivial hloc (fun _ => rfl)
      (qInitElem_of_free h.rep (h.not_mem hloc.2.2.1)) rfl rfl rfl
  | waitPush hpc => exact ⟨_, _, h.push hl hpc⟩
  | waitBlock hpc => exact ⟨_, _, h.waitBlock hl hpc⟩
  | waitFail hpc => rw [hpc] at hloc; exact hloc.elim
  | waitUnlockQ hpc => exact ⟨_, _, h.waitUnlockQ hl hpc⟩
  | resume hpc hb => exact ⟨_, _, h.resume hl hpc hb⟩
  | wakeCv hpc => exact ⟨_, _, h.wakeCv hl hpc⟩
  | wakeTest hpc => exact ⟨_, _, h.wakeTest hl hpc⟩
  | signalBody hpc => exact h.signalBody hl hpc
  | bcastLoop hpc hne =>
    rw [hpc] at hloc
    exact h.signal hl (by simp) (by rw [hpc]; rfl) hloc.2.1 (by simp [hpc])
      (by simp [hpc, Pc.Scans])
  | @intrRefuse u hpc hno =>
    rw [hpc] at hloc
    exact h.plain hl hpc rfl trivial trivial hloc (waitTrace_log_intrEnd t u · _) rfl rfl rfl rfl
  | intrCheck hpc hcv hfl => exact ⟨_, _, h.intrCheck hl hpc hcv hfl⟩
  | intrQ hpc hfree => exact ⟨_, _, h.intrQ hl hpc⟩
  | scanEnd hpc => exact ⟨_, _, h.scanEnd hl hpc⟩
  | scanNext hpc hne => exact ⟨_, _, h.scanNext hl hpc hne⟩
  | scanHit hpc htcb => exact ⟨_, _, h.scanHit hl hpc⟩
  | scanPanic hpc htcb hne => exact absurd ((hl.tcb _).symm.trans htcb) hne
  | @intrMiss u hpc =>
    rw [hpc] at hloc
    exact h.plain hl hpc rfl trivial trivial hloc (waitTrace_log_intrEnd t u · _) rfl rfl rfl rfl
  | intrHit hpc =>
    obtain ⟨cv, h'⟩ := h.interrupt hl hpc
    exact ⟨_, _, h'⟩

/-! ## Interrupts -/

/-- The thread that a running `cond_interrupt` is about. -/
def Pc.target : Pc T C M → Option T
  | .intrNode u | .intrCheck u | .intrQ u _ | .intrScan u _ _ | .intrMiss u | .intrHit u => some u
  | _ => none

/-- Every thread's calls of `cond_interrupt`, then the current one. -/
def IntrInv (s : State T C M) : Prop :=
  ∀ i, ∃ cs : List (Interrupt T), intrTrace i s =
    cs.flatMap Interrupt.trace ++ (s.pc i).target.toList.map .began

omit [DecidableEq C] [DecidableEq M] in
theorem intrInv_initial : IntrInv (initial : State T C M) := fun _ => ⟨[], rfl⟩

omit [DecidableEq C] [DecidableEq M] in
/-- A step that begins and ends no `cond_interrupt`. -/
theorem IntrInv.keep (h : IntrInv s) {p : Pc T C M} (hpc : s'.pc = Function.update s.pc t p)
    (hp : p.target = (s.pc t).target) (hw : ∀ i, intrTrace i s' = intrTrace i s) : IntrInv s' := by
  intro i
  obtain ⟨cs, hcs⟩ := h i
  refine ⟨cs, ?_⟩
  rw [hw, hcs, hpc]
  by_cases hi : i = t
  · subst hi; rw [Function.update_self, hp]
  · rw [Function.update_of_ne hi]

omit [DecidableEq C] [DecidableEq M] in
/-- A `cond_interrupt` returns. -/
theorem IntrInv.finish (h : IntrInv s) (c : Interrupt T)
    (hpc : s'.pc = Function.update s.pc t .idle) (ht : (s.pc t).target = some c.target)
    (hown : intrTrace t s' = intrTrace t s ++ c.trace.tail)
    (hoth : ∀ i, i ≠ t → intrTrace i s' = intrTrace i s) : IntrInv s' := by
  intro i
  obtain ⟨cs, hcs⟩ := h i
  by_cases hi : i = t
  · subst hi
    refine ⟨cs ++ [c], ?_⟩
    rw [hown, hcs, ht, hpc, Function.update_self]
    have hc : c.trace = .began c.target :: c.trace.tail := by
      unfold Interrupt.trace
      split <;> rfl
    rw [List.flatMap_append, List.flatMap_singleton, hc]
    simp [Pc.target]
  · exact ⟨cs, by rw [hoth i hi, hcs, hpc, Function.update_of_ne hi]⟩

omit [DecidableEq M] in
theorem intrTrace_signal (i : T) {cv : C} {k : Ender} (hk : k ≠ .interrupt) :
    intrTrace i (doCondSignalUnsafe s cv t k) = intrTrace i s := by
  rcases doCondSignalUnsafe_cases s cv t k with ⟨_, he⟩ | ⟨u, _, he⟩
  · rw [he]
  · rw [he]
    cases k with
    | interrupt => exact absurd rfl hk
    | _ => simp [intrTrace, schedUnblockTcb, State.log, State.setHeap, State.setBlocked, intrEv]

omit [DecidableEq C] [DecidableEq M] in
theorem intrTrace_endIntr (i : T) {u v : T} {o : Option T} {r : Int} :
    intrTrace i ((s.setNodeLock v o).endIntr t u r) =
      intrTrace i s ++ if t = i then [.returned u r] else [] := by
  unfold intrTrace State.endIntr
  by_cases hi : t = i <;> simp [State.setPc, State.log, State.setNodeLock, intrEv, hi]

omit [DecidableEq C] [DecidableEq M] in
theorem intrTrace_endWait (i : T) {o : BitVec 32} {r : Int} :
    intrTrace i (s.endWait t o r) = intrTrace i s := by
  simp [endWait_eq, intrTrace, State.setPc, State.log, intrEv]

omit [DecidableEq T] [DecidableEq C] [DecidableEq M] in
@[simp] theorem endPc_target {o : BitVec 32} {r : Int} :
    (endPc o r : Pc T C M).target = none := by
  unfold endPc; split <;> rfl

/-- **Every step keeps the account of the interrupts.** -/
theorem IntrInv.move (h : IntrInv s) (hl : LockInv s) (hm : Move s t s') : IntrInv s' := by
  cases hm
  case callInterrupt u hpc =>
    intro i
    obtain ⟨cs, hcs⟩ := h i
    refine ⟨cs, ?_⟩
    have hstart : ((s.log (.intrBegin t u)).setPc t (.intrNode u)).pc =
        Function.update s.pc t (.intrNode u) := rfl
    have htrace : intrTrace i ((s.log (.intrBegin t u)).setPc t (.intrNode u)) =
        intrTrace i s ++ if t = i then [.began u] else [] := by
      unfold intrTrace
      by_cases hi : t = i <;> simp [State.setPc, State.log, intrEv, hi]
    rw [htrace, hcs, hstart]
    by_cases hi : i = t
    · subst hi
      rw [hpc, Function.update_self]
      simp [Pc.target]
    · rw [Function.update_of_ne hi, if_neg (Ne.symm hi), List.append_nil]
  case callUnlock mp hpc hmp =>
    have hpc' : (s.setMutex mp none).pc = Function.update s.pc t .idle := by
      rw [← hpc, Function.update_eq_self]; rfl
    exact h.keep hpc' (by rw [hpc]) (fun _ => rfl)
  case waitPush cv mp o hpc =>
    apply h.keep rfl (by rw [hpc]; rfl)
    intro i
    simp [intrTrace, State.setPc, State.log, State.setNodeLock, State.setNodeCv,
      State.setNodeFlags, condQPush, State.setHeap, State.setNodeTcb, intrEv]
  case waitFail cv mp o hpc =>
    obtain ⟨_, _, _, e4⟩ := condQPop_locks s cv
    have hh : (condQPop s cv).1.hist = s.hist := by
      unfold condQPop
      split <;> rfl
    refine h.keep (p := endPc o (-EINTR)) ?_ (by rw [hpc, endPc_target]; rfl) ?_
    · rw [endWait_eq, ← e4]; rfl
    · intro i
      rw [intrTrace_endWait]
      show List.filterMap _ (condQPop s cv).1.hist = _
      rw [hh]; rfl
  case wakeTest mp o hpc =>
    exact h.keep (by rw [endWait_eq]; rfl) (by rw [hpc, endPc_target]; rfl)
      (fun i => intrTrace_endWait i)
  case signalBody cv hpc =>
    obtain ⟨_, _, _, e4⟩ := doCondSignalUnsafe_locks s cv t .signal
    exact h.keep (by rw [← e4]; rfl) (by rw [hpc]; rfl) (fun i => intrTrace_signal i (by simp))
  case bcastLoop cv hpc hne =>
    obtain ⟨_, _, _, e4⟩ := doCondSignalUnsafe_locks s cv t .broadcast
    exact h.keep (t := t) (p := s.pc t) (by rw [e4, Function.update_eq_self]) rfl
      (fun i => intrTrace_signal i (by simp))
  case intrRefuse u hpc hno =>
    refine h.finish ⟨u, false⟩ rfl (by rw [hpc]; rfl) ?_ ?_
    · rw [intrTrace_endIntr, if_pos rfl]; rfl
    · intro i hi
      rw [intrTrace_endIntr, if_neg (Ne.symm hi), List.append_nil]
  case intrMiss u hpc =>
    refine h.finish ⟨u, false⟩ rfl (by rw [hpc]; rfl) ?_ ?_
    · rw [intrTrace_endIntr, if_pos rfl]; rfl
    · intro i hi
      rw [intrTrace_endIntr, if_neg (Ne.symm hi), List.append_nil]
  case intrHit u hpc =>
    have htrace : ∀ i, intrTrace i (schedUnblockTcb
        (s.setNodeFlags u (s.nodeFlags u ||| COND_INTERRUPTED)) t u .interrupt) =
          intrTrace i s ++ if t = i then [.unblocked u] else [] := by
      intro i
      unfold intrTrace
      by_cases hi : t = i <;>
        simp [schedUnblockTcb, State.log, State.setBlocked, State.setNodeFlags, intrEv, hi]
    refine h.finish ⟨u, true⟩ rfl (by rw [hpc]; rfl) ?_ ?_
    · rw [intrTrace_endIntr, htrace, if_pos rfl, if_pos rfl, List.append_assoc]; rfl
    · intro i hi
      rw [intrTrace_endIntr, htrace, if_neg (Ne.symm hi), List.append_nil, if_neg (Ne.symm hi),
        List.append_nil]
  case scanPanic u a cv hpc htcb hne => exact absurd ((hl.tcb a).symm.trans htcb) hne
  all_goals exact h.keep rfl (by simp_all [Pc.target]) (fun _ => rfl)

/-! ## Runs -/

/-- **Whom a step unblocks**: a thread that sleeps in a wait. -/
theorem WaitInv.unblocks (h : WaitInv s L ph) (hl : LockInv s) (hm : Move s t s') {i u : T}
    {k : Ender} (hu : .unblock i u k ∈ s'.hist.drop s.hist.length) :
    (∃ cv mp o, s.pc u = .asleep cv mp o) ∧ s.blocked u = true := by
  have hloc := h.loc t
  -- a signal or broadcast finds its target in the queue whose lock the caller holds
  have hsignal : ∀ {cv : C} {k' : Ender}, (s.pc t).q = some cv → ph t = .out →
      .unblock i u k ∈ (doCondSignalUnsafe s cv t k').hist.drop s.hist.length →
      (∃ cv mp o, s.pc u = .asleep cv mp o) ∧ s.blocked u = true := by
    intro cv k' hq hout hmem
    rcases doCondSignalUnsafe_cases s cv t k' with ⟨_, he⟩ | ⟨w, hw, he⟩
    · rw [he, List.drop_length] at hmem
      cases hmem
    · rw [he, hl.tcb w] at hmem
      have hwu : u = w := by
        simp [schedUnblockTcb, State.log, State.setHeap, State.setBlocked] at hmem
        exact hmem.2.1
      have hwL : w ∈ L cv := List.mem_of_getLast? (h.rep.tail cv ▸ hw)
      obtain ⟨_, mp, o, hpu, hb, _⟩ := h.asleep_of_mem hl hwL hq hout
      rw [hwu]
      exact ⟨⟨cv, mp, o, hpu⟩, hb⟩
  cases hm
  case signalBody cv hpc =>
    rw [hpc] at hloc
    exact hsignal (by rw [hpc]; rfl) hloc.2.1 hu
  case bcastLoop cv hpc hne =>
    rw [hpc] at hloc
    exact hsignal (by rw [hpc]; rfl) hloc.2.1 hu
  case intrHit w hpc =>
    obtain ⟨cv, mp, hpu, hw⟩ := h.hit t w hpc
    have hwu : u = w := by
      simp [schedUnblockTcb, State.endIntr, State.setPc, State.setNodeLock, State.log,
        State.setBlocked, State.setNodeFlags] at hu
      exact hu.2.1
    have hlw := h.loc w
    rw [hpu, hw] at hlw
    obtain ⟨_, _, ⟨_, hb, _⟩ | ⟨k, hk, _⟩⟩ := hlw
    · rw [hwu]
      exact ⟨⟨cv, mp, 0, hpu⟩, hb⟩
    · cases hk
  case waitFail cv mp o hpc => rw [hpc] at hloc; exact hloc.elim
  case waitPush cv mp o hpc =>
    simp [State.setPc, State.log, State.setNodeLock, State.setNodeCv, State.setNodeFlags,
      condQPush, State.setHeap, State.setNodeTcb] at hu
  all_goals
    simp [State.setPc, State.log, State.setNodeLock, State.setNodeCv, State.setHeap,
      State.setQLock, State.setMutex, State.setBlocked, State.endIntr, endWait_eq] at hu

/-- Everything the condition variables promise about waits. -/
structure WaitsOnce (s : State T C M) : Prop where
  /-- While `q_lock` is free, the threads queued on `cv`, each once, are those blocked in a wait on
  `cv` that no `cond_interrupt` in progress has taken out. -/
  queue : ∀ cv, s.qLock cv = none → ∃ l, IsQueue s cv l ∧ l.Nodup ∧
    ∀ t, t ∈ l ↔ (∃ mp o, s.pc t = .asleep cv mp o) ∧ s.blocked t = true ∧
      ∀ i, s.pc i ≠ .intrHit t
  one_queue : ∀ cv cv' l l' t, IsQueue s cv l → IsQueue s cv' l' → t ∈ l → t ∈ l' → cv = cv'
  /-- A `cond_interrupt` that has taken a thread out finds it still blocked. -/
  taken_out : ∀ i t, s.pc i = .intrHit t →
    (∃ cv mp o, s.pc t = .asleep cv mp o) ∧ s.blocked t = true
  /-- `sched_unblock_tcb` is applied to threads blocked in a wait only. -/
  unblocks : ∀ e s', (∀ t, e ≠ .eintr t) → step s e = some s' →
    ∀ i u k, .unblock i u k ∈ s'.hist.drop s.hist.length →
      (∃ cv mp o, s.pc u = .asleep cv mp o) ∧ s.blocked u = true
  /-- Every completed wait was ended by one call, an interrupt only if it was interruptable, and
  returned `-EINTR` exactly if that was an interrupt. -/
  waits : ∀ t, ∃ (ws : List (Wait C)) (p : Phase C), (∀ w ∈ ws, w.Fair) ∧
    waitTrace t s = ws.flatMap Wait.trace ++ p.trace ∧ (s.pc t = .idle → p = .out)
  /-- The interrupts that return 0 are those that unblocked their target. -/
  interrupts : ∀ i, ∃ cs : List (Interrupt T), intrTrace i s =
    cs.flatMap Interrupt.trace ++ (s.pc i).target.toList.map .began
  no_panic : ∀ t, s.pc t ≠ .panicked

/-- **Run**: the invariants hold in every state of a run without failing sleeps. -/
theorem exec_inv {es : List (Event T C M)} (hes : ∀ e ∈ es, ∀ t, e ≠ .eintr t)
    (h : Lts.exec step initial es = some s) :
    LockInv s ∧ (∃ L ph, WaitInv s L ph) ∧ IntrInv s := by
  refine Lts.exec_inv_along (fun _ e => ∀ t, e ≠ .eintr t)
    (fun s => LockInv s ∧ (∃ L ph, WaitInv s L ph) ∧ IntrInv s) ?_
    ⟨lockInv_initial, ⟨_, _, waitInv_initial⟩, intrInv_initial⟩ (Lts.along_of_forall hes _) h
  rintro s e s' ⟨hl, ⟨L, ph, hw⟩, hi⟩ he hs
  obtain ⟨t, hm⟩ := step_move he hs
  exact ⟨hl.move hm, hw.move hl hm, hi.move hl hm⟩

/-- **Every wait is ended exactly once and reports how.** -/
theorem wait_ended_exactly_once {es : List (Event T C M)} (hes : ∀ e ∈ es, ∀ t, e ≠ .eintr t)
    (h : Lts.exec step initial es = some s) : WaitsOnce s := by
  obtain ⟨hl, ⟨L, ph, hw⟩, hi⟩ := exec_inv hes h
  have hqueue : ∀ {cv l}, IsQueue s cv l → l = L cv := fun hq =>
    Links.Chain.unique hq (hw.rep.fwd _)
  have hasleep : ∀ {t cv o}, ph t = .waiting cv o → ∀ {mp}, s.pc t = .asleep cv mp o →
      s.blocked t = true := by
    intro t cv o hp mp hpc
    rcases hw.of_waiting hp with hq | ⟨_, _, hb⟩
    · rw [hpc] at hq
      cases hq
    · exact hb
  refine ⟨fun cv hfree => ⟨L cv, hw.rep.fwd cv, hw.rep.nodup cv, ?_⟩, ?_, ?_, ?_, ?_, hi, ?_⟩
  · intro t
    rw [hw.mem t cv]
    constructor
    · rintro ⟨⟨o, ho⟩, hn⟩
      rcases hw.of_waiting ho with hq | ⟨mp, hpc, hb⟩
      · exact absurd hq (hl.q.not_holds_of_free hfree t)
      · exact ⟨⟨mp, o, hpc⟩, hb, hn⟩
    · rintro ⟨⟨mp, o, hpc⟩, hb, hn⟩
      have hloc := hw.loc t
      rw [hpc] at hloc
      obtain ⟨_, _, ⟨hp, _⟩ | ⟨_, _, hb', _⟩⟩ := hloc
      · exact ⟨⟨o, hp⟩, hn⟩
      · rw [hb] at hb'
        cases hb'
  · intro cv cv' l l' t hq hq' ht ht'
    rw [hqueue hq] at ht
    rw [hqueue hq'] at ht'
    exact hw.rep.disjoint _ _ t ht ht'
  · intro i t hpc
    obtain ⟨cv, mp, hpt, hp⟩ := hw.hit i t hpc
    exact ⟨⟨cv, mp, 0, hpt⟩, hasleep hp hpt⟩
  · intro e s' he hs i u k hu
    obtain ⟨t, hm⟩ := step_move he hs
    exact hw.unblocks hl hm hu
  · intro t
    obtain ⟨ws, hf, hws⟩ := hw.traced t
    refine ⟨ws, ph t, hf, hws, ?_⟩
    intro hpc
    have hloc := hw.loc t
    rw [hpc] at hloc
    exact hloc.2.1
  · intro t hpc
    have hloc := hw.loc t
    rw [hpc] at hloc
    exact hloc

end Invariant

/-- Thread `u` goes to sleep, thread `t` interrupts it, thread `u` returns. -/
def interruptedWait {T C M : Type} (t u : T) (cv : C) (mp : M) : List (Event T C M) :=
  [.call u (.mutexLock mp), .run u, .call u (.condWait cv mp), .run u, .run u, .run u, .run u,
    .run u, .run u, .run u, .call t (.condInterrupt u), .run t, .run t, .run t, .run t, .run t,
    .run u, .run u, .run u, .run u, .run u]

theorem interruptedWait_once : ∃ s : State (Fin 2) (Fin 1) (Fin 1),
    Lts.exec step initial (interruptedWait 0 1 0 0) = some s ∧
    waitTrace 1 s = [.began 0 0, .ended .interrupt, .returned (-EINTR)] ∧ WaitsOnce s := by
  have hes : ∀ e ∈ interruptedWait (0 : Fin 2) 1 (0 : Fin 1) (0 : Fin 1), ∀ t, e ≠ .eintr t := by
    decide
  exact ⟨_, rfl, by decide, wait_ended_exactly_once hes rfl⟩

end Timix.Cond
