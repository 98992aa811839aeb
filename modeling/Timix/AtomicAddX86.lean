import Mathlib.Data.BitVec
import Mathlib.Data.Fintype.Basic
import Mathlib.Algebra.BigOperators.Group.List.Basic
import Timix.Lib.Owner
import Timix.Lib.Run
import Timix.Lib.Serial
import Timix.X86

/-!
# `atomic_add` on several x86 processors (`arch/x86/kernel/atomic.S`)

The `xaddl` of `atomic_add` has no `lock` prefix: it reads the word in one step and writes it back
in another.  Any number of processors call `atomic_add` on the word at `addr`.

* `inWindow` — the processor is between the load and the store of its `xaddl`.
* `LoadOk` — the condition on a step: no `xaddl` reads the word while another processor is between
  load and store.
* `Inv` — the additions stored so far are a serial execution; those whose calls have not returned
  yet are about to.
* `overlapping_stores` — two processors that read the same word overwrite each other's sum.

Principal result: `xadd_no_update_lost_along`.
-/

set_option autoImplicit false

namespace Timix.AtomicAddX86

open Timix.X86
open Lts Owner Serialize
open Linear (Outcome)

/-- `cpu p` is `none` while processor `p` is outside; `done` are the calls that returned, oldest
    first, with `val` and the value returned. -/
structure State (P : Type) where
  mem : Mem
  cpu : P → Option Cpu
  done : List (Word × Word)

/-- Processor `p` calls `atomic_add(addr, val)` with any other register and stack contents, or
    takes its next step. -/
inductive Event (P : Type) where
  | call (p : P) (val : Word) (junk : Cpu)
  | run (p : P)

variable {P : Type} [DecidableEq P]

def entryCpu (addr val : Word) (junk : Cpu) : Cpu where
  regs := junk.regs
  zf := junk.zf
  stack off := if off = 4 then addr else if off = 8 then val else junk.stack off
  ip := 0
  loaded := none

def step (addr : Word) (s : State P) : Event P → Option (State P)
  | .call p val junk =>
    match s.cpu p with
    | none => some { s with cpu := Function.update s.cpu p (some (entryCpu addr val junk)) }
    | some _ => none
  | .run p =>
    match s.cpu p with
    | none => none
    | some c =>
      match c.step atomicAdd s.mem with
      | none => none
      | some (.running c' mem') =>
        some { s with mem := mem', cpu := Function.update s.cpu p (some c') }
      | some (.returned c') =>
        some { s with
          cpu := Function.update s.cpu p none
          done := s.done ++ [(c.stack 8, c'.regs .eax)] }

def start (mem : Mem) : State P := ⟨mem, fun _ => none, []⟩

/-- An addition carried out alone. -/
def AddAlone (w val old w' : Word) : Prop := old = w ∧ w' = w + val

/-- No update is lost. -/
structure NoneLost (addr : Word) (mem : Mem) (s : State P) : Prop where
  sum : s.mem addr = mem addr + (s.done.map Prod.fst).sum
  serial : Serializable AddAlone s.done (mem addr) (s.mem addr)

/-- Between the load and the store. -/
def inWindow : Option Cpu → Bool
  | some c => c.loaded.isSome
  | none => false

/-- The next step is the load of an `xaddl`. -/
def loads : Option Cpu → Bool
  | some c =>
    match atomicAdd[c.ip]? with
    | some (.xaddl ..) => c.loaded.isNone
    | _ => false
  | none => false

/-- No processor is between load and store when the word is read. -/
def LoadOk (s : State P) : Event P → Prop
  | .call .. => True
  | .run p => loads (s.cpu p) = true → ∀ q, inWindow (s.cpu q) = false

instance [Fintype P] (s : State P) (e : Event P) : Decidable (LoadOk s e) :=
  match e with
  | .call .. => isTrue trivial
  | .run p =>
    inferInstanceAs (Decidable (loads (s.cpu p) = true → ∀ q, inWindow (s.cpu q) = false))

/-! ## The routine, step by step -/

/-- What holds at each instruction. -/
def PointOk (addr : Word) (c : Cpu) : Prop :=
  match c.ip with
  | 0 => c.loaded = none
  | 1 => c.loaded = none ∧ c.regs .ecx = addr
  | 2 => c.regs .ecx = addr ∧ c.regs .eax = c.stack 8
  | 3 => c.loaded = none
  | _ => False

structure CpuOk (addr : Word) (c : Cpu) : Prop where
  stack : c.stack 4 = addr
  point : PointOk addr c

/-- The four kinds of steps. -/
inductive Kind (addr : Word) (c : Cpu) (mem : Mem) : Outcome Cpu Mem Cpu → Prop where
  | quiet (c' : Cpu) (hc : c.loaded = none) (hc' : c'.loaded = none) (hip : c.ip ≠ 3)
      (hip' : c'.ip ≠ 3) : Kind addr c mem (.running c' mem)
  | load (hc : c.loaded = none) (hip : c.ip = 2) :
      Kind addr c mem (.running { c with loaded := some (mem addr) } mem)
  | store (c' : Cpu) (old : Word) (hc : c.loaded = some old) (hc' : c'.loaded = none)
      (hip : c.ip ≠ 3) (hip' : c'.ip = 3) (hval : c'.stack 8 = c.stack 8)
      (heax : c'.regs .eax = old) :
      Kind addr c mem (.running c' (Function.update mem addr (old + c.stack 8)))
  | ret (hc : c.loaded = none) (hip : c.ip = 3) : Kind addr c mem (.returned c)

variable {addr : Word} {c : Cpu} {mem : Mem} {out : Outcome Cpu Mem Cpu}

/-- **One step.** -/
theorem CpuOk.step (h : CpuOk addr c) (hs : c.step atomicAdd mem = some out) :
    Kind addr c mem out ∧ ∀ c' mem', out = .running c' mem' → CpuOk addr c' := by
  obtain ⟨regs, zf, stack, ip, loaded⟩ := c
  obtain ⟨hstack, hp⟩ := h
  rcases ip with _ | _ | _ | _ | ip
  · obtain rfl := Option.some.inj hs
    obtain rfl : loaded = none := hp
    refine ⟨.quiet _ rfl rfl (by simp) (by simp), ?_⟩
    rintro _ _ ⟨⟩
    exact ⟨hstack, rfl, by simpa using hstack⟩
  · obtain rfl := Option.some.inj hs
    obtain ⟨rfl, hecx⟩ : loaded = none ∧ regs .ecx = addr := hp
    refine ⟨.quiet _ rfl rfl (by simp) (by simp), ?_⟩
    rintro _ _ ⟨⟩
    exact ⟨hstack, by simpa using hecx, by simp⟩
  · obtain ⟨hecx, heax⟩ : regs .ecx = addr ∧ regs .eax = stack 8 := hp
    obtain rfl := Option.some.inj hs
    cases loaded with
    | none =>
      have hk : Kind addr ⟨regs, zf, stack, 2, none⟩ mem
          (.running ⟨regs, zf, stack, 2, some (mem addr)⟩ mem) := .load rfl rfl
      refine ⟨by simpa [Instr.exec, hecx] using hk, ?_⟩
      rintro _ _ ⟨⟩
      exact ⟨hstack, hecx, heax⟩
    | some old =>
      have hk : Kind addr ⟨regs, zf, stack, 2, some old⟩ mem
          (.running ⟨Function.update regs .eax old, old + stack 8 == 0, stack, 3, none⟩
            (Function.update mem addr (old + stack 8))) :=
        .store _ old rfl rfl (by simp) rfl rfl (by simp)
      refine ⟨by simpa [Instr.exec, Cpu.setReg, Cpu.next, hecx, heax] using hk, ?_⟩
      rintro _ _ ⟨⟩
      exact ⟨hstack, rfl⟩
  · obtain rfl := Option.some.inj hs
    obtain rfl : loaded = none := hp
    refine ⟨.ret rfl rfl, ?_⟩
    rintro _ _ ⟨⟩
  · exact hp.elim

/-! ## The invariant -/

/-- The processor is about to return. -/
def returning : Option Cpu → Bool
  | some c => c.ip == 3
  | none => false

/-- The addition a processor about to return has made. -/
def added : Option Cpu → Word × Word
  | some c => (c.stack 8, c.regs .eax)
  | none => (0, 0)

/-- `o` is the processor between load and store, `log` the additions in the order of their stores,
    `pend` the processors about to return. -/
structure Inv (addr w : Word) (s : State P) (o : Option P) (log : List (Word × Word))
    (pend : List P) : Prop where
  cpu : ∀ p c, s.cpu p = some c → CpuOk addr c
  window : Held o inWindow s.cpu
  fresh : ∀ p c old, s.cpu p = some c → c.loaded = some old → old = s.mem addr
  serial : Serial AddAlone log w (s.mem addr)
  nodup : pend.Nodup
  mem_pend : ∀ p, p ∈ pend ↔ returning (s.cpu p) = true
  perm : log.Perm (s.done ++ pend.map fun p => added (s.cpu p))

variable {w : Word} {s s' : State P} {o : Option P} {log : List (Word × Word)} {pend : List P}
  {p : P}

omit [DecidableEq P] in
theorem inv_start (addr : Word) (mem : Mem) :
    Inv addr (mem addr) (start mem : State P) none [] [] where
  cpu _ _ h := by cases h
  window _ := by simp [start, inWindow]
  fresh _ _ _ h := by cases h
  serial := rfl
  nodup := List.nodup_nil
  mem_pend _ := by simp [start, returning]
  perm := List.Perm.refl _

theorem cpu_update {q : P} {d : Option Cpu} {f : P → Option Cpu} {R : Cpu → Prop}
    (h : ∀ q c, f q = some c → R c) (hd : ∀ c, d = some c → R c) (c : Cpu)
    (hc : Function.update f p d q = some c) : R c := by
  by_cases hq : q = p
  · subst hq
    rw [Function.update_self] at hc
    exact hd c hc
  · rw [Function.update_of_ne hq] at hc
    exact h q c hc

theorem map_added_update {l : List P} (hp : p ∉ l) (d : Option Cpu) :
    (l.map fun q => added (Function.update s.cpu p d q)) = l.map fun q => added (s.cpu q) := by
  apply List.map_congr_left
  intro q hq
  rw [Function.update_of_ne (ne_of_mem_of_not_mem hq hp)]

/-- A processor that is not about to return moves, and is not afterwards either. -/
theorem Inv.move_pend (h : Inv addr w s o log pend) {d : Option Cpu}
    (hp : returning (s.cpu p) = false) (hd : returning d = false) :
    (∀ q, q ∈ pend ↔ returning (Function.update s.cpu p d q) = true) ∧
      (pend.map fun q => added (Function.update s.cpu p d q)) =
        pend.map fun q => added (s.cpu q) := by
  have hnot : p ∉ pend := by
    rw [h.mem_pend, hp]
    decide
  refine ⟨?_, map_added_update hnot d⟩
  intro q
  by_cases hq : q = p
  · subst hq
    rw [Function.update_self, hd]
    simp [hnot]
  · rw [Function.update_of_ne hq, h.mem_pend]

/-- A private step, a call or a load. -/
theorem Inv.keep (h : Inv addr w s o log pend) {o' : Option P} {d : Cpu} (hd : CpuOk addr d)
    (hp : returning (s.cpu p) = false) (hr : returning (some d) = false)
    (ho : Held o' inWindow (Function.update s.cpu p (some d)))
    (hold : ∀ old, d.loaded = some old → old = s.mem addr) :
    Inv addr w { s with cpu := Function.update s.cpu p (some d) } o' log pend where
  cpu q := cpu_update h.cpu fun c hc => Option.some.inj hc ▸ hd
  window := ho
  fresh q c old hc := cpu_update (R := fun c => c.loaded = some old → old = s.mem addr)
    (fun q c hc => h.fresh q c old hc) (fun c hc => Option.some.inj hc ▸ hold old) c hc
  serial := h.serial
  nodup := h.nodup
  mem_pend := (h.move_pend hp hr).1
  perm := by
    rw [(h.move_pend hp hr).2]
    exact h.perm

/-- The store: the word has not changed since the load. -/
theorem Inv.store (h : Inv addr w s o log pend) {c d : Cpu} {old : Word} (hc : s.cpu p = some c)
    (hold : c.loaded = some old) (hd : CpuOk addr d) (hdl : d.loaded = none) (hip : c.ip ≠ 3)
    (hip' : d.ip = 3) (hval : d.stack 8 = c.stack 8) (heax : d.regs .eax = old) :
    Inv addr w
      { s with
        mem := Function.update s.mem addr (old + c.stack 8)
        cpu := Function.update s.cpu p (some d) }
      none (log ++ [(c.stack 8, old)]) (p :: pend) := by
  have hwin : inWindow (s.cpu p) = true := by rw [hc, inWindow, hold]; rfl
  have hnot : p ∉ pend := by
    rw [h.mem_pend, hc]
    simpa [returning] using hip
  refine ⟨?_, ?_, ?_, ?_, ?_, ?_, ?_⟩
  · exact fun q => cpu_update h.cpu fun c hc => Option.some.inj hc ▸ hd
  · exact h.window.drop hwin (by rw [inWindow, hdl]; rfl)
  · -- nobody else is between load and store
    intro q e old' he hold'
    replace he : Function.update s.cpu p (some d) q = some e := he
    by_cases hq : q = p
    · subst hq
      rw [Function.update_self] at he
      obtain rfl := Option.some.inj he
      rw [hdl] at hold'
      cases hold'
    · rw [Function.update_of_ne hq] at he
      exact absurd (h.window.unique (by rw [he, inWindow, hold']; rfl) hwin) hq
  · show Serial AddAlone _ w (Function.update s.mem addr (old + c.stack 8) addr)
    rw [Function.update_self]
    exact h.serial.concat ⟨h.fresh p c old hc hold, by rw [h.fresh p c old hc hold]⟩
  · exact List.nodup_cons.2 ⟨hnot, h.nodup⟩
  · intro q
    by_cases hq : q = p
    · subst hq
      simp [returning, hip']
    · simp [hq, h.mem_pend]
  · dsimp only
    rw [List.map_cons, map_added_update hnot, Function.update_self, added, hval, heax]
    exact (h.perm.append_right _).trans
      ((List.perm_append_singleton _ _).trans List.perm_middle.symm)

/-- The return. -/
theorem Inv.ret (h : Inv addr w s o log pend) {c : Cpu} (hc : s.cpu p = some c)
    (hl : c.loaded = none) (hip : c.ip = 3) :
    Inv addr w
      { s with
        cpu := Function.update s.cpu p none
        done := s.done ++ [(c.stack 8, c.regs .eax)] }
      o log (pend.erase p) := by
  have hp : p ∈ pend := by
    rw [h.mem_pend, hc]
    simp [returning, hip]
  have hwin : inWindow (s.cpu p) = false := by rw [hc, inWindow, hl]; rfl
  refine ⟨?_, ?_, ?_, h.serial, h.nodup.erase p, ?_, ?_⟩
  · exact fun q => cpu_update h.cpu fun c hc => by cases hc
  · exact h.window.move hwin.symm
  · intro q d old hd
    exact cpu_update (R := fun c => c.loaded = some old → old = s.mem addr)
      (fun q c hc => h.fresh q c old hc) (fun c hc => by cases hc) d hd
  · intro q
    by_cases hq : q = p
    · subst hq
      simp [h.nodup.not_mem_erase, returning]
    · dsimp only
      rw [List.mem_erase_of_ne hq, Function.update_of_ne hq, h.mem_pend]
  · have hperm := (List.perm_cons_erase hp).map fun q => added (s.cpu q)
    rw [List.map_cons, hc, added] at hperm
    dsimp only
    rw [map_added_update h.nodup.not_mem_erase, List.append_assoc]
    exact h.perm.trans (hperm.append_left _)

/-- **A step that loads only while nobody is between load and store.** -/
theorem Inv.step {e : Event P} (h : Inv addr w s o log pend) (hok : LoadOk s e)
    (hs : step addr s e = some s') : ∃ o' log' pend', Inv addr w s' o' log' pend' := by
  cases e with
  | call p val junk =>
    simp only [AtomicAddX86.step] at hs
    split at hs
    · rename_i hp
      obtain rfl := Option.some.inj hs
      refine ⟨o, log, pend, h.keep ⟨rfl, rfl⟩ (by rw [hp]; rfl) rfl (h.window.move ?_) ?_⟩
      · rw [hp]
        rfl
      · intro old hold
        cases hold
    · cases hs
  | run p =>
    simp only [AtomicAddX86.step] at hs
    split at hs
    · cases hs
    rename_i c hc
    split at hs
    · cases hs
    · rename_i c' mem' hout
      obtain rfl := Option.some.inj hs
      obtain ⟨hkind, hok'⟩ := (h.cpu p c hc).step hout
      have hc' := hok' c' mem' rfl
      cases hkind with
      | quiet _ hl hl' hip hip' =>
        refine ⟨o, log, pend, h.keep hc' ?_ ?_ (h.window.move ?_) ?_⟩
        · simpa [hc, returning] using hip
        · simpa [returning] using hip'
        · rw [hc, inWindow, inWindow, hl, hl']
        · intro old hold
          rw [hl'] at hold
          cases hold
      | load hl hip =>
        -- by the condition nobody is in the window
        have hfree : ∀ q, inWindow (s.cpu q) = false := by
          apply hok
          simp [hc, loads, hip, atomicAdd, hl]
        have ho : o = none := by
          cases o with
          | none => rfl
          | some q =>
            have := (h.window q).1 rfl
            rw [hfree q] at this
            cases this
        subst ho
        refine ⟨some p, log, pend, h.keep hc' ?_ ?_ (h.window.take rfl rfl) ?_⟩
        · simp [hc, returning, hip]
        · simp [returning, hip]
        · intro old hold
          exact (Option.some.inj hold).symm
      | store _ old hl hl' hip hip' hval heax =>
        exact ⟨_, _, _, h.store hc hl hc' hl' hip hip' hval heax⟩
    · rename_i c' hout
      obtain rfl := Option.some.inj hs
      obtain ⟨hkind, -⟩ := (h.cpu p c hc).step hout
      cases hkind with
      | ret hl hip => exact ⟨_, _, _, h.ret hc hl hip⟩

/-- A serial execution adds up. -/
theorem serial_sum : ∀ {l : List (Word × Word)} {w u : Word}, Serial AddAlone l w u →
    u = w + (l.map Prod.fst).sum
  | [], w, u, h => by
    obtain rfl : w = u := h
    simp
  | (val, old) :: l, w, u, ⟨m, ⟨_, hm⟩, h⟩ => by
    rw [serial_sum h, hm, List.map_cons, List.sum_cons, add_assoc]

omit [DecidableEq P] in
/-- With all processors outside, the stores are the calls that returned. -/
theorem Inv.noneLost (h : Inv addr (mem addr) s o log pend) (hidle : ∀ p, s.cpu p = none) :
    NoneLost addr mem s := by
  have hpend : pend = [] := by
    apply List.eq_nil_iff_forall_not_mem.2
    intro p hp
    rw [h.mem_pend, hidle p] at hp
    cases hp
  have hperm := h.perm
  rw [hpend, List.map_nil, List.append_nil] at hperm
  refine ⟨?_, log, hperm, h.serial⟩
  rw [serial_sum h.serial, (hperm.map Prod.fst).sum_eq]

/-- **When concurrent `atomic_add` loses no update.**  In every run in which no `xaddl` reads the
word while another processor is between load and store, whenever all calls have returned the word
is its initial value plus all amounts added, and the values returned are those of the calls one
after another in some order. -/
theorem xadd_no_update_lost_along (addr : Word) (mem : Mem) (es : List (Event P)) {s : State P}
    (hok : Along (step addr) LoadOk (start mem) es)
    (hs : exec (step addr) (start mem) es = some s) (hidle : ∀ p, s.cpu p = none) :
    NoneLost addr mem s := by
  obtain ⟨o, log, pend, h⟩ := exec_inv_along LoadOk
    (fun s => ∃ o log pend, Inv addr (mem addr) s o log pend)
    (fun _ _ _ ⟨_, _, _, h⟩ hok hs => h.step hok hs) ⟨none, [], [], inv_start addr mem⟩ hok hs
  exact h.noneLost hidle

/-! ## Two processors in the window -/

theorem step_store {c : Cpu} {old : Word} (hc : s.cpu p = some c) (hok : CpuOk addr c)
    (hl : c.loaded = some old) :
    step addr s (.run p) = some { s with
      mem := Function.update s.mem addr (old + c.stack 8)
      cpu := Function.update s.cpu p
        (some ({ c with zf := old + c.stack 8 == 0, loaded := none }.setReg .eax old).next) } := by
  obtain ⟨regs, zf, stack, ip, loaded⟩ := c
  obtain ⟨-, hp⟩ := hok
  obtain rfl : loaded = some old := hl
  rcases ip with _ | _ | _ | _ | ip
  · cases hp
  · cases hp.1
  · obtain ⟨hecx, heax⟩ : regs .ecx = addr ∧ regs .eax = stack 8 := hp
    simp [step, Cpu.step, hc, atomicAdd, Instr.exec, hecx, heax]
  · cases hp
  · exact hp.elim

/-- Two processors that have read the same word: after both stores it holds the sum of the one
    that stored last, and the other's amount is lost. -/
theorem overlapping_stores {q : P} {c d : Cpu} {old : Word} (hpq : p ≠ q) (hc : s.cpu p = some c)
    (hd : s.cpu q = some d) (hcok : CpuOk addr c) (hdok : CpuOk addr d)
    (hcl : c.loaded = some old) (hdl : d.loaded = some old) :
    ∃ t, exec (step addr) s [.run p, .run q] = some t ∧ t.mem addr = old + d.stack 8 := by
  have hp := step_store hc hcok hcl
  have hd' : Function.update s.cpu p
      (some ({ c with zf := old + c.stack 8 == 0, loaded := none }.setReg .eax old).next) q =
      some d := by
    rw [Function.update_of_ne (Ne.symm hpq), hd]
  exact ⟨_, exec_cons.2 ⟨_, hp, exec_cons.2 ⟨_, step_store hd' hdok hdl, rfl⟩⟩,
    Function.update_self ..⟩

/-! ## Two runs -/

/-- Two additions of 1, the second loading behind the load of the first. -/
def overlap {P : Type} (p q : P) : List (Event P) :=
  [.call p 1 junkCpu, .call q 1 junkCpu, .run p, .run p, .run p, .run q, .run q, .run q,
    .run p, .run q, .run p, .run q]

/-- The same with the second load behind the first store. -/
def inTurn {P : Type} (p q : P) : List (Event P) :=
  [.call p 1 junkCpu, .call q 1 junkCpu, .run p, .run p, .run p, .run q, .run q,
    .run p, .run q, .run q, .run p, .run q]

/-- Both additions find 0 and leave 1. -/
theorem overlap_loses_update : ∃ s : State (Fin 2),
    exec (step 64) (start fun _ => 0) (overlap 0 1) = some s ∧ (∀ p, s.cpu p = none) ∧
      s.mem 64 = 1 ∧ s.done = [(1, 0), (1, 0)] ∧ ¬ NoneLost 64 (fun _ => 0) s := by
  refine ⟨_, rfl, by decide, rfl, rfl, ?_⟩
  intro h
  exact absurd h.sum (by decide)

theorem inTurn_adds_up : ∃ s : State (Fin 2),
    exec (step 64) (start fun _ => 0) (inTurn 0 1) = some s ∧ s.mem 64 = 2 ∧
      NoneLost 64 (fun _ => 0) s :=
  ⟨_, rfl, rfl, xadd_no_update_lost_along 64 (fun _ => 0) (inTurn 0 1) (by decide) rfl (by decide)⟩

end Timix.AtomicAddX86
