import Timix.AtomicNios
import Timix.Lib.Run
import Timix.Lib.Serial

/-!
# The Nios II routines under interrupts

One processor.  An interrupt is taken between any two instructions if PIE, bit 0 of `status`, is
set; it clears PIE and starts a handler, whose `eret` brings back the interrupted registers and
`status`.  Handlers, and the code around the calls, may set `status` as they like and call the
routines on the same word.

`intdis` writes `status` back as it read it (its mask is never applied) and `inten` clears PIE, so
PIE never changes from 0 to 1 inside a call, and up to the store it is what it was on entry.

* `masked_step` — with PIE clear on entry, PIE stays clear.
* `inv_step` — then the calls that returned are a serial execution.
* `opens_window` — with PIE set on entry, a handler can be made to run in the window.

Principal result: `nios_atomic_along`.
-/

set_option autoImplicit false

namespace Timix.Nios

open Machine Lts Serialize Timix.Mutex

/-- PIE. -/
def pie (status : Word) : Bool := status.getLsbD 0

/-- A call in progress, with its registers. -/
structure Running where
  call : Call
  regs : Reg → Word
  ip : Nat

def Running.state (r : Running) (status : Word) (mem : Word → Word) : State :=
  ⟨r.regs, status, mem, r.ip⟩

/-- `top` is the call in progress on the level that runs, `none` between calls; `below` the
    interrupted levels, innermost first, with the `status` that `eret` restores; `done` the calls
    that returned, oldest first, with their results. -/
structure Sys where
  status : Word
  mem : Word → Word
  top : Option Running
  below : List (Option Running × Word)
  done : List (Call × Word)

inductive Event where
  /-- The code around the calls makes one; the other registers hold `junk`. -/
  | call (c : Call) (junk : Reg → Word)
  /-- The code around the calls writes `status`. -/
  | wrstatus (w : Word)
  /-- One instruction of the call in progress. -/
  | run
  | interrupt
  | eret

def sysStep (addr : Word) (s : Sys) : Event → Option Sys
  | .call c junk =>
    match s.top with
    | none => some { s with top := some ⟨c, c.entryRegs addr junk, 0⟩ }
    | some _ => none
  | .wrstatus w =>
    match s.top with
    | none => some { s with status := w }
    | some _ => none
  | .run =>
    match s.top with
    | none => none
    | some r =>
      match step r.call.code (r.state s.status s.mem) with
      | none => none
      | some (.running t) =>
        some { s with status := t.status, mem := t.mem, top := some ⟨r.call, t.regs, t.ip⟩ }
      | some (.returned t) => some { s with top := none, done := s.done ++ [(r.call, t.regs .r2)] }
  | .interrupt =>
    if pie s.status then
      some { s with
        status := s.status &&& ~~~1
        top := none
        below := (s.top, s.status) :: s.below }
    else none
  | .eret =>
    match s.top, s.below with
    | none, (f, status) :: rest => some { s with status := status, top := f, below := rest }
    | _, _ => none

def start (status : Word) (mem : Word → Word) : Sys := ⟨status, mem, none, [], []⟩

/-- Behind the load and not yet behind the store. -/
def Running.between (r : Running) : Bool :=
  match r.call with
  | .swap _ => r.ip == 5
  | .swapConditional .. => r.ip == 6 || (r.ip == 5 && r.regs .r2 == r.regs .r6)
  | .add _ => r.ip == 5 || r.ip == 6

/-- A call carried out without interruption. -/
def Alone (addr : Word) (mem : Word → Word) (c : Call) (ret : Word) (mem' : Word → Word) : Prop :=
  ∃ s s', Entry addr c s ∧ s.mem = mem ∧ Returns (step c.code) s s' ∧ s'.regs .r2 = ret ∧
    s'.mem = mem'

/-- No handler runs between an interrupted call's load and its store, and when all calls have
returned, memory and results are those of the calls one after another in some order. -/
structure Atomic (addr : Word) (mem : Word → Word) (s : Sys) : Prop where
  window : ∀ f ∈ s.below, ∀ r, f.1 = some r → r.between = false
  serial : s.top = none → (∀ f ∈ s.below, f.1 = none) →
    Serializable (Alone addr) s.done mem s.mem

/-- A call is entered with PIE clear. -/
def EntryOk (s : Sys) : Event → Prop
  | .call .. => pie s.status = false
  | _ => True

instance (s : Sys) (e : Event) : Decidable (EntryOk s e) :=
  match e with
  | .call .. => inferInstanceAs (Decidable (pie s.status = false))
  | .wrstatus _ | .run | .interrupt | .eret => isTrue trivial

/-! ## PIE inside a call -/

/-- PIE is clear, in `status` and, once loaded, in the copy that `wrctl` writes back. -/
structure Masked (s : State) : Prop where
  status : pie s.status = false
  r8 : s.ip = 0 ∨ pie (s.regs .r8) = false

/-- At position `k` the instruction leaves `Masked` in force: it writes `r8` only from `status` or
under a mask, and `status` only from `r8`. -/
def Instr.keeps (k : Nat) : Instr → Bool
  | .rdctl rc => rc == .r8 || k != 0
  | .wrctl ra => ra == .r8 && k != 0
  | .and rc ra _ => (rc != .r8 || ra == .r8) && k != 0
  | .movi rc _ | .addi rc .. | .or rc .. | .nor rc .. | .ldw rc _ => rc != .r8 && k != 0
  | .stw .. | .bne .. => k != 0
  | .ret => true

theorem pie_and (a b : Word) : pie (a &&& b) = (pie a && pie b) := BitVec.getLsbD_and

theorem keeps_of_code {c : Call} {k : Nat} {i : Instr} (h : c.code[k]? = some i) :
    i.keeps k = true := by
  have hall : ∀ x ∈ c.code.zipIdx, x.1.keeps x.2 = true := by
    cases c with
    | swap => exact (by decide : ∀ x ∈ atomicSwap.zipIdx, x.1.keeps x.2 = true)
    | swapConditional =>
      exact (by decide : ∀ x ∈ atomicSwapConditional.zipIdx, x.1.keeps x.2 = true)
    | add => exact (by decide : ∀ x ∈ atomicAdd.zipIdx, x.1.keeps x.2 = true)
  exact hall (i, k) (List.mk_mem_zipIdx_iff_getElem?.2 h)

theorem exec_masked {s t : State} {i : Instr} (h : Masked s) (hi : i.keeps s.ip = true)
    (hexec : i.exec s = .running t) : Masked t := by
  obtain ⟨hs, h8⟩ := h
  cases i with
  | ret => cases hexec
  | rdctl rc =>
    obtain rfl : s.put rc s.status = t := by simpa [Instr.exec] using hexec
    refine ⟨hs, Or.inr ?_⟩
    by_cases hrc : rc = .r8
    · simp [State.put, hrc, hs]
    · have hip : s.ip ≠ 0 := by simpa [Instr.keeps, hrc] using hi
      simpa [State.put, Function.update_of_ne (Ne.symm hrc)] using h8.resolve_left hip
  | and rc ra rb =>
    obtain ⟨hor, hip⟩ : (rc ≠ .r8 ∨ ra = .r8) ∧ s.ip ≠ 0 := by simpa [Instr.keeps] using hi
    have h8' := h8.resolve_left hip
    obtain rfl : s.put rc (s.reg ra &&& s.reg rb) = t := by simpa [Instr.exec] using hexec
    refine ⟨hs, Or.inr ?_⟩
    by_cases hrc : rc = .r8
    · have hra : ra = .r8 := hor.resolve_left (not_not.2 hrc)
      subst hrc hra
      simp [State.put, State.reg, pie_and, h8']
    · simpa [State.put, Function.update_of_ne (Ne.symm hrc)] using h8'
  | wrctl ra =>
    obtain ⟨rfl, hip⟩ : ra = .r8 ∧ s.ip ≠ 0 := by simpa [Instr.keeps] using hi
    have h8' := h8.resolve_left hip
    obtain rfl := Outcome.running.inj hexec
    exact ⟨by simpa [State.reg] using h8', Or.inr h8'⟩
  | stw rb ra =>
    have hip : s.ip ≠ 0 := by simpa [Instr.keeps] using hi
    obtain rfl := Outcome.running.inj hexec
    exact ⟨hs, Or.inr (h8.resolve_left hip)⟩
  | bne ra rb label =>
    have hip : s.ip ≠ 0 := by simpa [Instr.keeps] using hi
    obtain rfl := Outcome.running.inj hexec
    exact ⟨hs, Or.inr (h8.resolve_left hip)⟩
  | movi rc | addi rc | or rc | nor rc | ldw rc =>
    obtain ⟨hrc, hip⟩ : rc ≠ .r8 ∧ s.ip ≠ 0 := by simpa [Instr.keeps] using hi
    obtain rfl := Outcome.running.inj hexec
    refine ⟨hs, Or.inr ?_⟩
    simpa [State.put, Function.update_of_ne (Ne.symm hrc)] using h8.resolve_left hip

/-- **PIE stays clear.** -/
theorem masked_step {c : Call} {s t : State} (h : Masked s)
    (hstep : step c.code s = some (.running t)) : Masked t := by
  obtain ⟨i, hi, hexec⟩ := Option.map_eq_some_iff.1 hstep
  exact exec_masked h (keeps_of_code hi) hexec

/-- Only `ret` hands control back, and it changes nothing. -/
theorem step_returned {code : List Instr} {s t : State} (h : step code s = some (.returned t)) :
    t = s := by
  obtain ⟨i, -, hexec⟩ := Option.map_eq_some_iff.1 h
  cases i with
  | ret => exact (Outcome.returned.inj hexec).symm
  | _ => cases hexec

/-- What a call does alone. -/
theorem Alone.effect {addr : Word} {m m' : Word → Word} {c : Call} {ret : Word}
    (h : Alone addr m c ret m') :
    ret = (c.effect (m addr)).2 ∧ m' = Function.update m addr (c.effect (m addr)).1 := by
  obtain ⟨s, s', hentry, rfl, hret, rfl, rfl⟩ := h
  obtain ⟨t, ht, h2, hm⟩ := returns_effect hentry
  obtain rfl := hret.unique ht
  exact ⟨h2, hm⟩

/-! ## Calls entered with PIE clear -/

/-- The call in progress was entered where the serial execution of the others had led, and has run
alone since. -/
structure InProgress (addr : Word) (mem : Word → Word) (s : Sys) (r : Running) : Prop where
  masked : Masked (r.state s.status s.mem)
  alone : ∃ k s0, Entry addr r.call s0 ∧ Serial (Alone addr) s.done mem s0.mem ∧
    steps (step r.call.code) k s0 = some (r.state s.status s.mem)

/-- No interrupted level stands inside a call. -/
structure Inv (addr : Word) (mem : Word → Word) (s : Sys) : Prop where
  below : ∀ f ∈ s.below, f.1 = none
  idle : s.top = none → Serial (Alone addr) s.done mem s.mem
  running : ∀ r, s.top = some r → InProgress addr mem s r

variable {addr : Word} {mem : Word → Word} {s s' : Sys}

theorem Inv.atomic (h : Inv addr mem s) : Atomic addr mem s where
  window f hf r hr := by
    rw [h.below f hf] at hr
    cases hr
  serial htop _ := (h.idle htop).serializable

theorem inv_start (status : Word) : Inv addr mem (start status mem) where
  below f hf := by cases hf
  idle _ := rfl
  running r hr := by cases hr

/-- One instruction of a call that runs alone. -/
theorem inv_run (h : Inv addr mem s) (hs : sysStep addr s .run = some s') : Inv addr mem s' := by
  simp only [sysStep] at hs
  split at hs
  · cases hs
  rename_i r hr
  obtain ⟨hmasked, k, s0, hentry, hserial, hsteps⟩ := h.running r hr
  split at hs
  · cases hs
  · rename_i t ht
    obtain rfl := Option.some.inj hs
    refine ⟨h.below, fun hn => (by cases hn), ?_⟩
    intro r' hr'
    obtain rfl := Option.some.inj hr'
    exact ⟨masked_step hmasked ht, k + 1, s0, hentry, hserial, steps_concat ht hsteps⟩
  · rename_i t ht
    obtain rfl := Option.some.inj hs
    have hmem : t.mem = s.mem := by rw [step_returned ht]; rfl
    refine ⟨h.below, ?_, fun r' hr' => (by cases hr')⟩
    intro _
    exact hserial.concat
      ⟨s0, t, hentry, rfl, Returns.of_steps hsteps (Returns.ret ht), rfl, hmem⟩

/-- **A step whose calls are entered with PIE clear.** -/
theorem inv_step {e : Event} (h : Inv addr mem s) (hok : EntryOk s e)
    (hs : sysStep addr s e = some s') : Inv addr mem s' := by
  cases e with
  | run => exact inv_run h hs
  | call c junk =>
    simp only [sysStep] at hs
    split at hs
    · rename_i htop
      obtain rfl := Option.some.inj hs
      refine ⟨h.below, fun hn => (by cases hn), ?_⟩
      intro r hr
      obtain rfl := Option.some.inj hr
      exact ⟨⟨hok, Or.inl rfl⟩, 0, _, ⟨rfl, junk, rfl⟩, h.idle htop, rfl⟩
    · cases hs
  | wrstatus w =>
    simp only [sysStep] at hs
    split at hs
    · rename_i htop
      obtain rfl := Option.some.inj hs
      refine ⟨h.below, h.idle, ?_⟩
      intro r hr
      rw [show s.top = some r from hr] at htop
      cases htop
    · cases hs
  | interrupt =>
    simp only [sysStep] at hs
    split at hs
    · rename_i hpie
      obtain rfl := Option.some.inj hs
      -- inside a call PIE is clear, so the interrupted level is between calls
      have htop : s.top = none := by
        cases htop : s.top with
        | none => rfl
        | some r =>
          have := (h.running r htop).masked.status
          rw [show pie s.status = false from this] at hpie
          cases hpie
      refine ⟨?_, fun _ => h.idle htop, fun r hr => (by cases hr)⟩
      intro f hf
      rcases List.mem_cons.1 hf with rfl | hf
      · exact htop
      · exact h.below f hf
    · cases hs
  | eret =>
    simp only [sysStep] at hs
    split at hs
    · rename_i f status rest htop hbelow
      obtain rfl := Option.some.inj hs
      have hf : f = none := h.below (f, status) (by rw [hbelow]; exact List.mem_cons_self)
      subst hf
      refine ⟨?_, fun _ => h.idle htop, fun r hr => (by cases hr)⟩
      intro g hg
      exact h.below g (by rw [hbelow]; exact List.mem_cons_of_mem _ hg)
    · cases hs

/-! ## Calls entered with PIE set -/

/-- The machine with its running level inside `c`, in the state `t`. -/
def Sys.at (s : Sys) (c : Call) (t : State) : Sys :=
  { s with status := t.status, mem := t.mem, top := some ⟨c, t.regs, t.ip⟩ }

theorem sysStep_interrupt (h : pie s.status = true) :
    sysStep addr s .interrupt = some { s with
      status := s.status &&& ~~~1, top := none, below := (s.top, s.status) :: s.below } := by
  simp only [sysStep, if_pos h]

theorem sysStep_run {c : Call} {t u : State} (h : step c.code t = some (.running u)) :
    sysStep addr (s.at c t) .run = some (s.at c u) := by
  have h' : step c.code ((⟨c, t.regs, t.ip⟩ : Running).state t.status t.mem) =
      some (.running u) := h
  simp only [sysStep, Sys.at, h']

theorem exec_steps (addr : Word) (s : Sys) {c : Call} {u : State} : ∀ {k : Nat} {t : State},
    steps (step c.code) k t = some u →
    exec (sysStep addr) (s.at c t) (List.replicate k .run) = some (s.at c u)
  | 0, t, h => by
    obtain rfl : t = u := Option.some.inj h
    rfl
  | k + 1, t, h => by
    rw [steps] at h
    split at h
    · rename_i m hm
      rw [List.replicate_succ, exec_cons]
      exact ⟨_, sysStep_run hm, exec_steps addr s h⟩
    · cases h

theorem exec_returns (addr : Word) (s : Sys) {c : Call} {u : State} : ∀ {n : Nat} {t : State},
    run (step c.code) n t = some u →
    ∃ es v, exec (sysStep addr) (s.at c t) es = some v ∧ v.top = none ∧ v.below = s.below ∧
      v.mem = u.mem
  | 0, t, h => by cases h
  | n + 1, t, h => by
    rw [run_succ] at h
    split at h
    · cases h
    · rename_i m hm
      obtain ⟨es, v, hv, hrest⟩ := exec_returns addr s h
      exact ⟨.run :: es, v, exec_cons.2 ⟨_, sysStep_run hm, hv⟩, hrest⟩
    · rename_i m hm
      obtain rfl := Option.some.inj h
      have hm' : step c.code ((⟨c, t.regs, t.ip⟩ : Running).state t.status t.mem) =
          some (.returned m) := hm
      have hret : sysStep addr (s.at c t) .run = some { s.at c t with
          top := none, done := s.done ++ [(c, m.regs .r2)] } := by
        simp only [sysStep, Sys.at, hm']
      refine ⟨[.run], _, exec_cons.2 ⟨_, hret, rfl⟩, rfl, rfl, ?_⟩
      rw [step_returned hm]
      rfl

/-- Where an interrupt can be taken, a handler can carry out any call. -/
theorem handler_call (addr : Word) (hpie : pie s.status = true) (c : Call) :
    ∃ es t, exec (sysStep addr) s es = some t ∧ t.top = s.top ∧ t.status = s.status ∧
      t.mem addr = (c.effect (s.mem addr)).1 := by
  let s1 : Sys := { s with
    status := s.status &&& ~~~1, top := none, below := (s.top, s.status) :: s.below }
  let t1 : State := ⟨c.entryRegs addr fun _ => 0, s1.status, s1.mem, 0⟩
  have hentry : Entry addr c t1 := ⟨rfl, fun _ => 0, rfl⟩
  obtain ⟨u, ⟨n, hn⟩, -, hmem⟩ := returns_effect hentry
  obtain ⟨es, v, hv, htop, hbelow, hvmem⟩ := exec_returns addr s1 hn
  have hcall : sysStep addr s1 (.call c fun _ => 0) = some (s1.at c t1) := rfl
  have heret : sysStep addr v .eret =
      some { v with status := s.status, top := s.top, below := s.below } := by
    simp only [sysStep, htop, hbelow]
    rfl
  refine ⟨.interrupt :: .call c (fun _ => 0) :: (es ++ [.eret]), _,
    exec_cons.2 ⟨s1, sysStep_interrupt hpie, exec_cons.2 ⟨_, hcall, exec_concat.2 ⟨v, hv, heret⟩⟩⟩,
    ?_, ?_, ?_⟩
  · rfl
  · rfl
  show v.mem addr = _
  rw [hvmem, hmem, Function.update_self]

/-- From its entry a call gets between its load and its store, with PIE as it was; the conditional
swap if the word is the expected one. -/
theorem reaches_window {c : Call} {t : State} (h : Entry addr c t)
    (heq : ∀ newval oldval, c = .swapConditional newval oldval → t.mem addr = oldval) :
    ∃ k u, steps (step c.code) k t = some u ∧ u.status = t.status ∧
      (⟨c, u.regs, u.ip⟩ : Running).between = true := by
  obtain ⟨hip, junk, hregs⟩ := h
  cases c with
  | swap val =>
    refine ⟨5, _, by
      simp [steps, step, hip, Call.code, atomicSwap, intdis, inten, Instr.exec, State.put]; rfl,
      ?_, rfl⟩
    simp [State.reg]
  | swapConditional newval oldval =>
    have hw := heq newval oldval rfl
    refine ⟨6, _, by
      simp [steps, step, hip, Call.code, atomicSwapConditional, intdis, inten, Instr.exec,
        State.put, State.reg, hregs, Call.entryRegs, hw]; rfl, ?_, rfl⟩
    simp
  | add val =>
    refine ⟨5, _, by
      simp [steps, step, hip, Call.code, atomicAdd, intdis, inten, Instr.exec, State.put]; rfl,
      ?_, rfl⟩
    simp [State.reg]

/-- A call at its entry, with PIE set. -/
def EnteredOpen (addr : Word) (s : Sys) : Prop :=
  pie s.status = true ∧ ∃ c junk, s.top = some ⟨c, c.entryRegs addr junk, 0⟩

/-- An interrupted level stands between its load and its store. -/
def Exposed (s : Sys) : Prop := ∃ f ∈ s.below, ∃ r, f.1 = some r ∧ r.between = true

theorem Exposed.not_atomic (h : Exposed s) : ¬ Atomic addr mem s := by
  obtain ⟨f, hf, r, hr, hbetween⟩ := h
  intro hatomic
  rw [hatomic.window f hf r hr] at hbetween
  cases hbetween

/-- An interrupt behind the load. -/
theorem exposes {c : Call} {junk : Reg → Word} (hpie : pie s.status = true)
    (htop : s.top = some ⟨c, c.entryRegs addr junk, 0⟩)
    (heq : ∀ newval oldval, c = .swapConditional newval oldval → s.mem addr = oldval) :
    ∃ es t, exec (sysStep addr) s es = some t ∧ Exposed t := by
  obtain ⟨k, u, hu, hstatus, hbetween⟩ :=
    reaches_window (t := ⟨c.entryRegs addr junk, s.status, s.mem, 0⟩) ⟨rfl, junk, rfl⟩ heq
  have hrun := exec_steps addr s hu
  have hs : s.at c ⟨c.entryRegs addr junk, s.status, s.mem, 0⟩ = s := by
    rw [Sys.at, ← htop]
  have hpie' : pie (s.at c u).status = true := by
    rw [← hpie]
    exact congrArg pie hstatus
  rw [hs] at hrun
  exact ⟨List.replicate k .run ++ [.interrupt], _,
    exec_concat.2 ⟨_, hrun, sysStep_interrupt hpie'⟩, _, List.mem_cons_self, _, rfl, hbetween⟩

/-- **With PIE set on entry some interrupt is taken in the window**: at once if the call stores
whatever it finds; for the conditional swap, after a handler has stored the expected word. -/
theorem opens_window (h : EnteredOpen addr s) :
    ∃ es t, exec (sysStep addr) s es = some t ∧ Exposed t := by
  obtain ⟨hpie, c, junk, htop⟩ := h
  cases c with
  | swapConditional newval oldval =>
    obtain ⟨es, t, ht, htop', hstatus, hmem⟩ := handler_call addr hpie (.swap oldval)
    obtain ⟨fs, u, hu, hexposed⟩ := exposes (by rw [hstatus, hpie]) (by rw [htop', htop]) (by
      intro _ _ heq
      rw [hmem]
      exact (Call.swapConditional.inj heq).2)
    exact ⟨es ++ fs, u, (exec_append s es fs).2 ⟨t, ht, hu⟩, hexposed⟩
  | swap val => exact exposes hpie htop (by intro _ _ heq; cases heq)
  | add val => exact exposes hpie htop (by intro _ _ heq; cases heq)

/-- **When the Nios II routines are atomic with respect to interrupts.**  In every run in which
PIE is clear whenever a call is entered, on every level, no handler runs between a call's load and
its store and the calls are serializable; whenever a call has been entered with PIE set, some
interrupt pattern from there on breaks this. -/
theorem nios_atomic_along (addr : Word) (status : Word) (mem : Word → Word) :
    (∀ es s, Along (sysStep addr) EntryOk (start status mem) es →
      exec (sysStep addr) (start status mem) es = some s → Atomic addr mem s) ∧
    (∀ s, EnteredOpen addr s → ∃ es t, exec (sysStep addr) s es = some t ∧
      ¬ Atomic addr mem t) := by
  constructor
  · intro es s hok hs
    exact (exec_inv_along EntryOk (Inv addr mem) (fun _ _ _ => inv_step) (inv_start status)
      hok hs).atomic
  · intro s hopen
    obtain ⟨es, t, ht, hexposed⟩ := opens_window hopen
    exact ⟨es, t, ht, hexposed.not_atomic⟩

/-! ## Two runs -/

/-- `n` instructions. -/
def runs (n : Nat) : List Event := List.replicate n .run

/-- An `atomic_add` of 1 with PIE set; behind its load an interrupt, whose handler makes an
    `atomic_add` of 1. -/
def addInWindow : List Event :=
  .call (.add 1) (fun _ => 0) :: runs 5 ++ [.interrupt, .call (.add 1) fun _ => 0] ++ runs 13 ++
    [.eret] ++ runs 8

/-- An `atomic_add` entered with PIE clear, then PIE set and a handler's `atomic_swap` of 5. -/
def swapBetweenCalls : List Event :=
  .call (.add 1) (fun _ => 0) :: runs 13 ++
    [.wrstatus 1, .interrupt, .call (.swap 5) fun _ => 0] ++ runs 12 ++ [.eret]

/-- Both additions return 1 and the word is 1: one of them is lost. -/
theorem addInWindow_loses_update :
    ∃ s, exec (sysStep 64) (start 1 fun _ => 0) addInWindow = some s ∧ s.top = none ∧
      s.below = [] ∧ s.mem 64 = 1 ∧ s.done = [(.add 1, 1), (.add 1, 1)] ∧
      ¬ Atomic 64 (fun _ => 0) s := by
  refine ⟨_, rfl, rfl, rfl, rfl, rfl, ?_⟩
  intro h
  obtain ⟨l, hl, hserial⟩ := h.serial rfl (fun f hf => by cases hf)
  obtain rfl : l = [(.add 1, 1), (.add 1, 1)] := List.perm_replicate (n := 2).1 hl
  obtain ⟨m, hfirst, m', hsecond, -⟩ := hserial
  obtain ⟨-, rfl⟩ := hfirst.effect
  exact absurd hsecond.effect.1 (by simp [Call.effect])

/-- Entered with PIE clear, the calls are serializable. -/
theorem swapBetweenCalls_atomic :
    ∃ s, exec (sysStep 64) (start 0 fun _ => 0) swapBetweenCalls = some s ∧ s.mem 64 = 5 ∧
      s.done = [(.add 1, 1), (.swap 5, 1)] ∧ Atomic 64 (fun _ => 0) s :=
  ⟨_, rfl, rfl, rfl, (nios_atomic_along 64 0 fun _ => 0).1 swapBetweenCalls _ (by decide) rfl⟩

end Timix.Nios
