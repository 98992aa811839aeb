import Timix.BootPagetable

/-!
# The ARM boot path (`arch/arm/kernel/head.S`)

The whole file as one sequence of words at the physical address `p`, its instructions fetched
through the MMU once that is on.  `_start` is position 0, the literal behind it 6,
`__call_kernel` 7, `__enable_mmu` 12, `__setup_pgtbl` 23 and `kern_phys_base` 56.  A branch and
`bl` go to a place relative to their own, `ldr =label` loads the address the label is linked at.
The address of an instruction is translated, but the instruction is not read out of `mem`: what
the file stores is below `p` or in `kern_phys_base`.

* `Boot.translate` — where an address leads, with the MMU off or on.
* `HeadInstr.exec`, `bootStep` — one instruction; `b c_entry` hands control over.
* `bootStep_inside` — an instruction that is run, is run at the position that its address names.
* `setup_call` — `__setup_pgtbl` as a call.
-/

set_option autoImplicit false

namespace Timix.Head

open Timix.Arm Machine ShortDescriptor

/-- The registers of coprocessor 15 that the file uses. -/
inductive Cp15 where
  | ttbcr
  | ttbr0
  | dacr
  | sctlr
  deriving DecidableEq, Repr

/-- The processor while it boots; `mem` is by physical address. -/
structure Boot where
  regs : Reg → Word
  flags : Flags
  mem : Word → Word
  pc : Word
  cp15 : Cp15 → Word

/-- The address of position `k` in code at `p`. -/
def codeAt (p : Word) (k : Nat) : Word := p + BitVec.ofNat 32 (4 * k)

/-- The address of `_start` in `kernel.ld`. -/
def textStart : Word := 0x80010000

/-- Bit 0 of `SCTLR`. -/
def Boot.mmu (b : Boot) : Bool := (b.cp15 .sctlr).getLsbD 0

/-- Where the address `v` leads.  With the MMU on that is known here for a directory of 16 KB
(`TTBCR.N = 0`) and for domain 0 as a manager's, whose accesses are not checked. -/
def Boot.translate (b : Boot) (v : Word) : Option Word :=
  if b.mmu then
    if b.cp15 .ttbcr &&& 7 = 0 ∧ b.cp15 .dacr &&& 3 = 3 then physical b.mem (b.cp15 .ttbr0) v
    else none
  else some v

def Boot.jump (b : Boot) (w : Word) : Boot := { b with pc := w }

def Boot.next (b : Boot) : Boot := b.jump (b.pc + 4)

def Boot.setReg (b : Boot) (r : Reg) (w : Word) : Boot :=
  { b with regs := Function.update b.regs r w }

def Boot.store (b : Boot) (q w : Word) : Boot := { b with mem := Function.update b.mem q w }

def Boot.setCp15 (b : Boot) (c : Cp15) (w : Word) : Boot :=
  { b with cp15 := Function.update b.cp15 c w }

/-- From position `k` to the position `label`. -/
def Boot.branch (b : Boot) (k label : Nat) : Boot :=
  b.jump (b.pc + (BitVec.ofNat 32 (4 * label) - BitVec.ofNat 32 (4 * k)))

/-- The part of the processor that the operations on registers work on. -/
def Boot.core (b : Boot) : State := ⟨b.regs, b.flags, none, b.mem, [], 0⟩

def Boot.setCore (b : Boot) (s : State) : Boot := { b with regs := s.regs, flags := s.flags }

/-- Operations on registers and flags alone. -/
def isData : Op → Bool
  | .ldrConst .. => true
  | .cmp .. => true
  | .mov .. => true
  | .add .. => true
  | .sub .. => true
  | .bic .. => true
  | .orr .. => true
  | .lsr .. => true
  | _ => false

/-- An operation at position `k`, in a routine whose first position is `start`.  Memory is
accessed by `str` only. -/
def execOp (b : Boot) (k start : Nat) : Op → Option (Outcome Boot)
  | .str rt rn offset =>
    (b.translate (b.regs rn + offset)).map fun q => .running (b.store q (b.regs rt)).next
  | .b label => some (.running (b.branch k (start + label)))
  | .bxLr => some (.running (b.jump (b.regs .lr)))
  | op => if isData op then some (.running (b.setCore (op.exec b.core).state).next) else none

inductive HeadInstr where
  /-- An instruction whose labels count from position `start`. -/
  | op (start : Nat) (i : Instr)
  /-- `mov rd, pc`. -/
  | movPc (rd : Reg)
  | bl (label : Nat)
  | bx (rm : Reg)
  /-- `mrc p15, 0, rt, ..`. -/
  | mrc (rt : Reg) (c : Cp15)
  /-- `mcr p15, 0, rt, ..`. -/
  | mcr (rt : Reg) (c : Cp15)
  /-- `b c_entry`. -/
  | bCEntry
  /-- A word that is no instruction. -/
  | word
  deriving DecidableEq, Repr

/-- The instruction at position `k`. -/
def HeadInstr.exec (b : Boot) (k : Nat) : HeadInstr → Option (Outcome Boot)
  | .op start i => if i.cond.holds b.flags then execOp b k start i.op else some (.running b.next)
  -- `pc` reads as the address of the second next instruction
  | .movPc rd => some (.running (b.setReg rd (b.pc + 8)).next)
  | .bl label => some (.running ((b.setReg .lr (b.pc + 4)).branch k label))
  | .bx rm => some (.running (b.jump (b.regs rm)))
  | .mrc rt c => some (.running (b.setReg rt (b.cp15 c)).next)
  | .mcr rt c => some (.running (b.setCp15 c (b.regs rt)).next)
  | .bCEntry => some (.returned b)
  | .word => none

/-- `_start`, `__call_kernel` and `__enable_mmu`. -/
def headStart (istack : Word) : List HeadInstr :=
  [.movPc .r0,
   .op 0 ⟨.bic .r0 .r0 (.imm 0xff), .al⟩,
   .op 0 ⟨.mov .r10 (.reg .r0), .al⟩,
   .bl 23,
   .op 0 ⟨.ldrConst .r1 (codeAt textStart 7), .al⟩,
   .bl 12,
   .word,
   .op 0 ⟨.ldrConst .r0 (codeAt textStart 56), .al⟩,
   .op 0 ⟨.str .r1 .r0 0, .al⟩,
   .op 0 ⟨.mov .r0 (.reg .r2), .al⟩,
   .op 0 ⟨.ldrConst .sp istack, .al⟩,
   .bCEntry,
   .mrc .r3 .ttbcr,
   .op 0 ⟨.bic .r3 .r3 (.imm 7), .al⟩,
   .mcr .r3 .ttbcr,
   .mcr .r0 .ttbr0,
   .mrc .r3 .dacr,
   .op 0 ⟨.orr .r3 .r3 (.imm 3), .al⟩,
   .mcr .r3 .dacr,
   .mrc .r3 .sctlr,
   .op 0 ⟨.orr .r3 .r3 (.imm 1), .al⟩,
   .mcr .r3 .sctlr,
   .bx .r1]

/-- `head.S`; the linker puts the end of the kernel at `kernelEnd` and the stack at `istack`. -/
def headCode (kernelEnd istack : Word) : List HeadInstr :=
  headStart istack ++ (setupPgtbl kernelEnd).map (HeadInstr.op 23) ++ [.word]

/-- One instruction, fetched through the MMU. -/
def bootStep (code : List HeadInstr) (p : Word) (b : Boot) : Option (Outcome Boot) :=
  (b.translate b.pc).bind fun q =>
    if (q - p).toNat % 4 = 0 then
      code[(q - p).toNat / 4]?.bind (HeadInstr.exec b ((q - p).toNat / 4))
    else none

variable {b : Boot} {p v q : Word} {k : Nat} {o : Outcome Boot} {code : List HeadInstr}

section Fields

variable (b) (r : Reg) (c : Cp15) (w : Word)

@[simp] theorem Boot.jump_regs : (b.jump w).regs = b.regs := rfl

@[simp] theorem Boot.jump_cp15 : (b.jump w).cp15 = b.cp15 := rfl

@[simp] theorem Boot.jump_pc : (b.jump w).pc = w := rfl

@[simp] theorem Boot.next_regs : b.next.regs = b.regs := rfl

@[simp] theorem Boot.next_mem : b.next.mem = b.mem := rfl

@[simp] theorem Boot.next_pc : b.next.pc = b.pc + 4 := rfl

@[simp] theorem Boot.next_cp15 : b.next.cp15 = b.cp15 := rfl

@[simp] theorem Boot.setReg_regs_self : (b.setReg r w).regs r = w := Function.update_self ..

@[simp] theorem Boot.setReg_regs_ne {r' : Reg} (h : r' ≠ r) :
    (b.setReg r w).regs r' = b.regs r' := Function.update_of_ne h ..

@[simp] theorem Boot.setReg_mem : (b.setReg r w).mem = b.mem := rfl

@[simp] theorem Boot.setReg_pc : (b.setReg r w).pc = b.pc := rfl

@[simp] theorem Boot.setReg_cp15 : (b.setReg r w).cp15 = b.cp15 := rfl

@[simp] theorem Boot.store_regs (q : Word) : (b.store q w).regs = b.regs := rfl

@[simp] theorem Boot.store_pc (q : Word) : (b.store q w).pc = b.pc := rfl

@[simp] theorem Boot.setCp15_regs : (b.setCp15 c w).regs = b.regs := rfl

@[simp] theorem Boot.setCp15_mem : (b.setCp15 c w).mem = b.mem := rfl

@[simp] theorem Boot.setCp15_pc : (b.setCp15 c w).pc = b.pc := rfl

@[simp] theorem Boot.setCp15_self : (b.setCp15 c w).cp15 c = w := Function.update_self ..

@[simp] theorem Boot.setCp15_ne {c' : Cp15} (h : c' ≠ c) :
    (b.setCp15 c w).cp15 c' = b.cp15 c' := Function.update_of_ne h ..

end Fields

/-! ## Addresses and positions -/

theorem Boot.translate_off (h : b.mmu = false) (v : Word) : b.translate v = some v := by
  rw [Boot.translate, h, if_neg Bool.false_ne_true]

theorem Boot.translate_low (h : b.translate v = some q) :
    q.toNat % 2 ^ 20 = v.toNat % 2 ^ 20 := by
  unfold Boot.translate at h
  split at h
  · split at h
    · exact physical_low h
    · cases h
  · rw [Option.some.inj h]

theorem Boot.translate_add (h : b.translate v = some q) {d : Nat}
    (hd : v.toNat % 2 ^ 20 + d < 2 ^ 20) :
    b.translate (v + BitVec.ofNat 32 d) = some (q + BitVec.ofNat 32 d) := by
  unfold Boot.translate at h ⊢
  split
  · rename_i hmmu
    rw [if_pos hmmu] at h
    split
    · rename_i hok
      rw [if_pos hok] at h
      exact physical_add h hd
    · rename_i hok
      rw [if_neg hok] at h
      cases h
  · rename_i hmmu
    rw [if_neg hmmu] at h
    rw [Option.some.inj h]

theorem codeAt_zero (p : Word) : codeAt p 0 = p := BitVec.add_zero p

theorem codeAt_add (p : Word) (k j : Nat) :
    codeAt p k + BitVec.ofNat 32 (4 * j) = codeAt p (k + j) := by
  rw [codeAt, codeAt, BitVec.add_assoc, ← BitVec.ofNat_add, Nat.mul_add]

theorem codeAt_succ (p : Word) (k : Nat) : codeAt p k + 4 = codeAt p (k + 1) := codeAt_add p k 1

theorem codeAt_branch (p : Word) (k label : Nat) :
    codeAt p k + (BitVec.ofNat 32 (4 * label) - BitVec.ofNat 32 (4 * k)) = codeAt p label := by
  unfold codeAt
  bv_omega

theorem codeAt_sub (p : Word) (hk : k < 64) : (codeAt p k - p).toNat = 4 * k := by
  rw [codeAt, BitVec.add_comm, BitVec.add_sub_cancel, BitVec.toNat_ofNat]
  omega

theorem codeAt_mod (hp : p.toNat % 256 = 0) (hk : k < 64) :
    (codeAt p k).toNat % 256 = 4 * k := by
  rw [codeAt, BitVec.toNat_add, BitVec.toNat_ofNat]
  omega

/-- The next instruction is the one at position `k`. -/
theorem bootStep_at (h : b.translate b.pc = some (codeAt p k)) (hk : k < 64) :
    bootStep code p b = code[k]?.bind (HeadInstr.exec b k) := by
  rw [bootStep, h, Option.bind_some, codeAt_sub p hk, if_pos (Nat.mul_mod_right 4 k),
    Nat.mul_div_cancel_left k (by omega)]

/-- **What is run, is run at its place**: in code of less than 256 bytes on a boundary of as many,
the low bits of the address, which no translation changes, name the position. -/
theorem bootStep_inside (hp : p.toNat % 256 = 0) (hlen : code.length ≤ 64)
    (hpc : b.pc.toNat % 256 = 4 * k) (h : bootStep code p b = some o) :
    b.translate b.pc = some (codeAt p k) ∧ ∃ i, code[k]? = some i ∧ i.exec b k = some o := by
  have hk : k < 64 := by omega
  cases ht : b.translate b.pc with
  | none =>
    rw [bootStep, ht] at h
    cases h
  | some q =>
    have hq : q = codeAt p k := by
      have hlow := Boot.translate_low ht
      rw [bootStep, ht, Option.bind_some] at h
      split at h
      · rename_i hmod
        obtain ⟨i, hi, -⟩ := Option.bind_eq_some_iff.1 h
        obtain ⟨hlt, -⟩ := List.getElem?_eq_some_iff.1 hi
        have hadd : q = p + (q - p) := by rw [BitVec.add_comm, BitVec.sub_add_cancel]
        have hnat := congrArg BitVec.toNat hadd
        rw [BitVec.toNat_add] at hnat
        have hsub : (q - p).toNat = 4 * k := by omega
        rw [hadd, codeAt, ← hsub, BitVec.ofNat_toNat, BitVec.setWidth_eq]
      · cases h
    rw [bootStep_at (by rw [ht, hq]) hk] at h
    obtain ⟨i, hi, hexec⟩ := Option.bind_eq_some_iff.1 h
    exact ⟨congrArg some hq, i, hi, hexec⟩

/-! ## The call of `__setup_pgtbl` -/

section Call

variable {E istack : Word} {s t : State} {op : Op}

/-- The operations of the routine: no label lies outside. -/
def inSetup : Op → Bool
  | .str .. => true
  | .b label => decide (label ≤ 33)
  | .bxLr => true
  | op => isData op

theorem setupPgtbl_inSetup {i : Instr} (h : i ∈ setupPgtbl E) : inSetup i.op = true := by
  have hall : (setupPgtbl E).all (fun i => inSetup i.op) = true := rfl
  exact List.all_eq_true.1 hall i h

theorem inSetup_cases (h : inSetup op = true) :
    isData op = true ∨ (∃ rt rn offset, op = .str rt rn offset) ∨
      (∃ label, label ≤ 33 ∧ op = .b label) ∨ op = .bxLr := by
  cases op with
  | str rt rn offset => exact .inr (.inl ⟨rt, rn, offset, rfl⟩)
  | b label => exact .inr (.inr (.inl ⟨label, of_decide_eq_true h, rfl⟩))
  | bxLr => exact .inr (.inr (.inr rfl))
  | _ => exact .inl h

/-- What an operation on registers does. -/
theorem exec_data (h : isData op = true) (s : State) : op.exec s = .running
    { s with
      regs := (op.exec s).state.regs, flags := (op.exec s).state.flags, ip := s.ip + 1 } := by
  cases op <;> first | rfl | cases h

theorem execOp_data (h : isData op = true) (b : Boot) (k start : Nat) :
    execOp b k start op = some (.running (b.setCore (op.exec b.core).state).next) := by
  cases op <;> first | rfl | cases h

/-- It depends on registers and flags alone. -/
theorem exec_data_congr (h : isData op = true) (hregs : s.regs = t.regs)
    (hflags : s.flags = t.flags) : (op.exec s).state.regs = (op.exec t).state.regs ∧
      (op.exec s).state.flags = (op.exec t).state.flags := by
  have heval : ∀ op2 : Operand, op2.eval s = op2.eval t := by
    intro op2
    cases op2 with
    | reg r => exact congrFun hregs r
    | imm w => rfl
  cases op <;> first
    | (cases h; done)
    | simp [Op.exec, Outcome.state, State.setReg, State.next, heval, hregs, hflags]

/-- The routine's state, in that of the boot. -/
def inside (b : Boot) (p : Word) (s : State) : Boot :=
  { b with regs := s.regs, flags := s.flags, mem := s.mem, pc := codeAt p (23 + s.ip) }

theorem eq_inside {b b' : Boot} (hpc : b'.pc = codeAt p 23) (hc : b'.cp15 = b.cp15) :
    b' = inside b p ⟨b'.regs, b'.flags, none, b'.mem, [], 0⟩ := by
  rw [inside, Nat.add_zero, ← hpc, ← hc]

/-- Behind the call. -/
def behind (b : Boot) (s : State) : Boot :=
  { b with regs := s.regs, flags := s.flags, mem := s.mem, pc := s.regs .lr }

theorem execOp_inside (hb : b.mmu = false) (hop : inSetup op = true) :
    execOp (inside b p s) (23 + s.ip) 23 op =
      some (Outcome.inside (inside b p) (behind b) (op.exec s)) := by
  have hoff : (inside b p s).mmu = false := hb
  rcases inSetup_cases hop with hdata | ⟨rt, rn, offset, rfl⟩ | ⟨label, -, rfl⟩ | rfl
  · obtain ⟨hregs, hflags⟩ := exec_data_congr hdata (s := (inside b p s).core) (t := s) rfl rfl
    rw [execOp_data hdata, exec_data hdata s, Outcome.inside, Boot.setCore, hregs, hflags]
    simp only [Boot.next, Boot.jump, inside, codeAt_succ, Nat.add_assoc]
  · rw [execOp, Boot.translate_off hoff, Option.map_some, Op.exec, Outcome.inside]
    simp only [Boot.store, Boot.next, Boot.jump, State.next, inside, codeAt_succ, Nat.add_assoc]
  · rw [execOp, Op.exec, Outcome.inside]
    simp only [Boot.branch, Boot.jump, inside, codeAt_branch]
  · rfl

theorem headCode_setup {j : Nat} (hj : j < 33) :
    (headCode E istack)[23 + j]? = (setupPgtbl E)[j]?.map (HeadInstr.op 23) := by
  have hstart : (headStart istack).length = 23 := rfl
  have hsetup : ((setupPgtbl E).map (HeadInstr.op 23)).length = 33 := rfl
  rw [headCode, List.append_assoc, List.getElem?_append_right (by omega),
    List.getElem?_append_left (by omega), List.getElem?_map, hstart, Nat.add_sub_cancel_left]

/-- An instruction of the routine, as the boot runs it. -/
theorem setup_step (hb : b.mmu = false) (hip : s.ip ≤ 33) :
    bootStep (headCode E istack) p (inside b p s) =
      (step (setupPgtbl E) s).map (Outcome.inside (inside b p) (behind b)) := by
  have hoff : (inside b p s).mmu = false := hb
  rw [bootStep_at (k := 23 + s.ip) (Boot.translate_off hoff _) (by omega), step]
  rcases Nat.lt_or_ge s.ip 33 with hlt | hge
  · rw [headCode_setup hlt]
    cases hi : (setupPgtbl E)[s.ip]? with
    | none => rfl
    | some i =>
      rw [Option.map_some, Option.bind_some, Option.map_some, Option.map_some, HeadInstr.exec]
      have hflags : (inside b p s).flags = s.flags := rfl
      rw [hflags]
      by_cases hc : i.cond.holds s.flags = true
      · rw [if_pos hc, if_pos hc, execOp_inside hb (setupPgtbl_inSetup (List.mem_of_getElem? hi))]
      · rw [if_neg hc, if_neg hc, Outcome.inside]
        simp only [Boot.next, Boot.jump, State.next, inside, codeAt_succ, Nat.add_assoc]
  · obtain hip : s.ip = 33 := Nat.le_antisymm hip hge
    rw [hip]
    rfl

theorem exec_ip (hop : inSetup op = true) (hip : s.ip < 33) (h : op.exec s = .running t) :
    t.ip ≤ 33 := by
  rcases inSetup_cases hop with hdata | ⟨rt, rn, offset, rfl⟩ | ⟨label, hlabel, rfl⟩ | rfl
  · rw [exec_data hdata, Outcome.running.injEq] at h
    rw [← h]
    exact hip
  · rw [Op.exec, Outcome.running.injEq] at h
    rw [← h]
    exact hip
  · rw [Op.exec, Outcome.running.injEq] at h
    rw [← h]
    exact hlabel
  · cases h

/-- The routine stays within its code. -/
theorem setup_ip (h : step (setupPgtbl E) s = some (.running t)) : t.ip ≤ 33 := by
  unfold step at h
  obtain ⟨i, hi, ht⟩ := Option.map_eq_some_iff.1 h
  obtain ⟨hlt, -⟩ := List.getElem?_eq_some_iff.1 hi
  have hlen : (setupPgtbl E).length = 33 := rfl
  rw [hlen] at hlt
  split at ht
  · exact exec_ip (setupPgtbl_inSetup (List.mem_of_getElem? hi)) hlt ht
  · rw [Outcome.running.injEq] at ht
    rw [← ht]
    exact hlt

/-- **The call**: the boot comes back behind `__setup_pgtbl` exactly if the routine returns. -/
theorem setup_call (hb : b.mmu = false) (hip : s.ip ≤ 33) {u : Boot} :
    Returns (bootStep (headCode E istack) p) (inside b p s) u ↔
      ∃ t, Returns (step (setupPgtbl E)) s t ∧
        Returns (bootStep (headCode E istack) p) (behind b t) u :=
  Returns.call_iff (I := fun s : State => s.ip ≤ 33) (fun _ h => setup_step hb h)
    (fun _ _ _ h => setup_ip h) hip

end Call

end Timix.Head
