import Timix.Head

/-!
# What the ARM boot hands to C (`arch/arm/kernel/head.S`)

`_start` keeps its physical address in `r10`, which nothing on the way writes.  What
`__call_kernel` stores in `kern_phys_base` is `r1`, the virtual address it was entered at.

* `start_reaches`, `setup_keeps`, `mmu_reaches` — up to the instruction that jumps to virtual
  addresses.
* `call_kernel_leaves`, `call_kernel_returns` — from there to the branch.
* `boot_leaves`, `boot_returns` — what every boot leaves, and that one does.

Principal result: `boot_never_delivers`.
-/

set_option autoImplicit false

namespace Timix.Head

open Timix.Arm Machine ShortDescriptor

variable {b u : Boot} {p a E istack w : Word} {k : Nat} {r : Reg} {c : Cp15} {i : HeadInstr}
  {code : List HeadInstr}

/-- The MMU is off and position `k` is next. -/
structure Boot.At (p : Word) (k : Nat) (b : Boot) : Prop where
  off : b.mmu = false
  pc : b.pc = codeAt p k

/-! ## Instructions with the MMU off -/

theorem Boot.At.step {b' : Boot} (code : List HeadInstr) (h : b.At p k) (hk : k < 64)
    (hi : code[k]? = some i) (he : i.exec b k = some (.running b')) :
    Reaches (bootStep code p) b b' := by
  refine Reaches.next ?_ (Reaches.refl b')
  rw [bootStep_at (by rw [Boot.translate_off h.off, h.pc]) hk, hi, Option.bind_some, he]

theorem Boot.At.next_reg (h : b.At p k) (r : Reg) (w : Word) : (b.setReg r w).next.At p (k + 1) :=
  ⟨h.off, by rw [Boot.next_pc, Boot.setReg_pc, h.pc, codeAt_succ]⟩

theorem Boot.At.next_cp15 (h : b.At p k) (hc : Cp15.sctlr ≠ c) (w : Word) :
    (b.setCp15 c w).next.At p (k + 1) := by
  refine ⟨?_, by rw [Boot.next_pc, Boot.setCp15_pc, h.pc, codeAt_succ]⟩
  rw [Boot.mmu, Boot.next_cp15, Boot.setCp15_ne _ _ _ hc]
  exact h.off

theorem Boot.At.branch (h : b.At p k) (label : Nat) : (b.branch k label).At p label :=
  ⟨h.off, by rw [Boot.branch, Boot.jump_pc, h.pc, codeAt_branch]⟩

theorem Boot.At.setReg (h : b.At p k) (r : Reg) (w : Word) : (b.setReg r w).At p k :=
  ⟨h.off, h.pc⟩

/-- A register of coprocessor 15 is read, changed and written back. -/
theorem modify_reaches (code : List HeadInstr) {op : Op} {f : Word → Word} (h : b.At p k)
    (hk : k + 2 < 64)
    (hread : code[k]? = some (.mrc .r3 c)) (hop : code[k + 1]? = some (.op 0 ⟨op, .al⟩))
    (hwrite : code[k + 2]? = some (.mcr .r3 c))
    (hf : ∀ b, (HeadInstr.op 0 ⟨op, .al⟩).exec b (k + 1) =
      some (.running (b.setReg .r3 (f (b.regs .r3))).next)) :
    ∃ b', Reaches (bootStep code p) b b' ∧ b'.pc = codeAt p (k + 3) ∧ b'.mem = b.mem ∧
      b'.cp15 = Function.update b.cp15 c (f (b.cp15 c)) ∧ ∀ r, r ≠ .r3 → b'.regs r = b.regs r := by
  have h1 := h.next_reg .r3 (b.cp15 c)
  have h2 := h1.next_reg .r3 (f (b.cp15 c))
  have e0 := h.step code (by omega) hread rfl
  have e1 := h1.step code (by omega) hop (hf _)
  rw [Boot.next_regs, Boot.setReg_regs_self] at e1
  have e2 := h2.step code (by omega) hwrite rfl
  refine ⟨_, (e0.trans e1).trans e2, ?_, rfl, ?_, ?_⟩
  · rw [Boot.next_pc, Boot.setCp15_pc, h2.pc, codeAt_succ]
  · rw [Boot.next_cp15, Boot.next_regs, Boot.setReg_regs_self]
    rfl
  · intro r hr
    simp [hr]

/-! ## `__enable_mmu` -/

/-- Coprocessor 15 with the MMU on, and the directory at `dir`. -/
def enabled (cp15 : Cp15 → Word) (dir : Word) : Cp15 → Word
  | .ttbcr => cp15 .ttbcr &&& ~~~7
  | .ttbr0 => dir
  | .dacr => cp15 .dacr ||| 3
  | .sctlr => cp15 .sctlr ||| 1

/-- A register other than `r3` keeps its value. -/
theorem enable_mmu_reaches (E istack : Word) (h : b.At p 12) :
    ∃ b', Reaches (bootStep (headCode E istack) p) b b' ∧ b'.pc = codeAt p 22 ∧
      b'.mem = b.mem ∧ b'.cp15 = enabled b.cp15 (b.regs .r0) ∧
      ∀ r, r ≠ .r3 → b'.regs r = b.regs r := by
  obtain ⟨b1, e1, hpc1, hm1, hc1, hr1⟩ := modify_reaches (headCode E istack)
    (f := fun w => w &&& ~~~7) h (by decide) rfl rfl rfl fun _ => rfl
  have h1 : b1.At p 15 := by
    refine ⟨?_, hpc1⟩
    rw [Boot.mmu, hc1, Function.update_of_ne (by decide)]
    exact h.off
  have e2 := h1.step (headCode E istack) (by decide) rfl rfl
  have h2 := h1.next_cp15 (c := .ttbr0) (by decide) (b1.regs .r0)
  obtain ⟨b3, e3, hpc3, hm3, hc3, hr3⟩ := modify_reaches (headCode E istack)
    (f := fun w => w ||| 3) h2 (by decide) rfl rfl rfl fun _ => rfl
  have h3 : b3.At p 19 := by
    refine ⟨?_, hpc3⟩
    rw [Boot.mmu, hc3, Function.update_of_ne (by decide)]
    exact h2.off
  obtain ⟨b4, e4, hpc4, hm4, hc4, hr4⟩ := modify_reaches (headCode E istack)
    (f := fun w => w ||| 1) h3 (by decide) rfl rfl rfl fun _ => rfl
  refine ⟨b4, ((e1.trans e2).trans e3).trans e4, hpc4, (hm4.trans hm3).trans hm1, ?_, ?_⟩
  · funext c
    rw [hc4, hc3, Boot.next_cp15]
    cases c <;> simp [enabled, hc1, hr1]
  · intro r hr
    rw [hr4 r hr, hr3 r hr]
    exact hr1 r hr

/-! ## `_start` -/

/-- On entry to `_start`: loaded at `p`, the MMU off, and the atags pointer in `r2`. -/
structure BootEntry (p a : Word) (b : Boot) : Prop where
  align : p.toNat % 256 = 0
  start : b.At p 0
  r2 : b.regs .r2 = a

/-- The address that `pc` reads as in the first instruction, cut to a multiple of 256. -/
theorem bic_pc (halign : p.toNat % 256 = 0) : p + 8 &&& ~~~0xff = p := by
  have hp := p.isLt
  have hmask : (0xff : Word) = BitVec.ofNat 32 (2 ^ 8 - 1) := rfl
  have h8 : (8 : Word).toNat = 8 := rfl
  apply BitVec.eq_of_toNat_eq
  rw [hmask, toNat_bic, BitVec.toNat_add, h8]
  omega

/-- Up to the call of `__setup_pgtbl`. -/
theorem start_reaches (E istack : Word) (h : BootEntry p a b) :
    ∃ s, Reaches (bootStep (headCode E istack) p) b (inside b p s) ∧ s.ip = 0 ∧
      s.regs .r0 = p ∧ s.regs .r2 = a ∧ s.regs .r10 = p ∧ s.regs .lr = codeAt p 4 := by
  have hbic : b.pc + 8 &&& ~~~0xff = p := by
    rw [h.start.pc, codeAt_zero, bic_pc h.align]
  have e0 := h.start.step (headCode E istack) (by decide) rfl rfl
  have h1 := h.start.next_reg .r0 (b.pc + 8)
  have e1 := h1.step (headCode E istack) (by decide) rfl rfl
  have h2 := h1.next_reg .r0 (b.pc + 8 &&& ~~~0xff)
  have e2 := h2.step (headCode E istack) (by decide) rfl rfl
  have h3 := h2.next_reg .r10 (b.pc + 8 &&& ~~~0xff)
  have e3 := h3.step (headCode E istack) (by decide) rfl rfl
  rw [h3.pc, codeAt_succ] at e3
  have h4 := (h3.setReg .lr (codeAt p 4)).branch 23
  have hreach := ((e0.trans e1).trans e2).trans e3
  rw [eq_inside h4.pc rfl, hbic] at hreach
  refine ⟨_, hreach, rfl, ?_, ?_, ?_, ?_⟩
  · simp [Boot.branch]
  · simp [Boot.branch, h.r2]
  · simp [Boot.branch]
  · simp [Boot.branch]

/-- The registers that `__setup_pgtbl` does not write. -/
theorem setup_keeps {s t : State} (h : Returns (step (setupPgtbl E)) s t)
    (hr : r ∈ [Reg.r1, .r2, .r10, .sp, .lr]) : t.regs r = s.regs r := by
  refine returns_regs_eq ?_ h
  intro i hi hmem
  have hall : (setupPgtbl E).all
      (fun i => [Reg.r1, .r2, .r10, .sp, .lr].all fun r => !i.op.dests.contains r) = true := rfl
  have hkeep := List.all_eq_true.1 (List.all_eq_true.1 hall i hi) r hr
  rw [List.contains_iff_mem.2 hmem] at hkeep
  cases hkeep

/-- From `__setup_pgtbl` on, until the MMU is on. -/
theorem mmu_reaches (E istack : Word) (h : b.At p 4) :
    ∃ b', Reaches (bootStep (headCode E istack) p) b b' ∧ b'.pc = codeAt p 22 ∧
      b'.mem = b.mem ∧ b'.cp15 = enabled b.cp15 (b.regs .r0) ∧
      b'.regs .r1 = codeAt textStart 7 ∧ b'.regs .r2 = b.regs .r2 ∧
      b'.regs .r10 = b.regs .r10 := by
  have e1 := h.step (headCode E istack) (by decide) rfl rfl
  have h1 := h.next_reg .r1 (codeAt textStart 7)
  have e2 := h1.step (headCode E istack) (by decide) rfl rfl
  have h2 := (h1.setReg .lr ((b.setReg .r1 (codeAt textStart 7)).next.pc + 4)).branch 12
  obtain ⟨b', e3, hpc, hm, hc, hr⟩ := enable_mmu_reaches E istack h2
  refine ⟨b', (e1.trans e2).trans e3, hpc, hm, ?_, ?_, ?_, ?_⟩
  · rw [hc]
    simp [Boot.branch]
  · rw [hr _ (by decide)]
    simp [Boot.branch]
  · rw [hr _ (by decide)]
    simp [Boot.branch]
  · rw [hr _ (by decide)]
    simp [Boot.branch]

/-! ## Behind the jump -/

theorem headCode_length_le (E istack : Word) : (headCode E istack).length ≤ 64 := by
  have hlen : (headCode E istack).length = 57 := rfl
  omega

theorem textStart_align : textStart.toNat % 256 = 0 := rfl

/-- In a run that comes back, the instruction at `b.pc` was found; `x` is where the code is, in
the addresses that the processor uses. -/
theorem returns_next {x : Word} {b' : Boot} (hp : p.toNat % 256 = 0) (hx : x.toNat % 256 = 0)
    (hk : k < 64) (hpc : b.pc = codeAt x k) (hi : (headCode E istack)[k]? = some i)
    (he : b.translate b.pc = some (codeAt p k) → i.exec b k = some (.running b'))
    (h : Returns (bootStep (headCode E istack) p) b u) :
    Returns (bootStep (headCode E istack) p) b' u := by
  have hlen := headCode_length_le E istack
  have hmod : b.pc.toNat % 256 = 4 * k := by rw [hpc, codeAt_mod hx hk]
  rcases h.step_cases with ⟨t, hstep, ht⟩ | hstep
  · obtain ⟨htr, i', hi', hexec⟩ := bootStep_inside hp hlen hmod hstep
    rw [hi, Option.some_inj] at hi'
    rw [← hi', he htr, Option.some_inj, Outcome.running.injEq] at hexec
    rwa [hexec]
  · obtain ⟨htr, i', hi', hexec⟩ := bootStep_inside hp hlen hmod hstep
    rw [hi, Option.some_inj] at hi'
    rw [← hi', he htr] at hexec
    cases hexec

/-- The last instruction hands control over. -/
theorem returns_last {x : Word} (hp : p.toNat % 256 = 0) (hx : x.toNat % 256 = 0)
    (hpc : b.pc = codeAt x 11) (h : Returns (bootStep (headCode E istack) p) b u) : u = b := by
  have hmod : b.pc.toNat % 256 = 4 * 11 := by rw [hpc, codeAt_mod hx (by decide)]
  rcases h.step_cases with ⟨t, hstep, -⟩ | hstep
  · obtain ⟨-, i, hi, hexec⟩ := bootStep_inside hp (headCode_length_le E istack) hmod hstep
    cases hi
    cases hexec
  · obtain ⟨-, i, hi, hexec⟩ := bootStep_inside hp (headCode_length_le E istack) hmod hstep
    cases hi
    cases hexec
    rfl

/-- `kern_phys_base` is in the section of the instruction that stores there. -/
theorem translate_base (hpc : b.pc = codeAt textStart 8)
    (h : b.translate b.pc = some (codeAt p 8)) :
    b.translate (codeAt textStart 56) = some (codeAt p 56) := by
  rw [hpc] at h
  rw [← codeAt_add textStart 8 48, ← codeAt_add p 8 48]
  exact Boot.translate_add h (by decide)

theorem exec_store (h : b.translate (b.regs .r0) = some w) :
    (HeadInstr.op 0 ⟨.str .r1 .r0 0, .al⟩).exec b k =
      some (.running (b.store w (b.regs .r1)).next) := by
  rw [← BitVec.add_zero (b.regs .r0)] at h
  exact congrArg (Option.map _) h

/-- In `__call_kernel`, entered from `b`: before the store, -/
def beforeStore (b : Boot) : Boot :=
  ((b.jump (b.regs .r1)).setReg .r0 (codeAt textStart 56)).next

/-- behind it, -/
def afterStore (p : Word) (b : Boot) : Boot :=
  ((beforeStore b).store (codeAt p 56) (b.regs .r1)).next

/-- and at the branch to `c_entry`. -/
def atBranch (p istack : Word) (b : Boot) : Boot :=
  (((afterStore p b).setReg .r0 (b.regs .r2)).next.setReg .sp istack).next

@[simp] theorem atBranch_base : (atBranch p istack b).mem (codeAt p 56) = b.regs .r1 := by
  simp [atBranch, afterStore, Boot.store]

@[simp] theorem atBranch_r0 : (atBranch p istack b).regs .r0 = b.regs .r2 := by simp [atBranch]

@[simp] theorem atBranch_sp : (atBranch p istack b).regs .sp = istack := by simp [atBranch]

@[simp] theorem atBranch_r10 : (atBranch p istack b).regs .r10 = b.regs .r10 := by
  simp [atBranch, afterStore, beforeStore]

section CallKernel

variable (hr1 : b.regs .r1 = codeAt textStart 7)

include hr1

theorem beforeStore_pc : (beforeStore b).pc = codeAt textStart 8 := by
  rw [beforeStore, Boot.next_pc, Boot.setReg_pc, Boot.jump_pc, hr1, codeAt_succ]

theorem afterStore_pc : (afterStore p b).pc = codeAt textStart 9 := by
  rw [afterStore, Boot.next_pc, Boot.store_pc, beforeStore_pc hr1, codeAt_succ]

theorem afterStore_next_pc (w : Word) :
    ((afterStore p b).setReg .r0 w).next.pc = codeAt textStart 10 := by
  rw [Boot.next_pc, Boot.setReg_pc, afterStore_pc hr1, codeAt_succ]

theorem atBranch_pc : (atBranch p istack b).pc = codeAt textStart 11 := by
  rw [atBranch, Boot.next_pc, Boot.setReg_pc, afterStore_next_pc hr1, codeAt_succ]

/-- **A run that comes back does so at the branch**, wherever the addresses behind the jump
lead. -/
theorem call_kernel_leaves (hp : p.toNat % 256 = 0) (hpc : b.pc = codeAt p 22)
    (h : Returns (bootStep (headCode E istack) p) b u) : u = atBranch p istack b := by
  have hx := textStart_align
  have h7 : Returns _ (b.jump (b.regs .r1)) u :=
    returns_next hp hp (by decide) hpc rfl (fun _ => rfl) h
  have h8 : Returns _ (beforeStore b) u :=
    returns_next hp hx (by decide) hr1 rfl (fun _ => rfl) h7
  have h9 : Returns _ (afterStore p b) u :=
    returns_next hp hx (by decide) (beforeStore_pc hr1) rfl
      (fun htr => exec_store (translate_base (beforeStore_pc hr1) htr)) h8
  have h10 : Returns _ ((afterStore p b).setReg .r0 (b.regs .r2)).next u :=
    returns_next hp hx (by decide) (afterStore_pc hr1) rfl (fun _ => rfl) h9
  have h11 : Returns _ (atBranch p istack b) u :=
    returns_next hp hx (by decide) (afterStore_next_pc hr1 _) rfl (fun _ => rfl) h10
  exact returns_last hp hx (atBranch_pc hr1) h11

end CallKernel

/-- The addresses used behind the jump lead to the code, also after the store. -/
structure Mapped (p : Word) (b : Boot) : Prop where
  identity : b.translate (codeAt p 22) = some (codeAt p 22)
  kernel : ∀ k < 57, b.translate (codeAt textStart k) = some (codeAt p k)
  stored : ∀ w, ∀ k < 57,
    (b.store (codeAt p 56) w).translate (codeAt textStart k) = some (codeAt p k)

theorem Mapped.beforeStore (h : Mapped p b) (hk : k < 57) :
    (beforeStore b).translate (codeAt textStart k) = some (codeAt p k) := h.kernel k hk

theorem Mapped.afterStore (h : Mapped p b) (hk : k < 57) :
    (afterStore p b).translate (codeAt textStart k) = some (codeAt p k) := h.stored _ k hk

/-- An instruction that is found and goes on. -/
theorem returns_goes {x : Word} {b' : Boot} (hpc : b.pc = codeAt x k)
    (htr : b.translate (codeAt x k) = some (codeAt p k)) (hk : k < 64) (hi : code[k]? = some i)
    (he : i.exec b k = some (.running b')) (h : Returns (bootStep code p) b' u) :
    Returns (bootStep code p) b u := by
  refine Returns.next ?_ h
  rw [bootStep_at (hpc ▸ htr) hk, hi, Option.bind_some, he]

theorem call_kernel_returns (E istack : Word) (h : Mapped p b) (hpc : b.pc = codeAt p 22)
    (hr1 : b.regs .r1 = codeAt textStart 7) :
    Returns (bootStep (headCode E istack) p) b (atBranch p istack b) := by
  have h11 : Returns (bootStep (headCode E istack) p) (atBranch p istack b)
      (atBranch p istack b) := by
    have htr : (atBranch p istack b).translate (codeAt textStart 11) = some (codeAt p 11) :=
      h.afterStore (by decide)
    refine Returns.ret ?_
    rw [bootStep_at (atBranch_pc hr1 ▸ htr) (by decide)]
    rfl
  have h10 : Returns _ ((afterStore p b).setReg .r0 (b.regs .r2)).next _ :=
    returns_goes (afterStore_next_pc hr1 _) (h.afterStore (by decide)) (by decide) rfl rfl h11
  have h9 : Returns _ (afterStore p b) _ :=
    returns_goes (afterStore_pc hr1) (h.afterStore (by decide)) (by decide) rfl rfl h10
  have h8 : Returns _ (beforeStore b) _ :=
    returns_goes (beforeStore_pc hr1) (h.beforeStore (by decide)) (by decide) rfl
      (exec_store (h.beforeStore (by decide))) h9
  have h7 : Returns _ (b.jump (b.regs .r1)) _ :=
    returns_goes hr1 (h.kernel 7 (by decide)) (by decide) rfl rfl h8
  exact returns_goes hpc h.identity (by decide) rfl rfl h7

/-! ## A kernel where it is linked -/

/-- The kernel lies in its physical sections as in its own, which do not wrap nor overlap. -/
structure Loaded (p E : Word) : Prop where
  offset : p.toNat % 2 ^ 20 = 0x10000
  kernel : kernelStart ≤ E
  wrap : (p &&& ~~~SECTION_MASK).toNat + (E - kernelStart).toNat < 2 ^ 32
  apart : ∀ v, InSections (p &&& ~~~SECTION_MASK) (sections E) v →
    ¬ InSections kernelStart (sections E) v

theorem Loaded.low (h : Loaded p E) : PAGEDIR_SIZE ≤ p := by
  have hoff := h.offset
  have hsize : PAGEDIR_SIZE.toNat = 0x4000 := rfl
  rw [BitVec.le_def, hsize]
  omega

theorem Loaded.align (h : Loaded p E) : (p - PAGEDIR_SIZE).toNat % 2 ^ 14 = 0 := by
  have hoff := h.offset
  rw [toNat_directory h.low]
  omega

theorem Loaded.setup_returns (h : Loaded p E) {s : State} (hip : s.ip = 0)
    (hr0 : s.regs .r0 = p) :
    ∃ t, Returns (step (setupPgtbl E)) s t ∧ t.regs .r0 = p - PAGEDIR_SIZE ∧
      Maps t.mem (p - PAGEDIR_SIZE) (sectionAt (p.toNat / 2 ^ 20)) (sections E) := by
  have hoff := h.offset
  have hsize : PAGEDIR_SIZE.toNat = 0x4000 := rfl
  have hentry : SetupEntry s p E :=
    ⟨hip, hr0, by rw [hsize]; omega, h.low, h.kernel, h.wrap, h.apart⟩
  have hk := hentry.apart_sections
  obtain ⟨t, ht, hdir, hentries, -⟩ := setup_run hip hr0 h.low h.kernel (bic_mask p) hk
  exact ⟨t, ht.of_guarded, hdir, maps_of_contents h.align hk (sections_pos E) hentries⟩

theorem translate_enabled {cp15 : Cp15 → Word} {dir : Word} (h : b.cp15 = enabled cp15 dir)
    (v : Word) : b.translate v = physical b.mem dir v := by
  have hmmu : b.mmu = true := by simp [Boot.mmu, h, enabled]
  have httbcr : b.cp15 .ttbcr &&& 7 = 0 := by
    rw [h, enabled, BitVec.and_assoc]
    exact BitVec.and_zero
  have hdacr : b.cp15 .dacr &&& 3 = 3 := by
    have habsorb : ∀ x y : Bool, ((x || y) && y) = y := by decide
    rw [h, enabled]
    apply BitVec.eq_of_getLsbD_eq
    intro i _
    rw [BitVec.getLsbD_and, BitVec.getLsbD_or, habsorb]
  rw [Boot.translate, if_pos hmmu, if_pos ⟨httbcr, hdacr⟩, h]
  rfl

theorem Loaded.mapped (h : Loaded p E) (cp15 : Cp15 → Word)
    (hc : b.cp15 = enabled cp15 (p - PAGEDIR_SIZE))
    (hm : Maps b.mem (p - PAGEDIR_SIZE) (sectionAt (p.toNat / 2 ^ 20)) (sections E)) :
    Mapped p b := by
  have hp := p.isLt
  have hoff := h.offset
  have hpos := sections_pos E
  have htext : textStart.toNat = 0x80010000 := rfl
  have hstart : kernelStart.toNat = 0x80000000 := rfl
  have hcode : ∀ k < 57, (codeAt p k).toNat = p.toNat + 4 * k := by
    intro k hk
    rw [codeAt, BitVec.toNat_add, BitVec.toNat_ofNat]
    omega
  have hphys : ∀ k < 57, physical b.mem (p - PAGEDIR_SIZE) (codeAt textStart k) =
      some (codeAt p k) := by
    intro k hk
    have hv : (codeAt textStart k).toNat = textStart.toNat + 4 * k := by
      rw [codeAt, BitVec.toNat_add, BitVec.toNat_ofNat, htext]
      omega
    have hge : kernelStart ≤ codeAt textStart k := by
      rw [BitVec.le_def, hv, htext, hstart]
      omega
    have hin : InSections kernelStart (sections E) (codeAt textStart k) := by
      rw [kernelStart_eq, inSections_iff (by decide), hv, htext]
      omega
    rw [hm.kernel _ hin, Option.some_inj]
    apply BitVec.eq_of_toNat_eq
    rw [BitVec.toNat_add, BitVec.toNat_sub_of_le hge, hv, htext, hstart, sectionAt, hcode k hk,
      BitVec.toNat_ofNat]
    omega
  have hother : ∀ v, entryAddress (p - PAGEDIR_SIZE) v ≠ codeAt p 56 := by
    intro v hv
    have hlt := v.isLt
    have hin := slot_inDirectory h.low (x := v.toNat / 2 ^ 20) (by omega)
    rw [← entryAddress_eq h.align, hv, inDirectory, decide_eq_true_eq, hcode 56 (by decide)] at hin
    omega
  constructor
  · rw [translate_enabled hc, hm.identity]
    rw [inSections_iff (by omega), hcode 22 (by decide)]
    omega
  · intro k hk
    rw [translate_enabled hc, hphys k hk]
  · intro w k hk
    rw [translate_enabled (b := b.store (codeAt p 56) w) hc, ← hphys k hk]
    exact physical_update (hother _)

/-! ## The whole path -/

/-- Behind `__setup_pgtbl`, at the instruction that `bl` left in `lr`. -/
theorem setup_back {s t : State} (h : b.At p 0) (hlr : s.regs .lr = codeAt p 4)
    (ht : Returns (step (setupPgtbl E)) s t) : (behind b t).At p 4 :=
  ⟨h.off, (setup_keeps ht (by decide)).trans hlr⟩

/-- **What every boot leaves at `c_entry`**: the registers are right, the stored word is not. -/
theorem boot_leaves (h : BootEntry p a b) (hret : Returns (bootStep (headCode E istack) p) b u) :
    u.mem (codeAt p 56) = codeAt textStart 7 ∧ u.regs .r0 = a ∧ u.regs .sp = istack ∧
      u.regs .r10 = p := by
  obtain ⟨s, hs, hip, -, hr2, hr10, hlr⟩ := start_reaches E istack h
  obtain ⟨t, ht, hbehind⟩ := (setup_call h.start.off (by omega)).1 (Returns.after hs hret)
  obtain ⟨b', hb', hpc, -, -, hr1, hb2, hb10⟩ := mmu_reaches E istack (setup_back h.start hlr ht)
  rw [call_kernel_leaves hr1 h.align hpc (Returns.after hb' hbehind)]
  refine ⟨?_, ?_, atBranch_sp, ?_⟩
  · rw [atBranch_base, hr1]
  · rw [atBranch_r0, hb2]
    exact (setup_keeps ht (by decide)).trans hr2
  · rw [atBranch_r10, hb10]
    exact (setup_keeps ht (by decide)).trans hr10

/-- A boot of a kernel that is loaded where it is linked gets to `c_entry`. -/
theorem boot_returns (istack : Word) (h : BootEntry p a b) (hl : Loaded p E) :
    ∃ u, Returns (bootStep (headCode E istack) p) b u := by
  obtain ⟨s, hs, hip, hr0, -, -, hlr⟩ := start_reaches E istack h
  obtain ⟨t, ht, hdir, hmaps⟩ := hl.setup_returns hip hr0
  obtain ⟨b', hb', hpc, hmem, hc, hr1, -, -⟩ := mmu_reaches E istack (setup_back h.start hlr ht)
  have hmapped : Mapped p b' := by
    refine hl.mapped b.cp15 ?_ ?_
    · rw [hc, ← hdir]
      rfl
    · rw [hmem]
      exact hmaps
  have hbehind := Returns.of_reaches hb' (call_kernel_returns E istack hmapped hpc hr1)
  exact ⟨_, Returns.of_reaches hs ((setup_call h.start.off (by omega)).2 ⟨t, ht, hbehind⟩)⟩

/-- What C is to find at `c_entry`. -/
structure Delivers (p a istack : Word) (b : Boot) : Prop where
  kernPhysBase : b.mem (codeAt p 56) = p
  r0 : b.regs .r0 = a
  sp : b.regs .sp = istack

/-- **No boot delivers its inputs**: whatever the load address is, `kern_phys_base` does not hold
it. -/
theorem boot_never_delivers (p a kernelEnd istack : Word) (b u : Boot) (h : BootEntry p a b)
    (hret : Returns (bootStep (headCode kernelEnd istack) p) b u) : ¬ Delivers p a istack u := by
  intro hd
  have hbase := (boot_leaves h hret).1
  rw [hd.kernPhysBase] at hbase
  have halign := h.align
  rw [hbase] at halign
  exact absurd halign (by decide)

/-- A machine with its memory at 0x60000000, before the first instruction. -/
def bootInput : Boot where
  regs r := if r = .r2 then 0x60000100 else 0
  flags := ⟨false, false, false, false⟩
  mem _ := 0xffffffff
  pc := 0x60010000
  cp15 _ := 0

theorem bootInput_entry : BootEntry 0x60010000 0x60000100 bootInput :=
  ⟨by decide, ⟨by decide, by decide⟩, rfl⟩

/-- A kernel of 128 KB fits there. -/
theorem loaded_input : Loaded 0x60010000 0x80020000 where
  offset := by decide
  kernel := by decide
  wrap := by decide
  apart := by
    rintro v ⟨-, hlt⟩ ⟨hge, -⟩
    have hend : (0x60010000 &&& ~~~SECTION_MASK).toNat +
        sections 0x80020000 * SECTION_SIZE.toNat = 0x60100000 := by decide
    have hstart : kernelStart.toNat = 0x80000000 := rfl
    omega

/-- It gets to `c_entry`, and does not deliver. -/
theorem boot_never_delivers_input : ∃ u,
    Returns (bootStep (headCode 0x80020000 0x80012000) 0x60010000) bootInput u ∧
      ¬ Delivers 0x60010000 0x60000100 0x80012000 u := by
  obtain ⟨u, hu⟩ := boot_returns 0x80012000 bootInput_entry loaded_input
  exact ⟨u, hu, boot_never_delivers 0x60010000 0x60000100 0x80020000 0x80012000 bootInput u
    bootInput_entry hu⟩

/-- What is stored is the virtual address of `__call_kernel`. -/
theorem boot_stores_call_kernel : BootEntry 0x60010000 0x60000100 bootInput ∧ ∃ u,
    Returns (bootStep (headCode 0x80020000 0x80012000) 0x60010000) bootInput u ∧
      u.mem (codeAt 0x60010000 56) = 0x8001001c ∧
      ¬ Delivers 0x60010000 0x60000100 0x80012000 u := by
  obtain ⟨u, hu⟩ := boot_returns 0x80012000 bootInput_entry loaded_input
  have hbase : u.mem (codeAt 0x60010000 56) = 0x8001001c := (boot_leaves bootInput_entry hu).1
  refine ⟨bootInput_entry, u, hu, hbase, fun hd => ?_⟩
  rw [hd.kernPhysBase] at hbase
  exact absurd hbase (by decide)

end Timix.Head
