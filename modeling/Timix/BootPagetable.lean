import Timix.Arm
import Timix.Lib.ShortDescriptor

/-!
# The boot page directory (`__setup_pgtbl`, `arch/arm/kernel/head.S`)

The routine clears the 16 KB below the kernel's physical address, then writes two section entries
in every pass: for a physical section itself, and for the virtual one.  The labels `1` are
positions 7 and 16.

* `Clearing`, `Populating` — what holds before every pass of the two loops; `clearing_step` and
  `populating_step` keep it.
* `ge_cmpFlags` — the comparison that ends the second loop.
* `contents`, `maps_of_contents` — the entries, and what they map.

Principal result: `setup_pgtbl_maps`.
-/

set_option autoImplicit false

namespace Timix.Arm

open Machine ShortDescriptor

def SECTION_SIZE : Word := 0x100000

/-- `SECTION_SIZE - 1`. -/
def SECTION_MASK : Word := 0xfffff

def PAGEDIR_SIZE : Word := 0x4000

/-- `_KERNEL_START_` in `kernel.ld`. -/
def kernelStart : Word := 0x80000000

/-- `__setup_pgtbl`; `_KERNEL_END_` is where the linker puts it. -/
def setupPgtbl (kernelEnd : Word) : List Instr :=
  [⟨.ldrConst .r4 PAGEDIR_SIZE, .al⟩,
   ⟨.sub .r3 .r0 (.reg .r4), .al⟩,
   ⟨.ldrConst .r4 SECTION_MASK, .al⟩,
   ⟨.ldrConst .r8 kernelEnd, .al⟩,
   ⟨.mov .r5 (.imm 0), .al⟩,
   ⟨.mov .r6 (.reg .r3), .al⟩,
   ⟨.ldrConst .r7 PAGEDIR_SIZE, .al⟩,
   ⟨.str .r5 .r6 0x0, .al⟩,
   ⟨.str .r5 .r6 0x4, .al⟩,
   ⟨.str .r5 .r6 0x8, .al⟩,
   ⟨.str .r5 .r6 0xc, .al⟩,
   ⟨.add .r6 .r6 (.imm 0x10), .al⟩,
   ⟨.cmp .r6 (.reg .r0), .al⟩,
   ⟨.b 7, .ne⟩,
   ⟨.bic .r5 .r0 (.reg .r4), .al⟩,
   ⟨.ldrConst .r6 kernelStart, .al⟩,
   ⟨.mov .r7 (.reg .r5), .al⟩,
   ⟨.ldrConst .r8 0xc02, .al⟩,
   ⟨.orr .r7 .r7 (.reg .r8), .al⟩,
   ⟨.lsr .r8 .r5 18, .al⟩,
   ⟨.add .r8 .r3 (.reg .r8), .al⟩,
   ⟨.str .r7 .r8 0, .al⟩,
   ⟨.lsr .r8 .r6 18, .al⟩,
   ⟨.add .r8 .r3 (.reg .r8), .al⟩,
   ⟨.str .r7 .r8 0, .al⟩,
   ⟨.ldrConst .r8 SECTION_SIZE, .al⟩,
   ⟨.add .r5 .r5 (.reg .r8), .al⟩,
   ⟨.add .r6 .r6 (.reg .r8), .al⟩,
   ⟨.ldrConst .r8 kernelEnd, .al⟩,
   ⟨.cmp .r8 (.reg .r6), .al⟩,
   ⟨.b 16, .ge⟩,
   ⟨.mov .r0 (.reg .r3), .al⟩,
   ⟨.bxLr, .al⟩]

/-- The words an operation may write. -/
def Op.targets (s : State) : Op → List Word
  | .strex _ _ rn => [s.regs rn]
  | .strexd _ _ _ rn => [s.regs rn, s.regs rn + 4]
  | .str _ rn offset => [s.regs rn + offset]
  | .stmdb rn regs =>
    (List.range regs.length).map fun i => s.regs rn - size regs + BitVec.ofNat 32 (4 * i)
  | _ => []

/-- The next instruction of `code` writes nothing outside `dir`. -/
def keepsTo (dir : Word → Bool) (code : List Instr) (s : State) : Bool :=
  match code[s.ip]? with
  | some i => (i.op.targets s).all dir
  | none => true

/-- An instruction of the routine, as long as it writes nothing outside `dir`. -/
def setupStep (kernelEnd : Word) (dir : Word → Bool) : State → Option (Outcome State) :=
  guarded (keepsTo dir (setupPgtbl kernelEnd)) (step (setupPgtbl kernelEnd))

variable {s : State} {dir : Word → Bool} {E : Word}

/-! ## The straight pieces -/

/-- Up to the first loop. -/
theorem reaches_clear (dir : Word → Bool) (hip : s.ip = 0) :
    ∃ t, Reaches (setupStep E dir) s t ∧ t.ip = 7 ∧
      t.regs .r0 = s.regs .r0 ∧ t.regs .r3 = s.regs .r0 - PAGEDIR_SIZE ∧
      t.regs .r4 = SECTION_MASK ∧ t.regs .r5 = 0 ∧ t.regs .r6 = s.regs .r0 - PAGEDIR_SIZE ∧
      t.mem = s.mem := by
  refine ⟨_, ⟨7, by
    simp [steps, setupStep, guarded, keepsTo, step, hip, setupPgtbl, Op.targets,
      Op.exec, Operand.eval]; rfl⟩, ?_⟩
  simp [hip]

/-- One pass of the loop that clears. -/
theorem clear_pass (hip : s.ip = 7) (h0 : dir (s.regs .r6)) (h4 : dir (s.regs .r6 + 4#32))
    (h8 : dir (s.regs .r6 + 8#32)) (hc : dir (s.regs .r6 + 12#32)) :
    ∃ t, Reaches (setupStep E dir) s t ∧
      t.ip = (if s.regs .r6 + 16#32 = s.regs .r0 then 14 else 7) ∧
      t.regs .r0 = s.regs .r0 ∧ t.regs .r3 = s.regs .r3 ∧ t.regs .r4 = s.regs .r4 ∧
      t.regs .r5 = s.regs .r5 ∧ t.regs .r6 = s.regs .r6 + 16#32 ∧
      t.mem = Function.update (Function.update (Function.update (Function.update s.mem
        (s.regs .r6) (s.regs .r5)) (s.regs .r6 + 4#32) (s.regs .r5)) (s.regs .r6 + 8#32)
        (s.regs .r5)) (s.regs .r6 + 12#32) (s.regs .r5) := by
  by_cases heq : s.regs .r6 + 16#32 = s.regs .r0
  · refine ⟨_, ⟨7, by
      simp [steps, setupStep, guarded, keepsTo, step, hip, setupPgtbl, Op.targets, h0, h4, h8, hc,
        Cond.holds, Op.exec, Operand.eval, cmpFlags, heq]; rfl⟩, ?_⟩
    simp [heq]
  · refine ⟨_, ⟨7, by
      simp [steps, setupStep, guarded, keepsTo, step, hip, setupPgtbl, Op.targets, h0, h4, h8, hc,
        Cond.holds, Op.exec, Operand.eval, cmpFlags, heq]; rfl⟩, ?_⟩
    simp [heq]

/-- Between the loops. -/
theorem reaches_populate (dir : Word → Bool) (hip : s.ip = 14) :
    ∃ t, Reaches (setupStep E dir) s t ∧ t.ip = 16 ∧ t.regs .r3 = s.regs .r3 ∧
      t.regs .r5 = s.regs .r0 &&& ~~~s.regs .r4 ∧ t.regs .r6 = kernelStart ∧ t.mem = s.mem := by
  refine ⟨_, ⟨2, by
    simp [steps, setupStep, guarded, keepsTo, step, hip, setupPgtbl, Op.targets,
      Op.exec, Operand.eval]; rfl⟩, ?_⟩
  simp [hip]

/-- In the loop that writes entries: the two stores, -/
theorem populate_stores (hip : s.ip = 16) (h5 : dir (s.regs .r3 + s.regs .r5 >>> 18))
    (h6 : dir (s.regs .r3 + s.regs .r6 >>> 18)) :
    ∃ t, Reaches (setupStep E dir) s t ∧ t.ip = 25 ∧ t.regs .r3 = s.regs .r3 ∧
      t.regs .r5 = s.regs .r5 ∧ t.regs .r6 = s.regs .r6 ∧
      t.mem = Function.update (Function.update s.mem (s.regs .r3 + s.regs .r5 >>> 18)
        (s.regs .r5 ||| 0xc02#32)) (s.regs .r3 + s.regs .r6 >>> 18) (s.regs .r5 ||| 0xc02#32) := by
  refine ⟨_, ⟨9, by
    simp [steps, setupStep, guarded, keepsTo, step, hip, setupPgtbl, Op.targets, h5, h6,
      Op.exec, Operand.eval]; rfl⟩, ?_⟩
  simp

/-- the next sections, -/
theorem populate_next (dir : Word → Bool) (hip : s.ip = 25) :
    ∃ t, Reaches (setupStep E dir) s t ∧ t.ip = 30 ∧ t.regs .r3 = s.regs .r3 ∧
      t.regs .r5 = s.regs .r5 + SECTION_SIZE ∧ t.regs .r6 = s.regs .r6 + SECTION_SIZE ∧
      t.flags = cmpFlags E (s.regs .r6 + SECTION_SIZE) ∧ t.mem = s.mem := by
  refine ⟨_, ⟨5, by
    simp [steps, setupStep, guarded, keepsTo, step, hip, setupPgtbl, Op.targets,
      Op.exec, Operand.eval]; rfl⟩, ?_⟩
  simp

/-- and the way back. -/
theorem populate_back (hip : s.ip = 30) : Reaches (setupStep E dir) s
    { s with ip := if Cond.ge.holds s.flags then 16 else 31 } := by
  refine ⟨1, ?_⟩
  cases hge : Cond.ge.holds s.flags with
  | true =>
    simp [steps, setupStep, guarded, keepsTo, step, hip, setupPgtbl, Op.targets, Op.exec, hge]
  | false =>
    simp [steps, setupStep, guarded, keepsTo, step, hip, setupPgtbl, Op.targets, State.next, hge]

/-- One pass. -/
theorem populate_pass (hip : s.ip = 16) (h5 : dir (s.regs .r3 + s.regs .r5 >>> 18))
    (h6 : dir (s.regs .r3 + s.regs .r6 >>> 18)) :
    ∃ t, Reaches (setupStep E dir) s t ∧
      t.ip = (if Cond.ge.holds (cmpFlags E (s.regs .r6 + SECTION_SIZE)) then 16 else 31) ∧
      t.regs .r3 = s.regs .r3 ∧ t.regs .r5 = s.regs .r5 + SECTION_SIZE ∧
      t.regs .r6 = s.regs .r6 + SECTION_SIZE ∧
      t.mem = Function.update (Function.update s.mem (s.regs .r3 + s.regs .r5 >>> 18)
        (s.regs .r5 ||| 0xc02#32)) (s.regs .r3 + s.regs .r6 >>> 18) (s.regs .r5 ||| 0xc02#32) := by
  obtain ⟨t, hst, htip, ht3, ht5, ht6, htmem⟩ := populate_stores (E := E) hip h5 h6
  obtain ⟨u, htu, huip, hu3, hu5, hu6, huf, humem⟩ := populate_next (E := E) dir htip
  refine ⟨_, (hst.trans htu).trans (populate_back huip), ?_, ?_, ?_, ?_, ?_⟩
  · rw [huf, ht6]
  · exact hu3.trans ht3
  · exact hu5.trans (by rw [ht5])
  · exact hu6.trans (by rw [ht6])
  · exact humem.trans htmem

/-- Behind the second loop. -/
theorem returns_setup (dir : Word → Bool) (hip : s.ip = 31) : ∃ t, Returns (setupStep E dir) s t ∧
    t.regs .r0 = s.regs .r3 ∧ t.mem = s.mem := by
  refine ⟨_, ⟨2, by
    simp [run, setupStep, guarded, keepsTo, step, hip, setupPgtbl, Op.targets,
      Op.exec, Operand.eval]; rfl⟩, ?_⟩
  simp

/-! ## Sections and slots -/

/-- The address of section `y`. -/
def sectionAt (y : Nat) : Word := BitVec.ofNat 32 (y * 2 ^ 20)

/-- The sections from the one at `_KERNEL_START_` to the one of `_KERNEL_END_`. -/
def sections (kernelEnd : Word) : Nat :=
  (kernelEnd.toNat - kernelStart.toNat) / SECTION_SIZE.toNat + 1

/-- The 16 KB below `p`. -/
def inDirectory (p a : Word) : Bool :=
  decide (p.toNat - PAGEDIR_SIZE.toNat ≤ a.toNat ∧ a.toNat < p.toNat)

variable {p : Word} {x y : Nat}

theorem sectionAt_add (y : Nat) : sectionAt y + SECTION_SIZE = sectionAt (y + 1) := by
  unfold sectionAt
  rw [Nat.add_mul, BitVec.ofNat_add]
  rfl

theorem sectionAt_shift (hy : y < 4096) : sectionAt y >>> 18 = BitVec.ofNat 32 (4 * y) := by
  apply BitVec.eq_of_toNat_eq
  rw [sectionAt, BitVec.toNat_ushiftRight, BitVec.toNat_ofNat, BitVec.toNat_ofNat,
    Nat.shiftRight_eq_div_pow]
  omega

/-- Clearing the low 20 bits. -/
theorem bic_mask (p : Word) : p &&& ~~~SECTION_MASK = sectionAt (p.toNat / 2 ^ 20) := by
  have hp := p.isLt
  have hmask : SECTION_MASK = BitVec.ofNat 32 (2 ^ 20 - 1) := rfl
  apply BitVec.eq_of_toNat_eq
  rw [hmask, toNat_bic, sectionAt, BitVec.toNat_ofNat]
  omega

theorem kernelStart_eq : kernelStart = sectionAt 0x800 := rfl

theorem sections_pos (kernelEnd : Word) : 0 < sections kernelEnd := Nat.succ_pos _

theorem sections_add (hE : kernelStart ≤ E) : 0x800 + sections E = E.toNat / 2 ^ 20 + 1 := by
  have hstart : kernelStart.toNat = 0x80000000 := rfl
  have hsize : SECTION_SIZE.toNat = 0x100000 := rfl
  rw [BitVec.le_def, hstart] at hE
  unfold sections
  rw [hstart, hsize]
  omega

/-- **The signed comparison** of addresses in the upper half, and of 0 behind the last section. -/
theorem ge_cmpFlags (hE : kernelStart ≤ E) (hy : 0x800 ≤ y) (hyE : y ≤ E.toNat / 2 ^ 20 + 1) :
    Cond.ge.holds (cmpFlags E (sectionAt y)) = decide (y ≤ E.toNat / 2 ^ 20) := by
  have hlt := E.isLt
  have hstart : kernelStart.toNat = 0x80000000 := rfl
  rw [BitVec.le_def, hstart] at hE
  have hmsb : E.msb = true := by
    rw [BitVec.msb_eq_decide, decide_eq_true_eq]
    omega
  have hsection : (sectionAt y).toNat = y * 2 ^ 20 % 2 ^ 32 := BitVec.toNat_ofNat ..
  have hsub : (E - sectionAt y).toNat = (2 ^ 32 - y * 2 ^ 20 % 2 ^ 32 + E.toNat) % 2 ^ 32 := by
    rw [BitVec.toNat_sub, hsection]
  rcases Nat.lt_or_ge (E.toNat / 2 ^ 20) y with hgt | hle
  · have hn : (E - sectionAt y).msb = true := by
      rw [BitVec.msb_eq_decide, decide_eq_true_eq, hsub]
      omega
    rw [decide_eq_false (Nat.not_le.2 hgt)]
    simp [Cond.holds, cmpFlags, hn, hmsb]
  · have hn : (E - sectionAt y).msb = false := by
      rw [BitVec.msb_eq_decide, decide_eq_false_iff_not, hsub]
      omega
    have hb : (sectionAt y).msb = true := by
      rw [BitVec.msb_eq_decide, decide_eq_true_eq, hsection]
      omega
    rw [decide_eq_true hle]
    simp [Cond.holds, cmpFlags, hn, hb, hmsb]

theorem toNat_directory (hlow : PAGEDIR_SIZE ≤ p) :
    (p - PAGEDIR_SIZE).toNat = p.toNat - 0x4000 := BitVec.toNat_sub_of_le hlow

theorem slot_inDirectory (hlow : PAGEDIR_SIZE ≤ p) (hx : x < 4096) :
    inDirectory p (slot (p - PAGEDIR_SIZE) x) = true := by
  have hp := p.isLt
  have hdir := toNat_directory hlow
  have hsize : PAGEDIR_SIZE.toNat = 0x4000 := rfl
  rw [BitVec.le_def, hsize] at hlow
  unfold inDirectory
  rw [decide_eq_true_eq, toNat_slot (by omega), hdir, hsize]
  omega

/-- A store to the directory: what the slots hold afterwards. -/
theorem update_slot (m : Word → Word) (d w : Word) (hx : x < 4096) (hy : y < 4096) :
    Function.update m (slot d y) w (slot d x) = if x = y then w else m (slot d x) := by
  rw [Function.update_apply]
  simp only [slot_inj hx hy]

theorem update_frame (m : Word → Word) (hlow : PAGEDIR_SIZE ≤ p) (hy : y < 4096) (w : Word)
    {a : Word} (ha : inDirectory p a = false) :
    Function.update m (slot (p - PAGEDIR_SIZE) y) w a = m a := by
  refine Function.update_of_ne ?_ ..
  rintro rfl
  rw [slot_inDirectory hlow hy] at ha
  cases ha

/-! ## The loops -/

variable {m : Word → Word} {i : Nat}

/-- Before pass `i` of the loop that clears. -/
structure Clearing (p : Word) (m : Word → Word) (i : Nat) (s : State) : Prop where
  ip : s.ip = if i < 1024 then 7 else 14
  r0 : s.regs .r0 = p
  r3 : s.regs .r3 = p - PAGEDIR_SIZE
  r4 : s.regs .r4 = SECTION_MASK
  r5 : s.regs .r5 = 0
  r6 : s.regs .r6 = slot (p - PAGEDIR_SIZE) (4 * i)
  clear : ∀ x < 4 * i, s.mem (slot (p - PAGEDIR_SIZE) x) = 0
  frame : ∀ a, inDirectory p a = false → s.mem a = m a

theorem clearing_step (hlow : PAGEDIR_SIZE ≤ p) (hi : i < 1024) (h : Clearing p m i s) :
    ∃ t, Reaches (setupStep E (inDirectory p)) s t ∧ Clearing p m (i + 1) t := by
  have hslot : ∀ k, slot (p - PAGEDIR_SIZE) (4 * i) + BitVec.ofNat 32 (4 * k) =
      slot (p - PAGEDIR_SIZE) (4 * i + k) := by
    intro k
    rw [slot, slot, BitVec.add_assoc, ← BitVec.ofNat_add, Nat.mul_add]
  have h1 : s.regs .r6 + 4#32 = slot (p - PAGEDIR_SIZE) (4 * i + 1) := h.r6 ▸ hslot 1
  have h2 : s.regs .r6 + 8#32 = slot (p - PAGEDIR_SIZE) (4 * i + 2) := h.r6 ▸ hslot 2
  have h3 : s.regs .r6 + 12#32 = slot (p - PAGEDIR_SIZE) (4 * i + 3) := h.r6 ▸ hslot 3
  have h4 : s.regs .r6 + 16#32 = slot (p - PAGEDIR_SIZE) (4 * i + 4) := h.r6 ▸ hslot 4
  have hip : s.ip = 7 := by rw [h.ip, if_pos hi]
  obtain ⟨t, hst, htip, ht0, ht3, ht4, ht5, ht6, htm⟩ := clear_pass (E := E) hip
    (h.r6 ▸ slot_inDirectory hlow (by omega)) (h1 ▸ slot_inDirectory hlow (by omega))
    (h2 ▸ slot_inDirectory hlow (by omega)) (h3 ▸ slot_inDirectory hlow (by omega))
  rw [h1, h2, h3, h.r5, h.r6] at htm
  refine ⟨t, hst, ?_, ht0.trans h.r0, ht3.trans h.r3, ht4.trans h.r4, ht5.trans h.r5,
    ht6.trans h4, ?_, ?_⟩
  · -- the pointer is at `p` after the last pass only
    have hend : slot (p - PAGEDIR_SIZE) (4 * i + 4) = p ↔ ¬ i + 1 < 1024 := by
      have hp := p.isLt
      have hdir := toNat_directory hlow
      have hsize : PAGEDIR_SIZE.toNat = 0x4000 := rfl
      rw [BitVec.le_def, hsize] at hlow
      rw [← BitVec.toNat_inj, toNat_slot (by omega), hdir]
      omega
    rw [htip, h4, h.r0]
    simp only [hend]
    by_cases hlt : i + 1 < 1024
    · simp [hlt]
    · simp [hlt]
  · intro x hx
    rw [htm]
    simp only [update_slot _ _ _ (show x < 4096 by omega) (show 4 * i + 3 < 4096 by omega),
      update_slot _ _ _ (show x < 4096 by omega) (show 4 * i + 2 < 4096 by omega),
      update_slot _ _ _ (show x < 4096 by omega) (show 4 * i + 1 < 4096 by omega),
      update_slot _ _ _ (show x < 4096 by omega) (show 4 * i < 4096 by omega)]
    by_cases hlt : x < 4 * i
    · simp [h.clear x hlt]
    · have hcases : x = 4 * i + 3 ∨ x = 4 * i + 2 ∨ x = 4 * i + 1 ∨ x = 4 * i := by omega
      simp only [ite_eq_left_iff]
      intro h3 h2 h1 h0
      omega
  · intro a ha
    rw [htm, update_frame _ hlow (by omega) _ ha, update_frame _ hlow (by omega) _ ha,
      update_frame _ hlow (by omega) _ ha, update_frame _ hlow (by omega) _ ha, h.frame a ha]

/-- The directory after `i` passes of the loop that writes entries, the first physical section
    being `base`. -/
def contents (base i x : Nat) : Word :=
  if base ≤ x ∧ x < base + i then sectionAt x ||| 0xc02#32
  else if 0x800 ≤ x ∧ x < 0x800 + i then sectionAt (base + (x - 0x800)) ||| 0xc02#32
  else 0

/-- Before pass `i` of the loop that writes entries. -/
structure Populating (p E : Word) (m : Word → Word) (base i : Nat) (s : State) : Prop where
  ip : s.ip = if i < sections E then 16 else 31
  r3 : s.regs .r3 = p - PAGEDIR_SIZE
  r5 : s.regs .r5 = sectionAt (base + i)
  r6 : s.regs .r6 = sectionAt (0x800 + i)
  entries : ∀ x < 4096, s.mem (slot (p - PAGEDIR_SIZE) x) = contents base i x
  frame : ∀ a, inDirectory p a = false → s.mem a = m a

/-- The physical sections, `k` of them from `base` on, do not wrap nor overlap the virtual ones. -/
structure Apart (base k : Nat) : Prop where
  le : base + k ≤ 4096
  apart : base + k ≤ 0x800 ∨ 0x800 + k ≤ base

/-- The two entries of a pass are new ones. -/
theorem contents_succ {base k : Nat} (hk : Apart base k) (hi : i < k) :
    contents base (i + 1) x =
      if x = 0x800 + i then sectionAt (base + i) ||| 0xc02#32
      else if x = base + i then sectionAt (base + i) ||| 0xc02#32
      else contents base i x := by
  obtain ⟨-, hapart⟩ := hk
  unfold contents
  by_cases hv : x = 0x800 + i
  · have hphys : ¬ (base ≤ x ∧ x < base + (i + 1)) := by omega
    have hvirt : 0x800 ≤ x ∧ x < 0x800 + (i + 1) := by omega
    rw [if_neg hphys, if_pos hvirt, if_pos hv, show x - 0x800 = i by omega]
  · by_cases hb : x = base + i
    · have hphys : base ≤ x ∧ x < base + (i + 1) := by omega
      rw [if_pos hphys, if_neg hv, if_pos hb, hb]
    · rw [if_neg hv, if_neg hb]
      have hphys : (base ≤ x ∧ x < base + (i + 1)) ↔ (base ≤ x ∧ x < base + i) := by omega
      have hvirt : (0x800 ≤ x ∧ x < 0x800 + (i + 1)) ↔ (0x800 ≤ x ∧ x < 0x800 + i) := by omega
      simp only [hphys, hvirt]

theorem populating_step {base : Nat} (hlow : PAGEDIR_SIZE ≤ p) (hE : kernelStart ≤ E)
    (hk : Apart base (sections E)) (hi : i < sections E) (h : Populating p E m base i s) :
    ∃ t, Reaches (setupStep E (inDirectory p)) s t ∧ Populating p E m base (i + 1) t := by
  have hlt := E.isLt
  have hle := hk.le
  have hadd := sections_add hE
  have h5 : s.regs .r3 + s.regs .r5 >>> 18 = slot (p - PAGEDIR_SIZE) (base + i) := by
    rw [h.r3, h.r5, sectionAt_shift (by omega), slot]
  have h6 : s.regs .r3 + s.regs .r6 >>> 18 = slot (p - PAGEDIR_SIZE) (0x800 + i) := by
    rw [h.r3, h.r6, sectionAt_shift (by omega), slot]
  have hip : s.ip = 16 := by rw [h.ip, if_pos hi]
  obtain ⟨t, hst, htip, ht3, ht5, ht6, htm⟩ := populate_pass (E := E) hip
    (h5 ▸ slot_inDirectory hlow (by omega)) (h6 ▸ slot_inDirectory hlow (by omega))
  rw [h5, h6, h.r5] at htm
  refine ⟨t, hst, ?_, ht3.trans h.r3, ?_, ?_, ?_, ?_⟩
  · rw [htip, h.r6, sectionAt_add, ge_cmpFlags hE (by omega) (by omega)]
    have hgo : 0x800 + i + 1 ≤ E.toNat / 2 ^ 20 ↔ i + 1 < sections E := by omega
    simp only [hgo, decide_eq_true_eq]
  · rw [ht5, h.r5, sectionAt_add]
    rfl
  · rw [ht6, h.r6, sectionAt_add]
    rfl
  · intro x hx
    rw [htm, update_slot _ _ _ hx (by omega), update_slot _ _ _ hx (by omega), h.entries x hx,
      contents_succ hk hi]
  · intro a ha
    rw [htm, update_frame _ hlow (by omega) _ ha, update_frame _ hlow (by omega) _ ha,
      h.frame a ha]

/-- **The whole run.** -/
theorem setup_run {base : Nat} (hip : s.ip = 0) (hr0 : s.regs .r0 = p) (hlow : PAGEDIR_SIZE ≤ p)
    (hE : kernelStart ≤ E) (hbase : p &&& ~~~SECTION_MASK = sectionAt base)
    (hk : Apart base (sections E)) :
    ∃ t, Returns (setupStep E (inDirectory p)) s t ∧ t.regs .r0 = p - PAGEDIR_SIZE ∧
      (∀ x < 4096, t.mem (slot (p - PAGEDIR_SIZE) x) = contents base (sections E) x) ∧
      ∀ a, inDirectory p a = false → t.mem a = s.mem a := by
  obtain ⟨s1, hs1, h1ip, h10, h13, h14, h15, h16, h1m⟩ :=
    reaches_clear (E := E) (inDirectory p) hip
  have hclear : Clearing p s.mem 0 s1 :=
    { ip := by rw [h1ip, if_pos (by omega)]
      r0 := h10.trans hr0
      r3 := by rw [h13, hr0]
      r4 := h14
      r5 := h15
      r6 := by rw [h16, hr0, slot, Nat.mul_zero, BitVec.add_zero]
      clear := by
        intro x hx
        cases hx
      frame := fun a _ => by rw [h1m] }
  obtain ⟨s2, hs2, h2⟩ :=
    Reaches.passes (N := 1024) _ (fun i hi t ht => clearing_step (E := E) hlow hi ht) hclear
  have h2ip : s2.ip = 14 := by rw [h2.ip, if_neg (Nat.lt_irrefl _)]
  obtain ⟨s3, hs3, h3ip, h33, h35, h36, h3m⟩ :=
    reaches_populate (E := E) (inDirectory p) h2ip
  have hpopulate : Populating p E s.mem base 0 s3 :=
    { ip := by rw [h3ip, if_pos (sections_pos E)]
      r3 := h33.trans h2.r3
      r5 := by rw [h35, h2.r0, h2.r4, hbase, Nat.add_zero]
      r6 := h36
      entries := by
        intro x hx
        rw [h3m, h2.clear x hx, contents, if_neg (by omega), if_neg (by omega)]
      frame := fun a ha => by rw [h3m, h2.frame a ha] }
  obtain ⟨s4, hs4, h4⟩ :=
    Reaches.passes (N := sections E) _ (fun i hi t ht => populating_step hlow hE hk hi ht) hpopulate
  have h4ip : s4.ip = 31 := by rw [h4.ip, if_neg (Nat.lt_irrefl _)]
  obtain ⟨t, ht, htr0, htm⟩ := returns_setup (E := E) (inDirectory p) h4ip
  have hall := hs1.trans (hs2.trans (hs3.trans hs4))
  refine ⟨t, Returns.of_reaches hall ht, htr0.trans h4.r3, ?_, ?_⟩
  · rw [htm]
    exact h4.entries
  · rw [htm]
    exact h4.frame

/-! ## The directory -/

/-- An address of the `k` sections from `first` on. -/
def InSections (first : Word) (k : Nat) (v : Word) : Prop :=
  first.toNat ≤ v.toNat ∧ v.toNat < first.toNat + k * SECTION_SIZE.toNat

/-- What the directory maps. -/
structure Maps (mem : Word → Word) (dir base : Word) (k : Nat) : Prop where
  kernel : ∀ v, InSections kernelStart k v → physical mem dir v = some (base + (v - kernelStart))
  identity : ∀ v, InSections base k v → physical mem dir v = some v
  fault : ∀ v, ¬ InSections kernelStart k v → ¬ InSections base k v → mem (entryAddress dir v) = 0

/-- On entry to `__setup_pgtbl`, with the physical start in `r0`: its sections do not wrap and do
    not overlap those of the kernel's own addresses. -/
structure SetupEntry (s : State) (p kernelEnd : Word) : Prop where
  ip : s.ip = 0
  r0 : s.regs .r0 = p
  align : p.toNat % PAGEDIR_SIZE.toNat = 0
  low : PAGEDIR_SIZE ≤ p
  kernel : kernelStart ≤ kernelEnd
  wrap : (p &&& ~~~SECTION_MASK).toNat + (kernelEnd - kernelStart).toNat < 2 ^ 32
  apart : ∀ v, InSections (p &&& ~~~SECTION_MASK) (sections kernelEnd) v →
    ¬ InSections kernelStart (sections kernelEnd) v

theorem inSections_iff {k : Nat} {v : Word} (hy : y < 4096) :
    InSections (sectionAt y) k v ↔ y ≤ v.toNat / 2 ^ 20 ∧ v.toNat / 2 ^ 20 < y + k := by
  have hsize : SECTION_SIZE.toNat = 2 ^ 20 := rfl
  have hfirst : (sectionAt y).toNat = y * 2 ^ 20 := by
    rw [sectionAt, BitVec.toNat_ofNat]
    omega
  unfold InSections
  rw [hsize, hfirst]
  omega

theorem SetupEntry.apart_sections (h : SetupEntry s p E) :
    Apart (p.toNat / 2 ^ 20) (sections E) := by
  have hp := p.isLt
  have hwrap := h.wrap
  have hadd := sections_add h.kernel
  have hstart : kernelStart.toNat = 0x80000000 := rfl
  rw [bic_mask, sectionAt, BitVec.toNat_ofNat, BitVec.toNat_sub_of_le h.kernel, hstart] at hwrap
  have hle := h.kernel
  rw [BitVec.le_def, hstart] at hle
  have hk : p.toNat / 2 ^ 20 + sections E ≤ 4096 := by omega
  refine ⟨hk, ?_⟩
  by_contra hover
  -- the first section that both would have
  have hlt : max (p.toNat / 2 ^ 20) 0x800 < 4096 := by omega
  have hnum : (sectionAt (max (p.toNat / 2 ^ 20) 0x800)).toNat / 2 ^ 20 =
      max (p.toNat / 2 ^ 20) 0x800 := by
    rw [sectionAt, BitVec.toNat_ofNat]
    omega
  refine h.apart (sectionAt (max (p.toNat / 2 ^ 20) 0x800)) ?_ ?_
  · rw [bic_mask, inSections_iff (by omega), hnum]
    omega
  · rw [kernelStart_eq, inSections_iff (by omega), hnum]
    omega

/-- The contents read as a directory. -/
theorem maps_of_contents {d : Word} {base k : Nat} (halign : d.toNat % 2 ^ 14 = 0)
    (hk : Apart base k) (hpos : 0 < k) (hm : ∀ x < 4096, m (slot d x) = contents base k x) :
    Maps m d (sectionAt base) k := by
  obtain ⟨hle, hapart⟩ := hk
  have hsection : IsSection 0xc02 := by decide
  have hentry : ∀ v : Word, m (entryAddress d v) = contents base k (v.toNat / 2 ^ 20) := by
    intro v
    have hv := v.isLt
    rw [entryAddress_eq halign, hm _ (by omega)]
  constructor
  · intro v hv
    rw [kernelStart_eq, inSections_iff (by omega)] at hv
    have hvlt := v.isLt
    have hat := hentry v
    rw [contents, if_neg (by omega), if_pos hv] at hat
    rw [physical_section hsection (by omega) hat, Option.some_inj]
    have hstart : kernelStart.toNat = 0x80000000 := rfl
    have hge : kernelStart ≤ v := by
      rw [BitVec.le_def, hstart]
      omega
    apply BitVec.eq_of_toNat_eq
    rw [BitVec.toNat_add, BitVec.toNat_sub_of_le hge, sectionAt, BitVec.toNat_ofNat,
      BitVec.toNat_ofNat, hstart]
    omega
  · intro v hv
    rw [inSections_iff (by omega)] at hv
    have hvlt := v.isLt
    have hat := hentry v
    rw [contents, if_pos hv] at hat
    rw [physical_section hsection (by omega) hat, Option.some_inj]
    apply BitVec.eq_of_toNat_eq
    rw [BitVec.toNat_ofNat]
    omega
  · intro v hv hb
    rw [kernelStart_eq, inSections_iff (by omega)] at hv
    rw [inSections_iff (by omega)] at hb
    rw [hentry, contents, if_neg hb, if_neg hv]

/-- **`__setup_pgtbl`** returns, has written nothing outside the 16 KB below `p`, and its directory
    maps the kernel's sections and the physical ones, and nothing else. -/
theorem setup_pgtbl_maps (s : State) (p kernelEnd : Word) (h : SetupEntry s p kernelEnd) :
    ∃ t, Returns (setupStep kernelEnd (inDirectory p)) s t ∧ t.regs .r0 = p - PAGEDIR_SIZE ∧
      Maps t.mem (p - PAGEDIR_SIZE) (p &&& ~~~SECTION_MASK) (sections kernelEnd) ∧
      ∀ a, inDirectory p a = false → t.mem a = s.mem a := by
  have hk := h.apart_sections
  obtain ⟨t, ht, hr0, hentries, hframe⟩ := setup_run h.ip h.r0 h.low h.kernel (bic_mask p) hk
  have halign : (p - PAGEDIR_SIZE).toNat % 2 ^ 14 = 0 := by
    have hsize : PAGEDIR_SIZE.toNat = 0x4000 := rfl
    have hp := h.align
    rw [hsize] at hp
    rw [toNat_directory h.low]
    omega
  refine ⟨t, ht, hr0, ?_, hframe⟩
  rw [bic_mask]
  exact maps_of_contents halign hk (sections_pos kernelEnd) hentries

/-- A kernel of 2.4 MB at 0x60010000. -/
def bootState : State :=
  ⟨fun r => if r = .r0 then 0x60010000 else 0, ⟨false, false, false, false⟩, none,
    fun _ => 0xffffffff, [], 0⟩

/-- Its first section and its third are mapped. -/
theorem setup_pgtbl_three : ∃ t,
    Returns (setupStep 0x80270000 (inDirectory 0x60010000)) bootState t ∧
      physical t.mem (0x60010000 - PAGEDIR_SIZE) 0x80010000 = some 0x60010000 ∧
      physical t.mem (0x60010000 - PAGEDIR_SIZE) 0x8026fffc = some 0x6026fffc := by
  have h : SetupEntry bootState 0x60010000 0x80270000 :=
    { ip := rfl
      r0 := rfl
      align := by decide
      low := by decide
      kernel := by decide
      wrap := by decide
      apart := by
        rintro v ⟨-, hlt⟩ ⟨hge, -⟩
        have hfirst : (0x60010000 &&& ~~~SECTION_MASK).toNat +
            sections 0x80270000 * SECTION_SIZE.toNat = 0x60300000 := by decide
        have hstart : kernelStart.toNat = 0x80000000 := rfl
        omega }
  obtain ⟨t, ht, -, hmaps, -⟩ := setup_pgtbl_maps bootState 0x60010000 0x80270000 h
  exact ⟨t, ht, hmaps.kernel 0x80010000 ⟨by decide, by decide⟩,
    hmaps.kernel 0x8026fffc ⟨by decide, by decide⟩⟩

end Timix.Arm
