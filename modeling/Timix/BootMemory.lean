import Timix.Pmm

/-!
# The memory regions of the x86 boot (`arch/x86/kernel/entry.c`)

`c_entry` adds the regions of the multiboot information block first and calls `pmm_init` after
that, so what it added is dropped; the one region it adds then does not depend on the block.

* `addIgnored_recorded` — a call whose answer is ignored leaves a recorded list.
* `cEntry_recorded` — what is recorded when `kernel_main` is called.

Principal result: `c_entry_registers_reported_iff`.
-/

set_option autoImplicit false

namespace Timix.BootMemory

open Timix.Pmm

def MB_MEM_VALID : BitVec 32 := 0x0001

def X86_HIGHMEM_START : BitVec 32 := 0x00100000

/-- The fields of `struct mb_info` that `c_entry` reads; the sizes are in kilobytes. -/
structure MbInfo where
  flags : BitVec 32
  memLower : BitVec 32
  memUpper : BitVec 32

/-- Where `c_entry` ends: in `kernel_main`, called with this region table, or in `panic`. -/
inductive Boot
  | kernelMain (pmmAvailable : PmmRegionMap)
  | panic

/-- `pmm_add_region` with its answer ignored. -/
def addIgnored (m : PmmRegionMap) (membase memsize : BitVec 32) : Option PmmRegionMap :=
  (pmmAddRegion m membase memsize).map Prod.snd

/-- The block for one of the two sizes: nothing is added for a size of zero. -/
def addReported (m : PmmRegionMap) (membase memsize : BitVec 32) : Option PmmRegionMap :=
  if memsize ≠ 0 then addIgnored m membase memsize else some m

/-- The size of the region that is added in the end. -/
def BOOT_MEMSIZE : BitVec 32 := 0x32 <<< (20 : Nat)

/-- `c_entry`. -/
def cEntry (m : PmmRegionMap) (info : MbInfo) : Option Boot :=
  if info.flags &&& MB_MEM_VALID ≠ 0 then do
    let m ← addReported m 0 info.memLower
    let m ← addReported m X86_HIGHMEM_START info.memUpper
    let m ← addIgnored (pmmInit m) 0x0000 BOOT_MEMSIZE
    some (.kernelMain m)
  else
    -- "Unable to detect physical memory!"
    some .panic

/-- The memory that the boot loader reports: pairs of a first address and a size in bytes. -/
def reported (info : MbInfo) : List (Nat × Nat) :=
  (if info.memLower ≠ 0 then [(0, 1024 * info.memLower.toNat)] else []) ++
    if info.memUpper ≠ 0 then [(X86_HIGHMEM_START.toNat, 1024 * info.memUpper.toNat)] else []

def bytes (r : PmmRegion) : Nat × Nat := (r.start.toNat, r.size.toNat)

/-- The address is in the region. -/
def Within (a : Nat) (q : Nat × Nat) : Prop := q.1 ≤ a ∧ a < q.1 + q.2

/-- At the call of `kernel_main` the recorded regions are the reported ones, and no recorded
region contains an address that was not reported. -/
def RegistersReported (info : MbInfo) : Prop :=
  ∃ m l, cEntry bssMap info = some (.kernelMain m) ∧ Recorded m l ∧
    (∀ q, q ∈ l.map bytes ↔ q ∈ reported info) ∧
    ∀ r ∈ l, ∀ a, Within a (bytes r) → ∃ q ∈ reported info, Within a q

theorem mem_reported {info : MbInfo} {q : Nat × Nat} :
    q ∈ reported info ↔ (info.memLower ≠ 0 ∧ q = (0, 1024 * info.memLower.toNat)) ∨
      (info.memUpper ≠ 0 ∧ q = (X86_HIGHMEM_START.toNat, 1024 * info.memUpper.toNat)) := by
  unfold reported
  rw [List.mem_append, List.mem_ite_nil_right, List.mem_ite_nil_right, List.mem_singleton,
    List.mem_singleton]

/-! ## What is recorded -/

theorem addIgnored_recorded {m : PmmRegionMap} {l : List PmmRegion} (hm : Recorded m l)
    (hl : l.length ≤ PMM_MAX_REGIONS - 1) (membase memsize : BitVec 32) :
    ∃ m', addIgnored m membase memsize = some m' ∧
      Recorded m' (Bounded.accept (PMM_MAX_REGIONS - 1) l ⟨membase, memsize⟩) := by
  obtain ⟨r, m', ha, hm'⟩ := pmmAddRegion_capacity.accepts hm hl ⟨membase, memsize⟩
  refine ⟨m', ?_, hm'⟩
  rw [addRegion] at ha
  rw [addIgnored, ha, Option.map_some]

theorem addReported_recorded {m : PmmRegionMap} {l : List PmmRegion} (hm : Recorded m l)
    (hl : l.length ≤ PMM_MAX_REGIONS - 1) (membase memsize : BitVec 32) :
    ∃ m' l', addReported m membase memsize = some m' ∧ Recorded m' l' ∧
      l'.length ≤ PMM_MAX_REGIONS - 1 := by
  unfold addReported
  by_cases h : memsize ≠ 0
  · rw [if_pos h]
    obtain ⟨m', hm', hr⟩ := addIgnored_recorded hm hl membase memsize
    exact ⟨m', _, hm', hr, Bounded.accept_length_le hl _⟩
  · rw [if_neg h]
    exact ⟨m, l, rfl, hm, hl⟩

/-- `pmm_init` drops what was added before it. -/
theorem cEntry_recorded {info : MbInfo} (hflags : info.flags &&& MB_MEM_VALID ≠ 0) :
    ∃ m, cEntry bssMap info = some (.kernelMain m) ∧ Recorded m [⟨0, BOOT_MEMSIZE⟩] := by
  have h0 : Recorded bssMap [] := recorded_init bssMap
  obtain ⟨m1, l1, e1, hm1, hl1⟩ := addReported_recorded h0 (Nat.zero_le _) 0 info.memLower
  obtain ⟨m2, l2, e2, _, _⟩ := addReported_recorded hm1 hl1 X86_HIGHMEM_START info.memUpper
  obtain ⟨m, e, hm⟩ := addIgnored_recorded (recorded_init m2) (Nat.zero_le _) 0x0000 BOOT_MEMSIZE
  refine ⟨m, ?_, hm⟩
  unfold cEntry
  rw [if_pos hflags]
  simp only [e1, e2, e, Option.bind_eq_bind, Option.bind_some]

theorem registersReported_iff_boot {info : MbInfo} (hflags : info.flags &&& MB_MEM_VALID ≠ 0) :
    RegistersReported info ↔ ∀ q, q = (0, 52428800) ↔ q ∈ reported info := by
  obtain ⟨m, hm, hr⟩ := cEntry_recorded hflags
  have hbytes : ∀ q, q ∈ [(⟨0, BOOT_MEMSIZE⟩ : PmmRegion)].map bytes ↔ q = (0, 52428800) := by
    intro q
    rw [List.map_singleton, List.mem_singleton]
    rfl
  constructor
  · rintro ⟨m', l, hm', hr', hl, _⟩ q
    rw [hm, Option.some.injEq, Boot.kernelMain.injEq] at hm'
    subst hm'
    rw [← hl q, hr'.unique hr, hbytes q]
  · intro h
    refine ⟨m, _, hm, hr, fun q => (hbytes q).trans (h q), fun r hr a ha => ?_⟩
    exact ⟨bytes r, (h _).1 ((hbytes _).1 (List.mem_map_of_mem hr)), ha⟩

/-- **`c_entry` registers what the boot loader reported exactly if that is 51200 KB of low memory
and no upper memory**: the one region that it keeps is `[0, 52428800)`. -/
theorem c_entry_registers_reported_iff (info : MbInfo)
    (hflags : info.flags &&& MB_MEM_VALID ≠ 0) :
    RegistersReported info ↔ info.memLower.toNat = 51200 ∧ info.memUpper = 0 := by
  rw [registersReported_iff_boot hflags]
  simp only [mem_reported]
  constructor
  · intro h
    have hupper : info.memUpper = 0 := by
      by_contra hne
      have hstart : X86_HIGHMEM_START.toNat = 0 := congrArg Prod.fst ((h _).2 (.inr ⟨hne, rfl⟩))
      exact absurd hstart (by decide)
    rcases (h _).1 rfl with ⟨_, hlower⟩ | ⟨hne, _⟩
    · have hsize := congrArg Prod.snd hlower
      exact ⟨by omega, hupper⟩
    · exact absurd hupper hne
  · rintro ⟨hlower, hupper⟩ q
    have hne : info.memLower ≠ 0 := by
      intro h
      rw [h] at hlower
      exact absurd hlower (by decide)
    rw [hlower]
    exact ⟨fun hq => .inl ⟨hne, hq⟩, fun hq => hq.elim (·.2) fun h => absurd hupper h.1⟩

/-- A machine with 51200 KB of low memory. -/
theorem c_entry_registers_reported_51200 :
    (⟨1, 51200, 0⟩ : MbInfo).flags &&& MB_MEM_VALID ≠ 0 ∧ RegistersReported ⟨1, 51200, 0⟩ :=
  ⟨by decide, (c_entry_registers_reported_iff ⟨1, 51200, 0⟩ (by decide)).2 ⟨rfl, rfl⟩⟩

/-- 639 KB of low and 129920 KB of upper memory: the one recorded region covers the hole between
them and ends far below the end of the memory. -/
theorem c_entry_drops_reported :
    ¬ RegistersReported ⟨1, 639, 129920⟩ ∧ ∃ m, cEntry bssMap ⟨1, 639, 129920⟩ =
      some (.kernelMain m) ∧ Recorded m [⟨0, BOOT_MEMSIZE⟩] := by
  refine ⟨fun h => ?_, cEntry_recorded (by decide)⟩
  have hq := (registersReported_iff_boot (by decide)).1 h (0, 52428800)
  exact absurd (hq.1 rfl) (by decide)

end Timix.BootMemory
