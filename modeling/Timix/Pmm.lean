import Timix.Lib.Bounded

/-!
# The table of physical regions (`kernel/mm/pmm.c`)

`pmm_add_region` tests for room with `count + 1 >= PMM_MAX_REGIONS`, so the last descriptor is
never used: the table is a bounded list, of nine regions and not of ten.

* `Recorded` — the first `count` descriptors are a given list.
* `pmmAddRegion_capacity` — one call.

Principal result: `pmm_refines_bounded_list_iff`.
-/

set_option autoImplicit false

namespace Timix.Pmm

/-- `pa_t`. -/
abbrev PaT := BitVec 32

def PMM_MAX_REGIONS : Nat := 10

def ENOMEM : Int := 12

/-- `struct pmm_region`. -/
structure PmmRegion where
  start : PaT
  size : PaT
  deriving DecidableEq

/-- `struct pmm_region_map`. -/
structure PmmRegionMap where
  count : BitVec 32
  regions : Vector PmmRegion PMM_MAX_REGIONS
  deriving DecidableEq

/-- `pmm_init`. -/
def pmmInit (m : PmmRegionMap) : PmmRegionMap := { m with count := 0 }

/-- `regions[idx] = r`; outside the array there is no result. -/
def setRegion (regions : Vector PmmRegion PMM_MAX_REGIONS) (idx : Int) (r : PmmRegion) :
    Option (Vector PmmRegion PMM_MAX_REGIONS) :=
  if h : idx.toNat < PMM_MAX_REGIONS ∧ 0 ≤ idx then some (regions.set idx.toNat r h.1) else none

theorem setRegion_of_lt (regions : Vector PmmRegion PMM_MAX_REGIONS) {n : Nat}
    (h : n < PMM_MAX_REGIONS) (r : PmmRegion) :
    setRegion regions n r = some (regions.set n r h) := by
  simp [setRegion, h]

/-- `pmm_add_region`. -/
def pmmAddRegion (m : PmmRegionMap) (start size : PaT) : Option (Int × PmmRegionMap) :=
  -- `int idx`: the counter as a signed number
  let idx := m.count.toInt
  if m.count + 1 ≥ BitVec.ofNat 32 PMM_MAX_REGIONS then some (-ENOMEM, m)
  else
    let m := { m with count := m.count + 1 }
    (setRegion m.regions idx ⟨start, size⟩).map fun regions => (0, { m with regions := regions })

def addRegion (m : PmmRegionMap) (r : PmmRegion) : Option (Int × PmmRegionMap) :=
  pmmAddRegion m r.start r.size

/-- `pmm_available` before the first call, in `.bss`. -/
def bssMap : PmmRegionMap := ⟨0, Vector.replicate PMM_MAX_REGIONS ⟨0, 0⟩⟩

/-- `regions[0..count)` is the list `l`. -/
structure Recorded (m : PmmRegionMap) (l : List PmmRegion) : Prop where
  count : m.count.toNat = l.length
  regions : l <+: m.regions.toList

/-- From `pmm_init` on, the calls make the table a list of the accepted regions in call order; a
call is refused with `-ENOMEM`, the table unchanged, if and only if `PMM_MAX_REGIONS` descriptors
are in use. -/
def RefinesBoundedList (m : PmmRegionMap) (calls : List PmmRegion) : Prop :=
  Bounded.Tracks addRegion Recorded 0 (-ENOMEM) PMM_MAX_REGIONS (pmmInit m) [] calls

theorem recorded_init (m : PmmRegionMap) : Recorded (pmmInit m) [] :=
  ⟨rfl, List.nil_prefix⟩

theorem Recorded.length_le {m : PmmRegionMap} {l : List PmmRegion} (h : Recorded m l) :
    l.length ≤ PMM_MAX_REGIONS := by
  have hl := h.regions.length_le
  rwa [Vector.length_toList] at hl

theorem Recorded.unique {m : PmmRegionMap} {l l' : List PmmRegion} (h : Recorded m l)
    (h' : Recorded m l') : l = l' := by
  have hlen : l.length = l'.length := h.count.symm.trans h'.count
  exact (List.prefix_of_prefix_length_le h.regions h'.regions (Nat.le_of_eq hlen)).eq_of_length hlen

/-- The descriptor behind the recorded ones is the next one. -/
theorem Recorded.set {m : PmmRegionMap} {l : List PmmRegion} (hm : l <+: m.regions.toList)
    (hl : l.length < PMM_MAX_REGIONS) (r : PmmRegion) :
    l ++ [r] <+: (m.regions.set l.length r hl).toList := by
  obtain ⟨t, ht⟩ := hm
  have hlen : l.length + t.length = PMM_MAX_REGIONS := by
    rw [← List.length_append, ht, Vector.length_toList]
  cases t with
  | nil => simp at hlen; omega
  | cons x t =>
    refine ⟨t, ?_⟩
    rw [Vector.toList_set, ← ht, List.set_append_right _ _ (Nat.le_refl _), Nat.sub_self,
      List.set_cons_zero, List.append_assoc, List.singleton_append]

/-- The test for room, at a counter within the array. -/
theorem no_room_iff {count : BitVec 32} (h : count.toNat ≤ PMM_MAX_REGIONS) :
    count + 1 ≥ BitVec.ofNat 32 PMM_MAX_REGIONS ↔ PMM_MAX_REGIONS - 1 ≤ count.toNat := by
  unfold PMM_MAX_REGIONS at *
  bv_omega

theorem pmmAddRegion_of_full {m : PmmRegionMap} {n : Nat} (hn : m.count.toNat = n)
    (h : n ≤ PMM_MAX_REGIONS) (hfull : PMM_MAX_REGIONS - 1 ≤ n) (start size : PaT) :
    pmmAddRegion m start size = some (-ENOMEM, m) := by
  subst hn
  unfold pmmAddRegion
  rw [if_pos ((no_room_iff h).2 hfull)]

theorem pmmAddRegion_of_room {m : PmmRegionMap} {n : Nat} (hn : m.count.toNat = n)
    (h : n < PMM_MAX_REGIONS) (hroom : n < PMM_MAX_REGIONS - 1) (start size : PaT) :
    pmmAddRegion m start size = some (0, ⟨m.count + 1, m.regions.set n ⟨start, size⟩ h⟩) := by
  subst hn
  have hidx : m.count.toInt = m.count.toNat := by
    refine BitVec.toInt_eq_toNat_of_lt ?_
    unfold PMM_MAX_REGIONS at h
    omega
  have hset := setRegion_of_lt m.regions h ⟨start, size⟩
  unfold pmmAddRegion
  rw [if_neg fun hn => absurd ((no_room_iff (Nat.le_of_lt h)).1 hn) (Nat.not_le_of_lt hroom), hidx]
  simp only [hset, Option.map_some]

/-- One call: the ninth region is the last one that finds room. -/
theorem pmmAddRegion_capacity :
    Bounded.Capacity addRegion Recorded 0 (-ENOMEM) (PMM_MAX_REGIONS - 1) := by
  intro m l r hm hl
  rcases Nat.lt_or_ge l.length (PMM_MAX_REGIONS - 1) with hroom | hfull
  · have hlt : l.length < PMM_MAX_REGIONS := by omega
    refine .inr ⟨_, hroom, pmmAddRegion_of_room hm.count hlt hroom _ _, ?_,
      Recorded.set hm.regions hlt r⟩
    have hcount := hm.count
    rw [List.length_append, List.length_singleton]
    unfold PMM_MAX_REGIONS at hlt
    bv_omega
  · exact .inl ⟨Nat.le_antisymm hl hfull, pmmAddRegion_of_full hm.count hm.length_le hfull _ _⟩

/-- The table as it is coded: a list of nine regions, for every sequence of calls. -/
theorem pmm_refines_nine (m : PmmRegionMap) (calls : List PmmRegion) :
    Bounded.Tracks addRegion Recorded 0 (-ENOMEM) (PMM_MAX_REGIONS - 1) (pmmInit m) [] calls :=
  pmmAddRegion_capacity.tracks calls (recorded_init m) (Nat.zero_le _)

/-- **The table is a bounded list of `PMM_MAX_REGIONS` regions exactly for the sequences that
leave the last descriptor unused**, whatever it held before `pmm_init`. -/
theorem pmm_refines_bounded_list_iff (m : PmmRegionMap) (calls : List PmmRegion) :
    RefinesBoundedList m calls ↔ calls.length ≤ PMM_MAX_REGIONS - 1 := by
  have h := pmmAddRegion_capacity.tracks_iff (by decide) (n := PMM_MAX_REGIONS) (by decide)
    (recorded_init m) (by decide) calls
  rwa [List.length_nil, Nat.zero_add] at h

/-- Ten reported regions of 1 MB. -/
def tenRegions : List PmmRegion :=
  (List.range 10).map fun i => ⟨BitVec.ofNat 32 i <<< 24, 0x100000⟩

/-- The tenth is refused with nine descriptors in use. -/
theorem pmm_tenth_region_refused :
    ¬ RefinesBoundedList bssMap tenRegions ∧
      ∃ m, (tenRegions.take 9).foldlM (fun m r => (addRegion m r).map Prod.snd) (pmmInit bssMap) =
        some m ∧ m.count = 9 ∧ addRegion m ⟨9 <<< 24, 0x100000⟩ = some (-ENOMEM, m) := by
  refine ⟨fun h => ?_, ?_⟩
  · have hfit := pmmAddRegion_capacity.fits_of_tracks (by decide) (by decide) tenRegions
      (by decide) h
    exact absurd hfit (by decide)
  · exact ⟨_, rfl, rfl, rfl⟩

end Timix.Pmm
