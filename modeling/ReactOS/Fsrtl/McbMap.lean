import ReactOS.Fsrtl.McbListing

/-! # What the operations do to the map

    An MCB is a partial map from virtual to logical blocks.  Removing a range,
    truncating and splitting are described by what they do to this map, and by
    when that is what they are for. -/

namespace Mcb

open LinkedTree (BinTree)
open GenericTable

variable {alloc : Bool} {mcb : BaseMcb}

/-! ## Section 1: Removing a range -/

/-- The map after a removal: a run that is cut in two loses its second part if
    there is no node for it. -/
theorem remove_maps (alloc : Bool) (hwf : mcb.WF) {vbn sectorCount : Int} (hvbn : 0 ≤ vbn)
    (hcount : 0 < sectorCount) :
    ∃ mcb', fsRtlRemoveBaseMcbEntry alloc mcb vbn sectorCount = some (mcb', true) ∧ mcb'.WF ∧
      ∀ v b, mcb'.Maps v b ↔ ∃ r ∈ mcb.runs, r.Maps v b ∧ ¬ (vbn ≤ v ∧ v < vbn + sectorCount) ∧
        (alloc = true ∨ ¬ (r.Surrounds (range vbn sectorCount) ∧ vbn + sectorCount ≤ v)) := by
  obtain ⟨mcb', heq, hwf', hruns, -⟩ := remove_runs alloc hwf hvbn hcount
  refine ⟨mcb', heq, hwf', fun v b => ?_⟩
  rw [BaseMcb.Maps, hruns, mapsIn_flatMap]
  have hn : (range vbn sectorCount).runStartVbn < (range vbn sectorCount).runEndVbn := by
    show vbn < vbn + sectorCount
    omega
  constructor
  · intro h
    obtain ⟨r, hr, hmaps⟩ := h
    exact ⟨r, hr, (mapsIn_cut hn v b).1 hmaps⟩
  · intro h
    obtain ⟨r, hr, hmaps⟩ := h
    exact ⟨r, hr, (mapsIn_cut hn v b).2 hmaps⟩

theorem remove_exact (alloc : Bool) (hwf : mcb.WF) {vbn sectorCount : Int} (hvbn : 0 ≤ vbn)
    (hcount : 0 < sectorCount)
    (hroom : (∀ r ∈ mcb.runs, ¬ r.Surrounds (range vbn sectorCount)) ∨ alloc = true) :
    ∃ mcb', fsRtlRemoveBaseMcbEntry alloc mcb vbn sectorCount = some (mcb', true) ∧ mcb'.WF ∧
      mcb'.runs = mcb.runs.flatMap (cut alloc (range vbn sectorCount)) ∧
      (∀ v b, mcb'.Maps v b ↔ mcb.Maps v b ∧ ¬ (vbn ≤ v ∧ v < vbn + sectorCount)) ∧
      (mcb.pairCount = mcb.runs.length → mcb'.pairCount = mcb'.runs.length) := by
  obtain ⟨mcb', heq, hwf', hruns, hpairs⟩ := remove_runs alloc hwf hvbn hcount
  obtain ⟨mcb'', heq', -, hmaps⟩ := remove_maps alloc hwf hvbn hcount
  obtain rfl : mcb' = mcb'' := by simpa [heq] using heq'
  refine ⟨mcb', heq, hwf', hruns, fun v b => ?_, hpairs hroom⟩
  rw [hmaps]
  constructor
  · intro h
    obtain ⟨r, hr, hrmaps, hout, -⟩ := h
    exact ⟨⟨r, hr, hrmaps⟩, hout⟩
  intro h
  obtain ⟨⟨r, hr, hrmaps⟩, hout⟩ := h
  refine ⟨r, hr, hrmaps, hout, ?_⟩
  rcases hroom with hnone | halloc
  · exact .inr fun hlost => hnone r hr hlost.1
  · exact .inl halloc

/-- `FsRtlRemoveBaseMcbEntry` unmaps the range and nothing else, unless a run
    is cut in two and there is no node for its second part. -/
theorem remove_unmaps_exactly (alloc : Bool) (hwf : mcb.WF) {vbn sectorCount : Int} (hvbn : 0 ≤ vbn)
    (hcount : 0 ≤ sectorCount) :
    ∃ mcb' ok, fsRtlRemoveBaseMcbEntry alloc mcb vbn sectorCount = some (mcb', ok) ∧
      ((∀ v b, mcb'.Maps v b ↔ mcb.Maps v b ∧ ¬ (vbn ≤ v ∧ v < vbn + sectorCount)) ↔
        alloc = true ∨ sectorCount = 0 ∨
          ∀ r ∈ mcb.runs, ¬ r.Surrounds (range vbn sectorCount)) := by
  by_cases hzero : sectorCount = 0
  · subst hzero
    refine ⟨mcb, false, by simp [fsRtlRemoveBaseMcbEntry], iff_of_true (fun v b => ?_) (by simp)⟩
    simp only [Int.add_zero]
    exact ⟨fun hmaps => ⟨hmaps, by omega⟩, fun h => h.1⟩
  obtain ⟨mcb', heq, -, hmaps⟩ := remove_maps alloc hwf hvbn
    (show 0 < sectorCount by omega)
  refine ⟨mcb', true, heq, ?_⟩
  constructor
  · intro hexact
    cases alloc with
    | true => exact .inl rfl
    | false =>
      refine .inr (.inr fun r hr hsurrounds => ?_)
      -- the first block behind the range is in the run, and is lost
      have hblock : r.Maps (vbn + sectorCount)
          (r.startingLbn + (vbn + sectorCount - r.runStartVbn)) :=
        ⟨by have := hsurrounds.1; dsimp only at this; omega, hsurrounds.2, rfl⟩
      obtain ⟨s, hs, hsmaps, -, hkept⟩ := (hmaps _ _).1
        ((hexact _ _).2 ⟨⟨r, hr, hblock⟩, by omega⟩)
      obtain rfl : r = s := hwf.eq_of_mem hr hs
        ⟨by have := hblock.1; have := hsmaps.2.1; omega,
          by have := hblock.2.1; have := hsmaps.1; omega⟩
      simp [hsurrounds] at hkept
  · intro hroom
    obtain ⟨mcb'', heq', -, -, hexact, -⟩ := remove_exact alloc hwf hvbn
      (show 0 < sectorCount by omega) (by
        rcases hroom with halloc | hempty | hnone
        · exact .inr halloc
        · exact absurd hempty hzero
        · exact .inl hnone)
    obtain rfl : mcb' = mcb'' := by simpa [heq] using heq'
    exact hexact

/-- A run is cut in two. -/
theorem remove_cuts_in_two : ∃ mcb' ok,
    fsRtlRemoveBaseMcbEntry true (oneRun ⟨0, 100, 7⟩) 40 10 = some (mcb', ok) ∧
      ∀ v b, mcb'.Maps v b ↔ (oneRun ⟨0, 100, 7⟩).Maps v b ∧ ¬ (40 ≤ v ∧ v < 50) := by
  obtain ⟨mcb', ok, heq, hiff⟩ := remove_unmaps_exactly true
    (oneRun_wf (r := ⟨0, 100, 7⟩) ⟨by decide, by decide, by decide⟩) (show (0 : Int) ≤ 40 by decide)
    (show (0 : Int) ≤ 10 by decide)
  exact ⟨mcb', ok, heq, hiff.2 (.inl rfl)⟩

/-- Without a node for it, the part of the run behind the range is unmapped. -/
theorem tail_lost_without_node :
    ((fsRtlAddBaseMcbEntry true fsRtlInitializeBaseMcb 0 7 100).bind fun p =>
      (fsRtlRemoveBaseMcbEntry false p.1 40 10).map fun q => (p.1, q.1)).any (fun p =>
        decide (p.1.Maps 60 67 ∧ ¬ p.2.Maps 60 67)) = true := by
  decide +kernel

/-! ## Section 2: Truncating -/

/-- `FsRtlTruncateBaseMcb` removes the blocks up to `MAXLONG`: it leaves the
    runs that reach beyond, but for one that is cut in two while there is no
    node for its second part. -/
theorem truncate_unmaps_rest (alloc : Bool) (hwf : mcb.WF) {vbn : Int} (hvbn : 0 ≤ vbn) :
    ∃ mcb', fsRtlTruncateBaseMcb alloc mcb vbn = some mcb' ∧
      ((∀ v b, mcb'.Maps v b ↔ mcb.Maps v b ∧ v < vbn) ↔
        ∀ r ∈ mcb.runs, vbn < r.runEndVbn → maxLong + 1 < r.runEndVbn →
          alloc = false ∧ r.runStartVbn < vbn ∧ vbn ≤ maxLong) := by
  unfold fsRtlTruncateBaseMcb
  by_cases hlow : vbn ≤ maxLong
  · obtain ⟨mcb', heq, -, hmaps⟩ := remove_maps alloc hwf hvbn
      (show 0 < maxLong - vbn + 1 by omega)
    refine ⟨mcb', by rw [heq]; rfl, ?_⟩
    constructor
    · intro hexact r hr hbehind hlong
      by_contra hleft
      -- the last block of the run is still mapped
      have hblock : r.Maps (r.runEndVbn - 1)
          (r.startingLbn + (r.runEndVbn - 1 - r.runStartVbn)) :=
        ⟨by have := (hwf.proper r hr).start_lt; omega, by omega, rfl⟩
      have hkept : mcb'.Maps (r.runEndVbn - 1)
          (r.startingLbn + (r.runEndVbn - 1 - r.runStartVbn)) := by
        refine (hmaps _ _).2 ⟨r, hr, hblock, by omega, ?_⟩
        cases alloc with
        | true => exact .inl rfl
        | false =>
          refine .inr fun hlost => hleft ⟨rfl, ?_, hlow⟩
          exact hlost.1.1
      have := ((hexact _ _).1 hkept).2
      omega
    · intro hshort v b
      rw [hmaps]
      constructor
      · intro h
        obtain ⟨r, hr, hrmaps, hout, hkept⟩ := h
        refine ⟨⟨r, hr, hrmaps⟩, ?_⟩
        by_contra hv
        have hlong : maxLong + 1 < r.runEndVbn := by
          have := hrmaps.2.1
          omega
        obtain ⟨halloc, hstart, -⟩ := hshort r hr (by omega) hlong
        subst halloc
        refine hkept.elim (by simp) fun hnot => hnot ⟨⟨hstart, ?_⟩, by omega⟩
        show vbn + (maxLong - vbn + 1) < r.runEndVbn
        omega
      · intro h
        obtain ⟨⟨r, hr, hrmaps⟩, hv⟩ := h
        exact ⟨r, hr, hrmaps, by omega, .inr fun hlost => by omega⟩
  · -- there is nothing to remove before `MAXLONG`
    refine ⟨mcb, ?_, ?_⟩
    · unfold fsRtlRemoveBaseMcbEntry
      rw [if_pos (by omega)]
      rfl
    constructor
    · intro hexact r hr hbehind
      exfalso
      have hstart := (hwf.proper r hr).start_lt
      have := ((hexact (r.runEndVbn - 1) (r.startingLbn + (r.runEndVbn - 1 - r.runStartVbn))).1
        ⟨r, hr, by omega, by omega, rfl⟩).2
      omega
    · intro hshort v b
      refine ⟨fun hmaps => ⟨hmaps, ?_⟩, fun h => h.1⟩
      obtain ⟨r, hr, hrmaps⟩ := hmaps
      by_contra hv
      have := hrmaps.2.1
      have := (hshort r hr (by omega) (by omega)).2.2
      omega

/-- A run below `MAXLONG` is cut off. -/
theorem truncate_cuts_run : ∃ mcb', fsRtlTruncateBaseMcb true (oneRun ⟨0, 100, 7⟩) 40 = some mcb' ∧
    ∀ v b, mcb'.Maps v b ↔ (oneRun ⟨0, 100, 7⟩).Maps v b ∧ v < 40 := by
  obtain ⟨mcb', heq, hiff⟩ := truncate_unmaps_rest true
    (oneRun_wf (r := ⟨0, 100, 7⟩) ⟨by decide, by decide, by decide⟩) (show (0 : Int) ≤ 40 by decide)
  refine ⟨mcb', heq, hiff.2 ?_⟩
  intro r hr _ hlong
  obtain rfl := List.mem_singleton.1 hr
  exact absurd hlong (by decide)

/-- A run behind `MAXLONG` is still there when everything is cut off. -/
theorem long_run_not_truncated :
    ((fsRtlAddBaseMcbEntry true fsRtlInitializeBaseMcb 0x80000000 7 8).bind fun p =>
      fsRtlTruncateBaseMcb true p.1 0).any (fun mcb => decide (mcb.Maps 0x80000000 7)) = true := by
  decide +kernel

/-! ## Section 3: Splitting -/

/-- What the loop of `FsRtlSplitBaseMcb` makes of a run. -/
def moved (vbn amount : Int) (r : Run) : Run :=
  if r.runEndVbn ≤ vbn then r else ⟨vbn + amount, r.runEndVbn + amount, r.startingLbn⟩

theorem walk_splitRun (vbn amount : Int) (l : List Run) :
    (walk (splitRun vbn amount) l ()).1 = l.map (moved vbn amount) := by
  induction l with
  | nil => rfl
  | cons r l ih =>
    rw [walk, List.map_cons, ← ih]
    unfold splitRun moved
    by_cases hend : r.runEndVbn ≤ vbn
    · simp only [ge_iff_le, hend, if_true]
    · simp only [ge_iff_le, hend, if_false, show vbn < r.runEndVbn by omega, if_true]

theorem split_maps (mcb : BaseMcb) (vbn amount : Int) :
    ∃ mcb', fsRtlSplitBaseMcb mcb vbn amount = some (mcb', true) ∧
      ∀ v b, mcb'.Maps v b ↔ ∃ r ∈ mcb.runs, (moved vbn amount r).Maps v b := by
  obtain ⟨mcb', heq, hruns, -⟩ := enumerate_runs mcb (splitRun vbn amount) ()
  refine ⟨mcb', by rw [fsRtlSplitBaseMcb, heq]; rfl, fun v b => ?_⟩
  rw [BaseMcb.Maps, hruns, walk_splitRun, MapsIn]
  simp

/-- The runs that end behind the block all start at it. -/
def StartsAt (l : List Run) (vbn : Int) : Prop :=
  ∀ r ∈ l, vbn < r.runEndVbn → r.runStartVbn = vbn

/-- The map after a split as it is meant to be. -/
def Shifted (old new : BaseMcb) (vbn amount : Int) : Prop :=
  ∀ v b, new.Maps v b ↔
    (v < vbn ∧ old.Maps v b) ∨ (vbn + amount ≤ v ∧ old.Maps (v - amount) b)

section Shift

variable {mcb' : BaseMcb} {vbn amount : Int} (hwf : mcb.WF) (hamount : 0 < amount)
  (hmaps : ∀ v b, mcb'.Maps v b ↔ ∃ r ∈ mcb.runs, (moved vbn amount r).Maps v b)
  (hexact : Shifted mcb mcb' vbn amount)

include hmaps hexact hamount in
/-- Every run that ends behind the block is moved to the same place. -/
theorem maps_start {r : Run} (hr : r ∈ mcb.runs) (hend : vbn < r.runEndVbn) {v : Int}
    (hv : vbn ≤ v) (hv' : v < r.runEndVbn) : mcb.Maps v (r.startingLbn + (v - vbn)) := by
  have hnew : mcb'.Maps (v + amount) (r.startingLbn + (v - vbn)) := by
    refine (hmaps _ _).2 ⟨r, hr, ?_⟩
    rw [moved, if_neg (by omega)]
    exact ⟨by dsimp only; omega, by dsimp only; omega, by dsimp only; omega⟩
  rcases (hexact _ _).1 hnew with ⟨hlt, -⟩ | ⟨-, hold⟩
  · omega
  · rwa [Int.add_sub_cancel] at hold

include hwf hmaps hexact hamount in
theorem startsAt_of_shifted : StartsAt mcb.runs vbn := by
  intro r hr hend
  by_contra hne
  -- the run at the block and this one are both moved to the block
  obtain ⟨q, hq, hq1, hq2, hq3⟩ := maps_start hamount hmaps hexact hr hend (Int.le_refl vbn) hend
  have hqr : q.runEndVbn ≤ r.runStartVbn := by
    by_contra hmeets
    obtain rfl := hwf.eq_of_mem hq hr ⟨by omega, by omega⟩
    omega
  have hrstart := (hwf.proper r hr).start_lt
  -- so the run behind `q` starts at the block, too
  obtain ⟨p, hp, hp1, hp2, hp3⟩ := maps_start hamount hmaps hexact hr hend
    (show vbn ≤ q.runEndVbn by omega) (by omega)
  have hpr := hwf.maps_unique (maps_start hamount hmaps hexact hp (by omega) (Int.le_refl vbn)
    (by omega)) (maps_start hamount hmaps hexact hr hend (Int.le_refl vbn) hend)
  obtain rfl := hwf.eq_of_mem hp hq ⟨by omega, by omega⟩
  omega

end Shift

/-- `FsRtlSplitBaseMcb` opens a hole and moves the rest of the map up if no run
    crosses the block or starts behind it. -/
theorem split_shifts_rest (hwf : mcb.WF) (vbn : Int) {amount : Int} (hamount : 0 < amount) :
    ∃ mcb', fsRtlSplitBaseMcb mcb vbn amount = some (mcb', true) ∧
      (Shifted mcb mcb' vbn amount ↔ StartsAt mcb.runs vbn) := by
  obtain ⟨mcb', heq, hmaps⟩ := split_maps mcb vbn amount
  refine ⟨mcb', heq, ?_⟩
  constructor
  · exact startsAt_of_shifted hwf hamount hmaps
  intro hstarts v b
  rw [hmaps]
  constructor
  · rintro ⟨r, hr, hrmaps⟩
    unfold moved at hrmaps
    split at hrmaps
    · exact .inl ⟨by have := hrmaps.2.1; omega, r, hr, hrmaps⟩
    rename_i hend
    have hstart := hstarts r hr (by omega)
    obtain ⟨h₁, h₂, h₃⟩ := hrmaps
    dsimp only at h₁ h₂ h₃
    exact .inr ⟨h₁, r, hr, by omega, by omega, by omega⟩
  · rintro (⟨hv, r, hr, hrmaps⟩ | ⟨hv, r, hr, hrmaps⟩)
    · refine ⟨r, hr, ?_⟩
      have hend : r.runEndVbn ≤ vbn := by
        by_contra hend
        have := hstarts r hr (by omega)
        have := hrmaps.1
        omega
      rwa [moved, if_pos hend]
    · obtain ⟨h₁, h₂, h₃⟩ := hrmaps
      have hstart := hstarts r hr (by omega)
      refine ⟨r, hr, ?_⟩
      rw [moved, if_neg (by omega)]
      exact ⟨hv, by dsimp only; omega, by dsimp only; omega⟩

/-- A run that starts at the block is moved. -/
theorem split_moves_run : ∃ mcb', fsRtlSplitBaseMcb (oneRun ⟨5, 10, 7⟩) 5 3 = some (mcb', true) ∧
    Shifted (oneRun ⟨5, 10, 7⟩) mcb' 5 3 := by
  obtain ⟨mcb', heq, hiff⟩ := split_shifts_rest
    (oneRun_wf (r := ⟨5, 10, 7⟩) ⟨by decide, by decide, by decide⟩) 5 (show (0 : Int) < 3 by decide)
  refine ⟨mcb', heq, hiff.2 ?_⟩
  intro r hr _
  obtain rfl := List.mem_singleton.1 hr
  rfl

/-- The blocks before the split are unmapped when a run crosses it. -/
theorem crossing_run_loses_head :
    ((fsRtlAddBaseMcbEntry true fsRtlInitializeBaseMcb 0 7 10).bind fun p =>
      (fsRtlSplitBaseMcb p.1 5 3).map fun q => (p.1, q)).any (fun p =>
        decide (p.1.Maps 0 7 ∧ p.2.2 = true ∧ ¬ p.2.1.Maps 0 7)) = true := by
  decide +kernel

end Mcb
