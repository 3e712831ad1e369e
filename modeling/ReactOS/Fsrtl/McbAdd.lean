import ReactOS.Fsrtl.McbMap

/-! # Adding a run to a mapped control block

    `FsRtlAddBaseMcbEntry` removes what was mapped in the range, takes the run
    in front of the new one into it if the logical blocks continue, and the
    run behind it if its logical blocks are not smaller. -/

namespace Mcb

open LinkedTree (BinTree)
open GenericTable

variable {alloc : Bool} {mcb : BaseMcb}

/-! ## Section 1: Looking up the first block -/

variable {v : Int}

theorem lookup_mapped (hwf : mcb.WF) {r : Run} (hr : r ∈ mcb.runs)
    (hstart : r.runStartVbn ≤ v) (hend : v < r.runEndVbn) :
    ∃ mcb' f, fsRtlLookupBaseMcbEntry mcb v = some (mcb', some f) ∧ SameRuns mcb mcb' ∧
      r.Maps v f.lbn ∧ f.lbn ≠ -1 ∧ f.sectorCountFromLbn = r.runEndVbn - v := by
  obtain ⟨mcb', heq, hsame⟩ := lookup_listing mcb v
  have hproper := hwf.proper r hr
  have hchain : Chained 0 mcb.listing :=
    chained_entries hwf fun s hs => (hwf.proper s hs).start_nonneg
  have := hproper.start_nonneg
  rcases hchain.foundIn (show 0 ≤ v by omega) 0 with ⟨j, e, he, hcovers, hfound⟩ | ⟨-, hnone⟩
  · rcases entries_kind hwf (fun s hs => (hwf.proper s hs).start_nonneg) e
      (List.mem_of_getElem? he) with ⟨s, hs, rfl⟩ | ⟨-, hhole⟩
    · obtain ⟨h1, h2⟩ := hcovers
      simp only [Run.entry] at h1 h2
      obtain rfl := hwf.eq_of_mem hr hs ⟨by omega, by omega⟩
      have hlbn := hproper.lbn_nonneg
      refine ⟨mcb', report v (0 + j) r.entry, by rw [heq, hfound], hsame, ?_⟩
      simp only [report, Run.entry, show ¬ r.startingLbn = -1 by omega, if_false]
      exact ⟨⟨hstart, hend, rfl⟩, by omega, by omega⟩
    · exact absurd ⟨r, hr, hstart, hend, rfl⟩ (hhole v hcovers _)
  · refine absurd ⟨hstart, ?_⟩ (hnone r.entry (entry_mem_entries hr))
    simp only [Run.entry]
    omega

theorem lookup_unmapped (hwf : mcb.WF) (hv : 0 ≤ v)
    (hnone : ∀ r ∈ mcb.runs, ¬ (r.runStartVbn ≤ v ∧ v < r.runEndVbn)) :
    ∃ mcb' found, fsRtlLookupBaseMcbEntry mcb v = some (mcb', found) ∧ SameRuns mcb mcb' ∧
      ∀ f ∈ found, f.lbn = -1 := by
  obtain ⟨mcb', heq, hsame⟩ := lookup_listing mcb v
  refine ⟨mcb', _, heq, hsame, fun f hf => ?_⟩
  have hchain : Chained 0 mcb.listing :=
    chained_entries hwf fun s hs => (hwf.proper s hs).start_nonneg
  rcases hchain.foundIn hv 0 with ⟨j, e, he, hcovers, hfound⟩ | ⟨hfound, -⟩
  · rw [hfound, Option.mem_some_iff] at hf
    subst hf
    rcases entries_kind hwf (fun s hs => (hwf.proper s hs).start_nonneg) e
      (List.mem_of_getElem? he) with ⟨s, hs, rfl⟩ | ⟨hlbn, -⟩
    · obtain ⟨h1, h2⟩ := hcovers
      simp only [Run.entry] at h1 h2
      exact absurd ⟨h1, by omega⟩ (hnone s hs)
    · simp [report, hlbn]
  · rw [hfound] at hf
    cases hf

/-! ## Section 2: Joining with the neighbours -/

variable {node : Run}

/-- A run that is about to be inserted: it is proper and meets no other. -/
structure Fits (mcb : BaseMcb) (node : Run) : Prop where
  wf : mcb.WF
  proper : node.Proper
  apart : ∀ r ∈ mcb.runs, ¬ node.Meets r

theorem Fits.of_runs {mcb' : BaseMcb} (hfits : Fits mcb node)
    (hruns : mcb'.runs = mcb.runs) : Fits mcb' node := by
  refine ⟨?_, hfits.proper, ?_⟩
  · unfold BaseMcb.WF
    rw [hruns]
    exact hfits.wf
  · rw [hruns]
    exact hfits.apart

theorem mapsIn_around (l r : List Run) (h : Run) (v b : Int) :
    MapsIn (l ++ h :: r) v b ↔ h.Maps v b ∨ MapsIn (l ++ r) v b := by
  simp only [mapsIn_append, mapsIn_cons]
  tauto

theorem lookup_block (hwf : mcb.WF) (v : Int) :
    (∃ l h r, mcb.lookup ⟨v, v + 1, -1⟩ = (some h, ⟨.node l h r, mcb.pairCount⟩) ∧
      h.runStartVbn ≤ v ∧ v < h.runEndVbn ∧ mcb.runs = l.toList ++ h :: r.toList) ∨
    (mcb.lookup ⟨v, v + 1, -1⟩ = (none, mcb) ∧ ∀ b, ¬ mcb.Maps v b) := by
  rcases lookup_cases hwf (n := ⟨v, v + 1, -1⟩) (by dsimp only; omega) with
    ⟨l, h, r, heq, hmeets, hruns⟩ | ⟨heq, hnone⟩
  · obtain ⟨h1, h2⟩ := hmeets
    dsimp only at h1 h2
    exact .inl ⟨l, h, r, heq, by omega, by omega, hruns⟩
  · refine .inr ⟨heq, ?_⟩
    rintro b ⟨s, hs, hs1, hs2, -⟩
    exact hnone s hs ⟨by dsimp only; omega, by dsimp only; omega⟩

/-- The ranges of two runs side by side, taken together. -/
def Joins (a b c : Run) : Prop :=
  c.runStartVbn = a.runStartVbn ∧ a.runEndVbn = b.runStartVbn ∧ c.runEndVbn = b.runEndVbn

theorem Fits.absorb {l r : BinTree Run} {h : Run} {count : Nat}
    (hfits : Fits ⟨.node l h r, count⟩ node) (node' : Run) (hproper : node'.Proper)
    (hjoins : Joins h node node' ∨ Joins node h node') :
    Fits (BaseMcb.delete ⟨.node l h r, count⟩ h) node' := by
  have hruns : BaseMcb.runs ⟨.node l h r, count⟩ = l.toList ++ h :: r.toList := rfl
  have hwf : RunList (l.toList ++ h :: r.toList) := hfits.wf
  obtain ⟨-, -, -, hbefore, hbehind, -⟩ := hwf.around
  obtain ⟨hdel, -⟩ := delete_root_runs l r h count
  refine ⟨?_, hproper, fun q hq => ?_⟩
  · unfold BaseMcb.WF
    rw [hdel]
    exact hwf.remove
  rw [hdel, List.mem_append] at hq
  have hq' : q ∈ BaseMcb.runs ⟨.node l h r, count⟩ := by
    rw [hruns]
    rcases hq with hq | hq <;> simp [hq]
  have hnode := hfits.apart q hq'
  have hqp := (hfits.wf.proper q hq').start_lt
  have hout : q.runEndVbn ≤ h.runStartVbn ∨ h.runEndVbn ≤ q.runStartVbn := by
    rcases hq with hq | hq
    · exact .inl (hbefore q hq)
    · exact .inr (hbehind q hq)
  unfold Joins at hjoins
  unfold Run.Meets at *
  omega

/-- `mergeLower` keeps the map; the new run starts at the first logical block
    of the run it continues. -/
theorem mergeLower_spec (hfits : Fits mcb node) :
    ∃ mcb' node', mergeLower mcb node = (mcb', node') ∧ Fits mcb' node' ∧
      node'.runStartVbn ≤ node.runStartVbn ∧ node'.runEndVbn = node.runEndVbn ∧
      node'.startingLbn - node'.runStartVbn = node.startingLbn - node.runStartVbn ∧
      (∀ v b, MapsIn (node' :: mcb'.runs) v b ↔ MapsIn (node :: mcb.runs) v b) ∧
      ((node'.startingLbn = node.startingLbn ∧
          ¬ mcb.Maps (node.runStartVbn - 1) (node.startingLbn - 1)) ∨
        ∃ r ∈ mcb.runs, r.Maps (node.runStartVbn - 1) (node.startingLbn - 1) ∧
          node'.startingLbn = r.startingLbn) ∧
      (mcb.pairCount = mcb.runs.length → mcb'.pairCount = mcb'.runs.length) := by
  unfold mergeLower
  dsimp only
  rcases lookup_block hfits.wf (node.runStartVbn - 1) with
    ⟨l, h, r, heq, hstart, hend, hruns⟩ | ⟨heq, hnone⟩
  · rw [heq]
    dsimp only
    have hfits' : Fits ⟨.node l h r, mcb.pairCount⟩ node := hfits.of_runs hruns.symm
    have hmem : h ∈ mcb.runs := by simp [hruns]
    have hp := hfits.wf.proper h hmem
    have hnp := hfits.proper.start_lt
    -- the run ends where the new one starts
    have hside : h.runEndVbn = node.runStartVbn := by
      have := hfits.apart h hmem
      unfold Run.Meets at this
      omega
    split
    · rename_i hlbn
      obtain ⟨hdel, hcount⟩ := delete_root_runs l r h mcb.pairCount
      refine ⟨_, _, rfl, hfits'.absorb _ ?_ (.inl ⟨rfl, hside, rfl⟩), by dsimp only; omega, rfl,
        by dsimp only; omega, ?_, .inr ⟨h, hmem, ?_, rfl⟩, ?_⟩
      · exact ⟨hp.start_nonneg, by dsimp only; omega, hp.lbn_nonneg⟩
      · intro v b
        rw [mapsIn_cons, mapsIn_cons, hdel, hruns, mapsIn_around, ← or_assoc]
        refine or_congr_left ?_
        unfold Run.Maps
        dsimp only
        omega
      · exact ⟨hstart, hend, by omega⟩
      · intro hpc
        rw [hcount, hdel, hpc, hruns]
        simp
    · rename_i hlbn
      refine ⟨_, node, rfl, hfits', Int.le_refl _, rfl, rfl, fun v b => by rw [hruns]; rfl,
        .inl ⟨rfl, ?_⟩, ?_⟩
      · rintro ⟨s, hs, hs1, hs2, hs3⟩
        obtain rfl := hfits.wf.eq_of_mem hs hmem ⟨by omega, by omega⟩
        omega
      · rw [hruns]
        exact fun hpc => hpc
  · rw [heq]
    exact ⟨mcb, node, rfl, hfits, Int.le_refl _, rfl, rfl, fun v b => .rfl, .inl ⟨rfl, hnone _⟩,
      fun hpc => hpc⟩

/-- `mergeHigher` keeps the map if the run behind the new one continues it, or
    has smaller logical blocks. -/
theorem mergeHigher_spec (hfits : Fits mcb node) :
    ∃ mcb' node', mergeHigher mcb node = (mcb', node') ∧ Fits mcb' node' ∧
      node'.runStartVbn = node.runStartVbn ∧ node.runEndVbn ≤ node'.runEndVbn ∧
      ((∀ v b, MapsIn (node' :: mcb'.runs) v b ↔ MapsIn (node :: mcb.runs) v b) ↔
        ∀ b, mcb.Maps node.runEndVbn b →
          b = node.startingLbn + (node.runEndVbn - node.runStartVbn) ∨ b < node.startingLbn) ∧
      (mcb.pairCount = mcb.runs.length → mcb'.pairCount = mcb'.runs.length) := by
  unfold mergeHigher
  dsimp only
  rcases lookup_block hfits.wf node.runEndVbn with
    ⟨l, h, r, heq, hstart, hend, hruns⟩ | ⟨heq, hnone⟩
  · rw [heq]
    dsimp only
    have hfits' : Fits ⟨.node l h r, mcb.pairCount⟩ node := hfits.of_runs hruns.symm
    have hmem : h ∈ mcb.runs := by simp [hruns]
    have hnp := hfits.proper.start_lt
    -- the run starts where the new one ends
    have hside : node.runEndVbn = h.runStartVbn := by
      have := hfits.apart h hmem
      unfold Run.Meets at this
      omega
    have hblock : ∀ b, mcb.Maps node.runEndVbn b ↔ b = h.startingLbn := by
      intro b
      have hh : mcb.Maps node.runEndVbn h.startingLbn := ⟨h, hmem, by omega, hend, by omega⟩
      exact ⟨fun hb => hfits.wf.maps_unique hb hh, fun hb => hb ▸ hh⟩
    split
    · rename_i hlbn
      obtain ⟨hdel, hcount⟩ := delete_root_runs l r h mcb.pairCount
      have hfits'' := hfits'.absorb { node with runEndVbn := h.runEndVbn }
        ⟨hfits.proper.start_nonneg, by dsimp only; omega, hfits.proper.lbn_nonneg⟩
        (.inr ⟨rfl, hside, rfl⟩)
      refine ⟨_, _, rfl, hfits'', rfl, by dsimp only; omega, ?_, ?_⟩
      · simp only [hblock, forall_eq]
        constructor
        · intro hsame
          -- the first block of the run that was taken in
          have hnew : MapsIn (node :: mcb.runs) node.runEndVbn
              (node.startingLbn + (node.runEndVbn - node.runStartVbn)) := by
            refine (hsame _ _).1 ((mapsIn_cons _ _ _ _).2 (.inl ?_))
            exact ⟨by dsimp only; omega, by dsimp only; omega, rfl⟩
          rcases (mapsIn_cons _ _ _ _).1 hnew with hnode | hold
          · exact absurd hnode.2.1 (Int.lt_irrefl _)
          · exact .inl ((hblock _).1 hold).symm
        · intro hcond v b
          rw [mapsIn_cons, mapsIn_cons, hdel, hruns, mapsIn_around, ← or_assoc]
          refine or_congr_left ?_
          unfold Run.Maps
          dsimp only
          omega
      · intro hpc
        rw [hcount, hdel, hpc, hruns]
        simp
    · rename_i hlbn
      refine ⟨_, node, rfl, hfits', rfl, Int.le_refl _, iff_of_true (fun v b => by rw [hruns]; rfl) ?_, ?_⟩
      · simp only [hblock, forall_eq]
        omega
      · rw [hruns]
        exact fun hpc => hpc
  · rw [heq]
    exact ⟨mcb, node, rfl, hfits, rfl, Int.le_refl _, iff_of_true (fun v b => .rfl)
      fun b hb => absurd hb (hnone b), fun hpc => hpc⟩

theorem Fits.insert (hfits : Fits mcb node) : (mcb.insert true node).WF ∧
      (∀ v b, (mcb.insert true node).Maps v b ↔ MapsIn (node :: mcb.runs) v b) ∧
      (mcb.insert true node).runs.length = mcb.runs.length + 1 ∧
      (mcb.insert false node).runs = mcb.runs := by
  obtain ⟨A, B, hruns, hA, hB⟩ := hfits.wf.split_at node hfits.apart
  obtain ⟨htrue, hfalse⟩ := insert_runs mcb hfits.wf hruns hfits.proper.start_lt hA hB
  have hwf : RunList (A ++ B) := hruns ▸ hfits.wf
  obtain ⟨hwfA, hwfB, hcross⟩ := RunList.append_iff.1 hwf
  refine ⟨?_, fun v b => ?_, ?_, hfalse⟩
  · unfold BaseMcb.WF
    rw [htrue]
    exact RunList.append_iff.2 ⟨hwfA, RunList.cons_iff.2 ⟨hfits.proper, hwfB, hB⟩,
      fun a ha => List.forall_mem_cons.2 ⟨hA a ha, hcross a ha⟩⟩
  · rw [BaseMcb.Maps, htrue, mapsIn_around, mapsIn_cons, hruns]
  · rw [htrue, hruns]
    simp only [List.length_append, List.length_cons]
    omega

/-! ## Section 3: Adding a run -/

variable {vbn lbn sectorCount : Int} {mcb₁ : BaseMcb}

/-- The map after an addition as it is meant to be. -/
def Added (old new : BaseMcb) (vbn lbn sectorCount : Int) : Prop :=
  ∀ v b, new.Maps v b ↔ (vbn ≤ v ∧ v < vbn + sectorCount ∧ b = lbn + (v - vbn)) ∨
    (¬ (vbn ≤ v ∧ v < vbn + sectorCount) ∧ old.Maps v b)

/-- The map is that of the addition if it succeeds; it fails only if the run
    contradicts the map, which is then unchanged. -/
def AddedExactly (old new : BaseMcb) (ok : Bool) (vbn lbn sectorCount : Int) : Prop :=
  (ok = true → Added old new vbn lbn sectorCount) ∧
    (ok = false → (∀ v b, new.Maps v b ↔ old.Maps v b) ∧
      ∃ v b, vbn ≤ v ∧ v < vbn + sectorCount ∧ old.Maps v b ∧ b ≠ lbn + (v - vbn))

/-- The first block is mapped, to another logical block or by a run in which
    the whole range is. -/
def Settled (l : List Run) (vbn lbn sectorCount : Int) : Prop :=
  ∃ r ∈ l, r.runStartVbn ≤ vbn ∧ vbn < r.runEndVbn ∧
    (¬ r.Maps vbn lbn ∨ vbn + sectorCount ≤ r.runEndVbn)

/-- The block behind the range continues it, or lies before the logical blocks
    of the run and of the one it continues itself. -/
def HigherApart (l : List Run) (vbn lbn sectorCount : Int) : Prop :=
  ∀ b, MapsIn l (vbn + sectorCount) b → b = lbn + sectorCount ∨
    (b < lbn ∧ ∀ r ∈ l, r.Maps (vbn - 1) (lbn - 1) → b < r.startingLbn)

theorem add_settled (alloc : Bool) (hwf : mcb.WF) (hvbn : 0 ≤ vbn)
    (hcount : 0 < sectorCount) (hsettled : Settled mcb.runs vbn lbn sectorCount) :
    ∃ mcb' ok, fsRtlAddBaseMcbEntry alloc mcb vbn lbn sectorCount = some (mcb', ok) ∧
      SameRuns mcb mcb' ∧ AddedExactly mcb mcb' ok vbn lbn sectorCount := by
  obtain ⟨r, hr, hstart, hend, hcase⟩ := hsettled
  obtain ⟨mcb', f, heq, hsame, hmaps, hf, hfrom⟩ := lookup_mapped hwf hr hstart hend
  have hsameMaps : ∀ v b, mcb'.Maps v b ↔ mcb.Maps v b := by
    intro v b
    rw [BaseMcb.Maps, hsame.runs, BaseMcb.Maps]
  unfold fsRtlAddBaseMcbEntry
  rw [if_neg (by omega), if_neg (by omega), heq]
  by_cases hlbn : f.lbn = lbn
  · have hcovers : vbn + sectorCount ≤ r.runEndVbn :=
      hcase.resolve_left fun hnot => hnot (hlbn ▸ hmaps)
    refine ⟨mcb', true, ?_, hsame, fun _ v b => ?_, by simp⟩
    · simp [hlbn, show lbn ≠ -1 from hlbn ▸ hf, show sectorCount ≤ f.sectorCountFromLbn by omega]
    rw [hsameMaps]
    by_cases hin : vbn ≤ v ∧ v < vbn + sectorCount
    · have hv : mcb.Maps v (lbn + (v - vbn)) := by
        refine ⟨r, hr, by omega, by omega, ?_⟩
        have := hmaps.2.2
        omega
      constructor
      · intro hb
        exact .inl ⟨hin.1, hin.2, hwf.maps_unique hb hv⟩
      · grind
    · constructor
      · exact fun hb => .inr ⟨hin, hb⟩
      · grind
  · refine ⟨mcb', false, by simp [hlbn, hf], hsame, by simp, fun _ => ⟨hsameMaps, ?_⟩⟩
    exact ⟨vbn, f.lbn, by omega, by omega, ⟨r, hr, hmaps⟩, by omega⟩

theorem mem_cut_before {n h q : Run} (hn : n.runStartVbn < n.runEndVbn) (hq : q ∈ cut alloc n h)
    (hbefore : q.runStartVbn < n.runStartVbn) :
    h.runStartVbn = q.runStartVbn ∧ h.startingLbn = q.startingLbn ∧ q.runEndVbn ≤ h.runEndVbn := by
  unfold cut at hq
  split at hq
  · rename_i hmeets
    rcases mem_pieces hq with ⟨rfl, -⟩ | ⟨rfl, -⟩
    · have := hmeets.1
      exact ⟨rfl, rfl, by simp only [headRun]; omega⟩
    · simp only [tailRun] at hbefore
      omega
  · obtain rfl := List.mem_singleton.1 hq
    exact ⟨rfl, rfl, Int.le_refl _⟩

/-- The lookup lets the call go on if nothing is settled. -/
theorem lookup_unsettled (hwf : mcb.WF) (hvbn : 0 ≤ vbn)
    (hsettled : ¬ Settled mcb.runs vbn lbn sectorCount) :
    ∃ mcb' found, fsRtlLookupBaseMcbEntry mcb vbn = some (mcb', found) ∧ SameRuns mcb mcb' ∧
      ∀ f ∈ found, f.lbn = -1 ∨ (f.lbn = lbn ∧ f.sectorCountFromLbn < sectorCount) := by
  by_cases hmapped : ∃ r ∈ mcb.runs, r.runStartVbn ≤ vbn ∧ vbn < r.runEndVbn
  · obtain ⟨r, hr, hstart, hend⟩ := hmapped
    obtain ⟨mcb', f, heq, hsame, hmaps, -, hfrom⟩ := lookup_mapped hwf hr hstart hend
    refine ⟨mcb', some f, heq, hsame, fun g hg => ?_⟩
    obtain rfl := Option.mem_some_iff.1 hg
    have hunsettled : ¬ (¬ r.Maps vbn lbn ∨ vbn + sectorCount ≤ r.runEndVbn) :=
      fun hcase => hsettled ⟨r, hr, hstart, hend, hcase⟩
    rw [not_or, not_not] at hunsettled
    have := hunsettled.1.2.2
    have := hmaps.2.2
    exact .inr ⟨by omega, by omega⟩
  · obtain ⟨mcb', found, heq, hsame, hfound⟩ := lookup_unmapped hwf hvbn
      fun r hr hin => hmapped ⟨r, hr, hin⟩
    exact ⟨mcb', found, heq, hsame, fun f hf => .inl (hfound f hf)⟩

section

variable (hcount : 0 < sectorCount)

include hcount

/-- The call as its three steps, once the lookup lets it go on. -/
theorem add_eq (hvbn : 0 ≤ vbn) {mcb0 mcb2 mcb3 : BaseMcb} {found : Option Found}
    {node2 node3 : Run} {ok : Bool} (hlookup : fsRtlLookupBaseMcbEntry mcb vbn = some (mcb0, found))
    (hfound : ∀ f ∈ found, f.lbn = -1 ∨ (f.lbn = lbn ∧ f.sectorCountFromLbn < sectorCount))
    (hremove : fsRtlRemoveBaseMcbEntry alloc mcb0 vbn sectorCount = some (mcb₁, ok))
    (hlower : mergeLower mcb₁ ⟨vbn, vbn + sectorCount, lbn⟩ = (mcb2, node2))
    (hhigher : mergeHigher mcb2 node2 = (mcb3, node3)) :
    fsRtlAddBaseMcbEntry alloc mcb vbn lbn sectorCount =
      some (mcb3.insert alloc node3, true) := by
  have hno : (found.any fun f => f.lbn ≠ -1 ∧ f.lbn ≠ lbn) = false := by
    cases found with
    | none => rfl
    | some f =>
      rcases hfound f rfl with hf | ⟨hf, -⟩ <;> simp [hf]
  have hno' : (found.any fun f => f.lbn ≠ -1 ∧ f.sectorCountFromLbn ≥ sectorCount) = false := by
    cases found with
    | none => rfl
    | some f =>
      rcases hfound f rfl with hf | ⟨-, hf⟩
      · simp [hf]
      · simp [show ¬ sectorCount ≤ f.sectorCountFromLbn by omega]
  unfold fsRtlAddBaseMcbEntry
  rw [if_neg (by omega), if_neg (by omega), hlookup]
  simp only [Option.bind_eq_bind, Option.bind_some, hno, hno', Bool.false_eq_true, if_false, hremove,
    hlower, hhigher]
  rfl

theorem fits_removed (hwf1 : mcb₁.WF) (hvbn : 0 ≤ vbn) (hlbn : 0 ≤ lbn)
    (hmaps1 : ∀ v b, mcb₁.Maps v b ↔ mcb.Maps v b ∧ ¬ (vbn ≤ v ∧ v < vbn + sectorCount)) :
    Fits mcb₁ ⟨vbn, vbn + sectorCount, lbn⟩ := by
  refine ⟨hwf1, ⟨hvbn, by dsimp only; omega, hlbn⟩, fun r hr hmeets => ?_⟩
  obtain ⟨h1, h2⟩ := hmeets
  dsimp only at h1 h2
  have hstart := (hwf1.proper r hr).start_lt
  -- the first block they have in common would still be mapped
  have hblock : mcb₁.Maps (max vbn r.runStartVbn)
      (r.startingLbn + (max vbn r.runStartVbn - r.runStartVbn)) := ⟨r, hr, by omega, by omega, rfl⟩
  have := ((hmaps1 _ _).1 hblock).2
  omega

/-- The run in front of the range keeps its first logical block. -/
theorem removed_before (hruns1 : mcb₁.runs = mcb.runs.flatMap (cut alloc (range vbn sectorCount)))
    {q : Run} (hq : q ∈ mcb₁.runs) {b : Int} (hv : v < vbn) (hqmaps : q.Maps v b) :
    ∃ r ∈ mcb.runs, r.Maps v b ∧ r.startingLbn = q.startingLbn := by
  rw [hruns1, List.mem_flatMap] at hq
  obtain ⟨r, hr, hq⟩ := hq
  obtain ⟨h1, h2, h3⟩ := hqmaps
  obtain ⟨hstart, hlbn, hend⟩ := mem_cut_before (by show vbn < vbn + sectorCount; omega) hq
    (by show q.runStartVbn < vbn; omega)
  exact ⟨r, hr, ⟨by omega, by omega, by omega⟩, hlbn⟩

/-- The first logical block of the joined run, read off the runs before the call. -/
theorem lt_first_iff (hwf : mcb.WF) {first : Int}
    (hmaps1 : ∀ v b, mcb₁.Maps v b ↔ mcb.Maps v b ∧ ¬ (vbn ≤ v ∧ v < vbn + sectorCount))
    (hruns1 : mcb₁.runs = mcb.runs.flatMap (cut alloc (range vbn sectorCount)))
    (hfirst : (first = lbn ∧ ¬ mcb₁.Maps (vbn - 1) (lbn - 1)) ∨
      ∃ q ∈ mcb₁.runs, q.Maps (vbn - 1) (lbn - 1) ∧ first = q.startingLbn) (b : Int) :
    b < first ↔ b < lbn ∧ ∀ r ∈ mcb.runs, r.Maps (vbn - 1) (lbn - 1) → b < r.startingLbn := by
  rcases hfirst with ⟨rfl, hnone⟩ | ⟨q, hq, hqmaps, rfl⟩
  · refine (and_iff_left fun r hr hmaps => ?_).symm
    exact absurd ((hmaps1 _ _).2 ⟨⟨r, hr, hmaps⟩, by omega⟩) hnone
  obtain ⟨r, hr, hrmaps, hlbn⟩ := removed_before hcount hruns1 hq (by omega) hqmaps
  constructor
  · intro hb
    refine ⟨?_, fun s hs hsmaps => ?_⟩
    · obtain ⟨h1, h2, h3⟩ := hrmaps
      omega
    · obtain rfl : r = s := hwf.eq_of_mem hr hs
        ⟨by have := hrmaps.1; have := hsmaps.2.1; omega,
          by have := hrmaps.2.1; have := hsmaps.1; omega⟩
      omega
  · intro hb
    have := hb.2 r hr hrmaps
    omega

/-- The other paths of `FsRtlAddBaseMcbEntry`: the range is removed, and the new
    run is joined with its neighbours and inserted. -/
theorem add_unsettled (alloc : Bool) (hwf : mcb.WF) (hvbn : 0 ≤ vbn) (hlbn : 0 ≤ lbn)
    (hsettled : ¬ Settled mcb.runs vbn lbn sectorCount) :
    ∃ mcb' node, fsRtlAddBaseMcbEntry alloc mcb vbn lbn sectorCount =
        some (mcb'.insert alloc node, true) ∧ Fits mcb' node ∧
      node.runStartVbn ≤ vbn ∧ vbn < node.runEndVbn ∧
      (Added mcb (mcb'.insert true node) vbn lbn sectorCount ↔
        HigherApart mcb.runs vbn lbn sectorCount) ∧
      (mcb.pairCount = mcb.runs.length → mcb'.pairCount = mcb'.runs.length) := by
  -- no run is cut in two
  have hwhole : ∀ r ∈ mcb.runs, ¬ r.Surrounds (range vbn sectorCount) := by
    rintro r hr ⟨h1, h2⟩
    dsimp only at h1 h2
    exact hsettled ⟨r, hr, by omega, by omega, .inr (by omega)⟩
  obtain ⟨mcb0, found, hlookup, hsame, hfound⟩ := lookup_unsettled hwf hvbn hsettled
  have hwf0 : mcb0.WF := by
    unfold BaseMcb.WF
    rw [hsame.runs]
    exact hwf
  obtain ⟨mcb₁, hremove, hwf1, hruns1, hmaps1, hpairs1⟩ := remove_exact alloc hwf0 hvbn hcount
    (.inl (by rw [hsame.runs]; exact hwhole))
  have hmaps1 : ∀ v b, mcb₁.Maps v b ↔ mcb.Maps v b ∧ ¬ (vbn ≤ v ∧ v < vbn + sectorCount) := by
    intro v b
    rw [hmaps1, BaseMcb.Maps, hsame.runs, BaseMcb.Maps]
  rw [hsame.runs] at hruns1
  obtain ⟨mcb2, node2, hlower, hfits2, hstart2, hend2, hshift2, hmaps2, hfirst2, hpairs2⟩ :=
    mergeLower_spec (fits_removed hcount hwf1 hvbn hlbn hmaps1)
  obtain ⟨mcb3, node3, hhigher, hfits3, hstart3, hend3, hmaps3, hpairs3⟩ := mergeHigher_spec hfits2
  dsimp only at hstart2 hend2 hshift2 hfirst2
  refine ⟨mcb3, node3, add_eq hcount hvbn hlookup hfound hremove hlower hhigher, hfits3, by omega,
    by omega, ?_, fun hpc => ?_⟩
  · have hexpected : ∀ v b, MapsIn (node2 :: mcb2.runs) v b ↔
        (vbn ≤ v ∧ v < vbn + sectorCount ∧ b = lbn + (v - vbn)) ∨
          (¬ (vbn ≤ v ∧ v < vbn + sectorCount) ∧ mcb.Maps v b) := by
      intro v b
      rw [hmaps2, mapsIn_cons]
      exact or_congr .rfl ((hmaps1 v b).trans and_comm)
    have hbehind : ∀ b, mcb2.Maps node2.runEndVbn b ↔ MapsIn mcb.runs (vbn + sectorCount) b := by
      intro b
      have hnot : ¬ node2.Maps node2.runEndVbn b := fun hmaps => Int.lt_irrefl _ hmaps.2.1
      have h := hexpected node2.runEndVbn b
      rw [mapsIn_cons, or_iff_right hnot, hend2, or_iff_right (by omega),
        and_iff_right (by omega)] at h
      rw [hend2]
      exact h
    have hinsert : Added mcb (mcb3.insert true node3) vbn lbn sectorCount ↔
        ∀ v b, MapsIn (node3 :: mcb3.runs) v b ↔ MapsIn (node2 :: mcb2.runs) v b := by
      simp only [Added, hfits3.insert.2.1, hexpected]
    rw [hinsert, hmaps3]
    refine forall_congr' fun b => imp_congr (hbehind b) (or_congr (by omega) ?_)
    exact lt_first_iff hcount hwf hmaps1 hruns1 hfirst2 b
  · refine hpairs3 (hpairs2 (hpairs1 ?_))
    rw [hsame.pairCount, hpc, hsame.runs]

end

/-- `FsRtlAddBaseMcbEntry` maps the run and changes nothing else, or fails for a
    reason, exactly if there is nothing to do, or there is a node and the run
    behind the new one is not taken in wrongly. -/
theorem add_maps_exactly (alloc : Bool) (hwf : mcb.WF) {vbn lbn sectorCount : Int} (hvbn : 0 ≤ vbn)
    (hlbn : 0 ≤ lbn) (hcount : 0 < sectorCount) :
    ∃ mcb' ok, fsRtlAddBaseMcbEntry alloc mcb vbn lbn sectorCount = some (mcb', ok) ∧
      (AddedExactly mcb mcb' ok vbn lbn sectorCount ↔ Settled mcb.runs vbn lbn sectorCount ∨
        (alloc = true ∧ HigherApart mcb.runs vbn lbn sectorCount)) := by
  by_cases hsettled : Settled mcb.runs vbn lbn sectorCount
  · obtain ⟨mcb', ok, heq, -, hadded⟩ := add_settled alloc hwf hvbn hcount hsettled
    exact ⟨mcb', ok, heq, iff_of_true hadded (.inl hsettled)⟩
  obtain ⟨mcb', node, heq, hfits, hstart, hend, hiff, -⟩ :=
    add_unsettled hcount alloc hwf hvbn hlbn hsettled
  refine ⟨_, true, heq, ?_⟩
  have hok : AddedExactly mcb (mcb'.insert alloc node) true vbn lbn sectorCount ↔
      Added mcb (mcb'.insert alloc node) vbn lbn sectorCount := by
    simp [AddedExactly]
  rw [hok, or_iff_right hsettled]
  cases alloc with
  | true => simpa using hiff
  | false =>
    -- the first block of the run is not mapped
    simp only [Bool.false_eq_true, false_and, iff_false]
    intro hadded
    have hblock := (hadded vbn lbn).2 (.inl ⟨Int.le_refl _, by omega, by omega⟩)
    rw [BaseMcb.Maps, hfits.insert.2.2.2] at hblock
    obtain ⟨r, hr, h₁, h₂, -⟩ := hblock
    exact hfits.apart r hr ⟨by omega, by omega⟩

/-- A run is added in front of one that continues it. -/
theorem add_joins_higher : ∃ mcb' ok,
    fsRtlAddBaseMcbEntry true (oneRun ⟨10, 20, 510⟩) 0 500 10 = some (mcb', ok) ∧
      AddedExactly (oneRun ⟨10, 20, 510⟩) mcb' ok 0 500 10 := by
  obtain ⟨mcb', ok, heq, hiff⟩ := add_maps_exactly true
    (oneRun_wf (r := ⟨10, 20, 510⟩) ⟨by decide, by decide, by decide⟩) (Int.le_refl 0) (show (0 : Int) ≤ 500 by decide)
    (show (0 : Int) < 10 by decide)
  refine ⟨mcb', ok, heq, hiff.2 (.inr ⟨rfl, ?_⟩)⟩
  rintro b ⟨r, hr, -, -, rfl⟩
  obtain rfl := List.mem_singleton.1 hr
  exact .inl rfl

/-- A run behind the new one has larger logical blocks that do not continue it,
    and is remapped. -/
theorem higher_run_remapped :
    ((fsRtlAddBaseMcbEntry true fsRtlInitializeBaseMcb 10 500 10).bind fun p =>
      (fsRtlAddBaseMcbEntry true p.1 0 100 10).map fun q => (p.1, q)).any (fun p =>
        decide (p.1.Maps 10 500 ∧ p.2.2 = true ∧ p.2.1.Maps 10 110)) = true := by
  decide +kernel

end Mcb
