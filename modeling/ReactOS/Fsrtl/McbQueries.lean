import ReactOS.Fsrtl.McbAdd
import ReactOS.Lib.Transition

/-! # The queries of a mapped control block agree

    Runs of additions, removals and truncations.  As long as there is a node
    whenever one is needed, the runs stay disjoint, `PairCount` is their
    number, and the four queries describe one listing of the blocks. -/

namespace Mcb

open Transition

/-! ## Section 1: Calls -/

/-- A call, with what the pool does. -/
inductive Call where
  | add (alloc : Bool) (vbn lbn sectorCount : Int)
  | remove (alloc : Bool) (vbn sectorCount : Int)
  | truncate (alloc : Bool) (vbn : Int)
  deriving DecidableEq, Repr

/-- Block numbers are not negative. -/
def Call.Legal : Call → Prop
  | .add _ vbn lbn _ => 0 ≤ vbn ∧ 0 ≤ lbn
  | .remove _ vbn _ => 0 ≤ vbn
  | .truncate _ vbn => 0 ≤ vbn

instance : (c : Call) → Decidable c.Legal
  | .add _ _ _ _ => inferInstanceAs (Decidable (_ ∧ _))
  | .remove _ vbn _ => inferInstanceAs (Decidable (0 ≤ vbn))
  | .truncate _ vbn => inferInstanceAs (Decidable (0 ≤ vbn))

def Call.run (mcb : BaseMcb) : Call → Option (BaseMcb × Bool)
  | .add alloc vbn lbn sectorCount => fsRtlAddBaseMcbEntry alloc mcb vbn lbn sectorCount
  | .remove alloc vbn sectorCount => fsRtlRemoveBaseMcbEntry alloc mcb vbn sectorCount
  | .truncate alloc vbn => (fsRtlTruncateBaseMcb alloc mcb vbn).map (·, true)

/-- An MCB from `FsRtlInitializeBaseMcb` on. -/
def mcbSystem : System BaseMcb Call Bool where
  init := fun mcb => mcb = fsRtlInitializeBaseMcb
  legal := fun _ c => c.Legal
  step := Call.run

instance (mcb : BaseMcb) (c : Call) : Decidable (mcbSystem.legal mcb c) :=
  inferInstanceAs (Decidable c.Legal)

/-- The pool has a node, or the call needs none. -/
def Room (mcb : BaseMcb) : Call → Prop
  | .add alloc vbn lbn sectorCount =>
    alloc = true ∨ sectorCount ≤ 0 ∨ Settled mcb.runs vbn lbn sectorCount
  | .remove alloc vbn sectorCount =>
    alloc = true ∨ ∀ r ∈ mcb.runs, ¬ r.Surrounds (range vbn sectorCount)
  | .truncate alloc vbn =>
    alloc = true ∨ ∀ r ∈ mcb.runs, ¬ r.Surrounds (range vbn (maxLong - vbn + 1))

instance (l : List Run) (vbn lbn sectorCount : Int) : Decidable (Settled l vbn lbn sectorCount) :=
  inferInstanceAs (Decidable (∃ r ∈ l, _))

instance (mcb : BaseMcb) : (c : Call) → Decidable (Room mcb c)
  | .add _ _ _ _ => inferInstanceAs (Decidable (_ ∨ _ ∨ _))
  | .remove _ _ _ => inferInstanceAs (Decidable (_ ∨ _))
  | .truncate _ _ => inferInstanceAs (Decidable (_ ∨ _))

/-! ## Section 2: The runs of every reachable MCB -/

variable {ok : Bool} {mcb mcb' : BaseMcb}

/-- The runs are proper and disjoint, and counted. -/
structure Counted (mcb : BaseMcb) : Prop where
  wf : mcb.WF
  pairCount : mcb.pairCount = mcb.runs.length

theorem Counted.remove {alloc : Bool} {vbn sectorCount : Int} (h : Counted mcb) (hvbn : 0 ≤ vbn)
    (hroom : alloc = true ∨ ∀ r ∈ mcb.runs, ¬ r.Surrounds (range vbn sectorCount))
    (heq : fsRtlRemoveBaseMcbEntry alloc mcb vbn sectorCount = some (mcb', ok)) : Counted mcb' := by
  by_cases hcount : 0 < sectorCount
  · obtain ⟨mcb1, heq1, hwf, -, -, hpairs⟩ := remove_exact alloc h.wf hvbn hcount hroom.symm
    obtain ⟨rfl, -⟩ : mcb1 = mcb' ∧ true = ok := by simpa [heq1] using heq
    exact ⟨hwf, hpairs h.pairCount⟩
  · rw [fsRtlRemoveBaseMcbEntry, if_pos (by omega)] at heq
    cases heq
    exact h

theorem Counted.add {alloc : Bool} {vbn lbn sectorCount : Int}
    (h : Counted mcb) (hvbn : 0 ≤ vbn) (hlbn : 0 ≤ lbn)
    (hroom : alloc = true ∨ sectorCount ≤ 0 ∨ Settled mcb.runs vbn lbn sectorCount)
    (heq : fsRtlAddBaseMcbEntry alloc mcb vbn lbn sectorCount = some (mcb', ok)) :
    Counted mcb' := by
  by_cases hcount : 0 < sectorCount
  · by_cases hsettled : Settled mcb.runs vbn lbn sectorCount
    · obtain ⟨mcb1, ok1, heq1, hsame, -⟩ := add_settled alloc h.wf hvbn hcount hsettled
      obtain ⟨rfl, -⟩ : mcb1 = mcb' ∧ ok1 = ok := by simpa [heq1] using heq
      constructor
      · unfold BaseMcb.WF
        rw [hsame.runs]
        exact h.wf
      · rw [hsame.pairCount, hsame.runs]
        exact h.pairCount
    obtain ⟨mcb1, node, heq1, hfits, -, -, -, hpairs⟩ :=
      add_unsettled hcount alloc h.wf hvbn hlbn hsettled
    obtain ⟨rfl, -⟩ : mcb1.insert alloc node = mcb' ∧ true = ok := by simpa [heq1] using heq
    obtain rfl : alloc = true := by
      rcases hroom with halloc | hzero | hset
      · exact halloc
      · omega
      · exact absurd hset hsettled
    refine ⟨hfits.insert.1, ?_⟩
    rw [hfits.insert.2.2.1, ← hpairs h.pairCount]
    rfl
  · have hzero : (fsRtlAddBaseMcbEntry alloc mcb vbn lbn sectorCount) = some (mcb, false) := by
      unfold fsRtlAddBaseMcbEntry
      rw [if_neg (by omega), if_pos (by omega)]
    rw [hzero] at heq
    cases heq
    exact h

theorem Counted.step {c : Call} (h : Counted mcb) (hlegal : c.Legal)
    (hroom : Room mcb c) (heq : Call.run mcb c = some (mcb', ok)) : Counted mcb' := by
  cases c with
  | add alloc vbn lbn sectorCount => exact h.add hlegal.1 hlegal.2 hroom heq
  | remove alloc vbn sectorCount => exact h.remove hlegal hroom heq
  | truncate alloc vbn =>
    obtain ⟨mcb1, heq1, hmcb⟩ := Option.map_eq_some_iff.1 heq
    obtain ⟨⟨mcb2, ok2⟩, heq2, hmcb2⟩ := Option.map_eq_some_iff.1 heq1
    cases hmcb
    cases hmcb2
    exact h.remove hlegal hroom heq2

theorem counted_of_reachable (hs : Reachable mcbSystem Room mcb) : Counted mcb := by
  refine hs.invariant (I := Counted) ?_ ?_
  · rintro s rfl
    exact ⟨RunList.nil, rfl⟩
  · intro s c s' ok h hlegal hroom hstep
    exact h.step hlegal hroom hstep

/-! ## Section 3: One listing -/

/-- The list `L` of runs and holes is what all queries describe. -/
structure Agree (mcb : BaseMcb) (L : List Entry) : Prop where
  nonempty : ∀ r ∈ mcb.runs, r.runStartVbn < r.runEndVbn
  disjoint : mcb.runs.Pairwise fun a b => ¬ a.Meets b
  pairCount : mcb.pairCount = mcb.runs.length
  number : ∃ mcb', fsRtlNumberOfRunsInBaseMcb mcb = some (mcb', L.length) ∧ SameRuns mcb mcb'
  next : ∀ i, ∃ mcb', fsRtlGetNextBaseMcbEntry mcb i = some (mcb', L[i]?) ∧ SameRuns mcb mcb'
  /-- the listing is contiguous, from block 0 to the last mapped one -/
  positive : ∀ e ∈ L, 0 < e.2.2
  first : ∀ e, L[0]? = some e → e.1 = 0
  contiguous : ∀ i e e', L[i]? = some e → L[i + 1]? = some e' → e'.1 = e.1 + e.2.2
  covers : ∀ v, 0 ≤ v → ((∃ e ∈ L, Covers e v) ↔ ∃ w b, v ≤ w ∧ mcb.Maps w b)
  /-- it consists of the runs and of holes -/
  kind : ∀ e ∈ L, (∃ r ∈ mcb.runs, e = r.entry) ∨
    (e.2.1 = -1 ∧ ∀ v, Covers e v → ∀ b, ¬ mcb.Maps v b)
  listed : ∀ r ∈ mcb.runs, r.entry ∈ L
  lookup : ∀ v, 0 ≤ v → ∃ mcb' found, fsRtlLookupBaseMcbEntry mcb v = some (mcb', found) ∧
    SameRuns mcb mcb' ∧
    ((∃ i e, L[i]? = some e ∧ Covers e v ∧ found = some (report v i e)) ∨
      (found = none ∧ ∀ e ∈ L, ¬ Covers e v))
  last : ∃ mcb', fsRtlLookupLastBaseMcbEntryAndIndex mcb = some (mcb', L.getLast?.map fun e =>
    (e.1 + e.2.2 - 1, e.2.1 + e.2.2 - 1, L.length - 1)) ∧ SameRuns mcb mcb'

theorem Counted.agree (h : Counted mcb) : Agree mcb mcb.listing := by
  have hstart : ∀ r ∈ mcb.runs, (0 : Int) ≤ r.runStartVbn :=
    fun r hr => (h.wf.proper r hr).start_nonneg
  have hchain : Chained 0 mcb.listing := chained_entries h.wf hstart
  refine
    { nonempty := fun r hr => (h.wf.proper r hr).start_lt
      disjoint := ?_
      pairCount := h.pairCount
      number := numberOfRuns_listing mcb
      next := getNext_listing mcb
      positive := fun e he => (hchain.le_of_mem e he).2
      first := ?_
      contiguous := fun i e e' he he' => hchain.next he he'
      covers := ?_
      kind := entries_kind h.wf hstart
      listed := fun r hr => entry_mem_entries hr
      lookup := ?_
      last := lookupLast_listing mcb }
  · refine h.wf.ordered.imp fun {a b} hab hmeets => ?_
    have := hmeets.2
    omega
  · intro e he
    cases hL : mcb.listing with
    | nil => simp [hL] at he
    | cons x es =>
      rw [hL] at he hchain
      obtain rfl : x = e := by simpa using he
      exact hchain.1
  · intro v hv
    rw [BaseMcb.listing, entries_cover h.wf hv]
    constructor
    -- The last block of a run is mapped; it is the witness.
    · rintro ⟨r, hr, hlt⟩
      have := (h.wf.proper r hr).start_lt
      exact ⟨r.runEndVbn - 1, _, by omega, r, hr, by omega, by omega, rfl⟩
    · rintro ⟨w, b, hvw, r, hr, -, hlt, -⟩
      exact ⟨r, hr, by omega⟩
  · intro v hv
    obtain ⟨mcb', heq, hsame⟩ := lookup_listing mcb v
    refine ⟨mcb', _, heq, hsame, ?_⟩
    have h := hchain.foundIn hv 0
    simpa using h

/-- In every run in which the pool has a node whenever a call needs one, the
    queries agree on one listing. -/
theorem queries_agree {mcb : BaseMcb} (hs : Reachable mcbSystem Room mcb) : ∃ L, Agree mcb L :=
  ⟨_, (counted_of_reachable hs).agree⟩

/-- A run that is cut in two and holes before and between its parts. -/
theorem queries_agree_after_cut : ∃ mcb, (∃ L, Agree mcb L) ∧ mcb.runs =
    [⟨8, 40, 7⟩, ⟨50, 108, 49⟩] := by
  obtain ⟨mcb, hs, hp⟩ := Reachable.exists_of_run (S := mcbSystem.restrict Room)
    (s := fsRtlInitializeBaseMcb) [.add true 8 7 100, .remove true 40 10, .truncate false 200]
    (fun mcb => decide (mcb.runs = [⟨8, 40, 7⟩, ⟨50, 108, 49⟩])) (.init rfl) (by decide +kernel)
  exact ⟨mcb, queries_agree hs.of_restrict, of_decide_eq_true hp⟩

/-- Without a node for the second part, `PairCount` counts it all the same. -/
theorem lost_part_counted : ∃ mcb, Reachable mcbSystem (fun _ _ => True) mcb ∧
    mcb.pairCount ≠ mcb.runs.length := by
  obtain ⟨mcb, hs, hp⟩ := Reachable.exists_of_run (S := mcbSystem) (s := fsRtlInitializeBaseMcb)
    [.add true 8 7 100, .remove false 40 10]
    (fun mcb => decide (mcb.pairCount ≠ mcb.runs.length)) (.init rfl) (by decide +kernel)
  exact ⟨mcb, hs, of_decide_eq_true hp⟩

end Mcb
