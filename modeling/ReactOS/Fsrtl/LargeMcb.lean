import ReactOS.Rtl.GenericTable

/-! # Mapped control blocks

    `largemcb.c`: a file system keeps the runs of a file, each a range of
    virtual blocks and the logical block it starts at, in a generic table.
    Holes are not stored.  The table is searched with two compare routines:
    one calls runs equal that intersect, and the other one is the order in
    which runs are inserted.

    Block numbers are `LONGLONG`s and are modelled as integers: the callers
    see to it that sums do not overflow.  `alloc` says whether the pool has a
    node for a call that needs one; no call needs a second one while the runs
    are disjoint.  A loop that does not end is `none`. -/

namespace Mcb

open LinkedTree (BinTree)
open GenericTable

/-! ## Section 1: Runs -/

/-- `LARGE_MCB_MAPPING_ENTRY` -/
structure Run where
  runStartVbn : Int
  /-- one behind the last block -/
  runEndVbn : Int
  startingLbn : Int
  deriving DecidableEq, Repr

/-- `BASE_MCB_INTERNAL` -/
structure BaseMcb where
  table : BinTree Run
  pairCount : Nat

/-- `McbMappingCompare` -/
def mcbMappingCompare (a b : Run) : CompareResult :=
  if a.runStartVbn = b.runStartVbn ∧ a.runEndVbn = b.runEndVbn then .equal
  else if a.runEndVbn ≤ b.runStartVbn then .lessThan
  else if a.runEndVbn ≥ b.runStartVbn then .greaterThan
  else .equal

/-- `McbMappingIntersectCompare` -/
def mcbMappingIntersectCompare (a b : Run) : CompareResult :=
  if a.runStartVbn ≤ b.runStartVbn ∧ a.runEndVbn > b.runStartVbn then .equal
  else if a.runStartVbn ≥ b.runStartVbn ∧ b.runEndVbn > a.runStartVbn then .equal
  else if a.runStartVbn < b.runStartVbn then .lessThan
  else if a.runStartVbn > b.runStartVbn then .greaterThan
  else .equal

/-! ## Section 2: Listing and lookup -/

/-- The variables of the loop of `FsRtlGetNextBaseMcbEntry`. -/
structure Listing where
  currentIndex : Nat
  lastVbn : Int
  lastSectorCount : Int
  /-- `*Vbn`, `*Lbn` and `*SectorCount` once they are set -/
  result : Option (Int × Int × Int)
  deriving DecidableEq, Repr

/-- The body of the loop: a hole before the run counts as a run of its own. -/
def listRun (runIndex : Nat) (run : Run) (s : Listing) : Visit Run Listing :=
  let hole := run.runStartVbn > s.lastVbn + s.lastSectorCount
  if hole ∧ runIndex = s.currentIndex then
    let vbn := s.lastVbn + s.lastSectorCount
    .stop { s with result := some (vbn, -1, run.runStartVbn - vbn) }
  else
    let currentIndex := if hole then s.currentIndex + 1 else s.currentIndex
    if runIndex = currentIndex then
      .stop { s with
        currentIndex := currentIndex
        result := some (run.runStartVbn, run.startingLbn, run.runEndVbn - run.runStartVbn) }
    else
      .next run
        { s with
          currentIndex := currentIndex + 1
          lastVbn := run.runStartVbn
          lastSectorCount := run.runEndVbn - run.runStartVbn }

/-- The enumerations of the table run to the end of it. -/
def BaseMcb.enumerate {σ : Type} (mcb : BaseMcb) (body : Run → σ → Visit Run σ) (s : σ) :
    Option (BaseMcb × σ) :=
  (GenericTable.enumerate body (mcb.table.toList.length + 1) true mcb.table s).map fun p =>
    ({ mcb with table := p.1 }, p.2)

/-- `FsRtlGetNextBaseMcbEntry`: `*Vbn`, `*Lbn` and `*SectorCount`, or `FALSE`. -/
def fsRtlGetNextBaseMcbEntry (mcb : BaseMcb) (runIndex : Nat) :
    Option (BaseMcb × Option (Int × Int × Int)) :=
  (mcb.enumerate (listRun runIndex) ⟨0, 0, 0, none⟩).map fun p => (p.1, p.2.result)

/-- What `FsRtlLookupBaseMcbEntry` returns for a block. -/
structure Found where
  lbn : Int
  sectorCountFromLbn : Int
  startingLbn : Int
  sectorCountFromStartingLbn : Int
  index : Nat
  deriving DecidableEq, Repr

/-- The loop of `FsRtlLookupBaseMcbEntry` from run `i` on. -/
def lookupLoop (vbn : Int) : Nat → Nat → BaseMcb → Option (BaseMcb × Option Found)
  | 0, _, _ => none
  | k + 1, i, mcb => do
    let (mcb, entry) ← fsRtlGetNextBaseMcbEntry mcb i
    match entry with
    | none => some (mcb, none)
    | some (lastVbn, lastLbn, count) =>
      if vbn < lastVbn + count then
        some (mcb, some
          { lbn := if lastLbn = -1 then -1 else lastLbn + (vbn - lastVbn)
            sectorCountFromLbn := lastVbn + count - vbn
            startingLbn := lastLbn
            sectorCountFromStartingLbn := lastVbn + count - lastVbn
            index := i })
      else lookupLoop vbn k (i + 1) mcb

/-- `FsRtlLookupBaseMcbEntry`; there are at most twice as many entries in the
    listing as runs. -/
def fsRtlLookupBaseMcbEntry (mcb : BaseMcb) (vbn : Int) : Option (BaseMcb × Option Found) :=
  lookupLoop vbn (2 * mcb.table.toList.length + 1) 0 mcb

/-- The loop of `FsRtlLookupLastLargeMcbEntryAndIndex_internal`. -/
def lastRun (run : Run) (s : Nat × Int × Option Run) : Visit Run (Nat × Int × Option Run) :=
  let runIndex := if run.runStartVbn > s.2.1 then s.1 + 1 else s.1
  .next run (runIndex + 1, run.runEndVbn, some run)

/-- `FsRtlLookupLastBaseMcbEntryAndIndex`: `*Vbn`, `*Lbn` and `*Index`. -/
def fsRtlLookupLastBaseMcbEntryAndIndex (mcb : BaseMcb) :
    Option (BaseMcb × Option (Int × Int × Nat)) :=
  (mcb.enumerate lastRun (0, 0, none)).map fun (mcb, runIndex, _, runFound) =>
    (mcb, runFound.map fun run =>
      (run.runEndVbn - 1, run.startingLbn + (run.runEndVbn - run.runStartVbn) - 1, runIndex - 1))

/-- The loop of `FsRtlNumberOfRunsInBaseMcb` from run `i` on. -/
def countLoop : Nat → Nat → BaseMcb → Option (BaseMcb × Nat)
  | 0, _, _ => none
  | k + 1, i, mcb => do
    let (mcb, entry) ← fsRtlGetNextBaseMcbEntry mcb i
    match entry with
    | none => some (mcb, i)
    | some _ => countLoop k (i + 1) mcb

/-- `FsRtlNumberOfRunsInBaseMcb` -/
def fsRtlNumberOfRunsInBaseMcb (mcb : BaseMcb) : Option (BaseMcb × Nat) :=
  countLoop (2 * mcb.table.toList.length + 1) 0 mcb

/-! ## Section 3: Removing runs -/

/-- `RtlInsertElementGenericTable` with `McbMappingCompare`; `PairCount` goes up
    whether or not the run is inserted. -/
def BaseMcb.insert (alloc : Bool) (mcb : BaseMcb) (run : Run) : BaseMcb where
  table := (rtlInsertElementGenericTable (mcbMappingCompare run) alloc run mcb.table).2
  pairCount := mcb.pairCount + 1

/-- `RtlDeleteElementGenericTable` with `McbMappingCompare`. -/
def BaseMcb.delete (mcb : BaseMcb) (run : Run) : BaseMcb where
  table := (rtlDeleteElementGenericTable (mcbMappingCompare run) mcb.table).2
  pairCount := mcb.pairCount - 1

/-- `RtlLookupElementGenericTable` with `McbMappingIntersectCompare`. -/
def BaseMcb.lookup (mcb : BaseMcb) (needle : Run) : Option Run × BaseMcb :=
  match rtlLookupElementGenericTable (mcbMappingIntersectCompare needle) mcb.table with
  | (run, table) => (run, { mcb with table := table })

/-- The caller writes to the run that was found, which is at the root. -/
def BaseMcb.writeFound (mcb : BaseMcb) (run : Run) : BaseMcb :=
  { mcb with table := writeRoot run mcb.table }

/-- The body of the loop of `FsRtlRemoveBaseMcbEntry`, for the run that was
    found to intersect the range. -/
def removeFrom (alloc : Bool) (needle haystack : Run) (mcb : BaseMcb) : BaseMcb :=
  if haystack.runStartVbn < needle.runStartVbn then
    let mcb := mcb.writeFound { haystack with runEndVbn := needle.runStartVbn }
    if haystack.runEndVbn > needle.runEndVbn then
      -- the range is inside the run: the tail is added back
      mcb.insert alloc
        { runStartVbn := needle.runEndVbn
          runEndVbn := haystack.runEndVbn
          startingLbn := haystack.startingLbn + (needle.runEndVbn - haystack.runStartVbn) }
    else mcb
  else if haystack.runEndVbn > needle.runEndVbn then
    let mcb := mcb.writeFound { haystack with
      runStartVbn := needle.runEndVbn
      startingLbn := haystack.startingLbn + (needle.runEndVbn - haystack.runStartVbn) }
    if haystack.runStartVbn < needle.runStartVbn then
      mcb.insert alloc
        { runStartVbn := haystack.runStartVbn
          runEndVbn := needle.runStartVbn
          startingLbn := haystack.startingLbn }
    else mcb
  else mcb.delete haystack

/-- The loop of `FsRtlRemoveBaseMcbEntry`. -/
def removeLoop (alloc : Bool) (needle : Run) : Nat → BaseMcb → Option BaseMcb
  | 0, _ => none
  | k + 1, mcb =>
    match mcb.lookup needle with
    | (none, mcb) => some mcb
    | (some haystack, mcb) => removeLoop alloc needle k (removeFrom alloc needle haystack mcb)

/-- `FsRtlRemoveBaseMcbEntry` -/
def fsRtlRemoveBaseMcbEntry (alloc : Bool) (mcb : BaseMcb) (vbn sectorCount : Int) :
    Option (BaseMcb × Bool) :=
  if vbn < 0 ∨ sectorCount ≤ 0 then some (mcb, false)
  else if vbn + sectorCount ≤ vbn then some (mcb, false)
  else
    (removeLoop alloc ⟨vbn, vbn + sectorCount, -1⟩ (mcb.table.toList.length + 1) mcb).map
      (·, true)

/-- `MAXLONG` -/
abbrev maxLong : Int := 0x7fffffff

/-- `FsRtlTruncateBaseMcb` -/
def fsRtlTruncateBaseMcb (alloc : Bool) (mcb : BaseMcb) (vbn : Int) : Option BaseMcb :=
  (fsRtlRemoveBaseMcbEntry alloc mcb vbn (maxLong - vbn + 1)).map (·.1)

/-! ## Section 4: Adding runs -/

/-- The new run takes in the run that ends where it starts, if the logical
    blocks continue each other. -/
def mergeLower (mcb : BaseMcb) (node : Run) : BaseMcb × Run :=
  let needle : Run := ⟨node.runStartVbn - 1, node.runStartVbn - 1 + 1, -1⟩
  match mcb.lookup needle with
  | (none, mcb) => (mcb, node)
  | (some lower, mcb) =>
    if lower.startingLbn + (lower.runEndVbn - lower.runStartVbn) = node.startingLbn then
      (mcb.delete lower,
        { node with runStartVbn := lower.runStartVbn, startingLbn := lower.startingLbn })
    else (mcb, node)

/-- The new run takes in the run that starts where it ends; the comparison of
    the logical blocks is `<=`. -/
def mergeHigher (mcb : BaseMcb) (node : Run) : BaseMcb × Run :=
  let needle : Run := ⟨node.runEndVbn, node.runEndVbn + 1, -1⟩
  match mcb.lookup needle with
  | (none, mcb) => (mcb, node)
  | (some higher, mcb) =>
    if node.startingLbn ≤ higher.startingLbn then
      (mcb.delete higher, { node with runEndVbn := higher.runEndVbn })
    else (mcb, node)

/-- `FsRtlAddBaseMcbEntry` -/
def fsRtlAddBaseMcbEntry (alloc : Bool) (mcb : BaseMcb) (vbn lbn sectorCount : Int) :
    Option (BaseMcb × Bool) :=
  if vbn < 0 then some (mcb, false)
  else if sectorCount ≤ 0 then some (mcb, false)
  else do
    let (mcb, found) ← fsRtlLookupBaseMcbEntry mcb vbn
    if found.any fun f => f.lbn ≠ -1 ∧ f.lbn ≠ lbn then return (mcb, false)
    if found.any fun f => f.lbn ≠ -1 ∧ f.sectorCountFromLbn ≥ sectorCount then return (mcb, true)
    let (mcb, _) ← fsRtlRemoveBaseMcbEntry alloc mcb vbn sectorCount
    let (mcb, node) := mergeLower mcb ⟨vbn, vbn + sectorCount, lbn⟩
    let (mcb, node) := mergeHigher mcb node
    return (mcb.insert alloc node, true)

/-! ## Section 5: Splitting -/

/-- The body of the loop of `FsRtlSplitBaseMcb`. -/
def splitRun (vbn amount : Int) (run : Run) (_ : Unit) : Visit Run Unit :=
  if vbn ≥ run.runEndVbn then .next run ()
  else
    let run := if vbn < run.runEndVbn then { run with runStartVbn := vbn } else run
    .next { run with
      runStartVbn := run.runStartVbn + amount
      runEndVbn := run.runEndVbn + amount } ()

/-- `FsRtlSplitBaseMcb`, which always returns `TRUE`; `InsertLowerRun` is never
    set. -/
def fsRtlSplitBaseMcb (mcb : BaseMcb) (vbn amount : Int) : Option (BaseMcb × Bool) :=
  (mcb.enumerate (splitRun vbn amount) ()).map fun p => (p.1, true)

/-- `FsRtlInitializeBaseMcb` -/
def fsRtlInitializeBaseMcb : BaseMcb := ⟨.nil, 0⟩

end Mcb
