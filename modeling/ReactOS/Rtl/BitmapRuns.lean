import Mathlib.Data.List.Nodup
import ReactOS.Rtl.BitmapSearch

/-! # Runs of a bitmap

    The routines of `sdk/lib/rtl/bitmap.c` that report whole runs: `RtlFindLongestRunSet` beside
    `RtlFindLongestRunClear`, `RtlFindClearRuns`, which fills an array with runs, and
    `RtlFindLastBackwardRunClear`, which goes down through the words.

    `RtlFindClearRuns` looks for the smallest entry of its array once, while it fills it; later it
    compares the new entry with itself, so that only one entry is ever replaced.  The backward
    search returns the distance between the first and the last bit of the run. -/

namespace Rtl

open BitWords RtlBitmap List

variable {w : Nat}

/-! ## Section 1: The routines -/

/-- `RtlFindNextForwardRunSet`. -/
def rtlFindNextForwardRunSet (b : RtlBitmap w) (fromIndex : Nat) : Option FoundRun := do
  if fromIndex ≥ b.sizeOfBitMap then return ⟨0, fromIndex⟩
  let length ← rtlpGetLengthOfRunClear b fromIndex (maxIndex w)
  let startingRunIndex := (fromIndex + length) % 2 ^ w
  return ⟨← rtlpGetLengthOfRunSet b startingRunIndex (maxIndex w), startingRunIndex⟩

/-- The loop of `RtlFindLongestRunSet`. -/
def longestRunSetLoop (b : RtlBitmap w) : Nat → Nat → FoundRun → Option FoundRun
  | 0, _, _ => none
  | fuel + 1, fromIndex, longest => do
    let run ← rtlFindNextForwardRunSet b fromIndex
    if run.numberOfBits = 0 then return longest
    let longest := if run.numberOfBits > longest.numberOfBits then run else longest
    longestRunSetLoop b fuel ((fromIndex + run.numberOfBits) % 2 ^ w) longest

def rtlFindLongestRunSet (b : RtlBitmap w) (startingIndex : Nat) : Option FoundRun :=
  longestRunSetLoop b (b.sizeOfBitMap + 1) 0 ⟨0, startingIndex⟩

/-- The variables of `RtlFindClearRuns`; `Run` is the number of entries that are filled. -/
structure RunSearch where
  runArray : List FoundRun
  smallestRun : Nat
  fromIndex : Nat

/-- `RunArray[i].NumberOfBits`. -/
def bitsOfEntry (runArray : List FoundRun) (i : Nat) : Nat := (runArray.getD i ⟨0, 0⟩).numberOfBits

/-- The first loop of `RtlFindClearRuns`, with `n` entries left. -/
def fillRuns (b : RtlBitmap w) : Nat → RunSearch → Option RunSearch
  | 0, s => some s
  | n + 1, s => do
    let run ← rtlFindNextForwardRunClear b s.fromIndex
    if run.numberOfBits = 0 then return s
    let runArray := s.runArray ++ [run]
    let smallestRun := if run.numberOfBits < bitsOfEntry runArray s.smallestRun
      then s.runArray.length else s.smallestRun
    fillRuns b n ⟨runArray, smallestRun, (run.startingIndex + run.numberOfBits) % 2 ^ w⟩

/-- The second loop of `RtlFindClearRuns`. -/
def reviseRuns (b : RtlBitmap w) (sizeOfRunArray : Nat) : Nat → RunSearch → Option (List FoundRun)
  | 0, _ => none
  | fuel + 1, s => do
    let run ← rtlFindNextForwardRunClear b s.fromIndex
    if run.numberOfBits = 0 then return s.runArray
    let fromIndex := (s.fromIndex + run.numberOfBits) % 2 ^ w
    if run.numberOfBits > bitsOfEntry s.runArray s.smallestRun then
      let runArray := s.runArray.set s.smallestRun run
      -- The loop for the new smallest run looks at the entry that was just written.
      let smallestRun := (List.range sizeOfRunArray).foldl (fun smallestRun i =>
        if run.numberOfBits < bitsOfEntry runArray smallestRun then i else smallestRun)
        s.smallestRun
      reviseRuns b sizeOfRunArray fuel ⟨runArray, smallestRun, fromIndex⟩
    else reviseRuns b sizeOfRunArray fuel { s with fromIndex := fromIndex }

/-- `RtlFindClearRuns`, with the entries it has filled; it returns their number. -/
def rtlFindClearRuns (b : RtlBitmap w) (sizeOfRunArray : Nat) (locateLongestRuns : Bool) :
    Option (List FoundRun) := do
  let s ← fillRuns b sizeOfRunArray ⟨[], 0, 0⟩
  if s.runArray.length < sizeOfRunArray ∨ ¬ locateLongestRuns then return s.runArray
  reviseRuns b sizeOfRunArray (b.sizeOfBitMap + 1) s

/-- `BitScanReverse`: the highest set bit. -/
def bitScanReverse (value : BitVec w) : Nat := value.toNat.log2

/-- `while (Value == 0 && Buffer >= BitMapHeader->Buffer) Value = *Buffer--`, with the word that was
    read last.  The first loop of the search ends likewise, and returns if there is no word left. -/
def backWords (view : BitVec w → BitVec w) (b : BitMapHeader w) :
    Nat → BitVec w → Option (Nat × BitVec w)
  | 0, value => some (0, value)
  | k + 1, value =>
    if value = 0#w then do backWords view b k (view (← b.load k)) else some (k + 1, value)

/-- `RtlFindLastBackwardRunClear`; `StartingRunIndex` keeps its value if there is no run. -/
def rtlFindLastBackwardRunClear (b : BitMapHeader w) (fromIndex startingRunIndex : Nat) :
    Option FoundRun := do
  let fromIndex := min fromIndex ((b.sizeOfBitMap + 2 ^ w - 1) % 2 ^ w)
  let buffer := fromIndex / w
  let bitPos := w - 1 - (fromIndex &&& (w - 1))
  let invValue := ~~~(← b.load buffer) <<< bitPos >>> bitPos
  let (buffer, invValue) ← backWords (fun value => ~~~value) b buffer invValue
  if invValue = 0#w then return ⟨0, startingRunIndex⟩
  let bitPos := bitScanReverse invValue
  let fromIndex := (buffer * w + bitPos) % 2 ^ w
  let value := ~~~invValue <<< (w - 1 - bitPos) >>> (w - 1 - bitPos)
  let (buffer, value) ← backWords (fun value => value) b buffer value
  let startingRunIndex :=
    if value ≠ 0#w then (buffer * w + bitScanReverse value + 1) % 2 ^ w else 0
  return ⟨(fromIndex + 2 ^ w - startingRunIndex) % 2 ^ w, startingRunIndex⟩

/-! ## Section 2: The longest run -/

section Longest

variable {b : RtlBitmap 32}

theorem nextForwardRunSet_eq (b : RtlBitmap 32) (s : Nat) :
    rtlFindNextForwardRunSet b s = rtlFindNextForwardRunClear b.complement s := by
  simp only [rtlFindNextForwardRunClear, lengthOfRunSet_complement, lengthOfRunClear_complement]
  rfl

theorem longestRunSetLoop_eq (b : RtlBitmap 32) (fuel : Nat) : ∀ s longest,
    longestRunSetLoop b fuel s longest = longestRunLoop b.complement fuel s longest := by
  induction fuel with
  | zero =>
    intro s longest
    rfl
  | succ fuel ih =>
    intro s longest
    simp only [longestRunSetLoop, longestRunLoop, nextForwardRunSet_eq, ih]

/-- `run` is the longest of the runs, and starts where a run of its length starts; none longer can
    start there. -/
def LongestRun (runs : Nat → Nat → Prop) (run : FoundRun) : Prop :=
  IsGreatest {m | ∃ s, runs s m} run.numberOfBits ∧
    (run.numberOfBits ≠ 0 → runs run.startingIndex run.numberOfBits)

theorem rtlFindLongestRunClear_longest (b : RtlBitmap 32) (startingIndex : Nat) :
    ∃ run, rtlFindLongestRunClear b startingIndex = some run ∧ LongestRun b.ClearRun run := by
  obtain ⟨run, hrun, hfound, hmax⟩ :=
    rtlFindLongestRunClear_spec (sizeOfBitMap_fits b) startingIndex
  refine ⟨run, hrun, ⟨?_, fun m ⟨a, ham⟩ => hmax a m ham⟩, hfound.resolve_left⟩
  rcases hfound with h0 | hclear
  · exact ⟨0, by omega, fun i h1 h2 => by omega⟩
  · exact ⟨_, hclear⟩

/-- Both routines find the longest run. -/
theorem rtlFindLongestRun_longest (b : RtlBitmap 32) (startingIndex : Nat) :
    (∃ run, rtlFindLongestRunClear b startingIndex = some run ∧ LongestRun b.ClearRun run) ∧
    (∃ run, rtlFindLongestRunSet b startingIndex = some run ∧ LongestRun b.SetRun run) := by
  refine ⟨rtlFindLongestRunClear_longest b startingIndex, ?_⟩
  obtain ⟨run, hrun, hlongest⟩ := rtlFindLongestRunClear_longest b.complement startingIndex
  refine ⟨run, (longestRunSetLoop_eq b _ _ _).trans hrun, ?_⟩
  simp only [LongestRun, clearRun_complement] at hlongest
  exact hlongest

end Longest

/-! ## Section 3: Listing the longest runs -/

section Listing

variable [hw : BitCount w] {b : RtlBitmap w} {lo mid hi s : Nat}

omit hw in
/-- A clear run that meets a maximal one lies in it. -/
theorem MaximalRun.contains {run : FoundRun} {a m i : Nat} (h : MaximalRun b run)
    (hrun : b.ClearRun a m) (hlo : max a run.startingIndex ≤ i)
    (hhi : i < min (a + m) (run.startingIndex + run.numberOfBits)) :
    run.startingIndex ≤ a ∧ a + m ≤ run.startingIndex + run.numberOfBits := by
  have hin := hrun.1
  constructor
  · by_contra hlt
    have h1 := h.before (run.startingIndex - 1) (by omega)
    have h2 := hrun.2 (run.startingIndex - 1) (by omega) (by omega)
    simp [h1] at h2
  · by_contra hlt
    have h1 := h.after (by omega)
    have h2 := hrun.2 (run.startingIndex + run.numberOfBits) (by omega) (by omega)
    simp [h1] at h2

omit hw in
theorem MaximalRun.eq_of_meet {r r' : FoundRun} (h : MaximalRun b r) (h' : MaximalRun b r')
    (hle : r.startingIndex ≤ r'.startingIndex)
    (hlt : r'.startingIndex < r.startingIndex + r.numberOfBits) : r' = r := by
  have hpos := h'.pos
  have h1 := h.contains h'.clear (i := r'.startingIndex) (by omega) (by omega)
  have h2 := h'.contains h.clear (i := r'.startingIndex) (by omega) (by omega)
  have ha : r'.startingIndex = r.startingIndex := by omega
  have hn : r'.numberOfBits = r.numberOfBits := by omega
  cases r
  cases r'
  simp_all

/-- The list of the maximal runs that start from `lo` on and below `hi`, in order. -/
structure RunsBetween (b : RtlBitmap w) (lo hi : Nat) (runs : List FoundRun) : Prop where
  sorted : runs.Pairwise (·.startingIndex < ·.startingIndex)
  mem : ∀ r, r ∈ runs ↔ MaximalRun b r ∧ lo ≤ r.startingIndex ∧ r.startingIndex < hi

namespace RunsBetween

omit hw in
theorem nil (h : ∀ r, MaximalRun b r → lo ≤ r.startingIndex → hi ≤ r.startingIndex) :
    RunsBetween b lo hi [] where
  sorted := .nil
  mem := fun r => by
    simp only [not_mem_nil, false_iff, not_and, Nat.not_lt]
    exact h r

omit hw in
theorem append {xs ys : List FoundRun} (h : RunsBetween b lo mid xs) (h' : RunsBetween b mid hi ys)
    (hlo : lo ≤ mid) (hhi : mid ≤ hi) : RunsBetween b lo hi (xs ++ ys) where
  sorted := by
    refine pairwise_append.2 ⟨h.sorted, h'.sorted, fun r hr r' hr' => ?_⟩
    have h1 := (h.mem r).1 hr
    have h2 := (h'.mem r').1 hr'
    omega
  mem := fun r => by
    rw [mem_append, h.mem, h'.mem]
    constructor
    · grind
    · grind

omit hw in
theorem nodup {runs : List FoundRun} (h : RunsBetween b lo hi runs) : runs.Nodup :=
  h.sorted.imp fun hlt heq => by simp [heq] at hlt

end RunsBetween

/-- From a boundary on, either there is no run any more, or the run that is found is the only one
    up to its end, which is a boundary again. -/
theorem nextForwardRunClear_runs (hfits : b.sizeOfBitMap + w ≤ 2 ^ 32) (hs : Boundary b s) :
    ∃ run, rtlFindNextForwardRunClear b s = some run ∧
      ((run.numberOfBits = 0 ∧ RunsBetween b s b.sizeOfBitMap []) ∨
       (run.numberOfBits ≠ 0 ∧ s < run.startingIndex + run.numberOfBits ∧
        run.startingIndex + run.numberOfBits ≤ b.sizeOfBitMap ∧
        Boundary b (run.startingIndex + run.numberOfBits) ∧
        RunsBetween b s (run.startingIndex + run.numberOfBits) [run])) := by
  obtain ⟨run, hrun, hnext, hskip⟩ := rtlFindNextForwardRunClear_spec hfits s
  have hle := hnext.le
  -- No run starts among the bits that are passed over.
  have hfrom : ∀ r, MaximalRun b r → s ≤ r.startingIndex → run.startingIndex ≤ r.startingIndex := by
    intro r hr hsr
    by_contra hlt
    have hpos := hr.pos
    have h1 := hskip _ hsr (by omega)
    have h2 := hr.clear.2 _ (Nat.le_refl _) (by omega)
    simp [h1] at h2
  refine ⟨run, hrun, ?_⟩
  by_cases h0 : run.numberOfBits = 0
  · have hend := hnext.exhausted h0
    exact .inl ⟨h0, .nil fun r hr hsr => hend.trans (hfrom r hr hsr)⟩
  have hclear := hnext.clear.resolve_left h0
  have hin := hclear.1
  have hmax : MaximalRun b run := hnext.maximal hskip h0 fun hstart =>
    hs (by omega) (hclear.2 s (by omega) (by omega))
  refine .inr ⟨h0, by omega, hin, ?_, pairwise_singleton _ _, fun r => ?_⟩
  · intro hlt hbit
    rw [hmax.after hlt] at hbit
    cases hbit
  rw [mem_singleton]
  constructor
  · rintro rfl
    exact ⟨hmax, hle, by omega⟩
  · rintro ⟨hr, h1, h2⟩
    exact hmax.eq_of_meet hr (hfrom r hr h1) h2

theorem exists_runsBetween (hfits : b.sizeOfBitMap + w ≤ 2 ^ 32) (n : Nat) : ∀ s, Boundary b s →
    b.sizeOfBitMap ≤ s + n → s ≤ b.sizeOfBitMap →
      ∃ runs, RunsBetween b s b.sizeOfBitMap runs := by
  induction n with
  | zero =>
    intro s _ hn hs
    exact ⟨[], .nil fun r _ hsr => by omega⟩
  | succ n ih =>
    intro s hb hn hs
    obtain ⟨run, -, ⟨-, hnil⟩ | ⟨-, hlt, hin, hb', hone⟩⟩ := nextForwardRunClear_runs hfits hb
    · exact ⟨[], hnil⟩
    · obtain ⟨runs, hruns⟩ := ih _ hb' (by omega) hin
      exact ⟨_, hone.append hruns (by omega) hin⟩

/-- What holds while the array is filled: the entries are the runs up to the cursor, and the
    smallest of them is known. -/
structure Filled (b : RtlBitmap w) (s : RunSearch) : Prop where
  boundary : Boundary b s.fromIndex
  inside : s.fromIndex ≤ b.sizeOfBitMap
  runs : RunsBetween b 0 s.fromIndex s.runArray
  index : s.smallestRun < s.runArray.length ∨ s.runArray = [] ∧ s.smallestRun = 0
  smallest : ∀ r ∈ s.runArray, bitsOfEntry s.runArray s.smallestRun ≤ r.numberOfBits

omit hw in
/-- An entry is added behind the others, and the smallest is chosen again. -/
theorem bitsOfEntry_push {runs : List FoundRun} {i : Nat} (hi : i < runs.length ∨ runs = [] ∧ i = 0)
    (hsmall : ∀ r ∈ runs, bitsOfEntry runs i ≤ r.numberOfBits) (run : FoundRun) {j : Nat}
    (hj : j = if run.numberOfBits < bitsOfEntry (runs ++ [run]) i then runs.length else i) :
    j < (runs ++ [run]).length ∧
      ∀ r ∈ runs ++ [run], bitsOfEntry (runs ++ [run]) j ≤ r.numberOfBits := by
  have hlast : bitsOfEntry (runs ++ [run]) runs.length = run.numberOfBits := by
    simp [bitsOfEntry]
  rcases hi with hi | ⟨rfl, rfl⟩
  · have hkeep : bitsOfEntry (runs ++ [run]) i = bitsOfEntry runs i := by
      simp [bitsOfEntry, getElem?_append_left hi]
    by_cases hlt : run.numberOfBits < bitsOfEntry (runs ++ [run]) i
    · grind
    rw [hj, if_neg hlt]
    refine ⟨by simp; omega, fun r hr => ?_⟩
    rcases mem_append.1 hr with hr | hr
    · rw [hkeep]
      exact hsmall r hr
    · rw [mem_singleton.1 hr]
      omega
  · grind

theorem fillRuns_spec (hfits : b.sizeOfBitMap + w ≤ 2 ^ 32) (n : Nat) : ∀ s, Filled b s →
    ∃ s', fillRuns b n s = some s' ∧ Filled b s' ∧
      (s'.runArray.length = s.runArray.length + n ∨
        s'.runArray.length < s.runArray.length + n ∧ RunsBetween b 0 b.sizeOfBitMap s'.runArray) := by
  induction n with
  | zero =>
    intro s h
    exact ⟨s, rfl, h, .inl rfl⟩
  | succ n ih =>
    intro s h
    obtain ⟨run, hrun, ⟨h0, hnil⟩ | ⟨h0, hlt, hin, hb, hone⟩⟩ :=
      nextForwardRunClear_runs hfits h.boundary
    · refine ⟨s, ?_, h, .inr ⟨by omega, ?_⟩⟩
      · simp only [fillRuns, hrun, bind, Option.bind_some, h0, if_true, pure]
      · simpa using h.runs.append hnil (Nat.zero_le _) h.inside
    have hmod : (run.startingIndex + run.numberOfBits) % 2 ^ w =
        run.startingIndex + run.numberOfBits :=
      index_add_mod (b := b) (by omega) (by omega)
    obtain ⟨j, hj⟩ : ∃ j, j = if run.numberOfBits < bitsOfEntry (s.runArray ++ [run]) s.smallestRun
        then s.runArray.length else s.smallestRun := ⟨_, rfl⟩
    obtain ⟨hindex, hsmall⟩ := bitsOfEntry_push h.index h.smallest run hj
    obtain ⟨s', hs', hfilled, hlen⟩ :=
      ih ⟨s.runArray ++ [run], j, run.startingIndex + run.numberOfBits⟩
        ⟨hb, hin, h.runs.append hone (Nat.zero_le _) hlt.le, .inl hindex, hsmall⟩
    refine ⟨s', ?_, hfilled, ?_⟩
    · simp only [fillRuns, hrun, bind, Option.bind_some, h0, if_false, ← hj, hmod, hs']
    · grind

omit hw in
/-- The second loop is the search for the longest run, on the entry that was the smallest. -/
theorem reviseRuns_eq (k fuel : Nat) : ∀ (runs : List FoundRun) (j from' : Nat)
    (hj : j < runs.length), reviseRuns b k fuel ⟨runs, j, from'⟩ =
      (longestRunLoop b fuel from' runs[j]).map (runs.set j ·) := by
  induction fuel with
  | zero =>
    intro runs j from' hj
    rfl
  | succ fuel ih =>
    intro runs j from' hj
    have hbits : ∀ (l : List FoundRun) (hl : j < l.length), bitsOfEntry l j = l[j].numberOfBits := by
      intro l hl
      simp [bitsOfEntry, hl]
    simp only [reviseRuns, longestRunLoop, hbits runs hj, bind]
    rcases rtlFindNextForwardRunClear b from' with _ | run
    · rfl
    simp only [Option.bind_some]
    by_cases h0 : run.numberOfBits = 0
    · simp only [h0, if_true, pure, Option.map_some, set_getElem_self]
    by_cases hlt : run.numberOfBits > runs[j].numberOfBits
    · have hsame : (range k).foldl (fun smallestRun i => if run.numberOfBits <
          bitsOfEntry (runs.set j run) smallestRun then i else smallestRun) j = j := by
        -- The entry is the run itself, which is not smaller than itself.
        refine foldlRecOn (motive := (· = j)) _ _ rfl fun i hi _ _ => ?_
        rw [hi, hbits _ (by simpa using hj), getElem_set_self, if_neg (Nat.lt_irrefl _)]
      simp only [h0, if_false, if_pos hlt, hsame]
      rw [ih (runs.set j run) j _ (by simpa using hj)]
      simp only [getElem_set_self, set_set]
    · simp only [h0, if_false, if_neg hlt, ih _ j _ hj]

end Listing

/-- `found` are the `k` longest of the runs, or all of them. -/
structure ListsLongest (runs : List FoundRun) (k : Nat) (found : List FoundRun) : Prop where
  length : found.length = min k runs.length
  nodup : found.Nodup
  subset : ∀ r ∈ found, r ∈ runs
  longest : ∀ u ∈ runs, u ∉ found → ∀ v ∈ found, u.numberOfBits ≤ v.numberOfBits

/-- Of any two of the first runs and any two of the later ones, some first run is at least as long
    as some later one: at most one entry has to give way. -/
def OneGivesWay (first rest : List FoundRun) : Prop :=
  ∀ v ∈ first, ∀ v' ∈ first, v ≠ v' → ∀ u ∈ rest, ∀ u' ∈ rest, u ≠ u' →
    min u.numberOfBits u'.numberOfBits ≤ max v.numberOfBits v'.numberOfBits

/-- The smallest of the first runs, `x0`, replaced by the longest of it and the later ones, `x`. -/
theorem listsLongest_iff {first rest kept found : List FoundRun} {x0 x : FoundRun}
    (hfirst : first.Perm (x0 :: kept)) (hfound : found.Perm (x :: kept))
    (hnodup : (first ++ rest).Nodup) (hsmall : ∀ v ∈ first, x0.numberOfBits ≤ v.numberOfBits)
    (hx : x = x0 ∨ x ∈ rest) (hle : x0.numberOfBits ≤ x.numberOfBits)
    (hmax : ∀ u ∈ rest, u.numberOfBits ≤ x.numberOfBits) :
    ListsLongest (first ++ rest) first.length found ↔ OneGivesWay first rest := by
  obtain ⟨hnodup1, -, hdisjoint⟩ := nodup_append.1 hnodup
  have hmem : ∀ r, r ∈ found ↔ r = x ∨ r ∈ kept := fun r => hfound.mem_iff.trans mem_cons
  have hmem1 : ∀ r, r ∈ first ↔ r = x0 ∨ r ∈ kept := fun r => hfirst.mem_iff.trans mem_cons
  have hx0 : x0 ∈ first := (hmem1 x0).2 (.inl rfl)
  constructor
  · intro h v hv v' hv' hvv u hu u' hu' huu
    by_contra hlt
    -- One of the first runs has stayed, and one of the later ones was left out.
    have hstays : ∃ z ∈ found, z.numberOfBits ≤ max v.numberOfBits v'.numberOfBits := by
      rcases (hmem1 v).1 hv with rfl | hkept
      · exact ⟨v', (hmem v').2 (.inr (((hmem1 v').1 hv').resolve_left hvv.symm)), by omega⟩
      · exact ⟨v, (hmem v).2 (.inr hkept), by omega⟩
    have hleft : ∃ y ∈ rest, y ∉ found ∧ min u.numberOfBits u'.numberOfBits ≤ y.numberOfBits := by
      have hout : ∀ y ∈ rest, y ≠ x → y ∉ found := fun y hy hne hyf =>
        hdisjoint y ((hmem1 y).2 (.inr (((hmem y).1 hyf).resolve_left hne))) y hy rfl
      by_cases hux : u = x
      · exact ⟨u', hu', hout u' hu' fun heq => huu (hux.trans heq.symm), by omega⟩
      · exact ⟨u, hu, hout u hu hux, by omega⟩
    obtain ⟨z, hz, hzle⟩ := hstays
    obtain ⟨y, hy, hyout, hyle⟩ := hleft
    have hyz := h.longest y (mem_append_right _ hy) hyout z hz
    omega
  · intro h
    obtain ⟨hx0kept, hkept⟩ := nodup_cons.1 (hfirst.nodup_iff.1 hnodup1)
    refine ⟨?_, hfound.nodup_iff.2 (nodup_cons.2 ⟨?_, hkept⟩), fun r hr => ?_, fun u hu huout v hv => ?_⟩
    · rw [hfound.length_eq, length_append, hfirst.length_eq, length_cons, length_cons]
      omega
    · grind
    · rcases (hmem r).1 hr with rfl | hr
      · grind
      · exact mem_append_left _ ((hmem1 r).2 (.inr hr))
    · have hux : u ≠ x := fun heq => huout ((hmem u).2 (.inl heq))
      have hgone : u = x0 ∨ u ∈ rest := by grind
      rcases (hmem v).1 hv with rfl | hvk
      · rcases hgone with rfl | hu
        · exact hle
        · exact hmax u hu
      have hvf := (hmem1 v).2 (.inr hvk)
      have hvle := hsmall v hvf
      rcases hgone with rfl | hu
      · exact hvle
      rcases hx with rfl | hx
      · exact (hmax u hu).trans hvle
      have hvx0 : v ≠ x0 := fun heq => hx0kept (heq ▸ hvk)
      have hpair := h v hvf x0 hx0 hvx0 u hu x hx hux
      have hux' := hmax u hu
      omega

/-- `RtlFindClearRuns` lists the longest runs exactly when at most one of the first entries has to
    give way to a later run. -/
theorem rtlFindClearRuns_longest_iff (b : RtlBitmap 32) {k : Nat} (hk : 0 < k) :
    ∃ runs found, RunsBetween b 0 b.sizeOfBitMap runs ∧ rtlFindClearRuns b k true = some found ∧
      (ListsLongest runs k found ↔ OneGivesWay (runs.take k) (runs.drop k)) := by
  have hfits := sizeOfBitMap_fits b
  have hstart : Filled b ⟨[], 0, 0⟩ :=
    ⟨fun _ _ i hi => by simp at hi, Nat.zero_le _, .nil fun r _ _ => Nat.zero_le _, .inr ⟨rfl, rfl⟩,
      fun r hr => by cases hr⟩
  obtain ⟨⟨first, j, lo⟩, hfill, hfilled, hlen⟩ := fillRuns_spec hfits k _ hstart
  simp only [List.length_nil, Nat.zero_add] at hlen
  rcases hlen with rfl | ⟨hlen, hall⟩
  · -- The array is full, and the other runs are those behind it.
    obtain ⟨rest, hrest⟩ :=
      exists_runsBetween hfits b.sizeOfBitMap lo hfilled.boundary (by omega) hfilled.inside
    have hruns := hfilled.runs.append hrest (Nat.zero_le _) hfilled.inside
    have hj : j < first.length := by
      rcases hfilled.index with hj | ⟨hnil, -⟩
      · exact hj
      · simp only at hnil
        simp [hnil] at hk
    have hentry : bitsOfEntry first j = first[j].numberOfBits := by simp [bitsOfEntry, hj]
    obtain ⟨x, hloop, hx, hle, hmax⟩ := longestRunLoop_spec hfits
      (show Boundary b lo from hfilled.boundary) (b.sizeOfBitMap + 1) lo first[j] (by omega)
      hfilled.inside (Nat.le_refl lo)
      (fun a m h₁ h₂ => by omega)
    have hfound : rtlFindClearRuns b first.length true = some (first.set j x) := by
      simp only [rtlFindClearRuns, hfill, bind, Option.bind_some, Nat.lt_irrefl, not_true_eq_false,
        or_self, if_false]
      rw [reviseRuns_eq _ _ _ _ _ hj, hloop]
      rfl
    refine ⟨first ++ rest, _, hruns, hfound, ?_⟩
    rw [List.take_left' rfl, List.drop_left' rfl]
    refine listsLongest_iff (List.getElem_cons_eraseIdx_perm hj).symm (List.set_perm_cons_eraseIdx hj x)
      hruns.nodup (fun v hv => ?_) ?_ hle fun u hu => ?_
    · rw [← hentry]
      exact hfilled.smallest v hv
    · rcases hx with rfl | ⟨hxm, hlo⟩
      · exact .inl rfl
      · have hpos := hxm.pos
        have hin := hxm.clear.1
        exact .inr ((hrest.mem x).2 ⟨hxm, hlo, by omega⟩)
    · have hum := (hrest.mem u).1 hu
      exact hmax _ _ hum.2.1 hum.1.clear
  · refine ⟨first, first, hall, ?_, ?_⟩
    · simp only [rtlFindClearRuns, hfill, bind, Option.bind_some, hlen, true_or, if_true, pure]
    · have hk' : first.length ≤ k := hlen.le
      rw [List.take_of_length_le hk', List.drop_of_length_le hk']
      refine iff_of_true ⟨by omega, hall.nodup, fun r hr => hr, fun u hu hno => absurd hu hno⟩ ?_
      intro v _ v' _ _ u hu
      cases hu

/-- Four runs, of one, one, two and two bits. -/
def fourRuns : RtlBitmap 32 :=
  ⟨⟨9, #[0x4A], by decide, by decide⟩, by decide⟩

theorem rtlFindClearRuns_longest_iff_four : 0 < 4 ∧ ∃ runs found,
    RunsBetween fourRuns 0 9 runs ∧ rtlFindClearRuns fourRuns 4 true = some found ∧
      (ListsLongest runs 4 found ↔ OneGivesWay (runs.take 4) (runs.drop 4)) :=
  ⟨by decide, rtlFindClearRuns_longest_iff fourRuns (by decide)⟩

/-- The two longest runs of the four are not found: the second run of two bits is left out. -/
theorem rtlFindClearRuns_leaves_longer :
    rtlFindClearRuns fourRuns 2 true = some [⟨2, 4⟩, ⟨1, 2⟩] ∧ MaximalRun fourRuns ⟨2, 7⟩ := by
  refine ⟨by decide +kernel, by decide, ⟨by decide, fun i h₁ h₂ => ?_⟩, fun i hi => ?_, ?_⟩
  · obtain rfl | rfl : i = 7 ∨ i = 8 := by simp only at h₁ h₂; omega
    · decide
    · decide
  · obtain rfl : i = 6 := by simpa using hi
    decide
  · decide

/-! ## Section 4: The backward search -/

section Backward

theorem bitScanReverse_spec {value : BitVec w} (h : value ≠ 0#w) :
    bitScanReverse value < w ∧ value.getLsbD (bitScanReverse value) = true ∧
      ∀ j, bitScanReverse value < j → value.getLsbD j = false := by
  have hne : value.toNat ≠ 0 := fun h0 => h (BitVec.eq_of_toNat_eq (by simpa using h0))
  refine ⟨(Nat.log2_lt hne).2 value.isLt, Nat.testBit_log2 hne, fun j hj => ?_⟩
  exact Nat.testBit_lt_two_pow ((Nat.log2_lt hne).1 hj)

theorem getLsbD_shift_back (x : BitVec w) (s j : Nat) :
    (x <<< s >>> s).getLsbD j = (decide (s + j < w) && x.getLsbD j) := by
  simp [Nat.not_lt.2 (Nat.le_add_right s j)]

variable {b : BitMapHeader w} {view : BitVec w → BitVec w} {r : Bool} {e : Nat}

/-- The scan for the start of a run of `r` that ends with `e`, with word `k` read last: `x` has the
    bits of that word that end the run. -/
structure ReadingBack (b : BitMapHeader w) (r : Bool) (e k : Nat) (x : BitVec w) : Prop where
  le : k * w ≤ e
  run : b.Run (k * w + w) (e + 1) r
  bits : ∀ j, j < w →
    x.getLsbD j = (decide (k * w + j ≤ e) && (bitAt b.buffer (k * w + j) != r))

namespace ReadingBack

variable {k : Nat} {x : BitVec w}

/-- A word without an end of the run belongs to it. -/
theorem run_word (h : ReadingBack b r e k x) (hx : x = 0#w) : b.Run (k * w) (e + 1) r := by
  intro i hi hlt
  by_cases hk : k * w + w ≤ i
  · exact h.run i hk hlt
  · have hbit := h.bits (i - k * w) (by omega)
    rw [show k * w + (i - k * w) = i by omega, hx] at hbit
    simpa [Nat.lt_succ_iff.1 hlt] using hbit

theorem next (h : ReadingBack b r e (k + 1) x) (hx : x = 0#w)
    (hview : ∀ y j, j < w → (view y).getLsbD j = (y.getLsbD j != r)) :
    ReadingBack b r e k (view (b.buffer.getD k 0)) := by
  have hle := h.le
  have hrun := h.run_word hx
  rw [Nat.succ_mul] at hle hrun
  refine ⟨by omega, hrun, fun j hj => ?_⟩
  rw [hview _ j hj, bitAt_word _ _ _ hj]
  simp [show k * w + j ≤ e by omega]

/-- The highest bit of the word that was read last is the end of the run. -/
theorem last (h : ReadingBack b r e k x) (hx : x ≠ 0#w) :
    k * w + bitScanReverse x ≤ e ∧ b.Run (k * w + bitScanReverse x + 1) (e + 1) r ∧
      bitAt b.buffer (k * w + bitScanReverse x) = !r := by
  obtain ⟨hlt, hset, hclear⟩ := bitScanReverse_spec hx
  have hbit := h.bits _ hlt
  rw [hset] at hbit
  have hend : k * w + bitScanReverse x ≤ e ∧ bitAt b.buffer (k * w + bitScanReverse x) = !r := by
    simpa [Bool.eq_not] using hbit.symm
  refine ⟨hend.1, fun i hi hlt' => ?_, hend.2⟩
  by_cases hk : k * w + w ≤ i
  · exact h.run i hk hlt'
  · have hno := h.bits (i - k * w) (by omega)
    rw [show k * w + (i - k * w) = i by omega, hclear _ (by omega)] at hno
    simpa [Nat.lt_succ_iff.1 hlt'] using hno

end ReadingBack

theorem backWords_spec (hview : ∀ y j, j < w → (view y).getLsbD j = (y.getLsbD j != r)) (k : Nat) :
    ∀ x, ReadingBack b r e k x → k ≤ b.buffer.size →
      ∃ k' x', backWords view b k x = some (k', x') ∧ ReadingBack b r e k' x' ∧ k' ≤ k ∧
        (x' = 0#w → k' = 0) := by
  induction k with
  | zero =>
    intro x h _
    exact ⟨0, x, rfl, h, Nat.le_refl 0, fun _ => rfl⟩
  | succ k ih =>
    intro x h hk
    by_cases hx : x = 0#w
    · obtain ⟨k', x', hback, hread, hle, hend⟩ := ih _ (h.next hx hview) (by omega)
      refine ⟨k', x', ?_, hread, by omega, hend⟩
      simp only [backWords, hx, if_true, load_eq (show k < b.buffer.size by omega), bind,
        Option.bind_some, hback]
    · exact ⟨k + 1, x, by simp [backWords, hx], h, Nat.le_refl _, fun h0 => absurd h0 hx⟩

/-- `lo` up to `hi` is the last run of clear bits at or below `i`. -/
structure LastRun (b : BitMapHeader w) (i lo hi : Nat) : Prop where
  le : hi ≤ i
  above : b.Run (hi + 1) (i + 1) true
  start : lo ≤ hi
  clear : b.Run lo (hi + 1) false
  before : ∀ j, j + 1 = lo → bitAt b.buffer j = true

/-- The search finds the last run, and returns how far its last bit is from its first. -/
theorem rtlFindLastBackwardRunClear_spec [hw : BitCount w] {i : Nat} (hi : i < b.sizeOfBitMap)
    (start : Nat) :
    (rtlFindLastBackwardRunClear b i start = some ⟨0, start⟩ ∧ b.Run 0 (i + 1) true) ∨
    ∃ lo hi, rtlFindLastBackwardRunClear b i start = some ⟨hi - lo, lo⟩ ∧ LastRun b i lo hi := by
  have hpos : 0 < w := bitCount_pos
  have hsize := b.fits
  have hmin : min i ((b.sizeOfBitMap + 2 ^ w - 1) % 2 ^ w) = i := by
    rw [show b.sizeOfBitMap + 2 ^ w - 1 = b.sizeOfBitMap - 1 + 2 ^ w by omega, Nat.add_mod_right,
      Nat.mod_eq_of_lt (by omega)]
    omega
  obtain ⟨hidx, hmod⟩ := index_spec (w := w) i
  have hword : i / w < b.buffer.size := word_lt hi
  have hread : ReadingBack b true i (i / w)
      (~~~(b.buffer.getD (i / w) 0) <<< (w - 1 - i % w) >>> (w - 1 - i % w)) := by
    refine ⟨by omega, fun j h1 h2 => by omega, fun j hj => ?_⟩
    rw [getLsbD_shift_back, getLsbD_complement _ j hj, bitAt_word _ _ _ hj]
    have hiff : w - 1 - i % w + j < w ↔ i / w * w + j ≤ i := by omega
    simp only [hiff]
  obtain ⟨k, inv, hback, hreadk, hk, hend⟩ := backWords_spec getLsbD_complement (i / w) _ hread hword.le
  by_cases hinv : inv = 0#w
  · refine .inl ⟨?_, ?_⟩
    · simp only [rtlFindLastBackwardRunClear, hmin, and_mask, load_eq hword, bind, Option.bind_some,
        hback, hinv, if_true, pure]
    · have hrun := hreadk.run_word hinv
      rwa [hend hinv, Nat.zero_mul] at hrun
  obtain ⟨hple, habove, hbit⟩ := hreadk.last hinv
  obtain ⟨hplt, -, -⟩ := bitScanReverse_spec hinv
  obtain ⟨q, hq⟩ : ∃ q, q = bitScanReverse inv := ⟨_, rfl⟩
  rw [← hq] at hple habove hbit hplt
  -- The second scan starts with the bits of this word up to the clear one.
  have hread' : ReadingBack b false (k * w + q) k (~~~inv <<< (w - 1 - q) >>> (w - 1 - q)) := by
    refine ⟨by omega, fun j h1 h2 => by omega, fun j hj => ?_⟩
    rw [getLsbD_shift_back, getLsbD_complement _ j hj, hreadk.bits j hj]
    by_cases hjq : j ≤ q
    · simp [show w - 1 - q + j < w by omega, show k * w + j ≤ i by omega, hjq]
    · simp [show ¬ w - 1 - q + j < w by omega, hjq]
  obtain ⟨k', x, hback', hreadk', hk', hend'⟩ :=
    @backWords_spec w b (fun value => value) _ _ (fun y j _ => by simp) k _ hread' (by omega)
  obtain ⟨lo, hlo⟩ : ∃ lo, lo = if x ≠ 0#w then (k' * w + bitScanReverse x + 1) % 2 ^ w else 0 :=
    ⟨_, rfl⟩
  have hlast : lo ≤ k * w + q ∧ b.Run lo (k * w + q + 1) false ∧
      ∀ j, j + 1 = lo → bitAt b.buffer j = true := by
    by_cases hx : x = 0#w
    · have hrun := hreadk'.run_word hx
      rw [hend' hx, Nat.zero_mul] at hrun
      rw [hlo, if_neg (not_not.2 hx)]
      exact ⟨Nat.zero_le _, hrun, fun j hj => by omega⟩
    obtain ⟨hxle, hrun, hxbit⟩ := hreadk'.last hx
    have hne : k' * w + bitScanReverse x ≠ k * w + q := fun heq => by
      rw [heq, hbit] at hxbit
      cases hxbit
    rw [hlo, if_pos hx, Nat.mod_eq_of_lt (by omega)]
    refine ⟨by omega, hrun, fun j hj => ?_⟩
    rw [show j = k' * w + bitScanReverse x by omega]
    exact hxbit
  refine .inr ⟨lo, k * w + q, ?_, hple, habove, hlast.1, hlast.2.1, hlast.2.2⟩
  have hwrap : (k * w + q + 2 ^ w - lo) % 2 ^ w = k * w + q - lo := by
    rw [show k * w + q + 2 ^ w - lo = k * w + q - lo + 2 ^ w by omega, Nat.add_mod_right,
      Nat.mod_eq_of_lt (by omega)]
  simp only [rtlFindLastBackwardRunClear, hmin, and_mask, load_eq hword, bind, Option.bind_some,
    hback, hinv, if_false, ← hq, hback', ← hlo, pure,
    Nat.mod_eq_of_lt (show k * w + q < 2 ^ w by omega), hwrap]

/-- What is asked of the search: the length and the start of the run whose last bit is the highest
    clear one, and length 0 only if there is none. -/
structure LastRunFound (b : BitMapHeader w) (i : Nat) (run : FoundRun) : Prop where
  found : ∀ p, IsGreatest {j | j ≤ i ∧ bitAt b.buffer j = false} p →
    run.startingIndex + run.numberOfBits = p + 1 ∧ b.Run run.startingIndex (p + 1) false ∧
      ∀ j, j + 1 = run.startingIndex → bitAt b.buffer j = true
  none : run.numberOfBits = 0 ↔ ∀ j, j ≤ i → bitAt b.buffer j = true

/-- The length is one too small whenever there is a run. -/
theorem rtlFindLastBackwardRunClear_iff (b : BitMapHeader 32) {i : Nat} (hi : i < b.sizeOfBitMap)
    (start : Nat) : ∃ run, rtlFindLastBackwardRunClear b i start = some run ∧
      (LastRunFound b i run ↔ ∀ j, j ≤ i → bitAt b.buffer j = true) := by
  rcases rtlFindLastBackwardRunClear_spec hi start with ⟨hrun, hset⟩ | ⟨lo, p, hrun, hlast⟩
  · have hall : ∀ j, j ≤ i → bitAt b.buffer j = true := fun j hj =>
      hset j (Nat.zero_le j) (by omega)
    refine ⟨_, hrun, iff_of_true ⟨fun p hp => ?_, iff_of_true rfl hall⟩ hall⟩
    have hbit := hp.1.2
    rw [hall p hp.1.1] at hbit
    cases hbit
  have hbit : bitAt b.buffer p = false := hlast.clear p hlast.start (by omega)
  refine ⟨_, hrun, iff_of_false (fun h => ?_) fun hall => ?_⟩
  · have hgreatest : IsGreatest {j | j ≤ i ∧ bitAt b.buffer j = false} p := by
      refine ⟨⟨hlast.le, hbit⟩, fun j hj => ?_⟩
      by_contra hlt
      have habove := hlast.above j (by omega) (by have := hj.1; omega)
      rw [hj.2] at habove
      cases habove
    have hlen := (h.found p hgreatest).1
    have hstart := hlast.start
    simp only at hlen
    omega
  · rw [hall p hlast.le] at hbit
    cases hbit

theorem rtlFindLastBackwardRunClear_iff_set : 0 < twoSetBits.sizeOfBitMap ∧
    ∃ run, rtlFindLastBackwardRunClear twoSetBits.toBitMapHeader 0 5 = some run ∧
      (LastRunFound twoSetBits.toBitMapHeader 0 run ↔
        ∀ j, j ≤ 0 → bitAt twoSetBits.buffer j = true) :=
  ⟨by decide, rtlFindLastBackwardRunClear_iff twoSetBits.toBitMapHeader (by decide) 5⟩

/-- Of eight clear bits, the four up to bit 3 are counted as three, and bit 0 alone as none. -/
theorem rtlFindLastBackwardRunClear_short :
    rtlFindLastBackwardRunClear freeByte.toBitMapHeader 3 5 = some ⟨3, 0⟩ ∧
    rtlFindLastBackwardRunClear freeByte.toBitMapHeader 0 5 = some ⟨0, 0⟩ := by
  decide +kernel

end Backward

end Rtl
