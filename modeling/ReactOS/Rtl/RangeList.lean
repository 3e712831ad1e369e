import Mathlib.Algebra.Group.Nat.Defs
import Mathlib.Data.List.Basic

/-! # Range lists

    `rangelist.c`: lists of inclusive ranges of 64-bit numbers.  Lengths and
    alignments are 32-bit numbers, and `ROUND_DOWN` keeps only the low 32 bits
    of what it rounds: its mask is a 32-bit number.

    `Count` is the length of the list; the stamp, which only the iterators
    read, is left out.  An allocation can fail. -/

namespace RangeList

open List

/-! ## Section 1: Data -/

/-- `NTSTATUS` -/
inductive Status where
  | success
  | invalidParameter
  | insufficientResources
  | rangeNotFound
  deriving DecidableEq, Repr

/-- The last number, `(ULONGLONG)-1`. -/
def maxValue : BitVec 64 := 0xFFFFFFFFFFFFFFFF

theorem le_maxValue (v : BitVec 64) : v ≤ maxValue := by
  unfold maxValue
  bv_omega

/-- `RTL_RANGE`; `shared` is the flag `RTL_RANGE_SHARED`. -/
structure Range where
  start : BitVec 64
  ending : BitVec 64
  attributes : BitVec 8
  shared : Bool
  userData : Nat
  owner : Nat
  /-- no other range gets into a list -/
  proper : start ≤ ending
  deriving DecidableEq, Repr

/-- A number of the range. -/
def Range.Contains (r : Range) (v : BitVec 64) : Prop := r.start ≤ v ∧ v ≤ r.ending

/-- A number of one of the ranges. -/
def Covered (ranges : List Range) (v : BitVec 64) : Prop := ∃ r ∈ ranges, r.Contains v

/-- The ranges are disjoint and in ascending order. -/
def Sorted (ranges : List Range) : Prop := ranges.Pairwise fun a b => a.ending < b.start

/-! ## Section 2: The routines -/

/-- The loop of `RtlAddRange`: before the first range that starts behind the new one. -/
def insertRange (new : Range) : List Range → List Range
  | [] => [new]
  | current :: rest =>
    if new.ending < current.start then new :: current :: rest else current :: insertRange new rest

/-- `RtlAddRange` -/
def rtlAddRange (alloc : Bool) (ranges : List Range) (start ending : BitVec 64)
    (attributes : BitVec 8) (shared : Bool) (userData owner : Nat) : Status × List Range :=
  if h : start ≤ ending then
    if alloc then
      (.success, insertRange ⟨start, ending, attributes, shared, userData, owner, h⟩ ranges)
    else (.insufficientResources, ranges)
  else (.invalidParameter, ranges)

/-- `ROUND_DOWN` with a `ULONG` for the alignment. -/
def roundDown (n : BitVec 64) (align : BitVec 32) : BitVec 64 := n &&& (~~~(align - 1)).setWidth 64

/-- The arguments of `RtlFindRange`. -/
structure Request where
  minimum : BitVec 64
  maximum : BitVec 64
  length : BitVec 32
  alignment : BitVec 32
  deriving DecidableEq, Repr

/-- `Length - 1` in an expression with 64-bit numbers. -/
def Request.offset (q : Request) : BitVec 64 := (q.length - 1).setWidth 64

/-- `RangeMin` for a gap that ends at `rangeMax`, unless the search stops there. -/
def Request.candidate (q : Request) (rangeMax : BitVec 64) : Option (BitVec 64) :=
  if rangeMax + q.offset < q.minimum then none
  else
    let rangeMin := roundDown (rangeMax - q.offset) q.alignment
    if rangeMin < q.minimum ∨ rangeMax - rangeMin < q.offset then none else some rangeMin

/-- The loop of `RtlFindRange` from the last range down, and what follows it. -/
def findLoop (q : Request) : BitVec 64 → List Range → Except Status (BitVec 64)
  | rangeMax, [] =>
    match q.candidate rangeMax with
    | none => .error .rangeNotFound
    | some rangeMin => .ok rangeMin
  | rangeMax, current :: rest =>
    match q.candidate rangeMax with
    | none => .error .rangeNotFound
    | some rangeMin =>
      if current.ending < rangeMin then .ok rangeMin else findLoop q (current.start - 1) rest

/-- `RtlFindRange`: `*Start`, or the status.  Flags, mask and callback are not used. -/
def rtlFindRange (ranges : List Range) (q : Request) : Except Status (BitVec 64) :=
  if q.alignment = 0 ∨ q.length = 0 then .error .invalidParameter
  else if ranges = [] then .ok (roundDown (q.maximum - q.offset) q.alignment)
  else findLoop q q.maximum ranges.reverse

/-- The gap below a range, if there is one. -/
def gapBelow (previous : Option Range) (current : Range) : Option (BitVec 64 × BitVec 64) :=
  match previous with
  | none => if current.start ≠ 0 then some (0, current.start - 1) else none
  | some p => if p.ending + 1 ≠ current.start then some (p.ending + 1, current.start - 1) else none

/-- The loop of `RtlInvertRangeList`, and what follows it. -/
def invertLoop (alloc : Nat → Bool) :
    Nat → Option Range → List Range → List Range → Status × List Range
  | _, none, [], inverted => (.success, inverted)
  | i, some p, [], inverted =>
    if p.ending + 1 ≠ maxValue then
      rtlAddRange (alloc i) inverted (p.ending + 1) maxValue 0 false 0 0
    else (.success, inverted)
  | i, previous, current :: rest, inverted =>
    match gapBelow previous current with
    | none => invertLoop alloc i (some current) rest inverted
    | some (low, high) =>
      match rtlAddRange (alloc i) inverted low high 0 false 0 0 with
      | (.success, inverted) => invertLoop alloc (i + 1) (some current) rest inverted
      | failed => failed

/-- `RtlInvertRangeList` -/
def rtlInvertRangeList (alloc : Nat → Bool) (inverted ranges : List Range) : Status × List Range :=
  invertLoop alloc 0 none ranges inverted

/-- The test in the loop of `RtlIsRangeAvailable`. -/
def conflicts (start ending : BitVec 64) (sharedFlag : Bool) (current : Range) : Bool :=
  !((current.start ≥ ending && current.ending > ending) ||
    (current.start ≤ start && current.ending < start && (!sharedFlag || !current.shared)))

/-- `RtlIsRangeAvailable`: every conflict sets the result again. -/
def rtlIsRangeAvailable (ranges : List Range) (start ending : BitVec 64) (sharedFlag : Bool)
    (callback : Option (Range → Bool)) : Bool :=
  ranges.foldl (fun available current =>
    if conflicts start ending sharedFlag current then
      match callback with
      | some callback => callback current
      | none => false
    else available) true

/-! ## Section 3: Availability -/

variable {r : Range} {start ending : BitVec 64}

/-- The range has a number in `[start, ending]`. -/
def Range.Overlaps (r : Range) (start ending : BitVec 64) : Prop :=
  ∃ v, r.Contains v ∧ start ≤ v ∧ v ≤ ending

/-- A range that starts at the last number and goes on. -/
def Range.Touches (r : Range) (ending : BitVec 64) : Prop := r.start = ending ∧ ending < r.ending

theorem overlaps_iff (h : start ≤ ending) :
    r.Overlaps start ending ↔ r.start ≤ ending ∧ start ≤ r.ending := by
  have hr := r.proper
  constructor
  · rintro ⟨v, ⟨h1, h2⟩, h3, h4⟩
    exact ⟨BitVec.le_trans h1 h4, BitVec.le_trans h3 h2⟩
  · rintro ⟨h1, h2⟩
    -- the larger one of the two starts
    rcases BitVec.le_total r.start start with hle | hle
    · exact ⟨start, ⟨hle, h2⟩, BitVec.le_refl _, h⟩
    · exact ⟨r.start, ⟨BitVec.le_refl _, hr⟩, hle, h1⟩

/-- The test misses a range that starts at the last number. -/
theorem conflicts_iff (h : start ≤ ending) :
    conflicts start ending false r = true ↔ r.Overlaps start ending ∧ ¬ r.Touches ending := by
  have hr := r.proper
  rw [overlaps_iff h]
  simp only [conflicts, Range.Touches, Bool.not_false, Bool.true_or, Bool.and_true, Bool.not_eq_true',
    Bool.or_eq_false_iff, Bool.and_eq_false_iff, decide_eq_false_iff_not, ge_iff_le, gt_iff_lt]
  bv_omega

theorem rtlIsRangeAvailable_eq (ranges : List Range) (start ending : BitVec 64) :
    rtlIsRangeAvailable ranges start ending false none = true ↔
      ∀ r ∈ ranges, ¬ conflicts start ending false r = true := by
  -- the result so far is carried through the list
  have hfold : ∀ available, ranges.foldl (fun available current =>
      if conflicts start ending false current then false else available) available = true ↔
      available = true ∧ ∀ r ∈ ranges, ¬ conflicts start ending false r = true := by
    induction ranges with
    | nil => simp
    | cons r ranges ih =>
      intro available
      rw [foldl_cons, ih]
      cases hr : conflicts start ending false r <;> simp [hr]
  exact (hfold true).trans (by simp)

/-- The answer is right unless a range that starts at the last number and goes
    on is the only one in the way. -/
theorem rtlIsRangeAvailable_iff (ranges : List Range) {start ending : BitVec 64}
    (h : start ≤ ending) :
    (rtlIsRangeAvailable ranges start ending false none = true ↔
        ∀ r ∈ ranges, ¬ r.Overlaps start ending) ↔
      (∀ r ∈ ranges, ¬ r.Touches ending) ∨
        ∃ r ∈ ranges, r.Overlaps start ending ∧ ¬ r.Touches ending := by
  have htouch : ∀ r : Range, r.Touches ending → r.Overlaps start ending := by
    rintro r ⟨rfl, hlt⟩
    exact ⟨r.start, ⟨BitVec.le_refl _, r.proper⟩, h, BitVec.le_refl _⟩
  rw [rtlIsRangeAvailable_eq]
  simp only [conflicts_iff h]
  grind

/-- A range behind the one asked for is not in the way. -/
theorem rtlIsRangeAvailable_iff_behind :
    ∃ r : Range, (5 : BitVec 64) ≤ 9 ∧
      (rtlIsRangeAvailable [r] 5 9 false none = true ↔ ∀ r' ∈ [r], ¬ r'.Overlaps 5 9) := by
  refine ⟨⟨10, 20, 0, false, 0, 0, by decide⟩, by decide, ?_⟩
  exact (rtlIsRangeAvailable_iff _ (by decide)).2 (.inl (by simp [Range.Touches]))

/-- `[5, 10]` is said to be available, but 10 is in a range. -/
theorem available_at_start :
    ∃ r : Range, r.Contains 10 ∧ rtlIsRangeAvailable [r] 5 10 false none = true :=
  ⟨⟨10, 20, 0, false, 0, 0, by decide⟩, ⟨by decide, by decide⟩, by decide⟩

/-! ## Section 4: Inversion -/

variable {ranges : List Range}

theorem covered_cons {v : BitVec 64} :
    Covered (r :: ranges) v ↔ r.Contains v ∨ Covered ranges v := by
  simp [Covered]

theorem covered_insertRange (new : Range) (ranges : List Range) (v : BitVec 64) :
    Covered (insertRange new ranges) v ↔ Covered ranges v ∨ new.Contains v := by
  induction ranges with
  | nil => simp [insertRange, Covered]
  | cons r ranges ih =>
    rw [insertRange]
    split
    · rw [covered_cons]
      exact or_comm
    · rw [covered_cons, ih, covered_cons, or_assoc]

/-- A range up to the last number goes to the end of the list. -/
theorem insertRange_max {new : Range} (h : new.ending = maxValue) (ranges : List Range) :
    insertRange new ranges = ranges ++ [new] := by
  induction ranges with
  | nil => rfl
  | cons r ranges ih =>
    have hnot : ¬ new.ending < r.start := BitVec.not_lt.2 (h ▸ le_maxValue r.start)
    rw [insertRange, if_neg hnot, ih, cons_append]

/-- The numbers that the loop adds. -/
def Added : Option Range → List Range → BitVec 64 → Prop
  | none, [], _ => False
  | some p, [], v => p.ending + 1 ≠ maxValue ∧ p.ending + 1 ≤ v
  | previous, current :: rest, v =>
    (∃ g ∈ gapBelow previous current, g.1 ≤ v ∧ v ≤ g.2) ∨ Added (some current) rest v

theorem rtlAddRange_covers {alloc : Bool} {ranges' : List Range}
    (h : rtlAddRange alloc ranges start ending 0 false 0 0 = (.success, ranges')) (v : BitVec 64) :
    Covered ranges' v ↔ Covered ranges v ∨ (start ≤ v ∧ v ≤ ending) := by
  unfold rtlAddRange at h
  split at h
  · split at h
    · obtain rfl := (Prod.mk.inj h).2
      exact covered_insertRange _ _ v
    · cases h
  · cases h

theorem invertLoop_covers {alloc : Nat → Bool} {i : Nat} {previous : Option Range}
    {inverted inverted' : List Range}
    (h : invertLoop alloc i previous ranges inverted = (.success, inverted')) (v : BitVec 64) :
    Covered inverted' v ↔ Covered inverted v ∨ Added previous ranges v := by
  induction ranges generalizing i previous inverted with
  | nil =>
    cases previous with
    | none =>
      obtain rfl := (Prod.mk.inj h).2
      simp [Added]
    | some p =>
      rw [invertLoop] at h
      split at h
      · rename_i hne
        rw [rtlAddRange_covers h]
        simp only [Added, hne, le_maxValue v, and_true, ne_eq, not_false_eq_true, true_and]
      · rename_i hne
        obtain rfl := (Prod.mk.inj h).2
        simp only [Added, hne, false_and, or_false]
  | cons current rest ih =>
    rw [invertLoop] at h
    cases hgap : gapBelow previous current with
    | none =>
      rw [hgap] at h
      rw [ih h]
      simp [Added, hgap]
    | some g =>
      simp only [hgap] at h
      split at h
      · rename_i inverted1 hadd
        rw [ih h, rtlAddRange_covers hadd, or_assoc]
        simp [Added, hgap]
      · rename_i hfail
        exact absurd h (hfail inverted')

/-- One round: below `current` the loop adds what is behind the range before. -/
theorem added_cons (previous : Option Range) {current : Range} {rest : List Range} {v : BitVec 64}
    {all skips : Prop} (hprevious : ∀ p ∈ previous, p.ending < current.start)
    (hrest : ∀ r ∈ rest, current.ending < r.start)
    (hbehind : Added (some current) rest v ↔
      all ∨ current.ending < v ∧ ¬ Covered rest v ∧ (skips → v ≠ maxValue)) :
    Added previous (current :: rest) v ↔
      all ∨ (∀ p ∈ previous, p.ending < v) ∧ ¬ Covered (current :: rest) v ∧
        (skips → v ≠ maxValue) := by
  have hproper := current.proper
  have hgap : (∃ g ∈ gapBelow previous current, g.1 ≤ v ∧ v ≤ g.2) ↔
      (∀ p ∈ previous, p.ending < v) ∧ v < current.start := by
    cases previous with
    | none =>
      simp only [gapBelow]
      split <;> simp <;> bv_omega
    | some p =>
      have hp := hprevious p rfl
      simp only [gapBelow]
      split <;> simp <;> bv_omega
  have hbelow : v ≤ current.ending → ¬ Covered rest v := by
    rintro hv ⟨r, hr, hin, -⟩
    have := hrest r hr
    bv_omega
  have hcontains : current.Contains v ↔ current.start ≤ v ∧ v ≤ current.ending := Iff.rfl
  rw [Added, hgap, hbehind, covered_cons, hcontains]
  by_cases hv : v < current.start
  · have hmax : v ≠ maxValue := by
      rintro rfl
      exact absurd hv (BitVec.not_lt.2 (le_maxValue _))
    have hle : v ≤ current.ending := by bv_omega
    simp only [hv, BitVec.not_lt.2 hle, BitVec.not_le.2 hv, hbelow hle, hmax, and_true, false_and,
      or_false, not_false_eq_true, ne_eq, implies_true]
    exact or_comm
  have hle : current.start ≤ v := BitVec.not_lt.1 hv
  have hp : ∀ p ∈ previous, p.ending < v := fun p hp => by
    have := hprevious p hp
    bv_omega
  simp only [hv, hle, and_false, false_or, not_or, true_and, BitVec.not_le, and_assoc]
  simp only [eq_true hp, true_and]

/-- Behind `p`, the loop adds what is in no range; but not the last number if
    the last range ends right before it, and everything if it ends there. -/
theorem added_iff {p : Range} (h : Sorted (p :: ranges)) (v : BitVec 64) : Added (some p) ranges v ↔
      ((p :: ranges).getLast (by simp)).ending = maxValue ∨
      p.ending < v ∧ ¬ Covered ranges v ∧
        (((p :: ranges).getLast (by simp)).ending + 1 = maxValue → v ≠ maxValue) := by
  induction ranges generalizing p with
  | nil =>
    simp only [Added, getLast_singleton, Covered, not_mem_nil, false_and, exists_false,
      not_false_eq_true, true_and, maxValue]
    bv_omega
  | cons c rest ih =>
    obtain ⟨hp, hc⟩ := pairwise_cons.1 h
    have hround := added_cons (some p) (by simpa using hp c (by simp))
      (pairwise_cons.1 hc).1 (ih hc)
    simpa [getLast_cons] using hround

/-- After a range up to the last number the loop adds everything. -/
theorem added_of_max (h : r.ending = maxValue) (previous : Option Range)
    (ranges : List Range) (v : BitVec 64) : Added previous (ranges ++ [r]) v := by
  induction ranges generalizing previous with
  | nil =>
    simp only [nil_append, Added, h]
    have hzero : maxValue + 1 ≤ v := by
      simp only [maxValue]
      bv_omega
    exact Or.inr ⟨by decide, hzero⟩
  | cons q ranges ih =>
    rw [cons_append, Added]
    exact Or.inr (ih (some q))

theorem Sorted.ending_le_last {last : Range} (h : Sorted ranges)
    (hlast : ranges.getLast? = some last) (hr : r ∈ ranges) : r.ending ≤ last.ending := by
  obtain ⟨l, rfl⟩ := getLast?_eq_some_iff.1 hlast
  rcases mem_append.1 hr with hr | hr
  · have hlt : r.ending < last.start := (pairwise_append.1 h).2.2 r hr last (by simp)
    have := last.proper
    bv_omega
  · obtain rfl := mem_singleton.1 hr
    exact BitVec.le_refl _

/-- A range up to the last number is at the end of the inverted list, if one is added. -/
theorem invertLoop_getLast {alloc : Nat → Bool} {i : Nat} {previous : Option Range}
    {inverted inverted' : List Range} {last : Range}
    (h : invertLoop alloc i previous ranges inverted = (.success, inverted'))
    (hlast : (previous.toList ++ ranges).getLast? = some last)
    (hadds : last.ending + 1 ≠ maxValue) : ∃ l r, inverted' = l ++ [r] ∧ r.ending = maxValue := by
  induction ranges generalizing i previous inverted with
  | nil =>
    obtain rfl : previous = some last := by cases previous <;> simp_all
    rw [invertLoop, if_pos hadds, rtlAddRange] at h
    split at h
    · split at h
      · obtain rfl := (Prod.mk.inj h).2
        exact ⟨inverted, _, insertRange_max rfl _, rfl⟩
      · cases h
    · cases h
  | cons current rest ih =>
    have hlast' : ((some current).toList ++ rest).getLast? = some last := by
      cases previous <;> simpa using hlast
    rw [invertLoop] at h
    split at h
    · exact ih h hlast'
    split at h
    · exact ih h hlast'
    · rename_i hfail
      exact absurd h (hfail inverted')

/-- Inversion gives the complement if there is a range and the last one ends
    at least two below the last number.  Inverting twice gives back the same
    numbers for no number and for all numbers only. -/
theorem rtlInvertRangeList_iff {alloc : Nat → Bool} {ranges inverted : List Range}
    (hsorted : Sorted ranges) (h : rtlInvertRangeList alloc [] ranges = (.success, inverted)) :
    ((∀ v, Covered inverted v ↔ ¬ Covered ranges v) ↔
      ∃ last ∈ ranges.getLast?, last.ending < maxValue - 1) ∧
    ∀ alloc' twice, rtlInvertRangeList alloc' [] inverted = (.success, twice) →
      ((∀ v, Covered twice v ↔ Covered ranges v) ↔ ranges = [] ∨ ∀ v, Covered ranges v) := by
  have hnone : ∀ v, ¬ Covered [] v := by simp [Covered]
  have hcov : ∀ v, Covered inverted v ↔ Added none ranges v := fun v => by
    simpa [hnone] using invertLoop_covers h v
  have hcov' : ∀ alloc' twice, rtlInvertRangeList alloc' [] inverted = (.success, twice) →
      ∀ v, Covered twice v ↔ Added none inverted v := fun _ _ h' v => by
    simpa [hnone] using invertLoop_covers h' v
  cases ranges with
  | nil =>
    obtain rfl := (Prod.mk.inj h).2
    exact ⟨by simp [hnone], fun _ _ h' => by simp [hcov' _ _ h', hnone, Added]⟩
  | cons r ranges =>
    have hlast : (r :: ranges).getLast? = some ((r :: ranges).getLast (by simp)) :=
      List.getLast?_eq_some_getLast _
    have hadded := fun v => added_cons none (v := v) (by simp)
      (List.pairwise_cons.1 hsorted).1 (added_iff hsorted v)
    have hmem : (r :: ranges).getLast (by simp) ∈ r :: ranges := List.getLast_mem _
    have hends : Covered (r :: ranges) ((r :: ranges).getLast (by simp)).ending :=
      ⟨_, hmem, Range.proper _, BitVec.le_refl _⟩
    rw [hlast]
    generalize (r :: ranges).getLast (by simp) = last at hadded hlast hends
    simp only [Option.mem_some_iff, exists_eq_left', reduceCtorEq, false_or, Option.not_mem_none,
      false_implies, implies_true, true_and] at hadded ⊢
    have hlt : last.ending < maxValue - 1 ↔ last.ending ≠ maxValue ∧ last.ending + 1 ≠ maxValue := by
      simp only [maxValue]
      bv_omega
    by_cases hskips : last.ending + 1 = maxValue
    · -- the last number is in neither list
      have hne : last.ending ≠ maxValue := by
        intro heq
        rw [heq] at hskips
        exact absurd hskips (by decide)
      have hranges : ¬ Covered (r :: ranges) maxValue := by
        rintro ⟨q, hq, -, hin⟩
        have := hsorted.ending_le_last hlast hq
        exact hne (BitVec.le_antisymm (le_maxValue _) (BitVec.le_trans hin this))
      have hinverted : ¬ Covered inverted maxValue := by grind
      refine ⟨iff_of_false (fun hall => ?_) (fun hend => (hlt.1 hend).2 hskips),
        fun _ _ h' => iff_of_false (fun hall => ?_) (fun hall => hranges (hall _))⟩
      · exact hinverted ((hall _).2 hranges)
      rcases List.eq_nil_or_concat' inverted with rfl | ⟨l, q, rfl⟩
      · exact absurd ((hall _).2 hends) (by simp [hcov' _ _ h', Added])
      -- the inverted list ends elsewhere, so the last number is added now
      have hq : q.ending + 1 ≠ maxValue := by
        intro hq
        have heq : q.ending = last.ending := by bv_omega
        have hcovered : Covered (l ++ [q]) last.ending :=
          ⟨q, by simp, heq ▸ q.proper, heq ▸ BitVec.le_refl _⟩
        rw [hcov, hadded] at hcovered
        exact (hcovered.resolve_left hne).1 hends
      have hlast' : ((none : Option Range).toList ++ (l ++ [q])).getLast? = some q := by simp
      obtain ⟨l', q', rfl, hq'⟩ := invertLoop_getLast h' hlast' hq
      exact hranges ((hall _).1 ⟨q', by simp, hq' ▸ q'.proper, hq' ▸ BitVec.le_refl _⟩)
    · obtain ⟨l, q, rfl, hq⟩ := invertLoop_getLast h hlast hskips
      refine ⟨?_, fun _ _ h' => by simp [hcov' _ _ h', added_of_max hq none l]⟩
      rw [hlt]
      constructor
      · grind
      · grind

/-- `[16, 31]`, with a list for its complement and for the complement of that. -/
def someRange : Range := ⟨16, 31, 0, false, 0, 0, by decide⟩

def someInverted : List Range := (rtlInvertRangeList (fun _ => true) [] [someRange]).2

theorem rtlInvertRangeList_iff_one :
    Sorted [someRange] ∧ ∃ twice, rtlInvertRangeList (fun _ => true) [] someInverted = (.success, twice) ∧
    ∀ v, Covered someInverted v ↔ ¬ Covered [someRange] v := by
  have h : rtlInvertRangeList (fun _ => true) [] [someRange] = (.success, someInverted) := rfl
  have h' : rtlInvertRangeList (fun _ => true) [] someInverted =
      (.success, (rtlInvertRangeList (fun _ => true) [] someInverted).2) := rfl
  have hsorted : Sorted [someRange] := List.pairwise_singleton _ _
  exact ⟨hsorted, _, h', (rtlInvertRangeList_iff hsorted h).1.2 ⟨_, rfl, by decide⟩⟩

/-- All numbers are in the inverted list of the list of all numbers, no number
    is in that of the empty list. -/
theorem inverted_all : ∃ r : Range, ∃ inverted,
    (∀ v, r.Contains v) ∧ rtlInvertRangeList (fun _ => true) [] [r] = (.success, inverted) ∧
    Covered inverted 5 ∧ rtlInvertRangeList (fun _ => true) [] [] = (.success, []) :=
  ⟨⟨0, maxValue, 0, false, 0, 0, by decide⟩, _, fun v => ⟨by bv_omega, le_maxValue v⟩, rfl,
    ⟨_, List.mem_singleton.2 rfl, by decide, by decide⟩, rfl⟩

/-! ## Section 5: Free ranges -/

/-- Where a range of the length could start. -/
structure Request.Fits (q : Request) (ranges : List Range) (start : BitVec 64) : Prop where
  aligned : q.alignment.toNat ∣ start.toNat
  low : q.minimum ≤ start
  high : start.toNat + (q.length.toNat - 1) ≤ q.maximum.toNat
  free : ∀ r ∈ ranges, r.ending.toNat < start.toNat ∨
    start.toNat + (q.length.toNat - 1) < r.start.toNat

/-- There is something to ask for, and the alignment is a power of two. -/
structure Request.Valid (q : Request) : Prop where
  length : q.length ≠ 0
  alignment : ∃ k, q.alignment.toNat = 2 ^ k

/-- The low half of a number is rounded, and the high half is lost. -/
theorem roundDown_toNat (n : BitVec 64) {align : BitVec 32} {k : Nat}
    (halign : align.toNat = 2 ^ k) :
    (roundDown n align).toNat = n.toNat % 2 ^ 32 / 2 ^ k * 2 ^ k := by
  have hpos : 0 < 2 ^ k := Nat.two_pow_pos k
  have hmask : ((~~~(align - 1)).setWidth 64).toNat = 2 ^ 32 - (2 ^ k - 1 + 1) := by
    have hpred : (align - 1).toNat = 2 ^ k - 1 := by
      bv_omega
    rw [BitVec.toNat_setWidth, BitVec.toNat_not, hpred]
    omega
  rw [roundDown, BitVec.toNat_and, hmask]
  apply Nat.eq_of_testBit_eq
  intro i
  rw [Nat.testBit_and, Nat.testBit_two_pow_sub_succ (by omega), Nat.testBit_two_pow_sub_one,
    Nat.testBit_mul_two_pow, Nat.testBit_div_two_pow, Nat.testBit_mod_two_pow]
  by_cases hki : k ≤ i
  · simp [hki, Nat.not_lt.2 hki, Nat.sub_add_cancel hki, Bool.and_comm]
  · simp [hki, Nat.lt_of_not_le hki]

/-- The start does not take the range past the maximum or into the next range of the list.  In an
    empty list it is not below the minimum. -/
structure Request.EndsInside (q : Request) (ranges : List Range) (start : BitVec 64) : Prop where
  low : ranges = [] → q.minimum ≤ start
  high : start.toNat + (q.length.toNat - 1) ≤ q.maximum.toNat
  next : ∀ r ∈ ranges, start ≤ r.ending →
    start.toNat + (q.length.toNat - 1) < r.start.toNat

/-- A gap ends so high that the last start in it is not below 4 GB. -/
def Request.Far (q : Request) (ranges : List Range) : Prop :=
  2 ^ 32 + (q.length.toNat - 1) ≤ q.maximum.toNat ∨
    ∃ r ∈ ranges, 2 ^ 32 + (q.length.toNat - 1) < r.start.toNat

/-- Where the gap below the ranges `above` ends. -/
def Request.gapEnd (q : Request) : List Range → BitVec 64
  | [] => q.maximum
  | r :: _ => r.start - 1

/-- The search comes to the gap below the ranges `above`: in no gap above is the candidate refused,
    or behind the range below that gap. -/
def Request.Reaches (q : Request) : List Range → Prop
  | [] => True
  | r :: above => (∃ m, q.candidate (q.gapEnd above) = some m ∧ m ≤ r.ending) ∧ q.Reaches above

/-- The start `m` is the candidate of the gap that the search comes to, and is behind the range
    below that gap.  With an empty list nothing is compared. -/
def Request.Takes (q : Request) (ranges : List Range) (m : BitVec 64) : Prop :=
  if ranges = [] then m = roundDown (q.maximum - q.offset) q.alignment
  else ∃ below above, ranges = below ++ above ∧ q.Reaches above ∧
    q.candidate (q.gapEnd above) = some m ∧ ∀ r ∈ below.getLast?, r.ending < m

section Search

variable {q : Request} {rangeMax : BitVec 64}

theorem Request.Reaches.of_append {below above : List Range} (h : q.Reaches (below ++ above)) :
    q.Reaches above := by
  induction below with
  | nil => exact h
  | cons r below ih => exact ih h.2

/-- The loop from the gap below `above` on; the ranges left are in descending order. -/
theorem findLoop_ok_iff {m : BitVec 64} (above : List Range) (hreach : q.Reaches above) :
    findLoop q (q.gapEnd above) ranges = .ok m ↔
      ∃ a b, ranges = a ++ b ∧ q.Reaches (a.reverse ++ above) ∧
        q.candidate (q.gapEnd (a.reverse ++ above)) = some m ∧ ∀ r ∈ b.head?, r.ending < m := by
  induction ranges generalizing above with
  | nil =>
    rw [findLoop]
    cases hcand : q.candidate (q.gapEnd above) <;> simp [hcand, hreach]
  | cons c rest ih =>
    -- the gap above `c` takes the request, or is one of those that are passed over
    have hsplit : (∃ a b, c :: rest = a ++ b ∧ q.Reaches (a.reverse ++ above) ∧
        q.candidate (q.gapEnd (a.reverse ++ above)) = some m ∧ ∀ r ∈ b.head?, r.ending < m) ↔
        (q.candidate (q.gapEnd above) = some m ∧ c.ending < m) ∨
        ∃ a b, rest = a ++ b ∧ q.Reaches (a.reverse ++ c :: above) ∧
          q.candidate (q.gapEnd (a.reverse ++ c :: above)) = some m ∧
          ∀ r ∈ b.head?, r.ending < m := by
      constructor
      · rintro ⟨_ | ⟨d, a⟩, b, heq, hra, hm, hlast⟩
        · cases heq
          exact .inl ⟨hm, hlast c rfl⟩
        · cases heq
          rw [reverse_cons, append_assoc] at hra hm
          exact .inr ⟨a, b, rfl, hra, hm, hlast⟩
      · rintro (⟨hm, hlt⟩ | ⟨a, b, rfl, hra, hm, hlast⟩)
        · exact ⟨[], c :: rest, rfl, hreach, hm, by simpa using hlt⟩
        · exact ⟨c :: a, b, rfl, by simpa using hra, by simpa using hm, hlast⟩
    rw [hsplit, findLoop]
    cases hcand : q.candidate (q.gapEnd above) with
    | none =>
      refine iff_of_false nofun ?_
      rintro (⟨hm, -⟩ | ⟨a, b, -, hra, -⟩)
      · cases hm
      · obtain ⟨x, hx, -⟩ := hra.of_append.1
        rw [hcand] at hx
        cases hx
    | some x =>
      dsimp only
      by_cases hlt : c.ending < x
      · rw [if_pos hlt]
        constructor
        · rintro ⟨⟩
          exact .inl ⟨rfl, hlt⟩
        · rintro (⟨hm, -⟩ | ⟨a, b, -, hra, -⟩)
          · cases hm
            rfl
          · obtain ⟨y, hy, hle⟩ := hra.of_append.1
            rw [hcand] at hy
            cases hy
            exact absurd hlt (BitVec.not_lt.2 hle)
      · rw [if_neg hlt]
        refine (ih (c :: above) ⟨⟨x, hcand, BitVec.not_lt.1 hlt⟩, hreach⟩).trans
          (or_iff_right ?_).symm
        rintro ⟨hm, hc⟩
        cases hm
        exact hlt hc

variable (h : q.Valid)

include h

theorem Request.Valid.ne_zero : ¬ (q.alignment = 0 ∨ q.length = 0) := by
  obtain ⟨k, hk⟩ := h.alignment
  rintro (hzero | hzero)
  · have := Nat.two_pow_pos k
    simp [hzero] at hk
    omega
  · exact h.length hzero

theorem rtlFindRange_ok_iff {m : BitVec 64} : rtlFindRange ranges q = .ok m ↔ q.Takes ranges m := by
  rw [rtlFindRange, if_neg h.ne_zero, Request.Takes]
  by_cases hnil : ranges = []
  · rw [if_pos hnil, if_pos hnil]
    exact ⟨fun heq => (Except.ok.inj heq).symm, fun heq => congrArg _ heq.symm⟩
  rw [if_neg hnil, if_neg hnil]
  refine (findLoop_ok_iff [] trivial).trans ?_
  constructor
  · rintro ⟨a, b, heq, hreach, hm, hlast⟩
    rw [append_nil] at hreach hm
    refine ⟨b.reverse, a.reverse, ?_, hreach, hm, by rwa [getLast?_reverse]⟩
    rw [← reverse_append, ← heq, reverse_reverse]
  · rintro ⟨below, above, rfl, hreach, hm, hlast⟩
    refine ⟨above.reverse, below.reverse, reverse_append, ?_⟩
    rw [reverse_reverse, append_nil, head?_reverse]
    exact ⟨hreach, hm, hlast⟩

theorem Request.Valid.offset_toNat : q.offset.toNat = q.length.toNat - 1 := by
  have hpos := h.length
  simp only [Request.offset, BitVec.toNat_setWidth]
  bv_omega

theorem Request.Valid.dvd_roundDown (n : BitVec 64) :
    q.alignment.toNat ∣ (roundDown n q.alignment).toNat := by
  obtain ⟨k, hk⟩ := h.alignment
  rw [roundDown_toNat n hk, hk]
  exact Nat.dvd_mul_left _ _

/-- What the loop returns is aligned and not below the minimum. -/
theorem findLoop_ok {m : BitVec 64} (hm : findLoop q rangeMax ranges = .ok m) :
    q.alignment.toNat ∣ m.toNat ∧ q.minimum ≤ m := by
  have hcandidate : ∀ rangeMax, q.candidate rangeMax = some m →
      q.alignment.toNat ∣ m.toNat ∧ q.minimum ≤ m := by
    intro rangeMax hcand
    unfold Request.candidate at hcand
    split at hcand
    · cases hcand
    dsimp only at hcand
    split at hcand
    · cases hcand
    · rename_i hno
      cases hcand
      exact ⟨h.dvd_roundDown _, BitVec.not_lt.1 fun hlt => hno (.inl hlt)⟩
  induction ranges generalizing rangeMax with
  | nil =>
    rw [findLoop] at hm
    split at hm
    · cases hm
    · cases hm
      exact hcandidate _ ‹_›
  | cons c rest ih =>
    rw [findLoop] at hm
    split at hm
    · cases hm
    rename_i hcand
    split at hm
    · cases hm
      exact hcandidate _ hcand
    · exact ih hm

/-- Below a gap that is not far, the candidate is not lower than any start that fits. -/
theorem Request.Valid.candidate_of_fits (hnear : rangeMax.toNat < 2 ^ 32 + (q.length.toNat - 1))
    {s : Nat} (haligned : q.alignment.toNat ∣ s) (hlow : q.minimum.toNat ≤ s)
    (hhigh : s + (q.length.toNat - 1) ≤ rangeMax.toNat) :
    ∃ m, q.candidate rangeMax = some m ∧ s ≤ m.toNat := by
  obtain ⟨k, hk⟩ := h.alignment
  have hoff := h.offset_toNat
  have hsub : (rangeMax - q.offset).toNat = rangeMax.toNat - (q.length.toNat - 1) := by bv_omega
  have hround := roundDown_toNat (rangeMax - q.offset) hk
  rw [hsub, Nat.mod_eq_of_lt (by omega)] at hround
  -- the largest multiple that is not above
  have hle := Nat.div_mul_le_self (rangeMax.toNat - (q.length.toNat - 1)) (2 ^ k)
  have hlargest : s ≤ (rangeMax.toNat - (q.length.toNat - 1)) / 2 ^ k * 2 ^ k := by
    obtain ⟨c, rfl⟩ := hk ▸ haligned
    rw [Nat.mul_comm]
    apply Nat.mul_le_mul_right
    rw [Nat.le_div_iff_mul_le (Nat.two_pow_pos k), Nat.mul_comm]
    omega
  rw [← hround] at hle hlargest
  refine ⟨roundDown (rangeMax - q.offset) q.alignment, ?_, hlargest⟩
  generalize hm : roundDown (rangeMax - q.offset) q.alignment = m at hle hlargest
  have hlength : q.length.toNat < 2 ^ 32 := q.length.isLt
  rw [Request.candidate, if_neg (by bv_omega)]
  simp only [hm]
  exact if_neg (not_or.2 ⟨by bv_omega, by bv_omega⟩)

/-- If no gap is far, a start is found where there is one. -/
theorem findLoop_of_fits (hsorted : ranges.Pairwise fun a b => b.ending < a.start)
    (hnear : rangeMax.toNat < 2 ^ 32 + (q.length.toNat - 1))
    (hstarts : ∀ r ∈ ranges, r.start.toNat ≤ 2 ^ 32 + (q.length.toNat - 1)) {s : BitVec 64}
    (hs : Request.Fits { q with maximum := rangeMax } ranges s) :
    ∃ m, findLoop q rangeMax ranges = .ok m := by
  induction ranges generalizing rangeMax with
  | nil =>
    obtain ⟨m, hm, -⟩ := h.candidate_of_fits hnear hs.aligned hs.low hs.high
    exact ⟨m, by rw [findLoop, hm]⟩
  | cons c rest ih =>
    obtain ⟨m, hm, hle⟩ := h.candidate_of_fits hnear hs.aligned hs.low hs.high
    rw [findLoop, hm]
    by_cases hgap : c.ending < m
    · exact ⟨m, if_pos hgap⟩
    -- what fits lies below `c`
    have hunder : s.toNat + (q.length.toNat - 1) < c.start.toNat :=
      (hs.free c mem_cons_self).resolve_left (by bv_omega)
    have hpred : (c.start - 1).toNat = c.start.toNat - 1 := by bv_omega
    have hstart := hstarts c mem_cons_self
    have hrest : Request.Fits { q with maximum := c.start - 1 } rest s :=
      ⟨hs.aligned, hs.low, hpred ▸ Nat.le_sub_one_of_lt hunder,
        fun r hr => hs.free r (mem_cons_of_mem _ hr)⟩
    obtain ⟨m', hm'⟩ := ih (pairwise_cons.1 hsorted).2 (by omega)
      (fun r hr => hstarts r (mem_cons_of_mem _ hr)) hrest
    exact ⟨m', (if_neg hgap).trans hm'⟩

end Search

/-- `[0, 15]` and `[56, 63]`: 8 numbers below the second range. -/
def zeroAndHigh : List Range :=
  [⟨0, 15, 0, false, 0, 0, by decide⟩, ⟨56, 63, 0, false, 0, 0, by decide⟩]

end RangeList
