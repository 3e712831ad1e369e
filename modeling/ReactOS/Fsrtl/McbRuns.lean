import ReactOS.Fsrtl.LargeMcb

/-! # The runs of a mapped control block

    The runs of an MCB, in the order of the table, are proper and disjoint:
    the two compare routines then agree on where a run belongs, whatever the
    shape of the tree is.  An MCB is read as a partial map from virtual to
    logical blocks. -/

namespace Mcb

open List BaseMcb

open LinkedTree (BinTree)
open GenericTable

/-! ## Section 1: Runs and the map -/

variable {r : Run}

/-- A run is not empty, and its block numbers are not negative. -/
structure Run.Proper (r : Run) : Prop where
  start_nonneg : 0 ≤ r.runStartVbn
  start_lt : r.runStartVbn < r.runEndVbn
  lbn_nonneg : 0 ≤ r.startingLbn

/-- The two ranges have a block in common. -/
def Run.Meets (a b : Run) : Prop :=
  a.runStartVbn < b.runEndVbn ∧ b.runStartVbn < a.runEndVbn

instance (a b : Run) : Decidable (a.Meets b) := inferInstanceAs (Decidable (_ ∧ _))

/-- The run maps the virtual block `v` to the logical block `b`. -/
def Run.Maps (r : Run) (v b : Int) : Prop :=
  r.runStartVbn ≤ v ∧ v < r.runEndVbn ∧ b = r.startingLbn + (v - r.runStartVbn)

instance (r : Run) (v b : Int) : Decidable (r.Maps v b) := inferInstanceAs (Decidable (_ ∧ _))

/-- One of the runs maps `v` to `b`. -/
def MapsIn (l : List Run) (v b : Int) : Prop := ∃ r ∈ l, r.Maps v b

@[simp] theorem mapsIn_nil (v b : Int) : MapsIn [] v b ↔ False := by simp [MapsIn]

@[simp] theorem mapsIn_cons (r : Run) (l : List Run) (v b : Int) :
    MapsIn (r :: l) v b ↔ r.Maps v b ∨ MapsIn l v b := by simp [MapsIn]

@[simp] theorem mapsIn_append (l m : List Run) (v b : Int) :
    MapsIn (l ++ m) v b ↔ MapsIn l v b ∨ MapsIn m v b := by
  simp only [MapsIn, mem_append]
  constructor
  · grind
  · grind

/-- Proper runs, each behind the ones before it. -/
structure RunList (l : List Run) : Prop where
  ordered : l.Pairwise fun a b => a.runEndVbn ≤ b.runStartVbn
  proper : ∀ r ∈ l, r.Proper

/-- The runs of the table, in order. -/
def BaseMcb.runs (mcb : BaseMcb) : List Run := mcb.table.toList

/-- The runs are proper and disjoint. -/
def BaseMcb.WF (mcb : BaseMcb) : Prop := RunList mcb.runs

/-- The MCB as a partial map. -/
def BaseMcb.Maps (mcb : BaseMcb) (v b : Int) : Prop := MapsIn mcb.runs v b

instance (mcb : BaseMcb) (v b : Int) : Decidable (mcb.Maps v b) :=
  inferInstanceAs (Decidable (∃ r ∈ mcb.runs, r.Maps v b))

/-- An MCB with a single run. -/
def oneRun (r : Run) : BaseMcb := ⟨.node .nil r .nil, 1⟩

namespace RunList

variable {l A B p : List Run} {h : Run}

theorem nil : RunList [] := ⟨.nil, by simp⟩

theorem append_iff : RunList (A ++ B) ↔ RunList A ∧ RunList B ∧
    ∀ a ∈ A, ∀ b ∈ B, a.runEndVbn ≤ b.runStartVbn := by
  constructor
  · intro hl
    obtain ⟨hA, hB, hAB⟩ := pairwise_append.1 hl.ordered
    exact ⟨⟨hA, fun r hr => hl.proper r (by simp [hr])⟩,
      ⟨hB, fun r hr => hl.proper r (by simp [hr])⟩, hAB⟩
  intro hl
  obtain ⟨hA, hB, hAB⟩ := hl
  constructor
  · exact pairwise_append.2 ⟨hA.ordered, hB.ordered, hAB⟩
  · exact forall_mem_append.2 ⟨hA.proper, hB.proper⟩

theorem cons_iff : RunList (h :: B) ↔ h.Proper ∧ RunList B ∧
    ∀ b ∈ B, h.runEndVbn ≤ b.runStartVbn := by
  constructor
  · intro hl
    obtain ⟨hh, hB⟩ := pairwise_cons.1 hl.ordered
    exact ⟨hl.proper h (by simp), ⟨hB, fun r hr => hl.proper r (by simp [hr])⟩, hh⟩
  intro hl
  obtain ⟨hh, hB, hcross⟩ := hl
  constructor
  · exact pairwise_cons.2 ⟨hcross, hB.ordered⟩
  · exact forall_mem_cons.2 ⟨hh, hB.proper⟩

theorem around (hl : RunList (A ++ h :: B)) :
    RunList A ∧ h.Proper ∧ RunList B ∧ (∀ a ∈ A, a.runEndVbn ≤ h.runStartVbn) ∧
      (∀ b ∈ B, h.runEndVbn ≤ b.runStartVbn) ∧ ∀ a ∈ A, ∀ b ∈ B, a.runEndVbn ≤ b.runStartVbn := by
  obtain ⟨hA, hhB, hcross⟩ := append_iff.1 hl
  obtain ⟨hh, hB, hbehind⟩ := cons_iff.1 hhB
  exact ⟨hA, hh, hB, fun a ha => hcross a ha h (by simp), hbehind,
    fun a ha b hb => hcross a ha b (by simp [hb])⟩

theorem replace (hl : RunList (A ++ h :: B)) (hp : RunList p)
    (hin : ∀ q ∈ p, h.runStartVbn ≤ q.runStartVbn ∧ q.runEndVbn ≤ h.runEndVbn) :
    RunList (A ++ p ++ B) := by
  obtain ⟨hA, -, hB, hbefore, hbehind, hcross⟩ := hl.around
  refine append_iff.2 ⟨append_iff.2 ⟨hA, hp, ?_⟩, hB, ?_⟩
  · intro a ha q hq
    have := hbefore a ha
    have := (hin q hq).1
    omega
  · grind

theorem remove (hl : RunList (A ++ h :: B)) : RunList (A ++ B) := by
  simpa using hl.replace nil (by simp)

/-- Runs that do not meet a range are before it or behind it. -/
theorem split_at (hl : RunList l) (n : Run) (hn : ∀ r ∈ l, ¬ n.Meets r) :
    ∃ A B, l = A ++ B ∧ (∀ r ∈ A, r.runEndVbn ≤ n.runStartVbn) ∧
      ∀ r ∈ B, n.runEndVbn ≤ r.runStartVbn := by
  induction l with
  | nil => exact ⟨[], [], rfl, by simp, by simp⟩
  | cons x l ih =>
    obtain ⟨hx, hl', hbehind⟩ := cons_iff.1 hl
    by_cases hend : x.runEndVbn ≤ n.runStartVbn
    · obtain ⟨A, B, rfl, hA, hB⟩ := ih hl' fun r hr => hn r (by simp [hr])
      exact ⟨x :: A, B, rfl, by simpa [hend] using hA, hB⟩
    -- `x` is behind the range, and so are the others
    have hmeets := hn x (by simp)
    have hstart := hx.start_lt
    have hx : n.runEndVbn ≤ x.runStartVbn := by
      unfold Run.Meets at hmeets
      omega
    refine ⟨[], x :: l, rfl, by simp, fun r hr => ?_⟩
    rcases mem_cons.1 hr with rfl | hr
    · exact hx
    · have := hbehind r hr
      omega

theorem eq_of_mem (hl : RunList l) {s : Run} (hr : r ∈ l) (hs : s ∈ l) (hmeets : r.Meets s) :
    r = s := by
  unfold Run.Meets at hmeets
  induction l with
  | nil => cases hr
  | cons x l ih =>
    obtain ⟨-, hl', hbehind⟩ := cons_iff.1 hl
    rcases mem_cons.1 hr with rfl | hr' <;> rcases mem_cons.1 hs with rfl | hs'
    · rfl
    · have := hbehind s hs'
      omega
    · have := hbehind r hr'
      omega
    · exact ih hl' hr' hs'

theorem maps_unique (hl : RunList l) {v b c : Int} (hb : MapsIn l v b) (hc : MapsIn l v c) :
    b = c := by
  obtain ⟨r, hr, hr1, hr2, rfl⟩ := hb
  obtain ⟨s, hs, hs1, hs2, rfl⟩ := hc
  rw [hl.eq_of_mem hr hs ⟨by omega, by omega⟩]

end RunList

theorem oneRun_wf (hr : r.Proper) : (oneRun r).WF :=
  RunList.cons_iff.2 ⟨hr, .nil, by simp⟩

/-! ## Section 2: The table -/

variable {n : Run} {mcb : BaseMcb}

theorem intersectCompare_equal (hn : n.runStartVbn < n.runEndVbn) (hr : r.Proper) :
    mcbMappingIntersectCompare n r = .equal ↔ n.Meets r := by
  have := hr.start_lt
  unfold mcbMappingIntersectCompare Run.Meets
  repeat' split
  all_goals simp only [reduceCtorEq, true_iff, false_iff]
  all_goals omega

theorem intersectCompare_less (hn : n.runStartVbn < n.runEndVbn) :
    mcbMappingIntersectCompare n r = .lessThan ↔ n.runEndVbn ≤ r.runStartVbn := by
  unfold mcbMappingIntersectCompare
  repeat' split
  all_goals simp only [reduceCtorEq, true_iff, false_iff]
  all_goals omega

theorem intersectCompare_greater (hr : r.Proper) :
    mcbMappingIntersectCompare n r = .greaterThan ↔ r.runEndVbn ≤ n.runStartVbn := by
  have := hr.start_lt
  unfold mcbMappingIntersectCompare
  repeat' split
  all_goals simp only [reduceCtorEq, true_iff, false_iff]
  all_goals omega

theorem intersectCompare_splits (hn : n.runStartVbn < n.runEndVbn) {l : List Run}
    (hl : RunList l) : Splits (mcbMappingIntersectCompare n) l := by
  refine hl.ordered.imp_of_mem fun {a b} ha hb hab => ?_
  have hpa := hl.proper a ha
  have hpb := hl.proper b hb
  have := hpa.start_lt
  have := hpb.start_lt
  rw [intersectCompare_less hn, intersectCompare_less hn,
    intersectCompare_greater hpa, intersectCompare_greater hpb]
  omega

/-- A lookup brings a run that meets the range to the root, if there is one. -/
theorem lookup_cases (hwf : mcb.WF) (hn : n.runStartVbn < n.runEndVbn) :
    (∃ l h r, mcb.lookup n = (some h, ⟨.node l h r, mcb.pairCount⟩) ∧ n.Meets h ∧
      mcb.runs = l.toList ++ h :: r.toList) ∨
    (mcb.lookup n = (none, mcb) ∧ ∀ r ∈ mcb.runs, ¬ n.Meets r) := by
  rcases lookup_spec (intersectCompare_splits hn hwf) with
    ⟨l, h, r, heq, hequal, hlist⟩ | ⟨heq, hnone⟩
  · have hmem : h ∈ mcb.runs := by
      rw [BaseMcb.runs, ← hlist]
      simp
    refine .inl ⟨l, h, r, ?_, (intersectCompare_equal hn (hwf.proper h hmem)).1 hequal, hlist.symm⟩
    simp [BaseMcb.lookup, heq]
  · refine .inr ⟨by simp [BaseMcb.lookup, heq], fun r hr hmeets => ?_⟩
    exact hnone r hr ((intersectCompare_equal hn (hwf.proper r hr)).2 hmeets)

theorem delete_root_runs (l r : BinTree Run) (h : Run) (count : Nat) :
    (delete ⟨.node l h r, count⟩ h).runs = l.toList ++ r.toList ∧
      (delete ⟨.node l h r, count⟩ h).pairCount = count - 1 := by
  have hself : mcbMappingCompare h h = .equal := by simp [mcbMappingCompare]
  obtain ⟨t, heq, ht⟩ := delete_root (l := l) (r := r) hself
  exact ⟨by simp [delete, runs, heq, ht], rfl⟩

theorem insert_runs (mcb : BaseMcb) {A B : List Run} (hwf : mcb.WF) (hruns : mcb.runs = A ++ B)
    (hn : n.runStartVbn < n.runEndVbn) (hA : ∀ r ∈ A, r.runEndVbn ≤ n.runStartVbn)
    (hB : ∀ r ∈ B, n.runEndVbn ≤ r.runStartVbn) :
    (mcb.insert true n).runs = A ++ n :: B ∧ (mcb.insert false n).runs = mcb.runs := by
  have hbefore : ∀ r ∈ A, mcbMappingCompare n r = .greaterThan := by
    intro r hr
    have := hA r hr
    have := (hwf.proper r (by simp [hruns, hr])).start_lt
    unfold mcbMappingCompare
    rw [if_neg (by omega), if_neg (by omega), if_pos (by omega)]
  have hbehind : ∀ r ∈ B, mcbMappingCompare n r = .lessThan := by
    intro r hr
    have := hB r hr
    unfold mcbMappingCompare
    rw [if_neg (by omega), if_pos (by omega)]
  obtain ⟨⟨l, r, heq, hl, hr⟩, hnone⟩ := insert_between hruns hbefore hbehind n
  constructor
  · simp [BaseMcb.insert, BaseMcb.runs, heq, hl, hr]
  · simp [BaseMcb.insert, BaseMcb.runs, hnone]

/-! ## Section 3: Removing a range -/

/-- What is left of a run in front of the range. -/
def headRun (n h : Run) : Run := { h with runEndVbn := n.runStartVbn }

/-- What is left of it behind the range. -/
def tailRun (n h : Run) : Run where
  runStartVbn := n.runEndVbn
  runEndVbn := h.runEndVbn
  startingLbn := h.startingLbn + (n.runEndVbn - h.runStartVbn)

/-- The run begins before the range and ends behind it. -/
def Run.Surrounds (h n : Run) : Prop :=
  h.runStartVbn < n.runStartVbn ∧ n.runEndVbn < h.runEndVbn

instance (h n : Run) : Decidable (h.Surrounds n) := inferInstanceAs (Decidable (_ ∧ _))

/-- The parts of a run that remain: the second part of a run that is cut in
    two needs a node. -/
def pieces (alloc : Bool) (n h : Run) : List Run :=
  (if h.runStartVbn < n.runStartVbn then [headRun n h] else []) ++
    if n.runEndVbn < h.runEndVbn ∧ (h.runStartVbn < n.runStartVbn → alloc = true) then
      [tailRun n h] else []

variable {alloc : Bool} {n h : Run}

theorem mem_pieces {q : Run} (hq : q ∈ pieces alloc n h) :
    (q = headRun n h ∧ h.runStartVbn < n.runStartVbn) ∨
      (q = tailRun n h ∧ n.runEndVbn < h.runEndVbn) := by
  rcases mem_append.1 hq with hq | hq
  · grind
  split at hq
  · rename_i hend
    exact .inr ⟨by simpa using hq, hend.1⟩
  · cases hq

theorem pieces_runList (hn : n.runStartVbn < n.runEndVbn) (hmeets : n.Meets h) (hh : h.Proper) :
    RunList (pieces alloc n h) := by
  obtain ⟨hstart, -, hlbn⟩ := hh
  obtain ⟨hm1, hm2⟩ := hmeets
  have hproper : ∀ q ∈ pieces alloc n h, q.Proper := by
    intro q hq
    rcases mem_pieces hq with ⟨rfl, h1⟩ | ⟨rfl, h1⟩
    · exact ⟨hstart, h1, hlbn⟩
    · constructor <;> simp only [tailRun] <;> omega
  refine ⟨?_, hproper⟩
  unfold pieces
  split <;> split
  · simp only [cons_append, nil_append, pairwise_pair, headRun, tailRun]
    omega
  all_goals simp

theorem pieces_inside (hmeets : n.Meets h) :
    ∀ q ∈ pieces alloc n h, h.runStartVbn ≤ q.runStartVbn ∧ q.runEndVbn ≤ h.runEndVbn := by
  intro q hq
  obtain ⟨hm1, hm2⟩ := hmeets
  rcases mem_pieces hq with ⟨rfl, h1⟩ | ⟨rfl, h1⟩
  · simp only [headRun]
    omega
  · simp only [tailRun]
    omega

theorem pieces_apart : ∀ q ∈ pieces alloc n h, ¬ n.Meets q := by
  intro q hq
  unfold Run.Meets
  rcases mem_pieces hq with ⟨rfl, -⟩ | ⟨rfl, -⟩
  · simp [headRun]
  · simp [tailRun]

/-- `PairCount` follows the number of runs while there is a node for the second
    part of a run. -/
theorem pieces_length {count before behind : Nat} (hroom : ¬ h.Surrounds n ∨ alloc = true)
    (hcount : count = before + 1 + behind) :
    (if h.Surrounds n then count + 1
      else if h.runStartVbn < n.runStartVbn ∨ n.runEndVbn < h.runEndVbn then count
      else count - 1) = before + (pieces alloc n h).length + behind := by
  unfold Run.Surrounds at *
  by_cases hstart : h.runStartVbn < n.runStartVbn <;>
    by_cases hend : n.runEndVbn < h.runEndVbn <;>
      simp only [hstart, hend, pieces, and_self, and_true, and_false, false_and, true_and, or_self,
        or_true, true_or, if_true, if_false, not_true, not_false_eq_true, false_or, forall_const,
        length_append, length_nil, length_singleton] at *
  · rw [if_pos hroom]
    simp only [length_singleton]
    omega
  all_goals simp
  all_goals omega

/-- The body of the loop replaces the run by its remaining parts. -/
theorem removeFrom_runs (alloc : Bool) {l r : BinTree Run} (count : Nat)
    (hwf : RunList (l.toList ++ h :: r.toList))
    (hn : n.runStartVbn < n.runEndVbn) :
    (removeFrom alloc n h ⟨.node l h r, count⟩).runs =
      l.toList ++ pieces alloc n h ++ r.toList ∧
    (removeFrom alloc n h ⟨.node l h r, count⟩).pairCount =
      if h.Surrounds n then count + 1
      else if h.runStartVbn < n.runStartVbn ∨ n.runEndVbn < h.runEndVbn then count
      else count - 1 := by
  obtain ⟨-, hh, -, -, hbehind, -⟩ := hwf.around
  unfold removeFrom
  by_cases hstart : h.runStartVbn < n.runStartVbn
  · rw [if_pos hstart]
    by_cases hend : n.runEndVbn < h.runEndVbn
    · -- the range is inside the run
      have hpair : RunList ((l.toList ++ [headRun n h]) ++ r.toList) := by
        refine hwf.replace ?_ ?_
        · exact RunList.cons_iff.2 ⟨⟨hh.1, hstart, hh.3⟩, .nil, by simp⟩
        · simp only [mem_singleton, forall_eq, headRun]
          omega
      have hinsert := insert_runs ⟨.node l (headRun n h) r, count⟩
        (A := l.toList ++ [headRun n h]) (B := r.toList) (n := tailRun n h)
        (by simpa [BaseMcb.WF, runs] using hpair) (by simp [runs]) hend
        (by
          intro q hq
          rcases mem_append.1 hq with hq | hq
          · have := (RunList.around hwf).2.2.2.1 q hq
            simp only [tailRun]
            omega
          · simp only [mem_singleton] at hq
            simp only [hq, headRun, tailRun]
            omega) hbehind
      have heq : (writeFound ⟨.node l h r, count⟩
          { h with runEndVbn := n.runStartVbn }) = ⟨.node l (headRun n h) r, count⟩ := rfl
      rw [if_pos hend, heq, if_pos ⟨hstart, hend⟩]
      refine ⟨?_, rfl⟩
      cases alloc with
      | true =>
        refine hinsert.1.trans ?_
        simp [pieces, hstart, hend]
      | false =>
        refine hinsert.2.trans ?_
        simp [pieces, hstart, runs]
    · rw [if_neg hend, if_neg fun hs => hend hs.2, if_pos (.inl hstart)]
      exact ⟨by simp [runs, writeFound, writeRoot, pieces, hstart, hend, headRun], rfl⟩
  · rw [if_neg hstart]
    by_cases hend : n.runEndVbn < h.runEndVbn
    · rw [if_pos hend, if_neg hstart, if_neg fun hs => hstart hs.1, if_pos (.inr hend)]
      exact ⟨by simp [runs, writeFound, writeRoot, pieces, hstart, hend, tailRun], rfl⟩
    · rw [if_neg hend, if_neg fun hs => hend hs.2, if_neg (by omega)]
      obtain ⟨hruns, hcount⟩ := delete_root_runs l r h count
      exact ⟨by simp [hruns, pieces, hstart, hend], hcount⟩

/-- What the loop leaves of a run. -/
def cut (alloc : Bool) (n h : Run) : List Run :=
  if n.Meets h then pieces alloc n h else [h]

theorem cut_eq_self (l : List Run) (hl : ∀ r ∈ l, ¬ n.Meets r) : l.flatMap (cut alloc n) = l := by
  induction l with
  | nil => rfl
  | cons x l ih =>
    have hx : cut alloc n x = [x] := if_neg (hl x (by simp))
    simp [hx, ih fun r hr => hl r (by simp [hr])]

theorem removeLoop_runs (alloc : Bool) {k : Nat} (hwf : mcb.WF) (hn : n.runStartVbn < n.runEndVbn)
    (hk : mcb.runs.countP (fun r => n.Meets r) < k) :
    ∃ mcb', removeLoop alloc n k mcb = some mcb' ∧ mcb'.WF ∧
      mcb'.runs = mcb.runs.flatMap (cut alloc n) ∧
      ((∀ r ∈ mcb.runs, ¬ r.Surrounds n) ∨ alloc = true →
        mcb.pairCount = mcb.runs.length → mcb'.pairCount = mcb'.runs.length) := by
  -- induction on the number of rounds; each one leaves fewer runs that meet the range
  induction k generalizing mcb with
  | zero => omega
  | succ k ih =>
    rw [removeLoop]
    rcases lookup_cases hwf hn with ⟨l, h, r, heq, hmeets, hruns⟩ | ⟨heq, hnone⟩
    · rw [heq]
      dsimp only
      have hwf' : RunList (l.toList ++ h :: r.toList) := hruns ▸ hwf
      obtain ⟨hbody, hcount⟩ := removeFrom_runs alloc mcb.pairCount hwf' hn
      generalize removeFrom alloc n h ⟨.node l h r, mcb.pairCount⟩ = next at *
      have hnextwf : next.WF := by
        unfold BaseMcb.WF
        rw [hbody]
        exact hwf'.replace (pieces_runList hn hmeets hwf'.around.2.1) (pieces_inside hmeets)
      have hapart : (pieces alloc n h).countP (fun r => decide (n.Meets r)) = 0 := by
        rw [countP_eq_zero]
        intro q hq
        simpa using pieces_apart q hq
      obtain ⟨mcb', hloop, hwf'', hruns', hpairs⟩ := ih hnextwf (by
        rw [hbody, countP_append, countP_append, hapart]
        rw [hruns, countP_append, countP_cons] at hk
        simp only [hmeets, decide_true, if_true] at hk
        omega)
      refine ⟨mcb', hloop, hwf'', ?_, ?_⟩
      · rw [hruns', hbody, hruns]
        simp only [flatMap_append, flatMap_cons]
        rw [cut_eq_self (pieces alloc n h) pieces_apart]
        simp [cut, hmeets]
      intro hroom hpc
      refine hpairs ?_ ?_
      · refine hroom.imp_left fun hnone q hq hsurrounds => ?_
        have hmeetsq : n.Meets q := ⟨by have := hsurrounds.2; omega, by have := hsurrounds.1; omega⟩
        rw [hbody, append_assoc, mem_append, mem_append] at hq
        rcases hq with hq | hq | hq
        · exact hnone q (by simp [hruns, hq]) hsurrounds
        · exact pieces_apart q hq hmeetsq
        · exact hnone q (by simp [hruns, hq]) hsurrounds
      · rw [hcount, hbody, length_append, length_append]
        refine pieces_length (hroom.imp_left fun hnone => hnone h (by simp [hruns])) ?_
        rw [hpc, hruns]
        simp only [length_append, length_cons]
        omega
    · rw [heq]
      refine ⟨mcb, rfl, hwf, (cut_eq_self _ hnone).symm, fun _ hpc => hpc⟩

/-- The range of blocks of a call. -/
abbrev range (vbn sectorCount : Int) : Run := ⟨vbn, vbn + sectorCount, -1⟩

theorem remove_runs (alloc : Bool) (hwf : mcb.WF) {vbn sectorCount : Int} (hvbn : 0 ≤ vbn)
    (hcount : 0 < sectorCount) :
    ∃ mcb', fsRtlRemoveBaseMcbEntry alloc mcb vbn sectorCount = some (mcb', true) ∧ mcb'.WF ∧
      mcb'.runs = mcb.runs.flatMap (cut alloc (range vbn sectorCount)) ∧
      ((∀ r ∈ mcb.runs, ¬ r.Surrounds (range vbn sectorCount)) ∨ alloc = true →
        mcb.pairCount = mcb.runs.length → mcb'.pairCount = mcb'.runs.length) := by
  obtain ⟨mcb', hloop, hspec⟩ := removeLoop_runs alloc (n := range vbn sectorCount)
    (k := mcb.runs.length + 1) hwf (by show vbn < vbn + sectorCount; omega)
    (Nat.lt_succ_of_le countP_le_length)
  refine ⟨mcb', ?_, hspec⟩
  unfold fsRtlRemoveBaseMcbEntry
  rw [if_neg (by omega), if_neg (by omega)]
  show (removeLoop alloc (range vbn sectorCount) (mcb.runs.length + 1) mcb).map _ = _
  rw [hloop]
  rfl

theorem mapsIn_pieces (v b : Int) :
    MapsIn (pieces alloc n h) v b ↔
      (h.runStartVbn < n.runStartVbn ∧ (headRun n h).Maps v b) ∨
      (n.runEndVbn < h.runEndVbn ∧ (h.runStartVbn < n.runStartVbn → alloc = true) ∧
        (tailRun n h).Maps v b) := by
  unfold pieces
  rw [mapsIn_append]
  refine or_congr ?_ ?_
  · split <;> simp [*]
  split
  · rename_i hcond
    simp only [mapsIn_cons, mapsIn_nil, or_false, hcond.1, true_and]
    exact (and_iff_right hcond.2).symm
  · rename_i hcond
    simp only [mapsIn_nil, false_iff]
    exact fun hmaps => hcond ⟨hmaps.1, hmaps.2.1⟩

/-- What the remaining parts of a run map: only the second part of a run that
    is cut in two can be lost. -/
theorem mapsIn_cut (hn : n.runStartVbn < n.runEndVbn) (v b : Int) :
    MapsIn (cut alloc n h) v b ↔ h.Maps v b ∧ ¬ (n.runStartVbn ≤ v ∧ v < n.runEndVbn) ∧
      (alloc = true ∨ ¬ (h.Surrounds n ∧ n.runEndVbn ≤ v)) := by
  unfold cut
  by_cases hmeets : n.Meets h
  · rw [if_pos hmeets, mapsIn_pieces]
    unfold Run.Meets at hmeets
    unfold Run.Surrounds Run.Maps headRun tailRun
    cases alloc <;> simp only [Bool.false_eq_true, imp_false, false_or, true_or, and_true,
      implies_true, true_and] <;> omega
  rw [if_neg hmeets]
  unfold Run.Meets at hmeets
  simp only [mapsIn_cons, mapsIn_nil, or_false]
  unfold Run.Surrounds Run.Maps
  cases alloc <;> simp only [Bool.false_eq_true, false_or, true_or, and_true] <;> omega

theorem mapsIn_flatMap {f : Run → List Run} (l : List Run) (v b : Int) :
    MapsIn (l.flatMap f) v b ↔ ∃ r ∈ l, MapsIn (f r) v b := by
  induction l with
  | nil => simp
  | cons x l ih => simp [ih]

end Mcb
