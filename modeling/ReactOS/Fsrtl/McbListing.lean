import ReactOS.Fsrtl.McbRuns

/-! # Listing a mapped control block

    `FsRtlGetNextBaseMcbEntry` lists the runs by index, and puts in an entry
    for every hole in front of a run.  The other queries count runs and holes
    themselves; here they are all read off one list. -/

namespace Mcb

open List Option BaseMcb

open LinkedTree (BinTree)
open GenericTable

/-! ## Section 1: The list of the entries -/

/-- An entry of the listing: first block, logical block or -1, and length. -/
abbrev Entry := Int × Int × Int

/-- The entry of a run. -/
def Run.entry (r : Run) : Entry := (r.runStartVbn, r.startingLbn, r.runEndVbn - r.runStartVbn)

/-- The block is one of the entry. -/
def Covers (e : Entry) (v : Int) : Prop := e.1 ≤ v ∧ v < e.1 + e.2.2

/-- The entries from block `last` on. -/
def entries : Int → List Run → List Entry
  | _, [] => []
  | last, r :: rs =>
    (if r.runStartVbn > last then [(last, -1, r.runStartVbn - last)] else []) ++
      r.entry :: entries r.runEndVbn rs

theorem walk_listRun (i : Nat) (l : List Run) {s : Listing} (hnone : s.result = none)
    (hi : s.currentIndex ≤ i) :
    (walk (listRun i) l s).1 = l ∧ (walk (listRun i) l s).2.result =
      (entries (s.lastVbn + s.lastSectorCount) l)[i - s.currentIndex]? := by
  induction l generalizing s with
  | nil => exact ⟨rfl, by simpa [walk, entries] using hnone⟩
  | cons r l ih =>
    obtain ⟨current, lastVbn, lastCount, result⟩ := s
    subst hnone
    dsimp only at hi
    -- the next round, at an index that is not behind the one that is looked for
    have hnext : ∀ c ≤ i, (walk (listRun i) l ⟨c, r.runStartVbn, r.runEndVbn - r.runStartVbn,
        none⟩).1 = l ∧ (walk (listRun i) l ⟨c, r.runStartVbn, r.runEndVbn - r.runStartVbn,
        none⟩).2.result = (entries r.runEndVbn l)[i - c]? := by
      intro c hc
      have h := ih (s := ⟨c, r.runStartVbn, r.runEndVbn - r.runStartVbn, none⟩) rfl hc
      simpa only [show r.runStartVbn + (r.runEndVbn - r.runStartVbn) = r.runEndVbn by omega] using h
    rw [walk, entries]
    by_cases hhole : r.runStartVbn > lastVbn + lastCount
    · by_cases hhere : i = current
      · subst hhere
        simp [listRun, hhole, Run.entry]
      by_cases hrun : i = current + 1
      · subst hrun
        simp [listRun, hhole, Run.entry]
      obtain ⟨j, rfl⟩ : ∃ j, i = current + 2 + j := ⟨i - current - 2, by omega⟩
      obtain ⟨hlist, hres⟩ := hnext (current + 2) (by omega)
      have hbody : listRun (current + 2 + j) r ⟨current, lastVbn, lastCount, none⟩ =
          .next r ⟨current + 2, r.runStartVbn, r.runEndVbn - r.runStartVbn, none⟩ := by
        simp only [listRun, hhole, hhere, hrun, and_false, if_false, if_true]
      rw [hbody]
      dsimp only
      rw [hlist, hres]
      simp [hhole, show current + 2 + j - current = j + 2 by omega]
    · by_cases hrun : i = current
      · subst hrun
        simp [listRun, hhole, Run.entry]
      obtain ⟨j, rfl⟩ : ∃ j, i = current + 1 + j := ⟨i - current - 1, by omega⟩
      obtain ⟨hlist, hres⟩ := hnext (current + 1) (by omega)
      have hbody : listRun (current + 1 + j) r ⟨current, lastVbn, lastCount, none⟩ =
          .next r ⟨current + 1, r.runStartVbn, r.runEndVbn - r.runStartVbn, none⟩ := by
        simp only [listRun, hhole, hrun, false_and, if_false]
      rw [hbody]
      dsimp only
      rw [hlist, hres]
      simp [hhole, show current + 1 + j - current = j + 1 by omega]

/-- A query leaves the runs as they are, though not the tree. -/
structure SameRuns (mcb mcb' : BaseMcb) : Prop where
  runs : mcb'.runs = mcb.runs
  pairCount : mcb'.pairCount = mcb.pairCount

theorem SameRuns.trans {a b c : BaseMcb} (h : SameRuns a b) (h' : SameRuns b c) : SameRuns a c :=
  ⟨h'.runs.trans h.runs, h'.pairCount.trans h.pairCount⟩

/-- The listing of an MCB. -/
def BaseMcb.listing (mcb : BaseMcb) : List Entry := entries 0 mcb.runs

theorem SameRuns.listing {a b : BaseMcb} (h : SameRuns a b) : b.listing = a.listing := by
  rw [BaseMcb.listing, h.runs, BaseMcb.listing]

theorem enumerate_runs {σ : Type} (mcb : BaseMcb) (body : Run → σ → Visit Run σ) (s : σ) :
    ∃ mcb', mcb.enumerate body s = some (mcb', (walk body mcb.runs s).2) ∧
      mcb'.runs = (walk body mcb.runs s).1 ∧ mcb'.pairCount = mcb.pairCount := by
  obtain ⟨t, heq, ht⟩ := enumerate_spec body (k := mcb.table.toList.length + 1) (t := mcb.table) s
    (Nat.lt_succ_self _)
  exact ⟨⟨t, mcb.pairCount⟩, by simp [BaseMcb.enumerate, heq, BaseMcb.runs], ht, rfl⟩

theorem getNext_listing (mcb : BaseMcb) (i : Nat) :
    ∃ mcb', fsRtlGetNextBaseMcbEntry mcb i = some (mcb', mcb.listing[i]?) ∧ SameRuns mcb mcb' := by
  obtain ⟨mcb', heq, hruns, hcount⟩ := enumerate_runs mcb (listRun i) ⟨0, 0, 0, none⟩
  obtain ⟨hlist, hres⟩ := walk_listRun i mcb.runs (s := ⟨0, 0, 0, none⟩) rfl (Nat.zero_le _)
  refine ⟨mcb', ?_, hruns.trans hlist, hcount⟩
  rw [fsRtlGetNextBaseMcbEntry, heq]
  simpa [listing] using hres

/-- The call of a loop that goes on with the next index; `L` is left of the listing. -/
theorem getNext_drop {mcb : BaseMcb} {i : Nat} {L : List Entry} (hL : mcb.listing.drop i = L) :
    ∃ mcb', fsRtlGetNextBaseMcbEntry mcb i = some (mcb', L.head?) ∧ SameRuns mcb mcb' ∧
      mcb'.listing.drop (i + 1) = L.tail := by
  obtain ⟨mcb', heq, hsame⟩ := getNext_listing mcb i
  refine ⟨mcb', ?_, hsame, ?_⟩
  · rw [heq, ← hL, head?_drop]
  · rw [hsame.listing, ← hL, tail_drop]

theorem length_entries_le (last : Int) (l : List Run) : (entries last l).length ≤ 2 * l.length := by
  induction l generalizing last with
  | nil => simp [entries]
  | cons r l ih =>
    have := ih r.runEndVbn
    rw [entries]
    split <;> simp <;> omega

theorem countLoop_listing {k i : Nat} {mcb : BaseMcb} {L : List Entry}
    (hL : mcb.listing.drop i = L) (hk : L.length < k) :
    ∃ mcb', countLoop k i mcb = some (mcb', i + L.length) ∧ SameRuns mcb mcb' := by
  induction L generalizing i k mcb with
  | nil =>
    obtain _ | k := k
    · cases hk
    obtain ⟨mcb1, heq, hsame, -⟩ := getNext_drop hL
    exact ⟨mcb1, by rw [countLoop, heq]; rfl, hsame⟩
  | cons e L ih =>
    obtain _ | k := k
    · cases hk
    obtain ⟨mcb1, heq, hsame, hrest⟩ := getNext_drop hL
    obtain ⟨mcb', hrun, hsame'⟩ := ih hrest (Nat.lt_of_succ_lt_succ hk)
    refine ⟨mcb', ?_, hsame.trans hsame'⟩
    rw [countLoop, heq, length_cons, Nat.add_comm L.length, ← Nat.add_assoc]
    exact hrun

theorem numberOfRuns_listing (mcb : BaseMcb) :
    ∃ mcb', fsRtlNumberOfRunsInBaseMcb mcb = some (mcb', mcb.listing.length) ∧
      SameRuns mcb mcb' := by
  rw [← Nat.zero_add mcb.listing.length]
  exact countLoop_listing drop_zero (Nat.lt_succ_of_le (length_entries_le 0 _))

/-! ## Section 2: Lookup -/

/-- What is reported about a block of the entry with index `i`. -/
def report (vbn : Int) (i : Nat) (e : Entry) : Found where
  lbn := if e.2.1 = -1 then -1 else e.2.1 + (vbn - e.1)
  sectorCountFromLbn := e.1 + e.2.2 - vbn
  startingLbn := e.2.1
  sectorCountFromStartingLbn := e.1 + e.2.2 - e.1
  index := i

/-- The first entry that ends behind the block. -/
def foundIn (vbn : Int) : Nat → List Entry → Option Found
  | _, [] => none
  | i, e :: es => if vbn < e.1 + e.2.2 then some (report vbn i e) else foundIn vbn (i + 1) es

theorem lookupLoop_listing (vbn : Int) {k i : Nat} {mcb : BaseMcb} {L : List Entry}
    (hL : mcb.listing.drop i = L) (hk : L.length < k) :
    ∃ mcb', lookupLoop vbn k i mcb = some (mcb', foundIn vbn i L) ∧ SameRuns mcb mcb' := by
  induction L generalizing i k mcb with
  | nil =>
    obtain _ | k := k
    · cases hk
    obtain ⟨mcb1, heq, hsame, -⟩ := getNext_drop hL
    exact ⟨mcb1, by rw [lookupLoop, heq]; rfl, hsame⟩
  | cons e L ih =>
    obtain _ | k := k
    · cases hk
    obtain ⟨mcb1, heq, hsame, hrest⟩ := getNext_drop hL
    obtain ⟨mcb', hrun, hsame'⟩ := ih hrest (Nat.lt_of_succ_lt_succ hk)
    rw [lookupLoop, heq, foundIn]
    dsimp only [bind_eq_bind, bind_some, head?_cons]
    split
    · exact ⟨mcb1, rfl, hsame⟩
    · exact ⟨mcb', hrun, hsame.trans hsame'⟩

theorem lookup_listing (mcb : BaseMcb) (vbn : Int) :
    ∃ mcb', fsRtlLookupBaseMcbEntry mcb vbn = some (mcb', foundIn vbn 0 mcb.listing) ∧
      SameRuns mcb mcb' :=
  lookupLoop_listing vbn drop_zero (Nat.lt_succ_of_le (length_entries_le 0 _))

/-! ## Section 3: The listing of disjoint runs -/

section Disjoint

variable {last : Int} {l : List Run}

/-- The loop of `FsRtlLookupLastLargeMcbEntryAndIndex_internal` counts the
    entries and keeps the last run. -/
theorem walk_lastRun (l : List Run) (i : Nat) (last : Int) (found : Option Run) :
    (walk lastRun l (i, last, found)).1 = l ∧
      (walk lastRun l (i, last, found)).2.1 = i + (entries last l).length ∧
      (walk lastRun l (i, last, found)).2.2.2 = l.getLast?.or found := by
  induction l generalizing i last found with
  | nil => simp [walk, entries]
  | cons r l ih =>
    rw [walk, entries]
    dsimp only [lastRun]
    obtain ⟨hlist, hcount, hfound⟩ :=
      ih ((if r.runStartVbn > last then i + 1 else i) + 1) r.runEndVbn (some r)
    refine ⟨by rw [hlist], ?_, ?_⟩
    · rw [hcount]
      split <;> simp <;> omega
    · rw [hfound, getLast?_cons]
      cases l.getLast? <;> rfl

theorem getLast?_entries (last : Int) (l : List Run) :
    (entries last l).getLast? = l.getLast?.map Run.entry := by
  induction l generalizing last with
  | nil => rfl
  | cons r l ih =>
    rw [entries, getLast?_append, getLast?_cons, ih, getLast?_cons]
    cases l.getLast? <;> rfl

theorem lookupLast_listing (mcb : BaseMcb) :
    ∃ mcb', fsRtlLookupLastBaseMcbEntryAndIndex mcb = some (mcb', mcb.listing.getLast?.map fun e =>
      (e.1 + e.2.2 - 1, e.2.1 + e.2.2 - 1, mcb.listing.length - 1)) ∧ SameRuns mcb mcb' := by
  obtain ⟨mcb', heq, hruns, hcount⟩ := enumerate_runs mcb lastRun (0, 0, none)
  obtain ⟨hlist, hlength, hlast⟩ := walk_lastRun mcb.runs 0 0 none
  refine ⟨mcb', ?_, hruns.trans hlist, hcount⟩
  rw [fsRtlLookupLastBaseMcbEntryAndIndex, heq]
  generalize walk lastRun mcb.runs (0, 0, none) = w at *
  obtain ⟨w1, w2, w3, w4⟩ := w
  subst hlength hlast
  rw [listing, getLast?_entries]
  cases mcb.runs.getLast? with
  | none => rfl
  | some r =>
    simp only [Option.map_some, Option.or, Run.entry, Nat.zero_add, Option.some.injEq,
      Prod.mk.injEq, true_and]
    exact ⟨by omega, trivial⟩

/-- Each entry starts where the one before it ends. -/
def Chained : Int → List Entry → Prop
  | _, [] => True
  | start, e :: es => e.1 = start ∧ 0 < e.2.2 ∧ Chained (e.1 + e.2.2) es

theorem chained_entries (hl : RunList l) (hlast : ∀ r ∈ l, last ≤ r.runStartVbn) :
    Chained last (entries last l) := by
  induction l generalizing last with
  | nil => trivial
  | cons x l ih =>
    obtain ⟨hx, hl', hbehind⟩ := RunList.cons_iff.1 hl
    have hstart := hx.start_lt
    have hx := hlast x (by simp)
    have hrest : Chained (x.entry.1 + x.entry.2.2) (entries x.runEndVbn l) := by
      rw [show x.entry.1 + x.entry.2.2 = x.runEndVbn by simp only [Run.entry]; omega]
      exact ih hl' hbehind
    rw [entries]
    split
    · refine ⟨rfl, by dsimp only; omega, ?_, by simp only [Run.entry]; omega, hrest⟩
      simp only [Run.entry]
      omega
    · exact ⟨by simp only [Run.entry]; omega, by simp only [Run.entry]; omega, hrest⟩

theorem Chained.le_of_mem {start : Int} {es : List Entry} (h : Chained start es) :
    ∀ e ∈ es, start ≤ e.1 ∧ 0 < e.2.2 := by
  induction es generalizing start with
  | nil => simp
  | cons x es ih =>
    obtain ⟨hx, hpos, hrest⟩ := h
    intro e he
    rcases mem_cons.1 he with rfl | he
    · omega
    · have := ih hrest e he
      omega

theorem Chained.next {start : Int} {es : List Entry} (h : Chained start es) {i : Nat} {e e' : Entry}
    (he : es[i]? = some e) (he' : es[i + 1]? = some e') : e'.1 = e.1 + e.2.2 := by
  induction es generalizing start i with
  | nil => simp at he
  | cons x es ih =>
    obtain ⟨-, -, hrest⟩ := h
    cases i with
    | succ i => exact ih hrest (by simpa using he) (by simpa using he')
    | zero =>
      cases es with
      | nil => simp at he'
      | cons y es =>
        obtain rfl : x = e := by simpa using he
        obtain rfl : y = e' := by simpa using he'
        exact hrest.1

theorem Chained.foundIn {start v : Int} {es : List Entry} (h : Chained start es) (hv : start ≤ v)
    (i : Nat) :
    (∃ j e, es[j]? = some e ∧ Covers e v ∧ foundIn v i es = some (report v (i + j) e)) ∨
      (foundIn v i es = none ∧ ∀ e ∈ es, ¬ Covers e v) := by
  induction es generalizing start i with
  | nil => exact .inr ⟨rfl, by simp⟩
  | cons x es ih =>
    obtain ⟨hx, -, hrest⟩ := h
    rw [Mcb.foundIn]
    split
    · rename_i hlt
      exact .inl ⟨0, x, rfl, ⟨by omega, hlt⟩, rfl⟩
    rename_i hge
    rcases ih hrest (by omega) (i + 1) with ⟨j, e, he, hcovers, heq⟩ | ⟨heq, hnone⟩
    · exact .inl ⟨j + 1, e, by simpa using he, hcovers, by
        rw [heq, show i + 1 + j = i + (j + 1) by omega]⟩
    exact .inr ⟨heq, forall_mem_cons.2 ⟨fun hcovers => hge hcovers.2, hnone⟩⟩

theorem entries_kind (hl : RunList l) (hlast : ∀ r ∈ l, last ≤ r.runStartVbn) :
    ∀ e ∈ entries last l, (∃ r ∈ l, e = r.entry) ∨
      (e.2.1 = -1 ∧ ∀ v, Covers e v → ∀ b, ¬ MapsIn l v b) := by
  induction l generalizing last with
  | nil => simp [entries]
  | cons x l ih =>
    obtain ⟨hx, hl', hbehind⟩ := RunList.cons_iff.1 hl
    intro e he
    rw [entries, mem_append, mem_cons] at he
    rcases he with he | rfl | he
    · -- the hole in front of the first run
      split at he
      · obtain rfl := mem_singleton.1 he
        refine .inr ⟨rfl, fun v hcovers b hmaps => ?_⟩
        obtain ⟨r, hr, hr1, -⟩ := hmaps
        have hle : x.runStartVbn ≤ r.runStartVbn := by
          rcases mem_cons.1 hr with rfl | hr
          · omega
          · have := hbehind r hr
            have := hx.start_lt
            omega
        have := hcovers.2
        dsimp only at this
        omega
      · cases he
    · exact .inl ⟨x, by simp, rfl⟩
    · rcases ih hl' hbehind e he with ⟨r, hr, rfl⟩ | ⟨hlbn, hhole⟩
      · exact .inl ⟨r, by simp [hr], rfl⟩
      refine .inr ⟨hlbn, fun v hcovers b hmaps => ?_⟩
      rw [mapsIn_cons] at hmaps
      rcases hmaps with hmaps | hmaps
      · have hle := ((chained_entries hl' hbehind).le_of_mem e he).1
        have := hmaps.2.1
        have := hcovers.1
        omega
      · exact hhole v hcovers b hmaps

theorem entry_mem_entries {r : Run} (hr : r ∈ l) : r.entry ∈ entries last l := by
  induction l generalizing last with
  | nil => cases hr
  | cons x l ih =>
    rw [entries]
    rcases mem_cons.1 hr with rfl | hr
    · simp
    · exact mem_append_right _ (mem_cons_of_mem _ (ih hr))

theorem entries_cover (hl : RunList l) {v : Int} (hv : last ≤ v) :
    (∃ e ∈ entries last l, Covers e v) ↔ ∃ r ∈ l, v < r.runEndVbn := by
  induction l generalizing last with
  | nil => simp [entries]
  | cons x l ih =>
    obtain ⟨hx, hl', -⟩ := RunList.cons_iff.1 hl
    have hstart := hx.start_lt
    rw [entries]
    by_cases hend : v < x.runEndVbn
    · refine iff_of_true ?_ ⟨x, by simp, hend⟩
      by_cases hrun : x.runStartVbn ≤ v
      · exact ⟨x.entry, by simp, hrun, by simp only [Run.entry]; omega⟩
      · refine ⟨(last, -1, x.runStartVbn - last), ?_, hv, by dsimp only; omega⟩
        rw [if_pos (by omega)]
        simp
    have hrest := ih hl' (show x.runEndVbn ≤ v by omega)
    constructor
    · rintro ⟨e, he, hcovers⟩
      rw [mem_append, mem_cons] at he
      rcases he with he | rfl | he
      · split at he
        · obtain rfl := mem_singleton.1 he
          have := hcovers.2
          dsimp only at this
          omega
        · cases he
      · have := hcovers.2
        simp only [Run.entry] at this
        omega
      · obtain ⟨r, hr, hlt⟩ := hrest.1 ⟨e, he, hcovers⟩
        exact ⟨r, by simp [hr], hlt⟩
    · grind

end Disjoint

end Mcb
