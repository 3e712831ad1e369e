import ReactOS.Lib.Chain
import ReactOS.Lib.Transition
import ReactOS.Ex.HandleTable

/-! # Handle tables as partial maps

    What a handle table is for: the live handles, each with the entry that was stored for it.  The
    state of a run carries that map beside the table, and the invariant relates the two: the pages
    of the tree, in order, are one table of entries, in which every entry but the first of a page
    is either that of a live handle or on exactly one of the two free lists.

    Creating a handle takes the head of the first list.  If there is none, the last list becomes
    the first, or a page is added whose entries make a list of their own. -/

namespace Ex

open Threaded Transition List HandleTable
open Option hiding or_self

/-! ## Section 1: Entries by handle value -/

variable {v : Nat}

section Slots

variable {p : Platform} {t : HandleTable} {pages : List Nat}

/-- Where the entry of a handle stands. -/
def pointerOf (p : Platform) (pages : List Nat) (v : Nat) : EntryPointer :=
  ⟨pages.getD (v / 4 / p.lowLevelEntries) 0, v / 4 % p.lowLevelEntries⟩

/-- The handle values of the table: every entry of a page but the first. -/
def HandleTable.IsSlot (p : Platform) (t : HandleTable) (v : Nat) : Prop :=
  v % 4 = 0 ∧ v < t.nextHandleNeedingPool ∧ v / 4 % p.lowLevelEntries ≠ 0

theorem pointerOf_clearTag (v : Nat) : pointerOf p pages (v / 4 * 4) = pointerOf p pages v := by
  rw [pointerOf, Nat.mul_div_cancel _ (by decide), pointerOf]

theorem Shape.lookup_eq (h : Shape p t pages) (hv : v / 4 * 4 < t.nextHandleNeedingPool) :
    expLookupHandleTableEntry p t v = some (some (pointerOf p pages v)) := by
  obtain ⟨q, hq, hlookup⟩ := h.lookup hv
  rw [hlookup, pointerOf, getD_eq_getElem?_getD, hq, getD_some]

theorem Shape.pointerOf_inj (h : Shape p t pages) {v' : Nat}
    (hv : v / 4 * 4 < t.nextHandleNeedingPool) (hv' : v' / 4 * 4 < t.nextHandleNeedingPool)
    (heq : pointerOf p pages v = pointerOf p pages v') : v / 4 = v' / 4 := by
  obtain ⟨q, hq, -⟩ := h.lookup hv
  obtain ⟨q', hq', -⟩ := h.lookup hv'
  simp only [pointerOf, List.getD_eq_getElem?_getD, hq, hq', getD_some,
    EntryPointer.mk.injEq] at heq
  have hlt : v / 4 / p.lowLevelEntries < pages.length := (List.getElem?_eq_some_iff.1 hq).1
  have hpage : v / 4 / p.lowLevelEntries = v' / 4 / p.lowLevelEntries := by
    apply (List.getElem?_inj hlt h.nodup).1
    rw [hq, hq', heq.1]
  rw [← Nat.div_add_mod (v / 4) p.lowLevelEntries, hpage, heq.2, Nat.div_add_mod]

theorem Shape.entry_write_ne (h : Shape p t pages) {v' : Nat} (e : HandleTableEntry)
    (hv : v / 4 * 4 < t.nextHandleNeedingPool) (hv' : v' / 4 * 4 < t.nextHandleNeedingPool)
    (hne : v / 4 ≠ v' / 4) :
    (t.writeEntry (pointerOf p pages v) e).entry (pointerOf p pages v') =
      t.entry (pointerOf p pages v') := by
  have hptr : ¬ ((pointerOf p pages v').page = (pointerOf p pages v).page ∧
      (pointerOf p pages v').index = (pointerOf p pages v).index) := by
    intro hboth
    apply hne
    apply h.pointerOf_inj hv hv'
    exact (congrArg₂ EntryPointer.mk hboth.1 hboth.2).symm
  simp only [writeEntry, entry, if_neg hptr]

theorem Shape.congr {t' : HandleTable} (h : Shape p t pages) (hcode : t'.tableCode = t.tableCode)
    (hlimit : t'.nextHandleNeedingPool = t.nextHandleNeedingPool)
    (hmid : t'.midTables = t.midTables) (hhigh : t'.highTables = t.highTables)
    (hpool : t'.pool = t.pool) : Shape p t' pages where
  limit := hlimit.trans h.limit
  nodup := h.nodup
  old := fun q hq => by rw [hpool]; exact h.old q hq
  tree := h.tree.congr hcode hmid hhigh hpool

theorem HandleTable.IsSlot.lt (h : t.IsSlot p v) : v / 4 * 4 < t.nextHandleNeedingPool := by
  obtain ⟨h1, h2, -⟩ := h
  omega

theorem HandleTable.IsSlot.pos (h : t.IsSlot p v) : 0 < v := by
  obtain ⟨h1, h2, h3⟩ := h
  rcases Nat.eq_zero_or_pos v with rfl | hpos
  · exact absurd (Nat.zero_mod _) h3
  · exact hpos

end Slots

/-! ## Section 2: The invariant -/

/-- `NextFreeTableEntry` of the entry of a handle. -/
def linkOf (p : Platform) (t : HandleTable) (pages : List Nat) (v : Nat) : Nat :=
  (t.entry (pointerOf p pages v)).nextFreeTableEntry

/-- The live handles and what was stored for them. -/
abbrev LiveMap := List (Nat × HandleTableEntry)

def LiveMap.handles (live : LiveMap) : List Nat := live.map Prod.fst

/-- The table holds the map, and the rest of its entries is on the free lists. -/
structure Holds (p : Platform) (t : HandleTable) (pages : List Nat) (live : LiveMap)
    (first last : List Nat) : Prop where
  shape : Shape p t pages
  firstChain : Chain id (linkOf p t pages) 0 t.firstFree first
  lastChain : Chain id (linkOf p t pages) 0 t.lastFree last
  nodup : (first ++ last).Nodup
  free : ∀ v, v ∈ first ++ last ↔ t.IsSlot p v ∧ v ∉ live.handles
  cleared : ∀ v ∈ first ++ last, (t.entry (pointerOf p pages v)).value = 0
  reserved : ∀ q ∈ pages, t.lowTables q 0 = ⟨0, reservedMark⟩
  keys : live.handles.Nodup
  slots : ∀ v ∈ live.handles, t.IsSlot p v
  stored : ∀ v e, (v, e) ∈ live → e.value % 2 = 0 ∧
    t.entry (pointerOf p pages v) = ⟨e.value + 1, e.nextFreeTableEntry⟩
  count : t.handleCount = live.length

section Steps

variable {p : Platform} {t t' : HandleTable} {pages : List Nat} {live : LiveMap}
  {first last : List Nat} {v : Nat} {e : HandleTableEntry}
variable {limit x q : Nat}

/-- `t'` is `t` with another entry for one handle. -/
structure Rewritten (p : Platform) (pages : List Nat) (v : Nat) (e : HandleTableEntry)
    (t t' : HandleTable) : Prop where
  shape : Shape p t' pages
  limit : t'.nextHandleNeedingPool = t.nextHandleNeedingPool
  entry : t'.entry (pointerOf p pages v) = e
  frame : ∀ v', t.IsSlot p v' → v' ≠ v →
    t'.entry (pointerOf p pages v') = t.entry (pointerOf p pages v')
  reserved : ∀ q, t'.lowTables q 0 = t.lowTables q 0

theorem rewritten_writeEntry (h : Shape p t pages) (hv : t.IsSlot p v) (e : HandleTableEntry) :
    Rewritten p pages v e t (t.writeEntry (pointerOf p pages v) e) where
  shape := h.congr rfl rfl rfl rfl rfl
  limit := rfl
  entry := entry_writeEntry_self t _ e
  frame := fun v' hv' hne => by
    have h1 := hv.1
    have h2 := hv'.1
    exact h.entry_write_ne e hv.lt hv'.lt (by omega)
  reserved := fun q => if_neg fun hq => hv.2.2 hq.2.symm

namespace Rewritten

section

variable (h : Rewritten p pages v e t t')

include h

theorem isSlot (v' : Nat) : t'.IsSlot p v' ↔ t.IsSlot p v' := by
  rw [HandleTable.IsSlot, HandleTable.IsSlot, h.limit]

/-- The counters and the heads of the lists do not matter. -/
theorem congr {x : HandleTable} (hcode : x.tableCode = t'.tableCode)
    (hlimit : x.nextHandleNeedingPool = t'.nextHandleNeedingPool)
    (hlow : x.lowTables = t'.lowTables) (hmid : x.midTables = t'.midTables)
    (hhigh : x.highTables = t'.highTables) (hpool : x.pool = t'.pool) :
    Rewritten p pages v e t x where
  shape := h.shape.congr hcode hlimit hmid hhigh hpool
  limit := hlimit.trans h.limit
  entry := by
    rw [HandleTable.entry, hlow]
    exact h.entry
  frame := fun v' hv' hne => by
    rw [HandleTable.entry, hlow]
    exact h.frame v' hv' hne
  reserved := fun q => by
    rw [hlow]
    exact h.reserved q

theorem chain {head : Nat} {l : List Nat} (hl : ∀ x ∈ l, t.IsSlot p x ∧ x ≠ v)
    (hc : Chain id (linkOf p t pages) 0 head l) : Chain id (linkOf p t' pages) 0 head l := by
  apply chain_transport hc
  intro x hx
  obtain ⟨hslot, hne⟩ := hl x hx
  exact ⟨rfl, by rw [linkOf, linkOf, h.frame x hslot hne]⟩

end

end Rewritten

theorem Holds.take (h : Holds p t pages live (v :: first) last) (he : e.value % 2 = 0)
    (hw : Rewritten p pages v ⟨e.value + 1, e.nextFreeTableEntry⟩ t t')
    (hfirst : t'.firstFree = linkOf p t pages v) (hlast : t'.lastFree = t.lastFree)
    (hcount : t'.handleCount = t.handleCount + 1) :
    Holds p t' pages ((v, e) :: live) first last := by
  have hnodup := h.nodup
  rw [cons_append, nodup_cons] at hnodup
  have hv := (h.free v).1 (by simp)
  -- the other free handles are not `v`, so their entries stay
  have hslot : ∀ x ∈ first ++ last, t.IsSlot p x ∧ x ≠ v := by
    intro x hx
    refine ⟨((h.free x).1 (by rw [cons_append]; exact mem_cons_of_mem v hx)).1, ?_⟩
    rintro rfl
    exact hnodup.1 hx
  constructor
  case shape => exact hw.shape
  case firstChain =>
    rw [hfirst]
    exact hw.chain (fun x hx => hslot x (mem_append_left last hx)) h.firstChain.2
  case lastChain =>
    rw [hlast]
    exact hw.chain (fun x hx => hslot x (mem_append_right first hx)) h.lastChain
  case nodup => exact hnodup.2
  case free =>
    intro x
    have hiff := h.free x
    rw [cons_append, mem_cons] at hiff
    rw [hw.isSlot, LiveMap.handles, map_cons, mem_cons]
    constructor
    · intro hx
      obtain ⟨hs, hne⟩ := hslot x hx
      exact ⟨hs, by
        rintro (rfl | hmem)
        · exact hne rfl
        · exact (hiff.1 (.inr hx)).2 hmem⟩
    · rintro ⟨hs, hno⟩
      rcases hiff.2 ⟨hs, fun hmem => hno (.inr hmem)⟩ with rfl | hx
      · exact absurd (Or.inl rfl) hno
      · exact hx
  case cleared =>
    intro x hx
    obtain ⟨hs, hne⟩ := hslot x hx
    rw [hw.frame x hs hne]
    exact h.cleared x (by rw [cons_append]; exact mem_cons_of_mem v hx)
  case reserved =>
    intro q hq
    rw [hw.reserved]
    exact h.reserved q hq
  case keys =>
    rw [LiveMap.handles, map_cons, nodup_cons]
    exact ⟨hv.2, h.keys⟩
  case slots =>
    intro x hx
    rw [hw.isSlot]
    rw [LiveMap.handles, map_cons, mem_cons] at hx
    rcases hx with rfl | hx
    · exact hv.1
    · exact h.slots x hx
  case stored =>
    intro x e' hx
    rcases mem_cons.1 hx with heq | hx
    · obtain ⟨rfl, rfl⟩ := Prod.mk.inj heq
      exact ⟨he, hw.entry⟩
    have hkey : x ∈ live.handles := mem_map_of_mem hx
    have hne : x ≠ v := fun hxv => hv.2 (hxv ▸ hkey)
    rw [hw.frame x (h.slots x hkey) hne]
    exact h.stored x e' hx
  case count =>
    rw [hcount, h.count, length_cons]
    rfl

def LiveMap.without (live : LiveMap) (v : Nat) : LiveMap := live.filter fun x => x.1 ≠ v

theorem LiveMap.mem_handles_without (live : LiveMap) (v x : Nat) :
    x ∈ (live.without v).handles ↔ x ∈ live.handles ∧ x ≠ v := by
  simp only [handles, without, List.mem_map, mem_filter, decide_eq_true_eq]
  constructor
  · rintro ⟨a, ⟨ha, hne⟩, rfl⟩
    exact ⟨⟨a, ha, rfl⟩, hne⟩
  · rintro ⟨⟨a, ha, rfl⟩, hne⟩
    exact ⟨a, ⟨ha, hne⟩, rfl⟩

theorem LiveMap.length_without (hnodup : live.handles.Nodup)
    (hv : v ∈ live.handles) : (live.without v).length + 1 = live.length := by
  induction live with
  | nil => cases hv
  | cons a live ih =>
    rw [handles, map_cons, nodup_cons] at hnodup
    by_cases ha : a.1 = v
    · -- No other entry has this handle.
      have hrest : without live v = live := by
        apply filter_eq_self.2
        intro b hb
        have hne : b.1 ≠ v := fun h => hnodup.1 (ha ▸ h ▸ mem_map_of_mem hb)
        simpa using hne
      have hdrop : without (a :: live) v = without live v := by
        simp [without, ha]
      rw [hdrop, hrest, length_cons]
    · have hkeep : without (a :: live) v = a :: without live v := by
        simp [without, ha]
      rw [handles, map_cons, mem_cons] at hv
      rw [hkeep, length_cons, length_cons, ih hnodup.2 (hv.resolve_left (Ne.symm ha))]

theorem Holds.put (h : Holds p t pages live first last) (hv : v ∈ live.handles)
    (hw : Rewritten p pages v ⟨0, t.lastFree⟩ t t') (hfirst : t'.firstFree = t.firstFree)
    (hlast : t'.lastFree = v) (hcount : t'.handleCount = t.handleCount - 1) :
    Holds p t' pages (live.without v) first (v :: last) := by
  -- a live handle is on neither list
  have hnot : v ∉ first ++ last := fun hmem => ((h.free v).1 hmem).2 hv
  have hslot : ∀ x ∈ first ++ last, t.IsSlot p x ∧ x ≠ v := by
    intro x hx
    exact ⟨((h.free x).1 hx).1, fun hxv => hnot (hxv ▸ hx)⟩
  have hmem : ∀ x, x ∈ first ++ v :: last ↔ x = v ∨ x ∈ first ++ last := by
    intro x
    simp only [mem_append, mem_cons]
    exact or_left_comm
  constructor
  case shape => exact hw.shape
  case firstChain =>
    rw [hfirst]
    exact hw.chain (fun x hx => hslot x (mem_append_left last hx)) h.firstChain
  case lastChain =>
    refine ⟨hlast, ?_⟩
    rw [linkOf, hw.entry]
    exact hw.chain (fun x hx => hslot x (mem_append_right first hx)) h.lastChain
  case nodup =>
    rw [nodup_middle, nodup_cons]
    exact ⟨hnot, h.nodup⟩
  case free =>
    intro x
    rw [hmem, hw.isSlot, LiveMap.mem_handles_without, h.free x]
    constructor
    · rintro (rfl | ⟨hs, hno⟩)
      · exact ⟨h.slots x hv, fun hx => hx.2 rfl⟩
      · exact ⟨hs, fun hx => hno hx.1⟩
    · grind
  case cleared =>
    intro x hx
    rcases (hmem x).1 hx with rfl | hx
    · rw [hw.entry]
    · obtain ⟨hs, hne⟩ := hslot x hx
      rw [hw.frame x hs hne]
      exact h.cleared x hx
  case reserved =>
    intro q hq
    rw [hw.reserved]
    exact h.reserved q hq
  case keys => exact (filter_sublist.map Prod.fst).nodup h.keys
  case slots =>
    intro x hx
    rw [hw.isSlot]
    exact h.slots x ((live.mem_handles_without v x).1 hx).1
  case stored =>
    intro x e' hx
    obtain ⟨hx, hne⟩ := mem_filter.1 hx
    have hne : x ≠ v := by simpa using hne
    rw [hw.frame x (h.slots x (mem_map_of_mem hx)) hne]
    exact h.stored x e' hx
  case count =>
    have hlen := LiveMap.length_without h.keys hv
    rw [hcount, h.count]
    omega

theorem Holds.move (h : Holds p t pages live [] last) :
    Holds p { t with firstFree := t.lastFree, lastFree := 0 } pages live last [] where
  shape := h.shape.congr rfl rfl rfl rfl rfl
  firstChain := h.lastChain
  lastChain := rfl
  nodup := by
    rw [append_nil]
    exact h.nodup
  free := by
    rw [append_nil]
    exact h.free
  cleared := by
    rw [append_nil]
    exact h.cleared
  reserved := h.reserved
  keys := h.keys
  slots := h.slots
  stored := h.stored
  count := h.count

/-- The handles of a page that starts at `limit`, without the reserved one. -/
def newSlots (p : Platform) (limit : Nat) : List Nat :=
  (List.range' 1 (p.lowLevelEntries - 1)).map fun i => limit + 4 * i

theorem mem_newSlots :
    x ∈ newSlots p limit ↔ ∃ i, 1 ≤ i ∧ i < p.lowLevelEntries ∧ x = limit + 4 * i := by
  simp only [newSlots, List.mem_map, mem_range'_1]
  constructor
  · rintro ⟨i, hi, rfl⟩
    exact ⟨i, hi.1, by omega, rfl⟩
  · rintro ⟨i, h1, h2, rfl⟩
    exact ⟨i, ⟨h1, by omega⟩, rfl⟩

/-- Entries that each name the next one make a list. -/
theorem chain_range' {link : Nat → Nat} (n : Nat) : ∀ i,
    (∀ j, i ≤ j → j < i + n → link (limit + 4 * j) = limit + 4 * (j + 1)) →
    link (limit + 4 * (i + n)) = 0 →
    Chain id link 0 (limit + 4 * i) ((range' i (n + 1)).map fun i => limit + 4 * i) := by
  induction n with
  | zero =>
    intro i _ hend
    exact ⟨rfl, hend⟩
  | succ n ih =>
    intro i hlinks hend
    rw [range'_succ, map_cons]
    refine ⟨rfl, ?_⟩
    rw [hlinks i (Nat.le_refl i) (by omega)]
    apply ih (i + 1)
    · intro j h1 h2
      exact hlinks j (by omega) (by omega)
    · rw [show i + 1 + n = i + (n + 1) by omega]
      exact hend

theorem nodup_newSlots (p : Platform) (limit : Nat) : (newSlots p limit).Nodup := by
  apply List.Nodup.map
  · intro a b hab
    have hab : limit + 4 * a = limit + 4 * b := hab
    omega
  · exact nodup_range'

theorem Filled.freeList {t0 : HandleTable} (hf : Filled p t0 t q limit 0)
    (hp : ∀ i, i < p.lowLevelEntries → pointerOf p pages (limit + 4 * i) = ⟨q, i⟩) :
    Chain id (linkOf p t pages) 0 (limit + 4) (newSlots p limit) ∧
      ∀ x ∈ newSlots p limit, (t.entry (pointerOf p pages x)).value = 0 := by
  have hlow := p.low_ge
  have hlink : ∀ i, i < p.lowLevelEntries →
      linkOf p t pages (limit + 4 * i) = (t.lowTables q i).nextFreeTableEntry := by
    intro i hi
    rw [linkOf, hp i hi, entry]
  constructor
  · rw [newSlots, show p.lowLevelEntries - 1 = p.lowLevelEntries - 2 + 1 by omega]
    apply chain_range' (p.lowLevelEntries - 2) 1
    · intro j h1 h2
      rw [hlink j (by omega), hf.linked j h1 (by omega)]
    · rw [hlink _ (by omega), show 1 + (p.lowLevelEntries - 2) = p.lowLevelEntries - 1 by omega,
        hf.ended]
  · intro x hx
    obtain ⟨i, h1, h2, rfl⟩ := mem_newSlots.1 hx
    rw [hp i h2, entry]
    by_cases hlast : i + 1 < p.lowLevelEntries
    · rw [hf.linked i h1 hlast]
    · have hi : i = p.lowLevelEntries - 1 := by omega
      rw [hi, hf.ended]

theorem Shape.pointerOf_concat (h : Shape p t pages) (q : Nat)
    (hx : x / 4 * 4 < t.nextHandleNeedingPool) :
    pointerOf p (pages ++ [q]) x = pointerOf p pages x := by
  obtain ⟨a, ha, -⟩ := h.lookup hx
  have hlt : x / 4 / p.lowLevelEntries < pages.length := (List.getElem?_eq_some_iff.1 ha).1
  rw [pointerOf, pointerOf, List.getD_eq_getElem?_getD, List.getD_eq_getElem?_getD,
    List.getElem?_append_left hlt]

theorem pointerOf_new (hlimit : limit = 4 * (p.lowLevelEntries * pages.length)) (q : Nat) {i : Nat}
    (hi : i < p.lowLevelEntries) : pointerOf p (pages ++ [q]) (limit + 4 * i) = ⟨q, i⟩ := by
  have hdiv : (limit + 4 * i) / 4 = p.lowLevelEntries * pages.length + i := by omega
  rw [pointerOf, hdiv, Nat.mul_add_div (by omega), Nat.div_eq_of_lt hi, Nat.add_zero,
    Nat.mul_add_mod, Nat.mod_eq_of_lt hi]
  simp

theorem Grown.entry_old (hg : Grown p t t' q) (h : Shape p t pages)
    (hx : x / 4 * 4 < t.nextHandleNeedingPool) :
    t'.entry (pointerOf p (pages ++ [q]) x) = t.entry (pointerOf p pages x) := by
  rw [h.pointerOf_concat q hx]
  obtain ⟨a, ha, -⟩ := h.lookup hx
  have hlt := h.old a (mem_of_getElem? ha)
  have hnew := hg.new
  have hpage : (pointerOf p pages x).page = a := by
    rw [pointerOf, getD_eq_getElem?_getD, ha, getD_some]
  rw [entry, entry, hpage, hg.filled.frame a (by omega)]

/-- A table with live handles only gets the entries of a page. -/
theorem holds_newPage (hlimit : t.nextHandleNeedingPool = 4 * (p.lowLevelEntries * pages.length))
    (hfilled : Filled p t t' q t.nextHandleNeedingPool 0) (hshape : Shape p t' (pages ++ [q]))
    (hold : ∀ page ∈ pages, t'.lowTables page 0 = ⟨0, reservedMark⟩)
    (hfirst : t'.firstFree = t.nextHandleNeedingPool + 4) (hlast : t'.lastFree = 0)
    (hkeys : live.handles.Nodup) (hslots : ∀ x, x ∈ live.handles ↔ t.IsSlot p x)
    (hstored : ∀ x e, (x, e) ∈ live → e.value % 2 = 0 ∧
      t'.entry (pointerOf p (pages ++ [q]) x) = ⟨e.value + 1, e.nextFreeTableEntry⟩)
    (hcount : t'.handleCount = live.length) :
    Holds p t' (pages ++ [q]) live (newSlots p t.nextHandleNeedingPool) [] := by
  have hlimit' : t'.nextHandleNeedingPool = t.nextHandleNeedingPool + 4 * p.lowLevelEntries := by
    rw [hshape.limit, hlimit, length_append, length_singleton, Nat.mul_add, Nat.mul_one,
      Nat.mul_add]
  obtain ⟨hchain, hcleared⟩ := hfilled.freeList fun i hi => pointerOf_new hlimit q hi
  have hindex : ∀ i, i < p.lowLevelEntries →
      (t.nextHandleNeedingPool + 4 * i) / 4 % p.lowLevelEntries = i := fun i hi =>
    congrArg EntryPointer.index (pointerOf_new hlimit q hi)
  constructor
  case shape => exact hshape
  case firstChain =>
    rw [hfirst]
    exact hchain
  case lastChain => exact hlast
  case nodup =>
    rw [append_nil]
    exact nodup_newSlots p _
  case free =>
    -- A handle from the limit on is one of the new page.
    intro x
    rw [append_nil, mem_newSlots, hslots]
    simp only [HandleTable.IsSlot, hlimit']
    constructor
    · rintro ⟨i, h1, h2, rfl⟩
      exact ⟨⟨by omega, by omega, by rw [hindex i h2]; omega⟩, fun h => by omega⟩
    · rintro ⟨⟨h1, h2, h3⟩, hno⟩
      have hx : ¬ x < t.nextHandleNeedingPool := fun hx => hno ⟨h1, hx, h3⟩
      have heq : x = t.nextHandleNeedingPool + 4 * ((x - t.nextHandleNeedingPool) / 4) := by omega
      rw [heq, hindex _ (by omega)] at h3
      exact ⟨(x - t.nextHandleNeedingPool) / 4, by omega, by omega, heq⟩
  case cleared =>
    rw [append_nil]
    exact hcleared
  case reserved =>
    intro page hpage
    rcases mem_append.1 hpage with hpage | hpage
    · exact hold page hpage
    · rw [mem_singleton.1 hpage]
      exact hfilled.reserved
  case keys => exact hkeys
  case slots =>
    intro x hx
    obtain ⟨h1, h2, h3⟩ := (hslots x).1 hx
    exact ⟨h1, by omega, h3⟩
  case stored => exact hstored
  case count => exact hcount

/-- A table without a free entry gets the entries of a page. -/
theorem Holds.grow (h : Holds p t pages live [] []) (hg : Grown p t t' q)
    (hshape : Shape p t' (pages ++ [q])) :
    Holds p t' (pages ++ [q]) live (newSlots p t.nextHandleNeedingPool) [] := by
  have hfilled := hg.filled
  rw [show t.firstFree = 0 from h.firstChain] at hfilled
  apply holds_newPage h.shape.limit hfilled hshape ?_ hg.firstFree
    (hg.lastFree.trans h.lastChain) h.keys
  · intro x
    refine ⟨h.slots x, fun hs => ?_⟩
    by_contra hno
    exact not_mem_nil ((h.free x).2 ⟨hs, hno⟩)
  · intro x e hx
    rw [hg.entry_old h.shape (h.slots x (mem_map_of_mem hx)).lt]
    exact h.stored x e hx
  · exact hg.handleCount.trans h.count
  · intro page hpage
    have hlt := h.shape.old page hpage
    have hnew := hg.new
    rw [hg.filled.frame page (by omega)]
    exact h.reserved page hpage

/-- A new table: one page, and no handle. -/
theorem holds_exCreateHandleTable (memory : Nat → Nat → HandleTableEntry) :
    Holds p (exCreateHandleTable p memory) [0] [] (newSlots p 0) [] := by
  obtain ⟨t0, ht0⟩ : ∃ t0 : HandleTable, t0 =
    { tableCode := .level0 0, firstFree := 0, lastFree := 0, nextHandleNeedingPool := 0
      handleCount := 0, lowTables := memory, midTables := fun _ _ => none
      highTables := fun _ _ => none, pool := 1 } := ⟨_, rfl⟩
  have h0 : t0.nextHandleNeedingPool = 0 := by rw [ht0]
  have hlimit : t0.nextHandleNeedingPool = 4 * (p.lowLevelEntries * ([] : List Nat).length) := h0
  have hfilled : Filled p t0 (exCreateHandleTable p memory) 0 t0.nextHandleNeedingPool 0 := by
    rw [h0]
    exact (filled_link (p := p) t0 0 0).congr rfl (by rw [ht0]; rfl)
  have hshape : Shape p (exCreateHandleTable p memory) [0] := by
    rw [exCreateHandleTable, linkEntries_eq]
    refine ⟨?_, nodup_singleton 0, fun q hq => ?_, rfl⟩
    · show 4 * p.lowLevelEntries = 4 * (p.lowLevelEntries * 1)
      rw [Nat.mul_one]
    · rw [mem_singleton.1 hq]
      exact Nat.one_pos
  rw [show newSlots p 0 = newSlots p t0.nextHandleNeedingPool by rw [h0]]
  apply holds_newPage hlimit hfilled hshape
  · exact fun page hpage => absurd hpage not_mem_nil
  · rw [h0]
    rfl
  · rw [exCreateHandleTable, linkEntries_eq]
    rfl
  · exact nodup_nil
  · intro x
    simp [LiveMap.handles, HandleTable.IsSlot, h0]
  · intro x e hx
    exact absurd hx not_mem_nil
  · rw [exCreateHandleTable, linkEntries_eq]
    rfl

end Steps

/-! ## Section 3: The operations -/

section Operations

variable {p : Platform} {t : HandleTable} {pages : List Nat} {live : LiveMap}
  {first last : List Nat} {v : Nat} {e : HandleTableEntry}

namespace Holds

/-- The head of a list is a handle, and 0 the end of an empty one. -/
theorem head_eq_zero_iff (h : Holds p t pages live first last) {head : Nat} {l : List Nat}
    (hl : ∀ x ∈ l, x ∈ first ++ last) (hc : Chain id (linkOf p t pages) 0 head l) :
    head = 0 ↔ l = [] := by
  cases l with
  | nil => exact iff_of_true hc rfl
  | cons x l =>
    refine iff_of_false ?_ (cons_ne_nil x l)
    have hpos := ((h.free x).1 (hl x mem_cons_self)).1.pos
    have hx : head = x := hc.1
    omega

/-- The inner loop ends with the head of the first list, which is empty only if the table has no
    room for another page. -/
theorem expFindFreeHandle_spec (h : Holds p t pages live first last) :
    ∃ t' pages' first' last', expFindFreeHandle p t = (t'.firstFree, t') ∧
      Holds p t' pages' live first' last' := by
  have hfirst := h.head_eq_zero_iff (fun x hx => mem_append_left last hx) h.firstChain
  have hlast := h.head_eq_zero_iff (fun x hx => mem_append_right first hx) h.lastChain
  by_cases h0 : t.firstFree = 0
  · obtain rfl := hfirst.1 h0
    by_cases hl0 : t.lastFree = 0
    · -- Both lists are empty.
      obtain rfl := hlast.1 hl0
      have hmoved : expMoveFreeHandles t = (0, t) := by
        simp only [expMoveFreeHandles, hl0, if_true]
        cases t
        simp_all
      have hloop : expFindFreeHandle p t =
          ((expAllocateHandleTableEntrySlow p t true).2.firstFree,
            (expAllocateHandleTableEntrySlow p t true).2) := by
        simp only [expFindFreeHandle, h0, ne_eq, not_true_eq_false, if_false, hmoved]
      rw [hloop]
      rcases expAllocateHandleTableEntrySlow_spec h.shape with hslow | ⟨t', q, hslow, hg, hshape⟩
      · exact ⟨t, pages, [], [], by rw [hslow], h⟩
      · exact ⟨t', pages ++ [q], _, [], by rw [hslow], h.grow hg hshape⟩
    · refine ⟨{ t with firstFree := t.lastFree, lastFree := 0 }, pages, last, [], ?_, h.move⟩
      simp only [expFindFreeHandle, h0, ne_eq, not_true_eq_false, if_false, expMoveFreeHandles, hl0,
        if_true, not_false_eq_true]
  · refine ⟨t, pages, first, last, ?_, h⟩
    simp only [expFindFreeHandle, ne_eq, h0, not_false_eq_true, if_true]

/-- `ExCreateHandle`, once there is a free entry: it takes the head of the first list. -/
theorem exCreateHandle_cons {t1 : HandleTable} (h : Holds p t1 pages live (v :: first) last)
    (hfind : expFindFreeHandle p t = (t1.firstFree, t1)) (he : e.value % 2 = 0) :
    ∃ t', exCreateHandle p t e = some (v, t') ∧ Holds p t' pages ((v, e) :: live) first last := by
  have hv : t1.firstFree = v := h.firstChain.1
  have hslot : t1.IsSlot p v := ((h.free v).1 (by simp)).1
  have hne : v ≠ 0 := Nat.ne_of_gt hslot.pos
  have hodd : e.value / 2 * 2 + 1 = e.value + 1 := by omega
  obtain ⟨t2, ht2⟩ : ∃ t2, t2 = { t1 with
      firstFree := linkOf p t1 pages v, handleCount := t1.handleCount + 1 } := ⟨_, rfl⟩
  refine ⟨t2.writeEntry (pointerOf p pages v) ⟨e.value + 1, e.nextFreeTableEntry⟩, ?_, ?_⟩
  · simp only [exCreateHandle, expAllocateHandleTableEntry, hfind, hv, hne, if_false,
      h.shape.lookup_eq hslot.lt, bind, bind_some, pure, exUnlockHandleTableEntry,
      entry_writeEntry_self, writeEntry_writeEntry, hodd, ht2]
    rfl
  · rw [ht2]
    exact h.take he ((rewritten_writeEntry h.shape hslot _).congr rfl rfl rfl rfl rfl rfl)
      rfl rfl rfl

section Calls

variable (h : Holds p t pages live first last)

include h

/-- `ExCreateHandle` makes one more live handle, unless the table has no room left. -/
theorem exCreateHandle_spec (he : e.value % 2 = 0) :
    ∃ v t' pages' first' last', exCreateHandle p t e = some (v, t') ∧
      Holds p t' pages' (if v = 0 then live else (v, e) :: live) first' last' := by
  obtain ⟨t1, pages1, first1, last1, hfind, h1⟩ := h.expFindFreeHandle_spec
  have hfirst := h1.head_eq_zero_iff (fun x hx => mem_append_left last1 hx) h1.firstChain
  by_cases h0 : t1.firstFree = 0
  · refine ⟨0, t1, pages1, first1, last1, ?_, by rw [if_pos rfl]; exact h1⟩
    simp only [exCreateHandle, expAllocateHandleTableEntry, hfind, h0, if_true, bind, pure,
      bind_some]
  obtain ⟨v, rest, rfl⟩ : ∃ v rest, first1 = v :: rest :=
    exists_cons_of_ne_nil (fun hnil => h0 (hfirst.2 hnil))
  obtain ⟨t', hcreate, h'⟩ := h1.exCreateHandle_cons hfind he
  have hne : v ≠ 0 := Nat.ne_of_gt ((h1.free v).1 (by simp)).1.pos
  exact ⟨v, t', pages1, rest, last1, hcreate, by rw [if_neg hne]; exact h'⟩

theorem exMapHandleToPointer_live (hv : (v, e) ∈ live) :
    exMapHandleToPointer p t v =
      some (some (pointerOf p pages v), t.writeEntry (pointerOf p pages v) e) := by
  have hslot := h.slots v (mem_map_of_mem hv)
  obtain ⟨heven, hentry⟩ := h.stored v e hv
  have hodd : (e.value + 1) % 2 = 1 := by omega
  have hhalf : (e.value + 1) / 2 * 2 = e.value := by omega
  simp only [exMapHandleToPointer, hslot.2.2, if_false, h.shape.lookup_eq hslot.lt, bind,
    bind_some, expLockHandleTableEntry, hentry, hodd, if_true, hhalf, Bool.not_true,
    Bool.false_eq_true, pure]

/-- An entry of a page that is not that of a live handle is a free or the reserved one. -/
theorem value_eq_zero (hlt : v / 4 * 4 < t.nextHandleNeedingPool)
    (hv : v / 4 * 4 ∉ live.handles) : (t.entry (pointerOf p pages v)).value = 0 := by
  by_cases hindex : v / 4 % p.lowLevelEntries = 0
  · obtain ⟨q, hq, -⟩ := h.shape.lookup hlt
    rw [pointerOf, getD_eq_getElem?_getD, hq, getD_some, hindex, entry,
      h.reserved q (mem_of_getElem? hq)]
  · have hslot : t.IsSlot p (v / 4 * 4) := by
      refine ⟨Nat.mul_mod_left _ _, hlt, ?_⟩
      rw [Nat.mul_div_cancel _ (by decide)]
      exact hindex
    rw [← pointerOf_clearTag]
    exact h.cleared _ ((h.free _).2 ⟨hslot, hv⟩)

theorem exMapHandleToPointer_other
    (hv : v / 4 * 4 ∉ live.handles) : exMapHandleToPointer p t v = some (none, t) := by
  by_cases hindex : v / 4 % p.lowLevelEntries = 0
  · simp only [exMapHandleToPointer, hindex, if_true, pure]
  by_cases hlt : v / 4 * 4 < t.nextHandleNeedingPool
  · have hzero := h.value_eq_zero hlt hv
    simp only [exMapHandleToPointer, hindex, if_false, h.shape.lookup_eq hlt, bind,
      bind_some, expLockHandleTableEntry, hzero, Nat.zero_mod, Nat.zero_ne_one, if_true,
      Bool.not_false, pure]
  · simp only [exMapHandleToPointer, expLookupHandleTableEntry, hindex, if_false, ge_iff_le,
      Nat.not_lt.1 hlt, if_true, bind, bind_some, pure]

/-- The end of `ExDestroyHandle` frees the entry, whatever its value was. -/
theorem destroyEntry_spec (hv : v ∈ live.handles)
    (e : HandleTableEntry) :
    Holds p (destroyEntry (t.writeEntry (pointerOf p pages v) e) v (pointerOf p pages v)) pages
      (live.without v) first (v :: last) := by
  have hslot := h.slots v hv
  have htag : v / 4 * 4 = v := by
    have h4 := hslot.1
    omega
  apply h.put hv
  · refine (rewritten_writeEntry h.shape hslot ⟨0, t.lastFree⟩).congr rfl rfl ?_ rfl rfl rfl
    simp only [destroyEntry, expFreeHandleTableEntry, writeEntry_writeEntry]
    funext page index
    by_cases hat : page = (pointerOf p pages v).page ∧ index = (pointerOf p pages v).index
    · simp [writeEntry, entry, hat]
    · simp [writeEntry, hat]
  · rfl
  · exact htag
  · rfl

/-- `ExDestroyHandle` of a live handle that it looks up.  An access mask of the reserved value
    makes it refuse. -/
theorem exDestroyHandle_spec (hv : v ∈ live.handles) :
    ∃ done t' first' last', exDestroyHandle p t v none = some (done, t') ∧
      Holds p t' pages (if done then live.without v else live) first' last' := by
  obtain ⟨⟨v, e⟩, hmem, rfl⟩ := mem_map.1 hv
  have hslot := h.slots v hv
  obtain ⟨heven, hentry⟩ := h.stored v e hmem
  have hodd : (e.value + 1) % 2 = 1 := by omega
  have hhalf : (e.value + 1) / 2 * 2 = e.value := by omega
  by_cases hmark : e.nextFreeTableEntry = reservedMark
  · refine ⟨false, t, first, last, ?_, h⟩
    simp only [exDestroyHandle, h.shape.lookup_eq hslot.lt, bind, bind_some, hentry, hmark,
      or_true, if_true, pure]
  refine ⟨true, _, first, v :: last, ?_, h.destroyEntry_spec hv e⟩
  simp only [exDestroyHandle, h.shape.lookup_eq hslot.lt, bind, bind_some, hentry, hmark,
    Nat.add_one_ne_zero, or_self, if_false, expLockHandleTableEntry, hodd, if_true, hhalf,
    Bool.not_true, Bool.false_eq_true, pure]

end Calls

end Holds

end Operations

/-! ## Section 4: Runs -/

/-- A table with the map that its client has of it. -/
structure ClientState where
  table : HandleTable
  live : LiveMap

/-- The calls of a client; a handle is destroyed by its value, or with the entry that it maps to. -/
inductive HandleCall where
  | create (entry : HandleTableEntry)
  | destroy (handle : Nat)
  | destroyMapped (handle : Nat)
  deriving DecidableEq, Repr

/-- What a call returns. -/
inductive HandleReply where
  | handle (value : Nat)
  | done (result : Bool)
  deriving DecidableEq, Repr

/-- One call, and what the client makes of the reply. -/
def ClientState.call (p : Platform) (s : ClientState) :
    HandleCall → Option (ClientState × HandleReply)
  | .create entry => do
    let (handle, t) ← exCreateHandle p s.table entry
    return (⟨t, if handle = 0 then s.live else (handle, entry) :: s.live⟩, .handle handle)
  | .destroy handle => do
    let (done, t) ← exDestroyHandle p s.table handle none
    return (⟨t, if done then s.live.without handle else s.live⟩, .done done)
  | .destroyMapped handle => do
    let (entry, t) ← exMapHandleToPointer p s.table handle
    let (done, t) ← exDestroyHandle p t handle (some (← entry))
    return (⟨t, if done then s.live.without handle else s.live⟩, .done done)

/-- Entries are stored locked and with an object, as the routines assert; only live handles are
    destroyed. -/
def ClientState.Allowed (s : ClientState) : HandleCall → Prop
  | .create entry => entry.value ≠ 0 ∧ entry.value % 2 = 0
  | .destroy handle => handle ∈ s.live.handles
  | .destroyMapped handle => handle ∈ s.live.handles

/-- The runs of one client on a new table. -/
def handleSystem (p : Platform) : System ClientState HandleCall HandleReply where
  init := fun s => ∃ memory, s = ⟨exCreateHandleTable p memory, []⟩
  legal := ClientState.Allowed
  step := ClientState.call p

/-- The entry that a lookup of the handle ends at. -/
def HandleTable.entryFor (p : Platform) (t : HandleTable) (v : Nat) : Option HandleTableEntry := do
  return t.entry (← ← expLookupHandleTableEntry p t v)

/-- The free lists, linked by handle values: together they have every entry of the pages that is
    neither the first of its page nor in use, and each of them once. -/
def HandleTable.FreeLists (p : Platform) (t : HandleTable) (first last : List Nat) : Prop :=
  Chain id (fun v => ((t.entryFor p v).map (·.nextFreeTableEntry)).getD 0) 0 t.firstFree first ∧
    Chain id (fun v => ((t.entryFor p v).map (·.nextFreeTableEntry)).getD 0) 0 t.lastFree last ∧
    (first ++ last).Nodup ∧
    ∀ v, v ∈ first ++ last ↔ t.IsSlot p v ∧ (t.entryFor p v).map (·.value) = some 0

/-- The table is the map: handles are distinct and not 0, a lookup finds what was stored for a live
    handle and nothing for a value that is not one once its tag bits are cleared, the free lists
    have the rest, and the count is right. -/
structure ClientState.Refines (p : Platform) (s : ClientState) : Prop where
  distinct : s.live.handles.Nodup
  nonzero : 0 ∉ s.live.handles
  found : ∀ v e, (v, e) ∈ s.live →
    ∃ entry t, exMapHandleToPointer p s.table v = some (some entry, t) ∧ t.entry entry = e
  notFound : ∀ v, v / 4 * 4 ∉ s.live.handles →
    exMapHandleToPointer p s.table v = some (none, s.table)
  free : ∃ first last, s.table.FreeLists p first last
  count : s.table.handleCount = s.live.length

section Refinement

variable {p : Platform} {s : ClientState} {pages : List Nat} {first last : List Nat}

namespace Holds

variable (h : Holds p s.table pages s.live first last)

include h

theorem entryFor_eq (hv : s.table.IsSlot p v) :
    s.table.entryFor p v = some (s.table.entry (pointerOf p pages v)) := by
  simp only [entryFor, h.shape.lookup_eq hv.lt, bind, bind_some, pure]

theorem refines : s.Refines p := by
  have hlists : ∀ x ∈ first ++ last, s.table.IsSlot p x := fun x hx => ((h.free x).1 hx).1
  have hchain : ∀ {head : Nat} {l : List Nat}, (∀ x ∈ l, x ∈ first ++ last) →
      Chain id (linkOf p s.table pages) 0 head l →
      Chain id (fun v => ((s.table.entryFor p v).map (·.nextFreeTableEntry)).getD 0) 0 head l := by
    intro head l hl hc
    apply chain_transport hc
    intro x hx
    refine ⟨rfl, ?_⟩
    rw [h.entryFor_eq (hlists x (hl x hx))]
    rfl
  constructor
  case distinct => exact h.keys
  case nonzero =>
    intro h0
    exact absurd (h.slots 0 h0).pos (Nat.lt_irrefl 0)
  case found =>
    intro v e hv
    exact ⟨_, _, h.exMapHandleToPointer_live hv, entry_writeEntry_self _ _ _⟩
  case notFound =>
    intro v hv
    exact h.exMapHandleToPointer_other hv
  case free =>
    refine ⟨first, last, hchain (fun x hx => mem_append_left last hx) h.firstChain,
      hchain (fun x hx => mem_append_right first hx) h.lastChain, h.nodup, fun v => ?_⟩
    rw [h.free v]
    apply and_congr_right
    intro hslot
    rw [h.entryFor_eq hslot, map_some, some.injEq]
    constructor
    · intro hno
      exact h.cleared v ((h.free v).2 ⟨hslot, hno⟩)
    · intro hzero hkey
      obtain ⟨⟨v, e⟩, hmem, rfl⟩ := mem_map.1 hkey
      rw [(h.stored v e hmem).2] at hzero
      exact absurd hzero (Nat.succ_ne_zero _)
  case count => exact h.count

theorem call {c : HandleCall} (hc : s.Allowed c) :
    ∃ s' r pages' first' last', s.call p c = some (s', r) ∧
      Holds p s'.table pages' s'.live first' last' := by
  cases c with
  | create e =>
    obtain ⟨v, t', pages', first', last', hcreate, h'⟩ := h.exCreateHandle_spec hc.2
    refine ⟨⟨t', if v = 0 then s.live else (v, e) :: s.live⟩, .handle v, pages', first', last', ?_,
      h'⟩
    simp only [ClientState.call, hcreate, bind, bind_some, pure]
  | destroy v =>
    obtain ⟨done, t', first', last', hdestroy, h'⟩ := h.exDestroyHandle_spec hc
    refine ⟨⟨t', if done then s.live.without v else s.live⟩, .done done, pages, first', last', ?_,
      h'⟩
    simp only [ClientState.call, hdestroy, bind, bind_some, pure]
  | destroyMapped v =>
    have hv : v ∈ s.live.handles := hc
    obtain ⟨⟨v, e⟩, hmem, rfl⟩ := mem_map.1 hv
    refine ⟨⟨destroyEntry (s.table.writeEntry (pointerOf p pages v) e) v (pointerOf p pages v),
      s.live.without v⟩, .done true, pages, first, v :: last, ?_, h.destroyEntry_spec hv e⟩
    simp only [ClientState.call, h.exMapHandleToPointer_live hmem, exDestroyHandle, bind,
      bind_some, pure, if_true]

end Holds

theorem reachable_holds (hs : Reachable (handleSystem p) (fun _ _ => True) s) :
    ∃ pages first last, Holds p s.table pages s.live first last := by
  refine Reachable.invariant_of_steps (I := fun s => ∃ pages first last,
    Holds p s.table pages s.live first last) ?_ ?_ hs
  · rintro s ⟨memory, rfl⟩
    exact ⟨[0], newSlots p 0, [], holds_exCreateHandleTable memory⟩
  · rintro s c ⟨pages, first, last, h⟩ hlegal -
    obtain ⟨s', r, pages', first', last', hcall, h'⟩ := h.call hlegal
    exact ⟨s', r, hcall, pages', first', last', h'⟩

end Refinement

theorem Holds.create {p : Platform} {s : ClientState} {pages first last : List Nat} {v : Nat}
    {e : HandleTableEntry} (h : Holds p s.table pages s.live (v :: first) last)
    (hs : Reachable (handleSystem p) (fun _ _ => True) s) (he : e.value ≠ 0)
    (heven : e.value % 2 = 0) :
    ∃ s' : ClientState, Reachable (handleSystem p) (fun _ _ => True) s' ∧
      s'.live = (v, e) :: s.live ∧ Holds p s'.table pages s'.live first last := by
  have hv : s.table.firstFree = v := h.firstChain.1
  have hpos := ((h.free v).1 (by simp)).1.pos
  have hfind : expFindFreeHandle p s.table = (s.table.firstFree, s.table) := by
    rw [expFindFreeHandle, if_pos (by omega)]
  obtain ⟨t, hcreate, h'⟩ := h.exCreateHandle_cons hfind heven
  have hcall : (handleSystem p).step s (.create e) = some (⟨t, (v, e) :: s.live⟩, .handle v) := by
    simp only [handleSystem, ClientState.call, hcreate, bind, bind_some, pure,
      if_neg (Nat.ne_of_gt hpos)]
  have hallowed : (handleSystem p).legal s (.create e) := ⟨he, heven⟩
  exact ⟨_, .step hs hallowed trivial hcall, rfl, h'⟩

theorem exists_two_handles : ∃ s : ClientState, Reachable (handleSystem .x86) (fun _ _ => True) s ∧
    s.live = [(8, ⟨16, 3⟩), (4, ⟨8, 1⟩)] := by
  have h : Holds .x86 (exCreateHandleTable .x86 fun _ _ => ⟨0, 0⟩) [0] []
      (4 :: 8 :: (range' 3 509).map fun i => 0 + 4 * i) [] := holds_exCreateHandleTable _
  obtain ⟨s₁, hs₁, hlive₁, h₁⟩ := Holds.create (s := ⟨_, []⟩) (e := ⟨8, 1⟩) h (.init ⟨_, rfl⟩)
    (by decide) (by decide)
  obtain ⟨s₂, hs₂, hlive₂, -⟩ := h₁.create (e := ⟨16, 3⟩) hs₁ (by decide) (by decide)
  exact ⟨s₂, hs₂, by rw [hlive₂, hlive₁]⟩

/-- In every run of creations and destructions by one client, `ExDestroyHandle` of a value that is
    not a live handle once its tag bits are cleared, such as one that has been destroyed before,
    fails and changes nothing. -/
theorem exDestroyHandle_dead (p : Platform) {s : ClientState}
    (hs : Reachable (handleSystem p) (fun _ _ => True) s) (hv : v / 4 * 4 ∉ s.live.handles) :
    exDestroyHandle p s.table v none = some (false, s.table) := by
  obtain ⟨pages, first, last, h⟩ := reachable_holds hs
  by_cases hlt : v / 4 * 4 < s.table.nextHandleNeedingPool
  · simp only [exDestroyHandle, h.shape.lookup_eq hlt, bind, bind_some, h.value_eq_zero hlt hv,
      true_or, if_true, pure]
  · simp only [exDestroyHandle, expLookupHandleTableEntry, ge_iff_le, Nat.not_lt.1 hlt, if_true,
      bind, bind_some, pure]

theorem exDestroyHandle_dead_twelve :
    ∃ s : ClientState, s.live.handles = [8, 4] ∧
      exDestroyHandle .x86 s.table 12 none = some (false, s.table) := by
  obtain ⟨s, hs, hlive⟩ := exists_two_handles
  have hhandles : s.live.handles = [8, 4] := by
    rw [hlive]
    rfl
  exact ⟨s, hhandles, exDestroyHandle_dead .x86 hs (by simp [hhandles])⟩

end Ex
