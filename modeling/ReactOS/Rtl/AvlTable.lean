import ReactOS.Lib.Cursor
import ReactOS.Rtl.AvlSupport

/-! # Generic tables on AVL trees

    `avltable.c`: tables whose elements are compared by a routine of the caller and live in blocks
    that another routine of the caller hands out.  The table keeps a restart key, the node its
    enumeration returned last, and moves it to the predecessor when that node is deleted.

    The comparison routine is a parameter of every function.  A block that the allocator returns
    is a parameter too; the blocks in use are part of the state, so that the allocator's contract
    (it never returns one of them, or the table itself) can be stated. -/

namespace Rtl

open LinkedTree Transition List Option Cursor

variable {ν κ : Type} [DecidableEq ν]

/-! ## Section 1: The functions -/

/-- `RTL_AVL_TABLE`, with the data behind each node and the blocks that are in use. -/
structure GenericTableAvl (ν κ : Type) extends AvlTable ν where
  userData : ν → κ
  restartKey : Option ν
  orderedPointer : Option ν
  whichOrderedElement : Nat
  deleteCount : Nat
  blocks : List ν

namespace GenericTableAvl

/-- What `RtlpAvlCompareRoutine` answers at each node. -/
def compareRoutine (t : GenericTableAvl ν κ) (cmp : κ → κ → Ordering) (buffer : κ) (n : ν) :
    Ordering :=
  cmp buffer (t.userData n)

end GenericTableAvl

/-- The table is zeroed; what the memory of the nodes holds is of no importance. -/
def rtlInitializeGenericTableAvl (table : ν) (links : Store ν) (balance : ν → Int)
    (userData : ν → κ) : GenericTableAvl ν κ where
  balancedRoot := table
  links := links.setLinks table table fun _ => none
  balance := Function.update balance table 0
  numberGenericTableElements := 0
  depthOfTree := 0
  userData := userData
  restartKey := none
  orderedPointer := none
  whichOrderedElement := 0
  deleteCount := 0
  blocks := []

/-- Returns the node of the element and the value of `NewElement`.  The links of a new node are
zeroed first, which `RtlpInsertAvlTreeNode` does once more. -/
def rtlInsertElementGenericTableFullAvl (t : GenericTableAvl ν κ) (buffer : κ) (block : Option ν)
    (nodeOrParent : Option ν) (searchResult : TableSearchResult) :
    Option (GenericTableAvl ν κ × Option ν × Bool) :=
  if searchResult ≠ .tableFoundNode then
    match block with
    | none => some (t, none, false)
    | some new =>
      (rtlpInsertAvlTreeNode t.toAvlTable new nodeOrParent searchResult).map fun a =>
        ({ t with
          toAvlTable := a
          userData := Function.update t.userData new buffer
          blocks := new :: t.blocks }, some new, true)
  else some (t, nodeOrParent, false)

def rtlInsertElementGenericTableAvl (cmp : κ → κ → Ordering) (t : GenericTableAvl ν κ)
    (buffer : κ) (block : Option ν) : Option (GenericTableAvl ν κ × Option ν × Bool) :=
  (rtlpFindAvlTableNodeOrParent t.toAvlTable (t.compareRoutine cmp buffer)).bind fun r =>
    rtlInsertElementGenericTableFullAvl t buffer block r.2 r.1

def rtlIsGenericTableEmptyAvl (t : GenericTableAvl ν κ) : Bool := t.numberGenericTableElements = 0

/-- Returns the node of the element, and what the search left in `NodeOrParent` and
`SearchResult`. -/
def rtlLookupElementGenericTableFullAvl (cmp : κ → κ → Ordering) (t : GenericTableAvl ν κ)
    (buffer : κ) : Option (Option ν × Option ν × TableSearchResult) :=
  (rtlpFindAvlTableNodeOrParent t.toAvlTable (t.compareRoutine cmp buffer)).map fun r =>
    (if r.1 ≠ .tableFoundNode then none else r.2, r.2, r.1)

def rtlLookupElementGenericTableAvl (cmp : κ → κ → Ordering) (t : GenericTableAvl ν κ)
    (buffer : κ) : Option (Option ν) :=
  (rtlLookupElementGenericTableFullAvl cmp t buffer).map Prod.fst

/-- Returns the node and the new restart key. -/
def rtlEnumerateGenericTableWithoutSplayingAvl (t : GenericTableAvl ν κ) (restartKey : Option ν) :
    Option (Option ν × Option ν) :=
  if rtlIsGenericTableEmptyAvl t then some (none, restartKey)
  else match restartKey with
    | none => match t.links.child .right t.balancedRoot with
      | none => none
      | some x => (lastChild .left t.fuel t.links x).map fun n => (some n, some n)
    | some r => (rtlRealSuccessor t.fuel t.links r).map fun o => match o with
      | some n => (some n, some n)
      | none => (none, some r)

def rtlEnumerateGenericTableAvl (t : GenericTableAvl ν κ) (restart : Bool) :
    Option (GenericTableAvl ν κ × Option ν) :=
  let t := if restart then { t with restartKey := none } else t
  (rtlEnumerateGenericTableWithoutSplayingAvl t t.restartKey).map fun r =>
    ({ t with restartKey := r.2 }, r.1)

def rtlDeleteElementGenericTableAvl (cmp : κ → κ → Ordering) (t : GenericTableAvl ν κ)
    (buffer : κ) : Option (GenericTableAvl ν κ × Bool) :=
  match rtlpFindAvlTableNodeOrParent t.toAvlTable (t.compareRoutine cmp buffer) with
  | some (.tableFoundNode, some node) =>
    -- if this node was the key, it is updated before the links change
    (if t.restartKey = some node then rtlRealPredecessor t.fuel t.links node
      else some t.restartKey).bind fun key =>
    (rtlpDeleteAvlTreeNode t.toAvlTable node).map fun a =>
      ({ t with
        toAvlTable := { a with
          numberGenericTableElements := a.numberGenericTableElements - 1 }
        restartKey := key
        deleteCount := t.deleteCount + 1
        whichOrderedElement := 0
        orderedPointer := none
        blocks := t.blocks.erase node }, true)
  | some (.tableFoundNode, none) => none
  | some _ => some (t, false)
  | none => none

/-! ## Section 2: The table as a system -/

inductive Operation (ν κ : Type) where
  | insertElement (buffer : κ) (block : ν)
  | deleteElement (buffer : κ)
  | enumerate (restart : Bool)

/-- What a client sees of a table whose allocations succeed. -/
def avlSystem (cmp : κ → κ → Ordering) :
    System (GenericTableAvl ν κ) (Operation ν κ) (Cursor.Event κ) where
  init t := ∃ table links balance userData,
    t = rtlInitializeGenericTableAvl table links balance userData
  legal t
    | .insertElement _ block => block ≠ t.balancedRoot ∧ block ∉ t.blocks
    | _ => True
  step t
    | .insertElement buffer block =>
      (rtlInsertElementGenericTableAvl cmp t buffer (some block)).map fun r =>
        (r.1, .insert buffer r.2.2)
    | .deleteElement buffer =>
      (rtlDeleteElementGenericTableAvl cmp t buffer).map fun r => (r.1, .delete buffer r.2)
    | .enumerate restart =>
      (rtlEnumerateGenericTableAvl t restart).map fun r =>
        (r.1, .next restart (r.2.map r.1.userData))

instance (cmp : κ → κ → Ordering) (t : GenericTableAvl ν κ) (a : Operation ν κ) :
    Decidable ((avlSystem cmp).legal t a) :=
  match a with
  | .insertElement _ block => inferInstanceAs (Decidable (block ≠ t.balancedRoot ∧ block ∉ t.blocks))
  | .deleteElement _ => .isTrue trivial
  | .enumerate _ => .isTrue trivial

/-! ## Section 3: Tables that hold a sorted tree -/

section Inv

variable {cmp : κ → κ → Ordering}

variable (cmp) in
structure TableInv (t : GenericTableAvl ν κ) (T : BinTree ν) : Prop extends AvlInv t.toAvlTable T where
  sorted : T.toList.Pairwise fun x y => cmp (t.userData x) (t.userData y) = .lt
  restartKey : ∀ r ∈ t.restartKey, r = t.balancedRoot ∨ r ∈ T.toList
  blocks : t.blocks.Perm T.toList

/-- The set of elements, and the element the enumeration is at.  A restart key that is the
table itself stands before all of them, as `NULL` does. -/
def abstraction (t : GenericTableAvl ν κ) (T : BinTree ν) : Cursor.State κ where
  items := { k | ∃ x ∈ T.toList, t.userData x = k }
  position := t.restartKey.bind fun r => if r = t.balancedRoot then none else some (t.userData r)

variable {t : GenericTableAvl ν κ} {T : BinTree ν}
variable {l₂ : List ν} {n : ν}

omit [DecidableEq ν] in
/-- The nodes before and after a node of the tree. -/
theorem TableInv.around (h : TableInv cmp t T) {l1 : List ν} (hl : T.toList = l1 ++ n :: l₂) :
    (∀ z ∈ l1, cmp (t.userData z) (t.userData n) = .lt) ∧
      ∀ z ∈ l₂, cmp (t.userData n) (t.userData z) = .lt := by
  have hs := h.sorted
  rw [hl, pairwise_append, pairwise_cons] at hs
  exact ⟨fun z hz => hs.2.2 z hz n (by simp), hs.2.1.1⟩

variable [Std.TransCmp cmp]

section Places

variable (h : TableInv cmp t T)

include h

omit [DecidableEq ν] in
/-- Every key cuts the sequence of the tree. -/
theorem TableInv.cut (buffer : κ) : Cut (t.compareRoutine cmp buffer) T.toList := by
  apply h.sorted.imp
  intro x y hxy
  simp only [GenericTableAvl.compareRoutine, Std.OrientedCmp.gt_iff_lt]
  exact ⟨fun hx => Std.TransCmp.lt_trans hx hxy, fun hy => Std.TransCmp.lt_trans hxy hy⟩

omit [DecidableEq ν] [Std.TransCmp cmp] in
theorem TableInv.ne_root (hn : n ∈ T.toList) : n ≠ t.balancedRoot :=
  fun e => h.toAvlInv.root_not_mem (e ▸ hn)

omit [Std.TransCmp cmp] in
theorem TableInv.position (hkey : t.restartKey = some n) (hn : n ∈ T.toList) :
    (abstraction t T).position = some (t.userData n) := by
  simp [abstraction, hkey, h.ne_root hn]

omit [DecidableEq ν] in
theorem TableInv.userData_inj {x y : ν} (hx : x ∈ T.toList)
    (hy : y ∈ T.toList) (hc : cmp (t.userData x) (t.userData y) = .eq) : x = y := by
  obtain ⟨l1, l₂, hl⟩ := append_of_mem hy
  obtain ⟨h1, h2⟩ := h.around hl
  rw [hl, mem_append, mem_cons] at hx
  rcases hx with hx | rfl | hx
  · simp [h1 x hx] at hc
  · rfl
  · have h3 := h2 x hx
    rw [Std.OrientedCmp.eq_comm, h3] at hc
    cases hc

/-- The sequence after an insertion, with everything else of the table as it was. -/
theorem TableInv.insert_new (buffer : κ) (l1 l₂ : List ν) {new : ν} {t' : GenericTableAvl ν κ}
    {a : AvlTable ν} {T' : BinTree ν} (ht' : t' = { t with
      toAvlTable := a
      userData := Function.update t.userData new buffer
      blocks := new :: t.blocks }) (hnew : new ∉ T.toList)
    (hroot : a.balancedRoot = t.balancedRoot) (ha : AvlInv a T') (hT : T.toList = l1 ++ l₂)
    (hT' : T'.toList = l1 ++ new :: l₂) (h1 : ∀ z ∈ l1, t.compareRoutine cmp buffer z = .gt)
    (h2 : ∀ z ∈ l₂, t.compareRoutine cmp buffer z = .lt) :
    TableInv cmp t' T' ∧ Step cmp (abstraction t T) (.insert buffer true) (abstraction t' T') := by
  have hud : ∀ z ∈ T.toList, t'.userData z = t.userData z := by
    intro z hz
    have hzn : z ≠ new := fun e => hnew (e ▸ hz)
    simp [ht', hzn]
  have hudn : t'.userData new = buffer := by simp [ht']
  have hmem : ∀ z, z ∈ T'.toList ↔ z = new ∨ z ∈ T.toList := by
    intro z
    rw [hT, hT']
    simp only [mem_append, mem_cons]
    tauto
  refine ⟨⟨?_, ?_, ?_, ?_⟩, ?_⟩
  · rw [ht']
    exact ha
  · -- the new element is above those of `l1` and below those of `l₂`
    have hs := h.sorted
    rw [hT, pairwise_append] at hs
    rw [hT', pairwise_append, pairwise_cons]
    have hu1 : ∀ z ∈ l1, t'.userData z = t.userData z := fun z hz => hud z (by simp [hT, hz])
    have hu2 : ∀ z ∈ l₂, t'.userData z = t.userData z := fun z hz => hud z (by simp [hT, hz])
    refine ⟨hs.1.imp_of_mem ?_, ⟨?_, hs.2.1.imp_of_mem ?_⟩, ?_⟩
    · intro x y hx hy hxy
      rwa [hu1 x hx, hu1 y hy]
    · intro z hz
      rw [hudn, hu2 z hz]
      exact h2 z hz
    · intro x y hx hy hxy
      rwa [hu2 x hx, hu2 y hy]
    · intro x hx y hy
      rw [hu1 x hx]
      rcases mem_cons.mp hy with rfl | hy
      · rw [hudn]
        exact Std.OrientedCmp.gt_iff_lt.mp (h1 x hx)
      · rw [hu2 y hy]
        exact hs.2.2 x hx y hy
  · intro r hr
    have hr' : r ∈ t.restartKey := by rwa [ht'] at hr
    rcases h.restartKey r hr' with e | hm
    · left
      rw [e, ht']
      exact hroot.symm
    · exact .inr ((hmem r).mpr (.inr hm))
  · rw [ht', hT']
    refine List.Perm.trans ?_ perm_middle.symm
    rw [← hT]
    exact h.blocks.cons new
  · -- as a set, the table has one more element and the same position
    have hitems : (abstraction t' T').items = insert buffer (abstraction t T).items := by
      ext k
      simp only [abstraction, Set.mem_ofPred_eq, Set.mem_insert_iff]
      constructor
      · grind
      · grind
    have hpos : (abstraction t' T').position = (abstraction t T).position := by
      have hk : t'.restartKey = t.restartKey := by rw [ht']
      have hr : t'.balancedRoot = t.balancedRoot := by rw [ht']; exact hroot
      simp only [abstraction, hk, hr]
      cases hkey : t.restartKey with
      | none => rfl
      | some r =>
        rcases h.restartKey r hkey with e | hm
        · simp [e]
        · simp [hud r hm]
    have hno : ∀ x ∈ (abstraction t T).items, cmp buffer x ≠ .eq := by
      rintro k ⟨x, hx, rfl⟩
      rw [hT, mem_append] at hx
      rcases hx with hx | hx
      · have hg := h1 x hx
        simp only [GenericTableAvl.compareRoutine] at hg
        simp [hg]
      · have hl := h2 x hx
        simp only [GenericTableAvl.compareRoutine] at hl
        simp [hl]
    have hstep := Step.insertNew hno
    rw [← hitems, ← hpos] at hstep
    exact hstep

theorem insertElement_spec (buffer : κ) {block : ν}
    (hne : block ≠ t.balancedRoot) (hblock : block ∉ t.blocks) :
    ∃ t' T' n b, rtlInsertElementGenericTableAvl cmp t buffer (some block) = some (t', n, b) ∧
      TableInv cmp t' T' ∧
      Step cmp (abstraction t T) (.insert buffer b) (abstraction t' T') := by
  have hnew : block ∉ T.toList := fun hm => hblock (h.blocks.mem_iff.mpr hm)
  rcases rtlpFindAvlTableNodeOrParent_spec h.toAvlInv (h.cut buffer) with
    ⟨rfl, hfind⟩ | ⟨y, hy, he, hfind⟩ | ⟨f, c, rfl, hcut, hfind⟩
  · -- the table is empty
    obtain ⟨a, hrun, ha, hroot⟩ := rtlpInsertAvlTreeNode_empty h.toAvlInv hne none
    obtain ⟨hinv, hstep⟩ := h.insert_new buffer [] [] rfl hnew hroot ha rfl rfl (by simp) (by simp)
    refine ⟨_, _, some block, true, ?_, hinv, hstep⟩
    simp [rtlInsertElementGenericTableAvl, hfind, rtlInsertElementGenericTableFullAvl, hrun]
  · -- the element is there already
    refine ⟨t, T, some y, false, ?_, h, .insertOld ⟨y, hy, rfl⟩ he⟩
    simp [rtlInsertElementGenericTableAvl, hfind, rtlInsertElementGenericTableFullAvl]
  · obtain ⟨a, T', hrun, ha, hT', hroot⟩ := rtlpInsertAvlTreeNode_spec h.toAvlInv hnew hne
      (r := insertAs f.side) rfl
    rw [toList_plug] at hT'
    obtain ⟨hinv, hstep⟩ := h.insert_new buffer _ _ rfl hnew hroot ha
      (by rw [toList_plug]; simp) (by rw [hT']; simp) hcut.before hcut.after
    refine ⟨_, T', some block, true, ?_, hinv, hstep⟩
    have hnf : insertAs f.side ≠ .tableFoundNode := by
      cases f.side <;> simp [insertAs]
    simp [rtlInsertElementGenericTableAvl, hfind, rtlInsertElementGenericTableFullAvl, hrun, hnf]

omit [Std.TransCmp cmp] in
/-- The neighbours of a node, the table itself standing before the first one. -/
theorem TableInv.neighbours (hn : n ∈ T.toList) :
    ∃ l1 l₂, T.toList = l1 ++ n :: l₂ ∧
      rtlRealPredecessor t.fuel t.links n = some (some (l1.getLast?.getD t.balancedRoot)) ∧
      rtlRealSuccessor t.fuel t.links n = some l₂.head? := by
  have hlist : (plug (sentinel t.balancedRoot) T).toList = t.balancedRoot :: T.toList := by
    simp [sentinel, BinTree.join]
  obtain ⟨l, l₂, hl, hrun⟩ := rtlRealNeighbour_spec h.wellLinked (n := n)
    (by rw [hlist]; exact mem_cons_of_mem _ hn)
  obtain ⟨h1, h2⟩ := hrun t.fuel (by rw [hlist]; simp [AvlTable.fuel, h.count])
  rw [hlist] at hl
  cases l with
  | nil =>
    -- the node is not the table itself
    simp only [nil_append, cons.injEq] at hl
    exact absurd (hl.1 ▸ hn) h.toAvlInv.root_not_mem
  | cons r l1 =>
    simp only [cons_append, cons.injEq] at hl
    obtain ⟨rfl, hl⟩ := hl
    refine ⟨l1, l₂, hl, ?_, h2⟩
    rw [h1, getLast?_cons]

omit [Std.TransCmp cmp] in
theorem TableInv.first (hne : T ≠ .nil) :
    ∃ n l, T.toList = n :: l ∧
      rtlRealSuccessor t.fuel t.links t.balancedRoot = some (some n) ∧
      ∃ x, t.links.child .right t.balancedRoot = some x ∧
        lastChild .left t.fuel t.links x = some n := by
  have hl := (wellLinked_plug_cons.mp h.wellLinked).2.2
  simp only at hl
  cases T with
  | nil => exact absurd rfl hne
  | node a x b =>
    have hx : t.links.child .right t.balancedRoot = some x := hl.1
    rw [hx] at hl
    obtain ⟨n, l, hn, -, hrun⟩ := lastChild_spec .left hl
    have hlast := hrun t.fuel (by simp [AvlTable.fuel, h.count])
    refine ⟨n, l, hn, ?_, x, hx, hlast⟩
    simp [rtlRealSuccessor, rtlRealNeighbour, hx, Side.other, hlast]

/-- The node taken out of the sequence, and the element out of the set. -/
theorem TableInv.items_erase {T' : BinTree ν} (hn : n ∈ T.toList)
    (hT' : T'.toList = T.toList.erase n) :
    { k | ∃ x ∈ T'.toList, t.userData x = k } =
      { k | ∃ x ∈ T.toList, t.userData x = k } \ {t.userData n} := by
  have hnd := h.nodup
  ext k
  simp only [Set.mem_ofPred_eq, Set.mem_sdiff, Set.mem_singleton_iff, hT', hnd.mem_erase_iff]
  constructor
  · rintro ⟨x, ⟨hxn, hx⟩, rfl⟩
    refine ⟨⟨x, hx, rfl⟩, ?_⟩
    intro e
    exact hxn (h.userData_inj hx hn (by rw [e]; exact Std.ReflCmp.compare_self))
  · rintro ⟨⟨x, hx, rfl⟩, hne⟩
    exact ⟨x, ⟨fun e => hne (by rw [e]), hx⟩, rfl⟩

/-- The node before `n` holds the greatest element below that of `n`. -/
theorem TableInv.isBelow {l1 : List ν} (hl : T.toList = l1 ++ n :: l₂) :
    IsBelow cmp (abstraction t T).items (t.userData n) (l1.getLast?.map t.userData) := by
  obtain ⟨hlt, hgt⟩ := h.around hl
  constructor
  · intro k hk
    obtain ⟨q, hq, rfl⟩ := mem_map.mp hk
    have hql : q ∈ l1 := mem_of_getLast? hq
    exact ⟨⟨q, by rw [hl]; simp [hql], rfl⟩, hlt q hql⟩
  rintro k ⟨z, hz, rfl⟩ hzn hab
  have hz1 : z ∈ l1 := by
    rw [hl, mem_append, mem_cons] at hz
    rcases hz with hz | rfl | hz
    · exact hz
    · exact absurd hzn (Std.OrientedCmp.not_lt_of_lt hzn)
    · exact absurd hzn (Std.OrientedCmp.not_lt_of_lt (hgt z hz))
  cases hlast : l1.getLast? with
  | none =>
    rw [getLast?_eq_none_iff.mp hlast] at hz1
    cases hz1
  | some q =>
    -- `z` is `q` or stands before it
    have hqz : cmp (t.userData q) (t.userData z) = .lt := hab _ (by simp [hlast])
    obtain ⟨l, rfl⟩ := getLast?_eq_some_iff.mp hlast
    have hl' : T.toList = l ++ q :: (n :: l₂) := by rw [hl]; simp
    rcases mem_append.mp hz1 with hz2 | hz2
    · exact Std.OrientedCmp.not_lt_of_lt ((h.around hl').1 z hz2) hqz
    · obtain rfl := mem_singleton.mp hz2
      exact Std.OrientedCmp.not_lt_of_lt hqz hqz

end Places

variable (cmp) in
/-- The restart key `key` is right for the table once the element has gone. -/
structure KeyFits (t : GenericTableAvl ν κ) (T T' : BinTree ν) (buffer : κ) (key : Option ν) :
    Prop where
  mem : ∀ r ∈ key, r = t.balancedRoot ∨ r ∈ T'.toList
  step : ∀ t' : GenericTableAvl ν κ, t'.restartKey = key → t'.balancedRoot = t.balancedRoot →
    t'.userData = t.userData →
    Cursor.Step cmp (abstraction t T) (.delete buffer true) (abstraction t' T')

section RestartKey

variable {T' : BinTree ν} {n : ν} {buffer : κ}

namespace TableInv

variable (h : TableInv cmp t T) (hn : n ∈ T.toList) (hT' : T'.toList = T.toList.erase n)
  (hb : cmp buffer (t.userData n) = .eq)

include h hn hT' hb

/-- The key falls back to the predecessor, or to the table itself. -/
theorem keyFits_current (hkey : t.restartKey = some n) :
    ∃ key, rtlRealPredecessor t.fuel t.links n = some key ∧ KeyFits cmp t T T' buffer key := by
  have hnd := h.nodup
  obtain ⟨l1, l₂, hl, hpred, -⟩ := h.neighbours hn
  have hlast : ∀ q ∈ l1.getLast?, q ∈ T.toList ∧ q ≠ n := by grind
  refine ⟨_, hpred, ?_, ?_⟩
  · grind
  · intro t' hk hr hu
    have hpos' : (abstraction t' T').position = l1.getLast?.map t.userData := by
      cases hq : l1.getLast? with
      | none => simp [abstraction, hk, hr, hq]
      | some q =>
        simp [abstraction, hk, hr, hu, hq, h.ne_root (hlast q hq).1]
    have hmem : t.userData n ∈ (abstraction t T).items := ⟨n, hn, rfl⟩
    have hs := Step.deleteCurrent hmem hb (h.position hkey hn) (h.isBelow hl)
    rw [← hpos'] at hs
    simp only [abstraction, hu, h.items_erase hn hT'] at hs ⊢
    exact hs

theorem keyFits_other (hkey : t.restartKey ≠ some n) : KeyFits cmp t T T' buffer t.restartKey := by
  have hnd := h.nodup
  constructor
  · intro r hr
    rcases h.restartKey r hr with hr' | hr'
    · exact .inl hr'
    right
    rw [hT', hnd.mem_erase_iff]
    refine ⟨?_, hr'⟩
    rintro rfl
    exact hkey hr
  · intro t' hk hr hu
    have hpos : (abstraction t T).position ≠ some (t.userData n) := by
      cases hkr : t.restartKey with
      | none => simp [abstraction, hkr]
      | some r =>
        rcases h.restartKey r hkr with hr' | hr'
        · simp [abstraction, hkr, hr']
        rw [h.position hkr hr', ne_eq, some.injEq]
        intro he
        have hrn := h.userData_inj hr' hn (by rw [he]; exact Std.ReflCmp.compare_self)
        exact hkey (by rw [hkr, hrn])
    have hmem : t.userData n ∈ (abstraction t T).items := ⟨n, hn, rfl⟩
    have hs := Step.deleteOther hmem hb hpos
    simp only [abstraction, hu, hk, hr, h.items_erase hn hT'] at hs ⊢
    exact hs

end TableInv

end RestartKey

section

variable (h : TableInv cmp t T)

include h

theorem deleteElement_spec (buffer : κ) :
    ∃ t' T' b, rtlDeleteElementGenericTableAvl cmp t buffer = some (t', b) ∧
      TableInv cmp t' T' ∧
      Step cmp (abstraction t T) (.delete buffer b) (abstraction t' T') := by
  rcases rtlpFindAvlTableNodeOrParent_spec h.toAvlInv (h.cut buffer) with
    ⟨rfl, hfind⟩ | ⟨n, hn, he, hfind⟩ | ⟨f, c, rfl, hcut, hfind⟩
  · refine ⟨t, .nil, false, ?_, h, .deleteNone ?_⟩
    · simp [rtlDeleteElementGenericTableAvl, hfind]
    · rintro k ⟨x, hx, -⟩
      simp at hx
  · obtain ⟨a, T', hrun, hinv, hT', hroot⟩ := rtlpDeleteAvlTreeNode_spec h.toAvlInv hn
    -- A restart key at the deleted node moves to its predecessor.
    obtain ⟨key, hkey, hmem, hstep⟩ : ∃ key, (if t.restartKey = some n then
        rtlRealPredecessor t.fuel t.links n else some t.restartKey) = some key ∧
        KeyFits cmp t T T' buffer key := by
      by_cases e : t.restartKey = some n
      · rw [if_pos e]
        exact h.keyFits_current hn hT' he e
      · rw [if_neg e]
        exact ⟨_, rfl, h.keyFits_other hn hT' he e⟩
    refine ⟨{ t with
        toAvlTable := { a with
          numberGenericTableElements := a.numberGenericTableElements - 1 }
        restartKey := key
        deleteCount := t.deleteCount + 1
        whichOrderedElement := 0
        orderedPointer := none
        blocks := t.blocks.erase n }, T', true, ?_, ⟨hinv, ?_, ?_, ?_⟩, hstep _ rfl hroot rfl⟩
    · simp [rtlDeleteElementGenericTableAvl, hfind, hkey, hrun]
    · rw [hT']
      exact h.sorted.sublist erase_sublist
    · grind
    · rw [hT']
      exact h.blocks.erase n
  · refine ⟨t, _, false, ?_, h, .deleteNone ?_⟩
    · cases hs : f.side <;> simp [rtlDeleteElementGenericTableAvl, hfind, insertAs, hs]
    · rintro k ⟨x, hx, rfl⟩
      exact hcut.ne_eq hx

omit [DecidableEq ν] [Std.TransCmp cmp] in
/-- A key that names a node of the tree may be stored. -/
theorem TableInv.setKey {key : Option ν} (hk : ∀ r ∈ key, r = t.balancedRoot ∨ r ∈ T.toList) :
    TableInv cmp { t with restartKey := key } T :=
  ⟨h.toAvlInv, h.sorted, hk, h.blocks⟩

/-- The enumeration moves to the node `n`. -/
theorem TableInv.step_to (l1 : List ν) (hl : T.toList = l1 ++ n :: l₂)
    (hpos : (abstraction t T).position = l1.getLast?.map t.userData) :
    Step cmp (abstraction t T) (.next false (some (t.userData n)))
      (abstraction { t with restartKey := some n } T) := by
  have hn : n ∈ T.toList := by
    rw [hl]
    simp
  have hmem : t.userData n ∈ (abstraction t T).items := ⟨n, hn, rfl⟩
  have hb := h.isBelow hl
  rw [← hpos] at hb
  have hs := Step.next (b := false) rfl hmem (fun q hq => (hb.mem q hq).2) (by
    -- what is less than the element of `n` is not above the position
    intro z hz ha hzn
    exact hb.greatest z hz hzn ha)
  have habs : abstraction { t with restartKey := some n } T =
      ⟨(abstraction t T).items, some (t.userData n)⟩ := by
    simp [abstraction, h.ne_root hn]
  rw [habs]
  exact hs

/-- The first node, or the one after the restart key, or the end. -/
theorem enumerateWithoutSplaying_spec :
    ∃ n key, rtlEnumerateGenericTableWithoutSplayingAvl t t.restartKey = some (n, key) ∧
      TableInv cmp { t with restartKey := key } T ∧
      Step cmp (abstraction t T) (.next false (n.map t.userData))
        (abstraction { t with restartKey := key } T) := by
  by_cases hT : T = .nil
  · subst hT
    have hempty : rtlIsGenericTableEmptyAvl t = true := by simp [rtlIsGenericTableEmptyAvl, h.count]
    refine ⟨none, t.restartKey, ?_, h, .nextNone rfl ?_⟩
    · simp [rtlEnumerateGenericTableWithoutSplayingAvl, hempty]
    · rintro z ⟨x, hx, -⟩
      simp at hx
  have hempty : rtlIsGenericTableEmptyAvl t = false := by
    cases T with
    | nil => exact absurd rfl hT
    | node a x b => simp [rtlIsGenericTableEmptyAvl, h.count]
  obtain ⟨n, l, hl, hsucc, x, hx, hlast⟩ := h.first hT
  have hn : n ∈ T.toList := by simp [hl]
  have hset : ∀ y ∈ T.toList, TableInv cmp { t with restartKey := some y } T := by
    intro y hy
    apply h.setKey
    rintro r ⟨⟩
    exact .inr hy
  have hfirst : (abstraction t T).position = none →
      Step cmp (abstraction t T) (.next false (some (t.userData n)))
        (abstraction { t with restartKey := some n } T) :=
    fun hp => h.step_to [] hl (by simpa using hp)
  cases hkey : t.restartKey with
  | none =>
    refine ⟨some n, some n, ?_, hset n hn, hfirst (by simp [abstraction, hkey])⟩
    simp [rtlEnumerateGenericTableWithoutSplayingAvl, hempty, hx, hlast]
  | some r =>
    rcases h.restartKey r hkey with rfl | hr
    · refine ⟨some n, some n, ?_, hset n hn, hfirst (by simp [abstraction, hkey])⟩
      simp [rtlEnumerateGenericTableWithoutSplayingAvl, hempty, hsucc]
    have hpos := h.position hkey hr
    obtain ⟨l1, l₂, hl', -, hnext⟩ := h.neighbours hr
    cases l₂ with
    | nil =>
      -- the key is the last node: it stays
      refine ⟨none, some r, ?_, hkey ▸ h, ?_⟩
      · simp [rtlEnumerateGenericTableWithoutSplayingAvl, hempty, hnext]
      have hs : Step cmp (abstraction t T) (.next false none)
          ⟨(abstraction t T).items, (abstraction t T).position⟩ := by
        apply Step.nextNone rfl
        rintro k ⟨z, hz, rfl⟩ hab
        rw [hpos] at hab
        have hrz : cmp (t.userData r) (t.userData z) = .lt := hab _ rfl
        rw [hl', mem_append, mem_singleton] at hz
        rcases hz with hz | rfl
        · exact Std.OrientedCmp.not_lt_of_lt ((h.around hl').1 z hz) hrz
        · exact Std.OrientedCmp.not_lt_of_lt hrz hrz
      have ht : { t with restartKey := some r } = t := by rw [← hkey]
      rw [ht]
      exact hs
    | cons y l₂ =>
      have hl'' : T.toList = (l1 ++ [r]) ++ y :: l₂ := by rw [hl']; simp
      refine ⟨some y, some y, ?_, hset y (by rw [hl'']; simp), ?_⟩
      · simp [rtlEnumerateGenericTableWithoutSplayingAvl, hempty, hnext]
      · exact h.step_to _ hl'' (by rw [hpos]; simp)

theorem enumerate_spec (restart : Bool) :
    ∃ t' n, rtlEnumerateGenericTableAvl t restart = some (t', n) ∧ TableInv cmp t' T ∧
      Step cmp (abstraction t T) (.next restart (n.map t'.userData)) (abstraction t' T) := by
  cases restart with
  | false =>
    obtain ⟨n, key, hrun, hinv, hstep⟩ := enumerateWithoutSplaying_spec h
    exact ⟨_, n, by simp [rtlEnumerateGenericTableAvl, hrun], hinv, hstep⟩
  | true =>
    have h0 : TableInv cmp { t with restartKey := none } T := h.setKey (by simp)
    obtain ⟨n, key, hrun, hinv, hstep⟩ := enumerateWithoutSplaying_spec h0
    exact ⟨_, n, by simp only [rtlEnumerateGenericTableAvl, if_true, hrun, map_some],
      hinv, hstep.of_reset⟩

end

/-! ## Section 4: Runs -/

section

variable (table : ν) (links : Store ν) (balance : ν → Int) (userData : ν → κ)

omit [Std.TransCmp cmp] in
theorem initialize_inv :
    TableInv cmp (rtlInitializeGenericTableAvl table links balance userData) .nil := by
  refine ⟨⟨⟨?_, trivial⟩, rfl, rfl⟩, by simp, by simp [rtlInitializeGenericTableAvl],
    List.Perm.refl _⟩
  refine ⟨by simp [sentinel, BinTree.join], ?_⟩
  intro r hr
  simp only [rtlInitializeGenericTableAvl, sentinel, plug_cons, plug_nil, BinTree.join, BinTree.root?,
    some.injEq] at hr
  subst hr
  simp [rtlInitializeGenericTableAvl, sentinel, BinTree.join, Linked]

theorem abstraction_of_initial :
    abstraction (rtlInitializeGenericTableAvl table links balance userData) .nil = ⟨∅, none⟩ := by
  simp [abstraction, rtlInitializeGenericTableAvl]

end

variable (cmp) in
/-- The table stands for a set with a position in it. -/
def Represents (t : GenericTableAvl ν κ) (s : Cursor.State κ) : Prop :=
  ∃ T, TableInv cmp t T ∧ s = abstraction t T

/-- No legal call faults, and what it does is a step of the set. -/
theorem avlSystem_step (h : TableInv cmp t T) {a : Operation ν κ}
    (ha : (avlSystem cmp).legal t a) :
    ∃ t' T' e, (avlSystem cmp).step t a = some (t', e) ∧ TableInv cmp t' T' ∧
      Step cmp (abstraction t T) e (abstraction t' T') := by
  cases a with
  | insertElement buffer block =>
    obtain ⟨t', T', n, b, hrun, hinv, hstep⟩ := insertElement_spec h buffer ha.1 ha.2
    exact ⟨t', T', _, by simp [avlSystem, hrun], hinv, hstep⟩
  | deleteElement buffer =>
    obtain ⟨t', T', b, hrun, hinv, hstep⟩ := deleteElement_spec h buffer
    exact ⟨t', T', _, by simp [avlSystem, hrun], hinv, hstep⟩
  | enumerate restart =>
    obtain ⟨t', n, hrun, hinv, hstep⟩ := enumerate_spec h restart
    exact ⟨t', T, _, by simp [avlSystem, hrun], hinv, hstep⟩

theorem avlSystem_simulates (t : GenericTableAvl ν κ) (e : Event κ)
    (t' : GenericTableAvl ν κ) (s : State κ) (hR : Represents cmp t s)
    (hl : (avlSystem cmp).labelled t e t') :
    ∃ s', Step cmp s e s' ∧ Represents cmp t' s' := by
  obtain ⟨T, h, rfl⟩ := hR
  obtain ⟨a, ha, hrun⟩ := hl
  obtain ⟨t1, T', e1, hrun', hinv, hstep⟩ := avlSystem_step h ha
  rw [hrun'] at hrun
  obtain ⟨rfl, rfl⟩ := hrun
  exact ⟨_, hstep, T', hinv, rfl⟩

/-- A run from an initialized table is a run of the empty set. -/
theorem represents_of_runs {t0 : GenericTableAvl ν κ} {es : List (Event κ)}
    (h0 : (avlSystem cmp).init t0) (h : Runs (avlSystem cmp).labelled t0 es t) :
    ∃ s, Runs (Step cmp) ⟨∅, none⟩ es s ∧ Represents cmp t s := by
  obtain ⟨table, links, balance, userData, rfl⟩ := h0
  exact Runs.simulate avlSystem_simulates
    ⟨.nil, initialize_inv .., (abstraction_of_initial ..).symm⟩ h

theorem lookup_spec (h : TableInv cmp t T) (buffer : κ) :
    ∃ o, rtlLookupElementGenericTableAvl cmp t buffer = some o ∧
      (o.isSome = true ↔ Contains cmp (abstraction t T) buffer) ∧
      ∀ n ∈ o, n ∈ T.toList ∧ cmp buffer (t.userData n) = .eq := by
  rcases rtlpFindAvlTableNodeOrParent_spec h.toAvlInv (h.cut buffer) with
    ⟨rfl, hfind⟩ | ⟨n, hn, he, hfind⟩ | ⟨f, c, rfl, hcut, hfind⟩
  · refine ⟨none, ?_, ?_, by simp⟩
    · simp [rtlLookupElementGenericTableAvl, rtlLookupElementGenericTableFullAvl, hfind]
    · simp [Contains, abstraction]
  · refine ⟨some n, ?_, ?_, ?_⟩
    · simp [rtlLookupElementGenericTableAvl, rtlLookupElementGenericTableFullAvl, hfind]
    · simp only [isSome_some, true_iff]
      exact ⟨_, ⟨n, hn, rfl⟩, he⟩
    · rintro m ⟨⟩
      exact ⟨hn, he⟩
  · refine ⟨none, ?_, ?_, by simp⟩
    · cases hs : f.side <;>
        simp [rtlLookupElementGenericTableAvl, rtlLookupElementGenericTableFullAvl, hfind,
          insertAs, hs]
    · simp only [isSome_none, Bool.false_eq_true, false_iff]
      rintro ⟨k, ⟨x, hx, rfl⟩, hk⟩
      exact hcut.ne_eq hx hk

/-- The table is a balanced search tree after every run, its counters are right, no call faults,
and a key is found if and only if it was inserted after it was last deleted. -/
theorem avl_table_correct {t₀ t : GenericTableAvl ν κ} {es : List (Cursor.Event κ)}
    (h₀ : (avlSystem cmp).init t₀) (h : Runs (avlSystem cmp).labelled t₀ es t) :
    (∃ T, AvlInv t.toAvlTable T ∧
      T.toList.Pairwise fun x y => cmp (t.userData x) (t.userData y) = .lt) ∧
    (∀ k, ∃ o, rtlLookupElementGenericTableAvl cmp t k = some o ∧
      (o.isSome = true ↔ ∃ k' b, Cursor.lastOn cmp k es = some (.insert k' b))) ∧
    ∀ a, (avlSystem cmp).legal t a → ((avlSystem cmp).step t a).isSome = true := by
  obtain ⟨s, hruns, T, hinv, rfl⟩ := represents_of_runs h₀ h
  refine ⟨⟨T, hinv.toAvlInv, hinv.sorted⟩, ?_, ?_⟩
  · intro k
    obtain ⟨o, hrun, ho, -⟩ := lookup_spec hinv k
    exact ⟨o, hrun, ho.trans ((Cursor.Runs.contains_iff hruns).2 k)⟩
  · intro a ha
    obtain ⟨t', T', e, hrun, -⟩ := avlSystem_step hinv ha
    rw [hrun]
    rfl

/-- A table in memory that holds zeroes. -/
def emptyTable : GenericTableAvl Nat Nat :=
  rtlInitializeGenericTableAvl 0 ⟨fun _ => 0, fun _ _ => none⟩ (fun _ => 0) fun _ => 0

theorem avl_table_correct_replay : ∃ t : GenericTableAvl Nat Nat,
    Runs (avlSystem compare).labelled emptyTable
      [.insert 10 true, .insert 20 true, .insert 30 true, .delete 20 true] t ∧
    ∃ T, AvlInv t.toAvlTable T ∧
      T.toList.Pairwise fun x y => compare (t.userData x) (t.userData y) = .lt := by
  have hreplay : ((avlSystem compare).replay emptyTable [.insertElement 10 1, .insertElement 20 2,
      .insertElement 30 3, .deleteElement 20]).map Prod.snd =
        some [.insert 10 true, .insert 20 true, .insert 30 true, .delete 20 true] := by
    decide +kernel
  obtain ⟨⟨t, es⟩, hrun, hes⟩ := Option.map_eq_some_iff.mp hreplay
  simp only at hes
  subst hes
  have hruns := Runs.of_replay .nil hrun
  exact ⟨t, hruns, (avl_table_correct ⟨_, _, _, _, rfl⟩ hruns).1⟩

/-! ## Section 5: Enumeration -/

variable (cmp) in
/-- The element itself is found in the table. -/
def Present (t : GenericTableAvl ν κ) (x : κ) : Prop :=
  ∃ n, rtlLookupElementGenericTableAvl cmp t x = some (some n) ∧ t.userData n = x

theorem present_iff (h : TableInv cmp t T) (x : κ) :
    Present cmp t x ↔ x ∈ (abstraction t T).items := by
  obtain ⟨o, hrun, ho, hn⟩ := lookup_spec h x
  constructor
  · rintro ⟨n, hl, rfl⟩
    rw [hrun] at hl
    exact ⟨n, (hn n (some.inj hl)).1, rfl⟩
  rintro ⟨y, hy, rfl⟩
  have hself : cmp (t.userData y) (t.userData y) = .eq := Std.ReflCmp.compare_self
  obtain ⟨n, rfl⟩ := isSome_iff_exists.mp (ho.mpr ⟨_, ⟨y, hy, rfl⟩, hself⟩)
  obtain ⟨hnT, hc⟩ := hn n rfl
  obtain rfl := h.userData_inj hy hnT hc
  exact ⟨_, hrun, rfl⟩

/-- An enumeration from a restart on, with insertions and deletions in between.  What it returns
is in the table.  It returns a smaller element after a greater one only if it was inserted after
the greater one had been deleted.  An element that is in the table from the restart until the
call that returns `NULL` is returned once. -/
theorem enumeration_survives_updates {t₀ t₁ t₂ t : GenericTableAvl ν κ}
    {es₀ es : List (Cursor.Event κ)} {r : Option κ} (h₀ : (avlSystem cmp).init t₀)
    (hbefore : Runs (avlSystem cmp).labelled t₀ es₀ t₁)
    (hrestart : (avlSystem cmp).labelled t₁ (.next true r) t₂)
    (h : Runs (avlSystem cmp).labelled t₂ es t) (hes : ∀ o, Cursor.Event.next true o ∉ es) :
    (∀ i j x y, i < j → Cursor.Returned (.next true r :: es) i x →
      Cursor.Returned (.next true r :: es) j y →
      cmp x y = .lt ∨ Cursor.Replaced cmp (.next true r :: es) i j x y) ∧
    (∀ b x, (Cursor.Event.next true r :: es).getLast? = some (.next b (some x)) →
      Present cmp t x) ∧
    ∀ b, (Cursor.Event.next true r :: es).getLast? = some (.next b none) →
      ∀ x, Present cmp t₁ x → (∀ p, ¬ Cursor.Deleted cmp (.next true r :: es) p x) →
        ∃ i, Cursor.Returned (.next true r :: es) i x ∧
          ∀ j, Cursor.Returned (.next true r :: es) j x → j = i := by
  obtain ⟨s₁, hruns₀, hR₁⟩ := represents_of_runs h₀ hbefore
  obtain ⟨s₂, hstep, hR₂⟩ := avlSystem_simulates _ _ _ _ hR₁ hrestart
  obtain ⟨s, hruns, T, hinv, rfl⟩ := Runs.simulate avlSystem_simulates hR₂ h
  obtain ⟨T₁, hinv₁, rfl⟩ := hR₁
  have hex := Cursor.Runs.explains (Cursor.Runs.contains_iff hruns₀).1 hstep hruns hes
  refine ⟨hex.pairs, ?_, ?_⟩
  · intro b x hlast
    obtain ⟨s', hst⟩ := Runs.exists_last hstep hruns hlast
    exact (present_iff hinv x).mpr hst.mem_of_returned
  · intro b hlast x hx hno
    obtain ⟨s', hst⟩ := Runs.exists_last hstep hruns hlast
    exact hex.returned_once hst.end_of_none ((present_iff hinv₁ x).mp hx) hno

/-- Two elements are inserted, and an enumeration is begun and goes on. -/
theorem runs_of_replay {o : List (Operation Nat Nat)} {l : List (Event Nat)}
    {r : Option Nat} (h : ((avlSystem compare).replay emptyTable
      [.insertElement 10 1, .insertElement 20 2]).bind (fun p =>
        ((avlSystem compare).step p.1 (.enumerate true)).bind fun q =>
          ((avlSystem compare).replay q.1 o).map fun u => (q.2, u.2)) = some (.next true r, l)) :
    ∃ t1 t2 t es0, Runs (avlSystem compare).labelled emptyTable es0 t1 ∧
      (avlSystem compare).labelled t1 (.next true r) t2 ∧
      Runs (avlSystem compare).labelled t2 l t := by
  obtain ⟨⟨t1, es0⟩, h1, hrest⟩ := bind_eq_some_iff.mp h
  obtain ⟨⟨t2, e⟩, h2, hrest⟩ := bind_eq_some_iff.mp hrest
  obtain ⟨⟨t, l'⟩, h3, heq⟩ := map_eq_some_iff.mp hrest
  obtain ⟨rfl, rfl⟩ := heq
  exact ⟨t1, t2, t, es0, Runs.of_replay .nil h1, ⟨.enumerate true, trivial, h2⟩,
    Runs.of_replay .nil h3⟩

/-- The last element returned is deleted, and a smaller one inserted: it is returned next. -/
theorem enumeration_not_increasing : ∃ (t₀ t₁ t₂ t : GenericTableAvl Nat Nat)
    (es₀ es : List (Cursor.Event Nat)) (r : Option Nat), (avlSystem compare).init t₀ ∧
    Runs (avlSystem compare).labelled t₀ es₀ t₁ ∧
    (avlSystem compare).labelled t₁ (.next true r) t₂ ∧
    Runs (avlSystem compare).labelled t₂ es t ∧ (∀ o, Cursor.Event.next true o ∉ es) ∧
    ∃ i j x y, i < j ∧ Cursor.Returned (.next true r :: es) i x ∧
      Cursor.Returned (.next true r :: es) j y ∧ compare x y ≠ .lt := by
  obtain ⟨t₁, t₂, t, es₀, h₁, h₂, h₃⟩ := runs_of_replay (r := some 10)
    (o := [.enumerate false, .deleteElement 20, .insertElement 15 3, .enumerate false])
    (l := [.next false (some 20), .delete 20 true, .insert 15 true, .next false (some 15)])
    (by decide +kernel)
  exact ⟨emptyTable, t₁, t₂, t, es₀, _, some 10, ⟨_, _, _, _, rfl⟩, h₁, h₂, h₃, by simp, 1, 4, 20, 15,
    by decide, ⟨false, rfl⟩, ⟨false, rfl⟩, by decide⟩

theorem enumeration_survives_updates_replay : ∃ (t₁ t₂ t : GenericTableAvl Nat Nat)
    (es₀ : List (Cursor.Event Nat)), Runs (avlSystem compare).labelled emptyTable es₀ t₁ ∧
    (avlSystem compare).labelled t₁ (.next true (some 10)) t₂ ∧
    Runs (avlSystem compare).labelled t₂ [.next false (some 20), .next false none] t ∧
    ∀ x, Present compare t₁ x →
      ∃ i, Cursor.Returned [.next true (some 10), .next false (some 20), .next false none] i x := by
  obtain ⟨t₁, t₂, t, es₀, hbefore, hrestart, hafter⟩ := runs_of_replay (r := some 10)
    (o := [.enumerate false, .enumerate false])
    (l := [.next false (some 20), .next false none]) (by decide +kernel)
  refine ⟨t₁, t₂, t, es₀, hbefore, hrestart, hafter, ?_⟩
  intro x hx
  have hall := (enumeration_survives_updates ⟨_, _, _, _, rfl⟩ hbefore hrestart hafter
    (by simp)).2.2 false rfl x hx
  obtain ⟨i, hi, -⟩ := hall (by
    rintro p ⟨k, hk, -⟩
    have hmem := List.mem_of_getElem? hk
    simp at hmem)
  exact ⟨i, hi⟩

end Inv

end Rtl
