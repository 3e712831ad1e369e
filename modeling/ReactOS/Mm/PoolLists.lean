import ReactOS.Lib.Transition

/-! # The free lists of a pool

    `ExAllocatePoolWithTag` and `ExFreePoolWithTag` (`ntoskrnl/mm/ARM3/expool.c`), for requests that fit
    in a page and are not served from a lookaside list.  Sizes are in units of `POOL_BLOCK_SIZE`, which
    is also the size of a `POOL_HEADER`.

    The header of a free block is kept with it on its list.  The free blocks beside a block that is
    freed, which the code finds through the headers of the page, are given with the call.  Left out are
    tags, counters and the lists that track allocations. -/

namespace Pool

open Transition

/-! ## Section 1: Blocks and lists -/

/-- `POOL_BLOCK_SIZE`. -/
def poolBlockSize : Bool → Nat
  | true => 16
  | false => 8

/-- `POOL_LISTS_PER_PAGE`. -/
def poolListsPerPage (win64 : Bool) : Nat := 4096 / poolBlockSize win64

/-- `POOL_MAX_ALLOC`. -/
def poolMaxAlloc (win64 : Bool) : Nat := 4096 - (poolBlockSize win64 + poolBlockSize win64)

/-- A block and its `POOL_HEADER`.  `previousSize` is 0 for the first block of a page. -/
structure Block where
  page : Nat
  index : Nat
  previousSize : Nat
  blockSize : Nat
  deriving DecidableEq, Repr

/-- `POOL_DESCRIPTOR`. -/
structure Descriptor where
  listHeads : Nat → List Block

/-- `ExpInsertPoolHeadList` or `ExpInsertPoolTailList`, on the list for the size of the block. -/
def Descriptor.insert (d : Descriptor) (atHead : Bool) (b : Block) : Descriptor :=
  ⟨fun j => if j = b.blockSize - 1 then
    if atHead then b :: d.listHeads j else d.listHeads j ++ [b] else d.listHeads j⟩

/-- `ExpRemovePoolHeadList`. -/
def Descriptor.removeHead (d : Descriptor) (listHead : Nat) : Descriptor :=
  ⟨fun j => if j = listHead then (d.listHeads j).tail else d.listHeads j⟩

/-- `ExpRemovePoolEntryList`.  A block that is only a header is on no list. -/
def Descriptor.removeEntry (d : Descriptor) (b : Block) : Descriptor :=
  if b.blockSize = 1 then d else ⟨fun j => (d.listHeads j).erase b⟩

/-- What is left of a block is filed again, unless it is only a header. -/
def Descriptor.fileFragment (d : Descriptor) (fragment : Block) : Descriptor :=
  if fragment.blockSize = 1 then d else d.insert false fragment

/-! ## Section 2: Allocating and freeing -/

/-- The units that a request needs, its header included. -/
def unitsFor (win64 : Bool) (numberOfBytes : Nat) : Nat :=
  ((if numberOfBytes = 0 then 1 else numberOfBytes) + poolBlockSize win64 +
    (poolBlockSize win64 - 1)) / poolBlockSize win64

/-- The loop over the next lists: the first one that is not empty, and its first entry. -/
def findEntry (d : Descriptor) : Nat → Nat → Option (Nat × Block)
  | 0, _ => none
  | n + 1, listHead =>
    match d.listHeads listHead with
    | [] => findEntry d n (listHead + 1)
    | entry :: _ => some (listHead, entry)

/-- The block that is given out and the fragment, if the entry is larger than needed. -/
def splitEntry (entry : Block) (i : Nat) : Block × Block :=
  if entry.previousSize = 0 then
    ({ entry with blockSize := i },
      { entry with index := entry.index + i, previousSize := i, blockSize := entry.blockSize - i })
  else
    ({ entry with
        index := entry.index + (entry.blockSize - i), previousSize := entry.blockSize - i, blockSize := i },
      { entry with blockSize := entry.blockSize - i })

/-- Where the block of a request comes from.  `MiAllocatePoolPages` may have no page. -/
inductive Allocation where
  | listed (entry : Block)
  | freshPage (entry : Option Block)
  deriving DecidableEq, Repr

/-- `ExAllocatePoolWithTag`. -/
def exAllocatePoolWithTag (win64 : Bool) (d : Descriptor) (numberOfBytes : Nat)
    (miAllocatePoolPages : Option Nat) : Allocation × Descriptor :=
  let i := unitsFor win64 numberOfBytes
  match findEntry d (poolListsPerPage win64 - i) i, miAllocatePoolPages with
  | some (listHead, entry), _ =>
    let d := d.removeHead listHead
    if entry.blockSize ≠ i then
      (.listed (splitEntry entry i).1, d.fileFragment (splitEntry entry i).2)
    else (.listed entry, d)
  | none, none => (.freshPage none, d)
  | none, some page =>
    (.freshPage (some ⟨page, 0, 0, i⟩), d.fileFragment ⟨page, i, i, poolListsPerPage win64 - i⟩)

/-- `ExFreePoolWithTag`, with the free blocks right behind the block and right before it. -/
def exFreePoolWithTag (win64 : Bool) (d : Descriptor) (entry : Block) (next previous : Option Block) :
    Descriptor :=
  let d := next.elim d d.removeEntry
  let entry : Block := { entry with blockSize := entry.blockSize + next.elim 0 (·.blockSize) }
  let d := previous.elim d d.removeEntry
  let entry : Block := previous.elim entry fun p => { p with blockSize := p.blockSize + entry.blockSize }
  if entry.index = 0 ∧ (entry.index + entry.blockSize) % poolListsPerPage win64 = 0 then d
  else d.insert true entry

inductive PoolCall where
  | allocate (numberOfBytes : Nat) (miAllocatePoolPages : Option Nat)
  | free (entry : Block) (next previous : Option Block)
  deriving DecidableEq, Repr

/-- A block that was given out has more than a header. -/
def poolSystem (win64 : Bool) : System Descriptor PoolCall Unit where
  init := fun d => d = ⟨fun _ => []⟩
  legal := fun _ c => match c with
    | .allocate numberOfBytes _ => numberOfBytes ≤ poolMaxAlloc win64
    | .free entry _ _ => 1 < entry.blockSize
  step := fun d c => match c with
    | .allocate numberOfBytes page => some ((exAllocatePoolWithTag win64 d numberOfBytes page).2, ())
    | .free entry next previous => some (exFreePoolWithTag win64 d entry next previous, ())

/-! ## Section 3: Every block is on the list below its size -/

variable {win64 : Bool} {d d' : Descriptor} {b : Block} {numberOfBytes : Nat}

def Filed (d : Descriptor) : Prop := ∀ j, ∀ b ∈ d.listHeads j, b.blockSize = j + 1

theorem Filed.mono (h : Filed d) (hsub : ∀ j, d'.listHeads j ⊆ d.listHeads j) : Filed d' :=
  fun j b hb => h j b (hsub j hb)

theorem Filed.insert (h : Filed d) (hb : 0 < b.blockSize) (atHead : Bool) :
    Filed (d.insert atHead b) := by
  intro j b' hb'
  simp only [Descriptor.insert] at hb'
  split at hb'
  · rename_i hj
    have hmem : b' = b ∨ b' ∈ d.listHeads j := by
      cases atHead
      · simpa [or_comm] using hb'
      · simpa using hb'
    rcases hmem with rfl | hmem
    · omega
    · exact h j b' hmem
  · exact h j b' hb'

theorem Filed.fileFragment (h : Filed d) (hb : 0 < b.blockSize) : Filed (d.fileFragment b) := by
  unfold Descriptor.fileFragment
  split
  · exact h
  · exact h.insert hb false

theorem Filed.removeHead (h : Filed d) (listHead : Nat) : Filed (d.removeHead listHead) := by
  refine h.mono fun j => ?_
  simp only [Descriptor.removeHead]
  split
  · exact fun _ => List.mem_of_mem_tail
  · exact List.Subset.refl _

theorem Filed.removeEntry (h : Filed d) (o : Option Block) : Filed (o.elim d d.removeEntry) := by
  cases o with
  | none => exact h
  | some b =>
    simp only [Option.elim, Descriptor.removeEntry]
    split
    · exact h
    · exact h.mono fun _ => List.erase_subset

theorem findEntry_eq_none {n j : Nat} :
    findEntry d n j = none ↔ ∀ k, j ≤ k → k < j + n → d.listHeads k = [] := by
  induction n generalizing j with
  | zero => exact ⟨fun _ k h1 h2 => by omega, fun _ => rfl⟩
  | succ n ih =>
    rw [findEntry]
    split
    · grind
    · grind

theorem findEntry_mem {n j k : Nat} {entry : Block} (h : findEntry d n j = some (k, entry)) :
    j ≤ k ∧ entry ∈ d.listHeads k := by
  induction n generalizing j with
  | zero => cases h
  | succ n ih =>
    rw [findEntry] at h
    split at h
    · have := ih h
      exact ⟨by omega, this.2⟩
    · rename_i hcons
      cases h
      exact ⟨Nat.le_refl _, by simp [hcons]⟩

theorem unitsFor_lt (hn : numberOfBytes ≤ poolMaxAlloc win64) :
    unitsFor win64 numberOfBytes < poolListsPerPage win64 := by
  unfold unitsFor poolListsPerPage
  unfold poolMaxAlloc at hn
  cases win64 <;> simp only [poolBlockSize] at hn ⊢ <;> split <;> omega

theorem Filed.allocate (h : Filed d) (hn : numberOfBytes ≤ poolMaxAlloc win64) (page : Option Nat) :
    Filed (exAllocatePoolWithTag win64 d numberOfBytes page).2 := by
  have hlt := unitsFor_lt hn
  unfold exAllocatePoolWithTag
  dsimp only
  split
  · rename_i listHead entry hfind
    obtain ⟨hle, hmem⟩ := findEntry_mem hfind
    have hsize := h listHead entry hmem
    have hhead := h.removeHead listHead
    split
    · refine hhead.fileFragment ?_
      unfold splitEntry
      split <;> dsimp only <;> omega
    · exact hhead
  · exact h
  · exact h.fileFragment (Nat.sub_pos_of_lt hlt)

theorem Filed.free (h : Filed d) (hb : 1 < b.blockSize) (next previous : Option Block) :
    Filed (exFreePoolWithTag win64 d b next previous) := by
  unfold exFreePoolWithTag
  dsimp only
  have hrest := (h.removeEntry next).removeEntry previous
  split
  · exact hrest
  · refine hrest.insert ?_ true
    cases previous <;> simp only [Option.elim] <;> omega

theorem filed_of_reachable (hd : Reachable (poolSystem win64) (fun _ _ => True) d) : Filed d := by
  refine hd.invariant (fun d hinit => ?_) fun d c d' r h hlegal _ hstep => ?_
  · cases hinit
    intro j b hb
    cases hb
  · cases c with
    | allocate numberOfBytes page =>
      cases hstep
      exact h.allocate hlegal page
    | free entry next previous =>
      cases hstep
      exact h.free hlegal next previous

/-! ## Section 4: When a fresh page is taken -/

/-- The block is on a free list of the descriptor. -/
def Descriptor.Free (d : Descriptor) (win64 : Bool) (b : Block) : Prop :=
  ∃ j < poolListsPerPage win64, b ∈ d.listHeads j

/-- `ExAllocatePoolWithTag` asks for a page. -/
def TakesPage (win64 : Bool) (d : Descriptor) (numberOfBytes : Nat) (page : Option Nat) : Prop :=
  ∃ entry, (exAllocatePoolWithTag win64 d numberOfBytes page).1 = .freshPage entry

/-- Only the blocks that are larger than the request are looked at. -/
theorem takesPage_iff (h : Filed d) (hn : numberOfBytes ≤ poolMaxAlloc win64) (page : Option Nat) :
    TakesPage win64 d numberOfBytes page ↔
      ∀ b, d.Free win64 b → b.blockSize ≤ unitsFor win64 numberOfBytes := by
  have hlt := unitsFor_lt hn
  have hfind : TakesPage win64 d numberOfBytes page ↔ findEntry d
      (poolListsPerPage win64 - unitsFor win64 numberOfBytes) (unitsFor win64 numberOfBytes) = none := by
    unfold TakesPage exAllocatePoolWithTag
    dsimp only
    split
    · rename_i hsome
      rw [hsome]
      split <;> simp
    · rename_i hnone
      simp [hnone]
    · rename_i hnone
      simp [hnone]
  rw [hfind, findEntry_eq_none]
  constructor
  · rintro hempty b ⟨j, hj, hb⟩
    refine Nat.le_of_not_lt fun hlarge => ?_
    rw [h j b hb] at hlarge
    rw [hempty j (by omega) (by omega)] at hb
    cases hb
  · intro hsmall k h1 h2
    refine List.eq_nil_iff_forall_not_mem.2 fun b hb => ?_
    have := hsmall b ⟨k, by omega, hb⟩
    rw [h k b hb] at this
    omega

/-- A fresh page is taken only for lack of a block, unless the largest free block has just the size of
    the request: that one is on the list below those that are searched. -/
theorem freshPage_only_if_needed_iff {page : Option Nat}
    (hd : Reachable (poolSystem win64) (fun _ _ => True) d)
    (hn : numberOfBytes ≤ poolMaxAlloc win64) :
    (TakesPage win64 d numberOfBytes page →
      ∀ b, d.Free win64 b → b.blockSize < unitsFor win64 numberOfBytes) ↔
    (∃ b, d.Free win64 b ∧ unitsFor win64 numberOfBytes < b.blockSize) ∨
      ∀ b, d.Free win64 b → b.blockSize ≠ unitsFor win64 numberOfBytes := by
  rw [takesPage_iff (filed_of_reachable hd) hn]
  constructor
  · grind
  · grind

/-- The pool after a first request for 2032 bytes, which takes half of a page. -/
def halfFree : Descriptor := (exAllocatePoolWithTag true ⟨fun _ => []⟩ 2032 (some 0)).2

theorem halfFree_reachable : Reachable (poolSystem true) (fun _ _ => True) halfFree :=
  .step (a := .allocate 2032 (some 0)) (.init rfl) (show 2032 ≤ _ by decide) trivial rfl

theorem halfFree_free : halfFree.Free true ⟨0, 128, 128, 128⟩ := ⟨127, by decide, by decide⟩

/-- A request for 3000 bytes does not fit into the free half of the page. -/
theorem freshPage_only_if_needed_large : halfFree.Free true ⟨0, 128, 128, 128⟩ ∧
    TakesPage true halfFree 3000 (some 1) ∧
    (TakesPage true halfFree 3000 (some 1) →
      ∀ b, halfFree.Free true b → b.blockSize < unitsFor true 3000) := by
  have hsize : ∀ j < 256, ∀ b ∈ halfFree.listHeads j, b.blockSize ≠ 189 := by decide +kernel
  exact ⟨halfFree_free, ⟨_, rfl⟩,
    (freshPage_only_if_needed_iff halfFree_reachable (by decide)).2
      (.inr fun b ⟨j, hj, hb⟩ => hsize j hj b hb)⟩

/-- A second request for 2032 bytes takes a page of its own though the other half of the first page
    is free. -/
theorem second_half_not_found : ∃ d, Reachable (poolSystem true) (fun _ _ => True) d ∧
    2032 ≤ poolMaxAlloc true ∧ TakesPage true d 2032 (some 1) ∧
    ∃ b, d.Free true b ∧ b.blockSize = unitsFor true 2032 :=
  ⟨halfFree, halfFree_reachable, by decide, ⟨_, rfl⟩, _, halfFree_free, rfl⟩

end Pool
