import Mathlib.Data.List.Nodup

/-! # Handle tables

    The executive's handle tables (`ntoskrnl/ex/handle.c`): a handle value is an index into pages
    of entries, and the pages hang in a tree of one, two or three levels that grows with the table.
    Free entries are linked through themselves by handle values, in two lists.

    The memory of the tables is part of the state: pages of entries, of pointers to such pages, and
    of pointers to those.  The runs are those of one thread, so that no lock of a table is ever
    found taken and every interlocked exchange succeeds.  `none` is a null pointer that is followed
    or a wait that nothing ends.

    The second half says what the tree means: the tables of one page each that it holds, in order,
    are one table of entries. -/

namespace Ex

open List

/-! ## Section 1: Handle values and memory -/

/-- The machines that differ in the size of a table entry and of a pointer. -/
inductive Platform where
  | x86
  | amd64
  deriving DecidableEq, Repr

namespace Platform

/-- `LOW_LEVEL_ENTRIES`: entries of 8 or of 16 bytes on a page. -/
def lowLevelEntries : Platform → Nat
  | x86 => 512
  | amd64 => 256

/-- `MID_LEVEL_ENTRIES`, which is also the range of the fields `MidIndex` and `HighIndex`. -/
def midLevelEntries : Platform → Nat
  | x86 => 1024
  | amd64 => 512

/-- `HIGH_LEVEL_ENTRIES`. -/
def highLevelEntries : Platform → Nat
  | x86 => 32
  | amd64 => 128

end Platform

/-- `INDEX_TO_HANDLE_VALUE`: two tag bits below the index. -/
def indexToHandleValue (x : Nat) : Nat := 4 * x

/-- `HANDLE_TABLE_ENTRY`: `Object` or `Value`, and the union of `GrantedAccess` with
    `NextFreeTableEntry`. -/
structure HandleTableEntry where
  value : Nat
  nextFreeTableEntry : Nat
  deriving DecidableEq, Repr

/-- The `-2` that marks the first entry of a page. -/
def reservedMark : Nat := 0xFFFFFFFE

/-- A pointer to an entry: the page and the index in it. -/
structure EntryPointer where
  page : Nat
  index : Nat
  deriving DecidableEq, Repr

/-- `TableCode`: the level, and the page that the tree starts with. -/
inductive TableCode where
  | level0 (base : Nat)
  | level1 (base : Nat)
  | level2 (base : Nat)
  deriving DecidableEq, Repr

/-- `HANDLE_TABLE`, and the pages that it can reach.  `pool` is the next page that will be
    allocated; what a page of entries holds before that is arbitrary. -/
structure HandleTable where
  tableCode : TableCode
  firstFree : Nat
  lastFree : Nat
  nextHandleNeedingPool : Nat
  handleCount : Int
  lowTables : Nat → Nat → HandleTableEntry
  midTables : Nat → Nat → Option Nat
  highTables : Nat → Nat → Option Nat
  pool : Nat

namespace HandleTable

def entry (t : HandleTable) (pointer : EntryPointer) : HandleTableEntry :=
  t.lowTables pointer.page pointer.index

def writeEntry (t : HandleTable) (pointer : EntryPointer) (e : HandleTableEntry) : HandleTable :=
  { t with lowTables := fun page index =>
      if page = pointer.page ∧ index = pointer.index then e else t.lowTables page index }

def writeMid (t : HandleTable) (page index : Nat) (low : Nat) : HandleTable :=
  { t with midTables := fun q i => if q = page ∧ i = index then some low else t.midTables q i }

def writeHigh (t : HandleTable) (page index : Nat) (mid : Nat) : HandleTable :=
  { t with highTables := fun q i => if q = page ∧ i = index then some mid else t.highTables q i }

/-- `ExpAllocateTablePagedPool` for a table of pointers to pages of entries. -/
def allocateMid (t : HandleTable) : Nat × HandleTable :=
  (t.pool, { t with
    midTables := fun q i => if q = t.pool then none else t.midTables q i
    pool := t.pool + 1 })

/-- `ExpAllocateTablePagedPool` for a table of the third level. -/
def allocateHigh (t : HandleTable) : Nat × HandleTable :=
  (t.pool, { t with
    highTables := fun q i => if q = t.pool then none else t.highTables q i
    pool := t.pool + 1 })

end HandleTable

/-! ## Section 2: The routines -/

section Routines

variable (p : Platform)

/-- `ExpLookupHandleTableEntry`; `some none` is its `NULL`. -/
def expLookupHandleTableEntry (t : HandleTable) (handle : Nat) : Option (Option EntryPointer) := do
  let handle := handle / 4 * 4
  if handle ≥ t.nextHandleNeedingPool then return none
  let lowIndex := handle / 4 % p.lowLevelEntries
  let midIndex := handle / 4 / p.lowLevelEntries % p.midLevelEntries
  let highIndex := handle / 4 / p.lowLevelEntries / p.midLevelEntries % p.midLevelEntries
  match t.tableCode with
  | .level0 base => return some ⟨base, lowIndex⟩
  | .level1 base => return some ⟨← t.midTables base midIndex, lowIndex⟩
  | .level2 base =>
    let mid ← t.highTables base highIndex
    return some ⟨← t.midTables mid midIndex, lowIndex⟩

/-- The loop that links the entries of a new page, with `count` entries to go, and the last entry
    that ends the list. -/
def linkEntries (page : Nat) : Nat → Nat → Nat → HandleTable → HandleTable
  | 0, index, _, t => t.writeEntry ⟨page, index⟩ ⟨0, 0⟩
  | count + 1, index, next, t =>
    linkEntries page count (index + 1) (next + indexToHandleValue 1)
      (t.writeEntry ⟨page, index⟩ ⟨0, next⟩)

/-- `ExpAllocateLowLevelTable`. -/
def expAllocateLowLevelTable (t : HandleTable) (doInit : Bool) : Nat × HandleTable :=
  let low := t.pool
  let t := { t with pool := t.pool + 1 }
  let t := t.writeEntry ⟨low, 0⟩ ⟨0, reservedMark⟩
  if doInit then
    let base := t.nextHandleNeedingPool + indexToHandleValue 2
    (low, linkEntries low (p.lowLevelEntries - 2) 1 base t)
  else (low, t)

/-- `ExpAllocateMidLevelTable`: the new table, and the page of entries that it begins with. -/
def expAllocateMidLevelTable (t : HandleTable) (doInit : Bool) : Nat × Nat × HandleTable :=
  let (mid, t) := t.allocateMid
  let (low, t) := expAllocateLowLevelTable p t doInit
  (mid, low, t.writeMid mid 0 low)

/-- The end of `ExpAllocateHandleTableEntrySlow`, once the new page is in the tree. -/
def publishLowTable (t : HandleTable) (low : Nat) (doInit : Bool) : HandleTable :=
  let index := t.nextHandleNeedingPool
  let t := { t with nextHandleNeedingPool := index + indexToHandleValue p.lowLevelEntries }
  if doInit then
    let last : EntryPointer := ⟨low, p.lowLevelEntries - 1⟩
    let t := t.writeEntry last { t.entry last with nextFreeTableEntry := t.firstFree }
    { t with firstFree := index + indexToHandleValue 1 }
  else t

/-- `ExpAllocateHandleTableEntrySlow`. -/
def expAllocateHandleTableEntrySlow (t : HandleTable) (doInit : Bool) : Bool × HandleTable :=
  match t.tableCode with
  | .level0 base =>
    let (mid, low, t) := expAllocateMidLevelTable p t doInit
    let t := (t.writeMid mid 1 low).writeMid mid 0 base
    (true, publishLowTable p { t with tableCode := .level1 mid } low doInit)
  | .level1 base =>
    let i := t.nextHandleNeedingPool / indexToHandleValue p.lowLevelEntries
    if i < p.midLevelEntries then
      let (low, t) := expAllocateLowLevelTable p t doInit
      (true, publishLowTable p (t.writeMid base i low) low doInit)
    else
      let (high, t) := t.allocateHigh
      let (mid, low, t) := expAllocateMidLevelTable p t doInit
      let t := (t.writeHigh high 0 base).writeHigh high 1 mid
      (true, publishLowTable p { t with tableCode := .level2 high } low doInit)
  | .level2 base =>
    let maxMidIndex := p.midLevelEntries * p.lowLevelEntries
    let i := t.nextHandleNeedingPool / indexToHandleValue maxMidIndex
    if i ≥ p.highLevelEntries then (false, t)
    else
      match t.highTables base i with
      | none =>
        let (mid, low, t) := expAllocateMidLevelTable p t doInit
        (true, publishLowTable p (t.writeHigh base i mid) low doInit)
      | some mid =>
        let index := t.nextHandleNeedingPool / indexToHandleValue 1 - i * maxMidIndex
        let j := index / p.lowLevelEntries
        let (low, t) := expAllocateLowLevelTable p t doInit
        (true, publishLowTable p (t.writeMid mid j low) low doInit)

/-- `ExpMoveFreeHandles`, for a table that is not strict FIFO. -/
def expMoveFreeHandles (t : HandleTable) : Nat × HandleTable :=
  let lastFree := t.lastFree
  let t := { t with lastFree := 0 }
  if lastFree = 0 then (lastFree, t)
  else if t.firstFree = 0 then (lastFree, { t with firstFree := lastFree })
  else (lastFree, t)

/-- The inner loop of `ExpAllocateHandleTableEntry`: a free entry is made if there is none.  The
    value is 0 if that failed. -/
def expFindFreeHandle (t : HandleTable) : Nat × HandleTable :=
  if t.firstFree ≠ 0 then (t.firstFree, t)
  else
    let (oldValue, t) := expMoveFreeHandles t
    if oldValue ≠ 0 then (oldValue, t)
    else
      let (_, t) := expAllocateHandleTableEntrySlow p t true
      (t.firstFree, t)

/-- `ExpAllocateHandleTableEntry`: the handle and its entry, or no entry. -/
def expAllocateHandleTableEntry (t : HandleTable) :
    Option (Option (Nat × EntryPointer) × HandleTable) := do
  let (oldValue, t) := expFindFreeHandle p t
  if oldValue = 0 then return (none, t)
  let handle := oldValue
  -- A value outside the table gives no entry to take the link from.
  let entry ← ← expLookupHandleTableEntry p t handle
  let newValue := (t.entry entry).nextFreeTableEntry
  let t := { t with firstFree := newValue, handleCount := t.handleCount + 1 }
  return (some (handle, entry), t)

/-- `ExUnlockHandleTableEntry`: bit 0 of the value says that the entry is not locked. -/
def exUnlockHandleTableEntry (t : HandleTable) (entry : EntryPointer) : HandleTable :=
  t.writeEntry entry { t.entry entry with value := (t.entry entry).value / 2 * 2 + 1 }

/-- `ExpLockHandleTableEntry`.  A value that is neither free nor unlocked is waited for. -/
def expLockHandleTableEntry (t : HandleTable) (entry : EntryPointer) :
    Option (Bool × HandleTable) :=
  let oldValue := (t.entry entry).value
  if oldValue % 2 = 1 then
    some (true, t.writeEntry entry { t.entry entry with value := oldValue / 2 * 2 })
  else if oldValue = 0 then some (false, t)
  else none

/-- `ExCreateHandle`; 0 is the null handle. -/
def exCreateHandle (t : HandleTable) (handleTableEntry : HandleTableEntry) :
    Option (Nat × HandleTable) := do
  match ← expAllocateHandleTableEntry p t with
  | (some (handle, newEntry), t) =>
    let t := t.writeEntry newEntry handleTableEntry
    return (handle, exUnlockHandleTableEntry t newEntry)
  | (none, t) => return (0, t)

/-- `ExpFreeHandleTableEntry`.  No lock of the table is taken, so that the entry goes to the list
    of the last free ones. -/
def expFreeHandleTableEntry (t : HandleTable) (handle : Nat) (entry : EntryPointer) : HandleTable :=
  let t := { t with handleCount := t.handleCount - 1 }
  let t := t.writeEntry entry { t.entry entry with nextFreeTableEntry := t.lastFree }
  { t with lastFree := handle / 4 * 4 }

/-- The end of `ExDestroyHandle`, with the entry locked. -/
def destroyEntry (t : HandleTable) (handle : Nat) (entry : EntryPointer) : HandleTable :=
  let t := t.writeEntry entry { t.entry entry with value := 0 }
  expFreeHandleTableEntry t handle entry

/-- `ExDestroyHandle`, with the entry if the caller has it. -/
def exDestroyHandle (t : HandleTable) (handle : Nat) (handleTableEntry : Option EntryPointer) :
    Option (Bool × HandleTable) := do
  match handleTableEntry with
  | none =>
    match ← expLookupHandleTableEntry p t handle with
    | none => return (false, t)
    | some entry =>
      if (t.entry entry).value = 0 ∨ (t.entry entry).nextFreeTableEntry = reservedMark then
        return (false, t)
      let (locked, t) ← expLockHandleTableEntry t entry
      if !locked then return (false, t)
      return (true, destroyEntry t handle entry)
  | some entry => return (true, destroyEntry t handle entry)

/-- `ExMapHandleToPointer`. -/
def exMapHandleToPointer (t : HandleTable) (handle : Nat) :
    Option (Option EntryPointer × HandleTable) := do
  if handle / 4 % p.lowLevelEntries = 0 then return (none, t)
  match ← expLookupHandleTableEntry p t handle with
  | none => return (none, t)
  | some entry =>
    let (locked, t) ← expLockHandleTableEntry t entry
    if !locked then return (none, t)
    return (some entry, t)

/-- `ExCreateHandleTable`, given what the memory holds. -/
def exCreateHandleTable (memory : Nat → Nat → HandleTableEntry) : HandleTable :=
  let t : HandleTable :=
    { tableCode := .level0 0, firstFree := 0, lastFree := 0, nextHandleNeedingPool := 0
      handleCount := 0, lowTables := memory, midTables := fun _ _ => none
      highTables := fun _ _ => none, pool := 1 }
  let t := t.writeEntry ⟨0, 0⟩ ⟨0, reservedMark⟩
  let t := linkEntries 0 (p.lowLevelEntries - 2) 1 (indexToHandleValue 2) t
  { t with
    firstFree := indexToHandleValue 1
    nextHandleNeedingPool := indexToHandleValue p.lowLevelEntries }

end Routines

/-! ## Section 3: New pages -/

variable {x : HandleTable} {q : Nat}

namespace HandleTable

@[simp] theorem entry_writeEntry_self (t : HandleTable) (pointer : EntryPointer)
    (e : HandleTableEntry) : (t.writeEntry pointer e).entry pointer = e := by
  simp [entry, writeEntry]

@[simp] theorem writeEntry_writeEntry (t : HandleTable) (pointer : EntryPointer)
    (e e' : HandleTableEntry) :
    (t.writeEntry pointer e).writeEntry pointer e' = t.writeEntry pointer e' := by
  simp only [writeEntry, mk.injEq, true_and, and_true]
  funext page index
  split
  · rfl
  · rfl

end HandleTable

/-- What the loop leaves in the page that it links. -/
def linkedEntry (index next count : Nat) (i : Nat) : HandleTableEntry :=
  if i < index + count then ⟨0, next + 4 * (i - index)⟩ else ⟨0, 0⟩

theorem linkEntries_eq (page count : Nat) : ∀ (index next : Nat) (t : HandleTable),
    linkEntries page count index next t =
      { t with lowTables := fun q i =>
          if q = page ∧ index ≤ i ∧ i ≤ index + count then linkedEntry index next count i
          else t.lowTables q i } := by
  induction count with
  | zero =>
    intro index next t
    simp only [linkEntries, HandleTable.writeEntry, HandleTable.mk.injEq, true_and, and_true]
    funext q i
    by_cases h : q = page ∧ i = index
    · simp [h, linkedEntry]
    · rw [if_neg h, if_neg (by omega)]
  | succ count ih =>
    intro index next t
    rw [linkEntries, ih]
    simp only [HandleTable.writeEntry, HandleTable.mk.injEq, true_and, and_true]
    funext q i
    by_cases hq : q = page
    · by_cases hi : i = index
      · rw [if_neg (by omega), if_pos ⟨hq, hi⟩, if_pos (by omega), linkedEntry, if_pos (by omega), hi,
          Nat.sub_self, Nat.mul_zero, Nat.add_zero]
      by_cases hin : index + 1 ≤ i ∧ i ≤ index + 1 + count
      · rw [if_pos ⟨hq, hin⟩, if_pos ⟨hq, by omega, by omega⟩, linkedEntry, linkedEntry,
          indexToHandleValue, show index + 1 + count = index + (count + 1) by omega,
          show next + 4 * 1 + 4 * (i - (index + 1)) = next + 4 * (i - index) by omega]
      · rw [if_neg (fun h => hin h.2), if_neg (fun h => hi h.2), if_neg (by omega)]
    · simp [hq]

section NewPage

variable {p : Platform}

theorem Platform.low_ge (p : Platform) : 3 ≤ p.lowLevelEntries := by
  cases p
  · decide
  · decide

theorem Platform.high_le_mid (p : Platform) : p.highLevelEntries ≤ p.midLevelEntries := by
  cases p
  · decide
  · decide

theorem Platform.mid_ge (p : Platform) : 2 ≤ p.midLevelEntries := by
  cases p
  · decide
  · decide

theorem Platform.high_ge (p : Platform) : 2 ≤ p.highLevelEntries := by
  cases p
  · decide
  · decide

/-- `t'` is `t` with the page `q` filled for the handles from `limit` on, and nothing else changed
    in the pages of entries. -/
structure Filled (p : Platform) (t t' : HandleTable) (q limit last : Nat) : Prop where
  frame : ∀ page, page ≠ q → t'.lowTables page = t.lowTables page
  reserved : t'.lowTables q 0 = ⟨0, reservedMark⟩
  linked : ∀ i, 1 ≤ i → i + 1 < p.lowLevelEntries →
    t'.lowTables q i = ⟨0, limit + 4 * (i + 1)⟩
  ended : t'.lowTables q (p.lowLevelEntries - 1) = ⟨0, last⟩

theorem Filled.congr {t t' y : HandleTable} {limit last : Nat} (h : Filled p t t' q limit last)
    (hy : y.lowTables = t.lowTables) (hx : x.lowTables = t'.lowTables) :
    Filled p y x q limit last where
  frame := by rw [hx, hy]; exact h.frame
  reserved := by rw [hx]; exact h.reserved
  linked := by rw [hx]; exact h.linked
  ended := by rw [hx]; exact h.ended

theorem filled_link (t : HandleTable) (q limit : Nat) :
    Filled p t (linkEntries q (p.lowLevelEntries - 2) 1 (limit + indexToHandleValue 2)
      (t.writeEntry ⟨q, 0⟩ ⟨0, reservedMark⟩)) q limit 0 := by
  have hlow := p.low_ge
  rw [linkEntries_eq]
  constructor
  case frame =>
    intro page hpage
    funext i
    simp [HandleTable.writeEntry, hpage]
  case reserved =>
    simp [HandleTable.writeEntry]
  case linked =>
    intro i h1 h2
    show (if q = q ∧ 1 ≤ i ∧ i ≤ 1 + (p.lowLevelEntries - 2) then _ else _) = _
    rw [if_pos ⟨rfl, by omega, by omega⟩, linkedEntry, if_pos (by omega), indexToHandleValue,
      show limit + 4 * 2 + 4 * (i - 1) = limit + 4 * (i + 1) by omega]
  case ended =>
    show (if q = q ∧ 1 ≤ p.lowLevelEntries - 1 ∧
      p.lowLevelEntries - 1 ≤ 1 + (p.lowLevelEntries - 2) then _ else _) = _
    rw [if_pos ⟨rfl, by omega, by omega⟩, linkedEntry, if_neg (by omega)]

/-- `ExpAllocateLowLevelTable` touches nothing but its page. -/
theorem expAllocateLowLevelTable_spec (t : HandleTable) :
    ∃ low, expAllocateLowLevelTable p t true =
        (t.pool, { t with lowTables := low, pool := t.pool + 1 }) ∧
      ∀ x : HandleTable, x.lowTables = low → Filled p t x t.pool t.nextHandleNeedingPool 0 := by
  have hlink := filled_link (p := p) t t.pool t.nextHandleNeedingPool
  refine ⟨_, ?_, fun x hx => hlink.congr rfl hx⟩
  simp only [expAllocateLowLevelTable, if_true, linkEntries_eq]
  rfl

/-- The last entry of the new page goes on with the list there was. -/
theorem publishLowTable_spec {t0 t : HandleTable} {limit : Nat} (h : Filled p t0 t q limit 0) :
    ∃ lowTables, publishLowTable p t q true =
        { t with
          lowTables := lowTables
          firstFree := t.nextHandleNeedingPool + 4
          nextHandleNeedingPool := t.nextHandleNeedingPool + 4 * p.lowLevelEntries } ∧
      ∀ t' : HandleTable, t'.lowTables = lowTables → Filled p t0 t' q limit t.firstFree := by
  have hlow := p.low_ge
  refine ⟨_, rfl, fun t' ht' => ?_⟩
  rw [HandleTable.writeEntry] at ht'
  constructor
  case frame =>
    intro page hpage
    rw [ht', ← h.frame page hpage]
    funext i
    simp [hpage]
  case reserved =>
    rw [ht', ← h.reserved]
    show (if q = q ∧ 0 = p.lowLevelEntries - 1 then _ else _) = _
    rw [if_neg (by omega)]
  case linked =>
    intro i h1 h2
    rw [ht', ← h.linked i h1 h2]
    show (if q = q ∧ i = p.lowLevelEntries - 1 then _ else _) = _
    rw [if_neg (by omega)]
  case ended =>
    rw [ht']
    show (if q = q ∧ p.lowLevelEntries - 1 = p.lowLevelEntries - 1 then _ else _) = _
    rw [if_pos ⟨rfl, rfl⟩]
    simp [HandleTable.entry, h.ended]

end NewPage

/-! ## Section 4: The tree as a list of pages -/

section Tree

variable {p : Platform} {t t' : HandleTable} {pages : List Nat} {base : Nat}
variable {mids : List Nat}

/-- The tables of the middle level, under a table of the third. -/
structure MidTables (p : Platform) (t : HandleTable) (base : Nat) (pages mids : List Nat) :
    Prop where
  high : ∀ i, t.highTables base i = mids[i]?
  nodup : mids.Nodup
  old : ∀ m ∈ mids, m < t.pool
  low : ∀ i m, mids[i]? = some m → ∀ j, j < p.midLevelEntries →
    t.midTables m j = pages[i * p.midLevelEntries + j]?
  full : pages.length ≤ mids.length * p.midLevelEntries
  needed : mids.length * p.midLevelEntries < pages.length + p.midLevelEntries
  count : mids.length ≤ p.highLevelEntries

/-- The tree holds the pages in order. -/
def Tree (p : Platform) (t : HandleTable) (pages : List Nat) : Prop :=
  match t.tableCode with
  | .level0 base => pages = [base]
  | .level1 base => base < t.pool ∧ 2 ≤ pages.length ∧ pages.length ≤ p.midLevelEntries ∧
      ∀ j, t.midTables base j = pages[j]?
  | .level2 base => base < t.pool ∧ p.midLevelEntries < pages.length ∧
      ∃ mids, MidTables p t base pages mids

/-- The pages of entries of a table: as many as its limit says, in the tree. -/
structure Shape (p : Platform) (t : HandleTable) (pages : List Nat) : Prop where
  limit : t.nextHandleNeedingPool = 4 * (p.lowLevelEntries * pages.length)
  nodup : pages.Nodup
  old : ∀ q ∈ pages, q < t.pool
  tree : Tree p t pages

theorem Tree.congr (h : Tree p t pages) (hcode : t'.tableCode = t.tableCode)
    (hmid : t'.midTables = t.midTables) (hhigh : t'.highTables = t.highTables)
    (hpool : t'.pool = t.pool) : Tree p t' pages := by
  unfold Tree at h ⊢
  rw [hcode]
  rcases hc : t.tableCode with base | base | base
  · simp only [hc] at h ⊢
    exact h
  · simp only [hc, hmid, hpool] at h ⊢
    exact h
  simp only [hc, hpool] at h ⊢
  obtain ⟨hbase, hlen, mids, hm⟩ := h
  refine ⟨hbase, hlen, mids, ?_, hm.nodup, ?_, ?_, hm.full, hm.needed, hm.count⟩
  · rw [hhigh]
    exact hm.high
  · rw [hpool]
    exact hm.old
  · rw [hmid]
    exact hm.low

theorem MidTables.lookup (h : MidTables p t base pages mids) {k : Nat} (hk : k < pages.length) :
    ∃ m, t.highTables base (k / p.midLevelEntries % p.midLevelEntries) = some m ∧
      t.midTables m (k % p.midLevelEntries) = pages[k]? := by
  have hmid := p.mid_ge
  have hdiv : k / p.midLevelEntries < mids.length :=
    Nat.div_lt_of_lt_mul (by rw [Nat.mul_comm]; exact Nat.lt_of_lt_of_le hk h.full)
  have hle : k / p.midLevelEntries < p.midLevelEntries :=
    Nat.lt_of_lt_of_le hdiv (Nat.le_trans h.count p.high_le_mid)
  have hget : mids[k / p.midLevelEntries]? = some mids[k / p.midLevelEntries] :=
    getElem?_eq_getElem hdiv
  refine ⟨mids[k / p.midLevelEntries], ?_, ?_⟩
  · rw [Nat.mod_eq_of_lt hle, h.high, hget]
  · rw [h.low _ _ hget _ (Nat.mod_lt k (by omega)), Nat.div_add_mod']

/-- A lookup finds the page that the index falls into, at each level of the tree. -/
theorem Shape.lookup (h : Shape p t pages) {v : Nat} (hv : v / 4 * 4 < t.nextHandleNeedingPool) :
    ∃ q, pages[v / 4 / p.lowLevelEntries]? = some q ∧
      expLookupHandleTableEntry p t v = some (some ⟨q, v / 4 % p.lowLevelEntries⟩) := by
  have hlimit := h.limit
  have hk : v / 4 / p.lowLevelEntries < pages.length := Nat.div_lt_of_lt_mul (by omega)
  have hdiv : v / 4 * 4 / 4 = v / 4 := Nat.mul_div_cancel _ (by decide)
  have hget := getElem?_eq_getElem hk
  have htree := h.tree
  unfold Tree at htree
  refine ⟨_, hget, ?_⟩
  simp only [expLookupHandleTableEntry, ge_iff_le, Nat.not_le.2 hv, if_false, hdiv]
  rcases hc : t.tableCode with base | base | base
  · grind
  · simp only [hc] at htree
    obtain ⟨-, -, hlen, hmid⟩ := htree
    simp only [hmid, Nat.mod_eq_of_lt (Nat.lt_of_lt_of_le hk hlen), hget, bind, Option.bind_some,
      pure]
  · simp only [hc] at htree
    obtain ⟨-, -, mids, hmids⟩ := htree
    obtain ⟨m, hm, hlow⟩ := hmids.lookup hk
    simp only [hm, hlow, hget, bind, Option.bind_some, pure]

/-- `t'` is `t` with one more page. -/
structure Grown (p : Platform) (t t' : HandleTable) (q : Nat) : Prop where
  new : t.pool ≤ q
  filled : Filled p t t' q t.nextHandleNeedingPool t.firstFree
  firstFree : t'.firstFree = t.nextHandleNeedingPool + 4
  lastFree : t'.lastFree = t.lastFree
  handleCount : t'.handleCount = t.handleCount

theorem getElem?_concat {α : Type} (l : List α) (a : α) (i : Nat) :
    (l ++ [a])[i]? = if i = l.length then some a else l[i]? := by
  grind

theorem nodup_concat {l : List Nat} {pool : Nat} (hl : l.Nodup) (hold : ∀ a ∈ l, a < pool)
    (hq : pool ≤ q) : (l ++ [q]).Nodup := by
  refine nodup_append_comm.1 (nodup_cons.2 ⟨fun hmem => ?_, hl⟩)
  have hlt := hold q hmem
  omega

theorem old_concat {l : List Nat} {pool pool' : Nat} (hold : ∀ a ∈ l, a < pool) (hq : pool ≤ q)
    (hq' : q < pool') : ∀ a ∈ l ++ [q], a < pool' := by
  refine forall_mem_append.2 ⟨fun a ha => ?_, forall_mem_singleton.2 hq'⟩
  have hlt := hold a ha
  omega

/-- The slow path adds a page behind the others. -/
def AddsPage (p : Platform) (t : HandleTable) (pages : List Nat) : Prop :=
  ∃ t' q, expAllocateHandleTableEntrySlow p t true = (true, t') ∧ Grown p t t' q ∧
    Shape p t' (pages ++ [q])

/-- A page that has been filled and put behind the others of the tree is published. -/
theorem addsPage_publish (hshape : Shape p t pages)
    (hrun : expAllocateHandleTableEntrySlow p t true = (true, publishLowTable p x q true))
    (hfilled : Filled p t x q t.nextHandleNeedingPool 0)
    (hfields : x.nextHandleNeedingPool = t.nextHandleNeedingPool ∧ x.firstFree = t.firstFree ∧
      x.lastFree = t.lastFree ∧ x.handleCount = t.handleCount)
    (hnew : t.pool ≤ q) (hq : q < x.pool) (htree : Tree p x (pages ++ [q])) :
    AddsPage p t pages := by
  obtain ⟨hlimit, hfirst, hlast, hcount⟩ := hfields
  obtain ⟨lowTables, heq, hpublished⟩ := publishLowTable_spec hfilled
  rw [heq] at hrun
  refine ⟨_, q, hrun, ⟨hnew, ?_, ?_, hlast, hcount⟩, ?_, ?_, ?_, ?_⟩
  · rw [← hfirst]
    exact hpublished _ rfl
  · rw [hlimit]
  · rw [hlimit, hshape.limit, length_append, length_singleton, Nat.mul_add, Nat.mul_one,
      Nat.mul_add]
  · exact nodup_concat hshape.nodup hshape.old hnew
  · exact old_concat hshape.old hnew hq
  · exact htree.congr rfl rfl rfl rfl

theorem expAllocateMidLevelTable_spec (t : HandleTable) :
    ∃ low, expAllocateMidLevelTable p t true = (t.pool, t.pool + 1, { t with
        lowTables := low
        midTables := fun q i => if q = t.pool then [t.pool + 1][i]? else t.midTables q i
        pool := t.pool + 2 }) ∧
      ∀ x : HandleTable, x.lowTables = low →
        Filled p t x (t.pool + 1) t.nextHandleNeedingPool 0 := by
  obtain ⟨low, hlow, hfilled⟩ := expAllocateLowLevelTable_spec (p := p) t.allocateMid.2
  refine ⟨low, ?_, fun x hx => (hfilled x hx).congr rfl rfl⟩
  simp only [expAllocateMidLevelTable, hlow]
  simp only [HandleTable.writeMid, HandleTable.allocateMid, Prod.mk.injEq, HandleTable.mk.injEq,
    true_and, and_true]
  funext q i
  by_cases hq : q = t.pool
  · by_cases hi : i = 0
    · simp [hq, hi]
    · simp [hq, hi]
  · simp [hq]

/-- The growth from one level to two. -/
theorem slow_level0 (h : Shape p t pages) (hc : t.tableCode = .level0 base) :
    AddsPage p t pages := by
  have htree := h.tree
  simp only [Tree, hc] at htree
  obtain ⟨low, hlow, hfilled⟩ := expAllocateMidLevelTable_spec (p := p) t
  apply addsPage_publish h
  · simp only [expAllocateHandleTableEntrySlow, hc, hlow]
    rfl
  · exact hfilled _ rfl
  · exact ⟨rfl, rfl, rfl, rfl⟩
  · exact Nat.le_succ _
  · exact Nat.lt_succ_self _
  · have hmid := p.mid_ge
    simp only [Tree, HandleTable.writeMid, htree, singleton_append, length_cons, length_nil]
    refine ⟨by omega, by omega, by omega, fun j => ?_⟩
    rcases j with _ | _ | j
    · simp
    · simp
    · simp

theorem Shape.nextPage (h : Shape p t pages) :
    t.nextHandleNeedingPool / indexToHandleValue p.lowLevelEntries = pages.length := by
  have hlow := p.low_ge
  rw [h.limit, indexToHandleValue, ← Nat.mul_assoc]
  exact Nat.mul_div_cancel_left _ (by omega)

/-- One more page below a table of the middle level. -/
theorem slow_level1_room (h : Shape p t pages) (hc : t.tableCode = .level1 base)
    (hroom : pages.length < p.midLevelEntries) : AddsPage p t pages := by
  have htree := h.tree
  simp only [Tree, hc] at htree
  obtain ⟨hbase, hge, -, hmid⟩ := htree
  obtain ⟨low, hlow, hfilled⟩ := expAllocateLowLevelTable_spec (p := p) t
  apply addsPage_publish h
  · simp only [expAllocateHandleTableEntrySlow, hc, h.nextPage, hroom, if_true, hlow]
    rfl
  · exact hfilled _ rfl
  · exact ⟨rfl, rfl, rfl, rfl⟩
  · exact Nat.le_refl _
  · exact Nat.lt_succ_self _
  simp only [Tree, HandleTable.writeMid, length_append, length_singleton]
  refine ⟨by omega, by omega, by omega, fun j => ?_⟩
  rw [hmid, getElem?_concat]
  by_cases hj : j = pages.length
  · simp [hj]
  · simp [hj]

/-- One more table of the middle level, with one page, behind others that are full. -/
theorem MidTables.addTable {mid page : Nat}
    (hm : MidTables p t base pages mids) (hlen : pages.length = mids.length * p.midLevelEntries)
    (hcount : mids.length < p.highLevelEntries) (hnew : t.pool ≤ mid) (hpool : mid < x.pool)
    (hhigh : ∀ i, x.highTables base i = if i = mids.length then some mid else t.highTables base i)
    (hmid : ∀ q i, x.midTables q i = if q = mid then [page][i]? else t.midTables q i) :
    MidTables p x base (pages ++ [page]) (mids ++ [mid]) := by
  have hge := p.mid_ge
  have hbound : (mids ++ [mid]).length * p.midLevelEntries = pages.length + p.midLevelEntries := by
    rw [length_append, length_singleton, Nat.succ_mul, hlen]
  constructor
  case high =>
    intro i
    rw [hhigh, hm.high, getElem?_concat]
  case nodup => exact nodup_concat hm.nodup hm.old hnew
  case old => exact old_concat hm.old hnew hpool
  case low =>
    intro i m hget j hj
    rw [hmid]
    rw [getElem?_concat] at hget
    by_cases hi : i = mids.length
    · grind
    rw [if_neg hi] at hget
    have hlt := hm.old m (mem_of_getElem? hget)
    have hilt : i < mids.length := (List.getElem?_eq_some_iff.1 hget).1
    rw [if_neg (by omega), hm.low i m hget j hj, getElem?_append_left]
    -- An old table lies before the new page.
    calc i * p.midLevelEntries + j < (i + 1) * p.midLevelEntries := by
          rw [Nat.succ_mul]
          omega
      _ ≤ mids.length * p.midLevelEntries := Nat.mul_le_mul_right _ hilt
      _ = pages.length := hlen.symm
  case full =>
    rw [hbound, length_append, length_singleton]
    omega
  case needed =>
    rw [hbound, length_append, length_singleton]
    omega
  case count =>
    rw [length_append, length_singleton]
    exact hcount

/-- The growth from two levels to three. -/
theorem slow_level1_full (h : Shape p t pages) (hc : t.tableCode = .level1 base)
    (hfull : ¬ pages.length < p.midLevelEntries) : AddsPage p t pages := by
  have htree := h.tree
  simp only [Tree, hc] at htree
  obtain ⟨hbase, hge, hle, hmid⟩ := htree
  -- The table of the third level, with the full table there was.
  have hold : MidTables p (t.allocateHigh.2.writeHigh t.pool 0 base) t.pool pages [base] := by
    constructor
    case high =>
      intro i
      rcases i with _ | i
      · simp [HandleTable.writeHigh]
      · simp [HandleTable.writeHigh, HandleTable.allocateHigh]
    case nodup => exact nodup_singleton base
    case old =>
      intro m hm
      rw [mem_singleton.1 hm]
      exact Nat.lt_succ_of_lt hbase
    case low =>
      intro i m hi j _
      obtain ⟨rfl, rfl⟩ : i = 0 ∧ base = m := by simpa [getElem?_singleton] using hi
      rw [Nat.zero_mul, Nat.zero_add]
      exact hmid j
    case full =>
      rw [length_singleton]
      omega
    case needed =>
      rw [length_singleton]
      omega
    case count => exact Nat.le_of_succ_le p.high_ge
  obtain ⟨low, hlow, hfilled⟩ := expAllocateMidLevelTable_spec (p := p) t.allocateHigh.2
  apply addsPage_publish h
  · simp only [expAllocateHandleTableEntrySlow, hc, h.nextPage, hfull, if_false, hlow]
    rfl
  · exact (hfilled _ rfl).congr rfl rfl
  · exact ⟨rfl, rfl, rfl, rfl⟩
  · exact Nat.le_add_right _ 2
  · exact Nat.lt_succ_self _
  simp only [Tree, HandleTable.writeHigh, length_append, length_singleton]
  refine ⟨Nat.lt_add_of_pos_right (Nat.succ_pos 2), by omega, [base, t.pool + 1], ?_⟩
  refine hold.addTable (by rw [length_singleton]; omega) p.high_ge (Nat.le_refl _)
    (Nat.lt_add_of_pos_right Nat.two_pos) (fun i => ?_) fun q i => rfl
  simp [HandleTable.writeHigh, HandleTable.allocateHigh]

theorem Shape.nextMid (h : Shape p t pages) :
    t.nextHandleNeedingPool / indexToHandleValue (p.midLevelEntries * p.lowLevelEntries) =
      pages.length / p.midLevelEntries := by
  have hlow := p.low_ge
  rw [h.limit, indexToHandleValue, Nat.mul_comm p.midLevelEntries, ← Nat.mul_assoc,
    ← Nat.mul_assoc]
  exact Nat.mul_div_mul_left _ _ (by omega)

theorem Shape.nextPlace (h : Shape p t pages) :
    (t.nextHandleNeedingPool / indexToHandleValue 1 -
        pages.length / p.midLevelEntries * (p.midLevelEntries * p.lowLevelEntries)) /
      p.lowLevelEntries = pages.length % p.midLevelEntries := by
  have hlow := p.low_ge
  have hmul : pages.length / p.midLevelEntries * (p.midLevelEntries * p.lowLevelEntries) =
      p.lowLevelEntries * (pages.length / p.midLevelEntries * p.midLevelEntries) := by
    rw [← Nat.mul_assoc, Nat.mul_comm]
  rw [h.limit, indexToHandleValue, Nat.mul_one, Nat.mul_div_cancel_left _ (by decide), hmul,
    ← Nat.mul_sub, Nat.mul_div_cancel_left _ (by omega)]
  have hmod := Nat.div_add_mod' pages.length p.midLevelEntries
  omega

section

variable (h : Shape p t pages) (hc : t.tableCode = .level2 base)
  (hm : MidTables p t base pages mids)
  (hroom : pages.length / p.midLevelEntries < p.highLevelEntries)

include h hc hm hroom

/-- One more table of the middle level. -/
theorem slow_level2_mid (hnone : t.highTables base (pages.length / p.midLevelEntries) = none) :
    AddsPage p t pages := by
  have htree := h.tree
  simp only [Tree, hc] at htree
  have hfull := hm.full
  have hneeded := hm.needed
  -- All tables there are, are full.
  have hcount : mids.length ≤ pages.length / p.midLevelEntries := by
    rw [hm.high] at hnone
    exact getElem?_eq_none_iff.1 hnone
  have hdiv : pages.length / p.midLevelEntries * p.midLevelEntries ≤ pages.length :=
    Nat.div_mul_le_self _ _
  have hlen : pages.length = mids.length * p.midLevelEntries :=
    Nat.le_antisymm hfull (Nat.le_trans (Nat.mul_le_mul_right _ hcount) hdiv)
  have hi : pages.length / p.midLevelEntries = mids.length := by
    rw [hlen]
    exact Nat.mul_div_cancel _ (by omega)
  rw [hi] at hroom hnone
  obtain ⟨low, hlow, hfilled⟩ := expAllocateMidLevelTable_spec (p := p) t
  apply addsPage_publish h
  · simp only [expAllocateHandleTableEntrySlow, hc, h.nextMid, hi, ge_iff_le, Nat.not_le.2 hroom,
      if_false, hnone, hlow]
    rfl
  · exact hfilled _ rfl
  · exact ⟨rfl, rfl, rfl, rfl⟩
  · exact Nat.le_succ _
  · exact Nat.lt_succ_self _
  simp only [Tree, HandleTable.writeHigh, length_append, length_singleton]
  refine ⟨by omega, by omega, mids ++ [t.pool], ?_⟩
  refine hm.addTable hlen hroom (Nat.le_refl _) (Nat.lt_add_of_pos_right Nat.two_pos)
    (fun i => ?_) fun q i => rfl
  simp

/-- One more page below a table of the middle level that is there. -/
theorem slow_level2_room {mid : Nat}
    (hsome : t.highTables base (pages.length / p.midLevelEntries) = some mid) :
    AddsPage p t pages := by
  have htree := h.tree
  simp only [Tree, hc] at htree
  have hmid := p.mid_ge
  have hneeded := hm.needed
  have hmod := Nat.div_add_mod' pages.length p.midLevelEntries
  have hlt : pages.length % p.midLevelEntries < p.midLevelEntries := Nat.mod_lt _ (by omega)
  have hget : mids[pages.length / p.midLevelEntries]? = some mid := by
    rw [← hm.high]
    exact hsome
  have hdiv : pages.length / p.midLevelEntries < mids.length :=
    (List.getElem?_eq_some_iff.1 hget).1
  obtain ⟨low, hlow, hfilled⟩ := expAllocateLowLevelTable_spec (p := p) t
  apply addsPage_publish h
  · simp only [expAllocateHandleTableEntrySlow, hc, h.nextMid, h.nextPlace, ge_iff_le,
      Nat.not_le.2 hroom, if_false, hsome, hlow]
    rfl
  · exact hfilled _ rfl
  · exact ⟨rfl, rfl, rfl, rfl⟩
  · exact Nat.le_refl _
  · exact Nat.lt_succ_self _
  simp only [Tree, HandleTable.writeMid, length_append, length_singleton]
  refine ⟨by omega, by omega, mids, ?_⟩
  constructor
  case high => exact hm.high
  case nodup => exact hm.nodup
  case old => exact fun m hmem => Nat.lt_succ_of_lt (hm.old m hmem)
  case low =>
    intro i m hi j hj
    rw [getElem?_concat]
    show (if m = mid ∧ j = pages.length % p.midLevelEntries then some t.pool
      else t.midTables m j) = _
    rw [hm.low i m hi j hj]
    -- The place is that of the new page in this table and in no other.
    have hiff : (m = mid ∧ j = pages.length % p.midLevelEntries) ↔
        i * p.midLevelEntries + j = pages.length := by
      constructor
      · rintro ⟨rfl, rfl⟩
        have hilt : i < mids.length := (List.getElem?_eq_some_iff.1 hi).1
        rw [(List.getElem?_inj hilt hm.nodup).1 (hi.trans hget.symm)]
        exact hmod
      · intro hplace
        obtain ⟨hi', hj'⟩ := (Nat.div_mod_unique (show 0 < p.midLevelEntries by omega)).2
          ⟨show j + p.midLevelEntries * i = pages.length by rw [Nat.mul_comm]; omega, hj⟩
        rw [← hi', hget] at hi
        exact ⟨(Option.some.inj hi).symm, hj'.symm⟩
    simp only [hiff]
  case full =>
    rw [length_append, length_singleton]
    calc pages.length + 1 ≤ (pages.length / p.midLevelEntries + 1) * p.midLevelEntries := by
          rw [Nat.succ_mul]
          omega
      _ ≤ mids.length * p.midLevelEntries := Nat.mul_le_mul_right _ hdiv
  case needed =>
    rw [length_append, length_singleton]
    omega
  case count => exact hm.count

end

/-- `ExpAllocateHandleTableEntrySlow` adds a page, or the table has all it can have. -/
theorem expAllocateHandleTableEntrySlow_spec (h : Shape p t pages) :
    expAllocateHandleTableEntrySlow p t true = (false, t) ∨ AddsPage p t pages := by
  rcases hc : t.tableCode with base | base | base
  · exact .inr (slow_level0 h hc)
  · by_cases hroom : pages.length < p.midLevelEntries
    · exact .inr (slow_level1_room h hc hroom)
    · exact .inr (slow_level1_full h hc hroom)
  have htree := h.tree
  simp only [Tree, hc] at htree
  obtain ⟨-, -, mids, hm⟩ := htree
  by_cases hroom : pages.length / p.midLevelEntries < p.highLevelEntries
  · rcases hhigh : t.highTables base (pages.length / p.midLevelEntries) with _ | mid
    · exact .inr (slow_level2_mid h hc hm hroom hhigh)
    · exact .inr (slow_level2_room h hc hm hroom hhigh)
  · left
    simp only [expAllocateHandleTableEntrySlow, hc, h.nextMid, ge_iff_le, Nat.not_lt.1 hroom,
      if_true]

end Tree

end Ex
