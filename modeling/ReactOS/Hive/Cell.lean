import ReactOS.Hive.Format

/-! # The cell heap of a hive

    `hivecell.c` and `hivebin.c`: cells are allocated from bins, a freed cell
    is merged with its free neighbours, and the free cells of one size class
    are threaded, through their own bodies, on one of the 24 lists of
    `FreeDisplay`.

    A bin is a block of pool memory of its own.  A pointer into a bin is the
    storage, the number of the bin and an offset, and an access that leaves
    the bin is a *fault*: every function returns `none` for it, for an
    assertion that fails, and for a loop that does not end. -/

namespace Hive

open Bytes

/-! ## Section 1: State -/

/-- The pool memory of one bin. -/
structure Bin where
  size : Nat
  data : Buf

/-- A pointer into the memory of a bin. -/
structure Ptr where
  storage : StorageType
  bin : Nat
  off : Nat
  deriving DecidableEq, Repr

/-- Pointer arithmetic inside a bin. -/
def Ptr.add (p : Ptr) (n : Nat) : Ptr := { p with off := p.off + n }

/-- `HMAP_ENTRY`; a bin address is the number of the bin. -/
structure HMapEntry where
  blockAddress : Option Ptr
  binAddress : Option Nat
  deriving DecidableEq, Repr

/-- `DUAL`, with the memory of its bins. -/
structure Dual where
  length : Nat
  blockList : Nat → HMapEntry
  freeDisplay : Nat → Nat
  bins : List Bin

/-- `RTL_BITMAP` -/
structure RtlBitmap where
  sizeOfBitMap : Nat
  bits : Nat → Bool

/-- `RtlSetBits` -/
def rtlSetBits (bm : RtlBitmap) (start count : Nat) : Option RtlBitmap :=
  if start + count ≤ bm.sizeOfBitMap then
    some { bm with bits := fun i => decide (start ≤ i ∧ i < start + count) || bm.bits i }
  else none

/-- The fields of `HHIVE` that the cell heap and the hive writer use. -/
structure HHive where
  signature : Nat
  baseBlock : Buf
  dirtyVector : RtlBitmap
  dirtyCount : Nat
  log : Bool
  alternate : Bool
  hiveFlags : Nat
  storageTypeCount : Nat
  version : Nat
  storage : StorageType → Dual

/-- Replace one storage. -/
def HHive.setDual (h : HHive) (t : StorageType) (d : Dual) : HHive :=
  { h with storage := fun t' => if t' = t then d else h.storage t' }

/-- The memory of bin `k` of storage `t`. -/
def HHive.bin (h : HHive) (t : StorageType) (k : Nat) : Option Bin := (h.storage t).bins[k]?

/-- Replace the contents of bin `k` of storage `t`. -/
def HHive.setData (h : HHive) (t : StorageType) (k : Nat) (data : Buf) : HHive :=
  h.setDual t { h.storage t with
    bins := (h.storage t).bins.modify k (fun b => { b with data := data }) }

/-- Load of a `ULONG`. -/
def HHive.readUlong (h : HHive) (p : Ptr) : Option Nat := do
  let b ← h.bin p.storage p.bin
  if p.off + 4 ≤ b.size then some (getU32 b.data p.off) else none

/-- Load of a `LONG`. -/
def HHive.readLong (h : HHive) (p : Ptr) : Option Int := (h.readUlong p).map toLong

/-- The `n` bytes at a pointer. -/
def HHive.readBytes (h : HHive) (p : Ptr) (n : Nat) : Option Buf := do
  let b ← h.bin p.storage p.bin
  if p.off + n ≤ b.size then some (slice b.data p.off) else none

/-- Replace `n` bytes at a pointer by those of `src`. -/
def HHive.writeBytes (h : HHive) (p : Ptr) (n : Nat) (src : Buf) : Option HHive := do
  let b ← h.bin p.storage p.bin
  if p.off + n ≤ b.size then some (h.setData p.storage p.bin (overlay b.data p.off n src))
  else none

/-- Store of a `ULONG`. -/
def HHive.writeUlong (h : HHive) (p : Ptr) (v : Nat) : Option HHive := h.writeBytes p 4 (u32le v)

/-- Store of a `LONG`. -/
def HHive.writeLong (h : HHive) (p : Ptr) (v : Int) : Option HHive := h.writeUlong p (ofLong v)

/-! ## Section 2: Cells -/

theorem bind_of_eq {α β : Type} {x : Option α} {a : α} {f : α → Option β} (h : x = some a) :
    (x >>= f) = f a := by
  rw [h]
  rfl

/-- `HvpGetCellHeader` -/
def hvpGetCellHeader (h : HHive) (cellIndex : Nat) : Option Ptr :=
  if cellIndex = hcellNil then none
  else
    let d := h.storage (hvGetCellType cellIndex)
    let cellBlock := hvGetCellBlock cellIndex
    if cellBlock < d.length then
      (d.blockList cellBlock).blockAddress.map (·.add (hvGetCellOffset cellIndex))
    else none

/-- `HvpGetCellData`, which is what `HvGetCell` calls. -/
def hvpGetCellData (h : HHive) (cellIndex : Nat) : Option Ptr :=
  (hvpGetCellHeader h cellIndex).map (·.add sizeofHCell)

/-- `HvMarkCellDirty` -/
def hvMarkCellDirty (h : HHive) (cellIndex : Nat) : Option HHive :=
  if hvGetCellType cellIndex ≠ .stable then some h
  else do
    let cellBlock := hvGetCellBlock cellIndex
    let cellLastBlock := hvGetCellBlock ((cellIndex + hblockSize - 1) % 2 ^ 32)
    let bm ← rtlSetBits h.dirtyVector cellBlock ((cellLastBlock + 2 ^ 32 - cellBlock) % 2 ^ 32)
    some { h with dirtyVector := bm, dirtyCount := (h.dirtyCount + 1) % 2 ^ 32 }

/-- `if (Storage == Stable) HvMarkCellDirty(..)`, as every caller has it. -/
def markIfStable (h : HHive) (storage : StorageType) (cellIndex : Nat) : Option HHive :=
  if storage = .stable then hvMarkCellDirty h cellIndex else some h

/-- The table of `HvpComputeFreeListIndex`. -/
def findFirstSet : List Nat :=
  [0, 0, 1, 1, 2, 2, 2, 2, 3, 3, 3, 3, 3, 3, 3, 3,
   4, 4, 4, 4, 4, 4, 4, 4, 4, 4, 4, 4, 4, 4, 4, 4,
   5, 5, 5, 5, 5, 5, 5, 5, 5, 5, 5, 5, 5, 5, 5, 5,
   5, 5, 5, 5, 5, 5, 5, 5, 5, 5, 5, 5, 5, 5, 5, 5,
   6, 6, 6, 6, 6, 6, 6, 6, 6, 6, 6, 6, 6, 6, 6, 6,
   6, 6, 6, 6, 6, 6, 6, 6, 6, 6, 6, 6, 6, 6, 6, 6,
   6, 6, 6, 6, 6, 6, 6, 6, 6, 6, 6, 6, 6, 6, 6, 6,
   6, 6, 6, 6, 6, 6, 6, 6, 6, 6, 6, 6, 6, 6, 6, 6]

/-- `HvpComputeFreeListIndex` -/
@[irreducible] def hvpComputeFreeListIndex (size : Nat) : Nat :=
  let index := (size / 8 + 2 ^ 32 - 1) % 2 ^ 32
  if 16 ≤ index then
    if 127 < index then 23 else findFirstSet.getD index 0 + 16
  else index

/-! ## Section 3: Free lists -/

/-- What `pFreeCellOffset` points to: the head of a list of `FreeDisplay`, or
    the link in the body of a free cell. -/
inductive LinkRef where
  | display (t : StorageType) (index : Nat)
  | body (p : Ptr)

/-- `*pFreeCellOffset` -/
def HHive.readLink (h : HHive) : LinkRef → Option Nat
  | .display t index => some ((h.storage t).freeDisplay index)
  | .body p => h.readUlong p

/-- Set the head of a free list. -/
def HHive.setDisplay (h : HHive) (t : StorageType) (index v : Nat) : HHive :=
  h.setDual t { h.storage t with
    freeDisplay := fun i => if i = index then v else (h.storage t).freeDisplay i }

/-- Assignment to `*pFreeCellOffset`. -/
def HHive.writeLink (h : HHive) (r : LinkRef) (v : Nat) : Option HHive :=
  match r with
  | .display t index => some (h.setDisplay t index v)
  | .body p => h.writeUlong p v

/-- More steps than a walk along a free list of storage `t` can take without
    meeting a cell twice. -/
def HHive.listFuel (h : HHive) (t : StorageType) : Nat :=
  (h.storage t).length * hblockSize + 1

/-- `HvpAddFree` -/
def hvpAddFree (h : HHive) (freeBlock : Ptr) (freeIndex : Nat) : Option HHive := do
  let storage := hvGetCellType freeIndex
  let size ← h.readUlong freeBlock
  let index := hvpComputeFreeListIndex size
  let h ← h.writeUlong (freeBlock.add sizeofHCell) ((h.storage storage).freeDisplay index)
  some (h.setDisplay storage index freeIndex)

/-- The loop of `HvpRemoveFree`; running off the list is its last assertion. -/
def hvpRemoveFreeLoop (h : HHive) (cellIndex : Nat) : Nat → LinkRef → Option HHive
  | 0, _ => none
  | fuel + 1, r => do
    let offset ← h.readLink r
    if offset = hcellNil then none
    else
      let freeCellData ← hvpGetCellData h offset
      if offset = cellIndex then
        let next ← h.readUlong freeCellData
        h.writeLink r next
      else hvpRemoveFreeLoop h cellIndex fuel (.body freeCellData)

/-- `HvpRemoveFree` -/
def hvpRemoveFree (h : HHive) (cellBlock : Ptr) (cellIndex : Nat) : Option HHive := do
  let storage := hvGetCellType cellIndex
  let size ← h.readUlong cellBlock
  hvpRemoveFreeLoop h cellIndex (h.listFuel storage)
    (.display storage (hvpComputeFreeListIndex size))

/-- The inner loop of `HvpFindFree`: the first cell of the list that is large
    enough, unlinked, or `HCELL_NIL`. -/
def hvpFindFreeLoop (h : HHive) (size : Nat) : Nat → LinkRef → Option (HHive × Nat)
  | 0, _ => none
  | fuel + 1, r => do
    let offset ← h.readLink r
    if offset = hcellNil then some (h, hcellNil)
    else
      let header ← hvpGetCellHeader h offset
      let freeCellData := header.add sizeofHCell
      let fullSize ← h.readUlong header
      if size ≤ fullSize then
        let next ← h.readUlong freeCellData
        let h ← h.writeLink r next
        some (h, offset)
      else hvpFindFreeLoop h size fuel (.body freeCellData)

/-- The outer loop of `HvpFindFree` over the size classes. -/
def hvpFindFreeFrom (h : HHive) (size : Nat) (storage : StorageType) :
    List Nat → Option (HHive × Nat)
  | [] => some (h, hcellNil)
  | index :: rest => do
    let (h', offset) ← hvpFindFreeLoop h size (h.listFuel storage) (.display storage index)
    if offset = hcellNil then hvpFindFreeFrom h size storage rest
    else some (h', offset)

/-- `HvpFindFree` -/
def hvpFindFree (h : HHive) (size : Nat) (storage : StorageType) : Option (HHive × Nat) :=
  let first := hvpComputeFreeListIndex size
  hvpFindFreeFrom h size storage (List.range' first (24 - first))

/-! ## Section 4: Bins -/

/-- Which of the three calls to `Allocate` in `HvpAddBin` succeed. -/
structure Memory where
  bin : Bool
  blockList : Bool
  bitmap : Bool
  deriving DecidableEq, Repr

/-- The bytes of a new bin: header and one free cell. -/
def newBinData (fileOffset binSize : Nat) : Buf :=
  let b := putU32 zeroBuf 0 hvHBinSignature
  let b := putU32 b 4 fileOffset
  let b := putU32 b 8 binSize
  putU32 b sizeofHBin (binSize - sizeofHBin)

/-- `BlockList` and `Length` of a storage that gets a new bin. -/
def Dual.addBin (d : Dual) (t : StorageType) (binSize : Nat) : Dual :=
  { length := (d.length + binSize / hblockSize) % 2 ^ 32
    blockList := fun j =>
      if d.length ≤ j ∧ j < d.length + binSize / hblockSize then
        { blockAddress := some ⟨t, d.bins.length, (j - d.length) * hblockSize⟩
          binAddress := some d.bins.length }
      else d.blockList j
    freeDisplay := d.freeDisplay
    bins := d.bins ++ [⟨binSize, newBinData (d.length * hblockSize % 2 ^ 32) binSize⟩] }

/-- The bitmap of dirty blocks, grown to cover `length` blocks. -/
def growDirtyVector (bm : RtlBitmap) (length : Nat) (mem : Memory) : Option RtlBitmap :=
  let bitmapSize := roundUp length 32 / 8
  if bm.sizeOfBitMap / 8 < bitmapSize then
    -- the buffer is cleared before anything looks at whether there is one
    if mem.bitmap then
      some { sizeOfBitMap := bitmapSize * 8
             bits := fun i => decide (i < bm.sizeOfBitMap / 8 * 8) && bm.bits i }
    else none
  else some bm

/-- Last part of `HvpAddBin`, for the stable storage: grow the bitmap, mark the
    new bin dirty, update the length in the base block. -/
def markBinDirty (h : HHive) (mem : Memory) (fileOffset binSize : Nat) : Option HHive := do
  let bm ← growDirtyVector h.dirtyVector (h.storage .stable).length mem
  let bm ← rtlSetBits bm (fileOffset / hblockSize) (binSize / hblockSize)
  some { h with
    dirtyVector := bm
    baseBlock := HBaseBlock.setLength h.baseBlock (HBaseBlock.length h.baseBlock + binSize) }

/-- `HvpAddBin`; the result is the number of the new bin. -/
def hvpAddBin (h : HHive) (mem : Memory) (size : Nat) (storage : StorageType) :
    Option (HHive × Option Nat) :=
  let binSize := roundUp (size + sizeofHBin) hblockSize % 2 ^ 32
  let d := h.storage storage
  if !mem.bin then some (h, none)
  -- an empty block has no room for the header that is written next
  else if binSize = 0 then none
  else if !mem.blockList then some (h, none)
  else
    let h := h.setDual storage (d.addBin storage binSize)
    match storage with
    | .volatile => some (h, some d.bins.length)
    | .stable =>
      (markBinDirty h mem (d.length * hblockSize % 2 ^ 32) binSize).map (·, some d.bins.length)

/-! ## Section 5: Allocation -/

/-- The two parts of `HvAllocateCell` that touch the cell it has found: split
    off what is not needed, then mark the cell allocated and clear it. -/
def splitCell (h : HHive) (freeCell : Ptr) (freeCellOffset size : Nat) (storage : StorageType) :
    Option HHive := do
  let fullSize ← h.readUlong freeCell
  if (size + 16) % 2 ^ 32 < fullSize then
    let newCell := freeCell.add size
    let newIndex := (freeCellOffset + size) % 2 ^ 32
    let h ← h.writeUlong newCell (fullSize + 2 ^ 32 - size)
    let h ← h.writeUlong freeCell size
    let h ← hvpAddFree h newCell newIndex
    markIfStable h storage newIndex
  else some h

/-- See `splitCell`. -/
def takeCell (h : HHive) (freeCell : Ptr) (freeCellOffset size : Nat) (storage : StorageType) :
    Option HHive := do
  let h ← markIfStable h storage freeCellOffset
  let fullSize ← h.readUlong freeCell
  let h ← h.writeUlong freeCell (2 ^ 32 - fullSize)
  if size < sizeofHCell then none
  else h.writeBytes (freeCell.add sizeofHCell) (size - sizeofHCell) zeroBuf

/-- First part of `HvAllocateCell`: a free cell of the lists, or the only cell
    of a new bin. -/
def findOrAddBin (h : HHive) (mem : Memory) (size : Nat) (storage : StorageType) :
    Option (HHive × Nat) := do
  let (h, freeCellOffset) ← hvpFindFree h size storage
  if freeCellOffset = hcellNil then
    let (h, bin) ← hvpAddBin h mem size storage
    match bin with
    | none => some (h, hcellNil)
    | some k =>
      let fileOffset ← h.readUlong ⟨storage, k, 4⟩
      some (h, (fileOffset + sizeofHBin) % 2 ^ 32 ||| storage.toNat * 2 ^ 31)
  else some (h, freeCellOffset)

/-- The full size of a cell with room for `size` bytes, as a `ULONG`. -/
def fullCellSize (size : Nat) : Nat := roundUp (size + sizeofHCell) 16 % 2 ^ 32

/-- `HvAllocateCell` -/
def hvAllocateCell (h : HHive) (mem : Memory) (size : Nat) (storage : StorageType) :
    Option (HHive × Nat) := do
  let size := fullCellSize size
  let (h, freeCellOffset) ← findOrAddBin h mem size storage
  if freeCellOffset = hcellNil then some (h, hcellNil)
  else
    let freeCell ← hvpGetCellHeader h freeCellOffset
    let h ← splitCell h freeCell freeCellOffset size storage
    let h ← takeCell h freeCell freeCellOffset size storage
    some (h, freeCellOffset)

/-! ## Section 6: Release -/

/-- The number `HvpRemoveFree` and `HvpAddFree` get for a neighbour of the
    cell being freed. -/
def neighborIndex (fileOffset off : Nat) (storage : StorageType) : Nat :=
  (off + fileOffset) % 2 ^ 32 ||| storage.toNat * 2 ^ 31

/-- First part of `HvFreeCell`: take in the cell behind the freed one when it
    is free. -/
def mergeNext (h : HHive) (free : Ptr) (cellIndex fileOffset binSize : Nat) : Option HHive := do
  let size ← h.readUlong free
  if (cellIndex % 2 ^ 31 + size) % 2 ^ 32 < (fileOffset + binSize) % 2 ^ 32 then
    let neighbor := free.add size
    let neighborSize ← h.readLong neighbor
    if 0 < neighborSize then
      let h ← hvpRemoveFree h neighbor (neighborIndex fileOffset neighbor.off free.storage)
      let size ← h.readUlong free
      let neighborSize ← h.readUlong neighbor
      h.writeUlong free (size + neighborSize)
    else some h
  else some h

/-- The walk of `HvFreeCell` from the first cell of the bin: the free cell
    that ends where the freed cell starts, if there is one. -/
def findPrevious (h : HHive) (free : Ptr) : Nat → Nat → Option (Option Ptr)
  | 0, _ => none
  | fuel + 1, off =>
    if off < free.off then do
      let size ← h.readLong { free with off := off }
      if 0 < size then
        if off + size.toNat = free.off then some (some { free with off := off })
        else findPrevious h free fuel (off + size.toNat)
      else findPrevious h free fuel (off + (-size).toNat)
    else some none

/-- Add the freed cell to the free cell before it, which moves to another list
    when its size class changes. -/
def growPrevious (h : HHive) (neighbor : Ptr) (index neighborSize size : Nat) : Option HHive :=
  if hvpComputeFreeListIndex neighborSize
      ≠ hvpComputeFreeListIndex ((neighborSize + size) % 2 ^ 32) then do
    let h ← hvpRemoveFree h neighbor index
    let h ← h.writeUlong neighbor (neighborSize + size)
    hvpAddFree h neighbor index
  else h.writeUlong neighbor (neighborSize + size)

/-- What `HvFreeCell` does when the cell before the freed one is free. -/
def mergePrevious (h : HHive) (free neighbor : Ptr) (fileOffset : Nat) : Option HHive := do
  let index := neighborIndex fileOffset neighbor.off free.storage
  let size ← h.readUlong free
  let neighborSize ← h.readUlong neighbor
  let h ← growPrevious h neighbor index neighborSize size
  markIfStable h free.storage index

/-- `HvFreeCell` -/
def hvFreeCell (h : HHive) (cellIndex : Nat) : Option HHive := do
  let free ← hvpGetCellHeader h cellIndex
  let size ← h.readLong free
  if 0 ≤ size then none
  else
    let h ← h.writeLong free (-size)
    let d := h.storage (hvGetCellType cellIndex)
    let bin ← (d.blockList (hvGetCellBlock cellIndex)).binAddress
    -- the cell and the bin are compared as pointers into one block
    if bin ≠ free.bin then none
    else
      let fileOffset ← h.readUlong { free with off := 4 }
      let binSize ← h.readUlong { free with off := 8 }
      let h ← mergeNext h free cellIndex fileOffset binSize
      let previous ← findPrevious h free (free.off + 1) sizeofHBin
      match previous with
      | some neighbor => mergePrevious h free neighbor fileOffset
      | none => do
        let h ← hvpAddFree h free cellIndex
        markIfStable h (hvGetCellType cellIndex) cellIndex

/-- `HvGetCellSize` of the data at a pointer. -/
def hvGetCellSize (h : HHive) (header : Ptr) : Option Int := do
  let size ← h.readLong header
  some (size * -1 - sizeofHCell)

/-- `HvReallocateCell` -/
def hvReallocateCell (h : HHive) (mem : Memory) (cellIndex size : Nat) :
    Option (HHive × Nat) := do
  let storage := hvGetCellType cellIndex
  let oldHeader ← hvpGetCellHeader h cellIndex
  let oldCellSize ← hvGetCellSize h oldHeader
  if oldCellSize ≤ 0 then none
  else if oldCellSize.toNat < size then
    let (h, newCellIndex) ← hvAllocateCell h mem size storage
    if newCellIndex = hcellNil then some (h, hcellNil)
    else
      let newCell ← hvpGetCellData h newCellIndex
      let oldCell ← h.readBytes (oldHeader.add sizeofHCell) oldCellSize.toNat
      let h ← h.writeBytes newCell oldCellSize.toNat oldCell
      let h ← hvFreeCell h cellIndex
      some (h, newCellIndex)
  else some (h, cellIndex)

/-- A hive made by `HvInitialize` and `HvpCreateHive`; `fileName` is the 64
    bytes that `HvpInitFileName` leaves in the base block. -/
def hvpCreateHive (fileType : FileType) (hiveFlags : Nat) (fileName : Buf) : HHive :=
  let b := HBaseBlock.setSignature zeroBuf hvHBlockSignature
  let b := HBaseBlock.setMajor b 1
  let b := HBaseBlock.setMinor b 3
  let b := HBaseBlock.setType b FileType.primary.toNat
  let b := HBaseBlock.setFormat b 1
  let b := HBaseBlock.setCluster b 1
  let b := HBaseBlock.setRootCell b hcellNil
  let b := HBaseBlock.setLength b 0
  let b := HBaseBlock.setSequence1 b 1
  let b := HBaseBlock.setSequence2 b 1
  let b := overlay b 48 64 fileName
  { signature := hvHHiveSignature
    baseBlock := b
    dirtyVector := ⟨0, fun _ => false⟩
    dirtyCount := 0
    log := fileType = .log
    alternate := fileType = .alternate
    hiveFlags := hiveFlags
    storageTypeCount := 2
    version := 3
    storage := fun _ =>
      { length := 0
        blockList := fun _ => ⟨none, none⟩
        freeDisplay := fun _ => hcellNil
        bins := [] } }

end Hive
