import ReactOS.Lib.Bytes
import ReactOS.Lib.Transition

/-! # The boot loader heap

    The heap of FreeLoader (`boot/freeldr/freeldr/lib/mm/heap.c`), as built for i386.  Memory from
    `&Heap->Blocks` on is a byte buffer; a block is named by its index in units of `HEAP_BLOCK`, which
    are 8 bytes: the header of block `b` is unit `b`, and its data are the units after it.  The links
    of a free block are in the first unit of its data.

    `dbg` is the build: a debug build stops at an `ASSERT` that fails, which is a fault here, and
    erases what is freed.  A loop that does not end is a fault too.  The redzones
    (`FREELDR_HEAP_VERIFIER`) are there in every build.  Left out are the time counters. -/

namespace FreeLdr

open Bytes Transition

/-! ## Section 1: Blocks in memory -/

def maxUshort : Nat := 0xffff
def mmPageSize : Nat := 4096
def sizeofHeap : Nat := 56
def sizeofHeapBlock : Nat := 8
/-- The offset of `Blocks` in a `HEAP`. -/
def blocksOffset : Nat := 44
def redzoneAllocation : Nat := 24
def redzoneLowOffset : Nat := 16
/-- The bytes of `REDZONE_MARK`. -/
def redzoneByte : UInt8 := 0xcc
/-- The tag of the terminating block, `'dnE#'`. -/
def tagEnd : Nat := 0x646e4523
/-- The tag of an allocation without one, `'enoN'`. -/
def tagNone : Nat := 0x656e6f4e

/-- A value of type `SIZE_T`. -/
def sizeT (n : Nat) : Nat := n % 2 ^ 32

def blockSize (m : Buf) (b : Nat) : Nat := getU16 m (8 * b)
def previousSize (m : Buf) (b : Nat) : Nat := getU16 m (8 * b + 2)
def blockTag (m : Buf) (b : Nat) : Nat := getU32 m (8 * b + 4)
def flink (m : Buf) (b : Nat) : Nat := getU32 m (8 * b + 8)
def blink (m : Buf) (b : Nat) : Nat := getU32 m (8 * b + 12)

def setBlockSize (m : Buf) (b v : Nat) : Buf := putU16 m (8 * b) v
def setPreviousSize (m : Buf) (b v : Nat) : Buf := putU16 m (8 * b + 2) v
def setBlockTag (m : Buf) (b v : Nat) : Buf := putU32 m (8 * b + 4) v
def setFlink (m : Buf) (b v : Nat) : Buf := putU32 m (8 * b + 8) v
def setBlink (m : Buf) (b v : Nat) : Buf := putU32 m (8 * b + 12) v

/-- `HEAP`. -/
structure Heap where
  maximumSize : Nat
  currentAllocBytes : Nat
  maxAllocBytes : Nat
  numAllocs : Nat
  numFrees : Nat
  largestAllocation : Nat
  terminatingBlock : Nat
  mem : Buf

/-- `ASSERT`. -/
def assert (dbg : Bool) (p : Prop) [Decidable p] : Option Unit :=
  if dbg = true ∧ ¬ p then none else some ()

/-! ## Section 2: Making a heap -/

/-- The loop that makes the free blocks: the memory, the index behind them and the size of the last. -/
def createBlocks : Nat → Buf → Nat → Nat → Nat → Buf × Nat × Nat
  | 0, m, block, previous, _ => (m, block, previous)
  | fuel + 1, m, block, previous, remaining =>
    if 1 < remaining then
      let size := min maxUshort (remaining - 1)
      let m := setBlockSize m block size
      let m := setPreviousSize m block previous
      let m := setBlockTag m block 0
      let m := setFlink m block (block + size + 1)
      let m := setBlink m block (block + 2 ^ 32 - 1 - previous)
      createBlocks fuel m (block + size + 1) size (remaining - (size + 1))
    else (m, block, previous)

/-- `ALIGN_UP_BY(MaximumSize, MM_PAGE_SIZE)`. -/
def alignUp (maximumSize : Nat) : Nat :=
  sizeT (maximumSize + (mmPageSize - 1)) / mmPageSize * mmPageSize

/-- `FrLdrHeapCreate`, given the memory that `MmAllocateMemoryWithType` returns. -/
def frLdrHeapCreate (maximumSize : Nat) (mem : Buf) : Heap :=
  let maximumSize := alignUp maximumSize
  let remaining := (maximumSize - sizeofHeap) / sizeofHeapBlock - 2
  let (m, block, previous) := createBlocks remaining mem 0 0 remaining
  let m := setBlockSize m block 0
  let m := setPreviousSize m block previous
  let m := setBlockTag m block tagEnd
  let m := setFlink m block 0
  let m := setBlink m block (block + 2 ^ 32 - 1 - previous)
  let m := setBlink m 0 block
  ⟨maximumSize, 0, 0, 0, 0, 0, block, m⟩

/-! ## Section 3: Redzones -/

/-- `*REDZONE_SIZE(Block)`. -/
def redzoneSize (m : Buf) (b : Nat) : Nat := getU32 m (8 * b + 8) + 2 ^ 32 * getU32 m (8 * b + 12)

/-- The offset of `REDZONE_HI(Block)`; addresses have 32 bits. -/
def redzoneHi (m : Buf) (b : Nat) : Nat := sizeT (8 * b + 8 + 16 + redzoneSize m b)

/-- `REDZONE_MARK` is at an offset. -/
def marked (m : Buf) (o : Nat) : Bool :=
  (List.range 8).all fun k => m (sizeT (o + k)) == redzoneByte

/-- Stores `REDZONE_MARK` at an offset. -/
def mark (m : Buf) (o : Nat) : Buf :=
  fun k => if k < 2 ^ 32 ∧ sizeT (k + 2 ^ 32 - sizeT o) < 8 then redzoneByte else m k

def checkRedzones (dbg : Bool) (m : Buf) (b : Nat) : Option Unit := do
  assert dbg (redzoneSize m b ≤ blockSize m b * sizeofHeapBlock)
  assert dbg (marked m (8 * b + 16))
  assert dbg (marked m (redzoneHi m b))

/-- The size and the redzones of an allocation. -/
def writeRedzones (m : Buf) (b size : Nat) : Buf :=
  let m := putU32 (putU32 m (8 * b + 8) size) (8 * b + 12) 0
  let m := mark m (8 * b + 16)
  mark m (redzoneHi m b)

def verifyFrom (dbg : Bool) (m : Buf) : Nat → Nat → Option Unit
  | 0, _ => none
  | fuel + 1, b =>
    if blockSize m b = 0 then some ()
    else if blockTag m b = 0 then verifyFrom dbg m fuel (b + 1 + blockSize m b)
    else (checkRedzones dbg m b).bind fun _ => verifyFrom dbg m fuel (b + 1 + blockSize m b)

/-- `FrLdrHeapVerify`. -/
def frLdrHeapVerify (dbg : Bool) (h : Heap) : Option Unit :=
  verifyFrom dbg h.mem (h.terminatingBlock + 1) 0

/-! ## Section 4: The free list -/

/-- `FrLdrHeapRemoveFreeList`. -/
def frLdrHeapRemoveFreeList (dbg : Bool) (m : Buf) (b : Nat) : Option Buf := do
  let next := flink m b
  let previous := blink m b
  assert dbg (blockTag m next = 0 ∨ blockTag m next = tagEnd)
  assert dbg (blink m next = b)
  assert dbg (blockTag m previous = 0 ∨ blockTag m previous = tagEnd)
  assert dbg (flink m previous = b)
  return setFlink (setBlink m next previous) previous next

/-- The first block of the list, from a given one on, that is not before the block. -/
def findNext (m : Buf) (b : Nat) : Nat → Nat → Option Nat
  | 0, _ => none
  | fuel + 1, next => if next < b then findNext m b fuel (flink m next) else some next

/-- `FrLdrHeapInsertFreeList`. -/
def frLdrHeapInsertFreeList (dbg : Bool) (m : Buf) (terminatingBlock b : Nat) : Option Buf := do
  assert dbg (blockTag m b = 0)
  let next ← findNext m b (terminatingBlock + 1) (flink m terminatingBlock)
  let m := setFlink m b next
  let m := setBlink m b (blink m next)
  let m := setBlink m next b
  return setFlink m (blink m b) b

/-! ## Section 5: Allocating -/

/-- The search for a block: an answer of `none` is the end of the list. -/
def findBlock (dbg : Bool) (m : Buf) (size : Nat) : Nat → Nat → Option (Option Nat)
  | 0, _ => none
  | fuel + 1, b =>
    if blockSize m b = 0 then some none
    else (assert dbg (blockTag m b = 0)).bind fun _ =>
      if blockSize m b < size then findBlock dbg m size fuel (flink m b) else some (some b)

/-- What is not needed of the block becomes a free block, if it is large enough. -/
def splitBlock (dbg : Bool) (m : Buf) (terminatingBlock b size : Nat) : Option Buf :=
  let remaining := (blockSize m b + 2 ^ 16 - size) % 2 ^ 16
  if 1 < remaining then do
    let m := setBlockSize m b size
    let next := b + 1 + size
    let m := setBlockTag m next 0
    let m := setBlockSize m next (remaining - 1)
    let m := setPreviousSize m next size
    let rest := blockSize m next
    let m ← frLdrHeapInsertFreeList dbg m terminatingBlock next
    return setPreviousSize m (next + 1 + rest) rest
  else some (setPreviousSize m (b + 1 + blockSize m b) (blockSize m b))

/-- The block is taken from the free list, with a tag. -/
def takeBlock (dbg : Bool) (m : Buf) (terminatingBlock b size tag : Nat) : Option Buf := do
  let m ← frLdrHeapRemoveFreeList dbg (setBlockTag m b tag) b
  splitBlock dbg m terminatingBlock b size

/-- The number of units for an allocation with its redzones. -/
def unitsFor (byteSize : Nat) : Nat :=
  sizeT (byteSize + sizeofHeapBlock - 1) / sizeofHeapBlock % 2 ^ 16

def effectiveTag (tag : Nat) : Nat := if tag = 0 then tagNone else tag

/-- `FrLdrHeapAllocateEx`: the heap, and the offset of the allocation. -/
def frLdrHeapAllocateEx (dbg : Bool) (h : Heap) (byteSize tag : Nat) :
    Option (Heap × Option Nat) := do
  frLdrHeapVerify dbg h
  let byteSize := sizeT (byteSize + redzoneAllocation)
  if maxUshort * sizeofHeapBlock < sizeT (byteSize + sizeofHeapBlock) then
    return (h, none)
  else
    let found ← findBlock dbg h.mem (unitsFor byteSize) (h.terminatingBlock + 1)
      (flink h.mem h.terminatingBlock)
    match found with
    | none => return (h, none)
    | some b =>
      let m ← takeBlock dbg h.mem h.terminatingBlock b (unitsFor byteSize) (effectiveTag tag)
      let bytes := blockSize m b * sizeofHeapBlock
      let current := sizeT (h.currentAllocBytes + bytes)
      let m := overlay m (8 * b + 8) bytes zeroBuf
      let m := writeRedzones m b (sizeT (byteSize + 2 ^ 32 - redzoneAllocation))
      return ({ h with
        mem := m
        numAllocs := (h.numAllocs + 1) % 2 ^ 32
        currentAllocBytes := current
        maxAllocBytes := max h.maxAllocBytes current
        largestAllocation := max h.largestAllocation bytes }, some (8 * b + 8 + redzoneLowOffset))

/-! ## Section 6: Freeing -/

/-- The next block is merged into the current one, if it is free: the memory, and the index behind. -/
def mergeNext (dbg : Bool) (m : Buf) (b : Nat) : Option (Buf × Nat) :=
  let next := b + blockSize m b + 1
  if blockTag m next = 0 ∧ blockSize m b + blockSize m next + 1 ≤ maxUshort then do
    let m := setBlockSize m b (blockSize m b + blockSize m next + 1)
    let m ← frLdrHeapRemoveFreeList dbg m next
    return (m, b + blockSize m b + 1)
  else some (m, next)

/-- The block is merged into the previous one, if it is free, or goes on the list. -/
def mergePrevious (dbg : Bool) (m : Buf) (terminatingBlock b previous : Nat) : Option (Buf × Nat) :=
  if previousSize m b ≠ 0 ∧ blockTag m previous = 0 ∧
      blockSize m previous + blockSize m b + 1 ≤ maxUshort then
    some (setBlockSize m previous (blockSize m previous + blockSize m b + 1), previous)
  else do
    let m ← frLdrHeapInsertFreeList dbg m terminatingBlock b
    return (m, b)

/-- Both merges of a block that is marked free, and the back link behind it. -/
def releaseBlock (dbg : Bool) (m : Buf) (terminatingBlock b : Nat) : Option Buf := do
  let previous := b - previousSize m b - 1
  let (m, next) ← mergeNext dbg m b
  let (m, b) ← mergePrevious dbg m terminatingBlock b previous
  return setPreviousSize m next (blockSize m b)

/-- The block is marked free, and a debug build erases it. -/
def eraseBlock (dbg : Bool) (m : Buf) (b : Nat) : Buf :=
  let m := setBlockTag m b 0
  if dbg then overlay m (8 * b + 8) (blockSize m b * sizeofHeapBlock) (fun _ => 0xcc) else m

/-- `FrLdrHeapFreeEx`. -/
def frLdrHeapFreeEx (dbg : Bool) (h : Heap) (pointer tag : Nat) : Option Heap := do
  assert dbg (tag ≠ tagEnd)
  frLdrHeapVerify dbg h
  assert dbg (¬ (pointer + blocksOffset < sizeofHeap ∨ h.maximumSize < pointer + blocksOffset))
  let b := (pointer - redzoneLowOffset - sizeofHeapBlock) / sizeofHeapBlock
  checkRedzones dbg h.mem b
  assert dbg (¬ (tag ≠ 0 ∧ blockTag h.mem b ≠ tag ∨ blockTag h.mem b = 0))
  let m := eraseBlock dbg h.mem b
  let bytes := blockSize m b * sizeofHeapBlock
  let m ← releaseBlock dbg m h.terminatingBlock b
  return { h with
    mem := m
    numFrees := (h.numFrees + 1) % 2 ^ 32
    currentAllocBytes := sizeT (h.currentAllocBytes + 2 ^ 32 - bytes) }

/-! ## Section 7: Runs -/

/-- What the client knows of an allocation: the bytes requested, its tag and its content. -/
structure Allocation where
  size : Nat
  tag : Nat
  content : Buf

/-- A heap and its live allocations. -/
structure HeapState where
  heap : Heap
  live : Nat → Option Allocation

def HeapState.setLive (s : HeapState) (pointer : Nat) (a : Option Allocation) : HeapState :=
  { s with live := fun p => if p = pointer then a else s.live p }

inductive HeapCall where
  | allocate (byteSize tag : Nat)
  | free (pointer tag : Nat)
  | write (pointer offset : Nat) (value : UInt8)

/-- A call on the heap, or a store of the client into an allocation. -/
def HeapState.call (dbg : Bool) (s : HeapState) : HeapCall → Option HeapState
  | .allocate byteSize tag => (frLdrHeapAllocateEx dbg s.heap byteSize tag).map fun r =>
      match r.2 with
      | none => { s with heap := r.1 }
      | some p => { s with heap := r.1 }.setLive p (some ⟨byteSize, effectiveTag tag, zeroBuf⟩)
  | .free pointer tag => (frLdrHeapFreeEx dbg s.heap pointer tag).map fun h =>
      { s with heap := h }.setLive pointer none
  | .write pointer offset value => (s.live pointer).map fun a =>
      { s with heap := { s.heap with
          mem := overlay s.heap.mem (pointer + offset) 1 fun _ => value } }.setLive pointer
        (some { a with content := overlay a.content offset 1 fun _ => value })

/-- Sizes for which the redzones do not overflow; live allocations, with a matching tag or none in a
    debug build; stores inside an allocation. -/
def HeapState.Legal (dbg : Bool) (s : HeapState) : HeapCall → Prop
  | .allocate byteSize tag => byteSize + redzoneAllocation < 2 ^ 32 ∧ tag < 2 ^ 32
  | .free pointer tag => (s.live pointer).any fun a =>
      !dbg || (tag != tagEnd && (tag == 0 || tag == a.tag))
  | .write pointer offset _ => (s.live pointer).any fun a => decide (offset < a.size)

instance (dbg : Bool) (s : HeapState) : (c : HeapCall) → Decidable (s.Legal dbg c)
  | .allocate _ _ => inferInstanceAs (Decidable (_ ∧ _))
  | .free _ _ => inferInstanceAs (Decidable (_ = true))
  | .write _ _ _ => inferInstanceAs (Decidable (_ = true))

/-- A heap as `FrLdrHeapCreate` makes it in memory with any content.  Memory of no bytes is never
    given. -/
def heapSystem (dbg : Bool) : System HeapState HeapCall Unit where
  init := fun s => ∃ (maximumSize : Nat) (mem : Buf), alignUp maximumSize ≠ 0 ∧
    s = ⟨frLdrHeapCreate maximumSize mem, fun _ => none⟩
  legal := HeapState.Legal dbg
  step := fun s c => (s.call dbg c).map fun s' => (s', ())

instance (dbg : Bool) : ∀ s c, Decidable ((heapSystem dbg).legal s c) :=
  inferInstanceAs (∀ (s : HeapState) (c : HeapCall), Decidable (s.Legal dbg c))

end FreeLdr
