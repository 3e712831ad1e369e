import ReactOS.Hive.Heap

/-! # Loading a hive image

    `HvpInitializeMemoryHive` of `hiveinit.c` builds the stable storage of a
    hive from an image, and `HvpCreateHiveFreeCellList` of `hivecell.c` then
    collects its free cells.  Both walk over the image by sizes that they read
    from it.

    - Section 1 is the code.  The image has `4096 + Length` bytes, which is
      what `HvLoadHive` allocates for it.
    - Section 2 is a check of the sizes that could be made beforehand.
    - Sections 3 and 4 relate the two: loading is safe exactly when the check
      passes. -/

namespace Hive

open Bytes Option HBaseBlock HHive

/-! ## Section 1: The loader -/

/-- What sizes that are not checked can lead to: a loop that does not end, a
    store to `BlockList` at or behind `Length`, a load from outside the image
    or the copy of a bin. -/
inductive LoadFault where
  | endless
  | blockList
  | image
  deriving DecidableEq, Repr

/-- `STATUS_SUCCESS`, `STATUS_REGISTRY_CORRUPT` and `STATUS_NO_MEMORY`. -/
inductive LoadResult where
  | success (h : HHive)
  | corrupt
  | noMemory

/-- The test the loader makes on a bin. -/
def binInvalid (bin : Buf) (blockIndex : Nat) : Bool :=
  getU32 bin 0 ≠ hvHBinSignature || getU32 bin 8 % hblockSize ≠ 0 ||
    getU32 bin 4 / hblockSize ≠ blockIndex

/-- "Fix this bin" -/
def repairBin (bin : Buf) (blockIndex : Nat) : Buf :=
  let bin := putU32 bin 0 hvHBinSignature
  let bin := putU32 bin 8 hblockSize
  putU32 bin 4 (blockIndex * hblockSize)

/-- The bin at a block of the image, repaired if need be.  The repair is made
    in the image, where no other bin sees it. -/
def binAt (chunk : Buf) (blockIndex : Nat) : Buf :=
  let bin := slice chunk ((blockIndex + 1) * hblockSize)
  if binInvalid bin blockIndex then repairBin bin blockIndex else bin

/-- The entries of `BlockList` for a bin, and its copy.  The first entry is
    written whatever the size is. -/
def Dual.loadBin (d : Dual) (blockIndex size : Nat) (bin : Buf) : Dual :=
  { d with
    blockList := fun j =>
      if j = blockIndex ∨ (blockIndex < j ∧ j < blockIndex + size / hblockSize) then
        { blockAddress := some ⟨.stable, d.bins.length, (j - blockIndex) * hblockSize⟩
          binAddress := some d.bins.length }
      else d.blockList j
    bins := d.bins ++ [⟨size, bin⟩] }

/-- What the loop over the bins ends with; `allocs` counts the allocations. -/
inductive Bins where
  | loaded (d : Dual) (allocs : Nat)
  | stopped (r : LoadResult)

/-- The loop of `HvpInitializeMemoryHive` over the bins. -/
def loadBins (selfHeal : Bool) (alloc : Nat → Bool) (chunk : Buf) :
    Nat → Nat → Nat → Dual → Except LoadFault Bins
  | 0, _, _, _ => .error .endless
  | fuel + 1, blockIndex, allocs, d =>
    if blockIndex < d.length then
      let start := (blockIndex + 1) * hblockSize
      if hblockSize + HBaseBlock.length chunk < start + sizeofHBin then .error .image
      else if binInvalid (slice chunk start) blockIndex && !selfHeal then .ok (.stopped .corrupt)
      else
        let bin := binAt chunk blockIndex
        let size := getU32 bin 8
        if !alloc allocs then .ok (.stopped .noMemory)
        else if hblockSize + HBaseBlock.length chunk < start + size then .error .image
        else if d.length < blockIndex + size / hblockSize then .error .blockList
        else
          loadBins selfHeal alloc chunk fuel (blockIndex + size / hblockSize) (allocs + 1)
            (d.loadBin blockIndex size bin)
    else .ok (.loaded d allocs)

/-- `HvpAddFree` for a cell whose size is not known to have room for the link:
    what does not fit into the bin is stored behind it. -/
def HHive.addFree (h : HHive) (freeBlock : Ptr) (freeIndex : Nat) : HHive :=
  let storage := hvGetCellType freeIndex
  let data := h.data freeBlock.storage freeBlock.bin
  let index := hvpComputeFreeListIndex (getU32 data freeBlock.off)
  let next := (h.storage storage).freeDisplay index
  (h.setData freeBlock.storage freeBlock.bin
    (putU32 data (freeBlock.off + sizeofHCell) next)).setDisplay storage index freeIndex

/-- The inner loop of `HvpCreateHiveFreeCellList`, over the cells of bin `k`. -/
def listFreeCells (k : Nat) : Nat → HHive → Nat → Except LoadFault HHive
  | 0, _, _ => .error .endless
  | fuel + 1, h, freeOffset =>
    let data := h.data .stable k
    if freeOffset < getU32 data 8 then
      if h.binSize .stable k < freeOffset + sizeofHCell then .error .image
      else
        let size := getLong data freeOffset
        if 0 < size then
          let h := h.addFree ⟨.stable, k, freeOffset⟩ ((getU32 data 4 + freeOffset) % 2 ^ 32)
          listFreeCells k fuel h ((freeOffset + size.toNat) % 2 ^ 32)
        else listFreeCells k fuel h ((freeOffset + (-size).toNat) % 2 ^ 32)
    else .ok h

/-- The outer loop of `HvpCreateHiveFreeCellList`. -/
def listBins : Nat → HHive → Nat → Except LoadFault HHive
  | 0, _, _ => .error .endless
  | fuel + 1, h, blockIndex =>
    if blockIndex < (h.storage .stable).length then
      match ((h.storage .stable).blockList blockIndex).binAddress with
      | none => .error .image
      | some k =>
        match listFreeCells k fuel h sizeofHBin with
        | .error e => .error e
        | .ok h => listBins fuel h (blockIndex + getU32 (h.data .stable k) 8 / hblockSize)
    else .ok h

/-- Empty free lists. -/
def HHive.clearDisplay (h : HHive) : HHive :=
  { h with storage := fun t => { h.storage t with freeDisplay := fun _ => hcellNil } }

/-- `HvpCreateHiveFreeCellList` -/
def hvpCreateHiveFreeCellList (fuel : Nat) (h : HHive) : Except LoadFault HHive :=
  listBins fuel h.clearDisplay 0

/-- Last part of `HvpInitializeMemoryHive`; `fileName` is what
    `HvpInitFileName` leaves in the base block. -/
def finishLoad (h : HHive) (chunk fileName : Buf) : HHive :=
  let size := roundUp (h.storage .stable).length 32 / 8 * 8
  let all : Bool := HBaseBlock.bootRecover chunk = 2
  { h with
    dirtyVector := ⟨size, fun _ => all⟩
    dirtyCount := if all then size else h.dirtyCount
    baseBlock := overlay h.baseBlock 48 64 fileName }

/-- `HvpInitializeMemoryHive`; `alloc` tells which allocations succeed. -/
def hvpInitializeMemoryHive (selfHeal : Bool) (alloc : Nat → Bool) (fuel : Nat) (h : HHive)
    (chunk fileName : Buf) : Except LoadFault LoadResult :=
  let chunkSize := HBaseBlock.length chunk
  if chunkSize < hblockSize || !hvpVerifyHiveHeader chunk FileType.primary.toNat then .ok .corrupt
  else if !alloc 0 || !alloc 1 then .ok .noMemory
  else
    let d := { h.storage .stable with length := chunkSize / hblockSize, bins := [] }
    match loadBins selfHeal alloc chunk fuel 0 2 d with
    | .error e => .error e
    | .ok (.stopped r) => .ok r
    | .ok (.loaded d allocs) =>
      let h := { h with baseBlock := chunk, version := HBaseBlock.minor chunk }
      match hvpCreateHiveFreeCellList fuel (h.setDual .stable d) with
      | .error e => .error e
      | .ok h => if alloc allocs then .ok (.success (finishLoad h chunk fileName)) else .ok .noMemory

/-! ## Section 2: Checking the sizes -/

/-- A bin under inspection, with the heads of the free lists. -/
structure Walk where
  data : Buf
  display : StorageType → Nat → Nat

/-- File a free cell. -/
def Walk.file (w : Walk) (off : Nat) : Walk :=
  let cell := (getU32 w.data 4 + off) % 2 ^ 32
  let t := hvGetCellType cell
  let i := hvpComputeFreeListIndex (getU32 w.data off)
  { data := putU32 w.data (off + sizeofHCell) (w.display t i)
    display := fun t' i' => if t' = t ∧ i' = i then cell else w.display t' i' }

/-- The cells from `off` on: every `Size` word is inside the bin and not zero,
    and adding it to the offset does not wrap around.  A free cell of less
    than eight bytes has its link in the header of the next one. -/
def checkCells (size : Nat) : Nat → Walk → Nat → Option Walk
  | 0, _, _ => none
  | fuel + 1, w, off =>
    if size ≤ off then some w
    else if size < off + sizeofHCell then none
    else
      let n := getLong w.data off
      if n = 0 ∨ 2 ^ 32 ≤ off + n.natAbs then none
      else checkCells size fuel (if 0 < n then w.file off else w) (off + n.natAbs)

/-- The cells of all bins. -/
def checkAllCells : List Bin → (StorageType → Nat → Nat) → Option (StorageType → Nat → Nat)
  | [], display => some display
  | b :: bins, display =>
    (checkCells b.size b.size ⟨b.data, display⟩ sizeofHBin).bind (fun w =>
      checkAllCells bins w.display)

/-- The bins from block `i` on: no size is zero or reaches behind the last
    block.  The result is `some none` when a bin is invalid and may not be
    repaired, which ends the walk. -/
def checkBins (selfHeal : Bool) (chunk : Buf) (length : Nat) :
    Nat → Nat → Option (Option (List Bin))
  | 0, _ => none
  | fuel + 1, i =>
    if length ≤ i then some (some [])
    else if binInvalid (slice chunk ((i + 1) * hblockSize)) i && !selfHeal then some none
    else
      let size := getU32 (binAt chunk i) 8
      if size = 0 ∨ length < i + size / hblockSize then none
      else
        (checkBins selfHeal chunk length fuel (i + size / hblockSize)).map
          (·.map (⟨size, binAt chunk i⟩ :: ·))

/-- The sizes in the image can be trusted. -/
def SizesOk (selfHeal : Bool) (chunk : Buf) : Prop :=
  HBaseBlock.length chunk < hblockSize ∨
  ∃ bins, checkBins selfHeal chunk (HBaseBlock.length chunk / hblockSize)
      (HBaseBlock.length chunk / hblockSize + 1) 0 = some bins ∧
    ∀ l, bins = some l → (checkAllCells l (fun _ _ => hcellNil)).isSome

/-- Loading the image ends, whatever the allocations do, without a store
    behind the block list or a load from outside the image. -/
def LoadSafe (selfHeal : Bool) (chunk : Buf) : Prop :=
  ∀ alloc h fileName, ∃ fuel r,
    hvpInitializeMemoryHive selfHeal alloc fuel h chunk fileName = .ok r

/-! ## Section 3: Cells -/

variable {k fuel : Nat}

/-- What the walk over a bin of a hive starts from. -/
def HHive.walk (h : HHive) (k : Nat) : Walk :=
  ⟨h.data .stable k, fun t => (h.storage t).freeDisplay⟩

/-- `h'` differs from `h` in the bytes of bin `k` and the heads of the free
    lists at most. -/
structure OnlyBin (k : Nat) (h h' : HHive) : Prop where
  length : (h'.storage .stable).length = (h.storage .stable).length
  blockList : (h'.storage .stable).blockList = (h.storage .stable).blockList
  size : h'.binSize .stable k = h.binSize .stable k
  bins : ∀ j, j ≠ k → h'.bin .stable j = h.bin .stable j

theorem OnlyBin.refl (k : Nat) (h : HHive) : OnlyBin k h h := ⟨rfl, rfl, rfl, fun _ _ => rfl⟩

theorem OnlyBin.trans {h1 h2 h3 : HHive} (h12 : OnlyBin k h1 h2)
    (h23 : OnlyBin k h2 h3) : OnlyBin k h1 h3 :=
  ⟨h23.length.trans h12.length, h23.blockList.trans h12.blockList, h23.size.trans h12.size,
    fun j hj => (h23.bins j hj).trans (h12.bins j hj)⟩

section Cells

variable {h h' : HHive} {off size : Nat} {w w' : Walk}

theorem onlyBin_addFree (cell : Nat) : OnlyBin k h (h.addFree ⟨.stable, k, off⟩ cell) := by
  refine ⟨by simp [addFree], by simp [addFree], by simp [addFree], ?_⟩
  intro j hj
  have hdisplay : ∀ (h : HHive) t i v, (h.setDisplay t i v).bin .stable j = h.bin .stable j := by
    intro h t i v
    simp [bin]
  simp only [addFree]
  rw [hdisplay, bin_setData, if_neg (by simp [hj])]

theorem walk_addFree (hk : 0 < h.binSize .stable k) :
    (h.addFree ⟨.stable, k, off⟩ ((getU32 (h.data .stable k) 4 + off) % 2 ^ 32)).walk k
      = (h.walk k).file off := by
  simp only [walk, addFree, Walk.file, data_setDisplay, data_setData_self _ hk]
  congr 1
  funext t i
  rw [freeDisplay_setDisplay, freeDisplay_setData]
  exact if_congr Iff.rfl rfl rfl

/-- The hive after one round of the loop over the cells. -/
def HHive.listCell (h : HHive) (k off : Nat) : HHive :=
  if 0 < getLong (h.data .stable k) off then
    h.addFree ⟨.stable, k, off⟩ ((getU32 (h.data .stable k) 4 + off) % 2 ^ 32)
  else h

/-- The walk after one round. -/
def Walk.next (w : Walk) (off : Nat) : Walk := if 0 < getLong w.data off then w.file off else w

theorem walk_data : (h.walk k).data = h.data .stable k := rfl

theorem onlyBin_listCell : OnlyBin k h (h.listCell k off) := by
  unfold listCell
  split
  · exact onlyBin_addFree _
  · exact .refl k h

theorem walk_listCell (hk : 0 < h.binSize .stable k) :
    (h.listCell k off).walk k = (h.walk k).next off := by
  unfold listCell
  split
  · rename_i hfree
    exact (walk_addFree hk).trans (if_pos hfree).symm
  · rename_i hused
    exact (if_neg hused).symm

/-- Behind the header of a bin, filing a cell leaves the header alone. -/
theorem getU32_next (hoff : 32 ≤ off) : getU32 (w.next off).data 8 = getU32 w.data 8 := by
  unfold Walk.next
  split
  · simp only [Walk.file, sizeofHCell]
    exact getU32_putU32_ne (by omega)
  · rfl

theorem header_listCell (hk : 0 < h.binSize .stable k) (hoff : 32 ≤ off) :
    getU32 ((h.listCell k off).data .stable k) 8 = getU32 (h.data .stable k) 8 := by
  rw [← walk_data, walk_listCell hk]
  exact getU32_next hoff

theorem natAbs_eq {n : Int} : n.natAbs = if 0 < n then n.toNat else (-n).toNat := by
  split <;> omega

theorem listFreeCells_step (hsize : getU32 (h.data .stable k) 8 = size)
    (hbin : h.binSize .stable k = size) (hlt : off < size) (hin : off + sizeofHCell ≤ size) :
    listFreeCells k (fuel + 1) h off = listFreeCells k fuel (h.listCell k off)
      ((off + (getLong (h.data .stable k) off).natAbs) % 2 ^ 32) := by
  rw [listFreeCells]
  simp only [hsize, hbin]
  rw [if_pos hlt, if_neg (by omega), natAbs_eq, listCell]
  split <;> rfl

theorem checkCells_succ (hcheck : checkCells size (fuel + 1) w off = some w') :
    (size ≤ off ∧ w' = w) ∨ (off < size ∧ off + sizeofHCell ≤ size ∧ getLong w.data off ≠ 0 ∧
      off + (getLong w.data off).natAbs < 2 ^ 32 ∧
      checkCells size fuel (w.next off) (off + (getLong w.data off).natAbs) = some w') := by
  rw [checkCells] at hcheck
  split at hcheck
  · rename_i hend
    cases hcheck
    exact .inl ⟨hend, rfl⟩
  split at hcheck
  · cases hcheck
  simp only at hcheck
  split at hcheck
  · cases hcheck
  exact .inr ⟨by omega, by omega, by omega, by omega, hcheck⟩

theorem checkCells_header (hcheck : checkCells size fuel w off = some w') (hoff : 32 ≤ off) :
    getU32 w'.data 8 = getU32 w.data 8 := by
  induction fuel generalizing w off with
  | zero => simp [checkCells] at hcheck
  | succ fuel ih =>
    rcases checkCells_succ hcheck with ⟨_, rfl⟩ | ⟨_, _, _, _, hnext⟩
    · rfl
    · rw [ih hnext (by omega), getU32_next hoff]

/-- Where the check passes, the loop over the cells ends. -/
theorem listFreeCells_of_check {fuel' : Nat}
    (hcheck : checkCells size fuel (h.walk k) off = some w) (hfuel : fuel ≤ fuel')
    (hsize : getU32 (h.data .stable k) 8 = size) (hbin : h.binSize .stable k = size)
    (hpos : 0 < size) (hoff : 32 ≤ off) :
    ∃ h', listFreeCells k fuel' h off = .ok h' ∧ h'.walk k = w ∧ OnlyBin k h h' := by
  induction fuel generalizing fuel' h off with
  | zero => simp [checkCells] at hcheck
  | succ fuel ih =>
    obtain ⟨fuel', rfl⟩ : ∃ m, fuel' = m + 1 := ⟨fuel' - 1, by omega⟩
    rcases checkCells_succ hcheck with ⟨hend, rfl⟩ | ⟨hlt, hin, _, hlow, hnext⟩
    · refine ⟨h, ?_, rfl, .refl k h⟩
      rw [listFreeCells]
      simp only [hsize]
      exact if_neg (by omega)
    rw [walk_data] at hlow hnext
    rw [← walk_listCell (hbin ▸ hpos)] at hnext
    obtain ⟨h', hrun, hwalk, honly⟩ := ih hnext (show fuel ≤ fuel' by omega)
      ((header_listCell (hbin ▸ hpos) hoff).trans hsize) (onlyBin_listCell.size.trans hbin)
      (by omega)
    refine ⟨h', ?_, hwalk, onlyBin_listCell.trans honly⟩
    rw [listFreeCells_step hsize hbin hlt hin, Nat.mod_eq_of_lt hlow]
    exact hrun

/-- Where the loop over the cells ends, the check passes.  In a bin of at most
    2 GB no offset wraps around. -/
theorem check_of_listFreeCells {fuel' : Nat} (hrun : listFreeCells k fuel' h off = .ok h')
    (hsize : getU32 (h.data .stable k) 8 = size) (hbin : h.binSize .stable k = size)
    (hle : size ≤ 2 ^ 31) (hpos : 0 < size) (hoff : 32 ≤ off) (hfuel : 0 < fuel)
    (henough : size < off + fuel) :
    checkCells size fuel (h.walk k) off = some (h'.walk k) ∧ OnlyBin k h h' := by
  induction fuel' generalizing fuel h off with
  | zero => simp [listFreeCells] at hrun
  | succ fuel' ih =>
    obtain _ | fuel := fuel
    · omega
    rw [checkCells]
    by_cases hend : size ≤ off
    · rw [listFreeCells, if_neg (by omega)] at hrun
      cases hrun
      exact ⟨if_pos hend, .refl k _⟩
    have hin : off + sizeofHCell ≤ size := by
      by_contra hout
      rw [listFreeCells] at hrun
      rw [if_pos (by omega), if_pos (by omega)] at hrun
      cases hrun
    rw [listFreeCells_step hsize hbin (by omega) hin] at hrun
    have hlow := getLong_lower (h.data .stable k) off
    have hup := getLong_upper (h.data .stable k) off
    rw [Nat.mod_eq_of_lt (by omega)] at hrun
    have hnext : ∀ f, 0 < f → size < off + (getLong (h.data .stable k) off).natAbs + f →
        checkCells size f ((h.walk k).next off) (off + (getLong (h.data .stable k) off).natAbs) =
          some (h'.walk k) ∧ OnlyBin k h h' := by
      intro f hf henough
      obtain ⟨hcheck, honly⟩ := ih hrun ((header_listCell (hbin ▸ hpos) hoff).trans hsize)
        (onlyBin_listCell.size.trans hbin) (by omega) hf henough
      rw [walk_listCell (hbin ▸ hpos)] at hcheck
      exact ⟨hcheck, onlyBin_listCell.trans honly⟩
    have hne : getLong (h.data .stable k) off ≠ 0 := by
      -- a size of zero would be met again and again
      intro hzero
      have hsame : (h.walk k).next off = h.walk k := if_neg (by rw [walk_data, hzero]; decide)
      have hagain := (hnext (fuel + 1) (by omega) (by omega)).1
      rw [hsame, hzero] at hagain
      rcases checkCells_succ hagain with ⟨hend', _⟩ | ⟨_, _, hne, _⟩
      · exact hend hend'
      · exact hne hzero
    rw [if_neg hend, if_neg (by omega)]
    obtain ⟨hcheck, honly⟩ := hnext fuel (by omega) (by omega)
    exact ⟨(if_neg (by rw [walk_data]; omega)).trans hcheck, honly⟩

end Cells

/-! ## Section 4: Bins -/

variable {i : Nat} {l : List Bin}

/-- A list of bins from block `i` on, one behind the other up to `length`. -/
def BinsFit (length : Nat) : Nat → List Bin → Prop
  | i, [] => length ≤ i
  | i, b :: bins =>
    i < length ∧ getU32 b.data 8 = b.size ∧ 0 < b.size ∧ b.size % hblockSize = 0 ∧
      i + b.size / hblockSize ≤ length ∧ BinsFit length (i + b.size / hblockSize) bins

/-- The storage with a list of bins from block `i` on. -/
def Dual.loadAll (d : Dual) : Nat → List Bin → Dual
  | _, [] => d
  | i, b :: bins => (d.loadBin i b.size b.data).loadAll (i + b.size / hblockSize) bins

theorem binAt_size (chunk : Buf) (i : Nat) : getU32 (binAt chunk i) 8 % hblockSize = 0 := by
  simp only [binAt]
  split
  · simp only [repairBin]
    rw [getU32_putU32_ne (by omega), getU32_putU32_self]
    rfl
  rename_i hvalid
  simp only [binInvalid, Bool.or_eq_true, not_or] at hvalid
  have := hvalid.1.2
  simpa using this

section Bins

variable {selfHeal : Bool} {alloc : Nat → Bool} {chunk : Buf} {length : Nat}

theorem checkBins_fit
    (hcheck : checkBins selfHeal chunk length fuel i = some (some l)) : BinsFit length i l := by
  induction fuel generalizing i l with
  | zero => simp [checkBins] at hcheck
  | succ fuel ih =>
    rw [checkBins] at hcheck
    split at hcheck
    · rename_i hend
      cases hcheck
      exact hend
    split at hcheck
    · cases hcheck
    simp only at hcheck
    split at hcheck
    · cases hcheck
    rename_i hlt _ hok
    obtain ⟨r, hr, heq⟩ := map_eq_some_iff.mp hcheck
    obtain ⟨bins, rfl, rfl⟩ := map_eq_some_iff.mp heq
    exact ⟨by omega, rfl, by simp only; omega, binAt_size chunk i, by simp only; omega, ih hr⟩

theorem header_inside (hi : i < HBaseBlock.length chunk / hblockSize) :
    (i + 1) * hblockSize + sizeofHBin ≤ hblockSize + HBaseBlock.length chunk := by
  simp only [hblockSize, sizeofHBin] at *
  omega

theorem bin_inside {size : Nat} (hmod : size % hblockSize = 0)
    (hle : i + size / hblockSize ≤ HBaseBlock.length chunk / hblockSize) :
    (i + 1) * hblockSize + size ≤ hblockSize + HBaseBlock.length chunk := by
  simp only [hblockSize] at *
  omega

/-- Where the check of the bins passes, the loop over them ends. -/
theorem loadBins_of_check {fuel fuel' i allocs : Nat} {d : Dual} {r : Option (List Bin)}
    (hcheck : checkBins selfHeal chunk length fuel i = some r) (hfuel : fuel ≤ fuel')
    (hlen : length = HBaseBlock.length chunk / hblockSize) (hd : d.length = length) :
    (∃ x, loadBins selfHeal alloc chunk fuel' i allocs d = .ok (.stopped x)) ∨
    ∃ l n, r = some l ∧
      loadBins selfHeal alloc chunk fuel' i allocs d = .ok (.loaded (d.loadAll i l) n) := by
  induction fuel generalizing fuel' i allocs d r with
  | zero => simp [checkBins] at hcheck
  | succ fuel ih =>
    obtain ⟨fuel', rfl⟩ : ∃ m, fuel' = m + 1 := ⟨fuel' - 1, by omega⟩
    rw [checkBins] at hcheck
    rw [loadBins]
    simp only
    split at hcheck
    · rename_i hend
      cases hcheck
      rw [if_neg (by omega)]
      exact .inr ⟨[], allocs, rfl, rfl⟩
    rename_i hlt
    have hi : i < HBaseBlock.length chunk / hblockSize := by omega
    have hhead := header_inside hi
    rw [if_pos (by omega), if_neg (by omega)]
    split at hcheck
    · rename_i hbad
      rw [if_pos hbad]
      exact .inl ⟨_, rfl⟩
    rename_i hgood
    rw [if_neg hgood]
    simp only at hcheck
    split at hcheck
    · cases hcheck
    rename_i hok
    obtain ⟨r', hr', rfl⟩ := map_eq_some_iff.mp hcheck
    have hfit : i + getU32 (binAt chunk i) 8 / hblockSize
        ≤ HBaseBlock.length chunk / hblockSize := by omega
    have hin := bin_inside (binAt_size chunk i) hfit
    split
    · exact .inl ⟨_, rfl⟩
    rw [if_neg (by omega), if_neg (by omega)]
    have hd' : (d.loadBin i (getU32 (binAt chunk i) 8) (binAt chunk i)).length = length := hd
    have hnext := @ih fuel' _ (allocs + 1) _ _ hr' (by omega) hd'
    rcases hnext with hstop | ⟨l, n, rfl, hload⟩
    · exact .inl hstop
    · exact .inr ⟨_, n, rfl, hload⟩

/-- Where the loop over the bins ends with all the memory it asks for, the
    check of the bins passes. -/
theorem check_of_loadBins {fuel fuel' i allocs : Nat} {d : Dual} {res : Bins}
    (hrun : loadBins selfHeal (fun _ => true) chunk fuel' i allocs d = .ok res)
    (hlen : length = HBaseBlock.length chunk / hblockSize) (hd : d.length = length)
    (hfuel : 0 < fuel) (henough : length < i + fuel) :
    ∃ r, checkBins selfHeal chunk length fuel i = some r ∧
      ∀ l, r = some l → ∃ n, res = .loaded (d.loadAll i l) n := by
  induction fuel' generalizing fuel i allocs d with
  | zero => simp [loadBins] at hrun
  | succ fuel' ih =>
    obtain _ | fuel := fuel
    · omega
    rw [loadBins] at hrun
    rw [checkBins]
    simp only at hrun ⊢
    by_cases hend : length ≤ i
    · rw [if_neg (by omega)] at hrun
      cases hrun
      rw [if_pos hend]
      refine ⟨_, rfl, ?_⟩
      intro l hl
      cases hl
      exact ⟨allocs, rfl⟩
    have hi : i < HBaseBlock.length chunk / hblockSize := by omega
    have hhead := header_inside hi
    rw [if_pos (by omega), if_neg (by omega)] at hrun
    rw [if_neg hend]
    split at hrun
    · rename_i hbad
      rw [if_pos hbad]
      exact ⟨none, rfl, by simp⟩
    rename_i hgood
    rw [if_neg hgood]
    simp only [Bool.not_true, Bool.false_eq_true, if_false] at hrun
    split at hrun
    · cases hrun
    split at hrun
    · cases hrun
    rename_i hin hfit
    have hd' : (d.loadBin i (getU32 (binAt chunk i) 8) (binAt chunk i)).length = length := hd
    have hmod := binAt_size chunk i
    have hne : getU32 (binAt chunk i) 8 ≠ 0 := by
      -- a bin of size zero would be loaded again and again
      intro hzero
      have hsame : i + getU32 (binAt chunk i) 8 / hblockSize = i := by
        rw [hzero]
        simp
      rw [hsame] at hrun
      obtain ⟨r, hr, _⟩ := ih hrun hd' (show 0 < fuel + 1 by omega) (by omega)
      rw [checkBins, if_neg hend, if_neg hgood] at hr
      simp [hzero] at hr
    have hpos : 0 < getU32 (binAt chunk i) 8 / hblockSize := by
      simp only [hblockSize] at hmod ⊢
      omega
    obtain ⟨r, hr, hl⟩ := ih hrun hd' (show 0 < fuel by omega) (by omega)
    rw [if_neg (by omega), hr]
    refine ⟨_, rfl, ?_⟩
    intro l heq
    obtain ⟨bins, rfl, rfl⟩ := map_eq_some_iff.mp heq
    exact hl bins rfl

/-- The storage holds the bins `bins` from block `i` and bin number `k` on. -/
def Dual.Holds (d : Dual) : Nat → Nat → List Bin → Prop
  | _, _, [] => True
  | i, k, b :: bins =>
    (d.blockList i).binAddress = some k ∧ d.bins[k]? = some b ∧
      d.Holds (i + b.size / hblockSize) (k + 1) bins

theorem loadAll_length (d : Dual) (i : Nat) (l : List Bin) : (d.loadAll i l).length = d.length := by
  induction l generalizing d i with
  | nil => rfl
  | cons b l ih => exact ih _ _

theorem loadAll_bins (d : Dual) (i : Nat) (l : List Bin) : (d.loadAll i l).bins = d.bins ++ l := by
  induction l generalizing d i with
  | nil => simp [Dual.loadAll]
  | cons b l ih =>
    rw [Dual.loadAll, ih]
    simp [Dual.loadBin]

theorem loadAll_blockList {d : Dual} {j : Nat} (l : List Bin) (hj : j < i) :
    (d.loadAll i l).blockList j = d.blockList j := by
  induction l generalizing d i with
  | nil => rfl
  | cons b l ih =>
    rw [Dual.loadAll, ih (Nat.lt_of_lt_of_le hj (Nat.le_add_right _ _))]
    simp only [Dual.loadBin]
    exact if_neg (by omega)

theorem loadAll_holds {d : Dual} {i : Nat} {l : List Bin} (hfit : BinsFit length i l) :
    (d.loadAll i l).Holds i d.bins.length l := by
  induction l generalizing d i with
  | nil => trivial
  | cons b l ih =>
    obtain ⟨_, _, hpos, hmod, _, hrest⟩ := hfit
    have hstep : 0 < b.size / hblockSize := by
      simp only [hblockSize] at hmod ⊢
      omega
    refine ⟨?_, ?_, ?_⟩
    · rw [Dual.loadAll, loadAll_blockList _ (by omega)]
      simp [Dual.loadBin]
    · rw [loadAll_bins]
      simp
    · have := @ih (d.loadBin i b.size b.data) (i + b.size / hblockSize) hrest
      simpa [Dual.loadBin, Dual.loadAll] using this

theorem Dual.Holds.congr {d d' : Dual} (hh : d.Holds i k l) (hlist : d'.blockList = d.blockList)
    (hbins : ∀ j, k ≤ j → d'.bins[j]? = d.bins[j]?) : d'.Holds i k l := by
  induction l generalizing i k with
  | nil => trivial
  | cons b l ih =>
    obtain ⟨hblock, hbin, hrest⟩ := hh
    rw [← hlist] at hblock
    exact ⟨hblock, (hbins k (Nat.le_refl k)).trans hbin,
      ih hrest fun j hj => hbins j (Nat.le_of_succ_le hj)⟩

theorem Dual.Holds.onlyBin {h h' : HHive} (hh : (h.storage .stable).Holds i (k + 1) l)
    (honly : OnlyBin k h h') : (h'.storage .stable).Holds i (k + 1) l :=
  hh.congr honly.blockList fun j hj => honly.bins j (Nat.ne_of_gt hj)

/-- Where the check of the cells passes, collecting the free cells ends. -/
theorem listBins_of_check {h : HHive} {bins : List Bin} {i k fuel bound : Nat}
    {display : StorageType → Nat → Nat}
    (hcheck : checkAllCells bins (fun t => (h.storage t).freeDisplay) = some display)
    (hfit : BinsFit length i bins) (hlen : (h.storage .stable).length = length)
    (hh : (h.storage .stable).Holds i k bins) (hbound : ∀ b ∈ bins, b.size ≤ bound)
    (hfuel : bound + bins.length < fuel) : ∃ h', listBins fuel h i = .ok h' := by
  induction bins generalizing h i k fuel with
  | nil =>
    obtain _ | fuel := fuel
    · omega
    have hend : length ≤ i := hfit
    exact ⟨h, by rw [listBins, if_neg (by omega)]⟩
  | cons b bins ih =>
    obtain _ | fuel := fuel
    · omega
    obtain ⟨hi, hword, hpos, hmod, hle, hrest⟩ := hfit
    obtain ⟨hlist, hbin, hholds⟩ := hh
    have hdata : h.data .stable k = b.data := by
      simp [data, bin, hbin]
    have hsize : h.binSize .stable k = b.size := by
      simp [binSize, bin, hbin]
    obtain ⟨w, hw, hcells⟩ := bind_eq_some_iff.mp hcheck
    rw [← hdata] at hw hword
    have hb := hbound b (by simp)
    obtain ⟨h', hrun, hwalk, honly⟩ := listFreeCells_of_check hw
      (show b.size ≤ fuel by simp only [List.length_cons] at hfuel; omega) hword hsize hpos
      (Nat.le_refl _)
    have hdisplay : w.display = fun t => (h'.storage t).freeDisplay := by
      rw [← hwalk]
      rfl
    -- Linking free cells does not touch the bin's header.
    have hhead : getU32 (h'.data .stable k) 8 = b.size := by
      have := checkCells_header hw (Nat.le_refl _)
      rw [← hwalk] at this
      exact this.trans hword
    rw [hdisplay] at hcells
    rw [listBins, if_pos (by omega), hlist]
    simp only [hrun, hhead]
    refine ih hcells hrest (honly.length.trans hlen) (hholds.onlyBin honly)
      (fun b hb => hbound b (by simp [hb])) ?_
    simp only [List.length_cons] at hfuel
    omega

/-- Where collecting the free cells of a hive of at most 2 GB ends, the check
    of the cells passes. -/
theorem check_of_listBins {h h' : HHive} {bins : List Bin} {i k fuel : Nat}
    (hrun : listBins fuel h i = .ok h') (hfit : BinsFit length i bins)
    (hlen : (h.storage .stable).length = length) (hsmall : length * hblockSize ≤ 2 ^ 31)
    (hh : (h.storage .stable).Holds i k bins) :
    (checkAllCells bins (fun t => (h.storage t).freeDisplay)).isSome := by
  induction bins generalizing h i k fuel with
  | nil => rfl
  | cons b bins ih =>
    obtain ⟨hi, hword, hpos, hmod, hle, hrest⟩ := hfit
    obtain ⟨hlist, hbin, hholds⟩ := hh
    have hdata : h.data .stable k = b.data := by
      simp [data, bin, hbin]
    have hsize : h.binSize .stable k = b.size := by
      simp [binSize, bin, hbin]
    have hbsize : b.size ≤ 2 ^ 31 := by
      simp only [hblockSize] at *
      omega
    rw [← hdata] at hword
    cases fuel with
    | zero => simp [listBins] at hrun
    | succ fuel =>
      rw [listBins, if_pos (by omega), hlist] at hrun
      simp only at hrun
      split at hrun
      · cases hrun
      rename_i h1 hcells
      obtain ⟨hcheck, honly⟩ := check_of_listFreeCells hcells hword hsize hbsize hpos
        (Nat.le_refl _) hpos (by simp only [sizeofHBin]; omega)
      have hhead : getU32 (h1.data .stable k) 8 = b.size :=
        (checkCells_header hcheck (Nat.le_refl _)).trans hword
      rw [hhead] at hrun
      have hnext := ih hrun hrest (honly.length.trans hlen)
        (hholds.onlyBin honly)
      rw [walk, hdata] at hcheck
      rw [checkAllCells, hcheck]
      exact hnext

end Bins

/-! ## Section 5: The loader -/

section Loader

variable {selfHeal : Bool} {chunk : Buf}

theorem BinsFit.size_le {length : Nat} (hfit : BinsFit length i l) :
    ∀ b ∈ l, b.size ≤ length * hblockSize := by
  induction l generalizing i with
  | nil => simp
  | cons b l ih =>
    obtain ⟨_, _, _, hmod, hle, hrest⟩ := hfit
    intro c hc
    rcases List.mem_cons.mp hc with rfl | hc
    · simp only [hblockSize] at *
      omega
    · exact ih hrest c hc

theorem BinsFit.length_le {length : Nat} (hfit : BinsFit length i l) : l.length ≤ length - i := by
  induction l generalizing i with
  | nil => simp
  | cons b l ih =>
    obtain ⟨hi, _, hpos, hmod, hle, hrest⟩ := hfit
    have := ih hrest
    simp only [hblockSize, List.length_cons] at *
    omega

/-- The hive whose free cells are collected. -/
def loadedHive (h : HHive) (chunk : Buf) (d : Dual) : HHive :=
  HHive.clearDisplay
    (HHive.setDual { h with baseBlock := chunk, version := HBaseBlock.minor chunk } .stable d)

theorem loadSafe_of_sizesOk (hok : SizesOk selfHeal chunk) : LoadSafe selfHeal chunk := by
  intro alloc h fileName
  by_cases hhead : (length chunk < hblockSize ||
      !hvpVerifyHiveHeader chunk FileType.primary.toNat) = true
  · exact ⟨0, .corrupt, by simp only [hvpInitializeMemoryHive]; rw [if_pos hhead]⟩
  by_cases hmem : (!alloc 0 || !alloc 1) = true
  · exact ⟨0, .noMemory, by simp only [hvpInitializeMemoryHive]; rw [if_neg hhead, if_pos hmem]⟩
  rcases hok with hshort | ⟨bins, hcheck, hcells⟩
  · simp [hshort] at hhead
  -- enough fuel for the blocks, and for the cells of every bin
  let length := length chunk / hblockSize
  let d : Dual := { h.storage .stable with length := length, bins := [] }
  obtain ⟨fuel, hfuel⟩ : ∃ n, n = length * hblockSize + length * hblockSize + length + 2 := ⟨_, rfl⟩
  refine ⟨fuel, ?_⟩
  simp only [hvpInitializeMemoryHive]
  rw [if_neg hhead, if_neg hmem]
  have hload := @loadBins_of_check selfHeal alloc chunk length (length + 1) fuel 0 2 d bins hcheck
    (by omega) rfl rfl
  rcases hload with ⟨x, hstop⟩ | ⟨l, n, rfl, hload⟩
  · exact ⟨x, by rw [hstop]⟩
  rw [hload]
  have hfit := checkBins_fit hcheck
  have hle : l.length ≤ length := hfit.length_le
  obtain ⟨display, hdisplay⟩ := isSome_iff_exists.mp (hcells l rfl)
  obtain ⟨h', hlist⟩ : ∃ h', hvpCreateHiveFreeCellList fuel _ = .ok h' :=
    @listBins_of_check length (loadedHive h chunk (d.loadAll 0 l)) l 0 0 fuel
      (length * hblockSize) display hdisplay hfit (loadAll_length d 0 l)
      ((loadAll_holds (d := d) hfit).congr rfl fun _ _ => rfl) hfit.size_le (by omega)
  simp only [hlist]
  split
  · exact ⟨_, rfl⟩
  · exact ⟨_, rfl⟩

/-- Where loading a hive of at most 2 GB is safe, the sizes are in order. -/
theorem sizesOk_of_loadSafe (hv : hvpVerifyHiveHeader chunk FileType.primary.toNat = true)
    (hsmall : length chunk ≤ 2 ^ 31) (hsafe : LoadSafe selfHeal chunk) :
    SizesOk selfHeal chunk := by
  by_cases hshort : length chunk < hblockSize
  · exact .inl hshort
  let length := length chunk / hblockSize
  let h := hvpCreateHive .primary 0 zeroBuf
  let d : Dual := { h.storage .stable with length := length, bins := [] }
  obtain ⟨fuel, r, hrun⟩ := hsafe (fun _ => true) h zeroBuf
  simp only [hvpInitializeMemoryHive] at hrun
  rw [if_neg (by simp [hv, hshort]), if_neg (by simp)] at hrun
  cases hload : loadBins selfHeal (fun _ => true) chunk fuel 0 2 d with
  | error e =>
    rw [hload] at hrun
    cases hrun
  | ok res =>
    obtain ⟨bins, hcheck, hl⟩ := @check_of_loadBins selfHeal chunk length (length + 1) fuel 0 2 d
      res hload rfl rfl (Nat.succ_pos _) (by omega)
    refine .inr ⟨bins, hcheck, ?_⟩
    rintro l rfl
    obtain ⟨n, rfl⟩ := hl l rfl
    have hfit := checkBins_fit hcheck
    rw [hload] at hrun
    simp only at hrun
    split at hrun
    · cases hrun
    · rename_i h' hlist
      exact @check_of_listBins length (loadedHive h chunk (d.loadAll 0 l)) h' l 0 0 fuel hlist hfit
        (loadAll_length d 0 l) (Nat.le_trans (Nat.div_mul_le_self _ _) hsmall)
        ((loadAll_holds (d := d) hfit).congr rfl fun _ _ => rfl)

/-- Loading an image is safe when its sizes are in order, and, for a hive of
    at most 2 GB, only then. -/
theorem loadSafe_iff_sizesOk (hv : hvpVerifyHiveHeader chunk FileType.primary.toNat = true) :
    (SizesOk selfHeal chunk → LoadSafe selfHeal chunk) ∧
    (HBaseBlock.length chunk ≤ 2 ^ 31 → LoadSafe selfHeal chunk → SizesOk selfHeal chunk) :=
  ⟨loadSafe_of_sizesOk, fun hsmall hsafe => sizesOk_of_loadSafe hv hsmall hsafe⟩

end Loader

/-- An image of one block, with the sizes of its bin and of its first cell. -/
def sampleImage (binSize cellSize : Nat) : Buf :=
  let b := HBaseBlock.setSignature zeroBuf hvHBlockSignature
  let b := HBaseBlock.setSequence1 b 1
  let b := HBaseBlock.setSequence2 b 1
  let b := HBaseBlock.setMajor b 1
  let b := HBaseBlock.setMinor b 3
  let b := HBaseBlock.setFormat b 1
  let b := HBaseBlock.setLength b hblockSize
  let b := HBaseBlock.setCluster b 1
  let b := HBaseBlock.setCheckSum b (hvpHiveHeaderChecksum b)
  let b := putU32 b hblockSize hvHBinSignature
  let b := putU32 b (hblockSize + 8) binSize
  putU32 b (hblockSize + sizeofHBin) cellSize

theorem sampleImage_loadSafe : SizesOk false (sampleImage 4096 4064) ∧
    LoadSafe false (sampleImage 4096 4064) := by
  have hok : SizesOk false (sampleImage 4096 4064) := by
    refine .inr ?_
    have hval : ((checkBins false (sampleImage 4096 4064) 1 2 0).bind id).map
        (fun l => (checkAllCells l (fun _ _ => hcellNil)).isSome) = some true := by
      decide +kernel
    obtain ⟨l, hl, hcells⟩ := Option.map_eq_some_iff.mp hval
    obtain ⟨bins, hbins, rfl⟩ := Option.bind_eq_some_iff.mp hl
    refine ⟨some l, hbins, ?_⟩
    intro l' heq
    cases heq
    exact hcells
  exact ⟨hok, (loadSafe_iff_sizesOk (by decide +kernel)).1 hok⟩

/-- The check fails for an image of one block. -/
def sizesBad (chunk : Buf) : Bool :=
  match checkBins false chunk 1 2 0 with
  | none => true
  | some none => false
  | some (some l) => (checkAllCells l (fun _ _ => hcellNil)).isNone

theorem not_loadSafe_of_sizesBad {chunk : Buf}
    (hv : hvpVerifyHiveHeader chunk FileType.primary.toNat = true)
    (hlen : length chunk = hblockSize) (hbad : sizesBad chunk = true) :
    ¬ LoadSafe false chunk := by
  intro hsafe
  have hok := sizesOk_of_loadSafe hv (by rw [hlen]; decide) hsafe
  rcases hok with hshort | ⟨bins, hcheck, hcells⟩
  · omega
  rw [hlen] at hcheck
  have hcheck' : checkBins false chunk 1 2 0 = some bins := hcheck
  rw [sizesBad, hcheck'] at hbad
  cases bins with
  | none => cases hbad
  | some l =>
    have := hcells l rfl
    simp only [isNone_iff_eq_none] at hbad
    simp [hbad] at this

/-- A bin of size zero is loaded for ever, a bin of two blocks does not fit
    into an image of one, and a cell of size zero is met for ever. -/
theorem not_loadSafe_sampleImage :
    (hvpVerifyHiveHeader (sampleImage 0 4064) FileType.primary.toNat = true ∧
      hvpVerifyHiveHeader (sampleImage 8192 4064) FileType.primary.toNat = true ∧
      hvpVerifyHiveHeader (sampleImage 4096 0) FileType.primary.toNat = true) ∧
    ¬ LoadSafe false (sampleImage 0 4064) ∧ ¬ LoadSafe false (sampleImage 8192 4064) ∧
      ¬ LoadSafe false (sampleImage 4096 0) := by
  have hv : hvpVerifyHiveHeader (sampleImage 0 4064) FileType.primary.toNat = true ∧
      hvpVerifyHiveHeader (sampleImage 8192 4064) FileType.primary.toNat = true ∧
      hvpVerifyHiveHeader (sampleImage 4096 0) FileType.primary.toNat = true := by decide +kernel
  have hlen : HBaseBlock.length (sampleImage 0 4064) = hblockSize ∧
      HBaseBlock.length (sampleImage 8192 4064) = hblockSize ∧
      HBaseBlock.length (sampleImage 4096 0) = hblockSize := by decide +kernel
  have hbad : sizesBad (sampleImage 0 4064) = true ∧ sizesBad (sampleImage 8192 4064) = true ∧
      sizesBad (sampleImage 4096 0) = true := by decide +kernel
  exact ⟨hv, not_loadSafe_of_sizesBad hv.1 hlen.1 hbad.1,
    not_loadSafe_of_sizesBad hv.2.1 hlen.2.1 hbad.2.1,
    not_loadSafe_of_sizesBad hv.2.2 hlen.2.2 hbad.2.2⟩

end Hive
