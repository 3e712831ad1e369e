import ReactOS.Hive.Cell
import ReactOS.Lib.Disk

/-! # Writing a hive to its files

    `hivewrt.c`: the blocks that `DirtyVector` marks are written to the log,
    then to the primary file, then to the alternate file, each time between
    two versions of the base block.  The first version has `Sequence1` ahead
    of `Sequence2`, the second one has them equal again.

    A file request works or fails.  A failed write leaves any bytes in the
    first part of its range.  The trace of a run is the list of the writes
    that reach the disk, in the order in which they are issued.

    As in the other modules `none` is a fault: an assertion that fails, or an
    entry of `BlockList` that does not exist. -/

namespace Hive

open Bytes HBaseBlock List

/-! ## Section 1: Dirty blocks -/

/-- Bit `i` of the bitmap is set. -/
def RtlBitmap.marked (bm : RtlBitmap) (i : Nat) : Bool := decide (i < bm.sizeOfBitMap) && bm.bits i

/-- The first set bit from `start` on. -/
def RtlBitmap.firstSet (bm : RtlBitmap) (start : Nat) : Option Nat :=
  (List.range' start (bm.sizeOfBitMap - start)).find? bm.bits

/-- `RtlFindSetBits(BitMapHeader, 1, HintIndex)`, where `none` is `MAXINDEX`:
    a search from the hint that starts again at the first bit. -/
def rtlFindSetBits (bm : RtlBitmap) (hint : Nat) : Option Nat :=
  let hint := if bm.sizeOfBitMap ≤ hint then 0 else hint
  (bm.firstSet hint).or (bm.firstSet 0)

/-- The loop over the dirty blocks, which the writers of `hivewrt.c` share.
    Its fault is a mark behind the last block. -/
def dirtyWalk (bm : RtlBitmap) (length : Nat) : Nat → Nat → Option (List Nat)
  | 0, _ => none
  | fuel + 1, blockIndex =>
    if blockIndex < length then
      match rtlFindSetBits bm blockIndex with
      | none => some []
      | some found =>
        if found < blockIndex then some []
        else if length ≤ found then none
        else (dirtyWalk bm length fuel (found + 1)).map (found :: ·)
    else some []

/-- The dirty blocks of a bitmap, in the order in which they are written. -/
def dirtyBlocks (bm : RtlBitmap) (length : Nat) : Option (List Nat) :=
  dirtyWalk bm length (length + 1) 0

/-- The contents of a block, by its entry in `BlockList`. -/
def HHive.block (h : HHive) (i : Nat) : Option Buf := do
  let p ← ((h.storage .stable).blockList i).blockAddress
  h.readBytes p hblockSize

/-- The contents of a list of blocks. -/
def HHive.blocks (h : HHive) (l : List Nat) : Option (List (Nat × Buf)) :=
  l.mapM (fun i => (h.block i).map (fun b => (i, b)))

/-! ## Section 2: File requests -/

/-- `FileWrite` and `FileFlush`. -/
inductive Request where
  | write (w : Write FileType)
  | flush (file : FileType)

/-- What becomes of a file request. -/
inductive Outcome where
  | ok
  | failed (len : Nat) (src : Buf)

/-- A hive that is being written, the writes that have reached the disk and
    the number of file requests made. -/
structure SyncState where
  hive : HHive
  trace : List (Write FileType)
  requests : Nat

/-- Replace the base block. -/
def HHive.setBase (h : HHive) (b : Buf) : HHive := { h with baseBlock := b }

/-- Replace the base block. -/
def SyncState.setBase (s : SyncState) (b : Buf) : SyncState := { s with hive := s.hive.setBase b }

/-- The write that a request has on the disk. -/
def Request.effect : Request → Outcome → List (Write FileType)
  | .write w, .ok => [w]
  | .write w, .failed len src => [{ w with len := min len w.len, src := src }]
  | .flush _, _ => []

/-- Does the request work? -/
def Outcome.isOk : Outcome → Bool
  | .ok => true
  | .failed _ _ => false

/-- One request. -/
def SyncState.request (io : Nat → Outcome) (s : SyncState) (r : Request) : SyncState :=
  { s with trace := s.trace ++ r.effect (io s.requests), requests := s.requests + 1 }

/-- Requests until one fails. -/
def requestAll (io : Nat → Outcome) : List Request → SyncState → Bool × SyncState
  | [], s => (true, s)
  | r :: rs, s =>
    if (io s.requests).isOk then requestAll io rs (s.request io r) else (false, s.request io r)

/-! ## Section 3: The writers -/

/-- `CheckSum = HvpHiveHeaderChecksum(BaseBlock)` -/
def sealHeader (b : Buf) : Buf := HBaseBlock.setCheckSum b (hvpHiveHeaderChecksum b)

/-- `Type = type; Sequence1++; CheckSum = ..` -/
def beginHeader (type : FileType) (b : Buf) : Buf :=
  let b := HBaseBlock.setType b type.toNat
  sealHeader (HBaseBlock.setSequence1 b (HBaseBlock.sequence1 b + 1))

/-- `Sequence2++; CheckSum = ..` -/
def endHeader (b : Buf) : Buf := sealHeader (HBaseBlock.setSequence2 b (HBaseBlock.sequence2 b + 1))

/-- The assertions of the writers, `HvpValidateBaseHeader` included. -/
def baseHeaderValid (h : HHive) : Bool :=
  HBaseBlock.length h.baseBlock = (h.storage .stable).length * hblockSize % 2 ^ 32 &&
  HBaseBlock.signature h.baseBlock = hvHBlockSignature &&
  HBaseBlock.format h.baseBlock = 1 && HBaseBlock.major h.baseBlock = 1

/-- What differs between `HvpWriteLog` and `HvpWriteHive`: the type that is
    put into the header, the file, the first write and the writes of the
    blocks, and how much of the base block the last write has. -/
structure Stage where
  type : FileType
  file : FileType
  header : Buf → Write FileType
  blocks : List (Write FileType)
  headerSize : Nat

/-- The base block, the blocks and a flush. -/
def Stage.opening (st : Stage) (b : Buf) : List Request :=
  .write (st.header b) :: st.blocks.map .write ++ [.flush st.file]

/-- The base block again and a flush. -/
def Stage.closing (st : Stage) (b : Buf) : List Request :=
  [.write ⟨st.file, 0, st.headerSize, b⟩, .flush st.file]

/-- What the two writers have in common. -/
def Stage.write (io : Nat → Outcome) (st : Stage) (s : SyncState) : Bool × SyncState :=
  let b := beginHeader st.type s.hive.baseBlock
  let r := requestAll io (st.opening b) (s.setBase b)
  if r.1 then
    let b := endHeader r.2.hive.baseBlock
    requestAll io (st.closing b) (r.2.setBase b)
  else (false, r.2)

/-- The buffer that `HvpWriteLog` writes first: the base block, the signature
    of the dirty vector and a byte for every dirty block. -/
def logHeader (b : Buf) (dirty : List Nat) : Buf :=
  dirty.foldl (fun p i => overlay p (hvLogHeaderSize + 4 + i) 1 (fun _ => hvLogDirtyBlock))
    (putU32 (overlay zeroBuf 0 hvLogHeaderSize b) hvLogHeaderSize hvLogDirtySignature)

/-- `BufferSize` of `HvpWriteLog`. -/
def logBufferSize (sizeOfBitMap : Nat) : Nat :=
  (hvLogHeaderSize + roundUp ((4 + sizeOfBitMap) % 2 ^ 32) hsectorSize % 2 ^ 32) % 2 ^ 32

/-- The dirty blocks, one after the other. -/
def logWrites (start : Nat) (blocks : List (Nat × Buf)) : List (Write FileType) :=
  blocks.zipIdx.map (fun p => ⟨.log, (start + p.2 * hblockSize) % 2 ^ 32, hblockSize, p.1.2⟩)

/-- The stage of `HvpWriteLog`. -/
def logStage (sizeOfBitMap : Nat) (blocks : List (Nat × Buf)) : Stage where
  type := .log
  file := .log
  header := fun b => ⟨.log, 0, logBufferSize sizeOfBitMap, logHeader b (blocks.map Prod.fst)⟩
  blocks := logWrites (logBufferSize sizeOfBitMap) blocks
  headerSize := hvLogHeaderSize

/-- A store of `HvpWriteLog` is behind its buffer, whose size has wrapped
    around. -/
def logOverrun (sizeOfBitMap : Nat) (dirty : List Nat) : Bool :=
  logBufferSize sizeOfBitMap < hvLogHeaderSize + 4 ||
    dirty.any (fun i => logBufferSize sizeOfBitMap ≤ hvLogHeaderSize + 4 + i)

/-- `HvpWriteLog`; `alloc` tells whether the buffer is allocated. -/
def hvpWriteLog (io : Nat → Outcome) (alloc : Bool) (s : SyncState) : Option (Bool × SyncState) :=
  if !baseHeaderValid s.hive then none
  else if HBaseBlock.sequence1 s.hive.baseBlock ≠ HBaseBlock.sequence2 s.hive.baseBlock then
    some (false, s)
  else if !alloc then some (false, s)
  else do
    let bm := s.hive.dirtyVector
    let dirty ← dirtyBlocks bm (s.hive.storage .stable).length
    let blocks ← s.hive.blocks dirty
    if logOverrun bm.sizeOfBitMap dirty then none
    else some ((logStage bm.sizeOfBitMap blocks).write io s)

/-- The blocks at their places in the file. -/
def hiveWrites (file : FileType) (blocks : List (Nat × Buf)) : List (Write FileType) :=
  blocks.map (fun p => ⟨file, (p.1 + 1) * hblockSize % 2 ^ 32, hblockSize, p.2⟩)

/-- The stage of `HvpWriteHive`.  The type in the header is that of a primary
    file, whatever file is written. -/
def hiveStage (file : FileType) (blocks : List (Nat × Buf)) : Stage where
  type := .primary
  file := file
  header := fun b => ⟨file, 0, hblockSize, b⟩
  blocks := hiveWrites file blocks
  headerSize := hblockSize

/-- `HvpWriteHive` -/
def hvpWriteHive (io : Nat → Outcome) (onlyDirty : Bool) (file : FileType) (s : SyncState) :
    Option (Bool × SyncState) :=
  if !baseHeaderValid s.hive || HBaseBlock.rootCell s.hive.baseBlock = hcellNil then none
  else if HBaseBlock.sequence1 s.hive.baseBlock ≠ HBaseBlock.sequence2 s.hive.baseBlock then
    some (false, s)
  else do
    let length := (s.hive.storage .stable).length
    let dirty ← if onlyDirty then dirtyBlocks s.hive.dirtyVector length else some (List.range length)
    let blocks ← s.hive.blocks dirty
    some ((hiveStage file blocks).write io s)

/-- The stages of `HvSyncHive`: each one is made if its file is there and the
    one before has worked. -/
def andThen (present : Bool) (stage : SyncState → Option (Bool × SyncState)) :
    Bool × SyncState → Option (Bool × SyncState)
  | (true, s) => if present then stage s else some (true, s)
  | (false, s) => some (false, s)

/-- `RtlClearAllBits(&DirtyVector); DirtyCount = 0` -/
def HHive.clean (h : HHive) : HHive :=
  { h with dirtyVector := { h.dirtyVector with bits := fun _ => false }, dirtyCount := 0 }

/-- `HvSyncHive` at system time `(low, high)`. -/
def hvSyncHive (io : Nat → Outcome) (alloc : Bool) (low high : Nat) (h : HHive) :
    Option (Bool × SyncState) :=
  if h.signature ≠ hvHHiveSignature then none
  else if h.hiveFlags % 2 = 1 then some (true, ⟨h, [], 0⟩)
  else if rtlFindSetBits h.dirtyVector 0 = none then some (true, ⟨h, [], 0⟩)
  else do
    let h := h.setBase (HBaseBlock.setTimeStamp h.baseBlock low high)
    let r ← andThen h.log (hvpWriteLog io alloc) (true, ⟨h, [], 0⟩)
    let r ← andThen true (hvpWriteHive io true .primary) r
    let r ← andThen h.alternate (hvpWriteHive io true .alternate) r
    match r with
    | (true, s) => some (true, { s with hive := s.hive.clean })
    | (false, s) => some (false, s)

/-! ## Section 4: The walk over the dirty blocks -/

section Walk

variable {bm : RtlBitmap} {i f L : Nat}

theorem firstSet_eq_some :
    bm.firstSet i = some f ↔
      bm.marked f = true ∧ i ≤ f ∧ ∀ j, i ≤ j → j < f → bm.marked j = false := by
  unfold RtlBitmap.firstSet RtlBitmap.marked
  rw [find?_range'_eq_some, mem_range'_1]
  constructor
  · grind
  · grind

theorem firstSet_eq_none : bm.firstSet i = none ↔ ∀ j, i ≤ j → bm.marked j = false := by
  unfold RtlBitmap.firstSet RtlBitmap.marked
  rw [find?_range'_eq_none]
  constructor
  · grind
  · intro h j hj hjs
    have hjs' : j < bm.sizeOfBitMap := by omega
    simp_all

/-- What a search from `i` on means to the loops: nothing marked is left, or
    the next marked block is found. -/
theorem rtlFindSetBits_spec (bm : RtlBitmap) (i : Nat) :
    ((∀ f, rtlFindSetBits bm i = some f → f < i) ∧ ∀ j, i ≤ j → bm.marked j = false) ∨
    ∃ f, rtlFindSetBits bm i = some f ∧ bm.marked f = true ∧ i ≤ f ∧
      ∀ j, i ≤ j → j < f → bm.marked j = false := by
  unfold rtlFindSetBits
  by_cases hi : bm.sizeOfBitMap ≤ i
  · -- the hint is behind the bitmap: whatever is found is before it
    left
    simp only [hi, if_true, Option.or_self]
    constructor
    · intro f hf
      have hm := (firstSet_eq_some.mp hf).1
      simp only [RtlBitmap.marked, Bool.and_eq_true, decide_eq_true_eq] at hm
      omega
    · intro j hj
      simp only [RtlBitmap.marked, Bool.and_eq_false_imp, decide_eq_true_eq]
      omega
  · simp only [hi, if_false]
    cases hf : bm.firstSet i with
    | some f => exact .inr ⟨f, rfl, firstSet_eq_some.mp hf⟩
    | none =>
      have hnone := firstSet_eq_none.mp hf
      refine .inl ⟨fun f hf' => ?_, hnone⟩
      have hm := (firstSet_eq_some.mp hf').1
      rcases Nat.lt_or_ge f i with h | h
      · exact h
      · rw [hnone f h] at hm
        cases hm

/-- The loop starts with a search that finds something iff there is a mark. -/
theorem rtlFindSetBits_zero : rtlFindSetBits bm 0 = none ↔ ∀ j, bm.marked j = false := by
  have h0 : (if bm.sizeOfBitMap ≤ 0 then 0 else 0) = 0 := by split <;> rfl
  unfold rtlFindSetBits
  simp only [h0, Option.or_self]
  rw [firstSet_eq_none]
  exact ⟨fun h j => h j (Nat.zero_le j), fun h j _ => h j⟩

/-- The marked blocks from `i` on. -/
def RtlBitmap.marks (bm : RtlBitmap) (length : Nat) (i : Nat) : List Nat :=
  (List.range' i (length - i)).filter bm.marked

theorem marks_nil (h : ∀ j, i ≤ j → bm.marked j = false) : bm.marks L i = [] := by
  unfold RtlBitmap.marks
  rw [filter_eq_nil_iff]
  intro j hj
  simp [h j (mem_range'_1.mp hj).1]

theorem marks_cons (hf : bm.marked f = true) (hif : i ≤ f) (hfL : f < L)
    (hlt : ∀ j, i ≤ j → j < f → bm.marked j = false) : bm.marks L i = f :: bm.marks L (f + 1) := by
  have hsplit : range' i (L - i) = range' i (f - i) ++ f :: range' (f + 1) (L - (f + 1)) := by
    rw [show L - i = (f - i) + (L - f) by omega, ← range'_append_1,
      show i + (f - i) = f by omega, show L - f = (L - (f + 1)) + 1 by omega, range'_succ]
  have hbefore : (range' i (f - i)).filter bm.marked = [] := by
    rw [filter_eq_nil_iff]
    intro j hj
    have := mem_range'_1.mp hj
    simp [hlt j this.1 (by omega)]
  unfold RtlBitmap.marks
  rw [hsplit, filter_append, hbefore, nil_append, filter_cons_of_pos hf]

theorem mem_marks : f ∈ bm.marks L i ↔ i ≤ f ∧ f < L ∧ bm.marked f = true := by
  unfold RtlBitmap.marks
  rw [mem_filter, mem_range'_1]
  constructor
  · rintro ⟨⟨h1, h2⟩, h3⟩
    exact ⟨h1, by omega, h3⟩
  · rintro ⟨h1, h2, h3⟩
    exact ⟨⟨h1, by omega⟩, h3⟩

theorem dirtyWalk_eq_some {fuel : Nat} {l : List Nat} (h : dirtyWalk bm L fuel i = some l) :
    l = bm.marks L i := by
  induction fuel generalizing i l with
  | zero => simp [dirtyWalk] at h
  | succ fuel ih =>
    simp only [dirtyWalk] at h
    by_cases hi : i < L
    · rw [if_pos hi] at h
      rcases rtlFindSetBits_spec bm i with ⟨hbefore, hnone⟩ | ⟨f, hf, hm, hif, hlt⟩
      · rw [marks_nil hnone]
        cases hfind : rtlFindSetBits bm i with
        | none => simp_all
        | some f => simpa [hfind, hbefore f hfind] using h.symm
      rw [hf] at h
      simp only [show ¬ f < i by omega, if_false] at h
      by_cases hfL : L ≤ f
      · simp [hfL] at h
      · rw [if_neg hfL, Option.map_eq_some_iff] at h
        obtain ⟨l', hl', rfl⟩ := h
        rw [marks_cons hm hif (by omega) hlt, ih hl']
    · have hnil : bm.marks L i = [] := by
        simp [RtlBitmap.marks, show L - i = 0 by omega]
      rw [if_neg hi] at h
      simpa [hnil] using h.symm

/-- The walk runs into a mark behind the last block.  It does not look there
    when the last block itself is marked. -/
def RtlBitmap.Stray (bm : RtlBitmap) (length : Nat) : Prop :=
  bm.marked (length - 1) = false ∧ ∃ j, length ≤ j ∧ bm.marked j = true

theorem dirtyWalk_eq_none {fuel : Nat} (hfuel : L - i < fuel) :
    dirtyWalk bm L fuel i = none ↔ i < L ∧ bm.Stray L := by
  induction fuel generalizing i with
  | zero => omega
  | succ fuel ih =>
    simp only [dirtyWalk]
    by_cases hi : i < L
    · rw [if_pos hi]
      rcases rtlFindSetBits_spec bm i with ⟨hbefore, hnone⟩ | ⟨f, hf, hm, hif, hlt⟩
      · have hstray : ¬ bm.Stray L := by
          rintro ⟨_, j, hj, hmj⟩
          rw [hnone j (by omega)] at hmj
          cases hmj
        cases hfind : rtlFindSetBits bm i with
        | none => simp [hstray]
        | some f => simp [hbefore f hfind, hstray]
      rw [hf]
      simp only [show ¬ f < i by omega, if_false]
      by_cases hfL : L ≤ f
      · have hlast := hlt (L - 1) (by omega) (by omega)
        simp only [hfL, if_true, true_iff]
        exact ⟨hi, hlast, f, hfL, hm⟩
      rw [if_neg hfL, Option.map_eq_none_iff, ih (by omega)]
      constructor
      · exact fun h => ⟨hi, h.2⟩
      rintro ⟨_, hstray⟩
      refine ⟨?_, hstray⟩
      rcases Nat.lt_or_ge (f + 1) L with h | h
      · exact h
      · have : f = L - 1 := by omega
        rw [this, hstray.1] at hm
        cases hm
    · simp [hi]

/-- The walk gives all marked blocks, unless it runs into a stray mark. -/
theorem dirtyBlocks_eq_some {l : List Nat} (h : dirtyBlocks bm L = some l) : l = bm.marks L 0 :=
  dirtyWalk_eq_some h

theorem dirtyBlocks_eq_none : dirtyBlocks bm L = none ↔ 0 < L ∧ bm.Stray L :=
  dirtyWalk_eq_none (by omega)

theorem dirtyBlocks_eq (h : ∀ j, bm.marked j = true → j < L) :
    dirtyBlocks bm L = some (bm.marks L 0) := by
  cases hd : dirtyBlocks bm L with
  | some l => rw [dirtyBlocks_eq_some hd]
  | none =>
    obtain ⟨_, _, j, hj, hm⟩ := dirtyBlocks_eq_none.mp hd
    exact absurd (h j hm) (by omega)

end Walk

/-! ## Section 5: Requests and stages -/

/-- The write is a part of one of the requests. -/
def PartOf (rs : List Request) (w : Write FileType) : Prop :=
  ∃ v, Request.write v ∈ rs ∧ w.file = v.file ∧ w.off = v.off ∧ w.len ≤ v.len

section Requests

variable {io : Nat → Outcome} {rs : List Request} {s : SyncState}

theorem effect_partOf {r : Request} {o : Outcome} {w : Write FileType} (hr : r ∈ rs)
    (hw : w ∈ r.effect o) : PartOf rs w := by
  cases r with
  | flush f => simp [Request.effect] at hw
  | write v =>
    cases o with
    | ok =>
      simp only [Request.effect, mem_singleton] at hw
      exact ⟨v, hr, by simp [hw]⟩
    | failed len src =>
      simp only [Request.effect, mem_singleton] at hw
      rw [hw]
      exact ⟨v, hr, rfl, rfl, Nat.min_le_right _ _⟩

/-- Requests do not change the hive, and what reaches the disk is a part of
    what has been requested. -/
theorem requestAll_frame (io : Nat → Outcome) (rs : List Request) (s : SyncState) :
    (requestAll io rs s).2.hive = s.hive ∧
      ∃ tr, (requestAll io rs s).2.trace = s.trace ++ tr ∧ ∀ w ∈ tr, PartOf rs w := by
  induction rs generalizing s with
  | nil => exact ⟨rfl, [], by simp [requestAll]⟩
  | cons r rs ih =>
    unfold requestAll
    split
    · obtain ⟨hhive, tr, htr, hpart⟩ := ih (s.request io r)
      refine ⟨hhive, r.effect (io s.requests) ++ tr, ?_, ?_⟩
      · rw [htr]
        simp [SyncState.request]
      · intro w hw
        rcases mem_append.mp hw with hw | hw
        · exact effect_partOf (by simp) hw
        · obtain ⟨v, hv, hfile⟩ := hpart w hw
          exact ⟨v, by simp [hv], hfile⟩
    · exact ⟨rfl, r.effect (io s.requests), rfl, fun w hw => effect_partOf (by simp) hw⟩

theorem requestAll_true (h : (requestAll io rs s).1 = true) :
    requestAll io rs s =
      (true, ⟨s.hive, s.trace ++ rs.flatMap (·.effect .ok), s.requests + rs.length⟩) := by
  induction rs generalizing s with
  | nil => simp [requestAll]
  | cons r rs ih =>
    unfold requestAll at h ⊢
    split at h
    · rename_i hok
      have h0 : io s.requests = .ok := by
        cases hio : io s.requests with
        | ok => rfl
        | failed len src => simp [hio, Outcome.isOk] at hok
      rw [if_pos hok, ih h]
      simp [SyncState.request, h0, Nat.add_assoc, Nat.add_comm 1]
    · cases h

theorem requestAll_ok (h : ∀ j, s.requests ≤ j → j < s.requests + rs.length → io j = .ok) :
    (requestAll io rs s).1 = true := by
  induction rs generalizing s with
  | nil => rfl
  | cons r rs ih =>
    have h0 : io s.requests = .ok := h _ (Nat.le_refl _) (by simp)
    unfold requestAll
    rw [if_pos (by simp [h0, Outcome.isOk])]
    apply ih
    intro j hj hj'
    simp only [SyncState.request] at hj hj'
    exact h j (by omega) (by simp only [length_cons]; omega)

theorem requestAll_failed {k : Nat} (hk : s.requests ≤ k) (hk' : k < s.requests + rs.length)
    (hfail : (io k).isOk = false) : (requestAll io rs s).1 = false := by
  induction rs generalizing s with
  | nil => simp at hk'; omega
  | cons r rs ih =>
    unfold requestAll
    by_cases h0 : (io s.requests).isOk = true
    · rw [if_pos h0]
      have hne : k ≠ s.requests := fun h => by rw [h, h0] at hfail; cases hfail
      apply ih
      · simp only [SyncState.request]; omega
      · simp only [SyncState.request, length_cons] at hk' ⊢; omega
    · rw [if_neg h0]

end Requests

/-- The base block after a stage. -/
def Stage.after (st : Stage) (b : Buf) : Buf := endHeader (beginHeader st.type b)

/-- The writes of a stage. -/
def Stage.writes (st : Stage) (b : Buf) : List (Write FileType) :=
  st.header (beginHeader st.type b) :: st.blocks ++ [⟨st.file, 0, st.headerSize, st.after b⟩]

/-- The number of requests of a stage. -/
def Stage.size (st : Stage) : Nat := st.blocks.length + 4

section Stages

variable {io : Nat → Outcome} {st : Stage} {s : SyncState}

theorem Stage.mem_writes {b : Buf} {w : Write FileType} : w ∈ st.writes b ↔
    w = st.header (beginHeader st.type b) ∨ w ∈ st.blocks ∨
      w = ⟨st.file, 0, st.headerSize, st.after b⟩ := by
  simp [Stage.writes]

theorem length_opening (b : Buf) : (st.opening b).length = st.blocks.length + 2 := by
  simp [Stage.opening]

theorem length_closing (b : Buf) : (st.closing b).length = 2 := rfl

theorem opening_effect (b : Buf) :
    (st.opening b).flatMap (·.effect .ok) = st.header b :: st.blocks := by
  have hblocks : ∀ l : List (Write FileType),
      (l.map Request.write).flatMap (·.effect .ok) = l := by
    intro l
    induction l with
    | nil => rfl
    | cons w l ih => simp only [map_cons, flatMap_cons, ih]; rfl
  simp only [Stage.opening, cons_append, flatMap_cons, flatMap_append, hblocks]
  simp [Request.effect]

theorem closing_effect (b : Buf) :
    (st.closing b).flatMap (·.effect .ok) = [⟨st.file, 0, st.headerSize, b⟩] := rfl

theorem Stage.write_true (h : (st.write io s).1 = true) :
    st.write io s = (true, ⟨s.hive.setBase (st.after s.hive.baseBlock),
      s.trace ++ st.writes s.hive.baseBlock, s.requests + st.size⟩) := by
  unfold Stage.write at h ⊢
  simp only at h ⊢
  split at h
  · rename_i hopen
    rw [requestAll_true hopen, opening_effect, length_opening] at h ⊢
    rw [if_pos rfl, requestAll_true h, closing_effect, length_closing]
    simp [SyncState.setBase, HHive.setBase, Stage.writes, Stage.after, Stage.size, Nat.add_assoc]
  · cases h

theorem Stage.opening_ok (st : Stage)
    (h : ∀ j, s.requests ≤ j → j < s.requests + (st.blocks.length + 2) → io j = .ok) :
    (requestAll io (st.opening (beginHeader st.type s.hive.baseBlock))
      (s.setBase (beginHeader st.type s.hive.baseBlock))).1 = true := by
  apply requestAll_ok
  intro j hj hj'
  rw [length_opening] at hj'
  exact h j hj hj'

theorem Stage.write_ok (h : ∀ j, s.requests ≤ j → j < s.requests + st.size → io j = .ok) :
    (st.write io s).1 = true := by
  have hopen := st.opening_ok fun j hj hj' => h j hj (by unfold Stage.size; omega)
  unfold Stage.write
  simp only
  rw [if_pos hopen]
  apply requestAll_ok
  intro j hj hj'
  rw [requestAll_true hopen, length_opening] at hj hj'
  rw [length_closing] at hj'
  simp only [SyncState.setBase] at hj hj'
  exact h j (by omega) (by unfold Stage.size; omega)

/-- A request fails before `Sequence2` has caught up: the base block stays in
    between. -/
theorem Stage.write_failed_opening {k : Nat} (hk : s.requests ≤ k)
    (hk' : k < s.requests + (st.blocks.length + 2)) (hfail : (io k).isOk = false) :
    (st.write io s).1 = false ∧
      (st.write io s).2.hive = s.hive.setBase (beginHeader st.type s.hive.baseBlock) := by
  have hfirst := @requestAll_failed io (st.opening (beginHeader st.type s.hive.baseBlock))
    (s.setBase (beginHeader st.type s.hive.baseBlock)) k hk
    (by rw [length_opening]; exact hk') hfail
  have hframe := (requestAll_frame io (st.opening (beginHeader st.type s.hive.baseBlock))
    (s.setBase (beginHeader st.type s.hive.baseBlock))).1
  unfold Stage.write
  simp only [hfirst]
  exact ⟨rfl, hframe⟩

/-- One of the last two requests fails: the base block is that of a finished
    stage. -/
theorem Stage.write_failed_closing {k : Nat} (hk : s.requests + (st.blocks.length + 2) ≤ k)
    (hk' : k < s.requests + st.size) (hfail : (io k).isOk = false)
    (hok : ∀ j, s.requests ≤ j → j < k → io j = .ok) :
    (st.write io s).1 = false ∧
      (st.write io s).2.hive = s.hive.setBase (st.after s.hive.baseBlock) := by
  have hopen := st.opening_ok fun j hj hj' => hok j hj (by omega)
  unfold Stage.write
  simp only
  rw [requestAll_true hopen, if_pos rfl, opening_effect, length_opening]
  refine ⟨@requestAll_failed io _ _ k ?_ ?_ hfail, (requestAll_frame io _ _).1⟩
  · exact hk
  · rw [length_closing]
    simp only [SyncState.setBase]
    unfold Stage.size at hk'
    omega

end Stages

/-! ## Section 6: Base blocks of a hive that is being written -/

/-- The fields that a writer asserts or that a later load looks at. -/
structure HeaderReady (length : Nat) (b : Buf) : Prop where
  signature : HBaseBlock.signature b = hvHBlockSignature
  major : HBaseBlock.major b = 1
  minor : 3 ≤ HBaseBlock.minor b
  format : HBaseBlock.format b = 1
  rootCell : HBaseBlock.rootCell b ≠ hcellNil
  length : HBaseBlock.length b = length * hblockSize
  cluster : HBaseBlock.cluster b = 1

section Header

variable {b b' : Buf} {length o : Nat} {type : FileType}

/-- The word at `o` is none of `Sequence1`, `Sequence2`, `TimeStamp`, `Type`
    and `CheckSum`. -/
def Kept (o : Nat) : Prop :=
  o + 4 ≤ 4 ∨ (20 ≤ o ∧ o + 4 ≤ 28) ∨ (32 ≤ o ∧ o + 4 ≤ 508)

theorem HeaderReady.congr (h : HeaderReady length b)
    (hw : ∀ o, Kept o → getU32 b' o = getU32 b o) : HeaderReady length b' where
  signature := (hw 0 (by simp [Kept])).trans h.signature
  major := (hw 20 (by simp [Kept])).trans h.major
  minor := Nat.le_trans h.minor (Nat.le_of_eq (hw 24 (by simp [Kept])).symm)
  format := (hw 32 (by simp [Kept])).trans h.format
  rootCell := fun hn => h.rootCell ((hw 36 (by simp [Kept])).symm.trans hn)
  length := (hw 40 (by simp [Kept])).trans h.length
  cluster := (hw 44 (by simp [Kept])).trans h.cluster

theorem getU32_sealHeader (h : o + 4 ≤ 508 ∨ 512 ≤ o) : getU32 (sealHeader b) o = getU32 b o :=
  getU32_putU32_ne (by omega)

/-- A sealed base block has the checksum that the header check computes. -/
theorem checkSum_sealHeader (b : Buf) :
    hvpHiveHeaderChecksum (sealHeader b) = checkSum (sealHeader b) := by
  unfold sealHeader
  rw [hvpHiveHeaderChecksum_setCheckSum]
  show _ = getU32 (putU32 b 508 _) 508
  rw [getU32_putU32_self, Nat.mod_eq_of_lt (hvpHiveHeaderChecksum_lt b)]

theorem getU32_beginHeader (h : Kept o ∨ o = 8 ∨ (12 ≤ o ∧ o + 4 ≤ 20)) :
    getU32 (beginHeader type b) o = getU32 b o := by
  unfold Kept at h
  unfold beginHeader
  rw [getU32_sealHeader (by omega), getU32_putU32_ne (by omega), getU32_putU32_ne (by omega)]

theorem getU32_endHeader (h : Kept o ∨ o = 4 ∨ (12 ≤ o ∧ o + 4 ≤ 20) ∨ o = 28) :
    getU32 (endHeader b) o = getU32 b o := by
  unfold Kept at h
  unfold endHeader
  rw [getU32_sealHeader (by omega), getU32_putU32_ne (by omega)]

theorem sequence1_beginHeader : sequence1 (beginHeader type b) = (sequence1 b + 1) % 2 ^ 32 := by
  show getU32 (sealHeader _) 4 = _
  rw [getU32_sealHeader (by omega), getU32_putU32_self]
  show (getU32 (putU32 b 28 _) 4 + 1) % 2 ^ 32 = _
  rw [getU32_putU32_ne (by omega)]

theorem type_beginHeader : HBaseBlock.type (beginHeader type b) = type.toNat := by
  show getU32 (sealHeader _) 28 = _
  rw [getU32_sealHeader (by omega), getU32_putU32_ne (by omega), getU32_putU32_self]
  cases type <;> rfl

theorem sequence2_endHeader : sequence2 (endHeader b) = (sequence2 b + 1) % 2 ^ 32 := by
  show getU32 (sealHeader _) 8 = _
  rw [getU32_sealHeader (by omega), getU32_putU32_self]

namespace HeaderReady

variable (h : HeaderReady length b)

include h

theorem beginHeader : HeaderReady length (beginHeader type b) :=
  h.congr (fun _ ho => getU32_beginHeader (.inl ho))

theorem endHeader : HeaderReady length (endHeader b) :=
  h.congr (fun _ ho => getU32_endHeader (.inl ho))

theorem after (st : Stage) : HeaderReady length (st.after b) :=
  h.beginHeader.endHeader

theorem setTimeStamp (low high : Nat) : HeaderReady length (setTimeStamp b low high) := by
  apply h.congr
  intro o ho
  unfold Kept at ho
  rw [getU32_putU32_ne (by omega), getU32_putU32_ne (by omega)]

end HeaderReady

/-- Inside a stage `Sequence1` is ahead. -/
theorem beginHeader_outOfStep (h : sequence1 b = sequence2 b) :
    sequence1 (beginHeader type b) ≠ sequence2 (beginHeader type b) := by
  have h2 : sequence2 (beginHeader type b) = sequence2 b :=
    getU32_beginHeader (.inr (.inl rfl))
  rw [sequence1_beginHeader, h2, ← h]
  omega

theorem after_inStep (st : Stage) (h : sequence1 b = sequence2 b) :
    sequence1 (st.after b) = sequence2 (st.after b) := by
  have h1 : sequence1 (st.after b) = sequence1 (beginHeader st.type b) :=
    getU32_endHeader (.inr (.inl rfl))
  have h2 : sequence2 (beginHeader st.type b) = sequence2 b :=
    getU32_beginHeader (.inr (.inl rfl))
  rw [h1, sequence1_beginHeader, Stage.after, sequence2_endHeader, h2, h]

/-- The base block that a stage leaves passes the header check. -/
theorem verify_after (h : HeaderReady length b) (st : Stage) (hstep : sequence1 b = sequence2 b) :
    hvpVerifyHiveHeader (st.after b) st.type.toNat = true := by
  have hr := h.after st
  have htype : type (st.after b) = st.type.toNat :=
    (getU32_endHeader (by simp)).trans type_beginHeader
  rw [hvpVerifyHiveHeader_iff]
  exact ⟨hr.signature, hr.major, hr.minor, htype, hr.format, hr.cluster, after_inStep st hstep,
    checkSum_sealHeader _⟩

end Header

end Hive
