import ReactOS.Hive.Sync

/-! # Synchronising a hive, and trying again

    `HvSyncHive` runs the stages of `hivewrt.c` one after the other.  This
    module follows the base block and the files through a whole call:

    - Section 1: a hive that can be synchronised, and its stages.
    - Section 2: what a call in which all requests work leaves in the primary
      file.
    - Section 3: what a call leaves behind in which one request fails, and
      whether a second call can repair it. -/

namespace Hive

open Bytes HBaseBlock List HHive

/-! ## Section 1: The stages of a call -/

variable {i size : Nat} {bm : RtlBitmap}

/-- The number of blocks of the stable storage. -/
abbrev HHive.stableLength (h : HHive) : Nat := (h.storage .stable).length

/-- The dirty blocks of a hive. -/
def HHive.dirty (h : HHive) : List Nat := h.dirtyVector.marks h.stableLength 0

/-- The contents of a block. -/
def HHive.blockData (h : HHive) (i : Nat) : Buf := (h.block i).getD zeroBuf

/-- The dirty blocks with their contents. -/
def HHive.dirtyData (h : HHive) : List (Nat × Buf) := h.dirty.map (fun i => (i, h.blockData i))

/-- A hive in memory that has dirty blocks and can be synchronised: the
    assertions of the writers hold, no block behind the storage is marked and
    every block has its memory. -/
structure Ready (h : HHive) : Prop where
  signature : h.signature = hvHHiveSignature
  flags : h.hiveFlags % 2 = 0
  header : HeaderReady h.stableLength h.baseBlock
  inStep : HBaseBlock.sequence1 h.baseBlock = HBaseBlock.sequence2 h.baseBlock
  length : h.stableLength ≤ 2 ^ 19
  bitmap : h.dirtyVector.sizeOfBitMap ≤ 2 ^ 20
  marks : ∀ j, h.dirtyVector.marked j = true → j < h.stableLength
  dirty : ∃ j, h.dirtyVector.marked j = true
  blocks : ∀ i, i < h.stableLength → (h.block i).isSome

/-- The stages that a call of `HvSyncHive` goes through. -/
def HHive.stages (h : HHive) : List Stage :=
  (if h.log then [logStage h.dirtyVector.sizeOfBitMap h.dirtyData] else []) ++
    hiveStage .primary h.dirtyData ::
    (if h.alternate then [hiveStage .alternate h.dirtyData] else [])

/-- Stages until one fails. -/
def runStages (io : Nat → Outcome) : List Stage → SyncState → Bool × SyncState
  | [], s => (true, s)
  | st :: l, s => if (st.write io s).1 then runStages io l (st.write io s).2 else st.write io s

section Ready

variable {h : HHive} {io : Nat → Outcome} {s : SyncState} {b : Buf}

theorem Ready.setBase (hr : Ready h) (hb : HeaderReady h.stableLength b)
    (hstep : sequence1 b = sequence2 b) : Ready (h.setBase b) where
  signature := hr.signature
  flags := hr.flags
  header := hb
  inStep := hstep
  length := hr.length
  bitmap := hr.bitmap
  marks := hr.marks
  dirty := hr.dirty
  blocks := hr.blocks

theorem mem_dirty : i ∈ h.dirty ↔ i < h.stableLength ∧ h.dirtyVector.marked i = true := by
  rw [dirty, mem_marks]
  simp

theorem Ready.dirtyBlocks (hr : Ready h) :
    dirtyBlocks h.dirtyVector h.stableLength = some h.dirty :=
  dirtyBlocks_eq hr.marks

theorem blocks_eq {l : List Nat} (hl : ∀ i ∈ l, (h.block i).isSome) :
    h.blocks l = some (l.map (fun i => (i, h.blockData i))) := by
  induction l with
  | nil => rfl
  | cons i l ih =>
    obtain ⟨b, hb⟩ := Option.isSome_iff_exists.mp (hl i (by simp))
    have htail := ih (fun j hj => hl j (by simp [hj]))
    unfold blocks at htail ⊢
    rw [mapM_cons, htail]
    simp [hb, blockData]

theorem Ready.blocks_dirty (hr : Ready h) : h.blocks h.dirty = some h.dirtyData :=
  blocks_eq (fun i hi => hr.blocks i (mem_dirty.mp hi).1)

theorem Ready.baseHeaderValid (hr : Ready h) : baseHeaderValid h = true := by
  have hlen := hr.length
  have hlt : h.stableLength * hblockSize < 2 ^ 32 := by simp only [hblockSize]; omega
  simp only [Hive.baseHeaderValid, hr.header.length, hr.header.signature, hr.header.format,
    hr.header.major, decide_true, Bool.and_true, decide_eq_true_eq]
  exact (Nat.mod_eq_of_lt hlt).symm

/-- The size of the first write to the log does not wrap around. -/
theorem logBufferSize_eq (h : size ≤ 2 ^ 20) :
    logBufferSize size = 512 + (4 + size + 511) / 512 * 512 := by
  simp only [logBufferSize, roundUp, hvLogHeaderSize, hsectorSize]
  omega

theorem logOverrun_eq_false {dirty : List Nat} (h : size ≤ 2 ^ 20)
    (hd : ∀ i ∈ dirty, i < size) : logOverrun size dirty = false := by
  simp only [logOverrun, logBufferSize_eq h, hvLogHeaderSize, Bool.or_eq_false_iff,
    decide_eq_false_iff_not, any_eq_false, decide_eq_true_eq]
  refine ⟨by omega, fun i hi => ?_⟩
  have := hd i hi
  omega

theorem marked_lt (h : bm.marked i = true) : i < bm.sizeOfBitMap := by
  simp only [RtlBitmap.marked, Bool.and_eq_true, decide_eq_true_eq] at h
  exact h.1

theorem hvpWriteLog_of (hvalid : baseHeaderValid s.hive = true)
    (hstep : sequence1 s.hive.baseBlock = sequence2 s.hive.baseBlock)
    (hS : s.hive.dirtyVector.sizeOfBitMap ≤ 2 ^ 20)
    (hdirty : Hive.dirtyBlocks s.hive.dirtyVector s.hive.stableLength = some s.hive.dirty)
    (hblocks : s.hive.blocks s.hive.dirty = some s.hive.dirtyData) :
    hvpWriteLog io true s =
      some ((logStage s.hive.dirtyVector.sizeOfBitMap s.hive.dirtyData).write io s) := by
  have hover : logOverrun s.hive.dirtyVector.sizeOfBitMap s.hive.dirty = false :=
    logOverrun_eq_false hS (fun i hi => marked_lt (mem_dirty.mp hi).2)
  unfold hvpWriteLog
  simp [hvalid, hstep, hdirty, hblocks, hover]

theorem hvpWriteHive_eq (hr : Ready s.hive) (file : FileType) :
    hvpWriteHive io true file s = some ((hiveStage file s.hive.dirtyData).write io s) := by
  unfold hvpWriteHive
  simp [hr.baseHeaderValid, hr.header.rootCell, hr.inStep, hr.dirtyBlocks, hr.blocks_dirty]

theorem Ready.write_true {st : Stage} (hr : Ready s.hive) (h : (st.write io s).1 = true) :
    Ready (st.write io s).2.hive := by
  rw [Stage.write_true h]
  exact hr.setBase (hr.header.after st) (after_inStep st hr.inStep)

/-- The stage of `andThen`, for a hive that is ready whenever it is reached. -/
theorem andThen_eq {r : Bool × SyncState} {present : Bool} {stage : Stage}
    {f : SyncState → Option (Bool × SyncState)}
    (hf : r.1 = true → f r.2 = some (stage.write io r.2)) :
    andThen present f r =
      some (if r.1 then runStages io (if present then [stage] else []) r.2 else r) := by
  obtain ⟨ok, s⟩ := r
  cases ok with
  | false => rfl
  | true =>
    cases present with
    | false => rfl
    | true =>
      simp only [andThen, if_true, hf rfl, runStages]
      split
      · rename_i hok
        rw [← hok]
      · rfl

theorem runStages_append (l1 l2 : List Stage) (s : SyncState) :
    runStages io (l1 ++ l2) s =
      if (runStages io l1 s).1 then runStages io l2 (runStages io l1 s).2
      else runStages io l1 s := by
  induction l1 generalizing s with
  | nil => simp [runStages]
  | cons st l ih =>
    simp only [cons_append, runStages]
    split
    · exact ih _
    · rfl

/-- Stages that work leave the hive ready, with another base block. -/
theorem runStages_true {l : List Stage} (hr : Ready s.hive) (h : (runStages io l s).1 = true) :
    ∃ b, (runStages io l s).2.hive = s.hive.setBase b ∧ Ready (s.hive.setBase b) := by
  induction l generalizing s with
  | nil => exact ⟨s.hive.baseBlock, rfl, hr⟩
  | cons st l ih =>
    simp only [runStages] at h ⊢
    by_cases hst : (st.write io s).1 = true
    · rw [if_pos hst] at h ⊢
      obtain ⟨b, hb, hready⟩ := ih (hr.write_true hst) h
      rw [Stage.write_true hst] at hb hready
      exact ⟨b, by rw [Stage.write_true hst]; exact hb, hready⟩
    · rw [if_neg hst] at h
      exact absurd h hst

/-- Where `HvSyncHive` starts: the base block has the new time stamp. -/
def syncStart (h : HHive) (low high : Nat) : SyncState :=
  ⟨h.setBase (HBaseBlock.setTimeStamp h.baseBlock low high), [], 0⟩

theorem getU32_setTimeStamp (low high : Nat) {b : Buf} {o : Nat} (ho : o + 4 ≤ 12) :
    getU32 (setTimeStamp b low high) o = getU32 b o := by
  rw [getU32_putU32_ne (by omega), getU32_putU32_ne (by omega)]

theorem Ready.syncStart (hr : Ready h) (low high : Nat) : Ready (syncStart h low high).hive := by
  apply hr.setBase (hr.header.setTimeStamp low high)
  exact (getU32_setTimeStamp low high (by decide)).trans
    (hr.inStep.trans (getU32_setTimeStamp low high (by decide)).symm)

theorem rtlFindSetBits_ne_none {v : RtlBitmap} (h : ∃ j, v.marked j = true) :
    rtlFindSetBits v 0 ≠ none := by
  intro hnone
  obtain ⟨j, hj⟩ := h
  rw [rtlFindSetBits_zero.mp hnone j] at hj
  cases hj

/-- `HvSyncHive` of a ready hive is its stages and, if they work, the clearing
    of the dirty vector. -/
theorem hvSyncHive_eq (hr : Ready h) (low high : Nat) :
    hvSyncHive io true low high h =
      let r := runStages io h.stages (syncStart h low high)
      some (if r.1 then (true, { r.2 with hive := r.2.hive.clean }) else (false, r.2)) := by
  have hdirty := rtlFindSetBits_ne_none hr.dirty
  have hstart := hr.syncStart low high
  -- the first stage, and then the other two from what it leaves
  have hlog : andThen h.log (hvpWriteLog io true) (true, syncStart h low high) =
      some (runStages io (if h.log then [logStage h.dirtyVector.sizeOfBitMap h.dirtyData] else [])
        (syncStart h low high)) :=
    andThen_eq fun _ => hvpWriteLog_of hstart.baseHeaderValid hstart.inStep hstart.bitmap
      hstart.dirtyBlocks hstart.blocks_dirty
  have hnext : ∀ (l : List Stage) (present : Bool) (file : FileType),
      andThen present (hvpWriteHive io true file) (runStages io l (syncStart h low high)) =
        some (runStages io (l ++ if present then [hiveStage file h.dirtyData] else [])
          (syncStart h low high)) := by
    intro l present file
    rw [runStages_append]
    apply andThen_eq
    intro hok
    obtain ⟨b, hb, hready⟩ := runStages_true hstart hok
    rw [← hb] at hready
    have hdata : (runStages io l (syncStart h low high)).2.hive.dirtyData = h.dirtyData := by
      rw [hb]
      rfl
    rw [hvpWriteHive_eq hready, hdata]
  unfold hvSyncHive
  rw [if_neg (by simp [hr.signature]), if_neg (by simp [hr.flags]), if_neg hdirty]
  show (andThen h.log (hvpWriteLog io true) (true, syncStart h low high)).bind _ = _
  rw [hlog, Option.bind_some]
  show (andThen true (hvpWriteHive io true .primary) _).bind _ = _
  rw [hnext, Option.bind_some]
  show (andThen h.alternate (hvpWriteHive io true .alternate) _).bind _ = _
  rw [hnext, Option.bind_some]
  have hstages : (if h.log = true then [logStage h.dirtyVector.sizeOfBitMap h.dirtyData] else []) ++
      (if true = true then [hiveStage .primary h.dirtyData] else []) ++
      (if h.alternate = true then [hiveStage .alternate h.dirtyData] else []) = h.stages := by
    simp [stages]
  rw [hstages]
  rcases hres : runStages io h.stages (syncStart h low high) with ⟨ok, s⟩
  cases ok <;> simp

end Ready

/-! ## Section 2: A call in which all requests work -/

variable {length o : Nat} {w : Write FileType}

/-- The writes of some stages, the first of which starts from base block `b`. -/
def stagesWrites : List Stage → Buf → List (Write FileType)
  | [], _ => []
  | st :: l, b => st.writes b ++ stagesWrites l (st.after b)

/-- The base block after some stages. -/
def stagesBase : List Stage → Buf → Buf
  | [], b => b
  | st :: l, b => stagesBase l (st.after b)

section Works

variable {h : HHive} {io : Nat → Outcome} {s : SyncState} {b : Buf}

theorem runStages_ok {l : List Stage} (hok : ∀ j, io j = .ok) :
    ∃ n, runStages io l s = (true, ⟨s.hive.setBase (stagesBase l s.hive.baseBlock),
      s.trace ++ stagesWrites l s.hive.baseBlock, n⟩) := by
  induction l generalizing s with
  | nil => exact ⟨s.requests, by simp [runStages, stagesBase, stagesWrites, setBase]⟩
  | cons st l ih =>
    obtain ⟨n, hn⟩ := @ih (st.write io s).2
    refine ⟨n, ?_⟩
    have htrue : (st.write io s).1 = true := Stage.write_ok (fun j _ _ => hok j)
    simp only [runStages]
    rw [if_pos htrue, hn, Stage.write_true htrue]
    simp [stagesBase, stagesWrites, setBase]

theorem stagesWrites_append (l1 l2 : List Stage) (b : Buf) :
    stagesWrites (l1 ++ l2) b = stagesWrites l1 b ++ stagesWrites l2 (stagesBase l1 b) := by
  induction l1 generalizing b with
  | nil => rfl
  | cons st l ih => simp [stagesWrites, stagesBase, ih]

theorem stagesBase_ready (l : List Stage) (hb : HeaderReady length b)
    (hstep : sequence1 b = sequence2 b) :
    HeaderReady length (stagesBase l b) ∧
      sequence1 (stagesBase l b) = sequence2 (stagesBase l b) := by
  induction l generalizing b with
  | nil => exact ⟨hb, hstep⟩
  | cons st l ih => exact ih (hb.after st) (after_inStep st hstep)

section

variable {data : List (Nat × Buf)} {b b' : Buf} {n : Nat}

theorem logStage_file
    (hw : w ∈ (logStage size data).header b :: (logStage size data).blocks ++ [⟨.log, 0, n, b'⟩]) :
    w.file = .log := by
  simp only [logStage, logWrites, cons_append, mem_cons, mem_append, mem_map, not_mem_nil,
    or_false] at hw
  rcases hw with rfl | ⟨p, _, rfl⟩ | rfl <;> rfl

theorem hiveStage_file {file : FileType}
    (hw : w ∈ (hiveStage file data).header b :: (hiveStage file data).blocks ++ [⟨file, 0, n, b'⟩]) :
    w.file = file := by
  simp only [hiveStage, hiveWrites, cons_append, mem_cons, mem_append, mem_map, not_mem_nil,
    or_false] at hw
  rcases hw with rfl | ⟨p, _, rfl⟩ | rfl <;> rfl

end

/-- The stages before the primary file is written. -/
def HHive.logStages (h : HHive) : List Stage :=
  if h.log then [logStage h.dirtyVector.sizeOfBitMap h.dirtyData] else []

/-- The stages after the primary file has been written. -/
def HHive.alternateStages (h : HHive) : List Stage :=
  if h.alternate then [hiveStage .alternate h.dirtyData] else []

theorem stages_eq (h : HHive) :
    h.stages = h.logStages ++ hiveStage .primary h.dirtyData :: h.alternateStages := rfl

theorem logStages_file (hw : w ∈ stagesWrites h.logStages b) : w.file = .log := by
  unfold logStages at hw
  split at hw
  · simp only [stagesWrites, append_nil] at hw
    exact logStage_file hw
  · cases hw

theorem alternateStages_file (hw : w ∈ stagesWrites h.alternateStages b) : w.file = .alternate := by
  unfold alternateStages at hw
  split at hw
  · simp only [stagesWrites, append_nil] at hw
    exact hiveStage_file hw
  · cases hw

theorem primary_writeAll_stages (h : HHive) (b : Buf) (d : Disk FileType) :
    (d.writeAll (stagesWrites h.stages b)) .primary =
      (d.writeAll ((hiveStage .primary h.dirtyData).writes (stagesBase h.logStages b))) .primary := by
  rw [stages_eq, stagesWrites_append, writeAll_append]
  simp only [stagesWrites]
  rw [writeAll_append, writeAll_other (fun w hw => by simp [alternateStages_file hw])]
  apply writeAll_congr
  exact writeAll_other (fun w hw => by simp [logStages_file hw])

end Works

/-- The file has the blocks of the hive at their places. -/
def HoldsBlocks (h : HHive) (f : File) : Prop :=
  ∀ i o, i < h.stableLength → o < hblockSize → f.data ((i + 1) * hblockSize + o) = h.blockData i o

/-- The blocks that are not dirty are in the file already. -/
def CleanOnDisk (h : HHive) (f : File) : Prop :=
  ∀ i, i < h.stableLength → h.dirtyVector.marked i = false →
    (i + 2) * hblockSize ≤ f.len ∧
    ∀ o, o < hblockSize → f.data ((i + 1) * hblockSize + o) = h.blockData i o

section Blocks

variable {h : HHive} {b : Buf} {d : Disk FileType} {file : FileType}

section

variable (hL : h.stableLength ≤ 2 ^ 19)

include hL

theorem blockOffset_eq (hi : i < h.stableLength) :
    (i + 1) * hblockSize % 2 ^ 32 = (i + 1) * hblockSize :=
  Nat.mod_eq_of_lt (by simp only [hblockSize]; omega)

theorem mem_hiveWrites : w ∈ hiveWrites file h.dirtyData ↔
      ∃ i ∈ h.dirty, w = ⟨file, (i + 1) * hblockSize, hblockSize, h.blockData i⟩ := by
  simp only [hiveWrites, dirtyData, map_map, mem_map, Function.comp_apply]
  refine exists_congr fun i => and_congr_right fun hi => ?_
  rw [blockOffset_eq hL (mem_dirty.mp hi).1]
  exact eq_comm

theorem mem_hiveStage_writes (hw : w ∈ (hiveStage file h.dirtyData).writes b) :
    (w.off = 0 ∧ w.len = hblockSize) ∨
      ∃ i ∈ h.dirty, w = ⟨file, (i + 1) * hblockSize, hblockSize, h.blockData i⟩ := by
  rcases Stage.mem_writes.mp hw with rfl | hw | rfl
  · exact .inl ⟨rfl, rfl⟩
  · exact .inr ((mem_hiveWrites hL).mp hw)
  · exact .inl ⟨rfl, rfl⟩

/-- A write that reaches into block `i` is that of the block. -/
theorem hiveStage_reaches (hw : w ∈ (hiveStage file h.dirtyData).writes b) (ho : o < hblockSize)
    (hc : w.Covers file ((i + 1) * hblockSize + o)) :
    i ∈ h.dirty ∧ w = ⟨file, (i + 1) * hblockSize, hblockSize, h.blockData i⟩ := by
  obtain ⟨-, h1, h2⟩ := hc
  rcases mem_hiveStage_writes hL hw with ⟨hoff, hlen⟩ | ⟨j, hj, rfl⟩
  · grind
  obtain rfl : i = j := by
    simp only [hblockSize] at h1 h2 ho
    omega
  exact ⟨hj, rfl⟩

end

theorem hiveStage_header {i : Nat} (hi : i < hblockSize) :
    ((d.writeAll ((hiveStage file h.dirtyData).writes b)) file).data i =
      (hiveStage file h.dirtyData).after b i := by
  unfold Stage.writes
  rw [writeAll_append]
  exact write_data_in ⟨rfl, Nat.zero_le _, by simpa [hiveStage] using hi⟩

section

variable (hL : h.stableLength ≤ 2 ^ 19)

include hL

theorem hiveStage_dirty (hi : i ∈ h.dirty) (ho : o < hblockSize) :
    ((d.writeAll ((hiveStage file h.dirtyData).writes b)) file).data ((i + 1) * hblockSize + o) =
      h.blockData i o := by
  apply writeAll_data_in
  · refine ⟨⟨file, (i + 1) * hblockSize, hblockSize, h.blockData i⟩, ?_, rfl, ?_, ?_⟩
    · exact Stage.mem_writes.mpr (.inr (.inl ((mem_hiveWrites hL).mpr ⟨i, hi, rfl⟩)))
    · exact Nat.le_add_right _ _
    · exact Nat.add_lt_add_left ho _
  · intro w hw hc
    rw [(hiveStage_reaches hL hw ho hc).2]
    rw [Nat.add_sub_cancel_left]

theorem holdsBlocks_hiveStage (hclean : CleanOnDisk h (d file)) :
    HoldsBlocks h ((d.writeAll ((hiveStage file h.dirtyData).writes b)) file) := by
  intro i o hi ho
  by_cases hd : i ∈ h.dirty
  · exact hiveStage_dirty hL hd ho
  have hm : h.dirtyVector.marked i = false := by
    rw [mem_dirty] at hd
    simpa [hi] using hd
  rw [writeAll_data_out fun w hw hc => hd (hiveStage_reaches hL hw ho hc).1]
  exact (hclean i hi hm).2 o ho

end

end Blocks

/-! ## Section 3: A call in which one request fails -/

variable {h : HHive}

/-- Request `k` fails, and leaves `len` bytes of `src` if it is a write. -/
def failAt (k len : Nat) (src : Buf) : Nat → Outcome :=
  fun j => if j = k then .failed len src else .ok

section Fails

variable {h : HHive} {io : Nat → Outcome} {s : SyncState} {k len : Nat} {src : Buf}

theorem trace_setBase (s : SyncState) (b : Buf) : (s.setBase b).trace = s.trace := rfl

theorem failAt_ok {j : Nat} (hj : j ≠ k) : failAt k len src j = .ok := if_neg hj

theorem failAt_self : (failAt k len src k).isOk = false := by simp [failAt, Outcome.isOk]

/-- What reaches the disk is a part of what the stages request. -/
theorem runStages_trace (io : Nat → Outcome) (l : List Stage) (s : SyncState) :
    ∃ tr, (runStages io l s).2.trace = s.trace ++ tr ∧
      ∀ w ∈ tr, ∃ st ∈ l, ∃ b, PartOf (st.opening b ++ st.closing b) w := by
  induction l generalizing s with
  | nil => exact ⟨[], by simp [runStages]⟩
  | cons st l ih =>
    -- the two lists of requests of this stage
    have hstage : ∃ tr, (st.write io s).2.trace = s.trace ++ tr ∧
        ∀ w ∈ tr, ∃ b, PartOf (st.opening b ++ st.closing b) w := by
      obtain ⟨_, tr1, htr1, hpart1⟩ := requestAll_frame io
        (st.opening (beginHeader st.type s.hive.baseBlock))
        (s.setBase (beginHeader st.type s.hive.baseBlock))
      have hopen : ∀ w ∈ tr1, ∃ b, PartOf (st.opening b ++ st.closing b) w := by
        intro w hw
        obtain ⟨v, hv, hfile⟩ := hpart1 w hw
        exact ⟨_, v, mem_append_left _ hv, hfile⟩
      unfold Stage.write
      simp only
      split
      · obtain ⟨_, tr2, htr2, hpart2⟩ := requestAll_frame io (st.closing (endHeader _)) (SyncState.setBase _ _)
        refine ⟨tr1 ++ tr2, ?_, ?_⟩
        · rw [htr2, trace_setBase, htr1, trace_setBase, append_assoc]
        · intro w hw
          rcases mem_append.mp hw with hw | hw
          · exact hopen w hw
          · obtain ⟨v, hv, hfile⟩ := hpart2 w hw
            exact ⟨_, v, mem_append_right _ hv, hfile⟩
      · exact ⟨tr1, htr1, hopen⟩
    obtain ⟨tr1, htr1, hpart1⟩ := hstage
    simp only [runStages]
    split
    · obtain ⟨tr2, htr2, hpart2⟩ := ih (st.write io s).2
      refine ⟨tr1 ++ tr2, by rw [htr2, htr1, append_assoc], ?_⟩
      intro w hw
      rcases mem_append.mp hw with hw | hw
      · exact ⟨st, by simp, hpart1 w hw⟩
      · obtain ⟨st', hst', hb⟩ := hpart2 w hw
        exact ⟨st', by simp [hst'], hb⟩
    · exact ⟨tr1, htr1, fun w hw => ⟨st, by simp, hpart1 w hw⟩⟩

/-- No request of a call is about a block of the primary file that is not
    dirty. -/
theorem partOf_not_covers (hL : h.stableLength ≤ 2 ^ 19) {st : Stage} (hst : st ∈ h.stages)
    {b : Buf} (hw : PartOf (st.opening b ++ st.closing b) w) (hi : i ∉ h.dirty)
    (ho : o < hblockSize) : ¬ w.Covers .primary ((i + 1) * hblockSize + o) := by
  rintro ⟨hfile, h1, h2⟩
  obtain ⟨v, hv, hvfile, hvoff, hvlen⟩ := hw
  have hmem : v ∈ st.header b :: st.blocks ++ [⟨st.file, 0, st.headerSize, b⟩] := by
    simpa [Stage.opening, Stage.closing] using hv
  have hprimary : v.file = .primary := hvfile ▸ hfile.symm
  -- the stage must be that of the primary file
  have hstage : st = hiveStage .primary h.dirtyData := by
    rw [stages_eq] at hst
    simp only [mem_append, mem_cons, logStages, alternateStages] at hst
    rcases hst with hst | hst | hst
    · split at hst
      · rw [mem_singleton.mp hst] at hmem
        cases hprimary.symm.trans (logStage_file hmem)
      · cases hst
    · exact hst
    · split at hst
      · rw [mem_singleton.mp hst] at hmem
        cases hprimary.symm.trans (hiveStage_file hmem)
      · cases hst
  subst hstage
  simp only [cons_append, mem_cons, mem_append, not_mem_nil, or_false] at hmem
  rcases hmem with rfl | hblock | rfl
  · simp only [hiveStage, hblockSize] at hvoff hvlen h1 h2
    omega
  · obtain ⟨j, hj, rfl⟩ := (mem_hiveWrites hL).mp hblock
    have hij : i = j := by
      simp only [hblockSize] at hvoff hvlen h1 h2 ho
      omega
    exact hi (hij ▸ hj)
  · simp only [hiveStage, hblockSize] at hvoff hvlen h1 h2
    omega

theorem CleanOnDisk.writeAll (hL : h.stableLength ≤ 2 ^ 19) {d : Disk FileType}
    (hclean : CleanOnDisk h (d .primary)) {tr : List (Write FileType)}
    (htr : ∀ w ∈ tr, ∃ st ∈ h.stages, ∃ b, PartOf (st.opening b ++ st.closing b) w) :
    CleanOnDisk h ((d.writeAll tr) .primary) := by
  intro i hi hm
  obtain ⟨hlen, hdata⟩ := hclean i hi hm
  have hd : i ∉ h.dirty := by
    rw [mem_dirty]
    simp [hm]
  refine ⟨Nat.le_trans hlen le_len_writeAll, fun o ho => ?_⟩
  rw [writeAll_data_out, hdata o ho]
  intro w hw
  obtain ⟨st, hst, b, hpart⟩ := htr w hw
  exact partOf_not_covers hL hst hpart hd ho

/-- What the stages leave when request `k` fails: another base block, whose
    sequence numbers are equal iff the request was one of the last two of its
    stage. -/
theorem runStages_failed {l : List Stage} {n : Nat} (hn : ∀ st ∈ l, st.blocks.length = n)
    (hr : Ready s.hive) (hk : s.requests ≤ k) (hk' : k < s.requests + l.length * (n + 4)) :
    (runStages (failAt k len src) l s).1 = false ∧
    ∃ b, (runStages (failAt k len src) l s).2.hive = s.hive.setBase b ∧
      HeaderReady s.hive.stableLength b ∧
      (sequence1 b = sequence2 b ↔ n + 2 ≤ (k - s.requests) % (n + 4)) := by
  induction l generalizing s with
  | nil => simp at hk'; omega
  | cons st l ih =>
    have hst : st.blocks.length = n := hn st (by simp)
    have hsize : st.size = n + 4 := by rw [Stage.size, hst]
    simp only [runStages]
    by_cases hin : k < s.requests + (n + 4)
    · -- the request is one of this stage
      have hmod : (k - s.requests) % (n + 4) = k - s.requests := Nat.mod_eq_of_lt (by omega)
      rw [hmod]
      by_cases hopen : k < s.requests + (n + 2)
      · obtain ⟨hfalse, hhive⟩ := @Stage.write_failed_opening (failAt k len src) st s k hk
          (by rw [hst]; exact hopen) failAt_self
        rw [if_neg (by rw [hfalse]; simp)]
        refine ⟨hfalse, _, hhive, hr.header.beginHeader, ?_⟩
        constructor
        · intro heq
          exact absurd heq (beginHeader_outOfStep hr.inStep)
        · intro hle
          omega
      · obtain ⟨hfalse, hhive⟩ := @Stage.write_failed_closing (failAt k len src) st s k
          (by rw [hst]; omega) (by rw [hsize]; exact hin) failAt_self
          (fun j _ hj => failAt_ok (by omega))
        rw [if_neg (by rw [hfalse]; simp)]
        refine ⟨hfalse, _, hhive, hr.header.after st, ?_⟩
        constructor
        · intro _
          omega
        · intro _
          exact after_inStep st hr.inStep
    · -- this stage works, and the request is one of those that follow
      have htrue : (st.write (failAt k len src) s).1 = true :=
        Stage.write_ok (fun j _ hj => failAt_ok (by rw [hsize] at hj; omega))
      have hreq : (st.write (failAt k len src) s).2.requests = s.requests + (n + 4) := by
        rw [Stage.write_true htrue, hsize]
      have hhive : (st.write (failAt k len src) s).2.hive =
          s.hive.setBase (st.after s.hive.baseBlock) := by rw [Stage.write_true htrue]
      rw [if_pos htrue]
      have hrest := @ih (st.write (failAt k len src) s).2 (fun st' h' => hn st' (by simp [h']))
        (hr.write_true htrue) (by rw [hreq]; omega) (by
          rw [hreq]
          simp only [length_cons, Nat.add_mul, Nat.one_mul] at hk'
          omega)
      obtain ⟨hfalse, b, hb, hready, hiff⟩ := hrest
      rw [hreq] at hiff
      rw [hhive] at hb hready
      refine ⟨hfalse, b, hb, hready, hiff.trans ?_⟩
      rw [show k - s.requests = k - (s.requests + (n + 4)) + (n + 4) by omega,
        Nat.add_mod_right]

theorem stages_blocks_length (h : HHive) : ∀ st ∈ h.stages, st.blocks.length = h.dirty.length := by
  intro st hst
  simp only [stages, mem_append, mem_cons] at hst
  rcases hst with hst | rfl | hst
  · split at hst
    · rw [mem_singleton.mp hst]
      simp [logStage, logWrites, dirtyData]
    · cases hst
  · simp [hiveStage, hiveWrites, dirtyData]
  · split at hst
    · rw [mem_singleton.mp hst]
      simp [hiveStage, hiveWrites, dirtyData]
    · cases hst

end Fails

/-- The primary file holds every block of the hive, under a header that is
    accepted and whose sequence numbers are equal. -/
structure Synced (h : HHive) (f : File) : Prop where
  blocks : HoldsBlocks h f
  header : hvpVerifyHiveHeader f.data FileType.primary.toNat = true
  sequences : HBaseBlock.sequence1 f.data = HBaseBlock.sequence2 f.data

/-- A call in which request `k` fails, and a second one in which all requests
    work and after which the primary file is as it should be. -/
def RetryRepairs (h : HHive) (disk : Disk FileType) (k len : Nat) (src : Buf)
    (low high low' high' : Nat) : Prop :=
  ∃ s₁ s₂, hvSyncHive (failAt k len src) true low high h = some (false, s₁) ∧
    hvSyncHive (fun _ => .ok) true low' high' s₁.hive = some (true, s₂) ∧
    Synced h ((disk.writeAll (s₁.trace ++ s₂.trace)) .primary)

/-- The writes of a call in which all requests work. -/
theorem hvSyncHive_ok (hr : Ready h) (low high : Nat) :
    ∃ s, hvSyncHive (fun _ => .ok) true low high h = some (true, s) ∧
      s.trace = stagesWrites h.stages (syncStart h low high).hive.baseBlock := by
  obtain ⟨n, hrun⟩ := @runStages_ok (fun _ => .ok) (syncStart h low high) h.stages (fun _ => rfl)
  rw [hvSyncHive_eq hr, hrun]
  exact ⟨_, rfl, nil_append _⟩

/-- A call in which all requests work brings the primary file up to date. -/
theorem synced_of_ok (hr : Ready h) {d : Disk FileType}
    (hclean : CleanOnDisk h (d .primary)) (low high : Nat) :
    ∃ s, hvSyncHive (fun _ => .ok) true low high h = some (true, s) ∧
      Synced h ((d.writeAll s.trace) .primary) := by
  have hstart := hr.syncStart low high
  obtain ⟨s, hcall, htrace⟩ := hvSyncHive_ok hr low high
  refine ⟨s, hcall, ?_⟩
  obtain ⟨hb, hstep⟩ := stagesBase_ready h.logStages hstart.header hstart.inStep
  rw [htrace, primary_writeAll_stages]
  -- the header check and the sequence numbers read the base block only
  have hheader : ∀ i, i < 512 → _ := fun i hi =>
    @hiveStage_header h (stagesBase h.logStages (syncStart h low high).hive.baseBlock) d .primary i
      (Nat.lt_trans hi (by decide))
  refine ⟨holdsBlocks_hiveStage hr.length hclean, ?_, ?_⟩
  · rw [hvpVerifyHiveHeader_congr hheader]
    exact verify_after hb _ hstep
  · show getU32 _ 4 = getU32 _ 8
    rw [getU32_below hheader (by decide), getU32_below hheader (by decide)]
    exact after_inStep _ hstep

/-- The writers refuse a base block whose sequence numbers differ, and so does
    the call. -/
theorem hvSyncHive_refused {h : HHive} {io : Nat → Outcome} {alloc : Bool} {low high : Nat}
    {s : SyncState} (hflags : h.hiveFlags % 2 = 0) (hdirty : ∃ j, h.dirtyVector.marked j = true)
    (hne : sequence1 h.baseBlock ≠ sequence2 h.baseBlock) :
    hvSyncHive io alloc low high h ≠ some (true, s) := by
  have hsome := rtlFindSetBits_ne_none hdirty
  have hne' : sequence1 (syncStart h low high).hive.baseBlock ≠
      sequence2 (syncStart h low high).hive.baseBlock := by
    intro heq
    exact hne ((getU32_setTimeStamp low high (by decide)).symm.trans
      (heq.trans (getU32_setTimeStamp low high (by decide))))
  have hlog : ∀ r, hvpWriteLog io alloc (syncStart h low high) = some r → r.1 = false := by
    intro r hwrite
    unfold hvpWriteLog at hwrite
    split at hwrite
    · cases hwrite
    · cases hwrite
      rfl
  have hhive : ∀ r, hvpWriteHive io true .primary (syncStart h low high) = some r →
      r.1 = false := by
    intro r hwrite
    unfold hvpWriteHive at hwrite
    split at hwrite
    · cases hwrite
    · cases hwrite
      rfl
  intro hcall
  unfold hvSyncHive at hcall
  split at hcall
  · cases hcall
  rw [if_neg (by omega)] at hcall
  simp only [Option.bind_eq_bind, Option.bind_eq_some_iff] at hcall
  obtain ⟨r1, h1, r2, h2, r3, h3, hlast⟩ := hcall
  -- whichever writer comes first has refused
  have hr2 : r2.1 = false := by
    obtain ⟨ok, s1⟩ := r1
    cases ok with
    | false =>
      cases h2
      rfl
    | true =>
      simp only [andThen] at h1 h2
      split at h1
      · exact absurd (hlog _ h1) (by simp)
      · cases h1
        exact hhive _ h2
  obtain ⟨ok, s2⟩ := r2
  subst hr2
  cases h3
  cases hlast

/-- What a call leaves behind in which request `k` fails. -/
theorem hvSyncHive_failed (hr : Ready h) {k : Nat}
    (hk : k < h.stages.length * (h.dirty.length + 4)) (len : Nat) (src : Buf) (low high : Nat) :
    ∃ s b, hvSyncHive (failAt k len src) true low high h = some (false, s) ∧
      s.hive = h.setBase b ∧ HeaderReady h.stableLength b ∧
      (sequence1 b = sequence2 b ↔
        h.dirty.length + 2 ≤ k % (h.dirty.length + 4)) ∧
      ∀ w ∈ s.trace, ∃ st ∈ h.stages, ∃ b, PartOf (st.opening b ++ st.closing b) w := by
  have hstart := hr.syncStart low high
  obtain ⟨hfalse, b, hhive, hready, hiff⟩ :=
    @runStages_failed (syncStart h low high) k len src h.stages h.dirty.length
      (stages_blocks_length h) hstart (Nat.zero_le k) (by simpa [syncStart] using hk)
  obtain ⟨tr, htr, hpart⟩ := runStages_trace (failAt k len src) h.stages (syncStart h low high)
  refine ⟨(runStages (failAt k len src) h.stages (syncStart h low high)).2, b, ?_, hhive, hready,
    hiff, ?_⟩
  · rw [hvSyncHive_eq hr]
    simp [hfalse]
  · rw [htr]
    exact hpart

/-- The base block of a hive with `length` blocks. -/
def freshBase (length : Nat) : Buf :=
  let b := HBaseBlock.setSignature zeroBuf hvHBlockSignature
  let b := HBaseBlock.setMajor b 1
  let b := HBaseBlock.setMinor b 3
  let b := HBaseBlock.setFormat b 1
  let b := HBaseBlock.setRootCell b 32
  let b := HBaseBlock.setLength b (length * hblockSize)
  HBaseBlock.setCluster b 1

/-- A hive with one bin of `length` blocks, a log and a dirty vector. -/
def plainHive (length : Nat) (bm : RtlBitmap) (data : Buf) : HHive where
  signature := hvHHiveSignature
  baseBlock := freshBase length
  dirtyVector := bm
  dirtyCount := 0
  log := true
  alternate := false
  hiveFlags := 0
  storageTypeCount := 2
  version := 3
  storage := fun _ =>
    { length := length
      blockList := fun i => ⟨some ⟨.stable, 0, i * hblockSize⟩, some 0⟩
      freeDisplay := fun _ => hcellNil
      bins := [⟨length * hblockSize, data⟩] }

theorem freshBase_ready {length : Nat} (h : length ≤ 2 ^ 19) :
    HeaderReady length (freshBase length) := by
  have hlt : length * hblockSize < 2 ^ 32 := by simp only [hblockSize]; omega
  constructor <;> simp (disch := omega) only [freshBase, getU32_putU32_ne, getU32_putU32_self,
    Nat.mod_eq_of_lt hlt] <;> decide

theorem freshBase_inStep (length : Nat) :
    sequence1 (freshBase length) = sequence2 (freshBase length) := by
  simp (disch := omega) only [freshBase, getU32_putU32_ne, getU32_zeroBuf]

theorem block_plainHive {data : Buf} (hi : i < length) :
    (plainHive length bm data).block i = some (slice data (i * hblockSize)) := by
  have hfit : i * hblockSize + hblockSize ≤ length * hblockSize := by
    simp only [hblockSize]
    omega
  simp [block, plainHive, readBytes, bin, hfit]

/-- A dirty vector in which the first block is marked. -/
def firstMarked : RtlBitmap := ⟨32, fun i => i = 0⟩

theorem marked_firstMarked {j : Nat} : firstMarked.marked j = true ↔ j = 0 := by
  constructor
  · intro h
    simpa [RtlBitmap.marked, firstMarked] using (Bool.and_eq_true_iff.mp h).2
  · rintro rfl
    rfl

theorem ready_firstMarked (data : Buf) : Ready (plainHive 1 firstMarked data) where
  signature := rfl
  flags := rfl
  header := freshBase_ready (show 1 ≤ 2 ^ 19 by decide)
  inStep := freshBase_inStep 1
  length := show 1 ≤ 2 ^ 19 by decide
  bitmap := show 32 ≤ 2 ^ 20 by decide
  marks := fun j hj => by rw [marked_firstMarked.mp hj]; exact Nat.zero_lt_one
  dirty := ⟨0, marked_firstMarked.mpr rfl⟩
  blocks := fun i (hi : i < 1) => by rw [block_plainHive hi]; rfl

/-- No block of a hive with one block, which is dirty, is clean. -/
theorem cleanOnDisk_firstMarked (data : Buf) (f : File) :
    CleanOnDisk (plainHive 1 firstMarked data) f := by
  intro i hi hm
  have hi0 : i = 0 := Nat.lt_one_iff.mp hi
  rw [hi0, show (plainHive 1 firstMarked data).dirtyVector.marked 0 = true from rfl] at hm
  cases hm

end Hive
