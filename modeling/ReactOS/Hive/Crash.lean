import ReactOS.Hive.Recover

/-! # Crash consistency of `HvSyncHive`

    A crash leaves the files that a part of the writes of a call has been
    applied to.  A later load then finds the hive as it was before the call or
    as it is in memory:

    - while the log is being written the primary file is untouched;
    - while the primary file is being written its header is refused, and the
      log, which is complete, has every block that may have been hit;
    - after that the primary file is complete. -/

namespace Hive

open Bytes HBaseBlock List FileType

/-! ## Section 1: What a load depends on -/

/-- Replace the base block and the version. -/
def HHive.setHeader (h : HHive) (b : Buf) (v : Nat) : HHive := { h with baseBlock := b, version := v }

section Congr

variable {selfHeal : Bool} {alloc : Nat → Bool} {chunk chunk' : Buf} {fuel k : Nat}

/-- The loop over the bins reads the length and what is behind the base block. -/
theorem loadBins_congr (hlen : length chunk' = length chunk)
    (hdata : ∀ i, hblockSize ≤ i → chunk' i = chunk i) (blockIndex allocs : Nat) (d : Dual) :
    loadBins selfHeal alloc chunk' fuel blockIndex allocs d =
      loadBins selfHeal alloc chunk fuel blockIndex allocs d := by
  induction fuel generalizing blockIndex allocs d with
  | zero => rfl
  | succ fuel ih =>
    have hslice : slice chunk' ((blockIndex + 1) * hblockSize) =
        slice chunk ((blockIndex + 1) * hblockSize) := by
      funext i
      apply hdata
      simp only [hblockSize]
      omega
    have hbin : binAt chunk' blockIndex = binAt chunk blockIndex := by
      simp only [binAt, hslice]
    simp only [loadBins, hlen, hslice, hbin, ih]

theorem listFreeCells_setHeader (h : HHive) (b : Buf) (v off : Nat) :
    listFreeCells k fuel (h.setHeader b v) off =
      (listFreeCells k fuel h off).map (·.setHeader b v) := by
  induction fuel generalizing h off with
  | zero => rfl
  | succ fuel ih =>
    have hdata : (h.setHeader b v).data .stable k = h.data .stable k := rfl
    have hsize : (h.setHeader b v).binSize .stable k = h.binSize .stable k := rfl
    have hadd : ∀ p i, (h.setHeader b v).addFree p i = (h.addFree p i).setHeader b v :=
      fun _ _ => rfl
    simp only [listFreeCells, hdata, hsize, hadd, ih]
    split
    · split
      · rfl
      · split <;> rfl
    · rfl

theorem listBins_setHeader (h : HHive) (b : Buf) (v blockIndex : Nat) :
    listBins fuel (h.setHeader b v) blockIndex =
      (listBins fuel h blockIndex).map (·.setHeader b v) := by
  induction fuel generalizing h blockIndex with
  | zero => rfl
  | succ fuel ih =>
    have hstorage : (h.setHeader b v).storage = h.storage := rfl
    simp only [listBins, hstorage, listFreeCells_setHeader]
    split
    · split
      · rfl
      · cases listFreeCells _ fuel h sizeofHBin with
        | error e => rfl
        | ok h' => exact ih h' _
    · rfl

/-- Two images that differ in their base blocks only, and that are both
    accepted, give the same storage. -/
theorem hvpInitializeMemoryHive_congr {h hA : HHive} {fileName : Buf}
    (hlen : length chunk' = length chunk)
    (hverify : hvpVerifyHiveHeader chunk' primary.toNat = true)
    (hdata : ∀ i, hblockSize ≤ i → chunk' i = chunk i)
    (hload : hvpInitializeMemoryHive selfHeal alloc fuel h chunk fileName = .ok (.success hA)) :
    ∃ hB, hvpInitializeMemoryHive selfHeal alloc fuel h chunk' fileName = .ok (.success hB) ∧
      hB.storage = hA.storage := by
  unfold hvpInitializeMemoryHive at hload ⊢
  simp only at hload ⊢
  rw [hlen, loadBins_congr hlen hdata]
  split at hload
  · cases hload
  rename_i hok
  rw [if_neg (by
    simp only [Bool.or_eq_true, decide_eq_true_eq, not_or] at hok
    simp [hverify, hok.1])]
  split at hload
  · cases hload
  rename_i halloc
  rw [if_neg halloc]
  split at hload
  · cases hload
  · cases hload
    exact ⟨_, rfl, rfl⟩
  rename_i d allocs hbins
  -- the two hives differ in the base block and the version
  have hset : ∀ c : Buf, hvpCreateHiveFreeCellList fuel
      (({ h with baseBlock := c, version := minor c } : HHive).setDual .stable d) =
      (listBins fuel (h.setDual .stable d).clearDisplay 0).map
        (·.setHeader c (minor c)) :=
    fun c => listBins_setHeader (h.setDual .stable d).clearDisplay c (minor c) 0
  rw [hset] at hload ⊢
  cases hlist : listBins fuel (h.setDual .stable d).clearDisplay 0 with
  | error e =>
    rw [hlist] at hload
    cases hload
  | ok h' =>
    rw [hlist] at hload
    simp only [Except.map] at hload ⊢
    split at hload
    · rename_i hlast
      rw [if_pos hlast]
      cases hload
      exact ⟨_, rfl, rfl⟩
    · cases hload

end Congr

/-! ## Section 2: Loads from a disk -/

/-- The bytes of an image of the hive in memory: an accepted base block, the
    blocks, and what the buffer has behind them. -/
def memoryImage (pool : Buf) (h : HHive) : Buf := fun i =>
  if i < hblockSize then (hiveStage .primary h.dirtyData).after h.baseBlock i
  else if i < (h.stableLength + 1) * hblockSize then
    h.blockData ((i - hblockSize) / hblockSize) ((i - hblockSize) % hblockSize)
  else pool i

/-- The hive in memory can be loaded from an image of it. -/
def LoadsAs (env : LoadEnv) (g : HHive) (h gpost : HHive) : Prop :=
  hvpInitializeMemoryHive env.selfHeal (fun i => env.alloc (i + 3)) env.fuel g
    (memoryImage env.pool h) env.fileName = .ok (.success gpost)

/-- A load in which memory and files can be had, in a build with recovery. -/
structure Works (env : LoadEnv) : Prop where
  recovery : env.amd64 = false
  io : ∀ n, env.io n = true
  alloc : ∀ n, env.alloc n = true
  cluster_pos : 1 ≤ env.cluster
  cluster_le : env.cluster ≤ 8

/-- The file is an image of the hive with an accepted header. -/
structure ImageOf (h : HHive) (f : File) : Prop where
  len : (h.stableLength + 1) * hblockSize ≤ f.len
  blocks : HoldsBlocks h f
  header : hvpVerifyHiveHeader f.data FileType.primary.toNat = true
  length : HBaseBlock.length f.data = h.stableLength * hblockSize

section Loads

variable {env : LoadEnv} {g h gpre gpost : HHive} {d d' : Disk FileType} {b : Buf}

theorem block_split {i : Nat} (hi : hblockSize ≤ i) :
    ((i - hblockSize) / hblockSize + 1) * hblockSize + (i - hblockSize) % hblockSize = i := by
  simp only [hblockSize] at hi ⊢
  omega

theorem block_lt {i n : Nat} (hi : hblockSize ≤ i) (hend : i < (n + 1) * hblockSize) :
    (i - hblockSize) / hblockSize < n := by
  simp only [hblockSize] at hi hend ⊢
  omega

theorem loadWhole_image (hw : Works env) (hr : Ready h) (himage : ImageOf h (d .primary))
    (hb : length b = h.stableLength * hblockSize) (hpost : LoadsAs env g h gpost)
    (status : LoadStatus) :
    ∃ g', loadWhole env g d b status = .ok ⟨status, g', d⟩ ∧ g'.storage = gpost.storage := by
  have hL := hr.length
  have hlen := himage.len
  have hsize : (hblockSize + length b) % 2 ^ 32 = (h.stableLength + 1) * hblockSize := by
    rw [hb]
    simp only [hblockSize]
    omega
  have hpos : 0 < (d .primary).len := by
    simp only [hblockSize] at hlen
    omega
  -- the bytes that are read
  obtain ⟨chunk, hchunk⟩ : ∃ c : Buf, c = fun k => if k < (h.stableLength + 1) * hblockSize ∧
      0 + k < (d .primary).len then (d .primary).data (0 + k) else env.pool k := ⟨_, rfl⟩
  have hin : ∀ k, k < (h.stableLength + 1) * hblockSize → chunk k = (d .primary).data k := by
    intro k hk
    rw [hchunk]
    simp only [Nat.zero_add]
    exact if_pos ⟨hk, by omega⟩
  have hmem : length (memoryImage env.pool h) = h.stableLength * hblockSize := by
    rw [← (hr.header.after (hiveStage .primary h.dirtyData)).length]
    exact getU32_below (fun _ hi => if_pos hi) (by decide)
  have hverify : hvpVerifyHiveHeader chunk primary.toNat = true := by
    rw [← himage.header]
    apply hvpVerifyHiveHeader_congr
    intro i hi
    apply hin
    simp only [hblockSize]
    omega
  have hdata : ∀ i, hblockSize ≤ i → chunk i = memoryImage env.pool h i := by
    intro i hi
    unfold memoryImage
    rw [if_neg (by omega)]
    by_cases hend : i < (h.stableLength + 1) * hblockSize
    · rw [if_pos hend, hin i hend]
      have hblock := himage.blocks ((i - hblockSize) / hblockSize) ((i - hblockSize) % hblockSize)
        (block_lt hi hend) (Nat.mod_lt _ (by decide))
      rw [← hblock, block_split hi]
    · rw [if_neg hend, hchunk]
      exact if_neg (fun h' => hend h'.1)
  obtain ⟨g', hg', hstorage⟩ := hvpInitializeMemoryHive_congr
    (((getU32_below hin (by simp only [hblockSize]; omega)).trans himage.length).trans hmem.symm)
    hverify hdata hpost
  refine ⟨g', ?_, hstorage⟩
  unfold loadWhole
  simp only [hsize]
  rw [if_neg (by simp [hw.alloc]), read_eq hw.io hpos, ← hchunk]
  simp only [hg']

theorem hvpGetHiveHeader_eq (hw : Works env) (hlen : hblockSize ≤ (d .primary).len) :
    ∃ c : Buf, (∀ i, i < 512 → c i = (d .primary).data i) ∧
      hvpGetHiveHeader env d =
        some (if hvpVerifyHiveHeader c primary.toNat then .hiveSuccess c
          else .recoverHeader (timeStampLow c) (timeStampHigh c)) := by
  have hcluster := hw.cluster_pos
  have hle := hw.cluster_le
  simp only [hblockSize] at hlen
  refine ⟨fun k => if k < env.cluster * hsectorSize ∧ 0 + k < (d .primary).len
    then (d .primary).data (0 + k) else zeroBuf k, ?_, ?_⟩
  · grind
  · unfold hvpGetHiveHeader
    rw [if_neg (by simp only [hblockSize, hsectorSize]; omega), hw.alloc,
      read_eq hw.io (by omega)]
    simp only [Bool.not_true]
    cases hvpVerifyHiveHeader _ primary.toNat <;> rfl

theorem loadWhole_congr {status : LoadStatus} {l : Loaded}
    (hload : loadWhole env g d b status = .ok l) (hd : d' .primary = d .primary) :
    loadWhole env g d' b status = .ok { l with disk := d' } := by
  unfold loadWhole at hload ⊢
  simp only [hd] at hload ⊢
  split at hload
  · rename_i hno
    rw [if_pos hno]
    cases hload
    rfl
  rename_i hmem
  rw [if_neg hmem]
  split at hload
  · cases hload
    rfl
  · split at hload <;> cases hload <;> rfl

theorem loadWhole_status {l : Loaded}
    (hload : loadWhole env g d b .recovered = .ok l) : l.status ≠ .success := by
  unfold loadWhole at hload
  simp only at hload
  split at hload
  · cases hload
    simp
  split at hload
  · cases hload
    simp
  split at hload <;> cases hload <;> simp

/-- A load that needs no recovery depends on the primary file only. -/
theorem hvLoadHive_congr {l : Loaded} (hpre : hvLoadHive env g d = .ok l)
    (hok : l.status = .success) (hd : d' .primary = d .primary) :
    hvLoadHive env g d' = .ok { l with disk := d' } := by
  have hheader : hvpGetHiveHeader env d' = hvpGetHiveHeader env d := by
    simp only [hvpGetHiveHeader, hd]
  unfold hvLoadHive at hpre ⊢
  rw [hheader]
  split at hpre
  · cases hpre
  · cases hpre
    rfl
  · cases hpre
    rfl
  · exact loadWhole_congr hpre hd
  -- a recovery is not reported as success
  split at hpre
  · cases hpre
    cases hok
  split at hpre
  · cases hpre
    cases hok
  · cases hpre
    cases hok
  split at hpre
  · cases hpre
  · cases hpre
    cases hok
  · exact absurd hok (loadWhole_status hpre)

/-- An image with an accepted header is loaded without recovery. -/
theorem hvLoadHive_image (hw : Works env) (hr : Ready h) (himage : ImageOf h (d .primary))
    (hpost : LoadsAs env g h gpost) :
    ∃ g', hvLoadHive env g d = .ok ⟨.success, g', d⟩ ∧ g'.storage = gpost.storage := by
  have hlen : hblockSize ≤ (d .primary).len :=
    Nat.le_trans (Nat.le_mul_of_pos_left _ (Nat.succ_pos _)) himage.len
  obtain ⟨c, hc, hheader⟩ := hvpGetHiveHeader_eq hw hlen
  have hverify : hvpVerifyHiveHeader c primary.toNat = true := by
    rw [hvpVerifyHiveHeader_congr hc, himage.header]
  have hlength : length c = h.stableLength * hblockSize := by
    rw [← himage.length]
    exact getU32_below hc (by decide)
  obtain ⟨g', hload, hstorage⟩ := loadWhole_image hw hr himage hlength hpost .success
  refine ⟨g', ?_, hstorage⟩
  unfold hvLoadHive
  rw [hheader, if_pos hverify]
  exact hload

/-- A header that was accepted for a log is accepted for a primary file once
    its type and checksum have been replaced. -/
theorem verify_setType (hverify : hvpVerifyHiveHeader b log.toNat = true) :
    hvpVerifyHiveHeader (sealHeader (setType b primary.toNat))
      primary.toNat = true := by
  have hw : ∀ o, o + 4 ≤ 28 ∨ (32 ≤ o ∧ o + 4 ≤ 508) →
      getU32 (sealHeader (setType b primary.toNat)) o = getU32 b o := by
    intro o ho
    rw [getU32_sealHeader (by omega), getU32_putU32_ne (by omega)]
  have htype : type (sealHeader (setType b primary.toNat)) =
      primary.toNat := by
    show getU32 (sealHeader _) 28 = _
    rw [getU32_sealHeader (by omega), getU32_putU32_self]
    rfl
  rw [hvpVerifyHiveHeader_iff] at hverify ⊢
  obtain ⟨h1, h2, h3, _, h5, h6, h7, _⟩ := hverify
  refine ⟨(hw 0 (by omega)).trans h1, (hw 20 (by omega)).trans h2, ?_, htype,
    (hw 32 (by omega)).trans h5, (hw 44 (by omega)).trans h6, ?_, checkSum_sealHeader _⟩
  · exact Nat.le_trans h3 (Nat.le_of_eq (hw 24 (by omega)).symm)
  · exact (hw 4 (by omega)).trans (h7.trans (hw 8 (by omega)).symm)

end Loads

/-! ## Section 3: Recovery from a complete log -/

/-- A complete log of the hive. -/
structure LogOf (h : HHive) (log : File) (low high : Nat) : Prop where
  header : hvpVerifyHiveHeader log.data FileType.log.toNat = true
  timeLow : HBaseBlock.timeStampLow log.data = low
  timeHigh : HBaseBlock.timeStampHigh log.data = high
  length : HBaseBlock.length log.data = h.stableLength * hblockSize
  vector : HasVector log h.dirtyVector h.stableLength
  blocks : ∀ k (hk : k < h.dirty.length) o, o < hblockSize →
    log.data (1024 + k * hblockSize + o) = h.blockData h.dirty[k] o

section Recovery

variable {env : LoadEnv} {g h gpost : HHive} {d : Disk FileType} {low high : Nat}

/-- The header that is taken from the log, and the disk with it. -/
theorem hvpRecoverHeaderFromLog_eq (hw : Works env) (hlog : LogOf h (d .log) low high) :
    ∃ b : Buf, (∀ i, i < 512 → b i = (d .log).data i) ∧
      hvpRecoverHeaderFromLog env d low high =
        (.hiveSuccess, sealHeader (setType b primary.toNat),
          d.write ⟨.primary, 0, env.cluster * hsectorSize,
            sealHeader (setType b primary.toNat)⟩) := by
  have hcluster := hw.cluster_pos
  have hroom := hlog.vector.room
  obtain ⟨b, hb⟩ : ∃ c : Buf, c = fun k => if k < env.cluster * hsectorSize ∧ 0 + k < (d .log).len
    then (d .log).data (0 + k) else overlay env.pool 0 hsectorSize zeroBuf k := ⟨_, rfl⟩
  have hin : ∀ i, i < 512 → b i = (d .log).data i := by grind
  have hok : logHeaderOk b low high = true := by
    simp only [logHeaderOk, Bool.and_eq_true, decide_eq_true_eq]
    refine ⟨⟨?_, ?_⟩, ?_⟩
    · rw [hvpVerifyHiveHeader_congr hin]
      exact hlog.header
    · exact hlog.timeHigh.symm.trans (getU32_below hin (by decide)).symm
    · exact hlog.timeLow.symm.trans (getU32_below hin (by decide)).symm
  refine ⟨b, hin, ?_⟩
  unfold hvpRecoverHeaderFromLog
  simp only [hw.alloc]
  rw [read_eq hw.io (by omega), ← hb, Option.filter_some, if_pos hok]
  simp [writeHeaderBack, hw.io]

theorem recoveredWrites_header {log : File} {j i : Nat} {rest : List Nat} (hi : i < hblockSize) :
    ((d.writeAll (recoveredWrites log j rest)) .primary).data i = (d .primary).data i := by
  apply writeAll_data_out
  intro w hw hc
  obtain ⟨m, hm, rfl⟩ := mem_recoveredWrites.mp hw
  obtain ⟨_, h1, _⟩ := hc
  simp only [hblockSize] at h1 hi
  omega

section

variable (hr : Ready h) (hclean : CleanOnDisk h (d .primary))

include hr hclean

/-- The file reaches to the end of the hive once its dirty blocks are written. -/
theorem len_of_blocks {ws : List (Write FileType)} (hblocks : ∀ i ∈ h.dirty,
      (i + 1) * hblockSize + hblockSize ≤ ((d.writeAll ws) .primary).len) :
    (h.stableLength + 1) * hblockSize ≤ ((d.writeAll ws) .primary).len := by
  obtain ⟨j, hj⟩ := hr.dirty
  have hpos : 0 < h.stableLength := Nat.lt_of_le_of_lt (Nat.zero_le j) (hr.marks j hj)
  obtain ⟨last, hlast⟩ := Nat.exists_eq_succ_of_ne_zero (Nat.ne_of_gt hpos)
  have hin : last < h.stableLength := hlast ▸ Nat.lt_succ_self last
  rw [hlast]
  by_cases hm : h.dirtyVector.marked last = true
  · rw [Nat.succ_eq_add_one, Nat.add_mul (last + 1), Nat.one_mul]
    exact hblocks last (mem_dirty.mpr ⟨hin, hm⟩)
  · exact Nat.le_trans (hclean last hin (by simpa using hm)).1 le_len_writeAll

theorem imageOf_recovered (hlog : LogOf h (d .log) low high)
    (hheader : hvpVerifyHiveHeader (d .primary).data primary.toNat = true)
    (hlength : length (d .primary).data = h.stableLength * hblockSize) :
    ImageOf h ((d.writeAll (recoveredWrites (d .log) 0 h.dirty)) .primary) := by
  have hword : ∀ i, i < 512 → _ := fun i hi =>
    @recoveredWrites_header d (d .log) 0 i h.dirty (Nat.lt_trans hi (by decide))
  constructor
  · refine len_of_blocks hr hclean fun i hi => ?_
    obtain ⟨k, hk, hki⟩ := getElem_of_mem hi
    have hend := len_of_mem (d := d)
      ((@mem_recoveredWrites (d .log) 0 h.dirty _).mpr ⟨k, hk, rfl⟩)
    rw [hki] at hend
    exact hend
  · intro i o hi ho
    by_cases hm : h.dirtyVector.marked i = true
    · obtain ⟨k, hk, hki⟩ := getElem_of_mem (mem_dirty.mpr ⟨hi, hm⟩)
      rw [← hki]
      refine (recoveredWrites_dirty (marks_nodup _ _ _) hk ho).trans ?_
      rw [Nat.zero_add]
      exact hlog.blocks k hk o ho
    · rw [recoveredWrites_clean (fun hd => hm (mem_dirty.mp hd).2) ho]
      exact (hclean i hi (by simpa using hm)).2 o ho
  · rw [hvpVerifyHiveHeader_congr hword, hheader]
  · rw [← hlength]
    exact getU32_below hword (by decide)

/-- A primary file whose header is refused is repaired from a complete log. -/
theorem hvLoadHive_recovers (hw : Works env) (hglog : g.log = true) (hbound : h.stableLength ≤ 508)
    (hlog : LogOf h (d .log) low high) (hlen : hblockSize ≤ (d .primary).len)
    (hrefused : hvpVerifyHiveHeader (d .primary).data primary.toNat = false)
    (hlow : timeStampLow (d .primary).data = low) (hhigh : timeStampHigh (d .primary).data = high)
    (hpost : LoadsAs env g h gpost) :
    ∃ g' d', hvLoadHive env g d = .ok ⟨.recovered, g', d'⟩ ∧ g'.storage = gpost.storage := by
  have hcluster := hw.cluster_pos
  have hcluster' := hw.cluster_le
  obtain ⟨c, hc, hheader⟩ := hvpGetHiveHeader_eq hw hlen
  rw [if_neg (by rw [hvpVerifyHiveHeader_congr hc, hrefused]; simp)] at hheader
  rw [show timeStampLow c = low from (getU32_below hc (by decide)).trans hlow,
    show timeStampHigh c = high from (getU32_below hc (by decide)).trans hhigh] at hheader
  obtain ⟨b, hb, hrec⟩ := hvpRecoverHeaderFromLog_eq hw hlog
  -- the new header, on disk and in memory
  have hverify : hvpVerifyHiveHeader (sealHeader (setType b primary.toNat))
      primary.toNat = true :=
    verify_setType (by rw [hvpVerifyHiveHeader_congr hb, hlog.header])
  have hblength : length (sealHeader (setType b primary.toNat)) =
      h.stableLength * hblockSize := by
    show getU32 (sealHeader _) 40 = _
    rw [getU32_sealHeader (by omega), getU32_putU32_ne (by omega), ← hlog.length]
    exact getU32_below hb (by decide)
  obtain ⟨d2, hd2⟩ : ∃ d2, d2 = d.write ⟨.primary, 0, env.cluster * hsectorSize,
    sealHeader (setType b primary.toNat)⟩ := ⟨_, rfl⟩
  rw [← hd2] at hrec
  have hlog2 : d2 .log = d .log := by
    rw [hd2]
    rfl
  have hclean2 : CleanOnDisk h (d2 .primary) := by
    intro i hi hm
    obtain ⟨hfile, hdata⟩ := hclean i hi hm
    rw [hd2]
    refine ⟨Nat.le_trans hfile le_len_write, fun o ho => ?_⟩
    rw [write_data_out, hdata o ho]
    rintro ⟨_, _, h2⟩
    simp only [hblockSize, hsectorSize] at h2
    omega
  have hheader2 : ∀ i, i < 512 → (d2 .primary).data i =
      sealHeader (setType b primary.toNat) i := by
    intro i hi
    rw [hd2]
    exact write_data_in ⟨rfl, Nat.zero_le _, by simp only [hsectorSize]; omega⟩
  rw [← hlog2] at hlog
  have himage := imageOf_recovered hr hclean2 hlog
    (by rw [hvpVerifyHiveHeader_congr hheader2, hverify])
    (by rw [← hblength]; exact getU32_below hheader2 (by decide))
  obtain ⟨g', hload, hstorage⟩ := loadWhole_image hw hr himage hblength hpost .recovered
  refine ⟨g', d2.writeAll (recoveredWrites (d2 .log) 0 h.dirty), ?_, hstorage⟩
  have hdata := hvpRecoverDataFromLog_eq hw.io hlog.vector hblength hbound
  unfold hvLoadHive
  rw [hheader]
  simp only [hw.recovery, hglog, hrec, hdata]
  exact hload

end

end Recovery

/-! ## Section 4: Every prefix of the writes -/

section Prefix

variable {h : HHive} {d : Disk FileType} {b : Buf}

/-- The first part of some writes, which are followed by others: it ends in
    the first list, before the last write of the second or behind it. -/
theorem take_cases (A B C : List (Write FileType)) (x y : Write FileType) (k : Nat) :
    (A ++ (x :: B ++ [y]) ++ C).take k = A.take k ∨
    (∃ m, (A ++ (x :: B ++ [y]) ++ C).take k = A ++ x :: B.take m) ∨
    ∃ m, (A ++ (x :: B ++ [y]) ++ C).take k = A ++ (x :: B ++ [y]) ++ C.take m := by
  rw [append_assoc, take_append]
  rcases Nat.lt_or_ge A.length k with hA | hA
  · right
    rw [take_of_length_le (Nat.le_of_lt hA)]
    obtain ⟨m, hm⟩ : ∃ m, k - A.length = m + 1 := ⟨k - A.length - 1, by omega⟩
    rw [hm]
    rcases Nat.lt_or_ge B.length m with hB | hB
    · right
      refine ⟨m - (B.length + 1), ?_⟩
      rw [take_append, take_of_length_le (by simp; omega)]
      simp [show m + 1 - (B.length + 1 + 1) = m - (B.length + 1) by omega]
    left
    refine ⟨m, ?_⟩
    rw [cons_append, cons_append, take_succ_cons, append_assoc,
      take_append_of_le_length hB]
  · left
    rw [show k - A.length = 0 by omega, take_zero, append_nil]

/-- The base block that ends the writing of the log is in the log. -/
theorem log_header {size i : Nat} {data : List (Nat × Buf)} (hi : i < 512) :
    ((d.writeAll ((logStage size data).writes b)) .log).data i = (logStage size data).after b i := by
  unfold Stage.writes
  rw [writeAll_append]
  exact @write_data_in FileType _ _ ⟨.log, 0, 512, (logStage size data).after b⟩ _ _
    ⟨rfl, Nat.zero_le _, by simpa using hi⟩

theorem getU32_after_time (stage : Stage) {o : Nat} (ho : 12 ≤ o) (ho' : o + 4 ≤ 20) :
    getU32 (stage.after b) o = getU32 b o := by
  rw [Stage.after, getU32_endHeader (.inr (.inr (.inl ⟨ho, ho'⟩))),
    getU32_beginHeader (.inr (.inr ⟨ho, ho'⟩))]

theorem logOf_writes (hr : Ready h) (hfits : 4 + h.dirtyVector.sizeOfBitMap ≤ 512)
    (hbound : h.stableLength ≤ 508) (hb : HeaderReady h.stableLength b)
    (hstep : sequence1 b = sequence2 b) :
    LogOf h ((d.writeAll ((logStage h.dirtyVector.sizeOfBitMap h.dirtyData).writes b)) .log)
      (timeStampLow b) (timeStampHigh b) := by
  have hheader : ∀ i, i < 512 → _ := fun i hi =>
    @log_header d b h.dirtyVector.sizeOfBitMap i h.dirtyData hi
  have hsize : logBufferSize h.dirtyVector.sizeOfBitMap = 1024 := by
    rw [logBufferSize_eq hr.bitmap]
    omega
  refine ⟨?_, ?_, ?_, ?_, hasVector_log hr.length hr.bitmap hbound, ?_⟩
  · rw [hvpVerifyHiveHeader_congr hheader]
    exact verify_after hb _ hstep
  · exact (getU32_below hheader (by decide)).trans (getU32_after_time _ (by decide) (by decide))
  · exact (getU32_below hheader (by decide)).trans (getU32_after_time _ (by decide) (by decide))
  · exact (getU32_below hheader (by decide)).trans (hb.after _).length
  · intro k hk o ho
    have hk' : k < h.dirtyData.length := by rw [dirtyData_length]; exact hk
    have hblock := log_block (b := b) (d := d) (log_fit hr.length hr.bitmap)
      (by rw [hsize]; decide) hk' ho
    rw [hsize] at hblock
    rw [hblock]
    simp [HHive.dirtyData]

/-- While the blocks are written the header in the primary file is the one
    with the sequence numbers apart. -/
theorem primary_header_opening (hL : h.stableLength ≤ 2 ^ 19) {m i : Nat} (hi : i < hblockSize) :
    ((d.writeAll ((hiveStage .primary h.dirtyData).header (beginHeader .primary b) ::
      (hiveWrites .primary h.dirtyData).take m)) .primary).data i = beginHeader .primary b i := by
  apply writeAll_data_in
  · exact ⟨_, mem_cons_self, rfl, Nat.zero_le _, by simpa [hiveStage] using hi⟩
  intro w hw hc
  rcases mem_cons.mp hw with rfl | hw
  · rfl
  obtain ⟨j, _, rfl⟩ := (mem_hiveWrites hL).mp (mem_of_mem_take hw)
  obtain ⟨_, h1, _⟩ := hc
  simp only [hblockSize] at h1 hi
  omega

theorem verify_beginHeader (hstep : sequence1 b = sequence2 b) :
    hvpVerifyHiveHeader (beginHeader .primary b) primary.toNat = false := by
  by_contra hverify
  rw [Bool.not_eq_false, hvpVerifyHiveHeader_iff] at hverify
  exact beginHeader_outOfStep hstep hverify.2.2.2.2.2.2.1

theorem imageOf_writes (hr : Ready h) (hclean : CleanOnDisk h (d .primary))
    (hb : HeaderReady h.stableLength b) (hstep : sequence1 b = sequence2 b) :
    ImageOf h ((d.writeAll ((hiveStage .primary h.dirtyData).writes b)) .primary) := by
  have hheader : ∀ i, i < 512 → _ := fun i hi =>
    @hiveStage_header h b d .primary i (Nat.lt_trans hi (by decide))
  refine ⟨?_, holdsBlocks_hiveStage hr.length hclean, ?_, ?_⟩
  · refine len_of_blocks hr hclean fun i hi => ?_
    have hmem : (⟨.primary, (i + 1) * hblockSize, hblockSize, h.blockData i⟩ :
        Write FileType) ∈ (hiveStage .primary h.dirtyData).writes b := by
      exact Stage.mem_writes.mpr (.inr (.inl ((mem_hiveWrites hr.length).mpr ⟨i, hi, rfl⟩)))
    exact len_of_mem (d := d) hmem
  · rw [hvpVerifyHiveHeader_congr hheader]
    exact verify_after hb _ hstep
  · rw [← (hb.after (hiveStage .primary h.dirtyData)).length]
    exact getU32_below hheader (by decide)

end Prefix

/-- Every part of the writes leaves a disk from which the old or the new hive
    is loaded. -/
theorem load_prefix {env : LoadEnv} {g h gpost : HHive} {pre : Loaded} {disk : Disk FileType}
    {b : Buf} (hw : Works env) (hglog : g.log = true) (hr : Ready h) (hlog : h.log = true)
    (hfits : 4 + h.dirtyVector.sizeOfBitMap ≤ 512) (hbound : h.stableLength ≤ 508)
    (hclean : CleanOnDisk h (disk .primary)) (hpre : hvLoadHive env g disk = .ok pre)
    (hok : pre.status = .success) (hpost : LoadsAs env g h gpost)
    (hready : HeaderReady h.stableLength b)
    (hstep : sequence1 b = sequence2 b) (k : Nat) :
    ∃ l, hvLoadHive env g (disk.writeAll ((stagesWrites h.stages b).take k)) = .ok l ∧
      (l.status = .success ∨ l.status = .recovered) ∧
      (l.hive.storage = pre.hive.storage ∨ l.hive.storage = gpost.storage) := by
  -- the writes: the log, the primary file, and the alternate file if there is one
  obtain ⟨b1, hb1⟩ : ∃ b1, b1 = (logStage h.dirtyVector.sizeOfBitMap h.dirtyData).after b := ⟨_, rfl⟩
  have hready1 : HeaderReady h.stableLength b1 := hb1 ▸ hready.after _
  have hstep1 : sequence1 b1 = sequence2 b1 := hb1 ▸ after_inStep _ hstep
  have htrace : stagesWrites h.stages b =
      (logStage h.dirtyVector.sizeOfBitMap h.dirtyData).writes b ++
        ((hiveStage .primary h.dirtyData).header (beginHeader .primary b1) ::
          hiveWrites .primary h.dirtyData ++
          [⟨.primary, 0, hblockSize, (hiveStage .primary h.dirtyData).after b1⟩]) ++
        stagesWrites h.alternateStages ((hiveStage .primary h.dirtyData).after b1) := by
    have hstages : h.logStages = [logStage h.dirtyVector.sizeOfBitMap h.dirtyData] := by
      simp [HHive.logStages, hlog]
    rw [hb1, stages_eq, stagesWrites_append, hstages]
    simp only [stagesWrites, stagesBase, append_nil]
    rw [append_assoc]
    rfl
  obtain ⟨disk1, hdisk1⟩ : ∃ disk1, disk1 =
    disk.writeAll ((logStage h.dirtyVector.sizeOfBitMap h.dirtyData).writes b) := ⟨_, rfl⟩
  have hprimary : disk1 .primary = disk .primary := by
    rw [hdisk1]
    exact writeAll_other (fun w hw' => by simp [logStage_file hw'])
  have hlogOf := hdisk1 ▸ logOf_writes (d := disk) hr hfits hbound hready hstep
  rw [htrace]
  rcases take_cases ((logStage h.dirtyVector.sizeOfBitMap h.dirtyData).writes b)
    (hiveWrites .primary h.dirtyData)
    (stagesWrites h.alternateStages ((hiveStage .primary h.dirtyData).after b1))
    ((hiveStage .primary h.dirtyData).header (beginHeader .primary b1))
    ⟨.primary, 0, hblockSize, (hiveStage .primary h.dirtyData).after b1⟩ k
    with htake | ⟨m, htake⟩ | ⟨m, htake⟩
  · -- the log is being written
    rw [htake]
    have hsame : (disk.writeAll (((logStage h.dirtyVector.sizeOfBitMap h.dirtyData).writes b).take k))
        .primary = disk .primary :=
      writeAll_other (fun w hw' => by simp [logStage_file (mem_of_mem_take hw')])
    exact ⟨_, hvLoadHive_congr hpre hok hsame, .inl hok, .inl rfl⟩
  · -- the primary file is being written: its header is refused
    rw [htake, writeAll_append, ← hdisk1]
    obtain ⟨ws, hws⟩ : ∃ ws, ws = (hiveStage .primary h.dirtyData).header
      (beginHeader .primary b1) :: (hiveWrites .primary h.dirtyData).take m := ⟨_, rfl⟩
    rw [← hws]
    have hmem : ∀ w ∈ ws, w ∈ (hiveStage .primary h.dirtyData).writes b1 := by
      intro w hw'
      rw [hws] at hw'
      rcases mem_cons.mp hw' with rfl | hw'
      · exact Stage.mem_writes.mpr (.inl rfl)
      · exact Stage.mem_writes.mpr (.inr (.inl (mem_of_mem_take hw')))
    have hheader : ∀ i, i < 512 → ((disk1.writeAll ws) .primary).data i = beginHeader .primary b1 i := by
      intro i hi
      rw [hws]
      exact primary_header_opening hr.length (Nat.lt_trans hi (by decide))
    have htime : ∀ o, 12 ≤ o → o + 4 ≤ 20 → getU32 (beginHeader .primary b1) o = getU32 b o := by
      intro o ho ho'
      rw [getU32_beginHeader (.inr (.inr ⟨ho, ho'⟩)), hb1, getU32_after_time _ ho ho']
    have hlog1 : (disk1.writeAll ws) .log = disk1 .log :=
      writeAll_other (fun w hw' => by simp [hiveStage_file (hmem w hw')])
    have hclean1 : CleanOnDisk h ((disk1.writeAll ws) .primary) := by
      intro i hi hm
      obtain ⟨hlen, hdata⟩ := hclean i hi hm
      rw [← hprimary] at hlen hdata
      refine ⟨Nat.le_trans hlen le_len_writeAll, fun o ho => ?_⟩
      rw [writeAll_data_out, hdata o ho]
      intro w hw' hc
      have hdirty := (hiveStage_reaches hr.length (hmem w hw') ho hc).1
      rw [(mem_dirty.mp hdirty).2] at hm
      cases hm
    have hlen : hblockSize ≤ ((disk1.writeAll ws) .primary).len := by
      have hfirst : (hiveStage .primary h.dirtyData).header (beginHeader .primary b1) ∈ ws := by
        rw [hws]
        exact mem_cons_self
      simpa [hiveStage] using len_of_mem (d := disk1) hfirst
    rw [← hlog1] at hlogOf
    obtain ⟨g', d', hload, hstorage⟩ := hvLoadHive_recovers hr hclean1 hw hglog hbound hlogOf hlen
      (by rw [hvpVerifyHiveHeader_congr hheader, verify_beginHeader hstep1])
      ((getU32_below hheader (by decide)).trans (htime 12 (by decide) (by decide)))
      ((getU32_below hheader (by decide)).trans (htime 16 (by decide) (by decide))) hpost
    exact ⟨_, hload, .inr rfl, .inr hstorage⟩
  · -- the primary file is complete
    rw [htake, writeAll_append, writeAll_append, ← hdisk1]
    have himage := imageOf_writes (d := disk1) hr (hprimary ▸ hclean) hready1 hstep1
    have hsame : (Disk.writeAll (disk1.writeAll ((hiveStage .primary h.dirtyData).writes b1))
        ((stagesWrites h.alternateStages ((hiveStage .primary h.dirtyData).after b1)).take m))
        .primary = (disk1.writeAll ((hiveStage .primary h.dirtyData).writes b1)) .primary :=
      writeAll_other (fun w hw' => by simp [alternateStages_file (mem_of_mem_take hw')])
    rw [← hsame] at himage
    obtain ⟨g', hload, hstorage⟩ := hvLoadHive_image hw hr himage hpost
    exact ⟨_, hload, .inl rfl, .inr hstorage⟩

/-- The sample image with its cell allocated, in memory. -/
def sampleHive : HHive := plainHive 1 firstMarked (slice (sampleImage 4096 (2 ^ 32 - 4064)) hblockSize)

/-- The sample image, on disk. -/
def sampleDisk : Disk FileType := fun f => if f = .primary then ⟨8192, sampleImage 4096 4064⟩ else ⟨0, zeroBuf⟩

/-- The status of a load. -/
def loadStatus (r : Except FileLoadFault Loaded) : Option LoadStatus :=
  match r with
  | .ok l => some l.status
  | .error _ => none

theorem exists_of_loadStatus {r : Except FileLoadFault Loaded} {status : LoadStatus}
    (h : loadStatus r = some status) : ∃ l, r = .ok l ∧ l.status = status := by
  cases r with
  | error e => cases h
  | ok l => exact ⟨l, rfl, Option.some.inj h⟩

theorem sampleDisk_clean (amd64 : Bool) :
    ∃ pre, hvLoadHive { goodEnv with amd64 := amd64 } sampleHive sampleDisk = .ok pre ∧
      pre.status = .success := by
  apply exists_of_loadStatus
  cases amd64 <;> decide +kernel

theorem sampleHive_loads (amd64 : Bool) :
    ∃ gpost, LoadsAs { goodEnv with amd64 := amd64 } sampleHive sampleHive gpost := by
  have hload : (match hvpInitializeMemoryHive false (fun _ => true) 8192 sampleHive
      (memoryImage zeroBuf sampleHive) zeroBuf with
      | .ok (.success _) => true
      | _ => false) = true := by decide +kernel
  split at hload
  · rename_i g hg
    exact ⟨g, hg⟩
  · cases hload

/-- Once `HvSyncHive` is through, with a log or without one, the files give back the hive as it is
    in memory. -/
theorem sync_then_load {env : LoadEnv} {g h gpost : HHive} {disk : Disk FileType} (low high : Nat)
    (hw : Works env) (hr : Ready h) (hclean : CleanOnDisk h (disk .primary))
    (hpost : LoadsAs env g h gpost) :
    ∃ s g', hvSyncHive (fun _ => .ok) true low high h = some (true, s) ∧
      hvLoadHive env g (disk.writeAll s.trace) = .ok ⟨.success, g', disk.writeAll s.trace⟩ ∧
      g'.storage = gpost.storage := by
  have hstart := hr.syncStart low high
  obtain ⟨s, hcall, htrace⟩ := hvSyncHive_ok hr low high
  obtain ⟨hb, hstep⟩ := stagesBase_ready h.logStages hstart.header hstart.inStep
  have himage := imageOf_writes hr hclean hb hstep
  rw [← primary_writeAll_stages, ← htrace] at himage
  obtain ⟨g', hload, hstorage⟩ := hvLoadHive_image hw hr himage hpost
  exact ⟨s, g', hcall, hload, hstorage⟩

theorem sync_then_load_sample :
    ∃ (s : SyncState) (l : Loaded), hvSyncHive (fun _ => .ok) true 1 0 sampleHive = some (true, s) ∧
      hvLoadHive goodEnv sampleHive (sampleDisk.writeAll s.trace) = .ok l ∧
      l.status = .success := by
  obtain ⟨gpost, hpost⟩ := sampleHive_loads false
  have hworks : Works goodEnv := ⟨rfl, fun _ => rfl, fun _ => rfl, by decide, by decide⟩
  obtain ⟨s, g', hcall, hload, -⟩ := sync_then_load 1 0 hworks (ready_firstMarked _)
    (cleanOnDisk_firstMarked _ (sampleDisk .primary)) hpost
  exact ⟨s, _, hcall, hload, rfl⟩

/-! ## Section 5: The header alone -/

section Header

/-- The exclusive or of the words before the checksum, which becomes the checksum. -/
def headerSum (b : Buf) : Nat := (List.range 127).foldl (fun sum i => sum ^^^ getU32 b (4 * i)) 0

theorem foldl_xor_init (g : Nat → Nat) (l : List Nat) (s : Nat) :
    l.foldl (fun sum i => sum ^^^ g i) s = s ^^^ l.foldl (fun sum i => sum ^^^ g i) 0 := by
  induction l generalizing s with
  | nil => simp
  | cons i l ih =>
    simp only [foldl_cons]
    rw [ih (s ^^^ g i), ih (0 ^^^ g i), Nat.zero_xor, Nat.xor_assoc]

theorem headerSum_setType (b : Buf) : headerSum (setType b 0) = headerSum b ^^^ type b := by
  have hrange : range 127 = range 7 ++ 7 :: (range 119).map (· + 8) := by decide
  have hsame : ∀ l : List Nat, (∀ i ∈ l, i ≠ 7) → ∀ s,
      l.foldl (fun sum i => sum ^^^ getU32 (setType b 0) (4 * i)) s =
        l.foldl (fun sum i => sum ^^^ getU32 b (4 * i)) s := by
    intro l hl s
    refine foldl_xor_congr l s fun i hi => getU32_putU32_ne ?_
    have := hl i hi
    omega
  have hzero : getU32 (setType b 0) (4 * 7) = 0 := getU32_putU32_self b 28 0
  simp only [headerSum, hrange, foldl_append, foldl_cons]
  rw [hsame _ (by decide), hsame _ (by decide), hzero, foldl_xor_init, foldl_xor_init _ _ (_ ^^^ _)]
  generalize foldl _ 0 (range 7) = x
  generalize foldl _ 0 (map _ _) = y
  rw [Nat.xor_zero, Nat.xor_right_comm, Nat.xor_assoc x (getU32 b 28), Nat.xor_self, Nat.xor_zero]

/-- The two highest sums have one checksum, and so have the two lowest. -/
theorem checksum_setType_iff (b : Buf) :
    hvpHiveHeaderChecksum (setType b 0) = hvpHiveHeaderChecksum b ↔
      type b = 0 ∨ type b = 1 ∧
        (headerSum b < 2 ∨ 0xfffffffe ≤ headerSum b) := by
  have hdef : ∀ c, hvpHiveHeaderChecksum c = if (if headerSum c = 0xffffffff then 0xfffffffe
    else headerSum c) = 0 then 1 else if headerSum c = 0xffffffff then 0xfffffffe else headerSum c :=
    fun _ => rfl
  have hlt : headerSum b < 2 ^ 32 := foldl_xor_lt b _ 0 (by decide)
  have hsum := headerSum_setType b
  have htype : type b = headerSum b ^^^ headerSum (setType b 0) := by
    rw [hsum, ← Nat.xor_assoc, Nat.xor_self, Nat.zero_xor]
  rw [hdef, hdef]
  constructor
  · intro heq
    by_cases hsame : headerSum (setType b 0) = headerSum b
    · left
      rw [htype, hsame, Nat.xor_self]
    -- different sums with one checksum
    have hpair : (headerSum b = 0 ∧ headerSum (setType b 0) = 1) ∨
        (headerSum b = 1 ∧ headerSum (setType b 0) = 0) ∨
        (headerSum b = 0xfffffffe ∧ headerSum (setType b 0) = 0xffffffff) ∨
        (headerSum b = 0xffffffff ∧ headerSum (setType b 0) = 0xfffffffe) := by
      grind
    right
    rcases hpair with ⟨h1, h2⟩ | ⟨h1, h2⟩ | ⟨h1, h2⟩ | ⟨h1, h2⟩ <;> rw [htype, h1, h2] <;> decide
  · rintro (hzero | ⟨hone, hend⟩)
    · rw [hsum, hzero, Nat.xor_zero]
    · have hcases : headerSum b = 0 ∨ headerSum b = 1 ∨ headerSum b = 0xfffffffe ∨
          headerSum b = 0xffffffff := by omega
      rw [hsum, hone]
      rcases hcases with h | h | h | h <;> rw [h] <;> decide

/-- A header that was made up passes if the fields passed that were not replaced, and if the type
    was that of a primary file already: it is set after the checksum. -/
theorem verify_resuscitated (b : Buf) (n : Nat) :
    hvpVerifyHiveHeader (setType (resuscitate b n) primary.toNat)
        primary.toNat = true ↔
      major b = 1 ∧ 3 ≤ minor b ∧ HBaseBlock.format b = 1 ∧
        (type b = 0 ∨ type b = 1 ∧
          (headerSum (resuscitate b n) < 2 ∨ 0xfffffffe ≤ headerSum (resuscitate b n))) := by
  show hvpVerifyHiveHeader (setType (resuscitate b n) 0) 0 = true ↔ _
  have hnew : ∀ o, o + 4 ≤ 28 ∨ 32 ≤ o ∧ o + 4 ≤ 508 →
      getU32 (setType (resuscitate b n) 0) o =
        getU32 (setLength (setCluster (setSequence2
          (setSequence1 (setSignature b hvHBlockSignature) 1) 1) 1) n) o := by
    intro o ho
    rw [getU32_putU32_ne (by omega), resuscitate, getU32_sealHeader (by omega)]
  -- what is made up leaves the words from the version to the format alone
  have hold : ∀ o, 12 ≤ o ∧ o + 4 ≤ 40 → getU32 (setLength (setCluster
      (setSequence2 (setSequence1 (setSignature b
        hvHBlockSignature) 1) 1) 1) n) o = getU32 b o := by
    intro o ho
    rw [getU32_putU32_ne (by omega), getU32_putU32_ne (by omega), getU32_putU32_ne (by omega),
      getU32_putU32_ne (by omega), getU32_putU32_ne (by omega)]
  have htype : type (resuscitate b n) = type b := by
    show getU32 (resuscitate b n) 28 = _
    rw [resuscitate, getU32_sealHeader (by omega), hold 28 (by omega)]
  have hsum : checkSum (setType (resuscitate b n) 0) =
      hvpHiveHeaderChecksum (resuscitate b n) := by
    rw [resuscitate, checkSum_sealHeader]
    exact getU32_putU32_ne (by omega)
  have hfields : signature (setType (resuscitate b n) 0) =
        hvHBlockSignature ∧
      cluster (setType (resuscitate b n) 0) = 1 ∧
      sequence1 (setType (resuscitate b n) 0) = 1 ∧
      sequence2 (setType (resuscitate b n) 0) = 1 := by
    refine ⟨(hnew 0 (by omega)).trans ?_, (hnew 44 (by omega)).trans ?_, (hnew 4 (by omega)).trans ?_,
      (hnew 8 (by omega)).trans ?_⟩ <;>
      simp (disch := omega) only [getU32_putU32_ne, getU32_putU32_self, hvHBlockSignature,
        Nat.reducePow, Nat.reduceMod]
  rw [hvpVerifyHiveHeader_iff, hsum, ← htype, ← checksum_setType_iff, hfields.1, hfields.2.1,
    hfields.2.2.1, hfields.2.2.2, show major _ = _ from
      (hnew 20 (by omega)).trans (hold 20 (by omega)),
    show minor _ = _ from (hnew 24 (by omega)).trans (hold 24 (by omega)),
    show HBaseBlock.format _ = _ from (hnew 32 (by omega)).trans (hold 32 (by omega)),
    show type (setType _ _) = 0 from getU32_putU32_self _ 28 0]
  simp only [true_and]

/-- What the buffer holds after the log was read. -/
def bufferFromLog (env : LoadEnv) (d : Disk FileType) : Buf :=
  (env.read 2 (d .log) 0 (env.cluster * hsectorSize) (overlay env.pool 0 hsectorSize zeroBuf)).getD
    (overlay env.pool 0 hsectorSize zeroBuf)

/-- The log has a header that can be used, or one that need not be made up. -/
def Repairable (env : LoadEnv) (d : Disk FileType) (timeLow timeHigh : Nat) : Prop :=
  logHeaderOk (bufferFromLog env d) timeLow timeHigh = true ∨
  HBaseBlock.major (bufferFromLog env d) = 1 ∧ 3 ≤ HBaseBlock.minor (bufferFromLog env d) ∧
    HBaseBlock.format (bufferFromLog env d) = 1 ∧ (HBaseBlock.type (bufferFromLog env d) = 0 ∨
      HBaseBlock.type (bufferFromLog env d) = 1 ∧
        (headerSum (resuscitate (bufferFromLog env d) (hvpQueryHiveSize (d .primary))) < 2 ∨
          0xfffffffe ≤ headerSum (resuscitate (bufferFromLog env d) (hvpQueryHiveSize (d .primary)))))

theorem writeHeaderBack_verify {env : LoadEnv} {d d' : Disk FileType} {b b' : Buf}
    {result result' : Recovery} (hcluster : 0 < env.cluster)
    (hrun : writeHeaderBack env d b result = (result', b', d'))
    (hok : result' = .hiveSuccess ∨ result' = .selfHeal) :
    b' = b ∧ hvpVerifyHiveHeader (d' .primary).data primary.toNat =
      hvpVerifyHiveHeader b primary.toNat := by
  unfold writeHeaderBack at hrun
  split at hrun
  · obtain ⟨rfl, rfl, rfl⟩ := hrun
    refine ⟨rfl, hvpVerifyHiveHeader_congr fun i hi => ?_⟩
    exact write_data_in ⟨rfl, Nat.zero_le _, by simp only [hsectorSize]; omega⟩
  · obtain ⟨rfl, -⟩ := Prod.mk.inj hrun
    simp at hok

/-- The header that was repaired from the log is valid just if the log had a usable header, or what
    was read from it has the version, the format and the type of a primary file. -/
theorem headerRepaired_iff {env : LoadEnv} {d d' : Disk FileType} {timeLow timeHigh : Nat} {b : Buf}
    {result : Recovery} (hcluster : 0 < env.cluster)
    (hrun : hvpRecoverHeaderFromLog env d timeLow timeHigh = (result, b, d'))
    (hok : result = .hiveSuccess ∨ result = .selfHeal) :
    (hvpVerifyHiveHeader b FileType.primary.toNat = true ∧
      hvpVerifyHiveHeader (d' .primary).data FileType.primary.toNat = true) ↔
      Repairable env d timeLow timeHigh := by
  unfold hvpRecoverHeaderFromLog at hrun
  split at hrun
  · obtain ⟨rfl, -⟩ := Prod.mk.inj hrun
    simp at hok
  dsimp only at hrun
  split at hrun
  · -- the header of the log
    rename_i c hc
    obtain ⟨hread, hcok⟩ := Option.filter_eq_some_iff.1 hc
    have hbuffer : bufferFromLog env d = c := by rw [bufferFromLog, hread, Option.getD_some]
    obtain ⟨rfl, hdisk⟩ := writeHeaderBack_verify hcluster hrun hok
    have hverify := verify_setType (Bool.and_eq_true_iff.1 (Bool.and_eq_true_iff.1 hcok).1).1
    rw [hdisk, hverify]
    exact iff_of_true ⟨rfl, rfl⟩ (.inl (by rw [hbuffer]; exact hcok))
  rename_i hc
  split at hrun
  · obtain ⟨rfl, -⟩ := Prod.mk.inj hrun
    simp at hok
  obtain ⟨rfl, hdisk⟩ := writeHeaderBack_verify hcluster hrun hok
  rw [hdisk, and_self]
  refine (verify_resuscitated _ _).trans ⟨.inr, fun h => h.resolve_left fun hlog => ?_⟩
  cases hread : env.read 2 (d .log) 0 (env.cluster * hsectorSize)
      (overlay env.pool 0 hsectorSize zeroBuf) with
  | none =>
    -- a buffer that was not read from the log has no signature
    rw [bufferFromLog, hread, Option.getD_none, logHeaderOk, Bool.and_eq_true_iff,
      Bool.and_eq_true_iff, hvpVerifyHiveHeader_iff] at hlog
    have hsignature := hlog.1.1.1
    rw [HBaseBlock.signature, getU32_overlay_in (by decide) (by decide)] at hsignature
    exact absurd hsignature (by decide)
  | some c =>
    rw [hread, Option.filter_eq_none_iff] at hc
    rw [bufferFromLog, hread, Option.getD_some] at hlog
    exact hc c rfl hlog

/-- A log with a header. -/
def loggedDisk : Disk FileType := fun _ => ⟨8192, sealHeader (HBaseBlock.setType (sampleImage 4096 4064) 1)⟩

set_option maxRecDepth 4000 in
theorem headerRepaired_iff_log : ∃ b d',
    hvpRecoverHeaderFromLog goodEnv loggedDisk 0 0 = (.hiveSuccess, b, d') ∧
    ((hvpVerifyHiveHeader b FileType.primary.toNat = true ∧
      hvpVerifyHiveHeader (d' .primary).data FileType.primary.toNat = true) ↔
      Repairable goodEnv loggedDisk 0 0) := by
  have hresult : (hvpRecoverHeaderFromLog goodEnv loggedDisk 0 0).1 = .hiveSuccess := by decide +kernel
  have hrun : hvpRecoverHeaderFromLog goodEnv loggedDisk 0 0 =
    (.hiveSuccess, (hvpRecoverHeaderFromLog goodEnv loggedDisk 0 0).2) := Prod.ext hresult rfl
  exact ⟨_, _, hrun, headerRepaired_iff (by decide) hrun (.inl rfl)⟩

/-- No log: the header that is made up has no version and is refused. -/
theorem resuscitated_refused :
    (hvpRecoverHeaderFromLog { goodEnv with selfHeal := true } sampleDisk 0 0).1 = .selfHeal ∧
    hvpVerifyHiveHeader (hvpRecoverHeaderFromLog { goodEnv with selfHeal := true } sampleDisk 0 0).2.1
      FileType.primary.toNat = false := by
  decide +kernel

end Header

end Hive
