import Mathlib.Data.List.Nodup
import ReactOS.Hive.Load
import ReactOS.Hive.Retry

/-! # Loading a hive from its files

    `HvLoadHive` of `hiveinit.c` reads the primary file.  If its header is not
    accepted, the header and then the blocks marked in the dirty vector are
    taken from the log first.

    - Section 1 is the code, as the kernel has it.  On AMD64 the recovery is
      not compiled in.
    - Section 2 is the loop over the logged blocks.
    - Section 3 compares what `HvpWriteLog` writes with what
      `HvpRecoverDataFromLog` reads. -/

namespace Hive

open Bytes List HHive

/-! ## Section 1: The code -/

/-- What a load depends on besides the files.  `io` and `alloc` tell which file
    requests and allocations work, by their place in the code; `pool` is what
    a buffer holds before anything is stored there. -/
structure LoadEnv where
  amd64 : Bool
  selfHeal : Bool
  cluster : Nat
  io : Nat → Bool
  alloc : Nat → Bool
  pool : Buf
  fuel : Nat
  fileName : Buf

/-- `FileRead` -/
def LoadEnv.read (env : LoadEnv) (site : Nat) (f : File) (off n : Nat) (buffer : Buf) :
    Option Buf :=
  if env.io site then f.read off n buffer else none

/-- `RESULT`, for the two functions that recover something. -/
inductive Recovery where
  | noMemory
  | fail
  | selfHeal
  | hiveSuccess
  deriving DecidableEq, Repr

/-- The results of `HvpGetHiveHeader`. -/
inductive HeaderResult where
  | noMemory
  | notHive
  | recoverHeader (timeLow timeHigh : Nat)
  | hiveSuccess (b : Buf)

/-- `HvpGetHiveHeader`; the fault is its assertion. -/
def hvpGetHiveHeader (env : LoadEnv) (d : Disk FileType) : Option HeaderResult :=
  if hblockSize < hsectorSize * env.cluster then none
  else if !env.alloc 0 then some .noMemory
  else
    match env.read 0 (d .primary) 0 (env.cluster * hsectorSize) zeroBuf with
    | none =>
      match env.read 1 (d .primary) hblockSize (env.cluster * hsectorSize) zeroBuf with
      | none => some .notHive
      | some b =>
        -- the buffer is looked at as a bin now
        if getU32 b 0 ≠ hvHBinSignature || getU32 b 4 ≠ 0 then some .notHive
        else some (.recoverHeader (HBaseBlock.timeStampLow b) (HBaseBlock.timeStampHigh b))
    | some b =>
      if !hvpVerifyHiveHeader b FileType.primary.toNat then
        some (.recoverHeader (HBaseBlock.timeStampLow b) (HBaseBlock.timeStampHigh b))
      else some (.hiveSuccess b)

/-- `HvpQueryHiveSize` -/
def hvpQueryHiveSize (f : File) : Nat := (f.len + 2 ^ 32 - hblockSize) % 2 ^ 32

/-- The header that self-healing makes up. -/
def resuscitate (b : Buf) (hiveSize : Nat) : Buf :=
  let b := HBaseBlock.setSignature b hvHBlockSignature
  let b := HBaseBlock.setSequence1 b 1
  let b := HBaseBlock.setSequence2 b 1
  let b := HBaseBlock.setCluster b 1
  let b := HBaseBlock.setLength b hiveSize
  sealHeader b

/-- The end of `HvpRecoverHeaderFromLog`: the header is written back. -/
def writeHeaderBack (env : LoadEnv) (d : Disk FileType) (b : Buf) (result : Recovery) :
    Recovery × Buf × Disk FileType :=
  if env.io 3 then (result, b, d.write ⟨.primary, 0, env.cluster * hsectorSize, b⟩)
  else (.fail, b, d)

/-- The header that was read from the log is usable. -/
def logHeaderOk (b : Buf) (timeLow timeHigh : Nat) : Bool :=
  hvpVerifyHiveHeader b FileType.log.toNat && decide (timeHigh = HBaseBlock.timeStampHigh b) &&
    decide (timeLow = HBaseBlock.timeStampLow b)

/-- `HvpRecoverHeaderFromLog`.  Only the first sector of the buffer is cleared,
    and a short read leaves the rest as it was. -/
def hvpRecoverHeaderFromLog (env : LoadEnv) (d : Disk FileType) (timeLow timeHigh : Nat) :
    Recovery × Buf × Disk FileType :=
  if !env.alloc 1 then (.noMemory, zeroBuf, d)
  else
    let buffer := overlay env.pool 0 hsectorSize zeroBuf
    match (env.read 2 (d .log) 0 (env.cluster * hsectorSize) buffer).filter
        (logHeaderOk · timeLow timeHigh) with
    | some b =>
      writeHeaderBack env d (sealHeader (HBaseBlock.setType b FileType.primary.toNat)) .hiveSuccess
    | none =>
      let b := (env.read 2 (d .log) 0 (env.cluster * hsectorSize) buffer).getD buffer
      if !env.selfHeal || hvpQueryHiveSize (d .primary) = 0 then (.fail, b, d)
      else
        writeHeaderBack env d
          (HBaseBlock.setType (resuscitate b (hvpQueryHiveSize (d .primary))) FileType.primary.toNat)
          .selfHeal

/-- The loop of `HvpRecoverDataFromLog`, with `n` blocks still to look at.  The
    fault is a load from behind the 512 bytes of `DirtyVector`. -/
def recoverBlocks (env : LoadEnv) (dirtyVector : Buf) :
    Nat → Nat → Nat → Buf → Disk FileType → Option (Recovery × Disk FileType)
  | 0, _, _, _, d => some (.hiveSuccess, d)
  | n + 1, blockIndex, logIndex, buffer, d =>
    if hsectorSize ≤ blockIndex + 4 then none
    else if dirtyVector (blockIndex + 4) ≠ hvLogDirtyBlock then
      recoverBlocks env dirtyVector n (blockIndex + 1) logIndex buffer d
    else
      match env.read (6 + 2 * logIndex) (d .log)
          ((hsectorSize + hsectorSize + logIndex * hblockSize) % 2 ^ 32) hblockSize buffer with
      | none => some (.fail, d)
      | some buffer =>
        if env.io (7 + 2 * logIndex) then
          recoverBlocks env dirtyVector n (blockIndex + 1) (logIndex + 1) buffer
            (d.write ⟨.primary, (hblockSize + blockIndex * hblockSize) % 2 ^ 32, hblockSize, buffer⟩)
        else some (.fail, d)

/-- `HvpRecoverDataFromLog` -/
def hvpRecoverDataFromLog (env : LoadEnv) (d : Disk FileType) (b : Buf) :
    Option (Recovery × Disk FileType) :=
  match env.read 4 (d .log) hvLogHeaderSize hsectorSize env.pool with
  | none => some (if env.selfHeal then .selfHeal else .fail, d)
  | some dirtyVector =>
    if getU32 dirtyVector 0 ≠ hvLogDirtySignature then
      some (if env.selfHeal then .selfHeal else .fail, d)
    else recoverBlocks env dirtyVector (HBaseBlock.length b / hblockSize) 0 0 env.pool d

/-- The `NTSTATUS` of `HvLoadHive`. -/
inductive LoadStatus where
  | success
  | recovered
  | registryCorrupt
  | insufficientResources
  | notRegistryFile
  deriving DecidableEq, Repr

/-- A load that does not come to an end as it should. -/
inductive FileLoadFault where
  | assertion
  | dirtyVector
  | memory (e : LoadFault)
  deriving DecidableEq, Repr

/-- The status, the hive and the files that a load leaves. -/
structure Loaded where
  status : LoadStatus
  hive : HHive
  disk : Disk FileType

/-- The second half of `HvLoadHive`: read the whole hive, whose base block is
    `b`, and build it in memory. -/
def loadWhole (env : LoadEnv) (h : HHive) (d : Disk FileType) (b : Buf) (done : LoadStatus) :
    Except FileLoadFault Loaded :=
  let fileSize := (hblockSize + HBaseBlock.length b) % 2 ^ 32
  if !env.alloc 2 then .ok ⟨.insufficientResources, h, d⟩
  else
    match env.read 5 (d .primary) 0 fileSize env.pool with
    | none => .ok ⟨.notRegistryFile, h, d⟩
    | some hiveData =>
      match hvpInitializeMemoryHive env.selfHeal (fun i => env.alloc (i + 3)) env.fuel h hiveData
          env.fileName with
      | .error e => .error (.memory e)
      | .ok .corrupt => .ok ⟨.registryCorrupt, h, d⟩
      | .ok .noMemory => .ok ⟨.insufficientResources, h, d⟩
      | .ok (.success h) => .ok ⟨done, h, d⟩

/-- `HvLoadHive` -/
def hvLoadHive (env : LoadEnv) (h : HHive) (d : Disk FileType) : Except FileLoadFault Loaded :=
  match hvpGetHiveHeader env d with
  | none => .error .assertion
  | some .noMemory => .ok ⟨.insufficientResources, h, d⟩
  | some .notHive => .ok ⟨.notRegistryFile, h, d⟩
  | some (.hiveSuccess b) => loadWhole env h d b .success
  | some (.recoverHeader timeLow timeHigh) =>
    if env.amd64 || !h.log then .ok ⟨.registryCorrupt, h, d⟩
    else
      match hvpRecoverHeaderFromLog env d timeLow timeHigh with
      | (.noMemory, _, d) => .ok ⟨.insufficientResources, h, d⟩
      | (.fail, _, d) => .ok ⟨.registryCorrupt, h, d⟩
      | (_, b, d) =>
        match hvpRecoverDataFromLog env d b with
        | none => .error .dirtyVector
        | some (.fail, d) => .ok ⟨.registryCorrupt, h, d⟩
        | some (_, d) => loadWhole env h d b .recovered

/-! ## Section 2: The loop over the logged blocks -/

/-- The writes of the loop: block `rest[k]` gets what is at place `j + k` of the
    log. -/
def recoveredWrites (log : File) (j : Nat) (rest : List Nat) : List (Write FileType) :=
  (rest.zipIdx j).map (fun p =>
    ⟨.primary, (p.1 + 1) * hblockSize, hblockSize, slice log.data (1024 + p.2 * hblockSize)⟩)

section Loop

variable {env : LoadEnv} {vector buffer : Buf} {d : Disk FileType} {log : File} {n i j : Nat}

/-- Two writes that agree on the bytes they write are the same. -/
theorem write_congr {file : FileType} {off len : Nat} {src src' : Buf}
    (h : ∀ k, k < len → src k = src' k) :
    d.write ⟨file, off, len, src⟩ = d.write ⟨file, off, len, src'⟩ := by
  funext f
  simp only [Disk.write]
  rw [overlay_congr h]

theorem read_eq (hio : ∀ k, env.io k = true) {f : File} {site off len : Nat} (h : off < f.len) :
    env.read site f off len buffer =
      some (fun k => if k < len ∧ off + k < f.len then f.data (off + k) else buffer k) := by
  simp [LoadEnv.read, hio, File.read, h]

/-- The loop writes every marked block, in order, and leaves the log alone. -/
theorem recoverBlocks_eq (hio : ∀ k, env.io k = true) {p : Nat → Bool} (hlog : d .log = log)
    (hbound : i + n ≤ 508) (hj : j ≤ i)
    (hvector : ∀ x, i ≤ x → x < i + n → (vector (x + 4) = hvLogDirtyBlock ↔ p x = true))
    (hlen : 1024 + (j + ((range' i n).filter p).length) * hblockSize ≤ log.len) :
    recoverBlocks env vector n i j buffer d =
      some (.hiveSuccess, d.writeAll (recoveredWrites log j ((range' i n).filter p))) := by
  induction n generalizing i j buffer d with
  | zero => rfl
  | succ n ih =>
    have hlast : ¬ hsectorSize ≤ i + 4 := by simp only [hsectorSize]; omega
    rw [range'_succ] at hlen ⊢
    unfold recoverBlocks
    rw [if_neg hlast]
    by_cases hp : p i = true
    · have hmark := (hvector i (Nat.le_refl i) (by omega)).mpr hp
      rw [filter_cons_of_pos hp] at hlen ⊢
      rw [length_cons, ← Nat.add_assoc, Nat.add_right_comm] at hlen
      have hroom : 1024 + j * hblockSize + hblockSize ≤ log.len := by
        simp only [hblockSize] at hlen ⊢
        omega
      -- neither offset wraps around
      have hoff : (hsectorSize + hsectorSize + j * hblockSize) % 2 ^ 32 = 1024 + j * hblockSize :=
        Nat.mod_eq_of_lt (by simp only [hsectorSize, hblockSize]; omega)
      have hoff' : (hblockSize + i * hblockSize) % 2 ^ 32 = (i + 1) * hblockSize := by
        simp only [hblockSize]
        omega
      rw [if_neg (by simp [hmark]), hlog, hoff,
        read_eq hio (by simp only [hblockSize] at hroom ⊢; omega), hoff']
      simp only [hio, if_true]
      -- the block is read as a whole
      rw [@write_congr d .primary ((i + 1) * hblockSize) hblockSize _
        (slice log.data (1024 + j * hblockSize)) (by
          intro k hk
          rw [slice_apply, if_pos ⟨hk, by omega⟩])]
      exact ih (by simpa [Disk.write] using hlog) (by omega) (by omega)
        (fun x hx hx' => hvector x (by omega) (by omega)) hlen
    · have hmark : vector (i + 4) ≠ hvLogDirtyBlock := fun h =>
        hp ((hvector i (Nat.le_refl i) (by omega)).mp h)
      rw [filter_cons_of_neg hp] at hlen ⊢
      rw [if_pos hmark]
      exact ih hlog (by omega) (by omega) (fun x hx hx' => hvector x (by omega) (by omega)) hlen

/-- With more blocks than the vector on the stack has entries the loop does not
    succeed. -/
theorem recoverBlocks_overrun {d' : Disk FileType} (hi : i ≤ 508) (hbound : 508 < i + n) :
    recoverBlocks env vector n i j buffer d ≠ some (.hiveSuccess, d') := by
  induction n generalizing i j buffer d with
  | zero => omega
  | succ n ih =>
    unfold recoverBlocks
    by_cases hlast : hsectorSize ≤ i + 4
    · simp [hlast]
    rw [if_neg hlast]
    simp only [hsectorSize] at hlast
    split
    · exact ih (by omega) (by omega)
    split
    · simp
    · split
      · exact ih (by omega) (by omega)
      · simp

theorem mem_recoveredWrites {rest : List Nat} {w : Write FileType} :
    w ∈ recoveredWrites log j rest ↔ ∃ k, ∃ hk : k < rest.length,
      w = ⟨.primary, (rest[k] + 1) * hblockSize, hblockSize,
        slice log.data (1024 + (j + k) * hblockSize)⟩ := by
  simp only [recoveredWrites, mem_map]
  constructor
  · grind
  · rintro ⟨k, hk, rfl⟩
    refine ⟨(rest[k], j + k), ?_, rfl⟩
    rw [mk_mem_zipIdx_iff_le_and_getElem?_sub]
    simp [hk]

theorem recoveredWrites_dirty {rest : List Nat} (hnodup : rest.Nodup) {k o : Nat}
    (hk : k < rest.length) (ho : o < hblockSize) :
    ((d.writeAll (recoveredWrites log j rest)) .primary).data ((rest[k] + 1) * hblockSize + o) =
      log.data (1024 + (j + k) * hblockSize + o) := by
  apply writeAll_data_in
  · refine ⟨_, mem_recoveredWrites.mpr ⟨k, hk, rfl⟩, rfl, Nat.le_add_right _ _, ?_⟩
    exact Nat.add_lt_add_left ho _
  intro w hw hc
  obtain ⟨m, hm, rfl⟩ := mem_recoveredWrites.mp hw
  obtain ⟨_, h1, h2⟩ := hc
  have hsame : rest[k] = rest[m] := by
    simp only [hblockSize] at h1 h2 ho
    omega
  have hkm : k = m := (hnodup.getElem_inj_iff).mp hsame
  subst hkm
  show log.data (_ + _) = _
  rw [Nat.add_sub_cancel_left]

theorem recoveredWrites_clean {rest : List Nat} {b o : Nat} (hb : b ∉ rest) (ho : o < hblockSize) :
    ((d.writeAll (recoveredWrites log j rest)) .primary).data ((b + 1) * hblockSize + o) =
      (d .primary).data ((b + 1) * hblockSize + o) := by
  apply writeAll_data_out
  intro w hw hc
  obtain ⟨m, hm, rfl⟩ := mem_recoveredWrites.mp hw
  obtain ⟨_, h1, h2⟩ := hc
  have hsame : b = rest[m] := by
    simp only [hblockSize] at h1 h2 ho
    omega
  exact hb (hsame ▸ getElem_mem hm)

end Loop

/-! ## Section 3: What the log holds -/

section Log

variable {size : Nat} {data : List (Nat × Buf)} {b : Buf} {d : Disk FileType}

theorem logHeader_mark (b : Buf) (dirty : List Nat) (i : Nat) :
    logHeader b dirty (516 + i) = if i ∈ dirty then hvLogDirtyBlock else 0 := by
  -- marking more blocks changes the byte iff the block is one of them
  have hfold : ∀ (l : List Nat) (p : Buf),
      l.foldl (fun p i => overlay p (hvLogHeaderSize + 4 + i) 1 (fun _ => hvLogDirtyBlock)) p (516 + i)
        = if i ∈ l then hvLogDirtyBlock else p (516 + i) := by
    intro l
    induction l with
    | nil => simp
    | cons j l ih =>
      intro p
      rw [foldl_cons, ih]
      by_cases hij : i = j
      · subst hij
        simp [overlay]
      · have hout : overlay p (hvLogHeaderSize + 4 + j) 1 (fun _ => hvLogDirtyBlock) (516 + i)
            = p (516 + i) := overlay_out (by simp only [hvLogHeaderSize]; omega)
        simp [hij, hout]
  unfold logHeader
  rw [hfold, putU32_out (by simp only [hvLogHeaderSize]; omega),
    overlay_out (by simp only [hvLogHeaderSize]; omega)]
  rfl

theorem logHeader_signature (b : Buf) (dirty : List Nat) :
    getU32 (logHeader b dirty) 512 = hvLogDirtySignature := by
  have hfold : ∀ (l : List Nat) (p : Buf),
      getU32 (l.foldl (fun p i => overlay p (hvLogHeaderSize + 4 + i) 1 (fun _ => hvLogDirtyBlock)) p) 512
        = getU32 p 512 := by
    intro l
    induction l with
    | nil => simp
    | cons j l ih =>
      intro p
      rw [foldl_cons, ih, getU32_overlay_out (by simp only [hvLogHeaderSize]; omega)]
  unfold logHeader
  rw [hfold, getU32_putU32_self]
  rfl

theorem mem_logWrites {w : Write FileType}
    (hfit : logBufferSize size + data.length * hblockSize ≤ 2 ^ 32) :
    w ∈ (logStage size data).blocks ↔ ∃ k, ∃ hk : k < data.length,
      w = ⟨.log, logBufferSize size + k * hblockSize, hblockSize, data[k].2⟩ := by
  have hoff : ∀ k < data.length, (logBufferSize size + k * hblockSize) % 2 ^ 32 =
      logBufferSize size + k * hblockSize := fun k hk =>
    Nat.mod_eq_of_lt (by simp only [hblockSize] at hfit ⊢; omega)
  simp only [logStage, logWrites, mem_map]
  constructor
  · grind
  · rintro ⟨k, hk, rfl⟩
    refine ⟨(data[k], k), ?_, by rw [hoff k hk]⟩
    rw [mk_mem_zipIdx_iff_getElem?]
    simp [hk]

section Fitting

variable (hfit : logBufferSize size + data.length * hblockSize ≤ 2 ^ 32)

include hfit

theorem logWrites_mem {k : Nat} (hk : k < data.length) :
    (⟨.log, logBufferSize size + k * hblockSize, hblockSize, data[k].2⟩ : Write FileType) ∈
      (logStage size data).writes b :=
  Stage.mem_writes.mpr (.inr (.inl ((mem_logWrites hfit).mpr ⟨k, hk, rfl⟩)))

/-- The sectors of the dirty vector are those of the first write. -/
theorem log_vector {x : Nat}
    (hx : hvLogHeaderSize ≤ x) (hx' : x < logBufferSize size) :
    ((d.writeAll ((logStage size data).writes b)) .log).data x =
      logHeader (beginHeader .log b) (data.map Prod.fst) x := by
  apply writeAll_data_in
  · refine ⟨_, mem_cons_self, rfl, Nat.zero_le _, ?_⟩
    simpa [logStage] using hx'
  intro w hw hc
  obtain ⟨_, h1, h2⟩ := hc
  rcases Stage.mem_writes.mp hw with rfl | hw | rfl
  · rfl
  · obtain ⟨k, hk, rfl⟩ := (mem_logWrites hfit).mp hw
    simp only at h1
    omega
  · simp only [logStage] at h2
    omega

theorem log_block {k o : Nat}
    (hsize : hvLogHeaderSize ≤ logBufferSize size) (hk : k < data.length) (ho : o < hblockSize) :
    ((d.writeAll ((logStage size data).writes b)) .log).data
      (logBufferSize size + k * hblockSize + o) = data[k].2 o := by
  apply writeAll_data_in
  · exact ⟨_, logWrites_mem hfit hk, rfl, Nat.le_add_right _ _, Nat.add_lt_add_left ho _⟩
  intro w hw hc
  obtain ⟨_, h1, h2⟩ := hc
  rcases Stage.mem_writes.mp hw with rfl | hw | rfl
  · simp only [logStage, Nat.zero_add] at h2
    omega
  · obtain ⟨m, hm, rfl⟩ := (mem_logWrites hfit).mp hw
    have hkm : k = m := by
      simp only [hblockSize] at h1 h2 ho
      omega
    subst hkm
    rw [Nat.add_sub_cancel_left]
  · simp only [logStage, Nat.zero_add] at h2
    omega

theorem log_len :
    logBufferSize size + data.length * hblockSize ≤
      ((d.writeAll ((logStage size data).writes b)) .log).len := by
  cases hlen : data.length with
  | zero =>
    have hmem : (logStage size data).header (beginHeader .log b) ∈ (logStage size data).writes b :=
      mem_cons_self
    simpa [logStage] using len_of_mem (d := d) hmem
  | succ n =>
    have hn : n < data.length := by omega
    have hend := len_of_mem (d := d) (logWrites_mem (b := b) hfit hn)
    rw [Nat.add_mul, Nat.one_mul, ← Nat.add_assoc]
    exact hend

end Fitting

end Log

/-! ## Section 4: The round trip -/

/-- The log has a dirty vector for the marks of `bm` in the place where it is
    looked for, and room for as many blocks behind it. -/
structure HasVector (log : File) (bm : RtlBitmap) (length : Nat) : Prop where
  room : 1024 + (bm.marks length 0).length * hblockSize ≤ log.len
  signature : getU32 log.data 512 = hvLogDirtySignature
  marks : ∀ i, i < length → (log.data (516 + i) = hvLogDirtyBlock ↔ bm.marked i = true)

section RoundTrip

variable {env : LoadEnv} {bm : RtlBitmap} {length : Nat} {d : Disk FileType} {b : Buf} {h : HHive}

theorem hvpRecoverDataFromLog_eq (hio : ∀ k, env.io k = true)
    (hvector : HasVector (d .log) bm length) (hlength : HBaseBlock.length b = length * hblockSize)
    (hbound : length ≤ 508) :
    hvpRecoverDataFromLog env d b =
      some (.hiveSuccess, d.writeAll (recoveredWrites (d .log) 0 (bm.marks length 0))) := by
  have hroom := hvector.room
  have hread : ∀ k, k < 512 →
      (if k < hsectorSize ∧ hvLogHeaderSize + k < (d .log).len
        then (d .log).data (hvLogHeaderSize + k) else env.pool k) = (d .log).data (512 + k) := by
    intro k hk
    exact if_pos ⟨hk, by simp only [hvLogHeaderSize]; omega⟩
  have hsig : getU32 (fun k => if k < hsectorSize ∧ hvLogHeaderSize + k < (d .log).len
      then (d .log).data (hvLogHeaderSize + k) else env.pool k) 0 = hvLogDirtySignature := by
    rw [← hvector.signature]
    exact getU32_congr (fun k hk => by simpa using hread k (by omega))
  unfold hvpRecoverDataFromLog
  rw [read_eq hio (by simp only [hvLogHeaderSize]; omega)]
  simp only [hsig, ne_eq, not_true_eq_false, if_false]
  rw [hlength, Nat.mul_div_cancel _ (by decide : 0 < hblockSize)]
  apply recoverBlocks_eq hio rfl (by omega) (Nat.le_refl 0)
  · intro x _ hx
    rw [← hvector.marks x (by omega), hread (x + 4) (by omega),
      show 512 + (x + 4) = 516 + x by omega]
  · simpa [RtlBitmap.marks] using hroom

theorem marks_nodup (bm : RtlBitmap) (length i : Nat) : (bm.marks length i).Nodup :=
  List.Nodup.filter _ nodup_range'

theorem blocks_eq_some {l : List Nat} {data : List (Nat × Buf)} (hdata : h.blocks l = some data) :
    data = l.map (fun i => (i, h.blockData i)) := by
  induction l generalizing data with
  | nil =>
    cases hdata
    rfl
  | cons i l ih =>
    unfold blocks at hdata ih
    rw [mapM_cons] at hdata
    simp only [Option.bind_eq_bind, Option.bind_eq_some_iff, Option.map_eq_some_iff] at hdata
    obtain ⟨p, ⟨c, hc, rfl⟩, rest, hrest, hlast⟩ := hdata
    cases hlast
    rw [ih hrest]
    simp [blockData, hc]

theorem hvpWriteLog_true {io : Nat → Outcome} {alloc : Bool} {s s' : SyncState}
    (hwrite : hvpWriteLog io alloc s = some (true, s')) :
    baseHeaderValid s.hive = true ∧
    dirtyBlocks s.hive.dirtyVector s.hive.stableLength = some s.hive.dirty ∧
    s'.trace = s.trace ++
      (logStage s.hive.dirtyVector.sizeOfBitMap s.hive.dirtyData).writes s.hive.baseBlock := by
  unfold hvpWriteLog at hwrite
  split at hwrite
  · cases hwrite
  rename_i hvalid
  split at hwrite
  · cases hwrite
  split at hwrite
  · cases hwrite
  simp only [Option.bind_eq_bind, Option.bind_eq_some_iff] at hwrite
  obtain ⟨dirty, hdirty, data, hdata, hstage⟩ := hwrite
  split at hstage
  · cases hstage
  have hd : dirty = s.hive.dirty := dirtyBlocks_eq_some hdirty
  have hdata' : data = s.hive.dirtyData := by
    rw [blocks_eq_some hdata, hd]
    rfl
  rw [hd] at hdirty
  rw [hdata'] at hstage
  have htrue : ((logStage s.hive.dirtyVector.sizeOfBitMap s.hive.dirtyData).write io s).1 = true := by
    rw [Option.some.inj hstage]
  refine ⟨by simpa using hvalid, hdirty, ?_⟩
  rw [Stage.write_true htrue] at hstage
  cases hstage
  rfl

theorem dirtyData_length (h : HHive) : h.dirtyData.length = h.dirty.length := by
  simp [dirtyData]

theorem dirtyData_fst (h : HHive) : h.dirtyData.map Prod.fst = h.dirty := by
  simp [dirtyData, Function.comp_def]

theorem length_dirty_le (h : HHive) : h.dirty.length ≤ h.stableLength := by
  have := length_filter_le h.dirtyVector.marked (range' 0 (h.stableLength - 0))
  simpa [dirty, RtlBitmap.marks] using this

/-- The log of a hive whose sizes are inside the index space does not wrap
    around. -/
theorem log_fit (hL : h.stableLength ≤ 2 ^ 19) (hS : h.dirtyVector.sizeOfBitMap ≤ 2 ^ 20) :
    logBufferSize h.dirtyVector.sizeOfBitMap + h.dirtyData.length * hblockSize ≤ 2 ^ 32 := by
  have hle := length_dirty_le h
  rw [dirtyData_length, logBufferSize_eq hS]
  simp only [hblockSize]
  omega

/-- The dirty vector of a log that has been written is found, as far as it is
    in the first sector. -/
theorem hasVector_log (hL : h.stableLength ≤ 2 ^ 19) (hS : h.dirtyVector.sizeOfBitMap ≤ 2 ^ 20)
    (hbound : h.stableLength ≤ 508) :
    HasVector ((d.writeAll
      ((logStage h.dirtyVector.sizeOfBitMap h.dirtyData).writes b)) .log) h.dirtyVector
      h.stableLength := by
  have hfit := log_fit hL hS
  have hge : 1024 ≤ logBufferSize h.dirtyVector.sizeOfBitMap := by
    rw [logBufferSize_eq hS]
    omega
  have hvec : ∀ x, 512 ≤ x → x < 1024 →
      ((d.writeAll ((logStage h.dirtyVector.sizeOfBitMap h.dirtyData).writes b)) .log).data x =
        logHeader (beginHeader .log b) h.dirty x := by
    intro x hx hx'
    rw [log_vector hfit hx (by omega), dirtyData_fst]
  constructor
  · have hlen := log_len (b := b) (d := d) hfit
    rw [dirtyData_length] at hlen
    exact Nat.le_trans (Nat.add_le_add_right hge _) hlen
  · rw [← logHeader_signature (beginHeader .log b) h.dirty]
    exact getU32_congr (fun k hk => hvec (512 + k) (by omega) (by omega))
  · intro i hi
    rw [hvec (516 + i) (by omega) (by omega), logHeader_mark]
    by_cases hm : h.dirtyVector.marked i = true
    · rw [if_pos (mem_dirty.mpr ⟨hi, hm⟩)]
      simp [hm]
    · rw [if_neg (fun hd => hm (mem_dirty.mp hd).2)]
      exact iff_of_false (by decide) hm

end RoundTrip

/-- Writing the log of a hive with `length` blocks and dirty vector `bm`, and
    recovering the blocks from it over an older image `d`, gives the blocks of
    the hive where `bm` has a mark and those of the image elsewhere. -/
def RoundTrips (length : Nat) (bm : RtlBitmap) : Prop :=
  ∀ (io : Nat → Outcome) (alloc : Bool) (h : HHive) (s : SyncState) (env : LoadEnv)
    (d : Disk FileType) (b : Buf),
    h.stableLength = length → h.dirtyVector = bm → (∀ k, env.io k = true) →
    hvpWriteLog io alloc ⟨h, [], 0⟩ = some (true, s) →
    HBaseBlock.length b = HBaseBlock.length h.baseBlock →
    ∃ d', hvpRecoverDataFromLog env (d.writeAll s.trace) b = some (.hiveSuccess, d') ∧
      ∀ i o, i < length → o < hblockSize →
        (d' .primary).data ((i + 1) * hblockSize + o) =
          if bm.marked i then h.blockData i o else (d .primary).data ((i + 1) * hblockSize + o)

section Exact

variable {bm : RtlBitmap} {length : Nat}

theorem length_baseBlock {h : HHive} (hvalid : baseHeaderValid h = true)
    (hL : h.stableLength ≤ 2 ^ 19) :
    HBaseBlock.length h.baseBlock = h.stableLength * hblockSize := by
  have hlt : h.stableLength * hblockSize < 2 ^ 32 := by
    simp only [hblockSize]
    omega
  simp only [baseHeaderValid, Bool.and_eq_true, decide_eq_true_eq] at hvalid
  exact hvalid.1.1.1.trans (Nat.mod_eq_of_lt hlt)

/-- One sector is enough for the dirty vector, or there is nothing in it. -/
theorem roundTrips_of_fits (hL : length ≤ 508) (hS : bm.sizeOfBitMap ≤ 2 ^ 20)
    (hfits : 4 + bm.sizeOfBitMap ≤ 512 ∨ ∀ i, i < length → bm.marked i = false) :
    RoundTrips length bm := by
  intro io alloc h s env d b hlength hbm hio hwrite hb
  subst hlength hbm
  obtain ⟨hvalid, _, htrace⟩ := hvpWriteLog_true hwrite
  have htrace' : s.trace =
      (logStage h.dirtyVector.sizeOfBitMap h.dirtyData).writes h.baseBlock := by simpa using htrace
  have hlen := hb.trans (length_baseBlock hvalid (by omega))
  have hvector := @hasVector_log d h.baseBlock h (by omega) hS hL
  rw [htrace']
  refine ⟨_, hvpRecoverDataFromLog_eq hio hvector hlen hL, ?_⟩
  intro i o hi ho
  by_cases hm : h.dirtyVector.marked i = true
  · -- the block is at the same place in the log for both sides
    have hsize : logBufferSize h.dirtyVector.sizeOfBitMap = 1024 := by
      rcases hfits with hfits | hnone
      · rw [logBufferSize_eq hS]
        omega
      · rw [hnone i hi] at hm
        cases hm
    obtain ⟨k, hk, hki⟩ := getElem_of_mem (mem_dirty.mpr ⟨hi, hm⟩)
    rw [if_pos hm]
    have hk' : k < h.dirtyData.length := by rw [dirtyData_length]; exact hk
    have hblock := log_block (b := h.baseBlock) (d := d) (log_fit (by omega) hS)
      (by rw [hsize]; decide) hk' ho
    rw [hsize] at hblock
    rw [← hki]
    refine (recoveredWrites_dirty (marks_nodup h.dirtyVector h.stableLength 0) hk ho).trans ?_
    rw [Nat.zero_add, hblock]
    simp [dirtyData]
  · rw [if_neg hm, recoveredWrites_clean (by
      rw [mem_marks]
      exact fun h' => hm h'.2.2) ho]
    rw [writeAll_other (fun w hw => by simp [logStage_file hw])]

theorem hvpWriteLog_plainHive (data : Buf) (hL : length ≤ 2 ^ 19) (hS : bm.sizeOfBitMap ≤ 2 ^ 20)
    (hwalk : ¬ (0 < length ∧ bm.Stray length)) :
    ∃ s, hvpWriteLog (fun _ => .ok) true ⟨plainHive length bm data, [], 0⟩ = some (true, s) := by
  have hready := freshBase_ready hL
  have hlt : length * hblockSize < 2 ^ 32 := by simp only [hblockSize]; omega
  have hvalid : baseHeaderValid (plainHive length bm data) = true := by
    simp only [baseHeaderValid, Bool.and_eq_true, decide_eq_true_eq]
    exact ⟨⟨⟨hready.length.trans (Nat.mod_eq_of_lt hlt).symm, hready.signature⟩, hready.format⟩,
      hready.major⟩
  have hdirty : dirtyBlocks bm length = some (plainHive length bm data).dirty := by
    cases hd : dirtyBlocks bm length with
    | none => exact absurd (dirtyBlocks_eq_none.mp hd) hwalk
    | some l => rw [dirtyBlocks_eq_some hd]; rfl
  have hblocks : (plainHive length bm data).blocks (plainHive length bm data).dirty =
      some (plainHive length bm data).dirtyData := by
    apply blocks_eq
    intro i hi
    rw [block_plainHive (show i < length from (mem_dirty.mp hi).1)]
    rfl
  have hwrite := @hvpWriteLog_of (fun _ => .ok) ⟨plainHive length bm data, [], 0⟩ hvalid
    (freshBase_inStep length) hS hdirty hblocks
  have htrue := @Stage.write_ok (fun _ => .ok)
    (logStage bm.sizeOfBitMap (plainHive length bm data).dirtyData)
    ⟨plainHive length bm data, [], 0⟩ (fun _ _ _ => rfl)
  exact ⟨_, hwrite.trans (congrArg some (Prod.ext htrue rfl))⟩

/-- An environment in which everything works. -/
def goodEnv : LoadEnv where
  amd64 := false
  selfHeal := false
  cluster := 1
  io := fun _ => true
  alloc := fun _ => true
  pool := zeroBuf
  fuel := 8192
  fileName := zeroBuf

section

variable (hS : bm.sizeOfBitMap ≤ 2 ^ 20) (hwalk : ¬ (0 < length ∧ bm.Stray length))

include hS hwalk

theorem not_roundTrips_of_long (hL : length ≤ 2 ^ 19) (hlong : 508 < length) :
    ¬ RoundTrips length bm := by
  intro hround
  obtain ⟨s, hwrite⟩ := hvpWriteLog_plainHive (fun _ => 1) hL hS hwalk
  obtain ⟨d', hrec, _⟩ := hround _ _ _ s goodEnv (fun _ => ⟨0, zeroBuf⟩)
    (freshBase length) rfl rfl (fun _ => rfl) hwrite rfl
  unfold hvpRecoverDataFromLog at hrec
  split at hrec
  · simp [goodEnv] at hrec
  split at hrec
  · simp [goodEnv] at hrec
  · rw [(freshBase_ready hL).length, Nat.mul_div_cancel _ (by decide : 0 < hblockSize)] at hrec
    exact recoverBlocks_overrun (Nat.zero_le _) (by omega) hrec

/-- A dirty vector of more than one sector: the first logged block is taken
    from the second sector of the vector. -/
theorem not_roundTrips_of_wide (hL : length ≤ 508) (hwide : 512 < 4 + bm.sizeOfBitMap)
    (hdirty : ∃ i, i < length ∧ bm.marked i = true) : ¬ RoundTrips length bm := by
  intro hround
  obtain ⟨s, hwrite⟩ := hvpWriteLog_plainHive (fun _ => 1) (by omega : length ≤ 2 ^ 19) hS hwalk
  obtain ⟨d', hrec, hblocks⟩ := hround _ _ _ s goodEnv (fun _ => ⟨0, zeroBuf⟩)
    (freshBase length) rfl rfl (fun _ => rfl) hwrite rfl
  -- the disk with the log on it
  obtain ⟨disk, hdisk⟩ : ∃ disk, disk = Disk.writeAll (fun _ => ⟨0, zeroBuf⟩)
      ((logStage bm.sizeOfBitMap (plainHive length bm (fun _ => 1)).dirtyData).writes
        (freshBase length)) := ⟨_, rfl⟩
  have htrace : s.trace = (logStage bm.sizeOfBitMap
      (plainHive length bm (fun _ => 1)).dirtyData).writes (freshBase length) :=
    (hvpWriteLog_true hwrite).2.2
  have hready := @freshBase_ready length (by omega)
  have hvector : HasVector (disk .log) bm length := by
    rw [hdisk]
    exact @hasVector_log _ _ (plainHive length bm (fun _ => 1)) (show length ≤ 2 ^ 19 by omega) hS hL
  rw [htrace, ← hdisk, hvpRecoverDataFromLog_eq (fun _ => rfl) hvector hready.length hL] at hrec
  cases hrec
  -- the first dirty block
  obtain ⟨i, hi, hm⟩ := hdirty
  have hpos : 0 < (bm.marks length 0).length :=
    length_pos_of_mem (mem_marks.mpr ⟨Nat.zero_le i, hi, hm⟩)
  obtain ⟨_, hfirst, hmark⟩ := mem_marks.mp (getElem_mem hpos)
  have hback := hblocks _ 0 hfirst (by decide)
  rw [if_pos hmark, recoveredWrites_dirty (marks_nodup bm length 0) hpos (by decide)] at hback
  have hone : (plainHive length bm (fun _ => 1)).blockData (bm.marks length 0)[0] 0 = 1 := by
    rw [blockData, block_plainHive hfirst]
    rfl
  -- what has been recovered is the byte of block 508 in the dirty vector
  have hlarge : 1024 < logBufferSize bm.sizeOfBitMap := by
    rw [logBufferSize_eq hS]
    omega
  have hfit : logBufferSize bm.sizeOfBitMap +
      (plainHive length bm (fun _ => 1)).dirtyData.length * hblockSize ≤ 2 ^ 32 :=
    @log_fit (plainHive length bm (fun _ => 1)) (show length ≤ 2 ^ 19 by omega) hS
  have hzero : (disk .log).data (516 + 508) = 0 := by
    rw [hdisk, log_vector hfit (by decide) (show 516 + 508 < _ from hlarge), dirtyData_fst, logHeader_mark, if_neg]
    intro hmem
    have hlt : 508 < length := (mem_dirty.mp hmem).1
    omega
  rw [hone, show 1024 + (0 + 0) * hblockSize + 0 = 516 + 508 from rfl, hzero] at hback
  exact absurd hback (by decide)

end

/-- Log and recovery agree on a hive exactly when the dirty vector, with its
    signature, fits into one sector, or has no mark, and the hive has no more
    blocks than such a sector has bytes for.  (A mark behind the last block
    makes `HvpWriteLog` itself leave the block list.) -/
theorem roundTrips_iff (hL : length ≤ 2 ^ 19) (hS : bm.sizeOfBitMap ≤ 2 ^ 20) :
    RoundTrips length bm ↔
      (0 < length ∧ bm.Stray length) ∨
      (length ≤ 508 ∧ (4 + bm.sizeOfBitMap ≤ 512 ∨ ∀ i, i < length → bm.marked i = false)) := by
  constructor
  · intro hround
    by_cases hwalk : 0 < length ∧ bm.Stray length
    · exact .inl hwalk
    right
    rcases Nat.lt_or_ge 508 length with hlong | hshort
    · exact absurd hround (not_roundTrips_of_long hS hwalk hL hlong)
    refine ⟨hshort, ?_⟩
    rcases Nat.lt_or_ge 512 (4 + bm.sizeOfBitMap) with hwide | hfits
    · right
      intro i hi
      by_contra hm
      exact not_roundTrips_of_wide hS hwalk hshort hwide ⟨i, hi, by simpa using hm⟩ hround
    · exact .inl hfits
  · rintro (hstray | ⟨hshort, hfits⟩)
    · -- nothing is written
      intro io alloc h s env d b hlength hbm _ hwrite _
      subst hlength hbm
      obtain ⟨_, hd, _⟩ := hvpWriteLog_true hwrite
      rw [dirtyBlocks_eq_none.mpr hstray] at hd
      cases hd
    · exact roundTrips_of_fits hshort hS hfits

end Exact

/-- A hive with one block. -/
theorem roundTrips_one_block : RoundTrips 1 firstMarked :=
  (roundTrips_iff (by decide) (by decide)).mpr (.inr ⟨by decide, .inl (by decide)⟩)

/-- The first sizes at which the round trip fails: with 481 blocks the bitmap,
    which has a multiple of 32 bits, does not fit into a sector any more, and
    with 509 blocks the loop leaves the sector. -/
theorem not_roundTrips :
    ¬ RoundTrips 481 ⟨512, fun i => i = 0⟩ ∧ ¬ RoundTrips 509 ⟨512, fun i => i = 0⟩ := by
  have hstray : ∀ length, ¬ (0 < length ∧ RtlBitmap.Stray ⟨512, fun i => i = 0⟩ length) := by
    rintro length ⟨hpos, _, j, hj, hm⟩
    have hj0 : j = 0 := by simpa using (Bool.and_eq_true_iff.mp hm).2
    omega
  exact ⟨not_roundTrips_of_wide (by decide) (hstray 481) (by decide) (by decide) ⟨0, by decide, rfl⟩,
    not_roundTrips_of_long (by decide) (hstray 509) (by decide) (by decide)⟩

end Hive
