import Mathlib.Data.Finset.Card
import ReactOS.Rtl.BitmapSearch

/-! # NTFS cluster allocation

    `NtfsAllocateClusters` (`drivers/filesystems/ntfs/volinfo.c`): the data of `$Bitmap` is read
    into pool memory, searched and marked there as a bitmap of as many bits as the volume has
    clusters, and written back.

    The first choice is one run of the desired length, found and marked in one call.  The fallback
    only looks for a run: it reports clusters that nothing marks.  So a grant is sound exactly if
    the first choice succeeds.

    The sizes are those of i386: the pool holds at most `MI_MAX_NONPAGED_POOL_SIZE` bytes. -/

namespace Ntfs

open Rtl BitWords RtlBitmap Option Finset

/-! ## Section 1: The routine -/

/-- `MI_MAX_NONPAGED_POOL_SIZE` (`ntoskrnl/arch/i386/include/mm.h`). -/
def miMaxNonPagedPoolSize : Nat := 128 * 1024 * 1024

/-- `ROUND_UP`. -/
def roundUp (n s : Nat) : Nat := (n + s - 1) / s * s

/-- What the routine reads of `NtfsInfo`, and the data of `$Bitmap`. -/
structure Volume where
  clusterCount : Nat
  bytesPerSector : Nat
  bitmap : Array (BitVec 8)
  sector_pos : 0 < bytesPerSector
  /-- The `ASSERT` of the routine. -/
  asserted : clusterCount ≤ 8 * min bitmap.size 0xffffffff
  deriving DecidableEq

/-- A call: its parameters, how much pool is left, and what the memory holds that it gets. -/
structure Request where
  firstDesiredCluster : Nat
  desiredClusters : Nat
  pool : Nat
  memory : Nat → BitVec 8
  pool_le : pool ≤ miMaxNonPagedPoolSize

inductive AllocateStatus where
  | success
  | insufficientResources
  | diskFull
  deriving DecidableEq, Repr

/-- What a call returns, and the volume that it leaves. -/
structure Allocation where
  status : AllocateStatus
  firstAssignedCluster : Nat
  assignedClusters : Nat
  volume : Volume
  deriving DecidableEq

namespace Volume

/-- `BitmapDataSize`. -/
def bitmapDataSize (v : Volume) : Nat := min v.bitmap.size 0xffffffff

/-- The bytes that are asked of the pool. -/
def poolBytes (v : Volume) : Nat := roundUp v.bitmapDataSize v.bytesPerSector

/-- `ReadAttribute` into `BitmapData`, as the words that `(PULONG)BitmapData` points to.  Behind
    the data stands what the memory held. -/
def readAttribute (v : Volume) (memory : Nat → BitVec 8) : Array (BitVec 32) :=
  let byte i := if i < v.bitmapDataSize then v.bitmap.getD i 0 else memory i
  Array.ofFn (n := (v.poolBytes + 3) / 4) fun k =>
    byte (4 * k + 3) ++ byte (4 * k + 2) ++ byte (4 * k + 1) ++ byte (4 * k)

/-- `WriteAttribute` of `BitmapData`. -/
def writeAttribute (v : Volume) (words : Array (BitVec 32)) : Volume :=
  { v with
    bitmap := Array.ofFn (n := v.bitmap.size) fun i =>
      if i < v.bitmapDataSize then (words.getD (i / 4) 0).extractLsb' (8 * (i % 4)) 8
      else v.bitmap.getD i 0
    asserted := by simpa using v.asserted }

end Volume

/-- `RtlInitializeBitMap`; the count of clusters is cut to a `ULONG`. -/
def rtlInitializeBitMap (buffer : Array (BitVec 32)) (size : Nat) : Option (RtlBitmap 32) :=
  if h : size % 2 ^ 32 < 2 ^ (32 - 1) ∧ size % 2 ^ 32 ≤ 32 * buffer.size then
    some ⟨⟨size % 2 ^ 32, buffer, Nat.mod_lt _ (by decide), h.2⟩, h.1⟩
  else none

/-- `RtlNumberOfClearBits`. -/
def rtlNumberOfClearBits (b : RtlBitmap 32) : Option Nat := do
  return b.sizeOfBitMap - (← rtlNumberOfSetBits b)

/-- The choice of the clusters and the bitmap that is written back. -/
def assignClusters (bitmap : RtlBitmap 32) (request : Request) :
    Option (FoundRun × RtlBitmap 32) := do
  let (assignedRun, bitmap) ←
    rtlFindClearBitsAndSet bitmap request.desiredClusters request.firstDesiredCluster
  if assignedRun ≠ 0xFFFFFFFF then return (⟨request.desiredClusters, assignedRun⟩, bitmap)
  -- No contiguous run of that length: take what is found, which `bitmap` does not hear of.
  let run ← rtlFindNextForwardRunClear bitmap request.firstDesiredCluster
  if run.numberOfBits ≠ 0 then return (run, bitmap)
  return (← rtlFindLongestRunClear bitmap run.startingIndex, bitmap)

/-- `NtfsAllocateClusters`. -/
def ntfsAllocateClusters (v : Volume) (request : Request) : Option Allocation := do
  if request.pool < v.poolBytes then return ⟨.insufficientResources, 0, 0, v⟩
  let bitmap ← rtlInitializeBitMap (v.readAttribute request.memory) v.clusterCount
  let freeClusters ← rtlNumberOfClearBits bitmap
  if freeClusters < request.desiredClusters then return ⟨.diskFull, 0, 0, v⟩
  let (run, bitmap) ← assignClusters bitmap request
  return ⟨.success, run.startingIndex, run.numberOfBits, v.writeAttribute bitmap.buffer⟩

/-! ## Section 2: What a grant has to be -/

/-- The bit of a cluster in `$Bitmap`. -/
def Volume.used (v : Volume) (cluster : Nat) : Bool :=
  (v.bitmap.getD (cluster / 8) 0).getLsbD (cluster % 8)

/-- The free clusters of a volume. -/
def Volume.free (v : Volume) : Finset Nat :=
  (Finset.range v.clusterCount).filter fun c => v.used c = false

/-- The call reports this cluster as allocated. -/
def Allocation.Assigned (a : Allocation) (cluster : Nat) : Prop :=
  a.status = .success ∧ a.firstAssignedCluster ≤ cluster ∧
    cluster < a.firstAssignedCluster + a.assignedClusters

/-- What is reported was free, lies on the volume and is marked now; nothing else changes, and
    the number is between one and what was asked for. -/
structure Allocation.Sound (v : Volume) (request : Request) (a : Allocation) : Prop where
  was_free : ∀ c, a.Assigned c → c ∈ v.free
  marked : ∀ c, a.Assigned c → a.volume.used c = true
  frame : ∀ c, ¬ a.Assigned c → a.volume.used c = v.used c
  clusters : a.volume.clusterCount = v.clusterCount
  count : a.status = .success →
    1 ≤ a.assignedClusters ∧ a.assignedClusters ≤ request.desiredClusters

/-- The call fails for lack of memory or of clusters, or there is a free run of the desired length
    that is not the whole volume. -/
def Volume.Grantable (v : Volume) (request : Request) : Prop :=
  request.pool < v.poolBytes ∨ v.free.card < request.desiredClusters ∨
    (0 < request.desiredClusters ∧ request.desiredClusters < v.clusterCount ∧
      ∃ s, s + request.desiredClusters ≤ v.clusterCount ∧
        ∀ c, s ≤ c → c < s + request.desiredClusters → v.used c = false)

/-! ## Section 3: The bits that are read and written -/

theorem le_roundUp (n : Nat) {s : Nat} (hs : 0 < s) : n ≤ roundUp n s := by
  have hmod := Nat.div_add_mod (n + s - 1) s
  have hlt := Nat.mod_lt (n + s - 1) hs
  rw [Nat.mul_comm] at hmod
  unfold roundUp
  omega

/-- The bits of a word that is put together from its four bytes. -/
theorem getLsbD_bytes (byte : Nat → BitVec 8) {j : Nat} (hj : j < 32) :
    (byte 3 ++ byte 2 ++ byte 1 ++ byte 0).getLsbD j = (byte (j / 8)).getLsbD (j % 8) := by
  grind

namespace Volume

variable {v : Volume}

theorem bitmapDataSize_le_poolBytes (v : Volume) : v.bitmapDataSize ≤ v.poolBytes :=
  le_roundUp _ v.sector_pos

theorem bitAt_readAttribute (memory : Nat → BitVec 8) {i : Nat} (hi : i < 8 * v.bitmapDataSize) :
    bitAt (v.readAttribute memory) i = v.used i := by
  have hle := v.bitmapDataSize_le_poolBytes
  have hk : i / 32 < (v.poolBytes + 3) / 4 := by omega
  have hbyte : 4 * (i / 32) + i % 32 / 8 = i / 8 := by omega
  have hbit : i % 32 % 8 = i % 8 := by omega
  have hdata : i / 8 < v.bitmapDataSize := by omega
  rw [bitAt, readAttribute, Array.getD_eq_getD_getElem?, Array.getElem?_ofFn, dif_pos hk,
    getD_some]
  refine (getLsbD_bytes (fun j => if 4 * (i / 32) + j < v.bitmapDataSize then
    v.bitmap.getD (4 * (i / 32) + j) 0 else memory (4 * (i / 32) + j))
    (Nat.mod_lt i (by decide))).trans ?_
  simp only [hbyte, hbit, hdata, if_true, used]

theorem used_writeAttribute (v : Volume) (words : Array (BitVec 32)) (i : Nat) :
    (v.writeAttribute words).used i =
      if i < 8 * v.bitmapDataSize then bitAt words i else v.used i := by
  have hsize : v.bitmapDataSize ≤ v.bitmap.size := Nat.min_le_left _ _
  by_cases hi : i < 8 * v.bitmapDataSize
  · have hlt : i / 8 < v.bitmap.size := by omega
    have hdata : i / 8 < v.bitmapDataSize := by omega
    have hword : i / 8 / 4 = i / 32 := by omega
    have hbit : 8 * (i / 8 % 4) + i % 8 = i % 32 := by omega
    have hj : i % 8 < 8 := Nat.mod_lt i (by decide)
    rw [if_pos hi, used, writeAttribute, bitAt, Array.getD_eq_getD_getElem?, Array.getElem?_ofFn,
      dif_pos hlt, getD_some]
    simp only [hdata, if_true, BitVec.getLsbD_extractLsb', hj, decide_true, Bool.true_and, hword,
      hbit]
  · rw [if_neg hi, used, writeAttribute, used, Array.getD_eq_getD_getElem?, Array.getElem?_ofFn]
    have hdata : ¬ i / 8 < v.bitmapDataSize := by omega
    by_cases hlt : i / 8 < v.bitmap.size
    · simp [hlt, hdata]
    · simp [hlt]

end Volume

/-! ## Section 4: One call -/

section Call

variable {v : Volume} {request : Request}

/-- The bitmap that the routine works on. -/
structure Loaded (v : Volume) (b : RtlBitmap 32) : Prop where
  size : b.sizeOfBitMap = v.clusterCount
  bits : ∀ i, i < 8 * v.bitmapDataSize → bitAt b.buffer i = v.used i
  fits : b.sizeOfBitMap + 32 ≤ 2 ^ 32

theorem rtlInitializeBitMap_spec (hpool : ¬ request.pool < v.poolBytes) :
    ∃ b, rtlInitializeBitMap (v.readAttribute request.memory) v.clusterCount = some b ∧
      Loaded v b := by
  have hle := v.bitmapDataSize_le_poolBytes
  have hmax := request.pool_le
  have hasserted : v.clusterCount ≤ 8 * v.bitmapDataSize := v.asserted
  unfold miMaxNonPagedPoolSize at hmax
  have hmod : v.clusterCount % 2 ^ 32 = v.clusterCount := Nat.mod_eq_of_lt (by omega)
  have hsize : (v.readAttribute request.memory).size = (v.poolBytes + 3) / 4 := by
    simp [Volume.readAttribute]
  have hok : v.clusterCount % 2 ^ 32 < 2 ^ (32 - 1) ∧
      v.clusterCount % 2 ^ 32 ≤ 32 * (v.readAttribute request.memory).size := by
    rw [hmod, hsize]
    omega
  refine ⟨_, dif_pos hok, hmod, fun i hi => Volume.bitAt_readAttribute _ hi, ?_⟩
  show v.clusterCount % 2 ^ 32 + 32 ≤ 2 ^ 32
  omega

namespace Loaded

variable {b : RtlBitmap 32}

theorem bit (h : Loaded v b) {c : Nat} (hc : c < v.clusterCount) : bitAt b.buffer c = v.used c :=
  h.bits c (Nat.lt_of_lt_of_le hc v.asserted)

theorem clearRun_iff (h : Loaded v b) (s n : Nat) :
    b.ClearRun s n ↔ s + n ≤ v.clusterCount ∧ ∀ c, s ≤ c → c < s + n → v.used c = false := by
  rw [ClearRun, h.size]
  constructor
  · rintro ⟨hle, hrun⟩
    refine ⟨hle, fun c h1 h2 => ?_⟩
    rw [← h.bit (by omega)]
    exact hrun c h1 h2
  · rintro ⟨hle, hfree⟩
    refine ⟨hle, fun c h1 h2 => ?_⟩
    rw [h.bit (by omega)]
    exact hfree c h1 h2

theorem rtlNumberOfClearBits_spec (h : Loaded v b) : rtlNumberOfClearBits b = some v.free.card := by
  have hset : b.indices = (range v.clusterCount).filter fun c => ¬ v.used c = false := by
    ext c
    simp only [indices, setBelow, h.size, mem_filter, mem_range]
    apply and_congr_right
    intro hc
    rw [h.bit hc, Bool.not_eq_false]
  have hsum : v.free.card + b.indices.card = v.clusterCount := by
    rw [hset, Volume.free, card_filter_add_card_filter_not, card_range]
  simp only [rtlNumberOfClearBits, rtlNumberOfSetBits_spec, bind, bind_some, pure, h.size]
  congr 1
  omega

/-- The routine, once the bitmap is loaded and has enough clear bits. -/
theorem ntfsAllocateClusters_eq (h : Loaded v b)
    (hload : rtlInitializeBitMap (v.readAttribute request.memory) v.clusterCount = some b)
    (hpool : ¬ request.pool < v.poolBytes) (hfree : ¬ v.free.card < request.desiredClusters) :
    ntfsAllocateClusters v request = (assignClusters b request).bind fun found =>
      some ⟨.success, found.1.startingIndex, found.1.numberOfBits,
        v.writeAttribute found.2.buffer⟩ := by
  simp only [ntfsAllocateClusters, hpool, if_false, hload, h.rtlNumberOfClearBits_spec, hfree, bind,
    bind_some, pure]

end Loaded

/-- A request for nothing gets nothing, with success. -/
theorem assignClusters_zero (b : RtlBitmap 32) (h0 : request.desiredClusters = 0) :
    ∃ found, assignClusters b request = some found ∧ found.1.numberOfBits = 0 := by
  obtain ⟨p, hp⟩ : ∃ p, p = (if request.firstDesiredCluster ≥ b.sizeOfBitMap then 0
      else request.firstDesiredCluster) / 8 * 8 := ⟨_, rfl⟩
  have hple : p ≤ b.sizeOfBitMap := by
    rw [hp]
    split
    · omega
    · omega
  have hmax : b.sizeOfBitMap < maxIndex 32 := size_lt_maxIndex b
  have hne : p ≠ maxIndex 32 := by omega
  have hfind : rtlFindClearBits b 0 request.firstDesiredCluster = some p := by
    simp only [rtlFindClearBits, gt_iff_lt, Nat.not_lt_zero, if_false, if_true, pure, hp]
  obtain ⟨b', hb', -⟩ := rtlSetBits_spec b (show p + 0 ≤ b.sizeOfBitMap from hple)
  refine ⟨(⟨0, p⟩, b'), ?_, rfl⟩
  have hboth : rtlFindClearBitsAndSet b 0 request.firstDesiredCluster = some (p, b') := by
    simp only [rtlFindClearBitsAndSet, hfind, bind, bind_some, ne_eq, hne, not_false_eq_true,
      if_true, hb', pure]
  have hlit : p ≠ 0xFFFFFFFF := hne
  simp only [assignClusters, h0, hboth, bind, bind_some, ne_eq, hlit, not_false_eq_true,
    if_true, pure]

/-- The first choice, and the fallback that leaves the bitmap as it is. -/
theorem assignClusters_spec {b : RtlBitmap 32} (hfits : b.sizeOfBitMap + 32 ≤ 2 ^ 32)
    (h0 : 0 < request.desiredClusters) :
    ∃ run b', assignClusters b request = some (run, b') ∧
      ((run.numberOfBits = request.desiredClusters ∧ request.desiredClusters < b.sizeOfBitMap ∧
          b.ClearRun run.startingIndex run.numberOfBits ∧
          Updated b b' run.startingIndex (run.startingIndex + run.numberOfBits) true) ∨
       (b' = b ∧ (∀ a m, b.ClearRun a m → 0 < m → 0 < run.numberOfBits) ∧
          (run.numberOfBits = 0 ∨ b.ClearRun run.startingIndex run.numberOfBits) ∧
          ¬ (request.desiredClusters < b.sizeOfBitMap ∧
            ∃ a, b.ClearRun a request.desiredClusters))) := by
  obtain ⟨p, b', hboth, h⟩ :=
    rtlFindClearBitsAndSet_spec hfits h0 request.firstDesiredCluster
  rcases h with ⟨hne, hrun, hlt, hu⟩ | ⟨heq, rfl, hno⟩
  · refine ⟨⟨request.desiredClusters, p⟩, b', ?_, .inl ⟨rfl, hlt, hrun, hu⟩⟩
    have hlit : p ≠ 0xFFFFFFFF := hne
    simp only [assignClusters, hboth, bind, bind_some, ne_eq, hlit, not_false_eq_true,
      if_true, pure]
  have hlit : p = 0xFFFFFFFF := heq
  obtain ⟨run, hnext, hspec, -⟩ :=
    rtlFindNextForwardRunClear_spec hfits request.firstDesiredCluster
  by_cases hrun : run.numberOfBits = 0
  · obtain ⟨longest, hlong, hclear, hmax⟩ := rtlFindLongestRunClear_spec hfits run.startingIndex
    refine ⟨longest, b', ?_, .inr ⟨rfl, fun a m ham hm => ?_, hclear, hno⟩⟩
    · simp only [assignClusters, hboth, bind, bind_some, ne_eq, hlit, not_true_eq_false,
        if_false, hnext, hrun, hlong, pure]
    · exact Nat.lt_of_lt_of_le hm (hmax a m ham)
  · refine ⟨run, b', ?_, .inr ⟨rfl, fun _ _ _ _ => Nat.pos_of_ne_zero hrun, hspec.clear, hno⟩⟩
    simp only [assignClusters, hboth, bind, bind_some, ne_eq, hlit, not_true_eq_false,
      if_false, hnext, hrun, not_false_eq_true, if_true, pure]

/-- A call that fails changes nothing and reports nothing. -/
theorem Allocation.Sound.of_failed {status : AllocateStatus} (h : status ≠ .success) :
    (Allocation.mk status 0 0 v).Sound v request where
  was_free := fun _ hc => absurd hc.1 h
  marked := fun _ hc => absurd hc.1 h
  frame := fun _ _ => rfl
  clusters := rfl
  count := fun hs => absurd hs h

/-- The first choice is marked as it is reported. -/
theorem Loaded.sound {b b' : RtlBitmap 32} (h : Loaded v b) {run : FoundRun}
    (h0 : 0 < request.desiredClusters) (hcount : run.numberOfBits = request.desiredClusters)
    (hrun : b.ClearRun run.startingIndex run.numberOfBits)
    (hu : Updated b b' run.startingIndex (run.startingIndex + run.numberOfBits) true) :
    (Allocation.mk .success run.startingIndex run.numberOfBits
      (v.writeAttribute b'.buffer)).Sound v request := by
  have hfree := (h.clearRun_iff _ _).1 hrun
  have hasserted : v.clusterCount ≤ 8 * v.bitmapDataSize := v.asserted
  constructor
  case was_free =>
    rintro c ⟨-, h1, h2⟩
    exact mem_filter.2 ⟨mem_range.2 (Nat.lt_of_lt_of_le h2 hfree.1), hfree.2 c h1 h2⟩
  case marked =>
    rintro c ⟨-, h1, h2⟩
    have h1 : run.startingIndex ≤ c := h1
    have h2 : c < run.startingIndex + run.numberOfBits := h2
    rw [Volume.used_writeAttribute, if_pos (by omega)]
    exact hu.painted.inside c h1 h2
  case frame =>
    intro c hc
    have hout : c < run.startingIndex ∨ run.startingIndex + run.numberOfBits ≤ c := by
      by_contra hin
      exact hc ⟨rfl, by show run.startingIndex ≤ c; omega,
        by show c < run.startingIndex + run.numberOfBits; omega⟩
    rw [Volume.used_writeAttribute]
    split
    · next hdata => rw [hu.painted.outside c hout, h.bits c hdata]
    · rfl
  case clusters => rfl
  case count =>
    intro _
    show 1 ≤ run.numberOfBits ∧ run.numberOfBits ≤ request.desiredClusters
    omega

/-- What the fallback reports is free on the volume that is left. -/
theorem Loaded.not_sound {b : RtlBitmap 32} (h : Loaded v b) {run : FoundRun}
    (hpos : 0 < run.numberOfBits) (hrun : b.ClearRun run.startingIndex run.numberOfBits) :
    ¬ (Allocation.mk .success run.startingIndex run.numberOfBits
      (v.writeAttribute b.buffer)).Sound v request := by
  intro hsound
  have hfree := (h.clearRun_iff _ _).1 hrun
  have hdata : run.startingIndex < 8 * v.bitmapDataSize :=
    Nat.lt_of_lt_of_le (Nat.lt_of_lt_of_le (Nat.lt_add_of_pos_right hpos) hfree.1) v.asserted
  have hmarked := hsound.marked run.startingIndex
    ⟨rfl, Nat.le_refl _, Nat.lt_add_of_pos_right hpos⟩
  rw [Volume.used_writeAttribute, if_pos hdata, h.bits _ hdata,
    hfree.2 _ (Nat.le_refl _) (Nat.lt_add_of_pos_right hpos)] at hmarked
  cases hmarked

/-- Enough clear bits are at least one clear run. -/
theorem Loaded.exists_clearRun {b : RtlBitmap 32} (h : Loaded v b) (hpos : 0 < v.free.card) :
    ∃ a, b.ClearRun a 1 := by
  obtain ⟨c, hc⟩ := card_pos.1 hpos
  rw [Volume.free, mem_filter, mem_range] at hc
  refine ⟨c, (h.clearRun_iff c 1).2 ⟨hc.1, fun c' h1 h2 => ?_⟩⟩
  rw [show c' = c by omega]
  exact hc.2

/-- Every call returns, and its grant is sound exactly under the condition. -/
theorem ntfsAllocateClusters_spec (v : Volume) (request : Request) :
    ∃ a, ntfsAllocateClusters v request = some a ∧
      (a.Sound v request ↔ v.Grantable request) := by
  by_cases hpool : request.pool < v.poolBytes
  · refine ⟨⟨.insufficientResources, 0, 0, v⟩, ?_,
      iff_of_true (.of_failed (by decide)) (.inl hpool)⟩
    simp only [ntfsAllocateClusters, hpool, if_true, pure]
  obtain ⟨b, hload, hb⟩ := rtlInitializeBitMap_spec hpool
  by_cases hfree : v.free.card < request.desiredClusters
  · refine ⟨⟨.diskFull, 0, 0, v⟩, ?_, iff_of_true (.of_failed (by decide)) (.inr (.inl hfree))⟩
    simp only [ntfsAllocateClusters, hpool, if_false, hload, hb.rtlNumberOfClearBits_spec, hfree,
      if_true, bind, bind_some, pure]
  have heq := hb.ntfsAllocateClusters_eq hload hpool hfree
  -- Neither failure: the condition is the one on the run.
  have hcond : v.Grantable request ↔ 0 < request.desiredClusters ∧
      request.desiredClusters < b.sizeOfBitMap ∧ ∃ a, b.ClearRun a request.desiredClusters := by
    simp only [Volume.Grantable, hpool, hfree, false_or, hb.size, hb.clearRun_iff]
  rcases Nat.eq_zero_or_pos request.desiredClusters with h0 | h0
  · obtain ⟨found, hfound, hnone⟩ := assignClusters_zero b h0
    refine ⟨_, by rw [heq, hfound, bind_some], iff_of_false ?_ ?_⟩
    · intro hsound
      have hcount : 1 ≤ found.1.numberOfBits := (hsound.count rfl).1
      omega
    · rw [hcond]
      omega
  obtain ⟨run, b', hassign, h⟩ := assignClusters_spec hb.fits h0
  refine ⟨_, by rw [heq, hassign, bind_some], ?_⟩
  rcases h with ⟨hcount, hlt, hrun, hu⟩ | ⟨rfl, hany, hrun, hno⟩
  · refine iff_of_true (hb.sound h0 hcount hrun hu) (hcond.2 ⟨h0, hlt, run.startingIndex, ?_⟩)
    rw [← hcount]
    exact hrun
  obtain ⟨a, ha⟩ := hb.exists_clearRun (by omega)
  have hpos := hany a 1 ha Nat.one_pos
  refine iff_of_false (hb.not_sound hpos (hrun.resolve_left (by omega))) ?_
  rw [hcond]
  exact fun h => hno h.2

end Call

/-! ## Section 5: Sequences of calls -/

/-- Calls one after the other, each on the volume that the one before has left. -/
def allocateAll : Volume → List Request → Option (List Allocation)
  | _, [] => some []
  | v, request :: requests => do
    let a ← ntfsAllocateClusters v request
    return a :: (← allocateAll a.volume requests)

/-- Every call of the sequence meets the condition on the volume that it finds. -/
def Volume.AllGrantable (v : Volume) : List Request → Prop
  | [] => True
  | request :: requests => v.Grantable request ∧
    ∀ a, ntfsAllocateClusters v request = some a → a.volume.AllGrantable requests

/-- A sound call leaves free what was free and is not reported. -/
theorem Allocation.Sound.free_iff {v : Volume} {request : Request} {a : Allocation}
    (h : a.Sound v request) (c : Nat) : c ∈ a.volume.free ↔ c ∈ v.free ∧ ¬ a.Assigned c := by
  simp only [Volume.free, mem_filter, mem_range, h.clusters]
  by_cases hc : a.Assigned c
  · simp [hc, h.marked c hc]
  · simp [hc, h.frame c hc]

/-- What the calls of a sequence report was free before it, and no two calls report the same. -/
theorem allocateAll_spec (requests : List Request) : ∀ v : Volume, v.AllGrantable requests →
    ∃ grants, allocateAll v requests = some grants ∧
      (∀ a ∈ grants, ∀ c, a.Assigned c → c ∈ v.free) ∧
      grants.Pairwise fun a a' => ∀ c, a.Assigned c → ¬ a'.Assigned c := by
  induction requests with
  | nil =>
    intro v _
    exact ⟨[], rfl, fun a ha => absurd ha List.not_mem_nil, List.Pairwise.nil⟩
  | cons request requests ih =>
    intro v hall
    obtain ⟨hnow, hrest⟩ := hall
    obtain ⟨a, ha, hiff⟩ := ntfsAllocateClusters_spec v request
    have hsound : a.Sound v request := hiff.2 hnow
    obtain ⟨grants, hgrants, hfree, hpair⟩ := ih a.volume (hrest a ha)
    refine ⟨a :: grants, ?_, ?_, ?_⟩
    · simp only [allocateAll, ha, hgrants, bind, bind_some, pure]
    · exact List.forall_mem_cons.2 ⟨hsound.was_free, fun a' ha' c hc =>
        ((hsound.free_iff c).1 (hfree a' ha' c hc)).1⟩
    · refine List.pairwise_cons.2 ⟨fun a' ha' c hc hc' => ?_, hpair⟩
      exact ((hsound.free_iff c).1 (hfree a' ha' c hc')).2 hc

/-- A grant is sound exactly if the call fails or finds one run of the desired length short of the
    whole volume, and over such calls no cluster is granted twice. -/
theorem ntfsAllocateClusters_sound_iff (v : Volume) (request : Request) (requests : List Request) :
    (∃ a, ntfsAllocateClusters v request = some a ∧ (a.Sound v request ↔ v.Grantable request)) ∧
    (v.AllGrantable requests → ∃ grants, allocateAll v requests = some grants ∧
      grants.Pairwise fun a a' => ∀ c, a.Assigned c → ¬ a'.Assigned c) := by
  refine ⟨ntfsAllocateClusters_spec v request, fun hall => ?_⟩
  obtain ⟨grants, hgrants, -, hpair⟩ := allocateAll_spec requests v hall
  exact ⟨grants, hgrants, hpair⟩

/-- A volume of three clusters, with a given byte of `$Bitmap`. -/
def threeClusters (byte : BitVec 8) : Volume := ⟨3, 512, #[byte], by decide, by simp⟩

/-- A request for some clusters, from the start of the volume. -/
def wanted (n : Nat) : Request := ⟨0, n, 512, fun _ => 0, by decide⟩

theorem ntfsAllocateClusters_one_by_one :
    (threeClusters 2).AllGrantable [wanted 1, wanted 1] ∧
      ∃ grants, allocateAll (threeClusters 2) [wanted 1, wanted 1] = some grants ∧
        grants.Pairwise fun a a' => ∀ c, a.Assigned c → ¬ a'.Assigned c := by
  have hfirst : ntfsAllocateClusters (threeClusters 2) (wanted 1) =
      some ⟨.success, 0, 1, threeClusters 3⟩ := by decide +kernel
  have hall : (threeClusters 2).AllGrantable [wanted 1, wanted 1] := by
    refine ⟨.inr (.inr ⟨by decide, by decide, 0, by decide, fun c _ hc => ?_⟩), fun a ha => ?_⟩
    · obtain rfl : c = 0 := Nat.lt_one_iff.1 hc
      decide
    obtain rfl : Allocation.mk .success 0 1 (threeClusters 3) = a := by
      simpa only [hfirst, Option.some.injEq] using ha
    refine ⟨.inr (.inr ⟨by decide, by decide, 2, by decide, fun c hc hc' => ?_⟩), fun _ _ => ?_⟩
    · obtain rfl : c = 2 := Nat.le_antisymm (Nat.lt_succ_iff.1 hc') hc
      decide
    · trivial
  exact ⟨hall, (ntfsAllocateClusters_sound_iff _ (wanted 1) _).2 hall⟩

/-- The clusters on both sides of one in use are free.  A request for two is told of the first,
    which stays free for the next call to report. -/
theorem not_sound_fragmented :
    ntfsAllocateClusters (threeClusters 2) (wanted 2) =
        some ⟨.success, 0, 1, threeClusters 2⟩ ∧
      ¬ (Allocation.mk .success 0 1 (threeClusters 2)).Sound (threeClusters 2) (wanted 2) := by
  refine ⟨by decide +kernel, fun hsound => ?_⟩
  have hmarked := hsound.marked 0 ⟨rfl, Nat.le_refl 0, Nat.one_pos⟩
  exact absurd hmarked (by decide)

end Ntfs
