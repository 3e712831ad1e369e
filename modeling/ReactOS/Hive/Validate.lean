import Mathlib.Logic.Relation
import ReactOS.Hive.Heap

/-! # Validation of a hive

    `HvValidateHive` and `HvValidateBin` of `cmcheck.c` look at the bins of a
    hive that is already in memory, and at the cells of each bin.

    - Section 1 is the code.  The bytes behind the end of a bin are whatever
      follows it in memory.
    - Section 2 says what a sound hive is, and which faults of a bin the
      validator does not look for.
    - Section 3 is about the cells of one bin, Section 4 about the walk over
      the bins. -/

namespace Hive

open Bytes

/-! ## Section 1: The validator -/

/-- The values of `CM_CHECK_REGISTRY_STATUS` that the two functions return. -/
inductive CmCheckStatus where
  | good
  | hiveCorruptSignature
  | binSizeOrOffsetCorrupt
  | binSignatureHeaderCorrupt
  | badFreeCell
  | badAllocCell
  deriving DecidableEq, Repr

/-- The loop of `HvValidateBin`. -/
def validateCells (data : Buf) (binSize : Nat) : Nat → Nat → Option CmCheckStatus
  | 0, _ => none
  | fuel + 1, cell =>
    if cell < binSize then
      let size := getLong data cell
      if 0 ≤ size then
        if binSize < size.toNat ∨ size = 0 then some .badFreeCell
        else validateCells data binSize fuel (cell + size.natAbs)
      else if binSize < size.natAbs then some .badAllocCell
      else validateCells data binSize fuel (cell + size.natAbs)
    else some .good

/-- `HvValidateBin` -/
def hvValidateBin (data : Buf) (fuel : Nat) : Option CmCheckStatus :=
  if getU32 data 0 ≠ hvHBinSignature then some .binSignatureHeaderCorrupt
  else validateCells data (getU32 data 8) fuel sizeofHBin

/-- The storages `HvValidateHive` looks at, in order. -/
def HHive.storages (h : HHive) : List StorageType :=
  [StorageType.stable, StorageType.volatile].take h.storageTypeCount

/-- The two loops of `HvValidateHive`, at block `blockIndex` of the first of
    the storages that are left. -/
def validateBins (h : HHive) : Nat → List StorageType → Nat → Option CmCheckStatus
  | 0, _, _ => none
  | _ + 1, [], _ => some .good
  | fuel + 1, t :: ts, blockIndex =>
    if blockIndex < (h.storage t).length then
      match ((h.storage t).blockList blockIndex).binAddress with
      | none => validateBins h fuel (t :: ts) blockIndex
      | some k =>
        let bin := h.data t k
        if (h.storage t).length * hblockSize % 2 ^ 32 < getU32 bin 8 ∨
            getU32 bin 4 / hblockSize ≠ blockIndex then some .binSizeOrOffsetCorrupt
        else
          match hvValidateBin bin fuel with
          | none => none
          | some .good => validateBins h fuel (t :: ts) (blockIndex + getU32 bin 8 / hblockSize)
          | some status => some status
    else validateBins h fuel ts 0

/-- `HvValidateHive` -/
def hvValidateHive (h : HHive) (fuel : Nat) : Option CmCheckStatus :=
  if h.signature ≠ hvHHiveSignature then some .hiveCorruptSignature
  else validateBins h fuel h.storages 0

/-! ## Section 2: Sound hives -/

/-- From offset `off` on, cells that are not empty reach exactly the end of
    the bin. -/
inductive Tiled (data : Buf) (size : Nat) : Nat → Prop where
  | stop : Tiled data size size
  | cell {off : Nat} : off < size → getLong data off ≠ 0 →
      off + (getLong data off).natAbs ≤ size →
      Tiled data size (off + (getLong data off).natAbs) → Tiled data size off

/-- From block `i` on, bins that are tiled by their cells reach exactly the
    end of the storage. -/
inductive Covered (h : HHive) (t : StorageType) : Nat → Prop where
  | stop : Covered h t (h.storage t).length
  | bin {i k blocks : Nat} : i < (h.storage t).length →
      ((h.storage t).blockList i).binAddress = some k →
      getU32 (h.data t k) 4 = i * hblockSize → getU32 (h.data t k) 8 = blocks * hblockSize →
      0 < blocks → i + blocks ≤ (h.storage t).length →
      Tiled (h.data t k) (getU32 (h.data t k) 8) sizeofHBin →
      Covered h t (i + blocks) → Covered h t i

/-- Validation ends, and what it reports as good is sound. -/
def ValidationSound (h : HHive) : Prop :=
  ∃ fuel status, hvValidateHive h fuel = some status ∧
    (status = .good → ∀ t ∈ h.storages, Covered h t 0)

/-- The cell at `off` passes the tests of `HvValidateBin`. -/
def CellPasses (data : Buf) (off : Nat) : Prop :=
  getLong data off ≠ 0 ∧ (getLong data off).natAbs ≤ getU32 data 8

/-- One round of the loop of `HvValidateBin`. -/
def NextCell (data : Buf) (off off' : Nat) : Prop :=
  off < getU32 data 8 ∧ CellPasses data off ∧ off' = off + (getLong data off).natAbs

/-- `HvValidateBin` comes to the cell at `off`. -/
def CellReached (data : Buf) (off : Nat) : Prop :=
  Relation.ReflTransGen (NextCell data) sizeofHBin off

/-- Bin `k` passes the tests of the validator at block `i`. -/
structure BinPasses (h : HHive) (t : StorageType) (i k : Nat) : Prop where
  size : getU32 (h.data t k) 8 ≤ (h.storage t).length * hblockSize % 2 ^ 32
  offset : getU32 (h.data t k) 4 / hblockSize = i
  signature : getU32 (h.data t k) 0 = hvHBinSignature
  cells : ∀ off, CellReached (h.data t k) off → off < getU32 (h.data t k) 8 →
    CellPasses (h.data t k) off

/-- Bin `k` at block `i` has none of the faults that the validator does not
    look for: a file offset inside a block, a size that is not a number of
    blocks or that reaches behind the storage, and a last cell that reaches
    behind the bin. -/
structure NothingOverlooked (h : HHive) (t : StorageType) (i k : Nat) : Prop where
  offset : getU32 (h.data t k) 4 % hblockSize = 0
  size : getU32 (h.data t k) 8 % hblockSize = 0
  inside : i + getU32 (h.data t k) 8 / hblockSize ≤ (h.storage t).length
  cells : ∀ off, CellReached (h.data t k) off → off ≤ getU32 (h.data t k) 8

/-- One round of the two loops: to the next bin, or to the next storage. -/
inductive NextBlock (h : HHive) : List StorageType × Nat → List StorageType × Nat → Prop where
  | bin {t : StorageType} {ts : List StorageType} {i k : Nat} : i < (h.storage t).length →
      ((h.storage t).blockList i).binAddress = some k → BinPasses h t i k →
      NextBlock h (t :: ts, i) (t :: ts, i + getU32 (h.data t k) 8 / hblockSize)
  | storage {t : StorageType} {ts : List StorageType} {i : Nat} : (h.storage t).length ≤ i →
      NextBlock h (t :: ts, i) (ts, 0)

/-- The validator comes to block `i` of storage `t`. -/
def BlockReached (h : HHive) (s : List StorageType × Nat) (t : StorageType) (i : Nat) : Prop :=
  i < (h.storage t).length ∧ ∃ ts, Relation.ReflTransGen (NextBlock h) s (t :: ts, i)

/-- Every block that the validator comes to has a bin, of at least one block
    if it passes, and one of these bins fails a test or none has a fault that
    is not looked for. -/
structure Reliable (h : HHive) (s : List StorageType × Nat) : Prop where
  bins : ∀ t i, BlockReached h s t i → ∃ k,
    ((h.storage t).blockList i).binAddress = some k ∧
      (BinPasses h t i k → hblockSize ≤ getU32 (h.data t k) 8)
  faults : (∃ t i k, BlockReached h s t i ∧
      ((h.storage t).blockList i).binAddress = some k ∧ ¬ BinPasses h t i k) ∨
    ∀ t i k, BlockReached h s t i → ((h.storage t).blockList i).binAddress = some k →
      NothingOverlooked h t i k

/-! ## Section 3: Cells -/

variable {fuel : Nat} {status : CmCheckStatus}

/-- What holds of everything that is reached holds here and behind every next
    step. -/
theorem forall_reached_iff {α : Type} {r : α → α → Prop} {p : α → Prop} {a : α} :
    (∀ b, Relation.ReflTransGen r a b → p b) ↔
      p a ∧ ∀ c, r a c → ∀ b, Relation.ReflTransGen r c b → p b := by
  constructor
  · intro h
    exact ⟨h a .refl, fun c hc b hb => h b (.head hc hb)⟩
  · rintro ⟨ha, hnext⟩ b hb
    rcases hb.cases_head with rfl | ⟨c, hc, hb⟩
    · exact ha
    · exact hnext c hc b hb

section Cells

variable {data : Buf} {off : Nat}

/-- The loop goes on exactly behind a cell that passes. -/
theorem validateCells_step (fuel : Nat) (hlt : off < getU32 data 8) :
    (CellPasses data off ∧ validateCells data (getU32 data 8) (fuel + 1) off
      = validateCells data (getU32 data 8) fuel (off + (getLong data off).natAbs)) ∨
    (¬ CellPasses data off ∧ ∃ status, status ≠ .good ∧
      validateCells data (getU32 data 8) (fuel + 1) off = some status) := by
  rw [validateCells, if_pos hlt]
  simp only [CellPasses]
  split
  · grind
  · grind

theorem validateCells_ends (hfuel : 0 < fuel) (henough : getU32 data 8 < off + fuel) :
    ∃ status, validateCells data (getU32 data 8) fuel off = some status := by
  induction fuel generalizing off with
  | zero => omega
  | succ fuel ih =>
    by_cases hlt : off < getU32 data 8
    · rcases validateCells_step fuel hlt with ⟨hp, heq⟩ | ⟨_, status, _, heq⟩
      · have := hp.1
        rw [heq]
        exact ih (by omega) (by omega)
      · exact ⟨status, heq⟩
    · exact ⟨.good, by rw [validateCells, if_neg hlt]⟩

/-- The loop reports success exactly when every cell it comes to passes. -/
theorem validateCells_good (hrun : validateCells data (getU32 data 8) fuel off = some status) :
    status = .good ↔ ∀ off', Relation.ReflTransGen (NextCell data) off off' →
      off' < getU32 data 8 → CellPasses data off' := by
  induction fuel generalizing off with
  | zero => simp [validateCells] at hrun
  | succ fuel ih =>
    rw [forall_reached_iff]
    by_cases hlt : off < getU32 data 8
    · rcases validateCells_step fuel hlt with ⟨hp, heq⟩ | ⟨hp, bad, hbad, heq⟩
      · rw [heq] at hrun
        rw [ih hrun]
        simp [hp, hlt, NextCell]
      · rw [heq] at hrun
        cases hrun
        simp [hbad, hlt, hp]
    · rw [validateCells, if_neg hlt] at hrun
      cases hrun
      simp [hlt, NextCell]

/-- In a tiled bin no cell that is reached lies behind the end. -/
theorem Tiled.reached (htiled : Tiled data (getU32 data 8) off) :
    ∀ off', Relation.ReflTransGen (NextCell data) off off' → off' ≤ getU32 data 8 := by
  induction htiled with
  | stop =>
    rw [forall_reached_iff]
    refine ⟨Nat.le_refl _, ?_⟩
    rintro c ⟨hlt, _⟩
    omega
  | cell hlt hne hle _ ih =>
    rw [forall_reached_iff]
    refine ⟨by omega, ?_⟩
    rintro c ⟨_, _, rfl⟩
    exact ih

/-- Cells that pass and do not reach behind the end tile the bin. -/
theorem tiled_of_reached
    (hpass : ∀ off', Relation.ReflTransGen (NextCell data) off off' →
      off' < getU32 data 8 → CellPasses data off')
    (hle : ∀ off', Relation.ReflTransGen (NextCell data) off off' → off' ≤ getU32 data 8) :
    Tiled data (getU32 data 8) off := by
  induction hn : getU32 data 8 - off using Nat.strongRecOn generalizing off with
  | _ n ih =>
    have hoff := hle off .refl
    by_cases hend : off = getU32 data 8
    · rw [hend]
      exact .stop
    have hlt : off < getU32 data 8 := by omega
    have hp := hpass off .refl hlt
    have hnext : NextCell data off (off + (getLong data off).natAbs) := ⟨hlt, hp, rfl⟩
    have hle' := hle _ (.single hnext)
    have := hp.1
    refine .cell hlt hp.1 hle' (ih _ ?_ ?_ ?_ rfl)
    · omega
    · exact fun o ho => hpass o (.head hnext ho)
    · exact fun o ho => hle o (.head hnext ho)

end Cells

/-! ## Section 4: Bins -/

section Bins

variable {h : HHive} {t : StorageType} {ts : List StorageType} {i k : Nat}

theorem hvValidateBin_good {data : Buf} (hrun : hvValidateBin data fuel = some status) :
    status = .good ↔ getU32 data 0 = hvHBinSignature ∧
      ∀ off, CellReached data off → off < getU32 data 8 → CellPasses data off := by
  unfold hvValidateBin at hrun
  split at hrun
  · rename_i hsig
    cases hrun
    simp [hsig]
  rename_i hsig
  rw [validateCells_good hrun]
  simp only [ne_eq, Decidable.not_not] at hsig
  simp [hsig, CellReached]

theorem hvValidateBin_ends {data : Buf} {fuel : Nat} (hfuel : getU32 data 8 < fuel) :
    ∃ status, hvValidateBin data fuel = some status := by
  unfold hvValidateBin
  split
  · exact ⟨_, rfl⟩
  · exact validateCells_ends (by omega) (by omega)

theorem binPasses_iff : BinPasses h t i k ↔
    ¬ ((h.storage t).length * hblockSize % 2 ^ 32 < getU32 (h.data t k) 8 ∨
      getU32 (h.data t k) 4 / hblockSize ≠ i) ∧
    getU32 (h.data t k) 0 = hvHBinSignature ∧
    ∀ off, CellReached (h.data t k) off → off < getU32 (h.data t k) 8 →
      CellPasses (h.data t k) off := by
  rw [not_or, Nat.not_lt, ne_eq, Decidable.not_not]
  constructor
  · intro hp
    exact ⟨⟨hp.size, hp.offset⟩, hp.signature, hp.cells⟩
  · rintro ⟨⟨hsize, hoffset⟩, hsig, hcells⟩
    exact ⟨hsize, hoffset, hsig, hcells⟩

/-- What the loop does at a block with a bin, once the bin has been looked at:
    it goes on behind a bin that passes, and only there. -/
theorem validateBins_bin {fuel : Nat} {status : CmCheckStatus} (hi : i < (h.storage t).length)
    (hk : ((h.storage t).blockList i).binAddress = some k)
    (hv : hvValidateBin (h.data t k) fuel = some status) :
    (BinPasses h t i k ∧ validateBins h (fuel + 1) (t :: ts) i
      = validateBins h fuel (t :: ts) (i + getU32 (h.data t k) 8 / hblockSize)) ∨
    (¬ BinPasses h t i k ∧ ∃ bad, bad ≠ .good ∧
      validateBins h (fuel + 1) (t :: ts) i = some bad) := by
  rw [binPasses_iff, ← hvValidateBin_good hv, validateBins, if_pos hi, hk]
  simp only
  split
  · rename_i hbad
    exact .inr ⟨fun hp => hp.1 hbad, _, by decide, rfl⟩
  rename_i hok
  rw [hv]
  by_cases hgood : status = .good
  · subst hgood
    exact .inl ⟨⟨hok, rfl⟩, rfl⟩
  · grind

theorem validateBins_bin_some
    (hi : i < (h.storage t).length) (hk : ((h.storage t).blockList i).binAddress = some k)
    (hrun : validateBins h (fuel + 1) (t :: ts) i = some status) :
    (BinPasses h t i k ∧ validateBins h fuel (t :: ts) (i + getU32 (h.data t k) 8 / hblockSize)
      = some status) ∨ (¬ BinPasses h t i k ∧ status ≠ .good) := by
  cases hv : hvValidateBin (h.data t k) fuel with
  | none =>
    rw [validateBins, if_pos hi, hk] at hrun
    simp only [hv] at hrun
    split at hrun
    · rename_i hbad
      cases hrun
      exact .inr ⟨fun hp => (binPasses_iff.mp hp).1 hbad, by decide⟩
    · cases hrun
  | some st =>
    rcases @validateBins_bin h t ts i k fuel st hi hk hv with ⟨hp, heq⟩ | ⟨hp, bad, hbad, heq⟩
    · rw [heq] at hrun
      exact .inl ⟨hp, hrun⟩
    · rw [heq] at hrun
      cases hrun
      exact .inr ⟨hp, hbad⟩

/-! ### Blocks that are reached -/

theorem blockReached_nil {t' : StorageType} {j : Nat} : ¬ BlockReached h ([], i) t' j := by
  rintro ⟨_, ts, hreach⟩
  rcases hreach.cases_head with heq | ⟨c, hc, _⟩
  · cases heq
  · cases hc

theorem blockReached_end (hi : (h.storage t).length ≤ i) {t' : StorageType} {j : Nat} :
    BlockReached h (t :: ts, i) t' j ↔ BlockReached h (ts, 0) t' j := by
  constructor
  · rintro ⟨hj, ts', hreach⟩
    rcases hreach.cases_head with heq | ⟨c, hc, hrest⟩
    · cases heq
      omega
    · cases hc with
      | bin hlt _ _ => omega
      | storage _ => exact ⟨hj, ts', hrest⟩
  · rintro ⟨hj, ts', hreach⟩
    exact ⟨hj, ts', .head (.storage hi) hreach⟩

theorem blockReached_self (hi : i < (h.storage t).length) : BlockReached h (t :: ts, i) t i :=
  ⟨hi, ts, .refl⟩

section

variable (hi : i < (h.storage t).length) (hk : ((h.storage t).blockList i).binAddress = some k)

include hi hk

/-- Behind a bin that passes the walk goes on. -/
theorem blockReached_bin (hp : BinPasses h t i k) {t' : StorageType} {j : Nat} :
    BlockReached h (t :: ts, i) t' j ↔ (t' = t ∧ j = i) ∨
      BlockReached h (t :: ts, i + getU32 (h.data t k) 8 / hblockSize) t' j := by
  constructor
  · rintro ⟨hj, ts', hreach⟩
    rcases hreach.cases_head with heq | ⟨c, hc, hrest⟩
    · cases heq
      exact .inl ⟨rfl, rfl⟩
    cases hc with
    | bin _ hk' _ =>
      cases hk.symm.trans hk'
      exact .inr ⟨hj, ts', hrest⟩
    | storage _ => omega
  · rintro (⟨rfl, rfl⟩ | ⟨hj, ts', hreach⟩)
    · exact blockReached_self hi
    · exact ⟨hj, ts', .head (.bin hi hk hp) hreach⟩

/-- At a bin that fails the walk stops. -/
theorem blockReached_stop (hp : ¬ BinPasses h t i k) {t' : StorageType} {j : Nat} :
    BlockReached h (t :: ts, i) t' j ↔ t' = t ∧ j = i := by
  constructor
  · rintro ⟨_, ts', hreach⟩
    rcases hreach.cases_head with heq | ⟨c, hc, _⟩
    · cases heq
      exact ⟨rfl, rfl⟩
    cases hc with
    | bin _ hk' hp' =>
      cases hk.symm.trans hk'
      exact absurd hp' hp
    | storage _ => omega
  · rintro ⟨rfl, rfl⟩
    exact blockReached_self hi

end

/-- Every block that is reached has a bin, of at least one block if it
    passes. -/
def BinsThere (h : HHive) (s : List StorageType × Nat) : Prop :=
  ∀ t i, BlockReached h s t i → ∃ k, ((h.storage t).blockList i).binAddress = some k ∧
    (BinPasses h t i k → hblockSize ≤ getU32 (h.data t k) 8)

/-- Every bin that is reached passes. -/
def AllPass (h : HHive) (s : List StorageType × Nat) : Prop :=
  ∀ t i k, BlockReached h s t i → ((h.storage t).blockList i).binAddress = some k →
    BinPasses h t i k

/-- A run that ends has met no missing and no empty bin, and has reported
    success exactly when every bin passes. -/
theorem validateBins_some (hrun : validateBins h fuel ts i = some status) :
    BinsThere h (ts, i) ∧ (status = .good ↔ AllPass h (ts, i)) := by
  induction fuel generalizing ts i with
  | zero => simp [validateBins] at hrun
  | succ fuel ih =>
    cases ts with
    | nil =>
      cases hrun
      refine ⟨fun t j hr => absurd hr blockReached_nil, ?_⟩
      simp only [true_iff]
      exact fun t j k hr => absurd hr blockReached_nil
    | cons t ts =>
      by_cases hi : i < (h.storage t).length
      · cases hk : ((h.storage t).blockList i).binAddress with
        | none =>
          -- the loop stays at a block without a bin
          rw [validateBins, if_pos hi, hk] at hrun
          obtain ⟨k, hk', _⟩ := (ih hrun).1 t i (blockReached_self hi)
          cases hk.symm.trans hk'
        | some k =>
          rcases validateBins_bin_some hi hk hrun with ⟨hp, hnext⟩ | ⟨hp, hbad⟩
          · obtain ⟨hthere, hgood⟩ := ih hnext
            have hself : hblockSize ≤ getU32 (h.data t k) 8 := by
              by_contra hshort
              -- a short bin is looked at again and again
              have hzero : getU32 (h.data t k) 8 / hblockSize = 0 := by
                simp only [hblockSize] at hshort ⊢
                omega
              rw [hzero, Nat.add_zero] at hthere
              obtain ⟨k', hk', hsize⟩ := hthere t i (blockReached_self hi)
              cases hk.symm.trans hk'
              exact hshort (hsize hp)
            constructor
            · intro t' j hr
              rcases (blockReached_bin hi hk hp).mp hr with ⟨rfl, rfl⟩ | hr
              · exact ⟨k, hk, fun _ => hself⟩
              · exact hthere t' j hr
            rw [hgood]
            constructor
            · intro hall t' j k' hr hk'
              rcases (blockReached_bin hi hk hp).mp hr with ⟨rfl, rfl⟩ | hr
              · cases hk.symm.trans hk'
                exact hp
              · exact hall t' j k' hr hk'
            · intro hall t' j k' hr hk'
              exact hall t' j k' ((blockReached_bin hi hk hp).mpr (.inr hr)) hk'
          · constructor
            · intro t' j hr
              obtain ⟨rfl, rfl⟩ := (blockReached_stop hi hk hp).mp hr
              exact ⟨k, hk, fun hp' => absurd hp' hp⟩
            · refine ⟨fun hg => absurd hg hbad, fun hall => ?_⟩
              exact absurd (hall t i k (blockReached_self hi) hk) hp
      · rw [validateBins, if_neg hi] at hrun
        obtain ⟨hthere, hgood⟩ := ih hrun
        have hend := fun {t'} {j} => @blockReached_end h t ts i (Nat.le_of_not_lt hi) t' j
        refine ⟨fun t' j hr => hthere t' j (hend.mp hr), hgood.trans ?_⟩
        constructor
        · exact fun hall t' j k hr hk => hall t' j k (hend.mp hr) hk
        · exact fun hall t' j k hr hk => hall t' j k (hend.mpr hr) hk

/-- Where no bin that is reached is missing or empty, validation ends. -/
theorem validateBins_ends (hthere : BinsThere h (ts, i)) :
    ∃ bound, ∀ fuel, bound ≤ fuel → ∃ status, validateBins h fuel ts i = some status := by
  induction ts generalizing i with
  | nil =>
    refine ⟨1, fun fuel hfuel => ⟨.good, ?_⟩⟩
    obtain _ | fuel := fuel
    · omega
    rfl
  | cons t ts ih =>
    -- inside a storage the block index grows with every bin
    induction hn : (h.storage t).length - i using Nat.strongRecOn generalizing i with
    | _ n ihn =>
      by_cases hi : i < (h.storage t).length
      · obtain ⟨k, hk, hsize⟩ := hthere t i (blockReached_self hi)
        obtain ⟨bound, hbound⟩ : ∃ bound, BinPasses h t i k → ∀ fuel, bound ≤ fuel →
            ∃ status, validateBins h fuel (t :: ts) (i + getU32 (h.data t k) 8 / hblockSize)
              = some status := by
          by_cases hp : BinPasses h t i k
          · have hstep : 0 < getU32 (h.data t k) 8 / hblockSize :=
              Nat.div_pos (hsize hp) (by decide)
            obtain ⟨bound, hbound⟩ := @ihn _ (by omega)
              (i + getU32 (h.data t k) 8 / hblockSize)
              (fun t' j hr => hthere t' j ((blockReached_bin hi hk hp).mpr (.inr hr))) rfl
            exact ⟨bound, fun _ => hbound⟩
          · exact ⟨0, fun hp' => absurd hp' hp⟩
        refine ⟨bound + getU32 (h.data t k) 8 + 2, fun fuel hfuel => ?_⟩
        obtain _ | fuel := fuel
        · omega
        obtain ⟨st, hst⟩ := @hvValidateBin_ends (h.data t k) fuel (by omega)
        rcases @validateBins_bin h t ts i k fuel st hi hk hst with ⟨hp, heq⟩ | ⟨_, bad, _, heq⟩
        · rw [heq]
          exact hbound hp fuel (by omega)
        · exact ⟨bad, heq⟩
      · have hend := Nat.le_of_not_lt hi
        obtain ⟨bound, hbound⟩ := ih (fun t' j hr => hthere t' j ((blockReached_end hend).mpr hr))
        refine ⟨bound + 1, fun fuel hfuel => ?_⟩
        obtain _ | fuel := fuel
        · omega
        rw [validateBins, if_neg hi]
        exact hbound fuel (by omega)

/-- No bin that is reached has a fault that is not looked for. -/
def AllClean (h : HHive) (s : List StorageType × Nat) : Prop :=
  ∀ t i k, BlockReached h s t i → ((h.storage t).blockList i).binAddress = some k →
    NothingOverlooked h t i k

/-- Bins that pass and have no fault that is not looked for cover a storage,
    and the walk goes on to the next. -/
theorem covered_of_reached (hthere : BinsThere h (t :: ts, i)) (hall : AllPass h (t :: ts, i))
    (hclean : AllClean h (t :: ts, i)) (hi : i ≤ (h.storage t).length) :
    Covered h t i ∧ ∀ t' j, BlockReached h (ts, 0) t' j → BlockReached h (t :: ts, i) t' j := by
  induction hn : (h.storage t).length - i using Nat.strongRecOn generalizing i with
  | _ n ih =>
    by_cases hend : i = (h.storage t).length
    · subst hend
      exact ⟨.stop, fun t' j hr => (blockReached_end (Nat.le_refl _)).mpr hr⟩
    have hlt : i < (h.storage t).length := by omega
    have hself : BlockReached h (t :: ts, i) t i := blockReached_self hlt
    obtain ⟨k, hk, hsize⟩ := hthere t i hself
    have hp := hall t i k hself hk
    have hc := hclean t i k hself hk
    have hstep : 0 < getU32 (h.data t k) 8 / hblockSize := Nat.div_pos (hsize hp) (by decide)
    have hsub := fun {t'} {j} => @blockReached_bin h t ts i k hlt hk hp t' j
    obtain ⟨hcov, hnext⟩ := @ih _ (by omega) (i + getU32 (h.data t k) 8 / hblockSize)
      (fun t' j hr => hthere t' j (hsub.mpr (.inr hr)))
      (fun t' j k' hr => hall t' j k' (hsub.mpr (.inr hr)))
      (fun t' j k' hr => hclean t' j k' (hsub.mpr (.inr hr))) hc.inside rfl
    refine ⟨.bin hlt hk ?_ ?_ hstep hc.inside (tiled_of_reached hp.cells hc.cells) hcov, ?_⟩
    · have hmod := Nat.div_add_mod (getU32 (h.data t k) 4) hblockSize
      rw [hc.offset, hp.offset, Nat.add_zero, Nat.mul_comm] at hmod
      exact hmod.symm
    · have hmod := Nat.div_add_mod (getU32 (h.data t k) 8) hblockSize
      rw [hc.size] at hmod
      rw [Nat.mul_comm]
      exact hmod.symm
    · exact fun t' j hr => hsub.mpr (.inr (hnext t' j hr))

theorem all_covered (hthere : BinsThere h (ts, 0)) (hall : AllPass h (ts, 0))
    (hclean : AllClean h (ts, 0)) : ∀ t ∈ ts, Covered h t 0 := by
  induction ts with
  | nil => simp
  | cons t ts ih =>
    obtain ⟨hcov, hnext⟩ := covered_of_reached hthere hall hclean (Nat.zero_le _)
    intro t' ht'
    rcases List.mem_cons.mp ht' with rfl | ht'
    · exact hcov
    · exact ih (fun t' j hr => hthere t' j (hnext t' j hr))
        (fun t' j k hr => hall t' j k (hnext t' j hr))
        (fun t' j k hr => hclean t' j k (hnext t' j hr)) t' ht'

/-- What is left of the storages is covered. -/
def CoveredFrom (h : HHive) : List StorageType × Nat → Prop
  | ([], _) => True
  | (t :: ts, i) => Covered h t i ∧ ∀ t' ∈ ts, Covered h t' 0

theorem CoveredFrom.next {s s' : List StorageType × Nat} (hc : CoveredFrom h s)
    (hn : NextBlock h s s') : CoveredFrom h s' := by
  cases hn with
  | bin hlt hk hp =>
    obtain ⟨hcov, hrest⟩ := hc
    refine ⟨?_, hrest⟩
    cases hcov with
    | stop => omega
    | bin _ hk' _ hsize _ _ _ hnext =>
      cases hk.symm.trans hk'
      rw [hsize, Nat.mul_div_cancel _ (by decide)]
      exact hnext
  | @storage t ts i _ =>
    cases ts with
    | nil => trivial
    | cons t' ts => exact ⟨hc.2 t' (by simp), fun u hu => hc.2 u (by simp [hu])⟩

/-- In covered storages no bin has a fault that is not looked for. -/
theorem allClean_of_covered {s : List StorageType × Nat} (hc : CoveredFrom h s) : AllClean h s := by
  rintro t i k ⟨hlt, ts, hreach⟩ hk
  have hfrom : ∀ s', Relation.ReflTransGen (NextBlock h) s s' → CoveredFrom h s' := by
    intro s' hreach
    induction hreach with
    | refl => exact hc
    | tail _ hn ih => exact ih.next hn
  obtain ⟨hcov, _⟩ := hfrom _ hreach
  cases hcov with
  | stop => omega
  | bin _ hk' hoffset hsize _ hle htiled _ =>
    cases hk.symm.trans hk'
    refine ⟨?_, ?_, ?_, htiled.reached⟩
    · rw [hoffset]
      exact Nat.mul_mod_left _ _
    · rw [hsize]
      exact Nat.mul_mod_left _ _
    · rw [hsize, Nat.mul_div_cancel _ (by decide)]
      exact hle

end Bins

/-- Validation ends and is sound exactly for the hives with a broken signature
    and for those in which every block it comes to has a bin, of at least one
    block if it passes, and either a bin fails a test or no bin has a fault
    that is not looked for. -/
theorem validationSound_iff (h : HHive) :
    ValidationSound h ↔ h.signature ≠ hvHHiveSignature ∨ Reliable h (h.storages, 0) := by
  by_cases hsig : h.signature = hvHHiveSignature
  · have heq : ∀ fuel, hvValidateHive h fuel = validateBins h fuel h.storages 0 := by
      intro fuel
      rw [hvValidateHive, if_neg (by simp [hsig])]
    simp only [ValidationSound, heq, hsig, ne_eq, not_true, false_or]
    constructor
    · rintro ⟨fuel, status, hrun, hcov⟩
      obtain ⟨hthere, hgood⟩ := validateBins_some hrun
      refine ⟨hthere, ?_⟩
      by_cases hall : AllPass h (h.storages, 0)
      · refine .inr (allClean_of_covered ?_)
        have hcov := hcov (hgood.mpr hall)
        cases hs : h.storages with
        | nil => trivial
        | cons t ts =>
          rw [hs] at hcov
          exact ⟨hcov t (by simp), fun t' ht' => hcov t' (by simp [ht'])⟩
      · simp only [AllPass, not_forall] at hall
        obtain ⟨t, i, k, hr, hk, hp⟩ := hall
        exact .inl ⟨t, i, k, hr, hk, hp⟩
    · rintro ⟨hthere, hfaults⟩
      obtain ⟨bound, hbound⟩ := validateBins_ends hthere
      obtain ⟨status, hrun⟩ := hbound bound (Nat.le_refl _)
      refine ⟨bound, status, hrun, fun hgood => ?_⟩
      have hall := (validateBins_some hrun).2.mp hgood
      rcases hfaults with ⟨t, i, k, hr, hk, hp⟩ | hclean
      · exact absurd (hall t i k hr hk) hp
      · exact all_covered hthere hall hclean
  · simp only [ne_eq, hsig, not_false_iff, true_or, iff_true]
    refine ⟨0, .hiveCorruptSignature, by rw [hvValidateHive, if_pos hsig], ?_⟩
    intro hbad
    cases hbad

/-- A hive whose stable storage is one block, with the entry of that block and
    the bytes of its bin. -/
def oneBlockHive (entry : HMapEntry) (data : Buf) : HHive :=
  let h := hvpCreateHive .primary 0 zeroBuf
  h.setDual .stable
    { h.storage .stable with length := 1, blockList := fun _ => entry, bins := [⟨4096, data⟩] }

/-- A bin of one block, with one allocated cell that is 16 bytes too long. -/
def overlongBin : Buf :=
  putU32 (putU32 (putU32 zeroBuf 0 hvHBinSignature) 8 4096) sizeofHBin (ofLong (-4080))

/-- At a block without a bin the validator stays for ever, and it reports a
    bin as good whose only cell ends in the next block. -/
theorem not_validationSound :
    (∃ h, ∀ fuel, hvValidateHive h fuel = none) ∧
    ∃ h, hvValidateHive h 5 = some .good ∧ ¬ ∀ t ∈ h.storages, Covered h t 0 := by
  constructor
  · refine ⟨oneBlockHive ⟨none, none⟩ zeroBuf, ?_⟩
    intro fuel
    induction fuel with
    | zero => rfl
    | succ fuel ih => exact ih
  · refine ⟨oneBlockHive ⟨some ⟨.stable, 0, 0⟩, some 0⟩ overlongBin, by decide +kernel, ?_⟩
    intro hcov
    have hclean := allClean_of_covered
      (show CoveredFrom (oneBlockHive ⟨some ⟨.stable, 0, 0⟩, some 0⟩ overlongBin)
        ([.stable, .volatile], 0) from
        ⟨hcov .stable (by decide), fun t ht => hcov t (by simp at ht; subst ht; decide)⟩)
    have hbin := hclean .stable 0 0 (blockReached_self (by decide)) rfl
    have hnext : NextCell overlongBin sizeofHBin 4112 := by
      refine ⟨by decide +kernel, ⟨by decide +kernel, by decide +kernel⟩, by decide +kernel⟩
    have hend : 4112 ≤ getU32 overlongBin 8 := hbin.cells 4112 (.single hnext)
    exact absurd hend (by decide +kernel)

end Hive
