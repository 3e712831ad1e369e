import Mathlib.Data.Nat.Bitwise
import ReactOS.Lib.Bytes

/-! # The registry hive format

    Constants, cell indices and the base block of `hivedata.h`, the header
    checksum of `hivesum.c` and the header check of `hiveinit.c`.

    A base block is kept as the 4096 bytes it is in memory and on disk; a
    field is a 32-bit load at its offset, so that the checksum, which reads
    the block as an array of `ULONG`s, is the function the code computes.

    `ULONG` arithmetic is natural-number arithmetic with an explicit
    `% 2 ^ 32` wherever the C expression is assigned to a `ULONG`. -/

namespace Hive

open Bytes

/-! ## Constants -/

/-- `HBLOCK_SIZE` -/
abbrev hblockSize : Nat := 4096

/-- `HSECTOR_SIZE` -/
abbrev hsectorSize : Nat := 512

/-- `HV_LOG_HEADER_SIZE`, the offset of `Reserved2` in `HBASE_BLOCK`. -/
abbrev hvLogHeaderSize : Nat := 512

/-- `sizeof(HBIN)` -/
abbrev sizeofHBin : Nat := 32

/-- `sizeof(HCELL)` -/
abbrev sizeofHCell : Nat := 4

/-- `HCELL_NIL` -/
abbrev hcellNil : Nat := 0xffffffff

/-- `HV_HHIVE_SIGNATURE` -/
abbrev hvHHiveSignature : Nat := 0xbee0bee0

/-- `HV_HBLOCK_SIGNATURE`, "regf" -/
abbrev hvHBlockSignature : Nat := 0x66676572

/-- `HV_HBIN_SIGNATURE`, "hbin" -/
abbrev hvHBinSignature : Nat := 0x6e696268

/-- `HV_LOG_DIRTY_SIGNATURE`, "DIRT" -/
abbrev hvLogDirtySignature : Nat := 0x54524944

/-- `HV_LOG_DIRTY_BLOCK` -/
abbrev hvLogDirtyBlock : UInt8 := 0xff

/-- `HFILE_TYPE_PRIMARY`, `HFILE_TYPE_LOG` and `HFILE_TYPE_ALTERNATE`, the
    files of a hive. -/
inductive FileType where
  | primary
  | log
  | alternate
  deriving DecidableEq, Repr

/-- The number a file type is stored as in a base block. -/
def FileType.toNat : FileType → Nat
  | .primary => 0
  | .log => 1
  | .alternate => 3

/-- The macro `ROUND_UP(a,b)`. -/
def roundUp (a b : Nat) : Nat := (a + b - 1) / b * b

/-! ## Cell indices -/

variable {a : Nat}

/-- `HSTORAGE_TYPE` -/
inductive StorageType where
  | stable
  | volatile
  deriving DecidableEq, Repr

/-- The value of the enumeration constant. -/
def StorageType.toNat : StorageType → Nat
  | .stable => 0
  | .volatile => 1

/-- `HvGetCellType(Cell)`: the top bit. -/
def hvGetCellType (cell : Nat) : StorageType :=
  if cell / 2 ^ 31 % 2 = 0 then .stable else .volatile

/-- `HvGetCellBlock(Cell)`: bits 12 to 30. -/
def hvGetCellBlock (cell : Nat) : Nat := cell / 4096 % 2 ^ 19

/-- `(Cell & HCELL_OFFSET_MASK) >> HCELL_OFFSET_SHIFT`: bits 0 to 11. -/
def hvGetCellOffset (cell : Nat) : Nat := cell % 4096

/-- The index of the cell at file offset `a` of storage `t`. -/
def cellIndex (t : StorageType) (a : Nat) : Nat := t.toNat * 2 ^ 31 + a

theorem hvGetCellType_cellIndex {t : StorageType} (h : a < 2 ^ 31) :
    hvGetCellType (cellIndex t a) = t := by
  cases t <;> simp [hvGetCellType, cellIndex, StorageType.toNat] <;> omega

theorem hvGetCellBlock_cellIndex {t : StorageType} (h : a < 2 ^ 31) :
    hvGetCellBlock (cellIndex t a) = a / 4096 := by
  cases t <;> simp [hvGetCellBlock, cellIndex, StorageType.toNat] <;> omega

theorem hvGetCellOffset_cellIndex (t : StorageType) (a : Nat) :
    hvGetCellOffset (cellIndex t a) = a % 4096 := by
  unfold hvGetCellOffset cellIndex
  omega

theorem cellIndex_lt {t : StorageType} {a : Nat} (h : a < 2 ^ 31) : cellIndex t a < 2 ^ 32 := by
  cases t <;> simp [cellIndex, StorageType.toNat] <;> omega

theorem cellIndex_mod (t : StorageType) (h : a < 2 ^ 31) : cellIndex t a % 2 ^ 31 = a := by
  cases t <;> simp [cellIndex, StorageType.toNat] <;> omega

theorem or_typeBit (t : StorageType) (h : a < 2 ^ 31) : a ||| t.toNat * 2 ^ 31 = cellIndex t a := by
  rw [Nat.or_comm, cellIndex, Nat.mul_comm]
  exact (Nat.two_pow_add_eq_or_of_lt h t.toNat).symm

/-! ## The base block -/

variable {b b' : Buf}

namespace HBaseBlock

abbrev signature (b : Buf) : Nat := getU32 b 0
abbrev sequence1 (b : Buf) : Nat := getU32 b 4
abbrev sequence2 (b : Buf) : Nat := getU32 b 8
abbrev timeStampLow (b : Buf) : Nat := getU32 b 12
abbrev timeStampHigh (b : Buf) : Nat := getU32 b 16
abbrev major (b : Buf) : Nat := getU32 b 20
abbrev minor (b : Buf) : Nat := getU32 b 24
abbrev type (b : Buf) : Nat := getU32 b 28
abbrev format (b : Buf) : Nat := getU32 b 32
abbrev rootCell (b : Buf) : Nat := getU32 b 36
abbrev length (b : Buf) : Nat := getU32 b 40
abbrev cluster (b : Buf) : Nat := getU32 b 44
abbrev checkSum (b : Buf) : Nat := getU32 b 508
abbrev bootType (b : Buf) : Nat := getU32 b 4088
abbrev bootRecover (b : Buf) : Nat := getU32 b 4092

abbrev setSignature (b : Buf) (v : Nat) : Buf := putU32 b 0 v
abbrev setSequence1 (b : Buf) (v : Nat) : Buf := putU32 b 4 v
abbrev setSequence2 (b : Buf) (v : Nat) : Buf := putU32 b 8 v
abbrev setTimeStamp (b : Buf) (low high : Nat) : Buf := putU32 (putU32 b 12 low) 16 high
abbrev setMajor (b : Buf) (v : Nat) : Buf := putU32 b 20 v
abbrev setMinor (b : Buf) (v : Nat) : Buf := putU32 b 24 v
abbrev setType (b : Buf) (v : Nat) : Buf := putU32 b 28 v
abbrev setFormat (b : Buf) (v : Nat) : Buf := putU32 b 32 v
abbrev setRootCell (b : Buf) (v : Nat) : Buf := putU32 b 36 v
abbrev setLength (b : Buf) (v : Nat) : Buf := putU32 b 40 v
abbrev setCluster (b : Buf) (v : Nat) : Buf := putU32 b 44 v
abbrev setCheckSum (b : Buf) (v : Nat) : Buf := putU32 b 508 v
abbrev setBootType (b : Buf) (v : Nat) : Buf := putU32 b 4088 v

end HBaseBlock

/-- `HvpHiveHeaderChecksum`: the exclusive or of the first 127 words, kept
    away from `0` and from `0xffffffff`. -/
def hvpHiveHeaderChecksum (b : Buf) : Nat :=
  let sum := (List.range 127).foldl (fun sum i => sum ^^^ getU32 b (4 * i)) 0
  let sum := if sum = 0xffffffff then 0xfffffffe else sum
  if sum = 0 then 1 else sum

/-- `HvpVerifyHiveHeader` -/
def hvpVerifyHiveHeader (b : Buf) (fileType : Nat) : Bool :=
  !(HBaseBlock.signature b ≠ hvHBlockSignature ||
    HBaseBlock.major b ≠ 1 ||
    HBaseBlock.minor b < 3 ||
    HBaseBlock.type b ≠ fileType ||
    HBaseBlock.format b ≠ 1 ||
    HBaseBlock.cluster b ≠ 1 ||
    HBaseBlock.sequence1 b ≠ HBaseBlock.sequence2 b ||
    hvpHiveHeaderChecksum b ≠ HBaseBlock.checkSum b)

theorem foldl_xor_lt (b : Buf) (l : List Nat) (s : Nat) (hs : s < 2 ^ 32) :
    l.foldl (fun sum i => sum ^^^ getU32 b (4 * i)) s < 2 ^ 32 := by
  induction l generalizing s with
  | nil => exact hs
  | cons i l ih => exact ih _ (Nat.xor_lt_two_pow hs (getU32_lt b (4 * i)))

theorem hvpHiveHeaderChecksum_lt (b : Buf) : hvpHiveHeaderChecksum b < 2 ^ 32 := by
  have := foldl_xor_lt b (List.range 127) 0 (by decide)
  simp only [hvpHiveHeaderChecksum]
  split <;> split <;> omega

theorem foldl_xor_congr (l : List Nat) (s : Nat)
    (h : ∀ i ∈ l, getU32 b (4 * i) = getU32 b' (4 * i)) :
    l.foldl (fun sum i => sum ^^^ getU32 b (4 * i)) s
      = l.foldl (fun sum i => sum ^^^ getU32 b' (4 * i)) s := by
  induction l generalizing s with
  | nil => rfl
  | cons i l ih =>
    simp only [List.foldl_cons]
    rw [h i (by simp), ih _ (fun j hj => h j (by simp [hj]))]

/-- The checksum reads the 508 bytes before the checksum field only. -/
theorem hvpHiveHeaderChecksum_congr (h : ∀ i, i < 508 → b i = b' i) :
    hvpHiveHeaderChecksum b = hvpHiveHeaderChecksum b' := by
  have hw : ∀ i ∈ List.range 127, getU32 b (4 * i) = getU32 b' (4 * i) := by
    intro i hi
    have hi' : i < 127 := List.mem_range.mp hi
    exact getU32_below h (by omega)
  simp only [hvpHiveHeaderChecksum, foldl_xor_congr _ _ hw]

@[simp] theorem hvpHiveHeaderChecksum_setCheckSum (b : Buf) (v : Nat) :
    hvpHiveHeaderChecksum (HBaseBlock.setCheckSum b v) = hvpHiveHeaderChecksum b :=
  hvpHiveHeaderChecksum_congr (fun _ hi => putU32_out (by omega))

theorem hvpVerifyHiveHeader_congr {fileType : Nat} (h : ∀ i, i < 512 → b i = b' i) :
    hvpVerifyHiveHeader b fileType = hvpVerifyHiveHeader b' fileType := by
  have hg : ∀ o, o + 4 ≤ 512 → getU32 b o = getU32 b' o :=
    fun o ho => getU32_below h ho
  have hs : hvpHiveHeaderChecksum b = hvpHiveHeaderChecksum b' :=
    hvpHiveHeaderChecksum_congr (fun i hi => h i (by omega))
  simp only [hvpVerifyHiveHeader, HBaseBlock.signature, HBaseBlock.major, HBaseBlock.minor,
    HBaseBlock.type, HBaseBlock.format, HBaseBlock.cluster, HBaseBlock.sequence1,
    HBaseBlock.sequence2, HBaseBlock.checkSum, hs, hg 0 (by omega), hg 4 (by omega),
    hg 8 (by omega), hg 20 (by omega), hg 24 (by omega), hg 28 (by omega), hg 32 (by omega),
    hg 44 (by omega), hg 508 (by omega)]

theorem hvpVerifyHiveHeader_iff {fileType : Nat} : hvpVerifyHiveHeader b fileType = true ↔
      HBaseBlock.signature b = hvHBlockSignature ∧ HBaseBlock.major b = 1 ∧
      3 ≤ HBaseBlock.minor b ∧ HBaseBlock.type b = fileType ∧ HBaseBlock.format b = 1 ∧
      HBaseBlock.cluster b = 1 ∧ HBaseBlock.sequence1 b = HBaseBlock.sequence2 b ∧
      hvpHiveHeaderChecksum b = HBaseBlock.checkSum b := by
  simp [hvpVerifyHiveHeader, and_assoc]

end Hive
