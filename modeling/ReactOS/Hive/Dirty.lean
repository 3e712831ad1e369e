import ReactOS.Hive.Retry

/-! # What a dirty mark covers

    A cell is on its way to the disk when every block that holds a byte of it
    is set in `DirtyVector`.  `HvMarkCellDirty` computes the blocks from the
    index of the cell alone: the size of the cell does not enter, and a cell
    that starts on a block boundary gets no block at all. -/

namespace Hive

open Bytes

/-! ## Section 1: Cells and their blocks -/

/-- A stable cell of `size` bytes, header included, that is allocated. -/
structure HHive.Allocated (h : HHive) (cellIndex size : Nat) : Prop where
  stable : hvGetCellType cellIndex = .stable
  index : cellIndex < 2 ^ 32
  /-- The header of an allocated cell has the negated size. -/
  header : ∃ p, hvpGetCellHeader h cellIndex = some p ∧ h.readLong p = some (-(size : Int))
  size_pos : 0 < size
  inside : cellIndex + size ≤ (h.storage .stable).length * hblockSize

/-- Block `b` of the stable storage holds a byte of the cell. -/
def CellBlock (cellIndex size b : Nat) : Prop :=
  ∃ a, cellIndex ≤ a ∧ a < cellIndex + size ∧ a / hblockSize = b

theorem cellBlock_iff {cellIndex size b : Nat} (hsize : 0 < size) :
    CellBlock cellIndex size b ↔
      cellIndex / hblockSize ≤ b ∧ b ≤ (cellIndex + size - 1) / hblockSize := by
  constructor
  · rintro ⟨a, hlow, hhigh, rfl⟩
    exact ⟨Nat.div_le_div_right hlow, Nat.div_le_div_right (by omega)⟩
  rintro ⟨hlow, hhigh⟩
  -- the first byte of the block, or of the cell if it starts inside the block
  refine ⟨max cellIndex (b * hblockSize), Nat.le_max_left _ _, ?_, ?_⟩
  · have := Nat.mul_le_of_le_div _ _ _ hhigh
    omega
  · simp only [hblockSize] at *
    omega

/-! ## Section 2: The mark -/

section Mark

variable {h h' : HHive} {cellIndex size : Nat}

/-- The count of blocks that `HvMarkCellDirty` sets is one, or none for a cell
    on a block boundary.  In the last block of the address space the masked
    subtraction gives a count that no bitmap has room for. -/
theorem markCount_spec (hindex : cellIndex < 2 ^ 31) :
    let last := hvGetCellBlock ((cellIndex + hblockSize - 1) % 2 ^ 32)
    let count := (last + 2 ^ 32 - hvGetCellBlock cellIndex) % 2 ^ 32
    hvGetCellBlock cellIndex = cellIndex / 4096 ∧
      (count = (if cellIndex % 4096 = 0 then 0 else 1) ∨
        cellIndex / 4096 + count = 2 ^ 32) := by
  simp only [hvGetCellBlock, hblockSize]
  refine ⟨by omega, ?_⟩
  split <;> omega

theorem hvMarkCellDirty_marked (hcell : h.Allocated cellIndex size)
    (hbits : h.dirtyVector.sizeOfBitMap < 2 ^ 32) (hmark : hvMarkCellDirty h cellIndex = some h')
    (b : Nat) :
    h'.dirtyVector.marked b = true ↔ h.dirtyVector.marked b = true ∨
      b = cellIndex / hblockSize ∧ cellIndex % hblockSize ≠ 0 := by
  have hindex : cellIndex < 2 ^ 31 := by
    have hst := hcell.stable
    have hlt := hcell.index
    simp only [hvGetCellType] at hst
    split at hst
    · omega
    · cases hst
  obtain ⟨hblock, hcount⟩ := markCount_spec hindex
  unfold hvMarkCellDirty at hmark
  rw [if_neg (by simp [hcell.stable])] at hmark
  simp only [rtlSetBits, Option.bind_eq_bind] at hmark
  split at hmark
  · rename_i hfits
    simp only [Option.bind_some, Option.some.injEq] at hmark
    subst hmark
    rw [hblock] at hfits hcount ⊢
    generalize (hvGetCellBlock ((cellIndex + hblockSize - 1) % 2 ^ 32) + 2 ^ 32 -
      cellIndex / 4096) % 2 ^ 32 = count at hfits hcount ⊢
    have hcount' : count = if cellIndex % 4096 = 0 then 0 else 1 := hcount.resolve_right (by omega)
    simp only [RtlBitmap.marked, Bool.and_eq_true, Bool.or_eq_true, decide_eq_true_eq, hblockSize]
    cases h.dirtyVector.bits b <;> simp <;> split at hcount' <;> omega
  · cases hmark

/-- The writers take the marked blocks in order. -/
theorem cell_written_iff {blocks : List Nat} (hcell : h.Allocated cellIndex size)
    (hwrite : dirtyBlocks h'.dirtyVector (h.storage .stable).length = some blocks) :
    (∀ b, CellBlock cellIndex size b → b ∈ blocks) ↔
      ∀ b, CellBlock cellIndex size b → h'.dirtyVector.marked b = true := by
  apply forall₂_congr
  rintro b ⟨a, hlow, hhigh, rfl⟩
  have hlt : a / hblockSize < (h.storage .stable).length := by
    have hinside := hcell.inside
    exact Nat.div_lt_of_lt_mul (by rw [Nat.mul_comm]; omega)
  rw [dirtyBlocks_eq_some hwrite, mem_marks]
  exact ⟨fun hb => hb.2.2, fun hmarked => ⟨Nat.zero_le _, hlt, hmarked⟩⟩

/-- The mark covers a stable cell, and the next synchronisation writes all of it, if and only if
    the blocks of the cell were marked already, except for the block in which it starts if that is
    not at the start of the block. -/
theorem mark_covers_cell (hcell : h.Allocated cellIndex size)
    (hbits : h.dirtyVector.sizeOfBitMap < 2 ^ 32)
    (hmark : hvMarkCellDirty h cellIndex = some h') :
    ((∀ b, CellBlock cellIndex size b → h'.dirtyVector.marked b = true) ↔
      ∀ b, CellBlock cellIndex size b → h.dirtyVector.marked b = true ∨
        b = cellIndex / hblockSize ∧ cellIndex % hblockSize ≠ 0) ∧
    ∀ blocks, dirtyBlocks h'.dirtyVector (h.storage .stable).length = some blocks →
      ((∀ b, CellBlock cellIndex size b → b ∈ blocks) ↔
        ∀ b, CellBlock cellIndex size b → h.dirtyVector.marked b = true ∨
          b = cellIndex / hblockSize ∧ cellIndex % hblockSize ≠ 0) := by
  have hcovers : (∀ b, CellBlock cellIndex size b → h'.dirtyVector.marked b = true) ↔
      ∀ b, CellBlock cellIndex size b → h.dirtyVector.marked b = true ∨
        b = cellIndex / hblockSize ∧ cellIndex % hblockSize ≠ 0 :=
    forall₂_congr fun b _ => hvMarkCellDirty_marked hcell hbits hmark b
  exact ⟨hcovers, fun _ hwrite => (cell_written_iff hcell hwrite).trans hcovers⟩

end Mark

/-! ## Section 3: Cells of a bin of two blocks -/

/-- A hive of two blocks with nothing marked, whose bytes from offset `off` on
    are the header of a cell of `size` bytes. -/
def twoBlocks (off size : Nat) : HHive :=
  plainHive 2 ⟨32, fun _ => false⟩ (putU32 zeroBuf off (2 ^ 32 - size))

/-- A cell of 16 bytes behind the header of the bin is covered. -/
theorem mark_covers_small_cell :
    (twoBlocks 32 16).Allocated 32 16 ∧
      ∃ h', hvMarkCellDirty (twoBlocks 32 16) 32 = some h' ∧
        ∀ b, CellBlock 32 16 b → h'.dirtyVector.marked b = true := by
  have hcell : (twoBlocks 32 16).Allocated 32 16 :=
    ⟨rfl, by decide, ⟨_, rfl, by decide +kernel⟩, by decide, by decide⟩
  refine ⟨hcell, _, rfl, (mark_covers_cell hcell (by decide) rfl).1.2 fun b hb => .inr ?_⟩
  rw [cellBlock_iff (by decide)] at hb
  simp only [hblockSize] at hb ⊢
  omega

/-- A cell of 8000 bytes in the same place reaches into the second block,
    which stays clean. -/
theorem large_cell_not_covered :
    (twoBlocks 32 8000).Allocated 32 8000 ∧
      ∃ h', hvMarkCellDirty (twoBlocks 32 8000) 32 = some h' ∧
        CellBlock 32 8000 1 ∧ h'.dirtyVector.marked 1 = false := by
  refine ⟨⟨rfl, by decide, ⟨_, rfl, by decide +kernel⟩, by decide, by decide⟩, _, rfl, ?_, rfl⟩
  exact (cellBlock_iff (by decide)).2 ⟨by decide, by decide⟩

end Hive
