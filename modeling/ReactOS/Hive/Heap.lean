import ReactOS.Lib.Tiling
import ReactOS.Lib.Chain
import ReactOS.Hive.Cell

/-! # Layout of the cell heap

    The abstract view of the heap, and what it means that the memory of a
    hive represents it.

    - A `Layout` gives, for each storage, the cells of every bin in order and
      the 24 free lists as lists of cells.
    - `Rep G h` says that the headers, the links and the block lists of `h`
      are those of `G`.
    - Every function of `hivecell.c` is a sequence of a few layout changes:
      a cell is put on its list or taken off it, a run of cells of a bin is
      replaced by another run of the same size.  `Rep.setCells` and the lemmas
      of Section 4 say that the stores of the code realise these changes.

    A cell that a function has taken off its list, and that is not marked as
    allocated yet, is `loose`: no cell is loose between two calls. -/

namespace Hive

open Bytes Tiling Threaded Option HHive

/-! ## Section 1: Memory -/

variable {h : HHive} {p : Ptr}

/-- Bytes of a bin. -/
def HHive.data (h : HHive) (t : StorageType) (k : Nat) : Buf :=
  match h.bin t k with
  | some b => b.data
  | none => zeroBuf

/-- Size of the memory of a bin, `0` when there is no such bin. -/
def HHive.binSize (h : HHive) (t : StorageType) (k : Nat) : Nat :=
  match h.bin t k with
  | some b => b.size
  | none => 0

section Stores

variable (h : HHive) (t t' : StorageType) (k k' : Nat) (d : Buf) (i v : Nat)

theorem bin_setData :
    (h.setData t k d).bin t' k' =
      if t' = t ∧ k' = k then (h.bin t k).map (fun b => { b with data := d }) else h.bin t' k' := by
  unfold bin setData setDual
  by_cases ht : t' = t
  · subst ht
    by_cases hk : k' = k
    · subst hk
      simp
    · simp [hk, Ne.symm hk]
  · simp [ht]

@[simp] theorem binSize_setData : (h.setData t k d).binSize t' k' = h.binSize t' k' := by
  unfold binSize
  rw [bin_setData]
  by_cases hk : t' = t ∧ k' = k
  · obtain ⟨rfl, rfl⟩ := hk
    cases h.bin t' k' <;> simp
  · simp [hk]

@[simp] theorem length_setData : ((h.setData t k d).storage t').length = (h.storage t').length := by
  unfold setData setDual
  by_cases ht : t' = t <;> simp [ht]

@[simp] theorem blockList_setData :
    ((h.setData t k d).storage t').blockList = (h.storage t').blockList := by
  unfold setData setDual
  by_cases ht : t' = t <;> simp [ht]

@[simp] theorem freeDisplay_setData :
    ((h.setData t k d).storage t').freeDisplay = (h.storage t').freeDisplay := by
  unfold setData setDual
  by_cases ht : t' = t <;> simp [ht]

@[simp] theorem bins_length_setData :
    ((h.setData t k d).storage t').bins.length = (h.storage t').bins.length := by
  unfold setData setDual
  by_cases ht : t' = t <;> simp [ht]

@[simp] theorem dirtyVector_setData : (h.setData t k d).dirtyVector = h.dirtyVector := rfl

@[simp] theorem length_setDisplay :
    ((h.setDisplay t i v).storage t').length = (h.storage t').length := by
  unfold setDisplay setDual
  by_cases ht : t' = t <;> simp [ht]

@[simp] theorem blockList_setDisplay :
    ((h.setDisplay t i v).storage t').blockList = (h.storage t').blockList := by
  unfold setDisplay setDual
  by_cases ht : t' = t <;> simp [ht]

@[simp] theorem bins_setDisplay : ((h.setDisplay t i v).storage t').bins = (h.storage t').bins := by
  unfold setDisplay setDual
  by_cases ht : t' = t <;> simp [ht]

theorem freeDisplay_setDisplay (i' : Nat) :
    ((h.setDisplay t i v).storage t').freeDisplay i' =
      if t' = t ∧ i' = i then v else (h.storage t').freeDisplay i' := by
  unfold setDisplay setDual
  by_cases ht : t' = t
  · subst ht
    simp
  · simp [ht]

@[simp] theorem data_setDisplay : (h.setDisplay t i v).data t' k = h.data t' k := by
  simp [data, bin]

@[simp] theorem binSize_setDisplay : (h.setDisplay t i v).binSize t' k = h.binSize t' k := by
  simp [binSize, bin]

@[simp] theorem dirtyVector_setDisplay : (h.setDisplay t i v).dirtyVector = h.dirtyVector := rfl

end Stores

theorem bin_eq {t : StorageType} {k : Nat} (hk : 0 < h.binSize t k) :
    h.bin t k = some ⟨h.binSize t k, h.data t k⟩ := by
  unfold binSize data at *
  cases hb : h.bin t k with
  | none => simp [hb] at hk
  | some b => rfl

theorem data_setData_self {t : StorageType} {k : Nat} (d : Buf)
    (hk : 0 < h.binSize t k) : (h.setData t k d).data t k = d := by
  rw [data, bin_setData, if_pos ⟨rfl, rfl⟩, bin_eq hk]
  rfl

theorem data_setData_ne {t t' : StorageType} {k k' : Nat} (d : Buf)
    (hk : ¬ (t' = t ∧ k' = k)) : (h.setData t k d).data t' k' = h.data t' k' := by
  unfold data
  rw [bin_setData, if_neg hk]

theorem readUlong_eq (hp : p.off + 4 ≤ h.binSize p.storage p.bin) :
    h.readUlong p = some (getU32 (h.data p.storage p.bin) p.off) := by
  rw [readUlong, bin_eq (by omega)]
  exact if_pos hp

theorem readBytes_eq {n : Nat} (hn : 0 < n) (hp : p.off + n ≤ h.binSize p.storage p.bin) :
    h.readBytes p n = some (slice (h.data p.storage p.bin) p.off) := by
  rw [readBytes, bin_eq (by omega)]
  exact if_pos hp

theorem writeBytes_eq {n : Nat} {src : Buf} (hn : 0 < n)
    (hp : p.off + n ≤ h.binSize p.storage p.bin) :
    h.writeBytes p n src = some
      (h.setData p.storage p.bin (overlay (h.data p.storage p.bin) p.off n src)) := by
  rw [writeBytes, bin_eq (by omega)]
  exact if_pos hp

theorem writeUlong_eq {v : Nat} (hp : p.off + 4 ≤ h.binSize p.storage p.bin) :
    h.writeUlong p v = some
      (h.setData p.storage p.bin (putU32 (h.data p.storage p.bin) p.off v)) :=
  writeBytes_eq (by omega) hp

/-! ## Section 2: Layouts -/

variable {o : Nat}

inductive CellState where
  | used
  | free
  /-- Free, but on no list. -/
  | loose
  deriving DecidableEq, Repr

/-- A cell with its header. -/
structure Cell where
  size : Nat
  state : CellState
  min_size : 16 ≤ size
  aligned : size % 16 = 0
  deriving DecidableEq

/-- The `Size` word of a cell header: negative when the cell is allocated. -/
def Cell.word (c : Cell) : Nat :=
  match c.state with
  | .used => 2 ^ 32 - c.size
  | _ => c.size

/-- The same cell in another state. -/
def Cell.withState (c : Cell) (s : CellState) : Cell := { c with state := s }

/-- Two cells joined; the first one keeps its state. -/
def Cell.join (c d : Cell) : Cell where
  size := c.size + d.size
  state := c.state
  min_size := Nat.le_add_right_of_le c.min_size
  aligned := by have := c.aligned; have := d.aligned; omega

@[simp] theorem Cell.withState_size (c : Cell) (s : CellState) :
    (c.withState s).size = c.size := rfl

@[simp] theorem Cell.withState_state (c : Cell) (s : CellState) : (c.withState s).state = s := rfl

@[simp] theorem Cell.join_size (c d : Cell) : (c.join d).size = c.size + d.size := rfl

@[simp] theorem Cell.join_state (c d : Cell) : (c.join d).state = c.state := rfl

theorem Cell.size_pos (c : Cell) : 0 < c.size := by
  have := c.min_size
  omega

theorem Cell.word_of_ne_used {c : Cell} (h : c.state ≠ .used) : c.word = c.size := by
  unfold Cell.word
  split
  · contradiction
  · rfl

theorem Cell.word_of_used {c : Cell} (h : c.state = .used) : c.word = 2 ^ 32 - c.size := by
  simp [Cell.word, h]

/-- Two neighbours that need not be merged. -/
def Cell.Apart (c d : Cell) : Prop := ¬ (c.state = .free ∧ d.state = .free)

/-- No cell of the list is loose and no two free cells are adjacent. -/
structure CellsOk (l : List Cell) : Prop where
  noLoose : ∀ c ∈ l, c.state ≠ .loose
  apart : l.IsChain Cell.Apart

/-- The cells of a bin, from its header on. -/
structure BinLayout where
  start : Nat
  cells : List Cell
  start_aligned : start % 4096 = 0
  size_aligned : (sizeofHBin + total Cell.size cells) % 4096 = 0

def BinLayout.size (b : BinLayout) : Nat := sizeofHBin + total Cell.size b.cells

/-- The bin with other cells of the same total size. -/
def BinLayout.withCells (b : BinLayout) (cells : List Cell) : BinLayout :=
  if h : total Cell.size cells = total Cell.size b.cells then
    { b with cells := cells, size_aligned := by rw [h]; exact b.size_aligned }
  else b

/-- A cell is known by its bin and its offset there. -/
abbrev Loc : Type := Nat × Nat

/-- The bins of a storage and its free lists. -/
structure StoreLayout where
  bins : List BinLayout
  lists : Nat → List Loc

abbrev Layout : Type := StorageType → StoreLayout

namespace Layout

/-- The cell at a place. -/
def cell (G : Layout) (t : StorageType) (x : Loc) : Option Cell :=
  (G t).bins[x.1]?.bind (fun b => segAt Cell.size b.cells sizeofHBin x.2)

/-- File offset of a bin. -/
def start (G : Layout) (t : StorageType) (k : Nat) : Nat :=
  match (G t).bins[k]? with
  | some b => b.start
  | none => 0

/-- Index of the cell at a place. -/
def index (G : Layout) (t : StorageType) (x : Loc) : Nat := cellIndex t (G.start t x.1 + x.2)

/-- The cells of bin `k` are `pre`, `mid` and `post`. -/
def Run (G : Layout) (t : StorageType) (k : Nat) (pre mid post : List Cell) : Prop :=
  ∃ b, (G t).bins[k]? = some b ∧ b.cells = pre ++ mid ++ post

/-- Give bin `k` other cells of the same total size. -/
def edit (G : Layout) (t : StorageType) (k : Nat) (cells : List Cell) : Layout := fun t' =>
  if t' = t then { G t with bins := (G t).bins.modify k (·.withCells cells) } else G t'

/-- Replace one free list. -/
def setList (G : Layout) (t : StorageType) (i : Nat) (l : List Loc) : Layout := fun t' =>
  if t' = t then { G t with lists := fun i' => if i' = i then l else (G t).lists i' } else G t'

/-- Free list `i` holds the free cells of size class `i`, each once. -/
structure Listed (G : Layout) : Prop where
  mem : ∀ t i x, i < 24 → (x ∈ (G t).lists i ↔
    ∃ c, G.cell t x = some c ∧ c.state = .free ∧ hvpComputeFreeListIndex c.size = i)
  nodup : ∀ t i, i < 24 → ((G t).lists i).Nodup

/-- Every cell is allocated or on its list, and no two free cells are
    adjacent. -/
structure Settled (G : Layout) : Prop extends Listed G where
  cells : ∀ t (k : Nat) (b : BinLayout), (G t).bins[k]? = some b → CellsOk b.cells

variable {G : Layout} {t t' : StorageType} {k k' : Nat} {x : Loc} {c : Cell}
  {pre mid mid' post : List Cell}

@[simp] theorem lists_edit (cells : List Cell) : (G.edit t k cells t').lists = (G t').lists := by
  unfold edit
  by_cases ht : t' = t <;> simp [ht]

@[simp] theorem bins_setList (i : Nat) (l : List Loc) :
    (G.setList t i l t').bins = (G t').bins := by
  unfold setList
  by_cases ht : t' = t <;> simp [ht]

theorem lists_setList (i i' : Nat) (l : List Loc) :
    (G.setList t i l t').lists i' = if t' = t ∧ i' = i then l else (G t').lists i' := by
  unfold setList
  by_cases ht : t' = t
  · subst ht
    simp
  · simp [ht]

@[simp] theorem cell_setList (i : Nat) (l : List Loc) :
    (G.setList t i l).cell t' x = G.cell t' x := by
  simp [cell]

@[simp] theorem index_setList (i : Nat) (l : List Loc) :
    (G.setList t i l).index t' x = G.index t' x := by
  simp [index, start]

section

variable (cells : List Cell)

theorem bins_edit : (G.edit t k cells t').bins[k']? =
    if t' = t ∧ k' = k then (G t).bins[k]?.map (·.withCells cells) else (G t').bins[k']? := by
  unfold edit
  by_cases ht : t' = t
  · subst ht
    by_cases hk : k' = k
    · subst hk
      simp
    · simp [hk, Ne.symm hk]
  · simp [ht]

@[simp] theorem bins_length_edit : (G.edit t k cells t').bins.length = (G t').bins.length := by
  unfold edit
  by_cases ht : t' = t <;> simp [ht]

@[simp] theorem start_edit : (G.edit t k cells).start t' k' = G.start t' k' := by
  unfold start
  rw [bins_edit]
  by_cases hk : t' = t ∧ k' = k
  · obtain ⟨rfl, rfl⟩ := hk
    cases (G t').bins[k']? with
    | none => simp
    | some b =>
      simp only [and_self, if_true, map_some, BinLayout.withCells]
      split <;> rfl
  · simp [hk]

@[simp] theorem index_edit : (G.edit t k cells).index t' x = G.index t' x := by
  simp [index]

end

theorem withCells_cells {b : BinLayout} {cells : List Cell}
    (h : total Cell.size cells = total Cell.size b.cells) : (b.withCells cells).cells = cells := by
  simp [BinLayout.withCells, h]

theorem size_withCells (b : BinLayout) (cells : List Cell) : (b.withCells cells).size = b.size := by
  unfold BinLayout.withCells BinLayout.size
  split
  · rename_i h
    simp [h]
  · rfl

theorem cell_bounds {b : BinLayout} (hb : (G t).bins[k]? = some b)
    (hc : G.cell t (k, o) = some c) : sizeofHBin ≤ o ∧ o + c.size ≤ b.size := by
  unfold cell at hc
  rw [hb] at hc
  exact segAt_bounds hc

theorem exists_bin (hc : G.cell t x = some c) : ∃ b, (G t).bins[x.1]? = some b := by
  unfold cell at hc
  cases hb : (G t).bins[x.1]? with
  | none => simp [hb] at hc
  | some b => exact ⟨b, rfl⟩

theorem exists_run (hc : G.cell t x = some c) :
    ∃ pre post, G.Run t x.1 pre [c] post ∧ x.2 = sizeofHBin + total Cell.size pre := by
  obtain ⟨b, hb⟩ := exists_bin hc
  unfold cell at hc
  rw [hb] at hc
  obtain ⟨pre, post, hcells, hx⟩ := exists_of_segAt hc
  exact ⟨pre, post, ⟨b, hb, by simp [hcells]⟩, hx⟩

section

variable (hrun : G.Run t k pre mid post)

include hrun

theorem Run.regroup {pre' post' : List Cell} (h : pre ++ mid ++ post = pre' ++ mid' ++ post') :
    G.Run t k pre' mid' post' := by
  obtain ⟨b, hb, hcells⟩ := hrun
  exact ⟨b, hb, hcells.trans h⟩

theorem Run.cell_eq (h1 : sizeofHBin + total Cell.size pre ≤ o)
    (h2 : o < sizeofHBin + total Cell.size pre + total Cell.size mid) :
    G.cell t (k, o) = segAt Cell.size mid (sizeofHBin + total Cell.size pre) o := by
  obtain ⟨b, hb, hcells⟩ := hrun
  unfold Layout.cell
  rw [hb]
  show segAt Cell.size b.cells sizeofHBin o = _
  rw [hcells, List.append_assoc, segAt_append Cell.size_pos, if_neg (by omega),
    segAt_append Cell.size_pos, if_pos h2]

theorem Run.cell (h : segAt Cell.size mid (sizeofHBin + total Cell.size pre) o = some c) :
    G.cell t (k, o) = some c := by
  have hb := segAt_bounds h
  have hpos := c.size_pos
  rw [hrun.cell_eq (by omega) (by omega), h]

/-- The cells after an edit: those of the new run, and the others as they
    were. -/
theorem cell_edit (htot : total Cell.size mid' = total Cell.size mid) :
    (G.edit t k (pre ++ mid' ++ post)).cell t' x =
      if t' = t ∧ x.1 = k ∧ sizeofHBin + total Cell.size pre ≤ x.2 ∧
          x.2 < sizeofHBin + total Cell.size pre + total Cell.size mid then
        segAt Cell.size mid' (sizeofHBin + total Cell.size pre) x.2
      else G.cell t' x := by
  obtain ⟨b, hb, hcells⟩ := hrun
  unfold cell
  rw [bins_edit]
  by_cases hk : t' = t ∧ x.1 = k
  · obtain ⟨rfl, hxk⟩ := hk
    have htot' : total Cell.size (pre ++ mid' ++ post) = total Cell.size b.cells := by
      rw [hcells]
      simp [htot]
    rw [hxk, hb]
    simp only [and_self, if_true, map_some, bind_some, true_and,
      withCells_cells htot', hcells]
    exact segAt_replace Cell.size_pos htot
  · rw [if_neg hk, if_neg (fun h => hk ⟨h.1, h.2.1⟩)]

end

end Layout

open Layout

/-! ## Section 3: Representation -/

/-- The file offsets a storage may cover: bit 31 of a cell index is the
    storage type, and `HvMarkCellDirty` rounds a stable index up by a block. -/
def storageLimit : StorageType → Nat
  | .stable => 2 ^ 31 - 4096
  | .volatile => 2 ^ 31

/-- Bin `k` of storage `t` is in the block list as `b` says. -/
structure BinRep (h : HHive) (t : StorageType) (k : Nat) (b : BinLayout) : Prop where
  size : h.binSize t k = b.size
  fileOffset : getU32 (h.data t k) 4 = b.start
  sizeWord : getU32 (h.data t k) 8 = b.size
  inside : b.start + b.size ≤ (h.storage t).length * 4096
  blocks : ∀ i, i * 4096 < b.size →
    (h.storage t).blockList (b.start / 4096 + i) = ⟨some ⟨t, k, i * 4096⟩, some k⟩

/-- The word in which a free cell keeps the link of its list. -/
def HHive.link (h : HHive) (t : StorageType) (x : Loc) : Nat := getU32 (h.data t x.1) (x.2 + 4)

/-- The memory of `h` represents the layout `G`. -/
structure Rep (G : Layout) (h : HHive) : Prop where
  count : ∀ t, (h.storage t).bins.length = (G t).bins.length
  bin : ∀ t (k : Nat) (b : BinLayout), (G t).bins[k]? = some b → BinRep h t k b
  limit : ∀ t, (h.storage t).length * 4096 ≤ storageLimit t
  dirty : (h.storage .stable).length ≤ h.dirtyVector.sizeOfBitMap
  header : ∀ t x c, G.cell t x = some c → getU32 (h.data t x.1) x.2 = c.word
  chain : ∀ t i, i < 24 →
    Chain (G.index t) (h.link t) hcellNil ((h.storage t).freeDisplay i) ((G t).lists i)

section Lookup

variable {G : Layout} {h : HHive} {t : StorageType} {k : Nat} {x y : Loc} {c d : Cell}
  {b : BinLayout}

theorem storageLimit_le (t : StorageType) : storageLimit t ≤ 2 ^ 31 := by
  cases t <;> decide

theorem total_aligned (l : List Cell) : total Cell.size l % 16 = 0 := by
  induction l with
  | nil => rfl
  | cons c l ih =>
    have := c.aligned
    rw [total_cons]
    omega

theorem Layout.cell_aligned (hc : G.cell t x = some c) : x.2 % 16 = 0 := by
  obtain ⟨pre, post, _, hx⟩ := exists_run hc
  have := total_aligned pre
  rw [hx, sizeofHBin]
  omega

theorem Layout.start_eq (hb : (G t).bins[k]? = some b) : G.start t k = b.start := by
  simp [start, hb]

namespace Rep

variable (hr : Rep G h) (hc : G.cell t x = some c)

include hr hc

theorem place : sizeofHBin ≤ x.2 ∧ x.2 + c.size ≤ h.binSize t x.1 ∧
    G.start t x.1 + h.binSize t x.1 ≤ (h.storage t).length * 4096 := by
  obtain ⟨b, hb⟩ := exists_bin hc
  have hbr := hr.bin t x.1 b hb
  have hbd := cell_bounds hb hc
  rw [hbr.size, start_eq hb]
  exact ⟨hbd.1, hbd.2, hbr.inside⟩

theorem size_lt : c.size < 2 ^ 31 := by
  have := hr.place hc
  have := hr.limit t
  have := storageLimit_le t
  simp only [sizeofHBin] at *
  omega

theorem offset_lt : G.start t x.1 + x.2 < storageLimit t := by
  have := hr.place hc
  have := hr.limit t
  have := c.size_pos
  omega

end Rep

theorem Layout.index_ne_nil (hc : G.cell t x = some c) : G.index t x ≠ hcellNil := by
  obtain ⟨b, hb⟩ := exists_bin hc
  have := cell_aligned hc
  have := b.start_aligned
  have := start_eq hb
  unfold index cellIndex
  cases t <;> simp only [StorageType.toNat, hcellNil] <;> omega

/-- `HvpGetCellHeader` inverts `cellIndex` inside a bin. -/
theorem Rep.getCellHeader_bin (hr : Rep G h) (hb : (G t).bins[k]? = some b)
    (ho : o < b.size) (hne : cellIndex t (b.start + o) ≠ hcellNil) :
    hvpGetCellHeader h (cellIndex t (b.start + o)) = some ⟨t, k, o⟩ := by
  have hbr := hr.bin t k b hb
  have hin := hbr.inside
  have hlt : b.start + o < 2 ^ 31 := by
    have := hr.limit t
    have := storageLimit_le t
    omega
  have hal := b.start_aligned
  have hblk : (b.start + o) / 4096 = b.start / 4096 + o / 4096 := by omega
  have hentry := hbr.blocks (o / 4096) (by omega)
  unfold hvpGetCellHeader
  rw [if_neg hne, hvGetCellType_cellIndex hlt, hvGetCellBlock_cellIndex hlt,
    hvGetCellOffset_cellIndex, hblk]
  simp only [hentry, map_some, Ptr.add]
  rw [if_pos (by omega)]
  congr 2
  omega

theorem Rep.getCellHeader (hr : Rep G h) (hc : G.cell t x = some c) :
    hvpGetCellHeader h (G.index t x) = some ⟨t, x.1, x.2⟩ := by
  obtain ⟨b, hb⟩ := exists_bin hc
  have hne := index_ne_nil hc
  have hbd := cell_bounds hb hc
  have hpos := c.size_pos
  unfold index at hne ⊢
  rw [start_eq hb] at hne ⊢
  exact hr.getCellHeader_bin hb (by omega) hne

theorem Rep.getCellData (hr : Rep G h) (hc : G.cell t x = some c) :
    hvpGetCellData h (G.index t x) = some ⟨t, x.1, x.2 + 4⟩ := by
  rw [hvpGetCellData, hr.getCellHeader hc]
  rfl

theorem Rep.index_inj (hr : Rep G h) (hx : G.cell t x = some c) (hy : G.cell t y = some d)
    (heq : G.index t x = G.index t y) : x = y := by
  have h1 := hr.getCellHeader hx
  rw [heq, hr.getCellHeader hy] at h1
  simp only [some.injEq, Ptr.mk.injEq, true_and] at h1
  exact Prod.ext h1.1.symm h1.2.symm

namespace Rep

variable (hr : Rep G h) (hc : G.cell t x = some c)

include hr hc

theorem type_index : hvGetCellType (G.index t x) = t := by
  have := hr.offset_lt hc
  have := storageLimit_le t
  exact hvGetCellType_cellIndex (by omega)

theorem readHeader : h.readUlong ⟨t, x.1, x.2⟩ = some c.word := by
  have hp := hr.place hc
  have := c.min_size
  rw [readUlong_eq (by simp only; omega), hr.header t x c hc]

theorem readSize (hs : c.state ≠ .used) : h.readUlong ⟨t, x.1, x.2⟩ = some c.size := by
  rw [hr.readHeader hc, Cell.word_of_ne_used hs]

theorem readLinkWord : h.readUlong ⟨t, x.1, x.2 + 4⟩ = some (h.link t x) := by
  have hp := hr.place hc
  have := c.min_size
  rw [readUlong_eq (by simp only; omega)]
  rfl

theorem readHeader_long :
    h.readLong ⟨t, x.1, x.2⟩ = some (if c.state = .used then -(c.size : Int) else c.size) := by
  have hlt := hr.size_lt hc
  rw [readLong, hr.readHeader hc]
  simp only [map_some, toLong]
  by_cases hu : c.state = .used
  · rw [Cell.word_of_used hu, if_pos hu, if_neg (by omega)]
    congr 1
    omega
  · rw [Cell.word_of_ne_used hu, if_neg hu, if_pos hlt]

end Rep

end Lookup

/-! ## Section 4: Changes -/

section Change

variable {G : Layout} {h : HHive} {t : StorageType} {k : Nat} {x : Loc} {c : Cell}
  {b : BinLayout} {pre mid mid' post : List Cell} {data : Buf}

theorem Layout.Run.exists_bin (hrun : G.Run t k pre mid post) :
    ∃ b, (G t).bins[k]? = some b ∧
      b.size = sizeofHBin + total Cell.size pre + total Cell.size mid + total Cell.size post := by
  obtain ⟨b, hb, hcells⟩ := hrun
  refine ⟨b, hb, ?_⟩
  rw [BinLayout.size, hcells]
  simp
  omega

/-- A cell of the bin lies before a run, in it or behind it. -/
theorem Layout.Run.cases (hrun : G.Run t k pre mid post) (hc : G.cell t (k, o) = some c) :
    o + c.size ≤ sizeofHBin + total Cell.size pre ∨
    segAt Cell.size mid (sizeofHBin + total Cell.size pre) o = some c ∨
    sizeofHBin + total Cell.size pre + total Cell.size mid ≤ o := by
  obtain ⟨b, hb, hcells⟩ := hrun
  unfold Layout.cell at hc
  rw [hb] at hc
  simp only [bind_some, hcells] at hc
  exact segAt_run Cell.size_pos hc

/-- A bin stays in the block list, and may change behind its header. -/
theorem BinRep.congr {h' : HHive} (hbr : BinRep h t k b) (hsize : h'.binSize t k = h.binSize t k)
    (hlen : (h.storage t).length ≤ (h'.storage t).length)
    (hblocks : ∀ j < (h.storage t).length, (h'.storage t).blockList j = (h.storage t).blockList j)
    (hword : ∀ o, o + 4 ≤ sizeofHBin → getU32 (h'.data t k) o = getU32 (h.data t k) o) :
    BinRep h' t k b := by
  have hin := hbr.inside
  constructor
  · rw [hsize, hbr.size]
  · rw [hword 4 (by decide), hbr.fileOffset]
  · rw [hword 8 (by decide), hbr.sizeWord]
  · exact Nat.le_trans hin (Nat.mul_le_mul_right _ hlen)
  · intro i hi
    have := b.start_aligned
    rw [hblocks _ (by omega), hbr.blocks i hi]

theorem BinRep.setData {k' : Nat} {t' : StorageType} (hbr : BinRep h t' k' b)
    (hpos : 0 < h.binSize t k) (hdata : ∀ y, y < sizeofHBin → data y = h.data t k y) :
    BinRep (h.setData t k data) t' k' b := by
  refine hbr.congr (by simp) (by simp) (by simp) fun o ho => ?_
  by_cases hk : t' = t ∧ k' = k
  · obtain ⟨rfl, rfl⟩ := hk
    rw [data_setData_self data hpos]
    exact getU32_below hdata ho
  · rw [data_setData_ne data hk]

/-- The bytes of a bin after a run of its cells has been replaced by another
    run of the same size: the stores stay inside the run and leave the right
    headers there. -/
structure Rewrite (G : Layout) (h : HHive) (t : StorageType) (k : Nat)
    (pre mid mid' post : List Cell) (data : Buf) : Prop where
  run : G.Run t k pre mid post
  size : total Cell.size mid' = total Cell.size mid
  pos : 0 < total Cell.size mid
  out : ∀ y, y < sizeofHBin + total Cell.size pre ∨
    sizeofHBin + total Cell.size pre + total Cell.size mid ≤ y → data y = h.data t k y
  head : ∀ o c, segAt Cell.size mid' (sizeofHBin + total Cell.size pre) o = some c →
    getU32 data o = c.word

theorem Rep.binSize_run (hr : Rep G h) (hrun : G.Run t k pre mid post) : h.binSize t k =
    sizeofHBin + total Cell.size pre + total Cell.size mid + total Cell.size post := by
  obtain ⟨b, hb, hbsize⟩ := hrun.exists_bin
  rw [(hr.bin t k b hb).size, hbsize]

section

variable (hw : Rewrite G h t k pre mid mid' post data)

include hw

theorem Rewrite.data_self (hr : Rep G h) : (h.setData t k data).data t k = data := by
  have hsize := hr.binSize_run hw.run
  have hpos := hw.pos
  exact data_setData_self data (by omega)

theorem Rewrite.word (hc : G.cell t (k, o) = some c) {j : Nat} (hj : j + 4 ≤ c.size) :
    segAt Cell.size mid (sizeofHBin + total Cell.size pre) o = some c ∨
      getU32 data (o + j) = getU32 (h.data t k) (o + j) := by
  rcases hw.run.cases hc with hcase | hcase | hcase
  · exact .inr (getU32_congr fun i hi => hw.out _ (.inl (by omega)))
  · exact .inl hcase
  · exact .inr (getU32_congr fun i hi => hw.out _ (.inr (by omega)))

/-- Replacing a run of cells when the links make up the new lists. -/
theorem Rep.setCells (hr : Rep G h) {G' : Layout}
    (hbins : ∀ t', (G' t').bins = (G.edit t k (pre ++ mid' ++ post) t').bins)
    (hchain : ∀ t' i, i < 24 → Chain (G.index t') ((h.setData t k data).link t') hcellNil
      ((h.storage t').freeDisplay i) ((G' t').lists i)) : Rep G' (h.setData t k data) := by
  obtain ⟨b, hb, -⟩ := hw.run.exists_bin
  have hbin : 0 < h.binSize t k := by
    rw [hr.binSize_run hw.run]
    simp only [sizeofHBin]
    omega
  constructor
  · intro t'
    simpa [hbins] using hr.count t'
  · intro t' k' b' hb'
    have hstep : ∀ b0, (G t').bins[k']? = some b0 → b0.start = b'.start → b0.size = b'.size →
        BinRep (h.setData t k data) t' k' b' := by
      intro b0 hb0 hst hsz
      have hbr := (hr.bin t' k' b0 hb0).setData hbin (fun y hy => hw.out y (.inl (by omega)))
      constructor
      · rw [hbr.size, hsz]
      · rw [hbr.fileOffset, hst]
      · rw [hbr.sizeWord, hsz]
      · rw [← hst, ← hsz]
        exact hbr.inside
      · rw [← hst, ← hsz]
        exact hbr.blocks
    rw [hbins, bins_edit] at hb'
    by_cases hk : t' = t ∧ k' = k
    · obtain ⟨rfl, rfl⟩ := hk
      rw [if_pos ⟨rfl, rfl⟩, hb] at hb'
      simp only [map_some, some.injEq] at hb'
      subst hb'
      refine hstep b hb ?_ (size_withCells b _).symm
      unfold BinLayout.withCells
      split <;> rfl
    · rw [if_neg hk] at hb'
      exact hstep b' hb' rfl rfl
  · intro t'
    simpa using hr.limit t'
  · simpa using hr.dirty
  · intro t' y d hd
    rw [cell, hbins] at hd
    change (G.edit t k (pre ++ mid' ++ post)).cell t' y = some d at hd
    rw [cell_edit hw.run hw.size] at hd
    split at hd
    · rename_i hin
      obtain ⟨rfl, rfl, _, _⟩ := hin
      rw [hw.data_self hr]
      exact hw.head _ _ hd
    rename_i hin
    by_cases hk : t' = t ∧ y.1 = k
    · obtain ⟨rfl, rfl⟩ := hk
      have hmin := d.min_size
      rw [hw.data_self hr, ← hr.header t' y d hd]
      rcases hw.word hd (j := 0) (by omega) with hcase | hword
      · -- a cell of the old run lies in the range of the new one
        have := segAt_bounds hcase
        exact absurd ⟨rfl, rfl, this.1, by omega⟩ hin
      · exact hword
    · rw [data_setData_ne data hk]
      exact hr.header t' y d hd
  · intro t' i hi
    rw [freeDisplay_setData]
    have hidx : G'.index t' = G.index t' := by
      funext y
      rw [index, start, hbins]
      exact index_edit (pre ++ mid' ++ post)
    rw [hidx]
    exact hchain t' i hi

/-- Replacing a run of cells when the free cells of the run keep their links. -/
theorem Rep.editCells (hr : Rep G h) (hlisted : G.Listed)
    (hlink : ∀ o c, segAt Cell.size mid (sizeofHBin + total Cell.size pre) o = some c →
      c.state = .free → getU32 data (o + 4) = getU32 (h.data t k) (o + 4)) :
    Rep (G.edit t k (pre ++ mid' ++ post)) (h.setData t k data) := by
  refine hr.setCells hw (fun _ => rfl) fun t' i hi => ?_
  rw [lists_edit]
  refine (chain_congr ?_).mpr (hr.chain t' i hi)
  intro y hy
  obtain ⟨d, hd, hfree, _⟩ := (hlisted.mem t' i y hi).mp hy
  unfold link
  by_cases hk : t' = t ∧ y.1 = k
  · obtain ⟨rfl, rfl⟩ := hk
    rw [hw.data_self hr]
    have hmin := d.min_size
    rcases hw.word hd (j := 4) (by omega) with hcase | hword
    · exact hlink _ _ hcase hfree
    · exact hword
  · rw [data_setData_ne data hk]

end

theorem Rep.setDisplay (hr : Rep G h) {i v : Nat} {l : List Loc}
    (hl : Chain (G.index t) (h.link t) hcellNil v l) :
    Rep (G.setList t i l) (h.setDisplay t i v) := by
  constructor
  · intro t'
    simpa using hr.count t'
  · intro t' k b hb
    rw [bins_setList] at hb
    exact (hr.bin t' k b hb).congr (by simp) (by simp) (by simp) (by simp)
  · intro t'
    simpa using hr.limit t'
  · simpa using hr.dirty
  · intro t' y d hd
    rw [cell_setList] at hd
    rw [data_setDisplay]
    exact hr.header t' y d hd
  · intro t' i' hi'
    have hidx : (G.setList t i l).index t' = G.index t' := by
      funext y
      exact index_setList i l
    have hlk : (h.setDisplay t i v).link t' = h.link t' := by
      funext y
      simp [link]
    rw [hidx, hlk, lists_setList, freeDisplay_setDisplay]
    split
    · rename_i he
      obtain ⟨rfl, rfl⟩ := he
      exact hl
    · exact hr.chain t' i' hi'

end Change

end Hive
