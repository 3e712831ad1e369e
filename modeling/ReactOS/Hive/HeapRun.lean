import Mathlib.Data.List.Find
import Mathlib.Data.Set.BooleanAlgebra
import Mathlib.Order.CompletePartialOrder
import ReactOS.Lib.Transition
import ReactOS.Hive.Release

/-! # Runs of the cell heap

    The hive as its callers see it: a sequence of allocations, reallocations
    and releases, with stores into allocated cells in between, from a hive
    made by `HvpCreateHive`.

    - Section 1 reads bins and free lists off the memory of a hive, and
      `HeapInvariant` is what the heap should look like between two calls.
    - Section 2 shows that a hive that represents a settled layout has it.
    - Section 3 is the system, and Section 4 the result: the invariant holds
      in every run that stays inside the 31-bit address space of a storage. -/

namespace Hive

open Bytes Tiling Threaded Transition Layout List HHive
open Option hiding mem_map any_eq_true

/-! ## Section 1: Reading a heap -/

variable {h : HHive} {cell : Nat} {size : Int}

/-- The cells from offset `off` of a bin on, with their `Size` words; `none`
    when they do not end exactly at `stop`. -/
def tileFrom (data : Buf) (stop : Nat) : Nat → Nat → Option (List (Nat × Int))
  | 0, _ => none
  | fuel + 1, off =>
    if off = stop then some []
    else if stop < off + sizeofHCell then none
    else
      let size := getLong data off
      if size = 0 then none
      else (tileFrom data stop fuel (off + size.natAbs)).map ((off, size) :: ·)

/-- The cells of a bin, when header and cells tile it. -/
def binCells (b : Bin) : Option (List (Nat × Int)) :=
  tileFrom b.data b.size (b.size + 1) sizeofHBin

/-- `cell` is the index of a cell of storage `t` whose `Size` word is `size`. -/
def IsCell (h : HHive) (t : StorageType) (cell : Nat) (size : Int) : Prop :=
  ∃ k b l off, h.bin t k = some b ∧ binCells b = some l ∧ (off, size) ∈ l ∧
    cell = cellIndex t (getU32 b.data 4 + off)

/-- All cells of a storage, with their `Size` words. -/
def HHive.cells (h : HHive) (t : StorageType) : List (Nat × Int) :=
  (h.storage t).bins.flatMap (fun b =>
    ((binCells b).getD []).map (fun c => (cellIndex t (getU32 b.data 4 + c.1), c.2)))

theorem isCell_iff_mem {t : StorageType} : IsCell h t cell size ↔ (cell, size) ∈ h.cells t := by
  simp only [IsCell, cells, bin, mem_flatMap, mem_map, Prod.mk.injEq]
  constructor
  · rintro ⟨k, b, l, off, hb, hl, hmem, rfl⟩
    exact ⟨b, mem_of_getElem? hb, (off, size), by simpa [hl] using hmem, rfl, rfl⟩
  · rintro ⟨b, hb, ⟨off, size'⟩, hmem, rfl, rfl⟩
    obtain ⟨k, hk⟩ := getElem?_of_mem hb
    cases hl : binCells b with
    | none => simp [hl] at hmem
    | some l => exact ⟨k, b, l, off, hk, hl, by simpa [hl] using hmem, rfl⟩

instance (h : HHive) (t : StorageType) (cell : Nat) (size : Int) :
    Decidable (IsCell h t cell size) :=
  decidable_of_iff _ isCell_iff_mem.symm

/-- The cell indices on the list that starts with `v`. -/
def listFrom (h : HHive) : Nat → Nat → Option (List Nat)
  | 0, _ => none
  | fuel + 1, v =>
    if v = hcellNil then some []
    else do
      let data ← hvpGetCellData h v
      let next ← h.readUlong data
      (listFrom h fuel next).map (v :: ·)

/-- The cell indices on free list `i` of storage `t`. -/
def freeListOf (h : HHive) (t : StorageType) (i : Nat) : Option (List Nat) :=
  listFrom h (h.listFuel t) ((h.storage t).freeDisplay i)

/-- The first cell of at least `size` bytes on the free lists of the size
    classes from that of `size` on. -/
def firstFit (h : HHive) (t : StorageType) (size : Nat) : Option Nat :=
  let first := hvpComputeFreeListIndex size
  ((List.range' first (24 - first)).flatMap (fun i => (freeListOf h t i).getD [])).find?
    (fun cell => (h.cells t).any (fun c => c.1 == cell && decide ((size : Int) ≤ c.2)))

/-- What the heap looks like between two calls. -/
structure HeapInvariant (h : HHive) : Prop where
  /-- Header and cells tile every bin, and no two free cells are adjacent. -/
  tiled : ∀ t k b, h.bin t k = some b → ∃ l, binCells b = some l ∧
    l.IsChain (fun c d => ¬ (0 < c.2 ∧ 0 < d.2))
  /-- Every free list ends. -/
  lists : ∀ t i, i < 24 → ∃ l, freeListOf h t i = some l
  /-- A free cell is once on the list of its storage and size class, and on no
      other list. -/
  free : ∀ t cell size, IsCell h t cell size → 0 < size →
    ∀ t' i l, i < 24 → freeListOf h t' i = some l →
      l.count cell = if t' = t ∧ i = hvpComputeFreeListIndex size.toNat then 1 else 0
  /-- What is on a list is a free cell. -/
  members : ∀ t i l, i < 24 → freeListOf h t i = some l → ∀ cell ∈ l,
    ∃ size, IsCell h t cell size ∧ 0 < size
  /-- An allocated cell is on no list. -/
  used : ∀ t cell size, IsCell h t cell size → size < 0 →
    ∀ t' i l, i < 24 → freeListOf h t' i = some l → cell ∉ l

/-! ## Section 2: Layouts and memory -/

variable {i : Nat} {t' : StorageType}

/-- The `Size` field of a cell. -/
def Cell.signed (c : Cell) : Int := if c.state = .used then -(c.size : Int) else c.size

/-- The cells of a layout from offset `o` on, with their `Size` words. -/
def cellList : Nat → List Cell → List (Nat × Int)
  | _, [] => []
  | o, c :: cs => (o, c.signed) :: cellList (o + c.size) cs

theorem Cell.signed_natAbs (c : Cell) : c.signed.natAbs = c.size := by
  unfold Cell.signed
  split <;> simp

theorem Cell.signed_pos (c : Cell) : 0 < c.signed ↔ c.state ≠ .used := by
  have := c.size_pos
  unfold Cell.signed
  split
  · rename_i h
    simp [h]
  · rename_i h
    simp [h]
    omega

theorem Cell.signed_neg (c : Cell) : c.signed < 0 ↔ c.state = .used := by
  have := c.size_pos
  unfold Cell.signed
  split
  · rename_i h
    simp [h]
    omega
  · rename_i h
    simp [h]

theorem mem_cellList {cells : List Cell} {o off : Nat} : (off, size) ∈ cellList o cells ↔
      ∃ c, segAt Cell.size cells o off = some c ∧ size = c.signed := by
  induction cells generalizing o with
  | nil => simp [cellList, segAt]
  | cons c cells ih =>
    simp only [cellList, mem_cons, ih, segAt]
    have hpos := c.size_pos
    constructor
    · rintro (heq | ⟨d, hd, hs⟩)
      · cases heq
        exact ⟨c, by simp, rfl⟩
      · have := segAt_bounds hd
        exact ⟨d, by rw [if_neg (by omega)]; exact hd, hs⟩
    · grind

theorem cellList_isChain {cells : List Cell} (hok : CellsOk cells) (o : Nat) :
    (cellList o cells).IsChain (fun c d => ¬ (0 < c.2 ∧ 0 < d.2)) := by
  induction cells generalizing o with
  | nil => exact .nil
  | cons c cells ih =>
    obtain ⟨hhead, _⟩ := isChain_cons.mp hok.apart
    refine isChain_cons.mpr ⟨?_, ih hok.tail _⟩
    intro d hd
    cases cells with
    | nil => simp [cellList] at hd
    | cons e cells =>
      simp only [cellList, head?_cons, mem_def, some.injEq] at hd
      subst hd
      simp only
      rw [Cell.signed_pos, Cell.signed_pos]
      rintro ⟨hc, he⟩
      -- between two calls a cell that is not allocated is free
      have hcl := hok.noLoose c (by simp)
      have hel := hok.noLoose e (by simp)
      refine hhead e (by simp) ⟨?_, ?_⟩
      · cases hst : c.state <;> simp_all
      · cases hst : e.state <;> simp_all

section Read

variable {G : Layout} {h : HHive} {t : StorageType} {k : Nat} {x : Loc} {c : Cell} {b : BinLayout}
variable {fuel : Nat}

section

variable (hr : Rep G h)

include hr

theorem Rep.getLong_header (hc : G.cell t x = some c) : getLong (h.data t x.1) x.2 = c.signed := by
  have h1 := hr.readHeader_long hc
  have hp := hr.place hc
  have hmin := c.min_size
  rw [readLong, readUlong_eq (by simp only; omega)] at h1
  exact some.inj h1

theorem tileFrom_eq {done rest : List Cell} (hrun : G.Run t k done rest [])
    (hfuel : rest.length < fuel) :
    tileFrom (h.data t k) (sizeofHBin + total Cell.size done + total Cell.size rest) fuel
        (sizeofHBin + total Cell.size done)
      = some (cellList (sizeofHBin + total Cell.size done) rest) := by
  induction rest generalizing done fuel with
  | nil =>
    obtain _ | fuel := fuel
    · simp at hfuel
    simp [tileFrom, cellList]
  | cons c rest ih =>
    obtain _ | fuel := fuel
    · simp at hfuel
    have hrun1 : G.Run t k done [c] rest := hrun.regroup (by simp)
    have hrun2 : G.Run t k (done ++ [c]) rest [] := hrun.regroup (by simp)
    have hmin := c.min_size
    have hlong := hr.getLong_header hrun1.cell_one
    simp only [at_] at hlong
    have hne : c.signed ≠ 0 := by
      have := c.signed_natAbs
      omega
    have hnext := ih hrun2 (by simpa using hfuel)
    rw [off_concat] at hnext
    rw [tileFrom, if_neg (by simp only [total_cons]; omega),
      if_neg (by simp only [total_cons, sizeofHCell]; omega)]
    simp only
    rw [hlong, if_neg hne, Cell.signed_natAbs, total_cons, ← Nat.add_assoc, hnext]
    rfl

theorem Rep.bin_eq (hb : (G t).bins[k]? = some b) : h.bin t k = some ⟨b.size, h.data t k⟩ := by
  have hs := (hr.bin t k b hb).size
  have hpos : 0 < b.size := by
    simp only [BinLayout.size, sizeofHBin]
    omega
  rw [← hs] at hpos ⊢
  exact Hive.bin_eq hpos

theorem Rep.exists_layout {b' : Bin} (hb' : h.bin t k = some b') :
    ∃ b, (G t).bins[k]? = some b ∧ b' = ⟨b.size, h.data t k⟩ := by
  have hk : k < (G t).bins.length := by
    rw [← hr.count t]
    exact (List.getElem?_eq_some_iff.mp hb').1
  refine ⟨_, List.getElem?_eq_getElem hk, ?_⟩
  have := hr.bin_eq (List.getElem?_eq_getElem hk)
  rw [hb'] at this
  exact some.inj this

theorem Rep.binCells_eq (hb : (G t).bins[k]? = some b) :
    binCells ⟨b.size, h.data t k⟩ = some (cellList sizeofHBin b.cells) := by
  have hrun : G.Run t k [] b.cells [] := ⟨b, hb, by simp⟩
  have := length_le_total b.cells
  have htile := tileFrom_eq hr hrun (show b.cells.length < b.size + 1 by
    simp only [BinLayout.size]
    omega)
  simpa [binCells, BinLayout.size] using htile

theorem Rep.isCell_iff : IsCell h t cell size ↔
      ∃ x c, G.cell t x = some c ∧ cell = G.index t x ∧ size = c.signed := by
  constructor
  · rintro ⟨k, b', l, off, hb', hl, hmem, hcell⟩
    obtain ⟨b, hb, rfl⟩ := hr.exists_layout hb'
    rw [hr.binCells_eq hb] at hl
    cases hl
    obtain ⟨c, hc, hs⟩ := mem_cellList.mp hmem
    refine ⟨(k, off), c, ?_, ?_, hs⟩
    · simp [Layout.cell, hb, hc]
    · rw [hcell, (hr.bin t k b hb).fileOffset, ← start_eq hb]
      rfl
  · rintro ⟨x, c, hc, hcell, hs⟩
    obtain ⟨b, hb⟩ := exists_bin hc
    refine ⟨x.1, _, _, x.2, hr.bin_eq hb, hr.binCells_eq hb, ?_, ?_⟩
    · refine mem_cellList.mpr ⟨c, ?_, hs⟩
      simpa [Layout.cell, hb] using hc
    · rw [hcell, (hr.bin t x.1 b hb).fileOffset, ← start_eq hb]
      rfl

end

section

variable (hr : Rep G h)

include hr

theorem listFrom_eq {l : List Loc} {v : Nat} (hcells : ∀ x ∈ l, ∃ c, G.cell t x = some c)
    (hfuel : l.length < fuel) (hchain : Chain (G.index t) (h.link t) hcellNil v l) :
    listFrom h fuel v = some (l.map (G.index t)) := by
  induction l generalizing v fuel with
  | nil =>
    obtain _ | fuel := fuel
    · simp at hfuel
    have hv : v = hcellNil := hchain
    rw [hv, listFrom, if_pos rfl]
    rfl
  | cons x l ih =>
    obtain _ | fuel := fuel
    · simp at hfuel
    obtain ⟨c, hc⟩ := hcells x (by simp)
    rw [hchain.1, listFrom, if_neg (index_ne_nil hc), bind_of_eq (hr.getCellData hc),
      bind_of_eq (hr.readLinkWord hc), ih (fun y hy => hcells y (by simp [hy])) (by simpa using hfuel) hchain.2]
    rfl

theorem Rep.freeListOf_eq (hl : G.Listed) (hi : i < 24) :
    freeListOf h t i = some (((G t).lists i).map (G.index t)) := by
  refine listFrom_eq hr ?_ (hr.length_lt_listFuel hl hi) (hr.chain t i hi)
  intro x hx
  obtain ⟨c, hc, _⟩ := (hl.mem t i x hi).mp hx
  exact ⟨c, hc⟩

theorem Rep.firstFit_eq (hl : G.Listed) (size : Nat) :
    firstFit h t size = (G.firstFit t size).map (G.index t) := by
  have hlists : ∀ i ∈ range' (hvpComputeFreeListIndex size)
      (24 - hvpComputeFreeListIndex size),
      (freeListOf h t i).getD [] = ((G t).lists i).map (G.index t) := by
    intro i hi
    have := mem_range'_1.mp hi
    rw [hr.freeListOf_eq hl (by omega)]
    rfl
  simp only [firstFit, firstFit]
  rw [flatMap_congr hlists, ← map_flatMap, find?_map]
  congr 1
  refine find?_congr ?_
  intro x hx
  obtain ⟨i, hi, hx⟩ := mem_flatMap.mp hx
  have := mem_range'_1.mp hi
  obtain ⟨c, hc, hfree, _⟩ := (hl.mem t i x (by omega)).mp hx
  have hsigned : c.signed = c.size := by
    simp [Cell.signed, hfree]
  rw [sizeAt_eq hc]
  simp only [Function.comp_apply]
  rw [Bool.eq_iff_iff, any_eq_true, decide_eq_true_iff]
  constructor
  · rintro ⟨⟨cell, full⟩, hmem, hfit⟩
    simp only [Bool.and_eq_true, beq_iff_eq, decide_eq_true_eq] at hfit
    obtain ⟨y, d, hd, hy, rfl⟩ := hr.isCell_iff.mp (isCell_iff_mem.mpr hmem)
    have hxy := hr.index_inj hd hc (hy.symm.trans hfit.1)
    subst hxy
    rw [hc] at hd
    cases hd
    omega
  · intro hle
    refine ⟨_, isCell_iff_mem.mp (hr.isCell_iff.mpr ⟨x, c, hc, rfl, rfl⟩), ?_⟩
    simp only [beq_self_eq_true, Bool.true_and, decide_eq_true_eq]
    omega

theorem Rep.index_ne {y : Loc} {d : Cell} (hc : G.cell t x = some c) (hd : G.cell t' y = some d)
    (hne : t' ≠ t) : G.index t' y ≠ G.index t x := by
  intro heq
  have h1 := hr.type_index hc
  rw [← heq, hr.type_index hd] at h1
  exact hne h1

theorem Rep.mem_list_iff (hl : G.Listed) (hc : G.cell t x = some c) (hi : i < 24) :
    G.index t x ∈ ((G t').lists i).map (G.index t') ↔ t' = t ∧ x ∈ (G t).lists i := by
  constructor
  · intro hmem
    obtain ⟨y, hy, heq⟩ := mem_map.mp hmem
    obtain ⟨d, hd, _⟩ := (hl.mem t' i y hi).mp hy
    by_cases ht : t' = t
    · subst ht
      exact ⟨rfl, hr.index_inj hd hc heq ▸ hy⟩
    · exact absurd heq (hr.index_ne hc hd ht)
  · rintro ⟨rfl, hx⟩
    exact mem_map.mpr ⟨x, hx, rfl⟩

end

theorem Layout.Settled.free_of_signed_pos (hs : G.Settled) (hc : G.cell t x = some c)
    (hpos : 0 < c.signed) : c.state = .free := by
  have hne := c.signed_pos.mp hpos
  obtain ⟨b, hb⟩ := exists_bin hc
  have hmem : c ∈ b.cells := by
    simp only [cell, hb, bind_some] at hc
    exact mem_of_segAt hc
  have hloose := (hs.cells t x.1 b hb).noLoose c hmem
  cases hst : c.state <;> simp_all

theorem Rep.heapInvariant (hr : Rep G h) (hs : G.Settled) : HeapInvariant h := by
  have hl := hs.toListed
  constructor
  · intro t k b' hb'
    obtain ⟨b, hb, rfl⟩ := hr.exists_layout hb'
    exact ⟨_, hr.binCells_eq hb, cellList_isChain (hs.cells t k b hb) _⟩
  · intro t i hi
    exact ⟨_, hr.freeListOf_eq hl hi⟩
  · intro t cell size hcell hpos t' i l hi hlist
    obtain ⟨x, c, hc, rfl, rfl⟩ := hr.isCell_iff.mp hcell
    rw [hr.freeListOf_eq hl hi] at hlist
    cases hlist
    have hfree := hs.free_of_signed_pos hc hpos
    have hsize : c.signed.toNat = c.size := by
      simp [Cell.signed, hfree]
    have hnd : (((G t').lists i).map (G.index t')).Nodup := by
      refine (nodup_map_iff_inj_on (hl.nodup t' i hi)).mpr ?_
      intro y hy z hz heq
      obtain ⟨d, hd, _⟩ := (hl.mem t' i y hi).mp hy
      obtain ⟨e, he, _⟩ := (hl.mem t' i z hi).mp hz
      exact hr.index_inj hd he heq
    -- the cell is on the list of its size and on no other
    have hiff : G.index t x ∈ ((G t').lists i).map (G.index t') ↔
        t' = t ∧ i = hvpComputeFreeListIndex c.size := by
      rw [hr.mem_list_iff hl hc hi, hl.mem t i x hi]
      constructor
      · grind
      · rintro ⟨ht, hidx⟩
        exact ⟨ht, c, hc, hfree, hidx.symm⟩
    rw [hsize]
    split
    · rename_i h1
      exact count_eq_one_of_mem hnd (hiff.mpr h1)
    · rename_i h1
      exact count_eq_zero_of_not_mem (fun hm => h1 (hiff.mp hm))
  · intro t i l hi hlist cell hmem
    rw [hr.freeListOf_eq hl hi] at hlist
    cases hlist
    obtain ⟨x, hx, rfl⟩ := mem_map.mp hmem
    obtain ⟨c, hc, hfree, _⟩ := (hl.mem t i x hi).mp hx
    refine ⟨_, hr.isCell_iff.mpr ⟨x, c, hc, rfl, rfl⟩, c.signed_pos.mpr ?_⟩
    simp [hfree]
  · intro t cell size hcell hneg t' i l hi hlist hmem
    obtain ⟨x, c, hc, rfl, rfl⟩ := hr.isCell_iff.mp hcell
    rw [hr.freeListOf_eq hl hi] at hlist
    cases hlist
    obtain ⟨rfl, hx⟩ := (hr.mem_list_iff hl hc hi).mp hmem
    obtain ⟨d, hd, hfree, _⟩ := (hl.mem t' i x hi).mp hx
    rw [hc] at hd
    cases hd
    rw [c.signed_neg.mp hneg] at hfree
    cases hfree

end Read

/-! ## Section 3: The heap as a transition system -/

/-- What a client of the heap does: the three calls, each with the outcome of
    the memory allocations it makes, and stores into cells it owns. -/
inductive HeapOp where
  | allocate (size : Nat) (storage : StorageType) (mem : Memory)
  | reallocate (cell size : Nat) (mem : Memory)
  | free (cell : Nat)
  | store (cell off len : Nat) (src : Buf)

/-- The cell is currently allocated, with `len` bytes of data. -/
def InUse (h : HHive) (cell len : Nat) : Prop :=
  IsCell h (hvGetCellType cell) cell (-((len : Int) + sizeofHCell))

/-- Sizes are `ULONG`s, and a client names cells it has been given. -/
def HeapOp.Legal (h : HHive) : HeapOp → Prop
  | .allocate size _ _ => size < 2 ^ 32
  | .reallocate cell size _ => size < 2 ^ 32 ∧ ∃ len, InUse h cell len
  | .free cell => ∃ len, InUse h cell len
  | .store cell off len _ => 0 < len ∧ ∃ n, InUse h cell n ∧ off + len ≤ n

theorem exists_inUse_iff {m : Nat} : (∃ len, InUse h cell len ∧ m ≤ len) ↔
    ∃ p ∈ h.cells (hvGetCellType cell), p.1 = cell ∧ p.2 + sizeofHCell ≤ -(m : Int) := by
  constructor
  · rintro ⟨len, hu, hm⟩
    exact ⟨_, isCell_iff_mem.mp hu, rfl, by simp only; omega⟩
  rintro ⟨⟨cell', size⟩, hmem, rfl, hle⟩
  simp only [sizeofHCell] at hle
  refine ⟨(-(size + 4)).toNat, isCell_iff_mem.mpr ?_, by omega⟩
  have hsize : size = -(((-(size + 4)).toNat : Int) + sizeofHCell) := by
    simp only [sizeofHCell]
    omega
  rw [← hsize]
  exact hmem

instance (h : HHive) (op : HeapOp) : Decidable (op.Legal h) :=
  have dec (cell m : Nat) : Decidable (∃ len, InUse h cell len ∧ m ≤ len) :=
    decidable_of_iff _ exists_inUse_iff.symm
  match op with
  | .allocate size _ _ => inferInstanceAs (Decidable (size < 2 ^ 32))
  | .reallocate cell size _ =>
    decidable_of_iff (size < 2 ^ 32 ∧ ∃ len, InUse h cell len ∧ 0 ≤ len) (by simp [HeapOp.Legal])
  | .free cell =>
    decidable_of_iff (∃ len, InUse h cell len ∧ 0 ≤ len) (by simp [HeapOp.Legal])
  | .store cell off len _ =>
    inferInstanceAs (Decidable (0 < len ∧ ∃ n, InUse h cell n ∧ off + len ≤ n))

/-- One operation; the value returned is a cell index. -/
def HeapOp.exec (h : HHive) : HeapOp → Option (HHive × Nat)
  | .allocate size storage mem => hvAllocateCell h mem size storage
  | .reallocate cell size mem => hvReallocateCell h mem cell size
  | .free cell => (hvFreeCell h cell).map (·, hcellNil)
  | .store cell off len src => do
    let data ← hvpGetCellData h cell
    let h ← h.writeBytes (data.add off) len src
    some (h, cell)

/-- The heap of a new hive. -/
def heap : System HHive HeapOp Nat where
  init h := ∃ fileType hiveFlags fileName, h = hvpCreateHive fileType hiveFlags fileName
  legal := HeapOp.Legal
  step := HeapOp.exec

instance (h : HHive) (op : HeapOp) : Decidable (heap.legal h op) :=
  inferInstanceAs (Decidable (op.Legal h))

/-- A request for `size` bytes can be served, or refused for lack of memory:
    the rounded size does not wrap around, and there is a free cell, or else
    the new bin stays inside the storage's half of the index space and the
    bitmap of dirty blocks can grow with it. -/
def Serves (h : HHive) (mem : Memory) (size : Nat) (t : StorageType) : Prop :=
  16 ≤ fullCellSize size ∧
  ((∃ cell full, IsCell h t cell full ∧ (fullCellSize size : Int) ≤ full) ∨
    CanGrow h mem (fullCellSize size) t)

/-- The operations that stay inside the address space of the hive. -/
def HeapOp.Safe (h : HHive) : HeapOp → Prop
  | .allocate size storage mem => Serves h mem size storage
  | .reallocate cell size mem => ∀ len, InUse h cell len → len < size →
      len + sizeofHCell ≤ fullCellSize size ∧ Serves h mem size (hvGetCellType cell)
  | .free _ => True
  | .store _ _ _ _ => True

/-- Byte `i` of the data of a cell. -/
def HHive.dataByte (h : HHive) (cell i : Nat) : Option UInt8 := do
  let data ← hvpGetCellData h cell
  let bytes ← h.readBytes (data.add i) 1
  some (bytes 0)

/-- The addresses of the `len` bytes of data of a cell. -/
def dataArea (h : HHive) (cell len : Nat) : Set Ptr :=
  { q | ∃ data, hvpGetCellData h cell = some data ∧ ∃ i < len, q = data.add i }

/-- The allocated cells with `P` keep their index, size and content. -/
def KeepsCells (h h' : HHive) (P : Nat → Prop) : Prop :=
  ∀ cell len, P cell → InUse h cell len →
    InUse h' cell len ∧ ∀ i, i < len → h'.dataByte cell i = h.dataByte cell i

/-- What a call may do to the cells of a hive: `h'` and `r` are the state and
    the index it returns. -/
def Isolated (h : HHive) (op : HeapOp) (h' : HHive) (r : Nat) : Prop :=
  match op with
  | .allocate size storage _ =>
    KeepsCells h h' (fun _ => True) ∧
    (r = hcellNil ∧ h' = h ∨
      hvGetCellType r = storage ∧ (∀ len, ¬ InUse h r len) ∧
      ∃ len, InUse h' r len ∧ size ≤ len ∧ (∀ i, i < len → h'.dataByte r i = some 0) ∧
        ∀ cell len', InUse h' cell len' → cell ≠ r →
          Disjoint (dataArea h' r len) (dataArea h' cell len'))
  | .reallocate cell size _ =>
    KeepsCells h h' (· ≠ cell) ∧
    (r = hcellNil ∧ h' = h ∨
      ∃ len len', InUse h cell len ∧ InUse h' r len' ∧ size ≤ len' ∧
        ∀ i, i < min len size → h'.dataByte r i = h.dataByte cell i)
  | .free cell => KeepsCells h h' (· ≠ cell)
  | .store cell _ _ _ => KeepsCells h h' (· ≠ cell)

/-- No request wraps around, and when the first free cell that fits is 16
    bytes too large, which is too little to split, its last 16 bytes are
    zero. -/
def HeapOp.Clean (h : HHive) : HeapOp → Prop
  | .allocate size storage _ => size + 19 < 2 ^ 32 ∧
      ∀ cell, firstFit h storage (fullCellSize size) = some cell →
        IsCell h storage cell (fullCellSize size + 16) →
        ∀ i, i < 16 → h.dataByte cell (fullCellSize size - sizeofHCell + i) = some 0
  | .reallocate _ size _ => size + 19 < 2 ^ 32
  | .free _ => True
  | .store _ _ _ _ => True

/-- A hive that represents a settled layout. -/
def Sound (h : HHive) : Prop := ∃ G, Rep G h ∧ G.Settled

section Steps

variable {G : Layout} {h : HHive} {t : StorageType}
variable {len : Nat}

section

variable (hr : Rep G h)

include hr

theorem Rep.inUse (hu : InUse h cell len) :
    ∃ x c, G.cell (hvGetCellType cell) x = some c ∧ c.state = .used ∧
      cell = G.index (hvGetCellType cell) x ∧ c.size = len + sizeofHCell := by
  obtain ⟨x, c, hc, hcell, hs⟩ := hr.isCell_iff.mp hu
  have hused : c.state = .used := c.signed_neg.mp (by rw [← hs]; simp only [sizeofHCell]; omega)
  refine ⟨x, c, hc, hused, hcell, ?_⟩
  simp only [Cell.signed, hused, if_true] at hs
  omega

theorem Rep.inUse_iff : InUse h cell len ↔
    ∃ t x c, G.cell t x = some c ∧ c.state = .used ∧ cell = G.index t x ∧
      c.size = len + sizeofHCell := by
  constructor
  · intro hu
    obtain ⟨x, c, hx⟩ := hr.inUse hu
    exact ⟨_, x, c, hx⟩
  rintro ⟨t, x, c, hc, hused, rfl, hsize⟩
  unfold InUse
  rw [hr.type_index hc]
  refine hr.isCell_iff.mpr ⟨x, c, hc, rfl, ?_⟩
  simp only [Cell.signed, hused, if_true]
  omega

/-- A free cell large enough in the memory is one of the layout. -/
theorem Serves.fits {mem : Memory} {size : Nat} (hv : Serves h mem size t) (hs : G.Settled) :
    G.Fits t (fullCellSize size) ∨ CanGrow h mem (fullCellSize size) t := by
  obtain ⟨hmin, ⟨cell, full, hcell, hle⟩ | hgrow⟩ := hv
  · obtain ⟨x, c, hc, rfl, rfl⟩ := hr.isCell_iff.mp hcell
    have hfree := hs.free_of_signed_pos hc (by omega)
    refine .inl ⟨x, c, hc, hfree, ?_⟩
    simp only [Cell.signed, hfree, reduceCtorEq, if_false] at hle
    omega
  · exact .inr hgrow

variable {G' : Layout} {h' : HHive} {x : Loc} {c : Cell} {P : StorageType → Loc → Prop}

theorem Rep.dataByte_eq (hc : G.cell t x = some c) (hi : sizeofHCell + i < c.size) :
    h.dataByte (G.index t x) i = some (h.data t x.1 (x.2 + (4 + i))) := by
  have hp := hr.place hc
  simp only [sizeofHCell] at hi
  rw [dataByte, bind_of_eq (hr.getCellData hc),
    bind_of_eq (readBytes_eq (by decide) (by simp only [Ptr.add]; omega)), slice_apply]
  simp only [Ptr.add, Nat.add_assoc, Nat.add_zero]

theorem Moves.keepsCells (hm : Moves P G h G' h') {Q : Nat → Prop}
    (hQ : ∀ t x c, G.cell t x = some c → Q (G.index t x) → P t x) : KeepsCells h h' Q := by
  intro cell len hq hu
  obtain ⟨t, x, c, hc, hused, rfl, hsize⟩ := hr.inUse_iff.mp hu
  obtain ⟨hc', hbytes⟩ := hm.keeps t x c (hQ t x c hc hq) hc hused
  have hidx := hm.index hc
  refine ⟨hm.rep.inUse_iff.mpr ⟨t, x, c, hc', hused, hidx.symm, hsize⟩, ?_⟩
  intro i hi
  rw [hr.dataByte_eq hc (by omega), ← hidx, hm.rep.dataByte_eq hc' (by omega)]
  rw [hbytes _ (by simp only [sizeofHCell] at hsize; omega)]

end

theorem KeepsCells.refl (h : HHive) (Q : Nat → Prop) : KeepsCells h h Q :=
  fun _ _ _ hu => ⟨hu, fun _ _ => rfl⟩

theorem Rep.mem_dataArea (hr : Rep G h) (hc : G.cell t x = some c) {q : Ptr} :
    q ∈ dataArea h (G.index t x) len ↔
      q.storage = t ∧ q.bin = x.1 ∧ x.2 + 4 ≤ q.off ∧ q.off < x.2 + 4 + len := by
  simp only [dataArea, hr.getCellData hc, Set.mem_ofPred_eq, some.injEq, exists_eq_left',
    Ptr.add]
  constructor
  · rintro ⟨i, hi, rfl⟩
    simp only [true_and]
    omega
  rintro ⟨ht, hb, hlo, hhi⟩
  refine ⟨q.off - (x.2 + 4), by omega, ?_⟩
  obtain ⟨t', k, o⟩ := q
  simp only at ht hb hlo
  simp only [Ptr.mk.injEq]
  exact ⟨ht, hb, by omega⟩

theorem Rep.disjoint (hr : Rep G h) {cell' len' : Nat} (hu : InUse h cell len)
    (hu' : InUse h cell' len') (hne : cell' ≠ cell) :
    Disjoint (dataArea h cell len) (dataArea h cell' len') := by
  obtain ⟨t, x, c, hc, _, rfl, hsize⟩ := hr.inUse_iff.mp hu
  obtain ⟨t', x', c', hc', _, rfl, hsize'⟩ := hr.inUse_iff.mp hu'
  refine Set.disjoint_left.mpr ?_
  intro q hq hq'
  obtain ⟨rfl, hbin, hlo, hhi⟩ := (hr.mem_dataArea hc).mp hq
  obtain ⟨rfl, hbin', hlo', hhi'⟩ := (hr.mem_dataArea hc').mp hq'
  obtain ⟨k, o⟩ := x
  obtain ⟨k', o'⟩ := x'
  simp only at hbin hbin' hlo hhi hlo' hhi'
  subst hbin
  subst hbin'
  -- both cells lie in one bin, so their offsets differ and they do not overlap
  have hoff : o ≠ o' := by
    rintro rfl
    exact hne rfl
  obtain ⟨b, hb⟩ := exists_bin hc
  simp only [cell, hb, bind_some] at hc hc'
  have := segAt_disjoint Cell.size_pos hc hc' hoff
  omega

theorem allBut_of_ne {y : Loc} (hidx : cell = G.index t x) (hne : G.index t' y ≠ cell) :
    allBut t x t' y := by
  rintro ⟨rfl, rfl⟩
  exact hne hidx.symm

/-! ## Section 4: One operation -/

section Operations

variable {mem : Memory} {size cell : Nat}

theorem fullCellSize_ge (hlt : size + 19 < 2 ^ 32) : size + 4 ≤ fullCellSize size := by
  unfold fullCellSize roundUp sizeofHCell
  omega

section

variable (hr : Rep G h) (hs : G.Settled)

include hr hs

/-- All of a new cell is zero, unless it is an old cell taken whole. -/
theorem Allocated.zero (ha : Allocated G h t (fullCellSize size) G' h' x c)
    (hclean : HeapOp.Clean h (.allocate size t mem)) (hi : sizeofHCell + i < c.size) :
    h'.data t x.1 (x.2 + (4 + i)) = 0 := by
  simp only [sizeofHCell] at hi
  by_cases hin : 4 + i < fullCellSize size
  · exact ha.cleared _ (by omega) hin
  rcases ha.tail (4 + i) (by omega) hi with ⟨hwhole, hfit, ⟨d, hd, hds⟩, hbyte⟩ | hzero
  · have heq : firstFit h t (fullCellSize size) = some (G.index t x) := by
      rw [hr.firstFit_eq hs.toListed, hfit]
      rfl
    have hsigned : d.signed = (fullCellSize size : Int) + 16 := by
      simp only [Cell.signed, ha.fresh d hd, if_false]
      omega
    have hcell : IsCell h t (G.index t x) (fullCellSize size + 16) :=
      hr.isCell_iff.mpr ⟨x, d, hd, rfl, hsigned.symm⟩
    have hlast := hclean.2 _ heq hcell (4 + i - fullCellSize size) (by omega)
    have hfull := fullCellSize_ge hclean.1
    have hj : fullCellSize size - sizeofHCell + (4 + i - fullCellSize size) = i := by
      simp only [sizeofHCell]
      omega
    rw [hj, hr.dataByte_eq hd (by simp only [sizeofHCell]; omega)] at hlast
    rw [hbyte]
    exact some.inj hlast
  · exact hzero

theorem exec_allocate (hsafe : Serves h mem size t) :
    ∃ h' r, hvAllocateCell h mem size t = some (h', r) ∧ Sound h' ∧
      (HeapOp.Clean h (.allocate size t mem) → Isolated h (.allocate size t mem) h' r) := by
  rcases hvAllocateCell_spec hr hs hsafe.1 (hsafe.fits hr hs) with hnil | ⟨G', h', x, c, heq, ha⟩
  · exact ⟨h, _, hnil, ⟨G, hr, hs⟩, fun _ => ⟨.refl h _, .inl ⟨rfl, rfl⟩⟩⟩
  have hr' := ha.moves.rep
  refine ⟨h', _, heq, ⟨G', hr', ha.settled⟩, fun hclean => ⟨?_, .inr ⟨?_, ?_, ?_⟩⟩⟩
  · exact ha.moves.keepsCells hr (fun _ _ _ _ _ => trivial)
  · exact hr'.type_index ha.cell
  · -- the cell was not allocated before
    intro len hu
    obtain ⟨y, d, hd, hused, hidx, _⟩ := hr.inUse hu
    rw [hr'.type_index ha.cell] at hd hidx
    have hd' := (ha.moves.keeps t y d trivial hd hused).1
    rw [← ha.moves.index hd] at hidx
    have hxy := hr'.index_inj ha.cell hd' hidx
    exact ha.fresh d (hxy ▸ hd) hused
  · have hge := fullCellSize_ge hclean.1
    have hfits := ha.fits
    have hlen : c.size = (c.size - 4) + sizeofHCell := by
      simp only [sizeofHCell]
      omega
    have hu : InUse h' (G'.index t x) (c.size - 4) :=
      hr'.inUse_iff.mpr ⟨t, x, c, ha.cell, ha.used, rfl, hlen⟩
    refine ⟨c.size - 4, hu, by omega, ?_, ?_⟩
    · intro i hi
      rw [hr'.dataByte_eq ha.cell (by omega), ha.zero hr hs hclean (by omega)]
    · intro cell len' hu' hne
      exact hr'.disjoint hu hu' hne

theorem exec_reallocate (hlegal : HeapOp.Legal h (.reallocate cell size mem))
    (hsafe : HeapOp.Safe h (.reallocate cell size mem)) :
    ∃ h' r, hvReallocateCell h mem cell size = some (h', r) ∧ Sound h' ∧
      (HeapOp.Clean h (.reallocate cell size mem) →
        Isolated h (.reallocate cell size mem) h' r) := by
  obtain ⟨_, len, hu⟩ := hlegal
  obtain ⟨x, c, hc, hused, hidx, hsize⟩ := hr.inUse hu
  have hserve : c.size < size + 4 → c.size ≤ fullCellSize size ∧
      (G.Fits (hvGetCellType cell) (fullCellSize size) ∨
        CanGrow h mem (fullCellSize size) (hvGetCellType cell)) := by
    intro hlt
    obtain ⟨hle, hv⟩ := hsafe len hu (by simp only [sizeofHCell] at hsize; omega)
    exact ⟨by omega, hv.fits hr hs⟩
  have hcases := hvReallocateCell_spec hr hs hc hused hserve
  rw [← hidx] at hcases
  rcases hcases with ⟨hkeep, hroom⟩ | hnil | ⟨G', h', x', c', heq, ha⟩
  · refine ⟨h, _, hkeep, ⟨G, hr, hs⟩, fun _ => ⟨.refl h _, .inr ⟨len, len, hu, hu, ?_, ?_⟩⟩⟩
    · simp only [sizeofHCell] at hsize
      omega
    · exact fun _ _ => rfl
  · exact ⟨h, _, hnil, ⟨G, hr, hs⟩, fun _ => ⟨.refl h _, .inl ⟨rfl, rfl⟩⟩⟩
  have hr' := ha.moves.rep
  refine ⟨h', _, heq, ⟨G', hr', ha.settled⟩, fun hclean => ⟨?_, .inr ?_⟩⟩
  · exact ha.moves.keepsCells hr fun _ _ _ _ => allBut_of_ne hidx
  have hge := fullCellSize_ge hclean
  have hfits := ha.fits
  have hlen : c'.size = (c'.size - 4) + sizeofHCell := by
    simp only [sizeofHCell]
    omega
  refine ⟨len, c'.size - 4, hu, ?_, by omega, ?_⟩
  · exact hr'.inUse_iff.mpr ⟨_, x', c', ha.cell, ha.used, rfl, hlen⟩
  · intro i hi
    have hi1 : sizeofHCell + i < c.size := by omega
    rw [hr'.dataByte_eq ha.cell (by omega), ha.copied (4 + i) (by omega) hi1,
      ← hr.dataByte_eq hc hi1, ← hidx]

theorem exec_free (hlegal : HeapOp.Legal h (.free cell)) :
    ∃ h', hvFreeCell h cell = some h' ∧ Sound h' ∧ KeepsCells h h' (· ≠ cell) := by
  obtain ⟨len, hu⟩ := hlegal
  obtain ⟨x, c, hc, hused, hidx, _⟩ := hr.inUse hu
  obtain ⟨G', h', heq, hf⟩ := hvFreeCell_spec hr hs hc hused
  rw [← hidx] at heq
  exact ⟨h', heq, ⟨G', hf.moves.rep, hf.settled⟩,
    hf.moves.keepsCells hr fun _ _ _ _ => allBut_of_ne hidx⟩

theorem exec_store {off : Nat} {src : Buf} (hlegal : HeapOp.Legal h (.store cell off len src)) :
    ∃ h', HeapOp.exec h (.store cell off len src) = some (h', cell) ∧ Sound h' ∧
      KeepsCells h h' (· ≠ cell) := by
  obtain ⟨hpos, n, hu, hle⟩ := hlegal
  obtain ⟨x, c, hc, hused, hidx, hsize⟩ := hr.inUse hu
  simp only [sizeofHCell] at hsize
  obtain ⟨h', heq, hm, _⟩ : ∃ h', h.writeBytes ⟨hvGetCellType cell, x.1, x.2 + 4 + off⟩ len src
      = some h' ∧ Moves (allBut (hvGetCellType cell) x) G h G h' ∧ _ :=
    writeCell_spec hr hs.toListed hc hused hpos (by omega)
  have hdata := hr.getCellData hc
  rw [← hidx] at hdata
  refine ⟨h', ?_, ⟨G, hm.rep, hs⟩, hm.keepsCells hr fun _ _ _ _ => allBut_of_ne hidx⟩
  rw [HeapOp.exec, bind_of_eq hdata, Ptr.add, heq]
  rfl

end

end Operations

/-- One operation inside the address space: it returns, the heap stays sound,
    and the other cells are kept. -/
theorem HeapOp.exec_spec {op : HeapOp} (hsound : Sound h) (hlegal : op.Legal h)
    (hsafe : op.Safe h) :
    ∃ h' r, op.exec h = some (h', r) ∧ Sound h' ∧ (op.Clean h → Isolated h op h' r) := by
  obtain ⟨G, hr, hs⟩ := hsound
  cases op with
  | allocate size t mem => exact exec_allocate hr hs hsafe
  | reallocate cell size mem => exact exec_reallocate hr hs hlegal hsafe
  | free cell =>
    obtain ⟨h', heq, hsound, hkeep⟩ := exec_free hr hs hlegal
    exact ⟨h', hcellNil, by simp [HeapOp.exec, heq], hsound, fun _ => hkeep⟩
  | store cell off len src =>
    obtain ⟨h', heq, hsound, hkeep⟩ := exec_store hr hs hlegal
    exact ⟨h', cell, heq, hsound, fun _ => hkeep⟩

end Steps

/-! ## Section 5: Runs -/

/-- The layout of a hive without bins. -/
def emptyLayout : Layout := fun _ => ⟨[], fun _ => []⟩

theorem emptyLayout_cell (t : StorageType) (x : Loc) : emptyLayout.cell t x = none := rfl

theorem hvpCreateHive_sound (fileType : FileType) (hiveFlags : Nat) (fileName : Buf) :
    Sound (hvpCreateHive fileType hiveFlags fileName) := by
  refine ⟨emptyLayout, ⟨fun _ => rfl, ?_, ?_, Nat.le_refl _, ?_, ?_⟩, ⟨⟨?_, ?_⟩, ?_⟩⟩
  · intro t k b hb
    simp [emptyLayout] at hb
  · intro t
    simp [hvpCreateHive]
  · intro t x c hc
    cases hc
  · intro t i _
    rfl
  · intro t i x _
    simp [emptyLayout, emptyLayout_cell]
  · intro t i _
    exact .nil
  · intro t k b hb
    simp [emptyLayout] at hb

/-- Every state of a run inside the address space is sound. -/
theorem sound_of_reachable (hreach : Reachable heap HeapOp.Safe h) : Sound h := by
  refine hreach.invariant_of_steps ?_ fun h op hsound hlegal hsafe => ?_
  · rintro h ⟨fileType, hiveFlags, fileName, rfl⟩
    exact hvpCreateHive_sound fileType hiveFlags fileName
  · obtain ⟨h', r, heq, hsound', _⟩ := HeapOp.exec_spec hsound hlegal hsafe
    exact ⟨h', r, heq, hsound'⟩

/-- Every state of a run inside the address space of the hive has the
    invariant, and the next operation of such a run returns. -/
theorem heapInvariant_of_reachable {h : HHive} (hreach : Reachable heap HeapOp.Safe h) :
    HeapInvariant h ∧
    ∀ op, heap.legal h op → HeapOp.Safe h op → ∃ h' r, heap.step h op = some (h', r) := by
  have hsound := sound_of_reachable hreach
  constructor
  · obtain ⟨G, hr, hs⟩ := hsound
    exact hr.heapInvariant hs
  · intro op hlegal hsafe
    obtain ⟨h', r, heq, _⟩ := HeapOp.exec_spec hsound hlegal hsafe
    exact ⟨h', r, heq⟩

/-- A hive without bins. -/
def newHive : HHive := hvpCreateHive .primary 0 zeroBuf

theorem newHive_init : heap.init newHive := ⟨.primary, 0, zeroBuf, rfl⟩

/-- Every allocation succeeds. -/
def plenty : Memory := ⟨true, true, true⟩

theorem newHive_serves {size : Nat} (hge : 16 ≤ fullCellSize size)
    (hle : fullCellSize size ≤ 32) : Serves newHive plenty size .stable := by
  have hlen : (newHive.storage .stable).length = 0 := rfl
  refine ⟨hge, .inr (.inr (.inr ⟨rfl, rfl, ?_, fun _ _ => rfl⟩))⟩
  simp only [hlen, roundUp, sizeofHBin, storageLimit]
  omega

theorem heapInvariant_first_cell : ∃ h' r,
    heap.step newHive (.allocate 12 .stable plenty) = some (h', r) ∧ HeapInvariant h' := by
  have hlegal : heap.legal newHive (.allocate 12 .stable plenty) := by decide
  have hinit : Reachable heap HeapOp.Safe newHive := .init newHive_init
  have hserves := @newHive_serves 12 (by decide) (by decide)
  obtain ⟨h', r, heq⟩ := (heapInvariant_of_reachable hinit).2 _ hlegal hserves
  exact ⟨h', r, heq, (heapInvariant_of_reachable (.step hinit hlegal hserves heq)).1⟩

/-- Bin `k` of storage `t` is not tiled by its cells. -/
def untiled (h : HHive) (t : StorageType) (k : Nat) : Bool :=
  (h.bin t k).any (fun b => (binCells b).isNone)

theorem not_heapInvariant_of_untiled {t : StorageType} {k : Nat}
    (hu : untiled h t k = true) : ¬ HeapInvariant h := by
  intro hinv
  cases hb : h.bin t k with
  | none => simp [untiled, hb] at hu
  | some b =>
    obtain ⟨l, hl, _⟩ := hinv.tiled t k b hb
    simp [untiled, hb, hl] at hu

/-- A request for 2 GB gives a cell whose size word is positive, with the rest
    of the bin on a list of the volatile storage; and without memory for a
    larger bitmap the new bin is not survived. -/
theorem heapInvariant_overflow :
    (∃ op h' r, heap.legal newHive op ∧ heap.step newHive op = some (h', r) ∧
      ¬ HeapInvariant h') ∧
    ∃ op, heap.legal newHive op ∧ heap.step newHive op = none := by
  constructor
  · have hval : (heap.step newHive (.allocate 0x80000000 .stable plenty)).map
        (fun p => untiled p.1 .stable 0) = some true := by
      decide +kernel
    obtain ⟨⟨h', r⟩, hstep, hu⟩ := map_eq_some_iff.mp hval
    exact ⟨_, h', r, by decide, hstep, not_heapInvariant_of_untiled hu⟩
  · exact ⟨.allocate 12 .stable ⟨true, true, false⟩, by decide,
      isNone_iff_eq_none.mp (by decide +kernel)⟩

/-- In every run inside the address space, an operation leaves the other
    allocated cells alone and returns a cell that is new, cleared and large
    enough. -/
theorem isolated_of_reachable {h : HHive} {op : HeapOp} (hreach : Reachable heap HeapOp.Safe h)
    (hlegal : heap.legal h op) (hsafe : op.Safe h) (hclean : op.Clean h) :
    ∃ h' r, heap.step h op = some (h', r) ∧ Isolated h op h' r := by
  obtain ⟨h', r, heq, _, hiso⟩ := HeapOp.exec_spec (sound_of_reachable hreach) hlegal hsafe
  exact ⟨h', r, heq, hiso hclean⟩

/-- A run that leaves a free cell of 32 bytes, with zeros in its second half, between the header of
    the bin and an allocated cell. -/
theorem exists_released : ∃ h, Reachable heap HeapOp.Safe h ∧
    h.cells .stable = [(32, 32), (64, -16), (80, 4016)] ∧ firstFit h .stable 16 = some 32 ∧
    ∀ i, i < 16 → h.dataByte 32 (12 + i) = some 0 := by
  have hval : (heap.step newHive (.allocate 28 .stable plenty)).bind (fun p =>
      (heap.step p.1 (.allocate 12 .stable plenty)).bind fun q =>
        (heap.step q.1 (.free 32)).map fun s =>
          ((p.1.cells .stable, decide (heap.legal q.1 (.free 32))), s.1.cells .stable,
            firstFit s.1 .stable 16, decide (∀ i, i < 16 → s.1.dataByte 32 (12 + i) = some 0)))
      = some (([(32, -32), (64, 4032)], true), [(32, 32), (64, -16), (80, 4016)], some 32, true) := by
    decide +kernel
  obtain ⟨⟨h₁, r₁⟩, hfirst, hval⟩ := bind_eq_some_iff.mp hval
  obtain ⟨⟨h₂, r₂⟩, hsecond, hval⟩ := bind_eq_some_iff.mp hval
  obtain ⟨⟨h₃, r₃⟩, hfree, hval⟩ := map_eq_some_iff.mp hval
  simp only [Prod.mk.injEq, decide_eq_true_eq] at hval
  obtain ⟨⟨hcells, hlegal⟩, hvals⟩ := hval
  have hreach₁ : Reachable heap HeapOp.Safe h₁ := .step (a := .allocate 28 .stable plenty)
    (.init newHive_init) (by decide) (newHive_serves (by decide) (by decide)) hfirst
  have hserves : Serves h₁ plenty 12 .stable :=
    ⟨by decide, .inl ⟨64, 4032, isCell_iff_mem.mpr (by simp [hcells]), by decide⟩⟩
  have hreach₂ : Reachable heap HeapOp.Safe h₂ := .step (a := .allocate 12 .stable plenty) hreach₁
    (show 12 < 2 ^ 32 by decide) hserves hsecond
  exact ⟨h₃, .step hreach₂ hlegal trivial hfree, hvals⟩

/-- The free cell of 32 bytes is taken whole for 12 bytes. -/
theorem isolated_beside_cell : ∃ h h' r, Reachable heap HeapOp.Safe h ∧ InUse h 64 12 ∧
    IsCell h .stable 32 32 ∧ firstFit h .stable 16 = some 32 ∧
    heap.step h (.allocate 12 .stable plenty) = some (h', r) ∧
    Isolated h (.allocate 12 .stable plenty) h' r := by
  obtain ⟨h, hreach, hcells, hfirst, hzero⟩ := exists_released
  have hfree : IsCell h .stable 32 32 := isCell_iff_mem.mpr (by simp [hcells])
  have hused : IsCell h .stable 64 (-16) := isCell_iff_mem.mpr (by simp [hcells])
  have hlegal : heap.legal h (.allocate 12 .stable plenty) := show 12 < 2 ^ 32 by decide
  have hclean : HeapOp.Clean h (.allocate 12 .stable plenty) := by
    refine ⟨by decide, fun cell hcell _ => ?_⟩
    cases hfirst.symm.trans hcell
    exact hzero
  obtain ⟨h', r, hstep, hiso⟩ := isolated_of_reachable hreach hlegal
    ⟨by decide, .inl ⟨32, 32, hfree, by decide⟩⟩ hclean
  exact ⟨h, h', r, hreach, hused, hfree, hfirst, hstep, hiso⟩

/-- Three cells, of which the second and then the first are released. -/
def reuseRun : List HeapOp :=
  [.allocate 12 .stable plenty, .allocate 12 .stable plenty, .allocate 12 .stable plenty,
   .free 48, .free 32]

/-- The next 12 bytes come from the merged cell of 32 bytes, which is taken
    whole: the header of the second cell is still in it. -/
theorem not_isolated_reuse : ∃ h h' r, Reachable heap (fun _ _ => True) h ∧
    heap.legal h (.allocate 12 .stable plenty) ∧
    heap.step h (.allocate 12 .stable plenty) = some (h', r) ∧ r ≠ hcellNil ∧
    ¬ Isolated h (.allocate 12 .stable plenty) h' r := by
  have hval : (heap.run newHive reuseRun).bind (fun h =>
      (heap.step h (.allocate 12 .stable plenty)).map (fun p =>
        (p.2, p.1.cells .stable, p.1.dataByte 32 12)))
      = some (32, [(32, -32), (64, -16), (80, 4016)], some 16) := by
    decide +kernel
  obtain ⟨h, hrun, hstep⟩ := bind_eq_some_iff.mp hval
  obtain ⟨⟨h', r⟩, hstep, heq⟩ := map_eq_some_iff.mp hstep
  simp only [Prod.mk.injEq] at heq
  obtain ⟨rfl, hcells, hbyte⟩ := heq
  have hlegal : heap.legal h (.allocate 12 .stable plenty) := show 12 < 2 ^ 32 by decide
  refine ⟨h, h', 32, .of_run (.init newHive_init) hrun, hlegal, hstep, by decide, ?_⟩
  rintro ⟨_, ⟨hnil, _⟩ | ⟨_, _, len, hu, _, hzero, _⟩⟩
  · exact absurd hnil (by decide)
  -- the cell has 28 bytes of data, and byte 12 is not zero
  have hmem := isCell_iff_mem.mp hu
  rw [show hvGetCellType 32 = .stable from rfl, hcells] at hmem
  have hlen : len = 28 := by
    simp only [sizeofHCell, List.mem_cons, Prod.mk.injEq, List.not_mem_nil, or_false] at hmem
    omega
  have := hzero 12 (by omega)
  rw [hbyte] at this
  exact absurd this (by decide)

end Hive
