import Mathlib.Data.List.Chain
import ReactOS.Hive.FreeList

/-! # Steps of the allocator

    What `HvAllocateCell` and `HvFreeCell` are made of, on a heap that
    represents a layout: marking a cell dirty, cutting a cell, taking it, and
    adding a bin.  Each step comes with the layout it leads to.

    Between two steps one run of cells of one bin may be open, with a loose
    cell in it; `Gap` and `Layout.Others` say what holds around that run. -/

namespace Hive

open Bytes Tiling Threaded Layout Option HHive

section Steps

variable {G : Layout} {h h' : HHive} {t : StorageType} {k : Nat} {x : Loc} {c d : Cell}
  {pre post : List Cell}

/-! ## Section 1: Dirty blocks -/

/-- The layout does not see which blocks are dirty. -/
theorem Rep.congr (hr : Rep G h) (hst : h'.storage = h.storage)
    (hbm : h'.dirtyVector.sizeOfBitMap = h.dirtyVector.sizeOfBitMap) : Rep G h' := by
  obtain ⟨_, _, _, _, _, _, _, _, _, _⟩ := h'
  cases hst
  exact { hr with
    bin := fun t k b hb => { hr.bin t k b hb with }
    dirty := hbm ▸ hr.dirty }

/-- The two states differ in what `HvMarkCellDirty` writes only. -/
def SameCells (h h' : HHive) : Prop :=
  h'.storage = h.storage ∧ h'.dirtyVector.sizeOfBitMap = h.dirtyVector.sizeOfBitMap

theorem SameCells.data (hs : SameCells h h') (t : StorageType) (k : Nat) :
    h'.data t k = h.data t k := by
  simp [HHive.data, HHive.bin, hs.1]

theorem SameCells.moves (hs : SameCells h h') (hr : Rep G h) (hl : G.Listed) :
    Moves everywhere G h G h' := by
  refine ⟨hr.congr hs.1 hs.2, hl, ?_, .refl G⟩
  intro t x c _ hc _
  rw [hs.data]
  exact ⟨hc, fun _ _ => rfl⟩

theorem rtlSetBits_eq {bm : RtlBitmap} {start count : Nat} (hle : start + count ≤ bm.sizeOfBitMap) :
    ∃ bm', rtlSetBits bm start count = some bm' ∧ bm'.sizeOfBitMap = bm.sizeOfBitMap := by
  unfold rtlSetBits
  rw [if_pos hle]
  exact ⟨_, rfl, rfl⟩

/-- `HvMarkCellDirty` of a stable cell stays inside the bitmap: this is where
    the last block of the address space is lost. -/
theorem hvMarkCellDirty_spec (hr : Rep G h) (hc : G.cell .stable x = some c) :
    ∃ h', hvMarkCellDirty h (G.index .stable x) = some h' ∧ SameCells h h' := by
  have hplace := hr.place hc
  have hpos := c.size_pos
  have hdirty := hr.dirty
  have hty := hr.type_index hc
  have ha : G.start .stable x.1 + x.2 < 2 ^ 31 - 4096 := hr.offset_lt hc
  have hidx : G.index .stable x = G.start .stable x.1 + x.2 := by
    simp [index, cellIndex, StorageType.toNat]
  have hle : G.start .stable x.1 + x.2 < (h.storage .stable).length * 4096 := by omega
  generalize G.start .stable x.1 + x.2 = a at *
  have hblock : hvGetCellBlock (G.index .stable x) = a / 4096 := by
    rw [hidx, hvGetCellBlock]
    omega
  have hlast : hvGetCellBlock ((G.index .stable x + hblockSize - 1) % 2 ^ 32) = (a + 4095) / 4096 := by
    rw [hidx, hvGetCellBlock]
    simp only [hblockSize]
    omega
  have hcount : ((a + 4095) / 4096 + 2 ^ 32 - a / 4096) % 2 ^ 32
      = (a + 4095) / 4096 - a / 4096 := by omega
  obtain ⟨bm, hbm, hbmsize⟩ := @rtlSetBits_eq h.dirtyVector (a / 4096)
    ((a + 4095) / 4096 - a / 4096) (by omega)
  refine ⟨{ h with dirtyVector := bm, dirtyCount := (h.dirtyCount + 1) % 2 ^ 32 }, ?_, rfl, hbmsize⟩
  unfold hvMarkCellDirty
  rw [hty, hblock, hlast]
  simp only [hcount, hbm]
  rfl

theorem markIfStable_spec (hr : Rep G h) (hc : G.cell t x = some c) :
    ∃ h', markIfStable h t (G.index t x) = some h' ∧ SameCells h h' := by
  unfold markIfStable
  cases t with
  | stable =>
    rw [if_pos rfl]
    exact hvMarkCellDirty_spec hr hc
  | volatile => exact ⟨h, if_neg (by decide), rfl, rfl⟩

/-! ## Section 2: Settled layouts with a gap -/

variable {mid : List Cell}

/-- What may stand before and behind a run of cells. -/
structure Gap (pre post : List Cell) : Prop where
  before : CellsOk pre
  behind : CellsOk post
  last : ∀ c ∈ pre.getLast?, c.state ≠ .free
  head : ∀ c ∈ post.head?, c.state ≠ .free

theorem CellsOk.nil : CellsOk [] := ⟨by simp, .nil⟩

theorem CellsOk.singleton (hc : c.state ≠ .loose) : CellsOk [c] := ⟨by simpa using hc, .singleton c⟩

theorem Gap.fill (hg : Gap pre post) (hmid : CellsOk mid) : CellsOk (pre ++ mid ++ post) := by
  constructor
  · intro c hc
    rcases List.mem_append.mp hc with hc | hc
    · rcases List.mem_append.mp hc with hc | hc
      · exact hg.before.noLoose c hc
      · exact hmid.noLoose c hc
    · exact hg.behind.noLoose c hc
  · refine List.isChain_append.mpr ⟨?_, hg.behind.apart, ?_⟩
    · refine List.isChain_append.mpr ⟨hg.before.apart, hmid.apart, ?_⟩
      intro c hc d _ hcd
      exact hg.last c hc hcd.1
    · intro c _ d hd hcd
      exact hg.head d hd hcd.2

theorem CellsOk.gap (hok : CellsOk (pre ++ [c] ++ post)) (hc : c.state = .free) : Gap pre post := by
  obtain ⟨hpre, hpost, hpost'⟩ := List.isChain_append.mp hok.apart
  obtain ⟨hpre, _, hpre'⟩ := List.isChain_append.mp hpre
  refine ⟨⟨?_, hpre⟩, ⟨?_, hpost⟩, ?_, ?_⟩
  · exact fun d hd => hok.noLoose d (by simp [hd])
  · exact fun d hd => hok.noLoose d (by simp [hd])
  · intro d hd hfree
    exact hpre' d hd c (by simp) ⟨hfree, hc⟩
  · intro d hd hfree
    exact hpost' c (by simp) d hd ⟨hc, hfree⟩

/-- All bins but one are settled. -/
def Layout.Others (G : Layout) (t : StorageType) (k : Nat) : Prop :=
  ∀ t' (k' : Nat) (b : BinLayout), (G t').bins[k']? = some b → ¬ (t' = t ∧ k' = k) →
    CellsOk b.cells

theorem Layout.Settled.others (hs : G.Settled) (t : StorageType) (k : Nat) : G.Others t k :=
  fun t' k' b hb _ => hs.cells t' k' b hb

theorem Layout.Others.edit (ho : G.Others t k) (cells : List Cell) :
    (G.edit t k cells).Others t k := by
  intro t' k' b hb hne
  rw [bins_edit, if_neg hne] at hb
  exact ho t' k' b hb hne

theorem Layout.Others.setList (ho : G.Others t k) (t' : StorageType) (i : Nat) (l : List Loc) :
    (G.setList t' i l).Others t k := by
  intro t' k' b hb hne
  rw [bins_setList] at hb
  exact ho t' k' b hb hne

/-- A layout whose last open run has been closed is settled. -/
theorem Layout.Others.settled (ho : G.Others t k) (hl : G.Listed)
    (hrun : G.Run t k pre mid post) (hg : Gap pre post) (hmid : CellsOk mid) : G.Settled := by
  refine ⟨hl, ?_⟩
  intro t' k' b hb
  by_cases hk : t' = t ∧ k' = k
  · obtain ⟨rfl, rfl⟩ := hk
    obtain ⟨b', hb', hcells⟩ := hrun
    rw [hb] at hb'
    cases hb'
    rw [hcells]
    exact hg.fill hmid
  · exact ho t' k' b hb hk

/-! ## Section 3: Splitting and taking a cell -/

variable {mid' : List Cell} {size : Nat}

theorem setData_setData (h : HHive) (t : StorageType) (k : Nat) (d1 d2 : Buf) :
    (h.setData t k d1).setData t k d2 = h.setData t k d2 := by
  unfold setData setDual
  simp only [if_true, List.modify_modify_eq]
  congr 1
  funext t'
  by_cases ht : t' = t <;> simp [ht, Function.comp_def]

/-- Both parts of a cell that is cut at `n`. -/
def Cell.cut (c : Cell) (n : Nat) (h₁ : 16 ≤ n) (h₂ : n % 16 = 0) (h₃ : n + 16 ≤ c.size) :
    Cell × Cell :=
  (⟨n, .loose, h₁, h₂⟩,
   ⟨c.size - n, .loose, by omega, by have := c.aligned; omega⟩)

theorem Layout.Run.right (hrun : G.Run t k pre (mid ++ mid') post) :
    G.Run t k (pre ++ mid) mid' post := hrun.regroup (by simp)

theorem Layout.Run.left (hrun : G.Run t k pre (mid ++ mid') post) :
    G.Run t k pre mid (mid' ++ post) := hrun.regroup (by simp)

/-- An edit of a run without free cells, before and after. -/
theorem Rep.editLoose (hr : Rep G h) (hl : G.Listed) {data : Buf}
    {P : StorageType → Loc → Prop} (hw : Rewrite G h t k pre mid mid' post data)
    (hmid : ∀ c ∈ mid, c.state ≠ .free) (hmid' : ∀ c ∈ mid', c.state ≠ .free)
    (hP : ∀ o c, segAt Cell.size mid (sizeofHBin + total Cell.size pre) o = some c →
      c.state = .used → ¬ P t (k, o)) :
    Moves P G h (G.edit t k (pre ++ mid' ++ post)) (h.setData t k data) := by
  refine ⟨?_, ?_, hw.keeps hr hP, grows_edit _⟩
  · refine hr.editCells hw hl ?_
    intro o c hc hfree
    exact absurd hfree (hmid c (mem_of_segAt hc))
  refine hl.edit hw.run hw.size ?_
  intro o i
  constructor
  · rintro ⟨c, hc, hfree, _⟩
    exact absurd hfree (hmid' c (mem_of_segAt hc))
  · rintro ⟨c, hc, hfree, _⟩
    exact absurd hfree (hmid c (mem_of_segAt hc))

/-- What is left of the layout when a loose cell has been cut. -/
def Layout.split (G : Layout) (t : StorageType) (k : Nat) (pre : List Cell) (c₁ c₂ : Cell)
    (post : List Cell) : Layout :=
  (G.edit t k (pre ++ [c₁, c₂] ++ post)).push t k (pre ++ [c₁]) c₂ post

section

variable (hr : Rep G h) (hrun : G.Run t k pre [c] post) (hc : c.state = .loose)

include hr hrun hc

theorem splitCell_cut (hl : G.Listed) (h1 : 16 ≤ size) (h2 : size % 16 = 0)
    (h3 : size + 16 < c.size) :
    ∃ h', splitCell h ⟨t, k, sizeofHBin + total Cell.size pre⟩ (G.index t (at_ k pre)) size t
        = some h' ∧
      Moves everywhere G h (G.split t k pre (c.cut size h1 h2 (by omega)).1
        (c.cut size h1 h2 (by omega)).2 post) h' := by
  have hcell := hrun.cell_one
  have hplace := hr.place hcell
  have hoff := hr.offset_lt hcell
  have hlim := storageLimit_le t
  have hlen := hr.limit t
  have hnu : c.state ≠ .used := by simp [hc]
  simp only [at_] at hplace hoff
  obtain ⟨c1, c2, hcut⟩ : ∃ c1 c2, c.cut size h1 h2 (by omega) = (c1, c2) := ⟨_, _, rfl⟩
  have hs1 : c1.size = size := by cases hcut; rfl
  have hs2 : c2.size = c.size - size := by cases hcut; rfl
  have ht1 : c1.state = .loose := by cases hcut; rfl
  have ht2 : c2.state = .loose := by cases hcut; rfl
  rw [hcut]
  generalize hs : sizeofHBin + total Cell.size pre = s at hplace hoff
  let d1 := putU32 (h.data t k) (s + size) (c.size + 2 ^ 32 - size)
  let data := putU32 d1 s size
  have hbin : 0 < h.binSize t k := by omega
  have hself1 : (h.setData t k d1).data t k = d1 := data_setData_self d1 hbin
  -- the two stores into the headers
  have hmoves : Moves everywhere G h (G.edit t k (pre ++ [c1, c2] ++ post)) (h.setData t k data) := by
    refine hr.editLoose hl ⟨hrun, ?_, by simp [c.size_pos], ?_, ?_⟩ (by simp [hc])
      (by simp [ht1, ht2]) ?_
    · simp [hs1, hs2]
      omega
    · intro y hy
      simp only [total_cons, total_nil] at hy
      exact (putU32_out (by omega)).trans (putU32_out (by omega))
    · intro o e he
      rw [hs] at he
      simp only [segAt] at he
      split at he
      · rename_i ho
        cases he
        rw [Cell.word_of_ne_used (by simp [ht1]), hs1, ho]
        rw [getU32_putU32_self]
        omega
      split at he
      · rename_i ho
        cases he
        rw [Cell.word_of_ne_used (by simp [ht2]), hs2, ho, hs1]
        rw [getU32_putU32_ne (by omega), getU32_putU32_self]
        omega
      · cases he
    · intro o e he hu
      rw [(segAt_singleton.mp he).2] at hu
      exact absurd hu hnu
  have hrun1 : (G.edit t k (pre ++ [c1, c2] ++ post)).Run t k pre [c1, c2] post :=
    hrun.edit (by simp [hs1, hs2]; omega)
  have hrun2 : (G.edit t k (pre ++ [c1, c2] ++ post)).Run t k (pre ++ [c1]) [c2] post :=
    Layout.Run.right hrun1
  have hplace2 : sizeofHBin + total Cell.size (pre ++ [c1]) = s + size := by
    simp [← hs, hs1, Nat.add_assoc]
  obtain ⟨h2', hadd, hmoves2⟩ := hvpAddFree_spec hmoves.rep hmoves.listed hrun2 ht2
  have hpush : (push (G.edit t k (pre ++ [c1, c2] ++ post)) t k (pre ++ [c1]) c2 post).cell t
      (at_ k (pre ++ [c1])) = some (c2.withState .free) := by
    rw [push, cell_setList, cell_edit_one hrun2 (Cell.withState_size c2 _), if_pos ⟨rfl, rfl⟩]
  obtain ⟨h3', hmark, hsame⟩ := markIfStable_spec hmoves2.rep hpush
  refine ⟨h3', ?_, (hmoves.trans hmoves2).trans (hsame.moves hmoves2.rep hmoves2.listed)⟩
  -- the index of the second part
  have hidx : (G.index t (at_ k pre) + size) % 2 ^ 32
      = (G.edit t k (pre ++ [c1, c2] ++ post)).index t (at_ k (pre ++ [c1])) := by
    rw [index_edit]
    have ha : G.start t k + (s + size) < 2 ^ 31 := by omega
    have hlt' := @cellIndex_lt t _ ha
    simp only [index, at_, hplace2, hs, cellIndex] at hlt' ⊢
    omega
  have hread : h.readUlong ⟨t, k, s⟩ = some c.size := by
    rw [← hs]
    exact hr.readSize hcell hnu
  have hw1 : h.writeUlong ⟨t, k, s + size⟩ (c.size + 2 ^ 32 - size) = some (h.setData t k d1) :=
    writeUlong_eq (by simp only; omega)
  have hw2 : (h.setData t k d1).writeUlong ⟨t, k, s⟩ size = some (h.setData t k data) := by
    rw [writeUlong_eq (by simp only [binSize_setData]; omega)]
    simp only [hself1, setData_setData]
    rfl
  rw [hplace2, ← hidx] at hadd
  rw [index_push, ← hidx] at hmark
  rw [splitCell, bind_of_eq hread, if_pos (by omega)]
  simp only [Ptr.add]
  rw [bind_of_eq hw1, bind_of_eq hw2, bind_of_eq hadd]
  exact hmark

/-- `takeCell` marks the cell allocated and clears `size` bytes of it. -/
theorem takeCell_spec (hl : G.Listed) (h1 : 16 ≤ size) (h2 : size ≤ c.size) :
    ∃ h', takeCell h ⟨t, k, sizeofHBin + total Cell.size pre⟩ (G.index t (at_ k pre)) size t
        = some h' ∧
      Moves everywhere G h (G.edit t k (pre ++ [c.withState .used] ++ post)) h' ∧
      (∀ j, 4 ≤ j → j < size → h'.data t k (sizeofHBin + total Cell.size pre + j) = 0) ∧
      (∀ j, size ≤ j → h'.data t k (sizeofHBin + total Cell.size pre + j)
        = h.data t k (sizeofHBin + total Cell.size pre + j)) := by
  have hcell := hrun.cell_one
  have hplace := hr.place hcell
  have hnu : c.state ≠ .used := by simp [hc]
  simp only [at_] at hplace
  obtain ⟨hm, hmark, hsame⟩ := markIfStable_spec hr hcell
  have hrm := (hsame.moves hr hl).rep
  have hread : hm.readUlong ⟨t, k, sizeofHBin + total Cell.size pre⟩ = some c.size :=
    hrm.readSize hcell hnu
  have hsize : hm.binSize t k = h.binSize t k := by
    simp [binSize, bin, hsame.1]
  have hdata := hsame.data t k
  generalize hs : sizeofHBin + total Cell.size pre = s at *
  -- the negative size is stored, and then the data are cleared
  let d1 := putU32 (hm.data t k) s (2 ^ 32 - c.size)
  let data := overlay d1 (s + 4) (size - 4) zeroBuf
  have hbin : 0 < hm.binSize t k := by omega
  have hself1 : (hm.setData t k d1).data t k = d1 := data_setData_self d1 hbin
  have hself : (hm.setData t k data).data t k = data := data_setData_self data hbin
  have hw1 : hm.writeUlong ⟨t, k, s⟩ (2 ^ 32 - c.size) = some (hm.setData t k d1) :=
    writeUlong_eq (by simp only; omega)
  have hw2 : (hm.setData t k d1).writeBytes ⟨t, k, s + 4⟩ (size - 4) zeroBuf
      = some (hm.setData t k data) := by
    rw [writeBytes_eq (by omega) (by simp only [binSize_setData]; omega)]
    simp only [hself1, setData_setData]
    rfl
  refine ⟨hm.setData t k data, ?_, (hsame.moves hr hl).trans ?_, ?_, ?_⟩
  · rw [takeCell, bind_of_eq hmark, bind_of_eq hread, bind_of_eq hw1,
      if_neg (by simp only [sizeofHCell]; omega)]
    exact hw2
  · refine hrm.editLoose hl ⟨hrun, by simp, by simp [c.size_pos], ?_, ?_⟩ (by simp [hc]) (by simp) ?_
    · intro y hy
      simp only [total_cons, total_nil] at hy
      exact (overlay_out (by omega)).trans (putU32_out (by omega))
    · intro o e he
      rw [hs] at he
      obtain ⟨rfl, rfl⟩ := segAt_singleton.mp he
      rw [Cell.word_of_used (by simp), Cell.withState_size]
      rw [getU32_overlay_out (by omega)]
      rw [getU32_putU32_self]
      omega
    · intro o e he hu
      rw [(segAt_singleton.mp he).2] at hu
      exact absurd hu hnu
  · intro j hj1 hj2
    rw [hself]
    exact overlay_in (by omega) (by omega)
  · intro j hj
    rw [hself, ← hdata]
    exact (overlay_out (by omega)).trans (putU32_out (by omega))

end

/-! ## Section 4: New bins -/

variable {mem : Memory}

theorem getElem?_concat {α : Type} (l : List α) (a : α) (k : Nat) :
    (l ++ [a])[k]? = if k = l.length then some a else l[k]? := by
  grind

/-- Append a bin. -/
def Layout.addBin (G : Layout) (t : StorageType) (b : BinLayout) : Layout := fun t' =>
  if t' = t then { G t with bins := (G t).bins ++ [b] } else G t'

namespace Layout

variable (t' : StorageType) (b : BinLayout)

@[simp] theorem lists_addBin : (G.addBin t b t').lists = (G t').lists := by
  unfold addBin
  by_cases ht : t' = t <;> simp [ht]

theorem bins_addBin (k : Nat) : (G.addBin t b t').bins[k]? =
      if t' = t ∧ k = (G t).bins.length then some b else (G t').bins[k]? := by
  unfold addBin
  by_cases ht : t' = t
  · subst ht
    simp [getElem?_concat]
  · simp [ht]

theorem cell_addBin (x : Loc) : (G.addBin t b).cell t' x =
      if t' = t ∧ x.1 = (G t).bins.length then segAt Cell.size b.cells sizeofHBin x.2
      else G.cell t' x := by
  unfold cell
  rw [bins_addBin]
  by_cases hk : t' = t ∧ x.1 = (G t).bins.length
  · rw [if_pos hk, if_pos hk]
    rfl
  · rw [if_neg hk, if_neg hk]

end Layout

theorem Layout.cell_lt (hc : G.cell t x = some c) : x.1 < (G t).bins.length := by
  obtain ⟨b, hb⟩ := exists_bin hc
  exact (List.getElem?_eq_some_iff.mp hb).1

theorem Layout.cell_addBin_old (hc : G.cell t x = some c) (t' : StorageType) (b : BinLayout) :
    (G.addBin t' b).cell t x = some c := by
  rw [cell_addBin, if_neg, hc]
  rintro ⟨rfl, hk⟩
  have := cell_lt hc
  omega

theorem Layout.index_addBin_old (hc : G.cell t x = some c) (t' : StorageType) (b : BinLayout) :
    (G.addBin t' b).index t x = G.index t x := by
  unfold index start
  rw [bins_addBin, if_neg]
  rintro ⟨rfl, hk⟩
  have := cell_lt hc
  omega

theorem Layout.grows_addBin (b : BinLayout) : G.Grows (G.addBin t b) := by
  intro t' k hk
  constructor
  · unfold addBin
    by_cases ht : t' = t
    · subst ht
      simp
      omega
    · simpa [ht] using hk
  · unfold start
    rw [bins_addBin, if_neg]
    rintro ⟨rfl, rfl⟩
    omega

/-- A bin that holds one loose cell. -/
def newBin (start size : Nat) (h₁ : start % 4096 = 0) (h₂ : size % 4096 = 0) (h₃ : 0 < size) :
    BinLayout where
  start := start
  cells := [⟨size - sizeofHBin, .loose, by simp only [sizeofHBin]; omega,
    by simp only [sizeofHBin]; omega⟩]
  start_aligned := h₁
  size_aligned := by
    simp only [total_cons, total_nil, sizeofHBin]
    omega

/-- `h'` is `h` with a new bin of storage `t`. -/
structure BinAdded (h : HHive) (t : StorageType) (size : Nat) (h' : HHive) : Prop where
  storage : h'.storage = (h.setDual t ((h.storage t).addBin t size)).storage
  dirty : (h'.storage .stable).length ≤ h'.dirtyVector.sizeOfBitMap

theorem getU32_newBinData (fileOffset binSize : Nat) (h1 : fileOffset < 2 ^ 32)
    (h2 : binSize < 2 ^ 32) :
    getU32 (newBinData fileOffset binSize) 4 = fileOffset ∧
    getU32 (newBinData fileOffset binSize) 8 = binSize ∧
    getU32 (newBinData fileOffset binSize) sizeofHBin = binSize - sizeofHBin := by
  unfold newBinData
  simp only [sizeofHBin]
  refine ⟨?_, ?_, ?_⟩
  · rw [getU32_putU32_ne (by omega), getU32_putU32_ne (by omega), getU32_putU32_self]
    omega
  · rw [getU32_putU32_ne (by omega), getU32_putU32_self]
    omega
  · rw [getU32_putU32_self]
    omega

theorem newBinData_zero {fileOffset binSize j : Nat} (hj : 36 ≤ j) :
    newBinData fileOffset binSize j = 0 := by
  unfold newBinData
  simp only [sizeofHBin]
  rw [putU32_out (by omega), putU32_out (by omega), putU32_out (by omega), putU32_out (by omega)]
  rfl

theorem BinAdded.bin (ha : BinAdded h t size h') (t' : StorageType) (k : Nat) : h'.bin t' k =
      if t' = t ∧ k = (h.storage t).bins.length then
        some ⟨size, newBinData ((h.storage t).length * hblockSize % 2 ^ 32) size⟩
      else h.bin t' k := by
  unfold HHive.bin
  rw [ha.storage]
  unfold HHive.setDual Dual.addBin
  by_cases ht : t' = t
  · subst ht
    simp [getElem?_concat]
  · simp [ht]

namespace BinAdded

section

variable (ha : BinAdded h t size h')

include ha

theorem storage_ne {t' : StorageType} (ht : t' ≠ t) : h'.storage t' = h.storage t' := by
  rw [ha.storage]
  simp [setDual, ht]

theorem freeDisplay (t' : StorageType) :
    (h'.storage t').freeDisplay = (h.storage t').freeDisplay := by
  rw [ha.storage]
  by_cases ht : t' = t
  · subst ht
    simp [setDual, Dual.addBin]
  · simp [setDual, ht]

theorem data_old {t' : StorageType} {k : Nat}
    (hk : ¬ (t' = t ∧ k = (h.storage t).bins.length)) :
    h'.data t' k = h.data t' k ∧ h'.binSize t' k = h.binSize t' k := by
  have hb := ha.bin t' k
  rw [if_neg hk] at hb
  simp [data, binSize, hb]

theorem data_cell (hr : Rep G h) {t' : StorageType} (hc : G.cell t' x = some c) :
    h'.data t' x.1 = h.data t' x.1 := by
  refine (ha.data_old ?_).1
  rintro ⟨rfl, hk⟩
  have := cell_lt hc
  have := hr.count t'
  omega

variable (h2 : size % 4096 = 0) (hroom : (h.storage t).length * 4096 + size ≤ storageLimit t)

include h2 hroom

theorem length : (h'.storage t).length * 4096 = (h.storage t).length * 4096 + size := by
  have hlim := storageLimit_le t
  rw [ha.storage]
  simp only [setDual, Dual.addBin, if_true, hblockSize]
  omega

theorem blockList (t' : StorageType) : (h.storage t').length ≤ (h'.storage t').length ∧
    ∀ j < (h.storage t').length, (h'.storage t').blockList j = (h.storage t').blockList j := by
  by_cases ht : t' = t
  · subst ht
    have hlen := ha.length h2 hroom
    refine ⟨by omega, fun j hj => ?_⟩
    rw [ha.storage]
    simp only [setDual, Dual.addBin, if_true]
    rw [if_neg (by omega)]
  · simp [ha.storage_ne ht]

/-- The new bin: its header, its blocks and the word of its cell. -/
theorem binRep (hr : Rep G h) (h3 : 0 < size) :
    BinRep h' t (G t).bins.length (newBin ((h.storage t).length * 4096) size (by omega) h2 h3) ∧
      getU32 (h'.data t (G t).bins.length) sizeofHBin = size - sizeofHBin := by
  have hlim := storageLimit_le t
  have hnew := ha.bin t (G t).bins.length
  rw [← hr.count t, if_pos ⟨rfl, rfl⟩, hr.count t] at hnew
  -- inside the limit neither the offset nor the size wraps around
  have hoffset : (h.storage t).length * hblockSize % 2 ^ 32 = (h.storage t).length * 4096 := by
    simp only [hblockSize]
    omega
  rw [hoffset] at hnew
  obtain ⟨hstart, hword, hcell⟩ :=
    getU32_newBinData ((h.storage t).length * 4096) size (by omega) (by omega)
  have hsize : (newBin ((h.storage t).length * 4096) size (by omega) h2 h3).size = size := by
    simp only [newBin, BinLayout.size, total_cons, total_nil, sizeofHBin]
    omega
  refine ⟨⟨?_, ?_, ?_, ?_, fun i hi => ?_⟩, ?_⟩
  · rw [hsize]
    simp [binSize, hnew]
  · simp only [data, hnew, hstart]
    rfl
  · rw [hsize]
    simp only [data, hnew, hword]
  · rw [hsize, ha.length h2 hroom]
    exact Nat.le_refl _
  · have hblock : (newBin ((h.storage t).length * 4096) size (by omega) h2 h3).start / 4096 + i =
        (h.storage t).length + i := by
      simp only [newBin]
      omega
    rw [hblock, ha.storage, ← hr.count t]
    simp only [setDual, Dual.addBin, if_true, hblockSize]
    rw [if_pos (by omega), Nat.add_sub_cancel_left]
  · simp only [data, hnew, hcell]

end

end BinAdded

/-- The cell of a new bin is on no list. -/
theorem Layout.Listed.addBin (hl : G.Listed) {start : Nat} (h1 : start % 4096 = 0)
    (h2 : size % 4096 = 0) (h3 : 0 < size) : (G.addBin t (newBin start size h1 h2 h3)).Listed := by
  constructor
  · intro t' i x hi
    rw [lists_addBin, hl.mem t' i x hi, cell_addBin]
    split
    · rename_i hk
      obtain ⟨rfl, hk⟩ := hk
      constructor
      · rintro ⟨e, he, _⟩
        have := cell_lt he
        omega
      · rintro ⟨e, he, hfree, _⟩
        have := mem_of_segAt he
        simp only [newBin, List.mem_singleton] at this
        rw [this] at hfree
        cases hfree
    · rfl
  · intro t' i hi
    rw [lists_addBin]
    exact hl.nodup t' i hi

theorem BinAdded.moves (ha : BinAdded h t size h') (hr : Rep G h) (hl : G.Listed)
    (h2 : size % 4096 = 0) (h3 : 0 < size)
    (hroom : (h.storage t).length * 4096 + size ≤ storageLimit t) :
    Moves everywhere G h
      (G.addBin t (newBin ((h.storage t).length * 4096) size (by omega) h2 h3)) h' := by
  have hcount := hr.count t
  obtain ⟨hbin, hcell⟩ := ha.binRep h2 hroom hr h3
  refine ⟨?_, hl.addBin _ h2 h3, ?_, grows_addBin _⟩
  · constructor
    case count =>
      intro t'
      by_cases ht : t' = t
      · subst ht
        rw [ha.storage]
        simp [setDual, Dual.addBin, addBin, hcount]
      · rw [ha.storage_ne ht]
        simp [addBin, ht, hr.count]
    case bin =>
      -- every bin but the last is an old one
      intro t' k b hb
      rw [bins_addBin] at hb
      by_cases hk : t' = t ∧ k = (G t).bins.length
      · obtain ⟨rfl, rfl⟩ := hk
        rw [if_pos ⟨rfl, rfl⟩] at hb
        cases hb
        exact hbin
      · rw [if_neg hk] at hb
        rw [← hcount] at hk
        obtain ⟨hdata, hsize⟩ := ha.data_old hk
        obtain ⟨hle, hlist⟩ := ha.blockList h2 hroom t'
        exact (hr.bin t' k b hb).congr hsize hle hlist fun _ _ => by rw [hdata]
    case limit =>
      intro t'
      by_cases ht : t' = t
      · subst ht
        rw [ha.length h2 hroom]
        exact hroom
      · rw [ha.storage_ne ht]
        exact hr.limit t'
    case dirty => exact ha.dirty
    case header =>
      intro t' x e he
      rw [cell_addBin] at he
      split at he
      · rename_i hk
        obtain ⟨rfl, hk⟩ := hk
        obtain ⟨ho, rfl⟩ := segAt_singleton.mp he
        rw [hk, ho, hcell]
        rfl
      · rw [ha.data_cell hr he]
        exact hr.header t' x e he
    case chain =>
      -- the cells on a list are old ones, which keep their links
      intro t' i hi
      rw [ha.freeDisplay, lists_addBin]
      refine chain_transport (hr.chain t' i hi) ?_
      intro y hy
      obtain ⟨e, he, _⟩ := (hl.mem t' i y hi).mp hy
      refine ⟨index_addBin_old he t _, ?_⟩
      unfold link
      rw [ha.data_cell hr he]
  · intro t' x e _ he _
    rw [ha.data_cell hr he]
    exact ⟨cell_addBin_old he t _, fun _ _ => rfl⟩

/-- The last part of `HvpAddBin` grows the bitmap to the new length. -/
theorem growDirtyVector_spec {bm : RtlBitmap} {length : Nat}
    (hmem : bm.sizeOfBitMap / 8 < roundUp length 32 / 8 → mem.bitmap = true) :
    ∃ bm', growDirtyVector bm length mem = some bm' ∧ length ≤ bm'.sizeOfBitMap := by
  unfold growDirtyVector
  simp only
  have hle : length ≤ roundUp length 32 / 8 * 8 := by
    unfold roundUp
    omega
  split
  · rename_i hlt
    rw [if_pos (hmem hlt)]
    exact ⟨_, rfl, hle⟩
  · exact ⟨bm, rfl, by omega⟩

theorem markBinDirty_spec {mem : Memory} {fileOffset binSize : Nat}
    (hmem : h.dirtyVector.sizeOfBitMap / 8 < roundUp (h.storage .stable).length 32 / 8 →
      mem.bitmap = true)
    (hle : fileOffset / hblockSize + binSize / hblockSize ≤ (h.storage .stable).length) :
    ∃ h', markBinDirty h mem fileOffset binSize = some h' ∧ h'.storage = h.storage ∧
      (h.storage .stable).length ≤ h'.dirtyVector.sizeOfBitMap := by
  obtain ⟨bm, hgrow, hbm⟩ := growDirtyVector_spec hmem
  obtain ⟨bm', hset, hsize⟩ := rtlSetBits_eq (Nat.le_trans hle hbm)
  rw [markBinDirty, bind_of_eq hgrow, bind_of_eq hset]
  exact ⟨_, rfl, rfl, hsize ▸ hbm⟩

/-- What `HvpAddBin` needs to succeed for a cell of `size` bytes. -/
structure HasRoom (h : HHive) (mem : Memory) (size : Nat) (t : StorageType) : Prop where
  bin : mem.bin = true
  blockList : mem.blockList = true
  fits : (h.storage t).length * 4096 + roundUp (size + sizeofHBin) 4096 ≤ storageLimit t
  bitmap : t = .stable → h.dirtyVector.sizeOfBitMap / 8
      < roundUp ((h.storage t).length + roundUp (size + sizeofHBin) 4096 / 4096) 32 / 8 →
    mem.bitmap = true

theorem hvpAddBin_spec (hroom : HasRoom h mem size t)
    (hdirty : (h.storage .stable).length ≤ h.dirtyVector.sizeOfBitMap) :
    ∃ h', hvpAddBin h mem size t = some (h', some (h.storage t).bins.length) ∧
      BinAdded h t (roundUp (size + sizeofHBin) 4096) h' := by
  have hfits := hroom.fits
  have hlim := storageLimit_le t
  have hpos : 0 < roundUp (size + sizeofHBin) 4096 := by
    simp only [roundUp, sizeofHBin]
    omega
  have hmod : roundUp (size + sizeofHBin) hblockSize % 2 ^ 32 = roundUp (size + sizeofHBin) 4096 :=
    Nat.mod_eq_of_lt (by simp only [hblockSize]; omega)
  have hbitmap := hroom.bitmap
  unfold hvpAddBin
  simp only [hmod, hroom.bin, hroom.blockList, Bool.not_true, Bool.false_eq_true, if_false]
  generalize roundUp (size + sizeofHBin) 4096 = n at *
  rw [if_neg (by omega)]
  cases t with
  | volatile => exact ⟨_, rfl, rfl, by simpa [setDual] using hdirty⟩
  | stable =>
    have hlen : ((h.setDual .stable ((h.storage .stable).addBin .stable n)).storage .stable).length
        = (h.storage .stable).length + n / 4096 := by
      simp only [setDual, Dual.addBin, if_true, hblockSize]
      omega
    have hmem := hbitmap rfl
    rw [← hlen] at hmem
    obtain ⟨h', hmark, hst, hle⟩ := @markBinDirty_spec
      (h.setDual .stable ((h.storage .stable).addBin .stable n)) mem
      ((h.storage .stable).length * hblockSize % 2 ^ 32) n hmem
      (by rw [hlen]; simp only [hblockSize]; omega)
    refine ⟨h', ?_, hst, ?_⟩
    · simp only [hmark, map_some]
    · rw [hst]
      exact hle

/-- `HvpAddBin` that runs out of memory leaves the hive as it was. -/
theorem hvpAddBin_fail (hfail : mem.bin = false ∨
      (mem.blockList = false ∧ roundUp (size + sizeofHBin) 4096 % 2 ^ 32 ≠ 0)) :
    hvpAddBin h mem size t = some (h, none) := by
  unfold hvpAddBin
  simp only
  rcases hfail with hfail | ⟨hfail, hne⟩
  · rw [hfail]
    rfl
  split
  · rfl
  · rw [hfail]
    rfl

end Steps

end Hive
