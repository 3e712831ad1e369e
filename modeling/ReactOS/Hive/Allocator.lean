import ReactOS.Hive.HeapSteps

/-! # Allocation

    `HvAllocateCell` takes a heap that represents a settled layout to one that
    represents a settled layout with one more allocated cell, and keeps every
    allocated cell where it is, with its contents.  When there is no memory it
    leaves the hive as it was. -/

namespace Hive

open Bytes Tiling Threaded Layout Option

variable {G : Layout} {h h' : HHive} {t : StorageType} {k : Nat} {x : Loc} {c d : Cell}
  {pre post : List Cell}

/-! ## Section 1: Finding a cell -/

variable {size n : Nat} {mem : Memory}

theorem Layout.Others.push (ho : G.Others t k) : (G.push t k pre c post).Others t k :=
  (ho.edit _).setList _ _ _

theorem Layout.Others.pop (ho : G.Others t k) : (G.pop t k pre c post).Others t k :=
  (ho.edit _).setList _ _ _

/-- `HvpAddBin` returns, with or without a bin. -/
def CanGrow (h : HHive) (mem : Memory) (size : Nat) (t : StorageType) : Prop :=
  mem.bin = false ∨
  (mem.blockList = false ∧ roundUp (size + sizeofHBin) 4096 % 2 ^ 32 ≠ 0) ∨
  HasRoom h mem size t

/-- A free cell of storage `t` has at least `size` bytes. -/
def Layout.Fits (G : Layout) (t : StorageType) (size : Nat) : Prop :=
  ∃ x c, G.cell t x = some c ∧ c.state = .free ∧ size ≤ c.size

/-- The loose cell `c` behind `pre` is there for the taking. -/
structure Obtained (G : Layout) (h : HHive) (t : StorageType) (size : Nat) (G₁ : Layout)
    (h₁ : HHive) (k : Nat) (pre : List Cell) (c : Cell) (post : List Cell) : Prop where
  run : G₁.Run t k pre [c] post
  loose : c.state = .loose
  fits : size ≤ c.size
  moves : Moves everywhere G h G₁ h₁
  others : G₁.Others t k
  gap : Gap pre post
  fresh : ∀ d, G.cell t (Layout.at_ k pre) = some d → d.state ≠ .used
  tail : (G.firstFit t size = some (Layout.at_ k pre) ∧
      (∃ d, G.cell t (Layout.at_ k pre) = some d ∧ d.size = c.size) ∧
      ∀ j, 8 ≤ j → j < c.size → h₁.data t k (sizeofHBin + total Cell.size pre + j)
        = h.data t k (sizeofHBin + total Cell.size pre + j)) ∨
    ∀ j, 4 ≤ j → h₁.data t k (sizeofHBin + total Cell.size pre + j) = 0

theorem Taken.cell (ht : Taken G h t x pre c post h') : G.cell t x = some c := by
  have hcell := ht.run.cell_one
  rw [← ht.place] at hcell
  exact hcell

theorem Taken.obtained (ht : Taken G h t x pre c post h') (hs : G.Settled)
    (hfit : G.firstFit t size = some x) (hle : size ≤ c.size) :
    Obtained G h t size (G.pop t x.1 pre c post) h' x.1 pre (c.withState .loose) post := by
  have hrun := ht.run
  have hcell := hrun.cell_one
  obtain ⟨b, hb, hcells⟩ := hrun
  have hgap : Gap pre post := by
    have hok := hs.cells t x.1 b hb
    rw [hcells] at hok
    exact hok.gap ht.free
  refine ⟨ht.run.pop, rfl, hle, ht.moves, (hs.others t x.1).pop, hgap, ?_,
    .inl ⟨?_, ⟨c, hcell, rfl⟩, ?_⟩⟩
  · intro d hd
    rw [hcell] at hd
    cases hd
    simp [ht.free]
  · rw [← ht.place]
    exact hfit
  · intro j h₁ h2
    have hb := ht.bytes t x c ht.cell j h₁ h2
    have hx : x.2 = sizeofHBin + total Cell.size pre := congrArg Prod.snd ht.place
    rw [hx] at hb
    exact hb

theorem BinAdded.obtained (ha : BinAdded h t n h') (hr : Rep G h) (hs : G.Settled)
    (h2 : n % 4096 = 0) (h3 : 0 < n) (hroom : (h.storage t).length * 4096 + n ≤ storageLimit t)
    (hle : size + sizeofHBin ≤ n) :
    ∃ G1 c, Obtained G h t size G1 h' (h.storage t).bins.length [] c [] ∧
      G1.index t (at_ (h.storage t).bins.length [])
        = cellIndex t ((h.storage t).length * 4096 + sizeofHBin) := by
  have hcount := hr.count t
  have hmoves := ha.moves hr hs.toListed h2 h3 hroom
  have hbin := @bins_addBin G t t (newBin ((h.storage t).length * 4096) n (by omega) h2 h3)
    (G t).bins.length
  rw [if_pos ⟨rfl, rfl⟩, ← hcount] at hbin
  refine ⟨_, _, ⟨⟨_, hbin, rfl⟩, rfl, ?_, hmoves, ?_, ⟨.nil, .nil, by simp, by simp⟩, ?_, .inr ?_⟩, ?_⟩
  · show size ≤ n - sizeofHBin
    omega
  · intro t' k' b hb hne
    rw [bins_addBin, ← hcount, if_neg hne] at hb
    exact hs.cells t' k' b hb
  · intro d hd
    have := cell_lt hd
    simp only [at_] at this
    omega
  · intro j hj
    have hb := ha.bin t (h.storage t).bins.length
    simp only [HHive.data, hb]
    exact newBinData_zero (by simp only [sizeofHBin, total_nil]; omega)
  · unfold index start
    simp only [at_]
    rw [hbin]
    rfl

section FindOrAddBin

variable {mem : Memory} {size v : Nat} {h₁ : HHive}

end FindOrAddBin

theorem findOrAddBin_spec (hr : Rep G h) (hs : G.Settled)
    (hsize : 16 ≤ size) (hsafe : G.Fits t size ∨ CanGrow h mem size t) :
    findOrAddBin h mem size t = some (h, hcellNil) ∨
    ∃ G1 h₁ k pre c post,
      findOrAddBin h mem size t = some (h₁, G1.index t (at_ k pre)) ∧
      Obtained G h t size G1 h₁ k pre c post := by
  have hfind : Finds G h t size (G.firstFit t size) (hvpFindFree h size t) :=
    hvpFindFree_spec hr hs.toListed size
  cases hfit : G.firstFit t size with
  | some x =>
    rw [hfit] at hfind
    obtain ⟨h₁, pre, c, post, heq, hle, ht⟩ := hfind
    refine .inr ⟨_, h₁, x.1, pre, _, post, ?_, ht.obtained hs hfit hle⟩
    rw [index_pop, ← ht.place]
    rw [findOrAddBin, bind_of_eq heq]
    exact if_neg (index_ne_nil ht.cell)
  | none =>
    -- nothing fits, so a bin has to be added
    rw [hfit] at hfind
    have hgrow : CanGrow h mem size t := by
      rcases hsafe with ⟨x, c, hc, hfree, hle⟩ | hgrow
      · have := firstFit_none hr hs.toListed (by omega) hfit hc hfree
        omega
      · exact hgrow
    by_cases hfail : mem.bin = false ∨
        (mem.blockList = false ∧ roundUp (size + sizeofHBin) 4096 % 2 ^ 32 ≠ 0)
    · refine .inl ?_
      rw [findOrAddBin, bind_of_eq hfind]
      simp only [if_true]
      rw [bind_of_eq (hvpAddBin_fail hfail)]
    have hroom : HasRoom h mem size t := by
      rcases hgrow with hg | hg | hg
      · exact absurd (.inl hg) hfail
      · exact absurd (.inr hg) hfail
      · exact hg
    have hfits := hroom.fits
    have hlim := storageLimit_le t
    obtain ⟨h₁, hadd, hadded⟩ := hvpAddBin_spec hroom hr.dirty
    have hmod : roundUp (size + sizeofHBin) 4096 % 4096 = 0 := by
      unfold roundUp
      omega
    have hle : size + sizeofHBin ≤ roundUp (size + sizeofHBin) 4096 := by
      unfold roundUp
      omega
    generalize roundUp (size + sizeofHBin) 4096 = n at *
    have hlt : (h.storage t).length * 4096 + sizeofHBin < 2 ^ 31 := by omega
    have hmin : 4 + 4 ≤ n := by omega
    have hn : n < 2 ^ 32 := by omega
    have hlen : (h.storage t).length * 4096 < 2 ^ 32 :=
      Nat.lt_of_le_of_lt (Nat.le_add_right _ _) (Nat.lt_trans hlt (by decide))
    obtain ⟨G1, c, hobt, hidx⟩ := hadded.obtained hr hs hmod (by omega) hfits hle
    refine .inr ⟨G1, h₁, _, [], c, [], ?_, hobt⟩
    rw [hidx]
    -- the file offset in the new header gives the index of its cell
    have hbin := hadded.bin t (h.storage t).bins.length
    rw [if_pos ⟨rfl, rfl⟩] at hbin
    have hbs : h₁.binSize t (h.storage t).bins.length = n := by
      simp [HHive.binSize, hbin]
    have hread := readUlong_eq (p := ⟨t, (h.storage t).bins.length, 4⟩) (hbs ▸ hmin)
    simp only [HHive.data, hbin] at hread
    rw [Nat.mod_eq_of_lt hlen, (getU32_newBinData _ _ hlen hn).1] at hread
    rw [findOrAddBin, bind_of_eq hfind]
    simp only [if_true]
    rw [bind_of_eq hadd]
    simp only
    rw [bind_of_eq hread, Nat.mod_eq_of_lt (Nat.lt_trans hlt (by decide)), or_typeBit t hlt]

/-! ## Section 2: Allocation -/

variable {h₁ : HHive}

/-- The cell at `x` of `G'` is a new one for a request of full size `size`. -/
structure Allocated (G : Layout) (h : HHive) (t : StorageType) (size : Nat) (G' : Layout)
    (h' : HHive) (x : Loc) (c : Cell) : Prop where
  moves : Moves everywhere G h G' h'
  settled : G'.Settled
  cell : G'.cell t x = some c
  used : c.state = .used
  fits : size ≤ c.size
  fresh : ∀ d, G.cell t x = some d → d.state ≠ .used
  cleared : ∀ j, 4 ≤ j → j < size → h'.data t x.1 (x.2 + j) = 0
  tail : ∀ j, size ≤ j → j < c.size →
    (c.size = size + 16 ∧ G.firstFit t size = some x ∧
      (∃ d, G.cell t x = some d ∧ d.size = c.size) ∧
      h'.data t x.1 (x.2 + j) = h.data t x.1 (x.2 + j)) ∨
    h'.data t x.1 (x.2 + j) = 0

/-- The new cell is closed by the allocated cell and what was split off. -/
theorem cellsOk_used_free {c1 c2 : Cell} (h₁ : c1.state = .used) (h2 : c2.state = .free) :
    CellsOk [c1, c2] := by
  refine ⟨by simp [h₁, h2], ?_⟩
  simp [Cell.Apart, h₁]

theorem Obtained.allocate {G1 : Layout}
    (ho : Obtained G h t size G1 h₁ k pre c post) (hmin : 16 ≤ size) (hal : size % 16 = 0)
    (hlt : size + 16 < 2 ^ 32) :
    ∃ h2 h3 G' c', splitCell h₁ ⟨t, k, sizeofHBin + total Cell.size pre⟩
        (G1.index t (at_ k pre)) size t = some h2 ∧
      takeCell h2 ⟨t, k, sizeofHBin + total Cell.size pre⟩
        (G1.index t (at_ k pre)) size t = some h3 ∧
      G'.index t (at_ k pre) = G1.index t (at_ k pre) ∧
      Allocated G h t size G' h3 (at_ k pre) c' := by
  have hr1 := ho.moves.rep
  have hl1 := ho.moves.listed
  by_cases hcut : size + 16 < c.size
  · -- the rest of the cell goes on a list, and all of the new cell is cleared
    obtain ⟨h2, hsplit, hmoves⟩ := splitCell_cut hr1 ho.run ho.loose hl1 hmin hal hcut
    obtain ⟨c1, c2, hcc⟩ : ∃ c1 c2, c.cut size hmin hal (by omega) = (c1, c2) := ⟨_, _, rfl⟩
    have hs1 : c1.size = size := by cases hcc; rfl
    have hs2 : c2.size = c.size - size := by cases hcc; rfl
    have ht1 : c1.state = .loose := by cases hcc; rfl
    rw [hcc] at hmoves
    have hrun1 : (G1.edit t k (pre ++ [c1, c2] ++ post)).Run t k pre [c1, c2] post :=
      ho.run.edit (by simp [hs1, hs2]; omega)
    have hrun2 : (G1.split t k pre c1 c2 post).Run t k (pre ++ [c1]) [c2.withState .free] post :=
      Layout.Run.push (Layout.Run.right hrun1)
    have hrun3 : (G1.split t k pre c1 c2 post).Run t k pre [c1] ([c2.withState .free] ++ post) :=
      hrun2.regroup (by simp)
    have hidx : (G1.split t k pre c1 c2 post).index t (at_ k pre)
        = G1.index t (at_ k pre) := by
      rw [split, index_push, index_edit]
    obtain ⟨h3, htake, hmoves3, hzero, _⟩ :=
      takeCell_spec hmoves.rep hrun3 ht1 hmoves.listed hmin (Nat.le_of_eq hs1.symm)
    rw [hidx] at htake
    have hrun4 : Layout.Run _ t k pre [c1.withState .used] ([c2.withState .free] ++ post) :=
      hrun3.edit (by simp)
    refine ⟨h2, h3, _, c1.withState .used, hsplit, htake, ?_,
      (ho.moves.trans hmoves).trans hmoves3, ?_, hrun4.cell_one, rfl, Nat.le_of_eq hs1.symm,
      ho.fresh, hzero, ?_⟩
    · rw [index_edit, hidx]
    · have hrun5 := hrun4
      obtain ⟨b, hb, hcells⟩ := hrun5
      have hrun6 : Layout.Run _ t k pre [c1.withState .used, c2.withState .free] post :=
        ⟨b, hb, by rw [hcells]; simp⟩
      exact (((ho.others.edit _).push).edit _).settled hmoves3.listed hrun6 ho.gap
        (cellsOk_used_free rfl rfl)
    · intro j hj1 hj2
      simp only [Cell.withState_size] at hj2
      omega
  · -- the whole cell is taken; what lies behind the request is not cleared
    have hsplit : splitCell h₁ ⟨t, k, sizeofHBin + total Cell.size pre⟩
        (G1.index t (at_ k pre)) size t = some h₁ := by
      rw [splitCell]
      refine (bind_of_eq (hr1.readSize ho.run.cell_one (by simp [ho.loose]))).trans (if_neg ?_)
      omega
    obtain ⟨h3, htake, hmoves3, hzero, htail⟩ := takeCell_spec hr1 ho.run ho.loose hl1 hmin ho.fits
    have hrun3 : Layout.Run _ t k pre [c.withState .used] post := ho.run.edit (by simp)
    refine ⟨h₁, h3, _, c.withState .used, hsplit, htake, index_edit _,
      ho.moves.trans hmoves3, ?_, hrun3.cell_one, rfl, ho.fits, ho.fresh, hzero, ?_⟩
    · exact (ho.others.edit _).settled hmoves3.listed hrun3 ho.gap (.singleton (by simp))
    intro j hj1 hj2
    simp only [at_]
    rw [htail j hj1]
    rcases ho.tail with ⟨hfit, ⟨d, hd, hds⟩, hbytes⟩ | hnew
    · have hdal := c.aligned
      simp only [Cell.withState_size] at hj2
      exact .inl ⟨by simp only [Cell.withState_size]; omega, hfit, ⟨d, hd, hds⟩,
        hbytes j (by omega) hj2⟩
    · exact .inr (hnew j (by omega))

/-- `HvAllocateCell` returns a new cell, or `HCELL_NIL` and the hive as it
    was. -/
theorem hvAllocateCell_spec (hr : Rep G h) (hs : G.Settled) (hmin : 16 ≤ fullCellSize n)
    (hsafe : G.Fits t (fullCellSize n) ∨ CanGrow h mem (fullCellSize n) t) :
    hvAllocateCell h mem n t = some (h, hcellNil) ∨
    ∃ G' h' x c, hvAllocateCell h mem n t = some (h', G'.index t x) ∧
      Allocated G h t (fullCellSize n) G' h' x c := by
  have hal : fullCellSize n % 16 = 0 := by
    unfold fullCellSize roundUp
    omega
  rcases findOrAddBin_spec hr hs hmin hsafe with hnil | ⟨G1, h₁, k, pre, c, post, hfind, ho⟩
  · refine .inl ?_
    rw [hvAllocateCell, bind_of_eq hnil]
    exact if_pos rfl
  have hcell := ho.run.cell_one
  have hlt : fullCellSize n + 16 < 2 ^ 32 := by
    have := ho.moves.rep.size_lt hcell
    have := ho.fits
    omega
  obtain ⟨h2, h3, G', c', hsplit, htake, hidx, halloc⟩ := ho.allocate hmin hal hlt
  refine .inr ⟨G', h3, _, c', ?_, halloc⟩
  rw [hidx, hvAllocateCell, bind_of_eq hfind]
  simp only
  rw [if_neg (index_ne_nil hcell), bind_of_eq (ho.moves.rep.getCellHeader hcell)]
  exact (bind_of_eq hsplit).trans (bind_of_eq htake)

end Hive
