import ReactOS.Hive.Allocator

/-! # Release and reallocation

    `HvFreeCell` and `HvReallocateCell` on a heap that represents a settled
    layout.

    `HvFreeCell` first makes the cell loose, then lets it take in the cell
    behind it when that one is free, and last either adds it to the free cell
    before it or puts it on a list of its own.  The cell before it is found by
    a walk from the start of the bin, which is an induction on the cells that
    lie before the freed one. -/

namespace Hive

open Bytes Tiling Threaded Layout Option

variable {G : Layout} {h h' : HHive} {t : StorageType} {k : Nat} {x : Loc} {c d : Cell}
  {pre post : List Cell}

/-! ## Section 1: The cell behind the freed one -/

theorem CellsOk.tail (hok : CellsOk (d :: post)) : CellsOk post := by
  refine ⟨fun c hc => hok.noLoose c (by simp [hc]), ?_⟩
  exact (List.isChain_cons.mp hok.apart).2

theorem off_concat (pre : List Cell) (c : Cell) : sizeofHBin + total Cell.size (pre ++ [c])
    = sizeofHBin + total Cell.size pre + c.size := by
  simp [Nat.add_assoc]

theorem Rep.index_lt (hr : Rep G h) (hc : G.cell t x = some c) : G.start t x.1 + x.2 < 2 ^ 31 :=
  Nat.lt_of_lt_of_le (hr.offset_lt hc) (storageLimit_le t)

theorem Rep.neighborIndex_eq (hr : Rep G h) (hc : G.cell t x = some c) :
    neighborIndex (G.start t x.1) x.2 t = G.index t x := by
  have hlt := hr.index_lt hc
  unfold neighborIndex
  rw [Nat.add_comm x.2, Nat.mod_eq_of_lt (by omega), or_typeBit t hlt]
  rfl

theorem not_used_of_pair {o o' : Nat} {e : Cell} (hc : c.state ≠ .used) (hd : d.state ≠ .used)
    (he : segAt Cell.size [c, d] o o' = some e) : e.state ≠ .used := by
  have := mem_of_segAt he
  simp only [List.mem_cons, List.not_mem_nil, or_false] at this
  rcases this with rfl | rfl
  · exact hc
  · exact hd

/-- The layout after the cell behind the freed one has been looked at. -/
structure Merged (G : Layout) (h : HHive) (t : StorageType) (k : Nat) (pre : List Cell)
    (G' : Layout) (h' : HHive) (c' : Cell) (post' : List Cell) : Prop where
  moves : Moves everywhere G h G' h'
  run : G'.Run t k pre [c'] post'
  loose : c'.state = .loose
  others : G'.Others t k
  behind : CellsOk post'
  head : ∀ e ∈ post'.head?, e.state ≠ .free
  index : ∀ y, G'.index t y = G.index t y
  start : G'.start t k = G.start t k

/-- Writing its size into the header at the start of a run makes the run one
    cell that is not allocated. -/
theorem Rep.writeSize {mid : List Cell} (hr : Rep G h) (hrun : G.Run t k pre mid post)
    (hsize : c.size = total Cell.size mid) (hc : c.state ≠ .used) :
    h.writeUlong ⟨t, k, sizeofHBin + total Cell.size pre⟩ c.size = some (h.setData t k
        (putU32 (h.data t k) (sizeofHBin + total Cell.size pre) c.size)) ∧
      Rewrite G h t k pre mid [c] post
        (putU32 (h.data t k) (sizeofHBin + total Cell.size pre) c.size) := by
  obtain ⟨b, hb, hbsize⟩ := hrun.exists_bin
  have hbs := hr.binSize_run hrun
  have hin := (hr.bin t k b hb).inside
  have hlim := hr.limit t
  have hlim' := storageLimit_le t
  have hmin := c.min_size
  refine ⟨writeUlong_eq (by simp only; omega), hrun, by simp [hsize], by omega, fun y hy => ?_,
    fun o e he => ?_⟩
  · exact putU32_out (by omega)
  · obtain ⟨rfl, rfl⟩ := segAt_singleton.mp he
    rw [Cell.word_of_ne_used hc, getU32_putU32_self]
    omega

section

variable (hr : Rep G h) (hc : c.state = .loose)

include hr hc

/-- Writing the sum of two sizes into the header of the first of two loose
    cells joins them. -/
theorem joinLoose (hl : G.Listed) (hrun : G.Run t k pre [c, d] post) (hd : d.state = .loose) :
    ∃ h', h.writeUlong ⟨t, k, sizeofHBin + total Cell.size pre⟩ (c.size + d.size) = some h' ∧
      Moves everywhere G h (G.edit t k (pre ++ [c.join d] ++ post)) h' := by
  obtain ⟨hwrite, hw⟩ := hr.writeSize (c := c.join d) hrun (by simp) (by simp [hc])
  refine ⟨_, hwrite, hr.editLoose hl hw (by simp [hc, hd]) (by simp [hc]) ?_⟩
  intro o e he hu
  exact absurd hu (not_used_of_pair (by simp [hc]) (by simp [hd]) he)

/-- What `mergeNext` compares to see whether a cell lies behind the freed one. -/
theorem mergeNext_reads (hrun : G.Run t k pre [c] post) :
    h.readUlong ⟨t, k, sizeofHBin + total Cell.size pre⟩ = some c.size ∧
      G.index t (at_ k pre) % 2 ^ 31 = G.start t k + (sizeofHBin + total Cell.size pre) ∧
      G.start t k + h.binSize t k ≤ 2 ^ 31 ∧
      h.binSize t k = sizeofHBin + total Cell.size pre + c.size + total Cell.size post := by
  have hcell := hrun.cell_one
  have hend := (hr.place hcell).2.2
  refine ⟨hr.readSize hcell (by simp [hc]), cellIndex_mod t (hr.index_lt hcell), ?_, ?_⟩
  · exact hend.trans ((hr.limit t).trans (storageLimit_le t))
  · rw [hr.binSize_run hrun]
    simp

/-- First part of `HvFreeCell` when there is nothing to take in. -/
theorem mergeNext_none (hrun : G.Run t k pre [c] post) (hpost : ∀ e ∈ post.head?, e.state = .used) :
    mergeNext h ⟨t, k, sizeofHBin + total Cell.size pre⟩ (G.index t (at_ k pre))
      (G.start t k) (h.binSize t k) = some h := by
  obtain ⟨hread, hmod, hend, hsize⟩ := mergeNext_reads hr hc hrun
  rw [mergeNext, bind_of_eq hread, hmod]
  cases post with
  | nil =>
    rw [if_neg]
    simp only [total_nil] at hsize
    omega
  | cons d post =>
    have hd : d.state = .used := hpost d (by simp)
    have hrun2 : G.Run t k (pre ++ [c]) [d] post := hrun.regroup (by simp)
    have hcell2 := hrun2.cell_one
    have hpos := d.size_pos
    have hread2 := hr.readHeader_long hcell2
    rw [if_pos hd] at hread2
    have hoff := off_concat pre c
    simp only [at_, hoff] at hread2
    simp only [total_cons] at hsize
    rw [if_pos (by omega)]
    simp only [Ptr.add]
    rw [bind_of_eq hread2, if_neg (by omega)]

/-- First part of `HvFreeCell` when the cell behind the freed one is free. -/
theorem mergeNext_join (hl : G.Listed) (hrun : G.Run t k pre [c] (d :: post)) (hd : d.state = .free) :
    ∃ h', mergeNext h ⟨t, k, sizeofHBin + total Cell.size pre⟩ (G.index t (at_ k pre))
        (G.start t k) (h.binSize t k) = some h' ∧
      Moves everywhere G h
        ((G.pop t k (pre ++ [c]) d post).edit t k (pre ++ [c.join (d.withState .loose)] ++ post))
        h' := by
  obtain ⟨hread, hmod, hend, hsize⟩ := mergeNext_reads hr hc hrun
  have hrun2 : G.Run t k (pre ++ [c]) [d] post := hrun.regroup (by simp)
  have hcell2 := hrun2.cell_one
  have hoff := off_concat pre c
  have hlong := hr.readHeader_long hcell2
  rw [if_neg (by simp [hd])] at hlong
  -- take the neighbour off its list
  obtain ⟨h₁, hremove, hmoves1⟩ := hvpRemoveFree_spec hr hl hrun2 hd
  have hidx : neighborIndex (G.start t k) (sizeofHBin + total Cell.size pre + c.size) t
      = G.index t (at_ k (pre ++ [c])) := by
    rw [← hoff]
    exact hr.neighborIndex_eq hcell2
  -- then join the two
  have hrunpop : (G.pop t k (pre ++ [c]) d post).Run t k pre [c, d.withState .loose] post :=
    hrun2.pop.regroup (by simp)
  have hcpop : (G.pop t k (pre ++ [c]) d post).cell t (at_ k pre) = some c := by
    have hrun1 : (G.pop t k (pre ++ [c]) d post).Run t k pre ([c] ++ [d.withState .loose]) post :=
      hrunpop
    exact hrun1.left.cell_one
  have hread1 : h₁.readUlong ⟨t, k, sizeofHBin + total Cell.size pre⟩ = some c.size :=
    hmoves1.rep.readSize hcpop (by simp [hc])
  have hread2 : h₁.readUlong ⟨t, k, sizeofHBin + total Cell.size pre + c.size⟩ = some d.size := by
    rw [← hoff]
    exact hmoves1.rep.readHeader hrun2.pop.cell_one
  obtain ⟨h₂, hjoin, hmoves2⟩ := joinLoose hmoves1.rep hc hmoves1.listed hrunpop rfl
  refine ⟨h₂, ?_, hmoves1.trans hmoves2⟩
  simp only [at_, hoff, total_cons] at hlong hremove hsize
  have hpos := d.size_pos
  rw [mergeNext, bind_of_eq hread, hmod, if_pos (by omega)]
  simp only [Ptr.add]
  rw [bind_of_eq hlong, if_pos (by omega), hidx]
  simp only [at_, hoff]
  rw [bind_of_eq hremove, bind_of_eq hread1, bind_of_eq hread2]
  exact hjoin

theorem mergeNext_spec (hl : G.Listed) (hrun : G.Run t k pre [c] post) (hok : CellsOk post)
    (ho : G.Others t k) : ∃ G' h' c' post', mergeNext h ⟨t, k, sizeofHBin + total Cell.size pre⟩
        (G.index t (at_ k pre)) (G.start t k) (h.binSize t k) = some h' ∧
      Merged G h t k pre G' h' c' post' := by
  by_cases hfree : ∃ d post', post = d :: post' ∧ d.state = .free
  · obtain ⟨d, post', rfl, hd⟩ := hfree
    obtain ⟨h', heq, hmoves⟩ := mergeNext_join hr hc hl hrun hd
    have hrun2 : G.Run t k (pre ++ [c]) [d] post' := hrun.regroup (by simp)
    have hrunpop : (G.pop t k (pre ++ [c]) d post').Run t k pre [c, d.withState .loose] post' :=
      hrun2.pop.regroup (by simp)
    refine ⟨_, h', c.join (d.withState .loose), post', heq, hmoves, hrunpop.edit (by simp), hc,
      ho.pop.edit _, hok.tail, fun e he hfree => ?_, ?_, ?_⟩
    · exact (List.isChain_cons.mp hok.apart).1 e he ⟨hd, hfree⟩
    · intro y
      rw [index_edit, index_pop]
    · rw [start_edit, pop, start, bins_setList]
      exact start_edit _
  · have hhead : ∀ e ∈ post.head?, e.state ≠ .free := by
      intro e he hef
      obtain ⟨post', rfl⟩ := List.head?_eq_some_iff.mp he
      exact hfree ⟨e, post', rfl, hef⟩
    have hused : ∀ e ∈ post.head?, e.state = .used := by
      intro e he
      have h₁ := hhead e he
      have h₂ := hok.noLoose e (List.mem_of_mem_head? he)
      cases hst : e.state with
      | used => rfl
      | free => exact absurd hst h₁
      | loose => exact absurd hst h₂
    exact ⟨G, h, c, post, mergeNext_none hr hc hrun hused, ⟨hr, hl, .refl _ _ _, .refl G⟩, hrun, hc, ho, hok,
      hhead, fun _ => rfl, rfl⟩

end

/-! ## Section 2: The cell before the freed one -/

/-- The last cell of `pre` when it is free. -/
def freeLast (pre : List Cell) : Option Cell := pre.getLast?.filter (fun c => c.state ≠ .used)

theorem freeLast_cons_cons (c d : Cell) (l : List Cell) :
    freeLast (c :: d :: l) = freeLast (d :: l) := by
  simp [freeLast, List.getLast?_cons_cons]

theorem length_le_total (l : List Cell) : l.length ≤ total Cell.size l := by
  induction l with
  | nil => simp
  | cons c l ih =>
    have := c.size_pos
    simp only [List.length_cons, total_cons]
    omega

/-- The walk of `HvFreeCell` from the cell behind `done`: it ends at the freed
    cell, and stops one cell before it when that cell is free. -/
theorem findPrevious_walk (hr : Rep G h) {done rest tail : List Cell} {fuel : Nat}
    (hrun : G.Run t k done rest tail) (hfuel : rest.length < fuel) :
    findPrevious h ⟨t, k, sizeofHBin + total Cell.size done + total Cell.size rest⟩ fuel
        (sizeofHBin + total Cell.size done)
      = some ((freeLast rest).map (fun d =>
          ⟨t, k, sizeofHBin + total Cell.size done + total Cell.size rest - d.size⟩)) := by
  induction rest generalizing done fuel with
  | nil =>
    obtain _ | fuel := fuel
    · simp at hfuel
    simp [findPrevious, freeLast]
  | cons d rest ih =>
    obtain _ | fuel := fuel
    · simp at hfuel
    have hrun1 : G.Run t k done [d] (rest ++ tail) := hrun.regroup (by simp)
    have hrun2 : G.Run t k (done ++ [d]) rest tail := hrun.regroup (by simp)
    have hpos := d.size_pos
    have hread := hr.readHeader_long hrun1.cell_one
    simp only [at_] at hread
    have hnext := ih hrun2 (by simpa using hfuel)
    have hoff := off_concat done d
    have hend : sizeofHBin + total Cell.size done + d.size + total Cell.size rest
        = sizeofHBin + total Cell.size done + total Cell.size (d :: rest) := by
      simp [Nat.add_assoc]
    rw [hoff, hend] at hnext
    rw [findPrevious, if_pos (by simp only [total_cons]; omega)]
    simp only
    rw [bind_of_eq hread]
    by_cases hu : d.state = .used
    · -- an allocated cell is passed
      rw [if_pos hu, if_neg (by omega)]
      simp only [Int.neg_neg, Int.toNat_natCast]
      rw [hnext]
      cases rest with
      | nil => simp [freeLast, hu]
      | cons e rest => rw [freeLast_cons_cons]
    rw [if_neg hu, if_pos (by omega)]
    simp only [Int.toNat_natCast]
    cases rest with
    | nil =>
      simp only [total_cons, total_nil]
      rw [if_pos (by omega)]
      simp [freeLast, hu]
    | cons e rest =>
      have := e.size_pos
      rw [if_neg (by simp only [total_cons]; omega), hnext, freeLast_cons_cons]

/-- Adding the loose cell `c` to the free cell `d` before it. -/
theorem growPrevious_spec (hr : Rep G h) (hl : G.Listed) (hrun : G.Run t k pre [d, c] post)
    (hd : d.state = .free) (hc : c.state = .loose) :
    ∃ G' h', growPrevious h ⟨t, k, sizeofHBin + total Cell.size pre⟩ (G.index t (at_ k pre))
        d.size c.size = some h' ∧
      Moves everywhere G h G' h' ∧ G'.Run t k pre [d.join c] post ∧
      (G.Others t k → G'.Others t k) ∧ ∀ y, G'.index t y = G.index t y := by
  have hrun1 : G.Run t k pre [d] (c :: post) := hrun.regroup (by simp)
  have hplace := hr.place hrun1.cell_one
  have hlim := hr.limit t
  have hlim' := storageLimit_le t
  have hbs := hr.binSize_run hrun
  simp only [at_, total_cons, total_nil] at hplace hbs
  have hsum : (d.size + c.size) % 2 ^ 32 = d.size + c.size := Nat.mod_eq_of_lt (by omega)
  unfold growPrevious
  rw [hsum]
  by_cases hclass : hvpComputeFreeListIndex d.size = hvpComputeFreeListIndex (d.size + c.size)
  · -- the size class stays: only the header is written
    rw [if_neg (by simp [hclass])]
    obtain ⟨hwrite, hw⟩ := hr.writeSize (c := d.join c) hrun (by simp) (by simp [hd])
    refine ⟨G.edit t k (pre ++ [d.join c] ++ post), _, hwrite, ⟨?_, ?_, ?_, grows_edit _⟩,
      hrun.edit (by simp), fun ho => ho.edit _, fun y => index_edit _⟩
    · refine hr.editCells hw hl fun o e he _ => ?_
      have := segAt_bounds he
      exact getU32_putU32_ne (by omega)
    · refine hl.edit hrun (by simp) ?_
      intro o i
      simp only [segAt]
      by_cases ho : o = sizeofHBin + total Cell.size pre
      · simp [ho, hd, hclass]
      simp only [ho, if_false]
      constructor
      · rintro ⟨e, he, _⟩
        cases he
      rintro ⟨e, he, hfree, _⟩
      split at he
      · cases he
        rw [hc] at hfree
        cases hfree
      · cases he
    · refine hw.keeps hr ?_
      intro o e he hu
      exact absurd hu (not_used_of_pair (by simp [hd]) (by simp [hc]) he)
  · -- another size class: off the old list, joined, on the new list
    rw [if_pos hclass]
    obtain ⟨h₁, hremove, hmoves1⟩ := hvpRemoveFree_spec hr hl hrun1 hd
    have hrun2 : (G.pop t k pre d (c :: post)).Run t k pre [d.withState .loose, c] post :=
      hrun1.pop.regroup (by simp)
    obtain ⟨h₂, hjoin, hmoves2⟩ := joinLoose hmoves1.rep rfl hmoves1.listed hrun2 hc
    have hrun3 : Layout.Run ((G.pop t k pre d (c :: post)).edit t k
        (pre ++ [(d.withState .loose).join c] ++ post)) t k pre [(d.withState .loose).join c] post :=
      hrun2.edit (by simp)
    obtain ⟨h₃, hadd, hmoves3⟩ := hvpAddFree_spec hmoves2.rep hmoves2.listed hrun3 rfl
    rw [index_edit, index_pop] at hadd
    refine ⟨_, h₃, ?_, (hmoves1.trans hmoves2).trans hmoves3, ?_, ?_, ?_⟩
    · rw [Cell.withState_size] at hjoin
      rw [bind_of_eq hremove, bind_of_eq hjoin]
      exact hadd
    · have hjoined : ((d.withState .loose).join c).withState .free = d.join c := by
        unfold Cell.withState Cell.join
        simp [hd]
      rw [← hjoined]
      exact hrun3.push
    · intro ho
      exact (ho.pop.edit _).push
    · intro y
      rw [index_push, index_edit, index_pop]

/-! ## Section 3: Release -/

/-- Every cell but the one at `x` of storage `t`. -/
def allBut (t : StorageType) (x : Loc) : StorageType → Loc → Prop := fun t' y => ¬ (t' = t ∧ y = x)

theorem Moves.allBut {G' : Layout} (hm : Moves everywhere G h G' h') :
    Moves (allBut t x) G h G' h' :=
  ⟨hm.rep, hm.listed, hm.keeps.mono (fun _ _ _ => trivial), hm.grows⟩

/-- The cell at `x` of storage `t` has been released. -/
structure Freed (G : Layout) (h : HHive) (t : StorageType) (x : Loc) (G' : Layout) (h' : HHive) :
    Prop where
  moves : Moves (allBut t x) G h G' h'
  settled : G'.Settled

theorem loosen_spec (hr : Rep G h) (hl : G.Listed) (hrun : G.Run t k pre [c] post)
    (hc : c.state = .used) :
    ∃ h', h.writeLong ⟨t, k, sizeofHBin + total Cell.size pre⟩ (-(-(c.size : Int))) = some h' ∧
      Moves (allBut t (at_ k pre)) G h (G.edit t k (pre ++ [c.withState .loose] ++ post)) h' := by
  have hlt := hr.size_lt hrun.cell_one
  have hof : ofLong (-(-(c.size : Int))) = c.size := by
    unfold ofLong
    omega
  obtain ⟨hwrite, hw⟩ := hr.writeSize (c := c.withState .loose) hrun (by simp) (by simp)
  refine ⟨_, ?_, hr.editLoose hl hw (by simp [hc]) (by simp) fun o e he _ hP => ?_⟩
  · rw [HHive.writeLong, hof]
    exact hwrite
  · exact hP ⟨rfl, Prod.ext rfl (segAt_singleton.mp he).1⟩

section

variable (hr : Rep G h) (hl : G.Listed) (hc : c.state = .loose) (ho : G.Others t k)
  (hg : Gap pre post)

include hr hl hc ho hg

/-- The last part of `HvFreeCell` when the cell before the freed one is free. -/
theorem mergePrevious_spec (hrun : G.Run t k pre [d, c] post) (hd : d.state = .free) :
    ∃ G' h', mergePrevious h ⟨t, k, sizeofHBin + total Cell.size pre + d.size⟩
        ⟨t, k, sizeofHBin + total Cell.size pre⟩ (G.start t k) = some h' ∧
      Moves everywhere G h G' h' ∧ G'.Settled := by
  have hrun1 : G.Run t k pre [d] (c :: post) := hrun.regroup (by simp)
  have hrun2 : G.Run t k (pre ++ [d]) [c] post := hrun.regroup (by simp)
  have hcell := hrun1.cell_one
  have hoff := off_concat pre d
  have hreadd : h.readUlong ⟨t, k, sizeofHBin + total Cell.size pre⟩ = some d.size :=
    hr.readSize hcell (by simp [hd])
  have hreadc : h.readUlong ⟨t, k, sizeofHBin + total Cell.size pre + d.size⟩ = some c.size := by
    rw [← hoff]
    exact hr.readSize hrun2.cell_one (by simp [hc])
  have hidx : neighborIndex (G.start t k) (sizeofHBin + total Cell.size pre) t
      = G.index t (at_ k pre) := hr.neighborIndex_eq hcell
  obtain ⟨G1, h₁, hgrow, hmoves1, hrun3, ho1, hidx1⟩ := growPrevious_spec hr hl hrun hd hc
  obtain ⟨h₂, hmark, hsame⟩ := markIfStable_spec hmoves1.rep hrun3.cell_one
  refine ⟨G1, h₂, ?_, hmoves1.trans (hsame.moves hmoves1.rep hmoves1.listed), ?_⟩
  · rw [hidx1, ← hidx] at hmark
    rw [← hidx] at hgrow
    rw [mergePrevious, bind_of_eq hreadc, bind_of_eq hreadd, bind_of_eq hgrow]
    exact hmark
  · exact (ho1 ho).settled hmoves1.listed hrun3 hg (.singleton (by simp [hd]))

/-- The last part of `HvFreeCell` when the freed cell gets a list entry of its
    own. -/
theorem addFreed_spec (hrun : G.Run t k pre [c] post) :
    ∃ G' h' h'', hvpAddFree h ⟨t, k, sizeofHBin + total Cell.size pre⟩
        (G.index t (at_ k pre)) = some h' ∧
      markIfStable h' t (G.index t (at_ k pre)) = some h'' ∧
      Moves everywhere G h G' h'' ∧ G'.Settled := by
  obtain ⟨h₁, hadd, hmoves1⟩ := hvpAddFree_spec hr hl hrun hc
  obtain ⟨h₂, hmark, hsame⟩ := markIfStable_spec hmoves1.rep hrun.push.cell_one
  rw [index_push] at hmark
  exact ⟨_, h₁, h₂, hadd, hmark, hmoves1.trans (hsame.moves hmoves1.rep hmoves1.listed),
    ho.push.settled hmoves1.listed hrun.push hg (.singleton (by simp))⟩

end

section FreeCell

variable {cell fileOffset binSize : Nat} {size : Int} {p : Ptr} {previous : Option Ptr}
  {h₁ h₂ : HHive}

theorem hvFreeCell_eq (hheader : hvpGetCellHeader h cell = some p)
    (hsize : h.readLong p = some size) (hneg : ¬ 0 ≤ size)
    (hloose : h.writeLong p (-size) = some h₁)
    (hbin : ((h₁.storage (hvGetCellType cell)).blockList (hvGetCellBlock cell)).binAddress
      = some p.bin)
    (hfo : h₁.readUlong { p with off := 4 } = some fileOffset)
    (hbs : h₁.readUlong { p with off := 8 } = some binSize)
    (hnext : mergeNext h₁ p cell fileOffset binSize = some h₂)
    (hprev : findPrevious h₂ p (p.off + 1) sizeofHBin = some previous) :
    hvFreeCell h cell = previous.elim
      ((hvpAddFree h₂ p cell).bind fun h₃ => markIfStable h₃ (hvGetCellType cell) cell)
      (fun neighbor => mergePrevious h₂ p neighbor fileOffset) := by
  rw [hvFreeCell, bind_of_eq hheader, bind_of_eq hsize, if_neg hneg, bind_of_eq hloose,
    bind_of_eq hbin, if_neg (not_not_intro rfl), bind_of_eq hfo, bind_of_eq hbs,
    bind_of_eq hnext, bind_of_eq hprev]
  cases previous <;> rfl

end FreeCell

/-- Bin header words and block list entry, as `HvFreeCell` reads them. -/
theorem Rep.binHeader (hr : Rep G h) (hc : G.cell t x = some c) :
    ((h.storage t).blockList (hvGetCellBlock (G.index t x))).binAddress = some x.1 ∧
    h.readUlong ⟨t, x.1, 4⟩ = some (G.start t x.1) ∧
    h.readUlong ⟨t, x.1, 8⟩ = some (h.binSize t x.1) := by
  obtain ⟨b, hb⟩ := exists_bin hc
  have hbr := hr.bin t x.1 b hb
  have hplace := hr.place hc
  have hal := b.start_aligned
  have hpos := c.size_pos
  have hst := start_eq hb
  have hlt := hr.index_lt hc
  simp only [sizeofHBin] at hplace
  refine ⟨?_, ?_, ?_⟩
  · have hentry := hbr.blocks (x.2 / 4096) (by rw [← hbr.size]; omega)
    have hblk : hvGetCellBlock (G.index t x) = b.start / 4096 + x.2 / 4096 := by
      rw [index, hvGetCellBlock_cellIndex hlt, hst]
      omega
    rw [hblk, hentry]
  · rw [readUlong_eq (by simp only; omega), hbr.fileOffset, hst]
  · rw [readUlong_eq (by simp only; omega), hbr.sizeWord, hbr.size]

theorem hvFreeCell_spec (hr : Rep G h) (hs : G.Settled) (hc : G.cell t x = some c)
    (hu : c.state = .used) :
    ∃ G' h', hvFreeCell h (G.index t x) = some h' ∧ Freed G h t x G' h' := by
  obtain ⟨pre, post, hrun, hoff⟩ := exists_run hc
  obtain ⟨k, hk⟩ : ∃ k, x.1 = k := ⟨_, rfl⟩
  have hx : x = at_ k pre := Prod.ext hk hoff
  rw [hk] at hrun
  subst hx
  have hsz := hr.readHeader_long hc
  rw [if_pos hu] at hsz
  have hpos := c.size_pos
  -- the cells around the freed one
  have hok : CellsOk (pre ++ [c] ++ post) := by
    obtain ⟨b, hb, hcells⟩ := hrun
    rw [← hcells]
    exact hs.cells t k b hb
  obtain ⟨hleft, hpost, _⟩ := List.isChain_append.mp hok.apart
  obtain ⟨hpre, _, _⟩ := List.isChain_append.mp hleft
  have hokpost : CellsOk post := ⟨fun d hd => hok.noLoose d (by simp [hd]), hpost⟩
  have hokpre : CellsOk pre := ⟨fun d hd => hok.noLoose d (by simp [hd]), hpre⟩
  -- the cell becomes loose
  obtain ⟨h₁, hloose, hmoves1⟩ := loosen_spec hr hs.toListed hrun hu
  have hrun1 : Layout.Run _ t k pre [c.withState .loose] post := hrun.edit (by simp)
  have hbh := hmoves1.rep.binHeader hrun1.cell_one
  have hty := hr.type_index hc
  -- it takes in the cell behind it
  obtain ⟨G2, h₂, c2, post2, hnext, hm⟩ := mergeNext_spec hmoves1.rep rfl hmoves1.listed hrun1
    hokpost ((hs.others t k).edit _)
  rw [index_edit] at hnext hbh
  rw [start_edit] at hnext
  simp only [start_edit, at_] at hbh
  have hbin : ((h₁.storage (hvGetCellType (G.index t (at_ k pre)))).blockList
      (hvGetCellBlock (G.index t (at_ k pre)))).binAddress = some k := by
    rw [hty]
    exact hbh.1
  have hmoves2 := hmoves1.trans hm.moves.allBut
  -- the walk over the cells before it
  have hrunpre : G2.Run t k [] pre ([c2] ++ post2) := hm.run.regroup (by simp)
  have hprev := findPrevious_walk hm.moves.rep hrunpre
    (show pre.length < sizeofHBin + total Cell.size pre + 1 by have := length_le_total pre; omega)
  simp only [total_nil, Nat.add_zero] at hprev
  cases hlast : freeLast pre with
  | none =>
    rw [hlast] at hprev
    have hgap : Gap pre post2 := by
      refine ⟨hokpre, hm.behind, ?_, hm.head⟩
      intro d hd hfree
      unfold freeLast at hlast
      rw [hd] at hlast
      simp [hfree] at hlast
    obtain ⟨G3, h₃, h4, hadd, hmark, hmoves3, hsettled⟩ :=
      addFreed_spec hm.moves.rep hm.moves.listed hm.loose hm.others hgap hm.run
    rw [hm.index, index_edit] at hadd hmark
    refine ⟨G3, h4, ?_, hmoves2.trans hmoves3.allBut, hsettled⟩
    rw [hvFreeCell_eq (hr.getCellHeader hc) hsz (by omega) hloose hbin hbh.2.1 hbh.2.2 hnext hprev]
    rw [hty]
    exact (congrArg (bind · (markIfStable · t _)) hadd).trans hmark
  | some d =>
    rw [hlast] at hprev
    unfold freeLast at hlast
    rw [filter_eq_some_iff] at hlast
    obtain ⟨hd, hdu⟩ := hlast
    obtain ⟨pre', rfl⟩ := List.getLast?_eq_some_iff.mp hd
    have hdfree : d.state = .free := by
      have := hokpre.noLoose d (by simp)
      cases hst : d.state with
      | used => simp [hst] at hdu
      | free => rfl
      | loose => exact absurd hst this
    have hgap : Gap pre' post2 := by
      have hgap' : Gap pre' [] := CellsOk.gap (by simpa using hokpre) hdfree
      exact ⟨hgap'.before, hm.behind, hgap'.last, hm.head⟩
    have hrun2 : G2.Run t k pre' [d, c2] post2 := hm.run.regroup (by simp)
    obtain ⟨G3, h₃, hmp, hmoves3, hsettled⟩ := mergePrevious_spec hm.moves.rep hm.moves.listed hm.loose
      hm.others hgap hrun2 hdfree
    rw [hm.start, start_edit] at hmp
    have hoffd := off_concat pre' d
    refine ⟨G3, h₃, ?_, hmoves2.trans hmoves3.allBut, hsettled⟩
    simp only [map_some, hoffd, Nat.add_sub_cancel] at hprev hloose hnext
    have hheader : hvpGetCellHeader h (G.index t (at_ k (pre' ++ [d])))
        = some ⟨t, k, sizeofHBin + total Cell.size pre' + d.size⟩ := by
      rw [← hoffd]
      exact hr.getCellHeader hc
    simp only [at_, hoffd] at hsz
    rw [hvFreeCell_eq hheader hsz (by omega) hloose hbin hbh.2.1 hbh.2.2 hnext hprev]
    exact hmp

/-! ## Section 4: Writing into a cell -/

theorem writeCell_spec (hr : Rep G h) (hl : G.Listed) (hc : G.cell t x = some c)
    (hu : c.state = .used) {o n : Nat} {src : Buf} (hn : 0 < n) (hle : 4 + o + n ≤ c.size) :
    ∃ h', h.writeBytes ⟨t, x.1, x.2 + 4 + o⟩ n src = some h' ∧
      Moves (allBut t x) G h G h' ∧
      h'.data t x.1 = overlay (h.data t x.1) (x.2 + 4 + o) n src := by
  obtain ⟨pre, post, hrun, hoff⟩ := exists_run hc
  have hplace := hr.place hc
  let data := overlay (h.data t x.1) (x.2 + 4 + o) n src
  have hw : h.writeBytes ⟨t, x.1, x.2 + 4 + o⟩ n src = some (h.setData t x.1 data) :=
    writeBytes_eq hn (by simp only; omega)
  refine ⟨h.setData t x.1 data, hw, ?_, data_setData_self data (by omega)⟩
  have hmoves : Moves (allBut t x) G h (G.edit t x.1 (pre ++ [c] ++ post)) (h.setData t x.1 data) := by
    refine hr.editLoose hl ⟨hrun, rfl, by simp [c.size_pos], ?_, ?_⟩ (by simp [hu]) (by simp [hu]) ?_
    · intro y hy
      simp only [total_cons, total_nil] at hy
      exact overlay_out (by omega)
    · intro a e he
      obtain ⟨ha, rfl⟩ := segAt_singleton.mp he
      rw [← hr.header t x e hc, ha, ← hoff]
      exact getU32_overlay_out (by omega)
    · intro a e he _ hP
      exact hP ⟨rfl, Prod.ext rfl ((segAt_singleton.mp he).1.trans hoff.symm)⟩
  rw [edit_self hrun] at hmoves
  exact hmoves

/-! ## Section 5: Reallocation -/

/-- The cell at `x` has been moved to `x'`, with its contents. -/
structure Reallocated (G : Layout) (h : HHive) (t : StorageType) (x : Loc) (c : Cell) (n : Nat)
    (G' : Layout) (h' : HHive) (x' : Loc) (c' : Cell) : Prop where
  moves : Moves (allBut t x) G h G' h'
  settled : G'.Settled
  cell : G'.cell t x' = some c'
  used : c'.state = .used
  fits : fullCellSize n ≤ c'.size
  copied : ∀ j, 4 ≤ j → j < c.size → h'.data t x'.1 (x'.2 + j) = h.data t x.1 (x.2 + j)

/-- Copying and releasing the old cell, once there is a new one. -/
theorem Allocated.reallocate {n : Nat} {G1 : Layout} {h₁ : HHive} {x' : Loc} {c' : Cell}
    (ha : Allocated G h t (fullCellSize n) G1 h₁ x' c') (hc : G.cell t x = some c)
    (hu : c.state = .used) (hle : c.size ≤ fullCellSize n) :
    ∃ G' h₂ h₃, h₁.readBytes ⟨t, x.1, x.2 + 4⟩ (c.size - 4)
        = some (slice (h₁.data t x.1) (x.2 + 4)) ∧
      h₁.writeBytes ⟨t, x'.1, x'.2 + 4⟩ (c.size - 4) (slice (h₁.data t x.1) (x.2 + 4)) = some h₂ ∧
      hvFreeCell h₂ (G.index t x) = some h₃ ∧ G'.index t x' = G1.index t x' ∧
      Reallocated G h t x c n G' h₃ x' c' := by
  have hmin := c.min_size
  have hfits := ha.fits
  obtain ⟨hc1, hbytes1⟩ := ha.moves.keeps t x c trivial hc hu
  have hplace := ha.moves.rep.place hc1
  have hne : x' ≠ x := by
    intro he
    subst he
    exact ha.fresh c hc hu
  have hread : h₁.readBytes ⟨t, x.1, x.2 + 4⟩ (c.size - 4)
      = some (slice (h₁.data t x.1) (x.2 + 4)) :=
    readBytes_eq (by omega) (by simp only; omega)
  obtain ⟨h₂, hwrite, hmoves2, hdata2⟩ := @writeCell_spec _ _ _ _ _ ha.moves.rep ha.moves.listed
    ha.cell ha.used 0 (c.size - 4) (slice (h₁.data t x.1) (x.2 + 4)) (by omega) (by omega)
  have hx2 := hmoves2.keeps t x c (fun he => hne he.2.symm) hc1 hu
  obtain ⟨G', h₃, hfree, hfreed⟩ := hvFreeCell_spec hmoves2.rep ha.settled hx2.1 hu
  rw [ha.moves.index hc] at hfree
  obtain ⟨hc', hbytes'⟩ := hfreed.moves.keeps t x' c' (fun he => hne he.2) ha.cell ha.used
  refine ⟨G', h₂, h₃, hread, hwrite, hfree, hfreed.moves.index ha.cell,
    ⟨hfreed.moves.rep, hfreed.moves.listed, ?_, ha.moves.grows.trans hfreed.moves.grows⟩,
    hfreed.settled, hc', ha.used, ha.fits, ?_⟩
  · -- the other cells: `x'` was not allocated before
    intro t' y d hP hd hdu
    obtain ⟨hd1, hb1⟩ := ha.moves.keeps t' y d trivial hd hdu
    have hP' : allBut t x' t' y := by
      rintro ⟨rfl, rfl⟩
      exact ha.fresh d hd hdu
    obtain ⟨hd2, hb2⟩ := hmoves2.keeps t' y d hP' hd1 hdu
    obtain ⟨hd3, hb3⟩ := hfreed.moves.keeps t' y d hP hd2 hdu
    exact ⟨hd3, fun j hj => (hb3 j hj).trans ((hb2 j hj).trans (hb1 j hj))⟩
  · intro j hj1 hj2
    rw [hbytes' j (by omega), hdata2, overlay_in (by omega) (by omega), slice_apply, ← hbytes1 j hj2]
    congr 1
    omega

theorem hvReallocateCell_spec {mem : Memory} {n : Nat} (hr : Rep G h) (hs : G.Settled)
    (hc : G.cell t x = some c) (hu : c.state = .used)
    (hsafe : c.size < n + 4 → c.size ≤ fullCellSize n ∧
      (G.Fits t (fullCellSize n) ∨ CanGrow h mem (fullCellSize n) t)) :
    (hvReallocateCell h mem (G.index t x) n = some (h, G.index t x) ∧ n + 4 ≤ c.size) ∨
    hvReallocateCell h mem (G.index t x) n = some (h, hcellNil) ∨
    ∃ G' h' x' c', hvReallocateCell h mem (G.index t x) n = some (h', G'.index t x') ∧
      Reallocated G h t x c n G' h' x' c' := by
  have hmin := c.min_size
  have hheader := hr.getCellHeader hc
  have hsize : hvGetCellSize h ⟨t, x.1, x.2⟩ = some ((c.size : Int) - 4) := by
    rw [hvGetCellSize, hr.readHeader_long hc, if_pos hu]
    simp [sizeofHCell]
  have hnat : ((c.size : Int) - 4).toNat = c.size - 4 := by omega
  have hty := hr.type_index hc
  by_cases hn : n + 4 ≤ c.size
  · refine .inl ⟨?_, hn⟩
    rw [hvReallocateCell, bind_of_eq hheader, bind_of_eq hsize, if_neg (by omega), if_neg (by omega)]
  obtain ⟨hle, hgrow⟩ := hsafe (by omega)
  rcases hvAllocateCell_spec hr hs (by omega) hgrow with hnil | ⟨G1, h₁, x', c', halloc, ha⟩
  · refine .inr (.inl ?_)
    rw [hvReallocateCell, bind_of_eq hheader, bind_of_eq hsize, if_neg (by omega), if_pos (by omega),
      hty, bind_of_eq hnil]
    exact if_pos rfl
  obtain ⟨G', h₂, h₃, hread, hwrite, hfree, hidx, hre⟩ := ha.reallocate hc hu hle
  refine .inr (.inr ⟨G', h₃, x', c', ?_, hre⟩)
  rw [hidx]
  rw [← hnat] at hread hwrite
  rw [hvReallocateCell, bind_of_eq hheader, bind_of_eq hsize, if_neg (by omega), if_pos (by omega),
    hty, bind_of_eq halloc]
  simp only
  rw [if_neg (index_ne_nil ha.cell), bind_of_eq (ha.moves.rep.getCellData ha.cell)]
  refine (bind_of_eq hread).trans ?_
  rw [bind_of_eq hwrite, bind_of_eq hfree]

end Hive
