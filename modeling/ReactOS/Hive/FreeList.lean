import Mathlib.Data.List.Nodup
import Mathlib.Data.List.Perm.Subperm
import ReactOS.Hive.Heap

/-! # Free lists

    `HvpAddFree`, `HvpRemoveFree` and `HvpFindFree` on a heap that represents
    a layout: each of them moves one cell on or off its list and keeps the
    contents of every allocated cell.

    `HvpRemoveFree` and `HvpFindFree` walk a list through a pointer to the
    word that holds the current index.  `refBehind` is that pointer after the
    walk has passed the cells `l`; both loops end in the same store, and
    `unlink_spec` is about that store. -/

namespace Hive

open Bytes Tiling Threaded Layout List Option HHive

/-! ## Section 1: Size classes -/

theorem findFirstSet_le : ∀ i, i < 128 → findFirstSet.getD i 0 ≤ 6 := by decide

theorem findFirstSet_step : ∀ i, i < 127 → findFirstSet.getD i 0 ≤ findFirstSet.getD (i + 1) 0 := by
  decide

theorem hvpComputeFreeListIndex_lt (size : Nat) : hvpComputeFreeListIndex size < 24 := by
  unfold hvpComputeFreeListIndex
  simp only
  split
  · split
    · omega
    · have := findFirstSet_le ((size / 8 + 2 ^ 32 - 1) % 2 ^ 32) (by omega)
      omega
  · omega

theorem findFirstSet_mono {i j : Nat} (hij : i ≤ j) (hj : j < 128) :
    findFirstSet.getD i 0 ≤ findFirstSet.getD j 0 := by
  induction j with
  | zero => rw [Nat.le_zero.mp hij]
  | succ j ih =>
    rcases Nat.lt_or_eq_of_le hij with hlt | rfl
    · exact Nat.le_trans (ih (by omega) (by omega)) (findFirstSet_step j (by omega))
    · exact Nat.le_refl _

theorem hvpComputeFreeListIndex_mono {a b : Nat} (ha : 8 ≤ a) (hab : a ≤ b) (hb : b < 2 ^ 32) :
    hvpComputeFreeListIndex a ≤ hvpComputeFreeListIndex b := by
  have ha' : (a / 8 + 2 ^ 32 - 1) % 2 ^ 32 = a / 8 - 1 := by omega
  have hb' : (b / 8 + 2 ^ 32 - 1) % 2 ^ 32 = b / 8 - 1 := by omega
  have hle : a / 8 - 1 ≤ b / 8 - 1 := by omega
  unfold hvpComputeFreeListIndex
  rw [ha', hb']
  generalize a / 8 - 1 = i at hle
  generalize b / 8 - 1 = j at hle
  simp only
  by_cases hj : 127 < j
  · rw [if_pos (show 16 ≤ j by omega), if_pos hj]
    split
    · split
      · omega
      · have := findFirstSet_le i (by omega)
        omega
    · omega
  by_cases hi : 16 ≤ i
  · have := findFirstSet_mono hle (by omega)
    rw [if_pos hi, if_neg (by omega), if_pos (by omega), if_neg hj]
    omega
  · rw [if_neg hi]
    split <;> omega

/-! ## Section 2: Changes of one cell -/

namespace Layout

variable {G : Layout} {t t' : StorageType} {k : Nat} {x : Loc} {c c' : Cell}
  {pre mid mid' post : List Cell}

/-- Place of the run behind `pre` in bin `k`. -/
def at_ (k : Nat) (pre : List Cell) : Loc := (k, sizeofHBin + total Cell.size pre)

theorem Run.cell_one (hrun : G.Run t k pre [c] post) : G.cell t (at_ k pre) = some c :=
  hrun.cell (by simp [segAt])

theorem Run.edit (hrun : G.Run t k pre mid post)
    (htot : total Cell.size mid' = total Cell.size mid) :
    (G.edit t k (pre ++ mid' ++ post)).Run t k pre mid' post := by
  obtain ⟨b, hb, hcells⟩ := hrun
  refine ⟨b.withCells (pre ++ mid' ++ post), ?_, ?_⟩
  · rw [bins_edit, if_pos ⟨rfl, rfl⟩, hb]
    rfl
  · apply withCells_cells
    rw [hcells]
    simp [htot]

theorem cell_edit_one (hrun : G.Run t k pre [c] post) (hsize : c'.size = c.size) :
    (G.edit t k (pre ++ [c'] ++ post)).cell t' x =
      if t' = t ∧ x = at_ k pre then some c' else G.cell t' x := by
  have htot : total Cell.size [c'] = total Cell.size [c] := by simp [hsize]
  rw [cell_edit hrun htot]
  by_cases hx : t' = t ∧ x = at_ k pre
  · obtain ⟨rfl, rfl⟩ := hx
    have hpos := c.size_pos
    rw [if_pos ⟨rfl, rfl, Nat.le_refl _, by simp [at_]; omega⟩, if_pos ⟨rfl, rfl⟩]
    simp [at_, segAt]
  rw [if_neg hx]
  split
  · rename_i hin
    obtain ⟨rfl, hk, h1, h2⟩ := hin
    have hne : x.2 ≠ sizeofHBin + total Cell.size pre := by
      intro he
      exact hx ⟨rfl, Prod.ext hk he⟩
    have hg := hrun.cell_eq h1 h2
    rw [← hk] at hg
    rw [show x = (x.1, x.2) from rfl, hg]
    simp [segAt, hne]
  · rfl

theorem modify_same {α : Type} {l : List α} {f : α → α} (h : ∀ a, l[k]? = some a → f a = a) :
    l.modify k f = l := by
  apply ext_getElem?
  intro j
  rw [getElem?_modify]
  by_cases hj : k = j
  · subst hj
    cases hl : l[k]? with
    | none => rfl
    | some a => simp [h a hl]
  · simp [hj]

theorem edit_self (hrun : G.Run t k pre mid post) : G.edit t k (pre ++ mid ++ post) = G := by
  obtain ⟨b, hb, hcells⟩ := hrun
  funext t'
  unfold edit
  split
  · rename_i ht
    subst ht
    rw [modify_same]
    intro b' hb'
    rw [hb] at hb'
    cases hb'
    simp [BinLayout.withCells, ← hcells]
  · rfl

theorem edit_setList (i : Nat) (l : List Loc) (cells : List Cell) :
    (G.setList t i l).edit t k cells = (G.edit t k cells).setList t i l := by
  funext t'
  unfold edit setList
  by_cases ht : t' = t <;> simp [ht]

theorem Run.setList (hrun : G.Run t k pre mid post) (i : Nat) (l : List Loc) :
    (G.setList t' i l).Run t k pre mid post := by
  obtain ⟨b, hb, hcells⟩ := hrun
  exact ⟨b, by rw [bins_setList]; exact hb, hcells⟩

/-- A run that holds the same free cells before and after an edit keeps the
    lists right. -/
theorem Listed.edit (hl : G.Listed) (hrun : G.Run t k pre mid post)
    (htot : total Cell.size mid' = total Cell.size mid)
    (hfree : ∀ o i,
      (∃ c, segAt Cell.size mid' (sizeofHBin + total Cell.size pre) o = some c ∧
        c.state = .free ∧ hvpComputeFreeListIndex c.size = i) ↔
      (∃ c, segAt Cell.size mid (sizeofHBin + total Cell.size pre) o = some c ∧
        c.state = .free ∧ hvpComputeFreeListIndex c.size = i)) :
    (G.edit t k (pre ++ mid' ++ post)).Listed := by
  constructor
  · intro t' i x hi
    rw [lists_edit, hl.mem t' i x hi, cell_edit hrun htot]
    split
    · rename_i hin
      obtain ⟨rfl, rfl, h1, h2⟩ := hin
      rw [hfree, show x = (x.1, x.2) from rfl, hrun.cell_eq h1 h2]
    · rfl
  · intro t' i hi
    rw [lists_edit]
    exact hl.nodup t' i hi

/-- Put the loose cell `c` on its list. -/
def push (G : Layout) (t : StorageType) (k : Nat) (pre : List Cell) (c : Cell)
    (post : List Cell) : Layout :=
  (G.edit t k (pre ++ [c.withState .free] ++ post)).setList t (hvpComputeFreeListIndex c.size)
    (at_ k pre :: (G t).lists (hvpComputeFreeListIndex c.size))

/-- Take the free cell `c` off its list. -/
def pop (G : Layout) (t : StorageType) (k : Nat) (pre : List Cell) (c : Cell)
    (post : List Cell) : Layout :=
  (G.edit t k (pre ++ [c.withState .loose] ++ post)).setList t (hvpComputeFreeListIndex c.size)
    (((G t).lists (hvpComputeFreeListIndex c.size)).erase (at_ k pre))

section

variable (hrun : G.Run t k pre [c] post)

include hrun

theorem Run.push : (G.push t k pre c post).Run t k pre [c.withState .free] post :=
  (hrun.edit (by simp)).setList _ _

theorem Run.pop : (G.pop t k pre c post).Run t k pre [c.withState .loose] post :=
  (hrun.edit (by simp)).setList _ _

end

@[simp] theorem index_push : (G.push t k pre c post).index t' x = G.index t' x := by
  rw [push, index_setList, index_edit]

@[simp] theorem index_pop : (G.pop t k pre c post).index t' x = G.index t' x := by
  rw [pop, index_setList, index_edit]

namespace Listed

variable (hl : G.Listed) (hrun : G.Run t k pre [c] post)

include hl hrun

theorem push (hc : c.state = .loose) : (G.push t k pre c post).Listed := by
  unfold Layout.push
  generalize hidx : hvpComputeFreeListIndex c.size = i
  have hcell := hrun.cell_one
  have hnot : ∀ i, i < 24 → at_ k pre ∉ (G t).lists i := by
    intro i hi hmem
    obtain ⟨d, hd, hfree, _⟩ := (hl.mem t i _ hi).mp hmem
    rw [hcell] at hd
    cases hd
    rw [hc] at hfree
    cases hfree
  constructor
  · intro t' j x hj
    rw [lists_setList, cell_setList, cell_edit_one hrun (Cell.withState_size c _), lists_edit]
    by_cases hx : t' = t ∧ x = at_ k pre
    · obtain ⟨rfl, rfl⟩ := hx
      by_cases hji : j = i
      · simp [hji, hidx]
      · have hji' : ¬ hvpComputeFreeListIndex c.size = j := fun e => hji (e.symm.trans hidx)
        simp [hji, hji', hnot j hj]
    rw [if_neg hx, ← hl.mem t' j x hj]
    split
    · grind
    · rfl
  · intro t' j hj
    rw [lists_setList, lists_edit]
    split
    · rename_i he
      obtain ⟨rfl, rfl⟩ := he
      exact nodup_cons.mpr ⟨hnot _ hj, hl.nodup t' _ hj⟩
    · exact hl.nodup t' j hj

theorem mem_of_free (hc : c.state = .free) :
    at_ k pre ∈ (G t).lists (hvpComputeFreeListIndex c.size) :=
  (hl.mem t _ _ (hvpComputeFreeListIndex_lt c.size)).mpr ⟨c, hrun.cell_one, hc, rfl⟩

theorem pop (hc : c.state = .free) : (G.pop t k pre c post).Listed := by
  have hi := hvpComputeFreeListIndex_lt c.size
  have hmem := hl.mem_of_free hrun hc
  unfold Layout.pop
  generalize hidx : hvpComputeFreeListIndex c.size = i at hi hmem
  have hcell := hrun.cell_one
  have hnd := hl.nodup t i hi
  have hnot : at_ k pre ∉ ((G t).lists i).erase (at_ k pre) := hnd.not_mem_erase
  constructor
  · intro t' j x hj
    rw [lists_setList, cell_setList, cell_edit_one hrun (Cell.withState_size c _), lists_edit]
    by_cases hx : t' = t ∧ x = at_ k pre
    · obtain ⟨rfl, rfl⟩ := hx
      have hlhs : at_ k pre ∉ if t' = t' ∧ j = i then ((G t').lists i).erase (at_ k pre)
          else (G t').lists j := by
        split
        · exact hnot
        rename_i hne
        intro hm
        obtain ⟨d, hd, _, hidx'⟩ := (hl.mem t' j _ hj).mp hm
        rw [hcell] at hd
        cases hd
        exact hne ⟨rfl, hidx'.symm.trans hidx⟩
      simpa using hlhs
    · rw [if_neg hx, ← hl.mem t' j x hj]
      split
      · grind
      · rfl
  · intro t' j hj
    rw [lists_setList, lists_edit]
    split
    · exact hnd.erase _
    · exact hl.nodup t' j hj

end Listed

end Layout

/-! ## Section 3: What a call keeps -/

section Keep

variable {P : StorageType → Loc → Prop} {G G' G'' : Layout} {h h' h'' : HHive}
  {t : StorageType} {k : Nat} {c c' : Cell} {pre mid mid' post : List Cell} {data : Buf}

/-- The allocated cells in `P` are where they were, with the same contents. -/
def Keeps (P : StorageType → Loc → Prop) (G : Layout) (h : HHive) (G' : Layout) (h' : HHive) :
    Prop :=
  ∀ t x c, P t x → G.cell t x = some c → c.state = .used →
    G'.cell t x = some c ∧ ∀ j, j < c.size → h'.data t x.1 (x.2 + j) = h.data t x.1 (x.2 + j)

/-- Every cell. -/
def everywhere : StorageType → Loc → Prop := fun _ _ => True

/-- The bins of `G` are bins of `G'`, at the same file offsets. -/
def Layout.Grows (G G' : Layout) : Prop :=
  ∀ t k, k < (G t).bins.length → k < (G' t).bins.length ∧ G'.start t k = G.start t k

/-- The state `h'` represents `G'`, and the allocated cells in `P` were kept. -/
structure Moves (P : StorageType → Loc → Prop) (G : Layout) (h : HHive) (G' : Layout)
    (h' : HHive) : Prop where
  rep : Rep G' h'
  listed : G'.Listed
  keeps : Keeps P G h G' h'
  grows : G.Grows G'

theorem Layout.Grows.refl (G : Layout) : G.Grows G := fun _ _ hk => ⟨hk, rfl⟩

theorem Layout.Grows.trans (h1 : G.Grows G') (h2 : G'.Grows G'') : G.Grows G'' := by
  intro t k hk
  obtain ⟨hk', hs'⟩ := h1 t k hk
  obtain ⟨hk'', hs''⟩ := h2 t k hk'
  exact ⟨hk'', hs''.trans hs'⟩

theorem Layout.grows_edit (cells : List Cell) : G.Grows (G.edit t k cells) := by
  intro t' k' hk
  simpa using hk

theorem Layout.grows_setList (i : Nat) (l : List Loc) : G.Grows (G.setList t i l) := by
  intro t' k' hk
  simpa [start] using hk

theorem Keeps.refl (P : StorageType → Loc → Prop) (G : Layout) (h : HHive) : Keeps P G h G h :=
  fun _ _ _ _ hc _ => ⟨hc, fun _ _ => rfl⟩

theorem Keeps.trans (h1 : Keeps P G h G' h') (h2 : Keeps P G' h' G'' h'') :
    Keeps P G h G'' h'' := by
  intro t x c hP hc hu
  obtain ⟨hc', hd⟩ := h1 t x c hP hc hu
  obtain ⟨hc'', hd'⟩ := h2 t x c hP hc' hu
  exact ⟨hc'', fun j hj => (hd' j hj).trans (hd j hj)⟩

theorem Keeps.mono {Q : StorageType → Loc → Prop} (hk : Keeps P G h G' h')
    (hQ : ∀ t x, Q t x → P t x) : Keeps Q G h G' h' :=
  fun t x c hq hc hu => hk t x c (hQ t x hq) hc hu

theorem Moves.trans (h1 : Moves P G h G' h') (h2 : Moves P G' h' G'' h'') : Moves P G h G'' h'' :=
  ⟨h2.rep, h2.listed, h1.keeps.trans h2.keeps, h1.grows.trans h2.grows⟩

theorem Moves.index {x : Loc} (hm : Moves P G h G' h') (hc : G.cell t x = some c) :
    G'.index t x = G.index t x := by
  obtain ⟨b, hb⟩ := exists_bin hc
  have hk := (List.getElem?_eq_some_iff.mp hb).1
  unfold Layout.index
  rw [(hm.grows t x.1 hk).2]

theorem Rewrite.keeps (hr : Rep G h) (hw : Rewrite G h t k pre mid mid' post data)
    (hP : ∀ o c, segAt Cell.size mid (sizeofHBin + total Cell.size pre) o = some c →
      c.state = .used → ¬ P t (k, o)) :
    Keeps P G h (G.edit t k (pre ++ mid' ++ post)) (h.setData t k data) := by
  intro t' x d hPx hd hu
  by_cases hk : t' = t ∧ x.1 = k
  · obtain ⟨rfl, rfl⟩ := hk
    have hmin := d.min_size
    rw [hw.data_self hr, cell_edit hw.run hw.size]
    rcases hw.run.cases hd with hcase | hcase | hcase
    · rw [if_neg (by omega)]
      exact ⟨hd, fun j hj => hw.out _ (.inl (by omega))⟩
    · exact absurd hPx (hP _ _ hcase hu)
    · rw [if_neg (by omega)]
      exact ⟨hd, fun j hj => hw.out _ (.inr (by omega))⟩
  · rw [data_setData_ne data hk, cell_edit hw.run hw.size,
      if_neg (fun hin => hk ⟨hin.1, hin.2.1⟩)]
    exact ⟨hd, fun _ _ => rfl⟩

theorem Rewrite.bytes_ne (hr : Rep G h) (hw : Rewrite G h t k pre [c] mid' post data)
    {t' : StorageType} {z : Loc} {d : Cell} (hz : G.cell t' z = some d)
    (hne : ¬ (t' = t ∧ z = at_ k pre)) {j : Nat} (hj : j < d.size) :
    (h.setData t k data).data t' z.1 (z.2 + j) = h.data t' z.1 (z.2 + j) := by
  by_cases hk : t' = t ∧ z.1 = k
  · obtain ⟨rfl, rfl⟩ := hk
    rw [hw.data_self hr]
    rcases hw.run.cases hz with hcase | hcase | hcase
    · exact hw.out _ (.inl (by omega))
    · exact absurd ⟨rfl, Prod.ext rfl (segAt_singleton.mp hcase).1⟩ hne
    · exact hw.out _ (.inr (by omega))
  · rw [data_setData_ne data hk]

theorem keeps_setDisplay (i v : Nat) (l : List Loc) :
    Keeps P G h (G.setList t i l) (h.setDisplay t i v) := by
  intro t' x d _ hd _
  simp [hd]

theorem setData_data (h : HHive) (t : StorageType) (k : Nat) : h.setData t k (h.data t k) = h := by
  unfold setData setDual
  rw [modify_same fun b hb => by simp [data, bin, hb]]
  have hst : (fun t' => if t' = t then h.storage t else h.storage t') = h.storage := by
    funext t'
    split
    · rename_i ht
      rw [ht]
    · rfl
  simp only [hst]

/-- Renaming the state of a cell, as long as its header word stays. -/
theorem Rep.relabel (hr : Rep G h) (hrun : G.Run t k pre [c] post) (hsize : c'.size = c.size)
    (hword : c'.word = c.word) : Rep (G.edit t k (pre ++ [c'] ++ post)) h := by
  rw [← setData_data h t k]
  refine hr.setCells ⟨hrun, by simp [hsize], by simp [c.size_pos], fun _ _ => rfl, ?_⟩
    (fun _ => rfl) ?_
  · intro o d hd
    obtain ⟨rfl, rfl⟩ := segAt_singleton.mp hd
    rw [hword]
    exact hr.header t _ c hrun.cell_one
  · intro t' i hi
    rw [setData_data, lists_edit]
    exact hr.chain t' i hi

theorem keeps_relabel (hrun : G.Run t k pre [c] post) (hsize : c'.size = c.size)
    (hc : c.state ≠ .used) : Keeps P G h (G.edit t k (pre ++ [c'] ++ post)) h := by
  intro t' x d _ hd hu
  rw [cell_edit_one hrun hsize, if_neg]
  · exact ⟨hd, fun _ _ => rfl⟩
  · rintro ⟨rfl, rfl⟩
    rw [hrun.cell_one] at hd
    cases hd
    exact hc hu

end Keep

/-! ## Section 4: Moving a cell on or off its list -/

section Lists

variable {G : Layout} {h : HHive} {t : StorageType} {k i : Nat} {x : Loc} {c : Cell}
  {pre post : List Cell} {l l₁ l₂ : List Loc}

theorem Rep.display_lt (hr : Rep G h) (hl : G.Listed) (hi : i < 24) :
    (h.storage t).freeDisplay i < 2 ^ 32 := by
  have hchain := hr.chain t i hi
  cases hlist : (G t).lists i with
  | nil =>
    rw [hlist] at hchain
    rw [hchain]
    decide
  | cons x l =>
    rw [hlist] at hchain
    obtain ⟨c, hc, _⟩ := (hl.mem t i x hi).mp (by simp [hlist])
    rw [hchain.1]
    have := hr.offset_lt hc
    have := storageLimit_le t
    exact cellIndex_lt (by omega)

theorem hvpAddFree_spec (hr : Rep G h) (hl : G.Listed) (hrun : G.Run t k pre [c] post)
    (hc : c.state = .loose) :
    ∃ h', hvpAddFree h ⟨t, k, sizeofHBin + total Cell.size pre⟩ (G.index t (at_ k pre))
        = some h' ∧ Moves everywhere G h (G.push t k pre c post) h' := by
  have hcell := hrun.cell_one
  have hi := hvpComputeFreeListIndex_lt c.size
  have hlpush := hl.push hrun hc
  unfold push at hlpush ⊢
  generalize hidx : hvpComputeFreeListIndex c.size = i at hi hlpush
  have hplace := hr.place hcell
  have hmin := c.min_size
  have hnu : c.state ≠ .used := by simp [hc]
  simp only [at_] at hplace
  -- the cell is linked to the old head of its list and becomes the head
  let v := (h.storage t).freeDisplay i
  let data := putU32 (h.data t k) (sizeofHBin + total Cell.size pre + 4) v
  have hw : Rewrite G h t k pre [c] [c.withState .free] post data := by
    refine ⟨hrun, by simp, by simp [c.size_pos], fun y hy => ?_, fun o d hd => ?_⟩
    · simp only [total_cons, total_nil] at hy
      exact putU32_out (by omega)
    · obtain ⟨rfl, rfl⟩ := segAt_singleton.mp hd
      have hword := hr.header t _ c hcell
      rw [Cell.word_of_ne_used hnu] at hword
      rw [Cell.word_of_ne_used (by simp), Cell.withState_size, ← hword]
      exact getU32_putU32_ne (by omega)
  have hedit : Rep (G.edit t k (pre ++ [c.withState .free] ++ post)) (h.setData t k data) := by
    refine hr.editCells hw hl fun o d hd hfree => ?_
    rw [(segAt_singleton.mp hd).2, hc] at hfree
    cases hfree
  have hlink : (h.setData t k data).link t (at_ k pre) = v := by
    unfold link
    simp only [at_]
    rw [hw.data_self hr, getU32_putU32_self, Nat.mod_eq_of_lt (hr.display_lt hl hi)]
  refine ⟨(h.setData t k data).setDisplay t i (G.index t (at_ k pre)), ?_, ?_, ?_, ?_,
    (grows_edit _).trans (grows_setList _ _)⟩
  · unfold hvpAddFree
    simp only [hr.type_index hcell]
    have hread : h.readUlong ⟨t, k, sizeofHBin + total Cell.size pre⟩ = some c.size :=
      hr.readSize hcell hnu
    have hwrite : h.writeUlong ⟨t, k, sizeofHBin + total Cell.size pre + 4⟩ v
        = some (h.setData t k data) := writeUlong_eq (by simp only; omega)
    simp only [hread, bind_eq_bind, bind_some, hidx, Ptr.add, sizeofHCell]
    rw [hwrite]
    rfl
  · refine hedit.setDisplay ?_
    have hchain := hedit.chain t i hi
    rw [freeDisplay_setData, lists_edit] at hchain
    refine ⟨(index_edit _).symm, ?_⟩
    rw [hlink]
    exact hchain
  · exact hlpush
  · refine Keeps.trans (hw.keeps hr ?_) (keeps_setDisplay _ _ _)
    intro o d hd hu
    rw [(segAt_singleton.mp hd).2] at hu
    exact absurd hu hnu

/-- The pointer to the current index after a walk past the cells of `l`. -/
def refBehind (t : StorageType) (r : LinkRef) : List Loc → LinkRef
  | [] => r
  | y :: l => refBehind t (.body ⟨t, y.1, y.2 + 4⟩) l

theorem refBehind_concat (r : LinkRef) (y : Loc) :
    refBehind t r (l ++ [y]) = .body ⟨t, y.1, y.2 + 4⟩ := by
  induction l generalizing r with
  | nil => rfl
  | cons z l ih => exact ih _

/-- `h'` is `h` with the link `v` in the cell `y`. -/
structure Relinked (G : Layout) (h h' : HHive) (t : StorageType) (y : Loc) (v : Nat) : Prop where
  bytes : ∀ t' z d, G.cell t' z = some d → ¬ (t' = t ∧ z = y) → ∀ j, j < d.size →
    h'.data t' z.1 (z.2 + j) = h.data t' z.1 (z.2 + j)
  behind : ∀ j, 8 ≤ j → h'.data t y.1 (y.2 + j) = h.data t y.1 (y.2 + j)
  link : h'.link t y = v
  rep : ∀ i l, (∀ t' j, j < 24 → Chain (G.index t') (h'.link t') hcellNil
    ((h.storage t').freeDisplay j) ((G.setList t i l t').lists j)) → Rep (G.setList t i l) h'

theorem Rep.relink {y : Loc} {v : Nat} (hr : Rep G h) (hy : G.cell t y = some c)
    (hv : v < 2 ^ 32) :
    ∃ h', h.writeLink (.body ⟨t, y.1, y.2 + 4⟩) v = some h' ∧ Relinked G h h' t y v := by
  obtain ⟨pre, post, hrun, hoff⟩ := exists_run hy
  have hat : y = at_ y.1 pre := Prod.ext rfl hoff
  have hplace := hr.place hy
  have hmin := c.min_size
  let data := putU32 (h.data t y.1) (y.2 + 4) v
  have hw : Rewrite G h t y.1 pre [c] [c] post data := by
    refine ⟨hrun, rfl, by simp [c.size_pos], fun o ho => ?_, fun o d hd => ?_⟩
    · simp only [total_cons, total_nil] at ho
      exact putU32_out (by omega)
    · obtain ⟨ho, rfl⟩ := segAt_singleton.mp hd
      rw [ho, ← hoff, ← hr.header t y d hy]
      exact getU32_putU32_ne (by omega)
  refine ⟨h.setData t y.1 data, writeUlong_eq (by simp only; omega), ?_, ?_, ?_, ?_⟩
  · intro t' z d hz hne j hj
    exact hw.bytes_ne hr hz (by rw [← hat]; exact hne) hj
  · intro j hj
    rw [hw.data_self hr]
    exact putU32_out (by omega)
  · unfold HHive.link
    rw [hw.data_self hr, getU32_putU32_self, Nat.mod_eq_of_lt hv]
  · exact fun i l => hr.setCells hw fun _ => by rw [edit_self hrun, bins_setList]

/-- With the link of `x` in the cell before it, the memory holds the list without `x`. -/
theorem Relinked.unlink {h' : HHive} {y : Loc} (hw : Relinked G h h' t y (h.link t x))
    (hr : Rep G h) (hl : G.Listed) (hi : i < 24) (hlist : (G t).lists i = l₁ ++ [y] ++ x :: l₂) :
    Rep (G.setList t i (l₁ ++ [y] ++ l₂)) h' := by
  have hlink : ∀ t' z d, G.cell t' z = some d → ¬ (t' = t ∧ z = y) →
      h'.link t' z = h.link t' z := by
    intro t' z d hz hne
    have := d.min_size
    refine getU32_congr (fun j hj => ?_)
    rw [Nat.add_assoc]
    exact hw.bytes t' z d hz hne _ (by omega)
  obtain ⟨cy, hcy, -, hyidx⟩ := (hl.mem t i y hi).mp (by simp [hlist])
  refine hw.rep i _ fun t' i' hi' => ?_
  rw [lists_setList]
  split
  · rename_i he
    obtain ⟨rfl, rfl⟩ := he
    have hchain := hr.chain t' i' hi
    rw [hlist] at hchain
    refine chain_unlink hchain hw.link fun z hz => ?_
    have hzl : z ∈ (G t').lists i' := by
      rw [hlist]
      simp only [mem_append, mem_cons] at hz ⊢
      tauto
    have hnd := hl.nodup t' i' hi
    rw [hlist, append_assoc, singleton_append, nodup_middle] at hnd
    have hny := (nodup_cons.mp hnd).1
    obtain ⟨d, hd, _⟩ := (hl.mem t' i' z hi).mp hzl
    refine hlink t' z d hd fun e => hny ?_
    rw [← e.2, mem_append, mem_cons]
    exact (mem_append.1 hz).imp_right .inr
  · -- `y` is on no other list
    rename_i hne
    refine (chain_congr fun z hz => ?_).mpr (hr.chain t' i' hi')
    obtain ⟨d, hd, _, hdidx⟩ := (hl.mem t' i' z hi').mp hz
    refine hlink t' z d hd ?_
    rintro ⟨rfl, rfl⟩
    rw [hcy] at hd
    cases hd
    exact hne ⟨rfl, hdidx.symm.trans hyidx⟩

/-- Storing the link of a cell over the word that holds its index takes it
    off its list. -/
theorem unlink_spec (hr : Rep G h) (hl : G.Listed) (hrun : G.Run t k pre [c] post) (hi : i < 24)
    (hlist : (G t).lists i = l₁ ++ at_ k pre :: l₂) :
    ∃ h', h.writeLink (refBehind t (.display t i) l₁) (h.link t (at_ k pre)) = some h' ∧
      Moves everywhere G h (G.pop t k pre c post) h' ∧
      ∀ t' x d, G.cell t' x = some d → ∀ j, 8 ≤ j → j < d.size →
        h'.data t' x.1 (x.2 + j) = h.data t' x.1 (x.2 + j) := by
  have hcell := hrun.cell_one
  obtain ⟨d, hd, hfree, hidx⟩ := (hl.mem t i (at_ k pre) hi).mp (by simp [hlist])
  rw [hcell] at hd
  cases hd
  have hlpop := hl.pop hrun hfree
  have herase : ((G t).lists i).erase (at_ k pre) = l₁ ++ l₂ := by
    have hnd := hl.nodup t i hi
    rw [hlist] at hnd ⊢
    rw [erase_append_right, erase_cons_head]
    exact fun hm => (nodup_middle.mp hnd).notMem (mem_append_left _ hm)
  unfold pop at hlpop ⊢
  rw [hidx, herase] at hlpop ⊢
  have hword : (c.withState .loose).word = c.word := by
    rw [Cell.word_of_ne_used (by simp), Cell.word_of_ne_used (by simp [hfree]),
      Cell.withState_size]
  have hnu : c.state ≠ .used := by simp [hfree]
  rcases eq_nil_or_concat l₁ with rfl | ⟨l₁, y, rfl⟩
  · -- the first cell of the list: the head of the list is set
    have hrel := hr.relabel hrun (Cell.withState_size c .loose) hword
    refine ⟨h.setDisplay t i (h.link t (at_ k pre)), rfl, ⟨?_, hlpop, ?_,
      (grows_edit _).trans (grows_setList _ _)⟩, ?_⟩
    · refine hrel.setDisplay ?_
      have hidx : (G.edit t k (pre ++ [c.withState .loose] ++ post)).index t = G.index t := by
        funext y
        exact index_edit _
      have hchain := hr.chain t i hi
      rw [hlist] at hchain
      rw [hidx]
      exact hchain.2
    · exact Keeps.trans (keeps_relabel hrun (Cell.withState_size c .loose) hnu)
        (keeps_setDisplay _ _ _)
    · intro t' x d _ j _ _
      rw [data_setDisplay]
  -- a later cell: the link of the cell before it is set
  simp only [concat_eq_append] at hlist hlpop ⊢
  rw [refBehind_concat]
  obtain ⟨cy, hcy, hyfree, -⟩ := (hl.mem t i y hi).mp (by simp [hlist])
  obtain ⟨h', hwrite, hw⟩ := hr.relink hcy (getU32_lt (h.data t k) ((at_ k pre).2 + 4))
  have hrel := (hw.unlink hr hl hi hlist).relabel (hrun.setList i _) (Cell.withState_size c .loose)
    hword
  rw [edit_setList] at hrel
  refine ⟨h', hwrite, ⟨hrel, hlpop, ?_, (grows_edit _).trans (grows_setList _ _)⟩, ?_⟩
  · -- neither `y` nor the cell itself is allocated
    intro t' z d _ hd hu
    have hzy : ¬ (t' = t ∧ z = y) := by grind
    have hzx : ¬ (t' = t ∧ z = at_ k pre) := by
      rintro ⟨rfl, rfl⟩
      rw [hcell] at hd
      cases hd
      exact hnu hu
    rw [cell_setList, cell_edit_one hrun (Cell.withState_size c _), if_neg hzx]
    exact ⟨hd, hw.bytes t' z d hd hzy⟩
  · intro t' z d hd j hj hjd
    by_cases hzy : t' = t ∧ z = y
    · obtain ⟨rfl, rfl⟩ := hzy
      exact hw.behind j hj
    · exact hw.bytes t' z d hd hzy j hjd

/-! ## Section 5: The loops -/

variable {v fuel size : Nat} {r : LinkRef} {is : List Nat}

/-- A free list has fewer cells than its storage has file offsets. -/
theorem Rep.length_lt_listFuel (hr : Rep G h) (hl : G.Listed) (hi : i < 24) :
    ((G t).lists i).length < h.listFuel t := by
  have hcell : ∀ x ∈ (G t).lists i, ∃ c, G.cell t x = some c := by
    intro x hx
    obtain ⟨c, hc, _⟩ := (hl.mem t i x hi).mp hx
    exact ⟨c, hc⟩
  have hnd : (((G t).lists i).map (fun x => G.start t x.1 + x.2)).Nodup := by
    refine (nodup_map_iff_inj_on (hl.nodup t i hi)).mpr ?_
    intro x hx y hy heq
    obtain ⟨c, hc⟩ := hcell x hx
    obtain ⟨d, hd⟩ := hcell y hy
    exact hr.index_inj hc hd (congrArg (cellIndex t) heq)
  have hsub : ((G t).lists i).map (fun x => G.start t x.1 + x.2)
      ⊆ range ((h.storage t).length * hblockSize) := by
    intro a ha
    obtain ⟨x, hx, rfl⟩ := mem_map.mp ha
    obtain ⟨c, hc⟩ := hcell x hx
    have := hr.place hc
    have := c.size_pos
    simp only [mem_range, hblockSize]
    omega
  have hle := (hnd.subperm hsub).length_le
  simp only [length_map, length_range] at hle
  unfold listFuel
  omega

/-- The walk of `HvpRemoveFree` stops at the cell it looks for. -/
theorem hvpRemoveFreeLoop_eq (hr : Rep G h) (hx : G.cell t x = some c)
    (hcells : ∀ y ∈ l₁, ∃ d, G.cell t y = some d) (hnot : x ∉ l₁)
    (hfuel : l₁.length < fuel) (hread : h.readLink r = some v)
    (hchain : Chain (G.index t) (h.link t) hcellNil v (l₁ ++ x :: l₂)) :
    hvpRemoveFreeLoop h (G.index t x) fuel r = h.writeLink (refBehind t r l₁) (h.link t x) := by
  induction l₁ generalizing fuel v r with
  | nil =>
    obtain _ | fuel := fuel
    · simp at hfuel
    have hv : v = G.index t x := hchain.1
    rw [hv] at hread
    rw [hvpRemoveFreeLoop, bind_of_eq hread, if_neg (index_ne_nil hx), bind_of_eq (hr.getCellData hx),
      if_pos rfl, bind_of_eq (hr.readLinkWord hx)]
    rfl
  | cons y l₁ ih =>
    obtain _ | fuel := fuel
    · simp at hfuel
    obtain ⟨d, hd⟩ := hcells y (by simp)
    have hv : v = G.index t y := hchain.1
    have hne : G.index t y ≠ G.index t x := by
      intro heq
      exact hnot (by simp [hr.index_inj hd hx heq])
    rw [hv] at hread
    rw [hvpRemoveFreeLoop, bind_of_eq hread, if_neg (index_ne_nil hd), bind_of_eq (hr.getCellData hd),
      if_neg hne]
    exact ih (fun z hz => hcells z (by simp [hz])) (fun hm => hnot (by simp [hm]))
      (by simpa using hfuel) (hr.readLinkWord hd) hchain.2

theorem hvpRemoveFree_spec (hr : Rep G h) (hl : G.Listed) (hrun : G.Run t k pre [c] post)
    (hc : c.state = .free) :
    ∃ h', hvpRemoveFree h ⟨t, k, sizeofHBin + total Cell.size pre⟩ (G.index t (at_ k pre))
        = some h' ∧ Moves everywhere G h (G.pop t k pre c post) h' := by
  have hcell := hrun.cell_one
  have hi := hvpComputeFreeListIndex_lt c.size
  obtain ⟨l₁, l₂, hlist⟩ := append_of_mem (hl.mem_of_free hrun hc)
  obtain ⟨h', hwrite, hmoves, _⟩ := unlink_spec hr hl hrun hi hlist
  refine ⟨h', ?_, hmoves⟩
  have hread : h.readUlong ⟨t, k, sizeofHBin + total Cell.size pre⟩ = some c.size :=
    hr.readSize hcell (by simp [hc])
  have hlen : ((G t).lists _).length < h.listFuel t := hr.length_lt_listFuel hl hi
  have hchain := hr.chain t _ hi
  have hnd := hl.nodup t _ hi
  have hcells : ∀ y ∈ l₁, ∃ d, G.cell t y = some d := by
    intro y hy
    obtain ⟨d, hd, _⟩ := (hl.mem t _ y hi).mp (by rw [hlist]; simp [hy])
    exact ⟨d, hd⟩
  rw [hlist] at hlen hchain hnd
  rw [hvpRemoveFree, bind_of_eq hread, hr.type_index hcell, hvpRemoveFreeLoop_eq hr hcell hcells ?_ ?_ rfl hchain]
  · exact hwrite
  · exact fun hm => (nodup_middle.mp hnd).notMem (mem_append_left _ hm)
  · simp only [length_append, length_cons] at hlen
    omega

/-- Size of the cell at a place. -/
def Layout.sizeAt (G : Layout) (t : StorageType) (x : Loc) : Nat :=
  match G.cell t x with
  | some c => c.size
  | none => 0

theorem Layout.sizeAt_eq (hc : G.cell t x = some c) : G.sizeAt t x = c.size := by
  simp [sizeAt, hc]

/-- The inner loop of `HvpFindFree` stops at the first cell that is large
    enough. -/
theorem hvpFindFreeLoop_eq (hr : Rep G h)
    (hcells : ∀ y ∈ l, ∃ d, G.cell t y = some d ∧ d.state = .free) {fuel v size : Nat} {r : LinkRef}
    (hfuel : l.length < fuel) (hread : h.readLink r = some v)
    (hchain : Chain (G.index t) (h.link t) hcellNil v l) :
    (hvpFindFreeLoop h size fuel r = some (h, hcellNil) ∧ ∀ x ∈ l, ¬ size ≤ G.sizeAt t x) ∨
    ∃ l₁ x l₂, l = l₁ ++ x :: l₂ ∧ (∀ y ∈ l₁, ¬ size ≤ G.sizeAt t y) ∧ size ≤ G.sizeAt t x ∧
      hvpFindFreeLoop h size fuel r =
        (h.writeLink (refBehind t r l₁) (h.link t x)).map (·, G.index t x) := by
  induction l generalizing fuel v r with
  | nil =>
    obtain _ | fuel := fuel
    · simp at hfuel
    have hv : v = hcellNil := hchain
    rw [hv] at hread
    exact .inl ⟨by rw [hvpFindFreeLoop, bind_of_eq hread, if_pos rfl], by simp⟩
  | cons y l ih =>
    obtain _ | fuel := fuel
    · simp at hfuel
    obtain ⟨d, hd, hfree⟩ := hcells y (by simp)
    have hv : v = G.index t y := hchain.1
    have hsize : h.readUlong ⟨t, y.1, y.2⟩ = some (G.sizeAt t y) := by
      rw [sizeAt_eq hd, hr.readSize hd (by simp [hfree])]
    rw [hv] at hread
    rw [hvpFindFreeLoop, bind_of_eq hread, if_neg (index_ne_nil hd), bind_of_eq (hr.getCellHeader hd),
      bind_of_eq hsize]
    -- the first cell that is large enough ends the walk
    by_cases hle : size ≤ G.sizeAt t y
    · refine .inr ⟨[], y, l, rfl, by simp, hle, ?_⟩
      rw [if_pos hle]
      simp only [Ptr.add, sizeofHCell]
      rw [hr.readLinkWord hd, map_eq_bind]
      rfl
    rw [if_neg hle]
    have hnext : h.readLink (.body ⟨t, y.1, y.2 + 4⟩) = some (h.link t y) := hr.readLinkWord hd
    rcases ih (fun z hz => hcells z (by simp [hz])) (by simpa using hfuel) hnext hchain.2
      with ⟨hnil, hall⟩ | ⟨l₁, x, l₂, rfl, hall, hx, heq⟩
    · refine .inl ⟨hnil, ?_⟩
      intro x hx
      rcases mem_cons.mp hx with rfl | hx
      · exact hle
      · exact hall x hx
    refine .inr ⟨y :: l₁, x, l₂, rfl, ?_, hx, heq⟩
    intro z hz
    rcases mem_cons.mp hz with rfl | hz
    · exact hle
    · exact hall z hz

/-- The cell that `HvpFindFree` takes: the first one that is large enough, in
    the lists from the size class of the request on. -/
def Layout.firstFit (G : Layout) (t : StorageType) (size : Nat) : Option Loc :=
  ((List.range' (hvpComputeFreeListIndex size) (24 - hvpComputeFreeListIndex size)).flatMap
    (G t).lists).find? (fun x => decide (size ≤ G.sizeAt t x))

/-- Taking the free cell at `x` off its list, in memory. -/
structure Taken (G : Layout) (h : HHive) (t : StorageType) (x : Loc) (pre : List Cell) (c : Cell)
    (post : List Cell) (h' : HHive) : Prop where
  run : G.Run t x.1 pre [c] post
  place : x = Layout.at_ x.1 pre
  free : c.state = .free
  moves : Moves everywhere G h (G.pop t x.1 pre c post) h'
  bytes : ∀ t' x d, G.cell t' x = some d → ∀ j, 8 ≤ j → j < d.size →
    h'.data t' x.1 (x.2 + j) = h.data t' x.1 (x.2 + j)

/-- The outcome `res` of a search that should find the cell at `r`. -/
def Finds (G : Layout) (h : HHive) (t : StorageType) (size : Nat) (r : Option Loc)
    (res : Option (HHive × Nat)) : Prop :=
  match r with
  | none => res = some (h, hcellNil)
  | some x => ∃ h' pre c post, res = some (h', G.index t x) ∧ size ≤ c.size ∧
      Taken G h t x pre c post h'

section

variable (hr : Rep G h) (hl : G.Listed)

include hr hl

theorem hvpFindFreeFrom_eq (his : ∀ i ∈ is, i < 24) : Finds G h t size
      ((is.flatMap (G t).lists).find? (fun x => decide (size ≤ G.sizeAt t x)))
      (hvpFindFreeFrom h size t is) := by
  induction is with
  | nil => rfl
  | cons i is ih =>
    have hi := his i (by simp)
    have hcells : ∀ y ∈ (G t).lists i, ∃ d, G.cell t y = some d ∧ d.state = .free := by
      intro y hy
      obtain ⟨d, hd, hfree, _⟩ := (hl.mem t i y hi).mp hy
      exact ⟨d, hd, hfree⟩
    have hread : h.readLink (.display t i) = some ((h.storage t).freeDisplay i) := rfl
    rw [flatMap_cons, find?_append]
    rcases @hvpFindFreeLoop_eq G h t _ hr hcells _ _ size _ (hr.length_lt_listFuel hl hi) hread
      (hr.chain t i hi) with ⟨hnil, hall⟩ | ⟨l₁, x, l₂, hlist, hall, hx, heq⟩
    · -- nothing in this list: the search goes on
      have hnone : ((G t).lists i).find? (fun x => decide (size ≤ G.sizeAt t x)) = none := by
        rw [find?_eq_none]
        intro x hx
        simpa using hall x hx
      rw [hnone, hvpFindFreeFrom, bind_of_eq hnil]
      exact ih (fun j hj => his j (by simp [hj]))
    have hsome : ((G t).lists i).find? (fun x => decide (size ≤ G.sizeAt t x)) = some x := by
      rw [hlist, find?_append, find?_eq_none.mpr (by simpa using hall)]
      simp [hx]
    rw [hsome]
    obtain ⟨d, hd, hfree⟩ := hcells x (by simp [hlist])
    obtain ⟨pre, post, hrun, hoff⟩ := exists_run hd
    have hat : x = at_ x.1 pre := Prod.ext rfl hoff
    have hlist' : (G t).lists i = l₁ ++ at_ x.1 pre :: l₂ := hat ▸ hlist
    obtain ⟨h', hwrite, hmoves, hbytes⟩ := unlink_spec hr hl hrun hi hlist'
    rw [← hat] at hwrite
    rw [hwrite, map_some] at heq
    rw [sizeAt_eq hd] at hx
    refine ⟨h', pre, d, post, ?_, hx, hrun, hat, hfree, hmoves, hbytes⟩
    rw [hvpFindFreeFrom, bind_of_eq heq]
    exact if_neg (index_ne_nil hd)

theorem hvpFindFree_spec (size : Nat) :
    Finds G h t size (G.firstFit t size) (hvpFindFree h size t) := by
  have his : ∀ i ∈ range' (hvpComputeFreeListIndex size) (24 - hvpComputeFreeListIndex size),
      i < 24 := by
    intro i hi
    rw [mem_range'_1] at hi
    omega
  unfold hvpFindFree firstFit
  simp only
  exact hvpFindFreeFrom_eq hr hl his

theorem Layout.firstFit_none (hsize : 8 ≤ size) (hnone : G.firstFit t size = none)
    (hc : G.cell t x = some c) (hfree : c.state = .free) : c.size < size := by
  by_contra hge
  have hmono := hvpComputeFreeListIndex_mono hsize (Nat.le_of_not_lt hge)
    (Nat.lt_trans (hr.size_lt hc) (by decide))
  have hlt := hvpComputeFreeListIndex_lt c.size
  have hmem : x ∈ (G t).lists (hvpComputeFreeListIndex c.size) :=
    (hl.mem t _ x hlt).mpr ⟨c, hc, hfree, rfl⟩
  unfold firstFit at hnone
  rw [find?_eq_none] at hnone
  have := hnone x (mem_flatMap.mpr ⟨_, mem_range'_1.mpr ⟨hmono, by omega⟩, hmem⟩)
  rw [sizeAt_eq hc] at this
  simp at this
  omega

end

end Lists

end Hive
