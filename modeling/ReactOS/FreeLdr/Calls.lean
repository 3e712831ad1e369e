import ReactOS.FreeLdr.Layout

/-! # Blocks taken and released

    What an allocation and a release do to the layout.  An allocation replaces a free block by the
    allocated one and, if enough is left, a smaller free block; a release replaces up to three blocks
    by one.  In between, the headers have one back link that is not right yet, and the ring of links
    lacks a block that is marked free already. -/

namespace FreeLdr

open Bytes Tiling LinkRing Option
open Block (span)
open List hiding span

/-- The memory has the blocks of the list, the free ones linked in a ring. -/
structure Rep (m : Buf) (t : Nat) (l : List Block) : Prop where
  heads : Heads m t l (t + 1)
  ring : Ring (flink m) (blink m) t (frees l 0)

/-- All that has changed are headers, links of free blocks, and the units `a` to `b`. -/
def Touches (m m' : Buf) (t : Nat) (l : List Block) (a b : Nat) : Prop :=
  ∀ u, ¬ Start l u → (∀ y ∈ t :: frees l 0, u ≠ y + 1) → u < a ∨ b < u → SameUnit m m' u

/-! ## Section 1: Changes -/

variable {hole : Nat}

section Parts

variable {m m' m'' : Buf} {t a b x : Nat} {l pre post : List Block} {c : Block}
variable {r : List Nat} {z : Nat}

theorem Touches.refl (m : Buf) (t : Nat) (l : List Block) (a b : Nat) : Touches m m t l a b :=
  fun u _ _ _ => SameUnit.refl m u

theorem Touches.trans (h : Touches m m' t l a b) (h' : Touches m' m'' t l a b) :
    Touches m m'' t l a b :=
  fun u hs hl hr => (h u hs hl hr).trans (h' u hs hl hr)

theorem LinksOnly.touches (h : LinksOnly m m' t r)
    (hr : ∀ y ∈ r, y ∈ frees l 0 ∨ a ≤ y + 1 ∧ y + 1 ≤ b) : Touches m m' t l a b := by
  intro u _ hlink hrange
  refine h u fun y hy => ?_
  rcases mem_cons.1 hy with hy | hy
  · exact hlink y (hy ▸ mem_cons_self)
  · rcases hr y hy with hmem | hbetween
    · exact hlink y (mem_cons_of_mem _ hmem)
    · omega

theorem touches_unit (hz : Start l z ∨ a ≤ z ∧ z ≤ b)
    (h : ∀ u, u ≠ z → SameUnit m m' u) : Touches m m' t l a b := by
  intro u hs _ hr
  refine h u fun heq => ?_
  rcases hz with hz | hz
  · exact hs (heq ▸ hz)
  · omega

section

variable (hx : segAt span l 0 x = some c) (hc : c.tag ≠ 0)

include hx hc

theorem Heads.link_outside {y : Nat} (h : Heads m t l hole) (hy : y ∈ t :: frees l 0) :
    y + 1 < x ∨ x + c.span ≤ y + 1 := by
  rcases mem_cons.1 hy with hy | hy
  · have hb := h.bound hx
    omega
  obtain ⟨d, hd, htag⟩ := mem_frees.1 hy
  have hunits := (h.units d (mem_of_segAt hd)).1
  have hne : y ≠ x := by
    intro heq
    rw [heq, hx] at hd
    exact hc (some.inj hd ▸ htag)
  have hapart := segAt_apart hd hx hne
  rw [span]
  omega

/-- A change of an allocation and of its header leaves the links. -/
theorem Rep.ring_outside (h : Rep m t l) (hsame : ∀ u, u < x ∨ x + c.span ≤ u → SameUnit m m' u) :
    Ring (flink m') (blink m') t (frees l 0) := by
  have hlink : ∀ y ∈ t :: frees l 0, SameUnit m m' (y + 1) := fun y hy =>
    hsame _ (h.heads.link_outside hx hc hy)
  exact h.ring.congr (fun y hy => (hlink y hy).flink) fun y hy => (hlink y hy).blink

/-- A change inside of an allocation leaves the layout. -/
theorem Rep.congr_inside (h : Rep m t l) (hsame : ∀ u, u ≤ x ∨ x + c.span ≤ u → SameUnit m m' u) :
    Rep m' t l :=
  ⟨h.heads.congr fun u hu => hsame u (hu.outside hx),
    h.ring_outside hx hc fun u hu => hsame u (by omega)⟩

end

theorem Heads.ring_header (h : Heads m t l hole) (hz : Start l z)
    (hring : Ring (flink m) (blink m) t r) (hr : r ⊆ frees l 0)
    (hsame : ∀ u, u ≠ z → SameUnit m m' u) : Ring (flink m') (blink m') t r := by
  have hlink : ∀ y ∈ t :: r, SameUnit m m' (y + 1) := by
    intro y hy
    exact hsame _ (h.start_ne_link hz (cons_subset_cons t hr hy)).symm
  exact hring.congr (fun y hy => (hlink y hy).flink) fun y hy => (hlink y hy).blink

/-- Any one back link may be looked at as not set. -/
theorem Heads.opened (h : Heads m t l (t + 1)) (hole : Nat) : Heads m t l hole where
  total := h.total
  small := h.small
  units := h.units
  block := h.block
  behind := fun x c hx _ => h.behind x c hx (by have hb := h.bound hx; omega)
  first := h.first
  last := h.last

theorem Heads.links (h : Heads m t l hole) (hlinks : LinksOnly m m' t r)
    (hr : r ⊆ frees l 0) : Heads m' t l hole :=
  h.congr fun _ hu => hlinks _ fun _ hy => h.start_ne_link hu (cons_subset_cons t hr hy)

theorem Heads.ring_tags (h : Heads m t l hole) :
    ∀ y ∈ t :: frees l 0, blockTag m y = 0 ∨ blockTag m y = tagEnd := by
  intro y hy
  rcases mem_cons.1 hy with hy | hy
  · exact .inr (hy ▸ h.last.2)
  · obtain ⟨c, hc, htag⟩ := mem_frees.1 hy
    rw [(h.block y c hc).2, htag]
    exact .inl rfl

theorem Heads.ring_nodup (h : Heads m t l hole) : (t :: frees l 0).Nodup := by
  refine nodup_cons.2 ⟨fun hmem => ?_, (frees_sorted l 0).imp Nat.ne_of_lt⟩
  have hb := frees_bounds hmem
  rw [Nat.zero_add, h.total] at hb
  omega

theorem Heads.nodup_without {r₁ r₂ : List Nat} (h : Heads m t l hole)
    (hall : frees l 0 = r₁ ++ z :: r₂) : (t :: (r₁ ++ r₂)).Nodup := by
  have hnodup := h.ring_nodup
  rw [hall] at hnodup
  exact hnodup.sublist (((sublist_cons_self z r₂).append_left r₁).cons_cons t)

theorem frees_mid (pre : List Block) (c : Block) (post : List Block) :
    frees (pre ++ [c] ++ post) 0 = frees pre 0 ++ ((if c.tag = 0 then [total span pre] else []) ++
      frees post (total span pre + c.span)) := by
  rw [append_assoc, frees_append, Nat.zero_add]
  congr 1
  rw [singleton_append, frees]
  split <;> rfl

theorem frees_free (pre : List Block) (n : Nat) (post : List Block) :
    frees (pre ++ [⟨n, 0⟩] ++ post) 0 = frees pre 0 ++ total span pre ::
      frees post (total span pre + (n + 1)) := by
  rw [frees_mid, if_pos rfl]
  rfl

theorem frees_used {tag : Nat} (htag : tag ≠ 0) (pre : List Block) (n : Nat) (post : List Block) :
    frees (pre ++ [⟨n, tag⟩] ++ post) 0 =
      frees pre 0 ++ frees post (total span pre + (n + 1)) := by
  rw [frees_mid, if_neg htag, nil_append]
  rfl

theorem mem_append_cons {l : List Nat} {y : Nat} (h : y ∈ l ++ r) : y ∈ l ++ z :: r :=
  ((sublist_cons_self z r).append_left l).subset h

theorem length_le_total (l : List Block) : l.length ≤ total span l := by
  induction l with
  | nil => exact Nat.zero_le _
  | cons c l ih =>
    have hpos := span_pos c
    simp only [total, map_cons, sum_cons, length_cons] at ih ⊢
    omega

theorem length_frees_le (l : List Block) (o : Nat) : (frees l o).length ≤ total span l := by
  refine Nat.le_trans ?_ (length_le_total l)
  induction l generalizing o with
  | nil => exact Nat.zero_le _
  | cons c l ih =>
    have hlen := ih (o + c.span)
    rw [frees]
    split
    · exact Nat.succ_le_succ hlen
    · exact Nat.le_succ_of_le hlen

end Parts

/-! ## Section 2: Taking a block -/

section Take

variable {m m' : Buf} {t x size n : Nat} {pre post : List Block} {tag : Nat}

/-- The blocks that a block of `n` units becomes, if `size` of them are needed. -/
def splitList (n size tag : Nat) : List Block :=
  if 1 < n - size then [⟨size, tag⟩, ⟨n - size - 1, 0⟩] else [⟨n, tag⟩]

theorem total_single (c : Block) : total span [c] = c.span := by simp

theorem total_splitList (h : size ≤ n) : total span (splitList n size tag) = n + 1 := by
  rw [splitList]
  split
  · simp only [total_cons, total_nil, span]
    omega
  · exact total_single _

/-- The block behind `pre` is cut down to `size` units, if enough is left for another one. -/
def Splits (dbg : Bool) (m : Buf) (t n size tag : Nat) (pre post : List Block) : Prop :=
  ∃ m', splitBlock dbg m t (total Block.span pre) size = some m' ∧
    Rep m' t (pre ++ splitList n size tag ++ post) ∧
    Touches m m' t (pre ++ [⟨n, tag⟩] ++ post) (total Block.span pre) (total Block.span pre + n)

theorem splitBlock_whole (dbg : Bool) (h : Rep m t (pre ++ [⟨n, tag⟩] ++ post)) (hsize : size ≤ n)
    (hwhole : ¬ 1 < n - size) : Splits dbg m t n size tag pre post := by
  have hx := segAt_mid pre ⟨n, tag⟩ post
  obtain ⟨hblock, -⟩ := h.heads.block _ _ hx
  have hremaining : (n + 2 ^ 16 - size) % 2 ^ 16 = n - size := by
    omega
  have hnext := start_next hx
  rw [span] at hnext
  rw [Splits, splitBlock, hblock, hremaining, if_neg hwhole, splitList, if_neg hwhole]
  refine ⟨_, rfl, ⟨?_, ?_⟩, touches_unit (.inl hnext) fun u hu => sameUnit_setPreviousSize ?_⟩
  · have hfill := (h.heads.opened (total span pre + (n + 1))).fill hx rfl
    rw [show total span pre + 1 + n = total span pre + (n + 1) by omega]
    exact hfill
  · refine h.heads.ring_header hnext h.ring (fun y hy => hy) fun u hu => sameUnit_setPreviousSize ?_
    omega
  · omega

theorem split_heads (h : Heads m t (pre ++ [⟨n, tag⟩] ++ post) (t + 1)) (hpos : 0 < size)
    (hrest : 1 < n - size)
    (hm' : m' = setPreviousSize (setBlockSize (setBlockTag
      (setBlockSize m (total span pre) size) (total span pre + 1 + size) 0)
      (total span pre + 1 + size) (n - size - 1)) (total span pre + 1 + size) size) :
    Heads m' t (pre ++ [⟨size, tag⟩, ⟨n - size - 1, 0⟩] ++ post) (total span pre + (n + 1)) ∧
      blockSize m' (total span pre + 1 + size) = n - size - 1 ∧
      blockTag m' (total span pre + 1 + size) = 0 ∧
      ∀ u, u ≠ total span pre → u ≠ total span pre + 1 + size → SameUnit m m' u := by
  have hx := segAt_mid pre ⟨n, tag⟩ post
  obtain ⟨hblock, htag⟩ := h.block _ _ hx
  have hn : n ≤ 65535 := (h.units _ (mem_of_segAt hx)).2
  generalize hp : total span pre = p at *
  have hsame : ∀ u, u ≠ p → u ≠ p + 1 + size → SameUnit m m' u := by
    intro u hu hu'
    rw [hm']
    exact (((sameUnit_setBlockSize hu).trans (sameUnit_setBlockTag hu')).trans
      (sameUnit_setBlockSize hu')).trans (sameUnit_setPreviousSize hu')
  have hsize1 : blockSize m' p = size := by
    rw [hm', blockSize_setPreviousSize, (sameUnit_setBlockSize (by omega)).blockSize,
      blockSize_setBlockTag, blockSize_setBlockSize_self]
    exact Nat.mod_eq_of_lt (by omega)
  have htag1 : blockTag m' p = tag := by
    rw [hm', blockTag_setPreviousSize, blockTag_setBlockSize,
      (sameUnit_setBlockTag (by omega)).blockTag, blockTag_setBlockSize, htag]
  have hsize2 : blockSize m' (p + 1 + size) = n - size - 1 := by
    rw [hm', blockSize_setPreviousSize, blockSize_setBlockSize_self]
    exact Nat.mod_eq_of_lt (by omega)
  have htag2 : blockTag m' (p + 1 + size) = 0 := by
    rw [hm', blockTag_setPreviousSize, blockTag_setBlockSize, blockTag_setBlockTag_self, Nat.zero_mod]
  have hprev2 : previousSize m' (p + 1 + size) = size := by
    rw [hm', previousSize_setPreviousSize_self]
    exact Nat.mod_eq_of_lt (by omega)
  have htotal : total span [⟨size, tag⟩, ⟨n - size - 1, 0⟩] = total span [⟨n, tag⟩] := by
    simp only [total_cons, total_nil, span]
    omega
  have hsecond : p + span ⟨size, tag⟩ = p + 1 + size := by
    simp only [span]
    omega
  -- two blocks in the place of one; the back link behind them is the hole
  refine ⟨?_, hsize2, htag2, hsame⟩
  refine h.replace hp (by rw [total_single, span]) htotal (by omega) (fun c hc => ?_)
    (.inl (by omega)) (fun u hu hout => ?_) (fun u hu hout => ?_) fun x c hxc => ?_
  · simp only [mem_cons, not_mem_nil, or_false] at hc
    rw [maxUshort]
    rcases hc with rfl | rfl
    · exact ⟨hpos, by dsimp only; omega⟩
    · dsimp only
      omega
  · have hunit := hsame u (by omega) (by omega)
    exact ⟨hunit.blockSize, hunit.blockTag⟩
  · rw [hm', (sameUnit_setPreviousSize (by omega)).previousSize]
    simp only [previousSize_setBlockSize, previousSize_setBlockTag]
  rcases segAt_cons hxc with ⟨rfl, rfl⟩ | hxc
  · rw [hsecond]
    exact ⟨hsize1, htag1, fun _ => hprev2⟩
  obtain ⟨rfl, rfl⟩ := segAt_singleton.1 hxc
  rw [hsecond]
  refine ⟨hsize2, htag2, fun hne => absurd ?_ hne⟩
  rw [span]
  dsimp only
  omega

theorem splitBlock_rest (dbg : Bool) (h : Rep m t (pre ++ [⟨n, tag⟩] ++ post)) (htag : tag ≠ 0)
    (hpos : 0 < size) (hrest : 1 < n - size) : Splits dbg m t n size tag pre post := by
  have hx := segAt_mid pre ⟨n, tag⟩ post
  obtain ⟨hblock, -⟩ := h.heads.block _ _ hx
  have hn : n ≤ 65535 := (h.heads.units _ (mem_of_segAt hx)).2
  have hremaining : (n + 2 ^ 16 - size) % 2 ^ 16 = n - size := by omega
  have hbound := h.heads.bound hx
  obtain ⟨m1, hm1⟩ : ∃ m1, m1 = setPreviousSize (setBlockSize (setBlockTag
      (setBlockSize m (total span pre) size) (total span pre + 1 + size) 0)
      (total span pre + 1 + size) (n - size - 1)) (total span pre + 1 + size) size :=
    ⟨_, rfl⟩
  obtain ⟨hheads, hsize2, htag2, hsame⟩ := split_heads h.heads hpos hrest hm1
  have hfrees := frees_used htag pre n post
  have hfrees' : frees (pre ++ [⟨size, tag⟩, ⟨n - size - 1, 0⟩] ++ post) 0 =
      frees pre 0 ++ (total span pre + 1 + size) ::
        frees post (total span pre + (n + 1)) := by
    rw [append_assoc, frees_append, Nat.zero_add, cons_append, frees, if_neg htag,
      singleton_append, frees, if_pos rfl]
    simp only [span]
    rw [show total span pre + (size + 1) = total span pre + 1 + size by omega,
      show total span pre + 1 + size + (n - size - 1 + 1) = total span pre + (n + 1) by omega]
  have hnodup := h.heads.ring_nodup
  generalize hp : total span pre = p at *
  simp only [span] at hbound
  -- The links are as before, and the new block goes in between.
  have hring1 : Ring (flink m1) (blink m1) t (frees pre 0 ++ frees post (p + (n + 1))) := by
    rw [← hfrees]
    refine h.ring_outside hx htag fun u hu => ?_
    simp only [span] at hu
    exact hsame u (by omega) (by omega)
  rw [hfrees] at hnodup
  obtain ⟨m2, hinsert, hring2, hlinks⟩ := frLdrHeapInsertFreeList_spec dbg hring1 hnodup
    h.heads.small (x := p + 1 + size)
    (fun y hy => by
      have hb := frees_bounds hy
      omega)
    (fun y hy => by
      have hb := frees_bounds hy
      have ht := h.heads.total
      simp only [total_append, hp, total_single, span] at ht
      omega)
    (by omega)
    (by
      have hlen := length_frees_le pre 0
      omega) htag2
  have hheads2 := hheads.links hlinks fun y hy => by
    rw [hfrees']
    exact hy
  have hx2 := segAt_at (show pre ++ [⟨size, tag⟩, ⟨n - size - 1, 0⟩] ++ post =
    pre ++ [⟨size, tag⟩] ++ ⟨n - size - 1, 0⟩ :: post by simp)
  rw [total_append, hp, total_single, span, show p + (size + 1) = p + 1 + size by omega] at hx2
  have hhole : p + (n + 1) = p + 1 + size + (n - size - 1 + 1) := by omega
  have hend := start_next hx2
  simp only [span] at hend
  rw [← hhole] at hend
  have heq : splitBlock dbg m t p size =
      some (setPreviousSize m2 (p + (n + 1)) (n - size - 1)) := by
    rw [splitBlock, hblock, hremaining, if_pos hrest]
    simp only [← hm1, hsize2, hinsert, bind, bind_some, pure]
    rw [show p + 1 + size + 1 + (n - size - 1) = p + (n + 1) by omega]
  rw [Splits, hp, splitList, if_pos hrest]
  refine ⟨_, heq, ⟨?_, ?_⟩, ?_⟩
  · exact hheads2.fill hx2 (by rw [span]; exact hhole)
  · rw [hfrees']
    refine hheads2.ring_header hend hring2 (fun y hy => ?_) fun u hu => sameUnit_setPreviousSize hu
    rw [hfrees']
    exact hy
  have hstart := start_next hx
  have htouch1 : Touches m m1 t (pre ++ [⟨n, tag⟩] ++ post) p (p + n) := by
    intro u _ _ hr
    exact hsame u (by omega) (by omega)
  refine (htouch1.trans (hlinks.touches fun y hy => ?_)).trans
    (touches_unit (.inl hstart) fun u hu => sameUnit_setPreviousSize hu)
  rw [hfrees]
  rcases mem_append.1 hy with hy | hy
  · exact .inl (mem_append_left _ hy)
  · grind

/-- The headers of a list are headers if one block is split up into several, or stays as it is. -/
theorem start_refine {c d : Block} {mid : List Block} (htotal : total span (d :: mid) = c.span)
    {u : Nat} (h : Start (pre ++ [c] ++ post) u) : Start (pre ++ (d :: mid) ++ post) u := by
  rw [← total_single c] at htotal
  rcases h with h | ⟨e, he⟩
  · refine .inl ?_
    rw [h, total_append, total_append, total_append, total_append, htotal]
  rcases segAt_replaced span_pos htotal.symm he with he | ⟨he, -⟩
  · rw [(segAt_singleton.1 he).1, Nat.zero_add]
    exact .inr ⟨d, segAt_at (append_assoc _ _ _)⟩
  · exact .inr ⟨e, he⟩

theorem takeBlock_spec (dbg : Bool) (h : Rep m t (pre ++ [⟨n, 0⟩] ++ post)) (htag : tag ≠ 0) (hlt : tag < 2 ^ 32)
    (hpos : 0 < size) (hsize : size ≤ n) :
    ∃ m', takeBlock dbg m t (total span pre) size tag = some m' ∧
      Rep m' t (pre ++ splitList n size tag ++ post) ∧
      Touches m m' t (pre ++ [⟨n, 0⟩] ++ post) (total span pre) (total span pre + n) := by
  have hx := segAt_mid pre ⟨n, 0⟩ post
  have hretag := h.heads.retag hlt
  have hnodup := h.heads.ring_nodup
  have hfrees := frees_free pre n post
  have hfrees' := frees_used htag pre n post
  have hring1 := h.heads.ring_header (.inr ⟨_, hx⟩) h.ring (fun y hy => hy)
    fun u hu => sameUnit_setBlockTag (m := m) (b := total span pre) (v := tag) hu
  rw [hfrees] at hring1 hnodup
  obtain ⟨m1, hremove, hring2, hlinks⟩ := frLdrHeapRemoveFreeList_spec dbg hring1 hnodup
    fun y hy => hretag.ring_tags y (by rw [hfrees']; exact hy)
  have hheads1 := hretag.links hlinks fun y hy => by
    rw [hfrees']
    exact hy
  have hrep1 : Rep m1 t (pre ++ [⟨n, tag⟩] ++ post) := ⟨hheads1, by rw [hfrees']; exact hring2⟩
  have htouch1 : Touches m m1 t (pre ++ [⟨n, 0⟩] ++ post) (total span pre)
      (total span pre + n) := by
    refine (touches_unit (.inl (.inr ⟨_, hx⟩)) fun u hu => sameUnit_setBlockTag hu).trans
      (hlinks.touches fun y hy => .inl ?_)
    rw [hfrees]
    exact mem_append_cons hy
  obtain ⟨m2, hsplit, hrep2, htouch2⟩ : Splits dbg m1 t n size tag pre post := by
    by_cases hrest : 1 < n - size
    · exact splitBlock_rest dbg hrep1 htag hpos hrest
    · exact splitBlock_whole dbg hrep1 hsize hrest
  refine ⟨m2, ?_, hrep2, htouch1.trans fun u hs hl hr => htouch2 u ?_ (fun y hy => hl y ?_) hr⟩
  · simp only [takeBlock, hremove, bind, bind_some]
    exact hsplit
  · intro hu
    exact hs (start_refine (c := ⟨n, tag⟩) (d := ⟨n, 0⟩) (total_single _) hu)
  · rw [hfrees]
    rw [hfrees'] at hy
    exact cons_subset_cons t (fun _ => mem_append_cons) hy

end Take

/-! ## Section 3: Releasing a block -/

section Release

variable {m m' : Buf} {t n k : Nat} {pre post : List Block}

/-- Two free blocks become one; the back link behind them is left. -/
theorem join_heads {d e : Block} (h : Heads m t (pre ++ [d, e] ++ post) hole)
    (hd : d.tag = 0) (hfit : d.units + e.units + 1 ≤ maxUshort)
    (hhole : t < hole ∨ hole = total span pre + (d.units + e.units + 1 + 1)) :
    Heads (setBlockSize m (total span pre) (d.units + e.units + 1)) t
      (pre ++ [⟨d.units + e.units + 1, 0⟩] ++ post)
      (total span pre + (d.units + e.units + 1 + 1)) := by
  have hx : segAt span (pre ++ [d, e] ++ post) 0 (total span pre) = some d :=
    segAt_at (append_assoc _ _ _)
  have htwo : total span [d, e] = d.units + e.units + 1 + 1 := by
    simp only [total_cons, total_nil, span]
    omega
  refine h.replace rfl (by rw [htwo]) ((total_single _).trans htwo.symm) (by omega)
    (fun c hc => ?_) hhole (fun u hu hout => ?_) (fun u hu hout => ?_) fun x c hxc => ?_
  · rw [mem_singleton.1 hc]
    exact ⟨Nat.succ_pos _, hfit⟩
  · rw [(sameUnit_setBlockSize (by omega)).blockSize, blockTag_setBlockSize]
    exact ⟨rfl, rfl⟩
  · rw [previousSize_setBlockSize]
  obtain ⟨rfl, rfl⟩ := segAt_singleton.1 hxc
  have hlt : d.units + e.units + 1 < 2 ^ 16 := Nat.lt_of_le_of_lt hfit (by decide)
  rw [blockSize_setBlockSize_self, Nat.mod_eq_of_lt hlt, blockTag_setBlockSize,
    (h.block _ d hx).2, hd]
  exact ⟨rfl, rfl, fun hne => absurd rfl hne⟩

/-- The block behind `pre` is joined with the free one behind it, or stays. -/
def MergesNext (dbg : Bool) (m : Buf) (t n : Nat) (pre post : List Block) : Prop :=
  ∃ m' k q post', mergeNext dbg m (total Block.span pre) =
      some (m', total Block.span pre + (k + 1)) ∧
    post = q ++ post' ∧ (∀ c ∈ q, c.tag = 0) ∧ total Block.span ([⟨n, 0⟩] ++ q) = k + 1 ∧
    Heads m' t (pre ++ [⟨k, 0⟩] ++ post') (total Block.span pre + (k + 1)) ∧
    Ring (flink m') (blink m') t (frees pre 0 ++ frees post' (total Block.span pre + (k + 1))) ∧
    Touches m m' t (pre ++ [⟨n, 0⟩] ++ post) (total Block.span pre) (total Block.span pre + n)

theorem mergeNext_spec (dbg : Bool) (h : Heads m t (pre ++ [⟨n, 0⟩] ++ post) (t + 1))
    (hring : Ring (flink m) (blink m) t
      (frees pre 0 ++ frees post (total span pre + (n + 1)))) :
    MergesNext dbg m t n pre post := by
  have hx := segAt_mid pre ⟨n, 0⟩ post
  obtain ⟨hsize, -⟩ := h.block _ _ hx
  have hnext : total span pre + n + 1 = total span pre + (n + 1) := rfl
  -- Nothing is merged: the next block is in use, or both would be too large.
  have hquiet : ¬ (blockTag m (total span pre + (n + 1)) = 0 ∧
      n + blockSize m (total span pre + (n + 1)) + 1 ≤ maxUshort) →
      MergesNext dbg m t n pre post := by
    intro hno
    refine ⟨m, n, [], post, ?_, rfl, forall_mem_nil _, ?_, h.opened _, hring,
      Touches.refl _ _ _ _ _⟩
    · simp only [mergeNext, hsize, hnext]
      rw [if_neg hno]
    · rw [append_nil]
      exact total_single _
  cases post with
  | nil =>
    refine hquiet fun hc => ?_
    have ht := h.total
    rw [append_nil, total_append, total_single] at ht
    rw [show n + 1 = span ⟨n, 0⟩ from rfl, ht, h.last.2] at hc
    exact absurd hc.1 (by decide)
  | cons d post' =>
    have hy := segAt_at (l := pre ++ [⟨n, 0⟩] ++ d :: post') rfl
    rw [total_append, total_single, span] at hy
    obtain ⟨hsize', htag'⟩ := h.block _ _ hy
    by_cases hgo : d.tag = 0 ∧ n + d.units + 1 ≤ maxUshort
    · obtain ⟨hd, hfit⟩ := hgo
      have hlist : pre ++ [⟨n, 0⟩] ++ d :: post' = pre ++ [⟨n, 0⟩, d] ++ post' := by simp
      have h1 : Heads m t (pre ++ [⟨n, 0⟩, d] ++ post') (t + 1) := by
        rw [← hlist]
        exact h
      have hjoin := join_heads h1 rfl hfit (.inl (by omega))
      have hfrees : frees (d :: post') (total span pre + (n + 1)) =
          (total span pre + (n + 1)) :: frees post' (total span pre + (n + d.units + 1 + 1)) := by
        rw [frees, if_pos hd, span]
        congr 2
        omega
      have hall : frees (pre ++ [⟨n, 0⟩] ++ d :: post') 0 = frees pre 0 ++ total span pre ::
          (total span pre + (n + 1)) ::
            frees post' (total span pre + (n + d.units + 1 + 1)) := by
        rw [frees_free, hfrees]
      have hall' := frees_free pre (n + d.units + 1) post'
      rw [hfrees] at hring
      have hring1 := h.ring_header (.inr ⟨_, hx⟩) hring (fun y hy => by
          rw [hall]
          exact mem_append_cons hy)
        fun u hu => sameUnit_setBlockSize (m := m) (b := total span pre) (v := n + d.units + 1) hu
      have hsub : frees pre 0 ++ frees post' (total span pre + (n + d.units + 1 + 1)) ⊆
          frees (pre ++ [⟨n + d.units + 1, 0⟩] ++ post') 0 := by
        intro y hy
        rw [hall']
        exact mem_append_cons hy
      obtain ⟨m2, hremove, hring2, hlinks⟩ := frLdrHeapRemoveFreeList_spec dbg hring1
        (h.nodup_without hall) fun y hy => hjoin.ring_tags y (cons_subset_cons t hsub hy)
      have hheads2 := hjoin.links hlinks hsub
      have hsize2 := (hheads2.block _ _ (segAt_mid pre _ post')).1
      refine ⟨m2, n + d.units + 1, [d], post', ?_, rfl, fun c hc => ?_, ?_, hheads2, hring2, ?_⟩
      · simp only [mergeNext, hsize, hnext, hsize', htag', if_pos (And.intro hd hfit), hremove, bind,
          bind_some, pure, hsize2]
        rfl
      · rw [mem_singleton.1 hc]
        exact hd
      · rw [total_append, total_single, total_single, span, span]
        dsimp only
        omega
      · refine (touches_unit (.inl (.inr ⟨_, hx⟩)) fun u hu => sameUnit_setBlockSize hu).trans
          (hlinks.touches fun y hy => .inl ?_)
        rw [hall]
        exact mem_append_cons (mem_append_cons hy)
    · rw [hsize', htag'] at hquiet
      exact hquiet hgo

/-- The block behind `pre` is joined with the free one before it, or goes on the list by itself. -/
def MergesPrevious (dbg : Bool) (m : Buf) (t k : Nat) (pre post : List Block) : Prop :=
  ∃ m' j pre' q, mergePrevious dbg m t (total Block.span pre)
      (total Block.span pre - previousSize m (total Block.span pre) - 1) =
      some (m', total Block.span pre') ∧
    pre = pre' ++ q ∧ (∀ c ∈ q, c.tag = 0) ∧ total Block.span (q ++ [⟨k, 0⟩]) = j + 1 ∧
    Heads m' t (pre' ++ [⟨j, 0⟩] ++ post) (total Block.span pre + (k + 1)) ∧
    Ring (flink m') (blink m') t (frees (pre' ++ [⟨j, 0⟩] ++ post) 0) ∧
    Touches m m' t (pre ++ [⟨k, 0⟩] ++ post) 1 0

theorem mergePrevious_spec (dbg : Bool)
    (h : Heads m t (pre ++ [⟨k, 0⟩] ++ post) (total span pre + (k + 1)))
    (hring : Ring (flink m) (blink m) t
      (frees pre 0 ++ frees post (total span pre + (k + 1)))) :
    MergesPrevious dbg m t k pre post := by
  have hx := segAt_mid pre ⟨k, 0⟩ post
  obtain ⟨hsize, htag⟩ := h.block _ _ hx
  have hall := frees_free pre k post
  -- The block goes on the list by itself.
  have hinsert : ¬ (previousSize m (total span pre) ≠ 0 ∧
      blockTag m (total span pre - previousSize m (total span pre) - 1) = 0 ∧
      blockSize m (total span pre - previousSize m (total span pre) - 1) + k + 1 ≤ maxUshort) →
      MergesPrevious dbg m t k pre post := by
    intro hno
    have ht := h.total
    simp only [total_append, total_single, span] at ht
    obtain ⟨m', heq, hring', hlinks⟩ := frLdrHeapInsertFreeList_spec dbg hring
      (h.nodup_without hall) h.small (x := total span pre)
      (fun y hy => by
        have hb := frees_bounds hy
        omega)
      (fun y hy => by
        have hb := frees_bounds hy
        omega)
      (by omega)
      (by
        have hlen := length_frees_le pre 0
        omega) htag
    refine ⟨m', k, pre, [], ?_, (append_nil pre).symm, forall_mem_nil _,
      total_single _, h.links hlinks fun y hy => by rw [hall]; exact hy, by rw [hall]; exact hring',
      hlinks.touches fun y hy => .inl (by rw [hall]; exact hy)⟩
    simp only [mergePrevious, hsize]
    rw [if_neg hno]
    simp only [heq, bind, bind_some, pure]
  rcases eq_nil_or_concat pre with hnil | ⟨pre', d, hpre⟩
  · refine hinsert fun hc => hc.1 ?_
    rw [hnil]
    exact h.first
  rw [concat_eq_append] at hpre
  have hlist : pre ++ [⟨k, 0⟩] ++ post = pre' ++ [d, ⟨k, 0⟩] ++ post := by
    rw [hpre]
    simp
  have htotal : total span pre = total span pre' + (d.units + 1) := by
    rw [hpre, total_append, total_single, span]
  have hy : segAt span (pre ++ [⟨k, 0⟩] ++ post) 0 (total span pre') = some d :=
    segAt_at (hlist.trans (append_assoc _ _ _))
  obtain ⟨hsize', htag'⟩ := h.block _ _ hy
  -- The header names the block `d` right before.
  have hprev : previousSize m (total span pre) = d.units := by
    have hbehind := h.behind _ _ hy
    rw [span, ← htotal] at hbehind
    exact hbehind (by omega)
  have hprevious : total span pre - d.units - 1 = total span pre' := by omega
  have hd := (h.units d (mem_of_segAt hy)).1
  by_cases hgo : d.tag = 0 ∧ d.units + k + 1 ≤ maxUshort
  · obtain ⟨hfree, hfit⟩ := hgo
    have h1 : Heads m t (pre' ++ [d, ⟨k, 0⟩] ++ post) (total span pre + (k + 1)) := by
      rw [← hlist]
      exact h
    have hjoin := join_heads h1 hfree hfit (.inr (by dsimp only; omega))
    have hend : total span pre' + (d.units + k + 1 + 1) = total span pre + (k + 1) := by
      omega
    rw [hend] at hjoin
    -- The joined block keeps the place of `d` on the free list.
    have hsame : frees (pre' ++ [⟨d.units + k + 1, 0⟩] ++ post) 0 =
        frees pre 0 ++ frees post (total span pre + (k + 1)) := by
      rw [frees_free, hend, hpre, frees_append, Nat.zero_add, frees, if_pos hfree, frees,
        append_assoc]
      rfl
    refine ⟨_, d.units + k + 1, pre', [d], ?_, hpre, fun c hc => ?_, ?_, hjoin, ?_, ?_⟩
    · simp only [mergePrevious, hprev, hprevious, hsize, hsize', htag']
      rw [if_pos ⟨by omega, hfree, hfit⟩]
    · rw [mem_singleton.1 hc]
      exact hfree
    · rw [total_append, total_single, total_single, span, span]
      dsimp only
      omega
    · rw [hsame]
      refine h.ring_header (.inr ⟨d, hy⟩) hring (fun y hy => ?_) fun u hu => sameUnit_setBlockSize hu
      rw [hall]
      exact mem_append_cons hy
    · exact touches_unit (.inl (.inr ⟨d, hy⟩)) fun u hu => sameUnit_setBlockSize hu
  · refine hinsert fun hc => hgo ?_
    rw [hprev, hprevious, hsize', htag'] at hc
    exact hc.2

theorem Heads.previous_eq {l : List Block} (h : Heads m t (pre ++ l) hole)
    (hne : Tiling.total span pre ≠ hole) :
    previousSize m (Tiling.total span pre) = (pre.getLast?.map Block.units).getD 0 := by
  rcases eq_nil_or_concat pre with hnil | ⟨pre', d, hpre⟩
  · rw [hnil]
    exact h.first
  rw [concat_eq_append] at hpre
  have hy : segAt span (pre ++ l) 0 (Tiling.total span pre') = some d :=
    segAt_at (by rw [hpre, append_assoc]; rfl)
  have htotal : Tiling.total span pre = Tiling.total span pre' + d.span := by
    rw [hpre, total_append, total_single]
  rw [htotal] at hne ⊢
  rw [h.behind _ _ hy hne, hpre]
  simp

/-- Both merges, from a heap whose block is marked free but is not on the list yet. -/
theorem releaseBlock_spec (dbg : Bool) (h : Heads m t (pre ++ [⟨n, 0⟩] ++ post) (t + 1))
    (hring : Ring (flink m) (blink m) t
      (frees pre 0 ++ frees post (total span pre + (n + 1)))) :
    ∃ m' j pre' q1 q2 post', releaseBlock dbg m t (total span pre) = some m' ∧
      pre = pre' ++ q1 ∧ post = q2 ++ post' ∧ (∀ c ∈ q1 ++ q2, c.tag = 0) ∧
      total span (q1 ++ [⟨n, 0⟩] ++ q2) = j + 1 ∧ Rep m' t (pre' ++ [⟨j, 0⟩] ++ post') ∧
      Touches m m' t (pre ++ [⟨n, 0⟩] ++ post) (total span pre) (total span pre + n) := by
  obtain ⟨m1, k, q2, post', hnext, hpost, hfree2, htotal2, hheads1, hring1, htouch1⟩ :=
    mergeNext_spec dbg h hring
  obtain ⟨m2, j, pre', q1, hprevious, hpre, hfree1, htotal1, hheads2, hring2, htouch2⟩ :=
    mergePrevious_spec dbg hheads1 hring1
  have hx1 := segAt_mid pre ⟨k, 0⟩ post'
  have hx2 := segAt_mid pre' ⟨j, 0⟩ post'
  have hsize2 := (hheads2.block _ _ hx2).1
  have hback : previousSize m1 (total span pre) = previousSize m (total span pre) := by
    rw [append_assoc] at h hheads1
    rw [hheads1.previous_eq (by omega), h.previous_eq (by
      have hle := h.total
      rw [total_append] at hle
      omega)]
  have hhole : total span pre + (k + 1) = total span pre' + span ⟨j, 0⟩ := by
    rw [hpre, total_append, Nat.add_assoc, span, ← htotal1, total_append, total_single]
    rfl
  -- The headers and links of the coarser lists are among those of the list at the start.
  have hlist : pre ++ [⟨n, 0⟩] ++ post = pre ++ (⟨n, 0⟩ :: q2) ++ post' := by
    rw [hpost]
    simp
  have hstart : ∀ u, Start (pre ++ [⟨k, 0⟩] ++ post') u → Start (pre ++ [⟨n, 0⟩] ++ post) u := by
    intro u hu
    rw [hlist]
    exact start_refine (c := ⟨k, 0⟩) htotal2 hu
  have hlink : ∀ y ∈ t :: frees (pre ++ [⟨k, 0⟩] ++ post') 0,
      y ∈ t :: frees (pre ++ [⟨n, 0⟩] ++ post) 0 := by
    intro y hy
    rw [frees_free] at hy ⊢
    rw [hpost, frees_append]
    have hend : total span pre + (n + 1) + total span q2 = total span pre + (k + 1) := by
      simp only [total_append, total_single, span] at htotal2
      omega
    rw [hend]
    simp only [mem_cons, mem_append] at hy ⊢
    tauto
  have heq : releaseBlock dbg m t (total span pre) =
      some (setPreviousSize m2 (total span pre + (k + 1)) j) := by
    rw [hback] at hprevious
    simp only [releaseBlock, hnext, hprevious, bind, bind_some, pure, hsize2]
  refine ⟨_, j, pre', q1, q2, post', heq, hpre, hpost, forall_mem_append.2 ⟨hfree1, hfree2⟩, ?_,
    ⟨?_, ?_⟩, ?_⟩
  · simp only [total_append, total_single, span] at htotal1 htotal2 ⊢
    omega
  · exact hheads2.fill hx2 hhole
  · refine hheads2.ring_header (start_next hx2) hring2 (fun y hy => hy) fun u hu =>
      sameUnit_setPreviousSize ?_
    rw [hhole]
    exact hu
  · refine (htouch1.trans fun u hs hl _ => htouch2 u (fun hu => hs (hstart u hu))
      (fun y hy => hl y (hlink y hy)) (by omega)).trans
      (touches_unit (.inl (hstart _ (start_next hx1))) fun u hu => sameUnit_setPreviousSize hu)

end Release

end FreeLdr
