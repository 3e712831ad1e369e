import Mathlib.Data.List.Pairwise
import ReactOS.FreeLdr.Heap
import ReactOS.Lib.LinkRing
import ReactOS.Lib.Tiling

/-! # The layout of the boot loader heap

    The blocks of a heap as a list of sizes and tags, laid end to end, and what it means that the
    memory has it: `Heads` for the headers, a ring of links for the free blocks.  Memory is looked at
    unit by unit: the header of a block is one unit, the links of a free block are another, and what
    the heap routines store is told by the units that they leave as they were. -/

namespace FreeLdr

open Bytes Tiling LinkRing Option

/-! ## Section 1: Units of memory -/

/-- A unit of memory is as it was. -/
def SameUnit (m m' : Buf) (u : Nat) : Prop := ∀ i, i < 8 → m' (8 * u + i) = m (8 * u + i)

section Units

variable {m m' m'' : Buf} {b c u v : Nat}

theorem SameUnit.refl (m : Buf) (u : Nat) : SameUnit m m u := fun _ _ => rfl

theorem SameUnit.trans (h : SameUnit m m' u) (h' : SameUnit m' m'' u) : SameUnit m m'' u :=
  fun i hi => (h' i hi).trans (h i hi)

theorem SameUnit.blockSize (h : SameUnit m m' b) : blockSize m' b = blockSize m b :=
  getU16_congr fun i hi => h i (by omega)

theorem SameUnit.previousSize (h : SameUnit m m' b) : previousSize m' b = previousSize m b :=
  getU16_congr fun i hi => by
    rw [Nat.add_assoc]
    exact h (2 + i) (by omega)

theorem SameUnit.blockTag (h : SameUnit m m' b) : blockTag m' b = blockTag m b :=
  getU32_congr fun i hi => by
    rw [Nat.add_assoc]
    exact h (4 + i) (by omega)

theorem SameUnit.flink (h : SameUnit m m' (b + 1)) : flink m' b = flink m b :=
  getU32_congr fun i hi => h i (by omega)

theorem SameUnit.blink (h : SameUnit m m' (b + 1)) : blink m' b = blink m b :=
  getU32_congr fun i hi => by
    rw [show 8 * b + 12 + i = 8 * (b + 1) + (4 + i) by omega]
    exact h (4 + i) (by omega)

theorem sameUnit_setBlockSize (h : u ≠ b) : SameUnit m (setBlockSize m b v) u :=
  fun i hi => putU16_out (by omega)

theorem sameUnit_setPreviousSize (h : u ≠ b) : SameUnit m (setPreviousSize m b v) u :=
  fun i hi => putU16_out (by omega)

theorem sameUnit_setBlockTag (h : u ≠ b) : SameUnit m (setBlockTag m b v) u :=
  fun i hi => putU32_out (by omega)

theorem sameUnit_setFlink (h : u ≠ b + 1) : SameUnit m (setFlink m b v) u :=
  fun i hi => putU32_out (by omega)

theorem sameUnit_setBlink (h : u ≠ b + 1) : SameUnit m (setBlink m b v) u :=
  fun i hi => putU32_out (by omega)

/-- Fields that differ never overlap, be it in one header or in two. -/
@[simp] theorem blockSize_setPreviousSize : blockSize (setPreviousSize m b v) c = blockSize m c :=
  getU16_congr fun i hi => putU16_out (by omega)

@[simp] theorem blockSize_setBlockTag : blockSize (setBlockTag m b v) c = blockSize m c :=
  getU16_congr fun i hi => putU32_out (by omega)

@[simp] theorem previousSize_setBlockSize :
    previousSize (setBlockSize m b v) c = previousSize m c :=
  getU16_congr fun i hi => putU16_out (by omega)

@[simp] theorem previousSize_setBlockTag : previousSize (setBlockTag m b v) c = previousSize m c :=
  getU16_congr fun i hi => putU32_out (by omega)

@[simp] theorem blockTag_setBlockSize : blockTag (setBlockSize m b v) c = blockTag m c :=
  getU32_congr fun i hi => putU16_out (by omega)

@[simp] theorem blockTag_setPreviousSize : blockTag (setPreviousSize m b v) c = blockTag m c :=
  getU32_congr fun i hi => putU16_out (by omega)

@[simp] theorem flink_setBlink : flink (setBlink m b v) c = flink m c :=
  getU32_congr fun i hi => putU32_out (by omega)

@[simp] theorem blink_setFlink : blink (setFlink m b v) c = blink m c :=
  getU32_congr fun i hi => putU32_out (by omega)

@[simp] theorem blockSize_setBlockSize_self : blockSize (setBlockSize m b v) b = v % 2 ^ 16 :=
  getU16_putU16_self _ _ _

@[simp] theorem previousSize_setPreviousSize_self :
    previousSize (setPreviousSize m b v) b = v % 2 ^ 16 :=
  getU16_putU16_self _ _ _

@[simp] theorem blockTag_setBlockTag_self : blockTag (setBlockTag m b v) b = v % 2 ^ 32 :=
  getU32_putU32_self _ _ _

@[simp] theorem flink_setFlink_self : flink (setFlink m b v) b = v % 2 ^ 32 :=
  getU32_putU32_self _ _ _

@[simp] theorem blink_setBlink_self : blink (setBlink m b v) b = v % 2 ^ 32 :=
  getU32_putU32_self _ _ _

end Units

/-! ## Section 2: Lists of blocks -/

/-- A block: the units of its data, and its tag, which is 0 if it is free. -/
structure Block where
  units : Nat
  tag : Nat
  deriving DecidableEq, Repr

/-- The units of a block with its header. -/
def Block.span (c : Block) : Nat := c.units + 1

open Block (span)
open List hiding span

/-- The indices of the free blocks, when the list is laid out from an index on. -/
def frees : List Block → Nat → List Nat
  | [], _ => []
  | c :: l, o => if c.tag = 0 then o :: frees l (o + c.span) else frees l (o + c.span)

section Lists

variable {l pre mid post : List Block} {c d : Block} {o x y : Nat}

theorem span_pos (c : Block) : 0 < c.span := Nat.succ_pos _

theorem segAt_apart (hx : segAt span l 0 x = some c) (hy : segAt span l 0 y = some d) (hne : x ≠ y) :
    x + c.units < y ∨ y + d.units < x :=
  segAt_disjoint span_pos hx hy hne

theorem frees_append (l1 l2 : List Block) (o : Nat) :
    frees (l1 ++ l2) o = frees l1 o ++ frees l2 (o + total span l1) := by
  induction l1 generalizing o with
  | nil => simp [frees, total]
  | cons c l1 ih =>
    simp only [cons_append, frees, ih, total, map_cons, sum_cons, Nat.add_assoc]
    split <;> rfl

theorem mem_frees : x ∈ frees l o ↔ ∃ c, segAt span l o x = some c ∧ c.tag = 0 := by
  induction l generalizing o x with
  | nil => simp [frees, segAt]
  | cons c l ih =>
    have hbeyond : segAt span l (o + c.span) o = none :=
      segAt_of_lt (Nat.lt_add_of_pos_right (span_pos c))
    have hnot : o ∉ frees l (o + c.span) := by
      rw [ih, hbeyond]
      rintro ⟨d, hd, -⟩
      cases hd
    rw [frees, segAt]
    by_cases hx : x = o
    · grind
    rw [if_neg hx, ← ih]
    split
    · exact ⟨fun h => (mem_cons.1 h).resolve_left hx, mem_cons_of_mem _⟩
    · rfl

theorem frees_bounds (h : x ∈ frees l o) : o ≤ x ∧ x < o + total span l := by
  obtain ⟨c, hc, -⟩ := mem_frees.1 h
  have hb := segAt_bounds hc
  have hpos := span_pos c
  omega

theorem frees_sorted (l : List Block) (o : Nat) : (frees l o).Pairwise (· < ·) := by
  induction l generalizing o with
  | nil => exact List.Pairwise.nil
  | cons c l ih =>
    rw [frees]
    split
    · refine pairwise_cons.2 ⟨fun x hx => ?_, ih _⟩
      have hb := frees_bounds hx
      have hpos := span_pos c
      omega
    · exact ih _

end Lists

/-! ## Section 3: Headers -/

/-- The index of a block, or the one of the terminating block. -/
def Start (l : List Block) (u : Nat) : Prop :=
  u = total Block.span l ∨ ∃ c, segAt Block.span l 0 u = some c

/-- The memory has the headers of the list and of the terminating block.  In the middle of a call the
    back link in one header, at `hole`, is still to be set; there is none if `hole` is behind the
    terminating block. -/
structure Heads (m : Buf) (terminatingBlock : Nat) (l : List Block) (hole : Nat) : Prop where
  total : total Block.span l = terminatingBlock
  small : terminatingBlock < 2 ^ 29
  units : ∀ c ∈ l, 0 < c.units ∧ c.units ≤ maxUshort
  block : ∀ x c, segAt Block.span l 0 x = some c → blockSize m x = c.units ∧ blockTag m x = c.tag
  behind : ∀ x c, segAt Block.span l 0 x = some c → x + c.span ≠ hole →
    previousSize m (x + c.span) = c.units
  first : previousSize m 0 = 0
  last : blockSize m terminatingBlock = 0 ∧ blockTag m terminatingBlock = tagEnd

section Headers

variable {m m' : Buf} {l pre mid mid' post : List Block} {c d : Block} {t hole x y u : Nat}

theorem start_next (h : segAt span l 0 x = some c) : Start l (x + c.span) := by
  obtain ⟨pre, post, rfl, rfl⟩ := exists_of_segAt h
  cases post with
  | nil =>
    refine .inl ?_
    simp [Tiling.total]
  | cons d post =>
    refine .inr ⟨d, ?_⟩
    rw [segAt_append span_pos, if_neg (by omega), segAt, if_neg, segAt, if_pos rfl]
    have hpos := span_pos c
    omega

theorem start_zero (l : List Block) : Start l 0 := by
  cases l with
  | nil => exact .inl rfl
  | cons c l => exact .inr ⟨c, if_pos rfl⟩

theorem Start.le (h : Start l u) : u ≤ Tiling.total span l := by
  rcases h with h | ⟨c, hc⟩
  · exact h.le
  · have hb := segAt_bounds hc
    omega

/-- No header is inside of a block. -/
theorem Start.outside (h : Start l u) (hx : segAt span l 0 x = some c) :
    u ≤ x ∨ x + c.span ≤ u := by
  rcases h with h | ⟨d, hd⟩
  · have hb := segAt_bounds hx
    omega
  by_cases hne : u = x
  · exact .inl hne.le
  · rcases segAt_disjoint span_pos hd hx hne with hle | hle
    · exact .inl (by omega)
    · exact .inr hle

theorem Heads.bound (h : Heads m t l hole) (hx : segAt span l 0 x = some c) : x + c.span ≤ t := by
  rw [← h.total]
  exact (start_next hx).le

/-- The links of a free block, or of the terminating one, are in no header. -/
theorem Heads.start_ne_link (h : Heads m t l hole) (hu : Start l u)
    (hy : y ∈ t :: frees l 0) : u ≠ y + 1 := by
  rcases mem_cons.1 hy with hy | hy
  · have hle := hu.le
    rw [h.total] at hle
    omega
  obtain ⟨c, hc, -⟩ := mem_frees.1 hy
  have hunits := (h.units c (mem_of_segAt hc)).1
  have hout := hu.outside hc
  rw [span] at hout
  omega

theorem Heads.congr (h : Heads m t l hole) (hsame : ∀ u, Start l u → SameUnit m m' u) :
    Heads m' t l hole where
  total := h.total
  small := h.small
  units := h.units
  block := fun x c hx => by
    have hunit := hsame x (.inr ⟨c, hx⟩)
    rw [hunit.blockSize, hunit.blockTag]
    exact h.block x c hx
  behind := fun x c hx hne => by
    rw [(hsame _ (start_next hx)).previousSize]
    exact h.behind x c hx hne
  first := by
    rw [(hsame 0 (start_zero l)).previousSize]
    exact h.first
  last := by
    have hunit := hsame t (.inl h.total.symm)
    rw [hunit.blockSize, hunit.blockTag]
    exact h.last

/-- A run of blocks is replaced by another of the same length.  The back link behind it is left. -/
theorem Heads.replace {p e : Nat} (h : Heads m t (pre ++ mid ++ post) hole)
    (hp : Tiling.total span pre = p) (he : p + Tiling.total span mid = e)
    (htotal : Tiling.total span mid' = Tiling.total span mid) (hpos : p < e)
    (hunits : ∀ c ∈ mid', 0 < c.units ∧ c.units ≤ maxUshort) (hhole : t < hole ∨ hole = e)
    (hout : ∀ u, Start (pre ++ mid ++ post) u → u < p ∨ e ≤ u →
      blockSize m' u = blockSize m u ∧ blockTag m' u = blockTag m u)
    (hback : ∀ u, Start (pre ++ mid ++ post) u → u ≤ p ∨ e < u →
      previousSize m' u = previousSize m u)
    (hin : ∀ x c, segAt span mid' p x = some c → blockSize m' x = c.units ∧ blockTag m' x = c.tag ∧
      (x + c.span ≠ e → previousSize m' (x + c.span) = c.units)) :
    Heads m' t (pre ++ mid' ++ post) e := by
  -- A block of the new list is one of the old list, before or behind the run, or in the run.
  have hcases : ∀ x c, segAt span (pre ++ mid' ++ post) 0 x = some c →
      segAt span mid' p x = some c ∨
      segAt span (pre ++ mid ++ post) 0 x = some c ∧ (x + c.span ≤ p ∨ e ≤ x) := by
    intro x c hx
    have hrun := segAt_replaced span_pos htotal hx
    rw [Nat.zero_add, hp, he] at hrun
    exact hrun
  have hbound := h.total
  simp only [total_append] at hbound
  constructor
  case total =>
    rw [← h.total]
    simp only [total_append, htotal]
  case small => exact h.small
  case units =>
    obtain ⟨hleft, hright⟩ := forall_mem_append.1 h.units
    exact forall_mem_append.2
      ⟨forall_mem_append.2 ⟨(forall_mem_append.1 hleft).1, hunits⟩, hright⟩
  case block =>
    intro x c hx
    rcases hcases x c hx with hx | ⟨hx, hwhere⟩
    · exact ⟨(hin x c hx).1, (hin x c hx).2.1⟩
    have hc := span_pos c
    have hsame := hout x (.inr ⟨c, hx⟩) (by omega)
    rw [hsame.1, hsame.2]
    exact h.block x c hx
  case behind =>
    intro x c hx hne
    rcases hcases x c hx with hx | ⟨hx, hwhere⟩
    · exact (hin x c hx).2.2 hne
    have hend := (start_next hx).le
    simp only [total_append] at hend
    rw [hback _ (start_next hx) (by omega)]
    exact h.behind x c hx (by omega)
  case first =>
    rw [hback 0 (start_zero _) (.inl (Nat.zero_le _))]
    exact h.first
  case last =>
    have hsame := hout t (.inl h.total.symm) (.inr (by omega))
    rw [hsame.1, hsame.2]
    exact h.last

namespace Heads

variable (h : Heads m t l hole) (hx : segAt span l 0 x = some c) (hhole : hole = x + c.span)

include h hx hhole

theorem close (hprev : previousSize m hole = c.units) : Heads m t l (t + 1) where
  total := h.total
  small := h.small
  units := h.units
  block := h.block
  behind := fun y d hy _ => by
    have hc := span_pos c
    have hd := span_pos d
    by_cases hyx : y = x
    · grind
    · have hapart := segAt_disjoint span_pos hy hx hyx
      exact h.behind y d hy (by omega)
  first := h.first
  last := h.last

theorem fill : Heads (setPreviousSize m hole c.units) t l (t + 1) := by
  have hopen : Heads (setPreviousSize m hole c.units) t l hole :=
    { total := h.total
      small := h.small
      units := h.units
      block := fun y d hy => by
        rw [blockSize_setPreviousSize, blockTag_setPreviousSize]
        exact h.block y d hy
      behind := fun y d hy hne => by
        rw [(sameUnit_setPreviousSize hne).previousSize]
        exact h.behind y d hy hne
      first := by
        have hc := span_pos c
        rw [(sameUnit_setPreviousSize (by omega)).previousSize]
        exact h.first
      last := by
        rw [blockSize_setPreviousSize, blockTag_setPreviousSize]
        exact h.last }
  refine hopen.close hx hhole ?_
  have hlt := (h.units c (mem_of_segAt hx)).2
  rw [previousSize_setPreviousSize_self]
  exact Nat.mod_eq_of_lt (Nat.lt_of_le_of_lt hlt (by decide))

end Heads

theorem segAt_at (h : l = pre ++ c :: post) : segAt span l 0 (Tiling.total span pre) = some c := by
  simp [h, segAt_append span_pos, segAt]

theorem segAt_mid (pre : List Block) (c : Block) (post : List Block) :
    segAt span (pre ++ [c] ++ post) 0 (Tiling.total span pre) = some c :=
  segAt_at (append_assoc _ _ _)

theorem Heads.retag (h : Heads m t (pre ++ [c] ++ post) (t + 1)) {tag : Nat} (htag : tag < 2 ^ 32) :
    Heads (setBlockTag m (Tiling.total span pre) tag) t (pre ++ [⟨c.units, tag⟩] ++ post)
      (t + 1) := by
  have hc := segAt_mid pre c post
  have hpos := span_pos c
  have hopen : Heads (setBlockTag m (Tiling.total span pre) tag) t
      (pre ++ [⟨c.units, tag⟩] ++ post) (Tiling.total span pre + c.span) := by
    refine h.replace rfl (by simp) rfl (by omega) ?_ (.inl (by omega))
      (fun u _ hu => ?_) (fun u _ _ => ?_) fun x d hx => ?_
    · intro d hd
      rw [mem_singleton.1 hd]
      exact h.units c (mem_of_segAt hc)
    · rw [blockSize_setBlockTag, (sameUnit_setBlockTag (by omega)).blockTag]
      exact ⟨rfl, rfl⟩
    · rw [previousSize_setBlockTag]
    · obtain ⟨rfl, rfl⟩ := segAt_singleton.1 hx
      rw [blockSize_setBlockTag, blockTag_setBlockTag_self, Nat.mod_eq_of_lt htag]
      exact ⟨(h.block _ c hc).1, rfl, fun hne => absurd rfl hne⟩
  refine hopen.close (segAt_mid pre _ post) rfl ?_
  rw [previousSize_setBlockTag]
  exact h.behind _ c hc (by have hb := h.bound hc; omega)

end Headers

/-! ## Section 4: The free list -/

section FreeList

variable {m m' : Buf} {t x y : Nat} {r r₁ r₂ : List Nat}

theorem assert_of {p : Prop} [Decidable p] (dbg : Bool) (h : p) : assert dbg p = some () :=
  if_neg fun hc => hc.2 h

/-- Only links of the terminating block and of the given blocks have changed. -/
def LinksOnly (m m' : Buf) (t : Nat) (r : List Nat) : Prop :=
  ∀ u, (∀ y ∈ t :: r, u ≠ y + 1) → SameUnit m m' u

theorem frLdrHeapRemoveFreeList_spec (dbg : Bool)
    (hring : Ring (flink m) (blink m) t (r₁ ++ x :: r₂))
    (hnodup : (t :: (r₁ ++ x :: r₂)).Nodup)
    (htags : ∀ y ∈ t :: (r₁ ++ r₂), blockTag m y = 0 ∨ blockTag m y = tagEnd) :
    ∃ m', frLdrHeapRemoveFreeList dbg m x = some m' ∧ Ring (flink m') (blink m') t (r₁ ++ r₂) ∧
      LinksOnly m m' t (r₁ ++ r₂) := by
  obtain ⟨-, -, hback, hforth⟩ := hring.neighbours
  obtain ⟨hprev, hnext⟩ := hring.neighbours_mem
  have heq : frLdrHeapRemoveFreeList dbg m x =
      some (setFlink (setBlink m (flink m x) (blink m x)) (blink m x) (flink m x)) := by
    simp only [frLdrHeapRemoveFreeList, assert_of dbg (htags _ hnext), assert_of dbg hforth,
      assert_of dbg (htags _ hprev), assert_of dbg hback, bind, bind_some, pure]
  refine ⟨_, heq, hring.remove hnodup ?_ ?_ (fun y _ hy => ?_) fun y _ hy => ?_, fun u hu => ?_⟩
  · rw [flink_setFlink_self]
    exact Nat.mod_eq_of_lt (getU32_lt _ _)
  · rw [blink_setFlink, blink_setBlink_self]
    exact Nat.mod_eq_of_lt (getU32_lt _ _)
  · rw [(sameUnit_setFlink (by omega)).flink, flink_setBlink]
  · rw [blink_setFlink, (sameUnit_setBlink (by omega)).blink]
  · exact (sameUnit_setBlink (hu _ hnext)).trans (sameUnit_setFlink (hu _ hprev))

theorem exists_head (r : List Nat) (y : Nat) (q : List Nat) :
    ∃ w q', r ++ y :: q = w :: q' ∧ (r ++ y :: q).head? = some w := by
  cases r with
  | nil => exact ⟨y, q, rfl, rfl⟩
  | cons w r => exact ⟨w, r ++ y :: q, rfl, rfl⟩

theorem findNext_eq (hlinks : Links (flink m) (blink m) (r₁ ++ y :: r₂)) (hlow : ∀ z ∈ r₁, z < x)
    (hhigh : x ≤ y) {fuel : Nat} (hfuel : r₁.length < fuel) {start : Nat}
    (hstart : (r₁ ++ y :: r₂).head? = some start) : findNext m x fuel start = some y := by
  induction r₁ generalizing fuel start with
  | nil =>
    obtain _ | fuel := fuel
    · simp at hfuel
    rw [findNext, ← some.inj hstart, if_neg (by omega)]
  | cons z r₁ ih =>
    obtain _ | fuel := fuel
    · simp at hfuel
    have hz : z = start := some.inj hstart
    rw [findNext, ← hz, if_pos (hlow z mem_cons_self)]
    refine ih hlinks.tail (fun w hw => hlow w (mem_cons_of_mem _ hw)) (by simp at hfuel; omega) ?_
    obtain ⟨w, q, hq, hw⟩ := exists_head r₁ y r₂
    rw [Links, cons_append, hq] at hlinks
    rw [hw, (isChain_cons_cons.1 hlinks).1.1]

theorem frLdrHeapInsertFreeList_spec (dbg : Bool)
    (hring : Ring (flink m) (blink m) t (r₁ ++ r₂))
    (hnodup : (t :: (r₁ ++ r₂)).Nodup) (hsmall : t < 2 ^ 29) (hlow : ∀ y ∈ r₁, y < x)
    (hhigh : ∀ y ∈ r₂, x < y ∧ y < t) (hx : x < t) (hlen : r₁.length ≤ t) (htag : blockTag m x = 0) :
    ∃ m', frLdrHeapInsertFreeList dbg m t x = some m' ∧
      Ring (flink m') (blink m') t (r₁ ++ x :: r₂) ∧ LinksOnly m m' t (r₁ ++ x :: r₂) := by
  obtain ⟨y, q, hq, hy⟩ := exists_head r₂ t []
  have hymem : y ∈ r₂ ∨ y = t := by
    rcases mem_append.1 (mem_of_head? hy) with hmem | hmem
    · exact .inl hmem
    · exact .inr (mem_singleton.1 hmem)
  have hxy : x < y ∧ y ≤ t := by grind
  -- The node before the place is the head of the ring or a member.
  obtain ⟨a, ha⟩ : ∃ a, (t :: r₁).getLast? = some a := by
    rw [← isSome_iff_exists]
    simp
  obtain ⟨-, ⟨hay, hya⟩, -⟩ := (ring_split ha hy).1 hring
  have hamem : a ∈ t :: r₁ := mem_of_getLast? ha
  have hapart : ∀ b ∈ t :: (r₁ ++ r₂), b ≠ x := by grind
  have hane : a ≠ x := hapart a (cons_subset_cons t (subset_append_left r₁ r₂) hamem)
  have hfind : findNext m x (t + 1) (flink m t) = some y := by
    obtain ⟨w, q', hq', hw⟩ := exists_head r₁ y q
    have hchain : Links (flink m) (blink m) (t :: (r₁ ++ y :: q)) := by
      rw [← hq, ← append_assoc]
      exact hring
    refine findNext_eq (List.IsChain.tail hchain) hlow hxy.1.le (by omega) ?_
    rw [hq', Links] at hchain
    rw [hw, (isChain_cons_cons.1 hchain).1.1]
  have hyt : y < 2 ^ 32 := by omega
  have hxt : x < 2 ^ 32 := by omega
  -- The link from the new node back is the one that its successor had.
  have hblink : blink (setBlink (setBlink (setFlink m x y) x (blink (setFlink m x y) y)) y x) x = a := by
    rw [(sameUnit_setBlink (by omega)).blink, blink_setBlink_self, blink_setFlink,
      blink, Nat.mod_eq_of_lt (getU32_lt _ _), ← blink, hya]
  have heq : frLdrHeapInsertFreeList dbg m t x = some (setFlink
      (setBlink (setBlink (setFlink m x y) x (blink (setFlink m x y) y)) y x) a x) := by
    simp only [frLdrHeapInsertFreeList, assert_of dbg htag, hfind, bind, bind_some, pure, hblink]
  refine ⟨_, heq, ?_, fun u hu => ?_⟩
  · refine hring.insert hnodup hy ?_ ?_ ?_ ?_ (fun b hb hne => ?_) fun b hb hne => ?_
    · rw [(sameUnit_setFlink (by omega)).flink, flink_setBlink, flink_setBlink, flink_setFlink_self]
      exact Nat.mod_eq_of_lt hyt
    · rw [blink_setFlink, hblink, hya]
    · rw [hya, flink_setFlink_self]
      exact Nat.mod_eq_of_lt hxt
    · rw [blink_setFlink, blink_setBlink_self]
      exact Nat.mod_eq_of_lt hxt
    · have hbx := hapart b hb
      rw [(sameUnit_setFlink (by omega)).flink, flink_setBlink, flink_setBlink,
        (sameUnit_setFlink (by omega)).flink]
    · have hbx := hapart b hb
      rw [blink_setFlink, (sameUnit_setBlink (by omega)).blink, (sameUnit_setBlink (by omega)).blink,
        blink_setFlink]
  · have hux : u ≠ x + 1 := hu x (by simp)
    have huy : u ≠ y + 1 := hu y (by
      rcases hymem with hmem | hmem
      · simp [hmem]
      · simp [hmem])
    have hua : u ≠ a + 1 := hu a (by
      rcases mem_cons.1 hamem with hmem | hmem
      · simp [hmem]
      · simp [hmem])
    exact (((sameUnit_setFlink hux).trans (sameUnit_setBlink hux)).trans (sameUnit_setBlink huy)).trans
      (sameUnit_setFlink hua)

end FreeList

end FreeLdr
