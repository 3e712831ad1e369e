import ReactOS.FreeLdr.Calls

/-! # Runs of the boot loader heap

    What holds of the heap after every call, for any order of allocations, releases and stores of the
    client into its allocations.

    - Section 1: `FrLdrHeapCreate` makes a layout of free blocks.
    - Section 2: an allocation in memory, between its redzones.
    - Section 3: the invariant, and the calls.
    - Section 4: the result. -/

namespace FreeLdr

open Bytes Tiling LinkRing Transition Option
open Block (span)
open List hiding span

/-! ## Section 1: Making a heap -/

variable {l : List Block}

section Create

/-- The blocks that the loop has made from an index on, up to `t`; `last` is the size of the last one,
    whose successor is still to be linked. -/
structure Made (m : Buf) (o t previous last : Nat) (l : List Block) : Prop where
  total : o + total Block.span l = t
  free : ∀ c ∈ l, c.tag = 0
  units : ∀ c ∈ l, 0 < c.units ∧ c.units ≤ maxUshort
  header : ∀ x c, segAt Block.span l o x = some c → blockSize m x = c.units ∧ blockTag m x = 0
  behind : ∀ x c, segAt Block.span l o x = some c → x + c.span ≠ t →
    previousSize m (x + c.span) = c.units
  final : ∀ x c, segAt Block.span l o x = some c → x + c.span = t → c.units = last
  first : l ≠ [] → previousSize m o = previous ∧ blink m o = (o + 2 ^ 32 - 1 - previous) % 2 ^ 32
  links : (frees l o ++ [t]).IsChain fun a b =>
    flink m a = b ∧ (b = t → a + last + 1 = t) ∧ (b ≠ t → blink m b = a)

theorem Made.nil (m : Buf) (o previous : Nat) : Made m o o previous previous [] where
  total := rfl
  free := forall_mem_nil _
  units := forall_mem_nil _
  header := fun _ c hx => absurd hx (some_ne_none c).symm
  behind := fun _ c hx => absurd hx (some_ne_none c).symm
  final := fun _ c hx => absurd hx (some_ne_none c).symm
  first := fun h => absurd rfl h
  links := isChain_singleton o

theorem frees_head (hfree : ∀ c ∈ l, c.tag = 0) (o : Nat) :
    (frees l o ++ [o + total span l]).head? = some o := by
  cases l with
  | nil => simp [frees, total]
  | cons c l =>
    rw [frees, if_pos (hfree c mem_cons_self)]
    rfl

/-- `m'` is `m` with the header and the links of block `b` written. -/
structure Written (m m' : Buf) (b size previous tag next back : Nat) : Prop where
  size : blockSize m' b = size % 2 ^ 16
  previous : previousSize m' b = previous % 2 ^ 16
  tag : blockTag m' b = tag % 2 ^ 32
  next : flink m' b = next % 2 ^ 32
  back : blink m' b = back % 2 ^ 32
  same : ∀ u, u ≠ b → u ≠ b + 1 → SameUnit m m' u

theorem written (m : Buf) (b size previous tag next back : Nat) :
    Written m (setBlink (setFlink (setBlockTag (setPreviousSize (setBlockSize m b size) b previous) b
      tag) b next) b back) b size previous tag next back where
  size := by
    rw [(sameUnit_setBlink (by omega)).blockSize, (sameUnit_setFlink (by omega)).blockSize,
      blockSize_setBlockTag, blockSize_setPreviousSize, blockSize_setBlockSize_self]
  previous := by
    rw [(sameUnit_setBlink (by omega)).previousSize, (sameUnit_setFlink (by omega)).previousSize,
      previousSize_setBlockTag, previousSize_setPreviousSize_self]
  tag := by
    rw [(sameUnit_setBlink (by omega)).blockTag, (sameUnit_setFlink (by omega)).blockTag,
      blockTag_setBlockTag_self]
  next := by rw [flink_setBlink, flink_setFlink_self]
  back := blink_setBlink_self
  same := fun u hu hu' => ((((sameUnit_setBlockSize hu).trans (sameUnit_setPreviousSize hu)).trans
    (sameUnit_setBlockTag hu)).trans (sameUnit_setFlink hu')).trans (sameUnit_setBlink hu')

theorem createBlocks_spec (fuel : Nat) (m : Buf) (block previous remaining : Nat)
    (hfuel : remaining ≤ fuel) (hblock : block + remaining < 2 ^ 29) (hprevious : previous ≤ maxUshort) :
    ∃ m' t last l, createBlocks fuel m block previous remaining = (m', t, last) ∧
      Made m' block t previous last l ∧ t ≤ block + remaining ∧ (l = [] → remaining ≤ 1) ∧
      (l = [] → last = previous) ∧ last ≤ maxUshort ∧ ∀ u, u < block → SameUnit m m' u := by
  induction fuel generalizing m block previous remaining with
  | zero =>
    exact ⟨m, block, previous, [], rfl, .nil m block previous, by omega, fun _ => by omega, fun _ => rfl,
      hprevious, fun u _ => .refl m u⟩
  | succ fuel ih =>
    rw [createBlocks]
    by_cases hmore : 1 < remaining
    · rw [if_pos hmore]
      obtain ⟨size, hsize⟩ : ∃ size, size = min maxUshort (remaining - 1) := ⟨_, rfl⟩
      have hmax : maxUshort = 65535 := rfl
      obtain ⟨hsize_pos, hsize_le, hsize_rem⟩ :
          0 < size ∧ size ≤ maxUshort ∧ size ≤ remaining - 1 := by omega
      have hw := written m block size previous 0 (block + size + 1) (block + 2 ^ 32 - 1 - previous)
      generalize hm1 : setBlink _ _ _ = m1 at hw
      obtain ⟨m', t, last, l, heq, hmade, hle, -, hlast, hlast_le, hsame⟩ :=
        ih m1 (block + size + 1) size (remaining - (size + 1)) (by omega) (by omega) hsize_le
      -- The header and the links of this block are not touched by the rest of the loop.
      have hunit := hsame block (by omega)
      have hunit' := hsame (block + 1) (by omega)
      have hblockSize : blockSize m' block = size := by
        rw [hunit.blockSize, hw.size]
        exact Nat.mod_eq_of_lt (by omega)
      have hblockTag : blockTag m' block = 0 := by
        exact hunit.blockTag.trans hw.tag
      have hprev : previousSize m' block = previous := by
        rw [hunit.previousSize, hw.previous]
        exact Nat.mod_eq_of_lt (by omega)
      have hflink : flink m' block = block + size + 1 := by
        rw [hunit'.flink, hw.next]
        exact Nat.mod_eq_of_lt (by omega)
      have hblink : blink m' block = (block + 2 ^ 32 - 1 - previous) % 2 ^ 32 := by
        rw [hunit'.blink, hw.back]
      have hspan : span ⟨size, 0⟩ = size + 1 := rfl
      have hnext : block + (size + 1) = block + size + 1 := rfl
      have htail : t = block + size + 1 ↔ l = [] := by
        have ht := hmade.total
        have hlen := length_le_total l
        constructor
        · intro h
          exact length_eq_zero_iff.1 (by omega)
        · intro h
          rw [h] at ht
          exact ht.symm
      dsimp only
      rw [← hsize, hm1]
      refine ⟨m', t, last, ⟨size, 0⟩ :: l, heq, ?_, by omega, fun h => absurd h (cons_ne_nil _ _),
        fun h => absurd h (cons_ne_nil _ _), hlast_le, fun u hu => ?_⟩
      · constructor
        case total =>
          have ht := hmade.total
          simp only [Tiling.total, map_cons, sum_cons] at ht ⊢
          rw [hspan]
          omega
        case free => exact forall_mem_cons.2 ⟨rfl, hmade.free⟩
        case units => exact forall_mem_cons.2 ⟨⟨hsize_pos, hsize_le⟩, hmade.units⟩
        case header =>
          intro x c hx
          rcases segAt_cons hx with ⟨hxb, hc⟩ | hx
          · rw [hxb, hc]
            exact ⟨hblockSize, hblockTag⟩
          · exact hmade.header x c hx
        case behind =>
          intro x c hx hne
          rcases segAt_cons hx with ⟨hxb, hc⟩ | hx
          · rw [hxb, hc, hspan, hnext] at hne ⊢
            exact (hmade.first fun hnil => hne (htail.2 hnil).symm).1
          · exact hmade.behind x c hx hne
        case final =>
          intro x c hx hend
          rcases segAt_cons hx with ⟨hxb, hc⟩ | hx
          · grind
          · exact hmade.final x c hx hend
        case first => exact fun _ => ⟨hprev, hblink⟩
        case links =>
          rw [frees, if_pos rfl, hspan, cons_append, isChain_cons]
          refine ⟨fun b hb => ?_, hmade.links⟩
          have hhead := frees_head hmade.free (block + size + 1)
          rw [hmade.total] at hhead
          rw [mem_def, hnext, hhead] at hb
          have hb' : block + size + 1 = b := some.inj hb
          rw [← hb']
          refine ⟨hflink, fun hend => ?_, fun hne => ?_⟩
          · rw [hlast (htail.1 hend.symm)]
            exact hend
          · rw [(hmade.first fun hnil => hne (htail.2 hnil).symm).2]
            omega
      · exact (hw.same u (by omega) (by omega)).trans (hsame u (by omega))
    · rw [if_neg hmore]
      exact ⟨m, block, previous, [], rfl, .nil m block previous, by omega, fun _ => by omega, fun _ => rfl,
        hprevious, fun u _ => .refl m u⟩

/-- The terminating block `t` is written, and the first block gets a link back to it. -/
structure Closed (m m' : Buf) (t last : Nat) : Prop where
  head : blockSize m' t = 0 ∧ blockTag m' t = tagEnd
  previous : previousSize m' t = last
  next : flink m' t = 0
  back : blink m' t = (t + 2 ^ 32 - 1 - last) % 2 ^ 32
  first : blink m' 0 = t
  same : ∀ u, u ≠ 1 → u < t → SameUnit m m' u
  flink : ∀ b, b + 1 < t → flink m' b = flink m b

theorem closed {m : Buf} {t last : Nat} (htwo : 2 ≤ t) (htop : t < 2 ^ 29)
    (hlast : last ≤ maxUshort) :
    Closed m (setBlink (setBlink (setFlink (setBlockTag (setPreviousSize (setBlockSize m t 0) t last)
      t tagEnd) t 0) t (t + 2 ^ 32 - 1 - last)) 0 t) t last := by
  have hw := written m t 0 last tagEnd 0 (t + 2 ^ 32 - 1 - last)
  generalize setBlink _ t _ = m1 at hw ⊢
  have hunit : SameUnit m1 (setBlink m1 0 t) t := sameUnit_setBlink (by omega)
  constructor
  case head => exact ⟨hunit.blockSize.trans hw.size, hunit.blockTag.trans hw.tag⟩
  case previous =>
    rw [hunit.previousSize, hw.previous]
    exact Nat.mod_eq_of_lt (Nat.lt_of_le_of_lt hlast (by decide))
  case next => exact (flink_setBlink ..).trans hw.next
  case back => exact (sameUnit_setBlink (by omega)).blink.trans hw.back
  case first =>
    rw [blink_setBlink_self]
    exact Nat.mod_eq_of_lt (by omega)
  case same =>
    exact fun u hu hut => (hw.same u (by omega) (by omega)).trans (sameUnit_setBlink (by omega))
  case flink =>
    intro b hbt
    rw [flink_setBlink, (hw.same _ (by omega) (by omega)).flink]

section Layout

variable {m m' : Buf} {t last : Nat} (hmade : Made m 0 t 0 last l)

include hmade

theorem Made.inside {b : Nat} (hb : b ∈ frees l 0) : b + 1 < t := by
  have ht := hmade.total
  obtain ⟨c, hc, -⟩ := mem_frees.1 hb
  have hbound := segAt_bounds hc
  have hunits := (hmade.units c (mem_of_segAt hc)).1
  rw [span] at hbound
  omega

variable (hl : l ≠ [])

include hl

theorem Made.two_le : 2 ≤ t ∧ ∀ u, Start l u → u ≠ 1 := by
  have ht := hmade.total
  obtain ⟨c, l', hcons⟩ := exists_cons_of_ne_nil hl
  have hzero : segAt span l 0 0 = some c := by
    rw [hcons]
    exact if_pos rfl
  have hunits := (hmade.units c (mem_of_segAt hzero)).1
  constructor
  · have hbound := segAt_bounds hzero
    rw [span] at hbound
    omega
  · intro u hu
    have hout := hu.outside hzero
    rw [span] at hout
    omega

variable (hc : Closed m m' t last)

include hc

theorem Closed.heads (htop : t < 2 ^ 29) : Heads m' t l (t + 1) := by
  have ht := hmade.total
  rw [Nat.zero_add] at ht
  obtain ⟨htwo, hstart⟩ := hmade.two_le hl
  constructor
  case total => exact ht
  case small => exact htop
  case units => exact hmade.units
  case block =>
    intro x c hx
    have hbound := segAt_bounds hx
    have hpos := span_pos c
    have hunit := hc.same x (hstart x (.inr ⟨c, hx⟩)) (by omega)
    rw [hunit.blockSize, hunit.blockTag, (hmade.header x c hx).1, (hmade.header x c hx).2,
      hmade.free c (mem_of_segAt hx)]
    exact ⟨rfl, rfl⟩
  case behind =>
    intro x c hx _
    by_cases hend : x + c.span = t
    · rw [hend, hc.previous, hmade.final x c hx hend]
    · have hbound := segAt_bounds hx
      rw [(hc.same _ (hstart _ (start_next hx)) (by omega)).previousSize]
      exact hmade.behind x c hx hend
  case first =>
    rw [(hc.same 0 (by omega) (by omega)).previousSize]
    exact (hmade.first hl).1
  case last => exact hc.head

/-- The ring: from the terminating block to the first, and along the blocks that were made. -/
theorem Closed.ring (htop : t < 2 ^ 29) :
    Links (FreeLdr.flink m') (blink m') (t :: frees l 0 ++ [t]) := by
  have hhead : (frees l 0 ++ [t]).head? = some 0 := by
    have hfirst := frees_head hmade.free 0
    rwa [hmade.total] at hfirst
  rw [Links, cons_append, isChain_cons]
  constructor
  · intro b hb
    rw [mem_def, hhead] at hb
    rw [← some.inj hb]
    exact ⟨hc.next, hc.first⟩
  rw [isChain_iff_forall_rel_of_append_cons_cons]
  intro a b l1 l2 hsplit
  obtain ⟨hnext, hlink, hback⟩ :=
    (isChain_iff_forall_rel_of_append_cons_cons.1 hmade.links) hsplit
  -- `a` is a block, and `b` is not the first one
  have hab : [a, b] <:+: frees l 0 ++ [t] := ⟨l1, l2, by rw [hsplit]; simp⟩
  have hring : (frees l 0 ++ [t]).Nodup :=
    (perm_append_singleton t _).nodup_iff.2 (hc.heads hmade hl htop).ring_nodup
  have hmem : ∀ u ∈ frees l 0 ++ [t], u ≠ t → u ∈ frees l 0 := fun u hu hut =>
    (mem_append.1 hu).resolve_right fun hu => hut (mem_singleton.1 hu)
  have hat : a ≠ t := (ne_ends hring hab).1 (by simp)
  have hb0 : b ≠ 0 := (ne_ends hring hab).2 hhead
  constructor
  · rw [hc.flink a (hmade.inside (hmem a (hab.subset mem_cons_self) hat))]
    exact hnext
  by_cases hbt : b = t
  · rw [hbt, hc.back]
    omega
  have hbound := hmade.inside (hmem b (hab.subset (by simp)) hbt)
  rw [(hc.same (b + 1) (by omega) hbound).blink]
  exact hback hbt

end Layout

/-- The heap that is made has a layout of free blocks, which fits into the memory. -/
theorem frLdrHeapCreate_spec {maximumSize : Nat} (hsize : alignUp maximumSize ≠ 0) (mem : Buf) :
    ∃ l, Rep (frLdrHeapCreate maximumSize mem).mem
        (frLdrHeapCreate maximumSize mem).terminatingBlock l ∧ (∀ c ∈ l, c.tag = 0) ∧
      8 * ((frLdrHeapCreate maximumSize mem).terminatingBlock + 2) + sizeofHeap ≤
        (frLdrHeapCreate maximumSize mem).maximumSize ∧
      (frLdrHeapCreate maximumSize mem).maximumSize < 2 ^ 32 := by
  obtain ⟨total, htotal⟩ : ∃ n, n = alignUp maximumSize := ⟨_, rfl⟩
  have hpage : 4096 ≤ total ∧ total < 2 ^ 32 := by
    have hlt : sizeT (maximumSize + (mmPageSize - 1)) < 2 ^ 32 := Nat.mod_lt _ (by decide)
    rw [← htotal] at hsize
    rw [alignUp, mmPageSize] at htotal
    rw [mmPageSize] at hlt
    omega
  obtain ⟨remaining, hremaining⟩ : ∃ n, n = (total - sizeofHeap) / sizeofHeapBlock - 2 := ⟨_, rfl⟩
  have hrem : 1 < remaining ∧ 8 * (remaining + 2) + sizeofHeap ≤ total := by
    rw [sizeofHeap, sizeofHeapBlock] at hremaining
    rw [sizeofHeap]
    omega
  obtain ⟨m, t, last, l, heq, hmade, hle, hmore, -, hlast, -⟩ :=
    createBlocks_spec remaining mem 0 0 remaining (Nat.le_refl _) (by omega) (Nat.zero_le _)
  have hl : l ≠ [] := fun hnil => by
    have hone := hmore hnil
    omega
  have htop : t < 2 ^ 29 := by omega
  have hclosed := closed (m := m) (hmade.two_le hl).1 htop hlast
  simp only [frLdrHeapCreate, ← htotal, ← hremaining, heq]
  exact ⟨l, ⟨hclosed.heads hmade hl htop, hclosed.ring hmade hl htop⟩, hmade.free, by omega,
    hpage.2⟩

end Create

/-! ## Section 2: An allocation in memory -/

/-- The data of block `x` holds an allocation: its size, the redzones and the content between them. -/
structure Holds (m : Buf) (x : Nat) (a : Allocation) : Prop where
  size : redzoneSize m x = a.size
  low : ∀ k, k < 8 → m (8 * x + 16 + k) = redzoneByte
  high : ∀ k, k < 8 → m (8 * x + 24 + a.size + k) = redzoneByte
  content : ∀ k, k < a.size → m (8 * x + 24 + k) = a.content k

section Redzones

variable {m m' : Buf} {x n o : Nat} {a : Allocation}

theorem byte_of_units (h : ∀ u, x < u → u ≤ x + n → SameUnit m m' u) {k : Nat}
    (hlow : 8 * x + 8 ≤ k) (hhigh : k < 8 * x + 8 + 8 * n) : m' k = m k := by
  have hunit := h (k / 8) (by omega) (by omega) (k % 8) (by omega)
  rw [Nat.div_add_mod] at hunit
  exact hunit

theorem Holds.congr (h : Holds m x a) (hfit : a.size + 24 ≤ 8 * n)
    (hsame : ∀ u, x < u → u ≤ x + n → SameUnit m m' u) : Holds m' x a where
  size := by
    have hlo : getU32 m' (8 * x + 8) = getU32 m (8 * x + 8) :=
      getU32_congr fun i hi => byte_of_units hsame (by omega) (by omega)
    have hhi : getU32 m' (8 * x + 12) = getU32 m (8 * x + 12) :=
      getU32_congr fun i hi => byte_of_units hsame (by omega) (by omega)
    rw [redzoneSize, hlo, hhi]
    exact h.size
  low := fun k hk => by
    rw [byte_of_units hsame (by omega) (by omega)]
    exact h.low k hk
  high := fun k hk => by
    rw [byte_of_units hsame (by omega) (by omega)]
    exact h.high k hk
  content := fun k hk => by
    rw [byte_of_units hsame (by omega) (by omega)]
    exact h.content k hk

theorem sizeT_of_lt (h : n < 2 ^ 32) : sizeT n = n := Nat.mod_eq_of_lt h

theorem mark_eq (ho : o + 8 ≤ 2 ^ 32) : mark m o = overlay m o 8 fun _ => redzoneByte := by
  funext k
  rw [mark, overlay, sizeT_of_lt (by omega : o < 2 ^ 32)]
  have hiff : (k < 2 ^ 32 ∧ sizeT (k + 2 ^ 32 - o) < 8) ↔ (o ≤ k ∧ k < o + 8) := by
    rw [sizeT]
    omega
  simp only [hiff]

theorem marked_of (ho : o + 8 ≤ 2 ^ 32) (h : ∀ k, k < 8 → m (o + k) = redzoneByte) :
    marked m o = true := by
  rw [marked, List.all_eq_true]
  intro k hk
  have hlt := mem_range.1 hk
  rw [sizeT_of_lt (by omega), h k hlt]
  exact beq_self_eq_true _

theorem Holds.checkRedzones (h : Holds m x a) (dbg : Bool) (hfit : a.size + 24 ≤ 8 * blockSize m x)
    (hlt : 8 * x + 8 + 8 * blockSize m x ≤ 2 ^ 32) : checkRedzones dbg m x = some () := by
  have hhi : redzoneHi m x = 8 * x + 24 + a.size := by
    rw [redzoneHi, h.size, sizeT_of_lt (by omega)]
  have hsize : redzoneSize m x ≤ blockSize m x * sizeofHeapBlock := by
    rw [h.size, sizeofHeapBlock]
    omega
  have hlow := marked_of (by omega) h.low
  have hhigh := marked_of (by omega) h.high
  rw [← hhi] at hhigh
  simp only [FreeLdr.checkRedzones, assert_of dbg hsize, assert_of dbg hlow, assert_of dbg hhigh, bind,
    bind_some]

theorem holds_new {size : Nat} (tag : Nat) (hfit : size + 24 ≤ 8 * n)
    (hlt : 8 * x + 8 + 8 * n ≤ 2 ^ 32) :
    Holds (writeRedzones (overlay m (8 * x + 8) (n * 8) zeroBuf) x size) x ⟨size, tag, zeroBuf⟩ ∧
      ∀ u, u ≤ x ∨ x + n + 1 ≤ u →
        SameUnit m (writeRedzones (overlay m (8 * x + 8) (n * 8) zeroBuf) x size) u := by
  obtain ⟨m0, hm0⟩ : ∃ m0, m0 = overlay m (8 * x + 8) (n * 8) zeroBuf := ⟨_, rfl⟩
  obtain ⟨m1, hm1⟩ : ∃ m1, m1 = putU32 (putU32 m0 (8 * x + 8) size) (8 * x + 12) 0 := ⟨_, rfl⟩
  obtain ⟨m2, hm2⟩ : ∃ m2, m2 = overlay m1 (8 * x + 16) 8 fun _ => redzoneByte := ⟨_, rfl⟩
  obtain ⟨m3, hm3⟩ : ∃ m3, m3 = overlay m2 (8 * x + 24 + size) 8 fun _ => redzoneByte := ⟨_, rfl⟩
  have hlo1 : getU32 m1 (8 * x + 8) = size := by
    rw [hm1, getU32_putU32_ne (by omega), getU32_putU32_self]
    exact Nat.mod_eq_of_lt (by omega)
  have hhi1 : getU32 m1 (8 * x + 12) = 0 := by
    rw [hm1, getU32_putU32_self, Nat.zero_mod]
  have hsize2 : redzoneSize m2 x = size := by
    rw [redzoneSize, hm2, getU32_overlay_out (by omega), getU32_overlay_out (by omega), hlo1, hhi1]
    rfl
  have hmark : mark m1 (8 * x + 16) = m2 := by
    rw [hm2, mark_eq (by omega)]
  have heq : writeRedzones m0 x size = m3 := by
    rw [writeRedzones, ← hm1, hmark, redzoneHi, hsize2, sizeT_of_lt (by omega), mark_eq (by omega), hm3]
  have hbyte : ∀ k, k < 8 * x + 8 ∨ 8 * x + 8 + 8 * n ≤ k → m3 k = m k := by
    intro k hk
    rw [hm3, overlay_out (by omega), hm2, overlay_out (by omega), hm1, putU32_out (by omega),
      putU32_out (by omega), hm0, overlay_out (by omega)]
  rw [← hm0, heq]
  refine ⟨⟨?_, fun k hk => ?_, fun k hk => ?_, fun k hk => ?_⟩, fun u hu i hi => hbyte _ (by omega)⟩
  · rw [redzoneSize, hm3, getU32_overlay_out (by omega), getU32_overlay_out (by omega)]
    exact hsize2
  · rw [hm3, overlay_out (by omega), hm2, overlay_in (by omega) (by omega)]
  · dsimp only
    rw [hm3, overlay_in (by omega) (by omega)]
  · dsimp only at hk ⊢
    rw [hm3, overlay_out (by omega), hm2, overlay_out (by omega), hm1, putU32_out (by omega),
      putU32_out (by omega), hm0, overlay_in (by omega) (by omega)]
    rfl

theorem Holds.write (h : Holds m x a) {offset : Nat} (hoffset : offset < a.size) (value : UInt8) :
    Holds (overlay m (8 * x + 24 + offset) 1 fun _ => value) x
      { a with content := overlay a.content offset 1 fun _ => value } where
  size := by
    rw [redzoneSize, getU32_overlay_out (by omega), getU32_overlay_out (by omega)]
    exact h.size
  low := fun k hk => by
    rw [overlay_out (by omega)]
    exact h.low k hk
  high := fun k hk => by
    dsimp only
    rw [overlay_out (by omega)]
    exact h.high k hk
  content := fun k hk => by
    dsimp only at hk ⊢
    by_cases heq : k = offset
    · rw [heq, overlay_in (by omega) (by omega), overlay_in (by omega) (by omega)]
    · rw [overlay_out (by omega), overlay_out (by omega)]
      exact h.content k hk

end Redzones

/-! ## Section 3: The calls -/

/-- The invariant of the runs, for the list of blocks of the heap: the blocks that are not free are
    the live allocations. -/
structure HeapState.Inv (s : HeapState) (l : List Block) : Prop where
  rep : Rep s.heap.mem s.heap.terminatingBlock l
  room : 8 * (s.heap.terminatingBlock + 2) + sizeofHeap ≤ s.heap.maximumSize
  word : s.heap.maximumSize < 2 ^ 32
  live : ∀ p a, s.live p = some a → ∃ x c, p = 8 * x + 24 ∧ segAt Block.span l 0 x = some c ∧
    c.tag ≠ 0 ∧ c.tag = a.tag ∧ a.size + 24 ≤ 8 * c.units ∧ Holds s.heap.mem x a
  used : ∀ x c, segAt Block.span l 0 x = some c → c.tag ≠ 0 → ∃ a, s.live (8 * x + 24) = some a

section Calls

variable {s : HeapState} {l pre mid mid' post : List Block} {c : Block} {x y : Nat}
variable {m : Buf} {tag : Nat}

theorem HeapState.Inv.bound (h : s.Inv l) (hx : segAt span l 0 x = some c) :
    8 * (x + c.span) + 16 + sizeofHeap ≤ s.heap.maximumSize ∧
      8 * (x + c.span) + 16 + sizeofHeap < 2 ^ 32 := by
  have hb := h.rep.heads.bound hx
  have hroom := h.room
  have hword := h.word
  omega

theorem HeapState.Inv.checkRedzones (h : s.Inv l) (dbg : Bool) (hx : segAt span l 0 x = some c)
    (hc : c.tag ≠ 0) : checkRedzones dbg s.heap.mem x = some () := by
  obtain ⟨a, ha⟩ := h.used x c hx hc
  obtain ⟨y, d, hp, hy, -, -, hfit, hholds⟩ := h.live _ a ha
  obtain rfl : y = x := by omega
  rw [hx] at hy
  obtain rfl := some.inj hy
  have hbound := (h.bound hx).2
  have hsize := (h.rep.heads.block _ _ hx).1
  rw [span] at hbound
  exact hholds.checkRedzones dbg (by rw [hsize]; exact hfit) (by rw [hsize]; omega)

theorem verifyFrom_eq (pre : List Block) (h : s.Inv (pre ++ post)) (dbg : Bool) {fuel : Nat}
    (hfuel : post.length < fuel) : verifyFrom dbg s.heap.mem fuel (total span pre) = some () := by
  induction post generalizing pre fuel with
  | nil =>
    obtain _ | fuel := fuel
    · simp at hfuel
    have ht := h.rep.heads.total
    rw [append_nil] at ht
    rw [verifyFrom, ht, h.rep.heads.last.1, if_pos rfl]
  | cons c post ih =>
    obtain _ | fuel := fuel
    · simp at hfuel
    have hx := segAt_at (l := pre ++ c :: post) rfl
    obtain ⟨hsize, htag⟩ := h.rep.heads.block _ _ hx
    have hunits := (h.rep.heads.units c (mem_of_segAt hx)).1
    have hnext : total span pre + 1 + c.units = total span (pre ++ [c]) := by
      rw [total_append, total_single, span]
      omega
    have hrest : verifyFrom dbg s.heap.mem fuel (total span (pre ++ [c])) = some () := by
      refine ih _ ?_ (by simp at hfuel; omega)
      rw [append_assoc, singleton_append]
      exact h
    rw [verifyFrom, hsize, htag, hnext, if_neg (by omega)]
    by_cases hc : c.tag = 0
    · rw [if_pos hc]
      exact hrest
    · rw [if_neg hc, h.checkRedzones dbg hx hc, bind_some]
      exact hrest

theorem HeapState.Inv.verify (h : s.Inv l) (dbg : Bool) : frLdrHeapVerify dbg s.heap = some () := by
  refine verifyFrom_eq [] h dbg ?_
  have hlen := length_le_total l
  have ht := h.rep.heads.total
  omega

/-- The search ends at a free block that is large enough, or there is none. -/
theorem findBlock_spec {t hole : Nat} (h : Heads m t l hole) (dbg : Bool) (size : Nat)
    {r : List Nat} (hlinks : Links (flink m) (blink m) (r ++ [t])) (hr : ∀ y ∈ r, y ∈ frees l 0)
    {fuel : Nat} (hfuel : r.length < fuel) {start : Nat} (hstart : (r ++ [t]).head? = some start) :
    findBlock dbg m size fuel start = some none ∨
      ∃ x ∈ r, findBlock dbg m size fuel start = some (some x) ∧ size ≤ blockSize m x := by
  induction r generalizing fuel start with
  | nil =>
    obtain _ | fuel := fuel
    · simp at hfuel
    rw [findBlock, ← some.inj hstart, h.last.1, if_pos rfl]
    exact .inl rfl
  | cons z r ih =>
    obtain _ | fuel := fuel
    · simp at hfuel
    have hz : z = start := some.inj hstart
    obtain ⟨c, hc, htag⟩ := mem_frees.1 (hr z mem_cons_self)
    obtain ⟨hsize, hblockTag⟩ := h.block z c hc
    have hunits := (h.units c (mem_of_segAt hc)).1
    rw [findBlock, ← hz, if_neg (by omega), assert_of dbg (hblockTag.trans htag), bind_some]
    by_cases hlt : blockSize m z < size
    · rw [if_pos hlt]
      have hlinks' := hlinks.tail
      obtain ⟨w, q, hq, hw⟩ := exists_head r t []
      rw [Links, cons_append, hq] at hlinks
      rw [(isChain_cons_cons.1 hlinks).1.1]
      rcases ih hlinks' (fun y hy => hr y (mem_cons_of_mem _ hy)) (by simp at hfuel; omega) hw with
        hnone | ⟨x, hx, hfound, hle⟩
      · exact .inl hnone
      · exact .inr ⟨x, mem_cons_of_mem _ hx, hfound, hle⟩
    · rw [if_neg hlt]
      exact .inr ⟨z, mem_cons_self, rfl, by omega⟩

/-- A block in use keeps its place when a run of blocks is replaced, if it is not the one of the run. -/
theorem segAt_swap (htotal : total span mid' = total span mid)
    (hmid : ∀ z d, segAt span mid (total span pre) z = some d → d.tag ≠ 0 → z = x)
    (h : segAt span (pre ++ mid ++ post) 0 y = some c) (hc : c.tag ≠ 0) (hy : y ≠ x) :
    segAt span (pre ++ mid' ++ post) 0 y = some c := by
  have hrun := segAt_replaced span_pos htotal.symm h
  rw [Nat.zero_add] at hrun
  rcases hrun with hrun | hrun
  · exact absurd (hmid y c hrun hc) hy
  · exact hrun.1

theorem Touches.other {m' : Buf} {t hole a b : Nat} (h : Touches m m' t l a b)
    (hheads : Heads m t l hole) (hy : segAt span l 0 y = some c) (hc : c.tag ≠ 0)
    (hapart : y + c.units < a ∨ b < y + 1) {u : Nat} (hu : y < u) (hu' : u ≤ y + c.units) :
    SameUnit m m' u := by
  refine h u (fun hs => ?_) (fun z hz => ?_) (by omega)
  · have hout := hs.outside hy
    rw [span] at hout
    omega
  · have hout := hheads.link_outside hy hc hz
    rw [span] at hout
    omega

theorem splitList_head {n size : Nat} (tag : Nat) (h : size ≤ n) :
    ∃ k rest, splitList n size tag = ⟨k, tag⟩ :: rest ∧ size ≤ k ∧ k ≤ n ∧ ∀ d ∈ rest, d.tag = 0 := by
  rw [splitList]
  split
  · exact ⟨size, _, rfl, Nat.le_refl _, h, fun d hd => by rw [mem_singleton.1 hd]⟩
  · exact ⟨n, [], rfl, h, Nat.le_refl _, forall_mem_nil _⟩

/-- In a run with free blocks apart from the first, only the first can be in use. -/
theorem segAt_only_first {d : Block} {rest : List Block} (hrest : ∀ d ∈ rest, d.tag = 0) {o z : Nat}
    (h : segAt span (d :: rest) o z = some c) (hc : c.tag ≠ 0) : z = o := by
  rcases segAt_cons h with ⟨hz, -⟩ | h
  · exact hz
  · exact absurd (hrest c (mem_of_segAt h)) hc

/-- What a call does for one pointer keeps the invariant, if the other blocks in use stay. -/
theorem HeapState.Inv.swap (h : s.Inv l) {l' : List Block} (h' : Heap) (o : Option Allocation)
    (hterm : h'.terminatingBlock = s.heap.terminatingBlock)
    (hmax : h'.maximumSize = s.heap.maximumSize) (hrep : Rep h'.mem s.heap.terminatingBlock l')
    (hthere : ∀ y c, segAt span l 0 y = some c → c.tag ≠ 0 → y ≠ x →
      segAt span l' 0 y = some c ∧
        ∀ u, y < u → u ≤ y + c.units → SameUnit s.heap.mem h'.mem u)
    (hback : ∀ y c, segAt span l' 0 y = some c → c.tag ≠ 0 → y ≠ x →
      segAt span l 0 y = some c)
    (hnew : ∀ a, o = some a → ∃ c, segAt span l' 0 x = some c ∧ c.tag ≠ 0 ∧ c.tag = a.tag ∧
      a.size + 24 ≤ 8 * c.units ∧ Holds h'.mem x a)
    (hnone : o = none → ∀ c, segAt span l' 0 x = some c → c.tag = 0) :
    ({ s with heap := h' }.setLive (8 * x + 24) o).Inv l' := by
  refine ⟨?_, ?_, ?_, fun p a hp => ?_, fun y c hy hc => ?_⟩
  · show Rep h'.mem h'.terminatingBlock l'
    rw [hterm]
    exact hrep
  · show 8 * (h'.terminatingBlock + 2) + sizeofHeap ≤ h'.maximumSize
    rw [hterm, hmax]
    exact h.room
  · show h'.maximumSize < 2 ^ 32
    rw [hmax]
    exact h.word
  · by_cases hpx : p = 8 * x + 24
    · obtain ⟨c, hc⟩ := hnew a ((if_pos hpx).symm.trans hp)
      exact ⟨x, c, hpx, hc⟩
    have hold : s.live p = some a := (if_neg hpx).symm.trans hp
    obtain ⟨y, c, hpy, hy, hc, hctag, hfit, hholds⟩ := h.live p a hold
    obtain ⟨hy', hunits⟩ := hthere y c hy hc (by omega)
    exact ⟨y, c, hpy, hy', hc, hctag, hfit, hholds.congr hfit hunits⟩
  · by_cases hyx : y = x
    · cases o with
      | none => exact absurd (hnone rfl c (hyx ▸ hy)) hc
      | some a => exact ⟨a, if_pos (by rw [hyx])⟩
    · obtain ⟨a, ha⟩ := h.used y c (hback y c hy hc hyx) hc
      exact ⟨a, (if_neg (by omega)).trans ha⟩

theorem effectiveTag_ne (tag : Nat) : effectiveTag tag ≠ 0 := by
  rw [effectiveTag]
  split
  · decide
  · assumption

theorem effectiveTag_lt (h : tag < 2 ^ 32) : effectiveTag tag < 2 ^ 32 := by
  rw [effectiveTag]
  split
  · decide
  · exact h

theorem exists_mid (h : segAt span l 0 x = some c) :
    ∃ pre post, l = pre ++ [c] ++ post ∧ x = total span pre := by
  obtain ⟨pre, post, hl, hx⟩ := exists_of_segAt h
  exact ⟨pre, post, by simpa using hl, by simpa using hx⟩

theorem HeapState.Inv.allocate (h : s.Inv l) (dbg : Bool) {byteSize : Nat}
    (hsize : byteSize + 32 < 2 ^ 32) (htag : tag < 2 ^ 32) :
    ∃ s' l', s.call dbg (.allocate byteSize tag) = some s' ∧ s'.Inv l' := by
  have hbytes : sizeT (byteSize + redzoneAllocation) = byteSize + 24 := sizeT_of_lt (by
    rw [redzoneAllocation]
    omega)
  have hbytes' : sizeT (byteSize + 24 + sizeofHeapBlock) = byteSize + 32 := sizeT_of_lt (by
    rw [sizeofHeapBlock]
    omega)
  -- Where nothing is found the heap stays as it is.
  have hnothing : frLdrHeapAllocateEx dbg s.heap byteSize tag = some (s.heap, none) →
      ∃ s' l', s.call dbg (.allocate byteSize tag) = some s' ∧ s'.Inv l' := fun heq =>
    ⟨s, l, by rw [HeapState.call, heq]; rfl, h⟩
  by_cases hbig : maxUshort * sizeofHeapBlock < byteSize + 32
  · refine hnothing ?_
    simp only [frLdrHeapAllocateEx, h.verify dbg, hbytes, hbytes', bind, bind_some, if_pos hbig,
      pure]
  obtain ⟨n, hn⟩ : ∃ n, n = unitsFor (byteSize + 24) := ⟨_, rfl⟩
  have hfit : byteSize + 24 ≤ 8 * n ∧ 0 < n := by
    rw [maxUshort, sizeofHeapBlock] at hbig
    rw [hn, unitsFor, sizeofHeapBlock, sizeT_of_lt (by omega)]
    omega
  have hring : Links (flink s.heap.mem) (blink s.heap.mem)
      (s.heap.terminatingBlock :: (frees l 0 ++ [s.heap.terminatingBlock])) := h.rep.ring
  obtain ⟨w, q, hq, hw⟩ := exists_head (frees l 0) s.heap.terminatingBlock []
  have hstart : flink s.heap.mem s.heap.terminatingBlock = w := by
    rw [Links, hq] at hring
    exact (isChain_cons_cons.1 hring).1.1
  have hlen : (frees l 0).length < s.heap.terminatingBlock + 1 := by
    have hle := length_frees_le l 0
    rw [h.rep.heads.total] at hle
    omega
  rcases findBlock_spec h.rep.heads dbg n (List.IsChain.tail hring) (fun y hy => hy) hlen hw with
    hnone | ⟨x, hxfree, hfound, hle⟩
  · refine hnothing ?_
    simp only [frLdrHeapAllocateEx, h.verify dbg, hbytes, hbytes', bind, bind_some, if_neg hbig,
      pure, hstart, ← hn, hnone]
  -- The block that was found is taken, cleared and marked.
  obtain ⟨⟨n0, tag0⟩, hx, hfree⟩ := mem_frees.1 hxfree
  subst hfree
  rw [(h.rep.heads.block x _ hx).1] at hle
  dsimp only at hle
  have hbound := (h.bound hx).2
  rw [span] at hbound
  obtain ⟨pre, post, rfl, rfl⟩ := exists_mid hx
  obtain ⟨m1, htake, hrep1, htouch⟩ := takeBlock_spec dbg h.rep (effectiveTag_ne tag)
    (effectiveTag_lt htag) hfit.2 hle
  obtain ⟨k, rest, hsplit, hnk, hkn, hrest⟩ := splitList_head (effectiveTag tag) hle
  rw [hsplit] at hrep1
  have hx1 : segAt span (pre ++ (⟨k, effectiveTag tag⟩ :: rest) ++ post) 0 (total span pre) =
      some ⟨k, effectiveTag tag⟩ := segAt_at (append_assoc _ _ _)
  have hsize1 := (hrep1.heads.block _ _ hx1).1
  obtain ⟨hholds, hsame⟩ := holds_new (m := m1) (x := total span pre) (n := k) (effectiveTag tag)
    (by omega : byteSize + 24 ≤ 8 * k) (by dsimp only at hbound; omega)
  obtain ⟨m2, hm2⟩ : ∃ m2, m2 = writeRedzones (overlay m1 (8 * total span pre + 8) (k * 8) zeroBuf)
    (total span pre) byteSize := ⟨_, rfl⟩
  rw [← hm2] at hholds hsame
  have hrep2 := hrep1.congr_inside hx1 (effectiveTag_ne tag) fun u hu => hsame u (by
    rw [span] at hu
    omega)
  have hback : sizeT (byteSize + 24 + 2 ^ 32 - redzoneAllocation) = byteSize := by
    rw [redzoneAllocation, sizeT]
    omega
  obtain ⟨h', heq, hmem, hterm, hmax⟩ : ∃ h', frLdrHeapAllocateEx dbg s.heap byteSize tag =
      some (h', some (8 * total span pre + 24)) ∧ h'.mem = m2 ∧
      h'.terminatingBlock = s.heap.terminatingBlock ∧ h'.maximumSize = s.heap.maximumSize := by
    simp only [frLdrHeapAllocateEx, h.verify dbg, hbytes, hbytes', bind, bind_some, if_neg hbig,
      pure, hstart, ← hn, hfound]
    simp only [htake, bind_some, hsize1, sizeofHeapBlock, hback, ← hm2]
    exact ⟨_, rfl, rfl, rfl, rfl⟩
  -- The other allocations are where they were, with their content.
  have htotal : total span (⟨k, effectiveTag tag⟩ :: rest) = total span [(⟨n0, 0⟩ : Block)] := by
    rw [← hsplit, total_splitList hle]
    rfl
  refine ⟨_, pre ++ (⟨k, effectiveTag tag⟩ :: rest) ++ post, by rw [HeapState.call, heq]; rfl,
    h.swap h' (some ⟨byteSize, effectiveTag tag, zeroBuf⟩) hterm hmax (by rw [hmem]; exact hrep2)
    (fun y c hy hc hyx => ?_) (fun y c hy hc hyx => ?_) (fun a ha => ?_) fun ho => by cases ho⟩
  · refine ⟨segAt_swap htotal (fun z d hz _ => (segAt_singleton.1 hz).1) hy hc hyx,
      fun u hu hu' => ?_⟩
    have hapart := segAt_apart hy hx hyx
    dsimp only at hapart
    rw [hmem]
    exact (htouch.other h.rep.heads hy hc (by omega) hu hu').trans (hsame u (by omega))
  · refine segAt_swap htotal.symm (fun z d hz hd => ?_) hy hc hyx
    exact segAt_only_first hrest hz hd
  · rw [← some.inj ha, hmem]
    exact ⟨_, hx1, effectiveTag_ne tag, rfl, by dsimp only; omega, hholds⟩

theorem assert_of_dbg {p : Prop} [Decidable p] {dbg : Bool} (h : dbg = true → p) :
    assert dbg p = some () := if_neg fun hc => hc.2 (h hc.1)

/-- The block of an allocation is marked free, and may be erased; it is not on the list yet. -/
theorem HeapState.Inv.erase {n : Nat} (h : s.Inv (pre ++ [⟨n, tag⟩] ++ post)) (htag : tag ≠ 0)
    (dbg : Bool) (hm : m = eraseBlock dbg s.heap.mem (total span pre)) :
    Heads m s.heap.terminatingBlock (pre ++ [⟨n, 0⟩] ++ post) (s.heap.terminatingBlock + 1) ∧
      Ring (flink m) (blink m) s.heap.terminatingBlock
        (frees pre 0 ++ frees post (total span pre + (n + 1))) ∧
      ∀ u, u < total span pre ∨ total span pre + n < u → SameUnit s.heap.mem m u := by
  have hx := segAt_mid pre ⟨n, tag⟩ post
  have hx0 := segAt_mid pre ⟨n, 0⟩ post
  have hretag := h.rep.heads.retag (show 0 < 2 ^ 32 by decide)
  obtain ⟨m0, hm0⟩ : ∃ m0, m0 = setBlockTag s.heap.mem (total span pre) 0 := ⟨_, rfl⟩
  rw [← hm0] at hretag
  have hsize := (hretag.block _ _ hx0).1
  dsimp only at hsize
  have hdata : ∀ u, u ≤ total span pre ∨ total span pre + n < u → SameUnit m0 m u := by
    intro u hu i hi
    rw [hm, eraseBlock, ← hm0]
    split
    · rw [hsize, sizeofHeapBlock, overlay_out (by omega)]
    · rfl
  have hall : ∀ u, u < total span pre ∨ total span pre + n < u →
      SameUnit s.heap.mem m u := by
    intro u hu
    refine SameUnit.trans ?_ (hdata u (by omega))
    rw [hm0]
    exact sameUnit_setBlockTag (by omega)
  refine ⟨hretag.congr fun u hu => hdata u ?_, ?_, hall⟩
  · have hout := hu.outside hx0
    rw [span] at hout
    dsimp only at hout
    omega
  · rw [← frees_used htag]
    refine h.rep.ring_outside hx htag fun u hu => hall u ?_
    rw [span] at hu
    dsimp only at hu
    omega

theorem HeapState.Inv.free (h : s.Inv l) (dbg : Bool) {p : Nat} {a : Allocation}
    (ha : s.live p = some a) (hok : dbg = true → tag ≠ tagEnd ∧ (tag = 0 ∨ tag = a.tag)) :
    ∃ s' l', s.call dbg (.free p tag) = some s' ∧ s'.Inv l' := by
  obtain ⟨x, ⟨n, t0⟩, hp, hx, hc, hctag, hfit, hholds⟩ := h.live p a ha
  have hbound := (h.bound hx).1
  have hblock := h.rep.heads.block x _ hx
  have hcheck := h.checkRedzones dbg hx hc
  obtain ⟨pre, post, rfl, rfl⟩ := exists_mid hx
  obtain ⟨m0, hm0⟩ : ∃ m0, m0 = eraseBlock dbg s.heap.mem (total span pre) := ⟨_, rfl⟩
  obtain ⟨hheads, hring, hsame⟩ := h.erase hc dbg hm0
  obtain ⟨m1, j, pre', q1, q2, post', hrelease, hpre', hpost', hfree, htotal, hrep, htouch⟩ :=
    releaseBlock_spec dbg hheads hring
  have hb : (p - redzoneLowOffset - sizeofHeapBlock) / sizeofHeapBlock = total span pre := by
    rw [hp, redzoneLowOffset, sizeofHeapBlock]
    omega
  obtain ⟨h', heq, hmem, hterm, hmax⟩ : ∃ h', frLdrHeapFreeEx dbg s.heap p tag = some h' ∧
      h'.mem = m1 ∧ h'.terminatingBlock = s.heap.terminatingBlock ∧
      h'.maximumSize = s.heap.maximumSize := by
    have hrange : ¬ (p + blocksOffset < sizeofHeap ∨ s.heap.maximumSize < p + blocksOffset) := by
      rw [blocksOffset, sizeofHeap] at *
      omega
    have htags : dbg = true → ¬ (tag ≠ 0 ∧ blockTag s.heap.mem (total span pre) ≠ tag ∨
        blockTag s.heap.mem (total span pre) = 0) := by
      intro hdbg
      have hcase := (hok hdbg).2
      omega
    simp only [frLdrHeapFreeEx, assert_of_dbg fun hdbg => (hok hdbg).1, h.verify dbg,
      assert_of dbg hrange, hb, hcheck, assert_of_dbg htags, bind, bind_some, pure, ← hm0, hrelease]
    exact ⟨_, rfl, rfl, rfl, rfl⟩
  -- The lists before and after, as one run of blocks replaced by a single free one.
  have hlist0 : pre ++ [⟨n, 0⟩] ++ post = pre' ++ (q1 ++ [⟨n, 0⟩] ++ q2) ++ post' := by
    rw [hpre', hpost']
    simp
  have hone : total span [(⟨j, 0⟩ : Block)] = total span (q1 ++ [⟨n, 0⟩] ++ q2) := by
    rw [htotal]
    rfl
  have hsingle : total span [(⟨n, 0⟩ : Block)] = total span [(⟨n, t0⟩ : Block)] := rfl
  have hbefore : ∀ y c, segAt span (pre' ++ [⟨j, 0⟩] ++ post') 0 y = some c → c.tag ≠ 0 →
      segAt span (pre ++ [⟨n, 0⟩] ++ post) 0 y = some c := by
    intro y c hy hc
    rw [hlist0]
    refine segAt_swap (x := y + 1) hone.symm (fun z d hz hd => absurd ?_ hd) hy hc (by omega)
    rw [mem_singleton.1 (mem_of_segAt hz)]
  -- Everything that was merged was free.
  have hnone : ∀ z d, segAt span (q1 ++ [⟨n, 0⟩] ++ q2) (total span pre') z = some d →
      d.tag ≠ 0 → z = total span pre := by
    intro z d hz hd
    refine absurd ?_ hd
    have hmem := mem_of_segAt hz
    simp only [mem_append, mem_singleton] at hmem hfree
    rcases hmem with (hmem | hmem) | hmem
    · exact hfree d (.inl hmem)
    · rw [hmem]
    · exact hfree d (.inr hmem)
  rw [hp] at heq ⊢
  refine ⟨_, pre' ++ [⟨j, 0⟩] ++ post', by rw [HeapState.call, heq]; rfl,
    h.swap h' none hterm hmax (by rw [hmem]; exact hrep) (fun y c hy hc hyx => ?_)
    (fun y c hy hc hyx => ?_) (fun a ha => by cases ha) fun _ c hc => ?_⟩
  -- The other blocks keep their place and their bytes.
  · have hapart := segAt_apart hy hx hyx
    dsimp only at hapart
    have hy0 : segAt span (pre ++ [⟨n, 0⟩] ++ post) 0 y = some c :=
      segAt_swap hsingle (fun z d hz _ => (segAt_singleton.1 hz).1) hy hc hyx
    refine ⟨?_, fun u hu hu' => ?_⟩
    · rw [hlist0] at hy0
      exact segAt_swap hone hnone hy0 hc hyx
    rw [hmem]
    exact (hsame u (by omega)).trans (htouch.other hheads hy0 hc (by omega) hu hu')
  · exact segAt_swap hsingle.symm (fun z d hz _ => (segAt_singleton.1 hz).1) (hbefore y c hy hc) hc
      hyx
  · by_contra hctag
    have hx0 := segAt_mid pre ⟨n, 0⟩ post
    have hsome := hbefore _ c hc hctag
    rw [hx0] at hsome
    rw [← some.inj hsome] at hctag
    exact hctag rfl

theorem HeapState.Inv.write (h : s.Inv l) (dbg : Bool) {p offset : Nat} {a : Allocation}
    (ha : s.live p = some a) (hoffset : offset < a.size) (value : UInt8) :
    ∃ s' l', s.call dbg (.write p offset value) = some s' ∧ s'.Inv l' := by
  obtain ⟨x, c, hp, hx, hc, hctag, hfit, hholds⟩ := h.live p a ha
  have hsame : ∀ u, u ≤ x ∨ x + c.span ≤ u →
      SameUnit s.heap.mem (overlay s.heap.mem (p + offset) 1 fun _ => value) u := by
    intro u hu i hi
    rw [span] at hu
    exact overlay_out (by omega)
  rw [hp] at ha hsame ⊢
  refine ⟨_, l, by rw [HeapState.call, ha]; rfl,
    h.swap { s.heap with mem := overlay s.heap.mem (8 * x + 24 + offset) 1 fun _ => value }
    (some { a with content := overlay a.content offset 1 fun _ => value }) rfl rfl (h.rep.congr_inside hx hc hsame) (fun y d hy hd hyx => ⟨hy, fun u hu hu' =>
      hsame u ?_⟩) (fun y d hy hd hyx => hy) (fun a' ha' => ?_) fun ho => by cases ho⟩
  · have hapart := segAt_apart hy hx hyx
    rw [span]
    omega
  · rw [← some.inj ha']
    exact ⟨c, hx, hc, hctag, hfit, hholds.write hoffset value⟩

end Calls

/-! ## Section 4: Whole runs -/

variable {s : HeapState}

/-- The size of an allocation with its redzones and a header more does not overflow. -/
def HeapCall.Fits : HeapCall → Prop
  | .allocate byteSize _ => byteSize + redzoneAllocation + sizeofHeapBlock < 2 ^ 32
  | .free _ _ => True
  | .write _ _ _ => True

instance : (c : HeapCall) → Decidable c.Fits
  | .allocate _ _ => inferInstanceAs (Decidable (_ < _))
  | .free _ _ => inferInstanceAs (Decidable True)
  | .write _ _ _ => inferInstanceAs (Decidable True)

/-- What the heap should look like between two calls, for the list of its blocks. -/
structure HeapOk (s : HeapState) (l : List Block) : Prop where
  tiles : total Block.span l = s.heap.terminatingBlock
  inside : 8 * (s.heap.terminatingBlock + 2) + sizeofHeap ≤ s.heap.maximumSize
  headers : ∀ x c, segAt Block.span l 0 x = some c →
    0 < c.units ∧ blockSize s.heap.mem x = c.units ∧ blockTag s.heap.mem x = c.tag
  first : previousSize s.heap.mem 0 = 0
  behind : ∀ x c, segAt Block.span l 0 x = some c → previousSize s.heap.mem (x + c.span) = c.units
  terminator : blockSize s.heap.mem s.heap.terminatingBlock = 0 ∧
    blockTag s.heap.mem s.heap.terminatingBlock = tagEnd
  freeList : ∃ r : List Nat, r.Pairwise (· < ·) ∧
    (∀ x, x ∈ r ↔ ∃ c, segAt Block.span l 0 x = some c ∧ c.tag = 0) ∧
    Ring (flink s.heap.mem) (blink s.heap.mem) s.heap.terminatingBlock r
  live : ∀ p a, s.live p = some a → ∃ x c, p = 8 * x + 24 ∧ segAt Block.span l 0 x = some c ∧
    c.tag ≠ 0 ∧ a.size + 24 ≤ 8 * c.units ∧ ∀ k, k < a.size → s.heap.mem (p + k) = a.content k
  used : ∀ x c, segAt Block.span l 0 x = some c → c.tag ≠ 0 → ∃ a, s.live (8 * x + 24) = some a
  disjoint : ∀ p q a b, s.live p = some a → s.live q = some b → p ≠ q →
    p + a.size ≤ q ∨ q + b.size ≤ p

theorem HeapState.Inv.heapOk (h : s.Inv l) : HeapOk s l where
  tiles := h.rep.heads.total
  inside := h.room
  headers := fun x c hx => ⟨(h.rep.heads.units c (mem_of_segAt hx)).1, h.rep.heads.block x c hx⟩
  first := h.rep.heads.first
  behind := fun x c hx => h.rep.heads.behind x c hx (by have hb := h.rep.heads.bound hx; omega)
  terminator := h.rep.heads.last
  freeList := ⟨frees l 0, frees_sorted l 0, fun _ => mem_frees, h.rep.ring⟩
  live := fun p a ha => by
    obtain ⟨x, c, hp, hx, hc, -, hfit, hholds⟩ := h.live p a ha
    refine ⟨x, c, hp, hx, hc, hfit, fun k hk => ?_⟩
    rw [hp]
    exact hholds.content k hk
  used := h.used
  disjoint := fun p q a b ha hb hpq => by
    obtain ⟨x, c, hp, hx, -, -, hfit, -⟩ := h.live p a ha
    obtain ⟨y, d, hq, hy, -, -, hfit', -⟩ := h.live q b hb
    have hapart := segAt_apart hx hy (by omega)
    omega

theorem HeapState.Inv.call (h : s.Inv l) (dbg : Bool) {c : HeapCall}
    (hc : s.Legal dbg c) (hfits : c.Fits) : ∃ s' l', s.call dbg c = some s' ∧ s'.Inv l' := by
  cases c with
  | allocate byteSize tag => exact h.allocate dbg hfits hc.2
  | free p tag =>
    obtain ⟨a, ha, hok⟩ := (any_eq_true _ _).1 hc
    refine h.free dbg ha fun hdbg => ?_
    simpa [hdbg] using hok
  | write p offset value =>
    obtain ⟨a, ha, hoffset⟩ := (any_eq_true _ _).1 hc
    exact h.write dbg ha (of_decide_eq_true hoffset) value

theorem HeapState.Inv.init {dbg : Bool} (h : (heapSystem dbg).init s) : ∃ l, s.Inv l := by
  obtain ⟨maximumSize, mem, hsize, rfl⟩ := h
  obtain ⟨l, hrep, hfree, hroom, hword⟩ := frLdrHeapCreate_spec hsize mem
  refine ⟨l, hrep, hroom, hword, fun p a ha => ?_, fun x c hx hc => ?_⟩
  · cases ha
  · exact absurd (hfree c (mem_of_segAt hx)) hc

/-- In every run without a size that overflows, the heap is in order in every state, and every call
    that may be made goes through. -/
theorem heap_in_order {dbg : Bool} {s : HeapState}
    (hs : Reachable (heapSystem dbg) (fun _ c => c.Fits) s) :
    (∃ l, HeapOk s l) ∧ ∀ c, s.Legal dbg c → c.Fits → ∃ s', s.call dbg c = some s' := by
  have hinv : ∃ l, s.Inv l := by
    refine hs.invariant_of_steps (I := fun s => ∃ l, s.Inv l) (fun _ h => HeapState.Inv.init h) ?_
    rintro s c ⟨l, h⟩ hlegal hfits
    obtain ⟨s', l', hcall, hinv⟩ := h.call dbg hlegal hfits
    exact ⟨s', (), Option.map_eq_some_iff.2 ⟨s', hcall, rfl⟩, l', hinv⟩
  obtain ⟨l, h⟩ := hinv
  refine ⟨⟨l, h.heapOk⟩, fun c hc hfits => ?_⟩
  obtain ⟨s', -, hcall, -⟩ := h.call dbg hc hfits
  exact ⟨s', hcall⟩

/-- A heap of one page. -/
def onePage : HeapState := ⟨frLdrHeapCreate 4096 zeroBuf, fun _ => none⟩

theorem init_onePage (dbg : Bool) : (heapSystem dbg).init onePage :=
  ⟨4096, zeroBuf, by decide, rfl⟩

/-- Two allocations, a store, and the first is released. -/
theorem heap_in_order_reused :
    ∃ s, Reachable (heapSystem true) (fun _ c => c.Fits) s ∧ s.live 24 = none ∧
      (s.live 64).isSome ∧ s.heap.mem 65 = 7 ∧ ∃ l, HeapOk s l := by
  obtain ⟨s, hs, hp⟩ := Reachable.exists_of_run
    (S := (heapSystem true).restrict fun _ c => c.Fits) (s := onePage)
    [.allocate 8 0, .allocate 100 1, .write 64 1 7, .free 24 0]
    (fun s => (s.live 24).isNone ∧ (s.live 64).isSome ∧ s.heap.mem 65 = 7)
    (.init (init_onePage true)) (by decide +kernel)
  obtain ⟨hnone, hsome, hbyte⟩ := of_decide_eq_true hp
  exact ⟨s, hs.of_restrict, Option.isNone_iff_eq_none.1 hnone, hsome, hbyte,
    (heap_in_order hs.of_restrict).1⟩

/-- A request for almost all of the address space is granted in a heap of one page: with the redzones
    and a header the size overflows, and passes the check for allocations that are too large. -/
theorem huge_size_granted :
    ∃ s a, Reachable (heapSystem true) (fun _ _ => True) s ∧ s.heap.maximumSize = 4096 ∧
      s.live 64 = some a ∧ a.size = 0xffffffe7 ∧ ¬ ∃ l, HeapOk s l := by
  obtain ⟨s, hs, hp⟩ := Reachable.exists_of_run (S := heapSystem true) (s := onePage)
    [.allocate 8 0, .allocate 0xffffffe7 0]
    (fun s => s.heap.maximumSize = 4096 ∧ (s.live 64).any fun a => a.size = 0xffffffe7)
    (.init (init_onePage true)) (by decide +kernel)
  obtain ⟨hmax, hlive⟩ := of_decide_eq_true hp
  obtain ⟨a, ha, hsize⟩ := (Option.any_eq_true _ _).1 hlive
  have hsize' := of_decide_eq_true hsize
  refine ⟨s, a, hs, hmax, ha, hsize', fun ⟨l, hok⟩ => ?_⟩
  obtain ⟨x, c, -, hx, -, hfit, -⟩ := hok.live 64 a ha
  have hb := segAt_bounds hx
  have hinside := hok.inside
  rw [hok.tiles, Block.span] at hb
  omega

end FreeLdr
