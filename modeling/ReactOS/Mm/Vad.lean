import ReactOS.Lib.Transition
import ReactOS.Rtl.AvlSupport

/-! # Virtual address descriptors

    `vadnode.c`: the tree of the virtual address descriptors (VADs) of an address space, which is
    the AVL tree of `avlsupp.c` with the page range of a VAD as its key.  Two overlapping ranges
    compare equal, so the tree is a search tree only as long as the ranges are disjoint.  The
    table also caches the VAD that was found or inserted last.

    Addresses and page numbers are natural numbers; the bounds that the callers check keep every
    sum below the size of a machine word.  The memory manager keeps the balance of a node in the
    low bits of its parent link, which the accessors of `miavl.h` take apart again; the one place
    that reads the raw link, the loop of the deletion, does so when the balance is zero. -/

namespace Mm

open LinkedTree Rtl Transition List Option Ctx BinTree

variable {ν : Type} [DecidableEq ν]

/-! ## Section 1: Tables and alignment -/

def pageSize : Nat := 4096

def lowestUserAddress : Nat := 0x10000

/-- What the architecture says about the address space.  The last two bound the tables of the
kernel: the system range, or the system cache on ARM64. -/
structure AddressLayout where
  highestVadAddress : Nat
  systemLowVpn : Nat
  systemHighVpn : Nat

/-- `ALIGN_DOWN_BY`, whose alignment is a power of two. -/
def alignDownBy (size align : Nat) : Nat := size / align * align

def alignUpBy (size align : Nat) : Nat := alignDownBy (size + align - 1) align

def bytesToPages (size : Nat) : Nat := size / pageSize + if size % pageSize ≠ 0 then 1 else 0

def roundToPages (size : Nat) : Nat := alignDownBy (size + pageSize - 1) pageSize

/-- `MM_AVL_TABLE`, with the page ranges of the nodes. -/
structure MmAvlTable (ν : Type) extends AvlTable ν where
  startingVpn : ν → Nat
  endingVpn : ν → Nat
  unused : Nat
  nodeHint : Option ν

namespace MmAvlTable

def setRange (t : MmAvlTable ν) (n : ν) (startVpn endVpn : Nat) : MmAvlTable ν :=
  { t with
    startingVpn := Function.update t.startingVpn n startVpn
    endingVpn := Function.update t.endingVpn n endVpn }

end MmAvlTable

/-! ## Section 2: Lookups -/

def miAvlCompareRoutine (t : MmAvlTable ν) (vpn : Nat) (n : ν) : Ordering :=
  if vpn < t.startingVpn n then .lt else if vpn ≤ t.endingVpn n then .eq else .gt

def miLocateVad (t : MmAvlTable ν) (virtualAddress : Nat) : Option (MmAvlTable ν × Option ν) :=
  match t.nodeHint with
  | none => some (t, none)
  | some found =>
    let vpn := virtualAddress / pageSize
    if t.startingVpn found ≤ vpn ∧ vpn ≤ t.endingVpn found then some (t, some found)
    else
      (rtlpFindAvlTableNodeOrParent t.toAvlTable (miAvlCompareRoutine t vpn)).map fun r =>
        if r.1 ≠ .tableFoundNode then (t, none) else ({ t with nodeHint := r.2 }, r.2)

/-- The loop of `MiCheckForConflictingNode`, and what follows it. -/
def conflictLoop (t : MmAvlTable ν) (startVpn endVpn : Nat) :
    Nat → Option ν → ν → Option (TableSearchResult × ν)
  | _, none, parent =>
    some (if t.endingVpn parent < startVpn then .tableInsertAsRight else .tableInsertAsLeft, parent)
  | 0, some _, _ => none
  | k + 1, some x, _ =>
    if t.endingVpn x < startVpn then conflictLoop t startVpn endVpn k (t.links.child .right x) x
    else if endVpn < t.startingVpn x then
      conflictLoop t startVpn endVpn k (t.links.child .left x) x
    else some (.tableFoundNode, x)

def miCheckForConflictingNode (t : MmAvlTable ν) (startVpn endVpn : Nat) :
    Option (TableSearchResult × Option ν) :=
  if t.numberGenericTableElements = 0 then some (.tableEmptyTree, none)
  else match t.links.child .right t.balancedRoot with
    | none => none
    | some x => (conflictLoop t startVpn endVpn t.fuel (some x) x).map fun r => (r.1, some r.2)

/-- The loop of `MiGetPreviousNode` and `MiGetNextNode`: up to the first parent on side `s`. -/
def parentOnSide (s : Side) (m : Store ν) : Nat → ν → Option (Option ν)
  | 0, _ => none
  | k + 1, n =>
    if m.parent n = n then some none
    else if rtlIsChild s.other m n then some (some (m.parent n))
    else parentOnSide s m k (m.parent n)

def miGetPreviousNode (t : MmAvlTable ν) (n : ν) : Option (Option ν) :=
  match t.links.child .left n with
  | some x => (lastChild .right t.fuel t.links x).map some
  | none =>
    -- the root, which is its own parent, is not returned
    (parentOnSide .left t.links (t.fuel + 1) n).map
      (Option.filter fun p => p ≠ t.links.parent p)

def miGetNextNode (t : MmAvlTable ν) (n : ν) : Option (Option ν) :=
  match t.links.child .right n with
  | some x => (lastChild .left t.fuel t.links x).map some
  | none => parentOnSide .right t.links (t.fuel + 1) n

/-! ## Section 3: Searching for an empty range -/

/-- The loop of `MiFindEmptyAddressRangeInTree`, and what follows it.  Returns the result, the
value of `*PreviousVad` and that of `*Base`, which are not written if there is no space. -/
def inTreeLoop (t : MmAvlTable ν) (pageCount alignmentVpn highestVpn : Nat) :
    Nat → Nat → Option ν → Option ν → Option (TableSearchResult × Option ν × Nat)
  | _, lowVpn, previous, none =>
    if lowVpn + pageCount ≤ highestVpn then
      some (.tableInsertAsRight, previous, lowVpn * pageSize)
    else some (.tableFoundNode, none, 0)
  | 0, _, _, some _ => none
  | k + 1, lowVpn, previous, some n =>
    if lowVpn + pageCount ≤ t.startingVpn n then
      if t.links.child .left n = none then some (.tableInsertAsLeft, some n, lowVpn * pageSize)
      else some (.tableInsertAsRight, previous, lowVpn * pageSize)
    else
      let lowVpn :=
        if lowVpn ≤ t.endingVpn n then alignUpBy (t.endingVpn n + 1) alignmentVpn else lowVpn
      (miGetNextNode t n).bind fun next =>
        inTreeLoop t pageCount alignmentVpn highestVpn k lowVpn (some n) next

def miFindEmptyAddressRangeInTree (L : AddressLayout) (t : MmAvlTable ν) (length alignment : Nat) :
    Option (TableSearchResult × Option ν × Nat) :=
  let pageCount := bytesToPages length
  let alignmentVpn := alignment / pageSize
  let lowVpn :=
    if t.unused = 1 then alignUpBy L.systemLowVpn alignmentVpn
    else alignUpBy (lowestUserAddress / pageSize) alignmentVpn
  let highestVpn :=
    if t.unused = 1 then alignUpBy L.systemHighVpn alignmentVpn
    else (L.highestVadAddress + 1) / pageSize
  if t.numberGenericTableElements = 0 then some (.tableEmptyTree, none, lowVpn * pageSize)
  else match t.links.child .right t.balancedRoot with
    | none => none
    | some x => (lastChild .left t.fuel t.links x).bind fun node =>
      inTreeLoop t pageCount alignmentVpn highestVpn t.fuel lowVpn none (some node)

/-- Down the right children to a node that ends above the boundary. -/
def boundaryNode (t : MmAvlTable ν) (highVpn : Nat) : Nat → ν → Option ν
  | 0, _ => none
  | k + 1, n =>
    if t.endingVpn n < highVpn then
      match t.links.child .right n with
      | some y => boundaryNode t highVpn k y
      | none => some n
    else some n

/-- The loop of `MiFindEmptyAddressRangeDownTree`, and what follows it.  Returns the result, the
value of `*Parent` and that of `*Base`. -/
def downTreeLoop (t : MmAvlTable ν) (pageCount alignment : Nat) :
    Nat → Nat → Option ν → Option ν → Option (TableSearchResult × Option ν × Nat)
  | _, highVpn, old, none =>
    let lowVpn := alignUpBy lowestUserAddress alignment / pageSize
    if lowVpn < highVpn ∧ pageCount ≤ highVpn - lowVpn then
      some (.tableInsertAsLeft, old,
        alignDownBy (highVpn - pageCount) (alignment / pageSize) * pageSize)
    else some (.tableFoundNode, none, 0)
  | 0, _, _, some _ => none
  | k + 1, highVpn, old, some n =>
    let lowVpn := alignUpBy (t.endingVpn n + 1) (alignment / pageSize)
    if lowVpn < highVpn ∧ pageCount ≤ highVpn - lowVpn then
      let base := alignDownBy (highVpn - pageCount) (alignment / pageSize) * pageSize
      if t.links.child .right n = none then some (.tableInsertAsRight, some n, base)
      else some (.tableInsertAsLeft, old, base)
    else
      let highVpn := if t.startingVpn n < highVpn then t.startingVpn n else highVpn
      (miGetPreviousNode t n).bind fun previous =>
        downTreeLoop t pageCount alignment k highVpn (some n) previous

/-- `LowVpn` holds an address and not a page number here, except for the tables of the kernel. -/
def miFindEmptyAddressRangeDownTree (L : AddressLayout) (t : MmAvlTable ν)
    (length boundaryAddress alignment : Nat) : Option (TableSearchResult × Option ν × Nat) :=
  let length := roundToPages length
  let lowVpn :=
    if t.unused = 1 then alignUpBy L.systemLowVpn (alignment / pageSize)
    else alignUpBy lowestUserAddress alignment
  if boundaryAddress + 1 < lowVpn + length then some (.tableFoundNode, none, 0)
  else if t.numberGenericTableElements = 0 then
    some (.tableEmptyTree, none, alignDownBy (boundaryAddress + 1 - length) alignment)
  else
    let highVpn := (boundaryAddress + 1) / pageSize
    match t.links.child .right t.balancedRoot with
    | none => none
    | some x => (boundaryNode t highVpn t.fuel x).bind fun node =>
      downTreeLoop t (length / pageSize) alignment t.fuel highVpn none (some node)

/-! ## Section 4: Insertion and removal -/

def miInsertNode (t : MmAvlTable ν) (new : ν) (parent : Option ν) (result : TableSearchResult) :
    Option (MmAvlTable ν) :=
  (rtlpInsertAvlTreeNode t.toAvlTable new parent result).map fun a => { t with toAvlTable := a }

def miInsertVad (t : MmAvlTable ν) (vad : ν) : Option (MmAvlTable ν) :=
  let t := { t with nodeHint := some vad }
  (rtlpFindAvlTableNodeOrParent t.toAvlTable (miAvlCompareRoutine t (t.startingVpn vad))).bind
    fun r => miInsertNode t vad r.2 r.1

inductive Status where
  | success
  | noMemory
  | conflictingAddresses
  deriving DecidableEq, Repr

/-- `MiInsertVadEx` on the table of a process that is alive.  The charge for the pages, the
secured range and the sizes kept by the process are left out. -/
def miInsertVadEx (L : AddressLayout) (t : MmAvlTable ν) (vad : ν)
    (baseAddress viewSize highestAddress alignment : Nat) (topDown : Bool) :
    Option (MmAvlTable ν × Status) :=
  let viewSize := alignUpBy viewSize pageSize
  let insert (startingAddress : Nat) (parent : Option ν) (result : TableSearchResult) :=
    let endingAddress := startingAddress + viewSize - 1
    let t := t.setRange vad (startingAddress / pageSize) (endingAddress / pageSize)
    (miInsertNode { t with nodeHint := some vad } vad parent result).map fun t => (t, .success)
  if baseAddress = 0 then
    let highestAddress := min highestAddress L.highestVadAddress
    (if topDown then miFindEmptyAddressRangeDownTree L t viewSize highestAddress alignment
      else miFindEmptyAddressRangeInTree L t viewSize alignment).bind fun (result, parent, base) =>
    if result = .tableFoundNode ∨ highestAddress < base + viewSize - 1 then some (t, .noMemory)
    else insert base parent result
  else
    let startingAddress := alignDownBy baseAddress alignment
    let endingAddress := startingAddress + viewSize - 1
    (miCheckForConflictingNode t (startingAddress / pageSize) (endingAddress / pageSize)).bind
      fun (result, parent) =>
    if result = .tableFoundNode then some (t, .conflictingAddresses)
    else insert startingAddress parent result

def miRemoveNode (t : MmAvlTable ν) (node : ν) : Option (MmAvlTable ν) :=
  (rtlpDeleteAvlTreeNode t.toAvlTable node).map fun a =>
    let a := { a with numberGenericTableElements := a.numberGenericTableElements - 1 }
    { t with
      toAvlTable := a
      nodeHint :=
        if t.nodeHint = some node then
          if a.numberGenericTableElements = 0 then none else a.links.child .right a.balancedRoot
        else t.nodeHint }

/-! ## Section 5: Neighbours -/

variable {k : Nat}

theorem parentOnSide_spec (s : Side) {m : Store ν} {c : Ctx ν} {a b : BinTree ν} {n : ν}
    (h : WellLinked m (plug c (.node a n b))) (hk : c.length < k) :
    parentOnSide s m k n = some (nextAbove s c) := by
  obtain _ | k := k
  · omega
  induction c generalizing a b n k with
  | nil =>
    obtain ⟨-, -, hh, -, -⟩ := (wellLinked_plug (s := .left)).mp h
    have hp : m.parent n = n := hh
    simp [parentOnSide, hp, nextAbove]
  | cons f c ih =>
    obtain ⟨hpar, -, hside⟩ := parent_facts h
    have hne : f.node ≠ n := by
      have hd := ((nodup_plug _ _).mp h.nodup).2.2 n (by simp)
      rintro rfl
      exact hd (by simp [nodes])
    simp only [parentOnSide, hpar, hside, hne, if_false, decide_eq_true_eq, nextAbove]
    by_cases e : f.side = s
    · -- a child on side `s` has its parent on the other side: further up
      obtain ⟨a', b', hj⟩ := join_eq_node f.side (.node a n b) f.node f.sib
      have h' : WellLinked m (plug c (.node a' f.node b')) := hj ▸ h
      simp only [length_cons] at hk
      obtain _ | k := k
      · omega
      have hso : s.other ≠ f.side := by
        rw [e]
        exact Side.other_ne s
      rw [if_neg hso, if_pos e]
      exact ih h' k (by omega)
    · have hso : s.other = f.side := (Side.eq_other e).symm
      rw [if_pos hso, if_neg e]

section Search

variable {t : MmAvlTable ν} {T : BinTree ν} {l₁ l₂ : List ν} {n : ν}

theorem neighbours (hi : AvlInv t.toAvlTable T) (hl : T.toList = l₁ ++ n :: l₂) :
    miGetPreviousNode t n = some l₁.getLast? ∧ miGetNextNode t n = some l₂.head? := by
  obtain ⟨c, a, b, hT, rfl, rfl, ha, hb⟩ := exists_focus hi.wellLinked hl
  have hw := hi.wellLinked
  rw [hT, ← plug_append] at hw
  have hlen := congrArg length hl
  rw [← hi.count] at hlen
  simp only [length_append, length_cons] at hlen
  have hcl : c.length ≤ c.before.length + c.after.length := by
    have h1 := Ctx.length_le_nodes c
    have h2 := length_plug c (.nil : BinTree ν)
    rw [toList_plug] at h2
    simp only [toList_nil, append_nil, length_append, length_nil] at h2
    omega
  have hup : ∀ s, parentOnSide s t.links (t.fuel + 1) n =
      some (nextAbove s (c ++ sentinel t.balancedRoot)) := by
    intro s
    apply parentOnSide_spec s hw
    simp only [length_append, sentinel, length_singleton, AvlTable.fuel]
    omega
  constructor
  · cases hc : t.links.child .left n with
    | some x =>
      -- the last node of the left subtree
      rw [hc] at ha
      obtain ⟨y, l, hy, -, hrun⟩ := lastChild_spec .right ha
      simp only [sideCons] at hy
      simp only [miGetPreviousNode, hc]
      rw [hrun t.fuel (by simp only [AvlTable.fuel]; omega)]
      simp [hy]
    | none =>
      -- or the nearest node above that is to the left, but not the sentinel
      rw [hc] at ha
      obtain rfl := ha.eq_nil
      simp only [miGetPreviousNode, hc, hup, nextAbove_left, Ctx.before_append, map_some]
      congr 1
      have hr : t.links.parent t.balancedRoot = t.balancedRoot := by
        obtain ⟨-, hs, -⟩ := wellLinked_plug_cons.mp hi.wellLinked
        exact hs.2.1
      cases hq : c.before.getLast? with
      | none =>
        rw [getLast?_eq_none_iff.mp hq]
        simp [sentinel, Ctx.before, hr]
      | some q =>
        obtain ⟨l, hl'⟩ := getLast?_eq_some_iff.mp hq
        have hqT : q ∈ T.toList := by
          rw [hl, hl']
          simp
        have hqp := (hi.toHolds.parent_ne hqT).symm
        simp [hl', hqp]
  · cases hc : t.links.child .right n with
    | some x =>
      rw [hc] at hb
      obtain ⟨y, l, hy, -, hrun⟩ := lastChild_spec .left hb
      simp only [sideCons] at hy
      simp only [miGetNextNode, hc]
      rw [hrun t.fuel (by simp only [AvlTable.fuel]; omega)]
      simp [hy]
    | none =>
      rw [hc] at hb
      obtain rfl := hb.eq_nil
      simp only [miGetNextNode, hc, hup, nextAbove_right, Ctx.after_append]
      simp [sentinel, Ctx.after]

end Search

/-! ## Section 6: Disjoint ranges -/

variable {x a y alignment length : Nat}

/-- The table holds disjoint page ranges in ascending order. -/
structure RangeInv (t : MmAvlTable ν) (T : BinTree ν) : Prop extends AvlInv t.toAvlTable T where
  ranges : ∀ x ∈ T.toList, t.startingVpn x ≤ t.endingVpn x
  ordered : T.toList.Pairwise fun x y => t.endingVpn x < t.startingVpn y

/-- The hint is one of the nodes, unless there are none. -/
structure VadInv (t : MmAvlTable ν) (T : BinTree ν) : Prop extends RangeInv t T where
  hint : ∀ h ∈ t.nodeHint, h ∈ T.toList
  hint_none : t.nodeHint = none → T = .nil

/-- The place where the search ended lies between the nodes below and above a range. -/
def FreePlace (t : MmAvlTable ν) (T : BinTree ν) (r : TableSearchResult) (parent : Option ν)
    (startVpn endVpn : Nat) : Prop :=
  T = .nil ∧ r = .tableEmptyTree ∨
    ∃ f c, T = plug (f :: c) .nil ∧ r = insertAs f.side ∧ parent = some f.node ∧
      (∀ z ∈ Ctx.before (f :: c), t.endingVpn z < startVpn) ∧
      ∀ z ∈ Ctx.after (f :: c), endVpn < t.startingVpn z

theorem le_alignUpBy (ha : 0 < a) : x ≤ alignUpBy x a := by
  have h := Nat.div_add_mod (x + a - 1) a
  have hlt := Nat.mod_lt (x + a - 1) ha
  simp only [alignUpBy, alignDownBy, Nat.mul_comm _ a]
  omega

theorem alignDownBy_le (x a : Nat) : alignDownBy x a ≤ x := Nat.div_mul_le_self x a

theorem le_alignDownBy (ha : 0 < a) (h : alignUpBy x a ≤ y) : alignUpBy x a ≤ alignDownBy y a := by
  exact Nat.mul_le_mul_right a ((Nat.le_div_iff_mul_le ha).mpr h)

theorem dvd_alignUpBy (x a : Nat) : a ∣ alignUpBy x a := Nat.dvd_mul_left _ _

/-- Alignment leads to the next multiple. -/
theorem alignUpBy_le (ha : 0 < a) (hy : a ∣ y) (h : x ≤ y) : alignUpBy x a ≤ y := by
  obtain ⟨c, rfl⟩ := hy
  have hdiv : (x + a - 1) / a < c + 1 := by
    rw [Nat.div_lt_iff_lt_mul ha, Nat.add_mul, Nat.mul_comm c a]
    omega
  simp only [alignUpBy, alignDownBy, Nat.mul_comm a]
  exact Nat.mul_le_mul_right a (Nat.le_of_lt_succ hdiv)

/-- The lowest address, aligned as an address or as a page number. -/
theorem alignUpBy_div (h : pageSize ∣ alignment) :
    alignUpBy lowestUserAddress alignment / pageSize =
      alignUpBy (lowestUserAddress / pageSize) (alignment / pageSize) := by
  obtain ⟨q, rfl⟩ := h
  have hdiv : (lowestUserAddress + pageSize * q - 1) / pageSize =
      lowestUserAddress / pageSize + q - 1 := by
    simp only [lowestUserAddress, pageSize]
    omega
  simp only [alignUpBy, alignDownBy, ← Nat.div_div_eq_div_mul, hdiv,
    Nat.mul_div_cancel_left q (show 0 < pageSize by decide)]
  rw [Nat.mul_comm pageSize, ← Nat.mul_assoc, Nat.mul_div_cancel _ (by decide)]

/-- Alignment leads to the multiple before. -/
theorem le_alignDownBy_of_dvd (ha : 0 < a) (hx : a ∣ x) (h : x ≤ y) : x ≤ alignDownBy y a := by
  obtain ⟨c, rfl⟩ := hx
  rw [alignDownBy, Nat.mul_comm a]
  exact Nat.mul_le_mul_right a ((Nat.le_div_iff_mul_le ha).mpr (by rwa [Nat.mul_comm]))

section Search

variable {t : MmAvlTable ν} {T : BinTree ν} {l₁ l₂ : List ν} {n : ν}
variable {pageCount highVpn : Nat}

namespace RangeInv

variable (hi : RangeInv t T) (hl : T.toList = l₁ ++ n :: l₂)

include hi hl

omit [DecidableEq ν] in
/-- The ranges before and after that of a node. -/
theorem around : (∀ z ∈ l₁, t.endingVpn z < t.startingVpn n) ∧ t.startingVpn n ≤ t.endingVpn n ∧
      ∀ z ∈ l₂, t.endingVpn n < t.startingVpn z := by
  have ho := hi.ordered
  rw [hl, pairwise_append, pairwise_cons] at ho
  exact ⟨fun z hz => ho.2.2 z hz n (by simp), hi.ranges n (by rw [hl]; simp), ho.2.1.1⟩

omit [DecidableEq ν] in
theorem place_before (hc : t.links.child .left n = none) {s e : Nat}
    (hs : ∀ z ∈ l₁, t.endingVpn z < s) (he : ∀ z ∈ n :: l₂, e < t.startingVpn z) :
    FreePlace t T .tableInsertAsLeft (some n) s e := by
  obtain ⟨c, a, b, rfl, rfl, rfl, ha, -⟩ := exists_focus hi.wellLinked hl
  rw [hc] at ha
  obtain rfl := ha.eq_nil
  exact .inr ⟨⟨.left, n, b⟩, c, rfl, rfl, rfl, by simpa [before] using hs,
    by simpa [Ctx.after] using he⟩

omit [DecidableEq ν] in
theorem place_after (hc : t.links.child .right n = none) {s e : Nat}
    (hs : ∀ z ∈ l₁ ++ [n], t.endingVpn z < s) (he : ∀ z ∈ l₂, e < t.startingVpn z) :
    FreePlace t T .tableInsertAsRight (some n) s e := by
  obtain ⟨c, a, b, rfl, rfl, rfl, -, hb⟩ := exists_focus hi.wellLinked hl
  rw [hc] at hb
  obtain rfl := hb.eq_nil
  exact .inr ⟨⟨.right, n, a⟩, c, rfl, rfl, rfl, by simpa [before] using hs,
    by simpa [Ctx.after] using he⟩

end RangeInv

omit [DecidableEq ν] in
theorem exists_snoc {l : List ν} (h : l ≠ []) : ∃ l' p, l = l' ++ [p] ∧ l.getLast? = some p :=
  ⟨_, _, (dropLast_append_getLast h).symm, getLast?_eq_some_getLast h⟩

/-- What a search for an empty range of `pageCount` pages returns. -/
def Searched (t : MmAvlTable ν) (T : BinTree ν) (pageCount : Nat)
    (o : Option (TableSearchResult × Option ν × Nat)) : Prop :=
  ∃ r parent base, o = some (r, parent, base) ∧ (r = .tableFoundNode ∨
    ∃ lowVpn, base = lowVpn * pageSize ∧ FreePlace t T r parent lowVpn (lowVpn + pageCount - 1))

/-- A page number that is aligned and from which `pageCount` pages are free. -/
def Fits (t : MmAvlTable ν) (T : BinTree ν) (pageCount alignmentVpn : Nat) (within : Nat → Prop)
    (b : Nat) : Prop :=
  alignmentVpn ∣ b ∧ within b ∧
    ∀ n ∈ T.toList, t.endingVpn n < b ∨ b + pageCount ≤ t.startingVpn n

/-- A search that returns the best of the places that fit. -/
def Finds (t : MmAvlTable ν) (T : BinTree ν) (pageCount : Nat) (fits : Nat → Prop)
    (better : Nat → Nat → Prop) (o : Option (TableSearchResult × Option ν × Nat)) : Prop :=
  ∃ r parent base, o = some (r, parent, base) ∧ (r = .tableFoundNode ∧ (∀ b, ¬ fits b) ∨
    ∃ b, base = b * pageSize ∧ fits b ∧ (∀ b', fits b' → better b b') ∧
      FreePlace t T r parent b (b + pageCount - 1))

omit [DecidableEq ν] in
theorem Finds.searched {fits : Nat → Prop} {better : Nat → Nat → Prop}
    {o : Option (TableSearchResult × Option ν × Nat)} (h : Finds t T pageCount fits better o) :
    Searched t T pageCount o := by
  obtain ⟨r, parent, base, ho, ⟨hr, -⟩ | ⟨b, hbase, -, -, hplace⟩⟩ := h
  · exact ⟨r, parent, base, ho, .inl hr⟩
  · exact ⟨r, parent, base, ho, .inr ⟨b, hbase, hplace⟩⟩

/-- From `first` on, and below the end of the address space or a node. -/
def UpTo (t : MmAvlTable ν) (T : BinTree ν) (first pageCount highestVpn b : Nat) : Prop :=
  first ≤ b ∧ (b + pageCount ≤ highestVpn ∨ ∃ n ∈ T.toList, b + pageCount ≤ t.startingVpn n)

/-- Upwards: `l₁` lies below the candidate, `l₂` has not been looked at, and nothing fits below
the candidate. -/
theorem inTreeLoop_spec {first alignmentVpn highestVpn lowVpn : Nat} {fits : Nat → Prop}
    (hf : fits = Fits t T pageCount alignmentVpn (UpTo t T first pageCount highestVpn))
    (hi : RangeInv t T) (hne : T ≠ .nil) (ha : 0 < alignmentVpn) (hp : 0 < pageCount)
    (hl : T.toList = l₁ ++ l₂) (hlow : ∀ z ∈ l₁, t.endingVpn z < lowVpn)
    (hdvd : alignmentVpn ∣ lowVpn) (hfirst : first ≤ lowVpn)
    (hbest : ∀ b, fits b → lowVpn ≤ b) (hk : l₂.length ≤ k) :
    Finds t T pageCount fits (· ≤ ·)
      (inTreeLoop t pageCount alignmentVpn highestVpn k lowVpn l₁.getLast? l₂.head?) := by
  induction l₂ generalizing l₁ k lowVpn with
  | nil =>
    rw [append_nil] at hl
    simp only [head?_nil, inTreeLoop]
    by_cases hfit : lowVpn + pageCount ≤ highestVpn
    · have hfits : fits lowVpn := by
        rw [hf]
        exact ⟨hdvd, ⟨hfirst, .inl hfit⟩, fun n hn => .inl (hlow n (hl ▸ hn))⟩
      obtain ⟨l, p, rfl, hlast⟩ := exists_snoc (hl ▸ mt toList_eq_nil hne)
      rw [if_pos hfit, hlast]
      have hc := child_right_none_of_last hi.wellLinked hl
      exact ⟨_, _, _, rfl, .inr ⟨lowVpn, rfl, hfits, hbest, hi.place_after hl hc hlow (by simp)⟩⟩
    -- above the candidate there is neither a node nor enough space
    rw [if_neg hfit]
    refine ⟨_, _, _, rfl, .inl ⟨rfl, fun b hb => ?_⟩⟩
    have hle := hbest b hb
    rw [hf] at hb
    obtain ⟨-, ⟨-, hend | ⟨n, hn, hend⟩⟩, -⟩ := hb
    · omega
    · have := hlow n (hl ▸ hn)
      have := hi.ranges n hn
      omega
  | cons n l₂ ih =>
    obtain _ | k := k
    · simp at hk
    obtain ⟨h1, hn, h2⟩ := hi.around hl
    have hmem : n ∈ T.toList := by rw [hl]; simp
    simp only [head?_cons, inTreeLoop]
    by_cases hfit : lowVpn + pageCount ≤ t.startingVpn n
    · -- the gap below `n` is large enough
      rw [if_pos hfit]
      have he : ∀ z ∈ n :: l₂, lowVpn + pageCount ≤ t.startingVpn z := by grind
      have he' : ∀ z ∈ n :: l₂, lowVpn + pageCount - 1 < t.startingVpn z := by
        intro z hz
        have := he z hz
        omega
      have hfits : fits lowVpn := by
        rw [hf]
        refine ⟨hdvd, ⟨hfirst, .inr ⟨n, hmem, hfit⟩⟩, fun z hz => ?_⟩
        rw [hl] at hz
        exact (mem_append.mp hz).imp (hlow z) (he z)
      by_cases hc : t.links.child .left n = none
      · rw [if_pos hc]
        exact ⟨_, _, _, rfl, .inr ⟨lowVpn, rfl, hfits, hbest, hi.place_before hl hc hlow he'⟩⟩
      -- the node before `n` is the last one of its left subtree
      rw [if_neg hc]
      have hl1 : l₁ ≠ [] := by
        rintro rfl
        exact hc (child_left_none_of_first hi.wellLinked hl)
      obtain ⟨l, p, rfl, hlast⟩ := exists_snoc hl1
      have hl' : T.toList = l ++ p :: n :: l₂ := by rw [hl]; simp
      have hp' := (child_none_of_neighbours hi.wellLinked hl').resolve_right hc
      rw [hlast]
      exact ⟨_, _, _, rfl, .inr ⟨lowVpn, rfl, hfits, hbest, hi.place_after hl' hp' hlow he'⟩⟩
    · rw [if_neg hfit, (neighbours hi.toAvlInv hl).2, bind_some]
      have hl' : T.toList = (l₁ ++ [n]) ++ l₂ := by rw [hl]; simp
      have hup := le_alignUpBy (x := t.endingVpn n + 1) ha
      -- the next candidate
      obtain ⟨next, hnext⟩ : ∃ next, next =
        if lowVpn ≤ t.endingVpn n then alignUpBy (t.endingVpn n + 1) alignmentVpn else lowVpn := ⟨_, rfl⟩
      rw [← hnext]
      have hge : lowVpn ≤ next ∧ t.endingVpn n < next := by
        rw [hnext]
        split <;> omega
      have hdvd' : alignmentVpn ∣ next := by
        rw [hnext]
        split
        · exact dvd_alignUpBy _ _
        · exact hdvd
      have hlow' : ∀ z ∈ l₁ ++ [n], t.endingVpn z < next := by grind
      -- what fits is not below `n`, where there was too little space
      have hbest' : ∀ b, fits b → next ≤ b := by
        intro b hb
        have hle := hbest b hb
        rw [hf] at hb
        rw [hnext]
        split
        · rcases hb.2.2 n hmem with hlt | hend
          · exact alignUpBy_le ha hb.1 hlt
          · omega
        · exact hle
      have hrec := ih hl' hlow' hdvd' (Nat.le_trans hfirst hge.1) hbest' (k := k) (by simpa using hk)
      simpa using hrec

omit [DecidableEq ν] in
/-- A range that ends below the upper margin ends below all the nodes above it. -/
theorem below_high (hfit : pageCount ≤ highVpn) (hp : 0 < pageCount)
    (hhigh : ∀ z ∈ l₂, highVpn ≤ t.startingVpn z) :
    ∀ z ∈ l₂, alignDownBy (highVpn - pageCount) a + pageCount - 1 < t.startingVpn z := by
  intro z hz
  have h1 := hhigh z hz
  have h2 := alignDownBy_le (highVpn - pageCount) a
  omega

/-- Behind `first` or a node, and below the boundary. -/
def DownFrom (t : MmAvlTable ν) (T : BinTree ν) (first pageCount boundaryVpn b : Nat) : Prop :=
  (first ≤ b ∨ ∃ n ∈ T.toList, t.endingVpn n < b) ∧ b + pageCount ≤ boundaryVpn

omit [DecidableEq ν] in
/-- The highest place below the upper margin fits if it is behind the nodes of `l₁`. -/
theorem fits_below_high {first alignmentVpn boundaryVpn b : Nat} {fits : Nat → Prop}
    (hf : fits = Fits t T pageCount alignmentVpn (DownFrom t T first pageCount boundaryVpn))
    (hb : b = alignDownBy (highVpn - pageCount) alignmentVpn) (hl : T.toList = l₁ ++ l₂) (ha : 0 < alignmentVpn) (hfit : pageCount ≤ highVpn)
    (hbound : highVpn ≤ boundaryVpn) (hhigh : ∀ z ∈ l₂, highVpn ≤ t.startingVpn z)
    (hs : ∀ z ∈ l₁, t.endingVpn z < b) (hfirst : first ≤ b ∨ l₁ ≠ [])
    (hbest : ∀ b', fits b' → b' + pageCount ≤ highVpn) : fits b ∧ ∀ b', fits b' → b ≥ b' := by
  have hdown := alignDownBy_le (highVpn - pageCount) alignmentVpn
  constructor
  · rw [hf]
    refine ⟨hb ▸ Nat.dvd_mul_left _ _, ⟨?_, by omega⟩, fun z hz => ?_⟩
    · rcases hfirst with hfirst | hne
      · exact .inl hfirst
      · obtain ⟨z, hz⟩ := exists_mem_of_ne_nil l₁ hne
        exact .inr ⟨z, by rw [hl]; simp [hz], hs z hz⟩
    · grind
  · intro b' hb'
    have := hbest b' hb'
    rw [hf] at hb'
    rw [hb]
    exact le_alignDownBy_of_dvd ha hb'.1 (by omega)

/-- Downwards: `l₂` lies above the candidate, the end of `l₁` is looked at next, and nothing fits
above the candidate. -/
theorem downTreeLoop_spec {boundaryVpn : Nat} {old : Option ν} {fits : Nat → Prop}
    (hf : fits = Fits t T pageCount (alignment / pageSize)
      (DownFrom t T (lowestUserAddress / pageSize) pageCount boundaryVpn))
    (hi : RangeInv t T) (hne : T ≠ .nil) (hpage : pageSize ∣ alignment)
    (ha : 0 < alignment / pageSize) (hp : 0 < pageCount)
    (hl : T.toList = l₁ ++ l₂) (hhigh : ∀ z ∈ l₂, highVpn ≤ t.startingVpn z)
    (hbound : highVpn ≤ boundaryVpn)
    (hbest : ∀ b, fits b → b + pageCount ≤ highVpn)
    (hold : old = l₂.head? ∨ ∃ n ∈ l₁.getLast?, highVpn ≤ t.endingVpn n) (hk : l₁.length ≤ k) :
    Finds t T pageCount fits (· ≥ ·)
      (downTreeLoop t pageCount alignment k highVpn old l₁.getLast?) := by
  induction hj : l₁.length generalizing l₁ l₂ k highVpn old with
  | zero =>
    -- below the first node
    obtain rfl := length_eq_zero_iff.mp hj
    have hold' : old = l₂.head? := by simpa using hold
    have hlow := alignUpBy_div hpage
    cases l₂ with
    | nil => exact absurd (toList_eq_nil hl) hne
    | cons n l₂ =>
      simp only [getLast?_nil, downTreeLoop, hold', head?_cons, hlow]
      split
      · rename_i hfit
        have hc := child_left_none_of_first hi.wellLinked hl
        have hle := le_alignDownBy (y := highVpn - pageCount) ha
          (show alignUpBy (lowestUserAddress / pageSize) (alignment / pageSize) ≤ _ by omega)
        have hge := le_alignUpBy (x := lowestUserAddress / pageSize) ha
        obtain ⟨hfits, hhighest⟩ := fits_below_high hf rfl hl ha (by omega) hbound hhigh (by simp)
          (.inl (Nat.le_trans hge hle)) hbest
        refine ⟨_, _, _, rfl, .inr ⟨_, rfl, hfits, hhighest, hi.place_before hl hc (by simp) ?_⟩⟩
        exact below_high (Nat.le_trans hfit.2 (Nat.sub_le _ _)) hp hhigh
      · rename_i hfit
        refine ⟨_, _, _, rfl, .inl ⟨rfl, fun b hb => ?_⟩⟩
        have hend := hbest b hb
        rw [hf] at hb
        have hfirst : lowestUserAddress / pageSize ≤ b := by
          rcases hb.2.1.1 with hfirst | ⟨z, hz, hlt⟩
          · exact hfirst
          · have := hhigh z (by rw [hl] at hz; exact hz)
            have := hi.ranges z hz
            omega
        have := alignUpBy_le ha hb.1 hfirst
        omega
  | succ j ih =>
    obtain ⟨l, n, rfl, hlast⟩ := exists_snoc (l := l₁) (by
      rintro rfl
      simp at hj)
    obtain _ | k := k
    · omega
    have hl' : T.toList = l ++ n :: l₂ := by rw [hl]; simp
    obtain ⟨h1, hn, h2⟩ := hi.around hl'
    have hup := le_alignUpBy (x := t.endingVpn n + 1) ha
    simp only [hlast, downTreeLoop]
    split
    · -- the gap above `n` is large enough
      rename_i hfit
      have hlow := le_alignDownBy (y := highVpn - pageCount) ha
        (show alignUpBy (t.endingVpn n + 1) (alignment / pageSize) ≤ _ by omega)
      have hs : ∀ z ∈ l ++ [n], t.endingVpn z <
          alignDownBy (highVpn - pageCount) (alignment / pageSize) := by
        intro z hz
        rcases mem_append.mp hz with hz | hz
        · have := h1 z hz
          omega
        · obtain rfl := mem_singleton.mp hz
          omega
      obtain ⟨hfits, hhighest⟩ :=
        fits_below_high hf rfl hl ha (by omega) hbound hhigh hs (.inr (by simp)) hbest
      have he := below_high (a := alignment / pageSize) (by omega) hp hhigh
      by_cases hc : t.links.child .right n = none
      · rw [if_pos hc]
        exact ⟨_, _, _, rfl, .inr ⟨_, rfl, hfits, hhighest, hi.place_after hl' hc hs he⟩⟩
      -- the node looked at before is the first one of the right subtree
      rw [if_neg hc]
      cases l₂ with
      | nil => exact absurd (child_right_none_of_last hi.wellLinked hl') hc
      | cons o l₂ =>
        have hold' : old = some o := by grind
        have ho := (child_none_of_neighbours hi.wellLinked hl').resolve_left hc
        rw [hold']
        exact ⟨_, _, _, rfl, .inr ⟨_, rfl, hfits, hhighest, hi.place_before hl ho hs he⟩⟩
    · rename_i hfit
      rw [(neighbours hi.toAvlInv hl').1, bind_some]
      have hhigh' : ∀ z ∈ n :: l₂,
          (if t.startingVpn n < highVpn then t.startingVpn n else highVpn) ≤ t.startingVpn z := by
        intro z hz
        rcases mem_cons.mp hz with rfl | hz
        · split <;> omega
        · have := hhigh z hz
          split <;> omega
      -- what fits is not above `n`, where there was too little space
      have hbest' : ∀ b, fits b → b + pageCount ≤ if t.startingVpn n < highVpn then t.startingVpn n else highVpn := by
        intro b hb
        have hend := hbest b hb
        rw [hf] at hb
        rcases hb.2.2 n (by rw [hl']; simp) with hlt | hbelow
        · have hle : alignUpBy (t.endingVpn n + 1) (alignment / pageSize) ≤ b :=
            alignUpBy_le ha hb.1 hlt
          omega
        · split <;> omega
      exact ih hl' hhigh' (by split <;> omega) hbest' (.inl rfl) (by simp at hk; omega) (by simpa using hj)

omit [DecidableEq ν] in
theorem boundaryNode_spec (highVpn : Nat) {S : BinTree ν} {p x : ν}
    (hS : Linked t.links p (some x) S) (hk : S.toList.length ≤ k) :
    ∃ n l₁ l₂, boundaryNode t highVpn k x = some n ∧ S.toList = l₁ ++ n :: l₂ ∧
      (l₂ = [] ∨ highVpn ≤ t.endingVpn n) := by
  induction S generalizing p x k with
  | nil => simp at hS
  | node a y b _ ihb =>
    obtain ⟨hxy, -, -, hb⟩ := hS
    obtain rfl := some.inj hxy
    simp only [toList_node, length_append, length_cons] at hk
    obtain _ | k := k
    · omega
    by_cases hend : t.endingVpn x < highVpn
    · cases hc : t.links.child .right x with
      | none =>
        rw [hc] at hb
        obtain rfl := hb.eq_nil
        exact ⟨x, a.toList, [], by simp [boundaryNode, hend, hc], by simp, .inl rfl⟩
      | some y =>
        rw [hc] at hb
        obtain ⟨n, l₁, l₂, hrun, hl, h⟩ := ihb hb (k := k) (by omega)
        exact ⟨n, a.toList ++ x :: l₁, l₂, by simp [boundaryNode, hend, hc, hrun], by simp [hl], h⟩
    · exact ⟨x, a.toList, b.toList, by simp [boundaryNode, hend], rfl, .inr (by omega)⟩

/-! ## Section 7: The searches -/

omit [DecidableEq ν] in
theorem RangeInv.root (hi : RangeInv t T) (hne : T ≠ .nil) :
    ∃ x, t.links.child .right t.balancedRoot = some x ∧
      Linked t.links t.balancedRoot (some x) T ∧ T.toList.length ≤ t.fuel ∧
      t.numberGenericTableElements ≠ 0 := by
  have hl := (wellLinked_plug_cons.mp hi.wellLinked).2.2
  cases T with
  | nil => exact absurd rfl hne
  | node a x b =>
    have hx : t.links.child .right t.balancedRoot = some x := hl.1
    refine ⟨x, hx, hx ▸ hl, ?_, ?_⟩
    · simp only [AvlTable.fuel, hi.count]
      omega
    · simp [hi.count]

theorem bytesToPages_eq (length : Nat) : bytesToPages length = (length + 4095) / 4096 := by
  by_cases hm : length % 4096 = 0
  · simp only [bytesToPages, pageSize, hm, ne_eq, not_true_eq_false, if_false]
    omega
  · simp only [bytesToPages, pageSize, hm, ne_eq, not_false_eq_true, if_true]
    omega

theorem roundToPages_div (length : Nat) : roundToPages length / pageSize = bytesToPages length := by
  simp only [bytesToPages_eq, roundToPages, alignDownBy, pageSize]
  omega

theorem bytesToPages_pos (h : 0 < length) : 0 < bytesToPages length := by
  rw [bytesToPages_eq]
  omega

theorem alignment_pos (hpos : 0 < alignment) (ha : pageSize ∣ alignment) :
    0 < alignment / pageSize :=
  Nat.div_pos (Nat.le_of_dvd hpos ha) (by decide)

/-- Where the search starts and ends. -/
def firstVpn (L : AddressLayout) (t : MmAvlTable ν) : Nat :=
  if t.unused = 1 then L.systemLowVpn else lowestUserAddress / pageSize

def highestVpn (L : AddressLayout) (t : MmAvlTable ν) (alignmentVpn : Nat) : Nat :=
  if t.unused = 1 then alignUpBy L.systemHighVpn alignmentVpn
  else (L.highestVadAddress + 1) / pageSize

section

variable (L : AddressLayout) (hi : RangeInv t T) (hlen : 0 < length) (ha : 0 < alignment / pageSize)

include hi hlen ha

/-- In a table that is not empty the lowest base is found. -/
theorem miFindEmptyAddressRangeInTree_finds (hne : T ≠ .nil) :
    Finds t T (bytesToPages length) (Fits t T (bytesToPages length) (alignment / pageSize)
        (UpTo t T (firstVpn L t) (bytesToPages length) (highestVpn L t (alignment / pageSize)))) (· ≤ ·)
      (miFindEmptyAddressRangeInTree L t length alignment) := by
  obtain ⟨x, hx, hl, hfuel, hcount⟩ := hi.root hne
  obtain ⟨n, l, hn, -, hrun⟩ := lastChild_spec .left hl
  simp only [sideCons] at hn
  have hlow : (if t.unused = 1 then alignUpBy L.systemLowVpn (alignment / pageSize)
      else alignUpBy (lowestUserAddress / pageSize) (alignment / pageSize)) =
      alignUpBy (firstVpn L t) (alignment / pageSize) := by
    unfold firstVpn
    split <;> rfl
  simp only [miFindEmptyAddressRangeInTree, hcount, if_false, hx, hrun _ hfuel, bind_some, hlow]
  have hn' : T.toList = [] ++ n :: l := hn
  exact inTreeLoop_spec rfl hi hne ha (bytesToPages_pos hlen) hn' (by simp) (dvd_alignUpBy _ _)
    (le_alignUpBy ha) (fun b hb => alignUpBy_le ha hb.1 hb.2.1.1) (by rw [← hn]; exact hfuel)

theorem miFindEmptyAddressRangeInTree_spec :
    Searched t T (bytesToPages length) (miFindEmptyAddressRangeInTree L t length alignment) := by
  by_cases hne : T = .nil
  · subst hne
    simp only [miFindEmptyAddressRangeInTree, hi.count, toList_nil, length_nil, if_true]
    exact ⟨_, _, _, rfl, .inr ⟨_, rfl, .inl ⟨rfl, rfl⟩⟩⟩
  · exact (miFindEmptyAddressRangeInTree_finds L hi hlen ha hne).searched

end

section

variable (L : AddressLayout) (boundaryAddress : Nat) (hi : RangeInv t T) (hlen : 0 < length)
  (hpos : 0 < alignment) (ha : pageSize ∣ alignment)

include hi hlen hpos ha

/-- In a table that is not empty the highest base is found, unless the space below the boundary
is too small. -/
theorem miFindEmptyAddressRangeDownTree_finds (hne : T ≠ .nil)
    (hspace : ¬ boundaryAddress + 1 < (if t.unused = 1 then alignUpBy L.systemLowVpn (alignment / pageSize)
      else alignUpBy lowestUserAddress alignment) + roundToPages length) :
    Finds t T (roundToPages length / pageSize) (Fits t T (roundToPages length / pageSize)
        (alignment / pageSize) (DownFrom t T (lowestUserAddress / pageSize)
          (roundToPages length / pageSize) ((boundaryAddress + 1) / pageSize))) (· ≥ ·)
      (miFindEmptyAddressRangeDownTree L t length boundaryAddress alignment) := by
  obtain ⟨x, hx, hl, hfuel, hcount⟩ := hi.root hne
  obtain ⟨n, l₁, l₂, hrun, hn, hbound⟩ :=
    boundaryNode_spec ((boundaryAddress + 1) / pageSize) hl hfuel
  simp only [miFindEmptyAddressRangeDownTree, if_neg hspace, if_neg hcount, hx, hrun, bind_some]
  have hpages : 0 < roundToPages length / pageSize := by
    rw [roundToPages_div]
    exact bytesToPages_pos hlen
  have hn' : T.toList = (l₁ ++ [n]) ++ l₂ := by rw [hn]; simp
  have hhigh : ∀ z ∈ l₂, (boundaryAddress + 1) / pageSize ≤ t.startingVpn z := by
    intro z hz
    rcases hbound with rfl | hb
    · cases hz
    · have := (hi.around hn).2.2 z hz
      omega
  have hold : none = l₂.head? ∨
      ∃ n' ∈ (l₁ ++ [n]).getLast?, (boundaryAddress + 1) / pageSize ≤ t.endingVpn n' := by
    rcases hbound with rfl | hb
    · exact .inl rfl
    · exact .inr ⟨n, by simp, hb⟩
  have hs := downTreeLoop_spec (k := t.fuel) rfl hi hne ha (alignment_pos hpos ha) hpages hn' hhigh
    (Nat.le_refl _) (fun b hb => hb.2.1.2) hold (by
      rw [hn'] at hfuel
      simp only [length_append] at hfuel ⊢
      omega)
  simpa using hs

theorem miFindEmptyAddressRangeDownTree_spec : Searched t T (roundToPages length / pageSize)
      (miFindEmptyAddressRangeDownTree L t length boundaryAddress alignment) := by
  by_cases hspace : boundaryAddress + 1 < (if t.unused = 1 then
      alignUpBy L.systemLowVpn (alignment / pageSize) else alignUpBy lowestUserAddress alignment) +
      roundToPages length
  · simp only [miFindEmptyAddressRangeDownTree, if_pos hspace]
    exact ⟨_, _, _, rfl, .inl rfl⟩
  by_cases hne : T = .nil
  · subst hne
    have hcount : t.numberGenericTableElements = 0 := hi.count
    simp only [miFindEmptyAddressRangeDownTree, if_neg hspace, if_pos hcount]
    obtain ⟨q, rfl⟩ := ha
    refine ⟨_, _, _, rfl, .inr ⟨(boundaryAddress + 1 - roundToPages length) / (pageSize * q) * q,
      ?_, .inl ⟨rfl, rfl⟩⟩⟩
    simp only [alignDownBy, Nat.mul_assoc, Nat.mul_comm pageSize q]
  · exact (miFindEmptyAddressRangeDownTree_finds L boundaryAddress hi hlen hpos ha hne hspace).searched

end

end Search

/-! ## Section 8: Checks and lookups -/

variable {r : TableSearchResult} {parent : Option ν} {startVpn endVpn : Nat}

section Find

variable {t : MmAvlTable ν} {T : BinTree ν}
omit [DecidableEq ν]

/-- How `MiCheckForConflictingNode` compares a range with a node. -/
def conflictRoutine (t : MmAvlTable ν) (startVpn endVpn : Nat) (n : ν) : Ordering :=
  if t.endingVpn n < startVpn then .gt else if endVpn < t.startingVpn n then .lt else .eq

theorem conflictLoop_eq (t : MmAvlTable ν) (startVpn endVpn k : Nat) (x p : ν) :
    conflictLoop t startVpn endVpn k (some x) p =
      findLoop t.links (conflictRoutine t startVpn endVpn) k x := by
  induction k generalizing x p with
  | zero => rfl
  | succ k ih =>
    rw [conflictLoop, findLoop]
    by_cases h1 : t.endingVpn x < startVpn
    · simp only [conflictRoutine, h1, if_true]
      cases t.links.child .right x with
      | none => cases k <;> simp [conflictLoop, h1]
      | some y => exact ih y x
    by_cases h2 : endVpn < t.startingVpn x
    · simp only [conflictRoutine, h1, h2, if_true, if_false]
      cases t.links.child .left x with
      | none => cases k <;> simp [conflictLoop, h1]
      | some y => exact ih y x
    · simp only [conflictRoutine, h1, h2, if_false]

theorem miCheckForConflictingNode_eq (t : MmAvlTable ν) (startVpn endVpn : Nat) :
    miCheckForConflictingNode t startVpn endVpn =
      rtlpFindAvlTableNodeOrParent t.toAvlTable (conflictRoutine t startVpn endVpn) := by
  simp only [miCheckForConflictingNode, rtlpFindAvlTableNodeOrParent, conflictLoop_eq]
  rfl

/-- Two nodes of the tree in their order. -/
theorem RangeInv.pairwise (hi : RangeInv t T) {R : ν → ν → Prop}
    (h : ∀ x y, t.startingVpn x ≤ t.endingVpn x → t.endingVpn x < t.startingVpn y →
      t.startingVpn y ≤ t.endingVpn y → R x y) : T.toList.Pairwise R := by
  apply hi.ordered.imp_of_mem
  intro x y hx hy hxy
  exact h x y (hi.ranges x hx) hxy (hi.ranges y hy)

section Routines

variable {startVpn endVpn vpn : Nat} {n : ν}

theorem conflictRoutine_gt : conflictRoutine t startVpn endVpn n = .gt ↔
    t.endingVpn n < startVpn := by
  grind [conflictRoutine]

theorem conflictRoutine_lt : conflictRoutine t startVpn endVpn n = .lt ↔
    startVpn ≤ t.endingVpn n ∧ endVpn < t.startingVpn n := by
  grind [conflictRoutine]

theorem miAvlCompareRoutine_lt : miAvlCompareRoutine t vpn n = .lt ↔ vpn < t.startingVpn n := by
  grind [miAvlCompareRoutine]

theorem miAvlCompareRoutine_gt : miAvlCompareRoutine t vpn n = .gt ↔
    t.startingVpn n ≤ vpn ∧ t.endingVpn n < vpn := by
  grind [miAvlCompareRoutine]

theorem miAvlCompareRoutine_eq : miAvlCompareRoutine t vpn n = .eq ↔
    t.startingVpn n ≤ vpn ∧ vpn ≤ t.endingVpn n := by
  grind [miAvlCompareRoutine]

end Routines

theorem RangeInv.cut_conflict (hi : RangeInv t T) (startVpn endVpn : Nat) :
    Cut (conflictRoutine t startVpn endVpn) T.toList := by
  apply hi.pairwise
  intro x y hx hxy hy
  rw [conflictRoutine_lt, conflictRoutine_lt, conflictRoutine_gt, conflictRoutine_gt]
  constructor <;> omega

theorem RangeInv.cut_vpn (hi : RangeInv t T) (vpn : Nat) :
    Cut (miAvlCompareRoutine t vpn) T.toList := by
  apply hi.pairwise
  intro x y hx hxy hy
  rw [miAvlCompareRoutine_lt, miAvlCompareRoutine_lt, miAvlCompareRoutine_gt,
    miAvlCompareRoutine_gt]
  constructor <;> omega

/-- No page of the range belongs to a node. -/
def Free (t : MmAvlTable ν) (T : BinTree ν) (startVpn endVpn : Nat) : Prop :=
  ∀ z ∈ T.toList, t.endingVpn z < startVpn ∨ endVpn < t.startingVpn z

theorem mem_plug_nil {c : Ctx ν} {z : ν} :
    z ∈ (plug c .nil).toList ↔ z ∈ c.before ∨ z ∈ c.after := by
  rw [toList_plug, toList_nil, append_nil, mem_append]

theorem FreePlace.free (h : FreePlace t T r parent startVpn endVpn) : Free t T startVpn endVpn := by
  rcases h with ⟨rfl, -⟩ | ⟨f, c, rfl, -, -, hb, ha⟩
  · intro z hz
    simp at hz
  · exact fun z hz => (mem_plug_nil.mp hz).imp (hb z) (ha z)

theorem FreePlace.ne_found (h : FreePlace t T r parent startVpn endVpn) : r ≠ .tableFoundNode := by
  rcases h with ⟨-, rfl⟩ | ⟨f, c, -, rfl, -⟩
  · simp
  · cases hs : f.side <;> simp [insertAs]

theorem miCheckForConflictingNode_spec (hi : RangeInv t T) (startVpn endVpn : Nat) :
    ∃ r parent, miCheckForConflictingNode t startVpn endVpn = some (r, parent) ∧
      (r = .tableFoundNode ∨ FreePlace t T r parent startVpn endVpn) := by
  rw [miCheckForConflictingNode_eq]
  rcases rtlpFindAvlTableNodeOrParent_spec hi.toAvlInv (hi.cut_conflict startVpn endVpn) with
    ⟨rfl, hfind⟩ | ⟨n, -, -, hfind⟩ | ⟨f, c, rfl, hcut, hfind⟩
  · exact ⟨_, _, hfind, .inr (.inl ⟨rfl, rfl⟩)⟩
  · exact ⟨_, _, hfind, .inl rfl⟩
  · refine ⟨_, _, hfind, .inr (.inr ⟨f, c, rfl, rfl, rfl, ?_, ?_⟩)⟩
    · intro z hz
      exact conflictRoutine_gt.mp (hcut.before z hz)
    · intro z hz
      exact (conflictRoutine_lt.mp (hcut.after z hz)).2

/-- The search of `MiInsertVad`, which looks at the first page only. -/
theorem find_free (hi : RangeInv t T) (h : startVpn ≤ endVpn) (hfree : Free t T startVpn endVpn) :
    ∃ r parent, rtlpFindAvlTableNodeOrParent t.toAvlTable (miAvlCompareRoutine t startVpn) =
      some (r, parent) ∧ FreePlace t T r parent startVpn endVpn := by
  rcases rtlpFindAvlTableNodeOrParent_spec hi.toAvlInv (hi.cut_vpn startVpn) with
    ⟨rfl, hfind⟩ | ⟨n, hn, he, hfind⟩ | ⟨f, c, hT, hcut, hfind⟩
  · exact ⟨_, _, hfind, .inl ⟨rfl, rfl⟩⟩
  · -- a node that holds the first page would not leave the range free
    have hc := miAvlCompareRoutine_eq.mp he
    have hn' := hfree n hn
    omega
  refine ⟨_, _, hfind, .inr ⟨f, c, hT, rfl, rfl, ?_, ?_⟩⟩
  · intro z hz
    exact (miAvlCompareRoutine_gt.mp (hcut.before z hz)).2
  intro z hz
  have hc := miAvlCompareRoutine_lt.mp (hcut.after z hz)
  have hzT : z ∈ T.toList := by
    rw [hT]
    exact mem_plug_nil.mpr (.inr hz)
  have hz' := hfree z hzT
  have hr := hi.ranges z hzT
  omega

theorem RangeInv.unique (hi : RangeInv t T) {x y : ν} {vpn : Nat} (hx : x ∈ T.toList)
    (hy : y ∈ T.toList) (h1 : t.startingVpn x ≤ vpn) (h2 : vpn ≤ t.endingVpn x)
    (h3 : t.startingVpn y ≤ vpn) (h4 : vpn ≤ t.endingVpn y) : x = y := by
  obtain ⟨l₁, l₂, hl⟩ := append_of_mem hy
  obtain ⟨hb, -, ha⟩ := hi.around hl
  rw [hl, mem_append, mem_cons] at hx
  rcases hx with hx | hx | hx
  · have := hb x hx
    omega
  · exact hx
  · have := ha x hx
    omega

/-- `MiLocateVad` finds the node that holds the page of the address, if there is one. -/
theorem miLocateVad_spec (hi : VadInv t T) (address : Nat) :
    ∃ t' o, miLocateVad t address = some (t', o) ∧ VadInv t' T ∧
      ∀ n, o = some n ↔ n ∈ T.toList ∧ t.startingVpn n ≤ address / pageSize ∧
        address / pageSize ≤ t.endingVpn n := by
  obtain ⟨vpn, hvpn⟩ : ∃ vpn, vpn = address / pageSize := ⟨_, rfl⟩
  rw [← hvpn]
  cases hh : t.nodeHint with
  | none =>
    obtain rfl := hi.hint_none hh
    exact ⟨t, none, by simp [miLocateVad, hh], hi, by simp⟩
  | some found =>
    have hf := hi.hint found hh
    by_cases hin : t.startingVpn found ≤ vpn ∧ vpn ≤ t.endingVpn found
    · refine ⟨t, some found, by simp [miLocateVad, hh, ← hvpn, hin], hi, ?_⟩
      intro n
      constructor
      · rintro ⟨⟩
        exact ⟨hf, hin⟩
      · rintro ⟨hn, h1, h2⟩
        rw [hi.unique hn hf h1 h2 hin.1 hin.2]
    have hrun : ∀ r, rtlpFindAvlTableNodeOrParent t.toAvlTable (miAvlCompareRoutine t vpn) =
        some r → miLocateVad t address = some (if r.1 ≠ .tableFoundNode then (t, none)
          else ({ t with nodeHint := r.2 }, r.2)) := by
      intro r hr
      simp only [miLocateVad, hh, ← hvpn, hin, if_false, hr, map_some]
    rcases rtlpFindAvlTableNodeOrParent_spec hi.toAvlInv (hi.cut_vpn vpn) with
      ⟨rfl, hfind⟩ | ⟨y, hy, he, hfind⟩ | ⟨f, c, rfl, hcut, hfind⟩
    · cases hf
    · -- the hint moves to the node that was found
      have hy' := miAvlCompareRoutine_eq.mp he
      refine ⟨{ t with nodeHint := some y }, some y, hrun _ hfind,
        ⟨⟨hi.toAvlInv, hi.ranges, hi.ordered⟩, ?_, ?_⟩, ?_⟩
      · rintro h ⟨⟩
        exact hy
      · intro h
        cases h
      · intro n
        constructor
        · rintro ⟨⟩
          exact ⟨hy, hy'⟩
        · rintro ⟨hn, h1, h2⟩
          rw [hi.unique hn hy h1 h2 hy'.1 hy'.2]
    · have hne : insertAs f.side ≠ .tableFoundNode := by
        cases f.side <;> simp [insertAs]
      refine ⟨t, none, by rw [hrun _ hfind, if_pos hne], hi, ?_⟩
      intro n
      simp only [reduceCtorEq, false_iff]
      rintro ⟨hn, hr⟩
      exact hcut.ne_eq hn (miAvlCompareRoutine_eq.mpr hr)

end Find

/-! ## Section 9: Insertion and removal -/

section Update

variable {t : MmAvlTable ν} {T : BinTree ν} {vad : ν}

/-- The VAD gets its range, and becomes the hint. -/
def MmAvlTable.withRange (t : MmAvlTable ν) (vad : ν) (startVpn endVpn : Nat) : MmAvlTable ν :=
  { t.setRange vad startVpn endVpn with nodeHint := some vad }

theorem withRange_self (t : MmAvlTable ν) (vad : ν) (startVpn endVpn : Nat) :
    (t.withRange vad startVpn endVpn).startingVpn vad = startVpn ∧
      (t.withRange vad startVpn endVpn).endingVpn vad = endVpn := by
  simp [MmAvlTable.withRange, MmAvlTable.setRange]

/-- A node that is not in the tree may be given any range. -/
theorem RangeInv.withRange (hi : RangeInv t T) (hv : vad ∉ T.toList) (startVpn endVpn : Nat) :
    RangeInv (t.withRange vad startVpn endVpn) T ∧
      ∀ z ∈ T.toList, (t.withRange vad startVpn endVpn).startingVpn z = t.startingVpn z ∧
        (t.withRange vad startVpn endVpn).endingVpn z = t.endingVpn z := by
  have hkeep : ∀ z ∈ T.toList, (t.withRange vad startVpn endVpn).startingVpn z = t.startingVpn z ∧
      (t.withRange vad startVpn endVpn).endingVpn z = t.endingVpn z := by
    intro z hz
    have hne : z ≠ vad := fun e => hv (e ▸ hz)
    simp [MmAvlTable.withRange, MmAvlTable.setRange, hne]
  refine ⟨⟨hi.toAvlInv, ?_, ?_⟩, hkeep⟩
  · intro x hx
    rw [(hkeep x hx).1, (hkeep x hx).2]
    exact hi.ranges x hx
  · apply hi.ordered.imp_of_mem
    intro x y hx hy hxy
    rw [(hkeep x hx).2, (hkeep y hy).1]
    exact hxy

omit [DecidableEq ν] in
theorem FreePlace.congr {t' : MmAvlTable ν} (h : FreePlace t T r parent startVpn endVpn)
    (hkeep : ∀ z ∈ T.toList, t'.startingVpn z = t.startingVpn z ∧ t'.endingVpn z = t.endingVpn z) :
    FreePlace t' T r parent startVpn endVpn := by
  rcases h with h | ⟨f, c, rfl, hr, hp, hb, ha⟩
  · exact .inl h
  refine .inr ⟨f, c, rfl, hr, hp, ?_, ?_⟩
  · intro z hz
    rw [(hkeep z (mem_plug_nil.mpr (.inl hz))).2]
    exact hb z hz
  · intro z hz
    rw [(hkeep z (mem_plug_nil.mpr (.inr hz))).1]
    exact ha z hz

/-- A VAD with a range of its own is linked in at a free place. -/
theorem miInsertNode_spec (hi : RangeInv t T)
    (hp : FreePlace t T r parent (t.startingVpn vad) (t.endingVpn vad))
    (hle : t.startingVpn vad ≤ t.endingVpn vad) (hv : vad ∉ T.toList) (hr : vad ≠ t.balancedRoot)
    (hh : t.nodeHint = some vad) :
    ∃ t' T', miInsertNode t vad parent r = some t' ∧ VadInv t' T' ∧
      T'.toList.Perm (vad :: T.toList) := by
  -- the new sequence has the node between those below and those above it
  obtain ⟨a, T', l₁, l₂, hrun, hinv, hT, hT', hb, ha⟩ : ∃ a T' l₁ l₂,
      rtlpInsertAvlTreeNode t.toAvlTable vad parent r = some a ∧ AvlInv a T' ∧ T.toList = l₁ ++ l₂ ∧ T'.toList = l₁ ++ vad :: l₂ ∧
      (∀ z ∈ l₁, t.endingVpn z < t.startingVpn vad) ∧
      ∀ z ∈ l₂, t.endingVpn vad < t.startingVpn z := by
    rcases hp with ⟨rfl, rfl⟩ | ⟨f, c, rfl, hres, rfl, hb, ha⟩
    · obtain ⟨a, hrun, hinv, -⟩ := rtlpInsertAvlTreeNode_empty hi.toAvlInv hr parent
      exact ⟨a, _, [], [], hrun, hinv, rfl, rfl, by simp, by simp⟩
    · obtain ⟨a, T', hrun, hinv, hT', -⟩ := rtlpInsertAvlTreeNode_spec hi.toAvlInv hv hr hres
      rw [toList_plug] at hT'
      exact ⟨a, T', _, _, hrun, hinv, by rw [toList_plug]; simp, by rw [hT']; simp, hb, ha⟩
  have hperm : T'.toList.Perm (vad :: T.toList) := by
    rw [hT, hT']
    exact perm_middle
  refine ⟨{ t with toAvlTable := a }, T', by simp [miInsertNode, hrun], ⟨⟨hinv, ?_, ?_⟩, ?_, ?_⟩,
    hperm⟩
  · intro x hx
    rcases mem_cons.mp (hperm.mem_iff.mp hx) with rfl | hx
    · exact hle
    · exact hi.ranges x hx
  · have ho := hi.ordered
    rw [hT, pairwise_append] at ho
    rw [hT', pairwise_append, pairwise_cons]
    refine ⟨ho.1, ⟨ha, ho.2.1⟩, ?_⟩
    intro x hx y hy
    rcases mem_cons.mp hy with rfl | hy
    · exact hb x hx
    · exact ho.2.2 x hx y hy
  · intro h hh'
    simp only [hh] at hh'
    obtain rfl := some.inj hh'
    rw [hT']
    simp
  · intro h
    simp [hh] at h

section

variable (hi : RangeInv t T) (hv : vad ∉ T.toList) (hroot : vad ≠ t.balancedRoot)
  (hle : startVpn ≤ endVpn)

include hi hv hroot hle

/-- A VAD gets its range and is linked in at a place that is free. -/
theorem miInsertNode_setRange (hp : FreePlace t T r parent startVpn endVpn) :
    ∃ t' T', miInsertNode (t.withRange vad startVpn endVpn) vad parent r = some t' ∧
      VadInv t' T' ∧ T'.toList.Perm (vad :: T.toList) := by
  obtain ⟨hr, hkeep⟩ := hi.withRange hv startVpn endVpn
  obtain ⟨hs, he⟩ := withRange_self t vad startVpn endVpn
  refine miInsertNode_spec hr ?_ (by rw [hs, he]; exact hle) hv hroot rfl
  rw [hs, he]
  exact hp.congr hkeep

/-- `MiInsertVad` of a VAD whose range is free. -/
theorem miInsertVad_spec (hfree : Free t T startVpn endVpn) :
    ∃ t' T', miInsertVad (t.setRange vad startVpn endVpn) vad = some t' ∧ VadInv t' T' ∧
      T'.toList.Perm (vad :: T.toList) := by
  obtain ⟨hr, hkeep⟩ := hi.withRange hv startVpn endVpn
  have hfree' : Free (t.withRange vad startVpn endVpn) T startVpn endVpn := by
    intro z hz
    rw [(hkeep z hz).1, (hkeep z hz).2]
    exact hfree z hz
  -- where the search of `MiInsertVad` ends is free in the table without the VAD as well
  obtain ⟨r, parent, hfind, hp⟩ := find_free hr hle hfree'
  have hp' : FreePlace t T r parent startVpn endVpn :=
    hp.congr fun z hz => ⟨(hkeep z hz).1.symm, (hkeep z hz).2.symm⟩
  obtain ⟨t', T', hins, hinv, hperm⟩ := miInsertNode_setRange hi hv hroot hle hp'
  refine ⟨t', T', ?_, hinv, hperm⟩
  have hs : (t.setRange vad startVpn endVpn).startingVpn vad = startVpn :=
    (withRange_self t vad startVpn endVpn).1
  simp only [miInsertVad, hs]
  exact (congrArg (Option.bind · _) hfind).trans hins

end

theorem miRemoveNode_spec (hi : VadInv t T) (hv : vad ∈ T.toList) :
    ∃ t' T', miRemoveNode t vad = some t' ∧ VadInv t' T' ∧ T'.toList = T.toList.erase vad := by
  obtain ⟨a, T', hrun, hinv, hT', -⟩ := rtlpDeleteAvlTreeNode_spec hi.toAvlInv hv
  generalize ha' : { a with numberGenericTableElements := _ } = a' at hinv
  have hnd := hi.toHolds.nodup
  have hsub : ∀ z ∈ T'.toList, z ∈ T.toList := by
    intro z hz
    rw [hT'] at hz
    exact mem_of_mem_erase hz
  -- the root's right child, which becomes the hint, is the root of the tree
  have hchild : a'.links.child .right a'.balancedRoot = T'.root? := by
    have hl := (wellLinked_plug_cons.mp hinv.wellLinked).2.2
    exact hl.root?_eq.symm
  refine ⟨{ t with
    toAvlTable := a'
    nodeHint := if t.nodeHint = some vad then
      if a'.numberGenericTableElements = 0 then none else a'.links.child .right a'.balancedRoot
      else t.nodeHint }, T', ?_, ⟨⟨hinv, ?_, ?_⟩, ?_, ?_⟩, hT'⟩
  · simp [miRemoveNode, hrun, ← ha']
  · intro x hx
    exact hi.ranges x (hsub x hx)
  · rw [hT']
    exact hi.ordered.sublist erase_sublist
  · intro h hm
    simp only at hm
    split at hm
    · split at hm
      · cases hm
      rw [hchild] at hm
      cases T' with
      | nil => cases hm
      | node l x r =>
        obtain rfl : x = h := some.inj hm
        simp
    rename_i hne
    rw [hT', hnd.mem_erase_iff]
    refine ⟨?_, hi.hint h hm⟩
    rintro rfl
    exact hne hm
  · intro hm
    simp only at hm
    split at hm
    · split at hm
      · rename_i h0
        rw [hinv.count] at h0
        exact toList_eq_nil (length_eq_zero_iff.mp h0)
      rw [hchild] at hm
      cases T' with
      | nil => rfl
      | node l x r => cases hm
    · have hnil := hi.hint_none hm
      rw [hnil] at hv
      cases hv

end Update

/-! ## Section 10: Runs -/

/-- A table, and the VADs that were inserted and not removed. -/
structure VadSpace (ν : Type) where
  table : MmAvlTable ν
  vads : List ν

inductive VadOperation (ν : Type) where
  | insertVad (vad : ν) (startVpn endVpn : Nat)
  | insertInTree (vad : ν) (length alignment : Nat)
  | insertDownTree (vad : ν) (length boundaryAddress alignment : Nat)
  | insertVadEx (vad : ν) (baseAddress viewSize highestAddress alignment : Nat) (topDown : Bool)
  | removeNode (vad : ν)
  | locateVad (virtualAddress : Nat)

inductive VadAnswer (ν : Type) where
  | inserted (status : Status)
  | removed
  | located (vad : Option ν)
  deriving DecidableEq

namespace VadSpace

/-- The VAD is in no table, and it is not the root of this one. -/
def Fresh (s : VadSpace ν) (vad : ν) : Prop := vad ≠ s.table.balancedRoot ∧ vad ∉ s.vads

/-- The range of a VAD is set, and the VAD inserted by `MiInsertVad`. -/
def insertRange (s : VadSpace ν) (vad : ν) (startVpn endVpn : Nat) :
    Option (VadSpace ν × VadAnswer ν) :=
  (miInsertVad (s.table.setRange vad startVpn endVpn) vad).map fun t =>
    (⟨t, vad :: s.vads⟩, .inserted .success)

/-- A VAD is inserted where a search ended. -/
def insertFound (s : VadSpace ν) (vad : ν) (length : Nat)
    (search : Option (TableSearchResult × Option ν × Nat)) : Option (VadSpace ν × VadAnswer ν) :=
  search.bind fun (result, _, base) =>
    if result = .tableFoundNode then some (s, .inserted .noMemory)
    else s.insertRange vad (base / pageSize) ((base + length - 1) / pageSize)

def step (L : AddressLayout) (s : VadSpace ν) : VadOperation ν → Option (VadSpace ν × VadAnswer ν)
  | .insertVad vad startVpn endVpn =>
    (miCheckForConflictingNode s.table startVpn endVpn).bind fun (result, _) =>
      if result = .tableFoundNode then some (s, .inserted .conflictingAddresses)
      else s.insertRange vad startVpn endVpn
  | .insertInTree vad length alignment =>
    s.insertFound vad length (miFindEmptyAddressRangeInTree L s.table length alignment)
  | .insertDownTree vad length boundaryAddress alignment =>
    s.insertFound vad length
      (miFindEmptyAddressRangeDownTree L s.table length boundaryAddress alignment)
  | .insertVadEx vad baseAddress viewSize highestAddress alignment topDown =>
    (miInsertVadEx L s.table vad baseAddress viewSize highestAddress alignment topDown).map
      fun (t, status) =>
        (⟨t, if status = .success then vad :: s.vads else s.vads⟩, .inserted status)
  | .removeNode vad =>
    (miRemoveNode s.table vad).map fun t => (⟨t, s.vads.erase vad⟩, .removed)
  | .locateVad virtualAddress =>
    (miLocateVad s.table virtualAddress).map fun (t, vad) => (⟨t, s.vads⟩, .located vad)

end VadSpace

/-- Alignments are powers of two and multiples of the page size. -/
def ValidAlignment (alignment : Nat) : Prop :=
  0 < alignment ∧ pageSize ∣ alignment ∧ alignment &&& (alignment - 1) = 0

/-- Sizes and addresses that the callers let through. -/
def ValidSize (L : AddressLayout) (length : Nat) : Prop := 0 < length ∧ length ≤ L.highestVadAddress

def VadSpace.Legal (L : AddressLayout) (s : VadSpace ν) : VadOperation ν → Prop
  | .insertVad vad startVpn endVpn => s.Fresh vad ∧ startVpn ≤ endVpn
  | .insertInTree vad length alignment =>
    s.Fresh vad ∧ ValidSize L length ∧ ValidAlignment alignment
  | .insertDownTree vad length boundaryAddress alignment =>
    s.Fresh vad ∧ ValidSize L length ∧ ValidAlignment alignment ∧
      boundaryAddress ≤ L.highestVadAddress
  | .insertVadEx vad baseAddress viewSize _ alignment _ =>
    s.Fresh vad ∧ ValidSize L viewSize ∧ ValidAlignment alignment ∧
      baseAddress ≤ L.highestVadAddress
  | .removeNode vad => vad ∈ s.vads
  | .locateVad _ => True

instance (s : VadSpace ν) (vad : ν) : Decidable (s.Fresh vad) := inferInstanceAs (Decidable (_ ∧ _))

instance (alignment : Nat) : Decidable (ValidAlignment alignment) :=
  inferInstanceAs (Decidable (_ ∧ _ ∧ _))

instance (L : AddressLayout) (length : Nat) : Decidable (ValidSize L length) :=
  inferInstanceAs (Decidable (_ ∧ _))

instance (L : AddressLayout) (s : VadSpace ν) (a : VadOperation ν) : Decidable (s.Legal L a) :=
  match a with
  | .insertVad .. => inferInstanceAs (Decidable (_ ∧ _))
  | .insertInTree .. => inferInstanceAs (Decidable (_ ∧ _ ∧ _))
  | .insertDownTree .. => inferInstanceAs (Decidable (_ ∧ _ ∧ _ ∧ _))
  | .insertVadEx .. => inferInstanceAs (Decidable (_ ∧ _ ∧ _ ∧ _))
  | .removeNode vad => inferInstanceAs (Decidable (vad ∈ s.vads))
  | .locateVad _ => .isTrue trivial

/-- An empty table: the root is its own parent and has no children. -/
def EmptyTable (t : MmAvlTable ν) : Prop :=
  t.links.parent t.balancedRoot = t.balancedRoot ∧ (∀ s, t.links.child s t.balancedRoot = none) ∧
    t.numberGenericTableElements = 0 ∧ t.depthOfTree = 0 ∧ t.nodeHint = none

def vadSystem (L : AddressLayout) : System (VadSpace ν) (VadOperation ν) (VadAnswer ν) where
  init s := EmptyTable s.table ∧ s.vads = []
  legal s a := s.Legal L a
  step s a := s.step L a

instance (L : AddressLayout) (s : VadSpace ν) (a : VadOperation ν) :
    Decidable ((vadSystem L).legal s a) := inferInstanceAs (Decidable (s.Legal L a))

/-- The invariant of all runs. -/
def VadSpace.Inv (s : VadSpace ν) : Prop := ∃ T, VadInv s.table T ∧ s.vads.Perm T.toList

section Runs

variable {L : AddressLayout} {s : VadSpace ν} {T : BinTree ν} {vad : ν}

omit [DecidableEq ν] in
theorem emptyTable_inv {t : MmAvlTable ν} (h : EmptyTable t) : VadInv t .nil := by
  obtain ⟨hp, hc, hcount, hdepth, hh⟩ := h
  refine ⟨⟨⟨⟨⟨?_, ?_⟩, trivial⟩, hcount, hdepth⟩, by simp, by simp⟩, by simp [hh], fun _ => rfl⟩
  · simp [sentinel, BinTree.join]
  · intro r hr
    have hr' : t.balancedRoot = r := by simpa [sentinel, BinTree.join, BinTree.root?] using hr
    subst hr'
    simp [sentinel, BinTree.join, Linked, hp, hc]

omit [DecidableEq ν] in
theorem VadSpace.Fresh.not_mem (hf : s.Fresh vad) (hv : s.vads.Perm T.toList) : vad ∉ T.toList :=
  fun h => hf.2 (hv.mem_iff.mpr h)

section

variable (hi : VadInv s.table T) (hv : s.vads.Perm T.toList) (hf : s.Fresh vad)
  (hle : startVpn ≤ endVpn)

include hi hv hf hle

/-- The range of a VAD is set, and the VAD linked in where a search ended. -/
theorem insertAtPlace_spec (hp : FreePlace s.table T r parent startVpn endVpn) :
    ∃ t', miInsertNode { s.table.setRange vad startVpn endVpn with nodeHint := some vad } vad
        parent r = some t' ∧ VadSpace.Inv ⟨t', vad :: s.vads⟩ := by
  obtain ⟨t', T', hrun, hinv, hperm⟩ :=
    miInsertNode_setRange hi.toRangeInv (hf.not_mem hv) hf.1 hle hp
  exact ⟨t', hrun, T', hinv, (hv.cons vad).trans hperm.symm⟩

/-- `MiInsertVad` of a VAD whose range is free, in a space. -/
theorem insertRange_spec (hfree : Free s.table T startVpn endVpn) :
    ∃ s' a, s.insertRange vad startVpn endVpn = some (s', a) ∧ s'.Inv := by
  obtain ⟨t', T', hrun, hinv, hperm⟩ :=
    miInsertVad_spec hi.toRangeInv (hf.not_mem hv) hf.1 hle hfree
  refine ⟨⟨t', vad :: s.vads⟩, .inserted .success, ?_, T', hinv, (hv.cons vad).trans hperm.symm⟩
  simp only [VadSpace.insertRange, hrun, map_some]

end

theorem last_page (h : 0 < length) (lowVpn : Nat) :
    (lowVpn * pageSize + length - 1) / pageSize = lowVpn + bytesToPages length - 1 := by
  simp only [bytesToPages_eq, pageSize]
  omega

theorem insertFound_spec (hi : VadInv s.table T) (hv : s.vads.Perm T.toList) (hf : s.Fresh vad)
    (hlen : 0 < length) {o : Option (TableSearchResult × Option ν × Nat)}
    (ho : Searched s.table T (bytesToPages length) o) :
    ∃ s' a, s.insertFound vad length o = some (s', a) ∧ s'.Inv := by
  obtain ⟨r, parent, base, rfl, hr⟩ := ho
  by_cases hfound : r = .tableFoundNode
  · exact ⟨s, .inserted .noMemory, by simp [VadSpace.insertFound, hfound], T, hi, hv⟩
  obtain ⟨lowVpn, rfl, hp⟩ := hr.resolve_left hfound
  have hdiv : lowVpn * pageSize / pageSize = lowVpn := Nat.mul_div_cancel _ (by decide)
  have hpages := bytesToPages_pos hlen
  obtain ⟨s', a, hrun, hinv⟩ := insertRange_spec hi hv hf (by omega) hp.free
  refine ⟨s', a, ?_, hinv⟩
  simp only [VadSpace.insertFound, bind_some, hfound, if_false, hdiv, last_page hlen]
  exact hrun

theorem roundToPages_ge (h : 0 < length) : pageSize ≤ alignUpBy length pageSize := by
  simp only [alignUpBy, alignDownBy, pageSize]
  omega

theorem miInsertVadEx_spec (hi : VadInv s.table T) (hv : s.vads.Perm T.toList) (hf : s.Fresh vad)
    (baseAddress : Nat) {viewSize : Nat} (highestAddress : Nat) (topDown : Bool)
    (hsize : 0 < viewSize) (ha : ValidAlignment alignment) :
    ∃ t' status, miInsertVadEx L s.table vad baseAddress viewSize highestAddress alignment topDown =
        some (t', status) ∧
      VadSpace.Inv ⟨t', if status = .success then vad :: s.vads else s.vads⟩ := by
  obtain ⟨size, hsz⟩ : ∃ size, size = alignUpBy viewSize pageSize := ⟨_, rfl⟩
  have hge : pageSize ≤ size := hsz ▸ roundToPages_ge hsize
  have hpos : 0 < size := Nat.lt_of_lt_of_le (by decide) hge
  by_cases hbase : baseAddress = 0
  · -- the searches
    obtain ⟨o, ho⟩ : ∃ o, o = if topDown then miFindEmptyAddressRangeDownTree L s.table size
        (min highestAddress L.highestVadAddress) alignment
      else miFindEmptyAddressRangeInTree L s.table size alignment := ⟨_, rfl⟩
    have hsearch : Searched s.table T (bytesToPages size) o := by
      rw [ho]
      cases topDown with
      | false => exact miFindEmptyAddressRangeInTree_spec L hi.toRangeInv hpos (alignment_pos ha.1 ha.2.1)
      | true =>
        rw [← roundToPages_div]
        exact miFindEmptyAddressRangeDownTree_spec L _ hi.toRangeInv hpos ha.1 ha.2.1
    obtain ⟨r, parent, base, hrun, hr⟩ := hsearch
    by_cases hfail : r = .tableFoundNode ∨ min highestAddress L.highestVadAddress < base + size - 1
    · refine ⟨s.table, .noMemory, ?_, T, hi, hv⟩
      simp only [miInsertVadEx, hbase, if_true, ← hsz, ← ho, hrun, bind_some, hfail]
    obtain ⟨lowVpn, rfl, hp⟩ := hr.resolve_left fun h => hfail (.inl h)
    have hdiv : lowVpn * pageSize / pageSize = lowVpn := Nat.mul_div_cancel _ (by decide)
    have hpages := bytesToPages_pos hpos
    obtain ⟨t', hins, hinv⟩ := insertAtPlace_spec hi hv hf (by omega) hp
    refine ⟨t', .success, ?_, hinv⟩
    simp only [miInsertVadEx, hbase, if_true, ← hsz, ← ho, hrun, bind_some, hfail, if_false,
      hdiv, last_page hpos, hins, map_some]
  · -- the check of the range that the caller asks for
    obtain ⟨start, hstart⟩ : ∃ start, start = alignDownBy baseAddress alignment := ⟨_, rfl⟩
    obtain ⟨r, parent, hrun, hr⟩ := miCheckForConflictingNode_spec hi.toRangeInv (start / pageSize)
      ((start + size - 1) / pageSize)
    by_cases hfound : r = .tableFoundNode
    · refine ⟨s.table, .conflictingAddresses, ?_, T, hi, hv⟩
      simp only [miInsertVadEx, hbase, if_false, ← hsz, ← hstart, hrun, bind_some, hfound,
        if_true]
    have hle : start / pageSize ≤ (start + size - 1) / pageSize :=
      Nat.div_le_div_right (by omega)
    obtain ⟨t', hins, hinv⟩ := insertAtPlace_spec hi hv hf hle (hr.resolve_left hfound)
    refine ⟨t', .success, ?_, hinv⟩
    simp only [miInsertVadEx, hbase, if_false, ← hsz, ← hstart, hrun, bind_some, hfound,
      hins, map_some]

/-- No legal call faults, and the invariant is kept. -/
theorem vadSystem_step (hs : s.Inv) {a : VadOperation ν} (ha : (vadSystem L).legal s a) :
    ∃ s' r, (vadSystem L).step s a = some (s', r) ∧ s'.Inv := by
  obtain ⟨T, hi, hv⟩ := hs
  cases a with
  | insertVad vad startVpn endVpn =>
    obtain ⟨r, parent, hrun, hr⟩ := miCheckForConflictingNode_spec hi.toRangeInv startVpn endVpn
    by_cases hfound : r = .tableFoundNode
    · refine ⟨s, .inserted .conflictingAddresses, ?_, T, hi, hv⟩
      simp [vadSystem, VadSpace.step, hrun, hfound]
    · obtain ⟨s', a, hins, hinv⟩ := insertRange_spec hi hv ha.1 ha.2 (hr.resolve_left hfound).free
      refine ⟨s', a, ?_, hinv⟩
      simp [vadSystem, VadSpace.step, hrun, hfound, hins]
  | insertInTree vad length alignment =>
    obtain ⟨hf, hlen, hal⟩ := ha
    exact insertFound_spec hi hv hf hlen.1 (miFindEmptyAddressRangeInTree_spec L hi.toRangeInv
      hlen.1 (alignment_pos hal.1 hal.2.1))
  | insertDownTree vad length boundaryAddress alignment =>
    obtain ⟨hf, hlen, hal, -⟩ := ha
    have hsearch := miFindEmptyAddressRangeDownTree_spec L boundaryAddress hi.toRangeInv
      hlen.1 hal.1 hal.2.1
    rw [roundToPages_div] at hsearch
    exact insertFound_spec hi hv hf hlen.1 hsearch
  | insertVadEx vad baseAddress viewSize highestAddress alignment topDown =>
    obtain ⟨hf, hsize, hal, -⟩ := ha
    obtain ⟨t', status, hrun, hinv⟩ := miInsertVadEx_spec (L := L) hi hv hf baseAddress
      highestAddress topDown hsize.1 hal
    refine ⟨_, .inserted status, ?_, hinv⟩
    simp only [vadSystem, VadSpace.step, hrun, map_some]
  | removeNode vad =>
    obtain ⟨t', T', hrun, hinv, hT'⟩ := miRemoveNode_spec hi (hv.mem_iff.mp ha)
    refine ⟨⟨t', s.vads.erase vad⟩, .removed, ?_, T', hinv, ?_⟩
    · simp [vadSystem, VadSpace.step, hrun]
    · rw [hT']
      exact hv.erase vad
  | locateVad virtualAddress =>
    obtain ⟨t', o, hrun, hinv, -⟩ := miLocateVad_spec hi virtualAddress
    refine ⟨⟨t', s.vads⟩, .located o, ?_, T, hinv, hv⟩
    simp [vadSystem, VadSpace.step, hrun]

theorem vadSystem_inv (hs : Reachable (vadSystem L) (fun _ _ => True) s) : s.Inv := by
  refine hs.invariant_of_steps ?_ fun s a hinv hlegal _ => vadSystem_step hinv hlegal
  rintro s ⟨he, hv⟩
  exact ⟨.nil, emptyTable_inv he, by rw [hv]; exact List.Perm.refl _⟩

/-- In every run the page ranges of the VADs are disjoint and in the order of the tree, and
`MiLocateVad` returns the VAD that holds the page of an address, if there is one. -/
theorem vad_lookups (hs : Reachable (vadSystem L) (fun _ _ => True) s) :
    (∃ T, AvlInv s.table.toAvlTable T ∧ s.vads.Perm T.toList ∧
      (∀ x ∈ T.toList, s.table.startingVpn x ≤ s.table.endingVpn x) ∧
      T.toList.Pairwise fun x y => s.table.endingVpn x < s.table.startingVpn y) ∧
    (∀ address, ∃ t' o, miLocateVad s.table address = some (t', o) ∧
      ∀ n, o = some n ↔ n ∈ s.vads ∧ s.table.startingVpn n ≤ address / pageSize ∧
        address / pageSize ≤ s.table.endingVpn n) ∧
    ∀ a, (vadSystem L).legal s a → ((vadSystem L).step s a).isSome = true := by
  have hinv := vadSystem_inv hs
  refine ⟨?_, ?_, ?_⟩
  · obtain ⟨T, hi, hv⟩ := hinv
    exact ⟨T, hi.toAvlInv, hv, hi.ranges, hi.ordered⟩
  · intro address
    obtain ⟨T, hi, hv⟩ := hinv
    obtain ⟨t', o, hrun, -, ho⟩ := miLocateVad_spec hi address
    refine ⟨t', o, hrun, ?_⟩
    intro n
    rw [ho n, hv.mem_iff]
  · intro a ha
    obtain ⟨s', r, hrun, -⟩ := vadSystem_step hinv ha
    rw [hrun]
    rfl

/-- The address space of a process with 2 GB, and no VADs yet. -/
def userLayout : AddressLayout where
  highestVadAddress := 0x7FFDFFFF
  systemLowVpn := 0x80000
  systemHighVpn := 0xFFFFF

def emptySpace : VadSpace Nat where
  table :=
    { balancedRoot := 0
      links := ⟨fun _ => 0, fun _ _ => none⟩
      balance := fun _ => 0
      numberGenericTableElements := 0
      depthOfTree := 0
      startingVpn := fun _ => 0
      endingVpn := fun _ => 0
      unused := 0
      nodeHint := none }
  vads := []

theorem vad_lookups_run : ∃ s : VadSpace Nat,
    Reachable (vadSystem userLayout) (fun _ _ => True) s ∧ s.vads = [3, 1] ∧
    ∃ t' o, miLocateVad s.table 0x10000 = some (t', o) ∧
      ∀ n, o = some n ↔ n ∈ s.vads ∧ s.table.startingVpn n ≤ 0x10000 / pageSize ∧
        0x10000 / pageSize ≤ s.table.endingVpn n := by
  have hrun : (((vadSystem userLayout).run emptySpace [.insertInTree 1 0x5000 0x10000,
      .insertVadEx 2 0 0x1000 0x7FFDFFFF 0x10000 true, .insertVad 3 0x40 0x4F,
      .removeNode 2]).map VadSpace.vads) = some [3, 1] := by
    decide +kernel
  obtain ⟨s, hs, hv⟩ := Option.map_eq_some_iff.mp hrun
  have hreach : Reachable (vadSystem userLayout) (fun _ _ => True) s :=
    Reachable.of_run (.init ⟨⟨rfl, fun _ => rfl, rfl, rfl, rfl⟩, rfl⟩) hs
  exact ⟨s, hreach, hv, (vad_lookups hreach).2.1 0x10000⟩

end Runs

end Mm
