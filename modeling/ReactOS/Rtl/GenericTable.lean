import Mathlib.Data.List.Pairwise
import ReactOS.Lib.LinkedTree

/-! # Generic tables

    `generictable.c`: a table is a splay tree of elements, searched with a
    compare routine.  `Compare(Table, Buffer, Element)` is a function of the
    element once the buffer is fixed, and the table is given by its tree: the
    element that was last found, inserted or enumerated is at the root, and
    the enumeration goes on from the root.

    The second half says what the operations do to the sequence of the
    elements.  A search is right when the compare routine splits the sequence,
    which is all that the routines of the file systems promise: they call
    elements equal that overlap.

    `InsertOrderList` is left out; it has the same elements as the tree. -/

namespace GenericTable

open LinkedTree Ctx
open List hiding after

universe u

variable {α : Type u}

/-! ## Section 1: Splay trees as values -/

/-- `RTL_GENERIC_COMPARE_RESULTS` -/
inductive CompareResult where
  | lessThan
  | greaterThan
  | equal
  deriving DecidableEq, Repr

/-- `RtlSplay` of the node `x` with the subtrees `a` and `b`, in its context:
    the turns of the loop, two frames at a time. -/
def rtlSplay : Ctx α → BinTree α → α → BinTree α → BinTree α
  | [], a, x, b => .node a x b
  | [⟨.left, p, d⟩], a, x, b => .node a x (.node b p d)
  | [⟨.right, p, d⟩], a, x, b => .node (.node d p a) x b
  | ⟨.left, p, d⟩ :: ⟨.left, g, e⟩ :: c, a, x, b => rtlSplay c a x (.node b p (.node d g e))
  | ⟨.right, p, d⟩ :: ⟨.right, g, e⟩ :: c, a, x, b => rtlSplay c (.node (.node e g d) p a) x b
  | ⟨.left, p, d⟩ :: ⟨.right, g, e⟩ :: c, a, x, b => rtlSplay c (.node e g a) x (.node b p d)
  | ⟨.right, p, d⟩ :: ⟨.left, g, e⟩ :: c, a, x, b => rtlSplay c (.node d p a) x (.node b g e)

/-- The loop over the left children from a node `x`, in its context: the last
    node and what is to the right of it. -/
def leftmost : Ctx α → BinTree α → α → BinTree α → Ctx α × α × BinTree α
  | c, .nil, x, r => (c, x, r)
  | c, .node l y r', x, r => leftmost (⟨.left, x, r⟩ :: c) l y r'

/-- The loop over the right children. -/
def rightmost : Ctx α → BinTree α → α → BinTree α → Ctx α × α × BinTree α
  | c, l, x, .nil => (c, x, l)
  | c, l, x, .node l' y r => rightmost (⟨.right, x, l⟩ :: c) l' y r

/-- The child takes the place of its parent, which is gone; the node above is
    splayed. -/
def removeInner : Ctx α → BinTree α → BinTree α
  | [], child => child
  | ⟨.left, p, d⟩ :: c, child => rtlSplay c child p d
  | ⟨.right, p, d⟩ :: c, child => rtlSplay c d p child

/-- `RtlDelete` of the node with the subtrees `l` and `r`.  A node with two
    children changes places with its predecessor first. -/
def rtlDelete (c : Ctx α) : BinTree α → BinTree α → BinTree α
  | .nil, r => removeInner c r
  | l, .nil => removeInner c l
  | .node l x r', r =>
    -- the context of the predecessor ends where the deleted node was
    match rightmost [] l x r' with
    | (inner, sp, child) => removeInner (inner ++ ⟨.left, sp, r⟩ :: c) child

/-! ## Section 2: The operations -/

/-- Where a search ends: at a node, or at a place without one. -/
inductive Place (α : Type u) where
  | found (c : Ctx α) (l : BinTree α) (x : α) (r : BinTree α)
  | missing (c : Ctx α)

/-- `RtlpFindGenericTableNodeOrParent` -/
def rtlpFindGenericTableNodeOrParent (cmp : α → CompareResult) : BinTree α → Ctx α → Place α
  | .nil, c => .missing c
  | .node l x r, c =>
    match cmp x with
    | .lessThan => rtlpFindGenericTableNodeOrParent cmp l (⟨.left, x, r⟩ :: c)
    | .greaterThan => rtlpFindGenericTableNodeOrParent cmp r (⟨.right, x, l⟩ :: c)
    | .equal => .found c l x r

/-- `RtlLookupElementGenericTable` -/
def rtlLookupElementGenericTable (cmp : α → CompareResult) (t : BinTree α) :
    Option α × BinTree α :=
  match rtlpFindGenericTableNodeOrParent cmp t [] with
  | .found c l x r => (some x, rtlSplay c l x r)
  | .missing _ => (none, t)

/-- `RtlInsertElementGenericTable`: the element and `NewElement`.  `alloc` is
    whether the node can be allocated. -/
def rtlInsertElementGenericTable (cmp : α → CompareResult) (alloc : Bool) (y : α)
    (t : BinTree α) : Option (α × Bool) × BinTree α :=
  match rtlpFindGenericTableNodeOrParent cmp t [] with
  | .found c l x r => (some (x, false), rtlSplay c l x r)
  | .missing c => if alloc then (some (y, true), rtlSplay c .nil y .nil) else (none, t)

/-- `RtlDeleteElementGenericTable` -/
def rtlDeleteElementGenericTable (cmp : α → CompareResult) (t : BinTree α) : Bool × BinTree α :=
  match rtlpFindGenericTableNodeOrParent cmp t [] with
  | .found c l _ r => (true, rtlDelete c l r)
  | .missing _ => (false, t)

/-- `RtlEnumerateGenericTable`: the first element, or the one behind the root. -/
def rtlEnumerateGenericTable (restart : Bool) : BinTree α → Option α × BinTree α
  | .nil => (none, .nil)
  | .node l x r =>
    if restart then
      match leftmost [] l x r with
      | (c, y, r') => (some y, rtlSplay c .nil y r')
    else
      match r with
      | .nil => (none, .node l x .nil)
      | .node rl y rr =>
        match leftmost [⟨.right, x, l⟩] rl y rr with
        | (c, z, r') => (some z, rtlSplay c .nil z r')

/-- The caller writes through the pointer to the element at the root. -/
def writeRoot (y : α) : BinTree α → BinTree α
  | .nil => .nil
  | .node l _ r => .node l y r

/-- What the body of an enumeration loop does with an element. -/
inductive Visit (α σ : Type u) where
  /-- the element is left as `x`, and the loop goes on -/
  | next (x : α) (s : σ)
  | stop (s : σ)

/-- `for (x = RtlEnumerateGenericTable(t, TRUE); x; x = RtlEnumerateGenericTable(t, FALSE))` -/
def enumerate {σ : Type u} (body : α → σ → Visit α σ) :
    Nat → Bool → BinTree α → σ → Option (BinTree α × σ)
  | 0, _, _, _ => none
  | k + 1, restart, t, s =>
    match rtlEnumerateGenericTable restart t with
    | (none, t) => some (t, s)
    | (some x, t) =>
      match body x s with
      | .next y s => enumerate body k false (writeRoot y t) s
      | .stop s => some (t, s)

/-! ## Section 3: The sequence of the elements -/

/-- The splayed node is the root, between what preceded and what followed it. -/
theorem rtlSplay_spec (c : Ctx α) (a : BinTree α) (x : α) (b : BinTree α) :
    ∃ l r, rtlSplay c a x b = .node l x r ∧ l.toList = c.before ++ a.toList ∧
      r.toList = b.toList ++ c.after := by
  -- one case for each of the turns of the loop
  fun_induction rtlSplay c a x b with
  | case1 a x b => exact ⟨a, b, rfl, by simp [before], by simp [after]⟩
  | case2 | case3 => exact ⟨_, _, rfl, by simp [before], by simp [after]⟩
  | case4 _ _ _ _ _ _ _ _ ih | case5 _ _ _ _ _ _ _ _ ih | case6 _ _ _ _ _ _ _ _ ih
  | case7 _ _ _ _ _ _ _ _ ih =>
    obtain ⟨l, r, heq, hl, hr⟩ := ih
    exact ⟨l, r, heq, by simp [hl, before], by simp [hr, after]⟩

theorem toList_rtlSplay (c : Ctx α) (a : BinTree α) (x : α) (b : BinTree α) :
    (rtlSplay c a x b).toList = c.before ++ a.toList ++ x :: (b.toList ++ c.after) := by
  obtain ⟨l, r, heq, hl, hr⟩ := rtlSplay_spec c a x b
  simp [heq, hl, hr]

theorem leftmost_spec (c : Ctx α) (l : BinTree α) (x : α) (r : BinTree α) :
    (leftmost c l x r).1.before = c.before ∧
      (leftmost c l x r).2.1 :: ((leftmost c l x r).2.2.toList ++ (leftmost c l x r).1.after) =
        l.toList ++ x :: (r.toList ++ c.after) := by
  induction l generalizing c x r with
  | nil => simp [leftmost]
  | node l y r' ihl _ =>
    obtain ⟨hbefore, hlist⟩ := ihl (⟨.left, x, r⟩ :: c) y r'
    rw [leftmost]
    refine ⟨hbefore.trans (by simp [before]), hlist.trans ?_⟩
    simp [after]

theorem rightmost_spec (c : Ctx α) (l : BinTree α) (x : α) (r : BinTree α) :
    (rightmost c l x r).1.after = c.after ∧
      (rightmost c l x r).1.before ++ (rightmost c l x r).2.2.toList ++ [(rightmost c l x r).2.1] =
        c.before ++ l.toList ++ x :: r.toList := by
  induction r generalizing c l x with
  | nil => simp [rightmost]
  | node l' y r _ ihr =>
    obtain ⟨hafter, hlist⟩ := ihr (⟨.right, x, l⟩ :: c) l' y
    rw [rightmost]
    refine ⟨hafter.trans (by simp [after]), hlist.trans ?_⟩
    simp [before]

theorem toList_removeInner (c : Ctx α) (t : BinTree α) :
    (removeInner c t).toList = c.before ++ t.toList ++ c.after := by
  cases c with
  | nil => simp [removeInner, before, after]
  | cons f c =>
    obtain ⟨s, p, d⟩ := f
    cases s <;> simp [removeInner, toList_rtlSplay, before, after]

theorem toList_rtlDelete (c : Ctx α) (l r : BinTree α) :
    (rtlDelete c l r).toList = c.before ++ l.toList ++ r.toList ++ c.after := by
  cases l with
  | nil => simp [rtlDelete, toList_removeInner]
  | node l x r' =>
    cases r with
    | nil => simp [rtlDelete, toList_removeInner]
    | node rl y rr =>
      obtain ⟨hafter, hlist⟩ := rightmost_spec [] l x r'
      have hafter : (rightmost [] l x r').1.after = [] := hafter
      simp only [rtlDelete, toList_removeInner, before_append, after_append, hafter]
      have hlist : (rightmost [] l x r').1.before ++ (rightmost [] l x r').2.2.toList ++
          [(rightmost [] l x r').2.1] = l.toList ++ x :: r'.toList := by
        simpa [before] using hlist
      simp only [BinTree.toList_node, ← hlist]
      simp [before, after]

/-! ## Section 4: Searching -/

variable {t l r : BinTree α} {x : α}

section Search

variable {cmp : α → CompareResult}
variable {A B : List α}

/-- The buffer lies behind some elements and before the others; those it is
    equal to are between them. -/
def Splits (cmp : α → CompareResult) (l : List α) : Prop :=
  l.Pairwise fun x y => (cmp x = .lessThan → cmp y = .lessThan) ∧
    (cmp y = .greaterThan → cmp x = .greaterThan)

theorem find_found {c0 c : Ctx α} (h : rtlpFindGenericTableNodeOrParent cmp t c0 = .found c l x r) :
    cmp x = .equal ∧ c.before ++ l.toList ++ x :: (r.toList ++ c.after) =
      c0.before ++ t.toList ++ c0.after := by
  induction t generalizing c0 with
  | nil => cases h
  | node l' y r' ihl ihr =>
    rw [rtlpFindGenericTableNodeOrParent] at h
    split at h
    · obtain ⟨hx, hlist⟩ := ihl h
      exact ⟨hx, hlist.trans (by simp [before, after])⟩
    · obtain ⟨hx, hlist⟩ := ihr h
      exact ⟨hx, hlist.trans (by simp [before, after])⟩
    · rename_i hy
      cases h
      exact ⟨hy, by simp⟩

theorem find_missing_list {c0 c : Ctx α}
    (h : rtlpFindGenericTableNodeOrParent cmp t c0 = .missing c) :
    c.before ++ c.after = c0.before ++ t.toList ++ c0.after := by
  induction t generalizing c0 with
  | nil =>
    cases h
    simp
  | node l y r ihl ihr =>
    rw [rtlpFindGenericTableNodeOrParent] at h
    split at h
    · exact (ihl h).trans (by simp [before, after])
    · exact (ihr h).trans (by simp [before, after])
    · cases h

/-- A search that ends without a node has the elements it passed on the side
    on which the buffer is. -/
theorem find_missing {c : Ctx α} (c0 : Ctx α) (hsplits : Splits cmp t.toList)
    (hbefore : ∀ x ∈ c0.before, cmp x = .greaterThan)
    (hafter : ∀ x ∈ c0.after, cmp x = .lessThan)
    (h : rtlpFindGenericTableNodeOrParent cmp t c0 = .missing c) :
    c.before ++ c.after = c0.before ++ t.toList ++ c0.after ∧
      (∀ x ∈ c.before, cmp x = .greaterThan) ∧ ∀ x ∈ c.after, cmp x = .lessThan := by
  refine ⟨find_missing_list h, ?_⟩
  induction t generalizing c0 with
  | nil =>
    cases h
    exact ⟨hbefore, hafter⟩
  | node l y r ihl ihr =>
    obtain ⟨hl, hyr, hcross⟩ := pairwise_append.1 hsplits
    obtain ⟨hy, hr⟩ := pairwise_cons.1 hyr
    rw [rtlpFindGenericTableNodeOrParent] at h
    split at h
    · rename_i hless
      exact ihl (⟨.left, y, r⟩ :: c0) hl (by simpa [before] using hbefore)
        (by
          intro x hx
          simp only [after, cons_append, mem_cons, mem_append] at hx
          rcases hx with rfl | hx | hx
          · exact hless
          · exact (hy x hx).1 hless
          · exact hafter x hx) h
    · rename_i hgreater
      exact ihr (⟨.right, y, l⟩ :: c0) hr
        (by
          intro x hx
          simp only [before, mem_append, mem_singleton] at hx
          rcases hx with hx | hx | rfl
          · exact hbefore x hx
          · exact (hcross x hx y (by simp)).2 hgreater
          · exact hgreater) (by simpa [after] using hafter) h
    · cases h

/-- Two splits of one list at the place where a property ends are the same. -/
theorem eq_of_append_split {p : α → Bool} {P Q : List α} (h : P ++ Q = A ++ B)
    (hP : ∀ x ∈ P, p x = true) (hQ : ∀ x ∈ Q, p x = false) (hA : ∀ x ∈ A, p x = true)
    (hB : ∀ x ∈ B, p x = false) : P = A ∧ Q = B := by
  have htake : ∀ {X Y : List α}, (∀ x ∈ X, p x = true) → (∀ x ∈ Y, p x = false) →
      (X ++ Y).takeWhile p = X := by
    intro X Y hX hY
    rw [takeWhile_append_of_pos hX]
    cases Y with
    | nil => simp
    | cons y Y => simp [hY y (by simp)]
  have hPA : P = A := by rw [← htake hP hQ, h, htake hA hB]
  subst hPA
  exact ⟨rfl, append_cancel_left h⟩

/-- A search among elements that are all on one side or the other ends
    between them. -/
theorem find_between (hlist : t.toList = A ++ B)
    (hA : ∀ x ∈ A, cmp x = .greaterThan) (hB : ∀ x ∈ B, cmp x = .lessThan) :
    ∃ c, rtlpFindGenericTableNodeOrParent cmp t [] = .missing c ∧ c.before = A ∧ c.after = B := by
  have hne : ∀ x ∈ t.toList, cmp x ≠ .equal := by grind
  have hsplits : Splits cmp t.toList := by
    rw [hlist]
    refine pairwise_append.2 ⟨?_, ?_, ?_⟩
    · exact pairwise_of_forall_mem_list fun x hx y hy => by simp [hA x hx, hA y hy]
    · exact pairwise_of_forall_mem_list fun x hx y hy => by simp [hB x hx, hB y hy]
    · intro x hx y hy
      simp [hA x hx, hB y hy]
  cases hf : rtlpFindGenericTableNodeOrParent cmp t [] with
  | found c l x r =>
    obtain ⟨hx, hl⟩ := find_found hf
    refine absurd hx (hne x ?_)
    have : x ∈ c.before ++ l.toList ++ x :: (r.toList ++ c.after) := by simp
    rw [hl] at this
    simpa [before, after] using this
  | missing c =>
    obtain ⟨hl, hbefore, hafter⟩ := find_missing [] hsplits (by simp [before])
      (by simp [after]) hf
    have hl : c.before ++ c.after = A ++ B := by
      simpa [before, after, hlist] using hl
    refine ⟨c, rfl, ?_⟩
    exact eq_of_append_split (p := fun x => cmp x = .greaterThan) hl
      (by simpa using hbefore) (fun x hx => by simp [hafter x hx]) (by simpa using hA)
      (fun x hx => by simp [hB x hx])

/-- `RtlLookupElementGenericTable` finds an equal element if there is one, and
    leaves it at the root. -/
theorem lookup_spec (hsplits : Splits cmp t.toList) :
    (∃ l x r, rtlLookupElementGenericTable cmp t = (some x, .node l x r) ∧ cmp x = .equal ∧
      l.toList ++ x :: r.toList = t.toList) ∨
    (rtlLookupElementGenericTable cmp t = (none, t) ∧ ∀ x ∈ t.toList, cmp x ≠ .equal) := by
  unfold rtlLookupElementGenericTable
  cases hf : rtlpFindGenericTableNodeOrParent cmp t [] with
  | found c a x b =>
    obtain ⟨hx, hlist⟩ := find_found hf
    obtain ⟨l, r, heq, hl, hr⟩ := rtlSplay_spec c a x b
    refine .inl ⟨l, x, r, by simp [heq], hx, ?_⟩
    rw [hl, hr, hlist]
    simp [before, after]
  | missing c =>
    obtain ⟨hlist, hbefore, hafter⟩ := find_missing [] hsplits (by simp [before])
      (by simp [after]) hf
    have hlist : c.before ++ c.after = t.toList := by simpa [before, after] using hlist
    refine .inr ⟨rfl, fun x hx heq => ?_⟩
    rw [← hlist, mem_append] at hx
    rcases hx with hx | hx
    · simp [hbefore x hx] at heq
    · simp [hafter x hx] at heq

/-- A new element goes between the elements on both sides of it. -/
theorem insert_between (hlist : t.toList = A ++ B)
    (hA : ∀ x ∈ A, cmp x = .greaterThan) (hB : ∀ x ∈ B, cmp x = .lessThan) (y : α) :
    (∃ l r, rtlInsertElementGenericTable cmp true y t = (some (y, true), .node l y r) ∧
      l.toList = A ∧ r.toList = B) ∧
    rtlInsertElementGenericTable cmp false y t = (none, t) := by
  obtain ⟨c, hf, hbefore, hafter⟩ := find_between hlist hA hB
  obtain ⟨l, r, heq, hl, hr⟩ := rtlSplay_spec c .nil y .nil
  unfold rtlInsertElementGenericTable
  rw [hf]
  refine ⟨⟨l, r, by simp [heq], ?_, ?_⟩, rfl⟩
  · simpa [hbefore] using hl
  · simpa [hafter] using hr

theorem delete_root (hx : cmp x = .equal) :
    ∃ t, rtlDeleteElementGenericTable cmp (.node l x r) = (true, t) ∧
      t.toList = l.toList ++ r.toList := by
  refine ⟨rtlDelete [] l r, ?_, ?_⟩
  · simp [rtlDeleteElementGenericTable, rtlpFindGenericTableNodeOrParent, hx]
  · simp [toList_rtlDelete, before, after]

end Search

/-! ## Section 5: Enumerating -/

theorem enumerate_first {rest : List α} (h : t.toList = x :: rest) :
    ∃ r, rtlEnumerateGenericTable true t = (some x, .node .nil x r) ∧ r.toList = rest := by
  cases t with
  | nil => cases h
  | node l y r =>
    obtain ⟨hbefore, hlist⟩ := leftmost_spec [] l y r
    simp only [rtlEnumerateGenericTable, if_true]
    generalize leftmost [] l y r = m at *
    obtain ⟨c, z, r'⟩ := m
    obtain ⟨l1, r1, heq, hl, hr⟩ := rtlSplay_spec c .nil z r'
    have hlist : z :: (r'.toList ++ c.after) = x :: rest := by
      rw [← h]
      simpa [after] using hlist
    obtain ⟨rfl, hrest⟩ := cons.inj hlist
    have hl : l1.toList = [] := by simpa [show c.before = [] from hbefore] using hl
    rw [BinTree.toList_eq_nil hl] at heq
    exact ⟨r1, by simp [heq], hr.trans hrest⟩

theorem enumerate_last (h : r.toList = []) :
    rtlEnumerateGenericTable false (.node l x r) = (none, .node l x r) := by
  rw [BinTree.toList_eq_nil h]
  simp [rtlEnumerateGenericTable]

theorem enumerate_next {y : α} {rest : List α} (h : r.toList = y :: rest) :
    ∃ l' r', rtlEnumerateGenericTable false (.node l x r) = (some y, .node l' y r') ∧
      l'.toList = l.toList ++ [x] ∧ r'.toList = rest := by
  cases r with
  | nil => cases h
  | node rl z rr =>
    obtain ⟨hbefore, hlist⟩ := leftmost_spec [⟨.right, x, l⟩] rl z rr
    simp only [rtlEnumerateGenericTable, Bool.false_eq_true, if_false]
    generalize leftmost [⟨.right, x, l⟩] rl z rr = m at *
    obtain ⟨c, w, r'⟩ := m
    obtain ⟨l1, r1, heq, hl, hr⟩ := rtlSplay_spec c .nil w r'
    have hlist : w :: (r'.toList ++ c.after) = y :: rest := by
      rw [← h]
      simpa [after] using hlist
    obtain ⟨rfl, hrest⟩ := cons.inj hlist
    have hbefore : c.before = l.toList ++ [x] := hbefore.trans (by simp [before])
    exact ⟨l1, r1, by simp [heq], by simp [hl, hbefore], hr.trans hrest⟩

section Loop

variable {σ : Type u}

/-- The enumeration loop, on the sequence of the elements. -/
def walk (body : α → σ → Visit α σ) : List α → σ → List α × σ
  | [], s => ([], s)
  | x :: xs, s =>
    match body x s with
    | .next y s => ((y :: (walk body xs s).1), (walk body xs s).2)
    | .stop s => (x :: xs, s)

theorem enumerate_behind (body : α → σ → Visit α σ) {k : Nat} {s : σ} (hk : r.toList.length < k) :
    ∃ t, enumerate body k false (.node l x r) s = some (t, (walk body r.toList s).2) ∧
      t.toList = l.toList ++ x :: (walk body r.toList s).1 := by
  induction k generalizing l r x s with
  | zero => omega
  | succ k ih =>
    rw [enumerate]
    cases hr : r.toList with
    | nil =>
      rw [enumerate_last hr]
      exact ⟨_, rfl, by simp [hr, walk]⟩
    | cons y rest =>
      obtain ⟨l', r', henum, hl', hr'⟩ := enumerate_next (l := l) (x := x) hr
      rw [henum, walk]
      dsimp only
      cases hbody : body y s with
      | stop s' => exact ⟨_, rfl, by simp [hl', hr']⟩
      | next z s' =>
        obtain ⟨t, hrun, ht⟩ := ih (l := l') (r := r') (x := z) (s := s') (by
          rw [hr']
          simp only [hr, length_cons] at hk
          omega)
        rw [hr'] at hrun ht
        exact ⟨t, hrun, by simp [ht, hl']⟩

/-- The loop returns, and visits the elements in their order. -/
theorem enumerate_spec (body : α → σ → Visit α σ) {k : Nat} (s : σ) (hk : t.toList.length < k) :
    ∃ t', enumerate body k true t s = some (t', (walk body t.toList s).2) ∧
      t'.toList = (walk body t.toList s).1 := by
  obtain _ | k := k
  · omega
  rw [enumerate]
  cases ht : t.toList with
  | nil =>
    rw [BinTree.toList_eq_nil ht]
    exact ⟨.nil, rfl, by simp [walk]⟩
  | cons x rest =>
    obtain ⟨r, henum, hr⟩ := enumerate_first ht
    rw [henum, walk]
    dsimp only
    cases hbody : body x s with
    | stop s' => exact ⟨_, rfl, by simp [hr]⟩
    | next y s' =>
      obtain ⟨t', hrun, hlist⟩ := enumerate_behind body (k := k) (l := .nil) (r := r) (x := y)
        (s := s') (by
          rw [hr]
          simp only [ht, length_cons] at hk
          omega)
      rw [hr] at hrun hlist
      exact ⟨t', hrun, by simpa using hlist⟩

end Loop

end GenericTable
