import Mathlib.Data.Set.Insert
import ReactOS.Lib.Transition

/-! # Enumeration of a changing set

    A set that is compared by `cmp`, with a position that walks through it upwards while elements
    come and go.  The position is the element returned last; when that one is deleted, it falls
    back to the greatest element below it.

    What a client can rely on is a property of the whole trace: an element that is there all the
    time is returned once, and a smaller element is returned after a greater one only if the
    greater one was deleted and the smaller one inserted in between. -/

namespace Cursor

open Transition

variable {κ : Type}

/-- A call together with what it returned. -/
inductive Event (κ : Type) where
  | insert (k : κ) (new : Bool)
  | delete (k : κ) (found : Bool)
  | next (restart : Bool) (result : Option κ)
  deriving DecidableEq, Repr

/-- The elements, and the position: the element returned last, if there is one. -/
structure State (κ : Type) where
  items : Set κ
  position : Option κ

variable (cmp : κ → κ → Ordering)

def Above (p : Option κ) (k : κ) : Prop := ∀ q ∈ p, cmp q k = .lt

/-- The greatest element below `x`, if there is one. -/
structure IsBelow (items : Set κ) (x : κ) (p : Option κ) : Prop where
  mem : ∀ q ∈ p, q ∈ items ∧ cmp q x = .lt
  greatest : ∀ z ∈ items, cmp z x = .lt → ¬ Above cmp p z

inductive Step : State κ → Event κ → State κ → Prop where
  | insertNew {s : State κ} {k : κ} (h : ∀ x ∈ s.items, cmp k x ≠ .eq) :
      Step s (.insert k true) ⟨insert k s.items, s.position⟩
  | insertOld {s : State κ} {k x : κ} (hx : x ∈ s.items) (hk : cmp k x = .eq) :
      Step s (.insert k false) s
  | deleteOther {s : State κ} {k x : κ} (hx : x ∈ s.items) (hk : cmp k x = .eq)
      (hp : s.position ≠ some x) : Step s (.delete k true) ⟨s.items \ {x}, s.position⟩
  | deleteCurrent {s : State κ} {k x : κ} {p : Option κ} (hx : x ∈ s.items) (hk : cmp k x = .eq)
      (hp : s.position = some x) (hb : IsBelow cmp s.items x p) :
      Step s (.delete k true) ⟨s.items \ {x}, p⟩
  | deleteNone {s : State κ} {k : κ} (h : ∀ x ∈ s.items, cmp k x ≠ .eq) :
      Step s (.delete k false) s
  | next {s : State κ} {p : Option κ} {b : Bool} {y : κ} (hp : p = if b then none else s.position)
      (hy : y ∈ s.items) (ha : Above cmp p y)
      (hmin : ∀ z ∈ s.items, Above cmp p z → cmp z y ≠ .lt) :
      Step s (.next b (some y)) ⟨s.items, some y⟩
  | nextNone {s : State κ} {p : Option κ} {b : Bool} (hp : p = if b then none else s.position)
      (h : ∀ z ∈ s.items, ¬ Above cmp p z) : Step s (.next b none) ⟨s.items, p⟩

/-- No two elements compare equal, and the position is an element. -/
structure Valid (s : State κ) : Prop where
  apart : ∀ x ∈ s.items, ∀ y ∈ s.items, cmp x y = .eq → x = y
  position : ∀ p ∈ s.position, p ∈ s.items

variable {cmp} [Std.TransCmp cmp] {s s' : State κ} {e : Event κ}
variable {b : Bool} {y : κ}

theorem Step.valid (h : Step cmp s e s') (hs : Valid cmp s) : Valid cmp s' := by
  cases h with
  | @insertNew k hk =>
    refine ⟨?_, fun p hp => Set.mem_insert_of_mem _ (hs.position p hp)⟩
    intro x hx y hy hxy
    rcases hx with rfl | hx <;> rcases hy with rfl | hy
    · rfl
    · exact absurd hxy (hk y hy)
    · exact absurd (Std.OrientedCmp.eq_comm.mp hxy) (hk x hx)
    · exact hs.apart x hx y hy hxy
  | insertOld => exact hs
  | @deleteOther k z hz _ hp =>
    refine ⟨fun x hx y hy => hs.apart x hx.1 y hy.1, fun p hpos => ⟨hs.position p hpos, ?_⟩⟩
    rintro rfl
    exact hp hpos
  | @deleteCurrent k z p hz _ hp hb =>
    refine ⟨fun x hx y hy => hs.apart x hx.1 y hy.1, fun q hq => ⟨(hb.mem q hq).1, ?_⟩⟩
    rintro rfl
    have hself : cmp q q = .eq := Std.ReflCmp.compare_self
    rw [(hb.mem _ hq).2] at hself
    cases hself
  | deleteNone => exact hs
  | next hp hy =>
    refine ⟨hs.apart, ?_⟩
    rintro p ⟨⟩
    exact hy
  | @nextNone p b hp =>
    refine ⟨hs.apart, ?_⟩
    intro q hq
    simp only at hq
    cases b
    · exact hs.position q (by simpa [hp] using hq)
    · simp [hp] at hq

omit [Std.TransCmp cmp] in
theorem Step.mem_of_returned (h : Step cmp s (.next b (some y)) s') : y ∈ s'.items := by
  cases h with
  | next _ hy => exact hy

omit [Std.TransCmp cmp] in
theorem Step.end_of_none (h : Step cmp s (.next b none) s') :
    ∀ z ∈ s'.items, ¬ Above cmp s'.position z := by
  cases h with
  | nextNone _ h => exact h

/-! ## Section 2: Traces -/

section Trace

variable {tr : List (Event κ)}

/-- Call number `i` returned `x`. -/
def Returned (tr : List (Event κ)) (i : Nat) (x : κ) : Prop :=
  ∃ b, tr[i]? = some (.next b (some x))

variable (cmp) in
/-- Call number `i` deleted `x`. -/
def Deleted (tr : List (Event κ)) (i : Nat) (x : κ) : Prop :=
  ∃ k, tr[i]? = some (.delete k true) ∧ cmp k x = .eq

/-- Call number `i` inserted `x`. -/
def Inserted (tr : List (Event κ)) (i : Nat) (x : κ) : Prop := tr[i]? = some (.insert x true)

variable (cmp) in
/-- Between the calls `i` and `j` the element `x` was deleted and after that `y` inserted. -/
def Replaced (tr : List (Event κ)) (i j : Nat) (x y : κ) : Prop :=
  ∃ p q, i < p ∧ p < q ∧ q < j ∧ Deleted cmp tr p x ∧ Inserted tr q y

variable {i : Nat} {x : κ} {items₀ : Set κ} {r : Option κ}

theorem getElem?_snoc {f : Event κ} (h : (tr ++ [e])[i]? = some f) :
    tr[i]? = some f ∨ i = tr.length ∧ e = f := by
  grind

theorem getElem?_snoc_of {f : Event κ} (h : tr[i]? = some f) : (tr ++ [e])[i]? = some f := by
  obtain ⟨hi, -⟩ := List.getElem?_eq_some_iff.mp h
  rw [List.getElem?_append_left hi, h]

omit [Std.TransCmp cmp] in
theorem Deleted.snoc (h : Deleted cmp tr i x) : Deleted cmp (tr ++ [e]) i x := by
  obtain ⟨k, hk, hx⟩ := h
  exact ⟨k, getElem?_snoc_of hk, hx⟩

omit [Std.TransCmp cmp] in
theorem Replaced.snoc {j : Nat} (h : Replaced cmp tr i j x y) :
    Replaced cmp (tr ++ [e]) i j x y := by
  obtain ⟨p, q, h1, h2, h3, hd, hi⟩ := h
  exact ⟨p, q, h1, h2, h3, hd.snoc, getElem?_snoc_of hi⟩

omit [Std.TransCmp cmp] in
theorem Replaced.mono {j j' : Nat} (h : Replaced cmp tr i j x y) (hj : j ≤ j') :
    Replaced cmp tr i j' x y := by
  obtain ⟨p, q, h1, h2, h3, hd, hi⟩ := h
  exact ⟨p, q, h1, h2, by omega, hd, hi⟩

theorem Returned.lt_length (h : Returned tr i x) : i < tr.length := by
  obtain ⟨b, hb⟩ := h
  exact (List.getElem?_eq_some_iff.mp hb).1

omit [Std.TransCmp cmp] in
theorem Deleted.lt_length (h : Deleted cmp tr i x) : i < tr.length := by
  obtain ⟨k, hk, -⟩ := h
  exact (List.getElem?_eq_some_iff.mp hk).1

theorem Returned.of_snoc (h : Returned (tr ++ [e]) i x) :
    Returned tr i x ∨ i = tr.length ∧ ∃ b, e = .next b (some x) := by
  obtain ⟨b, hb⟩ := h
  rcases getElem?_snoc hb with h | ⟨h1, h2⟩
  · exact .inl ⟨b, h⟩
  · exact .inr ⟨h1, b, h2⟩

variable (cmp) in
/-- What the trace says about the elements and the position, with `items₀` the elements at its
beginning. -/
structure Explains (items₀ : Set κ) (tr : List (Event κ)) (s : State κ) : Prop where
  valid : Valid cmp s
  /-- what is still to come is greater than what has been returned, or came in for it -/
  ahead : ∀ i x, Returned tr i x → ∀ y ∈ s.items, Above cmp s.position y →
    cmp x y = .lt ∨ Replaced cmp tr i tr.length x y
  behind : ∀ i x, Returned tr i x →
    ¬ Above cmp s.position x ∨ ∃ p, i < p ∧ Deleted cmp tr p x
  kept : ∀ i x, Returned tr i x → x ∈ s.items ∨ ∃ p, i < p ∧ Deleted cmp tr p x
  pairs : ∀ i j x y, i < j → Returned tr i x → Returned tr j y →
    cmp x y = .lt ∨ Replaced cmp tr i j x y
  complete : ∀ x ∈ items₀, (∀ p, ¬ Deleted cmp tr p x) →
    x ∈ s.items ∧ (Above cmp s.position x ∨ ∃ i, Returned tr i x)

omit [Std.TransCmp cmp] in
theorem Explains.start (hs : Valid cmp s) : Explains cmp s.items [] ⟨s.items, none⟩ := by
  have hno : ∀ i x, ¬ Returned ([] : List (Event κ)) i x := by
    rintro i x ⟨b, hb⟩
    simp at hb
  refine ⟨⟨hs.apart, by simp⟩, ?_, ?_, ?_, ?_, ?_⟩
  · intro i x h
    exact absurd h (hno i x)
  · intro i x h
    exact absurd h (hno i x)
  · intro i x h
    exact absurd h (hno i x)
  · intro i j x y _ h
    exact absurd h (hno i x)
  · intro x hx _
    exact ⟨hx, .inl (by simp [Above])⟩

theorem lt_of_not_above {p : Option κ} (hx : ¬ Above cmp p x) (hy : Above cmp p y) :
    cmp x y = .lt := by
  simp only [Above, not_forall] at hx
  obtain ⟨c, hc, hcx⟩ := hx
  apply Std.TransCmp.lt_of_isLE_of_lt (b := c) _ (hy c hc)
  rw [← Std.OrientedCmp.isGE_iff_isLE]
  cases h : cmp c x <;> simp_all

namespace Explains

variable (h : Explains cmp items₀ tr s)

include h

/-- A call that returns no element.  The position may fall back, but not below an element that is
still there. -/
theorem quiet (hs' : Valid cmp s') (he : ∀ b x, e ≠ .next b (some x))
    (hahead : ∀ y ∈ s'.items, Above cmp s'.position y →
      Above cmp s.position y ∧ (y ∈ s.items ∨ e = .insert y true))
    (hitems : ∀ x ∈ s.items, x ∈ s'.items ∨ ∃ k, e = .delete k true ∧ cmp k x = .eq)
    (hpos : ∀ x, Above cmp s.position x → Above cmp s'.position x)
    (hbehind : ∀ x ∈ s.items, ¬ Above cmp s.position x →
      ¬ Above cmp s'.position x ∨ ∃ k, e = .delete k true ∧ cmp k x = .eq) :
    Explains cmp items₀ (tr ++ [e]) s' := by
  have hret : ∀ i x, Returned (tr ++ [e]) i x → Returned tr i x := by
    intro i x hr
    rcases hr.of_snoc with hr | ⟨-, b, hb⟩
    · exact hr
    · exact absurd hb (he b x)
  have hnow : ∀ x, (∃ k, e = .delete k true ∧ cmp k x = .eq) →
      Deleted cmp (tr ++ [e]) tr.length x := by
    rintro x ⟨k, rfl, hk⟩
    exact ⟨k, by simp, hk⟩
  refine ⟨hs', ?_, ?_, ?_, ?_, ?_⟩
  · intro i x hr y hy hay
    have hr' := hret i x hr
    obtain ⟨hay', hy' | rfl⟩ := hahead y hy hay
    · rcases h.ahead i x hr' y hy' hay' with hlt | hrep
      · exact .inl hlt
      · exact .inr (hrep.snoc.mono (by simp))
    -- a new element: smaller than what was returned only if that has gone
    rcases h.behind i x hr' with hb | ⟨p, hip, hd⟩
    · exact .inl (lt_of_not_above hb hay')
    · exact .inr ⟨p, tr.length, hip, hd.lt_length, by simp, hd.snoc, by simp [Inserted]⟩
  · intro i x hr
    have hr' := hret i x hr
    rcases h.behind i x hr' with hb | ⟨p, hip, hd⟩
    · rcases h.kept i x hr' with hx | ⟨p, hip, hd⟩
      · rcases hbehind x hx hb with hb' | hk
        · exact .inl hb'
        · exact .inr ⟨tr.length, hr'.lt_length, hnow x hk⟩
      · exact .inr ⟨p, hip, hd.snoc⟩
    · exact .inr ⟨p, hip, hd.snoc⟩
  · intro i x hr
    have hr' := hret i x hr
    rcases h.kept i x hr' with hx | ⟨p, hip, hd⟩
    · rcases hitems x hx with hx' | hk
      · exact .inl hx'
      · exact .inr ⟨tr.length, hr'.lt_length, hnow x hk⟩
    · exact .inr ⟨p, hip, hd.snoc⟩
  · intro i j x y hij hi hj
    rcases h.pairs i j x y hij (hret i x hi) (hret j y hj) with hlt | hrep
    · exact .inl hlt
    · exact .inr hrep.snoc
  · intro x hx hno
    obtain ⟨hxs, hx'⟩ := h.complete x hx fun p hd => hno p hd.snoc
    constructor
    · rcases hitems x hxs with h' | hk
      · exact h'
      · exact absurd (hnow x hk) (hno _)
    · rcases hx' with ha | ⟨i, b, hb⟩
      · exact .inl (hpos x ha)
      · exact .inr ⟨i, b, getElem?_snoc_of hb⟩

/-- A call that returns the least element above the position. -/
theorem found (hs' : Valid cmp ⟨s.items, some y⟩) (hy : y ∈ s.items) (ha : Above cmp s.position y)
    (hmin : ∀ z ∈ s.items, Above cmp s.position z → cmp z y ≠ .lt) :
    Explains cmp items₀ (tr ++ [.next b (some y)]) ⟨s.items, some y⟩ := by
  have hself : cmp y y = .eq := Std.ReflCmp.compare_self
  have hlast : Returned (tr ++ [.next b (some y)]) tr.length y := ⟨b, by simp⟩
  have hup : ∀ z, cmp y z = .lt → Above cmp s.position z :=
    fun z hz q hq => Std.TransCmp.lt_trans (ha q hq) hz
  have hret : ∀ i x, Returned (tr ++ [.next b (some y)]) i x →
      Returned tr i x ∨ i = tr.length ∧ x = y := by
    intro i x hr
    rcases hr.of_snoc with hr | ⟨hi, b', hb⟩
    · exact .inl hr
    · simp only [Event.next.injEq, Option.some.injEq] at hb
      exact .inr ⟨hi, hb.2.symm⟩
  refine ⟨hs', ?_, ?_, ?_, ?_, ?_⟩
  · intro i x hr z hz haz
    have hyz : cmp y z = .lt := haz y rfl
    rcases hret i x hr with hr' | ⟨-, rfl⟩
    · rcases h.ahead i x hr' z hz (hup z hyz) with hlt | hrep
      · exact .inl hlt
      · exact .inr (hrep.snoc.mono (by simp))
    · exact .inl hyz
  · intro i x hr
    rcases hret i x hr with hr' | ⟨-, rfl⟩
    · rcases h.behind i x hr' with hb | ⟨p, hip, hd⟩
      · left
        intro hax
        exact hb (hup x (hax y rfl))
      · exact .inr ⟨p, hip, hd.snoc⟩
    left
    intro hax
    rw [hax x rfl] at hself
    cases hself
  · intro i x hr
    rcases hret i x hr with hr' | ⟨-, rfl⟩
    · rcases h.kept i x hr' with hx | ⟨p, hip, hd⟩
      · exact .inl hx
      · exact .inr ⟨p, hip, hd.snoc⟩
    · exact .inl hy
  · intro i j x z hij hi hj
    rcases hret i x hi with hi' | ⟨rfl, -⟩
    · rcases hret j z hj with hj' | ⟨rfl, rfl⟩
      · rcases h.pairs i j x z hij hi' hj' with hlt | hrep
        · exact .inl hlt
        · exact .inr hrep.snoc
      · rcases h.ahead i x hi' z hy ha with hlt | hrep
        · exact .inl hlt
        · exact .inr hrep.snoc
    · have hlen := hj.lt_length
      simp only [List.length_append, List.length_singleton] at hlen
      omega
  · intro x hx hno
    obtain ⟨hxs, hx'⟩ := h.complete x hx fun p hd => hno p hd.snoc
    refine ⟨hxs, ?_⟩
    rcases hx' with hax | ⟨i, b', hb⟩
    · -- the least element above the position is `x` or less than it
      cases hyx : cmp y x with
      | lt =>
        left
        rintro q ⟨⟩
        exact hyx
      | eq =>
        right
        obtain rfl := hs'.apart y hy x hxs hyx
        exact ⟨_, hlast⟩
      | gt => exact absurd (Std.OrientedCmp.gt_iff_lt.mp hyx) (hmin x hxs hax)
    · exact .inr ⟨i, b', getElem?_snoc_of hb⟩

/-- A call that leaves the set and the position. -/
theorem still (he : ∀ b x, e ≠ .next b (some x)) : Explains cmp items₀ (tr ++ [e]) s :=
  h.quiet h.valid he (fun _ hy ha => ⟨ha, .inl hy⟩) (fun _ hx => .inl hx) (fun _ hx => hx)
    fun _ _ hx => .inl hx

/-- Every call keeps the trace explained, provided that the position is not reset. -/
theorem step (hst : Step cmp s e s') (hr : ∀ r, e = .next true r → s.position = none) :
    Explains cmp items₀ (tr ++ [e]) s' := by
  have hs' := hst.valid h.valid
  cases hst with
  | @insertNew k hk =>
    refine h.quiet hs' (by simp) ?_ ?_ (fun x hx => hx) (fun x _ hx => .inl hx)
    · rintro y (rfl | hy) ha
      · exact ⟨ha, .inr rfl⟩
      · exact ⟨ha, .inl hy⟩
    · intro x hx
      exact .inl (Set.mem_insert_of_mem _ hx)
  | insertOld => exact h.still (by simp)
  | @deleteOther k z hz hk =>
    refine h.quiet hs' (by simp) (fun y hy ha => ⟨ha, .inl hy.1⟩) ?_ (fun x hx => hx)
      fun x _ hx => .inl hx
    intro x hx
    by_cases e : x = z
    · exact .inr ⟨k, rfl, e ▸ hk⟩
    · exact .inl ⟨hx, e⟩
  | @deleteCurrent k z p hz hk hp hb =>
    refine h.quiet hs' (by simp) ?_ ?_ ?_ ?_
    · -- nothing lies between the new position and the old one
      intro y hy ha
      refine ⟨?_, .inl hy.1⟩
      rw [hp]
      rintro q ⟨⟩
      cases hzy : cmp z y with
      | lt => rfl
      | eq => exact absurd (h.valid.apart z hz y hy.1 hzy).symm hy.2
      | gt => exact absurd ha (hb.greatest y hy.1 (Std.OrientedCmp.gt_iff_lt.mp hzy))
    · grind
    · intro x hx q hq
      exact Std.TransCmp.lt_trans (hb.mem q hq).2 (hx z hp)
    · intro x hx hbx
      by_cases e : x = z
      · exact .inr ⟨k, rfl, e ▸ hk⟩
      left
      apply hb.greatest x hx
      rw [hp] at hbx
      cases hxz : cmp x z with
      | lt => rfl
      | eq => exact absurd (h.valid.apart x hx z hz hxz) e
      | gt =>
        exact absurd (by rintro q ⟨⟩; exact Std.OrientedCmp.gt_iff_lt.mp hxz) hbx
  | deleteNone => exact h.still (by simp)
  | @next p b y hp hy ha hmin =>
    have hpos : p = s.position := by
      cases b with
      | false => exact hp
      | true => rw [hr _ rfl]; exact hp
    subst hpos
    exact h.found hs' hy ha hmin
  | @nextNone p b hp =>
    have hpos : p = s.position := by
      cases b with
      | false => exact hp
      | true => rw [hr _ rfl]; exact hp
    subst hpos
    exact h.still (by simp)

end Explains

omit [Std.TransCmp cmp] in
/-- A restart does not depend on the position. -/
theorem Step.restart (h : Step cmp s (.next true r) s') :
    Step cmp ⟨s.items, none⟩ (.next true r) s' := by
  cases h with
  | next hp hy ha hmin => exact .next hp hy ha hmin
  | nextNone hp h => exact .nextNone hp h

omit [Std.TransCmp cmp] in
theorem Step.of_reset (h : Step cmp ⟨s.items, none⟩ (.next false r) s') :
    Step cmp s (.next true r) s' := by
  cases h with
  | next hp hy ha hmin => exact .next hp hy ha hmin
  | nextNone hp h => exact .nextNone (s := s) hp h

/-- The trace of an enumeration, from the restart on. -/
theorem Runs.explains {s0 s1 : State κ} {es : List (Event κ)}
    (hs : Valid cmp s0) (h1 : Step cmp s0 (.next true r) s1) (h : Runs (Step cmp) s1 es s)
    (hes : ∀ r, Event.next true r ∉ es) : Explains cmp s0.items (.next true r :: es) s := by
  induction h with
  | nil => exact (Explains.start hs).step h1.restart fun _ _ => rfl
  | @snoc es e s s' _ hst ih =>
    have h := ih fun r hr => hes r (List.mem_append_left _ hr)
    apply h.step hst
    rintro r rfl
    exact absurd (List.mem_append_right _ (List.mem_singleton_self _)) (hes r)

/-- An element that is there all the time is returned once, when the end is reached. -/
theorem Explains.returned_once (h : Explains cmp items₀ tr s)
    (hend : ∀ z ∈ s.items, ¬ Above cmp s.position z) (hx : x ∈ items₀)
    (hno : ∀ p, ¬ Deleted cmp tr p x) : ∃ i, Returned tr i x ∧ ∀ j, Returned tr j x → j = i := by
  obtain ⟨hxs, ha | ⟨i, hi⟩⟩ := h.complete x hx hno
  · exact absurd ha (hend x hxs)
  have hself : cmp x x = .eq := Std.ReflCmp.compare_self
  have hone : ∀ i j, i < j → Returned tr i x → Returned tr j x → False := by
    intro i j hij hi hj
    rcases h.pairs i j x x hij hi hj with hlt | ⟨p, q, -, -, -, hd, -⟩
    · rw [hself] at hlt
      cases hlt
    · exact hno p hd
  refine ⟨i, hi, ?_⟩
  intro j hj
  rcases Nat.lt_trichotomy i j with hij | rfl | hij
  · exact (hone i j hij hi hj).elim
  · rfl
  · exact (hone j i hij hj hi).elim

end Trace

/-! ## Section 3: What is in the set -/

section Members

variable (cmp) in
def Event.concerns (k : κ) : Event κ → Bool
  | .insert k' _ => cmp k k' = .eq
  | .delete k' _ => cmp k k' = .eq
  | .next _ _ => false

variable (cmp) in
/-- The last insertion or deletion of `k`. -/
def lastOn (k : κ) (es : List (Event κ)) : Option (Event κ) :=
  (es.filter (Event.concerns cmp k)).getLast?

variable (cmp) in
def Contains (s : State κ) (k : κ) : Prop := ∃ x ∈ s.items, cmp k x = .eq

/-- A call on `k` decides whether it is there. -/
theorem Step.contains_of_concerns {k : κ} (h : Step cmp s e s') (hs : Valid cmp s)
    (he : e.concerns cmp k = true) : Contains cmp s' k ↔ ∃ k' b, e = .insert k' b := by
  have hdel : ∀ k' x, x ∈ s.items → cmp k k' = .eq → cmp k' x = .eq →
      ¬ Contains cmp ⟨s.items \ {x}, s'.position⟩ k := by
    rintro k' x hx hkk hkx ⟨y, ⟨hy, hne⟩, hky⟩
    exact hne (hs.apart y hy x hx (Std.TransCmp.eq_trans (Std.OrientedCmp.eq_comm.mp hky)
      (Std.TransCmp.eq_trans hkk hkx)))
  cases h with
  | @insertNew k' hk' =>
    simp only [Event.concerns, decide_eq_true_eq] at he
    exact ⟨fun _ => ⟨k', true, rfl⟩, fun _ => ⟨k', Set.mem_insert _ _, he⟩⟩
  | @insertOld k' x hx hk' =>
    simp only [Event.concerns, decide_eq_true_eq] at he
    exact ⟨fun _ => ⟨k', false, rfl⟩, fun _ => ⟨x, hx, Std.TransCmp.eq_trans he hk'⟩⟩
  | @deleteOther k' x hx hk' =>
    simp only [Event.concerns, decide_eq_true_eq] at he
    simp only [reduceCtorEq, exists_false, iff_false]
    exact hdel k' x hx he hk'
  | @deleteCurrent k' x p hx hk' =>
    simp only [Event.concerns, decide_eq_true_eq] at he
    simp only [reduceCtorEq, exists_false, iff_false]
    exact hdel k' x hx he hk'
  | @deleteNone k' hk' =>
    simp only [Event.concerns, decide_eq_true_eq] at he
    simp only [reduceCtorEq, exists_false, iff_false]
    rintro ⟨y, hy, hky⟩
    exact hk' y hy (Std.TransCmp.eq_trans (Std.OrientedCmp.eq_comm.mp he) hky)
  | next => simp [Event.concerns] at he
  | nextNone => simp [Event.concerns] at he

/-- Any other call does not change it. -/
theorem Step.contains_of_not_concerns {k : κ} (h : Step cmp s e s')
    (he : e.concerns cmp k = false) : Contains cmp s' k ↔ Contains cmp s k := by
  have hdel : ∀ k' x, cmp k k' ≠ .eq → cmp k' x = .eq →
      (Contains cmp ⟨s.items \ {x}, s'.position⟩ k ↔ Contains cmp s k) := by
    intro k' x hkk hkx
    constructor
    · rintro ⟨y, hy, hky⟩
      exact ⟨y, hy.1, hky⟩
    · rintro ⟨y, hy, hky⟩
      refine ⟨y, ⟨hy, ?_⟩, hky⟩
      rintro rfl
      exact hkk (Std.TransCmp.eq_trans hky (Std.OrientedCmp.eq_comm.mp hkx))
  cases h with
  | @insertNew k' hk' =>
    simp only [Event.concerns, decide_eq_false_iff_not] at he
    constructor
    · rintro ⟨y, rfl | hy, hky⟩
      · exact absurd hky he
      · exact ⟨y, hy, hky⟩
    · rintro ⟨y, hy, hky⟩
      exact ⟨y, Set.mem_insert_of_mem _ hy, hky⟩
  | insertOld => exact Iff.rfl
  | @deleteOther k' x hx hk' =>
    simp only [Event.concerns, decide_eq_false_iff_not] at he
    exact hdel k' x he hk'
  | @deleteCurrent k' x p hx hk' =>
    simp only [Event.concerns, decide_eq_false_iff_not] at he
    exact hdel k' x he hk'
  | deleteNone => exact Iff.rfl
  | next => exact Iff.rfl
  | nextNone => exact Iff.rfl

/-- In a run from the empty set, what is there is what was inserted last. -/
theorem Runs.contains_iff {es : List (Event κ)} (h : Runs (Step cmp) ⟨∅, none⟩ es s) :
    Valid cmp s ∧ ∀ k, Contains cmp s k ↔ ∃ k' b, lastOn cmp k es = some (.insert k' b) := by
  induction h with
  | nil => exact ⟨⟨by simp, by simp⟩, by simp [Contains, lastOn]⟩
  | @snoc es e s s' _ hst ih =>
    obtain ⟨hs, ih⟩ := ih
    refine ⟨hst.valid hs, ?_⟩
    intro k
    cases he : e.concerns cmp k with
    | true =>
      rw [hst.contains_of_concerns hs he]
      simp [lastOn, he]
    | false =>
      rw [hst.contains_of_not_concerns he, ih k]
      simp [lastOn, he]

end Members

end Cursor
