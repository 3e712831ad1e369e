import Mathlib.Data.List.Chain
import Mathlib.Data.List.Infix

/-! # Circular lists with links both ways

    The nodes of a circular list, from a head node on, when `next` and `prev` are the links stored
    in the nodes.  A node is removed by two stores and put in by four; every other link stays. -/

namespace LinkRing

open List Option

variable {α : Type} {next prev next' prev' : α → α} {head x y : α} {l l₁ l₂ : List α}

/-- Neighbours in the list point to each other. -/
def Links (next prev : α → α) (l : List α) : Prop :=
  l.IsChain fun a b => next a = b ∧ prev b = a

/-- The circular list of `head` and the members `l`. -/
def Ring (next prev : α → α) (head : α) (l : List α) : Prop :=
  Links next prev (head :: l ++ [head])

/-- The links of a list are the forward ones of all nodes but the last, and the backward ones of all
    but the first. -/
theorem Links.transport (h : Links next prev l)
    (hsame : ∀ a b, [a, b] <:+: l → next' a = next a ∧ prev' b = prev b) : Links next' prev' l := by
  rw [Links, isChain_iff_forall_rel_of_append_cons_cons] at h ⊢
  intro a b l₁ l₂ hl
  obtain ⟨hnext, hprev⟩ := hsame a b ⟨l₁, l₂, by rw [hl]; simp⟩
  rw [hnext, hprev]
  exact h hl

theorem Ring.congr (h : Ring next prev head l) (hnext : ∀ a ∈ head :: l, next' a = next a)
    (hprev : ∀ a ∈ head :: l, prev' a = prev a) : Ring next' prev' head l := by
  have hmem : ∀ a, a ∈ head :: l ++ [head] → a ∈ head :: l := by grind
  refine Links.transport h fun a b hab => ⟨hnext a (hmem a ?_), hprev b (hmem b ?_)⟩
  · exact hab.subset mem_cons_self
  · exact hab.subset (by simp)

/-- Neighbours in a list without repetition: the first is not the last node, and the second is not
    the first node. -/
theorem ne_ends {a b c : α} {l : List α} (hl : l.Nodup) (hab : [a, b] <:+: l) :
    (l.getLast? = some c → a ≠ c) ∧ (l.head? = some c → b ≠ c) := by
  obtain ⟨s, t, rfl⟩ := hab
  have hnodup : (s ++ ([a, b] ++ t)).Nodup := by
    rw [← append_assoc]
    exact hl
  have hright := (nodup_append.1 hnodup).2.1
  constructor
  · intro hlast heq
    have hmem : a ∈ b :: t := by grind
    exact (nodup_cons.1 hright).1 hmem
  · intro hhead heq
    cases s with
    | nil =>
      have hab : a = b := by
        rw [heq]
        exact some.inj hhead
      exact (nodup_cons.1 hright).1 (hab ▸ mem_cons_self)
    | cons d s =>
      have hdb : d = b := by
        rw [heq]
        exact some.inj hhead
      exact (nodup_append.1 hnodup).2.2 d mem_cons_self b (by simp) hdb

/-- The two parts of a circular list around a place in it. -/
theorem ring_split {a c : α} (ha : (head :: l₁).getLast? = some a) (hc : (l₂ ++ [head]).head? = some c) :
    Ring next prev head (l₁ ++ l₂) ↔ Links next prev (head :: l₁) ∧ (next a = c ∧ prev c = a) ∧
      Links next prev (l₂ ++ [head]) := by
  obtain ⟨p, hp⟩ := getLast?_eq_some_iff.1 ha
  obtain ⟨q, hq⟩ := head?_eq_some_iff.1 hc
  have hlist : head :: (l₁ ++ l₂) ++ [head] = p ++ a :: c :: q := by
    rw [cons_append, append_assoc, hq, ← cons_append, hp, append_assoc]
    rfl
  rw [Ring, hlist, hp, hq]
  exact isChain_append_cons_cons

/-- What the links of the other nodes have to be for a change between the parts. -/
theorem links_sides {a c : α} (hnodup : (head :: (l₁ ++ l₂)).Nodup)
    (ha : (head :: l₁).getLast? = some a) (hc : (l₂ ++ [head]).head? = some c)
    (hnext : ∀ b ∈ head :: (l₁ ++ l₂), b ≠ a → next' b = next b)
    (hprev : ∀ b ∈ head :: (l₁ ++ l₂), b ≠ c → prev' b = prev b)
    (h1 : Links next prev (head :: l₁)) (h2 : Links next prev (l₂ ++ [head])) :
    Links next' prev' (head :: l₁) ∧ Links next' prev' (l₂ ++ [head]) := by
  have hleft : (head :: l₁).Nodup := by
    exact (nodup_append.1 hnodup).1
  have hright : (l₂ ++ [head]).Nodup := by grind
  have hapart : ∀ u ∈ head :: l₁, ∀ v ∈ l₂, u ≠ v := by
    exact (nodup_append.1 hnodup).2.2
  have hamem : a ∈ head :: l₁ := mem_of_getLast? ha
  have hcmem : c ∈ l₂ ++ [head] := mem_of_head? hc
  constructor
  · refine h1.transport fun u v huv => ?_
    have hu : u ∈ head :: l₁ := huv.subset mem_cons_self
    have hv : v ∈ head :: l₁ := huv.subset (by simp)
    have hvhead : v ≠ head := (ne_ends hleft huv).2 rfl
    refine ⟨hnext u ?_ ((ne_ends hleft huv).1 ha), hprev v ?_ fun heq => ?_⟩
    · rw [← cons_append]
      exact mem_append_left _ hu
    · rw [← cons_append]
      exact mem_append_left _ hv
    · grind
  · refine h2.transport fun u v huv => ?_
    have hu : u ∈ l₂ ++ [head] := huv.subset mem_cons_self
    have hv : v ∈ l₂ ++ [head] := huv.subset (by simp)
    have huhead : u ≠ head := (ne_ends hright huv).1 (by simp)
    have hu2 : u ∈ l₂ := by grind
    refine ⟨hnext u ?_ fun heq => hapart a hamem u hu2 heq.symm, hprev v ?_
      ((ne_ends hright huv).2 hc)⟩
    · exact mem_cons_of_mem _ (mem_append_right _ hu2)
    · grind

namespace Ring

variable (h : Ring next prev head (l₁ ++ x :: l₂))

include h

theorem neighbours : (head :: l₁).getLast? = some (prev x) ∧ (l₂ ++ [head]).head? = some (next x) ∧
      next (prev x) = x ∧ prev (next x) = x := by
  obtain ⟨a, ha⟩ : ∃ a, (head :: l₁).getLast? = some a := by
    rw [← isSome_iff_exists]
    simp
  obtain ⟨c, hc⟩ : ∃ c, (l₂ ++ [head]).head? = some c := by
    rw [← isSome_iff_exists]
    cases l₂ <;> simp
  obtain ⟨-, ⟨hax, hx⟩, hright⟩ := (ring_split ha (by simp : (x :: l₂ ++ [head]).head? = some x)).1 h
  obtain ⟨q, hq⟩ := head?_eq_some_iff.1 hc
  have hfirst : next x = c ∧ prev c = x := by
    rw [Links, cons_append, hq] at hright
    exact (isChain_cons_cons.1 hright).1
  exact ⟨by rw [ha, hx], by rw [hc, hfirst.1], by rw [hx, hax], by rw [hfirst.1, hfirst.2]⟩

/-- The neighbours of a member are the head or members, too. -/
theorem neighbours_mem : prev x ∈ head :: (l₁ ++ l₂) ∧ next x ∈ head :: (l₁ ++ l₂) := by
  obtain ⟨ha, hc, -⟩ := h.neighbours
  constructor
  · rw [← cons_append]
    exact mem_append_left _ (mem_of_getLast? ha)
  · rcases mem_append.1 (mem_of_head? hc) with hmem | hmem
    · exact mem_cons_of_mem _ (mem_append_right _ hmem)
    · exact mem_singleton.1 hmem ▸ mem_cons_self

/-- Two stores remove a member. -/
theorem remove (hnodup : (head :: (l₁ ++ x :: l₂)).Nodup) (hnext : next' (prev x) = next x)
    (hprev : prev' (next x) = prev x)
    (hnext' : ∀ b ∈ head :: (l₁ ++ l₂), b ≠ prev x → next' b = next b)
    (hprev' : ∀ b ∈ head :: (l₁ ++ l₂), b ≠ next x → prev' b = prev b) :
    Ring next' prev' head (l₁ ++ l₂) := by
  obtain ⟨ha, hc, -⟩ := h.neighbours
  have hsub : (head :: (l₁ ++ l₂)).Nodup :=
    hnodup.sublist (((sublist_cons_self x l₂).append_left l₁).cons_cons head)
  obtain ⟨hleft, -, hright⟩ := (ring_split ha (by simp : (x :: l₂ ++ [head]).head? = some x)).1 h
  have hright' : Links next prev (l₂ ++ [head]) := by
    exact hright.tail
  obtain ⟨hleft', hright'⟩ := links_sides hsub ha hc hnext' hprev' hleft hright'
  exact (ring_split ha hc).2 ⟨hleft', ⟨hnext, hprev⟩, hright'⟩

end Ring

/-- Four stores put a node in, before `y`. -/
theorem Ring.insert (h : Ring next prev head (l₁ ++ l₂)) (hnodup : (head :: (l₁ ++ l₂)).Nodup)
    (hy : (l₂ ++ [head]).head? = some y) (hxnext : next' x = y) (hxprev : prev' x = prev y)
    (hnext : next' (prev y) = x) (hprev : prev' y = x)
    (hnext' : ∀ b ∈ head :: (l₁ ++ l₂), b ≠ prev y → next' b = next b)
    (hprev' : ∀ b ∈ head :: (l₁ ++ l₂), b ≠ y → prev' b = prev b) :
    Ring next' prev' head (l₁ ++ x :: l₂) := by
  obtain ⟨a, ha⟩ : ∃ a, (head :: l₁).getLast? = some a := by
    rw [← isSome_iff_exists]
    simp
  obtain ⟨hleft, ⟨-, hay⟩, hright⟩ := (ring_split ha hy).1 h
  rw [hay] at hxprev hnext hnext'
  obtain ⟨hleft', hright'⟩ := links_sides hnodup ha hy hnext' hprev' hleft hright
  refine (ring_split ha (by simp : (x :: l₂ ++ [head]).head? = some x)).2
    ⟨hleft', ⟨hnext, hxprev⟩, ?_⟩
  rw [Links, cons_append, isChain_cons]
  refine ⟨fun b hb => ?_, hright'⟩
  rw [mem_def, hy] at hb
  rw [← some.inj hb]
  exact ⟨hxnext, hprev⟩

end LinkRing
