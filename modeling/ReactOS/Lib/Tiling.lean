import Mathlib.Algebra.Ring.Nat
import Mathlib.Data.List.Basic

/-! # Segments laid end to end

    A list of segments, each with a size, laid out one after the other from
    an offset `o`.  `segAt size l o x` is the segment that starts at `x`.

    * `segAt_bounds`: a segment lies between `o` and the end of the layout.
    * `segAt_disjoint`: two different segments do not overlap.
    * `segAt_replace`: replacing a run of segments by another run of the same
      total size changes nothing outside the run.

    All results assume that no segment is empty. -/

namespace Tiling

variable {α : Type} (size : α → Nat)

/-- Sum of the sizes. -/
def total (l : List α) : Nat := (l.map size).sum

/-- The segment that starts at `x` when `l` is laid out from `o`. -/
def segAt : List α → Nat → Nat → Option α
  | [], _, _ => none
  | c :: cs, o, x => if x = o then some c else segAt cs (o + size c) x

@[simp] theorem total_nil : total size ([] : List α) = 0 := rfl

@[simp] theorem total_cons (c : α) (l : List α) : total size (c :: l) = size c + total size l := by
  simp [total]

@[simp] theorem total_append (l m : List α) :
    total size (l ++ m) = total size l + total size m := by
  simp [total]

variable {size} {l : List α} {o x y : Nat} {c d : α}

/-- A segment found at `x` splits the layout. -/
theorem exists_of_segAt (h : segAt size l o x = some c) :
    ∃ pre post, l = pre ++ c :: post ∧ x = o + total size pre := by
  induction l generalizing o with
  | nil => simp [segAt] at h
  | cons e l ih =>
    unfold segAt at h
    split at h
    · rename_i hx
      cases h
      exact ⟨[], l, rfl, by simp [hx]⟩
    · obtain ⟨pre, post, hl, hx⟩ := ih h
      exact ⟨e :: pre, post, by simp [hl], by simp [hx, Nat.add_assoc]⟩

theorem segAt_singleton : segAt size [c] o x = some d ↔ x = o ∧ d = c := by
  by_cases hx : x = o <;> simp [segAt, hx, eq_comm]

theorem segAt_cons (h : segAt size (d :: l) o x = some c) :
    x = o ∧ c = d ∨ segAt size l (o + size d) x = some c := by
  rw [segAt] at h
  split at h
  · exact .inl ⟨‹x = o›, (Option.some.inj h).symm⟩
  · exact .inr h

theorem mem_of_segAt (h : segAt size l o x = some c) : c ∈ l := by
  obtain ⟨pre, post, rfl, _⟩ := exists_of_segAt h
  simp

theorem segAt_bounds (h : segAt size l o x = some c) : o ≤ x ∧ x + size c ≤ o + total size l := by
  obtain ⟨pre, post, rfl, rfl⟩ := exists_of_segAt h
  simp
  omega

theorem segAt_of_lt (h : x < o) : segAt size l o x = none := by
  cases hs : segAt size l o x with
  | none => rfl
  | some c =>
    have := segAt_bounds hs
    omega

section

variable (hpos : ∀ c, 0 < size c)

include hpos

theorem segAt_append (l m : List α) :
    segAt size (l ++ m) o x =
      if x < o + total size l then segAt size l o x else segAt size m (o + total size l) x := by
  induction l generalizing o with
  | nil =>
    by_cases h : x < o
    · simp [segAt_of_lt h]
    · simp [h]
  | cons e l ih =>
    have he := hpos e
    simp only [List.cons_append, segAt, total_cons]
    by_cases hx : x = o
    · simp [hx]
      omega
    · rw [if_neg hx, if_neg hx, ih, Nat.add_assoc]

theorem segAt_disjoint (hx : segAt size l o x = some c)
    (hy : segAt size l o y = some d) (hne : x ≠ y) : x + size c ≤ y ∨ y + size d ≤ x := by
  obtain ⟨pre, post, rfl, rfl⟩ := exists_of_segAt hx
  rw [segAt_append hpos] at hy
  split at hy
  · have := segAt_bounds hy
    omega
  simp only [segAt] at hy
  split at hy
  · omega
  · have := segAt_bounds hy
    omega

/-- A segment lies before a given run, in it or behind it. -/
theorem segAt_run {pre mid post : List α} (h : segAt size (pre ++ mid ++ post) o x = some c) :
    x + size c ≤ o + total size pre ∨
    segAt size mid (o + total size pre) x = some c ∨
    o + total size pre + total size mid ≤ x := by
  rw [List.append_assoc, segAt_append hpos] at h
  split at h
  · exact .inl (segAt_bounds h).2
  rw [segAt_append hpos] at h
  split at h
  · exact .inr (.inl h)
  · exact .inr (.inr (by omega))

/-- Replacing a run of segments by a run of the same total size keeps every
    segment outside the run where it was. -/
theorem segAt_replace {pre mid mid' post : List α} (htot : total size mid' = total size mid) :
    segAt size (pre ++ mid' ++ post) o x =
      if o + total size pre ≤ x ∧ x < o + total size pre + total size mid then
        segAt size mid' (o + total size pre) x
      else segAt size (pre ++ mid ++ post) o x := by
  simp only [List.append_assoc, segAt_append hpos, htot]
  by_cases h1 : x < o + total size pre
  · rw [if_pos h1, if_neg (by omega), if_pos h1]
  · grind

/-- After the replacement a segment is in the new run, or is where it was. -/
theorem segAt_replaced {pre mid mid' post : List α} (htot : total size mid' = total size mid)
    (h : segAt size (pre ++ mid' ++ post) o x = some c) :
    segAt size mid' (o + total size pre) x = some c ∨
    segAt size (pre ++ mid ++ post) o x = some c ∧
      (x + size c ≤ o + total size pre ∨ o + total size pre + total size mid ≤ x) := by
  have hc := hpos c
  have hrun := segAt_run hpos h
  rw [segAt_replace hpos htot] at h
  rcases hrun with hrun | hrun | hrun
  · rw [if_neg (by omega)] at h
    exact .inr ⟨h, .inl hrun⟩
  · exact .inl hrun
  · rw [if_neg (by omega)] at h
    exact .inr ⟨h, .inr (by omega)⟩

end

end Tiling
