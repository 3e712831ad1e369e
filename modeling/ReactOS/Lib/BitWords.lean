import Mathlib.Data.Finset.Filter
import Mathlib.Order.Interval.Finset.Nat

/-! # Words of bits

    A buffer of machine words read as one sequence of bits: bit `i` is bit `i % w` of word
    `i / w`.  A run of bits is painted word by word: the upper bits of a first word, whole words,
    and the lower bits of a last word.  `Painted` says what such a sequence of writes has done so
    far, and its rules put neighbouring runs together. -/

namespace BitWords

open BitVec

variable {w : Nat}

/-- Bit `i` of the buffer; past its end all bits are clear. -/
def bitAt (ws : Array (BitVec w)) (i : Nat) : Bool := (ws.getD (i / w) 0).getLsbD (i % w)

/-- The indices below `n` whose bits are set. -/
def setBelow (ws : Array (BitVec w)) (n : Nat) : Finset Nat :=
  (Finset.range n).filter fun i => bitAt ws i = true

@[simp] theorem mem_setBelow {ws : Array (BitVec w)} {n i : Nat} :
    i ∈ setBelow ws n ↔ i < n ∧ bitAt ws i = true := by
  simp [setBelow]

/-! ## Section 1: Indices -/

theorem div_eq_iff {w i k : Nat} (hw : 0 < w) : i / w = k ↔ k * w ≤ i ∧ i < k * w + w := by
  rw [Nat.div_eq_iff hw]
  omega

/-- An index is a word and a position in it. -/
theorem index_eq (w i : Nat) : i = i / w * w + i % w := (Nat.div_add_mod' i w).symm

theorem bitAt_word (ws : Array (BitVec w)) (k j : Nat) (hj : j < w) :
    bitAt ws (k * w + j) = (ws.getD k 0).getLsbD j := by
  have hw : 0 < w := by omega
  have hdiv : (k * w + j) / w = k := (div_eq_iff hw).2 ⟨by omega, by omega⟩
  have hmod : (k * w + j) % w = j := by
    rw [Nat.mul_comm, Nat.mul_add_mod, Nat.mod_eq_of_lt hj]
  rw [bitAt, hdiv, hmod]

/-! ## Section 2: Painting -/

/-- `ws'` is `ws` with the bits from `a` up to `b` painted with `v`. -/
structure Painted (ws ws' : Array (BitVec w)) (a b : Nat) (v : Bool) : Prop where
  size : ws'.size = ws.size
  inside : ∀ i, a ≤ i → i < b → bitAt ws' i = v
  outside : ∀ i, i < a ∨ b ≤ i → bitAt ws' i = bitAt ws i

namespace Painted

variable {ws ws' ws'' : Array (BitVec w)} {a b c : Nat} {v : Bool}

theorem refl (ws : Array (BitVec w)) (a : Nat) (v : Bool) : Painted ws ws a a v where
  size := rfl
  inside := fun i h1 h2 => by omega
  outside := fun _ _ => rfl

theorem trans (h1 : Painted ws ws' a b v) (h2 : Painted ws' ws'' b c v) (hab : a ≤ b)
    (hbc : b ≤ c) : Painted ws ws'' a c v where
  size := h2.size.trans h1.size
  inside := fun i hi hi' => by
    by_cases hb : i < b
    · rw [h2.outside i (.inl hb)]
      exact h1.inside i hi hb
    · exact h2.inside i (by omega) hi'
  outside := fun i hi => by
    rw [h2.outside i (by omega)]
    exact h1.outside i (by omega)

/-- The set of the bits below `n` afterwards, when all of the run is below `n`. -/
theorem setBelow_true (h : Painted ws ws' a b true) {n : Nat} (hb : b ≤ n) :
    setBelow ws' n = setBelow ws n ∪ Finset.Ico a b := by
  ext i
  simp only [mem_setBelow, Finset.mem_union, Finset.mem_Ico]
  by_cases hi : a ≤ i ∧ i < b
  · have hin := h.inside i hi.1 hi.2
    have hlt : i < n := by omega
    simp [hin, hlt, hi]
  · rw [h.outside i (by omega)]
    simp [hi]

theorem setBelow_false (h : Painted ws ws' a b false) (n : Nat) :
    setBelow ws' n = setBelow ws n \ Finset.Ico a b := by
  ext i
  simp only [mem_setBelow, Finset.mem_sdiff, Finset.mem_Ico]
  by_cases hi : a ≤ i ∧ i < b
  · have hin := h.inside i hi.1 hi.2
    simp [hin, hi]
  · rw [h.outside i (by omega)]
    simp [hi]

/-- Writing one word paints the bits in which the new word has the value `v`, if the others are
    the old ones. -/
theorem of_set {k lo hi : Nat} (hk : k < ws.size) {x : BitVec w} (hhi : hi ≤ w)
    (hin : ∀ j, lo ≤ j → j < hi → x.getLsbD j = v)
    (hout : ∀ j, j < w → j < lo ∨ hi ≤ j → x.getLsbD j = (ws.getD k 0).getLsbD j) :
    Painted ws (ws.set k x) (k * w + lo) (k * w + hi) v where
  size := by simp
  inside := fun i h1 h2 => by
    have hj : i - k * w < w := by omega
    have hi : i = k * w + (i - k * w) := by omega
    rw [hi, bitAt_word _ k _ hj, Array.getD_eq_getD_getElem?, Array.getElem?_set_self]
    exact hin _ (by omega) (by omega)
  outside := fun i h => by
    rcases Nat.eq_zero_or_pos w with hw | hw
    · subst hw
      simp [bitAt]
    by_cases hik : i / w = k
    · obtain ⟨h1, h2⟩ := (div_eq_iff hw).1 hik
      have hi : i = k * w + (i - k * w) := by omega
      rw [hi, bitAt_word _ k _ (by omega), bitAt_word _ k _ (by omega),
        Array.getD_eq_getD_getElem?, Array.getElem?_set_self]
      exact hout _ (by omega) (by omega)
    · rw [bitAt, bitAt, Array.getD_eq_getD_getElem?, Array.getElem?_set_ne hk (Ne.symm hik),
        ← Array.getD_eq_getD_getElem?]

end Painted

/-! ## Section 3: Masks -/

/-- The word with the bits from `lo` on. -/
theorem getLsbD_upper (lo j : Nat) (hj : j < w) :
    (allOnes w <<< lo).getLsbD j = decide (lo ≤ j) := by
  simp only [getLsbD_shiftLeft, getLsbD_allOnes]
  grind

/-- The same with its `cut` highest bits shifted out again. -/
theorem getLsbD_middle (lo cut j : Nat) (hj : j < w) :
    (allOnes w <<< lo <<< cut >>> cut).getLsbD j = decide (lo ≤ j ∧ j + cut < w) := by
  simp only [getLsbD_ushiftRight, getLsbD_shiftLeft, getLsbD_allOnes]
  grind

/-- A word whose bits below `lo` have been shifted out and back in. -/
theorem getLsbD_shift_out (x : BitVec w) (lo j : Nat) (hj : j < w) :
    (x >>> lo <<< lo).getLsbD j = (x.getLsbD j && decide (lo ≤ j)) := by
  simp only [getLsbD_shiftLeft, getLsbD_ushiftRight]
  grind

end BitWords
