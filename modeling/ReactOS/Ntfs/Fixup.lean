import Mathlib.Logic.Basic
import ReactOS.Lib.Bytes

/-! # Sector fixups of NTFS records

    `AddFixupArray` and `FixupUpdateSequenceArray` of `mft.c`.  While a record
    is on disk the last word of each of its sectors is in the update sequence
    array, and the update sequence number is in its place.  The loops are given
    by what `n` turns of them do. -/

namespace Ntfs

open Bytes

/-! ## Section 1: The two routines -/

/-- `Record->UsaOffset`. -/
def usaOffset (r : Buf) : Nat := getU16 r 4

/-- `Record->UsaCount`. -/
def usaCount (r : Buf) : Nat := getU16 r 6

/-- The offset of the last word of a sector. -/
def sectorEnd (bytesPerSector i : Nat) : Nat := bytesPerSector - 2 + bytesPerSector * i

/-- A word of a record is stored at another place in it. -/
def copyWord (r : Buf) (dst src : Nat) : Buf := putU16 r dst (getU16 r src)

def addFixups (bytesPerSector usa : Nat) (r : Buf) : Nat → Buf
  | 0 => r
  | i + 1 =>
    let r := addFixups bytesPerSector usa r i
    let r := copyWord r (usa + 2 + 2 * i) (sectorEnd bytesPerSector i)
    copyWord r (sectorEnd bytesPerSector i) usa

def addFixupArray (bytesPerSector : Nat) (r : Buf) : Buf :=
  addFixups bytesPerSector (usaOffset r) (putU16 r (usaOffset r) (getU16 r (usaOffset r) + 1))
    ((usaCount r + 2 ^ 32 - 1) % 2 ^ 32)

/-- With `false` once a sector does not have the number. -/
def removeFixups (bytesPerSector usa : Nat) (r : Buf) : Nat → Buf × Bool
  | 0 => (r, true)
  | i + 1 =>
    let p := removeFixups bytesPerSector usa r i
    if p.2 = true ∧ getU16 p.1 (sectorEnd bytesPerSector i) = getU16 r usa then
      (copyWord p.1 (sectorEnd bytesPerSector i) (usa + 2 + 2 * i), true)
    else (p.1, false)

def fixupUpdateSequenceArray (bytesPerSector : Nat) (r : Buf) : Buf × Bool :=
  removeFixups bytesPerSector (usaOffset r) r ((usaCount r + 2 ^ 16 - 1) % 2 ^ 16)

/-! ## Section 2: What the loops do -/

variable {r : Buf} {i j k m n o s u w : Nat}

theorem copyWord_in (hj : j < 2) : copyWord r o s (o + j) = r (s + j) := by
  have h0 := (r s).toNat_lt
  have h1 := (r (s + 1)).toNat_lt
  rw [copyWord, putU16, overlay_in (by omega) (by omega), Nat.add_sub_cancel_left]
  apply UInt8.toNat_inj.1
  obtain rfl | rfl : j = 0 ∨ j = 1 := by omega
  · simp only [u16le, getU16, UInt8.toNat_ofNat', Nat.add_zero]
    omega
  · simp only [u16le, getU16, UInt8.toNat_ofNat']
    omega

theorem copyWord_out (h : k < o ∨ o + 2 ≤ k) : copyWord r o s k = r k := putU16_out h

theorem getU16_copyWord (h : u + 2 ≤ o ∨ o + 2 ≤ u) : getU16 (copyWord r o s) u = getU16 r u :=
  getU16_congr fun i hi => copyWord_out (by omega)

theorem getU16_copyWord_self : getU16 (copyWord r o s) o = getU16 r s :=
  getU16_congr fun _ hi => copyWord_in hi

theorem sectorEnd_lt (hw : 2 ≤ w) (hi : i < m) : sectorEnd w i + 2 ≤ sectorEnd w m := by
  have hle := Nat.mul_le_mul_left w (Nat.succ_le_of_lt hi)
  rw [Nat.mul_succ] at hle
  unfold sectorEnd
  omega

/-- Byte `k` is in no word that ends one of the first `m` sectors. -/
def Apart (w m k : Nat) : Prop := ∀ i < m, k < sectorEnd w i ∨ sectorEnd w i + 2 ≤ k

theorem sectorEnd_apart (hw : 2 ≤ w) (j : Nat) : Apart w m (sectorEnd w m + j) := fun _ hi =>
  .inr (Nat.le_add_right_of_le (sectorEnd_lt hw hi))

/-- The number at `u` and the `n` slots behind it are apart from the ends of the sectors. -/
structure ArrayApart (w n u : Nat) : Prop where
  word : 2 ≤ w
  array : ∀ i < n, sectorEnd w i + 2 ≤ u ∨ u + 2 * (n + 1) ≤ sectorEnd w i

theorem ArrayApart.apart (h : ArrayApart w n u) (hm : m ≤ n) (h1 : u ≤ k)
    (h2 : k < u + 2 * (n + 1)) : Apart w m k := fun i hi => by
  have := h.array i (by omega)
  omega

/-- The ends of the sectors are in the slots, and the number is in their place. -/
theorem addFixups_spec (h : ArrayApart w n u) (hm : m ≤ n) :
    (∀ i < m, ∀ j < 2, addFixups w u r m (u + 2 + 2 * i + j) = r (sectorEnd w i + j)) ∧
    (∀ i < m, getU16 (addFixups w u r m) (sectorEnd w i) = getU16 r u) ∧
    ∀ k, k < u + 2 ∨ u + 2 * (n + 1) ≤ k → Apart w m k → addFixups w u r m k = r k := by
  induction m with
  | zero => exact ⟨fun i hi => by omega, fun i hi => by omega, fun k _ _ => rfl⟩
  | succ m ih =>
    obtain ⟨hsaved, hnumber, hsame⟩ := ih (by omega)
    have hend := h.array m (by omega)
    rw [addFixups]
    refine ⟨fun i hi j hj => ?_, fun i hi => ?_, fun k hk ha => ?_⟩
    · rw [copyWord_out (by omega)]
      rcases Nat.lt_succ_iff_lt_or_eq.1 hi with hi | rfl
      · rw [copyWord_out (by omega), hsaved i hi j hj]
      · rw [copyWord_in hj, hsame _ (by omega) (sectorEnd_apart h.word j)]
    · rcases Nat.lt_succ_iff_lt_or_eq.1 hi with hi | rfl
      · have hne := sectorEnd_lt h.word hi
        have hi' := h.array i (by omega)
        rw [getU16_copyWord (by omega), getU16_copyWord (by omega), hnumber i hi]
      · rw [getU16_copyWord_self, getU16_copyWord (by omega)]
        exact getU16_congr fun j hj => hsame _ (by omega) (h.apart (by omega) (by omega) (by omega))
    · have := ha m (by omega)
      rw [copyWord_out (by omega), copyWord_out (by omega), hsame k hk fun i hi => ha i (by omega)]

/-- The loop goes on as long as the sectors have the number, and puts the slots in its place. -/
theorem removeFixups_spec (hw : 2 ≤ w) (m : Nat) :
    ((removeFixups w u r m).2 = true ↔ ∀ i < m, getU16 r (sectorEnd w i) = getU16 r u) ∧
    (∀ k, Apart w m k → (removeFixups w u r m).1 k = r k) ∧
    ((removeFixups w u r m).2 = true → ArrayApart w n u → m ≤ n → ∀ i < m, ∀ j < 2,
      (removeFixups w u r m).1 (sectorEnd w i + j) = r (u + 2 + 2 * i + j)) := by
  induction m with
  | zero => exact ⟨iff_of_true rfl fun i hi => by omega, fun _ _ => rfl, fun _ _ _ i hi => by omega⟩
  | succ m ih =>
    obtain ⟨hall, hsame, hslots⟩ := ih
    have hlast : getU16 (removeFixups w u r m).1 (sectorEnd w m) = getU16 r (sectorEnd w m) :=
      getU16_congr fun j hj => hsame _ (sectorEnd_apart hw j)
    rw [removeFixups, hlast]
    have hnext : (removeFixups w u r m).2 = true ∧ getU16 r (sectorEnd w m) = getU16 r u ↔
        ∀ i < m + 1, getU16 r (sectorEnd w i) = getU16 r u := by
      rw [hall, Nat.forall_lt_succ_right]
    split
    · rename_i hstep
      have hok := hnext.1 hstep
      refine ⟨iff_of_true rfl hok, fun k ha => ?_, fun _ h hm i hi j hj => ?_⟩
      · exact (copyWord_out (ha m (by omega))).trans (hsame k fun i hi => ha i (by omega))
      · rcases Nat.lt_succ_iff_lt_or_eq.1 hi with hi | rfl
        · have hlt := sectorEnd_lt hw hi
          exact (copyWord_out (by omega)).trans (hslots hstep.1 h (by omega) i hi j hj)
        · exact (copyWord_in hj).trans (hsame _ (h.apart (by omega) (by omega) (by omega)))
    · rename_i hno
      exact ⟨iff_of_false Bool.false_ne_true fun hok => hno (hnext.2 hok),
        fun k ha => hsame k fun i hi => ha i (by omega), fun hfalse => by cases hfalse⟩

/-! ## Section 3: What the fixups protect -/

/-- The update sequence array of the record has a slot for each of its sectors, and lies behind the
    header and apart from the ends of the sectors. -/
structure Covers (bytesPerSector sectors : Nat) (r : Buf) : Prop where
  count : usaCount r = sectors + 1
  header : 8 ≤ usaOffset r ∧ 10 ≤ bytesPerSector
  apart : ArrayApart bytesPerSector sectors (usaOffset r)

theorem Covers.header_same (h : Covers w n r) {r' : Buf}
    (hsame : ∀ k, k < usaOffset r → Apart w n k → r' k = r k) :
    usaOffset r' = usaOffset r ∧ usaCount r' = usaCount r := by
  obtain ⟨hoffset, hw⟩ := h.header
  have hbyte : ∀ k < 8, r' k = r k := fun k hk => hsame k (by omega) fun i _ => by
    unfold sectorEnd
    omega
  exact ⟨getU16_congr fun i hi => hbyte _ (by omega), getU16_congr fun i hi => hbyte _ (by omega)⟩

theorem usaCount_lt (r : Buf) : usaCount r < 2 ^ 16 := by
  have h0 := (r 6).toNat_lt
  have h1 := (r (6 + 1)).toNat_lt
  rw [usaCount, getU16]
  omega

theorem fixupUpdateSequenceArray_eq (h : usaCount r = n + 1) :
    fixupUpdateSequenceArray w r = removeFixups w (usaOffset r) r n := by
  have hlt := usaCount_lt r
  rw [fixupUpdateSequenceArray, show (usaCount r + 2 ^ 16 - 1) % 2 ^ 16 = n by omega]

/-- Fixups that are added can be removed again, which restores the record but for its array; and a
    record is refused when one of the sectors its array covers does not have the number. -/
theorem fixups_protect {bytesPerSector : Nat} (hw : 2 ≤ bytesPerSector) (r : Buf) :
    (∀ sectors, Covers bytesPerSector sectors r →
      (fixupUpdateSequenceArray bytesPerSector (addFixupArray bytesPerSector r)).2 = true ∧
      ∀ k, k < usaOffset r ∨ usaOffset r + 2 * usaCount r ≤ k →
        (fixupUpdateSequenceArray bytesPerSector (addFixupArray bytesPerSector r)).1 k = r k) ∧
    ∀ i, i + 1 < usaCount r → getU16 r (sectorEnd bytesPerSector i) ≠ getU16 r (usaOffset r) →
      (fixupUpdateSequenceArray bytesPerSector r).2 = false := by
  refine ⟨fun sectors h => ?_, fun i hi hne => ?_⟩
  · have ha := h.apart
    have hle := Nat.le_refl sectors
    obtain ⟨r1, hr1⟩ : ∃ r1, r1 = putU16 r (usaOffset r) (getU16 r (usaOffset r) + 1) := ⟨_, rfl⟩
    have hsame1 : ∀ k, k < usaOffset r ∨ usaOffset r + 2 ≤ k → r1 k = r k := fun k hk => by
      rw [hr1]
      exact putU16_out hk
    obtain ⟨a, hadded⟩ : ∃ a, a = addFixups bytesPerSector (usaOffset r) r1 sectors := ⟨_, rfl⟩
    have hadd : addFixupArray bytesPerSector r = a := by
      have hlt := usaCount_lt r
      rw [h.count] at hlt
      rw [addFixupArray, h.count, show (sectors + 1 + 2 ^ 32 - 1) % 2 ^ 32 = sectors by omega,
        hadded, hr1]
    obtain ⟨hsaved, hnumber, hsame⟩ := addFixups_spec (r := r1) ha hle
    rw [← hadded] at hsaved hnumber hsame
    obtain ⟨hoffset, hcount⟩ : usaOffset a = usaOffset r ∧ usaCount a = usaCount r :=
      h.header_same fun k hk hap => by rw [hsame k (by omega) hap, hsame1 k (by omega)]
    rw [hadd, fixupUpdateSequenceArray_eq (hcount.trans h.count), hoffset]
    obtain ⟨hall, hkeep, hslots⟩ :=
      removeFixups_spec (u := usaOffset r) (r := a) (n := sectors) hw sectors
    have hok := hall.2 fun i hi => by
      rw [hnumber i hi]
      exact (getU16_congr fun j hj => hsame _ (by omega) (ha.apart hle (by omega) (by omega))).symm
    refine ⟨hok, fun k hk => ?_⟩
    rw [h.count] at hk
    by_cases hap : Apart bytesPerSector sectors k
    · rw [hkeep k hap, hsame k (by omega) hap, hsame1 k (by omega)]
    · -- The byte ends a sector: it was saved, and comes back from its slot.
      simp only [Apart, not_forall, not_or, Nat.not_lt, Nat.not_le] at hap
      obtain ⟨i, hi, h1, h2⟩ := hap
      obtain ⟨j, rfl⟩ := Nat.exists_eq_add_of_le h1
      rw [hslots hok ha hle i hi j (by omega), hsaved i hi j (by omega), hsame1 _ (by omega)]
  · obtain ⟨n, hn⟩ : ∃ n, usaCount r = n + 1 := ⟨usaCount r - 1, by omega⟩
    rw [fixupUpdateSequenceArray_eq hn]
    refine Bool.eq_false_iff.2 fun htrue => hne ?_
    exact (removeFixups_spec (n := n) hw n).1.1 htrue i (by omega)

/-- A record of two sectors with its array right behind the header. -/
def twoSectors : Buf := putU16 (putU16 (fun _ => 0) 4 0x30) 6 3

theorem twoSectors_covers : Covers 512 2 twoSectors :=
  ⟨by decide, by decide, by decide, fun i hi => .inr (by
    obtain rfl | rfl : i = 0 ∨ i = 1 := by omega
    all_goals decide)⟩

theorem fixups_protect_twoSectors :
    (fixupUpdateSequenceArray 512 (addFixupArray 512 twoSectors)).2 = true ∧
      (fixupUpdateSequenceArray 512 (putU16 twoSectors 510 7)).2 = false :=
  ⟨((fixups_protect (by decide) twoSectors).1 2 twoSectors_covers).1,
    (fixups_protect (by decide) (putU16 twoSectors 510 7)).2 0 (by decide) (by decide)⟩

end Ntfs
