import ReactOS.Rtl.Bitmap

/-! # Searching a bitmap

    The routines of `sdk/lib/rtl/bitmap.c` that look for runs: `RtlFindClearBits` and
    `RtlFindSetBits` with their hint and their second pass, `RtlFindClearBitsAndSet`,
    `RtlFindNextForwardRunClear` and `RtlFindLongestRunClear`.

    `RtlFindSetBits` is a first-fit search.  `RtlFindClearBits` is a copy of it that compares with
    its margin by `<`, so that it never takes a run that ends with the margin if its pass starts
    with that run.  What is said of clear bits is carried over to set bits by the complement of the
    bitmap, on which the two loops are one. -/

namespace Rtl

open BitWords RtlBitmap Option

variable {w : Nat}

/-! ## Section 1: The routines -/

/-- `MAXINDEX`, which stands for "nothing found". -/
def maxIndex (w : Nat) : Nat := 2 ^ w - 1

/-- The loop of `RtlFindClearBits`; `some none` if it ends without a run. -/
def findClearPass (b : RtlBitmap w) (numberToFind margin : Nat) : Nat → Nat → Option (Option Nat)
  | 0, _ => none
  | fuel + 1, currentBit =>
    if (currentBit + numberToFind) % 2 ^ w < margin then do
      let setRun ← rtlpGetLengthOfRunSet b currentBit (maxIndex w)
      let currentBit := (currentBit + setRun) % 2 ^ w
      let currentLength ← rtlpGetLengthOfRunClear b currentBit numberToFind
      if currentLength ≥ numberToFind then return some currentBit
      findClearPass b numberToFind margin fuel ((currentBit + currentLength) % 2 ^ w)
    else return none

/-- `RtlFindClearBits`, with both passes over the bitmap. -/
def rtlFindClearBits (b : RtlBitmap w) (numberToFind hintIndex : Nat) : Option Nat := do
  if numberToFind > b.sizeOfBitMap then return maxIndex w
  let hintIndex := if hintIndex ≥ b.sizeOfBitMap then 0 else hintIndex
  -- The trivial request gets the hint rounded down to a byte.
  if numberToFind = 0 then return hintIndex / 8 * 8
  let fuel := b.sizeOfBitMap + 1
  match ← findClearPass b numberToFind b.sizeOfBitMap fuel hintIndex with
  | some position => return position
  | none =>
    if hintIndex = 0 then return maxIndex w
    let margin := min ((hintIndex + numberToFind) % 2 ^ w) b.sizeOfBitMap
    match ← findClearPass b numberToFind margin fuel 0 with
    | some position => return position
    | none => return maxIndex w

/-- The loop of `RtlFindSetBits`, where a run may end with the margin. -/
def findSetPass (b : RtlBitmap w) (numberToFind margin : Nat) : Nat → Nat → Option (Option Nat)
  | 0, _ => none
  | fuel + 1, currentBit =>
    if (currentBit + numberToFind) % 2 ^ w ≤ margin then do
      let clearRun ← rtlpGetLengthOfRunClear b currentBit (maxIndex w)
      let currentBit := (currentBit + clearRun) % 2 ^ w
      let currentLength ← rtlpGetLengthOfRunSet b currentBit numberToFind
      if currentLength ≥ numberToFind then return some currentBit
      findSetPass b numberToFind margin fuel ((currentBit + currentLength) % 2 ^ w)
    else return none

/-- What `RtlFindClearBits` and `RtlFindSetBits` do around their loop, `pass`. -/
def findBits (w : Nat) (pass : Nat → Nat → Nat → Option (Option Nat))
    (sizeOfBitMap numberToFind hintIndex : Nat) : Option Nat := do
  if numberToFind > sizeOfBitMap then return maxIndex w
  let hintIndex := if hintIndex ≥ sizeOfBitMap then 0 else hintIndex
  if numberToFind = 0 then return hintIndex / 8 * 8
  let fuel := sizeOfBitMap + 1
  match ← pass sizeOfBitMap fuel hintIndex with
  | some position => return position
  | none =>
    if hintIndex = 0 then return maxIndex w
    let margin := min ((hintIndex + numberToFind) % 2 ^ w) sizeOfBitMap
    match ← pass margin fuel 0 with
    | some position => return position
    | none => return maxIndex w

def rtlFindSetBits (b : RtlBitmap w) (numberToFind hintIndex : Nat) : Option Nat :=
  findBits w (findSetPass b numberToFind) b.sizeOfBitMap numberToFind hintIndex

/-- `RtlFindClearBitsAndSet`. -/
def rtlFindClearBitsAndSet (b : RtlBitmap w) (numberToFind hintIndex : Nat) :
    Option (Nat × RtlBitmap w) := do
  let position ← rtlFindClearBits b numberToFind hintIndex
  if position ≠ maxIndex w then return (position, ← rtlSetBits b position numberToFind)
  return (position, b)

/-- A run that a search reports: what it returns, and its `StartingIndex`. -/
structure FoundRun where
  numberOfBits : Nat
  startingIndex : Nat
  deriving DecidableEq, Repr

/-- `RtlFindNextForwardRunClear`. -/
def rtlFindNextForwardRunClear (b : RtlBitmap w) (fromIndex : Nat) : Option FoundRun := do
  if fromIndex ≥ b.sizeOfBitMap then return ⟨0, fromIndex⟩
  let length ← rtlpGetLengthOfRunSet b fromIndex (maxIndex w)
  let startingRunIndex := (fromIndex + length) % 2 ^ w
  return ⟨← rtlpGetLengthOfRunClear b startingRunIndex (maxIndex w), startingRunIndex⟩

/-- The loop of `RtlFindLongestRunClear`, with the longest run so far.  It advances by the length
    of the run that was found, and not past that run. -/
def longestRunLoop (b : RtlBitmap w) : Nat → Nat → FoundRun → Option FoundRun
  | 0, _, _ => none
  | fuel + 1, fromIndex, longest => do
    let run ← rtlFindNextForwardRunClear b fromIndex
    if run.numberOfBits = 0 then return longest
    let longest := if run.numberOfBits > longest.numberOfBits then run else longest
    longestRunLoop b fuel ((fromIndex + run.numberOfBits) % 2 ^ w) longest

/-- `RtlFindLongestRunClear`; `StartingIndex` keeps its value if there is no run. -/
def rtlFindLongestRunClear (b : RtlBitmap w) (startingIndex : Nat) : Option FoundRun :=
  longestRunLoop b (b.sizeOfBitMap + 1) 0 ⟨0, startingIndex⟩

/-! ## Section 2: The runs they measure -/

variable {n : Nat}

section Measure

variable [hw : BitCount w] {b : RtlBitmap w} {view : BitVec w → BitVec w} {r : Bool}

/-- A measured length: the bits of the run belong to the bitmap, and a length below the limit is
    that of the whole run. -/
structure Measured (b : RtlBitmap w) (r : Bool) (s n l : Nat) : Prop where
  inside : l = 0 ∨ s + l ≤ b.sizeOfBitMap
  run : b.Run s (s + l) r
  ended : l < n → s + l < b.sizeOfBitMap → bitAt b.buffer (s + l) ≠ r

theorem rtlpGetLengthOfRun_measured (cast : Nat)
    (hview : ∀ y j, j < w → (view y).getLsbD j = (y.getLsbD j != r))
    (hcast : b.sizeOfBitMap + w ≤ 2 ^ cast) (s : Nat) (hn : 0 < n) :
    ∃ l, rtlpGetLengthOfRun view cast b s n = some l ∧ Measured b r s n l := by
  by_cases hs : s < b.sizeOfBitMap
  · obtain ⟨l, hl, h⟩ := rtlpGetLengthOfRun_spec cast hview hs hn
    refine ⟨l, hl, ?_⟩
    rcases h with ⟨hlen, hrun⟩ | ⟨p, hp, hpw, hrun, hbit, hlen⟩
    · -- The limit or the end of the bitmap was reached.
      exact ⟨.inr (by omega), hrun, fun h1 h2 => by omega⟩
    obtain ⟨hidx, hmod⟩ := index_spec (w := w) p
    have hsucc : (p / w + 1) * w = p / w * w + w := Nat.succ_mul _ w
    rw [lengthUpTo_eq hp (scan_bound b.size_lt (by omega)) (by omega)] at hlen
    refine ⟨.inr (by omega), fun i h1 h2 => hrun i h1 (by omega), fun _ hlt => ?_⟩
    rw [show s + l = p by omega]
    exact hbit
  · refine ⟨0, ?_, .inl rfl, fun i h1 h2 => by omega, fun _ hlt => by omega⟩
    simp only [rtlpGetLengthOfRun, ge_iff_le, Nat.not_lt.1 hs, if_true, pure]

theorem rtlpGetLengthOfRunClear_measured (b : RtlBitmap w) (s : Nat) (hn : 0 < n) :
    ∃ l, rtlpGetLengthOfRunClear b s n = some l ∧ Measured b false s n l := by
  have hpos : 0 < w := bitCount_pos
  have hlt : b.sizeOfBitMap + w < 2 ^ w := scan_bound b.size_lt (by omega)
  exact rtlpGetLengthOfRun_measured w (fun y j _ => by simp) (Nat.le_of_lt hlt) s hn

theorem rtlpGetLengthOfRunSet_measured (hfits : b.sizeOfBitMap + w ≤ 2 ^ 32) (s : Nat)
    (hn : 0 < n) : ∃ l, rtlpGetLengthOfRunSet b s n = some l ∧ Measured b true s n l :=
  rtlpGetLengthOfRun_measured 32 getLsbD_complement hfits s hn

end Measure

/-! ## Section 3: What the searches find -/

section Search

variable [hw : BitCount w] {b : RtlBitmap w}
variable {s : Nat}

/-- `n` clear bits of the bitmap from `s` on. -/
def RtlBitmap.ClearRun (b : RtlBitmap w) (s n : Nat) : Prop :=
  s + n ≤ b.sizeOfBitMap ∧ b.Run s (s + n) false

include hw in
theorem maxIndex_pos : 0 < maxIndex w := by
  have hpos : 0 < w := bitCount_pos
  have hlt : w < 2 ^ w := Nat.lt_two_pow_self
  unfold maxIndex
  omega

include hw in
theorem size_lt_maxIndex (b : RtlBitmap w) : b.sizeOfBitMap < maxIndex w := by
  have hpos : 0 < w := bitCount_pos
  have hlt : b.sizeOfBitMap + 1 < 2 ^ w := scan_bound b.size_lt (by omega)
  unfold maxIndex
  omega

include hw in
/-- Two indices add up without a carry. -/
theorem index_add_mod (hs : s ≤ b.sizeOfBitMap) (hn : n ≤ b.sizeOfBitMap) :
    (s + n) % 2 ^ w = s + n := by
  have hpos : 0 < w := bitCount_pos
  have hle : b.sizeOfBitMap < 2 ^ (w - 1) := b.size_lt
  have hdouble : 2 ^ (w - 1) + 2 ^ (w - 1) = 2 ^ w := by
    rw [← Nat.two_mul, ← Nat.pow_succ', Nat.succ_eq_add_one, Nat.sub_add_cancel hpos]
  exact Nat.mod_eq_of_lt (by omega)

/-- One round of a search: the set bits from `s` on, and the clear bits that follow them. -/
structure Round (b : RtlBitmap w) (n s t l : Nat) : Prop where
  le : s ≤ t
  inside : t + l ≤ b.sizeOfBitMap
  skipped : b.Run s t true
  clear : b.Run t (t + l) false
  ended : l < n → t + l < b.sizeOfBitMap → bitAt b.buffer (t + l) = true
  progress : 0 < n → t < b.sizeOfBitMap → 0 < l

theorem round_spec (hfits : b.sizeOfBitMap + w ≤ 2 ^ 32) (hs : s < b.sizeOfBitMap) (hn : 0 < n) :
    ∃ k l, rtlpGetLengthOfRunSet b s (maxIndex w) = some k ∧ (s + k) % 2 ^ w = s + k ∧
      rtlpGetLengthOfRunClear b (s + k) n = some l ∧ Round b n s (s + k) l := by
  obtain ⟨k, hk, hset⟩ := rtlpGetLengthOfRunSet_measured hfits s (maxIndex_pos (w := w))
  have hsk := hset.inside
  have hmax : b.sizeOfBitMap < maxIndex w := size_lt_maxIndex b
  obtain ⟨l, hl, hclear⟩ := rtlpGetLengthOfRunClear_measured b (s + k) hn
  have hskl := hclear.inside
  refine ⟨k, l, hk, index_add_mod (b := b) hs.le (by omega), hl, by omega, by omega, hset.run,
    hclear.run, ?_, ?_⟩
  · intro hln hlt
    simpa using hclear.ended hln hlt
  -- The bit after the set ones is clear, so that it counts.
  intro _ hlt
  by_contra h0
  have h0 : l = 0 := by omega
  have hbit : bitAt b.buffer (s + k) ≠ true := hset.ended (by omega) hlt
  have hno : bitAt b.buffer (s + k + l) ≠ false := hclear.ended (by omega) (by omega)
  rw [h0, Nat.add_zero] at hno
  simp [hno] at hbit

omit hw in
theorem not_clearRun (hn : n > b.sizeOfBitMap) (a : Nat) : ¬ b.ClearRun a n := by
  intro hrun
  have hin := hrun.1
  omega

namespace Round

variable {t l a m : Nat}

omit hw in
theorem le_of_clear (h : Round b n s t l) (ha : s ≤ a) (hm : 0 < m) (hrun : b.ClearRun a m) :
    t ≤ a := by
  by_contra hlt
  have h1 := h.skipped a ha (by omega)
  have h2 := hrun.2 a (Nat.le_refl a) (by omega)
  simp [h1] at h2

omit hw in
/-- No clear run starts among the bits that a round has passed, unless it fits in the run that the
    round has found. -/
theorem passed (h : Round b n s t l) (hl : l < n) (hrun : b.ClearRun a m) :
    t + l < a ∨ a + m ≤ t + l := by
  by_cases hal : t + l < a
  · exact .inl hal
  refine .inr ?_
  -- A longer run would contain the set bit that ended the round.
  by_contra hgt
  have hin := hrun.1
  have h1 := h.ended hl (by omega)
  have h2 := hrun.2 (t + l) (by omega) (by omega)
  simp [h1] at h2

end Round

/-- One pass of `RtlFindClearBits`: what it finds is the first run, and what it can miss is a run
    that starts with the pass and ends with the margin. -/
theorem findClearPass_spec (hfits : b.sizeOfBitMap + w ≤ 2 ^ 32) {margin : Nat} (hn : 0 < n)
    (hnb : n ≤ b.sizeOfBitMap) (hmargin : margin ≤ b.sizeOfBitMap + 1) (fuel : Nat) :
    ∀ s, s ≤ b.sizeOfBitMap → b.sizeOfBitMap < s + fuel →
      ∃ res, findClearPass b n margin fuel s = some res ∧
        (∀ p, res = some p → s + n < margin ∧ IsLeast {a | s ≤ a ∧ b.ClearRun a n} p) ∧
        (res = none → ∀ a, s ≤ a → a + n ≤ margin → b.ClearRun a n → a = s ∧ s + n = margin) := by
  induction fuel with
  | zero =>
    intro s hs hfuel
    omega
  | succ fuel ih =>
    intro s hs hfuel
    have hwrap : (s + n) % 2 ^ w = s + n := index_add_mod hs hnb
    by_cases hlt : s + n < margin
    · obtain ⟨k, l, hk, hmod, hl, hround⟩ := round_spec hfits (show s < b.sizeOfBitMap by omega) hn
      have hin := hround.inside
      by_cases hlong : n ≤ l
      · refine ⟨some (s + k), ?_, ?_, fun h => by cases h⟩
        · simp only [findClearPass, hwrap, hlt, if_true, hk, hmod, hl, hlong, ge_iff_le, bind,
            bind_some, pure]
        · rintro _ ⟨⟩
          refine ⟨hlt, ⟨hround.le, by omega, fun i h1 h2 => hround.clear i h1 (by omega)⟩, ?_⟩
          exact fun a ha => hround.le_of_clear ha.1 hn ha.2
      have hmod' : (s + k + l) % 2 ^ w = s + k + l := index_add_mod (b := b) (by omega) (by omega)
      have hprog : s < s + k + l := by
        by_contra hstuck
        have := hround.progress hn (by omega)
        omega
      -- A run of `n` starts behind this round, and there only with a set bit.
      have hbehind : ∀ a, s ≤ a → b.ClearRun a n → s + k + l < a := by
        intro a ha hrun
        rcases hround.passed (by omega) hrun with hbehind | hfit
        · exact hbehind
        · have := hround.le_of_clear ha hn hrun
          omega
      obtain ⟨res, hres, hsome, hnone⟩ := ih (s + k + l) hin (by omega)
      refine ⟨res, ?_, fun p hp => ?_, fun h a ha hale hrun => ?_⟩
      · simp only [findClearPass, hwrap, hlt, if_true, hk, hmod, hl, hlong, ge_iff_le, if_false,
          hmod', hres, bind, bind_some]
      · grind
      · grind
    · refine ⟨none, ?_, fun p hp => (by cases hp), fun _ a ha hale _ => by omega⟩
      simp only [findClearPass, hwrap, hlt, if_false, pure]

/-- A hint outside of the bitmap counts as its first bit. -/
def hintWithin (size hint : Nat) : Nat := if hint ≥ size then 0 else hint

/-- The outcome of two passes over `size` bits from the hint `h` on, where a pass can miss a run
    that starts with it and ends `slack` bits behind its margin. -/
def TwoPasses (fits : Nat → Prop) (size n h slack nothing p : Nat) : Prop :=
  (IsLeast {a | h ≤ a ∧ fits a} p ∧ h + n < size + slack) ∨
  ((∀ a, h ≤ a → fits a → a = h ∧ h + n = size + slack) ∧
    ((h ≠ 0 ∧ IsLeast {a | fits a} p ∧ n < min (h + n) size + slack) ∨
     (p = nothing ∧
       (h = 0 ∨ ∀ a, a ≤ h → fits a → a = 0 ∧ n = min (h + n) size + slack))))

omit hw in
/-- What both passes miss without slack is the whole bitmap. -/
theorem whole_of_missed {fits : Nat → Prop} {size h a : Nat}
    (hmiss : ∀ a, h ≤ a → fits a → a = h ∧ h + n = size)
    (hnone : h = 0 ∨ ∀ a, a ≤ h → fits a → a = 0 ∧ n = min (h + n) size) (hrun : fits a) :
    n = size ∧ a = 0 := by
  grind

theorem findBits_spec (hfits : b.sizeOfBitMap + w ≤ 2 ^ 32) (hn : 0 < n) (hnb : n ≤ b.sizeOfBitMap)
    {slack : Nat} (hslack : slack ≤ 1) (hint : Nat) :
    ∃ p, findBits w (fun margin => findClearPass b n (margin + slack)) b.sizeOfBitMap n hint =
        some p ∧
      TwoPasses (b.ClearRun · n) b.sizeOfBitMap n (hintWithin b.sizeOfBitMap hint) slack
        (maxIndex w) p := by
  obtain ⟨h, hh⟩ : ∃ h, h = hintWithin b.sizeOfBitMap hint := ⟨_, rfl⟩
  have hle : h ≤ b.sizeOfBitMap := by
    rw [hh, hintWithin]
    split
    · exact Nat.zero_le _
    · omega
  have hwrap : (h + n) % 2 ^ w = h + n := index_add_mod hle hnb
  obtain ⟨res, hres, hsome, hnone⟩ := findClearPass_spec hfits hn hnb
    (show b.sizeOfBitMap + slack ≤ _ by omega) (b.sizeOfBitMap + 1) h hle (by omega)
  rw [← hh]
  rw [hintWithin] at hh
  simp only [findBits, Nat.not_lt.2 hnb, if_false, Nat.ne_of_gt hn, ← hh, hwrap, hres, bind, pure,
    bind_some]
  rcases res with _ | p
  · have hmiss : ∀ a, h ≤ a → b.ClearRun a n → a = h ∧ h + n = b.sizeOfBitMap + slack :=
      fun a ha hrun => hnone rfl a ha (by have := hrun.1; omega) hrun
    -- The second pass runs only when the hint was not 0.
    by_cases h0 : h = 0
    · exact ⟨maxIndex w, by simp only [h0, if_true], .inr ⟨hmiss, .inr ⟨rfl, .inl h0⟩⟩⟩
    obtain ⟨res, hres, hsome, hnone⟩ := findClearPass_spec hfits hn hnb
      (show min (h + n) b.sizeOfBitMap + slack ≤ _ by omega) (b.sizeOfBitMap + 1) 0
      (Nat.zero_le _) (by omega)
    simp only [h0, if_false, hres, bind_some]
    rcases res with _ | p
    · refine ⟨maxIndex w, rfl, .inr ⟨hmiss, .inr ⟨rfl, .inr fun a ha hrun => ?_⟩⟩⟩
      have hin := hrun.1
      simpa using hnone rfl a (Nat.zero_le a) (by omega) hrun
    · obtain ⟨hlt, hleast⟩ := hsome p rfl
      simp only [Nat.zero_le, true_and, Nat.zero_add] at hleast hlt
      exact ⟨p, rfl, .inr ⟨hmiss, .inl ⟨h0, hleast, hlt⟩⟩⟩
  · obtain ⟨hlt, hleast⟩ := hsome p rfl
    exact ⟨p, rfl, .inl ⟨hleast, hlt⟩⟩

omit hw in
theorem rtlFindClearBits_eq (b : RtlBitmap w) (n hint : Nat) : rtlFindClearBits b n hint =
    findBits w (fun margin => findClearPass b n (margin + 0)) b.sizeOfBitMap n hint := rfl

omit hw in
theorem findBits_large {pass : Nat → Nat → Nat → Option (Option Nat)} {size : Nat} (h : n > size)
    (hint : Nat) : findBits w pass size n hint = some (maxIndex w) := by
  simp only [findBits, h, if_true, pure]

section

variable (hfits : b.sizeOfBitMap + w ≤ 2 ^ 32) (hn : 0 < n) (hint : Nat)

include hfits hn hint

/-- `RtlFindClearBits` finds a run exactly when there is one and it is not the whole bitmap. -/
theorem rtlFindClearBits_spec : ∃ p, rtlFindClearBits b n hint = some p ∧
      ((p ≠ maxIndex w ∧ b.ClearRun p n ∧ n < b.sizeOfBitMap) ∨
       (p = maxIndex w ∧ ¬ (n < b.sizeOfBitMap ∧ ∃ a, b.ClearRun a n))) := by
  have hmax : b.sizeOfBitMap < maxIndex w := size_lt_maxIndex b
  rw [rtlFindClearBits_eq]
  by_cases hnb : n > b.sizeOfBitMap
  · exact ⟨maxIndex w, findBits_large hnb hint, .inr ⟨rfl, fun h => by omega⟩⟩
  obtain ⟨p, hp, h⟩ := findBits_spec hfits hn (Nat.not_lt.1 hnb) (Nat.zero_le 1) hint
  refine ⟨p, hp, ?_⟩
  generalize hintWithin b.sizeOfBitMap hint = start at h
  have hfound : b.ClearRun p n → n < b.sizeOfBitMap → p ≠ maxIndex w ∧ b.ClearRun p n ∧
      n < b.sizeOfBitMap := fun hrun hlt => ⟨by have := hrun.1; omega, hrun, hlt⟩
  rcases h with ⟨hleast, hlt⟩ | ⟨hmiss, ⟨-, hleast, hlt⟩ | ⟨hp, hnone⟩⟩
  · exact .inl (hfound hleast.1.2 (by omega))
  · exact .inl (hfound hleast.1 (by omega))
  · refine .inr ⟨hp, ?_⟩
    rintro ⟨hlt, a, ha⟩
    exact Nat.ne_of_lt hlt (whole_of_missed hmiss hnone ha).1

theorem rtlFindClearBitsAndSet_spec : ∃ p b', rtlFindClearBitsAndSet b n hint = some (p, b') ∧
      ((p ≠ maxIndex w ∧ b.ClearRun p n ∧ n < b.sizeOfBitMap ∧ Updated b b' p (p + n) true) ∨
       (p = maxIndex w ∧ b' = b ∧ ¬ (n < b.sizeOfBitMap ∧ ∃ a, b.ClearRun a n))) := by
  obtain ⟨p, hp, h⟩ := rtlFindClearBits_spec hfits hn hint
  rcases h with ⟨hne, hrun, hlt⟩ | ⟨heq, hno⟩
  · obtain ⟨b', hb', hu⟩ := rtlSetBits_spec b hrun.1
    refine ⟨p, b', ?_, .inl ⟨hne, hrun, hlt, hu⟩⟩
    simp only [rtlFindClearBitsAndSet, hp, bind, bind_some, ne_eq, hne, not_false_eq_true,
      if_true, hb', pure]
  · refine ⟨p, b, ?_, .inr ⟨heq, rfl, hno⟩⟩
    simp only [rtlFindClearBitsAndSet, hp, bind, bind_some, ne_eq, heq, not_true_eq_false,
      if_false, pure]

end

/-- `run` is the next run of clear bits from `s` on: every clear run from `s` on lies in it or
    behind it. -/
structure NextClear (b : RtlBitmap w) (s : Nat) (run : FoundRun) : Prop where
  le : s ≤ run.startingIndex
  clear : run.numberOfBits = 0 ∨ b.ClearRun run.startingIndex run.numberOfBits
  exhausted : run.numberOfBits = 0 → b.sizeOfBitMap ≤ run.startingIndex
  others : ∀ a m, s ≤ a → 0 < m → b.ClearRun a m →
    run.startingIndex + run.numberOfBits < a ∨ m ≤ run.numberOfBits

theorem rtlFindNextForwardRunClear_spec (hfits : b.sizeOfBitMap + w ≤ 2 ^ 32) (s : Nat) :
    ∃ run, rtlFindNextForwardRunClear b s = some run ∧ NextClear b s run ∧
      b.Run s run.startingIndex true := by
  by_cases hs : s < b.sizeOfBitMap
  · obtain ⟨k, l, hk, hmod, hl, hround⟩ := round_spec hfits hs (maxIndex_pos (w := w))
    refine ⟨⟨l, s + k⟩, ?_, ⟨hround.le, .inr ⟨hround.inside, hround.clear⟩, ?_, ?_⟩,
      hround.skipped⟩
    · simp only [rtlFindNextForwardRunClear, ge_iff_le, Nat.not_le.2 hs, if_false, hk, hmod, hl,
        bind, bind_some, pure]
    · intro h0
      show b.sizeOfBitMap ≤ s + k
      by_contra hlt
      have hl0 := hround.progress maxIndex_pos (by omega)
      exact absurd h0 (Nat.ne_of_gt hl0)
    · intro a m ha hm hrun
      have hmax : b.sizeOfBitMap < maxIndex w := size_lt_maxIndex b
      have hin := hround.inside
      rcases hround.passed (by omega) hrun with hbehind | hfit
      · exact .inl hbehind
      have hta := hround.le_of_clear ha hm hrun
      right
      show m ≤ l
      omega
  · refine ⟨⟨0, s⟩, ?_, ⟨Nat.le_refl s, .inl rfl, fun _ => Nat.not_lt.1 hs, ?_⟩,
      fun i h1 h2 => absurd h2 (Nat.not_lt.2 h1)⟩
    · simp only [rtlFindNextForwardRunClear, ge_iff_le, Nat.not_lt.1 hs, if_true, pure]
    · intro a m ha hm hrun
      have hin := hrun.1
      omega

/-- A run of clear bits that cannot be extended. -/
structure MaximalRun (b : RtlBitmap w) (run : FoundRun) : Prop where
  pos : 0 < run.numberOfBits
  clear : b.ClearRun run.startingIndex run.numberOfBits
  before : ∀ i, i + 1 = run.startingIndex → bitAt b.buffer i = true
  after : run.startingIndex + run.numberOfBits < b.sizeOfBitMap →
    bitAt b.buffer (run.startingIndex + run.numberOfBits) = true

omit hw in
/-- The run that is found next is maximal if the bit before it is set or passed over. -/
theorem NextClear.maximal {run : FoundRun} (h : NextClear b s run)
    (hskip : b.Run s run.startingIndex true) (h0 : run.numberOfBits ≠ 0)
    (hbefore : run.startingIndex = s → ∀ i, i + 1 = s → bitAt b.buffer i = true) :
    MaximalRun b run where
  pos := Nat.pos_of_ne_zero h0
  clear := h.clear.resolve_left h0
  before := fun i hi => by
    have hle := h.le
    by_cases hs : run.startingIndex = s
    · exact hbefore hs i (by omega)
    · exact hskip i (by omega) (by omega)
  after := fun hlt => by
    -- Otherwise the run would go on.
    by_contra hbit
    have hrun := (h.clear.resolve_left h0).2
    have hlonger : b.ClearRun run.startingIndex (run.numberOfBits + 1) := by
      refine ⟨by omega, fun i h1 h2 => ?_⟩
      by_cases hi : i < run.startingIndex + run.numberOfBits
      · exact hrun i h1 hi
      · rw [show i = run.startingIndex + run.numberOfBits by omega]
        simpa using hbit
    have hothers := h.others _ _ h.le (by omega) hlonger
    omega

/-- A place where no clear run is cut in two. -/
def Boundary (b : RtlBitmap w) (s : Nat) : Prop :=
  s < b.sizeOfBitMap → bitAt b.buffer s = false → ∀ i, i + 1 = s → bitAt b.buffer i = true

/-- The loop from the boundary `lo` on keeps a run at least as long as any that starts between it
    and the position. -/
theorem longestRunLoop_spec (hfits : b.sizeOfBitMap + w ≤ 2 ^ 32) {lo : Nat} (hlo : Boundary b lo)
    (fuel : Nat) : ∀ s longest, b.sizeOfBitMap < s + fuel → s ≤ b.sizeOfBitMap → lo ≤ s →
      (∀ a m, lo ≤ a → a < s → b.ClearRun a m → m ≤ longest.numberOfBits) →
      ∃ run, longestRunLoop b fuel s longest = some run ∧
        (run = longest ∨ MaximalRun b run ∧ lo ≤ run.startingIndex) ∧
        longest.numberOfBits ≤ run.numberOfBits ∧
        ∀ a m, lo ≤ a → b.ClearRun a m → m ≤ run.numberOfBits := by
  induction fuel with
  | zero =>
    intro s longest hfuel hs
    omega
  | succ fuel ih =>
    intro s longest hfuel hs hlos hmax
    obtain ⟨run, hrunEq, hnext, hskip⟩ := rtlFindNextForwardRunClear_spec hfits s
    by_cases h0 : run.numberOfBits = 0
    · refine ⟨longest, ?_, .inl rfl, Nat.le_refl _, fun a m ha ham => ?_⟩
      · simp only [longestRunLoop, hrunEq, bind, bind_some, h0, if_true, pure]
      have hend := hnext.exhausted h0
      have hin := ham.1
      by_cases has : a < s
      · exact hmax a m ha has ham
      by_contra hm
      have hothers := hnext.others a m (by omega) (by omega) ham
      omega
    have hclear : b.ClearRun run.startingIndex run.numberOfBits := hnext.clear.resolve_left h0
    have hbound := hclear.1
    have hle := hnext.le
    obtain ⟨longest', hlongest⟩ :
        ∃ longest', longest' = if run.numberOfBits > longest.numberOfBits then run else longest :=
      ⟨_, rfl⟩
    have hgrown : longest.numberOfBits ≤ longest'.numberOfBits ∧
        run.numberOfBits ≤ longest'.numberOfBits ∧
        (longest' = longest ∨ MaximalRun b longest' ∧ lo ≤ longest'.startingIndex) := by
      by_cases hlonger : run.numberOfBits > longest.numberOfBits
      · rw [hlongest, if_pos hlonger]
        refine ⟨Nat.le_of_lt hlonger, Nat.le_refl _, .inr ⟨?_, by omega⟩⟩
        refine hnext.maximal hskip h0 fun hstart i hi => ?_
        have hbit : bitAt b.buffer s = false := hclear.2 s (by omega) (by omega)
        by_cases hs' : s = lo
        · subst hs'
          exact hlo (by omega) hbit i hi
        -- The tail of a run is shorter than the run, which was seen before.
        by_contra hprev
        have htail : b.ClearRun i (run.numberOfBits + 1) := by
          refine ⟨by omega, fun j h1 h2 => ?_⟩
          by_cases hj : j = i
          · rw [hj]
            simpa using hprev
          · exact hclear.2 j (by omega) (by omega)
        have hseen := hmax i _ (by omega) (by omega) htail
        omega
      · rw [hlongest, if_neg hlonger]
        exact ⟨Nat.le_refl _, Nat.not_lt.1 hlonger, .inl rfl⟩
    obtain ⟨res, hres, hresRun, hresLe, hresMax⟩ := ih (s + run.numberOfBits) longest' (by omega)
      (by omega) (by omega) (fun a m ha hlt ham => by
        by_cases has : a < s
        · exact (hmax a m ha has ham).trans hgrown.1
        -- It starts before the end of the run that was found, hence within that run.
        by_contra hm
        have hothers := hnext.others a m (by omega) (by omega) ham
        omega)
    have hmod : (s + run.numberOfBits) % 2 ^ w = s + run.numberOfBits :=
      index_add_mod hs (by omega)
    refine ⟨res, ?_, ?_, hgrown.1.trans hresLe, hresMax⟩
    · simp only [longestRunLoop, hrunEq, bind, bind_some, h0, if_false, hmod, ← hlongest,
        hres]
    · rcases hresRun with rfl | hresRun
      · exact hgrown.2.2
      · exact .inr hresRun

theorem rtlFindLongestRunClear_spec (hfits : b.sizeOfBitMap + w ≤ 2 ^ 32) (startingIndex : Nat) :
    ∃ run, rtlFindLongestRunClear b startingIndex = some run ∧
      (run.numberOfBits = 0 ∨ b.ClearRun run.startingIndex run.numberOfBits) ∧
      ∀ a m, b.ClearRun a m → m ≤ run.numberOfBits := by
  obtain ⟨run, hrun, hfound, -, hmax⟩ := longestRunLoop_spec hfits (fun _ _ i hi => by omega)
    (b.sizeOfBitMap + 1) 0 ⟨0, startingIndex⟩ (by omega) (Nat.zero_le _) (Nat.zero_le 0)
    (fun a m _ ha => by omega)
  refine ⟨run, hrun, ?_, fun a m => hmax a m (Nat.zero_le a)⟩
  rcases hfound with rfl | ⟨hmaximal, -⟩
  · exact .inl rfl
  · exact .inr hmaximal.clear

end Search

/-! ## Section 4: Set bits -/

section SetBits

/-- `n` set bits of the bitmap from `s` on. -/
def RtlBitmap.SetRun (b : RtlBitmap w) (s n : Nat) : Prop :=
  s + n ≤ b.sizeOfBitMap ∧ b.Run s (s + n) true

variable {b : RtlBitmap w} {s : Nat}

namespace RtlBitmap

theorem complement_complement (b : RtlBitmap w) : b.complement.complement = b := by
  simp [complement, Function.comp_def]

theorem load_complement (k : Nat) : b.complement.load k = (b.load k).map (~~~·) := by
  simp [BitMapHeader.load, complement]

theorem clearRun_complement [hw : BitCount w] : b.complement.ClearRun s n ↔ b.SetRun s n := by
  refine and_congr_right fun hin => forall₃_congr fun i _ hi => ?_
  have hword : i / w < b.buffer.size := word_lt (Nat.lt_of_lt_of_le hi hin)
  have hmod : i % w < w := Nat.mod_lt i bitCount_pos
  simp [bitAt, complement, hword, hmod]

end RtlBitmap

theorem skipWords_complement (view : BitVec w → BitVec w) (n : Nat) :
    ∀ k x, skipWords view b.complement n k x = skipWords (fun y => view (~~~y)) b n k x := by
  induction n with
  | zero =>
    intro k x
    rfl
  | succ n ih =>
    intro k x
    simp only [skipWords, load_complement, ih, bind, bind_map, Function.comp_def]

theorem rtlpGetLengthOfRun_complement (view : BitVec w → BitVec w) (cast : Nat) (s n : Nat) :
    rtlpGetLengthOfRun view cast b.complement s n =
      rtlpGetLengthOfRun (fun y => view (~~~y)) cast b s n := by
  simp only [rtlpGetLengthOfRun, load_complement, skipWords_complement, bind, bind_map,
    Function.comp_def]
  rfl

theorem lengthOfRunSet_complement (b : RtlBitmap w) (s n : Nat) :
    rtlpGetLengthOfRunSet b.complement s n = rtlpGetLengthOfRun (fun y => y) 32 b s n := by
  simp only [rtlpGetLengthOfRunSet, rtlpGetLengthOfRun_complement, BitVec.not_not]

theorem lengthOfRunClear_complement (b : RtlBitmap 32) (s n : Nat) :
    rtlpGetLengthOfRunClear b.complement s n = rtlpGetLengthOfRunSet b s n :=
  rtlpGetLengthOfRun_complement _ 32 s n

/-- The loop for set bits is the one for clear bits, with its margin one bit further on. -/
theorem findSetPass_complement (b : RtlBitmap 32) (n margin fuel : Nat) :
    ∀ s, findSetPass b.complement n margin fuel s = findClearPass b n (margin + 1) fuel s := by
  induction fuel with
  | zero =>
    intro s
    rfl
  | succ fuel ih =>
    intro s
    simp only [findSetPass, findClearPass, lengthOfRunSet_complement, lengthOfRunClear_complement,
      ih, Nat.lt_succ_iff]
    rfl

/-- What a search for the first fit answers: the first place from the hint on, else the first
    place of all, else `nothing`. -/
def FirstFit (fits : Nat → Prop) (hint nothing p : Nat) : Prop :=
  IsLeast {a | hint ≤ a ∧ fits a} p ∨
    (∀ a, hint ≤ a → ¬ fits a) ∧ (IsLeast {a | fits a} p ∨ (∀ a, ¬ fits a) ∧ p = nothing)

theorem FirstFit.none {fits : Nat → Prop} {hint nothing : Nat} (hno : ∀ a, ¬ fits a) :
    FirstFit fits hint nothing nothing :=
  .inr ⟨fun a _ => hno a, .inr ⟨hno, rfl⟩⟩

theorem FirstFit.unique {fits : Nat → Prop} {hint nothing p q : Nat}
    (hp : FirstFit fits hint nothing p) (hq : FirstFit fits hint nothing q) : p = q := by
  rcases hp with hp | ⟨hp0, hp⟩
  · rcases hq with hq | ⟨hq0, -⟩
    · exact hp.unique hq
    · exact absurd hp.1.2 (hq0 p hp.1.1)
  rcases hq with hq | ⟨-, hq⟩
  · exact absurd hq.1.2 (hp0 q hq.1.1)
  rcases hp with hp | ⟨hp1, rfl⟩
  · rcases hq with hq | ⟨hq1, -⟩
    · exact hp.unique hq
    · exact absurd hp.1 (hq1 p)
  · rcases hq with hq | ⟨-, rfl⟩
    · exact absurd hq.1 (hp1 q)
    · rfl

/-- With a bit of slack, no run is missed. -/
theorem TwoPasses.firstFit {p h : Nat} (hnb : n ≤ b.sizeOfBitMap)
    (ht : TwoPasses (b.ClearRun · n) b.sizeOfBitMap n h 1 (maxIndex w) p) :
    FirstFit (b.ClearRun · n) h (maxIndex w) p := by
  rcases ht with ⟨hleast, -⟩ | ⟨hmiss, h2⟩
  · exact .inl hleast
  have hafter : ∀ a, h ≤ a → ¬ b.ClearRun a n := fun a ha hrun => by
    have hlast := hmiss a ha hrun
    have hin := hrun.1
    omega
  rcases h2 with ⟨-, hleast, -⟩ | ⟨hp, hnone⟩
  · exact .inr ⟨hafter, .inl hleast⟩
  refine .inr ⟨hafter, .inr ⟨fun a hrun => ?_, hp⟩⟩
  have hah : ¬ h ≤ a := fun hle => hafter a hle hrun
  rcases hnone with h0 | hnone
  · omega
  · have hfirst := hnone a (by omega) hrun
    omega

theorem sizeOfBitMap_fits (b : RtlBitmap 32) : b.sizeOfBitMap + 32 ≤ 2 ^ 32 := by
  have hlt : b.sizeOfBitMap < 2 ^ 31 := b.size_lt
  omega

theorem rtlFindSetBits_complement_spec (b : RtlBitmap 32) (hn : 0 < n) (hint : Nat) :
    ∃ p, rtlFindSetBits b.complement n hint = some p ∧
      FirstFit (b.ClearRun · n) (hintWithin b.sizeOfBitMap hint) (maxIndex 32) p := by
  have heq : rtlFindSetBits b.complement n hint =
      findBits 32 (fun margin => findClearPass b n (margin + 1)) b.sizeOfBitMap n hint := by
    unfold rtlFindSetBits
    congr 1
    funext margin fuel s
    exact findSetPass_complement b n margin fuel s
  rw [heq]
  by_cases hnb : n > b.sizeOfBitMap
  · have hno := not_clearRun hnb
    exact ⟨_, findBits_large hnb hint, .none hno⟩
  · obtain ⟨p, hp, ht⟩ :=
      findBits_spec (sizeOfBitMap_fits b) hn (Nat.not_lt.1 hnb) (Nat.le_refl 1) hint
    exact ⟨p, hp, ht.firstFit (Nat.not_lt.1 hnb)⟩

/-- `RtlFindSetBits` is a first-fit search from the hint itself on. -/
theorem rtlFindSetBits_firstFit (b : RtlBitmap 32) (hn : 0 < n) (hint : Nat) :
    ∃ p, rtlFindSetBits b n hint = some p ∧
      FirstFit (b.SetRun · n) (hintWithin b.sizeOfBitMap hint) 0xFFFFFFFF p := by
  have hspec := rtlFindSetBits_complement_spec b.complement hn hint
  simp only [complement_complement, clearRun_complement] at hspec
  exact hspec

/-- The first and the seventh bit of 16 are set. -/
def twoSetBits : RtlBitmap 32 :=
  ⟨⟨16, #[0x41], by decide, by decide⟩, by decide⟩

theorem rtlFindSetBits_firstFit_last : 0 < 1 ∧ ∃ p, rtlFindSetBits twoSetBits 1 9 = some p ∧
    FirstFit (twoSetBits.SetRun · 1) (hintWithin 16 9) 0xFFFFFFFF p :=
  ⟨by decide, rtlFindSetBits_firstFit twoSetBits (by decide) 9⟩

/-- The hint is not rounded down to a byte: the search from bit 5 passes over bit 0. -/
theorem rtlFindSetBits_not_rounded : rtlFindSetBits twoSetBits 1 5 = some 6 ∧
    ¬ FirstFit (twoSetBits.SetRun · 1) (5 / 8 * 8) 0xFFFFFFFF 6 := by
  have hrun : twoSetBits.SetRun 0 1 := ⟨by decide, fun i h₁ h₂ => by
    obtain rfl : i = 0 := by omega
    decide⟩
  refine ⟨by decide +kernel, ?_⟩
  rintro (hleast | ⟨hno, -⟩)
  · exact absurd (hleast.2 ⟨Nat.le_refl 0, hrun⟩) (by decide)
  · exact hno 0 (Nat.le_refl 0) hrun

/-- `RtlFindClearBits` is the search for set bits on the complement, unless all of the bitmap is
    asked for and clear, or the bits from the hint to the end are what was asked for and there is
    another place before them. -/
theorem rtlFindClearBits_eq_iff (b : RtlBitmap 32) (hn : 0 < n) (hint : Nat) :
    rtlFindClearBits b n hint = rtlFindSetBits b.complement n hint ↔
      ¬ (n = b.sizeOfBitMap ∧ b.ClearRun 0 n) ∧
      ¬ (hintWithin b.sizeOfBitMap hint + n = b.sizeOfBitMap ∧
        b.ClearRun (hintWithin b.sizeOfBitMap hint) n ∧
        ∃ a, a < hintWithin b.sizeOfBitMap hint ∧ b.ClearRun a n) := by
  obtain ⟨q, hq, hfit⟩ := rtlFindSetBits_complement_spec b hn hint
  rw [hq, rtlFindClearBits_eq]
  by_cases hnb : n > b.sizeOfBitMap
  · have hno := not_clearRun hnb
    have hmax : q = maxIndex 32 := hfit.unique (.none hno)
    rw [findBits_large hnb, hmax]
    exact ⟨fun _ => ⟨fun h => hno _ h.2, fun h => hno _ h.2.1⟩, fun _ => rfl⟩
  obtain ⟨p, hp, ht⟩ :=
    findBits_spec (sizeOfBitMap_fits b) hn (Nat.not_lt.1 hnb) (Nat.zero_le 1) hint
  rw [hp, Option.some_inj]
  generalize hintWithin b.sizeOfBitMap hint = h at ht hfit
  rcases ht with ⟨hleast, hlt⟩ | ⟨hmiss, ⟨h0, hleast, hlt⟩ | ⟨rfl, hnone⟩⟩
  · -- The first pass has found a run, and it is the one of both.
    have hpq : p = q := FirstFit.unique (.inl hleast) hfit
    exact ⟨fun _ => ⟨by omega, by omega⟩, fun _ => hpq⟩
  · by_cases hlast : b.ClearRun h n
    · -- The run from the hint to the end was missed, and the second pass finds the first run.
      have hend := (hmiss h (Nat.le_refl h) hlast).2
      have hqh : h = q := FirstFit.unique (.inl ⟨⟨Nat.le_refl h, hlast⟩, fun a ha => ha.1⟩) hfit
      have hph : p ≤ h := hleast.2 hlast
      rw [← hqh]
      constructor
      · rintro rfl
        exact ⟨by omega, fun ⟨_, _, a, ha, hrun⟩ => absurd (hleast.2 hrun) (Nat.not_le.2 ha)⟩
      · rintro ⟨-, hno⟩
        by_contra hne
        exact hno ⟨by omega, hlast, p, by omega, hleast.1⟩
    · have hafter : ∀ a, h ≤ a → ¬ b.ClearRun a n := fun a ha hrun =>
        hlast ((hmiss a ha hrun).1 ▸ hrun)
      have hpq : p = q := FirstFit.unique (.inr ⟨hafter, .inl hleast⟩) hfit
      exact ⟨fun _ => ⟨by omega, fun hr => hlast hr.2.1⟩, fun _ => hpq⟩
  · by_cases hsome : ∃ a, b.ClearRun a n
    · -- Both passes have missed the whole bitmap, which is the answer of the other search.
      obtain ⟨a, hrun⟩ := hsome
      obtain ⟨hn', rfl⟩ := whole_of_missed hmiss hnone hrun
      have hmax := size_lt_maxIndex b
      have hqfit : b.ClearRun q n := by
        rcases hfit with hq | ⟨-, hq | ⟨hno, -⟩⟩
        · exact hq.1.2
        · exact hq.1
        · exact absurd hrun (hno 0)
      have hqin := hqfit.1
      exact ⟨fun heq => by omega, fun hno => absurd ⟨hn', hrun⟩ hno.1⟩
    · have hno : ∀ a, ¬ b.ClearRun a n := fun a hrun => hsome ⟨a, hrun⟩
      have hpq := FirstFit.unique (.none hno) hfit
      exact ⟨fun _ => ⟨fun hr => hno _ hr.2, fun hr => hno _ hr.2.1⟩, fun _ => hpq⟩

/-- Eight clear bits. -/
def freeByte : RtlBitmap 32 :=
  ⟨⟨8, #[0], by decide, by decide⟩, by decide⟩

theorem rtlFindClearBits_eq_half : 0 < 4 ∧
    rtlFindClearBits freeByte 4 2 = rtlFindSetBits freeByte.complement 4 2 :=
  ⟨by decide, (rtlFindClearBits_eq_iff freeByte (by decide) 2).2
    ⟨fun h => absurd h.1 (by decide), fun h => absurd h.1 (by decide)⟩⟩

/-- Eight clear bits are not found in a bitmap of eight clear bits. -/
theorem rtlFindClearBits_whole : rtlFindClearBits freeByte 8 0 = some 0xFFFFFFFF ∧
    rtlFindSetBits freeByte.complement 8 0 = some 0 := by
  decide +kernel

end SetBits

end Rtl
