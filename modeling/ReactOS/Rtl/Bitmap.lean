import Mathlib.Data.Nat.Count
import ReactOS.Lib.BitWords

/-! # Bitmaps

    `RTL_BITMAP` and `RTL_BITMAP64` (`sdk/lib/rtl/bitmap.c`, `bitmap64.c`).  One source is compiled
    for words of 32 and of 64 bits; the model is one text over the word size `w` (`_BITCOUNT`), and
    the places where the C text names a type of its own keep it: the literal `1` of `RtlClearBit`
    is an `int`, and a cast in `RtlpGetLengthOfRunSet` is to `ULONG`.

    A bitmap stands for the finite set of its set indices.  The updates are specified by the bits
    they paint, the queries by the runs they measure. -/

namespace Rtl

open BitWords Option BitVec Finset

/-- The word sizes that the source is compiled for. -/
class BitCount (w : Nat) : Prop where
  cases : w = 32 ∨ w = 64

instance : BitCount 32 := ⟨.inl rfl⟩

instance : BitCount 64 := ⟨.inr rfl⟩

/-- `RTL_BITMAP`.  The buffer holds all bits of the bitmap, and perhaps more. -/
structure BitMapHeader (w : Nat) where
  sizeOfBitMap : Nat
  buffer : Array (BitVec w)
  fits : sizeOfBitMap < 2 ^ w
  covered : sizeOfBitMap ≤ w * buffer.size
  deriving DecidableEq

/-- A bitmap of less than half the bits that can be counted, so that an index stays a number of
    `w` bits where a scan adds a word or a count to it.  With `2 ^ 31` bits and more, a search of
    a 32-bit bitmap can wrap around and go on for ever; a bitmap of `2 ^ 63` bits would take a
    buffer of `2 ^ 60` bytes, more than there are addresses. -/
structure RtlBitmap (w : Nat) extends BitMapHeader w where
  size_lt : sizeOfBitMap < 2 ^ (w - 1)
  deriving DecidableEq

variable {w : Nat}

/-- `*Buffer`, with the pointer as an index of words. -/
def BitMapHeader.load (b : BitMapHeader w) (buffer : Nat) : Option (BitVec w) := b.buffer[buffer]?

namespace RtlBitmap

/-- The set that the bitmap stands for. -/
def indices (b : RtlBitmap w) : Finset Nat := setBelow b.buffer b.sizeOfBitMap

/-- `*Buffer = Value`. -/
def store (b : RtlBitmap w) (buffer : Nat) (value : BitVec w) : Option (RtlBitmap w) :=
  if h : buffer < b.buffer.size then
    some { b with buffer := b.buffer.set buffer value, covered := by simpa using b.covered }
  else none

/-- The byte at `(PUCHAR)Buffer + i`; the words are stored with their low byte first. -/
def loadByte (b : RtlBitmap w) (i : Nat) : Option (BitVec 8) :=
  (b.load (i / (w / 8))).map fun value => value.extractLsb' (8 * (i % (w / 8))) 8

/-- The bitmap with all bits of its buffer turned over. -/
def complement (b : RtlBitmap w) : RtlBitmap w :=
  { b with
    buffer := b.buffer.map (~~~·)
    covered := by rw [Array.size_map]; exact b.covered }

end RtlBitmap

/-! ## Section 1: The routines -/

/-- `1 << n` for the `int` literal `1`: the sign bit can be reached, a shift by more is undefined. -/
def intOneShiftLeft (n : Nat) : Option (BitVec 32) := if n < 32 then some (1#32 <<< n) else none

def rtlSetBit (b : RtlBitmap w) (bitNumber : Nat) : Option (RtlBitmap w) := do
  let value ← b.load (bitNumber / w)
  b.store (bitNumber / w) (value ||| 1#w <<< (bitNumber &&& (w - 1)))

/-- `RtlClearBit`.  The complement of the `int` is widened to the word with its sign. -/
def rtlClearBit (b : RtlBitmap w) (bitNumber : Nat) : Option (RtlBitmap w) := do
  let value ← b.load (bitNumber / w)
  let bit ← intOneShiftLeft (bitNumber &&& (w - 1))
  b.store (bitNumber / w) (value &&& (~~~bit).signExtend w)

def fillWords (b : RtlBitmap w) (buffer : Nat) (pattern : BitVec w) : Nat → Option (RtlBitmap w)
  | 0 => some b
  | n + 1 => do fillWords (← b.store buffer pattern) (buffer + 1) pattern n

/-- `RtlFillMemoryUlong` and `RtlFillMemoryUlonglong`, with the length in bytes. -/
def rtlFillMemoryUlong (b : RtlBitmap w) (buffer length : Nat) (pattern : BitVec w) :
    Option (RtlBitmap w) :=
  fillWords b buffer pattern (length / (w / 8))

section Runs

variable (first last : BitVec w → BitVec w → BitVec w) (pattern : BitVec w)

/-- The second half of `RtlSetBits` and `RtlClearBits`, where the run starts with a word. -/
def writeWords (b : RtlBitmap w) (buffer number : Nat) : Option (RtlBitmap w) := do
  let b ← rtlFillMemoryUlong b buffer (number >>> 3) pattern
  let buffer := buffer + number / w
  let number := number &&& (w - 1)
  if number ≠ 0 then
    let mask := BitVec.allOnes w <<< number
    b.store buffer (last (← b.load buffer) mask)
  else some b

/-- `RtlSetBits` and `RtlClearBits`, which differ in what they do with the masks. -/
def writeBits (b : RtlBitmap w) (startingIndex number : Nat) : Option (RtlBitmap w) := do
  let buffer := startingIndex / w
  let bits := startingIndex &&& (w - 1)
  if bits ≠ 0 then
    let mask := BitVec.allOnes w <<< bits
    let bits := w - bits
    if number < bits then
      -- The run ends in the word it starts in.
      let bits := bits - number
      let mask := mask <<< bits >>> bits
      b.store buffer (first (← b.load buffer) mask)
    else
      let b ← b.store buffer (first (← b.load buffer) mask)
      writeWords last pattern b (buffer + 1) (number - bits)
  else writeWords last pattern b buffer number

end Runs

def rtlSetBits (b : RtlBitmap w) (startingIndex numberToSet : Nat) : Option (RtlBitmap w) :=
  writeBits (fun x mask => x ||| mask) (fun x mask => x ||| ~~~mask) (BitVec.allOnes w) b
    startingIndex numberToSet

def rtlClearBits (b : RtlBitmap w) (startingIndex numberToClear : Nat) : Option (RtlBitmap w) :=
  writeBits (fun x mask => x &&& ~~~mask) (fun x mask => x &&& mask) 0#w b
    startingIndex numberToClear

/-- `BitScanForward`: the lowest set bit. -/
def bitScanForward (value : BitVec w) : Nat :=
  ((List.range w).find? fun i => value.getLsbD i).getD 0

section Length

variable (view : BitVec w → BitVec w) (cast : Nat)

/-- `while (Value == 0 && Buffer < MaxBuffer) Value = *Buffer++`, with `MaxBuffer - Buffer` words
    to go. -/
def skipWords (b : RtlBitmap w) : Nat → Nat → BitVec w → Option (Nat × BitVec w)
  | 0, buffer, value => some (buffer, value)
  | n + 1, buffer, value =>
    if value = 0#w then do skipWords b n (buffer + 1) (view (← b.load buffer))
    else some (buffer, value)

/-- `(Buffer - BitMapHeader->Buffer) * _BITCOUNT - StartingIndex` and what is added to it, with
    the number of words read and their size multiplied in `cast` bits. -/
def lengthUpTo (startingIndex buffer bitPos : Nat) : Nat :=
  let length := (buffer % 2 ^ cast * w % 2 ^ cast + 2 ^ w - startingIndex) % 2 ^ w
  (length + (2 ^ w + bitPos - w) % 2 ^ w) % 2 ^ w

/-- `RtlpGetLengthOfRunClear` and `RtlpGetLengthOfRunSet`.  `view` turns a word into the word of
    the bits that end the run. -/
def rtlpGetLengthOfRun (b : RtlBitmap w) (startingIndex maxLength : Nat) : Option Nat := do
  if startingIndex ≥ b.sizeOfBitMap then return 0
  let buffer := startingIndex / w
  let bitPos := startingIndex &&& (w - 1)
  let maxLength := min maxLength (b.sizeOfBitMap - startingIndex)
  let maxBuffer := buffer + (bitPos + maxLength + w - 1) % 2 ^ w / w
  let value := view (← b.load buffer) >>> bitPos <<< bitPos
  let (buffer, value) ← skipWords view b (maxBuffer - (buffer + 1)) (buffer + 1) value
  if value = 0#w then return maxLength
  let length := lengthUpTo (w := w) cast startingIndex buffer (bitScanForward value)
  if length > b.sizeOfBitMap - startingIndex then return b.sizeOfBitMap - startingIndex
  return length

end Length

def rtlpGetLengthOfRunClear (b : RtlBitmap w) (startingIndex maxLength : Nat) : Option Nat :=
  rtlpGetLengthOfRun (fun value => value) w b startingIndex maxLength

def rtlpGetLengthOfRunSet (b : RtlBitmap w) (startingIndex maxLength : Nat) : Option Nat :=
  rtlpGetLengthOfRun (fun value => ~~~value) 32 b startingIndex maxLength

/-- `RtlAreBitsClear` and `RtlAreBitsSet`, which differ in the run they measure. -/
def areBits (lengthOfRun : RtlBitmap w → Nat → Nat → Option Nat) (b : RtlBitmap w)
    (startingIndex length : Nat) : Option Bool := do
  let stop := (startingIndex + length) % 2 ^ w
  if stop > b.sizeOfBitMap ∨ stop ≤ startingIndex then return false
  return decide ((← lengthOfRun b startingIndex length) ≥ length)

def rtlAreBitsClear (b : RtlBitmap w) (startingIndex length : Nat) : Option Bool :=
  areBits rtlpGetLengthOfRunClear b startingIndex length

def rtlAreBitsSet (b : RtlBitmap w) (startingIndex length : Nat) : Option Bool :=
  areBits rtlpGetLengthOfRunSet b startingIndex length

/-- Number of set bits per byte value. -/
def bitCountTable : Array Nat := #[
  0, 1, 1, 2, 1, 2, 2, 3, 1, 2, 2, 3, 2, 3, 3, 4,
  1, 2, 2, 3, 2, 3, 3, 4, 2, 3, 3, 4, 3, 4, 4, 5,
  1, 2, 2, 3, 2, 3, 3, 4, 2, 3, 3, 4, 3, 4, 4, 5,
  2, 3, 3, 4, 3, 4, 4, 5, 3, 4, 4, 5, 4, 5, 5, 6,
  1, 2, 2, 3, 2, 3, 3, 4, 2, 3, 3, 4, 3, 4, 4, 5,
  2, 3, 3, 4, 3, 4, 4, 5, 3, 4, 4, 5, 4, 5, 5, 6,
  2, 3, 3, 4, 3, 4, 4, 5, 3, 4, 4, 5, 4, 5, 5, 6,
  3, 4, 4, 5, 4, 5, 5, 6, 4, 5, 5, 6, 5, 6, 6, 7,
  1, 2, 2, 3, 2, 3, 3, 4, 2, 3, 3, 4, 3, 4, 4, 5,
  2, 3, 3, 4, 3, 4, 4, 5, 3, 4, 4, 5, 4, 5, 5, 6,
  2, 3, 3, 4, 3, 4, 4, 5, 3, 4, 4, 5, 4, 5, 5, 6,
  3, 4, 4, 5, 4, 5, 5, 6, 4, 5, 5, 6, 5, 6, 6, 7,
  2, 3, 3, 4, 3, 4, 4, 5, 3, 4, 4, 5, 4, 5, 5, 6,
  3, 4, 4, 5, 4, 5, 5, 6, 4, 5, 5, 6, 5, 6, 6, 7,
  3, 4, 4, 5, 4, 5, 5, 6, 4, 5, 5, 6, 5, 6, 6, 7,
  4, 5, 5, 6, 5, 6, 6, 7, 5, 6, 6, 7, 6, 7, 7, 8]

/-- `BitCountTable[Byte]`. -/
def bitsOfByte (byte : BitVec 8) : Nat := bitCountTable.getD byte.toNat 0

/-- `while (Byte < MaxByte) BitCount += BitCountTable[*Byte++]`, with `n` bytes to go. -/
def countBytes (b : RtlBitmap w) : Nat → Nat → Nat → Option Nat
  | 0, _, bitCount => some bitCount
  | n + 1, byte, bitCount => do
    let value ← b.loadByte byte
    countBytes b n (byte + 1) ((bitCount + bitsOfByte value) % 2 ^ w)

def rtlNumberOfSetBits (b : RtlBitmap w) : Option Nat := do
  let bitCount ← countBytes b (b.sizeOfBitMap / 8) 0 0
  if b.sizeOfBitMap &&& 7 ≠ 0 then
    let shift := 8 - (b.sizeOfBitMap &&& 7)
    let value ← b.loadByte (b.sizeOfBitMap / 8)
    return (bitCount + bitsOfByte (value <<< shift)) % 2 ^ w
  return bitCount

/-! ## Section 2: What the updates paint -/

variable {b b' : RtlBitmap w} {i lo hi s n : Nat} {v : Bool}

section Updates

variable [hw : BitCount w]

include hw in
theorem bitCount_pos : 0 < w := by
  rcases hw.cases with rfl | rfl
  · decide
  · decide

include hw in
/-- An index names a word and a bit of it. -/
theorem index_spec (n : Nat) : n = n / w * w + n % w ∧ n % w < w :=
  ⟨index_eq w n, Nat.mod_lt n bitCount_pos⟩

include hw in
theorem and_mask (n : Nat) : n &&& (w - 1) = n % w := by
  rcases hw.cases with rfl | rfl
  · exact Nat.and_two_pow_sub_one_eq_mod n 5
  · exact Nat.and_two_pow_sub_one_eq_mod n 6

namespace RtlBitmap

omit hw in
theorem load_eq {b : BitMapHeader w} {k : Nat} (hk : k < b.buffer.size) :
    b.load k = some (b.buffer.getD k 0) := by
  simp [BitMapHeader.load, hk]

omit hw in
theorem word_lt {b : BitMapHeader w} (hi : i < b.sizeOfBitMap) : i / w < b.buffer.size := by
  have hc := b.covered
  exact Nat.div_lt_of_lt_mul (by omega)

omit hw in
theorem lt_size {ws : Array (BitVec w)} {k : Nat} (hk : k * w < w * ws.size) : k < ws.size := by
  rw [Nat.mul_comm] at hk
  exact Nat.lt_of_mul_lt_mul_left hk

/-- `b'` is `b` with the bits from `lo` up to `hi` painted with `v`. -/
structure Updated (b b' : RtlBitmap w) (lo hi : Nat) (v : Bool) : Prop where
  size : b'.sizeOfBitMap = b.sizeOfBitMap
  painted : Painted b.buffer b'.buffer lo hi v

omit hw in
theorem Updated.trans {b'' : RtlBitmap w} {mid : Nat} (h1 : Updated b b' lo mid v)
    (h2 : Updated b' b'' mid hi v) (hlo : lo ≤ mid) (hhi : mid ≤ hi) : Updated b b'' lo hi v :=
  ⟨h2.size.trans h1.size, h1.painted.trans h2.painted hlo hhi⟩

omit hw in
/-- One store, judged by the bits of the word that is written. -/
theorem store_spec {k : Nat} (lo hi : Nat) {x : BitVec w}
    (hk : k < b.buffer.size) (hhi : hi ≤ w) (hin : ∀ j, lo ≤ j → j < hi → x.getLsbD j = v)
    (hout : ∀ j, j < w → j < lo ∨ hi ≤ j → x.getLsbD j = (b.buffer.getD k 0).getLsbD j) :
    ∃ b', b.store k x = some b' ∧ Updated b b' (k * w + lo) (k * w + hi) v := by
  rw [store, dif_pos hk]
  exact ⟨_, rfl, rfl, Painted.of_set hk hhi hin hout⟩

end RtlBitmap

open RtlBitmap

omit hw in
theorem fillWords_spec {pattern : BitVec w} (hp : ∀ j, j < w → pattern.getLsbD j = v)
    (n : Nat) : ∀ (b : RtlBitmap w) (k : Nat), k + n ≤ b.buffer.size →
      ∃ b', fillWords b k pattern n = some b' ∧ Updated b b' (k * w) ((k + n) * w) v := by
  induction n with
  | zero =>
    intro b k _
    exact ⟨b, rfl, rfl, Painted.refl _ _ _⟩
  | succ n ih =>
    intro b k hk
    obtain ⟨b1, hb1, hu1⟩ := store_spec 0 w (b := b) (k := k) (x := pattern)
      (v := v) (by omega) (Nat.le_refl w) (fun j _ hj => hp j hj) (fun j hj h => by omega)
    have hsize := hu1.painted.size
    obtain ⟨b2, hb2, hu2⟩ := ih b1 (k + 1) (by omega)
    refine ⟨b2, ?_, ?_⟩
    · simp [fillWords, hb1, hb2]
    have hmid : (k + 1) * w = k * w + w := Nat.succ_mul k w
    have hend : (k + 1 + n) * w = (k + (n + 1)) * w := by
      congr 1
      omega
    rw [hmid, hend] at hu2
    refine Updated.trans hu1 hu2 (Nat.le_add_right _ _) ?_
    rw [← hmid]
    exact Nat.mul_le_mul_right w (by omega)

/-- The three word operations of `writeBits` paint with `v`. -/
structure Paints (first last : BitVec w → BitVec w → BitVec w) (pattern : BitVec w) (v : Bool) :
    Prop where
  first : ∀ x mask j, j < w →
    (first x mask).getLsbD j = if mask.getLsbD j then v else x.getLsbD j
  last : ∀ x mask j, j < w →
    (last x mask).getLsbD j = if mask.getLsbD j then x.getLsbD j else v
  pattern : ∀ j, j < w → pattern.getLsbD j = v

variable {first last : BitVec w → BitVec w → BitVec w} {pattern : BitVec w} {v : Bool}

include hw in
theorem shiftRight_bytes (n : Nat) : (n >>> 3) / (w / 8) = n / w := by
  rw [Nat.shiftRight_eq_div_pow, Nat.div_div_eq_div_mul]
  congr 1
  rcases hw.cases with rfl | rfl
  · rfl
  · rfl

theorem writeWords_spec (hp : Paints first last pattern v) (b : RtlBitmap w) (k n : Nat)
    (hn : k * w + n ≤ w * b.buffer.size) :
    ∃ b', writeWords last pattern b k n = some b' ∧ Updated b b' (k * w) (k * w + n) v := by
  have hpos : 0 < w := bitCount_pos
  -- The whole words, and then what is left in the last one.
  obtain ⟨hsplit, hmod⟩ := index_spec (w := w) n
  have hmul : (k + n / w) * w = k * w + n / w * w := Nat.add_mul k (n / w) w
  have hle : k + n / w ≤ b.buffer.size := by
    refine Nat.le_of_mul_le_mul_right (c := w) ?_ hpos
    rw [hmul, Nat.mul_comm b.buffer.size w]
    omega
  obtain ⟨b1, hb1, hu1⟩ := fillWords_spec hp.pattern (n / w) b k hle
  rw [hmul] at hu1
  by_cases hrest : n % w = 0
  · refine ⟨b1, ?_, ?_⟩
    · simp [writeWords, rtlFillMemoryUlong, shiftRight_bytes, and_mask, hb1, hrest]
    · have hend : k * w + n / w * w = k * w + n := by omega
      rw [hend] at hu1
      exact hu1
  have hsize := hu1.painted.size
  have hlt : k + n / w < b1.buffer.size := by
    apply lt_size
    rw [hsize, hmul]
    omega
  obtain ⟨b2, hb2, hu2⟩ := store_spec 0 (n % w) (b := b1) (v := v)
    (x := last (b1.buffer.getD (k + n / w) 0) (allOnes w <<< (n % w))) hlt
    (Nat.le_of_lt hmod)
    (fun j _ hj => by
      rw [hp.last _ _ j (by omega), getLsbD_upper _ _ (by omega)]
      simp [Nat.not_le.2 hj])
    (fun j hj h => by
      rw [hp.last _ _ j hj, getLsbD_upper _ _ hj]
      simp [show n % w ≤ j by omega])
  refine ⟨b2, ?_, ?_⟩
  · simp only [writeWords, rtlFillMemoryUlong, shiftRight_bytes, and_mask, hb1, bind,
      bind_some, ne_eq, hrest, not_false_eq_true, if_true, load_eq hlt, hb2]
  · have hend : (k + n / w) * w + n % w = k * w + n := by omega
    rw [hend, Nat.add_zero, hmul] at hu2
    exact Updated.trans hu1 hu2 (by omega) (by omega)

theorem writeBits_spec (hp : Paints first last pattern v) (b : RtlBitmap w) (s n : Nat)
    (hn : s + n ≤ w * b.buffer.size) :
    ∃ b', writeBits first last pattern b s n = some b' ∧ Updated b b' s (s + n) v := by
  obtain ⟨hs, hmod⟩ := index_spec (w := w) s
  by_cases hbits : s % w = 0
  · obtain ⟨b', hb', hu⟩ := writeWords_spec hp b (s / w) n (by omega)
    rw [show s / w * w = s by omega] at hu
    exact ⟨b', by simp [writeBits, and_mask, hbits, hb'], hu⟩
  have hlt : s / w < b.buffer.size := lt_size (by omega)
  -- The run ends inside its first word, or fills that word to the top and goes on.
  by_cases hshort : n < w - s % w
  · obtain ⟨b', hb', hu⟩ := store_spec (s % w) (s % w + n) (b := b) (v := v)
      (x := first (b.buffer.getD (s / w) 0)
        (allOnes w <<< (s % w) <<< (w - s % w - n) >>> (w - s % w - n))) hlt (by omega)
      (fun j hj hj' => by
        rw [hp.first _ _ j (by omega), getLsbD_middle _ _ _ (by omega)]
        simp [show s % w ≤ j ∧ j + (w - s % w - n) < w by omega])
      (fun j hj h => by
        rw [hp.first _ _ j hj, getLsbD_middle _ _ _ hj]
        simp [show ¬ (s % w ≤ j ∧ j + (w - s % w - n) < w) by omega])
    rw [← hs, ← Nat.add_assoc, ← hs] at hu
    refine ⟨b', ?_, hu⟩
    simp only [writeBits, and_mask, ne_eq, hbits, not_false_eq_true, if_true, hshort, load_eq hlt,
      bind, bind_some, hb']
  · obtain ⟨b1, hb1, hu1⟩ := store_spec (s % w) w (b := b) (v := v)
      (x := first (b.buffer.getD (s / w) 0) (allOnes w <<< (s % w))) hlt (Nat.le_refl w)
      (fun j hj hj' => by
        rw [hp.first _ _ j hj', getLsbD_upper _ _ hj']
        simp [hj])
      (fun j hj h => by
        rw [hp.first _ _ j hj, getLsbD_upper _ _ hj]
        simp [show ¬ s % w ≤ j by omega])
    have hmid : (s / w + 1) * w = s / w * w + w := Nat.succ_mul _ w
    have hsize := hu1.painted.size
    obtain ⟨b2, hb2, hu2⟩ := writeWords_spec hp b1 (s / w + 1) (n - (w - s % w)) (by
      rw [hsize]
      omega)
    rw [← hs] at hu1
    rw [hmid, show s / w * w + w + (n - (w - s % w)) = s + n by omega] at hu2
    refine ⟨b2, ?_, Updated.trans hu1 hu2 (by omega) (by omega)⟩
    simp only [writeBits, and_mask, ne_eq, hbits, not_false_eq_true, if_true, hshort, if_false,
      load_eq hlt, bind, bind_some, hb1, hb2]

omit hw in
theorem paints_set :
    Paints (fun x mask : BitVec w => x ||| mask) (fun x mask => x ||| ~~~mask) (allOnes w)
      true where
  first := fun x mask j _ => by
    rw [getLsbD_or]
    cases mask.getLsbD j <;> simp
  last := fun x mask j hj => by
    rw [getLsbD_or, getLsbD_not]
    cases mask.getLsbD j <;> simp [hj]
  pattern := fun j hj => by simp [hj]

omit hw in
theorem paints_clear :
    Paints (fun x mask : BitVec w => x &&& ~~~mask) (fun x mask => x &&& mask) 0#w false where
  first := fun x mask j hj => by
    rw [getLsbD_and, getLsbD_not]
    cases mask.getLsbD j <;> simp [hj]
  last := fun x mask j _ => by
    rw [getLsbD_and]
    cases mask.getLsbD j <;> simp
  pattern := fun j _ => getLsbD_zero

theorem rtlSetBits_spec (b : RtlBitmap w) (hn : s + n ≤ b.sizeOfBitMap) :
    ∃ b', rtlSetBits b s n = some b' ∧ Updated b b' s (s + n) true :=
  writeBits_spec paints_set b s n (hn.trans b.covered)

theorem rtlClearBits_spec (b : RtlBitmap w) (hn : s + n ≤ b.sizeOfBitMap) :
    ∃ b', rtlClearBits b s n = some b' ∧ Updated b b' s (s + n) false :=
  writeBits_spec paints_clear b s n (hn.trans b.covered)

theorem store_bit_spec {x : BitVec w} (hi : i < b.sizeOfBitMap) (hx : ∀ j, j < w →
      x.getLsbD j = if j = i % w then v else (b.buffer.getD (i / w) 0).getLsbD j) :
    ∃ b', b.store (i / w) x = some b' ∧ Updated b b' i (i + 1) v := by
  have hmod : i % w < w := Nat.mod_lt i bitCount_pos
  obtain ⟨b', hb', hu⟩ := store_spec (i % w) (i % w + 1) (v := v) (word_lt hi)
    (by omega)
    (fun j hj hj' => by rw [hx j (by omega), if_pos (by omega)])
    (fun j hj h => by rw [hx j hj, if_neg (by omega)])
  rw [← Nat.add_assoc, ← index_eq w i] at hu
  exact ⟨b', hb', hu⟩

theorem rtlSetBit_spec (b : RtlBitmap w) (hi : i < b.sizeOfBitMap) :
    ∃ b', rtlSetBit b i = some b' ∧ Updated b b' i (i + 1) true := by
  obtain ⟨b', hb', hu⟩ := store_bit_spec (v := true) hi
    (x := b.buffer.getD (i / w) 0 ||| 1#w <<< (i % w)) (fun j hj => by
      rw [getLsbD_or, ← twoPow_eq, getLsbD_twoPow]
      by_cases h : j = i % w
      · simp [h, Nat.mod_lt i bitCount_pos]
      · simp [h, Ne.symm h])
  exact ⟨b', by simp only [rtlSetBit, and_mask, load_eq (word_lt hi), bind, bind_some, hb'],
    hu⟩

omit hw in
/-- The mask of `RtlClearBit`.  With the sign bit as the shifted one, all of the upper half of a
    wider word is cleared with it. -/
theorem getLsbD_clearMask {t j : Nat} (ht : t < 32) (hj : j < w) :
    ((~~~(1#32 <<< t)).signExtend w).getLsbD j = !(decide (j = t) || decide (t = 31 ∧ 32 ≤ j)) := by
  rw [getLsbD_signExtend, ← twoPow_eq, msb_eq_getLsbD_last]
  simp only [getLsbD_not, getLsbD_twoPow]
  grind

theorem rtlClearBit_spec (b : RtlBitmap w) (hi : i < b.sizeOfBitMap) (ht : w = 32 ∨ i % w < 31) :
    ∃ b', rtlClearBit b i = some b' ∧ Updated b b' i (i + 1) false := by
  have hmod : i % w < w := Nat.mod_lt i bitCount_pos
  obtain ⟨b', hb', hu⟩ := store_bit_spec (v := false) hi
    (x := b.buffer.getD (i / w) 0 &&& (~~~(1#32 <<< (i % w))).signExtend w) (fun j hj => by
      rw [getLsbD_and, getLsbD_clearMask (by omega) hj]
      by_cases h : j = i % w
      · simp [h]
      · simp only [h, decide_false, Bool.false_or, if_false]
        have hno : ¬ (i % w = 31 ∧ 32 ≤ j) := by omega
        simp [hno])
  refine ⟨b', ?_, hu⟩
  simp only [rtlClearBit, and_mask, load_eq (word_lt hi), bind, bind_some,
    intOneShiftLeft, if_pos (show i % w < 32 by omega), hb']

end Updates

/-! ## Section 3: Lengths of runs -/

/-- The bits from `lo` up to `hi` all have the value `r`. -/
def BitMapHeader.Run (b : BitMapHeader w) (lo hi : Nat) (r : Bool) : Prop :=
  ∀ i, lo ≤ i → i < hi → bitAt b.buffer i = r

theorem bitScanForward_spec {value : BitVec w} (h : value ≠ 0#w) :
    bitScanForward value < w ∧ value.getLsbD (bitScanForward value) = true ∧
      ∀ j, j < bitScanForward value → value.getLsbD j = false := by
  rcases hfind : (List.range w).find? (fun i => value.getLsbD i) with _ | i
  · exfalso
    apply h
    apply eq_of_getLsbD_eq
    intro j hj
    have hnone := List.find?_eq_none.1 hfind j (List.mem_range.2 hj)
    simpa using hnone
  obtain ⟨hi, hlt, hfirst⟩ := List.find?_range_eq_some.1 hfind
  have hscan : bitScanForward value = i := by simp [bitScanForward, hfind]
  rw [hscan]
  refine ⟨List.mem_range.1 hlt, hi, fun j hj => ?_⟩
  have hno := hfirst j hj
  simpa using hno

open RtlBitmap

section Lengths

variable {b : RtlBitmap w} {view : BitVec w → BitVec w} {r : Bool} {s : Nat}

/-- The scan for the end of a run of `r` that starts at `s`, with word `k` read last: `x` has the
    bits of that word that end the run. -/
structure Reading (b : RtlBitmap w) (r : Bool) (s k : Nat) (x : BitVec w) : Prop where
  run : b.Run s (k * w) r
  bits : ∀ j, j < w →
    x.getLsbD j = (decide (s ≤ k * w + j) && (bitAt b.buffer (k * w + j) != r))

namespace Reading

variable {k : Nat} {x : BitVec w}

/-- A word without an end of the run belongs to it. -/
theorem run_next (h : Reading b r s k x) (hx : x = 0#w) : b.Run s (k * w + w) r := by
  intro i hi hlt
  by_cases hk : i < k * w
  · exact h.run i hi hk
  · have hbit := h.bits (i - k * w) (by omega)
    rw [show k * w + (i - k * w) = i by omega, hx] at hbit
    simpa [hi] using hbit

theorem next (h : Reading b r s k x) (hx : x = 0#w) (hs : s ≤ k * w + w)
    (hview : ∀ y j, j < w → (view y).getLsbD j = (y.getLsbD j != r)) :
    Reading b r s (k + 1) (view (b.buffer.getD (k + 1) 0)) where
  run := by
    rw [Nat.succ_mul]
    exact h.run_next hx
  bits := fun j hj => by
    have hle : s ≤ (k + 1) * w + j := by
      rw [Nat.succ_mul]
      omega
    rw [hview _ j hj, bitAt_word _ _ _ hj]
    simp [hle]

/-- The lowest bit of the word that was read last is the end of the run. -/
theorem first (h : Reading b r s k x) (hx : x ≠ 0#w) :
    s ≤ k * w + bitScanForward x ∧ b.Run s (k * w + bitScanForward x) r ∧
      bitAt b.buffer (k * w + bitScanForward x) ≠ r := by
  obtain ⟨hlt, hset, hclear⟩ := bitScanForward_spec hx
  have hbit := h.bits _ hlt
  rw [hset] at hbit
  have hend : s ≤ k * w + bitScanForward x ∧ bitAt b.buffer (k * w + bitScanForward x) ≠ r := by
    simpa using hbit.symm
  refine ⟨hend.1, fun i hi hlt' => ?_, hend.2⟩
  by_cases hk : i < k * w
  · exact h.run i hi hk
  · have hno := h.bits (i - k * w) (by omega)
    rw [show k * w + (i - k * w) = i by omega, hclear _ (by omega)] at hno
    simpa [hi] using hno

end Reading

theorem skipWords_spec (hview : ∀ y j, j < w → (view y).getLsbD j = (y.getLsbD j != r)) (n : Nat) :
    ∀ (k : Nat) (x : BitVec w), Reading b r s k x → s ≤ k * w + w → k + 1 + n ≤ b.buffer.size →
      ∃ k' x', skipWords view b n (k + 1) x = some (k' + 1, x') ∧ Reading b r s k' x' ∧ k ≤ k' ∧
        k' ≤ k + n ∧ (x' = 0#w → k' = k + n) := by
  induction n with
  | zero =>
    intro k x h _ _
    exact ⟨k, x, rfl, h, Nat.le_refl k, Nat.le_refl k, fun _ => rfl⟩
  | succ n ih =>
    intro k x h hs hn
    by_cases hx : x = 0#w
    · have hs' : s ≤ (k + 1) * w + w := by
        rw [Nat.succ_mul]
        omega
      obtain ⟨k', x', hskip, hread, hk, hk', hend⟩ :=
        ih (k + 1) _ (h.next hx hs hview) hs' (by omega)
      refine ⟨k', x', ?_, hread, by omega, by omega, fun h0 => ?_⟩
      · simp only [skipWords, hx, if_true, load_eq (show k + 1 < b.buffer.size by omega), bind,
          bind_some, hskip]
      · rw [hend h0]
        omega
    · exact ⟨k, x, by simp [skipWords, hx], h, Nat.le_refl k, by omega, fun h0 => absurd h0 hx⟩

variable [hw : BitCount w]

include hw in
/-- The counts that a scan adds up stay within an index. -/
theorem scan_bound {size : Nat} (hsize : size < 2 ^ (w - 1)) (hn : n < size + 2 * w) :
    n < 2 ^ w := by
  rcases hw.cases with rfl | rfl
  · omega
  · omega

/-- The bits of a bitmap's run and the length that the scan computes: either no bit of the words
    that were read ends the run, or the length is computed from the first that does. -/
theorem rtlpGetLengthOfRun_spec (cast : Nat)
    (hview : ∀ y j, j < w → (view y).getLsbD j = (y.getLsbD j != r)) {maxLength : Nat}
    (hs : s < b.sizeOfBitMap) (hmax : 0 < maxLength) :
    ∃ l, rtlpGetLengthOfRun view cast b s maxLength = some l ∧
      ((l = min maxLength (b.sizeOfBitMap - s) ∧ b.Run s (s + l) r) ∨
       ∃ p, s ≤ p ∧ p / w * w < s + min maxLength (b.sizeOfBitMap - s) ∧ b.Run s p r ∧
        bitAt b.buffer p ≠ r ∧
        l = min (lengthUpTo (w := w) cast s (p / w + 1) (p % w)) (b.sizeOfBitMap - s)) := by
  have hpos : 0 < w := bitCount_pos
  have hc := b.covered
  obtain ⟨hsw, hmod⟩ := index_spec (w := w) s
  obtain ⟨m, hm⟩ : ∃ m, m = min maxLength (b.sizeOfBitMap - s) := ⟨_, rfl⟩
  -- The words to read after the first.
  obtain ⟨n, hn⟩ : ∃ n, n = (s % w + m - 1) / w := ⟨_, rfl⟩
  have hnw : n * w ≤ s % w + m - 1 ∧ s % w + m - 1 < n * w + w := (div_eq_iff hpos).1 hn.symm
  have hwords : s / w + (s % w + m + w - 1) % 2 ^ w / w - (s / w + 1) = n := by
    rw [Nat.mod_eq_of_lt (scan_bound b.size_lt (by omega)),
      show s % w + m + w - 1 = s % w + m - 1 + w by omega, Nat.add_div_right _ hpos, ← hn]
    omega
  have hlast : s / w + n < b.buffer.size := by
    apply lt_size
    rw [Nat.add_mul]
    omega
  -- The first word, without the bits below the run.
  have hread : Reading b r s (s / w) (view (b.buffer.getD (s / w) 0) >>> (s % w) <<< (s % w)) := by
    refine ⟨fun i h1 h2 => by omega, fun j hj => ?_⟩
    rw [getLsbD_shift_out _ _ _ hj, hview _ j hj, bitAt_word _ _ _ hj, Bool.and_comm]
    have hiff : s % w ≤ j ↔ s ≤ s / w * w + j := by omega
    simp only [hiff]
  obtain ⟨k, x, hskip, hreadk, hk, hk', hend⟩ :=
    skipWords_spec hview n (s / w) _ hread (by omega) (by omega)
  by_cases hx : x = 0#w
  · refine ⟨m, ?_, .inl ⟨hm, fun i h1 h2 => hreadk.run_next hx i h1 ?_⟩⟩
    · simp only [rtlpGetLengthOfRun, Nat.not_le.2 hs, if_false, and_mask, ← hm, hwords,
        load_eq (word_lt hs), bind, bind_some, hskip, hx, if_true, pure]
    · rw [hend hx, Nat.add_mul]
      omega
  obtain ⟨hp, hrun, hbit⟩ := hreadk.first hx
  obtain ⟨hlt, -, -⟩ := bitScanForward_spec hx
  obtain ⟨p, hpdef⟩ : ∃ p, p = k * w + bitScanForward x := ⟨_, rfl⟩
  rw [← hpdef] at hp hrun hbit
  have hdiv : p / w = k := (div_eq_iff hpos).2 (by omega)
  have hmodp : p % w = bitScanForward x := by
    have hidx := index_eq w p
    rw [hdiv] at hidx
    omega
  have hkw : k * w ≤ (s / w + n) * w := Nat.mul_le_mul_right w hk'
  refine ⟨_, ?_, .inr ⟨p, hp, ?_, hrun, hbit, rfl⟩⟩
  · simp only [rtlpGetLengthOfRun, Nat.not_le.2 hs, if_false, and_mask, ← hm, hwords,
      load_eq (word_lt hs), bind, bind_some, hskip, hx, pure, hdiv, hmodp]
    split
    · rw [Nat.min_eq_right (by omega)]
    · rw [Nat.min_eq_left (by omega)]
  · rw [hdiv, ← hm]
    rw [Nat.add_mul] at hkw
    omega

include hw in
/-- Without a carry out of `cast` bits, the length is the distance. -/
theorem lengthUpTo_eq {cast p : Nat} (hp : s ≤ p) (hlt : p + w < 2 ^ w)
    (hcast : (p / w + 1) * w < 2 ^ cast) :
    lengthUpTo (w := w) cast s (p / w + 1) (p % w) = p - s := by
  have hpos : 0 < w := bitCount_pos
  obtain ⟨hidx, hmod⟩ := index_spec (w := w) p
  have hsucc : (p / w + 1) * w = p / w * w + w := Nat.succ_mul _ w
  have hword : p / w + 1 < 2 ^ cast := by
    refine Nat.lt_of_le_of_lt ?_ hcast
    exact Nat.le_mul_of_pos_right _ hpos
  rw [lengthUpTo, Nat.mod_eq_of_lt hword, Nat.mod_eq_of_lt hcast, hsucc]
  -- The two differences wrap, and their sum wraps back.
  have h1 : (p / w * w + w + 2 ^ w - s) % 2 ^ w = (p / w * w + w - s) := by
    rw [show p / w * w + w + 2 ^ w - s = p / w * w + w - s + 2 ^ w by omega, Nat.add_mod_right,
      Nat.mod_eq_of_lt (by omega)]
  have h2 : (2 ^ w + p % w - w) % 2 ^ w = 2 ^ w + p % w - w := Nat.mod_eq_of_lt (by omega)
  rw [h1, h2, show p / w * w + w - s + (2 ^ w + p % w - w) = p - s + 2 ^ w by omega,
    Nat.add_mod_right, Nat.mod_eq_of_lt (by omega)]

/-- A run that is measured without a carry is long enough exactly when its bits are. -/
theorem length_iff_run (cast : Nat)
    (hview : ∀ y j, j < w → (view y).getLsbD j = (y.getLsbD j != r)) (hn : 0 < n)
    (hsn : s + n ≤ b.sizeOfBitMap) (hcast : ∀ p, p / w * w < s + n → (p / w + 1) * w < 2 ^ cast) :
    ∃ l, rtlpGetLengthOfRun view cast b s n = some l ∧ (n ≤ l ↔ b.Run s (s + n) r) := by
  obtain ⟨l, hl, h⟩ := rtlpGetLengthOfRun_spec cast hview (show s < b.sizeOfBitMap by omega) hn
  refine ⟨l, hl, ?_⟩
  have hmin : min n (b.sizeOfBitMap - s) = n := by omega
  rw [hmin] at h
  rcases h with ⟨rfl, hrun⟩ | ⟨p, hp, hpw, hrun, hbit, hlen⟩
  · simp [hrun]
  obtain ⟨hidx, hmod⟩ := index_spec (w := w) p
  rw [lengthUpTo_eq hp (scan_bound b.size_lt (by omega)) (hcast p hpw)] at hlen
  constructor
  · intro hle i h1 h2
    exact hrun i h1 (by omega)
  · intro hall
    by_contra hlt
    exact hbit (hall p hp (by omega))

omit hw in
/-- The parameter checks of `RtlAreBitsClear` and `RtlAreBitsSet` also catch a sum that wraps. -/
theorem areBits_spec {lengthOfRun : RtlBitmap w → Nat → Nat → Option Nat}
    (hs : s < 2 ^ w) (hn : n < 2 ^ w)
    (hlen : 0 < n → s + n ≤ b.sizeOfBitMap →
      ∃ l, lengthOfRun b s n = some l ∧ (n ≤ l ↔ b.Run s (s + n) r)) :
    ∃ a, areBits lengthOfRun b s n = some a ∧
      (a = true ↔ 0 < n ∧ s + n ≤ b.sizeOfBitMap ∧ b.Run s (s + n) r) := by
  have hsize := b.fits
  by_cases hok : 0 < n ∧ s + n ≤ b.sizeOfBitMap
  · obtain ⟨l, hl, hiff⟩ := hlen hok.1 hok.2
    have hstop : (s + n) % 2 ^ w = s + n := Nat.mod_eq_of_lt (by omega)
    have hno : ¬ (s + n > b.sizeOfBitMap ∨ s + n ≤ s) := by omega
    refine ⟨decide (n ≤ l), ?_, ?_⟩
    · simp only [areBits, hstop, if_neg hno, bind, hl, bind_some, pure, ge_iff_le]
    · simp [hiff, hok]
  have hstop : (s + n) % 2 ^ w > b.sizeOfBitMap ∨ (s + n) % 2 ^ w ≤ s := by
    by_cases hwrap : s + n < 2 ^ w
    · rw [Nat.mod_eq_of_lt hwrap]
      omega
    · rw [Nat.mod_eq_sub_mod (by omega), Nat.mod_eq_of_lt (by omega)]
      omega
  refine ⟨false, ?_, ?_⟩
  · simp only [areBits, if_pos hstop, pure]
  · constructor
    · intro h
      cases h
    · intro h
      exact absurd ⟨h.1, h.2.1⟩ hok

theorem rtlAreBitsClear_spec (b : RtlBitmap w) (hs : s < 2 ^ w) (hn : n < 2 ^ w) :
    ∃ a, rtlAreBitsClear b s n = some a ∧
      (a = true ↔ 0 < n ∧ s + n ≤ b.sizeOfBitMap ∧ b.Run s (s + n) false) := by
  refine areBits_spec hs hn fun h0 hsn => ?_
  refine length_iff_run w (fun y j _ => by simp) h0 hsn fun p hp => ?_
  rw [Nat.succ_mul]
  exact scan_bound b.size_lt (by omega)

omit hw in
theorem getLsbD_complement (y : BitVec w) (j : Nat) (hj : j < w) :
    (~~~y).getLsbD j = (y.getLsbD j != true) := by
  simp [hj]

/-- What `RtlpGetLengthOfRunSet` returns when it is asked for a run of `n` inside the bitmap. -/
theorem rtlpGetLengthOfRunSet_spec (b : RtlBitmap w) (h0 : 0 < n) (hsn : s + n ≤ b.sizeOfBitMap) :
    ∃ l, rtlpGetLengthOfRunSet b s n = some l ∧
      ((l = n ∧ b.Run s (s + l) true) ∨
       ∃ p, s ≤ p ∧ p / w * w < s + n ∧ b.Run s p true ∧ bitAt b.buffer p ≠ true ∧
        l = min (lengthUpTo (w := w) 32 s (p / w + 1) (p % w)) (b.sizeOfBitMap - s)) := by
  have hs : s < b.sizeOfBitMap := by omega
  have hmin : min n (b.sizeOfBitMap - s) = n := by omega
  have hspec := rtlpGetLengthOfRun_spec (b := b) 32 getLsbD_complement hs h0
  rw [hmin] at hspec
  exact hspec

/-- The product in `RtlpGetLengthOfRunSet` is one of `ULONG`s, so that the query is right as long
    as the words that are read end below `2 ^ 32`. -/
theorem rtlAreBitsSet_spec (b : RtlBitmap w) (hs : s < 2 ^ w) (hn : n < 2 ^ w)
    (hfits : 0 < n → s + n ≤ b.sizeOfBitMap → s + n + w ≤ 2 ^ 32) :
    ∃ a, rtlAreBitsSet b s n = some a ∧
      (a = true ↔ 0 < n ∧ s + n ≤ b.sizeOfBitMap ∧ b.Run s (s + n) true) := by
  refine areBits_spec hs hn fun h0 hsn => ?_
  refine length_iff_run 32 getLsbD_complement h0 hsn fun p hp => ?_
  rw [Nat.succ_mul]
  omega

end Lengths

/-! ## Section 4: Counting -/

section Counting

theorem count_congr {p q : Nat → Prop} [DecidablePred p] [DecidablePred q]
    (h : ∀ j, j < n → (p j ↔ q j)) : Nat.count p n = Nat.count q n :=
  Nat.le_antisymm (Nat.count_mono_left fun j hj => (h j hj).1)
    (Nat.count_mono_left fun j hj => (h j hj).2)

theorem bitsOfByte_eq (byte : BitVec 8) :
    bitsOfByte byte = Nat.count (fun j => byte.getLsbD j = true) 8 := by
  revert byte
  decide +kernel

variable [hw : BitCount w] {b : RtlBitmap w}

theorem loadByte_spec (hi : 8 * i < b.sizeOfBitMap) : ∃ byte, b.loadByte i = some byte ∧
      ∀ j, j < 8 → byte.getLsbD j = bitAt b.buffer (8 * i + j) := by
  -- The bytes of a word are its bits, eight by eight.
  have hword : ∀ j, j < 8 → (8 * i + j) / w = i / (w / 8) ∧
      (8 * i + j) % w = 8 * (i % (w / 8)) + j := by
    intro j hj
    rcases hw.cases with rfl | rfl
    · omega
    · omega
  have hlt : i / (w / 8) < b.buffer.size := by
    rw [← (hword 0 (by omega)).1]
    exact word_lt hi
  refine ⟨_, by rw [loadByte, load_eq hlt, map_some], fun j hj => ?_⟩
  obtain ⟨hdiv, hmod⟩ := hword j hj
  rw [getLsbD_extractLsb', bitAt, hdiv, hmod]
  simp [hj]

omit hw in
/-- `Nat.count` over the bits of a byte of the buffer. -/
theorem count_byte {byte : BitVec 8}
    (hbyte : ∀ j, j < 8 → byte.getLsbD j = bitAt b.buffer (8 * i + j)) (hn : n ≤ 8) :
    Nat.count (fun j => byte.getLsbD j = true) n =
      Nat.count (fun j => bitAt b.buffer (8 * i + j) = true) n := by
  apply count_congr
  intro j hj
  rw [hbyte j (by omega)]

theorem count_lt (hn : n ≤ b.sizeOfBitMap) :
    Nat.count (fun j => bitAt b.buffer j = true) n < 2 ^ w := by
  have hpos : 0 < w := bitCount_pos
  have hle : Nat.count (fun j => bitAt b.buffer j = true) n ≤ n := Nat.count_le _
  exact scan_bound b.size_lt (by omega)

theorem countBytes_spec (n : Nat) : ∀ i, 8 * (i + n) ≤ b.sizeOfBitMap →
    countBytes b n i (Nat.count (fun j => bitAt b.buffer j = true) (8 * i)) =
      some (Nat.count (fun j => bitAt b.buffer j = true) (8 * (i + n))) := by
  induction n with
  | zero =>
    intro i _
    rfl
  | succ n ih =>
    intro i hi
    obtain ⟨byte, hbyte, hbits⟩ := loadByte_spec (b := b) (i := i) (by omega)
    have hcount : Nat.count (fun j => bitAt b.buffer j = true) (8 * i) + bitsOfByte byte =
        Nat.count (fun j => bitAt b.buffer j = true) (8 * (i + 1)) := by
      rw [bitsOfByte_eq, count_byte hbits (Nat.le_refl 8), Nat.mul_succ, Nat.count_add]
    have hlt : Nat.count (fun j => bitAt b.buffer j = true) (8 * (i + 1)) < 2 ^ w :=
      count_lt (by omega)
    have hrest := ih (i + 1) (by omega)
    rw [show i + 1 + n = i + (n + 1) by omega] at hrest
    simp only [countBytes, hbyte, bind, bind_some, hcount, Nat.mod_eq_of_lt hlt, hrest]

/-- The byte shifted to the left has the bits that belong to the bitmap, and no others. -/
theorem count_shiftLeft (byte : BitVec 8) (hn : n ≤ 8) :
    Nat.count (fun j => (byte <<< (8 - n)).getLsbD j = true) 8 =
      Nat.count (fun j => byte.getLsbD j = true) n := by
  have hlow : Nat.count (fun j => (byte <<< (8 - n)).getLsbD j = true) (8 - n) = 0 := by
    rw [Nat.count_iff_forall_not]
    intro j hj
    simp [getLsbD_shiftLeft, hj]
  have hsplit := Nat.count_add (fun j => (byte <<< (8 - n)).getLsbD j = true) (8 - n) n
  rw [Nat.sub_add_cancel hn, hlow, Nat.zero_add] at hsplit
  rw [hsplit]
  apply count_congr
  intro j hj
  have hj8 : 8 - n + j < 8 := by omega
  simp only [getLsbD_shiftLeft, hj8, decide_true, Bool.true_and,
    Nat.not_lt.2 (Nat.le_add_right _ _), decide_false, Bool.not_false, Nat.add_sub_cancel_left]

theorem rtlNumberOfSetBits_spec (b : RtlBitmap w) : rtlNumberOfSetBits b = some b.indices.card := by
  have hcard : b.indices.card = Nat.count (fun j => bitAt b.buffer j = true) b.sizeOfBitMap :=
    (Nat.count_eq_card_filter_range _ _).symm
  have hbytes := countBytes_spec (b := b) (b.sizeOfBitMap / 8) 0 (by omega)
  rw [Nat.zero_add, Nat.mul_zero, Nat.count_zero] at hbytes
  have hmask : b.sizeOfBitMap &&& 7 = b.sizeOfBitMap % 8 :=
    Nat.and_two_pow_sub_one_eq_mod b.sizeOfBitMap 3
  by_cases hrest : b.sizeOfBitMap % 8 = 0
  · rw [show 8 * (b.sizeOfBitMap / 8) = b.sizeOfBitMap by omega] at hbytes
    simp only [rtlNumberOfSetBits, hbytes, bind, bind_some, hmask, hrest, ne_eq,
      not_true_eq_false, if_false, pure, hcard]
  -- What is left of the last byte is counted with the rest shifted out.
  obtain ⟨byte, hbyte, hbits⟩ := loadByte_spec (b := b) (i := b.sizeOfBitMap / 8) (by omega)
  have hcount : Nat.count (fun j => bitAt b.buffer j = true) (8 * (b.sizeOfBitMap / 8)) +
      bitsOfByte (byte <<< (8 - b.sizeOfBitMap % 8)) =
      Nat.count (fun j => bitAt b.buffer j = true) b.sizeOfBitMap := by
    rw [bitsOfByte_eq, count_shiftLeft byte (by omega), count_byte hbits (by omega),
      ← Nat.count_add, Nat.div_add_mod]
  simp only [rtlNumberOfSetBits, hbytes, bind, bind_some, hmask, hrest, ne_eq,
    not_false_eq_true, if_true, hbyte, pure, hcount, Nat.mod_eq_of_lt (count_lt (Nat.le_refl _)),
    hcard]

end Counting

/-! ## Section 5: The finite set -/

/-- The calls on a bitmap. -/
inductive BitmapCall where
  | setBit (bitNumber : Nat)
  | clearBit (bitNumber : Nat)
  | setBits (startingIndex numberToSet : Nat)
  | clearBits (startingIndex numberToClear : Nat)
  | areBitsSet (startingIndex length : Nat)
  | areBitsClear (startingIndex length : Nat)
  | numberOfSetBits
  deriving DecidableEq, Repr

/-- What a call returns. -/
inductive BitmapAnswer where
  | done
  | truth (answer : Bool)
  | number (n : Nat)
  deriving DecidableEq, Repr

namespace BitmapCall

/-- The arguments that a call may have on a bitmap of `size` bits: an update names bits of the
    bitmap, a query takes any two indices. -/
def InRange (w size : Nat) : BitmapCall → Prop
  | setBit i | clearBit i => i < size
  | setBits s n | clearBits s n => s + n ≤ size
  | areBitsSet s n | areBitsClear s n => s < 2 ^ w ∧ n < 2 ^ w
  | numberOfSetBits => True

def execute (b : RtlBitmap w) : BitmapCall → Option (RtlBitmap w × BitmapAnswer)
  | setBit i => (rtlSetBit b i).map (·, .done)
  | clearBit i => (rtlClearBit b i).map (·, .done)
  | setBits s n => (rtlSetBits b s n).map (·, .done)
  | clearBits s n => (rtlClearBits b s n).map (·, .done)
  | areBitsSet s n => (rtlAreBitsSet b s n).map fun a => (b, .truth a)
  | areBitsClear s n => (rtlAreBitsClear b s n).map fun a => (b, .truth a)
  | numberOfSetBits => (rtlNumberOfSetBits b).map fun n => (b, .number n)

/-- The indices that a call may change. -/
def named : BitmapCall → Finset Nat
  | setBit i | clearBit i => {i}
  | setBits s n | clearBits s n => Finset.Ico s (s + n)
  | _ => ∅

/-- The set after the call. -/
def after (A : Finset Nat) : BitmapCall → Finset Nat
  | setBit i => insert i A
  | clearBit i => A.erase i
  | setBits s n => A ∪ Finset.Ico s (s + n)
  | clearBits s n => A \ Finset.Ico s (s + n)
  | _ => A

/-- What the call says about a set of indices below `size`. -/
def answer (size : Nat) (A : Finset Nat) : BitmapCall → BitmapAnswer
  | areBitsSet s n => .truth (decide (0 < n ∧ s + n ≤ size ∧ Finset.Ico s (s + n) ⊆ A))
  | areBitsClear s n => .truth (decide (0 < n ∧ s + n ≤ size ∧ Disjoint (Finset.Ico s (s + n)) A))
  | numberOfSetBits => .number A.card
  | _ => .done

/-- The call acts on the bitmap as it acts on the set of its indices, and leaves alone every bit
    of the buffer that it does not name. -/
structure Refines (c : BitmapCall) (b b' : RtlBitmap w) : Prop where
  executed : c.execute b = some (b', c.answer b.sizeOfBitMap b.indices)
  size : b'.sizeOfBitMap = b.sizeOfBitMap
  words : b'.buffer.size = b.buffer.size
  indices : b'.indices = c.after b.indices
  frame : ∀ i, i ∉ c.named → bitAt b'.buffer i = bitAt b.buffer i

/-- Where the `int` of `RtlClearBit` and the `ULONG` of `RtlpGetLengthOfRunSet` are wide enough:
    the bit is below the sign bit, and the words with the range end below `2 ^ 32`. -/
def WithinUlong (w size : Nat) : BitmapCall → Prop
  | clearBit i => w = 32 ∨ i % w < 31
  | areBitsSet s n => 0 < n → s + n ≤ size → s + n + w ≤ 2 ^ 32
  | _ => True

end BitmapCall

namespace RtlBitmap

theorem mem_indices : i ∈ b.indices ↔ i < b.sizeOfBitMap ∧ bitAt b.buffer i = true := mem_setBelow

section

variable (hhi : hi ≤ b.sizeOfBitMap)

include hhi

theorem run_true_iff : b.Run lo hi true ↔ Finset.Ico lo hi ⊆ b.indices := by
  constructor
  · intro h i hi
    obtain ⟨h1, h2⟩ := mem_Ico.1 hi
    exact mem_indices.2 ⟨by omega, h i h1 h2⟩
  · intro h i h1 h2
    exact (mem_indices.1 (h (mem_Ico.2 ⟨h1, h2⟩))).2

theorem run_false_iff : b.Run lo hi false ↔ Disjoint (Finset.Ico lo hi) b.indices := by
  rw [disjoint_left]
  constructor
  · intro h i hi hmem
    obtain ⟨h1, h2⟩ := mem_Ico.1 hi
    have hset := (mem_indices.1 hmem).2
    rw [h i h1 h2] at hset
    cases hset
  · intro h i h1 h2
    have hno := h (mem_Ico.2 ⟨h1, h2⟩)
    rw [mem_indices] at hno
    simpa [show i < b.sizeOfBitMap by omega] using hno

theorem Updated.indices_true (h : Updated b b' lo hi true) :
    b'.indices = b.indices ∪ Finset.Ico lo hi := by
  rw [indices, h.size]
  exact h.painted.setBelow_true hhi

end

theorem Updated.indices_false (h : Updated b b' lo hi false) :
    b'.indices = b.indices \ Finset.Ico lo hi := by
  rw [indices, h.size]
  exact h.painted.setBelow_false _

theorem Updated.frame (h : Updated b b' lo hi v) (hi : i ∉ Finset.Ico lo hi) :
    bitAt b'.buffer i = bitAt b.buffer i := by
  rw [mem_Ico] at hi
  exact h.painted.outside i (by omega)

end RtlBitmap

section Refinement

variable [hw : BitCount w]

/-- Every call whose values fit an `int` and a `ULONG` acts on the set. -/
theorem refines_of_withinUlong (b : RtlBitmap w) (c : BitmapCall)
    (hc : c.InRange w b.sizeOfBitMap) (hfit : c.WithinUlong w b.sizeOfBitMap) :
    ∃ b', c.Refines b b' := by
  cases c with
  | setBit i =>
    obtain ⟨b', hb', hu⟩ := rtlSetBit_spec b hc
    refine ⟨b', by simp [BitmapCall.execute, hb', BitmapCall.answer], hu.size, hu.painted.size, ?_,
      fun j hj => hu.frame (by rw [Nat.Ico_succ_singleton]; exact hj)⟩
    rw [hu.indices_true hc, Nat.Ico_succ_singleton]
    ext j
    simp [BitmapCall.after]
  | clearBit i =>
    obtain ⟨b', hb', hu⟩ := rtlClearBit_spec b hc hfit
    refine ⟨b', by simp [BitmapCall.execute, hb', BitmapCall.answer], hu.size, hu.painted.size, ?_,
      fun j hj => hu.frame (by rw [Nat.Ico_succ_singleton]; exact hj)⟩
    rw [hu.indices_false, Nat.Ico_succ_singleton]
    exact sdiff_singleton_eq_erase i b.indices
  | setBits s n =>
    obtain ⟨b', hb', hu⟩ := rtlSetBits_spec b hc
    exact ⟨b', by simp [BitmapCall.execute, hb', BitmapCall.answer], hu.size, hu.painted.size,
      hu.indices_true hc, fun j hj => hu.frame hj⟩
  | clearBits s n =>
    obtain ⟨b', hb', hu⟩ := rtlClearBits_spec b hc
    exact ⟨b', by simp [BitmapCall.execute, hb', BitmapCall.answer], hu.size, hu.painted.size,
      hu.indices_false, fun j hj => hu.frame hj⟩
  | areBitsSet s n =>
    obtain ⟨a, ha, hiff⟩ := rtlAreBitsSet_spec b hc.1 hc.2 hfit
    refine ⟨b, ?_, rfl, rfl, rfl, fun _ _ => rfl⟩
    have hans : a = decide (0 < n ∧ s + n ≤ b.sizeOfBitMap ∧ Finset.Ico s (s + n) ⊆ b.indices) := by
      rw [Bool.eq_iff_iff, hiff, decide_eq_true_iff]
      exact and_congr_right fun _ => and_congr_right fun h => run_true_iff h
    simp only [BitmapCall.execute, ha, map_some, BitmapCall.answer, hans]
  | areBitsClear s n =>
    obtain ⟨a, ha, hiff⟩ := rtlAreBitsClear_spec b hc.1 hc.2
    refine ⟨b, ?_, rfl, rfl, rfl, fun _ _ => rfl⟩
    have hans : a =
        decide (0 < n ∧ s + n ≤ b.sizeOfBitMap ∧ Disjoint (Finset.Ico s (s + n)) b.indices) := by
      rw [Bool.eq_iff_iff, hiff, decide_eq_true_iff]
      exact and_congr_right fun _ => and_congr_right fun h => run_false_iff h
    simp only [BitmapCall.execute, ha, map_some, BitmapCall.answer, hans]
  | numberOfSetBits =>
    refine ⟨b, ?_, rfl, rfl, rfl, fun _ _ => rfl⟩
    simp only [BitmapCall.execute, rtlNumberOfSetBits_spec, map_some, BitmapCall.answer]

end Refinement

/-- A 32-bit bitmap refines the finite set of its indices. -/
theorem bitmap_refines_set (b : RtlBitmap 32) (c : BitmapCall)
    (hc : c.InRange 32 b.sizeOfBitMap) : ∃ b', c.Refines b b' := by
  apply refines_of_withinUlong b c hc
  have hsize := b.size_lt
  cases c with
  | clearBit i => exact .inl rfl
  | areBitsSet s n =>
    intro _ hle
    omega
  | setBit i => trivial
  | setBits s n => trivial
  | clearBits s n => trivial
  | areBitsClear s n => trivial
  | numberOfSetBits => trivial

/-- A bitmap of 40 bits in two words, with bits of the second one past its end. -/
def paddedBitmap : RtlBitmap 32 where
  sizeOfBitMap := 40
  buffer := #[0xF0000001#32, 0xFFFFFF07#32]
  fits := by decide
  size_lt := by decide
  covered := by decide

theorem bitmap_refines_set_padded :
    ∃ b', (BitmapCall.clearBits 28 9).Refines paddedBitmap b' :=
  bitmap_refines_set paddedBitmap (.clearBits 28 9) (by
    show 28 + 9 ≤ 40
    decide)

/-! ## Section 6: The 64-bit build -/

/-- The bitmap with all bits of its words set. -/
def fullBitmap (n : Nat) (hn : n < 2 ^ 63) : RtlBitmap 64 where
  sizeOfBitMap := n
  buffer := Array.replicate (n / 64 + 1) (BitVec.allOnes 64)
  fits := Nat.lt_trans hn (by decide)
  size_lt := hn
  covered := by
    rw [Array.size_replicate]
    omega

theorem bitAt_fullBitmap {hn : n < 2 ^ 63} (hi : i / 64 ≤ n / 64) :
    bitAt (fullBitmap n hn).buffer i = true := by
  have hlt : i / 64 < n / 64 + 1 := by omega
  have hmod : i % 64 < 64 := by omega
  rw [bitAt, fullBitmap, Array.getD_eq_getD_getElem?, Array.getElem?_replicate, if_pos hlt,
    getD_some, getLsbD_allOnes]
  exact decide_eq_true hmod

/-- A bit from the sign bit of an `int` on is not the only one that `RtlClearBit64` clears, or the
    shift has no value. -/
theorem clearBit_not_refines (hn : n < 2 ^ 63) (hi : i < n) (hbit : 31 ≤ i % 64)
    {b' : RtlBitmap 64} : ¬ (BitmapCall.clearBit i).Refines (fullBitmap n hn) b' := by
  intro h
  have hexec := h.executed
  have hword : i / 64 < (fullBitmap n hn).buffer.size :=
    word_lt (b := (fullBitmap n hn).toBitMapHeader) hi
  simp only [BitmapCall.execute, rtlClearBit, and_mask, load_eq hword, bind, bind_some,
    intOneShiftLeft] at hexec
  by_cases hshift : i % 64 < 32
  · have hsign : i % 64 = 31 := by omega
    rw [if_pos hshift, bind_some, store, dif_pos hword, map_some] at hexec
    have hb' := congrArg (fun q : RtlBitmap 64 × BitmapAnswer => q.1.buffer)
      (some.inj hexec)
    simp only at hb'
    -- The bit after the sign bit was set, and is not any more.
    have hframe := h.frame (i + 1) (by simp [BitmapCall.named])
    rw [bitAt_fullBitmap (by omega), ← hb', bitAt, show (i + 1) / 64 = i / 64 by omega,
      show (i + 1) % 64 = 32 by omega, Array.getD_eq_getD_getElem?, Array.getElem?_set_self,
      getD_some, getLsbD_and, hsign, getLsbD_clearMask (by decide) (by decide)]
      at hframe
    simp at hframe
  · rw [if_neg hshift] at hexec
    cases hexec

/-- Where the words end at `2 ^ 32` or later, the product loses its upper part and the length
    comes out too large for any range. -/
theorem lengthUpTo_wrapped {p : Nat} (hn : s + n < 2 ^ 63) (hp : p = max s (2 ^ 32 - 64))
    (hlt : p < s + n) : n ≤ lengthUpTo (w := 64) 32 s (p / 64 + 1) (p % 64) := by
  rw [lengthUpTo]
  obtain ⟨t, ht⟩ : ∃ t, t = (p / 64 + 1) % 2 ^ 32 * 64 % 2 ^ 32 := ⟨_, rfl⟩
  rw [← ht]
  omega

theorem areBitsSet_not_refines (size s n : Nat) (hsize : size < 2 ^ 63) (h0 : 0 < n)
    (hsn : s + n ≤ size) (hbig : 2 ^ 32 < s + n + 64) :
    ∃ b : RtlBitmap 64, b.sizeOfBitMap = size ∧
      ∀ b', ¬ (BitmapCall.areBitsSet s n).Refines b b' := by
  -- All bits are set but one of the range.
  obtain ⟨p, hp⟩ : ∃ p, p = max s (2 ^ 32 - 64) := ⟨_, rfl⟩
  have hps : s ≤ p ∧ p < s + n := by omega
  obtain ⟨b, -, hu⟩ := rtlClearBits_spec (fullBitmap size hsize) (s := p) (n := 1)
    (show p + 1 ≤ size by omega)
  have hbsize : b.sizeOfBitMap = size := hu.size
  have hclear : bitAt b.buffer p = false := hu.painted.inside p (Nat.le_refl p) (by omega)
  have hset : ∀ i, i < size → i ≠ p → bitAt b.buffer i = true := by
    intro i hi hne
    rw [hu.painted.outside i (by omega)]
    exact bitAt_fullBitmap (by omega)
  refine ⟨b, hbsize, fun b' h => ?_⟩
  -- The query finds that bit and takes it for one far behind the range.
  obtain ⟨l, hl, hcases⟩ := rtlpGetLengthOfRunSet_spec b h0 (hbsize ▸ hsn)
  have hnl : n ≤ l := by
    rcases hcases with ⟨rfl, -⟩ | ⟨q, -, -, hrun, hbit, hlen⟩
    · exact Nat.le_refl l
    have hqp : q = p := by
      rcases Nat.lt_trichotomy q p with hlt | heq | hgt
      · exact absurd (hset q (by omega) (by omega)) hbit
      · exact heq
      · have hone := hrun p hps.1 hgt
        rw [hclear] at hone
        cases hone
    rw [hqp] at hlen
    have hwrap := lengthUpTo_wrapped (show s + n < 2 ^ 63 by omega) hp hps.2
    omega
  have htrue : rtlAreBitsSet b s n = some true := by
    have hstop : (s + n) % 2 ^ 64 = s + n := Nat.mod_eq_of_lt (by omega)
    have hno : ¬ (s + n > b.sizeOfBitMap ∨ s + n ≤ s) := by omega
    simp only [rtlAreBitsSet, areBits, hstop, if_neg hno, hl, bind,
      bind_some, pure, ge_iff_le, hnl, decide_true]
  have hexec := h.executed
  simp only [BitmapCall.execute, htrue, map_some, BitmapCall.answer] at hexec
  have hans := congrArg Prod.snd (some.inj hexec)
  have hsub := (of_decide_eq_true (BitmapAnswer.truth.inj hans).symm).2.2
  have hmem := (mem_indices.1 (hsub (mem_Ico.2 hps))).2
  rw [hclear] at hmem
  cases hmem

end Rtl
