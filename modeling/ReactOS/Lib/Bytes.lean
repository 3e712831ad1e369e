import Mathlib.Algebra.Group.Int.Defs
import Mathlib.Algebra.Group.Nat.Defs

/-! # Byte buffers

    Memory blocks, disk files and on-disk images are all modelled as total
    functions from an offset to a byte.  What a C program does with such a
    block is an *overlay*: `RtlCopyMemory`, `RtlZeroMemory` and a store of a
    32-bit word each replace a range of bytes and leave the rest alone.

    * `overlay b o n src` replaces the `n` bytes at `o` by those of `src`.
    * `getU32` and `putU32` are the little-endian 32-bit load and store,
      `getU16` and `putU16` those of 16 bits.
    * `toLong` and `ofLong` convert between a 32-bit word and its signed
      reading. -/

namespace Bytes

/-- A block of memory, or the contents of a file. -/
abbrev Buf : Type := Nat → UInt8

/-- The block of zeroes. -/
def zeroBuf : Buf := fun _ => 0

/-- Replace the `n` bytes of `b` at offset `o` by the first `n` bytes of `src`. -/
def overlay (b : Buf) (o n : Nat) (src : Buf) : Buf :=
  fun i => if o ≤ i ∧ i < o + n then src (i - o) else b i

/-- The part of `b` that starts at offset `o`. -/
def slice (b : Buf) (o : Nat) : Buf := fun i => b (o + i)

theorem slice_apply (b : Buf) (o i : Nat) : slice b o i = b (o + i) := rfl

variable {b src : Buf} {o n i : Nat}

theorem overlay_in (h1 : o ≤ i) (h2 : i < o + n) : overlay b o n src i = src (i - o) := by
  simp [overlay, h1, h2]

theorem overlay_out (h : i < o ∨ o + n ≤ i) : overlay b o n src i = b i := by
  unfold overlay
  rw [if_neg]
  omega

/-- An overlay depends on the bytes of `src` below `n` only. -/
theorem overlay_congr {src' : Buf} (h : ∀ i, i < n → src i = src' i) :
    overlay b o n src = overlay b o n src' := by
  funext i
  unfold overlay
  split
  · exact h _ (by omega)
  · rfl

/-! ## 32-bit words -/

variable {a v : Nat}

/-- Little-endian load of a 32-bit word. -/
def getU32 (b : Buf) (o : Nat) : Nat :=
  (b o).toNat + 256 * (b (o + 1)).toNat + 65536 * (b (o + 2)).toNat
    + 16777216 * (b (o + 3)).toNat

/-- The four bytes of a 32-bit word. -/
def u32le (v : Nat) : Buf
  | 0 => UInt8.ofNat v
  | 1 => UInt8.ofNat (v / 256)
  | 2 => UInt8.ofNat (v / 65536)
  | 3 => UInt8.ofNat (v / 16777216)
  | _ + 4 => 0

/-- Little-endian store of a 32-bit word. -/
def putU32 (b : Buf) (o v : Nat) : Buf := overlay b o 4 (u32le v)

theorem getU32_lt (b : Buf) (o : Nat) : getU32 b o < 2 ^ 32 := by
  have h0 := (b o).toNat_lt
  have h1 := (b (o + 1)).toNat_lt
  have h2 := (b (o + 2)).toNat_lt
  have h3 := (b (o + 3)).toNat_lt
  unfold getU32
  omega

theorem getU32_congr {b' : Buf} {o' : Nat} (h : ∀ i, i < 4 → b (o + i) = b' (o' + i)) :
    getU32 b o = getU32 b' o' := by
  have h0 : b o = b' o' := h 0 (by omega)
  simp only [getU32, h0, h 1 (by omega), h 2 (by omega), h 3 (by omega)]

/-- A load below `n` depends on the first `n` bytes only. -/
theorem getU32_below {b' : Buf} (h : ∀ i, i < n → b i = b' i) (ho : o + 4 ≤ n) :
    getU32 b o = getU32 b' o := getU32_congr fun i hi => h _ (by omega)

theorem getU32_u32le (v : Nat) : getU32 (u32le v) 0 = v % 2 ^ 32 := by
  simp only [getU32, u32le, UInt8.toNat_ofNat']
  omega

theorem getU32_overlay_out (h : o + 4 ≤ a ∨ a + n ≤ o) :
    getU32 (overlay b a n src) o = getU32 b o := by
  apply getU32_congr
  intro i hi
  exact overlay_out (by omega)

theorem getU32_overlay_in (h1 : a ≤ o) (h2 : o + 4 ≤ a + n) :
    getU32 (overlay b a n src) o = getU32 src (o - a) := by
  apply getU32_congr
  intro i hi
  rw [overlay_in (by omega) (by omega), show o + i - a = o - a + i by omega]

@[simp] theorem getU32_putU32_self (b : Buf) (o v : Nat) :
    getU32 (putU32 b o v) o = v % 2 ^ 32 := by
  unfold putU32
  rw [getU32_overlay_in (Nat.le_refl o) (Nat.le_refl _), Nat.sub_self, getU32_u32le]

theorem getU32_putU32_ne (h : o + 4 ≤ a ∨ a + 4 ≤ o) : getU32 (putU32 b a v) o = getU32 b o :=
  getU32_overlay_out h

theorem putU32_out (h : i < o ∨ o + 4 ≤ i) : putU32 b o v i = b i :=
  overlay_out h

@[simp] theorem getU32_zeroBuf (o : Nat) : getU32 zeroBuf o = 0 := rfl

/-! ## 16-bit words -/

/-- Little-endian load of a 16-bit word. -/
def getU16 (b : Buf) (o : Nat) : Nat := (b o).toNat + 256 * (b (o + 1)).toNat

/-- The two bytes of a 16-bit word. -/
def u16le (v : Nat) : Buf
  | 0 => UInt8.ofNat v
  | 1 => UInt8.ofNat (v / 256)
  | _ + 2 => 0

/-- Little-endian store of a 16-bit word. -/
def putU16 (b : Buf) (o v : Nat) : Buf := overlay b o 2 (u16le v)

theorem getU16_congr {b' : Buf} {o' : Nat} (h : ∀ i, i < 2 → b (o + i) = b' (o' + i)) :
    getU16 b o = getU16 b' o' := by
  have h0 : b o = b' o' := h 0 (by omega)
  simp only [getU16, h0, h 1 (by omega)]

@[simp] theorem getU16_putU16_self (b : Buf) (o v : Nat) :
    getU16 (putU16 b o v) o = v % 2 ^ 16 := by
  have h0 : putU16 b o v o = UInt8.ofNat v := by
    rw [putU16, overlay_in (Nat.le_refl o) (by omega), Nat.sub_self]
    rfl
  have h1 : putU16 b o v (o + 1) = UInt8.ofNat (v / 256) := by
    rw [putU16, overlay_in (by omega) (by omega), Nat.add_sub_cancel_left]
    rfl
  simp only [getU16, h0, h1, UInt8.toNat_ofNat']
  omega

theorem putU16_out (h : i < o ∨ o + 2 ≤ i) : putU16 b o v i = b i :=
  overlay_out h

/-! ## Signed words -/

/-- The signed reading of a 32-bit word. -/
def toLong (v : Nat) : Int := if v < 2 ^ 31 then (v : Int) else (v : Int) - 2 ^ 32

/-- The 32-bit word of a signed value, with wrap-around. -/
def ofLong (i : Int) : Nat := (i % 2 ^ 32).toNat

/-- Load of a signed 32-bit word. -/
def getLong (b : Buf) (o : Nat) : Int := toLong (getU32 b o)

/-- Store of a signed 32-bit word. -/
def putLong (b : Buf) (o : Nat) (i : Int) : Buf := putU32 b o (ofLong i)

theorem getLong_lower (b : Buf) (o : Nat) : -2 ^ 31 ≤ getLong b o := by
  unfold getLong toLong
  split <;> omega

theorem getLong_upper (b : Buf) (o : Nat) : getLong b o < 2 ^ 31 := by
  have := getU32_lt b o
  unfold getLong toLong
  split <;> omega

end Bytes
