import ReactOS.Lib.Bytes

/-! # Files and writes

    A disk is a family of files, a file is a length and its bytes, and a write
    replaces a range of one file and extends it if need be.  A crash leaves the
    disk that a part of the writes has been applied to.

    The lemmas say which bytes a list of writes leaves alone, and that a byte
    that some write covers is decided by the last one that does. -/

namespace Bytes

variable {φ : Type}

/-- A file: its length and its bytes. -/
structure File where
  len : Nat
  data : Buf

/-- The files of a disk, by name. -/
abbrev Disk (φ : Type) : Type := φ → File

/-- A request to write `len` bytes of `src` at offset `off`. -/
structure Write (φ : Type) where
  file : φ
  off : Nat
  len : Nat
  src : Buf

/-- The write covers byte `i` of file `f`. -/
def Write.Covers (w : Write φ) (f : φ) (i : Nat) : Prop :=
  f = w.file ∧ w.off ≤ i ∧ i < w.off + w.len

/-- The disk after a write. -/
def Disk.write [DecidableEq φ] (d : Disk φ) (w : Write φ) : Disk φ := fun f =>
  if f = w.file then ⟨max (d f).len (w.off + w.len), overlay (d f).data w.off w.len w.src⟩ else d f

/-- The disk after a list of writes. -/
def Disk.writeAll [DecidableEq φ] (d : Disk φ) (ws : List (Write φ)) : Disk φ :=
  ws.foldl Disk.write d

/-- Read `n` bytes at offset `off` into a buffer.  A read that starts behind
    the end of the file fails, one that reaches behind it is short. -/
def File.read (f : File) (off n : Nat) (buffer : Buf) : Option Buf :=
  if off < f.len then
    some (fun i => if i < n ∧ off + i < f.len then f.data (off + i) else buffer i)
  else none

section Writes

variable [DecidableEq φ] {d d' : Disk φ} {w : Write φ} {ws vs : List (Write φ)} {f : φ} {i : Nat}

theorem writeAll_append (d : Disk φ) (ws vs : List (Write φ)) :
    d.writeAll (ws ++ vs) = (d.writeAll ws).writeAll vs :=
  List.foldl_append

theorem write_data_in (h : w.Covers f i) : ((d.write w) f).data i = w.src (i - w.off) := by
  obtain ⟨rfl, h1, h2⟩ := h
  simp only [Disk.write, if_true]
  exact overlay_in h1 h2

theorem write_data_out (h : ¬ w.Covers f i) : ((d.write w) f).data i = (d f).data i := by
  unfold Disk.write
  split
  · rename_i hf
    exact overlay_out (by simp only [Write.Covers, hf, true_and] at h; omega)
  · rfl

theorem le_len_write : (d f).len ≤ ((d.write w) f).len := by
  unfold Disk.write
  split
  · exact Nat.le_max_left _ _
  · exact Nat.le_refl _

theorem le_len_writeAll : (d f).len ≤ ((d.writeAll ws) f).len := by
  induction ws generalizing d with
  | nil => exact Nat.le_refl _
  | cons w ws ih => exact Nat.le_trans le_len_write ih

theorem len_of_mem (hw : w ∈ ws) : w.off + w.len ≤ ((d.writeAll ws) w.file).len := by
  induction ws generalizing d with
  | nil => cases hw
  | cons v ws ih =>
    rcases List.mem_cons.mp hw with rfl | hw
    · refine Nat.le_trans ?_ (@le_len_writeAll φ _ (d.write w) ws w.file)
      simp only [Disk.write, if_true]
      exact Nat.le_max_right _ _
    · exact ih hw

theorem writeAll_data_out (h : ∀ w ∈ ws, ¬ w.Covers f i) :
    ((d.writeAll ws) f).data i = (d f).data i := by
  induction ws generalizing d with
  | nil => rfl
  | cons w ws ih =>
    show (((d.write w).writeAll ws) f).data i = _
    rw [ih (fun v hv => h v (by simp [hv])), write_data_out (h w (by simp))]

theorem writeAll_other (h : ∀ w ∈ ws, w.file ≠ f) : (d.writeAll ws) f = d f := by
  induction ws generalizing d with
  | nil => rfl
  | cons w ws ih =>
    show ((d.write w).writeAll ws) f = _
    rw [ih (fun v hv => h v (by simp [hv]))]
    exact if_neg (fun hf => h w (by simp) hf.symm)

/-- What the writes make of a file depends on that file only. -/
theorem writeAll_congr (h : d f = d' f) : (d.writeAll ws) f = (d'.writeAll ws) f := by
  induction ws generalizing d d' with
  | nil => exact h
  | cons w ws ih =>
    apply ih
    show (if _ then _ else _) = (if _ then _ else _)
    rw [h]

/-- When all writes that cover a byte agree on its value, and there is one,
    the byte has that value afterwards. -/
theorem writeAll_data_in {v : UInt8} (hex : ∃ w ∈ ws, w.Covers f i)
    (hval : ∀ w ∈ ws, w.Covers f i → w.src (i - w.off) = v) : ((d.writeAll ws) f).data i = v := by
  induction ws generalizing d with
  | nil => simp at hex
  | cons w ws ih =>
    show (((d.write w).writeAll ws) f).data i = v
    by_cases hrest : ∃ u ∈ ws, u.Covers f i
    · exact ih hrest (fun u hu => hval u (by simp [hu]))
    -- the first write is the only one that covers the byte
    have hw : w.Covers f i := by grind
    rw [writeAll_data_out (fun u hu hc => hrest ⟨u, hu, hc⟩), write_data_in hw]
    exact hval w (by simp) hw

end Writes

end Bytes
