import Mathlib

/-! # Byte strings, fixed-width little-endian integers, in-place writes

Everything here is about lists of bytes:

* `leBytes w n` / `leNat b`: the `w`-byte little-endian form of a natural number and its reading.
* `slice b lo hi`: the bytes of `b` from `lo` up to `hi`.
* `copyInto buf pos src`: a copy into a buffer of fixed length, at `pos`.
* `writeAt b pos p`: a positioned write into a file, which grows the file when it has to.
-/

namespace AppendStore.Library
set_option autoImplicit false

/-- A byte string. -/
abbrev Bytes := List UInt8

instance : LawfulBEq Bytes := inferInstance

/-! ## Little-endian integers -/

/-- The `w` low bytes of `n`, least significant first. -/
def leBytes : ℕ → ℕ → Bytes
  | 0, _ => []
  | w + 1, n => UInt8.ofNat n :: leBytes w (n / 256)

/-- The number a little-endian byte string denotes. -/
def leNat : Bytes → ℕ
  | [] => 0
  | b :: bs => b.toNat + 256 * leNat bs

@[simp] theorem leBytes_length (w n : ℕ) : (leBytes w n).length = w := by
  induction w generalizing n with
  | zero => rfl
  | succ w ih => simp [leBytes, ih]

theorem leNat_leBytes (w n : ℕ) (hn : n < 256 ^ w) : leNat (leBytes w n) = n := by
  induction w generalizing n with
  | zero =>
    have hz : n = 0 := by simpa using hn
    subst hz
    rfl
  | succ w ih =>
    have hd : n / 256 < 256 ^ w := by
      rw [pow_succ] at hn
      omega
    have hb : (UInt8.ofNat n).toNat = n % 256 := by simp
    rw [leBytes, leNat, ih (n / 256) hd, hb]
    omega

theorem leBytes_leNat (b : Bytes) : leBytes b.length (leNat b) = b := by
  induction b with
  | nil => rfl
  | cons x b ih =>
    have hx : x.toNat < 256 := x.toNat_lt
    have hq : (x.toNat + 256 * leNat b) / 256 = leNat b := by omega
    have hr : UInt8.ofNat (x.toNat + 256 * leNat b) = x := by
      apply UInt8.toNat_inj.mp
      simp only [UInt8.toNat_ofNat']
      omega
    rw [List.length_cons, leBytes, leNat, hq, ih, hr]

theorem leBytes_leNat_of_length {b : Bytes} {n : ℕ} (h : b.length = n) : leBytes n (leNat b) = b := by
  subst h
  exact leBytes_leNat b

theorem leNat_lt (b : Bytes) : leNat b < 256 ^ b.length := by
  induction b with
  | nil => simp [leNat]
  | cons x b ih =>
    have hx : x.toNat < 256 := x.toNat_lt
    rw [leNat, List.length_cons, pow_succ]
    omega

/-- Two strings of one length that denote the same number are equal. -/
theorem leNat_inj (a b : Bytes) (hl : a.length = b.length) (h : leNat a = leNat b) : a = b := by
  rw [← leBytes_leNat a, ← leBytes_leNat b, hl, h]

/-! ## Slices -/

/-- The bytes from position `lo` up to position `hi`. -/
def slice (b : Bytes) (lo hi : ℕ) : Bytes := (b.take hi).drop lo

theorem slice_length (b : Bytes) (lo hi : ℕ) (h : hi ≤ b.length) :
    (slice b lo hi).length = hi - lo := by
  simp [slice, Nat.min_eq_left h]

/-- A slice that lies behind a known front part is a slice of the rest. -/
theorem slice_append_right (a b : Bytes) (lo hi : ℕ) :
    slice (a ++ b) (a.length + lo) (a.length + hi) = slice b lo hi := by
  unfold slice
  rw [List.take_length_add_append, ← List.drop_drop, List.drop_left]

theorem slice_append_left (a b : Bytes) (lo hi : ℕ) (h : hi ≤ a.length) :
    slice (a ++ b) lo hi = slice a lo hi := by
  unfold slice
  rw [List.take_append_of_le_length h]

/-- The middle part of three. -/
theorem slice_mid (a m b : Bytes) : slice (a ++ m ++ b) a.length (a.length + m.length) = m := by
  unfold slice
  rw [← List.length_append, List.take_left, List.drop_left]

theorem slice_eq_of_append (a m b : Bytes) (lo hi : ℕ) (hlo : lo = a.length)
    (hhi : hi = a.length + m.length) : slice (a ++ m ++ b) lo hi = m := by
  subst hlo
  subst hhi
  exact slice_mid a m b

theorem take_slice (b : Bytes) (lo n : ℕ) : (b.drop lo).take n = slice b lo (lo + n) := by
  unfold slice
  rw [List.drop_take, Nat.add_sub_cancel_left]

/-- A string from `lo` on is its next `n` bytes and the rest. -/
theorem drop_split (b : Bytes) (lo n : ℕ) : b.drop lo = slice b lo (lo + n) ++ b.drop (lo + n) := by
  rw [← take_slice, ← List.drop_drop, List.take_append_drop]

/-- A slice of a slice. -/
theorem slice_slice (b : Bytes) (p n lo hi : ℕ) (h : hi ≤ n) :
    slice (slice b p (p + n)) lo hi = slice b (p + lo) (p + hi) := by
  have hin : slice b p (p + n) = (b.drop p).take n := (take_slice b p n).symm
  rw [hin]
  unfold slice
  rw [List.take_take, Nat.min_eq_left h, List.drop_take, List.drop_take, List.drop_drop,
    Nat.add_sub_add_left]

/-- A slice is read off a decomposition of the string from some position on. -/
theorem slice_at {b a m t : Bytes} {p lo hi : ℕ} (h : b.drop p = a ++ m ++ t)
    (hlo : lo = p + a.length) (hhi : hi = lo + m.length) : slice b lo hi = m := by
  subst hhi
  subst hlo
  rw [← take_slice, ← List.drop_drop, h, List.append_assoc, List.drop_left, List.take_left]

/-! ## Copies into a buffer -/

/-- `copy(buf[pos:], src)`: the buffer keeps its length; what does not fit is not copied. -/
def copyInto (buf : Bytes) (pos : ℕ) (src : Bytes) : Bytes :=
  buf.take pos ++ src.take (buf.length - pos) ++ buf.drop (pos + src.length)

/-- A copy right behind what is already written extends it and uses up the stale bytes. -/
theorem copyInto_next (done stale src : Bytes) (h : src.length ≤ stale.length) (pos : ℕ)
    (hp : pos = done.length) :
    copyInto (done ++ stale) pos src = (done ++ src) ++ stale.drop src.length := by
  subst hp
  have hroom : (done ++ stale).length - done.length = stale.length := by simp
  unfold copyInto
  rw [List.take_left, hroom, List.take_of_length_le h, List.drop_length_add_append]

/-! ## Positioned writes into a file -/

/-- The file content after `p` was written at `pos`; a gap is filled with zeros. -/
def writeAt (b : Bytes) (pos : ℕ) (p : Bytes) : Bytes :=
  b.take pos ++ List.replicate (pos - b.length) 0 ++ p ++ b.drop (pos + p.length)

/-- A write at the end appends. -/
theorem writeAt_end (b p : Bytes) : writeAt b b.length p = b ++ p := by
  have hd : b.drop (b.length + p.length) = [] := List.drop_eq_nil_of_le (by omega)
  simp [writeAt, hd]

/-- A write right behind `a` replaces the front of what follows `a`. -/
theorem writeAt_append (a b p : Bytes) : writeAt (a ++ b) a.length p = a ++ p ++ b.drop p.length := by
  have hz : a.length - (a ++ b).length = 0 := by simp
  unfold writeAt
  rw [List.take_left, hz, List.drop_length_add_append]
  simp

/-- A write over the whole front part. -/
theorem writeAt_front (a b p : Bytes) (h : p.length = a.length) : writeAt (a ++ b) 0 p = p ++ b := by
  unfold writeAt
  rw [Nat.zero_add, h, List.drop_left]
  simp

/-- A write that stays inside replaces as many bytes as it has. -/
theorem writeAt_inside (b p : Bytes) {pos : ℕ} (h : pos + p.length ≤ b.length) :
    writeAt b pos p = b.take pos ++ p ++ b.drop (pos + p.length) := by
  rw [writeAt, Nat.sub_eq_zero_of_le (by omega), List.replicate_zero, List.append_nil]

/-- A write into the middle part of three. -/
theorem writeAt_mid (a m b p : Bytes) {pos : ℕ} (h : pos + p.length ≤ m.length) :
    writeAt (a ++ m ++ b) (a.length + pos) p = a ++ writeAt m pos p ++ b := by
  have hfit : a.length + pos + p.length ≤ (a ++ m ++ b).length := by
    rw [List.length_append, List.length_append]
    omega
  rw [writeAt_inside _ _ hfit, writeAt_inside _ _ h, List.append_assoc a m b, List.take_length_add_append,
    Nat.add_assoc, List.drop_length_add_append, List.take_append_of_le_length (by omega),
    List.drop_append_of_le_length h]
  simp only [List.append_assoc]

/-- What a write replaces. -/
theorem split_at (b : Bytes) (pos n : ℕ) : b = b.take pos ++ slice b pos (pos + n) ++ b.drop (pos + n) := by
  rw [List.append_assoc, ← drop_split, List.take_append_drop]

theorem writeAt_slice {b p : Bytes} {pos : ℕ} (h : pos + p.length ≤ b.length)
    (hp : p = slice b pos (pos + p.length)) : writeAt b pos p = b := by
  have hsplit := split_at b pos p.length
  rw [← hp] at hsplit
  rw [writeAt_inside b p h, ← hsplit]

theorem writeAt_length (b : Bytes) (pos : ℕ) (p : Bytes) :
    (writeAt b pos p).length = max b.length (pos + p.length) := by
  simp only [writeAt, List.length_append, List.length_take, List.length_replicate, List.length_drop]
  omega

theorem drop_writeAt (b : Bytes) (pos : ℕ) (p : Bytes) :
    (writeAt b pos p).drop pos = p ++ b.drop (pos + p.length) := by
  have hl : (b.take pos ++ List.replicate (pos - b.length) 0).length = pos := by
    rw [List.length_append, List.length_take, List.length_replicate]
    omega
  unfold writeAt
  rw [List.append_assoc]
  exact List.drop_left' hl

end AppendStore.Library
