import AppendStore.Library.Bytes

/-! # CRC-32C (Castagnoli)

The reflected CRC with polynomial `0x82f63b78`, initial value and final mask all ones. `crcUpdate`
is the streaming form on the masked register; `crcUpdate_append` says that hashing a message piece
by piece is hashing it in one go.

A shift is linear in exclusive or, and no two registers shift to the same one. So a message is a number
that is added into the register and shifted through it (`crcFold_eq`), and two messages that differ in at
most four consecutive bytes never have the same checksum (`crcChecksum_burst`).
-/

namespace AppendStore.Library
set_option autoImplicit false

/-- The reversed Castagnoli polynomial. -/
def castagnoli : ℕ := 0x82f63b78

/-- One shift of the register. -/
def crcShift (c : ℕ) : ℕ := if c % 2 = 1 then (c / 2) ^^^ castagnoli else c / 2

/-- One message byte. -/
def crcByte (c : ℕ) (b : UInt8) : ℕ :=
  crcShift (crcShift (crcShift (crcShift (crcShift (crcShift (crcShift (crcShift (c ^^^ b.toNat))))))))

/-- Add a piece of the message to a running checksum. -/
def crcUpdate (crc : ℕ) (p : Bytes) : ℕ := (p.foldl crcByte (crc ^^^ 0xffffffff)) ^^^ 0xffffffff

/-- The checksum of a whole message. -/
def crcChecksum (p : Bytes) : ℕ := crcUpdate 0 p

theorem crcShift_lt {c : ℕ} (h : c < 2 ^ 32) : crcShift c < 2 ^ 32 := by
  unfold crcShift
  split
  · exact Nat.xor_lt_two_pow (by omega) (by decide)
  · omega

theorem crcByte_lt {c : ℕ} (h : c < 2 ^ 32) (b : UInt8) : crcByte c b < 2 ^ 32 := by
  have hb : b.toNat < 2 ^ 32 := lt_trans b.toNat_lt (by decide)
  have hx : c ^^^ b.toNat < 2 ^ 32 := Nat.xor_lt_two_pow h hb
  unfold crcByte
  iterate 8 apply crcShift_lt
  exact hx

theorem crcFold_lt (p : Bytes) {c : ℕ} (h : c < 2 ^ 32) : p.foldl crcByte c < 2 ^ 32 := by
  induction p generalizing c with
  | nil => exact h
  | cons b p ih => exact ih (crcByte_lt h b)

theorem crcUpdate_lt {crc : ℕ} (h : crc < 2 ^ 32) (p : Bytes) : crcUpdate crc p < 2 ^ 32 :=
  Nat.xor_lt_two_pow (crcFold_lt p (Nat.xor_lt_two_pow h (by decide))) (by decide)

theorem crcChecksum_lt (p : Bytes) : crcChecksum p < 2 ^ 32 := crcUpdate_lt (by decide) p

/-- Hashing in pieces is hashing in one go. -/
theorem crcUpdate_append (crc : ℕ) (p q : Bytes) :
    crcUpdate (crcUpdate crc p) q = crcUpdate crc (p ++ q) := by
  unfold crcUpdate
  rw [Nat.xor_assoc _ 0xffffffff 0xffffffff, Nat.xor_self, Nat.xor_zero, List.foldl_append]

/-- The check value of the ASCII digits 1 to 9. -/
example : crcChecksum [0x31, 0x32, 0x33, 0x34, 0x35, 0x36, 0x37, 0x38, 0x39] = 0xe3069283 := by
  decide +kernel

/-! ## Burst errors -/

theorem xor_div_two (a b : ℕ) : (a ^^^ b) / 2 = a / 2 ^^^ b / 2 := by
  rw [← Nat.shiftRight_one, ← Nat.shiftRight_one, ← Nat.shiftRight_one, Nat.shiftRight_xor_distrib]

theorem crcShift_xor (a b : ℕ) : crcShift (a ^^^ b) = crcShift a ^^^ crcShift b := by
  have hmod := Nat.xor_mod_two_eq (m := a) (n := b)
  have hcancel : ∀ p x y : ℕ, (x ^^^ p) ^^^ (y ^^^ p) = x ^^^ y := by
    intro p x y
    rw [Nat.xor_comm y p, Nat.xor_assoc, ← Nat.xor_assoc p p y, Nat.xor_self, Nat.zero_xor]
  unfold crcShift
  rw [xor_div_two]
  by_cases ha : a % 2 = 1 <;> by_cases hb : b % 2 = 1
  · rw [if_neg (by omega), if_pos ha, if_pos hb, hcancel]
  · rw [if_pos (by omega), if_pos ha, if_neg hb, Nat.xor_assoc, Nat.xor_assoc, Nat.xor_comm (b / 2)]
  · rw [if_pos (by omega), if_neg ha, if_pos hb, Nat.xor_assoc]
  · rw [if_neg (by omega), if_neg ha, if_neg hb]

/-- A register with a free low bit only moves down. -/
theorem crcShift_double (n : ℕ) : crcShift (2 * n) = n := by
  unfold crcShift
  rw [if_neg (by omega)]
  omega

/-- No two registers shift to the same one: the top bit of the result tells whether the bit shifted out
was set. -/
theorem crcShift_inj {a b : ℕ} (ha : a < 2 ^ 32) (hb : b < 2 ^ 32) (h : crcShift a = crcShift b) : a = b := by
  have htop : ∀ x y : ℕ, x < 2 ^ 31 → y < 2 ^ 31 → x ^^^ castagnoli ≠ y := by
    intro x y hx hy heq
    have hpoly : castagnoli = x ^^^ y := by
      rw [← heq, ← Nat.xor_assoc, Nat.xor_self, Nat.zero_xor]
    have hlt : x ^^^ y < 2 ^ 31 := Nat.xor_lt_two_pow hx hy
    rw [← hpoly] at hlt
    exact absurd hlt (by decide)
  unfold crcShift at h
  by_cases h1 : a % 2 = 1 <;> by_cases h2 : b % 2 = 1
  · rw [if_pos h1, if_pos h2] at h
    have := Nat.xor_left_inj.mp h
    omega
  · rw [if_pos h1, if_neg h2] at h
    exact absurd h (htop _ _ (by omega) (by omega))
  · rw [if_neg h1, if_pos h2] at h
    exact absurd h.symm (htop _ _ (by omega) (by omega))
  · rw [if_neg h1, if_neg h2] at h
    omega

theorem shifts_xor (n a b : ℕ) : crcShift^[n] (a ^^^ b) = crcShift^[n] a ^^^ crcShift^[n] b := by
  induction n generalizing a b with
  | zero => rfl
  | succ n ih =>
    rw [Function.iterate_succ_apply, crcShift_xor, ih, Function.iterate_succ_apply, Function.iterate_succ_apply]

theorem shifts_inj {n a b : ℕ} (ha : a < 2 ^ 32) (hb : b < 2 ^ 32) (h : crcShift^[n] a = crcShift^[n] b) : a = b := by
  induction n generalizing a b with
  | zero => exact h
  | succ n ih =>
    rw [Function.iterate_succ_apply, Function.iterate_succ_apply] at h
    exact crcShift_inj ha hb (ih (crcShift_lt ha) (crcShift_lt hb) h)

theorem shifts_eight (n : ℕ) : crcShift^[8] (256 * n) = n := by
  have hpow : 256 * n = 2 * (2 * (2 * (2 * (2 * (2 * (2 * (2 * n))))))) := by omega
  rw [hpow]
  simp only [Function.iterate_succ_apply, crcShift_double, Function.iterate_zero, id_eq]

theorem crcByte_eq (c : ℕ) (b : UInt8) : crcByte c b = crcShift^[8] (c ^^^ b.toNat) := by
  simp only [crcByte, Function.iterate_succ_apply, Function.iterate_zero, id_eq]

theorem leNat_cons_xor (b : UInt8) (p : Bytes) : leNat (b :: p) = b.toNat ^^^ 256 * leNat p := by
  have hb : b.toNat < 2 ^ 8 := b.toNat_lt
  have hadd := Nat.two_pow_add_eq_or_of_lt hb (leNat p)
  have hor : 2 ^ 8 * leNat p ||| b.toNat = 2 ^ 8 * leNat p ^^^ b.toNat := by
    apply Nat.eq_of_testBit_eq
    intro i
    rw [Nat.testBit_or, Nat.testBit_xor, Nat.testBit_two_pow_mul]
    by_cases hi : 8 ≤ i
    · rw [Nat.testBit_lt_two_pow (hb.trans_le (Nat.pow_le_pow_right (by decide) hi))]
      simp
    · simp [hi]
  rw [leNat, Nat.add_comm, Nat.xor_comm]
  exact hadd.trans hor

/-- The bytes of a message are one number, added into the register and shifted through it. -/
theorem crcFold_eq (p : Bytes) (c : ℕ) : p.foldl crcByte c = crcShift^[8 * p.length] (c ^^^ leNat p) := by
  induction p generalizing c with
  | nil => simp [leNat]
  | cons b p ih =>
    have hbyte : crcByte c b ^^^ leNat p = crcShift^[8] (c ^^^ leNat (b :: p)) := by
      rw [leNat_cons_xor, ← Nat.xor_assoc, shifts_xor, shifts_eight, crcByte_eq]
    rw [List.foldl_cons, ih, hbyte, List.length_cons, Nat.mul_succ, Function.iterate_add_apply]

/-- What follows does not bring two registers together. -/
theorem crcFold_inj {c c' : ℕ} (hc : c < 2 ^ 32) (hc' : c' < 2 ^ 32) {p : Bytes}
    (h : p.foldl crcByte c = p.foldl crcByte c') : c = c' := by
  induction p generalizing c c' with
  | nil => exact h
  | cons b p ih =>
    have hbyte := ih (crcByte_lt hc b) (crcByte_lt hc' b) h
    have hb : b.toNat < 2 ^ 32 := lt_trans b.toNat_lt (by decide)
    rw [crcByte_eq, crcByte_eq] at hbyte
    exact Nat.xor_left_inj.mp (shifts_inj (Nat.xor_lt_two_pow hc hb) (Nat.xor_lt_two_pow hc' hb) hbyte)

/-- **Burst errors are detected**: two messages that differ in at most four consecutive bytes have
different checksums. -/
theorem crcChecksum_burst {x y : Bytes} (hlen : x.length = y.length) (hshort : x.length ≤ 4) (a b : Bytes)
    (h : crcChecksum (a ++ x ++ b) = crcChecksum (a ++ y ++ b)) : x = y := by
  have hstart : (0 : ℕ) ^^^ 0xffffffff < 2 ^ 32 := by decide
  set c := a.foldl crcByte (0 ^^^ 0xffffffff) with hc
  have hlt : c < 2 ^ 32 := crcFold_lt a hstart
  have hfold : b.foldl crcByte (x.foldl crcByte c) = b.foldl crcByte (y.foldl crcByte c) := by
    simp only [crcChecksum, crcUpdate, List.foldl_append, ← hc] at h
    exact Nat.xor_left_inj.mp h
  have hmid := crcFold_inj (crcFold_lt x hlt) (crcFold_lt y hlt) hfold
  have hle : ∀ z : Bytes, z.length ≤ 4 → leNat z < 2 ^ 32 := by
    intro z hz
    exact (leNat_lt z).trans_le ((Nat.pow_le_pow_right (by decide) hz).trans (by decide))
  rw [crcFold_eq, crcFold_eq, hlen] at hmid
  have hsum := shifts_inj (Nat.xor_lt_two_pow hlt (hle x hshort)) (Nat.xor_lt_two_pow hlt (hle y (hlen ▸ hshort))) hmid
  exact leNat_inj x y hlen (Nat.xor_right_inj.mp hsum)

end AppendStore.Library
