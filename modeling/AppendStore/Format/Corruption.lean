import AppendStore.Format.RecordCodec

/-! # Damaged records

Bytes that are laid out as a record, with a length that matches and a checksum that does not, are
refused by the reader and by the validator whatever the fields inside say: every way in which the
lengths of the fields can frame them either breaks a limit or hashes the same bytes
(`readRecordFrom_mismatch`, `validateStoredRecord_mismatch`). A change of at most four consecutive bytes
of the hashed part, or of the checksum, makes such bytes of a record (`RawRecord.damaged`).

The length at the front is not hashed. A record with another length is refused, or it is the front of a
longer record that the file does not hold to its end, or the checksum at its new end matches
(`readRecordFrom_relength`).
-/

namespace AppendStore
open Library
set_option autoImplicit false

variable {r : RawRecord} {m : Attributes}

/-! ## Damage behind the length -/

/-- A body and a checksum behind a length that matches. -/
def frame (body sum : Bytes) : Bytes := leBytes 4 (body.length + 4) ++ body ++ sum

theorem RawRecord.bytes_eq_frame (r : RawRecord) : r.bytes = frame r.body (leBytes 4 (crcChecksum r.body)) := rfl

section
variable {body sum : Bytes} (hsum : sum.length = 4) (hlt : body.length + 4 < 256 ^ 4)
  (hcrc : crcChecksum body ≠ leNat sum)
include hsum hlt

theorem frame_complete (t : Bytes) : ¬ Incomplete (frame body sum ++ t) := by
  have htake : (frame body sum ++ t).take 4 = leBytes 4 (body.length + 4) := by
    rw [frame, List.append_assoc, List.append_assoc, List.take_left' (leBytes_length 4 _)]
  rw [Incomplete, htake, leNat_leBytes 4 _ hlt, frame]
  simp only [List.length_append, leBytes_length, hsum]
  omega

include hcrc

theorem frame_ne_record (h : r.Fits) (t t' : Bytes) : frame body sum ++ t ≠ r.bytes ++ t' := by
  intro heq
  rw [r.bytes_eq_frame, frame, frame] at heq
  simp only [List.append_assoc] at heq
  obtain ⟨hlen, hrest⟩ := List.append_inj heq (by rw [leBytes_length, leBytes_length])
  have hbody : body.length = r.body.length := by
    have hnum := congrArg leNat hlen
    rw [leNat_leBytes 4 _ hlt, leNat_leBytes 4 _ h.body_lt] at hnum
    omega
  obtain ⟨rfl, htail⟩ := List.append_inj hrest hbody
  obtain ⟨rfl, -⟩ := List.append_inj htail (by rw [hsum, leBytes_length])
  rw [leNat_leBytes 4 _ (crcChecksum_lt r.body)] at hcrc
  exact hcrc rfl

/-- **The reader refuses a record whose checksum does not match**, and never as the end of the file. -/
theorem readRecordFrom_mismatch (pos : ℕ) (t : Bytes) :
    ∃ e, readRecordFrom pos (frame body sum ++ t) = .error e ∧ e.isEOF = false := by
  rcases readRecordFrom_complete (frame_complete hsum hlt t) pos with hrefused | ⟨r, t', hfits, heq⟩
  · exact hrefused
  · exact absurd heq (frame_ne_record hsum hlt hcrc hfits t t')

theorem validateStoredRecord_mismatch :
    validateStoredRecord (frame body sum) = .error (.detail .corruptedData "checksum mismatch") := by
  have hlen : (frame body sum).length = body.length + 8 := by
    simp only [frame, List.length_append, leBytes_length, hsum]
    omega
  have e0 : slice (frame body sum) 0 4 = leBytes 4 (body.length + 4) :=
    slice_at (p := 0) (a := []) (t := body ++ sum) (by simp [frame]) rfl (by simp)
  have e1 : slice (frame body sum) (body.length + 8 - 4) (body.length + 8) = sum :=
    slice_at (p := 0) (a := leBytes 4 (body.length + 4) ++ body) (t := []) (by simp [frame]) (by simp; omega)
      (by rw [hsum]; omega)
  have e2 : slice (frame body sum) 4 (body.length + 8 - 4) = body :=
    slice_at (p := 0) (a := leBytes 4 (body.length + 4)) (t := sum) (by simp [frame]) (by simp) (by omega)
  unfold validateStoredRecord
  simp only [hlen, e0, e1, e2]
  rw [leNat_leBytes 4 _ hlt, if_neg (by omega), if_pos hcrc]

end

/-- **A change of at most four bytes of the hashed part, or of the checksum, leaves a checksum that does
not match.** -/
theorem RawRecord.damaged (r : RawRecord) {lo : ℕ} {y : Bytes} (hshort : y.length ≤ 4)
    (hin : (4 ≤ lo ∧ lo + y.length ≤ r.bytes.length - 4) ∨ (r.bytes.length - 4 ≤ lo ∧ lo + y.length ≤ r.bytes.length))
    (hne : writeAt r.bytes lo y ≠ r.bytes) :
    ∃ body sum, writeAt r.bytes lo y = frame body sum ∧ body.length = r.body.length ∧ sum.length = 4 ∧
      crcChecksum body ≠ leNat sum := by
  have hlen := r.bytes_length
  rcases hin with ⟨hlo, hhi⟩ | ⟨hlo, hhi⟩
  · obtain ⟨k, rfl⟩ := Nat.exists_eq_add_of_le hlo
    have hk : k + y.length ≤ r.body.length := by omega
    have hwrite : writeAt r.bytes (4 + k) y =
        leBytes 4 (r.body.length + 4) ++ writeAt r.body k y ++ leBytes 4 (crcChecksum r.body) := by
      have hmid := writeAt_mid (leBytes 4 (r.body.length + 4)) r.body (leBytes 4 (crcChecksum r.body)) y hk
      rwa [leBytes_length] at hmid
    have hbody : (writeAt r.body k y).length = r.body.length := by
      rw [writeAt_length]
      omega
    refine ⟨writeAt r.body k y, leBytes 4 (crcChecksum r.body), by rw [hwrite, frame, hbody], hbody,
      leBytes_length 4 _, fun heq => hne ?_⟩
    rw [leNat_leBytes 4 _ (crcChecksum_lt r.body), writeAt_inside _ _ hk] at heq
    have hslice : (slice r.body k (k + y.length)).length = y.length := by
      rw [slice_length _ _ _ hk]
      omega
    conv at heq => rhs; rw [split_at r.body k y.length]
    have hxy := crcChecksum_burst hslice.symm hshort _ _ heq
    rw [hwrite, writeAt_slice hk hxy]
    rfl
  · obtain ⟨k, rfl⟩ := Nat.exists_eq_add_of_le hlo
    have hk : k + y.length ≤ (leBytes 4 (crcChecksum r.body)).length := by
      rw [leBytes_length]
      omega
    have hwrite : writeAt r.bytes (r.bytes.length - 4 + k) y =
        leBytes 4 (r.body.length + 4) ++ r.body ++ writeAt (leBytes 4 (crcChecksum r.body)) k y := by
      have hmid := writeAt_mid (leBytes 4 (r.body.length + 4) ++ r.body) (leBytes 4 (crcChecksum r.body)) [] y hk
      have hfront : (leBytes 4 (r.body.length + 4) ++ r.body).length = r.bytes.length - 4 := by
        rw [List.length_append, leBytes_length]
        omega
      rwa [hfront, List.append_nil, List.append_nil] at hmid
    have hsum : (writeAt (leBytes 4 (crcChecksum r.body)) k y).length = 4 := by
      rw [writeAt_length, Nat.max_eq_left hk, leBytes_length]
    refine ⟨r.body, writeAt (leBytes 4 (crcChecksum r.body)) k y, hwrite, rfl, hsum, fun heq => hne ?_⟩
    rw [hwrite, ← leBytes_leNat_of_length hsum, ← heq]
    rfl

/-! ## A damaged length -/

/-- The length a record needs for the fields it announces, its checksum included. -/
def RawRecord.known (r : RawRecord) : ℕ := 20 + r.key.length + r.attributes.length + r.value.length

/-- A record behind another length, with `rest` where its extensions and its checksum were. -/
def RawRecord.relength (r : RawRecord) (b4 rest : Bytes) : Bytes :=
  b4 ++ (r.fixed ++ (r.key ++ (r.attributes ++ (r.value ++ rest))))

section
variable (h : r.Fits) {b4 : Bytes} (hb4 : b4.length = 4) (rest : Bytes) (pos : ℕ)
include h hb4

/-- What the reader has found when it comes to the extension area. -/
theorem readRecordFrom_fields :
    (∃ e, readRecordFrom pos (r.relength b4 rest) = .error e ∧ e.isEOF = false ∧
      ¬ (r.known ≤ leNat b4 ∧ leNat b4 ≤ r.known + maxExtensionsSize)) ∨
    (r.known ≤ leNat b4 ∧ leNat b4 ≤ r.known + maxExtensionsSize ∧
      (rest.length < leNat b4 - r.known + 4 →
        ∃ e, readRecordFrom pos (r.relength b4 rest) = .error e ∧ e.isEOF = true)) := by
  obtain ⟨hflags, hkey, hattr, hval⟩ := h.fixed_fields
  have hmin : recordMinimumLength = 20 := rfl
  have hknown : recordMinimumLength + r.key.length + r.attributes.length + r.value.length = r.known := rfl
  have h1 := h.key
  have h2 := h.attributes
  have h3 := h.value
  unfold readRecordFrom RawRecord.relength
  simp only [copyLimited_checked]
  rw [readBytes_bind 4 _ _ _ hb4]
  by_cases c1 : leNat b4 < recordMinimumLength
  · refine .inl ⟨_, reader_bind_error _ _ (reject_true _ c1 _), rfl, fun hlen => ?_⟩
    have := hlen.1
    omega
  rw [reject_bind _ _ _ c1, readBytes_bind recordFixedBodySize _ _ _ h.fixed_length, reject_bind _ _ _ (by omega)]
  by_cases c2 : recordMinimumLength + leNat (slice r.fixed 4 8) + leNat (slice r.fixed 8 12) +
      leNat (slice r.fixed 12 16) > leNat b4
  · exact .inl ⟨_, reader_bind_error _ _ (reject_true _ c2 _), rfl, fun hlen => absurd hlen.1 (by omega)⟩
  rw [reject_bind _ _ _ c2]
  by_cases c3 : leNat b4 - (recordMinimumLength + leNat (slice r.fixed 4 8) + leNat (slice r.fixed 8 12) +
      leNat (slice r.fixed 12 16)) > maxExtensionsSize
  · exact .inl ⟨_, reader_bind_error _ _ (reject_true _ c3 _), rfl, fun hlen => absurd hlen.2 (by omega)⟩
  rw [reject_bind _ _ _ c3, readBytes_bind _ _ _ _ hkey.symm, readBytes_bind _ _ _ _ hattr.symm,
    reader_bind_ok _ _ (readFull_append _ _ _ r.value _ hval.symm)]
  refine .inr ⟨by omega, by omega, fun hshort => ?_⟩
  have htorn : ∀ n (s : Bytes), s.length < n → ∃ e, readBytes n s = .error e ∧ e.isEOF = true := by
    intro n s hs
    refine ⟨_, readFull_short hs, ?_⟩
    split <;> rfl
  obtain ⟨n, hn⟩ : ∃ n, leNat b4 - (recordMinimumLength + leNat (slice r.fixed 4 8) + leNat (slice r.fixed 8 12) +
      leNat (slice r.fixed 12 16)) = n := ⟨_, rfl⟩
  rw [hn]
  -- the extension area is cut, or the checksum behind it is
  by_cases hext : rest.length < n
  · obtain ⟨e, he, heof⟩ := htorn n rest hext
    exact ⟨e, reader_bind_error _ _ he, heof⟩
  · obtain ⟨e, he, heof⟩ := htorn 4 (rest.drop n) (by rw [List.length_drop]; omega)
    rw [← List.take_append_drop n rest, readBytes_bind n _ _ _ (by rw [List.length_take]; omega)]
    exact ⟨e, reader_bind_error _ _ he, heof⟩

/-- **A record behind another length**: the reader refuses it; or takes it for one that the file does not
hold to its end; or finds a record with the same fields and other extensions. -/
theorem readRecordFrom_relength {ext sum t : Bytes} (hrest : rest = ext ++ (sum ++ t)) (hsum : sum.length = 4)
    (hlen : leNat b4 = r.known + ext.length) (hext : ext.length ≤ maxExtensionsSize) :
    (crcChecksum (r.fixed ++ r.key ++ r.attributes ++ r.value ++ ext) ≠ leNat sum ∧
      ∃ e, readRecordFrom pos (r.relength b4 rest) = .error e ∧ e.isEOF = false) ∨
    (crcChecksum (r.fixed ++ r.key ++ r.attributes ++ r.value ++ ext) = leNat sum ∧
      ({ r with extensions := ext } : RawRecord).Fits ∧
      r.relength b4 rest = ({ r with extensions := ext } : RawRecord).bytes ++ t) := by
  obtain ⟨r', hr'⟩ : ∃ r' : RawRecord, r' = { r with extensions := ext } := ⟨_, rfl⟩
  have hfits : r'.Fits := by
    rw [hr']
    exact ⟨h.reserved, h.key, h.attributes, h.value, hext⟩
  have hbody : r.fixed ++ r.key ++ r.attributes ++ r.value ++ ext = r'.body := by
    rw [hr']
    rfl
  have hbytes : r.relength b4 rest = frame r'.body sum ++ t := by
    have hb : leNat b4 = r'.body.length + 4 := by
      rw [hfits.body_length, hlen, hr', RawRecord.known]
      dsimp only
      omega
    rw [frame, ← hb, leBytes_leNat_of_length hb4, RawRecord.relength, hrest, ← hbody]
    simp only [List.append_assoc]
  rw [hbody, hbytes, ← hr']
  by_cases hcrc : crcChecksum r'.body = leNat sum
  · refine .inr ⟨hcrc, hfits, ?_⟩
    rw [r'.bytes_eq_frame, hcrc, leBytes_leNat_of_length hsum]
  · exact .inl ⟨hcrc, readRecordFrom_mismatch hsum hfits.body_lt hcrc pos t⟩

end

end AppendStore
