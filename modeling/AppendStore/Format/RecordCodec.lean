import AppendStore.Format.Record

/-! # Reader, validator and writer agree on a record

The reader's side is a chain of reads and checks. Forward, `readRecordFrom_bytes` runs the chain on
the encoding of an accepted record; backward, `readRecordFrom_ok` takes a successful chain apart and
reassembles the fields it has read. That a cut record is reported as the end of the file needs no
case split over the fields: every link of the chain is exact, so the chain is.
-/

namespace AppendStore
open Library
set_option autoImplicit false

/-! ## Steps of the chain -/

section
variable {β : Type}

theorem readBytes_bind (n : ℕ) (f : Bytes → Reader Err β) (c t : Bytes) (h : c.length = n) :
    (readBytes n >>= f) (c ++ t) = f c t :=
  reader_bind_ok _ _ (readFull_append _ _ n c t h)

theorem reject_bind {c : Prop} [Decidable c] (e : Err) (f : Unit → Reader Err β) (s : Bytes)
    (h : ¬ c) : (reject c e >>= f) s = f () s :=
  reader_bind_ok _ _ (reject_false e h s)

theorem require_bind {α : Type} (a : α) (context : Err → Err) (f : α → Reader Err β) (s : Bytes) :
    (require (.ok a) context >>= f) s = f a s :=
  reader_bind_ok _ _ rfl

theorem require_ok {α : Type} {r : Except Err α} {context : Err → Err} {s t : Bytes} {a : α}
    (h : require r context s = .ok (a, t)) : r = .ok a ∧ s = t := by
  cases r with
  | error e => cases h
  | ok x =>
    cases h
    exact ⟨rfl, rfl⟩

end

/-- An error that makes the scan stop at a torn record. -/
def Torn (e : Err) : Prop := e.isEOF = true

theorem torn_eof : Torn (.sentinel .eof) := rfl

theorem torn_unexpectedEOF : Torn (.sentinel .unexpectedEOF) := rfl

theorem exact_readBytes (n : ℕ) : Exact Torn (readBytes n) :=
  exact_readFull torn_eof torn_unexpectedEOF n

theorem exact_require {α : Type} (r : Except Err α) (context : Err → Err) :
    Exact Torn (require r context) := by
  cases r with
  | error e => exact exact_throw _
  | ok a => exact exact_pure a

theorem readRecordFrom_exact (pos : ℕ) : Exact Torn (readRecordFrom pos) := by
  unfold readRecordFrom
  simp only [copyLimited_checked]
  refine exact_bind (exact_readBytes _) fun _ => ?_
  refine exact_bind (exact_reject _ _) fun _ => ?_
  refine exact_bind (exact_readBytes _) fun _ => ?_
  iterate 3 refine exact_bind (exact_reject _ _) fun _ => ?_
  iterate 2 refine exact_bind (exact_readBytes _) fun _ => ?_
  refine exact_bind (exact_readFull torn_unexpectedEOF torn_unexpectedEOF _) fun _ => ?_
  iterate 2 refine exact_bind (exact_readBytes _) fun _ => ?_
  refine exact_bind (exact_reject _ _) fun _ => ?_
  iterate 2 refine exact_bind (exact_require _ _) fun _ => ?_
  exact exact_pure _

/-! ## Forward -/

variable {r : RawRecord} {m : Attributes}

/-- The checksum of the pieces, in the order in which the reader hashes them. -/
theorem RawRecord.crc_pieces (r : RawRecord) :
    crcUpdate (crcUpdate (crcUpdate (crcUpdate (crcUpdate 0 r.fixed) r.key) r.attributes) r.value)
      r.extensions = crcChecksum r.body := by
  simp only [crcUpdate_append]
  rfl

theorem RawRecord.bytes_split (r : RawRecord) (t : Bytes) : r.bytes ++ t =
    leBytes 4 (r.body.length + 4) ++ (r.fixed ++ (r.key ++ (r.attributes ++ (r.value ++
      (r.extensions ++ (leBytes 4 (crcChecksum r.body) ++ t)))))) := by
  rw [RawRecord.bytes, RawRecord.body]
  simp only [List.append_assoc]

/-- What the reader does on the encoding of fields that fit, up to the two nested areas. -/
theorem readRecordFrom_fits (h : r.Fits) (pos : ℕ) (t : Bytes) :
    readRecordFrom pos (r.bytes ++ t) =
      ((require (validateExtensions r.extensions) id) >>= fun _ =>
        (require (decodeAttributes r.attributes) (.wrap "decode attributes")) >>= fun attributes =>
          pure (r.entry pos attributes, pos + r.bytes.length)) t := by
  obtain ⟨hflags, hkey, hattr, hval⟩ := h.fixed_fields
  have hlen := h.body_length
  have hlt := h.body_lt
  have hrl : leNat (leBytes 4 (r.body.length + 4)) = r.body.length + 4 := leNat_leBytes 4 _ hlt
  have hcrc : leNat (leBytes 4 (crcChecksum r.body)) = crcChecksum r.body :=
    leNat_leBytes 4 _ (crcChecksum_lt r.body)
  have hmin : recordMinimumLength = 20 := rfl
  rw [r.bytes_split t]
  unfold readRecordFrom
  simp only [copyLimited_checked]
  rw [readBytes_bind 4 _ _ _ (leBytes_length 4 _)]
  simp only [hrl]
  rw [reject_bind _ _ _ (by omega)]
  rw [readBytes_bind recordFixedBodySize _ _ _ h.fixed_length]
  simp only [hflags, hkey, hattr, hval]
  have h1 := h.key
  have h2 := h.attributes
  have h3 := h.value
  have h4 := h.extensions
  have hext : r.body.length + 4 - (recordMinimumLength + r.key.length + r.attributes.length +
      r.value.length) = r.extensions.length := by omega
  rw [reject_bind _ _ _ (by omega), reject_bind _ _ _ (by omega)]
  simp only [hext]
  rw [reject_bind _ _ _ (by omega), readBytes_bind _ _ _ _ rfl, readBytes_bind _ _ _ _ rfl]
  rw [reader_bind_ok _ _ (readFull_append _ _ _ r.value _ rfl), readBytes_bind _ _ _ _ rfl]
  rw [readBytes_bind 4 _ _ _ (leBytes_length 4 _)]
  rw [reject_bind _ _ _ (by rw [hcrc, r.crc_pieces]; simp)]
  have hpos : pos + 4 + recordFixedBodySize + r.key.length + r.attributes.length + r.value.length +
      r.extensions.length + 4 = pos + r.bytes.length := by
    rw [r.bytes_length, hlen]
    simp only [recordFixedBodySize]
    omega
  have hoff : pos + 4 + recordFixedBodySize + r.key.length + r.attributes.length =
      pos + 20 + r.key.length + r.attributes.length := by
    simp only [recordFixedBodySize]
  have hstored : r.body.length + 4 + 4 = r.bytes.length := r.bytes_length.symm
  simp only [hpos]
  simp only [hoff, hstored, RawRecord.entry]

theorem readRecordFrom_bytes (h : r.Accepted m) (pos : ℕ) (t : Bytes) :
    readRecordFrom pos (r.bytes ++ t) = .ok ((r.entry pos m, pos + r.bytes.length), t) := by
  rw [readRecordFrom_fits h.fits, h.framed, h.decoded, require_bind, require_bind]
  rfl

/-! ## Backward -/

/-- Sixteen bytes are the fixed part of the record whose fields they announce. -/
theorem fixed_of_bytes {b key attributes value : Bytes} (extensions : Bytes) (hb : b.length = 16)
    (hk : key.length = leNat (slice b 4 8)) (ha : attributes.length = leNat (slice b 8 12))
    (hv : value.length = leNat (slice b 12 16)) :
    (RawRecord.mk (b.headD 0) (slice b 1 4) key attributes value extensions).fixed = b := by
  have l4 : (slice b 4 8).length = 4 := slice_length b 4 8 (by omega)
  have l8 : (slice b 8 12).length = 4 := slice_length b 8 12 (by omega)
  have l12 : (slice b 12 16).length = 4 := slice_length b 12 16 (by omega)
  have hhead : b = [b.headD 0] ++ b.drop 1 := by
    cases b with
    | nil => simp at hb
    | cons x xs => rfl
  have hend : b.drop 16 = [] := List.drop_eq_nil_of_le (by omega)
  simp only [RawRecord.fixed, hk, ha, hv]
  rw [leBytes_leNat_of_length l4, leBytes_leNat_of_length l8, leBytes_leNat_of_length l12]
  have e1 := drop_split b 1 3
  have e4 := drop_split b 4 4
  have e8 := drop_split b 8 4
  have e12 := drop_split b 12 4
  rw [hend, List.append_nil] at e12
  rw [e12] at e8
  rw [e8] at e4
  rw [e4] at e1
  conv_rhs => rw [hhead, e1]
  simp only [List.append_assoc]

/-- The pieces of a record that the reader finds in order, with lengths as announced and a checksum
that matches, are the encoding of a record. -/
theorem RawRecord.of_pieces {b4 fx key attributes value extensions sum : Bytes} (hb4 : b4.length = 4)
    (hfx : fx.length = 16) (hkey : key.length = leNat (slice fx 4 8))
    (hattr : attributes.length = leNat (slice fx 8 12)) (hval : value.length = leNat (slice fx 12 16))
    (hext : extensions.length = leNat b4 - (recordMinimumLength + leNat (slice fx 4 8) +
      leNat (slice fx 8 12) + leNat (slice fx 12 16))) (hsum : sum.length = 4)
    (hlimits : ¬ (leNat (slice fx 4 8) > maxKeySize ∨ leNat (slice fx 8 12) > maxAttributesSize ∨
      leNat (slice fx 12 16) > maxValueSize))
    (hknown : ¬ recordMinimumLength + leNat (slice fx 4 8) + leNat (slice fx 8 12) +
      leNat (slice fx 12 16) > leNat b4)
    (hextmax : ¬ leNat b4 - (recordMinimumLength + leNat (slice fx 4 8) + leNat (slice fx 8 12) +
      leNat (slice fx 12 16)) > maxExtensionsSize)
    (hcrc : crcUpdate (crcUpdate (crcUpdate (crcUpdate (crcUpdate 0 fx) key) attributes) value) extensions =
      leNat sum) :
    ∃ r : RawRecord, r.Fits ∧ r = ⟨fx.headD 0, slice fx 1 4, key, attributes, value, extensions⟩ ∧
      leNat b4 = r.body.length + 4 ∧
      ∀ t, b4 ++ (fx ++ (key ++ (attributes ++ (value ++ (extensions ++ (sum ++ t)))))) = r.bytes ++ t := by
  push Not at hlimits hknown hextmax
  have hfixed := fixed_of_bytes extensions hfx hkey hattr hval
  set r : RawRecord := ⟨fx.headD 0, slice fx 1 4, key, attributes, value, extensions⟩ with hr
  have hfits : r.Fits := by
    refine ⟨?_, ?_, ?_, ?_, ?_⟩
    · exact slice_length fx 1 4 (by rw [hfx]; decide)
    · exact hkey.le.trans hlimits.1
    · exact hattr.le.trans hlimits.2.1
    · exact hval.le.trans hlimits.2.2
    · exact hext.le.trans hextmax
  have hbody : r.body = fx ++ key ++ attributes ++ value ++ extensions := by
    rw [RawRecord.body, hfixed]
  have hblen := hfits.body_length
  have hmin : recordMinimumLength = 20 := rfl
  have hkey' : r.key.length = leNat (slice fx 4 8) := hkey
  have hattr' : r.attributes.length = leNat (slice fx 8 12) := hattr
  have hval' : r.value.length = leNat (slice fx 12 16) := hval
  have hext' : r.extensions.length = leNat b4 -
    (recordMinimumLength + leNat (slice fx 4 8) + leNat (slice fx 8 12) + leNat (slice fx 12 16)) := hext
  have hrl : leNat b4 = r.body.length + 4 := by omega
  have hsum' : leNat sum = crcChecksum r.body := by
    rw [← hcrc, hbody]
    simp only [crcUpdate_append]
    rfl
  refine ⟨r, hfits, rfl, hrl, ?_⟩
  intro t
  rw [r.bytes_split, hfixed, ← hrl, ← hsum', leBytes_leNat_of_length hb4, leBytes_leNat_of_length hsum]

theorem readRecordFrom_ok {pos : ℕ} {s t : Bytes} {out : LogRecord × ℕ}
    (h : readRecordFrom pos s = .ok (out, t)) :
    ∃ r m, RawRecord.Accepted r m ∧ s = r.bytes ++ t ∧ out = (r.entry pos m, pos + r.bytes.length) := by
  have hread := h
  unfold readRecordFrom at h
  simp only [copyLimited_checked] at h
  obtain ⟨b4, s1, h1, g1⟩ := reader_bind_inv h
  obtain ⟨rfl, hb4⟩ := readFull_ok h1
  obtain ⟨_, _, h2, g2⟩ := reader_bind_inv g1
  obtain ⟨c1, rfl⟩ := reject_ok h2
  obtain ⟨fx, s2, h3, g3⟩ := reader_bind_inv g2
  obtain ⟨rfl, hfx⟩ := readFull_ok h3
  obtain ⟨_, _, h4, g4⟩ := reader_bind_inv g3
  obtain ⟨c2, rfl⟩ := reject_ok h4
  obtain ⟨_, _, h5, g5⟩ := reader_bind_inv g4
  obtain ⟨c3, rfl⟩ := reject_ok h5
  obtain ⟨_, _, h6, g6⟩ := reader_bind_inv g5
  obtain ⟨c4, rfl⟩ := reject_ok h6
  obtain ⟨key, s3, h7, g7⟩ := reader_bind_inv g6
  obtain ⟨rfl, hkey⟩ := readFull_ok h7
  obtain ⟨attributes, s4, h8, g8⟩ := reader_bind_inv g7
  obtain ⟨rfl, hattr⟩ := readFull_ok h8
  obtain ⟨value, s5, h9, g9⟩ := reader_bind_inv g8
  obtain ⟨rfl, hval⟩ := readFull_ok h9
  obtain ⟨extensions, s6, h10, g10⟩ := reader_bind_inv g9
  obtain ⟨rfl, hext⟩ := readFull_ok h10
  obtain ⟨sum, s7, h11, g11⟩ := reader_bind_inv g10
  obtain ⟨rfl, hsum⟩ := readFull_ok h11
  obtain ⟨_, _, h12, g12⟩ := reader_bind_inv g11
  obtain ⟨c5, rfl⟩ := reject_ok h12
  obtain ⟨_, _, h13, g13⟩ := reader_bind_inv g12
  obtain ⟨c6, rfl⟩ := require_ok h13
  obtain ⟨m, _, h14, g14⟩ := reader_bind_inv g13
  obtain ⟨c7, rfl⟩ := require_ok h14
  obtain ⟨r, hfits, rfl, -, hs⟩ := RawRecord.of_pieces hb4 hfx hkey hattr hval hext hsum c2 c3 c4 (not_not.mp c5)
  have hacc : RawRecord.Accepted _ m := ⟨hfits, c6, c7⟩
  rw [hs, readRecordFrom_bytes hacc] at hread
  cases hread
  exact ⟨_, m, hacc, hs _, rfl⟩

/-- Fewer bytes than a record announces in its first four, or not even those. -/
def Incomplete (b : Bytes) : Prop := b.length < 4 ∨ b.length < 4 + leNat (b.take 4)

instance (b : Bytes) : Decidable (Incomplete b) := by unfold Incomplete; infer_instance

theorem RawRecord.Fits.complete (h : r.Fits) (t : Bytes) : ¬ Incomplete (r.bytes ++ t) := by
  have hlen := r.bytes_length
  have htake : (r.bytes ++ t).take 4 = leBytes 4 (r.body.length + 4) := by
    rw [r.bytes_split, List.take_left' (leBytes_length 4 _)]
  rw [Incomplete, htake, leNat_leBytes 4 _ h.body_lt, List.length_append]
  omega

/-- **Bytes that hold as much as they announce** are refused for what they hold, or are the encoding of
a record up to its two nested areas. -/
theorem readRecordFrom_complete {b : Bytes} (h : ¬ Incomplete b) (pos : ℕ) :
    (∃ e, readRecordFrom pos b = .error e ∧ e.isEOF = false) ∨
      ∃ (r : RawRecord) (t : Bytes), r.Fits ∧ b = r.bytes ++ t := by
  obtain ⟨h4, hall⟩ := not_or.mp h
  have hmin : recordMinimumLength = 20 := rfl
  have hb4 : (b.take 4).length = 4 := by rw [List.length_take]; omega
  obtain ⟨s1, hs1⟩ : ∃ s1, s1 = b.drop 4 := ⟨_, rfl⟩
  obtain ⟨b4, hb4eq⟩ : ∃ b4, b4 = b.take 4 := ⟨_, rfl⟩
  have hb : b = b4 ++ s1 := by rw [hb4eq, hs1, List.take_append_drop]
  rw [← hb4eq] at hb4 hall
  have hlen1 : leNat b4 ≤ s1.length := by
    rw [hs1, List.length_drop]
    omega
  rw [hb]
  unfold readRecordFrom
  simp only [copyLimited_checked]
  rw [readBytes_bind 4 _ _ _ hb4]
  by_cases c1 : leNat b4 < recordMinimumLength
  · exact .inl ⟨_, reader_bind_error _ _ (reject_true _ c1 _), rfl⟩
  rw [reject_bind _ _ _ c1]
  obtain ⟨fx, s2, rfl, hfx⟩ : ∃ fx s2, s1 = fx ++ s2 ∧ fx.length = 16 :=
    ⟨s1.take 16, s1.drop 16, (List.take_append_drop _ _).symm, by rw [List.length_take]; omega⟩
  rw [List.length_append] at hlen1
  rw [readBytes_bind recordFixedBodySize _ _ _ hfx]
  by_cases c2 : leNat (slice fx 4 8) > maxKeySize ∨ leNat (slice fx 8 12) > maxAttributesSize ∨
      leNat (slice fx 12 16) > maxValueSize
  · exact .inl ⟨_, reader_bind_error _ _ (reject_true _ c2 _), rfl⟩
  rw [reject_bind _ _ _ c2]
  by_cases c3 : recordMinimumLength + leNat (slice fx 4 8) + leNat (slice fx 8 12) + leNat (slice fx 12 16) >
      leNat b4
  · exact .inl ⟨_, reader_bind_error _ _ (reject_true _ c3 _), rfl⟩
  rw [reject_bind _ _ _ c3]
  by_cases c4 : leNat b4 - (recordMinimumLength + leNat (slice fx 4 8) + leNat (slice fx 8 12) +
      leNat (slice fx 12 16)) > maxExtensionsSize
  · exact .inl ⟨_, reader_bind_error _ _ (reject_true _ c4 _), rfl⟩
  rw [reject_bind _ _ _ c4]
  -- what is left has room for every field
  have hsplit : ∀ (n : ℕ) (s : Bytes), n ≤ s.length → ∃ c t, s = c ++ t ∧ c.length = n ∧
      t.length = s.length - n := by
    intro n s hn
    exact ⟨s.take n, s.drop n, (List.take_append_drop _ _).symm, by rw [List.length_take]; omega, by simp⟩
  obtain ⟨key, s3, rfl, hkey, hl3⟩ := hsplit (leNat (slice fx 4 8)) s2 (by omega)
  obtain ⟨attributes, s4, rfl, hattr, hl4⟩ := hsplit (leNat (slice fx 8 12)) s3 (by omega)
  obtain ⟨value, s5, rfl, hval, hl5⟩ := hsplit (leNat (slice fx 12 16)) s4 (by omega)
  obtain ⟨extensions, s6, rfl, hext, hl6⟩ := hsplit (leNat b4 - (recordMinimumLength + leNat (slice fx 4 8) +
    leNat (slice fx 8 12) + leNat (slice fx 12 16))) s5 (by omega)
  obtain ⟨sum, t, rfl, hsum, -⟩ := hsplit 4 s6 (by omega)
  rw [readBytes_bind _ _ _ _ hkey, readBytes_bind _ _ _ _ hattr,
    reader_bind_ok _ _ (readFull_append _ _ _ value _ hval), readBytes_bind _ _ _ _ hext,
    readBytes_bind 4 _ _ _ hsum]
  by_cases c5 : crcUpdate (crcUpdate (crcUpdate (crcUpdate (crcUpdate 0 fx) key) attributes) value) extensions ≠
      leNat sum
  · exact .inl ⟨_, reader_bind_error _ _ (reject_true _ c5 _), rfl⟩
  obtain ⟨r, hfits, -, -, hs⟩ := RawRecord.of_pieces hb4 hfx hkey hattr hval hext hsum c2 c3 c4 (not_not.mp c5)
  exact .inr ⟨r, t, hfits, hs t⟩

theorem validateExtensionsFrom_error {extensions : Bytes} {fuel pos : ℕ} {e : Err}
    (h : validateExtensionsFrom extensions fuel pos = .error e) : e.isEOF = false := by
  induction fuel generalizing pos with
  | zero => cases h
  | succ fuel ih =>
    rw [validateExtensionsFrom] at h
    split at h
    · split at h
      · cases h
        rfl
      · dsimp only at h
        split at h
        · cases h
          rfl
        · exact ih h
    · cases h

/-- A complete record whose attribute block ends inside an entry. The decoder reports that with the
error for the end of a file. -/
structure RawRecord.ShortAttributes (r : RawRecord) (e : Err) : Prop where
  fits : r.Fits
  framed : validateExtensions r.extensions = .ok ()
  short : decodeAttributes r.attributes = .error e
  eof : e.isEOF = true

theorem readRecordFrom_shortAttributes {e : Err} (h : r.ShortAttributes e) (pos : ℕ) (t : Bytes) :
    readRecordFrom pos (r.bytes ++ t) = .error (.wrap "decode attributes" e) := by
  rw [readRecordFrom_fits h.fits, h.framed, require_bind, h.short]
  rfl

/-- **When the reader reports the end of the file.** -/
theorem readRecordFrom_eof {b : Bytes} {pos : ℕ} {e : Err} (h : readRecordFrom pos b = .error e)
    (heof : e.isEOF = true) :
    Incomplete b ∨ ∃ (r : RawRecord) (t : Bytes) (e' : Err), r.ShortAttributes e' ∧ b = r.bytes ++ t := by
  by_cases hinc : Incomplete b
  · exact .inl hinc
  right
  rcases readRecordFrom_complete hinc pos with ⟨e', he', hno⟩ | ⟨r, t, hfits, rfl⟩
  · rw [he'] at h
    cases h
    rw [hno] at heof
    cases heof
  · rw [readRecordFrom_fits hfits] at h
    cases hframed : validateExtensions r.extensions with
    | error e' =>
      rw [hframed] at h
      cases h
      rw [id_eq, validateExtensionsFrom_error hframed] at heof
      cases heof
    | ok u =>
      rw [hframed, require_bind] at h
      cases hdecode : decodeAttributes r.attributes with
      | error e' =>
        rw [hdecode] at h
        cases h
        exact ⟨r, t, e', ⟨hfits, hframed, hdecode, heof⟩, rfl⟩
      | ok m =>
        rw [hdecode, require_bind] at h
        cases h

/-- A proper initial part of an accepted record is reported as the end of the file. -/
theorem readRecordFrom_torn (h : r.Accepted m) (pos : ℕ) {q t : Bytes} (hq : r.bytes = q ++ t)
    (ht : t ≠ []) : ∃ e, readRecordFrom pos q = .error e ∧ e.isEOF = true := by
  have hok := readRecordFrom_bytes h pos []
  obtain ⟨c, hc, -, htorn⟩ := readRecordFrom_exact pos _ _ _ hok
  rw [List.append_nil, List.append_nil] at hc
  exact htorn q t (by rw [← hc, hq]) ht

/-! ## The validator -/

def RawRecord.bounds (r : RawRecord) : RecordBounds where
  valueStart := 20 + r.key.length + r.attributes.length
  valueLen := r.value.length
  extensionsStart := 20 + r.key.length + r.attributes.length + r.value.length
  extensionsLen := r.extensions.length

theorem RawRecord.Fits.slice_value (h : r.Fits) :
    slice r.bytes r.bounds.valueStart (r.bounds.valueStart + r.bounds.valueLen) = r.value := by
  have hf := h.fixed_length
  exact slice_at (p := 0)
    (a := leBytes 4 (r.body.length + 4) ++ r.fixed ++ r.key ++ r.attributes)
    (t := r.extensions ++ leBytes 4 (crcChecksum r.body))
    (by simp [RawRecord.bytes, RawRecord.body]) (by simp [RawRecord.bounds, hf]; omega) rfl

theorem RawRecord.Fits.slice_extensions (h : r.Fits) :
    slice r.bytes r.bounds.extensionsStart (r.bounds.extensionsStart + r.bounds.extensionsLen) =
      r.extensions := by
  have hf := h.fixed_length
  exact slice_at (p := 0)
    (a := leBytes 4 (r.body.length + 4) ++ r.fixed ++ r.key ++ r.attributes ++ r.value)
    (t := leBytes 4 (crcChecksum r.body))
    (by simp [RawRecord.bytes, RawRecord.body]) (by simp [RawRecord.bounds, hf]; omega) rfl

/-- A field of the fixed part, as the validator finds it in the stored record. -/
theorem RawRecord.Fits.slice_fixed (h : r.Fits) (lo hi : ℕ) (hhi : hi ≤ 16) :
    slice r.bytes (4 + lo) (4 + hi) = slice r.fixed lo hi := by
  have hf := h.fixed_length
  have e : r.bytes = leBytes 4 (r.body.length + 4) ++ (r.fixed ++ (r.key ++ r.attributes ++ r.value ++
      r.extensions ++ leBytes 4 (crcChecksum r.body))) := by
    simp [RawRecord.bytes, RawRecord.body]
  have h1 := slice_append_right (leBytes 4 (r.body.length + 4)) (r.fixed ++ (r.key ++ r.attributes ++
    r.value ++ r.extensions ++ leBytes 4 (crcChecksum r.body))) lo hi
  rw [leBytes_length] at h1
  rw [e, h1, slice_append_left _ _ _ _ (by omega)]

theorem validateStoredRecord_bytes (h : r.Fits) : validateStoredRecord r.bytes = .ok r.bounds := by
  obtain ⟨-, hkey, hattr, hval⟩ := h.fixed_fields
  have hlen := h.body_length
  have hbl := r.bytes_length
  have hlt := h.body_lt
  have hmin : recordMinimumLength = 20 := rfl
  have e0 : slice r.bytes 0 4 = leBytes 4 (r.body.length + 4) :=
    slice_at (p := 0) (a := []) (t := r.body ++ leBytes 4 (crcChecksum r.body))
      (by simp [RawRecord.bytes]) rfl (by simp)
  have e1 : slice r.bytes (r.bytes.length - 4) r.bytes.length = leBytes 4 (crcChecksum r.body) :=
    slice_at (p := 0) (a := leBytes 4 (r.body.length + 4) ++ r.body) (t := [])
      (by simp [RawRecord.bytes]) (by rw [hbl]; simp; omega) (by rw [hbl]; simp)
  have e2 : slice r.bytes 4 (r.bytes.length - 4) = r.body :=
    slice_at (p := 0) (a := leBytes 4 (r.body.length + 4)) (t := leBytes 4 (crcChecksum r.body))
      (by simp [RawRecord.bytes]) (by simp) (by rw [hbl]; omega)
  have e3 := h.slice_fixed 4 8 (by omega)
  have e4 := h.slice_fixed 8 12 (by omega)
  have e5 := h.slice_fixed 12 16 (by omega)
  norm_num at e3 e4 e5
  unfold validateStoredRecord
  simp only [e0, e1, e2, e3, e4, e5, hkey, hattr, hval]
  rw [leNat_leBytes 4 _ hlt, leNat_leBytes 4 _ (crcChecksum_lt r.body)]
  rw [if_neg (by omega), if_neg (by simp), if_neg (by omega)]
  simp only [RawRecord.bounds, recordFieldsOffset, recordFixedBodySize]
  congr 2
  omega

/-! ## The writer -/

/-- The record `Append` writes. -/
def appendRaw (key attributesBytes value extensions : Bytes) (deleted : Bool) : RawRecord where
  flags := if deleted then 1 else 0
  reserved := [0, 0, 0]
  key := key
  attributes := attributesBytes
  value := value
  extensions := extensions

/-- **The bytes written do not depend on what the reused buffer held.** -/
theorem fillRecord_eq (buf key attributesBytes value extensions : Bytes) (deleted : Bool)
    (hbuf : buf.length = 4 + (recordMinimumLength +
      (key.length + attributesBytes.length + value.length + extensions.length))) :
    fillRecord buf key attributesBytes value extensions deleted =
      (appendRaw key attributesBytes value extensions deleted).bytes := by
  set rl := recordMinimumLength +
    (key.length + attributesBytes.length + value.length + extensions.length) with hrl
  have hmin : recordMinimumLength = 20 := rfl
  set r := appendRaw key attributesBytes value extensions deleted with hr
  have hbody : r.body.length + 4 = rl := by
    simp [hr, RawRecord.body, RawRecord.fixed, appendRaw]
    omega
  unfold fillRecord
  rw [← hrl]
  -- the length and the flag byte, which is stored twice for a tombstone
  have s0 := copyInto_next [] buf (leBytes 4 rl) (by simp; omega) 0 rfl
  rw [List.nil_append, List.nil_append] at s0
  have s1 : copyInto (leBytes 4 rl ++ buf.drop 4) 4 [0] = leBytes 4 rl ++ [0] ++ (buf.drop 4).drop 1 :=
    copyInto_next (leBytes 4 rl) (buf.drop 4) [0] (by simp; omega) 4 (by simp)
  have s2 : copyInto (leBytes 4 rl ++ [0] ++ (buf.drop 4).drop 1) 4 [1] =
      leBytes 4 rl ++ [1] ++ (buf.drop 4).drop 1 := by
    rw [List.append_assoc]
    exact copyInto_next (leBytes 4 rl) ([0] ++ (buf.drop 4).drop 1) [1] (by simp) 4 (by simp)
  have sflag : (if deleted then copyInto (leBytes 4 rl ++ [0] ++ (buf.drop 4).drop 1) 4 [1]
      else leBytes 4 rl ++ [0] ++ (buf.drop 4).drop 1) = leBytes 4 rl ++ [r.flags] ++ buf.drop 5 := by
    rw [s2, List.drop_drop]
    cases deleted <;> rfl
  simp only [s0, leBytes_length, s1, sflag]
  -- every later store is right behind the ones before it
  rw [copyInto_next (leBytes 4 rl ++ [r.flags]) (buf.drop 5) [0, 0, 0] (by simp; omega) 5 (by simp)]
  rw [copyInto_next _ _ (leBytes 4 key.length) (by simp; omega) 8 (by simp)]
  rw [copyInto_next _ _ (leBytes 4 attributesBytes.length) (by simp; omega) 12 (by simp)]
  rw [copyInto_next _ _ (leBytes 4 value.length) (by simp; omega) 16 (by simp)]
  rw [copyInto_next _ _ key (by simp; omega) 20 (by simp)]
  rw [copyInto_next _ _ attributesBytes (by simp; omega) (20 + key.length) (by simp; omega)]
  rw [copyInto_next _ _ value (by simp; omega) (20 + key.length + attributesBytes.length)
    (by simp; omega)]
  rw [copyInto_next _ _ extensions (by simp; omega)
    (20 + key.length + attributesBytes.length + value.length) (by simp; omega)]
  have hdone : leBytes 4 rl ++ [r.flags] ++ [0, 0, 0] ++ leBytes 4 key.length ++
      leBytes 4 attributesBytes.length ++ leBytes 4 value.length ++ key ++ attributesBytes ++ value ++
      extensions = leBytes 4 rl ++ r.body := by
    simp [hr, RawRecord.body, RawRecord.fixed, appendRaw]
  rw [hdone]
  have hslice : ∀ t, slice (leBytes 4 rl ++ r.body ++ t) 4
      (20 + key.length + attributesBytes.length + value.length + extensions.length) = r.body := by
    intro t
    exact slice_at (p := 0) (a := leBytes 4 rl) (t := t) (by simp) (by simp) (by omega)
  rw [hslice, copyInto_next (leBytes 4 rl ++ r.body) _ _ (by simp; omega) _ (by simp; omega)]
  have hdrop : ∀ b : Bytes, b.length ≤ 4 → b.drop 4 = [] := fun b hb => List.drop_eq_nil_of_le hb
  rw [leBytes_length, hdrop _ (by simp; omega), List.append_nil, RawRecord.bytes, hbody]

/-- What `Append` accepts is within every limit of the reader. -/
theorem appendLimits_ok {key value : Bytes} {attributes : AttributeRange} {extensions ab : Bytes}
    (h : appendLimits key value attributes extensions = .ok ab) (deleted : Bool) :
    encodeAttributes attributes = .ok ab ∧
      (appendRaw key ab value extensions deleted).Accepted attributes.toFinmap := by
  unfold appendLimits at h
  split at h
  · cases h
  rename_i c1
  split at h
  · cases h
  rename_i c2
  split at h
  · cases h
  rename_i c3
  split at h
  · cases h
  rename_i c4
  split at h
  · cases h
  rename_i ab' c5
  dsimp only at h
  split at h
  · cases h
  cases h
  refine ⟨c5, ⟨rfl, ?_, encodeAttributes_length c5, ?_, ?_⟩, c4, decodeAttributes_encode c5⟩
  · exact not_lt.mp c1
  · exact not_lt.mp c2
  · exact not_lt.mp c3

/-- The limits on the fields, met by what the reader accepts, are all that `Append` checks. -/
theorem appendLimits_eq {key value : Bytes} {attributes : AttributeRange} {extensions ab : Bytes}
    (hkey : key.length ≤ maxKeySize) (hval : value.length ≤ maxValueSize)
    (hext : extensions.length ≤ maxExtensionsSize) (hframed : validateExtensions extensions = .ok ())
    (hattr : encodeAttributes attributes = .ok ab) :
    appendLimits key value attributes extensions = .ok ab := by
  have hsize := encodeAttributes_length hattr
  have h1 : maxKeySize = 1048576 := by decide
  have h2 : maxAttributesSize = 16777216 := by decide
  have h3 : maxValueSize = 2147483647 := by decide
  have h4 : maxExtensionsSize = 16777216 := by decide
  have h5 : maxUint32 = 4294967295 := by decide
  have h6 : recordMinimumLength = 20 := rfl
  unfold appendLimits
  rw [if_neg (by omega), if_neg (by omega), if_neg (by omega), hframed, hattr]
  dsimp only
  rw [if_neg (by omega)]

end AppendStore
