import AppendStore.Log.AppendLog
import AppendStore.Library.Journal

/-! # Records as units

`Rec version` is a record of a log of the given version with all that the rest of the development
needs of it: what the scan makes of its bytes, that every proper initial part of them is reported
as the end of the file, what the point readers find in them, and that its fields are within the
limits of `Append`. The four formats differ below this line and not above it. Every record the scan
delivers is one (`readRecord_ok`).

A log file is a header and the bytes of a list of records, one after the other.
-/

namespace AppendStore
open Library
set_option autoImplicit false

structure Rec (version : ℕ) where
  bytes : Bytes
  key : Bytes
  value : Bytes
  deleted : Bool
  attributes : Attributes
  extensions : Bytes
  /-- Where the value starts in the bytes. -/
  valueAt : ℕ
  scanned : ∀ pos t, AppendLog.readRecord version pos (bytes ++ t) =
    .ok ((⟨key, pos + valueAt, value.length, pos, bytes.length, deleted, attributes⟩,
      pos + bytes.length), t)
  torn : ∀ pos q t, bytes = q ++ t → t ≠ [] →
    ∃ e, AppendLog.readRecord version pos q = .error e ∧ e.isEOF = true
  nonempty : 0 < bytes.length
  valueEnd : valueAt + value.length ≤ bytes.length
  valueSlice : slice bytes valueAt (valueAt + value.length) = value
  keyLimit : key.length ≤ maxKeySize
  valueLimit : value.length ≤ maxValueSize
  extensionsLimit : extensions.length ≤ maxExtensionsSize
  framed : validateExtensions extensions = .ok ()
  encodable : Encodable (enumerate attributes).entries
  stored : 4 ≤ version → checkStoredSize bytes.length = .ok () ∧
    AppendLog.storedValue bytes = .ok value ∧
    AppendLog.storedValueAndExtensions bytes = .ok (value, extensions)
  storedSize : 4 ≤ version → bytes.length = 24 + key.length +
    (attributeBlock (enumerate attributes).entries).length + value.length + extensions.length
  extensionsSlice : 4 ≤ version →
    slice bytes (valueAt + value.length) (bytes.length - 4) = extensions
  legacyExtensions : version < 4 → extensions = []

/-! ## Records of each format -/

theorem RawRecord.Accepted.stored {r : RawRecord} {m : Attributes} (h : r.Accepted m) :
    checkStoredSize r.bytes.length = .ok () ∧ AppendLog.storedValue r.bytes = .ok r.value ∧
      AppendLog.storedValueAndExtensions r.bytes = .ok (r.value, r.extensions) := by
  have hvalid := validateStoredRecord_bytes h.fits
  have hval := h.fits.slice_value
  have hext := h.fits.slice_extensions
  have hlen := r.bytes_length
  have hbody := h.fits.body_length
  have hlt := h.fits.body_lt
  have hmax : maxInt = 9223372036854775807 := by decide
  have hmin : recordMinimumLength = 20 := rfl
  refine ⟨?_, ?_, ?_⟩
  · unfold checkStoredSize
    rw [if_neg (by omega)]
  · simp only [AppendLog.storedValue, hvalid, hval]
  · simp only [AppendLog.storedValueAndExtensions, hvalid, hval, hext]

/-- An accepted attribute block is as long as the encoding of its map. -/
theorem attributeBlock_of_decoded {b : Bytes} {m : Attributes} (h : decodeAttributes b = .ok m)
    (hsize : b.length ≤ maxAttributesSize) :
    Encodable (enumerate m).entries ∧ (attributeBlock (enumerate m).entries).length = b.length := by
  obtain ⟨c, hc, hlen⟩ := encodeAttributes_decode h hsize (enumerate m) (enumerate_toFinmap m)
  obtain ⟨henc, rfl⟩ := encodeAttributes_ok hc
  refine ⟨henc, ?_⟩
  rw [← hlen]
  exact attributeBlock_length_perm (List.perm_insertionSort keyLE _).symm

theorem RawRecord.Accepted.scanned {version : ℕ} (hv : 4 ≤ version) {r : RawRecord} {m : Attributes}
    (h : r.Accepted m) (pos : ℕ) (t : Bytes) :
    AppendLog.readRecord version pos (r.bytes ++ t) =
      .ok ((⟨r.key, pos + (20 + r.key.length + r.attributes.length), r.value.length, pos, r.bytes.length,
        decide (r.flags &&& 1 ≠ 0), m⟩, pos + r.bytes.length), t) := by
  rw [AppendLog.readRecord, if_pos hv, readRecordFrom_bytes h, RawRecord.entry]
  simp only [Nat.add_assoc]

theorem RawRecord.Accepted.torn {version : ℕ} (hv : 4 ≤ version) {r : RawRecord} {m : Attributes}
    (h : r.Accepted m) (pos : ℕ) {q t : Bytes} (hq : r.bytes = q ++ t) (ht : t ≠ []) :
    ∃ e, AppendLog.readRecord version pos q = .error e ∧ e.isEOF = true := by
  rw [AppendLog.readRecord, if_pos hv]
  exact readRecordFrom_torn h pos hq ht

theorem RawRecord.Accepted.length {r : RawRecord} {m : Attributes} (h : r.Accepted m) :
    r.bytes.length = 24 + r.key.length + r.attributes.length + r.value.length + r.extensions.length := by
  rw [r.bytes_length, h.fits.body_length]
  omega

theorem RawRecord.Accepted.nonempty {r : RawRecord} {m : Attributes} (h : r.Accepted m) :
    0 < r.bytes.length := by
  have hlen := h.length
  omega

theorem RawRecord.Accepted.valueEnd {r : RawRecord} {m : Attributes} (h : r.Accepted m) :
    20 + r.key.length + r.attributes.length + r.value.length ≤ r.bytes.length := by
  have hlen := h.length
  omega

theorem RawRecord.Accepted.slice_extensions {r : RawRecord} {m : Attributes} (h : r.Accepted m) :
    slice r.bytes (20 + r.key.length + r.attributes.length + r.value.length) (r.bytes.length - 4) =
      r.extensions := by
  have hend : r.bytes.length - 4 = r.bounds.extensionsStart + r.bounds.extensionsLen := by
    rw [h.length]
    simp only [RawRecord.bounds]
    omega
  rw [hend]
  exact h.fits.slice_extensions

def Rec.ofRaw {version : ℕ} (hv : 4 ≤ version) (r : RawRecord) (m : Attributes) (h : r.Accepted m) :
    Rec version where
  bytes := r.bytes
  key := r.key
  value := r.value
  deleted := r.flags &&& 1 ≠ 0
  attributes := m
  extensions := r.extensions
  valueAt := 20 + r.key.length + r.attributes.length
  scanned := h.scanned hv
  torn := fun pos _ _ hq ht => h.torn hv pos hq ht
  nonempty := h.nonempty
  valueEnd := h.valueEnd
  valueSlice := h.fits.slice_value
  keyLimit := h.fits.key
  valueLimit := h.fits.value
  extensionsLimit := h.fits.extensions
  framed := h.framed
  encodable := (attributeBlock_of_decoded h.decoded h.fits.attributes).1
  stored := fun _ => h.stored
  storedSize := by
    intro _
    rw [(attributeBlock_of_decoded h.decoded h.fits.attributes).2, h.length]
  extensionsSlice := fun _ => h.slice_extensions
  legacyExtensions := fun hlt => absurd hlt (Nat.not_lt.mpr hv)

theorem LegacyRaw.Fits.torn {version : ℕ} (hv : version < 4) {r : LegacyRaw} (h : r.Fits version) (pos : ℕ)
    {q t : Bytes} (hq : r.bytes version = q ++ t) (ht : t ≠ []) :
    ∃ e, AppendLog.readRecord version pos q = .error e ∧ e.isEOF = true := by
  rw [AppendLog.readRecord, if_neg (Nat.not_le.mpr hv)]
  have hok := readLegacyRecordFrom_bytes h pos []
  obtain ⟨c, hc, -, htorn⟩ := readLegacyRecordFrom_exact version pos _ _ _ hok
  rw [List.append_nil, List.append_nil] at hc
  exact htorn q t (by rw [← hc, hq]) ht

theorem LegacyRaw.Fits.encodable_enumerate {version : ℕ} {r : LegacyRaw} (h : r.Fits version) :
    Encodable (enumerate (insertAll (r.attributeList version) ∅)).entries := by
  have hattr := r.entry_attributes version 0
  unfold LegacyRaw.entry at hattr
  dsimp only at hattr
  rw [hattr]
  exact (encodable_perm (enumerate_perm (r.attributeRange version))).mpr h.encodable

theorem LegacyRaw.Fits.scanned {version : ℕ} (hv : version < 4) {r : LegacyRaw} (h : r.Fits version)
    (pos : ℕ) (t : Bytes) :
    AppendLog.readRecord version pos (r.bytes version ++ t) =
      .ok ((⟨r.key, pos + r.head.length, r.value.length, pos, (r.bytes version).length,
        decide (r.flags &&& 1 ≠ 0), insertAll (r.attributeList version) ∅⟩,
        pos + (r.bytes version).length), t) := by
  rw [AppendLog.readRecord, if_neg (Nat.not_le.mpr hv), readLegacyRecordFrom_bytes h, LegacyRaw.entry]

theorem LegacyRaw.nonempty (r : LegacyRaw) (version : ℕ) : 0 < (r.bytes version).length := by
  rw [LegacyRaw.bytes, List.length_append, List.length_append, r.head_length]
  omega

theorem LegacyRaw.valueEnd (r : LegacyRaw) (version : ℕ) :
    r.head.length + r.value.length ≤ (r.bytes version).length := by
  rw [LegacyRaw.bytes, List.length_append, List.length_append]
  omega

def Rec.ofLegacy {version : ℕ} (hv : version < 4) (r : LegacyRaw) (h : r.Fits version) : Rec version where
  bytes := r.bytes version
  key := r.key
  value := r.value
  deleted := r.flags &&& 1 ≠ 0
  attributes := insertAll (r.attributeList version) ∅
  extensions := []
  valueAt := r.head.length
  scanned := h.scanned hv
  torn := fun pos _ _ hq ht => h.torn hv pos hq ht
  nonempty := r.nonempty version
  valueEnd := r.valueEnd version
  valueSlice := slice_at (p := 0) (a := r.head) (t := r.tail version) rfl (Nat.zero_add _).symm rfl
  keyLimit := h.key
  valueLimit := h.value
  extensionsLimit := Nat.zero_le _
  framed := validateExtensions_nil
  encodable := h.encodable_enumerate
  stored := fun hge => absurd hv (Nat.not_lt.mpr hge)
  storedSize := fun hge => absurd hv (Nat.not_lt.mpr hge)
  extensionsSlice := fun hge => absurd hv (Nat.not_lt.mpr hge)
  legacyExtensions := fun _ => rfl

namespace Rec

/-- The record as the scan delivers it at a position. -/
def entry {version : ℕ} (r : Rec version) (pos : ℕ) : LogRecord :=
  ⟨r.key, pos + r.valueAt, r.value.length, pos, r.bytes.length, r.deleted, r.attributes⟩

/-- Records of version 4 and of version 5 have one format. -/
def upgrade {version : ℕ} (hv : 4 ≤ version) (r : Rec version) : Rec logVersion where
  bytes := r.bytes
  key := r.key
  value := r.value
  deleted := r.deleted
  attributes := r.attributes
  extensions := r.extensions
  valueAt := r.valueAt
  scanned := by
    intro pos t
    have h := r.scanned pos t
    rw [AppendLog.readRecord, if_pos hv] at h
    exact h
  torn := by
    intro pos q t hq ht
    have h := r.torn pos q t hq ht
    rw [AppendLog.readRecord, if_pos hv] at h
    exact h
  nonempty := r.nonempty
  valueEnd := r.valueEnd
  valueSlice := r.valueSlice
  keyLimit := r.keyLimit
  valueLimit := r.valueLimit
  extensionsLimit := r.extensionsLimit
  framed := r.framed
  encodable := r.encodable
  stored := fun _ => r.stored hv
  storedSize := fun _ => r.storedSize hv
  extensionsSlice := fun _ => r.extensionsSlice hv
  legacyExtensions := fun hlt => absurd hlt (by decide)

end Rec

/-- **Every record the scan delivers is a unit.** -/
theorem readRecord_ok {version pos : ℕ} {s t : Bytes} {out : LogRecord × ℕ}
    (h : AppendLog.readRecord version pos s = .ok (out, t)) :
    ∃ r : Rec version, s = r.bytes ++ t ∧ out = (r.entry pos, pos + r.bytes.length) := by
  unfold AppendLog.readRecord at h
  split at h
  · rename_i hv
    obtain ⟨r, m, hacc, hs, rfl⟩ := readRecordFrom_ok h
    refine ⟨Rec.ofRaw hv r m hacc, hs, ?_⟩
    simp only [RawRecord.entry, Rec.entry, Rec.ofRaw, Nat.add_assoc]
  · rename_i hv
    obtain ⟨r, hfit, hs, rfl⟩ := readLegacyRecordFrom_ok h
    refine ⟨Rec.ofLegacy (Nat.not_le.mp hv) r hfit, hs, ?_⟩
    simp only [LegacyRaw.entry, Rec.entry, Rec.ofLegacy]

/-- The bytes of a record, whatever follows them, determine it. -/
theorem Rec.front_unique {version : ℕ} {r r' : Rec version} {t t' : Bytes}
    (h : r.bytes ++ t = r'.bytes ++ t') : r = r' ∧ t = t' := by
  have hr := r.scanned 0 t
  rw [h, r'.scanned 0 t'] at hr
  simp only [Except.ok.injEq, Prod.mk.injEq, LogRecord.mk.injEq, Nat.zero_add] at hr
  obtain ⟨⟨⟨hkey, hat, hsize, -, hlen, hdeleted, hattributes⟩, -⟩, rfl⟩ := hr
  have hbytes : r.bytes = r'.bytes := List.append_cancel_right h
  have hvalue : r.value = r'.value := by rw [← r.valueSlice, ← r'.valueSlice, hbytes, hat, hsize]
  have hextensions : r.extensions = r'.extensions := by
    by_cases hv : 4 ≤ version
    · have hs := (r.stored hv).2.2
      rw [hbytes, (r'.stored hv).2.2] at hs
      simp only [Except.ok.injEq, Prod.mk.injEq] at hs
      exact hs.2.symm
    · rw [r.legacyExtensions (Nat.not_le.mp hv), r'.legacyExtensions (Nat.not_le.mp hv)]
  refine ⟨?_, rfl⟩
  cases r
  cases r'
  simp only at hbytes hkey hvalue hdeleted hattributes hextensions hat
  subst hbytes hkey hvalue hdeleted hattributes hextensions hat
  rfl

end AppendStore
