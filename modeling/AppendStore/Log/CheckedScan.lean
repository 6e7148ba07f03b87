import AppendStore.Library.Checked
import AppendStore.Format.AttributeGrammar
import AppendStore.Format.Extensions
import AppendStore.Log.RoundTrip

/-! # The scan with its buffers

The readers of `Iterate` once more, now with the buffers they read into: every slice expression has its bounds check,
every update of the position is followed by an assertion that it counts the bytes read from the file, and the loop
has no answer when it does not end. The checks never fail, for any content of the file and of the buffers
(`scanChecked_eq`). The records that the loop delivers tile the file (`Tiles`).
-/

namespace AppendStore
open Library
set_option autoImplicit false

/-- The buffers of a scan. A scratch buffer is its whole backing array. -/
structure Scratch where
  fixed : Bytes
  string : Bytes
  attributes : Bytes
  extensions : Bytes

/-- What `resizeScratch` leaves behind. The caller slices it to the length. -/
def resizeScratch (scratch : Bytes) (length : ℕ) : Bytes :=
  if scratch.length < length then List.replicate length 0 else scratch

theorem resizeScratch_length (scratch : Bytes) (length : ℕ) : length ≤ (resizeScratch scratch length).length := by
  unfold resizeScratch
  split
  · rw [List.length_replicate]
  · omega

def fillBytes (buf : Bytes) (n : ℕ) : CheckedReader Err Bytes := fill (.sentinel .eof) (.sentinel .unexpectedEOF) buf n

section
variable {stop pos : ℕ}

theorem agrees_fillBytes {buf : Bytes} {n : ℕ} (hn : n ≤ buf.length) :
    Agrees stop pos (fillBytes buf n) (readBytes n)
      fun a b pos' => b.length = n ∧ a = b ++ buf.drop n ∧ pos' = pos + n :=
  agrees_fill _ _ hn

theorem agrees_require {α : Type} (r : Except Err α) (context : Err → Err) :
    Agrees stop pos (plainly (require r context)) (require r context) fun a b pos' => a = b ∧ pos' = pos := by
  refine agrees_still fun s a t h => ?_
  cases r with
  | error e => cases h
  | ok b =>
    cases h
    rfl

end

/-! ## Versions 4 and 5 -/

def readRecordFromChecked (stop startPos : ℕ) (b : Scratch) : CheckedReader Err ((LogRecord × ℕ) × Scratch) := do
  let pos := startPos
  let fixed ← fillBytes b.fixed 4
  let pos := pos + 4
  tracked stop pos
  let recordLength := leNat (← inBounds (cut fixed 0 4))
  plainly (reject (recordLength < recordMinimumLength) (.plain s!"invalid record length {recordLength}"))
  let fixed ← fillBytes fixed recordFixedBodySize
  let pos := pos + recordFixedBodySize
  tracked stop pos
  let hash := crcUpdate 0 (← inBounds (cut fixed 0 recordFixedBodySize))
  let flags ← inBounds fixed.head?
  let keyLen := leNat (← inBounds (cut fixed 4 8))
  let attributesLen := leNat (← inBounds (cut fixed 8 12))
  let valueLen := leNat (← inBounds (cut fixed 12 16))
  plainly (reject (keyLen > maxKeySize ∨ attributesLen > maxAttributesSize ∨ valueLen > maxValueSize)
    (.plain "record field exceeds configured limit"))
  let knownLength := recordMinimumLength + keyLen + attributesLen + valueLen
  plainly (reject (knownLength > recordLength)
    (.plain s!"record length {recordLength} is smaller than its fields"))
  let extensionsLen := recordLength - knownLength
  plainly (reject (extensionsLen > maxExtensionsSize)
    (.plain s!"extension area is {extensionsLen} bytes (maximum {maxExtensionsSize})"))
  let keyScratch ← fillBytes (resizeScratch b.string keyLen) keyLen
  let keyBytes ← inBounds (cut keyScratch 0 keyLen)
  let hash := crcUpdate hash keyBytes
  let pos := pos + keyLen
  tracked stop pos
  let attributesScratch ← fillBytes (resizeScratch b.attributes attributesLen) attributesLen
  let attributesBytes ← inBounds (cut attributesScratch 0 attributesLen)
  let hash := crcUpdate hash attributesBytes
  let pos := pos + attributesLen
  tracked stop pos
  let valueOffset := pos
  let copied ← plainly (copyLimited valueLen)
  plainly (reject (copied.length ≠ valueLen) (.sentinel .unexpectedEOF))
  let hash := crcUpdate hash copied
  let pos := pos + valueLen
  tracked stop pos
  let extensionsScratch ← fillBytes (resizeScratch b.extensions extensionsLen) extensionsLen
  let extensionBytes ← inBounds (cut extensionsScratch 0 extensionsLen)
  let hash := crcUpdate hash extensionBytes
  let pos := pos + extensionsLen
  tracked stop pos
  let fixed ← fillBytes fixed 4
  let pos := pos + 4
  tracked stop pos
  let wantChecksum := leNat (← inBounds (cut fixed 0 4))
  plainly (reject (hash ≠ wantChecksum) (.plain "checksum mismatch"))
  let _ ← plainly (require (← inBounds (validateExtensionsChecked extensionBytes)) id)
  let attributes ← plainly
    (require (← inBounds (decodeAttributesChecked attributesBytes)) (.wrap "decode attributes"))
  return (({ key := keyBytes, offset := valueOffset, size := valueLen, recordOffset := startPos,
             storedSize := recordLength + 4, deleted := flags &&& 1 ≠ 0, attributes := attributes }, pos),
    ⟨fixed, keyScratch, attributesScratch, extensionsScratch⟩)

/-- What both readers keep: the record and the position agree, and `fixed` keeps its size. -/
def ReadAlike (a : (LogRecord × ℕ) × Scratch) (b : LogRecord × ℕ) (pos : ℕ) : Prop :=
  a.1 = b ∧ b.2 = pos ∧ a.2.fixed.length = 16

theorem validateExtensionsChecked_eq (extensions : Bytes) :
    validateExtensionsChecked extensions = some (validateExtensions extensions) :=
  validateExtensionsCheckedFrom_eq (Nat.zero_le _) (by omega)

theorem readRecordFrom_agrees (stop startPos : ℕ) (b : Scratch) (hfixed : b.fixed.length = 16) :
    Agrees stop startPos (readRecordFromChecked stop startPos b) (readRecordFrom startPos) ReadAlike := by
  have hbody : recordFixedBodySize = 16 := rfl
  unfold readRecordFromChecked readRecordFrom
  dsimp only
  refine agrees_bind (agrees_fillBytes ?_) ?_
  · omega
  rintro _ head _ ⟨hhead, rfl, rfl⟩
  refine agrees_tracked (agrees_inBounds (cut_front hhead) ?_)
  refine agrees_bind (agrees_reject _ _) ?_
  rintro _ _ _ ⟨-, rfl⟩
  have hlen : (head ++ b.fixed.drop 4).length = 16 := by
    rw [List.length_append, List.length_drop]
    omega
  refine agrees_bind (agrees_fillBytes ?_) ?_
  · omega
  rintro _ body _ ⟨hbodyLen, rfl, rfl⟩
  have hempty : (head ++ b.fixed.drop 4).drop recordFixedBodySize = [] :=
    List.drop_of_length_le (by omega)
  rw [hempty, List.append_nil]
  have hflags : body.head? = some (body.headD 0) := by
    cases body with
    | nil => cases hbodyLen
    | cons x body => rfl
  refine agrees_tracked (agrees_inBounds (cut_all hbodyLen) (agrees_inBounds hflags ?_))
  refine agrees_inBounds (cut_eq (by omega) (by omega)) ?_
  refine agrees_inBounds (cut_eq (by omega) (by omega)) ?_
  refine agrees_inBounds (cut_eq (by omega) (by omega)) ?_
  -- from here on only the lengths matter, not where they were read
  generalize leNat (slice body 4 8) = keyLen
  generalize leNat (slice body 8 12) = attributesLen
  generalize leNat (slice body 12 16) = valueLen
  generalize leNat head = recordLength
  refine agrees_bind (agrees_reject _ _) ?_
  rintro _ _ _ ⟨-, rfl⟩
  refine agrees_bind (agrees_reject _ _) ?_
  rintro _ _ _ ⟨-, rfl⟩
  refine agrees_bind (agrees_reject _ _) ?_
  rintro _ _ _ ⟨-, rfl⟩
  generalize recordLength - (recordMinimumLength + keyLen + attributesLen + valueLen) = extensionsLen
  refine agrees_bind (agrees_fillBytes (resizeScratch_length _ _)) ?_
  rintro _ keyBytes _ ⟨hkey, rfl, rfl⟩
  refine agrees_inBounds (cut_front hkey) (agrees_tracked ?_)
  refine agrees_bind (agrees_fillBytes (resizeScratch_length _ _)) ?_
  rintro _ attributesBytes _ ⟨hattributes, rfl, rfl⟩
  refine agrees_inBounds (cut_front hattributes) (agrees_tracked ?_)
  refine agrees_bind (agrees_copyLimited _) ?_
  rintro _ copied _ ⟨rfl, rfl⟩
  refine agrees_bind (agrees_reject _ _) ?_
  rintro _ _ _ ⟨hcopied, rfl⟩
  rw [not_not.mp hcopied]
  refine agrees_tracked ?_
  refine agrees_bind (agrees_fillBytes (resizeScratch_length _ _)) ?_
  rintro _ extensionBytes _ ⟨hextensions, rfl, rfl⟩
  refine agrees_inBounds (cut_front hextensions) (agrees_tracked ?_)
  refine agrees_bind (agrees_fillBytes ?_) ?_
  · omega
  rintro _ sum _ ⟨hsum, rfl, rfl⟩
  refine agrees_tracked (agrees_inBounds (cut_front hsum) ?_)
  refine agrees_bind (agrees_reject _ _) ?_
  rintro _ _ _ ⟨-, rfl⟩
  refine agrees_inBounds (validateExtensionsChecked_eq _) ?_
  refine agrees_bind (agrees_require _ _) ?_
  rintro _ _ _ ⟨rfl, rfl⟩
  refine agrees_inBounds (decodeAttributesChecked_eq _) ?_
  refine agrees_bind (agrees_require _ _) ?_
  rintro _ attributes _ ⟨rfl, rfl⟩
  refine agrees_pure ⟨rfl, rfl, ?_⟩
  rw [List.length_append, List.length_drop]
  omega

/-! ## Versions 1 to 3 -/

/-- What the closures of `readLegacyRecordFrom` share. -/
structure LegacyState where
  pos : ℕ
  fixed : Bytes
  string : Bytes

/-- A field of a fixed size. -/
def readFixedChecked (stop n : ℕ) (st : LegacyState) : CheckedReader Err (Bytes × LegacyState) := do
  let fixed ← fillBytes st.fixed n
  let pos := st.pos + n
  tracked stop pos
  let b ← inBounds (cut fixed 0 n)
  return (b, { st with pos := pos, fixed := fixed })

def readU32Checked (stop : ℕ) (st : LegacyState) : CheckedReader Err (ℕ × LegacyState) := do
  let (b, st) ← readFixedChecked stop 4 st
  return (leNat b, st)

def readU16Checked (stop : ℕ) (st : LegacyState) : CheckedReader Err (ℕ × LegacyState) := do
  let (b, st) ← readFixedChecked stop 2 st
  return (leNat b, st)

def readU64Checked (stop : ℕ) (st : LegacyState) : CheckedReader Err (ℤ × LegacyState) := do
  let (b, st) ← readFixedChecked stop 8 st
  return (toInt64 (leNat b), st)

def readStringChecked (stop length : ℕ) (st : LegacyState) : CheckedReader Err (Bytes × LegacyState) := do
  let string ← fillBytes (resizeScratch st.string length) length
  let pos := st.pos + length
  tracked stop pos
  let b ← inBounds (cut string 0 length)
  return (b, { st with pos := pos, string := string })

def readFieldChecked (stop : ℕ) (st : LegacyState) : CheckedReader Err (Bytes × LegacyState) := do
  let (length, st) ← readU16Checked stop st
  readStringChecked stop length st

/-- The reader gets the first eight bytes of `fixed`. -/
def readLegacyRecordFromChecked (stop version startPos : ℕ) (b : Scratch) :
    CheckedReader Err ((LogRecord × ℕ) × Scratch) := do
  let front ← inBounds (cut b.fixed 0 8)
  let (keyLen, st) ← readU32Checked stop ⟨startPos, front, b.string⟩
  plainly (reject (keyLen > maxKeySize) (.plain s!"invalid key length {keyLen}"))
  let (key, st) ← readStringChecked stop keyLen st
  let (valueLen, st) ← readU32Checked stop st
  plainly (reject (valueLen > maxValueSize) (.plain s!"invalid value length {valueLen}"))
  let valueOffset := st.pos
  plainly (discard (.sentinel .eof) valueLen)
  let st := { st with pos := st.pos + valueLen }
  tracked stop st.pos
  let (flagByte, st) ← readFixedChecked stop 1 st
  let flags ← inBounds flagByte.head?
  let (category, st) ← readFieldChecked stop st
  let (provider, st) ← readFieldChecked stop st
  let (status, st) ← readFieldChecked stop st
  let (name, st) ← readFieldChecked stop st
  let (totalSize, st) ← readU64Checked stop st
  let attributes := insertAll
    [⟨legacyCategoryAttribute, category⟩, ⟨legacyProviderAttribute, provider⟩,
     ⟨legacyStatusAttribute, status⟩, ⟨legacyNameAttribute, name⟩,
     ⟨legacyTotalSizeAttribute, formatInt totalSize⟩] ∅
  let record := fun (attributes : Attributes) (st : LegacyState) =>
    ((({ key := key, offset := valueOffset, size := valueLen, recordOffset := startPos,
         storedSize := st.pos - startPos, deleted := flags &&& 1 ≠ 0, attributes := attributes } : LogRecord),
      st.pos), ({ b with fixed := st.fixed ++ b.fixed.drop 8, string := st.string } : Scratch))
  if version ≥ 3 then do
    let (protocol, st) ← readFieldChecked stop st
    let (addedOn, st) ← readU64Checked stop st
    let attributes := insertAll
      [⟨legacyProtocolAttribute, protocol⟩, ⟨legacyBadAttribute, formatBool (flags &&& 2 ≠ 0)⟩,
       ⟨legacyAddedOnAttribute, formatInt addedOn⟩] attributes
    return record attributes st
  else
    return record attributes st

/-- The closures return what those of the plain reader return, and keep the size of `fixed`. -/
def FieldAlike {α : Type} (a : α × LegacyState) (b : α × ℕ) (pos : ℕ) : Prop :=
  a.1 = b.1 ∧ a.2.pos = pos ∧ b.2 = pos ∧ a.2.fixed.length = 8

section
variable {stop : ℕ} {st : LegacyState} (hfixed : st.fixed.length = 8)
include hfixed

theorem readFixed_agrees {n : ℕ} (hn : n ≤ 8) :
    Agrees stop st.pos (readFixedChecked stop n st) (readBytes n)
      fun a b pos' => a.1 = b ∧ b.length = n ∧ a.2.pos = pos' ∧ pos' = st.pos + n ∧ a.2.fixed.length = 8 := by
  rw [← bind_pure (readBytes n)]
  refine agrees_bind (agrees_fillBytes ?_) ?_
  · omega
  rintro _ b _ ⟨hlen, rfl, rfl⟩
  refine agrees_tracked (agrees_inBounds (cut_front hlen) (agrees_pure ⟨rfl, hlen, rfl, rfl, ?_⟩))
  rw [List.length_append, List.length_drop]
  omega

theorem readU32_agrees : Agrees stop st.pos (readU32Checked stop st) (readU32 st.pos) FieldAlike := by
  refine agrees_bind (readFixed_agrees hfixed (by omega)) ?_
  rintro ⟨_, st'⟩ b _ ⟨rfl, -, rfl, hpos, hlen⟩
  exact agrees_pure ⟨rfl, rfl, hpos.symm, hlen⟩

theorem readU16_agrees : Agrees stop st.pos (readU16Checked stop st) (readU16 st.pos) FieldAlike := by
  refine agrees_bind (readFixed_agrees hfixed (by omega)) ?_
  rintro ⟨_, st'⟩ b _ ⟨rfl, -, rfl, hpos, hlen⟩
  exact agrees_pure ⟨rfl, rfl, hpos.symm, hlen⟩

theorem readU64_agrees : Agrees stop st.pos (readU64Checked stop st) (readU64 st.pos) FieldAlike := by
  refine agrees_bind (readFixed_agrees hfixed (by omega)) ?_
  rintro ⟨_, st'⟩ b _ ⟨rfl, -, rfl, hpos, hlen⟩
  exact agrees_pure ⟨rfl, rfl, hpos.symm, hlen⟩

theorem readString_agrees (length : ℕ) :
    Agrees stop st.pos (readStringChecked stop length st) (readString st.pos length) FieldAlike := by
  refine agrees_bind (agrees_fillBytes (resizeScratch_length _ _)) ?_
  rintro _ b _ ⟨hlen, rfl, rfl⟩
  exact agrees_tracked (agrees_inBounds (cut_front hlen) (agrees_pure ⟨rfl, rfl, rfl, hfixed⟩))

theorem readField_agrees : Agrees stop st.pos (readFieldChecked stop st) (readField st.pos) FieldAlike := by
  refine agrees_bind (readU16_agrees hfixed) ?_
  rintro ⟨length, st'⟩ ⟨_, _⟩ _ ⟨rfl, rfl, rfl, hlen⟩
  exact readString_agrees hlen length

end

theorem readLegacyRecordFrom_agrees (stop version startPos : ℕ) (b : Scratch) (hfixed : b.fixed.length = 16) :
    Agrees stop startPos (readLegacyRecordFromChecked stop version startPos b)
      (readLegacyRecordFrom version startPos) ReadAlike := by
  unfold readLegacyRecordFromChecked readLegacyRecordFrom
  refine agrees_inBounds (cut_eq (by omega) (by omega)) ?_
  have hfront : (slice b.fixed 0 8).length = 8 := by
    rw [slice_length _ _ _ (by omega)]
  refine agrees_bind (@readU32_agrees stop ⟨startPos, slice b.fixed 0 8, b.string⟩ hfront) ?_
  rintro ⟨keyLen, st⟩ ⟨_, _⟩ _ ⟨rfl, rfl, rfl, hst⟩
  dsimp only
  refine agrees_bind (agrees_reject _ _) ?_
  rintro _ _ _ ⟨-, rfl⟩
  refine agrees_bind (readString_agrees hst _) ?_
  rintro ⟨key, st⟩ ⟨_, _⟩ _ ⟨rfl, rfl, rfl, hst⟩
  dsimp only
  refine agrees_bind (readU32_agrees hst) ?_
  rintro ⟨valueLen, st⟩ ⟨_, _⟩ _ ⟨rfl, rfl, rfl, hst⟩
  dsimp only
  refine agrees_bind (agrees_reject _ _) ?_
  rintro _ _ _ ⟨-, rfl⟩
  refine agrees_bind (agrees_discard _ _) ?_
  rintro _ _ _ rfl
  refine agrees_tracked (agrees_bind (@readFixed_agrees stop { st with pos := st.pos + valueLen } hst 1 (by omega)) ?_)
  rintro ⟨flagByte, st⟩ _ _ ⟨rfl, hone, rfl, hpos, hst⟩
  dsimp only at hone hpos hst ⊢
  have hflags : flagByte.head? = some (flagByte.headD 0) := by
    cases flagByte with
    | nil => cases hone
    | cons x flagByte => rfl
  rw [← hpos]
  refine agrees_inBounds hflags ?_
  refine agrees_bind (readField_agrees hst) ?_
  rintro ⟨category, st⟩ ⟨_, _⟩ _ ⟨rfl, rfl, rfl, hst⟩
  refine agrees_bind (readField_agrees hst) ?_
  rintro ⟨provider, st⟩ ⟨_, _⟩ _ ⟨rfl, rfl, rfl, hst⟩
  refine agrees_bind (readField_agrees hst) ?_
  rintro ⟨status, st⟩ ⟨_, _⟩ _ ⟨rfl, rfl, rfl, hst⟩
  refine agrees_bind (readField_agrees hst) ?_
  rintro ⟨name, st⟩ ⟨_, _⟩ _ ⟨rfl, rfl, rfl, hst⟩
  refine agrees_bind (readU64_agrees hst) ?_
  rintro ⟨totalSize, st⟩ ⟨_, _⟩ _ ⟨rfl, rfl, rfl, hst⟩
  dsimp only
  have hsize : ∀ fixed : Bytes, fixed.length = 8 → (fixed ++ b.fixed.drop 8).length = 16 := by
    intro fixed hlen
    rw [List.length_append, List.length_drop]
    omega
  split
  · refine agrees_bind (readField_agrees hst) ?_
    rintro ⟨protocol, st⟩ ⟨_, _⟩ _ ⟨rfl, rfl, rfl, hst⟩
    refine agrees_bind (readU64_agrees hst) ?_
    rintro ⟨addedOn, st⟩ ⟨_, _⟩ _ ⟨rfl, rfl, rfl, hst⟩
    exact agrees_pure ⟨rfl, rfl, hsize _ hst⟩
  · exact agrees_pure ⟨rfl, rfl, hsize _ hst⟩

/-! ## The loop -/

def AppendLog.readRecordChecked (stop version pos : ℕ) (b : Scratch) : CheckedReader Err ((LogRecord × ℕ) × Scratch) :=
  if version ≥ 4 then readRecordFromChecked stop pos b else readLegacyRecordFromChecked stop version pos b

theorem readRecord_agrees (stop version pos : ℕ) (b : Scratch) (hfixed : b.fixed.length = 16) :
    Agrees stop pos (AppendLog.readRecordChecked stop version pos b) (AppendLog.readRecord version pos) ReadAlike := by
  unfold AppendLog.readRecordChecked AppendLog.readRecord
  split
  · exact readRecordFrom_agrees stop pos b hfixed
  · exact readLegacyRecordFrom_agrees stop version pos b hfixed

/-- The loop of `Iterate` with its checks; `none` also where it would go on for ever. -/
def AppendLog.scanChecked {σ : Type} (stop version fileSize : ℕ) (fn : LogRecord → σ → Except Err σ) :
    ℕ → Scratch → ℕ → Bytes → σ → Option (σ × AppendLog.ScanEnd)
  | 0, _, _, _, _ => none
  | fuel + 1, b, pos, rest, s =>
    if pos < fileSize then do
      match ← AppendLog.readRecordChecked stop version pos b rest with
      | .error e =>
        if e.isEOF then some (s, .torn pos e)
        else some (s, .failed (.printed .corruptedData s!" at offset {pos}" e))
      | .ok (((record, nextPos), b), rest) =>
        if nextPos > fileSize then
          some (s, .failed (.detail .corruptedData s!"record at offset {pos} exceeds file size"))
        else
          match fn record s with
          | .error e => some (s, .failed e)
          | .ok s => scanChecked stop version fileSize fn fuel b nextPos rest s
    else some (s, .complete)

/-- **The scan ends, stays inside its buffers and counts what it reads.** -/
theorem scanChecked_eq {σ : Type} (version fileSize : ℕ) (fn : LogRecord → σ → Except Err σ) {stop fuel pos : ℕ}
    {b : Scratch} {rest : Bytes} (hfixed : b.fixed.length = 16) (hstop : pos + rest.length = stop)
    (hfuel : rest.length < fuel) (s : σ) :
    AppendLog.scanChecked stop version fileSize fn fuel b pos rest s =
      some (AppendLog.scan version fileSize fn fuel pos rest s) := by
  induction fuel generalizing pos b rest s with
  | zero => omega
  | succ fuel ih =>
    unfold AppendLog.scanChecked AppendLog.scan
    split
    · rcases readRecord_agrees stop version pos b hfixed rest hstop with
        ⟨e, hread, hchecked⟩ | ⟨⟨out, b'⟩, ⟨record, nextPos⟩, rest', _, hread, hchecked, hpos, rfl, rfl, hfixed'⟩
      · rw [hread, hchecked]
        dsimp only [bind, Option.bind_some]
        split <;> rfl
      · -- a record takes bytes, so there is fuel for the rest
        obtain ⟨r, hrest, -⟩ := readRecord_ok hread
        have hr := r.nonempty
        have hlt : rest'.length < fuel := by
          rw [hrest, List.length_append] at hfuel
          omega
        rw [hread, hchecked]
        dsimp only [bind, Option.bind_some]
        split
        · rfl
        · cases fn record s with
          | error e => rfl
          | ok s' => exact ih hfixed' hpos hlt s'
    · rfl

namespace AppendLog

/-- The buffers at the start of `Iterate`. -/
def newScratch : Scratch := ⟨List.replicate 16 0, [], [], []⟩

def iterateChecked {σ : Type} (l : AppendLog) (fn : LogRecord → σ → Except Err σ) (s : σ) :
    FileProg (Option ((Except Err Unit × AppendLog) × σ)) :=
  (Sys.seek l.file logHeaderSize).orElse (fun e => pure (some ((.error (.os e), l), s))) fun _ =>
  (Sys.readFrom l.file logHeaderSize).orElse
    (fun e => pure (some ((.error (.printed .corruptedData s!" at offset {logHeaderSize}" (.os e)), l), s)))
    fun rest =>
  match scanChecked (logHeaderSize + rest.length) l.version l.writePos fn (rest.length + 1) newScratch logHeaderSize
      rest s with
  | none => pure none
  | some scanned => some <$> l.finishScan scanned

end AppendLog

/-! ## The tiles of a file -/

/-- The records follow each other from `pos` to `stop`, and each one has its value inside. -/
def Tiles : ℕ → List LogRecord → ℕ → Prop
  | pos, [], stop => pos = stop
  | pos, r :: rs, stop => r.recordOffset = pos ∧ 0 < r.storedSize ∧ pos ≤ r.offset ∧
      r.offset + r.size ≤ pos + r.storedSize ∧ Tiles (pos + r.storedSize) rs stop

section
variable {version : ℕ}

theorem tiles_entries (pos : ℕ) (recs : List (Rec version)) :
    Tiles pos (entries pos recs) (pos + (concat recs).length) := by
  induction recs generalizing pos with
  | nil => rfl
  | cons r recs ih =>
    have hend := r.valueEnd
    have hrest := ih (pos + r.bytes.length)
    rw [Nat.add_assoc, ← List.length_append, ← concat_cons] at hrest
    refine ⟨rfl, r.nonempty, Nat.le_add_right _ _, ?_, hrest⟩
    change pos + r.valueAt + r.value.length ≤ pos + r.bytes.length
    omega

end

section
variable {d : Disk} {l : AppendLog} {header rest : Bytes} {σ : Type}

theorem exec_iterateChecked (hopen : l.file.isOpen = true) (fn : LogRecord → σ → Except Err σ) (s : σ) :
    Disk.exec (l.iterateChecked fn s) d =
      (some (Disk.exec (l.iterate fn s) d).1, (Disk.exec (l.iterate fn s) d).2) := by
  unfold AppendLog.iterateChecked AppendLog.iterate
  rw [Disk.exec_orElse_ok (Disk.exec_seek hopen d _), Disk.exec_orElse_ok (Disk.exec_readFrom hopen d _),
    Disk.exec_orElse_ok (Disk.exec_seek hopen d _), Disk.exec_orElse_ok (Disk.exec_readFrom hopen d _),
    scanChecked_eq l.version l.writePos fn rfl rfl (Nat.lt_succ_self _) s]
  exact Prog.run_map Disk.answer _ _ _

/-- How `Iterate` ends once its callback has taken every record. -/
theorem exec_finishScan_stops {pos : ℕ} {tail : Bytes} (hopen : l.file.isOpen = true)
    (hlen : pos + tail.length = (d.files l.file.inode).content.length)
    (hpos : l.writePos = (d.files l.file.inode).content.length) (hstop : Stops l.version pos tail)
    (fn : LogRecord → σ → Except Err σ) (fuel : ℕ) (s : σ) :
    ∃ r l' d', Disk.exec (l.finishScan (AppendLog.scan l.version l.writePos fn (fuel + 1) pos tail s)) d =
      (((r, l'), s), d') ∧ (r = .ok () → l'.writePos = pos) := by
  by_cases htail : tail = []
  · subst htail
    rw [AppendLog.scan, if_neg (by rw [List.length_nil] at hlen; omega)]
    exact ⟨_, _, _, rfl, fun _ => by rw [hpos, ← hlen, List.length_nil, Nat.add_zero]⟩
  obtain ⟨e, he⟩ := hstop.resolve_left htail
  have hlt := List.length_pos_of_ne_nil htail
  rw [AppendLog.scan, if_pos (by omega), he]
  dsimp only
  split
  · by_cases hro : l.unknownReadOnly = 0
    · have htrunc := Disk.exec_truncate hopen d pos (by omega)
      rw [AppendLog.finishScan, if_pos hro, Disk.exec_orElse_ok htrunc]
      exact ⟨_, _, _, rfl, fun _ => rfl⟩
    · rw [AppendLog.finishScan, if_neg hro]
      exact ⟨_, _, _, rfl, fun _ => rfl⟩
  · exact ⟨_, _, _, rfl, fun h => by cases h⟩

end

/-- **The scan terminates and tiles the file.** Whatever follows the header, there are records that tile it from the
header on, and `Iterate` calls back on them in order, up to the first error of the callback. When it succeeds, it has
called back on all of them and the log ends where the last one ends. With all checks of bounds, of the position and of
termination it gives the same result. -/
theorem iterate_tiles {d : Disk} {l : AppendLog} {header rest : Bytes} (hopen : l.file.isOpen = true)
    (hheader : header.length = logHeaderSize) (hcontent : (d.files l.file.inode).content = header ++ rest)
    (hpos : l.writePos = (d.files l.file.inode).content.length) :
    ∃ recs stop, Tiles 16 recs stop ∧ stop ≤ l.writePos ∧
      ∀ (σ : Type) (fn : LogRecord → σ → Except Err σ) (s : σ), ∃ r l' d',
        Disk.exec (l.iterate fn s) d = (((r, l'), (deliver fn recs s).1), d') ∧
        (∀ e, (deliver fn recs s).2 = some e → r = .error e) ∧
        (r = .ok () → (deliver fn recs s).2 = none ∧ l'.writePos = stop) ∧
        Disk.exec (l.iterateChecked fn s) d = (some ((r, l'), (deliver fn recs s).1), d') := by
  obtain ⟨recs, tail, hrest, hstop⟩ := parse_exists l.version logHeaderSize rest
  have hcontent' : (d.files l.file.inode).content = header ++ concat recs ++ tail := by
    rw [hcontent, hrest, List.append_assoc]
  have hlen : logHeaderSize + (concat recs).length + tail.length = (d.files l.file.inode).content.length := by
    rw [hcontent', List.length_append, List.length_append, hheader]
  have hcount := length_le_concat recs
  refine ⟨entries logHeaderSize recs, _, tiles_entries logHeaderSize recs, by omega, fun σ fn s => ?_⟩
  have hchecked := exec_iterateChecked (d := d) hopen fn s
  have hexec : Disk.exec (l.iterate fn s) d = Disk.exec (l.finishScan (AppendLog.scan l.version
      (logHeaderSize + (concat recs).length + tail.length) fn ((concat recs ++ tail).length + 1) logHeaderSize
      (concat recs ++ tail) s)) d := exec_iterate hopen hpos rfl hheader hcontent' s
  rw [scan_deliver recs tail _ _ _ s rfl (by rw [List.length_append]; omega)] at hexec
  cases hdeliver : deliver fn (entries logHeaderSize recs) s with
  | mk s' failed =>
    rw [hdeliver] at hexec
    cases failed with
    | some e =>
      refine ⟨.error e, l, d, hexec, ?_, ?_, by rw [hchecked, hexec]; rfl⟩
      · rintro e' ⟨⟩
        rfl
      · intro h
        cases h
    | none =>
      obtain ⟨k, hk⟩ : ∃ k, (concat recs ++ tail).length + 1 - recs.length = k + 1 :=
        ⟨(concat recs ++ tail).length - recs.length, by rw [List.length_append]; omega⟩
      obtain ⟨r, l', d', hfinish, hend⟩ := exec_finishScan_stops hopen hlen hpos hstop fn k s'
      rw [hk, afterDelivery, hlen, ← hpos, hfinish] at hexec
      refine ⟨r, l', d', hexec, ?_, fun h => ⟨rfl, hend h⟩, by rw [hchecked, hexec]⟩
      intro e h
      cases h

/-- Two records, the second a deletion, and the first byte of a third. -/
def tornScan : Bytes := currentHeader ++ (appendBytes [1] [2, 3] false ∅ [] ++ appendBytes [1] [] true ∅ [] ++ [7])

theorem iterate_tiles_torn : ∃ recs stop l' d', Tiles 16 recs stop ∧
    recs.map (fun r => (r.key, r.deleted, r.recordOffset, r.storedSize)) = [([1], false, 16, 31), ([1], true, 47, 29)] ∧
    Disk.exec ((oneFileLog tornScan).iterate collect []) (oneFile tornScan) = (((.ok (), l'), recs), d') ∧
    Disk.exec ((oneFileLog tornScan).iterateChecked collect []) (oneFile tornScan) = (some ((.ok (), l'), recs), d') ∧
    l'.writePos = stop ∧ stop = 76 ∧ tornScan.length = 77 := by
  have hresult : (Disk.exec ((oneFileLog tornScan).iterate collect []) (oneFile tornScan)).1.1.1 = .ok () := by
    decide +kernel
  have hrecs : (Disk.exec ((oneFileLog tornScan).iterate collect []) (oneFile tornScan)).1.2.map
      (fun r => (r.key, r.deleted, r.recordOffset, r.storedSize)) = [([1], false, 16, 31), ([1], true, 47, 29)] := by
    decide +kernel
  have hend : (Disk.exec ((oneFileLog tornScan).iterate collect []) (oneFile tornScan)).1.1.2.writePos = 76 := by
    decide +kernel
  obtain ⟨recs, stop, htiles, -, hall⟩ := iterate_tiles (d := oneFile tornScan) (l := oneFileLog tornScan) rfl
    currentHeader_length rfl rfl
  obtain ⟨r, l', d', hexec, -, hok, hchecked⟩ := hall (List LogRecord) collect []
  rw [deliver_collect, List.nil_append] at hexec hchecked hok
  rw [hexec] at hresult hrecs hend
  cases hresult
  exact ⟨recs, stop, l', d', htiles, hrecs, hexec, hchecked, (hok rfl).2, (hok rfl).2.symm.trans hend, by decide⟩

end AppendStore
