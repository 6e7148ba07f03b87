import AppendStore.Format.RecordCodec

/-! # Version 1 to 3 records

These records carry named fields in place of an attribute map, and no checksum. The reader turns the
fields into attributes; version 3 has three fields more than versions 1 and 2. `LegacyRaw` is such a
record as a list of fields; `readLegacyRecordFrom_ok` finds it behind every successful read.
-/

namespace AppendStore
open Library
set_option autoImplicit false

/-- A name made of ASCII characters. -/
def ascii (s : String) : Bytes := s.toList.map fun c => UInt8.ofNat c.toNat

def legacyCategoryAttribute : Bytes := ascii "category"
def legacyProviderAttribute : Bytes := ascii "provider"
def legacyStatusAttribute : Bytes := ascii "status"
def legacyNameAttribute : Bytes := ascii "name"
def legacyTotalSizeAttribute : Bytes := ascii "total_size"
def legacyProtocolAttribute : Bytes := ascii "protocol"
def legacyBadAttribute : Bytes := ascii "bad"
def legacyAddedOnAttribute : Bytes := ascii "added_on"

/-- The conversion `int64(n)` of an unsigned number. -/
def toInt64 (n : ℕ) : ℤ := if n < 2 ^ 63 then n else (n : ℤ) - 2 ^ 64

/-- `strconv.FormatInt(i, 10)`. -/
def formatInt (i : ℤ) : Bytes :=
  let digits := (Nat.toDigits 10 i.natAbs).map fun c => UInt8.ofNat c.toNat
  if i < 0 then 0x2d :: digits else digits

/-- `strconv.FormatBool`. -/
def formatBool (b : Bool) : Bytes := if b then ascii "true" else ascii "false"

/-! ## The reader

The closures of the source advance a shared position; here each returns the new position. -/

def readU32 (pos : ℕ) : Reader Err (ℕ × ℕ) := do
  let b ← readBytes 4
  return (leNat b, pos + 4)

def readU16 (pos : ℕ) : Reader Err (ℕ × ℕ) := do
  let b ← readBytes 2
  return (leNat b, pos + 2)

def readU64 (pos : ℕ) : Reader Err (ℤ × ℕ) := do
  let b ← readBytes 8
  return (toInt64 (leNat b), pos + 8)

def readString (pos length : ℕ) : Reader Err (Bytes × ℕ) := do
  let b ← readBytes length
  return (b, pos + length)

def readField (pos : ℕ) : Reader Err (Bytes × ℕ) := do
  let (length, pos) ← readU16 pos
  readString pos length

def readLegacyRecordFrom (version startPos : ℕ) : Reader Err (LogRecord × ℕ) := do
  let (keyLen, pos) ← readU32 startPos
  reject (keyLen > maxKeySize) (.plain s!"invalid key length {keyLen}")
  let (key, pos) ← readString pos keyLen
  let (valueLen, pos) ← readU32 pos
  reject (valueLen > maxValueSize) (.plain s!"invalid value length {valueLen}")
  let valueOffset := pos
  discard (.sentinel .eof) valueLen
  let pos := pos + valueLen
  let fixed ← readBytes 1
  let pos := pos + 1
  let flags := fixed.headD 0
  let (category, pos) ← readField pos
  let (provider, pos) ← readField pos
  let (status, pos) ← readField pos
  let (name, pos) ← readField pos
  let (totalSize, pos) ← readU64 pos
  let attributes := insertAll
    [⟨legacyCategoryAttribute, category⟩, ⟨legacyProviderAttribute, provider⟩,
     ⟨legacyStatusAttribute, status⟩, ⟨legacyNameAttribute, name⟩,
     ⟨legacyTotalSizeAttribute, formatInt totalSize⟩] ∅
  let record := fun (attributes : Attributes) (pos : ℕ) =>
    ({ key := key, offset := valueOffset, size := valueLen, recordOffset := startPos,
       storedSize := pos - startPos, deleted := flags &&& 1 ≠ 0, attributes := attributes } : LogRecord)
  if version ≥ 3 then do
    let (protocol, pos) ← readField pos
    let (addedOn, pos) ← readU64 pos
    let attributes := insertAll
      [⟨legacyProtocolAttribute, protocol⟩, ⟨legacyBadAttribute, formatBool (flags &&& 2 ≠ 0)⟩,
       ⟨legacyAddedOnAttribute, formatInt addedOn⟩] attributes
    return (record attributes pos, pos)
  else
    return (record attributes pos, pos)

/-! ## Records as fields -/

structure LegacyRaw where
  key : Bytes
  value : Bytes
  flags : UInt8
  category : Bytes
  provider : Bytes
  status : Bytes
  name : Bytes
  totalSize : Bytes
  protocol : Bytes
  addedOn : Bytes
  deriving DecidableEq, Repr

namespace LegacyRaw

def field (b : Bytes) : Bytes := leBytes 2 b.length ++ b

/-- The bytes in front of the value. -/
def head (r : LegacyRaw) : Bytes := leBytes 4 r.key.length ++ r.key ++ leBytes 4 r.value.length

/-- The bytes behind the value. -/
def tail (version : ℕ) (r : LegacyRaw) : Bytes :=
  [r.flags] ++ field r.category ++ field r.provider ++ field r.status ++ field r.name ++ r.totalSize ++
    if version ≥ 3 then field r.protocol ++ r.addedOn else []

def bytes (version : ℕ) (r : LegacyRaw) : Bytes := r.head ++ r.value ++ r.tail version

structure Fits (version : ℕ) (r : LegacyRaw) : Prop where
  key : r.key.length ≤ maxKeySize
  value : r.value.length ≤ maxValueSize
  category : r.category.length < 2 ^ 16
  provider : r.provider.length < 2 ^ 16
  status : r.status.length < 2 ^ 16
  name : r.name.length < 2 ^ 16
  totalSize : r.totalSize.length = 8
  protocol : r.protocol.length < 2 ^ 16
  addedOn : version ≥ 3 → r.addedOn.length = 8

/-- The attributes of a record, in the order of the source. -/
def attributeList (version : ℕ) (r : LegacyRaw) : List Attribute :=
  [⟨legacyCategoryAttribute, r.category⟩, ⟨legacyProviderAttribute, r.provider⟩,
   ⟨legacyStatusAttribute, r.status⟩, ⟨legacyNameAttribute, r.name⟩,
   ⟨legacyTotalSizeAttribute, formatInt (toInt64 (leNat r.totalSize))⟩] ++
  if version ≥ 3 then
    [⟨legacyProtocolAttribute, r.protocol⟩, ⟨legacyBadAttribute, formatBool (r.flags &&& 2 ≠ 0)⟩,
     ⟨legacyAddedOnAttribute, formatInt (toInt64 (leNat r.addedOn))⟩]
  else []

def entry (version : ℕ) (r : LegacyRaw) (pos : ℕ) : LogRecord where
  key := r.key
  offset := pos + r.head.length
  size := r.value.length
  recordOffset := pos
  storedSize := (r.bytes version).length
  deleted := r.flags &&& 1 ≠ 0
  attributes := insertAll (r.attributeList version) ∅

theorem head_length (r : LegacyRaw) : r.head.length = 8 + r.key.length := by
  simp only [head, List.length_append, leBytes_length]
  omega

theorem field_length (b : Bytes) : (field b).length = 2 + b.length := by
  simp [field]

end LegacyRaw

/-! ## The reader is exact -/

theorem exact_readU32 (pos : ℕ) : Exact Torn (readU32 pos) :=
  exact_bind (exact_readBytes _) fun _ => exact_pure _

theorem exact_readU64 (pos : ℕ) : Exact Torn (readU64 pos) :=
  exact_bind (exact_readBytes _) fun _ => exact_pure _

theorem exact_readString (pos n : ℕ) : Exact Torn (readString pos n) :=
  exact_bind (exact_readBytes _) fun _ => exact_pure _

theorem exact_readField (pos : ℕ) : Exact Torn (readField pos) := by
  refine exact_bind ?_ fun x => exact_readString _ _
  exact exact_bind (exact_readBytes _) fun _ => exact_pure _

theorem readLegacyRecordFrom_exact (version pos : ℕ) : Exact Torn (readLegacyRecordFrom version pos) := by
  unfold readLegacyRecordFrom
  refine exact_bind (exact_readU32 _) fun _ => ?_
  refine exact_bind (exact_reject _ _) fun _ => ?_
  refine exact_bind (exact_readString _ _) fun _ => ?_
  refine exact_bind (exact_readU32 _) fun _ => ?_
  refine exact_bind (exact_reject _ _) fun _ => ?_
  refine exact_bind (exact_discard torn_eof _) fun _ => ?_
  refine exact_bind (exact_readBytes _) fun _ => ?_
  iterate 4 refine exact_bind (exact_readField _) fun _ => ?_
  refine exact_bind (exact_readU64 _) fun _ => ?_
  refine exact_ite ?_ (exact_pure _)
  refine exact_bind (exact_readField _) fun _ => ?_
  refine exact_bind (exact_readU64 _) fun _ => ?_
  exact exact_pure _

/-! ## Backward -/

theorem readU32_ok {pos : ℕ} {s t : Bytes} {x : ℕ × ℕ} (h : readU32 pos s = .ok (x, t)) :
    ∃ b : Bytes, b.length = 4 ∧ s = b ++ t ∧ x = (leNat b, pos + 4) := by
  obtain ⟨b, s1, h1, h2⟩ := reader_bind_inv h
  obtain ⟨rfl, hb⟩ := readFull_ok h1
  cases h2
  exact ⟨b, hb, rfl, rfl⟩

theorem readU64_ok {pos : ℕ} {s t : Bytes} {x : ℤ × ℕ} (h : readU64 pos s = .ok (x, t)) :
    ∃ b : Bytes, b.length = 8 ∧ s = b ++ t ∧ x = (toInt64 (leNat b), pos + 8) := by
  obtain ⟨b, s1, h1, h2⟩ := reader_bind_inv h
  obtain ⟨rfl, hb⟩ := readFull_ok h1
  cases h2
  exact ⟨b, hb, rfl, rfl⟩

theorem readString_ok {pos n : ℕ} {s t : Bytes} {x : Bytes × ℕ} (h : readString pos n s = .ok (x, t)) :
    ∃ b : Bytes, b.length = n ∧ s = b ++ t ∧ x = (b, pos + n) := by
  obtain ⟨b, s1, h1, h2⟩ := reader_bind_inv h
  obtain ⟨rfl, hb⟩ := readFull_ok h1
  cases h2
  exact ⟨b, hb, rfl, rfl⟩

theorem readField_ok {pos : ℕ} {s t : Bytes} {x : Bytes × ℕ} (h : readField pos s = .ok (x, t)) :
    ∃ b : Bytes, b.length < 2 ^ 16 ∧ s = LegacyRaw.field b ++ t ∧
      x = (b, pos + (LegacyRaw.field b).length) := by
  obtain ⟨y, s1, h1, h2⟩ := reader_bind_inv h
  obtain ⟨l, s2, h3, h4⟩ := reader_bind_inv h1
  obtain ⟨rfl, hl⟩ := readFull_ok h3
  cases h4
  obtain ⟨b, hb, rfl, rfl⟩ := readString_ok h2
  have hlt := leNat_lt l
  rw [hl] at hlt
  refine ⟨b, by rw [hb]; omega, ?_, ?_⟩
  · rw [LegacyRaw.field, hb, leBytes_leNat_of_length hl, List.append_assoc]
  · rw [LegacyRaw.field_length, hb, Nat.add_assoc]

theorem insertAll_append (es fs : List Attribute) (m : Attributes) :
    insertAll (es ++ fs) m = insertAll fs (insertAll es m) := by
  simp [insertAll]

theorem readLegacyRecordFrom_ok {version pos : ℕ} {s t : Bytes} {out : LogRecord × ℕ}
    (h : readLegacyRecordFrom version pos s = .ok (out, t)) :
    ∃ r : LegacyRaw, r.Fits version ∧ s = r.bytes version ++ t ∧
      out = (r.entry version pos, pos + (r.bytes version).length) := by
  unfold readLegacyRecordFrom at h
  obtain ⟨_, s1, h1, g1⟩ := reader_bind_inv h
  obtain ⟨kl, hkl, rfl, rfl⟩ := readU32_ok h1
  obtain ⟨_, _, h2, g2⟩ := reader_bind_inv g1
  obtain ⟨c1, rfl⟩ := reject_ok h2
  obtain ⟨_, s3, h3, g3⟩ := reader_bind_inv g2
  obtain ⟨key, hkey, rfl, rfl⟩ := readString_ok h3
  obtain ⟨_, s4, h4, g4⟩ := reader_bind_inv g3
  obtain ⟨vl, hvl, rfl, rfl⟩ := readU32_ok h4
  obtain ⟨_, _, h5, g5⟩ := reader_bind_inv g4
  obtain ⟨c2, rfl⟩ := reject_ok h5
  obtain ⟨_, s6, h6, g6⟩ := reader_bind_inv g5
  obtain ⟨value, rfl, hval⟩ := discard_ok h6
  obtain ⟨fb, s7, h7, g7⟩ := reader_bind_inv g6
  obtain ⟨rfl, hfb⟩ := readFull_ok h7
  obtain ⟨_, s8, h8, g8⟩ := reader_bind_inv g7
  obtain ⟨category, hcat, rfl, rfl⟩ := readField_ok h8
  obtain ⟨_, s9, h9, g9⟩ := reader_bind_inv g8
  obtain ⟨provider, hprov, rfl, rfl⟩ := readField_ok h9
  obtain ⟨_, s10, h10, g10⟩ := reader_bind_inv g9
  obtain ⟨status, hstat, rfl, rfl⟩ := readField_ok h10
  obtain ⟨_, s11, h11, g11⟩ := reader_bind_inv g10
  obtain ⟨name, hname, rfl, rfl⟩ := readField_ok h11
  obtain ⟨_, s12, h12, g12⟩ := reader_bind_inv g11
  obtain ⟨total, htotal, rfl, rfl⟩ := readU64_ok h12
  have hflag : fb = [fb.headD 0] := by
    obtain ⟨x, rfl⟩ := List.length_eq_one_iff.mp hfb
    rfl
  have hklb : leBytes 4 (leNat kl) = kl := leBytes_leNat_of_length hkl
  have hvlb : leBytes 4 (leNat vl) = vl := leBytes_leNat_of_length hvl
  have hkl' : key.length ≤ maxKeySize := by omega
  have hvl' : value.length ≤ maxValueSize := by omega
  dsimp only at g12
  -- version 3 has two more fields behind the ones read so far
  by_cases hv : version ≥ 3
  · rw [if_pos hv] at g12
    obtain ⟨_, s13, h13, g13⟩ := reader_bind_inv g12
    obtain ⟨protocol, hprot, rfl, rfl⟩ := readField_ok h13
    obtain ⟨_, s14, h14, g14⟩ := reader_bind_inv g13
    obtain ⟨added, hadded, rfl, rfl⟩ := readU64_ok h14
    refine ⟨⟨key, value, fb.headD 0, category, provider, status, name, total, protocol, added⟩,
      ⟨hkl', hvl', hcat, hprov, hstat, hname, htotal, hprot, fun _ => hadded⟩, ?_, ?_⟩
    · cases g14
      simp only [LegacyRaw.bytes, LegacyRaw.head, LegacyRaw.tail, if_pos hv, hkey, hval, hklb, hvlb,
        ← hflag, List.append_assoc]
    · cases g14
      have hpos : pos + 4 + leNat kl + 4 + leNat vl + 1 + (LegacyRaw.field category).length +
          (LegacyRaw.field provider).length + (LegacyRaw.field status).length +
          (LegacyRaw.field name).length + 8 + (LegacyRaw.field protocol).length + 8 =
          pos + (LegacyRaw.bytes version ⟨key, value, fb.headD 0, category, provider, status, name,
            total, protocol, added⟩).length := by
        simp only [LegacyRaw.bytes, LegacyRaw.head, LegacyRaw.tail, if_pos hv, hkey, hval,
          List.length_append, leBytes_length, List.length_singleton, htotal, hadded]
        omega
      simp only [hpos, LegacyRaw.entry, LegacyRaw.head_length, LegacyRaw.attributeList, if_pos hv,
        insertAll_append, hkey, hval, Nat.add_sub_cancel_left]
      congr 2
      omega
  · rw [if_neg hv] at g12
    refine ⟨⟨key, value, fb.headD 0, category, provider, status, name, total, [], []⟩,
      ⟨hkl', hvl', hcat, hprov, hstat, hname, htotal, by simp, fun h => absurd h hv⟩, ?_, ?_⟩
    · cases g12
      simp only [LegacyRaw.bytes, LegacyRaw.head, LegacyRaw.tail, if_neg hv, hkey, hval, hklb, hvlb,
        ← hflag, List.append_assoc, List.nil_append]
    · cases g12
      have hpos : pos + 4 + leNat kl + 4 + leNat vl + 1 + (LegacyRaw.field category).length +
          (LegacyRaw.field provider).length + (LegacyRaw.field status).length +
          (LegacyRaw.field name).length + 8 =
          pos + (LegacyRaw.bytes version ⟨key, value, fb.headD 0, category, provider, status, name,
            total, [], []⟩).length := by
        simp only [LegacyRaw.bytes, LegacyRaw.head, LegacyRaw.tail, if_neg hv, hkey, hval,
          List.length_append, leBytes_length, List.length_singleton, htotal, List.length_nil]
        omega
      simp only [hpos, LegacyRaw.entry, LegacyRaw.head_length, LegacyRaw.attributeList, if_neg hv,
        List.append_nil, hkey, hval, Nat.add_sub_cancel_left]
      congr 2
      omega

/-! ## Forward -/

theorem readU32_bytes (n pos : ℕ) (t : Bytes) (h : n < 256 ^ 4) :
    readU32 pos (leBytes 4 n ++ t) = .ok ((n, pos + 4), t) := by
  unfold readU32
  rw [readBytes_bind _ _ _ _ (leBytes_length 4 n), leNat_leBytes 4 n h]
  rfl

theorem readU64_bytes (b : Bytes) (pos : ℕ) (t : Bytes) (h : b.length = 8) :
    readU64 pos (b ++ t) = .ok ((toInt64 (leNat b), pos + 8), t) := by
  unfold readU64
  rw [readBytes_bind _ _ _ _ h]
  rfl

theorem readString_bytes (b : Bytes) (pos : ℕ) (t : Bytes) :
    readString pos b.length (b ++ t) = .ok ((b, pos + b.length), t) := by
  unfold readString
  rw [readBytes_bind _ _ _ _ rfl]
  rfl

theorem readField_bytes (b : Bytes) (pos : ℕ) (t : Bytes) (h : b.length < 2 ^ 16) :
    readField pos (LegacyRaw.field b ++ t) = .ok ((b, pos + (LegacyRaw.field b).length), t) := by
  have hlen : readU16 pos (leBytes 2 b.length ++ (b ++ t)) = .ok ((b.length, pos + 2), b ++ t) := by
    unfold readU16
    rw [readBytes_bind _ _ _ _ (leBytes_length 2 _), leNat_leBytes 2 _ (by omega)]
    rfl
  unfold readField
  rw [LegacyRaw.field, List.append_assoc]
  refine (reader_bind_ok _ _ hlen).trans ((readString_bytes b (pos + 2) t).trans ?_)
  rw [List.length_append, leBytes_length, Nat.add_assoc]

/-- The reader on the fields that every version has, from the flags on. -/
theorem LegacyRaw.bytes_split (version : ℕ) (r : LegacyRaw) (t : Bytes) : r.bytes version ++ t =
    leBytes 4 r.key.length ++ (r.key ++ (leBytes 4 r.value.length ++ (r.value ++ ([r.flags] ++
      (field r.category ++ (field r.provider ++ (field r.status ++ (field r.name ++ (r.totalSize ++
        ((if version ≥ 3 then field r.protocol ++ r.addedOn else []) ++ t)))))))))) := by
  simp only [bytes, head, tail, List.append_assoc]

theorem readLegacyRecordFrom_bytes {version : ℕ} {r : LegacyRaw} (h : r.Fits version) (pos : ℕ) (t : Bytes) :
    readLegacyRecordFrom version pos (r.bytes version ++ t) =
      .ok ((r.entry version pos, pos + (r.bytes version).length), t) := by
  have h1 : maxKeySize = 1048576 := by decide
  have h2 : maxValueSize = 2147483647 := by decide
  have hk := h.key
  have hv := h.value
  have hlen : (r.bytes version).length = 4 + r.key.length + 4 + r.value.length + 1 +
      (LegacyRaw.field r.category).length + (LegacyRaw.field r.provider).length +
      (LegacyRaw.field r.status).length + (LegacyRaw.field r.name).length + 8 +
      (if version ≥ 3 then LegacyRaw.field r.protocol ++ r.addedOn else []).length := by
    simp only [LegacyRaw.bytes, LegacyRaw.head, LegacyRaw.tail, List.length_append, leBytes_length,
      List.length_singleton, h.totalSize]
    omega
  rw [LegacyRaw.bytes_split]
  unfold readLegacyRecordFrom
  refine (reader_bind_ok _ _ (readU32_bytes _ _ _ (by omega))).trans ?_
  refine (reject_bind _ _ _ (by omega)).trans ?_
  refine (reader_bind_ok _ _ (readString_bytes _ _ _)).trans ?_
  refine (reader_bind_ok _ _ (readU32_bytes _ _ _ (by omega))).trans ?_
  refine (reject_bind _ _ _ (by omega)).trans ?_
  refine (reader_bind_ok _ _ (discard_append _ _ _ _ rfl)).trans ?_
  refine (readBytes_bind 1 _ [r.flags] _ rfl).trans ?_
  refine (reader_bind_ok _ _ (readField_bytes _ _ _ h.category)).trans ?_
  refine (reader_bind_ok _ _ (readField_bytes _ _ _ h.provider)).trans ?_
  refine (reader_bind_ok _ _ (readField_bytes _ _ _ h.status)).trans ?_
  refine (reader_bind_ok _ _ (readField_bytes _ _ _ h.name)).trans ?_
  refine (reader_bind_ok _ _ (readU64_bytes _ _ _ h.totalSize)).trans ?_
  by_cases hver : version ≥ 3
  · rw [if_pos hver] at hlen
    dsimp only
    rw [if_pos hver, if_pos hver, List.append_assoc]
    refine (reader_bind_ok _ _ (readField_bytes _ _ _ h.protocol)).trans ?_
    refine (reader_bind_ok _ _ (readU64_bytes _ _ _ (h.addedOn hver))).trans ?_
    have hadd := h.addedOn hver
    rw [List.length_append, hadd] at hlen
    have hpos : pos + 4 + r.key.length + 4 + r.value.length + 1 + (LegacyRaw.field r.category).length +
        (LegacyRaw.field r.provider).length + (LegacyRaw.field r.status).length +
        (LegacyRaw.field r.name).length + 8 + (LegacyRaw.field r.protocol).length + 8 =
        pos + (r.bytes version).length := by omega
    have hoff : pos + 4 + r.key.length + 4 = pos + r.head.length := by
      rw [LegacyRaw.head_length]
      omega
    simp only [hpos]
    simp only [hoff, LegacyRaw.entry, LegacyRaw.attributeList, if_pos hver, insertAll_append,
      Nat.add_sub_cancel_left, List.headD_cons]
    rfl
  · rw [if_neg hver] at hlen
    dsimp only
    rw [if_neg hver, if_neg hver]
    rw [List.length_nil, Nat.add_zero] at hlen
    have hpos : pos + 4 + r.key.length + 4 + r.value.length + 1 + (LegacyRaw.field r.category).length +
        (LegacyRaw.field r.provider).length + (LegacyRaw.field r.status).length +
        (LegacyRaw.field r.name).length + 8 = pos + (r.bytes version).length := by omega
    have hoff : pos + 4 + r.key.length + 4 = pos + r.head.length := by
      rw [LegacyRaw.head_length]
      omega
    simp only [hpos]
    simp only [hoff, LegacyRaw.entry, LegacyRaw.attributeList, if_neg hver, List.append_nil,
      Nat.add_sub_cancel_left, List.headD_cons]
    rfl

/-! ## The attributes of an old record fit a new one -/

theorem toInt64_natAbs (n : ℕ) (h : n < 2 ^ 64) : (toInt64 n).natAbs < 10 ^ 19 := by
  unfold toInt64
  split
  · rename_i hn
    rw [Int.natAbs_natCast]
    omega
  · rename_i hn
    omega

theorem formatInt_length (n : ℕ) (h : n < 2 ^ 64) : (formatInt (toInt64 n)).length ≤ 20 := by
  have hd := Nat.toDigits_length 10 (toInt64 n).natAbs 19 (by decide) (toInt64_natAbs n h)
  unfold formatInt
  split
  · simp only [List.length_cons, List.length_map]
    omega
  · simp only [List.length_map]
    omega

theorem formatBool_length (b : Bool) : (formatBool b).length ≤ 5 := by
  cases b <;> decide

theorem formatBytes_length {b : Bytes} (h : b.length = 8) : (formatInt (toInt64 (leNat b))).length ≤ 20 := by
  have hlt := leNat_lt b
  rw [h] at hlt
  exact formatInt_length _ (by omega)

namespace LegacyRaw

theorem attributeList_nodup (version : ℕ) (r : LegacyRaw) : (r.attributeList version).NodupKeys := by
  unfold attributeList List.NodupKeys
  split
  · simp only [List.keys, List.map_append, List.map_cons, List.map_nil]
    decide
  · simp only [List.keys, List.map_append, List.map_cons, List.map_nil]
    decide

/-- The attributes of a record as a map with an order. -/
def attributeRange (version : ℕ) (r : LegacyRaw) : AttributeRange :=
  ⟨r.attributeList version, r.attributeList_nodup version⟩

theorem entry_attributes (version : ℕ) (r : LegacyRaw) (pos : ℕ) :
    (r.entry version pos).attributes = (r.attributeRange version).toFinmap := by
  have hentries : (r.attributeRange version).entries = r.attributeList version := rfl
  rw [← insertAll_toFinmap, hentries]
  rfl

/-- A name of a field and a text a 16-bit length can frame. -/
def Small (e : Attribute) : Prop := e.1 ≠ [] ∧ e.1.length ≤ 10 ∧ e.2.length < 2 ^ 16

theorem small_of {name value : Bytes} (hn : name ≠ [] ∧ name.length ≤ 10) (hv : value.length < 2 ^ 16) :
    Small ⟨name, value⟩ :=
  ⟨hn.1, hn.2, hv⟩

theorem encodable_of_small (es : List Attribute) (hcount : es.length ≤ 8) (h : ∀ e ∈ es, Small e) :
    Encodable es := by
  have hmax : maxAttributesSize = 16777216 := by decide
  have hcnt : maxAttributeCount = 4096 := rfl
  have hsum := List.sum_le_card_nsmul (es.map fun e => 6 + e.1.length + e.2.length) 65551 (by
    intro x hx
    obtain ⟨e, he, rfl⟩ := List.mem_map.mp hx
    obtain ⟨-, hn, hv⟩ := h e he
    omega)
  rw [List.length_map, smul_eq_mul] at hsum
  refine ⟨by omega, ?_, ?_⟩
  · intro e he
    obtain ⟨hne, hn, hv⟩ := h e he
    exact ⟨hne, by omega, by omega⟩
  · rw [attributeBlock_length]
    omega

theorem Fits.small {version : ℕ} {r : LegacyRaw} (h : r.Fits version) :
    ∀ e ∈ r.attributeList version, Small e := by
  have htotal := formatBytes_length h.totalSize
  have hbad := formatBool_length (r.flags &&& 2 ≠ 0)
  have hfive : ∀ e ∈ ([⟨legacyCategoryAttribute, r.category⟩, ⟨legacyProviderAttribute, r.provider⟩,
      ⟨legacyStatusAttribute, r.status⟩, ⟨legacyNameAttribute, r.name⟩,
      ⟨legacyTotalSizeAttribute, formatInt (toInt64 (leNat r.totalSize))⟩] : List Attribute), Small e := by
    simp only [List.forall_mem_cons]
    refine ⟨small_of (by decide) h.category, small_of (by decide) h.provider,
      small_of (by decide) h.status, small_of (by decide) h.name,
      small_of (by decide) (by omega), by simp⟩
  intro e he
  rcases List.mem_append.mp he with he | he
  · exact hfive e he
  · by_cases hv : version ≥ 3
    · have hadded := formatBytes_length (h.addedOn hv)
      have hthree : ∀ e ∈ ([⟨legacyProtocolAttribute, r.protocol⟩,
          ⟨legacyBadAttribute, formatBool (r.flags &&& 2 ≠ 0)⟩,
          ⟨legacyAddedOnAttribute, formatInt (toInt64 (leNat r.addedOn))⟩] : List Attribute), Small e := by
        simp only [List.forall_mem_cons]
        refine ⟨small_of (by decide) h.protocol, small_of (by decide) (by omega),
          small_of (by decide) (by omega), by simp⟩
      rw [if_pos hv] at he
      exact hthree e he
    · rw [if_neg hv] at he
      cases he

theorem Fits.encodable {version : ℕ} {r : LegacyRaw} (h : r.Fits version) :
    Encodable (r.attributeList version) := by
  refine encodable_of_small _ ?_ h.small
  unfold attributeList
  split <;> simp

end LegacyRaw

end AppendStore
