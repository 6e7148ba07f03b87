import AppendStore.Format.Record
import AppendStore.Format.Legacy

/-! # The writer of version 3 records

`encodeV3Record` of `downgrade.go` writes the old layout by hand. What it writes is a `LegacyRaw`
record (`encodeV3Record_ok`), and the attributes the reader makes of that record say what the original
attributes said (`SameFields`): texts are kept, and numbers and the flag may be spelled differently but
denote the same.
-/

namespace AppendStore
open Library
set_option autoImplicit false

/-! ## Numbers and flags as text -/

/-- Why `strconv` rejects a text. -/
inductive NumError
  | invalidSyntax
  | outOfRange
  deriving DecidableEq, Repr

/-- The text of a `strconv.NumError`. -/
def NumError.text (fn : String) (raw : Bytes) : NumError → String
  | .invalidSyntax => "strconv." ++ fn ++ ": parsing " ++ quoted raw ++ ": invalid syntax"
  | .outOfRange => "strconv." ++ fn ++ ": parsing " ++ quoted raw ++ ": value out of range"

/-- The loop of `strconv.ParseUint(s, 10, 64)`. -/
def parseDigits : ℕ → Bytes → Except NumError ℕ
  | n, [] => .ok n
  | n, c :: rest =>
    if c < 0x30 ∨ c > 0x39 then .error .invalidSyntax
    else if 10 * n + (c.toNat - 48) ≥ 2 ^ 64 then .error .outOfRange
    else parseDigits (10 * n + (c.toNat - 48)) rest

/-- The sign of a number, and the rest of its text. -/
def splitSign : Bytes → Bool × Bytes
  | [] => (false, [])
  | c :: rest => if c = 0x2b then (false, rest) else if c = 0x2d then (true, rest) else (false, c :: rest)

/-- `strconv.ParseInt(s, 10, 64)`. -/
def parseInt (s : Bytes) : Except NumError ℤ :=
  let (neg, digits) := splitSign s
  if digits = [] then .error .invalidSyntax
  else
    match parseDigits 0 digits with
    | .error e => .error e
    | .ok n =>
      if ¬ neg ∧ n ≥ 2 ^ 63 then .error .outOfRange
      else if neg ∧ n > 2 ^ 63 then .error .outOfRange
      else .ok (if neg then -(n : ℤ) else n)

/-- `strconv.ParseBool`. -/
def parseBool (s : Bytes) : Except NumError Bool :=
  if s ∈ ["1", "t", "T", "true", "TRUE", "True"].map ascii then .ok true
  else if s ∈ ["0", "f", "F", "false", "FALSE", "False"].map ascii then .ok false
  else .error .invalidSyntax

/-- The conversion `uint64(i)` of a signed number. -/
def toUint64 (i : ℤ) : ℕ := (i % 2 ^ 64).toNat

/-! ## The encoder -/

def v3Fields : List Bytes :=
  [legacyCategoryAttribute, legacyProviderAttribute, legacyStatusAttribute, legacyNameAttribute,
   legacyTotalSizeAttribute, legacyProtocolAttribute, legacyBadAttribute, legacyAddedOnAttribute]

def v3StringFields : List Bytes :=
  [legacyCategoryAttribute, legacyProviderAttribute, legacyStatusAttribute, legacyNameAttribute,
   legacyProtocolAttribute]

/-- `attributes[name]`. -/
def attributeText (attributes : AttributeRange) (name : Bytes) : Bytes := (attributes.lookup name).getD []

def v3Number (key : Bytes) (attributes : AttributeRange) (name : Bytes) : Except Err ℤ :=
  let raw := attributeText attributes name
  if raw = [] then .ok 0
  else
    match parseInt raw with
    | .ok number => .ok number
    | .error e =>
      .error (.wrap ("key " ++ quoted key ++ " attribute " ++ quoted name ++ " is not a version 3 number")
        (.plain (e.text "ParseInt" raw)))

/-- The flag of `encodeV3Record`. -/
def v3Flag (key : Bytes) (attributes : AttributeRange) : Except Err Bool :=
  let raw := attributeText attributes legacyBadAttribute
  if raw = [] then .ok false
  else
    match parseBool raw with
    | .ok bad => .ok bad
    | .error e =>
      .error (.wrap ("key " ++ quoted key ++ " attribute " ++ quoted legacyBadAttribute ++
        " is not a version 3 flag") (.plain (e.text "ParseBool" raw)))

def appendField (buf text : Bytes) : Bytes := buf ++ leBytes 2 text.length ++ text

def encodeV3Record (key value extensions : Bytes) (attributes : AttributeRange) : Except Err Bytes :=
  if extensions.length > 0 then
    .error (.plain ("key " ++ quoted key ++ " carries an extension that version 3 cannot express"))
  else
    match attributes.entries.find? fun e => e.1 ∉ v3Fields with
    | some e =>
      .error (.plain ("key " ++ quoted key ++ " has attribute " ++ quoted e.1 ++
        ", which version 3 has no field for"))
    | none =>
      match v3StringFields.find? fun name => (attributeText attributes name).length > 1 <<< 16 - 1 with
      | some name =>
        .error (.plain ("key " ++ quoted key ++ " attribute " ++ quoted name ++
          s!" is {(attributeText attributes name).length} bytes, more than a version 3 field holds"))
      | none => do
        let totalSize ← v3Number key attributes legacyTotalSizeAttribute
        let addedOn ← v3Number key attributes legacyAddedOnAttribute
        let bad ← v3Flag key attributes
        let flags : UInt8 := if bad then 2 else 0
        let buf := leBytes 4 key.length
        let buf := buf ++ key
        let buf := buf ++ leBytes 4 value.length
        let buf := buf ++ value
        let buf := buf ++ [flags]
        let buf := appendField buf (attributeText attributes legacyCategoryAttribute)
        let buf := appendField buf (attributeText attributes legacyProviderAttribute)
        let buf := appendField buf (attributeText attributes legacyStatusAttribute)
        let buf := appendField buf (attributeText attributes legacyNameAttribute)
        let buf := buf ++ leBytes 8 (toUint64 totalSize)
        let buf := appendField buf (attributeText attributes legacyProtocolAttribute)
        let buf := buf ++ leBytes 8 (toUint64 addedOn)
        return buf

/-! ## Numbers and flags read back -/

theorem parseDigits_concat (n : ℕ) (b : Bytes) (c : UInt8) :
    parseDigits n (b ++ [c]) = (parseDigits n b).bind fun m => parseDigits m [c] := by
  induction b generalizing n with
  | nil => rfl
  | cons x b ih =>
    rw [List.cons_append, parseDigits, parseDigits]
    split
    · rfl
    · split
      · rfl
      · exact ih _

theorem parseDigits_digit (n k : ℕ) (hk : k < 10) (hn : 10 * n + k < 2 ^ 64) :
    parseDigits n [UInt8.ofNat k.digitChar.toNat] = .ok (10 * n + k) := by
  have hchar : (UInt8.ofNat k.digitChar.toNat).toNat = 48 + k := by
    rw [Nat.toNat_digitChar_of_lt_ten hk, UInt8.toNat_ofNat']
    omega
  have hlow : ¬ UInt8.ofNat k.digitChar.toNat < 0x30 := by
    rw [UInt8.lt_iff_toNat_lt, hchar]
    change ¬ 48 + k < 48
    omega
  have hhigh : ¬ UInt8.ofNat k.digitChar.toNat > 0x39 := by
    rw [gt_iff_lt, UInt8.lt_iff_toNat_lt, hchar]
    change ¬ 57 < 48 + k
    omega
  rw [parseDigits, if_neg (not_or.mpr ⟨hlow, hhigh⟩), hchar, Nat.add_sub_cancel_left,
    if_neg (Nat.not_le.mpr hn), parseDigits]

theorem parseDigits_toDigits (n : ℕ) (hn : n < 2 ^ 64) :
    parseDigits 0 ((Nat.toDigits 10 n).map fun c => UInt8.ofNat c.toNat) = .ok n := by
  induction n using Nat.strong_induction_on with
  | _ n ih =>
    by_cases hlt : n < 10
    · have hdigit := parseDigits_digit 0 n hlt (by omega)
      rw [Nat.mul_zero, Nat.zero_add] at hdigit
      rw [Nat.toDigits_of_lt_base hlt]
      exact hdigit
    · have hdigit := parseDigits_digit (n / 10) (n % 10) (Nat.mod_lt _ (by decide)) (by omega)
      have hsplit : 10 * (n / 10) + n % 10 = n := Nat.div_add_mod n 10
      rw [hsplit] at hdigit
      rw [Nat.toDigits_of_base_le (by decide) (by omega), List.map_append, List.map_singleton,
        parseDigits_concat, ih (n / 10) (by omega) (by omega)]
      exact hdigit

/-- The first digit of a number is no sign. -/
theorem splitSign_toDigits (n : ℕ) :
    splitSign ((Nat.toDigits 10 n).map fun c => UInt8.ofNat c.toNat) =
      (false, (Nat.toDigits 10 n).map fun c => UInt8.ofNat c.toNat) := by
  have hne : ∀ k, k < 10 → UInt8.ofNat k.digitChar.toNat ≠ 0x2b ∧ UInt8.ofNat k.digitChar.toNat ≠ 0x2d := by
    decide
  have hhead : ∃ k rest, k < 10 ∧ Nat.toDigits 10 n = k.digitChar :: rest := by
    induction n using Nat.strong_induction_on with
    | _ n ih =>
      by_cases hlt : n < 10
      · exact ⟨n, [], hlt, Nat.toDigits_of_lt_base hlt⟩
      · obtain ⟨k, rest, hk, hrest⟩ := ih (n / 10) (by omega)
        refine ⟨k, rest ++ [(n % 10).digitChar], hk, ?_⟩
        rw [Nat.toDigits_of_base_le (by decide) (by omega), hrest, List.cons_append]
  obtain ⟨k, rest, hk, hrest⟩ := hhead
  rw [hrest, List.map_cons, splitSign, if_neg (hne k hk).1, if_neg (hne k hk).2]

/-- **A number that was written reads back.** -/
theorem parseInt_formatInt {i : ℤ} (hlow : -2 ^ 63 ≤ i) (hhigh : i < 2 ^ 63) : parseInt (formatInt i) = .ok i := by
  have hdigits : (Nat.toDigits 10 i.natAbs).map (fun c => UInt8.ofNat c.toNat) ≠ [] := by
    rw [ne_eq, List.map_eq_nil_iff]
    exact Nat.toDigits_ne_nil
  have hparse := parseDigits_toDigits i.natAbs (by omega)
  unfold formatInt parseInt
  dsimp only
  by_cases hneg : i < 0
  · have hsign : splitSign (0x2d :: (Nat.toDigits 10 i.natAbs).map fun c => UInt8.ofNat c.toNat) =
        (true, (Nat.toDigits 10 i.natAbs).map fun c => UInt8.ofNat c.toNat) := rfl
    rw [if_pos hneg, hsign]
    dsimp only
    rw [if_neg hdigits, hparse]
    dsimp only
    rw [if_neg (by simp), if_neg (by omega), if_pos rfl]
    congr 1
    omega
  · rw [if_neg hneg, splitSign_toDigits]
    dsimp only
    rw [if_neg hdigits, hparse]
    dsimp only
    rw [if_neg (by omega), if_neg (by simp), if_neg Bool.false_ne_true]
    congr 1
    omega

theorem parseInt_range {s : Bytes} {i : ℤ} (h : parseInt s = .ok i) : -2 ^ 63 ≤ i ∧ i < 2 ^ 63 := by
  unfold parseInt at h
  dsimp only at h
  split at h
  · cases h
  · split at h
    · cases h
    · rename_i n _
      cases hneg : (splitSign s).1 with
      | false =>
        rw [hneg] at h
        by_cases hn : n ≥ 2 ^ 63
        · rw [if_pos ⟨Bool.false_ne_true, hn⟩] at h
          cases h
        · rw [if_neg fun hc => hn hc.2, if_neg fun hc => Bool.false_ne_true hc.1, if_neg Bool.false_ne_true] at h
          cases h
          omega
      | true =>
        rw [hneg] at h
        by_cases hn : n > 2 ^ 63
        · rw [if_neg fun hc => hc.1 rfl, if_pos ⟨rfl, hn⟩] at h
          cases h
        · rw [if_neg fun hc => hc.1 rfl, if_neg fun hc => hn hc.2, if_pos rfl] at h
          cases h
          omega

theorem toInt64_toUint64 {i : ℤ} (hlow : -2 ^ 63 ≤ i) (hhigh : i < 2 ^ 63) :
    toInt64 (leNat (leBytes 8 (toUint64 i))) = i := by
  have hlt : toUint64 i < 256 ^ 8 := by
    unfold toUint64
    omega
  rw [leNat_leBytes 8 _ hlt]
  unfold toInt64 toUint64
  split <;> omega

theorem parseBool_formatBool (b : Bool) : parseBool (formatBool b) = .ok b := by
  cases b <;> decide

/-! ## What the encoder writes -/

/-- The record that `encodeV3Record` writes. -/
def v3Raw (key value : Bytes) (attributes : AttributeRange) (totalSize addedOn : ℤ) (bad : Bool) : LegacyRaw where
  key := key
  value := value
  flags := if bad then 2 else 0
  category := attributeText attributes legacyCategoryAttribute
  provider := attributeText attributes legacyProviderAttribute
  status := attributeText attributes legacyStatusAttribute
  name := attributeText attributes legacyNameAttribute
  totalSize := leBytes 8 (toUint64 totalSize)
  protocol := attributeText attributes legacyProtocolAttribute
  addedOn := leBytes 8 (toUint64 addedOn)

/-- The number an attribute denotes. Where there is no attribute, or an empty one, it is zero. -/
def numberOf (m : Attributes) (name : Bytes) : Option ℤ :=
  let raw := (m.lookup name).getD []
  if raw = [] then some 0 else (parseInt raw).toOption

/-- What the attribute `bad` denotes. -/
def flagOf (m : Attributes) : Option Bool :=
  let raw := (m.lookup legacyBadAttribute).getD []
  if raw = [] then some false else (parseBool raw).toOption

/-- The attributes `m'` of a version 3 record say what `m` says. -/
structure SameFields (m m' : Attributes) : Prop where
  names : ∀ name, name ∈ m' ↔ name ∈ v3Fields
  texts : ∀ name ∈ v3StringFields, m'.lookup name = some ((m.lookup name).getD [])
  totalSize : ∃ n, numberOf m legacyTotalSizeAttribute = some n ∧ numberOf m' legacyTotalSizeAttribute = some n
  addedOn : ∃ n, numberOf m legacyAddedOnAttribute = some n ∧ numberOf m' legacyAddedOnAttribute = some n
  bad : ∃ b, flagOf m = some b ∧ flagOf m' = some b

section
variable {key value extensions b : Bytes} {attributes : AttributeRange}

theorem attributeText_eq (attributes : AttributeRange) (name : Bytes) :
    attributeText attributes name = (attributes.toFinmap.lookup name).getD [] := by
  rw [attributeText, Finmap.lookup_toFinmap]

theorem v3Number_ok {name : Bytes} {n : ℤ} (h : v3Number key attributes name = .ok n) :
    numberOf attributes.toFinmap name = some n ∧ -2 ^ 63 ≤ n ∧ n < 2 ^ 63 := by
  unfold v3Number at h
  unfold numberOf
  rw [← attributeText_eq]
  dsimp only at h ⊢
  split at h
  · rename_i hempty
    cases h
    rw [if_pos hempty]
    exact ⟨rfl, by decide, by decide⟩
  · rename_i hne
    rw [if_neg hne]
    split at h
    · rename_i number hparse
      cases h
      exact ⟨by rw [hparse]; rfl, parseInt_range hparse⟩
    · cases h

theorem v3Flag_ok {bad : Bool} (h : v3Flag key attributes = .ok bad) : flagOf attributes.toFinmap = some bad := by
  unfold v3Flag at h
  unfold flagOf
  rw [← attributeText_eq]
  dsimp only at h ⊢
  split at h
  · rename_i hempty
    cases h
    rw [if_pos hempty]
  · rename_i hne
    rw [if_neg hne]
    split at h
    · rename_i bad' hparse
      cases h
      rw [hparse]
      rfl
    · cases h

/-- The fields of an encoded record. -/
theorem encodeV3Record_ok (h : encodeV3Record key value extensions attributes = .ok b) :
    ∃ totalSize addedOn bad, extensions = [] ∧ (∀ e ∈ attributes.entries, e.1 ∈ v3Fields) ∧
      (∀ name ∈ v3StringFields, (attributeText attributes name).length < 2 ^ 16) ∧
      v3Number key attributes legacyTotalSizeAttribute = .ok totalSize ∧
      v3Number key attributes legacyAddedOnAttribute = .ok addedOn ∧ v3Flag key attributes = .ok bad ∧
      b = (v3Raw key value attributes totalSize addedOn bad).bytes 3 := by
  unfold encodeV3Record at h
  split at h
  · cases h
  · rename_i hext
    split at h
    · cases h
    · rename_i hnames
      split at h
      · cases h
      · rename_i hlong
        cases htotal : v3Number key attributes legacyTotalSizeAttribute with
        | error e => simp only [htotal, bind, Except.bind, reduceCtorEq] at h
        | ok totalSize =>
          cases hadded : v3Number key attributes legacyAddedOnAttribute with
          | error e => simp only [htotal, hadded, bind, Except.bind, reduceCtorEq] at h
          | ok addedOn =>
            cases hbad : v3Flag key attributes with
            | error e => simp only [htotal, hadded, hbad, bind, Except.bind, reduceCtorEq] at h
            | ok bad =>
              simp only [htotal, hadded, hbad, bind, Except.bind, pure, Except.pure, Except.ok.injEq] at h
              refine ⟨totalSize, addedOn, bad, List.length_eq_zero_iff.mp (by omega), ?_, ?_, rfl, rfl, rfl, ?_⟩
              · intro e he
                have hknown := List.find?_eq_none.mp hnames e he
                simpa only [decide_eq_true_eq, not_not] using hknown
              · intro name hname
                have hshort := List.find?_eq_none.mp hlong name hname
                simp only [gt_iff_lt, decide_eq_true_eq, Nat.not_lt] at hshort
                have hmax : 1 <<< 16 - 1 = 65535 := rfl
                omega
              · rw [← h]
                simp only [LegacyRaw.bytes, LegacyRaw.head, LegacyRaw.tail, LegacyRaw.field, v3Raw, appendField,
                  ge_iff_le, le_refl, if_true, List.append_assoc]

/-- An encoded record is within the limits of the reader. -/
theorem v3Raw_fits (hkey : key.length ≤ maxKeySize) (hvalue : value.length ≤ maxValueSize)
    (htexts : ∀ name ∈ v3StringFields, (attributeText attributes name).length < 2 ^ 16) (totalSize addedOn : ℤ)
    (bad : Bool) : (v3Raw key value attributes totalSize addedOn bad).Fits 3 where
  key := hkey
  value := hvalue
  category := htexts _ (by decide)
  provider := htexts _ (by decide)
  status := htexts _ (by decide)
  name := htexts _ (by decide)
  totalSize := leBytes_length 8 _
  protocol := htexts _ (by decide)
  addedOn := fun _ => leBytes_length 8 _

theorem formatInt_ne_nil (i : ℤ) : formatInt i ≠ [] := by
  unfold formatInt
  split
  · exact List.cons_ne_nil _ _
  · rw [ne_eq, List.map_eq_nil_iff]
    exact Nat.toDigits_ne_nil

theorem numberOf_formatInt {m : Attributes} {name : Bytes} {i : ℤ} (hlow : -2 ^ 63 ≤ i) (hhigh : i < 2 ^ 63)
    (h : m.lookup name = some (formatInt i)) : numberOf m name = some i := by
  unfold numberOf
  rw [h]
  dsimp only [Option.getD_some]
  rw [if_neg (formatInt_ne_nil i), parseInt_formatInt hlow hhigh]
  rfl

theorem flagOf_formatBool {m : Attributes} {b : Bool} (h : m.lookup legacyBadAttribute = some (formatBool b)) :
    flagOf m = some b := by
  have hne : formatBool b ≠ [] := by cases b <;> decide
  unfold flagOf
  rw [h]
  dsimp only [Option.getD_some]
  rw [if_neg hne, parseBool_formatBool]
  rfl

/-- The attributes of an encoded record, as the reader makes them. -/
def v3Attributes (attributes : AttributeRange) (totalSize addedOn : ℤ) (bad : Bool) : List Attribute :=
  [⟨legacyCategoryAttribute, attributeText attributes legacyCategoryAttribute⟩,
   ⟨legacyProviderAttribute, attributeText attributes legacyProviderAttribute⟩,
   ⟨legacyStatusAttribute, attributeText attributes legacyStatusAttribute⟩,
   ⟨legacyNameAttribute, attributeText attributes legacyNameAttribute⟩,
   ⟨legacyTotalSizeAttribute, formatInt totalSize⟩,
   ⟨legacyProtocolAttribute, attributeText attributes legacyProtocolAttribute⟩,
   ⟨legacyBadAttribute, formatBool bad⟩, ⟨legacyAddedOnAttribute, formatInt addedOn⟩]

theorem v3Raw_lookup {totalSize addedOn : ℤ}
    (htotal : v3Number key attributes legacyTotalSizeAttribute = .ok totalSize)
    (hadded : v3Number key attributes legacyAddedOnAttribute = .ok addedOn) (value : Bytes) (bad : Bool)
    (name : Bytes) :
    (insertAll ((v3Raw key value attributes totalSize addedOn bad).attributeList 3) ∅).lookup name =
      (v3Attributes attributes totalSize addedOn bad).dlookup name := by
  obtain ⟨-, hlow, hhigh⟩ := v3Number_ok htotal
  obtain ⟨-, hlow', hhigh'⟩ := v3Number_ok hadded
  have hlist : (v3Raw key value attributes totalSize addedOn bad).attributeList 3 =
      v3Attributes attributes totalSize addedOn bad := by
    have hflag : decide ((if bad then (2 : UInt8) else 0) &&& 2 ≠ 0) = bad := by cases bad <;> decide
    unfold LegacyRaw.attributeList v3Raw
    dsimp only
    rw [if_pos (le_refl 3), toInt64_toUint64 hlow hhigh, toInt64_toUint64 hlow' hhigh', hflag]
    rfl
  rw [insertAll_lookup _ _ (LegacyRaw.attributeList_nodup 3 _), Finmap.lookup_empty, Option.or_none, hlist]

theorem v3Attributes_text {totalSize addedOn : ℤ} {bad : Bool} {name : Bytes} (hname : name ∈ v3StringFields) :
    (v3Attributes attributes totalSize addedOn bad).dlookup name = some (attributeText attributes name) := by
  simp only [v3StringFields, List.mem_cons, List.not_mem_nil, or_false] at hname
  rcases hname with rfl | rfl | rfl | rfl | rfl <;> rfl

/-- **The attributes of an encoded record say what the original ones say.** -/
theorem v3Raw_sameFields {totalSize addedOn : ℤ} {bad : Bool}
    (htotal : v3Number key attributes legacyTotalSizeAttribute = .ok totalSize)
    (hadded : v3Number key attributes legacyAddedOnAttribute = .ok addedOn)
    (hbad : v3Flag key attributes = .ok bad) :
    SameFields attributes.toFinmap
      (insertAll ((v3Raw key value attributes totalSize addedOn bad).attributeList 3) ∅) := by
  obtain ⟨hnum, hlow, hhigh⟩ := v3Number_ok htotal
  obtain ⟨hnum', hlow', hhigh'⟩ := v3Number_ok hadded
  have hlookup := v3Raw_lookup htotal hadded value bad
  refine ⟨?_, ?_, ⟨totalSize, hnum, ?_⟩, ⟨addedOn, hnum', ?_⟩, ⟨bad, v3Flag_ok hbad, ?_⟩⟩
  · intro name
    rw [← Finmap.lookup_isSome, hlookup, List.dlookup_isSome]
    rfl
  · intro name hname
    rw [hlookup, ← attributeText_eq, v3Attributes_text hname]
  · exact numberOf_formatInt hlow hhigh (hlookup _)
  · exact numberOf_formatInt hlow' hhigh' (hlookup _)
  · exact flagOf_formatBool (hlookup _)

/-! ## Which texts are given back -/

/-- The text of a 64-bit number as `FormatInt` spells it, or no text. -/
def CanonicalNumber (raw : Bytes) : Prop := raw = [] ∨ ∃ i, -2 ^ 63 ≤ i ∧ i < 2 ^ 63 ∧ raw = formatInt i

/-- The text of a flag as `FormatBool` spells it, or no text. -/
def CanonicalFlag (raw : Bytes) : Prop := raw = [] ∨ ∃ b, raw = formatBool b

/-- The reader finds the key, the size of the value, and every non-empty attribute of a map. -/
def ReadsBack (key value : Bytes) (attributes : AttributeRange) (b : Bytes) : Prop :=
  ∃ record next rest, readLegacyRecordFrom 3 0 b = .ok ((record, next), rest) ∧ record.key = key ∧
    record.size = value.length ∧
    ∀ name text, attributes.lookup name = some text → text ≠ [] → record.attributes.lookup name = some text

theorem attributeText_of_ne {name : Bytes} (h : attributeText attributes name ≠ []) :
    attributes.lookup name = some (attributeText attributes name) := by
  unfold attributeText at h ⊢
  cases hl : attributes.lookup name with
  | none => rw [hl] at h; exact absurd rfl h
  | some text => rfl

/-- A number comes back as it was spelled exactly if its spelling is the canonical one. -/
theorem v3Number_canonical {name : Bytes} {n : ℤ} (h : v3Number key attributes name = .ok n) :
    (attributeText attributes name ≠ [] → formatInt n = attributeText attributes name) ↔
      CanonicalNumber (attributeText attributes name) := by
  obtain ⟨-, hlow, hhigh⟩ := v3Number_ok h
  by_cases hempty : attributeText attributes name = []
  · exact ⟨fun _ => .inl hempty, fun _ hne => absurd hempty hne⟩
  · constructor
    · intro hformat
      exact .inr ⟨n, hlow, hhigh, (hformat hempty).symm⟩
    · rintro (hnil | ⟨i, hilow, hihigh, hi⟩) -
      · exact absurd hnil hempty
      · unfold v3Number at h
        dsimp only at h
        rw [if_neg hempty, hi, parseInt_formatInt hilow hihigh] at h
        rw [hi, Except.ok.inj h]

theorem v3Flag_canonical {bad : Bool} (h : v3Flag key attributes = .ok bad) :
    (attributeText attributes legacyBadAttribute ≠ [] →
        formatBool bad = attributeText attributes legacyBadAttribute) ↔
      CanonicalFlag (attributeText attributes legacyBadAttribute) := by
  by_cases hempty : attributeText attributes legacyBadAttribute = []
  · exact ⟨fun _ => .inl hempty, fun _ hne => absurd hempty hne⟩
  · constructor
    · intro hformat
      exact .inr ⟨bad, (hformat hempty).symm⟩
    · rintro (hnil | ⟨b, hb⟩) -
      · exact absurd hnil hempty
      · unfold v3Flag at h
        dsimp only at h
        rw [if_neg hempty, hb, parseBool_formatBool] at h
        rw [hb, Except.ok.inj h]

/-- **Which records version 3 gives back verbatim.** A record that `encodeV3Record` accepts is read back
with every non-empty attribute as it was exactly if its key and value are within the limits of the
reader, and its numbers and its flag are spelled as `strconv` formats them. -/
theorem v3_reads_back_iff (h : encodeV3Record key value extensions attributes = .ok b) :
    ReadsBack key value attributes b ↔
      key.length ≤ maxKeySize ∧ value.length ≤ maxValueSize ∧
      CanonicalNumber (attributeText attributes legacyTotalSizeAttribute) ∧
      CanonicalNumber (attributeText attributes legacyAddedOnAttribute) ∧
      CanonicalFlag (attributeText attributes legacyBadAttribute) := by
  obtain ⟨totalSize, addedOn, bad, -, hnames, htexts, htotal, hadded, hbad, rfl⟩ := encodeV3Record_ok h
  have hlookup := v3Raw_lookup htotal hadded value bad
  rw [← v3Number_canonical htotal, ← v3Number_canonical hadded, ← v3Flag_canonical hbad]
  -- within the limits the reader returns the encoded record
  have hread : key.length ≤ maxKeySize → value.length ≤ maxValueSize →
      readLegacyRecordFrom 3 0 ((v3Raw key value attributes totalSize addedOn bad).bytes 3) =
        .ok (((v3Raw key value attributes totalSize addedOn bad).entry 3 0,
          0 + ((v3Raw key value attributes totalSize addedOn bad).bytes 3).length), []) := by
    intro hkey hvalue
    have hok := readLegacyRecordFrom_bytes (v3Raw_fits hkey hvalue htexts totalSize addedOn bad) 0 []
    rwa [List.append_nil] at hok
  constructor
  · rintro ⟨record, next, rest, hok, hkey, hsize, hback⟩
    obtain ⟨r, hfits, -, hout⟩ := readLegacyRecordFrom_ok hok
    have hrecord : record = r.entry 3 0 := congrArg Prod.fst hout
    have hkeyLimit : key.length ≤ maxKeySize := by
      rw [← hkey, hrecord]
      exact hfits.key
    have hvalueLimit : value.length ≤ maxValueSize := by
      rw [← hsize, hrecord]
      exact hfits.value
    rw [hread hkeyLimit hvalueLimit] at hok
    cases hok
    refine ⟨hkeyLimit, hvalueLimit, ?_, ?_, ?_⟩
    · intro hne
      have hsame := (hlookup _).symm.trans (hback _ _ (attributeText_of_ne hne) hne)
      exact Option.some.inj hsame
    · intro hne
      have hsame := (hlookup _).symm.trans (hback _ _ (attributeText_of_ne hne) hne)
      exact Option.some.inj hsame
    · intro hne
      have hsame := (hlookup _).symm.trans (hback _ _ (attributeText_of_ne hne) hne)
      exact Option.some.inj hsame
  · rintro ⟨hkey, hvalue, htotalText, haddedText, hbadText⟩
    refine ⟨_, _, _, hread hkey hvalue, rfl, rfl, ?_⟩
    intro name text hname hne
    have htext : attributeText attributes name = text := by rw [attributeText, hname, Option.getD_some]
    rw [← htext] at hne
    refine (hlookup name).trans ?_
    rw [← htext]
    have hfield : name ∈ v3Fields := hnames ⟨name, text⟩ (AList.mem_lookup_iff.mp hname)
    simp only [v3Fields, List.mem_cons, List.not_mem_nil, or_false] at hfield
    rcases hfield with rfl | rfl | rfl | rfl | rfl | rfl | rfl | rfl
    · exact v3Attributes_text (by decide)
    · exact v3Attributes_text (by decide)
    · exact v3Attributes_text (by decide)
    · exact v3Attributes_text (by decide)
    · exact congrArg some (htotalText hne)
    · exact v3Attributes_text (by decide)
    · exact congrArg some (hbadText hne)
    · exact congrArg some (haddedText hne)

/-- The attribute `total_size` alone. -/
def totalSizeOnly (text : String) : AttributeRange := AList.singleton legacyTotalSizeAttribute (ascii text)

/-- The number 5 spelled as `FormatInt` spells it. -/
theorem v3_reads_back_five : ∃ b, encodeV3Record [1] [2] [] (totalSizeOnly "5") = .ok b ∧
    ReadsBack [1] [2] (totalSizeOnly "5") b := by
  obtain ⟨b, hb⟩ : ∃ b, encodeV3Record [1] [2] [] (totalSizeOnly "5") = .ok b := ⟨_, rfl⟩
  exact ⟨b, hb, (v3_reads_back_iff hb).mpr
    ⟨by decide, by decide, .inr ⟨5, by decide, by decide, by decide⟩, .inl rfl, .inl rfl⟩⟩

/-- **A number with a sign is rewritten.** `+5` is accepted and comes back as `5`. -/
theorem v3_rewrites_plus_five : ∃ b record next, encodeV3Record [1] [2] [] (totalSizeOnly "+5") = .ok b ∧
    readLegacyRecordFrom 3 0 b = .ok ((record, next), []) ∧
    (totalSizeOnly "+5").lookup legacyTotalSizeAttribute = some (ascii "+5") ∧
    record.attributes.lookup legacyTotalSizeAttribute = some (ascii "5") ∧
    ¬ ReadsBack [1] [2] (totalSizeOnly "+5") b := by
  have hfits : (v3Raw [1] [2] (totalSizeOnly "+5") 5 0 false).Fits 3 :=
    v3Raw_fits (by decide) (by decide) (by decide) 5 0 false
  have hread := readLegacyRecordFrom_bytes hfits 0 []
  rw [List.append_nil] at hread
  have htotal : v3Number [1] (totalSizeOnly "+5") legacyTotalSizeAttribute = .ok 5 := rfl
  have hadded : v3Number [1] (totalSizeOnly "+5") legacyAddedOnAttribute = .ok 0 := rfl
  have hlookup : ((v3Raw [1] [2] (totalSizeOnly "+5") 5 0 false).entry 3 0).attributes.lookup
      legacyTotalSizeAttribute = some (ascii "5") := v3Raw_lookup htotal hadded [2] false legacyTotalSizeAttribute
  refine ⟨(v3Raw [1] [2] (totalSizeOnly "+5") 5 0 false).bytes 3, _, _, rfl, hread, by decide, hlookup, ?_⟩
  rintro ⟨record, next, rest, hok, -, -, hback⟩
  have hrecord : record = (v3Raw [1] [2] (totalSizeOnly "+5") 5 0 false).entry 3 0 := by
    rw [hread] at hok
    cases hok
    rfl
  have hplus := hback legacyTotalSizeAttribute (ascii "+5") (by decide) (by decide)
  rw [hrecord, hlookup] at hplus
  exact absurd hplus (by decide)

end

end AppendStore
