import AppendStore.Library.Checked
import AppendStore.Library.PrefixCode
import AppendStore.Format.Record

/-! # The extension area of a record

An area is a concatenation of entries: a 16-bit tag, a 32-bit length and a payload of that length. The entries
form a prefix code, so an area has one decomposition. `validateExtensions` accepts the areas and nothing else
(`validateExtensions_iff`).
-/

namespace AppendStore
open Library
set_option autoImplicit false

/-- An entry, within the range of its two fields. -/
structure ExtensionEntry where
  tag : ℕ
  payload : Bytes
  tag_lt : tag < 2 ^ 16
  payload_lt : payload.length < 2 ^ 32
  deriving DecidableEq

namespace ExtensionEntry

def bytes (e : ExtensionEntry) : Bytes := leBytes 2 e.tag ++ leBytes 4 e.payload.length ++ e.payload

theorem bytes_length (e : ExtensionEntry) : e.bytes.length = extensionHeaderSize + e.payload.length := by
  simp only [bytes, List.length_append, leBytes_length]
  rfl

/-- The length field, wherever the entry stands. -/
theorem length_field (e : ExtensionEntry) (before after : Bytes) :
    leNat (slice (before ++ e.bytes ++ after) (before.length + 2) (before.length + 2 + 4)) = e.payload.length := by
  have hslice : slice (before ++ e.bytes ++ after) (before.length + 2) (before.length + 2 + 4) =
      leBytes 4 e.payload.length := by
    refine slice_at (p := before.length) (a := leBytes 2 e.tag) (t := e.payload ++ after) ?_ (by simp) (by simp)
    rw [List.append_assoc, List.drop_left]
    simp only [bytes, List.append_assoc]
  rw [hslice]
  exact leNat_leBytes 4 _ e.payload_lt

theorem prefixCode : PrefixCode bytes := by
  refine ⟨fun e => ?_, fun e f s t heq => ?_⟩
  · rw [← List.length_pos_iff, bytes_length]
    exact Nat.lt_of_lt_of_le (by decide) (Nat.le_add_right _ _)
  · simp only [bytes, List.append_assoc] at heq
    obtain ⟨htag, hrest⟩ := List.append_inj heq (by simp)
    obtain ⟨hlen, hrest⟩ := List.append_inj hrest (by simp)
    have htag : e.tag = f.tag := by
      rw [← leNat_leBytes 2 e.tag e.tag_lt, ← leNat_leBytes 2 f.tag f.tag_lt, htag]
    have hlen : e.payload.length = f.payload.length := by
      rw [← leNat_leBytes 4 _ e.payload_lt, ← leNat_leBytes 4 _ f.payload_lt, hlen]
    have hpayload := (List.append_inj hrest hlen).1
    obtain ⟨tag, payload, h1, h2⟩ := e
    obtain ⟨tag', payload', h1', h2'⟩ := f
    dsimp only at htag hpayload
    subst htag hpayload
    rfl

end ExtensionEntry

/-! ## The validator -/

/-- `validateExtensions` with the bounds check of its slice expression, and `none` also where the loop would go on
for ever. -/
def validateExtensionsCheckedFrom (extensions : Bytes) : ℕ → ℕ → Option (Except Err Unit)
  | 0, _ => none
  | fuel + 1, pos =>
    if pos < extensions.length then
      if extensions.length - pos < extensionHeaderSize then
        some (.error (.plain s!"extension entry at {pos} is truncated"))
      else do
        let length ← (cut extensions (pos + 2) (pos + 2 + 4)).map leNat
        if length > extensions.length - (pos + extensionHeaderSize) then
          some (.error (.plain s!"extension entry at {pos} claims {length} bytes"))
        else validateExtensionsCheckedFrom extensions fuel (pos + extensionHeaderSize + length)
    else some (.ok ())

def validateExtensionsChecked (extensions : Bytes) : Option (Except Err Unit) :=
  validateExtensionsCheckedFrom extensions (extensions.length + 1) 0

section
variable {extensions : Bytes}

theorem validateExtensionsCheckedFrom_eq {fuel pos : ℕ} (hpos : pos ≤ extensions.length)
    (hfuel : extensions.length < pos + fuel) :
    validateExtensionsCheckedFrom extensions fuel pos = some (validateExtensionsFrom extensions fuel pos) := by
  have hsix : extensionHeaderSize = 6 := rfl
  induction fuel generalizing pos with
  | zero => omega
  | succ fuel ih =>
    unfold validateExtensionsCheckedFrom validateExtensionsFrom
    split
    · split
      · rfl
      · rw [cut_eq (by omega) (by omega)]
        dsimp only [Option.map_some, bind, Option.bind_some]
        split
        · rfl
        · exact ih (by omega) (by omega)
    · rfl

/-- What the loop still accepts is a concatenation of entries. -/
theorem validateExtensionsFrom_ok {fuel pos : ℕ} (hpos : pos ≤ extensions.length)
    (hfuel : extensions.length < pos + fuel) (h : validateExtensionsFrom extensions fuel pos = .ok ()) :
    ∃ es : List ExtensionEntry, extensions.drop pos = es.flatMap ExtensionEntry.bytes := by
  have hsix : extensionHeaderSize = 6 := rfl
  induction fuel generalizing pos with
  | zero => omega
  | succ fuel ih =>
    unfold validateExtensionsFrom at h
    split at h
    · split at h
      · cases h
      dsimp only at h
      set length := leNat (slice extensions (pos + 2) (pos + 2 + 4)) with hlength
      split at h
      · cases h
      obtain ⟨es, hes⟩ := ih (by omega) (by omega) h
      have l1 : (slice extensions pos (pos + 2)).length = 2 := by
        rw [slice_length _ _ _ (by omega)]
        omega
      have l2 : (slice extensions (pos + 2) (pos + 2 + 4)).length = 4 := by
        rw [slice_length _ _ _ (by omega)]
        omega
      have l3 : (slice extensions (pos + 2 + 4) (pos + 2 + 4 + length)).length = length := by
        rw [slice_length _ _ _ (by omega)]
        omega
      have b1 : leNat (slice extensions pos (pos + 2)) < 2 ^ 16 := by
        have hlt := leNat_lt (slice extensions pos (pos + 2))
        rw [l1] at hlt
        omega
      have b2 : length < 2 ^ 32 := by
        have hlt := leNat_lt (slice extensions (pos + 2) (pos + 2 + 4))
        rw [l2] at hlt
        omega
      refine ⟨⟨leNat (slice extensions pos (pos + 2)), slice extensions (pos + 2 + 4) (pos + 2 + 4 + length), b1,
        by rw [l3]; exact b2⟩ :: es, ?_⟩
      have hbytes : leBytes 2 (leNat (slice extensions pos (pos + 2))) ++
          leBytes 4 (slice extensions (pos + 2 + 4) (pos + 2 + 4 + length)).length ++
          slice extensions (pos + 2 + 4) (pos + 2 + 4 + length) = slice extensions pos (pos + 2) ++
          slice extensions (pos + 2) (pos + 2 + 4) ++ slice extensions (pos + 2 + 4) (pos + 2 + 4 + length) := by
        rw [leBytes_leNat_of_length l1, l3, hlength, leBytes_leNat_of_length l2]
      rw [List.flatMap_cons, ExtensionEntry.bytes, hbytes, ← hes, drop_split extensions pos 2,
        drop_split extensions (pos + 2) 4, drop_split extensions (pos + 2 + 4) length]
      simp only [List.append_assoc]
      rfl
    · exact ⟨[], by rw [List.drop_of_length_le (by omega)]; rfl⟩

/-- The loop steps over entries. -/
theorem validateExtensionsFrom_area (es : List ExtensionEntry) (before : Bytes) (fuel : ℕ) :
    validateExtensionsFrom (before ++ es.flatMap ExtensionEntry.bytes) fuel before.length = .ok () := by
  have hsix : extensionHeaderSize = 6 := rfl
  induction es generalizing before fuel with
  | nil =>
    cases fuel with
    | zero => rfl
    | succ fuel =>
      rw [validateExtensionsFrom, List.flatMap_nil, List.append_nil, if_neg (Nat.lt_irrefl _)]
  | cons e es ih =>
    cases fuel with
    | zero => rfl
    | succ fuel =>
      have hlen := e.bytes_length
      have hfield := e.length_field before (es.flatMap ExtensionEntry.bytes)
      have hrest := ih (before ++ e.bytes) fuel
      rw [List.length_append, hlen] at hrest
      rw [List.flatMap_cons, ← List.append_assoc, validateExtensionsFrom, hfield]
      simp only [List.length_append, hlen]
      rw [if_pos (by omega), if_neg (by omega), if_neg (by omega), Nat.add_assoc]
      exact hrest

/-- **The validator accepts the concatenations of entries and nothing else.** -/
theorem validateExtensions_iff (extensions : Bytes) : validateExtensions extensions = .ok () ↔
    ∃ es : List ExtensionEntry, extensions = es.flatMap ExtensionEntry.bytes := by
  constructor
  · exact validateExtensionsFrom_ok (Nat.zero_le _) (by omega)
  · rintro ⟨es, rfl⟩
    exact validateExtensionsFrom_area es [] _

end

/-- **Extension areas.** The validator ends without reading outside of the area and accepts exactly the
concatenations of entries. An area has one decomposition, two areas make an area, and what an area leaves of an
area is an area. -/
theorem extension_areas (extensions : Bytes) :
    validateExtensionsChecked extensions = some (validateExtensions extensions) ∧
    (validateExtensions extensions = .ok () ↔
      ∃ es : List ExtensionEntry, extensions = es.flatMap ExtensionEntry.bytes) ∧
    (∀ es es' : List ExtensionEntry, extensions = es.flatMap ExtensionEntry.bytes →
      extensions = es'.flatMap ExtensionEntry.bytes → es = es') ∧
    (∀ others, validateExtensions extensions = .ok () → validateExtensions others = .ok () →
      validateExtensions (extensions ++ others) = .ok ()) ∧
    ∀ front rest, extensions = front ++ rest → validateExtensions extensions = .ok () →
      validateExtensions front = .ok () → validateExtensions rest = .ok () := by
  refine ⟨validateExtensionsCheckedFrom_eq (Nat.zero_le _) (by omega), validateExtensions_iff extensions, ?_, ?_, ?_⟩
  · intro es es' hes hes'
    exact ExtensionEntry.prefixCode.injective (hes.symm.trans hes')
  · intro others h h'
    obtain ⟨es, rfl⟩ := (validateExtensions_iff _).mp h
    obtain ⟨es', rfl⟩ := (validateExtensions_iff _).mp h'
    exact (validateExtensions_iff _).mpr ⟨es ++ es', by rw [List.flatMap_append]⟩
  · rintro front rest rfl h hfront
    obtain ⟨es, hes⟩ := (validateExtensions_iff _).mp h
    obtain ⟨fs, rfl⟩ := (validateExtensions_iff _).mp hfront
    obtain ⟨gs, -, hrest⟩ := ExtensionEntry.prefixCode.cancel hes
    exact (validateExtensions_iff _).mpr ⟨gs, hrest⟩

end AppendStore
