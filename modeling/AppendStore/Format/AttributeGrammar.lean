import AppendStore.Library.Checked
import AppendStore.Format.Attributes

/-! # The grammar of attribute blocks

`decodeAttributes` written with the bounds checks of its slice expressions, and the block grammar as one
statement: which buffers are accepted, what they decode to, and how long the block is that the encoder makes of
the result.
-/

namespace AppendStore
open Library
set_option autoImplicit false

/-! ## Bounds -/

def decodeAttributeChecked (buf : Bytes) (acc : Attributes × ℕ) : Option (Except Err (Attributes × ℕ)) :=
  if buf.length - acc.2 < 6 then some (.error (.sentinel .unexpectedEOF))
  else do
    let keyLen ← (cut buf acc.2 (acc.2 + 2)).map leNat
    let valueLen ← (cut buf (acc.2 + 2) (acc.2 + 2 + 4)).map leNat
    let pos := acc.2 + 2 + 4
    if keyLen = 0 ∨ keyLen > buf.length - pos then
      some (.error (.plain s!"invalid attribute name length {keyLen}"))
    else do
      let key ← cut buf pos (pos + keyLen)
      let pos := pos + keyLen
      if valueLen > buf.length - pos then some (.error (.sentinel .unexpectedEOF))
      else if (acc.1.lookup key).isSome then some (.error (.plain ("duplicate attribute " ++ quoted key)))
      else do
        let value ← cut buf pos (pos + valueLen)
        some (.ok (acc.1.insert key value, pos + valueLen))

def decodeLoopChecked (buf : Bytes) : ℕ → Attributes × ℕ → Option (Except Err (Attributes × ℕ))
  | 0, acc => some (.ok acc)
  | count + 1, acc => do
    match ← decodeAttributeChecked buf acc with
    | .error e => some (.error e)
    | .ok acc => decodeLoopChecked buf count acc

/-- `decodeAttributes`, where `none` is an access outside of the buffer. -/
def decodeAttributesChecked (buf : Bytes) : Option (Except Err Attributes) :=
  if buf.length < 4 then some (.error (.plain "attribute block is too short"))
  else do
    let count ← (cut buf 0 4).map leNat
    if count > maxAttributeCount then some (.error (.plain s!"attribute count {count} exceeds maximum"))
    else do
      match ← decodeLoopChecked buf count (∅, 4) with
      | .error e => some (.error e)
      | .ok (attributes, pos) =>
        if pos ≠ buf.length then
          some (.error (.plain s!"attribute block has {buf.length - pos} trailing bytes"))
        else some (.ok attributes)

section
variable {buf : Bytes}

theorem decodeAttributeChecked_eq {acc : Attributes × ℕ} (hpos : acc.2 ≤ buf.length) :
    decodeAttributeChecked buf acc = some (decodeAttribute buf acc) := by
  unfold decodeAttributeChecked decodeAttribute
  split
  · rfl
  rw [cut_eq (by omega) (by omega), cut_eq (by omega) (by omega)]
  dsimp only [Option.map_some, bind, Option.bind_some]
  split
  · rfl
  rename_i hkey
  push Not at hkey
  rw [cut_eq (by omega) (by omega)]
  dsimp only [Option.bind_some]
  split
  · rfl
  split
  · rfl
  rw [cut_eq (by omega) (by omega)]
  rfl

theorem decodeLoopChecked_eq (count : ℕ) {acc : Attributes × ℕ} (hpos : acc.2 ≤ buf.length) :
    decodeLoopChecked buf count acc = some (decodeLoop buf count acc) := by
  induction count generalizing acc with
  | zero => rfl
  | succ count ih =>
    unfold decodeLoopChecked decodeLoop
    rw [decodeAttributeChecked_eq hpos]
    dsimp only [bind, Option.bind_some]
    cases hstep : decodeAttribute buf acc with
    | error e => rfl
    | ok acc' =>
      obtain ⟨e, -, -, -, -, hpos'⟩ := decodeAttribute_ok hpos hstep
      exact ih hpos'

/-- **The decoder stays inside the buffer.** -/
theorem decodeAttributesChecked_eq (buf : Bytes) : decodeAttributesChecked buf = some (decodeAttributes buf) := by
  unfold decodeAttributesChecked decodeAttributes
  split
  · rfl
  rw [cut_eq (by omega) (by omega)]
  dsimp only [Option.map_some, bind, Option.bind_some]
  split
  · rfl
  rw [decodeLoopChecked_eq _ (by omega)]
  dsimp only [Option.bind_some]
  cases decodeLoop buf (leNat (slice buf 0 4)) (∅, 4) with
  | error e => rfl
  | ok acc =>
    dsimp only
    split
    · rfl
    · rfl

end

/-! ## The grammar -/

/-- The encoder makes the block of the same entries in the order of their names. -/
theorem encodeAttributes_block {a a' : AttributeRange} (heq : a'.toFinmap = a.toFinmap)
    (hcount : a.entries.length ≤ maxAttributeCount) (hfit : ∀ e ∈ a.entries, AttributeFits e)
    (hsize : (attributeBlock a.entries).length ≤ maxAttributesSize) :
    ∃ es : List Attribute, es.Perm a.entries ∧ es.Pairwise (fun e f => e.1 ≤ f.1) ∧
      encodeAttributes a' = .ok (attributeBlock es) := by
  have hperm : a'.entries.Perm a.entries := AList.toFinmap_eq.mp heq
  have hsorted : (sortEntries a').entries.Perm a'.entries := List.perm_insertionSort keyLE a'.entries
  refine ⟨(sortEntries a').entries, hsorted.trans hperm, ?_, ?_⟩
  · exact List.pairwise_insertionSort keyLE a'.entries
  · exact encodeAttributes_eq a' ((encodable_perm hperm).mpr ⟨hcount, hfit, hsize⟩)

/-- **The grammar of attribute blocks.** A buffer is accepted exactly when it is a count and that many entries with
non-empty and distinct names. It then decodes to the map of its entries, and a buffer within the size limit is as
long as the block that the encoder makes of that map. -/
theorem decodeAttributes_grammar (buf : Bytes) :
    ((∃ m, decodeAttributes buf = .ok m) ↔ ∃ es : List Attribute, es.length ≤ 4096 ∧
      (∀ e ∈ es, e.1 ≠ [] ∧ e.1.length < 2 ^ 16 ∧ e.2.length < 2 ^ 32) ∧ (es.map Sigma.fst).Nodup ∧
      buf = leBytes 4 es.length ++
        es.flatMap fun e => leBytes 2 e.1.length ++ leBytes 4 e.2.length ++ e.1 ++ e.2) ∧
    (∀ a : AttributeRange, a.entries.length ≤ 4096 →
      (∀ e ∈ a.entries, e.1 ≠ [] ∧ e.1.length < 2 ^ 16 ∧ e.2.length < 2 ^ 32) →
      buf = attributeBlock a.entries → decodeAttributes buf = .ok a.toFinmap ∧
        (buf.length ≤ 16 * 2 ^ 20 → ∀ a' : AttributeRange, a'.toFinmap = a.toFinmap →
          ∃ es : List Attribute, es.Perm a.entries ∧ es.Pairwise (fun e f => e.1 ≤ f.1) ∧
            encodeAttributes a' = .ok (attributeBlock es) ∧ (attributeBlock es).length = buf.length)) ∧
    decodeAttributesChecked buf = some (decodeAttributes buf) := by
  refine ⟨⟨?_, ?_⟩, ?_, decodeAttributesChecked_eq buf⟩
  · rintro ⟨m, hm⟩
    obtain ⟨a, rfl, -, hcount, hfit⟩ := decodeAttributes_ok hm
    exact ⟨a.entries, hcount, hfit, a.nodupKeys, rfl⟩
  · rintro ⟨es, hcount, hfit, hnodup, rfl⟩
    exact ⟨_, decodeAttributes_block ⟨es, hnodup⟩ hcount hfit⟩
  · rintro a hcount hfit rfl
    refine ⟨decodeAttributes_block a hcount hfit, fun hsize a' heq => ?_⟩
    obtain ⟨es, hperm, hsorted, henc⟩ := encodeAttributes_block heq hcount hfit hsize
    exact ⟨es, hperm, hsorted, henc, attributeBlock_length_perm hperm⟩

end AppendStore
