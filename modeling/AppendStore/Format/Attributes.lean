import AppendStore.Library.FiniteMap
import AppendStore.Format.Header

/-! # The attribute block of a record

A block is a 32-bit count and then, for each attribute, a 16-bit name length, a 32-bit value length,
the name and the value. `encodeAttributes` ranges over a Go map, so it takes the map in the order in
which that range visits it; the order decides only which of several errors is reported. The bytes
are laid out by sorted name (`encodeAttributes_eq`). `decodeAttributes` accepts the entries in any
order (`decodeAttributes_block`, `decodeAttributes_ok`).
-/

namespace AppendStore
open Library
set_option autoImplicit false

/-- One attribute: name and value. -/
abbrev Attribute := (_ : Bytes) × Bytes

/-- An attribute map. The empty map and no map are the same. -/
abbrev Attributes := Finmap fun _ : Bytes => Bytes

/-- An attribute map in the order in which `range` visits it. -/
abbrev AttributeRange := AList fun _ : Bytes => Bytes

/-! ## Encoding -/

def emptyAttributes : Bytes := List.replicate 4 0

/-- The body of the sizing loop. -/
def sizeAttribute (acc : List Bytes × ℕ) (e : Attribute) : Except Err (List Bytes × ℕ) :=
  if e.1 = [] then .error (.sentinel .invalidAttribute)
  else if e.1.length > 2 ^ 16 - 1 then
    .error (.detail .attributesTooLarge s!"attribute name is {e.1.length} bytes")
  else if e.2.length > maxUint32 then
    .error (.detail .attributesTooLarge ("attribute " ++ quoted e.1 ++ " value is too large"))
  else
    let total := acc.2 + (2 + 4 + e.1.length + e.2.length)
    if total > maxAttributesSize then
      .error (.detail .attributesTooLarge s!"encoded attributes exceed {maxAttributesSize} bytes")
    else .ok (acc.1 ++ [e.1], total)

/-- The body of the layout loop: one attribute at the current position of the buffer. -/
def putAttribute (attributes : AttributeRange) (acc : Bytes × ℕ) (key : Bytes) : Bytes × ℕ :=
  let value := (attributes.lookup key).getD []
  let buf := copyInto acc.1 acc.2 (leBytes 2 key.length)
  let buf := copyInto buf (acc.2 + 2) (leBytes 4 value.length)
  let buf := copyInto buf (acc.2 + 2 + 4) key
  let buf := copyInto buf (acc.2 + 2 + 4 + key.length) value
  (buf, acc.2 + 2 + 4 + key.length + value.length)

def encodeAttributes (attributes : AttributeRange) : Except Err Bytes :=
  if attributes.entries.length = 0 then .ok emptyAttributes
  else if attributes.entries.length > maxAttributeCount then
    .error (.detail .attributesTooLarge
      s!"{attributes.entries.length} attributes (maximum {maxAttributeCount})")
  else
    match attributes.entries.foldlM sizeAttribute ([], 4) with
    | .error e => .error e
    | .ok (keys, total) =>
      let keys := keys.insertionSort (· ≤ ·)
      let buf := copyInto (List.replicate total 0) 0 (leBytes 4 keys.length)
      .ok (keys.foldl (putAttribute attributes) (buf, 4)).1

/-! ## Decoding -/

/-- The body of the decoding loop. -/
def decodeAttribute (buf : Bytes) (acc : Attributes × ℕ) : Except Err (Attributes × ℕ) :=
  if buf.length - acc.2 < 6 then .error (.sentinel .unexpectedEOF)
  else
    let keyLen := leNat (slice buf acc.2 (acc.2 + 2))
    let valueLen := leNat (slice buf (acc.2 + 2) (acc.2 + 2 + 4))
    let pos := acc.2 + 2 + 4
    if keyLen = 0 ∨ keyLen > buf.length - pos then
      .error (.plain s!"invalid attribute name length {keyLen}")
    else
      let key := slice buf pos (pos + keyLen)
      let pos := pos + keyLen
      if valueLen > buf.length - pos then .error (.sentinel .unexpectedEOF)
      else if (acc.1.lookup key).isSome then .error (.plain ("duplicate attribute " ++ quoted key))
      else .ok (acc.1.insert key (slice buf pos (pos + valueLen)), pos + valueLen)

def decodeLoop (buf : Bytes) : ℕ → Attributes × ℕ → Except Err (Attributes × ℕ)
  | 0, acc => .ok acc
  | count + 1, acc =>
    match decodeAttribute buf acc with
    | .error e => .error e
    | .ok acc => decodeLoop buf count acc

def decodeAttributes (buf : Bytes) : Except Err Attributes :=
  if buf.length < 4 then .error (.plain "attribute block is too short")
  else
    let count := leNat (slice buf 0 4)
    if count > maxAttributeCount then .error (.plain s!"attribute count {count} exceeds maximum")
    else
      match decodeLoop buf count (∅, 4) with
      | .error e => .error e
      | .ok (attributes, pos) =>
        if pos ≠ buf.length then
          .error (.plain s!"attribute block has {buf.length - pos} trailing bytes")
        else .ok attributes

/-! ## The grammar of a block -/

def attributeBytes (e : Attribute) : Bytes := leBytes 2 e.1.length ++ leBytes 4 e.2.length ++ e.1 ++ e.2

def attributeBlock (es : List Attribute) : Bytes := leBytes 4 es.length ++ es.flatMap attributeBytes

/-- The lengths fit their fields and the name is not empty. -/
def AttributeFits (e : Attribute) : Prop := e.1 ≠ [] ∧ e.1.length < 2 ^ 16 ∧ e.2.length < 2 ^ 32

instance (e : Attribute) : Decidable (AttributeFits e) := by unfold AttributeFits; infer_instance

@[simp] theorem attributeBytes_length (e : Attribute) :
    (attributeBytes e).length = 6 + e.1.length + e.2.length := by
  simp only [attributeBytes, List.length_append, leBytes_length]

theorem attributeBlock_length (es : List Attribute) :
    (attributeBlock es).length = 4 + (es.map fun e => 6 + e.1.length + e.2.length).sum := by
  simp only [attributeBlock, List.length_append, leBytes_length, List.length_flatMap,
    attributeBytes_length]

/-- The length of a block does not depend on the order of its entries. -/
theorem attributeBlock_length_perm {es fs : List Attribute} (h : es.Perm fs) :
    (attributeBlock es).length = (attributeBlock fs).length := by
  rw [attributeBlock_length, attributeBlock_length]
  have hp : (es.map fun e => 6 + e.1.length + e.2.length).Perm
      (fs.map fun e => 6 + e.1.length + e.2.length) := h.map _
  rw [hp.sum_eq]

/-! ## What the encoder does -/

/-- The sizing loop passes exactly when every entry fits and the total stays within the limit. -/
theorem sizeAttribute_loop (es : List Attribute) (ks : List Bytes) (t : ℕ)
    (hfit : ∀ e ∈ es, AttributeFits e)
    (ht : t + (es.map fun e => 6 + e.1.length + e.2.length).sum ≤ maxAttributesSize) :
    es.foldlM sizeAttribute (ks, t) = Except.ok
      (ks ++ es.map Sigma.fst, t + (es.map fun e => 6 + e.1.length + e.2.length).sum) := by
  induction es generalizing ks t with
  | nil => simp [pure, Except.pure]
  | cons e es ih =>
    obtain ⟨hne, hk, hv⟩ := hfit e (by simp)
    simp only [List.map_cons, List.sum_cons] at ht
    have hstep : sizeAttribute (ks, t) e = .ok (ks ++ [e.1], t + (2 + 4 + e.1.length + e.2.length)) := by
      have h1 : ¬ e.1.length > 2 ^ 16 - 1 := by omega
      have h2 : ¬ e.2.length > maxUint32 := by
        simp only [maxUint32]
        omega
      have h3 : ¬ t + (2 + 4 + e.1.length + e.2.length) > maxAttributesSize := by omega
      simp only [sizeAttribute, hne, h1, h2, h3, if_false]
    rw [List.foldlM_cons, hstep]
    change es.foldlM sizeAttribute _ = _
    rw [ih _ _ (fun f hf => hfit f (by simp [hf])) (by omega)]
    simp only [List.map_cons, List.sum_cons, List.append_assoc, List.singleton_append]
    congr 2
    omega

/-- A sizing step that passes checked its entry. -/
theorem sizeAttribute_ok {acc out : List Bytes × ℕ} {e : Attribute} (h : sizeAttribute acc e = .ok out) :
    AttributeFits e ∧ acc.2 + (6 + e.1.length + e.2.length) ≤ maxAttributesSize ∧
      out = (acc.1 ++ [e.1], acc.2 + (6 + e.1.length + e.2.length)) := by
  unfold sizeAttribute at h
  split at h
  · simp at h
  rename_i hne
  split at h
  · simp at h
  rename_i hk
  split at h
  · simp at h
  rename_i hv
  dsimp only at h
  split at h
  · simp at h
  rename_i ht
  have hsum : 2 + 4 + e.1.length + e.2.length = 6 + e.1.length + e.2.length := by omega
  rw [hsum] at h ht
  simp only [maxUint32] at hv
  refine ⟨⟨hne, by omega, by omega⟩, by omega, ?_⟩
  exact (Except.ok.inj h).symm

theorem sizeAttribute_loop_ok {es : List Attribute} {acc out : List Bytes × ℕ}
    (h : es.foldlM sizeAttribute acc = .ok out) :
    (∀ e ∈ es, AttributeFits e) ∧
      (es ≠ [] → acc.2 + (es.map fun e => 6 + e.1.length + e.2.length).sum ≤ maxAttributesSize) := by
  induction es generalizing acc with
  | nil => simp
  | cons e es ih =>
    rw [List.foldlM_cons] at h
    cases hs : sizeAttribute acc e with
    | error err =>
      rw [hs] at h
      cases h
    | ok acc' =>
      rw [hs] at h
      obtain ⟨hfit, hle, rfl⟩ := sizeAttribute_ok hs
      obtain ⟨hall, hsum⟩ := ih h
      refine ⟨?_, ?_⟩
      · intro f hf
        rcases List.mem_cons.mp hf with rfl | hf
        · exact hfit
        · exact hall f hf
      · intro _
        simp only [List.map_cons, List.sum_cons]
        by_cases hnil : es = []
        · subst hnil
          simpa using hle
        · have := hsum hnil
          omega

/-- One attribute, written behind what is already laid out. -/
theorem putAttribute_next (a : AttributeRange) (done stale : Bytes) (e : Attribute)
    (hlook : a.lookup e.1 = some e.2) (hroom : (attributeBytes e).length ≤ stale.length) :
    putAttribute a (done ++ stale, done.length) e.1 =
      ((done ++ attributeBytes e) ++ stale.drop (attributeBytes e).length,
        (done ++ attributeBytes e).length) := by
  rw [attributeBytes_length] at hroom
  unfold putAttribute
  simp only [hlook, Option.getD_some]
  rw [copyInto_next done stale _ (by simp; omega) _ rfl]
  rw [copyInto_next (done ++ leBytes 2 e.1.length) _ (leBytes 4 e.2.length) (by simp; omega) _ (by simp)]
  rw [copyInto_next (done ++ leBytes 2 e.1.length ++ leBytes 4 e.2.length) _ e.1 (by simp; omega) _
    (by simp [Nat.add_assoc])]
  rw [copyInto_next (done ++ leBytes 2 e.1.length ++ leBytes 4 e.2.length ++ e.1) _ e.2
    (by simp; omega) _ (by simp only [List.length_append, leBytes_length, Nat.add_assoc])]
  simp only [List.drop_drop, leBytes_length, attributeBytes, List.append_assoc, List.length_append,
    Prod.mk.injEq, List.append_cancel_left_eq]
  refine ⟨?_, by omega⟩
  congr 1
  omega

theorem putAttribute_loop (a : AttributeRange) (es : List Attribute) (done stale : Bytes)
    (hlook : ∀ e ∈ es, a.lookup e.1 = some e.2)
    (hroom : stale.length = (es.map fun e => 6 + e.1.length + e.2.length).sum) :
    ((es.map Sigma.fst).foldl (putAttribute a) (done ++ stale, done.length)).1 =
      done ++ es.flatMap attributeBytes := by
  induction es generalizing done stale with
  | nil =>
    have h0 : stale = [] := by simpa using hroom
    simp [h0]
  | cons e es ih =>
    simp only [List.map_cons, List.sum_cons] at hroom
    rw [List.map_cons, List.foldl_cons, putAttribute_next a done stale e (hlook e (by simp))
      (by rw [attributeBytes_length]; omega)]
    rw [ih _ _ (fun f hf => hlook f (by simp [hf])) (by rw [List.length_drop, attributeBytes_length]; omega)]
    rw [List.flatMap_cons, List.append_assoc]

theorem emptyAttributes_eq : emptyAttributes = attributeBlock [] := by decide

/-- What `encodeAttributes` accepts. -/
def Encodable (es : List Attribute) : Prop :=
  es.length ≤ maxAttributeCount ∧ (∀ e ∈ es, AttributeFits e) ∧
    (attributeBlock es).length ≤ maxAttributesSize

instance (es : List Attribute) : Decidable (Encodable es) := by unfold Encodable; infer_instance

theorem encodable_perm {es fs : List Attribute} (h : es.Perm fs) : Encodable es ↔ Encodable fs := by
  unfold Encodable
  rw [h.length_eq, attributeBlock_length_perm h]
  have hmem : (∀ e ∈ es, AttributeFits e) ↔ ∀ e ∈ fs, AttributeFits e :=
    forall_congr' fun e => by rw [h.mem_iff]
  rw [hmem]

theorem sort_keys_eq (a : AttributeRange) :
    (a.entries.map Sigma.fst).insertionSort (· ≤ ·) = (sortEntries a).entries.map Sigma.fst := by
  symm
  exact List.map_insertionSort keyLE (· ≤ ·) Sigma.fst a.entries (fun _ _ _ _ => Iff.rfl)

/-- **The encoder lays the entries out by sorted name.** -/
theorem encodeAttributes_eq (a : AttributeRange) (h : Encodable a.entries) :
    encodeAttributes a = .ok (attributeBlock (sortEntries a).entries) := by
  obtain ⟨hcount, hfit, hsize⟩ := h
  have hperm : (sortEntries a).entries.Perm a.entries := List.perm_insertionSort keyLE a.entries
  by_cases h0 : a.entries.length = 0
  · have hnil : a.entries = [] := List.length_eq_zero_iff.mp h0
    have hs : (sortEntries a).entries = [] := by
      rw [hnil] at hperm
      exact hperm.eq_nil
    rw [encodeAttributes, if_pos h0, hs, emptyAttributes_eq]
  · have hle : ¬ a.entries.length > maxAttributeCount := by omega
    rw [attributeBlock_length] at hsize
    have hloop := sizeAttribute_loop a.entries [] 4 hfit hsize
    rw [encodeAttributes, if_neg h0, if_neg hle, hloop]
    simp only [List.nil_append]
    rw [sort_keys_eq]
    have hsum : (a.entries.map fun e => 6 + e.1.length + e.2.length).sum =
        ((sortEntries a).entries.map fun e => 6 + e.1.length + e.2.length).sum :=
      (hperm.symm.map _).sum_eq
    have hcopy := copyInto_next [] (List.replicate
      (4 + (a.entries.map fun e => 6 + e.1.length + e.2.length).sum) 0)
      (leBytes 4 ((sortEntries a).entries.map Sigma.fst).length) (by simp) 0 rfl
    rw [List.nil_append, List.nil_append] at hcopy
    rw [hcopy]
    have hput := putAttribute_loop a (sortEntries a).entries
      (leBytes 4 ((sortEntries a).entries.map Sigma.fst).length)
      ((List.replicate (4 + (a.entries.map fun e => 6 + e.1.length + e.2.length).sum) 0).drop
        (leBytes 4 ((sortEntries a).entries.map Sigma.fst).length).length)
      (fun e he => by
        exact AList.mem_lookup_iff.mpr (hperm.mem_iff.mp he))
      (by simp [hsum])
    rw [leBytes_length] at hput
    rw [leBytes_length, hput]
    simp [attributeBlock]

/-- The encoder accepts nothing else. -/
theorem encodeAttributes_ok {a : AttributeRange} {b : Bytes} (h : encodeAttributes a = .ok b) :
    Encodable a.entries ∧ b = attributeBlock (sortEntries a).entries := by
  have henc : Encodable a.entries := by
    unfold encodeAttributes at h
    split at h
    · rename_i h0
      have hnil : a.entries = [] := List.length_eq_zero_iff.mp h0
      rw [hnil]
      decide
    rename_i h0
    split at h
    · simp at h
    rename_i hcount
    cases hl : a.entries.foldlM sizeAttribute ([], 4) with
    | error e =>
      rw [hl] at h
      simp at h
    | ok out =>
      obtain ⟨hfit, hsum⟩ := sizeAttribute_loop_ok hl
      refine ⟨by omega, hfit, ?_⟩
      rw [attributeBlock_length]
      exact hsum (fun hnil => h0 (by simp [hnil]))
  refine ⟨henc, ?_⟩
  rw [encodeAttributes_eq a henc] at h
  exact (Except.ok.inj h).symm

theorem encodeAttributes_length {a : AttributeRange} {b : Bytes} (h : encodeAttributes a = .ok b) :
    b.length ≤ maxAttributesSize := by
  obtain ⟨henc, rfl⟩ := encodeAttributes_ok h
  have hperm : (sortEntries a).entries.Perm a.entries := List.perm_insertionSort keyLE a.entries
  rw [attributeBlock_length_perm hperm]
  exact henc.2.2

/-! ## What the decoder does -/

theorem decodeAttribute_next (buf : Bytes) (m : Attributes) (pos : ℕ) (e : Attribute) (rest : Bytes)
    (hd : buf.drop pos = attributeBytes e ++ rest) (hfit : AttributeFits e)
    (hnew : m.lookup e.1 = none) :
    decodeAttribute buf (m, pos) = .ok (m.insert e.1 e.2, pos + (attributeBytes e).length) := by
  obtain ⟨hne, hk, hv⟩ := hfit
  have hlen : buf.length - pos = 6 + e.1.length + e.2.length + rest.length := by
    rw [← List.length_drop, hd, List.length_append, attributeBytes_length]
  have h1 : slice buf pos (pos + 2) = leBytes 2 e.1.length :=
    slice_at (a := []) (t := leBytes 4 e.2.length ++ e.1 ++ e.2 ++ rest)
      (by rw [hd]; simp [attributeBytes]) (by simp) (by simp)
  have h2 : slice buf (pos + 2) (pos + 2 + 4) = leBytes 4 e.2.length :=
    slice_at (a := leBytes 2 e.1.length) (t := e.1 ++ e.2 ++ rest)
      (by rw [hd]; simp [attributeBytes]) (by simp) (by simp)
  have h3 : slice buf (pos + 2 + 4) (pos + 2 + 4 + e.1.length) = e.1 :=
    slice_at (a := leBytes 2 e.1.length ++ leBytes 4 e.2.length) (t := e.2 ++ rest)
      (by rw [hd]; simp [attributeBytes]) (by simp [Nat.add_assoc]) rfl
  have h4 : slice buf (pos + 2 + 4 + e.1.length) (pos + 2 + 4 + e.1.length + e.2.length) = e.2 :=
    slice_at (a := leBytes 2 e.1.length ++ leBytes 4 e.2.length ++ e.1) (t := rest)
      (by rw [hd]; simp [attributeBytes]) (by simp only [List.length_append, leBytes_length]; omega) rfl
  have hk' : leNat (leBytes 2 e.1.length) = e.1.length := leNat_leBytes 2 _ (by omega)
  have hv' : leNat (leBytes 4 e.2.length) = e.2.length := leNat_leBytes 4 _ (by omega)
  have hpos : e.1.length ≠ 0 := fun h0 => hne (List.length_eq_zero_iff.mp h0)
  have c1 : ¬ buf.length - pos < 6 := by omega
  have c2 : ¬ (e.1.length = 0 ∨ e.1.length > buf.length - (pos + 2 + 4)) := by omega
  have c3 : ¬ e.2.length > buf.length - (pos + 2 + 4 + e.1.length) := by omega
  have c4 : ¬ (m.lookup e.1).isSome = true := by simp [hnew]
  unfold decodeAttribute
  dsimp only
  rw [if_neg c1, h1, h2, hk', hv', if_neg c2, h3, if_neg c3, if_neg c4, h4, attributeBytes_length]
  congr 2
  omega

theorem decodeAttribute_ok {buf : Bytes} {m m' : Attributes} {pos pos' : ℕ}
    (hpos : pos ≤ buf.length) (h : decodeAttribute buf (m, pos) = .ok (m', pos')) :
    ∃ e : Attribute, AttributeFits e ∧ m.lookup e.1 = none ∧ m' = m.insert e.1 e.2 ∧
      buf.drop pos = attributeBytes e ++ buf.drop pos' ∧ pos' ≤ buf.length := by
  unfold decodeAttribute at h
  dsimp only at h
  split at h
  · simp at h
  rename_i c1
  set kl := leNat (slice buf pos (pos + 2)) with hkl
  set vl := leNat (slice buf (pos + 2) (pos + 2 + 4)) with hvl
  split at h
  · simp at h
  rename_i c2
  split at h
  · simp at h
  rename_i c3
  split at h
  · simp at h
  rename_i c4
  simp only [Except.ok.injEq, Prod.mk.injEq] at h
  obtain ⟨rfl, rfl⟩ := h
  push Not at c2
  have l1 : (slice buf pos (pos + 2)).length = 2 := by
    rw [slice_length _ _ _ (by omega)]
    omega
  have l2 : (slice buf (pos + 2) (pos + 2 + 4)).length = 4 := by
    rw [slice_length _ _ _ (by omega)]
    omega
  have l3 : (slice buf (pos + 2 + 4) (pos + 2 + 4 + kl)).length = kl := by
    rw [slice_length _ _ _ (by omega)]
    omega
  have l4 : (slice buf (pos + 2 + 4 + kl) (pos + 2 + 4 + kl + vl)).length = vl := by
    rw [slice_length _ _ _ (by omega)]
    omega
  have b1 : leBytes 2 kl = slice buf pos (pos + 2) := by
    rw [hkl]
    exact leBytes_leNat_of_length l1
  have b2 : leBytes 4 vl = slice buf (pos + 2) (pos + 2 + 4) := by
    rw [hvl]
    exact leBytes_leNat_of_length l2
  have hk : kl < 2 ^ 16 := by
    have := leNat_lt (slice buf pos (pos + 2))
    rw [l1] at this
    omega
  have hv : vl < 2 ^ 32 := by
    have := leNat_lt (slice buf (pos + 2) (pos + 2 + 4))
    rw [l2] at this
    omega
  refine ⟨⟨slice buf (pos + 2 + 4) (pos + 2 + 4 + kl),
    slice buf (pos + 2 + 4 + kl) (pos + 2 + 4 + kl + vl)⟩, ⟨?_, ?_, ?_⟩, ?_, rfl, ?_, by omega⟩
  · intro hnil
    have h0 : (slice buf (pos + 2 + 4) (pos + 2 + 4 + kl)).length = 0 := by
      simpa using hnil
    exact c2.1 (l3.symm.trans h0)
  · dsimp only
    rw [l3]
    exact hk
  · dsimp only
    rw [l4]
    exact hv
  · simpa using c4
  · simp only [attributeBytes, l3, l4, b1, b2]
    rw [drop_split buf pos 2, drop_split buf (pos + 2) 4, drop_split buf (pos + 2 + 4) kl,
      drop_split buf (pos + 2 + 4 + kl) vl]
    simp [List.append_assoc]

/-- The map that a list of entries builds by insertion. -/
def insertAll (es : List Attribute) (m : Attributes) : Attributes := es.foldl (fun m e => m.insert e.1 e.2) m

theorem insertAll_lookup (es : List Attribute) (m : Attributes) (hnd : es.NodupKeys) (k : Bytes) :
    (insertAll es m).lookup k = (es.dlookup k).or (m.lookup k) := by
  induction es generalizing m with
  | nil => simp [insertAll]
  | cons e es ih =>
    obtain ⟨hnot, hnd'⟩ := List.nodupKeys_cons.mp hnd
    change (insertAll es (m.insert e.1 e.2)).lookup k = _
    rw [ih _ hnd', finmap_lookup_insert]
    by_cases hk : k = e.1
    · subst hk
      have h0 : es.dlookup e.1 = none := List.dlookup_eq_none.mpr hnot
      rw [h0, if_pos rfl, show e = ⟨e.1, e.2⟩ from rfl, List.dlookup_cons_eq]
      simp
    · rw [if_neg hk, List.dlookup_cons_ne _ _ hk]

theorem insertAll_toFinmap (a : AttributeRange) : insertAll a.entries ∅ = a.toFinmap := by
  apply Finmap.ext_lookup
  intro k
  rw [insertAll_lookup _ _ a.nodupKeys, Finmap.lookup_empty, Option.or_none]
  rfl

theorem decodeLoop_next (buf : Bytes) (es : List Attribute) (m : Attributes) (pos : ℕ) (rest : Bytes)
    (hd : buf.drop pos = es.flatMap attributeBytes ++ rest) (hfit : ∀ e ∈ es, AttributeFits e)
    (hnd : es.NodupKeys) (hnew : ∀ e ∈ es, m.lookup e.1 = none) :
    decodeLoop buf es.length (m, pos) =
      .ok (insertAll es m, pos + (es.flatMap attributeBytes).length) := by
  induction es generalizing m pos with
  | nil => rfl
  | cons e es ih =>
    obtain ⟨hnot, hnd'⟩ := List.nodupKeys_cons.mp hnd
    rw [List.flatMap_cons, List.append_assoc] at hd
    have hstep := decodeAttribute_next buf m pos e _ hd (hfit e (by simp)) (hnew e (by simp))
    have hd' : buf.drop (pos + (attributeBytes e).length) = es.flatMap attributeBytes ++ rest := by
      rw [← List.drop_drop, hd, List.drop_left]
    have hnew' : ∀ f ∈ es, (m.insert e.1 e.2).lookup f.1 = none := by
      intro f hf
      have hne : f.1 ≠ e.1 := by
        intro heq
        apply hnot
        rw [← heq]
        exact List.mem_keys_of_mem hf
      rw [finmap_lookup_insert, if_neg hne]
      exact hnew f (by simp [hf])
    rw [List.length_cons, decodeLoop, hstep]
    dsimp only
    rw [ih _ _ hd' (fun f hf => hfit f (by simp [hf])) hnd' hnew']
    rw [List.flatMap_cons, List.length_append, ← Nat.add_assoc]
    rfl

theorem decodeLoop_ok {buf : Bytes} {count : ℕ} {m m' : Attributes} {pos pos' : ℕ}
    (hpos : pos ≤ buf.length) (h : decodeLoop buf count (m, pos) = .ok (m', pos')) :
    ∃ es : List Attribute, es.length = count ∧ (∀ e ∈ es, AttributeFits e) ∧ es.NodupKeys ∧
      (∀ e ∈ es, m.lookup e.1 = none) ∧ m' = insertAll es m ∧
      buf.drop pos = es.flatMap attributeBytes ++ buf.drop pos' ∧ pos' ≤ buf.length := by
  induction count generalizing m pos with
  | zero =>
    simp only [decodeLoop, Except.ok.injEq, Prod.mk.injEq] at h
    obtain ⟨rfl, rfl⟩ := h
    exact ⟨[], rfl, by simp, by simp, by simp, rfl, by simp, hpos⟩
  | succ count ih =>
    rw [decodeLoop] at h
    cases hs : decodeAttribute buf (m, pos) with
    | error e =>
      rw [hs] at h
      simp at h
    | ok acc =>
      obtain ⟨m1, pos1⟩ := acc
      rw [hs] at h
      obtain ⟨e, hfit, hnone, rfl, hd, hpos1⟩ := decodeAttribute_ok hpos hs
      obtain ⟨es, hlen, hfits, hnd, hnew, rfl, hd', hpos'⟩ := ih hpos1 h
      have hfresh : ∀ f ∈ es, f.1 ≠ e.1 := by
        intro f hf heq
        have hl := hnew f hf
        rw [finmap_lookup_insert, if_pos heq] at hl
        simp at hl
      refine ⟨e :: es, by simp [hlen], ?_, ?_, ?_, rfl, ?_, hpos'⟩
      · intro f hf
        rcases List.mem_cons.mp hf with rfl | hf
        · exact hfit
        · exact hfits f hf
      · refine List.nodupKeys_cons.mpr ⟨?_, hnd⟩
        intro hmem
        obtain ⟨v, hv⟩ := List.exists_of_mem_keys hmem
        exact hfresh _ hv rfl
      · intro f hf
        rcases List.mem_cons.mp hf with rfl | hf
        · exact hnone
        · have hl := hnew f hf
          rw [finmap_lookup_insert, if_neg (hfresh f hf)] at hl
          exact hl
      · rw [hd, hd', List.flatMap_cons, List.append_assoc]

/-- **The decoder reads every block of distinct fitting entries, in any order.** -/
theorem decodeAttributes_block (a : AttributeRange) (hcount : a.entries.length ≤ maxAttributeCount)
    (hfit : ∀ e ∈ a.entries, AttributeFits e) :
    decodeAttributes (attributeBlock a.entries) = .ok a.toFinmap := by
  have hlt : a.entries.length < 256 ^ 4 := lt_of_le_of_lt hcount (by decide)
  have hs : slice (attributeBlock a.entries) 0 4 = leBytes 4 a.entries.length :=
    slice_at (a := []) (p := 0) (t := a.entries.flatMap attributeBytes) rfl rfl (by simp)
  have hd : (attributeBlock a.entries).drop 4 = a.entries.flatMap attributeBytes ++ [] := by
    rw [attributeBlock, List.append_nil]
    exact List.drop_left' (leBytes_length 4 _)
  have hloop := decodeLoop_next (attributeBlock a.entries) a.entries ∅ 4 [] hd hfit a.nodupKeys (by simp)
  have hlen : 4 + (a.entries.flatMap attributeBytes).length = (attributeBlock a.entries).length := by
    simp [attributeBlock]
  have c1 : ¬ (attributeBlock a.entries).length < 4 := by omega
  have c2 : ¬ a.entries.length > maxAttributeCount := by omega
  unfold decodeAttributes
  rw [if_neg c1, hs, leNat_leBytes 4 _ hlt, if_neg c2, hloop]
  simp only [hlen, ne_eq, not_true_eq_false, if_false]
  rw [insertAll_toFinmap]

/-- **It reads nothing else.** -/
theorem decodeAttributes_ok {buf : Bytes} {m : Attributes} (h : decodeAttributes buf = .ok m) :
    ∃ a : AttributeRange, buf = attributeBlock a.entries ∧ m = a.toFinmap ∧
      a.entries.length ≤ maxAttributeCount ∧ ∀ e ∈ a.entries, AttributeFits e := by
  unfold decodeAttributes at h
  split at h
  · simp at h
  rename_i c1
  dsimp only at h
  split at h
  · simp at h
  rename_i c2
  cases hl : decodeLoop buf (leNat (slice buf 0 4)) (∅, 4) with
  | error e =>
    rw [hl] at h
    simp at h
  | ok acc =>
    obtain ⟨m1, pos1⟩ := acc
    rw [hl] at h
    dsimp only at h
    split at h
    · simp at h
    rename_i hp
    obtain ⟨es, hlen, hfit, hnd, -, rfl, hd, -⟩ := decodeLoop_ok (by omega) hl
    obtain rfl := Except.ok.inj h
    have hpe : pos1 = buf.length := by simpa using hp
    rw [hpe, List.drop_length, List.append_nil] at hd
    have l1 : (slice buf 0 4).length = 4 := by
      rw [slice_length _ _ _ (by omega)]
    have b1 : slice buf 0 4 = leBytes 4 es.length := by
      rw [hlen]
      exact (leBytes_leNat_of_length l1).symm
    refine ⟨⟨es, hnd⟩, ?_, insertAll_toFinmap ⟨es, hnd⟩, by simpa [hlen] using c2, hfit⟩
    have hsplit := drop_split buf 0 4
    rw [List.drop_zero, Nat.zero_add, b1, hd] at hsplit
    exact hsplit

/-! ## The two together -/

theorem decodeAttributes_encode {a : AttributeRange} {b : Bytes} (h : encodeAttributes a = .ok b) :
    decodeAttributes b = .ok a.toFinmap := by
  obtain ⟨henc, rfl⟩ := encodeAttributes_ok h
  have hperm : (sortEntries a).entries.Perm a.entries := List.perm_insertionSort keyLE a.entries
  obtain ⟨hcount, hfit, -⟩ := (encodable_perm hperm).mpr henc
  rw [decodeAttributes_block _ hcount hfit]
  congr 1
  exact AList.toFinmap_eq.mpr hperm

/-- Re-encoding an accepted block within the size limit succeeds with the same length. -/
theorem encodeAttributes_decode {buf : Bytes} {m : Attributes} (h : decodeAttributes buf = .ok m)
    (hsize : buf.length ≤ maxAttributesSize) (a : AttributeRange) (ha : a.toFinmap = m) :
    ∃ b, encodeAttributes a = .ok b ∧ b.length = buf.length := by
  obtain ⟨a', rfl, rfl, hcount, hfit⟩ := decodeAttributes_ok h
  have hperm : a'.entries.Perm a.entries := (AList.toFinmap_eq.mp ha).symm
  have henc : Encodable a.entries := (encodable_perm hperm).mp ⟨hcount, hfit, hsize⟩
  refine ⟨_, encodeAttributes_eq a henc, ?_⟩
  exact attributeBlock_length_perm ((List.perm_insertionSort keyLE a.entries).trans hperm.symm)

/-- The encoder succeeds exactly within its limits. The limit on the length of a value never bites,
because the block as a whole is limited. -/
theorem encodeAttributes_isOk_iff (a : AttributeRange) : (∃ b, encodeAttributes a = .ok b) ↔
    a.entries.length ≤ maxAttributeCount ∧ (∀ e ∈ a.entries, e.1 ≠ [] ∧ e.1.length ≤ 65535) ∧
      4 + (a.entries.map fun e => 6 + e.1.length + e.2.length).sum ≤ maxAttributesSize := by
  constructor
  · rintro ⟨b, hb⟩
    obtain ⟨⟨hcount, hfit, hsize⟩, -⟩ := encodeAttributes_ok hb
    rw [attributeBlock_length] at hsize
    refine ⟨hcount, fun e he => ?_, hsize⟩
    obtain ⟨hne, hname, -⟩ := hfit e he
    exact ⟨hne, by omega⟩
  · rintro ⟨hcount, hnames, hsize⟩
    have hmax : maxAttributesSize = 16777216 := by decide
    refine ⟨_, encodeAttributes_eq a ⟨hcount, ?_, by rw [attributeBlock_length]; exact hsize⟩⟩
    intro e he
    obtain ⟨hne, hname⟩ := hnames e he
    have hle : 6 + e.1.length + e.2.length ≤ (a.entries.map fun e => 6 + e.1.length + e.2.length).sum :=
      List.single_le_sum (fun x _ => Nat.zero_le x) _
        (List.mem_map_of_mem (f := fun e : Attribute => 6 + e.1.length + e.2.length) he)
    exact ⟨hne, by omega, by omega⟩

/-- **Attribute blocks are canonical.** Two enumerations of one map are both refused or give the same
bytes; the encoder refuses exactly what is outside its limits; and a block decodes to the map it was
made from, so that different maps have different blocks. -/
theorem attribute_blocks_canonical (a a' : AttributeRange) :
    (a.toFinmap = a'.toFinmap →
      (∃ e e', encodeAttributes a = .error e ∧ encodeAttributes a' = .error e') ∨
        ∃ b, encodeAttributes a = .ok b ∧ encodeAttributes a' = .ok b) ∧
    ((∃ b, encodeAttributes a = .ok b) ↔
      a.entries.length ≤ 4096 ∧ (∀ e ∈ a.entries, e.1 ≠ [] ∧ e.1.length ≤ 65535) ∧
        4 + (a.entries.map fun e => 6 + e.1.length + e.2.length).sum ≤ 16 * 2 ^ 20) ∧
    (∀ b, encodeAttributes a = .ok b → decodeAttributes b = .ok a.toFinmap) ∧
    ∀ b, encodeAttributes a = .ok b → encodeAttributes a' = .ok b → a.toFinmap = a'.toFinmap := by
  refine ⟨?_, encodeAttributes_isOk_iff a, fun b hb => decodeAttributes_encode hb, ?_⟩
  · intro heq
    have hperm : a.entries.Perm a'.entries := AList.toFinmap_eq.mp heq
    by_cases henc : Encodable a.entries
    · refine .inr ⟨_, encodeAttributes_eq a henc, ?_⟩
      rw [encodeAttributes_eq a' ((encodable_perm hperm).mp henc), sortEntries_eq_enumerate, sortEntries_eq_enumerate,
        heq]
    · cases h : encodeAttributes a with
      | ok b => exact absurd (encodeAttributes_ok h).1 henc
      | error e =>
        cases h' : encodeAttributes a' with
        | ok b => exact absurd ((encodable_perm hperm).mpr (encodeAttributes_ok h').1) henc
        | error e' => exact .inl ⟨e, e', rfl, rfl⟩
  · intro b hb hb'
    have hdec := decodeAttributes_encode hb
    rw [decodeAttributes_encode hb'] at hdec
    exact (Except.ok.inj hdec).symm

end AppendStore
