import AppendStore.Library.InvertedIndex
import AppendStore.Store.LiveIndex

/-! # The secondary indexes

For every indexed field, the index keeps a map from values to the keys that carry them. `Mirrors` says
that these maps invert the entries, field by field; `Put` and `Delete` of the index keep it, whatever
they overwrite, so it holds after every sequence of them, and of the index of every running store.
-/

namespace AppendStore
open Library
set_option autoImplicit false

/-! ## One field -/

/-- The key has an entry whose attributes map the field to the value. -/
def Carries (entries : Finmap fun _ : Bytes => IndexEntry) (field value key : Bytes) : Prop :=
  ∃ e, entries.lookup key = some e ∧ e.attributes.lookup field = some value

namespace Index

/-- What `addToSecondary` makes of the values of one field. -/
def addValue (key : Bytes) (entry : IndexEntry) (field : Bytes) (values : Finmap fun _ : Bytes => Finset Bytes) :
    Finmap fun _ : Bytes => Finset Bytes :=
  match entry.attributes.lookup field with
  | none => values
  | some value => addPair values value key

/-- What `removeFromSecondary` makes of the values of one field. -/
def removeValue (key : Bytes) (entry : IndexEntry) (field : Bytes)
    (values : Finmap fun _ : Bytes => Finset Bytes) : Finmap fun _ : Bytes => Finset Bytes :=
  match entry.attributes.lookup field with
  | none => values
  | some value => removePair values value key

section
variable (key : Bytes) (entry : IndexEntry)

theorem lookup_addField (secondary : Secondary) (field x : Bytes) :
    (addField key entry secondary field).lookup x =
      if x = field then (secondary.lookup field).map (addValue key entry field) else secondary.lookup x := by
  unfold addField addValue
  cases entry.attributes.lookup field with
  | none =>
    dsimp only
    split
    · rename_i hx
      rw [hx, Option.map_id']
    · rfl
  | some value =>
    cases hvalues : secondary.lookup field with
    | none =>
      dsimp only
      split
      · rename_i hx
        rw [hx, hvalues, Option.map_none]
      · rfl
    | some values => exact finmap_lookup_insert _ _ _ _

theorem lookup_removeField (secondary : Secondary) (field x : Bytes) :
    (removeField key entry secondary field).lookup x =
      if x = field then (secondary.lookup field).map (removeValue key entry field) else secondary.lookup x := by
  unfold removeField removeValue
  cases entry.attributes.lookup field with
  | none =>
    dsimp only
    split
    · rename_i hx
      rw [hx, Option.map_id']
    · rfl
  | some value =>
    cases hvalues : secondary.lookup field with
    | none =>
      dsimp only
      split
      · rename_i hx
        rw [hx, hvalues, Option.map_none]
      · rfl
    | some values => exact finmap_lookup_insert _ _ _ _

variable {key entry} {entries : Finmap fun _ : Bytes => IndexEntry} {field : Bytes}
  {values : Finmap fun _ : Bytes => Finset Bytes}

/-- The pairs of all keys but one, and one key with its new entry. -/
theorem inverts_addValue (h : Inverts values fun v k => k ≠ key ∧ Carries entries field v k) :
    Inverts (addValue key entry field values) (Carries (entries.insert key entry) field) := by
  have hinsert : ∀ v k, Carries (entries.insert key entry) field v k ↔
      (k = key ∧ entry.attributes.lookup field = some v) ∨ (k ≠ key ∧ Carries entries field v k) := by
    intro v k
    unfold Carries
    simp only [finmap_lookup_insert]
    by_cases hk : k = key <;> simp [hk]
  unfold addValue
  cases hattr : entry.attributes.lookup field with
  | none =>
    refine h.congr fun v k => ?_
    rw [hinsert, hattr]
    simp
  | some value =>
    refine (h.add value key).congr fun v k => ?_
    rw [hinsert, hattr, Option.some.injEq]
    tauto

/-- What is left once the pair of the existing entry of a key is gone. -/
theorem inverts_removeValue (h : Inverts values (Carries entries field)) (hkey : entries.lookup key = some entry) :
    Inverts (removeValue key entry field values) fun v k => k ≠ key ∧ Carries entries field v k := by
  have hself : ∀ v, Carries entries field v key ↔ entry.attributes.lookup field = some v := by
    intro v
    unfold Carries
    simp [hkey]
  unfold removeValue
  cases hattr : entry.attributes.lookup field with
  | none =>
    refine h.congr fun v k => ⟨fun hc => ⟨?_, hc⟩, And.right⟩
    rintro rfl
    rw [hself, hattr] at hc
    cases hc
  | some value =>
    refine (h.remove value key).congr fun v k => ?_
    constructor
    · rintro ⟨hc, hne⟩
      refine ⟨?_, hc⟩
      rintro rfl
      rw [hself, hattr, Option.some.injEq] at hc
      exact hne ⟨hc.symm, rfl⟩
    · rintro ⟨hne, hc⟩
      exact ⟨hc, fun heq => hne heq.2⟩

theorem inverts_absent (h : Inverts values (Carries entries field)) (hkey : entries.lookup key = none) :
    Inverts values fun v k => k ≠ key ∧ Carries entries field v k := by
  refine h.congr fun v k => ⟨fun hc => ⟨?_, hc⟩, And.right⟩
  rintro rfl
  obtain ⟨e, he, -⟩ := hc
  rw [hkey] at he
  cases he

theorem carries_erase (v k : Bytes) :
    Carries (entries.erase key) field v k ↔ k ≠ key ∧ Carries entries field v k := by
  unfold Carries
  simp only [finmap_lookup_erase]
  by_cases hk : k = key <;> simp [hk]

end

/-! ## All fields -/

/-- The secondary indexes are those of the indexed fields, and each inverts the entries. -/
structure Mirrors (idx : Index) : Prop where
  nodup : idx.indexedFields.Nodup
  fields : ∀ field, field ∈ idx.indexedFields ↔ (idx.byAttribute.lookup field).isSome
  inverts : ∀ field values, idx.byAttribute.lookup field = some values →
    Inverts values (Carries idx.entries field)

/-- A loop over the indexed fields, seen at one of them. -/
theorem Mirrors.lookup_foldl {idx : Index} (h : idx.Mirrors) {step : Secondary → Bytes → Secondary}
    {g : Bytes → (Finmap fun _ : Bytes => Finset Bytes) → Finmap fun _ : Bytes => Finset Bytes}
    (hstep : ∀ m k x, (step m k).lookup x = if x = k then (m.lookup k).map (g k) else m.lookup x)
    {secondary : Secondary}
    (hfields : ∀ field, field ∈ idx.indexedFields ↔ (secondary.lookup field).isSome) (field : Bytes) :
    (idx.indexedFields.foldl step secondary).lookup field = (secondary.lookup field).map (g field) := by
  rw [foldl_lookup hstep h.nodup]
  split
  · rfl
  · rename_i hnot
    rw [hfields, Option.not_isSome_iff_eq_none] at hnot
    rw [hnot, Option.map_none]

theorem newIndexFields_spec (fields : List Bytes) :
    (newIndexFields fields).1.Nodup ∧
      (∀ field, field ∈ (newIndexFields fields).1 ↔ field ∈ fields ∧ field ≠ []) ∧
      ∀ field, (newIndexFields fields).2.lookup field =
        if field ∈ (newIndexFields fields).1 then some ∅ else none := by
  induction fields using List.reverseRecOn with
  | nil => simp [newIndexFields]
  | append_singleton fields f ih =>
    obtain ⟨hnodup, hmem, hlookup⟩ := ih
    have hstep : newIndexFields (fields ++ [f]) =
        if f = [] then newIndexFields fields
        else ((newIndexFields fields).1.insert f, (newIndexFields fields).2.insert f ∅) := by
      rw [newIndexFields, List.foldl_append]
      rfl
    rw [hstep]
    by_cases hf : f = []
    · rw [if_pos hf]
      refine ⟨hnodup, fun field => ?_, hlookup⟩
      rw [hmem, List.mem_append, List.mem_singleton, hf]
      tauto
    · rw [if_neg hf]
      refine ⟨hnodup.insert, fun field => ?_, fun field => ?_⟩
      · rw [List.mem_insert_iff, hmem, List.mem_append, List.mem_singleton]
        constructor
        · rintro (rfl | ⟨hin, hne⟩)
          · exact ⟨.inr rfl, hf⟩
          · exact ⟨.inl hin, hne⟩
        · rintro ⟨hin | rfl, hne⟩
          · exact .inr ⟨hin, hne⟩
          · exact .inl rfl
      · rw [finmap_lookup_insert, hlookup]
        by_cases hfield : field = f <;> simp [hfield]

theorem newIndex_mirrors (fields : List Bytes) : (newIndex fields).Mirrors := by
  obtain ⟨hnodup, -, hlookup⟩ := newIndexFields_spec fields
  refine ⟨hnodup, fun field => ?_, fun field values hvalues => ?_⟩
  · change field ∈ (newIndexFields fields).1 ↔ ((newIndexFields fields).2.lookup field).isSome
    rw [hlookup]
    split <;> simp_all
  · change (newIndexFields fields).2.lookup field = some values at hvalues
    rw [hlookup] at hvalues
    split at hvalues
    · cases hvalues
      refine inverts_empty.congr fun v k => ⟨False.elim, ?_⟩
      rintro ⟨e, he, -⟩
      cases he
    · cases hvalues

section
variable {idx : Index}

/-- The secondary indexes without the pairs of a key, as `Put` and `Delete` make them first. -/
theorem Mirrors.removed (h : idx.Mirrors) (key : Bytes) :
    (∀ field, field ∈ idx.indexedFields ↔ ((idx.delete key).byAttribute.lookup field).isSome) ∧
      ∀ field values, (idx.delete key).byAttribute.lookup field = some values →
        Inverts values fun v k => k ≠ key ∧ Carries idx.entries field v k := by
  rw [delete_byAttribute]
  cases hkey : idx.entries.lookup key with
  | none => exact ⟨h.fields, fun field values hvalues => inverts_absent (h.inverts field values hvalues) hkey⟩
  | some existing =>
    have hlookup := h.lookup_foldl (lookup_removeField key existing) h.fields
    refine ⟨fun field => ?_, fun field values hvalues => ?_⟩
    · rw [hlookup, Option.isSome_map, h.fields]
    · rw [hlookup, Option.map_eq_some_iff] at hvalues
      obtain ⟨values', hvalues', rfl⟩ := hvalues
      exact inverts_removeValue (h.inverts field values' hvalues') hkey

theorem Mirrors.put (h : idx.Mirrors) (key : Bytes) (entry : IndexEntry) : (idx.put key entry).Mirrors := by
  obtain ⟨hfields, hinverts⟩ := h.removed key
  have hlookup := h.lookup_foldl (lookup_addField key entry) hfields
  refine ⟨?_, fun field => ?_, fun field values hvalues => ?_⟩
  · rw [put_indexedFields]
    exact h.nodup
  · rw [put_indexedFields, put_byAttribute, hlookup, Option.isSome_map, hfields]
  · rw [put_byAttribute, hlookup, Option.map_eq_some_iff] at hvalues
    obtain ⟨values', hvalues', rfl⟩ := hvalues
    rw [put_entries]
    exact inverts_addValue (hinverts field values' hvalues')

theorem Mirrors.delete (h : idx.Mirrors) (key : Bytes) : (idx.delete key).Mirrors := by
  obtain ⟨hfields, hinverts⟩ := h.removed key
  refine ⟨?_, fun field => ?_, fun field values hvalues => ?_⟩
  · rw [delete_indexedFields]
    exact h.nodup
  · rw [delete_indexedFields, hfields]
  · rw [delete_entries]
    exact (hinverts field values hvalues).congr fun v k => (carries_erase v k).symm

theorem Mirrors.of_same {idx' : Index} (h : idx.Mirrors) (hs : idx'.Same idx) : idx'.Mirrors := by
  obtain ⟨hnodup, hfields, hinverts⟩ := h
  rw [← hs.indexedFields, ← hs.byAttribute] at *
  rw [← hs.entries] at hinverts
  exact ⟨hnodup, hfields, hinverts⟩

/-! ## What the queries answer -/

theorem Mirrors.keysBy (h : idx.Mirrors) {field : Bytes} (hfield : field ∈ idx.indexedFields) (value : Bytes) :
    (idx.keysBy field value).Nodup ∧
      ∀ k, k ∈ idx.keysBy field value ↔ Carries idx.entries field value k := by
  obtain ⟨values, hvalues⟩ := Option.isSome_iff_exists.mp ((h.fields field).mp hfield)
  unfold Index.keysBy
  rw [hvalues]
  exact ⟨Finset.nodup _, fun k => (h.inverts field values hvalues).mem value k⟩

theorem Mirrors.attributeValues (h : idx.Mirrors) {field : Bytes} (hfield : field ∈ idx.indexedFields) :
    (idx.attributeValues field).Pairwise (· < ·) ∧
      ∀ v, v ∈ idx.attributeValues field ↔ ∃ k, Carries idx.entries field v k := by
  obtain ⟨values, hvalues⟩ := Option.isSome_iff_exists.mp ((h.fields field).mp hfield)
  have hperm := List.perm_insertionSort (· ≤ ·) (enumerate values).keys
  unfold Index.attributeValues
  rw [hvalues, Option.getD_some]
  refine ⟨?_, fun v => ?_⟩
  · have hnodup : ((enumerate values).keys.insertionSort (· ≤ ·)).Nodup :=
      hperm.nodup_iff.mpr (enumerate values).nodupKeys
    refine ((List.pairwise_insertionSort (· ≤ ·) (enumerate values).keys).and hnodup).imp ?_
    rintro a b ⟨hle, hne⟩
    exact Std.lt_of_le_of_ne hle hne
  · rw [hperm.mem_iff, ← (h.inverts field values hvalues).keys v]
    nth_rewrite 2 [← enumerate_toFinmap values]
    exact (AList.mem_keys ..).symm

theorem Mirrors.not_indexed (h : idx.Mirrors) {field : Bytes} (hfield : field ∉ idx.indexedFields) :
    (∀ value, idx.keysBy field value = 0) ∧ idx.attributeValues field = [] := by
  rw [h.fields, Option.not_isSome_iff_eq_none] at hfield
  unfold Index.keysBy Index.attributeValues
  rw [hfield]
  exact ⟨fun _ => rfl, rfl⟩

end

end Index

/-! ## Whole runs -/

/-- The two calls that change an index. -/
inductive IndexCall
  | put (key : Bytes) (entry : IndexEntry)
  | delete (key : Bytes)

def IndexCall.apply (idx : Index) : IndexCall → Index
  | .put key entry => idx.put key entry
  | .delete key => idx.delete key

theorem Index.Mirrors.apply {idx : Index} (h : idx.Mirrors) (c : IndexCall) : (c.apply idx).Mirrors := by
  cases c with
  | put key entry => exact h.put key entry
  | delete key => exact h.delete key

theorem IndexCall.apply_indexedFields (idx : Index) (c : IndexCall) :
    (c.apply idx).indexedFields = idx.indexedFields := by
  cases c with
  | put key entry => exact idx.put_indexedFields key entry
  | delete key => exact idx.delete_indexedFields key

/-- What a call does to the entries. -/
def IndexCall.entries (entries : Finmap fun _ : Bytes => IndexEntry) : IndexCall → Finmap fun _ : Bytes => IndexEntry
  | .put key entry => entries.insert key entry
  | .delete key => entries.erase key

theorem IndexCall.apply_entries (idx : Index) (c : IndexCall) : (c.apply idx).entries = c.entries idx.entries := by
  cases c with
  | put key entry => exact idx.put_entries key entry
  | delete key => exact idx.delete_entries key

theorem foldl_apply_entries (calls : List IndexCall) (idx : Index) :
    (calls.foldl IndexCall.apply idx).entries = calls.foldl IndexCall.entries idx.entries := by
  induction calls generalizing idx with
  | nil => rfl
  | cons c calls ih => rw [List.foldl_cons, List.foldl_cons, ih, c.apply_entries]

theorem foldl_apply_mirrors (calls : List IndexCall) {idx : Index} (h : idx.Mirrors) :
    (calls.foldl IndexCall.apply idx).Mirrors ∧
      (calls.foldl IndexCall.apply idx).indexedFields = idx.indexedFields := by
  induction calls generalizing idx with
  | nil => exact ⟨h, rfl⟩
  | cons c calls ih =>
    obtain ⟨hmirrors, hfields⟩ := ih (h.apply c)
    exact ⟨hmirrors, hfields.trans (c.apply_indexedFields idx)⟩

/-- **The secondary indexes mirror the entries**, after every sequence of calls on a new index, for every
list of fields. The entries are those that the calls leave, and `Carries` is about the entries alone. -/
theorem secondary_mirrors (fields : List Bytes) (calls : List IndexCall) (s : Store)
    (hs : s.index = calls.foldl IndexCall.apply (newIndex fields)) (field : Bytes) :
    s.index.entries = calls.foldl IndexCall.entries ∅ ∧
    (field ∈ fields → field ≠ [] →
      (∀ value, (s.keysBy field value).Nodup ∧
        (∀ key, key ∈ s.keysBy field value ↔ Carries s.index.entries field value key) ∧
        s.countBy field value = Multiset.card (s.keysBy field value)) ∧
      (s.attributeValues field).Pairwise (· < ·) ∧
      ∀ value, value ∈ s.attributeValues field ↔ ∃ key, Carries s.index.entries field value key) ∧
    ((field ∉ fields ∨ field = []) →
      (∀ value, s.keysBy field value = 0) ∧ s.attributeValues field = []) := by
  obtain ⟨hmirrors, hfields⟩ := foldl_apply_mirrors calls (Index.newIndex_mirrors fields)
  rw [← hs] at hmirrors hfields
  have hindexed : field ∈ s.index.indexedFields ↔ field ∈ fields ∧ field ≠ [] := by
    rw [hfields]
    exact (Index.newIndexFields_spec fields).2.1 field
  refine ⟨?_, fun hin hne => ?_, fun hnot => ?_⟩
  · rw [hs, foldl_apply_entries]
    rfl
  · have hfield := hindexed.mpr ⟨hin, hne⟩
    refine ⟨fun value => ?_, hmirrors.attributeValues hfield⟩
    obtain ⟨hnodup, hmem⟩ := hmirrors.keysBy hfield value
    exact ⟨hnodup, hmem, rfl⟩
  · refine hmirrors.not_indexed ?_
    rw [hindexed]
    tauto

/-- A key that moves from one value to another and a key that is deleted, in a field that is listed twice. -/
def movedAndDeleted : List IndexCall :=
  [.put [7] ⟨0, 0, 16, 40, (∅ : Attributes).insert [1] [2]⟩, .put [8] ⟨0, 0, 56, 40, (∅ : Attributes).insert [1] [3]⟩,
    .put [7] ⟨0, 0, 96, 40, (∅ : Attributes).insert [1] [3]⟩, .delete [8]]

def movedStore : Store :=
  { newStore .zero ⟨none⟩ (newAppendLog ⟨0, true⟩ "db") with
    index := movedAndDeleted.foldl IndexCall.apply (newIndex [[1], [1]]) }

theorem secondary_mirrors_moved :
    [7] ∉ movedStore.keysBy [1] [2] ∧ [7] ∈ movedStore.keysBy [1] [3] ∧ [8] ∉ movedStore.keysBy [1] [3] ∧
      [3] ∈ movedStore.attributeValues [1] ∧ movedStore.keysBy [4] [3] = 0 := by
  obtain ⟨hentries, hfield, -⟩ := secondary_mirrors [[1], [1]] movedAndDeleted movedStore rfl [1]
  obtain ⟨hkeys, -, hvalues⟩ := hfield (by decide) (by decide)
  have hmoved : movedStore.index.entries.lookup [7] = some ⟨0, 0, 96, 40, (∅ : Attributes).insert [1] [3]⟩ := by
    rw [hentries]
    decide
  have hdeleted : movedStore.index.entries.lookup [8] = none := by
    rw [hentries]
    decide
  refine ⟨?_, ?_, ?_, ?_, ?_⟩
  · rw [(hkeys [2]).2.1]
    rintro ⟨e, he, hvalue⟩
    rw [hmoved, Option.some.injEq] at he
    rw [← he] at hvalue
    exact absurd hvalue (by decide)
  · exact ((hkeys [3]).2.1 [7]).mpr ⟨_, hmoved, by decide⟩
  · rw [(hkeys [3]).2.1]
    rintro ⟨e, he, -⟩
    exact absurd (hdeleted.symm.trans he) (Option.some_ne_none e).symm
  · exact (hvalues [3]).mpr ⟨[7], _, hmoved, by decide⟩
  · exact ((secondary_mirrors [[1], [1]] movedAndDeleted movedStore rfl [4]).2.2 (.inl (by decide))).1 [3]

/-- **The index of every running store mirrors its entries.** -/
theorem Reachable.mirrors {path : Path} {x : Session} (h : Reachable path x) : x.store.index.Mirrors := by
  obtain ⟨recs, hserves⟩ := h.serves
  refine Index.Mirrors.of_same ?_ hserves.index
  rw [replay]
  generalize placed logHeaderSize recs = xs
  induction xs using List.reverseRecOn with
  | nil => exact Index.newIndex_mirrors _
  | append_singleton xs y ih =>
    rw [foldPlaced_append]
    change (indexStep _ _).Mirrors
    unfold indexStep
    split
    · exact ih.delete _
    · exact ih.put _ _

end AppendStore
