import AppendStore.Library.Journal
import AppendStore.Format.Record

/-! # The in-memory index

`index.go`: the primary index, the secondary indexes over attribute values, and the list of keys in
disk order, which is rebuilt when it is asked for and the index changed since.

Two indexes are the `Same` when they hold the same entries, fields and secondary sets; the list of
sorted keys is a cache of the entries (`Sorted`), so the same indexes give the same answers.
-/

namespace AppendStore
open Library
set_option autoImplicit false

structure IndexEntry where
  offset : ℕ
  size : ℕ
  recordOffset : ℕ
  storedSize : ℕ
  attributes : Attributes
  deriving DecidableEq

/-- Field, then value, then the keys that carry it. -/
abbrev Secondary := Finmap fun _ : Bytes => Finmap fun _ : Bytes => Finset Bytes

structure Index where
  entries : Finmap fun _ : Bytes => IndexEntry
  indexedFields : List Bytes
  byAttribute : Secondary
  sortedKeys : List Bytes
  sortedDirty : Bool
  deriving DecidableEq

/-- The loop over the fields; the set of fields is a list without repetition. -/
def newIndexFields (indexedFields : List Bytes) : List Bytes × Secondary :=
  indexedFields.foldl
    (fun acc field => if field = [] then acc else (acc.1.insert field, acc.2.insert field ∅)) ([], ∅)

def newIndex (indexedFields : List Bytes) : Index where
  entries := ∅
  indexedFields := (newIndexFields indexedFields).1
  byAttribute := (newIndexFields indexedFields).2
  sortedKeys := []
  sortedDirty := false

namespace Index

/-- One pass of the loop of `addToSecondary`. -/
def addField (key : Bytes) (entry : IndexEntry) (secondary : Secondary) (field : Bytes) : Secondary :=
  match entry.attributes.lookup field with
  | none => secondary
  | some value =>
    match secondary.lookup field with
    | none => secondary
    | some values =>
      secondary.insert field (values.insert value (insert key ((values.lookup value).getD ∅)))

def addToSecondary (idx : Index) (key : Bytes) (entry : IndexEntry) : Index :=
  { idx with byAttribute := idx.indexedFields.foldl (addField key entry) idx.byAttribute }

/-- One pass of the loop of `removeFromSecondary`. -/
def removeField (key : Bytes) (entry : IndexEntry) (secondary : Secondary) (field : Bytes) : Secondary :=
  match entry.attributes.lookup field with
  | none => secondary
  | some value =>
    match secondary.lookup field with
    | none => secondary
    | some values =>
      let keySet := ((values.lookup value).getD ∅).erase key
      secondary.insert field (if keySet.card = 0 then values.erase value else values.insert value keySet)

def removeFromSecondary (idx : Index) (key : Bytes) (entry : IndexEntry) : Index :=
  { idx with byAttribute := idx.indexedFields.foldl (removeField key entry) idx.byAttribute }

def put (idx : Index) (key : Bytes) (entry : IndexEntry) : Index :=
  let idx := match idx.entries.lookup key with
    | some existing => idx.removeFromSecondary key existing
    | none => idx
  let idx := { idx with entries := idx.entries.insert key entry }
  let idx := idx.addToSecondary key entry
  { idx with sortedDirty := true }

def get (idx : Index) (key : Bytes) : Option IndexEntry := idx.entries.lookup key

def delete (idx : Index) (key : Bytes) : Index :=
  match idx.entries.lookup key with
  | some entry =>
    let idx := idx.removeFromSecondary key entry
    { idx with sortedDirty := true, entries := idx.entries.erase key }
  | none => idx

def len (idx : Index) : ℕ := idx.entries.keys.card

/-- The keys, in the order in which the map is ranged over. -/
def keys (idx : Index) : Multiset Bytes := idx.entries.keys.val

def offsetLE (x y : (_ : Bytes) × IndexEntry) : Prop := x.2.recordOffset ≤ y.2.recordOffset

instance : DecidableRel offsetLE := fun x y => inferInstanceAs (Decidable (x.2.recordOffset ≤ y.2.recordOffset))

instance : Std.Total offsetLE := ⟨fun _ _ => Nat.le_total _ _⟩

instance : IsTrans ((_ : Bytes) × IndexEntry) offsetLE := ⟨fun _ _ _ => Nat.le_trans⟩

/-- The keys by record offset. Record offsets differ, so neither the order in which the map is
ranged over nor the sorting algorithm can be seen. -/
def sortByOffset (entries : Finmap fun _ : Bytes => IndexEntry) : List Bytes :=
  ((enumerate entries).entries.insertionSort offsetLE).map Sigma.fst

def keysSortedByOffset (idx : Index) : List Bytes × Index :=
  if idx.sortedDirty = false ∧ idx.sortedKeys.length = idx.entries.keys.card then (idx.sortedKeys, idx)
  else
    let idx := { idx with sortedKeys := sortByOffset idx.entries, sortedDirty := false }
    (idx.sortedKeys, idx)

/-- `KeysBy`: the keys, in the order in which their set is ranged over. -/
def keysBy (idx : Index) (field value : Bytes) : Multiset Bytes :=
  match idx.byAttribute.lookup field with
  | none => 0
  | some values => ((values.lookup value).getD ∅).val

def attributeValues (idx : Index) (field : Bytes) : List Bytes :=
  (enumerate ((idx.byAttribute.lookup field).getD ∅)).keys.insertionSort (· ≤ ·)

def totalSize (idx : Index) : ℕ := ((enumerate idx.entries).entries.map fun x => x.2.storedSize).sum

/-! ## Indexes that hold the same -/

structure Same (a b : Index) : Prop where
  entries : a.entries = b.entries
  indexedFields : a.indexedFields = b.indexedFields
  byAttribute : a.byAttribute = b.byAttribute

theorem same_refl (a : Index) : a.Same a := ⟨rfl, rfl, rfl⟩

theorem Same.symm {a b : Index} (h : a.Same b) : b.Same a :=
  ⟨h.entries.symm, h.indexedFields.symm, h.byAttribute.symm⟩

theorem Same.trans {a b c : Index} (h : a.Same b) (h' : b.Same c) : a.Same c :=
  ⟨h.entries.trans h'.entries, h.indexedFields.trans h'.indexedFields,
    h.byAttribute.trans h'.byAttribute⟩

theorem put_entries (idx : Index) (key : Bytes) (entry : IndexEntry) :
    (idx.put key entry).entries = idx.entries.insert key entry := by
  unfold put
  cases idx.entries.lookup key <;> rfl

theorem put_indexedFields (idx : Index) (key : Bytes) (entry : IndexEntry) :
    (idx.put key entry).indexedFields = idx.indexedFields := by
  unfold put
  cases idx.entries.lookup key <;> rfl

theorem put_sortedDirty (idx : Index) (key : Bytes) (entry : IndexEntry) :
    (idx.put key entry).sortedDirty = true := rfl

theorem delete_absent {idx : Index} {key : Bytes} (h : idx.entries.lookup key = none) :
    idx.delete key = idx := by
  unfold delete
  rw [h]

theorem delete_entries (idx : Index) (key : Bytes) : (idx.delete key).entries = idx.entries.erase key := by
  cases h : idx.entries.lookup key with
  | none =>
    rw [delete_absent h]
    apply Finmap.ext_lookup
    intro x
    rw [finmap_lookup_erase]
    split
    · rename_i hx
      rw [hx, h]
    · rfl
  | some entry =>
    unfold delete
    rw [h]
    rfl

theorem delete_indexedFields (idx : Index) (key : Bytes) :
    (idx.delete key).indexedFields = idx.indexedFields := by
  unfold delete
  cases idx.entries.lookup key <;> rfl

theorem delete_byAttribute (idx : Index) (key : Bytes) :
    (idx.delete key).byAttribute =
      match idx.entries.lookup key with
        | some existing => idx.indexedFields.foldl (removeField key existing) idx.byAttribute
        | none => idx.byAttribute := by
  unfold delete
  cases idx.entries.lookup key <;> rfl

theorem Same.delete {a b : Index} (h : a.Same b) (key : Bytes) : (a.delete key).Same (b.delete key) := by
  refine ⟨?_, ?_, ?_⟩
  · rw [delete_entries, delete_entries, h.entries]
  · rw [delete_indexedFields, delete_indexedFields, h.indexedFields]
  · rw [delete_byAttribute, delete_byAttribute, h.entries, h.indexedFields, h.byAttribute]

/-- `Put` adds to the secondary indexes that `Delete` would leave. -/
theorem put_byAttribute (idx : Index) (key : Bytes) (entry : IndexEntry) :
    (idx.put key entry).byAttribute =
      idx.indexedFields.foldl (addField key entry) (idx.delete key).byAttribute := by
  unfold put delete
  cases idx.entries.lookup key <;> rfl

theorem Same.put {a b : Index} (h : a.Same b) (key : Bytes) (entry : IndexEntry) :
    (a.put key entry).Same (b.put key entry) := by
  refine ⟨?_, ?_, ?_⟩
  · rw [put_entries, put_entries, h.entries]
  · rw [put_indexedFields, put_indexedFields, h.indexedFields]
  · rw [put_byAttribute, put_byAttribute, h.indexedFields, (h.delete key).byAttribute]

/-! ## The list of sorted keys -/

/-- A list that would be handed out without being rebuilt is the sorted list of keys. -/
def Sorted (idx : Index) : Prop :=
  idx.sortedDirty = false → idx.sortedKeys.length = idx.entries.keys.card →
    idx.sortedKeys = sortByOffset idx.entries

theorem newIndex_sorted (fields : List Bytes) : (newIndex fields).Sorted := by
  intro _ _
  exact (by decide : [] = sortByOffset ∅)

theorem put_sorted (idx : Index) (key : Bytes) (entry : IndexEntry) : (idx.put key entry).Sorted := by
  intro h
  rw [put_sortedDirty] at h
  cases h

theorem Sorted.delete {idx : Index} (h : idx.Sorted) (key : Bytes) : (idx.delete key).Sorted := by
  cases hk : idx.entries.lookup key with
  | none =>
    rw [delete_absent hk]
    exact h
  | some entry =>
    intro hd
    unfold Index.delete at hd
    rw [hk] at hd
    cases hd

theorem keysSortedByOffset_eq {idx : Index} (h : idx.Sorted) :
    idx.keysSortedByOffset.1 = sortByOffset idx.entries := by
  unfold keysSortedByOffset
  split
  · rename_i hc
    exact h hc.1 hc.2
  · rfl

theorem keysSortedByOffset_same (idx : Index) : idx.keysSortedByOffset.2.Same idx := by
  unfold keysSortedByOffset
  split
  · exact same_refl idx
  · exact ⟨rfl, rfl, rfl⟩

theorem Sorted.keysSortedByOffset {idx : Index} (h : idx.Sorted) : idx.keysSortedByOffset.2.Sorted := by
  unfold Index.keysSortedByOffset
  split
  · exact h
  · exact fun _ _ => rfl

/-- **The sorted keys are the keys of any list of the entries that is in disk order.** -/
theorem sortByOffset_eq {entries : Finmap fun _ : Bytes => IndexEntry} {l : List (Bytes × IndexEntry)}
    (h : Lists entries l) (hl : l.Pairwise fun x y => x.2.recordOffset < y.2.recordOffset) :
    sortByOffset entries = l.map Prod.fst := by
  have hperm : (enumerate entries).entries.Perm (l.map fun x => (⟨x.1, x.2⟩ : (_ : Bytes) × IndexEntry)) := by
    have hlist := lists_entries (enumerate entries)
    rw [enumerate_toFinmap] at hlist
    have hp := (hlist.perm h).map fun x => (⟨x.1, x.2⟩ : (_ : Bytes) × IndexEntry)
    rwa [List.map_map, List.map_id''] at hp
    exact fun _ => rfl
  have hlt : (l.map fun x => (⟨x.1, x.2⟩ : (_ : Bytes) × IndexEntry)).Pairwise fun x y =>
      x.2.recordOffset < y.2.recordOffset := List.pairwise_map.mpr hl
  have hsep : ∀ a ∈ (enumerate entries).entries, ∀ b ∈ (enumerate entries).entries,
      offsetLE a b → offsetLE b a → a = b := by
    have hsymm : Std.Symm fun a b : (_ : Bytes) × IndexEntry => offsetLE a b → offsetLE b a → a = b :=
      ⟨fun a b h hba hab => (h hab hba).symm⟩
    have hpair := hlt.imp (S := fun a b => offsetLE a b → offsetLE b a → a = b)
      fun hab _ hba => absurd hba (Nat.not_le.mpr hab)
    intro a ha b hb
    exact hpair.forall_of_forall (fun _ _ _ _ => rfl) (hperm.mem_iff.mp ha) (hperm.mem_iff.mp hb)
  have hsort := insertionSort_eq_of_pairwise offsetLE hperm (hlt.imp fun h => Nat.le_of_lt h) hsep
  rw [sortByOffset, hsort, List.map_map]
  rfl

end Index

end AppendStore
