import AppendStore.Store.Invariant

/-! # The reading calls

On a store that serves `recs`, every reading call answers from `contents recs` and leaves the store
serving it. A hit in the cache and a read of the log cannot be told apart. What the calls need of the store
is `Viewed`; a store that refuses to write has it too.
-/

namespace AppendStore
open Library
set_option autoImplicit false

section
variable {d : Disk} {s : Store} {path : Path} {recs : List (Rec logVersion)}

theorem contents_lookup {k v : Bytes} {a : Attributes} (h : (k, (v, a)) ∈ contents recs) :
    (contents recs).lookup k = some (v, a) :=
  (lookup_eq_some (contents_nodup recs)).mpr h

theorem liveRecs_contents {k : Bytes} {x : ℕ × Rec logVersion} (h : (k, x) ∈ liveRecs recs) :
    (k, x.2.payload) ∈ contents recs :=
  List.mem_map_of_mem (f := fun y : Bytes × (ℕ × Rec logVersion) => (y.1, y.2.2.payload)) h

/-- What `Get` answers on given contents. -/
def getAnswer (m : List (Bytes × (Bytes × Attributes))) (key : Bytes) : Except Err Bytes :=
  match m.lookup key with
  | some (value, _) => .ok value
  | none => .error (Store.keyNotFound key)

/-- What `GetMetadata` answers on given contents. -/
def metadataAnswer (m : List (Bytes × (Bytes × Attributes))) (key : Bytes) : Except Err Attributes :=
  match m.lookup key with
  | some (_, attributes) => .ok attributes
  | none => .error (Store.keyNotFound key)

/-- An open store whose index is the replay of records that are in the file. -/
structure Viewed (d : Disk) (s : Store) (recs : List (Rec logVersion)) : Prop where
  closed : s.closed = false
  stored : ∀ x ∈ placed logHeaderSize recs, StoredAt d s.log x
  index : s.index.Same (replay s.options.indexedFields recs)
  sorted : s.index.Sorted
  cacheWF : s.cache.WF
  cached : s.cache.Holds fun k v => ∃ a, (k, (v, a)) ∈ contents recs

theorem Backed.viewed (h : Serves d s path recs) : Viewed d s recs :=
  ⟨h.closed, fun _ hx => h.image.storedAt hx, h.index, h.sorted, h.cacheWF, h.cached⟩

theorem Serves.of_cache (h : Serves d s path recs) {cache : LruCache} (hw : cache.WF)
    (hc : cache.Holds fun k v => ∃ a, (k, (v, a)) ∈ contents recs) :
    Serves d { s with cache := cache } path recs :=
  { h with cacheWF := hw, cached := hc }

/-- **`Get` answers from the contents, whether or not the value is cached.** It may change the cache. -/
theorem Viewed.exec_get (h : Viewed d s recs) (key : Bytes) :
    ∃ cache, Disk.exec (s.get key) d = ((getAnswer (contents recs) key, { s with cache := cache }), d) ∧
      cache.WF ∧ cache.Holds fun k v => ∃ a, (k, (v, a)) ∈ contents recs := by
  unfold Store.get
  rw [if_neg (by rw [h.closed]; exact Bool.false_ne_true)]
  have hw := h.cacheWF.get key
  have hc := h.cached.get h.cacheWF key
  cases hget : s.cache.get key with
  | mk hit cache =>
    rw [hget] at hw hc
    cases hit with
    | some value =>
      obtain ⟨a, ha⟩ := LruCache.get_hit h.cached h.cacheWF (by rw [hget] : (s.cache.get key).1 = some value)
      refine ⟨_, ?_, hw, hc⟩
      rw [getAnswer, contents_lookup ha]
      rfl
    | none =>
      dsimp only
      cases hidx : s.index.get key with
      | none =>
        refine ⟨_, ?_, hw, hc⟩
        have hnone := lookup_eq_none.mpr (h.index.get_none.mp hidx)
        rw [getAnswer, hnone]
        rfl
      | some entry =>
        obtain ⟨x, hx, rfl⟩ := h.index.get_some hidx
        have hlive := liveRecs_contents hx
        have hread := exec_readRecordAt (h.stored _ (liveRecs_mem hx).1) (by decide)
        refine ⟨_, ?_, hw.put key x.2.value, hc.put hw ⟨x.2.attributes, hlive⟩⟩
        rw [getAnswer, contents_lookup hlive]
        dsimp only [liveEntry, LogRecord.indexEntry, Rec.entry]
        rw [Disk.exec_orElse_ok hread]
        rfl

theorem exec_get (h : Serves d s path recs) (key : Bytes) :
    ∃ s', Disk.exec (s.get key) d = ((getAnswer (contents recs) key, s'), d) ∧ Serves d s' path recs ∧
      s'.options = s.options ∧ s'.log = s.log := by
  obtain ⟨cache, hget, hw, hc⟩ := h.viewed.exec_get key
  exact ⟨_, hget, h.of_cache hw hc, rfl, rfl⟩

theorem Viewed.getMetadata_eq (h : Viewed d s recs) (key : Bytes) :
    s.getMetadata key = metadataAnswer (contents recs) key := by
  unfold Store.getMetadata metadataAnswer
  rw [if_neg (by rw [h.closed]; exact Bool.false_ne_true)]
  cases hidx : s.index.get key with
  | none => rw [lookup_eq_none.mpr (h.index.get_none.mp hidx)]
  | some entry =>
    obtain ⟨x, hx, rfl⟩ := h.index.get_some hidx
    rw [contents_lookup (liveRecs_contents hx)]
    rfl

theorem getMetadata_eq (h : Serves d s path recs) (key : Bytes) :
    s.getMetadata key = metadataAnswer (contents recs) key := h.viewed.getMetadata_eq key

theorem Viewed.contains_eq (h : Viewed d s recs) (key : Bytes) :
    s.contains key = ((contents recs).lookup key).isSome := by
  unfold Store.contains
  rw [if_neg (by rw [h.closed]; exact Bool.false_ne_true)]
  cases hidx : s.index.get key with
  | none =>
    rw [lookup_eq_none.mpr (h.index.get_none.mp hidx)]
    rfl
  | some entry =>
    obtain ⟨x, hx, rfl⟩ := h.index.get_some hidx
    rw [contents_lookup (liveRecs_contents hx)]
    rfl

theorem contains_eq (h : Serves d s path recs) (key : Bytes) :
    s.contains key = ((contents recs).lookup key).isSome := h.viewed.contains_eq key

theorem len_eq (h : Serves d s path recs) : s.len = (contents recs).length := by
  rw [Store.len, Index.len, h.index.entries, (replay_lists _ recs).card, List.length_map, contents,
    List.length_map]

theorem keys_eq (h : Serves d s path recs) :
    s.keys = ((contents recs).map Prod.fst : Multiset Bytes) := by
  rw [Store.keys, Index.keys, h.index.entries, (replay_lists _ recs).keys, contents_keys, List.map_map]
  rfl

/-! ## Scans -/

/-- A callback over a list of keys and values, until it stops the scan. -/
def visitAll {β : Type} (fn : Bytes → Bytes → β → β × Option Err) :
    List (Bytes × Bytes) → β → Except Err Unit × β
  | [], b => (.ok (), b)
  | (key, value) :: rest, b =>
    match fn key value b with
    | (b, some e) => (.error e, b)
    | (b, none) => visitAll fn rest b

theorem Viewed.exec_visit {β : Type} (h : Viewed d s recs) (fn : Bytes → Bytes → β → β × Option Err)
    (xs : List (Bytes × (ℕ × Rec logVersion))) (hxs : ∀ x ∈ xs, x ∈ liveRecs recs) (scratch : Bytes) (b : β) :
    Disk.exec (Store.visit s.log s.index fn (xs.map Prod.fst) scratch b) d =
      (visitAll fn (xs.map fun x => (x.1, x.2.2.value)) b, d) := by
  induction xs generalizing scratch b with
  | nil => rfl
  | cons x xs ih =>
    obtain ⟨k, y⟩ := x
    have hx := hxs (k, y) List.mem_cons_self
    have hidx : s.index.get k = some (liveEntry y) := by
      rw [h.index.get_eq, replay_lookup _ recs hx]
    obtain ⟨scratch', hread⟩ := exec_readRecordAtInto (h.stored _ (liveRecs_mem hx).1) (by decide) scratch
    have hrest := fun x hx => hxs x (List.mem_cons_of_mem _ hx)
    rw [List.map_cons, Store.visit, hidx]
    dsimp only [liveEntry, LogRecord.indexEntry, Rec.entry]
    rw [Disk.exec_bind_eq hread, List.map_cons, visitAll]
    dsimp only
    cases hfn : fn k y.2.value b with
    | mk b' stop =>
      cases stop with
      | some e => rfl
      | none => exact ih hrest scratch' b'

theorem Viewed.sortKeys (h : Viewed d s recs) : Viewed d { s with index := s.index.keysSortedByOffset.2 } recs :=
  { h with
    index := (Index.keysSortedByOffset_same s.index).trans h.index
    sorted := h.sorted.keysSortedByOffset }

/-- **`ForEach` visits the live keys in the order of their last write.** It may sort the keys of the index. -/
theorem Viewed.exec_forEach {β : Type} (h : Viewed d s recs) (fn : Bytes → Bytes → β → β × Option Err) (b : β) :
    Disk.exec (s.forEach fn b) d = ((visitAll fn ((contents recs).map fun x => (x.1, x.2.1)) b,
      { s with index := s.index.keysSortedByOffset.2 }), d) := by
  have hkeys : s.index.keysSortedByOffset.1 = (liveRecs recs).map Prod.fst := by
    rw [Index.keysSortedByOffset_eq h.sorted, h.index.entries, replay_sortByOffset]
  have hvisit := h.sortKeys.exec_visit fn (liveRecs recs) (fun x hx => hx) [] b
  unfold Store.forEach
  rw [if_neg (by rw [h.closed]; exact Bool.false_ne_true)]
  cases hsorted : s.index.keysSortedByOffset with
  | mk keys index =>
    rw [hsorted] at hkeys hvisit
    dsimp only at hkeys hvisit ⊢
    rw [hkeys, Disk.exec_bind_eq hvisit, contents, List.map_map]
    rfl

theorem exec_forEach {β : Type} (h : Serves d s path recs) (fn : Bytes → Bytes → β → β × Option Err) (b : β) :
    ∃ s', Disk.exec (s.forEach fn b) d =
        ((visitAll fn ((contents recs).map fun x => (x.1, x.2.1)) b, s'), d) ∧ Serves d s' path recs ∧
      s'.options = s.options ∧ s'.log = s.log :=
  ⟨_, h.viewed.exec_forEach fn b, h.sortKeys, rfl, rfl⟩

/-! ## All of them -/

/-- The reading calls answer from given contents. -/
structure Answers (d : Disk) (s : Store) (m : List (Bytes × (Bytes × Attributes))) : Prop where
  get : ∀ key, (Disk.exec (s.get key) d).1.1 = getAnswer m key
  getMetadata : ∀ key, s.getMetadata key = metadataAnswer m key
  keys : s.keys = (m.map Prod.fst : Multiset Bytes)
  forEach : ∀ (β : Type) (fn : Bytes → Bytes → β → β × Option Err) (b : β),
    (Disk.exec (s.forEach fn b) d).1.1 = visitAll fn (m.map fun x => (x.1, x.2.1)) b

theorem Serves.answers (h : Serves d s path recs) : Answers d s (contents recs) where
  get := by
    intro key
    obtain ⟨s', hget, -⟩ := exec_get h key
    rw [hget]
  getMetadata := getMetadata_eq h
  keys := keys_eq h
  forEach := by
    intro β fn b
    obtain ⟨s', hscan, -⟩ := exec_forEach h fn b
    rw [hscan]

end

end AppendStore
