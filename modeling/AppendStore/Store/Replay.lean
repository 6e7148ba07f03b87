import AppendStore.Log.Spec
import AppendStore.Store.Store

/-! # Replay

What `recover` makes of a list of records: the index `replay fields recs`. Seen as a journal, the
records leave `liveRecs recs`, each live record with its position, in the order of the last write;
the replayed index lists exactly those, and its sorted keys are their keys in that order.
`contents recs` are the live values and attributes alone: the state of the store as its clients see
it.
-/

namespace AppendStore
open Library
set_option autoImplicit false

section
variable {version : ℕ}

/-! ## The callback -/

/-- The callback of `recover` on the index. -/
def indexStep (record : LogRecord) (idx : Index) : Index :=
  if record.deleted then idx.delete record.key else idx.put record.key record.indexEntry

def recoverStep (record : LogRecord) (s : Index × LruCache) : Index × LruCache :=
  (indexStep record s.1, if record.deleted then s.2.remove record.key else s.2)

theorem recoverRecord_eq (record : LogRecord) (s : Index × LruCache) :
    Store.recoverRecord record s = .ok (recoverStep record s) := by
  unfold Store.recoverRecord recoverStep indexStep
  split <;> rfl

theorem newLRUCache_remove (capacity : ℕ) (key : Bytes) :
    (newLRUCache capacity).remove key = newLRUCache capacity := by
  simp [LruCache.remove, newLRUCache]

/-- Nothing is cached while a log is scanned. -/
theorem foldPlaced_recoverStep (xs : List (ℕ × Rec version)) (idx : Index) (capacity : ℕ) :
    foldPlaced recoverStep xs (idx, newLRUCache capacity) =
      (foldPlaced indexStep xs idx, newLRUCache capacity) := by
  induction xs generalizing idx with
  | nil => rfl
  | cons x xs ih =>
    have hstep : recoverStep (x.2.entry x.1) (idx, newLRUCache capacity) =
        (indexStep (x.2.entry x.1) idx, newLRUCache capacity) := by
      unfold recoverStep
      dsimp only
      rw [newLRUCache_remove, ite_self]
    change foldPlaced recoverStep xs (recoverStep (x.2.entry x.1) (idx, newLRUCache capacity)) = _
    rw [hstep, ih]
    rfl

/-- The index `recover` builds. -/
def replay (fields : List Bytes) (recs : List (Rec version)) : Index :=
  foldPlaced indexStep (placed logHeaderSize recs) (newIndex fields)

theorem replay_concat (fields : List Bytes) (recs : List (Rec version)) (r : Rec version) :
    replay fields (recs ++ [r]) =
      indexStep (r.entry (logHeaderSize + (concat recs).length)) (replay fields recs) := by
  rw [replay, placed_append, foldPlaced_append]
  rfl

theorem Index.Sorted.indexStep {idx : Index} (h : idx.Sorted) (record : LogRecord) :
    (indexStep record idx).Sorted := by
  unfold AppendStore.indexStep
  split
  · exact h.delete _
  · exact Index.put_sorted _ _ _

theorem Index.Same.indexStep {a b : Index} (h : a.Same b) (record : LogRecord) :
    (indexStep record a).Same (indexStep record b) := by
  unfold AppendStore.indexStep
  split
  · exact h.delete _
  · exact h.put _ _

theorem replay_sorted (fields : List Bytes) (recs : List (Rec version)) : (replay fields recs).Sorted := by
  induction recs using List.reverseRecOn with
  | nil => exact Index.newIndex_sorted fields
  | append_singleton recs r ih =>
    rw [replay_concat]
    exact ih.indexStep _

/-! ## What is live -/

/-- A record at a position as an event. -/
def placedEvent (x : ℕ × Rec version) : Event Bytes (ℕ × Rec version) :=
  (x.2.key, if x.2.deleted then none else some x)

/-- The live records with their positions, in the order of the last write. -/
def liveRecs (recs : List (Rec version)) : List (Bytes × (ℕ × Rec version)) :=
  live ((placed logHeaderSize recs).map placedEvent)

theorem liveRecs_concat (recs : List (Rec version)) (r : Rec version) :
    liveRecs (recs ++ [r]) =
      Event.apply (liveRecs recs) (placedEvent (logHeaderSize + (concat recs).length, r)) := by
  rw [liveRecs, placed_append, List.map_append]
  exact live_concat _ _

theorem liveRecs_mem {recs : List (Rec version)} {x : Bytes × (ℕ × Rec version)} (h : x ∈ liveRecs recs) :
    x.2 ∈ placed logHeaderSize recs ∧ x.2.2.key = x.1 ∧ x.2.2.deleted = false := by
  have hw := (live_sublist _).subset h
  rw [writes, List.mem_filterMap] at hw
  obtain ⟨e, he, hx⟩ := hw
  obtain ⟨y, hy, rfl⟩ := List.mem_map.mp he
  unfold placedEvent at hx
  cases hdel : y.2.deleted with
  | true =>
    rw [hdel] at hx
    cases hx
  | false =>
    rw [hdel] at hx
    cases hx
    exact ⟨hy, rfl, hdel⟩

theorem liveRecs_sublist (recs : List (Rec version)) :
    ((liveRecs recs).map Prod.snd).Sublist (placed logHeaderSize recs) := by
  refine ((live_sublist _).map Prod.snd).trans ?_
  rw [writes, List.filterMap_map, List.map_filterMap]
  generalize placed logHeaderSize recs = xs
  induction xs with
  | nil => exact List.Sublist.slnil
  | cons x xs ih =>
    cases hdel : x.2.deleted with
    | true =>
      simp only [List.filterMap_cons, Function.comp_apply, placedEvent, hdel, if_true, Option.map_none]
      exact ih.cons x
    | false =>
      simp only [List.filterMap_cons, Function.comp_apply, placedEvent, hdel, Option.map_some,
        Bool.false_eq_true, if_false]
      exact ih.cons_cons x

theorem liveRecs_pairwise (recs : List (Rec version)) :
    (liveRecs recs).Pairwise fun x y => x.2.1 + x.2.2.bytes.length ≤ y.2.1 :=
  List.pairwise_map.mp ((placed_pairwise logHeaderSize recs).sublist (liveRecs_sublist recs))

/-- The index entry of a live record. -/
def liveEntry (x : ℕ × Rec version) : IndexEntry := (x.2.entry x.1).indexEntry

theorem indexStep_lists {idx : Index} {l : List (Bytes × (ℕ × Rec version))} (x : ℕ × Rec version)
    (h : Lists idx.entries (l.map fun y => (y.1, liveEntry y.2))) :
    Lists (indexStep (x.2.entry x.1) idx).entries
      ((Event.apply l (placedEvent x)).map fun y => (y.1, liveEntry y.2)) := by
  rw [← apply_map liveEntry]
  unfold indexStep placedEvent
  cases hdel : x.2.deleted with
  | true =>
    rw [if_pos (show (x.2.entry x.1).deleted = true from hdel), Index.delete_entries]
    exact h.erase x.2.key
  | false =>
    rw [if_neg (show ¬ (x.2.entry x.1).deleted = true from by rw [show (x.2.entry x.1).deleted = _ from hdel]; simp),
      Index.put_entries]
    exact h.insert x.2.key (liveEntry x)

/-- **The replayed index lists the live records.** -/
theorem replay_lists (fields : List Bytes) (recs : List (Rec version)) :
    Lists (replay fields recs).entries ((liveRecs recs).map fun x => (x.1, liveEntry x.2)) := by
  induction recs using List.reverseRecOn with
  | nil => exact lists_empty
  | append_singleton recs r ih =>
    rw [replay_concat, liveRecs_concat]
    exact indexStep_lists (logHeaderSize + (concat recs).length, r) ih

theorem replay_sortByOffset (fields : List Bytes) (recs : List (Rec version)) :
    Index.sortByOffset (replay fields recs).entries = (liveRecs recs).map Prod.fst := by
  have hlt : ((liveRecs recs).map fun x => (x.1, liveEntry x.2)).Pairwise fun x y =>
      x.2.recordOffset < y.2.recordOffset := by
    refine List.pairwise_map.mpr ((liveRecs_pairwise recs).imp ?_)
    intro x y hxy
    have hpos := x.2.2.nonempty
    change x.2.1 < y.2.1
    omega
  rw [Index.sortByOffset_eq (replay_lists fields recs) hlt, List.map_map]
  rfl

theorem replay_lookup (fields : List Bytes) (recs : List (Rec version)) {k : Bytes} {x : ℕ × Rec version}
    (h : (k, x) ∈ liveRecs recs) : (replay fields recs).entries.lookup k = some (liveEntry x) :=
  ((replay_lists fields recs).2 k (liveEntry x)).mpr
    (List.mem_map_of_mem (f := fun y : Bytes × (ℕ × Rec version) => (y.1, liveEntry y.2)) h)

theorem replay_lookup_some {fields : List Bytes} {recs : List (Rec version)} {k : Bytes} {e : IndexEntry}
    (h : (replay fields recs).entries.lookup k = some e) : ∃ x, (k, x) ∈ liveRecs recs ∧ e = liveEntry x := by
  obtain ⟨y, hy, heq⟩ := List.mem_map.mp (((replay_lists fields recs).2 k e).mp h)
  cases heq
  exact ⟨y.2, hy, rfl⟩

theorem replay_lookup_none {fields : List Bytes} {recs : List (Rec version)} {k : Bytes} :
    (replay fields recs).entries.lookup k = none ↔ k ∉ (liveRecs recs).map Prod.fst := by
  rw [(replay_lists fields recs).lookup_none k, List.map_map]
  rfl

/-! ## What clients see -/

/-- The value and the attributes of a record. -/
def Rec.payload (r : Rec version) : Bytes × Attributes := (r.value, r.attributes)

/-- The live keys with their values and attributes, in the order of the last write. -/
def contents (recs : List (Rec version)) : List (Bytes × (Bytes × Attributes)) :=
  (liveRecs recs).map fun x => (x.1, x.2.2.payload)

theorem contents_concat (recs : List (Rec version)) (r : Rec version) :
    contents (recs ++ [r]) =
      Event.apply (contents recs) (r.key, if r.deleted then none else some r.payload) := by
  unfold contents
  rw [liveRecs_concat, ← apply_map (fun x : ℕ × Rec version => x.2.payload)]
  cases hdel : r.deleted <;> simp [placedEvent, Event.map, hdel]

theorem contents_keys (recs : List (Rec version)) :
    (contents recs).map Prod.fst = (liveRecs recs).map Prod.fst := by
  simp [contents]

theorem contents_nodup (recs : List (Rec version)) : ((contents recs).map Prod.fst).Nodup := by
  rw [contents_keys]
  exact live_nodup _

/-! ## Records of version 4 read as records of version 5 -/

section
variable (hv : 4 ≤ version) (recs : List (Rec version))

@[simp] theorem concat_upgrade : concat (recs.map (Rec.upgrade hv)) = concat recs := by
  rw [concat, List.flatMap_map]
  rfl

theorem placed_upgrade (pos : ℕ) :
    placed pos (recs.map (Rec.upgrade hv)) = (placed pos recs).map fun x => (x.1, x.2.upgrade hv) := by
  induction recs generalizing pos with
  | nil => rfl
  | cons r recs ih =>
    have h := ih (pos + r.bytes.length)
    rw [List.map_cons, placed, placed, List.map_cons, ← h]
    rfl

theorem replay_upgrade (fields : List Bytes) :
    replay fields (recs.map (Rec.upgrade hv)) = replay fields recs := by
  rw [replay, placed_upgrade, replay, foldPlaced, List.foldl_map]
  rfl

theorem liveRecs_upgrade : liveRecs (recs.map (Rec.upgrade hv)) =
    (liveRecs recs).map fun x => (x.1, (x.2.1, x.2.2.upgrade hv)) := by
  have hevent : ∀ x : ℕ × Rec version, placedEvent (x.1, x.2.upgrade hv) =
      Event.map (fun y : ℕ × Rec version => (y.1, y.2.upgrade hv)) (placedEvent x) := by
    intro x
    cases hdel : x.2.deleted with
    | true => simp only [placedEvent, Event.map, hdel, show (x.2.upgrade hv).deleted = true from hdel, if_true,
        Option.map_none]; rfl
    | false => simp only [placedEvent, Event.map, hdel, show (x.2.upgrade hv).deleted = false from hdel,
        Bool.false_eq_true, if_false, Option.map_some]; rfl
  rw [liveRecs, placed_upgrade, List.map_map]
  refine Eq.trans ?_ (live_map (fun y : ℕ × Rec version => (y.1, y.2.upgrade hv)) _)
  rw [List.map_map]
  refine congrArg live (List.map_congr_left ?_)
  intro x _
  exact hevent x

theorem contents_upgrade : contents (recs.map (Rec.upgrade hv)) = contents recs := by
  rw [contents, liveRecs_upgrade, List.map_map]
  rfl

end

end

end AppendStore
