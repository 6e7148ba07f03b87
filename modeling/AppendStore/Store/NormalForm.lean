import AppendStore.Store.Lossless

/-! # Compaction as a normal form

The file that a compaction writes is determined by the live keys in the order of their records, and by
the value, the attributes and the extension area of each (`concat_compacted_eq`). Flags, reserved bytes,
the order of attributes on disk and the history of the store leave no trace in it, and a second
compaction writes the same bytes again.
-/

namespace AppendStore
open Library
set_option autoImplicit false

section
variable {version : ℕ}

/-- What a compaction keeps of a record. -/
def Rec.area (r : Rec version) : Bytes × Attributes × Bytes := (r.value, r.attributes, r.extensions)

/-- The bytes that a compaction writes for a key. -/
def normalBytes (x : Bytes × Bytes × Attributes × Bytes) : Bytes :=
  (appendRaw x.1 (attributeBlock (sortEntries (enumerate x.2.2.1)).entries) x.2.1 x.2.2.2 false).bytes

theorem Rec.rewritten_bytes (r : Rec version) : r.rewritten.bytes = normalBytes (r.key, r.area) := rfl

/-- The areas of the live records, in the order of the records. -/
def liveAreas (recs : List (Rec version)) : List (Bytes × Bytes × Attributes × Bytes) :=
  (liveRecs recs).map fun x => (x.1, x.2.2.area)

/-- **The records of a compacted log depend on the live areas alone.** -/
theorem concat_compacted_eq (recs : List (Rec version)) :
    concat (compacted recs) = (liveAreas recs).flatMap normalBytes := by
  rw [concat, compacted, liveAreas, List.flatMap_map, List.flatMap_map]
  refine List.flatMap_congr ?_
  intro x hx
  have hkey := (liveRecs_mem hx).2.1
  rw [Rec.rewritten_bytes, hkey]

theorem liveAreas_compacted (recs : List (Rec version)) : liveAreas (compacted recs) = liveAreas recs := by
  refine liveRecs_compacted_map Rec.area Rec.area ?_ recs
  intro r
  rw [Rec.area, Rec.area, r.rewritten_value, r.rewritten_attributes, r.rewritten_extensions]

theorem concat_compacted_twice (recs : List (Rec version)) :
    concat (compacted (compacted recs)) = concat (compacted recs) := by
  rw [concat_compacted_eq, liveAreas_compacted, concat_compacted_eq]

end

section
variable {path path' : Path} {x y : Session} {recs recs' : List (Rec logVersion)}

/-- What a store holds for a key: the value, the attributes and the extension area, if they can be read. -/
def Session.area (x : Session) (key : Bytes) : Option (Except Err (Bytes × Bytes) × Attributes) :=
  (x.record key).map fun r => (r.1, r.2.1)

/-- Two stores hold the same live keys in the order of their records, with equal values, attributes and
extension areas. -/
def SameAreas (x y : Session) : Prop :=
  x.store.index.keysSortedByOffset.1 = y.store.index.keysSortedByOffset.1 ∧ ∀ key, x.area key = y.area key

theorem Serves.area (h : Serves x.disk x.store path recs) {key : Bytes} {a : Bytes × Attributes × Bytes}
    (ha : (key, a) ∈ liveAreas recs) : x.area key = some (.ok (a.1, a.2.2), a.2.1) := by
  obtain ⟨z, hz, heq⟩ := List.mem_map.mp ha
  cases heq
  have hheld : (z.1, z.2.2.holds) ∈ (liveRecs recs).map fun z => (z.1, z.2.2.holds) := List.mem_map_of_mem hz
  rw [Session.area, h.record, (lookup_eq_some (held_nodup recs)).mpr hheld]
  rfl

theorem Serves.area_none (h : Serves x.disk x.store path recs) {key : Bytes}
    (hkey : key ∉ x.store.index.keysSortedByOffset.1) : x.area key = none := by
  rw [h.sortedKeys, ← contents_keys] at hkey
  rw [Session.area, Session.record, h.get_none.mpr hkey]
  rfl

theorem liveAreas_keys (recs : List (Rec logVersion)) :
    (liveAreas recs).map Prod.fst = (liveRecs recs).map Prod.fst := by
  rw [liveAreas, List.map_map]
  rfl

/-- Lists of pairs with the same keys in order, of which equal keys carry equal values, are equal. -/
theorem eq_of_keys_eq {α β : Type} {l m : List (α × β)} (hkeys : l.map Prod.fst = m.map Prod.fst)
    (hvalues : ∀ k a b, (k, a) ∈ l → (k, b) ∈ m → a = b) : l = m := by
  induction l generalizing m with
  | nil =>
    cases m with
    | nil => rfl
    | cons y m => cases hkeys
  | cons x l ih =>
    cases m with
    | nil => cases hkeys
    | cons y m =>
      obtain ⟨k, a⟩ := x
      obtain ⟨k', b⟩ := y
      rw [List.map_cons, List.map_cons, List.cons.injEq] at hkeys
      obtain ⟨rfl, hrest⟩ := hkeys
      rw [hvalues k a b List.mem_cons_self List.mem_cons_self]
      congr 1
      refine ih hrest ?_
      intro k' a' b' ha hb
      exact hvalues k' a' b' (List.mem_cons_of_mem _ ha) (List.mem_cons_of_mem _ hb)

theorem liveAreas_eq (hx : Serves x.disk x.store path recs) (hy : Serves y.disk y.store path' recs')
    (h : SameAreas x y) : liveAreas recs = liveAreas recs' := by
  obtain ⟨hkeys, hareas⟩ := h
  rw [hx.sortedKeys, hy.sortedKeys, ← liveAreas_keys, ← liveAreas_keys] at hkeys
  refine eq_of_keys_eq hkeys ?_
  rintro key ⟨value, attributes, extensions⟩ ⟨value', attributes', extensions'⟩ ha hb
  have heq := hareas key
  rw [hx.area ha, hy.area hb] at heq
  cases heq
  rfl

/-- A compaction of a session. -/
theorem call_compact (h : Serves x.disk x.store path recs) :
    (x.call path .compact).1 = .done (.ok ()) ∧
      Serves (x.call path .compact).2.disk (x.call path .compact).2.store path (compacted recs) := by
  obtain ⟨s', d', hexec, hserves, -⟩ := exec_compact h
  simp only [Session.call, hexec]
  exact ⟨trivial, hserves⟩

theorem call_reopen {options : Options} (hacc : options.Accepted path) (h : Serves x.disk x.store path recs) :
    (x.call path (.reopen options)).1 = .reopened none none ∧
      Serves (x.call path (.reopen options)).2.disk (x.call path (.reopen options)).2.store path recs := by
  obtain ⟨s1, d1, hclose, hrest⟩ := exec_close h
  obtain ⟨s2, d2, hopen, hserves, -⟩ := exec_openStore_resting hrest hacc
  simp only [Session.call, hclose, hopen]
  exact ⟨trivial, hserves⟩

/-- **Compaction is a normal form.** Compacting twice, with or without a reopening in between, leaves the
bytes of the first compaction; and two stores that hold the same live keys in the same order with equal
values, attributes and extension areas compact to the same bytes. -/
theorem compact_normal_form (hx : Reachable path x) (hy : Reachable path' y) :
    (x.call path .compact).1 = .done (.ok ()) ∧ (x.call path .compact).2.disk.bytesAt path ≠ none ∧
    ((x.call path .compact).2.call path .compact).1 = .done (.ok ()) ∧
    ((x.call path .compact).2.call path .compact).2.disk.bytesAt path =
      (x.call path .compact).2.disk.bytesAt path ∧
    (∀ options : Options, options.Accepted path →
      ((x.call path .compact).2.call path (.reopen options)).1 = .reopened none none ∧
      (((x.call path .compact).2.call path (.reopen options)).2.call path .compact).1 = .done (.ok ()) ∧
      (((x.call path .compact).2.call path (.reopen options)).2.call path .compact).2.disk.bytesAt path =
        (x.call path .compact).2.disk.bytesAt path) ∧
    (SameAreas x y →
      (x.call path .compact).2.disk.bytesAt path = (y.call path' .compact).2.disk.bytesAt path') := by
  obtain ⟨recs, hserves⟩ := hx.serves
  obtain ⟨recs', hserves'⟩ := hy.serves
  obtain ⟨hdone, h1⟩ := call_compact hserves
  obtain ⟨hdone2, h2⟩ := call_compact h1
  refine ⟨hdone, ?_, hdone2, ?_, ?_, ?_⟩
  · rw [h1.bytesAt]
    exact Option.some_ne_none _
  · rw [h2.bytesAt, h1.bytesAt, concat_compacted_twice]
  · intro options hacc
    obtain ⟨hopened, h3⟩ := call_reopen hacc h1
    obtain ⟨hdone4, h4⟩ := call_compact h3
    refine ⟨hopened, hdone4, ?_⟩
    rw [h4.bytesAt, h1.bytesAt, concat_compacted_twice]
  · intro hsame
    obtain ⟨-, h5⟩ := call_compact hserves'
    rw [h1.bytesAt, h5.bytesAt, concat_compacted_eq, concat_compacted_eq, liveAreas_eq hserves hserves' hsame]

/-- The same two keys and values, put once each. -/
def tidyCalls : List Call := [.put [1] [5, 6] (some ((∅ : AttributeRange).insert [9] [8])), .put [7] [8] none]

theorem compact_normal_form_histories : ∃ x y, worked "db" .zero busyCalls = some x ∧
    worked "db" .zero tidyCalls = some y ∧ x.disk.bytesAt "db" ≠ y.disk.bytesAt "db" ∧
    (x.call "db" .compact).2.disk.bytesAt "db" = (y.call "db" .compact).2.disk.bytesAt "db" ∧
    ((x.call "db" .compact).2.call "db" .compact).2.disk.bytesAt "db" =
      (x.call "db" .compact).2.disk.bytesAt "db" := by
  obtain ⟨x, hx, hreach⟩ := worked_reachable (zero_accepted (by decide)) (busyCalls_accepted "db")
  have htidy : ∀ c ∈ tidyCalls, c.Accepted "db" := by simp [tidyCalls, Call.Accepted]
  obtain ⟨y, hy, hreach'⟩ := worked_reachable (zero_accepted (by decide)) htidy
  obtain ⟨recs, hserves⟩ := hreach.serves
  obtain ⟨recs', hserves'⟩ := hreach'.serves
  have hkeys : (worked "db" .zero busyCalls).map (fun x => x.store.index.keysSortedByOffset.1) = some [[1], [7]] := by
    decide +kernel
  have hkeys' : (worked "db" .zero tidyCalls).map (fun x => x.store.index.keysSortedByOffset.1) = some [[1], [7]] := by
    decide +kernel
  have hareas : ∀ key ∈ [[1], [7]], (worked "db" .zero busyCalls).map (fun x => x.area key) =
      (worked "db" .zero tidyCalls).map fun x => x.area key := by
    decide +kernel
  have hbytes : (worked "db" .zero busyCalls).map (fun x => x.disk.bytesAt "db") ≠
      (worked "db" .zero tidyCalls).map fun x => x.disk.bytesAt "db" := by
    decide +kernel
  rw [hx, Option.map_some, Option.some.injEq] at hkeys
  rw [hy, Option.map_some, Option.some.injEq] at hkeys'
  simp only [hx, hy, Option.map_some, Option.some.injEq] at hareas
  rw [hx, hy, Option.map_some, Option.map_some, ne_eq, Option.some.injEq] at hbytes
  have hsame : SameAreas x y := by
    refine ⟨hkeys.trans hkeys'.symm, fun key => ?_⟩
    by_cases hkey : key ∈ x.store.index.keysSortedByOffset.1
    · rw [hkeys] at hkey
      exact hareas key hkey
    · rw [hserves.area_none hkey, hserves'.area_none (by rwa [hkeys', ← hkeys])]
  obtain ⟨-, -, -, htwice, -, hnormal⟩ := compact_normal_form hreach hreach'
  exact ⟨x, y, hx, hy, hbytes, hnormal hsame, htwice⟩
end

end AppendStore
