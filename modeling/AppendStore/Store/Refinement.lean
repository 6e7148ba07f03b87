import AppendStore.Library.Machine
import AppendStore.Store.Opening
import AppendStore.Store.Reading

/-! # The store refines a finite map

`KeyMap` is what the store is for: a finite map from keys to values and attributes, together with the
order in which its keys were last put. `KeyMap.call` says what each call answers and does there, and
`Session.call` is the same call made on a store and its disk. A session and a map are related when the
store serves a log whose contents the map lists (`Refines`); every call keeps the relation and answers
alike (`call_refines`).
-/

namespace AppendStore
open Library
set_option autoImplicit false

/-! ## Calls and answers -/

/-- The calls of a client. A callback of `ForEach` decides from what it was shown so far whether to
stop; reopening closes the store and opens it again with the given options. -/
inductive Call
  | put (key value : Bytes) (options : Option AttributeRange)
  | delete (key : Bytes)
  | get (key : Bytes)
  | getMetadata (key : Bytes)
  | contains (key : Bytes)
  | len
  | keys
  | forEach (stop : List (Bytes × Bytes) → Bytes → Bytes → Option Err)
  | compact
  | reopen (options : Options)

inductive Answer
  | done (r : Except Err Unit)
  | value (r : Except Err Bytes)
  | metadata (r : Except Err Attributes)
  | found (b : Bool)
  | count (n : ℕ)
  | keys (ks : Multiset Bytes)
  | visited (r : Except Err Unit) (xs : List (Bytes × Bytes))
  | reopened (closeErr openErr : Option Err)
  deriving DecidableEq

/-- The callback that remembers what it was shown. -/
def remember (stop : List (Bytes × Bytes) → Bytes → Bytes → Option Err) (key value : Bytes)
    (seen : List (Bytes × Bytes)) : List (Bytes × Bytes) × Option Err :=
  (seen ++ [(key, value)], stop seen key value)

/-! ## The map -/

/-- A finite map with the order of the last writes. -/
structure KeyMap where
  entries : Finmap fun _ : Bytes => Bytes × Attributes
  order : List Bytes
  nodup : order.Nodup
  listed : ∀ k, k ∈ order ↔ k ∈ entries

namespace KeyMap

def empty : KeyMap :=
  ⟨∅, [], List.nodup_nil, fun _ => ⟨fun h => absurd h List.not_mem_nil, fun h => absurd h Finmap.notMem_empty⟩⟩

def put (m : KeyMap) (key value : Bytes) (attributes : Attributes) : KeyMap where
  entries := m.entries.insert key (value, attributes)
  order := m.order.filter (· ≠ key) ++ [key]
  nodup := by
    refine List.nodup_append.mpr ⟨m.nodup.filter _, List.nodup_singleton key, ?_⟩
    intro a ha b hb
    rw [List.mem_singleton] at hb
    rw [List.mem_filter, decide_eq_true_eq] at ha
    exact hb ▸ ha.2
  listed := by
    intro k
    by_cases hk : k = key
    · simp [hk]
    · simp [hk, m.listed k]

def delete (m : KeyMap) (key : Bytes) : KeyMap where
  entries := m.entries.erase key
  order := m.order.filter (· ≠ key)
  nodup := m.nodup.filter _
  listed := by
    intro k
    by_cases hk : k = key
    · simp [hk]
    · simp [hk, m.listed k]

/-- The keys with their values, in the order of the last writes. -/
def pairs (m : KeyMap) : List (Bytes × Bytes) :=
  m.order.filterMap fun k => (m.entries.lookup k).map fun x => (k, x.1)

/-- What the map answers to a call, and what it becomes. -/
def call (m : KeyMap) : Call → Answer × KeyMap
  | .put key value options =>
    match appendLimits key value (options.getD ∅) [] with
    | .error e => (.done (.error (.wrap "failed to append to log" e)), m)
    | .ok _ => (.done (.ok ()), m.put key value (options.getD ∅).toFinmap)
  | .delete key =>
    match m.entries.lookup key with
    | none => (.done (.error (Store.keyNotFound key)), m)
    | some _ => (.done (.ok ()), m.delete key)
  | .get key =>
    match m.entries.lookup key with
    | none => (.value (.error (Store.keyNotFound key)), m)
    | some (value, _) => (.value (.ok value), m)
  | .getMetadata key =>
    match m.entries.lookup key with
    | none => (.metadata (.error (Store.keyNotFound key)), m)
    | some (_, attributes) => (.metadata (.ok attributes), m)
  | .contains key => (.found (m.entries.lookup key).isSome, m)
  | .len => (.count m.entries.keys.card, m)
  | .keys => (.keys m.entries.keys.val, m)
  | .forEach stop =>
    let (r, seen) := visitAll (remember stop) m.pairs []
    (.visited r seen, m)
  | .compact => (.done (.ok ()), m)
  | .reopen _ => (.reopened none none, m)

/-- The map lists these keys, values and attributes, in this order. -/
def Shows (m : KeyMap) (l : List (Bytes × (Bytes × Attributes))) : Prop :=
  Lists m.entries l ∧ m.order = l.map Prod.fst

theorem shows_empty : empty.Shows [] := ⟨lists_empty, rfl⟩

section
variable {m : KeyMap} {l : List (Bytes × (Bytes × Attributes))}

theorem Shows.put (h : m.Shows l) (key value : Bytes) (attributes : Attributes) :
    (m.put key value attributes).Shows (Event.apply l (key, some (value, attributes))) := by
  refine ⟨h.1.insert key (value, attributes), ?_⟩
  change m.order.filter (· ≠ key) ++ [key] = _
  rw [h.2, List.filter_map]
  simp [Event.apply, Function.comp_def]

theorem Shows.delete (h : m.Shows l) (key : Bytes) :
    (m.delete key).Shows (Event.apply l (key, none)) := by
  refine ⟨h.1.erase key, ?_⟩
  change m.order.filter (· ≠ key) = _
  rw [h.2, List.filter_map]
  simp [Event.apply, Function.comp_def]

theorem Shows.lookup (h : m.Shows l) (key : Bytes) : m.entries.lookup key = l.lookup key := by
  cases hl : l.lookup key with
  | none => exact (h.1.lookup_none key).mpr (lookup_eq_none.mp hl)
  | some x => exact (h.1.2 key x).mpr ((lookup_eq_some h.1.1).mp hl)

theorem Shows.pairs (h : m.Shows l) : m.pairs = l.map fun x => (x.1, x.2.1) := by
  have hlookup : ∀ x ∈ l, m.entries.lookup x.1 = some x.2 := fun x hx => (h.1.2 x.1 x.2).mpr hx
  rw [KeyMap.pairs, h.2, List.filterMap_map, ← List.filterMap_eq_map]
  refine List.filterMap_congr ?_
  intro x hx
  simp only [Function.comp_apply, hlookup x hx, Option.map_some]

end

end KeyMap

/-! ## Sessions -/

/-- A store and the disk it runs on. -/
structure Session where
  store : Store
  disk : Disk

namespace Session

/-- A call on the store. -/
def call (path : Path) (x : Session) : Call → Answer × Session
  | .put key value options =>
    let ((r, s), d) := Disk.exec (x.store.put key value options) x.disk
    (.done r, ⟨s, d⟩)
  | .delete key =>
    let ((r, s), d) := Disk.exec (x.store.delete key) x.disk
    (.done r, ⟨s, d⟩)
  | .get key =>
    let ((r, s), d) := Disk.exec (x.store.get key) x.disk
    (.value r, ⟨s, d⟩)
  | .getMetadata key => (.metadata (x.store.getMetadata key), x)
  | .contains key => (.found (x.store.contains key), x)
  | .len => (.count x.store.len, x)
  | .keys => (.keys x.store.keys, x)
  | .forEach stop =>
    let (((r, seen), s), d) := Disk.exec (x.store.forEach (remember stop) []) x.disk
    (.visited r seen, ⟨s, d⟩)
  | .compact =>
    let ((r, s), d) := Disk.exec x.store.compact x.disk
    (.done r, ⟨s, d⟩)
  | .reopen options =>
    let ((closeErr, s), d) := Disk.exec x.store.close x.disk
    match Disk.exec (openStore path options) d with
    | (.ok s, d) => (.reopened closeErr none, ⟨s, d⟩)
    | (.error e, d) => (.reopened closeErr (some e), ⟨s, d⟩)

end Session

/-- The options of a call that reopens the store are accepted by `Open`. -/
def Call.Accepted (path : Path) : Call → Prop
  | .reopen options => options.Accepted path
  | _ => True

/-- The session runs a store whose contents the map lists. -/
def Refines (path : Path) (x : Session) (m : KeyMap) : Prop :=
  ∃ recs, Serves x.disk x.store path recs ∧ m.Shows (contents recs)

section
variable {path : Path} {x : Session} {m : KeyMap}

/-- What an added record does to the contents. -/
theorem contents_appendRec {recs : List (Rec logVersion)} {key value ab : Bytes} {attributes : AttributeRange}
    (hlim : appendLimits key value attributes [] = .ok ab) (deleted : Bool) :
    contents (recs ++ [appendRec hlim deleted]) =
      Event.apply (contents recs) (key, if deleted then none else some (value, attributes.toFinmap)) := by
  rw [contents_concat, appendRec_deleted]
  rfl

theorem contents_keyLimit {recs : List (Rec logVersion)} {k : Bytes} {v : Bytes × Attributes}
    (h : (k, v) ∈ contents recs) : k.length ≤ maxKeySize := by
  obtain ⟨y, hy, heq⟩ := List.mem_map.mp h
  cases heq
  rw [← (liveRecs_mem hy).2.1]
  exact y.2.2.keyLimit

/-- **Every call answers as the map does, and keeps the relation.** -/
theorem call_refines (c : Call) (hc : c.Accepted path) (h : Refines path x m) :
    (x.call path c).1 = (m.call c).1 ∧ Refines path (x.call path c).2 (m.call c).2 := by
  obtain ⟨recs, hserves, hshows⟩ := h
  have hsame : Refines path x m := ⟨recs, hserves, hshows⟩
  cases c with
  | put key value options =>
    cases hlim : appendLimits key value (options.getD ∅) [] with
    | error e =>
      simp only [Session.call, KeyMap.call, hlim, exec_put_rejected hserves hlim]
      exact ⟨trivial, hsame⟩
    | ok ab =>
      obtain ⟨s', d', hexec, hmut⟩ := exec_put hserves hlim
      simp only [Session.call, KeyMap.call, hlim, hexec]
      refine ⟨trivial, _, hmut.serves, ?_⟩
      rw [contents_appendRec]
      exact hshows.put key value _
  | delete key =>
    cases hlookup : m.entries.lookup key with
    | none =>
      have habs := (hshows.1.lookup_none key).mp hlookup
      simp only [Session.call, KeyMap.call, hlookup, exec_delete_absent hserves habs]
      exact ⟨trivial, hsame⟩
    | some v =>
      have hmem := (hshows.1.2 key v).mp hlookup
      obtain ⟨s', d', hexec, hmut⟩ := exec_delete hserves (contents_keyLimit hmem) (List.mem_map_of_mem hmem)
      simp only [Session.call, KeyMap.call, hlookup, hexec]
      refine ⟨trivial, _, hmut.serves, ?_⟩
      rw [contents_appendRec]
      exact hshows.delete key
  | get key =>
    obtain ⟨s', hexec, hserves', -⟩ := exec_get hserves key
    simp only [Session.call, KeyMap.call, hexec, getAnswer, ← hshows.lookup key]
    refine ⟨?_, ?_⟩
    · cases m.entries.lookup key <;> rfl
    · have h' : Refines path ⟨s', x.disk⟩ m := ⟨recs, hserves', hshows⟩
      cases m.entries.lookup key <;> exact h'
  | getMetadata key =>
    simp only [Session.call, KeyMap.call, getMetadata_eq hserves key, metadataAnswer, ← hshows.lookup key]
    refine ⟨?_, ?_⟩
    · cases m.entries.lookup key <;> rfl
    · cases m.entries.lookup key <;> exact hsame
  | contains key =>
    simp only [Session.call, KeyMap.call, contains_eq hserves key, hshows.lookup key]
    exact ⟨trivial, hsame⟩
  | len =>
    simp only [Session.call, KeyMap.call, len_eq hserves, hshows.1.card]
    exact ⟨trivial, hsame⟩
  | keys =>
    simp only [Session.call, KeyMap.call, keys_eq hserves, hshows.1.keys]
    exact ⟨trivial, hsame⟩
  | forEach stop =>
    obtain ⟨s', hexec, hserves', -⟩ := exec_forEach hserves (remember stop) []
    simp only [Session.call, KeyMap.call, hexec, hshows.pairs]
    exact ⟨trivial, recs, hserves', hshows⟩
  | compact =>
    obtain ⟨s', d', hexec, hserves', -⟩ := exec_compact hserves
    simp only [Session.call, KeyMap.call, hexec]
    exact ⟨trivial, compacted recs, hserves', by rw [contents_compacted]; exact hshows⟩
  | reopen options =>
    obtain ⟨s1, d1, hclose, hrest⟩ := exec_close hserves
    obtain ⟨s2, d2, hopen, hserves', -⟩ := exec_openStore_resting hrest hc
    simp only [Session.call, KeyMap.call, hclose, hopen]
    exact ⟨trivial, recs, hserves', hshows⟩

/-- **The store refines a finite map.** Opened where there is no log, with any accepted options, it
answers every sequence of calls as the empty map does. -/
theorem store_refines_map {options : Options} {d : Disk} (hacc : options.Accepted path) (hs : d.Sound)
    (hfree : LockFree d path) (hnew : recoveredMain d.dir path = none) (calls : List Call)
    (hcalls : ∀ c ∈ calls, c.Accepted path) :
    ∃ s d', Disk.exec (openStore path options) d = (.ok s, d') ∧
      answers (Session.call path) ⟨s, d'⟩ calls = answers KeyMap.call .empty calls := by
  obtain ⟨s, d', hopen, hserves, -⟩ := exec_openStore_fresh hacc hs hfree (by
    intro i hi
    rw [hnew] at hi
    cases hi)
  refine ⟨s, d', hopen, ?_⟩
  have hstart : Refines path ⟨s, d'⟩ .empty := ⟨[], hserves, KeyMap.shows_empty⟩
  exact answers_eq calls (fun c hc x m h => call_refines c (hcalls c hc) h) hstart

theorem store_refines_map_blank :
    ∃ s d', Disk.exec (openStore "db" .zero) .blank = (.ok s, d') ∧
      answers (Session.call "db") ⟨s, d'⟩ [.put [1] [2] none, .compact, .reopen .zero, .get [1], .delete [7]] =
        answers KeyMap.call .empty [.put [1] [2] none, .compact, .reopen .zero, .get [1], .delete [7]] := by
  refine store_refines_map (zero_accepted (by decide)) Disk.blank_sound (blank_lockFree "db") rfl _ ?_
  intro c hc
  fin_cases hc <;> first | trivial | exact zero_accepted (by decide)

/-- The session that `Open` begins, if it succeeds. -/
def Session.opened (path : Path) (options : Options) (d : Disk) : Option Session :=
  let r := Disk.exec (openStore path options) d
  r.1.toOption.map fun s => ⟨s, r.2⟩

theorem opened_eq_some {options : Options} {d : Disk} {x : Session} :
    Session.opened path options d = some x ↔ Disk.exec (openStore path options) d = (.ok x.store, x.disk) := by
  rw [Session.opened]
  rcases Disk.exec (openStore path options) d with ⟨r, d'⟩
  constructor
  · intro h
    cases r <;> cases h
    rfl
  · intro h
    cases h
    rfl

theorem opened_blank {options : Options} (hacc : options.Accepted path) :
    ∃ x, Session.opened path options .blank = some x ∧ Serves x.disk x.store path [] := by
  obtain ⟨s, d', hopen, hserves, -⟩ := exec_openStore_fresh hacc Disk.blank_sound (blank_lockFree path) (by
    intro i hi
    cases hi)
  exact ⟨⟨s, d'⟩, opened_eq_some.mpr hopen, hserves⟩

/-- A new store with these options, after these calls. -/
def worked (path : Path) (options : Options) (calls : List Call) : Option Session :=
  (Session.opened path options .blank).map fun x => final (Session.call path) x calls

theorem worked_refines {options : Options} (hacc : options.Accepted path) {calls : List Call}
    (hcalls : ∀ c ∈ calls, c.Accepted path) :
    ∃ x, worked path options calls = some x ∧ Refines path x (final KeyMap.call .empty calls) := by
  obtain ⟨x, hx, hserves⟩ := opened_blank hacc
  refine ⟨_, by rw [worked, hx, Option.map_some], ?_⟩
  have hstart : Refines path x .empty := ⟨[], hserves, KeyMap.shows_empty⟩
  exact final_related (R := Refines path) calls (fun c hc x m h => (call_refines c (hcalls c hc) h).2) hstart

theorem worked_concat (path : Path) (options : Options) (calls : List Call) (c : Call) :
    worked path options (calls ++ [c]) = (worked path options calls).map fun x => (x.call path c).2 := by
  unfold worked
  rw [Option.map_map]
  congr 1
  funext x
  rw [final_append]
  rfl

/-- A key is overwritten with another value of the field `[9]`, a second one is deleted, and a third one stays. -/
def busyCalls : List Call :=
  [.put [1] [2] (some ((∅ : AttributeRange).insert [9] [4])), .put [3] [4] none,
    .put [1] [5, 6] (some ((∅ : AttributeRange).insert [9] [8])), .delete [3], .put [7] [8] none]

theorem busyCalls_accepted (path : Path) : ∀ c ∈ busyCalls, c.Accepted path := by
  simp [busyCalls, Call.Accepted]

end

end AppendStore
