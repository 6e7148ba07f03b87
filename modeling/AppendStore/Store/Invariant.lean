import AppendStore.Log.Artifacts
import AppendStore.Store.Replay

/-! # The invariant of a running store

`Backed d s path header recs`: the open store `s` at `path` is backed by a log that holds `recs` and
nothing else, its index is the replay of those records, every cached value is live, and no artifact
of a compaction is there. A store that `Open` returned is backed by a log of the current version
(`Serves`); one of an older version occurs while it is migrated.

`Put` and `Delete` add a record (`exec_put`, `exec_delete`); a call they refuse leaves the store and
the disk as they are.
-/

namespace AppendStore
open Library
set_option autoImplicit false

structure Backed {version : ℕ} (d : Disk) (s : Store) (path : Path) (header : Bytes)
    (recs : List (Rec version)) : Prop where
  image : LogImage d s.log header recs
  pathEq : s.log.path = path
  dir : d.dir path = some s.log.file.inode
  readOnlyFeatures : s.log.readOnlyFeatures = 0
  readOnlyReason : s.readOnlyReason = none
  closed : s.closed = false
  compacting : s.compacting = false
  index : s.index.Same (replay s.options.indexedFields recs)
  sorted : s.index.Sorted
  cacheWF : s.cache.WF
  cached : s.cache.Holds fun k v => ∃ a, (k, (v, a)) ∈ contents recs
  noArtifacts : ∀ q ∈ artifacts path, d.dir q = none
  lock : ∃ i, s.lock.file = some ⟨i, true⟩ ∧ d.dir (path ++ lockFileSuffix) = some i
  sound : d.Sound

/-- The store serves the records of a log of the current version. -/
abbrev Serves (d : Disk) (s : Store) (path : Path) (recs : List (Rec logVersion)) : Prop :=
  Backed d s path currentHeader recs

/-- A file grew, and nothing else changed. -/
structure Grew (d d' : Disk) (i : ℕ) (b : Bytes) : Prop where
  names : d'.names = d.names
  pending : d'.pending = d.pending
  next : d'.next = d.next
  locked : d'.locked = d.locked
  mappable : d'.mappable = d.mappable
  content : (d'.files i).content = (d.files i).content ++ b
  others : ∀ j, j ≠ i → d'.files j = d.files j

theorem Grew.dir {d d' : Disk} {i : ℕ} {b : Bytes} (h : Grew d d' i b) : d'.dir = d.dir := by
  rw [Disk.dir, Disk.dir, h.names, h.pending]

section
variable {version : ℕ} {d : Disk} {s : Store} {path : Path} {header : Bytes} {recs : List (Rec version)}

theorem Backed.unknownReadOnly (h : Backed d s path header recs) : s.log.unknownReadOnly = 0 := by
  rw [AppendLog.unknownReadOnly, h.readOnlyFeatures]
  rfl

theorem Index.Same.get_eq {idx : Index} {fields : List Bytes} (h : idx.Same (replay fields recs)) (k : Bytes) :
    idx.get k = (replay fields recs).entries.lookup k := by
  rw [Index.get, h.entries]

/-- A key of the index is live, at the place the index says. -/
theorem Index.Same.get_some {idx : Index} {fields : List Bytes} (h : idx.Same (replay fields recs)) {k : Bytes}
    {e : IndexEntry} (he : idx.get k = some e) : ∃ x, (k, x) ∈ liveRecs recs ∧ e = liveEntry x :=
  replay_lookup_some (by rw [← h.get_eq, he])

theorem Index.Same.get_none {idx : Index} {fields : List Bytes} (h : idx.Same (replay fields recs)) {k : Bytes} :
    idx.get k = none ↔ k ∉ (contents recs).map Prod.fst := by
  rw [h.get_eq, replay_lookup_none, contents_keys]

theorem Backed.get_some (h : Backed d s path header recs) {k : Bytes} {e : IndexEntry}
    (he : s.index.get k = some e) : ∃ x, (k, x) ∈ liveRecs recs ∧ e = liveEntry x := h.index.get_some he

theorem Backed.get_none (h : Backed d s path header recs) {k : Bytes} :
    s.index.get k = none ↔ k ∉ (contents recs).map Prod.fst := h.index.get_none

/-- The keys that a scan or a compaction goes through. -/
theorem Backed.sortedKeys (h : Backed d s path header recs) :
    s.index.keysSortedByOffset.1 = (liveRecs recs).map Prod.fst := by
  rw [Index.keysSortedByOffset_eq h.sorted, h.index.entries, replay_sortByOffset]

/-- Asking for the sorted keys does not change what the store holds. -/
theorem Backed.sortKeys (h : Backed d s path header recs) :
    Backed d { s with index := s.index.keysSortedByOffset.2 } path header recs :=
  { h with
    index := (Index.keysSortedByOffset_same s.index).trans h.index
    sorted := h.sorted.keysSortedByOffset }

/-- A disk whose files hold the same bytes backs the same store. -/
theorem Backed.of_disk (h : Backed d s path header recs) {d' : Disk} (hdir : d'.dir = d.dir)
    (hnext : d'.next = d.next)
    (hcontent : (d'.files s.log.file.inode).content = (d.files s.log.file.inode).content) :
    Backed d' s path header recs :=
  { h with
    image := h.image.of_same ⟨rfl, rfl, rfl, rfl, rfl⟩ rfl hcontent
    dir := by rw [hdir, h.dir]
    noArtifacts := by rw [hdir]; exact h.noArtifacts
    lock := by rw [hdir]; exact h.lock
    sound := h.sound.of_dir hdir hnext }

/-- A call on an open, writable store goes on to the body of the call. -/
theorem Backed.writable {α : Type} (h : Backed d s path header recs) (refuse : Err → α) (body : α) :
    s.ifWritable refuse body = body := by
  rw [Store.ifWritable, h.closed, h.readOnlyReason]
  rfl

end

section
variable {d : Disk} {s : Store} {path : Path} {recs : List (Rec logVersion)}

/-! ## Mutations -/

/-- The state after a record was added to the log, the index brought up to date and the key dropped
from the cache. -/
theorem Serves.appended (h : Serves d s path recs) {d' : Disk} {l' : AppendLog} {r : Rec logVersion}
    (hs : s.log.SameFile l') (himage : LogImage d' l' currentHeader (recs ++ [r]))
    (hdir : d'.dir = d.dir) (hnext : d'.next = d.next) :
    Serves d' { s with
      log := l'
      index := indexStep (r.entry s.log.writePos) s.index
      cache := s.cache.remove r.key } path (recs ++ [r]) where
  image := himage
  pathEq := by rw [← h.pathEq]; exact hs.path
  dir := by rw [hdir, h.dir]; exact congrArg (fun f : OsFile => some f.inode) hs.file.symm
  readOnlyFeatures := by rw [← h.readOnlyFeatures]; exact hs.readOnlyFeatures
  readOnlyReason := h.readOnlyReason
  closed := h.closed
  compacting := h.compacting
  index := by
    rw [replay_concat, ← h.image.writePos]
    exact h.index.indexStep _
  sorted := h.sorted.indexStep _
  cacheWF := h.cacheWF.remove _
  cached := by
    refine (h.cached.remove h.cacheWF r.key).mono ?_
    rintro k v ⟨⟨a, ha⟩, hne⟩
    refine ⟨a, ?_⟩
    rw [contents_concat, mem_apply]
    exact .inl ⟨ha, hne⟩
  noArtifacts := by rw [hdir]; exact h.noArtifacts
  lock := by rw [hdir]; exact h.lock
  sound := h.sound.of_dir hdir hnext

/-- The last step of `Put` and `Delete`. -/
theorem exec_syncMutation (hopen : s.log.file.isOpen = true) (context : String) (d : Disk) :
    ∃ d', Disk.exec (s.syncMutation context) d = ((.ok (), s), d') ∧
      d' = if s.options.syncInterval = 0 then d.syncFile s.log.file.inode else d := by
  unfold Store.syncMutation
  split
  · refine ⟨_, ?_, rfl⟩
    unfold AppendLog.sync asErr
    rw [Disk.exec_orElse_ok (p := Prog.orElse _ _ _) (by
      rw [Disk.exec_orElse_ok (Disk.exec_fsync hopen d)]
      rfl)]
    rfl
  · exact ⟨d, rfl, rfl⟩

/-- What an acknowledged mutation did: the record is at the end of the file, and synced if the
store syncs every mutation. -/
structure Mutated (d d' : Disk) (s s' : Store) (path : Path) (recs : List (Rec logVersion))
    (r : Rec logVersion) : Prop where
  serves : Serves d' s' path (recs ++ [r])
  options : s'.options = s.options
  file : s'.log.file = s.log.file
  grew : Grew d d' s.log.file.inode r.bytes
  synced : s.options.syncInterval = 0 →
    (d'.files s.log.file.inode).synced = (d'.files s.log.file.inode).content
  unsynced : s.options.syncInterval ≠ 0 →
    (d'.files s.log.file.inode).synced = (d.files s.log.file.inode).synced

theorem grew_setContent (d : Disk) (i : ℕ) (b : Bytes) :
    Grew d (d.setContent i ((d.files i).content ++ b)) i b :=
  ⟨rfl, rfl, rfl, rfl, rfl, by simp, fun j hj => d.files_setContent_ne i j _ hj⟩

theorem Grew.syncFile {d d' : Disk} {i : ℕ} {b : Bytes} (h : Grew d d' i b) : Grew d (d'.syncFile i) i b :=
  ⟨h.names, h.pending, h.next, h.locked, h.mappable, by rw [Disk.content_syncFile, h.content],
    fun j hj => by rw [← h.others j hj]; exact Function.update_of_ne hj _ _⟩

theorem Serves.mutated (h : Serves d s path recs) {key value ab : Bytes} {attributes : AttributeRange}
    {deleted : Bool} (hlim : appendLimits key value attributes [] = .ok ab) (context : String)
    (bad : Err → AppendLog → FileProg (Except Err Unit × Store))
    {good : AppendLog.Placed → AppendLog → FileProg (Except Err Unit × Store)}
    (hgood : ∀ log, good (placedAt s.log.writePos (appendRaw key ab value [] deleted)) log =
      ({ s with
        log := log
        index := indexStep ((appendRec hlim deleted).entry s.log.writePos) s.index
        cache := s.cache.remove key } : Store).syncMutation context) :
    ∃ s' d', Disk.exec ((s.log.append key value deleted attributes []).orElseState bad good) d =
        ((.ok (), s'), d') ∧ Mutated d d' s s' path recs (appendRec hlim deleted) := by
  obtain ⟨l', d1, happ, hd1, hs, himage⟩ :=
    exec_append_image h.image h.unknownReadOnly hlim deleted
  have hgrew : Grew d d1 s.log.file.inode (appendRec hlim deleted).bytes := by
    rw [hd1]
    exact grew_setContent d _ _
  have hserves := h.appended hs himage hgrew.dir hgrew.next
  obtain ⟨d2, hsync, hd2⟩ := exec_syncMutation himage.isOpen context d1 (s := { s with
    log := l'
    index := indexStep ((appendRec hlim deleted).entry s.log.writePos) s.index
    cache := s.cache.remove key })
  refine ⟨_, d2, (Disk.exec_orElseState_ok happ).trans
    ((congrArg (Disk.exec · d1) (hgood l')).trans hsync), ?_⟩
  dsimp only at hd2
  rw [hs.file] at hd2
  by_cases hint : s.options.syncInterval = 0
  · rw [if_pos hint] at hd2
    subst hd2
    refine ⟨hserves.of_disk rfl rfl (by simp), rfl, hs.file, hgrew.syncFile, ?_, fun hne => absurd hint hne⟩
    intro _
    rw [Disk.synced_syncFile, Disk.content_syncFile]
  · rw [if_neg hint] at hd2
    subst hd2
    refine ⟨hserves, rfl, hs.file, hgrew, fun heq => absurd heq hint, ?_⟩
    intro _
    rw [hd1]
    simp [Disk.setContent]

/-- **A `Put` within the limits adds its record.** -/
theorem exec_put (h : Serves d s path recs) {key value ab : Bytes} {options : Option AttributeRange}
    (hlim : appendLimits key value (options.getD ∅) [] = .ok ab) :
    ∃ s' d', Disk.exec (s.put key value options) d = ((.ok (), s'), d') ∧
      Mutated d d' s s' path recs (appendRec hlim false) := by
  unfold Store.put
  rw [h.writable]
  refine h.mutated hlim "sync appended value" _ fun log => ?_
  have hstep : indexStep ((appendRec hlim false).entry s.log.writePos) s.index =
      s.index.put key ((placedAt s.log.writePos (appendRaw key ab value [] false)).entry
        (options.getD ∅).toFinmap) := by
    unfold indexStep
    rw [if_neg (by
      change ¬ (appendRec hlim false).deleted = true
      rw [appendRec_deleted]
      exact Bool.false_ne_true)]
    rfl
  rw [hstep]

theorem exec_put_rejected (h : Serves d s path recs) {key value : Bytes} {options : Option AttributeRange}
    {e : Err} (hlim : appendLimits key value (options.getD ∅) [] = .error e) :
    Disk.exec (s.put key value options) d = ((.error (.wrap "failed to append to log" e), s), d) := by
  unfold Store.put
  rw [h.writable]
  dsimp only
  rw [Disk.exec_orElseState_error (exec_append_rejected h.image.versionEq h.unknownReadOnly hlim)]
  rfl

/-- A tombstone is within the limits, since its key was. -/
theorem tombstone_limits {key : Bytes} (h : key.length ≤ maxKeySize) :
    appendLimits key [] ∅ [] = .ok (attributeBlock []) :=
  appendLimits_eq h (Nat.zero_le _) (Nat.zero_le _) validateExtensions_nil rfl

/-- **A `Delete` of a live key adds a tombstone.** -/
theorem exec_delete (h : Serves d s path recs) {key : Bytes} (hkey : key.length ≤ maxKeySize)
    (hlive : key ∈ (contents recs).map Prod.fst) :
    ∃ s' d', Disk.exec (s.delete key) d = ((.ok (), s'), d') ∧
      Mutated d d' s s' path recs (appendRec (tombstone_limits hkey) true) := by
  obtain ⟨e, he⟩ : ∃ e, s.index.get key = some e := by
    rw [← Option.ne_none_iff_exists']
    exact fun hnone => h.get_none.mp hnone hlive
  unfold Store.delete
  rw [h.writable, he]
  refine h.mutated (tombstone_limits hkey) "sync tombstone" _ fun log => ?_
  have hstep : indexStep ((appendRec (tombstone_limits hkey) true).entry s.log.writePos) s.index =
      s.index.delete key := by
    unfold indexStep
    rw [if_pos (by
      change (appendRec (tombstone_limits hkey) true).deleted = true
      rw [appendRec_deleted])]
    rfl
  rw [hstep]

theorem exec_delete_absent (h : Serves d s path recs) {key : Bytes}
    (habs : key ∉ (contents recs).map Prod.fst) :
    Disk.exec (s.delete key) d = ((.error (Store.keyNotFound key), s), d) := by
  unfold Store.delete
  rw [h.writable, h.get_none.mpr habs]
  rfl

end

end AppendStore
