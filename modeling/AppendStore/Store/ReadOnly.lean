import AppendStore.Store.Outcomes

/-! # Logs with a read-only feature this build does not know

`Open` serves such a log and refuses to write to it. The scan leaves an incomplete record where it is, so that
the file never changes (`Frozen`). The same file with the mask cleared is opened by `Open` in the same cases, and
the reading calls cannot tell the two stores apart (`Mirrors`).
-/

namespace AppendStore
open Library
set_option autoImplicit false

/-! ## The store -/

/-- An open store that refuses to write, and the file it reads. -/
structure Frozen (d : Disk) (s : Store) (path : Path) (i mask : ℕ) (recs : List (Rec logVersion)) : Prop where
  viewed : Viewed d s recs
  reason : s.readOnlyReason = some (.both .readOnly (unknownFeatureError "read-only" mask))
  file : s.log.file = ⟨i, true⟩
  writePos : s.log.writePos = logHeaderSize + (concat recs).length
  reads : ∃ h, Reads (d.files i).content h recs
  dir : d.dir path = some i
  lock : ∃ k, s.lock.file = some ⟨k, true⟩

section
variable {d : Disk} {path : Path} {options : Options} {i : ℕ} {h : Header} {recs : List (Rec logVersion)}

/-- The records of a file are in it, whatever follows them. -/
theorem Reads.storedAt {version : ℕ} {recs : List (Rec version)} {l : AppendLog}
    (hr : Reads (d.files l.file.inode).content h recs) (hopen : l.file.isOpen = true) {x : ℕ × Rec version}
    (hx : x ∈ placed logHeaderSize recs) : StoredAt d l x := by
  obtain ⟨tail, hcontent, -⟩ := hr.content
  have hlen := hr.headerLength
  obtain ⟨-, hend⟩ := placed_bounds hx
  rw [← hlen] at hx
  have hs := placed_slice (t := tail) hx
  rw [← hcontent] at hs
  refine ⟨hopen, hs, ?_⟩
  have htotal := congrArg List.length hcontent
  rw [List.length_append, List.length_append, hlen] at htotal
  omega

/-- The scan of a log that must not be written to leaves the file as it is. -/
theorem exec_iterate_frozen {σ : Type} {fn : LogRecord → σ → Except Err σ} {f : LogRecord → σ → σ} {l : AppendLog}
    (hfn : ∀ record s, fn record s = .ok (f record s)) (ho : Opened l path i h (d.files i).content.length)
    (hr : Reads (d.files i).content h recs) (hro : h.readOnlyFeatures ≠ 0) (s : σ) :
    ∃ l', Disk.exec (l.iterate fn s) d = (((.ok (), l'), foldPlaced f (placed logHeaderSize recs) s), d) ∧
      l.SameFile l' ∧ l'.writePos = logHeaderSize + (concat recs).length := by
  obtain ⟨tail, hcontent, hcut⟩ := hr.content
  have hopen : l.file.isOpen = true := by rw [ho.file]
  have hpos : l.writePos = (d.files l.file.inode).content.length := by rw [ho.writePos, ho.file]
  have hver : l.version = logVersion := by rw [ho.version, hr.versionEq]
  have hcontent' : (d.files l.file.inode).content =
      (d.files i).content.take logHeaderSize ++ concat recs ++ tail := by
    rw [ho.file]
    exact hcontent
  by_cases htail : tail = []
  · have hit := exec_iterate_complete hfn hopen hpos hver hr.headerLength hcontent' s htail
    refine ⟨l, hit, ⟨rfl, rfl, rfl, rfl, rfl⟩, ?_⟩
    rw [hpos, hcontent', htail, List.append_nil, List.length_append, hr.headerLength]
  · obtain ⟨e, he, heof⟩ := hcut.resolve_left htail
    have hunknown : l.unknownReadOnly ≠ 0 := by
      rw [AppendLog.unknownReadOnly, ho.readOnlyFeatures, knownReadOnlyFeatures, clearBits_zero]
      exact hro
    have hit := exec_iterate_readOnly hfn hopen hpos hver hr.headerLength hcontent' s htail he heof hunknown
    exact ⟨_, hit, ⟨rfl, rfl, rfl, rfl, rfl⟩, rfl⟩

/-- **`Open` on a log that must not be written to.** -/
theorem exec_openStore_frozen (hacc : options.Accepted path) (hs : d.Sound) (hfree : LockFree d path)
    (hmain : recoveredMain d.dir path = some i) (hr : Reads (d.files i).content h recs)
    (hro : h.readOnlyFeatures ≠ 0) :
    ∃ s d', Disk.exec (openStore path options) d = (.ok s, d') ∧ Frozen d' s path i h.readOnlyFeatures recs ∧
      s.options = options.withDefaults ∧ d'.files i = d.files i := by
  obtain ⟨lock, d1, hready, hexec⟩ := exec_openStore_ready hacc hs hfree
  obtain ⟨k, hk, -⟩ := hready.lockHeld
  have hset := hready.settled hmain
  have hfile : d1.files i = d.files i := hready.files i (recoveredMain_bounded hs hmain)
  rw [← hfile] at hr
  have hne : (d1.files i).content ≠ [] := by
    rw [← List.length_pos_iff]
    exact Nat.lt_of_lt_of_le (by decide) (readHeaderOf_ok hr.headerOk).1
  obtain ⟨l, hopen, ho⟩ := exec_openAppendLogFile_ok hset.dir hne hr.headerOk
  obtain ⟨l', hit, hsame, hpos⟩ := exec_iterate_frozen recoverRecord_eq ho hr hro
    (newIndex options.withDefaults.indexedFields, newLRUCache options.withDefaults.cacheSize.toNat)
  have hrec : Disk.exec (newStore options.withDefaults lock l).recover d1 = _ := exec_recover_of_iterate hit
  have hfile' : l'.file = ⟨i, true⟩ := by rw [hsame.file, ho.file]
  have hver : l'.version = logVersion := by rw [hsame.version, ho.version, hr.versionEq]
  have hunknown : l.unknownReadOnly = h.readOnlyFeatures := by
    rw [AppendLog.unknownReadOnly, ho.readOnlyFeatures, knownReadOnlyFeatures, clearBits_zero]
  refine ⟨{ newStore options.withDefaults lock l with
    log := l'
    index := replay options.withDefaults.indexedFields recs }, d1, ?_, ⟨⟨rfl, ?_, Index.same_refl _,
    replay_sorted _ _, LruCache.newLRUCache_wf _, LruCache.newLRUCache_holds _⟩, ?_, hfile', hpos, ⟨h, hr⟩, hset.dir,
    k, hk⟩, rfl, hfile⟩
  · rw [hexec, Disk.exec_orElse_ok hopen, recoverOpened, recoverWith, Disk.exec_orElseState_ok hrec, migrateOlder,
      if_neg (show ¬ l'.version < logVersion by rw [hver]; exact Nat.lt_irrefl _)]
    rfl
  · intro x hx
    have hr' : Reads (d1.files l'.file.inode).content h recs := by
      rw [hfile']
      exact hr
    exact hr'.storedAt (by rw [hfile']) hx
  · change (if l.unknownReadOnly ≠ 0 then _ else _) = _
    rw [if_pos (by rw [hunknown]; exact hro), hunknown]

end

/-! ## The calls of a client -/

inductive ClientCall
  | put (key value : Bytes) (attributes : Option AttributeRange)
  | delete (key : Bytes)
  | compact
  | get (key : Bytes)
  | getMetadata (key : Bytes)
  | contains (key : Bytes)
  | len
  | keys
  | keysBy (field value : Bytes)
  | forEach (stop : List (Bytes × Bytes) → Bytes → Bytes → Option Err)
  | sync
  | close

/-- The calls that a read-only store refuses. -/
def ClientCall.writes : ClientCall → Bool
  | put .. | delete _ | compact => true
  | _ => false

namespace Session

def serve (x : Session) : ClientCall → Answer × Session
  | .put key value attributes =>
    let ((r, s), d) := Disk.exec (x.store.put key value attributes) x.disk
    (.done r, ⟨s, d⟩)
  | .delete key =>
    let ((r, s), d) := Disk.exec (x.store.delete key) x.disk
    (.done r, ⟨s, d⟩)
  | .compact =>
    let ((r, s), d) := Disk.exec x.store.compact x.disk
    (.done r, ⟨s, d⟩)
  | .get key =>
    let ((r, s), d) := Disk.exec (x.store.get key) x.disk
    (.value r, ⟨s, d⟩)
  | .getMetadata key => (.metadata (x.store.getMetadata key), x)
  | .contains key => (.found (x.store.contains key), x)
  | .len => (.count x.store.len, x)
  | .keys => (.keys x.store.keys, x)
  | .keysBy field value => (.keys (x.store.keysBy field value), x)
  | .forEach stop =>
    let (((r, seen), s), d) := Disk.exec (x.store.forEach (remember stop) []) x.disk
    (.visited r seen, ⟨s, d⟩)
  | .sync =>
    let (r, d) := Disk.exec x.store.sync x.disk
    (.done r, ⟨x.store, d⟩)
  | .close =>
    let ((err, s), d) := Disk.exec x.store.close x.disk
    (.done (err.elim (.ok ()) .error), ⟨s, d⟩)

/-- The answers of a store that is never written to: a call that writes is not made, and is answered with a
refusal. -/
def mirror (reason : Err) (y : Session) (c : ClientCall) : Answer × Session :=
  if c.writes then (.done (.error (if y.store.closed then .sentinel .storeClosed else reason)), y)
  else y.serve c

end Session

/-- The handles of an open store. -/
structure Handles (s : Store) : Prop where
  file : s.log.file.isOpen = true
  lock : ∃ k, s.lock.file = some ⟨k, true⟩

/-- A read-only store and the store of the same file with the mask cleared. -/
structure Mirrors (path : Path) (i : ℕ) (b : Bytes) (reason : Err) (x y : Session) : Prop where
  dir : x.disk.dir path = some i
  content : (x.disk.files i).content = b
  reason : x.store.readOnlyReason = some reason
  closed : x.store.closed = y.store.closed
  index : x.store.index.Same y.store.index
  served : x.store.closed = false → Handles x.store ∧ Handles y.store ∧
    ∃ recs, Viewed x.disk x.store recs ∧ Viewed y.disk y.store recs

section
variable {path : Path} {i : ℕ} {b : Bytes} {reason : Err} {x y : Session}

theorem Store.ifWritable_readOnly {α : Type} {s : Store} (h : s.readOnlyReason = some reason) (refuse : Err → α)
    (body : α) : s.ifWritable refuse body = refuse (if s.closed then .sentinel .storeClosed else reason) := by
  unfold Store.ifWritable
  cases s.closed with
  | true => rfl
  | false => rw [h]; rfl

/-- A refused call changes nothing. -/
theorem serve_refused (h : x.store.readOnlyReason = some reason) {c : ClientCall} (hc : c.writes = true) :
    x.serve c = (.done (.error (if x.store.closed then .sentinel .storeClosed else reason)), x) := by
  cases c with
  | put key value attributes =>
    simp only [Session.serve, Store.put, Store.ifWritable_readOnly h]
    rfl
  | delete key =>
    simp only [Session.serve, Store.delete, Store.ifWritable_readOnly h]
    rfl
  | compact =>
    simp only [Session.serve, Store.compact, Store.ifWritable_readOnly h]
    rfl
  | _ => cases hc

theorem Viewed.of_disk {d d' : Disk} {s : Store} {recs : List (Rec logVersion)} (h : Viewed d s recs)
    (hcontent : (d'.files s.log.file.inode).content = (d.files s.log.file.inode).content) : Viewed d' s recs :=
  { h with stored := fun x hx => ⟨(h.stored x hx).isOpen, by rw [hcontent]; exact (h.stored x hx).bytes,
      by rw [hcontent]; exact (h.stored x hx).inFile⟩ }

/-- The calls that only look at the index. -/
theorem Mirrors.index_answers (h : Mirrors path i b reason x y) :
    x.store.len = y.store.len ∧ x.store.keys = y.store.keys ∧
      ∀ field value, x.store.keysBy field value = y.store.keysBy field value := by
  refine ⟨?_, ?_, ?_⟩
  · rw [Store.len, Store.len, Index.len, Index.len, h.index.entries]
  · rw [Store.keys, Store.keys, Index.keys, Index.keys, h.index.entries]
  · intro field value
    rw [Store.keysBy, Store.keysBy, Index.keysBy, Index.keysBy, h.index.byAttribute]

/-- After `Close` both stores answer alike and stay as they are. -/
theorem Mirrors.shut_step (h : Mirrors path i b reason x y) (hclosed : x.store.closed = true) {c : ClientCall}
    (hc : c.writes = false) : (x.serve c).1 = (y.serve c).1 ∧ (x.serve c).2 = x ∧ (y.serve c).2 = y := by
  have hclosed' : y.store.closed = true := by rw [← h.closed, hclosed]
  obtain ⟨hlen, hkeys, hkeysBy⟩ := h.index_answers
  cases c with
  | put key value attributes => cases hc
  | delete key => cases hc
  | compact => cases hc
  | get key =>
    simp only [Session.serve, Store.get, hclosed, hclosed', if_true]
    exact ⟨rfl, rfl, rfl⟩
  | getMetadata key => simp only [Session.serve, Store.getMetadata, hclosed, hclosed', if_true, and_self]
  | contains key => simp only [Session.serve, Store.contains, hclosed, hclosed', if_true, and_self]
  | len => simp only [Session.serve, hlen, and_self]
  | keys => simp only [Session.serve, hkeys, and_self]
  | keysBy field value => simp only [Session.serve, hkeysBy, and_self]
  | forEach stop =>
    simp only [Session.serve, Store.forEach, hclosed, hclosed', if_true]
    exact ⟨rfl, rfl, rfl⟩
  | sync =>
    simp only [Session.serve, Store.sync, hclosed, hclosed', if_true]
    exact ⟨rfl, rfl, rfl⟩
  | close =>
    simp only [Session.serve, Store.close, hclosed, hclosed', if_true]
    exact ⟨rfl, rfl, rfl⟩

/-- The stores change in their caches or in the order of their keys, the disks not at all. -/
theorem Mirrors.of_viewed (h : Mirrors path i b reason x y) (hopen : x.store.closed = false) {s s' : Store}
    {recs : List (Rec logVersion)} (hs : s.log = x.store.log ∧ s.lock = x.store.lock ∧
      s.readOnlyReason = x.store.readOnlyReason) (hs' : s'.log = y.store.log ∧ s'.lock = y.store.lock)
    (hindex : s.index.Same s'.index) (hv : Viewed x.disk s recs) (hv' : Viewed y.disk s' recs) :
    Mirrors path i b reason ⟨s, x.disk⟩ ⟨s', y.disk⟩ := by
  obtain ⟨hx, hy, -⟩ := h.served hopen
  refine ⟨h.dir, h.content, ?_, ?_, hindex, fun _ => ⟨?_, ?_, recs, hv, hv'⟩⟩
  · rw [← h.reason]
    exact hs.2.2
  · rw [hv.closed, hv'.closed]
  · exact ⟨by rw [hs.1]; exact hx.file, by rw [hs.2.1]; exact hx.lock⟩
  · exact ⟨by rw [hs'.1]; exact hy.file, by rw [hs'.2]; exact hy.lock⟩

/-- The calls on the open stores that read. -/
theorem Mirrors.open_step (h : Mirrors path i b reason x y) (hopen : x.store.closed = false) {c : ClientCall}
    (hc : c.writes = false) : (x.serve c).1 = (y.serve c).1 ∧ Mirrors path i b reason (x.serve c).2 (y.serve c).2 := by
  obtain ⟨hx, hy, recs, hv, hv'⟩ := h.served hopen
  obtain ⟨hlen, hkeys, hkeysBy⟩ := h.index_answers
  have hopen' : y.store.closed = false := by rw [← h.closed, hopen]
  cases c with
  | put key value attributes => cases hc
  | delete key => cases hc
  | compact => cases hc
  | get key =>
    obtain ⟨cache, hget, hw, hheld⟩ := hv.exec_get key
    obtain ⟨cache', hget', hw', hheld'⟩ := hv'.exec_get key
    simp only [Session.serve, hget, hget']
    exact ⟨trivial, h.of_viewed hopen ⟨rfl, rfl, rfl⟩ ⟨rfl, rfl⟩ h.index { hv with cacheWF := hw, cached := hheld }
      { hv' with cacheWF := hw', cached := hheld' }⟩
  | getMetadata key =>
    simp only [Session.serve, hv.getMetadata_eq, hv'.getMetadata_eq]
    exact ⟨trivial, h⟩
  | contains key =>
    simp only [Session.serve, hv.contains_eq, hv'.contains_eq]
    exact ⟨trivial, h⟩
  | len =>
    simp only [Session.serve, hlen]
    exact ⟨trivial, h⟩
  | keys =>
    simp only [Session.serve, hkeys]
    exact ⟨trivial, h⟩
  | keysBy field value =>
    simp only [Session.serve, hkeysBy]
    exact ⟨trivial, h⟩
  | forEach stop =>
    simp only [Session.serve, hv.exec_forEach (remember stop) [], hv'.exec_forEach (remember stop) []]
    refine ⟨trivial, h.of_viewed hopen ⟨rfl, rfl, rfl⟩ ⟨rfl, rfl⟩ ?_ hv.sortKeys hv'.sortKeys⟩
    exact (Index.keysSortedByOffset_same _).trans (h.index.trans (Index.keysSortedByOffset_same _).symm)
  | sync =>
    have hsync : ∀ {z : Session}, z.store.closed = false → Handles z.store →
        Disk.exec z.store.sync z.disk = (.ok (), z.disk.syncFile z.store.log.file.inode) := by
      intro z hz hhandles
      rw [Store.sync, if_neg (by rw [hz]; exact Bool.false_ne_true)]
      exact exec_syncLog hhandles.file z.disk
    simp only [Session.serve, hsync hopen hx, hsync hopen' hy]
    refine ⟨trivial, h.dir, ?_, h.reason, h.closed, h.index, fun _ => ⟨hx, hy, recs, ?_, ?_⟩⟩
    · rw [Disk.content_syncFile, h.content]
    · exact hv.of_disk (by rw [Disk.content_syncFile])
    · exact hv'.of_disk (by rw [Disk.content_syncFile])
  | close =>
    obtain ⟨k, hk⟩ := hx.lock
    obtain ⟨k', hk'⟩ := hy.lock
    obtain ⟨d1, hclose, hdir, -, hcontent⟩ := exec_close_disk hopen hx.file hk x.disk
    obtain ⟨d1', hclose', -⟩ := exec_close_disk hopen' hy.file hk' y.disk
    simp only [Session.serve, hclose, hclose']
    refine ⟨trivial, ?_, ?_, h.reason, rfl, h.index, fun hshut => by cases hshut⟩
    · rw [Disk.dir_setLock, hdir, h.dir]
    · rw [Disk.files_setLock, hcontent, h.content]

/-- **Every call keeps the two stores in step.** -/
theorem Mirrors.step (h : Mirrors path i b reason x y) (c : ClientCall) :
    (x.serve c).1 = (y.mirror reason c).1 ∧ Mirrors path i b reason (x.serve c).2 (y.mirror reason c).2 := by
  unfold Session.mirror
  cases hc : c.writes with
  | true =>
    rw [serve_refused h.reason hc, if_pos rfl, ← h.closed]
    exact ⟨rfl, h⟩
  | false =>
    rw [if_neg Bool.false_ne_true]
    cases hclosed : x.store.closed with
    | true =>
      obtain ⟨hans, hx, hy⟩ := h.shut_step hclosed hc
      rw [hx, hy]
      exact ⟨hans, h⟩
    | false => exact h.open_step hclosed hc

end

/-! ## The same file with and without the mask -/

/-- The disk with the mask in the header of a file cleared. -/
def cleared (d : Disk) (i : ℕ) (rest : Bytes) : Disk := d.setContent i (currentHeader ++ rest)

section
variable {d : Disk} {path : Path} {i mask : ℕ} {rest : Bytes}

theorem Header.take_bytes (h : Header) (rest : Bytes) : (h.bytes ++ rest).take logHeaderSize = h.bytes :=
  List.take_left' (Header.bytes_length h)

theorem readHeaderOf_mask (hlt : mask < 2 ^ 32) (rest : Bytes) :
    readHeaderOf (Header.bytes ⟨logVersion, 0, mask⟩ ++ rest) = .ok ⟨logVersion, 0, mask⟩ := by
  unfold readHeaderOf
  rw [if_neg (by rw [List.length_append, Header.bytes_length]; simp only [logHeaderSize]; omega),
    Header.take_bytes, logVersion,
    decodeHeader_bytes 5 0 mask (by decide) (by decide) (by omega) (by decide) (by decide), if_pos rfl, if_pos rfl]

/-- How a file reads does not depend on the mask. -/
theorem reads_mask_iff (hlt : mask < 2 ^ 32) (recs : List (Rec logVersion)) :
    Reads (Header.bytes ⟨logVersion, 0, mask⟩ ++ rest) ⟨logVersion, 0, mask⟩ recs ↔
      ∃ tail, rest = concat recs ++ tail ∧ Cut logVersion (logHeaderSize + (concat recs).length) tail := by
  constructor
  · intro hr
    obtain ⟨tail, hcontent, hcut⟩ := hr.content
    rw [Header.take_bytes, List.append_assoc] at hcontent
    exact ⟨tail, List.append_cancel_left hcontent, hcut⟩
  · rintro ⟨tail, rfl, hcut⟩
    have hdecode := (readHeaderOf_ok (readHeaderOf_mask hlt (concat recs ++ tail))).2
    rw [Header.take_bytes] at hdecode
    rw [← List.append_assoc]
    exact reads_of_header (Header.bytes_length _) hdecode rfl hcut

/-- **When `Open` succeeds on a log of the current version.** -/
theorem openStore_current_iff (hs : d.Sound) (hmain : recoveredMain d.dir path = some i) {h : Header}
    (hheader : readHeaderOf (d.files i).content = .ok h) (hv : h.version = logVersion) (options : Options) :
    (∃ s d', Disk.exec (openStore path options) d = (.ok s, d')) ↔
      options.Accepted path ∧ LockFree d path ∧
        ∃ recs : List (Rec logVersion), Reads (d.files i).content h recs := by
  constructor
  · rintro ⟨s, d', hopen⟩
    obtain ⟨hacc, hfree, hfresh | ⟨version, j, h', recs, hmain', hr, -⟩⟩ := openStore_ok hs hopen
    · have hlen := (readHeaderOf_ok hheader).1
      rw [hfresh i hmain] at hlen
      exact absurd hlen (by decide)
    · obtain rfl := Option.some.inj (hmain.symm.trans hmain')
      have hsame := hr.headerOk.symm.trans hheader
      cases hsame
      obtain rfl := hr.versionEq.symm.trans hv
      exact ⟨hacc, hfree, recs, hr⟩
  · rintro ⟨hacc, hfree, recs, hr⟩
    by_cases hro : h.readOnlyFeatures = 0
    · obtain ⟨s, d', hopen, -⟩ := exec_openStore_reads hacc hs hfree hmain hr hro
        (fun hlt => absurd hlt (Nat.lt_irrefl _))
      exact ⟨s, d', hopen⟩
    · obtain ⟨s, d', hopen, -⟩ := exec_openStore_frozen hacc hs hfree hmain hr hro
      exact ⟨s, d', hopen⟩

/-- The two stores right after `Open`. -/
theorem mirrors_opened (hs : d.Sound) (hmain : recoveredMain d.dir path = some i) (hmask : mask ≠ 0)
    (hlt : mask < 2 ^ 32) (hcontent : (d.files i).content = Header.bytes ⟨logVersion, 0, mask⟩ ++ rest)
    {options : Options} (hacc : options.Accepted path) (hfree : LockFree d path)
    {recs : List (Rec logVersion)} (hr : Reads (d.files i).content ⟨logVersion, 0, mask⟩ recs) :
    ∃ s d' s0 d0, Disk.exec (openStore path options) d = (.ok s, d') ∧
      Disk.exec (openStore path options) (cleared d i rest) = (.ok s0, d0) ∧
      Mirrors path i (Header.bytes ⟨logVersion, 0, mask⟩ ++ rest)
        (.both .readOnly (unknownFeatureError "read-only" mask)) ⟨s, d'⟩ ⟨s0, d0⟩ := by
  have hr0 : Reads ((cleared d i rest).files i).content ⟨logVersion, 0, 0⟩ recs := by
    rw [cleared, Disk.content_setContent, currentHeader]
    rw [hcontent] at hr
    exact (reads_mask_iff (by decide) recs).mpr ((reads_mask_iff hlt recs).mp hr)
  obtain ⟨s, d', hopen, hfrozen, hoptions, hfile⟩ := exec_openStore_frozen hacc hs hfree hmain hr hmask
  obtain ⟨s0, d0, hopen0, hserves, hoptions0, -⟩ := exec_openStore_reads (d := cleared d i rest) hacc
    (hs.of_dir rfl rfl) hfree hmain hr0 rfl (fun h => absurd h (Nat.lt_irrefl _))
  rw [migrated_current] at hserves
  refine ⟨s, d', s0, d0, hopen, hopen0, hfrozen.dir, ?_, hfrozen.reason, ?_, ?_, fun _ => ⟨?_, ?_, recs, hfrozen.viewed,
    hserves.viewed⟩⟩
  · rw [hfile, hcontent]
  · rw [hfrozen.viewed.closed, hserves.closed]
  · have hindex := hserves.index.symm
    rw [hoptions0, ← hoptions] at hindex
    exact hfrozen.viewed.index.trans hindex
  · exact ⟨by rw [hfrozen.file], hfrozen.lock⟩
  · obtain ⟨k, hk, -⟩ := hserves.lock
    exact ⟨hserves.image.isOpen, k, hk⟩

/-- **Read-only mode changes no byte and hides nothing.** Over a log of the current version whose header sets a
read-only mask, `Open` succeeds exactly when it does with the mask cleared. The store then answers every sequence of
calls as the store of the cleared file would if the writing calls were left out, and these are refused; and the log
keeps its bytes. -/
theorem read_only_mirrors_cleared (hs : d.Sound) (hmain : recoveredMain d.dir path = some i) (hmask : mask ≠ 0)
    (hlt : mask < 2 ^ 32) (hcontent : (d.files i).content = Header.bytes ⟨logVersion, 0, mask⟩ ++ rest)
    (options : Options) :
    ((∃ s d', Disk.exec (openStore path options) d = (.ok s, d')) ↔
      ∃ s0 d0, Disk.exec (openStore path options) (cleared d i rest) = (.ok s0, d0)) ∧
    ∀ s d' s0 d0, Disk.exec (openStore path options) d = (.ok s, d') →
      Disk.exec (openStore path options) (cleared d i rest) = (.ok s0, d0) →
      ∃ reason : Err, reason.is .readOnly = true ∧ ∀ calls : List ClientCall,
        answers Session.serve ⟨s, d'⟩ calls = answers (Session.mirror reason) ⟨s0, d0⟩ calls ∧
        (final Session.serve ⟨s, d'⟩ calls).disk.bytesAt path =
          some (Header.bytes ⟨logVersion, 0, mask⟩ ++ rest) := by
  have hheader := readHeaderOf_mask hlt rest
  rw [← hcontent] at hheader
  have hiff := openStore_current_iff hs hmain hheader rfl options
  have hheader0 : readHeaderOf ((cleared d i rest).files i).content = .ok ⟨logVersion, 0, 0⟩ := by
    rw [cleared, Disk.content_setContent]
    exact readHeaderOf_mask (by decide) rest
  have hiff0 := openStore_current_iff (d := cleared d i rest) (hs.of_dir rfl rfl) hmain hheader0 rfl options
  refine ⟨?_, ?_⟩
  · rw [hiff, hiff0]
    refine and_congr_right fun _ => and_congr_right fun _ => exists_congr fun recs => ?_
    rw [cleared, Disk.content_setContent, hcontent, reads_mask_iff hlt]
    exact (reads_mask_iff (by decide) recs).symm
  · intro s d' s0 d0 hopen hopen0
    obtain ⟨hacc, hfree, recs, hr⟩ := hiff.mp ⟨s, d', hopen⟩
    obtain ⟨s1, d1, s2, d2, hopen', hopen0', hmirrors⟩ := mirrors_opened hs hmain hmask hlt hcontent hacc hfree hr
    cases hopen.symm.trans hopen'
    cases hopen0.symm.trans hopen0'
    refine ⟨.both .readOnly (unknownFeatureError "read-only" mask), rfl, fun calls => ⟨?_, ?_⟩⟩
    · exact answers_eq calls (fun c _ x y h => h.step c) hmirrors
    · have hkept : ∀ c ∈ calls, ∀ x, (∃ y, Mirrors path i (Header.bytes ⟨logVersion, 0, mask⟩ ++ rest)
          (.both .readOnly (unknownFeatureError "read-only" mask)) x y) →
          ∃ y, Mirrors path i (Header.bytes ⟨logVersion, 0, mask⟩ ++ rest)
            (.both .readOnly (unknownFeatureError "read-only" mask)) (x.serve c).2 y := by
        rintro c - x ⟨y, hy⟩
        exact ⟨_, (hy.step c).2⟩
      obtain ⟨y, hy⟩ := final_invariant calls hkept ⟨_, hmirrors⟩
      rw [Disk.bytesAt, hy.dir, Option.map_some, hy.content]

/-- A record, and the first byte of another one. -/
def recordAndByte : Bytes := concat [shortRec 1 2] ++ [7]

/-- The disk with a log that has these records and one unknown feature. -/
def maskedDisk : Disk := logDisk (Header.bytes ⟨5, 0, 1⟩ ++ recordAndByte)

/-- A log with one unknown feature, a record and one that is cut short: the record is read, and a `Delete` is
refused. -/
theorem read_only_mirrors_torn : ∃ x x0, Session.opened "db" .zero maskedDisk = some x ∧
    Session.opened "db" .zero (cleared maskedDisk 0 recordAndByte) = some x0 ∧
    answers Session.serve x [.get [1], .delete [1], .len] =
      [.value (.ok [2]), .done (.error (.both .readOnly (unknownFeatureError "read-only" 1))), .count 1] ∧
    ∃ reason : Err, reason.is .readOnly = true ∧ ∀ calls : List ClientCall,
      answers Session.serve x calls = answers (Session.mirror reason) x0 calls ∧
      (final Session.serve x calls).disk.bytesAt "db" = some (Header.bytes ⟨5, 0, 1⟩ ++ recordAndByte) := by
  obtain ⟨hiff, hanswers⟩ := read_only_mirrors_cleared (d := maskedDisk) (logDisk_openable _).sound
    (rfl : recoveredMain maskedDisk.dir "db" = some 0) (by decide) (by decide)
    (rfl : (maskedDisk.files 0).content = Header.bytes ⟨logVersion, 0, 1⟩ ++ recordAndByte) .zero
  have hshown : (Session.opened "db" .zero maskedDisk).map (fun x =>
      answers Session.serve x [.get [1], .delete [1], .len]) =
        some [.value (.ok [2]), .done (.error (.both .readOnly (unknownFeatureError "read-only" 1))), .count 1] := by
    decide +kernel
  obtain ⟨x, hx, hx'⟩ := Option.map_eq_some_iff.mp hshown
  have hopen := opened_eq_some.mp hx
  obtain ⟨s0, d0, hopen0⟩ := hiff.mp ⟨_, _, hopen⟩
  exact ⟨x, ⟨s0, d0⟩, hx, opened_eq_some.mpr hopen0, hx', hanswers _ _ s0 d0 hopen hopen0⟩

end

end AppendStore
