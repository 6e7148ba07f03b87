import AppendStore.Store.Invariant

/-! # Compaction without failures

Whatever log backs the store, of any version, `Compact` succeeds, and the store then serves the live
records written anew, in their order (`exec_compact`). No limit of `Append` can stop it, because
every record the scan accepts is within all of them (`Rec.rewrite_limits`).
-/

namespace AppendStore
open Library
set_option autoImplicit false

section
variable {version : ℕ}

/-! ## Writing a record anew -/

/-- The attribute block `Append` writes for the attributes of a record. -/
def Rec.rewrittenBlock (r : Rec version) : Bytes :=
  attributeBlock (sortEntries (enumerate r.attributes)).entries

/-- **No limit of `Append` refuses a record that the scan accepted.** -/
theorem Rec.rewrite_limits (r : Rec version) :
    appendLimits r.key r.value (enumerate r.attributes) r.extensions = .ok r.rewrittenBlock :=
  appendLimits_eq r.keyLimit r.valueLimit r.extensionsLimit r.framed
    (encodeAttributes_eq (enumerate r.attributes) r.encodable)

/-- The record as compaction writes it. -/
def Rec.rewritten (r : Rec version) : Rec logVersion := appendRec r.rewrite_limits false

@[simp] theorem Rec.rewritten_key (r : Rec version) : r.rewritten.key = r.key := rfl

@[simp] theorem Rec.rewritten_value (r : Rec version) : r.rewritten.value = r.value := rfl

@[simp] theorem Rec.rewritten_extensions (r : Rec version) : r.rewritten.extensions = r.extensions := rfl

@[simp] theorem Rec.rewritten_deleted (r : Rec version) : r.rewritten.deleted = false :=
  appendRec_deleted _ _

@[simp] theorem Rec.rewritten_attributes (r : Rec version) : r.rewritten.attributes = r.attributes :=
  enumerate_toFinmap r.attributes

/-- A record of version 4 or 5 keeps its length. -/
theorem Rec.rewritten_length (r : Rec version) (hv : 4 ≤ version) :
    r.rewritten.bytes.length = r.bytes.length := by
  have h1 := r.storedSize hv
  have h2 := r.rewritten.storedSize (by decide)
  rw [r.rewritten_attributes, r.rewritten_key, r.rewritten_value, r.rewritten_extensions] at h2
  rw [h1, h2]

/-- The log that compaction writes. -/
def compacted (recs : List (Rec version)) : List (Rec logVersion) :=
  (liveRecs recs).map fun x => x.2.2.rewritten

/-! ## What a compacted log holds -/

theorem compacted_keys (recs : List (Rec version)) :
    (compacted recs).map Rec.key = (liveRecs recs).map Prod.fst := by
  rw [compacted, List.map_map]
  refine List.map_congr_left ?_
  intro x hx
  exact (liveRecs_mem hx).2.1

/-- Every record of a log whose keys differ and that deletes nothing is live. -/
theorem liveRecs_of_distinct {recs : List (Rec version)} (hkeys : (recs.map Rec.key).Nodup)
    (hdel : ∀ r ∈ recs, r.deleted = false) :
    liveRecs recs = (placed logHeaderSize recs).map fun x => (x.2.key, x) := by
  have hmem : ∀ x ∈ placed logHeaderSize recs, x.2 ∈ recs := by
    intro x hx
    rw [← placed_map_snd logHeaderSize recs]
    exact List.mem_map_of_mem hx
  have hevents : (placed logHeaderSize recs).map placedEvent =
      ((placed logHeaderSize recs).map fun x => (x.2.key, x)).map fun y => (y.1, some y.2) := by
    rw [List.map_map]
    refine List.map_congr_left ?_
    intro x hx
    simp only [placedEvent, hdel x.2 (hmem x hx), Bool.false_eq_true, if_false, Function.comp_apply]
  rw [liveRecs, hevents, live_writes]
  rw [List.map_map]
  have hcomp : (placed logHeaderSize recs).map (Prod.fst ∘ fun x => (x.2.key, x)) =
      ((placed logHeaderSize recs).map Prod.snd).map Rec.key := by
    rw [List.map_map]
    rfl
  rw [hcomp, placed_map_snd]
  exact hkeys

theorem liveRecs_compacted (recs : List (Rec version)) :
    liveRecs (compacted recs) = (placed logHeaderSize (compacted recs)).map fun x => (x.2.key, x) := by
  refine liveRecs_of_distinct ?_ ?_
  · rw [compacted_keys]
    exact live_nodup _
  · intro r hr
    obtain ⟨x, -, rfl⟩ := List.mem_map.mp hr
    exact x.2.2.rewritten_deleted

/-- What a compacted log holds of its live records, if writing a record anew keeps it. -/
theorem liveRecs_compacted_map {β : Type} (g : Rec version → β) (g' : Rec logVersion → β)
    (hg : ∀ r, g' r.rewritten = g r) (recs : List (Rec version)) :
    ((liveRecs (compacted recs)).map fun x => (x.1, g' x.2.2)) =
      (liveRecs recs).map fun x => (x.1, g x.2.2) := by
  have hsnd : ((placed logHeaderSize (compacted recs)).map fun x => (x.2.key, g' x.2)) =
      (compacted recs).map fun r => (r.key, g' r) := by
    nth_rewrite 2 [← placed_map_snd logHeaderSize (compacted recs)]
    rw [List.map_map]
    rfl
  rw [liveRecs_compacted, List.map_map]
  refine hsnd.trans ?_
  rw [compacted, List.map_map]
  refine List.map_congr_left ?_
  intro x hx
  have hkey := (liveRecs_mem hx).2.1
  simp only [Function.comp_apply, Rec.rewritten_key, hg, hkey]

/-- **Compaction changes nothing that clients see.** -/
theorem contents_compacted (recs : List (Rec version)) : contents (compacted recs) = contents recs := by
  refine liveRecs_compacted_map Rec.payload Rec.payload ?_ recs
  intro r
  simp only [Rec.payload, Rec.rewritten_value, Rec.rewritten_attributes]

/-! ## The loop -/

variable {d : Disk} {s : Store} {path : Path} {header : Bytes} {recs : List (Rec version)}

/-- A log is not touched by what another file becomes. -/
theorem LogImage.of_grew {l : AppendLog} {d' : Disk} {i : ℕ} {b : Bytes} (h : LogImage d l header recs)
    (hg : Grew d d' i b) (hne : l.file.inode ≠ i) : LogImage d' l header recs :=
  h.of_same ⟨rfl, rfl, rfl, rfl, rfl⟩ rfl (by rw [hg.others _ hne])

theorem Grew.trans {d' d'' : Disk} {i : ℕ} {b c : Bytes} (h : Grew d d' i b) (h' : Grew d' d'' i c) :
    Grew d d'' i (b ++ c) :=
  ⟨h'.names.trans h.names, h'.pending.trans h.pending, h'.next.trans h.next, h'.locked.trans h.locked,
    h'.mappable.trans h.mappable, by rw [h'.content, h.content, List.append_assoc],
    fun j hj => (h'.others j hj).trans (h.others j hj)⟩

theorem grew_refl (d : Disk) (i : ℕ) : Grew d d i [] :=
  ⟨rfl, rfl, rfl, rfl, rfl, by simp, fun _ _ => rfl⟩

/-- The read of `Compact`, for either family of formats. -/
theorem exec_compactRead {l : AppendLog} (h : LogImage d l header recs) {x : ℕ × Rec version}
    (hx : x ∈ placed logHeaderSize recs) :
    Disk.exec (if l.version ≥ 4 then
        l.readRecordAndExtensionsAt (liveEntry x).recordOffset (liveEntry x).storedSize
      else (l.readAt (liveEntry x).offset (liveEntry x).size).andThen fun value => pure (.ok (value, []))) d =
      (.ok (x.2.value, x.2.extensions), d) := by
  have hver := h.versionEq
  split
  · rename_i hge
    exact exec_readRecordAndExtensionsAt (h.storedAt hx) (hver ▸ hge)
  · rename_i hlt
    have hread := exec_readAt_value (h.storedAt hx)
    have hext := x.2.legacyExtensions (by omega)
    rw [hext]
    exact (Disk.exec_andThen_ok (p := l.readAt _ _) hread).trans rfl

/-- The record that a copy adds, in the index of the new log. -/
theorem put_rewritten (fields : List Bytes) (done : List (Rec logVersion)) {k : Bytes} {y : ℕ × Rec version}
    (hkey : y.2.key = k) {pos : ℕ} (hpos : pos = logHeaderSize + (concat done).length) :
    (replay fields done).put k ((placedAt pos
      (appendRaw y.2.key y.2.rewrittenBlock y.2.value y.2.extensions false)).entry (liveEntry y).attributes) =
      replay fields (done ++ [y.2.rewritten]) := by
  rw [replay_concat, ← hpos, indexStep, if_neg (by
    change ¬ y.2.rewritten.deleted = true
    rw [y.2.rewritten_deleted]
    exact Bool.false_ne_true)]
  have hattr : (y.2.rewritten.entry pos).indexEntry = (placedAt pos
      (appendRaw y.2.key y.2.rewrittenBlock y.2.value y.2.extensions false)).entry (liveEntry y).attributes := by
    have hattr := y.2.rewritten_attributes
    change IndexEntry.mk _ _ _ _ y.2.rewritten.attributes = IndexEntry.mk _ _ _ _ y.2.attributes
    rw [hattr]
    rfl
  rw [hattr, ← hkey]
  rfl

/-- The loop copies every record. -/
theorem exec_copyLive (h : LogImage d s.log header recs) (fields : List Bytes)
    (hidx : ∀ k x, (k, x) ∈ liveRecs recs → s.index.get k = some (liveEntry x))
    (xs : List (Bytes × (ℕ × Rec version))) (hxs : ∀ x ∈ xs, x ∈ liveRecs recs) (newLog : AppendLog)
    (done : List (Rec logVersion)) (hnew : LogImage d newLog currentHeader done)
    (hro : newLog.unknownReadOnly = 0) (hne : s.log.file.inode ≠ newLog.file.inode) :
    ∃ newLog' d', Disk.exec (Store.copyLive s.log s.index (xs.map Prod.fst) newLog (replay fields done)) d =
        ((.ok (), newLog', replay fields (done ++ xs.map fun x => x.2.2.rewritten)), d') ∧
      LogImage d' newLog' currentHeader (done ++ xs.map fun x => x.2.2.rewritten) ∧
      newLog.SameFile newLog' ∧
      Grew d d' newLog.file.inode (concat (xs.map fun x => x.2.2.rewritten)) := by
  induction xs generalizing d newLog done with
  | nil =>
    refine ⟨newLog, d, ?_, ?_, ⟨rfl, rfl, rfl, rfl, rfl⟩, grew_refl d _⟩
    · rw [List.map_nil, List.map_nil, List.append_nil]
      rfl
    · rwa [List.map_nil, List.append_nil]
  | cons x xs ih =>
    obtain ⟨k, y⟩ := x
    have hx := hxs (k, y) List.mem_cons_self
    have hrest := fun x hx => hxs x (List.mem_cons_of_mem _ hx)
    obtain ⟨hplaced, hkey, -⟩ := liveRecs_mem hx
    dsimp only at hplaced hkey
    have hread := exec_compactRead h hplaced
    obtain ⟨l1, d1, happ, hd1, hs1, himage1⟩ :=
      exec_append_image hnew hro y.2.rewrite_limits false
    have hgrew1 : Grew d d1 newLog.file.inode y.2.rewritten.bytes := by
      rw [hd1]
      exact grew_setContent d _ _
    have hstep := put_rewritten fields done hkey hnew.writePos
    obtain ⟨l2, d2, hcopy, himage2, hs2, hgrew2⟩ := ih (h.of_grew hgrew1 hne) hrest l1 (done ++ [y.2.rewritten])
      himage1 (by rw [hs1.unknownReadOnly, hro]) (by rw [hs1.file]; exact hne)
    refine ⟨l2, d2, ?_, ?_, ?_, ?_⟩
    · rw [List.map_cons, Store.copyLive, hidx k y hx]
      dsimp only
      rw [Disk.exec_orElse_ok hread]
      subst hkey
      refine (Disk.exec_orElseState_ok happ).trans ?_
      rw [hstep, hcopy, List.map_cons, List.append_assoc]
      rfl
    · rwa [List.map_cons, List.append_cons]
    · exact ⟨hs2.file.trans hs1.file, hs2.path.trans hs1.path, hs2.version.trans hs1.version,
        hs2.incompatibleFeatures.trans hs1.incompatibleFeatures,
        hs2.readOnlyFeatures.trans hs1.readOnlyFeatures⟩
    · rw [hs1.file] at hgrew2
      exact hgrew1.trans hgrew2

/-! ## Preparing the new log -/

/-- The names that a compaction uses beside the log. -/
def compactionNames (path : Path) : List Path :=
  [path ++ compactionTempSuffix, path ++ compactionReadySuffix, path ++ compactionBackupSuffix]

theorem Store.prepareCompaction_eq (s : Store) : s.prepareCompaction =
    (removeAllIfExist (compactionNames s.log.path)).orElse (fun e => pure (.error e, s)) fun _ =>
    (Sys.stat s.log.path).orElse
      (fun e => pure (.error (.wrap "failed to stat log before compaction" (.os e)), s)) fun _ =>
    (createAppendLogMode (s.log.path ++ compactionTempSuffix)).orElse
      (fun e => pure (.error (.wrap "failed to create compaction log" e), s)) s.fillCompaction :=
  rfl

/-- Nothing but new files and the names of a compaction changed. -/
structure Preparing (d d' : Disk) (path : Path) : Prop where
  dir : ∀ q, q ∉ compactionNames path → d'.dir q = d.dir q
  files : ∀ j, j < d.next → d'.files j = d.files j

/-- The new log is complete, and under the name from which it is installed. -/
structure Prepared {version : ℕ} (d' : Disk) (path : Path) (n : ℕ) (recs : List (Rec version)) : Prop where
  temp : d'.dir (path ++ compactionTempSuffix) = none
  ready : d'.dir (path ++ compactionReadySuffix) = some n
  backup : d'.dir (path ++ compactionBackupSuffix) = none
  content : (d'.files n).content = currentHeader ++ concat (compacted recs)

/-- The first half of a compaction. -/
theorem exec_prepareCompaction (h : Backed d s path header recs) (compacting : Bool) :
    ∃ d', Disk.exec ({ s with compacting := compacting } : Store).prepareCompaction d =
        ((.ok (replay s.options.indexedFields (compacted recs)),
          { s with index := s.index.keysSortedByOffset.2, compacting := compacting }), d') ∧
      Preparing d d' path ∧ Prepared d' path d.next recs ∧ d'.pending = [] ∧
      (d'.files d.next).synced = (d'.files d.next).content ∧ (∀ j, j < d.next → d'.locked j = d.locked j) ∧
      d'.mappable = d.mappable := by
  have n1 : path ++ compactionReadySuffix ≠ path ++ compactionTempSuffix := append_ne_append path (by decide)
  have n2 : path ++ compactionBackupSuffix ≠ path ++ compactionTempSuffix := append_ne_append path (by decide)
  have n3 : path ++ compactionBackupSuffix ≠ path ++ compactionReadySuffix :=
    append_ne_append path (by decide)
  have hlt : s.log.file.inode < d.next := h.sound.bounded _ _ h.dir
  -- no artifact is there to be removed
  have hnone : ∀ q ∈ compactionNames path, d.dir q = none := by
    intro q hq
    refine h.noArtifacts q ?_
    simp only [compactionNames, artifacts, List.mem_cons, List.not_mem_nil, or_false] at hq ⊢
    tauto
  have h1 := exec_removeAllIfExist_none hnone
  have htmp1 : d.dir (path ++ compactionTempSuffix) = none := hnone _ (by simp [compactionNames])
  -- the new log
  obtain ⟨newLog, h2, hnew⟩ := exec_createAppendLogMode htmp1
  obtain ⟨d2, hd2⟩ : ∃ d2, d2 = (d.create (path ++ compactionTempSuffix)).setContent d.next currentHeader :=
    ⟨_, rfl⟩
  rw [← hd2] at h2
  have hfiles2 : ∀ j, j < d.next → d2.files j = d.files j := by
    intro j hj
    rw [hd2, Disk.files_setContent_ne _ _ _ _ (Nat.ne_of_lt hj), Disk.files_create_ne _ _ _ (Nat.ne_of_lt hj)]
  have hdir2 : d2.dir = Function.update d.dir (path ++ compactionTempSuffix) (some d.next) := by
    rw [hd2, Disk.dir_setContent, Disk.dir_create]
  have hold2 : LogImage d2 s.log header recs :=
    h.image.of_same ⟨rfl, rfl, rfl, rfl, rfl⟩ rfl (by rw [hfiles2 _ hlt])
  have hnew2 : LogImage d2 newLog currentHeader ([] : List (Rec logVersion)) := by
    refine hnew.image rfl currentHeader_length ?_ ?_
    · rw [hd2, Disk.content_setContent, concat_nil, List.append_nil]
    · rw [hd2, Disk.content_setContent, currentHeader_length]
  -- the live records
  have hidx : ∀ k x, (k, x) ∈ liveRecs recs →
      s.index.keysSortedByOffset.2.get k = some (liveEntry x) := by
    intro k x hx
    have hlookup := h.sortKeys.index.get_eq k
    exact hlookup.trans (replay_lookup _ _ hx)
  obtain ⟨newLog', d3, h3, himage3, hsame3, hgrew3⟩ := exec_copyLive
    (s := { s with index := s.index.keysSortedByOffset.2 }) hold2 s.options.indexedFields hidx (liveRecs recs)
    (fun _ hx => hx) newLog [] hnew2
    (by rw [AppendLog.unknownReadOnly, hnew.readOnlyFeatures]; rfl)
    (by rw [hnew.file]; exact Nat.ne_of_lt hlt)
  rw [List.nil_append] at h3 himage3
  change Disk.exec (Store.copyLive s.log s.index.keysSortedByOffset.2 ((liveRecs recs).map Prod.fst) newLog
    (newIndex s.options.indexedFields)) d2 = _ at h3
  rw [hnew.file] at hgrew3
  have hfile3 : newLog'.file = ⟨d.next, true⟩ := by rw [hsame3.file, hnew.file]
  have hopen3 : newLog'.file.isOpen = true := by rw [hfile3]
  -- the new log is synced, closed and renamed
  have h4 := exec_syncLog hopen3 d3
  have h5 := exec_closeLog hopen3 (d3.syncFile newLog'.file.inode)
  have htmp : (d3.syncFile newLog'.file.inode).dir (path ++ compactionTempSuffix) = some d.next := by
    rw [Disk.dir_syncFile, hgrew3.dir, hdir2, Function.update_self]
  obtain ⟨d6, h6, hs6, hdir6⟩ := exec_rename_promote htmp (path ++ compactionReadySuffix)
  rw [Disk.dir_syncFile, hgrew3.dir, hdir2, Function.update_idem] at hdir6
  refine ⟨d6.syncNames, ?_, ⟨?_, ?_⟩, ⟨?_, ?_, ?_, ?_⟩, rfl, ?_, ?_, ?_⟩
  · unfold Store.prepareCompaction
    dsimp only
    rw [h.pathEq, Disk.exec_orElse_ok (p := removeAllIfExist [_, _, _]) h1,
      Disk.exec_orElse_ok (Disk.exec_stat_some h.dir), Disk.exec_orElse_ok h2]
    unfold Store.fillCompaction
    dsimp only
    rw [h.pathEq, h.sortedKeys, Disk.exec_orElseState_ok h3, Disk.exec_orElse_ok h4, Disk.exec_orElseState_ok h5,
      Disk.exec_orElse_ok h6, Disk.exec_orElse_ok (exec_syncParentDirectory d6 path)]
    rfl
  · intro q hq
    simp only [compactionNames, List.mem_cons, List.not_mem_nil, or_false, not_or] at hq
    rw [Disk.dir_syncNames, hdir6, Function.update_of_ne hq.2.1, Function.update_of_ne hq.1]
  · intro j hj
    rw [Disk.files_syncNames, hs6.files, hfile3]
    refine (Function.update_of_ne (Nat.ne_of_lt hj) _ _).trans ?_
    rw [hgrew3.others j (Nat.ne_of_lt hj), hfiles2 j hj]
  · rw [Disk.dir_syncNames, hdir6, Function.update_of_ne n1.symm, Function.update_self]
  · rw [Disk.dir_syncNames, hdir6, Function.update_self]
  · rw [Disk.dir_syncNames, hdir6, Function.update_of_ne n3, Function.update_of_ne n2,
      hnone _ (by simp [compactionNames])]
  · have hc := himage3.content
    rw [hfile3] at hc
    rw [Disk.files_syncNames, hs6.files, Disk.content_syncFile, hc]
    rfl
  · rw [Disk.files_syncNames, hs6.files, hfile3, Disk.synced_syncFile, Disk.content_syncFile]
  · intro j hj
    rw [Disk.locked_syncNames, hs6.locked, Disk.locked_syncFile, hgrew3.locked, hd2, Disk.locked_setContent,
      Disk.locked_create_ne _ _ _ (Nat.ne_of_lt hj)]
  · rw [Disk.mappable_syncNames, hs6.mappable, Disk.mappable_syncFile, hgrew3.mappable, hd2,
      Disk.mappable_setContent, Disk.mappable_create]

/-! ## Replacing the log -/

/-- The second half of a compaction, once the new log is prepared. -/
theorem exec_installCompacted {i j : ℕ} {d : Disk} (newIndex : Index) {recs' : List (Rec logVersion)}
    (hopen : s.log.file = ⟨i, true⟩) (hpath : s.log.path = path) (hmain : d.dir path = some i)
    (hready : d.dir (path ++ compactionReadySuffix) = some j)
    (hcontent : (d.files j).content = currentHeader ++ concat recs') :
    ∃ reopened d', Disk.exec (s.installCompacted newIndex) d =
        ((.ok (), { s with log := reopened, index := newIndex, cache := s.cache.clear }), d') ∧
      Opened reopened path j ⟨logVersion, 0, 0⟩ (d.files j).content.length ∧ SameFiles d d' ∧ d'.pending = [] ∧
      d'.dir path = some j ∧ d'.dir (path ++ compactionReadySuffix) = none ∧
      d'.dir (path ++ compactionBackupSuffix) = none ∧
      ∀ q, q ≠ path → q ≠ path ++ compactionReadySuffix → q ≠ path ++ compactionBackupSuffix →
        d'.dir q = d.dir q := by
  have n1 : path ≠ path ++ compactionReadySuffix := path_ne_append (by decide)
  have n2 : path ≠ path ++ compactionBackupSuffix := path_ne_append (by decide)
  have n3 : path ++ compactionReadySuffix ≠ path ++ compactionBackupSuffix :=
    append_ne_append path (by decide)
  have hclose := exec_closeLog (l := s.log) (by rw [hopen]) d
  obtain ⟨d1, h1, hs1, hdir1⟩ := exec_rename_promote hmain (path ++ compactionBackupSuffix)
  have hready1 : d1.dir (path ++ compactionReadySuffix) = some j := by
    rw [hdir1, Function.update_of_ne n3, Function.update_of_ne n1.symm, hready]
  obtain ⟨d2, h2, hs2, hdir2⟩ := exec_rename_promote hready1 path
  have hmain2 : d2.dir path = some j := by rw [hdir2, Function.update_self]
  have hfiles2 : (d2.files j).content = currentHeader ++ concat recs' := by
    rw [hs2.files, hs1.files, hcontent]
  have hheader : readHeaderOf (d2.files j).content = .ok ⟨logVersion, 0, 0⟩ := by
    rw [hfiles2, readHeaderOf_current]
  have hnonempty : (d2.files j).content ≠ [] := by
    rw [hfiles2]
    exact currentHeader_append_ne_nil _
  obtain ⟨reopened, h3, hopened⟩ := exec_openAppendLogFile_ok hmain2 hnonempty hheader
  obtain ⟨d4, h4, hs4, hdir4⟩ := exec_removeIfExists d2 (path ++ compactionBackupSuffix)
  refine ⟨reopened, d4.syncNames, ?_, ?_,
    ((hs1.trans hs2).trans hs4).trans (sameFiles_syncNames d4), rfl, ?_, ?_, ?_, ?_⟩
  · unfold Store.installCompacted
    dsimp only
    rw [hpath, Disk.exec_orElseState_ok hclose, Disk.exec_orElse_ok h1, Disk.exec_orElse_ok h2,
      Disk.exec_orElse_ok h3, Disk.exec_orElse_ok h4,
      Disk.exec_orElse_ok (exec_syncParentDirectory d4 path)]
    rfl
  · rw [hs2.files, hs1.files] at hopened
    exact hopened
  · rw [Disk.dir_syncNames, hdir4, Function.update_of_ne n2, hmain2]
  · rw [Disk.dir_syncNames, hdir4, Function.update_of_ne n3, hdir2, Function.update_of_ne n1.symm,
      Function.update_self]
  · rw [Disk.dir_syncNames, hdir4, Function.update_self]
  · intro q hq hr hb
    rw [Disk.dir_syncNames, hdir4, Function.update_of_ne hb, hdir2, Function.update_of_ne hq,
      Function.update_of_ne hr, hdir1, Function.update_of_ne hb, Function.update_of_ne hq]

/-- What a successful compaction did to the disk: the log is a new file, and no other file or name
changed. -/
structure Replaced (d d' : Disk) (path : Path) : Prop where
  main : d'.dir path = some d.next
  names : ∀ q, q ≠ path → q ∉ artifacts path → d'.dir q = d.dir q
  files : ∀ j, j < d.next → d'.files j = d.files j
  locked : ∀ j, j < d.next → d'.locked j = d.locked j
  mappable : d'.mappable = d.mappable

/-- Both halves of `Compact`. -/
theorem exec_compactLocked (h : Backed d s path header recs) :
    ∃ s' d', Disk.exec ({ s with compacting := true } : Store).compactLocked d = ((.ok (), s'), d') ∧
      Serves d' { s' with compacting := false } path (compacted recs) ∧ s'.options = s.options ∧
      s'.lock = s.lock ∧ Replaced d d' path := by
  have hout : ∀ q, q ∉ artifacts path → q ∉ compactionNames path := fun q hq hmem => hq (by
    simp only [compactionNames, artifacts, List.mem_cons, List.not_mem_nil, or_false] at hmem ⊢
    tauto)
  obtain ⟨d6, h6, hdir6, hprepared, -, -, hlocked6, hmap6⟩ := exec_prepareCompaction h true
  obtain ⟨reopened, d7, h7, hopened, hs7, -, hmain7, hready7, hbackup7, hrest7⟩ := exec_installCompacted
    (s := { s with index := s.index.keysSortedByOffset.2, compacting := true })
    (i := s.log.file.inode) (j := d.next) (replay s.options.indexedFields (compacted recs))
    (by rw [← h.image.isOpen]) h.pathEq
    (by rw [hdir6.dir _ (hout _ (path_not_mem_artifacts path)), h.dir]) hprepared.ready hprepared.content
  have hexec : Disk.exec ({ s with compacting := true } : Store).compactLocked d = ((.ok (), { s with
      log := reopened
      index := replay s.options.indexedFields (compacted recs)
      cache := s.cache.clear
      compacting := true }), d7) := by
    rw [Store.compactLocked, Disk.exec_orElseState_ok h6]
    exact h7
  have hreplaced : Replaced d d7 path := by
    refine ⟨hmain7, ?_, ?_, ?_, ?_⟩
    · intro q hq hart
      have hne : ∀ s ∈ [compactionTempSuffix, compactionReadySuffix, compactionBackupSuffix,
          legacyCompactionSuffix], q ≠ path ++ s :=
        fun s hs heq => hart (mem_artifacts.mpr ⟨s, hs, heq⟩)
      rw [hrest7 q hq (hne _ (by decide)) (hne _ (by decide)), hdir6.dir q (hout q hart)]
    · intro j hj
      rw [hs7.files, hdir6.files j hj]
    · intro j hj
      rw [hs7.locked, hlocked6 j hj]
    · rw [hs7.mappable, hmap6]
  refine ⟨_, d7, hexec, ?_, rfl, rfl, hreplaced⟩
  have hsound := h.sound.exec ({ s with compacting := true } : Store).compactLocked
  rw [hexec] at hsound
  have hlock : d7.dir (path ++ lockFileSuffix) = d.dir (path ++ lockFileSuffix) :=
    hreplaced.names _ (path_ne_append (by decide)).symm (lock_not_mem_artifacts path)
  exact {
    image := hopened.image rfl currentHeader_length (by rw [hs7.files, hprepared.content]) (by rw [hs7.files])
    pathEq := hopened.path
    dir := by rw [hmain7, hopened.file]
    readOnlyFeatures := hopened.readOnlyFeatures
    readOnlyReason := h.readOnlyReason
    closed := h.closed
    compacting := rfl
    index := Index.same_refl _
    sorted := replay_sorted _ _
    cacheWF := LruCache.clear_wf _
    cached := LruCache.clear_holds _
    noArtifacts := by
      intro q hq
      obtain ⟨suffix, hsuffix, rfl⟩ := mem_artifacts.mp hq
      have hne : ∀ t, suffix ≠ t → path ++ suffix ≠ path ++ t := fun t ht => append_ne_append path ht
      simp only [List.mem_cons, List.not_mem_nil, or_false] at hsuffix
      rcases hsuffix with rfl | rfl | rfl | rfl
      · rw [hrest7 _ (path_ne_append (by decide)).symm (hne _ (by decide)) (hne _ (by decide)), hprepared.temp]
      · exact hready7
      · exact hbackup7
      · rw [hrest7 _ (path_ne_append (by decide)).symm (hne _ (by decide)) (hne _ (by decide)), hdir6.dir]
        · exact h.noArtifacts _ hq
        · simp only [compactionNames, List.mem_cons, List.not_mem_nil, or_false, not_or]
          exact ⟨hne _ (by decide), hne _ (by decide), hne _ (by decide)⟩
    lock := by rw [hlock]; exact h.lock
    sound := hsound }

/-- **`Compact` succeeds, and the store then serves the live records.** -/
theorem exec_compact (h : Backed d s path header recs) :
    ∃ s' d', Disk.exec s.compact d = ((.ok (), s'), d') ∧ Serves d' s' path (compacted recs) ∧
      s'.options = s.options ∧ s'.lock = s.lock ∧ Replaced d d' path := by
  obtain ⟨s', d', hexec, hserves, hoptions, hlock, hreplaced⟩ := exec_compactLocked h
  refine ⟨{ s' with compacting := false }, d', ?_, hserves, hoptions, hlock, hreplaced⟩
  unfold Store.compact
  rw [h.writable, h.compacting, if_neg Bool.false_ne_true, Disk.exec_bind_eq hexec]
  rfl

end

end AppendStore
