import AppendStore.Log.Faults
import AppendStore.Store.Compaction

/-! # A compaction that fails

Every system call of `Compact` may fail. Up to the renaming of the old log (`Store.prepareCompaction`) only the
new log and the names of the artifacts change (`Preparing`), and when the preparation reports success the new
log is complete (`Prepared`).
-/

namespace AppendStore
open Library
set_option autoImplicit false

/-! ## The copy -/

section
variable {K : Set ℕ} {version : ℕ} {d : Disk} {s : Store} {path : Path} {header : Bytes} {recs : List (Rec version)}

theorem LogImage.of_touched {l : AppendLog} {d' : Disk} {i : ℕ} (h : LogImage d l header recs) (ht : Touched d d' i)
    (hne : l.file.inode ≠ i) : LogImage d' l header recs :=
  h.of_same ⟨rfl, rfl, rfl, rfl, rfl⟩ rfl (by rw [ht.others _ hne])

theorem all_compactRead {l : AppendLog} (h : LogImage d l header recs) {x : ℕ × Rec version}
    (hx : x ∈ placed logHeaderSize recs) :
    (if l.version ≥ 4 then l.readRecordAndExtensionsAt (liveEntry x).recordOffset (liveEntry x).storedSize
      else (l.readAt (liveEntry x).offset (liveEntry x).size).andThen fun value => pure (.ok (value, []))).All
      (Disk.Yields K) d fun r d' => d' = d ∧ ∀ v, r = .ok v → v = (x.2.value, x.2.extensions) := by
  have hver := h.versionEq
  split
  · rename_i hge
    exact all_readRecordAndExtensionsAt (h.storedAt hx) (hver ▸ hge)
  · rename_i hlt
    refine Prog.all_andThen (all_readAt_value (h.storedAt hx)) (fun e d' hr => ⟨hr.1, fun v hv => by cases hv⟩) ?_
    rintro value d' ⟨hd, hvalue⟩
    refine ⟨hd, fun v hv => ?_⟩
    rw [← Except.ok.inj hv, hvalue value rfl, x.2.legacyExtensions (by omega)]

/-- The loop. Only the new log changes, and a loop that ends without an error copied every record. -/
theorem all_copyLive {log : AppendLog} {index : Index} (fields : List Bytes)
    (hidx : ∀ k x, (k, x) ∈ liveRecs recs → index.get k = some (liveEntry x))
    (xs : List (Bytes × (ℕ × Rec version))) (hxs : ∀ x ∈ xs, x ∈ liveRecs recs) {newLog : AppendLog}
    {done : List (Rec logVersion)} (h : LogImage d log header recs) (hnew : LogImage d newLog currentHeader done)
    (hro : newLog.unknownReadOnly = 0) (hne : log.file.inode ≠ newLog.file.inode) :
    (Store.copyLive log index (xs.map Prod.fst) newLog (replay fields done)).All (Disk.Yields K) d fun r d' =>
      Touched d d' newLog.file.inode ∧ newLog.SameFile r.2.1 ∧ ∀ u, r.1 = .ok u →
        LogImage d' r.2.1 currentHeader (done ++ xs.map fun x => x.2.2.rewritten) ∧
          r.2.2 = replay fields (done ++ xs.map fun x => x.2.2.rewritten) := by
  induction xs generalizing d newLog done with
  | nil =>
    refine ⟨touched_refl d _, ⟨rfl, rfl, rfl, rfl, rfl⟩, fun u _ => ?_⟩
    rw [List.map_nil, List.append_nil]
    exact ⟨hnew, rfl⟩
  | cons x xs ih =>
    obtain ⟨k, y⟩ := x
    have hx := hxs (k, y) List.mem_cons_self
    have hrest := fun x hx => hxs x (List.mem_cons_of_mem _ hx)
    obtain ⟨hplaced, hkey, -⟩ := liveRecs_mem hx
    dsimp only at hplaced hkey
    rw [List.map_cons, Store.copyLive, hidx k y hx]
    dsimp only
    refine Prog.all_orElse (all_compactRead h hplaced) ?_ ?_
    · rintro e d1 ⟨rfl, -⟩
      exact ⟨touched_refl _ _, ⟨rfl, rfl, rfl, rfl, rfl⟩, fun u hu => by cases hu⟩
    rintro ⟨value, extensions⟩ d1 ⟨rfl, hvalue⟩
    cases hvalue _ rfl
    subst hkey
    refine Prog.all_orElseState (all_append hnew hro y.2.rewrite_limits false) ?_ ?_
    · rintro e l1 d2 ⟨htouched, hsame, -⟩
      exact ⟨htouched, hsame, fun u hu => by cases hu⟩
    rintro p l1 d2 ⟨htouched, hsame, hok⟩
    obtain ⟨rfl, himage⟩ := hok p rfl
    rw [put_rewritten fields done rfl hnew.writePos]
    dsimp only at hsame himage
    refine (ih hrest (h.of_touched htouched hne) himage (by rw [hsame.unknownReadOnly, hro])
      (by rw [hsame.file]; exact hne)).mono ?_
    rintro r d' ⟨htouched', hsame', hok'⟩
    rw [hsame.file] at htouched'
    refine ⟨htouched.trans htouched', ⟨hsame'.file.trans hsame.file, hsame'.path.trans hsame.path,
      hsame'.version.trans hsame.version, hsame'.incompatibleFeatures.trans hsame.incompatibleFeatures,
      hsame'.readOnlyFeatures.trans hsame.readOnlyFeatures⟩, fun u hu => ?_⟩
    rw [List.map_cons, List.append_cons]
    exact hok' u hu

/-! ## The preparation -/

theorem preparing_refl (d : Disk) (path : Path) : Preparing d d path := ⟨fun _ _ => rfl, fun _ _ => rfl⟩

theorem Preparing.renamed {d' d'' : Disk} (h : Preparing d d' path) (hs : SameFiles d' d'')
    (hdir : ∀ q, q ∉ compactionNames path → d''.dir q = d'.dir q) : Preparing d d'' path :=
  ⟨fun q hq => (hdir q hq).trans (h.dir q hq), fun j hj => by rw [hs.files, h.files j hj]⟩

theorem Preparing.touched {d' d'' : Disk} {i : ℕ} (h : Preparing d d' path) (ht : Touched d' d'' i)
    (hi : d.next ≤ i) : Preparing d d'' path :=
  ⟨fun q hq => by rw [ht.dir, h.dir q hq], fun j hj => by rw [ht.others j (by omega), h.files j hj]⟩

/-- A clean-up removes one of the names. -/
theorem Preparing.cleanUp {d' : Disk} {α : Type} (h : Preparing d d' path) {q : Path}
    (hq : q ∈ compactionNames path) (a : α) :
    (do let _ ← Sys.remove q; pure a : FileProg α).All (Disk.Yields K) d' fun r d'' =>
      Preparing d d'' path ∧ r = a := by
  refine Prog.all_bind ((all_remove q).mono ?_)
  rintro r d'' ⟨hs, hother, -⟩
  refine ⟨h.renamed hs fun q' hq' => hother q' ?_, rfl⟩
  rintro rfl
  exact hq' hq

/-- A clean-up that also closes the new log. -/
theorem Preparing.closeUp {d' : Disk} {α : Type} (h : Preparing d d' path) {q : Path}
    (hq : q ∈ compactionNames path) (l : AppendLog) (a : α) :
    (do let _ ← l.close; let _ ← Sys.remove q; pure a : FileProg α).All (Disk.Yields K) d' fun r d'' =>
      Preparing d d'' path ∧ r = a := by
  refine Prog.all_bind ((Disk.all_observes (observes_close l)).mono ?_)
  rintro r d1 ⟨rfl, -⟩
  exact h.cleanUp hq a

/-- The store after the preparation: at most its sorted keys changed. -/
inductive SortedOnly (s : Store) : Store → Prop
  | same : SortedOnly s s
  | sorted : SortedOnly s { s with index := s.index.keysSortedByOffset.2 }

/-- **The preparation of a compaction, whatever fails.** -/
theorem all_prepareCompaction (h : Backed d s path header recs) (compacting : Bool) :
    ({ s with compacting := compacting } : Store).prepareCompaction.All (Disk.Yields K) d fun r d' =>
      Preparing d d' path ∧ SortedOnly { s with compacting := compacting } r.2 ∧ ∀ newIndex, r.1 = .ok newIndex →
        newIndex = replay s.options.indexedFields (compacted recs) ∧ Prepared d' path d.next recs := by
  have hlt : s.log.file.inode < d.next := h.sound.bounded _ _ h.dir
  have htmp : path ++ compactionTempSuffix ∈ compactionNames path := by simp [compactionNames]
  have hready : path ++ compactionReadySuffix ∈ compactionNames path := by simp [compactionNames]
  have hbackup : path ++ compactionBackupSuffix ∈ compactionNames path := by simp [compactionNames]
  have n1 : path ++ compactionReadySuffix ≠ path ++ compactionTempSuffix := append_ne_append path (by decide)
  have n2 : path ++ compactionBackupSuffix ≠ path ++ compactionTempSuffix := append_ne_append path (by decide)
  have n3 : path ++ compactionBackupSuffix ≠ path ++ compactionReadySuffix := append_ne_append path (by decide)
  unfold Store.prepareCompaction
  dsimp only
  rw [h.pathEq]
  refine Prog.all_orElse (all_removeAllIfExist (compactionNames path)) ?_ ?_
  · rintro e d1 ⟨hs, hother, -⟩
    exact ⟨(preparing_refl d path).renamed hs hother, .same, fun i hi => by cases hi⟩
  rintro u d1 ⟨hs1, hother1, hgone1⟩
  have hgone1 := hgone1 u rfl
  have h1 := (preparing_refl d path).renamed hs1 hother1
  refine Prog.all_orElse (Disk.all_observes (Prog.each_perform (o := FileOp.stat path) trivial)) ?_ ?_
  · rintro e d2 ⟨rfl, -⟩
    exact ⟨h1, .same, fun i hi => by cases hi⟩
  rintro u d2 ⟨rfl, -⟩
  refine Prog.all_orElse (all_createAppendLogMode (hgone1 _ htmp)) ?_ ?_
  · rintro e d3 ⟨hdir3, hfiles3, -⟩
    refine ⟨⟨fun q hq => ?_, fun j hj => ?_⟩, .same, fun i hi => by cases hi⟩
    · rw [hdir3 q (fun heq => hq (heq ▸ htmp)), h1.dir q hq]
    · rw [hfiles3 j (by rw [hs1.next]; omega), h1.files j hj]
  rintro newLog d3 ⟨hdir3, hfiles3, hok3⟩
  obtain ⟨hd3, hnew⟩ := hok3 newLog rfl
  rw [hs1.next] at hfiles3 hd3 hnew
  have h3 : Preparing d d3 path := by
    refine ⟨fun q hq => ?_, fun j hj => ?_⟩
    · rw [hdir3 q (fun heq => hq (heq ▸ htmp)), h1.dir q hq]
    · rw [hfiles3 j (by omega), h1.files j hj]
  have hfile3 : newLog.file = ⟨d.next, true⟩ := hnew.file
  have hold3 : LogImage d3 s.log header recs :=
    h.image.of_same ⟨rfl, rfl, rfl, rfl, rfl⟩ rfl (by rw [h3.files _ hlt])
  have hnew3 : LogImage d3 newLog currentHeader ([] : List (Rec logVersion)) := by
    refine hnew.image rfl currentHeader_length ?_ ?_
    · rw [hd3, Disk.content_setContent, concat_nil, List.append_nil]
    · rw [hd3, Disk.content_setContent, currentHeader_length]
  have hidx : ∀ k x, (k, x) ∈ liveRecs recs → s.index.keysSortedByOffset.2.get k = some (liveEntry x) := by
    intro k x hx
    have hlookup := h.sortKeys.index.get_eq k
    exact hlookup.trans (replay_lookup _ _ hx)
  unfold Store.fillCompaction
  dsimp only
  rw [h.pathEq, h.sortedKeys]
  refine Prog.all_orElseState (all_copyLive s.options.indexedFields hidx (liveRecs recs) (fun _ hx => hx) hold3 hnew3
    (by rw [AppendLog.unknownReadOnly, hnew.readOnlyFeatures]; rfl) (by rw [hfile3]; exact Nat.ne_of_lt hlt)) ?_ ?_
  · rintro e ⟨newLog', newIndex'⟩ d4 ⟨htouched, -⟩
    rw [hfile3] at htouched
    refine ((h3.touched htouched le_rfl).closeUp htmp newLog' _).mono ?_
    rintro r d' ⟨hd', rfl⟩
    exact ⟨hd', .sorted, fun i hi => by cases hi⟩
  rintro u ⟨newLog', newIndex'⟩ d4 ⟨htouched, hsame, hok4⟩
  obtain ⟨himage4, hindex⟩ := hok4 u rfl
  dsimp only at hsame himage4 hindex
  rw [List.nil_append] at himage4 hindex
  rw [hfile3] at htouched
  have h4 := h3.touched htouched le_rfl
  have hfile4 : newLog'.file = ⟨d.next, true⟩ := by rw [hsame.file, hfile3]
  dsimp only
  refine Prog.all_orElse (Q := fun _ d5 => Preparing d d5 path ∧ d5.dir = d4.dir ∧
    ∀ j, (d5.files j).content = (d4.files j).content) ((all_sync newLog').mono ?_) ?_ ?_
  · rintro r d5 (rfl | rfl)
    · exact ⟨h4, rfl, fun _ => rfl⟩
    · refine ⟨h4.touched (touched_syncFile _ _) (by rw [hfile4]), rfl, fun j => Disk.content_syncFile _ _ _⟩
  · rintro e d5 ⟨h5, -⟩
    refine (h5.closeUp htmp newLog' _).mono ?_
    rintro r d' ⟨hd', rfl⟩
    exact ⟨hd', .sorted, fun i hi => by cases hi⟩
  rintro u d5 ⟨h5, hdir5, hcontent5⟩
  refine Prog.all_orElseState (Disk.all_observes (observes_close newLog')) ?_ ?_
  · rintro e x d6 ⟨rfl, -⟩
    refine (h5.cleanUp htmp _).mono ?_
    rintro r d' ⟨hd', rfl⟩
    exact ⟨hd', .sorted, fun i hi => by cases hi⟩
  rintro u x d6 ⟨rfl, -⟩
  have htmp6 : d6.dir (path ++ compactionTempSuffix) = some d.next := by
    rw [hdir5, htouched.dir, hd3, Disk.dir_setContent, Disk.dir_create, Function.update_self, hs1.next]
  refine Prog.all_orElse (all_rename htmp6 (path ++ compactionReadySuffix)) ?_ ?_
  · rintro e d7 ⟨-, hd7⟩
    rw [hd7 e rfl]
    refine (h5.cleanUp htmp _).mono ?_
    rintro r d' ⟨hd', rfl⟩
    exact ⟨hd', .sorted, fun i hi => by cases hi⟩
  rintro u d7 ⟨hok7, -⟩
  obtain ⟨hs7, hdir7⟩ := hok7 u rfl
  have h7 : Preparing d d7 path := by
    refine h5.renamed hs7 fun q hq => ?_
    have hq1 : q ≠ path ++ compactionReadySuffix := fun heq => hq (heq ▸ hready)
    have hq2 : q ≠ path ++ compactionTempSuffix := fun heq => hq (heq ▸ htmp)
    rw [hdir7, Function.update_of_ne hq1, Function.update_of_ne hq2]
  refine Prog.all_orElse (Q := fun _ d8 => Preparing d d8 path ∧ d8.dir = d7.dir ∧ d8.files = d7.files)
    ((all_syncParentDirectory path).mono ?_) ?_ ?_
  · rintro r d8 (rfl | rfl)
    · exact ⟨h7, rfl, rfl⟩
    · exact ⟨h7.renamed (sameFiles_syncNames d7) fun _ _ => rfl, rfl, rfl⟩
  · rintro e d8 ⟨h8, -⟩
    refine (h8.cleanUp hready _).mono ?_
    rintro r d' ⟨hd', rfl⟩
    exact ⟨hd', .sorted, fun i hi => by cases hi⟩
  rintro u d8 ⟨h8, hdir8, hfiles8⟩
  refine ⟨h8, .sorted, fun i hi => ?_⟩
  cases hi
  refine ⟨hindex, ?_, ?_, ?_, ?_⟩
  · rw [hdir8, hdir7, Function.update_of_ne n1.symm, Function.update_self]
  · rw [hdir8, hdir7, Function.update_self]
  · rw [hdir8, hdir7, Function.update_of_ne n3, Function.update_of_ne n2, hdir5, htouched.dir, hd3, Disk.dir_setContent,
      Disk.dir_create, Function.update_of_ne n2, hgone1 _ hbackup]
  · have hc := himage4.content
    rw [hfile4] at hc
    rw [hfiles8, hs7.files, hcontent5, hc]
    rfl

end

end AppendStore
