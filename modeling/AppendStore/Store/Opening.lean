import AppendStore.Store.Compaction

/-! # Opening and closing without failures

`Open` takes the lock, lets recovery choose the file that is the log, reads it, and migrates it if it
is of an older version. What it makes of a file is settled by how the file reads (`Reads`): a header,
records, and at most an incomplete record after them, which is cut off.
-/

namespace AppendStore
open Library
set_option autoImplicit false

/-! ## How a file reads -/

/-- The rest at the end of a file that the scan cuts off. -/
def Cut (version pos : ℕ) (tail : Bytes) : Prop :=
  tail = [] ∨ ∃ e, AppendLog.readRecord version pos tail = .error e ∧ e.isEOF = true

/-- The bytes of a log file that the scan goes through without an error. -/
structure Reads {version : ℕ} (b : Bytes) (h : Header) (recs : List (Rec version)) : Prop where
  headerOk : readHeaderOf b = .ok h
  versionEq : h.version = version
  content : ∃ tail, b = b.take logHeaderSize ++ concat recs ++ tail ∧
    Cut version (logHeaderSize + (concat recs).length) tail

theorem readHeaderOf_ok {b : Bytes} {h : Header} (hok : readHeaderOf b = .ok h) :
    logHeaderSize ≤ b.length ∧ decodeHeader (b.take logHeaderSize) = .ok h := by
  unfold readHeaderOf at hok
  split at hok
  · cases hok
  · rename_i hlen
    exact ⟨Nat.not_lt.mp hlen, hok⟩

section
variable {version : ℕ} {d : Disk} {s : Store} {path : Path} {recs : List (Rec version)} {l : AppendLog}
  {h : Header} {i : ℕ}

theorem Reads.headerLength {b : Bytes} (hr : Reads b h recs) : (b.take logHeaderSize).length = logHeaderSize := by
  rw [List.length_take, Nat.min_eq_left (readHeaderOf_ok hr.headerOk).1]

theorem Reads.known {b : Bytes} (hr : Reads b h recs) :
    1 ≤ version ∧ version ≤ logVersion ∧ h.incompatibleFeatures = 0 ∧
      (version < logVersion → h.readOnlyFeatures = 0) ∧ (version = logVersion → b.take logHeaderSize = h.bytes) := by
  have hok := decodeHeader_ok hr.headerLength (readHeaderOf_ok hr.headerOk).2
  rwa [hr.versionEq] at hok

theorem Cut.stops {pos : ℕ} {tail : Bytes} (hcut : Cut version pos tail) : Stops version pos tail := by
  rcases hcut with hnil | ⟨e, he, -⟩
  · exact .inl hnil
  · exact .inr ⟨e, he⟩

/-- There is one way to read a file. -/
theorem Reads.unique {b : Bytes} {h' : Header} {recs' : List (Rec version)} (hr : Reads b h recs)
    (hr' : Reads b h' recs') : recs = recs' := by
  obtain ⟨tail, hcontent, hcut⟩ := hr.content
  obtain ⟨tail', hcontent', hcut'⟩ := hr'.content
  have heq := hcontent.symm.trans hcontent'
  rw [List.append_assoc, List.append_assoc, List.append_cancel_left_eq] at heq
  exact (parse_unique heq hcut.stops hcut'.stops).1

/-- The header of a log of the current version without feature bits. -/
theorem Reads.current {b : Bytes} {recs : List (Rec logVersion)} (hr : Reads b h recs)
    (hro : h.readOnlyFeatures = 0) : b.take logHeaderSize = currentHeader := by
  obtain ⟨-, -, hinc, -, hbytes⟩ := hr.known
  rw [hbytes rfl, currentHeader]
  have hh : h = ⟨logVersion, 0, 0⟩ := by
    cases h
    simp only [Header.mk.injEq]
    exact ⟨hr.versionEq, hinc, hro⟩
  rw [hh]

/-! ## Recovery of the index -/

/-- A file was cut to a front part of it, and nothing else changed. -/
structure Trimmed (d d' : Disk) (i : ℕ) (b : Bytes) : Prop where
  dir : d'.dir = d.dir
  next : d'.next = d.next
  content : (d'.files i).content = b
  durable : (d.files i).synced = (d.files i).content → (d'.files i).synced = b

/-- `Iterate` on a file that reads: every record goes to the callback, and the file ends after the last
record. -/
theorem exec_iterate_reads {σ : Type} {fn : LogRecord → σ → Except Err σ} {f : LogRecord → σ → σ}
    (hfn : ∀ record s, fn record s = .ok (f record s)) (ho : Opened l path i h (d.files i).content.length)
    (hr : Reads (d.files i).content h recs) (hro : h.readOnlyFeatures = 0) (s : σ) :
    ∃ l' d', Disk.exec (l.iterate fn s) d = (((.ok (), l'), foldPlaced f (placed logHeaderSize recs) s), d') ∧
      Trimmed d d' i ((d.files i).content.take logHeaderSize ++ concat recs) ∧ Touched d d' i ∧ l.SameFile l' ∧
      l'.writePos = logHeaderSize + (concat recs).length := by
  obtain ⟨tail, hcontent, hcut⟩ := hr.content
  have hopen : l.file.isOpen = true := by rw [ho.file]
  have hpos : l.writePos = (d.files l.file.inode).content.length := by rw [ho.writePos, ho.file]
  have hver : l.version = version := by rw [ho.version, hr.versionEq]
  have hcontent' : (d.files l.file.inode).content =
      (d.files i).content.take logHeaderSize ++ concat recs ++ tail := by
    rw [ho.file]
    exact hcontent
  by_cases htail : tail = []
  · have hit := exec_iterate_complete hfn hopen hpos hver hr.headerLength hcontent' s htail
    have hself : (d.files i).content.take logHeaderSize ++ concat recs = (d.files i).content := by
      rw [htail, List.append_nil] at hcontent
      exact hcontent.symm
    refine ⟨l, d, hit, ?_, touched_refl d i, ⟨rfl, rfl, rfl, rfl, rfl⟩, ?_⟩
    · rw [hself]
      exact ⟨rfl, rfl, rfl, id⟩
    · rw [hpos, hcontent', htail, List.append_nil, List.length_append, hr.headerLength]
  · obtain ⟨e, he, heof⟩ := hcut.resolve_left htail
    have hknown : l.unknownReadOnly = 0 := by
      rw [AppendLog.unknownReadOnly, ho.readOnlyFeatures, hro]
      rfl
    have hit := exec_iterate_torn hfn hopen hpos hver hr.headerLength hcontent' s htail he heof hknown
    have hcut : (d.files i).content.take (logHeaderSize + (concat recs).length) =
        (d.files i).content.take logHeaderSize ++ concat recs := by
      nth_rewrite 1 [hcontent]
      rw [List.take_left' (by rw [List.length_append, hr.headerLength])]
    refine ⟨{ l with writePos := logHeaderSize + (concat recs).length }, _, hit, ?_, ?_,
      ⟨rfl, rfl, rfl, rfl, rfl⟩, rfl⟩
    · rw [ho.file]
      refine ⟨rfl, rfl, by rw [Disk.content_cut, hcut], ?_⟩
      intro hsynced
      rw [Disk.synced_cut, hsynced, hcut]
    · rw [ho.file]
      exact touched_cut d i _

/-- `recover` from what `Iterate` does. -/
theorem exec_recover_of_iterate {options : Options} {lock : FileLock} {r : Except Err Unit} {l' : AppendLog}
    {d' : Disk} (hit : Disk.exec (l.iterate Store.recoverRecord
        (newIndex options.indexedFields, newLRUCache options.cacheSize.toNat)) d =
      (((r, l'), foldPlaced recoverStep (placed logHeaderSize recs)
        (newIndex options.indexedFields, newLRUCache options.cacheSize.toNat)), d')) :
    Disk.exec (newStore options lock l).recover d = ((r, { newStore options lock l with
        log := l'
        index := replay options.indexedFields recs }), d') := by
  rw [foldPlaced_recoverStep] at hit
  unfold Store.recover
  exact (Disk.exec_bind_eq hit _).trans rfl

/-- The scan of `Open` on a file that reads: the index is the replay, and the file ends after the
last record. -/
theorem exec_recoverStore (ho : Opened l path i h (d.files i).content.length)
    (hr : Reads (d.files i).content h recs) (hro : h.readOnlyFeatures = 0) (options : Options)
    (lock : FileLock) :
    ∃ l' d', Disk.exec (newStore options lock l).recover d = ((.ok (), { newStore options lock l with
        log := l'
        index := replay options.indexedFields recs }), d') ∧
      Trimmed d d' i ((d.files i).content.take logHeaderSize ++ concat recs) ∧ Touched d d' i ∧ l.SameFile l' ∧
      l'.writePos = logHeaderSize + (concat recs).length := by
  obtain ⟨l', d', hit, htrim, htouched, hsame, hpos⟩ := exec_iterate_reads recoverRecord_eq ho hr hro
    (newIndex options.indexedFields, newLRUCache options.cacheSize.toNat)
  exact ⟨l', d', exec_recover_of_iterate hit, htrim, htouched, hsame, hpos⟩

/-! ## The way to the log -/

/-- The path and the options that `Open` accepts. -/
structure Options.Accepted (path : Path) (options : Options) : Prop where
  pathGiven : path ≠ ""
  threshold : ¬ options.withDefaults.compactionThreshold > 1
  fields : [] ∉ options.withDefaults.indexedFields

theorem zero_accepted {path : Path} (h : path ≠ "") : Options.zero.Accepted path :=
  ⟨h, by norm_num [Options.zero, Options.withDefaults], by simp [Options.zero, Options.withDefaults]⟩

/-- No process holds the lock of the store. -/
def LockFree (d : Disk) (path : Path) : Prop :=
  ∀ i, d.dir (path ++ lockFileSuffix) = some i → d.locked i = false

theorem blank_lockFree (path : Path) : LockFree .blank path := fun i h => absurd h.symm (Option.some_ne_none i)

/-- The disk once the lock is taken and recovery has run. -/
structure Ready (d d' : Disk) (path : Path) (lock : FileLock) : Prop where
  main : d'.dir path = recoveredMain d.dir path
  noArtifacts : ∀ q ∈ artifacts path, d'.dir q = none
  lockHeld : ∃ i, lock.file = some ⟨i, true⟩ ∧ d'.dir (path ++ lockFileSuffix) = some i
  names : ∀ q, q ≠ path → q ∉ artifacts path → q ≠ path ++ lockFileSuffix → d'.dir q = d.dir q
  files : ∀ j, j < d.next → d'.files j = d.files j
  next : d.next ≤ d'.next
  sound : d'.Sound

theorem recoveredMain_congr {n n' : Names} (hmain : n' path = n path)
    (hart : ∀ q ∈ artifacts path, n' q = n q) : recoveredMain n' path = recoveredMain n path := by
  rw [recoveredMain, recoveredMain, hmain, hart _ (by simp [artifacts]), hart _ (by simp [artifacts]),
    hart _ (by simp [artifacts])]

section
variable {α : Type} {failed : Err → α} {last : FileLock → Store → FileProg α} {options : Options}

/-- `Open` with a path or options it does not accept. -/
theorem exec_openWith_rejected (hacc : ¬ options.Accepted path) (d : Disk) :
    ∃ e, Disk.exec (openWith failed path options last) d = (failed e, d) := by
  unfold openWith
  split
  · exact ⟨_, rfl⟩
  · rename_i hpath
    dsimp only
    split
    · exact ⟨_, rfl⟩
    · rename_i hthreshold
      split
      · exact ⟨_, rfl⟩
      · rename_i hfields
        exact absurd ⟨hpath, hthreshold, hfields⟩ hacc

theorem openWith_eq (hacc : options.Accepted path) :
    openWith failed path options last = (acquireFileLock path).orElse (fun e => pure (failed e)) fun lock =>
      (openAppendLog path).orElse
        (fun e => do
          let _ ← lock.release
          pure (failed (.wrap "failed to open append log" e)))
        fun log => recoverWith failed options.withDefaults lock log last := by
  unfold openWith
  rw [if_neg hacc.pathGiven]
  dsimp only
  rw [if_neg hacc.threshold, if_neg hacc.fields]

end

theorem openStore_eq {options : Options} (hacc : options.Accepted path) :
    openStore path options = (acquireFileLock path).andThen fun lock =>
      (openAppendLog path).orElse
        (fun e => do
          let _ ← lock.release
          pure (.error (.wrap "failed to open append log" e)))
        fun log => recoverOpened path options.withDefaults lock log :=
  openWith_eq hacc

/-- The lock is taken and recovery runs. No other lock changes. -/
theorem exec_lockAndRecover (hs : d.Sound) (hfree : LockFree d path) :
    ∃ k d1 d', Disk.exec (acquireFileLock path) d = (.ok ⟨some ⟨k, true⟩⟩, d1) ∧
      Disk.exec (recoverCompactionArtifacts path) d1 = (.ok (), d') ∧ Ready d d' path ⟨some ⟨k, true⟩⟩ ∧
      ∀ j, j ≠ k → d'.locked j = d.locked j := by
  obtain ⟨k, d1, h1, hdir1, -, hrest1, hlocked1, hfiles1, hnext1, -⟩ := exec_acquireFileLock hfree
  obtain ⟨d2, h2, hs2, hmain2, hart2, hrest2⟩ := exec_recover d1 path
  have hsound1 := hs.exec (acquireFileLock path)
  rw [h1] at hsound1
  have hsound2 := hsound1.exec (recoverCompactionArtifacts path)
  rw [h2] at hsound2
  have hmain : recoveredMain d1.dir path = recoveredMain d.dir path := by
    refine recoveredMain_congr (hrest1 path (path_ne_append (by decide))) ?_
    intro q hq
    refine hrest1 q ?_
    rintro rfl
    exact lock_not_mem_artifacts path hq
  refine ⟨k, d1, d2, h1, h2, ⟨?_, hart2, ⟨k, rfl, ?_⟩, ?_, ?_, ?_, hsound2⟩, ?_⟩
  · rw [hmain2, hmain]
  · rw [hrest2 _ (path_ne_append (by decide)).symm (lock_not_mem_artifacts path), hdir1]
  · intro q hq hart hlock
    rw [hrest2 q hq hart, hrest1 q hlock]
  · intro j hj
    rw [hs2.files]
    exact hfiles1 j hj
  · rw [hs2.next]
    exact hnext1
  · intro j hj
    rw [hs2.locked, hlocked1 j hj]

/-- `Open` up to the opening of the log. -/
theorem exec_openWith_ready {α : Type} (failed : Err → α) (last : FileLock → Store → FileProg α) {options : Options}
    (hacc : options.Accepted path) (hs : d.Sound) (hfree : LockFree d path) :
    ∃ lock d', Ready d d' path lock ∧ Disk.exec (openWith failed path options last) d =
      Disk.exec ((openAppendLogFile path).orElse
        (fun e => do
          let _ ← lock.release
          pure (failed (.wrap "failed to open append log" e)))
        fun log => recoverWith failed options.withDefaults lock log last) d' := by
  obtain ⟨k, d1, d', h1, h2, hready, -⟩ := exec_lockAndRecover hs hfree
  refine ⟨⟨some ⟨k, true⟩⟩, d', hready, ?_⟩
  rw [openWith_eq hacc, Disk.exec_orElse_ok h1]
  refine Disk.exec_orElse_congr ?_
  unfold openAppendLog
  rw [Disk.exec_andThen_ok h2]

theorem exec_openStore_ready {options : Options} (hacc : options.Accepted path) (hs : d.Sound)
    (hfree : LockFree d path) :
    ∃ lock d', Ready d d' path lock ∧ Disk.exec (openStore path options) d =
      Disk.exec ((openAppendLogFile path).orElse
        (fun e => do
          let _ ← lock.release
          pure (.error (.wrap "failed to open append log" e)))
        fun log => recoverOpened path options.withDefaults lock log) d' := by
  unfold openStore recoverOpened
  obtain ⟨lock, d', hready, hexec⟩ := exec_openWith_ready Except.error (migrateOlder path) hacc hs hfree
  exact ⟨lock, d', hready, hexec⟩

/-- The disk on which a store has opened its log. -/
structure Settled (d : Disk) (path : Path) (i : ℕ) (lock : FileLock) : Prop where
  dir : d.dir path = some i
  noArtifacts : ∀ q ∈ artifacts path, d.dir q = none
  lockHeld : ∃ i, lock.file = some ⟨i, true⟩ ∧ d.dir (path ++ lockFileSuffix) = some i
  sound : d.Sound

theorem Settled.of_dir {lock : FileLock} (hset : Settled d path i lock) {d' : Disk} (hdir : d'.dir = d.dir)
    (hnext : d'.next = d.next) : Settled d' path i lock := by
  refine ⟨?_, ?_, ?_, hset.sound.of_dir hdir hnext⟩
  · rw [hdir, hset.dir]
  · rw [hdir]
    exact hset.noArtifacts
  · rw [hdir]
    exact hset.lockHeld

/-- `Open` on a log that reads, up to its migration. -/
theorem exec_recoverOpened (options : Options) {lock : FileLock} (hset : Settled d path i lock)
    (ho : Opened l path i h (d.files i).content.length) (hr : Reads (d.files i).content h recs)
    (hro : h.readOnlyFeatures = 0) :
    ∃ s d', (Disk.exec (newStore options lock l).recover d = ((.ok (), s), d') ∧
        Disk.exec (recoverOpened path options lock l) d = Disk.exec (migrateOlder path lock s) d') ∧
      (Trimmed d d' i ((d.files i).content.take logHeaderSize ++ concat recs) ∧ Touched d d' i) ∧
      Backed d' s path ((d.files i).content.take logHeaderSize) recs ∧ s.options = options ∧ s.lock = lock ∧
      s.log.file = ⟨i, true⟩ ∧ s.log.incompatibleFeatures = h.incompatibleFeatures := by
  obtain ⟨l', d', hrec, htrim, htouched, hsame, hpos⟩ := exec_recoverStore ho hr hro options lock
  have hset' : Settled d' path i lock := hset.of_dir htrim.dir htrim.next
  refine ⟨_, d', ⟨hrec, by rw [recoverOpened, recoverWith, Disk.exec_orElseState_ok hrec]⟩, ⟨htrim, htouched⟩, ?_,
    rfl, rfl,
    by rw [← ho.file]; exact hsame.file, ?_⟩
  · exact {
      image := by
        refine ⟨?_, ?_, hr.headerLength, ?_, hpos⟩
        · rw [hsame.file, ho.file]
        · rw [hsame.version, ho.version, hr.versionEq]
        · rw [hsame.file, ho.file, htrim.content]
      pathEq := by rw [hsame.path, ho.path]
      dir := by rw [hset'.dir, hsame.file, ho.file]
      readOnlyFeatures := by rw [hsame.readOnlyFeatures, ho.readOnlyFeatures, hro]
      readOnlyReason := by
        have hknown : l.unknownReadOnly = 0 := by
          rw [AppendLog.unknownReadOnly, ho.readOnlyFeatures, hro]
          rfl
        exact if_neg (not_not.mpr hknown)
      closed := rfl
      compacting := rfl
      index := Index.same_refl _
      sorted := replay_sorted _ _
      cacheWF := LruCache.newLRUCache_wf _
      cached := LruCache.newLRUCache_holds _
      noArtifacts := hset'.noArtifacts
      lock := hset'.lockHeld
      sound := hset'.sound }
  · rw [hsame.incompatibleFeatures, ho.incompatibleFeatures]

/-! ## The copy of an old log -/

/-- What copying a log to a backup did. -/
structure Copied (d d' : Disk) (dst : Path) : Prop where
  names : ∀ q, q ≠ dst → q ≠ dst ++ migrationBackupTempSuffix → d'.dir q = d.dir q
  files : ∀ q j, q ≠ dst ++ migrationBackupTempSuffix → d.dir q = some j → d'.files j = d.files j
  sound : d'.Sound

/-- The copy goes to a temporary file first. -/
theorem exec_copyBackup {f : OsFile} (hf : f.isOpen = true) (hs : d.Sound) {src dst : Path}
    (hsrc : d.dir src = some f.inode) (hne : src ≠ dst ++ migrationBackupTempSuffix) :
    ∃ d', Disk.exec (Store.copyBackup f dst) d = (.ok (), d') ∧ Copied d d' dst ∧
      d'.bytesAt dst = some (d.files f.inode).content := by
  have hlt := hs.bounded _ _ hsrc
  -- the temporary file, which an earlier attempt may have left
  obtain ⟨j, d1, h1, hdir1, hempty1, hnames1, hfiles1⟩ : ∃ j d1,
      Disk.exec (Sys.openFile (dst ++ migrationBackupTempSuffix) true true) d = (.ok ⟨j, true⟩, d1) ∧
      d1.dir (dst ++ migrationBackupTempSuffix) = some j ∧ (d1.files j).content = [] ∧
      (∀ q, q ≠ dst ++ migrationBackupTempSuffix → d1.dir q = d.dir q ∧ d.dir q ≠ some j) ∧
      ∀ k, k ≠ j → d1.files k = d.files k := by
    cases htmp : d.dir (dst ++ migrationBackupTempSuffix) with
    | some j =>
      refine ⟨j, _, Disk.exec_open_trunc htmp true, htmp, by simp, ?_, ?_⟩
      · intro q hq
        exact ⟨rfl, fun hj => hq (hs.distinct _ _ _ hj htmp)⟩
      · intro k hk
        exact Disk.files_setContent_ne _ _ _ _ hk
    | none =>
      refine ⟨d.next, _, Disk.exec_open_none htmp true, by simp, by simp, ?_, ?_⟩
      · intro q hq
        refine ⟨by rw [Disk.dir_create, Function.update_of_ne hq], ?_⟩
        exact fun hj => absurd (hs.bounded _ _ hj) (Nat.lt_irrefl _)
      · intro k hk
        exact Disk.files_create_ne _ _ _ hk
  have hfj : f.inode ≠ j := fun heq => (hnames1 src hne).2 (heq ▸ hsrc)
  have hread : (d1.files f.inode).content = (d.files f.inode).content := by rw [hfiles1 _ hfj]
  have h2 := Disk.exec_readFrom hf d1 0
  have h3 := Disk.exec_writeAt (f := ⟨j, true⟩) rfl d1 0 (d.files f.inode).content
  rw [List.drop_zero, hread] at h2
  dsimp only at h3
  have hnil : writeAt [] 0 (d.files f.inode).content = (d.files f.inode).content := writeAt_end [] _
  rw [hempty1, hnil] at h3
  obtain ⟨d3, hd3⟩ : ∃ d3, d3 = (d1.setContent j (d.files f.inode).content).syncFile j := ⟨_, rfl⟩
  have h4 := Disk.exec_fsync (f := ⟨j, true⟩) rfl (d1.setContent j (d.files f.inode).content)
  rw [← hd3] at h4
  have hdir3 : d3.dir = d1.dir := by rw [hd3]; rfl
  obtain ⟨d4, h5, hs5, hdir5⟩ := exec_rename_promote (d := d3) (by rw [hdir3]; exact hdir1) dst
  have hexec : Disk.exec (Store.copyBackup f dst) d = (.ok (), d4.syncNames) := by
    unfold Store.copyBackup Store.fillBackup
    dsimp only
    rw [Disk.exec_orElse_ok h1, Disk.exec_orElse_ok (p := Prog.andThen _ _)
      ((Disk.exec_andThen_ok h2).trans h3), Disk.exec_orElse_ok h4,
      Disk.exec_orElse_ok (Disk.exec_close rfl d3), Disk.exec_orElse_ok h5]
    exact exec_syncParentDirectory d4 dst
  have hsound := hs.exec (Store.copyBackup f dst)
  rw [hexec] at hsound
  have hfiles : ∀ k, k ≠ j → d4.files k = d.files k := by
    intro k hk
    rw [hs5.files, hd3]
    refine (Function.update_of_ne hk _ _).trans ?_
    rw [Disk.files_setContent_ne _ _ _ _ hk, hfiles1 k hk]
  refine ⟨d4.syncNames, hexec, ⟨?_, ?_, hsound⟩, ?_⟩
  · intro q hq htmp
    rw [Disk.dir_syncNames, hdir5, Function.update_of_ne hq, Function.update_of_ne htmp, hdir3,
      (hnames1 q htmp).1]
  · intro q k hq hk
    refine hfiles k ?_
    rintro rfl
    exact (hnames1 q hq).2 hk
  · rw [Disk.bytesAt, Disk.dir_syncNames, hdir5, Function.update_self, Option.map_some,
      Disk.files_syncNames, hs5.files, hd3, Disk.content_syncFile, Disk.content_setContent]

theorem exec_copyLogFile (hs : d.Sound) {src dst : Path} {i : ℕ} (hsrc : d.dir src = some i)
    (hne : src ≠ dst ++ migrationBackupTempSuffix) :
    ∃ d', Disk.exec (Store.copyLogFile src dst) d = (.ok (), d') ∧ Copied d d' dst ∧
      d'.bytesAt dst = some (((d.dir dst).elim (d.files i) d.files).content) := by
  unfold Store.copyLogFile
  cases hdst : d.dir dst with
  | some j =>
    refine ⟨d, ?_, ⟨fun _ _ _ => rfl, fun _ _ _ _ => rfl, hs⟩, ?_⟩
    · rw [Disk.exec_orElse_ok (Disk.exec_stat_some hdst)]
      rfl
    · rw [Disk.bytesAt, hdst]
      rfl
  | none =>
    obtain ⟨d', hcopy, hcopied, hbytes⟩ := exec_copyBackup (f := ⟨i, true⟩) rfl hs hsrc hne
    refine ⟨d', ?_, hcopied, hbytes⟩
    rw [Disk.exec_orElse_error (Disk.exec_stat_none hdst), if_pos rfl,
      Disk.exec_orElse_ok (Disk.exec_open_some hsrc false)]
    refine (Disk.exec_bind_eq hcopy _).trans ?_
    rw [Disk.exec_bind_eq (Disk.exec_close rfl d')]
    rfl

/-! ## Migration -/

/-- The names a running store uses, apart from its backups, do not go on with `.v`. -/
theorem ne_migrationBackup (path : Path) (version : ℕ) (t : String) {suffix : String}
    (h : suffix.toList[1]? ≠ some 'v') : path ++ suffix ≠ Store.migrationBackup path version ++ t := by
  rw [Store.migrationBackup, String.append_assoc, String.append_assoc, String.append_assoc]
  refine append_ne_append path ?_
  rintro rfl
  refine h ?_
  simp [String.toList_append]

/-- The names that a running store relies on. -/
def ownSuffixes : List String :=
  ["", lockFileSuffix, compactionTempSuffix, compactionReadySuffix, compactionBackupSuffix,
    legacyCompactionSuffix]

theorem Copied.own {v : ℕ} {d' : Disk} (hc : Copied d d' (Store.migrationBackup path v))
    {t : String} (ht : t ∈ ownSuffixes) : d'.dir (path ++ t) = d.dir (path ++ t) := by
  have hne : t.toList[1]? ≠ some 'v' := by
    revert t
    decide
  refine hc.names _ ?_ (ne_migrationBackup path v _ hne)
  have h := ne_migrationBackup path v "" hne
  rwa [String.append_empty] at h

/-- Making the backup does not touch the store. -/
theorem Backed.of_copied {header : Bytes} {d' : Disk} {v : ℕ} (h : Backed d s path header recs)
    (hc : Copied d d' (Store.migrationBackup path v)) : Backed d' s path header recs := by
  have hmain : d'.dir path = d.dir path := by
    have hown := hc.own (t := "") (by decide)
    rwa [String.append_empty] at hown
  have hfile : d'.files s.log.file.inode = d.files s.log.file.inode := by
    have hne := ne_migrationBackup path v migrationBackupTempSuffix
      (show ("" : String).toList[1]? ≠ some 'v' by decide)
    rw [String.append_empty] at hne
    exact hc.files path _ hne h.dir
  exact { h with
    image := h.image.of_same ⟨rfl, rfl, rfl, rfl, rfl⟩ rfl (by rw [hfile])
    dir := by rw [hmain, h.dir]
    noArtifacts := by
      intro q hq
      have hnone := h.noArtifacts q hq
      obtain ⟨t, ht, rfl⟩ := mem_artifacts.mp hq
      have hown : t ∈ ownSuffixes := by
        clear hq hnone
        revert t
        decide
      rw [hc.own hown, hnone]
    lock := by rw [hc.own (by decide)]; exact h.lock
    sound := hc.sound }

/-- What the application answers to a migration, if it is asked. -/
def migrationAnswer (path : Path) (options : Options) (version : ℕ) : Option Err :=
  options.onMigrate.bind fun f => f (Store.migrationInfo path options version)

/-- The backup, if one is wanted. -/
theorem exec_backUp {header : Bytes} (h : Backed d s path header recs) :
    ∃ d', Disk.exec (s.backUp path (Store.migrationInfo path s.options s.log.version).backup) d = (.ok (), d') ∧
      Backed d' s path header recs := by
  unfold Store.backUp
  by_cases hno : s.options.noMigrationBackup = true
  · rw [if_pos hno]
    exact ⟨d, rfl, h⟩
  · rw [if_neg hno]
    have hbackup : (Store.migrationInfo path s.options s.log.version).backup =
        Store.migrationBackup path s.log.version := if_neg hno
    have hne := ne_migrationBackup path s.log.version migrationBackupTempSuffix
      (show ("" : String).toList[1]? ≠ some 'v' by decide)
    rw [String.append_empty] at hne
    obtain ⟨d', hcopy, hcopied, -⟩ := exec_copyLogFile h.sound h.dir hne
    refine ⟨d', ?_, h.of_copied hcopied⟩
    rw [hbackup, Disk.exec_orElse_ok hcopy]
    rfl

/-- The application stops a migration. -/
theorem exec_migrate_refused {header : Bytes} (h : Backed d s path header recs) {e : Err}
    (hask : migrationAnswer path s.options s.log.version = some e) :
    ∃ d', Disk.exec (s.migrate path) d = ((.error e, s), d') ∧ Backed d' s path header recs := by
  obtain ⟨d', hback, hbacked⟩ := exec_backUp h
  refine ⟨d', ?_, hbacked⟩
  unfold Store.migrate
  refine (Disk.exec_orElse_ok hback).trans ?_
  unfold migrationAnswer at hask
  rw [hask]
  rfl

/-- A migration that the application allows, from its two parts. -/
theorem exec_migrate_asked {d1 d' : Disk} {s' : Store}
    (hback : Disk.exec (s.backUp path (Store.migrationInfo path s.options s.log.version).backup) d = (.ok (), d1))
    (hask : migrationAnswer path s.options s.log.version = none)
    (hset : s.log.version = 4 → ∃ l', Disk.exec (s.log.setVersion logVersion) d1 = ((.ok (), l'), d') ∧
      s' = { s with log := l' })
    (hcompact : s.log.version ≠ 4 → Disk.exec s.compact d1 = ((.ok (), s'), d')) :
    Disk.exec (s.migrate path) d = ((.ok (), s'), d') := by
  unfold Store.migrate
  refine (Disk.exec_orElse_ok hback).trans ?_
  unfold migrationAnswer at hask
  rw [hask]
  unfold Store.migrateAnswered Store.migrationInfo
  dsimp only
  by_cases h4 : s.log.version = 4
  · obtain ⟨l', hexec, rfl⟩ := hset h4
    rw [if_pos h4, Disk.exec_orElseState_ok hexec]
    rfl
  · rw [if_neg h4, Disk.exec_orElseState_ok (hcompact h4)]
    rfl

/-- A log of version 4 only gets a new header. -/
theorem exec_setVersion_v4 {header : Bytes} {recs : List (Rec 4)} (h : Backed d s path header recs)
    (hinc : s.log.incompatibleFeatures = 0) :
    ∃ l', Disk.exec (s.log.setVersion logVersion) d = ((.ok (), l'),
        (d.setContent s.log.file.inode (currentHeader ++ concat recs)).syncFile s.log.file.inode) ∧
      l'.file = s.log.file ∧
      Serves ((d.setContent s.log.file.inode (currentHeader ++ concat recs)).syncFile s.log.file.inode)
        { s with log := l' } path (recs.map (Rec.upgrade (le_refl 4))) := by
  have hbytes : writeAt (d.files s.log.file.inode).content 0
      (Header.bytes ⟨logVersion, s.log.incompatibleFeatures, s.log.readOnlyFeatures⟩) =
      currentHeader ++ concat recs := by
    rw [hinc, h.readOnlyFeatures, h.image.content]
    exact writeAt_front header (concat recs) currentHeader (by
      rw [currentHeader_length, h.image.headerLength])
  have hset := exec_setVersion h.image.isOpen logVersion d
  rw [hbytes] at hset
  refine ⟨{ s.log with version := logVersion }, hset, rfl, ?_⟩
  exact {
    image := by
      refine ⟨h.image.isOpen, rfl, currentHeader_length, ?_, ?_⟩
      · rw [Disk.content_syncFile, Disk.content_setContent, concat_upgrade]
      · rw [concat_upgrade]
        exact h.image.writePos
    pathEq := h.pathEq
    dir := h.dir
    readOnlyFeatures := h.readOnlyFeatures
    readOnlyReason := h.readOnlyReason
    closed := h.closed
    compacting := h.compacting
    index := by rw [replay_upgrade]; exact h.index
    sorted := h.sorted
    cacheWF := h.cacheWF
    cached := by rw [contents_upgrade]; exact h.cached
    noArtifacts := h.noArtifacts
    lock := h.lock
    sound := h.sound.of_dir rfl rfl }

theorem exec_migrate_v4 {header : Bytes} {recs : List (Rec 4)} (h : Backed d s path header recs)
    (hinc : s.log.incompatibleFeatures = 0) (hask : migrationAnswer path s.options s.log.version = none) :
    ∃ s' d', Disk.exec (s.migrate path) d = ((.ok (), s'), d') ∧
      Serves d' s' path (recs.map (Rec.upgrade (le_refl 4))) ∧ s'.options = s.options ∧ s'.lock = s.lock := by
  obtain ⟨d1, hback, hbacked⟩ := exec_backUp h
  obtain ⟨l', hset, -, hserves⟩ := exec_setVersion_v4 hbacked hinc
  exact ⟨_, _, exec_migrate_asked hback hask (fun _ => ⟨l', hset, rfl⟩) (absurd h.image.versionEq), hserves, rfl, rfl⟩

/-- An older log is rewritten by a compaction. -/
theorem exec_migrate_legacy {header : Bytes} (h : Backed d s path header recs) (hv : version ≠ 4)
    (hask : migrationAnswer path s.options s.log.version = none) :
    ∃ s' d', Disk.exec (s.migrate path) d = ((.ok (), s'), d') ∧ Serves d' s' path (compacted recs) ∧
      s'.options = s.options ∧ s'.lock = s.lock := by
  obtain ⟨d1, hback, hbacked⟩ := exec_backUp h
  obtain ⟨s', d', hcompact, hserves, hoptions, hlock, -⟩ := exec_compact hbacked
  refine ⟨s', d', exec_migrate_asked hback hask ?_ fun _ => hcompact, hserves, hoptions, hlock⟩
  intro h4
  exact absurd (h.image.versionEq.symm.trans h4) hv

/-! ## `Open` as a whole -/

/-- The records `Open` serves when the log reads as `recs`. -/
def migrated (recs : List (Rec version)) : List (Rec logVersion) :=
  if hv : 4 ≤ version then recs.map (Rec.upgrade hv) else compacted recs

theorem contents_migrated (recs : List (Rec version)) : contents (migrated recs) = contents recs := by
  unfold migrated
  split
  · exact contents_upgrade _ recs
  · exact contents_compacted recs

theorem migrated_current (recs : List (Rec logVersion)) : migrated recs = recs := by
  have hid : Rec.upgrade (by decide : 4 ≤ logVersion) = id := rfl
  rw [migrated, dif_pos (by decide), hid, List.map_id]

/-- The last step of `Open`, on a log of any version. -/
theorem exec_migrateOlder {b header : Bytes} (lock : FileLock) (hb : Backed d s path header recs)
    (hr : Reads b h recs) (hheader : header = b.take logHeaderSize) (hro : h.readOnlyFeatures = 0)
    (hinc : s.log.incompatibleFeatures = 0)
    (hask : version < logVersion → migrationAnswer path s.options version = none) :
    ∃ s' d', Disk.exec (migrateOlder path lock s) d = (.ok s', d') ∧ Serves d' s' path (migrated recs) ∧
      s'.options = s.options ∧ s'.lock = s.lock ∧ (version = logVersion → s' = s ∧ d' = d) := by
  obtain ⟨-, hle, -⟩ := hr.known
  have hver := hb.image.versionEq
  unfold migrateOlder
  rw [hver]
  rcases Nat.lt_or_eq_of_le hle with hlt | heq
  · rw [if_pos hlt]
    have hask' : migrationAnswer path s.options s.log.version = none := by rw [hver]; exact hask hlt
    by_cases h4 : version = 4
    · subst h4
      obtain ⟨s', d', hm, hserves, hoptions, hlock⟩ := exec_migrate_v4 hb hinc hask'
      refine ⟨s', d', ?_, ?_, hoptions, hlock, fun hv => absurd hv (by decide)⟩
      · rw [Disk.exec_orElseState_ok hm]
        rfl
      · rw [migrated, dif_pos (le_refl 4)]
        exact hserves
    · obtain ⟨s', d', hm, hserves, hoptions, hlock⟩ := exec_migrate_legacy hb h4 hask'
      refine ⟨s', d', ?_, ?_, hoptions, hlock, fun hv => absurd hv (Nat.ne_of_lt hlt)⟩
      · rw [Disk.exec_orElseState_ok hm]
        rfl
      · have hlt' : version < 5 := hlt
        rw [migrated, dif_neg (by omega)]
        exact hserves
  · subst heq
    rw [if_neg (Nat.lt_irrefl _)]
    refine ⟨s, d, rfl, ?_, rfl, rfl, fun _ => ⟨rfl, rfl⟩⟩
    rw [migrated_current, Serves, ← hr.current hro, ← hheader]
    exact hb

/-- A header, records of its version, and a rest that the scan cuts off. -/
theorem reads_of_header {header tail : Bytes} (hlen : header.length = logHeaderSize)
    (hheader : decodeHeader header = .ok h) (hv : h.version = version)
    (hcut : Cut version (logHeaderSize + (concat recs).length) tail) :
    Reads (header ++ concat recs ++ tail) h recs := by
  have htake : (header ++ concat recs ++ tail).take logHeaderSize = header := by
    rw [List.append_assoc, ← hlen, List.take_left]
  refine ⟨?_, hv, tail, by rw [htake], hcut⟩
  unfold readHeaderOf
  rw [if_neg (by simp only [List.length_append]; omega), htake, hheader]

theorem reads_current {recs : List (Rec logVersion)} {tail : Bytes}
    (hcut : Cut logVersion (logHeaderSize + (concat recs).length) tail) :
    Reads (currentHeader ++ concat recs ++ tail) ⟨logVersion, 0, 0⟩ recs :=
  reads_of_header currentHeader_length decodeHeader_current rfl hcut

theorem reads_empty : Reads currentHeader ⟨logVersion, 0, 0⟩ ([] : List (Rec logVersion)) := by
  have hcut : Cut logVersion (logHeaderSize + (concat ([] : List (Rec logVersion))).length) [] := .inl rfl
  have h := reads_current hcut
  rwa [concat_nil, List.append_nil, List.append_nil] at h

theorem Ready.settled {d' : Disk} {lock : FileLock} (hr : Ready d d' path lock)
    (hmain : recoveredMain d.dir path = some i) : Settled d' path i lock :=
  ⟨by rw [hr.main, hmain], hr.noArtifacts, hr.lockHeld, hr.sound⟩

theorem recoveredMain_bounded (hs : d.Sound) (hmain : recoveredMain d.dir path = some i) : i < d.next := by
  unfold recoveredMain at hmain
  cases h1 : d.dir path with
  | some j =>
    rw [h1, Option.some_or, Option.some.injEq] at hmain
    exact hs.bounded _ _ (hmain ▸ h1)
  | none =>
    cases h2 : d.dir (path ++ compactionReadySuffix) with
    | some j =>
      rw [h1, h2, Option.none_or, Option.some_or, Option.some.injEq] at hmain
      exact hs.bounded _ _ (hmain ▸ h2)
    | none =>
      cases h3 : d.dir (path ++ compactionBackupSuffix) with
      | some j =>
        rw [h1, h2, h3, Option.none_or, Option.none_or, Option.some_or, Option.some.injEq] at hmain
        exact hs.bounded _ _ (hmain ▸ h3)
      | none =>
        rw [h1, h2, h3, Option.none_or, Option.none_or, Option.none_or] at hmain
        exact hs.bounded _ _ hmain

/-- The opening of a log that is not there yet, or is empty. -/
theorem Ready.openFresh {d1 : Disk} {lock : FileLock} (hready : Ready d d1 path lock) (hs : d.Sound)
    (hmain : ∀ i, recoveredMain d.dir path = some i → (d.files i).content = []) :
    ∃ j l d2, Disk.exec (openAppendLogFile path) d1 = (.ok l, d2) ∧ Opened l path j ⟨logVersion, 0, 0⟩ logHeaderSize ∧
      Settled d2 path j lock ∧ (d2.files j).content = currentHeader ∧
      (d2 = d1.setContent j currentHeader ∨ d2 = (d1.create path).setContent j currentHeader) := by
  cases hdir : d1.dir path with
  | some j =>
    have hrec : recoveredMain d.dir path = some j := by rw [← hready.main, hdir]
    have hempty : (d1.files j).content = [] := by
      rw [hready.files j (recoveredMain_bounded hs hrec), hmain j hrec]
    obtain ⟨l, hopen, ho⟩ := exec_openAppendLogFile_empty hdir hempty
    exact ⟨j, l, _, hopen, ho, (hready.settled hrec).of_dir rfl rfl, by simp, .inl rfl⟩
  | none =>
    obtain ⟨l, hopen, ho⟩ := exec_openAppendLogFile_absent hdir
    have hsound := hready.sound.exec (openAppendLogFile path)
    rw [hopen] at hsound
    refine ⟨d1.next, l, _, hopen, ho, ⟨by simp, ?_, ?_, hsound⟩, by simp, .inr rfl⟩
    · intro q hq
      have hne : q ≠ path := fun heq => path_not_mem_artifacts path (heq ▸ hq)
      rw [Disk.dir_setContent, Disk.dir_create, Function.update_of_ne hne, hready.noArtifacts q hq]
    · obtain ⟨k, hk, hkdir⟩ := hready.lockHeld
      refine ⟨k, hk, ?_⟩
      rw [Disk.dir_setContent, Disk.dir_create, Function.update_of_ne (path_ne_append (by decide)).symm, hkdir]

variable {options : Options} (hacc : options.Accepted path) (hs : d.Sound) (hfree : LockFree d path)
include hacc hs hfree

/-- **`Open` on a log that reads.** -/
theorem exec_openStore_reads (hmain : recoveredMain d.dir path = some i)
    (hr : Reads (d.files i).content h recs) (hro : h.readOnlyFeatures = 0)
    (hask : version < logVersion → migrationAnswer path options.withDefaults version = none) :
    ∃ s d', Disk.exec (openStore path options) d = (.ok s, d') ∧ Serves d' s path (migrated recs) ∧
      s.options = options.withDefaults ∧
      (version = logVersion → s.log.file.inode = i ∧
        ((d.files i).synced = (d.files i).content → (d'.files i).synced = (d'.files i).content)) := by
  obtain ⟨lock, d1, hready, hexec⟩ := exec_openStore_ready hacc hs hfree
  have hset := hready.settled hmain
  have hfile : d1.files i = d.files i := hready.files i (recoveredMain_bounded hs hmain)
  have hne : (d1.files i).content ≠ [] := by
    rw [hfile, ← List.length_pos_iff]
    exact Nat.lt_of_lt_of_le (by decide) (readHeaderOf_ok hr.headerOk).1
  obtain ⟨l, hopen, ho⟩ := exec_openAppendLogFile_ok hset.dir hne (by rw [hfile]; exact hr.headerOk)
  obtain ⟨s1, d2, ⟨-, hrec⟩, ⟨htrim, -⟩, hb, hoptions, -, hs1, hinc⟩ := exec_recoverOpened options.withDefaults
    hset ho (by rw [hfile]; exact hr) hro
  obtain ⟨s', d', hmig, hserves, hoptions', -, hcurrent⟩ := exec_migrateOlder lock hb
    (by rw [hfile]; exact hr) rfl hro (by rw [hinc]; exact hr.known.2.2.1) (by rw [hoptions]; exact hask)
  refine ⟨s', d', ?_, hserves, by rw [hoptions', hoptions], ?_⟩
  · rw [hexec, Disk.exec_orElse_ok hopen, hrec, hmig]
  · intro hv
    obtain ⟨rfl, rfl⟩ := hcurrent hv
    refine ⟨by rw [hs1], ?_⟩
    intro hsynced
    rw [htrim.durable (by rw [hfile]; exact hsynced), htrim.content]

/-- **`Open` where there is no log yet.** -/
theorem exec_openStore_fresh
    (hmain : ∀ i, recoveredMain d.dir path = some i → (d.files i).content = []) :
    ∃ s d', Disk.exec (openStore path options) d = (.ok s, d') ∧ Serves d' s path [] ∧
      s.options = options.withDefaults := by
  obtain ⟨lock, d1, hready, hexec⟩ := exec_openStore_ready hacc hs hfree
  obtain ⟨j, l, d2, hopen, ho, hset, hcontent, -⟩ := hready.openFresh hs hmain
  have hr : Reads (d2.files j).content ⟨logVersion, 0, 0⟩ ([] : List (Rec logVersion)) := by
    rw [hcontent]
    exact reads_empty
  obtain ⟨s1, d3, ⟨-, hrec⟩, -, hb, hoptions, -, -, hinc⟩ := exec_recoverOpened options.withDefaults
    hset (by rw [hcontent, currentHeader_length]; exact ho) hr rfl
  obtain ⟨s', d', hmig, hserves, hoptions', -⟩ := exec_migrateOlder lock hb hr rfl rfl hinc
    (fun hlt => absurd hlt (Nat.lt_irrefl _))
  refine ⟨s', d', ?_, ?_, by rw [hoptions', hoptions]⟩
  · rw [hexec, Disk.exec_orElse_ok hopen, hrec, hmig]
  · rwa [migrated_current] at hserves

omit hacc hs hfree

/-! ## `Close` -/

/-- A log at rest: no store has it open. -/
structure Resting (d : Disk) (path : Path) (recs : List (Rec logVersion)) : Prop where
  main : ∃ i, d.dir path = some i ∧ (d.files i).content = currentHeader ++ concat recs
  noArtifacts : ∀ q ∈ artifacts path, d.dir q = none
  lockFree : LockFree d path
  sound : d.Sound

theorem exec_release {i : ℕ} {lock : FileLock} (hlock : lock.file = some ⟨i, true⟩) (d : Disk) :
    Disk.exec lock.release d = ((none, ⟨none⟩), d.setLock i false) := by
  unfold FileLock.release
  rw [hlock]
  dsimp only
  rw [Disk.exec_bind_eq (Disk.exec_funlock rfl d), Disk.exec_bind_eq (Disk.exec_close rfl _)]
  rfl

/-- The store after `Close`. -/
def Store.shut (s : Store) : Store :=
  { s with
    closed := true
    log := { s.log with mapped := none, file := { s.log.file with isOpen := false } }
    lock := ⟨none⟩ }

/-- What `Close` does to the disk: it may sync the log, and it gives the lock back. -/
theorem exec_close_disk (hclosed : s.closed = false) (hopen : s.log.file.isOpen = true)
    (hlock : s.lock.file = some ⟨i, true⟩) (d : Disk) :
    ∃ d1 : Disk, Disk.exec s.close d = ((none, s.shut), d1.setLock i false) ∧ d1.dir = d.dir ∧ d1.next = d.next ∧
      ∀ j, (d1.files j).content = (d.files j).content := by
  obtain ⟨d1, hsync, hdir, hnext, hcontent⟩ : ∃ d1,
      Disk.exec ({ s with closed := true } : Store).closingSync d = (.ok (), d1) ∧
      d1.dir = d.dir ∧ d1.next = d.next ∧ ∀ j, (d1.files j).content = (d.files j).content := by
    unfold Store.closingSync
    split
    · exact ⟨_, exec_syncLog hopen d, rfl, rfl, fun j => by simp⟩
    · exact ⟨d, rfl, rfl, rfl, fun _ => rfl⟩
  refine ⟨d1, ?_, hdir, hnext, hcontent⟩
  unfold Store.close
  rw [if_neg (by rw [hclosed]; exact Bool.false_ne_true)]
  dsimp only
  refine (Disk.exec_bind_eq hsync _).trans ?_
  rw [Disk.exec_bind_eq (exec_closeLog hopen d1), Disk.exec_bind_eq (exec_release hlock d1)]
  rfl

/-- **`Close` leaves the log at rest.** -/
theorem exec_close {recs : List (Rec logVersion)} (hb : Serves d s path recs) :
    ∃ s' d', Disk.exec s.close d = ((none, s'), d') ∧ Resting d' path recs := by
  obtain ⟨i, hlock, hlockdir⟩ := hb.lock
  obtain ⟨d1, hclose, hdir1, hnext1, hcontent1⟩ := exec_close_disk hb.closed hb.image.isOpen hlock d
  refine ⟨s.shut, d1.setLock i false, hclose, ⟨⟨s.log.file.inode, ?_, ?_⟩, ?_, ?_, ?_⟩⟩
  · rw [Disk.dir_setLock, hdir1, hb.dir]
  · rw [Disk.files_setLock, hcontent1, hb.image.content]
  · rw [Disk.dir_setLock, hdir1]
    exact hb.noArtifacts
  · intro j hj
    rw [Disk.dir_setLock, hdir1, hlockdir, Option.some.injEq] at hj
    rw [← hj, Disk.locked_setLock]
  · exact hb.sound.of_dir hdir1 hnext1

theorem Resting.recoveredMain {recs : List (Rec logVersion)} (hrest : Resting d path recs) :
    ∃ i, recoveredMain d.dir path = some i ∧ (d.files i).content = currentHeader ++ concat recs := by
  obtain ⟨i, hdir, hcontent⟩ := hrest.main
  refine ⟨i, ?_, hcontent⟩
  rw [AppendStore.recoveredMain, hdir]
  rfl

/-- Opening a complete log of the current version, wherever recovery finds it. -/
theorem exec_openStore_current {recs : List (Rec logVersion)} (hacc : options.Accepted path) (hs : d.Sound)
    (hfree : LockFree d path) (hmain : AppendStore.recoveredMain d.dir path = some i)
    (hcontent : (d.files i).content = currentHeader ++ concat recs) :
    ∃ s d', Disk.exec (openStore path options) d = (.ok s, d') ∧ Serves d' s path recs ∧
      s.options = options.withDefaults := by
  have hcut : Cut logVersion (logHeaderSize + (concat recs).length) [] := .inl rfl
  have hr := reads_current hcut
  rw [List.append_nil, ← hcontent] at hr
  obtain ⟨s, d', hexec, hserves, hoptions, -⟩ := exec_openStore_reads hacc hs hfree hmain hr rfl
    (fun hlt => absurd hlt (Nat.lt_irrefl _))
  rw [migrated_current] at hserves
  exact ⟨s, d', hexec, hserves, hoptions⟩

/-- **Opening a log at rest.** -/
theorem exec_openStore_resting {recs : List (Rec logVersion)} (hrest : Resting d path recs)
    (hacc : options.Accepted path) :
    ∃ s d', Disk.exec (openStore path options) d = (.ok s, d') ∧ Serves d' s path recs ∧
      s.options = options.withDefaults := by
  obtain ⟨i, hmain, hcontent⟩ := hrest.recoveredMain
  exact exec_openStore_current hacc hrest.sound hrest.lockFree hmain hcontent

end

end AppendStore
