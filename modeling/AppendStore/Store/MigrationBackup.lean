import AppendStore.Store.DowngradeSource

/-! # The backup that a migration reports

Before `Open` asks the application about a migration it copies the log to a name made of the path and the
old version, unless a file of that name is there already. `openToAsk` is `Open` up to that question, and
`OpenProgress.finish` the rest of it. A store that is migrated, written to, taken back to its old version and
migrated again meets the backup of the first migration. The backup is the log being migrated exactly if there
was none, or one that held the same bytes (`migration_backup_iff`).
-/

namespace AppendStore
open Library
set_option autoImplicit false

/-! ## `Open` up to the question -/

/-- `Open` has ended, or it asks the application about a migration. -/
inductive OpenProgress
  | ended (r : Except Err Store)
  | asking (info : MigrationInfo) (s : Store) (lock : FileLock)

def askMigration (path : Path) (lock : FileLock) (s : Store) : FileProg OpenProgress :=
  if s.log.version < logVersion then
    (s.backUp path (Store.migrationInfo path s.options s.log.version).backup).orElse
      (fun e => do
        let _ ← s.log.close
        let _ ← lock.release
        pure (.ended (.error e)))
      fun _ => pure (.asking (Store.migrationInfo path s.options s.log.version) s lock)
  else pure (.ended (.ok s))

/-- `Open` up to the question. -/
def openToAsk (path : Path) (options : Options) : FileProg OpenProgress :=
  openWith (fun e => .ended (.error e)) path options (askMigration path)

/-- The rest of `Open`. -/
def OpenProgress.finish : OpenProgress → FileProg (Except Err Store)
  | ended r => pure r
  | asking info s lock =>
    (s.migrateAnswered info (s.options.onMigrate.bind fun f => f info)).orElseState
      (fun e s => do
        let _ ← s.log.close
        let _ ← lock.release
        pure (.error e))
      fun _ s => pure (.ok s)

/-- A failed `Open` closes the log and gives the lock back. -/
theorem finish_givenUp (log : AppendLog) (lock : FileLock) (e : Err) :
    (do
      let _ ← log.close
      let _ ← lock.release
      pure (.ended (.error e)) : FileProg OpenProgress) >>= OpenProgress.finish = (do
      let _ ← log.close
      let _ ← lock.release
      pure (.error e)) := by
  rw [Prog.bind_assoc]
  refine congrArg (fun f => log.close >>= f) (funext fun _ => ?_)
  rw [Prog.bind_assoc]
  rfl

theorem migrateOlder_eq_ask (path : Path) (lock : FileLock) (s : Store) :
    migrateOlder path lock s = askMigration path lock s >>= OpenProgress.finish := by
  unfold migrateOlder askMigration
  split
  · unfold Store.migrate
    dsimp only
    rw [Prog.orElse_bind]
    unfold Prog.orElseState
    rw [Prog.orElse_bind]
    refine congrArg (fun bad => Prog.orElse _ bad _) (funext fun e => ?_)
    exact (finish_givenUp s.log lock e).symm
  · rfl

/-- `Open` is `openToAsk` and the rest. -/
theorem openStore_eq_ask (path : Path) (options : Options) :
    openStore path options = openToAsk path options >>= OpenProgress.finish := by
  have hrecover : ∀ (options : Options) (lock : FileLock) (log : AppendLog),
      recoverWith .error options lock log (migrateOlder path) =
        recoverWith (fun e => .ended (.error e)) options lock log (askMigration path) >>= OpenProgress.finish := by
    intro options lock log
    unfold recoverWith
    rw [Prog.orElseState_bind]
    congr 1
    · funext e s
      exact (finish_givenUp s.log lock _).symm
    · funext _ s
      exact migrateOlder_eq_ask path lock s
  unfold openStore openToAsk openWith
  split
  · rfl
  dsimp only
  split
  · rfl
  split
  · rfl
  rw [Prog.orElse_bind]
  congr 1
  funext lock
  rw [Prog.orElse_bind]
  congr 1
  · funext e
    rw [Prog.bind_assoc]
    rfl
  · funext log
    exact hrecover options.withDefaults lock log

/-- What `Open` tells the application, if it asks it about a migration, and the disk at that moment. -/
def asked (path : Path) (options : Options) (d : Disk) : Option (MigrationInfo × Disk) :=
  if options.onMigrate.isSome then
    match Disk.exec (openToAsk path options) d with
    | (.asking info _ _, d') => some (info, d')
    | (.ended _, _) => none
  else none

/-! ## What `Open` has found when it asks -/

section
variable {d d' : Disk} {path : Path} {options : Options} {info : MigrationInfo} {i : ℕ}

theorem asked_some (h : asked path options d = some (info, d')) :
    ∃ s lock, Disk.exec (openToAsk path options) d = (.asking info s lock, d') := by
  unfold asked at h
  split at h
  · rcases hexec : Disk.exec (openToAsk path options) d with ⟨r, d1⟩
    rw [hexec] at h
    cases r with
    | ended r => cases h
    | asking info' s lock =>
      obtain ⟨rfl, rfl⟩ := Prod.mk.inj (Option.some.inj h)
      exact ⟨s, lock, rfl⟩
  · cases h

/-- A log of the current version is not migrated. -/
theorem exec_recoverWith_current {l : AppendLog} (hl : l.version = logVersion) (path : Path) (options : Options)
    (lock : FileLock) (d : Disk) :
    ∃ r d', Disk.exec (recoverWith (fun e => .ended (.error e)) options lock l (askMigration path)) d =
      (.ended r, d') := by
  have hsame : l.SameFile (Disk.exec (l.iterate Store.recoverRecord
      (newIndex options.indexedFields, newLRUCache options.cacheSize.toNat)) d).1.1.2 :=
    ((calls_iterate (P := fun _ => True) (fun _ _ => trivial) Store.recoverRecord _).run
      (I := fun _ => True) (fun _ _ _ _ => trivial) trivial).2
  rcases hit : Disk.exec (l.iterate Store.recoverRecord
      (newIndex options.indexedFields, newLRUCache options.cacheSize.toNat)) d with ⟨⟨⟨r, l'⟩, index, cache⟩, d1⟩
  rw [hit] at hsame
  have hrec : Disk.exec (newStore options lock l).recover d = ((r, { newStore options lock l with
      log := l'
      index := index
      cache := cache }), d1) := (Disk.exec_bind_eq hit _).trans rfl
  unfold recoverWith
  cases r with
  | error e =>
    rw [Disk.exec_orElseState_error hrec, Disk.exec_bind, Disk.exec_bind]
    exact ⟨_, _, rfl⟩
  | ok a =>
    rw [Disk.exec_orElseState_ok hrec]
    unfold askMigration
    rw [if_neg]
    · exact ⟨_, _, rfl⟩
    · rw [hsame.version, hl]
      exact Nat.lt_irrefl _

/-- The disk from which the backup is made: the log is found and scanned, and no backup has changed. -/
structure ToBackUp (d d' : Disk) (path : Path) (i : ℕ) (b : Bytes) : Prop where
  main : d'.dir path = some i
  content : (d'.files i).content = b
  sound : d'.Sound
  backups : ∀ v, d'.dir (Store.migrationBackup path v) = d.dir (Store.migrationBackup path v)
  files : ∀ j, j < d.next → j ≠ i → d'.files j = d.files j

theorem migrationBackup_not_own (path : Path) (v : ℕ) {suffix : String} (h : suffix ∈ ownSuffixes) :
    Store.migrationBackup path v ≠ path ++ suffix := by
  have hne : suffix.toList[1]? ≠ some 'v' := by
    revert suffix
    decide
  have h := ne_migrationBackup path v "" hne
  rw [String.append_empty] at h
  exact h.symm

theorem migrationBackup_ne_path (path : Path) (v : ℕ) : Store.migrationBackup path v ≠ path := by
  have hne := migrationBackup_not_own path v (show "" ∈ ownSuffixes by decide)
  rwa [String.append_empty] at hne

theorem Ready.toBackUp {d1 d2 : Disk} {lock : FileLock} {b : Bytes} (hr : Ready d d1 path lock)
    (hmain : recoveredMain d.dir path = some i) (htouched : Touched d1 d2 i) (hcontent : (d2.files i).content = b) :
    ToBackUp d d2 path i b := by
  refine ⟨?_, hcontent, ?_, ?_, ?_⟩
  · rw [htouched.dir, hr.main, hmain]
  · exact hr.sound.of_dir htouched.dir htouched.next
  · intro v
    rw [htouched.dir]
    refine hr.names _ (migrationBackup_ne_path path v) ?_ (migrationBackup_not_own path v (by decide))
    intro hmem
    obtain ⟨t, ht, heq⟩ := mem_artifacts.mp hmem
    refine migrationBackup_not_own path v ?_ heq
    clear heq hmem
    revert t
    decide
  · intro j hj hne
    rw [htouched.others j hne, hr.files j hj]

/-- **What `Open` has found when it asks**: a log of an older version that reads. The question follows the
backup. -/
theorem asked_log (hs : d.Sound) (h : asked path options d = some (info, d')) :
    ∃ (version i : ℕ) (hdr : Header) (recs : List (Rec version)) (d2 : Disk) (s : Store),
      recoveredMain d.dir path = some i ∧ Reads (d.files i).content hdr recs ∧ version < logVersion ∧
      info = Store.migrationInfo path options.withDefaults version ∧
      ToBackUp d d2 path i ((d.files i).content.take logHeaderSize ++ concat recs) ∧
      s.options = options.withDefaults ∧ Disk.exec (s.backUp path info.backup) d2 = (.ok (), d') := by
  obtain ⟨s0, lock0, hask⟩ := asked_some h
  rw [openToAsk] at hask
  have hended : ∀ {r d1}, Disk.exec (openWith (fun e => .ended (.error e)) path options (askMigration path)) d ≠
      (.ended r, d1) := by
    intro r d1 he
    rw [hask] at he
    cases he
  have hacc : options.Accepted path := by
    by_contra hacc
    obtain ⟨e, he⟩ := exec_openWith_rejected hacc d
    exact hended he
  have hfree : LockFree d path := by
    by_contra hfree
    exact hended (exec_openWith_locked hacc hfree)
  obtain ⟨lock, d1, hready, hexec⟩ := exec_openWith_ready (fun e => .ended (.error e)) (askMigration path) hacc hs hfree
  have hcurrent : ∀ {l d2}, Disk.exec (openAppendLogFile path) d1 = (.ok l, d2) → l.version ≠ logVersion := by
    intro l d2 hopen hl
    obtain ⟨r, d3, hr⟩ := exec_recoverWith_current hl path options.withDefaults lock d2
    rw [hexec, Disk.exec_orElse_ok hopen] at hask
    rw [hr] at hask
    cases hask
  cases hmain : recoveredMain d.dir path with
  | none =>
    obtain ⟨l, hopen, ho⟩ := exec_openAppendLogFile_absent (d := d1) (by rw [hready.main, hmain])
    exact absurd ho.version (hcurrent hopen)
  | some i =>
    have hset := hready.settled hmain
    have hfile : d1.files i = d.files i := hready.files i (recoveredMain_bounded hs hmain)
    by_cases hempty : (d1.files i).content = []
    · obtain ⟨l, hopen, ho⟩ := exec_openAppendLogFile_empty hset.dir hempty
      exact absurd ho.version (hcurrent hopen)
    cases hheader : readHeaderOf (d1.files i).content with
    | error e =>
      rw [hexec, Disk.exec_orElse_error (exec_openAppendLogFile_error hset.dir hempty hheader), Disk.exec_bind] at hask
      cases hask
    | ok hdr =>
      obtain ⟨l, hopen, ho⟩ := exec_openAppendLogFile_ok hset.dir hempty hheader
      rw [hexec, Disk.exec_orElse_ok hopen, recoverWith] at hask
      have hisOpen : l.file.isOpen = true := by rw [ho.file]
      have hlen := (readHeaderOf_ok hheader).1
      obtain ⟨recs, rest, hrest, hstop⟩ := parse_exists hdr.version logHeaderSize
        ((d1.files i).content.drop logHeaderSize)
      have hcontent : (d1.files i).content = (d1.files i).content.take logHeaderSize ++ concat recs ++ rest := by
        rw [List.append_assoc, ← hrest, List.take_append_drop]
      by_cases hcut : Cut hdr.version (logHeaderSize + (concat recs).length) rest
      · have hr : Reads (d1.files i).content hdr recs := ⟨hheader, rfl, rest, hcontent, hcut⟩
        have hlt : hdr.version < logVersion :=
          Nat.lt_of_le_of_ne hr.known.2.1 fun heq => hcurrent hopen (ho.version.trans heq)
        obtain ⟨l', d2, hit, htrim, htouched, hsame, -⟩ := exec_iterate_reads recoverRecord_eq ho hr
          (hr.known.2.2.2.1 hlt) (newIndex options.withDefaults.indexedFields,
            newLRUCache options.withDefaults.cacheSize.toNat)
        have hver : l'.version = hdr.version := by rw [hsame.version, ho.version]
        have hrec : Disk.exec (newStore options.withDefaults lock l).recover d1 = _ := exec_recover_of_iterate hit
        obtain ⟨s1, hs1⟩ : ∃ s1, s1 = ({ newStore options.withDefaults lock l with
          log := l'
          index := replay options.withDefaults.indexedFields recs } : Store) := ⟨_, rfl⟩
        have hoptions : s1.options = options.withDefaults := by rw [hs1]; rfl
        have hver1 : s1.log.version = hdr.version := by rw [hs1]; exact hver
        rw [← hs1] at hrec
        rw [Disk.exec_orElseState_ok hrec, askMigration, hver1, hoptions, if_pos hlt] at hask
        rcases hback : Disk.exec (s1.backUp path (Store.migrationInfo path options.withDefaults hdr.version).backup)
          d2 with
          ⟨r, d3⟩
        cases r with
        | error e =>
          rw [Disk.exec_orElse_error hback, Disk.exec_bind, Disk.exec_bind] at hask
          cases hask
        | ok a =>
          rw [Disk.exec_orElse_ok hback] at hask
          cases hask
          rw [hfile] at hr htrim
          exact ⟨hdr.version, i, hdr, recs, d2, _, rfl, hr, hlt, rfl,
            hready.toBackUp hmain htouched htrim.content, hoptions, hback⟩
      · have hnil : rest ≠ [] := fun hnil => hcut (.inl hnil)
        obtain ⟨e, he⟩ := hstop.resolve_left hnil
        have heof : e.isEOF = false := by
          by_contra heof
          exact hcut (.inr ⟨e, he, by simpa using heof⟩)
        have hit := exec_iterate_failed recoverRecord_eq hisOpen (by rw [ho.writePos, ho.file]) ho.version
          (by rw [List.length_take, Nat.min_eq_left hlen]) (by rw [ho.file]; exact hcontent)
          (newIndex options.withDefaults.indexedFields, newLRUCache options.withDefaults.cacheSize.toNat) hnil he heof
        rw [Disk.exec_orElseState_error (exec_recover_of_iterate hit), Disk.exec_bind, Disk.exec_bind] at hask
        cases hask

/-! ## The backup and the log -/

/-- The log without the incomplete record at its end. -/
def WholeLog (b c : Bytes) : Prop :=
  ∃ (version : ℕ) (recs : List (Rec version)) (h : Header), Reads b h recs ∧ c = b.take logHeaderSize ++ concat recs

/-- Where `Open` would put the backup of the log it finds there is no file, or one that holds that log. -/
def BackupCurrent (d : Disk) (path : Path) : Prop :=
  ∀ b h c, readableLog d path = some b → readHeaderOf b = .ok h →
    d.bytesAt (Store.migrationBackup path h.version) = some c → WholeLog b c

/-- The reported backup holds the bytes of the log, and a disk with the backup as the log opens to what the log
holds. -/
structure BackupHolds (info : MigrationInfo) (d : Disk) : Prop where
  same : d.bytesAt info.backup = d.bytesAt info.path
  restores : ∃ (version : ℕ) (recs : List (Rec version)) (h : Header) (b : Bytes),
    d.bytesAt info.path = some b ∧ Reads b h recs ∧ ∀ (d2 : Disk) (options : Options), d2.Sound →
      readableLog d2 info.path = d.bytesAt info.backup → LockFree d2 info.path → options.Accepted info.path →
      migrationAnswer info.path options.withDefaults version = none →
      ∃ s d3, Disk.exec (openStore info.path options) d2 = (.ok s, d3) ∧ Answers d3 s (contents recs)

theorem WholeLog.eq {version : ℕ} {b c : Bytes} {h : Header} {recs : List (Rec version)} (hr : Reads b h recs)
    (hc : WholeLog b c) : c = b.take logHeaderSize ++ concat recs := by
  obtain ⟨version', recs', h', hr', rfl⟩ := hc
  have hsame := hr'.headerOk.symm.trans hr.headerOk
  cases hsame
  obtain rfl := hr.versionEq.symm.trans hr'.versionEq
  rw [hr.unique hr']

/-- The log at the moment of the question, and the backup: the file that was there before, or else a copy. -/
theorem bytesAt_asked {version : ℕ} {d2 : Disk} {s : Store} {b : Bytes}
    (hback : ToBackUp d d2 path i b) (hno : s.options.noMigrationBackup = false)
    (hexec : Disk.exec (s.backUp path (Store.migrationBackup path version)) d2 = (.ok (), d')) :
    d'.bytesAt path = some b ∧ d'.bytesAt (Store.migrationBackup path version) =
      some ((d2.bytesAt (Store.migrationBackup path version)).getD b) := by
  have hne := ne_migrationBackup path version migrationBackupTempSuffix
    (show ("" : String).toList[1]? ≠ some 'v' by decide)
  rw [String.append_empty] at hne
  obtain ⟨d3, hcopy, hcopied, hbytes⟩ := exec_copyLogFile hback.sound hback.main hne
  unfold Store.backUp at hexec
  rw [if_neg (by rw [hno]; exact Bool.false_ne_true), Disk.exec_orElse_ok hcopy] at hexec
  obtain rfl : d3 = d' := (Prod.mk.inj hexec).2
  refine ⟨?_, ?_⟩
  · have hdir := hcopied.own (t := "") (by decide)
    rw [String.append_empty, hback.main] at hdir
    rw [Disk.bytesAt, hdir, Option.map_some, hcopied.files path i hne hback.main, hback.content]
  · rw [hbytes, Disk.bytesAt]
    cases d2.dir (Store.migrationBackup path version) with
    | none => rw [Option.elim_none, hback.content, Option.map_none, Option.getD_none]
    | some j => rfl

/-- What is under the name of a backup has not changed when the backup is made. -/
theorem ToBackUp.bytesAt {d2 : Disk} {b : Bytes} (h : ToBackUp d d2 path i b) (hs : d.Sound) (v : ℕ) :
    d2.bytesAt (Store.migrationBackup path v) = d.bytesAt (Store.migrationBackup path v) := by
  rw [Disk.bytesAt, Disk.bytesAt, h.backups v]
  cases hdir : d.dir (Store.migrationBackup path v) with
  | none => rfl
  | some j =>
    have hj : j ≠ i := by
      rintro rfl
      exact migrationBackup_ne_path path v (h.sound.distinct _ _ _ ((h.backups v).trans hdir) h.main)
    rw [Option.map_some, Option.map_some, h.files j (hs.bounded _ _ hdir) hj]

/-- A disk with a log of an older version opens to what the log holds. -/
theorem exec_openStore_restored {version : ℕ} {recs : List (Rec version)} {h : Header} {b : Bytes}
    (hr : Reads b h recs) (hlt : version < logVersion) (hs : d.Sound) (hlog : readableLog d path = some b)
    (hfree : LockFree d path) (hacc : options.Accepted path)
    (hask : migrationAnswer path options.withDefaults version = none) :
    ∃ s d3, Disk.exec (openStore path options) d = (.ok s, d3) ∧ Answers d3 s (contents recs) := by
  obtain ⟨j, hmain, hj⟩ := Option.map_eq_some_iff.mp hlog
  rw [← hj] at hr
  obtain ⟨s, d3, hopen, hserves, -⟩ := exec_openStore_reads hacc hs hfree hmain hr (hr.known.2.2.2.1 hlt) fun _ => hask
  refine ⟨s, d3, hopen, ?_⟩
  rw [← contents_migrated]
  exact hserves.answers

/-- A front part that ends after a record reads as the records before. -/
theorem Reads.whole {version : ℕ} {recs : List (Rec version)} {h : Header} {b : Bytes} (hr : Reads b h recs) :
    Reads (b.take logHeaderSize ++ concat recs) h recs := by
  have hcut : Cut version (logHeaderSize + (concat recs).length) [] := .inl rfl
  have hwhole := reads_of_header hr.headerLength (readHeaderOf_ok hr.headerOk).2 hr.versionEq hcut
  rwa [List.append_nil] at hwhole

/-- One `Open`: the backup holds the log exactly if it was not there before or held it already. -/
theorem backupHolds_iff (hs : d.Sound) (hno : options.noMigrationBackup = false)
    (hask : asked path options d = some (info, d')) : BackupHolds info d' ↔ BackupCurrent d path := by
  obtain ⟨version, i, hdr, recs, d2, s, hmain, hr, hlt, rfl, hback, hoptions, hexec⟩ := asked_log hs hask
  have hno' : options.withDefaults.noMigrationBackup = false := by
    rw [← hno, Options.withDefaults]
    split <;> split <;> rfl
  have hbackup : (Store.migrationInfo path options.withDefaults version).backup = Store.migrationBackup path version :=
    if_neg (by rw [hno']; exact Bool.false_ne_true)
  rw [hbackup] at hexec
  obtain ⟨hlog, hcopy⟩ := bytesAt_asked hback (by rw [hoptions]; exact hno') hexec
  rw [hback.bytesAt hs] at hcopy
  have hfound : readableLog d path = some (d.files i).content := by
    rw [readableLog, hmain]
    rfl
  constructor
  · intro hholds b h c hb hh hc
    obtain rfl := Option.some.inj (hfound.symm.trans hb)
    have hsame := hh.symm.trans hr.headerOk
    cases hsame
    rw [hr.versionEq] at hc
    have heq := hholds.same
    rw [hbackup, hcopy, hc, Option.getD_some] at heq
    exact ⟨version, recs, hdr, hr, Option.some.inj (heq.trans hlog)⟩
  · intro hcurrent
    have hsame : d'.bytesAt (Store.migrationBackup path version) = d'.bytesAt path := by
      rw [hcopy, hlog]
      cases hold : d.bytesAt (Store.migrationBackup path version) with
      | none => rfl
      | some c =>
        have hc := hcurrent _ hdr c hfound hr.headerOk (by rw [hr.versionEq]; exact hold)
        rw [Option.getD_some, hc.eq hr]
    refine ⟨by rw [hbackup]; exact hsame, version, recs, hdr, _, hlog, hr.whole, ?_⟩
    intro d3 options3 hs3 hlog3 hfree3 hacc3 hask3
    rw [hbackup, hsame] at hlog3
    exact exec_openStore_restored hr.whole hlt hs3 (hlog3.trans hlog) hfree3 hacc3 hask3

end

/-! ## Upgrades and rollbacks -/

/-- What is done to a store over its life: `rollBack` puts the output of a downgrade at the path of the store. -/
inductive LifeStep
  | openStore (options : Options)
  | put (key value : Bytes) (attributes : Option AttributeRange)
  | delete (key : Bytes)
  | compact
  | close
  | rollBack (dst : Path) (options : DowngradeOptions)

/-- The disk, and the store that is open. -/
structure Life where
  disk : Disk
  store : Option Store

/-- A call on the store, if one is open. -/
def Life.call {α : Type} (w : Life) (f : Store → FileProg (α × Store)) : Life :=
  match w.store with
  | none => w
  | some s => ⟨(Disk.exec (f s) w.disk).2, some (Disk.exec (f s) w.disk).1.2⟩

def LifeStep.run (path : Path) (w : Life) : LifeStep → Life
  | openStore options =>
    match Disk.exec (AppendStore.openStore path options) w.disk with
    | (.ok s, d) => ⟨d, some s⟩
    | (.error _, d) => ⟨d, w.store⟩
  | put key value attributes => w.call fun s => s.put key value attributes
  | delete key => w.call fun s => s.delete key
  | compact => w.call fun s => s.compact
  | close =>
    match w.store with
    | none => w
    | some s => ⟨(Disk.exec s.close w.disk).2, none⟩
  | rollBack dst options =>
    match Disk.exec (downgrade path dst options) w.disk with
    | (.ok _, d) => ⟨(Disk.exec (Sys.rename dst path) d).2, w.store⟩
    | (.error _, d) => ⟨d, w.store⟩

/-- The life of a store at a path that starts with no store open. -/
def lived (path : Path) (d : Disk) (steps : List LifeStep) : Life :=
  steps.foldl (LifeStep.run path) ⟨d, none⟩

theorem LifeStep.run_sound {path : Path} {w : Life} (hs : w.disk.Sound) (step : LifeStep) :
    (step.run path w).disk.Sound := by
  have hcall : ∀ {α : Type} (f : Store → FileProg (α × Store)), (w.call f).disk.Sound := by
    intro α f
    unfold Life.call
    split
    · exact hs
    · exact hs.exec _
  cases step with
  | openStore options =>
    have hopen := hs.exec (AppendStore.openStore path options)
    rw [LifeStep.run]
    rcases hexec : Disk.exec (AppendStore.openStore path options) w.disk with ⟨r, d⟩
    rw [hexec] at hopen
    cases r <;> exact hopen
  | put key value attributes => exact hcall _
  | delete key => exact hcall _
  | compact => exact hcall _
  | close =>
    rw [LifeStep.run]
    split
    · exact hs
    · exact hs.exec _
  | rollBack dst options =>
    have hdown := hs.exec (downgrade path dst options)
    rw [LifeStep.run]
    rcases hexec : Disk.exec (downgrade path dst options) w.disk with ⟨r, d⟩
    rw [hexec] at hdown
    cases r with
    | error e => exact hdown
    | ok a => exact hdown.exec _

theorem lived_sound {path : Path} {d : Disk} (hs : d.Sound) (steps : List LifeStep) :
    (lived path d steps).disk.Sound := by
  unfold lived
  induction steps using List.reverseRecOn with
  | nil => exact hs
  | append_singleton steps step ih =>
    rw [List.foldl_concat]
    exact step.run_sound ih

/-- **When the reported backup is the log being migrated.** In any life of a store, an `Open` that makes
backups and asks the application about a migration reports a backup that holds the log of that moment exactly if,
before that `Open`, no backup of that version was there, or one that held the log. -/
theorem migration_backup_iff {d : Disk} (hs : d.Sound) (path : Path) (steps : List LifeStep) {options : Options}
    (hno : options.noMigrationBackup = false) {info : MigrationInfo} {d' : Disk}
    (hask : asked path options (lived path d steps).disk = some (info, d')) :
    BackupHolds info d' ↔ BackupCurrent (lived path d steps).disk path :=
  backupHolds_iff (lived_sound hs steps) hno hask

/-- An application that wants every migration. -/
def agreeing : Options := { Options.zero with onMigrate := some fun _ => none }

/-- A log of version 4 with one record. -/
def oneRecordV4 : Bytes := v4Header ++ concat [(shortRec 1 2).rewrittenV4]

theorem reads_v4 (recs : List (Rec 4)) : Reads (v4Header ++ concat recs) ⟨4, 0, 0⟩ recs := by
  have hcut : Cut 4 (logHeaderSize + (concat recs).length) [] := .inl rfl
  have hheader : decodeHeader v4Header = .ok ⟨4, 0, 0⟩ := by decide
  have hreads := reads_of_header (by decide) hheader rfl hcut
  rwa [List.append_nil] at hreads

/-- A migration that is taken back, with the given steps before the store is closed. -/
def takenBack (steps : List LifeStep) : List LifeStep :=
  [.openStore agreeing] ++ steps ++ [.close, .rollBack "old" ⟨4, false⟩]

/-- The log and the backup that the second migration finds. -/
def foundAgain (steps : List LifeStep) : Option Bytes × Option Bytes :=
  let d := (lived "db" (logDisk oneRecordV4) (takenBack steps)).disk
  (readableLog d "db", d.bytesAt (Store.migrationBackup "db" 4))

/-- After a migration that is taken back, a second one finds a backup. It holds the log if nothing was written in
between, and does not if there was a `Put`. -/
theorem migration_backup_again :
    (∃ info d', asked "db" agreeing (lived "db" (logDisk oneRecordV4) (takenBack [])).disk = some (info, d') ∧
      foundAgain [] = (some oneRecordV4, some oneRecordV4) ∧ BackupHolds info d') ∧
    ∃ info d', asked "db" agreeing (lived "db" (logDisk oneRecordV4) (takenBack [.put [3] [4] none])).disk =
      some (info, d') ∧ ¬ BackupHolds info d' := by
  have hs := (logDisk_openable oneRecordV4).sound
  have hfound : foundAgain [] = (some oneRecordV4, some oneRecordV4) := by decide +kernel
  have hfound' : foundAgain [.put [3] [4] none] =
      (some (v4Header ++ concat [(shortRec 1 2).rewrittenV4, (shortRec 3 4).rewrittenV4]), some oneRecordV4) := by
    decide +kernel
  obtain ⟨hlog, hbackup⟩ := Prod.mk.inj hfound
  obtain ⟨hlog', hbackup'⟩ := Prod.mk.inj hfound'
  have hasks : (asked "db" agreeing (lived "db" (logDisk oneRecordV4) (takenBack [])).disk).isSome = true := by
    decide +kernel
  have hasks' : (asked "db" agreeing (lived "db" (logDisk oneRecordV4)
      (takenBack [.put [3] [4] none])).disk).isSome = true := by
    decide +kernel
  obtain ⟨⟨info, d1⟩, hask⟩ := Option.isSome_iff_exists.mp hasks
  obtain ⟨⟨info', d2⟩, hask'⟩ := Option.isSome_iff_exists.mp hasks'
  refine ⟨⟨info, d1, hask, hfound, (migration_backup_iff hs "db" _ rfl hask).mpr ?_⟩, info', d2, hask', ?_⟩
  · intro b h c hb hh hc
    obtain rfl := Option.some.inj (hlog.symm.trans hb)
    obtain rfl : (⟨4, 0, 0⟩ : Header) = h := Except.ok.inj ((reads_v4 _).headerOk.symm.trans hh)
    obtain rfl := Option.some.inj (hbackup.symm.trans hc)
    exact ⟨4, _, _, reads_v4 [(shortRec 1 2).rewrittenV4], by decide +kernel⟩
  · intro hholds
    have hcurrent := (migration_backup_iff hs "db" _ rfl hask').mp hholds
    have hwhole := hcurrent _ ⟨4, 0, 0⟩ _ hlog' (reads_v4 _).headerOk hbackup'
    exact absurd (hwhole.eq (reads_v4 _)) (by decide +kernel)

/-- A migration, a write, a rollback and a second migration: the backup is that of the first. -/
theorem migration_backup_stale : ∃ info d',
    asked "db" agreeing (lived "db" (logDisk v4Header) [.openStore agreeing, .put [107] [118] none, .close,
      .rollBack "old" ⟨4, false⟩]).disk = some (info, d') ∧
      d'.bytesAt info.backup = some v4Header ∧ d'.bytesAt info.path ≠ some v4Header := by
  have hrun : (asked "db" agreeing (lived "db" (logDisk v4Header) [.openStore agreeing, .put [107] [118] none, .close,
      .rollBack "old" ⟨4, false⟩]).disk).map (fun x => (x.2.bytesAt x.1.backup,
        decide (x.2.bytesAt x.1.path = some v4Header))) = some (some v4Header, false) := by decide +kernel
  obtain ⟨⟨info, d'⟩, hask, hbytes⟩ := Option.map_eq_some_iff.mp hrun
  obtain ⟨hbackup, hlog⟩ := Prod.mk.inj hbytes
  exact ⟨info, d', hask, hbackup, of_decide_eq_false hlog⟩

end AppendStore
