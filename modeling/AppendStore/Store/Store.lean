import AppendStore.Log.AppendLog
import AppendStore.Store.Index
import AppendStore.Store.Cache

/-! # The store

`store.go`. The store lock and the atomic flags order the calls of concurrent clients; a call is
modelled here as one program that runs alone, from the state it finds to the state it leaves.

Left out: the counters of `Stats`, the background tasks, and the modes of files. A map that a client
passes in comes with the order in which it is ranged over; the maps of the index are ranged over in
the order of their keys.
-/

namespace AppendStore
open Library
set_option autoImplicit false

structure MigrationInfo where
  path : Path
  fromVersion : ℕ
  toVersion : ℕ
  backup : Path
  deriving DecidableEq, Repr

structure Options where
  cacheSize : ℤ
  syncInterval : ℤ
  compactionThreshold : ℚ
  indexedFields : List Bytes
  onMigrate : Option (MigrationInfo → Option Err)
  noMigrationBackup : Bool

structure Store where
  log : AppendLog
  index : Index
  cache : LruCache
  lock : FileLock
  options : Options
  closed : Bool
  compacting : Bool
  readOnlyReason : Option Err

/-- The index entry of a record that was put at a place in the log. -/
def AppendLog.Placed.entry (placed : AppendLog.Placed) (attributes : Attributes) : IndexEntry :=
  ⟨placed.offset, placed.size, placed.recordOffset, placed.storedSize, attributes⟩

/-- The index entry `recover` makes of a record. -/
def LogRecord.indexEntry (record : LogRecord) : IndexEntry :=
  ⟨record.offset, record.size, record.recordOffset, record.storedSize, record.attributes⟩

namespace Store

/-- The checks that `Put`, `Delete` and `Compact` make first. -/
def ifWritable {α : Type} (s : Store) (refuse : Err → α) (body : α) : α :=
  if s.closed then refuse (.sentinel .storeClosed)
  else
    match s.readOnlyReason with
    | some e => refuse e
    | none => body

/-! ## Recovery -/

/-- The callback of `recover`. -/
def recoverRecord (record : LogRecord) (s : Index × LruCache) : Except Err (Index × LruCache) :=
  if record.deleted then .ok (s.1.delete record.key, s.2.remove record.key)
  else .ok (s.1.put record.key record.indexEntry, s.2)

def recover (s : Store) : FileProg (Except Err Unit × Store) := do
  let ((r, log), index, cache) ← s.log.iterate recoverRecord (s.index, s.cache)
  pure (r, { s with log := log, index := index, cache := cache })

/-! ## Compaction -/

/-- The loop of `Compact` over the live keys. -/
def copyLive (log : AppendLog) (index : Index) :
    List Bytes → AppendLog → Index → FileProg (Except Err Unit × AppendLog × Index)
  | [], newLog, newIndex => pure (.ok (), newLog, newIndex)
  | key :: keys, newLog, newIndex =>
    match index.get key with
    | none => copyLive log index keys newLog newIndex
    | some entry =>
      let read : FileProg (Except Err (Bytes × Bytes)) :=
        if log.version ≥ 4 then log.readRecordAndExtensionsAt entry.recordOffset entry.storedSize
        else (log.readAt entry.offset entry.size).andThen fun value => pure (.ok (value, []))
      read.orElse (fun e => pure (.error (.wrap "failed to read during compaction" e), newLog, newIndex))
        fun (value, extensions) =>
      (newLog.append key value false (enumerate entry.attributes) extensions).orElseState
        (fun e newLog => pure (.error (.wrap "failed to write during compaction" e), newLog, newIndex))
        fun placed newLog =>
      copyLive log index keys newLog (newIndex.put key (placed.entry entry.attributes))

/-- Open the log at a path again, where an error of `Compact` left the store without one. -/
def reopen (s : Store) (path : Path) : FileProg (Option Err × Store) := do
  let r ← openAppendLogFile path
  match r with
  | .ok reopened => pure (none, { s with log := reopened })
  | .error e => pure (some e, s)

/-- The second half of `Compact`: replace the log by the prepared one. -/
def installCompacted (s : Store) (newIndex : Index) : FileProg (Except Err Unit × Store) :=
  let oldPath := s.log.path
  let readyPath := oldPath ++ compactionReadySuffix
  let backupPath := oldPath ++ compactionBackupSuffix
  s.log.close.orElseState
    (fun e closed => do
      let (reopenErr, s) ← ({ s with log := closed } : Store).reopen oldPath
      let _ ← Sys.remove readyPath
      pure (.error (joinErr (.wrap "failed to close old log during compaction" e) [reopenErr]), s))
    fun _ closed =>
  let s := { s with log := closed }
  (Sys.rename oldPath backupPath).orElse
    (fun e => do
      let (reopenErr, s) ← s.reopen oldPath
      let _ ← Sys.remove readyPath
      pure (.error (joinErr (.wrap "failed to back up old log" (.os e)) [reopenErr]), s))
    fun _ =>
  (Sys.rename readyPath oldPath).orElse
    (fun e => do
      let restoreErr ← Sys.rename backupPath oldPath
      let (reopenErr, s) ← s.reopen oldPath
      pure (.error (joinErr (.wrap "failed to install compacted log" (.os e))
        [errorOf .os restoreErr, reopenErr]), s))
    fun _ =>
  (openAppendLogFile oldPath).orElse
    (fun e => do
      let removeErr ← Sys.remove oldPath
      let restoreErr ← Sys.rename backupPath oldPath
      let (reopenErr, s) ← s.reopen oldPath
      pure (.error (joinErr (.wrap "failed to reopen compacted log" e)
        [errorOf .os removeErr, errorOf .os restoreErr, reopenErr]), s))
    fun reopened =>
  let s := { s with log := reopened, index := newIndex, cache := s.cache.clear }
  (removeIfExists backupPath).orElse (fun e => pure (.error e, s)) fun _ =>
  (syncParentDirectory oldPath).orElse
    (fun e => pure (.error (.wrap "failed to sync compacted log replacement" e), s)) fun _ =>
  pure (.ok (), s)

/-- The part of `Compact` that fills the new log, closes it and renames it to where it is installed from. -/
def fillCompaction (s : Store) (newLog : AppendLog) : FileProg (Except Err Index × Store) :=
  let oldPath := s.log.path
  let newLogPath := oldPath ++ compactionTempSuffix
  let readyPath := oldPath ++ compactionReadySuffix
  let (keys, index) := s.index.keysSortedByOffset
  let s := { s with index := index }
  (copyLive s.log s.index keys newLog (newIndex s.options.indexedFields)).orElseState
    (fun e (newLog, _) => do
      let _ ← newLog.close
      let _ ← Sys.remove newLogPath
      pure (.error e, s))
    fun _ (newLog, newIndex) =>
  newLog.sync.orElse
    (fun e => do
      let _ ← newLog.close
      let _ ← Sys.remove newLogPath
      pure (.error (.wrap "failed to sync compaction log" e), s))
    fun _ =>
  newLog.close.orElseState
    (fun e _ => do
      let _ ← Sys.remove newLogPath
      pure (.error (.wrap "failed to close compaction log" e), s))
    fun _ _ =>
  (Sys.rename newLogPath readyPath).orElse
    (fun e => do
      let _ ← Sys.remove newLogPath
      pure (.error (.wrap "failed to prepare compaction log" (.os e)), s))
    fun _ =>
  (syncParentDirectory oldPath).orElse
    (fun e => do
      let _ ← Sys.remove readyPath
      pure (.error (.wrap "failed to sync prepared compaction log" e), s))
    fun _ => pure (.ok newIndex, s)

/-- `Compact` up to the point where the old log is replaced. -/
def prepareCompaction (s : Store) : FileProg (Except Err Index × Store) :=
  let oldPath := s.log.path
  let newLogPath := oldPath ++ compactionTempSuffix
  let readyPath := oldPath ++ compactionReadySuffix
  let backupPath := oldPath ++ compactionBackupSuffix
  (removeAllIfExist [newLogPath, readyPath, backupPath]).orElse (fun e => pure (.error e, s)) fun _ =>
  (Sys.stat oldPath).orElse
    (fun e => pure (.error (.wrap "failed to stat log before compaction" (.os e)), s)) fun _ =>
  (createAppendLogMode newLogPath).orElse
    (fun e => pure (.error (.wrap "failed to create compaction log" e), s)) s.fillCompaction

/-- `Compact` once the store lock is held. -/
def compactLocked (s : Store) : FileProg (Except Err Unit × Store) :=
  s.prepareCompaction.orElseState (fun e s => pure (.error e, s)) fun newIndex s => s.installCompacted newIndex

def compact (s : Store) : FileProg (Except Err Unit × Store) :=
  s.ifWritable (fun e => pure (.error e, s)) <|
    if s.compacting then pure (.error (.sentinel .compactionInProgress), s)
    else do
      let (r, s) ← ({ s with compacting := true } : Store).compactLocked
      pure (r, { s with compacting := false })

/-! ## Migration -/

/-- The copy once its temporary file is open. -/
def fillBackup (inFile : OsFile) (dst : Path) (out : OsFile) : FileProg (Except Err Unit) :=
  let tmp := dst ++ migrationBackupTempSuffix
  let copied : FileProg (Except OsError Unit) :=
    (Sys.readFrom inFile 0).andThen fun b => Sys.writeAt out 0 b
  copied.orElse
    (fun e => do
      let _ ← Sys.close out
      let _ ← Sys.remove tmp
      pure (.error (.os e)))
    fun _ =>
  (Sys.fsync out).orElse
    (fun e => do
      let _ ← Sys.close out
      let _ ← Sys.remove tmp
      pure (.error (.os e)))
    fun _ =>
  (Sys.close out).orElse (fun e => do let _ ← Sys.remove tmp; pure (.error (.os e))) fun _ =>
  (Sys.rename tmp dst).orElse (fun e => do let _ ← Sys.remove tmp; pure (.error (.os e))) fun _ =>
  syncParentDirectory dst

/-- The part of `copyLogFile` between opening the source and closing it. -/
def copyBackup (inFile : OsFile) (dst : Path) : FileProg (Except Err Unit) :=
  (Sys.openFile (dst ++ migrationBackupTempSuffix) true true).orElse (fun e => pure (.error (.os e)))
    (fillBackup inFile dst)

def copyLogFile (src dst : Path) : FileProg (Except Err Unit) :=
  (Sys.stat dst).orElse
    (fun e =>
      if e = .notExist then
        (Sys.openFile src false false).orElse (fun e => pure (.error (.os e))) fun inFile => do
          let r ← copyBackup inFile dst
          let _ ← Sys.close inFile
          pure r
      else pure (.error (.os e)))
    fun _ => pure (.ok ())

/-- The name of the copy kept of a log of an older version. -/
def migrationBackup (path : Path) (version : ℕ) : Path :=
  path ++ ".v" ++ toString version ++ migrationBackupSuffix

/-- The first step of `migrate`: keep a copy of the log, unless the options say not to. -/
def backUp (s : Store) (path backup : Path) : FileProg (Except Err Unit) :=
  if s.options.noMigrationBackup then pure (.ok ())
  else (copyLogFile path backup).orElse
    (fun e => pure (.error (.wrap s!"back up v{s.log.version} log before migrating" e)))
    fun _ => pure (.ok ())

/-- What `migrate` tells the application. -/
def migrationInfo (path : Path) (options : Options) (version : ℕ) : MigrationInfo :=
  ⟨path, version, logVersion, if options.noMigrationBackup then "" else migrationBackup path version⟩

/-- The rest of `migrate` once the application has answered. -/
def migrateAnswered (s : Store) (info : MigrationInfo) : Option Err → FileProg (Except Err Unit × Store)
  | some e => pure (.error e, s)
  | none =>
    if info.fromVersion = 4 then
      (s.log.setVersion logVersion).orElseState
        (fun e log => pure (.error (.wrap s!"migrate log from v4 to v{logVersion}" e), { s with log := log }))
        fun _ log => pure (.ok (), { s with log := log })
    else
      s.compact.orElseState
        (fun e s => pure (.error (.wrap s!"migrate log from v{info.fromVersion} to v{logVersion}" e), s))
        fun _ s => pure (.ok (), s)

def migrate (s : Store) (path : Path) : FileProg (Except Err Unit × Store) :=
  let info := migrationInfo path s.options s.log.version
  (s.backUp path info.backup).orElse (fun e => pure (.error e, s)) fun _ =>
  s.migrateAnswered info (s.options.onMigrate.bind fun f => f info)

end Store

/-! ## Opening and closing -/

/-- The zero value of the options. -/
def Options.zero : Options := ⟨0, 0, 0, [], none, false⟩

/-- The options with the defaults of `Open`. -/
def Options.withDefaults (options : Options) : Options :=
  let options := if options.cacheSize ≤ 0 then { options with cacheSize := 1000 } else options
  if options.compactionThreshold ≤ 0 then { options with compactionThreshold := 1 / 5 } else options

/-- The store `Open` starts from, before it has read the log. -/
def newStore (options : Options) (lock : FileLock) (log : AppendLog) : Store :=
  let readOnlyReason :=
    if log.unknownReadOnly ≠ 0 then
      some (.both .readOnly (unknownFeatureError "read-only" log.unknownReadOnly))
    else none
  ⟨log, newIndex options.indexedFields, newLRUCache options.cacheSize.toNat, lock, options, false, false,
    readOnlyReason⟩

/-- The last step of `Open`: a log of an older version is migrated. -/
def migrateOlder (path : Path) (lock : FileLock) (s : Store) : FileProg (Except Err Store) :=
  if s.log.version < logVersion then
    (s.migrate path).orElseState
      (fun e s => do
        let _ ← s.log.close
        let _ ← lock.release
        pure (.error e))
      fun _ s => pure (.ok s)
  else pure (.ok s)

/-- `Open` from the open log on, with its last step `last`. An error is answered by `failed`. -/
def recoverWith {α : Type} (failed : Err → α) (options : Options) (lock : FileLock) (log : AppendLog)
    (last : FileLock → Store → FileProg α) : FileProg α :=
  (newStore options lock log).recover.orElseState
    (fun e s => do
      let _ ← s.log.close
      let _ ← lock.release
      pure (failed (.wrap "failed to recover from log" e)))
    fun _ s => last lock s

/-- `Open` with its last step `last`. -/
def openWith {α : Type} (failed : Err → α) (path : Path) (options : Options) (last : FileLock → Store → FileProg α) :
    FileProg α :=
  if path = "" then pure (failed (.plain "path is required"))
  else
    let options := options.withDefaults
    if options.compactionThreshold > 1 then
      pure (failed (.plain "compaction threshold must be between 0 and 1"))
    else if [] ∈ options.indexedFields then
      pure (failed (.detail .invalidAttribute "indexed field is empty"))
    else
      (acquireFileLock path).orElse (fun e => pure (failed e)) fun lock =>
      (openAppendLog path).orElse
        (fun e => do
          let _ ← lock.release
          pure (failed (.wrap "failed to open append log" e)))
        fun log => recoverWith failed options lock log last

/-- `Open` once the log is open. -/
def recoverOpened (path : Path) (options : Options) (lock : FileLock) (log : AppendLog) :
    FileProg (Except Err Store) :=
  recoverWith .error options lock log (migrateOlder path)

/-- `Open`. -/
def openStore (path : Path) (options : Options) : FileProg (Except Err Store) :=
  openWith .error path options (migrateOlder path)

namespace Store

/-- The sync `Close` makes, unless the application syncs for itself. -/
def closingSync (s : Store) : FileProg (Except Err Unit) :=
  if s.options.syncInterval ≥ 0 then s.log.sync else pure (.ok ())

def close (s : Store) : FileProg (Option Err × Store) :=
  if s.closed then pure (none, s)
  else do
    let s := { s with closed := true }
    let syncErr ← s.closingSync
    let (closeErr, log) ← s.log.close
    let (lockErr, lock) ← s.lock.release
    pure (joinErrors [errorOf id syncErr, errorOf id closeErr, lockErr], { s with log := log, lock := lock })

/-! ## Reading and writing -/

def keyNotFound (key : Bytes) : Err := .wrap ("key " ++ textOf key) (.sentinel .keyNotFound)

/-- What `Put` and `Delete` do last. -/
def syncMutation (s : Store) (context : String) : FileProg (Except Err Unit × Store) :=
  if s.options.syncInterval = 0 then
    s.log.sync.orElse (fun e => pure (.error (.wrap context e), s)) fun _ => pure (.ok (), s)
  else pure (.ok (), s)

def put (s : Store) (key value : Bytes) (options : Option AttributeRange) :
    FileProg (Except Err Unit × Store) :=
  s.ifWritable (fun e => pure (.error e, s)) <|
    let attributes := options.getD ∅
    (s.log.append key value false attributes []).orElseState
      (fun e log => pure (.error (.wrap "failed to append to log" e), { s with log := log }))
      fun placed log =>
    let s := { s with
      log := log
      index := s.index.put key (placed.entry attributes.toFinmap)
      cache := s.cache.remove key }
    s.syncMutation "sync appended value"

def get (s : Store) (key : Bytes) : FileProg (Except Err Bytes × Store) :=
  if s.closed then pure (.error (.sentinel .storeClosed), s)
  else
    match s.cache.get key with
    | (some value, cache) => pure (.ok value, { s with cache := cache })
    | (none, cache) =>
      let s := { s with cache := cache }
      match s.index.get key with
      | none => pure (.error (keyNotFound key), s)
      | some entry =>
        (s.log.readRecordAt entry.recordOffset entry.storedSize).orElse
          (fun e => pure (.error (.wrap "failed to read from log" e), s))
          fun value => pure (.ok value, { s with cache := s.cache.put key value })

def getMetadata (s : Store) (key : Bytes) : Except Err Attributes :=
  if s.closed then .error (.sentinel .storeClosed)
  else
    match s.index.get key with
    | none => .error (keyNotFound key)
    | some entry => .ok entry.attributes

def delete (s : Store) (key : Bytes) : FileProg (Except Err Unit × Store) :=
  s.ifWritable (fun e => pure (.error e, s)) <|
    match s.index.get key with
    | none => pure (.error (keyNotFound key), s)
    | some _ =>
      (s.log.append key [] true ∅ []).orElseState
        (fun e log => pure (.error (.wrap "failed to write tombstone" e), { s with log := log }))
        fun _ log =>
      let s := { s with log := log, index := s.index.delete key, cache := s.cache.remove key }
      s.syncMutation "sync tombstone"

/-- `Exists`. -/
def contains (s : Store) (key : Bytes) : Bool := if s.closed then false else (s.index.get key).isSome

def len (s : Store) : ℕ := s.index.len

def keys (s : Store) : Multiset Bytes := s.index.keys

def keysBy (s : Store) (field value : Bytes) : Multiset Bytes := s.index.keysBy field value

def countBy (s : Store) (field value : Bytes) : ℕ := Multiset.card (s.index.keysBy field value)

def attributeValues (s : Store) (field : Bytes) : List Bytes := s.index.attributeValues field

/-- The loop of `ForEach`. The callback turns its own state into the next one and may stop the scan
with an error. -/
def visit {β : Type} (log : AppendLog) (index : Index) (fn : Bytes → Bytes → β → β × Option Err) :
    List Bytes → Bytes → β → FileProg (Except Err Unit × β)
  | [], _, b => pure (.ok (), b)
  | key :: keys, scratch, b =>
    match index.get key with
    | none => visit log index fn keys scratch b
    | some entry => do
      let (r, scratch) ← log.readRecordAtInto entry.recordOffset entry.storedSize scratch
      match r with
      | .error e => pure (.error (.wrap "failed to read from log" e), b)
      | .ok value =>
        match fn key value b with
        | (b, some e) => pure (.error e, b)
        | (b, none) => visit log index fn keys scratch b

def forEach {β : Type} (s : Store) (fn : Bytes → Bytes → β → β × Option Err) (b : β) :
    FileProg ((Except Err Unit × β) × Store) :=
  if s.closed then pure ((.error (.sentinel .storeClosed), b), s)
  else do
    let (keys, index) := s.index.keysSortedByOffset
    let s := { s with index := index }
    let r ← visit s.log s.index fn keys [] b
    pure (r, s)

def diskSize (s : Store) : ℕ := s.log.size

/-- The ratio is exact here; the source computes it in floating point. -/
def needsCompaction (s : Store) : Bool :=
  let liveSize := s.index.totalSize
  let dataSize : ℤ := s.log.size - logHeaderSize
  if dataSize ≤ 0 then false
  else 1 - (liveSize : ℚ) / dataSize > s.options.compactionThreshold

def sync (s : Store) : FileProg (Except Err Unit) :=
  if s.closed then pure (.error (.sentinel .storeClosed)) else s.log.sync

end Store

end AppendStore
