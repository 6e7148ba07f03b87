import AppendStore.Format.RecordCodec
import AppendStore.Format.Legacy

/-! # The append log

`log.go`, `lock.go` and the directory sync, as programs of system calls. A call that can fail is
followed by the branch of the source for its error, then by what the source does next.

A method that changes the log returns the changed log beside its result. The append buffer is
modelled with its whole capacity, the memory map by its length, and the bytes seen through it are
those of the file. File modes are left out.
-/

namespace AppendStore
open Library
set_option autoImplicit false

/-! ## Names of files -/

def compactionTempSuffix : String := ".compact.tmp"
def compactionReadySuffix : String := ".compact.ready"
def compactionBackupSuffix : String := ".compact.backup"
def legacyCompactionSuffix : String := ".compact"
def migrationBackupSuffix : String := ".bak"
def migrationBackupTempSuffix : String := ".tmp"
def lockFileSuffix : String := ".lock"

/-- `filepath.Base`. -/
def base (path : Path) : String :=
  if path = "" then "."
  else
    match path.toList.reverse.dropWhile (· == '/') with
    | [] => "/"
    | name => String.ofList (name.takeWhile (· != '/')).reverse

/-- `errors.Join` where the first error is known to be there. -/
def joinErr (e : Err) (errs : List (Option Err)) : Err := (errs.filterMap id).foldl Err.join e

/-- `errors.Join`. -/
def joinErrors (errs : List (Option Err)) : Option Err :=
  match errs with
  | [] => none
  | some e :: errs => some (joinErr e errs)
  | none :: errs => joinErrors errs

/-! ## Files beside the log -/

def fileExists (path : Path) : FileProg (Except Err Bool) :=
  (Sys.stat path).orElse
    (fun e => pure (if e = .notExist then .ok false else .error (.wrap ("stat " ++ base path) (.os e))))
    fun _ => pure (.ok true)

def removeIfExists (path : Path) : FileProg (Except Err Unit) :=
  (Sys.remove path).orElse
    (fun e => pure (if e = .notExist then .ok () else .error (.wrap ("remove " ++ base path) (.os e))))
    fun _ => pure (.ok ())

/-- `os.Remove` and `os.Rename` where the source returns their error as it is. -/
def asErr {α : Type} (p : FileProg (Except OsError α)) : FileProg (Except Err α) :=
  p.orElse (fun e => pure (.error (.os e))) fun a => pure (.ok a)

def syncParentDirectory (path : Path) : FileProg (Except Err Unit) := asErr (Sys.syncDir path)

/-- Remove several files, stopping at the first error. -/
def removeAllIfExist : List Path → FileProg (Except Err Unit)
  | [] => pure (.ok ())
  | path :: paths => (removeIfExists path).andThen fun _ => removeAllIfExist paths

/-- The `switch` of `recoverCompactionArtifacts`. -/
def promoteArtifact (path : Path) (mainExists readyExists backupExists legacyExists : Bool) :
    FileProg (Except Err Unit) :=
  let readyPath := path ++ compactionReadySuffix
  let backupPath := path ++ compactionBackupSuffix
  let legacyPath := path ++ legacyCompactionSuffix
  if mainExists then removeAllIfExist [readyPath, backupPath, legacyPath]
  else if readyExists then
    (Sys.rename readyPath path).orElse
      (fun e => pure (.error (.wrap "complete interrupted compaction" (.os e))))
      fun _ => removeIfExists backupPath
  else if backupExists then
    (Sys.rename backupPath path).orElse
      (fun e => pure (.error (.wrap "restore interrupted compaction" (.os e)))) fun _ => pure (.ok ())
  else if legacyExists then
    (Sys.rename legacyPath path).orElse
      (fun e => pure (.error (.wrap "restore legacy interrupted compaction" (.os e))))
      fun _ => pure (.ok ())
  else pure (.ok ())

def recoverCompactionArtifacts (path : Path) : FileProg (Except Err Unit) :=
  let tempPath := path ++ compactionTempSuffix
  let readyPath := path ++ compactionReadySuffix
  let backupPath := path ++ compactionBackupSuffix
  let legacyPath := path ++ legacyCompactionSuffix
  (fileExists path).andThen fun mainExists =>
  (fileExists readyPath).andThen fun readyExists =>
  (fileExists backupPath).andThen fun backupExists =>
  (fileExists tempPath).andThen fun tempExists =>
  (fileExists legacyPath).andThen fun legacyExists =>
  (promoteArtifact path mainExists readyExists backupExists legacyExists).andThen fun _ =>
  (removeAllIfExist [tempPath, readyPath, backupPath, legacyPath]).andThen fun _ =>
  if readyExists || backupExists || tempExists || legacyExists then
    (syncParentDirectory path).orElse
      (fun e => pure (.error (.wrap "sync directory after compaction recovery" e))) fun _ => pure (.ok ())
  else pure (.ok ())

/-! ## The process lock -/

structure FileLock where
  file : Option OsFile
  deriving DecidableEq, Repr

def acquireFileLock (path : Path) : FileProg (Except Err FileLock) :=
  (Sys.openFile (path ++ lockFileSuffix) true false).orElse
    (fun e => pure (.error (.wrap "open store lock" (.os e)))) fun file =>
  (Sys.flock file).orElse
    (fun e => do
      let _ ← Sys.close file
      pure (.error (if e = .contended then .detail .storeLocked path
        else .wrap "acquire store lock" (.os e))))
    fun _ => pure (.ok ⟨some file⟩)

/-- The error of a call, if it failed. -/
def errorOf {ε α : Type} (toErr : ε → Err) : Except ε α → Option Err
  | .ok _ => none
  | .error e => some (toErr e)

def FileLock.release (l : FileLock) : FileProg (Option Err × FileLock) :=
  match l.file with
  | none => pure (none, l)
  | some file => do
    let unlockErr ← Sys.funlock file
    let closeErr ← Sys.close file
    pure (joinErrors [errorOf .os unlockErr, errorOf .os closeErr], ⟨none⟩)

/-! ## The log -/

structure AppendLog where
  file : OsFile
  path : Path
  writePos : ℕ
  version : ℕ
  incompatibleFeatures : ℕ
  readOnlyFeatures : ℕ
  appendBuf : Bytes
  mapped : Option ℕ
  mapDisabled : Bool
  mapSlack : ℕ
  deriving DecidableEq, Repr

def defaultMapSlack : ℕ := 64 <<< 20

/-- The log a file is opened with, before its header is read or written. -/
def newAppendLog (file : OsFile) (path : Path) : AppendLog :=
  ⟨file, path, 0, logVersion, 0, 0, [], none, false, defaultMapSlack⟩

namespace AppendLog

def unknownReadOnly (l : AppendLog) : ℕ := clearBits l.readOnlyFeatures knownReadOnlyFeatures

def writeHeader (l : AppendLog) : FileProg (Except Err Unit) :=
  asErr (Sys.writeAt l.file 0 (Header.bytes ⟨l.version, l.incompatibleFeatures, l.readOnlyFeatures⟩))

def setVersion (l : AppendLog) (version : ℕ) : FileProg (Except Err Unit × AppendLog) :=
  let written := { l with version := version }
  written.writeHeader.orElse (fun e => pure (.error e, l)) fun _ => do
    let r ← asErr (Sys.fsync l.file)
    pure (r, written)

def readHeader (l : AppendLog) : FileProg (Except Err AppendLog) :=
  (Sys.readAt l.file 0 logHeaderSize).orElse
    (fun e => pure (.error (.printed .corruptedData "read header" (.os e)))) fun header =>
  match decodeHeader header with
  | .error e => pure (.error e)
  | .ok h => pure (.ok { l with
      version := h.version
      incompatibleFeatures := h.incompatibleFeatures
      readOnlyFeatures := h.readOnlyFeatures })

/-- Dropping the old map cannot be seen: only its length is modelled. -/
def remap (l : AppendLog) : FileProg AppendLog :=
  if l.mapDisabled then pure l
  else
    let length := l.writePos + l.mapSlack
    if length ≤ 0 ∨ length > maxInt then pure { l with mapped := none, mapDisabled := true }
    else
      (Sys.mmap l.file length).orElse (fun _ => pure { l with mapped := none, mapDisabled := true })
        fun _ => pure { l with mapped := some length }

end AppendLog

/-- The part of `openAppendLogFile` after the file is open. -/
def startLog (path : Path) (file : OsFile) : FileProg (Except Err AppendLog) :=
  (Sys.fstat file).orElse (fun e => do let _ ← Sys.close file; pure (.error (.os e))) fun size =>
  let log := newAppendLog file path
  let ready : FileProg (Except Err AppendLog) :=
    if size = 0 then
      log.writeHeader.orElse (fun e => do let _ ← Sys.close file; pure (.error e))
        fun _ => pure (.ok { log with writePos := logHeaderSize })
    else
      log.readHeader.orElse (fun e => do let _ ← Sys.close file; pure (.error e))
        fun log => pure (.ok { log with writePos := size })
  ready.andThen fun log => do
    let log ← log.remap
    pure (.ok log)

def openAppendLogFile (path : Path) : FileProg (Except Err AppendLog) :=
  (Sys.openFile path true false).orElse (fun e => pure (.error (.os e))) (startLog path)

def openAppendLog (path : Path) : FileProg (Except Err AppendLog) :=
  (recoverCompactionArtifacts path).andThen fun _ => openAppendLogFile path

/-- The mode is left out. -/
def createAppendLogMode (path : Path) : FileProg (Except Err AppendLog) :=
  (Sys.openFile path true true).orElse (fun e => pure (.error (.os e))) fun file =>
  let log := newAppendLog file path
  log.writeHeader.orElse (fun e => do let _ ← Sys.close file; pure (.error e)) fun _ => do
    let log ← ({ log with writePos := logHeaderSize } : AppendLog).remap
    pure (.ok log)

namespace AppendLog

/-! ## Append -/

/-- Where `Append` put a record. -/
structure Placed where
  offset : ℕ
  size : ℕ
  recordOffset : ℕ
  storedSize : ℕ
  deriving DecidableEq, Repr

/-- The buffer `Append` fills, and what the log retains: the reused buffer if its capacity
suffices, else a new one, which is retained only if it is small. -/
def takeBuffer (appendBuf : Bytes) (totalSize : ℕ) : Bytes × Bool :=
  if appendBuf.length < totalSize then
    (List.replicate totalSize 0, decide (totalSize ≤ maxRetainedScratch))
  else (appendBuf, true)

def append (l : AppendLog) (key value : Bytes) (deleted : Bool) (attributes : AttributeRange)
    (extensions : Bytes) : FileProg (Except Err Placed × AppendLog) :=
  if l.version ≠ logVersion then
    pure (.error (.plain s!"cannot append a v{logVersion} record to a v{l.version} log"), l)
  else if l.unknownReadOnly ≠ 0 then
    pure (.error (unknownFeatureError "read-only" l.unknownReadOnly), l)
  else
    match appendLimits key value attributes extensions with
    | .error e => pure (.error e, l)
    | .ok attributesBytes =>
      let recordLength := recordMinimumLength +
        (key.length + attributesBytes.length + value.length + extensions.length)
      let totalSize := 4 + recordLength
      let (buf, retained) := takeBuffer l.appendBuf totalSize
      let filled := fillRecord (buf.take totalSize) key attributesBytes value extensions deleted
      -- the log keeps the array, not the slice, so it also sees the stores
      let l := { l with appendBuf := if retained then filled ++ buf.drop totalSize else l.appendBuf }
      let valueOffset := l.writePos + (20 + key.length + attributesBytes.length)
      let recordStart := l.writePos
      (Sys.writeAt l.file recordStart filled).orElse (fun e => pure (.error (.os e), l)) fun _ => do
        let l := { l with writePos := l.writePos + totalSize }
        let l ← if l.writePos > l.mapped.getD 0 then l.remap else pure l
        pure (.ok ⟨valueOffset, value.length, recordStart, totalSize⟩, l)

/-! ## Reading a stored record -/

/-- The part of the map that holds a record, if the map covers it. -/
def mappedRecord (l : AppendLog) (recordOffset storedSize : ℕ) : Option (ℕ × ℕ) :=
  match l.mapped with
  | none => none
  | some length =>
    let stop := recordOffset + storedSize
    if recordOffset < logHeaderSize ∨ stop > l.writePos ∨ stop > length then none
    else some (recordOffset, stop)

def readAt (l : AppendLog) (offset size : ℕ) : FileProg (Except Err Bytes) :=
  asErr (Sys.readAt l.file offset size)

/-- The value area of a record, or why the record is not valid. -/
def storedValue (record : Bytes) : Except Err Bytes :=
  match validateStoredRecord record with
  | .error e => .error e
  | .ok bounds => .ok (slice record bounds.valueStart (bounds.valueStart + bounds.valueLen))

/-- The scratch buffer is modelled with its whole capacity. -/
def readRecordFromFile (l : AppendLog) (recordOffset storedSize : ℕ) (scratch : Bytes) :
    FileProg (Except Err Bytes × Bytes) :=
  let scratch := if scratch.length < storedSize then List.replicate storedSize 0 else scratch
  (Sys.readAt l.file recordOffset storedSize).orElse (fun e => pure (.error (.os e), scratch))
    fun record =>
    let scratch := record ++ scratch.drop storedSize
    pure (storedValue (scratch.take storedSize), scratch)

def readRecordAt (l : AppendLog) (recordOffset storedSize : ℕ) : FileProg (Except Err Bytes) :=
  match checkStoredSize storedSize with
  | .error e => pure (.error e)
  | .ok () =>
    match l.mappedRecord recordOffset storedSize with
    | some (lo, hi) => do
      let record ← Sys.mapped l.file lo hi
      pure (storedValue record)
    | none => do
      -- the pooled scratch buffer only saves an allocation
      let (value, _) ← l.readRecordFromFile recordOffset storedSize []
      pure value

def readRecordAtInto (l : AppendLog) (recordOffset storedSize : ℕ) (scratch : Bytes) :
    FileProg (Except Err Bytes × Bytes) :=
  match checkStoredSize storedSize with
  | .error e => pure (.error e, scratch)
  | .ok () =>
    match l.mappedRecord recordOffset storedSize with
    | some (lo, hi) => do
      let record ← Sys.mapped l.file lo hi
      match storedValue record with
      | .error e => pure (.error e, scratch)
      | .ok value => pure (.ok value, value ++ scratch.drop value.length)
    | none => l.readRecordFromFile recordOffset storedSize scratch

/-- The value and the extension area of a record, or why the record is not valid. -/
def storedValueAndExtensions (record : Bytes) : Except Err (Bytes × Bytes) :=
  match validateStoredRecord record with
  | .error e => .error e
  | .ok bounds =>
    .ok (slice record bounds.valueStart (bounds.valueStart + bounds.valueLen),
      slice record bounds.extensionsStart (bounds.extensionsStart + bounds.extensionsLen))

def readRecordAndExtensionsAt (l : AppendLog) (recordOffset storedSize : ℕ) :
    FileProg (Except Err (Bytes × Bytes)) :=
  match checkStoredSize storedSize with
  | .error e => pure (.error e)
  | .ok () =>
    match l.mappedRecord recordOffset storedSize with
    | some (lo, hi) => do
      let record ← Sys.mapped l.file lo hi
      pure (storedValueAndExtensions record)
    | none =>
      (Sys.readAt l.file recordOffset storedSize).orElse (fun e => pure (.error (.os e)))
        fun record => pure (storedValueAndExtensions record)

/-! ## The scan -/

/-- How the loop of `Iterate` ends. -/
inductive ScanEnd
  | complete
  | torn (pos : ℕ) (e : Err)
  | failed (e : Err)
  deriving DecidableEq, Repr

/-- One record of a log of the given version. -/
def readRecord (version pos : ℕ) : Reader Err (LogRecord × ℕ) :=
  if version ≥ 4 then readRecordFrom pos else readLegacyRecordFrom version pos

/-- The loop of `Iterate` over what is left to read. Every record takes at least one byte, so the
length of what is left is fuel enough. -/
def scan {σ : Type} (version fileSize : ℕ) (fn : LogRecord → σ → Except Err σ) :
    ℕ → ℕ → Bytes → σ → σ × ScanEnd
  | 0, _, _, s => (s, .complete)
  | fuel + 1, pos, rest, s =>
    if pos < fileSize then
      match readRecord version pos rest with
      | .error e =>
        if e.isEOF then (s, .torn pos e)
        else (s, .failed (.printed .corruptedData s!" at offset {pos}" e))
      | .ok ((record, nextPos), rest) =>
        if nextPos > fileSize then
          (s, .failed (.detail .corruptedData s!"record at offset {pos} exceeds file size"))
        else
          match fn record s with
          | .error e => (s, .failed e)
          | .ok s => scan version fileSize fn fuel nextPos rest s
    else (s, .complete)

/-- What `Iterate` does when its loop ends: an incomplete record is cut off, unless the log needs a
feature this build does not know. -/
def finishScan {σ : Type} (l : AppendLog) : σ × ScanEnd → FileProg ((Except Err Unit × AppendLog) × σ)
  | (s, .complete) => pure ((.ok (), l), s)
  | (s, .failed e) => pure ((.error e, l), s)
  | (s, .torn pos e) =>
    if l.unknownReadOnly = 0 then
      (Sys.truncate l.file pos).orElse
        (fun te => pure ((.error (.join e (.wrap "truncate incomplete record" (.os te))), l), s))
        fun _ => pure ((.ok (), { l with writePos := pos }), s)
    else pure ((.ok (), { l with writePos := pos }), s)

/-- The reader takes the rest of the file at once: nothing writes to it during the scan. -/
def iterate {σ : Type} (l : AppendLog) (fn : LogRecord → σ → Except Err σ) (s : σ) :
    FileProg ((Except Err Unit × AppendLog) × σ) :=
  (Sys.seek l.file logHeaderSize).orElse (fun e => pure ((.error (.os e), l), s)) fun _ =>
  (Sys.readFrom l.file logHeaderSize).orElse
    (fun e => pure ((.error (.printed .corruptedData s!" at offset {logHeaderSize}" (.os e)), l), s))
    fun rest =>
  l.finishScan (scan l.version l.writePos fn (rest.length + 1) logHeaderSize rest s)

/-! ## Sync, close and size -/

def sync (l : AppendLog) : FileProg (Except Err Unit) := asErr (Sys.fsync l.file)

/-- The handle is closed whether or not the call reports an error. -/
def close (l : AppendLog) : FileProg (Except Err Unit × AppendLog) := do
  let r ← asErr (Sys.close l.file)
  pure (r, { l with mapped := none, file := { l.file with isOpen := false } })

def size (l : AppendLog) : ℕ := l.writePos

end AppendLog

end AppendStore
