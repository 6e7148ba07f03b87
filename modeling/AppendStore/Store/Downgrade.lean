import AppendStore.Library.BufferedWriter
import AppendStore.Format.V3Record
import AppendStore.Store.Migration

/-! # Downgrade

`downgrade.go`: the live records of a log of version 4 or 5 are written to a new log of version 3 or 4.
The output is written under a temporary name and renamed into place.

`exec_downgrade_scanned` is the common way of both targets, without failures: on a source that reads, the
run is the writing of its live records (`writeDowngraded`) and then the unlocking.
-/

namespace AppendStore
open Library
set_option autoImplicit false

def downgradeTempSuffix : String := ".downgrade.tmp"

structure DowngradeOptions where
  version : ℕ
  overwrite : Bool
  deriving DecidableEq, Repr

/-! ## The writers -/

section
variable {σ : Type}

/-- The loop of `forEachLiveRecord`. The callback turns its own state into the next one. -/
def visitLive (log : AppendLog) (live : Index)
    (fn : Bytes → Bytes → Bytes → Attributes → σ → FileProg (Except Err Unit × σ)) :
    List Bytes → σ → FileProg (Except Err Unit × σ)
  | [], s => pure (.ok (), s)
  | key :: keys, s =>
    match live.get key with
    | none => visitLive log live fn keys s
    | some entry =>
      (log.readRecordAndExtensionsAt entry.recordOffset entry.storedSize).orElse
        (fun e => pure (.error (.wrap ("read key " ++ quoted key) e), s)) fun (value, extensions) =>
      (fn key value extensions entry.attributes s).orElseState (fun e s => pure (.error e, s))
        fun _ s => visitLive log live fn keys s

def forEachLiveRecord (log : AppendLog) (live : Index)
    (fn : Bytes → Bytes → Bytes → Attributes → σ → FileProg (Except Err Unit × σ)) (s : σ) :
    FileProg (Except Err Unit × σ) :=
  visitLive log live.keysSortedByOffset.2 fn live.keysSortedByOffset.1 s

end

/-- The callback of `writeV4Log`. -/
def putV4Record (key value extensions : Bytes) (attributes : Attributes) (out : AppendLog) :
    FileProg (Except Err Unit × AppendLog) :=
  if extensions.length > 0 then
    pure (.error (.plain ("key " ++ quoted key ++ " carries an extension that version 4 cannot express")), out)
  else
    (out.append key value false (enumerate attributes) []).orElseState (fun e out => pure (.error e, out))
      fun _ out => pure (.ok (), out)

def writeV4Log (log : AppendLog) (live : Index) (path : Path) : FileProg (Except Err Unit) :=
  (createAppendLogMode path).andThen fun out =>
  (forEachLiveRecord log live putV4Record out).orElseState
    (fun e out => do
      let _ ← out.close
      pure (.error e))
    fun _ out =>
  (out.setVersion 4).orElseState
    (fun e out => do
      let _ ← out.close
      pure (.error e))
    fun _ out => do
  let (r, _) ← out.close
  pure r

/-- The callback of `writeV3Log`. An error of the writer is found by the flush. -/
def putV3Record (key value extensions : Bytes) (attributes : Attributes) (writer : BufferedWriter) :
    FileProg (Except Err Unit × BufferedWriter) :=
  match encodeV3Record key value extensions (enumerate attributes) with
  | .error e => pure (.error e, writer)
  | .ok record => do
    let writer ← writer.write record
    pure (.ok (), writer)

def writeV3Log (log : AppendLog) (live : Index) (path : Path) : FileProg (Except Err Unit) :=
  (Sys.openFile path true true).orElse (fun e => pure (.error (.os e))) fun file => do
  let writer ← (BufferedWriter.new file (1 <<< 20)).write (Header.bytes ⟨3, 0, 0⟩)
  (forEachLiveRecord log live putV3Record writer).orElseState
    (fun e _ => do
      let _ ← Sys.close file
      pure (.error e))
    fun _ writer =>
  writer.flush.orElseState
    (fun e _ => do
      let _ ← Sys.close file
      pure (.error (.os e)))
    fun _ _ =>
  (Sys.fsync file).orElse
    (fun e => do
      let _ ← Sys.close file
      pure (.error (.os e)))
    fun _ => asErr (Sys.close file)

/-! ## The whole run -/

/-- The records are written under a temporary name, and the file is renamed. -/
def writeDowngraded (log : AppendLog) (live : Index) (dst : Path) (version : ℕ) : FileProg (Except Err Unit) :=
  let tmp := dst ++ downgradeTempSuffix
  (removeIfExists tmp).andThen fun _ =>
  (if version = 4 then writeV4Log log live tmp else writeV3Log log live tmp).orElse
    (fun e => do
      let _ ← Sys.remove tmp
      pure (.error e))
    fun _ =>
  (Sys.rename tmp dst).orElse
    (fun e => do
      let _ ← Sys.remove tmp
      pure (.error (.os e)))
    fun _ => syncParentDirectory dst

/-- The callback of the scan. -/
def liveRecord (record : LogRecord) (live : Index) : Except Err Index :=
  if record.deleted then .ok (live.delete record.key) else .ok (live.put record.key record.indexEntry)

/-- `%#08x`. -/
def hexWord (n : ℕ) : String :=
  let digits := Nat.toDigits 16 n
  "0x" ++ String.ofList (List.replicate (8 - digits.length) '0' ++ digits)

/-- What is done with the open source. -/
def downgradeOpened (log : AppendLog) (src dst : Path) (version : ℕ) :
    FileProg (Except Err Unit × AppendLog) :=
  if log.version < 4 then pure (.error (.plain s!"log at {src} is already version {log.version}"), log)
  else
    let features := log.incompatibleFeatures ||| log.readOnlyFeatures
    if features ≠ 0 then
      pure (.error (.plain ("log sets feature bits " ++ hexWord features ++
        s!" that version {version} cannot express")), log)
    else do
      let ((r, log), live) ← log.iterate liveRecord (newIndex [])
      match r with
      | .error e => pure (.error e, log)
      | .ok () => do
        let r ← writeDowngraded log live dst version
        pure (r, log)

/-- The check of the destination. -/
def checkDestination (dst : Path) (overwrite : Bool) : FileProg (Except Err Unit) :=
  if overwrite then pure (.ok ())
  else
    (Sys.stat dst).orElse (fun e => pure (if e = .notExist then .ok () else .error (.os e)))
      fun _ => pure (.error (.plain s!"downgrade destination {dst} already exists"))

/-- What is done under the lock. The log is closed when it returns. -/
def downgradeLocked (src dst : Path) (version : ℕ) : FileProg (Except Err Unit) :=
  (openAppendLog src).andThen fun log => do
  let (r, log) ← downgradeOpened log src dst version
  let _ ← log.close
  pure r

def downgrade (src dst : Path) (options : DowngradeOptions) : FileProg (Except Err Unit) :=
  let version := options.version
  if version ≠ 3 ∧ version ≠ 4 then
    pure (.error (.plain s!"unsupported downgrade target version {version} (want 3 or 4)"))
  else if src = dst then
    pure (.error (.plain "downgrade destination must differ from the source"))
  else
    (checkDestination dst options.overwrite).andThen fun _ =>
    (acquireFileLock src).andThen fun lock => do
    let r ← downgradeLocked src dst version
    let _ ← lock.release
    pure r

/-! ## The loop over the live records -/

/-- A list of which not every element has a property has a first one without it. -/
theorem exists_first_not {α : Type} {P : α → Prop} {l : List α} (h : ¬ ∀ x ∈ l, P x) :
    ∃ pre x post, l = pre ++ x :: post ∧ (∀ y ∈ pre, P y) ∧ ¬ P x := by
  induction l with
  | nil => exact absurd (fun x hx => by cases hx) h
  | cons a l ih =>
    by_cases ha : P a
    · obtain ⟨pre, x, post, hl, hpre, hx⟩ := ih fun hall => h (List.forall_mem_cons.mpr ⟨ha, hall⟩)
      exact ⟨a :: pre, x, post, by rw [hl, List.cons_append], List.forall_mem_cons.mpr ⟨ha, hpre⟩, hx⟩
    · exact ⟨[], a, l, rfl, (fun y hy => by cases hy), ha⟩

section
variable {version : ℕ} {recs : List (Rec version)} {d : Disk} {log : AppendLog} {header : Bytes}

/-- **The loop keeps what its callback keeps.** The first part of the keys is gone through, and the loop
goes on with the rest. -/
theorem exec_visitLive {σ : Type} {live : Index}
    {fn : Bytes → Bytes → Bytes → Attributes → σ → FileProg (Except Err Unit × σ)} (hv : 4 ≤ version)
    (hidx : ∀ k x, (k, x) ∈ liveRecs recs → live.get k = some (liveEntry x))
    {I : List (Bytes × (ℕ × Rec version)) → Disk → σ → Prop}
    (himage : ∀ done d s, I done d s → LogImage d log header recs)
    (xs : List (Bytes × (ℕ × Rec version))) (hxs : ∀ x ∈ xs, x ∈ liveRecs recs)
    (hstep : ∀ x ∈ xs, ∀ done d s, I done d s → ∃ s' d',
      Disk.exec (fn x.1 x.2.2.value x.2.2.extensions x.2.2.attributes s) d = ((.ok (), s'), d') ∧
        I (done ++ [x]) d' s')
    (rest : List Bytes) {done : List (Bytes × (ℕ × Rec version))} {s : σ} (hI : I done d s) :
    ∃ s' d', Disk.exec (visitLive log live fn (xs.map Prod.fst ++ rest) s) d =
        Disk.exec (visitLive log live fn rest s') d' ∧ I (done ++ xs) d' s' := by
  induction xs generalizing d done s with
  | nil => exact ⟨s, d, rfl, by rwa [List.append_nil]⟩
  | cons x xs ih =>
    obtain ⟨k, y⟩ := x
    have hx := hxs (k, y) List.mem_cons_self
    have hread := exec_readRecordAndExtensionsAt ((himage _ _ _ hI).storedAt (liveRecs_mem hx).1) hv
    obtain ⟨s1, d1, hfn, hI1⟩ := hstep (k, y) List.mem_cons_self done d s hI
    obtain ⟨s2, d2, hrest, hI2⟩ := ih (fun x hx => hxs x (List.mem_cons_of_mem _ hx))
      (fun x hx => hstep x (List.mem_cons_of_mem _ hx)) hI1
    refine ⟨s2, d2, ?_, by rwa [List.append_cons]⟩
    rw [List.map_cons, List.cons_append, visitLive, hidx k y hx]
    dsimp only [liveEntry, LogRecord.indexEntry, Rec.entry]
    rw [Disk.exec_orElse_ok hread]
    exact (Disk.exec_orElseState_ok hfn).trans hrest

theorem replay_get (fields : List Bytes) (recs : List (Rec version)) (k : Bytes) (x : ℕ × Rec version)
    (hx : (k, x) ∈ liveRecs recs) :
    (replay fields recs).keysSortedByOffset.2.get k = some (liveEntry x) := by
  have hsame := Index.keysSortedByOffset_same (replay fields recs)
  rw [Index.get, hsame.entries]
  exact replay_lookup fields recs hx

theorem replay_sortedKeys (fields : List Bytes) (recs : List (Rec version)) :
    (replay fields recs).keysSortedByOffset.1 = (liveRecs recs).map Prod.fst := by
  rw [Index.keysSortedByOffset_eq (replay_sorted fields recs), replay_sortByOffset]

/-- A new file was written under a name that was free. -/
structure Written (d d' : Disk) (path : Path) (b : Bytes) : Prop where
  dir : d'.dir = Function.update d.dir path (some d.next)
  content : (d'.files d.next).content = b
  files : ∀ j, j < d.next → d'.files j = d.files j
  locked : ∀ j, d'.locked j = true → d.locked j = true
  next : d'.next = d.next + 1

/-- What was done to a new file after its creation. -/
theorem written_of_touched {d' : Disk} {path : Path} {b : Bytes} (ht : Touched (d.create path) d' d.next)
    (hcontent : (d'.files d.next).content = b) : Written d d' path b where
  dir := by rw [ht.dir, Disk.dir_create]
  content := hcontent
  files := by
    intro j hj
    rw [ht.others j (Nat.ne_of_lt hj), Disk.files_create_ne _ _ _ (Nat.ne_of_lt hj)]
  locked := by
    intro j hj
    have hne : j ≠ d.next := by
      rintro rfl
      rw [ht.locked, Disk.locked_create_next] at hj
      cases hj
    rwa [ht.locked, Disk.locked_create_ne _ _ _ hne] at hj
  next := by rw [ht.next, Disk.next_create]

/-! ## The writer of version 4 -/

/-- The state of `writeV4Log` after some records. -/
structure CopyingV4 (d : Disk) (path : Path) (log : AppendLog) (header : Bytes) (recs : List (Rec version))
    (done : List (Bytes × (ℕ × Rec version))) (d' : Disk) (out : AppendLog) : Prop where
  source : LogImage d' log header recs
  image : LogImage d' out currentHeader (done.map fun x => x.2.2.rewritten)
  file : out.file = ⟨d.next, true⟩
  incompatibleFeatures : out.incompatibleFeatures = 0
  readOnlyFeatures : out.readOnlyFeatures = 0
  touched : Touched (d.create path) d' d.next

/-- A record without an extension area is appended as a compaction appends it. -/
theorem exec_putV4Record {path : Path} (hlt : log.file.inode < d.next)
    {done : List (Bytes × (ℕ × Rec version))} {d' : Disk} {out : AppendLog}
    (h : CopyingV4 d path log header recs done d' out) {x : Bytes × (ℕ × Rec version)} (hx : x ∈ liveRecs recs)
    (hext : x.2.2.extensions = []) :
    ∃ out' d'', Disk.exec (putV4Record x.1 x.2.2.value x.2.2.extensions x.2.2.attributes out) d' =
        ((.ok (), out'), d'') ∧ CopyingV4 d path log header recs (done ++ [x]) d'' out' := by
  have hkey := (liveRecs_mem hx).2.1
  have hro : out.unknownReadOnly = 0 := by
    rw [AppendLog.unknownReadOnly, h.readOnlyFeatures]
    rfl
  obtain ⟨out', d'', happ, hd, hsame, himage⟩ := exec_append_image h.image hro x.2.2.rewrite_limits false
  rw [hext, hkey] at happ
  have hinode : out.file.inode = d.next := by rw [h.file]
  rw [hinode] at hd
  have ht : Touched d' d'' d.next := by
    rw [hd]
    exact touched_setContent d' _ _
  refine ⟨out', d'', ?_, ⟨?_, ?_, ?_, ?_, ?_, h.touched.trans ht⟩⟩
  · unfold putV4Record
    rw [hext, if_neg (by decide : ¬ ([] : Bytes).length > 0), Disk.exec_orElseState_ok happ]
    rfl
  · exact h.source.of_same ⟨rfl, rfl, rfl, rfl, rfl⟩ rfl (by rw [ht.others _ (Nat.ne_of_lt hlt)])
  · rw [List.map_append]
    exact himage
  · rw [hsame.file, h.file]
  · rw [hsame.incompatibleFeatures, h.incompatibleFeatures]
  · rw [hsame.readOnlyFeatures, h.readOnlyFeatures]

/-- `writeV4Log` up to the first record that has an extension area, if there is one. -/
theorem exec_writeV4Log_front {path : Path} (hv : 4 ≤ version) (h : LogImage d log header recs)
    (hlt : log.file.inode < d.next) (habs : d.dir path = none)
    (xs : List (Bytes × (ℕ × Rec version))) (hxs : ∀ x ∈ xs, x ∈ liveRecs recs)
    (hext : ∀ x ∈ xs, x.2.2.extensions = []) (rest : List Bytes) :
    ∃ first d1 out d2, Disk.exec (createAppendLogMode path) d = (.ok first, d1) ∧
      Disk.exec (visitLive log (replay [] recs).keysSortedByOffset.2 putV4Record (xs.map Prod.fst ++ rest) first) d1 =
        Disk.exec (visitLive log (replay [] recs).keysSortedByOffset.2 putV4Record rest out) d2 ∧
      CopyingV4 d path log header recs xs d2 out := by
  obtain ⟨first, hcreate, ho⟩ := exec_createAppendLogMode habs
  have hstart : CopyingV4 d path log header recs [] ((d.create path).setContent d.next currentHeader) first := by
    refine ⟨?_, ?_, ho.file, ho.incompatibleFeatures, ho.readOnlyFeatures, touched_setContent _ _ _⟩
    · refine h.of_same ⟨rfl, rfl, rfl, rfl, rfl⟩ rfl ?_
      rw [Disk.files_setContent_ne _ _ _ _ (Nat.ne_of_lt hlt), Disk.files_create_ne _ _ _ (Nat.ne_of_lt hlt)]
    · refine ho.image rfl currentHeader_length ?_ ?_
      · rw [Disk.content_setContent, List.map_nil, concat_nil, List.append_nil]
      · rw [Disk.content_setContent, currentHeader_length]
  obtain ⟨out, d2, hloop, hcopy⟩ := exec_visitLive hv (replay_get [] recs)
    (I := CopyingV4 d path log header recs) (fun _ _ _ hI => hI.source) xs hxs
    (fun x hx done d' out hI => exec_putV4Record hlt hI (hxs x hx) (hext x hx)) rest hstart
  exact ⟨first, _, out, d2, hcreate, hloop, hcopy⟩

/-- The header of the output. -/
def v4Header : Bytes := Header.bytes ⟨4, 0, 0⟩

/-- **`writeV4Log` writes what a compaction would write, under the header of version 4.** -/
theorem exec_writeV4Log {path : Path} (hv : 4 ≤ version) (h : LogImage d log header recs)
    (hlt : log.file.inode < d.next) (habs : d.dir path = none)
    (hext : ∀ x ∈ liveRecs recs, x.2.2.extensions = []) :
    ∃ d', Disk.exec (writeV4Log log (replay [] recs) path) d = (.ok (), d') ∧
      Written d d' path (v4Header ++ concat (compacted recs)) := by
  obtain ⟨first, d1, out, d2, hcreate, hloop, hcopy⟩ := exec_writeV4Log_front hv h hlt habs (liveRecs recs)
    (fun _ hx => hx) hext []
  have hopen : out.file.isOpen = true := by rw [hcopy.file]
  have hset := exec_setVersion hopen 4 d2
  have hbytes : writeAt (d2.files out.file.inode).content 0
      (Header.bytes ⟨4, out.incompatibleFeatures, out.readOnlyFeatures⟩) = v4Header ++ concat (compacted recs) := by
    rw [hcopy.image.content, hcopy.incompatibleFeatures, hcopy.readOnlyFeatures]
    exact writeAt_front currentHeader _ v4Header (by rw [currentHeader_length]; exact Header.bytes_length _)
  have hinode : out.file.inode = d.next := by rw [hcopy.file]
  rw [hbytes, hinode] at hset
  have hclose := exec_closeLog (l := { out with version := 4 }) hopen
    ((d2.setContent d.next (v4Header ++ concat (compacted recs))).syncFile d.next)
  refine ⟨(d2.setContent d.next (v4Header ++ concat (compacted recs))).syncFile d.next, ?_,
    written_of_touched (hcopy.touched.trans ((touched_setContent _ _ _).trans (touched_syncFile _ _))) ?_⟩
  · unfold writeV4Log forEachLiveRecord
    rw [Disk.exec_andThen_ok hcreate, replay_sortedKeys]
    rw [List.append_nil] at hloop
    rw [Disk.exec_orElseState_ok hloop, Disk.exec_orElseState_ok hset, Disk.exec_bind_eq hclose]
    rfl
  · rw [Disk.content_syncFile, Disk.content_setContent]

/-- `writeV4Log` refuses a record with an extension area, wherever it stands. -/
theorem exec_writeV4Log_extension {path : Path} (hv : 4 ≤ version) (h : LogImage d log header recs)
    (hlt : log.file.inode < d.next) (habs : d.dir path = none)
    (hext : ¬ ∀ x ∈ liveRecs recs, x.2.2.extensions = []) :
    ∃ e d', Disk.exec (writeV4Log log (replay [] recs) path) d = (.error e, d') := by
  obtain ⟨pre, x, post, hlive, hpre, hbad⟩ := exists_first_not hext
  have hmem : ∀ y ∈ pre ++ x :: post, y ∈ liveRecs recs := fun y hy => hlive ▸ hy
  have hx := hmem x (List.mem_append_right _ List.mem_cons_self)
  obtain ⟨first, d1, out, d2, hcreate, hloop, hcopy⟩ := exec_writeV4Log_front hv h hlt habs pre
    (fun y hy => hmem y (List.mem_append_left _ hy)) hpre ((x :: post).map Prod.fst)
  have hread := exec_readRecordAndExtensionsAt (hcopy.source.storedAt (liveRecs_mem hx).1) hv
  obtain ⟨e, hput⟩ : ∃ e, Disk.exec (putV4Record x.1 x.2.2.value x.2.2.extensions x.2.2.attributes out) d2 =
      ((.error e, out), d2) := by
    unfold putV4Record
    rw [if_pos (List.length_pos_iff.mpr hbad)]
    exact ⟨_, rfl⟩
  have hstop : Disk.exec (visitLive log (replay [] recs).keysSortedByOffset.2 putV4Record
      ((x :: post).map Prod.fst) out) d2 = ((.error e, out), d2) := by
    rw [List.map_cons, visitLive, replay_get [] recs x.1 x.2 hx]
    dsimp only [liveEntry, LogRecord.indexEntry, Rec.entry]
    rw [Disk.exec_orElse_ok hread]
    exact (Disk.exec_orElseState_error hput).trans rfl
  refine ⟨e, d2, ?_⟩
  unfold writeV4Log forEachLiveRecord
  rw [Disk.exec_andThen_ok hcreate, replay_sortedKeys, hlive, List.map_append,
    Disk.exec_orElseState_error (hloop.trans hstop), Disk.exec_bind_eq (exec_closeLog (by rw [hcopy.file]) d2)]
  rfl

/-! ## The writer of version 3 -/

/-- A live record that version 3 can express. -/
def V3Encodes (x : Bytes × (ℕ × Rec version)) (b : Bytes) : Prop :=
  encodeV3Record x.1 x.2.2.value x.2.2.extensions (enumerate x.2.2.attributes) = .ok b

/-- The header of the output. -/
def v3Header : Bytes := Header.bytes ⟨3, 0, 0⟩

/-- The state of `writeV3Log` after some records. -/
structure CopyingV3 (d : Disk) (path : Path) (log : AppendLog) (header : Bytes) (recs : List (Rec version))
    (bytes : Bytes × (ℕ × Rec version) → Bytes) (done : List (Bytes × (ℕ × Rec version))) (d' : Disk)
    (w : BufferedWriter) : Prop where
  source : LogImage d' log header recs
  wrote : BufferedWriter.Wrote d' w (v3Header ++ done.flatMap bytes)
  file : w.file = ⟨d.next, true⟩
  touched : Touched (d.create path) d' d.next

theorem CopyingV3.write {path : Path} (hlt : log.file.inode < d.next)
    {bytes : Bytes × (ℕ × Rec version) → Bytes} {done : List (Bytes × (ℕ × Rec version))} {d' : Disk}
    {w : BufferedWriter} (h : CopyingV3 d path log header recs bytes done d' w) {x : Bytes × (ℕ × Rec version)}
    (hx : V3Encodes x (bytes x)) :
    ∃ w' d'', Disk.exec (putV3Record x.1 x.2.2.value x.2.2.extensions x.2.2.attributes w) d' = ((.ok (), w'), d'') ∧
      CopyingV3 d path log header recs bytes (done ++ [x]) d'' w' := by
  obtain ⟨w', d'', hwrite, hwrote, hfile, ht⟩ := BufferedWriter.exec_write h.wrote (bytes x)
  have hinode : w.file.inode = d.next := by rw [h.file]
  rw [hinode] at ht
  refine ⟨w', d'', ?_, ⟨?_, ?_, by rw [hfile, h.file], h.touched.trans ht⟩⟩
  · unfold putV3Record
    rw [hx]
    dsimp only
    rw [Disk.exec_bind_eq hwrite]
    rfl
  · exact h.source.of_same ⟨rfl, rfl, rfl, rfl, rfl⟩ rfl (by rw [ht.others _ (Nat.ne_of_lt hlt)])
  · rwa [List.flatMap_append, List.flatMap_singleton, ← List.append_assoc]

/-- **`writeV3Log` writes the encoded live records, one after the other.** -/
theorem exec_writeV3Log {path : Path} (hv : 4 ≤ version) (h : LogImage d log header recs)
    (hlt : log.file.inode < d.next) (habs : d.dir path = none)
    {bytes : Bytes × (ℕ × Rec version) → Bytes} (hbytes : ∀ x ∈ liveRecs recs, V3Encodes x (bytes x)) :
    ∃ d', Disk.exec (writeV3Log log (replay [] recs) path) d = (.ok (), d') ∧
      Written d d' path (v3Header ++ (liveRecs recs).flatMap bytes) := by
  have hcreate := Disk.exec_open_none habs true
  have hnew : BufferedWriter.Wrote (d.create path) (BufferedWriter.new ⟨d.next, true⟩ (1 <<< 20)) [] :=
    BufferedWriter.wrote_new rfl _ (by simp)
  obtain ⟨w, d1, hhead, hwrote, hfile, ht⟩ := BufferedWriter.exec_write hnew v3Header
  have hstart : CopyingV3 d path log header recs bytes [] d1 w := by
    refine ⟨?_, by rwa [List.nil_append] at hwrote, hfile, ht⟩
    refine h.of_same ⟨rfl, rfl, rfl, rfl, rfl⟩ rfl ?_
    rw [ht.others _ (Nat.ne_of_lt hlt), Disk.files_create_ne _ _ _ (Nat.ne_of_lt hlt)]
  obtain ⟨w', d2, hloop, hcopy⟩ := exec_visitLive hv (replay_get [] recs)
    (I := CopyingV3 d path log header recs bytes) (fun _ _ _ hI => hI.source) (liveRecs recs) (fun _ hx => hx)
    (fun x hx done d' w hI => hI.write hlt (hbytes x hx)) [] hstart
  rw [List.append_nil] at hloop
  rw [List.nil_append] at hcopy
  have hw := hcopy.wrote
  obtain ⟨w'', d3, hflush, hflushed, hempty, hfile'', -, ht3⟩ :=
    BufferedWriter.exec_flush hw.isOpen hw.err hw.offset hw.content
  have hinode : w'.file.inode = d.next := by rw [hcopy.file]
  have hcontent := hflushed.content
  rw [hempty, List.append_nil, hfile'', hinode] at hcontent
  rw [hinode] at ht3
  refine ⟨d3.syncFile d.next, ?_, written_of_touched
    ((hcopy.touched.trans ht3).trans (touched_syncFile _ _)) (by rw [Disk.content_syncFile, hcontent])⟩
  unfold writeV3Log forEachLiveRecord
  rw [v3Header] at hhead
  rw [Disk.exec_orElse_ok hcreate, Disk.exec_bind_eq hhead, replay_sortedKeys, Disk.exec_orElseState_ok hloop,
    Disk.exec_orElseState_ok hflush, Disk.exec_orElse_ok (Disk.exec_fsync rfl d3)]
  unfold asErr
  rw [Disk.exec_orElse_ok (Disk.exec_close rfl _)]
  rfl

/-! ## The run without failures -/

/-- The output is in place. -/
structure Published (d d' : Disk) (dst : Path) (b : Bytes) : Prop where
  dir : d'.dir = Function.update (Function.update d.dir (dst ++ downgradeTempSuffix) none) dst (some d.next)
  content : (d'.files d.next).content = b
  files : ∀ j, j < d.next → d'.files j = d.files j
  locked : ∀ j, d'.locked j = true → d.locked j = true
  next : d'.next = d.next + 1

/-- The writing of the live records, if the writer of the target version succeeds. -/
theorem exec_writeDowngraded {live : Index} {dst : Path} {target : ℕ} {b : Bytes}
    (hwriter : ∀ d1, SameFiles d d1 → d1.dir (dst ++ downgradeTempSuffix) = none →
      ∃ d2, Disk.exec (if target = 4 then writeV4Log log live (dst ++ downgradeTempSuffix)
          else writeV3Log log live (dst ++ downgradeTempSuffix)) d1 = (.ok (), d2) ∧
        Written d1 d2 (dst ++ downgradeTempSuffix) b) :
    ∃ d', Disk.exec (writeDowngraded log live dst target) d = (.ok (), d') ∧ Published d d' dst b := by
  obtain ⟨d1, h1, hs1, hdir1⟩ := exec_removeIfExists d (dst ++ downgradeTempSuffix)
  obtain ⟨d2, h2, hw⟩ := hwriter d1 hs1 (by rw [hdir1, Function.update_self])
  have htmp : d2.dir (dst ++ downgradeTempSuffix) = some d1.next := by rw [hw.dir, Function.update_self]
  obtain ⟨d3, h3, hs3, hdir3⟩ := exec_rename_promote htmp dst
  refine ⟨d3.syncNames, ?_, ⟨?_, ?_, ?_, ?_, ?_⟩⟩
  · unfold writeDowngraded
    dsimp only
    rw [Disk.exec_andThen_ok h1, Disk.exec_orElse_ok h2, Disk.exec_orElse_ok h3, exec_syncParentDirectory]
  · rw [Disk.dir_syncNames, hdir3, hw.dir, hdir1, hs1.next, Function.update_idem, Function.update_idem]
  · rw [Disk.files_syncNames, hs3.files, ← hs1.next]
    exact hw.content
  · intro j hj
    rw [Disk.files_syncNames, hs3.files, hw.files j (by rw [hs1.next]; exact hj), hs1.files]
  · intro j hj
    rw [Disk.locked_syncNames, hs3.locked] at hj
    rw [← hs1.locked]
    exact hw.locked j hj
  · rw [Disk.next_syncNames, hs3.next, hw.next, hs1.next]

/-- The writing of the live records, if the writer fails. -/
theorem exec_writeDowngraded_error {live : Index} {dst : Path} {target : ℕ}
    (hwriter : ∀ d1, SameFiles d d1 → d1.dir (dst ++ downgradeTempSuffix) = none →
      ∃ e d2, Disk.exec (if target = 4 then writeV4Log log live (dst ++ downgradeTempSuffix)
          else writeV3Log log live (dst ++ downgradeTempSuffix)) d1 = (.error e, d2)) :
    ∃ e d', Disk.exec (writeDowngraded log live dst target) d = (.error e, d') := by
  obtain ⟨d1, h1, hs1, hdir1⟩ := exec_removeIfExists d (dst ++ downgradeTempSuffix)
  obtain ⟨e, d2, h2⟩ := hwriter d1 hs1 (by rw [hdir1, Function.update_self])
  unfold writeDowngraded
  dsimp only
  rw [Disk.exec_andThen_ok h1, Disk.exec_orElse_error h2, Disk.exec_bind]
  exact ⟨e, _, rfl⟩

/-- The disk on which the open source has been scanned. -/
structure Staged (d d' : Disk) (src : Path) (i k : ℕ) : Prop where
  main : d'.dir src = some i
  noArtifacts : ∀ q ∈ artifacts src, d'.dir q = none
  names : ∀ q, q ≠ src → q ∉ artifacts src → q ≠ src ++ lockFileSuffix → d'.dir q = d.dir q
  locked : ∀ j, j ≠ k → d'.locked j = d.locked j
  sound : d'.Sound

theorem liveRecord_eq (record : LogRecord) (live : Index) :
    liveRecord record live = .ok (indexStep record live) := by
  unfold liveRecord indexStep
  split <;> rfl

theorem exec_checkDestination {dst : Path} {overwrite : Bool} (h : overwrite = true ∨ d.dir dst = none) :
    Disk.exec (checkDestination dst overwrite) d = (.ok (), d) := by
  unfold checkDestination
  cases overwrite with
  | true => rfl
  | false =>
    have habs := h.resolve_left Bool.false_ne_true
    rw [if_neg Bool.false_ne_true, Disk.exec_orElse_error (Disk.exec_stat_none habs)]
    rfl

/-- A run whose arguments are accepted. -/
theorem exec_downgrade_accepted {src dst : Path} {options : DowngradeOptions}
    (hversion : options.version = 3 ∨ options.version = 4) (hne : src ≠ dst)
    (hdst : options.overwrite = true ∨ d.dir dst = none) (hs : d.Sound) (hfree : LockFree d src) :
    ∃ k d1, Ready d d1 src ⟨some ⟨k, true⟩⟩ ∧ (∀ j, j ≠ k → d1.locked j = d.locked j) ∧
      Disk.exec (downgrade src dst options) d =
        ((Disk.exec ((openAppendLogFile src).andThen fun log => do
            let (r, log) ← downgradeOpened log src dst options.version
            let _ ← log.close
            pure r) d1).1,
          (Disk.exec ((openAppendLogFile src).andThen fun log => do
            let (r, log) ← downgradeOpened log src dst options.version
            let _ ← log.close
            pure r) d1).2.setLock k false) := by
  obtain ⟨k, d0, d1, hlock, hrecover, hready, hlocked⟩ := exec_lockAndRecover hs hfree
  refine ⟨k, d1, hready, hlocked, ?_⟩
  have hlocked : Disk.exec (downgradeLocked src dst options.version) d0 =
      Disk.exec ((openAppendLogFile src).andThen fun log => do
        let (r, log) ← downgradeOpened log src dst options.version
        let _ ← log.close
        pure r) d1 := by
    unfold downgradeLocked openAppendLog
    refine Disk.exec_orElse_congr ?_
    rw [Disk.exec_andThen_ok hrecover]
  unfold downgrade
  dsimp only
  rw [if_neg (by omega), if_neg hne, Disk.exec_andThen_ok (exec_checkDestination hdst), Disk.exec_andThen_ok hlock,
    Disk.exec_bind, hlocked, Disk.exec_bind_eq (exec_release rfl _)]
  rfl

/-- A run once its source is open. -/
theorem exec_downgrade_opened {src dst : Path} {options : DowngradeOptions} {k : ℕ} {d1 d2 d3 : Disk} {l l' : AppendLog}
    {r : Except Err Unit}
    (hexec : Disk.exec (downgrade src dst options) d =
      ((Disk.exec ((openAppendLogFile src).andThen fun log => do
          let (r, log) ← downgradeOpened log src dst options.version
          let _ ← log.close
          pure r) d1).1,
        (Disk.exec ((openAppendLogFile src).andThen fun log => do
          let (r, log) ← downgradeOpened log src dst options.version
          let _ ← log.close
          pure r) d1).2.setLock k false))
    (hopen : Disk.exec (openAppendLogFile src) d1 = (.ok l, d2))
    (hopened : Disk.exec (downgradeOpened l src dst options.version) d2 = ((r, l'), d3))
    (hfile : l'.file.isOpen = true) : Disk.exec (downgrade src dst options) d = (r, d3.setLock k false) := by
  rw [hexec, Disk.exec_andThen_ok hopen, Disk.exec_bind_eq hopened, Disk.exec_bind_eq (exec_closeLog hfile _)]
  rfl

/-- The open source, if it reads: the scan, and then the writing of the live records. -/
theorem exec_downgradeOpened_reads {src : Path} {i : ℕ} {h : Header} {l : AppendLog}
    (ho : Opened l src i h (d.files i).content.length) (hr : Reads (d.files i).content h recs) (hv : 4 ≤ version)
    (hro : h.readOnlyFeatures = 0) (dst : Path) (target : ℕ) :
    ∃ l' d1, Disk.exec (downgradeOpened l src dst target) d =
        (((Disk.exec (writeDowngraded l' (replay [] recs) dst target) d1).1, l'),
          (Disk.exec (writeDowngraded l' (replay [] recs) dst target) d1).2) ∧
      LogImage d1 l' ((d.files i).content.take logHeaderSize) recs ∧ l'.file = ⟨i, true⟩ ∧
      Trimmed d d1 i ((d.files i).content.take logHeaderSize ++ concat recs) ∧ Touched d d1 i := by
  obtain ⟨l', d1, hit, htrim, ht, hsame, hpos⟩ := exec_iterate_reads liveRecord_eq ho hr hro (newIndex [])
  have hlfile : l'.file = ⟨i, true⟩ := by rw [hsame.file, ho.file]
  refine ⟨l', d1, ?_, ⟨?_, ?_, hr.headerLength, ?_, hpos⟩, hlfile, htrim, ht⟩
  · unfold downgradeOpened
    rw [if_neg (by rw [ho.version, hr.versionEq]; omega)]
    dsimp only
    rw [ho.incompatibleFeatures, ho.readOnlyFeatures, hro, hr.known.2.2.1, if_neg (by decide),
      Disk.exec_bind_eq hit]
    dsimp only
    rw [Disk.exec_bind]
    rfl
  · rw [hlfile]
  · rw [hsame.version, ho.version, hr.versionEq]
  · rw [hlfile, htrim.content]

/-- **A run on a source that reads** is the writing of its live records. -/
theorem exec_downgrade_scanned {src dst : Path} {options : DowngradeOptions} {i : ℕ} {h : Header}
    (hversion : options.version = 3 ∨ options.version = 4) (hne : src ≠ dst)
    (hdst : options.overwrite = true ∨ d.dir dst = none) (hs : d.Sound) (hfree : LockFree d src)
    (hmain : recoveredMain d.dir src = some i) (hr : Reads (d.files i).content h recs) (hv : 4 ≤ version)
    (hro : h.readOnlyFeatures = 0) :
    ∃ log d1 k, LogImage d1 log ((d.files i).content.take logHeaderSize) recs ∧ log.file = ⟨i, true⟩ ∧
      Staged d d1 src i k ∧ Disk.exec (downgrade src dst options) d =
        ((Disk.exec (writeDowngraded log (replay [] recs) dst options.version) d1).1,
          (Disk.exec (writeDowngraded log (replay [] recs) dst options.version) d1).2.setLock k false) := by
  obtain ⟨k, d0, hready, hlocked, hexec⟩ := exec_downgrade_accepted hversion hne hdst hs hfree
  have hset := hready.settled hmain
  have hfile : d0.files i = d.files i := hready.files i (recoveredMain_bounded hs hmain)
  have hnonempty : (d0.files i).content ≠ [] := by
    rw [hfile, ← List.length_pos_iff]
    exact Nat.lt_of_lt_of_le (by decide) (readHeaderOf_ok hr.headerOk).1
  rw [← hfile] at hr ⊢
  obtain ⟨l, hopen, ho⟩ := exec_openAppendLogFile_ok hset.dir hnonempty hr.headerOk
  obtain ⟨l', d1, hopened, himage, hlfile, htrim, ht⟩ := exec_downgradeOpened_reads ho hr hv hro dst
    options.version
  have hset1 := hset.of_dir htrim.dir htrim.next
  refine ⟨l', d1, k, himage, hlfile, ⟨hset1.dir, hset1.noArtifacts, ?_, ?_, hset1.sound⟩,
    exec_downgrade_opened hexec hopen hopened (by rw [hlfile])⟩
  · intro q hq hart hlock
    rw [htrim.dir, hready.names q hq hart hlock]
  · intro j hj
    rw [ht.locked, hlocked j hj]

end

end AppendStore
