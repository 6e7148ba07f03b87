import AppendStore.Log.Scan

/-! # What the operations of the log do

`LogImage d l header recs`: the open log `l` is backed by a file that holds the header and the
records, and nothing else. Each operation is described once, over it or over weaker assumptions
where the file may hold more; the layers above use these descriptions and no definition of the log.
-/

namespace AppendStore
open Library
set_option autoImplicit false

structure LogImage {version : ℕ} (d : Disk) (l : AppendLog) (header : Bytes)
    (recs : List (Rec version)) : Prop where
  isOpen : l.file.isOpen = true
  versionEq : l.version = version
  headerLength : header.length = logHeaderSize
  content : (d.files l.file.inode).content = header ++ concat recs
  writePos : l.writePos = logHeaderSize + (concat recs).length

/-- The same log, up to its buffers and its map. -/
structure AppendLog.SameFile (l l' : AppendLog) : Prop where
  file : l'.file = l.file
  path : l'.path = l.path
  version : l'.version = l.version
  incompatibleFeatures : l'.incompatibleFeatures = l.incompatibleFeatures
  readOnlyFeatures : l'.readOnlyFeatures = l.readOnlyFeatures

theorem AppendLog.SameFile.unknownReadOnly {l l' : AppendLog} (h : l.SameFile l') :
    l'.unknownReadOnly = l.unknownReadOnly := by
  rw [AppendLog.unknownReadOnly, AppendLog.unknownReadOnly, h.readOnlyFeatures]

section
variable {version : ℕ} {d : Disk} {l : AppendLog} {header : Bytes} {recs : List (Rec version)}

theorem LogImage.length (h : LogImage d l header recs) :
    (d.files l.file.inode).content.length = l.writePos := by
  rw [h.content, List.length_append, h.headerLength, h.writePos]

/-- The image does not see the buffers, the map, or the rest of the disk. -/
theorem LogImage.of_same {l' : AppendLog} {d' : Disk} (h : LogImage d l header recs) (hs : l.SameFile l')
    (hpos : l'.writePos = l.writePos)
    (hcontent : (d'.files l.file.inode).content = (d.files l.file.inode).content) :
    LogImage d' l' header recs :=
  ⟨by rw [hs.file, h.isOpen], by rw [hs.version, h.versionEq], h.headerLength,
    by rw [hs.file, hcontent, h.content], by rw [hpos, h.writePos]⟩

/-! ## Where records are -/

theorem placed_bounds {pos : ℕ} {x : ℕ × Rec version} (h : x ∈ placed pos recs) :
    pos ≤ x.1 ∧ x.1 + x.2.bytes.length ≤ pos + (concat recs).length := by
  induction recs generalizing pos with
  | nil => cases h
  | cons r recs ih =>
    rw [concat_cons, List.length_append]
    rcases List.mem_cons.mp h with rfl | h
    · dsimp only
      omega
    · obtain ⟨h1, h2⟩ := ih h
      omega

theorem placed_slice {pre t : Bytes} {x : ℕ × Rec version} (h : x ∈ placed pre.length recs) :
    slice (pre ++ concat recs ++ t) x.1 (x.1 + x.2.bytes.length) = x.2.bytes := by
  induction recs generalizing pre with
  | nil => cases h
  | cons r recs ih =>
    rcases List.mem_cons.mp h with rfl | h
    · exact slice_at (p := 0) (a := pre) (t := concat recs ++ t) (by simp [concat_cons]) (by simp) rfl
    · rw [← List.length_append] at h
      have h' := ih h
      rwa [concat_cons, ← List.append_assoc]

theorem placed_pairwise (pos : ℕ) (recs : List (Rec version)) :
    (placed pos recs).Pairwise fun x y => x.1 + x.2.bytes.length ≤ y.1 := by
  induction recs generalizing pos with
  | nil => exact List.Pairwise.nil
  | cons r recs ih =>
    refine List.Pairwise.cons ?_ (ih _)
    intro y hy
    exact (placed_bounds hy).1

theorem placed_map_snd (pos : ℕ) (recs : List (Rec version)) : (placed pos recs).map Prod.snd = recs := by
  induction recs generalizing pos with
  | nil => rfl
  | cons r recs ih => rw [placed, List.map_cons, ih]

/-! ## The memory map -/

theorem exec_remap (hopen : l.file.isOpen = true) (d : Disk) :
    ∃ l', Disk.exec l.remap d = (l', d) ∧ l.SameFile l' ∧ l'.writePos = l.writePos := by
  unfold AppendLog.remap
  split
  · exact ⟨l, rfl, ⟨rfl, rfl, rfl, rfl, rfl⟩, rfl⟩
  · dsimp only
    split
    · exact ⟨_, rfl, ⟨rfl, rfl, rfl, rfl, rfl⟩, rfl⟩
    · have hmap := Disk.exec_mmap hopen d (l.writePos + l.mapSlack)
      split at hmap
      · rw [Disk.exec_orElse_ok hmap]
        exact ⟨_, rfl, ⟨rfl, rfl, rfl, rfl, rfl⟩, rfl⟩
      · rw [Disk.exec_orElse_error hmap]
        exact ⟨_, rfl, ⟨rfl, rfl, rfl, rfl, rfl⟩, rfl⟩

/-- The disk does not see the map. -/
theorem visits_remap {t : Disk} (hopen : l.file.isOpen = true)
    (hv : Prog.Visits Disk.answer l.remap d t) : t = d := by
  unfold AppendLog.remap at hv
  split at hv
  · exact Prog.visits_pure hv
  · dsimp only at hv
    split at hv
    · exact Prog.visits_pure hv
    · have hstate : (Disk.answer (.mmap l.file (l.writePos + l.mapSlack)) d).2 = d := by
        simp only [Disk.answer, Disk.onOpen_open hopen]
      rcases Prog.visits_orElse hv with hv | ⟨a, d', hr, hv⟩ | ⟨e, d', hr, hv⟩
      · rcases Prog.visits_perform hv with rfl | rfl
        · rfl
        · exact hstate
      · rw [Prog.visits_pure hv]
        exact (congrArg Prod.snd hr).symm.trans hstate
      · rw [Prog.visits_pure hv]
        exact (congrArg Prod.snd hr).symm.trans hstate

/-! ## Append -/

theorem takeBuffer_length (appendBuf : Bytes) (n : ℕ) : n ≤ (AppendLog.takeBuffer appendBuf n).1.length := by
  unfold AppendLog.takeBuffer
  split
  · simp
  · rename_i h
    exact Nat.not_lt.mp h

/-- Where a record of `Append` is. -/
def placedAt (pos : ℕ) (raw : RawRecord) : AppendLog.Placed :=
  ⟨pos + (20 + raw.key.length + raw.attributes.length), raw.value.length, pos, raw.bytes.length⟩

variable {key value : Bytes} {attributes : AttributeRange} {extensions ab : Bytes}

/-- A record that `Append` refuses leaves everything as it was. -/
theorem append_rejected {e : Err} {deleted : Bool} (hver : l.version = logVersion) (hro : l.unknownReadOnly = 0)
    (hlim : appendLimits key value attributes extensions = .error e) :
    l.append key value deleted attributes extensions = pure (.error e, l) := by
  unfold AppendLog.append
  rw [if_neg (not_not.mpr hver), if_neg (not_not.mpr hro), hlim]

theorem exec_append_rejected {e : Err} {deleted : Bool} (hver : l.version = logVersion)
    (hro : l.unknownReadOnly = 0) (hlim : appendLimits key value attributes extensions = .error e) :
    Disk.exec (l.append key value deleted attributes extensions) d = ((.error e, l), d) := by
  rw [append_rejected hver hro hlim]
  rfl

/-- What `Append` does after its write. -/
def finishAppend (l : AppendLog) (placed : AppendLog.Placed) :
    FileProg (Except Err AppendLog.Placed × AppendLog) := do
  let l ← if l.writePos > l.mapped.getD 0 then l.remap else pure l
  pure (.ok placed, l)

theorem exec_finishAppend (hopen : l.file.isOpen = true) (placed : AppendLog.Placed) (d : Disk) :
    ∃ l', Disk.exec (finishAppend l placed) d = ((.ok placed, l'), d) ∧ l.SameFile l' ∧
      l'.writePos = l.writePos := by
  unfold finishAppend
  split
  · obtain ⟨l', hremap, hs, hpos⟩ := exec_remap hopen d
    refine ⟨l', ?_, hs, hpos⟩
    rw [Disk.exec_bind_eq hremap]
    rfl
  · exact ⟨l, rfl, ⟨rfl, rfl, rfl, rfl, rfl⟩, rfl⟩

/-- The write `Append` makes, in a log whose append buffer it changed. -/
theorem append_eq (hver : l.version = logVersion) (hro : l.unknownReadOnly = 0)
    (hlim : appendLimits key value attributes extensions = .ok ab) (deleted : Bool) :
    ∃ buf, l.append key value deleted attributes extensions =
      (Sys.writeAt l.file l.writePos (appendRaw key ab value extensions deleted).bytes).orElse
        (fun e => pure (.error (.os e), { l with appendBuf := buf }))
        fun _ => finishAppend
          { l with
            appendBuf := buf
            writePos := l.writePos + (appendRaw key ab value extensions deleted).bytes.length }
          (placedAt l.writePos (appendRaw key ab value extensions deleted)) := by
  obtain ⟨-, hacc⟩ := appendLimits_ok hlim deleted
  have hlen : (appendRaw key ab value extensions deleted).bytes.length = 4 + (recordMinimumLength +
      (key.length + ab.length + value.length + extensions.length)) := by
    rw [RawRecord.bytes_length, hacc.fits.body_length]
    simp only [appendRaw, recordMinimumLength, recordFixedBodySize]
    omega
  have hbuf := takeBuffer_length l.appendBuf (appendRaw key ab value extensions deleted).bytes.length
  have hfill := fillRecord_eq ((AppendLog.takeBuffer l.appendBuf
    (appendRaw key ab value extensions deleted).bytes.length).1.take
      (appendRaw key ab value extensions deleted).bytes.length) key ab value extensions deleted
    (by rw [List.length_take, Nat.min_eq_left hbuf, hlen])
  unfold AppendLog.append
  rw [if_neg (not_not.mpr hver), if_neg (not_not.mpr hro), hlim]
  dsimp only
  rw [← hlen, hfill]
  exact ⟨_, rfl⟩

/-- **`Append` writes the record at the write position, whatever its buffer held.** -/
theorem exec_append (hopen : l.file.isOpen = true) (hver : l.version = logVersion)
    (hro : l.unknownReadOnly = 0) (hlim : appendLimits key value attributes extensions = .ok ab)
    (deleted : Bool) (d : Disk) :
    ∃ l', Disk.exec (l.append key value deleted attributes extensions) d =
        ((.ok (placedAt l.writePos (appendRaw key ab value extensions deleted)), l'),
          d.setContent l.file.inode (writeAt (d.files l.file.inode).content l.writePos
            (appendRaw key ab value extensions deleted).bytes)) ∧
      l.SameFile l' ∧
      l'.writePos = l.writePos + (appendRaw key ab value extensions deleted).bytes.length := by
  obtain ⟨buf, happ⟩ := append_eq hver hro hlim deleted
  rw [happ, Disk.exec_orElse_ok (Disk.exec_writeAt hopen d _ _)]
  obtain ⟨l', hfinish, hs, hpos⟩ := exec_finishAppend (l := { l with
    appendBuf := buf
    writePos := l.writePos + (appendRaw key ab value extensions deleted).bytes.length }) hopen
    (placedAt l.writePos (appendRaw key ab value extensions deleted))
    (d.setContent l.file.inode (writeAt (d.files l.file.inode).content l.writePos
      (appendRaw key ab value extensions deleted).bytes))
  exact ⟨l', hfinish, ⟨hs.file, hs.path, hs.version, hs.incompatibleFeatures, hs.readOnlyFeatures⟩, hpos⟩

theorem visits_finishAppend {placed : AppendLog.Placed} {t : Disk} (hopen : l.file.isOpen = true)
    (hv : Prog.Visits Disk.answer (finishAppend l placed) d t) : t = d := by
  unfold finishAppend at hv
  split at hv
  · obtain ⟨l', hremap, -⟩ := exec_remap hopen d
    rcases Prog.visits_bind_eq hremap hv with hv | hv
    · exact visits_remap hopen hv
    · exact Prog.visits_pure hv
  · exact Prog.visits_pure hv

/-- The file during an `Append`: as before, or with the record. -/
theorem visits_append (hopen : l.file.isOpen = true) (hver : l.version = logVersion)
    (hro : l.unknownReadOnly = 0) (hlim : appendLimits key value attributes extensions = .ok ab)
    (deleted : Bool) {d t : Disk}
    (hv : Prog.Visits Disk.answer (l.append key value deleted attributes extensions) d t) :
    t = d ∨ t = d.setContent l.file.inode (writeAt (d.files l.file.inode).content l.writePos
      (appendRaw key ab value extensions deleted).bytes) := by
  obtain ⟨buf, happ⟩ := append_eq hver hro hlim deleted
  rw [happ] at hv
  have hwrite := Disk.exec_writeAt hopen d l.writePos (appendRaw key ab value extensions deleted).bytes
  rcases Prog.visits_orElse_ok hwrite hv with hv | hv
  · rcases Prog.visits_perform hv with rfl | rfl
    · exact .inl rfl
    · exact .inr (congrArg Prod.snd hwrite)
  · refine .inr (visits_finishAppend ?_ hv)
    exact hopen

/-- The record `Append` writes, as a unit. -/
def appendRec (h : appendLimits key value attributes extensions = .ok ab) (deleted : Bool) :
    Rec logVersion :=
  Rec.ofRaw (by decide) (appendRaw key ab value extensions deleted) attributes.toFinmap
    (appendLimits_ok h deleted).2

theorem appendRec_deleted (h : appendLimits key value attributes extensions = .ok ab) (deleted : Bool) :
    (appendRec h deleted).deleted = deleted := by
  change decide ((if deleted then (1 : UInt8) else 0) &&& 1 ≠ 0) = deleted
  cases deleted <;> decide

/-- A record of one byte under a key of one byte. -/
def shortRec (k v : UInt8) : Rec logVersion :=
  appendRec (show appendLimits [k] [v] ∅ [] = .ok [0, 0, 0, 0] from rfl) false

/-- `Append` on a log whose file ends at the write position adds one record. -/
theorem exec_append_image {recs : List (Rec logVersion)} (h : LogImage d l header recs)
    (hro : l.unknownReadOnly = 0) (hlim : appendLimits key value attributes extensions = .ok ab)
    (deleted : Bool) :
    ∃ l' d', Disk.exec (l.append key value deleted attributes extensions) d =
        ((.ok (placedAt l.writePos (appendRaw key ab value extensions deleted)), l'), d') ∧
      d' = d.setContent l.file.inode
        ((d.files l.file.inode).content ++ (appendRec hlim deleted).bytes) ∧
      l.SameFile l' ∧ LogImage d' l' header (recs ++ [appendRec hlim deleted]) := by
  obtain ⟨l', hexec, hs, hpos⟩ := exec_append h.isOpen h.versionEq hro hlim deleted d
  rw [← h.length, writeAt_end, h.length] at hexec
  refine ⟨l', _, hexec, rfl, hs, ⟨?_, ?_, h.headerLength, ?_, ?_⟩⟩
  · rw [hs.file, h.isOpen]
  · rw [hs.version, h.versionEq]
  · rw [hs.file, Disk.content_setContent, h.content, concat_append, concat_cons, concat_nil,
      List.append_nil, List.append_assoc]
    rfl
  · rw [hpos, h.writePos, concat_append, concat_cons, concat_nil, List.append_nil, List.length_append,
      Nat.add_assoc]
    rfl

/-! ## Point reads -/

/-- A record is found through the map or in the file. -/
theorem mappedRecord_cases (l : AppendLog) (pos n : ℕ) :
    l.mappedRecord pos n = none ∨ l.mappedRecord pos n = some (pos, pos + n) := by
  unfold AppendLog.mappedRecord
  split
  · exact .inl rfl
  · dsimp only
    split
    · exact .inl rfl
    · exact .inr rfl

/-- A record is in the file of an open log, at a position. Nothing else is known of the file. -/
structure StoredAt (d : Disk) (l : AppendLog) (x : ℕ × Rec version) : Prop where
  isOpen : l.file.isOpen = true
  bytes : slice (d.files l.file.inode).content x.1 (x.1 + x.2.bytes.length) = x.2.bytes
  inFile : x.1 + x.2.bytes.length ≤ (d.files l.file.inode).content.length

theorem LogImage.storedAt {x : ℕ × Rec version} (h : LogImage d l header recs)
    (hx : x ∈ placed logHeaderSize recs) : StoredAt d l x := by
  obtain ⟨-, hend⟩ := placed_bounds hx
  rw [← h.headerLength] at hx
  have hs := placed_slice (t := []) hx
  rw [List.append_nil, ← h.content] at hs
  exact ⟨h.isOpen, hs, by rw [h.content, List.length_append, h.headerLength]; exact hend⟩

section
variable {x : ℕ × Rec version} (h : StoredAt d l x)
include h

theorem exec_readRecordFromFile (hv : 4 ≤ version) (scratch : Bytes) :
    ∃ scratch', Disk.exec (l.readRecordFromFile x.1 x.2.bytes.length scratch) d =
      ((.ok x.2.value, scratch'), d) := by
  have hread := Disk.exec_readAt h.isOpen d x.1 x.2.bytes.length h.inFile
  rw [h.bytes] at hread
  unfold AppendLog.readRecordFromFile
  rw [Disk.exec_orElse_ok hread]
  dsimp only
  rw [List.take_left, (x.2.stored hv).2.1]
  exact ⟨_, rfl⟩

theorem exec_readRecordAt (hv : 4 ≤ version) :
    Disk.exec (l.readRecordAt x.1 x.2.bytes.length) d = (.ok x.2.value, d) := by
  obtain ⟨hsize, hval, -⟩ := x.2.stored hv
  unfold AppendLog.readRecordAt
  rw [hsize]
  dsimp only
  rcases mappedRecord_cases l x.1 x.2.bytes.length with hm | hm
  · obtain ⟨scratch', hfile⟩ := exec_readRecordFromFile h hv []
    rw [hm]
    dsimp only
    rw [Disk.exec_bind_eq hfile]
    rfl
  · rw [hm]
    dsimp only
    rw [Disk.exec_bind_eq (Disk.exec_mapped l.file _ _ d), h.bytes, hval]
    rfl

theorem exec_readRecordAtInto (hv : 4 ≤ version) (scratch : Bytes) :
    ∃ scratch', Disk.exec (l.readRecordAtInto x.1 x.2.bytes.length scratch) d =
      ((.ok x.2.value, scratch'), d) := by
  obtain ⟨hsize, hval, -⟩ := x.2.stored hv
  unfold AppendLog.readRecordAtInto
  rw [hsize]
  dsimp only
  rcases mappedRecord_cases l x.1 x.2.bytes.length with hm | hm
  · rw [hm]
    exact exec_readRecordFromFile h hv scratch
  · rw [hm]
    dsimp only
    rw [Disk.exec_bind_eq (Disk.exec_mapped l.file _ _ d), h.bytes, hval]
    exact ⟨_, rfl⟩

theorem exec_readRecordAndExtensionsAt (hv : 4 ≤ version) :
    Disk.exec (l.readRecordAndExtensionsAt x.1 x.2.bytes.length) d =
      (.ok (x.2.value, x.2.extensions), d) := by
  obtain ⟨hsize, -, hval⟩ := x.2.stored hv
  unfold AppendLog.readRecordAndExtensionsAt
  rw [hsize]
  dsimp only
  rcases mappedRecord_cases l x.1 x.2.bytes.length with hm | hm
  · have hread := Disk.exec_readAt h.isOpen d x.1 x.2.bytes.length h.inFile
    rw [hm]
    dsimp only
    rw [Disk.exec_orElse_ok hread, h.bytes, hval]
    rfl
  · rw [hm]
    dsimp only
    rw [Disk.exec_bind_eq (Disk.exec_mapped l.file _ _ d), h.bytes, hval]
    rfl

theorem StoredAt.slice_value : slice (d.files l.file.inode).content (x.1 + x.2.valueAt)
    (x.1 + x.2.valueAt + x.2.value.length) = x.2.value := by
  have hv := x.2.valueSlice
  rwa [← h.bytes, slice_slice _ _ _ _ _ x.2.valueEnd, ← Nat.add_assoc] at hv

theorem exec_readAt_value :
    Disk.exec (l.readAt (x.1 + x.2.valueAt) x.2.value.length) d = (.ok x.2.value, d) := by
  have hend := h.inFile
  have hin := x.2.valueEnd
  have hread := Disk.exec_readAt h.isOpen d (x.1 + x.2.valueAt) x.2.value.length (by omega)
  unfold AppendLog.readAt asErr
  rw [Disk.exec_orElse_ok hread, h.slice_value]
  rfl

end

/-! ## Syncing and closing -/

theorem exec_closeLog (hopen : l.file.isOpen = true) (d : Disk) :
    Disk.exec l.close d =
      ((.ok (), { l with mapped := none, file := { l.file with isOpen := false } }), d) := by
  have hfile : Disk.exec (asErr (Sys.close l.file)) d = (.ok (), d) := by
    unfold asErr
    rw [Disk.exec_orElse_ok (Disk.exec_close hopen d)]
    rfl
  unfold AppendLog.close
  rw [Disk.exec_bind_eq hfile]
  rfl

theorem exec_syncLog (hopen : l.file.isOpen = true) (d : Disk) :
    Disk.exec l.sync d = (.ok (), d.syncFile l.file.inode) := by
  unfold AppendLog.sync asErr
  rw [Disk.exec_orElse_ok (Disk.exec_fsync hopen d)]
  rfl

/-! ## Opening a file -/

/-- The header of a log this build writes. -/
def currentHeader : Bytes := Header.bytes ⟨logVersion, 0, 0⟩

theorem currentHeader_length : currentHeader.length = logHeaderSize := Header.bytes_length _

theorem decodeHeader_current : decodeHeader currentHeader = .ok ⟨logVersion, 0, 0⟩ := by
  rw [currentHeader, logVersion, decodeHeader_bytes 5 0 0 (by decide) (by decide) (by decide) (by decide)
    (by decide), if_pos rfl, if_pos rfl]

theorem currentHeader_append_ne_nil (b : Bytes) : currentHeader ++ b ≠ [] :=
  List.append_ne_nil_of_left_ne_nil (by decide) b

/-- The log that opening a file gives. -/
structure Opened (l : AppendLog) (path : Path) (i : ℕ) (h : Header) (size : ℕ) : Prop where
  file : l.file = ⟨i, true⟩
  path : l.path = path
  version : l.version = h.version
  incompatibleFeatures : l.incompatibleFeatures = h.incompatibleFeatures
  readOnlyFeatures : l.readOnlyFeatures = h.readOnlyFeatures
  writePos : l.writePos = size

theorem Opened.image {path : Path} {i : ℕ} {h : Header} {size : ℕ} (ho : Opened l path i h size)
    (hver : h.version = version) (hlen : header.length = logHeaderSize)
    (hcontent : (d.files i).content = header ++ concat recs) (hsize : size = (d.files i).content.length) :
    LogImage d l header recs := by
  refine ⟨by rw [ho.file], by rw [ho.version, hver], hlen, by rw [ho.file, hcontent], ?_⟩
  rw [ho.writePos, hsize, hcontent, List.length_append, hlen]

/-- `remap` at the end of opening a log. -/
theorem exec_opened {path : Path} {i : ℕ} {h : Header} {size : ℕ} (ho : Opened l path i h size) (d : Disk) :
    ∃ l', Disk.exec (do let l ← l.remap; pure (.ok l) : FileProg (Except Err AppendLog)) d = (.ok l', d) ∧
      Opened l' path i h size := by
  obtain ⟨l', hremap, hs, hpos⟩ := exec_remap (by rw [ho.file] : l.file.isOpen = true) d
  refine ⟨l', by rw [Disk.exec_bind_eq hremap]; rfl, ?_⟩
  exact ⟨by rw [hs.file, ho.file], by rw [hs.path, ho.path], by rw [hs.version, ho.version],
    by rw [hs.incompatibleFeatures, ho.incompatibleFeatures],
    by rw [hs.readOnlyFeatures, ho.readOnlyFeatures], by rw [hpos, ho.writePos]⟩

theorem exec_writeHeader (hopen : l.file.isOpen = true) (d : Disk) :
    Disk.exec l.writeHeader d = (.ok (), d.setContent l.file.inode (writeAt (d.files l.file.inode).content 0
      (Header.bytes ⟨l.version, l.incompatibleFeatures, l.readOnlyFeatures⟩))) := by
  unfold AppendLog.writeHeader asErr
  rw [Disk.exec_orElse_ok (Disk.exec_writeAt hopen d _ _)]
  rfl

theorem exec_setVersion (hopen : l.file.isOpen = true) (version : ℕ) (d : Disk) :
    Disk.exec (l.setVersion version) d = ((.ok (), { l with version := version }),
      (d.setContent l.file.inode (writeAt (d.files l.file.inode).content 0
        (Header.bytes ⟨version, l.incompatibleFeatures, l.readOnlyFeatures⟩))).syncFile l.file.inode) := by
  have hwrite := exec_writeHeader (l := { l with version := version }) hopen d
  have hsync : ∀ d', Disk.exec (asErr (Sys.fsync l.file)) d' = (.ok (), d'.syncFile l.file.inode) := by
    intro d'
    unfold asErr
    rw [Disk.exec_orElse_ok (Disk.exec_fsync hopen d')]
    rfl
  unfold AppendLog.setVersion
  dsimp only
  rw [Disk.exec_orElse_ok hwrite, Disk.exec_bind_eq (hsync _)]
  rfl

/-- An empty file becomes an empty log. -/
theorem exec_writeHeader_new (path : Path) (i : ℕ) (hempty : (d.files i).content = []) :
    Disk.exec (newAppendLog ⟨i, true⟩ path).writeHeader d = (.ok (), d.setContent i currentHeader) := by
  have hw := exec_writeHeader (l := newAppendLog ⟨i, true⟩ path) rfl d
  have hnil : writeAt (d.files i).content 0 currentHeader = currentHeader := by
    rw [hempty]
    exact writeAt_end [] currentHeader
  exact hw.trans (by rw [← hnil]; rfl)

theorem exec_createAppendLogMode {path : Path} (habs : d.dir path = none) :
    ∃ l', Disk.exec (createAppendLogMode path) d =
        (.ok l', (d.create path).setContent d.next currentHeader) ∧
      Opened l' path d.next ⟨logVersion, 0, 0⟩ logHeaderSize := by
  unfold createAppendLogMode
  rw [Disk.exec_orElse_ok (Disk.exec_open_none habs true)]
  dsimp only
  rw [Disk.exec_orElse_ok (exec_writeHeader_new path d.next (by simp))]
  exact exec_opened ⟨rfl, rfl, rfl, rfl, rfl, rfl⟩ _

/-- The second half of opening a file, once its size is known to be zero. -/
theorem exec_openAppendLogFile_fresh {path : Path} {i : ℕ} {d' : Disk}
    (hfile : Disk.exec (Sys.openFile path true false) d = (.ok ⟨i, true⟩, d'))
    (hempty : (d'.files i).content = []) :
    ∃ l', Disk.exec (openAppendLogFile path) d = (.ok l', d'.setContent i currentHeader) ∧
      Opened l' path i ⟨logVersion, 0, 0⟩ logHeaderSize := by
  unfold openAppendLogFile startLog
  rw [Disk.exec_orElse_ok hfile, Disk.exec_orElse_ok (Disk.exec_fstat rfl d')]
  dsimp only
  rw [hempty, List.length_nil, if_pos rfl]
  rw [Disk.exec_andThen_ok (p := Prog.orElse _ _ _) (by
    rw [Disk.exec_orElse_ok (exec_writeHeader_new path i hempty)]
    rfl)]
  exact exec_opened ⟨rfl, rfl, rfl, rfl, rfl, rfl⟩ _

theorem exec_openAppendLogFile_absent {path : Path} (habs : d.dir path = none) :
    ∃ l', Disk.exec (openAppendLogFile path) d =
        (.ok l', (d.create path).setContent d.next currentHeader) ∧
      Opened l' path d.next ⟨logVersion, 0, 0⟩ logHeaderSize :=
  exec_openAppendLogFile_fresh (Disk.exec_open_none habs false) (by simp)

theorem exec_openAppendLogFile_empty {path : Path} {i : ℕ} (hdir : d.dir path = some i)
    (hempty : (d.files i).content = []) :
    ∃ l', Disk.exec (openAppendLogFile path) d = (.ok l', d.setContent i currentHeader) ∧
      Opened l' path i ⟨logVersion, 0, 0⟩ logHeaderSize :=
  exec_openAppendLogFile_fresh (Disk.exec_open_some hdir true) hempty

/-- What `readHeader` makes of a file that is not empty. -/
def readHeaderOf (content : Bytes) : Except Err Header :=
  if content.length < logHeaderSize then .error (.printed .corruptedData "read header" (.os .eof))
  else decodeHeader (content.take logHeaderSize)

theorem readHeaderOf_current (t : Bytes) : readHeaderOf (currentHeader ++ t) = .ok ⟨logVersion, 0, 0⟩ := by
  unfold readHeaderOf
  rw [if_neg (by rw [List.length_append, currentHeader_length]; omega), List.take_left' currentHeader_length,
    decodeHeader_current]

theorem exec_readHeader (hopen : l.file.isOpen = true) (d : Disk) :
    Disk.exec l.readHeader d =
      ((readHeaderOf (d.files l.file.inode).content).map fun h => { l with
        version := h.version
        incompatibleFeatures := h.incompatibleFeatures
        readOnlyFeatures := h.readOnlyFeatures }, d) := by
  unfold AppendLog.readHeader readHeaderOf
  split
  · rename_i hlt
    rw [Disk.exec_orElse_error (Disk.exec_readAt_short hopen d 0 logHeaderSize (by decide) (by omega))]
    rfl
  · rename_i hge
    rw [Disk.exec_orElse_ok (Disk.exec_readAt hopen d 0 logHeaderSize (by omega)), Nat.zero_add]
    have hslice : slice (d.files l.file.inode).content 0 logHeaderSize =
        (d.files l.file.inode).content.take logHeaderSize := rfl
    rw [hslice]
    cases decodeHeader ((d.files l.file.inode).content.take logHeaderSize) <;> rfl

theorem exec_openAppendLogFile_ok {path : Path} {i : ℕ} (hdir : d.dir path = some i) {h : Header}
    (hne : (d.files i).content ≠ []) (hh : readHeaderOf (d.files i).content = .ok h) :
    ∃ l', Disk.exec (openAppendLogFile path) d = (.ok l', d) ∧
      Opened l' path i h (d.files i).content.length := by
  have hlen : (d.files i).content.length ≠ 0 := by simpa using hne
  have hread := exec_readHeader (l := newAppendLog ⟨i, true⟩ path) rfl d
  unfold openAppendLogFile startLog
  rw [Disk.exec_orElse_ok (Disk.exec_open_some hdir true), Disk.exec_orElse_ok (Disk.exec_fstat rfl d)]
  dsimp only
  rw [if_neg hlen]
  change Disk.exec _ d = (Except.map _ (readHeaderOf (d.files i).content), d) at hread
  rw [hh] at hread
  rw [Disk.exec_andThen_ok (p := Prog.orElse _ _ _) (by
    rw [Disk.exec_orElse_ok hread]
    rfl)]
  exact exec_opened ⟨rfl, rfl, rfl, rfl, rfl, rfl⟩ d

theorem exec_openAppendLogFile_error {path : Path} {i : ℕ} (hdir : d.dir path = some i) {e : Err}
    (hne : (d.files i).content ≠ []) (he : readHeaderOf (d.files i).content = .error e) :
    Disk.exec (openAppendLogFile path) d = (.error e, d) := by
  have hlen : (d.files i).content.length ≠ 0 := by simpa using hne
  have hread := exec_readHeader (l := newAppendLog ⟨i, true⟩ path) rfl d
  change Disk.exec _ d = (Except.map _ (readHeaderOf (d.files i).content), d) at hread
  rw [he] at hread
  unfold openAppendLogFile startLog
  rw [Disk.exec_orElse_ok (Disk.exec_open_some hdir true), Disk.exec_orElse_ok (Disk.exec_fstat rfl d)]
  dsimp only
  rw [if_neg hlen]
  rw [Disk.exec_andThen_error (p := Prog.orElse _ _ _) (by
    rw [Disk.exec_orElse_error hread, Disk.exec_bind_eq (Disk.exec_close rfl d)]
    rfl)]

end

end AppendStore
