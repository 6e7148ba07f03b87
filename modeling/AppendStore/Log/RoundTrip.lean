import AppendStore.Log.Spec

/-! # What `Append` writes is what the readers read

`Append` either refuses a record or writes one encoding of it at the write position, whatever the
reused buffer held and wherever the position is. The streaming reader and the point reader find the
same record there. A log written by `Append` calls alone is a header and the records of the calls
(`exec_appendAll`).
-/

namespace AppendStore
open Library
set_option autoImplicit false

/-- The encoding of a record that `Append` accepts. -/
def appendBytes (key value : Bytes) (deleted : Bool) (attributes : AttributeRange) (extensions : Bytes) : Bytes :=
  match appendLimits key value attributes extensions with
  | .ok ab => (appendRaw key ab value extensions deleted).bytes
  | .error _ => []

section
variable {l l' : AppendLog} {d d' : Disk} {key value : Bytes} {deleted : Bool} {attributes : AttributeRange}
  {extensions : Bytes} {placed : AppendLog.Placed}

/-- What an `Append` that succeeds has checked. -/
theorem append_accepted
    (h : Disk.exec (l.append key value deleted attributes extensions) d = ((.ok placed, l'), d')) :
    l.version = logVersion ∧ l.unknownReadOnly = 0 ∧ l.file.isOpen = true ∧
      ∃ ab, appendLimits key value attributes extensions = .ok ab := by
  have hok : (Disk.exec (l.append key value deleted attributes extensions) d).1.1 = .ok placed := by rw [h]
  have hver : l.version = logVersion := by
    by_contra hver
    unfold AppendLog.append at hok
    rw [if_pos hver] at hok
    cases hok
  have hro : l.unknownReadOnly = 0 := by
    by_contra hro
    unfold AppendLog.append at hok
    rw [if_neg (not_not.mpr hver), if_pos hro] at hok
    cases hok
  cases hlim : appendLimits key value attributes extensions with
  | error e =>
    rw [exec_append_rejected hver hro hlim] at hok
    cases hok
  | ok ab =>
    refine ⟨hver, hro, ?_, ab, rfl⟩
    by_contra hclosed
    obtain ⟨buf, happ⟩ := append_eq hver hro hlim deleted
    have hwrite : Disk.exec (Sys.writeAt l.file l.writePos (appendRaw key ab value extensions deleted).bytes) d =
        (.error .closed, d) := if_neg hclosed
    rw [happ, Disk.exec_orElse_error hwrite] at hok
    cases hok

/-- **Record codec round trip.** The bytes written depend on the arguments alone; the streaming reader
delivers the record with the places `Append` returned and the new write position, and the point reader
delivers the value and the extensions. -/
theorem append_round_trip
    (h : Disk.exec (l.append key value deleted attributes extensions) d = ((.ok placed, l'), d')) :
    d' = d.setContent l.file.inode (writeAt (d.files l.file.inode).content l.writePos
        (appendBytes key value deleted attributes extensions)) ∧
      placed.recordOffset = l.writePos ∧
      (∃ rest, readRecordFrom placed.recordOffset
          ((d'.files l.file.inode).content.drop placed.recordOffset) =
        .ok ((⟨key, placed.offset, placed.size, placed.recordOffset, placed.storedSize, deleted,
          attributes.toFinmap⟩, l'.writePos), rest)) ∧
      Disk.exec (l'.readRecordAndExtensionsAt placed.recordOffset placed.storedSize) d' =
        (.ok (value, extensions), d') := by
  obtain ⟨hver, hro, hopen, ab, hlim⟩ := append_accepted h
  obtain ⟨l1, hexec, hsame, hpos⟩ := exec_append hopen hver hro hlim deleted d
  rw [h] at hexec
  simp only [Prod.mk.injEq, Except.ok.injEq] at hexec
  obtain ⟨⟨rfl, rfl⟩, rfl⟩ := hexec
  have hbytes : appendBytes key value deleted attributes extensions =
      (appendRaw key ab value extensions deleted).bytes := by
    rw [appendBytes, hlim]
  have hcontent : ((d.setContent l.file.inode (writeAt (d.files l.file.inode).content l.writePos
      (appendRaw key ab value extensions deleted).bytes)).files l.file.inode).content.drop l.writePos =
      (appendRec hlim deleted).bytes ++ (d.files l.file.inode).content.drop
        (l.writePos + (appendRaw key ab value extensions deleted).bytes.length) := by
    rw [Disk.content_setContent, drop_writeAt]
    rfl
  refine ⟨by rw [hbytes], rfl, ⟨(d.files l.file.inode).content.drop
    (l.writePos + (appendRaw key ab value extensions deleted).bytes.length), ?_⟩, ?_⟩
  · have hread := (appendRec hlim deleted).scanned l.writePos ((d.files l.file.inode).content.drop
      (l.writePos + (appendRaw key ab value extensions deleted).bytes.length))
    rw [appendRec_deleted, ← hcontent] at hread
    rw [hpos]
    exact hread
  · have hstored : StoredAt (d.setContent l.file.inode (writeAt (d.files l.file.inode).content l.writePos
        (appendRaw key ab value extensions deleted).bytes)) l' (l.writePos, appendRec hlim deleted) := by
      refine ⟨by rw [hsame.file, hopen], ?_, ?_⟩
      · rw [hsame.file]
        exact slice_at (a := []) hcontent rfl rfl
      · rw [hsame.file, Disk.content_setContent, writeAt_length]
        exact Nat.le_max_right _ _
    exact exec_readRecordAndExtensionsAt hstored (by decide)

end

/-! ## Logs written by `Append` -/

/-- The arguments of an `Append`. -/
structure AppendArgs where
  key : Bytes
  value : Bytes
  deleted : Bool
  attributes : AttributeRange
  extensions : Bytes

/-- Some `Append` calls, up to the first that fails. -/
def AppendLog.appendAll : AppendLog → List AppendArgs → FileProg (Except Err (List AppendLog.Placed) × AppendLog)
  | l, [] => pure (.ok [], l)
  | l, a :: calls =>
    (l.append a.key a.value a.deleted a.attributes a.extensions).orElseState (fun e l => pure (.error e, l))
      fun placed l => (l.appendAll calls).orElseState (fun e l => pure (.error e, l))
        fun more l => pure (.ok (placed :: more), l)

/-- What `Append` returns for a record at a position. -/
def Rec.placement {version : ℕ} (x : ℕ × Rec version) : AppendLog.Placed :=
  ⟨x.1 + x.2.valueAt, x.2.value.length, x.1, x.2.bytes.length⟩

/-- **The log after some `Append` calls** holds a record for each of them, where the calls said. -/
theorem exec_appendAll {calls : List AppendArgs} {l l' : AppendLog} {d d' : Disk} {header : Bytes}
    {recs : List (Rec logVersion)} {ps : List AppendLog.Placed} (himage : LogImage d l header recs)
    (h : Disk.exec (l.appendAll calls) d = ((.ok ps, l'), d')) :
    ∃ news : List (Rec logVersion), LogImage d' l' header (recs ++ news) ∧
      ps = (placed (logHeaderSize + (concat recs).length) news).map Rec.placement := by
  induction calls generalizing l d recs ps with
  | nil =>
    cases h
    exact ⟨[], by rwa [List.append_nil], rfl⟩
  | cons a calls ih =>
    rw [AppendLog.appendAll] at h
    cases happ : Disk.exec (l.append a.key a.value a.deleted a.attributes a.extensions) d with
    | mk r d1 =>
      obtain ⟨r, l1⟩ := r
      cases r with
      | error e =>
        rw [Disk.exec_orElseState_error happ] at h
        cases h
      | ok p =>
        obtain ⟨hver, hro, hopen, ab, hlim⟩ := append_accepted happ
        obtain ⟨l2, d2, happ', -, -, himage'⟩ := exec_append_image himage hro hlim a.deleted
        rw [happ] at happ'
        cases happ'
        rw [Disk.exec_orElseState_ok happ] at h
        cases hrest : Disk.exec (l1.appendAll calls) d1 with
        | mk r d3 =>
          obtain ⟨r, l3⟩ := r
          cases r with
          | error e =>
            rw [Disk.exec_orElseState_error hrest] at h
            cases h
          | ok more =>
            rw [Disk.exec_orElseState_ok hrest] at h
            cases h
            obtain ⟨news, himage3, rfl⟩ := ih himage' hrest
            refine ⟨appendRec hlim a.deleted :: news, by rwa [List.append_assoc] at himage3, ?_⟩
            rw [placed, List.map_cons, concat_append, concat_cons, concat_nil, List.append_nil, List.length_append,
              himage.writePos, Nat.add_assoc]
            rfl

/-! A disk with one file, and a log open on it. -/

def oneFile (b : Bytes) : Disk := { Disk.blank with files := fun _ => ⟨b, b⟩ }

def oneFileLog (b : Bytes) : AppendLog := { newAppendLog ⟨0, true⟩ "db" with writePos := b.length }

theorem oneFileLog_opened (b : Bytes) :
    Opened (oneFileLog b) "db" 0 ⟨logVersion, 0, 0⟩ ((oneFile b).files 0).content.length :=
  ⟨rfl, rfl, rfl, rfl, rfl, rfl⟩

theorem append_round_trip_one :
    ∃ placed l d, Disk.exec ((oneFileLog currentHeader).append [1] [2, 3] false ∅ []) (oneFile currentHeader) =
        ((.ok placed, l), d) ∧
      Disk.exec (l.readRecordAndExtensionsAt placed.recordOffset placed.storedSize) d = (.ok ([2, 3], []), d) := by
  have hlim : appendLimits [1] [2, 3] ∅ [] = .ok [0, 0, 0, 0] := rfl
  obtain ⟨l, hexec, -⟩ := exec_append (l := oneFileLog currentHeader) rfl rfl rfl hlim false (oneFile currentHeader)
  exact ⟨_, l, _, hexec, (append_round_trip hexec).2.2.2⟩

end AppendStore
