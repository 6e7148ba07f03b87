import AppendStore.Log.RoundTrip
import AppendStore.Store.Opening

/-! # Every record the scan delivers can be read

The scan and the point readers check a record separately: the scan field by field with limits, the
point readers as a whole and without. `StoredAt` is what the point readers need, and every record the
scan delivers has it, in the file as the scan found it and as it leaves it.
-/

namespace AppendStore
open Library
set_option autoImplicit false

section
variable {σ : Type} {fn : LogRecord → σ → Except Err σ} {f : LogRecord → σ → σ} {d : Disk} {l : AppendLog}
  {path : Path} {i : ℕ} {h : Header}

/-- What `Iterate` does on any file with an accepted header, whatever its outcome. -/
theorem exec_iterate_any (hfn : ∀ r s, fn r s = .ok (f r s)) (ho : Opened l path i h (d.files i).content.length)
    (hh : readHeaderOf (d.files i).content = .ok h) (s : σ) :
    ∃ (recs : List (Rec h.version)) (tail : Bytes) (r : Except Err Unit) (l' : AppendLog) (d' : Disk),
      (d.files i).content = (d.files i).content.take logHeaderSize ++ concat recs ++ tail ∧
      Disk.exec (l.iterate fn s) d = (((r, l'), foldPlaced f (placed logHeaderSize recs) s), d') ∧
      l'.file = ⟨i, true⟩ ∧ (d' = d ∨ d' = d.cut i (logHeaderSize + (concat recs).length)) := by
  have hopen : l.file.isOpen = true := by rw [ho.file]
  have hpos : l.writePos = (d.files l.file.inode).content.length := by rw [ho.writePos, ho.file]
  have hheader : ((d.files i).content.take logHeaderSize).length = logHeaderSize := by
    rw [List.length_take, Nat.min_eq_left (readHeaderOf_ok hh).1]
  obtain ⟨recs, tail, hrest, hstop⟩ := parse_exists h.version logHeaderSize
    ((d.files i).content.drop logHeaderSize)
  have hcontent : (d.files i).content = (d.files i).content.take logHeaderSize ++ concat recs ++ tail := by
    rw [List.append_assoc, ← hrest, List.take_append_drop]
  have hcontent' : (d.files l.file.inode).content =
      (d.files i).content.take logHeaderSize ++ concat recs ++ tail := by
    rw [ho.file]
    exact hcontent
  by_cases htail : tail = []
  · exact ⟨recs, tail, _, _, _, hcontent,
      exec_iterate_complete hfn hopen hpos ho.version hheader hcontent' s htail, ho.file, .inl rfl⟩
  obtain ⟨e, he⟩ := hstop.resolve_left htail
  by_cases heof : e.isEOF = true
  · by_cases hro : l.unknownReadOnly = 0
    · refine ⟨recs, tail, _, _, _, hcontent,
        exec_iterate_torn hfn hopen hpos ho.version hheader hcontent' s htail he heof hro, ho.file, .inr ?_⟩
      rw [ho.file]
    · exact ⟨recs, tail, _, _, _, hcontent,
        exec_iterate_readOnly hfn hopen hpos ho.version hheader hcontent' s htail he heof hro, ho.file, .inl rfl⟩
  · exact ⟨recs, tail, _, _, _, hcontent,
      exec_iterate_failed hfn hopen hpos ho.version hheader hcontent' s htail he (by simpa using heof), ho.file,
      .inl rfl⟩

/-- A record in a file is in every file that goes on differently behind it. -/
theorem storedAt_placed {version : ℕ} {recs : List (Rec version)} {x : ℕ × Rec version} {header : Bytes}
    (tail : Bytes) (hx : x ∈ placed logHeaderSize recs) (hheader : header.length = logHeaderSize)
    (hopen : l.file.isOpen = true)
    (hcontent : (d.files l.file.inode).content = header ++ concat recs ++ tail) : StoredAt d l x := by
  obtain ⟨-, hend⟩ := placed_bounds hx
  rw [← hheader] at hx
  refine ⟨hopen, by rw [hcontent]; exact placed_slice hx, ?_⟩
  rw [hcontent, List.length_append, List.length_append, hheader]
  omega

end

theorem foldPlaced_collect {version : ℕ} (xs : List (ℕ × Rec version)) (acc : List LogRecord) :
    foldPlaced (fun r acc => acc ++ [r]) xs acc = acc ++ xs.map fun x => x.2.entry x.1 := by
  induction xs generalizing acc with
  | nil => simp [foldPlaced]
  | cons x xs ih =>
    change foldPlaced (fun r acc => acc ++ [r]) xs (acc ++ [x.2.entry x.1]) = _
    rw [ih, List.map_cons, List.append_assoc]
    rfl

/-- All point readers read the record `r` as the bytes `b` say: its value, and its extensions, which are
well framed and end where the checksum starts. -/
structure Readable (d : Disk) (l : AppendLog) (b : Bytes) (r : LogRecord) : Prop where
  at_ : Disk.exec (l.readRecordAt r.recordOffset r.storedSize) d =
    (.ok (slice b r.offset (r.offset + r.size)), d)
  into : ∀ scratch, ∃ scratch', Disk.exec (l.readRecordAtInto r.recordOffset r.storedSize scratch) d =
    ((.ok (slice b r.offset (r.offset + r.size)), scratch'), d)
  extensions : Disk.exec (l.readRecordAndExtensionsAt r.recordOffset r.storedSize) d =
    (.ok (slice b r.offset (r.offset + r.size),
      slice b (r.offset + r.size) (r.recordOffset + r.storedSize - 4)), d)
  framed : validateExtensions (slice b (r.offset + r.size) (r.recordOffset + r.storedSize - 4)) = .ok ()

section
variable {version : ℕ} {d d' : Disk} {l l' : AppendLog} {x : ℕ × Rec version}

/-- A record that is in two files is read from the one as the other has it. -/
theorem readable_of_stored (hv : 4 ≤ version) (h : StoredAt d l x) (h' : StoredAt d' l' x) :
    Readable d' l' (d.files l.file.inode).content (x.2.entry x.1) := by
  have hvalue : slice (d.files l.file.inode).content (x.2.entry x.1).offset
      ((x.2.entry x.1).offset + (x.2.entry x.1).size) = x.2.value := h.slice_value
  have hextensions : slice (d.files l.file.inode).content ((x.2.entry x.1).offset + (x.2.entry x.1).size)
      ((x.2.entry x.1).recordOffset + (x.2.entry x.1).storedSize - 4) = x.2.extensions := by
    have hs := x.2.extensionsSlice hv
    have hsize := x.2.storedSize hv
    have hin := slice_slice (d.files l.file.inode).content x.1 x.2.bytes.length
      (x.2.valueAt + x.2.value.length) (x.2.bytes.length - 4) (Nat.sub_le _ _)
    rw [h.bytes, hs] at hin
    change slice _ (x.1 + x.2.valueAt + x.2.value.length) (x.1 + x.2.bytes.length - 4) = _
    rw [hin, Nat.add_assoc, Nat.add_sub_assoc (by omega)]
  refine ⟨?_, ?_, ?_, ?_⟩
  · rw [hvalue]
    exact exec_readRecordAt h' hv
  · intro scratch
    rw [hvalue]
    exact exec_readRecordAtInto h' hv scratch
  · rw [hvalue, hextensions]
    exact exec_readRecordAndExtensionsAt h' hv
  · rw [hextensions]
    exact x.2.framed

end

section
variable {d : Disk} {l : AppendLog} {path : Path} {i : ℕ} {h : Header}

/-- **What the scan accepts, every point reader can read, identically**, through a memory map of any
length or none; so every key that `recover` indexes is readable. -/
theorem delivered_readable (ho : Opened l path i h (d.files i).content.length)
    (hh : readHeaderOf (d.files i).content = .ok h) (hv : 4 ≤ h.version) :
    (∀ r l' delivered d', Disk.exec (l.iterate collect []) d = (((r, l'), delivered), d') →
      ∀ rec ∈ delivered, ∀ (mapped : Option ℕ) (mapDisabled : Bool),
        Readable d' { l' with mapped := mapped, mapDisabled := mapDisabled } (d.files i).content rec) ∧
    ∀ options lock r s d', Disk.exec (newStore options lock l).recover d = ((r, s), d') →
      ∀ key entry, s.index.get key = some entry → ∀ (mapped : Option ℕ) (mapDisabled : Bool),
        Disk.exec (AppendLog.readRecordAt { s.log with mapped := mapped, mapDisabled := mapDisabled }
            entry.recordOffset entry.storedSize) d' =
          (.ok (slice (d.files i).content entry.offset (entry.offset + entry.size)), d') := by
  have hheader : ((d.files i).content.take logHeaderSize).length = logHeaderSize := by
    rw [List.length_take, Nat.min_eq_left (readHeaderOf_ok hh).1]
  have hi : l.file.inode = i := by rw [ho.file]
  -- a record is in the file before and after the scan
  have hread : ∀ (recs : List (Rec h.version)) (tail : Bytes) (l' : AppendLog) (d' : Disk),
      (d.files i).content = (d.files i).content.take logHeaderSize ++ concat recs ++ tail →
      l'.file = ⟨i, true⟩ → (d' = d ∨ d' = d.cut i (logHeaderSize + (concat recs).length)) →
      ∀ x ∈ placed logHeaderSize recs, Readable d' l' (d.files i).content (x.2.entry x.1) := by
    intro recs tail l' d' hcontent hfile hd' x hx
    have hopen' : l'.file.isOpen = true := by rw [hfile]
    have hstored : StoredAt d l x := storedAt_placed tail hx hheader (by rw [ho.file]) (by rw [hi]; exact hcontent)
    have hstored' : StoredAt d' l' x := by
      rcases hd' with rfl | rfl
      · refine storedAt_placed tail hx hheader hopen' ?_
        rw [hfile]
        exact hcontent
      · refine storedAt_placed [] hx hheader hopen' ?_
        rw [hfile, List.append_nil, Disk.content_cut]
        nth_rewrite 1 [hcontent]
        exact List.take_left' (by rw [List.length_append, hheader])
    have hr := readable_of_stored hv hstored hstored'
    rwa [hi] at hr
  constructor
  · intro r l' delivered d' hscan rec hrec mapped mapDisabled
    obtain ⟨recs, tail, r1, l1, d1, hcontent, hexec, hfile, hd'⟩ := exec_iterate_any collect_eq ho hh []
    rw [hexec, foldPlaced_collect, List.nil_append] at hscan
    cases hscan
    obtain ⟨x, hx, rfl⟩ := List.mem_map.mp hrec
    exact hread recs tail { l' with mapped := mapped, mapDisabled := mapDisabled } _ hcontent hfile hd' x hx
  · intro options lock r s d' hrec key entry hget mapped mapDisabled
    obtain ⟨recs, tail, r1, l1, d1, hcontent, hexec, hfile, hd'⟩ := exec_iterate_any recoverRecord_eq ho hh
      (newIndex options.indexedFields, newLRUCache options.cacheSize.toNat)
    rw [exec_recover_of_iterate hexec] at hrec
    cases hrec
    obtain ⟨x, hx, rfl⟩ := replay_lookup_some hget
    exact (hread recs tail { l1 with mapped := mapped, mapDisabled := mapDisabled } _ hcontent hfile hd' x
      (liveRecs_mem hx).1).at_

theorem delivered_readable_one :
    ∃ r l d rec, Disk.exec ((oneFileLog (currentHeader ++ appendBytes [1] [2] false ∅ [])).iterate collect [])
        (oneFile (currentHeader ++ appendBytes [1] [2] false ∅ [])) = (((r, l), [rec]), d) ∧
      Readable d l (currentHeader ++ appendBytes [1] [2] false ∅ []) rec := by
  have hlim : appendLimits [1] [2] ∅ [] = .ok [0, 0, 0, 0] := rfl
  have hcontent : ((oneFile (currentHeader ++ appendBytes [1] [2] false ∅ [])).files 0).content =
      currentHeader ++ concat [appendRec hlim false] ++ [] := by
    rw [concat_cons, concat_nil, List.append_nil, List.append_nil]
    rfl
  have hscan := exec_iterate_complete collect_eq
    (l := oneFileLog (currentHeader ++ appendBytes [1] [2] false ∅ [])) rfl rfl rfl currentHeader_length hcontent [] rfl
  have hread := (delivered_readable (oneFileLog_opened _)
    (readHeaderOf_current (appendBytes [1] [2] false ∅ [])) (by decide)).1 _ _ _ _ hscan
    ((appendRec hlim false).entry logHeaderSize) List.mem_cons_self none false
  exact ⟨_, _, _, _, hscan, hread⟩

end

end AppendStore
