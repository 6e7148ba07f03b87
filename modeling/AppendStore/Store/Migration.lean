import AppendStore.Store.CrashPrefix

/-! # Migration of older logs

A log of version 1, 2 or 3 is rewritten by a compaction, one of version 4 gets a new header. Either way
the store that `Open` returns holds what the records of the old log leave when each is applied in turn
(`open_older`), however much of the file was cut off.
-/

namespace AppendStore
open Library
set_option autoImplicit false

/-! ## Records of the older versions -/

/-- A record of a log older than the current version, within the limits of its reader. -/
inductive OldRecord (version : ℕ)
  | legacy (hv : version < 4) (r : LegacyRaw) (h : r.Fits version)
  | checked (hv : version = 4) (r : RawRecord) (m : Attributes) (h : r.Accepted m)

namespace OldRecord

section
variable {version : ℕ}

def bytes : OldRecord version → Bytes
  | legacy _ r _ => r.bytes version
  | checked _ r _ _ => r.bytes

/-- A record is a write of its key, or a deletion. The attributes of a legacy record are its named
fields. -/
def event : OldRecord version → Event Bytes (Bytes × Attributes)
  | legacy _ r _ =>
    (r.key, if r.flags &&& 1 ≠ 0 then none else some (r.value, insertAll (r.attributeList version) ∅))
  | checked _ r m _ => (r.key, if r.flags &&& 1 ≠ 0 then none else some (r.value, m))

def toRec : OldRecord version → Rec version
  | legacy hv r h => .ofLegacy hv r h
  | checked hv r m h => .ofRaw (Nat.le_of_eq hv.symm) r m h

theorem toRec_bytes (r : OldRecord version) : r.toRec.bytes = r.bytes := by
  cases r <;> rfl

theorem toRec_event (r : OldRecord version) :
    (r.toRec.key, if r.toRec.deleted then none else some r.toRec.payload) = r.event := by
  cases r with
  | legacy hv r h => simp only [toRec, event, Rec.ofLegacy, Rec.payload, decide_eq_true_eq]
  | checked hv r m h => simp only [toRec, event, Rec.ofRaw, Rec.payload, decide_eq_true_eq]

theorem concat_toRec (recs : List (OldRecord version)) :
    concat (recs.map toRec) = recs.flatMap bytes := by
  rw [concat, List.flatMap_map]
  exact congrArg (fun f => recs.flatMap f) (funext toRec_bytes)

theorem contents_toRec (recs : List (OldRecord version)) :
    contents (recs.map toRec) = live (recs.map event) := by
  induction recs using List.reverseRecOn with
  | nil => rfl
  | append_singleton recs r ih =>
    rw [List.map_append, List.map_singleton, contents_concat, toRec_event, ih, List.map_append,
      List.map_singleton, live_concat]

/-- A front part of a log of old records reads as the records that are wholly there. -/
theorem reads_take {header : Bytes} {h : Header} (hlen : header.length = logHeaderSize)
    (hheader : decodeHeader header = .ok h) (hv : h.version = version) (recs : List (OldRecord version)) {n : ℕ}
    (hn : logHeaderSize ≤ n) :
    ∃ done rest, recs = done ++ rest ∧ logHeaderSize + (done.flatMap bytes).length ≤ n ∧
      (∀ r rest', rest = r :: rest' → n < logHeaderSize + ((done ++ [r]).flatMap bytes).length) ∧
      Reads ((header ++ recs.flatMap bytes).take n) h (done.map toRec) := by
  obtain ⟨done, rest, tail, hrecs, htake, hfit, hcut, hnext⟩ := take_concat (recs.map toRec) (n - logHeaderSize)
  obtain ⟨done, rest, rfl, rfl, rfl⟩ := List.map_eq_append_iff.mp hrecs
  rw [concat_toRec] at htake hfit hnext
  have hbytes : (header ++ (done ++ rest).flatMap bytes).take n = header ++ concat (done.map toRec) ++ tail := by
    rw [List.take_append, List.take_of_length_le (by omega), hlen, htake, concat_toRec, List.append_assoc]
  refine ⟨done, rest, rfl, by omega, ?_, ?_⟩
  · rintro r rest' rfl
    have h := hnext r.toRec (rest'.map toRec) rfl
    rw [toRec_bytes] at h
    rw [List.flatMap_append, List.length_append, List.flatMap_singleton]
    omega
  · rw [hbytes]
    exact reads_of_header hlen hheader hv (hcut _)

end

end OldRecord

/-! ## Opening an older log -/

section
variable {path : Path} {options : Options} {d : Disk} {i v : ℕ} {header : Bytes}

/-- **`Open` migrates an older log without loss.** The log is a header of version `v` and records of that
version, cut off anywhere behind the header. The store it becomes holds what the records that are wholly
there leave; a log of version 4 keeps the bytes of its records. Once it is closed, it opens again with
the same contents whatever the application would answer to a migration, and the file stays as it is. -/
theorem open_older (hlen : header.length = logHeaderSize) (hheader : decodeHeader header = .ok ⟨v, 0, 0⟩)
    (hold : v < logVersion) (recs : List (OldRecord v)) {n : ℕ} (hn : logHeaderSize ≤ n)
    (hacc : options.Accepted path) (hs : d.Sound) (hfree : LockFree d path)
    (hmain : recoveredMain d.dir path = some i)
    (hcontent : (d.files i).content = (header ++ recs.flatMap OldRecord.bytes).take n)
    (hask : migrationAnswer path options.withDefaults v = none) :
    ∃ done rest, recs = done ++ rest ∧ logHeaderSize + (done.flatMap OldRecord.bytes).length ≤ n ∧
      (∀ r rest', rest = r :: rest' → n < logHeaderSize + ((done ++ [r]).flatMap OldRecord.bytes).length) ∧
      ∃ s d', Disk.exec (openStore path options) d = (.ok s, d') ∧ s.log.version = logVersion ∧
        Answers d' s (live (done.map OldRecord.event)) ∧
        (v = 4 → d'.bytesAt path = some (currentHeader ++ done.flatMap OldRecord.bytes)) ∧
        ∀ options2 : Options, options2.Accepted path → ∃ s1 d1 s2 d2,
          Disk.exec s.close d' = ((none, s1), d1) ∧ Disk.exec (openStore path options2) d1 = (.ok s2, d2) ∧
          Answers d2 s2 (live (done.map OldRecord.event)) ∧ d2.bytesAt path = d'.bytesAt path := by
  obtain ⟨done, rest, hrecs, hfit, hnext, hr⟩ := OldRecord.reads_take hlen hheader rfl recs hn
  rw [← hcontent] at hr
  obtain ⟨s, d', hopen, hserves, -⟩ := exec_openStore_reads hacc hs hfree hmain hr rfl (fun _ => hask)
  have hcontents : contents (migrated (done.map OldRecord.toRec)) = live (done.map OldRecord.event) := by
    rw [contents_migrated, OldRecord.contents_toRec]
  refine ⟨done, rest, hrecs, hfit, hnext, s, d', hopen, hserves.image.versionEq, ?_, ?_, ?_⟩
  · rw [← hcontents]
    exact hserves.answers
  · rintro rfl
    rw [hserves.bytesAt, migrated, dif_pos (le_refl 4), concat_upgrade, OldRecord.concat_toRec]
  · intro options2 hacc2
    obtain ⟨s1, d1, hclose, hrest⟩ := exec_close hserves
    obtain ⟨s2, d2, hopen2, hserves2, -⟩ := exec_openStore_resting hrest hacc2
    refine ⟨s1, d1, s2, d2, hclose, hopen2, ?_, ?_⟩
    · rw [← hcontents]
      exact hserves2.answers
    · rw [hserves2.bytesAt, hserves.bytesAt]

/-- A record of version 3 with empty fields. -/
def plainOld (key value : UInt8) : OldRecord 3 :=
  .legacy (by decide) ⟨[key], [value], 0, [], [], [], [], leBytes 8 0, [], leBytes 8 0⟩
    { key := by simp [maxKeySize]
      value := by simp [maxValueSize]
      category := by simp
      provider := by simp
      status := by simp
      name := by simp
      totalSize := leBytes_length 8 0
      protocol := by simp
      addedOn := fun _ => leBytes_length 8 0 }

/-- Two records of version 3, the second cut off in the middle. -/
theorem open_older_cut : ∃ s d', Disk.exec (openStore "db" .zero)
      (logDisk ((Header.bytes ⟨3, 0, 0⟩ ++ [plainOld 1 2, plainOld 1 3].flatMap OldRecord.bytes).take 60)) =
        (.ok s, d') ∧
    (Disk.exec (s.get [1]) d').1.1 = .ok [2] := by
  have ho := logDisk_openable ((Header.bytes ⟨3, 0, 0⟩ ++ [plainOld 1 2, plainOld 1 3].flatMap OldRecord.bytes).take 60)
  obtain ⟨done, rest, hrecs, hfit, hnext, s, d', hopen, -, hanswers, -⟩ :=
    open_older (by decide) (by decide) (by decide)
    [plainOld 1 2, plainOld 1 3] (n := 60) (by decide) (zero_accepted (by decide)) ho.sound ho.lockFree
    (i := 0) rfl rfl rfl
  refine ⟨s, d', hopen, ?_⟩
  rw [hanswers.get]
  rcases done with _ | ⟨r, _ | ⟨r', done⟩⟩
  · exact absurd (hnext _ _ hrecs.symm) (by decide)
  · cases hrecs
    rfl
  · simp only [List.cons_append, List.cons.injEq, List.nil_eq_append_iff] at hrecs
    obtain ⟨rfl, rfl, rfl, -⟩ := hrecs
    exact absurd hfit (by decide)

end

end AppendStore
