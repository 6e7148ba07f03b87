import AppendStore.Store.Downgrade
import AppendStore.Store.PointReads

/-! # What a downgrade keeps

A downgrade to version 4 writes the file that a compaction of the source writes, up to the version in the
header, and is refused only for what version 4 has no room for (`downgrade_v4_lossless`). A downgrade to
version 3 keeps the keys and the values, and what the named fields say (`downgrade_v3_round_trip`).
-/

namespace AppendStore
open Library
set_option autoImplicit false

/-! ## The source -/

section
variable {version : ℕ} {recs : List (Rec version)} {b : Bytes}

/-- The bytes of a log whose records the scan goes through without an error. Nothing is said about the
feature masks. -/
structure Scanned (b : Bytes) (recs : List (Rec version)) : Prop where
  length : logHeaderSize ≤ b.length
  magic : slice (b.take logHeaderSize) 0 4 = logMagic
  versionEq : leNat (slice (b.take logHeaderSize) 4 8) = version
  content : ∃ tail, b = b.take logHeaderSize ++ concat recs ++ tail ∧
    Cut version (logHeaderSize + (concat recs).length) tail

/-- A header of version 5 with a bit in one of its two feature masks. -/
def FeatureBits (b : Bytes) : Prop :=
  leNat (slice (b.take logHeaderSize) 4 8) = 5 ∧
    (leNat (slice (b.take logHeaderSize) 8 12) ≠ 0 ∨ leNat (slice (b.take logHeaderSize) 12 16) ≠ 0)

/-- What the header of a log of version 4 or 5 is read as. -/
theorem Scanned.readHeader (h : Scanned b recs) (hv : version = 4 ∨ version = 5) :
    readHeaderOf b =
      if version = 5 then
        if leNat (slice (b.take logHeaderSize) 8 12) = 0 then
          .ok ⟨5, 0, leNat (slice (b.take logHeaderSize) 12 16)⟩
        else .error (unknownFeatureError "incompatible" (leNat (slice (b.take logHeaderSize) 8 12)))
      else .ok ⟨version, 0, 0⟩ := by
  have hlen : (b.take logHeaderSize).length = logHeaderSize := by
    rw [List.length_take, Nat.min_eq_left h.length]
  have hfield : ∀ lo, leNat (slice (b.take logHeaderSize) lo (lo + 4)) < 256 ^ 4 := by
    intro lo
    refine Nat.lt_of_lt_of_le (leNat_lt _) (Nat.pow_le_pow_right (by decide) ?_)
    rw [slice, List.length_drop, List.length_take]
    omega
  have hdecode := decodeHeader_bytes _ _ _ (hfield 4) (hfield 8) (hfield 12) (by rw [h.versionEq]; omega)
    (by rw [h.versionEq]; omega)
  rw [← header_split hlen h.magic, h.versionEq] at hdecode
  unfold readHeaderOf
  rw [if_neg (Nat.not_lt.mpr h.length), hdecode]

theorem Scanned.reads (h : Scanned b recs) (hv : version = 4 ∨ version = 5) (hf : ¬ FeatureBits b) :
    ∃ header, Reads b header recs ∧ header.readOnlyFeatures = 0 := by
  have hread := h.readHeader hv
  rcases hv with rfl | rfl
  · exact ⟨_, ⟨hread, rfl, h.content⟩, rfl⟩
  · obtain ⟨hinc, hro⟩ := not_or.mp fun hor => hf ⟨h.versionEq, hor⟩
    rw [if_pos rfl, if_pos (not_not.mp hinc)] at hread
    exact ⟨_, ⟨hread, rfl, h.content⟩, not_not.mp hro⟩

end

/-! ## The run -/

section
variable {version : ℕ} {recs : List (Rec version)} {d : Disk} {src dst : Path} {options : DowngradeOptions} {i : ℕ}

/-- What a downgrade that succeeds leaves. It holds no lock of its own. -/
structure Downgraded (d d' : Disk) (src dst : Path) (i : ℕ) (recs : List (Rec version)) (b : Bytes) : Prop where
  output : d'.bytesAt dst = some b
  locked : ∀ j, d'.locked j = true → d.locked j = true
  source : src ≠ dst ++ downgradeTempSuffix →
    d'.bytesAt src = some ((d.files i).content.take logHeaderSize ++ concat recs)
  sound : d'.Sound

variable (hversion : options.version = 3 ∨ options.version = 4) (hne : src ≠ dst)
  (hdst : options.overwrite = true ∨ d.dir dst = none) (hs : d.Sound) (hfree : LockFree d src)
  (hmain : recoveredMain d.dir src = some i)
include hversion hne hdst hs hfree hmain

/-- Feature bits are refused, by the reader of the header or before the scan. -/
theorem exec_downgrade_features (hb : Scanned (d.files i).content recs) (hf : FeatureBits (d.files i).content) :
    ∃ e d', Disk.exec (downgrade src dst options) d = (.error e, d') := by
  obtain ⟨k, d1, hready, -, hexec⟩ := exec_downgrade_accepted hversion hne hdst hs hfree
  have hset := hready.settled hmain
  have hfile : d1.files i = d.files i := hready.files i (recoveredMain_bounded hs hmain)
  have hnonempty : (d1.files i).content ≠ [] := by
    rw [hfile, ← List.length_pos_iff]
    exact Nat.lt_of_lt_of_le (by decide) hb.length
  have hv : version = 5 := by rw [← hb.versionEq, hf.1]
  have hread := hb.readHeader (.inr hv)
  rw [if_pos hv, ← hfile] at hread
  by_cases hinc : leNat (slice ((d1.files i).content.take logHeaderSize) 8 12) = 0
  · rw [if_pos hinc] at hread
    obtain ⟨l, hopen, ho⟩ := exec_openAppendLogFile_ok hset.dir hnonempty hread
    have hro : leNat (slice ((d1.files i).content.take logHeaderSize) 12 16) ≠ 0 := by
      rw [hfile] at hinc ⊢
      exact hf.2.resolve_left (not_not.mpr hinc)
    obtain ⟨e, hrefused⟩ : ∃ e, Disk.exec (downgradeOpened l src dst options.version) d1 = ((.error e, l), d1) := by
      unfold downgradeOpened
      rw [if_neg (by rw [ho.version]; exact (by decide : ¬ 5 < 4))]
      dsimp only
      rw [ho.incompatibleFeatures, ho.readOnlyFeatures, Nat.zero_or, if_pos hro]
      exact ⟨_, rfl⟩
    rw [hexec, Disk.exec_andThen_ok hopen, Disk.exec_bind_eq hrefused,
      Disk.exec_bind_eq (exec_closeLog (by rw [ho.file]) _)]
    exact ⟨e, _, rfl⟩
  · rw [if_neg hinc] at hread
    rw [hexec, Disk.exec_andThen_error (exec_openAppendLogFile_error hset.dir hnonempty hread)]
    exact ⟨_, _, rfl⟩

/-- A run whose writer succeeds. -/
theorem exec_downgrade_written {h : Header} {b : Bytes} (hr : Reads (d.files i).content h recs) (hv : 4 ≤ version)
    (hro : h.readOnlyFeatures = 0)
    (hwriter : ∀ log d1, LogImage d1 log ((d.files i).content.take logHeaderSize) recs → log.file.inode < d1.next →
      d1.dir (dst ++ downgradeTempSuffix) = none →
      ∃ d2, Disk.exec (if options.version = 4 then writeV4Log log (replay [] recs) (dst ++ downgradeTempSuffix)
          else writeV3Log log (replay [] recs) (dst ++ downgradeTempSuffix)) d1 = (.ok (), d2) ∧
        Written d1 d2 (dst ++ downgradeTempSuffix) b) :
    ∃ d', Disk.exec (downgrade src dst options) d = (.ok (), d') ∧ Downgraded d d' src dst i recs b := by
  obtain ⟨log, d1, k, himage, hfile, hstaged, hexec⟩ :=
    exec_downgrade_scanned hversion hne hdst hs hfree hmain hr hv hro
  have hlt : i < d1.next := hstaged.sound.bounded _ _ hstaged.main
  obtain ⟨d3, hwrite, hp⟩ : ∃ d3, Disk.exec (writeDowngraded log (replay [] recs) dst options.version) d1 =
      (.ok (), d3) ∧ Published d1 d3 dst b := by
    refine exec_writeDowngraded ?_
    intro d2 hs2 habs
    refine hwriter log d2 (himage.of_same ⟨rfl, rfl, rfl, rfl, rfl⟩ rfl (by rw [hs2.files])) ?_ habs
    rw [hfile, hs2.next]
    exact hlt
  have hsound := hs.exec (downgrade src dst options)
  rw [hexec, hwrite] at hsound
  refine ⟨d3.setLock k false, by rw [hexec, hwrite], ⟨?_, ?_, ?_, hsound⟩⟩
  · rw [Disk.bytesAt, Disk.dir_setLock, hp.dir, Function.update_self, Option.map_some, Disk.files_setLock, hp.content]
  · intro j hj
    by_cases hk : j = k
    · rw [hk, Disk.locked_setLock] at hj
      cases hj
    · rw [Disk.locked_setLock_ne _ _ _ _ hk] at hj
      rw [← hstaged.locked j hk]
      exact hp.locked j hj
  · intro htmp
    have hcontent := himage.content
    rw [hfile] at hcontent
    rw [Disk.bytesAt, Disk.dir_setLock, hp.dir, Function.update_of_ne hne, Function.update_of_ne htmp, hstaged.main,
      Option.map_some, Disk.files_setLock, hp.files i hlt, hcontent]

end

/-- The output of a downgrade opens like any older log. -/
theorem exec_openStore_output {v : ℕ} {recs : List (Rec v)} {d : Disk} {dst : Path} {header : Bytes}
    (houtput : d.bytesAt dst = some (header ++ concat recs)) (hlen : header.length = logHeaderSize)
    (hheader : decodeHeader header = .ok ⟨v, 0, 0⟩) (hs : d.Sound) {o : Options} (hacc : o.Accepted dst)
    (hlock : LockFree d dst) (hask : migrationAnswer dst o.withDefaults v = none) :
    ∃ s d', Disk.exec (openStore dst o) d = (.ok s, d') ∧ Serves d' s dst (migrated recs) := by
  obtain ⟨i, hdir, hcontent⟩ := bytesAt_some houtput
  have hmain : recoveredMain d.dir dst = some i := by
    rw [recoveredMain, hdir]
    rfl
  have hr : Reads (header ++ concat recs ++ []) ⟨v, 0, 0⟩ recs := reads_of_header hlen hheader rfl (.inl rfl)
  rw [List.append_nil, ← hcontent] at hr
  obtain ⟨s, d', hopen, hserves, -⟩ := exec_openStore_reads hacc hs hlock hmain hr rfl (fun _ => hask)
  exact ⟨s, d', hopen, hserves⟩

/-! ## Version 4 -/

section
variable {version : ℕ}

/-- A record without an extension area, as a log of version 4 holds it. -/
def Rec.rewrittenV4 (r : Rec version) : Rec 4 :=
  .ofRaw (le_refl 4) (appendRaw r.key r.rewrittenBlock r.value r.extensions false) (enumerate r.attributes).toFinmap
    (appendLimits_ok r.rewrite_limits false).2

/-- The records that a downgrade to version 4 writes. -/
def downgradedV4 (recs : List (Rec version)) : List (Rec 4) := (liveRecs recs).map fun x => x.2.2.rewrittenV4

theorem migrated_downgradedV4 (recs : List (Rec version)) : migrated (downgradedV4 recs) = compacted recs := by
  rw [migrated, dif_pos (le_refl 4), downgradedV4, List.map_map]
  rfl

theorem concat_downgradedV4 (recs : List (Rec version)) : concat (downgradedV4 recs) = concat (compacted recs) := by
  rw [← migrated_downgradedV4, migrated, dif_pos (le_refl 4), concat_upgrade]

/-- A compaction after the migration writes what a compaction before it would have written. -/
theorem compacted_migrated (recs : List (Rec version)) (hv : 4 ≤ version) :
    compacted (migrated recs) = compacted recs := by
  rw [migrated, dif_pos hv, compacted, liveRecs_upgrade, List.map_map]
  rfl

variable {recs : List (Rec version)} {d : Disk} {src dst : Path} {options : DowngradeOptions} {i : ℕ}

/-- **A downgrade to version 4 loses nothing and refuses what it must.** The source is a log of version 4
or 5 that the scan accepts. The run succeeds exactly if the header sets no feature bit and no live record
has an extension area. Then the output is the file that a compaction of the source writes, under a header
of version 4, and it opens with the contents of the source. -/
theorem downgrade_v4_lossless (hv : version = 4 ∨ version = 5) (hversion : options.version = 4) (hne : src ≠ dst)
    (hdst : options.overwrite = true ∨ d.dir dst = none) (hs : d.Sound) (hfree : LockFree d src)
    (hmain : recoveredMain d.dir src = some i) (hb : Scanned (d.files i).content recs) :
    ((Disk.exec (downgrade src dst options) d).1 = .ok () ↔
      ¬ FeatureBits (d.files i).content ∧ ∀ x ∈ liveRecs recs, x.2.2.extensions = []) ∧
    ∀ d', Disk.exec (downgrade src dst options) d = (.ok (), d') →
      (∀ j, d'.locked j = true → d.locked j = true) ∧
      (src ≠ dst ++ downgradeTempSuffix →
        d'.bytesAt src = some ((d.files i).content.take logHeaderSize ++ concat recs)) ∧
      ∃ b, d'.bytesAt dst = some (Header.bytes ⟨4, 0, 0⟩ ++ b) ∧
        (∀ o : Options, o.Accepted src →
          (version < logVersion → migrationAnswer src o.withDefaults version = none) →
          ∃ s1 d1 s2 d2, Disk.exec (openStore src o) d = (.ok s1, d1) ∧ Answers d1 s1 (contents recs) ∧
            Disk.exec s1.compact d1 = ((.ok (), s2), d2) ∧
            d2.bytesAt src = some (Header.bytes ⟨logVersion, 0, 0⟩ ++ b)) ∧
        ∀ o : Options, o.Accepted dst → LockFree d' dst → migrationAnswer dst o.withDefaults 4 = none →
          ∃ s1 d1, Disk.exec (openStore dst o) d' = (.ok s1, d1) ∧ Answers d1 s1 (contents recs) := by
  have htarget : options.version = 3 ∨ options.version = 4 := .inr hversion
  have hge : 4 ≤ version := by omega
  by_cases hf : FeatureBits (d.files i).content
  · obtain ⟨e, d', hexec⟩ := exec_downgrade_features htarget hne hdst hs hfree hmain hb hf
    rw [hexec]
    exact ⟨⟨(fun h => by cases h), fun h => absurd hf h.1⟩, fun d' h => by cases h⟩
  obtain ⟨h, hr, hro⟩ := hb.reads hv hf
  by_cases hext : ∀ x ∈ liveRecs recs, x.2.2.extensions = []
  · obtain ⟨d', hexec, hdown⟩ := exec_downgrade_written htarget hne hdst hs hfree hmain hr hge hro
      (b := v4Header ++ concat (compacted recs)) (by
        intro log d1 himage hlt habs
        rw [if_pos hversion]
        exact exec_writeV4Log hge himage hlt habs hext)
    rw [hexec]
    refine ⟨⟨fun _ => ⟨hf, hext⟩, fun _ => rfl⟩, ?_⟩
    rintro d'' ⟨⟩
    refine ⟨hdown.locked, hdown.source, concat (compacted recs), hdown.output, ?_, ?_⟩
    · intro o hacc hask
      obtain ⟨s1, d1, hopen, hserves, -⟩ := exec_openStore_reads hacc hs hfree hmain hr hro hask
      obtain ⟨s2, d2, hcompact, hserves2, -⟩ := exec_compact hserves
      refine ⟨s1, d1, s2, d2, hopen, ?_, hcompact, ?_⟩
      · rw [← contents_migrated]
        exact hserves.answers
      · rw [hserves2.bytesAt, compacted_migrated recs hge]
        rfl
    · intro o hacc hlock hask
      have houtput := hdown.output
      rw [← concat_downgradedV4] at houtput
      obtain ⟨s1, d1, hopen, hserves⟩ := exec_openStore_output houtput rfl (by decide) hdown.sound hacc hlock hask
      refine ⟨s1, d1, hopen, ?_⟩
      rw [migrated_downgradedV4] at hserves
      rw [← contents_compacted]
      exact hserves.answers
  · obtain ⟨log, d1, k, himage, hfile, hstaged, hexec⟩ :=
      exec_downgrade_scanned htarget hne hdst hs hfree hmain hr hge hro
    obtain ⟨e, d2, hrefused⟩ : ∃ e d2, Disk.exec (writeDowngraded log (replay [] recs) dst options.version) d1 =
        (.error e, d2) := by
      refine exec_writeDowngraded_error ?_
      intro d2 hs2 habs
      rw [if_pos hversion]
      refine exec_writeV4Log_extension hge (himage.of_same ⟨rfl, rfl, rfl, rfl, rfl⟩ rfl (by rw [hs2.files])) ?_
        habs hext
      rw [hfile, hs2.next]
      exact hstaged.sound.bounded _ _ hstaged.main
    rw [hexec, hrefused]
    exact ⟨⟨(fun h => by cases h), fun h => absurd h.2 hext⟩, fun d' h => by cases h⟩

theorem take_currentHeader (b : Bytes) : (currentHeader ++ b).take logHeaderSize = currentHeader := by
  rw [← currentHeader_length, List.take_left]

theorem scanned_current (recs : List (Rec logVersion)) : Scanned (currentHeader ++ concat recs) recs := by
  refine ⟨?_, ?_, ?_, [], ?_, .inl rfl⟩
  · rw [List.length_append, currentHeader_length]
    omega
  · rw [take_currentHeader]
    decide
  · rw [take_currentHeader]
    decide
  · rw [take_currentHeader, List.append_nil]

theorem currentHeader_features (b : Bytes) : ¬ FeatureBits (currentHeader ++ b) := by
  unfold FeatureBits
  rw [take_currentHeader]
  decide

/-- A key that was written twice. -/
theorem downgrade_v4_lossless_twice :
    (Disk.exec (downgrade "db" "old" ⟨4, false⟩)
      (logDisk (currentHeader ++ concat [shortRec 1 2, shortRec 1 3]))).1 = .ok () := by
  have ho := logDisk_openable (currentHeader ++ concat [shortRec 1 2, shortRec 1 3])
  refine (downgrade_v4_lossless (i := 0) (.inr rfl) rfl (by decide) (.inr rfl) ho.sound ho.lockFree rfl
    (scanned_current _)).1.mpr ⟨currentHeader_features _, ?_⟩
  intro x hx
  have hplaced := (liveRecs_mem hx).1
  simp only [placed, List.mem_cons, List.not_mem_nil, or_false] at hplaced
  rcases hplaced with h | h
  · rw [h]
    rfl
  · rw [h]
    rfl

end

/-! ## Version 3 -/

section
variable {version : ℕ}

/-- The record of version 3 that a live record becomes. -/
structure V3Record (x : Bytes × (ℕ × Rec version)) (r : Rec 3) : Prop where
  encodes : V3Encodes x r.bytes
  key : r.key = x.1
  value : r.value = x.2.2.value
  deleted : r.deleted = false
  fields : SameFields x.2.2.attributes r.attributes

/-- What `encodeV3Record` accepts, the reader of version 3 reads. -/
theorem exists_v3Record {recs : List (Rec version)} {x : Bytes × (ℕ × Rec version)} (hx : x ∈ liveRecs recs)
    {b : Bytes} (h : V3Encodes x b) : ∃ r, V3Record x r := by
  obtain ⟨-, hkey, -⟩ := liveRecs_mem hx
  have hok := encodeV3Record_ok h
  obtain ⟨totalSize, addedOn, bad, -, -, htexts, htotal, hadded, hbad, rfl⟩ := hok
  have hlimit : x.1.length ≤ maxKeySize := by
    rw [← hkey]
    exact x.2.2.keyLimit
  have hflag : decide ((if bad then (2 : UInt8) else 0) &&& 1 ≠ 0) = false := by cases bad <;> decide
  have hsame : SameFields (enumerate x.2.2.attributes).toFinmap (insertAll ((v3Raw x.1 x.2.2.value
      (enumerate x.2.2.attributes) totalSize addedOn bad).attributeList 3) ∅) := v3Raw_sameFields htotal hadded hbad
  rw [enumerate_toFinmap] at hsame
  exact ⟨.ofLegacy (by decide) _ (v3Raw_fits hlimit x.2.2.valueLimit htexts totalSize addedOn bad),
    ⟨h, rfl, rfl, hflag, hsame⟩⟩

theorem exists_v3Records {recs : List (Rec version)} (xs : List (Bytes × (ℕ × Rec version)))
    (hxs : ∀ x ∈ xs, x ∈ liveRecs recs) (h : ∀ x ∈ xs, ∃ b, V3Encodes x b) :
    ∃ out, List.Forall₂ V3Record xs out := by
  induction xs with
  | nil => exact ⟨[], .nil⟩
  | cons x xs ih =>
    obtain ⟨out, hout⟩ := ih (fun y hy => hxs y (List.mem_cons_of_mem _ hy)) fun y hy => h y (List.mem_cons_of_mem _ hy)
    obtain ⟨b, hb⟩ := h x List.mem_cons_self
    obtain ⟨r, hr⟩ := exists_v3Record (hxs x List.mem_cons_self) hb
    exact ⟨r :: out, .cons hr hout⟩

/-- The bytes of a live record in version 3. -/
def v3Bytes (x : Bytes × (ℕ × Rec version)) : Bytes :=
  (encodeV3Record x.1 x.2.2.value x.2.2.extensions (enumerate x.2.2.attributes)).toOption.getD []

theorem V3Encodes.v3Bytes_eq {x : Bytes × (ℕ × Rec version)} {b : Bytes} (h : V3Encodes x b) : v3Bytes x = b := by
  rw [v3Bytes, h]
  rfl

section
variable {xs : List (Bytes × (ℕ × Rec version))} {out : List (Rec 3)}

theorem concat_v3Records (h : List.Forall₂ V3Record xs out) : concat out = xs.flatMap v3Bytes := by
  induction h with
  | nil => rfl
  | cons hr _ ih => rw [concat_cons, List.flatMap_cons, hr.encodes.v3Bytes_eq, ih]

theorem keys_v3Records (h : List.Forall₂ V3Record xs out) : out.map Rec.key = xs.map Prod.fst := by
  induction h with
  | nil => rfl
  | cons hr _ ih => rw [List.map_cons, List.map_cons, hr.key, ih]

theorem deleted_v3Records (h : List.Forall₂ V3Record xs out) : ∀ r ∈ out, r.deleted = false := by
  induction h with
  | nil =>
    intro r hr
    cases hr
  | cons hr _ ih => exact List.forall_mem_cons.mpr ⟨hr.deleted, ih⟩

end

/-- Two entries with one key and one value, where the attributes of the second say what those of the first
say. -/
def SameEntry (x y : Bytes × (Bytes × Attributes)) : Prop :=
  y.1 = x.1 ∧ y.2.1 = x.2.1 ∧ SameFields x.2.2 y.2.2

/-- A log whose keys differ and that deletes nothing holds its records. -/
theorem contents_of_distinct {out : List (Rec version)} (hkeys : (out.map Rec.key).Nodup)
    (hdel : ∀ r ∈ out, r.deleted = false) : contents out = out.map fun r => (r.key, r.payload) := by
  rw [contents, liveRecs_of_distinct hkeys hdel, List.map_map]
  nth_rewrite 2 [← placed_map_snd logHeaderSize out]
  rw [List.map_map]
  rfl

theorem contents_v3Records {recs : List (Rec version)} {out : List (Rec 3)}
    (h : List.Forall₂ V3Record (liveRecs recs) out) : List.Forall₂ SameEntry (contents recs) (contents out) := by
  have hkeys : (out.map Rec.key).Nodup := by
    rw [keys_v3Records h]
    exact live_nodup _
  rw [contents_of_distinct hkeys (deleted_v3Records h), contents, List.forall₂_map_left_iff,
    List.forall₂_map_right_iff]
  refine h.imp ?_
  intro x r hr
  exact ⟨hr.key, hr.value, hr.fields⟩

variable {recs : List (Rec version)} {d : Disk} {src dst : Path} {options : DowngradeOptions} {i : ℕ}

/-- **A downgrade to version 3 can be read back.** The source is a log of version 4 or 5 without feature
bits whose live records `encodeV3Record` accepts. The run succeeds, the scan of a version 3 log goes
through the output to its end, and the output opens with the keys and values of the source in the same
order, each with fields that say what its attributes said. -/
theorem downgrade_v3_round_trip (hv : version = 4 ∨ version = 5) (hversion : options.version = 3) (hne : src ≠ dst)
    (hdst : options.overwrite = true ∨ d.dir dst = none) (hs : d.Sound) (hfree : LockFree d src)
    (hmain : recoveredMain d.dir src = some i) (hb : Scanned (d.files i).content recs)
    (hf : ¬ FeatureBits (d.files i).content) (hall : ∀ x ∈ liveRecs recs, ∃ b, V3Encodes x b) :
    (∀ o : Options, o.Accepted src → (version < logVersion → migrationAnswer src o.withDefaults version = none) →
      ∃ s1 d1, Disk.exec (openStore src o) d = (.ok s1, d1) ∧ Answers d1 s1 (contents recs)) ∧
    ∃ d' b m, Disk.exec (downgrade src dst options) d = (.ok (), d') ∧ d'.bytesAt dst = some b ∧
      readHeaderOf b = .ok ⟨3, 0, 0⟩ ∧ List.Forall₂ SameEntry (contents recs) m ∧
      (∃ scanned, AppendLog.scan 3 b.length collect ((b.drop logHeaderSize).length + 1) logHeaderSize
          (b.drop logHeaderSize) [] = (scanned, .complete) ∧
        scanned.map LogRecord.key = m.map Prod.fst ∧ ∀ record ∈ scanned, record.deleted = false) ∧
      ∀ o : Options, o.Accepted dst → LockFree d' dst → migrationAnswer dst o.withDefaults 3 = none →
        ∃ s1 d1, Disk.exec (openStore dst o) d' = (.ok s1, d1) ∧ Answers d1 s1 m := by
  obtain ⟨h, hr, hro⟩ := hb.reads hv hf
  have hge : 4 ≤ version := by omega
  obtain ⟨out, hout⟩ := exists_v3Records (liveRecs recs) (fun _ hx => hx) hall
  have hbytes : ∀ x ∈ liveRecs recs, V3Encodes x (v3Bytes x) := by
    intro x hx
    obtain ⟨b, hx⟩ := hall x hx
    rwa [hx.v3Bytes_eq]
  obtain ⟨d', hexec, hdown⟩ := exec_downgrade_written (.inl hversion) hne hdst hs hfree hmain hr hge hro
    (b := v3Header ++ (liveRecs recs).flatMap v3Bytes) (by
      intro log d1 himage hlt habs
      rw [if_neg (by rw [hversion]; decide)]
      exact exec_writeV3Log hge himage hlt habs hbytes)
  have houtput := hdown.output
  rw [← concat_v3Records hout] at houtput
  refine ⟨?_, d', v3Header ++ concat out, contents out, hexec, houtput, ?_, contents_v3Records hout, ?_, ?_⟩
  · intro o hacc hask
    obtain ⟨s1, d1, hopen, hserves, -⟩ := exec_openStore_reads hacc hs hfree hmain hr hro hask
    refine ⟨s1, d1, hopen, ?_⟩
    rw [← contents_migrated]
    exact hserves.answers
  · have hread : Reads (v3Header ++ concat out ++ []) ⟨3, 0, 0⟩ out := reads_of_header rfl (by decide) rfl (.inl rfl)
    rw [List.append_nil] at hread
    exact hread.headerOk
  · have hdrop : (v3Header ++ concat out).drop logHeaderSize = concat out := List.drop_left' rfl
    have hlen := length_le_concat out
    refine ⟨(placed logHeaderSize out).map fun x => x.2.entry x.1, ?_, ?_, ?_⟩
    · have hsize : (v3Header ++ concat out).length = logHeaderSize + (concat out).length := List.length_append
      rw [hdrop, hsize, scan_complete collect_eq out _ _ _ [] rfl (by omega), foldPlaced_collect, List.nil_append]
    · have hkeys := placed_map_snd logHeaderSize out
      rw [contents_of_distinct (by rw [keys_v3Records hout]; exact live_nodup _) (deleted_v3Records hout),
        List.map_map, List.map_map]
      nth_rewrite 2 [← hkeys]
      rw [List.map_map]
      rfl
    · intro record hrecord
      obtain ⟨x, hx, rfl⟩ := List.mem_map.mp hrecord
      have hmem := List.mem_map_of_mem (f := Prod.snd) hx
      rw [placed_map_snd] at hmem
      exact deleted_v3Records hout x.2 hmem
  · intro o hacc hlock hask
    obtain ⟨s1, d1, hopen, hserves⟩ := exec_openStore_output houtput rfl (by decide) hdown.sound hacc hlock hask
    refine ⟨s1, d1, hopen, ?_⟩
    rw [← contents_migrated]
    exact hserves.answers

/-- A key that was written twice, without attributes. -/
theorem downgrade_v3_round_trip_twice :
    ∃ d' b m, Disk.exec (downgrade "db" "old" ⟨3, false⟩)
        (logDisk (currentHeader ++ concat [shortRec 1 2, shortRec 1 3])) = (.ok (), d') ∧
      d'.bytesAt "old" = some b ∧ List.Forall₂ SameEntry (contents [shortRec 1 2, shortRec 1 3]) m := by
  have ho := logDisk_openable (currentHeader ++ concat [shortRec 1 2, shortRec 1 3])
  obtain ⟨-, d', b, m, hexec, hbytes, -, hsame, -⟩ := downgrade_v3_round_trip (i := 0) (.inr rfl)
    (show (⟨3, false⟩ : DowngradeOptions).version = 3 from rfl) (show "db" ≠ "old" by decide) (.inr rfl)
    ho.sound ho.lockFree rfl (scanned_current _)
    (currentHeader_features _) (by
      intro x hx
      have hplaced := (liveRecs_mem hx).1
      have hkey := (liveRecs_mem hx).2.1
      simp only [placed, List.mem_cons, List.not_mem_nil, or_false] at hplaced
      obtain ⟨k, pos, r⟩ := x
      rcases hplaced with h | h
      · cases h
        cases hkey
        exact ⟨_, rfl⟩
      · cases h
        cases hkey
        exact ⟨_, rfl⟩)
  exact ⟨d', b, m, hexec, hbytes, hsame⟩

end

end AppendStore
