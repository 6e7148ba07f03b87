import AppendStore.Library.Publication
import AppendStore.Store.CompactionAtomic
import AppendStore.Store.DowngradeSource
import AppendStore.Store.InstallFaults

/-! # A downgrade that is interrupted

Any system call of a downgrade may fail, and the machine may lose power at any instant of it. The output is
written under a temporary name, synced, renamed and made durable by a directory sync, so the destination is
never seen half written (`downgrade_crash_atomic`): it holds what it held before, or, byte for byte, what a run
that nothing disturbs would have left there.

Up to the last step this rests on two things. Most parts of the run report every failure of a call (`Loud`), so
that a part that succeeds did what it does without failures; the parts that pass over a failed memory map are
followed by what they leave on the disk. And no call before the renaming touches the destination (`Intact`).
-/

namespace AppendStore
open Library
set_option autoImplicit false

/-! ## Parts that report every failure -/

section
variable {K : Set ℕ}

theorem loud_fileExists (path : Path) : Loud K Failed (fileExists path) :=
  loud_orElse (loud_call (o := .stat path) fun _ _ => rfl) (.ret ⟨_, rfl⟩) (fun _ => loud_pure _ _)
    fun _ => loud_pure _ _

theorem loud_removeIfExists (path : Path) : Loud K Failed (removeIfExists path) :=
  loud_orElse (loud_call (o := .remove path) fun _ _ => rfl) (.ret ⟨_, rfl⟩) (fun _ => loud_pure _ _)
    fun _ => loud_pure _ _

theorem loud_removeAllIfExist (paths : List Path) : Loud K Failed (removeAllIfExist paths) := by
  induction paths with
  | nil => exact loud_pure _ _
  | cons path paths ih => exact loud_andThen (loud_removeIfExists path) fun _ => ih

theorem loud_syncParentDirectory (path : Path) : Loud K Failed (syncParentDirectory path) :=
  loud_orElse (loud_call (o := .syncDir path) fun _ _ => rfl) (.ret ⟨_, rfl⟩) (fun _ => loud_pure _ _)
    fun _ => loud_pure _ _

theorem loud_promoteArtifact (path : Path) (a b c e : Bool) : Loud K Failed (promoteArtifact path a b c e) := by
  have hrename : ∀ (q : Path) (wrap : OsError → Err) (next : FileProg (Except Err Unit)), Loud K Failed next →
      Loud K Failed ((Sys.rename q path).orElse (fun e => pure (.error (wrap e))) fun _ => next) := fun q wrap next h =>
    loud_orElse (loud_call (o := .rename q path) fun _ _ => rfl) (.ret ⟨_, rfl⟩) (fun _ => loud_pure _ _) fun _ => h
  unfold promoteArtifact
  dsimp only
  split
  · exact loud_removeAllIfExist _
  split
  · exact hrename _ _ _ (loud_removeIfExists _)
  split
  · exact hrename _ _ _ (loud_pure _ _)
  split
  · exact hrename _ _ _ (loud_pure _ _)
  · exact loud_pure _ _

theorem loud_recover (path : Path) : Loud K Failed (recoverCompactionArtifacts path) := by
  unfold recoverCompactionArtifacts
  refine loud_andThen (loud_fileExists _) fun a => loud_andThen (loud_fileExists _) fun b => ?_
  refine loud_andThen (loud_fileExists _) fun c => loud_andThen (loud_fileExists _) fun e => ?_
  refine loud_andThen (loud_fileExists _) fun f => loud_andThen (loud_promoteArtifact _ _ _ _ _) fun _ => ?_
  refine loud_andThen (loud_removeAllIfExist _) fun _ => ?_
  split
  · refine loud_bind (loud_syncParentDirectory path) ?_ ?_
    · rintro r ⟨e, rfl⟩
      exact .ret ⟨_, rfl⟩
    · intro r
      cases r with
      | ok a => exact loud_pure _ _
      | error e => exact loud_pure _ _
  · exact loud_pure _ _

theorem loud_acquireFileLock (path : Path) : Loud K Failed (acquireFileLock path) := by
  refine loud_orElse (loud_call (o := .openFile _ _ _) fun _ _ => rfl) (.ret ⟨_, rfl⟩) (fun _ => loud_pure _ _)
    fun file => ?_
  have hclosed : ∀ e : Err, (do let _ ← Sys.close file; pure (.error e) : FileProg (Except Err FileLock)).Each
      (fun _ => True) Failed := fun e =>
    Prog.each_bind (Prog.each_perform (o := FileOp.close file) trivial) fun _ _ => .ret ⟨e, rfl⟩
  exact loud_orElse (loud_call (o := .flock file) fun _ _ => rfl) (hclosed _) (fun _ => loud_of_each (hclosed _))
    fun _ => loud_pure _ _

/-- The scan of a log, which maps no memory. -/
theorem loud_iterate {σ : Type} (l : AppendLog) (fn : LogRecord → σ → Except Err σ) (s : σ) :
    Loud K (fun r => Failed r.1.1) (l.iterate fn s) := by
  refine loud_orElse (loud_call (o := .seek _ _) fun _ _ => rfl) (.ret ⟨_, rfl⟩) (fun _ => loud_pure _ _) fun _ => ?_
  refine loud_orElse (loud_call (o := .readFrom _ _) fun _ _ => rfl) (.ret ⟨_, rfl⟩) (fun _ => loud_pure _ _)
    fun rest => ?_
  unfold AppendLog.finishScan
  split
  · exact loud_pure _ _
  · exact loud_pure _ _
  · split
    · exact loud_orElse (loud_call (o := .truncate _ _) fun _ _ => rfl) (.ret ⟨_, rfl⟩) (fun _ => loud_pure _ _)
        fun _ => loud_pure _ _
    · exact loud_pure _ _

end

/-! ## The loop over the live records -/

section
variable {K : Set ℕ} {version : ℕ} {recs : List (Rec version)} {d : Disk} {log : AppendLog} {header : Bytes}

/-- A loop that ends without an error went through all the records, or its state is spoiled. -/
theorem all_visitLive {σ : Type} {live : Index}
    {fn : Bytes → Bytes → Bytes → Attributes → σ → FileProg (Except Err Unit × σ)} {Z : σ → Prop} (hv : 4 ≤ version)
    (hidx : ∀ k x, (k, x) ∈ liveRecs recs → live.get k = some (liveEntry x))
    {I : List (Bytes × (ℕ × Rec version)) → Disk → σ → Prop}
    (himage : ∀ done d s, I done d s → LogImage d log header recs)
    (hZ : ∀ key value extensions attributes s, Z s →
      (fn key value extensions attributes s).Each (fun _ => True) fun r => Z r.2)
    (xs : List (Bytes × (ℕ × Rec version))) (hxs : ∀ x ∈ xs, x ∈ liveRecs recs)
    (hstep : ∀ x ∈ xs, ∀ done d s, I done d s →
      (fn x.1 x.2.2.value x.2.2.extensions x.2.2.attributes s).All (Disk.Yields K) d fun r d' =>
        ∀ u, r.1 = .ok u → Z r.2 ∨ I (done ++ [x]) d' r.2)
    (done : List (Bytes × (ℕ × Rec version))) {s : σ} (hI : I done d s) :
    (visitLive log live fn (xs.map Prod.fst) s).All (Disk.Yields K) d fun r d' =>
      ∀ u, r.1 = .ok u → Z r.2 ∨ I (done ++ xs) d' r.2 := by
  induction xs generalizing d done s with
  | nil =>
    refine fun _ _ => .inr ?_
    rwa [List.append_nil]
  | cons x xs ih =>
    obtain ⟨k, y⟩ := x
    have hx := hxs (k, y) List.mem_cons_self
    rw [List.map_cons, visitLive, hidx k y hx]
    dsimp only [liveEntry, LogRecord.indexEntry, Rec.entry]
    refine Prog.all_orElse (all_readRecordAndExtensionsAt ((himage _ _ _ hI).storedAt (liveRecs_mem hx).1) hv) ?_ ?_
    · exact fun _ _ _ u hu => by cases hu
    rintro ⟨value, extensions⟩ d1 ⟨rfl, hvalue⟩
    cases hvalue _ rfl
    refine Prog.all_orElseState (hstep (k, y) List.mem_cons_self done d1 s hI) ?_ ?_
    · exact fun _ _ _ _ u hu => by cases hu
    intro u s1 d2 hs1
    rcases hs1 u rfl with hspoiled | hI1
    · refine (all_answers (calls_visitLive (fun _ _ => trivial) hZ _ hspoiled) d2).mono ?_
      exact fun r d' hr _ _ => .inl hr
    · refine (ih (fun x hx => hxs x (List.mem_cons_of_mem _ hx))
        (fun x hx => hstep x (List.mem_cons_of_mem _ hx)) _ hI1).mono ?_
      intro r d' hr
      rwa [List.append_cons]

/-! ## The writers -/

/-- What a downgrade to the version `target` writes, if that version can express the live records. -/
def Output (target : ℕ) (recs : List (Rec version)) (b : Bytes) : Prop :=
  if target = 4 then (∀ x ∈ liveRecs recs, x.2.2.extensions = []) ∧ b = v4Header ++ concat (compacted recs)
  else (∀ x ∈ liveRecs recs, V3Encodes x (v3Bytes x)) ∧ b = v3Header ++ (liveRecs recs).flatMap v3Bytes

theorem all_putV4Record {path : Path} (hlt : log.file.inode < d.next) {done : List (Bytes × (ℕ × Rec version))}
    {d' : Disk} {out : AppendLog} (h : CopyingV4 d path log header recs done d' out)
    {x : Bytes × (ℕ × Rec version)} (hx : x ∈ liveRecs recs) :
    (putV4Record x.1 x.2.2.value x.2.2.extensions x.2.2.attributes out).All (Disk.Yields K) d' fun r d'' =>
      ∀ u, r.1 = .ok u → x.2.2.extensions = [] ∧ CopyingV4 d path log header recs (done ++ [x]) d'' r.2 := by
  have hro : out.unknownReadOnly = 0 := by
    rw [AppendLog.unknownReadOnly, h.readOnlyFeatures]
    rfl
  have hinode : out.file.inode = d.next := by rw [h.file]
  unfold putV4Record
  split
  · exact fun u hu => by cases hu
  rename_i hlength
  have hext : x.2.2.extensions = [] := List.length_eq_zero_iff.mp (Nat.eq_zero_of_not_pos hlength)
  have happend : ∀ key extensions, key = x.2.2.key → extensions = x.2.2.extensions →
      (out.append key x.2.2.value false (enumerate x.2.2.attributes) extensions).All (Disk.Yields K) d' fun r d'' =>
        Touched d' d'' d.next ∧ out.SameFile r.2 ∧ ∀ p, r.1 = .ok p →
          LogImage d'' r.2 currentHeader ((done.map fun x => x.2.2.rewritten) ++ [x.2.2.rewritten]) := by
    rintro _ _ rfl rfl
    rw [← hinode]
    exact (all_append h.image hro x.2.2.rewrite_limits false).mono fun _ _ hr =>
      ⟨hr.1, hr.2.1, fun p hp => (hr.2.2 p hp).2⟩
  refine Prog.all_orElseState (happend x.1 _ (liveRecs_mem hx).2.1.symm hext.symm) ?_ ?_
  · exact fun _ _ _ _ u hu => by cases hu
  rintro p out' d'' ⟨ht, hsame, hok⟩ - -
  have himage := hok p rfl
  refine ⟨hext, ⟨h.source.of_touched ht (Nat.ne_of_lt hlt), ?_, ?_, ?_, ?_, h.touched.trans ht⟩⟩
  · rw [List.map_append]
    exact himage
  · rw [hsame.file, h.file]
  · rw [hsame.incompatibleFeatures, h.incompatibleFeatures]
  · rw [hsame.readOnlyFeatures, h.readOnlyFeatures]

theorem loud_setVersion (l : AppendLog) (target : ℕ) : Loud K (fun r => Failed r.1) (l.setVersion target) := by
  have hwrite : Loud K Failed (({ l with version := target } : AppendLog).writeHeader) := by
    refine loud_bind (loud_writeAt _ _ _) ?_ ?_
    · rintro r ⟨e, rfl⟩
      exact .ret ⟨_, rfl⟩
    · intro r
      cases r with
      | ok u => exact loud_pure _ _
      | error e => exact loud_pure _ _
  have hsync : Loud K Failed (asErr (Sys.fsync l.file)) :=
    loud_orElse (loud_call (o := .fsync _) fun _ _ => rfl) (.ret ⟨_, rfl⟩) (fun _ => loud_pure _ _)
      fun _ => loud_pure _ _
  refine loud_bind hwrite ?_ ?_
  · rintro r ⟨e, rfl⟩
    exact .ret ⟨e, rfl⟩
  · intro r
    cases r with
    | ok u =>
      refine loud_bind hsync ?_ fun _ => loud_pure _ _
      rintro r ⟨e, rfl⟩
      exact .ret ⟨e, rfl⟩
    | error e => exact loud_pure _ _

/-- **`writeV4Log` that succeeds wrote the whole output, and made it durable.** -/
theorem all_writeV4Log {path : Path} (hv : 4 ≤ version) (h : LogImage d log header recs)
    (hlt : log.file.inode < d.next) (habs : d.dir path = none) :
    (writeV4Log log (replay [] recs) path).All (Disk.Yields K) d fun r d' => ∀ u, r = .ok u →
      ∃ b, Output 4 recs b ∧ d'.files d.next = ⟨b, b⟩ := by
  refine Prog.all_andThen (all_createAppendLogMode habs) (fun e d' _ u hu => by cases hu) ?_
  rintro first d1 ⟨-, -, hok⟩
  obtain ⟨rfl, ho⟩ := hok first rfl
  have hstart : CopyingV4 d path log header recs [] ((d.create path).setContent d.next currentHeader) first := by
    refine ⟨?_, ?_, ho.file, ho.incompatibleFeatures, ho.readOnlyFeatures, touched_setContent _ _ _⟩
    · refine h.of_same ⟨rfl, rfl, rfl, rfl, rfl⟩ rfl ?_
      rw [Disk.files_setContent_ne _ _ _ _ (Nat.ne_of_lt hlt), Disk.files_create_ne _ _ _ (Nat.ne_of_lt hlt)]
    · refine ho.image rfl currentHeader_length ?_ ?_
      · rw [Disk.content_setContent, List.map_nil, concat_nil, List.append_nil]
      · rw [Disk.content_setContent, currentHeader_length]
  have hloop := all_visitLive (K := K) (Z := fun _ => False) hv (replay_get [] recs)
    (I := fun done d' out => CopyingV4 d path log header recs done d' out ∧ ∀ x ∈ done, x.2.2.extensions = [])
    (fun _ _ _ hI => hI.1.source) (fun _ _ _ _ _ hs => hs.elim) (liveRecs recs) (fun _ hx => hx)
    (fun x hx done d' out hI => (all_putV4Record hlt hI.1 hx).mono fun r d'' hr u hu => .inr
      ⟨(hr u hu).2, fun y hy => (List.mem_append.mp hy).elim (hI.2 y)
        fun hy => by rw [List.mem_singleton.mp hy]; exact (hr u hu).1⟩)
    [] ⟨hstart, fun x hx => by cases hx⟩
  have hclosed : ∀ (l : AppendLog) (e : Err) (d' : Disk),
      (do let _ ← l.close; pure (.error e) : FileProg (Except Err Unit)).All (Disk.Yields K) d' fun r d'' =>
        ∀ u, r = .ok u → ∃ b, Output 4 recs b ∧ d''.files d.next = ⟨b, b⟩ := fun l e d' =>
    Prog.all_bind ((Disk.all_observes (observes_close l)).mono fun _ _ _ u hu => by cases hu)
  unfold forEachLiveRecord
  rw [replay_sortedKeys]
  refine Prog.all_orElseState hloop (fun e l d' _ => hclosed l e d') ?_
  intro u out d2 hout
  obtain ⟨hcopy, hext⟩ := (hout u rfl).resolve_left id
  rw [List.nil_append] at hcopy hext
  have hinode : out.file.inode = d.next := by rw [hcopy.file]
  have hbytes : writeAt (d2.files out.file.inode).content 0
      (Header.bytes ⟨4, out.incompatibleFeatures, out.readOnlyFeatures⟩) = v4Header ++ concat (compacted recs) := by
    rw [hcopy.image.content, hcopy.incompatibleFeatures, hcopy.readOnlyFeatures]
    exact writeAt_front currentHeader _ v4Header (by rw [currentHeader_length]; exact Header.bytes_length _)
  have hset := exec_setVersion (by rw [hcopy.file] : out.file.isOpen = true) 4 d2
  rw [hbytes, hinode] at hset
  refine Prog.all_orElseState (Q := fun r d' => ∀ u, r.1 = .ok u →
    d'.files d.next = ⟨v4Header ++ concat (compacted recs), v4Header ++ concat (compacted recs)⟩)
    ((loud_setVersion out 4 d2).mono ?_) (fun e l d' _ => hclosed l e d') ?_
  · rintro ⟨r, l⟩ d' (⟨e, rfl⟩ | heq) u hu
    · cases hu
    · rw [hset] at heq
      cases heq
      simp [Disk.syncFile]
  · intro u l d' hfile
    refine Prog.all_bind ((Disk.all_observes (observes_close l)).mono ?_)
    rintro ⟨r, l'⟩ d'' ⟨rfl, -⟩ u' -
    exact ⟨_, by rw [Output, if_pos rfl]; exact ⟨hext, rfl⟩, hfile u rfl⟩

theorem loud_putV3Record (key value extensions : Bytes) (attributes : Attributes) (w : BufferedWriter) :
    Loud K (fun r => r.2.err ≠ none) (putV3Record key value extensions attributes w) := by
  unfold putV3Record
  split
  · exact loud_pure _ _
  · exact loud_bind (BufferedWriter.loud_write w _) (fun _ hw => .ret hw) fun _ => loud_pure _ _

theorem each_putV3Record_err (key value extensions : Bytes) (attributes : Attributes) {w : BufferedWriter}
    (herr : w.err ≠ none) :
    (putV3Record key value extensions attributes w).Each (fun _ => True) fun r => r.2.err ≠ none := by
  unfold putV3Record
  split
  · exact .ret herr
  · exact Prog.each_bind (BufferedWriter.each_write_err herr _) fun _ hw => .ret hw

/-- A record that version 3 cannot express ends the run. -/
theorem all_putV3Record {path : Path} (hlt : log.file.inode < d.next) {done : List (Bytes × (ℕ × Rec version))}
    {d' : Disk} {w : BufferedWriter} (h : CopyingV3 d path log header recs v3Bytes done d' w)
    (x : Bytes × (ℕ × Rec version)) :
    (putV3Record x.1 x.2.2.value x.2.2.extensions x.2.2.attributes w).All (Disk.Yields K) d' fun r d'' =>
      ∀ u, r.1 = .ok u → r.2.err ≠ none ∨
        V3Encodes x (v3Bytes x) ∧ CopyingV3 d path log header recs v3Bytes (done ++ [x]) d'' r.2 := by
  cases hencode : encodeV3Record x.1 x.2.2.value x.2.2.extensions (enumerate x.2.2.attributes) with
  | error e =>
    unfold putV3Record
    rw [hencode]
    exact fun u hu => by cases hu
  | ok b =>
    have hencodes : V3Encodes x b := hencode
    have hx : V3Encodes x (v3Bytes x) := by rwa [hencodes.v3Bytes_eq]
    refine (loud_putV3Record x.1 x.2.2.value x.2.2.extensions x.2.2.attributes w d').mono ?_
    rintro ⟨r, w'⟩ d'' (herr | heq) u -
    · exact .inl herr
    · obtain ⟨w1, d1, hexec, hcopy⟩ := h.write hlt hx
      rw [hexec] at heq
      cases heq
      exact .inr ⟨hx, hcopy⟩

/-- **`writeV3Log` that succeeds wrote the whole output, and made it durable.** -/
theorem all_writeV3Log {path : Path} (hv : 4 ≤ version) (h : LogImage d log header recs)
    (hlt : log.file.inode < d.next) (habs : d.dir path = none) {target : ℕ} (htarget : target ≠ 4) :
    (writeV3Log log (replay [] recs) path).All (Disk.Yields K) d fun r d' => ∀ u, r = .ok u →
      ∃ b, Output target recs b ∧ d'.files d.next = ⟨b, b⟩ := by
  refine Prog.all_orElse (Disk.all_open_none habs true) (fun e d' _ u hu => by cases hu) ?_
  rintro file d0 ⟨hfile, -⟩
  obtain ⟨rfl, rfl⟩ := hfile file rfl
  have hnew : BufferedWriter.Wrote (d.create path) (BufferedWriter.new ⟨d.next, true⟩ (1 <<< 20)) [] :=
    BufferedWriter.wrote_new rfl _ (by simp)
  have hclosed : ∀ (e : Err) (d' : Disk),
      (do let _ ← Sys.close ⟨d.next, true⟩; pure (.error e) : FileProg (Except Err Unit)).All (Disk.Yields K) d'
        fun r d'' => ∀ u, r = .ok u → ∃ b, Output target recs b ∧ d''.files d.next = ⟨b, b⟩ := fun e d' =>
    (all_answers (B := fun r => ∀ u, r = .ok u → False) (Prog.each_bind
      (Prog.each_perform (o := FileOp.close _) trivial) fun _ _ => .ret fun u hu => by cases hu) d').mono
        fun r d'' hr u hu => (hr u hu).elim
  -- the writer after the header, unless a write has failed
  have hhead : ((BufferedWriter.new ⟨d.next, true⟩ (1 <<< 20)).write (Header.bytes ⟨3, 0, 0⟩)).All (Disk.Yields K)
      (d.create path) fun w d' => w.err ≠ none ∨ CopyingV3 d path log header recs v3Bytes [] d' w := by
    refine (BufferedWriter.loud_write _ _ _).mono ?_
    rintro w d1 (herr | heq)
    · exact .inl herr
    · obtain ⟨w', d', hexec, hwrote, hwfile, ht⟩ := BufferedWriter.exec_write hnew v3Header
      rw [v3Header] at hexec
      rw [hexec] at heq
      cases heq
      refine .inr ⟨?_, by rwa [List.nil_append] at hwrote, hwfile, ht⟩
      refine h.of_same ⟨rfl, rfl, rfl, rfl, rfl⟩ rfl ?_
      rw [ht.others _ (Nat.ne_of_lt hlt), Disk.files_create_ne _ _ _ (Nat.ne_of_lt hlt)]
  refine Prog.all_bind (hhead.mono ?_)
  intro w d1 hw
  unfold forEachLiveRecord
  rw [replay_sortedKeys]
  have hloop : (visitLive log (replay [] recs).keysSortedByOffset.2 putV3Record ((liveRecs recs).map Prod.fst) w).All
      (Disk.Yields K) d1 fun r d' => ∀ u, r.1 = .ok u → r.2.err ≠ none ∨
        (CopyingV3 d path log header recs v3Bytes (liveRecs recs) d' r.2 ∧
          ∀ x ∈ liveRecs recs, V3Encodes x (v3Bytes x)) := by
    rcases hw with herr | hcopy
    · refine (all_answers (calls_visitLive (J := fun w : BufferedWriter => w.err ≠ none) (fun _ _ => trivial)
        (fun _ _ _ _ _ hs => each_putV3Record_err _ _ _ _ hs) _ herr) d1).mono ?_
      exact fun r d' hr _ _ => .inl hr
    · refine all_visitLive (Z := fun w : BufferedWriter => w.err ≠ none) hv (replay_get [] recs)
        (I := fun done d' w => CopyingV3 d path log header recs v3Bytes done d' w ∧ ∀ x ∈ done, V3Encodes x (v3Bytes x))
        (fun _ _ _ hI => hI.1.source) (fun _ _ _ _ _ hs => each_putV3Record_err _ _ _ _ hs) (liveRecs recs)
        (fun _ hx => hx) (fun x hx done d' w hI => (all_putV3Record hlt hI.1 x).mono fun r d'' hr u hu =>
          (hr u hu).imp id fun hnext => ⟨hnext.2, fun y hy => (List.mem_append.mp hy).elim (hI.2 y)
            fun hy => by rw [List.mem_singleton.mp hy]; exact hnext.1⟩)
        [] ⟨hcopy, fun x hx => by cases hx⟩
  refine Prog.all_orElseState hloop (fun e _ d' _ => hclosed e d') ?_
  intro u w' d2 hw'
  have hloud := BufferedWriter.loud_flush (K := K) w' d2
  have hflush : w'.flush.All (Disk.Yields K) d2 fun r d' => ∀ u, r.1 = .ok u →
      (∀ x ∈ liveRecs recs, V3Encodes x (v3Bytes x)) ∧
        (d'.files d.next).content = v3Header ++ (liveRecs recs).flatMap v3Bytes := by
    refine hloud.mono ?_
    rintro ⟨r, w''⟩ d' (⟨⟨e, rfl⟩, -⟩ | heq) u hu
    · cases hu
    rcases hw' _ rfl with herr | ⟨hcopy, hencodes⟩
    · obtain ⟨e, he⟩ := Option.ne_none_iff_exists'.mp herr
      unfold BufferedWriter.flush at heq
      rw [he] at heq
      cases heq
      cases hu
    · have hwrote := hcopy.wrote
      obtain ⟨w1, d1', hexec, hflushed, hempty, hwfile, -, -⟩ :=
        BufferedWriter.exec_flush hwrote.isOpen hwrote.err hwrote.offset hwrote.content
      rw [hexec] at heq
      cases heq
      have hcontent := hflushed.content
      rw [hempty, List.append_nil, hwfile, hcopy.file] at hcontent
      exact ⟨hencodes, hcontent⟩
  refine Prog.all_orElseState hflush (fun e _ d' _ => hclosed _ d') ?_
  intro u w'' d3 hd3
  obtain ⟨hencodes, hcontent⟩ := hd3 u rfl
  have hsync : Loud K Faulted (Sys.fsync ⟨d.next, true⟩) := loud_call (o := .fsync _) fun _ _ => rfl
  refine Prog.all_orElse (hsync d3) (fun e d' _ => hclosed _ d') ?_
  rintro u d4 (herr | heq)
  · cases herr
  rw [Disk.exec_fsync rfl] at heq
  cases heq
  have hclose : (asErr (Sys.close ⟨d.next, true⟩)).Each FileOp.Observes fun _ => True :=
    Prog.each_orElse (Prog.each_perform (o := FileOp.close _) trivial) (fun _ _ => .ret trivial) fun _ _ => .ret trivial
  refine (Disk.all_observes hclose).mono ?_
  rintro r d' ⟨rfl, -⟩ - -
  refine ⟨_, by rw [Output, if_neg htarget]; exact ⟨hencodes, rfl⟩, ?_⟩
  rw [← hcontent]
  simp [Disk.syncFile]

end

/-! ## The instants of the writers -/

section
variable {K : Set ℕ} {lossy : DirOp → Prop} {q tmp : Path} {d s : Disk} {log : AppendLog} {live : Index}

theorem always_writeV4Log (h : Intact lossy q d s) (hlinks : ∀ p j, ¬ lossy (.link p j)) (hne : tmp ≠ q)
    (habs : s.dir tmp = none) :
    (writeV4Log log live tmp).Always (Disk.Yields K) (Intact lossy q d) s fun r t => Intact lossy q d t ∧
      ∀ u, r = .ok u → Growing lossy q tmp d s.next t := by
  have hfail : ∀ {α : Type} (e : Err) (t : Disk), Intact lossy q d t → Intact lossy q d t ∧
      ∀ u : α, (.error e : Except Err α) = .ok u → Growing lossy q tmp d s.next t :=
    fun e t ht => ⟨ht, fun u hu => by cases hu⟩
  have hcreate : (createAppendLogMode tmp).Always (Disk.Yields K) (Intact lossy q d) s fun r t => Intact lossy q d t ∧
      ∀ l, r = .ok l → l.file.inode = s.next ∧ Foreign (· = q) d s.next ∧ Growing lossy q tmp d s.next t := by
    refine Prog.always_orElse (h.create hlinks hne habs) (fun e t ht => ⟨ht.1, ht.1, fun l hl => by cases hl⟩) ?_
    rintro file t ⟨-, hfile⟩
    obtain ⟨rfl, hforeign, hgrow⟩ := hfile file rfl
    have hP : ∀ o : FileOp, o.On (OsFile.mk s.next true).inode → Beneath q tmp d o :=
      fun o ho => beneath_of_on ho hforeign
    refine (hgrow.always (calls_startNew hP tmp)).mono (fun _ ht => ht) ?_
    rintro r t ⟨ht, hr⟩
    exact ⟨ht.intact, fun l hl => ⟨congrArg OsFile.inode (hr l hl).file, hforeign, ht⟩⟩
  refine Prog.always_orElse hcreate (fun e t ht => ⟨ht.1, hfail e t ht.1⟩) ?_
  rintro out t ⟨-, hout⟩
  obtain ⟨hinode, hforeign, hgrow⟩ := hout out rfl
  have hP : ∀ l : AppendLog, l.file.inode = s.next → ∀ o : FileOp, o.On l.file.inode → Beneath q tmp d o := by
    intro l hl o ho
    rw [hl] at ho
    exact beneath_of_on ho hforeign
  have hclose : ∀ l : AppendLog, l.file.inode = s.next → ∀ f : Except Err Unit × AppendLog → Except Err Unit,
      (do let r ← l.close; pure (f r) : FileProg (Except Err Unit)).Each (Beneath q tmp d) fun _ => True :=
    fun l hl f => Prog.each_bind (calls_close (hP l hl)) fun _ _ => .ret trivial
  refine (hgrow.always (Q := fun _ => True) ?_).mono (fun _ ht => ht) fun r t ht => ⟨ht.1.intact, fun _ _ => ht.1⟩
  refine Prog.each_orElseState (calls_visitLive (J := fun l : AppendLog => l.file.inode = s.next)
    (fun o ho => beneath_of_reading ho) ?_ _ hinode) (fun e l hl => hclose l hl fun _ => .error e) fun _ l hl => ?_
  · intro key value extensions attributes l hl
    exact (calls_putV4Record (hP l hl) key value extensions attributes).mono fun r hr => by rw [hr, hl]
  · refine Prog.each_orElseState (calls_setVersion (hP l hl) 4) (fun e l' hl' => ?_) fun _ l' hl' => ?_
    · exact hclose l' (by rw [hl'.file, hl]) fun _ => .error e
    · exact hclose l' (by rw [hl'.file, hl]) fun r => r.1

theorem always_writeV3Log (h : Intact lossy q d s) (hlinks : ∀ p j, ¬ lossy (.link p j)) (hne : tmp ≠ q)
    (habs : s.dir tmp = none) :
    (writeV3Log log live tmp).Always (Disk.Yields K) (Intact lossy q d) s fun r t => Intact lossy q d t ∧
      ∀ u, r = .ok u → Growing lossy q tmp d s.next t := by
  refine Prog.always_orElse (h.create hlinks hne habs) (fun e t ht => ⟨ht.1, ht.1, fun l hl => by cases hl⟩) ?_
  rintro file t ⟨-, hfile⟩
  obtain ⟨rfl, hforeign, hgrow⟩ := hfile file rfl
  have hP : ∀ w : BufferedWriter, w.file.inode = s.next → ∀ o : FileOp, o.On w.file.inode → Beneath q tmp d o := by
    intro w hw o ho
    rw [hw] at ho
    exact beneath_of_on ho hforeign
  have hon : ∀ o : FileOp, o.On s.next → Beneath q tmp d o := fun o ho => beneath_of_on ho hforeign
  have hclose : ∀ e : Err, (do let _ ← Sys.close ⟨s.next, true⟩; pure (.error e) : FileProg (Except Err Unit)).Each
      (Beneath q tmp d) fun _ => True :=
    fun e => Prog.each_bind (Prog.each_perform (hon (.close ⟨s.next, true⟩) rfl)) fun _ _ => .ret trivial
  refine (hgrow.always (Q := fun _ => True) ?_).mono (fun _ ht => ht) fun r t ht => ⟨ht.1.intact, fun _ _ => ht.1⟩
  refine Prog.each_bind (calls_write (hP (BufferedWriter.new ⟨s.next, true⟩ (1 <<< 20)) rfl) _) fun w hw => ?_
  refine Prog.each_orElseState (calls_visitLive (J := fun w : BufferedWriter => w.file.inode = s.next)
    (fun o ho => beneath_of_reading ho) ?_ _ (by rw [hw]; rfl)) (fun e _ _ => hclose e) fun _ w hw => ?_
  · intro key value extensions attributes w hw
    exact (calls_putV3Record (hP w hw) key value extensions attributes).mono fun r hr => by rw [hr, hw]
  · refine Prog.each_orElseState (calls_flush (hP w hw)) (fun e _ _ => hclose (.os e)) fun _ _ _ => ?_
    refine Prog.each_orElse (Prog.each_perform (hon (.fsync ⟨s.next, true⟩) rfl)) (fun e _ => hclose (.os e))
      fun _ _ => ?_
    exact Prog.each_orElse (Prog.each_perform (hon (.close ⟨s.next, true⟩) rfl)) (fun _ _ => .ret trivial)
      fun _ _ => .ret trivial

end

/-! ## The whole run -/

section
variable {K : Set ℕ} {lossy : DirOp → Prop} {version : ℕ} {recs : List (Rec version)} {d s : Disk} {src dst : Path}
  {options : DowngradeOptions} {header : Bytes} {Whole : Bytes → Prop} {i : ℕ} {h : Header}

/-- What a run that nothing disturbs leaves at the destination. -/
def PlainRunLeaves (d : Disk) (src dst : Path) (options : DowngradeOptions) (b : Bytes) : Prop :=
  ∃ d', Disk.exec (downgrade src dst options) d = (.ok (), d') ∧ d'.bytesAt dst = some b

theorem plainRunLeaves_of_output {b : Bytes} (ha : Admitted d src dst options) (hs : d.Sound)
    (hmain : recoveredMain d.dir src = some i) (hr : Reads (d.files i).content h recs) (hv : 4 ≤ version)
    (hro : h.readOnlyFeatures = 0) (hb : Output options.version recs b) : PlainRunLeaves d src dst options b := by
  have hrun : ∃ d', Disk.exec (downgrade src dst options) d = (.ok (), d') ∧ Downgraded d d' src dst i recs b := by
    refine exec_downgrade_written ha.version ha.ne ha.destination hs ha.lockFree hmain hr hv hro ?_
    intro log d1 himage hlt habs
    unfold Output at hb
    by_cases htarget : options.version = 4
    · rw [if_pos htarget] at hb ⊢
      rw [hb.2]
      exact exec_writeV4Log hv himage hlt habs hb.1
    · rw [if_neg htarget] at hb ⊢
      rw [hb.2]
      exact exec_writeV3Log hv himage hlt habs hb.1
  obtain ⟨d', hexec, hdone⟩ := hrun
  exact ⟨d', hexec, hdone.output⟩

/-- The writing of the live records. -/
theorem always_writeDowngraded (hI : Intact lossy dst d s) (hlinks : ∀ p j, ¬ lossy (.link p j)) {log : AppendLog}
    (himage : LogImage s log header recs) (hlt : log.file.inode < s.next) (hv : 4 ≤ version) (target : ℕ)
    (hwhole : ∀ b, Output target recs b → Whole b) :
    (writeDowngraded log (replay [] recs) dst target).Always (Disk.Yields K) (OldOrNew lossy dst d Whole) s
      (Ends lossy dst d Whole) := by
  have hne : dst ++ downgradeTempSuffix ≠ dst := (path_ne_append (by decide)).symm
  have hremove : (removeIfExists (dst ++ downgradeTempSuffix)).Each (FileOp.Spares (· = dst) d) fun _ => True :=
    Prog.each_orElse (Prog.each_perform (o := FileOp.remove _) hne) (fun _ _ => .ret trivial) fun _ _ => .ret trivial
  refine Prog.always_orElse (((hI.always hremove).and (all_removeIfExists _)).mono (fun _ ht => .inl ht)
    fun _ _ ht => ht) (fun e t ht => ⟨.inl ht.1.1, ht.1.1.ends⟩) ?_
  rintro u t ⟨⟨ht, -⟩, hsame, -, -, hgone⟩
  have habs := hgone u rfl
  have himage' : LogImage t log header recs := himage.of_same ⟨rfl, rfl, rfl, rfl, rfl⟩ rfl (by rw [hsame.files])
  have hlt' : log.file.inode < t.next := by rw [hsame.next]; exact hlt
  refine always_publish hne Err.os ?_
  have hripe : ∀ {r : Except Err Unit} {v : Disk}, (Intact lossy dst d v ∧ ∀ u, r = .ok u →
      Growing lossy dst (dst ++ downgradeTempSuffix) d t.next v) →
      (∀ u, r = .ok u → ∃ b, Output target recs b ∧ v.files t.next = ⟨b, b⟩) →
      Intact lossy dst d v ∧ ∀ u, r = .ok u → ∃ i b, Whole b ∧ Ripe lossy (dst ++ downgradeTempSuffix) i b v := by
    intro r v hv hout
    refine ⟨hv.1, fun u hu => ?_⟩
    obtain ⟨b, hb, hfile⟩ := hout u hu
    exact ⟨t.next, b, hwhole b hb, (hv.2 u hu).name, hfile⟩
  by_cases htarget : target = 4
  · rw [if_pos htarget]
    subst htarget
    exact ((always_writeV4Log ht hlinks hne habs).and (all_writeV4Log hv himage' hlt' habs)).mono (fun _ h => h)
      fun _ _ h => hripe h.1 h.2
  · rw [if_neg htarget]
    exact ((always_writeV3Log ht hlinks hne habs).and (all_writeV3Log hv himage' hlt' habs htarget)).mono (fun _ h => h)
      fun _ _ h => hripe h.1 h.2

theorem Inert.idle {o : FileOp} (ho : Inert o) : o.Idle := by
  cases o with
  | close f => trivial
  | funlock f => trivial
  | syncDir p => trivial
  | _ => exact ho.elim

/-- What is done with the open source. -/
theorem always_downgradeOpened (hI : Intact lossy dst d s) (hlinks : ∀ p j, ¬ lossy (.link p j)) {l : AppendLog}
    (ho : Opened l src i h (s.files i).content.length) (hr : Reads (s.files i).content h recs) (hv : 4 ≤ version)
    (hro : h.readOnlyFeatures = 0) (hi : i < s.next) (hforeign : Foreign (· = dst) d i) (target : ℕ)
    (hwhole : ∀ b, Output target recs b → Whole b) :
    (downgradeOpened l src dst target).Always (Disk.Yields K) (OldOrNew lossy dst d Whole) s
      fun r t => Ends lossy dst d Whole r.1 t := by
  have hinode : l.file.inode = i := by rw [ho.file]
  unfold downgradeOpened
  rw [if_neg (by rw [ho.version, hr.versionEq]; omega)]
  dsimp only
  rw [ho.incompatibleFeatures, ho.readOnlyFeatures, hro, hr.known.2.2.1, if_neg (by decide)]
  have hscan := (hI.always (K := K) (calls_iterate (P := FileOp.Spares (· = dst) d) (l := l)
    (fun o hon => spares_of_on hon (hinode ▸ hforeign)) liveRecord (newIndex []))).and
    (loud_iterate l liveRecord (newIndex []) s)
  refine Prog.always_bind (hscan.mono (fun _ ht => .inl ht) ?_)
  rintro ⟨⟨r, l'⟩, live⟩ t ⟨⟨ht, -⟩, hloud⟩
  cases r with
  | error e => exact ⟨.inl ht, ht.ends⟩
  | ok u =>
    obtain ⟨l1, d1, hit, htrim, htouched, hsame, hpos⟩ := exec_iterate_reads liveRecord_eq ho hr hro (newIndex [])
    have heq := hloud.resolve_left (by rintro ⟨e, he⟩; cases he)
    rw [hit] at heq
    cases heq
    have hfile : l'.file = ⟨i, true⟩ := by rw [hsame.file, ho.file]
    have himage : LogImage t l' ((s.files i).content.take logHeaderSize) recs := by
      refine ⟨by rw [hfile], by rw [hsame.version, ho.version, hr.versionEq], hr.headerLength, ?_, hpos⟩
      rw [hfile, htrim.content]
    refine Prog.always_bind ((always_writeDowngraded ht hlinks himage ?_ hv target hwhole).mono (fun _ h => h) ?_)
    · rw [hfile, htouched.next]
      exact hi
    · exact fun r v hends => ⟨hends.1, hends⟩

theorem loud_checkDestination (dst : Path) (overwrite : Bool) : Loud K Failed (checkDestination dst overwrite) := by
  unfold checkDestination
  split
  · exact loud_pure _ _
  · exact loud_orElse (loud_call (o := .stat dst) fun _ _ => rfl) (.ret ⟨_, rfl⟩) (fun _ => loud_pure _ _)
      fun _ => loud_pure _ _

theorem checkDestination_ok {overwrite : Bool} {u : Unit} {d' : Disk}
    (hcheck : Disk.exec (checkDestination dst overwrite) d = (.ok u, d')) :
    (overwrite = true ∨ d.dir dst = none) ∧ d' = d := by
  by_cases hdst : overwrite = true ∨ d.dir dst = none
  · rw [exec_checkDestination hdst] at hcheck
    exact ⟨hdst, (congrArg Prod.snd hcheck).symm⟩
  · obtain ⟨hoverwrite, hsome⟩ := not_or.mp hdst
    obtain ⟨j, hj⟩ := Option.ne_none_iff_exists'.mp hsome
    unfold checkDestination at hcheck
    rw [if_neg hoverwrite, Disk.exec_orElse_ok (Disk.exec_stat_some hj)] at hcheck
    cases congrArg Prod.fst hcheck

theorem acquireFileLock_free {lock : FileLock} {d' : Disk}
    (hlocked : Disk.exec (acquireFileLock src) d = (.ok lock, d')) : LockFree d src := by
  intro j hj
  by_contra hheld
  rw [exec_acquireFileLock_held hj (by simpa using hheld)] at hlocked
  cases congrArg Prod.fst hlocked

variable (hs : d.Sound) (hmain : recoveredMain d.dir src = some i) (hr : Reads (d.files i).content h recs)
  (hv : 4 ≤ version) (hro : h.readOnlyFeatures = 0)
include hs hmain hr hv hro

/-- **Every instant of a downgrade, whichever of its calls fail.** -/
theorem always_downgrade (hlinks : ∀ p j, ¬ lossy (.link p j)) (hlock : dst ≠ src ++ lockFileSuffix)
    (hart : dst ∉ artifacts src) (hI : Intact lossy dst d d) :
    (downgrade src dst options).Always (Disk.Yields K) (OldOrNew lossy dst d (PlainRunLeaves d src dst options)) d
      (Ends lossy dst d (PlainRunLeaves d src dst options)) := by
  unfold downgrade
  dsimp only
  split
  · exact ⟨.inl hI, hI.ends⟩
  rename_i hversion
  split
  · exact ⟨.inl hI, hI.ends⟩
  rename_i hne
  have hspared : ∀ {α : Type} {p : FileProg α} {t : Disk}, Intact lossy dst d t →
      p.Each (FileOp.Spares (· = dst) d) (fun _ => True) →
      p.Always (Disk.Yields K) (Intact lossy dst d) t fun _ u => Intact lossy dst d u := fun ht hp =>
    (ht.always hp).mono (fun _ h => h) fun _ _ h => h.1
  have hacquire : (acquireFileLock src).Each (FileOp.Spares (· = dst) d) fun _ => True :=
    calls_acquireFileLock (fun heq => hlock heq.symm) (fun _ => trivial) fun _ => trivial
  have hrecover : (recoverCompactionArtifacts src).Each (FileOp.Spares (· = dst) d) fun _ => True :=
    calls_recoverCompactionArtifacts (fun _ => trivial) (fun q hq heq => hart (heq ▸ hq))
      (fun q hq => ⟨fun heq => hart (heq ▸ hq), hne⟩) trivial
  refine Prog.always_orElse (((hspared hI (calls_checkDestination trivial options.overwrite)).and
    ((loud_checkDestination dst options.overwrite).ok d)).mono (fun _ ht => .inl ht) fun _ _ ht => ht)
    (fun e t ht => ⟨.inl ht.1, ht.1.ends⟩) ?_
  rintro u t ⟨-, hcheck⟩
  obtain ⟨hdst, rfl⟩ := checkDestination_ok (hcheck u rfl)
  refine Prog.always_orElse (((hspared hI hacquire).and ((loud_acquireFileLock src).ok t)).mono
    (fun _ ht => .inl ht) fun _ _ ht => ht) (fun e t ht => ⟨.inl ht.1, ht.1.ends⟩) ?_
  rintro lock d1 ⟨hd1, hlocked⟩
  have hlocked := hlocked lock rfl
  have hfree : LockFree t src := acquireFileLock_free hlocked
  have ha : Admitted t src dst options := ⟨by omega, hne, hdst, hfree⟩
  refine Prog.always_bind (Prog.Always.mono (Q := Ends lossy dst t (PlainRunLeaves t src dst options)) ?_
    (fun _ ht => ht) fun r v hends => ?_)
  swap
  · refine Prog.always_bind ((hends.always ((each_inert_release lock).imp fun _ => Inert.idle)).mono
      (fun _ ht => ht) ?_)
    exact fun _ w hw => ⟨hw.1, hw⟩
  unfold downgradeLocked openAppendLog
  refine Prog.always_orElse (Q := fun r v => Intact lossy dst t v ∧ ∀ l, r = .ok l →
    Opened l src i h (v.files i).content.length ∧ v.files i = t.files i ∧ i < v.next ∧ Foreign (· = dst) t i)
    ?_ (fun e v hv => ⟨.inl hv.1, hv.1.ends⟩) ?_
  · refine Prog.always_orElse (((hspared hd1 hrecover).and ((loud_recover src).ok d1)).mono
      (fun _ ht => .inl ht) fun _ _ ht => ht) (fun e v hv => ⟨.inl hv.1, hv.1, fun l hl => by cases hl⟩) ?_
    rintro u d2 ⟨hd2, hrecovered⟩
    obtain ⟨k, d1', d2', hlock', hrecover', hready, -⟩ := exec_lockAndRecover hs hfree
    rw [hlocked] at hlock'
    cases hlock'
    rw [hrecovered u rfl] at hrecover'
    cases hrecover'
    have hset := hready.settled hmain
    have hfile : d2.files i = t.files i := hready.files i (recoveredMain_bounded hs hmain)
    rw [openAppendLogFile]
    refine Prog.always_orElse (((hd2.openFile hne true false).and (Disk.all_open_some hset.dir true)).mono
      (fun _ ht => .inl ht) fun _ _ ht => ht) (fun e v hv => ⟨.inl hv.1.1, hv.1.1, fun l hl => by cases hl⟩) ?_
    rintro file d3 ⟨⟨-, hforeign⟩, rfl, hhandle⟩
    have hforeign := hforeign file rfl
    obtain rfl := hhandle file rfl
    have hnonempty : (d3.files i).content ≠ [] := by
      rw [hfile, ← List.length_pos_iff]
      exact Nat.lt_of_lt_of_le (by decide) (readHeaderOf_ok hr.headerOk).1
    have hheader : readHeaderOf (d3.files i).content = .ok h := by rw [hfile, hr.headerOk]
    refine ((hd2.always (calls_startLog (fun o ho => spares_of_on ho hforeign) src)).and
      (all_startLog hnonempty hheader)).mono (fun _ ht => .inl ht) ?_
    rintro r d4 ⟨⟨hd4, -⟩, rfl, hopened⟩
    exact ⟨hd4, fun l hl => ⟨hopened l hl, hfile, hset.sound.bounded _ _ hset.dir, hforeign⟩⟩
  · rintro log v ⟨hv', hlog⟩
    obtain ⟨ho, hfile, hlt, hforeign⟩ := hlog log rfl
    refine Prog.always_bind ((always_downgradeOpened hv' hlinks ho (by rw [hfile]; exact hr) hv hro hlt hforeign
      options.version fun b hb => plainRunLeaves_of_output ha hs hmain hr hv hro hb).mono (fun _ ht => ht) ?_)
    rintro ⟨r, l⟩ w hends
    refine Prog.always_bind ((hends.always ((each_inert_close l).imp fun _ => Inert.idle)).mono (fun _ ht => ht) ?_)
    exact fun _ x hx => ⟨hx.1, hx⟩

/-- **A downgrade is atomic, whichever of its calls fail and whenever the machine loses power.** The source is a
log of version 4 or 5 that reads, and what is at the destination is on the disk. A crash may lose renames and
removals that no directory sync has followed, and what was not synced of a file. After a crash at any instant the
destination holds what it held before, or the bytes that a run without failures leaves there. A run that reported
success has left these bytes there, and no crash takes them away. -/
theorem downgrade_crash_atomic {keeps : ℕ → File → Bytes → Prop} (hlinks : ∀ p j, ¬ lossy (.link p j))
    (hkeeps : DurableAfterSync keeps) (hlock : dst ≠ src ++ lockFileSuffix) (hart : dst ∉ artifacts src)
    (hpending : d.pending = []) (hsynced : ∀ j, d.dir dst = some j → (d.files j).synced = (d.files j).content)
    (faults : Disk.Faults) :
    (∀ t d', Prog.Visits Disk.answerFaulty (downgrade src dst options) (d, faults) t →
      Disk.PowerLoss lossy keeps t.1 d' →
      d'.bytesAt dst = d.bytesAt dst ∨ ∃ b, PlainRunLeaves d src dst options b ∧ d'.bytesAt dst = some b) ∧
    ((Disk.execFaulty (downgrade src dst options) d faults).1 = .ok () → ∃ b, PlainRunLeaves d src dst options b ∧
      (Disk.execFaulty (downgrade src dst options) d faults).2.1.bytesAt dst = some b ∧
      ∀ d', Disk.PowerLoss lossy keeps (Disk.execFaulty (downgrade src dst options) d faults).2.1 d' →
        d'.bytesAt dst = some b) := by
  have hI : Intact lossy dst d d := intact_of_settled hs hpending hsynced
  have hall : (downgrade src dst options).Always (Disk.Yields Set.univ)
      (OldOrNew lossy dst d (PlainRunLeaves d src dst options)) d
      (Ends lossy dst d (PlainRunLeaves d src dst options)) :=
    always_downgrade hs hmain hr hv hro hlinks hlock hart hI
  constructor
  · intro t d' hvisits hloss
    have hinstant := hall.visits (g := Prod.fst) (x := (d, faults)) Disk.yields_faulty hvisits
    exact hinstant.powerLoss hkeeps hloss
  · intro hok
    have hends := hall.run (g := Prod.fst) (x := (d, faults)) Disk.yields_faulty
    obtain ⟨j, b, hb, hswapped, hlast⟩ := hends.2 hok
    refine ⟨b, hb, ?_, fun d' hloss => bytesAt_powerLoss hkeeps hloss (hlast _ hloss.names) hswapped.new⟩
    rw [Disk.bytesAt]
    refine (congrArg _ hswapped.current).trans ?_
    rw [Option.map_some]
    exact congrArg (some ∘ File.content) hswapped.new

end

/-- A log of a key that was written twice, and another file at the destination. -/
def twiceBeside : Disk := logDiskWith (currentHeader ++ concat [shortRec 1 2, shortRec 1 3]) "old" [9]

/-- The renaming of the output is lost. -/
def renameLost (o : DirOp) : Bool := o == .rename "old.downgrade.tmp" "old"

/-- The directory is not synced after the output is renamed, because that call fails. The running program sees the
output, and a crash that loses the renaming brings the old file back. Where no call fails, no crash does. -/
theorem downgrade_crash_atomic_lost : ∃ t d' b,
    Prog.Visits Disk.answerFaulty (downgrade "db" "old" ⟨4, true⟩) (twiceBeside, List.replicate 30 none ++ [some 0]) t ∧
    Disk.PowerLoss Moves KeepsSynced t.1 d' ∧ t.1.bytesAt "old" = some b ∧ b ≠ [9] ∧ d'.bytesAt "old" = some [9] ∧
    (d'.bytesAt "old" = twiceBeside.bytesAt "old" ∨
      ∃ b, PlainRunLeaves twiceBeside "db" "old" ⟨4, true⟩ b ∧ d'.bytesAt "old" = some b) ∧
    ∃ b, PlainRunLeaves twiceBeside "db" "old" ⟨4, true⟩ b ∧
      ∀ d', Disk.PowerLoss Moves KeepsSynced (Disk.execFaulty (downgrade "db" "old" ⟨4, true⟩) twiceBeside []).2.1 d' →
        d'.bytesAt "old" = some b := by
  have hreads : Reads (twiceBeside.files 0).content ⟨logVersion, 0, 0⟩ [shortRec 1 2, shortRec 1 3] := by
    have hcut : Cut logVersion (logHeaderSize + (concat [shortRec 1 2, shortRec 1 3]).length) [] := .inl rfl
    have h := reads_current hcut
    rw [List.append_nil] at h
    exact h
  have hsynced : ∀ j, twiceBeside.dir "old" = some j →
      (twiceBeside.files j).synced = (twiceBeside.files j).content := by
    rintro j hj
    obtain rfl : 1 = j := Option.some.inj hj
    rfl
  have hsound : twiceBeside.Sound := logDiskWith_sound _ "old" [9]
  have hmain : recoveredMain twiceBeside.dir "db" = some 0 := rfl
  have hlinks : ∀ p j, ¬ Moves (.link p j) := fun _ _ => id
  have hlock : "old" ≠ "db" ++ lockFileSuffix := by decide
  have hart : "old" ∉ artifacts "db" := by decide
  have hvisits := Prog.visits_instant (h := Disk.answerFaulty) 31 (downgrade "db" "old" ⟨4, true⟩)
    (twiceBeside, List.replicate 30 none ++ [some 0])
  obtain ⟨t, ht⟩ : ∃ t, t = Prog.instant Disk.answerFaulty 31 (downgrade "db" "old" ⟨4, true⟩)
    (twiceBeside, List.replicate 30 none ++ [some 0]) := ⟨_, rfl⟩
  rw [← ht] at hvisits
  have hloss : Disk.PowerLoss Moves KeepsSynced t.1 (t.1.crashed renameLost) := by
    refine Disk.powerLoss_crashed (fun o _ ho => ?_) fun _ => id
    rw [eq_of_beq ho]
    trivial
  have hseen : t.1.bytesAt "old" = some (v4Header ++ concat [shortRec 1 3]) := by
    rw [ht]
    decide +kernel
  have hback : (t.1.crashed renameLost).bytesAt "old" = some [9] := by
    rw [ht]
    decide +kernel
  have hok : (Disk.execFaulty (downgrade "db" "old" ⟨4, true⟩) twiceBeside []).1 = .ok () := by
    decide +kernel
  have hold := (downgrade_crash_atomic hsound hmain hreads (by decide) rfl hlinks keepsSynced_durable hlock hart rfl
    hsynced _).1 t _ hvisits hloss
  obtain ⟨b, hb, -, hkept⟩ := (downgrade_crash_atomic hsound hmain hreads (by decide) rfl hlinks keepsSynced_durable
    hlock hart rfl hsynced []).2 hok
  exact ⟨t, _, _, hvisits, hloss, hseen, by decide, hback, hold, b, hb, hkept⟩

end AppendStore
