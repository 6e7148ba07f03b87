import AppendStore.Store.CompactionCrash
import AppendStore.Store.Outcomes

/-! # An `Open` that a crash interrupts

`Recoverable`: whatever a crash leaves of this disk, recovery finds a log, and its bytes are as wanted. An `Open` of
a log that is on the disk keeps the live contents recoverable at every instant (`guarded_openStore`): taking the lock,
recovering, cutting off an incomplete record, copying an old log, and migrating it, in place or by a compaction. The
store it returns stands on a log that is on the disk again.

What a crash leaves of a file is a parameter, `keeps`. Only two things are asked of it: what was synced is there after
it (`DurableAfterSync`), and replacing the header of a log of version 4 is atomic (`HeaderAtomic`).
-/

namespace AppendStore
open Library
set_option autoImplicit false

/-! ## What a crash may do to a log -/

/-- What is in a file is sure to be there after a crash once it is synced. -/
def DurableAfterSync (keeps : ℕ → File → Bytes → Prop) : Prop :=
  ∀ i b b', keeps i ⟨b, b⟩ b' → b' = b

/-- A crash while a header is replaced leaves the new header or the old one. -/
def HeaderAtomic (keeps : ℕ → File → Bytes → Prop) (header rest : Bytes) : Prop :=
  ∀ i b, keeps i ⟨currentHeader ++ rest, header ++ rest⟩ b → b = currentHeader ++ rest ∨ b = header ++ rest

/-- The bytes of a log with the given live contents. -/
def Holds (keeps : ℕ → File → Bytes → Prop) (c : List (Bytes × (Bytes × Attributes))) (b : Bytes) : Prop :=
  ∃ (version : ℕ) (h : Header) (recs : List (Rec version)), Reads b h recs ∧ h.readOnlyFeatures = 0 ∧
    contents recs = c ∧ (version = 4 → HeaderAtomic keeps (b.take logHeaderSize) (concat recs))

/-- Whatever a crash leaves, there is a log whose bytes are among the given ones. -/
structure Recoverable (lossy : DirOp → Prop) (keeps : ℕ → File → Bytes → Prop) (path : Path) (good : Bytes → Prop)
    (d : Disk) : Prop where
  sound : d.CrashSound lossy
  log : ∀ n, d.Leaves lossy n → ∃ i, recoveredMain n path = some i ∧ ∀ b, keeps i (d.files i) b → good b

/-- The file in which recovery finds the log, whatever a crash leaves of the directory. -/
structure Finds (lossy : DirOp → Prop) (path : Path) (i : ℕ) (f : File) (d : Disk) : Prop where
  sound : d.CrashSound lossy
  steady : Steady lossy path d
  main : recoveredMain d.dir path = some i
  file : d.files i = f

/-- Such a log is on the disk, and no process has it open. -/
structure Found (lossy : DirOp → Prop) (path : Path) (good : Bytes → Prop) (d : Disk) : Prop where
  free : LockFree d path
  log : ∃ i b, Finds lossy path i ⟨b, b⟩ d ∧ good b

section
variable {lossy : DirOp → Prop} {keeps : ℕ → File → Bytes → Prop} {path : Path}
  {c : List (Bytes × (Bytes × Attributes))} {good : Bytes → Prop} {d t : Disk} {s : Store} {i : ℕ} {b : Bytes}

theorem holds_torn {recs : List (Rec logVersion)} {tail : Bytes} (hc : contents recs = c)
    (hcut : Cut logVersion (logHeaderSize + (concat recs).length) tail) :
    Holds keeps c (currentHeader ++ concat recs ++ tail) :=
  ⟨logVersion, ⟨logVersion, 0, 0⟩, recs, reads_current hcut, rfl, hc, fun h4 => absurd h4 (by decide)⟩

theorem holds_current {recs : List (Rec logVersion)} (hc : contents recs = c) :
    Holds keeps c (currentHeader ++ concat recs) := by
  have h : Holds keeps c (currentHeader ++ concat recs ++ []) := holds_torn hc (.inl rfl)
  rwa [List.append_nil] at h

/-- Cutting off an incomplete record does not change what a log holds. -/
theorem Holds.trimmed {version : ℕ} {h : Header} {recs : List (Rec version)} (hr : Reads b h recs)
    (hro : h.readOnlyFeatures = 0) (hc : contents recs = c)
    (hatomic : version = 4 → HeaderAtomic keeps (b.take logHeaderSize) (concat recs)) :
    Holds keeps c (b.take logHeaderSize ++ concat recs) := by
  have hlen := hr.headerLength
  have htake : (b.take logHeaderSize ++ concat recs).take logHeaderSize = b.take logHeaderSize :=
    List.take_left' hlen
  refine ⟨version, h, recs, ?_, hro, hc, by rwa [htake]⟩
  have hreads : Reads (b.take logHeaderSize ++ concat recs ++ []) h recs :=
    reads_of_header hlen (readHeaderOf_ok hr.headerOk).2 hr.versionEq (.inl rfl)
  rwa [List.append_nil] at hreads

theorem Finds.recoverable {f : File} (h : Finds lossy path i f d) (hkeeps : ∀ b, keeps i f b → good b) :
    Recoverable lossy keeps path good d := by
  refine ⟨h.sound, fun n hn => ⟨i, (h.steady.recovers hn).trans h.main, ?_⟩⟩
  rw [h.file]
  exact hkeeps

theorem Finds.durable (h : Finds lossy path i ⟨b, b⟩ d) (hdur : DurableAfterSync keeps) (hb : good b) :
    Recoverable lossy keeps path good d :=
  h.recoverable fun b' hb' => by rwa [hdur i b b' hb']

theorem Finds.bounded {f : File} (h : Finds lossy path i f d) : i < d.next := recoveredMain_bounded h.sound.sound h.main

/-- Where the names of the store and its log are as before. -/
theorem Finds.of_own {f : File} (h : Finds lossy path i f d) (hsound : t.CrashSound lossy)
    (hsteady : Steady lossy path t ∧ ∀ q ∈ path :: artifacts path, t.dir q = d.dir q) (hfile : t.files i = d.files i) :
    Finds lossy path i f t := by
  refine ⟨hsound, hsteady.1, ?_, hfile.trans h.file⟩
  rw [recoveredMain_congr (hsteady.2 path List.mem_cons_self) fun q hq => hsteady.2 q (List.mem_cons_of_mem _ hq),
    h.main]

/-- Where only the log is written to. -/
theorem Finds.touched {f f' : File} (h : Finds lossy path i f d) (ht : Touched d t i) (hfile : t.files i = f') :
    Finds lossy path i f' t :=
  ⟨h.sound.of_same ht.names ht.pending ht.next, h.steady.of_same ht.names ht.pending, by rw [ht.dir, h.main], hfile⟩

/-- A program that binds no name of the store and leaves the log alone, at any instant. -/
theorem Finds.visits {α : Type} {p : FileProg α} {Q : α → Prop} {f : File} (h : Finds lossy path i f d)
    (hp : p.Each (fun o => (∀ q ∈ path :: artifacts path, ¬ o.Binds q) ∧ ¬ o.Rewrites i) Q)
    (hv : Prog.Visits Disk.answer p d t) : Finds lossy path i f t := by
  refine hp.visits (fun o u ho hu => ?_) h hv
  have hone : Prog.Visits Disk.answer (Prog.perform o) u (Disk.answer o u).2 := Prog.visits_run _ u
  exact hu.of_own (hu.sound.visits hone) (hu.steady.visits (Prog.each_perform ho.1) hone)
    (Disk.untouched_answer ho.2 hu.bounded).file

/-- What a crash leaves of a recoverable disk is a log that is on the disk. -/
theorem Recoverable.powerLoss {d' : Disk} (h : Recoverable lossy keeps path good d)
    (hloss : Disk.PowerLoss lossy keeps d d') : Found lossy path good d' := by
  obtain ⟨i, hmain, hlog⟩ := h.log _ hloss.names
  refine ⟨fun j _ => by rw [hloss.locked], i, (d'.files i).content, ⟨h.sound.powerLoss hloss,
    steady_of_settled hloss.pending, by rw [hloss.dir, hmain], ?_⟩, hlog _ (hloss.content i)⟩
  exact file_synced rfl (hloss.settled i)

/-! ## The copy of an old log -/

theorem calls_fillBackup {P : FileOp → Prop} {inFile out : OsFile} {dst : Path} (hread : P (.readFrom inFile 0))
    (hout : ∀ o : FileOp, o.On out.inode → P o) (hremove : P (.remove (dst ++ migrationBackupTempSuffix)))
    (hrename : P (.rename (dst ++ migrationBackupTempSuffix) dst)) (hsync : P (.syncDir dst)) :
    (Store.fillBackup inFile dst out).Each P fun _ => True := by
  have hcleanUp : ∀ e : Err, (do let _ ← Sys.remove (dst ++ migrationBackupTempSuffix); pure (.error e) :
      FileProg (Except Err Unit)).Each P fun _ => True :=
    fun e => Prog.each_bind (Prog.each_perform hremove) fun _ _ => .ret trivial
  have hcloseUp : ∀ e : Err, (do
      let _ ← Sys.close out
      let _ ← Sys.remove (dst ++ migrationBackupTempSuffix)
      pure (.error e) : FileProg (Except Err Unit)).Each P fun _ => True :=
    fun e => Prog.each_bind (Prog.each_perform (hout (.close out) rfl)) fun _ _ => hcleanUp e
  unfold Store.fillBackup
  refine Prog.each_orElse (Q := fun _ => True) ?_ (fun e _ => hcloseUp (.os e)) fun _ _ => ?_
  · refine Prog.each_orElse (Prog.each_perform hread) (fun _ _ => .ret trivial) fun b _ => ?_
    exact Prog.each_perform (hout (.writeAt out 0 b) rfl)
  refine Prog.each_orElse (Prog.each_perform (hout (.fsync out) rfl)) (fun e _ => hcloseUp (.os e)) fun _ _ => ?_
  refine Prog.each_orElse (Prog.each_perform (hout (.close out) rfl)) (fun e _ => hcleanUp (.os e)) fun _ _ => ?_
  refine Prog.each_orElse (Prog.each_perform hrename) (fun e _ => hcleanUp (.os e)) fun _ _ => ?_
  exact calls_syncParentDirectory hsync

theorem calls_copyLogFile {P : FileOp → Prop} {src dst : Path} (hP : ∀ (i : ℕ) (o : FileOp), o.On i → P o)
    (hstat : P (.stat dst)) (hsrc : P (.openFile src false false))
    (htemp : P (.openFile (dst ++ migrationBackupTempSuffix) true true))
    (hremove : P (.remove (dst ++ migrationBackupTempSuffix)))
    (hrename : P (.rename (dst ++ migrationBackupTempSuffix) dst)) (hsync : P (.syncDir dst)) :
    (Store.copyLogFile src dst).Each P fun _ => True := by
  refine Prog.each_orElse (Prog.each_perform hstat) (fun e _ => ?_) fun _ _ => .ret trivial
  split
  · refine Prog.each_orElse (Prog.each_perform hsrc) (fun _ _ => .ret trivial) fun inFile _ => ?_
    refine Prog.each_bind (Q := fun _ => True) ?_ fun _ _ =>
      Prog.each_bind (Prog.each_perform (hP _ (.close inFile) rfl)) fun _ _ => .ret trivial
    rw [Store.copyBackup]
    refine Prog.each_orElse (Prog.each_perform htemp) (fun _ _ => .ret trivial) fun out _ => ?_
    exact calls_fillBackup (hP _ (.readFrom inFile 0) rfl) (fun o ho => hP _ o ho) hremove hrename hsync
  · exact .ret trivial

theorem backUp_eq (s : Store) (path : Path) (v : ℕ) : s.backUp path (Store.migrationInfo path s.options v).backup =
    if s.options.noMigrationBackup then pure (.ok ()) else s.backUp path (Store.migrationBackup path v) := by
  by_cases hno : s.options.noMigrationBackup = true
  · unfold Store.backUp
    rw [if_pos hno, if_pos hno]
  · rw [if_neg hno, show (Store.migrationInfo path s.options v).backup = Store.migrationBackup path v from if_neg hno]

/-- The copy goes to names that are not the store's own, -/
theorem Steady.backUp (h : Steady lossy path d) (s : Store) (v : ℕ)
    (hv : Prog.Visits Disk.answer (s.backUp path (Store.migrationInfo path s.options v).backup) d t) :
    Steady lossy path t ∧ ∀ q ∈ path :: artifacts path, t.dir q = d.dir q := by
  have hne : ∀ q ∈ path :: artifacts path, ∀ e : String, q ≠ Store.migrationBackup path v ++ e := by
    intro q hq e
    obtain ⟨suffix, hsuffix, rfl⟩ : ∃ suffix, suffix ∈ ownSuffixes ∧ q = path ++ suffix := by
      rcases List.mem_cons.mp hq with rfl | hart
      · exact ⟨"", by decide, String.append_empty.symm⟩
      · obtain ⟨suffix, hsuffix, rfl⟩ := mem_artifacts.mp hart
        refine ⟨suffix, ?_, rfl⟩
        clear hq hart
        revert suffix
        decide
    refine ne_migrationBackup path v e ?_
    clear hq
    revert suffix
    decide
  have hdst : ∀ q ∈ path :: artifacts path, Store.migrationBackup path v ≠ q := fun q hq heq => by
    have h := hne q hq ""
    rw [String.append_empty] at h
    exact h heq.symm
  refine h.visits (Q := fun _ => True) ?_ hv
  rw [backUp_eq]
  unfold Store.backUp
  split
  · exact .ret trivial
  · refine Prog.each_orElse (calls_copyLogFile (fun _ _ ho _ _ => not_binds_of_on ho) (fun _ _ => id) ?_ ?_ ?_ ?_
      (fun _ _ => id)) (fun _ _ => .ret trivial) fun _ _ => .ret trivial
    · rintro q - ⟨hfalse, -⟩
      cases hfalse
    · rintro q hq ⟨-, heq⟩
      exact hne q hq _ heq.symm
    · intro q hq heq
      exact hne q hq _ heq.symm
    · rintro q hq (heq | heq)
      · exact hne q hq _ heq.symm
      · exact hdst q hq heq

/-- and to a file of its own. -/
theorem untouched_backUp (hs : d.Sound) (hsrc : d.dir path = some i) (s : Store) (v : ℕ)
    (hv : Prog.Visits Disk.answer (s.backUp path (Store.migrationInfo path s.options v).backup) d t) :
    Disk.Untouched i d t := by
  rw [backUp_eq] at hv
  have hlt := hs.bounded _ _ hsrc
  have hself := Disk.untouched_refl i d
  have hne : path ≠ Store.migrationBackup path v ++ migrationBackupTempSuffix := by
    have h := ne_migrationBackup path v migrationBackupTempSuffix (show ("" : String).toList[1]? ≠ some 'v' by decide)
    rwa [String.append_empty] at h
  generalize Store.migrationBackup path v = dst at hv hne
  have hcopy : ∀ u, Prog.Visits Disk.answer (Store.copyBackup ⟨i, true⟩ dst) d u → Disk.Untouched i d u := by
    intro u hu
    rw [Store.copyBackup] at hu
    -- the temporary file is another one
    obtain ⟨j, d1, hopen, hij, h1⟩ : ∃ j d1, Disk.exec (Sys.openFile (dst ++ migrationBackupTempSuffix) true true) d =
        (.ok ⟨j, true⟩, d1) ∧ i ≠ j ∧ Disk.Untouched i d d1 := by
      cases htmp : d.dir (dst ++ migrationBackupTempSuffix) with
      | some j =>
        have hij : i ≠ j := fun heq => hne (hs.distinct _ _ _ hsrc (heq ▸ htmp))
        exact ⟨j, _, Disk.exec_open_trunc htmp true, hij, Disk.untouched_of_touched (touched_setContent d j []) hij⟩
      | none => exact ⟨d.next, _, Disk.exec_open_none htmp true, Nat.ne_of_lt hlt, Disk.untouched_create hlt _⟩
    rcases Prog.visits_orElse_ok hopen hu with hu | hu
    · rcases Prog.visits_perform hu with rfl | rfl
      · exact hself
      · exact (congrArg Prod.snd hopen : (Disk.answer _ d).2 = d1) ▸ h1
    · have hcalls : (Store.fillBackup ⟨i, true⟩ dst ⟨j, true⟩).Each (fun o => ¬ o.Rewrites i) fun _ => True :=
        calls_fillBackup id (fun _ ho => not_rewrites_of_on ho hij) id id id
      exact h1.trans (Disk.untouched_visits hcalls (Nat.lt_of_lt_of_le hlt h1.next) hu)
  have hcopied : ∀ u, Prog.Visits Disk.answer (Store.copyLogFile path dst) d u → Disk.Untouched i d u := by
    intro u hu
    have hstat : ∀ w, Prog.Visits Disk.answer (Sys.stat dst) d w → w = d :=
      fun w hw => Disk.visits_observes (Prog.each_perform (o := FileOp.stat dst) trivial) hw
    rcases Prog.visits_orElse hu with hu | ⟨a, d1, hrun, hu⟩ | ⟨e, d1, hrun, hopened⟩
    · exact hstat u hu ▸ hself
    · rw [Prog.visits_pure hu, hstat d1 (Prog.visits_end hrun)]
      exact hself
    · obtain rfl := hstat d1 (Prog.visits_end hrun)
      split at hopened
      · have hopen := Disk.exec_open_some hsrc false
        rcases Prog.visits_orElse_ok hopen hopened with hu | hu
        · rcases Prog.visits_perform hu with rfl | rfl
          · exact hself
          · exact (congrArg Prod.snd hopen : (Disk.answer _ d1).2 = d1) ▸ hself
        · rcases Prog.visits_bind hu with hu | hu
          · exact hcopy u hu
          · have hlast := hcopy _ (Prog.visits_run (Store.copyBackup ⟨i, true⟩ dst) d1)
            refine hlast.trans ?_
            rw [Disk.visits_observes (Q := fun _ => True) (Prog.each_bind (Prog.each_perform
              (o := FileOp.close _) trivial) fun _ _ => .ret trivial) hu]
            exact Disk.untouched_refl i _
      · rw [Prog.visits_pure hopened]
        exact hself
  unfold Store.backUp at hv
  split at hv
  · rw [Prog.visits_pure hv]
    exact hself
  · rcases Prog.visits_bind hv with hv | hv
    · exact hcopied t hv
    · refine (hcopied _ (Prog.visits_run (Store.copyLogFile path dst) d)).trans ?_
      split at hv <;> rw [Prog.visits_pure hv] <;> exact Disk.untouched_refl i _

theorem Finds.backUp {f : File} (h : Finds lossy path i f d) (hmain : d.dir path = some i) (s : Store) (v : ℕ)
    (hv : Prog.Visits Disk.answer (s.backUp path (Store.migrationInfo path s.options v).backup) d t) :
    Finds lossy path i f t :=
  h.of_own (h.sound.visits hv) (h.steady.backUp s v hv) (untouched_backUp h.sound.sound hmain s v hv).file

/-! ## The new header -/

theorem visits_setVersion {l : AppendLog} (hopen : l.file.isOpen = true) (version : ℕ) {header : Bytes}
    (hheader : Header.bytes ⟨version, l.incompatibleFeatures, l.readOnlyFeatures⟩ = header)
    (hv : Prog.Visits Disk.answer (l.setVersion version) d t) :
    t = d ∨ t = d.setContent l.file.inode (writeAt (d.files l.file.inode).content 0 header) ∨
      t = (d.setContent l.file.inode (writeAt (d.files l.file.inode).content 0 header)).syncFile l.file.inode := by
  have hwrite := Disk.exec_writeAt hopen d 0 (Header.bytes ⟨version, l.incompatibleFeatures, l.readOnlyFeatures⟩)
  have hheaderWritten := exec_writeHeader (l := { l with version := version }) hopen d
  rw [hheader] at hwrite
  dsimp only at hheaderWritten
  rw [hheader] at hheaderWritten
  unfold AppendLog.setVersion at hv
  dsimp only at hv
  rcases Prog.visits_orElse_ok hheaderWritten hv with hv | hv
  · unfold AppendLog.writeHeader at hv
    dsimp only at hv
    rw [hheader] at hv
    rcases Prog.visits_orElse_ok hwrite hv with hv | hv
    · rcases Prog.visits_perform hv with rfl | rfl
      · exact .inl rfl
      · exact .inr (.inl (congrArg Prod.snd hwrite))
    · exact .inr (.inl (Prog.visits_pure hv))
  · have hsync := Disk.exec_fsync hopen (d.setContent l.file.inode (writeAt (d.files l.file.inode).content 0 header))
    rcases Prog.visits_bind_eq (Disk.exec_orElse_ok hsync) hv with hv | hv
    · rcases Prog.visits_orElse_ok hsync hv with hv | hv
      · rcases Prog.visits_perform hv with rfl | rfl
        · exact .inr (.inl rfl)
        · exact .inr (.inr (congrArg Prod.snd hsync))
      · exact .inr (.inr (Prog.visits_pure hv))
    · exact .inr (.inr (Prog.visits_pure hv))

/-! ## The compaction -/

section
variable {version : ℕ} {header : Bytes} {recs : List (Rec version)}

theorem Finds.compaction {f : File} (h : Finds lossy path s.log.file.inode f d) (hb : Backed d s path header recs)
    (hdur : DurableAfterSync keeps) (hold : ∀ b, keeps s.log.file.inode f b → good b)
    (hnew : good (currentHeader ++ concat (compacted recs))) (hv : Prog.Visits Disk.answer s.compact d t) :
    Recoverable lossy keeps path good t := by
  have hc := visits_compaction hb h.steady hv
  refine ⟨h.sound.visits hv, fun n hn => ?_⟩
  rcases hc.left n hn with hmain | ⟨hmain, hfile⟩
  · refine ⟨_, hmain, ?_⟩
    rw [hc.old, h.file]
    exact hold
  · refine ⟨_, hmain, ?_⟩
    rw [hfile]
    intro b hb'
    rwa [hdur _ _ _ hb']

/-- At its end the new log is on the disk. -/
theorem Finds.compacted {f : File} (h : Finds lossy path s.log.file.inode f d) (hb : Backed d s path header recs) :
    ∃ s' d', Disk.exec s.compact d = ((.ok (), s'), d') ∧ Serves d' s' path (compacted recs) ∧
      s'.options = s.options ∧ Finds lossy path s'.log.file.inode
        ⟨currentHeader ++ concat (compacted recs), currentHeader ++ concat (compacted recs)⟩ d' := by
  obtain ⟨s', d', hexec, hserves, hoptions, -, hreplaced⟩ := exec_compact hb
  have hinode : s'.log.file.inode = d.next := by
    have hdir := hserves.dir
    rw [hreplaced.main, Option.some.injEq] at hdir
    exact hdir.symm
  have hmain : recoveredMain d'.dir path = some d.next := by
    rw [recoveredMain, hreplaced.main]
    rfl
  have hvisited := Prog.visits_end hexec
  have hsettled := compact_settled hb
  rw [hexec] at hsettled
  refine ⟨s', d', hexec, hserves, hoptions, h.sound.visits hvisited, steady_of_settled hsettled, ?_, ?_⟩
  · rw [hmain, hinode]
  · rcases (visits_compaction hb h.steady hvisited).left _ (Disk.leaves_dir d') with hold | ⟨-, hfile⟩
    · rw [hmain, Option.some.injEq] at hold
      exact absurd hold (Nat.ne_of_gt h.bounded)
    · rw [hinode, hfile]

/-! ## Migration -/

/-- A log of any version that is on the disk and that a store has open, before its migration. -/
structure Mounted (lossy : DirOp → Prop) (keeps : ℕ → File → Bytes → Prop) (path : Path) (header : Bytes)
    (recs : List (Rec version)) (s : Store) (d : Disk) : Prop where
  backed : Backed d s path header recs
  found : Finds lossy path s.log.file.inode ⟨header ++ concat recs, header ++ concat recs⟩ d
  holds : Holds keeps (contents recs) (header ++ concat recs)
  features : s.log.incompatibleFeatures = 0
  atomic : version = 4 → HeaderAtomic keeps header (concat recs)

/-- A store that serves a log of the current version, all of which is on the disk. -/
def Stands (lossy : DirOp → Prop) (path : Path) (recs : List (Rec logVersion)) (s : Store) (d : Disk) : Prop :=
  Serves d s path recs ∧
    Finds lossy path s.log.file.inode ⟨currentHeader ++ concat recs, currentHeader ++ concat recs⟩ d

variable (hm : Mounted lossy keeps path header recs s d) (hdur : DurableAfterSync keeps)
include hm

/-- The backup leaves the store as it was. -/
theorem Mounted.backUp : ∃ d', Disk.exec (s.backUp path (Store.migrationInfo path s.options s.log.version).backup) d =
    (.ok (), d') ∧ Mounted lossy keeps path header recs s d' := by
  obtain ⟨d', hback, hbacked⟩ := exec_backUp hm.backed
  exact ⟨d', hback, { hm with
    backed := hbacked
    found := hm.found.backUp hm.backed.dir s _ (Prog.visits_end hback) }⟩

omit hm in
theorem Mounted.newHeader {recs : List (Rec 4)} (hm : Mounted lossy keeps path header recs s d) :
    Header.bytes ⟨logVersion, s.log.incompatibleFeatures, s.log.readOnlyFeatures⟩ = currentHeader ∧
      writeAt (d.files s.log.file.inode).content 0 currentHeader = currentHeader ++ concat recs := by
  refine ⟨by rw [hm.features, hm.backed.readOnlyFeatures]; rfl, ?_⟩
  rw [hm.backed.image.content]
  refine writeAt_front header (concat recs) currentHeader ?_
  rw [currentHeader_length, hm.backed.image.headerLength]

include hdur

omit hm in
/-- A new header in place of that of a log of version 4. -/
theorem Mounted.setVersion {recs : List (Rec 4)} (hm : Mounted lossy keeps path header recs s d)
    (hv : Prog.Visits Disk.answer (s.log.setVersion logVersion) d t) :
    Recoverable lossy keeps path (Holds keeps (contents recs)) t := by
  obtain ⟨hheader, hbytes⟩ := hm.newHeader
  have hcurrent : Holds keeps (contents recs) (currentHeader ++ concat recs) := by
    rw [← concat_upgrade (le_refl 4)]
    exact holds_current (contents_upgrade (le_refl 4) recs)
  rcases visits_setVersion hm.backed.image.isOpen logVersion hheader hv with rfl | rfl | rfl
  · exact hm.found.durable hdur hm.holds
  · rw [hbytes]
    have hfile : (d.setContent s.log.file.inode (currentHeader ++ concat recs)).files s.log.file.inode =
        ⟨currentHeader ++ concat recs, header ++ concat recs⟩ := by simp [Disk.setContent, hm.found.file]
    refine (hm.found.touched (touched_setContent d _ _) hfile).recoverable fun b hb => ?_
    rcases hm.atomic rfl _ b hb with rfl | rfl
    · exact hcurrent
    · exact hm.holds
  · rw [hbytes]
    refine (hm.found.touched ((touched_setContent d _ _).trans (touched_syncFile _ _)) ?_).durable hdur hcurrent
    simp [Disk.setContent, Disk.syncFile]

theorem Mounted.visits_migrate (hv : Prog.Visits Disk.answer (s.migrate path) d t) :
    Recoverable lossy keeps path (Holds keeps (contents recs)) t := by
  obtain ⟨d1, hback, hm1⟩ := hm.backUp
  have hhere : Recoverable lossy keeps path (Holds keeps (contents recs)) d1 := hm1.found.durable hdur hm1.holds
  unfold Store.migrate at hv
  rcases Prog.visits_orElse_ok hback hv with hv | hv
  · exact (hm.found.backUp hm.backed.dir s _ hv).durable hdur hm.holds
  cases hask : migrationAnswer path s.options s.log.version with
  | some e =>
    unfold migrationAnswer at hask
    rw [hask] at hv
    rw [Prog.visits_pure hv]
    exact hhere
  | none =>
  unfold migrationAnswer at hask
  rw [hask] at hv
  unfold Store.migrateAnswered Store.migrationInfo at hv
  dsimp only at hv
  by_cases h4 : s.log.version = 4
  · rw [if_pos h4] at hv
    obtain rfl : version = 4 := hm.backed.image.versionEq.symm.trans h4
    have hset := exec_setVersion hm.backed.image.isOpen logVersion d1
    rcases Prog.visits_orElseState_ok hset hv with hv | hv
    · exact hm1.setVersion hdur hv
    · rw [Prog.visits_pure hv]
      exact hm1.setVersion hdur (Prog.visits_end hset)
  · rw [if_neg h4] at hv
    have hold : ∀ b, keeps s.log.file.inode ⟨header ++ concat recs, header ++ concat recs⟩ b →
        Holds keeps (contents recs) b := fun b hb => by rw [hdur _ _ _ hb]; exact hm1.holds
    have hnew : Holds keeps (contents recs) (currentHeader ++ concat (compacted recs)) :=
      holds_current (contents_compacted recs)
    obtain ⟨s', d', hcompact, -⟩ := exec_compact hm1.backed
    rcases Prog.visits_orElseState_ok hcompact hv with hv | hv
    · exact hm1.found.compaction hm1.backed hdur hold hnew hv
    · rw [Prog.visits_pure hv]
      exact hm1.found.compaction hm1.backed hdur hold hnew (Prog.visits_end hcompact)

omit hdur in
/-- At the end of a migration the log is of the current version and on the disk. -/
theorem Mounted.migrate (hlt : version < logVersion) (hask : migrationAnswer path s.options version = none) :
    ∃ s' d', Disk.exec (s.migrate path) d = ((.ok (), s'), d') ∧ Stands lossy path (migrated recs) s' d' ∧
      s'.options = s.options := by
  have hver := hm.backed.image.versionEq
  have hask' : migrationAnswer path s.options s.log.version = none := by rwa [hver]
  obtain ⟨d1, hback, hm1⟩ := hm.backUp
  by_cases h4 : version = 4
  · subst h4
    obtain ⟨l', hset, hfile, hserves⟩ := exec_setVersion_v4 hm1.backed hm1.features
    refine ⟨_, _, exec_migrate_asked hback hask' (fun _ => ⟨l', hset, rfl⟩) (absurd hver), ?_, rfl⟩
    rw [migrated, dif_pos (le_refl 4)]
    refine ⟨hserves, ?_⟩
    rw [concat_upgrade, hfile]
    refine hm1.found.touched ((touched_setContent d1 _ _).trans (touched_syncFile _ _)) ?_
    simp [Disk.setContent, Disk.syncFile]
  · obtain ⟨s', d', hcompact, hserves, hoptions, hfound⟩ := hm1.found.compacted hm1.backed
    have hlt' : version < 5 := hlt
    refine ⟨s', d', exec_migrate_asked hback hask' ?_ fun _ => hcompact, ?_, hoptions⟩
    · rw [hver]
      exact fun heq => absurd heq h4
    · rw [migrated, dif_neg (by omega)]
      exact ⟨hserves, hfound⟩

/-- **The last step of `Open`, interrupted or not.** -/
theorem Mounted.migrateOlder (lock : FileLock) (hle : version ≤ logVersion)
    (hcurrent : version = logVersion → header = currentHeader) :
    Prog.Guarded Disk.answer (Recoverable lossy keeps path (Holds keeps (contents recs)))
      (migrateOlder path lock s) d fun r d' =>
      (∀ s', r = .ok s' → Stands lossy path (migrated recs) s' d' ∧ s'.options = s.options) ∧
      ((version < logVersion → migrationAnswer path s.options version = none) → ∃ s', r = .ok s') := by
  have hver := hm.backed.image.versionEq
  unfold AppendStore.migrateOlder
  rw [hver]
  rcases Nat.lt_or_eq_of_le hle with hlt | rfl
  · rw [if_pos hlt]
    cases hask : migrationAnswer path s.options version with
    | none =>
      obtain ⟨s', d', hexec, hstands, hoptions⟩ := hm.migrate hlt hask
      refine Prog.guarded_orElseState_ok hexec (fun t ht => hm.visits_migrate hdur ht) ?_
      refine Prog.guarded_pure (hm.visits_migrate hdur (Prog.visits_end hexec)) ⟨?_, fun _ => ⟨s', rfl⟩⟩
      rintro _ ⟨⟩
      exact ⟨hstands, hoptions⟩
    | some e =>
      obtain ⟨d1, hback, hm1⟩ := hm.backUp
      have hexec : Disk.exec (s.migrate path) d = ((.error e, s), d1) := by
        unfold Store.migrate
        refine (Disk.exec_orElse_ok hback).trans ?_
        rw [← hver] at hask
        unfold migrationAnswer at hask
        rw [hask]
        rfl
      refine Prog.guarded_orElseState_error hexec (fun t ht => hm.visits_migrate hdur ht) ⟨fun t ht => ?_, ?_, ?_⟩
      · -- the log is closed and the lock given back
        refine (hm1.found.visits (Q := fun _ => True) ?_ ht).durable hdur hm1.holds
        refine Prog.each_bind (Q := fun _ => True) ?_ fun _ _ =>
          Prog.each_bind (Q := fun _ => True) ?_ fun _ _ => .ret trivial
        · exact Prog.each_bind (Q := fun _ => True) (Prog.each_orElse (Prog.each_perform (o := FileOp.close _)
            ⟨fun _ _ => id, id⟩) (fun _ _ => .ret trivial) fun _ _ => .ret trivial) fun _ _ => .ret trivial
        · exact calls_release (fun _ => ⟨fun _ _ => id, id⟩) (fun _ => ⟨fun _ _ => id, id⟩) lock
      · intro s' hs'
        rw [Prog.run_bind, Prog.run_bind] at hs'
        cases hs'
      · intro hnone
        cases hnone hlt
  · rw [if_neg (Nat.lt_irrefl _)]
    refine Prog.guarded_pure (hm.found.durable hdur hm.holds) ⟨?_, fun _ => ⟨s, rfl⟩⟩
    rintro _ ⟨⟩
    obtain rfl := hcurrent rfl
    rw [migrated_current]
    exact ⟨⟨hm.backed, hm.found⟩, rfl⟩

omit hm hdur

/-! ## `Open` as a whole -/

/-- The scan of a log changes the disk at most once, when it cuts off an incomplete record. -/
theorem visits_iterate {σ : Type} {l : AppendLog} {fn : LogRecord → σ → Except Err σ} {x : σ}
    (hopen : l.file.isOpen = true) (hv : Prog.Visits Disk.answer (l.iterate fn x) d t) :
    t = d ∨ t = (Disk.exec (l.iterate fn x) d).2 := by
  have hseek := Disk.exec_seek hopen d logHeaderSize
  have hread := Disk.exec_readFrom hopen d logHeaderSize
  unfold AppendLog.iterate at hv ⊢
  rw [Disk.exec_orElse_ok hseek, Disk.exec_orElse_ok hread]
  rcases Prog.visits_orElse_ok hseek hv with hv | hv
  · exact .inl (Disk.visits_observes (Prog.each_perform (o := FileOp.seek _ _) trivial) hv)
  rcases Prog.visits_orElse_ok hread hv with hv | hv
  · exact .inl (Disk.visits_observes (Prog.each_perform (o := FileOp.readFrom _ _) trivial) hv)
  generalize AppendLog.scan l.version l.writePos fn _ logHeaderSize _ x = scanned at hv ⊢
  obtain ⟨y, ending⟩ := scanned
  cases ending with
  | complete => exact .inl (Prog.visits_pure hv)
  | failed e => exact .inl (Prog.visits_pure hv)
  | torn pos e =>
    simp only [AppendLog.finishScan] at hv ⊢
    by_cases hknown : l.unknownReadOnly = 0
    · rw [if_pos hknown] at hv
      obtain ⟨d1, htruncate⟩ : ∃ d1, Disk.exec (Sys.truncate l.file pos) d = (.ok (), d1) :=
        ⟨_, Disk.onOpen_open hopen d _⟩
      rw [if_pos hknown, Disk.exec_orElse_ok htruncate]
      rcases Prog.visits_orElse_ok htruncate hv with hv | hv
      · exact (Prog.visits_perform hv).imp_right fun heq => heq.trans (congrArg Prod.snd htruncate)
      · exact .inr (Prog.visits_pure hv)
    · rw [if_neg hknown] at hv
      exact .inl (Prog.visits_pure hv)

theorem Finds.lock {f : File} (h : Finds lossy path i f d) (hv : Prog.Visits Disk.answer (acquireFileLock path) d t) :
    Finds lossy path i f t := by
  refine h.visits (calls_acquireFileLock ⟨?_, Bool.false_ne_true⟩ (fun _ => ⟨fun _ _ => id, id⟩)
    fun _ => ⟨fun _ _ => id, id⟩) hv
  rintro q hq ⟨-, rfl⟩
  rcases List.mem_cons.mp hq with heq | hmem
  · exact path_ne_append (by decide) heq.symm
  · exact lock_not_mem_artifacts path hmem

/-- Recovery, at any instant and at its end. -/
theorem Finds.recover {d' : Disk} {f : File} (h : Finds lossy path i f d) (hgood : ∀ b, keeps i f b → good b)
    (hexec : Disk.exec (recoverCompactionArtifacts path) d = (.ok (), d')) (hmain : d'.dir path = some i) :
    (∀ t, Prog.Visits Disk.answer (recoverCompactionArtifacts path) d t → Recoverable lossy keeps path good t) ∧
      Finds lossy path i f d' := by
  have hrecovering := fun t ht => visits_recover (t := t) h.steady h.main ht
  refine ⟨fun t ht => ⟨h.sound.visits ht, fun n hn => ⟨i, (hrecovering t ht).2 n hn, ?_⟩⟩,
    h.sound.visits (Prog.visits_end hexec), recover_steady h.steady hexec, ?_, ?_⟩
  · rw [(hrecovering t ht).1.files, h.file]
    exact hgood
  · rw [recoveredMain, hmain]
    rfl
  · rw [(hrecovering d' (Prog.visits_end hexec)).1.files, h.file]

/-- The scan of `Open` changes the disk at its end only. -/
theorem visits_recoverStore {s : Store} {r : Except Err Unit × Store} {d' : Disk} (hopen : s.log.file.isOpen = true)
    (hscan : Disk.exec s.recover d = (r, d')) (hv : Prog.Visits Disk.answer s.recover d t) : t = d ∨ t = d' := by
  unfold Store.recover at hv hscan
  rw [Disk.exec_bind] at hscan
  rcases Prog.visits_bind hv with hv | hv
  · exact (visits_iterate hopen hv).imp_right fun heq => heq.trans (congrArg Prod.snd hscan)
  · exact .inr ((Prog.visits_pure hv).trans (congrArg Prod.snd hscan))

/-- **`Open` of a log that is on the disk, interrupted or not.** Whatever a crash leaves at any instant, there is a
log with the same live contents, and a store that `Open` returns stands on such a log. -/
theorem guarded_openStore {options : Options} (hacc : options.Accepted path) (hdur : DurableAfterSync keeps)
    (h : Found lossy path (Holds keeps c) d) :
    Prog.Guarded Disk.answer (Recoverable lossy keeps path (Holds keeps c)) (openStore path options) d fun r d' =>
      (∀ s', r = .ok s' →
        ∃ recs, Stands lossy path recs s' d' ∧ contents recs = c ∧ s'.options = options.withDefaults) ∧
      ((∀ v < logVersion, migrationAnswer path options.withDefaults v = none) → ∃ s', r = .ok s') := by
  obtain ⟨i, b, hfinds, hb⟩ := h.log
  obtain ⟨version, hd, recs, hr, hro, rfl, hatomic⟩ := id hb
  obtain ⟨k, d1, d2, hlock, hrecover, hready, -⟩ := exec_lockAndRecover hfinds.sound.sound h.free
  have hset := hready.settled hfinds.main
  have hf1 := hfinds.lock (Prog.visits_end hlock)
  have hgood : ∀ b', keeps i ⟨b, b⟩ b' → Holds keeps (contents recs) b' := fun b' hb' => by rwa [hdur i b b' hb']
  obtain ⟨hinstants, hf2⟩ := hf1.recover hgood hrecover hset.dir
  have hr2 : Reads (d2.files i).content hd recs := by rwa [hf2.file]
  have hne : (d2.files i).content ≠ [] := by
    rw [← List.length_pos_iff]
    exact Nat.lt_of_lt_of_le (by decide) (readHeaderOf_ok hr2.headerOk).1
  obtain ⟨l, hopen, ho⟩ := exec_openAppendLogFile_ok hset.dir hne hr2.headerOk
  obtain ⟨s1, d3, ⟨hscan, -⟩, ⟨htrim, htouched⟩, hbacked, hoptions, -, hfile, hinc⟩ :=
    exec_recoverOpened options.withDefaults hset ho hr2 hro
  rw [hf2.file] at htrim hbacked
  -- the log without an incomplete record
  have hfile3 : d3.files i = ⟨b.take logHeaderSize ++ concat recs, b.take logHeaderSize ++ concat recs⟩ := by
    refine file_synced htrim.content ?_
    rw [htrim.durable (by rw [hf2.file]), htrim.content]
  have hm : Mounted lossy keeps path (b.take logHeaderSize) recs s1 d3 := by
    refine ⟨hbacked, ?_, Holds.trimmed hr hro rfl hatomic, by rw [hinc]; exact hr.known.2.2.1, hatomic⟩
    rw [hfile]
    exact hf2.touched htouched hfile3
  have hopenLog : Disk.exec (openAppendLog path) d1 = (.ok l, d2) := by
    unfold openAppendLog
    rw [Disk.exec_andThen_ok hrecover, hopen]
  have hhere2 : Recoverable lossy keeps path (Holds keeps (contents recs)) d2 := hf2.durable hdur hb
  rw [openStore_eq hacc]
  refine Prog.guarded_orElse_ok hlock (fun t ht => (hfinds.lock ht).durable hdur hb) ?_
  refine Prog.guarded_orElse_ok hopenLog (fun t ht => ?_) ?_
  · unfold openAppendLog at ht
    rcases Prog.visits_orElse_ok hrecover ht with ht | ht
    · exact hinstants t ht
    · exact visits_openAppendLogFile hset.dir hne ht ▸ hhere2
  unfold recoverOpened recoverWith
  refine Prog.guarded_orElseState_ok hscan (fun t ht => ?_) ?_
  · have hopened : (newStore options.withDefaults ⟨some ⟨k, true⟩⟩ l).log.file.isOpen = true := by
      rw [show (newStore options.withDefaults ⟨some ⟨k, true⟩⟩ l).log = l from rfl, ho.file]
    rcases visits_recoverStore hopened hscan ht with rfl | rfl
    · exact hhere2
    · exact hm.found.durable hdur hm.holds
  have hlast := hm.migrateOlder hdur ⟨some ⟨k, true⟩⟩ hr.known.2.1 fun hv => by subst hv; exact hr.current hro
  refine ⟨hlast.1, fun s' hs' => ?_, fun hask => hlast.2.2 fun hlt => by rw [hoptions]; exact hask version hlt⟩
  obtain ⟨hstands, hoptions'⟩ := hlast.2.1 s' hs'
  exact ⟨migrated recs, hstands, contents_migrated recs, hoptions'.trans hoptions⟩

end

end

end AppendStore
