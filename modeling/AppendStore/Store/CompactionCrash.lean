import AppendStore.Log.Interruption
import AppendStore.Store.Calls

/-! # A compaction that a crash interrupts

Up to the first directory sync `Compact` does not bind the name of the log, and it never writes to the old
log. The new log is synced before it is renamed, and this renaming is durable before the old log is touched. So
whatever part of the later renames and of the removal a crash leaves, recovery finds the old log or the complete
new one (`visits_compaction`).
-/

namespace AppendStore
open Library
set_option autoImplicit false

theorem file_synced {f : File} {b : Bytes} (hcontent : f.content = b) (hsynced : f.synced = f.content) :
    f = ⟨b, b⟩ := by
  obtain ⟨content, synced⟩ := f
  subst hcontent
  rw [File.mk.injEq]
  exact ⟨rfl, hsynced⟩

section
variable {version : ℕ} {lossy : DirOp → Prop} {d t : Disk} {s : Store} {path : Path} {header : Bytes}
  {recs : List (Rec version)} {i j : ℕ}

/-! ## The preparation -/

theorem Backed.noCompaction (h : Backed d s path header recs) : ∀ q ∈ compactionNames path, d.dir q = none := by
  intro q hq
  refine h.noArtifacts q ?_
  simp only [compactionNames, artifacts, List.mem_cons, List.not_mem_nil, or_false] at hq ⊢
  tauto

/-- Creating the new log leaves the old one alone. -/
theorem untouched_createAppendLogMode {q : Path} (hq : d.dir q = none) (hi : i < d.next)
    (hv : Prog.Visits Disk.answer (createAppendLogMode q) d t) : Disk.Untouched i d t := by
  have hcreate := Disk.untouched_create hi q
  have hnew : ∀ o : FileOp, o.On (OsFile.mk d.next true).inode → ¬ o.Rewrites i :=
    fun o ho => not_rewrites_of_on ho (Nat.ne_of_lt hi)
  have hopen := Disk.exec_open_none hq true
  rcases Prog.visits_orElse_ok hopen hv with hv | hv
  · rcases Prog.visits_perform hv with rfl | rfl
    · exact Disk.untouched_refl i _
    · rw [show (Disk.answer (.openFile q true true) d).2 = d.create q from congrArg Prod.snd hopen]
      exact hcreate
  · exact hcreate.trans (Disk.untouched_visits (calls_startNew hnew q) (Nat.lt_of_lt_of_le hi hcreate.next) hv)

/-- The preparation leaves the old log alone, -/
theorem untouched_prepareCompaction (hpath : s.log.path = path) (hnone : ∀ q ∈ compactionNames path, d.dir q = none)
    (hmain : d.dir path = some i) (hlt : i < d.next) (hv : Prog.Visits Disk.answer s.prepareCompaction d t) :
    Disk.Untouched i d t := by
  have htemp : d.dir (path ++ compactionTempSuffix) = none := hnone _ (by simp [compactionNames])
  rw [Store.prepareCompaction_eq, hpath] at hv
  rcases Prog.visits_orElse_ok (exec_removeAllIfExist_none hnone) hv with hv | hv
  · exact Disk.untouched_visits (calls_removeAllIfExist fun _ _ => id) hlt hv
  rcases Prog.visits_orElse_ok (Disk.exec_stat_some hmain) hv with hv | hv
  · rw [Disk.visits_observes (Prog.each_perform (o := FileOp.stat path) trivial) hv]
    exact Disk.untouched_refl _ _
  obtain ⟨newLog, hcreate, hnew⟩ := exec_createAppendLogMode htemp
  have hfirst := untouched_createAppendLogMode htemp hlt (Prog.visits_end hcreate)
  rcases Prog.visits_orElse_ok hcreate hv with hv | hv
  · exact untouched_createAppendLogMode htemp hlt hv
  · have hcalls : (s.fillCompaction newLog).Each (fun o => ¬ o.Rewrites i) fun r => s.SameSettings r.2 := by
      refine calls_fillCompaction s (fun _ ho => not_rewrites_of_reading ho) (fun o ho => ?_) id (fun _ _ => id) id
      rw [hnew.file] at ho
      exact not_rewrites_of_on ho (Nat.ne_of_lt hlt)
    exact hfirst.trans (Disk.untouched_visits hcalls (Nat.lt_of_lt_of_le hlt hfirst.next) hv)

/-- and the name of the log is bound as before, whatever a crash leaves. -/
theorem leaves_prepareCompaction (hpath : s.log.path = path) (hv : Prog.Visits Disk.answer s.prepareCompaction d t)
    {n : Names} (hn : t.Leaves lossy n) : ∃ m, d.Leaves lossy m ∧ n path = m path := by
  have hne : ∀ suffix : String, suffix ≠ "" → path ++ suffix ≠ path := fun _ hs => (path_ne_append hs).symm
  have hcalls : s.prepareCompaction.Each (fun o => ∀ q, q = path → ¬ o.Binds q) fun r => s.SameSettings r.2 := by
    refine calls_prepareCompaction (fun _ _ ho _ _ => not_binds_of_on ho) s (fun _ _ => id) (fun _ _ => id) ?_ ?_ ?_
    · rw [hpath]
      rintro p hp q rfl (rfl : p = q)
      simp only [compactionNames, List.mem_cons, List.not_mem_nil, or_false] at hp
      rcases hp with hp | hp | hp
      · exact path_ne_append (by decide) hp
      · exact path_ne_append (by decide) hp
      · exact path_ne_append (by decide) hp
    · rw [hpath]
      rintro q rfl ⟨-, hb⟩
      exact hne _ (by decide) hb
    · rw [hpath]
      rintro q rfl (hb | hb)
      · exact hne _ (by decide) hb
      · exact hne _ (by decide) hb
  obtain ⟨m, hm, heq⟩ := Disk.leaves_visits hcalls hv hn
  exact ⟨m, hm, heq path rfl⟩

/-! ## The installation -/

/-- Opening a log that is there changes nothing. -/
theorem visits_openAppendLogFile (hmain : d.dir path = some i) (hne : (d.files i).content ≠ [])
    (hv : Prog.Visits Disk.answer (openAppendLogFile path) d t) : t = d := by
  have hlen : (d.files i).content.length ≠ 0 := by simpa using hne
  have hopen := Disk.exec_open_some hmain true
  have hclose : ∀ e : Err, (do let _ ← Sys.close ⟨i, true⟩; pure (.error e) : FileProg (Except Err AppendLog)).Each
      FileOp.Observes fun _ => True :=
    fun e => Prog.each_bind (Prog.each_perform (o := FileOp.close _) trivial) fun _ _ => .ret trivial
  rw [openAppendLogFile] at hv
  rcases Prog.visits_orElse_ok hopen hv with hv | hv
  · rcases Prog.visits_perform hv with rfl | rfl
    · rfl
    · exact congrArg Prod.snd hopen
  rcases Prog.visits_orElse_ok (Disk.exec_fstat rfl d) hv with hv | hv
  · exact Disk.visits_observes (Prog.each_perform (o := FileOp.fstat _) trivial) hv
  dsimp only at hv
  rw [if_neg hlen] at hv
  refine Disk.visits_observes (Q := fun _ => True) ?_ hv
  refine Prog.each_orElse (Q := fun _ => True) ?_ (fun _ _ => .ret trivial) fun l _ => ?_
  · refine Prog.each_orElse (Q := fun _ => True) ?_ (fun e _ => hclose e) fun _ _ => .ret trivial
    refine Prog.each_orElse (Prog.each_perform (o := FileOp.readAt _ _ _) trivial) (fun _ _ => .ret trivial)
      fun b _ => ?_
    split <;> exact .ret trivial
  · exact Prog.each_bind (observes_remap l) fun _ _ => .ret trivial

/-- The directory while the log `i` is replaced by the prepared log `j`. -/
def Swapping (path : Path) (i j : ℕ) (n : Names) : Prop :=
  n path = some j ∨ n (path ++ compactionReadySuffix) = some j ∧ (n path = some i ∨ n path = none)

theorem Swapping.recovers {n : Names} (h : Swapping path i j n) :
    recoveredMain n path = some i ∨ recoveredMain n path = some j := by
  unfold recoveredMain
  rcases h with hj | ⟨hready, hi | hnone⟩
  · rw [hj]
    exact .inr rfl
  · rw [hi]
    exact .inl rfl
  · rw [hnone, hready]
    exact .inr rfl

theorem visits_installCompacted (newIndex : Index) {recs' : List (Rec logVersion)} (hpath : s.log.path = path)
    (hopen : s.log.file.isOpen = true) (hpending : d.pending = []) (hmain : d.dir path = some i)
    (hready : d.dir (path ++ compactionReadySuffix) = some j)
    (hcontent : (d.files j).content = currentHeader ++ concat recs')
    (hv : Prog.Visits Disk.answer (s.installCompacted newIndex) d t) :
    SameFiles d t ∧ ∀ n, t.Leaves lossy n → Swapping path i j n := by
  have n1 : path ≠ path ++ compactionReadySuffix := path_ne_append (by decide)
  have n2 : path ≠ path ++ compactionBackupSuffix := path_ne_append (by decide)
  have n3 : path ++ compactionReadySuffix ≠ path ++ compactionBackupSuffix := append_ne_append path (by decide)
  -- before the first rename
  have hstart : SameFiles d d ∧ ∀ n, d.Leaves lossy n → Swapping path i j n := by
    refine ⟨sameFiles_refl d, fun n hn => ?_⟩
    rw [Disk.leaves_settled hpending hn]
    exact .inr ⟨hready, .inl hmain⟩
  -- the old log goes to its backup,
  obtain ⟨d1, hd1⟩ : ∃ d1, d1 = d.enqueue (.rename path (path ++ compactionBackupSuffix)) := ⟨_, rfl⟩
  have h1 := Disk.exec_rename_some hmain (path ++ compactionBackupSuffix)
  rw [← hd1] at h1
  have hleft1 : ∀ n, d1.Leaves lossy n →
      n (path ++ compactionReadySuffix) = some j ∧ (n path = some i ∨ n path = none) := by
    intro n hn
    rw [hd1] at hn
    obtain ⟨m, hm, hcase⟩ := Disk.leaves_enqueue hn
    obtain rfl := Disk.leaves_settled hpending hm
    rcases hcase with rfl | ⟨-, rfl⟩
    · rw [← Disk.dir_enqueue, Disk.dir_rename hmain]
      refine ⟨?_, .inr ?_⟩
      · rw [Function.update_of_ne n3, Function.update_of_ne n1.symm, hready]
      · rw [Function.update_of_ne n2, Function.update_self]
    · exact ⟨hready, .inl hmain⟩
  have hfirst : SameFiles d d1 ∧ ∀ n, d1.Leaves lossy n → Swapping path i j n :=
    ⟨hd1 ▸ sameFiles_enqueue d _, fun n hn => .inr (hleft1 n hn)⟩
  -- and the new log to its place
  have hready1 : d1.dir (path ++ compactionReadySuffix) = some j := (hleft1 _ (Disk.leaves_dir d1)).1
  obtain ⟨d2, hd2⟩ : ∃ d2, d2 = d1.enqueue (.rename (path ++ compactionReadySuffix) path) := ⟨_, rfl⟩
  have h2 := Disk.exec_rename_some hready1 path
  rw [← hd2] at h2
  have hsecond : SameFiles d d2 ∧ ∀ n, d2.Leaves lossy n → Swapping path i j n := by
    refine ⟨hfirst.1.trans (hd2 ▸ sameFiles_enqueue d1 _), fun n hn => ?_⟩
    rw [hd2] at hn
    obtain ⟨m, hm, hcase⟩ := Disk.leaves_enqueue hn
    rcases hcase with rfl | ⟨-, rfl⟩
    · left
      rw [DirOp.apply, (hleft1 m hm).1]
      exact Function.update_self _ _ _
    · exact hfirst.2 n hm
  have hmain2 : d2.dir path = some j := by
    rw [hd2, Disk.dir_rename hready1, Function.update_self]
  have hfiles2 : (d2.files j).content = currentHeader ++ concat recs' := by rw [hsecond.1.files, hcontent]
  have hnonempty : (d2.files j).content ≠ [] := by
    rw [hfiles2]
    exact currentHeader_append_ne_nil _
  -- removing the backup and syncing do not matter any more
  have hcleared : ∀ u, Cleared lossy [path ++ compactionBackupSuffix] d2 u →
      SameFiles d u ∧ ∀ n, u.Leaves lossy n → Swapping path i j n := by
    intro u hu
    refine ⟨hsecond.1.trans hu.files, fun n hn => ?_⟩
    obtain ⟨m, hm, heq⟩ := hu.left n hn
    have hpath : n path = m path := heq path (.inl (by simp [n2]))
    have hready : n (path ++ compactionReadySuffix) = m (path ++ compactionReadySuffix) := heq _ (.inl (by simp [n3]))
    unfold Swapping
    rw [hpath, hready]
    exact hsecond.2 m hm
  unfold Store.installCompacted at hv
  dsimp only at hv
  rw [hpath] at hv
  rcases Prog.visits_orElseState_ok (exec_closeLog hopen d) hv with hv | hv
  · exact Disk.visits_observes (observes_close _) hv ▸ hstart
  rcases Prog.visits_orElse_ok h1 hv with hv | hv
  · rcases Prog.visits_perform hv with rfl | rfl
    · exact hstart
    · exact (congrArg Prod.snd h1 : (Disk.answer _ d).2 = d1) ▸ hfirst
  rcases Prog.visits_orElse_ok h2 hv with hv | hv
  · rcases Prog.visits_perform hv with rfl | rfl
    · exact hfirst
    · exact (congrArg Prod.snd h2 : (Disk.answer _ d1).2 = d2) ▸ hsecond
  have hheader : readHeaderOf (d2.files j).content = .ok ⟨logVersion, 0, 0⟩ := by
    rw [hfiles2, readHeaderOf_current]
  obtain ⟨reopened, h3, -⟩ := exec_openAppendLogFile_ok hmain2 hnonempty hheader
  rcases Prog.visits_orElse_ok h3 hv with hv | hv
  · exact visits_openAppendLogFile hmain2 hnonempty hv ▸ hsecond
  obtain ⟨d4, h4, -⟩ := exec_removeIfExists d2 (path ++ compactionBackupSuffix)
  rcases Prog.visits_orElse_ok h4 hv with hv | hv
  · exact hcleared t (visits_removeIfExists hv)
  have hfourth : Cleared lossy [path ++ compactionBackupSuffix] d2 d4 := visits_removeIfExists (Prog.visits_end h4)
  have hfifth := hfourth.trans (cleared_syncNames _ d4)
  rcases Prog.visits_orElse_ok (exec_syncParentDirectory d4 path) hv with hv | hv
  · rcases visits_syncParentDirectory hv with rfl | rfl
    · exact hcleared _ hfourth
    · exact hcleared _ hfifth
  · rw [Prog.visits_pure hv]
    exact hcleared _ hfifth

/-! ## `Compact` as a whole -/

/-- An instant of a compaction: whatever a crash leaves, recovery finds the old log, or the new one, which is then
complete and synced. -/
structure Compacting (lossy : DirOp → Prop) (path : Path) (i : ℕ) (recs : List (Rec version)) (d t : Disk) : Prop where
  old : t.files i = d.files i
  left : ∀ n, t.Leaves lossy n → recoveredMain n path = some i ∨ recoveredMain n path = some d.next ∧
    t.files d.next = ⟨currentHeader ++ concat (compacted recs), currentHeader ++ concat (compacted recs)⟩

theorem exec_prepareCompaction_file (h : Backed d s path header recs) (compacting : Bool) : ∃ d',
    Disk.exec ({ s with compacting := compacting } : Store).prepareCompaction d =
      ((.ok (replay s.options.indexedFields (compacted recs)),
        { s with index := s.index.keysSortedByOffset.2, compacting := compacting }), d') ∧ d'.pending = [] ∧
    d'.dir path = some s.log.file.inode ∧ d'.dir (path ++ compactionReadySuffix) = some d.next ∧
    d'.files d.next = ⟨currentHeader ++ concat (compacted recs), currentHeader ++ concat (compacted recs)⟩ ∧
    d'.files s.log.file.inode = d.files s.log.file.inode := by
  obtain ⟨d', hexec, hpreparing, hprepared, hpending, hsynced, -⟩ := exec_prepareCompaction h compacting
  refine ⟨d', hexec, hpending, ?_, hprepared.ready, ?_, hpreparing.files _ (h.sound.bounded _ _ h.dir)⟩
  · rw [hpreparing.dir, h.dir]
    intro hmem
    refine path_not_mem_artifacts path ?_
    simp only [compactionNames, artifacts, List.mem_cons, List.not_mem_nil, or_false] at hmem ⊢
    tauto
  · exact file_synced hprepared.content hsynced

/-- **A compaction that is interrupted.** -/
theorem visits_compaction (h : Backed d s path header recs) (hsteady : Steady lossy path d)
    (hv : Prog.Visits Disk.answer s.compact d t) : Compacting lossy path s.log.file.inode recs d t := by
  have hlt : s.log.file.inode < d.next := h.sound.bounded _ _ h.dir
  have hpath : ({ s with compacting := true } : Store).log.path = path := h.pathEq
  obtain ⟨d1, hprepare, hpending, hmain, hready, hnew, hold⟩ := exec_prepareCompaction_file h true
  -- while the new log is prepared
  have hfirst : ∀ u, Prog.Visits Disk.answer ({ s with compacting := true } : Store).prepareCompaction d u →
      Compacting lossy path s.log.file.inode recs d u := by
    intro u hu
    refine ⟨(untouched_prepareCompaction hpath h.noCompaction h.dir hlt hu).file, fun n hn => .inl ?_⟩
    obtain ⟨m, hm, heq⟩ := leaves_prepareCompaction hpath hu hn
    rw [recoveredMain, heq, hsteady m hm path List.mem_cons_self, h.dir]
    rfl
  -- while it is installed
  have hsecond : ∀ u newIndex, Prog.Visits Disk.answer (Store.installCompacted
      { s with index := s.index.keysSortedByOffset.2, compacting := true } newIndex) d1 u →
      Compacting lossy path s.log.file.inode recs d u := by
    intro u newIndex hu
    obtain ⟨hfiles, hleft⟩ := visits_installCompacted
      (s := { s with index := s.index.keysSortedByOffset.2, compacting := true }) newIndex h.pathEq h.image.isOpen
      hpending hmain hready (by rw [hnew]) hu
    refine ⟨by rw [hfiles.files, hold], fun n hn => ?_⟩
    refine (hleft n hn).recovers.imp_right fun hj => ⟨hj, ?_⟩
    rw [hfiles.files, hnew]
  obtain ⟨s', d', hlocked, -⟩ := exec_compactLocked h
  have hcompactLocked : ∀ u, Prog.Visits Disk.answer ({ s with compacting := true } : Store).compactLocked d u →
      Compacting lossy path s.log.file.inode recs d u := by
    intro u hu
    rw [Store.compactLocked] at hu
    rcases Prog.visits_orElseState_ok hprepare hu with hu | hu
    · exact hfirst u hu
    · exact hsecond u _ hu
  unfold Store.compact at hv
  rw [h.writable, h.compacting, if_neg Bool.false_ne_true] at hv
  rcases Prog.visits_bind_eq hlocked hv with hv | hv
  · exact hcompactLocked t hv
  · rw [Prog.visits_pure hv]
    exact hcompactLocked d' (Prog.visits_end hlocked)

/-- At the end of a compaction the directory is on the disk. -/
theorem compact_settled (h : Backed d s path header recs) : (Disk.exec s.compact d).2.pending = [] := by
  obtain ⟨d1, hprepare, -, hmain, hready, hnew, -⟩ := exec_prepareCompaction_file h true
  obtain ⟨reopened, d2, hinstall, -, -, hpending, -⟩ := exec_installCompacted
    (s := { s with index := s.index.keysSortedByOffset.2, compacting := true }) (d := d1)
    (replay s.options.indexedFields (compacted recs)) (by rw [← h.image.isOpen]) h.pathEq hmain hready (by rw [hnew])
  unfold Store.compact
  rw [h.writable, h.compacting, if_neg Bool.false_ne_true, Store.compactLocked, Disk.exec_bind,
    Disk.exec_orElseState_ok hprepare, hinstall]
  exact hpending

end

end AppendStore
