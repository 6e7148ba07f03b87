import AppendStore.Log.AppendLog

/-! # The files beside the log

The artifacts of a compaction, the process lock, and what an undisturbed recovery makes of any
combination of artifacts (`exec_recover`): the log if it is there, else the prepared one, else the
backup, else the file of an old build becomes the log, and every artifact is gone.
-/

namespace AppendStore
open Library
set_option autoImplicit false

/-! ## Names -/

theorem path_ne_append {p s : String} (h : s ≠ "") : p ≠ p ++ s :=
  fun heq => h (String.append_eq_left_iff.mp heq.symm)

theorem append_ne_append (p : String) {s t : String} (h : s ≠ t) : p ++ s ≠ p ++ t :=
  fun heq => h ((String.append_right_inj p).mp heq)

/-- The artifacts that recovery looks for, in the order in which it clears them. -/
def artifacts (path : Path) : List Path :=
  [path ++ compactionTempSuffix, path ++ compactionReadySuffix, path ++ compactionBackupSuffix,
    path ++ legacyCompactionSuffix]

theorem mem_artifacts {path q : Path} : q ∈ artifacts path ↔
    ∃ s ∈ [compactionTempSuffix, compactionReadySuffix, compactionBackupSuffix, legacyCompactionSuffix],
      q = path ++ s := by
  simp [artifacts]

theorem path_not_mem_artifacts (path : Path) : path ∉ artifacts path := by
  rw [mem_artifacts]
  rintro ⟨s, hs, heq⟩
  refine path_ne_append ?_ heq
  rintro rfl
  exact absurd hs (by decide)

theorem lock_not_mem_artifacts (path : Path) : path ++ lockFileSuffix ∉ artifacts path := by
  rw [mem_artifacts]
  rintro ⟨s, hs, heq⟩
  rw [String.append_right_inj] at heq
  rw [← heq] at hs
  exact absurd hs (by decide)

/-! ## Changes of the directory alone -/

/-- Two disks that differ at most in their directories. -/
structure SameFiles (d d' : Disk) : Prop where
  files : d'.files = d.files
  next : d'.next = d.next
  locked : d'.locked = d.locked
  mappable : d'.mappable = d.mappable

theorem sameFiles_refl (d : Disk) : SameFiles d d := ⟨rfl, rfl, rfl, rfl⟩

theorem SameFiles.trans {a b c : Disk} (h : SameFiles a b) (h' : SameFiles b c) : SameFiles a c :=
  ⟨h'.files.trans h.files, h'.next.trans h.next, h'.locked.trans h.locked, h'.mappable.trans h.mappable⟩

theorem sameFiles_enqueue (d : Disk) (o : DirOp) : SameFiles d (d.enqueue o) := ⟨rfl, rfl, rfl, rfl⟩

section
variable {d : Disk} {path : Path}

theorem exec_fileExists (d : Disk) (path : Path) :
    Disk.exec (fileExists path) d = (.ok (d.dir path).isSome, d) := by
  unfold fileExists
  cases h : d.dir path with
  | none =>
    rw [Disk.exec_orElse_error (Disk.exec_stat_none h), if_pos rfl]
    rfl
  | some i =>
    rw [Disk.exec_orElse_ok (Disk.exec_stat_some h)]
    rfl

theorem exec_removeIfExists_none {q : Path} (hq : d.dir q = none) : Disk.exec (removeIfExists q) d = (.ok (), d) := by
  unfold removeIfExists
  rw [Disk.exec_orElse_error (Disk.exec_remove_none hq), if_pos rfl]
  rfl

theorem exec_removeIfExists_some {q : Path} {i : ℕ} (hq : d.dir q = some i) :
    Disk.exec (removeIfExists q) d = (.ok (), d.enqueue (.remove q)) := by
  unfold removeIfExists
  rw [Disk.exec_orElse_ok (Disk.exec_remove_some hq)]
  rfl

theorem exec_removeIfExists (d : Disk) (path : Path) :
    ∃ d', Disk.exec (removeIfExists path) d = (.ok (), d') ∧ SameFiles d d' ∧
      d'.dir = Function.update d.dir path none := by
  cases h : d.dir path with
  | none =>
    refine ⟨d, exec_removeIfExists_none h, sameFiles_refl d, ?_⟩
    rw [← h, Function.update_eq_self]
  | some i =>
    refine ⟨d.enqueue (.remove path), exec_removeIfExists_some h, sameFiles_enqueue d _, ?_⟩
    rw [Disk.dir_enqueue]
    rfl

theorem exec_removeAllIfExist_none {paths : List Path} (hnone : ∀ q ∈ paths, d.dir q = none) :
    Disk.exec (removeAllIfExist paths) d = (.ok (), d) := by
  induction paths with
  | nil => rfl
  | cons q paths ih =>
    rw [removeAllIfExist, Disk.exec_andThen_ok (exec_removeIfExists_none (hnone q List.mem_cons_self))]
    exact ih fun q hq => hnone q (List.mem_cons_of_mem _ hq)

theorem exec_removeAllIfExist (paths : List Path) (d : Disk) :
    ∃ d', Disk.exec (removeAllIfExist paths) d = (.ok (), d') ∧ SameFiles d d' ∧
      ∀ q, d'.dir q = if q ∈ paths then none else d.dir q := by
  induction paths generalizing d with
  | nil => exact ⟨d, rfl, sameFiles_refl d, fun q => by simp⟩
  | cons path paths ih =>
    obtain ⟨d1, h1, hs1, hdir1⟩ := exec_removeIfExists d path
    obtain ⟨d2, h2, hs2, hdir2⟩ := ih d1
    refine ⟨d2, ?_, hs1.trans hs2, ?_⟩
    · rw [removeAllIfExist, Disk.exec_andThen_ok h1, h2]
    · intro q
      rw [hdir2, hdir1, Function.update_apply]
      by_cases hq : q = path
      · simp [hq]
      · simp [hq]

theorem exec_syncParentDirectory (d : Disk) (path : Path) :
    Disk.exec (syncParentDirectory path) d = (.ok (), d.syncNames) := by
  unfold syncParentDirectory asErr
  rw [Disk.exec_orElse_ok (Disk.exec_syncDir path d)]
  rfl

theorem sameFiles_syncNames (d : Disk) : SameFiles d d.syncNames := ⟨rfl, rfl, rfl, rfl⟩

/-- The file that recovery makes the log. -/
def recoveredMain (n : Names) (path : Path) : Option ℕ :=
  (n path).or ((n (path ++ compactionReadySuffix)).or
    ((n (path ++ compactionBackupSuffix)).or (n (path ++ legacyCompactionSuffix))))

/-- A rename onto a free name. -/
theorem exec_rename_promote {a : Path} {i : ℕ} (h : d.dir a = some i) (b : Path) :
    ∃ d', Disk.exec (Sys.rename a b) d = (.ok (), d') ∧ SameFiles d d' ∧
      d'.dir = Function.update (Function.update d.dir a none) b (some i) :=
  ⟨_, Disk.exec_rename_some h b, sameFiles_enqueue d _, Disk.dir_rename h b⟩

/-- The `switch` of recovery, on the files it found. Names other than the log and the artifacts
are not touched. -/
theorem exec_promoteArtifact (d : Disk) (path : Path) :
    ∃ d', Disk.exec (promoteArtifact path (d.dir path).isSome (d.dir (path ++ compactionReadySuffix)).isSome
        (d.dir (path ++ compactionBackupSuffix)).isSome (d.dir (path ++ legacyCompactionSuffix)).isSome) d =
          (.ok (), d') ∧ SameFiles d d' ∧ d'.dir path = recoveredMain d.dir path ∧
      ∀ q, q ≠ path → q ∉ artifacts path → d'.dir q = d.dir q := by
  have hready : path ≠ path ++ compactionReadySuffix := path_ne_append (by decide)
  have hbackup : path ≠ path ++ compactionBackupSuffix := path_ne_append (by decide)
  have hlegacy : path ≠ path ++ legacyCompactionSuffix := path_ne_append (by decide)
  unfold promoteArtifact
  cases hm : d.dir path with
  | some i =>
    obtain ⟨d', h, hs, hdir⟩ := exec_removeAllIfExist
      [path ++ compactionReadySuffix, path ++ compactionBackupSuffix, path ++ legacyCompactionSuffix] d
    refine ⟨d', h, hs, ?_, ?_⟩
    · rw [hdir, if_neg (by simp [hready, hbackup, hlegacy]), hm, recoveredMain, hm]
      rfl
    · intro q _ hq
      rw [hdir, if_neg]
      intro hmem
      exact hq (List.mem_cons_of_mem _ hmem)
  | none =>
    dsimp only [Option.isSome_none]
    rw [if_neg Bool.false_ne_true]
    cases hr : d.dir (path ++ compactionReadySuffix) with
    | some i =>
      obtain ⟨d1, h1, hs1, hdir1⟩ := exec_rename_promote hr path
      obtain ⟨d2, h2, hs2, hdir2⟩ := exec_removeIfExists d1 (path ++ compactionBackupSuffix)
      refine ⟨d2, ?_, hs1.trans hs2, ?_, ?_⟩
      · dsimp only [Option.isSome_some]
        rw [if_pos rfl, Disk.exec_orElse_ok h1, h2]
      · rw [hdir2, Function.update_of_ne hbackup, hdir1, Function.update_self, recoveredMain, hm, hr]
        rfl
      · intro q hq hart
        have h1 : q ≠ path ++ compactionReadySuffix := fun heq => hart (heq ▸ by simp [artifacts])
        have h2 : q ≠ path ++ compactionBackupSuffix := fun heq => hart (heq ▸ by simp [artifacts])
        rw [hdir2, Function.update_of_ne h2, hdir1, Function.update_of_ne hq, Function.update_of_ne h1]
    | none =>
      dsimp only [Option.isSome_none]
      rw [if_neg Bool.false_ne_true]
      cases hb : d.dir (path ++ compactionBackupSuffix) with
      | some i =>
        obtain ⟨d1, h1, hs1, hdir1⟩ := exec_rename_promote hb path
        refine ⟨d1, ?_, hs1, ?_, ?_⟩
        · dsimp only [Option.isSome_some]
          rw [if_pos rfl, Disk.exec_orElse_ok h1]
          rfl
        · rw [hdir1, Function.update_self, recoveredMain, hm, hr, hb]
          rfl
        · intro q hq hart
          have h2 : q ≠ path ++ compactionBackupSuffix := fun heq => hart (heq ▸ by simp [artifacts])
          rw [hdir1, Function.update_of_ne hq, Function.update_of_ne h2]
      | none =>
        dsimp only [Option.isSome_none]
        rw [if_neg Bool.false_ne_true]
        cases hl : d.dir (path ++ legacyCompactionSuffix) with
        | some i =>
          obtain ⟨d1, h1, hs1, hdir1⟩ := exec_rename_promote hl path
          refine ⟨d1, ?_, hs1, ?_, ?_⟩
          · dsimp only [Option.isSome_some]
            rw [if_pos rfl, Disk.exec_orElse_ok h1]
            rfl
          · rw [hdir1, Function.update_self, recoveredMain, hm, hr, hb, hl]
            rfl
          · intro q hq hart
            have h2 : q ≠ path ++ legacyCompactionSuffix := fun heq => hart (heq ▸ by simp [artifacts])
            rw [hdir1, Function.update_of_ne hq, Function.update_of_ne h2]
        | none =>
          refine ⟨d, rfl, sameFiles_refl d, ?_, fun _ _ _ => rfl⟩
          rw [recoveredMain, hm, hr, hb, hl]
          rfl

/-- **An undisturbed recovery.** -/
theorem exec_recover (d : Disk) (path : Path) :
    ∃ d', Disk.exec (recoverCompactionArtifacts path) d = (.ok (), d') ∧ SameFiles d d' ∧
      d'.dir path = recoveredMain d.dir path ∧ (∀ q ∈ artifacts path, d'.dir q = none) ∧
      ∀ q, q ≠ path → q ∉ artifacts path → d'.dir q = d.dir q := by
  obtain ⟨d1, h1, hs1, hmain1, hdir1⟩ := exec_promoteArtifact d path
  obtain ⟨d2, h2, hs2, hdir2⟩ := exec_removeAllIfExist (artifacts path) d1
  have hmain2 : d2.dir path = recoveredMain d.dir path := by
    rw [hdir2, if_neg (path_not_mem_artifacts path), hmain1]
  have hart2 : ∀ q ∈ artifacts path, d2.dir q = none := fun q hq => by rw [hdir2, if_pos hq]
  have hrest2 : ∀ q, q ≠ path → q ∉ artifacts path → d2.dir q = d.dir q := fun q hq hart => by
    rw [hdir2, if_neg hart, hdir1 q hq hart]
  unfold recoverCompactionArtifacts
  dsimp only
  rw [Disk.exec_andThen_ok (exec_fileExists d _), Disk.exec_andThen_ok (exec_fileExists d _),
    Disk.exec_andThen_ok (exec_fileExists d _), Disk.exec_andThen_ok (exec_fileExists d _),
    Disk.exec_andThen_ok (exec_fileExists d _), Disk.exec_andThen_ok h1,
    Disk.exec_andThen_ok (p := removeAllIfExist [_, _, _, _]) h2]
  split
  · refine ⟨d2.syncNames, ?_, (hs1.trans hs2).trans (sameFiles_syncNames d2), hmain2, hart2, hrest2⟩
    rw [Disk.exec_orElse_ok (exec_syncParentDirectory d2 path)]
    rfl
  · exact ⟨d2, rfl, hs1.trans hs2, hmain2, hart2, hrest2⟩

/-! ## The lock -/

/-- The lock is taken if nothing else holds it. -/
theorem exec_acquireFileLock (hfree : ∀ i, d.dir (path ++ lockFileSuffix) = some i → d.locked i = false) :
    ∃ i d', Disk.exec (acquireFileLock path) d = (.ok ⟨some ⟨i, true⟩⟩, d') ∧
      d'.dir (path ++ lockFileSuffix) = some i ∧ d'.locked i = true ∧
      (∀ q, q ≠ path ++ lockFileSuffix → d'.dir q = d.dir q) ∧
      (∀ j, j ≠ i → d'.locked j = d.locked j) ∧
      (∀ j, j < d.next → d'.files j = d.files j) ∧ d.next ≤ d'.next ∧
      d'.mappable = d.mappable := by
  unfold acquireFileLock
  cases h : d.dir (path ++ lockFileSuffix) with
  | some i =>
    refine ⟨i, d.setLock i true, ?_, h, by simp, fun _ _ => rfl, ?_, fun _ _ => rfl, le_refl _, rfl⟩
    · rw [Disk.exec_orElse_ok (Disk.exec_open_some h true),
        Disk.exec_orElse_ok (Disk.exec_flock rfl d (hfree i h))]
      rfl
    · intro j hj
      exact Function.update_of_ne hj _ _
  | none =>
    refine ⟨d.next, (d.create (path ++ lockFileSuffix)).setLock d.next true, ?_, ?_, by simp, ?_, ?_, ?_, ?_, rfl⟩
    · rw [Disk.exec_orElse_ok (Disk.exec_open_none h false),
        Disk.exec_orElse_ok (Disk.exec_flock (f := ⟨d.next, true⟩) rfl (d.create (path ++ lockFileSuffix))
          (by simp))]
      rfl
    · rw [Disk.dir_setLock, Disk.dir_create, Function.update_self]
    · intro q hq
      rw [Disk.dir_setLock, Disk.dir_create, Function.update_of_ne hq]
    · intro j hj
      rw [← Disk.locked_create_ne d (path ++ lockFileSuffix) j hj]
      exact Function.update_of_ne hj _ _
    · intro j hlt
      rw [Disk.files_setLock, Disk.files_create_ne _ _ _ (Nat.ne_of_lt hlt)]
    · exact Nat.le_succ _

end

end AppendStore
