import AppendStore.Library.BufferedWriter
import AppendStore.Library.FaultyRuns
import AppendStore.Log.Artifacts
import AppendStore.Log.Spec

/-! # Which calls an operation makes

Once it is open, a log makes its calls through its own handle, and so does a buffered writer. So a property
`P` that all calls through the handle have, all calls of the operation have, and the log that it leaves has the
same handle and path. Reading a record makes reading calls only. The recovery of a directory and the locking use
the names of their files.
-/

namespace AppendStore
open Library
set_option autoImplicit false

/-- The same handle and the same path. -/
structure AppendLog.SameHandle (l l' : AppendLog) : Prop where
  file : l'.file = l.file
  path : l'.path = l.path

theorem AppendLog.sameHandle_refl (l : AppendLog) : l.SameHandle l := ⟨rfl, rfl⟩

theorem AppendLog.SameHandle.trans {l l' l'' : AppendLog} (h : l.SameHandle l') (h' : l'.SameHandle l'') :
    l.SameHandle l'' :=
  ⟨h'.file.trans h.file, h'.path.trans h.path⟩

section
variable {P : FileOp → Prop} {l : AppendLog} (hP : ∀ o : FileOp, o.On l.file.inode → P o)
include hP

theorem calls_writeHeader : l.writeHeader.Each P fun _ => True :=
  Prog.each_orElse (Prog.each_perform (hP (.writeAt _ _ _) rfl)) (fun _ _ => .ret trivial) fun _ _ => .ret trivial

theorem calls_syncLog : l.sync.Each P fun _ => True :=
  Prog.each_orElse (Prog.each_perform (hP (.fsync _) rfl)) (fun _ _ => .ret trivial) fun _ _ => .ret trivial

theorem calls_setVersion (version : ℕ) : (l.setVersion version).Each P fun r => l.SameHandle r.2 := by
  have hwrite : ({ l with version := version } : AppendLog).writeHeader.Each P fun _ => True := calls_writeHeader hP
  refine Prog.each_orElse hwrite (fun _ _ => .ret l.sameHandle_refl) fun _ _ => ?_
  exact Prog.each_bind (calls_syncLog hP) fun _ _ => .ret ⟨rfl, rfl⟩

theorem calls_readHeader : l.readHeader.Each P fun r => ∀ l', r = .ok l' → l.SameHandle l' := by
  unfold AppendLog.readHeader
  refine Prog.each_orElse (Prog.each_perform (hP (.readAt _ _ _) rfl)) (fun _ _ => .ret (fun _ h => by cases h))
    fun header _ => ?_
  split
  · exact .ret (fun _ h => by cases h)
  · refine .ret fun l' h => ?_
    cases h
    exact ⟨rfl, rfl⟩

theorem calls_remap : l.remap.Each P fun l' => l.SameHandle l' := by
  unfold AppendLog.remap
  split
  · exact .ret l.sameHandle_refl
  · dsimp only
    split
    · exact .ret ⟨rfl, rfl⟩
    · exact Prog.each_orElse (Prog.each_perform (hP (.mmap _ _) rfl)) (fun _ _ => .ret ⟨rfl, rfl⟩) fun _ _ =>
        .ret ⟨rfl, rfl⟩

theorem calls_append (key value : Bytes) (deleted : Bool) (attributes : AttributeRange) (extensions : Bytes) :
    (l.append key value deleted attributes extensions).Each P fun r => l.SameHandle r.2 := by
  unfold AppendLog.append
  split
  · exact .ret l.sameHandle_refl
  split
  · exact .ret l.sameHandle_refl
  split
  · exact .ret l.sameHandle_refl
  dsimp only
  refine Prog.each_orElse (Prog.each_perform (hP (.writeAt _ _ _) rfl)) (fun _ _ => .ret ⟨rfl, rfl⟩) fun _ _ => ?_
  split
  · exact Prog.each_bind (calls_remap hP) fun l' h => .ret ⟨h.file, h.path⟩
  · exact .ret ⟨rfl, rfl⟩

theorem calls_close : l.close.Each P fun r => r.2.file.inode = l.file.inode ∧ r.2.path = l.path := by
  refine Prog.each_bind (Q := fun _ => True) ?_ fun _ _ => .ret ⟨rfl, rfl⟩
  exact Prog.each_orElse (Prog.each_perform (hP (.close _) rfl)) (fun _ _ => .ret trivial) fun _ _ => .ret trivial

theorem calls_iterate {σ : Type} (fn : LogRecord → σ → Except Err σ) (s : σ) :
    (l.iterate fn s).Each P fun r => l.SameFile r.1.2 := by
  have hself : l.SameFile l := ⟨rfl, rfl, rfl, rfl, rfl⟩
  unfold AppendLog.iterate
  refine Prog.each_orElse (Prog.each_perform (hP (.seek _ _) rfl)) (fun _ _ => .ret hself) fun _ _ => ?_
  refine Prog.each_orElse (Prog.each_perform (hP (.readFrom _ _) rfl)) (fun _ _ => .ret hself) fun rest _ => ?_
  unfold AppendLog.finishScan
  split
  · exact .ret hself
  · exact .ret hself
  · split
    · exact Prog.each_orElse (Prog.each_perform (hP (.truncate _ _) rfl)) (fun _ _ => .ret hself) fun _ _ =>
        .ret ⟨rfl, rfl, rfl, rfl, rfl⟩
    · exact .ret ⟨rfl, rfl, rfl, rfl, rfl⟩

end

theorem calls_readRecordAndExtensionsAt {P : FileOp → Prop} (hP : ∀ o : FileOp, o.Reading → P o) (l : AppendLog)
    (recordOffset storedSize : ℕ) : (l.readRecordAndExtensionsAt recordOffset storedSize).Each P fun _ => True := by
  unfold AppendLog.readRecordAndExtensionsAt
  split
  · exact .ret trivial
  split
  · exact Prog.each_bind (Prog.each_perform (hP (.mapped _ _ _) trivial)) fun _ _ => .ret trivial
  · exact Prog.each_orElse (Prog.each_perform (hP (.readAt _ _ _) trivial)) (fun _ _ => .ret trivial)
      fun _ _ => .ret trivial

/-! ## Opening a log -/

section
variable {P : FileOp → Prop} {file : OsFile} (hP : ∀ o : FileOp, o.On file.inode → P o)
include hP

theorem calls_startLog (path : Path) :
    (startLog path file).Each P fun r => ∀ l, r = .ok l → (newAppendLog file path).SameHandle l := by
  have hclosed : ∀ e : Err, (do let _ ← Sys.close file; pure (.error e) : FileProg (Except Err AppendLog)).Each P
      fun r => ∀ l, r = .ok l → (newAppendLog file path).SameHandle l :=
    fun e => Prog.each_bind (Prog.each_perform (hP (.close _) rfl)) fun _ _ => .ret fun l hl => by cases hl
  have hnew : ∀ o : FileOp, o.On (newAppendLog file path).file.inode → P o := hP
  refine Prog.each_orElse (Prog.each_perform (hP (.fstat _) rfl)) (fun _ _ => hclosed _) fun size _ => ?_
  refine Prog.each_orElse (Q := fun r => ∀ l, r = .ok l → (newAppendLog file path).SameHandle l) ?_
    (fun _ _ => .ret fun l hl => by cases hl) fun l hl => ?_
  · split
    · refine Prog.each_orElse (calls_writeHeader hnew) (fun e _ => hclosed e) fun _ _ => .ret fun l hl => ?_
      cases hl
      exact ⟨rfl, rfl⟩
    · refine Prog.each_orElse (calls_readHeader hnew) (fun e _ => hclosed e) fun l hl => .ret fun l' hl' => ?_
      cases hl'
      exact ⟨(hl l rfl).file, (hl l rfl).path⟩
  · have hl := hl l rfl
    refine Prog.each_bind (calls_remap (l := l) (by rw [hl.file]; exact hP)) fun l' hl' => .ret fun l'' heq => ?_
    cases heq
    exact hl.trans hl'

/-- A new log, once its file is there. -/
theorem calls_startNew (path : Path) :
    ((newAppendLog file path).writeHeader.orElse
      (fun e => do
        let _ ← Sys.close file
        pure (.error e))
      (fun _ => do
        let log ← ({ newAppendLog file path with writePos := logHeaderSize } : AppendLog).remap
        pure (.ok log)) : FileProg (Except Err AppendLog)).Each P
      fun r => ∀ l, r = .ok l → (newAppendLog file path).SameHandle l := by
  have hnew : ∀ o : FileOp, o.On (newAppendLog file path).file.inode → P o := hP
  refine Prog.each_orElse (calls_writeHeader hnew) (fun e _ => ?_) fun _ _ => ?_
  · exact Prog.each_bind (Prog.each_perform (hP (.close _) rfl)) fun _ _ => .ret fun l hl => by cases hl
  · have hlong : ∀ o : FileOp,
        o.On ({ newAppendLog file path with writePos := logHeaderSize } : AppendLog).file.inode → P o := hP
    refine Prog.each_bind (calls_remap hlong) fun l hl => .ret fun l' heq => ?_
    cases heq
    exact ⟨hl.file, hl.path⟩

end

section
variable {P : FileOp → Prop} (hP : ∀ (i : ℕ) (o : FileOp), o.On i → P o) {path : Path}
include hP

theorem calls_openAppendLogFile (hopen : P (.openFile path true false)) :
    (openAppendLogFile path).Each P fun r => ∀ l, r = .ok l → l.path = path := by
  refine Prog.each_orElse (Prog.each_perform hopen) (fun _ _ => .ret fun l hl => by cases hl) fun file _ => ?_
  exact (calls_startLog (fun o ho => hP _ o ho) path).mono fun r hr l hl => (hr l hl).path

theorem calls_createAppendLogMode (hopen : P (.openFile path true true)) :
    (createAppendLogMode path).Each P fun _ => True := by
  refine Prog.each_orElse (Prog.each_perform hopen) (fun _ _ => .ret trivial) fun file _ => ?_
  exact (calls_startNew (fun o ho => hP _ o ho) path).mono fun _ _ => trivial

end

/-! ## Names -/

section
variable {P : FileOp → Prop} {path : Path}

theorem calls_fileExists (hstat : P (.stat path)) : (fileExists path).Each P fun _ => True :=
  Prog.each_orElse (Prog.each_perform hstat) (fun _ _ => .ret trivial) fun _ _ => .ret trivial

theorem calls_removeIfExists (hremove : P (.remove path)) : (removeIfExists path).Each P fun _ => True :=
  Prog.each_orElse (Prog.each_perform hremove) (fun _ _ => .ret trivial) fun _ _ => .ret trivial

theorem calls_removeAllIfExist {paths : List Path} (hremove : ∀ q ∈ paths, P (.remove q)) :
    (removeAllIfExist paths).Each P fun _ => True := by
  induction paths with
  | nil => exact .ret trivial
  | cons q paths ih =>
    refine Prog.each_orElse (calls_removeIfExists (hremove q List.mem_cons_self)) (fun _ _ => .ret trivial)
      fun _ _ => ?_
    exact ih fun q hq => hremove q (List.mem_cons_of_mem _ hq)

theorem calls_syncParentDirectory (hsync : P (.syncDir path)) : (syncParentDirectory path).Each P fun _ => True :=
  Prog.each_orElse (Prog.each_perform hsync) (fun _ _ => .ret trivial) fun _ _ => .ret trivial

theorem calls_acquireFileLock (hopen : P (.openFile (path ++ lockFileSuffix) true false)) (hlock : ∀ f, P (.flock f))
    (hclose : ∀ f, P (.close f)) : (acquireFileLock path).Each P fun _ => True := by
  refine Prog.each_orElse (Prog.each_perform hopen) (fun _ _ => .ret trivial) fun f _ => ?_
  refine Prog.each_orElse (Prog.each_perform (hlock f)) (fun _ _ => ?_) fun _ _ => .ret trivial
  exact Prog.each_bind (Prog.each_perform (hclose f)) fun _ _ => .ret trivial

/-- Recovery asks for files, removes artifacts, or renames one of them to the log's path. -/
theorem calls_recoverCompactionArtifacts (hstat : ∀ q, P (.stat q)) (hremove : ∀ q ∈ artifacts path, P (.remove q))
    (hrename : ∀ q ∈ artifacts path, P (.rename q path)) (hsync : P (.syncDir path)) :
    (recoverCompactionArtifacts path).Each P fun _ => True := by
  have hready : path ++ compactionReadySuffix ∈ artifacts path := by simp [artifacts]
  have hbackup : path ++ compactionBackupSuffix ∈ artifacts path := by simp [artifacts]
  have hlegacy : path ++ legacyCompactionSuffix ∈ artifacts path := by simp [artifacts]
  have hpromoted : ∀ q ∈ artifacts path, ∀ (wrap : OsError → Err) (next : FileProg (Except Err Unit)),
      (next.Each P fun _ => True) →
        ((Sys.rename q path).orElse (fun e => pure (.error (wrap e))) fun _ => next).Each P fun _ => True :=
    fun q hq wrap next hnext =>
      Prog.each_orElse (Prog.each_perform (hrename q hq)) (fun _ _ => .ret trivial) fun _ _ => hnext
  have hpromote : ∀ a b c e, (promoteArtifact path a b c e).Each P fun _ => True := by
    intro a b c e
    unfold promoteArtifact
    dsimp only
    split
    · exact calls_removeAllIfExist fun q hq => hremove q (List.mem_cons_of_mem _ hq)
    split
    · exact hpromoted _ hready _ _ (calls_removeIfExists (hremove _ hbackup))
    split
    · exact hpromoted _ hbackup _ _ (.ret trivial)
    split
    · exact hpromoted _ hlegacy _ _ (.ret trivial)
    · exact .ret trivial
  have hexists : ∀ q, (fileExists q).Each P fun _ => True := fun q => calls_fileExists (hstat q)
  unfold recoverCompactionArtifacts
  refine Prog.each_orElse (hexists _) (fun _ _ => .ret trivial) fun _ _ => ?_
  refine Prog.each_orElse (hexists _) (fun _ _ => .ret trivial) fun _ _ => ?_
  refine Prog.each_orElse (hexists _) (fun _ _ => .ret trivial) fun _ _ => ?_
  refine Prog.each_orElse (hexists _) (fun _ _ => .ret trivial) fun _ _ => ?_
  refine Prog.each_orElse (hexists _) (fun _ _ => .ret trivial) fun _ _ => ?_
  refine Prog.each_orElse (hpromote _ _ _ _) (fun _ _ => .ret trivial) fun _ _ => ?_
  refine Prog.each_orElse (calls_removeAllIfExist hremove) (fun _ _ => .ret trivial) fun _ _ => ?_
  split
  · exact Prog.each_orElse (calls_syncParentDirectory hsync) (fun _ _ => .ret trivial) fun _ _ => .ret trivial
  · exact .ret trivial

end

/-! ## The buffered writer -/

section
variable {P : FileOp → Prop} {w : BufferedWriter}

theorem calls_writeFile (hP : ∀ o : FileOp, o.On w.file.inode → P o) (b : Bytes) :
    (w.writeFile b).Each P fun r => r.2.file = w.file :=
  Prog.each_orElse (Prog.each_perform (hP (.writeAt _ _ _) rfl)) (fun _ _ => .ret rfl) fun _ _ => .ret rfl

theorem calls_flush (hP : ∀ o : FileOp, o.On w.file.inode → P o) : w.flush.Each P fun r => r.2.file = w.file := by
  unfold BufferedWriter.flush
  split
  · exact .ret rfl
  split
  · exact .ret rfl
  · exact Prog.each_orElseState (calls_writeFile hP _) (fun _ _ h => .ret h) fun _ _ h => .ret h

theorem calls_spill (fuel : ℕ) (hP : ∀ o : FileOp, o.On w.file.inode → P o) (b : Bytes) :
    (BufferedWriter.spill fuel w b).Each P fun r => r.1.file = w.file := by
  induction fuel generalizing w b with
  | zero => exact .ret rfl
  | succ fuel ih =>
    unfold BufferedWriter.spill
    split
    · split
      · refine Prog.each_bind (calls_writeFile hP b) fun r hr => ?_
        exact (ih (by rw [hr]; exact hP) []).mono fun _ h => h.trans hr
      · refine Prog.each_bind (calls_flush hP) fun r hr => ?_
        exact (ih (by rw [hr]; exact hP) _).mono fun _ h => h.trans hr
    · exact .ret rfl

theorem calls_write (hP : ∀ o : FileOp, o.On w.file.inode → P o) (b : Bytes) :
    (w.write b).Each P fun w' => w'.file = w.file := by
  refine Prog.each_bind (calls_spill 2 hP b) ?_
  rintro ⟨w', rest⟩ h
  dsimp only
  split
  · exact .ret h
  · exact .ret h

end

end AppendStore
