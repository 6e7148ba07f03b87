import AppendStore.Log.Calls
import AppendStore.Store.CompactionFaults

/-! # Which calls an operation of the store makes

A running store makes its calls through handles, except that `Compact` also moves and removes names. So a
property `P` that all calls through handles have, all calls of `Put`, `Delete`, `Get` and `ForEach` have. None of
them changes the settings of the store. `Close` also gives the lock back.
-/

namespace AppendStore
open Library
set_option autoImplicit false

/-- What `Open` decides, and only `Close` changes. -/
structure Store.SameSettings (s s' : Store) : Prop where
  options : s'.options = s.options
  lock : s'.lock = s.lock
  closed : s'.closed = s.closed
  path : s'.log.path = s.log.path

theorem Store.sameSettings_refl (s : Store) : s.SameSettings s := ⟨rfl, rfl, rfl, rfl⟩

/-- Only the log, the index and the cache are replaced. -/
theorem Store.sameSettings_update (s : Store) {log : AppendLog} (h : s.log.SameHandle log) (index : Index)
    (cache : LruCache) : s.SameSettings { s with log := log, index := index, cache := cache } :=
  ⟨rfl, rfl, rfl, h.path⟩

theorem Store.SameSettings.trans {s s' s'' : Store} (h : s.SameSettings s') (h' : s'.SameSettings s'') :
    s.SameSettings s'' :=
  ⟨h'.options.trans h.options, h'.lock.trans h.lock, h'.closed.trans h.closed, h'.path.trans h.path⟩

section
variable {P : FileOp → Prop} (hP : ∀ (i : ℕ) (o : FileOp), o.On i → P o)
include hP

/-! ## The log -/

theorem calls_readRecordFromFile (l : AppendLog) (recordOffset storedSize : ℕ) (scratch : Bytes) :
    (l.readRecordFromFile recordOffset storedSize scratch).Each P fun _ => True :=
  Prog.each_orElse (Prog.each_perform (hP _ (.readAt _ _ _) rfl)) (fun _ _ => .ret trivial) fun _ _ => .ret trivial

theorem calls_readRecordAt (l : AppendLog) (recordOffset storedSize : ℕ) :
    (l.readRecordAt recordOffset storedSize).Each P fun _ => True := by
  unfold AppendLog.readRecordAt
  split
  · exact .ret trivial
  split
  · exact Prog.each_bind (Prog.each_perform (hP _ (.mapped _ _ _) rfl)) fun _ _ => .ret trivial
  · exact Prog.each_bind (calls_readRecordFromFile hP l _ _ _) fun _ _ => .ret trivial

theorem calls_readRecordAtInto (l : AppendLog) (recordOffset storedSize : ℕ) (scratch : Bytes) :
    (l.readRecordAtInto recordOffset storedSize scratch).Each P fun _ => True := by
  unfold AppendLog.readRecordAtInto
  split
  · exact .ret trivial
  split
  · refine Prog.each_bind (Prog.each_perform (hP _ (.mapped _ _ _) rfl)) fun _ _ => ?_
    split <;> exact .ret trivial
  · exact calls_readRecordFromFile hP l _ _ _

/-! ## Reading and writing -/

theorem calls_syncMutation (s : Store) (context : String) :
    (s.syncMutation context).Each P fun r => s.SameSettings r.2 := by
  unfold Store.syncMutation
  split
  · exact Prog.each_orElse (calls_syncLog fun o ho => hP _ o ho) (fun _ _ => .ret s.sameSettings_refl) fun _ _ =>
      .ret s.sameSettings_refl
  · exact .ret s.sameSettings_refl

omit hP in
theorem calls_ifWritable {s : Store} {body : FileProg (Except Err Unit × Store)} {Q : Store → Prop} (hs : Q s)
    (hbody : body.Each P fun r => Q r.2) :
    (s.ifWritable (fun e => pure (.error e, s)) body).Each P fun r => Q r.2 := by
  unfold Store.ifWritable
  split
  · exact .ret hs
  split
  · exact .ret hs
  · exact hbody

theorem calls_put (s : Store) (key value : Bytes) (options : Option AttributeRange) :
    (s.put key value options).Each P fun r => s.SameSettings r.2 := by
  refine calls_ifWritable s.sameSettings_refl ?_
  refine Prog.each_orElseState (calls_append (fun o ho => hP _ o ho) _ _ _ _ _)
    (fun _ _ hl => .ret (s.sameSettings_update hl _ _)) fun _ _ hl => ?_
  exact (calls_syncMutation hP _ _).mono fun _ hr => (s.sameSettings_update hl _ _).trans hr

theorem calls_delete (s : Store) (key : Bytes) : (s.delete key).Each P fun r => s.SameSettings r.2 := by
  refine calls_ifWritable s.sameSettings_refl ?_
  split
  · exact .ret s.sameSettings_refl
  · refine Prog.each_orElseState (calls_append (fun o ho => hP _ o ho) _ _ _ _ _)
      (fun _ _ hl => .ret (s.sameSettings_update hl _ _)) fun _ _ hl => ?_
    exact (calls_syncMutation hP _ _).mono fun _ hr => (s.sameSettings_update hl _ _).trans hr

theorem calls_get (s : Store) (key : Bytes) : (s.get key).Each P fun r => s.SameSettings r.2 := by
  unfold Store.get
  split
  · exact .ret s.sameSettings_refl
  split
  · exact .ret ⟨rfl, rfl, rfl, rfl⟩
  · dsimp only
    split
    · exact .ret ⟨rfl, rfl, rfl, rfl⟩
    · exact Prog.each_orElse (calls_readRecordAt hP _ _ _) (fun _ _ => .ret ⟨rfl, rfl, rfl, rfl⟩) fun _ _ =>
        .ret ⟨rfl, rfl, rfl, rfl⟩

theorem calls_visit {β : Type} (log : AppendLog) (index : Index) (fn : Bytes → Bytes → β → β × Option Err)
    (keys : List Bytes) (scratch : Bytes) (b : β) :
    (Store.visit log index fn keys scratch b).Each P fun _ => True := by
  induction keys generalizing scratch b with
  | nil => exact .ret trivial
  | cons key keys ih =>
    rw [Store.visit]
    split
    · exact ih _ _
    · refine Prog.each_bind (calls_readRecordAtInto hP log _ _ _) ?_
      rintro ⟨r, scratch'⟩ -
      dsimp only
      split
      · exact .ret trivial
      · split
        · exact .ret trivial
        · exact ih _ _

theorem calls_forEach {β : Type} (s : Store) (fn : Bytes → Bytes → β → β × Option Err) (b : β) :
    (s.forEach fn b).Each P fun r => s.SameSettings r.2 := by
  unfold Store.forEach
  split
  · exact .ret s.sameSettings_refl
  · exact Prog.each_bind (calls_visit hP _ _ fn _ _ b) fun _ _ => .ret ⟨rfl, rfl, rfl, rfl⟩

omit hP in
theorem calls_release (hclose : ∀ f, P (.close f)) (hunlock : ∀ f, P (.funlock f)) (lock : FileLock) :
    lock.release.Each P fun _ => True := by
  unfold FileLock.release
  split
  · exact .ret trivial
  · refine Prog.each_bind (Prog.each_perform (hunlock _)) fun _ _ => ?_
    exact Prog.each_bind (Prog.each_perform (hclose _)) fun _ _ => .ret trivial

omit hP in
/-- `Close` syncs, closes and unlocks. -/
theorem calls_closing (hsync : ∀ f, P (.fsync f)) (hclose : ∀ f, P (.close f)) (hunlock : ∀ f, P (.funlock f))
    (s : Store) : s.close.Each P fun r => r.2.options = s.options := by
  have hclosing : ({ s with closed := true } : Store).closingSync.Each P fun _ => True := by
    unfold Store.closingSync
    split
    · exact Prog.each_orElse (Prog.each_perform (hsync _)) (fun _ _ => .ret trivial) fun _ _ => .ret trivial
    · exact .ret trivial
  have hlog : s.log.close.Each P fun _ => True := by
    refine Prog.each_bind (Q := fun _ => True) ?_ fun _ _ => .ret trivial
    exact Prog.each_orElse (Prog.each_perform (hclose _)) (fun _ _ => .ret trivial) fun _ _ => .ret trivial
  unfold Store.close
  split
  · exact .ret rfl
  · refine Prog.each_bind hclosing fun _ _ => ?_
    refine Prog.each_bind hlog fun _ _ => ?_
    exact Prog.each_bind (calls_release hclose hunlock _) fun _ _ => .ret rfl

theorem calls_storeClose (hunlock : ∀ f, P (.funlock f)) (s : Store) :
    s.close.Each P fun r => r.2.options = s.options :=
  calls_closing (fun _ => hP _ (.fsync _) rfl) (fun _ => hP _ (.close _) rfl) hunlock s

/-! ## The copy that a compaction makes -/

omit hP in
/-- It reads the old log and writes the new one. -/
theorem calls_copyLive (hread : ∀ o : FileOp, o.Reading → P o) (log : AppendLog) (index : Index) (keys : List Bytes)
    (newLog : AppendLog) (newIndex : Index) (hnew : ∀ o : FileOp, o.On newLog.file.inode → P o) :
    (Store.copyLive log index keys newLog newIndex).Each P fun r => newLog.SameHandle r.2.1 := by
  induction keys generalizing newLog newIndex with
  | nil => exact .ret newLog.sameHandle_refl
  | cons key keys ih =>
    rw [Store.copyLive]
    split
    · exact ih _ _ hnew
    · dsimp only
      refine Prog.each_orElse (Q := fun _ => True) ?_ (fun _ _ => .ret newLog.sameHandle_refl) fun _ _ => ?_
      · split
        · exact calls_readRecordAndExtensionsAt hread log _ _
        · refine Prog.each_orElse (Q := fun _ => True) ?_ (fun _ _ => .ret trivial) fun _ _ => .ret trivial
          exact Prog.each_orElse (Prog.each_perform (hread (.readAt _ _ _) trivial)) (fun _ _ => .ret trivial)
            fun _ _ => .ret trivial
      · refine Prog.each_orElseState (calls_append hnew _ _ _ _ _) (fun _ l hl => .ret hl) fun _ l hl => ?_
        exact (ih l _ (by rw [hl.file]; exact hnew)).mono fun _ hr => hl.trans hr

omit hP in
/-- What comes after the new log is created. -/
theorem calls_fillCompaction (s : Store) {newLog : AppendLog} (hread : ∀ o : FileOp, o.Reading → P o)
    (hnew : ∀ o : FileOp, o.On newLog.file.inode → P o) (hsync : P (.syncDir s.log.path))
    (hremove : ∀ q ∈ compactionNames s.log.path, P (.remove q))
    (hrename : P (.rename (s.log.path ++ compactionTempSuffix) (s.log.path ++ compactionReadySuffix))) :
    (s.fillCompaction newLog).Each P fun r => s.SameSettings r.2 := by
  have htemp : P (.remove (s.log.path ++ compactionTempSuffix)) := hremove _ (by simp [compactionNames])
  have hready : P (.remove (s.log.path ++ compactionReadySuffix)) := hremove _ (by simp [compactionNames])
  have hsorted : s.SameSettings { s with index := s.index.keysSortedByOffset.2 } := ⟨rfl, rfl, rfl, rfl⟩
  -- every way out removes the new log, under the name it has by then
  have hgone : ∀ q, P (.remove q) → ∀ e : Err,
      (do let _ ← Sys.remove q; pure (.error e, { s with index := s.index.keysSortedByOffset.2 }) :
        FileProg (Except Err Index × Store)).Each P fun r => s.SameSettings r.2 :=
    fun q hq e => Prog.each_bind (Prog.each_perform hq) fun _ _ => .ret hsorted
  unfold Store.fillCompaction
  refine Prog.each_orElseState (calls_copyLive hread _ _ _ _ _ hnew) ?_ ?_
  · rintro e ⟨l, index⟩ (hl : newLog.SameHandle l)
    exact Prog.each_bind (calls_close (by rw [hl.file]; exact hnew)) fun _ _ => hgone _ htemp e
  rintro u ⟨l, index⟩ (hl : newLog.SameHandle l)
  have hnew' : ∀ o : FileOp, o.On l.file.inode → P o := by rw [hl.file]; exact hnew
  refine Prog.each_orElse (calls_syncLog hnew') (fun _ _ => ?_) fun _ _ => ?_
  · exact Prog.each_bind (calls_close hnew') fun _ _ => hgone _ htemp _
  refine Prog.each_orElseState (calls_close hnew') (fun _ _ _ => hgone _ htemp _) fun _ _ _ => ?_
  refine Prog.each_orElse (Prog.each_perform hrename) (fun _ _ => hgone _ htemp _) fun _ _ => ?_
  exact Prog.each_orElse (calls_syncParentDirectory hsync) (fun _ _ => hgone _ hready _) fun _ _ => .ret hsorted

/-- The preparation of a compaction: beside its handles it uses the log's name only to ask for the log. -/
theorem calls_prepareCompaction (s : Store) (hstat : P (.stat s.log.path)) (hsync : P (.syncDir s.log.path))
    (hremove : ∀ q ∈ compactionNames s.log.path, P (.remove q))
    (hopen : P (.openFile (s.log.path ++ compactionTempSuffix) true true))
    (hrename : P (.rename (s.log.path ++ compactionTempSuffix) (s.log.path ++ compactionReadySuffix))) :
    s.prepareCompaction.Each P fun r => s.SameSettings r.2 := by
  have hread : ∀ o : FileOp, o.Reading → P o := by
    intro o ho
    cases o with
    | readAt f off n => exact hP _ (.readAt _ _ _) rfl
    | mapped f lo hi => exact hP _ (.mapped _ _ _) rfl
    | _ => exact ho.elim
  rw [Store.prepareCompaction_eq]
  refine Prog.each_orElse (calls_removeAllIfExist hremove) (fun _ _ => .ret s.sameSettings_refl) fun _ _ => ?_
  refine Prog.each_orElse (Prog.each_perform hstat) (fun _ _ => .ret s.sameSettings_refl) fun _ _ => ?_
  refine Prog.each_orElse (calls_createAppendLogMode hP hopen) (fun _ _ => .ret s.sameSettings_refl) fun newLog _ => ?_
  exact calls_fillCompaction s hread (fun o ho => hP _ o ho) hsync hremove hrename

end

end AppendStore
