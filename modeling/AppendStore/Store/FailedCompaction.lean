import AppendStore.Store.Calls
import AppendStore.Store.InstallFaults
import AppendStore.Store.LiveIndex
import AppendStore.Store.Secondary

/-! # A `Compact` that fails, and the store afterwards

`all_compact` puts the two halves of `Compact` together: whatever fails, it ends as `CompactEnd` says. If one
call fails, the store still serves the records it had, but names of the compaction may be left on the disk.
`RefinesOff` is the relation to the map that such a store keeps: it serves its log on a disk that differs from
the actual one in those names only.
-/

namespace AppendStore
open Library
set_option autoImplicit false

/-! ## The ends of `Compact` -/

theorem compactionName_ne {path q : Path} (hq : q ∈ compactionNames path) : q ≠ path := by
  rintro rfl
  exact path_not_mem_artifacts q (List.mem_append_left [_] hq)

theorem calls_beside {s : Store} {path : Path} (hpath : s.log.path = path) :
    s.prepareCompaction.Each (Beside path) fun r => s.SameSettings r.2 := by
  subst hpath
  refine calls_prepareCompaction (fun _ _ ho => beside_of_on ho) s (beside_stat _ _) (beside_syncDir _ _)
    (fun q hq => beside_remove (compactionName_ne hq)) ?_
    (beside_rename (compactionName_ne (by simp [compactionNames])))
  exact ⟨fun heq => absurd (FileOp.openFile.inj heq).2.2 (by decide), by rintro ⟨⟩, by rintro ⟨⟩, by rintro ⟨⟩⟩

/-- How a `Compact` can end: without a complete new log, or as its installation ended. -/
inductive CompactEnd (K : Set ℕ) (d : Disk) (s : Store) (path : Path) (recs : List (Rec logVersion))
    (r : Except Err Unit × Store) (t : Disk.Run) : Prop
  | unprepared (hstore : SortedOnly s r.2) (hdisk : Preparing d t.disk path) (hsound : t.disk.Sound)
      (hnoted : attempts path t.journal = ⟨[], [], [], []⟩)
  | installed (base : Disk) (s1 : Store) (hstore : SortedOnly s s1) (hbase : Preparing d base path)
      (hready : Prepared base path d.next recs) (hnext : d.next < base.next)
      (hend : InstallEnd K base path s1 ⟨logVersion, 0, 0⟩ s.log.file.inode d.next
        (replay s.options.indexedFields (compacted recs)) r t)

theorem SortedOnly.log {s s' : Store} (h : SortedOnly s s') : s'.log = s.log := by
  cases h with
  | same => rfl
  | sorted => rfl

theorem SortedOnly.options {s s' : Store} (h : SortedOnly s s') : s'.options = s.options := by
  cases h with
  | same => rfl
  | sorted => rfl

theorem SortedOnly.setCompacting {s s' : Store} (h : SortedOnly s s') (b : Bool) :
    SortedOnly { s with compacting := b } { s' with compacting := b } := by
  cases h with
  | same => exact .same
  | sorted => exact .sorted

section
variable {K : Set ℕ} {d : Disk} {s : Store} {path : Path} {recs : List (Rec logVersion)}

theorem InstallEnd.setCompacting {base : Disk} {hd : Header} {i n : ℕ} {newIndex : Index}
    {r : Except Err Unit × Store} {t : Disk.Run} (h : InstallEnd K base path s hd i n newIndex r t) (b : Bool) :
    InstallEnd K base path { s with compacting := b } hd i n newIndex (r.1, { r.2 with compacting := b }) t := by
  cases h with
  | switched backup log hlog hstore hstate => exact .switched backup log hlog (by rw [hstore]) hstate
  | kept ready a log hstore hlog ha hstate => exact .kept ready a log (by rw [hstore]) hlog ha hstate
  | stranded b a j hj hb ha hstate => exact .stranded b a j hj hb ha hstate
  | lost b a m hm hb hcontent ha hstate => exact .lost b a m hm hb hcontent ha hstate

/-- **The ends of `Compact`, whatever fails.** -/
theorem all_compact (h : Serves d s path recs) :
    s.compact.All (Disk.Counted K) ⟨d, [], 0⟩ (CompactEnd K d s path recs) := by
  have hflag : ({ s with compacting := false } : Store) = s := by
    rw [← h.compacting]
  unfold Store.compact
  rw [h.writable, h.compacting, if_neg Bool.false_ne_true, Store.compactLocked]
  refine Prog.all_bind (Prog.All.mono (Q := fun (r : Except Err Unit × Store) t =>
    CompactEnd K d s path recs (r.1, { r.2 with compacting := false }) t) ?_ ?_)
  swap
  · rintro ⟨r, s1⟩ t hr
    exact hr
  have hprepare := Disk.all_counted (s := ⟨d, [], 0⟩)
    ((all_prepareCompaction (K := K) h true).and (Disk.all_sound h.sound _))
  have hbeside := (calls_beside (s := { s with compacting := true }) h.pathEq).all (R := Disk.Counted K)
    (I := fun t : Disk.Run => attempts path t.journal = ⟨[], [], [], []⟩)
    (fun o t r t' ho ht hr => by rw [hr.2, attempts_concat, ht, note_beside ho]) (s := ⟨d, [], 0⟩) rfl
  refine Prog.all_orElseState (hprepare.and hbeside) ?_ ?_
  · rintro e s1 t ⟨⟨⟨hdisk, hstore, -⟩, hsound⟩, hnoted, -⟩
    refine .unprepared ?_ hdisk hsound hnoted
    have hset := hstore.setCompacting false
    rwa [hflag] at hset
  · rintro newIndex s1 t ⟨⟨⟨hdisk, hstore, hok⟩, hsound⟩, hnoted, -⟩
    obtain ⟨rfl, hready⟩ := hok newIndex rfl
    have hnext : d.next < t.disk.next := hsound.bounded _ _ hready.ready
    have hlt : s.log.file.inode < d.next := h.sound.bounded _ _ h.dir
    have hmain : t.disk.dir path = some s.log.file.inode := by
      rw [hdisk.dir path fun hmem => compactionName_ne hmem rfl, h.dir]
    have hold : (t.disk.files s.log.file.inode).content = currentHeader ++ concat recs := by
      rw [hdisk.files _ hlt, h.image.content]
    have hlog : s1.log = s.log := hstore.log
    have hstart : Installing t.disk path ⟨some s.log.file.inode, some d.next, none⟩ ⟨[], [], [], []⟩ 0 t := by
      refine ⟨⟨fun x => ?_, fun _ _ => rfl, fun _ _ => rfl, le_rfl, hsound⟩, hnoted, Nat.zero_le _⟩
      cases x with
      | main => exact hmain
      | ready => exact hready.ready
      | backup => exact hready.backup
    refine (all_installCompacted (hlt.trans hnext) hnext (by rw [hold]; exact currentHeader_append_ne_nil _)
      (by rw [hold]; exact readHeaderOf_current _) (by rw [hready.content]; exact currentHeader_append_ne_nil _)
      (by rw [hready.content]; exact readHeaderOf_current _) hstart (by rw [hlog]; exact h.image.isOpen)
      (by rw [hlog]; exact h.pathEq)).mono ?_
    intro r t' hend
    have hset := hstore.setCompacting false
    rw [hflag] at hset
    exact .installed t.disk _ hset hdisk hready hnext (hend.setCompacting false)

/-! ## The store after one failure -/

/-- A disk like `d` without the names of a compaction. -/
structure Tidied (path : Path) (d d1 : Disk) : Prop where
  agree : AgreeOff (· ∈ compactionNames path) d d1
  gone : ∀ q ∈ compactionNames path, d1.dir q = none
  sound : d1.Sound

theorem exists_tidied (path : Path) (hs : d.Sound) : ∃ d1, Tidied path d d1 := by
  obtain ⟨d1, hexec, hsame, hdir⟩ := exec_removeAllIfExist (compactionNames path) d
  have hsound := hs.exec (removeAllIfExist (compactionNames path))
  rw [hexec] at hsound
  refine ⟨d1, ⟨fun q hq => ?_, hsame.files, hsame.next, hsame.locked, hsame.mappable⟩, fun q hq => ?_, hsound⟩
  · rw [hdir, if_neg hq]
  · rw [hdir, if_pos hq]

theorem Tidied.main {d1 : Disk} (h : Tidied path d d1) : d1.dir path = d.dir path :=
  h.agree.dir path fun hmem => compactionName_ne hmem rfl

/-- What is needed for a store to serve a log once the names of a compaction are gone. -/
theorem Serves.tidied (h : Serves d s path recs) {d' d1 : Disk} (ht : Tidied path d' d1)
    (hother : ∀ q, q ≠ path → q ∉ compactionNames path → d'.dir q = d.dir q) {log : AppendLog} {index : Index}
    {cache : LruCache} {recs' : List (Rec logVersion)} (himage : LogImage d' log currentHeader recs')
    (hpath : log.path = path) (hro : log.readOnlyFeatures = 0) (hmain : d'.dir path = some log.file.inode)
    (hindex : index.Same (replay s.options.indexedFields recs')) (hsorted : index.Sorted) (hcache : cache.WF)
    (hcached : cache.Holds fun k v => ∃ a, (k, (v, a)) ∈ contents recs') :
    Serves d1 { s with log := log, index := index, cache := cache } path recs' where
  image := himage.of_same ⟨rfl, rfl, rfl, rfl, rfl⟩ rfl (by rw [ht.agree.files])
  pathEq := hpath
  dir := ht.main.trans hmain
  readOnlyFeatures := hro
  readOnlyReason := h.readOnlyReason
  closed := h.closed
  compacting := h.compacting
  index := hindex
  sorted := hsorted
  cacheWF := hcache
  cached := hcached
  noArtifacts := by
    intro q hq
    by_cases hname : q ∈ compactionNames path
    · exact ht.gone q hname
    · have hne : q ≠ path := fun heq => path_not_mem_artifacts path (heq ▸ hq)
      rw [ht.agree.dir q hname, hother q hne hname, h.noArtifacts q hq]
  lock := by
    have hname : path ++ lockFileSuffix ∉ compactionNames path :=
      fun hmem => lock_not_mem_artifacts path (List.mem_append_left [_] hmem)
    have hdir := (ht.agree.dir _ hname).trans (hother _ (path_ne_append (by decide)).symm hname)
    rw [hdir]
    exact h.lock
  sound := ht.sound

theorem SortedOnly.serves {s1 : Store} (hs : SortedOnly s s1) (h : Serves d s path recs) : Serves d s1 path recs := by
  cases hs with
  | same => exact h
  | sorted => exact h.sortKeys

theorem Arranged.others {base d' : Disk} {b : Slots} (h : Arranged base path b d') (hbase : Preparing d base path)
    {q : Path} (hne : q ≠ path) (hq : q ∉ compactionNames path) : d'.dir q = d.dir q := by
  rw [h.names q ?_, hbase.dir q hq]
  intro x
  cases x with
  | main => exact hne
  | ready => exact fun heq => hq (heq ▸ by simp [compactionNames, Slot.path])
  | backup => exact fun heq => hq (heq ▸ by simp [compactionNames, Slot.path])

/-- **After a `Compact` in which at most one call failed, the store serves what it served before**, but for names
of the compaction that are left. -/
theorem CompactEnd.serves (h : Serves d s path recs) {r : Except Err Unit × Store} {t : Disk.Run}
    (hend : CompactEnd K d s path recs r t) (hone : t.faults ≤ 1) :
    t.disk.Sound ∧ r.2.options = s.options ∧ ∀ d1, Tidied path t.disk d1 →
      ∃ recs', contents recs' = contents recs ∧ Serves d1 r.2 path recs' := by
  have hlt : s.log.file.inode < d.next := h.sound.bounded _ _ h.dir
  cases hend with
  | unprepared hstore hdisk hsound hnoted =>
    refine ⟨hsound, hstore.options, fun d1 ht => ⟨recs, rfl, ?_⟩⟩
    have h1 := hstore.serves h
    have hlog := hstore.log
    refine h1.tidied ht (fun q _ hq => hdisk.dir q hq) (h1.image.of_same ⟨rfl, rfl, rfl, rfl, rfl⟩ rfl ?_) h1.pathEq
      h1.readOnlyFeatures ?_ h1.index h1.sorted h1.cacheWF h1.cached
    · rw [hlog, hdisk.files _ hlt]
    · rw [hdisk.dir path fun hmem => compactionName_ne hmem rfl]
      exact h1.dir
  | installed base s1 hstore hbase hready hnext hend =>
    have h1 := hstore.serves h
    cases hend with
    | switched backup log hlog hr hstate =>
      refine ⟨hstate.disk.sound, by rw [hr]; exact hstore.options, fun d1 ht => ?_⟩
      refine ⟨compacted recs, contents_compacted recs, ?_⟩
      have hfile : t.disk.files d.next = base.files d.next := hstate.disk.files _ hnext
      rw [hr]
      refine h1.tidied ht (fun q hne hq => hstate.disk.others hbase hne hq)
        (hlog.image rfl currentHeader_length (by rw [hfile, hready.content]) (by rw [hfile])) hlog.path
        hlog.readOnlyFeatures ?_ (by rw [hstore.options]; exact Index.same_refl _) (replay_sorted _ _)
        (LruCache.clear_wf _) (LruCache.clear_holds _)
      rw [hlog.file]
      exact hstate.disk.slots .main
    | kept ready a log hr hlog ha hstate =>
      refine ⟨hstate.disk.sound, by rw [hr]; exact hstore.options, fun d1 ht => ⟨recs, rfl, ?_⟩⟩
      have hlog : Opened log path s.log.file.inode ⟨logVersion, 0, 0⟩ (base.files s.log.file.inode).content.length :=
        hlog.resolve_right (by omega)
      have hfile : t.disk.files s.log.file.inode = d.files s.log.file.inode := by
        rw [hstate.disk.files _ (hlt.trans hnext), hbase.files _ hlt]
      have hbfile : base.files s.log.file.inode = d.files s.log.file.inode := hbase.files _ hlt
      rw [hr]
      refine h1.tidied ht (fun q hne hq => hstate.disk.others hbase hne hq)
        (hlog.image rfl currentHeader_length (by rw [hfile, h.image.content]) (by rw [hfile, hbfile])) hlog.path
        hlog.readOnlyFeatures ?_ h1.index h1.sorted h1.cacheWF h1.cached
      rw [hlog.file]
      exact hstate.disk.slots .main
    | stranded b a j hj hb ha hstate => exact absurd hstate.faults (by omega)
    | lost b a m hm hb hcontent ha hstate => exact absurd hstate.faults (by omega)

end

/-! ## The store goes on -/

/-- The session runs a store that serves what the map lists, but for names of a compaction on its disk. -/
def RefinesOff (path : Path) (x : Session) (m : KeyMap) : Prop :=
  x.disk.Sound ∧ ∃ d1, AgreeOff (· ∈ compactionNames path) x.disk d1 ∧ Refines path ⟨x.store, d1⟩ m

/-- The options of the store after a call. -/
def Call.optionsAfter (options : Options) : Call → Options
  | .reopen options' => options'.withDefaults
  | _ => options

section
variable {path : Path} {x y : Session} {m : KeyMap} {d1 : Disk}

theorem agreeOff_refl (S : Path → Prop) (d : Disk) : AgreeOff S d d := ⟨fun _ _ => rfl, rfl, rfl, rfl, rfl⟩

theorem Refines.off (h : Refines path x m) : RefinesOff path x m :=
  ⟨h.choose_spec.1.sound, x.disk, agreeOff_refl _ _, h⟩

/-- A call that uses handles only cannot tell the two disks apart. -/
theorem RefinesOff.handles (hs : x.disk.Sound) (hd : AgreeOff (· ∈ compactionNames path) x.disk d1) {α : Type}
    {p : FileProg (α × Store)}
    (hp : p.Each (FileOp.Avoids (· ∈ compactionNames path)) fun r => r.2.options = x.store.options)
    (href : Refines path ⟨(Disk.exec p d1).1.2, (Disk.exec p d1).2⟩ m) :
    (Disk.exec p x.disk).1.1 = (Disk.exec p d1).1.1 ∧
      RefinesOff path ⟨(Disk.exec p x.disk).1.2, (Disk.exec p x.disk).2⟩ m ∧
      (Disk.exec p x.disk).1.2.options = x.store.options := by
  obtain ⟨heq, hagree⟩ := hd.exec hp
  rw [heq] at href
  refine ⟨by rw [heq], ⟨hs.exec p, _, hagree, href⟩, ?_⟩
  exact (hp.run (h := Disk.answer) (I := fun _ => True) (fun _ _ _ h => h) trivial).2

theorem avoids_nothing {α : Type} (p : FileProg α) : p.Each (FileOp.Avoids fun _ => False) fun _ => True := by
  induction p with
  | ret a => exact .ret trivial
  | op o k ih =>
    refine .op ?_ ih
    cases o <;> first | trivial | exact id | exact ⟨id, id⟩

/-- `Compact` first removes the names in which the disks differ. -/
theorem agreeOff_compact {d : Disk} {s : Store} {recs : List (Rec logVersion)}
    (hd : AgreeOff (· ∈ compactionNames path) d d1) (h : Serves d1 s path recs) :
    (Disk.exec s.compact d1).1 = (Disk.exec s.compact d).1 ∧
      AgreeOff (· ∈ compactionNames path) (Disk.exec s.compact d).2 (Disk.exec s.compact d1).2 := by
  obtain ⟨bad, good, hprog⟩ : ∃ bad good,
      s.compact = (removeAllIfExist (compactionNames path)).orElse bad good := by
    unfold Store.compact
    rw [h.writable, h.compacting, if_neg Bool.false_ne_true]
    rw [Store.compactLocked, Store.prepareCompaction_eq]
    dsimp only
    rw [h.pathEq, Prog.orElseState, Prog.orElse_bind, Prog.orElse_bind]
    exact ⟨_, _, rfl⟩
  obtain ⟨e, hexec, hsame, hdir⟩ := exec_removeAllIfExist (compactionNames path) d
  obtain ⟨e1, hexec1, hsame1, hdir1⟩ := exec_removeAllIfExist (compactionNames path) d1
  have hnow : AgreeOff (fun _ => False) e e1 := by
    refine ⟨fun q _ => ?_, by rw [hsame.files, hsame1.files, hd.files], by rw [hsame.next, hsame1.next, hd.next],
      by rw [hsame.locked, hsame1.locked, hd.locked], by rw [hsame.mappable, hsame1.mappable, hd.mappable]⟩
    rw [hdir, hdir1]
    by_cases hq : q ∈ compactionNames path
    · rw [if_pos hq, if_pos hq]
    · rw [if_neg hq, if_neg hq, hd.dir q hq]
  rw [hprog, Disk.exec_orElse_ok hexec, Disk.exec_orElse_ok hexec1]
  obtain ⟨heq, hagree⟩ := hnow.exec (avoids_nothing (good ()))
  exact ⟨heq, fun q _ => hagree.dir q id, hagree.files, hagree.next, hagree.locked, hagree.mappable⟩

/-- **Every call answers as the map does**, also where names of a compaction are left. -/
theorem call_refinesOff (c : Call) (hc : c.Accepted path) (h : RefinesOff path x m) :
    (x.call path c).1 = (m.call c).1 ∧ RefinesOff path (x.call path c).2 (m.call c).2 ∧
      (x.call path c).2.store.options = c.optionsAfter x.store.options := by
  obtain ⟨hs, d1, hd, href⟩ := h
  have hP : ∀ (i : ℕ) (o : FileOp), o.On i → o.Avoids (· ∈ compactionNames path) := fun _ _ ho => avoids_of_on ho
  obtain ⟨hans, hnext⟩ := call_refines c hc href
  cases c with
  | put key value options =>
    obtain ⟨heq, hrel, hopt⟩ := RefinesOff.handles hs hd
      ((calls_put hP x.store key value options).mono fun _ hr => hr.options) hnext
    exact ⟨(congrArg Answer.done heq).trans hans, hrel, hopt⟩
  | delete key =>
    obtain ⟨heq, hrel, hopt⟩ := RefinesOff.handles hs hd
      ((calls_delete hP x.store key).mono fun _ hr => hr.options) hnext
    exact ⟨(congrArg Answer.done heq).trans hans, hrel, hopt⟩
  | get key =>
    obtain ⟨heq, hrel, hopt⟩ := RefinesOff.handles hs hd ((calls_get hP x.store key).mono fun _ hr => hr.options) hnext
    exact ⟨(congrArg Answer.value heq).trans hans, hrel, hopt⟩
  | forEach stop =>
    obtain ⟨heq, hrel, hopt⟩ := RefinesOff.handles hs hd
      ((calls_forEach hP x.store (remember stop) []).mono fun _ hr => hr.options) hnext
    exact ⟨(congrArg (fun r : Except Err Unit × List (Bytes × Bytes) => Answer.visited r.1 r.2) heq).trans hans,
      hrel, hopt⟩
  | getMetadata key => exact ⟨hans, ⟨hs, d1, hd, hnext⟩, rfl⟩
  | contains key => exact ⟨hans, ⟨hs, d1, hd, hnext⟩, rfl⟩
  | len => exact ⟨hans, ⟨hs, d1, hd, hnext⟩, rfl⟩
  | keys => exact ⟨hans, ⟨hs, d1, hd, hnext⟩, rfl⟩
  | compact =>
    obtain ⟨recs, hserves, hshows⟩ := href
    change Serves d1 x.store path recs at hserves
    obtain ⟨s', d', hexec, -, hopt, -⟩ := exec_compact hserves
    obtain ⟨heq, hagree⟩ := agreeOff_compact hd hserves
    have hrel : Refines path ⟨(Disk.exec x.store.compact x.disk).1.2, (Disk.exec x.store.compact d1).2⟩ m := by
      rw [← heq]
      exact hnext
    refine ⟨(congrArg (fun r : Except Err Unit × Store => Answer.done r.1) heq.symm).trans hans,
      ⟨hs.exec _, _, hagree, hrel⟩, ?_⟩
    change (Disk.exec x.store.compact x.disk).1.2.options = x.store.options
    rw [← heq, hexec]
    exact hopt
  | reopen options =>
    obtain ⟨recs, hserves, hshows⟩ := href
    obtain ⟨heq, hagree⟩ := hd.exec (calls_storeClose hP (fun _ => trivial) x.store)
    obtain ⟨s1, e1, hclose, hrest⟩ := exec_close hserves
    rw [hclose] at heq hagree
    obtain ⟨i, hmain, hcontent⟩ := hrest.main
    have hname : path ∉ compactionNames path := fun hmem => compactionName_ne hmem rfl
    have hlock : path ++ lockFileSuffix ∉ compactionNames path :=
      fun hmem => lock_not_mem_artifacts path (List.mem_append_left [_] hmem)
    have hfree : LockFree (Disk.exec x.store.close x.disk).2 path := by
      intro j hj
      rw [← hagree.dir _ hlock] at hj
      rw [← hagree.locked]
      exact hrest.lockFree j hj
    have hfound : recoveredMain (Disk.exec x.store.close x.disk).2.dir path = some i := by
      rw [recoveredMain, ← hagree.dir path hname, hmain]
      rfl
    obtain ⟨s2, d2, hopen, hserves2, hopt⟩ := exec_openStore_current hc (hs.exec x.store.close) hfree hfound
      (by rw [← hagree.files, hcontent])
    have hcall : x.call path (.reopen options) = (.reopened none none, ⟨s2, d2⟩) := by
      have hexec : Disk.exec x.store.close x.disk = ((none, s1), (Disk.exec x.store.close x.disk).2) :=
        Prod.ext heq.symm rfl
      simp only [Session.call]
      rw [hexec]
      dsimp only
      rw [hopen]
    rw [hcall]
    exact ⟨rfl, Refines.off ⟨recs, hserves2, hshows⟩, hopt⟩

/-! ## `KeysBy` -/

theorem replay_mirrors (fields : List Bytes) (recs : List (Rec logVersion)) :
    (replay fields recs).Mirrors ∧ (replay fields recs).indexedFields = (newIndex fields).indexedFields := by
  induction recs using List.reverseRecOn with
  | nil => exact ⟨Index.newIndex_mirrors fields, rfl⟩
  | append_singleton recs r ih =>
    rw [replay_concat, indexStep]
    split
    · exact ⟨ih.1.delete _, (Index.delete_indexedFields _ _).trans ih.2⟩
    · exact ⟨ih.1.put _ _, (Index.put_indexedFields _ _ _).trans ih.2⟩

/-- The keys that carry an attribute, in terms of the map. -/
theorem carries_iff {s : Store} {recs : List (Rec logVersion)} (h : Serves d1 s path recs)
    (hm : m.Shows (contents recs)) (field value key : Bytes) : Carries s.index.entries field value key ↔
      ∃ v attributes, m.entries.lookup key = some (v, attributes) ∧ attributes.lookup field = some value := by
  have hmem : ∀ v attributes, m.entries.lookup key = some (v, attributes) ↔ (key, (v, attributes)) ∈ contents recs :=
    fun v attributes => hm.1.2 key (v, attributes)
  constructor
  · rintro ⟨e, he, hattr⟩
    obtain ⟨y, hy, rfl⟩ := h.get_some he
    exact ⟨_, _, (hmem _ _).mpr (List.mem_map_of_mem (f := fun x => (x.1, x.2.2.payload)) hy), hattr⟩
  · rintro ⟨v, attributes, hlookup, hattr⟩
    obtain ⟨y, hy, heq⟩ := List.mem_map.mp ((hmem v attributes).mp hlookup)
    cases heq
    refine ⟨liveEntry y.2, ?_, hattr⟩
    have hget := h.index.get_eq y.1
    exact hget.trans (replay_lookup _ _ hy)

/-- `KeysBy` depends on the map and on the indexed fields only. -/
theorem keysBy_congr (hx : RefinesOff path x m) (hy : RefinesOff path y m)
    (hfields : x.store.options.indexedFields = y.store.options.indexedFields) (field value : Bytes) :
    x.store.keysBy field value = y.store.keysBy field value := by
  obtain ⟨-, dx, -, recs, hsx, hmx⟩ := hx
  obtain ⟨-, dy, -, recs', hsy, hmy⟩ := hy
  change Serves dx x.store path recs at hsx
  change Serves dy y.store path recs' at hsy
  obtain ⟨hmir, hidx⟩ := replay_mirrors x.store.options.indexedFields recs
  obtain ⟨hmir', hidx'⟩ := replay_mirrors y.store.options.indexedFields recs'
  have hmx' : x.store.index.Mirrors := hmir.of_same hsx.index
  have hmy' : y.store.index.Mirrors := hmir'.of_same hsy.index
  have hsame : x.store.index.indexedFields = y.store.index.indexedFields := by
    rw [hsx.index.indexedFields, hsy.index.indexedFields, hidx, hidx', hfields]
  by_cases hfield : field ∈ x.store.index.indexedFields
  · obtain ⟨hnodup, hmem⟩ := hmx'.keysBy hfield value
    obtain ⟨hnodup', hmem'⟩ := hmy'.keysBy (hsame ▸ hfield) value
    refine (Multiset.Nodup.ext hnodup hnodup').mpr fun k => ?_
    rw [hmem, hmem', carries_iff hsx hmx, carries_iff hsy hmy]
  · exact ((hmx'.not_indexed hfield).1 value).trans ((hmy'.not_indexed (hsame ▸ hfield)).1 value).symm

/-! ## One failure cannot be seen -/

/-- Two sessions that run stores with the same contents and the same options. -/
def Alike (path : Path) (x y : Session) : Prop :=
  x.store.options = y.store.options ∧ ∃ m, RefinesOff path x m ∧ RefinesOff path y m

theorem Alike.step (h : Alike path x y) (c : Call) (hc : c.Accepted path) :
    (x.call path c).1 = (y.call path c).1 ∧ Alike path (x.call path c).2 (y.call path c).2 := by
  obtain ⟨hopt, m, hx, hy⟩ := h
  obtain ⟨hansx, hrelx, hoptx⟩ := call_refinesOff c hc hx
  obtain ⟨hansy, hrely, hopty⟩ := call_refinesOff c hc hy
  exact ⟨hansx.trans hansy.symm, by rw [hoptx, hopty, hopt], _, hrelx, hrely⟩

/-- **A `Compact` in which one call fails cannot be seen.** Whatever is called afterwards, the store answers as it
would have without that `Compact`: as the map does that lists what it held. -/
theorem failed_compact_invisible (h : Reachable path x) {faults : Disk.Faults} (hone : Disk.Faults.count faults ≤ 1)
    {e : Err} {s : Store} {d : Disk} {left : Disk.Faults}
    (hfail : Disk.execFaulty x.store.compact x.disk faults = ((.error e, s), d, left)) :
    ∃ m, Refines path x m ∧ ∀ calls : List Call, (∀ c ∈ calls, c.Accepted path) →
      answers (Session.call path) ⟨s, d⟩ calls = answers (Session.call path) x calls ∧
      answers (Session.call path) ⟨s, d⟩ calls = answers KeyMap.call m calls ∧
      ∀ field value, (final (Session.call path) ⟨s, d⟩ calls).store.keysBy field value =
        (final (Session.call path) x calls).store.keysBy field value := by
  obtain ⟨recs, hserves⟩ := h.serves
  obtain ⟨m, hm⟩ := exists_shows recs
  obtain ⟨n, hn, hend⟩ := Disk.All.counted (all_compact (K := Set.univ) hserves) faults fun _ _ => Set.mem_univ _
  obtain ⟨hres, hdisk⟩ := Disk.execNoted_eq x.store.compact x.disk faults
  rw [hfail] at hres hdisk
  obtain ⟨hsound, hopt, htidy⟩ := hend.serves hserves (hn.trans hone)
  rw [hres] at hopt htidy
  dsimp only at hsound hopt htidy hdisk
  rw [hdisk] at hsound htidy
  obtain ⟨d1, ht⟩ := exists_tidied path hsound
  obtain ⟨recs', hcontents, hserves'⟩ := htidy d1 ht
  have hoff : RefinesOff path ⟨s, d⟩ m := ⟨hsound, d1, ht.agree, recs', hserves', by rw [hcontents]; exact hm⟩
  have hbefore : RefinesOff path x m := Refines.off ⟨recs, hserves, hm⟩
  refine ⟨m, ⟨recs, hserves, hm⟩, fun calls hcalls => ⟨?_, ?_, fun field value => ?_⟩⟩
  · exact answers_eq calls (R := Alike path) (fun c hc _ _ hR => Alike.step hR c (hcalls c hc)) ⟨hopt, m, hoff, hbefore⟩
  · refine answers_eq calls (R := RefinesOff path) (fun c hc _ _ hR => ?_) hoff
    exact ⟨(call_refinesOff c (hcalls c hc) hR).1, (call_refinesOff c (hcalls c hc) hR).2.1⟩
  · obtain ⟨hopt', m', hx, hy⟩ : Alike path (final (Session.call path) ⟨s, d⟩ calls)
        (final (Session.call path) x calls) :=
      final_related calls (R := Alike path) (fun c hc _ _ hR => (Alike.step hR c (hcalls c hc)).2)
        ⟨hopt, m, hoff, hbefore⟩
    exact keysBy_congr hx hy (by rw [hopt']) field value

/-- The install rename of a `Compact` with two keys fails. -/
def installFails : Disk.Faults := List.replicate 17 none ++ [some 0]

/-- A client that goes on after the failure. -/
def laterCalls : List Call := [.get [1], .put [3] [4] none, .compact, .reopen .zero, .get [1], .get [3], .len]

theorem failed_compact_invisible_install : ∃ x e s d left, worked "db" .zero busyCalls = some x ∧
    Disk.execFaulty x.store.compact x.disk installFails = ((.error e, s), d, left) ∧
    answers (Session.call "db") ⟨s, d⟩ laterCalls = answers (Session.call "db") x laterCalls ∧
    answers (Session.call "db") ⟨s, d⟩ laterCalls =
      [.value (.ok [5, 6]), .done (.ok ()), .done (.ok ()), .reopened none none, .value (.ok [5, 6]),
        .value (.ok [4]), .count 3] := by
  have hacc : Options.zero.Accepted "db" := zero_accepted (by decide)
  obtain ⟨x, hx, hreach⟩ := worked_reachable hacc (busyCalls_accepted "db")
  obtain ⟨x', hx', hrefines⟩ := worked_refines hacc (busyCalls_accepted "db")
  obtain rfl := Option.some.inj (hx.symm.trans hx')
  have hfails : (worked "db" .zero busyCalls).map (fun x =>
      (Disk.execFaulty x.store.compact x.disk installFails).1.1.isOk) = some false := by
    decide +kernel
  rw [hx, Option.map_some, Option.some.injEq] at hfails
  generalize hrun : Disk.execFaulty x.store.compact x.disk installFails = r at hfails
  obtain ⟨⟨res, s⟩, d, left⟩ := r
  cases res with
  | ok _ => cases hfails
  | error e =>
    have hlater : ∀ c ∈ laterCalls, c.Accepted "db" := by simp [laterCalls, Call.Accepted, hacc]
    obtain ⟨m, -, hcalls⟩ := failed_compact_invisible hreach (by decide) hrun
    obtain ⟨hsame, -⟩ := hcalls laterCalls hlater
    refine ⟨x, e, s, d, left, hx, hrun, hsame, hsame.trans ?_⟩
    rw [answers_eq laterCalls (R := Refines "db") (fun c hc _ _ hR => call_refines c (hlater c hc) hR) hrefines]
    decide

end

end AppendStore
