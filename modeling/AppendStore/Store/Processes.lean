import AppendStore.Library.FileLocks
import AppendStore.Store.Calls
import AppendStore.Store.OpeningCrash
import AppendStore.Store.Refinement

/-! # Several processes, one store

A process opens the store at a path, makes its calls, each of which may depend on the answers it has got so far,
and closes the store (`Process.session`). Any number of processes do this on one disk, their system calls
interleaved in any order. The lock file is all that keeps them apart.

Every call `Open`, the calls in between and `Close` make leaves the lock alone until the lock is given back
(`releasing_body`), so that the processes run as if one after the other: `sessions_serialize`. One map passes
from session to session in the order in which the lock was taken, and a process that does not get the lock is
told that the store is locked.
-/

namespace AppendStore
open Library
set_option autoImplicit false

/-! ## Sessions -/

/-- A process: the options it opens the store with, and the calls it makes. -/
structure Process (β : Type) where
  options : Options
  client : Prog Call (fun _ => Answer) β

/-- The call keeps the store open. -/
def Call.Stays (c : Call) : Prop := ∀ options, c ≠ .reopen options

namespace Store

/-- A call of a client, as a program. -/
def serve (path : Path) (s : Store) : Call → FileProg (Answer × Store)
  | .put key value options => do
    let (r, s) ← s.put key value options
    pure (.done r, s)
  | .delete key => do
    let (r, s) ← s.delete key
    pure (.done r, s)
  | .get key => do
    let (r, s) ← s.get key
    pure (.value r, s)
  | .getMetadata key => pure (.metadata (s.getMetadata key), s)
  | .contains key => pure (.found (s.contains key), s)
  | .len => pure (.count s.len, s)
  | .keys => pure (.keys s.keys, s)
  | .forEach stop => do
    let ((r, seen), s) ← s.forEach (remember stop) []
    pure (.visited r seen, s)
  | .compact => do
    let (r, s) ← s.compact
    pure (.done r, s)
  | .reopen options => do
    let (closeErr, s) ← s.close
    let r ← openStore path options
    match r with
    | .ok s => pure (.reopened closeErr none, s)
    | .error e => pure (.reopened closeErr (some e), s)

/-- The calls of a client, one after the other. -/
def attend {β : Type} (path : Path) : Prog Call (fun _ => Answer) β → Store → FileProg (β × Store)
  | .ret b, s => pure (b, s)
  | .op c k, s => do
    let (a, s) ← s.serve path c
    attend path (k a) s

/-- What a process does with the store once it is open. -/
def finish {β : Type} (path : Path) (client : Prog Call (fun _ => Answer) β) (s : Store) :
    FileProg (Except Err (β × Option Err)) := do
  let (b, s) ← s.attend path client
  let (closeErr, _) ← s.close
  pure (.ok (b, closeErr))

end Store

/-- Open the store, make the calls, close it. -/
def Process.session {β : Type} (path : Path) (p : Process β) : FileProg (Except Err (β × Option Err)) :=
  (openStore path p.options).andThen fun s => s.finish path p.client

/-- A session as a process that works under the lock. -/
def Process.party {β : Type} (path : Path) (p : Process β) : Party (Except Err (β × Option Err)) where
  failed := fun e => .error (.wrap "open store lock" (.os e))
  refused := fun e => .error (if e = .contended then .detail .storeLocked path else .wrap "acquire store lock" (.os e))
  body := fun file =>
    ((openAppendLog path).orElse
      (fun e => do
        let _ ← (⟨some file⟩ : FileLock).release
        pure (.error (.wrap "failed to open append log" e)))
      fun log => recoverOpened path p.options.withDefaults ⟨some file⟩ log).andThen fun s => s.finish path p.client

section
variable {β : Type} {path : Path}

theorem Process.session_eq {p : Process β} (hacc : p.options.Accepted path) :
    p.session path = (p.party path).prog (path ++ lockFileSuffix) := by
  unfold Process.session
  rw [openStore_eq hacc]
  change Prog.op (FileOp.openFile (path ++ lockFileSuffix) true false) _ = Prog.op _ _
  congr 1
  funext r
  cases r with
  | error e => rfl
  | ok file =>
    change Prog.op (FileOp.flock file) _ = Prog.op _ _
    congr 1
    funext r
    cases r <;> rfl

end

/-! ## What leaves the lock alone

Files are read, written, synced and closed through handles, and none of these calls moves a lock. The names that are
moved or removed are others than that of the lock file. -/

section
variable {path : Path} {lockPath : Path}

theorem leaves_of_on {i : ℕ} {o : FileOp} (ho : o.On i) : o.LeavesLock lockPath := by
  cases o with
  | rename a b => exact ho.elim
  | remove p => exact ho.elim
  | flock f => exact ho.elim
  | funlock f => exact ho.elim
  | _ => trivial

theorem leaves_syncLog (l : AppendLog) : l.sync.Each (FileOp.LeavesLock lockPath) fun _ => True :=
  calls_syncLog fun _ => leaves_of_on

theorem leaves_closeLog (l : AppendLog) : l.close.Each (FileOp.LeavesLock lockPath) fun r => r.2.path = l.path :=
  (calls_close fun _ => leaves_of_on).mono fun _ hr => hr.2

theorem leaves_openAppendLogFile (path : Path) : (openAppendLogFile path).Each (FileOp.LeavesLock lockPath)
    fun r => ∀ l, r = .ok l → l.path = path :=
  calls_openAppendLogFile (fun _ _ => leaves_of_on) trivial

theorem artifact_ne_lock {q : Path} (hq : q ∈ artifacts path) : q ≠ path ++ lockFileSuffix := by
  rintro rfl
  exact lock_not_mem_artifacts path hq

theorem main_ne_lock (path : Path) : path ≠ path ++ lockFileSuffix := path_ne_append (by decide)

theorem leaves_openAppendLog (path : Path) : (openAppendLog path).Each (FileOp.LeavesLock (path ++ lockFileSuffix))
    fun r => ∀ l, r = .ok l → l.path = path := by
  have hrecover : (recoverCompactionArtifacts path).Each (FileOp.LeavesLock (path ++ lockFileSuffix)) fun _ => True :=
    calls_recoverCompactionArtifacts (fun _ => trivial) (fun _ => artifact_ne_lock)
      (fun _ hq => ⟨artifact_ne_lock hq, main_ne_lock path⟩) trivial
  exact Prog.each_orElse hrecover (fun _ _ => .ret fun _ h => by cases h) fun _ _ => leaves_openAppendLogFile path

/-! ## The store keeps its lock -/

/-- An open store with this path and this lock. -/
structure Locking (path : Path) (lock : FileLock) (s : Store) : Prop where
  path : s.log.path = path
  lock : s.lock = lock
  closed : s.closed = false

variable {lock : FileLock} {s : Store}

theorem Locking.update (h : Locking path lock s) {log : AppendLog} (hlog : log.path = s.log.path) (index : Index)
    (cache : LruCache) : Locking path lock { s with log := log, index := index, cache := cache } :=
  ⟨hlog.trans h.path, h.lock, h.closed⟩

theorem Locking.same (h : Locking path lock s) {s' : Store} (hs : s.SameSettings s') : Locking path lock s' :=
  ⟨hs.path.trans h.path, hs.lock.trans h.lock, hs.closed.trans h.closed⟩

theorem Locking.reopen (h : Locking path lock s) :
    (s.reopen path).Each (FileOp.LeavesLock lockPath) fun r => Locking path lock r.2 := by
  refine Prog.each_bind (leaves_openAppendLogFile path) fun r hr => ?_
  cases r with
  | ok l => exact .ret ⟨hr l rfl, h.lock, h.closed⟩
  | error e => exact .ret h

theorem Locking.installCompacted (h : Locking path lock s) (newIndex : Index) :
    (s.installCompacted newIndex).Each (FileOp.LeavesLock (path ++ lockFileSuffix)) fun r => Locking path lock r.2 := by
  have hready : path ++ compactionReadySuffix ≠ path ++ lockFileSuffix := artifact_ne_lock (by simp [artifacts])
  have hbackup : path ++ compactionBackupSuffix ≠ path ++ lockFileSuffix := artifact_ne_lock (by simp [artifacts])
  have hmain := main_ne_lock path
  unfold Store.installCompacted
  rw [h.path]
  refine Prog.each_orElseState (leaves_closeLog s.log) (fun _ l hl => ?_) fun _ l hl => ?_
  · refine Prog.each_bind (h.update hl s.index s.cache).reopen fun r hr => ?_
    exact Prog.each_bind (Prog.each_perform (o := FileOp.remove _) hready) fun _ _ => .ret hr
  have hclosed : Locking path lock { s with log := l } := h.update hl s.index s.cache
  refine Prog.each_orElse (Prog.each_perform (o := FileOp.rename _ _) ⟨hmain, hbackup⟩) (fun _ _ => ?_) fun _ _ => ?_
  · refine Prog.each_bind hclosed.reopen fun r hr => ?_
    exact Prog.each_bind (Prog.each_perform (o := FileOp.remove _) hready) fun _ _ => .ret hr
  refine Prog.each_orElse (Prog.each_perform (o := FileOp.rename _ _) ⟨hready, hmain⟩) (fun _ _ => ?_) fun _ _ => ?_
  · refine Prog.each_bind (Prog.each_perform (o := FileOp.rename _ _) ⟨hbackup, hmain⟩) fun _ _ => ?_
    exact Prog.each_bind hclosed.reopen fun r hr => .ret hr
  refine Prog.each_orElse (leaves_openAppendLogFile path) (fun _ _ => ?_) fun log hlog => ?_
  · refine Prog.each_bind (Prog.each_perform (o := FileOp.remove _) hmain) fun _ _ => ?_
    refine Prog.each_bind (Prog.each_perform (o := FileOp.rename _ _) ⟨hbackup, hmain⟩) fun _ _ => ?_
    exact Prog.each_bind hclosed.reopen fun r hr => .ret hr
  have hnew : Locking path lock { s with log := log, index := newIndex, cache := s.cache.clear } :=
    ⟨hlog log rfl, h.lock, h.closed⟩
  refine Prog.each_orElse (calls_removeIfExists hbackup) (fun _ _ => .ret hnew) fun _ _ => ?_
  exact Prog.each_orElse (calls_syncParentDirectory trivial) (fun _ _ => .ret hnew) fun _ _ => .ret hnew

theorem Locking.compactLocked (h : Locking path lock s) :
    s.compactLocked.Each (FileOp.LeavesLock (path ++ lockFileSuffix)) fun r => Locking path lock r.2 := by
  have htemp : path ++ compactionTempSuffix ≠ path ++ lockFileSuffix := artifact_ne_lock (by simp [artifacts])
  have hready : path ++ compactionReadySuffix ≠ path ++ lockFileSuffix := artifact_ne_lock (by simp [artifacts])
  have hprepare : s.prepareCompaction.Each (FileOp.LeavesLock (path ++ lockFileSuffix))
      fun r => s.SameSettings r.2 := by
    refine calls_prepareCompaction (fun _ _ => leaves_of_on) s trivial trivial ?_ trivial ?_
    · rw [h.path]
      exact fun q hq => artifact_ne_lock (List.mem_append_left [_] hq)
    · rw [h.path]
      exact ⟨htemp, hready⟩
  exact Prog.each_orElseState hprepare (fun _ _ hs => .ret (h.same hs)) fun index _ hs =>
    (h.same hs).installCompacted index

theorem Locking.compact (h : Locking path lock s) :
    s.compact.Each (FileOp.LeavesLock (path ++ lockFileSuffix)) fun r => Locking path lock r.2 := by
  refine calls_ifWritable h ?_
  split
  · exact .ret h
  · have hflag : Locking path lock { s with compacting := true } := ⟨h.path, h.lock, h.closed⟩
    exact Prog.each_bind hflag.compactLocked fun r hr => .ret ⟨hr.path, hr.lock, hr.closed⟩

theorem leaves_backUp (s : Store) (path : Path) (v : ℕ) :
    (s.backUp path (Store.migrationInfo path s.options v).backup).Each (FileOp.LeavesLock (path ++ lockFileSuffix))
      fun _ => True := by
  have hne : ∀ t : String, Store.migrationBackup path v ++ t ≠ path ++ lockFileSuffix :=
    fun t => (ne_migrationBackup path v t (by decide)).symm
  have hdst : Store.migrationBackup path v ≠ path ++ lockFileSuffix := by
    have h := hne ""
    rwa [String.append_empty] at h
  rw [backUp_eq]
  split
  · exact .ret trivial
  · unfold Store.backUp
    split
    · exact .ret trivial
    · refine Prog.each_orElse (calls_copyLogFile (fun _ _ => leaves_of_on) trivial trivial trivial (hne _)
        ⟨hne _, hdst⟩ trivial) (fun _ _ => .ret trivial) fun _ _ => .ret trivial

theorem Locking.migrate (h : Locking path lock s) :
    (s.migrate path).Each (FileOp.LeavesLock (path ++ lockFileSuffix)) fun r => Locking path lock r.2 := by
  unfold Store.migrate
  refine Prog.each_orElse (leaves_backUp s path s.log.version) (fun _ _ => .ret h) fun _ _ => ?_
  generalize s.options.onMigrate.bind _ = answer
  cases answer with
  | some e => exact .ret h
  | none =>
    unfold Store.migrateAnswered Store.migrationInfo
    by_cases h4 : s.log.version = 4
    · dsimp only
      rw [if_pos h4]
      exact Prog.each_orElseState (calls_setVersion (fun _ => leaves_of_on) _)
        (fun _ _ hl => .ret (h.update hl.path _ _))
        fun _ _ hl => .ret (h.update hl.path _ _)
    · dsimp only
      rw [if_neg h4]
      exact Prog.each_orElseState h.compact (fun _ _ hs => .ret hs) fun _ _ hs => .ret hs

theorem Locking.recover (h : Locking path lock s) :
    s.recover.Each (FileOp.LeavesLock lockPath) fun r => Locking path lock r.2 :=
  Prog.each_bind (calls_iterate (fun _ => leaves_of_on) _ _) fun _ hr => .ret (h.update hr.path _ _)

theorem Locking.serve (h : Locking path lock s) {c : Call} (hc : c.Stays) :
    (s.serve path c).Each (FileOp.LeavesLock (path ++ lockFileSuffix)) fun r => Locking path lock r.2 := by
  cases c with
  | put key value options =>
    exact Prog.each_bind (calls_put (fun _ _ => leaves_of_on) s key value options) fun _ hr => .ret (h.same hr)
  | delete key => exact Prog.each_bind (calls_delete (fun _ _ => leaves_of_on) s key) fun _ hr => .ret (h.same hr)
  | get key => exact Prog.each_bind (calls_get (fun _ _ => leaves_of_on) s key) fun _ hr => .ret (h.same hr)
  | getMetadata key => exact .ret h
  | contains key => exact .ret h
  | len => exact .ret h
  | keys => exact .ret h
  | forEach stop =>
    exact Prog.each_bind (calls_forEach (fun _ _ => leaves_of_on) s (remember stop) []) fun _ hr => .ret (h.same hr)
  | compact => exact Prog.each_bind h.compact fun _ hr => .ret hr
  | reopen options => exact absurd rfl (hc options)

/-- The calls of a client leave the lock alone. -/
theorem Locking.attend {β : Type} {client : Prog Call (fun _ => Answer) β} {Q : β → Prop}
    (hclient : client.Each Call.Stays Q) (h : Locking path lock s) :
    (s.attend path client).Each (FileOp.LeavesLock (path ++ lockFileSuffix)) fun r => Locking path lock r.2 := by
  induction hclient generalizing s with
  | ret hQ => exact .ret h
  | op hP _ ih => exact Prog.each_bind (h.serve hP) fun r hr => ih r.1 hr

/-- `Close` gives the lock back, and then only closes the lock file. -/
theorem Locking.close {file : OsFile} {γ : Type} (h : Locking path ⟨some file⟩ s) {f : Option Err × Store → FileProg γ}
    (hf : ∀ r, Closes (f r)) : Releasing (path ++ lockFileSuffix) file (s.close >>= f) := by
  refine releasing_append ?_ hf
  unfold Store.close
  rw [if_neg (by rw [h.closed]; exact Bool.false_ne_true)]
  simp only [h.lock]
  have hsync : ({ s with closed := true, lock := ⟨some file⟩ } : Store).closingSync.Each
      (FileOp.LeavesLock (path ++ lockFileSuffix)) fun _ => True := by
    unfold Store.closingSync
    split
    · exact leaves_syncLog _
    · exact .ret trivial
  refine releasing_bind hsync fun _ _ => ?_
  refine releasing_bind (leaves_closeLog s.log) fun _ _ => ?_
  exact .unlock fun _ => .close _ fun _ => .ret _

theorem Locking.finish {β : Type} {file : OsFile} {client : Prog Call (fun _ => Answer) β} {Q : β → Prop}
    (hclient : client.Each Call.Stays Q) (h : Locking path ⟨some file⟩ s) :
    Releasing (path ++ lockFileSuffix) file (s.finish path client) :=
  releasing_bind (h.attend hclient) fun _ hr => hr.close fun _ => .ret _

/-- **A session leaves the lock alone until it gives it back.** -/
theorem releasing_body {β : Type} {p : Process β} {Q : β → Prop} (hclient : p.client.Each Call.Stays Q)
    (file : OsFile) :
    Releasing (path ++ lockFileSuffix) file ((p.party path).body file) := by
  -- a failed `Open` closes the log, gives the lock back and reports its error
  have hfail : ∀ (l : AppendLog) (e : Err) (k : Except Err Store → FileProg (Except Err (β × Option Err))),
      k (.error e) = pure (.error e) → Releasing (path ++ lockFileSuffix) file
        ((do
          let _ ← l.close
          let _ ← (⟨some file⟩ : FileLock).release
          pure (.error e)) >>= k) := by
    intro l e k hk
    rw [Prog.bind_assoc]
    refine releasing_bind (leaves_closeLog l) fun _ _ => ?_
    refine .unlock fun _ => .close _ fun _ => ?_
    change Closes (k (.error e))
    rw [hk]
    exact .ret _
  have hgood : ∀ s, Locking path ⟨some file⟩ s → Releasing (path ++ lockFileSuffix) file (s.finish path p.client) :=
    fun s hs => hs.finish hclient
  unfold Process.party Prog.andThen
  dsimp only
  unfold Prog.orElse
  rw [Prog.bind_assoc]
  refine releasing_bind (leaves_openAppendLog path) fun r hr => ?_
  cases r with
  | error e =>
    exact .unlock fun _ => .close _ fun _ => .ret _
  | ok log =>
    have hstart : Locking path ⟨some file⟩ (newStore p.options.withDefaults ⟨some file⟩ log) := ⟨hr log rfl, rfl, rfl⟩
    dsimp only
    unfold recoverOpened recoverWith
    rw [Prog.orElseState_bind]
    refine releasing_bind hstart.recover ?_
    rintro ⟨r, s⟩ hs
    cases r with
    | error e => exact hfail s.log _ _ rfl
    | ok u =>
      dsimp only
      unfold migrateOlder
      split
      · rw [Prog.orElseState_bind]
        refine releasing_bind hs.migrate ?_
        rintro ⟨r, s'⟩ hs'
        cases r with
        | error e => exact hfail s'.log _ _ rfl
        | ok u => exact hgood s' hs'
      · exact hgood s hs

end

/-! ## One session -/

/-- What a map answers to the calls of a client, and the map they leave. -/
def KeyMap.attend {β : Type} (m : KeyMap) (client : Prog Call (fun _ => Answer) β) : β × KeyMap :=
  client.run (fun c m => m.call c) m

/-- The map after the sessions of some processes. -/
def KeyMap.pass {ι β : Type} (process : ι → Process β) (m : KeyMap) (order : List ι) : KeyMap :=
  order.foldl (fun m i => (m.attend (process i).client).2) m

/-- Nobody has the store open, and its log holds the map; or there is no log, and the map is empty. -/
def Shelved (path : Path) (d : Disk) (m : KeyMap) : Prop :=
  (∃ recs, Resting d path recs ∧ m.Shows (contents recs)) ∨
    (d.Sound ∧ LockFree d path ∧ recoveredMain d.dir path = none ∧ m = .empty)

section
variable {β : Type} {path : Path} {d : Disk} {m : KeyMap}

theorem Shelved.unheld (h : Shelved path d m) : d.Unheld (path ++ lockFileSuffix) := by
  obtain ⟨recs, hrest, -⟩ | ⟨hs, hfree, -, -⟩ := h
  · exact fun k hk => ⟨hrest.sound.bounded _ k hk, hrest.lockFree k hk⟩
  · exact fun k hk => ⟨hs.bounded _ k hk, hfree k hk⟩

theorem Shelved.opens (h : Shelved path d m) {options : Options} (hacc : options.Accepted path) :
    ∃ s d', Disk.exec (openStore path options) d = (.ok s, d') ∧ Refines path ⟨s, d'⟩ m := by
  obtain ⟨recs, hrest, hshows⟩ | ⟨hs, hfree, hnone, rfl⟩ := h
  · obtain ⟨s, d', hopen, hserves, -⟩ := exec_openStore_resting hrest hacc
    exact ⟨s, d', hopen, recs, hserves, hshows⟩
  · obtain ⟨s, d', hopen, hserves, -⟩ := exec_openStore_fresh hacc hs hfree fun i hi => by
      rw [hnone] at hi
      cases hi
    exact ⟨s, d', hopen, [], hserves, KeyMap.shows_empty⟩

/-- A program for a call does what the call does. -/
theorem exec_serve (s : Store) (d : Disk) (c : Call) :
    Disk.exec (s.serve path c) d = (((Session.call path ⟨s, d⟩ c).1, (Session.call path ⟨s, d⟩ c).2.store),
      (Session.call path ⟨s, d⟩ c).2.disk) := by
  cases c with
  | reopen options =>
    simp only [Store.serve, Session.call, Disk.exec_bind]
    cases Disk.exec (openStore path options) (Disk.exec s.close d).2 with
    | mk r d' => cases r <;> rfl
  | _ =>
    simp only [Store.serve, Session.call, Disk.exec_bind]
    rfl

theorem exec_attend (client : Prog Call (fun _ => Answer) β) (s : Store) (d : Disk) :
    Disk.exec (s.attend path client) d =
      (((client.run (fun c x => Session.call path x c) ⟨s, d⟩).1,
        (client.run (fun c x => Session.call path x c) ⟨s, d⟩).2.store),
        (client.run (fun c x => Session.call path x c) ⟨s, d⟩).2.disk) := by
  induction client generalizing s d with
  | ret b => rfl
  | op c k ih =>
    rw [Store.attend, Disk.exec_bind, exec_serve]
    exact ih _ _ _

/-- **A session alone** answers as the map does, and leaves the map it ends with. -/
theorem session_spec {p : Process β} {Q : β → Prop} (hacc : p.options.Accepted path)
    (hclient : p.client.Each Call.Stays Q) (h : Shelved path d m) :
    ∃ d', Disk.exec (p.session path) d = (.ok ((m.attend p.client).1, none), d') ∧
      Shelved path d' (m.attend p.client).2 := by
  obtain ⟨s, d₁, hopen, hrefines⟩ := h.opens hacc
  have hcalls : ∀ c (x : Session) (m : KeyMap), c.Stays → Refines path x m →
      (x.call path c).1 = (m.call c).1 ∧ Refines path (x.call path c).2 (m.call c).2 := by
    intro c x m hc hx
    refine call_refines c ?_ hx
    cases c with
    | reopen options => exact absurd rfl (hc options)
    | _ => trivial
  obtain ⟨hsame, recs, hserves, hshows⟩ := hclient.simulates hcalls hrefines
  obtain ⟨s', d', hclose, hrest⟩ := exec_close hserves
  refine ⟨d', ?_, .inl ⟨recs, hrest, hshows⟩⟩
  rw [Process.session, Disk.exec_andThen_ok hopen, Store.finish, Disk.exec_bind, exec_attend, Disk.exec_bind, hclose]
  exact congrArg (fun b => (Except.ok (b, none), d')) hsame

/-! ## All sessions -/

variable {ι : Type} {process : ι → Process β}

/-- One after the other, the sessions hand on one map. -/
theorem serially_sessions (hacc : ∀ i, (process i).options.Accepted path)
    (hclient : ∀ i, (process i).client.Each Call.Stays fun _ => True) (h : Shelved path d m) (order : List ι) :
    Shelved path (serially (path ++ lockFileSuffix) (fun i => (process i).party path) d order)
      (m.pass process order) := by
  induction order using List.reverseRecOn with
  | nil => exact h
  | append_singleton order i ih =>
    obtain ⟨d', hexec, hstored⟩ := session_spec (hacc i) (hclient i) ih
    rw [Process.session_eq (hacc i)] at hexec
    have hpass : m.pass process (order ++ [i]) = ((m.pass process order).attend (process i).client).2 := by
      rw [KeyMap.pass, List.foldl_append]
      rfl
    rw [serially_append, hexec, hpass]
    exact hstored

/-- **Processes that share a store run as if one after the other.** Let each of them open the store at the same path,
make calls of its own choosing and close the store, and let their system calls be interleaved in any way. Take
the processes in the order in which they give the lock back. Those of them that have finished have got the
answers of one map that was handed from session to session in this order, and every other process that has
finished was told that the store is locked. A process that finished before another one started comes before it.
Once all have finished, at least one has had its session, and the disk holds the map after the last. -/
theorem sessions_serialize [DecidableEq ι] (hacc : ∀ i, (process i).options.Accepted path)
    (hclient : ∀ i, (process i).client.Each Call.Stays fun _ => True) (hstored : Shelved path d m)
    {schedule : List ι} {c₀ c : Threads ι Disk (FileProg (Except Err (β × Option Err)))}
    (hstart : c₀ = ⟨d, fun i => (process i).session path⟩) (hruns : runs procStep c₀ schedule = some c) :
    (turns c₀ schedule).Nodup ∧
    (∀ i r, c.loc i = .ret r →
      (∃ before after, turns c₀ schedule = before ++ i :: after ∧
        r = .ok (((m.pass process before).attend (process i).client).1, none)) ∨
      i ∉ turns c₀ schedule ∧ r = .error (.detail .storeLocked path)) ∧
    (∀ early late c₁, schedule = early ++ late → runs procStep c₀ early = some c₁ →
      ∀ i r j, c₁.loc i = .ret r → c₁.loc j = (process j).session path → i ∈ turns c₀ schedule →
        j ∈ turns c₀ schedule → ∃ before after, turns c₀ schedule = before ++ after ∧ i ∈ before ∧ j ∈ after) ∧
    (Nonempty ι → (∀ i, ∃ r, c.loc i = .ret r) →
      turns c₀ schedule ≠ [] ∧ Shelved path c.shared (m.pass process (turns c₀ schedule))) := by
  have hbody : ∀ i k, Releasing (path ++ lockFileSuffix) ⟨k, true⟩ (((process i).party path).body ⟨k, true⟩) :=
    fun i k => releasing_body (hclient i) _
  have hinit : Serialized (path ++ lockFileSuffix) (fun i => (process i).party path) d [] none c₀ := by
    have h := serialized_start (fun i => (process i).party path) hstored.unheld
    rw [hstart]
    rwa [funext fun i => Process.session_eq (hacc i)]
  obtain ⟨holder, h⟩ := serialized_runs hbody hinit hruns
  rw [List.nil_append] at h
  refine ⟨h.nodup, fun i r hr => ?_, fun early late c₁ hsplit hearly i r j hi hj hmem hmem' => ?_, fun _ hall => ?_⟩
  · obtain ⟨before, after, hsplit, rfl⟩ | ⟨hnot, rfl, -⟩ := h.finished hr
    · refine .inl ⟨before, after, hsplit, ?_⟩
      obtain ⟨d', hexec, -⟩ := session_spec (hacc i) (hclient i) (serially_sessions hacc hclient hstored before)
      rw [Process.session_eq (hacc i)] at hexec
      rw [turnAnswer, hexec]
    · exact .inr ⟨hnot, rfl⟩
  · subst hsplit
    rw [turns_append hearly] at hmem hmem' ⊢
    obtain ⟨holder₁, h₁⟩ := serialized_runs hbody hinit hearly
    refine ⟨_, _, rfl, ?_, ?_⟩
    · obtain hmem | hmem := List.mem_append.mp hmem
      · exact hmem
      · exact absurd hi (turns_unfinished hmem r)
    · obtain hmem | hmem := List.mem_append.mp hmem'
      · obtain ⟨before, after, hturns⟩ := List.append_of_mem hmem
        have hcloses := (h₁.through before j after hturns).1
        rw [hj, Process.session_eq (hacc j)] at hcloses
        cases hcloses
      · exact hmem
  · obtain ⟨hne, hdisk⟩ := h.all_finished hall
    refine ⟨hne, ?_⟩
    rw [hdisk]
    exact serially_sessions hacc hclient hstored _

/-- A process that makes one call. -/
def Process.calling (c : Call) : Process Answer := ⟨.zero, .op c .ret⟩

theorem Process.calling_stays {c : Call} (hc : c.Stays) : (Process.calling c).client.Each Call.Stays fun _ => True :=
  .op hc fun _ => .ret trivial

/-- One process writes, another one reads. -/
def writerAndReader (i : Bool) : Process Answer := .calling (if i then .get [1] else .put [1] [2] none)

theorem writerAndReader_stays (i : Bool) : (writerAndReader i).client.Each Call.Stays fun _ => True := by
  refine Process.calling_stays fun options => ?_
  cases i <;> exact Call.noConfusion

theorem shelved_blank (path : Path) : Shelved path .blank .empty :=
  .inr ⟨Disk.blank_sound, blank_lockFree path, rfl, rfl⟩

/-- The writer gets the lock, the reader asks for it in vain, and the writer goes on. -/
theorem sessions_serialize_contended :
    ∃ n c, runs procStep ⟨.blank, fun i => (writerAndReader i).session "db"⟩
        ([false, false, true, true, true] ++ List.replicate n false) = some c ∧
      c.loc true = .ret (.error (.detail .storeLocked "db")) ∧
      c.loc false = .ret (.ok (.done (.ok ()), none)) ∧
      Shelved "db" c.shared (KeyMap.empty.pass writerAndReader [false]) := by
  have hcontended : ∃ c, runs procStep ⟨.blank, fun i => (writerAndReader i).session "db"⟩
      [false, false, true, true, true] = some c ∧ c.loc true = .ret (.error (.detail .storeLocked "db")) := by
    rw [funext fun i => Process.session_eq (zero_accepted (by decide))]
    exact ⟨_, rfl, rfl⟩
  obtain ⟨c₁, hruns, htrue⟩ := hcontended
  obtain ⟨n, halone⟩ := alone_finishes c₁ false
  have hall := runs_trans hruns halone
  have hloc : (Function.update c₁.loc false (.ret (Disk.exec (c₁.loc false) c₁.shared).1)) true =
      .ret (.error (.detail .storeLocked "db")) := (Function.update_of_ne (by decide) ..).trans htrue
  obtain ⟨hnodup, hanswers, -, hend⟩ := sessions_serialize (fun _ => zero_accepted (by decide)) writerAndReader_stays
    (shelved_blank "db") rfl hall
  have hdone : ∀ i, ∃ r, (Function.update c₁.loc false (.ret (Disk.exec (c₁.loc false) c₁.shared).1)) i = .ret r := by
    intro i
    cases i with
    | true => exact ⟨_, hloc⟩
    | false => exact ⟨_, Function.update_self ..⟩
  obtain ⟨hne, hshelved⟩ := hend ⟨true⟩ hdone
  have hout : true ∉ turns ⟨.blank, fun i => (writerAndReader i).session "db"⟩
      ([false, false, true, true, true] ++ List.replicate n false) := by
    rcases hanswers true _ hloc with ⟨before, after, -, hr⟩ | ⟨hout, -⟩
    · cases hr
    · exact hout
  generalize turns ⟨.blank, fun i => (writerAndReader i).session "db"⟩
    ([false, false, true, true, true] ++ List.replicate n false) = order at hnodup hanswers hne hshelved hout
  -- the reader is not among those who had the lock, so the writer is the only one
  have horder : order = [false] := by
    obtain ⟨i, rest, rfl⟩ := List.exists_cons_of_ne_nil hne
    have hfalse : ∀ j ∈ i :: rest, j = false := fun j hj => by
      cases j with
      | true => exact absurd hj hout
      | false => rfl
    obtain rfl := hfalse i List.mem_cons_self
    rcases rest with _ | ⟨j, rest⟩
    · rfl
    · rw [hfalse j (by simp)] at hnodup
      simp at hnodup
  subst horder
  refine ⟨n, _, hall, hloc, ?_, hshelved⟩
  obtain ⟨r, hr⟩ := hdone false
  rcases hanswers false r hr with ⟨before, after, hsplit, rfl⟩ | ⟨hnot, -⟩
  · obtain rfl : before = [] := by
      rcases before with _ | ⟨j, before⟩
      · rfl
      · simp at hsplit
    exact hr
  · exact absurd List.mem_cons_self hnot

/-- **While the store is locked nobody else touches a file.** Whenever the lock is taken, there is exactly one process
that has it and has yet to give it back, and no call of any other process changes the disk. -/
theorem locked_undisturbed [DecidableEq ι] (hacc : ∀ i, (process i).options.Accepted path)
    (hclient : ∀ i, (process i).client.Each Call.Stays fun _ => True) (hstored : Shelved path d m)
    {schedule : List ι} {c : Threads ι Disk (FileProg (Except Err (β × Option Err)))} {k : ℕ}
    (hruns : runs procStep ⟨d, fun i => (process i).session path⟩ schedule = some c)
    (hk : c.shared.dir (path ++ lockFileSuffix) = some k) (hlocked : c.shared.locked k = true) :
    ∃ i, Releasing (path ++ lockFileSuffix) ⟨k, true⟩ (c.loc i) ∧
      (∀ j, Releasing (path ++ lockFileSuffix) ⟨k, true⟩ (c.loc j) → j = i) ∧
      ∀ j c', j ≠ i → move procStep c j = some c' → c'.shared = c.shared := by
  have hinit := serialized_start (fun i => (process i).party path) hstored.unheld
  rw [← funext fun i => Process.session_eq (hacc i)] at hinit
  obtain ⟨holder, h⟩ := serialized_runs (fun i k => releasing_body (hclient i) _) hinit hruns
  obtain ⟨i, rfl⟩ := h.held hk hlocked
  obtain ⟨hholds, hone⟩ := h.holds hk
  exact ⟨i, hholds, hone, fun j c' hj hmove => h.undisturbed hj hmove⟩

/-- The writer has the lock, and the reader has opened the lock file. -/
theorem locked_undisturbed_writer :
    ∃ c, runs procStep ⟨.blank, fun i => (writerAndReader i).session "db"⟩ [false, true, false] = some c ∧
      c.shared.dir ("db" ++ lockFileSuffix) = some 0 ∧ c.shared.locked 0 = true ∧
      Releasing ("db" ++ lockFileSuffix) ⟨0, true⟩ (c.loc false) ∧
      ∃ c', move procStep c true = some c' ∧ c'.shared = c.shared := by
  have hruns : ∃ c, runs procStep ⟨.blank, fun i => (writerAndReader i).session "db"⟩ [false, true, false] = some c ∧
      c.shared.dir ("db" ++ lockFileSuffix) = some 0 ∧ c.shared.locked 0 = true ∧
      (∃ c', move procStep c true = some c') ∧ ∀ file, ¬ Releasing ("db" ++ lockFileSuffix) file (c.loc true) := by
    rw [funext fun i => Process.session_eq (zero_accepted (by decide))]
    refine ⟨_, rfl, rfl, rfl, ⟨_, rfl⟩, fun file h => ?_⟩
    cases h with
    | op ho _ => exact ho
  obtain ⟨c, hruns, hdir, hlocked, ⟨c', hmove⟩, hreader⟩ := hruns
  obtain ⟨i, hholds, -, hothers⟩ := locked_undisturbed (fun _ => zero_accepted (by decide)) writerAndReader_stays
    (shelved_blank "db") hruns hdir hlocked
  cases i with
  | true => exact absurd hholds (hreader _)
  | false => exact ⟨c, hruns, hdir, hlocked, hholds, c', hmove, hothers true c' (by decide) hmove⟩

end

end AppendStore
