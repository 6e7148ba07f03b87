import AppendStore.Store.CrashPrefix

/-! # What `Open` can return

An `Open` that fails on a file, because of its header or of a record that is neither complete nor cut
short, leaves the file as it was and gives the lock back (`Refused`). From that and from what `Open`
does on a file that reads it follows what a successful `Open` has found (`openStore_ok`), and that the
store it returns serves the records of the file (`openStore_serves`).
-/

namespace AppendStore
open Library
set_option autoImplicit false

/-- The disk after an `Open` that failed: the file that is the log is untouched. -/
structure Refused (d d' : Disk) (path : Path) (i : ℕ) : Prop extends Openable d' path where
  main : d'.dir path = some i
  file : d'.files i = d.files i

theorem exec_acquireFileLock_held {d : Disk} {path : Path} {i : ℕ}
    (hdir : d.dir (path ++ lockFileSuffix) = some i) (hheld : d.locked i = true) :
    Disk.exec (acquireFileLock path) d = (.error (.detail .storeLocked path), d) := by
  have hflock : Disk.exec (Sys.flock ⟨i, true⟩) d = (.error .contended, d) := by
    change Disk.answer (.flock ⟨i, true⟩) d = _
    simp only [Disk.answer, Disk.onOpen_open, hheld, if_true]
    rfl
  unfold acquireFileLock
  rw [Disk.exec_orElse_ok (Disk.exec_open_some hdir true), Disk.exec_orElse_error hflock,
    Disk.exec_bind_eq (Disk.exec_close rfl d)]
  rfl

section
variable {d : Disk} {path : Path} {options : Options} {i : ℕ} {h : Header}

/-- `Open` with a path or options it does not accept. -/
theorem exec_openStore_rejected (hacc : ¬ options.Accepted path) (d : Disk) :
    ∃ e, Disk.exec (openStore path options) d = (.error e, d) :=
  exec_openWith_rejected hacc d

/-- `Open` while another store has the lock. -/
theorem exec_openWith_locked {α : Type} {failed : Err → α} {last : FileLock → Store → FileProg α}
    (hacc : options.Accepted path) (hfree : ¬ LockFree d path) :
    Disk.exec (openWith failed path options last) d = (failed (.detail .storeLocked path), d) := by
  unfold LockFree at hfree
  push Not at hfree
  obtain ⟨i, hdir, hheld⟩ := hfree
  rw [openWith_eq hacc, Disk.exec_orElse_error (exec_acquireFileLock_held hdir (by simpa using hheld))]
  rfl

theorem exec_openStore_locked (hacc : options.Accepted path) (hfree : ¬ LockFree d path) :
    Disk.exec (openStore path options) d = (.error (.detail .storeLocked path), d) :=
  exec_openWith_locked hacc hfree

/-- The lock is given back. -/
theorem Ready.refused {d' : Disk} {lock : FileLock} {j : ℕ} (hs : d.Sound) (hr : Ready d d' path lock)
    (hmain : recoveredMain d.dir path = some i) (hlock : lock.file = some ⟨j, true⟩) :
    Refused d (d'.setLock j false) path i := by
  obtain ⟨k, hk, hkdir⟩ := hr.lockHeld
  rw [hlock, Option.some.injEq, OsFile.mk.injEq] at hk
  refine ⟨⟨hr.noArtifacts, ?_, hr.sound.of_dir rfl rfl⟩, by rw [Disk.dir_setLock, hr.main, hmain],
    hr.files i (recoveredMain_bounded hs hmain)⟩
  intro k' hk'
  rw [Disk.dir_setLock, hkdir, Option.some.injEq] at hk'
  rw [← hk', ← hk.1, Disk.locked_setLock]

variable (hacc : options.Accepted path) (hs : d.Sound) (hfree : LockFree d path)
  (hmain : recoveredMain d.dir path = some i)
include hacc hs hfree hmain

/-- `Open` on a file whose header is refused. -/
theorem exec_openStore_header {e : Err} (hne : (d.files i).content ≠ [])
    (he : readHeaderOf (d.files i).content = .error e) :
    ∃ d', Disk.exec (openStore path options) d = (.error (.wrap "failed to open append log" e), d') ∧
      Refused d d' path i := by
  obtain ⟨lock, d1, hready, hexec⟩ := exec_openStore_ready hacc hs hfree
  obtain ⟨j, hlock, -⟩ := hready.lockHeld
  have hfile : d1.files i = d.files i := hready.files i (recoveredMain_bounded hs hmain)
  have hopen := exec_openAppendLogFile_error (hready.settled hmain).dir (by rw [hfile]; exact hne)
    (by rw [hfile]; exact he)
  refine ⟨d1.setLock j false, ?_, hready.refused hs hmain hlock⟩
  rw [hexec, Disk.exec_orElse_error hopen, Disk.exec_bind_eq (exec_release hlock d1)]
  rfl

/-- **`Open` on a file with a bad record.** -/
theorem exec_openStore_corrupt {version : ℕ} {recs : List (Rec version)} {tail : Bytes} {e : Err}
    (hheader : readHeaderOf (d.files i).content = .ok h) (hver : h.version = version)
    (hcontent : (d.files i).content = (d.files i).content.take logHeaderSize ++ concat recs ++ tail)
    (htail : tail ≠ []) (he : AppendLog.readRecord version (logHeaderSize + (concat recs).length) tail = .error e)
    (heof : e.isEOF = false) :
    ∃ d', Disk.exec (openStore path options) d = (.error (.wrap "failed to recover from log"
        (.printed .corruptedData s!" at offset {logHeaderSize + (concat recs).length}" e)), d') ∧
      Refused d d' path i := by
  obtain ⟨lock, d1, hready, hexec⟩ := exec_openStore_ready hacc hs hfree
  obtain ⟨j, hlock, -⟩ := hready.lockHeld
  have hfile : d1.files i = d.files i := hready.files i (recoveredMain_bounded hs hmain)
  obtain ⟨hlen, -⟩ := readHeaderOf_ok hheader
  have hne : (d1.files i).content ≠ [] := by
    rw [hfile, ← List.length_pos_iff]
    exact Nat.lt_of_lt_of_le (by decide) hlen
  obtain ⟨l, hopen, ho⟩ := exec_openAppendLogFile_ok (hready.settled hmain).dir hne (by rw [hfile]; exact hheader)
  have hisOpen : l.file.isOpen = true := by rw [ho.file]
  have hpos : l.writePos = (d1.files l.file.inode).content.length := by rw [ho.writePos, ho.file]
  have hlver : l.version = version := by rw [ho.version, hver]
  have hcontent' : (d1.files l.file.inode).content =
      (d.files i).content.take logHeaderSize ++ concat recs ++ tail := by
    rw [ho.file]
    dsimp only
    rw [hfile]
    exact hcontent
  have hit := exec_iterate_failed recoverRecord_eq hisOpen hpos hlver
    (by rw [List.length_take, Nat.min_eq_left hlen]) hcontent'
    (newIndex options.withDefaults.indexedFields, newLRUCache options.withDefaults.cacheSize.toNat) htail he heof
  refine ⟨d1.setLock j false, ?_, hready.refused hs hmain hlock⟩
  rw [hexec, Disk.exec_orElse_ok hopen, recoverOpened, recoverWith,
    Disk.exec_orElseState_error (exec_recover_of_iterate hit), Disk.exec_bind_eq (exec_closeLog hisOpen d1),
    Disk.exec_bind_eq (exec_release hlock d1)]
  rfl

/-- `Open` when the application does not want the migration. -/
theorem exec_openStore_unwanted {version : ℕ} {recs : List (Rec version)} {e : Err}
    (hr : Reads (d.files i).content h recs) (hlt : version < logVersion)
    (hask : migrationAnswer path options.withDefaults version = some e) :
    ∃ d', Disk.exec (openStore path options) d = (.error e, d') := by
  obtain ⟨lock, d1, hready, hexec⟩ := exec_openStore_ready hacc hs hfree
  have hset := hready.settled hmain
  have hfile : d1.files i = d.files i := hready.files i (recoveredMain_bounded hs hmain)
  have hne : (d1.files i).content ≠ [] := by
    rw [hfile, ← List.length_pos_iff]
    exact Nat.lt_of_lt_of_le (by decide) (readHeaderOf_ok hr.headerOk).1
  obtain ⟨l, hopen, ho⟩ := exec_openAppendLogFile_ok hset.dir hne (by rw [hfile]; exact hr.headerOk)
  obtain ⟨s, d2, ⟨-, hrec⟩, -, hb, hoptions, hlock, -⟩ := exec_recoverOpened options.withDefaults hset ho
    (by rw [hfile]; exact hr) (hr.known.2.2.2.1 hlt)
  obtain ⟨d3, hmig, hb3⟩ := exec_migrate_refused hb (e := e) (by rw [hoptions, hb.image.versionEq]; exact hask)
  obtain ⟨j, hj, -⟩ := hready.lockHeld
  refine ⟨d3.setLock j false, ?_⟩
  rw [hexec, Disk.exec_orElse_ok hopen, hrec]
  unfold migrateOlder
  rw [if_pos (by rw [hb.image.versionEq]; exact hlt), Disk.exec_orElseState_error hmig,
    Disk.exec_bind_eq (exec_closeLog hb3.image.isOpen d3), Disk.exec_bind_eq (exec_release hj d3)]
  rfl

omit hacc hfree hmain

/-- **What a successful `Open` has found**: an accepted call, a free lock, and no log yet or a file that
reads, whose migration the application wants if it needs one. -/
theorem openStore_ok {s : Store} {d' : Disk} (hopen : Disk.exec (openStore path options) d = (.ok s, d')) :
    options.Accepted path ∧ LockFree d path ∧
      ((∀ i, recoveredMain d.dir path = some i → (d.files i).content = []) ∨
        ∃ (version i : ℕ) (h : Header) (recs : List (Rec version)), recoveredMain d.dir path = some i ∧
          Reads (d.files i).content h recs ∧
          (version < logVersion → migrationAnswer path options.withDefaults version = none)) := by
  have herror : ∀ {e d'}, Disk.exec (openStore path options) d ≠ (.error e, d') := by
    intro e d' he
    rw [hopen] at he
    cases he
  have hacc : options.Accepted path := by
    by_contra hacc
    obtain ⟨e, he⟩ := exec_openStore_rejected hacc d
    exact herror he
  have hfree : LockFree d path := by
    by_contra hfree
    exact herror (exec_openStore_locked hacc hfree)
  refine ⟨hacc, hfree, ?_⟩
  cases hmain : recoveredMain d.dir path with
  | none => exact .inl fun i hi => absurd hi.symm (Option.some_ne_none i)
  | some i =>
    by_cases hne : (d.files i).content = []
    · refine .inl fun j hj => ?_
      rw [← Option.some.inj hj, hne]
    · right
      cases hheader : readHeaderOf (d.files i).content with
      | error e =>
        obtain ⟨d1, he, -⟩ := exec_openStore_header hacc hs hfree hmain hne hheader
        exact absurd he herror
      | ok h =>
        obtain ⟨recs, tail, hrest, hstop⟩ := parse_exists h.version logHeaderSize
          ((d.files i).content.drop logHeaderSize)
        have hcontent : (d.files i).content = (d.files i).content.take logHeaderSize ++ concat recs ++ tail := by
          rw [List.append_assoc, ← hrest, List.take_append_drop]
        have hcut : Cut h.version (logHeaderSize + (concat recs).length) tail := by
          rcases hstop with hnil | ⟨e, he⟩
          · exact .inl hnil
          · by_cases hnil : tail = []
            · exact .inl hnil
            · refine .inr ⟨e, he, ?_⟩
              by_contra heof
              obtain ⟨d1, hfail, -⟩ := exec_openStore_corrupt hacc hs hfree hmain hheader rfl hcontent hnil he
                (by simpa using heof)
              exact herror hfail
        have hr : Reads (d.files i).content h recs := ⟨hheader, rfl, tail, hcontent, hcut⟩
        refine ⟨h.version, i, h, recs, rfl, hr, ?_⟩
        intro hlt
        cases hask : migrationAnswer path options.withDefaults h.version with
        | none => rfl
        | some e =>
          obtain ⟨d1, he⟩ := exec_openStore_unwanted hacc hs hfree hmain hr hlt hask
          exact absurd he herror

/-- The file `Open` finds, if there is one, asks for no read-only feature this build does not know. -/
def FeaturesKnown (d : Disk) (path : Path) : Prop :=
  ∀ i h, recoveredMain d.dir path = some i → readHeaderOf (d.files i).content = .ok h → h.readOnlyFeatures = 0

omit hs in
theorem blank_featuresKnown (path : Path) : FeaturesKnown .blank path := fun _ _ hi => by cases hi

/-- **The store a successful `Open` returns serves the records of a log.** -/
theorem openStore_serves {s : Store} {d' : Disk} (hknown : FeaturesKnown d path)
    (hopen : Disk.exec (openStore path options) d = (.ok s, d')) :
    ∃ recs, Serves d' s path recs ∧ s.options = options.withDefaults := by
  obtain ⟨hacc, hfree, hcase⟩ := openStore_ok hs hopen
  rcases hcase with hfresh | ⟨version, i, h, recs, hmain, hr, hask⟩
  · obtain ⟨s1, d1, hopen', hserves, hoptions⟩ := exec_openStore_fresh hacc hs hfree hfresh
    rw [hopen] at hopen'
    cases hopen'
    exact ⟨[], hserves, hoptions⟩
  · obtain ⟨s1, d1, hopen', hserves, hoptions, -⟩ := exec_openStore_reads hacc hs hfree hmain hr
      (hknown i h hmain hr.headerOk) hask
    rw [hopen] at hopen'
    cases hopen'
    exact ⟨migrated recs, hserves, hoptions⟩

end

end AppendStore
