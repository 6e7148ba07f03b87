import AppendStore.Store.LiveIndex
import AppendStore.Store.OpeningCrash

/-! # Compaction is crash-atomic

The crash here loses any of the renames and removals that no directory sync has made durable, and it may leave
anything of a file that is not synced. `Interrupted` are the disks that such crashes leave, of a `Compact` that began
with a log that is on the disk, of an `Open` that migrates an old log by one, and of the later `Open`s that recover
from it, any number of times. The next `Open` that completes has the contents from before, in one complete log and with
no artifact beside it (`compaction_crash_atomic`). `Compact` does not sync the log it reads: if the last mutations were
not synced when it began, a crash in it can lose them as one before it can (`compaction_loses_unsynced`).
-/

namespace AppendStore
open Library
set_option autoImplicit false

section
variable {lossy : DirOp → Prop} {path : Path} {d d' : Disk} {s s' : Store} {i : ℕ} {options : Options}

/-! ## Runs keep the directory steady -/

theorem Steady.run {α : Type} {p : FileProg α} {Q : α → Prop} (h : Steady lossy path d)
    (hp : p.Each (fun o => ∀ q ∈ path :: artifacts path, ¬ o.Binds q) Q) : Steady lossy path (Disk.exec p d).2 :=
  (h.visits hp (Prog.visits_run p d)).1

/-- The last step of `Open`. -/
theorem Steady.migrateOlder {version : ℕ} {header : Bytes} {recs : List (Rec version)} {lock : FileLock}
    (h : Steady lossy path d) (hb : Backed d s path header recs)
    (hexec : Disk.exec (migrateOlder path lock s) d = (.ok s', d')) : Steady lossy path d' := by
  unfold AppendStore.migrateOlder at hexec
  split at hexec
  · obtain ⟨d1, hback, hb1⟩ := exec_backUp hb
    have h1 : Steady lossy path d1 := (h.backUp s _ (Prog.visits_end hback)).1
    cases hask : migrationAnswer path s.options s.log.version with
    | some e =>
      obtain ⟨d2, hrefused, -⟩ := exec_migrate_refused hb hask
      rw [Disk.exec_orElseState_error hrefused, Disk.exec_bind, Disk.exec_bind] at hexec
      cases hexec
    | none =>
      by_cases h4 : s.log.version = 4
      · have hset := exec_setVersion hb.image.isOpen logVersion d1
        rw [Disk.exec_orElseState_ok (exec_migrate_asked hback hask (fun _ => ⟨_, hset, rfl⟩) (absurd h4))] at hexec
        cases hexec
        exact h1.of_same rfl rfl
      · obtain ⟨s2, d2, hcompact, -⟩ := exec_compact hb1
        have hsettled := compact_settled hb1
        rw [hcompact] at hsettled
        rw [Disk.exec_orElseState_ok (exec_migrate_asked hback hask (absurd · h4) fun _ => hcompact)] at hexec
        cases hexec
        exact steady_of_settled hsettled
  · cases hexec
    exact h

/-- `Open` up to the opening of the log. -/
theorem Steady.ready (h : Steady lossy path d) (hacc : options.Accepted path) (hs : d.Sound) (hfree : LockFree d path) :
    ∃ lock d1, Ready d d1 path lock ∧ Steady lossy path d1 ∧ Disk.exec (openStore path options) d =
      Disk.exec ((openAppendLogFile path).orElse
        (fun e => do
          let _ ← lock.release
          pure (.error (.wrap "failed to open append log" e)))
        fun log => recoverOpened path options.withDefaults lock log) d1 := by
  obtain ⟨k, d1, d2, hlock, hrecover, hready, -⟩ := exec_lockAndRecover hs hfree
  refine ⟨⟨some ⟨k, true⟩⟩, d2, hready, recover_steady (h.lock (Prog.visits_end hlock)).1 hrecover, ?_⟩
  rw [openStore_eq hacc, Disk.exec_andThen_ok hlock]
  refine Disk.exec_orElse_congr ?_
  unfold openAppendLog
  rw [Disk.exec_andThen_ok hrecover]

/-- `Open` once the log is open. -/
theorem Steady.recoverOpened {version : ℕ} {recs : List (Rec version)} {lock : FileLock} {l : AppendLog} {hd : Header}
    (h : Steady lossy path d) (hset : Settled d path i lock) (ho : Opened l path i hd (d.files i).content.length)
    (hr : Reads (d.files i).content hd recs) (hro : hd.readOnlyFeatures = 0)
    (hexec : Disk.exec (recoverOpened path options lock l) d = (.ok s, d')) : Steady lossy path d' := by
  obtain ⟨s1, d1, ⟨-, hrec⟩, ⟨-, htouched⟩, hb, -⟩ := exec_recoverOpened options hset ho hr hro
  rw [hrec] at hexec
  exact (h.of_same htouched.names htouched.pending).migrateOlder hb hexec

/-- A log that comes into being stays, where no crash loses the creation of a file. -/
theorem Steady.create (h : Steady lossy path d) (hlinks : ∀ p j, ¬ lossy (.link p j)) :
    Steady lossy path (d.create path) := by
  intro n hn q hq
  obtain ⟨m, hm, hcase⟩ := Disk.leaves_create hn
  rcases hcase with rfl | ⟨hlink, -⟩
  · rw [Disk.dir_create, Function.update_apply, Function.update_apply, h m hm q hq]
  · exact absurd hlink (hlinks _ _)

/-- **A successful `Open`.** -/
theorem Steady.openStore (h : Steady lossy path d) (hlinks : ∀ p j, ¬ lossy (.link p j)) (hs : d.Sound)
    (hknown : FeaturesKnown d path) (hexec : Disk.exec (openStore path options) d = (.ok s, d')) :
    Steady lossy path d' := by
  obtain ⟨hacc, hfree, hcase⟩ := openStore_ok hs hexec
  obtain ⟨lock, d1, hready, h1, heq⟩ := h.ready hacc hs hfree
  rw [heq] at hexec
  rcases hcase with hfresh | ⟨version, i, hd, recs, hmain, hr, -⟩
  · obtain ⟨j, l, d2, hopen, ho, hset, hcontent, hdisk⟩ := hready.openFresh hs hfresh
    have h2 : Steady lossy path d2 := by
      rcases hdisk with rfl | rfl
      · exact h1.of_same rfl rfl
      · exact (h1.create hlinks).of_same rfl rfl
    have hr : Reads (d2.files j).content ⟨logVersion, 0, 0⟩ ([] : List (Rec logVersion)) := by
      rw [hcontent]
      exact reads_empty
    rw [Disk.exec_orElse_ok hopen] at hexec
    exact h2.recoverOpened hset (by rw [hcontent, currentHeader_length]; exact ho) hr rfl hexec
  · have hset := hready.settled hmain
    have hfile : d1.files i = d.files i := hready.files i (recoveredMain_bounded hs hmain)
    have hne : (d1.files i).content ≠ [] := by
      rw [hfile, ← List.length_pos_iff]
      exact Nat.lt_of_lt_of_le (by decide) (readHeaderOf_ok hr.headerOk).1
    obtain ⟨l, hopen, ho⟩ := exec_openAppendLogFile_ok hset.dir hne (by rw [hfile]; exact hr.headerOk)
    rw [Disk.exec_orElse_ok hopen] at hexec
    exact h1.recoverOpened hset ho (by rw [hfile]; exact hr) (hknown i hd hmain hr.headerOk) hexec

/-- A running store whose names are where they are, whatever a crash leaves of the directory. -/
structure Grounded (lossy : DirOp → Prop) (path : Path) (x : Session) : Prop where
  serves : ∃ recs, Serves x.disk x.store path recs
  steady : Steady lossy path x.disk
  sound : x.disk.CrashSound lossy

theorem Resting.features {recs : List (Rec logVersion)} (h : Resting d path recs) : FeaturesKnown d path := by
  intro i hd hmain hheader
  obtain ⟨j, hj, hcontent⟩ := h.recoveredMain
  rw [hj, Option.some.injEq] at hmain
  rw [← hmain, hcontent, readHeaderOf_current] at hheader
  cases hheader
  rfl

/-- **Every call keeps the directory steady.** -/
theorem Grounded.call {x : Session} (h : Grounded lossy path x) (hlinks : ∀ p j, ¬ lossy (.link p j)) {c : Call}
    (hc : c.Accepted path) : Grounded lossy path (x.call path c).2 := by
  obtain ⟨recs, hserves⟩ := h.serves
  obtain ⟨km, hshows⟩ := exists_shows recs
  obtain ⟨-, recs', hserves', -⟩ := call_refines c hc ⟨recs, hserves, hshows⟩
  have hfiles : ∀ (i : ℕ) (o : FileOp), o.On i → ∀ q ∈ path :: artifacts path, ¬ o.Binds q :=
    fun _ _ ho _ _ => not_binds_of_on ho
  refine ⟨⟨recs', hserves'⟩, ?_, ?_⟩
  · cases c with
    | put key value options => exact h.steady.run (calls_put hfiles x.store key value options)
    | delete key => exact h.steady.run (calls_delete hfiles x.store key)
    | get key => exact h.steady.run (calls_get hfiles x.store key)
    | forEach stop => exact h.steady.run (calls_forEach hfiles x.store (remember stop) [])
    | compact => exact steady_of_settled (compact_settled hserves)
    | reopen options =>
      obtain ⟨s1, d1, hclose, hrest⟩ := exec_close hserves
      obtain ⟨s2, d2, hopen, -⟩ := exec_openStore_resting hrest hc
      have h1 := h.steady.run (calls_storeClose hfiles (fun _ _ _ => id) x.store)
      rw [hclose] at h1
      simp only [Session.call, hclose, hopen]
      exact h1.openStore hlinks hrest.sound hrest.features hopen
    | getMetadata key => exact h.steady
    | contains key => exact h.steady
    | len => exact h.steady
    | keys => exact h.steady
  · cases c with
    | put key value options => exact h.sound.visits (Prog.visits_run (x.store.put key value options) _)
    | delete key => exact h.sound.visits (Prog.visits_run (x.store.delete key) _)
    | get key => exact h.sound.visits (Prog.visits_run (x.store.get key) _)
    | forEach stop => exact h.sound.visits (Prog.visits_run (x.store.forEach (remember stop) []) _)
    | compact => exact h.sound.visits (Prog.visits_run x.store.compact _)
    | reopen options =>
      obtain ⟨s1, d1, hclose, hrest⟩ := exec_close hserves
      obtain ⟨s2, d2, hopen, -⟩ := exec_openStore_resting hrest hc
      simp only [Session.call, hclose, hopen]
      exact (h.sound.visits (Prog.visits_end hclose)).visits (Prog.visits_end hopen)
    | getMetadata key => exact h.sound
    | contains key => exact h.sound
    | len => exact h.sound
    | keys => exact h.sound

/-- The states of a store that was opened in a directory that is on the disk, and then called any number of
times. -/
def Rooted (path : Path) (x : Session) : Prop :=
  ∃ (options : Options) (d : Disk) (s : Store) (d' : Disk) (calls : List Call),
    (d.Sound ∧ d.pending = []) ∧ FeaturesKnown d path ∧ Disk.exec (openStore path options) d = (.ok s, d') ∧
      (∀ c ∈ calls, c.Accepted path) ∧ x = final (Session.call path) ⟨s, d'⟩ calls

theorem Rooted.grounded {x : Session} (h : Rooted path x) (hlinks : ∀ p j, ¬ lossy (.link p j)) :
    Grounded lossy path x := by
  obtain ⟨options, d, s, d', calls, ⟨hs, hpending⟩, hknown, hopen, hcalls, rfl⟩ := h
  refine final_invariant (I := Grounded lossy path) calls (fun c hc y hy => hy.call hlinks (hcalls c hc)) ⟨?_, ?_, ?_⟩
  · obtain ⟨recs, hserves, -⟩ := openStore_serves hs hknown hopen
    exact ⟨recs, hserves⟩
  · exact (steady_of_settled hpending).openStore hlinks hs hknown hopen
  · exact (hs.crashSound hpending).visits (Prog.visits_end hopen)

/-! ## Interrupted compactions -/

/-- The renames and removals. -/
def Moves : DirOp → Prop
  | .link _ _ => False
  | .rename _ _ => True
  | .remove _ => True

/-- A crash leaves all of a file that is synced, and whatever it may of another one. -/
def KeepsSynced (_ : ℕ) (f : File) (b : Bytes) : Prop := f.synced = f.content → b = f.content

theorem keepsSynced_durable : DurableAfterSync KeepsSynced := fun _ _ _ h => h rfl

/-- All of the log that a store has open survives a crash, as long as nothing is done to it. -/
def LogSurvives (keeps : ℕ → File → Bytes → Prop) (x : Session) : Prop :=
  ∀ b, keeps x.store.log.file.inode (x.disk.files x.store.log.file.inode) b →
    b = (x.disk.files x.store.log.file.inode).content

/-- `Interrupted path c d`: crashes have left `d` of a compaction of a store with the live contents `c`, of the
migration of a log with these contents by a compaction, or of an `Open` that was to recover from such a crash. -/
inductive Interrupted (path : Path) : List (Bytes × (Bytes × Attributes)) → Disk → Prop
  | compact {keeps : ℕ → File → Bytes → Prop} {x : Session} {recs : List (Rec logVersion)} {t d : Disk} :
      Rooted path x → Serves x.disk x.store path recs → DurableAfterSync keeps → LogSurvives keeps x →
      Prog.Visits Disk.answer x.store.compact x.disk t → Disk.PowerLoss Moves keeps t d →
      Interrupted path (contents recs) d
  | migration {version : ℕ} {recs : List (Rec version)} {h : Header} {i : ℕ} {options : Options} {start t d : Disk} :
      start.Sound ∧ start.pending = [] ∧ LockFree start path → recoveredMain start.dir path = some i →
      (start.files i).synced = (start.files i).content → Reads (start.files i).content h recs → version < 4 →
      options.Accepted path → Prog.Visits Disk.answer (openStore path options) start t →
      Disk.PowerLoss Moves KeepsSynced t d → Interrupted path (contents recs) d
  | again {c : List (Bytes × (Bytes × Attributes))} {options : Options} {d t d' : Disk} : Interrupted path c d →
      options.Accepted path → Prog.Visits Disk.answer (openStore path options) d t →
      Disk.PowerLoss Moves KeepsSynced t d' → Interrupted path c d'

/-- Every such disk has a log with the contents from before. -/
theorem Interrupted.found {c : List (Bytes × (Bytes × Attributes))} (h : Interrupted path c d) :
    Found Moves path (Holds KeepsSynced c) d := by
  induction h with
  | @compact keeps x recs t d hrooted hserves hdurable hlog hv hloss =>
    have hgrounded : Grounded Moves path x := hrooted.grounded fun _ _ => id
    have hmain : recoveredMain x.disk.dir path = some x.store.log.file.inode := by
      rw [recoveredMain, hserves.dir]
      rfl
    have hfinds : Finds Moves path x.store.log.file.inode (x.disk.files x.store.log.file.inode) x.disk :=
      ⟨hgrounded.sound, hgrounded.steady, hmain, rfl⟩
    refine (hfinds.compaction hserves hdurable ?_ (holds_current (contents_compacted recs)) hv).powerLoss hloss
    intro b hb
    rw [hlog b hb, hserves.image.content]
    exact holds_current rfl
  | @migration version recs h i options start t d hstart hmain hsynced hr hlt hacc hv hloss =>
    obtain ⟨hs, hpending, hfree⟩ := hstart
    have hfile := file_synced rfl hsynced
    have hholds : Holds KeepsSynced (contents recs) (start.files i).content :=
      ⟨version, h, recs, hr, hr.known.2.2.2.1 (hlt.trans (by decide)), rfl, fun h4 => absurd h4 (Nat.ne_of_lt hlt)⟩
    have hfound : Found Moves path (Holds KeepsSynced (contents recs)) start :=
      ⟨hfree, i, _, ⟨hs.crashSound hpending, steady_of_settled hpending, hmain, hfile⟩, hholds⟩
    exact ((guarded_openStore hacc keepsSynced_durable hfound).1 t hv).powerLoss hloss
  | @again c options d t d' _ hacc hv hloss ih =>
    exact ((guarded_openStore hacc keepsSynced_durable ih).1 t hv).powerLoss hloss

end

end AppendStore
