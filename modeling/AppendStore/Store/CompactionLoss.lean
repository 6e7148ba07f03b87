import AppendStore.Store.CrashPrefix
import AppendStore.Store.FailedCompaction

/-! # When a failed `Compact` loses data

Any number of calls of one `Compact` may fail. What the next `Open` finds is decided by the ends of the
installation (`CompactEnd.found`): the old log or the compacted one, unless the backup could not be brought back
to a path where there was no log and opening that path then created an empty one.
-/

namespace AppendStore
open Library
set_option autoImplicit false

/-- The disk that the next `Open` finds, once the store was closed or its process ended. -/
structure Released (path : Path) (d d' : Disk) : Prop where
  dir : d'.dir = d.dir
  next : d'.next = d.next
  content : ∀ i, (d'.files i).content = (d.files i).content
  free : LockFree d' path

/-- No process holds a lock. -/
def unlocked (d : Disk) : Disk := { d with locked := fun _ => false }

theorem released_unlocked (path : Path) (d : Disk) : Released path d (unlocked d) :=
  ⟨rfl, rfl, fun _ => rfl, fun _ _ => rfl⟩

/-- The next `Open` succeeds and serves what the map lists. -/
def NextOpenServes (path : Path) (options : Options) (d : Disk) (m : KeyMap) : Prop :=
  ∃ s d', Disk.exec (openStore path options) d = (.ok s, d') ∧ Refines path ⟨s, d'⟩ m

section
variable {d d' : Disk} {s : Store} {path : Path} {recs : List (Rec logVersion)} {options : Options} {m : KeyMap}

theorem Arranged.recovered {base : Disk} {b : Slots} {j : ℕ} (h : Arranged base path b d)
    (hb : b.main.or (b.ready.or b.backup) = some j) : recoveredMain d.dir path = some j := by
  have hmain : d.dir path = b.main := h.slots .main
  have hready : d.dir (path ++ compactionReadySuffix) = b.ready := h.slots .ready
  have hbackup : d.dir (path ++ compactionBackupSuffix) = b.backup := h.slots .backup
  have hassoc : ∀ o : Option ℕ, b.ready.or (b.backup.or o) = (b.ready.or b.backup).or o := fun _ => Option.or_assoc.symm
  rw [recoveredMain, hmain, hready, hbackup, hassoc, ← Option.or_assoc, hb]
  rfl

theorem startedWith_zero {b : Bytes} (h : StartedWith {0} b) : b = [] ∨ b = currentHeader := by
  rcases h with h | h | ⟨k, hk, h⟩
  · exact .inl h
  · exact .inr h
  · rw [Set.mem_singleton_iff.mp hk] at h
    exact .inl h

/-- What recovery finds after a `Compact`. -/
theorem CompactEnd.found (h : Serves d s path recs) {r : Except Err Unit × Store} {t : Disk.Run}
    (hend : CompactEnd {0} d s path recs r t) :
    t.disk.Sound ∧ ∃ j, recoveredMain t.disk.dir path = some j ∧
      (¬ (attempts path t.journal).Loses ∧ (∃ recs' : List (Rec logVersion), contents recs' = contents recs ∧
          (t.disk.files j).content = currentHeader ++ concat recs') ∨
        (attempts path t.journal).Loses ∧
          ((t.disk.files j).content = [] ∨ (t.disk.files j).content = currentHeader)) := by
  have hlt : s.log.file.inode < d.next := h.sound.bounded _ _ h.dir
  cases hend with
  | unprepared hstore hdisk hsound hnoted =>
    refine ⟨hsound, s.log.file.inode, ?_, .inl ⟨?_, recs, rfl, ?_⟩⟩
    · rw [recoveredMain, hdisk.dir path fun hmem => compactionName_ne hmem rfl, h.dir]
      rfl
    · rw [hnoted]
      decide
    · rw [hdisk.files _ hlt, h.image.content]
  | installed base s1 hstore hbase hready hnext hend =>
    -- the two logs are as they were when the installation began
    have hold : ∀ {b a c}, Installing base path b a c t →
        (t.disk.files s.log.file.inode).content = currentHeader ++ concat recs := by
      intro b a c hstate
      rw [hstate.disk.files _ (hlt.trans hnext), hbase.files _ hlt, h.image.content]
    have hnew : ∀ {b a c}, Installing base path b a c t →
        (t.disk.files d.next).content = currentHeader ++ concat (compacted recs) := by
      intro b a c hstate
      rw [hstate.disk.files _ hnext, hready.content]
    cases hend with
    | switched backup log hlog hr hstate =>
      refine ⟨hstate.disk.sound, d.next, hstate.disk.recovered rfl, .inl ⟨?_, _, contents_compacted recs, hnew hstate⟩⟩
      rw [hstate.noted]
      decide
    | kept ready a log hr hlog ha hstate =>
      refine ⟨hstate.disk.sound, _, hstate.disk.recovered rfl, .inl ⟨?_, recs, rfl, hold hstate⟩⟩
      rw [hstate.noted]
      exact ha
    | stranded b a j hj hb ha hstate =>
      refine ⟨hstate.disk.sound, j, hstate.disk.recovered hb, .inl ⟨by rw [hstate.noted]; exact ha, ?_⟩⟩
      rcases hj with rfl | rfl
      · exact ⟨recs, rfl, hold hstate⟩
      · exact ⟨_, contents_compacted recs, hnew hstate⟩
    | lost b a n hn hb hcontent ha hstate =>
      refine ⟨hstate.disk.sound, n, hstate.disk.recovered (by rw [hb]; rfl), .inr ⟨?_, startedWith_zero hcontent⟩⟩
      rw [hstate.noted]
      exact ha

/-! ## The next `Open` -/

theorem Released.found (h : Released path d d') {j : ℕ} (hj : recoveredMain d.dir path = some j) :
    recoveredMain d'.dir path = some j := by
  rw [h.dir, hj]

/-- `Open` on an empty log, or on one that holds a header only. -/
theorem nextOpenServes_empty (hacc : options.Accepted path) (hs : d.Sound) (hfree : LockFree d path) {j : ℕ}
    (hj : recoveredMain d.dir path = some j)
    (hcontent : (d.files j).content = [] ∨ (d.files j).content = currentHeader) :
    NextOpenServes path options d .empty := by
  rcases hcontent with hnil | hheader
  · obtain ⟨s, d', hopen, hserves, -⟩ := exec_openStore_fresh hacc hs hfree fun i hi => by
      rw [hj, Option.some.injEq] at hi
      rw [← hi, hnil]
    exact ⟨s, d', hopen, [], hserves, KeyMap.shows_empty⟩
  · have hcontent : (d.files j).content = currentHeader ++ concat ([] : List (Rec logVersion)) := by
      rw [hheader, concat_nil, List.append_nil]
    obtain ⟨s, d', hopen, hserves, -⟩ := exec_openStore_current hacc hs hfree hj hcontent
    exact ⟨s, d', hopen, [], hserves, KeyMap.shows_empty⟩

/-- A store serves one map. -/
theorem Refines.unique {x : Session} {m' : KeyMap} (h : Refines path x m) (h' : Refines path x m') :
    m.entries = m'.entries := by
  obtain ⟨recs, hserves, hm⟩ := h
  obtain ⟨recs', hserves', hm'⟩ := h'
  obtain rfl := hserves.records_unique hserves'
  refine Finmap.ext_lookup fun k => ?_
  rw [hm.lookup, hm'.lookup]

theorem NextOpenServes.unique {m' : KeyMap} (h : NextOpenServes path options d m)
    (h' : NextOpenServes path options d m') : m.entries = m'.entries := by
  obtain ⟨s, e, hopen, hm⟩ := h
  obtain ⟨s', e', hopen', hm'⟩ := h'
  obtain ⟨hr, rfl⟩ := Prod.mk.inj (hopen.symm.trans hopen')
  obtain rfl := Except.ok.inj hr
  exact hm.unique hm'

/-- A map without entries lists nothing. -/
theorem KeyMap.Shows.eq_nil {l : List (Bytes × (Bytes × Attributes))} (h : m.Shows l) (hm : m.entries = ∅) :
    l = [] := by
  rw [List.eq_nil_iff_forall_not_mem]
  rintro ⟨k, v⟩ hmem
  have hlookup := (h.1.2 k v).mpr hmem
  rw [hm, Finmap.lookup_empty] at hlookup
  cases hlookup

variable {x : Session} {faults : Disk.Faults}

/-- What the next `Open` serves after a `Compact` of which calls failed. -/
theorem nextOpen_after_compact (h : Serves x.disk x.store path recs) (hzero : ∀ k, some k ∈ faults → k = 0)
    (hd : Released path (Disk.execNoted x.store.compact x.disk faults).2.1 d') (hacc : options.Accepted path) :
    (¬ (attempts path (Disk.execNoted x.store.compact x.disk faults).2.2).Loses ∧
        ∀ m : KeyMap, m.Shows (contents recs) → NextOpenServes path options d' m) ∨
      ((attempts path (Disk.execNoted x.store.compact x.disk faults).2.2).Loses ∧
        NextOpenServes path options d' .empty) := by
  obtain ⟨n, -, hend⟩ := Disk.All.counted (all_compact (K := {0}) h) faults fun k hk => hzero k hk
  obtain ⟨hsound, j, hj, hcases⟩ := hend.found h
  have hs' : d'.Sound := hsound.of_dir hd.dir hd.next
  rcases hcases with ⟨hkept, recs', hcontents, hcontent⟩ | ⟨hloses, hcontent⟩
  · refine .inl ⟨hkept, fun m hm => ?_⟩
    obtain ⟨s', e, hopen, hserves, -⟩ := exec_openStore_current hacc hs' hd.free (hd.found hj)
      (by rw [hd.content, hcontent])
    exact ⟨s', e, hopen, recs', hserves, by rw [hcontents]; exact hm⟩
  · refine .inr ⟨hloses, nextOpenServes_empty hacc hs' hd.free (hd.found hj) ?_⟩
    rw [hd.content]
    exact hcontent

/-- **When a `Compact` with failures loses data.** Whatever calls failed, the next `Open` serves what the store held,
except where the backup could not be brought back to a path without a log, that path was then opened, and there
was something to lose. -/
theorem compact_loses_iff (h : Reachable path x) : ∃ m, Refines path x m ∧
    ∀ (faults : Disk.Faults) (options : Options) (d' : Disk), (∀ k, some k ∈ faults → k = 0) →
      Released path (Disk.execNoted x.store.compact x.disk faults).2.1 d' → options.Accepted path →
      (NextOpenServes path options d' m ↔
        ¬ ((attempts path (Disk.execNoted x.store.compact x.disk faults).2.2).Loses ∧ m.entries ≠ ∅)) := by
  obtain ⟨recs, hserves⟩ := h.serves
  obtain ⟨m, hshows⟩ := exists_shows recs
  refine ⟨m, ⟨recs, hserves, hshows⟩, fun faults options d' hzero hd hacc => ?_⟩
  rcases nextOpen_after_compact hserves hzero hd hacc with ⟨hkept, hopen⟩ | ⟨hloses, hopen⟩
  · exact ⟨fun _ hboth => hkept hboth.1, fun _ => hopen m hshows⟩
  · constructor
    · rintro hserved ⟨-, hne⟩
      exact hne (hserved.unique hopen)
    · intro hnot
      have hempty : m.entries = ∅ := by
        by_contra hne
        exact hnot ⟨hloses, hne⟩
      obtain ⟨s', e, hexec, recs', hserves', hm'⟩ := hopen
      refine ⟨s', e, hexec, recs', hserves', ?_⟩
      rw [hm'.eq_nil rfl, ← hshows.eq_nil hempty]
      exact hshows

/-- If the roll-back succeeds, the next `Open` serves both keys; if it fails too, the next `Open` does not. -/
theorem compact_loses_iff_busy : ∃ x m, worked "db" .zero busyCalls = some x ∧ Refines "db" x m ∧
    m.entries.keys = {[1], [7]} ∧
    (attempts "db" (Disk.execNoted x.store.compact x.disk installFails).2.2) = ⟨[true], [false], [true], []⟩ ∧
    NextOpenServes "db" .zero (unlocked (Disk.execNoted x.store.compact x.disk installFails).2.1) m ∧
    ¬ NextOpenServes "db" .zero
      (unlocked (Disk.execNoted x.store.compact x.disk (installFails ++ [some 0])).2.1) m := by
  have hacc : Options.zero.Accepted "db" := zero_accepted (by decide)
  obtain ⟨x, hx, hreach⟩ := worked_reachable hacc (busyCalls_accepted "db")
  obtain ⟨x', hx', hrefines⟩ := worked_refines hacc (busyCalls_accepted "db")
  obtain rfl := Option.some.inj (hx.symm.trans hx')
  have hback : (worked "db" .zero busyCalls).map (fun x =>
      attempts "db" (Disk.execNoted x.store.compact x.disk installFails).2.2) =
        some ⟨[true], [false], [true], []⟩ := by
    decide +kernel
  have hgone : (worked "db" .zero busyCalls).map (fun x =>
      attempts "db" (Disk.execNoted x.store.compact x.disk (installFails ++ [some 0])).2.2) =
        some ⟨[true], [false], [false], []⟩ := by
    decide +kernel
  rw [hx, Option.map_some, Option.some.injEq] at hback hgone
  obtain ⟨m, hm, hiff⟩ := compact_loses_iff hreach
  have hkeys : m.entries.keys = {[1], [7]} := by
    rw [hm.unique hrefines]
    decide
  refine ⟨x, m, hx, hm, hkeys, hback, ?_, ?_⟩
  · refine (hiff installFails .zero _ (by simp [installFails]) (released_unlocked "db" _) hacc).mpr ?_
    rw [hback]
    exact fun hboth => absurd hboth.1 (by decide)
  · intro hserved
    refine (hiff (installFails ++ [some 0]) .zero _ (by simp [installFails]) (released_unlocked "db" _) hacc).mp
      hserved ?_
    rw [hgone]
    refine ⟨by decide, fun hempty => ?_⟩
    rw [hempty] at hkeys
    exact absurd hkeys (by decide)

/-! ## The run that loses data -/

/-- The renaming of the prepared log to the log's path fails, and so does the one that would bring the backup back. -/
def rollbackFails : Disk.Faults := List.replicate 15 none ++ [some 0, some 0]

/-- Whether `Compact` takes the losing branch in a store with one key, under the given faults. -/
def losesOneKey (faults : Disk.Faults) : Bool :=
  match Disk.exec (openStore "db" .zero) .blank with
  | (.ok s, d) =>
    let x := (Session.call "db" ⟨s, d⟩ (.put [1] [2] none)).2
    decide (attempts "db" (Disk.execNoted x.store.compact x.disk faults).2.2).Loses
  | (.error _, _) => false

/-- **A `Compact` whose roll-back fails loses the data.** The old log is left as a backup, an empty log stands at its
path, and the next `Open` keeps the empty one. -/
theorem compact_loses_key : ¬ ∀ (path : Path) (x : Session) (m : KeyMap) (faults : Disk.Faults) (options : Options)
    (d' : Disk), Reachable path x → Refines path x m → (∀ k, some k ∈ faults → k = 0) →
      Released path (Disk.execNoted x.store.compact x.disk faults).2.1 d' → options.Accepted path →
      NextOpenServes path options d' m := by
  intro hall
  have hacc : Options.zero.Accepted "db" := zero_accepted (by decide)
  have hnew : ∀ i, recoveredMain Disk.blank.dir "db" ≠ some i := fun i hi => Option.some_ne_none i hi.symm
  obtain ⟨s, d, hopen, hserves, -⟩ := exec_openStore_fresh hacc Disk.blank_sound (blank_lockFree "db")
    (fun i hi => absurd hi (hnew i))
  have hstart : Reachable "db" ⟨s, d⟩ :=
    ⟨.zero, .blank, s, d, [], Disk.blank_sound, fun i _ hi => absurd hi (hnew i), hopen,
      fun _ hc => absurd hc List.not_mem_nil, rfl⟩
  have hput : Call.Accepted "db" (.put [1] [2] none) := trivial
  have hloses : losesOneKey rollbackFails = true := by decide +kernel
  have hzero : ∀ k, some k ∈ rollbackFails → k = 0 := by simp [rollbackFails]
  obtain ⟨-, recs, hserves1, hshows1⟩ := call_refines (x := ⟨s, d⟩) (.put [1] [2] none) hput
    ⟨[], hserves, KeyMap.shows_empty⟩
  have hreach := hstart.call hput
  rw [losesOneKey, hopen] at hloses
  dsimp only at hloses
  generalize (Session.call "db" ⟨s, d⟩ (.put [1] [2] none)).2 = x at hloses hserves1 hreach
  have hserved := hall "db" x _ rollbackFails .zero _ hreach ⟨recs, hserves1, hshows1⟩ hzero
    (released_unlocked "db" _) hacc
  rcases nextOpen_after_compact hserves1 hzero (released_unlocked "db" _) hacc with ⟨hkept, -⟩ | ⟨-, hempty⟩
  · exact hkept (of_decide_eq_true hloses)
  · have hentries := hserved.unique hempty
    have hlookup : (KeyMap.call .empty (.put [1] [2] none)).2.entries.lookup [1] = none := by
      rw [hentries]
      rfl
    revert hlookup
    decide

end

end AppendStore
