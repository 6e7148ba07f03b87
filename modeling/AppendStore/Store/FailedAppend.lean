import AppendStore.Store.Outcomes

/-! # Appends that fail half-way

A `WriteAt` that fails may have written a front part of its record past the write position. The store
goes on with the same write position, so the next record overwrites that front part, but only as far
as it is long: what is left of a longer one stays in the file behind it, and the next `Open` takes the
write position from the size of the file and reads it (`failed_append_seen`).

As long as every write reaches to the end of the file, what is left behind is a front part of one
record, and `Open` cuts it off (`failed_append_harmless`).
-/

namespace AppendStore
open Library
set_option autoImplicit false

/-! ## Runs with failing writes -/

/-- A mutation whose write may fail after its first bytes. -/
structure Attempt where
  mutation : Mutation
  failure : Option ℕ

/-- The faults of an attempt: the write is the first operation of a mutation. -/
def Attempt.faults (a : Attempt) : Disk.Faults := a.failure.toList.map some

/-- Make an attempt: what the call returns, and the session it leaves. -/
def Session.attempt (x : Session) (a : Attempt) : Except Err Unit × Session :=
  let r := Disk.execFaulty (a.mutation.program x.store) x.disk a.faults
  (r.1.1, ⟨r.1.2, r.2.1⟩)

/-- The mutations of a run whose calls returned success. -/
def successes : Session → List Attempt → List Mutation
  | _, [] => []
  | x, a :: as => (match (x.attempt a).1 with
      | .ok () => [a.mutation]
      | .error _ => []) ++ successes (x.attempt a).2 as

/-- What an attempt writes at the write position. -/
def Attempt.written (a : Attempt) : Bytes :=
  match a.failure with
  | none => a.mutation.bytes
  | some k => a.mutation.bytes.take k

/-- A failing write has written less than its record. -/
def Attempt.Strict (a : Attempt) : Prop := ∀ k, a.failure = some k → k < a.mutation.bytes.length

/-- The write, if there is one, reaches to the end of the file. -/
def Attempt.Covers (x : Session) (a : Attempt) : Prop :=
  a.mutation.Writes x.store →
    (x.disk.files x.store.log.file.inode).content.length ≤ x.store.log.writePos + a.written.length

/-- Every write of a run reaches to the end of the file. -/
def AllCover : Session → List Attempt → Prop
  | _, [] => True
  | x, a :: as => a.Covers x ∧ AllCover (x.attempt a).2 as

instance (x : Session) (a : Attempt) : Decidable (a.Covers x) :=
  inferInstanceAs (Decidable (a.mutation.Writes x.store → _ ≤ _))

instance AllCover.decidable : (x : Session) → (as : List Attempt) → Decidable (AllCover x as)
  | _, [] => isTrue trivial
  | x, a :: as =>
    have := AllCover.decidable (x.attempt a).2 as
    inferInstanceAs (Decidable (a.Covers x ∧ AllCover (x.attempt a).2 as))

/-- Closed and opened again, the store shows the map `m`, and its file is `b`. -/
def Recovers (path : Path) (options : Options) (x : Session) (m : KeyMap) (b : Bytes) : Prop :=
  ∃ s1 d1 s2 d2, Disk.exec x.store.close x.disk = ((none, s1), d1) ∧
    Disk.exec (openStore path options) d1 = (.ok s2, d2) ∧ Refines path ⟨s2, d2⟩ m ∧
    d2.bytesAt path = some b

/-! ## What an attempt does -/

section
variable {l : AppendLog} {key value : Bytes} {attributes : AttributeRange} {extensions ab : Bytes}

/-- An `Append` whose write fails. -/
theorem execFaulty_append (hopen : l.file.isOpen = true) (hver : l.version = logVersion)
    (hro : l.unknownReadOnly = 0) (hlim : appendLimits key value attributes extensions = .ok ab)
    (deleted : Bool) (k : ℕ) (faults : Disk.Faults) (d : Disk) :
    ∃ buf, Disk.execFaulty (l.append key value deleted attributes extensions) d (some k :: faults) =
      ((.error (.os .io), { l with appendBuf := buf }),
        d.setContent l.file.inode (writeAt (d.files l.file.inode).content l.writePos
          ((appendRaw key ab value extensions deleted).bytes.take k)), faults) := by
  obtain ⟨buf, happ⟩ := append_eq hver hro hlim deleted
  refine ⟨buf, ?_⟩
  have hwrite : Prog.run Disk.answerFaulty (Sys.writeAt l.file l.writePos
      (appendRaw key ab value extensions deleted).bytes) (d, some k :: faults) = (.error .io,
        d.setContent l.file.inode (writeAt (d.files l.file.inode).content l.writePos
          ((appendRaw key ab value extensions deleted).bytes.take k)), faults) := by
    have hfault := Disk.onOpen_open hopen d ((.error .io, d.setContent l.file.inode
      (writeAt (d.files l.file.inode).content l.writePos
        ((appendRaw key ab value extensions deleted).bytes.take k))) : Except OsError Unit × Disk)
    exact congrArg (fun r : Except OsError Unit × Disk => (r.1, r.2, faults)) hfault
  rw [happ, Disk.execFaulty, Prog.run_orElse_error _ hwrite]
  rfl

/-- An `Append` on two disks that its write makes equal. -/
theorem exec_append_congr (hopen : l.file.isOpen = true) (hver : l.version = logVersion)
    (hro : l.unknownReadOnly = 0) (hlim : appendLimits key value attributes extensions = .ok ab)
    (deleted : Bool) {d : Disk} {b : Bytes}
    (hwrite : writeAt (d.files l.file.inode).content l.writePos (appendRaw key ab value extensions deleted).bytes =
      writeAt b l.writePos (appendRaw key ab value extensions deleted).bytes) :
    Disk.exec (l.append key value deleted attributes extensions) d =
      Disk.exec (l.append key value deleted attributes extensions) (d.setContent l.file.inode b) := by
  obtain ⟨buf, happ⟩ := append_eq hver hro hlim deleted
  rw [happ, Disk.exec_orElse_ok (Disk.exec_writeAt hopen d _ _),
    Disk.exec_orElse_ok (Disk.exec_writeAt hopen (d.setContent l.file.inode b) _ _),
    Disk.content_setContent, Disk.setContent_setContent, hwrite]

end

section
variable {path : Path} {x : Session} {recs : List (Rec logVersion)}

/-- A mutation that writes is an `Append` and what follows it. -/
theorem program_append {d : Disk} {s : Store} (h : Serves d s path recs) {m : Mutation} (hw : m.Writes s) :
    ∃ key value attributes deleted ab context good, appendLimits key value attributes [] = .ok ab ∧
      m.bytes = (appendRaw key ab value [] deleted).bytes ∧
      m.program s = (s.log.append key value deleted attributes []).orElseState
        (fun e log => pure (.error (.wrap context e), { s with log := log })) good ∧
      ∀ placed log, ∃ index cache context', good placed log =
        ({ s with log := log, index := index, cache := cache } : Store).syncMutation context' := by
  cases m with
  | put key value options =>
    obtain ⟨ab, hlim⟩ := hw
    have hprog : s.put key value options = (s.log.append key value false (options.getD ∅) []).orElseState
        (fun e log => pure (.error (.wrap "failed to append to log" e), { s with log := log }))
        fun placed log => ({ s with
          log := log
          index := s.index.put key (placed.entry (options.getD ∅).toFinmap)
          cache := s.cache.remove key } : Store).syncMutation "sync appended value" := by
      unfold Store.put
      rw [h.writable]
    refine ⟨key, value, _, false, ab, _, _, hlim, ?_, hprog, fun placed log => ⟨_, _, _, rfl⟩⟩
    rw [Mutation.bytes, hlim]
  | delete key =>
    obtain ⟨e, he⟩ := Option.isSome_iff_exists.mp hw
    obtain ⟨y, hy, -⟩ := h.get_some he
    have hkey : key.length ≤ maxKeySize := contents_keyLimit (liveRecs_contents hy)
    have hprog : s.delete key = (s.log.append key [] true ∅ []).orElseState
        (fun e log => pure (.error (.wrap "failed to write tombstone" e), { s with log := log }))
        fun _ log => ({ s with
          log := log
          index := s.index.delete key
          cache := s.cache.remove key } : Store).syncMutation "sync tombstone" := by
      unfold Store.delete
      rw [h.writable, he]
    exact ⟨key, [], ∅, true, _, _, _, tombstone_limits hkey, rfl, hprog, fun placed log => ⟨_, _, _, rfl⟩⟩

/-- The store serves the front of the file up to the write position, and the rest of the file is a
front part of one record. -/
structure Leftover (path : Path) (x : Session) (recs : List (Rec logVersion)) : Prop where
  serves : Serves (x.disk.setContent x.store.log.file.inode
    ((x.disk.files x.store.log.file.inode).content.take x.store.log.writePos)) x.store path recs
  torn : (x.disk.files x.store.log.file.inode).content.drop x.store.log.writePos = [] ∨
    ∃ (r : Rec logVersion) (t : Bytes), t ≠ [] ∧
      r.bytes = (x.disk.files x.store.log.file.inode).content.drop x.store.log.writePos ++ t

theorem Leftover.front (h : Leftover path x recs) :
    (x.disk.files x.store.log.file.inode).content.take x.store.log.writePos = currentHeader ++ concat recs := by
  rw [← h.serves.image.content, Disk.content_setContent]

theorem Leftover.content (h : Leftover path x recs) : (x.disk.files x.store.log.file.inode).content =
    currentHeader ++ concat recs ++ (x.disk.files x.store.log.file.inode).content.drop x.store.log.writePos := by
  rw [← h.front, List.take_append_drop]

theorem Leftover.front_length (h : Leftover path x recs) :
    (currentHeader ++ concat recs).length = x.store.log.writePos := by
  rw [List.length_append, currentHeader_length, h.serves.image.writePos]

theorem leftover_of_serves (h : Serves x.disk x.store path recs) : Leftover path x recs := by
  have hall : (x.disk.files x.store.log.file.inode).content.take x.store.log.writePos =
      (x.disk.files x.store.log.file.inode).content := by
    rw [← h.image.length, List.take_length]
  refine ⟨by rwa [hall, Disk.setContent_self], .inl ?_⟩
  rw [← h.image.length, List.drop_length]

/-- A write that reaches to the end of the file leaves nothing of what was behind the write position. -/
theorem Leftover.overwrite (h : Leftover path x recs) {p : Bytes}
    (hcover : (x.disk.files x.store.log.file.inode).content.length ≤ x.store.log.writePos + p.length) :
    writeAt (x.disk.files x.store.log.file.inode).content x.store.log.writePos p =
      currentHeader ++ concat recs ++ p := by
  have hlen := congrArg List.length h.content
  rw [List.length_append, h.front_length] at hlen
  rw [h.content, ← h.front_length, writeAt_append, h.front_length, List.drop_eq_nil_of_le (by omega),
    List.append_nil]

/-- A write that does not fail. -/
theorem Leftover.succeeds (h : Leftover path x recs) {m : Mutation} (hw : m.Writes x.store)
    (hcover : (x.disk.files x.store.log.file.inode).content.length ≤ x.store.log.writePos + m.bytes.length) :
    ∃ r s' d', Disk.exec (m.program x.store) x.disk = ((.ok (), s'), d') ∧
      Leftover path ⟨s', d'⟩ (recs ++ [r]) ∧ r.bytes = m.bytes ∧
      ∀ km : KeyMap, km.Shows (contents recs) → (km.call m.call).2.Shows (contents (recs ++ [r])) := by
  obtain ⟨key, value, attributes, deleted, ab, context, good, hlim, hbytes, hprog, -⟩ := program_append h.serves hw
  have hwrite := h.overwrite hcover
  have hfront : writeAt ((x.disk.files x.store.log.file.inode).content.take x.store.log.writePos)
      x.store.log.writePos m.bytes = currentHeader ++ concat recs ++ m.bytes := by
    rw [h.front, ← h.front_length, writeAt_end]
  have hcongr : Disk.exec (m.program x.store) x.disk = Disk.exec (m.program x.store)
      (x.disk.setContent x.store.log.file.inode
        ((x.disk.files x.store.log.file.inode).content.take x.store.log.writePos)) := by
    have happ := exec_append_congr h.serves.image.isOpen h.serves.image.versionEq h.serves.unknownReadOnly
      hlim deleted (b := (x.disk.files x.store.log.file.inode).content.take x.store.log.writePos)
      (by rw [← hbytes]; exact hwrite.trans hfront.symm)
    rw [hprog, Prog.orElseState, Disk.exec_bind, Disk.exec_bind, happ]
  obtain ⟨r, s', d', hexec, hmut, hr⟩ := exec_mutation_writes h.serves hw
  refine ⟨r, s', d', by rw [hcongr, hexec], leftover_of_serves hmut.serves, hr, ?_⟩
  intro km hshows
  have hexec' : Disk.exec (m.program x.store) (x.disk.setContent x.store.log.file.inode
      ((x.disk.files x.store.log.file.inode).content.take x.store.log.writePos)) = ((.ok (), s'), d') := hexec
  exact shows_mutated (x := ⟨x.store, _⟩) h.serves hshows hexec' hmut

/-- A write that fails. -/
theorem Leftover.fails (h : Leftover path x recs) {m : Mutation} (hw : m.Writes x.store) {k : ℕ}
    (hk : k < m.bytes.length)
    (hcover : (x.disk.files x.store.log.file.inode).content.length ≤
      x.store.log.writePos + (m.bytes.take k).length) :
    ∃ e s' d', Disk.execFaulty (m.program x.store) x.disk [some k] = ((.error e, s'), d', []) ∧
      Leftover path ⟨s', d'⟩ recs ∧
      (d'.files s'.log.file.inode).content = currentHeader ++ concat recs ++ m.bytes.take k := by
  obtain ⟨key, value, attributes, deleted, ab, context, good, hlim, hbytes, hprog, -⟩ := program_append h.serves hw
  obtain ⟨buf, happ⟩ := execFaulty_append h.serves.image.isOpen h.serves.image.versionEq
    h.serves.unknownReadOnly hlim deleted k [] x.disk
  rw [← hbytes, h.overwrite hcover] at happ
  obtain ⟨r, -, -, -, -, hr⟩ := exec_mutation_writes h.serves hw
  have htake : (currentHeader ++ concat recs ++ m.bytes.take k).take x.store.log.writePos =
      currentHeader ++ concat recs := List.take_left' h.front_length
  have hdrop : (currentHeader ++ concat recs ++ m.bytes.take k).drop x.store.log.writePos = m.bytes.take k :=
    List.drop_left' h.front_length
  refine ⟨.wrap context (.os .io), { x.store with log := { x.store.log with appendBuf := buf } },
    x.disk.setContent x.store.log.file.inode (currentHeader ++ concat recs ++ m.bytes.take k), ?_, ⟨?_,
    .inr ⟨r, m.bytes.drop k, ?_, ?_⟩⟩, by simp⟩
  · rw [hprog]
    exact Prog.run_orElseState_error _ happ
  · have hserves := h.serves
    rw [h.front] at hserves
    dsimp only
    rw [Disk.content_setContent, htake, Disk.setContent_setContent]
    exact { hserves with image := hserves.image.of_same ⟨rfl, rfl, rfl, rfl, rfl⟩ rfl rfl }
  · rw [ne_eq, List.drop_eq_nil_iff]
    omega
  · dsimp only
    rw [Disk.content_setContent, hdrop, List.take_append_drop, hr]

theorem attempt_eq {a : Attempt} {r : Except Err Unit} {s' : Store} {d' : Disk} {rest : Disk.Faults}
    (h : Disk.execFaulty (a.mutation.program x.store) x.disk a.faults = ((r, s'), d', rest)) :
    x.attempt a = (r, ⟨s', d'⟩) := by
  rw [Session.attempt, h]

/-- An attempt fails and leaves the records, or adds one. -/
theorem Leftover.attempt (h : Leftover path x recs) {a : Attempt} (hstrict : a.Strict) (hcover : a.Covers x) :
    (∃ e, (x.attempt a).1 = .error e ∧ Leftover path (x.attempt a).2 recs) ∨
      ∃ r, (x.attempt a).1 = .ok () ∧ Leftover path (x.attempt a).2 (recs ++ [r]) ∧
        r.bytes = a.mutation.bytes ∧
        ∀ km : KeyMap, km.Shows (contents recs) → (km.call a.mutation.call).2.Shows (contents (recs ++ [r])) := by
  obtain ⟨m, failure⟩ := a
  by_cases hw : m.Writes x.store
  · have hcover := hcover hw
    cases failure with
    | none =>
      obtain ⟨r, s', d', hexec, hleft, hr, hshows⟩ := h.succeeds hw hcover
      have hfaulty := Disk.execFaulty_nil (m.program x.store) x.disk
      rw [hexec] at hfaulty
      rw [attempt_eq (a := ⟨m, none⟩) hfaulty]
      exact .inr ⟨r, rfl, hleft, hr, hshows⟩
    | some k =>
      obtain ⟨e, s', d', hexec, hleft, -⟩ := h.fails hw (hstrict k rfl) hcover
      rw [attempt_eq (a := ⟨m, some k⟩) hexec]
      exact .inl ⟨e, rfl, hleft⟩
  · obtain ⟨e, he⟩ := program_refused h.serves hw
    have hfaulty : Disk.execFaulty (m.program x.store) x.disk (Attempt.mk m failure).faults =
        ((.error e, x.store), x.disk, (Attempt.mk m failure).faults) := by
      rw [he]
      rfl
    rw [attempt_eq (a := ⟨m, failure⟩) hfaulty]
    exact .inl ⟨e, rfl, h⟩

/-! ## Whole runs -/

/-- **A run in which every write reaches to the end of the file.** -/
theorem Leftover.run (as : List Attempt) (hstrict : ∀ a ∈ as, a.Strict) :
    ∀ {x : Session} {recs : List (Rec logVersion)} {km : KeyMap}, Leftover path x recs →
      km.Shows (contents recs) → AllCover x as →
      ∃ recs', Leftover path (final Session.attempt x as) recs' ∧
        (final KeyMap.call km ((successes x as).map Mutation.call)).Shows (contents recs') ∧
        concat recs' = concat recs ++ (successes x as).flatMap Mutation.bytes := by
  induction as with
  | nil =>
    intro x recs km h hshows _
    exact ⟨recs, h, hshows, by simp [successes]⟩
  | cons a as ih =>
    intro x recs km h hshows hcover
    have hrest : ∀ b ∈ as, b.Strict := fun b hb => hstrict b (List.mem_cons_of_mem _ hb)
    rcases h.attempt (hstrict a List.mem_cons_self) hcover.1 with ⟨e, herr, hleft⟩ | ⟨r, hok, hleft, hr, hstep⟩
    · have hsucc : successes x (a :: as) = successes (x.attempt a).2 as := by
        rw [successes, herr, List.nil_append]
      rw [hsucc]
      exact ih hrest hleft hshows hcover.2
    · have hsucc : successes x (a :: as) = a.mutation :: successes (x.attempt a).2 as := by
        rw [successes, hok, List.singleton_append]
      obtain ⟨recs', hleft', hshows', hconcat⟩ := ih hrest hleft (hstep km hshows) hcover.2
      refine ⟨recs', hleft', ?_, ?_⟩
      · rw [hsucc]
        exact hshows'
      · rw [hconcat, hsucc, List.flatMap_cons, concat_append, concat_cons, concat_nil, List.append_nil, hr,
          List.append_assoc]

/-- What a failed write left behind is cut off by the next `Open`. -/
theorem Leftover.recovers (h : Leftover path x recs) {km : KeyMap} (hshows : km.Shows (contents recs))
    {options : Options} (hacc : options.Accepted path) :
    Recovers path options x km (currentHeader ++ concat recs) := by
  obtain ⟨i, hlock, hlockdir⟩ := h.serves.lock
  obtain ⟨d1, hclose, hdir1, hnext1, hcontent1⟩ := exec_close_disk h.serves.closed h.serves.image.isOpen
    hlock x.disk
  have hopenable : Openable (d1.setLock i false) path := by
    refine ⟨?_, ?_, h.serves.sound.of_dir hdir1 hnext1⟩
    · rw [Disk.dir_setLock, hdir1]
      exact h.serves.noArtifacts
    · intro j hj
      rw [Disk.dir_setLock, hdir1] at hj
      rw [← Option.some.inj (hlockdir.symm.trans hj), Disk.locked_setLock]
  have hmain : (d1.setLock i false).bytesAt path = some (currentHeader ++ concat recs ++
      (x.disk.files x.store.log.file.inode).content.drop x.store.log.writePos) := by
    have hdir : x.disk.dir path = some x.store.log.file.inode := h.serves.dir
    rw [Disk.bytesAt, Disk.dir_setLock, hdir1, hdir, Option.map_some, Disk.files_setLock, hcontent1, ← h.content]
  have hcut : Cut logVersion (logHeaderSize + (concat recs).length)
      ((x.disk.files x.store.log.file.inode).content.drop x.store.log.writePos) := by
    rcases h.torn with hnil | ⟨r, t, ht, hr⟩
    · exact .inl hnil
    · exact .inr (r.torn _ _ t hr ht)
  obtain ⟨s2, d2, hopen, hserves, -⟩ := exec_openStore_cut hacc hopenable hmain hcut
  exact ⟨_, _, s2, d2, hclose, hopen, ⟨recs, hserves, hshows⟩, hserves.bytesAt⟩

/-- Some map shows the contents of a log. -/
theorem exists_shows (recs : List (Rec logVersion)) : ∃ km : KeyMap, km.Shows (contents recs) := by
  induction recs using List.reverseRecOn with
  | nil => exact ⟨.empty, KeyMap.shows_empty⟩
  | append_singleton recs r ih =>
    obtain ⟨km, hkm⟩ := ih
    rw [contents_concat]
    by_cases hdel : r.deleted = true
    · rw [if_pos hdel]
      exact ⟨_, hkm.delete r.key⟩
    · rw [if_neg hdel]
      exact ⟨_, hkm.put r.key r.value r.attributes⟩

/-- **A failed append is harmless as long as every write reaches to the end of the file.** Whatever the
calls return, after `Close` and `Open` the store shows the map after those that returned success, and its
file holds their records and no other. -/
theorem failed_append_harmless {options options' : Options} {d d' : Disk} {s : Store} (hs : d.Sound)
    (hknown : FeaturesKnown d path) (hopen : Disk.exec (openStore path options) d = (.ok s, d'))
    (hacc : options'.Accepted path) :
    ∃ km b, Refines path ⟨s, d'⟩ km ∧ d'.bytesAt path = some b ∧
      ∀ as : List Attempt, (∀ a ∈ as, a.Strict) → AllCover ⟨s, d'⟩ as →
        Recovers path options' (final Session.attempt ⟨s, d'⟩ as)
          (final KeyMap.call km ((successes ⟨s, d'⟩ as).map Mutation.call))
          (b ++ (successes ⟨s, d'⟩ as).flatMap Mutation.bytes) := by
  obtain ⟨recs, hserves, -⟩ := openStore_serves hs hknown hopen
  obtain ⟨km, hkm⟩ := exists_shows recs
  refine ⟨km, _, ⟨recs, hserves, hkm⟩, hserves.bytesAt, ?_⟩
  intro as hstrict hcover
  obtain ⟨recs', hleft, hshows, hconcat⟩ := Leftover.run as hstrict (leftover_of_serves hserves) hkm hcover
  rw [List.append_assoc, ← hconcat]
  exact hleft.recovers hshows hacc

/-- A `Put`, one whose write fails after three bytes, and one that is written over them. -/
def overwriting : List Attempt :=
  [⟨.put [1] [2] none, none⟩, ⟨.put [3] [4] none, some 3⟩, ⟨.put [5] [6] none, none⟩]

theorem failed_append_harmless_overwriting :
    ∃ x km b, Session.opened "db" .zero .blank = some x ∧ Refines "db" x km ∧ x.disk.bytesAt "db" = some b ∧
      successes x overwriting = [.put [1] [2] none, .put [5] [6] none] ∧
      Recovers "db" .zero (final Session.attempt x overwriting)
        (final KeyMap.call km [.put [1] [2] none, .put [5] [6] none])
        (b ++ (Mutation.bytes (.put [1] [2] none) ++ Mutation.bytes (.put [5] [6] none))) := by
  have hacc : Options.zero.Accepted "db" := zero_accepted (by decide)
  obtain ⟨x, hx, -⟩ := opened_blank hacc
  obtain ⟨km, b, hkm, hb, hall⟩ := failed_append_harmless Disk.blank_sound (blank_featuresKnown "db")
    (opened_eq_some.mp hx) hacc
  have hsuccesses : (Session.opened "db" .zero .blank).map (fun x => successes x overwriting) =
      some [.put [1] [2] none, .put [5] [6] none] := by
    decide +kernel
  have hcover : (Session.opened "db" .zero .blank).map (fun x => decide (AllCover x overwriting)) = some true := by
    decide +kernel
  rw [hx, Option.map_some, Option.some.injEq] at hsuccesses hcover
  have hstrict : ∀ a ∈ overwriting, a.Strict := by
    intro a ha k hk
    fin_cases ha <;> cases hk
    decide
  have hrun := hall overwriting hstrict (of_decide_eq_true hcover)
  rw [hsuccesses] at hrun
  refine ⟨x, km, b, hx, hkm, hb, hsuccesses, ?_⟩
  simpa [Mutation.call] using hrun

/-! ## A write that is too short -/

/-- A successful mutation on any disk, whatever is behind the write position. -/
theorem exec_program {d0 d : Disk} {s : Store} (h : Serves d0 s path recs) {m : Mutation} (hw : m.Writes s) :
    ∃ s' d', Disk.exec (m.program s) d = ((.ok (), s'), d') ∧ s'.closed = false ∧ s'.lock = s.lock ∧
      s'.log.file = s.log.file ∧ d'.dir = d.dir ∧ d'.next = d.next ∧
      (d'.files s.log.file.inode).content =
        writeAt (d.files s.log.file.inode).content s.log.writePos m.bytes := by
  obtain ⟨key, value, attributes, deleted, ab, context, good, hlim, hbytes, hprog, hgood⟩ := program_append h hw
  obtain ⟨l', happ, hsame, -⟩ := exec_append h.image.isOpen h.image.versionEq h.unknownReadOnly hlim deleted d
  obtain ⟨index, cache, context', hg⟩ := hgood (placedAt s.log.writePos (appendRaw key ab value [] deleted)) l'
  have hopen : l'.file.isOpen = true := by rw [hsame.file, h.image.isOpen]
  obtain ⟨d', hsync, hd'⟩ := exec_syncMutation (s := { s with log := l', index := index, cache := cache })
    hopen context' (d.setContent s.log.file.inode (writeAt (d.files s.log.file.inode).content s.log.writePos
      (appendRaw key ab value [] deleted).bytes))
  refine ⟨{ s with log := l', index := index, cache := cache }, d', ?_, h.closed, rfl, hsame.file, ?_, ?_, ?_⟩
  · rw [hprog, Disk.exec_orElseState_ok happ, hg, hsync]
  · rw [hd']
    split <;> rfl
  · rw [hd']
    split <;> rfl
  · rw [hd', hbytes, hsame.file]
    split <;> simp

/-- The bytes of a record that a shorter one does not overwrite are read as a record. -/
theorem Leftover.seen (h : Leftover path x recs) {m : Mutation} (hw : m.Writes x.store) {e : Err}
    (hne : ((x.disk.files x.store.log.file.inode).content.drop x.store.log.writePos).drop m.bytes.length ≠ [])
    (he : ∀ pos, AppendLog.readRecord logVersion pos
      (((x.disk.files x.store.log.file.inode).content.drop x.store.log.writePos).drop m.bytes.length) = .error e)
    (heof : e.isEOF = false) {options : Options} (hacc : options.Accepted path) (km : KeyMap) (b : Bytes) :
    ¬ Recovers path options (x.attempt ⟨m, none⟩).2 km b := by
  obtain ⟨s', d', hexec, hclosed, hlock, hfile, hdir, hnext, hcontent⟩ := exec_program (d := x.disk) h.serves hw
  obtain ⟨r, -, -, -, -, hr⟩ := exec_mutation_writes h.serves hw
  have hfaulty := Disk.execFaulty_nil (m.program x.store) x.disk
  rw [hexec] at hfaulty
  rw [attempt_eq (a := ⟨m, none⟩) hfaulty]
  rintro ⟨s1, d1, s2, d2, hclose, hopen, -⟩
  obtain ⟨i, hi, hlockdir⟩ := h.serves.lock
  have hisOpen : s'.log.file.isOpen = true := by rw [hfile, h.serves.image.isOpen]
  obtain ⟨d3, hclose', hdir3, hnext3, hcontent3⟩ := exec_close_disk hclosed hisOpen (by rw [hlock, hi]) d'
  rw [hclose] at hclose'
  cases hclose'
  have hdirs : (d3.setLock i false).dir = x.disk.dir := by rw [Disk.dir_setLock, hdir3, hdir]
  have hmain : (d3.setLock i false).dir path = some x.store.log.file.inode := by
    rw [hdirs]
    exact h.serves.dir
  have hrec : recoveredMain (d3.setLock i false).dir path = some x.store.log.file.inode := by
    rw [recoveredMain, hmain]
    rfl
  have hfree : LockFree (d3.setLock i false) path := by
    intro j hj
    rw [hdirs] at hj
    rw [← Option.some.inj (hlockdir.symm.trans hj), Disk.locked_setLock]
  have hbytes : ((d3.setLock i false).files x.store.log.file.inode).content = currentHeader ++ concat (recs ++ [r]) ++
      ((x.disk.files x.store.log.file.inode).content.drop x.store.log.writePos).drop m.bytes.length := by
    rw [Disk.files_setLock, hcontent3, hcontent, concat_append, concat_cons, concat_nil, List.append_nil, hr,
      ← List.append_assoc]
    nth_rewrite 1 [h.content]
    rw [← h.front_length, writeAt_append, h.front_length]
  have htake : ((d3.setLock i false).files x.store.log.file.inode).content.take logHeaderSize = currentHeader := by
    rw [hbytes, List.append_assoc, List.take_left' currentHeader_length]
  have hheader : readHeaderOf ((d3.setLock i false).files x.store.log.file.inode).content =
      .ok ⟨logVersion, 0, 0⟩ := by
    unfold readHeaderOf
    rw [htake, decodeHeader_current, if_neg]
    rw [hbytes, List.length_append, List.length_append, currentHeader_length]
    omega
  obtain ⟨d4, hfail, -⟩ := exec_openStore_corrupt hacc (h.serves.sound.of_dir (hdirs) (hnext3.trans hnext)) hfree hrec
    hheader rfl (by rw [htake]; exact hbytes) hne (he _) heof
  rw [hfail] at hopen
  cases hopen

/-- **A failed append is not harmless in general.** A `Put` fails after 40 of its 49 bytes and a shorter
one succeeds; the bytes of the first behind the second then make the next `Open` fail. -/
theorem failed_append_seen : ¬ ∀ (path : Path) (options options' : Options) (d : Disk) (s : Store) (d' : Disk),
    d.Sound → FeaturesKnown d path → Disk.exec (openStore path options) d = (.ok s, d') →
    options'.Accepted path → ∀ km b, Refines path ⟨s, d'⟩ km → d'.bytesAt path = some b →
    ∀ as : List Attempt, (∀ a ∈ as, a.Strict) →
      Recovers path options' (final Session.attempt ⟨s, d'⟩ as)
        (final KeyMap.call km ((successes ⟨s, d'⟩ as).map Mutation.call))
        (b ++ (successes ⟨s, d'⟩ as).flatMap Mutation.bytes) := by
  intro hall
  have hacc : Options.zero.Accepted "db" := zero_accepted (by decide)
  have hnew : ∀ i, recoveredMain Disk.blank.dir "db" ≠ some i := fun i hi => Option.some_ne_none i hi.symm
  obtain ⟨s, d, hopen, hserves, -⟩ := exec_openStore_fresh hacc Disk.blank_sound (blank_lockFree "db")
    (fun i hi => absurd hi (hnew i))
  obtain ⟨km, hkm⟩ := exists_shows []
  have hrec := hall "db" .zero .zero .blank s d Disk.blank_sound (fun i _ hi _ => absurd hi (hnew i)) hopen hacc km
    _ ⟨[], hserves, hkm⟩ hserves.bytesAt
    [⟨.put [97] (List.replicate 20 0) none, some 40⟩, ⟨.put [98] [] none, none⟩] (by
      intro a ha k hk
      rcases List.mem_pair.mp ha with rfl | rfl
      · cases hk
        decide
      · cases hk)
  have hw : (Mutation.put [97] (List.replicate 20 0) none).Writes s := ⟨[0, 0, 0, 0], rfl⟩
  have hleft := leftover_of_serves (x := ⟨s, d⟩) hserves
  obtain ⟨e, s1, d1, hfaulty, hleft1, hcontent1⟩ := hleft.fails hw (k := 40) (by decide) (by
    rw [hserves.image.length]
    exact Nat.le_add_right _ _)
  have hattempt : (⟨s, d⟩ : Session).attempt ⟨.put [97] (List.replicate 20 0) none, some 40⟩ =
      (.error e, ⟨s1, d1⟩) := attempt_eq hfaulty
  have hdrop : ((d1.files s1.log.file.inode).content.drop s1.log.writePos).drop
      (Mutation.put [98] [] none).bytes.length = List.replicate 11 0 := by
    have hpos : s1.log.writePos = currentHeader.length := by
      rw [← hleft1.front_length, concat_nil, List.append_nil]
    rw [hcontent1, concat_nil, List.append_nil, hpos, List.drop_left]
    decide
  rw [final, final, final, hattempt] at hrec
  refine hleft1.seen (m := .put [98] [] none) ⟨[0, 0, 0, 0], rfl⟩ (e := .plain "invalid record length 0") ?_ ?_ rfl
    hacc _ _ hrec
  · rw [hdrop]
    decide
  · intro pos
    rw [hdrop]
    rfl

end

end AppendStore
