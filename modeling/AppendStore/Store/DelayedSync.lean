import AppendStore.Store.Acknowledged

/-! # What a crash can undo when syncs are delayed

With a sync interval other than zero a mutation is acknowledged before it is on the disk. `Persists` are the lives
of a store on one machine: processes open it, mutate, sync and compact it, close it or are killed, and the machine
loses its power at any instant of any of this, again and again. Of every life it keeps the map the store shows and
the trail: the maps of the last sync and after each mutation since then. A sync, a compaction, and a `Close` that
syncs leave the last map alone on the trail.

A power loss takes the store back along its trail and no further: the next `Open` shows one of the maps on it, or
the map after the mutation that was running (`loss_bounded`). So no mutation is lost that a sync has followed, none
is lost while a later one is kept, and none is kept in part.

Calls that only read change nothing on the disk and are left out.
-/

namespace AppendStore
open Library
set_option autoImplicit false

/-! ## Lives -/

/-- What an open store is asked to do with its log. -/
inductive Duty
  | mutate (m : Mutation)
  | sync
  | compact

def Duty.program (s : Store) : Duty → FileProg (Except Err Unit × Store)
  | .mutate m => m.program s
  | .sync => do
    let r ← s.sync
    pure (r, s)
  | .compact => s.compact

/-- The map after a duty that succeeds. -/
def Duty.map (km : KeyMap) : Duty → KeyMap
  | .mutate m => (km.call m.call).2
  | .sync => km
  | .compact => km

/-- The trail after a duty that succeeds. -/
def Duty.trail (options : Options) (trail : List KeyMap) (km : KeyMap) : Duty → List KeyMap
  | .mutate m => if options.syncInterval = 0 then [(km.call m.call).2] else trail ++ [(km.call m.call).2]
  | .sync => [km]
  | .compact => [km]

/-- A machine on which a process has the store open, or none has. -/
inductive Host
  | running (x : Session)
  | idle (d : Disk)

/-- `Instant path host km t extra`: `t` is the disk at an instant of the next call, which may have the maps in `extra`
for its effect. -/
inductive Instant (path : Path) : Host → KeyMap → Disk → List KeyMap → Prop
  | opening {d t : Disk} {km : KeyMap} {options : Options} : options.Accepted path →
      Prog.Visits Disk.answer (openStore path options) d t → Instant path (.idle d) km t []
  | working {x : Session} {t : Disk} {km : KeyMap} (duty : Duty) :
      Prog.Visits Disk.answer (duty.program x.store) x.disk t → Instant path (.running x) km t [duty.map km]
  | closing {x : Session} {t : Disk} {km : KeyMap} :
      Prog.Visits Disk.answer x.store.close x.disk t → Instant path (.running x) km t []

/-- Every `Open` that may migrate the log succeeds and shows the map. -/
def OpensTo (path : Path) (d : Disk) (km : KeyMap) : Prop :=
  ∀ options : Options, options.Accepted path → (∀ v < logVersion, migrationAnswer path options.withDefaults v = none) →
    ∃ s d', Disk.exec (openStore path options) d = (.ok s, d') ∧ Refines path ⟨s, d'⟩ km

/-- The bytes of a log that shows one of the maps. -/
def ShownBy (trail : List KeyMap) (b : Bytes) : Prop := ∃ k ∈ trail, ∃ c, k.Shows c ∧ Holds KeepsFront c b

/-- The records in `done` are synced, those in `rest` may be lost from the end. -/
structure Lagged (path : Path) (trail : List KeyMap) (i : ℕ) (done rest : List (Rec logVersion)) (d : Disk) : Prop where
  finds : Finds AnyOp path i ⟨currentHeader ++ concat (done ++ rest), currentHeader ++ concat done⟩ d
  shows : ∀ front, front <+: rest → ∃ k ∈ trail, k.Shows (contents (done ++ front))

section
variable {path : Path} {trail : List KeyMap} {km : KeyMap} {x : Session} {s s' : Store} {d d' t : Disk} {i : ℕ}
  {done rest recs : List (Rec logVersion)} {r : Rec logVersion}

theorem ShownBy.mono {trail' : List KeyMap} {b : Bytes} (h : ShownBy trail b) (hsub : trail ⊆ trail') :
    ShownBy trail' b := by
  obtain ⟨k, hk, c, hc⟩ := h
  exact ⟨k, hsub hk, c, hc⟩

theorem Recoverable.mono {lossy : DirOp → Prop} {keeps : ℕ → File → Bytes → Prop} {good good' : Bytes → Prop}
    (h : Recoverable lossy keeps path good d) (hgood : ∀ b, good b → good' b) :
    Recoverable lossy keeps path good' d := by
  refine ⟨h.sound, fun n hn => ?_⟩
  obtain ⟨i, hmain, hkeeps⟩ := h.log n hn
  exact ⟨i, hmain, fun b hb => hgood b (hkeeps b hb)⟩

/-- Of the records that are not synced a front part is kept, and then perhaps a part of the next one. -/
theorem Lagged.shown (h : Lagged path trail i done rest d) {b : Bytes}
    (hb : KeepsFront i ⟨currentHeader ++ concat (done ++ rest), currentHeader ++ concat done⟩ b) : ShownBy trail b := by
  rw [concat_append, ← List.append_assoc] at hb
  obtain ⟨n, rfl⟩ := keepsFront_added hb
  obtain ⟨front, back, tail, rfl, htake, -, hcut, -⟩ := take_concat rest n
  obtain ⟨k, hk, hshows⟩ := h.shows front (List.prefix_append _ _)
  refine ⟨k, hk, _, hshows, ?_⟩
  rw [htake, ← List.append_assoc, List.append_assoc currentHeader, ← concat_append]
  exact holds_torn rfl (hcut _)

theorem Lagged.recoverable (h : Lagged path trail i done rest d) :
    Recoverable AnyOp KeepsFront path (ShownBy trail) d :=
  h.finds.recoverable fun _ hb => h.shown hb

/-- A log all of which is synced. -/
theorem lagged_synced (hfinds : Finds AnyOp path i ⟨currentHeader ++ concat recs, currentHeader ++ concat recs⟩ d)
    (hkm : km ∈ trail) (hshows : km.Shows (contents recs)) : Lagged path trail i recs [] d := by
  refine ⟨by rwa [List.append_nil], fun front hfront => ⟨km, hkm, ?_⟩⟩
  rwa [List.prefix_nil.mp hfront, List.append_nil]

/-- One record more, which is not synced. -/
theorem Lagged.grown (h : Lagged path trail i done rest d)
    (hfinds : Finds AnyOp path i ⟨currentHeader ++ concat (done ++ rest) ++ r.bytes, currentHeader ++ concat done⟩ t)
    (hshows : km.Shows (contents (done ++ rest ++ [r]))) : Lagged path (trail ++ [km]) i done (rest ++ [r]) t := by
  refine ⟨?_, fun front hfront => ?_⟩
  · rwa [← List.append_assoc, concat_append (done ++ rest), concat_cons, concat_nil, List.append_nil,
      ← List.append_assoc]
  · obtain rfl | hfront := List.prefix_concat_iff.mp hfront
    · exact ⟨km, by simp, by rwa [← List.append_assoc]⟩
    · obtain ⟨k, hk, hk'⟩ := h.shows front hfront
      exact ⟨k, List.mem_append_left _ hk, hk'⟩

/-! ## The duties of an open store -/

/-- The log at an instant of a mutation. -/
theorem Finds.mutation {f : File} (h : Finds AnyOp path i f d) (m : Mutation)
    (hv : Prog.Visits Disk.answer (m.program s) d t) : Finds AnyOp path i (t.files i) t := by
  have hcalls : (m.program s).Each (fun o => ∀ q ∈ path :: artifacts path, ¬ o.Binds q) fun _ => True := by
    cases m with
    | put key value options =>
      exact (calls_put (fun _ _ ho _ _ => not_binds_of_on ho) s key value options).mono fun _ _ => trivial
    | delete key => exact (calls_delete (fun _ _ ho _ _ => not_binds_of_on ho) s key).mono fun _ _ => trivial
  obtain ⟨hsteady, hown⟩ := h.steady.visits hcalls hv
  refine ⟨h.sound.visits hv, hsteady, ?_, rfl⟩
  rw [recoveredMain_congr (hown path List.mem_cons_self) fun q hq => hown q (List.mem_cons_of_mem _ hq), h.main]

section
variable (h : Lagged path trail s.log.file.inode done rest d) (hserves : Serves d s path (done ++ rest))
  (hshows : km.Shows (contents (done ++ rest)))
include h hserves hshows

omit hserves hshows in
/-- A record is written; it may be synced. -/
theorem Lagged.written {km' : KeyMap} (hfinds : Finds AnyOp path s.log.file.inode (t.files s.log.file.inode) t)
    (hcontent : (t.files s.log.file.inode).content = (d.files s.log.file.inode).content ++ r.bytes)
    (hsynced : (t.files s.log.file.inode).synced = (d.files s.log.file.inode).synced ∨
      (t.files s.log.file.inode).synced = (t.files s.log.file.inode).content)
    (hshows' : km'.Shows (contents (done ++ rest ++ [r]))) :
    Lagged path (trail ++ [km']) s.log.file.inode done (rest ++ [r]) t ∨
      Lagged path [km'] s.log.file.inode (done ++ rest ++ [r]) [] t := by
  have hbytes : currentHeader ++ concat (done ++ rest) ++ r.bytes = currentHeader ++ concat (done ++ rest ++ [r]) := by
    rw [concat_append (done ++ rest), concat_cons, concat_nil, List.append_nil, List.append_assoc]
  rw [h.finds.file] at hcontent hsynced
  cases hf : t.files s.log.file.inode with
  | mk content synced =>
    rw [hf] at hcontent hsynced hfinds
    dsimp only at hcontent hsynced
    subst hcontent
    obtain rfl | rfl := hsynced
    · exact .inl (h.grown hfinds hshows')
    · rw [hbytes] at hfinds
      exact .inr (lagged_synced hfinds (List.mem_singleton_self _) hshows')

theorem Lagged.mutate {m : Mutation} (hexec : Disk.exec (m.program s) d = ((.ok (), s'), d')) :
    ∃ done' rest', Serves d' s' path (done' ++ rest') ∧ (km.call m.call).2.Shows (contents (done' ++ rest')) ∧
      Lagged path (Duty.trail s.options trail km (.mutate m)) s'.log.file.inode done' rest' d' := by
  obtain ⟨e, hexec'⟩ | ⟨r, s'', d'', hexec', hmut⟩ := exec_mutation hserves m
  · rw [hexec] at hexec'
    cases hexec'
  rw [hexec] at hexec'
  cases hexec'
  have hshows' := shows_mutated (x := ⟨s, d⟩) hserves hshows hexec hmut
  have hfinds := h.finds.mutation m (Prog.visits_end hexec)
  rw [hmut.file, Duty.trail]
  by_cases hsync : s.options.syncInterval = 0
  · rw [if_pos hsync]
    refine ⟨done ++ rest ++ [r], [], by rw [List.append_nil]; exact hmut.serves, by rwa [List.append_nil], ?_⟩
    refine lagged_synced ?_ (List.mem_singleton_self _) hshows'
    have hcontent := hmut.serves.image.content
    rw [hmut.file] at hcontent
    rwa [file_synced hcontent (hmut.synced hsync)] at hfinds
  · rw [if_neg hsync]
    refine ⟨done, rest ++ [r], by rw [← List.append_assoc]; exact hmut.serves, by rwa [← List.append_assoc], ?_⟩
    refine h.grown ?_ hshows'
    have hcontent := hmut.grew.content
    have hsynced := hmut.unsynced hsync
    rw [h.finds.file] at hcontent hsynced
    cases hf : d'.files s.log.file.inode with
    | mk content synced =>
      rw [hf] at hcontent hsynced hfinds
      dsimp only at hcontent hsynced
      rwa [hcontent, hsynced] at hfinds

theorem Lagged.mutating (m : Mutation) (hv : Prog.Visits Disk.answer (m.program s) d t) :
    Recoverable AnyOp KeepsFront path (ShownBy (trail ++ [(km.call m.call).2])) t := by
  obtain rfl | ⟨r, s', d', hexec, hmut, hmid⟩ := visits_mutation hserves m hv
  · exact h.recoverable.mono fun b hb => hb.mono (List.subset_append_left _ _)
  · have hshows' := shows_mutated (x := ⟨s, d⟩) hserves hshows hexec hmut
    obtain hlag | hlag := h.written (h.finds.mutation m hv) hmid.content hmid.synced hshows'
    · exact hlag.recoverable
    · exact hlag.recoverable.mono fun b hb => hb.mono (List.subset_append_right _ _)

omit hserves in
theorem Lagged.synced : Lagged path [km] s.log.file.inode (done ++ rest) []
    (d.syncFile s.log.file.inode) := by
  refine lagged_synced (h.finds.touched (touched_syncFile d _) ?_) (List.mem_singleton_self _) hshows
  simp [Disk.syncFile, h.finds.file]

omit h hshows in
/-- `Sync`, at any instant and at its end. -/
theorem exec_syncDuty : Disk.exec (Duty.program s .sync) d = ((.ok (), s), d.syncFile s.log.file.inode) ∧
    ∀ t, Prog.Visits Disk.answer (Duty.program s .sync) d t → t = d ∨ t = d.syncFile s.log.file.inode := by
  have hprogram : s.sync = s.log.sync := if_neg (by rw [hserves.closed]; exact Bool.false_ne_true)
  have hsync := exec_syncLog hserves.image.isOpen d
  rw [Duty.program, hprogram]
  refine ⟨Disk.exec_bind_eq hsync _, fun t ht => ?_⟩
  obtain ht | ht := Prog.visits_bind_eq hsync ht
  · obtain ht | ht := Prog.visits_orElse_ok (Disk.exec_fsync hserves.image.isOpen d) ht
    · exact (Prog.visits_perform ht).imp_right fun heq =>
        heq.trans (congrArg Prod.snd (Disk.exec_fsync hserves.image.isOpen d))
    · exact .inr (Prog.visits_pure ht)
  · exact .inr (Prog.visits_pure ht)

theorem Lagged.compact :
    ∃ s' d', Disk.exec s.compact d = ((.ok (), s'), d') ∧ Serves d' s' path (compacted (done ++ rest)) ∧
      Lagged path [km] s'.log.file.inode (compacted (done ++ rest)) [] d' ∧
      ∀ t, Prog.Visits Disk.answer s.compact d t → Recoverable AnyOp KeepsFront path (ShownBy trail) t := by
  obtain ⟨s', d', hexec, hserves', -, hfinds⟩ := h.finds.compacted hserves
  have hcontents := contents_compacted (done ++ rest)
  refine ⟨s', d', hexec, hserves', lagged_synced hfinds (List.mem_singleton_self _) (by rwa [hcontents]),
    fun t ht => ?_⟩
  obtain ⟨k, hk, hk'⟩ := h.shows rest (List.prefix_refl _)
  exact h.finds.compaction hserves keepsFront_durable (fun b hb => h.shown hb)
    ⟨k, hk, _, hk', holds_current hcontents⟩ ht

end

/-! ## Closing -/

/-- What `Close` does to the disk. -/
theorem exec_close_eq {k : ℕ} (hclosed : s.closed = false) (hopen : s.log.file.isOpen = true)
    (hlock : s.lock.file = some ⟨k, true⟩) (d : Disk) : Disk.exec s.close d =
      ((none, s.shut), (if 0 ≤ s.options.syncInterval then d.syncFile s.log.file.inode else d).setLock k false) := by
  have hsync : Disk.exec ({ s with closed := true } : Store).closingSync d =
      (.ok (), if 0 ≤ s.options.syncInterval then d.syncFile s.log.file.inode else d) := by
    unfold Store.closingSync
    dsimp only
    split
    · exact exec_syncLog hopen d
    · rfl
  unfold Store.close
  rw [if_neg (by rw [hclosed]; exact Bool.false_ne_true)]
  dsimp only
  refine (Disk.exec_bind_eq hsync _).trans ?_
  rw [Disk.exec_bind_eq (exec_closeLog hopen _), Disk.exec_bind_eq (exec_release hlock _)]
  rfl

/-- The log at an instant of `Close`: as it was, or synced. -/
theorem Finds.closes {f : File} (h : Finds AnyOp path i f d) (hv : Prog.Visits Disk.answer s.close d t) :
    Finds AnyOp path i f t ∨ Finds AnyOp path i ⟨f.content, f.content⟩ t := by
  have hother : ∀ o : FileOp, (∀ q ∈ path :: artifacts path, ¬ o.Binds q) ∧ ¬ o.Rewrites i → ∀ u,
      (Finds AnyOp path i f u ∨ Finds AnyOp path i ⟨f.content, f.content⟩ u) →
      Finds AnyOp path i f (Disk.answer o u).2 ∨ Finds AnyOp path i ⟨f.content, f.content⟩ (Disk.answer o u).2 := by
    intro o ho u hu
    have hone : Prog.Visits Disk.answer (Prog.perform o) u (Disk.answer o u).2 := Prog.visits_run _ u
    exact hu.imp (fun hu => hu.visits (Prog.each_perform ho) hone) fun hu => hu.visits (Prog.each_perform ho) hone
  have hcalls := calls_closing (P := fun o => ∀ u,
      (Finds AnyOp path i f u ∨ Finds AnyOp path i ⟨f.content, f.content⟩ u) →
      Finds AnyOp path i f (Disk.answer o u).2 ∨ Finds AnyOp path i ⟨f.content, f.content⟩ (Disk.answer o u).2)
    (fun g u hu => ?_) (fun _ => hother _ ⟨fun _ _ => id, id⟩) (fun _ => hother _ ⟨fun _ _ => id, id⟩) s
  · exact hcalls.visits (fun o u ho hu => ho u hu) (.inl h) hv
  · by_cases hg : g.inode = i
    · simp only [Disk.answer, Disk.onOpen]
      split
      · have htouched : Touched u (u.syncFile g.inode) i := hg ▸ touched_syncFile u g.inode
        refine .inr (hu.elim (fun hu => hu.touched htouched ?_) fun hu => hu.touched htouched ?_)
        · simp [Disk.syncFile, hg, hu.file]
        · simp [Disk.syncFile, hg, hu.file]
      · exact hu
    · exact hother (.fsync g) ⟨fun _ _ => id, hg⟩ u hu

theorem Lagged.unlocked (h : Lagged path trail i done rest d) (locked : ℕ → Bool) :
    Lagged path trail i done rest { d with locked := locked } :=
  ⟨⟨h.finds.sound.of_same rfl rfl rfl, h.finds.steady.of_same rfl rfl, h.finds.main, h.finds.file⟩, h.shows⟩

theorem Lagged.closing (h : Lagged path trail s.log.file.inode done rest d)
    (hv : Prog.Visits Disk.answer s.close d t) : Recoverable AnyOp KeepsFront path (ShownBy trail) t := by
  obtain hfinds | hfinds := h.finds.closes hv
  · exact hfinds.recoverable fun b hb => h.shown hb
  · obtain ⟨k, hk, hk'⟩ := h.shows rest (List.prefix_refl _)
    exact hfinds.durable keepsFront_durable ⟨k, hk, _, hk', holds_current rfl⟩

/-! ## Opening -/

/-- `Open` of a log that is complete leaves it as it is. -/
theorem Lagged.opening {options : Options} (h : Lagged path trail i done rest d) (hacc : options.Accepted path)
    (hfree : LockFree d path) :
    Prog.Guarded Disk.answer (Recoverable AnyOp KeepsFront path (ShownBy trail)) (openStore path options) d fun r d' =>
      ∃ s, r = .ok s ∧ Serves d' s path (done ++ rest) ∧ Lagged path trail s.log.file.inode done rest d' := by
  obtain ⟨k, d1, d2, hlock, hrecover, hready, -⟩ := exec_lockAndRecover h.finds.sound.sound hfree
  have hset := hready.settled h.finds.main
  have hgood : ∀ b, KeepsFront i _ b → ShownBy trail b := fun b hb => h.shown hb
  obtain ⟨hinstants, hf2⟩ := (h.finds.lock (Prog.visits_end hlock)).recover hgood hrecover hset.dir
  have hlag : Lagged path trail i done rest d2 := ⟨hf2, h.shows⟩
  have hcontent : (d2.files i).content = currentHeader ++ concat (done ++ rest) := by rw [hf2.file]
  have hr : Reads (d2.files i).content ⟨logVersion, 0, 0⟩ (done ++ rest) := by
    have hcurrent : Reads (currentHeader ++ concat (done ++ rest) ++ []) ⟨logVersion, 0, 0⟩ (done ++ rest) :=
      reads_current (.inl rfl)
    rwa [List.append_nil, ← hcontent] at hcurrent
  have hne : (d2.files i).content ≠ [] := by
    rw [hcontent]
    exact currentHeader_append_ne_nil _
  obtain ⟨l, hopen, ho⟩ := exec_openAppendLogFile_ok hset.dir hne hr.headerOk
  obtain ⟨s, d3, ⟨hscan, -⟩, -, hbacked, -, -, hfile, -⟩ := exec_recoverOpened options.withDefaults hset ho hr rfl
  have hopened : l.file.isOpen = true := by rw [ho.file]
  -- nothing is cut off
  have hunchanged : d3 = d2 := by
    have hwhole : (d2.files l.file.inode).content = currentHeader ++ concat (done ++ rest) ++ [] := by
      rw [ho.file, List.append_nil, hcontent]
    have hit := exec_iterate_complete recoverRecord_eq hopened (by rw [ho.writePos, ho.file]) ho.version
      currentHeader_length hwhole
      (newIndex options.withDefaults.indexedFields, newLRUCache options.withDefaults.cacheSize.toNat) rfl
    have hrun := hscan.symm.trans (exec_recover_of_iterate hit)
    exact congrArg Prod.snd hrun
  subst hunchanged
  have hopenLog : Disk.exec (openAppendLog path) d1 = (.ok l, d3) := by
    unfold openAppendLog
    rw [Disk.exec_andThen_ok hrecover, hopen]
  rw [openStore_eq hacc]
  refine Prog.guarded_orElse_ok hlock (fun t ht => (h.finds.lock ht).recoverable hgood) ?_
  refine Prog.guarded_orElse_ok hopenLog (fun t ht => ?_) ?_
  · unfold openAppendLog at ht
    obtain ht | ht := Prog.visits_orElse_ok hrecover ht
    · exact hinstants t ht
    · exact visits_openAppendLogFile hset.dir hne ht ▸ hlag.recoverable
  unfold recoverOpened recoverWith
  refine Prog.guarded_orElseState_ok hscan (fun t ht => ?_) ?_
  · rw [(visits_recoverStore hopened hscan ht).elim id id]
    exact hlag.recoverable
  have hheader : (d3.files i).content.take logHeaderSize = currentHeader := hr.current rfl
  rw [hheader] at hbacked
  unfold migrateOlder
  rw [if_neg (by rw [hbacked.image.versionEq]; exact Nat.lt_irrefl _)]
  refine Prog.guarded_pure hlag.recoverable ⟨s, rfl, hbacked, ?_⟩
  rw [hfile]
  exact hlag

/-! ## Lives, step by step -/

/-- What a life has at each of its stages. -/
def Holding (path : Path) (trail : List KeyMap) (km : KeyMap) : Host → Prop
  | .running x => ∃ done rest, Serves x.disk x.store path (done ++ rest) ∧ km.Shows (contents (done ++ rest)) ∧
      Lagged path trail x.store.log.file.inode done rest x.disk
  | .idle d => (∃ c, Found AnyOp path (Holds KeepsFront c) d ∧ km.Shows c ∧ km ∈ trail) ∨
      ∃ i done rest, LockFree d path ∧ km.Shows (contents (done ++ rest)) ∧ Lagged path trail i done rest d

theorem Holding.opened {options : Options} (h : Holding path trail km (.idle d))
    (hopen : Disk.exec (openStore path options) d = (.ok s, d')) : Holding path trail km (.running ⟨s, d'⟩) := by
  have hrun : Prog.run Disk.answer (openStore path options) d = (.ok s, d') := hopen
  obtain ⟨c, hfound, hshows, hkm⟩ | ⟨i, done, rest, hfree, hshows, hlag⟩ := h
  · obtain ⟨_, _, hfinds, -⟩ := id hfound.log
    obtain ⟨hacc, -⟩ := openStore_ok hfinds.sound.sound hopen
    obtain ⟨recs, hstands, rfl, -⟩ := hfound.opened hacc hopen
    refine ⟨recs, [], by rw [List.append_nil]; exact hstands.1, by rwa [List.append_nil], ?_⟩
    exact lagged_synced hstands.2 hkm hshows
  · obtain ⟨hacc, -⟩ := openStore_ok hlag.finds.sound.sound hopen
    obtain ⟨s', hs', hserves, hlag'⟩ := (hlag.opening hacc hfree).2
    rw [hrun] at hs' hserves hlag'
    cases hs'
    exact ⟨done, rest, hserves, hshows, hlag'⟩

theorem Holding.succeeded {duty : Duty} (h : Holding path trail km (.running x))
    (hexec : Disk.exec (duty.program x.store) x.disk = ((.ok (), s), d)) :
    Holding path (duty.trail x.store.options trail km) (duty.map km) (.running ⟨s, d⟩) := by
  obtain ⟨done, rest, hserves, hshows, hlag⟩ := h
  cases duty with
  | mutate m =>
    obtain ⟨done', rest', hserves', hshows', hlag'⟩ := hlag.mutate hserves hshows hexec
    exact ⟨done', rest', hserves', hshows', hlag'⟩
  | sync =>
    rw [(exec_syncDuty hserves).1] at hexec
    cases hexec
    have hserves' : Serves (x.disk.syncFile x.store.log.file.inode) x.store path (done ++ rest) :=
      hserves.of_disk rfl rfl (Disk.content_syncFile ..)
    exact ⟨done ++ rest, [], by rw [List.append_nil]; exact hserves', by rwa [List.append_nil], hlag.synced hshows⟩
  | compact =>
    obtain ⟨s', d', hexec', hserves', hlag', -⟩ := hlag.compact hserves hshows
    have hsame := hexec.symm.trans hexec'
    cases hsame
    refine ⟨compacted (done ++ rest), [], by rw [List.append_nil]; exact hserves', ?_, hlag'⟩
    rw [List.append_nil, contents_compacted]
    exact hshows

/-- A duty that fails has done nothing. -/
theorem Holding.refused {duty : Duty} {e : Err} (h : Holding path trail km (.running x))
    (hexec : Disk.exec (duty.program x.store) x.disk = ((.error e, s), d)) : (⟨s, d⟩ : Session) = x := by
  obtain ⟨done, rest, hserves, hshows, hlag⟩ := h
  cases duty with
  | mutate m =>
    obtain ⟨e', hexec'⟩ | ⟨r, s', d', hexec', -⟩ := exec_mutation hserves m
    · have hsame := hexec.symm.trans hexec'
      cases hsame
      rfl
    · have hsame := hexec.symm.trans hexec'
      cases hsame
  | sync =>
    rw [(exec_syncDuty hserves).1] at hexec
    cases hexec
  | compact =>
    obtain ⟨s', d', hexec', -⟩ := hlag.compact hserves hshows
    have hsame := hexec.symm.trans hexec'
    cases hsame

theorem Holding.closed (h : Holding path trail km (.running x)) :
    Holding path (if 0 ≤ x.store.options.syncInterval then [km] else trail) km
      (.idle (Disk.exec x.store.close x.disk).2) := by
  obtain ⟨done, rest, hserves, hshows, hlag⟩ := h
  obtain ⟨k, hlock, -⟩ := hserves.lock
  obtain ⟨s', d', hclose, hrest⟩ := exec_close hserves
  have hdisk := exec_close_eq hserves.closed hserves.image.isOpen hlock x.disk
  have hfree := hrest.lockFree
  rw [show d' = (Disk.exec x.store.close x.disk).2 by rw [hclose], hdisk] at hfree
  rw [hdisk]
  split
  · rename_i hsync
    rw [if_pos hsync] at hfree
    refine .inr ⟨x.store.log.file.inode, done ++ rest, [], hfree, by rwa [List.append_nil], ?_⟩
    exact (hlag.synced hshows).unlocked _
  · rename_i hsync
    rw [if_neg hsync] at hfree
    exact .inr ⟨x.store.log.file.inode, done, rest, hfree, hshows, hlag.unlocked _⟩

/-- **At every instant of a life** a power loss leaves a log that shows a map on the trail, or the map after the call
that is running. -/
theorem Holding.recoverable {host : Host} {extra : List KeyMap} (h : Holding path trail km host)
    (hinstant : Instant path host km t extra) : Recoverable AnyOp KeepsFront path (ShownBy (trail ++ extra)) t := by
  cases hinstant with
  | opening hacc hv =>
    rw [List.append_nil]
    obtain ⟨c, hfound, hshows, hkm⟩ | ⟨i, done, rest, hfree, -, hlag⟩ := h
    · exact ((guarded_openStore hacc keepsFront_durable hfound).1 t hv).mono fun b hb => ⟨km, hkm, c, hshows, hb⟩
    · exact (hlag.opening hacc hfree).1 t hv
  | working duty hv =>
    obtain ⟨done, rest, hserves, hshows, hlag⟩ := h
    have hwiden : ∀ {t}, Recoverable AnyOp KeepsFront path (ShownBy trail) t →
        Recoverable AnyOp KeepsFront path (ShownBy (trail ++ [duty.map km])) t :=
      fun h => h.mono fun b hb => hb.mono (List.subset_append_left _ _)
    cases duty with
    | mutate m => exact hlag.mutating hserves hshows m hv
    | sync =>
      obtain rfl | rfl := (exec_syncDuty hserves).2 t hv
      · exact hwiden hlag.recoverable
      · exact (hlag.synced hshows).recoverable.mono fun b hb => hb.mono (List.subset_append_right _ _)
    | compact =>
      obtain ⟨s', d', -, -, -, hinstants⟩ := hlag.compact hserves hshows
      exact hwiden (hinstants t hv)
  | closing hv =>
    rw [List.append_nil]
    obtain ⟨done, rest, -, -, hlag⟩ := h
    exact hlag.closing hv

/-- What is left after a power loss. -/
theorem Recoverable.lost (h : Recoverable AnyOp KeepsFront path (ShownBy trail) t)
    (hloss : Disk.PowerLoss AnyOp KeepsFront t d) :
    ∃ k ∈ trail, ∃ c, Found AnyOp path (Holds KeepsFront c) d ∧ k.Shows c := by
  obtain ⟨hfree, i, b, hfinds, k, hk, c, hshows, hholds⟩ := h.powerLoss hloss
  exact ⟨k, hk, c, ⟨hfree, i, b, hfinds, hholds⟩, hshows⟩

section
variable {c : List (Bytes × (Bytes × Attributes))} {k : KeyMap}

/-- There is one thing that an `Open` shows. -/
theorem OpensTo.shows (hpath : path ≠ "") (h : OpensTo path d k) (hfound : Found AnyOp path (Holds KeepsFront c) d) :
    k.Shows c := by
  have hacc : Options.zero.Accepted path := zero_accepted hpath
  obtain ⟨s, d', hopen, recs, hserves, hshows⟩ := h .zero hacc fun _ _ => rfl
  obtain ⟨recs', hstands, rfl, -⟩ := hfound.opened hacc hopen
  rwa [hserves.records_unique hstands.1] at hshows

end

end

end AppendStore
