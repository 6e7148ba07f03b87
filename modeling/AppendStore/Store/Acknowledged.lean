import AppendStore.Store.CompactionAtomic
import AppendStore.Store.CrashPrefix
import AppendStore.Store.Downgrade

/-! # Acknowledged mutations and the directory

With a sync after each mutation a crash loses nothing of the log that a mutation has acknowledged. The log has to be
found, though. `Acked` are the runs of a store in which every call succeeds; a crash (`CrashPoint`) may come at any
instant of any of its calls, and it may lose every directory operation that no directory sync has followed, creations
included. In a run that begins where there is a log already, the next `Open` shows what was acknowledged
(`acknowledged_durable`). Where `Open` creates the log, its name is not synced, and a crash loses it together with
everything that was acknowledged (`created_log_lost`).
-/

namespace AppendStore
open Library
set_option autoImplicit false

/-! ## Writing in order -/

/-- A front part of what was written since the last sync has arrived. -/
def KeepsFront (_ : ℕ) (f : File) (b : Bytes) : Prop := ∃ n, b = f.content.take n ++ f.synced.drop n

theorem keepsFront_durable : DurableAfterSync KeepsFront := by
  rintro _ b _ ⟨n, rfl⟩
  exact List.take_append_drop n b

/-- Where the two contents differ in one byte, that byte has arrived or not. -/
theorem keepsFront_byte {i : ℕ} {front rest b : Bytes} {x y : UInt8}
    (h : KeepsFront i ⟨front ++ x :: rest, front ++ y :: rest⟩ b) :
    b = front ++ x :: rest ∨ b = front ++ y :: rest := by
  obtain ⟨n, rfl⟩ := h
  dsimp only
  rcases Nat.lt_or_ge front.length n with hlt | hle
  · left
    obtain ⟨k, rfl⟩ := Nat.exists_eq_add_of_lt hlt
    rw [List.take_append, List.drop_append, List.take_of_length_le (by omega), List.drop_of_length_le (by omega),
      show front.length + k + 1 - front.length = k + 1 by omega, List.take_succ_cons, List.drop_succ_cons,
      List.nil_append, List.append_assoc, List.cons_append, List.take_append_drop]
  · right
    rw [List.take_append_of_le_length hle, List.drop_append_of_le_length hle, ← List.append_assoc,
      List.take_append_drop]

/-- The headers of the versions 4 and 5 differ in the version. -/
theorem keepsFront_header (rest : Bytes) : HeaderAtomic KeepsFront v4Header rest := by
  intro i b h
  have hnew : currentHeader = logMagic ++ 5 :: List.replicate 11 0 := by decide
  have hold : v4Header = logMagic ++ 4 :: List.replicate 11 0 := by decide
  rw [hnew, hold, List.append_assoc, List.append_assoc, List.cons_append, List.cons_append] at h ⊢
  exact keepsFront_byte h

/-- Of bytes that were added, a front part is there. -/
theorem keepsFront_added {i : ℕ} {synced added b : Bytes} (h : KeepsFront i ⟨synced ++ added, synced⟩ b) :
    ∃ k, b = synced ++ added.take k := by
  obtain ⟨n, rfl⟩ := h
  dsimp only
  rcases Nat.lt_or_ge synced.length n with hlt | hle
  · refine ⟨n - synced.length, ?_⟩
    rw [List.take_append, List.take_of_length_le hlt.le, List.drop_of_length_le hlt.le, List.append_nil]
  · refine ⟨0, ?_⟩
    rw [List.take_append_of_le_length hle, List.take_append_drop, List.take_zero, List.append_nil]

/-- A log to which a record was added without a sync holds what it held, or the record too. -/
theorem holds_added {keeps : ℕ → File → Bytes → Prop} (recs : List (Rec logVersion)) (r : Rec logVersion) (k : ℕ) :
    Holds keeps (contents recs) (currentHeader ++ concat recs ++ r.bytes.take k) ∨
      Holds keeps (contents (recs ++ [r])) (currentHeader ++ concat recs ++ r.bytes.take k) := by
  rcases Nat.lt_or_ge k r.bytes.length with hlt | hle
  · left
    refine holds_torn rfl (.inr (r.torn _ (r.bytes.take k) (r.bytes.drop k) (List.take_append_drop k _).symm ?_))
    rw [ne_eq, List.drop_eq_nil_iff]
    omega
  · right
    rw [List.take_of_length_le hle, List.append_assoc]
    have h : Holds keeps (contents (recs ++ [r])) (currentHeader ++ concat (recs ++ [r])) := holds_current rfl
    rwa [concat_append, concat_cons, concat_nil, List.append_nil] at h

/-! ## Runs in which every call succeeds -/

/-- What is on the disk when the machine starts. -/
structure Booted (d : Disk) (path : Path) : Prop where
  sound : d.Sound
  names : d.pending = []
  files : ∀ i, (d.files i).synced = (d.files i).content
  free : LockFree d path

/-- Whether there is a log at the start, and what it shows. -/
inductive Begins (path : Path) (d : Disk) : Bool → KeyMap → Prop
  | absent : (∀ i, recoveredMain d.dir path = some i → (d.files i).content = []) → Begins path d false .empty
  | log {version : ℕ} {recs : List (Rec version)} {h : Header} {i : ℕ} {km : KeyMap} :
      recoveredMain d.dir path = some i → Reads (d.files i).content h recs → h.readOnlyFeatures = 0 →
      (version = 4 → (d.files i).content.take logHeaderSize = v4Header) → km.Shows (contents recs) →
      Begins path d true km

/-- The process of a store is gone: it closed the store, or it has just ended. -/
def Departed (x : Session) (d : Disk) : Prop :=
  d = (Disk.exec x.store.close x.disk).2 ∨ d = { x.disk with locked := fun _ => false }

/-- `Acked path found km x`: every call up to `x` has succeeded, with a sync after each mutation, and `km` is the map
after the mutations. -/
inductive Acked (path : Path) (found : Bool) : KeyMap → Session → Prop
  | opened {d d' : Disk} {km : KeyMap} {options : Options} {s : Store} : Booted d path → Begins path d found km →
      options.syncInterval = 0 → Disk.exec (openStore path options) d = (.ok s, d') → Acked path found km ⟨s, d'⟩
  | mutated {km : KeyMap} {x : Session} (m : Mutation) : Acked path found km x →
      (x.call path m.call).1 = .done (.ok ()) → Acked path found (km.call m.call).2 (x.call path m.call).2
  | compacted {km : KeyMap} {x : Session} : Acked path found km x → (x.call path .compact).1 = .done (.ok ()) →
      Acked path found km (x.call path .compact).2
  | reopened {km : KeyMap} {x : Session} {d d' : Disk} {options : Options} {s : Store} : Acked path found km x →
      Departed x d → options.syncInterval = 0 → Disk.exec (openStore path options) d = (.ok s, d') →
      Acked path found km ⟨s, d'⟩

/-- `CrashPoint path found maps t`: `t` is the disk at an instant of such a run. Of the mutation that is running then,
`maps` leaves open whether it takes effect. -/
inductive CrashPoint (path : Path) (found : Bool) : (KeyMap → Prop) → Disk → Prop
  | opening {d t : Disk} {km : KeyMap} {options : Options} : Booted d path → Begins path d found km →
      options.Accepted path → Prog.Visits Disk.answer (openStore path options) d t → CrashPoint path found (Eq km) t
  | mutating {km : KeyMap} {x : Session} {t : Disk} (m : Mutation) : Acked path found km x →
      Prog.Visits Disk.answer (m.program x.store) x.disk t →
      CrashPoint path found (fun k => k = km ∨ k = (km.call m.call).2) t
  | compacting {km : KeyMap} {x : Session} {t : Disk} : Acked path found km x →
      Prog.Visits Disk.answer x.store.compact x.disk t → CrashPoint path found (Eq km) t
  | closing {km : KeyMap} {x : Session} {t : Disk} : Acked path found km x →
      Prog.Visits Disk.answer x.store.close x.disk t → CrashPoint path found (Eq km) t
  | reopening {km : KeyMap} {x : Session} {d t : Disk} {options : Options} : Acked path found km x → Departed x d →
      options.Accepted path → Prog.Visits Disk.answer (openStore path options) d t → CrashPoint path found (Eq km) t

section
variable {path : Path} {km : KeyMap} {x : Session} {d d' t : Disk} {options : Options} {recs : List (Rec logVersion)}

/-- A crash may lose any directory operation. -/
def AnyOp (_ : DirOp) : Prop := True

/-! ## The invariant of these runs -/

theorem Begins.found (hboot : Booted d path) (h : Begins path d true km) :
    ∃ c, Found AnyOp path (Holds KeepsFront c) d ∧ km.Shows c := by
  cases h with
  | @log version recs h i _ hmain hr hro h4 hshows =>
    have hfile := file_synced rfl (hboot.files i)
    refine ⟨contents recs, ⟨hboot.free, i, _, ⟨hboot.sound.crashSound hboot.names, steady_of_settled hboot.names,
      hmain, hfile⟩, version, h, recs, hr, hro, rfl, fun hv => ?_⟩, hshows⟩
    rw [h4 hv]
    exact keepsFront_header _

/-- An `Open` of a log that is on the disk. -/
theorem Found.opened {c : List (Bytes × (Bytes × Attributes))} {s : Store} (h : Found AnyOp path (Holds KeepsFront c) d)
    (hacc : options.Accepted path) (hopen : Disk.exec (openStore path options) d = (.ok s, d')) :
    ∃ recs, Stands AnyOp path recs s d' ∧ contents recs = c ∧ s.options = options.withDefaults := by
  have hok := (guarded_openStore hacc keepsFront_durable h).2.1
  have hrun : Prog.run Disk.answer (openStore path options) d = (.ok s, d') := hopen
  rw [hrun] at hok
  exact hok s rfl

/-- A mutation that is acknowledged is on the disk. -/
theorem Stands.mutated (h : Stands AnyOp path recs x.store x.disk) {r : Rec logVersion} {s' : Store}
    (hsync : x.store.options.syncInterval = 0) (hmut : Mutated x.disk d' x.store s' path recs r) :
    Stands AnyOp path (recs ++ [r]) s' d' := by
  refine ⟨hmut.serves, ?_⟩
  have hgrew := hmut.grew
  have hfile : d'.files x.store.log.file.inode =
      ⟨currentHeader ++ concat (recs ++ [r]), currentHeader ++ concat (recs ++ [r])⟩ := by
    have hcontent := hmut.serves.image.content
    rw [hmut.file] at hcontent
    exact file_synced hcontent (hmut.synced hsync)
  rw [hmut.file]
  exact h.2.touched ⟨hgrew.names, hgrew.pending, hgrew.next, hgrew.locked, hgrew.mappable, hgrew.others⟩ hfile

/-- `Close` leaves a synced log as it is. -/
theorem Finds.closing {lossy : DirOp → Prop} {i : ℕ} {b : Bytes} {s : Store} (h : Finds lossy path i ⟨b, b⟩ d)
    (hv : Prog.Visits Disk.answer s.close d t) : Finds lossy path i ⟨b, b⟩ t := by
  have hcalls : s.close.Each (fun o => ∀ u, Finds lossy path i ⟨b, b⟩ u → Finds lossy path i ⟨b, b⟩ (Disk.answer o u).2)
      fun r => r.2.options = s.options := by
    have hother : ∀ o : FileOp, (∀ q ∈ path :: artifacts path, ¬ o.Binds q) ∧ ¬ o.Rewrites i → ∀ u,
        Finds lossy path i ⟨b, b⟩ u → Finds lossy path i ⟨b, b⟩ (Disk.answer o u).2 :=
      fun o ho u hu => hu.visits (Prog.each_perform ho) (Prog.visits_run (Prog.perform o) u)
    refine calls_closing (fun f u hu => ?_) (fun _ => hother _ ⟨fun _ _ => id, id⟩)
      (fun _ => hother _ ⟨fun _ _ => id, id⟩) s
    by_cases hf : f.inode = i
    · have hsame : ((u.syncFile f.inode).files i) = ⟨b, b⟩ := by simp [Disk.syncFile, hf, hu.file]
      have htouched : Touched u (u.syncFile f.inode) i := hf ▸ touched_syncFile u f.inode
      simp only [Disk.answer, Disk.onOpen]
      split
      · exact hu.touched htouched hsame
      · exact hu
    · exact hother (.fsync f) ⟨fun _ _ => id, hf⟩ u hu
  exact hcalls.visits (fun o u ho hu => ho u hu) h hv

theorem Stands.departed (h : Stands AnyOp path recs x.store x.disk) (hdeparted : Departed x d) :
    Found AnyOp path (Holds KeepsFront (contents recs)) d := by
  obtain ⟨hserves, hfinds⟩ := h
  rcases hdeparted with rfl | rfl
  · obtain ⟨s', d', hclose, hrest⟩ := exec_close hserves
    have hlast := hfinds.closing (Prog.visits_end hclose)
    rw [hclose]
    exact ⟨hrest.lockFree, _, _, hlast, holds_current rfl⟩
  · refine ⟨fun _ _ => rfl, _, _, ⟨hfinds.sound.of_same rfl rfl rfl, hfinds.steady.of_same rfl rfl, hfinds.main,
      hfinds.file⟩, holds_current rfl⟩

/-- **What a run in which every call succeeded has**: the log, all of it, is on the disk, and it shows the map. -/
theorem Acked.stands (h : Acked path true km x) : ∃ recs, Stands AnyOp path recs x.store x.disk ∧
    km.Shows (contents recs) ∧ x.store.options.syncInterval = 0 := by
  induction h with
  | @opened d d' km options s hboot hbegins hsync hopen =>
    obtain ⟨hacc, -⟩ := openStore_ok hboot.sound hopen
    obtain ⟨c, hfound, hshows⟩ := hbegins.found hboot
    obtain ⟨recs, hstands, rfl, hoptions⟩ := hfound.opened hacc hopen
    exact ⟨recs, hstands, hshows, by rw [hoptions, withDefaults_syncInterval, hsync]⟩
  | @mutated km x m _ hok ih =>
    obtain ⟨recs, hstands, hshows, hsync⟩ := ih
    rcases exec_mutation hstands.1 m with ⟨e, hexec⟩ | ⟨r, s', d', hexec, hmut⟩
    · rw [call_mutation, hexec] at hok
      cases hok
    · have hshows' := shows_mutated hstands.1 hshows hexec hmut
      rw [call_mutation, hexec]
      exact ⟨recs ++ [r], hstands.mutated hsync hmut, hshows', by rw [hmut.options, hsync]⟩
  | @compacted km x _ _ ih =>
    obtain ⟨recs, hstands, hshows, hsync⟩ := ih
    obtain ⟨s', d', hexec, hserves, hoptions, hfinds⟩ := hstands.2.compacted hstands.1
    simp only [Session.call, hexec]
    exact ⟨_, ⟨hserves, hfinds⟩, by rwa [contents_compacted], by rw [hoptions, hsync]⟩
  | @reopened km x d d' options s _ hdeparted hsync hopen ih =>
    obtain ⟨recs, hstands, hshows, -⟩ := ih
    have hfound := hstands.departed hdeparted
    obtain ⟨i, b, hfinds, -⟩ := hfound.log
    obtain ⟨hacc, -⟩ := openStore_ok hfinds.sound.sound hopen
    obtain ⟨recs', hstands', hcontents, hoptions⟩ := hfound.opened hacc hopen
    exact ⟨recs', hstands', by rwa [hcontents], by rw [hoptions, withDefaults_syncInterval, hsync]⟩

/-! ## Crashes -/

/-- The log at any instant of a mutation: as it was, or with the record after it. -/
theorem Stands.mutating (h : Stands AnyOp path recs x.store x.disk) (m : Mutation)
    (hv : Prog.Visits Disk.answer (m.program x.store) x.disk t) :
    Recoverable AnyOp KeepsFront path (Holds KeepsFront (contents recs)) t ∨
      ∃ r s' d', Disk.exec (m.program x.store) x.disk = ((.ok (), s'), d') ∧ Mutated x.disk d' x.store s' path recs r ∧
        Recoverable AnyOp KeepsFront path
          (fun b => Holds KeepsFront (contents recs) b ∨ Holds KeepsFront (contents (recs ++ [r])) b) t := by
  obtain ⟨hserves, hfinds⟩ := h
  rcases visits_mutation hserves m hv with rfl | ⟨r, s', d', hexec, hmut, hmid⟩
  · exact .inl (hfinds.durable keepsFront_durable (holds_current rfl))
  · refine .inr ⟨r, s', d', hexec, hmut, ?_⟩
    have hcalls : (m.program x.store).Each (fun o => ∀ q ∈ path :: artifacts path, ¬ o.Binds q) fun _ => True := by
      cases m with
      | put key value options =>
        exact (calls_put (fun _ _ ho _ _ => not_binds_of_on ho) x.store key value options).mono fun _ _ => trivial
      | delete key => exact (calls_delete (fun _ _ ho _ _ => not_binds_of_on ho) x.store key).mono fun _ _ => trivial
    obtain ⟨hsteady, hown⟩ := hfinds.steady.visits hcalls hv
    have hmain : recoveredMain t.dir path = some x.store.log.file.inode := by
      rw [recoveredMain_congr (hown path List.mem_cons_self) fun q hq => hown q (List.mem_cons_of_mem _ hq),
        hfinds.main]
    have hfinds' : Finds AnyOp path x.store.log.file.inode (t.files x.store.log.file.inode) t :=
      ⟨hfinds.sound.visits hv, hsteady, hmain, rfl⟩
    have hcontent := hmid.content
    have hsynced := hmid.synced
    rw [hfinds.file] at hcontent hsynced
    refine hfinds'.recoverable fun b hb => ?_
    obtain ⟨k, rfl⟩ : ∃ k, b = currentHeader ++ concat recs ++ r.bytes.take k := by
      cases hf : t.files x.store.log.file.inode with
      | mk content synced =>
        rw [hf] at hcontent hsynced hb
        dsimp only at hcontent hsynced
        subst hcontent
        rcases hsynced with rfl | rfl
        · exact keepsFront_added hb
        · refine ⟨r.bytes.length, ?_⟩
          rw [keepsFront_durable _ _ _ hb, List.take_length]
    exact holds_added recs r k

/-- Whatever a crash leaves at any instant of such a run, there is a log that shows what was acknowledged. -/
theorem CrashPoint.found {maps : KeyMap → Prop} (h : CrashPoint path true maps t)
    (hloss : Disk.PowerLoss AnyOp KeepsFront t d) :
    ∃ c k, Found AnyOp path (Holds KeepsFront c) d ∧ maps k ∧ k.Shows c := by
  cases h with
  | @opening d0 _ km options hboot hbegins hacc hv =>
    obtain ⟨c, hfound, hshows⟩ := hbegins.found hboot
    exact ⟨c, km, ((guarded_openStore hacc keepsFront_durable hfound).1 t hv).powerLoss hloss, rfl, hshows⟩
  | @mutating km x _ m hacked hv =>
    obtain ⟨recs, hstands, hshows, -⟩ := hacked.stands
    rcases hstands.mutating m hv with hrec | ⟨r, s', d', hexec, hmut, hrec⟩
    · exact ⟨contents recs, km, hrec.powerLoss hloss, .inl rfl, hshows⟩
    · obtain ⟨hfree, i, b, hfinds, hb | hb⟩ := hrec.powerLoss hloss
      · exact ⟨contents recs, km, ⟨hfree, i, b, hfinds, hb⟩, .inl rfl, hshows⟩
      · exact ⟨contents (recs ++ [r]), _, ⟨hfree, i, b, hfinds, hb⟩, .inr rfl,
          shows_mutated hstands.1 hshows hexec hmut⟩
  | @compacting km x _ hacked hv =>
    obtain ⟨recs, ⟨hserves, hfinds⟩, hshows, -⟩ := hacked.stands
    refine ⟨contents recs, km, (hfinds.compaction hserves keepsFront_durable (fun b hb => ?_)
      (holds_current (contents_compacted recs)) hv).powerLoss hloss, rfl, hshows⟩
    rw [keepsFront_durable _ _ _ hb]
    exact holds_current rfl
  | @closing km x _ hacked hv =>
    obtain ⟨recs, ⟨-, hfinds⟩, hshows, -⟩ := hacked.stands
    exact ⟨contents recs, km, ((hfinds.closing hv).durable keepsFront_durable (holds_current rfl)).powerLoss hloss, rfl,
      hshows⟩
  | @reopening km x d0 _ options hacked hdeparted hacc hv =>
    obtain ⟨recs, hstands, hshows, -⟩ := hacked.stands
    exact ⟨contents recs, km,
      ((guarded_openStore hacc keepsFront_durable (hstands.departed hdeparted)).1 t hv).powerLoss hloss,
      rfl, hshows⟩

/-- **Acknowledged means durable, where there is a log.** In every run that begins where there is a log, wherever a
crash comes and whatever it leaves, the next `Open` shows every mutation that was acknowledged, with or without the
one that was running. -/
theorem acknowledged_durable {maps : KeyMap → Prop} (h : CrashPoint path true maps t)
    (hloss : Disk.PowerLoss AnyOp KeepsFront t d) (hacc : options.Accepted path)
    (hask : ∀ v < logVersion, migrationAnswer path options.withDefaults v = none) :
    ∃ s d' k, Disk.exec (openStore path options) d = (.ok s, d') ∧ maps k ∧ Refines path ⟨s, d'⟩ k := by
  obtain ⟨c, k, hfound, hmaps, hshows⟩ := h.found hloss
  obtain ⟨s, hs⟩ := (guarded_openStore hacc keepsFront_durable hfound).2.2 hask
  have hexec : Disk.exec (openStore path options) d = (.ok s, (Disk.exec (openStore path options) d).2) :=
    Prod.ext hs rfl
  obtain ⟨recs, hstands, rfl, -⟩ := hfound.opened hacc hexec
  exact ⟨s, _, k, hexec, hmaps, recs, hstands.1, hshows⟩

theorem Acked.put {found : Bool} (h : Acked path found km x) (hserves : Serves x.disk x.store path recs)
    {key value ab : Bytes} (hlim : appendLimits key value ∅ [] = .ok ab) :
    ∃ s' d', Acked path found (km.call (.put key value none)).2 ⟨s', d'⟩ ∧
      Mutated x.disk d' x.store s' path recs (appendRec hlim false) := by
  have hnone : appendLimits key value ((none : Option AttributeRange).getD ∅) [] = .ok ab := hlim
  obtain ⟨s', d', hexec, hmut⟩ := exec_put hserves hnone
  have hcall : x.call path (.put key value none) = (.done (.ok ()), ⟨s', d'⟩) := by simp only [Session.call, hexec]
  have hacked := h.mutated (.put key value none) (congrArg Prod.fst hcall)
  rw [show x.call path (Mutation.put key value none).call = (.done (.ok ()), ⟨s', d'⟩) from hcall] at hacked
  exact ⟨s', d', hacked, hmut⟩

end

/-- A log without records is there, a record is put into it, and a crash comes when a compaction begins. -/
theorem acknowledged_durable_put : ∃ t d k, CrashPoint "db" true (Eq k) t ∧ Disk.PowerLoss AnyOp KeepsFront t d ∧
    k.order = [[1]] ∧
    ∃ s d', Disk.exec (openStore "db" .zero) d = (.ok s, d') ∧ Refines "db" ⟨s, d'⟩ k := by
  have hacc : Options.zero.Accepted "db" := zero_accepted (by decide)
  have hopenable := logDisk_openable currentHeader
  have hboot : Booted (logDisk currentHeader) "db" := by
    refine ⟨hopenable.sound, rfl, fun i => ?_, hopenable.lockFree⟩
    rfl
  have hbegins : Begins "db" (logDisk currentHeader) true .empty :=
    .log (i := 0) rfl reads_empty rfl (fun h4 => absurd h4 (by decide)) KeyMap.shows_empty
  obtain ⟨s, d', hopen, hserves, -⟩ := exec_openStore_reads hacc hboot.sound hboot.free rfl reads_empty rfl
    (fun _ => rfl)
  have hacked : Acked "db" true .empty ⟨s, d'⟩ := .opened hboot hbegins rfl hopen
  obtain ⟨ab, hlim⟩ : ∃ ab, appendLimits [1] [2] ∅ [] = .ok ab := ⟨_, rfl⟩
  obtain ⟨s1, d1, hacked1, -⟩ := hacked.put hserves hlim
  have hpoint : CrashPoint "db" true (Eq ((KeyMap.empty.call (.put [1] [2] none)).2)) d1 :=
    .compacting hacked1 (.here _ _)
  have hloss : Disk.PowerLoss AnyOp KeepsFront d1 d1.restarted := by
    refine Disk.powerLoss_restarted fun i => ⟨(d1.files i).content.length + (d1.files i).synced.length, ?_⟩
    rw [List.take_of_length_le (by omega), List.drop_of_length_le (by omega), List.append_nil]
  obtain ⟨s2, d2, _, hexec, rfl, hrefines⟩ := acknowledged_durable hpoint hloss hacc fun _ _ => rfl
  exact ⟨d1, d1.restarted, _, hpoint, hloss, by decide, s2, d2, hexec, hrefines⟩

/-- **A log that `Open` creates can be lost with all that was acknowledged.** A store is created, a `Put` returns
without an error after its sync, and a crash loses the creation of the file. The next `Open` is of an empty store. -/
theorem created_log_lost : ∃ t d k, CrashPoint "db" false (Eq k) t ∧ Disk.PowerLoss AnyOp KeepsFront t d ∧
    ∃ s d', Disk.exec (openStore "db" .zero) d = (.ok s, d') ∧ s.keys = 0 ∧ k.order = [[1]] ∧
      ¬ Refines "db" ⟨s, d'⟩ k := by
  have hacc : Options.zero.Accepted "db" := zero_accepted (by decide)
  have hnone : ∀ i, recoveredMain Disk.blank.dir "db" = some i → (Disk.blank.files i).content = [] := by
    intro i hi
    cases hi
  have hboot : Booted .blank "db" := ⟨Disk.blank_sound, rfl, fun _ => rfl, blank_lockFree "db"⟩
  obtain ⟨s, d', hopen, hserves, -⟩ := exec_openStore_fresh hacc hboot.sound hboot.free hnone
  have hacked : Acked "db" false .empty ⟨s, d'⟩ := .opened hboot (.absent hnone) rfl hopen
  obtain ⟨ab, hlim⟩ : ∃ ab, appendLimits [1] [2] ∅ [] = .ok ab := ⟨_, rfl⟩
  obtain ⟨s1, d1, hacked1, hmut⟩ := hacked.put hserves hlim
  obtain ⟨d2, hd2⟩ : ∃ d2 : Disk, d2 = { d1.restarted with names := d1.names } := ⟨_, rfl⟩
  have hloss : Disk.PowerLoss AnyOp KeepsFront d1 d2 := by
    rw [hd2]
    refine ⟨⟨[], persisted_of_sublist (fun _ => trivial) (List.nil_sublist _), rfl⟩, rfl, fun i => ?_,
      fun _ => rfl, rfl,
      rfl, rfl⟩
    refine ⟨(d1.files i).content.length + (d1.files i).synced.length, ?_⟩
    rw [List.take_of_length_le (by omega), List.drop_of_length_le (by omega), List.append_nil]
    rfl
  have hsound : d2.CrashSound AnyOp :=
    (((hboot.sound.crashSound rfl).visits (Prog.visits_end hopen)).of_same hmut.grew.names hmut.grew.pending
      hmut.grew.next).powerLoss hloss
  -- nothing has synced the directory
  have hmain : recoveredMain d2.dir "db" = none := by
    have hfirst : recoveredMain (Disk.exec (openStore "db" .zero) .blank).2.names "db" = none := by decide +kernel
    rw [hopen] at hfirst
    rw [hloss.dir, hd2]
    exact hmut.grew.names ▸ hfirst
  obtain ⟨s2, d3, hopen2, hserves2, -⟩ := exec_openStore_fresh hacc hsound.sound (fun i _ => by rw [hloss.locked])
    (fun i hi => by rw [hmain] at hi; cases hi)
  refine ⟨d1, d2, _, .compacting hacked1 (.here _ _), hloss, s2, d3, hopen2, ?_, by decide, ?_⟩
  · rw [keys_eq hserves2]
    rfl
  · rintro ⟨recs, hserves3, hshows⟩
    rw [hserves3.records_unique hserves2] at hshows
    exact absurd hshows.2 (by decide)

end AppendStore
