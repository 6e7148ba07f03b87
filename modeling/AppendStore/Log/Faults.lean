import AppendStore.Log.Artifacts
import AppendStore.Log.Calls

/-! # The operations of the log when calls may fail

Each operation is described once more, for an environment in which every call may fail. An operation that
reports success did what it does without failures: a failed memory map is the only failure that is not
reported, and the map is not seen. An operation that reports an error may have changed the file it writes
to, and nothing else.
-/

namespace AppendStore
open Library
set_option autoImplicit false

section
variable {K : Set ℕ} {version : ℕ} {d : Disk} {l : AppendLog} {header : Bytes} {recs : List (Rec version)}

/-! ## Observing -/

theorem observes_remap (l : AppendLog) :
    l.remap.Each FileOp.Observes fun l' => l.SameFile l' ∧ l'.writePos = l.writePos := by
  have hself : ∀ mapped disabled, l.SameFile { l with mapped := mapped, mapDisabled := disabled } :=
    fun _ _ => ⟨rfl, rfl, rfl, rfl, rfl⟩
  unfold AppendLog.remap
  split
  · exact .ret ⟨hself l.mapped l.mapDisabled, rfl⟩
  · dsimp only
    split
    · exact .ret ⟨hself none true, rfl⟩
    · refine Prog.each_orElse (Prog.each_perform (o := FileOp.mmap _ _) trivial)
        (fun _ _ => .ret ⟨hself none true, rfl⟩) fun _ _ => ?_
      exact .ret ⟨hself _ l.mapDisabled, rfl⟩

theorem observes_finishAppend (l : AppendLog) (placed : AppendLog.Placed) :
    (finishAppend l placed).Each FileOp.Observes fun r =>
      r.1 = .ok placed ∧ l.SameFile r.2 ∧ r.2.writePos = l.writePos := by
  unfold finishAppend
  split
  · exact Prog.each_bind (observes_remap l) fun l' hl => .ret ⟨rfl, hl⟩
  · exact .ret ⟨rfl, ⟨rfl, rfl, rfl, rfl, rfl⟩, rfl⟩

/-- `remap` at the end of opening a log. -/
theorem all_opened {path : Path} {i : ℕ} {h : Header} {size : ℕ} (ho : Opened l path i h size) :
    (do let l ← l.remap; pure (.ok l) : FileProg (Except Err AppendLog)).All (Disk.Yields K) d fun r d' =>
      d' = d ∧ ∃ l', r = .ok l' ∧ Opened l' path i h size := by
  refine Disk.all_observes (Prog.each_bind (observes_remap l) ?_)
  rintro l' ⟨hs, hpos⟩
  exact .ret ⟨l', rfl, by rw [hs.file, ho.file], by rw [hs.path, ho.path], by rw [hs.version, ho.version],
    by rw [hs.incompatibleFeatures, ho.incompatibleFeatures], by rw [hs.readOnlyFeatures, ho.readOnlyFeatures],
    by rw [hpos, ho.writePos]⟩

theorem observes_close (l : AppendLog) : l.close.Each FileOp.Observes fun r =>
    r.2 = { l with mapped := none, file := { l.file with isOpen := false } } := by
  refine Prog.each_bind (Q := fun _ => True) ?_ fun _ _ => .ret rfl
  exact Prog.each_orElse (Prog.each_perform (o := FileOp.close _) trivial) (fun _ _ => .ret trivial)
    fun _ _ => .ret trivial

theorem all_readRecordAndExtensionsAt {x : ℕ × Rec version} (h : StoredAt d l x) (hv : 4 ≤ version) :
    (l.readRecordAndExtensionsAt x.1 x.2.bytes.length).All (Disk.Yields K) d fun r d' =>
      d' = d ∧ ∀ v, r = .ok v → v = (x.2.value, x.2.extensions) := by
  obtain ⟨hsize, -, hval⟩ := x.2.stored hv
  unfold AppendLog.readRecordAndExtensionsAt
  rw [hsize]
  dsimp only
  rcases mappedRecord_cases l x.1 x.2.bytes.length with hm | hm
  · rw [hm]
    dsimp only
    refine Prog.all_orElse (Disk.all_readAt h.isOpen x.1 x.2.bytes.length) ?_ ?_
    · rintro e d' ⟨hd, -⟩
      exact ⟨hd, fun v hv => by cases hv⟩
    · rintro b d' ⟨hd, hb⟩
      rw [hb b rfl, h.bytes, hval]
      exact ⟨hd, fun v hv => (Except.ok.inj hv).symm⟩
  · rw [hm]
    dsimp only
    refine Prog.all_bind ((Disk.all_mapped l.file _ _).mono ?_)
    rintro b d' ⟨hd, rfl⟩
    rw [h.bytes, hval]
    exact ⟨hd, fun v hv => (Except.ok.inj hv).symm⟩

theorem all_readAt_value {x : ℕ × Rec version} (h : StoredAt d l x) :
    (l.readAt (x.1 + x.2.valueAt) x.2.value.length).All (Disk.Yields K) d fun r d' =>
      d' = d ∧ ∀ v, r = .ok v → v = x.2.value := by
  refine Prog.all_orElse (Disk.all_readAt h.isOpen _ _) ?_ ?_
  · rintro e d' ⟨hd, -⟩
    exact ⟨hd, fun v hv => by cases hv⟩
  · rintro b d' ⟨hd, hb⟩
    refine ⟨hd, fun v hv => ?_⟩
    rw [← Except.ok.inj hv, hb b rfl, h.slice_value]

/-! ## Writing -/

variable {key value : Bytes} {attributes : AttributeRange} {extensions ab : Bytes}

/-- `Append` on a log whose file ends at the write position. -/
theorem all_append {recs : List (Rec logVersion)} (h : LogImage d l header recs) (hro : l.unknownReadOnly = 0)
    (hlim : appendLimits key value attributes extensions = .ok ab) (deleted : Bool) :
    (l.append key value deleted attributes extensions).All (Disk.Yields K) d fun r d' =>
      Touched d d' l.file.inode ∧ l.SameFile r.2 ∧ ∀ p, r.1 = .ok p →
        p = placedAt l.writePos (appendRaw key ab value extensions deleted) ∧
          LogImage d' r.2 header (recs ++ [appendRec hlim deleted]) := by
  obtain ⟨buf, happ⟩ := append_eq h.versionEq hro hlim deleted
  rw [happ]
  refine Prog.all_orElse (Disk.all_writeAt h.isOpen _ _) ?_ ?_
  · rintro e d' ⟨-, hfail⟩
    obtain ⟨k, -, rfl⟩ := hfail e rfl
    exact ⟨touched_setContent d _ _, ⟨rfl, rfl, rfl, rfl, rfl⟩, fun p hp => by cases hp⟩
  · rintro u d1 ⟨hok, -⟩
    have hd1 := hok u rfl
    rw [← h.length, writeAt_end] at hd1
    refine (Disk.all_observes (observes_finishAppend _ _)).mono ?_
    rintro ⟨r, l'⟩ d' ⟨rfl, hr, hs, hpos⟩
    dsimp only at hr hs hpos
    refine ⟨hd1 ▸ touched_setContent d _ _, ⟨hs.file, hs.path, hs.version, hs.incompatibleFeatures,
      hs.readOnlyFeatures⟩, fun p hp => ⟨Except.ok.inj (hp.symm.trans hr), ?_⟩⟩
    refine ⟨by rw [hs.file]; exact h.isOpen, by rw [hs.version]; exact h.versionEq, h.headerLength, ?_, ?_⟩
    · rw [hs.file, hd1, Disk.content_setContent, h.content, concat_append, concat_cons, concat_nil, List.append_nil,
        List.append_assoc]
      rfl
    · rw [hpos, concat_append, concat_cons, concat_nil, List.append_nil, List.length_append, ← Nat.add_assoc,
        ← h.writePos]
      rfl

/-- The header of a new log. -/
theorem all_writeHeader_new (path : Path) (i : ℕ) (hempty : (d.files i).content = []) :
    ((newAppendLog ⟨i, true⟩ path).writeHeader).All (Disk.Yields K) d fun r d' =>
      (∀ u, r = .ok u → d' = d.setContent i currentHeader) ∧
        ∀ e, r = .error e → ∃ k ∈ K, d' = d.setContent i (currentHeader.take k) := by
  refine Prog.all_orElse (Disk.all_writeAt rfl 0 _) ?_ ?_
  · rintro e d' ⟨-, hfail⟩
    obtain ⟨k, hk, hd⟩ := hfail e rfl
    refine ⟨fun u hu => (by cases hu), fun _ _ => ⟨k, hk, ?_⟩⟩
    rw [hd]
    dsimp only [newAppendLog]
    rw [hempty, ← List.length_nil (α := UInt8), writeAt_end]
    rfl
  · rintro u d' ⟨hok, -⟩
    refine ⟨fun _ _ => ?_, fun e he => by cases he⟩
    rw [hok u rfl]
    dsimp only [newAppendLog]
    rw [hempty, ← List.length_nil (α := UInt8), writeAt_end]
    rfl

/-! ## Opening -/

/-- A handle that is given up. -/
theorem all_closed (file : OsFile) (e : Err) :
    (do let _ ← Sys.close file; pure (.error e) : FileProg (Except Err AppendLog)).All (Disk.Yields K) d
      fun r d' => d' = d ∧ r = .error e :=
  Disk.all_observes (Prog.each_bind (Prog.each_perform (o := FileOp.close _) trivial) fun _ _ => .ret rfl)

theorem all_createAppendLogMode {path : Path} (habs : d.dir path = none) :
    (createAppendLogMode path).All (Disk.Yields K) d fun r d' =>
      (∀ q, q ≠ path → d'.dir q = d.dir q) ∧ (∀ j, j ≠ d.next → d'.files j = d.files j) ∧ ∀ l, r = .ok l →
        d' = (d.create path).setContent d.next currentHeader ∧
          Opened l path d.next ⟨logVersion, 0, 0⟩ logHeaderSize := by
  have hdir : ∀ b q, q ≠ path → ((d.create path).setContent d.next b).dir q = d.dir q := by
    intro b q hq
    rw [Disk.dir_setContent, Disk.dir_create, Function.update_of_ne hq]
  have hfiles : ∀ b j, j ≠ d.next → ((d.create path).setContent d.next b).files j = d.files j := by
    intro b j hj
    rw [Disk.files_setContent_ne _ _ _ _ hj, Disk.files_create_ne _ _ _ hj]
  refine Prog.all_orElse (Disk.all_open_none habs true) ?_ ?_
  · rintro e d1 ⟨-, hd⟩
    rw [hd e rfl]
    exact ⟨fun _ _ => rfl, fun _ _ => rfl, fun l hl => by cases hl⟩
  rintro file d1 ⟨hfile, -⟩
  obtain ⟨rfl, rfl⟩ := hfile file rfl
  refine Prog.all_orElse (all_writeHeader_new path d.next (by simp)) ?_ ?_
  · rintro e d2 ⟨-, hfail⟩
    obtain ⟨k, -, rfl⟩ := hfail e rfl
    refine Prog.All.mono (all_closed _ _) ?_
    rintro r d' ⟨rfl, hr⟩
    exact ⟨hdir _, hfiles _, fun l hl => by cases hr.symm.trans hl⟩
  · intro u d2 hd2
    have hnew : Opened { newAppendLog ⟨d.next, true⟩ path with writePos := logHeaderSize } path d.next
        ⟨logVersion, 0, 0⟩ logHeaderSize := ⟨rfl, rfl, rfl, rfl, rfl, rfl⟩
    -- the log stays a variable, or the unifier computes with the length of its map
    generalize ({ newAppendLog ⟨d.next, true⟩ path with writePos := logHeaderSize } : AppendLog) = log at hnew ⊢
    obtain rfl := hd2.1 u rfl
    refine (all_opened hnew).mono ?_
    rintro r d' ⟨rfl, l', rfl, ho⟩
    refine ⟨hdir _, hfiles _, fun l hl => ⟨rfl, ?_⟩⟩
    rw [← Except.ok.inj hl]
    exact ho

theorem all_readHeader (hopen : l.file.isOpen = true) {h : Header}
    (hh : readHeaderOf (d.files l.file.inode).content = .ok h) :
    l.readHeader.All (Disk.Yields K) d fun r d' => d' = d ∧ ∀ l', r = .ok l' → l' = { l with
      version := h.version
      incompatibleFeatures := h.incompatibleFeatures
      readOnlyFeatures := h.readOnlyFeatures } := by
  have hdecode : decodeHeader ((d.files l.file.inode).content.take logHeaderSize) = .ok h := by
    unfold readHeaderOf at hh
    split at hh
    · cases hh
    · exact hh
  refine Prog.all_orElse (Disk.all_readAt hopen 0 logHeaderSize) ?_ ?_
  · rintro e d' ⟨hd, -⟩
    exact ⟨hd, fun l' hl => by cases hl⟩
  · rintro b d' ⟨hd, hb⟩
    have hb := hb b rfl
    rw [Nat.zero_add, slice, List.drop_zero] at hb
    rw [hb, hdecode]
    exact ⟨hd, fun l' hl => (Except.ok.inj hl).symm⟩

/-- Opening a file with a log. -/
theorem all_startLog {path : Path} {i : ℕ} {h : Header} (hne : (d.files i).content ≠ [])
    (hh : readHeaderOf (d.files i).content = .ok h) :
    (startLog path ⟨i, true⟩).All (Disk.Yields K) d fun r d' =>
      d' = d ∧ ∀ l, r = .ok l → Opened l path i h (d.files i).content.length := by
  have hlen : (d.files i).content.length ≠ 0 := by simpa using hne
  refine Prog.all_orElse (Disk.all_fstat rfl) ?_ ?_
  · rintro e d1 ⟨rfl, -⟩
    exact (all_closed _ _).mono fun r d' hr => ⟨hr.1, fun l hl => by cases hr.2.symm.trans hl⟩
  · rintro size d1 ⟨rfl, hsize⟩
    cases hsize size rfl
    dsimp only
    rw [if_neg hlen]
    refine Prog.all_andThen (Q := fun r d' => d' = d1 ∧ ∀ l, r = .ok l →
      Opened l path i h (d1.files i).content.length) ?_ (fun e d' hr => ⟨hr.1, fun l hl => by cases hl⟩) ?_
    · refine Prog.all_orElse (all_readHeader (l := newAppendLog ⟨i, true⟩ path) rfl hh) ?_ ?_
      · rintro e d2 ⟨rfl, -⟩
        exact (all_closed _ _).mono fun r d' hr => ⟨hr.1, fun l hl => by cases hr.2.symm.trans hl⟩
      · rintro l d2 ⟨rfl, hl⟩
        refine ⟨rfl, fun l' hl' => ?_⟩
        rw [← Except.ok.inj hl', hl l rfl]
        exact ⟨rfl, rfl, rfl, rfl, rfl, rfl⟩
    · rintro l d2 ⟨rfl, hl⟩
      refine (all_opened (hl l rfl)).mono ?_
      rintro r d' ⟨hd, l', rfl, ho⟩
      exact ⟨hd, fun l'' hl'' => (Except.ok.inj hl'') ▸ ho⟩

/-- Opening a new file: it may get its header. -/
theorem all_startLog_new {path : Path} {i : ℕ} (hempty : (d.files i).content = []) :
    (startLog path ⟨i, true⟩).All (Disk.Yields K) d fun _ d' =>
      d' = d ∨ ∃ b, (b = currentHeader ∨ ∃ k ∈ K, b = currentHeader.take k) ∧ d' = d.setContent i b := by
  refine Prog.all_orElse (Disk.all_fstat rfl) ?_ ?_
  · rintro e d1 ⟨rfl, -⟩
    exact (all_closed _ _).mono fun r d' hr => .inl hr.1
  · rintro size d1 ⟨rfl, hsize⟩
    have hzero : size = 0 := by rw [hsize size rfl, hempty]; rfl
    dsimp only
    rw [if_pos hzero]
    refine Prog.all_andThen (Q := fun _ d' => d' = d1 ∨ ∃ b, (b = currentHeader ∨ ∃ k ∈ K, b = currentHeader.take k) ∧
      d' = d1.setContent i b) ?_ (fun e d' hd => hd) ?_
    · refine Prog.all_orElse (all_writeHeader_new path i hempty) ?_ ?_
      · rintro e d2 ⟨-, hfail⟩
        obtain ⟨k, hk, rfl⟩ := hfail e rfl
        exact (all_closed _ _).mono fun r d' hr => .inr ⟨_, .inr ⟨k, hk, rfl⟩, hr.1⟩
      · rintro u d2 ⟨hok, -⟩
        exact .inr ⟨_, .inl rfl, hok u rfl⟩
    · intro l d2 hd2
      refine (Disk.all_observes (Q := fun _ => True) (Prog.each_bind (observes_remap l) fun _ _ => .ret trivial)).mono
        ?_
      rintro r d' ⟨rfl, -⟩
      exact hd2

/-! ## Removing -/

theorem all_remove (path : Path) :
    (Sys.remove path).All (Disk.Yields K) d fun r d' => SameFiles d d' ∧ (∀ q, q ≠ path → d'.dir q = d.dir q) ∧
      (d'.dir path = d.dir path ∨ d'.dir path = none) ∧ (∀ u, r = .ok u → d'.dir path = none) ∧
        (r = .error .notExist → d'.dir path = none) := by
  refine Prog.all_perform fun r d' h => ?_
  rcases h with hok | ⟨k, -, hfail⟩
  · simp only [Disk.answer] at hok
    cases hp : d.dir path with
    | none =>
      simp only [hp, Option.isSome_none, Bool.false_eq_true, if_false] at hok
      cases hok
      exact ⟨sameFiles_refl d, fun _ _ => rfl, .inr hp, fun _ _ => hp, fun _ => hp⟩
    | some i =>
      simp only [hp, Option.isSome_some, if_true] at hok
      cases hok
      have hgone : (d.enqueue (.remove path)).dir path = none := by
        rw [Disk.dir_enqueue, DirOp.apply, Function.update_self]
      refine ⟨sameFiles_enqueue d _, fun q hq => ?_, .inr hgone, fun _ _ => hgone, fun _ => hgone⟩
      rw [Disk.dir_enqueue, DirOp.apply, Function.update_of_ne hq]
  · cases hfail
    exact ⟨sameFiles_refl d, fun _ _ => rfl, .inl rfl, fun u hu => (by cases hu), fun he => by cases he⟩

theorem all_removeIfExists (path : Path) :
    (removeIfExists path).All (Disk.Yields K) d fun r d' => SameFiles d d' ∧ (∀ q, q ≠ path → d'.dir q = d.dir q) ∧
      (d'.dir path = d.dir path ∨ d'.dir path = none) ∧ ∀ u, r = .ok u → d'.dir path = none := by
  refine Prog.all_orElse (all_remove path) ?_ ?_
  · rintro e d' ⟨hs, hother, hself, -, hnot⟩
    by_cases he : e = .notExist
    · rw [if_pos he]
      exact ⟨hs, hother, hself, fun u _ => hnot (by rw [he])⟩
    · rw [if_neg he]
      exact ⟨hs, hother, hself, fun u hu => by cases hu⟩
  · rintro u d' ⟨hs, hother, hself, hok, -⟩
    exact ⟨hs, hother, hself, fun _ _ => hok u rfl⟩

theorem all_removeAllIfExist (paths : List Path) :
    (removeAllIfExist paths).All (Disk.Yields K) d fun r d' => SameFiles d d' ∧
      (∀ q, q ∉ paths → d'.dir q = d.dir q) ∧ ∀ u, r = .ok u → ∀ q ∈ paths, d'.dir q = none := by
  induction paths generalizing d with
  | nil => exact ⟨sameFiles_refl d, fun _ _ => rfl, fun _ _ q hq => absurd hq List.not_mem_nil⟩
  | cons path paths ih =>
    refine Prog.all_andThen (all_removeIfExists path) ?_ ?_
    · rintro e d1 ⟨hs, hother, -⟩
      exact ⟨hs, fun q hq => hother q fun heq => hq (heq ▸ List.mem_cons_self), fun u hu => by cases hu⟩
    · rintro u d1 ⟨hs, hother, -, hgone⟩
      refine ih.mono ?_
      rintro r d' ⟨hs', hother', hgone'⟩
      refine ⟨hs.trans hs', fun q hq => ?_, fun u' hu' q hq => ?_⟩
      · rw [hother' q fun hmem => hq (List.mem_cons_of_mem _ hmem), hother q fun heq => hq (heq ▸ List.mem_cons_self)]
      · by_cases hmem : q ∈ paths
        · exact hgone' u' hu' q hmem
        · rw [hother' q hmem, (List.mem_cons.mp hq).resolve_right hmem, hgone u rfl]

theorem all_rename {a : Path} {i : ℕ} (ha : d.dir a = some i) (b : Path) :
    (Sys.rename a b).All (Disk.Yields K) d fun r d' =>
      (∀ u, r = .ok u → SameFiles d d' ∧ d'.dir = Function.update (Function.update d.dir a none) b (some i)) ∧
        ∀ e, r = .error e → d' = d := by
  refine Prog.all_perform fun r d' h => ?_
  rcases h with hok | ⟨k, -, hfail⟩
  · simp only [Disk.answer, ha, Option.isSome_some, if_true] at hok
    cases hok
    exact ⟨fun _ _ => ⟨sameFiles_enqueue d _, Disk.dir_rename ha b⟩, fun e he => by cases he⟩
  · cases hfail
    exact ⟨fun u hu => (by cases hu), fun _ _ => rfl⟩

theorem all_syncParentDirectory (path : Path) :
    (syncParentDirectory path).All (Disk.Yields K) d fun _ d' => d' = d ∨ d' = d.syncNames := by
  have hcall : (Sys.syncDir path).All (Disk.Yields K) d fun _ d' => d' = d ∨ d' = d.syncNames := by
    refine Prog.all_perform fun r d' h => ?_
    rcases h with hok | ⟨k, -, hfail⟩
    · exact .inr (congrArg Prod.snd hok)
    · exact .inl (congrArg Prod.snd hfail)
  exact Prog.all_orElse hcall (fun _ _ h => h) fun _ _ h => h

theorem all_sync (l : AppendLog) :
    l.sync.All (Disk.Yields K) d fun _ d' => d' = d ∨ d' = d.syncFile l.file.inode :=
  Prog.all_orElse (Disk.all_fsync l.file) (fun _ _ h => h) fun _ _ h => h

end

end AppendStore
