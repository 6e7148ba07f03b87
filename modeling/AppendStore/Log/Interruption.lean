import AppendStore.Library.Crashes
import AppendStore.Log.Calls

/-! # A recovery that a crash interrupts

Recovery renames and removes artifacts, and it syncs the directory only at its end. Whatever part of this a
crash leaves, at whatever instant it comes, the next recovery takes the same file for the log
(`visits_recover`): the file is renamed before anything else is removed, and what is removed comes after it in
the order in which recovery looks.
-/

namespace AppendStore
open Library
set_option autoImplicit false

/-- Whatever a crash leaves of the directory, the log and the artifacts are where the running program sees
them. -/
def Steady (lossy : DirOp → Prop) (path : Path) (d : Disk) : Prop :=
  ∀ n, d.Leaves lossy n → ∀ q ∈ path :: artifacts path, n q = d.dir q

section
variable {lossy : DirOp → Prop} {path : Path} {d d' t : Disk} {i : ℕ}

theorem steady_of_settled (hpending : d.pending = []) : Steady lossy path d :=
  fun n hn q _ => by rw [Disk.leaves_settled hpending hn]

theorem Steady.of_same (h : Steady lossy path d) (hnames : d'.names = d.names) (hpending : d'.pending = d.pending) :
    Steady lossy path d' := by
  intro n hn q hq
  rw [h n (hn.of_same hnames hpending) q hq, Disk.dir, Disk.dir, hnames, hpending]

theorem Steady.recovers {n : Names} (h : Steady lossy path d) (hn : d.Leaves lossy n) :
    recoveredMain n path = recoveredMain d.dir path := by
  have hmem := h n hn
  rw [recoveredMain, recoveredMain, hmem _ (by simp [artifacts]),
    hmem _ (by simp [artifacts]), hmem _ (by simp [artifacts]), hmem _ (by simp [artifacts])]

/-- A program that binds no name of the store, at any instant. -/
theorem Steady.visits {α : Type} {p : FileProg α} {Q : α → Prop} (h : Steady lossy path d)
    (hp : p.Each (fun o => ∀ q, q ∈ path :: artifacts path → ¬ o.Binds q) Q) (hv : Prog.Visits Disk.answer p d t) :
    Steady lossy path t ∧ ∀ q ∈ path :: artifacts path, t.dir q = d.dir q := by
  have hdir : ∀ n, t.Leaves lossy n → ∀ q ∈ path :: artifacts path, n q = d.dir q := by
    intro n hn q hq
    obtain ⟨m, hm, heq⟩ := Disk.leaves_visits hp hv hn
    rw [heq q hq, h m hm q hq]
  have hown := hdir t.dir (Disk.leaves_dir t)
  exact ⟨fun n hn q hq => (hdir n hn q hq).trans (hown q hq).symm, hown⟩

/-! ## Removing files -/

/-- Some of the paths are removed. A name that is not among them, or that was free, is as before, whatever a
crash leaves. -/
structure Cleared (lossy : DirOp → Prop) (paths : List Path) (d t : Disk) : Prop where
  files : SameFiles d t
  free : ∀ q, d.dir q = none → t.dir q = none
  left : ∀ n, t.Leaves lossy n → ∃ m, d.Leaves lossy m ∧ ∀ q, q ∉ paths ∨ d.dir q = none → n q = m q

theorem cleared_refl (paths : List Path) (d : Disk) : Cleared lossy paths d d :=
  ⟨sameFiles_refl d, fun _ hq => hq, fun n hn => ⟨n, hn, fun _ _ => rfl⟩⟩

theorem Cleared.trans {paths : List Path} {u : Disk} (h : Cleared lossy paths d t) (h' : Cleared lossy paths t u) :
    Cleared lossy paths d u := by
  refine ⟨h.files.trans h'.files, fun q hq => h'.free q (h.free q hq), fun n hn => ?_⟩
  obtain ⟨m, hm, heq⟩ := h'.left n hn
  obtain ⟨m', hm', heq'⟩ := h.left m hm
  exact ⟨m', hm', fun q hq => (heq q (hq.imp_right (h.free q))).trans (heq' q hq)⟩

theorem Cleared.mono {paths paths' : List Path} (h : Cleared lossy paths d t) (hsub : ∀ q ∈ paths, q ∈ paths') :
    Cleared lossy paths' d t := by
  refine ⟨h.files, h.free, fun n hn => ?_⟩
  obtain ⟨m, hm, heq⟩ := h.left n hn
  exact ⟨m, hm, fun q hq => heq q (hq.imp_left fun hnot hmem => hnot (hsub q hmem))⟩

theorem cleared_remove {q : Path} (hq : d.dir q = some i) : Cleared lossy [q] d (d.enqueue (.remove q)) := by
  refine ⟨sameFiles_enqueue d _, fun p hp => ?_, fun n hn => ?_⟩
  · rw [Disk.dir_enqueue, DirOp.apply, Function.update_apply, hp, ite_self]
  · obtain ⟨m, hm, hcase⟩ := Disk.leaves_enqueue hn
    refine ⟨m, hm, fun p hp => ?_⟩
    have hne : p ≠ q := by
      rintro rfl
      rcases hp with hmem | hnone
      · exact hmem List.mem_cons_self
      · rw [hq] at hnone
        cases hnone
    rcases hcase with rfl | ⟨-, rfl⟩
    · exact Function.update_of_ne hne _ _
    · rfl

theorem visits_removeIfExists {q : Path} (hv : Prog.Visits Disk.answer (removeIfExists q) d t) :
    Cleared lossy [q] d t := by
  unfold removeIfExists at hv
  cases hq : d.dir q with
  | none =>
    have hexec := Disk.exec_remove_none hq
    rcases Prog.visits_bind_eq hexec hv with hv | hv
    · rcases Prog.visits_perform hv with rfl | rfl
      · exact cleared_refl _ _
      · rw [show (Disk.answer (.remove q) d).2 = d from congrArg Prod.snd hexec]
        exact cleared_refl _ _
    · dsimp only at hv
      rw [if_pos rfl] at hv
      rw [Prog.visits_pure hv]
      exact cleared_refl _ _
  | some i =>
    have hexec := Disk.exec_remove_some hq
    rcases Prog.visits_bind_eq hexec hv with hv | hv
    · rcases Prog.visits_perform hv with rfl | rfl
      · exact cleared_refl _ _
      · rw [show (Disk.answer (.remove q) d).2 = d.enqueue (.remove q) from congrArg Prod.snd hexec]
        exact cleared_remove hq
    · rw [Prog.visits_pure hv]
      exact cleared_remove hq

theorem visits_removeAllIfExist {paths : List Path} (hv : Prog.Visits Disk.answer (removeAllIfExist paths) d t) :
    Cleared lossy paths d t := by
  induction paths generalizing d with
  | nil =>
    rw [Prog.visits_pure hv]
    exact cleared_refl _ _
  | cons q paths ih =>
    have hone : ∀ u, Prog.Visits Disk.answer (removeIfExists q) d u → Cleared lossy (q :: paths) d u := fun u hu =>
      (visits_removeIfExists hu).mono (by simp)
    obtain ⟨d1, hexec, -⟩ := exec_removeIfExists d q
    rcases Prog.visits_orElse_ok hexec hv with hv | hv
    · exact hone t hv
    · exact (hone d1 (Prog.visits_end hexec)).trans ((ih hv).mono fun p hp => List.mem_cons_of_mem _ hp)

theorem cleared_syncNames (paths : List Path) (d : Disk) : Cleared lossy paths d d.syncNames :=
  ⟨sameFiles_syncNames d, fun _ hq => hq, fun _ hn => ⟨d.dir, Disk.leaves_dir d,
    fun q _ => congrFun (Disk.leaves_syncNames hn) q⟩⟩

/-! ## Recovery -/

/-- The end of recovery. -/
def clearArtifacts (path : Path) (found : Bool) : FileProg (Except Err Unit) :=
  (removeAllIfExist (artifacts path)).andThen fun _ =>
  if found then
    (syncParentDirectory path).orElse
      (fun e => pure (.error (.wrap "sync directory after compaction recovery" e))) fun _ => pure (.ok ())
  else pure (.ok ())

theorem visits_syncParentDirectory (hv : Prog.Visits Disk.answer (syncParentDirectory path) d t) :
    t = d ∨ t = d.syncNames := by
  rcases Prog.visits_bind_eq (Disk.exec_syncDir path d) hv with hv | hv
  · exact Prog.visits_perform hv
  · exact .inr (Prog.visits_pure hv)

theorem visits_clearArtifacts {found : Bool} (hv : Prog.Visits Disk.answer (clearArtifacts path found) d t) :
    Cleared lossy (artifacts path) d t := by
  obtain ⟨d1, hexec, -⟩ := exec_removeAllIfExist (artifacts path) d
  have h1 : Cleared lossy (artifacts path) d d1 := visits_removeAllIfExist (Prog.visits_end hexec)
  have hsync : Cleared lossy (artifacts path) d1 d1.syncNames := cleared_syncNames _ d1
  rcases Prog.visits_orElse_ok hexec hv with hv | hv
  · exact visits_removeAllIfExist hv
  · split at hv
    · rcases Prog.visits_orElse_ok (exec_syncParentDirectory d1 path) hv with hv | hv
      · rcases visits_syncParentDirectory hv with rfl | rfl
        · exact h1
        · exact h1.trans hsync
      · rw [Prog.visits_pure hv]
        exact h1.trans hsync
    · rw [Prog.visits_pure hv]
      exact h1

/-- The names under which recovery looks for the log, in its order. -/
def candidates (path : Path) : List Path :=
  [path, path ++ compactionReadySuffix, path ++ compactionBackupSuffix, path ++ legacyCompactionSuffix]

theorem recoveredMain_eq (n : Names) (path : Path) : recoveredMain n path = (candidates path).findSome? n := by
  simp only [recoveredMain, candidates, List.findSome?_cons, List.findSome?_nil]
  cases n path <;> cases n (path ++ compactionReadySuffix) <;> cases n (path ++ compactionBackupSuffix) <;>
    cases n (path ++ legacyCompactionSuffix) <;> rfl

theorem findSome?_of_first {n : Names} {front rest : List Path} {q : Path} (hfront : ∀ p ∈ front, n p = none)
    (hq : n q = some i) : (front ++ q :: rest).findSome? n = some i := by
  induction front with
  | nil => rw [List.nil_append, List.findSome?_cons, hq]
  | cons p front ih =>
    rw [List.cons_append, List.findSome?_cons, hfront p List.mem_cons_self]
    exact ih fun p hp => hfront p (List.mem_cons_of_mem _ hp)

/-- The file that recovery chose stays the one it chooses, once its renaming has begun. -/
theorem Cleared.promoted {front rest : List Path} {src : Path} (hsteady : Steady lossy path d)
    (hsplit : candidates path = path :: front ++ src :: rest) (hfront : ∀ q ∈ path :: front, d.dir q = none)
    (hsrc : d.dir src = some i) (h : Cleared lossy (artifacts path) (d.enqueue (.rename src path)) t) {n : Names}
    (hn : t.Leaves lossy n) : recoveredMain n path = some i := by
  have hcand : ∀ q ∈ candidates path, q ∈ path :: artifacts path := by simp [candidates, artifacts]
  have hfree : ∀ q ∈ front ++ [src], (d.enqueue (.rename src path)).dir q = none := by
    intro q hq
    have hne : q ≠ path := by
      rintro rfl
      have hnodup : (candidates q).Nodup := by
        have h1 := path_ne_append (p := q) (s := compactionReadySuffix) (by decide)
        have h2 := path_ne_append (p := q) (s := compactionBackupSuffix) (by decide)
        have h3 := path_ne_append (p := q) (s := legacyCompactionSuffix) (by decide)
        have h4 := append_ne_append q (s := compactionReadySuffix) (t := compactionBackupSuffix) (by decide)
        have h5 := append_ne_append q (s := compactionReadySuffix) (t := legacyCompactionSuffix) (by decide)
        have h6 := append_ne_append q (s := compactionBackupSuffix) (t := legacyCompactionSuffix) (by decide)
        simp [candidates, h1, h2, h3, h4, h5, h6]
      rw [hsplit, List.cons_append, List.nodup_cons] at hnodup
      refine hnodup.1 ?_
      simp only [List.mem_append, List.mem_cons, List.not_mem_nil, or_false] at hq ⊢
      tauto
    rw [Disk.dir_rename hsrc, Function.update_of_ne hne, Function.update_apply]
    split
    · rfl
    · rename_i hqs
      rcases List.mem_append.mp hq with hq | hq
      · exact hfront q (List.mem_cons_of_mem _ hq)
      · exact absurd (List.mem_singleton.mp hq) hqs
  obtain ⟨m, hm, heq⟩ := h.left n hn
  obtain ⟨m', hm', hcase⟩ := Disk.leaves_enqueue hm
  have hown := hsteady m' hm'
  have hmain : n path = m path := heq path (.inl (path_not_mem_artifacts path))
  rw [recoveredMain_eq, hsplit]
  rcases hcase with rfl | ⟨-, rfl⟩
  · have hsrc' : m' src = some i := by rw [hown src (hcand src (by rw [hsplit]; simp)), hsrc]
    have happly : (DirOp.rename src path).apply m' = Function.update (Function.update m' src none) path (some i) := by
      rw [DirOp.apply, hsrc']
    have hpath : n path = some i := by rw [hmain, happly, Function.update_self]
    rw [List.cons_append, List.findSome?_cons, hpath]
  · refine findSome?_of_first ?_ ?_
    · intro p hp
      rcases List.mem_cons.mp hp with rfl | hp
      · rw [hmain, hown p List.mem_cons_self, hfront p List.mem_cons_self]
      · rw [heq p (.inr (hfree p (List.mem_append_left _ hp))),
          hown p (hcand p (by rw [hsplit]; simp [hp])), hfront p (List.mem_cons_of_mem _ hp)]
    · rw [heq src (.inr (hfree src (by simp))), hown src (hcand src (by rw [hsplit]; simp)), hsrc]

/-- What the instants of the second half of recovery can be. -/
def Recovering (lossy : DirOp → Prop) (path : Path) (i : ℕ) (d t : Disk) : Prop :=
  SameFiles d t ∧ ∀ n, t.Leaves lossy n → recoveredMain n path = some i

theorem Steady.recovering (hsteady : Steady lossy path d) (hmain : recoveredMain d.dir path = some i) :
    Recovering lossy path i d d :=
  ⟨sameFiles_refl d, fun _ hn => (hsteady.recovers hn).trans hmain⟩

/-- A rename of the chosen file, some removals, and the end of recovery. -/
theorem visits_promote (front : List Path) {rest : List Path} {src : Path} {bad : OsError → FileProg (Except Err Unit)}
    {good : Unit → FileProg (Except Err Unit)} {found : Bool} (hsteady : Steady lossy path d)
    (hsplit : candidates path = path :: front ++ src :: rest) (hfront : ∀ q ∈ path :: front, d.dir q = none)
    (hsrc : d.dir src = some i)
    (hexec : ∃ d2, Disk.exec (good ()) (d.enqueue (.rename src path)) = (.ok (), d2))
    (hgood : ∀ u, Prog.Visits Disk.answer (good ()) (d.enqueue (.rename src path)) u →
      Cleared lossy (artifacts path) (d.enqueue (.rename src path)) u)
    (hv : Prog.Visits Disk.answer (((Sys.rename src path).orElse bad good).andThen fun _ => clearArtifacts path found)
      d t) : Recovering lossy path i d t := by
  have hmain : recoveredMain d.dir path = some i := by
    rw [recoveredMain_eq, hsplit]
    exact findSome?_of_first hfront hsrc
  have hcleared : ∀ u, Cleared lossy (artifacts path) (d.enqueue (.rename src path)) u → Recovering lossy path i d u :=
    fun u hu => ⟨(sameFiles_enqueue d _).trans hu.files, fun _ hn => hu.promoted hsteady hsplit hfront hsrc hn⟩
  have hrename := Disk.exec_rename_some hsrc path
  obtain ⟨d2, hexec⟩ := hexec
  have hrun : Disk.exec ((Sys.rename src path).orElse bad good) d = (.ok (), d2) := by
    rw [Disk.exec_orElse_ok hrename, hexec]
  rcases Prog.visits_orElse_ok hrun hv with hv | hv
  · rcases Prog.visits_orElse_ok hrename hv with hv | hv
    · rcases Prog.visits_perform hv with rfl | rfl
      · exact hsteady.recovering hmain
      · rw [show (Disk.answer (.rename src path) d).2 = d.enqueue (.rename src path) from congrArg Prod.snd hrename]
        exact hcleared _ (cleared_refl _ _)
    · exact hcleared t (hgood t hv)
  · exact hcleared t ((hgood d2 (Prog.visits_end hexec)).trans (visits_clearArtifacts hv))

theorem visits_fileExists {q : Path} (hv : Prog.Visits Disk.answer (fileExists q) d t) : t = d := by
  refine Disk.visits_observes (Q := fun _ => True) ?_ hv
  refine Prog.each_orElse (Prog.each_perform (o := FileOp.stat q) trivial) (fun _ _ => ?_) fun _ _ => .ret trivial
  split <;> exact .ret trivial

/-- **A recovery that is interrupted.** At no instant does what a crash may leave change which file is the
log. -/
theorem visits_recover (hsteady : Steady lossy path d) (hmain : recoveredMain d.dir path = some i)
    (hv : Prog.Visits Disk.answer (recoverCompactionArtifacts path) d t) : Recovering lossy path i d t := by
  have hstart := hsteady.recovering hmain
  unfold recoverCompactionArtifacts at hv
  dsimp only at hv
  rcases Prog.visits_orElse_ok (exec_fileExists d _) hv with hv | hv
  · exact visits_fileExists hv ▸ hstart
  rcases Prog.visits_orElse_ok (exec_fileExists d _) hv with hv | hv
  · exact visits_fileExists hv ▸ hstart
  rcases Prog.visits_orElse_ok (exec_fileExists d _) hv with hv | hv
  · exact visits_fileExists hv ▸ hstart
  rcases Prog.visits_orElse_ok (exec_fileExists d _) hv with hv | hv
  · exact visits_fileExists hv ▸ hstart
  rcases Prog.visits_orElse_ok (exec_fileExists d _) hv with hv | hv
  · exact visits_fileExists hv ▸ hstart
  generalize hfound : ((d.dir (path ++ compactionReadySuffix)).isSome ||
    (d.dir (path ++ compactionBackupSuffix)).isSome ||
    (d.dir (path ++ compactionTempSuffix)).isSome || (d.dir (path ++ legacyCompactionSuffix)).isSome) = found at hv
  change Prog.Visits Disk.answer ((promoteArtifact path _ _ _ _).andThen fun _ => clearArtifacts path found) d t at hv
  unfold promoteArtifact at hv
  rw [recoveredMain] at hmain
  cases hm : d.dir path with
  | some j =>
    rw [hm] at hmain hv
    cases hmain
    obtain ⟨d1, hexec, -⟩ := exec_removeAllIfExist
      [path ++ compactionReadySuffix, path ++ compactionBackupSuffix, path ++ legacyCompactionSuffix] d
    have hsub : ∀ q ∈ [path ++ compactionReadySuffix, path ++ compactionBackupSuffix, path ++ legacyCompactionSuffix],
        q ∈ artifacts path := fun q hq => List.mem_cons_of_mem _ hq
    have hcleared : ∀ u, Cleared lossy (artifacts path) d u → Recovering lossy path i d u := by
      intro u hu
      refine ⟨hu.files, fun n hn => ?_⟩
      obtain ⟨m, hm', heq⟩ := hu.left n hn
      have hpath : n path = some i := by
        rw [heq path (.inl (path_not_mem_artifacts path)), hsteady m hm' path List.mem_cons_self, hm]
      rw [recoveredMain, hpath]
      rfl
    rcases Prog.visits_orElse_ok hexec hv with hv | hv
    · exact hcleared t ((visits_removeAllIfExist hv).mono hsub)
    · have hfirst : Cleared lossy (artifacts path) d d1 := (visits_removeAllIfExist (Prog.visits_end hexec)).mono hsub
      exact hcleared t (hfirst.trans (visits_clearArtifacts hv))
  | none =>
    rw [hm] at hmain hv
    have hnone : ∀ q ∈ [path], d.dir q = none := fun q hq => by rw [List.mem_singleton.mp hq, hm]
    have hpure : ∀ {u v : Disk}, Prog.Visits Disk.answer (pure (.ok ()) : FileProg (Except Err Unit)) u v →
        Cleared lossy (artifacts path) u v := by
      intro u v h
      rw [Prog.visits_pure h]
      exact cleared_refl _ _
    cases hr : d.dir (path ++ compactionReadySuffix) with
    | some j =>
      rw [hr] at hmain hv
      cases hmain
      obtain ⟨d2, hexec, -⟩ := exec_removeIfExists (d.enqueue (.rename (path ++ compactionReadySuffix) path))
        (path ++ compactionBackupSuffix)
      refine visits_promote [] hsteady rfl hnone hr ⟨d2, hexec⟩ (fun u hu => ?_) hv
      exact (visits_removeIfExists hu).mono (by simp [artifacts])
    | none =>
      rw [hr] at hmain hv
      cases hb : d.dir (path ++ compactionBackupSuffix) with
      | some j =>
        rw [hb] at hmain hv
        cases hmain
        refine visits_promote [path ++ compactionReadySuffix] hsteady rfl ?_ hb ⟨_, rfl⟩ (fun u hu => hpure hu) hv
        simp [hm, hr]
      | none =>
        rw [hb] at hmain hv
        cases hl : d.dir (path ++ legacyCompactionSuffix) with
        | some j =>
          rw [hl] at hmain hv
          cases hmain
          refine visits_promote [path ++ compactionReadySuffix, path ++ compactionBackupSuffix] hsteady rfl ?_
            hl ⟨_, rfl⟩ (fun u hu => hpure hu) hv
          simp [hm, hr, hb]
        | none =>
          rw [hl] at hmain
          cases hmain

/-- Recovery ends with a sync if it changed anything. -/
theorem recover_steady (hsteady : Steady lossy path d)
    (hexec : Disk.exec (recoverCompactionArtifacts path) d = (.ok (), d')) : Steady lossy path d' := by
  obtain ⟨d1, h1, -⟩ := exec_promoteArtifact d path
  obtain ⟨d2, h2, -⟩ := exec_removeAllIfExist (artifacts path) d1
  unfold recoverCompactionArtifacts at hexec
  dsimp only at hexec
  rw [Disk.exec_andThen_ok (exec_fileExists d _), Disk.exec_andThen_ok (exec_fileExists d _),
    Disk.exec_andThen_ok (exec_fileExists d _), Disk.exec_andThen_ok (exec_fileExists d _),
    Disk.exec_andThen_ok (exec_fileExists d _), Disk.exec_andThen_ok h1,
    Disk.exec_andThen_ok (p := removeAllIfExist [_, _, _, _]) h2] at hexec
  split at hexec
  · rw [Disk.exec_orElse_ok (exec_syncParentDirectory d2 path)] at hexec
    cases hexec
    exact steady_of_settled rfl
  · rename_i hfound
    have hnone : ∀ q ∈ artifacts path, d.dir q = none := by
      simp only [Bool.or_eq_true, not_or, Bool.not_eq_true, Option.isSome_eq_false_iff, Option.isNone_iff_eq_none]
        at hfound
      simp [artifacts, hfound]
    have hpromote : Disk.exec (promoteArtifact path (d.dir path).isSome (d.dir (path ++ compactionReadySuffix)).isSome
        (d.dir (path ++ compactionBackupSuffix)).isSome (d.dir (path ++ legacyCompactionSuffix)).isSome) d =
          (.ok (), d) := by
      have hready : d.dir (path ++ compactionReadySuffix) = none := hnone _ (by simp [artifacts])
      have hbackup : d.dir (path ++ compactionBackupSuffix) = none := hnone _ (by simp [artifacts])
      have hlegacy : d.dir (path ++ legacyCompactionSuffix) = none := hnone _ (by simp [artifacts])
      unfold promoteArtifact
      rw [hready, hbackup, hlegacy]
      split
      · exact exec_removeAllIfExist_none fun q hq => hnone q (List.mem_cons_of_mem _ hq)
      · rfl
    rw [hpromote] at h1
    cases h1
    rw [exec_removeAllIfExist_none hnone] at h2
    cases h2
    cases hexec
    exact hsteady

/-! ## The lock -/

/-- Taking the lock binds no name of the store. -/
theorem Steady.lock (h : Steady lossy path d) (hv : Prog.Visits Disk.answer (acquireFileLock path) d t) :
    Steady lossy path t ∧ ∀ q ∈ path :: artifacts path, t.dir q = d.dir q := by
  refine h.visits (calls_acquireFileLock ?_ (fun _ _ _ => id) fun _ _ _ => id) hv
  rintro q hq ⟨-, rfl⟩
  rcases List.mem_cons.mp hq with heq | hmem
  · exact path_ne_append (by decide) heq.symm
  · exact lock_not_mem_artifacts path hmem

end

end AppendStore
