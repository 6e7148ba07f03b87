import AppendStore.Log.Calls
import AppendStore.Store.DowngradeRoundTrip

/-! # A downgrade that fails

Any system call of a downgrade may fail. Up to its last rename the run writes to the source and the temporary
file, creates the lock of the source and removes artifacts of the source. So it leaves the destination as it was
exactly if the destination is neither that lock, still to be created, nor such an artifact, and in the way of
recovery (`downgrade_atomic`). What is followed through the run is `Unpublished`: the files that are apart from
it, that the output was not yet renamed, and the removals of the temporary file so far.
-/

namespace AppendStore
open Library
set_option autoImplicit false

/-! ## A run that has not published its output -/

section
variable {S : Path → Prop} {d : Disk} {tmp dst : Path} {n : List Bool} {s t : Disk × Journal} {α : Type}

structure Unpublished (S : Path → Prop) (d : Disk) (tmp dst : Path) (n : List Bool) (s : Disk × Journal) : Prop where
  apart : Apart S d s.1
  unrenamed : ⟨.rename tmp dst, true⟩ ∉ s.2
  removals : s.2.outcomes (.remove tmp) = n

/-- A call that leaves the files in `S` as they are and is neither a removal of the temporary file nor its
renaming. -/
def Quiet (S : Path → Prop) (d : Disk) (tmp dst : Path) (o : FileOp) : Prop :=
  o.Preserves S d ∧ o ≠ .remove tmp ∧ o ≠ .rename tmp dst

theorem quiet_of_on {o : FileOp} {i : ℕ} (ho : o.On i) (hi : Foreign S d i) : Quiet S d tmp dst o := by
  refine ⟨(spares_of_on ho hi).preserves, ?_, ?_⟩
  · rintro rfl
    exact ho
  · rintro rfl
    exact ho

theorem quiet_of_reading {o : FileOp} (ho : o.Reading) : Quiet S d tmp dst o := by
  refine ⟨(spares_of_reading ho).preserves, ?_, ?_⟩
  · rintro rfl
    exact ho
  · rintro rfl
    exact ho

/-- A call that names no path and writes nothing. -/
theorem quiet_of_plain {o : FileOp} (hpreserves : o.Preserves S d) (hremove : ∀ p, o ≠ .remove p)
    (hrename : ∀ a b, o ≠ .rename a b) : Quiet S d tmp dst o :=
  ⟨hpreserves, hremove tmp, hrename tmp dst⟩

theorem quiet_stat (p : Path) : Quiet S d tmp dst (.stat p) :=
  quiet_of_plain trivial (fun _ => by rintro ⟨⟩) fun _ _ => by rintro ⟨⟩

theorem quiet_syncDir (p : Path) : Quiet S d tmp dst (.syncDir p) :=
  quiet_of_plain trivial (fun _ => by rintro ⟨⟩) fun _ _ => by rintro ⟨⟩

theorem quiet_flock (f : OsFile) : Quiet S d tmp dst (.flock f) :=
  quiet_of_plain trivial (fun _ => by rintro ⟨⟩) fun _ _ => by rintro ⟨⟩

theorem quiet_close (f : OsFile) : Quiet S d tmp dst (.close f) :=
  quiet_of_plain trivial (fun _ => by rintro ⟨⟩) fun _ _ => by rintro ⟨⟩

theorem quiet_open {p : Path} {create trunc : Bool} (hp : S p → trunc = false ∧ d.dir p ≠ none) :
    Quiet S d tmp dst (.openFile p create trunc) :=
  quiet_of_plain hp (fun _ => by rintro ⟨⟩) fun _ _ => by rintro ⟨⟩

theorem quiet_remove {p : Path} (hp : S p → d.dir p = none) (hne : p ≠ tmp) : Quiet S d tmp dst (.remove p) :=
  ⟨hp, fun heq => hne (FileOp.remove.inj heq), by rintro ⟨⟩⟩

theorem quiet_rename {a b : Path} (ha : S a → d.dir a = none) (hb : ¬ S b) (hne : b ≠ dst) :
    Quiet S d tmp dst (.rename a b) :=
  ⟨⟨ha, hb⟩, by rintro ⟨⟩, fun heq => hne (FileOp.rename.inj heq).2⟩

theorem Unpublished.mono (h : Unpublished S d tmp dst n s) {T : Path → Prop} (hT : ∀ q, T q → S q) :
    Unpublished T d tmp dst n s :=
  ⟨h.apart.mono hT, h.unrenamed, h.removals⟩

theorem Unpublished.step (h : Unpublished S d tmp dst n s) {o : FileOp} {r : o.Res} (ho : Quiet S d tmp dst o)
    (hr : Disk.MayAnswer o s r t) : Unpublished S d tmp dst n t := by
  obtain ⟨hpreserves, hremove, hrename⟩ := ho
  refine ⟨hr.apart h.apart hpreserves, ?_, ?_⟩
  · rw [hr.2, List.mem_append, List.mem_singleton]
    rintro (hmem | heq)
    · exact h.unrenamed hmem
    · exact hrename (congrArg Entry.op heq).symm
  · rw [hr.2, Journal.outcomes_concat_ne hremove, h.removals]

/-- A program of quiet calls. -/
theorem Unpublished.all (h : Unpublished S d tmp dst n s) {p : FileProg α} {Q : α → Prop}
    (hp : p.Each (Quiet S d tmp dst) Q) : p.All Disk.MayAnswer s fun a t => Unpublished S d tmp dst n t ∧ Q a :=
  hp.all (fun _ _ _ _ ho hs hr => hs.step ho hr) h

/-- Opening a file under a name outside `S`. -/
theorem Unpublished.openFile (h : Unpublished S d tmp dst n s) {p : Path} (hp : ¬ S p) (create trunc : Bool) :
    (Sys.openFile p create trunc).All Disk.MayAnswer s fun r t =>
      Unpublished S d tmp dst n t ∧ ∀ f, r = .ok f → Foreign S d f.inode := by
  refine Prog.all_perform fun r t hr => ⟨h.step (quiet_open fun hS => absurd hS hp) hr, ?_⟩
  rintro f rfl
  exact hr.foreign h.apart hp

end

/-! ## The source -/

section
variable {S : Path → Prop} {d : Disk} {src tmp dst : Path} {n : List Bool} {s : Disk × Journal}

/-- What a run does before it writes leaves the files in `S` as they are: the source is not among them, the lock is
there already, and there are no artifacts to remove. -/
structure Outside (S : Path → Prop) (d : Disk) (src tmp dst : Path) : Prop where
  main : ¬ S src
  lock : S (src ++ lockFileSuffix) → d.dir (src ++ lockFileSuffix) ≠ none
  artifacts : ∀ q ∈ artifacts src, (S q → d.dir q = none) ∧ q ≠ tmp
  ne : src ≠ dst

theorem Outside.recover (h : Outside S d src tmp dst) :
    (recoverCompactionArtifacts src).Each (Quiet S d tmp dst) fun _ => True :=
  calls_recoverCompactionArtifacts quiet_stat
    (fun q hq => quiet_remove (h.artifacts q hq).1 (h.artifacts q hq).2)
    (fun q hq => quiet_rename (h.artifacts q hq).1 h.main h.ne) (quiet_syncDir src)

theorem Outside.acquireFileLock (h : Outside S d src tmp dst) :
    (acquireFileLock src).Each (Quiet S d tmp dst) fun _ => True :=
  calls_acquireFileLock (quiet_open fun hS => ⟨rfl, h.lock hS⟩) quiet_flock quiet_close

theorem calls_checkDestination {P : FileOp → Prop} (hstat : P (.stat dst)) (overwrite : Bool) :
    (checkDestination dst overwrite).Each P fun _ => True := by
  unfold checkDestination
  split
  · exact .ret trivial
  · exact Prog.each_orElse (Prog.each_perform hstat) (fun _ _ => .ret trivial) fun _ _ => .ret trivial

/-- The handle of the source is none of a file in `S`. -/
theorem Unpublished.openAppendLogFile (h : Unpublished S d tmp dst n s) (hsrc : ¬ S src) :
    (openAppendLogFile src).All Disk.MayAnswer s fun r t =>
      Unpublished S d tmp dst n t ∧ ∀ l, r = .ok l → Foreign S d l.file.inode := by
  refine Prog.all_orElse (h.openFile hsrc true false) (fun e t ht => ⟨ht.1, fun l hl => by cases hl⟩) ?_
  rintro file t ⟨ht, hfile⟩
  have hforeign := hfile file rfl
  have hP : ∀ o : FileOp, o.On file.inode → Quiet S d tmp dst o := fun o ho => quiet_of_on ho hforeign
  refine (ht.all (calls_startLog hP src)).mono ?_
  rintro r u ⟨hu, hr⟩
  refine ⟨hu, fun l hl => ?_⟩
  rw [(hr l hl).file]
  exact hforeign

end

/-! ## The writers -/

section
variable {P : FileOp → Prop} {log : AppendLog} {live : Index}

theorem calls_visitLive {σ : Type} {J : σ → Prop}
    {fn : Bytes → Bytes → Bytes → Attributes → σ → FileProg (Except Err Unit × σ)}
    (hread : ∀ o : FileOp, o.Reading → P o)
    (hfn : ∀ key value extensions attributes s, J s → (fn key value extensions attributes s).Each P fun r => J r.2)
    (keys : List Bytes) {s : σ} (hs : J s) : (visitLive log live fn keys s).Each P fun r => J r.2 := by
  induction keys generalizing s with
  | nil => exact .ret hs
  | cons key keys ih =>
    unfold visitLive
    split
    · exact ih hs
    · refine Prog.each_orElse (calls_readRecordAndExtensionsAt hread log _ _) (fun _ _ => .ret hs) fun x _ => ?_
      exact Prog.each_orElseState (hfn _ _ _ _ s hs) (fun _ _ h => .ret h) fun _ _ h => ih h

theorem calls_putV4Record {out : AppendLog} (hP : ∀ o : FileOp, o.On out.file.inode → P o)
    (key value extensions : Bytes) (attributes : Attributes) :
    (putV4Record key value extensions attributes out).Each P fun r => r.2.file = out.file := by
  unfold putV4Record
  split
  · exact .ret rfl
  · exact Prog.each_orElseState (calls_append hP _ _ _ _ _) (fun _ _ h => .ret h.file) fun _ _ h => .ret h.file

theorem calls_putV3Record {w : BufferedWriter} (hP : ∀ o : FileOp, o.On w.file.inode → P o)
    (key value extensions : Bytes) (attributes : Attributes) :
    (putV3Record key value extensions attributes w).Each P fun r => r.2.file = w.file := by
  unfold putV3Record
  split
  · exact .ret rfl
  · exact Prog.each_bind (calls_write hP _) fun _ h => .ret h

end

section
variable {S : Path → Prop} {d : Disk} {tmp dst : Path} {n : List Bool} {s : Disk × Journal} {log : AppendLog}
  {live : Index}

theorem Unpublished.createAppendLogMode (h : Unpublished S d tmp dst n s) (htmp : ¬ S tmp) :
    (createAppendLogMode tmp).All Disk.MayAnswer s fun r t =>
      Unpublished S d tmp dst n t ∧ ∀ l, r = .ok l → Foreign S d l.file.inode := by
  refine Prog.all_orElse (h.openFile htmp true true) (fun e t ht => ⟨ht.1, fun l hl => by cases hl⟩) ?_
  rintro file t ⟨ht, hfile⟩
  have hforeign := hfile file rfl
  have hP : ∀ o : FileOp, o.On file.inode → Quiet S d tmp dst o := fun o ho => quiet_of_on ho hforeign
  refine (ht.all (calls_startNew hP tmp)).mono ?_
  rintro r u ⟨hu, hr⟩
  refine ⟨hu, fun l hl => ?_⟩
  rw [(hr l hl).file]
  exact hforeign

theorem Unpublished.writeV4Log (h : Unpublished S d tmp dst n s) (htmp : ¬ S tmp) :
    (writeV4Log log live tmp).All Disk.MayAnswer s fun _ t => Unpublished S d tmp dst n t := by
  refine Prog.all_andThen (h.createAppendLogMode htmp) (fun e t ht => ht.1) ?_
  rintro out t ⟨ht, hout⟩
  have hforeign := hout out rfl
  have hP : ∀ l : AppendLog, l.file = out.file → ∀ o : FileOp, o.On l.file.inode → Quiet S d tmp dst o := by
    intro l hl o ho
    rw [hl] at ho
    exact quiet_of_on ho hforeign
  have hclose : ∀ l : AppendLog, l.file = out.file → ∀ f : Except Err Unit × AppendLog → Except Err Unit,
      (do let r ← l.close; pure (f r) : FileProg (Except Err Unit)).Each (Quiet S d tmp dst) fun _ => True :=
    fun l hl f => Prog.each_bind (calls_close (hP l hl)) fun _ _ => .ret trivial
  refine Prog.All.mono (ht.all (Q := fun _ => True) ?_) fun _ _ hu => hu.1
  refine Prog.each_orElseState (calls_visitLive (J := fun l : AppendLog => l.file = out.file)
    (fun o ho => quiet_of_reading ho) ?_ _ rfl) (fun e l hl => hclose l hl fun _ => .error e) fun _ l hl => ?_
  · intro key value extensions attributes l hl
    exact (calls_putV4Record (hP l hl) key value extensions attributes).mono fun r hr => hr.trans hl
  · refine Prog.each_orElseState (calls_setVersion (hP l hl) 4) (fun e l' hl' => ?_) fun _ l' hl' => ?_
    · exact hclose l' (hl'.file.trans hl) fun _ => .error e
    · exact hclose l' (hl'.file.trans hl) fun r => r.1

theorem Unpublished.writeV3Log (h : Unpublished S d tmp dst n s) (htmp : ¬ S tmp) :
    (writeV3Log log live tmp).All Disk.MayAnswer s fun _ t => Unpublished S d tmp dst n t := by
  refine Prog.all_orElse (h.openFile htmp true true) (fun e t ht => ht.1) ?_
  rintro file t ⟨ht, hfile⟩
  have hforeign := hfile file rfl
  have hP : ∀ w : BufferedWriter, w.file = file → ∀ o : FileOp, o.On w.file.inode → Quiet S d tmp dst o := by
    intro w hw o ho
    rw [hw] at ho
    exact quiet_of_on ho hforeign
  have hclose : ∀ e : Err, (do let _ ← Sys.close file; pure (.error e) : FileProg (Except Err Unit)).Each
      (Quiet S d tmp dst) fun _ => True :=
    fun e => Prog.each_bind (Prog.each_perform (quiet_close file)) fun _ _ => .ret trivial
  refine Prog.All.mono (ht.all (Q := fun _ => True) ?_) fun _ _ hu => hu.1
  refine Prog.each_bind (calls_write (hP (BufferedWriter.new file (1 <<< 20)) rfl) _) fun w hw => ?_
  refine Prog.each_orElseState (calls_visitLive (J := fun w : BufferedWriter => w.file = file)
    (fun o ho => quiet_of_reading ho) ?_ _ hw) (fun e _ _ => hclose e) fun _ w hw => ?_
  · intro key value extensions attributes w hw
    exact (calls_putV3Record (hP w hw) key value extensions attributes).mono fun r hr => hr.trans hw
  · refine Prog.each_orElseState (calls_flush (hP w hw)) (fun e _ _ => hclose (.os e)) fun _ _ _ => ?_
    refine Prog.each_orElse (Prog.each_perform (quiet_of_on (o := .fsync file) rfl hforeign))
      (fun e _ => hclose (.os e))
      fun _ _ => ?_
    exact Prog.each_orElse (Prog.each_perform (quiet_close file)) (fun _ _ => .ret trivial) fun _ _ => .ret trivial

end

/-! ## The end of a run -/

/-- How a run ends: before it removed anything, after it cleaned up, or with its output in place. -/
inductive Ended (S : Path → Prop) (d : Disk) (tmp dst : Path) (r : Except Err Unit) (s : Disk × Journal) : Prop
  | early (n : List Bool) (hn : n.length ≤ 1) (hr : r ≠ .ok ()) (h : Unpublished S d tmp dst n s)
  | late (x y : Bool) (hr : r ≠ .ok ()) (h : Unpublished (fun q => S q ∧ q ≠ tmp) d tmp dst [x, y] s)
      (hgone : y = true → s.1.dir tmp = none)
  | published (hmem : ⟨.rename tmp dst, true⟩ ∈ s.2) (h : Apart (fun q => S q ∧ q ≠ tmp ∧ q ≠ dst) d s.1)

/-- A call that changes no directory and no content. -/
def Inert : FileOp → Prop
  | .close _ => True
  | .funlock _ => True
  | .syncDir _ => True
  | _ => False

section
variable {S : Path → Prop} {d : Disk} {tmp dst : Path} {s t : Disk × Journal}

theorem Inert.quiet {o : FileOp} (ho : Inert o) : Quiet S d tmp dst o := by
  cases o with
  | close f => exact quiet_close f
  | syncDir p => exact quiet_syncDir p
  | funlock f => exact quiet_of_plain trivial (fun _ => by rintro ⟨⟩) fun _ _ => by rintro ⟨⟩
  | _ => exact ho.elim

theorem Inert.dir {o : FileOp} {r : o.Res} (ho : Inert o) (hr : Disk.MayAnswer o s r t) : t.1.dir = s.1.dir := by
  have hanswer : (Disk.answer o s.1).2.dir = s.1.dir := by
    cases o with
    | close f =>
      simp only [Disk.answer, Disk.onOpen]
      split <;> rfl
    | funlock f =>
      simp only [Disk.answer, Disk.onOpen]
      split <;> rfl
    | syncDir p => exact Disk.dir_syncNames s.1
    | _ => exact ho.elim
  rcases hr.1 with hok | ⟨k, hfail⟩
  · rw [show t.1 = (Disk.answer o s.1).2 from congrArg Prod.snd hok, hanswer]
  · rw [show t.1 = (Disk.fault k o s.1).2 from congrArg Prod.snd hfail]
    cases o with
    | writeAt f off b => exact ho.elim
    | _ => rfl

/-- What comes after the end of a run does not change how it ended. -/
theorem Ended.step {r : Except Err Unit} (h : Ended S d tmp dst r s) {o : FileOp} {a : o.Res} (ho : Inert o)
    (ha : Disk.MayAnswer o s a t) : Ended S d tmp dst r t := by
  cases h with
  | early n hn hr h => exact .early n hn hr (h.step ho.quiet ha)
  | late x y hr h hgone =>
    refine .late x y hr (h.step ho.quiet ha) fun hy => ?_
    rw [ho.dir ha]
    exact hgone hy
  | published hmem h =>
    have hquiet : Quiet (fun q => S q ∧ q ≠ tmp ∧ q ≠ dst) d tmp dst o := ho.quiet
    refine .published ?_ (ha.apart h hquiet.1)
    rw [ha.2]
    exact List.mem_append_left _ hmem

theorem Ended.all {α : Type} {r : Except Err Unit} (h : Ended S d tmp dst r s) {p : FileProg α} {Q : α → Prop}
    (hp : p.Each Inert Q) : p.All Disk.MayAnswer s fun _ t => Ended S d tmp dst r t :=
  (hp.all (fun _ _ _ _ ho hs ha => hs.step ho ha) h).mono fun _ _ hu => hu.1

theorem remove_failed {p : Path} {e : OsError} (h : Disk.MayAnswer (.remove p) s (.error e) t) : t.1 = s.1 := by
  rcases h.1 with hok | ⟨k, hfail⟩
  · simp only [Disk.answer] at hok
    split at hok
    · cases congrArg Prod.fst hok
    · exact congrArg Prod.snd hok
  · exact congrArg Prod.snd hfail

theorem remove_succeeded {p : Path} (h : Disk.MayAnswer (.remove p) s (.ok ()) t) : t.1.dir p = none := by
  rcases h.1 with hok | ⟨k, hfail⟩
  · simp only [Disk.answer] at hok
    split at hok
    · rw [show t.1 = s.1.enqueue (.remove p) from congrArg Prod.snd hok, Disk.dir_enqueue, DirOp.apply,
        Function.update_self]
    · cases congrArg Prod.fst hok
  · cases congrArg Prod.fst hfail

/-- A removal of the temporary file. -/
theorem Unpublished.removed {n : List Bool} (h : Unpublished S d tmp dst n s) {r : (FileOp.remove tmp).Res}
    (hr : Disk.MayAnswer (.remove tmp) s r t) (htmp : ¬ S tmp) :
    Unpublished S d tmp dst (n ++ [FileOp.succeeded (.remove tmp) r]) t := by
  refine ⟨hr.apart h.apart fun hS => absurd hS htmp, ?_, ?_⟩
  · rw [hr.2, List.mem_append, List.mem_singleton]
    rintro (hmem | heq)
    · exact h.unrenamed hmem
    · cases congrArg Entry.op heq
  · rw [hr.2, Journal.outcomes_concat_self, h.removals]

/-- The clean-up after an error. -/
theorem Unpublished.cleanUp {x : Bool} {e : Err} (h : Unpublished (fun q => S q ∧ q ≠ tmp) d tmp dst [x] s) :
    (do let _ ← Sys.remove tmp; pure (.error e) : FileProg (Except Err Unit)).All Disk.MayAnswer s
      (Ended S d tmp dst) := by
  refine Prog.all_bind (Prog.all_perform fun r t hr => ?_)
  refine .late x (FileOp.succeeded (.remove tmp) r) (by rintro ⟨⟩) (h.removed hr fun hS => hS.2 rfl) fun hy => ?_
  cases r with
  | ok a => exact remove_succeeded hr
  | error e => cases hy

/-- The renaming of the output. -/
theorem Unpublished.rename {x : Bool} (h : Unpublished (fun q => S q ∧ q ≠ tmp) d tmp dst [x] s)
    {r : (FileOp.rename tmp dst).Res} (hr : Disk.MayAnswer (.rename tmp dst) s r t) :
    (∀ e, r = .error e → Unpublished (fun q => S q ∧ q ≠ tmp) d tmp dst [x] t) ∧
      (r = .ok () → Ended S d tmp dst (.ok ()) t) := by
  constructor
  · rintro e rfl
    have hsame : t.1 = s.1 := by
      rcases hr.1 with hok | ⟨k, hfail⟩
      · simp only [Disk.answer] at hok
        split at hok
        · cases congrArg Prod.fst hok
        · exact congrArg Prod.snd hok
      · exact congrArg Prod.snd hfail
    refine ⟨by rw [hsame]; exact h.apart, ?_, ?_⟩
    · rw [hr.2, List.mem_append, List.mem_singleton]
      rintro (hmem | heq)
      · exact h.unrenamed hmem
      · cases congrArg Entry.ok heq
    · rw [hr.2, Journal.outcomes_concat_ne (by rintro ⟨⟩), h.removals]
  · rintro rfl
    refine .published ?_ ?_
    · rw [hr.2]
      exact List.mem_append_right _ (List.mem_singleton_self _)
    · refine hr.apart (h.apart.mono fun q hq => ⟨hq.1, hq.2.1⟩) ?_
      exact ⟨fun hS => absurd rfl hS.2.1, fun hS => hS.2.2 rfl⟩

end

section
variable {S : Path → Prop} {d : Disk} {src dst : Path} {s : Disk × Journal}

/-- The writing of the output, from the first removal on. -/
theorem Unpublished.writeDowngraded (h : Unpublished S d (dst ++ downgradeTempSuffix) dst [] s) (log : AppendLog)
    (live : Index)
    (version : ℕ) :
    (writeDowngraded log live dst version).All Disk.MayAnswer s (Ended S d (dst ++ downgradeTempSuffix) dst) := by
  -- a removal that is answered by an error changes nothing, so the run may end there
  have hfirst : (removeIfExists (dst ++ downgradeTempSuffix)).All Disk.MayAnswer s fun r t =>
      (∀ e, r = .error e → Unpublished S d (dst ++ downgradeTempSuffix) dst [false] t) ∧
      (r = .ok () → ∃ x, Unpublished (fun q => S q ∧ q ≠ dst ++ downgradeTempSuffix) d (dst ++ downgradeTempSuffix) dst
        [x] t) := by
    have hsmall := h.mono (T := fun q => S q ∧ q ≠ dst ++ downgradeTempSuffix) fun q hq => hq.1
    refine Prog.all_bind (Prog.all_perform fun r t hr => ?_)
    have hremoved := hsmall.removed hr fun hS => hS.2 rfl
    cases r with
    | ok a => exact ⟨(fun e he => by cases he), fun _ => ⟨_, hremoved⟩⟩
    | error e =>
      refine ⟨fun _ _ => ?_, fun _ => ⟨_, hremoved⟩⟩
      have hsame := remove_failed hr
      exact ⟨by rw [hsame]; exact h.apart, hremoved.unrenamed, hremoved.removals⟩
  refine Prog.all_andThen hfirst (fun e t ht => .early [false] (le_refl 1) (by rintro ⟨⟩) (ht.1 e rfl)) ?_
  rintro ⟨⟩ t ht
  obtain ⟨x, ht⟩ := ht.2 rfl
  have hwriter : (if version = 4 then AppendStore.writeV4Log log live (dst ++ downgradeTempSuffix)
      else AppendStore.writeV3Log log live (dst ++ downgradeTempSuffix)).All Disk.MayAnswer t fun _ u =>
        Unpublished (fun q => S q ∧ q ≠ dst ++ downgradeTempSuffix) d (dst ++ downgradeTempSuffix) dst [x] u := by
    split
    · exact ht.writeV4Log fun hS => hS.2 rfl
    · exact ht.writeV3Log fun hS => hS.2 rfl
  refine Prog.all_orElse hwriter (fun e u hu => hu.cleanUp) fun _ u hu => ?_
  refine Prog.all_orElse (Prog.all_perform fun r v hr => hu.rename hr) (fun e v hv => (hv.1 e rfl).cleanUp) ?_
  rintro ⟨⟩ v hv
  have hended := hv.2 rfl
  have hsync : (syncParentDirectory dst).Each Inert fun _ => True :=
    Prog.each_orElse (Prog.each_perform (show Inert (.syncDir dst) from trivial)) (fun _ _ => .ret trivial)
      fun _ _ => .ret trivial
  refine ((hsync.all (I := fun w => Ended S d (dst ++ downgradeTempSuffix) dst (.ok ()) w)
    (fun _ _ _ _ ho hs ha => hs.step ho ha) hended)).mono fun r w hw => ?_
  cases hw.1 with
  | early n hn hr h => exact absurd rfl hr
  | late x y hr h hgone => exact absurd rfl hr
  | published hmem h => exact .published hmem h

theorem each_inert_close (l : AppendLog) : l.close.Each Inert fun _ => True := by
  refine Prog.each_bind (Q := fun _ => True) ?_ fun _ _ => .ret trivial
  exact Prog.each_orElse (Prog.each_perform (show Inert (.close l.file) from trivial)) (fun _ _ => .ret trivial)
    fun _ _ => .ret trivial

theorem each_inert_release (l : FileLock) : l.release.Each Inert fun _ => True := by
  unfold FileLock.release
  split
  · exact .ret trivial
  · rename_i f _
    refine Prog.each_bind (Prog.each_perform (show Inert (.funlock f) from trivial)) fun _ _ => ?_
    exact Prog.each_bind (Prog.each_perform (show Inert (.close f) from trivial)) fun _ _ => .ret trivial

/-- A run that ends early. -/
theorem Unpublished.early {r : Except Err Unit} {tmp : Path} (h : Unpublished S d tmp dst [] s) (hr : r ≠ .ok ()) :
    Ended S d tmp dst r s :=
  .early [] (Nat.zero_le 1) hr h

/-- The arguments that a run accepts. -/
def DowngradeOptions.Accept (options : DowngradeOptions) (src dst : Path) : Prop :=
  (options.version = 3 ∨ options.version = 4) ∧ src ≠ dst

/-- **The whole run**, with the arguments accepted or not. -/
theorem Unpublished.downgrade (h : Unpublished S d (dst ++ downgradeTempSuffix) dst [] s) (options : DowngradeOptions)
    (hout : options.Accept src dst → Outside S d src (dst ++ downgradeTempSuffix) dst) :
    (downgrade src dst options).All Disk.MayAnswer s (Ended S d (dst ++ downgradeTempSuffix) dst) := by
  unfold AppendStore.downgrade
  dsimp only
  split
  · exact h.early (by rintro ⟨⟩)
  split
  · exact h.early (by rintro ⟨⟩)
  rename_i hversion hne
  have hout := hout ⟨by tauto, hne⟩
  refine Prog.all_andThen (h.all (calls_checkDestination (quiet_stat dst) options.overwrite))
    (fun e t ht => ht.1.early (by rintro ⟨⟩)) ?_
  rintro - t ⟨ht, -⟩
  refine Prog.all_andThen (ht.all hout.acquireFileLock) (fun e u hu => hu.1.early (by rintro ⟨⟩)) ?_
  rintro lock u ⟨hu, -⟩
  refine Prog.all_bind (Prog.All.mono (Q := Ended S d (dst ++ downgradeTempSuffix) dst) ?_ fun r v hv => ?_)
  · unfold downgradeLocked openAppendLog
    refine Prog.all_andThen (Q := fun r v => Unpublished S d (dst ++ downgradeTempSuffix) dst [] v ∧
      ∀ l, r = .ok l → Foreign S d l.file.inode) ?_ (fun e v hv => hv.1.early (by rintro ⟨⟩)) ?_
    · refine Prog.all_andThen (hu.all hout.recover) (fun e v hv => ⟨hv.1, fun l hl => by cases hl⟩) ?_
      rintro - v ⟨hv, -⟩
      exact hv.openAppendLogFile hout.main
    · rintro log v ⟨hv, hlog⟩
      have hforeign := hlog log rfl
      refine Prog.all_bind (Prog.All.mono (Q := fun r w => Ended S d (dst ++ downgradeTempSuffix) dst r.1 w) ?_ ?_)
      · unfold downgradeOpened
        split
        · exact hv.early (by rintro ⟨⟩)
        dsimp only
        split
        · exact hv.early (by rintro ⟨⟩)
        refine Prog.all_bind (Prog.All.mono (hv.all (calls_iterate (fun o ho => quiet_of_on ho hforeign) liveRecord
          (newIndex []))) ?_)
        rintro ⟨⟨r, l⟩, live⟩ w ⟨hw, -⟩
        cases r with
        | error e => exact hw.early (by rintro ⟨⟩)
        | ok a => exact Prog.all_bind ((hw.writeDowngraded l live options.version).mono fun r x hx => hx)
      · rintro ⟨r, l⟩ w hw
        exact Prog.all_bind (hw.all (each_inert_close l))
  · exact Prog.all_bind (hv.all (each_inert_release lock))

end

/-! ## The destination -/

/-- Names whose last characters differ. -/
theorem append_ne_of_ends {a b s t : String} (k : ℕ) (hs : k ≤ s.toList.length) (ht : k ≤ t.toList.length)
    (h : s.toList.reverse.take k ≠ t.toList.reverse.take k) : a ++ s ≠ b ++ t := by
  intro heq
  have hlist := congrArg (fun x : String => x.toList.reverse.take k) heq
  simp only [String.toList_append, List.reverse_append] at hlist
  rw [List.take_append_of_le_length (by rwa [List.length_reverse]),
    List.take_append_of_le_length (by rwa [List.length_reverse])] at hlist
  exact h hlist

theorem artifact_ne_temp {src dst q : Path} (hq : q ∈ artifacts src) : q ≠ dst ++ downgradeTempSuffix := by
  obtain ⟨suffix, hsuffix, rfl⟩ := mem_artifacts.mp hq
  have hends : ∀ x ∈ [compactionTempSuffix, compactionReadySuffix, compactionBackupSuffix, legacyCompactionSuffix],
      5 ≤ x.toList.length ∧ x.toList.reverse.take 5 ≠ downgradeTempSuffix.toList.reverse.take 5 := by
    decide
  obtain ⟨hlen, hne⟩ := hends suffix hsuffix
  exact append_ne_of_ends 5 hlen (by decide) hne

theorem lock_ne_temp (src dst : Path) : src ++ lockFileSuffix ≠ dst ++ downgradeTempSuffix :=
  append_ne_of_ends 5 (by decide) (by decide) (by decide)

/-- The names that a run leaves as they are until it writes, if it accepts its arguments: not the source, no artifact
that is there, and the lock only if it is there. -/
def SparedName (d : Disk) (src dst : Path) (options : DowngradeOptions) (q : Path) : Prop :=
  options.Accept src dst →
    q ≠ src ∧ (q ∈ artifacts src → d.dir q = none) ∧ (q = src ++ lockFileSuffix → d.dir q ≠ none)

section
variable {K : Set ℕ} {d : Disk} {src dst : Path} {options : DowngradeOptions}

theorem sparedName_outside (hrun : options.Accept src dst) :
    Outside (SparedName d src dst options) d src (dst ++ downgradeTempSuffix) dst where
  main := fun h => (h hrun).1 rfl
  lock := fun h => (h hrun).2.2 rfl
  artifacts := fun _ hq => ⟨fun h => (h hrun).2.1 hq, artifact_ne_temp hq⟩
  ne := hrun.2

theorem sparedName_temp (hsrc : src ≠ dst ++ downgradeTempSuffix) :
    SparedName d src dst options (dst ++ downgradeTempSuffix) :=
  fun _ => ⟨hsrc.symm, fun hmem => absurd rfl (artifact_ne_temp hmem),
    fun heq => absurd heq.symm (lock_ne_temp src dst)⟩

/-! ## Runs that are refused -/

theorem all_checkDestination (dst : Path) (overwrite : Bool) :
    (checkDestination dst overwrite).All (Disk.Yields K) d fun r d' =>
      d' = d ∧ (r = .ok () → overwrite = true ∨ d.dir dst = none) := by
  unfold checkDestination
  split
  · exact Prog.all_pure ⟨rfl, fun _ => .inl (by assumption)⟩
  refine Prog.all_bind (Prog.all_perform fun r d' hr => ?_)
  obtain rfl : d' = d := hr.same trivial
  rcases hr with hok | ⟨k, -, hfail⟩
  · cases h : d'.dir dst with
    | none => cases r <;> exact ⟨rfl, fun _ => .inr rfl⟩
    | some i =>
      simp only [Disk.answer, h] at hok
      cases congrArg Prod.fst hok
      exact ⟨rfl, fun he => by cases he⟩
  · cases congrArg Prod.fst hfail
    exact ⟨rfl, fun he => by cases he⟩

/-- A lock that is held is not taken. -/
theorem all_acquireFileLock_held (hheld : ¬ LockFree d src) :
    (acquireFileLock src).All (Disk.Yields K) d fun r d' => d' = d ∧ ∀ lock, r ≠ .ok lock := by
  unfold LockFree at hheld
  push Not at hheld
  obtain ⟨i, hdir, hlocked⟩ := hheld
  have hlocked : d.locked i = true := by simpa using hlocked
  refine Prog.all_orElse (Disk.all_open_some hdir true) (fun e d' h => ⟨h.1, fun _ => by rintro ⟨⟩⟩) ?_
  rintro f d' ⟨rfl, hf⟩
  obtain rfl := hf f rfl
  have hflock : (Sys.flock ⟨i, true⟩).All (Disk.Yields K) d' fun r d'' => d'' = d' ∧ ∀ u, r ≠ .ok u := by
    refine Prog.all_perform fun r d'' hr => ?_
    rcases hr with hok | ⟨k, -, hfail⟩
    · simp only [Disk.answer, Disk.onOpen_open, hlocked, if_true] at hok
      cases hok
      exact ⟨rfl, fun _ => by rintro ⟨⟩⟩
    · cases hfail
      exact ⟨rfl, fun _ => by rintro ⟨⟩⟩
  refine Prog.all_orElse hflock ?_ fun u _ h => absurd rfl (h.2 u)
  rintro e d'' ⟨rfl, -⟩
  refine Prog.all_bind (Prog.all_perform fun r d' hr => ?_)
  exact ⟨hr.same trivial, fun _ => by rintro ⟨⟩⟩

/-- A destination that exists and may not be replaced ends the run, and so does a lock that is held. -/
theorem all_downgrade_refused (h : options.overwrite = false ∧ d.dir dst ≠ none ∨ ¬ LockFree d src) :
    (downgrade src dst options).All (Disk.Yields K) d fun _ d' => d' = d := by
  unfold downgrade
  dsimp only
  split
  · exact Prog.all_pure rfl
  split
  · exact Prog.all_pure rfl
  refine Prog.all_andThen (all_checkDestination dst options.overwrite) (fun e d' h => h.1) ?_
  rintro u d' ⟨rfl, hok⟩
  rcases h with ⟨hoverwrite, hdst⟩ | hheld
  · rcases hok rfl with htrue | hnone
    · rw [hoverwrite] at htrue
      cases htrue
    · exact absurd hnone hdst
  · refine Prog.all_andThen (all_acquireFileLock_held hheld) (fun e d'' h => h.1) ?_
    rintro lock d'' ⟨-, hne⟩
    exact absurd rfl (hne lock)

/-- Nothing changes in such a run. -/
theorem execNoted_refused (h : options.overwrite = false ∧ d.dir dst ≠ none ∨ ¬ LockFree d src) (faults : Disk.Faults) :
    (Disk.execNoted (downgrade src dst options) d faults).2.1 = d :=
  Disk.All.noted (all_downgrade_refused h) faults

/-! ## When the destination is in the way -/

/-- The destination is the lock that the run creates, or an artifact of the source that its recovery removes. -/
def Endangered (d : Disk) (src dst : Path) (options : DowngradeOptions) : Prop :=
  (options.version = 3 ∨ options.version = 4) ∧
    (dst = src ++ lockFileSuffix ∧ d.dir dst = none ∨
      options.overwrite = true ∧ dst ∈ artifacts src ∧ d.dir dst ≠ none ∧ LockFree d src)

theorem Endangered.accept (h : Endangered d src dst options) : options.Accept src dst := by
  refine ⟨h.1, ?_⟩
  rcases h.2 with ⟨rfl, -⟩ | ⟨-, hart, -⟩
  · exact path_ne_append (by decide)
  · exact fun heq => path_not_mem_artifacts src (heq ▸ hart)

theorem Endangered.lockFree (h : Endangered d src dst options) : LockFree d src := by
  rcases h.2 with ⟨rfl, hnone⟩ | ⟨-, -, -, hfree⟩
  · intro i hi
    rw [hnone] at hi
    cases hi
  · exact hfree

theorem Endangered.admitted (h : Endangered d src dst options) : options.overwrite = true ∨ d.dir dst = none := by
  rcases h.2 with ⟨-, hnone⟩ | ⟨hoverwrite, -⟩
  · exact .inr hnone
  · exact .inl hoverwrite

/-- **A run that fails to open its source**, after it took the lock and recovered. -/
theorem exists_downgrade_unopened (hs : d.Sound) (hrun : options.Accept src dst) (hfree : LockFree d src)
    (hdst : options.overwrite = true ∨ d.dir dst = none) :
    ∃ faults r t j, Disk.execNoted (downgrade src dst options) d faults = (r, t, j) ∧
      ⟨.rename (dst ++ downgradeTempSuffix) dst, true⟩ ∉ j ∧ (∀ q ∈ artifacts src, t.dir q = none) ∧
      t.dir (src ++ lockFileSuffix) ≠ none := by
  obtain ⟨k, d1, d2, hlock, hrecover, hready, -⟩ := exec_lockAndRecover hs hfree
  have hout : Outside (SparedName d src dst options) d src (dst ++ downgradeTempSuffix) dst := sparedName_outside hrun
  -- no call of the four parts is the renaming of the output
  have hrelease : Disk.exec (FileLock.release ⟨some ⟨k, true⟩⟩) d2 = ((none, ⟨none⟩), d2.setLock k false) :=
    exec_release rfl d2
  obtain ⟨f4, c4, hc4, h4⟩ := Disk.exists_faults (each_inert_release _) hrelease []
  obtain ⟨f3, c3, hc3, h3⟩ := Disk.exists_faults hout.recover hrecover (some 0 :: f4)
  obtain ⟨f2, c2, hc2, h2⟩ := Disk.exists_faults hout.acquireFileLock hlock f3
  have hcheck : (checkDestination dst options.overwrite).Each (· ≠ .rename (dst ++ downgradeTempSuffix) dst)
      fun _ => True :=
    calls_checkDestination (by rintro ⟨⟩) options.overwrite
  obtain ⟨f1, c1, hc1, h1⟩ := Disk.exists_faults hcheck (exec_checkDestination hdst) f2
  have hopen : ∀ j, (Sys.openFile src true false).run Disk.answerNoted ((d2, some 0 :: f4), j) =
      (.error .io, (d2, f4), j ++ [⟨.openFile src true false, false⟩]) := fun _ => rfl
  have hlocked : ∀ j, (downgradeLocked src dst options.version).run Disk.answerNoted ((d1, f3), j) =
      (.error (.os .io), (d2, f4), (j ++ c3) ++ [⟨.openFile src true false, false⟩]) := by
    intro j
    refine Prog.run_andThen_error _ ?_
    rw [openAppendLog, Prog.run_andThen_ok _ (h3 j), openAppendLogFile, Prog.run_orElse_error _ (hopen _)]
    rfl
  refine ⟨f1, .error (.os .io), d2.setLock k false, [] ++ c1 ++ c2 ++ c3 ++ [⟨.openFile src true false, false⟩] ++ c4,
    ?_, ?_, hready.noArtifacts, ?_⟩
  · unfold Disk.execNoted downgrade
    dsimp only
    rw [if_neg (by have := hrun.1; omega), if_neg hrun.2, Prog.run_andThen_ok _ (h1 []), Prog.run_andThen_ok _ (h2 _),
      Prog.run_bind, hlocked, Prog.run_bind, h4]
    rfl
  · simp only [List.mem_append, List.mem_singleton, not_or]
    refine ⟨⟨⟨⟨⟨List.not_mem_nil, fun h => hc1 _ h rfl⟩, fun h => (hc2 _ h).2.2 rfl⟩, fun h => (hc3 _ h).2.2 rfl⟩, ?_⟩,
      fun h => hc4 _ h⟩
    rintro ⟨⟩
  · obtain ⟨i, -, hi⟩ := hready.lockHeld
    rw [Disk.dir_setLock, hi]
    exact Option.some_ne_none i

/-- Until the output is renamed, the destination is as it was, whatever fails. -/
def DestinationKept (d : Disk) (src dst : Path) (options : DowngradeOptions) : Prop :=
  ∀ faults r t j, Disk.execNoted (downgrade src dst options) d faults = (r, t, j) →
    ⟨.rename (dst ++ downgradeTempSuffix) dst, true⟩ ∉ j → t.bytesAt dst = d.bytesAt dst

theorem Endangered.not_kept (hs : d.Sound) (h : Endangered d src dst options) :
    ¬ DestinationKept d src dst options := by
  obtain ⟨faults, r, t, j, hrun, hunrenamed, hart, hlock⟩ := exists_downgrade_unopened hs h.accept h.lockFree h.admitted
  intro hkept
  have hsame := hkept faults r t j hrun hunrenamed
  unfold Disk.bytesAt at hsame
  rcases h.2 with ⟨rfl, hnone⟩ | ⟨-, hmem, hsome, -⟩
  · rw [hnone, Option.map_none, Option.map_eq_none_iff] at hsame
    exact hlock hsame
  · rw [hart dst hmem, Option.map_none, eq_comm, Option.map_eq_none_iff] at hsame
    exact hsome hsame

/-- A destination that is in nobody's way is spared, or the run is refused. -/
theorem spared_or_refused (h : ¬ Endangered d src dst options) :
    SparedName d src dst options dst ∨ options.overwrite = false ∧ d.dir dst ≠ none ∨ ¬ LockFree d src := by
  by_cases hrefused : options.overwrite = false ∧ d.dir dst ≠ none ∨ ¬ LockFree d src
  · exact .inr hrefused
  rw [not_or, not_not] at hrefused
  refine .inl fun hrun => ⟨hrun.2.symm, fun hart => ?_, fun heq hnone => ?_⟩
  · by_contra hsome
    have hoverwrite : options.overwrite = true := by
      by_contra hfalse
      exact hrefused.1 ⟨by simpa using hfalse, hsome⟩
    exact h ⟨hrun.1, .inr ⟨hoverwrite, hart, hsome, hrefused.2⟩⟩
  · exact h ⟨hrun.1, .inl ⟨heq, hnone⟩⟩

theorem ended_downgrade (hs : d.Sound) {faults : Disk.Faults} {r : Except Err Unit} {t : Disk} {j : Journal}
    (hrun : Disk.execNoted (downgrade src dst options) d faults = (r, t, j)) :
    Ended (SparedName d src dst options) d (dst ++ downgradeTempSuffix) dst r (t, j) := by
  have hstart : Unpublished (SparedName d src dst options) d (dst ++ downgradeTempSuffix) dst [] (d, []) :=
    ⟨apart_refl hs, List.not_mem_nil, rfl⟩
  have hended := Disk.All.faulty (hstart.downgrade options sparedName_outside) faults
  rw [hrun] at hended
  exact hended

/-- **A downgrade is atomic on its destination**, exactly where that is not in the way of the run. Any calls may
fail. As long as the last rename has not succeeded, the destination is as it was, unless it is the lock that the run
creates or an artifact that its recovery removes. Whatever the destination, such a run reports an error; if the
clean-up removal succeeded, no temporary file remains, and if it was not reached, the temporary name is as it was. A
destination that may not be replaced is never changed. -/
theorem downgrade_atomic (hs : d.Sound) (src dst : Path) (options : DowngradeOptions) :
    (DestinationKept d src dst options ↔ ¬ Endangered d src dst options) ∧
    ∀ faults r t j, Disk.execNoted (downgrade src dst options) d faults = (r, t, j) →
      (⟨.rename (dst ++ downgradeTempSuffix) dst, true⟩ ∉ j →
        r ≠ .ok () ∧
        (∀ x, j.outcomes (.remove (dst ++ downgradeTempSuffix)) = [x, true] →
          t.dir (dst ++ downgradeTempSuffix) = none) ∧
        ((j.outcomes (.remove (dst ++ downgradeTempSuffix))).length ≤ 1 → src ≠ dst ++ downgradeTempSuffix →
          t.bytesAt (dst ++ downgradeTempSuffix) = d.bytesAt (dst ++ downgradeTempSuffix))) ∧
      (options.overwrite = false → d.dir dst ≠ none → t.bytesAt dst = d.bytesAt dst) := by
  have htmp : dst ≠ dst ++ downgradeTempSuffix := path_ne_append (by decide)
  have hrefused : ∀ {faults r t j}, Disk.execNoted (downgrade src dst options) d faults = (r, t, j) →
      options.overwrite = false ∧ d.dir dst ≠ none ∨ ¬ LockFree d src → t = d := by
    intro faults r t j hrun h
    have hsame := execNoted_refused h faults
    rw [hrun] at hsame
    exact hsame
  refine ⟨⟨fun hkept he => he.not_kept hs hkept, fun he faults r t j hrun hunrenamed => ?_⟩, ?_⟩
  · rcases spared_or_refused he with hspared | hno
    · cases ended_downgrade hs hrun with
      | early n hn hr h => exact h.apart.bytesAt hspared
      | late x y hr h hgone => exact h.apart.bytesAt ⟨hspared, htmp⟩
      | published hmem h => exact absurd hmem hunrenamed
    · rw [hrefused hrun hno]
  · intro faults r t j hrun
    refine ⟨fun hunrenamed => ?_, fun hoverwrite hdst => by rw [hrefused hrun (.inl ⟨hoverwrite, hdst⟩)]⟩
    cases ended_downgrade hs hrun with
    | early n hn hr h =>
      refine ⟨hr, fun x hx => ?_, fun _ hsrc => h.apart.bytesAt (sparedName_temp hsrc)⟩
      rw [h.removals] at hx
      rw [hx] at hn
      exact absurd hn (by simp)
    | late x y hr h hgone =>
      refine ⟨hr, fun x' hx => ?_, fun hlen => ?_⟩
      · rw [h.removals] at hx
        cases hx
        exact hgone rfl
      · rw [h.removals] at hlen
        exact absurd hlen (by simp)
    | published hmem h => exact absurd hmem hunrenamed

end

/-- A log at `db`, and a file under another name. -/
def logDiskWith (b : Bytes) (q : Path) (c : Bytes) : Disk :=
  { logDisk b with
    names := fun p => if p = q then some 1 else (logDisk b).names p
    files := fun i => if i = 1 then ⟨c, c⟩ else ⟨b, b⟩
    next := 2 }

theorem logDiskWith_dir (b : Bytes) (q : Path) (c : Bytes) (p : Path) :
    (logDiskWith b q c).dir p = if p = q then some 1 else if p = "db" then some 0 else none := rfl

theorem logDiskWith_sound (b : Bytes) (q : Path) (c : Bytes) : (logDiskWith b q c).Sound := by
  refine ⟨fun p i hp => ?_, fun p p' i hp hp' => ?_⟩
  · change i < 2
    rw [logDiskWith_dir] at hp
    split_ifs at hp <;> cases hp <;> omega
  · rw [logDiskWith_dir] at hp hp'
    split_ifs at hp hp' with h1 h2 h3 h4 h5 <;> cases hp <;> cases hp' <;> simp_all

/-- The last rename of a run fails: the file that was to be replaced is there, and the temporary file is gone. -/
theorem downgrade_atomic_renameFails :
    ∃ r t j, Disk.execNoted (downgrade "db" "old" ⟨4, true⟩)
        (logDiskWith (currentHeader ++ concat [shortRec 1 2, shortRec 1 3]) "old" [9])
        (List.replicate 29 none ++ [some 0]) = (r, t, j) ∧
      ⟨.rename "old.downgrade.tmp" "old", false⟩ ∈ j ∧ r ≠ .ok () ∧ t.bytesAt "old" = some [9] ∧
      t.dir "old.downgrade.tmp" = none := by
  obtain ⟨r, t, j, hrun⟩ : ∃ r t j, Disk.execNoted (downgrade "db" "old" ⟨4, true⟩)
      (logDiskWith (currentHeader ++ concat [shortRec 1 2, shortRec 1 3]) "old" [9])
      (List.replicate 29 none ++ [some 0]) = (r, t, j) := ⟨_, _, _, rfl⟩
  have hj : (Disk.execNoted (downgrade "db" "old" ⟨4, true⟩)
      (logDiskWith (currentHeader ++ concat [shortRec 1 2, shortRec 1 3]) "old" [9])
      (List.replicate 29 none ++ [some 0])).2.2 = j := by rw [hrun]
  have hfails : ⟨.rename "old.downgrade.tmp" "old", false⟩ ∈ j := by
    rw [← hj]
    decide +kernel
  have hunrenamed : ⟨.rename "old.downgrade.tmp" "old", true⟩ ∉ j := by
    rw [← hj]
    decide +kernel
  have hremovals : j.outcomes (.remove "old.downgrade.tmp") = [false, true] := by
    rw [← hj]
    decide +kernel
  obtain ⟨hiff, hrest⟩ := downgrade_atomic
    (logDiskWith_sound (currentHeader ++ concat [shortRec 1 2, shortRec 1 3]) "old" [9]) "db" "old" ⟨4, true⟩
  have hkept := hiff.mpr (by
    rintro ⟨-, ⟨h, -⟩ | ⟨-, h, -⟩⟩
    · exact absurd h (by decide)
    · exact absurd h (by decide))
  obtain ⟨herr, hgone, -⟩ := (hrest _ r t j hrun).1 hunrenamed
  exact ⟨r, t, j, hrun, hfails, herr, hkept _ r t j hrun hunrenamed, hgone false hremovals⟩

/-- A record with an extension entry, which no older version can hold. -/
def extendedRec : Rec logVersion :=
  appendRec (show appendLimits [1] [2] ∅ [1, 0, 0, 0, 0, 0] = .ok [0, 0, 0, 0] from rfl) false

/-- A source that cannot be downgraded. If the destination is an artifact of the source, the file that was to be
replaced is gone; if it is the lock of the source, there is a file where there was none. -/
theorem downgrade_destroys_destination :
    (⟨.rename "db.compact.tmp.downgrade.tmp" "db.compact.tmp", true⟩ ∉
        (Disk.execNoted (downgrade "db" "db.compact.tmp" ⟨4, true⟩)
          (logDiskWith (currentHeader ++ concat [extendedRec]) "db.compact.tmp" [9]) []).2.2 ∧
      (Disk.execNoted (downgrade "db" "db.compact.tmp" ⟨4, true⟩)
          (logDiskWith (currentHeader ++ concat [extendedRec]) "db.compact.tmp" [9]) []).1 ≠ .ok () ∧
      (logDiskWith (currentHeader ++ concat [extendedRec]) "db.compact.tmp" [9]).bytesAt "db.compact.tmp" = some [9] ∧
      (Disk.execNoted (downgrade "db" "db.compact.tmp" ⟨4, true⟩)
          (logDiskWith (currentHeader ++ concat [extendedRec]) "db.compact.tmp" [9]) []).2.1.bytesAt "db.compact.tmp" =
        none) ∧
    ⟨.rename "db.lock.downgrade.tmp" "db.lock", true⟩ ∉
        (Disk.execNoted (downgrade "db" "db.lock" ⟨4, false⟩)
          (logDisk (currentHeader ++ concat [extendedRec])) []).2.2 ∧
      (Disk.execNoted (downgrade "db" "db.lock" ⟨4, false⟩) (logDisk (currentHeader ++ concat [extendedRec])) []).1 ≠
        .ok () ∧
      (logDisk (currentHeader ++ concat [extendedRec])).bytesAt "db.lock" = none ∧
      (Disk.execNoted (downgrade "db" "db.lock" ⟨4, false⟩)
        (logDisk (currentHeader ++ concat [extendedRec])) []).2.1.bytesAt
        "db.lock" = some [] := by
  refine ⟨⟨?_, ?_, ?_, ?_⟩, ?_, ?_, ?_, ?_⟩
  · decide +kernel
  · decide +kernel
  · decide +kernel
  · decide +kernel
  · decide +kernel
  · decide +kernel
  · decide +kernel
  · decide +kernel

end AppendStore
