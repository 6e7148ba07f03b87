import AppendStore.Library.FaultyRuns

/-! # What a crash can leave

A crash may lose directory operations that no directory sync has made durable yet. Which ones it may
lose is a parameter, `lossy`; the others are there after it, in program order. `Disk.Leaves lossy d` are
the directories a crash of `d` can leave. So what is to hold after a crash at any instant of a program is
an invariant about all of them, and one call changes them in one way only (`leaves_answer`): a directory
that a crash after the call can leave is one that a crash before it could leave, but for the names the call
binds.

`Disk.PowerLoss` is a crash as a whole: the directory, and of each file a content that `keeps` allows. What
is there after it is on the disk for good.
-/

namespace AppendStore.Library
set_option autoImplicit false

/-! ## Lost directory operations -/

/-- Some of the lossy operations are missing, and the others are there in order. -/
inductive Persisted (lossy : DirOp → Prop) : List DirOp → List DirOp → Prop
  | nil : Persisted lossy [] []
  | kept {ops done : List DirOp} (o : DirOp) : Persisted lossy ops done → Persisted lossy (o :: ops) (o :: done)
  | lost {ops done : List DirOp} {o : DirOp} : lossy o → Persisted lossy ops done → Persisted lossy (o :: ops) done

section
variable {lossy : DirOp → Prop} {ops done : List DirOp} {o : DirOp}

theorem persisted_self (ops : List DirOp) : Persisted lossy ops ops := by
  induction ops with
  | nil => exact .nil
  | cons o ops ih => exact .kept o ih

/-- Where any operation may be lost, every part of a sequence may be left of it. -/
theorem persisted_of_sublist (hlossy : ∀ o, lossy o) (h : done.Sublist ops) : Persisted lossy ops done := by
  induction h with
  | slnil => exact .nil
  | cons o _ ih => exact .lost (hlossy o) ih
  | cons_cons o _ ih => exact .kept o ih

/-- A crash may lose the operations that `gone` selects. -/
theorem persisted_filter {gone : DirOp → Bool} (h : ∀ o ∈ ops, gone o = true → lossy o) :
    Persisted lossy ops (ops.filter fun o => !gone o) := by
  induction ops with
  | nil => exact .nil
  | cons o ops ih =>
    have hrest := ih fun p hp => h p (List.mem_cons_of_mem o hp)
    cases ho : gone o with
    | false =>
      rw [List.filter_cons_of_pos (by simp [ho])]
      exact .kept o hrest
    | true =>
      rw [List.filter_cons_of_neg (by simp [ho])]
      exact .lost (h o List.mem_cons_self ho) hrest

/-- What is left of a sequence and one more operation. -/
theorem Persisted.of_concat (h : Persisted lossy (ops ++ [o]) done) :
    ∃ front, Persisted lossy ops front ∧ (done = front ++ [o] ∨ lossy o ∧ done = front) := by
  induction ops generalizing done with
  | nil =>
    cases h with
    | kept _ h =>
      cases h
      exact ⟨[], .nil, .inl rfl⟩
    | lost ho h =>
      cases h
      exact ⟨[], .nil, .inr ⟨ho, rfl⟩⟩
  | cons p ops ih =>
    cases h with
    | kept _ h =>
      obtain ⟨front, hfront, hdone⟩ := ih h
      refine ⟨p :: front, .kept p hfront, ?_⟩
      rcases hdone with rfl | ⟨ho, rfl⟩
      · exact .inl rfl
      · exact .inr ⟨ho, rfl⟩
    | lost hp h =>
      obtain ⟨front, hfront, hdone⟩ := ih h
      exact ⟨front, .lost hp hfront, hdone⟩

end

namespace Disk

/-! ## The directories a crash can leave -/

/-- A directory that a crash can leave. -/
def Leaves (lossy : DirOp → Prop) (d : Disk) (n : Names) : Prop :=
  ∃ done, Persisted lossy d.pending done ∧ n = applyOps done d.names

section
variable {lossy : DirOp → Prop} {d d' : Disk} {n : Names} {o : DirOp}

theorem leaves_dir (d : Disk) : d.Leaves lossy d.dir := ⟨d.pending, persisted_self _, rfl⟩

theorem Leaves.of_same (h : d'.Leaves lossy n) (hnames : d'.names = d.names) (hpending : d'.pending = d.pending) :
    d.Leaves lossy n := by
  obtain ⟨done, hdone, hn⟩ := h
  exact ⟨done, hpending ▸ hdone, by rw [hn, hnames]⟩

theorem leaves_settled (hpending : d.pending = []) (h : d.Leaves lossy n) : n = d.dir := by
  obtain ⟨done, hdone, rfl⟩ := h
  rw [hpending] at hdone
  cases hdone
  rw [dir, hpending]

theorem leaves_syncNames (h : d.syncNames.Leaves lossy n) : n = d.dir := leaves_settled (d := d.syncNames) rfl h

/-- One more operation. -/
theorem leaves_enqueue (h : (d.enqueue o).Leaves lossy n) :
    ∃ m, d.Leaves lossy m ∧ (n = o.apply m ∨ lossy o ∧ n = m) := by
  obtain ⟨done, hdone, rfl⟩ := h
  obtain ⟨front, hfront, hcase⟩ := Persisted.of_concat hdone
  refine ⟨applyOps front d.names, ⟨front, hfront, rfl⟩, ?_⟩
  rcases hcase with rfl | ⟨ho, rfl⟩
  · left
    change applyOps (front ++ [o]) d.names = _
    rw [applyOps_append]
    rfl
  · exact .inr ⟨ho, rfl⟩

theorem leaves_create {p : Path} (h : (d.create p).Leaves lossy n) :
    ∃ m, d.Leaves lossy m ∧ (n = Function.update m p (some d.next) ∨ lossy (.link p d.next) ∧ n = m) :=
  leaves_enqueue (d := d) (o := .link p d.next) (h.of_same rfl rfl)

end

end Disk

/-- A call that may bind a name or take its binding away. -/
def FileOp.Binds (q : Path) : FileOp → Prop
  | .openFile p create _ => create = true ∧ p = q
  | .rename a b => a = q ∨ b = q
  | .remove p => p = q
  | _ => False

theorem not_binds_of_on {q : Path} {o : FileOp} {i : ℕ} (ho : o.On i) : ¬ o.Binds q := by
  cases o with
  | openFile p create trunc => exact ho.elim
  | rename a b => exact ho.elim
  | remove p => exact ho.elim
  | _ => exact id

namespace Disk

section
variable {lossy : DirOp → Prop} {d : Disk} {n : Names}

theorem apply_rename_of_ne {a b q : Path} (ha : a ≠ q) (hb : b ≠ q) (n : Names) :
    (DirOp.rename a b).apply n q = n q := by
  rw [DirOp.apply]
  cases n a with
  | none => rfl
  | some i =>
    dsimp only
    rw [Function.update_of_ne hb.symm, Function.update_of_ne ha.symm]

theorem leaves_onOpen {α : Type} {f : OsFile} {k : Except OsError α × Disk} (hnames : k.2.names = d.names)
    (hpending : k.2.pending = d.pending) (h : (onOpen f d k).2.Leaves lossy n) : d.Leaves lossy n := by
  unfold onOpen at h
  split at h
  · exact h.of_same hnames hpending
  · exact h

/-- **One call.** -/
theorem leaves_answer {o : FileOp} (h : (answer o d).2.Leaves lossy n) :
    ∃ m, d.Leaves lossy m ∧ ∀ q, ¬ o.Binds q → n q = m q := by
  have hsame : d.Leaves lossy n → ∃ m, d.Leaves lossy m ∧ ∀ q, ¬ o.Binds q → n q = m q :=
    fun h => ⟨n, h, fun _ _ => rfl⟩
  cases o with
  | stat p => exact hsame h
  | openFile p create trunc =>
    simp only [answer] at h
    split at h
    · split at h
      · exact hsame (h.of_same rfl rfl)
      · exact hsame h
    · split at h
      · rename_i hcreate
        obtain ⟨m, hm, hcase⟩ := leaves_create h
        refine ⟨m, hm, fun q hq => ?_⟩
        rcases hcase with rfl | ⟨-, rfl⟩
        · exact Function.update_of_ne (fun heq => hq ⟨hcreate, heq.symm⟩) _ _
        · rfl
      · exact hsame h
  | fstat f => exact hsame (leaves_onOpen rfl rfl h)
  | readAt f off n => exact hsame (leaves_onOpen rfl rfl h)
  | seek f off => exact hsame (leaves_onOpen rfl rfl h)
  | readFrom f off => exact hsame (leaves_onOpen rfl rfl h)
  | writeAt f off b => exact hsame (leaves_onOpen rfl rfl h)
  | truncate f n => exact hsame (leaves_onOpen rfl rfl h)
  | fsync f => exact hsame (leaves_onOpen rfl rfl h)
  | close f => exact hsame (leaves_onOpen rfl rfl h)
  | rename a b =>
    simp only [answer] at h
    split at h
    · obtain ⟨m, hm, hcase⟩ := leaves_enqueue h
      refine ⟨m, hm, fun q hq => ?_⟩
      rcases hcase with rfl | ⟨-, rfl⟩
      · exact apply_rename_of_ne (fun heq => hq (.inl heq)) (fun heq => hq (.inr heq)) m
      · rfl
    · exact hsame h
  | remove p =>
    simp only [answer] at h
    split at h
    · obtain ⟨m, hm, hcase⟩ := leaves_enqueue h
      refine ⟨m, hm, fun q hq => ?_⟩
      rcases hcase with rfl | ⟨-, rfl⟩
      · exact Function.update_of_ne (fun heq => hq heq.symm) _ _
      · rfl
    · exact hsame h
  | syncDir p => exact ⟨d.dir, leaves_dir d, fun q _ => congrFun (leaves_syncNames h) q⟩
  | mmap f n => exact hsame (leaves_onOpen rfl rfl h)
  | mapped f lo hi => exact hsame h
  | flock f =>
    refine hsame (leaves_onOpen ?_ ?_ h)
    · split <;> rfl
    · split <;> rfl
  | funlock f => exact hsame (leaves_onOpen rfl rfl h)

/-- A whole program, at any instant. -/
theorem leaves_visits {α : Type} {p : FileProg α} {S : Path → Prop} {Q : α → Prop}
    (hp : p.Each (fun o => ∀ q, S q → ¬ o.Binds q) Q) {t : Disk} (hv : Prog.Visits answer p d t)
    (h : t.Leaves lossy n) : ∃ m, d.Leaves lossy m ∧ ∀ q, S q → n q = m q := by
  induction hv with
  | here => exact ⟨n, h, fun _ _ => rfl⟩
  | next o k s t _ ih =>
    cases hp with
    | op ho hk =>
      obtain ⟨m, hm, heq⟩ := ih (hk _) h
      obtain ⟨m', hm', heq'⟩ := leaves_answer hm
      exact ⟨m', hm', fun q hq => (heq q hq).trans (heq' q (ho q hq))⟩

/-- A program that only observes changes nothing at any instant. -/
theorem visits_observes {α : Type} {p : FileProg α} {Q : α → Prop} {t : Disk} (hp : p.Each FileOp.Observes Q)
    (hv : Prog.Visits answer p d t) : t = d := by
  refine hp.visits (I := fun u : Disk => u = d) ?_ rfl hv
  rintro o u ho rfl
  exact Yields.same (K := ∅) (.inl rfl) ho

end

end Disk

/-! ## Files that are left alone -/

/-- A call that may change what is in the file `i`. -/
def FileOp.Rewrites (i : ℕ) : FileOp → Prop
  | .openFile _ _ trunc => trunc = true
  | .writeAt f _ _ => f.inode = i
  | .truncate f _ => f.inode = i
  | .fsync f => f.inode = i
  | _ => False

theorem not_rewrites_of_on {o : FileOp} {i j : ℕ} (ho : o.On j) (hij : i ≠ j) : ¬ o.Rewrites i := by
  cases o with
  | openFile p create trunc => exact ho.elim
  | writeAt f off b => exact fun heq => hij (heq.symm.trans ho)
  | truncate f n => exact fun heq => hij (heq.symm.trans ho)
  | fsync f => exact fun heq => hij (heq.symm.trans ho)
  | _ => exact id

theorem not_rewrites_of_reading {o : FileOp} {i : ℕ} (ho : o.Reading) : ¬ o.Rewrites i := by
  cases o with
  | readAt f off n => exact id
  | mapped f lo hi => exact id
  | _ => exact ho.elim

namespace Disk

/-- The files that were there, of which one is to stay as it is. -/
structure Untouched (i : ℕ) (d t : Disk) : Prop where
  next : d.next ≤ t.next
  file : t.files i = d.files i

section
variable {lossy : DirOp → Prop} {d t : Disk} {i : ℕ}

theorem untouched_refl (i : ℕ) (d : Disk) : Untouched i d d := ⟨le_rfl, rfl⟩

theorem Untouched.trans {u : Disk} (h : Untouched i d t) (h' : Untouched i t u) : Untouched i d u :=
  ⟨h.next.trans h'.next, h'.file.trans h.file⟩

theorem untouched_onOpen {α : Type} {f : OsFile} {k : Except OsError α × Disk} (h : Untouched i d k.2) :
    Untouched i d (onOpen f d k).2 := by
  unfold onOpen
  split
  · exact h
  · exact untouched_refl i d

theorem untouched_create (hi : i < d.next) (p : Path) : Untouched i d (d.create p) :=
  ⟨Nat.le_succ _, files_create_ne _ _ _ (Nat.ne_of_lt hi)⟩

theorem untouched_of_touched {j : ℕ} (h : Touched d t j) (hij : i ≠ j) : Untouched i d t :=
  ⟨Nat.le_of_eq h.next.symm, h.others i hij⟩

theorem untouched_answer {o : FileOp} (ho : ¬ o.Rewrites i) (hi : i < d.next) : Untouched i d (answer o d).2 := by
  have hself := untouched_refl i d
  cases o with
  | openFile p create trunc =>
    have htrunc : trunc = false := Bool.not_eq_true _ ▸ ho
    subst htrunc
    simp only [answer]
    split
    · exact hself
    · split
      · exact untouched_create hi p
      · exact hself
  | writeAt f off b =>
    exact untouched_onOpen (untouched_of_touched (touched_setContent d _ _) fun heq => ho heq.symm)
  | truncate f n =>
    have htouched := (touched_cut d f.inode n).trans (touched_setContent _ f.inode
      ((d.files f.inode).content.take n ++ List.replicate (n - (d.files f.inode).content.length) 0))
    exact untouched_onOpen (untouched_of_touched htouched fun heq => ho heq.symm)
  | fsync f => exact untouched_onOpen (untouched_of_touched (touched_syncFile d _) fun heq => ho heq.symm)
  | rename a b =>
    simp only [answer]
    split
    · exact ⟨le_rfl, rfl⟩
    · exact hself
  | remove p =>
    simp only [answer]
    split
    · exact ⟨le_rfl, rfl⟩
    · exact hself
  | flock f =>
    refine untouched_onOpen ?_
    split
    · exact hself
    · exact ⟨le_rfl, rfl⟩
  | funlock f => exact untouched_onOpen ⟨le_rfl, rfl⟩
  | stat p => exact hself
  | syncDir p => exact ⟨le_rfl, rfl⟩
  | mapped f lo hi => exact hself
  | fstat f => exact untouched_onOpen hself
  | readAt f off n => exact untouched_onOpen hself
  | seek f off => exact untouched_onOpen hself
  | readFrom f off => exact untouched_onOpen hself
  | close f => exact untouched_onOpen hself
  | mmap f n => exact untouched_onOpen hself

theorem untouched_visits {α : Type} {p : FileProg α} {Q : α → Prop} (hp : p.Each (fun o => ¬ o.Rewrites i) Q)
    (hi : i < d.next) (hv : Prog.Visits answer p d t) : Untouched i d t :=
  hp.visits (fun _ _ ho hu => hu.trans (untouched_answer ho (Nat.lt_of_lt_of_le hi hu.next))) (untouched_refl i d) hv

end

/-! ## No crash makes a hard link -/

section
variable {lossy : DirOp → Prop} {d : Disk} {n : Names}

/-- The disk with a directory of its own, as a crash leaves it. -/
def withNames (d : Disk) (n : Names) : Disk := { d with names := n, pending := [] }

/-- Whatever directory a crash leaves, every name in it is bound to an inode of its own. -/
def CrashSound (lossy : DirOp → Prop) (d : Disk) : Prop := ∀ n, d.Leaves lossy n → (d.withNames n).Sound

theorem CrashSound.sound (h : d.CrashSound lossy) : d.Sound := (h d.dir (leaves_dir d)).of_dir rfl rfl

theorem Sound.crashSound (h : d.Sound) (hpending : d.pending = []) : d.CrashSound lossy := by
  intro n hn
  refine h.of_dir ?_ rfl
  rw [leaves_settled hpending hn]
  rfl

theorem CrashSound.of_same {d' : Disk} (h : d.CrashSound lossy) (hnames : d'.names = d.names)
    (hpending : d'.pending = d.pending) (hnext : d'.next = d.next) : d'.CrashSound lossy :=
  fun n hn => (h n (hn.of_same hnames hpending)).of_dir rfl hnext

theorem CrashSound.create (h : d.CrashSound lossy) (p : Path) : (d.create p).CrashSound lossy := by
  intro n hn
  obtain ⟨m, hm, hcase⟩ := leaves_create hn
  have hs := h m hm
  rcases hcase with rfl | ⟨-, rfl⟩
  · refine (hs.create p).of_dir ?_ rfl
    rw [dir_create]
    rfl
  · exact ⟨fun q i hq => Nat.lt_succ_of_lt (hs.bounded q i hq), hs.distinct⟩

theorem CrashSound.onOpen {α : Type} {f : OsFile} {k : Except OsError α × Disk} (h : d.CrashSound lossy)
    (hk : k.2.CrashSound lossy) : (onOpen f d k).2.CrashSound lossy := by
  unfold Disk.onOpen
  split
  · exact hk
  · exact h

theorem CrashSound.answer (h : d.CrashSound lossy) (o : FileOp) : (answer o d).2.CrashSound lossy := by
  cases o with
  | stat p => exact h
  | openFile p create trunc =>
    simp only [Disk.answer]
    split
    · split
      · exact h.of_same rfl rfl rfl
      · exact h
    · split
      · exact h.create p
      · exact h
  | fstat f => exact h.onOpen h
  | readAt f off n => exact h.onOpen h
  | seek f off => exact h.onOpen h
  | readFrom f off => exact h.onOpen h
  | writeAt f off b => exact h.onOpen (h.of_same rfl rfl rfl)
  | truncate f n => exact h.onOpen (h.of_same rfl rfl rfl)
  | fsync f => exact h.onOpen (h.of_same rfl rfl rfl)
  | close f => exact h.onOpen h
  | rename a b =>
    simp only [Disk.answer]
    split
    · intro n hn
      obtain ⟨m, hm, hcase⟩ := leaves_enqueue hn
      rcases hcase with rfl | ⟨-, rfl⟩
      · refine ((h m hm).rename a b).of_dir ?_ rfl
        rw [dir_enqueue]
        rfl
      · exact (h n hm).of_dir rfl rfl
    · exact h
  | remove p =>
    simp only [Disk.answer]
    split
    · intro n hn
      obtain ⟨m, hm, hcase⟩ := leaves_enqueue hn
      rcases hcase with rfl | ⟨-, rfl⟩
      · refine ((h m hm).remove p).of_dir ?_ rfl
        rw [dir_enqueue]
        rfl
      · exact (h n hm).of_dir rfl rfl
    · exact h
  | syncDir p =>
    intro n hn
    rw [leaves_syncNames hn]
    exact (h d.dir (leaves_dir d)).of_dir rfl rfl
  | mmap f n => exact h.onOpen h
  | mapped f lo hi => exact h
  | flock f =>
    refine h.onOpen ?_
    split
    · exact h
    · exact h.of_same rfl rfl rfl
  | funlock f => exact h.onOpen (h.of_same rfl rfl rfl)

theorem CrashSound.visits {α : Type} {p : FileProg α} {t : Disk} (h : d.CrashSound lossy)
    (hv : Prog.Visits Disk.answer p d t) : t.CrashSound lossy := by
  induction hv with
  | here => exact h
  | next o k s t _ ih => exact ih (h.answer o)

/-! ## A crash as a whole -/

/-- What the disk can be after a crash. A lock does not outlive its process, and what the crash leaves is on
the disk for good. -/
structure PowerLoss (lossy : DirOp → Prop) (keeps : ℕ → File → Bytes → Prop) (d d' : Disk) : Prop where
  names : d.Leaves lossy d'.names
  pending : d'.pending = []
  content : ∀ i, keeps i (d.files i) (d'.files i).content
  settled : ∀ i, (d'.files i).synced = (d'.files i).content
  next : d'.next = d.next
  locked : d'.locked = fun _ => false
  mappable : d'.mappable = d.mappable

theorem PowerLoss.dir {keeps : ℕ → File → Bytes → Prop} {d' : Disk} (h : PowerLoss lossy keeps d d') :
    d'.dir = d'.names := by
  rw [Disk.dir, h.pending, applyOps_nil]

/-- The disk after a crash that lost nothing. -/
def restarted (d : Disk) : Disk :=
  { d with
    names := d.dir
    pending := []
    files := fun i => ⟨(d.files i).content, (d.files i).content⟩
    locked := fun _ => false }

theorem powerLoss_restarted {keeps : ℕ → File → Bytes → Prop} (hkeeps : ∀ i, keeps i (d.files i) (d.files i).content) :
    PowerLoss lossy keeps d d.restarted :=
  ⟨leaves_dir d, rfl, hkeeps, fun _ => rfl, rfl, rfl, rfl⟩

/-- The disk after a crash that lost the directory operations `gone` selects, and all that was not synced of the
files. -/
def crashed (gone : DirOp → Bool) (d : Disk) : Disk :=
  { d with
    names := applyOps (d.pending.filter fun o => !gone o) d.names
    pending := []
    files := fun i => ⟨(d.files i).synced, (d.files i).synced⟩
    locked := fun _ => false }

theorem powerLoss_crashed {keeps : ℕ → File → Bytes → Prop} {gone : DirOp → Bool}
    (hgone : ∀ o ∈ d.pending, gone o = true → lossy o) (hkeeps : ∀ i, keeps i (d.files i) (d.files i).synced) :
    PowerLoss lossy keeps d (d.crashed gone) :=
  ⟨⟨_, persisted_filter hgone, rfl⟩, rfl, hkeeps, fun _ => rfl, rfl, rfl, rfl⟩

theorem CrashSound.powerLoss {keeps : ℕ → File → Bytes → Prop} {d' : Disk} (h : d.CrashSound lossy)
    (hloss : PowerLoss lossy keeps d d') : d'.CrashSound lossy :=
  Sound.crashSound ((h _ hloss.names).of_dir hloss.dir hloss.next) hloss.pending

end

end Disk

end AppendStore.Library
