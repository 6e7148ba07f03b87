import AppendStore.Store.CompactionFaults

/-! # Installing a compacted log, when calls may fail

The second half of `Compact` is a protocol on three names: the log, the prepared log and the backup.
`Installing` says which file each name is bound to, what became of the calls that decide about the data
(`Attempts`), and how many calls failed so far. It has one lemma for each call of the protocol, and
`all_installCompacted` follows the branches of the code with them.
-/

namespace AppendStore
open Library
set_option autoImplicit false

/-! ## The three names -/

inductive Slot
  | main
  | ready
  | backup
  deriving DecidableEq

def Slot.path (path : Path) : Slot → Path
  | main => path
  | ready => path ++ compactionReadySuffix
  | backup => path ++ compactionBackupSuffix

theorem Slot.path_ne (path : Path) {x y : Slot} (h : x ≠ y) : x.path path ≠ y.path path := by
  have n1 : path ≠ path ++ compactionReadySuffix := path_ne_append (by decide)
  have n2 : path ≠ path ++ compactionBackupSuffix := path_ne_append (by decide)
  have n3 : path ++ compactionReadySuffix ≠ path ++ compactionBackupSuffix := append_ne_append path (by decide)
  cases x <;> cases y
  · exact absurd rfl h
  · exact n1
  · exact n2
  · exact n1.symm
  · exact absurd rfl h
  · exact n3
  · exact n2.symm
  · exact n3.symm
  · exact absurd rfl h

/-- What the names are bound to. -/
structure Slots where
  main : Option ℕ
  ready : Option ℕ
  backup : Option ℕ

def Slots.get (b : Slots) : Slot → Option ℕ
  | .main => b.main
  | .ready => b.ready
  | .backup => b.backup

def Slots.set (b : Slots) (x : Slot) (i : Option ℕ) : Slots :=
  match x with
  | .main => { b with main := i }
  | .ready => { b with ready := i }
  | .backup => { b with backup := i }

theorem Slots.get_set (b : Slots) (x y : Slot) (i : Option ℕ) : (b.set x i).get y = if y = x then i else b.get y := by
  cases x <;> cases y <;> rfl

/-! ## The calls that decide about the data -/

/-- The outcomes of opening the log, of renaming the prepared log to it, of renaming the backup to it, and of
removing it. -/
structure Attempts where
  opens : List Bool
  installs : List Bool
  restores : List Bool
  removals : List Bool
  deriving DecidableEq, Repr

def attempts (path : Path) (j : Journal) : Attempts where
  opens := j.outcomes (.openFile path true false)
  installs := j.outcomes (.rename (path ++ compactionReadySuffix) path)
  restores := j.outcomes (.rename (path ++ compactionBackupSuffix) path)
  removals := j.outcomes (.remove path)

/-- The backup could not be brought back where the log was gone, and opening the log then created a new one. -/
def Attempts.Loses (a : Attempts) : Prop :=
  a.restores = [false] ∧ a.opens.getLast? = some true ∧ (a.installs = [false] ∨ a.removals = [true])

instance (a : Attempts) : Decidable a.Loses := inferInstanceAs (Decidable (_ ∧ _ ∧ _))

/-- The outcomes with one more call. -/
def Attempts.note (path : Path) (a : Attempts) (o : FileOp) (ok : Bool) : Attempts where
  opens := if o = .openFile path true false then a.opens ++ [ok] else a.opens
  installs := if o = .rename (path ++ compactionReadySuffix) path then a.installs ++ [ok] else a.installs
  restores := if o = .rename (path ++ compactionBackupSuffix) path then a.restores ++ [ok] else a.restores
  removals := if o = .remove path then a.removals ++ [ok] else a.removals

theorem attempts_concat (path : Path) (j : Journal) (o : FileOp) (ok : Bool) :
    attempts path (j ++ [⟨o, ok⟩]) = (attempts path j).note path o ok := by
  have hone : ∀ o', Journal.outcomes o' (j ++ [⟨o, ok⟩]) =
      if o = o' then Journal.outcomes o' j ++ [ok] else Journal.outcomes o' j := by
    intro o'
    by_cases h : o = o'
    · rw [if_pos h, h, Journal.outcomes_concat_self]
    · rw [if_neg h, Journal.outcomes_concat_ne h]
  simp only [attempts, Attempts.note, hone]

section
variable (path : Path) (a : Attempts) (ok : Bool)

@[simp] theorem note_open : a.note path (.openFile path true false) ok = { a with opens := a.opens ++ [ok] } := by
  simp [Attempts.note]

@[simp] theorem note_remove : a.note path (.remove path) ok = { a with removals := a.removals ++ [ok] } := by
  simp [Attempts.note]

theorem ready_ne_backup : path ++ compactionReadySuffix ≠ path ++ compactionBackupSuffix :=
  append_ne_append path (by decide)

@[simp] theorem note_install : a.note path (.rename (path ++ compactionReadySuffix) path) ok =
    { a with installs := a.installs ++ [ok] } := by
  simp [Attempts.note, ready_ne_backup path]

@[simp] theorem note_restore : a.note path (.rename (path ++ compactionBackupSuffix) path) ok =
    { a with restores := a.restores ++ [ok] } := by
  simp [Attempts.note, (ready_ne_backup path).symm]

end

/-- Another call. -/
def Beside (path : Path) (o : FileOp) : Prop :=
  o ≠ .openFile path true false ∧ o ≠ .rename (path ++ compactionReadySuffix) path ∧
    o ≠ .rename (path ++ compactionBackupSuffix) path ∧ o ≠ .remove path

theorem note_beside {path : Path} {o : FileOp} (ho : Beside path o) (a : Attempts) (ok : Bool) :
    a.note path o ok = a := by
  obtain ⟨h1, h2, h3, h4⟩ := ho
  rw [Attempts.note, if_neg h1, if_neg h2, if_neg h3, if_neg h4]

theorem beside_of_on {path : Path} {o : FileOp} {i : ℕ} (ho : o.On i) : Beside path o := by
  refine ⟨?_, ?_, ?_, ?_⟩ <;> rintro rfl <;> exact ho

theorem beside_syncDir (path q : Path) : Beside path (.syncDir q) := by
  refine ⟨?_, ?_, ?_, ?_⟩ <;> rintro ⟨⟩

theorem beside_stat (path q : Path) : Beside path (.stat q) := by
  refine ⟨?_, ?_, ?_, ?_⟩ <;> rintro ⟨⟩

theorem beside_remove {path q : Path} (hq : q ≠ path) : Beside path (.remove q) := by
  refine ⟨by rintro ⟨⟩, by rintro ⟨⟩, by rintro ⟨⟩, fun heq => hq (FileOp.remove.inj heq)⟩

theorem beside_rename {path a b : Path} (hb : b ≠ path) : Beside path (.rename a b) := by
  refine ⟨by rintro ⟨⟩, fun heq => hb (FileOp.rename.inj heq).2, fun heq => hb (FileOp.rename.inj heq).2, by rintro ⟨⟩⟩

/-! ## The state of the protocol -/

/-- The three names are bound as `b` says. Nothing else changed since `base`, but for new files. -/
structure Arranged (base : Disk) (path : Path) (b : Slots) (d : Disk) : Prop where
  slots : ∀ x : Slot, d.dir (x.path path) = b.get x
  names : ∀ q, (∀ x : Slot, q ≠ x.path path) → d.dir q = base.dir q
  files : ∀ j, j < base.next → d.files j = base.files j
  next : base.next ≤ d.next
  sound : d.Sound

/-- The same in a run, with what became of the calls so far and how many were made to fail. -/
structure Installing (base : Disk) (path : Path) (b : Slots) (a : Attempts) (c : ℕ) (t : Disk.Run) : Prop where
  disk : Arranged base path b t.disk
  noted : attempts path t.journal = a
  faults : c ≤ t.faults

section
variable {K : Set ℕ} {base d d' : Disk} {path : Path} {b : Slots} {a : Attempts} {c : ℕ} {t : Disk.Run}

theorem Arranged.of_dir (h : Arranged base path b d) (hdir : d'.dir = d.dir) (hnext : d'.next = d.next)
    (hfiles : ∀ j, j < base.next → d'.files j = d.files j) : Arranged base path b d' :=
  ⟨fun x => by rw [hdir, h.slots], fun q hq => by rw [hdir, h.names q hq],
    fun j hj => by rw [hfiles j hj, h.files j hj], by rw [hnext]; exact h.next, h.sound.of_dir hdir hnext⟩

theorem Arranged.rename (h : Arranged base path b d) {x y : Slot} {i : ℕ} (hx : b.get x = some i) :
    Arranged base path ((b.set x none).set y (some i)) (d.enqueue (.rename (x.path path) (y.path path))) := by
  have hdir := Disk.dir_rename ((h.slots x).trans hx) (y.path path)
  refine ⟨fun z => ?_, fun q hq => ?_, h.files, h.next, h.sound.rename _ _⟩
  · rw [hdir, Slots.get_set, Slots.get_set]
    by_cases hzy : z = y
    · rw [if_pos hzy, hzy, Function.update_self]
    · rw [if_neg hzy, Function.update_of_ne (Slot.path_ne path hzy)]
      by_cases hzx : z = x
      · rw [if_pos hzx, hzx, Function.update_self]
      · rw [if_neg hzx, Function.update_of_ne (Slot.path_ne path hzx), h.slots]
  · rw [hdir, Function.update_of_ne (hq y), Function.update_of_ne (hq x), h.names q hq]

theorem Arranged.remove (h : Arranged base path b d) (x : Slot) :
    Arranged base path (b.set x none) (d.enqueue (.remove (x.path path))) := by
  refine ⟨fun z => ?_, fun q hq => ?_, h.files, h.next, h.sound.remove _⟩
  · rw [Disk.dir_enqueue, DirOp.apply, Slots.get_set]
    by_cases hzx : z = x
    · rw [if_pos hzx, hzx, Function.update_self]
    · rw [if_neg hzx, Function.update_of_ne (Slot.path_ne path hzx), h.slots]
  · rw [Disk.dir_enqueue, DirOp.apply, Function.update_of_ne (hq x), h.names q hq]

theorem Arranged.create (h : Arranged base path b d) :
    Arranged base path { b with main := some d.next } (d.create path) := by
  have hnext := h.next
  refine ⟨fun x => ?_, fun q hq => ?_, fun j hj => ?_, ?_, h.sound.create path⟩
  · rw [Disk.dir_create]
    cases x with
    | main => exact Function.update_self _ _ _
    | ready =>
      have hne : Slot.ready.path path ≠ path := Slot.path_ne path (x := .ready) (y := .main) (by decide)
      rw [Function.update_of_ne hne, h.slots]
      rfl
    | backup =>
      have hne : Slot.backup.path path ≠ path := Slot.path_ne path (x := .backup) (y := .main) (by decide)
      rw [Function.update_of_ne hne, h.slots]
      rfl
  · have hne : q ≠ path := hq .main
    rw [Disk.dir_create, Function.update_of_ne hne, h.names q hq]
  · rw [Disk.files_create_ne _ _ _ (by omega), h.files j hj]
  · rw [Disk.next_create]
    omega

/-- One call of the protocol. -/
theorem Installing.call (h : Installing base path b a c t) {o : FileOp} {r : o.Res} {t' : Disk.Run}
    (hr : Disk.Counted K o t r t') : attempts path t'.journal = a.note path o (o.succeeded r) ∧
      ((r, t'.disk) = Disk.answer o t.disk ∧ c ≤ t'.faults ∨
        (∃ k ∈ K, (r, t'.disk) = Disk.fault k o t.disk) ∧ c + 1 ≤ t'.faults) := by
  refine ⟨by rw [hr.2, attempts_concat, h.noted], ?_⟩
  have hle := h.faults
  rcases hr.1 with ⟨hok, hsame⟩ | ⟨hfail, hmore⟩
  · exact .inl ⟨hok, by omega⟩
  · exact .inr ⟨hfail, by omega⟩

theorem Installing.rename (h : Installing base path b a c t) {x y : Slot} {i : ℕ}
    (hx : b.get x = some i) : (Sys.rename (x.path path) (y.path path)).All (Disk.Counted K) t fun r t' =>
      (r = .ok () ∧ Installing base path ((b.set x none).set y (some i))
        (a.note path (.rename (x.path path) (y.path path)) true) c t') ∨
      (r = .error .io ∧
        Installing base path b (a.note path (.rename (x.path path) (y.path path)) false) (c + 1) t') := by
  refine Prog.all_perform fun r t' hr => ?_
  obtain ⟨hnote, ⟨hok, hc⟩ | ⟨⟨k, -, hfail⟩, hc⟩⟩ := h.call hr
  · simp only [Disk.answer, (h.disk.slots x).trans hx, Option.isSome_some, if_true] at hok
    obtain ⟨rfl, hdisk⟩ := Prod.mk.inj hok
    exact .inl ⟨rfl, hdisk ▸ h.disk.rename hx, hnote, hc⟩
  · obtain ⟨rfl, hdisk⟩ := Prod.mk.inj hfail
    exact .inr ⟨rfl, hdisk ▸ h.disk, hnote, hc⟩

theorem Installing.remove (h : Installing base path b a c t) {x : Slot} {i : ℕ} (hx : b.get x = some i) :
    (Sys.remove (x.path path)).All (Disk.Counted K) t fun r t' =>
      (r = .ok () ∧ Installing base path (b.set x none) (a.note path (.remove (x.path path)) true) c t') ∨
      (r = .error .io ∧ Installing base path b (a.note path (.remove (x.path path)) false) (c + 1) t') := by
  refine Prog.all_perform fun r t' hr => ?_
  obtain ⟨hnote, ⟨hok, hc⟩ | ⟨⟨k, -, hfail⟩, hc⟩⟩ := h.call hr
  · simp only [Disk.answer, (h.disk.slots x).trans hx, Option.isSome_some, if_true] at hok
    obtain ⟨rfl, hdisk⟩ := Prod.mk.inj hok
    exact .inl ⟨rfl, hdisk ▸ h.disk.remove x, hnote, hc⟩
  · obtain ⟨rfl, hdisk⟩ := Prod.mk.inj hfail
    exact .inr ⟨rfl, hdisk ▸ h.disk, hnote, hc⟩

/-! ## Calls that bind no name -/

/-- A program whose calls are not among those that decide. -/
theorem Installing.beside {α : Type} {p : FileProg α} {R : α → Prop} (h : Installing base path b a c t)
    (hp : p.Each (Beside path) R) {Q : α → Disk → Prop} (hQ : p.All (Disk.Yields K) t.disk Q)
    {P : α → Prop} (hP : P (Disk.exec p t.disk).1) : p.All (Disk.Counted K) t fun r t' =>
      Q r t'.disk ∧ attempts path t'.journal = a ∧ (P r ∧ c ≤ t'.faults ∨ c + 1 ≤ t'.faults) := by
  have hnoted : p.All (Disk.Counted K) t fun r t' => attempts path t'.journal = a ∧ R r := by
    refine hp.all (I := fun u : Disk.Run => attempts path u.journal = a) ?_ h.noted
    intro o u r u' ho hu hr
    rw [hr.2, attempts_concat, hu, note_beside ho]
  refine ((Disk.all_counted hQ).and (hnoted.and (Disk.all_failed hP))).mono ?_
  rintro r t' ⟨hq, ⟨hj, -⟩, hle, hor⟩
  have hc := h.faults
  refine ⟨hq, hj, ?_⟩
  rcases hor with hr | hmore
  · exact .inl ⟨hr, by omega⟩
  · exact .inr (by omega)

theorem Installing.close (h : Installing base path b a c t) {l : AppendLog} (hopen : l.file.isOpen = true) :
    l.close.All (Disk.Counted K) t fun r t' =>
      r.2 = { l with mapped := none, file := { l.file with isOpen := false } } ∧
        (r.1 = .ok () ∧ Installing base path b a c t' ∨
          (∃ e, r.1 = .error e) ∧ Installing base path b a (c + 1) t') := by
  have hcalls : l.close.Each (Beside path) fun _ => True :=
    (calls_close (P := Beside path) fun o ho => beside_of_on ho).mono fun _ _ => trivial
  refine (h.beside hcalls (Disk.all_observes (observes_close l)) (P := fun r => r.1 = .ok ())
    (by rw [exec_closeLog hopen])).mono ?_
  rintro ⟨r, l'⟩ t' ⟨⟨hd, hl⟩, hj, hor⟩
  have hstate : ∀ n, n ≤ t'.faults → Installing base path b a n t' := fun n hn => ⟨hd ▸ h.disk, hj, hn⟩
  refine ⟨hl, ?_⟩
  cases r with
  | ok u =>
    refine .inl ⟨rfl, hstate c ?_⟩
    rcases hor with ⟨-, hc⟩ | hc <;> omega
  | error e =>
    refine .inr ⟨⟨e, rfl⟩, hstate (c + 1) ?_⟩
    rcases hor with ⟨hr, -⟩ | hc
    · cases hr
    · exact hc

theorem Installing.removeIfExists (h : Installing base path b a c t) {i : ℕ} (hx : b.backup = some i) :
    (removeIfExists (path ++ compactionBackupSuffix)).All (Disk.Counted K) t fun r t' =>
      (r = .ok () ∧ Installing base path { b with backup := none } a c t') ∨
        (∃ e, r = .error e) ∧ Installing base path b a (c + 1) t' := by
  have hbeside : Beside path (.remove (path ++ compactionBackupSuffix)) :=
    beside_remove (Slot.path_ne path (x := .backup) (y := .main) (by decide))
  refine Prog.all_orElse (h.remove (x := .backup) hx) ?_ ?_
  · rintro e t' (⟨he, -⟩ | ⟨he, ht⟩)
    · cases he
    · cases he
      rw [if_neg (by decide)]
      refine .inr ⟨⟨_, rfl⟩, ?_⟩
      have hnote := ht.noted
      exact ⟨ht.disk, hnote.trans (note_beside hbeside _ _), ht.faults⟩
  · rintro u t' (⟨-, ht⟩ | ⟨he, -⟩)
    · exact .inl ⟨rfl, ht.disk, ht.noted.trans (note_beside hbeside _ _), ht.faults⟩
    · cases he

theorem Installing.syncParentDirectory (h : Installing base path b a c t) :
    (syncParentDirectory path).All (Disk.Counted K) t fun r t' =>
      r = .ok () ∧ Installing base path b a c t' ∨ (∃ e, r = .error e) ∧ Installing base path b a (c + 1) t' := by
  have hcalls : (AppendStore.syncParentDirectory path).Each (Beside path) fun _ => True :=
    Prog.each_orElse (Prog.each_perform (beside_syncDir path path)) (fun _ _ => .ret trivial) fun _ _ => .ret trivial
  refine (h.beside hcalls (all_syncParentDirectory path) (P := fun r => r = .ok ())
    (by rw [exec_syncParentDirectory])).mono ?_
  rintro r t' ⟨hd, hj, hor⟩
  have hdisk : Arranged base path b t'.disk := by
    rcases hd with hd | hd
    · exact hd ▸ h.disk
    · exact h.disk.of_dir (by rw [hd, Disk.dir_syncNames]) (by rw [hd, Disk.next_syncNames])
        fun j _ => by rw [hd, Disk.files_syncNames]
  cases r with
  | ok u =>
    refine .inl ⟨rfl, hdisk, hj, ?_⟩
    rcases hor with ⟨-, hc⟩ | hc <;> omega
  | error e =>
    refine .inr ⟨⟨e, rfl⟩, hdisk, hj, ?_⟩
    rcases hor with ⟨hr, -⟩ | hc
    · cases hr
    · exact hc

/-! ## Opening the log -/

/-- Opening a log that is there. -/
theorem Installing.openLog (h : Installing base path b a c t) {i : ℕ} (hx : b.main = some i) (hi : i < base.next)
    {hd : Header} (hne : (base.files i).content ≠ []) (hh : readHeaderOf (base.files i).content = .ok hd) :
    (openAppendLogFile path).All (Disk.Counted K) t fun r t' =>
      (∃ l, r = .ok l ∧ Opened l path i hd (base.files i).content.length ∧
        Installing base path b { a with opens := a.opens ++ [true] } c t') ∨
      ∃ e ok, r = .error e ∧ Installing base path b { a with opens := a.opens ++ [ok] } (c + 1) t' := by
  have hmain : t.disk.dir path = some i := (h.disk.slots .main).trans hx
  have hfile : t.disk.files i = base.files i := h.disk.files i hi
  rw [openAppendLogFile]
  refine Prog.all_orElse (Q := fun r t' => (r = .ok ⟨i, true⟩ ∧ t'.disk = t.disk ∧
      Installing base path b { a with opens := a.opens ++ [true] } c t') ∨
      ∃ e, r = .error e ∧ Installing base path b { a with opens := a.opens ++ [false] } (c + 1) t') ?_ ?_ ?_
  · refine Prog.all_perform fun r t' hr => ?_
    obtain ⟨hnote, ⟨hok, hc⟩ | ⟨⟨k, -, hfail⟩, hc⟩⟩ := h.call hr
    · simp only [Disk.answer, hmain, Bool.false_eq_true, if_false] at hok
      obtain ⟨rfl, hdisk⟩ := Prod.mk.inj hok
      exact .inl ⟨rfl, hdisk, hdisk ▸ h.disk, hnote.trans (note_open path a true), hc⟩
    · obtain ⟨rfl, hdisk⟩ := Prod.mk.inj hfail
      exact .inr ⟨_, rfl, hdisk ▸ h.disk, hnote.trans (note_open path a false), hc⟩
  · rintro e t' (⟨he, -⟩ | ⟨e', -, ht⟩)
    · cases he
    · exact .inr ⟨_, false, rfl, ht⟩
  · rintro f t' (⟨hf, hdisk, ht⟩ | ⟨e, he, -⟩)
    · obtain rfl := Except.ok.inj hf
      have hfile' : t'.disk.files i = base.files i := by rw [hdisk, hfile]
      -- without a failure the log is opened
      have hexec : ∃ l, (Disk.exec (startLog path ⟨i, true⟩) t'.disk).1 = .ok l := by
        obtain ⟨l, hl, -⟩ := exec_openAppendLogFile_ok (d := t'.disk) (by rw [hdisk, hmain])
          (by rw [hfile']; exact hne) (by rw [hfile']; exact hh)
        rw [openAppendLogFile, Disk.exec_orElse_ok (Disk.exec_open_some (by rw [hdisk, hmain]) true)] at hl
        exact ⟨l, by rw [hl]⟩
      refine (ht.beside (calls_startLog (fun o ho => beside_of_on ho) path)
        (all_startLog (by rw [hfile']; exact hne) (by rw [hfile']; exact hh))
        (P := fun r => ∃ l, r = .ok l) hexec).mono ?_
      rintro r t'' ⟨⟨hd'', hopened⟩, hj, hor⟩
      have hdisk'' : Arranged base path b t''.disk := hd'' ▸ ht.disk
      cases r with
      | ok l =>
        refine .inl ⟨l, rfl, ?_, hdisk'', hj, ?_⟩
        · rw [← hfile']
          exact hopened l rfl
        · rcases hor with ⟨-, hc⟩ | hc <;> omega
      | error e =>
        refine .inr ⟨e, true, rfl, hdisk'', hj, ?_⟩
        rcases hor with ⟨⟨l, hl⟩, -⟩ | hc
        · cases hl
        · exact hc
    · cases he

/-- The bytes that a log may have once opening it has created it. -/
def StartedWith (K : Set ℕ) (content : Bytes) : Prop :=
  content = [] ∨ content = currentHeader ∨ ∃ k ∈ K, content = currentHeader.take k

/-- Opening a log that is not there creates a new one. -/
theorem Installing.openNew (h : Installing base path b a c t) (hx : b.main = none) :
    (openAppendLogFile path).All (Disk.Counted K) t fun r t' =>
      ((∃ e, r = .error e) ∧ Installing base path b { a with opens := a.opens ++ [false] } (c + 1) t') ∨
      ∃ m, base.next ≤ m ∧ StartedWith K (t'.disk.files m).content ∧
        Installing base path { b with main := some m } { a with opens := a.opens ++ [true] } c t' := by
  have hmain : t.disk.dir path = none := (h.disk.slots .main).trans hx
  have hnext := h.disk.next
  rw [openAppendLogFile]
  refine Prog.all_orElse (Q := fun r t' => ((∃ e, r = .error e) ∧
      Installing base path b { a with opens := a.opens ++ [false] } (c + 1) t') ∨
      (r = .ok ⟨t.disk.next, true⟩ ∧ t'.disk = t.disk.create path ∧
        Installing base path { b with main := some t.disk.next } { a with opens := a.opens ++ [true] } c t')) ?_ ?_ ?_
  · refine Prog.all_perform fun r t' hr => ?_
    obtain ⟨hnote, ⟨hok, hc⟩ | ⟨⟨k, -, hfail⟩, hc⟩⟩ := h.call hr
    · simp only [Disk.answer, hmain, if_true] at hok
      obtain ⟨rfl, hdisk⟩ := Prod.mk.inj hok
      refine .inr ⟨rfl, hdisk, ?_, hnote.trans (note_open path a true), hc⟩
      exact hdisk ▸ h.disk.create
    · obtain ⟨rfl, hdisk⟩ := Prod.mk.inj hfail
      exact .inl ⟨⟨_, rfl⟩, hdisk ▸ h.disk, hnote.trans (note_open path a false), hc⟩
  · rintro e t' (⟨-, ht⟩ | ⟨he, -⟩)
    · exact .inl ⟨⟨_, rfl⟩, ht⟩
    · cases he
  · rintro f t' (⟨⟨e, he⟩, -⟩ | ⟨hf, hdisk, ht⟩)
    · cases he
    · obtain rfl := Except.ok.inj hf
      refine (ht.beside (calls_startLog (fun o ho => beside_of_on ho) path)
        (all_startLog_new (by rw [hdisk]; simp)) (P := fun _ => True) trivial).mono ?_
      rintro r t'' ⟨hd'', hj, hor⟩
      refine .inr ⟨t.disk.next, hnext, ?_, ?_, hj, by rcases hor with ⟨-, hc⟩ | hc <;> omega⟩
      · rcases hd'' with hd'' | ⟨content, hcontent, hd''⟩
        · left
          rw [hd'', hdisk, Disk.files_create_next]
        · rw [hd'', Disk.content_setContent]
          exact .inr hcontent
      · rcases hd'' with hd'' | ⟨content, -, hd''⟩
        · exact hd'' ▸ ht.disk
        · exact ht.disk.of_dir (by rw [hd'', Disk.dir_setContent]) (by rw [hd'', Disk.next_setContent])
            fun j hj => by rw [hd'', Disk.files_setContent_ne _ _ _ _ (by omega)]

theorem Installing.reopen (h : Installing base path b a c t) {i : ℕ} (hx : b.main = some i) (hi : i < base.next)
    {hd : Header} (hne : (base.files i).content ≠ []) (hh : readHeaderOf (base.files i).content = .ok hd) (s : Store) :
    (s.reopen path).All (Disk.Counted K) t fun r t' =>
      (∃ l, r = (none, { s with log := l }) ∧ Opened l path i hd (base.files i).content.length ∧
        Installing base path b { a with opens := a.opens ++ [true] } c t') ∨
      ∃ e ok, r = (some e, s) ∧ Installing base path b { a with opens := a.opens ++ [ok] } (c + 1) t' := by
  refine Prog.all_bind ((h.openLog hx hi hne hh).mono ?_)
  rintro r t' (⟨l, rfl, hl, ht⟩ | ⟨e, ok, rfl, ht⟩)
  · exact .inl ⟨l, rfl, hl, ht⟩
  · exact .inr ⟨e, ok, rfl, ht⟩

theorem Installing.reopenNew (h : Installing base path b a c t) (hx : b.main = none) (s : Store) :
    (s.reopen path).All (Disk.Counted K) t fun _ t' =>
      Installing base path b { a with opens := a.opens ++ [false] } (c + 1) t' ∨
      ∃ m, base.next ≤ m ∧ StartedWith K (t'.disk.files m).content ∧
        Installing base path { b with main := some m } { a with opens := a.opens ++ [true] } c t' := by
  refine Prog.all_bind ((h.openNew hx).mono ?_)
  rintro r t' (⟨-, ht⟩ | hnew)
  · cases r <;> exact .inl ht
  · cases r <;> exact .inr hnew

end

/-! ## The ends of the protocol -/

/-- How the installation of the compacted log `n` in place of `i` can end. -/
inductive InstallEnd (K : Set ℕ) (base : Disk) (path : Path) (s : Store) (hd : Header) (i n : ℕ) (newIndex : Index)
    (r : Except Err Unit × Store) (t : Disk.Run) : Prop
  /-- The store has the new log. -/
  | switched (backup : Option ℕ) (log : AppendLog)
      (hlog : Opened log path n ⟨logVersion, 0, 0⟩ (base.files n).content.length)
      (hstore : r.2 = { s with log := log, index := newIndex, cache := s.cache.clear })
      (hstate : Installing base path ⟨some n, none, backup⟩ ⟨[true], [true], [], []⟩ 0 t)
  /-- The old log has its name again, and the store has it open unless a second call failed. -/
  | kept (ready : Option ℕ) (a : Attempts) (log : AppendLog) (hstore : r.2 = { s with log := log })
      (hlog : Opened log path i hd (base.files i).content.length ∨ 2 ≤ t.faults)
      (ha : ¬ a.Loses) (hstate : Installing base path ⟨some i, ready, none⟩ a 1 t)
  /-- The store has no log, but a later recovery finds one of the two. -/
  | stranded (b : Slots) (a : Attempts) (j : ℕ) (hj : j = i ∨ j = n) (hb : b.main.or (b.ready.or b.backup) = some j)
      (ha : ¬ a.Loses) (hstate : Installing base path b a 2 t)
  /-- A new log stands in the way of the old one. -/
  | lost (b : Slots) (a : Attempts) (m : ℕ) (hm : base.next ≤ m) (hb : b.main = some m)
      (hcontent : StartedWith K (t.disk.files m).content) (ha : a.Loses) (hstate : Installing base path b a 2 t)

theorem InstallEnd.of_log {K : Set ℕ} {base : Disk} {path : Path} {s : Store} {hd : Header} {i n : ℕ}
    {newIndex : Index} {r : Except Err Unit × Store} {t : Disk.Run} {l : AppendLog}
    (h : InstallEnd K base path { s with log := l } hd i n newIndex r t) :
    InstallEnd K base path s hd i n newIndex r t := by
  cases h with
  | switched backup log hlog hstore hstate => exact .switched backup log hlog hstore hstate
  | kept ready a log hstore hlog ha hstate => exact .kept ready a log hstore hlog ha hstate
  | stranded b a j hj hb ha hstate => exact .stranded b a j hj hb ha hstate
  | lost b a m hm hb hcontent ha hstate => exact .lost b a m hm hb hcontent ha hstate

section
variable {K : Set ℕ} {base : Disk} {path : Path} {s : Store} {hd : Header} {i n : ℕ} {newIndex : Index}
  (hi : i < base.next) (hn : n < base.next) (hnei : (base.files i).content ≠ [])
  (hhi : readHeaderOf (base.files i).content = .ok hd) (hnen : (base.files n).content ≠ [])
  (hhn : readHeaderOf (base.files n).content = .ok ⟨logVersion, 0, 0⟩)
include hi hnei hhi

/-- The roll-back where the old log still has its name: reopen it and remove the prepared one. -/
theorem all_giveUp {t : Disk.Run} (h : Installing base path ⟨some i, some n, none⟩ ⟨[], [], [], []⟩ 1 t)
    (e : Option Err → Err) :
    (do
      let (reopenErr, s) ← s.reopen path
      let _ ← Sys.remove (path ++ compactionReadySuffix)
      pure (.error (e reopenErr), s) : FileProg (Except Err Unit × Store)).All (Disk.Counted K) t
      (InstallEnd K base path s hd i n newIndex) := by
  have hbeside : Beside path (.remove (path ++ compactionReadySuffix)) :=
    beside_remove (Slot.path_ne path (x := .ready) (y := .main) (by decide))
  -- the last step, for either outcome of reopening
  have hdrop : ∀ (reopenErr : Option Err) (log : AppendLog) (ok : Bool) (t' : Disk.Run),
      Opened log path i hd (base.files i).content.length ∨ 2 ≤ t'.faults →
      Installing base path ⟨some i, some n, none⟩ ⟨[ok], [], [], []⟩ 1 t' →
      (do let _ ← Sys.remove (path ++ compactionReadySuffix); pure (.error (e reopenErr), { s with log := log }) :
        FileProg (Except Err Unit × Store)).All (Disk.Counted K) t' (InstallEnd K base path s hd i n newIndex) := by
    intro reopenErr log ok t' hlog ht
    have hloses : ¬ (Attempts.mk [ok] [] [] []).Loses := fun hl => by cases hl.1
    refine Prog.all_bind (((ht.remove (x := .ready) rfl).and (Disk.all_faults _ t')).mono ?_)
    rintro r t'' ⟨⟨-, hr⟩ | ⟨-, hr⟩, hle, -⟩
    · exact .kept none _ log rfl (hlog.imp_right fun h2 => h2.trans hle) hloses
        ⟨hr.disk, hr.noted.trans (note_beside hbeside _ _), hr.faults⟩
    · exact .kept (some n) _ log rfl (hlog.imp_right fun h2 => h2.trans hle) hloses
        ⟨hr.disk, hr.noted.trans (note_beside hbeside _ _), (Nat.le_succ 1).trans hr.faults⟩
  refine Prog.all_bind ((h.reopen rfl hi hnei hhi s).mono ?_)
  rintro r t' (⟨l, rfl, hl, ht⟩ | ⟨e', ok, rfl, ht⟩)
  · exact hdrop none l true t' (.inl hl) ht
  · exact hdrop (some e') s.log ok t' (.inr ht.faults) ⟨ht.disk, ht.noted, (Nat.le_succ 1).trans ht.faults⟩

include hn hnen hhn

/-- The roll-back once the old log is the backup: bring it back and reopen it. -/
theorem all_restore {b : Slots} {a : Attempts} {t : Disk.Run} (h : Installing base path b a 1 t)
    (hbackup : b.backup = some i) (hready : b.ready = some n ∨ b.ready = none) (hrestores : a.restores = [])
    (hmain : b.main = none ∧ (a.installs = [false] ∨ a.removals = [true]) ∨
      b.main = some n ∧ ¬ (a.installs = [false] ∨ a.removals = [true]))
    (e : Except OsError Unit → Option Err → Err) :
    (do
      let restoreErr ← Sys.rename (path ++ compactionBackupSuffix) path
      let (reopenErr, s) ← s.reopen path
      pure (.error (e restoreErr reopenErr), s) : FileProg (Except Err Unit × Store)).All (Disk.Counted K) t
      (InstallEnd K base path s hd i n newIndex) := by
  refine Prog.all_bind ((h.rename (x := .backup) (y := .main) hbackup).mono ?_)
  rintro r t1 (⟨rfl, h1⟩ | ⟨rfl, h1⟩)
  · -- the old log is back
    have hnote : attempts path t1.journal = { a with restores := [true] } := by
      refine h1.noted.trans ((note_restore path a true).trans ?_)
      rw [hrestores]
      rfl
    have h1' : Installing base path ⟨some i, b.ready, none⟩ { a with restores := [true] } 1 t1 :=
      ⟨h1.disk, hnote, h1.faults⟩
    refine Prog.all_bind ((h1'.reopen rfl hi hnei hhi s).mono ?_)
    rintro r t2 (⟨l, rfl, hl, ht⟩ | ⟨e', ok, rfl, ht⟩)
    · exact .kept b.ready _ l rfl (.inl hl) (fun hloses => by cases hloses.1) ht
    · exact .kept b.ready _ s.log rfl (.inr ht.faults) (fun hloses => by cases hloses.1)
        ⟨ht.disk, ht.noted, (Nat.le_succ 1).trans ht.faults⟩
  · have hnote : attempts path t1.journal = { a with restores := [false] } := by
      refine h1.noted.trans ((note_restore path a false).trans ?_)
      rw [hrestores]
      rfl
    have h1' : Installing base path b { a with restores := [false] } 2 t1 := ⟨h1.disk, hnote, h1.faults⟩
    rcases hmain with ⟨hnone, hgone⟩ | ⟨hsome, hkept⟩
    · refine Prog.all_bind ((h1'.reopenNew hnone s).mono ?_)
      rintro ⟨reopenErr, s'⟩ t2 (ht | ⟨m, hm, hcontent, ht⟩)
      · have hloses : ¬ (Attempts.mk (a.opens ++ [false]) a.installs [false] a.removals).Loses := by
          rintro ⟨-, hopen, -⟩
          rw [List.getLast?_concat] at hopen
          cases hopen
        have hstate : Installing base path b ⟨a.opens ++ [false], a.installs, [false], a.removals⟩ 2 t2 :=
          ⟨ht.disk, ht.noted, (Nat.le_succ 2).trans ht.faults⟩
        rcases hready with hready | hready
        · exact .stranded b _ n (.inr rfl) (by rw [hnone, hready]; rfl) hloses hstate
        · exact .stranded b _ i (.inl rfl) (by rw [hnone, hready, hbackup]; rfl) hloses hstate
      · have hloses : (Attempts.mk (a.opens ++ [true]) a.installs [false] a.removals).Loses :=
          ⟨rfl, List.getLast?_concat, hgone⟩
        exact .lost _ _ m hm rfl hcontent hloses ht
    · have hloses : ∀ ok, ¬ (Attempts.mk (a.opens ++ [ok]) a.installs [false] a.removals).Loses :=
        fun ok hl => hkept hl.2.2
      refine Prog.all_bind ((h1'.reopen hsome hn hnen hhn s).mono ?_)
      rintro r t2 (⟨l, rfl, -, ht⟩ | ⟨e', ok, rfl, ht⟩)
      · exact .stranded b _ n (.inr rfl) (by rw [hsome]; rfl) (hloses true) ht
      · exact .stranded b _ n (.inr rfl) (by rw [hsome]; rfl) (hloses ok)
          ⟨ht.disk, ht.noted, (Nat.le_succ 2).trans ht.faults⟩

/-- **The ends of the installation, whatever fails.** -/
theorem all_installCompacted {t : Disk.Run} (h : Installing base path ⟨some i, some n, none⟩ ⟨[], [], [], []⟩ 0 t)
    (hopen : s.log.file.isOpen = true) (hpath : s.log.path = path) :
    (s.installCompacted newIndex).All (Disk.Counted K) t (InstallEnd K base path s hd i n newIndex) := by
  have hbackupOp : Beside path (.rename path (path ++ compactionBackupSuffix)) :=
    beside_rename (Slot.path_ne path (x := .backup) (y := .main) (by decide))
  unfold Store.installCompacted
  dsimp only
  rw [hpath]
  refine Prog.all_orElseState (h.close hopen) ?_ ?_
  · rintro e closed t1 ⟨-, ⟨hr, -⟩ | ⟨-, h1⟩⟩
    · cases hr
    · exact (all_giveUp hi hnei hhi h1 fun reopenErr => joinErr _ [reopenErr]).mono fun _ _ => InstallEnd.of_log
  rintro u closed t1 ⟨-, ⟨-, h1⟩ | ⟨⟨e, hr⟩, -⟩⟩
  swap
  · cases hr
  refine Prog.all_orElse (h1.rename (x := .main) (y := .backup) rfl) ?_ ?_
  · rintro e t2 (⟨hr, -⟩ | ⟨-, h2⟩)
    · cases hr
    · have h2' : Installing base path ⟨some i, some n, none⟩ ⟨[], [], [], []⟩ 1 t2 :=
        ⟨h2.disk, h2.noted.trans (note_beside hbackupOp _ _), h2.faults⟩
      exact (all_giveUp hi hnei hhi h2' fun reopenErr => joinErr _ [reopenErr]).mono fun _ _ => InstallEnd.of_log
  rintro u' t2 (⟨-, h2⟩ | ⟨hr, -⟩)
  swap
  · cases hr
  have h2' : Installing base path ⟨none, some n, some i⟩ ⟨[], [], [], []⟩ 0 t2 :=
    ⟨h2.disk, h2.noted.trans (note_beside hbackupOp _ _), h2.faults⟩
  refine Prog.all_orElse (h2'.rename (x := .ready) (y := .main) rfl) ?_ ?_
  · rintro e t3 (⟨hr, -⟩ | ⟨-, h3⟩)
    · cases hr
    · have h3' : Installing base path ⟨none, some n, some i⟩ ⟨[], [false], [], []⟩ 1 t3 :=
        ⟨h3.disk, h3.noted.trans (note_install path _ _), h3.faults⟩
      exact (all_restore hi hn hnei hhi hnen hhn h3' rfl (.inl rfl) rfl (.inl ⟨rfl, .inl rfl⟩)
        fun restoreErr reopenErr => joinErr _ [errorOf .os restoreErr, reopenErr]).mono fun _ _ => InstallEnd.of_log
  rintro u'' t3 (⟨-, h3⟩ | ⟨hr, -⟩)
  swap
  · cases hr
  have h3' : Installing base path ⟨some n, none, some i⟩ ⟨[], [true], [], []⟩ 0 t3 :=
    ⟨h3.disk, h3.noted.trans (note_install path _ _), h3.faults⟩
  refine Prog.all_orElse (h3'.openLog rfl hn hnen hhn) ?_ ?_
  · rintro e t4 (⟨l, hr, -⟩ | ⟨e', ok, -, h4⟩)
    · cases hr
    refine Prog.all_bind ((h4.remove (x := .main) rfl).mono ?_)
    rintro r t5 (⟨rfl, h5⟩ | ⟨rfl, h5⟩)
    · have h5' : Installing base path ⟨none, none, some i⟩ ⟨[ok], [true], [], [true]⟩ 1 t5 :=
        ⟨h5.disk, h5.noted.trans (note_remove path _ _), h5.faults⟩
      exact (all_restore hi hn hnei hhi hnen hhn h5' rfl (.inr rfl) rfl (.inl ⟨rfl, .inr rfl⟩)
        fun restoreErr reopenErr => joinErr _ [_, errorOf .os restoreErr, reopenErr]).mono fun _ _ => InstallEnd.of_log
    · have h5' : Installing base path ⟨some n, none, some i⟩ ⟨[ok], [true], [], [false]⟩ 1 t5 :=
        ⟨h5.disk, h5.noted.trans (note_remove path _ _), (Nat.le_succ 1).trans h5.faults⟩
      have hkept : ¬ ([true] = [false] ∨ [false] = [true]) := by decide
      exact (all_restore hi hn hnei hhi hnen hhn h5' rfl (.inr rfl) rfl (.inr ⟨rfl, hkept⟩)
        fun restoreErr reopenErr => joinErr _ [_, errorOf .os restoreErr, reopenErr]).mono fun _ _ => InstallEnd.of_log
  rintro l t4 (⟨l', hr, hl, h4⟩ | ⟨e, ok, hr, -⟩)
  swap
  · cases hr
  obtain rfl := Except.ok.inj hr
  refine Prog.all_orElse (h4.removeIfExists rfl) ?_ ?_
  · rintro e t5 (⟨hr, -⟩ | ⟨-, h5⟩)
    · cases hr
    · exact .switched (some i) l hl rfl ⟨h5.disk, h5.noted, Nat.zero_le _⟩
  rintro v t5 (⟨-, h5⟩ | ⟨⟨e, hr⟩, -⟩)
  swap
  · cases hr
  refine Prog.all_orElse h5.syncParentDirectory ?_ ?_
  · rintro e t6 (⟨hr, -⟩ | ⟨-, h6⟩)
    · cases hr
    · exact .switched none l hl rfl ⟨h6.disk, h6.noted, Nat.zero_le _⟩
  rintro w t6 (⟨-, h6⟩ | ⟨⟨e, hr⟩, -⟩)
  · exact .switched none l hl rfl h6
  · cases hr

end

end AppendStore
