import AppendStore.Library.FileSystem
import AppendStore.Library.Threads

/-! # Processes that exclude each other with a lock file

Several processes run on one disk, one system call at a time, in any order. Each of them opens a lock file,
creating it if it is not there, asks for the lock, and is turned away if another one has it; otherwise it
does its work, gives the lock back and closes what it has open (`underLock`). The file itself stays.

The work may be any program that leaves the lock file and the locks alone (`Releasing`). Then at most one
process is at work at any time, and the whole is a serial run: the processes that got the lock, in the order
in which they got it, give the answers and leave the disk that they would have if each had run from its
first call to its last with no other process there; the others are turned away (`Serialized`,
`serialized_runs`).
-/

namespace AppendStore.Library
set_option autoImplicit false

section
variable {α : Type}

/-- The next system call of a process. -/
def procStep {ι : Type} (_ : ι) (d : Disk) : FileProg α → Option (Disk × FileProg α)
  | .ret _ => none
  | .op o k => some ((Disk.answer o d).2, k (Disk.answer o d).1)

/-- A process that moves alone comes to its end. -/
theorem alone_finishes {ι : Type} [DecidableEq ι] (c : Threads ι Disk (FileProg α)) (i : ι) :
    Alone procStep c i (Disk.exec (c.loc i) c.shared).2 (.ret (Disk.exec (c.loc i) c.shared).1) := by
  have hfrom : ∀ (p : FileProg α) (d : Disk), Alone procStep c i d p →
      Alone procStep c i (Disk.exec p d).2 (.ret (Disk.exec p d).1) := by
    intro p
    induction p with
    | ret a => exact fun d h => h
    | op o k ih => exact fun d h => ih _ _ (h.next rfl)
  exact hfrom _ _ (alone_refl procStep c i)

/-- Ask for the lock on an open lock file. -/
def askLock (refused : OsError → α) (body : OsFile → FileProg α) (file : OsFile) : FileProg α :=
  (Sys.flock file).orElse (fun e => do let _ ← Sys.close file; pure (refused e)) fun _ => body file

/-- Work under the lock, or be turned away. -/
def underLock (lockPath : Path) (failed refused : OsError → α) (body : OsFile → FileProg α) : FileProg α :=
  (Sys.openFile lockPath true false).orElse (fun e => pure (failed e)) (askLock refused body)

/-! ## What the work may do -/

/-- The call moves no lock, and does not take the name of the lock file away. -/
def FileOp.LeavesLock (lockPath : Path) : FileOp → Prop
  | .flock _ | .funlock _ => False
  | .rename a b => a ≠ lockPath ∧ b ≠ lockPath
  | .remove p => p ≠ lockPath
  | _ => True

/-- A program that only closes files. -/
inductive Closes : FileProg α → Prop
  | ret (a : α) : Closes (.ret a)
  | close (f : OsFile) {k : Except OsError Unit → FileProg α} (hk : ∀ r, Closes (k r)) : Closes (.op (.close f) k)

/-- A program that leaves the lock alone, then gives it back, and then only closes files. -/
inductive Releasing (lockPath : Path) (file : OsFile) : FileProg α → Prop
  | op {o : FileOp} {k : o.Res → FileProg α} (ho : o.LeavesLock lockPath) (hk : ∀ r, Releasing lockPath file (k r)) :
      Releasing lockPath file (.op o k)
  | unlock {k : Except OsError Unit → FileProg α} (hk : ∀ r, Closes (k r)) :
      Releasing lockPath file (.op (.funlock file) k)

theorem releasing_bind {β : Type} {lockPath : Path} {file : OsFile} {p : FileProg β} {f : β → FileProg α}
    {Q : β → Prop} (hp : p.Each (FileOp.LeavesLock lockPath) Q) (hf : ∀ b, Q b → Releasing lockPath file (f b)) :
    Releasing lockPath file (p >>= f) := by
  change Releasing lockPath file (p.bind f)
  induction hp with
  | ret hQ => exact hf _ hQ
  | op hP _ ih => exact .op hP ih

theorem closes_bind {β : Type} {p : FileProg β} {f : β → FileProg α} (hp : Closes p) (hf : ∀ b, Closes (f b)) :
    Closes (p >>= f) := by
  change Closes (p.bind f)
  induction hp with
  | ret b => exact hf b
  | close g _ ih => exact .close g ih

/-- What is done after the lock was given back may as well have been done before. -/
theorem releasing_append {β : Type} {lockPath : Path} {file : OsFile} {p : FileProg β} {f : β → FileProg α}
    (hp : Releasing lockPath file p) (hf : ∀ b, Closes (f b)) : Releasing lockPath file (p >>= f) := by
  change Releasing lockPath file (p.bind f)
  induction hp with
  | op ho _ ih => exact .op ho ih
  | unlock hk => exact .unlock fun r => closes_bind (hk r) hf

/-- A program that only closes files leaves the disk, and does not look at it. -/
theorem Closes.exec {p : FileProg α} (h : Closes p) (d : Disk) :
    (Disk.exec p d).2 = d ∧ ∀ d', (Disk.exec p d').1 = (Disk.exec p d).1 := by
  induction h generalizing d with
  | ret a => exact ⟨rfl, fun _ => rfl⟩
  | close f _ ih =>
    have hanswer : ∀ d, Disk.answer (.close f) d = (if f.isOpen then .ok () else .error .closed, d) := by
      intro d
      by_cases hf : f.isOpen = true <;> simp only [Disk.answer, Disk.onOpen, hf] <;> rfl
    simp only [Disk.exec, Prog.run, hanswer]
    exact ih _ d

/-- The lock file is there, under this inode. -/
def Disk.Locks (d : Disk) (lockPath : Path) (k : ℕ) : Prop := d.dir lockPath = some k ∧ k < d.next

/-- The work leaves the lock as it is. -/
theorem Disk.Locks.answer {d : Disk} {lockPath : Path} {k : ℕ} (h : d.Locks lockPath k) {o : FileOp}
    (ho : o.LeavesLock lockPath) :
    (Disk.answer o d).2.Locks lockPath k ∧ (Disk.answer o d).2.locked k = d.locked k := by
  have hsame : d.Locks lockPath k ∧ d.locked k = d.locked k := ⟨h, rfl⟩
  cases o with
  | openFile p create trunc =>
    simp only [Disk.answer]
    cases hp : d.dir p with
    | some i => cases trunc <;> exact hsame
    | none =>
      cases create with
      | false => exact hsame
      | true =>
        have hne : lockPath ≠ p := by
          rintro rfl
          rw [h.1] at hp
          cases hp
        refine ⟨⟨?_, Nat.lt_succ_of_lt h.2⟩, Disk.locked_create_ne d p k (Nat.ne_of_lt h.2)⟩
        change (d.create p).dir lockPath = some k
        rw [Disk.dir_create, Function.update_of_ne hne, h.1]
  | rename a b =>
    simp only [Disk.answer]
    cases ha : d.dir a with
    | none => exact hsame
    | some i =>
      refine ⟨⟨?_, h.2⟩, rfl⟩
      change (d.enqueue (.rename a b)).dir lockPath = some k
      rw [Disk.dir_rename ha, Function.update_of_ne ho.2.symm, Function.update_of_ne ho.1.symm, h.1]
  | remove p =>
    simp only [Disk.answer]
    split
    · refine ⟨⟨?_, h.2⟩, rfl⟩
      rw [Disk.dir_enqueue, DirOp.apply, Function.update_of_ne (Ne.symm ho), h.1]
    · exact hsame
  | flock f => exact absurd ho id
  | funlock f => exact absurd ho id
  | writeAt f off b =>
    simp only [Disk.answer, Disk.onOpen]
    split <;> exact hsame
  | truncate f n =>
    simp only [Disk.answer, Disk.onOpen]
    split <;> exact hsame
  | fsync f =>
    simp only [Disk.answer, Disk.onOpen]
    split <;> exact hsame
  | fstat f =>
    simp only [Disk.answer, Disk.onOpen]
    split <;> exact hsame
  | readAt f off n =>
    simp only [Disk.answer, Disk.onOpen]
    split <;> exact hsame
  | seek f off =>
    simp only [Disk.answer, Disk.onOpen]
    split <;> exact hsame
  | readFrom f off =>
    simp only [Disk.answer, Disk.onOpen]
    split <;> exact hsame
  | close f =>
    simp only [Disk.answer, Disk.onOpen]
    split <;> exact hsame
  | mmap f n =>
    simp only [Disk.answer, Disk.onOpen]
    split <;> exact hsame
  | stat p => exact hsame
  | mapped f lo hi => exact hsame
  | syncDir p => exact hsame

/-- A call that only closes a file changes nothing that can be seen. -/
theorem Closes.step {ι : Type} {i : ι} {p p' : FileProg α} {d d' : Disk} (h : Closes p)
    (hstep : procStep i d p = some (d', p')) :
    d' = d ∧ Closes p' ∧ ∀ u, (Disk.exec p' u).1 = (Disk.exec p u).1 := by
  have hend := (h.exec d).1
  cases h with
  | ret a => cases hstep
  | close f hk =>
    cases hstep
    have hrest := hk (Disk.answer (.close f) d).1
    have hdisk : (Disk.answer (.close f) d).2 = d := (hrest.exec _).1.symm.trans hend
    refine ⟨hdisk, hrest, fun u => ?_⟩
    have hsame := ((Closes.close f hk).exec d).2 u
    rw [hsame, (hrest.exec (Disk.answer (.close f) d).2).2 u]
    rfl

end

/-! ## Serial runs -/

/-- A process that works under the lock: what it answers when the lock file cannot be opened, what it answers
when it is turned away, and its work. -/
structure Party (α : Type) where
  failed : OsError → α
  refused : OsError → α
  body : OsFile → FileProg α

def Party.prog {α : Type} (lockPath : Path) (p : Party α) : FileProg α :=
  underLock lockPath p.failed p.refused p.body

section
variable {ι α : Type} (lockPath : Path) (party : ι → Party α)

/-- The disk after the processes have run one after the other. -/
def serially (d : Disk) (order : List ι) : Disk :=
  order.foldl (fun d i => (Disk.exec ((party i).prog lockPath) d).2) d

/-- What a process answers when it runs after the others in the list. -/
def turnAnswer (d : Disk) (before : List ι) (i : ι) : α :=
  (Disk.exec ((party i).prog lockPath) (serially lockPath party d before)).1

variable {lockPath party}

theorem serially_append (d : Disk) (order : List ι) (i : ι) :
    serially lockPath party d (order ++ [i]) =
      (Disk.exec ((party i).prog lockPath) (serially lockPath party d order)).2 := by
  rw [serially, List.foldl_append]
  rfl

end

/-- Nobody has the lock. -/
def Disk.Unheld (d : Disk) (lockPath : Path) : Prop :=
  ∀ k, d.dir lockPath = some k → k < d.next ∧ d.locked k = false

theorem Disk.unheld_create (d : Disk) (lockPath : Path) :
    (d.create lockPath).Unheld lockPath := by
  intro k hk
  rw [Disk.dir_create, Function.update_self] at hk
  cases hk
  exact ⟨Nat.lt_succ_self _, Disk.locked_create_next d lockPath⟩

section
variable {ι α : Type}

/-- A process that has not asked for the lock yet. -/
def Waiting (lockPath : Path) (p : Party α) (d : Disk) (q : FileProg α) : Prop :=
  q = p.prog lockPath ∨ ∃ k, d.dir lockPath = some k ∧ q = askLock p.refused p.body ⟨k, true⟩

theorem Waiting.mono {lockPath : Path} {p : Party α} {d d' : Disk} {q : FileProg α} (h : Waiting lockPath p d q)
    (hdir : ∀ k, d.dir lockPath = some k → d'.dir lockPath = some k) : Waiting lockPath p d' q := by
  obtain hq | ⟨k, hk, hq⟩ := h
  · exact .inl hq
  · exact .inr ⟨k, hdir k hk, hq⟩

/-- A process that was turned away. -/
def Refused (p : Party α) (q : FileProg α) : Prop := Closes q ∧ ∀ d, (Disk.exec q d).1 = p.refused .contended

/-- Between two processes at work the disk is that of the serial run; somebody may have made the lock file. -/
def Between (lockPath : Path) (s d : Disk) : Prop := d = s ∨ s.dir lockPath = none ∧ d = s.create lockPath

/-- The process has the lock, and from here on does what it would have done alone. -/
structure AtWork (lockPath : Path) (p : Party α) (s d : Disk) (q : FileProg α) (k : ℕ) : Prop where
  locks : d.Locks lockPath k
  locked : d.locked k = true
  releasing : Releasing lockPath ⟨k, true⟩ q
  rest : Disk.exec q d = Disk.exec (p.prog lockPath) s

/-- The processes in `order` have had the lock, in this order, and `holder` has it now. -/
structure Serialized (lockPath : Path) (party : ι → Party α) (d : Disk) (order : List ι) (holder : Option ι)
    (c : Threads ι Disk (FileProg α)) : Prop where
  nodup : order.Nodup
  unheld : (serially lockPath party d order).Unheld lockPath
  made : order ≠ [] → (serially lockPath party d order).dir lockPath ≠ none
  idle : holder = none → Between lockPath (serially lockPath party d order) c.shared
  busy : ∀ j, holder = some j → j ∉ order ∧
    ∃ k, AtWork lockPath (party j) (serially lockPath party d order) c.shared (c.loc j) k
  through : ∀ pre i post, order = pre ++ i :: post →
    Closes (c.loc i) ∧ ∀ u, (Disk.exec (c.loc i) u).1 = turnAnswer lockPath party d pre i
  others : ∀ i, i ∉ order → holder ≠ some i →
    Waiting lockPath (party i) c.shared (c.loc i) ∨ Refused (party i) (c.loc i) ∧ (holder = none → order ≠ [])

theorem Between.unheld {lockPath : Path} {s d : Disk} (h : Between lockPath s d) (hs : s.Unheld lockPath) :
    d.Unheld lockPath := by
  obtain rfl | ⟨-, rfl⟩ := h
  · exact hs
  · exact Disk.unheld_create s lockPath

/-- At the start no process has moved. -/
theorem serialized_start {lockPath : Path} (party : ι → Party α) {d : Disk} (h : d.Unheld lockPath) :
    Serialized lockPath party d [] none ⟨d, fun i => (party i).prog lockPath⟩ where
  nodup := List.nodup_nil
  unheld := h
  made := fun hne => absurd rfl hne
  idle := fun _ => .inl rfl
  busy := fun _ hj => by cases hj
  through := fun pre i post hsplit => absurd hsplit.symm (by simp)
  others := fun _ _ _ => .inl (.inl rfl)

variable {lockPath : Path} {party : ι → Party α} {d : Disk} {order : List ι} {holder : Option ι}
  {c c' : Threads ι Disk (FileProg α)} {i : ι} {d' : Disk} {q : FileProg α}

/-- A process that is through or was turned away closes a file. -/
theorem Serialized.closes (h : Serialized lockPath party d order holder c) (hi : holder ≠ some i)
    (hwait : i ∉ order → Refused (party i) (c.loc i) ∧ (holder = none → order ≠ []))
    (hcloses : Closes (c.loc i)) (hstep : procStep i c.shared (c.loc i) = some (d', q)) (hm : Moved c c' i d' q) :
    Serialized lockPath party d order holder c' := by
  obtain ⟨hdisk, hq, hanswer⟩ := hcloses.step hstep
  have hshared : c'.shared = c.shared := hm.shared.trans hdisk
  refine ⟨h.nodup, h.unheld, h.made, fun hnone => hshared ▸ h.idle hnone, fun j hj => ?_, fun pre j post hsplit => ?_,
    fun j hj hhold => ?_⟩
  · have hne : j ≠ i := fun heq => hi (heq ▸ hj)
    rw [hshared, hm.others j hne]
    exact h.busy j hj
  · have hthrough := h.through pre j post hsplit
    by_cases hji : j = i
    · subst hji
      rw [hm.loc]
      exact ⟨hq, fun u => (hanswer u).trans (hthrough.2 u)⟩
    · rw [hm.others j hji]
      exact hthrough
  · by_cases hji : j = i
    · subst hji
      obtain ⟨hrefused, hwon⟩ := hwait hj
      rw [hm.loc]
      exact .inr ⟨⟨hq, fun u => (hanswer u).trans (hrefused.2 u)⟩, hwon⟩
    · rw [hshared, hm.others j hji]
      exact h.others j hj hhold

/-- A process opens the lock file. -/
theorem Serialized.opens (h : Serialized lockPath party d order holder c) (hi : i ∉ order) (hhold : holder ≠ some i)
    (hloc : c.loc i = (party i).prog lockPath) (hstep : procStep i c.shared (c.loc i) = some (d', q))
    (hm : Moved c c' i d' q) : Serialized lockPath party d order holder c' := by
  rw [hloc] at hstep
  have hfile : ∃ k, d'.dir lockPath = some k ∧ q = askLock (party i).refused (party i).body ⟨k, true⟩ ∧
      (d' = c.shared ∨ c.shared.dir lockPath = none ∧ d' = c.shared.create lockPath) := by
    cases hstep
    cases hdir : c.shared.dir lockPath with
    | some k =>
      have hanswer := Disk.exec_open_some hdir true
      change Disk.answer (.openFile lockPath true false) c.shared = _ at hanswer
      rw [hanswer]
      exact ⟨k, hdir, rfl, .inl rfl⟩
    | none =>
      have hanswer := Disk.exec_open_none hdir false
      change Disk.answer (.openFile lockPath true false) c.shared = _ at hanswer
      rw [hanswer]
      exact ⟨c.shared.next, by rw [Disk.dir_create, Function.update_self], rfl, .inr ⟨rfl, rfl⟩⟩
  obtain ⟨k, hk, rfl, hdisk⟩ := hfile
  have hkeep : ∀ k, c.shared.dir lockPath = some k → d'.dir lockPath = some k := by
    intro n hn
    obtain rfl | ⟨hnone, -⟩ := hdisk
    · exact hn
    · rw [hnone] at hn
      cases hn
  refine ⟨h.nodup, h.unheld, h.made, fun hnone => ?_, fun j hj => ?_, fun pre j post hsplit => ?_, fun j hj hjh => ?_⟩
  · rw [hm.shared]
    obtain rfl | ⟨hdir, rfl⟩ := hdisk
    · exact h.idle hnone
    · -- the file is made at most once between two processes at work
      obtain heq | ⟨-, heq⟩ := h.idle hnone
      · exact .inr ⟨heq ▸ hdir, by rw [heq]⟩
      · rw [heq, Disk.dir_create, Function.update_self] at hdir
        cases hdir
  · have hne : j ≠ i := fun heq => hhold (heq ▸ hj)
    obtain ⟨hj', k', hwork⟩ := h.busy j hj
    obtain rfl | ⟨hnone, -⟩ := hdisk
    · rw [hm.shared, hm.others j hne]
      exact ⟨hj', k', hwork⟩
    · rw [hwork.locks.1] at hnone
      cases hnone
  · have hne : j ≠ i := fun heq => hi (by rw [← heq, hsplit]; simp)
    rw [hm.others j hne]
    exact h.through pre j post hsplit
  · by_cases hji : j = i
    · subst hji
      rw [hm.loc, hm.shared]
      exact .inl (.inr ⟨k, hk, rfl⟩)
    · rw [hm.others j hji, hm.shared]
      obtain hwait | hrefused := h.others j hj hjh
      · exact .inl (hwait.mono hkeep)
      · exact .inr hrefused

/-- A process asks for the lock. -/
theorem Serialized.asks {k : ℕ} (hbody : ∀ i k, Releasing lockPath ⟨k, true⟩ ((party i).body ⟨k, true⟩))
    (h : Serialized lockPath party d order holder c) (hi : i ∉ order) (hhold : holder ≠ some i)
    (hk : c.shared.dir lockPath = some k) (hloc : c.loc i = askLock (party i).refused (party i).body ⟨k, true⟩)
    (hstep : procStep i c.shared (c.loc i) = some (d', q)) (hm : Moved c c' i d' q) :
    ∃ holder', Serialized lockPath party d order holder' c' := by
  have hne : ∀ pre j post, order = pre ++ j :: post → j ≠ i := by
    rintro pre j post hsplit rfl
    exact hi (by rw [hsplit]; simp)
  rw [hloc] at hstep
  cases hstep
  by_cases hlocked : c.shared.locked k = true
  · -- another process has it
    have hanswer : Disk.answer (.flock ⟨k, true⟩) c.shared = (.error .contended, c.shared) := by
      simp only [Disk.answer, Disk.onOpen, hlocked]
      rfl
    rw [hanswer] at hm
    have hsome : holder ≠ none := by
      rintro rfl
      have hfree := ((h.idle rfl).unheld h.unheld k hk).2
      rw [hlocked] at hfree
      cases hfree
    refine ⟨holder, h.nodup, h.unheld, h.made, fun hnone => absurd hnone hsome, fun j hj => ?_,
      fun pre j post hsplit => ?_,
      fun j hj hjh => ?_⟩
    · have hji : j ≠ i := fun heq => hhold (heq ▸ hj)
      rw [hm.shared, hm.others j hji]
      exact h.busy j hj
    · rw [hm.others j (hne pre j post hsplit)]
      exact h.through pre j post hsplit
    · by_cases hji : j = i
      · subst hji
        rw [hm.loc]
        exact .inr ⟨⟨.close _ fun _ => .ret _, fun _ => rfl⟩, fun hnone => absurd hnone hsome⟩
      · rw [hm.others j hji, hm.shared]
        exact h.others j hj hjh
  · have hfree : c.shared.locked k = false := by simpa using hlocked
    have hflock : Disk.exec (Sys.flock ⟨k, true⟩) c.shared = (.ok (), c.shared.setLock k true) :=
      Disk.exec_flock rfl c.shared hfree
    have hanswer : Disk.answer (.flock ⟨k, true⟩) c.shared = (.ok (), c.shared.setLock k true) := hflock
    rw [hanswer] at hm
    have hnone : holder = none := by
      cases holder with
      | none => rfl
      | some j =>
        obtain ⟨-, k', hwork⟩ := h.busy j rfl
        have hkk : k' = k := Option.some.inj (hwork.locks.1.symm.trans hk)
        rw [← hkk, hwork.locked] at hfree
        cases hfree
    subst hnone
    have hrest : Disk.exec ((party i).prog lockPath) (serially lockPath party d order) =
        Disk.exec ((party i).body ⟨k, true⟩) (c.shared.setLock k true) := by
      obtain heq | ⟨hdir, heq⟩ := h.idle rfl
      · rw [← heq]
        exact (Disk.exec_orElse_ok (Disk.exec_open_some hk true)).trans (Disk.exec_orElse_ok hflock)
      · have hnext : (serially lockPath party d order).next = k := by
          rw [heq, Disk.dir_create, Function.update_self] at hk
          exact Option.some.inj hk
        have hopen := Disk.exec_open_none hdir false
        rw [hnext, ← heq] at hopen
        exact (Disk.exec_orElse_ok hopen).trans (Disk.exec_orElse_ok hflock)
    refine ⟨some i, h.nodup, h.unheld, h.made, fun hnone => absurd hnone (Option.some_ne_none i), fun j hj => ?_,
      fun pre j post hsplit => ?_, fun j hj hjh => ?_⟩
    · cases hj
      rw [hm.shared, hm.loc]
      refine ⟨hi, k, ⟨hk, ?_⟩, Disk.locked_setLock _ _ _, hbody i k, hrest.symm⟩
      exact ((h.idle rfl).unheld h.unheld k hk).1
    · rw [hm.others j (hne pre j post hsplit)]
      exact h.through pre j post hsplit
    · have hji : j ≠ i := fun heq => hjh (by rw [heq])
      rw [hm.others j hji, hm.shared]
      obtain hwait | hrefused := h.others j hj (Option.some_ne_none j).symm
      · exact .inl (hwait.mono fun _ hdir => hdir)
      · exact .inr ⟨hrefused.1, fun hnone => absurd hnone (Option.some_ne_none i)⟩

/-- The process is about to give the lock back. -/
def unlocks : FileProg α → Bool
  | .op (.funlock _) _ => true
  | _ => false

theorem FileOp.LeavesLock.unlocks {o : FileOp} (h : o.LeavesLock lockPath) (k : o.Res → FileProg α) :
    unlocks (.op o k) = false := by
  cases o <;> first | rfl | exact h.elim

theorem Closes.unlocks {p : FileProg α} (h : Closes p) : unlocks p = false := by
  cases h <;> rfl

/-- The process that has the lock works on, or gives it back. -/
theorem Serialized.works (h : Serialized lockPath party d order (some i) c)
    (hstep : procStep i c.shared (c.loc i) = some (d', q)) (hm : Moved c c' i d' q) :
    unlocks (c.loc i) = false ∧ Serialized lockPath party d order (some i) c' ∨
      unlocks (c.loc i) = true ∧ Serialized lockPath party d (order ++ [i]) none c' := by
  obtain ⟨hi, k, hwork⟩ := h.busy i rfl
  have hne : ∀ pre j post, order = pre ++ j :: post → j ≠ i := by
    rintro pre j post hsplit rfl
    exact hi (by rw [hsplit]; simp)
  have hrest : Disk.exec q d' = Disk.exec ((party i).prog lockPath) (serially lockPath party d order) := by
    rw [← hwork.rest]
    cases hloc : c.loc i with
    | ret a =>
      rw [hloc] at hstep
      cases hstep
    | op o k =>
      rw [hloc] at hstep
      cases hstep
      rfl
  have hreleasing := hwork.releasing
  cases hloc : c.loc i with
  | ret a =>
    rw [hloc] at hstep
    cases hstep
  | op o kont =>
    rw [hloc] at hstep hreleasing
    cases hstep
    cases hreleasing with
    | op ho hk =>
      obtain ⟨hlocks, hlocked⟩ := hwork.locks.answer ho
      refine .inl ⟨ho.unlocks _, h.nodup, h.unheld, h.made, nofun, fun j hj => ?_, fun pre j post hsplit => ?_,
        fun j hj hjh => ?_⟩
      · cases hj
        rw [hm.shared, hm.loc]
        exact ⟨hi, k, hlocks, hlocked.trans hwork.locked, hk _, hrest⟩
      · rw [hm.others j (hne pre j post hsplit)]
        exact h.through pre j post hsplit
      · have hji : j ≠ i := fun heq => hjh (by rw [heq])
        rw [hm.others j hji, hm.shared]
        obtain hwait | hrefused := h.others j hj hjh
        · exact .inl (hwait.mono fun k' hk' => hlocks.1.trans (hwork.locks.1.symm.trans hk'))
        · exact .inr hrefused
    | unlock hk =>
      have hcloses := hk (Disk.answer (.funlock ⟨k, true⟩) c.shared).1
      have hserial : serially lockPath party d (order ++ [i]) = c.shared.setLock k false := by
        rw [serially_append, ← hrest]
        exact (hcloses.exec _).1
      have hshared : c'.shared = c.shared.setLock k false := hm.shared
      refine .inr ⟨rfl, ?_, ?_, ?_, fun _ => .inl (hshared.trans hserial.symm), nofun, fun pre j post hsplit => ?_,
        fun j hj _ => ?_⟩
      · exact List.nodup_append.mpr ⟨h.nodup, List.nodup_singleton i, fun a ha b hb heq =>
          hi (List.mem_singleton.mp hb ▸ heq ▸ ha)⟩
      · intro k' hk'
        rw [hserial] at hk' ⊢
        have hkk : k' = k := Option.some.inj (hk'.symm.trans hwork.locks.1)
        rw [hkk]
        exact ⟨hwork.locks.2, Disk.locked_setLock _ _ _⟩
      · intro _ hnone
        rw [hserial, Disk.dir_setLock, hwork.locks.1] at hnone
        cases hnone
      · obtain rfl | ⟨mid, x, rfl⟩ := List.eq_nil_or_concat' post
        · obtain ⟨rfl, hlast⟩ := List.append_inj' hsplit rfl
          cases hlast
          rw [hm.loc]
          refine ⟨hcloses, fun u => ?_⟩
          rw [(hcloses.exec (Disk.answer (.funlock ⟨k, true⟩) c.shared).2).2 u]
          exact congrArg Prod.fst hrest
        · rw [← List.cons_append, ← List.append_assoc] at hsplit
          obtain ⟨hfront, -⟩ := List.append_inj' hsplit rfl
          rw [hm.others j (hne pre j mid hfront)]
          exact h.through pre j mid hfront
      · have hji : j ≠ i := fun heq => hj (by rw [heq]; simp)
        rw [hm.others j hji, hshared]
        obtain hwait | hrefused := h.others j (fun hmem => hj (List.mem_append_left _ hmem))
          (by simpa using Ne.symm hji)
        · exact .inl (hwait.mono fun _ hdir => hdir)
        · exact .inr ⟨hrefused.1, fun _ => by simp⟩

/-! ## Runs -/

/-- The processes that give the lock back in a run, in this order. -/
def turns [DecidableEq ι] (c : Threads ι Disk (FileProg α)) : List ι → List ι
  | [] => []
  | i :: is => (if unlocks (c.loc i) then [i] else []) ++ (move procStep c i).elim [] fun c' => turns c' is

section
variable [DecidableEq ι] {is : List ι}

theorem turns_append (hruns : runs procStep c is = some c') (js : List ι) :
    turns c (is ++ js) = turns c is ++ turns c' js := by
  induction is generalizing c with
  | nil =>
    cases hruns
    rfl
  | cons i is ih =>
    obtain ⟨c₁, hmove, hrest⟩ := Option.bind_eq_some_iff.mp hruns
    rw [List.cons_append, turns, turns, hmove, Option.elim_some, Option.elim_some, ih hrest, List.append_assoc]

/-- A process that has finished does not move. -/
theorem turns_unfinished {j : ι} (hj : j ∈ turns c is) (a : α) : c.loc j ≠ .ret a := by
  induction is generalizing c with
  | nil => cases hj
  | cons i is ih =>
    intro hret
    rw [turns, List.mem_append] at hj
    obtain hj | hj := hj
    · split at hj
      · rename_i hunlocks
        rw [List.mem_singleton.mp hj] at hret
        rw [hret] at hunlocks
        cases hunlocks
      · cases hj
    · cases hmove : move procStep c i with
      | none =>
        rw [hmove] at hj
        cases hj
      | some c₁ =>
        rw [hmove] at hj
        obtain ⟨s, t, hstep, hm⟩ := move_cases hmove
        have hne : j ≠ i := by
          rintro rfl
          rw [hret] at hstep
          cases hstep
        exact ih hj ((hm.others j hne).trans hret)

section
variable (hbody : ∀ i k, Releasing lockPath ⟨k, true⟩ ((party i).body ⟨k, true⟩))
include hbody

/-- A call that gives the lock back adds the process that makes it to the serial order; no other call adds any. -/
theorem Serialized.move (h : Serialized lockPath party d order holder c) (hmove : move procStep c i = some c') :
    ∃ holder', Serialized lockPath party d (order ++ if unlocks (c.loc i) then [i] else []) holder' c' := by
  have hsame : unlocks (c.loc i) = false → ∀ {holder'}, Serialized lockPath party d order holder' c' →
      ∃ holder', Serialized lockPath party d (order ++ if unlocks (c.loc i) then [i] else []) holder' c' := by
    intro hnot holder' h'
    rw [hnot, if_neg Bool.false_ne_true, List.append_nil]
    exact ⟨holder', h'⟩
  obtain ⟨d', q, hstep, hm⟩ := move_cases hmove
  by_cases hhold : holder = some i
  · subst hhold
    obtain ⟨hnot, h'⟩ | ⟨hunlocks, h'⟩ := h.works hstep hm
    · exact hsame hnot h'
    · rw [hunlocks, if_pos rfl]
      exact ⟨none, h'⟩
  · by_cases hi : i ∈ order
    · obtain ⟨pre, post, hsplit⟩ := List.append_of_mem hi
      have hthrough := (h.through pre i post hsplit).1
      exact hsame hthrough.unlocks (h.closes hhold (fun hnot => absurd hi hnot) hthrough hstep hm)
    · obtain hwait | hrefused := h.others i hi hhold
      · obtain hq | ⟨k, hk, hq⟩ := hwait
        · exact hsame (by rw [hq]; rfl) (h.opens hi hhold hq hstep hm)
        · obtain ⟨holder', h'⟩ := h.asks hbody hi hhold hk hq hstep hm
          exact hsame (by rw [hq]; rfl) h'
      · exact hsame hrefused.1.1.unlocks (h.closes hhold (fun _ => hrefused) hrefused.1.1 hstep hm)

/-- **Every run of the processes is a serial run**, in the order in which they give the lock back. -/
theorem serialized_runs (h : Serialized lockPath party d order holder c) (hruns : runs procStep c is = some c') :
    ∃ holder', Serialized lockPath party d (order ++ turns c is) holder' c' := by
  induction is generalizing c order holder with
  | nil =>
    cases hruns
    exact ⟨holder, by rwa [turns, List.append_nil]⟩
  | cons i is ih =>
    obtain ⟨c₁, hmove, hrest⟩ := Option.bind_eq_some_iff.mp hruns
    obtain ⟨holder₁, h₁⟩ := h.move hbody hmove
    obtain ⟨holder', h'⟩ := ih h₁ hrest
    refine ⟨holder', ?_⟩
    rw [turns, hmove, Option.elim_some, ← List.append_assoc]
    exact h'

end

/-- **While a process has the lock, no call of another process changes anything.** -/
theorem Serialized.undisturbed {j : ι} (h : Serialized lockPath party d order (some i) c) (hj : j ≠ i)
    (hmove : Library.move procStep c j = some c') : c'.shared = c.shared := by
  obtain ⟨d', q, hstep, hm⟩ := move_cases hmove
  rw [hm.shared]
  obtain ⟨-, k, hwork⟩ := h.busy i rfl
  by_cases hmem : j ∈ order
  · obtain ⟨pre, post, hsplit⟩ := List.append_of_mem hmem
    exact ((h.through pre j post hsplit).1.step hstep).1
  · obtain hwait | hrefused := h.others j hmem (by simpa using Ne.symm hj)
    · obtain hq | ⟨k', hk', hq⟩ := hwait
      · rw [hq] at hstep
        cases hstep
        exact congrArg Prod.snd (Disk.exec_open_some hwork.locks.1 true)
      · have hkk := Option.some.inj (hk'.symm.trans hwork.locks.1)
        rw [hq] at hstep
        cases hstep
        simp only [Disk.answer, Disk.onOpen, hkk, hwork.locked]
        rfl
    · exact (hrefused.1.1.step hstep).1

omit [DecidableEq ι] in
theorem Closes.not_releasing {p : FileProg α} {file : OsFile} (hp : Closes p) : ¬ Releasing lockPath file p := by
  induction hp with
  | ret a => exact fun h => by cases h
  | close f _ ih =>
    intro h
    cases h with
    | op _ hk => exact ih (.ok ()) (hk _)

omit [DecidableEq ι] in
theorem Waiting.not_releasing {p : Party α} {u : Disk} {q : FileProg α} {file : OsFile} (h : Waiting lockPath p u q) :
    ¬ Releasing lockPath file q := by
  have hask : ∀ f, ¬ Releasing lockPath file (askLock p.refused p.body f) := by
    intro f hf
    cases hf with
    | op ho _ => exact ho
  rcases h with rfl | ⟨k, -, rfl⟩
  · intro hq
    cases hq with
    | op _ hk => exact hask ⟨0, true⟩ (hk (.ok ⟨0, true⟩))
  · exact hask _

omit [DecidableEq ι] in
/-- The holder is the one process that has the lock to give back. -/
theorem Serialized.holds {k : ℕ} (h : Serialized lockPath party d order (some i) c)
    (hk : c.shared.dir lockPath = some k) :
    Releasing lockPath ⟨k, true⟩ (c.loc i) ∧ ∀ j, Releasing lockPath ⟨k, true⟩ (c.loc j) → j = i := by
  obtain ⟨-, k', hwork⟩ := h.busy i rfl
  obtain rfl : k' = k := Option.some.inj (hwork.locks.1.symm.trans hk)
  refine ⟨hwork.releasing, fun j hj => ?_⟩
  by_contra hne
  by_cases hmem : j ∈ order
  · obtain ⟨pre, post, hsplit⟩ := List.append_of_mem hmem
    exact (h.through pre j post hsplit).1.not_releasing hj
  · obtain hwait | hrefused := h.others j hmem (by simpa using Ne.symm hne)
    · exact hwait.not_releasing hj
    · exact hrefused.1.1.not_releasing hj

omit [DecidableEq ι] in
/-- If the lock is taken, it is a process that has it. -/
theorem Serialized.held {k : ℕ} (h : Serialized lockPath party d order holder c) (hk : c.shared.dir lockPath = some k)
    (hlocked : c.shared.locked k = true) : ∃ i, holder = some i := by
  cases holder with
  | some i => exact ⟨i, rfl⟩
  | none =>
    have hfree := ((h.idle rfl).unheld h.unheld k hk).2
    rw [hlocked] at hfree
    cases hfree

end

/-- A process that has finished had its turn, or was turned away. -/
theorem Serialized.finished {a : α} (h : Serialized lockPath party d order holder c) (hi : c.loc i = .ret a) :
    (∃ pre post, order = pre ++ i :: post ∧ a = turnAnswer lockPath party d pre i) ∨
      i ∉ order ∧ a = (party i).refused .contended ∧ (holder = none → order ≠ []) := by
  by_cases hmem : i ∈ order
  · obtain ⟨pre, post, hsplit⟩ := List.append_of_mem hmem
    have hthrough := (h.through pre i post hsplit).2 d
    rw [hi] at hthrough
    exact .inl ⟨pre, post, hsplit, hthrough⟩
  · have hhold : holder ≠ some i := by
      intro hsome
      obtain ⟨-, k, hwork⟩ := h.busy i hsome
      have hreleasing := hwork.releasing
      rw [hi] at hreleasing
      cases hreleasing
    obtain hwait | ⟨hrefused, hwon⟩ := h.others i hmem hhold
    · rw [hi] at hwait
      obtain hq | ⟨k, -, hq⟩ := hwait <;> cases hq
    · have hanswer := hrefused.2 d
      rw [hi] at hanswer
      exact .inr ⟨hmem, hanswer, hwon⟩

/-- When all have finished, at least one has had its turn, and the disk is that of the serial run. -/
theorem Serialized.all_finished [Nonempty ι] (h : Serialized lockPath party d order holder c)
    (hall : ∀ i, ∃ a, c.loc i = .ret a) : order ≠ [] ∧ c.shared = serially lockPath party d order := by
  have hnone : holder = none := by
    cases holder with
    | none => rfl
    | some j =>
      obtain ⟨-, k, hwork⟩ := h.busy j rfl
      obtain ⟨a, ha⟩ := hall j
      have hreleasing := hwork.releasing
      rw [ha] at hreleasing
      cases hreleasing
  have hne : order ≠ [] := by
    have hi := hall (Classical.arbitrary ι)
    obtain ⟨a, ha⟩ := hi
    obtain ⟨pre, post, rfl, -⟩ | ⟨-, -, hwon⟩ := h.finished ha
    · simp
    · exact hwon hnone
  refine ⟨hne, ?_⟩
  obtain heq | ⟨hdir, -⟩ := h.idle hnone
  · exact heq
  · exact absurd hdir (h.made hne)

end

end AppendStore.Library
