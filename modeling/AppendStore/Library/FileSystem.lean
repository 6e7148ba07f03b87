import AppendStore.Library.Bytes
import AppendStore.Library.Program

/-! # A file system with failures

Names are bound to inodes, and an open file refers to its inode: renaming or removing a name does
not touch the file behind it. The directory on disk is `names`; creations, renames and removals
that were not yet followed by a directory sync wait in `pending`, in program order, and a running
program sees the directory with all of them applied. Of a file the disk holds the `content` a
running program sees and the content at its last `fsync`.

* `Disk.answer`: what each operation does when it succeeds.
* `Disk.fault k`: the operation fails. It has no effect, except that a failing write may have
  written its first `k` bytes.
-/

namespace AppendStore.Library
set_option autoImplicit false

/-- A path. -/
abbrev Path := String

/-- What a failing system call reports. -/
inductive OsError
  | notExist
  | closed
  | eof
  | contended
  | io
  deriving DecidableEq, Repr

/-- The content of a file, as written and as of the last sync. Bytes that are cut off are cut off
from both. -/
structure File where
  content : Bytes
  synced : Bytes
  deriving DecidableEq, Repr

/-- An open file: its inode, and whether this handle is still open. -/
structure OsFile where
  inode : ℕ
  isOpen : Bool
  deriving DecidableEq, Repr

/-! ## Directory operations -/

/-- The content of a directory. -/
abbrev Names := Path → Option ℕ

/-- A change of a directory. -/
inductive DirOp
  | link (p : Path) (i : ℕ)
  | rename (a b : Path)
  | remove (p : Path)
  deriving DecidableEq, Repr

/-- One directory operation. Where its source is absent, which only a partly persisted sequence can
bring about, it does nothing. -/
def DirOp.apply (o : DirOp) (n : Names) : Names :=
  match o with
  | .link p i => Function.update n p (some i)
  | .rename a b =>
    match n a with
    | none => n
    | some i => Function.update (Function.update n a none) b (some i)
  | .remove p => Function.update n p none

/-- A sequence of directory operations. -/
def applyOps (ops : List DirOp) (n : Names) : Names := ops.foldl (fun n o => o.apply n) n

@[simp] theorem applyOps_nil (n : Names) : applyOps [] n = n := rfl

theorem applyOps_cons (o : DirOp) (ops : List DirOp) (n : Names) :
    applyOps (o :: ops) n = applyOps ops (o.apply n) := rfl

theorem applyOps_append (xs ys : List DirOp) (n : Names) :
    applyOps (xs ++ ys) n = applyOps ys (applyOps xs n) := by
  simp [applyOps]

/-! ## The disk -/

/-- The disk and the state of the kernel above it. -/
structure Disk where
  names : Names
  pending : List DirOp
  files : ℕ → File
  next : ℕ
  locked : ℕ → Bool
  /-- Whether the platform maps a file of the given length. -/
  mappable : ℕ → Bool

namespace Disk

/-- The directory as a running program sees it. -/
def dir (d : Disk) : Names := applyOps d.pending d.names

/-- The bytes at a path. -/
def bytesAt (d : Disk) (p : Path) : Option Bytes := (d.dir p).map fun i => (d.files i).content

/-- Queue a directory operation. -/
def enqueue (d : Disk) (o : DirOp) : Disk := { d with pending := d.pending ++ [o] }

/-- Replace the content of a file. -/
def setContent (d : Disk) (i : ℕ) (b : Bytes) : Disk :=
  { d with files := Function.update d.files i { d.files i with content := b } }

/-- Cut a file off. -/
def cut (d : Disk) (i n : ℕ) : Disk :=
  { d with files := Function.update d.files i ⟨(d.files i).content.take n, (d.files i).synced.take n⟩ }

/-- A new, empty file under a name that was free. -/
def create (d : Disk) (p : Path) : Disk :=
  { d.enqueue (.link p d.next) with
    files := Function.update d.files d.next ⟨[], []⟩
    next := d.next + 1
    locked := Function.update d.locked d.next false }

/-- Make the content of a file durable. -/
def syncFile (d : Disk) (i : ℕ) : Disk :=
  { d with files := Function.update d.files i ⟨(d.files i).content, (d.files i).content⟩ }

/-- Make the directory durable. -/
def syncNames (d : Disk) : Disk := { d with names := d.dir, pending := [] }

/-- Take or drop the lock on a file. -/
def setLock (d : Disk) (i : ℕ) (b : Bool) : Disk := { d with locked := Function.update d.locked i b }

@[simp] theorem dir_enqueue (d : Disk) (o : DirOp) : (d.enqueue o).dir = o.apply d.dir := by
  simp [dir, enqueue, applyOps_append, applyOps_cons]

@[simp] theorem files_enqueue (d : Disk) (o : DirOp) : (d.enqueue o).files = d.files := rfl

@[simp] theorem next_enqueue (d : Disk) (o : DirOp) : (d.enqueue o).next = d.next := rfl

@[simp] theorem locked_enqueue (d : Disk) (o : DirOp) : (d.enqueue o).locked = d.locked := rfl

@[simp] theorem mappable_enqueue (d : Disk) (o : DirOp) : (d.enqueue o).mappable = d.mappable := rfl

@[simp] theorem dir_setContent (d : Disk) (i : ℕ) (b : Bytes) : (d.setContent i b).dir = d.dir := rfl

@[simp] theorem next_setContent (d : Disk) (i : ℕ) (b : Bytes) : (d.setContent i b).next = d.next := rfl

@[simp] theorem locked_setContent (d : Disk) (i : ℕ) (b : Bytes) :
    (d.setContent i b).locked = d.locked := rfl

@[simp] theorem mappable_setContent (d : Disk) (i : ℕ) (b : Bytes) :
    (d.setContent i b).mappable = d.mappable := rfl

@[simp] theorem content_setContent (d : Disk) (i : ℕ) (b : Bytes) :
    ((d.setContent i b).files i).content = b := by
  simp [setContent]

theorem files_setContent_ne (d : Disk) (i j : ℕ) (b : Bytes) (h : j ≠ i) :
    (d.setContent i b).files j = d.files j := by
  simp [setContent, Function.update_of_ne h]

theorem setContent_self (d : Disk) (i : ℕ) : d.setContent i (d.files i).content = d := by
  simp [setContent]

theorem setContent_setContent (d : Disk) (i : ℕ) (b c : Bytes) :
    (d.setContent i b).setContent i c = d.setContent i c := by
  simp [setContent]

@[simp] theorem dir_cut (d : Disk) (i n : ℕ) : (d.cut i n).dir = d.dir := rfl

@[simp] theorem next_cut (d : Disk) (i n : ℕ) : (d.cut i n).next = d.next := rfl

@[simp] theorem content_cut (d : Disk) (i n : ℕ) :
    ((d.cut i n).files i).content = (d.files i).content.take n := by
  simp [cut]

@[simp] theorem synced_cut (d : Disk) (i n : ℕ) :
    ((d.cut i n).files i).synced = (d.files i).synced.take n := by
  simp [cut]

@[simp] theorem dir_create (d : Disk) (p : Path) :
    (d.create p).dir = Function.update d.dir p (some d.next) := by
  change applyOps (d.pending ++ [_]) d.names = _
  rw [applyOps_append]
  rfl

@[simp] theorem next_create (d : Disk) (p : Path) : (d.create p).next = d.next + 1 := rfl

@[simp] theorem locked_create_next (d : Disk) (p : Path) : (d.create p).locked d.next = false := by
  simp [create]

theorem locked_create_ne (d : Disk) (p : Path) (i : ℕ) (h : i ≠ d.next) :
    (d.create p).locked i = d.locked i := by
  simp [create, Function.update_of_ne h]

@[simp] theorem mappable_create (d : Disk) (p : Path) : (d.create p).mappable = d.mappable := rfl

@[simp] theorem files_create_next (d : Disk) (p : Path) : (d.create p).files d.next = ⟨[], []⟩ := by
  simp [create]

theorem files_create_ne (d : Disk) (p : Path) (i : ℕ) (h : i ≠ d.next) :
    (d.create p).files i = d.files i := by
  simp [create, Function.update_of_ne h]

@[simp] theorem dir_syncFile (d : Disk) (i : ℕ) : (d.syncFile i).dir = d.dir := rfl

@[simp] theorem next_syncFile (d : Disk) (i : ℕ) : (d.syncFile i).next = d.next := rfl

@[simp] theorem locked_syncFile (d : Disk) (i : ℕ) : (d.syncFile i).locked = d.locked := rfl

@[simp] theorem mappable_syncFile (d : Disk) (i : ℕ) : (d.syncFile i).mappable = d.mappable := rfl

@[simp] theorem content_syncFile (d : Disk) (i j : ℕ) :
    ((d.syncFile i).files j).content = (d.files j).content := by
  by_cases h : j = i
  · subst h
    simp [syncFile]
  · simp [syncFile, Function.update_of_ne h]

@[simp] theorem synced_syncFile (d : Disk) (i : ℕ) :
    ((d.syncFile i).files i).synced = (d.files i).content := by
  simp [syncFile]

@[simp] theorem dir_syncNames (d : Disk) : d.syncNames.dir = d.dir := rfl

@[simp] theorem files_syncNames (d : Disk) : d.syncNames.files = d.files := rfl

@[simp] theorem next_syncNames (d : Disk) : d.syncNames.next = d.next := rfl

@[simp] theorem locked_syncNames (d : Disk) : d.syncNames.locked = d.locked := rfl

@[simp] theorem mappable_syncNames (d : Disk) : d.syncNames.mappable = d.mappable := rfl

@[simp] theorem dir_setLock (d : Disk) (i : ℕ) (b : Bool) : (d.setLock i b).dir = d.dir := rfl

@[simp] theorem files_setLock (d : Disk) (i : ℕ) (b : Bool) : (d.setLock i b).files = d.files := rfl

@[simp] theorem next_setLock (d : Disk) (i : ℕ) (b : Bool) : (d.setLock i b).next = d.next := rfl

@[simp] theorem mappable_setLock (d : Disk) (i : ℕ) (b : Bool) :
    (d.setLock i b).mappable = d.mappable := rfl

@[simp] theorem locked_setLock (d : Disk) (i : ℕ) (b : Bool) : (d.setLock i b).locked i = b := by
  simp [setLock]

theorem locked_setLock_ne (d : Disk) (i : ℕ) (b : Bool) (j : ℕ) (h : j ≠ i) :
    (d.setLock i b).locked j = d.locked j :=
  Function.update_of_ne h _ _

/-! ## Disks without hard links -/

/-- Every name is bound to an inode of its own. -/
structure Sound (d : Disk) : Prop where
  bounded : ∀ p i, d.dir p = some i → i < d.next
  distinct : ∀ p q i, d.dir p = some i → d.dir q = some i → p = q

/-- A disk without files. -/
def blank : Disk := ⟨fun _ => none, [], fun _ => ⟨[], []⟩, 0, fun _ => false, fun _ => false⟩

theorem blank_sound : blank.Sound := by
  have hnone : ∀ p i, blank.dir p ≠ some i := fun p i h => Option.some_ne_none i h.symm
  exact ⟨fun p i h => absurd h (hnone p i), fun p q i h => absurd h (hnone p i)⟩

theorem Sound.of_dir {d d' : Disk} (h : d.Sound) (hdir : d'.dir = d.dir) (hnext : d'.next = d.next) :
    d'.Sound := by
  refine ⟨?_, ?_⟩
  · rw [hdir, hnext]
    exact h.bounded
  · rw [hdir]
    exact h.distinct

theorem Sound.create {d : Disk} (h : d.Sound) (p : Path) : (d.create p).Sound := by
  have hfresh : ∀ q, d.dir q ≠ some d.next := by
    intro q hq
    exact absurd (h.bounded q _ hq) (Nat.lt_irrefl _)
  refine ⟨?_, ?_⟩
  · intro q i hq
    rw [dir_create, Function.update_apply] at hq
    rw [next_create]
    split at hq
    · cases hq
      exact Nat.lt_succ_self _
    · exact Nat.lt_succ_of_lt (h.bounded q i hq)
  · intro q r i hq hr
    rw [dir_create, Function.update_apply] at hq hr
    split at hq <;> split at hr
    · rename_i h1 h2
      rw [h1, h2]
    · cases hq
      exact absurd hr (hfresh r)
    · cases hr
      exact absurd hq (hfresh q)
    · exact h.distinct q r i hq hr

theorem Sound.remove {d : Disk} (h : d.Sound) (p : Path) : (d.enqueue (.remove p)).Sound := by
  have hsub : ∀ q i, (d.enqueue (.remove p)).dir q = some i → d.dir q = some i := by
    intro q i hq
    rw [dir_enqueue, DirOp.apply, Function.update_apply] at hq
    split at hq
    · cases hq
    · exact hq
  exact ⟨fun q i hq => h.bounded q i (hsub q i hq),
    fun q r i hq hr => h.distinct q r i (hsub q i hq) (hsub r i hr)⟩

/-- A rename moves one binding; the others keep their inodes. -/
theorem dir_rename {d : Disk} {a : Path} {i : ℕ} (ha : d.dir a = some i) (b : Path) :
    (d.enqueue (.rename a b)).dir = Function.update (Function.update d.dir a none) b (some i) := by
  rw [dir_enqueue, DirOp.apply, ha]

theorem Sound.rename {d : Disk} (h : d.Sound) (a b : Path) : (d.enqueue (.rename a b)).Sound := by
  cases ha : d.dir a with
  | none =>
    refine h.of_dir ?_ rfl
    rw [dir_enqueue, DirOp.apply, ha]
  | some i =>
    have hcase : ∀ q j, (d.enqueue (.rename a b)).dir q = some j →
        (q = b ∧ j = i) ∨ (q ≠ a ∧ d.dir q = some j) := by
      intro q j hq
      rw [dir_rename ha, Function.update_apply, Function.update_apply] at hq
      split at hq
      · rename_i hqb
        cases hq
        exact .inl ⟨hqb, rfl⟩
      · split at hq
        · cases hq
        · rename_i hqa
          exact .inr ⟨hqa, hq⟩
    refine ⟨?_, ?_⟩
    · intro q j hq
      rcases hcase q j hq with ⟨-, rfl⟩ | ⟨-, hj⟩
      · exact h.bounded a j ha
      · exact h.bounded q j hj
    · intro q r j hq hr
      rcases hcase q j hq with ⟨rfl, rfl⟩ | ⟨hqa, hj⟩ <;> rcases hcase r j hr with ⟨rfl, hji⟩ | ⟨hra, hj'⟩
      · rfl
      · exact absurd (h.distinct r a j hj' ha) hra
      · subst hji
        exact absurd (h.distinct q a j hj ha) hqa
      · exact h.distinct q r j hj hj'

end Disk

/-! ## Changes of one file -/

/-- Two disks that differ at most in the content of one file. -/
structure Touched (d d' : Disk) (i : ℕ) : Prop where
  names : d'.names = d.names
  pending : d'.pending = d.pending
  next : d'.next = d.next
  locked : d'.locked = d.locked
  mappable : d'.mappable = d.mappable
  others : ∀ j, j ≠ i → d'.files j = d.files j

theorem Touched.dir {d d' : Disk} {i : ℕ} (h : Touched d d' i) : d'.dir = d.dir := by
  rw [Disk.dir, Disk.dir, h.names, h.pending]

theorem touched_refl (d : Disk) (i : ℕ) : Touched d d i := ⟨rfl, rfl, rfl, rfl, rfl, fun _ _ => rfl⟩

theorem Touched.trans {d d' d'' : Disk} {i : ℕ} (h : Touched d d' i) (h' : Touched d' d'' i) : Touched d d'' i :=
  ⟨h'.names.trans h.names, h'.pending.trans h.pending, h'.next.trans h.next, h'.locked.trans h.locked,
    h'.mappable.trans h.mappable, fun j hj => (h'.others j hj).trans (h.others j hj)⟩

theorem touched_setContent (d : Disk) (i : ℕ) (b : Bytes) : Touched d (d.setContent i b) i :=
  ⟨rfl, rfl, rfl, rfl, rfl, fun j hj => d.files_setContent_ne i j b hj⟩

theorem touched_cut (d : Disk) (i n : ℕ) : Touched d (d.cut i n) i :=
  ⟨rfl, rfl, rfl, rfl, rfl, fun _ hj => Function.update_of_ne hj _ _⟩

theorem touched_syncFile (d : Disk) (i : ℕ) : Touched d (d.syncFile i) i :=
  ⟨rfl, rfl, rfl, rfl, rfl, fun _ hj => Function.update_of_ne hj _ _⟩

/-! ## Operations -/

/-- The system calls. -/
inductive FileOp
  | stat (p : Path)
  | openFile (p : Path) (create trunc : Bool)
  | fstat (f : OsFile)
  | readAt (f : OsFile) (off n : ℕ)
  | seek (f : OsFile) (off : ℕ)
  | readFrom (f : OsFile) (off : ℕ)
  | writeAt (f : OsFile) (off : ℕ) (b : Bytes)
  | truncate (f : OsFile) (n : ℕ)
  | fsync (f : OsFile)
  | close (f : OsFile)
  | rename (a b : Path)
  | remove (p : Path)
  | syncDir (p : Path)
  | mmap (f : OsFile) (n : ℕ)
  | mapped (f : OsFile) (lo hi : ℕ)
  | flock (f : OsFile)
  | funlock (f : OsFile)
  deriving DecidableEq, Repr

/-- The answers of the system calls. Bytes read through a memory map come without an error. -/
def FileOp.Res : FileOp → Type
  | .openFile _ _ _ => Except OsError OsFile
  | .fstat _ => Except OsError ℕ
  | .readAt _ _ _ => Except OsError Bytes
  | .readFrom _ _ => Except OsError Bytes
  | .mapped _ _ _ => Bytes
  | _ => Except OsError Unit

/-- A program of system calls. -/
abbrev FileProg := Prog FileOp FileOp.Res

namespace Disk

/-- An operation on an open file; on a closed one it fails without effect. -/
def onOpen {α : Type} (f : OsFile) (d : Disk) (k : Except OsError α × Disk) : Except OsError α × Disk :=
  if f.isOpen then k else (.error .closed, d)

@[simp] theorem onOpen_open {α : Type} {f : OsFile} (h : f.isOpen = true) (d : Disk)
    (k : Except OsError α × Disk) : onOpen f d k = k := by
  simp [onOpen, h]

/-- The operation succeeds as far as the state of the disk lets it. -/
def answer (o : FileOp) (d : Disk) : o.Res × Disk :=
  match o with
  | .stat p => (if (d.dir p).isSome then .ok () else .error .notExist, d)
  | .openFile p create trunc =>
    match d.dir p with
    | some i => (.ok ⟨i, true⟩, if trunc then d.setContent i [] else d)
    | none => if create then (.ok ⟨d.next, true⟩, d.create p) else (.error .notExist, d)
  | .fstat f => onOpen f d (.ok (d.files f.inode).content.length, d)
  | .readAt f off n =>
    onOpen f d (if n = 0 ∨ off + n ≤ (d.files f.inode).content.length then
      .ok (slice (d.files f.inode).content off (off + n)) else .error .eof, d)
  | .seek f _ => onOpen f d (.ok (), d)
  | .readFrom f off => onOpen f d (.ok ((d.files f.inode).content.drop off), d)
  | .writeAt f off b => onOpen f d (.ok (), d.setContent f.inode (writeAt (d.files f.inode).content off b))
  | .truncate f n =>
    onOpen f d (.ok (), (d.cut f.inode n).setContent f.inode
      ((d.files f.inode).content.take n ++
        List.replicate (n - (d.files f.inode).content.length) 0))
  | .fsync f => onOpen f d (.ok (), d.syncFile f.inode)
  | .close f => onOpen f d (.ok (), d)
  | .rename a b => if (d.dir a).isSome then (.ok (), d.enqueue (.rename a b)) else (.error .notExist, d)
  | .remove p => if (d.dir p).isSome then (.ok (), d.enqueue (.remove p)) else (.error .notExist, d)
  | .syncDir _ => (.ok (), d.syncNames)
  | .mmap f n => onOpen f d (if d.mappable n then .ok () else .error .io, d)
  | .mapped f lo hi => (slice (d.files f.inode).content lo hi, d)
  | .flock f =>
    onOpen f d (if d.locked f.inode then (.error .contended, d)
      else (.ok (), d.setLock f.inode true))
  | .funlock f => onOpen f d (.ok (), d.setLock f.inode false)

/-- The operation fails. A write may have got as far as its first `k` bytes. -/
def fault (k : ℕ) (o : FileOp) (d : Disk) : o.Res × Disk :=
  match o with
  | .stat _ => (.error .io, d)
  | .openFile _ _ _ => (.error .io, d)
  | .fstat _ => (.error .io, d)
  | .readAt _ _ _ => (.error .io, d)
  | .seek _ _ => (.error .io, d)
  | .readFrom _ _ => (.error .io, d)
  | .writeAt f off b =>
    onOpen f d (.error .io, d.setContent f.inode (writeAt (d.files f.inode).content off (b.take k)))
  | .truncate _ _ => (.error .io, d)
  | .fsync _ => (.error .io, d)
  | .close _ => (.error .io, d)
  | .rename _ _ => (.error .io, d)
  | .remove _ => (.error .io, d)
  | .syncDir _ => (.error .io, d)
  | .mmap _ _ => (.error .io, d)
  | .mapped f lo hi => (slice (d.files f.inode).content lo hi, d)
  | .flock _ => (.error .io, d)
  | .funlock _ => (.error .io, d)

/-- Run a program in which every operation succeeds as far as the disk lets it. -/
def exec {α : Type} (p : FileProg α) (d : Disk) : α × Disk := p.run answer d

/-! ## The calls by name -/

end Disk

namespace Sys

def call (o : FileOp) : FileProg o.Res := Prog.perform o

def stat (p : Path) : FileProg (Except OsError Unit) := call (.stat p)
def openFile (p : Path) (create trunc : Bool) : FileProg (Except OsError OsFile) :=
  call (.openFile p create trunc)
def fstat (f : OsFile) : FileProg (Except OsError ℕ) := call (.fstat f)
def readAt (f : OsFile) (off n : ℕ) : FileProg (Except OsError Bytes) := call (.readAt f off n)
def seek (f : OsFile) (off : ℕ) : FileProg (Except OsError Unit) := call (.seek f off)
def readFrom (f : OsFile) (off : ℕ) : FileProg (Except OsError Bytes) := call (.readFrom f off)
def writeAt (f : OsFile) (off : ℕ) (b : Bytes) : FileProg (Except OsError Unit) :=
  call (.writeAt f off b)
def truncate (f : OsFile) (n : ℕ) : FileProg (Except OsError Unit) := call (.truncate f n)
def fsync (f : OsFile) : FileProg (Except OsError Unit) := call (.fsync f)
def close (f : OsFile) : FileProg (Except OsError Unit) := call (.close f)
def rename (a b : Path) : FileProg (Except OsError Unit) := call (.rename a b)
def remove (p : Path) : FileProg (Except OsError Unit) := call (.remove p)
def syncDir (p : Path) : FileProg (Except OsError Unit) := call (.syncDir p)
def mmap (f : OsFile) (n : ℕ) : FileProg (Except OsError Unit) := call (.mmap f n)
def mapped (f : OsFile) (lo hi : ℕ) : FileProg Bytes := call (.mapped f lo hi)
def flock (f : OsFile) : FileProg (Except OsError Unit) := call (.flock f)
def funlock (f : OsFile) : FileProg (Except OsError Unit) := call (.funlock f)

end Sys

namespace Disk

section
variable {α β : Type} {d d' : Disk}

@[simp] theorem exec_pure (a : α) (d : Disk) : exec (pure a) d = (a, d) := rfl

@[simp] theorem exec_bind (p : FileProg α) (f : α → FileProg β) (d : Disk) :
    exec (p >>= f) d = exec (f (exec p d).1) (exec p d).2 :=
  Prog.run_bind answer p f d

theorem exec_bind_eq {p : FileProg α} {a : α} (h : exec p d = (a, d')) (f : α → FileProg β) :
    exec (p >>= f) d = exec (f a) d' := by
  rw [exec_bind, h]

section
variable {ε : Type} {p : FileProg (Except ε α)} {bad : ε → FileProg β} {good : α → FileProg β}

theorem exec_orElse_ok {a : α} (h : exec p d = (.ok a, d')) :
    exec (p.orElse bad good) d = exec (good a) d' :=
  Prog.run_orElse_ok answer h

theorem exec_orElse_error {e : ε} (h : exec p d = (.error e, d')) :
    exec (p.orElse bad good) d = exec (bad e) d' :=
  Prog.run_orElse_error answer h

theorem exec_orElse_congr {q : FileProg (Except ε α)} (h : exec p d = exec q d') :
    exec (p.orElse bad good) d = exec (q.orElse bad good) d' :=
  Prog.run_orElse_congr answer h

variable {next : α → FileProg (Except ε β)}

theorem exec_andThen_ok {a : α} (h : exec p d = (.ok a, d')) :
    exec (p.andThen next) d = exec (next a) d' :=
  Prog.run_andThen_ok answer h

theorem exec_andThen_error {e : ε} (h : exec p d = (.error e, d')) :
    exec (p.andThen next) d = (.error e, d') :=
  Prog.run_andThen_error answer h

end

section
variable {ε τ : Type} {p : FileProg (Except ε α × τ)} {bad : ε → τ → FileProg β}
  {good : α → τ → FileProg β} {x : τ}

theorem exec_orElseState_ok {a : α} (h : exec p d = ((.ok a, x), d')) :
    exec (p.orElseState bad good) d = exec (good a x) d' :=
  Prog.run_orElseState_ok answer h

theorem exec_orElseState_error {e : ε} (h : exec p d = ((.error e, x), d')) :
    exec (p.orElseState bad good) d = exec (bad e x) d' :=
  Prog.run_orElseState_error answer h

end

/-! Each call under the circumstances in which its outcome is known. -/

theorem exec_stat_some {p : Path} {i : ℕ} (h : d.dir p = some i) :
    exec (Sys.stat p) d = (.ok (), d) := by
  change answer (.stat p) d = _
  simp only [answer, h]
  rfl

theorem exec_stat_none {p : Path} (h : d.dir p = none) :
    exec (Sys.stat p) d = (.error .notExist, d) := by
  change answer (.stat p) d = _
  simp only [answer, h]
  rfl

theorem exec_open_some {p : Path} {i : ℕ} (h : d.dir p = some i) (c : Bool) :
    exec (Sys.openFile p c false) d = (.ok ⟨i, true⟩, d) := by
  change answer (.openFile p c false) d = _
  simp only [answer, h]
  rfl

theorem exec_open_trunc {p : Path} {i : ℕ} (h : d.dir p = some i) (c : Bool) :
    exec (Sys.openFile p c true) d = (.ok ⟨i, true⟩, d.setContent i []) := by
  change answer (.openFile p c true) d = _
  simp only [answer, h]
  rfl

theorem exec_open_none {p : Path} (h : d.dir p = none) (t : Bool) :
    exec (Sys.openFile p true t) d = (.ok ⟨d.next, true⟩, d.create p) := by
  change answer (.openFile p true t) d = _
  simp only [answer, h]
  rfl

theorem exec_remove_some {p : Path} {i : ℕ} (h : d.dir p = some i) :
    exec (Sys.remove p) d = (.ok (), d.enqueue (.remove p)) := by
  change answer (.remove p) d = _
  simp only [answer, h]
  rfl

theorem exec_remove_none {p : Path} (h : d.dir p = none) :
    exec (Sys.remove p) d = (.error .notExist, d) := by
  change answer (.remove p) d = _
  simp only [answer, h]
  rfl

theorem exec_rename_some {a : Path} {i : ℕ} (h : d.dir a = some i) (b : Path) :
    exec (Sys.rename a b) d = (.ok (), d.enqueue (.rename a b)) := by
  change answer (.rename a b) d = _
  simp only [answer, h]
  rfl

@[simp] theorem exec_syncDir (p : Path) (d : Disk) : exec (Sys.syncDir p) d = (.ok (), d.syncNames) := rfl

@[simp] theorem exec_mapped (f : OsFile) (lo hi : ℕ) (d : Disk) :
    exec (Sys.mapped f lo hi) d = (slice (d.files f.inode).content lo hi, d) := rfl

section
variable {f : OsFile} (hf : f.isOpen = true)
include hf

theorem exec_fstat (d : Disk) : exec (Sys.fstat f) d = (.ok (d.files f.inode).content.length, d) :=
  onOpen_open hf _ _

theorem exec_seek (d : Disk) (off : ℕ) : exec (Sys.seek f off) d = (.ok (), d) :=
  onOpen_open hf _ _

theorem exec_readFrom (d : Disk) (off : ℕ) :
    exec (Sys.readFrom f off) d = (.ok ((d.files f.inode).content.drop off), d) :=
  onOpen_open hf _ _

theorem exec_readAt (d : Disk) (off n : ℕ) (h : off + n ≤ (d.files f.inode).content.length) :
    exec (Sys.readAt f off n) d = (.ok (slice (d.files f.inode).content off (off + n)), d) := by
  refine (onOpen_open hf _ _).trans ?_
  rw [if_pos (.inr h)]

theorem exec_readAt_short (d : Disk) (off n : ℕ) (hn : n ≠ 0)
    (h : (d.files f.inode).content.length < off + n) :
    exec (Sys.readAt f off n) d = (.error .eof, d) := by
  refine (onOpen_open hf _ _).trans ?_
  rw [if_neg (by omega)]

theorem exec_writeAt (d : Disk) (off : ℕ) (b : Bytes) :
    exec (Sys.writeAt f off b) d =
      (.ok (), d.setContent f.inode (writeAt (d.files f.inode).content off b)) :=
  onOpen_open hf _ _

theorem exec_truncate (d : Disk) (n : ℕ) (h : n ≤ (d.files f.inode).content.length) :
    exec (Sys.truncate f n) d = (.ok (), d.cut f.inode n) := by
  have hself : (d.cut f.inode n).setContent f.inode ((d.files f.inode).content.take n) = d.cut f.inode n := by
    simp [cut, setContent]
  refine (onOpen_open hf d _).trans ?_
  rw [Nat.sub_eq_zero_of_le h, List.replicate_zero, List.append_nil, hself]

theorem exec_fsync (d : Disk) : exec (Sys.fsync f) d = (.ok (), d.syncFile f.inode) :=
  onOpen_open hf _ _

theorem exec_close (d : Disk) : exec (Sys.close f) d = (.ok (), d) :=
  onOpen_open hf _ _

theorem exec_mmap (d : Disk) (n : ℕ) :
    exec (Sys.mmap f n) d = (if d.mappable n then .ok () else .error .io, d) :=
  onOpen_open hf _ _

theorem exec_flock (d : Disk) (h : d.locked f.inode = false) :
    exec (Sys.flock f) d = (.ok (), d.setLock f.inode true) := by
  refine (onOpen_open hf _ _).trans ?_
  rw [h]
  rfl

theorem exec_funlock (d : Disk) : exec (Sys.funlock f) d = (.ok (), d.setLock f.inode false) :=
  onOpen_open hf _ _

end

end

/-! ## No operation makes a hard link -/

theorem sound_onOpen {α : Type} {f : OsFile} {d : Disk} {k : Except OsError α × Disk} (h : d.Sound)
    (hk : k.2.Sound) : (onOpen f d k).2.Sound := by
  unfold onOpen
  split
  · exact hk
  · exact h

theorem Sound.answer {d : Disk} (h : d.Sound) (o : FileOp) : (answer o d).2.Sound := by
  cases o with
  | stat p => exact h
  | openFile p create trunc =>
    simp only [Disk.answer]
    split
    · split
      · exact h.of_dir rfl rfl
      · exact h
    · split
      · exact h.create p
      · exact h
  | fstat f => exact sound_onOpen h h
  | readAt f off n => exact sound_onOpen h h
  | seek f off => exact sound_onOpen h h
  | readFrom f off => exact sound_onOpen h h
  | writeAt f off b => exact sound_onOpen h (h.of_dir rfl rfl)
  | truncate f n => exact sound_onOpen h (h.of_dir rfl rfl)
  | fsync f => exact sound_onOpen h (h.of_dir rfl rfl)
  | close f => exact sound_onOpen h h
  | rename a b =>
    simp only [Disk.answer]
    split
    · exact h.rename a b
    · exact h
  | remove p =>
    simp only [Disk.answer]
    split
    · exact h.remove p
    · exact h
  | syncDir p => exact h.of_dir rfl rfl
  | mmap f n => exact sound_onOpen h h
  | mapped f lo hi => exact h
  | flock f =>
    refine sound_onOpen h ?_
    split
    · exact h
    · exact h.of_dir rfl rfl
  | funlock f => exact sound_onOpen h (h.of_dir rfl rfl)

theorem Sound.exec {α : Type} {d : Disk} (h : d.Sound) (p : FileProg α) : (exec p d).2.Sound := by
  unfold Disk.exec
  induction p generalizing d with
  | ret a => exact h
  | op o k ih => exact ih _ (h.answer o)

/-- The faults still to come: one entry an operation, `some k` for a failure. -/
abbrev Faults := List (Option ℕ)

/-- Answer an operation and use up one entry of the faults. -/
def answerFaulty (o : FileOp) (s : Disk × Faults) : o.Res × (Disk × Faults) :=
  match s.2 with
  | some k :: rest => ((fault k o s.1).1, (fault k o s.1).2, rest)
  | none :: rest => ((answer o s.1).1, (answer o s.1).2, rest)
  | [] => ((answer o s.1).1, (answer o s.1).2, [])

/-- Run a program under a list of faults; when the list is used up, nothing fails any more. -/
def execFaulty {α : Type} (p : FileProg α) (d : Disk) (faults : Faults) : α × Disk × Faults :=
  p.run answerFaulty (d, faults)

/-- Without faults a faulty run is an ordinary one. -/
theorem execFaulty_nil {α : Type} (p : FileProg α) (d : Disk) :
    execFaulty p d [] = ((exec p d).1, (exec p d).2, []) := by
  unfold execFaulty exec
  induction p generalizing d with
  | ret a => rfl
  | op o k ih => exact ih _ _

end Disk

end AppendStore.Library
