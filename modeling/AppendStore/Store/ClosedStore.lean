import AppendStore.Store.Concurrent

/-! # Calls that meet a `Close`

A call that passed its check before `Close` set the flag still runs its body when `Close` is done. A
mutation, a sync or a read then finds a closed handle, and no operation it may make changes the disk
(`Harmless`). `Compact` does not go through the handle alone: it removes, creates and renames files by
their names, whatever became of the lock (`compact_after_close`).

If no `Compact` is between its check and its lock at the moment `Close` gets the lock, the disk is left
alone from the moment on at which `Close` has released the file lock, however the other calls and other
processes move (`disk_untouched_after_close`).
-/

namespace AppendStore
open Library
set_option autoImplicit false

/-! ## Programs over a closed handle -/

/-- The operation leaves every disk as it is. -/
def Harmless (o : FileOp) : Prop := ∀ d, (Disk.answer o d).2 = d

section
variable {f : OsFile} (hf : f.isOpen = false)
include hf

theorem harmless_writeAt (off : ℕ) (b : Bytes) : Harmless (.writeAt f off b) := fun d => by
  simp [Disk.answer, Disk.onOpen, hf]

theorem harmless_fsync : Harmless (.fsync f) := fun d => by simp [Disk.answer, Disk.onOpen, hf]

end

theorem harmless_mmap (f : OsFile) (n : ℕ) : Harmless (.mmap f n) := fun d => by
  simp only [Disk.answer, Disk.onOpen]
  split <;> rfl

theorem harmless_readAt (f : OsFile) (off n : ℕ) : Harmless (.readAt f off n) := fun d => by
  simp only [Disk.answer, Disk.onOpen]
  split <;> rfl

theorem harmless_mapped (f : OsFile) (lo hi : ℕ) : Harmless (.mapped f lo hi) := fun _ => rfl

/-- A program of harmless operations leaves the disk as it is. -/
theorem exec_harmless {α : Type} {p : FileProg α} {Q : α → Prop} (h : p.Each Harmless Q) (d : Disk) :
    (Disk.exec p d).2 = d :=
  (h.run (fun _ d' ho hd' => (ho d').trans hd') (I := fun d' => d' = d) rfl).1

section
variable {l : AppendLog} (hl : l.file.isOpen = false)

theorem each_remap (l : AppendLog) : (l.remap).Each Harmless fun l' => l'.file = l.file := by
  unfold AppendLog.remap
  split
  · exact .ret rfl
  · dsimp only
    split
    · exact .ret rfl
    · exact Prog.each_orElse (Prog.each_perform (harmless_mmap _ _)) (fun _ _ => .ret rfl) fun _ _ => .ret rfl

include hl

theorem each_append (key value : Bytes) (deleted : Bool) (attributes : AttributeRange) (extensions : Bytes) :
    (l.append key value deleted attributes extensions).Each Harmless fun r => r.2.file.isOpen = false := by
  unfold AppendLog.append
  split
  · exact .ret hl
  split
  · exact .ret hl
  split
  · exact .ret hl
  dsimp only
  refine Prog.each_orElse (Prog.each_perform (harmless_writeAt hl _ _)) (fun _ _ => .ret hl) fun _ _ => ?_
  split
  · refine Prog.each_bind (each_remap _) fun l' hfile => .ret ?_
    dsimp only
    rw [hfile]
    exact hl
  · exact .ret hl

theorem each_syncLog : (l.sync).Each Harmless fun _ => True :=
  Prog.each_orElse (Prog.each_perform (harmless_fsync hl)) (fun _ _ => .ret trivial) fun _ _ => .ret trivial

end

theorem each_readRecordFromFile (l : AppendLog) (recordOffset storedSize : ℕ) (scratch : Bytes) :
    (l.readRecordFromFile recordOffset storedSize scratch).Each Harmless fun _ => True :=
  Prog.each_orElse (Prog.each_perform (harmless_readAt _ _ _)) (fun _ _ => .ret trivial) fun _ _ => .ret trivial

theorem each_readRecordAt (l : AppendLog) (recordOffset storedSize : ℕ) :
    (l.readRecordAt recordOffset storedSize).Each Harmless fun _ => True := by
  unfold AppendLog.readRecordAt
  split
  · exact .ret trivial
  split
  · exact Prog.each_bind (Prog.each_perform (harmless_mapped _ _ _)) fun _ _ => .ret trivial
  · exact Prog.each_bind (each_readRecordFromFile l _ _ _) fun _ _ => .ret trivial

theorem each_readRecordAtInto (l : AppendLog) (recordOffset storedSize : ℕ) (scratch : Bytes) :
    (l.readRecordAtInto recordOffset storedSize scratch).Each Harmless fun _ => True := by
  unfold AppendLog.readRecordAtInto
  split
  · exact .ret trivial
  split
  · refine Prog.each_bind (Prog.each_perform (harmless_mapped _ _ _)) fun _ _ => ?_
    split
    · exact .ret trivial
    · exact .ret trivial
  · exact each_readRecordFromFile l _ _ _

/-! ## The bodies -/

section
variable {s : Store}

theorem each_syncMutation (hs : s.log.file.isOpen = false) (context : String) :
    (s.syncMutation context).Each Harmless fun r => r.2.log.file.isOpen = false := by
  unfold Store.syncMutation
  split
  · exact Prog.each_orElse (each_syncLog hs) (fun _ _ => .ret hs) fun _ _ => .ret hs
  · exact .ret hs

/-- The body of every call but `Compact` and `Close` leaves the disk and the handle alone. -/
theorem each_body (hs : s.log.file.isOpen = false) {w : Writer} (hcompact : w ≠ .compact) (hclose : w ≠ .close) :
    (w.body s).Each Harmless fun r => r.2.log.file.isOpen = false := by
  cases w with
  | compact => exact absurd rfl hcompact
  | close => exact absurd rfl hclose
  | sync => exact Prog.each_bind (each_syncLog hs) fun _ _ => .ret hs
  | put key value options =>
    refine Prog.each_bind (Q := fun r : Except Err Unit × Store => r.2.log.file.isOpen = false) ?_
      fun r hr => .ret hr
    unfold Store.put Store.ifWritable
    split
    · exact .ret hs
    split
    · exact .ret hs
    exact Prog.each_orElseState (each_append hs _ _ _ _ _) (fun _ _ hl => .ret hl)
      fun _ _ hl => each_syncMutation hl _
  | delete key =>
    refine Prog.each_bind (Q := fun r : Except Err Unit × Store => r.2.log.file.isOpen = false) ?_
      fun r hr => .ret hr
    unfold Store.delete Store.ifWritable
    split
    · exact .ret hs
    split
    · exact .ret hs
    split
    · exact .ret hs
    exact Prog.each_orElseState (each_append hs _ _ _ _ _) (fun _ _ hl => .ret hl)
      fun _ _ hl => each_syncMutation hl _

/-- What `Close` leaves of the store, whatever its calls report. -/
structure ClosedFrom (s s' : Store) : Prop where
  handle : s'.log.file.isOpen = false
  path : s'.log.path = s.log.path
  readOnlyReason : s'.readOnlyReason = s.readOnlyReason
  compacting : s'.compacting = s.compacting
  closed : s'.closed = false

theorem each_closeBody (s : Store) :
    (Writer.body s .close).Each (fun _ => True) fun r => ClosedFrom s r.2 := by
  refine Prog.each_bind (Q := fun r : Option Err × Store => ClosedFrom s { r.2 with closed := false }) ?_
    fun r hr => .ret hr
  unfold Store.close
  rw [if_neg Bool.false_ne_true]
  refine Prog.each_bind (Prog.each_any _) fun _ _ => ?_
  refine Prog.each_bind (Q := fun r : Except Err Unit × AppendLog => r.2.file.isOpen = false ∧ r.2.path = s.log.path) ?_
    fun r hr => ?_
  · exact Prog.each_bind (Prog.each_any _) fun _ _ => .ret ⟨rfl, rfl⟩
  · exact Prog.each_bind (Prog.each_any _) fun _ _ => .ret ⟨hr.1, hr.2, rfl, rfl, rfl⟩

end

/-! ## What holds once `Close` has the lock -/

/-- `Compact`, between its check and the end of its body. -/
def Pc.Compacting : Pc → Prop
  | .claim => True
  | .waiting (.write .compact) => True
  | .working .compact _ => True
  | _ => False

instance : DecidablePred Pc.Compacting
  | .claim | .waiting (.write .compact) | .working .compact _ => isTrue trivial
  | .waiting (.get _) | .waiting (.forEach _) | .waiting (.write (.put ..)) | .waiting (.write (.delete _))
  | .waiting (.write .sync) | .waiting (.write .close) | .working (.put ..) _ | .working (.delete _) _
  | .working .sync _ | .working .close _ | .start _ | .lookup .. | .read .. | .fill .. | .leave .. | .got ..
  | .snapshot _ | .scanning .. | .visiting .. | .unlocking .. | .unclaim _ | .finished _ | .other _ => isFalse id

/-- The writer that waits for the lock. -/
def Pc.waitsFor : Pc → Option Writer
  | .waiting (.write v) => some v
  | _ => none

theorem Pc.eq_of_waitsFor {pc : Pc} {v : Writer} (h : pc.waitsFor = some v) : pc = .waiting (.write v) := by
  unfold Pc.waitsFor at h
  split at h <;> cases h
  rfl

/-- `Close`, between the flag and the end of its body. -/
def Pc.Closing : Pc → Prop
  | .waiting (.write .close) => True
  | .working .close _ => True
  | _ => False

section
variable {ι : Type} [DecidableEq ι]

/-- `Close` gets the lock only when no `Compact` is under way. -/
def CompactFirst (c : Threads ι (Shared ι) Pc) (i : ι) : Prop :=
  c.loc i = .waiting (.write .close) → ∀ j, ¬ (c.loc j).Compacting

instance [Fintype ι] (c : Threads ι (Shared ι) Pc) (i : ι) : Decidable (CompactFirst c i) :=
  decidable_of_iff ((c.loc i).waitsFor = some .close → ∀ j, ¬ (c.loc j).Compacting)
    ⟨fun h hi => h (congrArg Pc.waitsFor hi), fun h hi => h (Pc.eq_of_waitsFor hi)⟩

structure Sealing (c : Threads ι (Shared ι) Pc) : Prop where
  held : Held Pc.Reading Pc.Writing c.shared.mutex c
  flagged : ∀ i, (c.loc i).Closing → c.shared.closed = true ∧ c.shared.released = false
  once : ∀ i j, (c.loc i).Closing → (c.loc j).Closing → i = j
  closes : ∀ i rest, c.loc i = .working .close rest →
    rest.Each (fun _ => True) fun r => r.2.log.file.isOpen = false
  barrier : ((∃ i rest, c.loc i = .working .close rest) ∨ c.shared.released = true) →
    c.shared.closed = true ∧ ∀ j, ¬ (c.loc j).Compacting
  handle : c.shared.released = true → c.shared.session.store.log.file.isOpen = false
  quiet : c.shared.released = true → ∀ i w rest, c.loc i = .working w rest →
    rest.Each Harmless fun r => r.2.log.file.isOpen = false

/-- The call is neither `Compact` nor `Close` under way, nor in a body. -/
def Pc.Plain (pc : Pc) : Prop := ¬ pc.Closing ∧ ¬ pc.Compacting ∧ ¬ pc.Writing

/-- The flags, the log and the disk are the same. -/
structure Frame (g g' : Shared ι) : Prop where
  closed : g'.closed = g.closed
  released : g'.released = g.released
  log : g'.session.store.log = g.session.store.log
  disk : g'.session.disk = g.session.disk

omit [DecidableEq ι] in
theorem startStep_cases (g : Shared ι) (client : Client) :
    (∃ pc, startStep g client = (g, pc) ∧ (pc.Plain ∨ (pc = .claim ∧ g.closed = false))) ∨
      (startStep g client = ({ g with closed := true }, .waiting (.write .close)) ∧ g.closed = false) := by
  cases client with
  | get key =>
    refine .inl ?_
    rw [startStep]
    split <;> exact ⟨_, rfl, .inl ⟨id, id, id⟩⟩
  | forEach stop =>
    refine .inl ?_
    rw [startStep]
    split <;> exact ⟨_, rfl, .inl ⟨id, id, id⟩⟩
  | write w =>
    by_cases hclose : w = .close
    · subst hclose
      rw [startStep]
      split
      · exact .inl ⟨_, rfl, .inl ⟨id, id, id⟩⟩
      · rename_i hopen
        exact .inr ⟨rfl, by simpa using hopen⟩
    · refine .inl ?_
      cases hrefusal : w.refusal g.closed g.session.store with
      | some e => exact ⟨_, startStep_refused g hclose hrefusal, .inl ⟨id, id, id⟩⟩
      | none =>
        rw [startStep_admitted g hclose hrefusal]
        by_cases hcompact : w = .compact
        · refine ⟨.claim, by rw [if_pos hcompact], .inr ⟨rfl, ?_⟩⟩
          subst hcompact
          by_contra hclosed
          simp [Writer.refusal, show g.closed = true by simpa using hclosed] at hrefusal
        · refine ⟨.waiting (.write w), by rw [if_neg hcompact], .inl ⟨?_, ?_, id⟩⟩
          · cases w <;> first | exact id | exact absurd rfl hclose
          · cases w <;> first | exact id | exact absurd rfl hcompact

omit [DecidableEq ι] in
theorem lookupStep_frame (g : Shared ι) (key : Bytes) (past : List Call) :
    Frame g (lookupStep g key past).1 ∧ (lookupStep g key past).2.Plain := by
  unfold lookupStep
  split <;> exact ⟨⟨rfl, rfl, rfl, rfl⟩, id, id, id⟩

omit [DecidableEq ι] in
theorem readStep_frame (g : Shared ι) (key : Bytes) (past : List Call) :
    Frame g (readStep g key past).1 ∧ (readStep g key past).2.Plain := by
  unfold readStep
  split
  · exact ⟨⟨rfl, rfl, rfl, rfl⟩, id, id, id⟩
  · rename_i entry _
    have hdisk := exec_harmless (each_readRecordAt g.session.store.log entry.recordOffset entry.storedSize)
      g.session.disk
    split
    · rename_i heq
      rw [heq] at hdisk
      exact ⟨⟨rfl, rfl, rfl, hdisk⟩, id, id, id⟩
    · rename_i heq
      rw [heq] at hdisk
      exact ⟨⟨rfl, rfl, rfl, hdisk⟩, id, id, id⟩

theorem visitStep_frame (i : ι) (g : Shared ι) (stop : List (Bytes × Bytes) → Bytes → Bytes → Option Err) (key : Bytes)
    (keys : List Bytes) (scratch : Bytes) (seen : List (Bytes × Bytes)) :
    Frame g (visitStep i g stop key keys scratch seen).1 ∧ (visitStep i g stop key keys scratch seen).2.Plain := by
  unfold visitStep
  dsimp only
  split
  · exact ⟨⟨rfl, rfl, rfl, rfl⟩, id, id, id⟩
  · rename_i entry _
    have hdisk := exec_harmless
      (each_readRecordAtInto g.session.store.log entry.recordOffset entry.storedSize scratch) g.session.disk
    split
    · rename_i heq
      rw [heq] at hdisk
      exact ⟨⟨rfl, rfl, rfl, hdisk⟩, id, id, id⟩
    · rename_i heq
      rw [heq] at hdisk
      split <;> exact ⟨⟨rfl, rfl, rfl, hdisk⟩, id, id, id⟩

section
variable {c c' : Threads ι (Shared ι) Pc} {i : ι} {g : Shared ι} {pc : Pc}

/-- A step that neither sets the flag of `Close` nor ends its body. -/
theorem Sealing.step (h : Sealing c) (hheld : Held Pc.Reading Pc.Writing c'.shared.mutex c') (hm : Moved c c' i g pc)
    (hclosed : g.closed = c.shared.closed) (hreleased : g.released = c.shared.released)
    (hhandle : c.shared.released = true → g.session.store.log.file.isOpen = false)
    (hclosing : pc.Closing → (c.loc i).Closing)
    (hcompacting : pc.Compacting → (c.loc i).Compacting ∨ c.shared.closed = false)
    (hcloses : ∀ rest, pc = .working .close rest →
      (rest.Each (fun _ => True) fun r => r.2.log.file.isOpen = false) ∧
      ((∃ rest, c.loc i = .working .close rest) ∨ ∀ j, ¬ (c.loc j).Compacting))
    (hquiet : c.shared.released = true → ∀ w rest, pc = .working w rest →
      rest.Each Harmless fun r => r.2.log.file.isOpen = false) : Sealing c' := by
  obtain ⟨rfl, hloc, hothers⟩ := hm
  have hback : ∀ j, (c'.loc j).Closing → (c.loc j).Closing := by
    intro j hj
    by_cases hji : j = i
    · rw [hji, hloc] at hj
      exact hji ▸ hclosing hj
    · rwa [hothers j hji] at hj
  refine ⟨hheld, fun j hj => ?_, fun j k hj hk => h.once j k (hback j hj) (hback k hk), fun j rest hj => ?_,
    fun hsealed => ?_, ?_, fun hr j w rest hj => ?_⟩
  · rw [hclosed, hreleased]
    exact h.flagged j (hback j hj)
  · by_cases hji : j = i
    · rw [hji, hloc] at hj
      exact (hcloses rest hj).1
    · rw [hothers j hji] at hj
      exact h.closes j rest hj
  · have hbefore : c.shared.closed = true ∧ ∀ j, ¬ (c.loc j).Compacting := by
      rcases hsealed with ⟨j, rest, hj⟩ | hr
      · by_cases hji : j = i
        · rw [hji, hloc] at hj
          rcases (hcloses rest hj).2 with hold | hnone
          · exact h.barrier (.inl ⟨i, hold⟩)
          · refine ⟨(h.flagged i (hclosing ?_)).1, hnone⟩
            rw [hj]
            trivial
        · rw [hothers j hji] at hj
          exact h.barrier (.inl ⟨j, rest, hj⟩)
      · exact h.barrier (.inr (by rw [← hreleased]; exact hr))
    refine ⟨by rw [hclosed, hbefore.1], fun j hj => ?_⟩
    by_cases hji : j = i
    · rw [hji, hloc] at hj
      rcases hcompacting hj with hold | hopen
      · exact hbefore.2 i hold
      · rw [hbefore.1] at hopen
        cases hopen
    · rw [hothers j hji] at hj
      exact hbefore.2 j hj
  · rw [hreleased]
    exact hhandle
  · rw [hreleased] at hr
    by_cases hji : j = i
    · rw [hji, hloc] at hj
      exact hquiet hr w rest hj
    · rw [hothers j hji] at hj
      exact h.quiet hr j w rest hj

theorem Sealing.step_plain (h : Sealing c) (hheld : Held Pc.Reading Pc.Writing c'.shared.mutex c')
    (hm : Moved c c' i g pc) (hframe : Frame c.shared g) (hpc : pc.Plain) : Sealing c' := by
  refine h.step hheld hm hframe.closed hframe.released (fun hr => by rw [hframe.log]; exact h.handle hr)
    (fun hx => absurd hx hpc.1)
    (fun hx => absurd hx hpc.2.1) (fun rest heq => ?_) fun _ w rest heq => ?_
  · rw [heq] at hpc
    exact absurd trivial hpc.2.2
  · rw [heq] at hpc
    exact absurd trivial hpc.2.2

/-- `Close` sets the flag. -/
theorem Sealing.step_flag (h : Sealing c) (hheld : Held Pc.Reading Pc.Writing c'.shared.mutex c')
    (hm : Moved c c' i { c.shared with closed := true } (.waiting (.write .close)))
    (hopen : c.shared.closed = false) : Sealing c' := by
  obtain ⟨hshared, hloc, hothers⟩ := hm
  have hflag : c.shared.closed ≠ true := by rw [hopen]; exact Bool.false_ne_true
  have hnone : ∀ j, ¬ (c.loc j).Closing := fun j hj => hflag (h.flagged j hj).1
  have hreleased : c.shared.released ≠ true := fun hr => hflag (h.barrier (.inr hr)).1
  have hself : ∀ j, (c'.loc j).Closing → j = i := by
    intro j hj
    by_contra hji
    rw [hothers j hji] at hj
    exact hnone j hj
  have hworking : ∀ j rest, c'.loc j ≠ .working .close rest := by
    intro j rest hj
    by_cases hji : j = i
    · rw [hji, hloc] at hj
      cases hj
    · rw [hothers j hji] at hj
      exact hnone j (by rw [hj]; trivial)
  refine ⟨hheld, fun j _ => ?_, fun j k hj hk => (hself j hj).trans (hself k hk).symm,
    fun j rest hj => absurd hj (hworking j rest), fun hsealed => ?_, fun hr => ?_, fun hr => ?_⟩
  · rw [hshared]
    exact ⟨rfl, by simpa using hreleased⟩
  · rw [hshared] at hsealed
    rcases hsealed with ⟨j, rest, hj⟩ | hr
    · exact absurd hj (hworking j rest)
    · exact absurd hr hreleased
  · rw [hshared] at hr
    exact absurd hr hreleased
  · rw [hshared] at hr
    exact absurd hr hreleased

/-- `Close` has released the file lock. -/
theorem Sealing.step_release (h : Sealing c) (hheld : Held Pc.Reading Pc.Writing c'.shared.mutex c')
    {r : Answer × Store} (hpc : c.loc i = .working .close (.ret r)) (hm : Moved c c' i g (.unlocking .close r.1))
    (hclosed : g.closed = c.shared.closed) (hstore : g.session.store = r.2) : Sealing c' := by
  obtain ⟨rfl, hloc, hothers⟩ := hm
  have hwriting : (c.loc i).Writing := by rw [hpc]; trivial
  have hclosing : (c.loc i).Closing := by rw [hpc]; trivial
  have hend : r.2.log.file.isOpen = false := by
    cases h.closes i _ hpc with
    | ret hr => exact hr
  have hbarrier := h.barrier (.inl ⟨i, _, hpc⟩)
  have hnone : ∀ j, ¬ (c'.loc j).Closing := by
    intro j hj
    by_cases hji : j = i
    · rw [hji, hloc] at hj
      exact hj
    · rw [hothers j hji] at hj
      exact hji (h.once j i hj hclosing)
  have hworking : ∀ j w rest, c'.loc j ≠ .working w rest := by
    intro j w rest hj
    by_cases hji : j = i
    · rw [hji, hloc] at hj
      cases hj
    · rw [hothers j hji] at hj
      exact hji (h.held.one_writer hwriting (by rw [hj]; trivial))
  refine ⟨hheld, fun j hj => absurd hj (hnone j), fun j _ hj => absurd hj (hnone j),
    fun j rest hj => absurd hj (hworking j _ rest), fun _ => ⟨by rw [hclosed, hbarrier.1], fun j hj => ?_⟩,
    fun _ => by rw [hstore]; exact hend, fun _ j w rest hj => absurd hj (hworking j w rest)⟩
  by_cases hji : j = i
  · rw [hji, hloc] at hj
    exact hj
  · rw [hothers j hji] at hj
    exact hbarrier.2 j hj

/-- **Every move keeps the seal, and once `Close` is done no move of a call changes the disk.** -/
theorem Sealing.move (h : Sealing c) (hallowed : CompactFirst c i) (hmove : Library.move callStep c i = some c') :
    Sealing c' ∧ (c.shared.released = true →
      c'.shared.session.disk = c.shared.session.disk ∨ ∃ changes, c.loc i = .other changes) := by
  obtain ⟨g, pc, hstep, hm⟩ := move_cases hmove
  have hheld := held_move h.held hmove
  have hplain : ∀ P : Prop, Frame c.shared g → pc.Plain → Sealing c' ∧ (c.shared.released = true →
      c'.shared.session.disk = c.shared.session.disk ∨ P) := by
    intro P hframe hpc
    exact ⟨h.step_plain hheld hm hframe hpc, fun _ => .inl (by rw [hm.shared, hframe.disk])⟩
  have hsame : Frame c.shared c.shared := ⟨rfl, rfl, rfl, rfl⟩
  cases hpc : c.loc i with
  | start client =>
    rw [hpc] at hstep
    have heq : startStep c.shared client = (g, pc) := Option.some.inj hstep
    rcases startStep_cases c.shared client with ⟨pc', hstart, hcase⟩ | ⟨hstart, hopen⟩
    · rw [hstart] at heq
      cases heq
      rcases hcase with hpc' | ⟨rfl, hopen⟩
      · exact hplain _ hsame hpc'
      · refine ⟨?_, fun _ => .inl (by rw [hm.shared])⟩
        exact h.step hheld hm rfl rfl h.handle (fun hx => absurd hx id) (fun _ => .inr hopen)
          (fun _ heq => by cases heq)
          fun _ _ _ heq => by cases heq
    · rw [hstart] at heq
      cases heq
      exact ⟨h.step_flag hheld hm hopen, fun _ => .inl (by rw [hm.shared])⟩
  | claim =>
    rw [hpc, callStep] at hstep
    split at hstep
    · cases hstep
      exact hplain _ hsame ⟨id, id, id⟩
    · cases hstep
      refine ⟨?_, fun _ => .inl (by rw [hm.shared])⟩
      exact h.step hheld hm rfl rfl h.handle (fun hx => absurd hx id) (fun _ => .inl (by rw [hpc]; trivial))
        (fun _ heq => by cases heq)
        fun _ _ _ heq => by cases heq
  | waiting client =>
    rw [hpc] at hstep
    cases client with
    | get key =>
      obtain ⟨m, hlock, heq⟩ := Option.map_eq_some_iff.mp hstep
      cases heq
      exact hplain _ ⟨rfl, rfl, rfl, rfl⟩ ⟨id, id, id⟩
    | forEach stop =>
      obtain ⟨m, hlock, heq⟩ := Option.map_eq_some_iff.mp hstep
      cases heq
      exact hplain _ ⟨rfl, rfl, rfl, rfl⟩ ⟨id, id, id⟩
    | write w =>
      obtain ⟨m, hlock, heq⟩ := Option.map_eq_some_iff.mp hstep
      cases heq
      refine ⟨h.step hheld hm rfl rfl h.handle (fun hx => ?_) (fun hx => .inl ?_) (fun rest heq => ?_)
        fun hr w' rest heq => ?_, fun _ => .inl (by rw [hm.shared]; rfl)⟩
      · rw [hpc]
        cases w <;> exact hx
      · rw [hpc]
        cases w <;> exact hx
      · cases heq
        exact ⟨(each_closeBody _).mono fun r hr => hr.handle, .inr (hallowed hpc)⟩
      · cases heq
        refine each_body (h.handle hr) ?_ ?_
        · rintro rfl
          exact (h.barrier (.inr hr)).2 i (by rw [hpc]; trivial)
        · rintro rfl
          have hnot := (h.flagged i (by rw [hpc]; trivial)).2
          rw [hr] at hnot
          cases hnot
  | lookup key past =>
    rw [hpc] at hstep
    have hframe := lookupStep_frame c.shared key past
    rw [show lookupStep c.shared key past = (g, pc) from Option.some.inj hstep] at hframe
    exact hplain _ hframe.1 hframe.2
  | read key past =>
    rw [hpc] at hstep
    have hframe := readStep_frame c.shared key past
    rw [show readStep c.shared key past = (g, pc) from Option.some.inj hstep] at hframe
    exact hplain _ hframe.1 hframe.2
  | fill key value past =>
    rw [hpc] at hstep
    cases hstep
    exact hplain _ ⟨rfl, rfl, rfl, rfl⟩ ⟨id, id, id⟩
  | leave key past r =>
    rw [hpc] at hstep
    cases hstep
    exact hplain _ ⟨rfl, rfl, rfl, rfl⟩ ⟨id, id, id⟩
  | snapshot stop =>
    rw [hpc] at hstep
    cases hstep
    exact hplain _ ⟨rfl, rfl, rfl, rfl⟩ ⟨id, id, id⟩
  | scanning stop keys scratch seen =>
    rw [hpc] at hstep
    cases keys with
    | nil =>
      cases hstep
      exact hplain _ hsame ⟨id, id, id⟩
    | cons key keys =>
      obtain ⟨m, hlock, heq⟩ := Option.map_eq_some_iff.mp hstep
      cases heq
      exact hplain _ ⟨rfl, rfl, rfl, rfl⟩ ⟨id, id, id⟩
  | visiting stop key keys scratch seen =>
    rw [hpc] at hstep
    have hframe := visitStep_frame i c.shared stop key keys scratch seen
    rw [show visitStep i c.shared stop key keys scratch seen = (g, pc) from Option.some.inj hstep] at hframe
    exact hplain _ hframe.1 hframe.2
  | working w rest =>
    rw [hpc] at hstep
    cases rest with
    | op o k =>
      cases hstep
      refine ⟨h.step hheld hm rfl rfl h.handle (fun hx => ?_) (fun hx => .inl ?_) (fun rest heq => ?_)
        fun hr w' rest heq => ?_, fun hr => .inl ?_⟩
      · rw [hpc]
        cases w <;> exact hx
      · rw [hpc]
        cases w <;> exact hx
      · cases heq
        cases h.closes i _ hpc with
        | op _ hk => exact ⟨hk _, .inl ⟨_, hpc⟩⟩
      · cases heq
        cases h.quiet hr i _ _ hpc with
        | op _ hk => exact hk _
      · rw [hm.shared]
        cases h.quiet hr i _ _ hpc with
        | op hharmless _ => exact hharmless _
    | ret r =>
      cases hstep
      by_cases hclose : w = .close
      · subst hclose
        exact ⟨h.step_release hheld hpc hm rfl rfl, fun _ => .inl (by rw [hm.shared]; rfl)⟩
      · have hreleased : (c.shared.released || decide (w = .close)) = c.shared.released := by
          rw [decide_eq_false hclose, Bool.or_false]
        refine ⟨h.step hheld hm rfl hreleased (fun hr => ?_) (fun hx => absurd hx id) (fun hx => absurd hx id)
          (fun _ heq => by cases heq) (fun _ _ _ heq => by cases heq), fun _ => .inl (by rw [hm.shared]; rfl)⟩
        cases h.quiet hr i _ _ hpc with
        | ret hend => exact hend
  | unlocking w a =>
    rw [hpc, callStep] at hstep
    split at hstep <;> cases hstep <;> exact hplain _ ⟨rfl, rfl, rfl, rfl⟩ ⟨id, id, id⟩
  | unclaim a =>
    rw [hpc] at hstep
    cases hstep
    exact hplain _ ⟨rfl, rfl, rfl, rfl⟩ ⟨id, id, id⟩
  | got key past r =>
    rw [hpc] at hstep
    cases hstep
  | finished a =>
    rw [hpc] at hstep
    cases hstep
  | other changes =>
    rw [hpc] at hstep
    cases changes with
    | nil => cases hstep
    | cons f fs =>
      cases hstep
      refine ⟨?_, fun _ => .inr ⟨f :: fs, rfl⟩⟩
      exact h.step hheld hm rfl rfl h.handle (fun hx => absurd hx id) (fun hx => absurd hx id)
        (fun _ heq => by cases heq)
        fun _ _ _ heq => by cases heq

/-- A thread that has not begun: a call, or another process. -/
def Pc.Fresh : Pc → Prop
  | .start _ => True
  | .other _ => True
  | _ => False

omit [DecidableEq ι] in
theorem sealing_start {x : Session} {loc : ι → Pc} (hloc : ∀ i, (loc i).Fresh) :
    Sealing (⟨.ofSession x, loc⟩ : Threads ι (Shared ι) Pc) := by
  have hfresh : ∀ i, (loc i).Outside ∧ ¬ (loc i).Closing ∧ ∀ w rest, loc i ≠ .working w rest := by
    intro i
    have hi := hloc i
    cases hpc : loc i with
    | start client => exact ⟨⟨id, id⟩, id, fun w rest heq => by cases heq⟩
    | other changes => exact ⟨⟨id, id⟩, id, fun w rest heq => by cases heq⟩
    | _ =>
      rw [hpc] at hi
      exact absurd hi id
  refine ⟨held_start fun i => (hfresh i).1, fun i hi => absurd hi (hfresh i).2.1,
    fun i _ hi => absurd hi (hfresh i).2.1, fun i rest hi => absurd hi ((hfresh i).2.2 _ rest), ?_,
    fun hr => absurd hr Bool.false_ne_true, fun hr => absurd hr Bool.false_ne_true⟩
  rintro (⟨i, rest, hi⟩ | hr)
  · exact absurd hi ((hfresh i).2.2 _ rest)
  · exact absurd hr Bool.false_ne_true

/-- **No file activity after `Close`**, if `Close` gets the lock when no `Compact` is between its check and
the end of its body. -/
theorem disk_untouched_after_close {x : Session} {loc : ι → Pc} (hloc : ∀ i, (loc i).Fresh) {schedule : List ι}
    (hobeys : Obeys CompactFirst callStep ⟨.ofSession x, loc⟩ schedule)
    (hruns : runs callStep ⟨.ofSession x, loc⟩ schedule = some c) (hreleased : c.shared.released = true)
    (hcall : ∀ changes, c.loc i ≠ .other changes) (hmove : move callStep c i = some c') :
    c'.shared.session.disk = c.shared.session.disk := by
  have hsealing := runs_invariant (fun c i c' hc hallowed hmove => (Sealing.move hc hallowed hmove).1)
    (sealing_start hloc) hobeys hruns
  have hfree : CompactFirst c i := by
    intro hwaiting
    have hnot := (hsealing.flagged i (by rw [hwaiting]; trivial)).2
    rw [hreleased] at hnot
    cases hnot
  rcases (hsealing.move hfree hmove).2 hreleased with hdisk | ⟨changes, hother⟩
  · exact hdisk
  · exact absurd hother (hcall changes)

/-! ## `Close` alone -/

theorem alone_close (hstart : c.loc i = .start (.write .close)) (hopen : c.shared.closed = false)
    (hmutex : c.shared.mutex = .free) :
    ∃ g a, Alone callStep c i g (.finished a) ∧ g.released = true ∧ g.mutex = .free ∧
      g.session = ⟨(Disk.exec (Writer.body c.shared.session.store .close) c.shared.session.disk).1.2,
        (Disk.exec (Writer.body c.shared.session.store .close) c.shared.session.disk).2⟩ := by
  have h := alone_refl callStep c i
  rw [hstart] at h
  have hflag : callStep i c.shared (.start (.write .close)) =
      some ({ c.shared with closed := true }, .waiting (.write .close)) := by
    rw [callStep, startStep, if_neg (by rw [hopen]; exact Bool.false_ne_true)]
  have hlock : callStep i { c.shared with closed := true } (.waiting (.write .close)) =
      some ({ c.shared with closed := true, mutex := ⟨∅, some i⟩ },
        .working .close (Writer.body c.shared.session.store .close)) := by
    rw [callStep, hmutex]
    rfl
  have hworked := alone_working _ ((h.next hflag).next hlock)
  refine ⟨_, _, (hworked.next rfl).next rfl, ?_, rfl, rfl⟩
  simp [Shared.setMutex]

/-- A body at some instant of which the disk has `P`, which it has not yet, comes to the operation that
brings it about. -/
theorem alone_changes {w : Writer} {rest : FileProg (Answer × Store)} {P : Disk → Prop} {t : Disk}
    (h : Alone callStep c i g (.working w rest)) (hv : rest.Visits Disk.answer g.session.disk t)
    (hnot : ¬ P g.session.disk) (ht : P t) :
    ∃ g' g'' rest' pc, Alone callStep c i g' (.working w rest') ∧ g'.released = g.released ∧
      callStep i g' (.working w rest') = some (g'', pc) ∧ ¬ P g'.session.disk ∧ P g''.session.disk := by
  generalize hd : g.session.disk = d at hv
  induction hv generalizing g with
  | here => exact absurd (hd ▸ ht) hnot
  | next o k d t _ ih =>
    have hstep : callStep i g (.working w (.op o k)) =
        some (g.setDisk (Disk.answer o d).2, .working w (k (Disk.answer o d).1)) := by
      rw [← hd]
      rfl
    by_cases hnow : P (Disk.answer o d).2
    · exact ⟨g, _, _, _, h, rfl, hstep, hnot, hnow⟩
    · exact ih (g := g.setDisk (Disk.answer o d).2) (h.next hstep) hnow ht rfl

/-- `Compact` makes its temporary file, whatever became of the handle and of the lock. -/
theorem visits_compact {s : Store} {d : Disk} {i : ℕ} (hclosed : s.closed = false) (hreason : s.readOnlyReason = none)
    (hcompacting : s.compacting = false) (hmain : d.dir s.log.path = some i) :
    ∃ t, (Writer.body s .compact).Visits Disk.answer d t ∧ t.dir (s.log.path ++ compactionTempSuffix) ≠ none := by
  obtain ⟨d1, hremoved, -, hdir⟩ := exec_removeAllIfExist [s.log.path ++ compactionTempSuffix,
    s.log.path ++ compactionReadySuffix, s.log.path ++ compactionBackupSuffix] d
  have hmain1 : d1.dir s.log.path = some i := by
    rw [hdir, if_neg fun hmem => path_not_mem_artifacts s.log.path (List.mem_append_left [_] hmem), hmain]
  have htmp : d1.dir (s.log.path ++ compactionTempSuffix) = none := by
    rw [hdir, if_pos (List.mem_cons_self ..)]
  refine ⟨d1.create (s.log.path ++ compactionTempSuffix), Prog.visits_bind_left _ ?_, by simp⟩
  unfold Store.compact Store.ifWritable
  rw [hclosed, hreason, hcompacting]
  refine Prog.visits_bind_left _ (Prog.visits_bind_left _ (Prog.visits_bind_right hremoved ?_))
  refine Prog.visits_bind_right (Disk.exec_stat_some hmain1) (Prog.visits_bind_left _ ?_)
  refine Prog.visits_bind_left _ ?_
  have hopen := Prog.visits_run (h := Disk.answer) (Sys.openFile (s.log.path ++ compactionTempSuffix) true true) d1
  rwa [show Prog.run Disk.answer _ d1 = _ from Disk.exec_open_none htmp true] at hopen

/-- `Close` leaves the names of the directory, and a store from which only the log is gone. -/
theorem exec_closeBody {d : Disk} {s : Store} {path : Path} {recs : List (Rec logVersion)} (hb : Serves d s path recs) :
    (Disk.exec (Writer.body s .close) d).2.dir = d.dir ∧ ClosedFrom s (Disk.exec (Writer.body s .close) d).1.2 := by
  refine ⟨?_, ((each_closeBody s).run (h := Disk.answer) (I := fun _ => True) (fun _ _ _ h => h) trivial).2⟩
  obtain ⟨j, hlock, -⟩ := hb.lock
  obtain ⟨d1, hclose, hdir, -, -⟩ := exec_close_disk hb.closed hb.image.isOpen hlock d
  have hflag : ({ s with closed := false } : Store) = s := by
    rw [← hb.closed]
  unfold Writer.body
  dsimp only
  rw [hflag, Disk.exec_bind_eq hclose]
  exact hdir

/-- A `Put` and a `Close`. -/
def putAndClose (i : Bool) : Pc := .start (.write (if i then .put [3] [4] none else .close))

/-- The writer whose body is running. -/
def Pc.worksOn : Pc → Option Writer
  | .working w _ => some w
  | _ => none

theorem Pc.working_of_worksOn {pc : Pc} {w : Writer} (h : pc.worksOn = some w) : ∃ rest, pc = .working w rest := by
  unfold Pc.worksOn at h
  split at h <;> cases h
  exact ⟨_, rfl⟩

/-- The `Put` passes its check, `Close` runs to its end, and the `Put` gets the lock. -/
def untilReleased : List Bool := [true] ++ List.replicate 8 false ++ [true]

/-- The write of a `Put` that passed its check before `Close` leaves the disk as it is. -/
theorem disk_untouched_after_close_put : ∃ x c c', worked "db" .zero [.put [1] [2] none] = some x ∧
    runs callStep ⟨.ofSession x, putAndClose⟩ untilReleased = some c ∧ c.shared.released = true ∧
    (∃ rest, c.loc true = .working (.put [3] [4] none) rest) ∧ move callStep c true = some c' ∧
    c'.shared.session.disk = c.shared.session.disk := by
  have haccepted : ∀ call ∈ [Call.put [1] [2] none], call.Accepted "db" := by simp [Call.Accepted]
  obtain ⟨x, hx, -⟩ := worked_refines (zero_accepted (by decide)) haccepted
  have hobeys : (worked "db" .zero [.put [1] [2] none]).map (fun x =>
      decide (Obeys CompactFirst callStep ⟨.ofSession x, putAndClose⟩ untilReleased)) = some true := by
    decide +kernel
  have hstate : ((worked "db" .zero [.put [1] [2] none]).bind fun x =>
      runs callStep ⟨.ofSession x, putAndClose⟩ untilReleased).map (fun c =>
        (c.shared.released, (c.loc true).worksOn, (move callStep c true).isSome)) =
          some (true, some (.put [3] [4] none), true) := by
    decide +kernel
  rw [hx, Option.map_some, Option.some.injEq] at hobeys
  rw [hx, Option.bind_some] at hstate
  obtain ⟨c, hruns, hc⟩ := Option.map_eq_some_iff.mp hstate
  obtain ⟨hreleased, hrest⟩ := Prod.mk.inj hc
  obtain ⟨hworks, hmoves⟩ := Prod.mk.inj hrest
  obtain ⟨c', hmove⟩ := Option.isSome_iff_exists.mp hmoves
  obtain ⟨rest, hworking⟩ := Pc.working_of_worksOn hworks
  have hfresh : ∀ i, (putAndClose i).Fresh := fun _ => trivial
  exact ⟨x, c, c', hx, hruns, hreleased, ⟨rest, hworking⟩, hmove,
    disk_untouched_after_close hfresh (of_decide_eq_true hobeys) hruns hreleased
      (fun _ hother => by cases hworking.symm.trans hother) hmove⟩

/-- **A `Compact` that passed its check before `Close` makes its temporary file after the lock is given
back.** -/
theorem compact_after_close : ∃ x, Reachable "db" x ∧
    ∃ (schedule : List Bool) (c c' : Threads Bool (Shared Bool) Pc),
      runs callStep ⟨.ofSession x, fun i => .start (.write (if i then .compact else .close))⟩ schedule = some c ∧
      c.shared.released = true ∧ move callStep c true = some c' ∧
      c.shared.session.disk.dir ("db" ++ compactionTempSuffix) = none ∧
      c'.shared.session.disk.dir ("db" ++ compactionTempSuffix) ≠ none := by
  obtain ⟨x, hx, hb⟩ := blank_serves "db" (by decide)
  refine ⟨x, hx, ?_⟩
  let start : Threads Bool (Shared Bool) Pc :=
    ⟨.ofSession x, fun i => .start (.write (if i then .compact else .close))⟩
  -- `Compact` passes its check, `Close` runs to its end, and `Compact` gets the lock
  have hstart : callStep true start.shared (start.loc true) = some (start.shared, .claim) := by
    simp [start, callStep, startStep, Writer.refusal, Shared.ofSession, hb.readOnlyReason]
  have hflag : callStep true start.shared .claim =
      some ({ start.shared with compacting := true }, .waiting (.write .compact)) := rfl
  obtain ⟨n, hclaim⟩ := ((alone_refl callStep start true).next hstart).next hflag
  obtain ⟨g, a, ⟨m, hclose⟩, hreleased, hfree, hsession⟩ := alone_close (i := false)
    (c := ⟨{ start.shared with compacting := true }, Function.update start.loc true (.waiting (.write .compact))⟩)
    rfl rfl rfl
  obtain ⟨hdir, hfrom⟩ := exec_closeBody hb
  have hwaiting := alone_refl callStep
    (⟨g, Function.update (Function.update start.loc true (.waiting (.write .compact))) false (.finished a)⟩ :
      Threads Bool (Shared Bool) Pc) true
  have hlock : callStep true g (.waiting (.write .compact)) =
      some ({ g with mutex := ⟨∅, some true⟩ }, .working .compact (Writer.body g.session.store .compact)) := by
    rw [callStep, hfree]
    rfl
  have hdisk : g.session.disk.dir = x.disk.dir := by
    rw [hsession]
    exact hdir
  have hfrom' : ClosedFrom x.store g.session.store := by
    rw [hsession]
    exact hfrom
  have hpath : g.session.store.log.path = "db" := hfrom'.path.trans hb.pathEq
  obtain ⟨t, hvisits, ht⟩ := visits_compact hfrom'.closed (hfrom'.readOnlyReason.trans hb.readOnlyReason)
    (hfrom'.compacting.trans hb.compacting) (by rw [hpath, hdisk, hb.dir])
  rw [hpath] at ht
  obtain ⟨g', g'', rest', pc, halone, hkeeps, hstep, hbefore, hafter⟩ := alone_changes
    (P := fun d => d.dir ("db" ++ compactionTempSuffix) ≠ none) (hwaiting.next hlock) hvisits
    (by rw [hdisk]; exact not_not.mpr (hb.noArtifacts _ (List.mem_cons_self ..))) ht
  obtain ⟨schedule, c, c', hruns, rfl, hmove, rfl⟩ := halone.moves hstep
  exact ⟨_, c, c', runs_trans (runs_trans hclaim hclose) hruns, hkeeps.trans hreleased, hmove,
    not_not.mp hbefore, hafter⟩

end

end

end AppendStore
