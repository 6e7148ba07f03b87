import AppendStore.Store.ClosedStore
import AppendStore.Store.Linearizable

/-! # The background tasks, and how `Close` waits for them

The goroutine of the periodic sync and that of the automatic compaction run beside the calls of the
clients. Each waits for the next tick of its ticker or for the end of its context; a tick makes a sync
under the store lock, or asks `NeedsCompaction` and makes a `Compact`; an error goes to `OnError`, which is
called with no lock held. `Close` sets its flag, ends the context, waits until both goroutines are gone and
only then takes the store lock. When a tick and the end of the context are both there, either may be
served.

Nothing deadlocks and nothing goes on forever but the ticks (`calls_return`): `Close` waits without the
lock, so whoever holds the lock can go on. Since it waits, no background task is there when the files are
given up: without a `Compact` by a client, nothing touches them any more (`background_quiet`).
-/

namespace AppendStore
open Library
set_option autoImplicit false

/-! ## The goroutines -/

inductive Task
  | sync
  | compaction
  deriving DecidableEq

theorem Task.mem_both (t : Task) : t ∈ ({.sync, .compaction} : Finset Task) := by
  cases t <;> decide

instance : Fintype Task := ⟨{.sync, .compaction}, Task.mem_both⟩

/-- The goroutines: those of the clients and those of the store. -/
abbrev Worker (ι : Type) := ι ⊕ Task

/-- Where a background goroutine is; while it works, its call is where its thread says. -/
inductive TaskStage
  | selecting
  | asking
  | working
  | reporting (e : Err)
  | ended
  deriving DecidableEq

structure World (ι : Type) where
  calls : Threads (Worker ι) (Shared (Worker ι)) Pc
  stage : Task → TaskStage
  /-- The context of the background tasks is done. -/
  cancelled : Bool
  /-- What `OnError` was called with. -/
  reports : List Err

/-- What may happen next: a goroutine takes a step, a ticker ticks, or a task sees the end of its
context. -/
inductive Signal (ι : Type)
  | client (i : ι)
  | task (t : Task)
  | tick (t : Task)
  | stop (t : Task)

/-- `Close` between its flag and the lock. -/
def Pc.awaitsTasks : Pc → Bool
  | .waiting (.write .close) => true
  | _ => false

/-- The next step takes the lock as a reader. -/
def Pc.rLocks : Pc → Bool
  | .waiting (.get _) | .waiting (.forEach _) | .scanning _ (_ :: _) _ _ => true
  | _ => false

/-- What a background task makes of an error. -/
def Task.context : Task → String
  | .sync => "periodic sync"
  | .compaction => "automatic compaction"

section
variable {ι : Type} [DecidableEq ι]

namespace World

/-- A goroutine takes the next step of its call. -/
def move (w : World ι) (j : Worker ι) : Option (World ι) :=
  (Library.move callStep w.calls j).map fun c => { w with calls := c }

def setStage (w : World ι) (t : Task) (stage : TaskStage) : World ι :=
  { w with stage := Function.update w.stage t stage }

/-- A background goroutine begins a call. -/
def begin (w : World ι) (t : Task) (pc : Pc) : World ι :=
  { w.setStage t .working with calls := ⟨w.calls.shared, Function.update w.calls.loc (.inr t) pc⟩ }

/-- Both background goroutines are gone. -/
def waited (w : World ι) : Bool := w.stage .sync = .ended ∧ w.stage .compaction = .ended

def tick (w : World ι) : Task → World ι
  | .sync => w.begin .sync (.waiting (.write .sync))
  | .compaction => w.setStage .compaction .asking

/-- The next step of a background goroutine. -/
def taskStep (w : World ι) (t : Task) : Option (World ι) :=
  match w.stage t with
  | .selecting => none
  | .ended => none
  | .asking =>
    if w.calls.shared.mutex.writer = none then
      if w.calls.shared.session.store.needsCompaction then some (w.begin t (.start (.write .compact)))
      else some (w.setStage t .selecting)
    else none
  | .working =>
    match (w.calls.loc (.inr t)).outcome with
    | none => w.move (.inr t)
    | some (.done (.error e)) => some (w.setStage t (.reporting (.wrap t.context e)))
    | some _ => some (w.setStage t .selecting)
  | .reporting e => some { w.setStage t .selecting with reports := w.reports ++ [e] }

def step (w : World ι) : Signal ι → Option (World ι)
  | .client i =>
    if (w.calls.loc (.inl i)).awaitsTasks then
      if w.cancelled then if w.waited then w.move (.inl i) else none
      else some { w with cancelled := true }
    else w.move (.inl i)
  | .task t => w.taskStep t
  | .tick t => if w.stage t = .selecting then some (w.tick t) else none
  | .stop t => if w.stage t = .selecting ∧ w.cancelled then some (w.setStage t .ended) else none

/-- A step that no ticker makes. -/
def Quiet (w w' : World ι) : Prop := ∃ turn, (∀ t, turn ≠ .tick t) ∧ w.step turn = some w'

/-- Someone is in `Lock` and waits for the readers. A `Close` gets there once the tasks are gone. -/
def WriterWaits (w : World ι) : Prop :=
  ∃ j v, w.calls.loc j = .waiting (.write v) ∧ (v = .close → w.cancelled = true ∧ w.waited = true)

/-- Nobody takes the lock as a reader while a writer waits for it. -/
def Admits (w : World ι) : Signal ι → Prop
  | .client i => (w.calls.loc (.inl i)).rLocks = true → ¬ w.WriterWaits
  | .task t => w.stage t = .asking ∨ (w.calls.loc (.inr t)).rLocks = true → ¬ w.WriterWaits
  | _ => True

/-- A step that no ticker makes and that lets no reader in while a writer waits. A `sync.RWMutex` keeps out no
one else, so it allows all of these. -/
def Strict (w w' : World ι) : Prop := ∃ turn, (∀ t, turn ≠ .tick t) ∧ w.Admits turn ∧ w.step turn = some w'

/-- A step of any kind. -/
def Steps (w w' : World ι) : Prop := ∃ turn, w.step turn = some w'

/-- The store has just been opened: the clients begin their calls, and the tasks that were started wait. -/
structure Opened (x : Session) (w : World ι) : Prop where
  shared : w.calls.shared = .ofSession x
  clients : ∀ i, ∃ c, w.calls.loc (.inl i) = .start c
  tasks : ∀ t, w.calls.loc (.inr t) = .finished (.done (.ok ())) ∧ (w.stage t = .selecting ∨ w.stage t = .ended)
  cancelled : w.cancelled = false

end World

/-! ## What a step can be -/

/-- The thread of a background task is given a new call, or none; no other thread moves. -/
structure Jumped (w w' : World ι) (t : Task) (pc : Pc) (stage : TaskStage) : Prop where
  moved : Moved w.calls w'.calls (.inr t) w.calls.shared pc
  stage : w'.stage t = stage
  others : ∀ u, u ≠ t → w'.stage u = w.stage u
  cancelled : w'.cancelled = w.cancelled

/-- What a goroutine in the background does between its calls, and whether its ticker has it do so. -/
inductive Changes (w : World ι) (t : Task) : Bool → Pc → TaskStage → Prop
  | ticked (h : w.stage t = .selecting) {pc : Pc} (hpc : pc = .waiting (.write .sync)) :
      Changes w t true pc .working
  | asked (h : w.stage t = .selecting) : Changes w t true (w.calls.loc (.inr t)) .asking
  | compacts (h : w.stage t = .asking) {pc : Pc} (hpc : pc = .start (.write .compact)) :
      Changes w t false pc .working
  | content (h : w.stage t = .asking) : Changes w t false (w.calls.loc (.inr t)) .selecting
  | done (h : w.stage t = .working) {a : Answer} (ha : (w.calls.loc (.inr t)).outcome = some a) {stage : TaskStage}
      (hstage : stage = .selecting ∨ ∃ e, stage = .reporting e) : Changes w t false (w.calls.loc (.inr t)) stage
  | reported {e : Err} (h : w.stage t = .reporting e) : Changes w t false (w.calls.loc (.inr t)) .selecting
  | stopped (h : w.stage t = .selecting) (hc : w.cancelled = true) : Changes w t false (w.calls.loc (.inr t)) .ended

section
variable {w w' : World ι} {t : Task} {pc : Pc} {stage : TaskStage}

omit [DecidableEq ι] in
theorem jumped_setStage (w : World ι) (t : Task) (stage : TaskStage) :
    Jumped w (w.setStage t stage) t (w.calls.loc (.inr t)) stage :=
  ⟨⟨rfl, rfl, fun _ _ => rfl⟩, Function.update_self .., fun _ hu => Function.update_of_ne hu .., rfl⟩

theorem jumped_begin (w : World ι) (t : Task) (pc : Pc) : Jumped w (w.begin t pc) t pc .working :=
  ⟨⟨rfl, Function.update_self .., fun _ hj => Function.update_of_ne hj ..⟩, Function.update_self ..,
    fun _ hu => Function.update_of_ne hu .., rfl⟩

/-- A goroutine took a step of its call. -/
structure Called (w w' : World ι) (j : Worker ι) : Prop where
  move : Library.move callStep w.calls j = some w'.calls
  stage : w'.stage = w.stage
  cancelled : w'.cancelled = w.cancelled
  client : ∀ i, j = .inl i → (w.calls.loc j).awaitsTasks = true → ∀ t, w.stage t = .ended
  task : ∀ t, j = .inr t → w.stage t = .working

omit [DecidableEq ι] in
theorem waited_iff : w.waited = true ↔ ∀ t, w.stage t = .ended := by
  simp only [World.waited, decide_eq_true_eq]
  refine ⟨fun h t => ?_, fun h => ⟨h _, h _⟩⟩
  cases t
  · exact h.1
  · exact h.2

theorem move_calls {j : Worker ι} (h : w.move j = some w') :
    Library.move callStep w.calls j = some w'.calls ∧ w'.stage = w.stage ∧ w'.cancelled = w.cancelled := by
  obtain ⟨c, hc, rfl⟩ := Option.map_eq_some_iff.mp h
  exact ⟨hc, rfl, rfl⟩

/-- **What a step can be:** `Close` ends the context, a goroutine goes on with its call, or a background
goroutine goes on between its calls. -/
theorem World.step_cases {turn : Signal ι} (h : w.step turn = some w') :
    (w.cancelled = false ∧ w' = { w with cancelled := true }) ∨ (∃ j, Called w w' j) ∨
      ∃ t ticked pc stage, Changes w t ticked pc stage ∧ Jumped w w' t pc stage ∧
        (ticked = true → turn = .tick t) := by
  cases turn with
  | client i =>
    rw [World.step] at h
    split at h
    · split at h
      · split at h
        · rename_i hwaited
          obtain ⟨hmove, hstage, hcancelled⟩ := move_calls h
          exact .inr (.inl ⟨.inl i, hmove, hstage, hcancelled, fun _ _ _ => waited_iff.mp hwaited,
            fun _ heq => by cases heq⟩)
        · cases h
      · rename_i hc
        cases h
        exact .inl ⟨by simpa using hc, rfl⟩
    · rename_i hawaits
      obtain ⟨hmove, hstage, hcancelled⟩ := move_calls h
      exact .inr (.inl ⟨.inl i, hmove, hstage, hcancelled, fun _ _ hw => absurd hw hawaits, fun _ heq => by cases heq⟩)
  | task t =>
    rw [World.step, World.taskStep] at h
    split at h
    · cases h
    · cases h
    · rename_i hstage
      split at h
      · split at h <;> cases h
        · exact .inr (.inr ⟨t, _, _, _, .compacts hstage rfl, jumped_begin .., fun hf => by cases hf⟩)
        · exact .inr (.inr ⟨t, _, _, _, .content hstage, jumped_setStage .., fun hf => by cases hf⟩)
      · cases h
    · rename_i hstage
      split at h
      · obtain ⟨hmove, hsame, hcancelled⟩ := move_calls h
        refine .inr (.inl ⟨.inr t, hmove, hsame, hcancelled, (fun _ heq => by cases heq), fun u heq => ?_⟩)
        cases heq
        exact hstage
      · rename_i ha
        cases h
        exact .inr (.inr ⟨t, _, _, _, .done hstage ha (.inr ⟨_, rfl⟩), jumped_setStage .., fun hf => by cases hf⟩)
      · rename_i a _ ha
        cases h
        exact .inr (.inr ⟨t, _, _, _, .done hstage ha (.inl rfl), jumped_setStage .., fun hf => by cases hf⟩)
    · rename_i e hstage
      cases h
      obtain ⟨hmoved, hs, ho, hc⟩ := jumped_setStage w t .selecting
      exact .inr (.inr ⟨t, _, _, _, .reported hstage, ⟨hmoved, hs, ho, hc⟩, fun hf => by cases hf⟩)
  | tick t =>
    rw [World.step] at h
    split at h
    · rename_i hstage
      cases h
      cases t with
      | sync => exact .inr (.inr ⟨.sync, _, _, _, .ticked hstage rfl, jumped_begin .., fun _ => rfl⟩)
      | compaction => exact .inr (.inr ⟨.compaction, _, _, _, .asked hstage, jumped_setStage .., fun _ => rfl⟩)
    · cases h
  | stop t =>
    rw [World.step] at h
    split at h
    · rename_i hstage
      cases h
      exact .inr (.inr ⟨t, _, _, _, .stopped hstage.1 hstage.2, jumped_setStage .., fun hf => by cases hf⟩)
    · cases h

end

/-! ## Every call comes to an end -/

/-- The ways through a call, whatever it finds. -/
inductive Leads : Pc → Pc → Prop
  | refuse (c : Client) {pc : Pc} {a : Answer} (h : pc.outcome = some a) : Leads (.start c) pc
  | enter (c : Client) : Leads (.start c) (.waiting c)
  | claims : Leads (.start (.write .compact)) .claim
  | busy (a : Answer) : Leads .claim (.finished a)
  | claimed : Leads .claim (.waiting (.write .compact))
  | rLock (key : Bytes) (past : List Call) : Leads (.waiting (.get key)) (.lookup key past)
  | scan (stop : List (Bytes × Bytes) → Bytes → Bytes → Option Err) : Leads (.waiting (.forEach stop)) (.snapshot stop)
  | lock (w : Writer) (rest : FileProg (Answer × Store)) : Leads (.waiting (.write w)) (.working w rest)
  | hit (key : Bytes) (past : List Call) (r : Except Err Bytes) : Leads (.lookup key past) (.leave key past r)
  | miss (key : Bytes) (past : List Call) : Leads (.lookup key past) (.read key past)
  | unread (key : Bytes) (past : List Call) (r : Except Err Bytes) : Leads (.read key past) (.leave key past r)
  | found (key value : Bytes) (past : List Call) : Leads (.read key past) (.fill key value past)
  | filled (key value : Bytes) (past : List Call) (r : Except Err Bytes) :
      Leads (.fill key value past) (.leave key past r)
  | left (key : Bytes) (past : List Call) (r : Except Err Bytes) : Leads (.leave key past r) (.got key past r)
  | listed (stop : List (Bytes × Bytes) → Bytes → Bytes → Option Err) (keys : List Bytes) (scratch : Bytes)
      (seen : List (Bytes × Bytes)) : Leads (.snapshot stop) (.scanning stop keys scratch seen)
  | scanned (stop : List (Bytes × Bytes) → Bytes → Bytes → Option Err) (scratch : Bytes)
      (seen : List (Bytes × Bytes)) (a : Answer) : Leads (.scanning stop [] scratch seen) (.finished a)
  | next (stop : List (Bytes × Bytes) → Bytes → Bytes → Option Err) (key : Bytes) (keys : List Bytes) (scratch : Bytes)
      (seen : List (Bytes × Bytes)) :
      Leads (.scanning stop (key :: keys) scratch seen) (.visiting stop key keys scratch seen)
  | stopped (stop : List (Bytes × Bytes) → Bytes → Bytes → Option Err) (key : Bytes) (keys : List Bytes)
      (scratch : Bytes) (seen : List (Bytes × Bytes)) (a : Answer) :
      Leads (.visiting stop key keys scratch seen) (.finished a)
  | visited (stop : List (Bytes × Bytes) → Bytes → Bytes → Option Err) (key : Bytes) (keys : List Bytes)
      (scratch scratch' : Bytes) (seen seen' : List (Bytes × Bytes)) :
      Leads (.visiting stop key keys scratch seen) (.scanning stop keys scratch' seen')
  | works (w : Writer) (o : FileOp) (k : o.Res → FileProg (Answer × Store)) (r : o.Res) :
      Leads (.working w (.op o k)) (.working w (k r))
  | worked (w : Writer) (r : Answer × Store) : Leads (.working w (.ret r)) (.unlocking w r.1)
  | unlocked (w : Writer) (a : Answer) : Leads (.unlocking w a) (.finished a)
  | unlockedClaim (a : Answer) : Leads (.unlocking .compact a) (.unclaim a)
  | unclaimed (a : Answer) : Leads (.unclaim a) (.finished a)
  | disturbs (f : Disk → Disk) (fs : List (Disk → Disk)) : Leads (.other (f :: fs)) (.other fs)

section
variable {κ : Type} [DecidableEq κ] {pc pc' : Pc} {i : κ} {g g' : Shared κ}

omit [DecidableEq κ] in
theorem startStep_leads (g : Shared κ) (c : Client) : Leads (.start c) (startStep g c).2 := by
  unfold startStep
  split
  · split
    · exact .refuse _ rfl
    · exact .enter _
  · split
    · exact .refuse _ rfl
    · exact .enter _
  · split
    · exact .refuse _ rfl
    · exact .enter _
  · split
    · exact .refuse _ rfl
    · dsimp only
      split
      · rename_i hcompact
        rw [hcompact]
        exact .claims
      · exact .enter _

theorem visitStep_leads (i : κ) (g : Shared κ) (stop : List (Bytes × Bytes) → Bytes → Bytes → Option Err) (key : Bytes)
    (keys : List Bytes) (scratch : Bytes) (seen : List (Bytes × Bytes)) :
    Leads (.visiting stop key keys scratch seen) (visitStep i g stop key keys scratch seen).2 := by
  unfold visitStep
  dsimp only
  split
  · exact .visited ..
  · split
    · exact .stopped ..
    · split
      · exact .stopped ..
      · exact .visited ..

/-- **Every step of a call is on its way.** -/
theorem callStep_leads (hstep : callStep i g pc = some (g', pc')) : Leads pc pc' := by
  cases pc with
  | start c =>
    have hlead := startStep_leads g c
    rwa [show startStep g c = (g', pc') from Option.some.inj hstep] at hlead
  | claim =>
    rw [callStep] at hstep
    split at hstep <;> cases hstep
    · exact .busy _
    · exact .claimed
  | waiting c =>
    cases c with
    | get key =>
      obtain ⟨m, -, heq⟩ := Option.map_eq_some_iff.mp hstep
      cases heq
      exact .rLock ..
    | forEach stop =>
      obtain ⟨m, -, heq⟩ := Option.map_eq_some_iff.mp hstep
      cases heq
      exact .scan _
    | write w =>
      obtain ⟨m, -, heq⟩ := Option.map_eq_some_iff.mp hstep
      cases heq
      exact .lock ..
  | lookup key past =>
    rw [callStep, lookupStep] at hstep
    split at hstep <;> cases hstep
    · exact .hit ..
    · exact .miss ..
  | read key past =>
    rw [callStep, readStep] at hstep
    split at hstep
    · cases hstep
      exact .unread ..
    · split at hstep <;> cases hstep
      · exact .unread ..
      · exact .found ..
  | fill key value past =>
    cases hstep
    exact .filled ..
  | leave key past r =>
    cases hstep
    exact .left ..
  | snapshot stop =>
    cases hstep
    exact .listed ..
  | scanning stop keys scratch seen =>
    cases keys with
    | nil =>
      cases hstep
      exact .scanned ..
    | cons key keys =>
      obtain ⟨m, -, heq⟩ := Option.map_eq_some_iff.mp hstep
      cases heq
      exact .next ..
  | visiting stop key keys scratch seen =>
    have hlead := visitStep_leads i g stop key keys scratch seen
    rwa [show visitStep i g stop key keys scratch seen = (g', pc') from Option.some.inj hstep] at hlead
  | working w rest =>
    cases rest with
    | op o k =>
      cases hstep
      exact .works ..
    | ret r =>
      cases hstep
      exact .worked ..
  | unlocking w a =>
    rw [callStep] at hstep
    split at hstep <;> cases hstep
    · rename_i hcompact
      rw [hcompact]
      exact .unlockedClaim a
    · exact .unlocked ..
  | unclaim a =>
    cases hstep
    exact .unclaimed a
  | got key past r => cases hstep
  | finished a => cases hstep
  | other changes =>
    cases changes with
    | nil => cases hstep
    | cons f fs =>
      cases hstep
      exact .disturbs ..

end

section
variable {pc : Pc}

theorem acc_outcome {a : Answer} (h : pc.outcome = some a) : Acc (fun x y => Leads y x) pc := by
  refine ⟨_, fun pc' hlead => ?_⟩
  cases hlead <;> cases h

theorem acc_finished (a : Answer) : Acc (fun x y => Leads y x) (.finished a) := acc_outcome rfl

theorem acc_unlocking (w : Writer) (a : Answer) : Acc (fun x y => Leads y x) (.unlocking w a) := by
  refine ⟨_, fun pc' hlead => ?_⟩
  cases hlead with
  | unlocked => exact acc_finished a
  | unlockedClaim =>
    refine ⟨_, fun pc' hlead => ?_⟩
    cases hlead
    exact acc_finished a

theorem acc_working (w : Writer) (rest : FileProg (Answer × Store)) : Acc (fun x y => Leads y x) (.working w rest) := by
  induction rest with
  | ret r =>
    refine ⟨_, fun pc' hlead => ?_⟩
    cases hlead
    exact acc_unlocking ..
  | op o k ih =>
    refine ⟨_, fun pc' hlead => ?_⟩
    cases hlead
    exact ih _

theorem acc_leave (key : Bytes) (past : List Call) (r : Except Err Bytes) :
    Acc (fun x y => Leads y x) (.leave key past r) := by
  refine ⟨_, fun pc' hlead => ?_⟩
  cases hlead
  exact acc_outcome rfl

theorem acc_fill (key value : Bytes) (past : List Call) : Acc (fun x y => Leads y x) (.fill key value past) := by
  refine ⟨_, fun pc' hlead => ?_⟩
  cases hlead
  exact acc_leave ..

theorem acc_read (key : Bytes) (past : List Call) : Acc (fun x y => Leads y x) (.read key past) := by
  refine ⟨_, fun pc' hlead => ?_⟩
  cases hlead with
  | unread => exact acc_leave ..
  | found => exact acc_fill ..

theorem acc_lookup (key : Bytes) (past : List Call) : Acc (fun x y => Leads y x) (.lookup key past) := by
  refine ⟨_, fun pc' hlead => ?_⟩
  cases hlead with
  | hit => exact acc_leave ..
  | miss => exact acc_read ..

theorem acc_visiting {stop : List (Bytes × Bytes) → Bytes → Bytes → Option Err} {keys : List Bytes}
    (h : ∀ scratch seen, Acc (fun x y => Leads y x) (.scanning stop keys scratch seen)) (key scratch : Bytes)
    (seen : List (Bytes × Bytes)) : Acc (fun x y => Leads y x) (.visiting stop key keys scratch seen) := by
  refine ⟨_, fun pc' hlead => ?_⟩
  cases hlead with
  | stopped => exact acc_finished _
  | visited => exact h ..

/-- A scan ends, since it has one key less to go with every visit. -/
theorem acc_scanning (stop : List (Bytes × Bytes) → Bytes → Bytes → Option Err) (keys : List Bytes) (scratch : Bytes)
    (seen : List (Bytes × Bytes)) : Acc (fun x y => Leads y x) (.scanning stop keys scratch seen) := by
  induction keys generalizing scratch seen with
  | nil =>
    refine ⟨_, fun pc' hlead => ?_⟩
    cases hlead
    exact acc_finished _
  | cons key keys ih =>
    refine ⟨_, fun pc' hlead => ?_⟩
    cases hlead
    exact acc_visiting ih ..

theorem acc_snapshot (stop : List (Bytes × Bytes) → Bytes → Bytes → Option Err) :
    Acc (fun x y => Leads y x) (.snapshot stop) := by
  refine ⟨_, fun pc' hlead => ?_⟩
  cases hlead
  exact acc_scanning ..

theorem acc_waiting (c : Client) : Acc (fun x y => Leads y x) (.waiting c) := by
  refine ⟨_, fun pc' hlead => ?_⟩
  cases hlead with
  | rLock => exact acc_lookup ..
  | scan => exact acc_snapshot _
  | lock => exact acc_working ..

theorem acc_claim : Acc (fun x y => Leads y x) .claim := by
  refine ⟨_, fun pc' hlead => ?_⟩
  cases hlead with
  | busy => exact acc_finished _
  | claimed => exact acc_waiting _

theorem acc_start (c : Client) : Acc (fun x y => Leads y x) (.start c) := by
  refine ⟨_, fun pc' hlead => ?_⟩
  cases hlead with
  | refuse _ h => exact acc_outcome h
  | enter => exact acc_waiting c
  | claims => exact acc_claim

theorem acc_other (changes : List (Disk → Disk)) : Acc (fun x y => Leads y x) (.other changes) := by
  induction changes with
  | nil => exact ⟨_, fun pc' hlead => by cases hlead⟩
  | cons f fs ih =>
    refine ⟨_, fun pc' hlead => ?_⟩
    cases hlead
    exact ih

/-- **No call goes on forever**, whatever the others do. -/
theorem leads_wellFounded : WellFounded fun x y => Leads y x := by
  refine ⟨fun pc => ?_⟩
  cases pc with
  | start c => exact acc_start c
  | claim => exact acc_claim
  | waiting c => exact acc_waiting c
  | lookup key past => exact acc_lookup ..
  | read key past => exact acc_read ..
  | fill key value past => exact acc_fill ..
  | leave key past r => exact acc_leave ..
  | got key past r => exact acc_outcome rfl
  | snapshot stop => exact acc_snapshot stop
  | scanning stop keys scratch seen => exact acc_scanning ..
  | visiting stop key keys scratch seen => exact acc_visiting (acc_scanning stop keys) ..
  | working w rest => exact acc_working ..
  | unlocking w a => exact acc_unlocking ..
  | unclaim a =>
    refine ⟨_, fun pc' hlead => ?_⟩
    cases hlead
    exact acc_finished a
  | finished a => exact acc_finished a
  | other changes => exact acc_other changes

end

/-! ## Nothing but the ticks goes on forever -/

/-- How far a background goroutine is from its end. -/
def TaskStage.rank : TaskStage → ℕ
  | .ended => 0
  | .selecting => 1
  | .reporting _ => 2
  | .working => 3
  | .asking => 4

/-- Where a goroutine is. -/
def World.place (w : World ι) : Worker ι → ℕ × Pc
  | .inl i => (0, w.calls.loc (.inl i))
  | .inr t => ((w.stage t).rank, w.calls.loc (.inr t))

/-- One step of one goroutine, a tick apart. -/
def Lower : ℕ × Pc → ℕ × Pc → Prop := Prod.Lex (· < ·) fun x y => Leads y x

section
variable {w w' : World ι}

theorem Called.lower {j : Worker ι} (h : Called w w' j) : OneDown Lower w'.place w.place := by
  obtain ⟨g, pc, hstep, hm⟩ := move_cases h.move
  have hrank : ∀ k, (w'.place k).1 = (w.place k).1 ∧ (w'.place k).2 = w'.calls.loc k ∧
      (w.place k).2 = w.calls.loc k := by
    intro k
    cases k with
    | inl i => exact ⟨rfl, rfl, rfl⟩
    | inr t => exact ⟨by rw [World.place, World.place, h.stage], rfl, rfl⟩
  refine ⟨j, ?_, fun k hk => ?_⟩
  · refine Prod.lex_iff.mpr (.inr ⟨(hrank j).1, ?_⟩)
    rw [(hrank j).2.1, (hrank j).2.2, hm.loc]
    exact callStep_leads hstep
  · exact Prod.ext (hrank k).1 (by rw [(hrank k).2.1, (hrank k).2.2, hm.others k hk])

omit [DecidableEq ι] in
theorem Changes.rank_lt {t : Task} {pc : Pc} {stage : TaskStage} (h : Changes w t false pc stage) :
    stage.rank < (w.stage t).rank := by
  cases h with
  | compacts h => rw [h]; decide
  | content h => rw [h]; decide
  | done h ha hstage =>
    rw [h]
    rcases hstage with rfl | ⟨e, rfl⟩
    · decide
    · exact Nat.lt_succ_self 2
  | reported h => rw [h]; exact Nat.lt_succ_self 1
  | stopped h => rw [h]; decide

omit [DecidableEq ι] in
theorem Jumped.lower {t : Task} {pc : Pc} {stage : TaskStage} (h : Jumped w w' t pc stage)
    (hrank : stage.rank < (w.stage t).rank) : OneDown Lower w'.place w.place := by
  refine ⟨.inr t, Prod.lex_iff.mpr (.inl ?_), fun k hk => ?_⟩
  · rw [World.place, World.place, h.stage]
    exact hrank
  · have hloc := h.moved.others k hk
    cases k with
    | inl i => exact Prod.ext rfl hloc
    | inr u => exact Prod.ext (by rw [World.place, World.place, h.others u fun heq => hk (congrArg Sum.inr heq)]) hloc

/-- **A run without ticks is finite.** -/
theorem quiet_wellFounded [Finite ι] : WellFounded fun w' w : World ι => w.Quiet w' := by
  have hlower : WellFounded Lower := WellFounded.prod_lex wellFounded_lt leads_wellFounded
  have hplaces : WellFounded fun f g : Worker ι → ℕ × Pc => OneDown Lower f g := wellFounded_oneDown hlower
  -- the context ends once; between, one goroutine goes down with every step
  have hlt : WellFounded fun m n : ℕ => m < n := wellFounded_lt
  refine Subrelation.wf ?_ (InvImage.wf (fun w : World ι => ((!w.cancelled).toNat, w.place))
    (WellFounded.prod_lex hlt hplaces))
  rintro w' w ⟨turn, htick, hstep⟩
  rcases World.step_cases hstep with ⟨hc, rfl⟩ | ⟨j, hcalled⟩ | ⟨t, ticked, pc, stage, hchanges, hjumped, hticked⟩
  · refine Prod.lex_iff.mpr (.inl ?_)
    change 0 < (!w.cancelled).toNat
    rw [hc]
    exact Nat.zero_lt_one
  · exact Prod.lex_iff.mpr (.inr ⟨congrArg (fun b : Bool => (!b).toNat) hcalled.cancelled, hcalled.lower⟩)
  · cases ticked with
    | true => exact absurd (hticked rfl) (htick t)
    | false =>
      refine Prod.lex_iff.mpr (.inr ⟨congrArg (fun b : Bool => (!b).toNat) hjumped.cancelled, ?_⟩)
      exact hjumped.lower hchanges.rank_lt

end

/-! ## Nothing is stuck -/

/-- A call of this store, and not another process. -/
def Pc.OfStore : Pc → Prop
  | .other _ => False
  | _ => True

/-- What holds of the goroutines at all times. -/
structure Tended (w : World ι) : Prop where
  held : Held Pc.Reading Pc.Writing w.calls.shared.mutex w.calls
  own : ∀ j, (w.calls.loc j).OfStore
  rest : ∀ t, w.stage t ≠ .working → ∃ a, (w.calls.loc (.inr t)).outcome = some a

section
variable {w w' : World ι} {pc pc' : Pc} {i : Worker ι} {g g' : Shared (Worker ι)}

theorem Leads.ofStore (hlead : Leads pc pc') (h : pc.OfStore) : pc'.OfStore := by
  cases hlead with
  | refuse c houtcome =>
    unfold Pc.outcome at houtcome
    split at houtcome
    · trivial
    · trivial
    · cases houtcome
  | disturbs f fs => exact absurd h id
  | _ => trivial

omit [DecidableEq ι] in
theorem Changes.pc_cases {t : Task} {ticked : Bool} {stage : TaskStage} (h : Changes w t ticked pc stage) :
    (pc = w.calls.loc (.inr t) ∧ ((∃ a, pc.outcome = some a) ∨ w.stage t ≠ .working) ∧ stage ≠ .working) ∨
      ((pc = .waiting (.write .sync) ∨ pc = .start (.write .compact)) ∧ w.stage t ≠ .working ∧ w.stage t ≠ .ended ∧
        stage = .working) := by
  cases h with
  | ticked h hpc => exact .inr ⟨.inl hpc, by rw [h]; decide, by rw [h]; decide, rfl⟩
  | asked h => exact .inl ⟨rfl, .inr (by rw [h]; decide), by decide⟩
  | compacts h hpc => exact .inr ⟨.inr hpc, by rw [h]; decide, by rw [h]; decide, rfl⟩
  | content h => exact .inl ⟨rfl, .inr (by rw [h]; decide), by decide⟩
  | done h ha hstage =>
    refine .inl ⟨rfl, .inl ⟨_, ha⟩, ?_⟩
    rcases hstage with rfl | ⟨e, rfl⟩
    · decide
    · exact fun heq => by cases heq
  | reported h => exact .inl ⟨rfl, .inr (by rw [h]; exact fun heq => by cases heq), by decide⟩
  | stopped h => exact .inl ⟨rfl, .inr (by rw [h]; decide), by decide⟩

theorem Tended.called {j : Worker ι} (h : Tended w) (hcalled : Called w w' j) : Tended w' := by
  obtain ⟨g, pc, hstep, hm⟩ := move_cases hcalled.move
  refine ⟨held_move h.held hcalled.move, fun k => ?_, fun t ht => ?_⟩
  · by_cases hk : k = j
    · rw [hk, hm.loc]
      exact (callStep_leads hstep).ofStore (h.own j)
    · rw [hm.others k hk]
      exact h.own k
  · rw [hcalled.stage] at ht
    have hne : Sum.inr t ≠ j := fun heq => ht (hcalled.task t heq.symm)
    rw [hm.others _ hne]
    exact h.rest t ht

omit [DecidableEq ι] in
/-- A background goroutine between its calls holds nothing. -/
theorem Tended.resting {t : Task} {ticked : Bool} {stage : TaskStage} (h : Tended w)
    (hchanges : Changes w t ticked pc stage) : ∃ a, (w.calls.loc (.inr t)).outcome = some a := by
  rcases hchanges.pc_cases with ⟨rfl, hrest | hrest, -⟩ | ⟨-, hrest, -, -⟩
  · exact hrest
  · exact h.rest t hrest
  · exact h.rest t hrest

omit [DecidableEq ι] in
theorem Changes.outside {t : Task} {ticked : Bool} {stage : TaskStage} (hchanges : Changes w t ticked pc stage)
    (h : Tended w) : pc.Outside ∧ pc.OfStore := by
  obtain ⟨a, ha⟩ := h.resting hchanges
  rcases hchanges.pc_cases with ⟨rfl, -, -⟩ | ⟨rfl | rfl, -, -, -⟩
  · exact ⟨(outcome_outside ha).1, h.own _⟩
  · exact ⟨⟨id, id⟩, trivial⟩
  · exact ⟨⟨id, id⟩, trivial⟩

theorem Jumped.held {t : Task} {ticked : Bool} {stage : TaskStage} (h : Tended w)
    (hchanges : Changes w t ticked pc stage) (hjumped : Jumped w w' t pc stage) :
    Held Pc.Reading Pc.Writing w'.calls.shared.mutex w'.calls := by
  obtain ⟨a, ha⟩ := h.resting hchanges
  have hout := (outcome_outside ha).1
  have hout' := (hchanges.outside h).1
  rw [hjumped.moved.shared]
  exact h.held.stay hjumped.moved (iff_of_false hout'.1 hout.1) (iff_of_false hout'.2 hout.2)

theorem Tended.jumped {t : Task} {ticked : Bool} {stage : TaskStage} (h : Tended w)
    (hchanges : Changes w t ticked pc stage) (hjumped : Jumped w w' t pc stage) : Tended w' := by
  refine ⟨hjumped.held h hchanges, fun k => ?_, fun u hu => ?_⟩
  · by_cases hk : k = .inr t
    · rw [hk, hjumped.moved.loc]
      exact (hchanges.outside h).2
    · rw [hjumped.moved.others k hk]
      exact h.own k
  · by_cases hut : u = t
    · rw [hut, hjumped.stage] at hu
      rw [hut, hjumped.moved.loc]
      rcases hchanges.pc_cases with ⟨rfl, -, -⟩ | ⟨-, -, -, hworking⟩
      · exact h.resting hchanges
      · exact absurd hworking hu
    · rw [hjumped.others u hut] at hu
      rw [hjumped.moved.others _ fun heq => hut (Sum.inr.inj heq)]
      exact h.rest u hu

theorem Tended.step (h : Tended w) (hstep : w.Steps w') : Tended w' := by
  obtain ⟨turn, hturn⟩ := hstep
  rcases World.step_cases hturn with ⟨-, rfl⟩ | ⟨j, hcalled⟩ | ⟨t, ticked, pc, stage, hchanges, hjumped, -⟩
  · exact ⟨h.held, h.own, h.rest⟩
  · exact h.called hcalled
  · exact h.jumped hchanges hjumped

omit [DecidableEq ι] in
theorem World.Opened.tended {x : Session} (h : w.Opened x) : Tended w := by
  have hloc : ∀ j, (w.calls.loc j).Outside ∧ (w.calls.loc j).OfStore := by
    intro j
    cases j with
    | inl i =>
      obtain ⟨c, hc⟩ := h.clients i
      rw [hc]
      exact ⟨⟨id, id⟩, trivial⟩
    | inr t =>
      rw [(h.tasks t).1]
      exact ⟨⟨id, id⟩, trivial⟩
  refine ⟨?_, fun j => (hloc j).2, fun t _ => ⟨_, by rw [(h.tasks t).1]; rfl⟩⟩
  rw [h.shared]
  exact ⟨fun j => iff_of_false (Finset.notMem_empty j) (hloc j).1.1,
    fun j => iff_of_false (Option.some_ne_none j).symm (hloc j).1.2, fun _ _ => rfl⟩

/-- Whoever holds the store lock can go on. -/
theorem holder_moves (i : Worker ι) (g : Shared (Worker ι)) (h : pc.Reading ∨ pc.Writing) :
    pc.outcome = none ∧ pc.awaitsTasks = false ∧ pc.rLocks = false ∧ ∃ r, callStep i g pc = some r := by
  cases pc with
  | lookup key past => exact ⟨rfl, rfl, rfl, _, rfl⟩
  | read key past => exact ⟨rfl, rfl, rfl, _, rfl⟩
  | fill key value past => exact ⟨rfl, rfl, rfl, _, rfl⟩
  | leave key past r => exact ⟨rfl, rfl, rfl, _, rfl⟩
  | snapshot stop => exact ⟨rfl, rfl, rfl, _, rfl⟩
  | visiting stop key keys scratch seen => exact ⟨rfl, rfl, rfl, _, rfl⟩
  | working v rest => cases rest <;> exact ⟨rfl, rfl, rfl, _, rfl⟩
  | unlocking v a => exact ⟨rfl, rfl, rfl, _, rfl⟩
  | _ => exact absurd h (by simp [Pc.Reading, Pc.Writing])

/-- A call that is not over can go on when the lock is free. -/
theorem free_moves (i : Worker ι) (hfree : g.mutex.writer = none ∧ g.mutex.readers = ∅) (hown : pc.OfStore)
    (hpc : pc.outcome = none) : ∃ r, callStep i g pc = some r := by
  have hr : g.mutex.rLock i = some { g.mutex with readers := insert i g.mutex.readers } := if_pos hfree.1
  have hw : g.mutex.lock i = some { g.mutex with writer := some i } := if_pos hfree
  cases pc with
  | start c => exact ⟨_, rfl⟩
  | claim =>
    rw [callStep]
    split <;> exact ⟨_, rfl⟩
  | waiting c => cases c <;> simp [callStep, hr, hw]
  | scanning stop keys scratch seen => cases keys <;> simp [callStep, hr]
  | unclaim a => exact ⟨_, rfl⟩
  | got key past r => cases hpc
  | finished a => cases hpc
  | other changes => exact absurd hown id
  | working v rest => cases rest <;> exact ⟨_, rfl⟩
  | _ => exact ⟨_, rfl⟩

theorem move_of_callStep {j : Worker ι} (h : ∃ r, callStep j w.calls.shared (w.calls.loc j) = some r) :
    ∃ w', w.move j = some w' := by
  obtain ⟨r, hr⟩ := h
  exact ⟨_, by rw [World.move, Library.move, hr]; rfl⟩

theorem quiet_of_client {i : ι} (h : w.step (.client i) = some w') : w.Quiet w' := ⟨.client i, nofun, h⟩

theorem quiet_of_task {t : Task} (h : w.taskStep t = some w') : w.Quiet w' := ⟨.task t, nofun, h⟩

theorem quiet_of_stop {t : Task} (h : w.step (.stop t) = some w') : w.Quiet w' := ⟨.stop t, nofun, h⟩

/-- The step of a client inside its call. -/
theorem step_client {i : ι} (hawaits : (w.calls.loc (.inl i)).awaitsTasks = false)
    (h : ∃ r, callStep (.inl i) w.calls.shared (w.calls.loc (.inl i)) = some r) :
    ∃ w', w.step (.client i) = some w' := by
  obtain ⟨w', hw'⟩ := move_of_callStep h
  exact ⟨w', by rw [World.step, if_neg (by rw [hawaits]; exact Bool.false_ne_true), hw']⟩

/-- The step of a background goroutine inside its call. -/
theorem step_task {t : Task} (hstage : w.stage t = .working) (hpc : (w.calls.loc (.inr t)).outcome = none)
    (h : ∃ r, callStep (.inr t) w.calls.shared (w.calls.loc (.inr t)) = some r) :
    ∃ w', w.step (.task t) = some w' := by
  obtain ⟨w', hw'⟩ := move_of_callStep h
  refine ⟨w', ?_⟩
  rw [World.step, World.taskStep, hstage]
  dsimp only
  rw [hpc]
  exact hw'

omit [DecidableEq ι] in
/-- A background goroutine that is inside a call works. -/
theorem Tended.working (h : Tended w) {t : Task} (hpc : (w.calls.loc (.inr t)).outcome = none) :
    w.stage t = .working := by
  by_contra hstage
  obtain ⟨a, ha⟩ := h.rest t hstage
  rw [hpc] at ha
  cases ha

theorem quiet_client {i : ι} (hawaits : (w.calls.loc (.inl i)).awaitsTasks = false)
    (h : ∃ r, callStep (.inl i) w.calls.shared (w.calls.loc (.inl i)) = some r) : ∃ w', w.Quiet w' := by
  obtain ⟨w', hw'⟩ := step_client hawaits h
  exact ⟨w', quiet_of_client hw'⟩

theorem quiet_task {t : Task} (hstage : w.stage t = .working) (hpc : (w.calls.loc (.inr t)).outcome = none)
    (h : ∃ r, callStep (.inr t) w.calls.shared (w.calls.loc (.inr t)) = some r) : ∃ w', w.Quiet w' := by
  obtain ⟨w', hw'⟩ := step_task hstage hpc h
  exact ⟨w', .task t, nofun, hw'⟩

/-- A goroutine inside its call that can go on and does not ask for the lock as a reader. -/
theorem Tended.strict_move {j : Worker ι} (h : Tended w) (hpc : (w.calls.loc j).outcome = none)
    (hreader : (w.calls.loc j).rLocks = false)
    (hawaits : (w.calls.loc j).awaitsTasks = true → w.cancelled = true ∧ w.waited = true)
    (hstep : ∃ r, callStep j w.calls.shared (w.calls.loc j) = some r) : ∃ w', w.Strict w' := by
  cases j with
  | inl i =>
    have hadmits : w.Admits (.client i) := fun hr => by rw [hreader] at hr; cases hr
    cases hwaits : (w.calls.loc (.inl i)).awaitsTasks with
    | false =>
      obtain ⟨w', hw'⟩ := step_client hwaits hstep
      exact ⟨w', .client i, nofun, hadmits, hw'⟩
    | true =>
      obtain ⟨hcancelled, hwaited⟩ := hawaits hwaits
      obtain ⟨w', hw'⟩ := move_of_callStep hstep
      refine ⟨w', .client i, nofun, hadmits, ?_⟩
      rw [World.step, if_pos hwaits, if_pos hcancelled, if_pos hwaited, hw']
  | inr t =>
    have hstage := h.working hpc
    obtain ⟨w', hw'⟩ := step_task hstage hpc hstep
    refine ⟨w', .task t, nofun, fun hr => ?_, hw'⟩
    rw [hstage, hreader] at hr
    rcases hr with hr | hr <;> cases hr

/-- Someone holds the lock, and can go on. -/
theorem Tended.holder {j : Worker ι} (h : Tended w) (hj : (w.calls.loc j).Reading ∨ (w.calls.loc j).Writing) :
    ∃ w', w.Strict w' := by
  obtain ⟨houtcome, hawaits, hreader, hstep⟩ := holder_moves j w.calls.shared hj
  exact h.strict_move houtcome hreader (fun hw => by rw [hawaits] at hw; cases hw) hstep

omit [DecidableEq ι] in
/-- When no one holds the lock, it is free. -/
theorem Tended.free (h : Tended w) (hnone : ∀ j, ¬ ((w.calls.loc j).Reading ∨ (w.calls.loc j).Writing)) :
    w.calls.shared.mutex.writer = none ∧ w.calls.shared.mutex.readers = ∅ := by
  refine ⟨?_, Finset.eq_empty_of_forall_notMem fun j hj => hnone j (.inl ((h.held.readers j).mp hj))⟩
  by_contra hne
  obtain ⟨j, hj⟩ := Option.ne_none_iff_exists'.mp hne
  exact hnone j (.inr ((h.held.writer j).mp hj))

/-- A background goroutine goes on, unless it is gone or waits for a tick. -/
theorem Tended.task_moves (h : Tended w) (hfree : w.calls.shared.mutex.writer = none ∧ w.calls.shared.mutex.readers = ∅)
    (t : Task) : (∃ w', w.Quiet w') ∨ w.stage t = .ended ∨ (w.stage t = .selecting ∧ w.cancelled = false) := by
  cases hstage : w.stage t with
  | ended => exact .inr (.inl rfl)
  | selecting =>
    cases hc : w.cancelled with
    | false => exact .inr (.inr ⟨rfl, rfl⟩)
    | true =>
      refine .inl ⟨w.setStage t .ended, quiet_of_stop (t := t) ?_⟩
      rw [World.step, if_pos ⟨hstage, hc⟩]
  | asking =>
    refine .inl ?_
    cases hneeds : w.calls.shared.session.store.needsCompaction with
    | true =>
      refine ⟨w.begin t (.start (.write .compact)), quiet_of_task (t := t) ?_⟩
      simp only [World.taskStep, hstage, hfree.1, hneeds, if_true]
    | false =>
      refine ⟨w.setStage t .selecting, quiet_of_task (t := t) ?_⟩
      simp only [World.taskStep, hstage, hfree.1, hneeds, if_true, Bool.false_eq_true, if_false]
  | working =>
    refine .inl ?_
    cases houtcome : (w.calls.loc (.inr t)).outcome with
    | none => exact quiet_task hstage houtcome (free_moves _ hfree (h.own _) houtcome)
    | some a =>
      have hstep : ∃ w', w.taskStep t = some w' := by
        rw [World.taskStep, hstage]
        dsimp only
        rw [houtcome]
        split <;> first | exact ⟨_, rfl⟩ | (rename_i heq; cases heq)
      obtain ⟨w', hw'⟩ := hstep
      exact ⟨w', quiet_of_task hw'⟩
  | reporting e =>
    refine .inl ⟨{ w.setStage t .selecting with reports := w.reports ++ [e] }, quiet_of_task (t := t) ?_⟩
    simp only [World.taskStep, hstage]

/-- **A state in which nothing but a tick can happen is one in which all calls have returned**, and in
which, after a `Close`, the background goroutines are gone. -/
theorem Tended.returned (h : Tended w) (hstuck : ∀ w', ¬ w.Quiet w') :
    (∀ i, ∃ a, (w.calls.loc (.inl i)).outcome = some a) ∧
      ∀ t, w.stage t = .ended ∨ (w.stage t = .selecting ∧ w.cancelled = false) := by
  have hnone : ∀ j, ¬ ((w.calls.loc j).Reading ∨ (w.calls.loc j).Writing) := by
    intro j hj
    obtain ⟨w', turn, htick, -, hw'⟩ := h.holder hj
    exact hstuck w' ⟨turn, htick, hw'⟩
  have hfree := h.free hnone
  have htasks : ∀ t, w.stage t = .ended ∨ (w.stage t = .selecting ∧ w.cancelled = false) := by
    intro t
    rcases h.task_moves hfree t with ⟨w', hw'⟩ | hrest
    · exact absurd hw' (hstuck w')
    · exact hrest
  refine ⟨fun i => ?_, htasks⟩
  by_contra hrunning
  have houtcome : (w.calls.loc (.inl i)).outcome = none := by
    by_contra hne
    exact hrunning (Option.ne_none_iff_exists'.mp hne)
  have hcall := free_moves (.inl i) hfree (h.own _) houtcome
  cases hawaits : (w.calls.loc (.inl i)).awaitsTasks with
  | false =>
    obtain ⟨w', hw'⟩ := quiet_client hawaits hcall
    exact hstuck w' hw'
  | true =>
    cases hc : w.cancelled with
    | false =>
      refine hstuck { w with cancelled := true } (quiet_of_client (i := i) ?_)
      rw [World.step, if_pos hawaits, if_neg (by rw [hc]; exact Bool.false_ne_true)]
    | true =>
      -- the context is done, so the tasks are gone and `Close` gets the lock
      have hended : ∀ t, w.stage t = .ended := by
        intro t
        rcases htasks t with hended | ⟨-, hopen⟩
        · exact hended
        · rw [hc] at hopen
          cases hopen
      obtain ⟨w', hw'⟩ := move_of_callStep hcall
      refine hstuck w' (quiet_of_client (i := i) ?_)
      rw [World.step, if_pos hawaits, if_pos hc, if_pos (waited_iff.mpr hended), hw']

/-- **Readers that are kept out do not stop the others.** If anything but a tick can happen, then something
that lets no reader in while a writer waits: the holder of the lock goes on, or the writer gets it. -/
theorem Tended.strict (h : Tended w) (hquiet : w.Quiet w') : ∃ w', w.Strict w' := by
  by_cases hheld : ∃ j, (w.calls.loc j).Reading ∨ (w.calls.loc j).Writing
  · obtain ⟨j, hj⟩ := hheld
    exact h.holder hj
  by_cases hwaits : w.WriterWaits
  · obtain ⟨j, v, hloc, hclose⟩ := hwaits
    have hfree := h.free fun j hj => hheld ⟨j, hj⟩
    have hpc : (w.calls.loc j).outcome = none := by rw [hloc]; rfl
    refine h.strict_move hpc (by rw [hloc]; rfl) (fun hawaits => hclose ?_) (free_moves j hfree (h.own j) hpc)
    rw [hloc] at hawaits
    cases v with
    | close => rfl
    | _ => cases hawaits
  · obtain ⟨turn, htick, hstep⟩ := hquiet
    refine ⟨w', turn, htick, ?_, hstep⟩
    cases turn with
    | client i => exact fun _ => hwaits
    | task t => exact fun _ => hwaits
    | tick t => trivial
    | stop t => trivial

/-- **Every call returns.** Whatever finitely many clients call (`Get`, `ForEach`, `Put`, `Delete`, `Sync`,
`Compact`, `Close`), however their steps and those of the background tasks interleave and whenever the tickers
tick: a run without ticks cannot go on forever, and where no step is left but ticks and readers that a waiting
writer keeps out, all calls have returned and, after a `Close`, both tasks have ended. -/
theorem calls_return [Finite ι] {x : Session} {w₀ w : World ι} (hopened : w₀.Opened x)
    (hreach : Relation.ReflTransGen World.Steps w₀ w) :
    Acc (fun b a : World ι => a.Quiet b) w ∧ ((∀ w', ¬ w.Strict w') →
      (∀ i, ∃ a, (w.calls.loc (.inl i)).outcome = some a) ∧ (w.cancelled = true → ∀ t, w.stage t = .ended)) := by
  have htended : Tended w := by
    induction hreach with
    | refl => exact hopened.tended
    | tail _ hstep ih => exact ih.step hstep
  refine ⟨quiet_wellFounded.apply w, fun hstuck => ?_⟩
  obtain ⟨hclients, htasks⟩ := htended.returned fun w' hquiet => (htended.strict hquiet).elim hstuck
  refine ⟨hclients, fun hc t => ?_⟩
  rcases htasks t with hended | ⟨-, hopen⟩
  · exact hended
  · rw [hc] at hopen
    cases hopen

end

/-- A store just opened, with both tasks started. -/
def World.opened (x : Session) (calls : ι → Client) : World ι where
  calls := ⟨.ofSession x, Sum.elim (fun i => .start (calls i)) fun _ => .finished (.done (.ok ()))⟩
  stage := fun _ => .selecting
  cancelled := false
  reports := []

omit [DecidableEq ι] in
theorem opened_opened (x : Session) (calls : ι → Client) : (World.opened x calls).Opened x :=
  ⟨rfl, fun i => ⟨calls i, rfl⟩, fun _ => ⟨rfl, .inl rfl⟩, rfl⟩

/-- The world after some signals. -/
def World.after (w : World ι) : List (Signal ι) → Option (World ι)
  | [] => some w
  | signal :: signals => (w.step signal).bind fun w => World.after w signals

theorem reach_after {w w' : World ι} {signals : List (Signal ι)} (h : w.after signals = some w') :
    Relation.ReflTransGen World.Steps w w' := by
  induction signals generalizing w with
  | nil =>
    cases h
    exact .refl
  | cons signal signals ih =>
    obtain ⟨w₁, hstep, hrest⟩ := Option.bind_eq_some_iff.mp h
    exact .head ⟨signal, hstep⟩ (ih hrest)

theorem callStep_outcome {g : Shared ι} {i : ι} {pc : Pc} (h : pc.outcome.isSome = true) :
    callStep i g pc = none ∧ pc.awaitsTasks = false := by
  cases pc with
  | got key past r => exact ⟨rfl, rfl⟩
  | finished a => exact ⟨rfl, rfl⟩
  | _ => cases h

/-- Where all calls have returned and the tasks are gone, nothing is left to do. -/
theorem not_quiet_of_returned {w w' : World ι} (hclients : ∀ i, (w.calls.loc (.inl i)).outcome.isSome = true)
    (htasks : ∀ t, w.stage t = .ended) : ¬ w.Quiet w' := by
  rintro ⟨turn, htick, hstep⟩
  cases turn with
  | client i =>
    obtain ⟨hcall, hawaits⟩ := callStep_outcome (g := w.calls.shared) (i := .inl i) (hclients i)
    rw [World.step, hawaits, World.move, Library.move, hcall] at hstep
    cases hstep
  | task t =>
    rw [World.step, World.taskStep, htasks t] at hstep
    cases hstep
  | tick t => exact htick t rfl
  | stop t =>
    rw [World.step, htasks t] at hstep
    cases hstep

/-- A `Get`, a `Put` and a `Close`. -/
def threeCalls : Fin 3 → Client := ![.get [1], .write (.put [1] [9] none), .write .close]

/-- The `Get` holds the lock, and the `Put` and the periodic sync wait for it. -/
def untilWaiting {ι : Type} (reader writer : ι) : List (Signal ι) :=
  [.client reader, .client reader, .client writer, .tick .sync]

/-- The `Get` leaves, the `Put` and the sync do their work, and `Close` ends both tasks. -/
def untilClosed {ι : Type} (reader writer closer : ι) : List (Signal ι) :=
  List.replicate 4 (.client reader) ++ List.replicate 5 (.client writer) ++ List.replicate 5 (.task .sync) ++
    List.replicate 2 (.client closer) ++ [.stop .sync, .stop .compaction] ++ List.replicate 7 (.client closer)

/-- Writers wait for a reader; and at the end of the run all calls have returned and the tasks have ended. -/
theorem calls_return_waiting : ∃ x w w', worked "db" .zero [.put [1] [2] none] = some x ∧
    (World.opened x threeCalls).after (untilWaiting 0 1) = some w ∧ w.calls.shared.mutex.readers = {.inl 0} ∧
    w.calls.loc (.inl 1) = .waiting (.write (.put [1] [9] none)) ∧
    w.calls.loc (.inr .sync) = .waiting (.write .sync) ∧ Acc (fun b a : World (Fin 3) => a.Quiet b) w ∧
    w.after (untilClosed 0 1 2) = some w' ∧ (∀ w'', ¬ w'.Strict w'') ∧
    (∀ i, ∃ a, (w'.calls.loc (.inl i)).outcome = some a) ∧ ∀ t, w'.stage t = .ended := by
  have haccepted : ∀ call ∈ [Call.put [1] [2] none], call.Accepted "db" := by simp [Call.Accepted]
  obtain ⟨x, hx, -⟩ := worked_reachable (zero_accepted (by decide)) haccepted
  have hwaiting : ((worked "db" .zero [.put [1] [2] none]).bind fun x =>
      (World.opened x threeCalls).after (untilWaiting 0 1)).map (fun w => (w.calls.shared.mutex.readers,
        (w.calls.loc (.inl 1)).waitsFor, (w.calls.loc (.inr .sync)).waitsFor)) =
      some ({.inl 0}, some (.put [1] [9] none), some .sync) := by
    decide +kernel
  have hclosed : (((worked "db" .zero [.put [1] [2] none]).bind fun x =>
      (World.opened x threeCalls).after (untilWaiting 0 1)).bind fun w => w.after (untilClosed 0 1 2)).map (fun w =>
        decide ((∀ i, (w.calls.loc (.inl i)).outcome.isSome = true) ∧ ∀ t, w.stage t = .ended)) = some true := by
    decide +kernel
  rw [hx, Option.bind_some] at hwaiting hclosed
  obtain ⟨w, hafter, hw⟩ := Option.map_eq_some_iff.mp hwaiting
  rw [hafter, Option.bind_some] at hclosed
  obtain ⟨w', hafter', hw'⟩ := Option.map_eq_some_iff.mp hclosed
  obtain ⟨hreaders, hput, hsync⟩ : w.calls.shared.mutex.readers = {.inl 0} ∧
      (w.calls.loc (.inl 1)).waitsFor = some (.put [1] [9] none) ∧
      (w.calls.loc (.inr .sync)).waitsFor = some .sync :=
    ⟨congrArg Prod.fst hw, congrArg (fun r => r.2.1) hw, congrArg (fun r => r.2.2) hw⟩
  obtain ⟨hclients, htasks⟩ := of_decide_eq_true hw'
  have hopened := opened_opened x threeCalls
  have hstuck : ∀ w'', ¬ w'.Strict w'' := by
    rintro w'' ⟨turn, htick, -, hstep⟩
    exact not_quiet_of_returned hclients htasks ⟨turn, htick, hstep⟩
  obtain ⟨hreturned, -⟩ := (calls_return hopened ((reach_after hafter).trans (reach_after hafter'))).2 hstuck
  exact ⟨x, w, w', hx, hafter, hreaders, Pc.eq_of_waitsFor hput, Pc.eq_of_waitsFor hsync,
    (calls_return hopened (reach_after hafter)).1, hafter', hstuck, hreturned, htasks⟩

/-! ## After `Close` -/

/-- The call is of this kind. -/
def Pc.Runs (v : Writer) : Pc → Prop
  | .start (.write u) | .waiting (.write u) | .working u _ | .unlocking u _ => u = v
  | .claim => v = .compact
  | _ => False

/-- The step at which `Close` has given up the file lock. -/
def Pc.releases : Pc → Bool
  | .working .close (.ret _) => true
  | _ => false

section
variable {w w' : World ι} {pc pc' : Pc} {i : Worker ι} {g g' : Shared (Worker ι)} {v : Writer}

omit [DecidableEq ι] in
theorem outcome_runs {a : Answer} (h : pc.outcome = some a) : ¬ pc.Runs v := by
  unfold Pc.outcome at h
  split at h
  · exact id
  · exact id
  · cases h

theorem Leads.runs (hlead : Leads pc pc') (h : pc'.Runs v) : pc.Runs v := by
  cases hlead with
  | refuse c houtcome => exact absurd h (outcome_runs houtcome)
  | enter c => cases c <;> exact h
  | claims => exact Eq.symm h
  | claimed => exact Eq.symm h
  | lock => exact h
  | works => exact h
  | worked => exact h
  | _ => exact absurd h id

theorem compacting_runs (h : pc.Compacting) : pc.Runs .compact := by
  unfold Pc.Compacting at h
  split at h
  · rfl
  · rfl
  · rfl
  · exact absurd h id

theorem callStep_released (hstep : callStep i g pc = some (g', pc')) : g'.released = (g.released || pc.releases) := by
  have hsame : ∀ {b : Bool}, b = (b || false) := fun {b} => (Bool.or_false b).symm
  cases pc with
  | start c =>
    rw [callStep] at hstep
    unfold startStep at hstep
    split at hstep
    · split at hstep <;> cases hstep <;> exact hsame
    · split at hstep <;> cases hstep <;> exact hsame
    · split at hstep <;> cases hstep <;> exact hsame
    · split at hstep <;> cases hstep <;> exact hsame
  | claim =>
    rw [callStep] at hstep
    split at hstep <;> cases hstep <;> exact hsame
  | waiting c =>
    cases c <;>
    · obtain ⟨m, -, heq⟩ := Option.map_eq_some_iff.mp hstep
      cases heq
      exact hsame
  | lookup key past =>
    have hframe := (lookupStep_frame g key past).1.released
    rw [show lookupStep g key past = (g', pc') from Option.some.inj hstep] at hframe
    exact hframe.trans hsame
  | read key past =>
    have hframe := (readStep_frame g key past).1.released
    rw [show readStep g key past = (g', pc') from Option.some.inj hstep] at hframe
    exact hframe.trans hsame
  | visiting stop key keys scratch seen =>
    have hframe := (visitStep_frame i g stop key keys scratch seen).1.released
    rw [show visitStep i g stop key keys scratch seen = (g', pc') from Option.some.inj hstep] at hframe
    exact hframe.trans hsame
  | scanning stop keys scratch seen =>
    cases keys with
    | nil =>
      cases hstep
      exact hsame
    | cons key keys =>
      obtain ⟨m, -, heq⟩ := Option.map_eq_some_iff.mp hstep
      cases heq
      exact hsame
  | working u rest =>
    cases rest with
    | op o k =>
      cases hstep
      cases u <;> exact hsame
    | ret r =>
      cases hstep
      cases u <;> rfl
  | unlocking u a =>
    rw [callStep] at hstep
    split at hstep <;> cases hstep <;> exact hsame
  | other changes =>
    cases changes with
    | nil => cases hstep
    | cons f fs =>
      cases hstep
      exact hsame
  | got key past r => cases hstep
  | finished a => cases hstep
  | fill key value past =>
    cases hstep
    exact hsame
  | leave key past r =>
    cases hstep
    exact hsame
  | snapshot stop =>
    cases hstep
    exact hsame
  | unclaim a =>
    cases hstep
    exact hsame

/-- `Close` is in its body, or has given up the files. -/
def Leaving (c : Threads (Worker ι) (Shared (Worker ι)) Pc) : Prop :=
  (∃ j rest, c.loc j = .working .close rest) ∨ c.shared.released = true

/-- What holds when no client makes a `Compact`: `Close` finds the background goroutines gone. -/
structure Watched (w : World ι) : Prop where
  tended : Tended w
  sealing : Sealing w.calls
  clients : ∀ i, ¬ (w.calls.loc (.inl i)).Runs .compact
  tasks : ∀ t, ¬ (w.calls.loc (.inr t)).Runs .close
  gone : Leaving w.calls → ∀ t, w.stage t = .ended

/-- `Close` gets the lock when no `Compact` is under way. -/
theorem Watched.compactFirst {j : Worker ι} (h : Watched w) (hcalled : Called w w' j) : CompactFirst w.calls j := by
  intro hwaiting k hk
  cases j with
  | inr t =>
    refine h.tasks t ?_
    rw [hwaiting]
    rfl
  | inl i =>
    have hended := hcalled.client i rfl (by rw [hwaiting]; rfl)
    cases k with
    | inl k => exact h.clients k (compacting_runs hk)
    | inr t =>
      obtain ⟨a, ha⟩ := h.tended.rest t (by rw [hended t]; decide)
      exact outcome_runs ha (compacting_runs hk)

theorem Watched.leaving {j : Worker ι} (h : Watched w) (hcalled : Called w w' j) (hleaving : Leaving w'.calls) :
    ∀ t, w.stage t = .ended := by
  obtain ⟨g, pc, hstep, hm⟩ := move_cases hcalled.move
  rcases hleaving with ⟨k, rest, hk⟩ | hreleased
  · by_cases hkj : k = j
    · rw [hkj, hm.loc] at hk
      rw [hk] at hstep
      -- the body of `Close` begins with the lock, for which `Close` has waited
      generalize hfrom : w.calls.loc j = from' at hstep
      cases callStep_leads hstep with
      | refuse c houtcome => cases houtcome
      | lock =>
        have hawaits : (w.calls.loc j).awaitsTasks = true := by rw [hfrom]; rfl
        cases j with
        | inl i => exact hcalled.client i rfl hawaits
        | inr t =>
          refine absurd ?_ (h.tasks t)
          rw [hfrom]
          rfl
      | works => exact h.gone (.inl ⟨j, _, hfrom⟩)
    · rw [hm.others k hkj] at hk
      exact h.gone (.inl ⟨k, rest, hk⟩)
  · rw [hm.shared, callStep_released hstep, Bool.or_eq_true] at hreleased
    rcases hreleased with hold | hnow
    · exact h.gone (.inr hold)
    · refine h.gone (.inl ⟨j, ?_⟩)
      unfold Pc.releases at hnow
      split at hnow
      · rename_i r heq
        exact ⟨_, heq⟩
      · cases hnow

theorem Watched.called {j : Worker ι} (h : Watched w) (hcalled : Called w w' j) : Watched w' := by
  obtain ⟨g, pc, hstep, hm⟩ := move_cases hcalled.move
  have hback : ∀ k v, (w'.calls.loc k).Runs v → (w.calls.loc k).Runs v := by
    intro k v hk
    by_cases hkj : k = j
    · rw [hkj, hm.loc] at hk
      rw [hkj]
      exact (callStep_leads hstep).runs hk
    · rwa [hm.others k hkj] at hk
  refine ⟨h.tended.called hcalled, (h.sealing.move (h.compactFirst hcalled) hcalled.move).1,
    fun i hi => h.clients i (hback _ _ hi), fun t ht => h.tasks t (hback _ _ ht), fun hleaving => ?_⟩
  rw [hcalled.stage]
  exact h.leaving hcalled hleaving

omit [DecidableEq ι] in
theorem Changes.not_ended {t : Task} {ticked : Bool} {stage : TaskStage} (h : Changes w t ticked pc stage) :
    w.stage t ≠ .ended := by
  cases h with
  | ticked h => rw [h]; decide
  | asked h => rw [h]; decide
  | compacts h => rw [h]; decide
  | content h => rw [h]; decide
  | done h => rw [h]; decide
  | reported h => rw [h]; exact fun heq => by cases heq
  | stopped h => rw [h]; decide

theorem Watched.jumped {t : Task} {ticked : Bool} {stage : TaskStage} (h : Watched w)
    (hchanges : Changes w t ticked pc stage) (hjumped : Jumped w w' t pc stage) : Watched w' := by
  have hplain : pc.Plain ∧ ¬ pc.Runs .close := by
    rcases hchanges.pc_cases with ⟨rfl, -, -⟩ | ⟨rfl | rfl, -, -, -⟩
    · obtain ⟨a, ha⟩ := h.tended.resting hchanges
      refine ⟨⟨fun hc => ?_, fun hc => outcome_runs ha (compacting_runs hc), (outcome_outside ha).1.2⟩, outcome_runs ha⟩
      unfold Pc.Closing at hc
      split at hc
      · rename_i heq
        rw [heq] at ha
        cases ha
      · rename_i heq
        rw [heq] at ha
        cases ha
      · exact hc
    · exact ⟨⟨id, id, id⟩, fun heq => by cases heq⟩
    · exact ⟨⟨id, id, id⟩, fun heq => by cases heq⟩
  refine ⟨h.tended.jumped hchanges hjumped, ?_, fun i => ?_, fun u => ?_, fun hleaving => ?_⟩
  · exact h.sealing.step_plain (hjumped.held h.tended hchanges) hjumped.moved ⟨rfl, rfl, rfl, rfl⟩ hplain.1
  · rw [hjumped.moved.others _ (fun heq => by cases heq)]
    exact h.clients i
  · by_cases hut : u = t
    · rw [hut, hjumped.moved.loc]
      exact hplain.2
    · rw [hjumped.moved.others _ fun heq => hut (Sum.inr.inj heq)]
      exact h.tasks u
  · -- a task that goes on between its calls is not gone, so `Close` is not there yet
    have hbefore : Leaving w.calls := by
      rcases hleaving with ⟨k, rest, hk⟩ | hreleased
      · by_cases hkt : k = .inr t
        · rw [hkt, hjumped.moved.loc] at hk
          rw [hk] at hplain
          exact absurd rfl hplain.2
        · rw [hjumped.moved.others k hkt] at hk
          exact .inl ⟨k, rest, hk⟩
      · rw [hjumped.moved.shared] at hreleased
        exact .inr hreleased
    exact absurd (h.gone hbefore t) hchanges.not_ended

/-- Every step keeps the watch; once the files are given up, it leaves the disk as it is. -/
theorem Watched.step (h : Watched w) (hstep : w.Steps w') : Watched w' ∧ (w.calls.shared.released = true →
    w'.calls.shared.released = true ∧ w'.calls.shared.session.disk = w.calls.shared.session.disk) := by
  obtain ⟨turn, hturn⟩ := hstep
  rcases World.step_cases hturn with ⟨-, rfl⟩ | ⟨j, hcalled⟩ | ⟨t, ticked, pc, stage, hchanges, hjumped, -⟩
  · exact ⟨⟨h.tended.step ⟨turn, hturn⟩, h.sealing, h.clients, h.tasks, h.gone⟩, fun hr => ⟨hr, rfl⟩⟩
  · refine ⟨h.called hcalled, fun hreleased => ?_⟩
    obtain ⟨g, pc, hstep, hm⟩ := move_cases hcalled.move
    refine ⟨by rw [hm.shared, callStep_released hstep, hreleased]; rfl, ?_⟩
    rcases (h.sealing.move (h.compactFirst hcalled) hcalled.move).2 hreleased with hdisk | ⟨changes, hother⟩
    · exact hdisk
    · have hown := h.tended.own j
      rw [hother] at hown
      exact absurd hown id
  · refine ⟨h.jumped hchanges hjumped, fun hreleased => ?_⟩
    rw [hjumped.moved.shared]
    exact ⟨hreleased, rfl⟩

omit [DecidableEq ι] in
theorem World.Opened.watched {x : Session} (h : w.Opened x)
    (hcalls : ∀ i, w.calls.loc (.inl i) ≠ .start (.write .compact)) : Watched w := by
  have hreleased : ¬ w.calls.shared.released = true := by
    rw [h.shared]
    exact Bool.false_ne_true
  have hfresh : ∀ j, ¬ (w.calls.loc j).Closing ∧ ∀ v rest, w.calls.loc j ≠ .working v rest := by
    intro j
    cases j with
    | inl i =>
      obtain ⟨c, hc⟩ := h.clients i
      rw [hc]
      exact ⟨id, fun v rest heq => by cases heq⟩
    | inr t =>
      rw [(h.tasks t).1]
      exact ⟨id, fun v rest heq => by cases heq⟩
  have hleaving : ¬ Leaving w.calls := by
    rintro (⟨j, rest, hj⟩ | hr)
    · exact (hfresh j).2 _ rest hj
    · exact hreleased hr
  refine ⟨h.tended, ⟨h.tended.held, fun j hj => absurd hj (hfresh j).1, fun j _ hj => absurd hj (hfresh j).1,
    fun j rest hj => absurd hj ((hfresh j).2 _ rest), fun hl => absurd hl hleaving, fun hr => absurd hr hreleased,
    fun hr => absurd hr hreleased⟩, fun i hi => ?_, fun t ht => ?_, fun hl => absurd hl hleaving⟩
  · obtain ⟨c, hc⟩ := h.clients i
    have hne := hcalls i
    rw [hc] at hi hne
    cases c with
    | get key => exact hi
    | forEach stop => exact hi
    | write v => exact hne (by rw [show v = .compact from hi])
  · rw [(h.tasks t).1] at ht
    exact ht

/-- **Nothing touches the files after `Close` has given them up**, the background tasks included, if no
client makes a `Compact`: the automatic compaction, which may be under way when `Close` is called, is
waited for. -/
theorem background_quiet {x : Session} {w₀ : World ι} (hopened : w₀.Opened x)
    (hcalls : ∀ i, w₀.calls.loc (.inl i) ≠ .start (.write .compact))
    (hreach : Relation.ReflTransGen World.Steps w₀ w) (hreleased : w.calls.shared.released = true)
    (hlater : Relation.ReflTransGen World.Steps w w') :
    w'.calls.shared.session.disk = w.calls.shared.session.disk ∧ ∀ t, w'.stage t = .ended := by
  have hwatched : Watched w := by
    clear hlater hreleased
    induction hreach with
    | refl => exact hopened.watched hcalls
    | tail _ hstep ih => exact (ih.step hstep).1
  have hend : Watched w' ∧ w'.calls.shared.released = true ∧
      w'.calls.shared.session.disk = w.calls.shared.session.disk := by
    induction hlater with
    | refl => exact ⟨hwatched, hreleased, rfl⟩
    | tail _ hstep ih =>
      obtain ⟨hw, hr, hd⟩ := ih
      obtain ⟨hw', hlast⟩ := hw.step hstep
      exact ⟨hw', (hlast hr).1, (hlast hr).2.trans hd⟩
  exact ⟨hend.2.2, hend.1.gone (.inr hend.2.1)⟩

/-- Once the tasks are gone, a client that moves alone makes the steps of its call. -/
theorem reach_alone {i : ι} (hc : w.cancelled = true) (hwaited : w.waited = true) {g : Shared (Worker ι)} {pc : Pc}
    (h : Alone callStep w.calls (.inl i) g pc) : ∃ w' : World ι, Relation.ReflTransGen World.Steps w w' ∧
      w'.calls.shared = g ∧ w'.stage = w.stage := by
  obtain ⟨n, hn⟩ := h
  suffices hruns : ∀ c, runs callStep w.calls (List.replicate n (.inl i)) = some c →
      Relation.ReflTransGen World.Steps w { w with calls := c } from ⟨_, hruns _ hn, rfl, rfl⟩
  clear hn
  induction n generalizing w with
  | zero =>
    intro c hruns
    cases hruns
    exact .refl
  | succ n ih =>
    intro c hruns
    obtain ⟨c', hmove, hrest⟩ := Option.bind_eq_some_iff.mp hruns
    refine .head ⟨.client i, ?_⟩ (ih (w := { w with calls := c' }) hc hwaited c hrest)
    have hstep : w.move (.inl i) = some { w with calls := c' } := by rw [World.move, hmove]; rfl
    rw [World.step, if_pos hc, if_pos hwaited, ite_self]
    exact hstep

end

/-- The run in which a `Close` with both tasks started goes to its end. -/
theorem background_quiet_closed : ∃ x, Reachable "db" x ∧ ∃ w₀ w : World Unit, w₀.Opened x ∧
    Relation.ReflTransGen World.Steps w₀ w ∧ w.calls.shared.released = true ∧
    ∀ w', Relation.ReflTransGen World.Steps w w' →
      w'.calls.shared.session.disk = w.calls.shared.session.disk ∧ ∀ t, w'.stage t = .ended := by
  obtain ⟨x, hx, -⟩ := blank_serves "db" (by decide)
  have hopened := opened_opened x fun _ : Unit => Client.write .close
  obtain ⟨w, hreach, hc, hwaited, hclosed, hmutex, hloc⟩ : ∃ w : World Unit, Relation.ReflTransGen World.Steps
      (World.opened x fun _ => .write .close) w ∧ w.cancelled = true ∧ w.waited = true ∧
      w.calls.shared.closed = true ∧ w.calls.shared.mutex = .free ∧
      w.calls.loc (.inl ()) = .waiting (.write .close) := by
    refine ⟨_, (((Relation.ReflTransGen.refl.tail ⟨.client (), rfl⟩).tail ⟨.client (), rfl⟩).tail
      ⟨.stop .sync, rfl⟩).tail ⟨.stop .compaction, rfl⟩, rfl, rfl, rfl, rfl, rfl⟩
  have halone := alone_refl callStep w.calls (.inl ())
  rw [hloc] at halone
  have hlock : callStep (.inl ()) w.calls.shared (.waiting (.write .close)) =
      some (w.calls.shared.setMutex ⟨∅, some (.inl ())⟩,
        .working .close (Writer.body w.calls.shared.session.store .close)) := by
    rw [callStep, hmutex]
    rfl
  have hworked := (alone_working _ (halone.next hlock)).next rfl
  obtain ⟨w', hreach', hshared, -⟩ := reach_alone hc hwaited hworked
  have hreleased : w'.calls.shared.released = true := by
    rw [hshared]
    exact Bool.or_true _
  exact ⟨x, hx, _, w', hopened, hreach.trans hreach', hreleased, fun w'' hlater =>
    background_quiet hopened (fun _ heq => by cases heq) (hreach.trans hreach') hreleased hlater⟩

end

end AppendStore
