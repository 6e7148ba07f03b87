import AppendStore.Library.Threads
import AppendStore.Store.LiveIndex

/-! # Calls that run at the same time

The calls of a store as threads. A call first reads the flag that `Close` sets, then waits for the store
lock, and then runs its body; between these, other calls move. A body that writes holds the lock alone
and goes on one file operation at a time. `Get` holds it with other readers, and its look into the
cache, its read of the log and the fill of the cache are steps of their own. `ForEach` takes it for the
list of keys and again for every key.

The two atomic flags of the store are part of the shared state, and the flags of the `Store` record
stay down: a body does not look at them again. `history` has the mutations in the order in which they
were completed, and a `Get` remembers the history it found when it got the lock.

A thread may also stand for another process, which changes the disk as it likes. A call that runs alone
is the call of the sequential model (`runs_write_alone`, `runs_get_alone`).
-/

namespace AppendStore
open Library
set_option autoImplicit false

/-! ## The calls -/

/-- The calls that take the store lock for themselves. -/
inductive Writer
  | put (key value : Bytes) (options : Option AttributeRange)
  | delete (key : Bytes)
  | sync
  | compact
  | close
  deriving DecidableEq

inductive Client
  | get (key : Bytes)
  | forEach (stop : List (Bytes × Bytes) → Bytes → Bytes → Option Err)
  | write (w : Writer)

/-- An error that may be absent, as a result. -/
def resultOf : Option Err → Except Err Unit
  | none => .ok ()
  | some e => .error e

namespace Writer

/-- What a call does once it holds the lock. -/
def body (s : Store) : Writer → FileProg (Answer × Store)
  | .put key value options => do
    let (r, s) ← s.put key value options
    pure (.done r, s)
  | .delete key => do
    let (r, s) ← s.delete key
    pure (.done r, s)
  | .sync => do
    let r ← s.log.sync
    pure (.done r, s)
  | .compact => do
    let (r, s) ← s.compact
    pure (.done r, s)
  | .close => do
    let (e, s) ← ({ s with closed := false } : Store).close
    pure (.done (resultOf e), { s with closed := false })

/-- The call as a mutation of the contents. -/
def calls : Writer → List Call
  | .put key value options => [.put key value options]
  | .delete key => [.delete key]
  | .compact => [.compact]
  | _ => []

/-- The checks before the lock. -/
def refusal (closed : Bool) (s : Store) : Writer → Option Err
  | .sync => if closed then some (.sentinel .storeClosed) else none
  | _ => if closed then some (.sentinel .storeClosed) else s.readOnlyReason

end Writer

/-! ## The threads -/

/-- What all threads see. -/
structure Shared (ι : Type) where
  session : Session
  mutex : RWMutex ι
  closed : Bool
  compacting : Bool
  released : Bool
  history : List Call

/-- Where a call is. -/
inductive Pc
  | start (c : Client)
  | claim
  | waiting (c : Client)
  | lookup (key : Bytes) (past : List Call)
  | read (key : Bytes) (past : List Call)
  | fill (key value : Bytes) (past : List Call)
  | leave (key : Bytes) (past : List Call) (r : Except Err Bytes)
  | got (key : Bytes) (past : List Call) (r : Except Err Bytes)
  | snapshot (stop : List (Bytes × Bytes) → Bytes → Bytes → Option Err)
  | scanning (stop : List (Bytes × Bytes) → Bytes → Bytes → Option Err) (keys : List Bytes) (scratch : Bytes)
      (seen : List (Bytes × Bytes))
  | visiting (stop : List (Bytes × Bytes) → Bytes → Bytes → Option Err) (key : Bytes) (keys : List Bytes)
      (scratch : Bytes) (seen : List (Bytes × Bytes))
  | working (w : Writer) (rest : FileProg (Answer × Store))
  | unlocking (w : Writer) (a : Answer)
  | unclaim (a : Answer)
  | finished (a : Answer)
  | other (changes : List (Disk → Disk))

namespace Shared

variable {ι : Type} (g : Shared ι)

def setStore (s : Store) : Shared ι := { g with session := { g.session with store := s } }

def setDisk (d : Disk) : Shared ι := { g with session := { g.session with disk := d } }

def setCache (cache : LruCache) : Shared ι := g.setStore { g.session.store with cache := cache }

def setMutex (m : RWMutex ι) : Shared ι := { g with mutex := m }

end Shared

section
variable {ι : Type} [DecidableEq ι]

/-- The step of `ForEach` that reads one value. -/
def visitStep (i : ι) (g : Shared ι) (stop : List (Bytes × Bytes) → Bytes → Bytes → Option Err) (key : Bytes)
    (keys : List Bytes) (scratch : Bytes) (seen : List (Bytes × Bytes)) : Shared ι × Pc :=
  let left := g.setMutex (g.mutex.rUnlock i)
  match g.session.store.index.get key with
  | none => (left, .scanning stop keys scratch seen)
  | some entry =>
    match Disk.exec (g.session.store.log.readRecordAtInto entry.recordOffset entry.storedSize scratch)
      g.session.disk with
    | ((.error e, _), d) => (left.setDisk d, .finished (.visited (.error (.wrap "failed to read from log" e)) seen))
    | ((.ok value, scratch), d) =>
      match remember stop key value seen with
      | (seen, some e) => (left.setDisk d, .finished (.visited (.error e) seen))
      | (seen, none) => (left.setDisk d, .scanning stop keys scratch seen)

/-- The step of `Get` that reads the log. -/
def readStep (g : Shared ι) (key : Bytes) (past : List Call) : Shared ι × Pc :=
  match g.session.store.index.get key with
  | none => (g, .leave key past (.error (Store.keyNotFound key)))
  | some entry =>
    match Disk.exec (g.session.store.log.readRecordAt entry.recordOffset entry.storedSize) g.session.disk with
    | (.error e, d) => (g.setDisk d, .leave key past (.error (.wrap "failed to read from log" e)))
    | (.ok value, d) => (g.setDisk d, .fill key value past)

/-- The step of `Get` that looks into the cache. -/
def lookupStep (g : Shared ι) (key : Bytes) (past : List Call) : Shared ι × Pc :=
  match g.session.store.cache.get key with
  | (some value, cache) => (g.setCache cache, .leave key past (.ok value))
  | (none, cache) => (g.setCache cache, .read key past)

/-- The checks a call makes before it waits for the lock. -/
def startStep (g : Shared ι) : Client → Shared ι × Pc
  | .get key =>
    if g.closed then (g, .got key g.history (.error (.sentinel .storeClosed))) else (g, .waiting (.get key))
  | .forEach stop =>
    if g.closed then (g, .finished (.visited (.error (.sentinel .storeClosed)) []))
    else (g, .waiting (.forEach stop))
  | .write .close =>
    if g.closed then (g, .finished (.done (.ok ()))) else ({ g with closed := true }, .waiting (.write .close))
  | .write w =>
    match w.refusal g.closed g.session.store with
    | some e => (g, .finished (.done (.error e)))
    | none => (g, if w = .compact then .claim else .waiting (.write w))

omit [DecidableEq ι] in
theorem startStep_refused {w : Writer} (g : Shared ι) (hclose : w ≠ .close) {e : Err}
    (h : w.refusal g.closed g.session.store = some e) :
    startStep g (.write w) = (g, .finished (.done (.error e))) := by
  cases w with
  | close => exact absurd rfl hclose
  | _ => simp only [startStep, h]

omit [DecidableEq ι] in
theorem startStep_admitted {w : Writer} (g : Shared ι) (hclose : w ≠ .close)
    (h : w.refusal g.closed g.session.store = none) :
    startStep g (.write w) = (g, if w = .compact then .claim else .waiting (.write w)) := by
  cases w with
  | close => exact absurd rfl hclose
  | _ => simp only [startStep, h]

/-- The next step of a call. -/
def callStep (i : ι) (g : Shared ι) : Pc → Option (Shared ι × Pc)
  | .start c => some (startStep g c)
  | .claim =>
    if g.compacting then some (g, .finished (.done (.error (.sentinel .compactionInProgress))))
    else some ({ g with compacting := true }, .waiting (.write .compact))
  | .waiting (.get key) => (g.mutex.rLock i).map fun m => (g.setMutex m, .lookup key g.history)
  | .waiting (.forEach stop) => (g.mutex.rLock i).map fun m => (g.setMutex m, .snapshot stop)
  | .waiting (.write w) =>
    (g.mutex.lock i).map fun m => (g.setMutex m, .working w (w.body g.session.store))
  | .lookup key past => some (lookupStep g key past)
  | .read key past => some (readStep g key past)
  | .fill key value past => some (g.setCache (g.session.store.cache.put key value), .leave key past (.ok value))
  | .leave key past r => some (g.setMutex (g.mutex.rUnlock i), .got key past r)
  | .snapshot stop =>
    let (keys, index) := g.session.store.index.keysSortedByOffset
    some ((g.setStore { g.session.store with index := index }).setMutex (g.mutex.rUnlock i), .scanning stop keys [] [])
  | .scanning _ [] _ seen => some (g, .finished (.visited (.ok ()) seen))
  | .scanning stop (key :: keys) scratch seen =>
    (g.mutex.rLock i).map fun m => (g.setMutex m, .visiting stop key keys scratch seen)
  | .visiting stop key keys scratch seen => some (visitStep i g stop key keys scratch seen)
  | .working w (.op o k) =>
    let (r, d) := Disk.answer o g.session.disk
    some (g.setDisk d, .working w (k r))
  | .working w (.ret (a, s)) =>
    some ({ g.setStore s with
      released := g.released || decide (w = .close)
      history := g.history ++ w.calls }, .unlocking w a)
  | .unlocking w a => some (g.setMutex g.mutex.unlock, if w = .compact then .unclaim a else .finished a)
  | .unclaim a => some ({ g with compacting := false }, .finished a)
  | .other (f :: fs) => some (g.setDisk (f g.session.disk), .other fs)
  | .got .. => none
  | .finished _ => none
  | .other [] => none

/-- The store lock is held shared. -/
def Pc.Reading : Pc → Prop
  | .lookup .. | .read .. | .fill .. | .leave .. | .snapshot .. | .visiting .. => True
  | _ => False

/-- The store lock is held alone. -/
def Pc.Writing : Pc → Prop
  | .working .. | .unlocking .. => True
  | _ => False

/-- The state in which no call has begun. -/
def Shared.ofSession (x : Session) : Shared ι := ⟨x, .free, false, false, false, []⟩

/-! ## The lock -/

/-- The call does not hold the lock. -/
def Pc.Outside (pc : Pc) : Prop := ¬ pc.Reading ∧ ¬ pc.Writing

omit [DecidableEq ι] in
theorem startStep_lock (g : Shared ι) (client : Client) :
    (startStep g client).1.mutex = g.mutex ∧ (startStep g client).2.Outside := by
  unfold startStep
  split
  · split <;> exact ⟨rfl, id, id⟩
  · split <;> exact ⟨rfl, id, id⟩
  · split <;> exact ⟨rfl, id, id⟩
  · split
    · exact ⟨rfl, id, id⟩
    · refine ⟨rfl, ?_⟩
      dsimp only
      split <;> exact ⟨id, id⟩

omit [DecidableEq ι] in
theorem lookupStep_lock (g : Shared ι) (key : Bytes) (past : List Call) :
    (lookupStep g key past).1.mutex = g.mutex ∧ (lookupStep g key past).2.Reading ∧
      ¬ (lookupStep g key past).2.Writing := by
  unfold lookupStep
  split <;> exact ⟨rfl, trivial, id⟩

omit [DecidableEq ι] in
theorem readStep_lock (g : Shared ι) (key : Bytes) (past : List Call) :
    (readStep g key past).1.mutex = g.mutex ∧ (readStep g key past).2.Reading ∧
      ¬ (readStep g key past).2.Writing := by
  unfold readStep
  split
  · exact ⟨rfl, trivial, id⟩
  · split <;> exact ⟨rfl, trivial, id⟩

theorem visitStep_lock (i : ι) (g : Shared ι) (stop : List (Bytes × Bytes) → Bytes → Bytes → Option Err) (key : Bytes)
    (keys : List Bytes) (scratch : Bytes) (seen : List (Bytes × Bytes)) :
    (visitStep i g stop key keys scratch seen).1.mutex = g.mutex.rUnlock i ∧
      (visitStep i g stop key keys scratch seen).2.Outside := by
  unfold visitStep
  dsimp only
  split
  · exact ⟨rfl, id, id⟩
  · split
    · exact ⟨rfl, id, id⟩
    · split <;> exact ⟨rfl, id, id⟩

/-- **The holders of the lock are the calls in its sections, after every move.** -/
theorem held_move {c c' : Threads ι (Shared ι) Pc} {i : ι} (h : Held Pc.Reading Pc.Writing c.shared.mutex c)
    (hmove : move callStep c i = some c') : Held Pc.Reading Pc.Writing c'.shared.mutex c' := by
  obtain ⟨g, pc, hstep, hm⟩ := move_cases hmove
  rw [hm.shared]
  -- a step outside of the lock, one of a reader and one of a writer
  have houtside : (c.loc i).Outside → g.mutex = c.shared.mutex → pc.Outside →
      Held Pc.Reading Pc.Writing g.mutex c' := by
    intro hout hmutex hout'
    rw [hmutex]
    exact h.stay hm (iff_of_false hout'.1 hout.1) (iff_of_false hout'.2 hout.2)
  have hreading : (c.loc i).Reading → g.mutex = c.shared.mutex → pc.Reading → ¬ pc.Writing →
      Held Pc.Reading Pc.Writing g.mutex c' := by
    intro hr hmutex hr' hw'
    rw [hmutex]
    exact h.stay hm (iff_of_true hr' hr) (iff_of_false hw' fun hw => h.no_reader hw i hr)
  have hwriting : (c.loc i).Writing → g.mutex = c.shared.mutex → pc.Writing → ¬ pc.Reading →
      Held Pc.Reading Pc.Writing g.mutex c' := by
    intro hw hmutex hw' hr'
    rw [hmutex]
    exact h.stay hm (iff_of_false hr' (h.no_reader hw i)) (iff_of_true hw' hw)
  cases hpc : c.loc i with
  | start client =>
    rw [hpc] at hstep houtside
    have hlock := startStep_lock c.shared client
    rw [show startStep c.shared client = (g, pc) from Option.some.inj hstep] at hlock
    exact houtside ⟨id, id⟩ hlock.1 hlock.2
  | claim =>
    rw [hpc, callStep] at hstep
    rw [hpc] at houtside
    split at hstep <;> cases hstep <;> exact houtside ⟨id, id⟩ rfl ⟨id, id⟩
  | waiting client =>
    rw [hpc] at hstep
    cases client with
    | get key =>
      obtain ⟨m, hlock, heq⟩ := Option.map_eq_some_iff.mp hstep
      cases heq
      exact h.rLock hm hlock trivial id
    | forEach stop =>
      obtain ⟨m, hlock, heq⟩ := Option.map_eq_some_iff.mp hstep
      cases heq
      exact h.rLock hm hlock trivial id
    | write w =>
      obtain ⟨m, hlock, heq⟩ := Option.map_eq_some_iff.mp hstep
      cases heq
      exact h.lock hm hlock id trivial
  | lookup key past =>
    rw [hpc] at hstep hreading
    have hlock := lookupStep_lock c.shared key past
    rw [show lookupStep c.shared key past = (g, pc) from Option.some.inj hstep] at hlock
    exact hreading trivial hlock.1 hlock.2.1 hlock.2.2
  | read key past =>
    rw [hpc] at hstep hreading
    have hlock := readStep_lock c.shared key past
    rw [show readStep c.shared key past = (g, pc) from Option.some.inj hstep] at hlock
    exact hreading trivial hlock.1 hlock.2.1 hlock.2.2
  | fill key value past =>
    rw [hpc] at hstep hreading
    cases hstep
    exact hreading trivial rfl trivial id
  | leave key past r =>
    rw [hpc] at hstep
    cases hstep
    exact h.rUnlock hm (by rw [hpc]; trivial) id id
  | snapshot stop =>
    rw [hpc] at hstep
    cases hstep
    exact h.rUnlock hm (by rw [hpc]; trivial) id id
  | scanning stop keys scratch seen =>
    rw [hpc] at hstep houtside
    cases keys with
    | nil =>
      cases hstep
      exact houtside ⟨id, id⟩ rfl ⟨id, id⟩
    | cons key keys =>
      obtain ⟨m, hlock, heq⟩ := Option.map_eq_some_iff.mp hstep
      cases heq
      exact h.rLock hm hlock trivial id
  | visiting stop key keys scratch seen =>
    rw [hpc] at hstep
    have hlock := visitStep_lock i c.shared stop key keys scratch seen
    rw [show visitStep i c.shared stop key keys scratch seen = (g, pc) from Option.some.inj hstep] at hlock
    rw [hlock.1]
    exact h.rUnlock hm (by rw [hpc]; trivial) hlock.2.1 hlock.2.2
  | working w rest =>
    rw [hpc] at hstep hwriting
    cases rest with
    | op o k =>
      cases hstep
      exact hwriting trivial rfl trivial id
    | ret r =>
      cases hstep
      exact hwriting trivial rfl trivial id
  | unlocking w a =>
    rw [hpc, callStep] at hstep
    split at hstep <;> cases hstep <;> exact h.unlock hm (by rw [hpc]; trivial) id id
  | unclaim a =>
    rw [hpc] at hstep houtside
    cases hstep
    exact houtside ⟨id, id⟩ rfl ⟨id, id⟩
  | got key past r =>
    rw [hpc] at hstep
    cases hstep
  | finished a =>
    rw [hpc] at hstep
    cases hstep
  | other changes =>
    rw [hpc] at hstep houtside
    cases changes with
    | nil => cases hstep
    | cons f fs =>
      cases hstep
      exact houtside ⟨id, id⟩ rfl ⟨id, id⟩

omit [DecidableEq ι] in
theorem held_start {x : Session} {loc : ι → Pc} (hloc : ∀ i, (loc i).Outside) :
    Held Pc.Reading Pc.Writing (Shared.ofSession x : Shared ι).mutex (⟨.ofSession x, loc⟩ : Threads ι (Shared ι) Pc) :=
  ⟨fun i => iff_of_false (Finset.notMem_empty i) (hloc i).1,
    fun i => iff_of_false (Option.some_ne_none i).symm (hloc i).2, fun _ _ => rfl⟩

/-! ## A call alone -/

variable {c : Threads ι (Shared ι) Pc} {i : ι} {g : Shared ι}

/-- A body that goes on without being disturbed is run to its end. -/
theorem alone_working {w : Writer} (p : FileProg (Answer × Store)) (h : Alone callStep c i g (.working w p)) :
    Alone callStep c i (g.setDisk (Disk.exec p g.session.disk).2)
      (.working w (.ret (Disk.exec p g.session.disk).1)) := by
  induction p generalizing g with
  | ret a => exact h
  | op o k ih =>
    have hop : callStep i g (.working w (.op o k)) =
      some (g.setDisk (Disk.answer o g.session.disk).2, .working w (k (Disk.answer o g.session.disk).1)) := rfl
    exact ih _ (h.next hop)

/-- From the first check to the lock. -/
theorem alone_lock {x : Session} {w : Writer} (hc : c.shared = .ofSession x) (hstart : c.loc i = .start (.write w))
    (hw : w ≠ .close) (hwritable : x.store.readOnlyReason = none) :
    ∃ g, Alone callStep c i g (.working w (w.body x.store)) ∧ g.session = x ∧ g.mutex = ⟨∅, some i⟩ ∧
      g.history = [] := by
  have h := alone_refl callStep c i
  rw [hc, hstart] at h
  have hstep : startStep (.ofSession x) (.write w) =
      ((.ofSession x : Shared ι), if w = .compact then .claim else .waiting (.write w)) := by
    cases w with
    | close => exact absurd rfl hw
    | sync => rfl
    | put key value options => simp [startStep, Writer.refusal, Shared.ofSession, hwritable]
    | delete key => simp [startStep, Writer.refusal, Shared.ofSession, hwritable]
    | compact => simp [startStep, Writer.refusal, Shared.ofSession, hwritable]
  have hchecked := h.next (congrArg some hstep)
  by_cases hcompact : w = .compact
  · subst hcompact
    exact ⟨_, (hchecked.next rfl).next rfl, rfl, rfl, rfl⟩
  · rw [if_neg hcompact] at hchecked
    exact ⟨_, hchecked.next rfl, rfl, rfl, rfl⟩

/-- From the end of the body to the end of the call. -/
theorem alone_unlock {w : Writer} {r : Answer × Store} (h : Alone callStep c i g (.working w (.ret r)))
    (hmutex : g.mutex = ⟨∅, some i⟩) (hhistory : g.history = []) :
    ∃ g', Alone callStep c i g' (.finished r.1) ∧ g'.session = ⟨r.2, g.session.disk⟩ ∧ g'.mutex = .free ∧
      g'.history = w.calls := by
  have hunlock := (h.next rfl).next rfl
  by_cases hcompact : w = .compact
  · rw [if_pos hcompact] at hunlock
    refine ⟨_, hunlock.next rfl, rfl, ?_, ?_⟩
    · simp [Shared.setMutex, Shared.setStore, RWMutex.unlock, RWMutex.free, hmutex]
    · simp [Shared.setMutex, hhistory]
  · rw [if_neg hcompact] at hunlock
    refine ⟨_, hunlock, rfl, ?_, ?_⟩
    · simp [Shared.setMutex, Shared.setStore, RWMutex.unlock, RWMutex.free, hmutex]
    · simp [Shared.setMutex, hhistory]

/-- **A call that takes the lock for itself, made alone, is its body.** -/
theorem runs_write_alone {x : Session} {w : Writer} (hc : c.shared = .ofSession x)
    (hstart : c.loc i = .start (.write w)) (hw : w ≠ .close) (hwritable : x.store.readOnlyReason = none) :
    ∃ g, Alone callStep c i g (.finished (Disk.exec (w.body x.store) x.disk).1.1) ∧
      g.session = ⟨(Disk.exec (w.body x.store) x.disk).1.2, (Disk.exec (w.body x.store) x.disk).2⟩ ∧
      g.mutex = .free ∧ g.history = w.calls := by
  obtain ⟨g, hlocked, hsession, hmutex, hhistory⟩ := alone_lock hc hstart hw hwritable
  have hworked := alone_working _ hlocked
  rw [hsession] at hworked
  exact alone_unlock hworked hmutex hhistory

theorem alone_leave {key : Bytes} {past : List Call} {r : Except Err Bytes}
    (h : Alone callStep c i g (.leave key past r)) (hmutex : g.mutex = ⟨insert i ∅, none⟩) :
    ∃ g', Alone callStep c i g' (.got key past r) ∧ g'.session = g.session ∧ g'.mutex = .free := by
  refine ⟨_, h.next rfl, rfl, ?_⟩
  simp [Shared.setMutex, RWMutex.rUnlock, RWMutex.free, hmutex]

/-- **A `Get` made alone is the `Get` of the sequential model.** -/
theorem runs_get_alone {x : Session} {key : Bytes} (hc : c.shared = .ofSession x)
    (hstart : c.loc i = .start (.get key)) (hopen : x.store.closed = false) :
    ∃ g, Alone callStep c i g (.got key [] (Disk.exec (x.store.get key) x.disk).1.1) ∧
      g.session = ⟨(Disk.exec (x.store.get key) x.disk).1.2, (Disk.exec (x.store.get key) x.disk).2⟩ ∧
      g.mutex = .free := by
  have h := alone_refl callStep c i
  rw [hc, hstart] at h
  obtain ⟨g, hlocked, hsession, hmutex⟩ : ∃ g, Alone callStep c i g (.lookup key []) ∧ g.session = x ∧
      g.mutex = ⟨insert i ∅, none⟩ := ⟨_, (h.next rfl).next rfl, rfl, rfl⟩
  have hlooked := hlocked.next rfl
  rw [hsession] at hlooked
  unfold Store.get
  rw [if_neg (by rw [hopen]; exact Bool.false_ne_true)]
  cases hcache : x.store.cache.get key with
  | mk hit cache =>
    rw [hcache] at hlooked
    cases hit with
    | some value =>
      obtain ⟨g', hgot, hsession', hfree⟩ := alone_leave hlooked hmutex
      refine ⟨g', hgot, ?_, hfree⟩
      simp only [hsession', Shared.setCache, Shared.setStore, hsession]
      rfl
    | none =>
      have hread := hlooked.next rfl
      simp only [Shared.setCache, Shared.setStore, hsession] at hread
      dsimp only
      cases hidx : x.store.index.get key with
      | none =>
        rw [hidx] at hread
        obtain ⟨g', hgot, hsession', hfree⟩ := alone_leave hread hmutex
        exact ⟨g', hgot, hsession', hfree⟩
      | some entry =>
        rw [hidx] at hread
        dsimp only at hread ⊢
        cases hexec : Disk.exec (x.store.log.readRecordAt entry.recordOffset entry.storedSize) x.disk with
        | mk r d =>
          rw [hexec] at hread
          cases r with
          | error e =>
            obtain ⟨g', hgot, hsession', hfree⟩ := alone_leave hread hmutex
            rw [Disk.exec_orElse_error hexec]
            exact ⟨g', hgot, hsession', hfree⟩
          | ok value =>
            obtain ⟨g', hgot, hsession', hfree⟩ := alone_leave (hread.next rfl) hmutex
            rw [Disk.exec_orElse_ok hexec]
            exact ⟨g', hgot, hsession', hfree⟩

end

end AppendStore
