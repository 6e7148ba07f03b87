import AppendStore.Library.Linearizability
import AppendStore.Store.CacheCoherence

/-! # The open store is linearizable

Any number of clients, each of which makes one call after the other and may choose a call by the answers
it had so far. The calls are those of a store that stays open, `ForEach` apart, which is not one instant
but many. A call of the index alone is one step under the shared lock: what it reads, no other reader
changes. The periodic sync and the automatic compaction are clients too: the one makes a `Sync` at every
tick, the other asks `NeedsCompaction` and makes a `Compact` if it is told so.

The history of what the clients see is linearizable with respect to the finite map
(`store_linearizable`). A mutation takes effect when its body ends, a `Get` when it has found its value,
both while they hold the lock; a `Compact` that meets another one takes effect when it is turned away.
-/

namespace AppendStore
open Library
set_option autoImplicit false

/-! ## The clients -/

/-- The calls that look at the index, or at the size of the log, under the shared lock. -/
inductive Look
  | getMetadata (key : Bytes)
  | contains (key : Bytes)
  | len
  | keys
  | needsCompaction
  deriving DecidableEq

namespace Look

def answer (s : Store) : Look → Answer
  | .getMetadata key => .metadata (s.getMetadata key)
  | .contains key => .found (s.contains key)
  | .len => .count s.len
  | .keys => .keys s.keys
  | .needsCompaction => .found s.needsCompaction

/-- What a call answers without a look, on a closed store. -/
def refusal (closed : Bool) : Look → Option Answer
  | .getMetadata _ => if closed then some (.metadata (.error (.sentinel .storeClosed))) else none
  | .contains _ => if closed then some (.found false) else none
  | _ => none

end Look

inductive Request
  | get (key : Bytes)
  | write (w : Writer)
  | look (q : Look)
  deriving DecidableEq

/-- Where a client is. -/
inductive Stage
  | idle
  | checking (q : Look)
  | looking (q : Look)
  | calling (pc : Pc)
  | returning (a : Answer)

/-- A client: the answers it had, and where it is. -/
structure Agent where
  past : List Answer
  stage : Stage

/-- The shared state, with the history of the invocations and responses. -/
structure Ledger (ι : Type) where
  shared : Shared ι
  record : List (Mark ι Request Answer)

def Request.enter : Request → Stage
  | .get key => .calling (.start (.get key))
  | .write w => .calling (.start (.write w))
  | .look q => .checking q

/-- The answer of a call that is at its end. -/
def Pc.outcome : Pc → Option Answer
  | .finished a => some a
  | .got _ _ r => some (.value r)
  | _ => none

section
variable {ι : Type} [DecidableEq ι]

/-- The next step of a client, whose next call depends on its answers so far. -/
def agentStep (plan : ι → List Answer → Option Request) (i : ι) (g : Ledger ι) (agent : Agent) :
    Option (Ledger ι × Agent) :=
  match agent.stage with
  | .idle => (plan i agent.past).map fun r =>
    ({ g with record := g.record ++ [.invoke i r] }, { agent with stage := r.enter })
  | .checking q =>
    match q.refusal g.shared.closed with
    | some a => some (g, { agent with stage := .returning a })
    | none => some (g, { agent with stage := .looking q })
  | .looking q =>
    if g.shared.mutex.writer = none then some (g, { agent with stage := .returning (q.answer g.shared.session.store) })
    else none
  | .calling pc =>
    match pc.outcome with
    | some a => some (g, { agent with stage := .returning a })
    | none => (callStep i g.shared pc).map fun r => ({ g with shared := r.1 }, { agent with stage := .calling r.2 })
  | .returning a => some ({ g with record := g.record ++ [.respond i a] }, ⟨agent.past ++ [a], .idle⟩)

end

/-! ## The sequential object -/

/-- What a call may answer on a map, and what becomes of the map. -/
def Request.Spec (m : KeyMap) (r : Request) (a : Answer) (m' : KeyMap) : Prop :=
  match r with
  | .get key => (a, m') = m.call (.get key)
  | .write (.put key value options) => (a, m') = m.call (.put key value options)
  | .write (.delete key) => (a, m') = m.call (.delete key)
  | .write .compact => (a = .done (.ok ()) ∨ a = .done (.error (.sentinel .compactionInProgress))) ∧ m' = m
  | .write .sync => a = .done (.ok ()) ∧ m' = m
  | .write .close => False
  | .look (.getMetadata key) => (a, m') = m.call (.getMetadata key)
  | .look (.contains key) => (a, m') = m.call (.contains key)
  | .look .len => (a, m') = m.call .len
  | .look .keys => (a, m') = m.call .keys
  | .look .needsCompaction => (∃ b, a = .found b) ∧ m' = m

section
variable {path : Path} {x : Session} {km : KeyMap}

theorem look_spec (q : Look) (h : Refines path x km) : Request.Spec km (.look q) (q.answer x.store) km := by
  have hcall := fun (c : Call) (hc : c.Accepted path) => (call_refines c hc h).1
  cases q with
  | getMetadata key =>
    refine Prod.ext (hcall (.getMetadata key) trivial) ?_
    simp only [KeyMap.call]
    split <;> rfl
  | contains key => exact Prod.ext (hcall (.contains key) trivial) rfl
  | len => exact Prod.ext (hcall .len trivial) rfl
  | keys => exact Prod.ext (hcall .keys trivial) rfl
  | needsCompaction => exact ⟨⟨_, rfl⟩, rfl⟩

theorem get_spec (km : KeyMap) (key : Bytes) : Request.Spec km (.get key) (.value (km.get key)) km := by
  simp only [Request.Spec, KeyMap.call, KeyMap.get]
  cases km.entries.lookup key <;> rfl

/-- What the body of a mutation answers. -/
theorem write_spec {w : Writer} (hw : w ≠ .close) (h : Refines path x km) :
    Request.Spec km (.write w) (Disk.exec (w.body x.store) x.disk).1.1 (final KeyMap.call km w.calls) := by
  have hcall := fun (c : Call) (hc : c.Accepted path) => (call_refines c hc h).1
  cases w with
  | close => exact absurd rfl hw
  | put key value options =>
    rw [Writer.body, Disk.exec_bind]
    exact Prod.ext (hcall (.put key value options) trivial) rfl
  | delete key =>
    rw [Writer.body, Disk.exec_bind]
    exact Prod.ext (hcall (.delete key) trivial) rfl
  | compact =>
    rw [Writer.body, Disk.exec_bind]
    exact ⟨.inl (hcall .compact trivial), rfl⟩
  | sync =>
    obtain ⟨recs, hserves, -⟩ := h
    rw [Writer.body, Disk.exec_bind_eq (exec_syncLog hserves.image.isOpen x.disk)]
    exact ⟨rfl, rfl⟩

end

/-! ## Where the calls take effect -/

/-- What a call inside of the store has come to. -/
def Pc.phase : Pc → Phase Request Answer
  | .start (.get key) | .waiting (.get key) | .lookup key _ | .read key _ | .fill key _ _ => .called (.get key)
  | .start (.write w) | .waiting (.write w) | .working w _ => .called (.write w)
  | .claim => .called (.write .compact)
  | .leave _ _ r | .got _ _ r => .answered (.value r)
  | .unlocking _ a | .unclaim a | .finished a => .answered a
  | _ => .idle

def Agent.phase (agent : Agent) : Phase Request Answer :=
  match agent.stage with
  | .idle => .idle
  | .checking q | .looking q => .called (.look q)
  | .calling pc => pc.phase
  | .returning a => .answered a

/-- The place of a client among the calls; outside of them, that of a call that is over. -/
def Agent.pc (agent : Agent) : Pc :=
  match agent.stage with
  | .calling pc => pc
  | _ => .finished (.done (.ok ()))

section
variable {ι : Type} [DecidableEq ι]

/-- The calls of the clients. -/
def callsOf (c : Threads ι (Ledger ι) Agent) : Threads ι (Shared ι) Pc :=
  ⟨c.shared.shared, fun i => (c.loc i).pc⟩

section
variable {path : Path} {m : KeyMap} {c : Threads ι (Shared ι) Pc} {i : ι} {g : Shared ι} {pc pc' : Pc}

/-- What a step of a call is for the map: nothing, or the effect of the call. -/
def Takes (m : KeyMap) (g g' : Shared ι) (pc pc' : Pc) : Prop :=
  (pc'.phase = pc.phase ∧ g'.history = g.history) ∨
    ∃ o a, pc.phase = .called o ∧ pc'.phase = .answered a ∧
      Request.Spec (final KeyMap.call m g.history) o a (final KeyMap.call m g'.history)

omit [DecidableEq ι] in
theorem takes_get {g' : Shared ι} {key : Bytes} {past : List Call} {r : Except Err Bytes}
    (hpc : pc.phase = .called (.get key))
    (hhistory : g'.history = g.history) (hr : r = (final KeyMap.call m g.history).get key) :
    Takes m g g' pc (.leave key past r) := by
  refine .inr ⟨_, _, hpc, rfl, ?_⟩
  rw [hhistory, hr]
  exact get_spec _ key

/-- The steps of the calls, by where they are. -/
theorem Coherent.takes (h : Coherent path m c) (hwritable : c.shared.session.store.readOnlyReason = none)
    (hpc : c.loc i = pc) (hstep : callStep i c.shared pc = some (g, pc')) : Takes m c.shared g pc pc' := by
  have hfits := h.fits i
  rw [hpc] at hfits
  cases pc with
  | start client =>
    cases client with
    | forEach stop => exact absurd hfits id
    | get key =>
      rw [callStep, startStep, if_neg (by rw [h.isOpen]; exact Bool.false_ne_true)] at hstep
      cases hstep
      exact .inl ⟨rfl, rfl⟩
    | write w =>
      have hrefusal : w.refusal c.shared.closed c.shared.session.store = none := by
        cases w <;> simp [Writer.refusal, h.isOpen, hwritable]
      rw [callStep, startStep_admitted c.shared hfits hrefusal] at hstep
      cases hstep
      by_cases hcompact : w = .compact
      · rw [if_pos hcompact, hcompact]
        exact .inl ⟨rfl, rfl⟩
      · rw [if_neg hcompact]
        exact .inl ⟨rfl, rfl⟩
  | claim =>
    rw [callStep] at hstep
    split at hstep <;> cases hstep
    · exact .inr ⟨_, _, rfl, rfl, .inr rfl, rfl⟩
    · exact .inl ⟨rfl, rfl⟩
  | waiting client =>
    cases client with
    | forEach stop => exact absurd hfits id
    | get key =>
      obtain ⟨mutex, -, heq⟩ := Option.map_eq_some_iff.mp hstep
      cases heq
      exact .inl ⟨rfl, rfl⟩
    | write w =>
      obtain ⟨mutex, -, heq⟩ := Option.map_eq_some_iff.mp hstep
      cases heq
      exact .inl ⟨rfl, rfl⟩
  | lookup key past =>
    have hr : (c.loc i).Reading := by rw [hpc]; trivial
    obtain ⟨g', pc'', hlook, hhistory, -, -, hcases⟩ := lookupStep_refines key past (h.idle (h.held.no_writer hr))
    rw [callStep, hlook] at hstep
    cases hstep
    rcases hcases with rfl | rfl
    · exact .inl ⟨rfl, hhistory⟩
    · exact takes_get rfl hhistory rfl
  | read key past =>
    have hr : (c.loc i).Reading := by rw [hpc]; trivial
    obtain ⟨pc'', hread, hcases⟩ := readStep_refines key past (h.idle (h.held.no_writer hr))
    rw [callStep, hread] at hstep
    cases hstep
    rcases hcases with ⟨value, rfl, -⟩ | rfl
    · exact .inl ⟨rfl, rfl⟩
    · exact takes_get rfl rfl rfl
  | fill key value past =>
    cases hstep
    exact takes_get rfl rfl (by rw [← hfits.1, hfits.2])
  | leave key past r =>
    cases hstep
    exact .inl ⟨rfl, rfl⟩
  | working w rest =>
    obtain ⟨hw, x, hrefines, hexec⟩ := hfits
    cases rest with
    | op o k =>
      cases hstep
      exact .inl ⟨rfl, rfl⟩
    | ret r =>
      cases hstep
      refine .inr ⟨_, _, rfl, rfl, ?_⟩
      have hspec := write_spec hw hrefines
      rw [← hexec, ← final_append] at hspec
      exact hspec
  | unlocking w a =>
    rw [callStep] at hstep
    split at hstep <;> cases hstep <;> exact .inl ⟨rfl, rfl⟩
  | unclaim a =>
    cases hstep
    exact .inl ⟨rfl, rfl⟩
  | got key past r => cases hstep
  | finished a => cases hstep
  | _ => exact absurd hfits id

omit [DecidableEq ι] in
theorem startStep_session (g : Shared ι) (client : Client) : (startStep g client).1.session = g.session := by
  unfold startStep
  split
  · split <;> rfl
  · split <;> rfl
  · split <;> rfl
  · split <;> rfl

/-- A step of a call leaves the store writable. -/
theorem Coherent.writable (h : Coherent path m c) (hwritable : c.shared.session.store.readOnlyReason = none)
    (hpc : c.loc i = pc) (hstep : callStep i c.shared pc = some (g, pc')) :
    g.session.store.readOnlyReason = none := by
  have hfits := h.fits i
  rw [hpc] at hfits
  cases pc with
  | start client =>
    rw [callStep] at hstep
    have hsame := startStep_session c.shared client
    rw [Option.some.inj hstep] at hsame
    rw [hsame, hwritable]
  | claim =>
    rw [callStep] at hstep
    split at hstep <;> cases hstep <;> exact hwritable
  | waiting client =>
    cases client with
    | forEach stop => exact absurd hfits id
    | get key =>
      obtain ⟨mutex, -, heq⟩ := Option.map_eq_some_iff.mp hstep
      cases heq
      exact hwritable
    | write w =>
      obtain ⟨mutex, -, heq⟩ := Option.map_eq_some_iff.mp hstep
      cases heq
      exact hwritable
  | lookup key past =>
    rw [callStep, lookupStep] at hstep
    split at hstep <;> cases hstep <;> exact hwritable
  | read key past =>
    rw [callStep, readStep] at hstep
    split at hstep
    · cases hstep
      exact hwritable
    · split at hstep <;> cases hstep <;> exact hwritable
  | working w rest =>
    obtain ⟨hw, x, hrefines, hexec⟩ := hfits
    cases rest with
    | op o k =>
      cases hstep
      exact hwritable
    | ret r =>
      -- the store at the end of a body serves a log again
      cases hstep
      obtain ⟨recs, hserves, -⟩ := Writer.body_refines hw hrefines
      rw [← hexec] at hserves
      exact hserves.readOnlyReason
  | unlocking w a =>
    rw [callStep] at hstep
    split at hstep <;> cases hstep <;> exact hwritable
  | fill key value past =>
    cases hstep
    exact hwritable
  | leave key past r =>
    cases hstep
    exact hwritable
  | unclaim a =>
    cases hstep
    exact hwritable
  | got key past r => cases hstep
  | finished a => cases hstep
  | _ => exact absurd hfits id

/-- A call outside of the lock is replaced by another. -/
theorem Coherent.replace {c' : Threads ι (Shared ι) Pc} (h : Coherent path m c) (hm : Moved c c' i c.shared pc)
    (hout : (c.loc i).Outside) (hout' : pc.Outside) (hfits : Fits path m c.shared pc) : Coherent path m c' := by
  have hheld : Held Pc.Reading Pc.Writing c'.shared.mutex c' := by
    rw [hm.shared]
    exact h.held.stay hm (iff_of_false hout'.1 hout.1) (iff_of_false hout'.2 hout.2)
  exact h.step_same hheld hm rfl rfl rfl h.idle hfits

end

/-! ## The history -/

/-- The invariant of the clients: their calls are coherent, and the history has a linearization that has
brought every client to where it is, and the map to what the completed mutations leave. -/
structure Linear (path : Path) (m : KeyMap) (c : Threads ι (Ledger ι) Agent) : Prop where
  coherent : Coherent path m (callsOf c)
  writable : c.shared.shared.session.store.readOnlyReason = none
  linearized : Linearized Request.Spec m c.shared.record (fun i => (c.loc i).phase)
    (final KeyMap.call m c.shared.shared.history)

section
variable {path : Path} {m : KeyMap} {plan : ι → List Answer → Option Request} {c c' : Threads ι (Ledger ι) Agent}
  {i : ι} {g : Ledger ι} {agent : Agent}

omit [DecidableEq ι] in
theorem moved_callsOf (hm : Moved c c' i g agent) : Moved (callsOf c) (callsOf c') i g.shared agent.pc :=
  ⟨congrArg Ledger.shared hm.shared, congrArg Agent.pc hm.loc, fun j hj => congrArg Agent.pc (hm.others j hj)⟩

omit [DecidableEq ι] in
theorem phase_others (hm : Moved c c' i g agent) (j : ι) (hj : j ≠ i) : (c'.loc j).phase = (c.loc j).phase :=
  congrArg Agent.phase (hm.others j hj)

theorem outcome_outside {pc : Pc} {a : Answer} (h : pc.outcome = some a) : pc.Outside ∧ pc.phase = .answered a := by
  unfold Pc.outcome at h
  split at h <;> cases h <;> exact ⟨⟨id, id⟩, rfl⟩

omit [DecidableEq ι] in
theorem Request.enter_fits {r : Request} (hclose : r ≠ .write .close) {g : Shared ι} {past : List Answer} :
    Fits path m g (⟨past, r.enter⟩ : Agent).pc ∧ (⟨past, r.enter⟩ : Agent).pc.Outside ∧
      (⟨past, r.enter⟩ : Agent).phase = .called r := by
  cases r with
  | get key => exact ⟨trivial, ⟨id, id⟩, rfl⟩
  | write w => exact ⟨fun hw => hclose (congrArg Request.write hw), ⟨id, id⟩, rfl⟩
  | look q => exact ⟨trivial, ⟨id, id⟩, rfl⟩

/-- A step of a client that is outside of the lock before and after it. -/
theorem Linear.step_outside (h : Linear path m c) (hm : Moved c c' i g agent) (hshared : g.shared = c.shared.shared)
    (hout : (c.loc i).pc.Outside) (hout' : agent.pc.Outside) (hfits : Fits path m c.shared.shared agent.pc)
    (hline : Linearized Request.Spec m g.record (fun j => (c'.loc j).phase)
      (final KeyMap.call m c.shared.shared.history)) : Linear path m c' := by
  have hcalls := moved_callsOf hm
  rw [hshared] at hcalls
  refine ⟨h.coherent.replace hcalls hout hout' hfits, ?_, ?_⟩
  · rw [hm.shared, hshared]
    exact h.writable
  · rw [hm.shared, hshared]
    exact hline

/-- A step of a call of a client. -/
theorem Linear.step_call (h : Linear path m c) (hm : Moved c c' i g agent) {pc pc' : Pc}
    (hpc : (c.loc i).pc = pc) (hphase : (c.loc i).phase = pc.phase) (hrecord : g.record = c.shared.record)
    (hpc' : agent.pc = pc') (hphase' : agent.phase = pc'.phase)
    (hstep : callStep i c.shared.shared pc = some (g.shared, pc')) : Linear path m c' := by
  have hcalls := moved_callsOf hm
  have hmove : move callStep (callsOf c) i = some (callsOf c') := by
    refine move_of_moved ?_ hcalls
    rw [hpc', show (callsOf c).loc i = pc from hpc]
    exact hstep
  refine ⟨h.coherent.move hmove, ?_, ?_⟩
  · rw [hm.shared]
    exact h.coherent.writable h.writable hpc hstep
  · rw [hm.shared, hrecord]
    rcases h.coherent.takes h.writable hpc hstep with ⟨hsame, hhistory⟩ | ⟨o, a, hcalled, hanswered, hspec⟩
    · rw [hhistory]
      exact h.linearized.silent (i := i) (by rw [hm.loc, hphase', hsame, hphase]) (phase_others hm)
    · exact h.linearized.effect hspec (by rw [hphase, hcalled]) (by rw [hm.loc, hphase', hanswered]) (phase_others hm)

theorem Linear.move (hplan : ∀ i past, plan i past ≠ some (.write .close)) (h : Linear path m c)
    (hmove : Library.move (agentStep plan) c i = some c') : Linear path m c' := by
  obtain ⟨g, agent, hstep, hm⟩ := move_cases hmove
  unfold agentStep at hstep
  have hothers := phase_others hm
  cases hstage : (c.loc i).stage with
  | idle =>
    rw [hstage] at hstep
    obtain ⟨r, hr, heq⟩ := Option.map_eq_some_iff.mp hstep
    cases heq
    have hclose : r ≠ .write .close := fun hw => hplan i _ (hr.trans (congrArg some hw))
    obtain ⟨hfits, hout, hphase⟩ : Fits path m c.shared.shared (⟨(c.loc i).past, r.enter⟩ : Agent).pc ∧ _ :=
      Request.enter_fits hclose
    refine h.step_outside hm rfl (by rw [Agent.pc, hstage]; exact ⟨id, id⟩) hout hfits ?_
    exact h.linearized.invoke r (by rw [Agent.phase, hstage]) (by rw [hm.loc]; exact hphase) hothers
  | checking q =>
    have hrefusal : q.refusal c.shared.shared.closed = none := by
      rw [show c.shared.shared.closed = false from h.coherent.isOpen]
      cases q <;> rfl
    rw [hstage] at hstep
    dsimp only at hstep
    rw [hrefusal] at hstep
    cases hstep
    refine h.step_outside hm rfl (by rw [Agent.pc, hstage]; exact ⟨id, id⟩) ⟨id, id⟩ trivial ?_
    exact h.linearized.silent (by rw [hm.loc, Agent.phase, Agent.phase, hstage]) hothers
  | looking q =>
    rw [hstage] at hstep
    dsimp only at hstep
    split at hstep
    · rename_i hfree
      cases hstep
      refine h.step_outside hm rfl (by rw [Agent.pc, hstage]; exact ⟨id, id⟩) ⟨id, id⟩ trivial ?_
      exact h.linearized.effect (look_spec q (h.coherent.idle hfree)) (by rw [Agent.phase, hstage])
        (by rw [hm.loc]; rfl) hothers
    · cases hstep
  | calling pc =>
    have hpc : (c.loc i).pc = pc := by rw [Agent.pc, hstage]
    have hphase : (c.loc i).phase = pc.phase := by rw [Agent.phase, hstage]
    rw [hstage] at hstep
    dsimp only at hstep
    cases houtcome : pc.outcome with
    | some a =>
      rw [houtcome] at hstep
      cases hstep
      obtain ⟨hout, hanswered⟩ := outcome_outside houtcome
      refine h.step_outside hm rfl (hpc ▸ hout) ⟨id, id⟩ trivial ?_
      exact h.linearized.silent (by rw [hm.loc, hphase, hanswered]; rfl) hothers
    | none =>
      rw [houtcome] at hstep
      obtain ⟨⟨g', pc'⟩, hcall, heq⟩ := Option.map_eq_some_iff.mp hstep
      cases heq
      exact h.step_call hm hpc hphase rfl rfl rfl hcall
  | returning a =>
    rw [hstage] at hstep
    cases hstep
    refine h.step_outside hm rfl (by rw [Agent.pc, hstage]; exact ⟨id, id⟩) ⟨id, id⟩ trivial ?_
    exact h.linearized.respond (by rw [Agent.phase, hstage]) (by rw [hm.loc]; rfl) hothers

omit [DecidableEq ι] in
theorem linear_start {x : Session} (h : Refines path x m) :
    Linear path m (⟨⟨.ofSession x, []⟩, fun _ => ⟨[], .idle⟩⟩ : Threads ι (Ledger ι) Agent) := by
  obtain ⟨recs, hserves, -⟩ := id h
  refine ⟨⟨held_start fun _ => ⟨id, id⟩, rfl, fun _ => h, fun _ => trivial⟩, hserves.readOnlyReason, ?_⟩
  exact linearized_nil m

/-- **The open store is linearizable.** Any number of clients call `Get`, `GetMetadata`, `Exists`, `Len`, `Keys`,
`NeedsCompaction`, `Put`, `Delete`, `Sync` and `Compact`. However their steps interleave, the history of their calls is
linearizable with respect to the map of the store they started on. -/
theorem store_linearizable {x : Session} (h : Reachable path x)
    (hplan : ∀ i past, plan i past ≠ some (.write .close)) {schedule : List ι}
    (hruns : runs (agentStep plan) ⟨⟨.ofSession x, []⟩, fun _ => ⟨[], .idle⟩⟩ schedule = some c) :
    ∃ m : KeyMap, Refines path x m ∧ Linearizable Request.Spec m c.shared.record := by
  obtain ⟨recs, hserves⟩ := h.serves
  obtain ⟨m, hshows⟩ := exists_shows recs
  have hrefines : Refines path x m := ⟨recs, hserves, hshows⟩
  have hend := runs_keeps (fun _ _ _ hc hmove => hc.move hplan hmove) (linear_start hrefines) hruns
  exact ⟨m, hrefines, hend.linearized.linearizable⟩

end

/-- A client that reads a key twice, and one that writes it. -/
def putAndGets : Bool → List Answer → Option Request
  | false, past => if past.length < 2 then some (.get [1]) else none
  | true, past => if past.isEmpty then some (.write (.put [1] [9] none)) else none

/-- The first `Get` has the lock when the `Put` begins, and returns after it. -/
def overlapping : List Bool :=
  List.replicate 3 false ++ List.replicate 2 true ++ List.replicate 4 false ++ List.replicate 7 true ++
    List.replicate 11 false

/-- The `Get` that overlaps the `Put` has the old value, although the `Put` returned first, and the next `Get` the new
one. -/
theorem store_linearizable_overlapping : ∃ x c, worked "db" .zero [.put [1] [2] none] = some x ∧
    runs (agentStep putAndGets) ⟨⟨.ofSession x, []⟩, fun _ => ⟨[], .idle⟩⟩ overlapping = some c ∧
    c.shared.record = [.invoke false (.get [1]), .invoke true (.write (.put [1] [9] none)),
      .respond true (.done (.ok ())), .respond false (.value (.ok [2])), .invoke false (.get [1]),
      .respond false (.value (.ok [9]))] ∧
    ∃ m : KeyMap, Refines "db" x m ∧ Linearizable Request.Spec m c.shared.record := by
  have haccepted : ∀ call ∈ [Call.put [1] [2] none], call.Accepted "db" := by simp [Call.Accepted]
  obtain ⟨x, hx, hreach⟩ := worked_reachable (zero_accepted (by decide)) haccepted
  have hrecord : ((worked "db" .zero [.put [1] [2] none]).bind fun x =>
      (runs (agentStep putAndGets) ⟨⟨.ofSession x, []⟩, fun _ => ⟨[], .idle⟩⟩ overlapping).map fun c =>
        c.shared.record) =
      some [.invoke false (.get [1]), .invoke true (.write (.put [1] [9] none)), .respond true (.done (.ok ())),
        .respond false (.value (.ok [2])), .invoke false (.get [1]), .respond false (.value (.ok [9]))] := by
    decide +kernel
  rw [hx, Option.bind_some, Option.map_eq_some_iff] at hrecord
  obtain ⟨c, hruns, hc⟩ := hrecord
  have hplan : ∀ i past, putAndGets i past ≠ some (.write .close) := by
    intro i past
    cases i <;> simp only [putAndGets] <;> split <;> simp
  exact ⟨x, c, hx, hruns, hc, store_linearizable hreach hplan hruns⟩

end

end AppendStore
