import AppendStore.Store.Concurrent

/-! # The cache under concurrent calls

Any number of `Get`, `Put`, `Delete`, `Sync` and `Compact` calls, moving in any order. While no call holds
the lock alone, the session refines the map that the completed mutations leave; a `Get` that holds the
lock finds that map unchanged until it leaves, so what it puts into the cache is still the value of its
key (`Fits`). Every cached value is then the one in the log, and every `Get` answers from the mutations
that were completed when it got the lock.
-/

namespace AppendStore
open Library
set_option autoImplicit false

/-- The calls that work on a store that stays open. -/
def Client.Cached : Client → Prop
  | .get _ => True
  | .write w => w ≠ .close
  | .forEach _ => False

/-- What a `Get` answers on a map. -/
def KeyMap.get (m : KeyMap) (key : Bytes) : Except Err Bytes :=
  match m.entries.lookup key with
  | some (value, _) => .ok value
  | none => .error (Store.keyNotFound key)

section
variable {ι : Type} [DecidableEq ι]

/-- Where a call is, and what it then knows of the shared state. -/
def Fits (path : Path) (m : KeyMap) (g : Shared ι) : Pc → Prop
  | .start c => c.Cached
  | .claim => True
  | .waiting c => c.Cached
  | .lookup _ past => past = g.history
  | .read _ past => past = g.history
  | .fill key value past => past = g.history ∧ (final KeyMap.call m past).get key = .ok value
  | .leave key past r => r = (final KeyMap.call m past).get key
  | .got key past r => r = (final KeyMap.call m past).get key
  | .working w rest => w ≠ .close ∧ ∃ x : Session, Refines path x (final KeyMap.call m g.history) ∧
      Disk.exec rest g.session.disk = Disk.exec (w.body x.store) x.disk
  | .unlocking w _ => w ≠ .close ∧ Refines path g.session (final KeyMap.call m g.history)
  | .unclaim _ => True
  | .finished _ => True
  | _ => False

/-- The invariant of the calls. -/
structure Coherent (path : Path) (m : KeyMap) (c : Threads ι (Shared ι) Pc) : Prop where
  held : Held Pc.Reading Pc.Writing c.shared.mutex c
  isOpen : c.shared.closed = false
  idle : c.shared.mutex.writer = none → Refines path c.shared.session (final KeyMap.call m c.shared.history)
  fits : ∀ i, Fits path m c.shared (c.loc i)

section
variable {path : Path} {m : KeyMap} {g g' : Shared ι} {pc : Pc}

omit [DecidableEq ι] in
/-- A call outside of the lock knows nothing of the shared state. -/
theorem Fits.outside (h : Fits path m g pc) (hr : ¬ pc.Reading) (hw : ¬ pc.Writing) : Fits path m g' pc := by
  cases pc <;> first | exact h | exact absurd trivial hr | exact absurd trivial hw

omit [DecidableEq ι] in
/-- A call that does not hold the lock alone only knows the history. -/
theorem Fits.of_history (h : Fits path m g pc) (hw : ¬ pc.Writing) (hh : g'.history = g.history) :
    Fits path m g' pc := by
  cases pc with
  | lookup key past => exact h.trans hh.symm
  | read key past => exact h.trans hh.symm
  | fill key value past => exact ⟨h.1.trans hh.symm, h.2⟩
  | working w rest => exact absurd trivial hw
  | unlocking w a => exact absurd trivial hw
  | _ => exact h

omit [DecidableEq ι] in
theorem Fits.of_same (h : Fits path m g pc) (hs : g'.session = g.session) (hh : g'.history = g.history) :
    Fits path m g' pc := by
  cases pc with
  | working w rest =>
    obtain ⟨hw, x, hx, hexec⟩ := h
    exact ⟨hw, x, by rw [hh]; exact hx, by rw [hs]; exact hexec⟩
  | unlocking w a =>
    obtain ⟨hw, hx⟩ := h
    exact ⟨hw, by rw [hs, hh]; exact hx⟩
  | _ => exact h.of_history id hh

/-- What the body of a mutation does to the map. -/
theorem Writer.body_refines {x : Session} {w : Writer} (hw : w ≠ .close) {km : KeyMap} (h : Refines path x km) :
    Refines path ⟨(Disk.exec (w.body x.store) x.disk).1.2, (Disk.exec (w.body x.store) x.disk).2⟩
      (final KeyMap.call km w.calls) := by
  have hcall := fun (c : Call) (hc : c.Accepted path) => (call_refines c hc h).2
  cases w with
  | close => exact absurd rfl hw
  | put key value options =>
    rw [Writer.body, Disk.exec_bind]
    exact hcall (.put key value options) trivial
  | delete key =>
    rw [Writer.body, Disk.exec_bind]
    exact hcall (.delete key) trivial
  | compact =>
    rw [Writer.body, Disk.exec_bind]
    exact hcall .compact trivial
  | sync =>
    obtain ⟨recs, hserves, hshows⟩ := h
    rw [Writer.body, Disk.exec_bind_eq (exec_syncLog hserves.image.isOpen x.disk)]
    exact ⟨recs, hserves.of_disk rfl rfl (Disk.content_syncFile ..), hshows⟩

end

/-! ## The steps of `Get` -/

section
variable {path : Path} {km : KeyMap} {g : Shared ι}

theorem KeyMap.get_eq {recs : List (Rec logVersion)} (h : km.Shows (contents recs)) (key : Bytes) :
    km.get key = getAnswer (contents recs) key := by
  cases hl : (contents recs).lookup key with
  | none => simp only [KeyMap.get, getAnswer, h.lookup, hl]
  | some payload => simp only [KeyMap.get, getAnswer, h.lookup, hl]

omit [DecidableEq ι] in
theorem lookupStep_refines (key : Bytes) (past : List Call) (h : Refines path g.session km) :
    ∃ g' pc, lookupStep g key past = (g', pc) ∧ g'.history = g.history ∧ g'.closed = g.closed ∧
      Refines path g'.session km ∧
      (pc = .read key past ∨ pc = .leave key past (km.get key)) := by
  obtain ⟨recs, hserves, hshows⟩ := h
  have hw := hserves.cacheWF.get key
  have hc := hserves.cached.get hserves.cacheWF key
  unfold lookupStep
  cases hget : g.session.store.cache.get key with
  | mk hit cache =>
    rw [hget] at hw hc
    have hrefines : Refines path (g.setCache cache).session km := ⟨recs, hserves.of_cache hw hc, hshows⟩
    cases hit with
    | none => exact ⟨_, _, rfl, rfl, rfl, hrefines, .inl rfl⟩
    | some value =>
      obtain ⟨a, ha⟩ := LruCache.get_hit hserves.cached hserves.cacheWF
        (by rw [hget] : (g.session.store.cache.get key).1 = some value)
      refine ⟨_, _, rfl, rfl, rfl, hrefines, .inr ?_⟩
      rw [KeyMap.get_eq hshows, getAnswer, contents_lookup ha]

omit [DecidableEq ι] in
theorem readStep_refines (key : Bytes) (past : List Call) (h : Refines path g.session km) :
    ∃ pc, readStep g key past = (g, pc) ∧
      ((∃ value, pc = .fill key value past ∧ km.get key = .ok value) ∨ pc = .leave key past (km.get key)) := by
  obtain ⟨recs, hserves, hshows⟩ := h
  unfold readStep
  cases hidx : g.session.store.index.get key with
  | none =>
    refine ⟨_, rfl, .inr ?_⟩
    rw [KeyMap.get_eq hshows, getAnswer, lookup_eq_none.mpr (hserves.get_none.mp hidx)]
  | some entry =>
    obtain ⟨x, hx, rfl⟩ := hserves.get_some hidx
    have hread := exec_readRecordAt (hserves.image.storedAt (liveRecs_mem hx).1) (by decide)
    dsimp only [liveEntry, LogRecord.indexEntry, Rec.entry]
    rw [hread]
    refine ⟨_, rfl, .inl ⟨x.2.value, rfl, ?_⟩⟩
    rw [KeyMap.get_eq hshows, getAnswer, contents_lookup (liveRecs_contents hx)]

omit [DecidableEq ι] in
theorem fill_refines (h : Refines path g.session km) {key value : Bytes} (hvalue : km.get key = .ok value) :
    Refines path (g.setCache (g.session.store.cache.put key value)).session km := by
  obtain ⟨recs, hserves, hshows⟩ := h
  rw [KeyMap.get_eq hshows, getAnswer] at hvalue
  cases hlookup : (contents recs).lookup key with
  | none =>
    rw [hlookup] at hvalue
    cases hvalue
  | some x =>
    rw [hlookup] at hvalue
    cases hvalue
    have hmem := (lookup_eq_some (contents_nodup recs)).mp hlookup
    exact ⟨recs, hserves.of_cache (hserves.cacheWF.put key _) (hserves.cached.put hserves.cacheWF ⟨x.2, hmem⟩), hshows⟩

end

/-! ## The steps of all calls -/

section
variable {path : Path} {m : KeyMap} {c c' : Threads ι (Shared ι) Pc} {i : ι} {g : Shared ι} {pc : Pc}

theorem Coherent.of_step (h : Coherent path m c) (hheld : Held Pc.Reading Pc.Writing c'.shared.mutex c')
    (hm : Moved c c' i g pc) (hclosed : g.closed = c.shared.closed)
    (hidle : g.mutex.writer = none → Refines path g.session (final KeyMap.call m g.history))
    (hkept : ∀ j, j ≠ i → Fits path m g (c.loc j)) (hfits : Fits path m g pc) : Coherent path m c' := by
  obtain ⟨rfl, hloc, hothers⟩ := hm
  refine ⟨hheld, by rw [hclosed, h.isOpen], hidle, fun j => ?_⟩
  by_cases hj : j = i
  · rw [hj, hloc]
    exact hfits
  · rw [hothers j hj]
    exact hkept j hj

/-- A step that leaves the session and the history as they are. -/
theorem Coherent.step_same (h : Coherent path m c) (hheld : Held Pc.Reading Pc.Writing c'.shared.mutex c')
    (hm : Moved c c' i g pc) (hsession : g.session = c.shared.session) (hhistory : g.history = c.shared.history)
    (hclosed : g.closed = c.shared.closed)
    (hidle : g.mutex.writer = none → Refines path c.shared.session (final KeyMap.call m c.shared.history))
    (hfits : Fits path m g pc) : Coherent path m c' := by
  refine h.of_step hheld hm hclosed ?_ (fun j _ => (h.fits j).of_same hsession hhistory) hfits
  rw [hsession, hhistory]
  exact hidle

/-- A step of a `Get` while it holds the lock. -/
theorem Coherent.step_reading (h : Coherent path m c) (hheld : Held Pc.Reading Pc.Writing c'.shared.mutex c')
    (hm : Moved c c' i g pc) (hhistory : g.history = c.shared.history) (hclosed : g.closed = c.shared.closed)
    (hr : (c.loc i).Reading) (hrefines : Refines path g.session (final KeyMap.call m c.shared.history))
    (hfits : Fits path m g pc) : Coherent path m c' := by
  have hwriting : ∀ j, ¬ (c.loc j).Writing := fun j hj => h.held.no_reader hj i hr
  refine h.of_step hheld hm hclosed ?_ (fun j _ => (h.fits j).of_history (hwriting j) hhistory) hfits
  intro _
  rw [hhistory]
  exact hrefines

/-- A step of a body. -/
theorem Coherent.step_writing (h : Coherent path m c) (hheld : Held Pc.Reading Pc.Writing c'.shared.mutex c')
    (hm : Moved c c' i g pc) (hmutex : g.mutex = c.shared.mutex) (hclosed : g.closed = c.shared.closed)
    (hw : (c.loc i).Writing) (hfits : Fits path m g pc) : Coherent path m c' := by
  refine h.of_step hheld hm hclosed ?_ (fun j hj => (h.fits j).outside (h.held.no_reader hw j) ?_) hfits
  · rw [hmutex, (h.held.writer i).mpr hw]
    intro hnone
    cases hnone
  · exact fun hwj => hj (h.held.one_writer hw hwj)

omit [DecidableEq ι] in
/-- The checks of the calls that work on an open store. -/
theorem startStep_cached {client : Client} (hcached : client.Cached) (hopen : g.closed = false) :
    ∃ pc, startStep g client = (g, pc) ∧ Fits path m g pc := by
  cases client with
  | forEach stop => exact absurd hcached id
  | get key =>
    refine ⟨.waiting (.get key), ?_, trivial⟩
    rw [startStep, if_neg (by rw [hopen]; exact Bool.false_ne_true)]
  | write w =>
    cases hrefusal : w.refusal g.closed g.session.store with
    | some e => exact ⟨_, startStep_refused g hcached hrefusal, trivial⟩
    | none =>
      rw [startStep_admitted g hcached hrefusal]
      by_cases hcompact : w = .compact
      · exact ⟨.claim, by rw [if_pos hcompact], trivial⟩
      · exact ⟨.waiting (.write w), by rw [if_neg hcompact], hcached⟩

theorem Coherent.move (h : Coherent path m c) (hmove : Library.move callStep c i = some c') :
    Coherent path m c' := by
  obtain ⟨g, pc, hstep, hm⟩ := move_cases hmove
  have hheld := held_move h.held hmove
  have hfits := h.fits i
  cases hpc : c.loc i with
  | start client =>
    rw [hpc] at hstep hfits
    obtain ⟨pc', hstart, hfit⟩ := startStep_cached hfits h.isOpen
    rw [callStep, hstart] at hstep
    cases hstep
    exact h.step_same hheld hm rfl rfl rfl h.idle hfit
  | claim =>
    rw [hpc, callStep] at hstep
    split at hstep
    · cases hstep
      exact h.step_same hheld hm rfl rfl rfl h.idle trivial
    · cases hstep
      exact h.step_same hheld hm rfl rfl rfl h.idle (by decide : Writer.compact ≠ .close)
  | waiting client =>
    rw [hpc] at hstep hfits
    cases client with
    | forEach stop => exact absurd hfits id
    | get key =>
      obtain ⟨mutex, hlock, heq⟩ := Option.map_eq_some_iff.mp hstep
      cases heq
      exact h.step_same hheld hm rfl rfl rfl (fun _ => h.idle (rLock_writer hlock)) rfl
    | write w =>
      obtain ⟨mutex, hlock, heq⟩ := Option.map_eq_some_iff.mp hstep
      cases heq
      have hidle := h.idle (lock_writer hlock)
      exact h.step_same hheld hm rfl rfl rfl (fun _ => hidle) ⟨hfits, _, hidle, rfl⟩
  | lookup key past =>
    rw [hpc] at hstep hfits
    have hr : (c.loc i).Reading := by rw [hpc]; trivial
    obtain ⟨g', pc', hlook, hhistory, hclosed, hrefines, hcases⟩ :=
      lookupStep_refines key past (h.idle (h.held.no_writer hr))
    rw [callStep, hlook] at hstep
    cases hstep
    rcases hcases with rfl | rfl
    · exact h.step_reading hheld hm hhistory hclosed hr hrefines (hfits.trans hhistory.symm)
    · refine h.step_reading hheld hm hhistory hclosed hr hrefines ?_
      rw [show past = _ from hfits]
      rfl
  | read key past =>
    rw [hpc] at hstep hfits
    have hr : (c.loc i).Reading := by rw [hpc]; trivial
    have hidle := h.idle (h.held.no_writer hr)
    obtain ⟨pc', hread, hcases⟩ := readStep_refines key past hidle
    rw [callStep, hread] at hstep
    cases hstep
    have hpast : past = c.shared.history := hfits
    rcases hcases with ⟨value, rfl, hvalue⟩ | rfl
    · exact h.step_reading hheld hm rfl rfl hr hidle ⟨hpast, by rw [hpast]; exact hvalue⟩
    · refine h.step_reading hheld hm rfl rfl hr hidle ?_
      rw [hpast]
      rfl
  | fill key value past =>
    rw [hpc] at hstep hfits
    obtain ⟨hpast, hvalue⟩ := hfits
    have hr : (c.loc i).Reading := by rw [hpc]; trivial
    have hidle := h.idle (h.held.no_writer hr)
    cases hstep
    exact h.step_reading hheld hm rfl rfl hr (fill_refines hidle (by rw [← hpast]; exact hvalue)) hvalue.symm
  | leave key past r =>
    rw [hpc] at hstep hfits
    have hr : (c.loc i).Reading := by rw [hpc]; trivial
    cases hstep
    exact h.step_same hheld hm rfl rfl rfl (fun _ => h.idle (h.held.no_writer hr)) hfits
  | working w rest =>
    rw [hpc] at hstep hfits
    obtain ⟨hw, x, hrefines, hexec⟩ := hfits
    have hwriting : (c.loc i).Writing := by rw [hpc]; trivial
    cases rest with
    | op o k =>
      cases hstep
      exact h.step_writing hheld hm rfl rfl hwriting ⟨hw, x, hrefines, hexec⟩
    | ret r =>
      cases hstep
      refine h.step_writing hheld hm rfl rfl hwriting ⟨hw, ?_⟩
      have hbody := Writer.body_refines hw hrefines
      rw [← hexec, ← final_append] at hbody
      exact hbody
  | unlocking w a =>
    rw [hpc] at hstep hfits
    rw [callStep] at hstep
    split at hstep <;> cases hstep <;> exact h.step_same hheld hm rfl rfl rfl (fun _ => hfits.2) trivial
  | unclaim a =>
    rw [hpc] at hstep
    cases hstep
    exact h.step_same hheld hm rfl rfl rfl h.idle trivial
  | got key past r =>
    rw [hpc] at hstep
    cases hstep
  | finished a =>
    rw [hpc] at hstep
    cases hstep
  | _ =>
    rw [hpc] at hfits
    exact absurd hfits id

omit [DecidableEq ι] in
theorem coherent_start {x : Session} {calls : ι → Client} (h : Refines path x m) (hcalls : ∀ i, (calls i).Cached) :
    Coherent path m (⟨.ofSession x, fun i => .start (calls i)⟩ : Threads ι (Shared ι) Pc) where
  held := held_start fun _ => ⟨id, id⟩
  isOpen := rfl
  idle := fun _ => h
  fits := hcalls

/-- The cached values of a store that serves a log are those in the log. -/
theorem Refines.cached {x : Session} {km : KeyMap} (h : Refines path x km) :
    x.store.cache.Holds fun k v => ∃ e, x.store.index.get k = some e ∧
      (Disk.exec (x.store.log.readRecordAt e.recordOffset e.storedSize) x.disk).1 = .ok v := by
  obtain ⟨recs, hserves, -⟩ := h
  refine hserves.cached.mono fun k v hmem => ?_
  obtain ⟨a, hmem⟩ := hmem
  obtain ⟨y, hy, heq⟩ := List.mem_map.mp hmem
  cases heq
  have hread := exec_readRecordAt (hserves.image.storedAt (liveRecs_mem hy).1) (by decide)
  refine ⟨liveEntry y.2, ?_, ?_⟩
  · rw [hserves.index.get_eq]
    exact replay_lookup _ recs hy
  · exact congrArg Prod.fst hread

/-- **The cache is coherent.** In every state of every interleaving in which no call holds the lock alone,
every cached value is the one the log holds for its key; and every `Get` returns what the mutations
completed when it got the lock have left. -/
theorem cache_coherent {x : Session} (h : Reachable path x) (calls : ι → Client) (hcalls : ∀ i, (calls i).Cached)
    {schedule : List ι} (hruns : runs callStep ⟨.ofSession x, fun i => .start (calls i)⟩ schedule = some c) :
    (c.shared.mutex.writer = none → c.shared.session.store.cache.Holds fun k v =>
      ∃ e, c.shared.session.store.index.get k = some e ∧
        (Disk.exec (c.shared.session.store.log.readRecordAt e.recordOffset e.storedSize)
          c.shared.session.disk).1 = .ok v) ∧
    ∃ m : KeyMap, Refines path x m ∧ ∀ i key past r, c.loc i = .got key past r →
      r = (final KeyMap.call m past).get key := by
  obtain ⟨recs, hserves⟩ := h.serves
  obtain ⟨m, hshows⟩ := exists_shows recs
  have hrefines : Refines path x m := ⟨recs, hserves, hshows⟩
  have hend := runs_keeps (fun _ _ _ hc hmove => hc.move hmove) (coherent_start hrefines hcalls) hruns
  refine ⟨fun hfree => (hend.idle hfree).cached, m, hrefines, fun i key past r hgot => ?_⟩
  have hfits := hend.fits i
  rw [hgot] at hfits
  exact hfits

end

/-- What a `Get` that has returned was told, where at most one put was completed before. -/
def Pc.fetched : Pc → Option (Bytes × Option (Bytes × Bytes) × Except Err Bytes)
  | .got key [] r => some (key, none, r)
  | .got key [.put k v none] r => some (key, some (k, v), r)
  | _ => none

theorem Pc.eq_of_fetched {pc : Pc} {key : Bytes} {r : Except Err Bytes} :
    (pc.fetched = some (key, none, r) → pc = .got key [] r) ∧
      ∀ k v, pc.fetched = some (key, some (k, v), r) → pc = .got key [.put k v none] r := by
  unfold Pc.fetched
  split <;> simp +contextual

/-- Two calls of `Get` and a `Put`, all of one key. -/
def sameKey : Fin 3 → Client := ![.get [1], .write (.put [1] [9] none), .get [1]]

/-- The first `Get` has filled the cache and still holds the lock, and the other calls wait for it. -/
def untilFilled : List (Fin 3) := [0, 0, 1, 2, 0, 0, 0]

/-- Then the first `Get` leaves, the `Put` runs, and the second `Get` fills the cache again. -/
def untilReturned : List (Fin 3) := untilFilled ++ [0, 1, 1, 1, 1, 1, 2, 2, 2, 2, 2]

/-- The state after a schedule. -/
def sameKeyRun (x : Session) (schedule : List (Fin 3)) : Option (Threads (Fin 3) (Shared (Fin 3)) Pc) :=
  runs callStep ⟨.ofSession x, fun i => .start (sameKey i)⟩ schedule

theorem cache_coherent_sameKey : ∃ x m c c', worked "db" .zero [.put [1] [2] none] = some x ∧
    sameKeyRun x untilFilled = some c ∧ sameKeyRun x untilReturned = some c' ∧
    (c.shared.session.store.cache.get [1]).1 = some [2] ∧ (c'.shared.session.store.cache.get [1]).1 = some [9] ∧
    (∀ e ∈ [c, c'], e.shared.session.store.cache.Holds fun k v =>
      ∃ entry, e.shared.session.store.index.get k = some entry ∧
        (Disk.exec (e.shared.session.store.log.readRecordAt entry.recordOffset entry.storedSize)
          e.shared.session.disk).1 = .ok v) ∧
    Refines "db" x m ∧ c'.loc 0 = .got [1] [] (.ok [2]) ∧ m.get [1] = .ok [2] ∧
    c'.loc 2 = .got [1] [.put [1] [9] none] (.ok [9]) ∧
    (final KeyMap.call m [.put [1] [9] none]).get [1] = .ok [9] := by
  have haccepted : ∀ call ∈ [Call.put [1] [2] none], call.Accepted "db" := by simp [Call.Accepted]
  obtain ⟨x, hx, hreach⟩ := worked_reachable (zero_accepted (by decide)) haccepted
  have hfilled : ((worked "db" .zero [.put [1] [2] none]).bind fun x => (sameKeyRun x untilFilled).map fun c =>
      (c.shared.mutex.writer, (c.shared.session.store.cache.get [1]).1)) = some (none, some [2]) := by
    decide +kernel
  have hreturned : ((worked "db" .zero [.put [1] [2] none]).bind fun x => (sameKeyRun x untilReturned).map fun c =>
      (c.shared.mutex.writer, (c.shared.session.store.cache.get [1]).1)) = some (none, some [9]) := by
    decide +kernel
  have hfirst : ((worked "db" .zero [.put [1] [2] none]).bind fun x => (sameKeyRun x untilReturned).bind fun c =>
      (c.loc 0).fetched) = some ([1], none, .ok [2]) := by
    decide +kernel
  have hsecond : ((worked "db" .zero [.put [1] [2] none]).bind fun x => (sameKeyRun x untilReturned).bind fun c =>
      (c.loc 2).fetched) = some ([1], some ([1], [9]), .ok [9]) := by
    decide +kernel
  rw [hx, Option.bind_some] at hfilled hreturned hfirst hsecond
  obtain ⟨c, hruns, hc⟩ := Option.map_eq_some_iff.mp hfilled
  obtain ⟨c', hruns', hc'⟩ := Option.map_eq_some_iff.mp hreturned
  rw [hruns', Option.bind_some] at hfirst hsecond
  obtain ⟨hfree, hcached⟩ := Prod.mk.inj hc
  obtain ⟨hfree', hcached'⟩ := Prod.mk.inj hc'
  have hclients : ∀ i, (sameKey i).Cached := by
    intro i
    fin_cases i <;> simp [sameKey, Client.Cached]
  obtain ⟨hholds, -⟩ := cache_coherent hreach sameKey hclients hruns
  obtain ⟨hholds', m, hm, hgets⟩ := cache_coherent hreach sameKey hclients hruns'
  have hzero := Pc.eq_of_fetched.1 hfirst
  have htwo := Pc.eq_of_fetched.2 _ _ hsecond
  refine ⟨x, m, c, c', hx, hruns, hruns', hcached, hcached', ?_, hm, hzero, (hgets 0 _ _ _ hzero).symm, htwo,
    (hgets 2 _ _ _ htwo).symm⟩
  intro e he
  rcases List.mem_pair.mp he with rfl | rfl
  · exact hholds hfree
  · exact hholds' hfree'

end

end AppendStore
