import AppendStore.Store.Space

/-! # A scan with other calls in between

`ForEach` takes the list of keys once and then reads one key after the other, each under the store lock for
itself; the callback runs outside of the lock. So between any two reads other clients, and the callback, may
complete calls: the calls in the *gaps*. `Session.scan` is the scan with its gaps, and every `Turn` keeps the
session that its read found.
-/

namespace AppendStore
open Library
set_option autoImplicit false

/-! ## The scan -/

/-- A turn of the loop of `ForEach`: the session in which the key was read, and the value if the key was there. -/
structure Turn where
  session : Session
  key : Bytes
  value : Option Bytes

/-- What the callback is shown in a turn. -/
def Turn.delivery (t : Turn) : Option (Bytes × Bytes) := t.value.map fun value => (t.key, value)

structure ScanRun where
  result : Except Err Unit
  delivered : List (Bytes × Bytes)
  turns : List Turn

/-- The read of one key under the lock. -/
def Session.readKey (x : Session) (key scratch : Bytes) : Option (Except Err Bytes × Bytes) × Session :=
  match x.store.index.get key with
  | none => (none, x)
  | some entry =>
    let (r, d) := Disk.exec (x.store.log.readRecordAtInto entry.recordOffset entry.storedSize scratch) x.disk
    (some r, { x with disk := d })

/-- The loop of `ForEach`. Before each key the calls of the next gap are completed. -/
def scanKeys (stop : List (Bytes × Bytes) → Bytes → Bytes → Option Err) :
    List Bytes → List (List ClientCall) → Session → Bytes → List (Bytes × Bytes) → ScanRun
  | [], _, _, _, seen => ⟨.ok (), seen, []⟩
  | key :: keys, gaps, x, scratch, seen =>
    let x := final Session.serve x (gaps.headD [])
    match x.readKey key scratch with
    | (none, y) =>
      let r := scanKeys stop keys gaps.tail y scratch seen
      { r with turns := ⟨x, key, none⟩ :: r.turns }
    | (some (.error e, _), _) => ⟨.error (.wrap "failed to read from log" e), seen, [⟨x, key, none⟩]⟩
    | (some (.ok value, scratch), y) =>
      match remember stop key value seen with
      | (seen, some e) => ⟨.error e, seen, [⟨x, key, some value⟩]⟩
      | (seen, none) =>
        let r := scanKeys stop keys gaps.tail y scratch seen
        { r with turns := ⟨x, key, some value⟩ :: r.turns }

/-- `ForEach`, with the calls that are completed between its steps. -/
def Session.scan (x : Session) (stop : List (Bytes × Bytes) → Bytes → Bytes → Option Err)
    (gaps : List (List ClientCall)) : ScanRun :=
  if x.store.closed then ⟨.error (.sentinel .storeClosed), [], []⟩
  else
    let (keys, index) := x.store.index.keysSortedByOffset
    scanKeys stop keys gaps { x with store := { x.store with index := index } } [] []

/-! ## Stores in use -/

/-- The states of a store that was opened, on any disk, and called any number of times but not closed. -/
def InUse (path : Path) (x : Session) : Prop :=
  ∃ (options : Options) (d : Disk) (s : Store) (d' : Disk) (calls : List ClientCall),
    d.Sound ∧ Disk.exec (openStore path options) d = (.ok s, d') ∧ (∀ c ∈ calls, c ≠ .close) ∧
      x = final Session.serve ⟨s, d'⟩ calls

section
variable {path : Path} {x : Session} {recs : List (Rec logVersion)}

theorem Running.viewed (h : Running path x recs) : Viewed x.disk x.store recs := by
  cases h with
  | serves h => exact h.viewed
  | frozen i mask h => exact h.viewed

theorem Running.sortKeys (h : Running path x recs) :
    Running path { x with store := { x.store with index := x.store.index.keysSortedByOffset.2 } } recs := by
  cases h with
  | serves h => exact .serves h.sortKeys
  | frozen i mask h => exact .frozen i mask { h with viewed := h.viewed.sortKeys }

/-- A call that reads may change the cache or the sorted keys, and `Sync` what is durable. -/
theorem Running.serve_reads (h : Running path x recs) {c : ClientCall} (hc : c.writes = false) (hopen : c ≠ .close) :
    Running path (x.serve c).2 recs := by
  have hv := h.viewed
  cases c with
  | put key value attributes => cases hc
  | delete key => cases hc
  | compact => cases hc
  | close => exact absurd rfl hopen
  | getMetadata key => exact h
  | contains key => exact h
  | len => exact h
  | keys => exact h
  | keysBy field value => exact h
  | get key =>
    obtain ⟨cache, hget, hw, hheld⟩ := hv.exec_get key
    simp only [Session.serve, hget]
    cases h with
    | serves h => exact .serves (h.of_cache hw hheld)
    | frozen i mask h => exact .frozen i mask { h with viewed := { hv with cacheWF := hw, cached := hheld } }
  | forEach stop =>
    simp only [Session.serve, hv.exec_forEach (remember stop) []]
    exact h.sortKeys
  | sync =>
    have hsync : x.store.log.file.isOpen = true →
        Disk.exec x.store.sync x.disk = (.ok (), x.disk.syncFile x.store.log.file.inode) := by
      intro hfile
      rw [Store.sync, if_neg (by rw [hv.closed]; exact Bool.false_ne_true)]
      exact exec_syncLog hfile x.disk
    cases h with
    | serves h =>
      simp only [Session.serve, hsync h.image.isOpen]
      exact .serves (h.of_disk rfl rfl (by rw [Disk.content_syncFile]))
    | frozen i mask h =>
      simp only [Session.serve, hsync (by rw [h.file])]
      refine .frozen i mask { h with viewed := ?_, reads := ?_ }
      · exact hv.of_disk (by rw [Disk.content_syncFile])
      · rw [Disk.content_syncFile]
        exact h.reads

theorem Running.serve (h : Running path x recs) {c : ClientCall} (hopen : c ≠ .close) :
    ∃ recs', Running path (x.serve c).2 recs' := by
  cases hc : c.writes with
  | true => exact (h.call hc).1
  | false => exact ⟨recs, h.serve_reads hc hopen⟩

theorem Running.final (h : Running path x recs) {calls : List ClientCall} (hcalls : ∀ c ∈ calls, c ≠ .close) :
    ∃ recs', Running path (Library.final Session.serve x calls) recs' := by
  refine final_invariant calls (I := fun x => ∃ recs, Running path x recs) ?_ ⟨recs, h⟩
  rintro c hc y ⟨recs', hy⟩
  exact hy.serve (hcalls c hc)

theorem InUse.running (h : InUse path x) : ∃ recs, Running path x recs := by
  obtain ⟨options, d, s, d', calls, hs, hopen, hcalls, rfl⟩ := h
  obtain ⟨recs, hrunning, -⟩ := openStore_running hs hopen
  exact hrunning.final hcalls

/-! ## One turn -/

/-- The current value of a key: what `Get` would answer. -/
def Session.current (x : Session) (key : Bytes) : Option Bytes := (Disk.exec (x.store.get key) x.disk).1.1.toOption

/-- The turn found the current value of its key, if its key was live. -/
def Turn.Exact (t : Turn) : Prop :=
  t.value = t.session.current t.key ∧ t.value.isSome = t.session.store.contains t.key

theorem Viewed.current_eq (h : Viewed x.disk x.store recs) (key : Bytes) :
    x.current key = ((contents recs).lookup key).map Prod.fst := by
  obtain ⟨cache, hget, -⟩ := h.exec_get key
  rw [Session.current, hget, getAnswer]
  cases (contents recs).lookup key with
  | none => rfl
  | some v => rfl

/-- A read finds the current value, and nothing where there is none. -/
theorem Viewed.readKey (h : Viewed x.disk x.store recs) (key scratch : Bytes) :
    (x.readKey key scratch = (none, x) ∧ Turn.Exact ⟨x, key, none⟩) ∨
      ∃ value scratch', x.readKey key scratch = (some (.ok value, scratch'), x) ∧ Turn.Exact ⟨x, key, some value⟩ := by
  unfold Session.readKey
  cases hidx : x.store.index.get key with
  | none =>
    have hnone := lookup_eq_none.mpr (h.index.get_none.mp hidx)
    refine .inl ⟨rfl, ?_, ?_⟩
    · rw [h.current_eq, hnone]
      rfl
    · rw [h.contains_eq, hnone]
      rfl
  | some entry =>
    obtain ⟨y, hy, rfl⟩ := h.index.get_some hidx
    have hlive := contents_lookup (liveRecs_contents hy)
    obtain ⟨scratch', hread⟩ := exec_readRecordAtInto (h.stored _ (liveRecs_mem hy).1) (by decide) scratch
    refine .inr ⟨y.2.value, scratch', ?_, ?_, ?_⟩
    · dsimp only [liveEntry, LogRecord.indexEntry, Rec.entry]
      rw [hread]
    · rw [h.current_eq, hlive]
      rfl
    · rw [h.contains_eq, hlive]
      rfl

/-! ## The loop -/

/-- What a scan over the given keys may do: its turns are about these keys, in order, every one is exact, and it
goes through all of them unless the callback stops it. -/
structure ScanExact (stop : List (Bytes × Bytes) → Bytes → Bytes → Option Err) (keys : List Bytes)
    (seen : List (Bytes × Bytes)) (r : ScanRun) : Prop where
  delivered : r.delivered = seen ++ r.turns.filterMap Turn.delivery
  inOrder : r.turns.map Turn.key <+: keys
  turnsExact : ∀ t ∈ r.turns, t.Exact
  ended : (r.result = .ok () ∧ r.turns.map Turn.key = keys) ∨
    ∃ seen key value e, stop seen key value = some e ∧ r.result = .error e

section
variable {stop : List (Bytes × Bytes) → Bytes → Bytes → Option Err} {keys : List Bytes} {seen : List (Bytes × Bytes)}

/-- One more turn, in front. -/
theorem ScanExact.turn {t : Turn} {r : ScanRun} (ht : t.Exact)
    (h : ScanExact stop keys (seen ++ t.delivery.toList) r) :
    ScanExact stop (t.key :: keys) seen { r with turns := t :: r.turns } := by
  refine ⟨?_, ?_, ?_, ?_⟩
  · have hd := h.delivered
    change r.delivered = seen ++ (t :: r.turns).filterMap Turn.delivery
    rw [hd, List.append_assoc, List.filterMap_cons]
    cases t.delivery with
    | none => rfl
    | some x => rfl
  · exact List.cons_prefix_cons.mpr ⟨rfl, h.inOrder⟩
  · intro t' ht'
    rcases List.mem_cons.mp ht' with rfl | ht'
    · exact ht
    · exact h.turnsExact t' ht'
  · rcases h.ended with ⟨hok, hall⟩ | hstop
    · exact .inl ⟨hok, congrArg (t.key :: ·) hall⟩
    · exact .inr hstop

/-- **The loop is exact, whatever is called in its gaps.** -/
theorem scanKeys_exact (gaps : List (List ClientCall)) (hgaps : ∀ gap ∈ gaps, ∀ c ∈ gap, c ≠ .close)
    (h : ∃ recs, Running path x recs) (scratch : Bytes) :
    ScanExact stop keys seen (scanKeys stop keys gaps x scratch seen) := by
  induction keys generalizing gaps x scratch seen with
  | nil => exact ⟨by simp [scanKeys], List.prefix_rfl, fun t ht => absurd ht List.not_mem_nil, .inl ⟨rfl, rfl⟩⟩
  | cons key keys ih =>
    obtain ⟨recs, hx⟩ := h
    have hgap : ∀ c ∈ gaps.headD [], c ≠ .close := by
      cases gaps with
      | nil => exact fun c hc => absurd hc List.not_mem_nil
      | cons gap gaps => exact hgaps gap List.mem_cons_self
    have hrest : ∀ gap ∈ gaps.tail, ∀ c ∈ gap, c ≠ .close := fun gap hmem => hgaps gap (List.mem_of_mem_tail hmem)
    obtain ⟨recs', hy⟩ := hx.final hgap
    rw [scanKeys]
    generalize final Session.serve x (gaps.headD []) = y at hy ⊢
    dsimp only
    rcases hy.viewed.readKey key scratch with ⟨hread, hexact⟩ | ⟨value, scratch', hread, hexact⟩
    · rw [hread]
      refine ScanExact.turn hexact ?_
      rw [Turn.delivery, Option.map_none, Option.toList_none, List.append_nil]
      exact ih gaps.tail hrest ⟨recs', hy⟩ scratch
    · rw [hread]
      dsimp only [remember]
      cases hstop : stop seen key value with
      | some e =>
        refine ⟨rfl, List.cons_prefix_cons.mpr ⟨rfl, List.nil_prefix⟩, ?_, .inr ⟨seen, key, value, e, hstop, rfl⟩⟩
        intro t ht
        rw [List.mem_singleton.mp ht]
        exact hexact
      | none =>
        refine ScanExact.turn hexact ?_
        exact ih gaps.tail hrest ⟨recs', hy⟩ scratch'

/-! ## Without other calls -/

/-- The loop with empty gaps is the loop of the store. -/
theorem scanKeys_alone (gaps : List (List ClientCall)) (hgaps : ∀ gap ∈ gaps, gap = []) (scratch : Bytes) :
    ((scanKeys stop keys gaps x scratch seen).result, (scanKeys stop keys gaps x scratch seen).delivered) =
      (Disk.exec (Store.visit x.store.log x.store.index (remember stop) keys scratch seen) x.disk).1 := by
  induction keys generalizing gaps x scratch seen with
  | nil => rfl
  | cons key keys ih =>
    have hgap : gaps.headD [] = [] := by
      cases gaps with
      | nil => rfl
      | cons gap gaps => exact hgaps gap List.mem_cons_self
    have hrest : ∀ gap ∈ gaps.tail, gap = [] := fun gap hmem => hgaps gap (List.mem_of_mem_tail hmem)
    rw [scanKeys, hgap, Store.visit]
    dsimp only [final, Session.readKey]
    cases x.store.index.get key with
    | none => exact ih gaps.tail hrest scratch
    | some entry =>
      dsimp only
      cases hexec : Disk.exec (x.store.log.readRecordAtInto entry.recordOffset entry.storedSize scratch) x.disk with
      | mk r d =>
        obtain ⟨value, scratch'⟩ := r
        rw [Disk.exec_bind_eq hexec]
        cases value with
        | error e => rfl
        | ok value =>
          dsimp only
          cases remember stop key value seen with
          | mk seen' e =>
            cases e with
            | some e => rfl
            | none => exact ih gaps.tail hrest scratch' (x := { x with disk := d })

/-- A scan during which nothing else is called is `ForEach`. -/
theorem scan_alone (x : Session) (stop : List (Bytes × Bytes) → Bytes → Bytes → Option Err)
    {gaps : List (List ClientCall)} (hgaps : ∀ gap ∈ gaps, gap = []) :
    ((x.scan stop gaps).result, (x.scan stop gaps).delivered) =
      (Disk.exec (x.store.forEach (remember stop) []) x.disk).1.1 := by
  unfold Session.scan Store.forEach
  split
  · rfl
  · cases x.store.index.keysSortedByOffset with
    | mk keys index =>
      have halone : ((scanKeys stop keys gaps { x with store := { x.store with index := index } } [] []).result,
          (scanKeys stop keys gaps { x with store := { x.store with index := index } } [] []).delivered) =
          (Disk.exec (Store.visit x.store.log index (remember stop) keys [] []) x.disk).1 :=
        scanKeys_alone gaps hgaps []
      cases hexec : Disk.exec (Store.visit x.store.log index (remember stop) keys [] []) x.disk with
      | mk r d =>
        rw [hexec] at halone
        dsimp only
        rw [Disk.exec_bind_eq hexec]
        exact halone

/-! ## The snapshot -/

/-- The snapshot is the list of the live keys by record position. -/
theorem Viewed.snapshot (h : Viewed x.disk x.store recs) :
    (∀ key, key ∈ x.store.index.keysSortedByOffset.1 ↔ x.store.contains key = true) ∧
      x.store.index.keysSortedByOffset.1.Nodup ∧
      x.store.index.keysSortedByOffset.1.Pairwise fun k k' => ∃ e e', x.store.index.get k = some e ∧
        x.store.index.get k' = some e' ∧ e.recordOffset < e'.recordOffset := by
  have hkeys : x.store.index.keysSortedByOffset.1 = (liveRecs recs).map Prod.fst := by
    rw [Index.keysSortedByOffset_eq h.sorted, h.index.entries, replay_sortByOffset]
  have hget : ∀ y ∈ liveRecs recs, x.store.index.get y.1 = some (liveEntry y.2) := by
    intro y hy
    rw [h.index.get_eq, replay_lookup _ recs hy]
  rw [hkeys]
  refine ⟨fun key => ?_, live_nodup _, ?_⟩
  · rw [h.contains_eq, Option.isSome_iff_ne_none, ne_eq, lookup_eq_none, not_not, contents_keys]
  · refine List.pairwise_map.mpr ((liveRecs_pairwise recs).imp_of_mem ?_)
    intro y z hy hz hlt
    have hpos := y.2.2.nonempty
    exact ⟨_, _, hget y hy, hget z hz, show y.2.1 < z.2.1 by omega⟩

theorem ScanExact.sublist {r : ScanRun} (h : ScanExact stop keys [] r) : (r.delivered.map Prod.fst).Sublist keys := by
  have hturns : ∀ ts : List Turn, ((ts.filterMap Turn.delivery).map Prod.fst).Sublist (ts.map Turn.key) := by
    intro ts
    induction ts with
    | nil => exact List.Sublist.slnil
    | cons t ts ih =>
      rw [List.filterMap_cons, List.map_cons]
      cases hvalue : t.value with
      | none =>
        rw [Turn.delivery, hvalue]
        exact ih.cons _
      | some value =>
        rw [Turn.delivery, hvalue]
        exact ih.cons_cons _
  have hd := h.delivered
  rw [List.nil_append] at hd
  rw [hd]
  exact (hturns r.turns).trans h.inOrder.sublist

/-- **A scan loses and repeats nothing.** Whatever calls are completed between its steps, it has a turn for every key
that was live at the snapshot, in the order of the snapshot, until the callback stops it; in its turn a key is
delivered if it is live, with its current value; and no key is delivered twice. Without calls in between the keys
come in the order of their last `Put`. -/
theorem scan_exact (h : InUse path x) (stop : List (Bytes × Bytes) → Bytes → Bytes → Option Err)
    (gaps : List (List ClientCall)) (hgaps : ∀ gap ∈ gaps, ∀ c ∈ gap, c ≠ .close) :
    (∀ key, key ∈ x.store.index.keysSortedByOffset.1 ↔ x.store.contains key = true) ∧
      ScanExact stop x.store.index.keysSortedByOffset.1 [] (x.scan stop gaps) ∧
      ((x.scan stop gaps).delivered.map Prod.fst).Nodup ∧
      (∀ key ∈ (x.scan stop gaps).delivered.map Prod.fst, x.store.contains key = true) ∧
      (((x.scan stop gaps).delivered.map Prod.fst).Pairwise fun k k' => ∃ e e', x.store.index.get k = some e ∧
        x.store.index.get k' = some e' ∧ e.recordOffset < e'.recordOffset) ∧
      ((∀ gap ∈ gaps, gap = []) → ∀ m, Refines path x m →
        ((x.scan stop gaps).result, (x.scan stop gaps).delivered) = visitAll (remember stop) m.pairs []) := by
  obtain ⟨recs, hx⟩ := h.running
  have hv := hx.viewed
  obtain ⟨hlive, hnodup, hpositions⟩ := hv.snapshot
  have hscan : ScanExact stop x.store.index.keysSortedByOffset.1 [] (x.scan stop gaps) := by
    unfold Session.scan
    rw [if_neg (by rw [hv.closed]; exact Bool.false_ne_true)]
    exact scanKeys_exact gaps hgaps ⟨recs, hx.sortKeys⟩ []
  refine ⟨hlive, hscan, hnodup.sublist hscan.sublist, ?_, hpositions.sublist hscan.sublist, ?_⟩
  · intro key hkey
    exact (hlive key).mp (hscan.sublist.subset hkey)
  · rintro hnone m ⟨recs', hserves, hshows⟩
    obtain ⟨s', hexec, -⟩ := exec_forEach hserves (remember stop) []
    rw [scan_alone x stop hnone, hexec, hshows.pairs]

theorem scan_exact_two : ∃ x, InUse "db" x ∧
    ((x.scan (fun _ _ _ => none) [[.delete [1]], [.put [1] [5] none, .compact]]).delivered.map Prod.fst).Nodup := by
  obtain ⟨s, d', hopen, -, -⟩ := exec_openStore_fresh (zero_accepted (show "db" ≠ "" by decide)) Disk.blank_sound
    (blank_lockFree "db") (by
      intro i hi
      cases hi)
  have hx : InUse "db" (final Session.serve ⟨s, d'⟩ [.put [1] [2] none, .put [3] [4] none]) := by
    refine ⟨.zero, .blank, s, d', _, Disk.blank_sound, hopen, ?_, rfl⟩
    intro c hc
    fin_cases hc <;> rintro ⟨⟩
  refine ⟨_, hx, (scan_exact hx _ _ ?_).2.2.1⟩
  intro gap hgap c hc
  fin_cases hgap <;> fin_cases hc <;> rintro ⟨⟩

end

end

end AppendStore
