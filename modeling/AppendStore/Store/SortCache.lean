import AppendStore.Library.Threads
import AppendStore.Store.LiveIndex

/-! # Scans that run at the same time

`KeysSortedByOffset` rebuilds the list of sorted keys in the index itself, and `ForEach` calls it under
the read lock only. Here every read and write of the list and of its flag is a step of its own
(`scanStep`); run alone, the steps are `keysSortedByOffset` (`runs_scan_alone`).

Two calls that both find the list stale get in each other's way: the second one replaces the list that
the first one has filled, and its empty list can be handed out (`scan_sees_unfilled`). If no call makes
its check while another call is between a check that found the list stale and the end of its fills,
every call returns all the keys in disk order (`scans_in_disk_order`).
-/

namespace AppendStore
open Library
set_option autoImplicit false

/-! ## The steps -/

/-- Where a call of `KeysSortedByOffset` is. -/
inductive ScanPc
  | check
  | replace (pairs : List Bytes)
  | fill (pairs : List Bytes) (i : ℕ)
  | copy
  | returned (keys : List Bytes)
  deriving DecidableEq

/-- The next step of a call. The pairs are collected and sorted in memory of the call's own. -/
def scanStep {ι : Type} (_ : ι) (idx : Index) : ScanPc → Option (Index × ScanPc)
  | .check =>
    if idx.sortedDirty = false ∧ idx.sortedKeys.length = idx.entries.keys.card then some (idx, .copy)
    else some (idx, .replace (Index.sortByOffset idx.entries))
  | .replace pairs => some ({ idx with sortedKeys := List.replicate pairs.length [] }, .fill pairs 0)
  | .fill pairs i =>
    match pairs[i]? with
    | some key => some ({ idx with sortedKeys := idx.sortedKeys.set i key }, .fill pairs (i + 1))
    | none => some ({ idx with sortedDirty := false }, .copy)
  | .copy => some (idx, .returned idx.sortedKeys)
  | .returned _ => none

/-- The call has found the list stale and has not finished the new one. -/
def ScanPc.Rebuilding : ScanPc → Prop
  | .replace _ => True
  | .fill _ _ => True
  | _ => False

/-- Every live key exactly once, by increasing record offset. -/
structure InDiskOrder (entries : Finmap fun _ : Bytes => IndexEntry) (keys : List Bytes) : Prop where
  nodup : keys.Nodup
  mem : ∀ k, k ∈ keys ↔ k ∈ entries
  offsets : keys.Pairwise fun a b => ∃ x y, entries.lookup a = some x ∧ entries.lookup b = some y ∧
    x.recordOffset < y.recordOffset

theorem Serves.inDiskOrder {d : Disk} {s : Store} {path : Path} {recs : List (Rec logVersion)}
    (h : Serves d s path recs) : InDiskOrder s.index.entries (Index.sortByOffset s.index.entries) := by
  have hlists := replay_lists s.options.indexedFields recs
  rw [h.index.entries, replay_sortByOffset]
  refine ⟨live_nodup _, fun k => ?_, ?_⟩
  · rw [← Finmap.mem_keys, ← Finset.mem_val, hlists.keys, List.map_map]
    rfl
  · refine List.pairwise_map.mpr (List.Pairwise.imp_of_mem ?_ (liveRecs_pairwise recs))
    intro x y hx hy hxy
    have hpos := x.2.2.nonempty
    refine ⟨_, _, replay_lookup _ recs hx, replay_lookup _ recs hy, ?_⟩
    change x.2.1 < y.2.1
    omega

theorem length_sortByOffset (entries : Finmap fun _ : Bytes => IndexEntry) :
    (Index.sortByOffset entries).length = entries.keys.card := by
  rw [Index.sortByOffset, List.length_map, List.length_insertionSort, ← keys_card_toFinmap, enumerate_toFinmap]

/-! ## What the calls keep -/

section
variable {ι : Type} [DecidableEq ι]

/-- How far a call has come with the list `keys`. -/
def Progress (keys : List Bytes) (idx : Index) : ScanPc → Prop
  | .check => True
  | .replace pairs => pairs = keys
  | .fill pairs i => pairs = keys ∧ i ≤ keys.length ∧ idx.sortedKeys.length = keys.length ∧
      idx.sortedKeys.take i = keys.take i
  | .copy => idx.sortedDirty = false ∧ idx.sortedKeys = keys
  | .returned l => l = keys

/-- At most one call rebuilds, and then no other call is about to copy. -/
structure Scanning (entries : Finmap fun _ : Bytes => IndexEntry) (c : Threads ι Index ScanPc) : Prop where
  kept : c.shared.entries = entries
  progress : ∀ i, Progress (Index.sortByOffset entries) c.shared (c.loc i)
  alone : ∀ i j, (c.loc i).Rebuilding → j ≠ i → ¬ (c.loc j).Rebuilding ∧ c.loc j ≠ .copy
  sorted : (∀ i, ¬ (c.loc i).Rebuilding) → c.shared.Sorted

/-- What a call that is neither rebuilding nor about to copy keeps of the list does not matter to it. -/
theorem progress_elsewhere {keys : List Bytes} {idx idx' : Index} {pc : ScanPc} (h : Progress keys idx pc)
    (hr : ¬ pc.Rebuilding) (hc : pc ≠ .copy) : Progress keys idx' pc := by
  cases pc with
  | check => trivial
  | replace pairs => exact absurd trivial hr
  | fill pairs i => exact absurd trivial hr
  | copy => exact absurd rfl hc
  | returned l => exact h

/-- No call makes its check while another one rebuilds. -/
def CheckAlone (c : Threads ι Index ScanPc) (i : ι) : Prop := c.loc i = .check → ∀ j, ¬ (c.loc j).Rebuilding

variable {entries : Finmap fun _ : Bytes => IndexEntry} {c c' : Threads ι Index ScanPc} {i : ι}

/-- The step of a call that checks, copies or has returned. -/
theorem Scanning.step_other (h : Scanning entries c) {pc : ScanPc} (hm : Moved c c' i c.shared pc)
    (hi : ¬ (c.loc i).Rebuilding) (hpc : ¬ pc.Rebuilding)
    (hprogress : Progress (Index.sortByOffset entries) c.shared pc)
    (hcopy : pc = .copy → ∀ j, ¬ (c.loc j).Rebuilding) : Scanning entries c' := by
  have hreb : ∀ j, (c'.loc j).Rebuilding → j ≠ i ∧ (c.loc j).Rebuilding := by
    intro j hj
    by_cases hji : j = i
    · rw [hji, hm.loc] at hj
      exact absurd hj hpc
    · rw [hm.others j hji] at hj
      exact ⟨hji, hj⟩
  refine ⟨by rw [hm.shared, h.kept], fun j => ?_, fun j k hj hk => ?_, fun hnone => ?_⟩
  · by_cases hji : j = i
    · rw [hji, hm.loc, hm.shared]
      exact hprogress
    · rw [hm.others j hji, hm.shared]
      exact h.progress j
  · obtain ⟨-, hj⟩ := hreb j hj
    refine ⟨fun hk' => (h.alone j k hj hk).1 (hreb k hk').2, fun hk' => ?_⟩
    by_cases hki : k = i
    · rw [hki, hm.loc] at hk'
      exact hcopy hk' j hj
    · rw [hm.others k hki] at hk'
      exact (h.alone j k hj hk).2 hk'
  · rw [hm.shared]
    refine h.sorted fun j hj => ?_
    by_cases hji : j = i
    · exact hi (hji ▸ hj)
    · exact hnone j (by rw [hm.others j hji]; exact hj)

/-- The step of the call that rebuilds. -/
theorem Scanning.step_rebuilding (h : Scanning entries c) {idx : Index} {pc : ScanPc} (hm : Moved c c' i idx pc)
    (hentries : idx.entries = c.shared.entries)
    (halone : ∀ j, j ≠ i → ¬ (c.loc j).Rebuilding ∧ c.loc j ≠ .copy)
    (hprogress : Progress (Index.sortByOffset entries) idx pc) (hsorted : ¬ pc.Rebuilding → idx.Sorted) :
    Scanning entries c' := by
  refine ⟨by rw [hm.shared, hentries, h.kept], fun j => ?_, fun j k hj hk => ?_, fun hnone => ?_⟩
  · by_cases hji : j = i
    · rw [hji, hm.loc, hm.shared]
      exact hprogress
    · rw [hm.others j hji]
      exact progress_elsewhere (h.progress j) (halone j hji).1 (halone j hji).2
  · by_cases hji : j = i
    · rw [hm.others k (hji ▸ hk)]
      exact halone k (hji ▸ hk)
    · rw [hm.others j hji] at hj
      exact absurd hj (halone j hji).1
  · rw [hm.shared]
    exact hsorted (by rw [← hm.loc]; exact hnone i)

theorem Scanning.move (h : Scanning entries c) (hallowed : CheckAlone c i)
    (hmove : Library.move scanStep c i = some c') : Scanning entries c' := by
  obtain ⟨s, pc, hstep, hm⟩ := move_cases hmove
  have hprogress := h.progress i
  cases hpc : c.loc i with
  | check =>
    have hnone := hallowed hpc
    rw [hpc, scanStep] at hstep
    split at hstep
    · rename_i hfresh
      cases hstep
      refine h.step_other hm (hnone i) id ⟨hfresh.1, ?_⟩ fun _ => hnone
      rw [← h.kept]
      exact h.sorted hnone hfresh.1 hfresh.2
    · rename_i hstale
      cases hstep
      refine h.step_rebuilding hm rfl (fun j _ => ⟨hnone j, fun hcopy => hstale ?_⟩)
        (congrArg Index.sortByOffset h.kept) fun hr => absurd trivial hr
      have hfresh := h.progress j
      rw [hcopy] at hfresh
      refine ⟨hfresh.1, ?_⟩
      rw [hfresh.2, length_sortByOffset, h.kept]
  | replace pairs =>
    have halone := fun j => h.alone i j (by rw [hpc]; trivial)
    rw [hpc] at hstep hprogress
    cases hstep
    refine h.step_rebuilding hm rfl halone
      ⟨hprogress, Nat.zero_le _, ?_, rfl⟩ fun hr => absurd trivial hr
    rw [List.length_replicate, show pairs = _ from hprogress]
  | fill pairs n =>
    have halone := fun j => h.alone i j (by rw [hpc]; trivial)
    rw [hpc] at hstep hprogress
    obtain ⟨hpairs, hle, hlen, htake⟩ := hprogress
    rw [hpairs, scanStep] at hstep
    cases hkey : (Index.sortByOffset entries)[n]? with
    | some key =>
      obtain ⟨hn, hget⟩ := List.getElem?_eq_some_iff.mp hkey
      rw [hkey] at hstep
      cases hstep
      refine h.step_rebuilding hm rfl halone ⟨rfl, hn, ?_, ?_⟩ fun hr => absurd trivial hr
      · rw [List.length_set, hlen]
      · rw [List.take_add_one, List.take_add_one, List.take_set, htake, List.getElem?_set_self (by omega), hkey,
          List.set_eq_of_length_le (by rw [List.length_take]; omega)]
    | none =>
      have hn : n = (Index.sortByOffset entries).length := by
        have := List.getElem?_eq_none_iff.mp hkey
        omega
      rw [hkey] at hstep
      cases hstep
      have hkeys : c.shared.sortedKeys = Index.sortByOffset entries := by
        rw [hn, List.take_length, ← hlen, List.take_length] at htake
        exact htake
      refine h.step_rebuilding hm rfl halone ⟨rfl, hkeys⟩ ?_
      intro _ _ _
      change c.shared.sortedKeys = Index.sortByOffset c.shared.entries
      rw [h.kept, hkeys]
  | copy =>
    rw [hpc] at hstep hprogress
    cases hstep
    exact h.step_other hm (by rw [hpc]; exact id) id hprogress.2 fun heq => by cases heq
  | returned l =>
    rw [hpc] at hstep
    cases hstep

/-- **Scans see every key, unless one checks while another one rebuilds.** -/
theorem scans_in_disk_order {path : Path} {x : Session} (h : Reachable path x) {schedule : List ι}
    (hobeys : Obeys CheckAlone scanStep ⟨x.store.index, fun _ => .check⟩ schedule)
    (hruns : runs scanStep ⟨x.store.index, fun _ => .check⟩ schedule = some c) {keys : List Bytes}
    (hreturned : c.loc i = .returned keys) : InDiskOrder x.store.index.entries keys := by
  obtain ⟨recs, hserves⟩ := h.serves
  have hstart : Scanning x.store.index.entries
      (⟨x.store.index, fun _ => .check⟩ : Threads ι Index ScanPc) :=
    ⟨rfl, fun _ => trivial, fun _ _ hr => absurd hr id, fun _ => hserves.sorted⟩
  have hend := runs_invariant (fun _ _ _ hc hallowed hmove => hc.move hallowed hmove) hstart hobeys hruns
  have hkeys := hend.progress i
  rw [hreturned] at hkeys
  rw [show keys = _ from hkeys]
  exact hserves.inDiskOrder

end

/-! ## One call alone -/

section
variable {ι : Type} [DecidableEq ι] {c : Threads ι Index ScanPc} {i : ι}

theorem alone_fill {pairs : List Bytes} (k : ℕ) {n : ℕ} {idx : Index} (h : Alone scanStep c i idx (.fill pairs n))
    (hk : n + k = pairs.length) (hlen : idx.sortedKeys.length = pairs.length)
    (htake : idx.sortedKeys.take n = pairs.take n) :
    Alone scanStep c i { idx with sortedKeys := pairs, sortedDirty := false } (.returned pairs) := by
  induction k generalizing n idx with
  | zero =>
    have hkeys : idx.sortedKeys = pairs := by
      rw [Nat.add_zero] at hk
      rw [hk, List.take_length, ← hlen, List.take_length] at htake
      exact htake
    have hend : scanStep i idx (.fill pairs n) = some ({ idx with sortedDirty := false }, .copy) := by
      rw [scanStep, List.getElem?_eq_none_iff.mpr (by omega)]
    have hcopy := (h.next hend).next rfl
    rwa [← hkeys]
  | succ k ih =>
    have hn : n < pairs.length := by omega
    have hfill : scanStep i idx (.fill pairs n) =
        some ({ idx with sortedKeys := idx.sortedKeys.set n (pairs.get ⟨n, hn⟩) }, .fill pairs (n + 1)) := by
      rw [scanStep, List.getElem?_eq_getElem hn]
      rfl
    have htake' : (idx.sortedKeys.set n (pairs.get ⟨n, hn⟩)).take (n + 1) = pairs.take (n + 1) := by
      rw [List.take_add_one, List.take_add_one, List.take_set, htake, List.getElem?_set_self (by omega),
        List.getElem?_eq_getElem hn, List.set_eq_of_length_le (by rw [List.length_take]; omega)]
      rfl
    have hrest := ih (h.next hfill) (by omega) (by rw [List.length_set, hlen]) htake'
    exact hrest

/-- **A call that runs alone is `keysSortedByOffset`.** -/
theorem runs_scan_alone (hcheck : c.loc i = .check) :
    Alone scanStep c i c.shared.keysSortedByOffset.2 (.returned c.shared.keysSortedByOffset.1) := by
  have h := alone_refl scanStep c i
  rw [hcheck] at h
  unfold Index.keysSortedByOffset
  by_cases hfresh : c.shared.sortedDirty = false ∧ c.shared.sortedKeys.length = c.shared.entries.keys.card
  · rw [if_pos hfresh]
    exact (h.next (by rw [scanStep, if_pos hfresh])).next rfl
  · rw [if_neg hfresh]
    have hreplaced := (h.next (by rw [scanStep, if_neg hfresh])).next rfl
    have hfilled := alone_fill _ hreplaced (Nat.zero_add _) (List.length_replicate ..) rfl
    exact hfilled

end

/-- The first call rebuilds the list of two keys. The second one checks after the last fill, before the first one
has copied, and copies before it. -/
def overlappingScans : List Bool := [true, true, true, true, true, false, false, true]

theorem runs_one_rebuilds {idx : Index} {a b : Bytes} (hdirty : idx.sortedDirty = true)
    (hkeys : Index.sortByOffset idx.entries = [a, b]) :
    ∃ c, Obeys CheckAlone scanStep (⟨idx, fun _ => .check⟩ : Threads Bool Index ScanPc) overlappingScans ∧
      runs scanStep ⟨idx, fun _ => .check⟩ overlappingScans = some c ∧
      ∀ caller, c.loc caller = .returned [a, b] := by
  have hcard : idx.entries.keys.card = 2 := by rw [← length_sortByOffset, hkeys]; rfl
  simp [overlappingScans, Obeys, CheckAlone, ScanPc.Rebuilding, runs, move, scanStep, hdirty, hkeys, hcard,
    Function.update]

theorem scans_in_disk_order_overlapping : ∃ x c, worked "db" .zero busyCalls = some x ∧
    runs scanStep (⟨x.store.index, fun _ => .check⟩ : Threads Bool Index ScanPc) overlappingScans = some c ∧
    (∀ caller, c.loc caller = .returned [[1], [7]]) ∧ InDiskOrder x.store.index.entries [[1], [7]] := by
  obtain ⟨x, hx, hreach⟩ := worked_reachable (zero_accepted (by decide)) (busyCalls_accepted "db")
  have hindex : (worked "db" .zero busyCalls).map (fun x =>
      (x.store.index.sortedDirty, Index.sortByOffset x.store.index.entries)) = some (true, [[1], [7]]) := by
    decide +kernel
  rw [hx, Option.map_some, Option.some.injEq] at hindex
  obtain ⟨hdirty, hkeys⟩ := Prod.mk.inj hindex
  obtain ⟨c, hobeys, hruns, hreturned⟩ := runs_one_rebuilds hdirty hkeys
  exact ⟨x, c, hx, hruns, hreturned, scans_in_disk_order hreach hobeys hruns (hreturned false)⟩

/-! ## Two calls that both rebuild -/

theorem exec_put_dirty {d : Disk} {s : Store} {path : Path} {recs : List (Rec logVersion)}
    (h : Serves d s path recs) {key value ab : Bytes} {options : Option AttributeRange}
    (hlim : appendLimits key value (options.getD ∅) [] = .ok ab) :
    (Disk.exec (s.put key value options) d).1.2.index.sortedDirty = true := by
  obtain ⟨l', d1, happ, -, -, himage⟩ := exec_append_image h.image h.unknownReadOnly hlim false
  unfold Store.put
  rw [h.writable]
  dsimp only
  rw [Disk.exec_orElseState_ok happ]
  obtain ⟨d2, hsync, -⟩ := exec_syncMutation himage.isOpen "sync appended value" d1 (s := { s with
    log := l'
    index := s.index.put key ((placedAt s.log.writePos (appendRaw key ab value [] false)).entry
      (options.getD ∅).toFinmap)
    cache := s.cache.remove key })
  rw [hsync]
  exact Index.put_sortedDirty ..

/-- The first call is about to copy its list when the second one replaces it. -/
theorem runs_both_rebuild {idx : Index} {key : Bytes} (hdirty : idx.sortedDirty = true)
    (hkeys : Index.sortByOffset idx.entries = [key]) :
    ∃ c, runs scanStep (⟨idx, fun _ => .check⟩ : Threads Bool Index ScanPc)
      [true, false, true, true, true, false, true] = some c ∧ c.loc true = .returned [[]] := by
  simp [runs, move, scanStep, hdirty, hkeys, Function.update]

/-- **A list that another call has just replaced is handed out unfilled.** The store holds one key; two
calls find the list stale, the first one fills its list, and before it copies it the second one puts
its own in the place. -/
theorem scan_sees_unfilled : ∃ (x : Session) (schedule : List Bool) (c : Threads Bool Index ScanPc),
    Reachable "db" x ∧ runs scanStep ⟨x.store.index, fun _ => .check⟩ schedule = some c ∧
      c.loc true = .returned [[]] ∧ ¬ InDiskOrder x.store.index.entries [[]] := by
  obtain ⟨x, hx, hserves⟩ := blank_serves "db" (by decide)
  have hlim : appendLimits [1] [2] ((none : Option AttributeRange).getD ∅) [] = .ok (attributeBlock []) := by decide
  obtain ⟨s', d', hexec, hmut⟩ := exec_put hserves hlim
  have hdirty := exec_put_dirty hserves hlim
  have hreach := hx.call (c := .put [1] [2] none) trivial
  simp only [Session.call, hexec] at hreach
  rw [hexec] at hdirty
  have hkeys : Index.sortByOffset s'.index.entries = [[1]] := by
    rw [hmut.serves.index.entries, replay_sortByOffset]
    rfl
  obtain ⟨c, hruns, hloc⟩ := runs_both_rebuild hdirty hkeys
  refine ⟨⟨s', d'⟩, _, c, hreach, hruns, hloc, fun h => ?_⟩
  have hmem := (hmut.serves.inDiskOrder.mem []).mpr ((h.mem []).mp List.mem_cons_self)
  rw [hkeys] at hmem
  exact absurd hmem (by decide)

end AppendStore
