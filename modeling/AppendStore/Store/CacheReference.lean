import AppendStore.Library.Recency
import AppendStore.Store.Cache

/-! # The cache against its reference

The map and the list of `cache.go` hold what one recency list of pairs holds: each operation takes the one to the
other (`Tracks.step`), so a whole run does.
-/

namespace AppendStore
open Library
set_option autoImplicit false

namespace LruCache

def step (c : LruCache) : CacheCall Bytes Bytes → Option Bytes × LruCache
  | .get key => c.get key
  | .put key value => (none, c.put key value)
  | .remove key => (none, c.remove key)
  | .clear => (none, c.clear)

/-- What the list holds, the most recently used pair first. -/
def pairs (c : LruCache) : List (Bytes × Bytes) := c.order.map fun e => (e.key, e.value)

/-- The cache holds the recency list `l`. -/
structure Tracks (capacity : ℕ) (c : LruCache) (l : List (Bytes × Bytes)) : Prop where
  wf : c.WF
  bound : c.capacity = capacity
  pairs : c.pairs = l
  room : l.length ≤ capacity

section
variable {c : LruCache} {key : Bytes}

theorem pairs_keys (c : LruCache) : c.pairs.map Prod.fst = c.order.map Element.key := by
  rw [LruCache.pairs, List.map_map]
  rfl

/-- A key that the map does not know is not in the list. -/
theorem WF.absent (h : c.WF) (hk : c.items.lookup key = none) : key ∉ c.order.map Element.key := by
  intro hin
  obtain ⟨e, he, hkey⟩ := List.mem_map.mp hin
  have hb := (h.bound key e.id).mpr ⟨e, he, rfl, hkey⟩
  rw [hk] at hb
  cases hb

/-- Taking an element out of the list takes its key out. -/
theorem WF.pairs_without (h : c.WF) {e : Element} (he : e ∈ c.order) :
    ((c.order.filter fun f => f.id ≠ e.id).map fun f => (f.key, f.value)) = Recency.without e.key c.pairs := by
  rw [Recency.without, LruCache.pairs, List.filter_map]
  congr 1
  refine List.filter_congr fun f hf => ?_
  have hiff : f.id ≠ e.id ↔ f.key ≠ e.key :=
    not_congr ⟨fun heq => by rw [h.unique hf he heq], fun heq => by rw [h.key_unique hf he heq]⟩
  rw [Bool.eq_iff_iff]
  simpa using hiff

theorem WF.find_pair (h : c.WF) {e : Element} (he : e ∈ c.order) :
    (c.pairs.find? fun p => p.1 = e.key) = some (e.key, e.value) := by
  have hsome : (c.pairs.find? fun p => p.1 = e.key).isSome := by
    rw [List.find?_isSome]
    exact ⟨_, List.mem_map_of_mem he, by simp⟩
  obtain ⟨p, hp⟩ := Option.isSome_iff_exists.mp hsome
  obtain ⟨f, hf, rfl⟩ := List.mem_map.mp (List.mem_of_find?_eq_some hp)
  have hkey : f.key = e.key := by simpa using List.find?_some hp
  rw [hp, h.key_unique hf he hkey]

/-- With at most `capacity` elements the loop of `Put` evicts once, from a full list. -/
theorem makeRoom_eq (hcap : 1 ≤ c.capacity) (hlen : c.order.length ≤ c.capacity) :
    makeRoom c.order.length c = if c.order.length = c.capacity then c.evictOldest else c := by
  by_cases hfull : c.order.length = c.capacity
  · rw [if_pos hfull]
    obtain ⟨n, hn⟩ : ∃ n, c.order.length = n + 1 := ⟨c.order.length - 1, by omega⟩
    have hone : c.evictOldest.order.length < c.evictOldest.capacity := by
      have hne : c.order ≠ [] := by
        rw [← List.length_pos_iff]
        omega
      rw [LruCache.evictOldest, List.getLast?_eq_some_getLast hne]
      dsimp only
      rw [List.length_dropLast]
      omega
    rw [hn, makeRoom, if_pos (by omega)]
    cases n with
    | zero => rfl
    | succ n => rw [makeRoom, if_neg (by omega)]
  · rw [if_neg hfull]
    cases hn : c.order.length with
    | zero => rfl
    | succ n => rw [makeRoom, if_neg (by omega)]

theorem makeRoom_pairs (hcap : 1 ≤ c.capacity) (hlen : c.order.length ≤ c.capacity) :
    (makeRoom c.order.length c).pairs = if c.pairs.length = c.capacity then c.pairs.dropLast else c.pairs := by
  have hpairs : c.pairs.length = c.order.length := List.length_map _
  rw [makeRoom_eq hcap hlen, hpairs]
  split
  · rw [LruCache.evictOldest]
    split
    · rename_i hnone
      rw [List.getLast?_eq_none_iff] at hnone
      rw [LruCache.pairs, hnone]
      rfl
    · rw [LruCache.pairs, LruCache.pairs, List.map_dropLast]
  · rfl

theorem evictOldest_capacity (c : LruCache) : c.evictOldest.capacity = c.capacity := by
  unfold LruCache.evictOldest
  split <;> rfl

theorem makeRoom_capacity (fuel : ℕ) (c : LruCache) : (makeRoom fuel c).capacity = c.capacity := by
  induction fuel generalizing c with
  | zero => rfl
  | succ fuel ih =>
    unfold LruCache.makeRoom
    split
    · rw [ih, evictOldest_capacity]
    · rfl

end

/-! ## One operation -/

section
variable {c : LruCache} {l : List (Bytes × Bytes)} {capacity : ℕ}

/-- The element of a known key, and what moving it to the front does to the list. -/
theorem WF.front (h : c.WF) {key : Bytes} {id : ℕ} (hk : c.items.lookup key = some id) :
    ∃ e ∈ c.order, e.id = id ∧ e.key = key ∧ (c.order.find? fun f => f.id = id) = some e ∧
      moveToFront id c.order = e :: c.order.filter fun f => f.id ≠ id := by
  obtain ⟨e, he, hid, hkey, hfind⟩ := h.find hk
  refine ⟨e, he, hid, hkey, hfind, ?_⟩
  rw [moveToFront, hfind]

theorem Tracks.get (h : Tracks capacity c l) (key : Bytes) :
    (c.get key).1 = (Recency.step capacity l (.get key)).1 ∧
      (c.get key).2.pairs = (Recency.step capacity l (.get key)).2 := by
  obtain ⟨hwf, -, rfl, -⟩ := h
  cases hk : c.items.lookup key with
  | none =>
    have hout := hwf.absent hk
    have hfind : (c.pairs.find? fun p => p.1 = key) = none := by
      rw [List.find?_eq_none]
      intro p hp heq
      rw [← pairs_keys] at hout
      exact hout (List.mem_map.mpr ⟨p, hp, by simpa using heq⟩)
    simp only [LruCache.get, hk, Recency.step, hfind, and_self]
  | some id =>
    obtain ⟨e, he, rfl, rfl, hfind, hfront⟩ := hwf.front hk
    simp only [LruCache.get, hk, Recency.step, hwf.find_pair he, hfind, Option.map_some, true_and]
    rw [LruCache.pairs, hfront, List.map_cons, hwf.pairs_without he]

theorem Tracks.put (h : Tracks capacity c l) (hcap : 1 ≤ capacity) (key value : Bytes) :
    (c.put key value).pairs = (Recency.step capacity l (.put key value)).2 := by
  obtain ⟨hwf, rfl, rfl, hroom⟩ := h
  have hlen : c.order.length ≤ c.capacity := by
    rw [LruCache.pairs, List.length_map] at hroom
    exact hroom
  cases hk : c.items.lookup key with
  | none =>
    have hout := hwf.absent hk
    rw [← pairs_keys] at hout
    have hnew : (c.put key value).pairs = (key, value) :: (makeRoom c.order.length c).pairs := by
      rw [LruCache.put, hk]
      rfl
    rw [hnew, makeRoom_pairs hcap hlen, Recency.step, if_neg hout]
    split <;> rfl
  | some id =>
    obtain ⟨e, he, rfl, rfl, hfind, hfront⟩ := hwf.front hk
    have hin : e.key ∈ c.pairs.map Prod.fst := by
      rw [pairs_keys]
      exact List.mem_map_of_mem he
    -- the value is set in the element at the front; no other element has its identity
    have hothers : ((c.order.filter fun f => f.id ≠ e.id).map fun f =>
        if f.id = e.id then { f with value := value } else f) = c.order.filter fun f => f.id ≠ e.id := by
      conv_rhs => rw [← List.map_id (c.order.filter fun f => f.id ≠ e.id)]
      refine List.map_congr_left fun f hf => ?_
      have hne : f.id ≠ e.id := by simpa using List.of_mem_filter hf
      rw [if_neg hne]
      rfl
    rw [Recency.step, if_pos hin]
    simp only [LruCache.put, hk]
    rw [LruCache.pairs, hfront, List.map_cons, hothers, List.map_cons, if_pos rfl, hwf.pairs_without he]

theorem Tracks.remove (h : Tracks capacity c l) (key : Bytes) :
    (c.remove key).pairs = Recency.without key l := by
  obtain ⟨hwf, -, rfl, -⟩ := h
  cases hk : c.items.lookup key with
  | none =>
    have hout := hwf.absent hk
    rw [← pairs_keys] at hout
    have hsame : Recency.without key c.pairs = c.pairs := by
      refine List.filter_eq_self.mpr fun p hp => ?_
      have hne : p.1 ≠ key := fun heq => hout (List.mem_map.mpr ⟨p, hp, heq⟩)
      simpa using hne
    rw [LruCache.remove, hk, hsame]
  | some id =>
    obtain ⟨e, he, rfl, rfl, -, -⟩ := hwf.front hk
    simp only [LruCache.remove, hk]
    exact hwf.pairs_without he

theorem WF.step (h : c.WF) (call : CacheCall Bytes Bytes) : (c.step call).2.WF := by
  cases call with
  | get key => exact h.get key
  | put key value => exact h.put key value
  | remove key => exact h.remove key
  | clear => exact clear_wf c

theorem step_capacity (c : LruCache) (call : CacheCall Bytes Bytes) : (c.step call).2.capacity = c.capacity := by
  cases call with
  | get key =>
    dsimp only [LruCache.step, LruCache.get]
    split <;> rfl
  | put key value =>
    dsimp only [LruCache.step, LruCache.put]
    split
    · rfl
    · exact makeRoom_capacity _ c
  | remove key =>
    dsimp only [LruCache.step, LruCache.remove]
    split <;> rfl
  | clear => rfl

/-- **One operation** does to the cache what it does to the recency list. -/
theorem Tracks.step (h : Tracks capacity c l) (hcap : 1 ≤ capacity) (call : CacheCall Bytes Bytes) :
    (c.step call).1 = (Recency.step capacity l call).1 ∧
      Tracks capacity (c.step call).2 (Recency.step capacity l call).2 := by
  have hreply : (c.step call).1 = (Recency.step capacity l call).1 ∧
      (c.step call).2.pairs = (Recency.step capacity l call).2 := by
    cases call with
    | get key => exact h.get key
    | put key value =>
      refine ⟨?_, h.put hcap key value⟩
      dsimp only [LruCache.step, Recency.step]
      split
      · rfl
      · split <;> rfl
    | remove key => exact ⟨rfl, h.remove key⟩
    | clear => exact ⟨rfl, rfl⟩
  exact ⟨hreply.1, h.wf.step call, (step_capacity c call).trans h.bound, hreply.2,
    Recency.step_length hcap h.room call⟩

end

/-! ## Runs -/

theorem tracks_new (capacity : ℕ) : Tracks capacity (newLRUCache capacity) [] :=
  ⟨newLRUCache_wf capacity, rfl, rfl, Nat.zero_le _⟩

theorem Tracks.final {capacity : ℕ} (hcap : 1 ≤ capacity) (calls : List (CacheCall Bytes Bytes)) {c : LruCache}
    {l : List (Bytes × Bytes)} (h : Tracks capacity c l) :
    Tracks capacity (Library.final LruCache.step c calls) (Library.final (Recency.step capacity) l calls) := by
  induction calls generalizing c l with
  | nil => exact h
  | cons call calls ih => exact ih (h.step hcap call).2

end LruCache

/-- **The cache is an exact LRU**, after every run on a new cache. The keys stand in the order of their last use,
which the calls and their answers give, and the answers are those of the recency list. -/
theorem cache_is_lru (capacity : ℕ) (hcap : 1 ≤ capacity) (calls : List (CacheCall Bytes Bytes)) :
    let c := final LruCache.step (newLRUCache capacity) calls
    let replies := answers LruCache.step (newLRUCache capacity) calls
    -- the map and the list
    c.items.keys = (c.order.map Element.key).toFinset ∧ (c.order.map Element.key).Nodup ∧
    (c.order.map Element.id).Nodup ∧ c.order.length ≤ capacity ∧
    (∀ k id, c.items.lookup k = some id ↔ ∃ e ∈ c.order, e.id = id ∧ e.key = k) ∧
    -- the order of last use
    Recency.Ordered (Recency.uses calls replies) (c.order.map Element.key) ∧
    -- the reference
    replies = answers (Recency.step capacity) [] calls ∧
    c.pairs = final (Recency.step capacity) [] calls := by
  intro c replies
  have htracks : LruCache.Tracks capacity c (final (Recency.step capacity) [] calls) :=
    (LruCache.tracks_new capacity).final hcap calls
  have hreplies : replies = answers (Recency.step capacity) [] calls :=
    answers_eq (R := LruCache.Tracks capacity) calls (fun call _ _ _ h => h.step hcap call)
      (LruCache.tracks_new capacity)
  have hordered : Recency.Ordered (Recency.uses calls replies) (c.order.map Element.key) := by
    have hrun : Recency.Ordered (Recency.uses calls (answers (Recency.step capacity) [] calls) ++ [])
        ((final (Recency.step capacity) [] calls).map Prod.fst) :=
      Recency.answers_ordered calls ⟨by simp, List.Pairwise.nil⟩
    rw [List.append_nil, ← hreplies, ← htracks.pairs, LruCache.pairs_keys] at hrun
    exact hrun
  have hlen : c.order.length ≤ capacity := by
    have hroom := htracks.room
    rw [← htracks.pairs, LruCache.pairs, List.length_map] at hroom
    exact hroom
  refine ⟨?_, hordered.nodup, htracks.wf.nodup, hlen, htracks.wf.bound,
    hordered, hreplies, htracks.pairs⟩
  ext k
  rw [Finmap.mem_keys, ← Finmap.lookup_isSome, Option.isSome_iff_exists, List.mem_toFinset, List.mem_map]
  simp only [htracks.wf.bound]
  constructor
  · rintro ⟨id, e, he, -, hkey⟩
    exact ⟨e, he, hkey⟩
  · rintro ⟨e, he, hkey⟩
    exact ⟨e.id, e, he, rfl, hkey⟩

/-- A hit saves its key from the eviction that a third key causes in a cache of two. -/
theorem cache_is_lru_two : 1 ≤ 2 ∧
    answers LruCache.step (newLRUCache 2)
      [.put [1] [10], .put [2] [20], .get [1], .put [3] [30], .get [2], .get [1]] =
      [none, none, some [10], none, none, some [10]] := by
  refine ⟨by decide, ?_⟩
  obtain ⟨-, -, -, -, -, -, hreplies, -⟩ := cache_is_lru 2 (by decide)
    [.put [1] [10], .put [2] [20], .get [1], .put [3] [30], .get [2], .get [1]]
  rw [hreplies]
  decide

end AppendStore
