import AppendStore.Library.FiniteMap
import AppendStore.Library.Bytes

/-! # The LRU cache

`cache.go`: a map from keys to list elements, and the list of elements, most recently used first. An
element has an identity of its own, which is what the map holds.
-/

namespace AppendStore
open Library
set_option autoImplicit false

/-- An element of `container/list` that holds a `cacheItem`. -/
structure Element where
  id : ℕ
  key : Bytes
  value : Bytes
  deriving DecidableEq, Repr

structure LruCache where
  capacity : ℕ
  items : Finmap fun _ : Bytes => ℕ
  order : List Element
  /-- The identity of the next new element. -/
  next : ℕ
  deriving DecidableEq

def newLRUCache (capacity : ℕ) : LruCache := ⟨capacity, ∅, [], 0⟩

/-- `MoveToFront`. -/
def moveToFront (id : ℕ) (order : List Element) : List Element :=
  match order.find? fun e => e.id = id with
  | none => order
  | some e => e :: order.filter fun e => e.id ≠ id

namespace LruCache

def get (c : LruCache) (key : Bytes) : Option Bytes × LruCache :=
  match c.items.lookup key with
  | none => (none, c)
  | some id =>
    ((c.order.find? fun e => e.id = id).map Element.value, { c with order := moveToFront id c.order })

def evictOldest (c : LruCache) : LruCache :=
  match c.order.getLast? with
  | none => c
  | some oldest => { c with items := c.items.erase oldest.key, order := c.order.dropLast }

/-- The loop that evicts; every pass drops an element. -/
def makeRoom : ℕ → LruCache → LruCache
  | 0, c => c
  | fuel + 1, c =>
    if c.order.length ≥ c.capacity ∧ c.order.length > 0 then makeRoom fuel c.evictOldest else c

def put (c : LruCache) (key value : Bytes) : LruCache :=
  match c.items.lookup key with
  | some id =>
    { c with order := (moveToFront id c.order).map fun e => if e.id = id then { e with value := value } else e }
  | none =>
    let c := makeRoom c.order.length c
    { c with
      order := ⟨c.next, key, value⟩ :: c.order
      items := c.items.insert key c.next
      next := c.next + 1 }

def remove (c : LruCache) (key : Bytes) : LruCache :=
  match c.items.lookup key with
  | some id => { c with order := c.order.filter fun e => e.id ≠ id, items := c.items.erase key }
  | none => c

def clear (c : LruCache) : LruCache := { c with items := ∅, order := [] }

/-! ## The map and the list agree -/

structure WF (c : LruCache) : Prop where
  nodup : (c.order.map Element.id).Nodup
  fresh : ∀ e ∈ c.order, e.id < c.next
  bound : ∀ k id, c.items.lookup k = some id ↔ ∃ e ∈ c.order, e.id = id ∧ e.key = k

/-- Every cached value satisfies `P`. -/
def Holds (P : Bytes → Bytes → Prop) (c : LruCache) : Prop := ∀ e ∈ c.order, P e.key e.value

variable {c : LruCache} {P Q : Bytes → Bytes → Prop}

theorem WF.unique (h : c.WF) {e f : Element} (he : e ∈ c.order) (hf : f ∈ c.order) (hid : e.id = f.id) :
    e = f :=
  List.inj_on_of_nodup_map h.nodup he hf hid

theorem WF.key_unique (h : c.WF) {e f : Element} (he : e ∈ c.order) (hf : f ∈ c.order)
    (hkey : e.key = f.key) : e = f := by
  have h1 := (h.bound e.key e.id).mpr ⟨e, he, rfl, rfl⟩
  have h2 := (h.bound e.key f.id).mpr ⟨f, hf, rfl, hkey.symm⟩
  rw [h1] at h2
  exact h.unique he hf (Option.some.inj h2)

theorem Holds.mono (h : c.Holds P) (hPQ : ∀ k v, P k v → Q k v) : c.Holds Q :=
  fun e he => hPQ _ _ (h e he)

theorem newLRUCache_wf (capacity : ℕ) : (newLRUCache capacity).WF := by
  refine ⟨List.nodup_nil, by simp [newLRUCache], ?_⟩
  intro k id
  simp [newLRUCache]

theorem newLRUCache_holds (capacity : ℕ) : (newLRUCache capacity).Holds P := by
  intro e he
  cases he

theorem clear_wf (c : LruCache) : c.clear.WF := by
  refine ⟨List.nodup_nil, by simp [clear], ?_⟩
  intro k id
  simp [clear]

theorem clear_holds (c : LruCache) : c.clear.Holds P := by
  intro e he
  cases he

/-- The element a key is bound to. -/
theorem WF.find (h : c.WF) {k : Bytes} {id : ℕ} (hk : c.items.lookup k = some id) :
    ∃ e ∈ c.order, e.id = id ∧ e.key = k ∧ (c.order.find? fun f => f.id = id) = some e := by
  obtain ⟨e, he, hid, hkey⟩ := (h.bound k id).mp hk
  have hsome : (c.order.find? fun f => f.id = id).isSome := by
    rw [List.find?_isSome]
    exact ⟨e, he, by simpa using hid⟩
  obtain ⟨f, hf⟩ := Option.isSome_iff_exists.mp hsome
  have hfid : f.id = id := by simpa using List.find?_some hf
  have hfe := h.unique (List.mem_of_find?_eq_some hf) he (hfid.trans hid.symm)
  exact ⟨e, he, hid, hkey, hfe ▸ hf⟩

theorem moveToFront_perm (h : (c.order.map Element.id).Nodup) (id : ℕ) :
    (moveToFront id c.order).Perm c.order := by
  unfold moveToFront
  split
  · exact List.Perm.refl _
  · rename_i e he
    have hmem := List.mem_of_find?_eq_some he
    have hid : e.id = id := by simpa using List.find?_some he
    have hfilter : (c.order.filter fun f => f.id ≠ id) = c.order.erase e := by
      rw [h.of_map.erase_eq_filter]
      refine List.filter_congr ?_
      intro f hf
      have hiff : f.id ≠ id ↔ f ≠ e := by
        rw [← hid]
        exact not_congr ⟨fun heq => List.inj_on_of_nodup_map h hf hmem heq, fun heq => by rw [heq]⟩
      rw [Bool.eq_iff_iff]
      simpa using hiff
    rw [hfilter]
    exact (List.perm_cons_erase hmem).symm

/-- Rearranging the list changes nothing else. -/
theorem WF.of_perm (h : c.WF) {order : List Element} (hp : order.Perm c.order) :
    WF { c with order := order } := by
  refine ⟨(hp.map _).nodup_iff.mpr h.nodup, fun e he => h.fresh e (hp.mem_iff.mp he), ?_⟩
  intro k id
  simp only [hp.mem_iff]
  exact h.bound k id

theorem WF.get (h : c.WF) (key : Bytes) : (c.get key).2.WF := by
  unfold LruCache.get
  split
  · exact h
  · exact h.of_perm (moveToFront_perm h.nodup _)

theorem Holds.get (h : c.Holds P) (hw : c.WF) (key : Bytes) : (c.get key).2.Holds P := by
  unfold LruCache.get
  split
  · exact h
  · exact fun e he => h e ((moveToFront_perm hw.nodup _).mem_iff.mp he)

/-- A hit returns a value cached for that key. -/
theorem get_hit (h : c.Holds P) (hw : c.WF) {key v : Bytes} (hv : (c.get key).1 = some v) : P key v := by
  unfold LruCache.get at hv
  split at hv
  · cases hv
  · rename_i id hid
    obtain ⟨e, he, -, hkey, hfind⟩ := hw.find hid
    rw [hfind] at hv
    cases hv
    rw [← hkey]
    exact h e he

theorem WF.remove (h : c.WF) (key : Bytes) : (c.remove key).WF := by
  unfold LruCache.remove
  split
  · rename_i id hid
    obtain ⟨e, he, heid, hkey, -⟩ := h.find hid
    refine ⟨h.nodup.sublist (List.filter_sublist.map _),
      fun f hf => h.fresh f (List.mem_of_mem_filter hf), ?_⟩
    intro k i
    rw [finmap_lookup_erase]
    split
    · rename_i hk
      simp only [reduceCtorEq, false_iff]
      rintro ⟨f, hf, -, hfk⟩
      rw [List.mem_filter] at hf
      have hfe := h.key_unique hf.1 he (hfk.trans (hk.trans hkey.symm))
      rw [hfe, heid] at hf
      simp at hf
    · rename_i hk
      rw [h.bound k i]
      constructor
      · rintro ⟨f, hf, hfi, hfk⟩
        refine ⟨f, List.mem_filter.mpr ⟨hf, ?_⟩, hfi, hfk⟩
        have hne : f.id ≠ id := by
          intro heq
          have hfe := h.unique hf he (heq.trans heid.symm)
          exact hk (hfk.symm.trans (hfe ▸ hkey))
        simpa using hne
      · rintro ⟨f, hf, hfi, hfk⟩
        exact ⟨f, List.mem_of_mem_filter hf, hfi, hfk⟩
  · exact h

/-- After a removal nothing is cached for the key. -/
theorem Holds.remove (h : c.Holds P) (hw : c.WF) (key : Bytes) :
    (c.remove key).Holds fun k v => P k v ∧ k ≠ key := by
  intro f hf
  have hwr := hw.remove key
  refine ⟨?_, ?_⟩
  · unfold LruCache.remove at hf
    split at hf
    · exact h f (List.mem_of_mem_filter hf)
    · exact h f hf
  · intro hk
    have hb := (hwr.bound f.key f.id).mpr ⟨f, hf, rfl, rfl⟩
    unfold LruCache.remove at hb
    split at hb
    · rw [finmap_lookup_erase, if_pos hk] at hb
      cases hb
    · rename_i hnone
      rw [hk, hnone] at hb
      cases hb

theorem WF.evictOldest (h : c.WF) : c.evictOldest.WF := by
  unfold LruCache.evictOldest
  split
  · exact h
  · rename_i oldest hlast
    obtain ⟨init, hinit⟩ := List.getLast?_eq_some_iff.mp hlast
    have hdrop : c.order.dropLast = init := by rw [hinit, List.dropLast_concat]
    have hmem : oldest ∈ c.order := List.mem_of_getLast? hlast
    have hsub : ∀ f ∈ init, f ∈ c.order := fun f hf => by rw [hinit]; exact List.mem_append_left _ hf
    have hout : oldest ∉ init := by
      have hnd := h.nodup.of_map
      rw [hinit, List.nodup_append] at hnd
      exact fun hin => hnd.2.2 oldest hin oldest (List.mem_singleton_self _) rfl
    rw [hdrop]
    refine ⟨?_, fun f hf => h.fresh f (hsub f hf), ?_⟩
    · have hnd := h.nodup
      rw [hinit, List.map_append] at hnd
      exact hnd.of_append_left
    · intro k i
      rw [finmap_lookup_erase]
      split
      · rename_i hk
        simp only [reduceCtorEq, false_iff]
        rintro ⟨f, hf, -, hfk⟩
        exact hout (h.key_unique (hsub f hf) hmem (hfk.trans hk) ▸ hf)
      · rename_i hk
        rw [h.bound k i]
        constructor
        · rintro ⟨f, hf, hfi, hfk⟩
          rw [hinit] at hf
          rcases List.mem_append.mp hf with hf | hf
          · exact ⟨f, hf, hfi, hfk⟩
          · rw [List.mem_singleton] at hf
            exact absurd (hfk.symm.trans (congrArg Element.key hf)) hk
        · rintro ⟨f, hf, hfi, hfk⟩
          exact ⟨f, hsub f hf, hfi, hfk⟩

theorem Holds.evictOldest (h : c.Holds P) : c.evictOldest.Holds P := by
  unfold LruCache.evictOldest
  split
  · exact h
  · exact fun f hf => h f (List.mem_of_mem_dropLast hf)

theorem WF.makeRoom (h : c.WF) (fuel : ℕ) : (makeRoom fuel c).WF := by
  induction fuel generalizing c with
  | zero => exact h
  | succ fuel ih =>
    unfold LruCache.makeRoom
    split
    · exact ih h.evictOldest
    · exact h

theorem Holds.makeRoom (h : c.Holds P) (fuel : ℕ) : (makeRoom fuel c).Holds P := by
  induction fuel generalizing c with
  | zero => exact h
  | succ fuel ih =>
    unfold LruCache.makeRoom
    split
    · exact ih h.evictOldest
    · exact h

theorem makeRoom_absent {key : Bytes} (h : c.items.lookup key = none) (fuel : ℕ) :
    (makeRoom fuel c).items.lookup key = none := by
  induction fuel generalizing c with
  | zero => exact h
  | succ fuel ih =>
    unfold LruCache.makeRoom
    split
    · refine ih ?_
      unfold LruCache.evictOldest
      split
      · exact h
      · rw [finmap_lookup_erase, h, ite_self]
    · exact h

theorem WF.put (h : c.WF) (key value : Bytes) : (c.put key value).WF := by
  unfold LruCache.put
  split
  · rename_i id hid
    have hm := h.of_perm (moveToFront_perm h.nodup id)
    have hids : ∀ l : List Element, (l.map fun e => if e.id = id then { e with value := value } else e).map
        Element.id = l.map Element.id := by
      intro l
      rw [List.map_map]
      refine List.map_congr_left fun e _ => ?_
      dsimp only [Function.comp]
      split <;> rfl
    refine ⟨by rw [hids]; exact hm.nodup, ?_, ?_⟩
    · intro f hf
      obtain ⟨e, he, rfl⟩ := List.mem_map.mp hf
      have hlt := hm.fresh e he
      split <;> exact hlt
    · intro k i
      refine (hm.bound k i).trans ?_
      constructor
      · rintro ⟨e, he, hei, hek⟩
        refine ⟨_, List.mem_map_of_mem he, ?_, ?_⟩
        · split <;> exact hei
        · split <;> exact hek
      · rintro ⟨f, hf, hfi, hfk⟩
        obtain ⟨e, he, rfl⟩ := List.mem_map.mp hf
        refine ⟨e, he, ?_, ?_⟩
        · split at hfi <;> exact hfi
        · split at hfk <;> exact hfk
  · rename_i hnone
    have hr := h.makeRoom c.order.length
    have habs := makeRoom_absent hnone c.order.length
    refine ⟨?_, ?_, ?_⟩
    · simp only [List.map_cons, List.nodup_cons]
      refine ⟨?_, hr.nodup⟩
      rw [List.mem_map]
      rintro ⟨e, he, hid⟩
      exact absurd (hr.fresh e he) (by omega)
    · intro f hf
      rcases List.mem_cons.mp hf with rfl | hf
      · exact Nat.lt_succ_self _
      · exact Nat.lt_succ_of_lt (hr.fresh f hf)
    · intro k i
      rw [finmap_lookup_insert]
      simp only [List.mem_cons, exists_eq_or_imp]
      split
      · rename_i hk
        have hout : ¬ ∃ e ∈ (LruCache.makeRoom c.order.length c).order, e.id = i ∧ e.key = k := by
          intro hex
          rw [← hr.bound, hk, habs] at hex
          cases hex
        rw [hk] at hout
        simp only [hk, hout, or_false, Option.some.injEq, and_true]
      · rename_i hk
        rw [hr.bound k i]
        constructor
        · exact .inr
        · rintro (⟨-, h2⟩ | h2)
          · exact absurd h2.symm hk
          · exact h2

theorem Holds.put (h : c.Holds P) (hw : c.WF) {key value : Bytes} (hv : P key value) :
    (c.put key value).Holds P := by
  unfold LruCache.put
  split
  · rename_i id hid
    obtain ⟨e, he, heid, hkey, -⟩ := hw.find hid
    intro f hf
    obtain ⟨g, hg, rfl⟩ := List.mem_map.mp hf
    have hg' := (moveToFront_perm hw.nodup id).mem_iff.mp hg
    split
    · rename_i hgid
      have hge := hw.unique hg' he (hgid.trans heid.symm)
      change P g.key value
      rw [hge, hkey]
      exact hv
    · exact h g hg'
  · intro f hf
    rcases List.mem_cons.mp hf with rfl | hf
    · exact hv
    · exact h.makeRoom _ f hf

end LruCache

end AppendStore
