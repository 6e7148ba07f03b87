import AppendStore.Library.FiniteMap

/-! # Journals: what a sequence of writes and removals leaves

A journal is a list of events, each writing a payload under a key or removing the key. `live` is
what it leaves, in the order of the last write: an event first drops the key, and a write then adds
it at the end. The order is kept because programs scan in it; as a map, `live` is the last writer
wins fold (`Lists`).
-/

namespace AppendStore.Library
set_option autoImplicit false

section
variable {κ β γ : Type} [DecidableEq κ]

/-- A write, or a removal. -/
abbrev Event (κ β : Type) := κ × Option β

/-- One event on what is live. -/
def Event.apply (l : List (κ × β)) (e : Event κ β) : List (κ × β) :=
  l.filter (fun x => x.1 ≠ e.1) ++ (e.2.map fun v => (e.1, v)).toList

/-- What a journal leaves. -/
def live (es : List (Event κ β)) : List (κ × β) := es.foldl Event.apply []

@[simp] theorem live_nil : live ([] : List (Event κ β)) = [] := rfl

theorem live_concat (es : List (Event κ β)) (e : Event κ β) : live (es ++ [e]) = Event.apply (live es) e := by
  simp [live]

theorem mem_apply {l : List (κ × β)} {e : Event κ β} {x : κ × β} :
    x ∈ Event.apply l e ↔ (x ∈ l ∧ x.1 ≠ e.1) ∨ (e.2 = some x.2 ∧ x.1 = e.1) := by
  obtain ⟨k, v⟩ := e
  obtain ⟨y, w⟩ := x
  cases v with
  | none => simp [Event.apply]
  | some v =>
    simp only [Event.apply, List.mem_append, List.mem_filter, decide_eq_true_eq, Option.map_some,
      Option.toList_some, List.mem_singleton, Prod.mk.injEq, Option.some.injEq]
    constructor
    · rintro (h | ⟨rfl, rfl⟩)
      · exact .inl h
      · exact .inr ⟨rfl, rfl⟩
    · rintro (h | ⟨rfl, rfl⟩)
      · exact .inl h
      · exact .inr ⟨rfl, rfl⟩

theorem apply_nodup {l : List (κ × β)} (h : (l.map Prod.fst).Nodup) (e : Event κ β) :
    ((Event.apply l e).map Prod.fst).Nodup := by
  obtain ⟨k, v⟩ := e
  have hfilter : ((l.filter fun x => x.1 ≠ k).map Prod.fst).Nodup :=
    h.sublist ((List.filter_sublist).map _)
  cases v with
  | none => simpa [Event.apply] using hfilter
  | some v =>
    simp only [Event.apply, Option.map_some, Option.toList_some, List.map_append, List.map_cons,
      List.map_nil]
    refine List.Nodup.append hfilter (List.nodup_singleton k) ?_
    simp [List.disjoint_singleton]

theorem live_nodup (es : List (Event κ β)) : ((live es).map Prod.fst).Nodup := by
  induction es using List.reverseRecOn with
  | nil => simp
  | append_singleton es e ih =>
    rw [live_concat]
    exact apply_nodup ih e

/-! ## Payloads can be replaced -/

def Event.map (f : β → γ) (e : Event κ β) : Event κ γ := (e.1, e.2.map f)

theorem apply_map (f : β → γ) (l : List (κ × β)) (e : Event κ β) :
    Event.apply (l.map fun x => (x.1, f x.2)) (e.map f) =
      (Event.apply l e).map fun x => (x.1, f x.2) := by
  obtain ⟨k, v⟩ := e
  have hfilter : (l.map fun x => (x.1, f x.2)).filter (fun x => x.1 ≠ k) =
      (l.filter fun x => x.1 ≠ k).map fun x => (x.1, f x.2) := by
    rw [List.filter_map]
    rfl
  refine (congrArg (· ++ ((v.map f).map fun w => (k, w)).toList) hfilter).trans ?_
  simp only [Event.apply, List.map_append]
  cases v <;> rfl

theorem live_map (f : β → γ) (es : List (Event κ β)) :
    live (es.map (Event.map f)) = (live es).map fun x => (x.1, f x.2) := by
  induction es using List.reverseRecOn with
  | nil => rfl
  | append_singleton es e ih =>
    rw [List.map_append, List.map_singleton, live_concat, live_concat, ih, apply_map]

/-! ## The order of what is live -/

/-- The writes of a journal. -/
def writes (es : List (Event κ β)) : List (κ × β) := es.filterMap fun e => e.2.map fun v => (e.1, v)

theorem live_sublist (es : List (Event κ β)) : (live es).Sublist (writes es) := by
  induction es using List.reverseRecOn with
  | nil => exact List.Sublist.slnil
  | append_singleton es e ih =>
    rw [live_concat, writes, List.filterMap_append]
    refine List.Sublist.append (List.filter_sublist.trans ih) ?_
    cases h : e.2 <;> simp [h]

/-- The writes whose key does not occur later. -/
def finals : List (Event κ β) → List (κ × β)
  | [] => []
  | e :: es => (if e.1 ∈ es.map Prod.fst then [] else (e.2.map fun v => (e.1, v)).toList) ++ finals es

theorem finals_concat (es : List (Event κ β)) (e : Event κ β) : finals (es ++ [e]) = Event.apply (finals es) e := by
  induction es with
  | nil => simp [finals, Event.apply]
  | cons x es ih =>
    have hhead : (if x.1 ∈ (es ++ [e]).map Prod.fst then [] else (x.2.map fun v => (x.1, v)).toList) =
        (if x.1 ∈ es.map Prod.fst then [] else (x.2.map fun v => (x.1, v)).toList).filter fun y => y.1 ≠ e.1 := by
      have hmem : x.1 ∈ (es ++ [e]).map Prod.fst ↔ x.1 ∈ es.map Prod.fst ∨ x.1 = e.1 := by
        rw [List.map_append, List.mem_append, List.map_singleton, List.mem_singleton]
      by_cases hlater : x.1 ∈ es.map Prod.fst
      · rw [if_pos (hmem.mpr (.inl hlater)), if_pos hlater, List.filter_nil]
      · rw [if_neg hlater]
        by_cases hkey : x.1 = e.1
        · rw [if_pos (hmem.mpr (.inr hkey))]
          cases x.2 <;> simp [hkey]
        · rw [if_neg (fun h => (hmem.mp h).elim hlater hkey)]
          cases x.2 <;> simp [hkey]
    rw [List.cons_append, finals, hhead, ih, finals, Event.apply, Event.apply, List.filter_append, List.append_assoc]

theorem live_eq_finals (es : List (Event κ β)) : live es = finals es := by
  induction es using List.reverseRecOn with
  | nil => rfl
  | append_singleton es e ih => rw [live_concat, finals_concat, ih]

/-- Writing what is live once more, in its order, leaves it as it is. -/
theorem live_writes {l : List (κ × β)} (h : (l.map Prod.fst).Nodup) :
    live (l.map fun x => (x.1, some x.2)) = l := by
  induction l using List.reverseRecOn with
  | nil => rfl
  | append_singleton l x ih =>
    rw [List.map_append, List.nodup_append] at h
    obtain ⟨hl, -, hdisj⟩ := h
    have hkeep : l.filter (fun y => y.1 ≠ x.1) = l := by
      rw [List.filter_eq_self]
      intro y hy
      have hne := hdisj y.1 (List.mem_map_of_mem hy) x.1 (by simp)
      simpa using hne
    rw [List.map_append, List.map_singleton, live_concat, ih hl, Event.apply, hkeep]
    rfl

end

/-! ## Looking up a key -/

section
variable {κ β : Type} [BEq κ] [LawfulBEq κ]

theorem lookup_eq_none {l : List (κ × β)} {k : κ} : l.lookup k = none ↔ k ∉ l.map Prod.fst := by
  induction l with
  | nil => simp
  | cons x l ih =>
    rw [List.lookup_cons, List.map_cons, List.mem_cons, not_or]
    by_cases hk : k = x.1
    · simp [hk]
    · rw [beq_false_of_ne hk]
      simp only [hk, not_false_eq_true, true_and]
      exact ih

theorem lookup_eq_some {l : List (κ × β)} (h : (l.map Prod.fst).Nodup) {k : κ} {v : β} :
    l.lookup k = some v ↔ (k, v) ∈ l := by
  induction l with
  | nil => simp
  | cons x l ih =>
    obtain ⟨y, w⟩ := x
    rw [List.map_cons, List.nodup_cons] at h
    rw [List.lookup_cons, List.mem_cons, ← ih h.2]
    by_cases hk : k = y
    · subst hk
      have hout : l.lookup k = none := lookup_eq_none.mpr h.1
      simp [hout, eq_comm]
    · rw [beq_false_of_ne hk]
      simp [hk]

end

/-! ## What is live, as a map -/

section
variable {κ β : Type} [DecidableEq κ]

/-- The list holds exactly the entries of the map. -/
def Lists (m : Finmap fun _ : κ => β) (l : List (κ × β)) : Prop :=
  (l.map Prod.fst).Nodup ∧ ∀ k v, m.lookup k = some v ↔ (k, v) ∈ l

theorem lists_empty : Lists (∅ : Finmap fun _ : κ => β) [] := by
  refine ⟨List.nodup_nil, ?_⟩
  intro k v
  simp

theorem lists_entries (a : AList fun _ : κ => β) : Lists a.toFinmap (a.entries.map fun x => (x.1, x.2)) := by
  refine ⟨?_, ?_⟩
  · rw [List.map_map]
    exact a.nodupKeys
  · intro k v
    rw [Finmap.lookup_toFinmap, AList.lookup, ← Option.mem_def, List.mem_dlookup_iff a.nodupKeys, List.mem_map]
    constructor
    · intro h
      exact ⟨⟨k, v⟩, h, rfl⟩
    · rintro ⟨⟨x, w⟩, h, heq⟩
      cases heq
      exact h

theorem Lists.insert {m : Finmap fun _ : κ => β} {l : List (κ × β)} (h : Lists m l) (k : κ) (v : β) :
    Lists (m.insert k v) (Event.apply l (k, some v)) := by
  refine ⟨apply_nodup h.1 _, ?_⟩
  intro x w
  rw [finmap_lookup_insert, mem_apply]
  by_cases hx : x = k
  · simp [hx]
  · simp [hx, h.2 x w]

theorem Lists.erase {m : Finmap fun _ : κ => β} {l : List (κ × β)} (h : Lists m l) (k : κ) :
    Lists (m.erase k) (Event.apply l (k, none)) := by
  refine ⟨apply_nodup h.1 _, ?_⟩
  intro x w
  rw [finmap_lookup_erase, mem_apply]
  by_cases hx : x = k
  · simp [hx]
  · simp [hx, h.2 x w]

theorem Lists.lookup_none {m : Finmap fun _ : κ => β} {l : List (κ × β)} (h : Lists m l) (k : κ) :
    m.lookup k = none ↔ k ∉ l.map Prod.fst := by
  rw [← not_iff_not, not_not, ← ne_eq, Option.ne_none_iff_exists', List.mem_map]
  constructor
  · rintro ⟨v, hv⟩
    exact ⟨(k, v), (h.2 k v).mp hv, rfl⟩
  · rintro ⟨⟨x, v⟩, hx, rfl⟩
    exact ⟨v, (h.2 x v).mpr hx⟩

theorem Lists.keys {m : Finmap fun _ : κ => β} {l : List (κ × β)} (h : Lists m l) :
    m.keys.val = (l.map Prod.fst : Multiset κ) := by
  refine Multiset.Nodup.ext m.keys.nodup (Multiset.coe_nodup.mpr h.1) |>.mpr ?_
  intro k
  have hk := h.lookup_none k
  rw [← Finset.mem_def, Finmap.mem_keys, Multiset.mem_coe, ← Finmap.lookup_isSome, Option.isSome_iff_ne_none]
  rw [ne_eq, hk, not_not]

theorem Lists.card {m : Finmap fun _ : κ => β} {l : List (κ × β)} (h : Lists m l) :
    m.keys.card = l.length := by
  rw [Finset.card, h.keys, Multiset.coe_card, List.length_map]

/-- Two lists of one map are rearrangements of one another. -/
theorem Lists.perm {m : Finmap fun _ : κ => β} {l l' : List (κ × β)} (h : Lists m l) (h' : Lists m l') :
    l.Perm l' := by
  refine (List.perm_ext_iff_of_nodup h.1.of_map h'.1.of_map).mpr ?_
  intro x
  rw [← h.2 x.1 x.2, ← h'.2 x.1 x.2]

end

end AppendStore.Library
