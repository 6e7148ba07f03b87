import AppendStore.Library.Machine

/-! # Recency lists

A bounded cache in its plainest form: one list of pairs, the most recently used first. A hit or a new value moves
its key to the front, and the last pair is dropped when a new key arrives at a full list. The keys stand in the
order of their last use (`answers_ordered`), where the uses are read off the calls and their answers.
-/

namespace AppendStore.Library
set_option autoImplicit false

inductive CacheCall (κ ν : Type) where
  | get (key : κ)
  | put (key : κ) (value : ν)
  | remove (key : κ)
  | clear
  deriving DecidableEq, Repr

namespace Recency
variable {κ ν : Type} [DecidableEq κ]

def without (key : κ) (l : List (κ × ν)) : List (κ × ν) := l.filter fun p => p.1 ≠ key

/-- Only `get` has an answer. -/
def step (capacity : ℕ) (l : List (κ × ν)) : CacheCall κ ν → Option ν × List (κ × ν)
  | .get key =>
    match l.find? fun p => p.1 = key with
    | none => (none, l)
    | some p => (some p.2, p :: without key l)
  | .put key value =>
    if key ∈ l.map Prod.fst then (none, (key, value) :: without key l)
    else if l.length = capacity then (none, (key, value) :: l.dropLast)
    else (none, (key, value) :: l)
  | .remove key => (none, without key l)
  | .clear => (none, [])

omit [DecidableEq κ] in
/-- The key that a call with that answer uses: a hit or a put. -/
def used : CacheCall κ ν → Option ν → List κ
  | .get key, some _ => [key]
  | .put key _, _ => [key]
  | _, _ => []

omit [DecidableEq κ] in
/-- The keys used by a run, the latest use first. -/
def uses (calls : List (CacheCall κ ν)) (replies : List (Option ν)) : List κ :=
  (List.zipWith used calls replies).flatten.reverse

/-- The keys have been used, each one later than those after it. -/
structure Ordered (history keys : List κ) : Prop where
  mem : ∀ k ∈ keys, k ∈ history
  later : keys.Pairwise fun a b => history.idxOf a < history.idxOf b

/-! ## The order of last use -/

section
variable {history keys : List κ} {key : κ}

theorem Ordered.sublist (h : Ordered history keys) {keys' : List κ} (hs : keys'.Sublist keys) :
    Ordered history keys' :=
  ⟨fun k hk => h.mem k (hs.subset hk), h.later.sublist hs⟩

theorem Ordered.nodup (h : Ordered history keys) : keys.Nodup := by
  refine h.later.imp ?_
  rintro a b hlt rfl
  exact Nat.lt_irrefl _ hlt

/-- A use puts its key before all others. -/
theorem Ordered.use (h : Ordered history keys) (hkey : key ∉ keys) : Ordered (key :: history) (key :: keys) := by
  have hne : ∀ k ∈ keys, key ≠ k := fun k hk heq => hkey (heq ▸ hk)
  refine ⟨?_, List.pairwise_cons.mpr ⟨?_, ?_⟩⟩
  · intro k hk
    rcases List.mem_cons.mp hk with rfl | hk
    · exact List.mem_cons_self
    · exact List.mem_cons_of_mem _ (h.mem k hk)
  · intro k hk
    rw [List.idxOf_cons_self, List.idxOf_cons_ne _ (hne k hk)]
    exact Nat.succ_pos _
  · refine h.later.imp_of_mem ?_
    intro a b ha hb hlt
    rw [List.idxOf_cons_ne _ (hne a ha), List.idxOf_cons_ne _ (hne b hb)]
    exact Nat.succ_lt_succ hlt

end

section
variable {history : List κ} {l : List (κ × ν)} {key : κ} {capacity : ℕ}

theorem keys_without (key : κ) (l : List (κ × ν)) :
    (without key l).map Prod.fst = (l.map Prod.fst).filter fun k => k ≠ key := by
  rw [without, List.filter_map]
  rfl

theorem notMem_without (key : κ) (l : List (κ × ν)) : key ∉ (without key l).map Prod.fst := by
  rw [keys_without, List.mem_filter]
  simp

theorem without_sublist (key : κ) (l : List (κ × ν)) :
    ((without key l).map Prod.fst).Sublist (l.map Prod.fst) :=
  List.filter_sublist.map _

theorem without_length_lt (h : key ∈ l.map Prod.fst) : (without key l).length < l.length := by
  obtain ⟨p, hp, hkey⟩ := List.mem_map.mp h
  refine lt_of_le_of_ne (List.length_filter_le _ _) fun heq => ?_
  have hall := List.length_filter_eq_length_iff.mp heq p hp
  simp [hkey] at hall

theorem find_key {p : κ × ν} (h : (l.find? fun p => p.1 = key) = some p) : p.1 = key ∧ key ∈ l.map Prod.fst := by
  have hkey : p.1 = key := by simpa using List.find?_some h
  exact ⟨hkey, List.mem_map.mpr ⟨p, List.mem_of_find?_eq_some h, hkey⟩⟩

theorem step_ordered (h : Ordered history (l.map Prod.fst)) (call : CacheCall κ ν) :
    Ordered (used call (step capacity l call).1 ++ history) ((step capacity l call).2.map Prod.fst) := by
  cases call with
  | get key =>
    dsimp only [step]
    split
    · exact h
    · rename_i p hp
      obtain ⟨rfl, -⟩ := find_key hp
      exact (h.sublist (without_sublist _ l)).use (notMem_without _ l)
  | put key value =>
    dsimp only [step]
    split
    · exact (h.sublist (without_sublist key l)).use (notMem_without key l)
    · rename_i hnew
      split
      · have hs : (l.dropLast.map Prod.fst).Sublist (l.map Prod.fst) := (List.dropLast_sublist l).map _
        exact (h.sublist hs).use fun hin => hnew (hs.subset hin)
      · exact h.use hnew
  | remove key => exact h.sublist (without_sublist key l)
  | clear => exact h.sublist (List.nil_sublist _)

theorem step_length (hcap : 1 ≤ capacity) (h : l.length ≤ capacity) (call : CacheCall κ ν) :
    (step capacity l call).2.length ≤ capacity := by
  cases call with
  | get key =>
    dsimp only [step]
    split
    · exact h
    · rename_i p hp
      have hlt := without_length_lt (find_key hp).2
      rw [List.length_cons]
      omega
  | put key value =>
    dsimp only [step]
    split
    · rename_i hold
      have hlt := without_length_lt hold
      rw [List.length_cons]
      omega
    · split
      · rw [List.length_cons, List.length_dropLast]
        omega
      · rw [List.length_cons]
        omega
  | remove key => exact (List.length_filter_le _ _).trans h
  | clear => exact Nat.zero_le _

omit [DecidableEq κ] in
theorem uses_cons (call : CacheCall κ ν) (calls : List (CacheCall κ ν)) (reply : Option ν)
    (replies : List (Option ν)) :
    uses (call :: calls) (reply :: replies) = uses calls replies ++ used call reply := by
  have hused : (used call reply).reverse = used call reply := by
    cases call <;> cases reply <;> rfl
  rw [uses, List.zipWith_cons_cons, List.flatten_cons, List.reverse_append, hused]
  rfl

/-- **The list is in the order of last use**, after every run. -/
theorem answers_ordered (calls : List (CacheCall κ ν)) (h : Ordered history (l.map Prod.fst)) :
    Ordered (uses calls (answers (step capacity) l calls) ++ history)
      ((final (step capacity) l calls).map Prod.fst) := by
  induction calls generalizing l history with
  | nil => exact h
  | cons call calls ih =>
    rw [answers, final, uses_cons, List.append_assoc]
    exact ih (step_ordered h call)

end

end Recency

end AppendStore.Library
