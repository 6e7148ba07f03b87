import Mathlib

/-! # Finite maps and the orders in which they are enumerated

A finite map is a `Finmap`. A program that ranges over a map sees its entries in some order: that
is an `AList`, a map together with one order of its entries. `enumerate` is the order by increasing
key, so that a function of an enumeration can be applied to a bare map; a sort by an injective
measure gives the same list from every enumeration (`insertionSort_eq_of_perm`).
-/

namespace AppendStore.Library
set_option autoImplicit false

section Sorting
variable {α : Type} (r : α → α → Prop) [DecidableRel r] [Std.Total r] [IsTrans α r]

/-- A sort does not see the order of its input where the order relation separates the elements. -/
theorem insertionSort_eq_of_perm {l m : List α} (h : l.Perm m)
    (hsep : ∀ a ∈ l, ∀ b ∈ l, r a b → r b a → a = b) : l.insertionSort r = m.insertionSort r := by
  have hl := List.pairwise_insertionSort r l
  have hm := List.pairwise_insertionSort r m
  refine List.Perm.eq_of_pairwise ?_ hl hm ?_
  · intro a b ha hb hab hba
    have ha' : a ∈ l := (List.mem_insertionSort r).mp ha
    have hb' : b ∈ l := h.mem_iff.mpr ((List.mem_insertionSort r).mp hb)
    exact hsep a ha' b hb' hab hba
  · exact (List.perm_insertionSort r l).trans (h.trans (List.perm_insertionSort r m).symm)

/-- A list that is already in order is its own sort. -/
theorem insertionSort_eq_of_pairwise {l m : List α} (h : l.Perm m) (hm : m.Pairwise r)
    (hsep : ∀ a ∈ l, ∀ b ∈ l, r a b → r b a → a = b) : l.insertionSort r = m := by
  rw [insertionSort_eq_of_perm r h hsep]
  exact List.Pairwise.insertionSort_eq hm

end Sorting

section Enumeration
variable {α β : Type} [LE α] [DecidableLE α] [DecidableEq α] [Std.IsLinearOrder α]

/-- The order of entries by key. -/
def keyLE (x y : (_ : α) × β) : Prop := x.1 ≤ y.1

instance : DecidableRel (keyLE (α := α) (β := β)) := fun x y => inferInstanceAs (Decidable (x.1 ≤ y.1))

instance : Std.Total (keyLE (α := α) (β := β)) := ⟨fun _ _ => Std.le_total⟩

instance : IsTrans ((_ : α) × β) keyLE := ⟨fun _ _ _ => Std.le_trans⟩

omit [DecidableLE α] [DecidableEq α] in
/-- Entries of one map with the same key are the same entry. -/
theorem keyLE_separates (a : AList fun _ : α => β) :
    ∀ x ∈ a.entries, ∀ y ∈ a.entries, keyLE x y → keyLE y x → x = y := by
  intro x hx y hy hxy hyx
  exact a.nodupKeys.eq_of_fst_eq hx hy (Std.le_antisymm hxy hyx)

/-- The entries of an enumeration in the order of their keys. -/
def sortEntries (a : AList fun _ : α => β) : AList fun _ : α => β :=
  ⟨a.entries.insertionSort keyLE,
    (List.perm_nodupKeys (List.perm_insertionSort keyLE a.entries)).mpr a.nodupKeys⟩

/-- The enumeration of a map by increasing key. -/
def enumerate (m : Finmap fun _ : α => β) : AList fun _ : α => β :=
  m.liftOn sortEntries fun a _ h => by
    apply AList.ext
    exact insertionSort_eq_of_perm keyLE h (keyLE_separates a)

omit [DecidableEq α] in
@[simp] theorem enumerate_toFinmap (m : Finmap fun _ : α => β) : (enumerate m).toFinmap = m := by
  induction m using Finmap.induction_on with
  | H a =>
    rw [enumerate, Finmap.liftOn_toFinmap]
    exact AList.toFinmap_eq.mpr (List.perm_insertionSort keyLE a.entries)

omit [DecidableEq α] in
/-- Every enumeration of a map is a rearrangement of the canonical one. -/
theorem enumerate_perm (a : AList fun _ : α => β) :
    (enumerate a.toFinmap).entries.Perm a.entries :=
  AList.toFinmap_eq.mp (enumerate_toFinmap _)

omit [DecidableEq α] in
/-- Sorting forgets the order in which a map was enumerated. -/
theorem sortEntries_eq_enumerate (a : AList fun _ : α => β) : sortEntries a = enumerate a.toFinmap := by
  rw [enumerate, Finmap.liftOn_toFinmap]

end Enumeration

/-! ## Sizes -/

section
variable {α β : Type} [DecidableEq α]

theorem finmap_lookup_insert (m : Finmap fun _ : α => β) (k x : α) (v : β) :
    (m.insert k v).lookup x = if x = k then some v else m.lookup x := by
  split
  · rename_i h
    subst h
    exact Finmap.lookup_insert m
  · rename_i h
    exact Finmap.lookup_insert_of_ne m h

theorem finmap_lookup_erase (m : Finmap fun _ : α => β) (k x : α) :
    (m.erase k).lookup x = if x = k then none else m.lookup x := by
  split
  · rename_i h
    subst h
    exact Finmap.lookup_erase x m
  · rename_i h
    exact Finmap.lookup_erase_ne h

/-- A loop over different keys that changes the value at each of them. -/
theorem foldl_lookup {step : (Finmap fun _ : α => β) → α → Finmap fun _ : α => β} {g : α → β → β}
    (hstep : ∀ m k x, (step m k).lookup x = if x = k then (m.lookup k).map (g k) else m.lookup x)
    {ks : List α} (hnodup : ks.Nodup) (m : Finmap fun _ : α => β) (x : α) :
    (ks.foldl step m).lookup x = if x ∈ ks then (m.lookup x).map (g x) else m.lookup x := by
  induction ks generalizing m with
  | nil => simp
  | cons k ks ih =>
    obtain ⟨hk, hnodup⟩ := List.nodup_cons.mp hnodup
    rw [List.foldl_cons, ih hnodup, hstep]
    by_cases hx : x = k
    · subst hx
      simp [hk]
    · simp [hx]

omit [DecidableEq α] in
/-- The number of entries of an enumeration is the number of keys of the map. -/
theorem keys_card_toFinmap (a : AList fun _ : α => β) : a.toFinmap.keys.card = a.entries.length := by
  have h : a.toFinmap.keys.val = (a.keys : Multiset α) := Finmap.keys_val a
  rw [Finset.card, h, Multiset.coe_card, AList.keys, List.keys, List.length_map]

end

end AppendStore.Library
