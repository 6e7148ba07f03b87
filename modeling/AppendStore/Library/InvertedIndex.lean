import AppendStore.Library.FiniteMap

/-! # Inverted indexes

A map from values to the sets of keys that carry them inverts a relation when its sets hold exactly
the pairs of the relation and none of them is empty. Adding a pair and removing one keep that.
-/

namespace AppendStore.Library
set_option autoImplicit false

section
variable {ν κ : Type} [DecidableEq ν] [DecidableEq κ]

structure Inverts (values : Finmap fun _ : ν => Finset κ) (carries : ν → κ → Prop) : Prop where
  mem : ∀ v k, k ∈ (values.lookup v).getD ∅ ↔ carries v k
  nonempty : ∀ v keys, values.lookup v = some keys → keys.Nonempty

def addPair (values : Finmap fun _ : ν => Finset κ) (v : ν) (k : κ) : Finmap fun _ : ν => Finset κ :=
  values.insert v (insert k ((values.lookup v).getD ∅))

/-- A value whose last key goes is dropped. -/
def removePair (values : Finmap fun _ : ν => Finset κ) (v : ν) (k : κ) : Finmap fun _ : ν => Finset κ :=
  let keys := ((values.lookup v).getD ∅).erase k
  if keys.card = 0 then values.erase v else values.insert v keys

omit [DecidableEq κ] in
theorem inverts_empty : Inverts (∅ : Finmap fun _ : ν => Finset κ) fun _ _ => False :=
  ⟨fun v k => by simp, fun v keys h => by simp at h⟩

theorem lookup_removePair (values : Finmap fun _ : ν => Finset κ) (v x : ν) (k : κ) :
    (removePair values v k).lookup x =
      if x = v then
        if (((values.lookup v).getD ∅).erase k).card = 0 then none else some (((values.lookup v).getD ∅).erase k)
      else values.lookup x := by
  unfold removePair
  dsimp only
  split
  · rw [finmap_lookup_erase]
  · rw [finmap_lookup_insert]

variable {values : Finmap fun _ : ν => Finset κ} {carries : ν → κ → Prop}

omit [DecidableEq κ] in
theorem Inverts.congr {carries' : ν → κ → Prop} (h : Inverts values carries)
    (heq : ∀ v k, carries v k ↔ carries' v k) : Inverts values carries' :=
  ⟨fun v k => (h.mem v k).trans (heq v k), h.nonempty⟩

theorem Inverts.add (h : Inverts values carries) (v : ν) (k : κ) :
    Inverts (addPair values v k) fun v' k' => (v' = v ∧ k' = k) ∨ carries v' k' := by
  refine ⟨?_, ?_⟩
  · intro v' k'
    rw [addPair, finmap_lookup_insert, ← h.mem v' k']
    by_cases hv : v' = v
    · subst hv
      simp
    · simp [hv]
  · intro v' keys hkeys
    rw [addPair, finmap_lookup_insert] at hkeys
    split at hkeys
    · cases hkeys
      exact Finset.insert_nonempty _ _
    · exact h.nonempty v' keys hkeys

theorem Inverts.remove (h : Inverts values carries) (v : ν) (k : κ) :
    Inverts (removePair values v k) fun v' k' => carries v' k' ∧ ¬ (v' = v ∧ k' = k) := by
  refine ⟨?_, ?_⟩
  · intro v' k'
    rw [lookup_removePair, ← h.mem v' k']
    by_cases hv : v' = v
    · subst hv
      rw [if_pos rfl]
      split
      · rename_i hcard
        have hmem : k' ∉ ((values.lookup v').getD ∅).erase k := by
          rw [Finset.card_eq_zero.mp hcard]
          exact Finset.notMem_empty k'
        rw [Finset.mem_erase] at hmem
        simp only [Option.getD_none, Finset.notMem_empty, true_and, false_iff]
        tauto
      · simp only [Option.getD_some, Finset.mem_erase, true_and]
        tauto
    · simp [hv]
  · intro v' keys hkeys
    rw [lookup_removePair] at hkeys
    split at hkeys
    · split at hkeys
      · cases hkeys
      · rename_i hcard
        cases hkeys
        exact Finset.card_ne_zero.mp hcard
    · exact h.nonempty v' keys hkeys

omit [DecidableEq κ] in
/-- The values of an inverted index are the ones that some key carries. -/
theorem Inverts.keys (h : Inverts values carries) (v : ν) : v ∈ values ↔ ∃ k, carries v k := by
  rw [← Finmap.lookup_isSome]
  constructor
  · intro hv
    obtain ⟨keys, hkeys⟩ := Option.isSome_iff_exists.mp hv
    obtain ⟨k, hk⟩ := h.nonempty v keys hkeys
    exact ⟨k, (h.mem v k).mp (by rw [hkeys]; exact hk)⟩
  · rintro ⟨k, hk⟩
    have hmem := (h.mem v k).mpr hk
    cases hlookup : values.lookup v with
    | none =>
      rw [hlookup] at hmem
      exact absurd hmem (Finset.notMem_empty k)
    | some keys => rfl

end

end AppendStore.Library
