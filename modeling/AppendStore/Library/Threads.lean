import Mathlib

/-! # Threads over a shared state

A system of threads is one step function: a thread in a local state, over the shared state, either
takes its next step or cannot move. An interleaving is the list of the threads in the order in which
they move (`runs`). A schedule `Obeys` a guard when every move of it is made from a state in which the
guard allows it; what every allowed move keeps holds after every schedule that obeys
(`runs_invariant`).

A lock with shared and exclusive holders is part of the shared state. `Held` says that its holders are
the threads that are in the sections it protects.
-/

namespace AppendStore.Library
set_option autoImplicit false

/-- The shared state, and where each thread is. -/
structure Threads (ι σ τ : Type) where
  shared : σ
  loc : ι → τ

section
variable {ι σ τ : Type} [DecidableEq ι]

/-- One move of a thread. -/
def move (step : ι → σ → τ → Option (σ × τ)) (c : Threads ι σ τ) (i : ι) : Option (Threads ι σ τ) :=
  (step i c.shared (c.loc i)).map fun r => ⟨r.1, Function.update c.loc i r.2⟩

/-- The moves of a schedule, one after the other. -/
def runs (step : ι → σ → τ → Option (σ × τ)) : Threads ι σ τ → List ι → Option (Threads ι σ τ)
  | c, [] => some c
  | c, i :: is => (move step c i).bind fun c' => runs step c' is

/-- Every move of the schedule is allowed in the state in which it is made. -/
def Obeys (allowed : Threads ι σ τ → ι → Prop) (step : ι → σ → τ → Option (σ × τ)) :
    Threads ι σ τ → List ι → Prop
  | _, [] => True
  | c, i :: is => allowed c i ∧ ∀ c', move step c i = some c' → Obeys allowed step c' is

variable {step : ι → σ → τ → Option (σ × τ)} {allowed : Threads ι σ τ → ι → Prop} {c c' : Threads ι σ τ}

instance Obeys.decidable [∀ c i, Decidable (allowed c i)] : (c : Threads ι σ τ) → (is : List ι) →
    Decidable (Obeys allowed step c is)
  | _, [] => isTrue trivial
  | c, i :: is =>
    match hmove : move step c i with
    | none => decidable_of_iff (allowed c i) ⟨fun h => ⟨h, fun _ hc => nomatch hmove.symm.trans hc⟩, And.left⟩
    | some next =>
      have := Obeys.decidable next is
      decidable_of_iff (allowed c i ∧ Obeys allowed step next is)
        ⟨fun h => ⟨h.1, fun _ hc => Option.some.inj (hmove.symm.trans hc) ▸ h.2⟩, fun h => ⟨h.1, h.2 next hmove⟩⟩

theorem obeys_of_forall (hall : ∀ c i, allowed c i) (is : List ι) : Obeys allowed step c is := by
  induction is generalizing c with
  | nil => trivial
  | cons i is ih => exact ⟨hall c i, fun c' _ => ih⟩

/-- Thread `i` has come to `t`, with the shared state `s`; the other threads are where they were. -/
structure Moved (c c' : Threads ι σ τ) (i : ι) (s : σ) (t : τ) : Prop where
  shared : c'.shared = s
  loc : c'.loc i = t
  others : ∀ j, j ≠ i → c'.loc j = c.loc j

theorem move_cases {i : ι} (h : move step c i = some c') :
    ∃ s t, step i c.shared (c.loc i) = some (s, t) ∧ Moved c c' i s t := by
  obtain ⟨⟨s, t⟩, hstep, rfl⟩ := Option.map_eq_some_iff.mp h
  exact ⟨s, t, hstep, rfl, Function.update_self .., fun j hj => Function.update_of_ne hj ..⟩

theorem move_of_moved {i : ι} {s : σ} {t : τ} (hstep : step i c.shared (c.loc i) = some (s, t))
    (hm : Moved c c' i s t) : move step c i = some c' := by
  obtain ⟨hshared, hloc, hothers⟩ := hm
  have hupdate : Function.update c.loc i t = c'.loc := by
    funext j
    by_cases hj : j = i
    · rw [hj, Function.update_self, hloc]
    · rw [Function.update_of_ne hj, hothers j hj]
  rw [move, hstep, Option.map_some, hupdate, ← hshared]

/-- **What every allowed move keeps holds after every schedule that obeys.** -/
theorem runs_invariant {I : Threads ι σ τ → Prop}
    (hstep : ∀ c i c', I c → allowed c i → move step c i = some c' → I c') {is : List ι} (h : I c)
    (hobeys : Obeys allowed step c is) (hruns : runs step c is = some c') : I c' := by
  induction is generalizing c with
  | nil =>
    cases hruns
    exact h
  | cons i is ih =>
    obtain ⟨d, hmove, hrest⟩ := Option.bind_eq_some_iff.mp hruns
    exact ih (hstep c i d h hobeys.1 hmove) (hobeys.2 d hmove) hrest

/-- What every move keeps holds after every schedule. -/
theorem runs_keeps {I : Threads ι σ τ → Prop} (hstep : ∀ c i c', I c → move step c i = some c' → I c')
    {is : List ι} (h : I c) (hruns : runs step c is = some c') : I c' := by
  have hobeys : Obeys (fun _ _ => True) step c is := obeys_of_forall (fun _ _ => trivial) is
  exact runs_invariant (fun c i c' hc _ => hstep c i c' hc) h hobeys hruns

theorem runs_append (c : Threads ι σ τ) (is js : List ι) :
    runs step c (is ++ js) = (runs step c is).bind fun c' => runs step c' js := by
  induction is generalizing c with
  | nil => rfl
  | cons i is ih =>
    rw [List.cons_append, runs, runs, Option.bind_assoc]
    exact congrArg (Option.bind (move step c i)) (funext ih)

/-- `Alone step c i s t`: moving alone from `c`, thread `i` comes to `t` with the shared state `s`. -/
def Alone (step : ι → σ → τ → Option (σ × τ)) (c : Threads ι σ τ) (i : ι) (s : σ) (t : τ) : Prop :=
  ∃ n, runs step c (List.replicate n i) = some ⟨s, Function.update c.loc i t⟩

theorem alone_refl (step : ι → σ → τ → Option (σ × τ)) (c : Threads ι σ τ) (i : ι) :
    Alone step c i c.shared (c.loc i) :=
  ⟨0, by rw [Function.update_eq_self]; rfl⟩

theorem Alone.next {i : ι} {s s' : σ} {t t' : τ} (h : Alone step c i s t) (hstep : step i s t = some (s', t')) :
    Alone step c i s' t' := by
  obtain ⟨n, hn⟩ := h
  refine ⟨n + 1, ?_⟩
  rw [List.replicate_succ', runs_append, hn, Option.bind_some, runs, move]
  simp only [Function.update_self, hstep, Option.map_some, Option.bind_some, Function.update_idem]
  rfl

/-- The state a thread has come to alone, and its next move there. -/
theorem Alone.moves {i : ι} {s s' : σ} {t t' : τ} (h : Alone step c i s t) (hstep : step i s t = some (s', t')) :
    ∃ is c' c'', runs step c is = some c' ∧ c'.shared = s ∧ move step c' i = some c'' ∧ c''.shared = s' := by
  obtain ⟨n, hn⟩ := h
  refine ⟨_, _, ⟨s', Function.update (Function.update c.loc i t) i t'⟩, hn, rfl, ?_, rfl⟩
  simp only [move, Function.update_self, hstep, Option.map_some]

theorem runs_trans {c c' c'' : Threads ι σ τ} {is js : List ι} (h : runs step c is = some c')
    (h' : runs step c' js = some c'') : runs step c (is ++ js) = some c'' := by
  rw [runs_append, h, Option.bind_some, h']

/-! ## Termination -/

/-- One thread has gone down, and the others are where they were. -/
def OneDown (R : τ → τ → Prop) (f g : ι → τ) : Prop := ∃ i, R (f i) (g i) ∧ ∀ j, j ≠ i → f j = g j

omit [DecidableEq ι] in
/-- Finitely many threads that only go down come to an end, in whatever order they move. -/
theorem wellFounded_oneDown [Finite ι] {R : τ → τ → Prop} (hR : WellFounded R) :
    WellFounded fun f g : ι → τ => OneDown R f g := by
  refine Subrelation.wf ?_ (Pi.Lex.wellFounded (WellOrderingRel : ι → ι → Prop) fun _ => hR)
  rintro f g ⟨i, hi, hothers⟩
  exact ⟨i, fun j hj => hothers j fun heq => irrefl_of WellOrderingRel i (heq ▸ hj), hi⟩

/-! ## Locks -/

/-- Who holds a lock, as readers or as the writer. -/
structure RWMutex (ι : Type) where
  readers : Finset ι
  writer : Option ι

namespace RWMutex

def free : RWMutex ι := ⟨∅, none⟩

def rLock (m : RWMutex ι) (i : ι) : Option (RWMutex ι) :=
  if m.writer = none then some { m with readers := insert i m.readers } else none

def rUnlock (m : RWMutex ι) (i : ι) : RWMutex ι := { m with readers := m.readers.erase i }

def lock (m : RWMutex ι) (i : ι) : Option (RWMutex ι) :=
  if m.writer = none ∧ m.readers = ∅ then some { m with writer := some i } else none

def unlock (m : RWMutex ι) : RWMutex ι := { m with writer := none }

end RWMutex

theorem rLock_writer {m m' : RWMutex ι} {i : ι} (h : m.rLock i = some m') : m.writer = none := by
  unfold RWMutex.rLock at h
  split at h
  · assumption
  · cases h

theorem lock_writer {m m' : RWMutex ι} {i : ι} (h : m.lock i = some m') : m.writer = none := by
  unfold RWMutex.lock at h
  split at h
  · rename_i hfree
    exact hfree.1
  · cases h

/-- The readers and the writer of the lock are the threads in a reading and in a writing section. -/
structure Held (reading writing : τ → Prop) (m : RWMutex ι) (c : Threads ι σ τ) : Prop where
  readers : ∀ i, i ∈ m.readers ↔ reading (c.loc i)
  writer : ∀ i, m.writer = some i ↔ writing (c.loc i)
  exclusive : ∀ i, m.writer = some i → m.readers = ∅

section
variable {reading writing : τ → Prop} {m m' : RWMutex ι} {i : ι} {s : σ} {t : τ}

omit [DecidableEq ι] in
theorem Held.no_writer (h : Held reading writing m c) (hi : reading (c.loc i)) : m.writer = none := by
  by_contra hne
  obtain ⟨j, hj⟩ := Option.ne_none_iff_exists'.mp hne
  have hmem := (h.readers i).mpr hi
  rw [h.exclusive j hj] at hmem
  exact Finset.notMem_empty i hmem

omit [DecidableEq ι] in
theorem Held.no_reader (h : Held reading writing m c) (hi : writing (c.loc i)) (j : ι) : ¬ reading (c.loc j) := by
  intro hj
  have hnone := h.no_writer hj
  rw [(h.writer i).mpr hi] at hnone
  cases hnone

omit [DecidableEq ι] in
theorem Held.one_writer (h : Held reading writing m c) (hi : writing (c.loc i)) {j : ι} (hj : writing (c.loc j)) :
    j = i :=
  Option.some.inj (((h.writer j).mpr hj).symm.trans ((h.writer i).mpr hi))

variable (hm : Moved c c' i s t)
include hm

/-- A step inside a section, or outside of all. -/
theorem Held.stay (h : Held reading writing m c) (hr : reading t ↔ reading (c.loc i))
    (hw : writing t ↔ writing (c.loc i)) : Held reading writing m c' := by
  refine ⟨fun j => ?_, fun j => ?_, h.exclusive⟩
  · by_cases hj : j = i
    · rw [hj, h.readers, hm.loc, hr]
    · rw [hm.others j hj, h.readers]
  · by_cases hj : j = i
    · rw [hj, h.writer, hm.loc, hw]
    · rw [hm.others j hj, h.writer]

theorem Held.rLock (h : Held reading writing m c) (hlock : m.rLock i = some m') (hr : reading t)
    (hw : ¬ writing t) : Held reading writing m' c' := by
  unfold RWMutex.rLock at hlock
  split at hlock
  · rename_i hnone
    cases hlock
    refine ⟨fun j => ?_, fun j => ?_, fun j hj => ?_⟩
    · rw [Finset.mem_insert, h.readers]
      by_cases hj : j = i
      · simp [hj, hm.loc, hr]
      · simp [hj, hm.others j hj]
    · by_cases hj : j = i
      · simp [hj, hm.loc, hw, hnone]
      · rw [hm.others j hj]
        exact h.writer j
    · rw [hnone] at hj
      cases hj
  · cases hlock

theorem Held.rUnlock (h : Held reading writing m c) (hi : reading (c.loc i)) (hr : ¬ reading t)
    (hw : ¬ writing t) : Held reading writing (m.rUnlock i) c' := by
  have hnone := h.no_writer hi
  refine ⟨fun j => ?_, fun j => ?_, fun j hj => ?_⟩
  · rw [RWMutex.rUnlock, Finset.mem_erase, h.readers]
    by_cases hj : j = i
    · simp [hj, hm.loc, hr]
    · simp [hj, hm.others j hj]
  · by_cases hj : j = i
    · simp [RWMutex.rUnlock, hj, hm.loc, hw, hnone]
    · rw [hm.others j hj]
      exact h.writer j
  · rw [RWMutex.rUnlock, hnone] at hj
    cases hj

theorem Held.lock (h : Held reading writing m c) (hlock : m.lock i = some m') (hr : ¬ reading t)
    (hw : writing t) : Held reading writing m' c' := by
  unfold RWMutex.lock at hlock
  split at hlock
  · rename_i hfree
    obtain ⟨hnone, hempty⟩ := hfree
    cases hlock
    refine ⟨fun j => ?_, fun j => ?_, fun j _ => hempty⟩
    · by_cases hj : j = i
      · simp [hj, hm.loc, hr, hempty]
      · rw [hm.others j hj]
        exact h.readers j
    · by_cases hj : j = i
      · simp [hj, hm.loc, hw]
      · have hnot := h.writer j
        rw [hnone] at hnot
        simp only [Option.some.injEq, hm.others j hj, ← hnot]
        exact ⟨fun heq => absurd heq.symm hj, fun heq => absurd heq (Option.some_ne_none j).symm⟩
  · cases hlock

theorem Held.unlock (h : Held reading writing m c) (hi : writing (c.loc i)) (hr : ¬ reading t)
    (hw : ¬ writing t) : Held reading writing m.unlock c' := by
  refine ⟨fun j => ?_, fun j => ?_, fun j hj => absurd hj (Option.some_ne_none j).symm⟩
  · by_cases hj : j = i
    · refine ⟨fun hmem => absurd ((h.readers i).mp (hj ▸ hmem)) (h.no_reader hi i), fun hmem => ?_⟩
      rw [hj, hm.loc] at hmem
      exact absurd hmem hr
    · rw [hm.others j hj]
      exact h.readers j
  · refine ⟨fun heq => absurd heq (Option.some_ne_none j).symm, fun hj => ?_⟩
    by_cases hji : j = i
    · rw [hji, hm.loc] at hj
      exact absurd hj hw
    · rw [hm.others j hji] at hj
      exact absurd (h.one_writer hi hj) hji

end

end

end AppendStore.Library
