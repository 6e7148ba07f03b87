import Mathlib

/-! # Histories of concurrent calls

A history lists the invocations and the responses of the calls that several threads make on one object,
in the order in which they happen. It is linearizable if every call that has returned can be given an
instant between its invocation and its response, such that the calls, taken to happen at these instants,
are a run of a sequential object. A call that has not returned may have been given such an instant or not.

A linearization is the history with the instants put in (`effect`). `Track` is what the marks of one
thread must be: an invocation, then the effect of that call, then the response with its answer. Since an
effect lies between the invocation and the response of its call, two calls of which one returned before
the other was invoked take effect in that order.

`Linearized` is the linearization of a history that is still growing; its three rules are the three kinds of
marks.
-/

namespace AppendStore.Library
set_option autoImplicit false

/-- What happens to the calls `o : ω` of threads `i : ι`, with answers in `α`. -/
inductive Mark (ι ω α : Type)
  | invoke (i : ι) (o : ω)
  | effect (i : ι) (o : ω) (a : α)
  | respond (i : ι) (a : α)
  deriving DecidableEq

section
variable {ι ω α σ : Type}

namespace Mark

def thread : Mark ι ω α → ι
  | .invoke i _ => i
  | .effect i _ _ => i
  | .respond i _ => i

/-- An effect is inside of the object; the other marks are what its clients see. -/
def visible : Mark ι ω α → Bool
  | .effect .. => false
  | _ => true

end Mark

/-- Where a thread is with its call. -/
inductive Phase (ω α : Type)
  | idle
  | called (o : ω)
  | answered (a : α)

/-- The marks of thread `i` are those of calls one after the other, and have brought it to a phase. -/
inductive Track (i : ι) : List (Mark ι ω α) → Phase ω α → Prop
  | nil : Track i [] .idle
  | other {ms : List (Mark ι ω α)} {p : Phase ω α} {k : Mark ι ω α} (hk : k.thread ≠ i) (h : Track i ms p) :
      Track i (ms ++ [k]) p
  | invoke {ms : List (Mark ι ω α)} (o : ω) (h : Track i ms .idle) : Track i (ms ++ [.invoke i o]) (.called o)
  | effect {ms : List (Mark ι ω α)} {o : ω} (a : α) (h : Track i ms (.called o)) :
      Track i (ms ++ [.effect i o a]) (.answered a)
  | respond {ms : List (Mark ι ω α)} {a : α} (h : Track i ms (.answered a)) : Track i (ms ++ [.respond i a]) .idle

/-- The effects are a run of the sequential object from `s`, which ends in the given state. -/
inductive Legal (spec : σ → ω → α → σ → Prop) (s : σ) : List (Mark ι ω α) → σ → Prop
  | nil : Legal spec s [] s
  | visible {ms : List (Mark ι ω α)} {t : σ} {k : Mark ι ω α} (hk : k.visible = true) (h : Legal spec s ms t) :
      Legal spec s (ms ++ [k]) t
  | effect {ms : List (Mark ι ω α)} {t t' : σ} {o : ω} {a : α} (i : ι) (hstep : spec t o a t')
      (h : Legal spec s ms t) : Legal spec s (ms ++ [.effect i o a]) t'

/-- **Linearizability** of a history with respect to a sequential object that starts in `s`. -/
def Linearizable (spec : σ → ω → α → σ → Prop) (s : σ) (history : List (Mark ι ω α)) : Prop :=
  ∃ ms t, ms.filter Mark.visible = history ∧ (∀ i, ∃ p, Track i ms p) ∧ Legal spec s ms t

/-- A history with a linearization that has brought every thread to its phase and the sequential object
to the state `t`. -/
def Linearized (spec : σ → ω → α → σ → Prop) (s : σ) (history : List (Mark ι ω α)) (phase : ι → Phase ω α)
    (t : σ) : Prop :=
  ∃ ms, ms.filter Mark.visible = history ∧ (∀ i, Track i ms (phase i)) ∧ Legal spec s ms t

section
variable {spec : σ → ω → α → σ → Prop} {s t t' : σ} {history : List (Mark ι ω α)} {phase phase' : ι → Phase ω α}
  {i : ι} {o : ω} {a : α}

theorem linearized_nil (s : σ) : Linearized spec s ([] : List (Mark ι ω α)) (fun _ => .idle) s :=
  ⟨[], rfl, fun _ => .nil, .nil⟩

theorem Linearized.linearizable (h : Linearized spec s history phase t) : Linearizable spec s history := by
  obtain ⟨ms, hvisible, htrack, hlegal⟩ := h
  exact ⟨ms, t, hvisible, fun i => ⟨_, htrack i⟩, hlegal⟩

/-- One more mark, of thread `i`. -/
theorem Linearized.mark (h : Linearized spec s history phase t) {k : Mark ι ω α} (hk : k.thread = i)
    (htrack : ∀ ms, Track i ms (phase i) → Track i (ms ++ [k]) (phase' i))
    (hlegal : ∀ ms, Legal spec s ms t → Legal spec s (ms ++ [k]) t')
    (hothers : ∀ j, j ≠ i → phase' j = phase j) :
    Linearized spec s (history ++ [k].filter Mark.visible) phase' t' := by
  obtain ⟨ms, hvisible, hms, hrun⟩ := h
  refine ⟨ms ++ [k], ?_, fun j => ?_, hlegal ms hrun⟩
  · rw [List.filter_append, hvisible]
  · by_cases hj : j = i
    · rw [hj]
      exact htrack ms (hms i)
    · rw [hothers j hj]
      exact .other (hk ▸ Ne.symm hj) (hms j)

theorem Linearized.invoke (h : Linearized spec s history phase t) (o : ω) (hi : phase i = .idle)
    (hi' : phase' i = .called o) (hothers : ∀ j, j ≠ i → phase' j = phase j) :
    Linearized spec s (history ++ [.invoke i o]) phase' t := by
  refine h.mark (i := i) (k := .invoke i o) rfl (fun ms hms => ?_) (fun ms hms => hms.visible rfl) hothers
  rw [hi']
  exact .invoke o (hi ▸ hms)

theorem Linearized.effect (h : Linearized spec s history phase t) (hstep : spec t o a t') (hi : phase i = .called o)
    (hi' : phase' i = .answered a) (hothers : ∀ j, j ≠ i → phase' j = phase j) :
    Linearized spec s history phase' t' := by
  have hmark : Linearized spec s (history ++ [Mark.effect i o a].filter Mark.visible) phase' t' :=
    h.mark (i := i) rfl (fun ms hms => by rw [hi']; exact .effect a (hi ▸ hms))
      (fun ms hms => hms.effect i hstep) hothers
  rwa [show [Mark.effect i o a].filter Mark.visible = [] from rfl, List.append_nil] at hmark

theorem Linearized.respond (h : Linearized spec s history phase t) (hi : phase i = .answered a)
    (hi' : phase' i = .idle) (hothers : ∀ j, j ≠ i → phase' j = phase j) :
    Linearized spec s (history ++ [.respond i a]) phase' t := by
  refine h.mark (i := i) (k := .respond i a) rfl (fun ms hms => ?_) (fun ms hms => hms.visible rfl) hothers
  rw [hi']
  exact .respond (hi ▸ hms)

/-- A step that makes no mark. -/
theorem Linearized.silent (h : Linearized spec s history phase t) (hi : phase' i = phase i)
    (hothers : ∀ j, j ≠ i → phase' j = phase j) : Linearized spec s history phase' t := by
  have hsame : phase' = phase := by
    funext j
    by_cases hj : j = i
    · rw [hj, hi]
    · exact hothers j hj
  rw [hsame]
  exact h

end

end

end AppendStore.Library
