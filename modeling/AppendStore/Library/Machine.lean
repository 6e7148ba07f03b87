import Mathlib

/-! # Machines that answer calls

A machine is a step function: a call in a state gives an answer and the next state. `answers` and
`final` are its whole runs. Two machines that a relation keeps in step give the same answers
(`answers_eq`), and what every step keeps holds at the end of every run (`final_invariant`).
-/

namespace AppendStore.Library
set_option autoImplicit false

section
variable {σ τ γ α : Type}

/-- The answers to a list of calls. -/
def answers (step : σ → γ → α × σ) : σ → List γ → List α
  | _, [] => []
  | s, c :: cs => (step s c).1 :: answers step (step s c).2 cs

/-- The state after a list of calls. -/
def final (step : σ → γ → α × σ) : σ → List γ → σ
  | s, [] => s
  | s, c :: cs => final step (step s c).2 cs

/-- **Simulation.** The relation has to be kept by the calls that occur. -/
theorem answers_eq {step : σ → γ → α × σ} {step' : τ → γ → α × τ} {R : σ → τ → Prop} (cs : List γ)
    (hstep : ∀ c ∈ cs, ∀ s t, R s t → (step s c).1 = (step' t c).1 ∧ R (step s c).2 (step' t c).2)
    {s : σ} {t : τ} (h : R s t) : answers step s cs = answers step' t cs := by
  induction cs generalizing s t with
  | nil => rfl
  | cons c cs ih =>
    obtain ⟨hans, hrel⟩ := hstep c List.mem_cons_self s t h
    rw [answers, answers, hans, ih (fun c hc => hstep c (List.mem_cons_of_mem _ hc)) hrel]

/-- The ends of two runs that a relation keeps in step. -/
theorem final_related {step : σ → γ → α × σ} {step' : τ → γ → α × τ} {R : σ → τ → Prop} (cs : List γ)
    (hstep : ∀ c ∈ cs, ∀ s t, R s t → R (step s c).2 (step' t c).2) {s : σ} {t : τ} (h : R s t) :
    R (final step s cs) (final step' t cs) := by
  induction cs generalizing s t with
  | nil => exact h
  | cons c cs ih => exact ih (fun c hc => hstep c (List.mem_cons_of_mem _ hc)) (hstep c List.mem_cons_self s t h)

theorem final_append (step : σ → γ → α × σ) (s : σ) (xs ys : List γ) :
    final step s (xs ++ ys) = final step (final step s xs) ys := by
  induction xs generalizing s with
  | nil => rfl
  | cons x xs ih => exact ih _

/-- What the calls of a run keep holds at its end. -/
theorem final_invariant {step : σ → γ → α × σ} {I : σ → Prop} (cs : List γ)
    (hstep : ∀ c ∈ cs, ∀ s, I s → I (step s c).2) {s : σ} (h : I s) : I (final step s cs) := by
  induction cs generalizing s with
  | nil => exact h
  | cons c cs ih =>
    exact ih (fun c hc => hstep c (List.mem_cons_of_mem _ hc)) (hstep c List.mem_cons_self s h)

end

end AppendStore.Library
