import Mathlib

/-! # Programs over an effect signature, and where they can be interrupted

A program is a tree of operations, each answered by its environment. A handler answers the
operations over a state; `run` is the uninterrupted execution. `Visits h p s t` says that `t` is the
state at some instant of that execution: before the first operation, between two, or at the end.
`Guarded h I p s Q` is the two-part specification of a program that may be cut short at any instant:
`I` holds at every instant, and `Q` of the answer and the final state when it runs to its end.

`Each P Q p` says of a program by itself, without a handler, that every operation it may ever make has
`P` and every answer it may give has `Q`.

`orElse` and `andThen` are the two shapes in which a program that checks an error after every call
is written.
-/

namespace AppendStore.Library
set_option autoImplicit false

/-- A program whose effects are operations `o : Op`, answered in `Res o`. -/
inductive Prog (Op : Type) (Res : Op → Type) (α : Type) : Type
  | ret (a : α)
  | op (o : Op) (k : Res o → Prog Op Res α)

section
variable {Op : Type} {Res : Op → Type} {α β γ σ : Type}

namespace Prog

/-- Sequencing. -/
def bind : Prog Op Res α → (α → Prog Op Res β) → Prog Op Res β
  | .ret a, f => f a
  | .op o k, f => .op o fun r => (k r).bind f

instance : Monad (Prog Op Res) where
  pure := .ret
  bind := Prog.bind

/-- One operation. -/
def perform (o : Op) : Prog Op Res (Res o) := .op o .ret

/-! ## Uninterrupted execution -/

/-- Run a program: the answer and the final state. -/
def run (h : (o : Op) → σ → Res o × σ) : Prog Op Res α → σ → α × σ
  | .ret a, s => (a, s)
  | .op o k, s => (k (h o s).1).run h (h o s).2

variable (h : (o : Op) → σ → Res o × σ)

@[simp] theorem run_pure (a : α) (s : σ) : run h (pure a : Prog Op Res α) s = (a, s) := rfl

@[simp] theorem run_perform (o : Op) (s : σ) : run h (perform o : Prog Op Res (Res o)) s = h o s := rfl

@[simp] theorem run_bind (p : Prog Op Res α) (f : α → Prog Op Res β) (s : σ) :
    run h (p >>= f) s = run h (f (run h p s).1) (run h p s).2 := by
  change run h (p.bind f) s = _
  induction p generalizing s with
  | ret a => rfl
  | op o k ih =>
    simp only [Prog.bind, run]
    exact ih (h o s).1 (h o s).2

@[simp] theorem run_map (p : Prog Op Res α) (f : α → β) (s : σ) :
    run h (f <$> p) s = (f (run h p s).1, (run h p s).2) := by
  change run h (p >>= fun a => pure (f a)) s = _
  rw [run_bind, run_pure]

theorem bind_assoc (p : Prog Op Res α) (f : α → Prog Op Res β) (g : β → Prog Op Res γ) :
    p >>= f >>= g = p >>= fun a => f a >>= g := by
  change (p.bind f).bind g = p.bind fun a => (f a).bind g
  induction p with
  | ret a => rfl
  | op o k ih =>
    simp only [Prog.bind]
    congr 1
    funext r
    exact ih r

/-! ## Programs that can fail

An answer in `Except ε` is a Go-style pair of a result and an error. -/

/-- Continue with the result, or hand the error to `bad`. -/
def orElse {ε : Type} (p : Prog Op Res (Except ε α)) (bad : ε → Prog Op Res β)
    (good : α → Prog Op Res β) : Prog Op Res β :=
  p >>= fun r => match r with
    | .ok a => good a
    | .error e => bad e

/-- Continue with the result, or stop with the error. -/
def andThen {ε : Type} (p : Prog Op Res (Except ε α)) (good : α → Prog Op Res (Except ε β)) :
    Prog Op Res (Except ε β) :=
  p.orElse (fun e => pure (.error e)) good

/-- Continue with the result, or hand the error to `bad`, where the program also returns a state. -/
def orElseState {ε τ : Type} (p : Prog Op Res (Except ε α × τ)) (bad : ε → τ → Prog Op Res β)
    (good : α → τ → Prog Op Res β) : Prog Op Res β :=
  p >>= fun r => match r.1 with
    | .ok a => good a r.2
    | .error e => bad e r.2

theorem orElse_bind {ε : Type} (p : Prog Op Res (Except ε α)) (bad : ε → Prog Op Res β)
    (good : α → Prog Op Res β) (f : β → Prog Op Res γ) :
    p.orElse bad good >>= f = p.orElse (fun e => bad e >>= f) fun a => good a >>= f := by
  unfold orElse
  rw [bind_assoc]
  congr 1
  funext r
  cases r <;> rfl

theorem orElseState_bind {ε τ : Type} (p : Prog Op Res (Except ε α × τ)) (bad : ε → τ → Prog Op Res β)
    (good : α → τ → Prog Op Res β) (f : β → Prog Op Res γ) :
    p.orElseState bad good >>= f = p.orElseState (fun e x => bad e x >>= f) fun a x => good a x >>= f := by
  unfold orElseState
  rw [bind_assoc]
  congr 1
  funext r
  obtain ⟨r, x⟩ := r
  cases r <;> rfl

section
variable {ε τ : Type} {p : Prog Op Res (Except ε α × τ)} {bad : ε → τ → Prog Op Res β}
  {good : α → τ → Prog Op Res β} {s t : σ} {x : τ}

theorem run_orElseState_ok {a : α} (hp : run h p s = ((.ok a, x), t)) :
    run h (p.orElseState bad good) s = run h (good a x) t := by
  rw [orElseState, run_bind, hp]

theorem run_orElseState_error {e : ε} (hp : run h p s = ((.error e, x), t)) :
    run h (p.orElseState bad good) s = run h (bad e x) t := by
  rw [orElseState, run_bind, hp]

end

section
variable {ε : Type} {p : Prog Op Res (Except ε α)} {bad : ε → Prog Op Res β}
  {good : α → Prog Op Res β} {s t : σ}

theorem run_orElse_ok {a : α} (hp : run h p s = (.ok a, t)) :
    run h (p.orElse bad good) s = run h (good a) t := by
  rw [orElse, run_bind, hp]

theorem run_orElse_error {e : ε} (hp : run h p s = (.error e, t)) :
    run h (p.orElse bad good) s = run h (bad e) t := by
  rw [orElse, run_bind, hp]

/-- A first part may be replaced by another that runs alike. -/
theorem run_orElse_congr {q : Prog Op Res (Except ε α)} (hp : run h p s = run h q t) :
    run h (p.orElse bad good) s = run h (q.orElse bad good) t := by
  rw [orElse, orElse, run_bind, run_bind, hp]

variable {next : α → Prog Op Res (Except ε β)}

theorem run_andThen_ok {a : α} (hp : run h p s = (.ok a, t)) :
    run h (p.andThen next) s = run h (next a) t :=
  run_orElse_ok h hp

theorem run_andThen_error {e : ε} (hp : run h p s = (.error e, t)) :
    run h (p.andThen next) s = (.error e, t) :=
  run_orElse_error h hp

end

/-! ## Interrupted execution -/

/-- `Visits h p s t`: running `p` from `s`, the state is `t` at some instant. -/
inductive Visits : Prog Op Res α → σ → σ → Prop
  | here (p : Prog Op Res α) (s : σ) : Visits p s s
  | next (o : Op) (k : Res o → Prog Op Res α) (s t : σ) :
      Visits (k (h o s).1) (h o s).2 t → Visits (.op o k) s t

variable {h}

theorem visits_run (p : Prog Op Res α) (s : σ) : Visits h p s (run h p s).2 := by
  induction p generalizing s with
  | ret a => exact .here _ _
  | op o k ih => exact .next o k s _ (ih _ _)

/-- The state after the first `n` operations of a run, or at its end. -/
def instant (h : (o : Op) → σ → Res o × σ) : ℕ → Prog Op Res α → σ → σ
  | 0, _, s => s
  | _ + 1, .ret _, s => s
  | n + 1, .op o k, s => instant h n (k (h o s).1) (h o s).2

theorem visits_instant (n : ℕ) (p : Prog Op Res α) (s : σ) : Visits h p s (instant h n p s) := by
  induction n generalizing p s with
  | zero => exact .here p s
  | succ n ih =>
    cases p with
    | ret a => exact .here _ s
    | op o k => exact .next o k s _ (ih _ _)

theorem visits_end {p : Prog Op Res α} {a : α} {s s' : σ} (hp : run h p s = (a, s')) : Visits h p s s' := by
  have hlast := visits_run (h := h) p s
  rwa [hp] at hlast

/-- An instant of a sequence is an instant of its first part, or of the second after the first. -/
theorem visits_bind {p : Prog Op Res α} {f : α → Prog Op Res β} {s t : σ}
    (hv : Visits h (p >>= f) s t) :
    Visits h p s t ∨ Visits h (f (run h p s).1) (run h p s).2 t := by
  change Visits h (p.bind f) s t at hv
  induction p generalizing s with
  | ret a => exact .inr hv
  | op o k ih =>
    cases hv with
    | here => exact .inl (.here _ _)
    | next _ _ _ _ hv =>
      rcases ih _ hv with hl | hr
      · exact .inl (.next o k s t hl)
      · exact .inr hr

theorem visits_pure {a : α} {s t : σ} (hv : Visits h (pure a : Prog Op Res α) s t) : t = s := by
  cases hv
  rfl

theorem visits_perform {o : Op} {s t : σ} (hv : Visits h (perform o : Prog Op Res (Res o)) s t) :
    t = s ∨ t = (h o s).2 := by
  cases hv with
  | here => exact .inl rfl
  | next _ _ _ _ hv => exact .inr (visits_pure hv)

theorem visits_bind_left {p : Prog Op Res α} {s t : σ} (f : α → Prog Op Res β) (hv : Visits h p s t) :
    Visits h (p >>= f) s t := by
  change Visits h (p.bind f) s t
  induction hv with
  | here => exact .here _ _
  | next o k s t _ ih => exact .next o _ s t ih

theorem visits_bind_right {p : Prog Op Res α} {f : α → Prog Op Res β} {a : α} {s s' t : σ}
    (hp : run h p s = (a, s')) (hv : Visits h (f a) s' t) : Visits h (p >>= f) s t := by
  change Visits h (p.bind f) s t
  induction p generalizing s with
  | ret b =>
    cases hp
    exact hv
  | op o k ih => exact .next o _ s t (ih _ hp)

theorem visits_bind_eq {p : Prog Op Res α} {f : α → Prog Op Res β} {a : α} {s s' t : σ}
    (hp : run h p s = (a, s')) (hv : Visits h (p >>= f) s t) : Visits h p s t ∨ Visits h (f a) s' t := by
  have hcase := visits_bind hv
  rwa [hp] at hcase

theorem visits_orElse {ε : Type} {p : Prog Op Res (Except ε α)} {bad : ε → Prog Op Res β}
    {good : α → Prog Op Res β} {s t : σ} (hv : Visits h (p.orElse bad good) s t) :
    Visits h p s t ∨ (∃ a s', run h p s = (.ok a, s') ∧ Visits h (good a) s' t) ∨
      ∃ e s', run h p s = (.error e, s') ∧ Visits h (bad e) s' t := by
  rcases visits_bind hv with hp | hk
  · exact .inl hp
  · cases hr : run h p s with
    | mk r s' =>
      rw [hr] at hk
      cases r with
      | ok a => exact .inr (.inl ⟨a, s', rfl, hk⟩)
      | error e => exact .inr (.inr ⟨e, s', rfl, hk⟩)

theorem visits_orElse_ok {ε : Type} {p : Prog Op Res (Except ε α)} {bad : ε → Prog Op Res β}
    {good : α → Prog Op Res β} {a : α} {s s' t : σ} (hp : run h p s = (.ok a, s'))
    (hv : Visits h (p.orElse bad good) s t) : Visits h p s t ∨ Visits h (good a) s' t :=
  visits_bind_eq hp hv

theorem visits_orElseState_ok {ε τ : Type} {p : Prog Op Res (Except ε α × τ)}
    {bad : ε → τ → Prog Op Res β} {good : α → τ → Prog Op Res β} {a : α} {x : τ} {s s' t : σ}
    (hp : run h p s = ((.ok a, x), s')) (hv : Visits h (p.orElseState bad good) s t) :
    Visits h p s t ∨ Visits h (good a x) s' t :=
  visits_bind_eq hp hv

/-- `I` at every instant, `Q` at the end. -/
def Guarded (h : (o : Op) → σ → Res o × σ) (I : σ → Prop) (p : Prog Op Res α) (s : σ)
    (Q : α → σ → Prop) : Prop :=
  (∀ t, Visits h p s t → I t) ∧ Q (run h p s).1 (run h p s).2

section
variable {I : σ → Prop} {R : β → σ → Prop} {a : α} {s s' : σ}

theorem guarded_pure {b : β} (hI : I s) (hR : R b s) : Guarded h I (pure b : Prog Op Res β) s R := by
  refine ⟨fun t hv => ?_, hR⟩
  rw [visits_pure hv]
  exact hI

/-- A first part whose end is known, and what comes after it. -/
theorem guarded_bind_eq {p : Prog Op Res α} {f : α → Prog Op Res β} (hp : run h p s = (a, s'))
    (hI : ∀ t, Visits h p s t → I t) (hf : Guarded h I (f a) s' R) : Guarded h I (p >>= f) s R := by
  refine ⟨fun t ht => ?_, ?_⟩
  · rcases visits_bind_eq hp ht with hfirst | hsecond
    · exact hI t hfirst
    · exact hf.1 t hsecond
  · rw [run_bind, hp]
    exact hf.2

theorem guarded_orElse_ok {ε : Type} {p : Prog Op Res (Except ε α)} {bad : ε → Prog Op Res β}
    {good : α → Prog Op Res β} (hp : run h p s = (.ok a, s')) (hI : ∀ t, Visits h p s t → I t)
    (hgood : Guarded h I (good a) s' R) : Guarded h I (p.orElse bad good) s R :=
  guarded_bind_eq hp hI hgood

theorem guarded_orElseState_ok {ε τ : Type} {p : Prog Op Res (Except ε α × τ)} {bad : ε → τ → Prog Op Res β}
    {good : α → τ → Prog Op Res β} {x : τ} (hp : run h p s = ((.ok a, x), s')) (hI : ∀ t, Visits h p s t → I t)
    (hgood : Guarded h I (good a x) s' R) : Guarded h I (p.orElseState bad good) s R :=
  guarded_bind_eq hp hI hgood

theorem guarded_orElseState_error {ε τ : Type} {p : Prog Op Res (Except ε α × τ)} {bad : ε → τ → Prog Op Res β}
    {good : α → τ → Prog Op Res β} {e : ε} {x : τ} (hp : run h p s = ((.error e, x), s'))
    (hI : ∀ t, Visits h p s t → I t) (hbad : Guarded h I (bad e x) s' R) :
    Guarded h I (p.orElseState bad good) s R :=
  guarded_bind_eq hp hI hbad

end

/-! ## What a program may do at all -/

/-- Every operation the program may make has `P`, and every answer it may give has `Q`. -/
inductive Each (P : Op → Prop) (Q : α → Prop) : Prog Op Res α → Prop
  | ret {a : α} (hQ : Q a) : Each P Q (.ret a)
  | op {o : Op} {k : Res o → Prog Op Res α} (hP : P o) (hk : ∀ r, Each P Q (k r)) : Each P Q (.op o k)

section
variable {P : Op → Prop}

theorem each_perform {o : Op} (hP : P o) : Each P (fun _ => True) (perform o : Prog Op Res (Res o)) :=
  .op hP fun _ => .ret trivial

theorem each_bind {p : Prog Op Res α} {f : α → Prog Op Res β} {Q : α → Prop} {R : β → Prop} (hp : Each P Q p)
    (hf : ∀ a, Q a → Each P R (f a)) : Each P R (p >>= f) := by
  change Each P R (p.bind f)
  induction hp with
  | ret hQ => exact hf _ hQ
  | op hP _ ih => exact .op hP ih

theorem Each.mono {p : Prog Op Res α} {Q R : α → Prop} (hp : Each P Q p) (hQ : ∀ a, Q a → R a) : Each P R p := by
  induction hp with
  | ret h => exact .ret (hQ _ h)
  | op hP _ ih => exact .op hP ih

theorem each_any (p : Prog Op Res α) : Each (fun _ => True) (fun _ => True) p := by
  induction p with
  | ret a => exact .ret trivial
  | op o k ih => exact .op trivial ih

theorem each_orElse {ε : Type} {p : Prog Op Res (Except ε α)} {bad : ε → Prog Op Res β}
    {good : α → Prog Op Res β} {Q : Except ε α → Prop} {R : β → Prop} (hp : Each P Q p)
    (hbad : ∀ e, Q (.error e) → Each P R (bad e)) (hgood : ∀ a, Q (.ok a) → Each P R (good a)) :
    Each P R (p.orElse bad good) := by
  refine each_bind hp fun r hr => ?_
  cases r with
  | ok a => exact hgood a hr
  | error e => exact hbad e hr

theorem each_orElseState {ε τ : Type} {p : Prog Op Res (Except ε α × τ)} {bad : ε → τ → Prog Op Res β}
    {good : α → τ → Prog Op Res β} {Q : Except ε α × τ → Prop} {R : β → Prop} (hp : Each P Q p)
    (hbad : ∀ e x, Q (.error e, x) → Each P R (bad e x)) (hgood : ∀ a x, Q (.ok a, x) → Each P R (good a x)) :
    Each P R (p.orElseState bad good) := by
  refine each_bind hp ?_
  rintro ⟨r, x⟩ hr
  cases r with
  | ok a => exact hgood a x hr
  | error e => exact hbad e x hr

/-- What every operation keeps, a run keeps. -/
theorem Each.run {p : Prog Op Res α} {Q : α → Prop} (hp : Each P Q p) {I : σ → Prop}
    (hI : ∀ o s, P o → I s → I (h o s).2) {s : σ} (hs : I s) : I (run h p s).2 ∧ Q (run h p s).1 := by
  induction hp generalizing s with
  | ret hQ => exact ⟨hs, hQ⟩
  | op hP _ ih => exact ih _ (hI _ s hP hs)

/-- Two handlers that answer alike in related states, and stay related, run a program alike. -/
theorem Each.simulates {τ : Type} {g : (o : Op) → τ → Res o × τ} {R : σ → τ → Prop} {p : Prog Op Res α} {Q : α → Prop}
    (hp : Each P Q p) (hstep : ∀ o s t, P o → R s t → (h o s).1 = (g o t).1 ∧ R (h o s).2 (g o t).2) {s : σ} {t : τ}
    (hR : R s t) : (Prog.run h p s).1 = (Prog.run g p t).1 ∧ R (Prog.run h p s).2 (Prog.run g p t).2 := by
  induction hp generalizing s t with
  | ret hQ => exact ⟨rfl, hR⟩
  | op hP _ ih =>
    obtain ⟨hsame, hnext⟩ := hstep _ s t hP hR
    rw [Prog.run, Prog.run, hsame]
    exact ih _ hnext

/-- What every operation keeps holds at every instant. -/
theorem Each.visits {p : Prog Op Res α} {Q : α → Prop} (hp : Each P Q p) {I : σ → Prop}
    (hI : ∀ o s, P o → I s → I (h o s).2) {s t : σ} (hs : I s) (hv : Visits h p s t) : I t := by
  induction hv with
  | here => exact hs
  | next o k s t _ ih =>
    cases hp with
    | op hP hk => exact ih (hk _) (hI _ s hP hs)

end

end Prog

end

end AppendStore.Library
