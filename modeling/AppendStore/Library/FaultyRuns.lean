import AppendStore.Library.FileSystem

/-! # Programs under failures

An environment may have a choice: any call can fail. `All R p s Q` says that `p`, started in `s`, ends with
`Q` whatever it is answered, where `R o s r t` says which answers `r` and next states `t` an operation may
have. The rules follow the shape of the program, as for one environment.

`Disk.MayAnswer` is the environment in which every system call may fail. Next to the disk it keeps the
journal of the calls, each with its outcome, so that a specification can speak of the call that failed.
`Disk.All.faulty` and `Disk.All.exec` bring a result back to runs under a list of faults and to runs without
faults.

`Apart S d d'`: nothing happened to the files at the paths in `S`. A program keeps it if none of its calls
names one of the paths or writes through a handle of one of the files (`FileOp.Spares`), or names one only
where that changes nothing (`FileOp.Preserves`).
-/

namespace AppendStore.Library
set_option autoImplicit false

/-! ## Every answer of the environment -/

namespace Prog

section
variable {Op : Type} {Res : Op → Type} {α β σ : Type}

/-- Whatever the environment answers, the program ends with `Q`. -/
def All (R : (o : Op) → σ → Res o → σ → Prop) : Prog Op Res α → σ → (α → σ → Prop) → Prop
  | .ret a, s, Q => Q a s
  | .op o k, s, Q => ∀ r t, R o s r t → All R (k r) t Q

variable {R : (o : Op) → σ → Res o → σ → Prop} {Q : α → σ → Prop} {Q' : β → σ → Prop}

theorem all_pure {a : α} {s : σ} (h : Q a s) : All R (pure a : Prog Op Res α) s Q := h

theorem all_perform {o : Op} {s : σ} {Q : Res o → σ → Prop} (h : ∀ r t, R o s r t → Q r t) :
    All R (perform o : Prog Op Res (Res o)) s Q := h

theorem all_bind {p : Prog Op Res α} {f : α → Prog Op Res β} {s : σ}
    (h : All R p s fun a t => All R (f a) t Q') : All R (p >>= f) s Q' := by
  change All R (p.bind f) s Q'
  induction p generalizing s with
  | ret a => exact h
  | op o k ih =>
    intro r t hr
    exact ih r (h r t hr)

theorem All.mono {p : Prog Op Res α} {s : σ} {Q₁ : α → σ → Prop} (h : All R p s Q)
    (hQ : ∀ a t, Q a t → Q₁ a t) : All R p s Q₁ := by
  induction p generalizing s with
  | ret a => exact hQ a s h
  | op o k ih =>
    intro r t hr
    exact ih r (h r t hr)

/-- A specification over one state holds over every state that it is read off. -/
theorem All.lift {τ : Type} {R' : (o : Op) → τ → Res o → τ → Prop} (f : τ → σ)
    (hR : ∀ o s r t, R' o s r t → R o (f s) r (f t)) {p : Prog Op Res α} {s : τ} (h : All R p (f s) Q) :
    All R' p s fun a t => Q a (f t) := by
  induction p generalizing s with
  | ret a => exact h
  | op o k ih =>
    intro r t hr
    exact ih r (h r (f t) (hR o s r t hr))

theorem All.and {p : Prog Op Res α} {s : σ} {Q₁ : α → σ → Prop} (h : All R p s Q) (h₁ : All R p s Q₁) :
    All R p s fun a t => Q a t ∧ Q₁ a t := by
  induction p generalizing s with
  | ret a => exact ⟨h, h₁⟩
  | op o k ih =>
    intro r t hr
    exact ih r (h r t hr) (h₁ r t hr)

section
variable {ε τ : Type}

theorem all_orElse {p : Prog Op Res (Except ε α)} {bad : ε → Prog Op Res β} {good : α → Prog Op Res β} {s : σ}
    {Q : Except ε α → σ → Prop} (h : All R p s Q) (hbad : ∀ e t, Q (.error e) t → All R (bad e) t Q')
    (hgood : ∀ a t, Q (.ok a) t → All R (good a) t Q') : All R (p.orElse bad good) s Q' := by
  refine all_bind (h.mono ?_)
  intro r t hr
  cases r with
  | ok a => exact hgood a t hr
  | error e => exact hbad e t hr

theorem all_andThen {p : Prog Op Res (Except ε α)} {good : α → Prog Op Res (Except ε β)} {s : σ}
    {Q : Except ε α → σ → Prop} {Q' : Except ε β → σ → Prop} (h : All R p s Q)
    (hbad : ∀ e t, Q (.error e) t → Q' (.error e) t) (hgood : ∀ a t, Q (.ok a) t → All R (good a) t Q') :
    All R (p.andThen good) s Q' :=
  all_orElse h (fun e t hq => all_pure (hbad e t hq)) hgood

theorem all_orElseState {p : Prog Op Res (Except ε α × τ)} {bad : ε → τ → Prog Op Res β}
    {good : α → τ → Prog Op Res β} {s : σ} {Q : Except ε α × τ → σ → Prop} (h : All R p s Q)
    (hbad : ∀ e x t, Q (.error e, x) t → All R (bad e x) t Q')
    (hgood : ∀ a x t, Q (.ok a, x) t → All R (good a x) t Q') : All R (p.orElseState bad good) s Q' := by
  refine all_bind (h.mono ?_)
  rintro ⟨r, x⟩ t hr
  cases r with
  | ok a => exact hgood a x t hr
  | error e => exact hbad e x t hr

end

/-- What every operation of a program keeps, the program keeps. -/
theorem Each.all {P : Op → Prop} {p : Prog Op Res α} {Q : α → Prop} (hp : Each P Q p) {I : σ → Prop}
    (hI : ∀ o s r t, P o → I s → R o s r t → I t) {s : σ} (hs : I s) : All R p s fun a t => I t ∧ Q a := by
  induction hp generalizing s with
  | ret hQ => exact ⟨hs, hQ⟩
  | op hP _ ih =>
    intro r t hr
    exact ih r (hI _ s r t hP hs hr)

end

end Prog

/-! ## The journal -/

/-- Whether a call reported success. -/
def FileOp.succeeded : (o : FileOp) → o.Res → Bool
  | .stat _, r => Except.isOk r
  | .openFile _ _ _, r => Except.isOk r
  | .fstat _, r => Except.isOk r
  | .readAt _ _ _, r => Except.isOk r
  | .seek _ _, r => Except.isOk r
  | .readFrom _ _, r => Except.isOk r
  | .writeAt _ _ _, r => Except.isOk r
  | .truncate _ _, r => Except.isOk r
  | .fsync _, r => Except.isOk r
  | .close _, r => Except.isOk r
  | .rename _ _, r => Except.isOk r
  | .remove _, r => Except.isOk r
  | .syncDir _, r => Except.isOk r
  | .mmap _ _, r => Except.isOk r
  | .mapped _ _ _, _ => true
  | .flock _, r => Except.isOk r
  | .funlock _, r => Except.isOk r

/-- A call and whether it succeeded. -/
structure Entry where
  op : FileOp
  ok : Bool
  deriving DecidableEq, Repr

/-- The calls of a run, in order. -/
abbrev Journal := List Entry

/-- The outcomes of the calls `o`, in order. -/
def Journal.outcomes (o : FileOp) (j : Journal) : List Bool := (j.filter fun e => e.op = o).map Entry.ok

theorem Journal.outcomes_concat_self (o : FileOp) (j : Journal) (b : Bool) :
    outcomes o (j ++ [⟨o, b⟩]) = outcomes o j ++ [b] := by
  simp [outcomes]

theorem Journal.outcomes_concat_ne {o o' : FileOp} (h : o' ≠ o) (j : Journal) (b : Bool) :
    outcomes o (j ++ [⟨o', b⟩]) = outcomes o j := by
  simp [outcomes, h]

namespace Disk

/-- Every call may succeed, as far as the disk lets it, or fail. -/
def MayAnswer (o : FileOp) (s : Disk × Journal) (r : o.Res) (t : Disk × Journal) : Prop :=
  ((r, t.1) = answer o s.1 ∨ ∃ k, (r, t.1) = fault k o s.1) ∧ t.2 = s.2 ++ [⟨o, o.succeeded r⟩]

/-- The faulty environment with a journal. -/
def answerNoted (o : FileOp) (s : (Disk × Faults) × Journal) : o.Res × ((Disk × Faults) × Journal) :=
  let r := answerFaulty o s.1
  (r.1, r.2, s.2 ++ [⟨o, o.succeeded r.1⟩])

/-- Run a program under a list of faults, and keep the journal. -/
def execNoted {α : Type} (p : FileProg α) (d : Disk) (faults : Faults) : α × Disk × Journal :=
  let r := p.run answerNoted ((d, faults), [])
  (r.1, r.2.1.1, r.2.2)

section
variable {α : Type}

theorem mayAnswer_noted (o : FileOp) (d : Disk) (faults : Faults) (j : Journal) :
    MayAnswer o (d, j) (answerNoted o ((d, faults), j)).1
      ((answerNoted o ((d, faults), j)).2.1.1, (answerNoted o ((d, faults), j)).2.2) := by
  refine ⟨?_, rfl⟩
  rcases faults with _ | ⟨_ | k, faults⟩
  · exact .inl rfl
  · exact .inl rfl
  · exact .inr ⟨k, rfl⟩

theorem all_noted {p : FileProg α} {Q : α → Disk × Journal → Prop} {d : Disk} {j : Journal}
    (h : p.All MayAnswer (d, j) Q) (faults : Faults) :
    Q (p.run answerNoted ((d, faults), j)).1
      ((p.run answerNoted ((d, faults), j)).2.1.1, (p.run answerNoted ((d, faults), j)).2.2) := by
  induction p generalizing d faults j with
  | ret a => exact h
  | op o k ih =>
    have hstep := h _ _ (mayAnswer_noted o d faults j)
    exact ih _ hstep (answerNoted o ((d, faults), j)).2.1.2

/-- **What holds for every answer holds for every list of faults.** -/
theorem All.faulty {p : FileProg α} {Q : α → Disk × Journal → Prop} {d : Disk} (h : p.All MayAnswer (d, []) Q)
    (faults : Faults) : Q (execNoted p d faults).1 (execNoted p d faults).2 :=
  all_noted h faults

/-- The journal does not change a run. -/
theorem execNoted_eq (p : FileProg α) (d : Disk) (faults : Faults) :
    (execNoted p d faults).1 = (execFaulty p d faults).1 ∧
    (execNoted p d faults).2.1 = (execFaulty p d faults).2.1 := by
  have h : ∀ s j, (p.run answerNoted (s, j)).1 = (p.run answerFaulty s).1 ∧
      (p.run answerNoted (s, j)).2.1 = (p.run answerFaulty s).2 := by
    induction p with
    | ret a => exact fun s j => ⟨rfl, rfl⟩
    | op o k ih => exact fun s j => ih _ _ _
  obtain ⟨h1, h2⟩ := h (d, faults) []
  exact ⟨h1, congrArg Prod.fst h2⟩

/-- **A run without failures is one under a list of faults**, with any faults left for what follows it. -/
theorem exists_faults {P : FileOp → Prop} {Q : α → Prop} {p : FileProg α} (hp : p.Each P Q) {d d' : Disk} {a : α}
    (h : exec p d = (a, d')) (left : Faults) : ∃ faults calls, (∀ e ∈ calls, P e.op) ∧
      ∀ j, p.run answerNoted ((d, faults), j) = (a, (d', left), j ++ calls) := by
  induction hp generalizing d with
  | ret hQ =>
    cases h
    exact ⟨left, [], (fun e he => absurd he List.not_mem_nil), fun j => by rw [List.append_nil]; rfl⟩
  | @op o k hP _ ih =>
    obtain ⟨faults, calls, hcalls, hrun⟩ := ih _ h
    refine ⟨none :: faults, ⟨o, o.succeeded (answer o d).1⟩ :: calls, List.forall_mem_cons.mpr ⟨hP, hcalls⟩,
      fun j => ?_⟩
    have hrest := hrun (j ++ [⟨o, o.succeeded (answer o d).1⟩])
    rw [List.append_assoc, List.singleton_append] at hrest
    exact hrest

/-- What holds for every answer holds without faults. -/
theorem All.exec {p : FileProg α} {Q : α → Disk × Journal → Prop} {d : Disk} (h : p.All MayAnswer (d, []) Q) :
    ∃ j, Q (exec p d).1 ((exec p d).2, j) := by
  have hq := All.faulty h []
  obtain ⟨h1, h2⟩ := execNoted_eq p d []
  rw [execFaulty_nil] at h1 h2
  dsimp only at h1 h2
  refine ⟨(execNoted p d []).2.2, ?_⟩
  rw [← h1, ← h2]
  exact hq

end

end Disk

/-! ## Counting the failures -/

/-- A run so far: the disk, the calls made, and how many of them were made to fail. -/
structure Disk.Run where
  disk : Disk
  journal : Journal
  faults : ℕ

namespace Disk

/-- What a call may do to the disk. A failed write may have got as far as its first `k` bytes, for a `k` in `K`. -/
def Yields (K : Set ℕ) (o : FileOp) (d : Disk) (r : o.Res) (d' : Disk) : Prop :=
  (r, d') = answer o d ∨ ∃ k ∈ K, (r, d') = fault k o d

/-- What a call may do in a run. -/
def Counted (K : Set ℕ) (o : FileOp) (s : Run) (r : o.Res) (t : Run) : Prop :=
  ((r, t.disk) = answer o s.disk ∧ t.faults = s.faults ∨
      (∃ k ∈ K, (r, t.disk) = fault k o s.disk) ∧ t.faults = s.faults + 1) ∧
    t.journal = s.journal ++ [⟨o, o.succeeded r⟩]

section
variable {K : Set ℕ} {α : Type}

theorem Counted.yields {o : FileOp} {s t : Run} {r : o.Res} (h : Counted K o s r t) : Yields K o s.disk r t.disk := by
  rcases h.1 with ⟨hok, -⟩ | ⟨hfail, -⟩
  · exact .inl hok
  · exact .inr hfail

theorem Yields.mayAnswer {o : FileOp} {d d' : Disk} {r : o.Res} (h : Yields K o d r d') (j : Journal) :
    MayAnswer o (d, j) r (d', j ++ [⟨o, o.succeeded r⟩]) := by
  refine ⟨?_, rfl⟩
  rcases h with hok | ⟨k, -, hfail⟩
  · exact .inl hok
  · exact .inr ⟨k, hfail⟩

theorem MayAnswer.yields {o : FileOp} {s t : Disk × Journal} {r : o.Res} (h : MayAnswer o s r t) :
    Yields Set.univ o s.1 r t.1 := by
  rcases h.1 with hok | ⟨k, hfail⟩
  · exact .inl hok
  · exact .inr ⟨k, Set.mem_univ k, hfail⟩

/-- A specification of the disk alone, under a list of faults. -/
theorem All.noted {p : FileProg α} {Q : α → Disk → Prop} {d : Disk} (h : p.All (Yields Set.univ) d Q)
    (faults : Faults) :
    Q (execNoted p d faults).1 (execNoted p d faults).2.1 :=
  All.faulty (Prog.All.lift Prod.fst (fun _ _ _ _ hr => hr.yields) h) faults

/-- A specification of the disk alone, in a run. -/
theorem all_counted {p : FileProg α} {Q : α → Disk → Prop} {s : Run} (h : p.All (Yields K) s.disk Q) :
    p.All (Counted K) s fun a t => Q a t.disk :=
  Prog.All.lift Run.disk (fun _ _ _ _ hr => hr.yields) h

/-- A run in which nothing more failed is an ordinary one. -/
theorem all_faults (p : FileProg α) (s : Run) :
    p.All (Counted K) s fun r t => s.faults ≤ t.faults ∧ (t.faults = s.faults → (r, t.disk) = exec p s.disk) := by
  induction p generalizing s with
  | ret a => exact ⟨le_rfl, fun _ => rfl⟩
  | op o k ih =>
    intro r t hr
    refine (ih r t).mono ?_
    rintro a u ⟨hle, heq⟩
    rcases hr.1 with ⟨hok, hsame⟩ | ⟨-, hmore⟩
    · refine ⟨by omega, fun hu => (heq (by omega)).trans ?_⟩
      change exec (k r) t.disk = exec (k (answer o s.disk).1) (answer o s.disk).2
      rw [← hok]
    · exact ⟨by omega, fun hu => by omega⟩

/-- An answer other than the ordinary one comes from a failure. -/
theorem all_failed {p : FileProg α} {s : Run} {P : α → Prop} (hP : P (exec p s.disk).1) :
    p.All (Counted K) s fun r t => s.faults ≤ t.faults ∧ (P r ∨ s.faults + 1 ≤ t.faults) := by
  refine (all_faults p s).mono ?_
  rintro r t ⟨hle, heq⟩
  refine ⟨hle, ?_⟩
  by_cases hsame : t.faults = s.faults
  · left
    rw [show r = (exec p s.disk).1 from congrArg Prod.fst (heq hsame)]
    exact hP
  · exact .inr (by omega)

/-- How many calls a list of faults lets fail. -/
def Faults.count (faults : Faults) : ℕ := faults.countP Option.isSome

theorem all_runNoted {p : FileProg α} {Q : α → Run → Prop} {d : Disk} {j : Journal} {c : ℕ}
    (h : p.All (Counted K) ⟨d, j, c⟩ Q) (faults : Faults) (hK : ∀ k, some k ∈ faults → k ∈ K) :
    ∃ n ≤ c + Faults.count faults, Q (p.run answerNoted ((d, faults), j)).1
      ⟨(p.run answerNoted ((d, faults), j)).2.1.1, (p.run answerNoted ((d, faults), j)).2.2, n⟩ := by
  induction p generalizing d j c faults with
  | ret a => exact ⟨c, Nat.le_add_right _ _, h⟩
  | op o k ih =>
    rcases faults with _ | ⟨_ | b, faults⟩
    · exact ih _ (h _ ⟨(answer o d).2, _, c⟩ ⟨.inl ⟨rfl, rfl⟩, rfl⟩) [] hK
    · have hnone : Faults.count (none :: faults) = Faults.count faults := List.countP_cons_of_neg (by simp)
      rw [hnone]
      exact ih _ (h _ ⟨(answer o d).2, _, c⟩ ⟨.inl ⟨rfl, rfl⟩, rfl⟩) faults
        fun k hk => hK k (List.mem_cons_of_mem _ hk)
    · have hsome : Faults.count (some b :: faults) = Faults.count faults + 1 := List.countP_cons_of_pos rfl
      have hb : b ∈ K := hK b List.mem_cons_self
      obtain ⟨n, hn, hQ⟩ := ih _ (h _ ⟨(fault b o d).2, _, c + 1⟩ ⟨.inr ⟨⟨b, hb, rfl⟩, rfl⟩, rfl⟩) faults
        fun k hk => hK k (List.mem_cons_of_mem _ hk)
      exact ⟨n, by rw [hsome]; omega, hQ⟩

/-- **What holds for every way to fail holds for every list of faults**, and no more calls failed than the list
says. -/
theorem All.counted {p : FileProg α} {Q : α → Run → Prop} {d : Disk} (h : p.All (Counted K) ⟨d, [], 0⟩ Q)
    (faults : Faults) (hK : ∀ k, some k ∈ faults → k ∈ K) :
    ∃ n ≤ Faults.count faults,
      Q (execNoted p d faults).1 ⟨(execNoted p d faults).2.1, (execNoted p d faults).2.2, n⟩ := by
  obtain ⟨n, hn, hQ⟩ := all_runNoted h faults hK
  exact ⟨n, by rw [Nat.zero_add] at hn; exact hn, hQ⟩

end

end Disk

/-! ## Files that a program cannot reach -/

/-- The files at the paths in `S` are as they were. -/
structure Apart (S : Path → Prop) (d d' : Disk) : Prop where
  dir : ∀ q, S q → d'.dir q = d.dir q
  content : ∀ q i, S q → d.dir q = some i → (d'.files i).content = (d.files i).content
  sound : d'.Sound

/-- The file is not one at a path in `S`. -/
def Foreign (S : Path → Prop) (d : Disk) (i : ℕ) : Prop := ∀ q, S q → d.dir q ≠ some i

/-- A call through a handle of the file `i`, other than one that locks or unlocks it. -/
def FileOp.On (i : ℕ) : FileOp → Prop
  | .fstat f => f.inode = i
  | .readAt f _ _ => f.inode = i
  | .seek f _ => f.inode = i
  | .readFrom f _ => f.inode = i
  | .writeAt f _ _ => f.inode = i
  | .truncate f _ => f.inode = i
  | .fsync f => f.inode = i
  | .close f => f.inode = i
  | .mmap f _ => f.inode = i
  | .mapped f _ _ => f.inode = i
  | _ => False

/-- A call that reads bytes of a file. -/
def FileOp.Reading : FileOp → Prop
  | .readAt _ _ _ => True
  | .mapped _ _ _ => True
  | _ => False

/-- A call that does not change a file at a path in `S`. -/
def FileOp.Spares (S : Path → Prop) (d : Disk) : FileOp → Prop
  | .openFile p _ _ => ¬ S p
  | .writeAt f _ _ => Foreign S d f.inode
  | .truncate f _ => Foreign S d f.inode
  | .rename a b => ¬ S a ∧ ¬ S b
  | .remove p => ¬ S p
  | _ => True

/-- A call that leaves the files at the paths in `S` as they are. It may name such a path: to open a file that
is there, or to remove or rename one that is not. -/
def FileOp.Preserves (S : Path → Prop) (d : Disk) : FileOp → Prop
  | .openFile p _ trunc => S p → trunc = false ∧ d.dir p ≠ none
  | .rename a b => (S a → d.dir a = none) ∧ ¬ S b
  | .remove p => S p → d.dir p = none
  | o => o.Spares S d

section
variable {S : Path → Prop} {d d' : Disk}

theorem FileOp.Spares.preserves {o : FileOp} (ho : o.Spares S d) : o.Preserves S d := by
  cases o with
  | openFile p create trunc => exact fun hp => absurd hp ho
  | rename a b => exact ⟨fun ha => absurd ha ho.1, ho.2⟩
  | remove p => exact fun hp => absurd hp ho
  | writeAt f off b => exact ho
  | truncate f n => exact ho
  | _ => trivial

theorem spares_of_on {o : FileOp} {i : ℕ} (ho : o.On i) (hi : Foreign S d i) : o.Spares S d := by
  cases o with
  | writeAt f off b =>
    subst ho
    exact hi
  | truncate f n =>
    subst ho
    exact hi
  | openFile p create trunc => exact ho.elim
  | rename a b => exact ho.elim
  | remove p => exact ho.elim
  | _ => trivial

theorem spares_of_reading {o : FileOp} (ho : o.Reading) : o.Spares S d := by
  cases o with
  | readAt f off n => trivial
  | mapped f lo hi => trivial
  | _ => exact ho.elim

theorem apart_refl (hs : d.Sound) : Apart S d d := ⟨fun _ _ => rfl, fun _ _ _ _ => rfl, hs⟩

theorem Apart.bytesAt (h : Apart S d d') {q : Path} (hq : S q) : d'.bytesAt q = d.bytesAt q := by
  rw [Disk.bytesAt, Disk.bytesAt, h.dir q hq]
  cases hd : d.dir q with
  | none => rfl
  | some i => rw [Option.map_some, Option.map_some, h.content q i hq hd]

theorem Apart.mono (h : Apart S d d') {T : Path → Prop} (hT : ∀ q, T q → S q) : Apart T d d' :=
  ⟨fun q hq => h.dir q (hT q hq), fun q i hq => h.content q i (hT q hq), h.sound⟩

/-- Files of which only others changed. -/
theorem Apart.of_dir {d'' : Disk} (h : Apart S d d') (hdir : d''.dir = d'.dir) (hnext : d''.next = d'.next)
    (hcontent : ∀ q i, S q → d.dir q = some i → (d''.files i).content = (d'.files i).content) : Apart S d d'' :=
  ⟨fun q hq => by rw [hdir, h.dir q hq], fun q i hq hd => by rw [hcontent q i hq hd, h.content q i hq hd],
    h.sound.of_dir hdir hnext⟩

theorem Apart.setContent (h : Apart S d d') {f : OsFile} (hf : Foreign S d f.inode) (b : Bytes) :
    Apart S d (d'.setContent f.inode b) := by
  refine h.of_dir rfl rfl fun q i hq hd => ?_
  rw [Disk.files_setContent_ne]
  rintro rfl
  exact hf q hq hd

/-- A new file is none of the old ones. -/
theorem Apart.next_ne (h : Apart S d d') {q : Path} {i : ℕ} (hq : S q) (hd : d.dir q = some i) : i ≠ d'.next := by
  have hlt := h.sound.bounded q i (by rw [h.dir q hq, hd])
  omega

theorem ne_of_spared {p q : Path} (hq : S q) (hp : ¬ S p) : q ≠ p := by
  rintro rfl
  exact hp hq

theorem Apart.create (h : Apart S d d') {p : Path} (hp : ¬ S p) : Apart S d (d'.create p) := by
  refine ⟨fun q hq => ?_, fun q i hq hd => ?_, h.sound.create p⟩
  · rw [Disk.dir_create, Function.update_of_ne (ne_of_spared hq hp), h.dir q hq]
  · rw [Disk.files_create_ne _ _ _ (h.next_ne hq hd), h.content q i hq hd]

theorem Apart.remove (h : Apart S d d') {p : Path} (hp : ¬ S p) : Apart S d (d'.enqueue (.remove p)) := by
  refine ⟨fun q hq => ?_, h.content, h.sound.remove p⟩
  rw [Disk.dir_enqueue, DirOp.apply, Function.update_of_ne (ne_of_spared hq hp), h.dir q hq]

theorem Apart.rename (h : Apart S d d') {a b : Path} (ha : ¬ S a) (hb : ¬ S b) :
    Apart S d (d'.enqueue (.rename a b)) := by
  refine ⟨fun q hq => ?_, h.content, h.sound.rename a b⟩
  rw [Disk.dir_enqueue, DirOp.apply, ← h.dir q hq]
  cases d'.dir a with
  | none => rfl
  | some i =>
    dsimp only
    rw [Function.update_of_ne (ne_of_spared hq hb), Function.update_of_ne (ne_of_spared hq ha)]

theorem Apart.onOpen (h : Apart S d d') {α : Type} {f : OsFile} {k : Except OsError α × Disk} (hk : Apart S d k.2) :
    Apart S d (Disk.onOpen f d' k).2 := by
  unfold Disk.onOpen
  split
  · exact hk
  · exact h

/-- A call that succeeds. -/
theorem Apart.answer (h : Apart S d d') {o : FileOp} (ho : o.Preserves S d) : Apart S d (Disk.answer o d').2 := by
  cases o with
  | stat p => exact h
  | openFile p create trunc =>
    simp only [Disk.answer]
    cases hp : d'.dir p with
    | none =>
      -- a path in `S` would have its file
      have hnot : ¬ S p := fun hS => (ho hS).2 (by rw [← h.dir p hS, hp])
      dsimp only
      split
      · exact h.create hnot
      · exact h
    | some i =>
      dsimp only
      split
      · rename_i htrunc
        have hnot : ¬ S p := fun hS => Bool.false_ne_true ((ho hS).1.symm.trans htrunc)
        refine h.of_dir rfl rfl fun q j hq hd => ?_
        rw [Disk.files_setContent_ne]
        rintro rfl
        exact ne_of_spared hq hnot (h.sound.distinct _ _ _ (by rw [h.dir q hq, hd]) hp)
      · exact h
  | fstat f => exact h.onOpen h
  | readAt f off n => exact h.onOpen h
  | seek f off => exact h.onOpen h
  | readFrom f off => exact h.onOpen h
  | writeAt f off b => exact h.onOpen (h.setContent ho _)
  | truncate f n =>
    have hcut : Apart S d (d'.cut f.inode n) := by
      refine h.of_dir rfl rfl fun q i hq hd => ?_
      have hne : i ≠ f.inode := by
        rintro rfl
        exact ho q hq hd
      rw [(touched_cut d' f.inode n).others i hne]
    exact h.onOpen (hcut.setContent ho _)
  | fsync f => exact h.onOpen (h.of_dir rfl rfl fun _ _ _ _ => Disk.content_syncFile _ _ _)
  | close f => exact h.onOpen h
  | rename a b =>
    simp only [Disk.answer]
    split
    · rename_i hsome
      exact h.rename (fun hS => Option.isSome_iff_ne_none.mp hsome (by rw [h.dir a hS, ho.1 hS])) ho.2
    · exact h
  | remove p =>
    simp only [Disk.answer]
    split
    · rename_i hsome
      exact h.remove fun hS => Option.isSome_iff_ne_none.mp hsome (by rw [h.dir p hS, ho hS])
    · exact h
  | syncDir p => exact h.of_dir (Disk.dir_syncNames _) rfl fun _ _ _ _ => rfl
  | mmap f n => exact h.onOpen h
  | mapped f lo hi => exact h
  | flock f =>
    refine h.onOpen ?_
    split
    · exact h
    · exact h.of_dir rfl rfl fun _ _ _ _ => rfl
  | funlock f => exact h.onOpen (h.of_dir rfl rfl fun _ _ _ _ => rfl)

/-- A call that fails. -/
theorem Apart.fault (h : Apart S d d') {o : FileOp} (ho : o.Preserves S d) (k : ℕ) :
    Apart S d (Disk.fault k o d').2 := by
  cases o with
  | writeAt f off b => exact h.onOpen (h.setContent ho _)
  | _ => exact h

/-- A handle that was opened under another name. -/
theorem Apart.foreign (h : Apart S d d') {p : Path} (hp : ¬ S p) {create trunc : Bool} {f : OsFile}
    (hf : (Disk.answer (.openFile p create trunc) d').1 = .ok f) : Foreign S d f.inode := by
  intro q hq hd
  simp only [Disk.answer] at hf
  cases hdir : d'.dir p with
  | some i =>
    rw [hdir] at hf
    cases hf
    exact ne_of_spared hq hp (h.sound.distinct _ _ _ (by rw [h.dir q hq, hd]) hdir)
  | none =>
    rw [hdir] at hf
    dsimp only at hf
    split at hf
    · cases hf
      exact h.next_ne hq hd rfl
    · cases hf

end

namespace Disk

section
variable {S : Path → Prop} {d : Disk} {α : Type}

theorem MayAnswer.apart {o : FileOp} {s t : Disk × Journal} {r : o.Res} (h : MayAnswer o s r t) (hs : Apart S d s.1)
    (ho : o.Preserves S d) : Apart S d t.1 := by
  rcases h.1 with hok | ⟨k, hfail⟩
  · rw [show t.1 = (answer o s.1).2 from congrArg Prod.snd hok]
    exact hs.answer ho
  · rw [show t.1 = (Disk.fault k o s.1).2 from congrArg Prod.snd hfail]
    exact hs.fault ho k

/-- The handle that opening another name gives. -/
theorem MayAnswer.foreign {p : Path} {create trunc : Bool} {s t : Disk × Journal} {f : OsFile}
    (h : MayAnswer (.openFile p create trunc) s (.ok f) t) (hs : Apart S d s.1) (hp : ¬ S p) : Foreign S d f.inode := by
  rcases h.1 with hok | ⟨k, hfail⟩
  · exact hs.foreign hp (congrArg Prod.fst hok).symm
  · cases congrArg Prod.fst hfail

end

end Disk

namespace Disk

section
variable {S : Path → Prop} {d : Disk} {K : Set ℕ}

theorem Yields.apart {o : FileOp} {d' d'' : Disk} {r : o.Res} (h : Yields K o d' r d'') (hs : Apart S d d')
    (ho : o.Spares S d) : Apart S d d'' :=
  (h.mayAnswer []).apart hs ho.preserves

end

end Disk

/-! ## The calls by name, when they may fail -/

/-- A call that does not change the disk. -/
def FileOp.Observes : FileOp → Prop
  | .stat _ => True
  | .fstat _ => True
  | .readAt _ _ _ => True
  | .seek _ _ => True
  | .readFrom _ _ => True
  | .close _ => True
  | .mmap _ _ => True
  | .mapped _ _ _ => True
  | _ => False

namespace Disk

section
variable {K : Set ℕ} {d : Disk}

theorem onOpen_snd {α : Type} (f : OsFile) (d : Disk) (r : Except OsError α) : (onOpen f d (r, d)).2 = d := by
  unfold onOpen
  split <;> rfl

theorem Yields.same {o : FileOp} {d' : Disk} {r : o.Res} (h : Yields K o d r d') (ho : o.Observes) : d' = d := by
  have hanswer : (answer o d).2 = d := by
    cases o with
    | stat p => rfl
    | mapped f lo hi => rfl
    | fstat f => exact onOpen_snd f d _
    | readAt f off n => exact onOpen_snd f d _
    | seek f off => exact onOpen_snd f d _
    | readFrom f off => exact onOpen_snd f d _
    | close f => exact onOpen_snd f d _
    | mmap f n => exact onOpen_snd f d _
    | _ => exact ho.elim
  rcases h with hok | ⟨k, -, hfail⟩
  · exact (congrArg Prod.snd hok).trans hanswer
  · refine (congrArg Prod.snd hfail).trans ?_
    cases o with
    | writeAt f off b => exact ho.elim
    | _ => rfl

theorem Yields.sound {o : FileOp} {d' : Disk} {r : o.Res} (h : Yields K o d r d') (hs : d.Sound) : d'.Sound := by
  rcases h with hok | ⟨k, -, hfail⟩
  · rw [show d' = (answer o d).2 from congrArg Prod.snd hok]
    exact hs.answer o
  · rw [show d' = (fault k o d).2 from congrArg Prod.snd hfail]
    cases o with
    | writeAt f off b =>
      simp only [fault, onOpen]
      split
      · exact hs.of_dir rfl rfl
      · exact hs
    | _ => exact hs

theorem all_sound {α : Type} (hs : d.Sound) (p : FileProg α) : p.All (Yields K) d fun _ d' => d'.Sound :=
  Prog.All.mono ((Prog.each_any p).all (fun _ _ _ _ _ hs hr => hr.sound hs) hs) fun _ _ h => h.1

/-- A program that only observes. -/
theorem all_observes {α : Type} {p : FileProg α} {Q : α → Prop} (hp : p.Each FileOp.Observes Q) :
    p.All (Yields K) d fun a d' => d' = d ∧ Q a :=
  hp.all (I := fun d' => d' = d) (fun _ _ _ _ ho hs hr => (hr.same ho).trans hs) rfl

theorem all_fstat {f : OsFile} (hopen : f.isOpen = true) :
    (Sys.fstat f).All (Yields K) d fun r d' => d' = d ∧ ∀ n, r = .ok n → n = (d.files f.inode).content.length := by
  refine Prog.all_perform fun r d' h => ⟨h.same trivial, ?_⟩
  rintro n rfl
  rcases h with hok | ⟨k, -, hfail⟩
  · have hres := congrArg Prod.fst hok
    simp only [answer, onOpen_open hopen] at hres
    exact Except.ok.inj hres
  · cases congrArg Prod.fst hfail

theorem all_readAt {f : OsFile} (hopen : f.isOpen = true) (off n : ℕ) :
    (Sys.readAt f off n).All (Yields K) d fun r d' => d' = d ∧
      ∀ b, r = .ok b → b = slice (d.files f.inode).content off (off + n) := by
  refine Prog.all_perform fun r d' h => ⟨h.same trivial, ?_⟩
  rintro b rfl
  rcases h with hok | ⟨k, -, hfail⟩
  · have hres := congrArg Prod.fst hok
    simp only [answer, onOpen_open hopen] at hres
    split at hres
    · exact Except.ok.inj hres
    · cases hres
  · cases congrArg Prod.fst hfail

theorem all_mapped (f : OsFile) (lo hi : ℕ) :
    (Sys.mapped f lo hi).All (Yields K) d fun r d' => d' = d ∧ r = slice (d.files f.inode).content lo hi := by
  refine Prog.all_perform fun r d' h => ⟨h.same trivial, ?_⟩
  rcases h with hok | ⟨k, -, hfail⟩
  · exact congrArg Prod.fst hok
  · exact congrArg Prod.fst hfail

theorem all_writeAt {f : OsFile} (hopen : f.isOpen = true) (off : ℕ) (b : Bytes) :
    (Sys.writeAt f off b).All (Yields K) d fun r d' =>
      (∀ u, r = .ok u → d' = d.setContent f.inode (writeAt (d.files f.inode).content off b)) ∧
        ∀ e, r = .error e → ∃ k ∈ K, d' = d.setContent f.inode (writeAt (d.files f.inode).content off (b.take k)) := by
  refine Prog.all_perform fun r d' h => ?_
  rcases h with hok | ⟨k, hk, hfail⟩
  · simp only [answer, onOpen_open hopen] at hok
    cases hok
    exact ⟨fun _ _ => rfl, fun e he => by cases he⟩
  · simp only [fault, onOpen_open hopen] at hfail
    cases hfail
    exact ⟨fun u hu => (by cases hu), fun e he => ⟨k, hk, rfl⟩⟩

theorem all_fsync (f : OsFile) :
    (Sys.fsync f).All (Yields K) d fun _ d' => d' = d ∨ d' = d.syncFile f.inode := by
  refine Prog.all_perform fun r d' h => ?_
  rcases h with hok | ⟨k, -, hfail⟩
  · simp only [answer, onOpen] at hok
    split at hok
    · exact .inr (congrArg Prod.snd hok)
    · exact .inl (congrArg Prod.snd hok)
  · exact .inl (congrArg Prod.snd hfail)

/-- Opening a file that is there. -/
theorem all_open_some {p : Path} {i : ℕ} (hp : d.dir p = some i) (create : Bool) :
    (Sys.openFile p create false).All (Yields K) d fun r d' => d' = d ∧ ∀ f, r = .ok f → f = ⟨i, true⟩ := by
  refine Prog.all_perform fun r d' h => ?_
  rcases h with hok | ⟨k, -, hfail⟩
  · simp only [answer, hp] at hok
    cases hok
    exact ⟨rfl, fun f hf => (Except.ok.inj hf).symm⟩
  · cases hfail
    exact ⟨rfl, fun f hf => by cases hf⟩

/-- Opening a file that is not there creates it. -/
theorem all_open_none {p : Path} (hp : d.dir p = none) (trunc : Bool) :
    (Sys.openFile p true trunc).All (Yields K) d fun r d' =>
      (∀ f, r = .ok f → f = ⟨d.next, true⟩ ∧ d' = d.create p) ∧ ∀ e, r = .error e → d' = d := by
  refine Prog.all_perform fun r d' h => ?_
  rcases h with hok | ⟨k, -, hfail⟩
  · simp only [answer, hp, if_true] at hok
    cases hok
    exact ⟨fun f hf => ⟨(Except.ok.inj hf).symm, rfl⟩, fun e he => by cases he⟩
  · cases hfail
    exact ⟨fun f hf => (by cases hf), fun e he => rfl⟩

end

end Disk

/-! ## Names that a program does not use -/

/-- Two disks with the same files, and with the same directory but for the names in `S`. -/
structure AgreeOff (S : Path → Prop) (d d' : Disk) : Prop where
  dir : ∀ q, ¬ S q → d'.dir q = d.dir q
  files : d'.files = d.files
  next : d'.next = d.next
  locked : d'.locked = d.locked
  mappable : d'.mappable = d.mappable

/-- A call that names no path in `S`. -/
def FileOp.Avoids (S : Path → Prop) : FileOp → Prop
  | .stat p => ¬ S p
  | .openFile p _ _ => ¬ S p
  | .rename a b => ¬ S a ∧ ¬ S b
  | .remove p => ¬ S p
  | _ => True

theorem avoids_of_on {S : Path → Prop} {o : FileOp} {i : ℕ} (ho : o.On i) : o.Avoids S := by
  cases o with
  | stat p => exact ho.elim
  | openFile p create trunc => exact ho.elim
  | rename a b => exact ho.elim
  | remove p => exact ho.elim
  | _ => trivial

namespace AgreeOff

section
variable {S : Path → Prop} {d d' : Disk}

theorem create (h : AgreeOff S d d') (p : Path) : AgreeOff S (d.create p) (d'.create p) := by
  refine ⟨fun q hq => ?_, ?_, ?_, ?_, h.mappable⟩
  · rw [Disk.dir_create, Disk.dir_create, h.next]
    by_cases hp : q = p
    · rw [hp, Function.update_self, Function.update_self]
    · rw [Function.update_of_ne hp, Function.update_of_ne hp, h.dir q hq]
  · change Function.update d'.files d'.next _ = Function.update d.files d.next _
    rw [h.files, h.next]
  · rw [Disk.next_create, Disk.next_create, h.next]
  · change Function.update d'.locked d'.next _ = Function.update d.locked d.next _
    rw [h.locked, h.next]

theorem remove (h : AgreeOff S d d') (p : Path) : AgreeOff S (d.enqueue (.remove p)) (d'.enqueue (.remove p)) := by
  refine ⟨fun q hq => ?_, h.files, h.next, h.locked, h.mappable⟩
  rw [Disk.dir_enqueue, Disk.dir_enqueue, DirOp.apply, DirOp.apply]
  by_cases hp : q = p
  · rw [hp, Function.update_self, Function.update_self]
  · rw [Function.update_of_ne hp, Function.update_of_ne hp, h.dir q hq]

theorem rename (h : AgreeOff S d d') {a b : Path} (ha : ¬ S a) :
    AgreeOff S (d.enqueue (.rename a b)) (d'.enqueue (.rename a b)) := by
  refine ⟨fun q hq => ?_, h.files, h.next, h.locked, h.mappable⟩
  rw [Disk.dir_enqueue, Disk.dir_enqueue, DirOp.apply, DirOp.apply, h.dir a ha]
  cases d.dir a with
  | none => exact h.dir q hq
  | some i =>
    dsimp only
    rw [Function.update_apply, Function.update_apply, Function.update_apply, Function.update_apply, h.dir q hq]

/-- Changes of the files alone. -/
theorem of_files (h : AgreeOff S d d') {e e' : Disk} (hdir : e.dir = d.dir) (hdir' : e'.dir = d'.dir)
    (hnext : e.next = d.next) (hnext' : e'.next = d'.next) (hfiles : e'.files = e.files)
    (hlocked : e'.locked = e.locked)
    (hmap : e.mappable = d.mappable) (hmap' : e'.mappable = d'.mappable) : AgreeOff S e e' :=
  ⟨fun q hq => by rw [hdir, hdir', h.dir q hq], hfiles, by rw [hnext, hnext', h.next], hlocked,
    by rw [hmap, hmap', h.mappable]⟩

theorem setContent (h : AgreeOff S d d') (i : ℕ) (b : Bytes) : AgreeOff S (d.setContent i b) (d'.setContent i b) := by
  refine h.of_files rfl rfl rfl rfl ?_ h.locked rfl rfl
  change Function.update d'.files i _ = Function.update d.files i _
  rw [h.files]

theorem onOpen (h : AgreeOff S d d') {α : Type} (f : OsFile) {k k' : Except OsError α × Disk} (hk : k'.1 = k.1)
    (hd : AgreeOff S k.2 k'.2) :
    (Disk.onOpen f d' k').1 = (Disk.onOpen f d k).1 ∧ AgreeOff S (Disk.onOpen f d k).2 (Disk.onOpen f d' k').2 := by
  unfold Disk.onOpen
  split
  · exact ⟨hk, hd⟩
  · exact ⟨rfl, h⟩

/-- A call that avoids the names is answered alike. -/
theorem answer (h : AgreeOff S d d') {o : FileOp} (ho : o.Avoids S) :
    (Disk.answer o d').1 = (Disk.answer o d).1 ∧ AgreeOff S (Disk.answer o d).2 (Disk.answer o d').2 := by
  cases o with
  | stat p =>
    simp only [Disk.answer]
    rw [h.dir p ho]
    exact ⟨rfl, h⟩
  | openFile p create trunc =>
    simp only [Disk.answer]
    rw [h.dir p ho]
    cases hp : d.dir p with
    | none =>
      dsimp only
      split
      · exact ⟨by rw [h.next], h.create p⟩
      · exact ⟨rfl, h⟩
    | some i =>
      dsimp only
      split
      · exact ⟨rfl, h.setContent i []⟩
      · exact ⟨rfl, h⟩
  | fstat f => exact h.onOpen f (by rw [h.files]) h
  | readAt f off n => exact h.onOpen f (by dsimp only; rw [h.files]) h
  | seek f off => exact h.onOpen f rfl h
  | readFrom f off => exact h.onOpen f (by rw [h.files]) h
  | writeAt f off b => exact h.onOpen f rfl (by dsimp only; rw [h.files]; exact h.setContent _ _)
  | truncate f n =>
    refine h.onOpen f rfl ?_
    dsimp only
    have hcut : AgreeOff S (d.cut f.inode n) (d'.cut f.inode n) := by
      refine h.of_files rfl rfl rfl rfl ?_ h.locked rfl rfl
      change Function.update d'.files f.inode _ = Function.update d.files f.inode _
      rw [h.files]
    rw [h.files]
    exact hcut.setContent _ _
  | fsync f =>
    refine h.onOpen f rfl (h.of_files rfl rfl rfl rfl ?_ h.locked rfl rfl)
    change Function.update d'.files f.inode _ = Function.update d.files f.inode _
    rw [h.files]
  | close f => exact h.onOpen f rfl h
  | rename a b =>
    simp only [Disk.answer]
    rw [h.dir a ho.1]
    split
    · exact ⟨rfl, h.rename ho.1⟩
    · exact ⟨rfl, h⟩
  | remove p =>
    simp only [Disk.answer]
    rw [h.dir p ho]
    split
    · exact ⟨rfl, h.remove p⟩
    · exact ⟨rfl, h⟩
  | syncDir p => exact ⟨rfl, h.of_files rfl rfl rfl rfl h.files h.locked rfl rfl⟩
  | mmap f n => exact h.onOpen f (by rw [h.mappable]) h
  | mapped f lo hi => exact ⟨by simp only [Disk.answer]; rw [h.files], h⟩
  | flock f =>
    simp only [Disk.answer]
    rw [h.locked]
    refine h.onOpen f ?_ ?_
    · split <;> rfl
    · split
      · exact h
      · refine h.of_files rfl rfl rfl rfl h.files ?_ rfl rfl
        change Function.update d'.locked f.inode true = Function.update d.locked f.inode true
        rw [h.locked]
  | funlock f =>
    refine h.onOpen f rfl (h.of_files rfl rfl rfl rfl h.files ?_ rfl rfl)
    change Function.update d'.locked f.inode false = Function.update d.locked f.inode false
    rw [h.locked]

/-- **A program runs alike on disks that agree on the names it uses.** -/
theorem exec (h : AgreeOff S d d') {α : Type} {p : FileProg α} {Q : α → Prop} (hp : p.Each (FileOp.Avoids S) Q) :
    (Disk.exec p d').1 = (Disk.exec p d).1 ∧ AgreeOff S (Disk.exec p d).2 (Disk.exec p d').2 := by
  unfold Disk.exec
  induction hp generalizing d d' with
  | ret hQ => exact ⟨rfl, h⟩
  | op hP _ ih =>
    obtain ⟨hans, hnext⟩ := h.answer hP
    simp only [Prog.run]
    rw [hans]
    exact ih _ hnext

end

end AgreeOff

end AppendStore.Library
