import AppendStore.Library.BufferedWriter
import AppendStore.Library.Crashes

/-! # Putting a file in place

A program that replaces a file writes the new one under a temporary name, makes it durable, renames it over
the old one and syncs the directory (`publish`). Any of its calls may fail, and the machine may lose power at
any instant. `always_publish`: whatever happens, what is found under the name afterwards is the old file or the
whole new one, and once the program has reported success it is the new one.

Three notions carry this. `Always R I p s Q` is `All` with an invariant at every instant. `Loud B p`: a
failure of a call shows in the answer of `p`, so that a run that does not answer so went as it goes without
failures. `Intact lossy q d t`: from `d` to `t` nothing happened to what is durable under the name `q`.
-/

namespace AppendStore.Library
set_option autoImplicit false

/-! ## Every instant of every run -/

namespace Prog

section
variable {Op : Type} {Res : Op → Type} {α β σ τ ε : Type} {R : (o : Op) → σ → Res o → σ → Prop} {I : σ → Prop}

/-- Whatever the environment answers, `I` holds at every instant, and the program ends with `Q`. -/
def Always (R : (o : Op) → σ → Res o → σ → Prop) (I : σ → Prop) : Prog Op Res α → σ → (α → σ → Prop) → Prop
  | .ret a, s, Q => I s ∧ Q a s
  | .op o k, s, Q => I s ∧ ∀ r t, R o s r t → Always R I (k r) t Q

variable {Q : α → σ → Prop} {Q' : β → σ → Prop} {s : σ}

theorem always_perform {o : Op} {Q : Res o → σ → Prop} (hI : I s) (h : ∀ r t, R o s r t → I t ∧ Q r t) :
    Always R I (perform o : Prog Op Res (Res o)) s Q := ⟨hI, h⟩

theorem always_bind {p : Prog Op Res α} {f : α → Prog Op Res β}
    (h : Always R I p s fun a t => Always R I (f a) t Q') : Always R I (p >>= f) s Q' := by
  change Always R I (p.bind f) s Q'
  induction p generalizing s with
  | ret a => exact h.2
  | op o k ih => exact ⟨h.1, fun r t hr => ih r (h.2 r t hr)⟩

theorem Always.mono {p : Prog Op Res α} {J : σ → Prop} {Q₁ : α → σ → Prop} (h : Always R I p s Q)
    (hI : ∀ t, I t → J t) (hQ : ∀ a t, Q a t → Q₁ a t) : Always R J p s Q₁ := by
  induction p generalizing s with
  | ret a => exact ⟨hI s h.1, hQ a s h.2⟩
  | op o k ih => exact ⟨hI s h.1, fun r t hr => ih r (h.2 r t hr)⟩

/-- What is known about the end apart from the instants. -/
theorem Always.and {p : Prog Op Res α} {Q₁ : α → σ → Prop} (h : Always R I p s Q) (h₁ : All R p s Q₁) :
    Always R I p s fun a t => Q a t ∧ Q₁ a t := by
  induction p generalizing s with
  | ret a => exact ⟨h.1, h.2, h₁⟩
  | op o k ih => exact ⟨h.1, fun r t hr => ih r (h.2 r t hr) (h₁ r t hr)⟩

theorem always_orElse {p : Prog Op Res (Except ε α)} {bad : ε → Prog Op Res β} {good : α → Prog Op Res β}
    {Q : Except ε α → σ → Prop} (h : Always R I p s Q) (hbad : ∀ e t, Q (.error e) t → Always R I (bad e) t Q')
    (hgood : ∀ a t, Q (.ok a) t → Always R I (good a) t Q') : Always R I (p.orElse bad good) s Q' := by
  refine always_bind (h.mono (fun _ ht => ht) ?_)
  intro r t hr
  cases r with
  | ok a => exact hgood a t hr
  | error e => exact hbad e t hr

/-- What every operation of a program keeps holds at all its instants. -/
theorem Each.always {P : Op → Prop} {p : Prog Op Res α} {Q : α → Prop} (hp : Each P Q p)
    (hI : ∀ o s r t, P o → I s → R o s r t → I t) (hs : I s) : Always R I p s fun a t => I t ∧ Q a := by
  induction hp generalizing s with
  | ret hQ => exact ⟨hs, hs, hQ⟩
  | op hP _ ih => exact ⟨hs, fun r t hr => ih r (hI _ s r t hP hs hr)⟩

theorem Each.imp {P P' : Op → Prop} {p : Prog Op Res α} {Q : α → Prop} (hp : Each P Q p) (h : ∀ o, P o → P' o) :
    Each P' Q p := by
  induction hp with
  | ret hQ => exact .ret hQ
  | op hP _ ih => exact .op (h _ hP) ih

/-- The instants of a run in an environment that answers as `R` allows. -/
theorem Always.visits {p : Prog Op Res α} {f : (o : Op) → τ → Res o × τ} {g : τ → σ} {x y : τ}
    (h : Always R I p (g x) Q) (hf : ∀ o x, R o (g x) (f o x).1 (g (f o x).2)) (hv : Visits f p x y) : I (g y) := by
  induction hv with
  | here p x =>
    cases p with
    | ret a => exact h.1
    | op o k => exact h.1
  | next o k x y _ ih => exact ih (h.2 _ _ (hf o x))

theorem Always.run {p : Prog Op Res α} {f : (o : Op) → τ → Res o × τ} {g : τ → σ} {x : τ}
    (h : Always R I p (g x) Q) (hf : ∀ o x, R o (g x) (f o x).1 (g (f o x).2)) :
    Q (p.run f x).1 (g (p.run f x).2) := by
  induction p generalizing x with
  | ret a => exact h.2
  | op o k ih => exact ih _ (h.2 _ _ (hf o x))

end

end Prog

namespace Disk

/-- A run under a list of faults is one of the runs in which any call may fail. -/
theorem yields_faulty (o : FileOp) (x : Disk × Faults) :
    Yields Set.univ o x.1 (answerFaulty o x).1 (answerFaulty o x).2.1 := by
  obtain ⟨d, faults⟩ := x
  rcases faults with _ | ⟨_ | k, faults⟩
  · exact .inl rfl
  · exact .inl rfl
  · exact .inr ⟨k, Set.mem_univ k, rfl⟩

end Disk

/-! ## Programs that report every failure -/

section
variable {α β ε : Type} {K : Set ℕ}

/-- The program goes as it goes without failures, or its answer has `B`. -/
def Loud (K : Set ℕ) (B : α → Prop) (p : FileProg α) : Prop :=
  ∀ d, p.All (Disk.Yields K) d fun r d' => B r ∨ (r, d') = Disk.exec p d

/-- A failure of a call. -/
def Faulted (r : Except OsError α) : Prop := r = .error .io

/-- An answer that reports an error. -/
def Failed (r : Except ε α) : Prop := ∃ e, r = .error e

theorem all_answers {B : α → Prop} {p : FileProg α} (hp : p.Each (fun _ => True) B) (d : Disk) :
    p.All (Disk.Yields K) d fun r _ => B r :=
  (hp.all (I := fun _ => True) (fun _ _ _ _ _ _ _ => trivial) trivial).mono fun _ _ h => h.2

theorem loud_of_each {B : α → Prop} {p : FileProg α} (hp : p.Each (fun _ => True) B) : Loud K B p := fun d =>
  (all_answers hp d).mono fun _ _ h => .inl h

theorem loud_pure (B : α → Prop) (a : α) : Loud K B (pure a) := fun _ => .inr rfl

theorem loud_call {o : FileOp} {B : o.Res → Prop} (hB : ∀ k d, B (Disk.fault k o d).1) : Loud K B (Sys.call o) := by
  intro d
  refine Prog.all_perform fun r t hr => ?_
  rcases hr with hok | ⟨k, -, hfail⟩
  · exact .inr hok
  · left
    rw [show r = (Disk.fault k o d).1 from congrArg Prod.fst hfail]
    exact hB k d

/-- A write that fails says so, whatever part of it was written. -/
theorem loud_writeAt (f : OsFile) (off : ℕ) (b : Bytes) : Loud K Failed (Sys.writeAt f off b) := by
  refine loud_call (o := .writeAt f off b) fun k d => ?_
  simp only [Disk.fault, Disk.onOpen]
  split
  · exact ⟨_, rfl⟩
  · exact ⟨_, rfl⟩

/-- After a failure that shows, the rest of the program has to show it too. -/
theorem loud_bind {B : α → Prop} {B' : β → Prop} {p : FileProg α} {f : α → FileProg β} (hp : Loud K B p)
    (hfail : ∀ a, B a → (f a).Each (fun _ => True) B') (hf : ∀ a, Loud K B' (f a)) : Loud K B' (p >>= f) := by
  intro d
  refine Prog.all_bind ((hp d).mono ?_)
  rintro a d1 (hB | heq)
  · exact (all_answers (hfail a hB) d1).mono fun _ _ h => .inl h
  · refine (hf a d1).mono ?_
    rintro b d2 (hB | hb)
    · exact .inl hB
    · right
      rw [hb, Disk.exec_bind_eq heq.symm]

theorem loud_orElse {B : β → Prop} {p : FileProg (Except OsError α)} {bad : OsError → FileProg β}
    {good : α → FileProg β} (hp : Loud K Faulted p) (hfail : (bad .io).Each (fun _ => True) B)
    (hbad : ∀ e, Loud K B (bad e))
    (hgood : ∀ a, Loud K B (good a)) : Loud K B (p.orElse bad good) := by
  refine loud_bind hp ?_ ?_
  · rintro r rfl
    exact hfail
  · intro r
    cases r with
    | ok a => exact hgood a
    | error e => exact hbad e

theorem loud_andThen {p : FileProg (Except ε α)} {good : α → FileProg (Except ε β)} (hp : Loud K Failed p)
    (hgood : ∀ a, Loud K Failed (good a)) : Loud K Failed (p.andThen good) := by
  refine loud_bind hp ?_ ?_
  · rintro r ⟨e, rfl⟩
    exact .ret ⟨e, rfl⟩
  · intro r
    cases r with
    | ok a => exact hgood a
    | error e => exact loud_pure _ _

/-- A program that reports success did what it does without failures. -/
theorem Loud.ok {p : FileProg (Except ε α)} (hp : Loud K Failed p) (d : Disk) :
    p.All (Disk.Yields K) d fun r d' => ∀ a, r = .ok a → Disk.exec p d = (.ok a, d') := by
  refine (hp d).mono ?_
  rintro r d' (⟨e, rfl⟩ | heq) a hr
  · cases hr
  · rw [← heq, hr]

end

/-! ## A buffered writer reports every failure

A failure stays with the writer, and the flush reports it. -/

namespace BufferedWriter

section
variable {K : Set ℕ}

theorem loud_writeFile (w : BufferedWriter) (b : Bytes) :
    Loud K (fun r => Failed r.1 ∧ r.2.err ≠ none) (w.writeFile b) := by
  refine loud_bind (loud_writeAt w.file w.offset b) ?_ ?_
  · rintro r ⟨e, rfl⟩
    exact .ret ⟨⟨e, rfl⟩, Option.some_ne_none e⟩
  · intro r
    cases r with
    | ok u => exact loud_pure _ _
    | error e => exact loud_pure _ _

theorem loud_flush (w : BufferedWriter) : Loud K (fun r => Failed r.1 ∧ r.2.err ≠ none) w.flush := by
  unfold flush
  split
  · exact loud_pure _ _
  split
  · exact loud_pure _ _
  · refine loud_bind (loud_writeFile w w.buffered) ?_ ?_
    · rintro ⟨r, w'⟩ ⟨⟨e, rfl⟩, herr⟩
      exact .ret ⟨⟨e, rfl⟩, herr⟩
    · rintro ⟨r, w'⟩
      cases r with
      | ok u => exact loud_pure _ _
      | error e => exact loud_pure _ _

theorem spill_err (fuel : ℕ) {w : BufferedWriter} (herr : w.err ≠ none) (b : Bytes) :
    spill fuel w b = pure (w, b) := by
  cases fuel with
  | zero => rfl
  | succ fuel =>
    unfold spill
    exact if_neg fun hc => herr hc.2

theorem each_write_err {w : BufferedWriter} (herr : w.err ≠ none) (b : Bytes) :
    (w.write b).Each (fun _ => True) fun w' => w'.err ≠ none := by
  unfold write
  rw [spill_err 2 herr]
  change Prog.Each _ _ (if w.err = none then pure _ else pure w)
  rw [if_neg herr]
  exact .ret herr

theorem loud_spill (fuel : ℕ) (w : BufferedWriter) (b : Bytes) :
    Loud K (fun r => r.1.err ≠ none) (spill fuel w b) := by
  have hstop : ∀ {fuel : ℕ} {w : BufferedWriter} (b : Bytes), w.err ≠ none →
      (spill fuel w b).Each (fun _ => True) fun r => r.1.err ≠ none := by
    intro fuel w b herr
    rw [spill_err fuel herr]
    exact .ret herr
  induction fuel generalizing w b with
  | zero => exact loud_pure _ _
  | succ fuel ih =>
    unfold spill
    split
    · split
      · exact loud_bind (loud_writeFile w b) (fun r hr => hstop _ hr.2) fun r => ih _ _
      · exact loud_bind (loud_flush _) (fun r hr => hstop _ hr.2) fun r => ih _ _
    · exact loud_pure _ _

theorem loud_write (w : BufferedWriter) (b : Bytes) : Loud K (fun w' => w'.err ≠ none) (w.write b) := by
  refine loud_bind (loud_spill 2 w b) ?_ ?_
  · rintro ⟨w', rest⟩ herr
    dsimp only at herr ⊢
    rw [if_neg herr]
    exact .ret herr
  · rintro ⟨w', rest⟩
    dsimp only
    split
    · exact loud_pure _ _
    · exact loud_pure _ _

end

end BufferedWriter

/-! ## What is durable under a name -/

/-- From `d` to `t` nothing happened to what is under the name `q`, whatever a crash loses. -/
structure Intact (lossy : DirOp → Prop) (q : Path) (d t : Disk) : Prop where
  apart : Apart (· = q) d t
  name : ∀ n, t.Leaves lossy n → n q = d.dir q
  synced : ∀ i, d.dir q = some i → (t.files i).synced = (d.files i).content

/-- A call that writes no file and binds no name. -/
def FileOp.Idle : FileOp → Prop
  | .syncDir _ => True
  | .funlock _ => True
  | o => o.Observes

section
variable {lossy : DirOp → Prop} {K : Set ℕ} {q : Path} {d s t : Disk} {o : FileOp}

theorem not_binds_of_spares (ho : o.Spares (· = q) d) : ¬ o.Binds q := by
  cases o with
  | openFile p create trunc => exact fun h => ho h.2
  | rename a b => exact fun h => h.elim ho.1 ho.2
  | remove p => exact ho
  | _ => exact id

theorem intact_of_settled (hs : d.Sound) (hpending : d.pending = [])
    (hsynced : ∀ i, d.dir q = some i → (d.files i).synced = (d.files i).content) : Intact lossy q d d :=
  ⟨apart_refl hs, fun _ hn => by rw [Disk.leaves_settled hpending hn], hsynced⟩

theorem synced_setContent (s : Disk) (j : ℕ) (b : Bytes) (i : ℕ) :
    ((s.setContent j b).files i).synced = (s.files i).synced := by
  by_cases hj : i = j
  · subst hj
    simp [Disk.setContent]
  · rw [Disk.files_setContent_ne _ _ _ _ hj]

theorem synced_onOpen {α : Type} {f : OsFile} {k : Except OsError α × Disk} {i : ℕ} {b : Bytes}
    (hs : (s.files i).synced = b) (hk : (k.2.files i).synced = b) : ((Disk.onOpen f s k).2.files i).synced = b := by
  unfold Disk.onOpen
  split
  · exact hk
  · exact hs

/-- The durable part of a file that no call writes to or cuts off. -/
theorem Intact.synced_answer (h : Intact lossy q d s) (ho : o.Spares (· = q) d) {i : ℕ} (hi : d.dir q = some i) :
    ((Disk.answer o s).2.files i).synced = (d.files i).content := by
  have hself := h.synced i hi
  have hset : ∀ j b, ((s.setContent j b).files i).synced = (d.files i).content := fun j b =>
    (synced_setContent s j b i).trans hself
  cases o with
  | openFile p create trunc =>
    simp only [Disk.answer]
    split
    · split
      · exact hset _ _
      · exact hself
    · split
      · rw [Disk.files_create_ne _ _ _ (h.apart.next_ne rfl hi)]
        exact hself
      · exact hself
  | writeAt f off b => exact synced_onOpen hself (hset _ _)
  | truncate f n =>
    have hne : i ≠ f.inode := fun heq => ho q rfl (heq ▸ hi)
    refine synced_onOpen hself ?_
    rw [Disk.files_setContent_ne _ _ _ _ hne, (touched_cut s f.inode n).others i hne]
    exact hself
  | fsync f =>
    refine synced_onOpen hself ?_
    by_cases hf : i = f.inode
    · rw [hf, Disk.synced_syncFile, ← hf, h.apart.content q i rfl hi]
    · rw [(touched_syncFile s f.inode).others i hf]
      exact hself
  | rename a b =>
    simp only [Disk.answer]
    split <;> exact hself
  | remove p =>
    simp only [Disk.answer]
    split <;> exact hself
  | flock f =>
    refine synced_onOpen hself ?_
    split <;> exact hself
  | funlock f => exact synced_onOpen hself hself
  | stat p => exact hself
  | syncDir p => exact hself
  | mapped f lo hi => exact hself
  | fstat f => exact synced_onOpen hself hself
  | readAt f off n => exact synced_onOpen hself hself
  | seek f off => exact synced_onOpen hself hself
  | readFrom f off => exact synced_onOpen hself hself
  | close f => exact synced_onOpen hself hself
  | mmap f n => exact synced_onOpen hself hself

/-- A call that fails changes the content of one file at most. -/
theorem fault_same (k : ℕ) (o : FileOp) (s : Disk) : (Disk.fault k o s).2.names = s.names ∧
    (Disk.fault k o s).2.pending = s.pending ∧ ∀ i, ((Disk.fault k o s).2.files i).synced = (s.files i).synced := by
  cases o with
  | writeAt f off b =>
    simp only [Disk.fault, Disk.onOpen]
    split
    · exact ⟨rfl, rfl, fun i => synced_setContent s _ _ i⟩
    · exact ⟨rfl, rfl, fun _ => rfl⟩
  | _ => exact ⟨rfl, rfl, fun _ => rfl⟩

/-- What a crash leaves of a name that a call, successful or not, does not bind. -/
theorem Disk.Yields.leaves {r : o.Res} {n : Path → Option ℕ} (hr : Disk.Yields K o s r t) (hq : ¬ o.Binds q)
    (hn : t.Leaves lossy n) : ∃ m, s.Leaves lossy m ∧ n q = m q := by
  rcases hr with hok | ⟨k, -, hfail⟩
  · rw [show t = (Disk.answer o s).2 from congrArg Prod.snd hok] at hn
    obtain ⟨m, hm, heq⟩ := Disk.leaves_answer hn
    exact ⟨m, hm, heq q hq⟩
  · rw [show t = (Disk.fault k o s).2 from congrArg Prod.snd hfail] at hn
    exact ⟨n, hn.of_same (fault_same k o s).1 (fault_same k o s).2.1, rfl⟩

/-- **One call that spares the name.** -/
theorem Intact.step {r : o.Res} (h : Intact lossy q d s) (ho : o.Spares (· = q) d) (hr : Disk.Yields K o s r t) :
    Intact lossy q d t := by
  refine ⟨hr.apart h.apart ho, ?_, ?_⟩
  · intro n hn
    obtain ⟨m, hm, heq⟩ := hr.leaves (not_binds_of_spares ho) hn
    rw [heq, h.name m hm]
  · intro i hi
    rcases hr with hok | ⟨k, -, hfail⟩
    · rw [show t = (Disk.answer o s).2 from congrArg Prod.snd hok]
      exact h.synced_answer ho hi
    · rw [show t = (Disk.fault k o s).2 from congrArg Prod.snd hfail, (fault_same k o s).2.2 i]
      exact h.synced i hi

theorem Intact.file (h : Intact lossy q d t) {i : ℕ} (hi : d.dir q = some i) :
    t.files i = ⟨(d.files i).content, (d.files i).content⟩ := by
  have hcontent := h.apart.content q i rfl hi
  have hsynced := h.synced i hi
  generalize t.files i = f at hcontent hsynced ⊢
  cases f
  dsimp only at hcontent hsynced
  rw [hcontent, hsynced]

theorem spares_of_idle (ho : o.Idle) (S : Path → Prop) : o.Spares S d := by
  cases o with
  | openFile p create trunc => exact ho.elim
  | writeAt f off b => exact ho.elim
  | truncate f n => exact ho.elim
  | rename a b => exact ho.elim
  | remove p => exact ho.elim
  | _ => trivial

/-- A call that writes nothing and binds no name leaves no crash more to lose. -/
theorem Disk.Yields.idle {r : o.Res} (hr : Disk.Yields K o s r t) (ho : o.Idle) (lossy : DirOp → Prop) :
    t.files = s.files ∧ t.dir = s.dir ∧ ∀ n, t.Leaves lossy n → s.Leaves lossy n := by
  have hsame : t = s → t.files = s.files ∧ t.dir = s.dir ∧ ∀ n, t.Leaves lossy n → s.Leaves lossy n := by
    rintro rfl
    exact ⟨rfl, rfl, fun _ => id⟩
  have hfault : ∀ k, (r, t) = Disk.fault k o s → t = s := by
    intro k hfail
    rw [show t = (Disk.fault k o s).2 from congrArg Prod.snd hfail]
    cases o with
    | writeAt f off b => exact ho.elim
    | _ => rfl
  rcases hr with hok | ⟨k, -, hfail⟩
  swap
  · exact hsame (hfault k hfail)
  have ht : t = (Disk.answer o s).2 := congrArg Prod.snd hok
  cases o with
  | syncDir p =>
    rw [ht]
    refine ⟨rfl, Disk.dir_syncNames s, fun n hn => ?_⟩
    rw [Disk.leaves_syncNames hn]
    exact Disk.leaves_dir s
  | funlock f =>
    rw [ht]
    simp only [Disk.answer, Disk.onOpen]
    split
    · exact ⟨rfl, rfl, fun _ hn => hn.of_same rfl rfl⟩
    · exact ⟨rfl, rfl, fun _ => id⟩
  | openFile p create trunc => exact ho.elim
  | writeAt f off b => exact ho.elim
  | truncate f n => exact ho.elim
  | rename a b => exact ho.elim
  | remove p => exact ho.elim
  | fsync f => exact ho.elim
  | flock f => exact ho.elim
  | stat p => exact hsame ht
  | mapped f lo hi => exact hsame ht
  | fstat f => exact hsame (ht.trans (Disk.onOpen_snd f s _))
  | readAt f off n => exact hsame (ht.trans (Disk.onOpen_snd f s _))
  | seek f off => exact hsame (ht.trans (Disk.onOpen_snd f s _))
  | readFrom f off => exact hsame (ht.trans (Disk.onOpen_snd f s _))
  | close f => exact hsame (ht.trans (Disk.onOpen_snd f s _))
  | mmap f n => exact hsame (ht.trans (Disk.onOpen_snd f s _))

end

/-! ## A new file under a temporary name -/

section
variable {K : Set ℕ} {lossy : DirOp → Prop} {q tmp : Path} {d s : Disk}

/-- A program whose calls spare the name. -/
theorem Intact.always {α : Type} (h : Intact lossy q d s) {p : FileProg α} {Q : α → Prop}
    (hp : p.Each (FileOp.Spares (· = q) d) Q) :
    p.Always (Disk.Yields K) (Intact lossy q d) s fun a t => Intact lossy q d t ∧ Q a :=
  hp.always (fun _ _ _ _ ho hs hr => hs.step ho hr) h

/-- Opening a file under another name. -/
theorem Intact.openFile (h : Intact lossy q d s) {p : Path} (hp : p ≠ q) (create trunc : Bool) :
    (Sys.openFile p create trunc).Always (Disk.Yields K) (Intact lossy q d) s fun r t =>
      Intact lossy q d t ∧ ∀ f, r = .ok f → Foreign (· = q) d f.inode := by
  refine Prog.always_perform h fun r t hr => ?_
  have ht := h.step (o := .openFile p create trunc) hp hr
  refine ⟨ht, ht, ?_⟩
  rintro f rfl
  rcases hr with hok | ⟨k, -, hfail⟩
  · exact h.apart.foreign hp (congrArg Prod.fst hok).symm
  · cases congrArg Prod.fst hfail

/-- The new file under the temporary name, while it is written. -/
structure Growing (lossy : DirOp → Prop) (q tmp : Path) (d : Disk) (i : ℕ) (t : Disk) : Prop where
  intact : Intact lossy q d t
  name : ∀ n, t.Leaves lossy n → n tmp = some i

/-- A call that writes to the new file or reads the source. -/
def Beneath (q tmp : Path) (d : Disk) (o : FileOp) : Prop := o.Spares (· = q) d ∧ ¬ o.Binds tmp

theorem beneath_of_on {o : FileOp} {i : ℕ} (ho : o.On i) (hi : Foreign (· = q) d i) : Beneath q tmp d o :=
  ⟨spares_of_on ho hi, not_binds_of_on ho⟩

theorem beneath_of_reading {o : FileOp} (ho : o.Reading) : Beneath q tmp d o := by
  refine ⟨spares_of_reading ho, ?_⟩
  cases o with
  | openFile p create trunc => exact ho.elim
  | rename a b => exact ho.elim
  | remove p => exact ho.elim
  | _ => exact id

theorem Growing.step {o : FileOp} {r : o.Res} {i : ℕ} {t : Disk} (h : Growing lossy q tmp d i s)
    (ho : Beneath q tmp d o) (hr : Disk.Yields K o s r t) : Growing lossy q tmp d i t := by
  refine ⟨h.intact.step ho.1 hr, fun n hn => ?_⟩
  obtain ⟨m, hm, heq⟩ := hr.leaves ho.2 hn
  rw [heq, h.name m hm]

theorem Growing.always {α : Type} {i : ℕ} (h : Growing lossy q tmp d i s) {p : FileProg α} {Q : α → Prop}
    (hp : p.Each (Beneath q tmp d) Q) :
    p.Always (Disk.Yields K) (Intact lossy q d) s fun a t => Growing lossy q tmp d i t ∧ Q a :=
  (hp.always (I := Growing lossy q tmp d i) (fun _ _ _ _ ho hs hr => hs.step ho hr) h).mono (fun _ ht => ht.intact)
    fun _ _ ht => ht

/-- The creation of the new file. -/
theorem Intact.create (h : Intact lossy q d s) (hlinks : ∀ p j, ¬ lossy (.link p j)) (hne : tmp ≠ q)
    (habs : s.dir tmp = none) :
    (Sys.openFile tmp true true).Always (Disk.Yields K) (Intact lossy q d) s fun r t => Intact lossy q d t ∧
      ∀ f, r = .ok f → f = ⟨s.next, true⟩ ∧ Foreign (· = q) d s.next ∧ Growing lossy q tmp d s.next t := by
  refine ((h.openFile hne true true).and (Disk.all_open_none habs true)).mono (fun _ ht => ht) ?_
  rintro r t ⟨⟨ht, hforeign⟩, hok, -⟩
  refine ⟨ht, fun f hf => ?_⟩
  obtain ⟨rfl, rfl⟩ := hok f hf
  refine ⟨rfl, hforeign _ hf, ht, fun n hn => ?_⟩
  obtain ⟨m, -, hcase⟩ := Disk.leaves_create hn
  rcases hcase with rfl | ⟨hlost, -⟩
  · exact Function.update_self ..
  · exact absurd hlost (hlinks _ _)

end

/-! ## A file that replaces another -/

/-- A file that is durable under its name, whatever a crash loses. -/
structure Ripe (lossy : DirOp → Prop) (tmp : Path) (i : ℕ) (b : Bytes) (t : Disk) : Prop where
  name : ∀ n, t.Leaves lossy n → n tmp = some i
  file : t.files i = ⟨b, b⟩

/-- The new file has taken the name `q`. A crash leaves the old file or the new one there. -/
structure Swapped (lossy : DirOp → Prop) (q : Path) (d : Disk) (i : ℕ) (b : Bytes) (t : Disk) : Prop where
  current : t.dir q = some i
  name : ∀ n, t.Leaves lossy n → n q = d.dir q ∨ n q = some i
  old : ∀ j, d.dir q = some j → t.files j = ⟨(d.files j).content, (d.files j).content⟩
  new : t.files i = ⟨b, b⟩

/-- Under the name is what was there, or a whole new file. -/
def OldOrNew (lossy : DirOp → Prop) (q : Path) (d : Disk) (Whole : Bytes → Prop) (t : Disk) : Prop :=
  Intact lossy q d t ∨ ∃ i b, Whole b ∧ Swapped lossy q d i b t

/-- Under the name is a whole new file, for good. -/
def New (lossy : DirOp → Prop) (q : Path) (d : Disk) (Whole : Bytes → Prop) (t : Disk) : Prop :=
  ∃ i b, Whole b ∧ Swapped lossy q d i b t ∧ ∀ n, t.Leaves lossy n → n q = some i

section
variable {lossy : DirOp → Prop} {keeps : ℕ → File → Bytes → Prop} {K : Set ℕ} {q tmp : Path} {d s t : Disk} {o : FileOp}
  {i : ℕ} {b : Bytes} {Whole : Bytes → Prop}

/-- **The renaming.** -/
theorem Intact.rename (h : Intact lossy q d s) (hripe : Ripe lossy tmp i b s) {r : (FileOp.rename tmp q).Res}
    (hr : Disk.Yields K (.rename tmp q) s r t) :
    (r = .ok () → Swapped lossy q d i b t) ∧ ∀ e, r = .error e → t = s := by
  have htmp : s.dir tmp = some i := hripe.name _ (Disk.leaves_dir s)
  rcases hr with hok | ⟨k, -, hfail⟩
  · simp only [Disk.answer, htmp, Option.isSome_some, if_true] at hok
    cases hok
    refine ⟨fun _ => ⟨?_, ?_, fun j hj => h.file hj, hripe.file⟩, fun e he => by cases he⟩
    · rw [Disk.dir_rename htmp, Function.update_self]
    · intro n hn
      obtain ⟨m, hm, hcase⟩ := Disk.leaves_enqueue hn
      rcases hcase with rfl | ⟨-, rfl⟩
      · right
        rw [DirOp.apply, hripe.name m hm]
        exact Function.update_self ..
      · exact .inl (h.name n hm)
  · cases hfail
    exact ⟨fun hr => (by cases hr), fun _ _ => rfl⟩

theorem Swapped.idle (h : Swapped lossy q d i b s) (hfiles : t.files = s.files) (hdir : t.dir = s.dir)
    (hleaves : ∀ n, t.Leaves lossy n → s.Leaves lossy n) : Swapped lossy q d i b t where
  current := by rw [hdir, h.current]
  name := fun n hn => h.name n (hleaves n hn)
  old := fun j hj => by rw [hfiles, h.old j hj]
  new := by rw [hfiles, h.new]

theorem OldOrNew.step {r : o.Res} (h : OldOrNew lossy q d Whole s) (ho : o.Idle) (hr : Disk.Yields K o s r t) :
    OldOrNew lossy q d Whole t := by
  rcases h with h | ⟨i, b, hb, h⟩
  · exact .inl (h.step (spares_of_idle ho _) hr)
  · obtain ⟨hfiles, hdir, hleaves⟩ := hr.idle ho lossy
    exact .inr ⟨i, b, hb, h.idle hfiles hdir hleaves⟩

theorem New.step {r : o.Res} (h : New lossy q d Whole s) (ho : o.Idle) (hr : Disk.Yields K o s r t) :
    New lossy q d Whole t := by
  obtain ⟨i, b, hb, h, hlast⟩ := h
  obtain ⟨hfiles, hdir, hleaves⟩ := hr.idle ho lossy
  exact ⟨i, b, hb, h.idle hfiles hdir hleaves, fun n hn => hlast n (hleaves n hn)⟩

/-! ## After a crash -/

section
variable (hkeeps : ∀ i b c, keeps i ⟨b, b⟩ c → c = b)
include hkeeps

theorem bytesAt_powerLoss {d' : Disk} (hloss : Disk.PowerLoss lossy keeps t d') (hname : d'.names q = some i)
    (hfile : t.files i = ⟨b, b⟩) : d'.bytesAt q = some b := by
  have hcontent := hloss.content i
  rw [hfile] at hcontent
  rw [Disk.bytesAt, hloss.dir, hname, Option.map_some, hkeeps i b _ hcontent]

/-- The name is as it was, and what was under it is on the disk. -/
theorem bytesAt_powerLoss_old {d' : Disk} (hloss : Disk.PowerLoss lossy keeps t d') (hname : d'.names q = d.dir q)
    (hold : ∀ j, d.dir q = some j → t.files j = ⟨(d.files j).content, (d.files j).content⟩) :
    d'.bytesAt q = d.bytesAt q := by
  cases hdir : d.dir q with
  | none => rw [Disk.bytesAt, Disk.bytesAt, hloss.dir, hname, hdir]; rfl
  | some j =>
    rw [bytesAt_powerLoss hkeeps hloss (hname.trans hdir) (hold j hdir), Disk.bytesAt, hdir, Option.map_some]

/-- **A crash leaves the old file or a whole new one.** -/
theorem OldOrNew.powerLoss {d' : Disk} (h : OldOrNew lossy q d Whole t) (hloss : Disk.PowerLoss lossy keeps t d') :
    d'.bytesAt q = d.bytesAt q ∨ ∃ b, Whole b ∧ d'.bytesAt q = some b := by
  rcases h with h | ⟨i, b, hb, h⟩
  · exact .inl (bytesAt_powerLoss_old hkeeps hloss (h.name _ hloss.names) fun _ hj => h.file hj)
  rcases h.name _ hloss.names with hold | hnew
  · exact .inl (bytesAt_powerLoss_old hkeeps hloss hold h.old)
  · exact .inr ⟨b, hb, bytesAt_powerLoss hkeeps hloss hnew h.new⟩

end

end

/-! ## The program -/

/-- A file is written under a temporary name, renamed, and the directory is synced. -/
def publish {ε : Type} (toErr : OsError → ε) (writer : FileProg (Except ε Unit)) (tmp q : Path) :
    FileProg (Except ε Unit) :=
  writer.orElse
    (fun e => do
      let _ ← Sys.remove tmp
      pure (.error e))
    fun _ =>
  (Sys.rename tmp q).orElse
    (fun e => do
      let _ ← Sys.remove tmp
      pure (.error (toErr e)))
    fun _ =>
  (Sys.syncDir q).orElse (fun e => pure (.error (toErr e))) fun a => pure (.ok a)

section
variable {ε : Type} {lossy : DirOp → Prop} {K : Set ℕ} {q tmp : Path} {d s : Disk} {Whole : Bytes → Prop}

/-- How a program that replaces a file ends: with an error, or with the new file in place for good. -/
def Ends (lossy : DirOp → Prop) (q : Path) (d : Disk) (Whole : Bytes → Prop) (r : Except ε Unit) (t : Disk) : Prop :=
  OldOrNew lossy q d Whole t ∧ (r = .ok () → New lossy q d Whole t)

theorem Intact.ends {t : Disk} {e : ε} (h : Intact lossy q d t) : Ends lossy q d Whole (.error e) t :=
  ⟨.inl h, fun hr => by cases hr⟩

/-- What comes after the end and writes nothing does not change how it ended. -/
theorem Ends.always {α : Type} {r : Except ε Unit} (h : Ends lossy q d Whole r s) {p : FileProg α} {Q : α → Prop}
    (hp : p.Each FileOp.Idle Q) :
    p.Always (Disk.Yields K) (OldOrNew lossy q d Whole) s fun _ t => Ends lossy q d Whole r t :=
  (hp.always (I := Ends lossy q d Whole r) (fun _ _ _ _ ho hs hr => ⟨hs.1.step ho hr, fun hok => (hs.2 hok).step ho hr⟩)
    h).mono (fun _ ht => ht.1) fun _ _ ht => ht.1

/-- The clean-up after an error. -/
theorem Intact.cleanUp (h : Intact lossy q d s) (hne : tmp ≠ q) (e : ε) :
    (do let _ ← Sys.remove tmp; pure (.error e) : FileProg (Except ε Unit)).Always (Disk.Yields K)
      (OldOrNew lossy q d Whole) s (Ends lossy q d Whole) := by
  refine Prog.always_bind (Prog.always_perform (.inl h) fun r t hr => ?_)
  have ht : Intact lossy q d t := h.step (o := .remove tmp) hne hr
  exact ⟨.inl ht, .inl ht, ht.ends⟩

/-- **A file is replaced by a whole new one or not at all**, whichever calls fail and at whatever instant the
machine loses power, if the writer leaves a durable file under the temporary name. -/
theorem always_publish (hne : tmp ≠ q) (toErr : OsError → ε) {writer : FileProg (Except ε Unit)}
    (hw : writer.Always (Disk.Yields K) (Intact lossy q d) s fun r t => Intact lossy q d t ∧
      ∀ u, r = .ok u → ∃ i b, Whole b ∧ Ripe lossy tmp i b t) :
    (publish toErr writer tmp q).Always (Disk.Yields K) (OldOrNew lossy q d Whole) s (Ends lossy q d Whole) := by
  refine Prog.always_orElse (hw.mono (fun _ ht => .inl ht) fun _ _ ht => ht) (fun e t ht => ht.1.cleanUp hne e) ?_
  rintro u t ⟨ht, hripe⟩
  obtain ⟨i, b, hb, hripe⟩ := hripe u rfl
  refine Prog.always_orElse (Q := fun r v => (r = .ok () → Swapped lossy q d i b v) ∧ ∀ e, r = .error e → v = t)
    (Prog.always_perform (.inl ht) fun r v hr => ?_) (fun e v hv => ?_) fun _ v hv => ?_
  · have hv := ht.rename hripe hr
    refine ⟨?_, hv⟩
    cases r with
    | ok u => exact .inr ⟨i, b, hb, hv.1 rfl⟩
    | error e => exact .inl (hv.2 e rfl ▸ ht)
  · rw [hv.2 e rfl]
    exact ht.cleanUp hne _
  have hswapped := hv.1 rfl
  have hold : OldOrNew lossy q d Whole v := .inr ⟨i, b, hb, hswapped⟩
  refine Prog.always_orElse (Q := fun r w => OldOrNew lossy q d Whole w ∧ (r = .ok () → New lossy q d Whole w))
    (Prog.always_perform hold fun r w hr => ?_) (fun e w hw => ⟨hw.1, hw.1, fun hr => by cases hr⟩)
    fun _ w hw => ⟨hw.1, hw.1, fun _ => hw.2 rfl⟩
  have hw := hold.step (o := .syncDir q) trivial hr
  refine ⟨hw, hw, ?_⟩
  rintro rfl
  obtain ⟨hfiles, hdir, hleaves⟩ := hr.idle (o := .syncDir q) trivial lossy
  refine ⟨i, b, hb, hswapped.idle hfiles hdir hleaves, fun n hn => ?_⟩
  rcases hr with hok | ⟨k, -, hfail⟩
  · rw [show w = v.syncNames from congrArg Prod.snd hok] at hn
    rw [Disk.leaves_syncNames hn, hswapped.current]
  · cases congrArg Prod.fst hfail

end

end AppendStore.Library
