import AppendStore.Library.Bytes

/-! # Readers of a byte stream

A reader consumes bytes from the front of a stream and may fail. `Exact short p` is the property
that makes a record format recoverable after a torn write: a successful read consumes a definite
front part `c` of the stream, reads the same from `c` whatever follows it, and on every proper
initial part of `c` fails with an error that says the stream ended (`short`). The property is
closed under sequencing, so a decoder that is a chain of reads has it as soon as each read does.
-/

namespace AppendStore.Library
set_option autoImplicit false

/-- A reader of a byte stream with errors in `ε`. -/
abbrev Reader (ε α : Type) := StateT Bytes (Except ε) α

section
variable {ε α β : Type}

/-! ## Elementary reads -/

/-- `io.ReadFull` of `n` bytes: `eof` when nothing at all could be read, `unexpectedEOF` when the
stream ends inside the requested bytes. A request for no bytes always succeeds. -/
def readFull (eof unexpectedEOF : ε) (n : ℕ) : Reader ε Bytes := fun r =>
  if n ≤ r.length then .ok (r.take n, r.drop n)
  else if r = [] then .error eof else .error unexpectedEOF

/-- `bufio.Reader.Discard` of `n` bytes. -/
def discard (eof : ε) (n : ℕ) : Reader ε Unit := fun r =>
  if n ≤ r.length then .ok ((), r.drop n) else .error eof

/-- Stop with an error when a condition holds. -/
def reject (c : Prop) [Decidable c] (e : ε) : Reader ε Unit := if c then throw e else pure ()

/-- Copying through a limited reader: at most `n` bytes, fewer at the end of the stream. -/
def copyLimited (n : ℕ) : Reader ε Bytes := fun r => .ok (r.take n, r.drop n)

theorem readFull_append (eof unexpectedEOF : ε) (n : ℕ) (c t : Bytes) (h : c.length = n) :
    readFull eof unexpectedEOF n (c ++ t) = .ok (c, t) := by
  subst h
  simp [readFull]

theorem readFull_ok {eof unexpectedEOF : ε} {n : ℕ} {s c r : Bytes}
    (h : readFull eof unexpectedEOF n s = .ok (c, r)) : s = c ++ r ∧ c.length = n := by
  unfold readFull at h
  split at h
  · rename_i hn
    simp only [Except.ok.injEq, Prod.mk.injEq] at h
    obtain ⟨rfl, rfl⟩ := h
    exact ⟨(List.take_append_drop n s).symm, by simp [hn]⟩
  · split at h <;> simp at h

theorem readFull_short {eof unexpectedEOF : ε} {n : ℕ} {s : Bytes} (h : s.length < n) :
    readFull eof unexpectedEOF n s = .error (if s = [] then eof else unexpectedEOF) := by
  unfold readFull
  rw [if_neg (by omega)]
  split <;> rfl

theorem discard_append (eof : ε) (n : ℕ) (c t : Bytes) (h : c.length = n) :
    discard eof n (c ++ t) = .ok ((), t) := by
  subst h
  simp [discard]

theorem discard_ok {eof : ε} {n : ℕ} {s r : Bytes} {u : Unit} (h : discard eof n s = .ok (u, r)) :
    ∃ c, s = c ++ r ∧ c.length = n := by
  unfold discard at h
  split at h
  · rename_i hn
    simp only [Except.ok.injEq, Prod.mk.injEq, true_and] at h
    subst h
    exact ⟨s.take n, (List.take_append_drop n s).symm, by simp [hn]⟩
  · simp at h

theorem reject_false {c : Prop} [Decidable c] (e : ε) (h : ¬ c) (s : Bytes) :
    reject c e s = .ok ((), s) := by
  rw [reject, if_neg h]
  rfl

theorem reject_true {c : Prop} [Decidable c] (e : ε) (h : c) (s : Bytes) :
    reject c e s = .error e := by
  rw [reject, if_pos h]
  rfl

theorem reject_ok {c : Prop} [Decidable c] {e : ε} {s r : Bytes} {u : Unit}
    (h : reject c e s = .ok (u, r)) : ¬ c ∧ s = r := by
  by_cases hc : c
  · rw [reject_true e hc] at h
    cases h
  · rw [reject_false e hc] at h
    cases h
    exact ⟨hc, rfl⟩

/-! ## Sequencing -/

theorem reader_bind (p : Reader ε α) (f : α → Reader ε β) (s : Bytes) :
    (p >>= f) s = match p s with
      | .ok (a, r) => f a r
      | .error e => .error e := by
  change (p s >>= fun x => f x.1 x.2) = _
  cases p s <;> rfl

theorem reader_bind_ok (p : Reader ε α) (f : α → Reader ε β) {s r : Bytes} {a : α}
    (h : p s = .ok (a, r)) : (p >>= f) s = f a r := by
  rw [reader_bind, h]

theorem reader_bind_error (p : Reader ε α) (f : α → Reader ε β) {s : Bytes} {e : ε}
    (h : p s = .error e) : (p >>= f) s = .error e := by
  rw [reader_bind, h]

/-- A successful sequence splits into its two successful halves. -/
theorem reader_bind_inv {p : Reader ε α} {f : α → Reader ε β} {s r : Bytes} {b : β}
    (h : (p >>= f) s = .ok (b, r)) : ∃ a m, p s = .ok (a, m) ∧ f a m = .ok (b, r) := by
  rw [reader_bind] at h
  cases hp : p s with
  | error e =>
    rw [hp] at h
    simp at h
  | ok x =>
    obtain ⟨a, m⟩ := x
    rw [hp] at h
    exact ⟨a, m, rfl, h⟩

theorem reader_pure (a : α) (s : Bytes) : (pure a : Reader ε α) s = .ok (a, s) := rfl

theorem reader_throw (e : ε) (s : Bytes) : (throw e : Reader ε α) s = .error e := rfl

/-! ## Exact readers -/

variable (short : ε → Prop)

/-- A successful read consumes a definite part of the stream, reads the same from it whatever
follows, and fails with an end-of-stream error on every proper initial part of it. -/
def Exact (p : Reader ε α) : Prop :=
  ∀ s a r, p s = .ok (a, r) → ∃ c, s = c ++ r ∧ (∀ t, p (c ++ t) = .ok (a, t)) ∧
    ∀ q t, c = q ++ t → t ≠ [] → ∃ e, p q = .error e ∧ short e

variable {short}

theorem exact_pure (a : α) : Exact short (pure a : Reader ε α) := by
  intro s b r h
  rw [reader_pure] at h
  simp only [Except.ok.injEq, Prod.mk.injEq] at h
  obtain ⟨rfl, rfl⟩ := h
  refine ⟨[], rfl, fun t => rfl, ?_⟩
  intro q t hq ht
  simp only [List.nil_eq, List.append_eq_nil_iff] at hq
  exact absurd hq.2 ht

theorem exact_throw (e : ε) : Exact short (throw e : Reader ε α) := by
  intro s b r h
  rw [reader_throw] at h
  simp at h

theorem exact_bind {p : Reader ε α} {f : α → Reader ε β} (hp : Exact short p)
    (hf : ∀ a, Exact short (f a)) : Exact short (p >>= f) := by
  intro s b r h
  obtain ⟨a, m, h1, h2⟩ := reader_bind_inv h
  obtain ⟨c1, hs, hok1, htorn1⟩ := hp s a m h1
  obtain ⟨c2, hm, hok2, htorn2⟩ := hf a m b r h2
  refine ⟨c1 ++ c2, by rw [hs, hm, List.append_assoc], ?_, ?_⟩
  · intro t
    rw [List.append_assoc, reader_bind_ok p f (hok1 (c2 ++ t))]
    exact hok2 t
  · -- the cut falls inside what `p` reads, or behind it
    intro q t hq ht
    rcases List.append_eq_append_iff.mp hq with ⟨q2, hq2, hc2⟩ | ⟨t1, hc1, ht1⟩
    · obtain ⟨e, he, hshort⟩ := htorn2 q2 t hc2 ht
      refine ⟨e, ?_, hshort⟩
      rw [hq2, reader_bind_ok p f (hok1 q2)]
      exact he
    · by_cases h0 : t1 = []
      · subst h0
        rw [List.append_nil] at hc1
        rw [List.nil_append] at ht1
        subst hc1
        obtain ⟨e, he, hshort⟩ := htorn2 [] c2 (by simp) (by rwa [← ht1])
        refine ⟨e, ?_, hshort⟩
        have h3 := hok1 []
        rw [List.append_nil] at h3
        rw [reader_bind_ok p f h3]
        exact he
      · obtain ⟨e, he, hshort⟩ := htorn1 q t1 hc1 h0
        exact ⟨e, reader_bind_error p f he, hshort⟩

theorem exact_ite {b : Prop} [Decidable b] {p q : Reader ε α} (hp : Exact short p)
    (hq : Exact short q) : Exact short (if b then p else q) := by
  split
  · exact hp
  · exact hq

theorem exact_reject (c : Prop) [Decidable c] (e : ε) : Exact short (reject c e) :=
  exact_ite (exact_throw e) (exact_pure ())

theorem exact_readFull {eof unexpectedEOF : ε} (h1 : short eof) (h2 : short unexpectedEOF) (n : ℕ) :
    Exact short (readFull eof unexpectedEOF n) := by
  intro s a r h
  obtain ⟨hs, hlen⟩ := readFull_ok h
  refine ⟨a, hs, fun t => readFull_append _ _ n a t hlen, ?_⟩
  intro q t hq ht
  have hql : q.length < n := by
    have := List.length_pos_of_ne_nil ht
    rw [← hlen, hq, List.length_append]
    omega
  refine ⟨_, readFull_short hql, ?_⟩
  split
  · exact h1
  · exact h2

theorem exact_discard {eof : ε} (h1 : short eof) (n : ℕ) : Exact short (discard eof n) := by
  intro s a r h
  obtain ⟨c, hs, hlen⟩ := discard_ok h
  refine ⟨c, hs, fun t => discard_append _ n c t hlen, ?_⟩
  intro q t hq ht
  have hql : q.length < n := by
    have := List.length_pos_of_ne_nil ht
    rw [← hlen, hq, List.length_append]
    omega
  exact ⟨eof, by rw [discard, if_neg (by omega)], h1⟩

/-- A limited copy that is checked for its full length afterwards is a full read. -/
theorem copyLimited_checked (e : ε) (n : ℕ) (f : Bytes → Reader ε β) :
    (copyLimited n >>= fun c => reject (c.length ≠ n) e >>= fun _ => f c) = readFull e e n >>= f := by
  funext s
  rw [reader_bind_ok (copyLimited n) _ (rfl : copyLimited n s = .ok (s.take n, s.drop n))]
  by_cases h : n ≤ s.length
  · have hlen : ¬ (s.take n).length ≠ n := by simp [h]
    have hread : readFull e e n s = .ok (s.take n, s.drop n) := by simp [readFull, h]
    rw [reader_bind_ok _ _ (reject_false e hlen _), reader_bind_ok _ _ hread]
  · have hlen : (s.take n).length ≠ n := by
      rw [List.length_take]
      omega
    have hread : readFull e e n s = .error e := by
      rw [readFull_short (by omega), ite_self]
    rw [reader_bind_error _ _ (reject_true e hlen _), reader_bind_error _ _ hread]

end

end AppendStore.Library
