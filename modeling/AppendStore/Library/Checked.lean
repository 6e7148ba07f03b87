import AppendStore.Library.Stream

/-! # Bounds that are checked

`cut` is a slice expression with its bounds check: `none` is the panic of an access outside of the buffer. A
function that is written with `cut` and never gives `none` makes no such access.

`CheckedReader` does the same for readers of a stream that fill buffers and count their position by hand. `tracked`
is an assertion about that count. A checked reader that agrees with a plain one (`Agrees`) passes all its checks and
gives the same result; the rules follow the reads of the two.
-/

namespace AppendStore.Library
set_option autoImplicit false

/-- `b[lo:hi]`, with its bounds check. -/
def cut (b : Bytes) (lo hi : ℕ) : Option Bytes := if lo ≤ hi ∧ hi ≤ b.length then some (slice b lo hi) else none

theorem cut_eq {b : Bytes} {lo hi : ℕ} (hlo : lo ≤ hi) (hhi : hi ≤ b.length) : cut b lo hi = some (slice b lo hi) :=
  if_pos ⟨hlo, hhi⟩

theorem cut_all {b : Bytes} {n : ℕ} (h : b.length = n) : cut b 0 n = some b := by
  rw [cut_eq (Nat.zero_le _) (by omega), slice, List.drop_zero, List.take_of_length_le (by omega)]

/-- What was read into the front of a buffer. -/
theorem cut_front {b t : Bytes} {n : ℕ} (h : b.length = n) : cut (b ++ t) 0 n = some b := by
  have hle : n ≤ (b ++ t).length := by
    rw [List.length_append]
    omega
  rw [cut_eq (Nat.zero_le _) hle, slice_append_left _ _ _ _ (by omega), ← cut_eq (Nat.zero_le _) (by omega), cut_all h]

/-! ## Readers with checks -/

/-- A reader of a byte stream; `none` is a failed check. -/
abbrev CheckedReader (ε α : Type) := StateT Bytes (ExceptT ε Option) α

section
variable {ε α β γ δ : Type}

/-- A read that touches no buffer. -/
def plainly (p : Reader ε α) : CheckedReader ε α := fun s => some (p s)

/-- An access to a buffer. -/
def inBounds (o : Option α) : CheckedReader ε α := fun s => o.map fun a => .ok (a, s)

/-- `io.ReadFull` into the first `n` bytes of a buffer. -/
def fill (eof unexpectedEOF : ε) (buf : Bytes) (n : ℕ) : CheckedReader ε Bytes :=
  inBounds (cut buf 0 n) >>= fun _ => plainly (readFull eof unexpectedEOF n >>= fun b => pure (b ++ buf.drop n))

/-- The position is as far from the end of the stream at `stop` as there are bytes left to read. -/
def tracked (stop pos : ℕ) : CheckedReader ε Unit := fun s => if pos + s.length = stop then some (.ok ((), s)) else none

/-- From `pos` on, `p` passes its checks and does what `q` does. Results are related by `R`, together with the
position behind what was read. -/
def Agrees (stop pos : ℕ) (p : CheckedReader ε α) (q : Reader ε β) (R : α → β → ℕ → Prop) : Prop :=
  ∀ s, pos + s.length = stop → (∃ e, q s = .error e ∧ p s = some (.error e)) ∨
    ∃ a b r pos', q s = .ok (b, r) ∧ p s = some (.ok (a, r)) ∧ pos' + r.length = stop ∧ R a b pos'

variable {stop pos : ℕ} {p : CheckedReader ε α} {q : Reader ε β} {R : α → β → ℕ → Prop}

theorem checked_bind_ok (f : α → CheckedReader ε γ) {s r : Bytes} {a : α} (h : p s = some (.ok (a, r))) :
    (p >>= f) s = f a r := by
  change Option.bind (p s) _ = _
  rw [h]
  rfl

theorem checked_bind_error (f : α → CheckedReader ε γ) {s : Bytes} {e : ε} (h : p s = some (.error e)) :
    (p >>= f) s = some (.error e) := by
  change Option.bind (p s) _ = _
  rw [h]
  rfl

theorem agrees_pure {a : α} {b : β} (h : R a b pos) : Agrees stop pos (pure a : CheckedReader ε α) (pure b) R :=
  fun s hs => .inr ⟨a, b, s, pos, rfl, rfl, hs, h⟩

theorem agrees_bind {f : α → CheckedReader ε γ} {g : β → Reader ε δ} {S : γ → δ → ℕ → Prop}
    (hp : Agrees stop pos p q R) (hf : ∀ a b pos', R a b pos' → Agrees stop pos' (f a) (g b) S) :
    Agrees stop pos (p >>= f) (q >>= g) S := by
  intro s hs
  rcases hp s hs with ⟨e, hq, hpe⟩ | ⟨a, b, r, pos', hq, hpa, hpos, hR⟩
  · exact .inl ⟨e, reader_bind_error q g hq, checked_bind_error f hpe⟩
  · rw [reader_bind_ok q g hq, checked_bind_ok f hpa]
    exact hf a b pos' hR r hpos

/-- An access that is in bounds changes nothing. -/
theorem agrees_inBounds {o : Option γ} {c : γ} (ho : o = some c) {f : γ → CheckedReader ε α}
    (h : Agrees stop pos (f c) q R) : Agrees stop pos (inBounds o >>= f) q R := by
  subst ho
  intro s hs
  rw [checked_bind_ok f (rfl : inBounds (some c) s = some (.ok (c, s)))]
  exact h s hs

/-- The assertion about the position holds where the readers are. -/
theorem agrees_tracked {f : Unit → CheckedReader ε α} (h : Agrees stop pos (f ()) q R) :
    Agrees stop pos (tracked stop pos >>= f) q R := by
  intro s hs
  have htracked : tracked stop pos s = some (.ok ((), s) : Except ε (Unit × Bytes)) := if_pos hs
  rw [checked_bind_ok f htracked]
  exact h s hs

/-- A step of the plain reader that reads nothing. -/
theorem agrees_still {q : Reader ε α} (h : ∀ s a r, q s = .ok (a, r) → r = s) :
    Agrees stop pos (plainly q) q fun a b pos' => a = b ∧ pos' = pos := by
  intro s hs
  cases hq : q s with
  | error e => exact .inl ⟨e, rfl, by rw [plainly, hq]⟩
  | ok x =>
    obtain ⟨a, r⟩ := x
    obtain rfl := h s a r hq
    exact .inr ⟨a, a, r, pos, rfl, by rw [plainly, hq], hs, rfl, rfl⟩

theorem agrees_reject (c : Prop) [Decidable c] (e : ε) :
    Agrees stop pos (plainly (reject c e)) (reject c e) fun _ _ pos' => ¬ c ∧ pos' = pos := by
  intro s hs
  by_cases hc : c
  · exact .inl ⟨e, reject_true e hc s, by rw [plainly, reject_true e hc]⟩
  · exact .inr ⟨(), (), s, pos, reject_false e hc s, by rw [plainly, reject_false e hc], hs, hc, rfl⟩

theorem agrees_fill (eof unexpectedEOF : ε) {buf : Bytes} {n : ℕ} (hn : n ≤ buf.length) :
    Agrees stop pos (fill eof unexpectedEOF buf n) (readFull eof unexpectedEOF n)
      fun a b pos' => b.length = n ∧ a = b ++ buf.drop n ∧ pos' = pos + n := by
  refine agrees_inBounds (cut_eq (Nat.zero_le _) hn) fun s hs => ?_
  cases hq : readFull eof unexpectedEOF n s with
  | error e => exact .inl ⟨e, rfl, by rw [plainly, reader_bind_error _ _ hq]⟩
  | ok x =>
    obtain ⟨b, r⟩ := x
    obtain ⟨rfl, hlen⟩ := readFull_ok hq
    rw [List.length_append] at hs
    refine .inr ⟨b ++ buf.drop n, b, r, pos + n, rfl, ?_, by omega, hlen, rfl, rfl⟩
    rw [plainly, reader_bind_ok _ _ hq]
    rfl

theorem agrees_discard (eof : ε) (n : ℕ) :
    Agrees stop pos (plainly (discard eof n)) (discard eof n) fun _ _ pos' => pos' = pos + n := by
  intro s hs
  cases hq : discard eof n s with
  | error e => exact .inl ⟨e, rfl, by rw [plainly, hq]⟩
  | ok x =>
    obtain ⟨u, r⟩ := x
    obtain ⟨c, rfl, hlen⟩ := discard_ok hq
    rw [List.length_append] at hs
    exact .inr ⟨u, u, r, pos + n, rfl, by rw [plainly, hq], by omega, rfl⟩

theorem agrees_copyLimited (n : ℕ) : Agrees stop pos (plainly (copyLimited n) : CheckedReader ε Bytes) (copyLimited n)
    fun a b pos' => a = b ∧ pos' = pos + b.length := by
  intro s hs
  refine .inr ⟨s.take n, s.take n, s.drop n, pos + (s.take n).length, rfl, rfl, ?_, rfl, rfl⟩
  rw [List.length_take, List.length_drop]
  omega

end

end AppendStore.Library
