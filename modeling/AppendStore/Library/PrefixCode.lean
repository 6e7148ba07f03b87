import Mathlib

/-! # Prefix codes

A family of words none of which is empty or the beginning of another with a different name. A string is then a
concatenation of words in at most one way (`PrefixCode.injective`), and what is left of a concatenation behind
a concatenation is one again (`PrefixCode.cancel`).
-/

namespace AppendStore.Library
set_option autoImplicit false

section
variable {α β : Type}

/-- No word is empty, and the word a string starts with is determined by the string. -/
structure PrefixCode (word : β → List α) : Prop where
  nonempty : ∀ b, word b ≠ []
  front : ∀ a b s t, word a ++ s = word b ++ t → a = b

variable {word : β → List α}

/-- The first word of a string, and the rest. -/
theorem PrefixCode.split (h : PrefixCode word) {a b : β} {s t : List α} (heq : word a ++ s = word b ++ t) :
    a = b ∧ s = t := by
  obtain rfl := h.front a b s t heq
  exact ⟨rfl, List.append_cancel_left heq⟩

/-- What follows a concatenation inside a concatenation. -/
theorem PrefixCode.cancel (h : PrefixCode word) {xs ys : List β} {r : List α}
    (heq : xs.flatMap word ++ r = ys.flatMap word) : ∃ zs, ys = xs ++ zs ∧ r = zs.flatMap word := by
  induction xs generalizing ys with
  | nil => exact ⟨ys, rfl, heq⟩
  | cons x xs ih =>
    cases ys with
    | nil =>
      rw [List.flatMap_cons, List.append_assoc, List.flatMap_nil] at heq
      exact absurd (List.append_eq_nil_iff.mp heq).1 (h.nonempty x)
    | cons y ys =>
      rw [List.flatMap_cons, List.flatMap_cons, List.append_assoc] at heq
      obtain ⟨rfl, hrest⟩ := h.split heq
      obtain ⟨zs, rfl, hr⟩ := ih hrest
      exact ⟨zs, rfl, hr⟩

/-- **A string is a concatenation of words in at most one way.** -/
theorem PrefixCode.injective (h : PrefixCode word) : Function.Injective fun xs : List β => xs.flatMap word := by
  intro xs ys heq
  obtain ⟨zs, rfl, hr⟩ := h.cancel (r := []) ((List.append_nil _).trans heq)
  cases zs with
  | nil => exact (List.append_nil xs).symm
  | cons z zs =>
    rw [List.flatMap_cons] at hr
    exact absurd (List.append_eq_nil_iff.mp hr.symm).1 (h.nonempty z)

end

end AppendStore.Library
