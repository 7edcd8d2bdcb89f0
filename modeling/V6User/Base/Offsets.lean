import Mathlib.Order.Defs.PartialOrder
import Mathlib.Tactic.Common

/-!
# Parsers that move an offset

What a parser of items accepts is a relation between the place where an item begins and the one
where it ends; `Times R n a b` says that `n` items follow one another from `a` to `b`.

`Gives E x P` says that a computation has a result for which `P` holds, or stops with one of the
errors `E`, so that any other error is excluded.  It has one rule for each way to put
computations together.
-/

namespace V6User
namespace Offsets

variable {α β ε : Type} {R : α → α → Prop} {a b c : α} {n : ℕ}

/-- `n` items, one after the other. -/
inductive Times (R : α → α → Prop) : ℕ → α → α → Prop
  | zero (a : α) : Times R 0 a a
  | succ {n : ℕ} {a b c : α} (first : R a b) (rest : Times R n b c) : Times R (n + 1) a c

theorem times_zero : Times R 0 a b ↔ a = b := by
  constructor
  · rintro ⟨⟩
    rfl
  · rintro rfl
    exact .zero a

theorem times_succ : Times R (n + 1) a c ↔ ∃ b, R a b ∧ Times R n b c := by
  constructor
  · rintro ⟨⟩
    exact ⟨_, ‹_›, ‹_›⟩
  · rintro ⟨b, first, rest⟩
    exact .succ first rest

/-- Items that end at one place only do so together. -/
theorem Times.unique (hR : ∀ a b c, R a b → R a c → b = c) (h : Times R n a b)
    (h' : Times R n a c) : b = c := by
  induction h with
  | zero a => exact times_zero.1 h'
  | succ first rest ih =>
    obtain ⟨m, first', rest'⟩ := times_succ.1 h'
    exact ih (hR _ _ _ first first' ▸ rest')

/-- Items that do not end before they begin do not do so together. -/
theorem Times.le [Preorder α] (hR : ∀ a b, R a b → a ≤ b) (h : Times R n a b) : a ≤ b := by
  induction h with
  | zero a => exact le_refl a
  | succ first _ ih => exact le_trans (hR _ _ first) ih

/-! ### Results and tolerated errors -/

/-- A result with `P`, or one of the errors `E`. -/
def Gives (E : ε → Prop) (x : Except ε α) (P : α → Prop) : Prop :=
  match x with
  | .ok a => P a
  | .error e => E e

variable {E : ε → Prop} {x : Except ε α} {f : α → Except ε β} {P P' : α → Prop} {Q : β → Prop}

theorem gives_ok_bind {f : α → Except ε β} (h : Gives E (f a) Q) :
    Gives E (Except.ok a >>= f) Q := h

theorem Gives.mono (h : Gives E x P) (hP : ∀ a, P a → P' a) : Gives E x P' := by
  cases x with
  | ok a => exact hP a h
  | error e => exact h

theorem Gives.bind (h : Gives E x P) (hf : ∀ a, P a → Gives E (f a) Q) : Gives E (x >>= f) Q := by
  cases x with
  | ok a => exact hf a h
  | error e => exact h

theorem Gives.ne_error {e : ε} (h : Gives E x P) (he : ¬E e) : x ≠ .error e := by
  rintro rfl
  exact he h

theorem Gives.of_ok (h : Gives E x P) (hx : x = .ok a) : P a := by
  subst hx
  exact h

/-- Where no error is tolerated there is a result. -/
theorem Gives.total (h : Gives E x P) (hE : ∀ e, ¬E e) : ∃ a, x = .ok a := by
  cases x with
  | ok a => exact ⟨a, rfl⟩
  | error e => exact absurd h (hE e)

end Offsets
end V6User
