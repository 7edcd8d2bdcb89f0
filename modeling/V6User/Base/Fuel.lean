import Mathlib.Algebra.Order.Group.Nat
import Mathlib.Tactic.Common

/-!
# Computations with fuel

A computation with fuel is a function `ℕ → Except ε α` that may end in a
distinguished error `out` when its fuel is too small.  `Le out x y` says that
`x` ran out or is already `y`; a computation is `Mono` when more fuel only
turns "ran out" into a result, and it `Settles` on `y` when it gives `y` from
some amount of fuel on.  A monotone computation that settles and does not run
out gives the settled result (`Mono.eq_of_settles`), so existence of a result
can be proved with as much fuel as is convenient, and the bound on the fuel
separately.
-/

namespace V6User
namespace Fuel

variable {ε α β : Type} {out : ε}

/-- `x` ran out of fuel, or it is `y`. -/
def Le (out : ε) (x y : Except ε α) : Prop := x = .error out ∨ x = y

theorem Le.refl (x : Except ε α) : Le out x x := Or.inr rfl

theorem Le.trans {x y z : Except ε α} (h : Le out x y) (h' : Le out y z) : Le out x z := by
  rcases h with rfl | rfl
  · exact Or.inl rfl
  · exact h'

theorem le_out (y : Except ε α) : Le out (.error out) y := Or.inl rfl

/-- Running two computations in sequence is monotone. -/
theorem Le.bind {x y : Except ε α} {f g : α → Except ε β} (h : Le out x y)
    (hfg : ∀ a, Le out (f a) (g a)) : Le out (x >>= f) (y >>= g) := by
  rcases h with rfl | rfl
  · exact Or.inl rfl
  · cases x with
    | error e => exact Le.refl _
    | ok a => exact hfg a

/-- More fuel only turns "ran out" into a result. -/
def Mono (out : ε) (f : ℕ → Except ε α) : Prop := ∀ n, Le out (f n) (f (n + 1))

theorem Mono.le {f : ℕ → Except ε α} (hf : Mono out f) {m n : ℕ} (h : m ≤ n) :
    Le out (f m) (f n) := by
  induction h with
  | refl => exact Le.refl _
  | step _ ih => exact ih.trans (hf _)

/-- A sequence does not run out when neither part does. -/
theorem bind_ne_out {x : Except ε α} {f : α → Except ε β} (hx : x ≠ .error out)
    (hf : ∀ a, x = .ok a → f a ≠ .error out) : x >>= f ≠ .error out := by
  cases x with
  | error e => exact fun h => hx (by cases h; rfl)
  | ok a => exact hf a rfl

/-- From some amount of fuel on, the result is `y`. -/
def Settles (f : ℕ → Except ε α) (y : α) : Prop := ∃ N, ∀ n, N ≤ n → f n = .ok y

theorem settles_of_forall {f : ℕ → Except ε α} {y : α} (h : ∀ n, f n = .ok y) : Settles f y :=
  ⟨0, fun n _ => h n⟩

/-- The successor equation of a recursive function. -/
theorem Settles.of_succ {f g : ℕ → Except ε α} {y : α} (h : ∀ n, f (n + 1) = g n)
    (hg : Settles g y) : Settles f y := by
  obtain ⟨N, hN⟩ := hg
  refine ⟨N + 1, fun n hn => ?_⟩
  obtain ⟨m, rfl⟩ : ∃ m, n = m + 1 := ⟨n - 1, by omega⟩
  rw [h, hN m (by omega)]

/-- A computation settles on one result only. -/
theorem Settles.unique {f : ℕ → Except ε α} {x y : α} (hx : Settles f x) (hy : Settles f y) :
    x = y := by
  obtain ⟨N, hN⟩ := hx
  obtain ⟨M, hM⟩ := hy
  have h := (hN (max N M) (le_max_left N M)).symm.trans (hM (max N M) (le_max_right N M))
  exact Except.ok.inj h

theorem Settles.bind {f : ℕ → Except ε α} {g : ℕ → α → Except ε β} {a : α} {b : β}
    (hf : Settles f a) (hg : Settles (fun n => g n a) b) :
    Settles (fun n => f n >>= g n) b := by
  obtain ⟨N, hN⟩ := hf
  obtain ⟨M, hM⟩ := hg
  refine ⟨max N M, fun n hn => ?_⟩
  simp only [hN n (by omega)]
  exact hM n (by omega)

theorem Mono.settles {f : ℕ → Except ε α} (hf : Mono out f) {n : ℕ} {y : α} (h : f n = .ok y) :
    Settles f y := by
  refine ⟨n, fun m hm => ?_⟩
  rcases hf.le hm with he | he
  · rw [h] at he; cases he
  · rw [← he, h]

/-- **A monotone computation that settles gives the settled result** wherever
it does not run out. -/
theorem Mono.eq_of_settles {f : ℕ → Except ε α} (hf : Mono out f) {y : α} (h : Settles f y)
    {n : ℕ} (hn : f n ≠ .error out) : f n = .ok y := by
  obtain ⟨N, hN⟩ := h
  rcases hf.le (le_max_left n N) with he | he
  · exact absurd he hn
  · rw [he, hN _ (le_max_right n N)]

end Fuel
end V6User
