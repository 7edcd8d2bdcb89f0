import Mathlib.Data.Int.Init
import Mathlib.Tactic.Common

/-!
# Searching by halves

`bisect p lo hi` looks for the last number of a range for which `p` holds, if `p` holds up to
some number and not after it.  Its middle is rounded up, so that both halves are shorter than
the range (`middle_bounds`), and the first number is never tried.
-/

namespace V6User
namespace Bisect

variable {p : ℤ → Bool} {lo hi k : ℤ}

/-- The middle of a range, rounded up. -/
def middle (lo hi : ℤ) : ℤ := lo + (hi - lo + 1).tdiv 2

theorem middle_bounds (h : lo < hi) : lo < middle lo hi ∧ middle lo hi ≤ hi := by
  rw [middle, Int.tdiv_eq_ediv_of_nonneg (by omega)]
  omega

/-- The search: the left half is left out if `p` holds in the middle, the right one if not. -/
def bisect (p : ℤ → Bool) (lo hi : ℤ) : ℤ :=
  if lo < hi then
    if p (middle lo hi) then bisect p (middle lo hi) hi else bisect p lo (middle lo hi - 1)
  else lo
termination_by (hi - lo).toNat
decreasing_by
  all_goals
    have hmiddle := middle_bounds ‹lo < hi›
    clear * - hmiddle
    omega

/-- What is found is in the range. -/
theorem bisect_bounds (h : lo ≤ hi) : lo ≤ bisect p lo hi ∧ bisect p lo hi ≤ hi := by
  fun_induction bisect p lo hi with
  | case1 lo hi hlt hp ih =>
    have hmiddle := middle_bounds hlt
    have hih := ih hmiddle.2
    omega
  | case2 lo hi hlt hp ih =>
    have hmiddle := middle_bounds hlt
    have hih := ih (by omega)
    omega
  | case3 lo hi hle => exact ⟨Int.le_refl lo, h⟩

/-- `p` holds for what is found, unless that is where the range begins. -/
theorem bisect_holds (h : lo < bisect p lo hi) : p (bisect p lo hi) = true := by
  fun_induction bisect p lo hi with
  | case1 lo hi hlt hp ih =>
    by_cases heq : middle lo hi < bisect p (middle lo hi) hi
    · exact ih heq
    · have hle := (bisect_bounds (p := p) (middle_bounds hlt).2).1
      rw [show bisect p (middle lo hi) hi = middle lo hi by omega]
      exact hp
  | case2 lo hi hlt hp ih => exact ih h
  | case3 lo hi hle => omega

/-- `p` does not hold for what lies behind, if it does not begin to hold again. -/
theorem bisect_fails (hp : ∀ a b, lo < a → a ≤ b → b ≤ hi → p b = true → p a = true)
    (hk : bisect p lo hi < k) (hhi : k ≤ hi) : p k = false := by
  fun_induction bisect p lo hi with
  | case1 lo hi hlt hmid ih =>
    have hmiddle := middle_bounds hlt
    exact ih (fun a b ha => hp a b (by omega)) hk hhi
  | case2 lo hi hlt hmid ih =>
    have hmiddle := middle_bounds hlt
    by_cases hkm : k ≤ middle lo hi - 1
    · exact ih (fun a b ha hab hb => hp a b ha hab (by omega)) hk hkm
    · rw [← Bool.not_eq_true]
      exact fun h => hmid (hp _ k hmiddle.1 (by omega) hhi h)
  | case3 lo hi hle => omega

end Bisect
end V6User
