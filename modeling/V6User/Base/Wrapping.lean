import Mathlib.Algebra.BigOperators.Group.List.Basic
import Mathlib.Data.Nat.ModEq
import Mathlib.Tactic.Common

/-!
# Counters of 64 bits

Sums and differences of counters wrap around.  The difference of two of them is some amount
exactly when the amount fits and leads from one to the other modulo `2 ^ 64`
(`toNat_sub_eq_iff`).
-/

namespace V6User
namespace Wrapping

/-- The sum of counters, in the order of a list. -/
def total {α : Type} (c : α → UInt64) (l : List α) : UInt64 := l.foldl (fun s a => s + c a) 0

variable {α : Type} {c : α → UInt64}

theorem foldl_toNat (c : α → UInt64) (l : List α) (s : UInt64) :
    (l.foldl (fun s a => s + c a) s).toNat ≡ s.toNat + (l.map fun a => (c a).toNat).sum
      [MOD 2 ^ 64] := by
  induction l generalizing s with
  | nil => exact Nat.ModEq.refl _
  | cons a l ih =>
    have hstep : (s + c a).toNat ≡ s.toNat + (c a).toNat [MOD 2 ^ 64] := by
      rw [UInt64.toNat_add]
      exact Nat.mod_modEq _ _
    rw [List.foldl_cons, List.map_cons, List.sum_cons, ← Nat.add_assoc]
    exact (ih (s + c a)).trans (hstep.add_right _)

/-- A sum of counters is right modulo `2 ^ 64`. -/
theorem total_toNat (c : α → UInt64) (l : List α) :
    (total c l).toNat ≡ (l.map fun a => (c a).toNat).sum [MOD 2 ^ 64] := by
  have h := foldl_toNat c l 0
  rwa [UInt64.toNat_zero, Nat.zero_add] at h

/-- **The difference of two counters** is the amount `t`. -/
theorem toNat_sub_eq_iff (a b : UInt64) (t : ℕ) :
    (a - b).toNat = t ↔ t < 2 ^ 64 ∧ a.toNat ≡ t + b.toNat [MOD 2 ^ 64] := by
  have ha := a.toNat_lt
  have hb := b.toNat_lt
  rw [UInt64.toNat_sub, Nat.ModEq, Nat.mod_eq_of_lt ha]
  constructor
  · rintro rfl
    refine ⟨Nat.mod_lt _ (by omega), ?_⟩
    omega
  · rintro ⟨ht, h⟩
    omega

end Wrapping
end V6User
