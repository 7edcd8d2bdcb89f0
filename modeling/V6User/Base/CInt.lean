import Mathlib.Algebra.Group.Int.Defs
import Mathlib.Algebra.Group.Nat.Defs
import Mathlib.Data.Int.Init
import Mathlib.Tactic.Common

/-!
# Integers of a fixed width

`int32 x` and `int64 x` are the signed integers with the low bits of `x`, and `uint32 x` the
unsigned one.  In their range they are `x`, and `int32 x` is negative exactly when bit 31 of
`x` is set.
-/

namespace V6User
namespace CInt

/-- The `int` with the low bits of a number. -/
def int32 (x : ℤ) : ℤ := x.bmod (2 ^ 32)

/-- The `int64` with the low bits of a number. -/
def int64 (x : ℤ) : ℤ := x.bmod (2 ^ 64)

/-- The `uint` with the low bits of a number. -/
def uint32 (x : ℤ) : ℕ := (x % 2 ^ 32).toNat

variable {x : ℤ}

theorem int32_of_range (hlo : -2 ^ 31 ≤ x) (hhi : x < 2 ^ 31) : int32 x = x :=
  Int.bmod_eq_of_le (by omega) (by omega)

/-- An `int` with its top bit set. -/
theorem int32_of_high (hlo : 2 ^ 31 ≤ x) (hhi : x < 2 ^ 32) : int32 x = x - 2 ^ 32 := by
  rw [int32, Int.bmod_def, Int.emod_eq_of_lt (by omega) (by omega), if_neg (by omega)]
  omega

theorem int64_of_range (hlo : -2 ^ 63 ≤ x) (hhi : x < 2 ^ 63) : int64 x = x :=
  Int.bmod_eq_of_le (by omega) (by omega)

theorem int32_bounds (x : ℤ) : -2 ^ 31 ≤ int32 x ∧ int32 x < 2 ^ 31 := by
  have hlo := Int.le_bmod (x := x) (m := 2 ^ 32) (by decide)
  have hhi := Int.bmod_lt (x := x) (m := 2 ^ 32) (by decide)
  rw [int32]
  constructor <;> omega

/-- **An `int` is negative exactly when its top bit is set.** -/
theorem int32_neg_iff : int32 x < 0 ↔ 2 ^ 31 ≤ x % 2 ^ 32 := by
  rw [int32, Int.bmod_def]
  split_ifs <;> constructor <;> omega

theorem uint32_of_range (hlo : 0 ≤ x) (hhi : x < 2 ^ 32) : uint32 x = x.toNat := by
  rw [uint32, Int.emod_eq_of_lt hlo (by omega)]

/-- A digit more of a number that may have wrapped. -/
theorem int32_mul_add (x a b : ℤ) : int32 (int32 x * a + b) = int32 (x * a + b) := by
  rw [int32, int32, int32, ← Int.bmod_add_bmod, Int.bmod_mul_bmod, Int.bmod_add_bmod]

theorem int64_mul_add (x a b : ℤ) : int64 (int64 x * a + b) = int64 (x * a + b) := by
  rw [int64, int64, int64, ← Int.bmod_add_bmod, Int.bmod_mul_bmod, Int.bmod_add_bmod]

/-- The low bits of an `int` are those it was made from. -/
theorem uint32_int32 (x : ℤ) : uint32 (int32 x) = uint32 x := by
  rw [uint32, uint32, int32, Int.bmod_def]
  split_ifs <;> omega

/-- A `uint` counts up until it wraps. -/
theorem uint32_add_one (h : uint32 x < 2 ^ 32 - 1) : uint32 (x + 1) = uint32 x + 1 := by
  unfold uint32 at h ⊢
  omega

theorem int32_uint32 (x : ℤ) : int32 (uint32 x) = int32 x := by
  rw [int32, uint32, Int.toNat_of_nonneg (Int.emod_nonneg x (by decide))]
  exact Int.emod_bmod ..

end CInt
end V6User
