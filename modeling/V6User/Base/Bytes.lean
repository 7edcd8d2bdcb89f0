import Mathlib.Algebra.Group.Nat.Defs
import Mathlib.Data.Nat.Init
import Mathlib.Tactic.Common

/-!
# Numbers and ranges in a memory of bytes

A memory gives the byte at each offset.  `load w m o` is the number of `w` bytes at `o`, its
low byte first, `store w m o x` puts one there, and `copy m o src n` copies a range.  What
is stored is read back, and what lies elsewhere stays as it was.  `bit m j` is the bit with
the number `j`, the low bit of a byte first.
-/

namespace V6User
namespace Bytes

/-- A memory: its byte at each offset. -/
abbrev Mem := ℕ → UInt8

/-- The number of `w` bytes at an offset, low byte first. -/
def load : ℕ → Mem → ℕ → ℕ
  | 0, _, _ => 0
  | w + 1, m, o => (m o).toNat + 256 * load w m (o + 1)

/-- A number of `w` bytes, put at an offset. -/
def store (w : ℕ) (m : Mem) (o x : ℕ) : Mem := fun j =>
  if o ≤ j ∧ j < o + w then .ofNat (x / 256 ^ (j - o)) else m j

/-- The first `n` bytes of a memory, copied to an offset of another. -/
def copy (m : Mem) (o : ℕ) (src : Mem) (n : ℕ) : Mem := fun j =>
  if o ≤ j ∧ j < o + n then src (j - o) else m j

/-- The memory from an offset on. -/
def view (m : Mem) (o : ℕ) : Mem := fun j => m (o + j)

variable {w w' n o o' x j : ℕ} {m m' src : Mem}

theorem load_zero : load 0 m o = 0 := rfl

theorem load_succ : load (w + 1) m o = (m o).toNat + 256 * load w m (o + 1) := rfl

/-- A number is read from its bytes alone. -/
theorem load_congr (h : ∀ j, o ≤ j → j < o + w → m j = m' j) : load w m o = load w m' o := by
  induction w generalizing o with
  | zero => rfl
  | succ w ih =>
    rw [load_succ, load_succ, h o (Nat.le_refl o) (by omega),
      ih fun j hlo hhi => h j (by omega) (by omega)]

theorem load_view : load w (view m o) o' = load w m (o + o') := by
  induction w generalizing o' with
  | zero => rfl
  | succ w ih =>
    rw [load_succ, load_succ, ih]
    rfl

theorem load_of_zero (h : ∀ j, o ≤ j → j < o + w → m j = 0) : load w m o = 0 := by
  induction w generalizing o with
  | zero => rfl
  | succ w ih =>
    rw [load_succ, h o (Nat.le_refl o) (by omega), ih fun j hlo hhi => h j (by omega) (by omega)]
    rfl

/-- The digits of a number are the number. -/
theorem load_of_digits (h : ∀ k, k < w → m (o + k) = .ofNat (x / 256 ^ k)) :
    load w m o = x % 256 ^ w := by
  induction w generalizing o x with
  | zero => rw [load_zero, Nat.pow_zero, Nat.mod_one]
  | succ w ih =>
    have hrest : load w m (o + 1) = x / 256 % 256 ^ w := by
      refine ih fun k hk => ?_
      rw [Nat.add_assoc, h (1 + k) (by omega), Nat.div_div_eq_div_mul, Nat.pow_add, Nat.pow_one]
    have hfirst : (m o).toNat = x % 256 := by
      have hbyte := h 0 (Nat.zero_lt_succ w)
      rw [Nat.add_zero, Nat.pow_zero, Nat.div_one] at hbyte
      rw [hbyte]
      exact UInt8.toNat_ofNat'
    rw [load_succ, hrest, hfirst, Nat.pow_succ, Nat.mul_comm (256 ^ w), Nat.mod_mul]

/-- **What is stored is read back.** -/
theorem load_store_self (hx : x < 256 ^ w) : load w (store w m o x) o = x := by
  rw [load_of_digits (x := x), Nat.mod_eq_of_lt hx]
  intro k hk
  rw [store, if_pos ⟨by omega, by omega⟩, Nat.add_sub_cancel_left]

theorem store_of_outside (h : j < o ∨ o + w ≤ j) : store w m o x j = m j :=
  if_neg (by omega)

/-- What does not overlap stays as it was. -/
theorem load_store_of_disjoint (h : o' + w' ≤ o ∨ o + w ≤ o') :
    load w' (store w m o x) o' = load w' m o' :=
  load_congr fun _ hlo hhi => store_of_outside (by omega)

theorem copy_of_outside (h : j < o ∨ o + n ≤ j) : copy m o src n j = m j :=
  if_neg (by omega)

theorem copy_of_inside (hlo : o ≤ j) (hhi : j < o + n) : copy m o src n j = src (j - o) :=
  if_pos ⟨hlo, hhi⟩

theorem load_copy_inside (h : o' + w ≤ n) : load w (copy m o src n) (o + o') = load w src o' := by
  rw [← load_view]
  refine load_congr fun j hlo hhi => ?_
  rw [view, copy_of_inside (by omega) (by omega), Nat.add_sub_cancel_left]

/-! ### Bits -/

/-- The bit with a number, low bit of each byte first. -/
def bit (m : Mem) (j : ℕ) : Bool := (m (j / 8)).toNat.testBit (j % 8)

/-- The memory with this bit set. -/
def setBit (m : Mem) (j : ℕ) : Mem := fun k =>
  if k = j / 8 then m k ||| 1 <<< UInt8.ofNat (j % 8) else m k

theorem testBit_shift : ∀ k j : Fin 8,
    ((1 : UInt8) <<< UInt8.ofNat k.val).toNat.testBit j.val = decide (j = k) := by
  decide

/-- **Setting a bit** adds it to those that are set. -/
theorem bit_setBit (m : Mem) (j k : ℕ) : bit (setBit m j) k = (decide (k = j) || bit m k) := by
  unfold bit setBit
  split_ifs with hbyte
  · have hshift := testBit_shift ⟨j % 8, Nat.mod_lt j (by decide)⟩ ⟨k % 8, Nat.mod_lt k (by decide)⟩
    dsimp only at hshift
    have hsame : (k % 8 = j % 8) = (k = j) := propext (by constructor <;> omega)
    rw [UInt8.toNat_or, Nat.testBit_or, hshift, Bool.or_comm]
    simp only [Fin.mk.injEq, hsame]
  · have hne : k ≠ j := by
      rintro rfl
      exact hbyte rfl
    rw [decide_eq_false hne, Bool.false_or]

end Bytes
end V6User
