import Mathlib.Algebra.Group.Basic
import Mathlib.Algebra.Group.Int.Defs
import Mathlib.Data.Int.Init
import Mathlib.Logic.Function.Basic
import Mathlib.Tactic.Common

/-!
# A flat memory with addresses that are not mapped

A memory gives the byte at each address, or nothing where none is mapped; reading or writing
there is a fault.  A program that returns from the memory in which just some range is mapped
has therefore used no address outside that range.

`fill m a n f` is the memory with the `n` bytes from `a` on replaced, the one at `a + j` by
`f j`; all other addresses keep what they have.
-/

namespace V6User
namespace Flat

/-- The byte at each address, `none` where nothing is mapped. -/
abbrev Memory := ℤ → Option UInt8

/-- Why a program did not return: an access to an address that is not mapped, or no fuel. -/
inductive Stop where
  | fault
  | fuel
  deriving DecidableEq, Repr

/-- The byte at an address. -/
def read (m : Memory) (a : ℤ) : Except Stop UInt8 :=
  match m a with
  | none => .error .fault
  | some b => .ok b

/-- A byte put at an address. -/
def write (m : Memory) (a : ℤ) (b : UInt8) : Except Stop Memory :=
  match m a with
  | none => .error .fault
  | some _ => .ok (Function.update m a (some b))

/-- Each of the `n` addresses from `a` on is mapped. -/
def Mapped (m : Memory) (a n : ℤ) : Prop := ∀ x, a ≤ x → x < a + n → ∃ b, m x = some b

/-- The memory with the `n` bytes from `a` on replaced. -/
def fill (m : Memory) (a n : ℤ) (f : ℤ → Option UInt8) : Memory := fun x =>
  if a ≤ x ∧ x < a + n then f (x - a) else m x

variable {m : Memory} {a n x : ℤ} {b c : UInt8} {f : ℤ → Option UInt8}

@[simp] theorem ok_bind {α β : Type} (x : α) (f : α → Except Stop β) :
    (Except.ok x >>= f) = f x := rfl

@[simp] theorem error_bind {α β : Type} (e : Stop) (f : α → Except Stop β) :
    (Except.error e >>= f) = .error e := rfl

theorem read_of_some (h : m a = some b) : read m a = .ok b := by
  rw [read, h]

theorem write_of_some (h : m a = some c) : write m a b = .ok (Function.update m a (some b)) := by
  rw [write, h]

theorem write_of_none (h : m a = none) : write m a b = .error .fault := by
  rw [write, h]

theorem fill_of_inside (hlo : a ≤ x) (hhi : x < a + n) : fill m a n f x = f (x - a) :=
  if_pos ⟨hlo, hhi⟩

theorem fill_of_outside (h : x < a ∨ a + n ≤ x) : fill m a n f x = m x :=
  if_neg (by omega)

/-- Nothing is replaced in an empty range. -/
theorem fill_empty (hn : n ≤ 0) : fill m a n f = m := by
  funext x
  exact fill_of_outside (by omega)

/-- What a write maps was mapped before. -/
theorem Mapped.update (h : Mapped m a n) : Mapped (Function.update m x (some b)) a n := by
  intro y hlo hhi
  by_cases hyx : y = x
  · exact ⟨b, by rw [hyx, Function.update_self]⟩
  · rw [Function.update_of_ne hyx]
    exact h y hlo hhi

/-- A range with one byte more at its end. -/
theorem fill_snoc (hn : 0 ≤ n) (hf : f n = some b) :
    Function.update (fill m a n f) (a + n) (some b) = fill m a (n + 1) f := by
  funext x
  by_cases hx : x = a + n
  · rw [hx, Function.update_self, fill_of_inside (by omega) (by omega), add_sub_cancel_left, hf]
  · rw [Function.update_of_ne hx]
    by_cases hin : a ≤ x ∧ x < a + n
    · rw [fill_of_inside hin.1 hin.2, fill_of_inside hin.1 (by omega)]
    · rw [fill_of_outside (by omega), fill_of_outside (by omega)]

/-- The bytes of a list lie in the memory, from an address on. -/
def At (m : Memory) : ℤ → List UInt8 → Prop
  | _, [] => True
  | a, b :: l => m a = some b ∧ At m (a + 1) l

end Flat
end V6User
