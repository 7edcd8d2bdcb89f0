import Mathlib.Data.List.Basic
import Mathlib.Tactic.Common

/-!
# A buffer with an end

`pushAll cap bs out` is the loop that writes elements to a buffer of `cap` places while
there is room.  Two such loops in a row are one (`pushAll_pushAll`), and what they leave is
the beginning of all that was to be written (`pushAll_eq`).
-/

namespace V6User
namespace Bounded

variable {α : Type} {cap : ℕ} {bs cs out : List α}

/-- Write elements while there is room. -/
def pushAll (cap : ℕ) : List α → List α → List α
  | [], out => out
  | b :: bs, out => if out.length < cap then pushAll cap bs (out ++ [b]) else out

theorem pushAll_of_full (h : ¬out.length < cap) : pushAll cap bs out = out := by
  cases bs with
  | nil => rfl
  | cons b bs => rw [pushAll, if_neg h]

/-- **Two loops are one.** -/
theorem pushAll_pushAll : pushAll cap cs (pushAll cap bs out) = pushAll cap (bs ++ cs) out := by
  induction bs generalizing out with
  | nil => rfl
  | cons b bs ih =>
    rw [pushAll, List.cons_append, pushAll]
    split_ifs with hroom
    · exact ih
    · exact pushAll_of_full hroom

/-- **The loop leaves the beginning of what was to be written.** -/
theorem pushAll_eq (h : out.length ≤ cap) : pushAll cap bs out = (out ++ bs).take cap := by
  induction bs generalizing out with
  | nil => rw [pushAll, List.append_nil, List.take_of_length_le h]
  | cons b bs ih =>
    rw [pushAll]
    split_ifs with hroom
    · rw [ih, List.append_assoc, List.singleton_append]
      rw [List.length_append, List.length_singleton]
      omega
    · have hcap : out.length = cap := by omega
      rw [List.take_append_of_le_length (Nat.le_of_eq hcap.symm), List.take_of_length_le h]

end Bounded
end V6User
