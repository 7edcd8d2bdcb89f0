import Mathlib.Algebra.BigOperators.Group.List.Basic
import Mathlib.Algebra.Ring.Nat
import Mathlib.Data.List.Perm.Basic
import Mathlib.Order.OrderIsoNat

/-!
# A list with one element replaced

What the elements of a list carry, put together (`perm_flatMap_set`) or added up
(`sum_map_set`), and the elements in any order (`coe_set_add`), where one element is replaced by
another.  A weight that every step makes smaller bounds the number of steps
(`not_infinite_of_lt`).
-/

namespace V6User

variable {α β : Type}

/-- **One element is replaced.**  What the old one carries goes to the new one and to `e`. -/
theorem perm_flatMap_set {f : α → List β} {l : List α} {i : ℕ} {a b : α} {e : List β}
    (h : l[i]? = some a) (hf : (f a).Perm (f b ++ e)) :
    (l.flatMap f).Perm ((l.set i b).flatMap f ++ e) := by
  induction l generalizing i with
  | nil => exact absurd h (by simp)
  | cons c l ih =>
    cases i with
    | zero =>
      obtain rfl : c = a := by simpa using h
      rw [List.set_cons_zero, List.flatMap_cons, List.flatMap_cons, List.append_assoc]
      have hswap : (f b ++ e ++ l.flatMap f).Perm (f b ++ (l.flatMap f ++ e)) := by
        rw [List.append_assoc]
        exact List.perm_append_comm.append_left (f b)
      exact (hf.append_right _).trans hswap
    | succ i =>
      rw [List.getElem?_cons_succ] at h
      rw [List.set_cons_succ, List.flatMap_cons, List.flatMap_cons, List.append_assoc]
      exact (ih h).append_left (f c)

/-- The sum where one element is replaced. -/
theorem sum_map_set {f : α → ℕ} {l : List α} {i : ℕ} {a : α} (h : l[i]? = some a) (b : α) :
    ((l.set i b).map f).sum + f a = (l.map f).sum + f b := by
  induction l generalizing i with
  | nil => exact absurd h (by simp)
  | cons c l ih =>
    cases i with
    | zero =>
      obtain rfl : c = a := by simpa using h
      rw [List.set_cons_zero, List.map_cons, List.map_cons, List.sum_cons, List.sum_cons]
      omega
    | succ i =>
      rw [List.getElem?_cons_succ] at h
      rw [List.set_cons_succ, List.map_cons, List.map_cons, List.sum_cons, List.sum_cons]
      have hlater := ih h
      omega

/-- The elements in any order, where one is replaced. -/
theorem coe_set_add {l : List α} {i : ℕ} {a : α} (h : l[i]? = some a) (b : α) :
    ((l.set i b : List α) : Multiset α) + {a} = (l : Multiset α) + {b} := by
  induction l generalizing i with
  | nil => exact absurd h (by simp)
  | cons c l ih =>
    cases i with
    | zero =>
      obtain rfl : c = a := by simpa using h
      rw [List.set_cons_zero, ← Multiset.cons_coe, ← Multiset.cons_coe, Multiset.cons_add,
        add_comm (l : Multiset α) {c}, Multiset.singleton_add, Multiset.cons_add,
        add_comm (l : Multiset α) {b}, Multiset.singleton_add, Multiset.cons_swap]
    | succ i =>
      rw [List.getElem?_cons_succ] at h
      rw [List.set_cons_succ, ← Multiset.cons_coe, ← Multiset.cons_coe, Multiset.cons_add,
        Multiset.cons_add, ih h]

/-- **Steps that lower a weight come to an end.** -/
theorem not_infinite_of_lt {σ : Type} {next : σ → σ → Prop} (weight : σ → ℕ)
    (h : ∀ s s', next s s' → weight s' < weight s) :
    ¬∃ f : ℕ → σ, ∀ n, next (f n) (f (n + 1)) := by
  rintro ⟨f, hf⟩
  exact not_strictAnti_of_wellFoundedLT (fun n => weight (f n))
    (strictAnti_nat_of_succ_lt fun n => h _ _ (hf n))

end V6User
