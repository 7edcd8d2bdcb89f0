import Mathlib.Algebra.BigOperators.Group.List.Basic
import Mathlib.Algebra.GroupWithZero.Nat
import Mathlib.Data.List.TakeWhile
import Mathlib.Tactic.Common

/-!
# The parts of a text between separators

`parts p s` are the parts of `s` that the elements with `p` cut it into, without the empty
ones.  `parts_induction` goes along the text, a separator or a part at a time; what the
parts are made of follows from it.  `filled` counts the parts that hold an element of some
kind, and grows by at most one for each run of elements that are not separators.
-/

namespace V6User
namespace Splitter

variable {α : Type} {p q : α → Bool} {a : α} {s t w : List α}

/-- The parts of a text that are not empty. -/
def parts (p : α → Bool) (s : List α) : List (List α) := (s.splitOnP p).filter (· ≠ [])

theorem parts_sep (ha : p a = true) : parts p (a :: s) = parts p s := by
  rw [parts, List.splitOnP_cons_eq_if_modifyHead, if_pos ha, List.filter_cons_of_neg (by simp)]
  rfl

theorem parts_part (hne : w ≠ []) (hw : ∀ a ∈ w, p a = false)
    (ht : t = [] ∨ ∃ a r, t = a :: r ∧ p a = true) : parts p (w ++ t) = w :: parts p t := by
  have hfilter : decide (w ≠ []) = true := decide_eq_true hne
  rcases ht with rfl | ⟨a, r, rfl, ha⟩
  · rw [List.append_nil, parts, List.splitOnP_eq_singleton hw, List.filter_cons, if_pos hfilter]
    rfl
  · rw [parts_sep ha, parts, List.splitOnP_append_cons_of_forall_mem hw a ha, List.filter_cons,
      if_pos hfilter]
    rfl

/-- Induction along a text, by separators and parts. -/
theorem parts_induction {P : List α → List (List α) → Prop} (nil : P [] [])
    (sep : ∀ a s, p a = true → P s (parts p s) → P (a :: s) (parts p s))
    (part : ∀ w t, w ≠ [] → (∀ a ∈ w, p a = false) → (t = [] ∨ ∃ a r, t = a :: r ∧ p a = true) →
      P t (parts p t) → P (w ++ t) (w :: parts p t)) (s : List α) : P s (parts p s) := by
  suffices h : ∀ n : ℕ, ∀ s : List α, s.length ≤ n → P s (parts p s) from
    h s.length s (Nat.le_refl _)
  intro n
  induction n with
  | zero =>
    intro s hs
    obtain rfl := List.eq_nil_of_length_eq_zero (Nat.le_zero.1 hs)
    exact nil
  | succ n ih =>
    intro s hs
    rcases s with _ | ⟨a, s⟩
    · exact nil
    · by_cases ha : p a = true
      · rw [parts_sep ha]
        exact sep a s ha (ih s (Nat.le_of_succ_le_succ hs))
      · have hfirst : (fun a => !p a) a = true := by simpa using ha
        have hw : (a :: s).takeWhile (fun a => !p a) = a :: s.takeWhile fun a => !p a :=
          List.takeWhile_cons_of_pos hfirst
        have ht : (a :: s).dropWhile (fun a => !p a) = s.dropWhile fun a => !p a :=
          List.dropWhile_cons_of_pos hfirst
        have hne : (a :: s).takeWhile (fun a => !p a) ≠ [] := hw ▸ List.cons_ne_nil _ _
        have hpart : ∀ b ∈ (a :: s).takeWhile (fun a => !p a), p b = false := fun b hb => by
          simpa using List.mem_takeWhile_imp hb
        have hrest : (a :: s).dropWhile (fun a => !p a) = [] ∨
            ∃ b r, (a :: s).dropWhile (fun a => !p a) = b :: r ∧ p b = true := by
          cases hd : (a :: s).dropWhile fun a => !p a with
          | nil => exact .inl rfl
          | cons b r =>
            have := List.head_dropWhile_not (fun a => !p a) (l := a :: s) (by simp [hd])
            exact .inr ⟨b, r, rfl, by simpa [hd] using this⟩
        have hlen : ((a :: s).dropWhile fun a => !p a).length ≤ n := by
          rw [ht]
          exact Nat.le_trans (List.dropWhile_suffix _).length_le (Nat.le_of_succ_le_succ hs)
        rw [← List.takeWhile_append_dropWhile (p := fun a => !p a) (l := a :: s),
          parts_part hne hpart hrest]
        exact part _ _ hne hpart hrest (ih _ hlen)

theorem of_mem_parts (h : w ∈ parts p s) : w ≠ [] ∧ ∀ a ∈ w, p a = false := by
  revert h
  refine parts_induction (P := fun _ ws => w ∈ ws → w ≠ [] ∧ ∀ a ∈ w, p a = false) nofun
    (fun _ _ _ ih => ih) (fun v t hne hv _ ih h => ?_) s
  rcases List.mem_cons.1 h with rfl | h
  · exact ⟨hne, hv⟩
  · exact ih h

theorem mem_of_mem_parts (hw : w ∈ parts p s) (ha : a ∈ w) : a ∈ s := by
  revert hw
  refine parts_induction (P := fun s ws => w ∈ ws → a ∈ s) nofun
    (fun b _ _ ih h => List.mem_cons_of_mem b (ih h)) (fun v t _ _ _ ih h => ?_) s
  rcases List.mem_cons.1 h with rfl | h
  · exact List.mem_append_left t ha
  · exact List.mem_append_right v (ih h)

/-- What is no separator is in a part. -/
theorem mem_parts (hs : a ∈ s) (ha : p a = false) : ∃ w ∈ parts p s, a ∈ w := by
  revert hs
  refine parts_induction (P := fun s ws => a ∈ s → ∃ w ∈ ws, a ∈ w) nofun
    (fun b s hb ih h => ?_) (fun w t _ _ _ ih h => ?_) s
  · rcases List.mem_cons.1 h with rfl | h
    · exact absurd (ha.symm.trans hb) Bool.false_ne_true
    · exact ih h
  · rcases List.mem_append.1 h with h | h
    · exact ⟨w, List.mem_cons_self, h⟩
    · obtain ⟨v, hv, hmem⟩ := ih h
      exact ⟨v, List.mem_cons_of_mem _ hv, hmem⟩

/-- The parts together hold what is no separator. -/
theorem sum_countP_parts (hpq : ∀ a, p a = true → q a = false) (s : List α) :
    ((parts p s).map (List.countP q)).sum = s.countP q := by
  refine parts_induction (P := fun s ws => (ws.map (List.countP q)).sum = s.countP q) rfl
    (fun a s ha ih => ?_) (fun w t _ _ _ ih => ?_) s
  · rw [ih, List.countP_cons_of_neg (by rw [hpq a ha]; exact Bool.false_ne_true)]
  · rw [List.map_cons, List.sum_cons, ih, List.countP_append]

/-! ### How many parts hold something -/

/-- The number of the parts that hold an element with `q`. -/
def filled (p q : α → Bool) (s : List α) : ℕ := (s.splitOnP p).countP (List.any · q)

theorem filled_parts (s : List α) : filled p q s = (parts p s).countP (List.any · q) := by
  rw [filled, parts, List.countP_filter]
  refine List.countP_congr fun w _ => ?_
  cases w <;> simp

/-- An element that does not count, separator or not. -/
theorem filled_cons (ha : q a = false) : filled p q (a :: s) = filled p q s := by
  rw [filled, filled, List.splitOnP_cons_eq_if_modifyHead]
  split_ifs with hp
  · exact List.countP_cons_of_neg (by simp)
  · obtain ⟨h, t, ht⟩ := List.exists_cons_of_ne_nil (List.splitOnP_ne_nil p s)
    rw [ht, List.modifyHead_cons, List.countP_cons, List.countP_cons, List.any_cons, ha,
      Bool.false_or]

theorem filled_append (hg : ∀ a ∈ w, q a = false) : filled p q (w ++ s) = filled p q s := by
  induction w with
  | nil => rfl
  | cons a w ih =>
    obtain ⟨ha, hw⟩ := List.forall_mem_cons.1 hg
    rw [List.cons_append, filled_cons ha, ih hw]

/-- A run without separators adds to one part. -/
theorem filled_append_le (hw : ∀ a ∈ w, p a = false) :
    filled p q (w ++ s) ≤ filled p q s + 1 := by
  have hsplit : (w ++ s).splitOnP p = (s.splitOnP p).modifyHead (w ++ ·) := by
    induction w with
    | nil =>
      obtain ⟨h, t, ht⟩ := List.exists_cons_of_ne_nil (List.splitOnP_ne_nil p s)
      rw [List.nil_append, ht]
      rfl
    | cons a w ih =>
      obtain ⟨ha, hw⟩ := List.forall_mem_cons.1 hw
      obtain ⟨h, t, ht⟩ := List.exists_cons_of_ne_nil (List.splitOnP_ne_nil p s)
      rw [List.cons_append, List.splitOnP_cons_eq_if_modifyHead, ha, if_neg Bool.false_ne_true,
        ih hw, ht]
      rfl
  obtain ⟨h, t, ht⟩ := List.exists_cons_of_ne_nil (List.splitOnP_ne_nil p s)
  rw [filled, filled, hsplit, ht, List.modifyHead_cons, List.countP_cons, List.countP_cons]
  split_ifs <;> omega

end Splitter
end V6User
