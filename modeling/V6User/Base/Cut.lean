import Mathlib.Data.List.Basic

/-!
# Pieces of one length

A list cut into pieces of `w` elements, the last of which may be shorter (`cut`).

Parts that are cut one after the other give pieces that are even, but for the last one, exactly
where each part but the last is a multiple of the piece (`even_flatMap_cut`).
-/

namespace V6User
namespace Cut

variable {α : Type*} {w : ℕ} {l : List α} {ps : List (List α)}

/-- The pieces of `w` elements. -/
def cut (w : ℕ) (l : List α) : List (List α) :=
  if l.length = 0 ∨ w = 0 then [] else l.take w :: cut w (l.drop w)
termination_by l.length
decreasing_by
  rw [List.length_drop]
  omega

/-- All pieces but the last have `w` elements. -/
def Even (w : ℕ) (ps : List (List α)) : Prop := ∀ p ∈ ps.dropLast, p.length = w

theorem cut_nil : cut w ([] : List α) = [] := by
  rw [cut, if_pos (.inl List.length_nil)]

theorem cut_of_ne_nil (hw : 0 < w) (hl : l ≠ []) : cut w l = l.take w :: cut w (l.drop w) := by
  have hpos := List.length_pos_iff.2 hl
  rw [cut, if_neg (by omega)]

theorem cut_ne_nil (hw : 0 < w) (hl : l ≠ []) : cut w l ≠ [] := by
  rw [cut_of_ne_nil hw hl]
  exact List.cons_ne_nil _ _

/-- The induction over the pieces: what holds of the empty list, and of a list if it does after
its first piece, holds of every list. -/
theorem dropInduction (hw : 0 < w) {motive : List α → Prop} (nil : motive [])
    (step : ∀ l, l ≠ [] → motive (l.drop w) → motive l) (l : List α) : motive l := by
  by_cases hl : l = []
  · exact hl ▸ nil
  · exact step l hl (dropInduction hw nil step (l.drop w))
termination_by l.length
decreasing_by
  have hpos := List.length_pos_iff.2 hl
  rw [List.length_drop]
  omega

/-- **The pieces are the whole list.** -/
theorem flatten_cut (hw : 0 < w) (l : List α) : (cut w l).flatten = l := by
  induction l using dropInduction hw with
  | nil => rw [cut_nil, List.flatten_nil]
  | step l hl ih => rw [cut_of_ne_nil hw hl, List.flatten_cons, ih, List.take_append_drop]

theorem flatten_flatMap_cut (hw : 0 < w) (parts : List (List α)) :
    (parts.flatMap (cut w)).flatten = parts.flatten := by
  induction parts with
  | nil => rfl
  | cons part parts ih =>
    rw [List.flatMap_cons, List.flatten_append, List.flatten_cons, flatten_cut hw, ih]

theorem length_of_mem_cut (hw : 0 < w) {p : List α} (hp : p ∈ cut w l) :
    0 < p.length ∧ p.length ≤ w := by
  induction l using dropInduction hw with
  | nil =>
    rw [cut_nil] at hp
    exact absurd hp List.not_mem_nil
  | step l hl ih =>
    have hpos := List.length_pos_iff.2 hl
    rw [cut_of_ne_nil hw hl] at hp
    rcases List.mem_cons.1 hp with rfl | hp
    · rw [List.length_take]
      omega
    · exact ih hp

/-- All pieces have `w` elements if the list is a multiple of them. -/
theorem forall_cut_iff (hw : 0 < w) (l : List α) :
    (∀ p ∈ cut w l, p.length = w) ↔ w ∣ l.length := by
  induction l using dropInduction hw with
  | nil =>
    rw [cut_nil]
    simp
  | step l hl ih =>
    have hpos := List.length_pos_iff.2 hl
    have hmin : min w l.length = w ↔ w ≤ l.length := by omega
    rw [cut_of_ne_nil hw hl, List.forall_mem_cons, ih, List.length_take, List.length_drop, hmin]
    constructor
    · rintro ⟨hle, hdvd⟩
      exact (Nat.dvd_sub_iff_left hle (Nat.dvd_refl w)).1 hdvd
    · intro hdvd
      have hle := Nat.le_of_dvd hpos hdvd
      exact ⟨hle, (Nat.dvd_sub_iff_left hle (Nat.dvd_refl w)).2 hdvd⟩

/-- **The pieces of one list are even.** -/
theorem even_cut (hw : 0 < w) (l : List α) : Even w (cut w l) := by
  induction l using dropInduction hw with
  | nil =>
    rw [cut_nil]
    exact fun p hp => absurd hp List.not_mem_nil
  | step l hl ih =>
    rw [cut_of_ne_nil hw hl]
    by_cases hdrop : l.drop w = []
    · rw [hdrop, cut_nil]
      exact fun p hp => absurd hp List.not_mem_nil
    · intro p hp
      rw [List.dropLast_cons_of_ne_nil (cut_ne_nil hw hdrop)] at hp
      rcases List.mem_cons.1 hp with rfl | hp
      · have hpos := List.length_pos_iff.2 hdrop
        rw [List.length_drop] at hpos
        rw [List.length_take]
        omega
      · exact ih p hp

theorem even_append {qs : List (List α)} (hqs : qs ≠ []) :
    Even w (ps ++ qs) ↔ (∀ p ∈ ps, p.length = w) ∧ Even w qs := by
  rw [Even, List.dropLast_append_of_ne_nil hqs, List.forall_mem_append, Even]

/-- **Parts that are cut one after the other.** -/
theorem even_flatMap_cut (hw : 0 < w) {parts : List (List α)} (hparts : ∀ part ∈ parts, part ≠ []) :
    Even w (parts.flatMap (cut w)) ↔ ∀ part ∈ parts.dropLast, w ∣ part.length := by
  induction parts with
  | nil => simp [Even]
  | cons part parts ih =>
    obtain ⟨hpart, hparts⟩ := List.forall_mem_cons.1 hparts
    rw [List.flatMap_cons]
    cases parts with
    | nil =>
      rw [List.flatMap_nil, List.append_nil, List.dropLast_singleton]
      exact iff_of_true (even_cut hw part) fun p hp => absurd hp List.not_mem_nil
    | cons next parts =>
      have hne : (next :: parts).flatMap (cut w) ≠ [] := by
        rw [List.flatMap_cons]
        exact List.append_ne_nil_of_left_ne_nil
          (cut_ne_nil hw (hparts next List.mem_cons_self)) _
      rw [even_append hne, ih hparts, forall_cut_iff hw, List.dropLast_cons_cons,
        List.forall_mem_cons]

/-- Where the pieces before one are even, they have the same number of elements each. -/
theorem Even.length_flatten_take (h : Even w ps) {i : ℕ} (hi : i < ps.length) :
    (ps.take i).flatten.length = i * w := by
  have hall : ∀ p ∈ ps.take i, p.length = w := by
    intro p hp
    have hsub : ps.take i <+: ps.dropLast := by
      rw [List.dropLast_eq_take]
      exact List.take_prefix_take_left (by omega)
    exact h p (hsub.subset hp)
  have hlen : (ps.take i).length = i := List.length_take_of_le (Nat.le_of_lt hi)
  rw [List.length_flatten, List.map_congr_left hall, List.map_const', List.sum_replicate_nat, hlen]

end Cut
end V6User
