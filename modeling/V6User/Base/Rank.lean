import Mathlib.Data.List.Sort
import Mathlib.GroupTheory.Perm.Basic
import Mathlib.Logic.Equiv.Basic
import Mathlib.Tactic.Common

/-!
# Values in another order, and their ranks

`Shuffle l h a b`: the sequence `b` is `a` with the values at the positions from `l` up to `h`
in another order.  What holds of all values there still holds of all of them
(`Shuffle.forall`), and the first values make the same list up to its order (`Shuffle.perm`).

A value with smaller or equal ones before it and greater or equal ones behind it is where
sorting puts it (`AtRank.getElem_sort`), so that its rank is found without sorting.
-/

namespace V6User
namespace Rank

variable {α : Type}

/-- The first values of a sequence. -/
def window (a : ℕ → α) (n : ℕ) : List α := (List.range n).map a

/-- The values at the positions from `l` up to `h` in another order. -/
def Shuffle (l h : ℕ) (a b : ℕ → α) : Prop :=
  ∃ σ : Equiv.Perm ℕ, (∀ k, k < l ∨ h ≤ k → σ k = k) ∧ b = a ∘ σ

section Shuffle

variable {a b c : ℕ → α} {l h l' h' n i j : ℕ}

theorem Shuffle.refl (l h : ℕ) (a : ℕ → α) : Shuffle l h a a := ⟨1, fun _ _ => rfl, rfl⟩

theorem Shuffle.trans (hab : Shuffle l h a b) (hbc : Shuffle l h b c) : Shuffle l h a c := by
  obtain ⟨σ, hσ, rfl⟩ := hab
  obtain ⟨τ, hτ, rfl⟩ := hbc
  refine ⟨σ * τ, fun k hk => ?_, rfl⟩
  rw [Equiv.Perm.mul_apply, hτ k hk, hσ k hk]

/-- A part of the positions is among more of them. -/
theorem Shuffle.mono (hab : Shuffle l h a b) (hl : l' ≤ l) (hh : h ≤ h') : Shuffle l' h' a b := by
  obtain ⟨σ, hσ, rfl⟩ := hab
  exact ⟨σ, fun k hk => hσ k (by omega), rfl⟩

theorem shuffle_swap (a : ℕ → α) (hi : l ≤ i ∧ i < h) (hj : l ≤ j ∧ j < h) :
    Shuffle l h a (a ∘ Equiv.swap i j) :=
  ⟨Equiv.swap i j, fun _ _ => Equiv.swap_apply_of_ne_of_ne (by omega) (by omega), rfl⟩

/-- The other positions keep their values. -/
theorem Shuffle.outside (hab : Shuffle l h a b) {k : ℕ} (hk : k < l ∨ h ≤ k) : b k = a k := by
  obtain ⟨σ, hσ, rfl⟩ := hab
  exact congrArg a (hσ k hk)

/-- A position inside has the value of one inside. -/
theorem Shuffle.inside (hab : Shuffle l h a b) {k : ℕ} (hlo : l ≤ k) (hhi : k < h) :
    ∃ m, l ≤ m ∧ m < h ∧ b k = a m := by
  obtain ⟨σ, hσ, rfl⟩ := hab
  have hin : ¬(σ k < l ∨ h ≤ σ k) := fun hout => by
    have heq : σ k = k := σ.injective (hσ _ hout)
    omega
  exact ⟨σ k, by omega, by omega, rfl⟩

/-- **What holds of all values inside** still does. -/
theorem Shuffle.forall {P : α → Prop} (hab : Shuffle l h a b)
    (ha : ∀ k, l ≤ k → k < h → P (a k)) : ∀ k, l ≤ k → k < h → P (b k) := by
  intro k hlo hhi
  obtain ⟨m, hm, hm', heq⟩ := hab.inside hlo hhi
  rw [heq]
  exact ha m hm hm'

/-- **The first values make the same list** up to its order. -/
theorem Shuffle.perm (hab : Shuffle 0 n a b) : (window b n).Perm (window a n) := by
  obtain ⟨σ, hσ, rfl⟩ := hab
  have hlt : ∀ k, σ k < n ↔ k < n := by
    intro k
    constructor
    · intro hk
      by_contra hge
      rw [hσ k (Or.inr (by omega))] at hk
      exact hge hk
    · intro hk
      by_contra hge
      have heq : σ k = k := σ.injective (hσ _ (Or.inr (by omega)))
      omega
  have hmap : ((List.range n).map σ).Perm (List.range n) := by
    refine (List.perm_ext_iff_of_nodup (List.nodup_range.map σ.injective) List.nodup_range).2 ?_
    intro k
    rw [List.mem_map, List.mem_range]
    constructor
    · rintro ⟨m, hm, rfl⟩
      exact (hlt m).2 (List.mem_range.1 hm)
    · intro hk
      refine ⟨σ.symm k, List.mem_range.2 ((hlt _).1 ?_), σ.apply_symm_apply k⟩
      rwa [σ.apply_symm_apply]
  have hb : window (a ∘ σ) n = ((List.range n).map σ).map a := by
    rw [window, List.map_map]
  rw [hb]
  exact hmap.map a

end Shuffle

variable [LinearOrder α]

/-- The values before a position are not greater, and those behind it not smaller. -/
def AtRank (a : ℕ → α) (n w : ℕ) : Prop :=
  (∀ k, k < w → a k ≤ a w) ∧ ∀ k, w < k → k < n → a w ≤ a k

/-- Lists with the same values are sorted to the same list. -/
theorem mergeSort_eq_of_perm {l l' : List α} (h : l.Perm l') : l.mergeSort = l'.mergeSort := by
  refine List.Perm.eq_of_pairwise' (r := (· ≤ ·)) (List.pairwise_mergeSort' _ l)
    (List.pairwise_mergeSort' _ l') ?_
  exact (List.mergeSort_perm l _).trans (h.trans (List.mergeSort_perm l' _).symm)

/-- Sorting the parts around a value. -/
theorem mergeSort_append_cons {l l' : List α} {x : α} (hl : ∀ y ∈ l, y ≤ x)
    (hl' : ∀ y ∈ l', x ≤ y) :
    (l ++ x :: l').mergeSort = l.mergeSort ++ x :: l'.mergeSort := by
  have hmem : ∀ {y : α} {m : List α}, y ∈ m.mergeSort → y ∈ m := fun hy =>
    (List.mergeSort_perm _ _).mem_iff.1 hy
  refine List.Perm.eq_of_pairwise' (r := (· ≤ ·)) (List.pairwise_mergeSort' _ _) ?_ ?_
  · refine List.pairwise_append.2 ⟨List.pairwise_mergeSort' _ l, ?_, fun y hy z hz => ?_⟩
    · exact List.pairwise_cons.2 ⟨fun y hy => hl' y (hmem hy), List.pairwise_mergeSort' _ l'⟩
    · rcases List.mem_cons.1 hz with rfl | hz
      · exact hl y (hmem hy)
      · exact (hl y (hmem hy)).trans (hl' z (hmem hz))
  · refine (List.mergeSort_perm _ _).trans ?_
    exact (List.mergeSort_perm l _).symm.append ((List.mergeSort_perm l' _).symm.cons x)

/-- **A value of rank `w`** is where sorting puts the value of rank `w`. -/
theorem AtRank.getElem_sort {a : ℕ → α} {n w : ℕ} (h : AtRank a n w) (hw : w < n) :
    (window a n).mergeSort[w]? = some (a w) := by
  obtain ⟨d, rfl⟩ : ∃ d, n = w + (d + 1) := ⟨n - w - 1, by omega⟩
  have hsplit : window a (w + (d + 1)) =
      window a w ++ a w :: (List.range d).map fun k => a (w + (k + 1)) := by
    rw [window, List.range_add, List.map_append, List.map_map, List.range_succ_eq_map,
      List.map_cons, List.map_map]
    rfl
  have hfront : ∀ y ∈ window a w, y ≤ a w := by
    intro y hy
    obtain ⟨k, hk, rfl⟩ := List.mem_map.1 hy
    exact h.1 k (List.mem_range.1 hk)
  have hback : ∀ y ∈ (List.range d).map fun k => a (w + (k + 1)), a w ≤ y := by
    intro y hy
    obtain ⟨k, hk, rfl⟩ := List.mem_map.1 hy
    have hlt := List.mem_range.1 hk
    exact h.2 _ (by omega) (by omega)
  have hlen : (window a w).mergeSort.length = w := by
    rw [List.length_mergeSort, window, List.length_map, List.length_range]
  rw [hsplit, mergeSort_append_cons hfront hback, List.getElem?_append_right (by rw [hlen]), hlen,
    Nat.sub_self]
  rfl

end Rank
end V6User
