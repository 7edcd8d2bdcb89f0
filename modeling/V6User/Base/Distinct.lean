import Mathlib.Data.List.Basic
import Mathlib.Tactic.Common

/-!
# A table of distinct elements

A loop that puts each element of a list into a table of `n` places, unless it is there already
or the table is full (`collect`), has in the end the first `n` distinct elements of the list
(`collect_eq`).
-/

namespace V6User
namespace Distinct

variable {α β : Type} [DecidableEq α] {n : ℕ} {found as bs : List α}

/-- Put an element into the table. -/
def add (n : ℕ) (found : List α) (a : α) : List α :=
  if found.length < n ∧ a ∉ found then found ++ [a] else found

/-- Put the elements of a list into the table. -/
def collect (n : ℕ) (found as : List α) : List α := as.foldl (add n) found

theorem collect_append : collect n found (as ++ bs) = collect n (collect n found as) bs :=
  List.foldl_append

/-- One list after the other. -/
theorem foldl_collect (f : β → List α) (xs : List β) (found : List α) :
    xs.foldl (fun found x => collect n found (f x)) found = collect n found (xs.flatMap f) := by
  induction xs generalizing found with
  | nil => rfl
  | cons x xs ih => rw [List.foldl_cons, ih, List.flatMap_cons, collect_append]

theorem collect_full (h : ¬found.length < n) : collect n found as = found := by
  induction as with
  | nil => rfl
  | cons a as ih =>
    rw [collect, List.foldl_cons, add, if_neg fun hroom => h hroom.1]
    exact ih

/-- What the loop makes of a table. -/
theorem collect_of_le (hfound : found.length ≤ n) : collect n found as =
    (found ++ (as.filter fun a => decide (a ∉ found)).eraseDups).take n := by
  induction as generalizing found with
  | nil => simp [collect, List.take_of_length_le hfound]
  | cons a as ih =>
    by_cases hroom : found.length < n
    · rw [collect, List.foldl_cons, add]
      by_cases hmem : a ∈ found
      · have hfilter : (a :: as).filter (fun a => decide (a ∉ found)) =
            as.filter fun a => decide (a ∉ found) := by simp [hmem]
        rw [if_neg fun h => h.2 hmem, hfilter]
        exact ih hfound
      · have hfilter : (a :: as).filter (fun a => decide (a ∉ found)) =
            a :: as.filter fun a => decide (a ∉ found) := by simp [hmem]
        have hnext : (as.filter fun b => decide (b ∉ found)).filter (fun b => !b == a) =
            as.filter fun b => decide (b ∉ found ++ [a]) := by
          rw [List.filter_filter]
          refine List.filter_congr fun b _ => ?_
          by_cases hb : b = a <;> simp [hb]
        have hlen : (found ++ [a]).length ≤ n := by
          rw [List.length_append, List.length_singleton]
          omega
        rw [if_pos ⟨hroom, hmem⟩, hfilter, List.eraseDups_cons, hnext]
        have := ih hlen
        rw [List.append_assoc, List.singleton_append] at this
        exact this
    · rw [collect_full hroom, List.take_append_of_le_length (by omega),
        List.take_of_length_le hfound]

/-- **The table holds the first distinct elements.** -/
theorem collect_eq (n : ℕ) (as : List α) : collect n [] as = as.eraseDups.take n := by
  rw [collect_of_le (Nat.zero_le n)]
  simp

/-- No element is there twice. -/
theorem nodup_collect (hfound : found.Nodup) : (collect n found as).Nodup := by
  induction as generalizing found with
  | nil => exact hfound
  | cons a as ih =>
    rw [collect, List.foldl_cons]
    refine ih ?_
    unfold add
    split_ifs with h
    · rw [List.nodup_append]
      refine ⟨hfound, List.pairwise_singleton _ a, fun b hb c hc heq => h.2 ?_⟩
      rwa [← List.mem_singleton.1 hc, ← heq]
    · exact hfound

end Distinct
end V6User
