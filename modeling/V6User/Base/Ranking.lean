import Mathlib.Data.List.Induction
import Mathlib.Data.List.Sort
import Mathlib.Tactic.Common

/-!
# The best elements, one after the other

A loop over a table keeps the first of the best elements it has seen (`best`).  Run again and again
over what has not been taken yet, it takes the elements of the table in the order into which a
stable sort puts them (`ranking_eq`).
-/

namespace V6User
namespace Ranking

variable {α : Type}

/-- The best element so far, which a later one has to beat. -/
def keep (beats : α → α → Bool) (b : Option α) (a : α) : Option α :=
  match b with
  | none => some a
  | some b => if beats a b then some a else some b

/-- The loop over the elements of which some are in play. -/
def best (beats : α → α → Bool) (play : α → Bool) (l : List α) : Option α :=
  l.foldl (fun b a => if play a then keep beats b a else b) none

/-- The loop over so many ranks, with the positions in the table that are taken. -/
def ranking (beats : α → α → Bool) (used : α → Bool) (l : List α) : ℕ → List ℕ → List α
  | 0, _ => []
  | n + 1, taken =>
    match best (fun a b => beats a.1 b.1) (fun a => used a.1 && !taken.contains a.2) l.zipIdx with
    | none => []
    | some b => b.1 :: ranking beats used l n (b.2 :: taken)

/-- No element is better than another one. -/
def Behind (beats : α → α → Bool) (a b : α) : Prop := beats b a = false

instance (beats : α → α → Bool) : DecidableRel (Behind beats) := fun a b =>
  inferInstanceAs (Decidable (beats b a = false))

variable {beats : α → α → Bool} {l : List α}

theorem best_eq (play : α → Bool) : best beats play l = (l.filter play).foldl (keep beats) none := by
  rw [List.foldl_filter]
  rfl

/-- **The best element** beats those before it and is beaten by none behind it. -/
theorem exists_best (htrans : ∀ a b c, Behind beats a b → Behind beats b c → Behind beats a c)
    (htotal : ∀ a b, Behind beats a b ∨ Behind beats b a) (hne : l ≠ []) :
    ∃ l₁ x l₂, l = l₁ ++ x :: l₂ ∧ l.foldl (keep beats) none = some x ∧
      (∀ y ∈ l₁, ¬Behind beats y x) ∧ ∀ y ∈ l₂, Behind beats x y := by
  induction l using List.reverseRecOn with
  | nil => exact absurd rfl hne
  | append_singleton l z ih =>
    by_cases hl : l = []
    · subst hl
      exact ⟨[], z, [], rfl, rfl, by simp, by simp⟩
    · obtain ⟨l₁, x, l₂, hsplit, hfold, hbefore, hbehind⟩ := ih hl
      rw [List.foldl_append, hfold]
      by_cases hz : beats z x = true
      · have hnot : ¬Behind beats x z := by simp [Behind, hz]
        have hx : Behind beats z x := (htotal x z).resolve_left hnot
        refine ⟨l, z, [], rfl, if_pos hz, fun y hy hyz => ?_, by simp⟩
        rw [hsplit, List.mem_append, List.mem_cons] at hy
        rcases hy with hy | rfl | hy
        · exact hbefore y hy (htrans y z x hyz hx)
        · exact hnot hyz
        · exact hnot (htrans x y z (hbehind y hy) hyz)
      · refine ⟨l₁, x, l₂ ++ [z], by rw [hsplit]; simp, if_neg hz, hbefore, fun y hy => ?_⟩
        rcases List.mem_append.1 hy with hy | hy
        · exact hbehind y hy
        · rw [List.mem_singleton.1 hy]
          exact Bool.eq_false_iff.2 hz

/-- It is the first one of the sorted list. -/
theorem insertionSort_best {l₁ l₂ : List α} {x : α} (hbefore : ∀ y ∈ l₁, ¬Behind beats y x)
    (hbehind : ∀ y ∈ l₂, Behind beats x y) : (l₁ ++ x :: l₂).insertionSort (Behind beats) =
      x :: (l₁ ++ l₂).insertionSort (Behind beats) := by
  induction l₁ with
  | nil => exact List.insertionSort_cons_of_forall_rel _ hbehind
  | cons a l₁ ih =>
    obtain ⟨ha, hl₁⟩ := List.forall_mem_cons.1 hbefore
    rw [List.cons_append, List.insertionSort_cons, ih hl₁, List.orderedInsert_cons, if_neg ha,
      List.cons_append, List.insertionSort_cons]

/-- **The ranks are those of a stable sort.** -/
theorem ranking_eq (htrans : ∀ a b c, Behind beats a b → Behind beats b c → Behind beats a c)
    (htotal : ∀ a b, Behind beats a b ∨ Behind beats b a) (used : α → Bool) (n : ℕ) :
    ranking beats used l n [] = ((l.filter used).insertionSort (Behind beats)).take n := by
  -- the loop for any positions that are taken already
  have hrun : ∀ taken : List ℕ, ranking beats used l n taken =
      (((l.zipIdx.filter fun a => used a.1 && !taken.contains a.2).insertionSort
        (Behind fun a b => beats a.1 b.1)).take n).map Prod.fst := by
    induction n with
    | zero => exact fun _ => rfl
    | succ n ih =>
      intro taken
      rw [ranking, best_eq]
      by_cases hnil : (l.zipIdx.filter fun a => used a.1 && !taken.contains a.2) = []
      · rw [hnil]
        rfl
      · obtain ⟨l₁, x, l₂, hsplit, hbest, hbefore, hbehind⟩ :=
          @exists_best _ (fun a b : α × ℕ => beats a.1 b.1) _
            (fun a b c => htrans a.1 b.1 c.1) (fun a b => htotal a.1 b.1) hnil
        have hnodup : ((l₁ ++ x :: l₂).map Prod.snd).Nodup := by
          rw [← hsplit]
          refine List.Nodup.sublist (List.filter_sublist.map Prod.snd) ?_
          rw [List.zipIdx_map_snd]
          exact List.nodup_range'
        have hrest : (l.zipIdx.filter fun a => used a.1 && !(x.2 :: taken).contains a.2) =
            l₁ ++ l₂ := by
          have hfilter : (l.zipIdx.filter fun a => used a.1 && !(x.2 :: taken).contains a.2) =
              (l₁ ++ x :: l₂).filter fun a => a.2 != x.2 := by
            rw [← hsplit, List.filter_filter]
            refine List.filter_congr fun a _ => ?_
            rw [List.contains_cons, Bool.not_or]
            cases used a.1 <;> cases taken.contains a.2 <;> cases h : a.2 == x.2 <;> simp_all
          rw [List.map_append, List.map_cons, List.nodup_middle, List.nodup_cons,
            List.mem_append] at hnodup
          rw [hfilter, List.filter_append, List.filter_cons_of_neg (by simp),
            List.filter_eq_self.2, List.filter_eq_self.2]
          · intro a ha
            exact bne_iff_ne.2 fun heq => hnodup.1 (.inr (heq ▸ List.mem_map_of_mem ha))
          · intro a ha
            exact bne_iff_ne.2 fun heq => hnodup.1 (.inl (heq ▸ List.mem_map_of_mem ha))
        rw [hbest, hsplit, insertionSort_best hbefore hbehind, List.take_succ_cons, List.map_cons]
        dsimp only
        rw [ih, hrest]
  have hfst : (l.zipIdx.filter fun a => used a.1 && !([] : List ℕ).contains a.2).map Prod.fst =
      l.filter used := by
    have hplay : (fun a : α × ℕ => used a.1 && !([] : List ℕ).contains a.2) = used ∘ Prod.fst := by
      funext a
      simp
    rw [hplay, ← List.filter_map, List.zipIdx_map_fst]
  rw [hrun, List.map_take, List.map_insertionSort (Behind fun a b => beats a.1 b.1)
    (Behind beats) Prod.fst _ (fun _ _ _ _ => Iff.rfl), hfst]

end Ranking
end V6User
