import Mathlib.Data.List.Induction
import V6User.Base.Distinct
import V6User.Base.Slots

/-!
# Tables that sum up the elements with each key

A loop that looks for the slot of an element's key, or else takes the first free one, and counts
the element there (`note`), has in the end a slot for each of the first `n` distinct keys, in the
order in which these came, and in each slot exactly what its own elements make of it
(`foldl_note`).  The elements that found no slot are those whose key has none in the end
(`dropped_eq`).
-/

namespace V6User
namespace Tally

open Slots Distinct

variable {σ α κ : Type} [DecidableEq κ]

/-- How a table is kept: the key of a slot and of an element, a slot that takes a key, and what an
element does to its slot. -/
structure Rules (σ α κ : Type) where
  key : σ → Option κ
  keyOf : α → κ
  fresh : κ → σ
  count : σ → α → σ
  key_fresh : ∀ k, key (fresh k) = some k
  key_count : ∀ s a, key (count s a) = key s

/-- Count an element in the slot of its key, or in the first free one. -/
def note (t : Rules σ α κ) (l : List σ) (a : α) : List σ :=
  if (lookup t.key l (t.keyOf a)).isSome then
    update t.key l (some (t.keyOf a)) fun s => t.count s a
  else update t.key l none fun _ => t.count (t.fresh (t.keyOf a)) a

/-- There is no slot for an element. -/
def Full (t : Rules σ α κ) (l : List σ) (a : α) : Prop :=
  lookup t.key l (t.keyOf a) = none ∧ ∀ s ∈ l, t.key s ≠ none

instance (t : Rules σ α κ) (l : List σ) (a : α) : Decidable (Full t l a) :=
  inferInstanceAs (Decidable (_ ∧ _))

/-- How many elements of a list find no slot. -/
def dropped (t : Rules σ α κ) : List σ → List α → ℕ
  | _, [] => 0
  | l, a :: as => (if Full t l a then 1 else 0) + dropped t (note t l a) as

/-- The keys that have a slot. -/
def kept (t : Rules σ α κ) (n : ℕ) (as : List α) : List κ := (as.map t.keyOf).eraseDups.take n

/-- What the elements with a key make of its slot. -/
def row (t : Rules σ α κ) (as : List α) (k : κ) : σ :=
  (as.filter fun a => t.keyOf a = k).foldl t.count (t.fresh k)

variable {t : Rules σ α κ} {as : List α} {a : α} {k : κ} {n : ℕ} {free : σ}

theorem key_row (as : List α) (k : κ) : t.key (row t as k) = some k := by
  unfold row
  induction as.filter fun a => t.keyOf a = k using List.reverseRecOn with
  | nil => exact t.key_fresh k
  | append_singleton as a ih =>
    rw [List.foldl_append]
    exact (t.key_count _ a).trans ih

theorem keys_rows (ks : List κ) (m : ℕ) (hfree : t.key free = none) :
    keys t.key (ks.map (row t as) ++ List.replicate m free) = ks := by
  have hrows : (ks.map (row t as)).filterMap t.key = ks := by
    rw [List.filterMap_map]
    have hsome : t.key ∘ row t as = some := funext fun k => key_row as k
    rw [hsome, List.filterMap_some]
  have hnone : (List.replicate m free).filterMap t.key = [] := keys_replicate hfree m
  rw [keys, List.filterMap_append, hrows, hnone, List.append_nil]

theorem row_snoc (as : List α) (a : α) (k : κ) : row t (as ++ [a]) k =
    if t.keyOf a = k then t.count (row t as k) a else row t as k := by
  unfold row
  rw [List.filter_append]
  split_ifs with h
  · rw [List.filter_cons_of_pos (by simpa using h), List.foldl_append]
    rfl
  · rw [List.filter_cons_of_neg (by simpa using h), List.filter_nil, List.append_nil]

theorem kept_snoc (n : ℕ) (as : List α) (a : α) :
    kept t n (as ++ [a]) = add n (kept t n as) (t.keyOf a) := by
  unfold kept
  rw [← collect_eq, ← collect_eq, List.map_append, collect_append]
  rfl

/-- While there is room every key has a slot. -/
theorem mem_kept (hroom : (kept t n as).length < n) (ha : a ∈ as) : t.keyOf a ∈ kept t n as := by
  unfold kept at hroom ⊢
  rw [List.length_take] at hroom
  rw [List.take_of_length_le (by omega)]
  exact List.mem_eraseDups.2 (List.mem_map_of_mem ha)

theorem nodup_kept (n : ℕ) (as : List α) : (kept t n as).Nodup := by
  unfold kept
  rw [← collect_eq]
  exact nodup_collect List.nodup_nil

/-- **What the table has in the end**: a row for each of the first distinct keys. -/
theorem foldl_note (hfree : t.key free = none) (n : ℕ) (as : List α) :
    as.foldl (note t) (List.replicate n free) =
      (kept t n as).map (row t as) ++ List.replicate (n - (kept t n as).length) free := by
  induction as using List.reverseRecOn with
  | nil => simp [kept]
  | append_singleton as a ih =>
    have hkeys := @keys_rows _ _ _ _ t as free (kept t n as) (n - (kept t n as).length) hfree
    have hrows : ∀ ks : List κ, t.keyOf a ∉ ks →
        ks.map (row t (as ++ [a])) = ks.map (row t as) := by
      intro ks hks
      refine List.map_congr_left fun k hk => ?_
      rw [row_snoc, if_neg]
      rintro rfl
      exact hks hk
    have hused : ∀ s ∈ (kept t n as).map (row t as), t.key s ≠ none := by
      intro s hs
      obtain ⟨k, -, rfl⟩ := List.mem_map.1 hs
      exact key_row as k ▸ Option.some_ne_none k
    rw [List.foldl_append, ih, List.foldl_cons, List.foldl_nil, kept_snoc, note]
    by_cases hmem : t.keyOf a ∈ kept t n as
    · -- the key has a slot
      have hsome : (lookup t.key ((kept t n as).map (row t as) ++
          List.replicate (n - (kept t n as).length) free) (t.keyOf a)).isSome := by
        rw [Option.isSome_iff_ne_none, ne_eq, lookup_eq_none_iff, hkeys]
        exact not_not.2 hmem
      rw [if_pos hsome, update_eq_map (hkeys.symm ▸ nodup_kept n as), add,
        if_neg fun h => h.2 hmem, List.map_append, List.map_map, List.map_replicate, hfree,
        if_neg (Option.some_ne_none _).symm]
      refine congrArg (· ++ _) (List.map_congr_left fun k _ => ?_)
      rw [Function.comp_apply, key_row, row_snoc]
      by_cases hk : t.keyOf a = k
      · rw [if_pos (congrArg some hk.symm), if_pos hk]
      · rw [if_neg fun heq => hk (Option.some.inj heq).symm, if_neg hk]
    · have hnone : ¬(lookup t.key ((kept t n as).map (row t as) ++
          List.replicate (n - (kept t n as).length) free) (t.keyOf a)).isSome := by
        rw [Option.not_isSome_iff_eq_none, lookup_eq_none_iff, hkeys]
        exact hmem
      rw [if_neg hnone, update_append_of_forall_ne hused, add]
      by_cases hroom : (kept t n as).length < n
      · -- it takes the first free one
        obtain ⟨m, hm⟩ : ∃ m, n - (kept t n as).length = m + 1 :=
          ⟨n - (kept t n as).length - 1, by omega⟩
        have hempty : as.filter (fun b => t.keyOf b = t.keyOf a) = [] := by
          rw [List.filter_eq_nil_iff]
          intro b hb heq
          exact hmem (of_decide_eq_true heq ▸ mem_kept hroom hb)
        have hrow : row t (as ++ [a]) (t.keyOf a) = t.count (t.fresh (t.keyOf a)) a := by
          rw [row_snoc, if_pos rfl, row, hempty, List.foldl_nil]
        have hlen : n - (kept t n as ++ [t.keyOf a]).length = m := by
          rw [List.length_append, List.length_singleton]
          omega
        rw [if_pos ⟨hroom, hmem⟩, hlen, hm, List.replicate_succ, update_cons_of_eq hfree,
          List.map_append, hrows _ hmem, List.map_singleton, hrow, List.append_assoc]
        rfl
      · rw [if_neg fun h => hroom h.1, hrows _ hmem,
          show n - (kept t n as).length = 0 by omega]
        rfl

theorem dropped_append (l : List σ) (as bs : List α) : dropped t l (as ++ bs) =
    dropped t l as + dropped t (as.foldl (note t) l) bs := by
  induction as generalizing l with
  | nil => rw [List.nil_append, dropped, Nat.zero_add]; rfl
  | cons a as ih => rw [List.cons_append, dropped, dropped, ih, List.foldl_cons, Nat.add_assoc]

/-- **What was dropped** are the elements whose key has no slot in the end. -/
theorem dropped_eq (hfree : t.key free = none) (n : ℕ) (as : List α) :
    dropped t (List.replicate n free) as = as.countP fun a => t.keyOf a ∉ kept t n as := by
  induction as using List.reverseRecOn with
  | nil => rfl
  | append_singleton as a ih =>
    have hkeys := @keys_rows _ _ _ _ t as free (kept t n as) (n - (kept t n as).length) hfree
    have hfull : Full t (as.foldl (note t) (List.replicate n free)) a ↔
        t.keyOf a ∉ kept t n (as ++ [a]) := by
      rw [foldl_note hfree, Full, lookup_eq_none_iff, hkeys, kept_snoc, add]
      constructor
      · rintro ⟨hmem, hused⟩
        have hroom : ¬(kept t n as).length < n := by
          intro hroom
          have hpos : n - (kept t n as).length ≠ 0 := by omega
          exact hused free (List.mem_append_right _ (List.mem_replicate.2 ⟨hpos, rfl⟩)) hfree
        rwa [if_neg fun h => hroom h.1]
      · intro hnot
        have hstay : ¬((kept t n as).length < n ∧ t.keyOf a ∉ kept t n as) := fun h => by
          rw [if_pos h] at hnot
          exact hnot (List.mem_append_right _ (List.mem_singleton.2 rfl))
        rw [if_neg hstay] at hnot
        have hroom : ¬(kept t n as).length < n := fun hroom => hstay ⟨hroom, hnot⟩
        refine ⟨hnot, fun s hs => ?_⟩
        rw [show n - (kept t n as).length = 0 by omega, List.replicate_zero,
          List.append_nil] at hs
        obtain ⟨k, -, rfl⟩ := List.mem_map.1 hs
        exact key_row as k ▸ Option.some_ne_none k
    have hold : as.countP (fun b => t.keyOf b ∉ kept t n (as ++ [a])) =
        as.countP fun b => t.keyOf b ∉ kept t n as := by
      refine List.countP_congr fun b hb => ?_
      rw [decide_eq_true_iff, decide_eq_true_iff, kept_snoc, add]
      split_ifs with h
      · have hb' := mem_kept h.1 hb
        exact ⟨fun hnot => absurd (List.mem_append_left _ hb') hnot, fun hnot => absurd hb' hnot⟩
      · rfl
    rw [dropped_append, ih, List.countP_append, List.countP_singleton, hold]
    show _ + ((if Full t (as.foldl (note t) (List.replicate n free)) a then 1 else 0) + 0) = _
    rw [Nat.add_zero]
    refine congrArg (_ + ·) (if_congr (hfull.trans ?_) rfl rfl)
    rw [decide_eq_true_iff]

end Tally
end V6User
