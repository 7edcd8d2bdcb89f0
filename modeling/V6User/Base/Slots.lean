import Mathlib.Data.List.Nodup
import Mathlib.Tactic.Common

/-!
# A table of slots with keys

A table is a list of slots.  A slot that is in use has a key, and a key is looked up in
the first slot that has it.  A value is stored by rewriting the first slot with its key
or, where there is none, the first free slot.  Either way the table gives the new slot
for the key and what it gave before for every other one.
-/

namespace V6User
namespace Slots

variable {σ κ : Type} [DecidableEq κ] (key : σ → Option κ)

/-- The first slot with a key. -/
def lookup (l : List σ) (k : κ) : Option σ := l.find? fun s => key s = some k

/-- The first slot with a key, or with none, rewritten. -/
def update (l : List σ) (k : Option κ) (f : σ → σ) : List σ :=
  l.modify (l.findIdx fun s => key s = k) f

variable {key} {l : List σ} {f : σ → σ} {k : κ} {s : σ} {o : Option κ}

theorem lookup_cons_of_eq (h : key s = some k) : lookup key (s :: l) k = some s :=
  List.find?_cons_of_pos (decide_eq_true h)

theorem lookup_cons_of_ne (h : key s ≠ some k) : lookup key (s :: l) k = lookup key l k :=
  List.find?_cons_of_neg (by simpa using h)

/-- The slot that is looked up has the key. -/
theorem key_of_lookup (h : lookup key l k = some s) : key s = some k :=
  of_decide_eq_true (List.find?_some (p := fun s => decide (key s = some k)) h)

theorem update_cons_of_eq (h : key s = o) : update key (s :: l) o f = f s :: l := by
  rw [update, List.findIdx_cons, decide_eq_true h]
  rfl

theorem update_cons_of_ne (h : key s ≠ o) : update key (s :: l) o f = s :: update key l o f := by
  rw [update, List.findIdx_cons, decide_eq_false h]
  rfl

/-- A slot that keeps its key. -/
theorem lookup_update (hf : ∀ s, key s = some k → key (f s) = some k) (m : κ) :
    lookup key (update key l (some k) f) m =
      if m = k then (lookup key l k).map f else lookup key l m := by
  induction l with
  | nil => split_ifs <;> rfl
  | cons s l ih =>
    by_cases hs : key s = some k
    · rw [update_cons_of_eq hs]
      split_ifs with hm
      · rw [hm, lookup_cons_of_eq (hf s hs), lookup_cons_of_eq hs, Option.map_some]
      · have hne : some k ≠ some m := fun h => hm (Option.some.inj h).symm
        rw [lookup_cons_of_ne (by rwa [hf s hs]), lookup_cons_of_ne (by rwa [hs])]
    · rw [update_cons_of_ne hs]
      by_cases hm : key s = some m
      · have hne : m ≠ k := fun h => hs (h ▸ hm)
        rw [lookup_cons_of_eq hm, if_neg hne, lookup_cons_of_eq hm]
      · rw [lookup_cons_of_ne hm, ih, lookup_cons_of_ne hs, lookup_cons_of_ne hm]

/-- A free slot that takes a key that no slot has. -/
theorem lookup_fill {new : σ} (hnew : key new = some k) (hnone : lookup key l k = none)
    (hfree : ∃ s ∈ l, key s = none) (m : κ) :
    lookup key (update key l none fun _ => new) m =
      if m = k then some new else lookup key l m := by
  induction l with
  | nil =>
    obtain ⟨s, hs, -⟩ := hfree
    exact absurd hs List.not_mem_nil
  | cons s l ih =>
    have hsk : key s ≠ some k := fun h => by
      rw [lookup_cons_of_eq h] at hnone
      exact absurd hnone (Option.some_ne_none s)
    by_cases hs : key s = none
    · rw [update_cons_of_eq hs]
      split_ifs with hm
      · rw [hm, lookup_cons_of_eq hnew]
      · have hne : some k ≠ some m := fun h => hm (Option.some.inj h).symm
        rw [lookup_cons_of_ne (by rwa [hnew]), lookup_cons_of_ne (by rw [hs]; exact nofun)]
    · have hfree' : ∃ s ∈ l, key s = none := by
        obtain ⟨s', hs', hkey⟩ := hfree
        rcases List.mem_cons.1 hs' with rfl | hs'
        · exact absurd hkey hs
        · exact ⟨s', hs', hkey⟩
      rw [lookup_cons_of_ne hsk] at hnone
      rw [update_cons_of_ne hs]
      by_cases hm : key s = some m
      · have hne : m ≠ k := fun h => hsk (h ▸ hm)
        rw [lookup_cons_of_eq hm, if_neg hne, lookup_cons_of_eq hm]
      · rw [lookup_cons_of_ne hm, ih hnone hfree', lookup_cons_of_ne hm]

/-! ### The keys of a table -/

/-- The keys of the slots that are in use. -/
def keys (key : σ → Option κ) (l : List σ) : List κ := l.filterMap key

omit [DecidableEq κ] in
theorem keys_cons_of_none (h : key s = none) : keys key (s :: l) = keys key l :=
  List.filterMap_cons_none h

omit [DecidableEq κ] in
theorem keys_cons_of_some (h : key s = some k) : keys key (s :: l) = k :: keys key l :=
  List.filterMap_cons_some h

omit [DecidableEq κ] in
/-- A table of free slots. -/
theorem keys_replicate (h : key s = none) (n : ℕ) : keys key (List.replicate n s) = [] := by
  refine List.filterMap_eq_nil_iff.2 fun s' hs' => ?_
  rw [List.eq_of_mem_replicate hs', h]

theorem lookup_eq_none_iff : lookup key l k = none ↔ k ∉ keys key l := by
  rw [lookup, List.find?_eq_none, keys, List.mem_filterMap]
  constructor
  · rintro h ⟨s, hs, hk⟩
    exact h s hs (decide_eq_true hk)
  · intro h s hs hk
    exact h ⟨s, hs, of_decide_eq_true hk⟩

/-- In a table where no key is there twice the slot with a key is the one looked up. -/
theorem lookup_of_mem (hl : (keys key l).Nodup) (hs : s ∈ l) (hk : key s = some k) :
    lookup key l k = some s := by
  induction l with
  | nil => exact absurd hs List.not_mem_nil
  | cons s' l ih =>
    rcases List.mem_cons.1 hs with rfl | hs
    · exact lookup_cons_of_eq hk
    · cases hm : key s' with
      | none =>
        rw [keys_cons_of_none hm] at hl
        rw [lookup_cons_of_ne (hm ▸ nofun), ih hl hs]
      | some m =>
        rw [keys_cons_of_some hm] at hl
        have hne : key s' ≠ some k := by
          rintro heq
          obtain rfl := Option.some.inj (hm.symm.trans heq)
          exact (List.nodup_cons.1 hl).1 (List.mem_filterMap.2 ⟨s, hs, hk⟩)
        rw [lookup_cons_of_ne hne, ih (List.nodup_cons.1 hl).2 hs]

/-- A slot that keeps its key. -/
theorem keys_update (hf : ∀ s, key s = some k → key (f s) = some k) :
    keys key (update key l (some k) f) = keys key l := by
  induction l with
  | nil => rfl
  | cons s l ih =>
    by_cases hs : key s = some k
    · rw [update_cons_of_eq hs, keys_cons_of_some (hf s hs), keys_cons_of_some hs]
    · rw [update_cons_of_ne hs]
      cases hkey : key s with
      | none => rw [keys_cons_of_none hkey, keys_cons_of_none hkey, ih]
      | some m => rw [keys_cons_of_some hkey, keys_cons_of_some hkey, ih]

/-- A slot that takes a key. -/
theorem keys_fill {new : σ} (hnew : key new = some k) (hfree : ∃ s ∈ l, key s = none) :
    (keys key (update key l none fun _ => new)).Perm (k :: keys key l) := by
  induction l with
  | nil =>
    obtain ⟨s, hs, -⟩ := hfree
    exact absurd hs List.not_mem_nil
  | cons s l ih =>
    cases hs : key s with
    | none => rw [update_cons_of_eq hs, keys_cons_of_some hnew, keys_cons_of_none hs]
    | some m =>
      have hne : key s ≠ none := hs ▸ Option.some_ne_none m
      have hfree' : ∃ s ∈ l, key s = none := by
        obtain ⟨s', hs', hkey⟩ := hfree
        rcases List.mem_cons.1 hs' with rfl | hs'
        · exact absurd hkey hne
        · exact ⟨s', hs', hkey⟩
      rw [update_cons_of_ne hne, keys_cons_of_some hs, keys_cons_of_some hs]
      exact ((ih hfree').cons m).trans (List.Perm.swap k m _)

/-- A slot that gives its key up. -/
theorem keys_clear (hf : ∀ s, key s = some k → key (f s) = none) :
    keys key (update key l (some k) f) = (keys key l).erase k := by
  induction l with
  | nil => rfl
  | cons s l ih =>
    by_cases hs : key s = some k
    · rw [update_cons_of_eq hs, keys_cons_of_none (hf s hs), keys_cons_of_some hs,
        List.erase_cons_head]
    · rw [update_cons_of_ne hs]
      cases hm : key s with
      | none => rw [keys_cons_of_none hm, keys_cons_of_none hm, ih]
      | some m =>
        have hne : m ≠ k := fun h => hs (h ▸ hm)
        rw [keys_cons_of_some hm, keys_cons_of_some hm, List.erase_cons_tail (by simpa using hne), ih]

theorem nodup_clear (hf : ∀ s, key s = some k → key (f s) = none) (hl : (keys key l).Nodup) :
    (keys key (update key l (some k) f)).Nodup := by
  rw [keys_clear hf]
  exact hl.erase k

/-! ### A table with its slots in order -/

theorem update_append_of_forall_ne {l' : List σ} (h : ∀ s ∈ l, key s ≠ o) :
    update key (l ++ l') o f = l ++ update key l' o f := by
  induction l with
  | nil => rfl
  | cons s l ih =>
    obtain ⟨hs, hl⟩ := List.forall_mem_cons.1 h
    rw [List.cons_append, update_cons_of_ne hs, ih hl, List.cons_append]

/-- Where no slot has the key nothing is rewritten. -/
theorem update_of_forall_ne (h : ∀ s ∈ l, key s ≠ o) : update key l o f = l := by
  have happend := @update_append_of_forall_ne _ _ _ key l f o [] h
  have hnil : update key [] o f = [] := rfl
  rwa [hnil, List.append_nil] at happend

/-- In a table where no key is there twice only the slot with the key is rewritten. -/
theorem update_eq_map (hl : (keys key l).Nodup) :
    update key l (some k) f = l.map fun s => if key s = some k then f s else s := by
  induction l with
  | nil => rfl
  | cons s l ih =>
    rw [List.map_cons]
    by_cases hs : key s = some k
    · rw [update_cons_of_eq hs, if_pos hs]
      rw [keys_cons_of_some hs] at hl
      have hsame : l.map (fun s => if key s = some k then f s else s) = l.map id := by
        refine List.map_congr_left fun t ht => if_neg fun hk => ?_
        exact (List.nodup_cons.1 hl).1 (List.mem_filterMap.2 ⟨t, ht, hk⟩)
      rw [hsame, List.map_id]
    · have hl' : (keys key l).Nodup := by
        cases hm : key s with
        | none => rwa [keys_cons_of_none hm] at hl
        | some m => exact (List.nodup_cons.1 (keys_cons_of_some hm ▸ hl)).2
      rw [update_cons_of_ne hs, if_neg hs, ih hl']

/-- Slots are rewritten as what is seen of them is. -/
theorem map_update {τ : Type} {key' : τ → Option κ} {g : σ → τ} {f' : τ → τ}
    (hkey : ∀ s, key' (g s) = key s) (hf : ∀ s, g (f s) = f' (g s)) :
    (update key l o f).map g = update key' (l.map g) o f' := by
  induction l with
  | nil => rfl
  | cons s l ih =>
    rw [List.map_cons]
    by_cases hs : key s = o
    · rw [update_cons_of_eq hs, update_cons_of_eq ((hkey s).trans hs), List.map_cons, hf]
    · have hs' : key' (g s) ≠ o := fun h => hs ((hkey s).symm.trans h)
      rw [update_cons_of_ne hs, update_cons_of_ne hs', List.map_cons, ih]

/-- What is seen of no slot changes where it does not change in those with the key. -/
theorem map_update_of_same {τ : Type} {g : σ → τ} (hf : ∀ s, key s = o → g (f s) = g s) :
    (update key l o f).map g = l.map g := by
  induction l with
  | nil => rfl
  | cons s l ih =>
    by_cases hs : key s = o
    · rw [update_cons_of_eq hs, List.map_cons, List.map_cons, hf s hs]
    · rw [update_cons_of_ne hs, List.map_cons, List.map_cons, ih]

theorem mem_update (h : s ∈ update key l o f) : s ∈ l ∨ ∃ s' ∈ l, key s' = o ∧ f s' = s := by
  induction l with
  | nil => exact absurd h List.not_mem_nil
  | cons t l ih =>
    by_cases ht : key t = o
    · rw [update_cons_of_eq ht] at h
      rcases List.mem_cons.1 h with rfl | h
      · exact .inr ⟨t, List.mem_cons_self, ht, rfl⟩
      · exact .inl (List.mem_cons_of_mem t h)
    · rw [update_cons_of_ne ht] at h
      rcases List.mem_cons.1 h with rfl | h
      · exact .inl List.mem_cons_self
      · rcases ih h with h | ⟨s', hs', hk, rfl⟩
        · exact .inl (List.mem_cons_of_mem t h)
        · exact .inr ⟨s', List.mem_cons_of_mem t hs', hk, rfl⟩

end Slots
end V6User
