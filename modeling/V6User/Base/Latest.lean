import Mathlib.Data.List.Nodup
import Mathlib.Tactic.Common

/-!
# The last element with a key

Among elements with keys the last one with a key counts.  `last` is that element, found
from the front, and `latest` are these elements for all keys, each taken when no later one
has its key.  A loop that takes elements into a buffer of `n` places gets all of them when
there are no more than `n` (`gather_eq`).
-/

namespace V6User
namespace Latest

variable {α β κ : Type}

/-! ### Loops that fill a buffer -/

/-- What is taken from a list, an element at a time, with what follows it in view. -/
def picks (f : α → List α → Option β) : List α → List β
  | [] => []
  | a :: as => (f a as).toList ++ picks f as

/-- The loop that takes it into a buffer of `n` places, of which `out` are filled. -/
def gather (n : ℕ) (f : α → List α → Option β) : List α → List β → List β
  | [], out => out
  | a :: as, out =>
    if out.length < n then
      match f a as with
      | some b => gather n f as (out ++ [b])
      | none => gather n f as out
    else out

section Loop

variable {n : ℕ} {f : α → List α → Option β} {l : List α} {out : List β}

/-- **The loop gets everything** when there is room for it. -/
theorem gather_eq (h : (out ++ picks f l).length ≤ n) : gather n f l out = out ++ picks f l := by
  induction l generalizing out with
  | nil => exact (List.append_nil out).symm
  | cons a l ih =>
    rw [gather, picks]
    rw [picks] at h
    split_ifs with hout
    · cases hf : f a l with
      | some b =>
        rw [hf] at h
        have hassoc : out ++ [b] ++ picks f l = out ++ ((some b).toList ++ picks f l) :=
          List.append_assoc out [b] (picks f l)
        exact (ih (hassoc ▸ h)).trans hassoc
      | none =>
        rw [hf] at h
        exact ih h
    · rw [List.length_append] at h
      have hnil : (f a l).toList ++ picks f l = [] := List.eq_nil_of_length_eq_zero (by omega)
      rw [hnil, List.append_nil]

theorem picks_bind {γ : Type} (g : β → Option γ) :
    picks (fun a as => (f a as).bind g) l = (picks f l).filterMap g := by
  induction l with
  | nil => rfl
  | cons a l ih =>
    rw [picks, picks, ih, List.filterMap_append]
    cases f a l with
    | none => rfl
    | some b =>
      rw [Option.bind_some, Option.toList_some, List.filterMap_cons, List.filterMap_nil]
      cases g b <;> rfl

theorem picks_const (f : α → Option β) : picks (fun a _ => f a) l = l.filterMap f := by
  induction l with
  | nil => rfl
  | cons a l ih =>
    rw [picks, ih, List.filterMap_cons]
    cases f a <;> rfl

end Loop

/-! ### Loops whose later elements override -/

/-- **What a loop has in the end** is what the last element says that says anything.  The elements
of `es` are what those of `l` say. -/
theorem foldl_override {σ γ : Type} {step : σ → α → σ} {get : σ → κ} {f : β → Option γ}
    {g : γ → κ} {R : α → β → Prop} {l : List α} {es : List β} (h : List.Forall₂ R l es)
    (hstep : ∀ s a e, R a e → get (step s a) = ((f e).map g).getD (get s)) (s : σ) :
    get (l.foldl step s) = ((es.filterMap f).getLast?.map g).getD (get s) := by
  induction h generalizing s with
  | nil => rfl
  | @cons a e l es hae _ ih =>
    rw [List.foldl_cons, ih, hstep s a e hae]
    cases hf : f e with
    | none => rw [List.filterMap_cons_none hf, Option.map_none, Option.getD_none]
    | some b =>
      rw [List.filterMap_cons_some hf, List.getLast?_cons, Option.map_some, Option.map_some,
        Option.getD_some, Option.getD_some]
      cases (es.filterMap f).getLast? <;> rfl

/-! ### The last element with a key -/

variable [DecidableEq κ] (key : α → Option κ)

/-- The last element with a key. -/
def last : List α → κ → Option α
  | [], _ => none
  | a :: as, k => (last as k).or (if key a = some k then some a else none)

/-- The element with its key, where no later one has it. -/
def final (a : α) (as : List α) : Option (κ × α) :=
  match key a with
  | some k => if as.any (fun b => key b = some k) then none else some (k, a)
  | none => none

/-- The last elements with their keys. -/
def latest (l : List α) : List (κ × α) := picks (final key) l

variable {key} {k : κ} {a b : α} {l : List α}

theorem key_of_last (h : last key l k = some a) : a ∈ l ∧ key a = some k := by
  induction l with
  | nil => exact absurd h nofun
  | cons b l ih =>
    rw [last, Option.or_eq_some_iff] at h
    rcases h with h | ⟨-, h⟩
    · exact ⟨List.mem_cons_of_mem b (ih h).1, (ih h).2⟩
    · split_ifs at h with hb
      obtain rfl := Option.some.inj h
      exact ⟨List.mem_cons_self, hb⟩

theorem last_eq_none_iff : last key l k = none ↔ ∀ a ∈ l, key a ≠ some k := by
  induction l with
  | nil => exact ⟨fun _ => nofun, fun _ => rfl⟩
  | cons b l ih =>
    rw [last, Option.or_eq_none_iff, ih, List.forall_mem_cons]
    constructor
    · rintro ⟨hl, hb⟩
      split_ifs at hb with hk
      exact ⟨hk, hl⟩
    · rintro ⟨hb, hl⟩
      exact ⟨hl, if_neg hb⟩

theorem final_eq_some_iff :
    final key a l = some (k, b) ↔ last key l k = none ∧ key a = some k ∧ a = b := by
  unfold final
  cases hk : key a with
  | none => exact ⟨nofun, fun h => absurd h.2.1 nofun⟩
  | some m =>
    have hany : l.any (fun b => key b = some m) = true ↔ last key l m ≠ none := by
      rw [ne_eq, last_eq_none_iff]
      simp
    dsimp only
    split_ifs with h
    · constructor
      · exact nofun
      · rintro ⟨hnone, heq, -⟩
        obtain rfl := Option.some.inj heq
        exact absurd hnone (hany.1 h)
    · constructor
      · rintro heq
        obtain ⟨rfl, rfl⟩ := Prod.mk.inj (Option.some.inj heq)
        exact ⟨not_not.1 (mt hany.2 h), rfl, rfl⟩
      · rintro ⟨-, heq, rfl⟩
        obtain rfl := Option.some.inj heq
        rfl

/-- **`latest` are the last elements.** -/
theorem mem_latest_iff : (k, a) ∈ latest key l ↔ last key l k = some a := by
  induction l with
  | nil => exact ⟨fun h => absurd h List.not_mem_nil, nofun⟩
  | cons b l ih =>
    have hhead : (if key b = some k then some b else none) = some a ↔ key b = some k ∧ b = a := by
      split_ifs with hb
      · exact ⟨fun h => ⟨hb, Option.some.inj h⟩, fun h => congrArg some h.2⟩
      · exact ⟨nofun, fun h => absurd h.1 hb⟩
    rw [latest, picks, List.mem_append, Option.mem_toList, final_eq_some_iff, last,
      Option.or_eq_some_iff, hhead]
    constructor
    · rintro (h | h)
      · exact .inr h
      · exact .inl (ih.1 h)
    · rintro (h | h)
      · exact .inr (ih.2 h)
      · exact .inl h

/-- No key is there twice. -/
theorem nodup_latest : ((latest key l).map Prod.fst).Nodup := by
  induction l with
  | nil => exact List.nodup_nil
  | cons b l ih =>
    rw [latest, picks]
    cases hf : final key b l with
    | none => exact ih
    | some p =>
      obtain ⟨k, a⟩ := p
      obtain ⟨hnone, -, -⟩ := final_eq_some_iff.1 hf
      refine List.nodup_cons.2 ⟨?_, ih⟩
      intro hmem
      obtain ⟨⟨k', a'⟩, hp, rfl⟩ := List.mem_map.1 hmem
      exact absurd ((mem_latest_iff.1 hp).symm.trans hnone) nofun

end Latest
end V6User
