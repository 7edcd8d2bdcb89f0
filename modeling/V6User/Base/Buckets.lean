import Mathlib.Algebra.BigOperators.Group.List.Basic
import Mathlib.Algebra.GroupWithZero.Nat
import Mathlib.Algebra.Order.BigOperators.Group.List
import Mathlib.Algebra.Order.Group.Nat
import Mathlib.Data.List.Basic
import Mathlib.Order.Bounds.Basic

/-!
# Items put into buckets

Each item goes into the first bucket of a row that accepts it, and nowhere where there is none.
As long as a bucket accepts the same items when it has got one, where an item goes does not
depend on the items before it (`home_put`).  So a bucket has in the end got exactly the items
whose home it is, in their order (`getElem?_putAll`), and where a bucket counts its items no
item is lost (`sum_putAll`).
-/

namespace V6User
namespace Buckets

variable {α β : Type*} (accepts : β → α → Bool) (add : β → α → β)

/-- The first bucket that accepts the item gets it. -/
def put (a : α) : List β → List β
  | [] => []
  | b :: bs => if accepts b a then add b a :: bs else b :: put a bs

/-- The place of the first bucket that accepts the item. -/
def home (bs : List β) (a : α) : Option ℕ := bs.findIdx? fun b => accepts b a

/-- All items of a row are put into the buckets. -/
def putAll (bs : List β) (as : List α) : List β := as.foldl (fun bs a => put accepts add a bs) bs

section Home

variable {accepts add} {bs : List β} {a : α}

theorem home_cons (b : β) : home accepts (b :: bs) a =
    if accepts b a then some 0 else (home accepts bs a).map (· + 1) :=
  List.findIdx?_cons

/-- The home of an item accepts it. -/
theorem exists_of_home {j : ℕ} (h : home accepts bs a = some j) :
    ∃ b, bs[j]? = some b ∧ accepts b a = true := by
  obtain ⟨hj, haccepts, -⟩ := List.findIdx?_eq_some_iff_getElem.1 h
  exact ⟨bs[j], List.getElem?_eq_getElem hj, haccepts⟩

/-- An item without a home is accepted nowhere. -/
theorem not_accepts_of_home {b : β} (h : home accepts bs a = none) (hb : b ∈ bs) :
    accepts b a = false :=
  List.findIdx?_eq_none_iff.1 h b hb

/-- The item goes into its home. -/
theorem put_eq : put accepts add a bs =
    (home accepts bs a).elim bs fun j => bs.modify j fun b => add b a := by
  induction bs with
  | nil => rfl
  | cons b bs ih =>
    rw [put, home_cons]
    split_ifs
    · rfl
    · rw [ih]
      cases home accepts bs a <;> rfl

theorem getElem?_put (j : ℕ) : (put accepts add a bs)[j]? =
    bs[j]?.map fun b => if home accepts bs a = some j then add b a else b := by
  rw [put_eq]
  cases hhome : home accepts bs a with
  | none => simp
  | some k =>
    rw [Option.elim_some, List.getElem?_modify]
    by_cases hk : k = j
    · simp [hk]
    · simp [hk]

end Home

section Stable

variable {accepts add}

theorem home_put (hadd : ∀ b a a', accepts (add b a) a' = accepts b a') (bs : List β) (a a' : α) :
    home accepts (put accepts add a bs) a' = home accepts bs a' := by
  induction bs with
  | nil => rfl
  | cons b bs ih =>
    rw [put]
    split_ifs
    · rw [home_cons, home_cons, hadd]
    · rw [home_cons, home_cons, ih]

/-- **A bucket gets the items whose home it is.** -/
theorem getElem?_putAll (hadd : ∀ b a a', accepts (add b a) a' = accepts b a') (bs : List β)
    (as : List α) (j : ℕ) :
    (putAll accepts add bs as)[j]? =
      bs[j]?.map fun b => (as.filter fun a => home accepts bs a = some j).foldl add b := by
  induction as generalizing bs with
  | nil => exact (Option.map_id' (x := bs[j]?)).symm
  | cons a as ih =>
    have hstep := ih (put accepts add a bs)
    simp only [home_put hadd, getElem?_put, Option.map_map] at hstep
    refine hstep.trans (congrArg (fun f => bs[j]?.map f) (funext fun b => ?_))
    rw [List.filter_cons]
    by_cases hhome : home accepts bs a = some j
    · simp [hhome]
    · simp [hhome]

end Stable

section Count

variable {accepts add} {w : β → ℕ} {m : ℕ}

theorem sum_put (hw : ∀ b a, w b < m → w (add b a) = w b + 1) (bs : List β) (a : α)
    (hm : ∀ b ∈ bs, w b < m) :
    ((put accepts add a bs).map w).sum =
      (bs.map w).sum + if home accepts bs a = none then 0 else 1 := by
  induction bs with
  | nil => rfl
  | cons b bs ih =>
    obtain ⟨hb, hm⟩ := List.forall_mem_cons.1 hm
    rw [put, home_cons]
    split_ifs with haccepts hnone hnone
    · exact absurd hnone (by simp)
    · rw [List.map_cons, List.map_cons, List.sum_cons, List.sum_cons, hw b a hb]
      omega
    · rw [List.map_cons, List.map_cons, List.sum_cons, List.sum_cons, ih hm]
      rw [if_pos (by simpa using hnone)]
      omega
    · rw [List.map_cons, List.map_cons, List.sum_cons, List.sum_cons, ih hm]
      rw [if_neg (by simpa using hnone)]
      omega

/-- **No item is lost** where each bucket counts its items. -/
theorem sum_putAll (hw : ∀ b a, w b < m → w (add b a) = w b + 1)
    (hadd : ∀ b a a', accepts (add b a) a' = accepts b a') (bs : List β)
    (as : List α) (hm : (bs.map w).sum + as.length ≤ m) :
    ((putAll accepts add bs as).map w).sum +
      (as.filter fun a => home accepts bs a = none).length = (bs.map w).sum + as.length := by
  induction as generalizing bs with
  | nil => rfl
  | cons a as ih =>
    rw [List.length_cons] at hm
    have hlt : ∀ b ∈ bs, w b < m := by
      intro b hb
      have hle : w b ≤ (bs.map w).sum := List.single_le_sum (fun _ _ => Nat.zero_le _) _
        (List.mem_map_of_mem hb)
      omega
    have hput : ((put accepts add a bs).map w).sum = _ := sum_put hw bs a hlt
    have hrest := ih (put accepts add a bs) (by rw [hput]; split_ifs <;> omega)
    simp only [home_put hadd] at hrest
    rw [putAll, List.foldl_cons, List.filter_cons, List.length_cons]
    by_cases hhome : home accepts bs a = none
    · rw [if_pos (decide_eq_true hhome), List.length_cons]
      rw [if_pos hhome] at hput
      rw [putAll] at hrest
      omega
    · rw [if_neg (by simpa using hhome)]
      rw [if_neg hhome] at hput
      rw [putAll] at hrest
      omega

end Count

end Buckets
end V6User
