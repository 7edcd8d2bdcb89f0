import V6User.Base.Fuel
import Mathlib.Data.List.Nodup
import Mathlib.Logic.Function.Iterate

/-!
# Walks along a linked structure

`Walk next a l z`: following `next` from `a` visits the nodes `l`, in this order,
and arrives at `z`.  A walk that arrives where it started is a cycle; it can be
started at any of its nodes (`Walk.turn`), and no two nodes of a cycle without
repeats have the same successor (`Walk.next_inj`).  A walk only depends on the
links of its nodes (`Walk.congr`), which is the frame rule for updates of other
links.
-/

namespace V6User

open Fuel

variable {α β ε : Type} {next next' : α → α}

/-- From `a`, the nodes `l` and then `z`. -/
def Walk (next : α → α) : α → List α → α → Prop
  | a, [], z => a = z
  | a, x :: l, z => a = x ∧ Walk next (next x) l z

namespace Walk

theorem append_iff {a z : α} {l l' : List α} :
    Walk next a (l ++ l') z ↔ ∃ m, Walk next a l m ∧ Walk next m l' z := by
  induction l generalizing a with
  | nil => simp [Walk]
  | cons x l ih =>
    rw [List.cons_append, Walk, ih]
    constructor
    · rintro ⟨rfl, m, hl, hl'⟩
      exact ⟨m, ⟨rfl, hl⟩, hl'⟩
    · rintro ⟨m, ⟨rfl, hl⟩, hl'⟩
      exact ⟨rfl, m, hl, hl'⟩

theorem append {a m z : α} {l l' : List α} (h : Walk next a l m) (h' : Walk next m l' z) :
    Walk next a (l ++ l') z :=
  append_iff.2 ⟨m, h, h'⟩

/-- A walk split at one of its nodes. -/
theorem split {a x z : α} {l l' : List α} (h : Walk next a (l ++ x :: l') z) :
    Walk next a l x ∧ Walk next (next x) l' z := by
  obtain ⟨m, hl, rfl, hl'⟩ := append_iff.1 h
  exact ⟨hl, hl'⟩

/-- The links of other nodes do not matter. -/
theorem congr {a z : α} {l : List α} (h : Walk next a l z) (hn : ∀ x ∈ l, next' x = next x) :
    Walk next' a l z := by
  induction l generalizing a with
  | nil => exact h
  | cons x l ih =>
    refine ⟨h.1, ?_⟩
    rw [hn x List.mem_cons_self]
    exact ih h.2 fun y hy => hn y (List.mem_cons_of_mem _ hy)

/-- A cycle, started behind one of its nodes. -/
theorem turn {a x : α} {l l' : List α} (h : Walk next a (l ++ x :: l') a) :
    Walk next (next x) (l' ++ (l ++ [x])) (next x) := by
  obtain ⟨hl, hl'⟩ := h.split
  exact hl'.append (hl.append ⟨rfl, rfl⟩)

/-- The successors of the nodes are the nodes, one step on. -/
theorem map_next {a z : α} {l : List α} (h : Walk next a l z) : a :: l.map next = l ++ [z] := by
  induction l generalizing a with
  | nil => rw [show a = z from h]; rfl
  | cons x l ih =>
    obtain ⟨rfl, h⟩ := h
    rw [List.map_cons, ih h, List.cons_append]

/-- The successor of a node of a cycle is a node. -/
theorem next_mem {a x : α} {l : List α} (h : Walk next a l a) (hx : x ∈ l) : next x ∈ l := by
  have hmem : next x ∈ l ++ [a] := by
    rw [← h.map_next]
    exact List.mem_cons_of_mem _ (List.mem_map_of_mem hx)
  rcases List.mem_append.1 hmem with hm | hm
  · exact hm
  · -- the node after the last one is the first one
    cases l with
    | nil => cases hx
    | cons y l =>
      rw [List.mem_singleton.1 hm, h.1]
      exact List.mem_cons_self

/-- **No two nodes of a cycle have the same successor.** -/
theorem next_inj {a x y : α} {l : List α} (h : Walk next a l a) (hnd : l.Nodup) (hx : x ∈ l)
    (hy : y ∈ l) (hxy : next x = next y) : x = y := by
  have hmap : (l.map next).Nodup := by
    cases l with
    | nil => exact List.nodup_nil
    | cons b l =>
      obtain ⟨rfl, -⟩ := id h
      have hm := h.map_next
      rw [List.cons_append, List.cons.injEq] at hm
      rw [hm.2]
      exact (List.perm_append_singleton a l).nodup_iff.2 hnd
  exact List.inj_on_of_nodup_map hmap hx hy hxy

/-- Where the nodes are in an order, each one comes before its successor, or the
walk ends behind it. -/
theorem rel_next {R : α → α → Prop} {a z : α} {l : List α} (h : Walk next a l z)
    (hR : l.Pairwise R) : ∀ x ∈ l, (next x ∈ l ∧ R x (next x)) ∨ next x = z := by
  induction l generalizing a with
  | nil => exact fun x hx => absurd hx List.not_mem_nil
  | cons y l ih =>
    obtain ⟨rfl, h⟩ := h
    obtain ⟨hy, hl⟩ := List.pairwise_cons.1 hR
    intro x hx
    rcases List.mem_cons.1 hx with rfl | hx
    · cases l with
      | nil => exact Or.inr h
      | cons b l =>
        obtain ⟨rfl, -⟩ := h
        exact Or.inl ⟨List.mem_cons_of_mem _ List.mem_cons_self, hy _ List.mem_cons_self⟩
    · rcases ih h hl x hx with ⟨hm, hr⟩ | hz
      · exact Or.inl ⟨List.mem_cons_of_mem _ hm, hr⟩
      · exact Or.inr hz

/-- The end of a walk, by iteration. -/
theorem iterate {a z : α} {l : List α} (h : Walk next a l z) : next^[l.length] a = z := by
  induction l generalizing a with
  | nil => exact h
  | cons x l ih =>
    obtain ⟨rfl, h⟩ := h
    rw [List.length_cons, Function.iterate_succ_apply]
    exact ih h

/-- **From any node of a cycle**, following the links reaches exactly its nodes. -/
theorem mem_iff_iterate {a x y : α} {l : List α} (h : Walk next a l a) (hx : x ∈ l) :
    y ∈ l ↔ ∃ k, next^[k] x = y := by
  constructor
  · intro hy
    obtain ⟨l₁, l₂, rfl⟩ := List.append_of_mem hx
    have hturn := h.turn
    have hy' : y ∈ l₂ ++ (l₁ ++ [x]) := by
      rw [← List.append_assoc, List.mem_append, List.mem_singleton, List.mem_append]
      rcases List.mem_append.1 hy with hy | hy
      · exact Or.inl (Or.inr hy)
      · rcases List.mem_cons.1 hy with rfl | hy
        · exact Or.inr rfl
        · exact Or.inl (Or.inl hy)
    obtain ⟨m₁, m₂, hm⟩ := List.append_of_mem hy'
    rw [hm] at hturn
    exact ⟨m₁.length + 1, hturn.split.1.iterate⟩
  · rintro ⟨k, rfl⟩
    induction k with
    | zero => exact hx
    | succ k ih =>
      rw [Function.iterate_succ_apply']
      exact h.next_mem ih

/-- **A loop that follows the links** settles where it does at the end of a walk
over nodes it passes by. -/
theorem settles {f : ℕ → α → Except ε β} {a z : α} {l : List α} {y : β}
    (h : Walk next a l z) (hstep : ∀ x ∈ l, ∀ n, f (n + 1) x = f n (next x))
    (hz : Settles (fun n => f n z) y) : Settles (fun n => f n a) y := by
  induction l generalizing a with
  | nil => rw [show a = z from h]; exact hz
  | cons x l ih =>
    obtain ⟨rfl, h⟩ := h
    exact Settles.of_succ (hstep a List.mem_cons_self)
      (ih h fun y hy => hstep y (List.mem_cons_of_mem _ hy))

end Walk

end V6User
