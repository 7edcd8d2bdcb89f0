import Mathlib.Algebra.GroupWithZero.Nat
import Mathlib.Algebra.Order.BigOperators.Group.List
import Mathlib.Algebra.Order.Group.Nat
import Mathlib.Data.List.Pairwise
import Mathlib.Tactic.Common

/-!
# Extents of an address space

An extent is a range of addresses.  A list of extents covers an address when one
of them contains it; it is spaced when it is in the order of the addresses and
no two of its extents touch.

`insertBetween A p e B` puts an extent `e` into a spaced list `A ++ p :: B`,
behind `p` and before `B`, and merges it with the neighbours it touches.  What the list
covers grows by exactly `e`, and the list stays spaced: a free list that is
kept this way never holds two adjacent extents.  Its extents are then determined
by what it covers (`Spaced.mem_iff_isRun`), in whatever order they were put in.
-/

namespace V6User

/-- The addresses from `start` on, `len` of them. -/
@[ext] structure Extent where
  start : ℕ
  len : ℕ
  deriving DecidableEq, Repr

namespace Extent

/-- The first address behind the extent. -/
def stop (e : Extent) : ℕ := e.start + e.len

/-- Two extents without a common address. -/
def Apart (a b : Extent) : Prop := a.stop ≤ b.start ∨ b.stop ≤ a.start

theorem Apart.symm {a b : Extent} (h : a.Apart b) : b.Apart a := Or.symm h

instance : Std.Symm Apart := ⟨fun _ _ => Apart.symm⟩

/-- One of the extents contains the address. -/
def Covers (l : List Extent) (x : ℕ) : Prop := ∃ e ∈ l, e.start ≤ x ∧ x < e.stop

/-- The lengths of the extents together. -/
def total (l : List Extent) : ℕ := (l.map len).sum

/-- In the order of the addresses, with a gap between any two. -/
def Spaced (l : List Extent) : Prop := l.Pairwise fun a b => a.stop < b.start

@[simp] theorem covers_nil (x : ℕ) : ¬Covers [] x := by
  simp [Covers]

@[simp] theorem covers_cons (e : Extent) (l : List Extent) (x : ℕ) :
    Covers (e :: l) x ↔ (e.start ≤ x ∧ x < e.stop) ∨ Covers l x := by
  simp [Covers]

@[simp] theorem covers_append (l l' : List Extent) (x : ℕ) :
    Covers (l ++ l') x ↔ Covers l x ∨ Covers l' x := by
  simp [Covers, or_and_right, exists_or]

theorem covers_perm {l l' : List Extent} (h : l.Perm l') (x : ℕ) : Covers l x ↔ Covers l' x := by
  unfold Covers
  simp only [h.mem_iff]

@[simp] theorem total_nil : total [] = 0 := rfl

@[simp] theorem total_cons (e : Extent) (l : List Extent) : total (e :: l) = e.len + total l := rfl

@[simp] theorem total_append (l l' : List Extent) : total (l ++ l') = total l + total l' := by
  simp [total]

theorem total_perm {l l' : List Extent} (h : l.Perm l') : total l = total l' :=
  (h.map len).sum_eq

theorem len_le_total {e : Extent} {l : List Extent} (h : e ∈ l) : e.len ≤ total l :=
  List.le_sum_of_mem (List.mem_map_of_mem h)

/-- The extents of a spaced list start at different addresses, in order. -/
theorem Spaced.start_lt {l : List Extent} (h : Spaced l) :
    l.Pairwise fun a b => a.start < b.start :=
  h.imp fun {a _} hab => (Nat.le_add_right a.start a.len).trans_lt hab

theorem Spaced.nodup_starts {l : List Extent} (h : Spaced l) : (l.map start).Nodup :=
  List.pairwise_map.2 (h.start_lt.imp Nat.ne_of_lt)

/-- **The place of an extent** in a spaced list of extents it is apart from,
where the first of them lies below it. -/
theorem Spaced.exists_place {a e : Extent} {l : List Extent} (h : Spaced (a :: l))
    (ha : a.stop ≤ e.start) (hl : ∀ b ∈ l, b.Apart e) :
    ∃ A p B, a :: l = A ++ p :: B ∧ p.stop ≤ e.start ∧ ∀ b ∈ B, e.stop ≤ b.start := by
  induction l generalizing a with
  | nil => exact ⟨[], a, [], rfl, ha, by simp⟩
  | cons b l ih =>
    have hbl : Spaced (b :: l) := (List.pairwise_cons.1 h).2
    rcases hl b List.mem_cons_self with hb | hb
    · obtain ⟨A, p, B, heq, hp, hB⟩ := ih hbl hb fun c hc => hl c (List.mem_cons_of_mem _ hc)
      exact ⟨a :: A, p, B, by rw [heq]; rfl, hp, hB⟩
    · refine ⟨[], a, b :: l, rfl, ha, fun c hc => ?_⟩
      rcases List.mem_cons.1 hc with rfl | hc
      · exact hb
      · exact hb.trans ((List.pairwise_cons.1 hbl.start_lt).1 c hc).le

/-! ### Merging -/

/-- An extent merged with the one behind it, if they touch. -/
def joinRight (e : Extent) : List Extent → Extent × List Extent
  | [] => (e, [])
  | q :: l => if e.stop = q.start then (⟨e.start, e.len + q.len⟩, l) else (e, q :: l)

/-- An extent merged with the one before it, if they touch. -/
def joinLeft (p e : Extent) : List Extent :=
  if p.stop = e.start then [⟨p.start, p.len + e.len⟩] else [p, e]

/-- The list `A ++ p :: B` with `e` put behind `p`. -/
def insertBetween (A : List Extent) (p e : Extent) (B : List Extent) : List Extent :=
  A ++ (joinLeft p (joinRight e B).1 ++ (joinRight e B).2)

@[simp] theorem joinRight_start (e : Extent) (l : List Extent) :
    (joinRight e l).1.start = e.start := by
  cases l with
  | nil => rfl
  | cons q l => rw [joinRight]; split_ifs <;> rfl

theorem joinRight_suffix (e : Extent) (l : List Extent) : (joinRight e l).2 <:+ l := by
  cases l with
  | nil => exact List.suffix_refl _
  | cons q l =>
    rw [joinRight]
    split_ifs
    · exact List.suffix_cons q l
    · exact List.suffix_refl _

theorem covers_joinRight (e : Extent) (l : List Extent) (x : ℕ) :
    Covers ((joinRight e l).1 :: (joinRight e l).2) x ↔ Covers (e :: l) x := by
  cases l with
  | nil => rfl
  | cons q l =>
    rw [joinRight]
    split_ifs with h
    · simp only [covers_cons, ← or_assoc]
      refine or_congr_left ?_
      dsimp only [stop] at h ⊢
      omega
    · rfl

theorem covers_joinLeft (p e : Extent) (x : ℕ) : Covers (joinLeft p e) x ↔ Covers [p, e] x := by
  rw [joinLeft]
  split_ifs with h
  · simp only [covers_cons, covers_nil, or_false]
    dsimp only [stop] at h ⊢
    omega
  · rfl

/-- **What is covered grows by the inserted extent.** -/
theorem covers_insertBetween (A : List Extent) (p e : Extent) (B : List Extent) (x : ℕ) :
    Covers (insertBetween A p e B) x ↔ Covers (A ++ p :: B) x ∨ Covers [e] x := by
  have hr := covers_joinRight e B x
  simp only [insertBetween, covers_append, covers_joinLeft, covers_cons, covers_nil,
    or_false] at hr ⊢
  rw [or_assoc, hr]
  constructor
  · rintro (h | h | h | h)
    · exact Or.inl (Or.inl h)
    · exact Or.inl (Or.inr (Or.inl h))
    · exact Or.inr h
    · exact Or.inl (Or.inr (Or.inr h))
  · rintro ((h | h | h) | h)
    · exact Or.inl h
    · exact Or.inr (Or.inl h)
    · exact Or.inr (Or.inr (Or.inr h))
    · exact Or.inr (Or.inr (Or.inl h))

theorem total_insertBetween (A : List Extent) (p e : Extent) (B : List Extent) :
    total (insertBetween A p e B) = total (A ++ p :: B) + e.len := by
  have hr : (joinRight e B).1.len + total (joinRight e B).2 = e.len + total B := by
    cases B with
    | nil => rfl
    | cons q B =>
      rw [joinRight]
      split_ifs
      · simp only [total_cons]
        omega
      · rfl
  have hl : ∀ c : Extent, total (joinLeft p c) = p.len + c.len := by
    intro c
    rw [joinLeft]
    split_ifs <;> simp
  simp only [insertBetween, total_append, total_cons, hl]
  omega

/-- What merging with the extent behind does, where `e` lies before all of them. -/
theorem spaced_joinRight {e : Extent} {l : List Extent} (hl : Spaced l)
    (he : ∀ b ∈ l, e.stop ≤ b.start) :
    Spaced ((joinRight e l).1 :: (joinRight e l).2) := by
  cases l with
  | nil => exact List.pairwise_singleton _ _
  | cons q l =>
    obtain ⟨hq, hl'⟩ := List.pairwise_cons.1 hl
    have heq := he q List.mem_cons_self
    rw [joinRight]
    split_ifs with h
    · refine List.pairwise_cons.2 ⟨fun b hb => ?_, hl'⟩
      have := hq b hb
      dsimp only [stop] at *
      omega
    · refine List.pairwise_cons.2 ⟨fun b hb => ?_, hl⟩
      show e.stop < b.start
      rcases List.mem_cons.1 hb with rfl | hb
      · omega
      · have := hq b hb
        dsimp only [stop] at *
        omega

/-- What merging with the extent before does: the result starts where that one
does. -/
theorem start_le_of_mem_joinLeft {p e r : Extent} (h : p.stop ≤ e.start)
    (hr : r ∈ joinLeft p e) : p.start ≤ r.start := by
  rw [joinLeft] at hr
  split_ifs at hr
  · rw [List.mem_singleton.1 hr]
  · rcases List.mem_cons.1 hr with rfl | hr
    · exact Nat.le_refl _
    · rw [List.mem_singleton.1 hr]
      unfold stop at h
      omega

theorem spaced_joinLeft {p e : Extent} {l : List Extent} (h : p.stop ≤ e.start)
    (hl : Spaced (e :: l)) : Spaced (joinLeft p e ++ l) := by
  obtain ⟨he, hl'⟩ := List.pairwise_cons.1 hl
  rw [joinLeft]
  split_ifs with hj
  · refine List.pairwise_cons.2 ⟨fun b hb => ?_, hl'⟩
    have := he b hb
    dsimp only [stop] at *
    omega
  · refine List.pairwise_cons.2 ⟨fun b hb => ?_, hl⟩
    rcases List.mem_cons.1 hb with rfl | hb
    · omega
    · have := he b hb
      dsimp only [stop] at *
      omega

/-- **The list stays spaced**: whatever `e` touches is merged with it. -/
theorem spaced_insertBetween {A B : List Extent} {p e : Extent} (h : Spaced (A ++ p :: B))
    (hp : p.stop ≤ e.start) (hB : ∀ b ∈ B, e.stop ≤ b.start) :
    Spaced (insertBetween A p e B) := by
  obtain ⟨hA, hpB, hAp⟩ := List.pairwise_append.1 h
  obtain ⟨hpB', hB'⟩ := List.pairwise_cons.1 hpB
  have hr := spaced_joinRight hB' hB
  have hp' : p.stop ≤ (joinRight e B).1.start := by rwa [joinRight_start]
  refine List.pairwise_append.2 ⟨hA, spaced_joinLeft hp' hr, fun a ha b hb => ?_⟩
  have hap := hAp a ha p List.mem_cons_self
  have hb' : p.start ≤ b.start := by
    rcases List.mem_append.1 hb with hb | hb
    · exact start_le_of_mem_joinLeft hp' hb
    · have := hpB' b ((joinRight_suffix e B).mem hb)
      unfold stop at this
      omega
  omega

/-- **Where an extent of the new list comes from**: it was there, or it is at
least as long as `e` and starts where `e` does or where the extent before it
does, which then touched `e`. -/
theorem mem_insertBetween {A B : List Extent} {p e r : Extent} (hr : r ∈ insertBetween A p e B) :
    r ∈ A ++ p :: B ∨
      e.len ≤ r.len ∧ (r.start = e.start ∨ p.stop = e.start ∧ r.start = p.start) := by
  have hc : e.len ≤ (joinRight e B).1.len ∧ ∀ b ∈ (joinRight e B).2, b ∈ B := by
    cases B with
    | nil => exact ⟨Nat.le_refl _, fun b hb => hb⟩
    | cons q B =>
      rw [joinRight]
      split_ifs
      · exact ⟨Nat.le_add_right _ _, fun b hb => List.mem_cons_of_mem _ hb⟩
      · exact ⟨Nat.le_refl _, fun b hb => hb⟩
  rw [insertBetween, List.mem_append, List.mem_append] at hr
  rcases hr with hr | hr | hr
  · exact Or.inl (List.mem_append_left _ hr)
  · rw [joinLeft] at hr
    split_ifs at hr with hj
    · rw [joinRight_start] at hj
      rw [List.mem_singleton.1 hr]
      exact Or.inr ⟨Nat.le_trans hc.1 (Nat.le_add_left _ _), Or.inr ⟨hj, rfl⟩⟩
    · rcases List.mem_cons.1 hr with rfl | hr
      · exact Or.inl (List.mem_append_right _ List.mem_cons_self)
      · rw [List.mem_singleton.1 hr]
        exact Or.inr ⟨hc.1, Or.inl (joinRight_start e B)⟩
  · exact Or.inl (List.mem_append_right _ (List.mem_cons_of_mem _ (hc.2 r hr)))

/-- Some extent of the new list is at least as long as the inserted one. -/
theorem exists_len_le_insertBetween (A : List Extent) (p e : Extent) (B : List Extent) :
    ∃ r ∈ insertBetween A p e B, e.len ≤ r.len := by
  have hc : e.len ≤ (joinRight e B).1.len := by
    cases B with
    | nil => exact Nat.le_refl _
    | cons q B =>
      rw [joinRight]
      split_ifs
      · exact Nat.le_add_right _ _
      · exact Nat.le_refl _
  have hmem : ∃ r ∈ joinLeft p (joinRight e B).1, e.len ≤ r.len := by
    rw [joinLeft]
    split_ifs
    · exact ⟨_, List.mem_singleton_self _, Nat.le_trans hc (Nat.le_add_left _ _)⟩
    · exact ⟨_, List.mem_cons_of_mem _ (List.mem_singleton_self _), hc⟩
  obtain ⟨r, hr, hlen⟩ := hmem
  exact ⟨r, List.mem_append_right _ (List.mem_append_left _ hr), hlen⟩

/-- The extent before the place keeps its start. -/
theorem start_mem_insertBetween (A : List Extent) (p e : Extent) (B : List Extent) :
    p.start ∈ (insertBetween A p e B).map start := by
  have hmem : p.start ∈ (joinLeft p (joinRight e B).1).map start := by
    rw [joinLeft]
    split_ifs <;> exact List.mem_cons_self
  rw [insertBetween, List.map_append, List.map_append]
  exact List.mem_append_right _ (List.mem_append_left _ hmem)

/-- An extent that is apart from `e` and from all of the list is apart from all
of the new list. -/
theorem apart_insertBetween {A B : List Extent} {p e f r : Extent} (hf : 0 < f.len)
    (hl : ∀ a ∈ A ++ p :: B, a.Apart f) (he : e.Apart f) (hr : r ∈ insertBetween A p e B) :
    r.Apart f := by
  have hp : p.Apart f := hl p (List.mem_append_right _ List.mem_cons_self)
  have hB : ∀ b ∈ B, b.Apart f := fun b hb =>
    hl b (List.mem_append_right _ (List.mem_cons_of_mem _ hb))
  -- two extents that touch are apart from `f` together
  have hjoin : ∀ a b : Extent, a.Apart f → b.Apart f → a.stop = b.start →
      (⟨a.start, a.len + b.len⟩ : Extent).Apart f := by
    intro a b ha hb hab
    dsimp only [Apart, stop] at *
    omega
  have hc : (joinRight e B).1.Apart f ∧ ∀ b ∈ (joinRight e B).2, b.Apart f := by
    cases B with
    | nil => exact ⟨he, fun b hb => absurd hb List.not_mem_nil⟩
    | cons q B =>
      rw [joinRight]
      split_ifs with h
      · exact ⟨hjoin e q he (hB q List.mem_cons_self) h,
          fun b hb => hB b (List.mem_cons_of_mem _ hb)⟩
      · exact ⟨he, hB⟩
  rw [insertBetween, List.mem_append, List.mem_append] at hr
  rcases hr with hr | hr | hr
  · exact hl r (List.mem_append_left _ hr)
  · rw [joinLeft] at hr
    split_ifs at hr with h
    · rw [List.mem_singleton.1 hr]
      exact hjoin _ _ hp hc.1 h
    · rcases List.mem_cons.1 hr with rfl | hr
      · exact hp
      · rw [List.mem_singleton.1 hr]
        exact hc.1
  · exact hc.2 r hr

/-! ### Carving -/

/-- A spaced list with one extent cut shorter. -/
theorem spaced_shrink {A B : List Extent} {b b' : Extent} (h : Spaced (A ++ b :: B))
    (hstart : b'.start = b.start) (hstop : b'.stop ≤ b.stop) : Spaced (A ++ b' :: B) := by
  obtain ⟨hA, hB, hAB⟩ := List.pairwise_append.1 h
  obtain ⟨hb, hB'⟩ := List.pairwise_cons.1 hB
  refine List.pairwise_append.2 ⟨hA, List.pairwise_cons.2 ⟨?_, hB'⟩, ?_⟩
  · exact fun x hx => hstop.trans_lt (hb x hx)
  · intro a ha x hx
    rcases List.mem_cons.1 hx with rfl | hx
    · rw [hstart]
      exact hAB a ha b List.mem_cons_self
    · exact hAB a ha x (List.mem_cons_of_mem _ hx)

/-- The other extents of a spaced list are apart from each one. -/
theorem apart_of_spaced {A B : List Extent} {b r : Extent} (h : Spaced (A ++ b :: B))
    (hr : r ∈ A ∨ r ∈ B) : r.Apart b := by
  obtain ⟨-, hB, hAB⟩ := List.pairwise_append.1 h
  rcases hr with hr | hr
  · exact Or.inl (hAB r hr b List.mem_cons_self).le
  · exact Or.inr ((List.pairwise_cons.1 hB).1 r hr).le

/-- A part of an extent is apart from what the extent is apart from. -/
theorem Apart.part {a b c : Extent} (h : a.Apart b) (hstart : a.start ≤ c.start)
    (hstop : c.stop ≤ a.stop) : c.Apart b := by
  unfold Apart at h ⊢
  omega

/-- The last `n` addresses of an extent. -/
def tailOf (b : Extent) (n : ℕ) : Extent := ⟨b.start + (b.len - n), n⟩

/-- The list `A ++ b :: B` after the last `n` addresses of `b` are taken out. -/
def carve (A : List Extent) (b : Extent) (B : List Extent) (n : ℕ) : List Extent :=
  if b.len = n then A ++ B else A ++ ⟨b.start, b.len - n⟩ :: B

section carve

variable {A B : List Extent} {b : Extent} {n : ℕ}

theorem tailOf_stop (hn : n ≤ b.len) : (tailOf b n).stop = b.stop := by
  simp only [tailOf, stop]
  omega

theorem Apart.tailOf {f : Extent} (h : b.Apart f) (hn : n ≤ b.len) : (b.tailOf n).Apart f :=
  h.part (Nat.le_add_right _ _) (tailOf_stop hn).le

/-- What is left: the other extents, and the front of this one. -/
theorem mem_carve {r : Extent} (hr : r ∈ carve A b B n) :
    (r ∈ A ∨ r ∈ B) ∨ b.len ≠ n ∧ r = ⟨b.start, b.len - n⟩ := by
  rw [carve] at hr
  split_ifs at hr with hbn
  · exact Or.inl (List.mem_append.1 hr)
  · rcases List.mem_append.1 hr with hr | hr
    · exact Or.inl (Or.inl hr)
    · rcases List.mem_cons.1 hr with rfl | hr
      · exact Or.inr ⟨hbn, rfl⟩
      · exact Or.inl (Or.inr hr)

theorem spaced_carve (h : Spaced (A ++ b :: B)) : Spaced (carve A b B n) := by
  rw [carve]
  split_ifs
  · exact h.sublist ((List.sublist_cons_self b B).append_left A)
  · refine spaced_shrink h rfl ?_
    simp only [stop]
    omega

/-- **What is left and what is taken** cover what was covered. -/
theorem covers_carve (hn : n ≤ b.len) (x : ℕ) :
    Covers (carve A b B n) x ∨ Covers [tailOf b n] x ↔ Covers (A ++ b :: B) x := by
  have hsplit : (b.start ≤ x ∧ x < b.start + (b.len - n)) ∨
      ((tailOf b n).start ≤ x ∧ x < (tailOf b n).stop) ↔ (b.start ≤ x ∧ x < b.stop) := by
    simp only [tailOf, stop]
    omega
  have hcarve : Covers (carve A b B n) x ↔
      Covers (A ++ B) x ∨ (b.start ≤ x ∧ x < b.start + (b.len - n)) := by
    rw [carve]
    split_ifs with hbn
    · rw [hbn, Nat.sub_self]
      constructor
      · exact Or.inl
      · rintro (hx | hx)
        · exact hx
        · omega
    · simp only [covers_append, covers_cons, stop]
      rw [or_assoc, or_comm (a := Covers B x)]
  simp only [hcarve, covers_append, covers_cons, covers_nil, or_false, ← hsplit]
  rw [or_assoc, or_assoc, or_comm (a := Covers B x)]

theorem total_carve (hn : n ≤ b.len) :
    total (carve A b B n) + n = total (A ++ b :: B) := by
  rw [carve]
  split_ifs with hbn <;> simp only [total_append, total_cons] <;> omega

end carve

/-! ### Runs -/

/-- The extent is a run of `S`: its addresses are in `S`, and those before and
behind it are not. -/
def IsRun (S : ℕ → Prop) (r : Extent) : Prop :=
  0 < r.len ∧ (∀ x, r.start ≤ x → x < r.stop → S x) ∧ ¬S r.stop ∧ ∀ x, x + 1 = r.start → ¬S x

theorem isRun_congr {S T : ℕ → Prop} (h : ∀ x, S x ↔ T x) (r : Extent) : IsRun S r ↔ IsRun T r := by
  simp only [IsRun, h]

/-- Two extents of a spaced list are the same, or there is a gap between them. -/
theorem Spaced.gap {l : List Extent} (h : Spaced l) {a b : Extent} (ha : a ∈ l) (hb : b ∈ l) :
    a = b ∨ a.stop < b.start ∨ b.stop < a.start := by
  have hsym : Std.Symm fun a b : Extent => a.stop < b.start ∨ b.stop < a.start :=
    ⟨fun _ _ => Or.symm⟩
  have hpair : l.Pairwise fun a b => a.stop < b.start ∨ b.stop < a.start := h.imp Or.inl
  by_cases hab : a = b
  · exact Or.inl hab
  · exact Or.inr (hpair.forall ha hb hab)

/-- The address behind an extent of a spaced list is not covered. -/
theorem Spaced.not_covers_stop {l : List Extent} (h : Spaced l) {r : Extent} (hr : r ∈ l) :
    ¬Covers l r.stop := by
  rintro ⟨e, he, hle, hlt⟩
  rcases h.gap he hr with rfl | hgap | hgap
  · exact lt_irrefl _ hlt
  · have : r.start ≤ r.stop := Nat.le_add_right _ _
    omega
  · omega

/-- The address before an extent of a spaced list is not covered. -/
theorem Spaced.not_covers_pred {l : List Extent} (h : Spaced l) {r : Extent} (hr : r ∈ l) {x : ℕ}
    (hx : x + 1 = r.start) : ¬Covers l x := by
  rintro ⟨e, he, hle, hlt⟩
  rcases h.gap he hr with rfl | hgap | hgap
  · omega
  · omega
  · have : r.start ≤ r.stop := Nat.le_add_right _ _
    omega

/-- **The extents of a spaced list** that are not empty are the runs of what it
covers. -/
theorem Spaced.mem_iff_isRun {l : List Extent} (h : Spaced l) {r : Extent} :
    r ∈ l ∧ 0 < r.len ↔ IsRun (Covers l) r := by
  constructor
  · rintro ⟨hr, hpos⟩
    exact ⟨hpos, fun x hx hx' => ⟨r, hr, hx, hx'⟩, h.not_covers_stop hr,
      fun x hx => h.not_covers_pred hr hx⟩
  · rintro ⟨hpos, hin, hstop, hpred⟩
    have hfirst : r.start < r.stop := Nat.lt_add_of_pos_right hpos
    obtain ⟨e, he, hle, hlt⟩ := hin r.start (Nat.le_refl _) hfirst
    -- the extent that covers the first address of the run begins and ends with it
    have hstart : e.start = r.start := by
      by_contra hne
      exact hpred (r.start - 1) (by omega) ⟨e, he, by omega, by omega⟩
    have hend : e.stop = r.stop := by
      rcases lt_trichotomy e.stop r.stop with hes | hes | hes
      · exact absurd (hin e.stop hlt.le hes) (h.not_covers_stop he)
      · exact hes
      · exact absurd ⟨e, he, by omega, hes⟩ hstop
    have hlen : e.len = r.len := by
      unfold stop at hend
      omega
    rw [Extent.ext hstart hlen] at he
    exact ⟨he, hpos⟩

end Extent

end V6User
