import V6User.Base.Extent

/-!
# What the allocator keeps

The purpose of `lib/umalloc.c`, without headers and pointers: a pool of free
extents, in the order of their addresses and never adjacent, from which extents
are carved and into which they are released.  The free list of the source is a
ring that goes through a static header, so the first entry of a pool's ring
stands for that header: an extent without addresses at `base`.

`Pool.Ok` is the invariant, and each operation keeps it: carving
(`Pool.Ok.carve`), releasing (`Pool.Ok.release`) and growing by a region
(`Pool.Ok.grow`).  `V6User.Malloc.Refine` shows that the allocator's own
operations on memory are these.
-/

namespace V6User
namespace Malloc

open Extent

/-- `sizeof(Header)`. -/
def hdrSize : ℕ := 16

/-- The free ring, the extents handed out, and the regions obtained. -/
structure Pool where
  ring : List Extent
  live : List Extent
  regions : List Extent

/-- The entry of the ring for the static header. -/
def anchor (base : ℕ) : Extent := ⟨base, 0⟩

/-- A proper block: not empty, and above the static header. -/
def Proper (base : ℕ) (e : Extent) : Prop := 0 < e.len ∧ base + hdrSize ≤ e.start

/-- **The invariant of a pool.**  The ring starts at the static header, is in the
order of the addresses, and no two of its extents touch; all blocks, free or
handed out, are proper and pairwise apart; together they cover exactly the
regions. -/
structure Pool.Ok (base : ℕ) (s : Pool) : Prop where
  head : ∃ free, s.ring = anchor base :: free
  spaced : Spaced s.ring
  proper : ∀ e ∈ s.ring, e = anchor base ∨ Proper base e
  liveProper : ∀ e ∈ s.live, Proper base e
  apart : ∀ a ∈ s.ring, ∀ e ∈ s.live, a.Apart e
  liveApart : s.live.Pairwise Apart
  tile : ∀ x, Covers s.regions x ↔ Covers (s.ring ++ s.live) x
  total : Extent.total s.ring + Extent.total s.live = Extent.total s.regions

variable {base : ℕ}

/-- The order in which the blocks were handed out does not matter. -/
theorem Pool.Ok.perm {ring live live' regions : List Extent}
    (h : Pool.Ok base ⟨ring, live, regions⟩) (hp : live.Perm live') :
    Pool.Ok base ⟨ring, live', regions⟩ where
  head := h.head
  spaced := h.spaced
  proper := h.proper
  liveProper e he := h.liveProper e (hp.mem_iff.2 he)
  apart a ha e he := h.apart a ha e (hp.mem_iff.2 he)
  liveApart := (hp.pairwise_iff fun hab => hab.symm).1 h.liveApart
  tile x := (h.tile x).trans (covers_perm (hp.append_left ring) x)
  total := (congrArg _ (total_perm hp).symm).trans h.total

/-- A block of the ring that is not empty is proper. -/
theorem Pool.Ok.proper_of_pos {s : Pool} (h : s.Ok base) {e : Extent} (he : e ∈ s.ring)
    (hpos : 0 < e.len) : Proper base e := by
  rcases h.proper e he with rfl | hp
  · exact absurd hpos (lt_irrefl 0)
  · exact hp

/-- A block of the ring behind another one is proper. -/
theorem Pool.Ok.proper_of_append {A B live regions : List Extent} {b : Extent}
    (h : Pool.Ok base ⟨A ++ b :: B, live, regions⟩) (hA : A ≠ []) : Proper base b := by
  rcases h.proper b (List.mem_append_right _ List.mem_cons_self) with rfl | hp
  · -- the anchor is the first entry, and no entry starts where it does
    obtain ⟨free, hfree⟩ := h.head
    obtain ⟨a, A, rfl⟩ := List.exists_cons_of_ne_nil hA
    have ha : a = anchor base := (List.cons.inj hfree).1
    have := (List.pairwise_append.1 h.spaced).2.2 a List.mem_cons_self _ List.mem_cons_self
    subst ha
    exact absurd this (lt_irrefl base)
  · exact hp

/-- **Releasing a block** into the ring, between two entries. -/
theorem Pool.Ok.release {A B live regions : List Extent} {p e : Extent}
    (h : Pool.Ok base ⟨A ++ p :: B, e :: live, regions⟩) (hp : p.stop ≤ e.start)
    (hB : ∀ b ∈ B, e.stop ≤ b.start) :
    Pool.Ok base ⟨insertBetween A p e B, live, regions⟩ := by
  have he := h.liveProper e List.mem_cons_self
  obtain ⟨heLive, hlive⟩ := List.pairwise_cons.1 h.liveApart
  -- what touches the released block is not the anchor
  have hanchor : p.stop = e.start → A ≠ [] := by
    rintro hpe rfl
    obtain ⟨free, hfree⟩ := h.head
    have hpa : p = anchor base := (List.cons.inj hfree).1
    subst hpa
    have := he.2
    simp only [anchor, stop, hdrSize] at hpe this
    omega
  constructor
  · obtain ⟨free, hfree⟩ := h.head
    cases A with
    | nil =>
      have hpa : p = anchor base := (List.cons.inj hfree).1
      have hne : ¬p.stop = (joinRight e B).1.start := by
        rw [joinRight_start]
        exact fun hpe => hanchor hpe rfl
      refine ⟨(joinRight e B).1 :: (joinRight e B).2, ?_⟩
      show insertBetween [] p e B = _
      rw [insertBetween, joinLeft, if_neg hne, hpa]
      rfl
    | cons a A =>
      have haa : a = anchor base := (List.cons.inj hfree).1
      exact ⟨_, by rw [haa]; rfl⟩
  · exact spaced_insertBetween h.spaced hp hB
  · intro r hr
    rcases mem_insertBetween hr with hr | ⟨hlen, hstart⟩
    · exact h.proper r hr
    · refine Or.inr ⟨he.1.trans_le hlen, ?_⟩
      rcases hstart with hs | ⟨hpe, hs⟩
      · exact hs ▸ he.2
      · rw [hs]
        exact (h.proper_of_append (hanchor hpe)).2
  · exact fun f hf => h.liveProper f (List.mem_cons_of_mem _ hf)
  · intro r hr f hf
    exact apart_insertBetween (h.liveProper f (List.mem_cons_of_mem _ hf)).1
      (fun a ha => h.apart a ha f (List.mem_cons_of_mem _ hf)) (heLive f hf) hr
  · exact hlive
  · intro x
    have ht := h.tile x
    simp only [covers_append, covers_cons, covers_insertBetween, covers_nil, or_false] at ht ⊢
    rw [ht]
    simp only [or_assoc, or_comm, or_left_comm]
  · have ht := h.total
    simp only [total_insertBetween, total_append, total_cons] at ht ⊢
    omega

/-- **Growing the pool** by a region above all others, as a block handed out. -/
theorem Pool.Ok.grow {ring live regions : List Extent} {r : Extent}
    (h : Pool.Ok base ⟨ring, live, regions⟩) (hr : Proper base r)
    (hfresh : ∀ q ∈ regions, q.stop ≤ r.start) :
    Pool.Ok base ⟨ring, r :: live, regions ++ [r]⟩ := by
  -- every block ends below the region
  have hbelow : ∀ e ∈ ring ++ live, 0 < e.len → e.stop ≤ r.start := by
    intro e he hpos
    have hlast : Covers (ring ++ live) (e.stop - 1) :=
      ⟨e, he, by unfold stop; omega, by unfold stop; omega⟩
    obtain ⟨q, hq, -, hx⟩ := (h.tile _).2 hlast
    have := hfresh q hq
    omega
  refine ⟨h.head, h.spaced, h.proper, ?_, ?_, ?_, ?_, ?_⟩
  · exact List.forall_mem_cons.2 ⟨hr, h.liveProper⟩
  · intro a ha e he
    rcases List.mem_cons.1 he with rfl | he
    · rcases h.proper a ha with rfl | hp
      · left
        have := hr.2
        simp only [anchor, stop, hdrSize] at this ⊢
        omega
      · exact Or.inl (hbelow a (List.mem_append_left _ ha) hp.1)
    · exact h.apart a ha e he
  · exact List.pairwise_cons.2
      ⟨fun e he => Or.inr (hbelow e (List.mem_append_right _ he) (h.liveProper e he).1), h.liveApart⟩
  · intro x
    have ht := h.tile x
    simp only [covers_append, covers_cons, covers_nil, or_false] at ht ⊢
    rw [ht]
    simp only [or_assoc, or_comm]
  · have ht := h.total
    simp only [total_append, total_cons, total_nil] at ht ⊢
    omega

/-- **Carving a block** from the end of an extent of the ring. -/
theorem Pool.Ok.carve {A B live regions : List Extent} {b : Extent} {n : ℕ}
    (h : Pool.Ok base ⟨A ++ b :: B, live, regions⟩) (hn : 0 < n) (hle : n ≤ b.len) :
    Pool.Ok base ⟨Extent.carve A b B n, b.tailOf n :: live, regions⟩ := by
  have hb : b ∈ A ++ b :: B := List.mem_append_right _ List.mem_cons_self
  have hprop := h.proper_of_pos hb (hn.trans_le hle)
  have hring : ∀ r, r ∈ A ∨ r ∈ B → r ∈ A ++ b :: B := fun r hr =>
    List.mem_append.2 (hr.imp id (List.mem_cons_of_mem _))
  constructor
  · obtain ⟨free, hfree⟩ := h.head
    cases A with
    | nil =>
      have hba : b = anchor base := (List.cons.inj hfree).1
      subst hba
      exact absurd hprop.1 (lt_irrefl 0)
    | cons a A =>
      have haa : a = anchor base := (List.cons.inj hfree).1
      subst haa
      show ∃ free, Extent.carve (anchor base :: A) b B n = _
      rw [Extent.carve]
      split_ifs
      · exact ⟨A ++ B, rfl⟩
      · exact ⟨A ++ ⟨b.start, b.len - n⟩ :: B, rfl⟩
  · exact spaced_carve h.spaced
  · intro r hr
    rcases mem_carve hr with hr | ⟨hbn, rfl⟩
    · exact h.proper r (hring r hr)
    · exact Or.inr ⟨by dsimp only; omega, hprop.2⟩
  · exact List.forall_mem_cons.2 ⟨⟨hn, hprop.2.trans (Nat.le_add_right _ _)⟩, h.liveProper⟩
  · intro r hr f hf
    rcases List.mem_cons.1 hf with rfl | hf
    · rcases mem_carve hr with hr | ⟨-, rfl⟩
      · exact ((apart_of_spaced h.spaced hr).symm.tailOf hle).symm
      · exact Or.inl (Nat.le_refl _)
    · rcases mem_carve hr with hr | ⟨-, rfl⟩
      · exact h.apart r (hring r hr) f hf
      · refine (h.apart b hb f hf).part (Nat.le_refl _) ?_
        simp only [stop]
        omega
  · exact List.pairwise_cons.2 ⟨fun f hf => (h.apart b hb f hf).tailOf hle, h.liveApart⟩
  · intro x
    have ht := h.tile x
    rw [covers_append, ← covers_carve hle x] at ht
    rw [ht]
    simp only [covers_append, covers_cons, covers_nil, or_false, or_assoc]
  · have ht := h.total
    have hc := total_carve (A := A) (B := B) hle
    simp only [total_cons, Extent.tailOf] at ht ⊢
    omega

end Malloc
end V6User
