import V6User.Malloc.Runs

/-!
# The order of the frees

`lib/umalloc.c`: several calls of `free`, one after another.

What `free` leaves depends on where its search starts and on which neighbours are
free by then.  The free blocks at the end do not: the ring stays spaced, and what
it covers grows by exactly the block that is freed, so the free blocks are the runs
of the addresses that were free or were given back (`freeAll_spec`), in whatever
order this was done, and from whatever rover (`freeAll_perm`).
-/

namespace V6User
namespace Malloc

open Extent Fuel

/-- The caller frees its blocks in this order. -/
def freeAll (fuel : ℕ) : Heap → List Extent → Except Stop Heap
  | h, [] => .ok h
  | h, e :: l => do
    let h ← free fuel h (e.start + hdrSize)
    freeAll fuel h l

/-- A value that `freep` may have: some entry of the ring, or null before the first
call of `malloc`. -/
def Rover (h : Heap) (fp : Option ℕ) : Prop :=
  match h.freep with
  | none => fp = none
  | some p => ∃ k, fp = some (h.mem.next^[k] p)

variable {base : ℕ} {s : State} {ring live l l' : List Extent}

/-- Wherever the rover is, the heap holds the same pool. -/
theorem Holds.rover {h : Heap} (hh : Holds base h ring live) {fp : Option ℕ} (hfp : Rover h fp) :
    Holds base { h with freep := fp } ring live := by
  obtain ⟨p, hp, hmem⟩ := hh.freep
  have hfp' : ∃ k, fp = some (h.mem.next^[k] p) := by
    rw [Rover, hp] at hfp
    exact hfp
  obtain ⟨k, rfl⟩ := hfp'
  exact ⟨hh.ok, hh.rep, ⟨_, rfl, (hh.rep.walk.mem_iff_iterate hmem).2 ⟨k, rfl⟩⟩, hh.bound⟩

/-- **What a run of frees leaves**: it comes to an end, and the ring covers what it
covered and the blocks given back. -/
theorem freeAll_spec {h : Heap} (hh : Holds base h ring (l ++ live)) :
    ∃ ring' h', Settles (fun n => freeAll n h l) h' ∧ Holds base h' ring' live ∧
      ∀ x, Covers ring' x ↔ Covers (ring ++ l) x := by
  induction l generalizing h ring with
  | nil =>
    refine ⟨ring, h, settles_of_forall fun _ => rfl, hh, fun x => ?_⟩
    rw [List.append_nil]
  | cons e l ih =>
    obtain ⟨A, p, B, h₁, rfl, hset, hh₁, -⟩ := free_spec hh
    obtain ⟨ring', h', hset', hh', hcov⟩ := ih hh₁
    refine ⟨ring', h', hset.bind hset', hh', fun x => ?_⟩
    rw [hcov, covers_append, covers_insertBetween, or_assoc, ← covers_append [e] l,
      ← covers_append, List.singleton_append]

/-- The free blocks are the runs of what the ring covers. -/
theorem Holds.freeBlock_iff_isRun {h : Heap} (hh : Holds base h ring live) {r : Extent} :
    FreeBlock h r ↔ IsRun (Covers ring) r :=
  hh.freeBlock_iff.trans hh.ok.spaced.mem_iff_isRun

/-- **Frees commute.**  In every reachable state, freeing some blocks of the caller in
two orders, from two positions of the rover, leaves the same free blocks. -/
theorem freeAll_perm (hs : Reachable base s) (hnd : l.Nodup) (hl : l ⊆ s.live) (hp : l.Perm l')
    {fp fp' : Option ℕ} (hfp : Rover s.heap fp) (hfp' : Rover s.heap fp') :
    ∃ h₁ h₂, Settles (fun n => freeAll n { s.heap with freep := fp } l) h₁ ∧
      Settles (fun n => freeAll n { s.heap with freep := fp' } l') h₂ ∧
      ∀ r, FreeBlock h₁ r ↔ FreeBlock h₂ r := by
  rcases hs.inv with ⟨hnone, -, hlive⟩ | ⟨ring, hh⟩
  · -- no block was handed out, so none is freed
    rw [hlive] at hl
    obtain rfl := List.subset_nil.1 hl
    obtain rfl := List.nil_perm.1 hp
    rw [Rover, hnone] at hfp hfp'
    refine ⟨_, _, settles_of_forall fun _ => rfl, settles_of_forall fun _ => rfl, fun r => ?_⟩
    rw [hfp, hfp']
  · obtain ⟨rest, hrest⟩ : ∃ rest, s.live.Perm (l ++ rest) := by
      obtain ⟨k, hk, hsub⟩ := List.subperm_of_subset hnd hl
      obtain ⟨rest, hrest⟩ := hsub.exists_perm_append
      exact ⟨rest, hrest.trans (hk.append_right rest)⟩
    obtain ⟨ring₁, h₁, hset₁, hh₁, hcov₁⟩ := freeAll_spec ((hh.rover hfp).perm hrest)
    obtain ⟨ring₂, h₂, hset₂, hh₂, hcov₂⟩ :=
      freeAll_spec ((hh.rover hfp').perm (hrest.trans (hp.append_right rest)))
    refine ⟨h₁, h₂, hset₁, hset₂, fun r => ?_⟩
    have hsame : ∀ x, Covers ring₁ x ↔ Covers ring₂ x := fun x => by
      rw [hcov₁, hcov₂]
      exact covers_perm (hp.append_left ring) x
    rw [hh₁.freeBlock_iff_isRun, hh₂.freeBlock_iff_isRun]
    exact isRun_congr hsame r

/-- What a second call leaves, if it is `malloc(50)`. -/
def fifty : Heap × ℕ := (malloc 16 oneRegion 8 hundred.1 50).toOption.getD (hundred.1, 0)

theorem malloc_fifty : Settles (fun n => malloc 16 oneRegion n hundred.1 50) fifty := by
  refine ⟨8, fun n hn => ?_⟩
  obtain ⟨k, rfl⟩ := Nat.exists_eq_add_of_le' hn
  rfl

theorem reachable_fifty : Reachable 16 ⟨fifty.1, [⟨69424, 80⟩, ⟨69504, 128⟩]⟩ := by
  obtain ⟨m, hrun⟩ := reachable_hundred
  have hstep := Step.malloc (s := ⟨hundred.1, [⟨69504, 128⟩]⟩) fresh_oneRegion malloc_fifty
  exact ⟨m, hrun.tail hstep⟩

theorem freeAll_perm_fifty :
    ∃ h₁ h₂,
      Settles (fun n => freeAll n { fifty.1 with freep := some 16 }
        [⟨69424, 80⟩, ⟨69504, 128⟩]) h₁ ∧
      Settles (fun n => freeAll n { fifty.1 with freep := some 4096 }
        [⟨69504, 128⟩, ⟨69424, 80⟩]) h₂ ∧
      ∀ r, FreeBlock h₁ r ↔ FreeBlock h₂ r :=
  freeAll_perm reachable_fifty (by decide) (List.Subset.refl _) (List.Perm.swap _ _ _) ⟨0, rfl⟩
    ⟨1, rfl⟩

end Malloc
end V6User
