import V6User.Malloc.Refine

/-!
# The search of `malloc`

The loop of `malloc` goes once round the ring, from the entry behind `freep`: it
passes by the entries that are too small (`mallocLoop_skip`) and takes a block
from the first one that is not (`mallocLoop_fit`).  Only when it comes to `freep`
and has found none (`mallocLoop_miss`) does it ask `morecore`, after which there
is one to find.  `malloc_spec` puts these together.
-/

namespace V6User
namespace Malloc

open Extent Fuel

variable {base : ℕ} {h : Heap} {ring live : List Extent} {sbrk : Sbrk} {nunits fp : ℕ}

/-- **The loop passes by** entries that are too small and not `freep`. -/
theorem mallocLoop_skip (sbrk : Sbrk) {P : List ℕ} {prevp p x : ℕ} (hw : Walk h.mem.next p P x)
    (hprev : h.mem.next prevp = p)
    (hP : ∀ q ∈ P, ¬nunits ≤ (h.mem q).size ∧ h.freep ≠ some q) :
    ∃ q ∈ prevp :: P, h.mem.next q = x ∧ ∀ y,
      Settles (fun n => mallocLoop sbrk nunits n h q x) y →
        Settles (fun n => mallocLoop sbrk nunits n h prevp p) y := by
  induction P generalizing prevp p with
  | nil =>
    obtain rfl : p = x := hw
    exact ⟨prevp, List.mem_cons_self, hprev, fun y hy => hy⟩
  | cons z P ih =>
    obtain ⟨rfl, hw⟩ := hw
    obtain ⟨hsize, hfreep⟩ := hP p List.mem_cons_self
    obtain ⟨q, hq, hnext, hset⟩ := ih hw rfl fun q hq => hP q (List.mem_cons_of_mem _ hq)
    refine ⟨q, List.mem_cons_of_mem _ hq, hnext, fun y hy => ?_⟩
    refine Settles.of_succ (fun n => ?_) (hset y hy)
    rw [mallocLoop, if_neg hsize, if_neg hfreep]
    rfl

/-- The order in which the loop visits the ring: from the entry behind `freep`
round to `freep`. -/
theorem Holds.turn (hh : Holds base h ring live) (hfp : h.freep = some fp) :
    ∃ L, Walk h.mem.next (h.mem.next fp) (L ++ [fp]) (h.mem.next fp) ∧
      (L ++ [fp]).Perm (ring.map start) ∧ (L ++ [fp]).Nodup := by
  obtain ⟨fp', hfp', hmem⟩ := hh.freep
  obtain rfl : fp = fp' := Option.some.inj (hfp.symm.trans hfp')
  obtain ⟨l, l', hl⟩ := List.append_of_mem hmem
  have hw := hh.rep.walk
  have hnd := hh.ok.spaced.nodup_starts
  have hperm : ((l' ++ l) ++ [fp]).Perm (ring.map start) := by
    rw [hl, List.append_assoc]
    exact List.perm_append_comm.trans (by rw [List.append_assoc]; rfl)
  rw [hl] at hw
  refine ⟨l' ++ l, ?_, hperm, hperm.nodup_iff.2 hnd⟩
  rw [List.append_assoc]
  exact hw.turn

/-- **A block that fits is found**: the loop takes a block from it, and comes to an
end. -/
theorem mallocLoop_fit (hh : Holds base h ring live) (hfp : h.freep = some fp) (hn : 0 < nunits)
    (hfit : ∃ r ∈ ring, hdrSize * nunits ≤ r.len) :
    ∃ A b B h', ring = A ++ b :: B ∧ hdrSize * nunits ≤ b.len ∧
      Settles (fun n => mallocLoop sbrk nunits n h fp (h.mem fp).ptr)
        (h', (b.tailOf (hdrSize * nunits)).start + hdrSize) ∧
      Holds base h' (carve A b B (hdrSize * nunits)) (b.tailOf (hdrSize * nunits) :: live) := by
  obtain ⟨L, hw, hperm, hnd⟩ := hh.turn hfp
  have hsize : ∀ r ∈ ring, (nunits ≤ (h.mem r.start).size ↔ hdrSize * nunits ≤ r.len) := by
    intro r hr
    have := hh.rep.size r (List.mem_append_left _ hr)
    unfold hdrSize at *
    omega
  -- the first entry that is large enough
  obtain ⟨P, q, Q, hPQ, hq, hP⟩ : ∃ P q Q, L ++ [fp] = P ++ q :: Q ∧ nunits ≤ (h.mem q).size ∧
      ∀ x ∈ P, ¬nunits ≤ (h.mem x).size := by
    obtain ⟨r, hr, hlen⟩ := hfit
    have hmem : r.start ∈ L ++ [fp] := hperm.mem_iff.2 (List.mem_map_of_mem hr)
    have hsome : ((L ++ [fp]).find? fun x => nunits ≤ (h.mem x).size).isSome := by
      rw [List.find?_isSome]
      exact ⟨r.start, hmem, decide_eq_true ((hsize r hr).2 hlen)⟩
    obtain ⟨q, hq⟩ := Option.isSome_iff_exists.1 hsome
    obtain ⟨hqfit, P, Q, hPQ, hP⟩ := List.find?_eq_some_iff_append.1 hq
    refine ⟨P, q, Q, hPQ, of_decide_eq_true hqfit, fun x hx => ?_⟩
    have := hP x hx
    rw [Bool.not_eq_true', decide_eq_false_iff_not] at this
    exact this
  have hfpP : fp ∉ P := by
    have hlast : fp ∈ q :: Q := by
      have h₁ := congrArg List.getLast? hPQ
      rw [List.getLast?_concat, List.getLast?_append_cons] at h₁
      exact List.mem_of_getLast? h₁.symm
    intro hmem
    rw [hPQ] at hnd
    exact (List.nodup_append.1 hnd).2.2 fp hmem fp hlast rfl
  rw [hPQ] at hw
  obtain ⟨prevq, hprevq, hnext, hset⟩ := mallocLoop_skip sbrk hw.split.1 rfl
    fun x hx => ⟨hP x hx, fun hxp => hfpP (Option.some.inj (hxp.symm.trans hfp) ▸ hx)⟩
  -- it is a block of the ring, with a predecessor
  have hqring : q ∈ ring.map start := by
    rw [← hperm.mem_iff, hPQ]
    exact List.mem_append_right _ List.mem_cons_self
  obtain ⟨b, hb, rfl⟩ := List.mem_map.1 hqring
  have hle := (hsize b hb).1 hq
  obtain ⟨A, B, hring⟩ := List.append_of_mem hb
  have hA : A ≠ [] := by
    rintro rfl
    obtain ⟨rest, hrest⟩ := hh.ok.head
    have hba : b = anchor base := by
      rw [hring] at hrest
      exact (List.cons.inj hrest).1
    rw [hba] at hle
    unfold hdrSize anchor at hle
    dsimp only at hle
    omega
  obtain ⟨A', a, rfl⟩ : ∃ A' a, A = A' ++ [a] :=
    ⟨A.dropLast, A.getLast hA, (List.dropLast_append_getLast hA).symm⟩
  have hring' : ring = A' ++ a :: b :: B := by
    rw [hring, List.append_assoc]
    rfl
  have hpa : prevq = a.start := by
    refine hh.rep.walk.next_inj hh.ok.spaced.nodup_starts ?_ ?_ ?_
    · rw [← hperm.mem_iff, hPQ]
      rcases List.mem_cons.1 hprevq with rfl | hmem
      · rw [← hPQ]
        exact List.mem_append_right _ List.mem_cons_self
      · exact List.mem_append_left _ hmem
    · rw [hring']
      exact List.mem_map_of_mem (List.mem_append_right _ List.mem_cons_self)
    · rw [hnext]
      have hrep := hh.rep
      rw [hring'] at hrep
      exact hrep.next_cons.1.symm
  rw [hring'] at hh
  obtain ⟨hh', hap, -⟩ := take_spec hh hn hle
  refine ⟨A' ++ [a], b, B, (take h a.start b.start nunits).1, hring, hle, hset _ ?_, hh'⟩
  refine Settles.of_succ (g := fun _ => .ok (take h a.start b.start nunits)) (fun n => ?_)
    (settles_of_forall fun _ => ?_)
  · rw [mallocLoop, if_pos hq, hpa]
  · rw [← hap]

/-- **Where no block fits**, the loop comes back to `freep`. -/
theorem mallocLoop_miss (sbrk : Sbrk) (hh : Holds base h ring live) (hfp : h.freep = some fp)
    (hno : ∀ r ∈ ring, r.len < hdrSize * nunits) :
    ¬nunits ≤ (h.mem fp).size ∧ ∃ q, ∀ y,
      Settles (fun n => mallocLoop sbrk nunits n h q fp) y →
        Settles (fun n => mallocLoop sbrk nunits n h fp (h.mem fp).ptr) y := by
  obtain ⟨L, hw, hperm, hnd⟩ := hh.turn hfp
  have hsmall : ∀ x ∈ L ++ [fp], ¬nunits ≤ (h.mem x).size := by
    intro x hx
    obtain ⟨r, hr, rfl⟩ := List.mem_map.1 (hperm.mem_iff.1 hx)
    have h₁ := hh.rep.size r (List.mem_append_left _ hr)
    have h₂ := hno r hr
    unfold hdrSize at *
    omega
  refine ⟨hsmall fp (List.mem_append_right _ List.mem_cons_self), ?_⟩
  have hne : ∀ x ∈ L, h.freep ≠ some x := fun x hx hxp =>
    (List.nodup_append.1 hnd).2.2 x hx fp List.mem_cons_self
      (Option.some.inj (hxp.symm.trans hfp))
  obtain ⟨q, -, -, hset⟩ := mallocLoop_skip sbrk hw.split.1 rfl fun x hx =>
    ⟨hsmall x (List.mem_append_left _ hx), hne x hx⟩
  exact ⟨q, hset⟩

/-- How the loop goes on after `morecore`. -/
def afterMore (sbrk : Sbrk) (nunits n : ℕ) (r : Heap × Option ℕ) : Except Stop (Heap × ℕ) :=
  match r.2 with
  | none => .ok (r.1, 0)
  | some p => mallocLoop sbrk nunits n r.1 p (r.1.mem p).ptr

/-- **The loop of `malloc`** comes to an end: with a new block of the units asked
for, or with `0`, when no block fits and `sbrk` fails. -/
theorem mallocLoop_spec (hh : Holds base h ring live) (hfp : h.freep = some fp)
    (hn : 0 < nunits) (hs : Fresh base sbrk) :
    (∃ e ring' h', e.len = hdrSize * nunits ∧
        Settles (fun n => mallocLoop sbrk nunits n h fp (h.mem fp).ptr) (h', e.start + hdrSize) ∧
        Holds base h' ring' (e :: live)) ∨
      (∀ r ∈ ring, r.len < hdrSize * nunits) ∧
        sbrk h.regions (moreUnits nunits * hdrSize) = none ∧
        Settles (fun n => mallocLoop sbrk nunits n h fp (h.mem fp).ptr) (h, 0) := by
  by_cases hfit : ∃ r ∈ ring, hdrSize * nunits ≤ r.len
  · obtain ⟨A, b, B, h', -, -, hset, hh'⟩ := mallocLoop_fit hh hfp hn hfit
    exact Or.inl ⟨_, _, h', rfl, hset, hh'⟩
  · have hno : ∀ r ∈ ring, r.len < hdrSize * nunits := fun r hr =>
      not_le.1 fun hle => hfit ⟨r, hr, hle⟩
    obtain ⟨hsmall, q, hmiss⟩ := mallocLoop_miss sbrk hh hfp hno
    have hturn : ∀ n, mallocLoop sbrk nunits (n + 1) h q fp =
        (morecore sbrk n h nunits >>= afterMore sbrk nunits n) := fun n =>
      (if_neg hsmall).trans (if_pos hfp)
    rcases morecore_spec hh hs nunits with ⟨hnone, hmore⟩ | ⟨ring', h', fp', hmore, hh', hfp', hfit'⟩
    · refine Or.inr ⟨hno, hnone, hmiss _ (Settles.of_succ hturn ?_)⟩
      exact (settles_of_forall hmore).bind (settles_of_forall fun _ => rfl)
    · obtain ⟨A, b, B, h'', -, -, hset, hh''⟩ := mallocLoop_fit hh' hfp' hn hfit'
      exact Or.inl ⟨_, _, h'', rfl, hmiss _ (Settles.of_succ hturn (hmore.bind hset)), hh''⟩

theorem unitsFor_pos (nbytes : UInt32) : 0 < unitsFor nbytes := Nat.succ_pos _

/-- **`malloc` carves a block** of the units for the request, or finds that it
cannot. -/
theorem malloc_spec (hh : Holds base (init base h) ring live) (hs : Fresh base sbrk)
    (nbytes : UInt32) :
    (∃ e ring' h', e.len = hdrSize * unitsFor nbytes ∧
        Settles (fun n => malloc base sbrk n h nbytes) (h', e.start + hdrSize) ∧
        Holds base h' ring' (e :: live)) ∨
      (∀ r ∈ ring, r.len < hdrSize * unitsFor nbytes) ∧
        sbrk (init base h).regions (moreUnits (unitsFor nbytes) * hdrSize) = none ∧
        Settles (fun n => malloc base sbrk n h nbytes) (init base h, 0) := by
  obtain ⟨fp, hfp, -⟩ := hh.freep
  have hmalloc : (fun n => malloc base sbrk n h nbytes) = fun n =>
      mallocLoop sbrk (unitsFor nbytes) n (init base h) fp ((init base h).mem fp).ptr := by
    funext n
    rw [malloc]
    rw [hfp]
  rw [hmalloc]
  exact mallocLoop_spec hh hfp (unitsFor_pos nbytes) hs

end Malloc
end V6User
