import V6User.Malloc.Search
import Mathlib.Logic.Relation

/-!
# Runs of the allocator

A caller asks for blocks, gives each of them back at most once, and writes into
the ones it holds.  `Reachable` are the states of all such runs, with any `sbrk`
that keeps its promise `Fresh` at each call.  `Inv` holds in each of them:
either no call of `malloc` was made, or the heap holds a pool whose blocks
handed out are those of the caller.
-/

namespace V6User
namespace Malloc

open Extent Fuel

/-- The heap, and the blocks the caller holds, headers included. -/
structure State where
  heap : Heap
  live : List Extent

/-- What the caller may use of a block. -/
def payload (e : Extent) : Extent := ⟨e.start + hdrSize, e.len - hdrSize⟩

/-- A call that returns, or a write of the caller.  A header at `x` is changed by a
write into `x, …, x + 15`, so the write of the caller changes the headers at
addresses behind the start of a block it holds, and before its end. -/
inductive Step (base : ℕ) : State → State → Prop
  | malloc {s : State} {sbrk : Sbrk} {nbytes : UInt32} {h : Heap} {ap : ℕ} (hs : Fresh base sbrk)
      (hr : Settles (fun n => malloc base sbrk n s.heap nbytes) (h, ap)) :
      Step base s ⟨h, if ap = 0 then s.live
        else ⟨ap - hdrSize, hdrSize * unitsFor nbytes⟩ :: s.live⟩
  | free {s : State} {e : Extent} {h : Heap} (he : e ∈ s.live)
      (hr : Settles (fun n => free n s.heap (e.start + hdrSize)) h) :
      Step base s ⟨h, s.live.erase e⟩
  | write {s : State} {m : Mem}
      (hm : ∀ x, m x ≠ s.heap.mem x → ∃ e ∈ s.live, e.start < x ∧ x < e.stop) :
      Step base s ⟨{ s.heap with mem := m }, s.live⟩

/-- The states of the runs that begin before the first call. -/
def Reachable (base : ℕ) (s : State) : Prop :=
  ∃ m, Relation.ReflTransGen (Step base) ⟨⟨m, none, []⟩, []⟩ s

/-- No call was made, or the heap holds a pool. -/
def Inv (base : ℕ) (s : State) : Prop :=
  (s.heap.freep = none ∧ s.heap.regions = [] ∧ s.live = []) ∨ ∃ ring, Holds base s.heap ring s.live

variable {base : ℕ} {s s' : State} {ring live : List Extent}

/-- The ring of the static header alone. -/
theorem holds_anchor {h : Heap} (hfreep : h.freep = none) (hregions : h.regions = []) :
    Holds base (init base h) [anchor base] [] := by
  have hinit : init base h =
      { h with mem := (h.mem.setPtr base base).setSize base 0, freep := some base } := by
    rw [init, hfreep]
  rw [hinit]
  refine ⟨⟨⟨[], rfl⟩, List.pairwise_singleton _ _, ?_, ?_, ?_, List.Pairwise.nil, ?_, ?_⟩,
    ⟨⟨rfl, ?_⟩, ?_⟩, ⟨base, rfl, List.mem_cons_self⟩, ?_⟩
  · exact fun e he => Or.inl (List.mem_singleton.1 he)
  · exact fun e he => absurd he List.not_mem_nil
  · exact fun a _ e he => absurd he List.not_mem_nil
  · intro x
    show Covers h.regions x ↔ _
    rw [hregions]
    simp only [List.append_nil, covers_nil, covers_cons, anchor, stop, or_false, false_iff]
    omega
  · show total [anchor base] + total [] = total h.regions
    rw [hregions]
    rfl
  · show ((h.mem.setPtr base base).setSize base 0 base).ptr = base
    rw [setSize_ptr, setPtr_self]
  · intro e he
    rw [List.append_nil, List.mem_singleton] at he
    rw [he]
    show hdrSize * ((h.mem.setPtr base base).setSize base 0 base).size = 0
    rw [setSize_self]
    rfl
  · show total h.regions < _
    rw [hregions]
    simp [hdrSize, uintRange]

/-- What the first line of `malloc` leaves is a pool. -/
theorem Inv.init (h : Inv base s) : ∃ ring, Holds base (Malloc.init base s.heap) ring s.live := by
  rcases h with ⟨hfreep, hregions, hlive⟩ | ⟨ring, hh⟩
  · rw [hlive]
    exact ⟨_, holds_anchor hfreep hregions⟩
  · obtain ⟨fp, hfp, -⟩ := id hh.freep
    refine ⟨ring, ?_⟩
    rw [Malloc.init, hfp]
    exact hh

/-- A caller that holds a block has called `malloc`. -/
theorem Inv.holds (h : Inv base s) {e : Extent} (he : e ∈ s.live) :
    ∃ ring, Holds base s.heap ring s.live := by
  rcases h with ⟨-, -, hlive⟩ | hh
  · rw [hlive] at he
    exact absurd he List.not_mem_nil
  · exact hh

theorem Holds.perm {h : Heap} {live' : List Extent} (hh : Holds base h ring live)
    (hp : live.Perm live') : Holds base h ring live' :=
  ⟨hh.ok.perm hp, hh.rep.perm hp, hh.freep, hh.bound⟩

/-- Blocks are apart, so writes into blocks handed out leave all headers alone. -/
theorem Holds.write {h : Heap} {m : Mem} (hh : Holds base h ring live)
    (hm : ∀ x, m x ≠ h.mem x → ∃ e ∈ live, e.start < x ∧ x < e.stop) :
    Holds base { h with mem := m } ring live := by
  have hsame : ∀ r ∈ ring ++ live, m r.start = h.mem r.start := by
    intro r hr
    by_contra hne
    obtain ⟨e, he, hlt, hstop⟩ := hm _ hne
    have hin : ∀ r : Extent, Proper base r → r.Apart e → ¬(e.start < r.start ∧ r.start < e.stop) := by
      rintro r hr hre
      have hr1 := hr.1
      unfold Apart stop at *
      omega
    rcases List.mem_append.1 hr with hr | hr
    · rcases hh.ok.proper r hr with rfl | hp
      · have := (hh.ok.liveProper e he).2
        simp only [anchor, hdrSize] at hlt this
        omega
      · exact hin r hp (hh.ok.apart r hr e he) ⟨hlt, hstop⟩
    · by_cases hre : r = e
      · rw [hre] at hlt
        exact lt_irrefl _ hlt
      · exact hin r (hh.ok.liveProper r hr)
          (hh.ok.liveApart.forall hr he hre) ⟨hlt, hstop⟩
  refine ⟨hh.ok, ⟨hh.rep.walk.congr fun x hx => ?_, fun r hr => ?_⟩, hh.freep, hh.bound⟩
  · obtain ⟨r, hr, rfl⟩ := List.mem_map.1 hx
    exact congrArg Header.ptr (hsame r (List.mem_append_left _ hr))
  · show hdrSize * (m r.start).size = r.len
    rw [hsame r hr]
    exact hh.rep.size r hr

/-- **A call or a write keeps the invariant.** -/
theorem Inv.step (h : Inv base s) (hstep : Step base s s') : Inv base s' := by
  cases hstep with
  | @malloc sbrk nbytes h' ap hs hr =>
    obtain ⟨ring, hh⟩ := h.init
    rcases malloc_spec hh hs nbytes with ⟨e, ring', h'', hlen, hset, hh'⟩ | ⟨-, -, hset⟩
    · obtain ⟨rfl, rfl⟩ := Prod.mk.inj (hr.unique hset)
      have hne : ¬e.start + hdrSize = 0 := by simp [hdrSize]
      refine Or.inr ⟨ring', ?_⟩
      rw [if_neg hne, Nat.add_sub_cancel, ← hlen]
      exact hh'
    · obtain ⟨rfl, rfl⟩ := Prod.mk.inj (hr.unique hset)
      exact Or.inr ⟨ring, hh⟩
  | free he hr =>
    obtain ⟨ring, hh⟩ := h.holds he
    obtain ⟨A, p, B, h'', -, hset, hh', -⟩ := free_spec (hh.perm (List.perm_cons_erase he))
    obtain rfl := hr.unique hset
    exact Or.inr ⟨_, hh'⟩
  | write hm =>
    rcases h with ⟨hfreep, hregions, hlive⟩ | ⟨ring, hh⟩
    · exact Or.inl ⟨hfreep, hregions, hlive⟩
    · exact Or.inr ⟨ring, hh.write hm⟩

/-- **The invariant holds in every reachable state.** -/
theorem Reachable.inv (h : Reachable base s) : Inv base s := by
  obtain ⟨m, hrun⟩ := h
  induction hrun with
  | refl => exact Or.inl ⟨rfl, rfl, rfl⟩
  | tail _ hstep ih => exact ih.step hstep

/-! ### A first call -/

/-- An `sbrk` that has one region to give, from address 4096 on. -/
def oneRegion : Sbrk := fun rs n => if rs = [] ∧ n ≤ 65536 then some 4096 else none

theorem fresh_oneRegion : Fresh 16 oneRegion := by
  intro rs n a h
  obtain ⟨⟨rfl, hn⟩, ha⟩ := Option.ite_none_right_eq_some.1 h
  obtain rfl := Option.some.inj ha
  refine ⟨by decide, fun r hr => absurd hr List.not_mem_nil, ?_⟩
  show 0 + n < hdrSize * uintRange
  unfold hdrSize uintRange
  omega

/-- Before the first call. -/
def atRest : State := ⟨⟨fun _ => ⟨0, 0⟩, none, []⟩, []⟩

/-- What the first call leaves, if it is `malloc(100)`. -/
def hundred : Heap × ℕ := (malloc 16 oneRegion 8 atRest.heap 100).toOption.getD (atRest.heap, 0)

theorem malloc_hundred : Settles (fun n => malloc 16 oneRegion n atRest.heap 100) hundred := by
  refine ⟨8, fun n hn => ?_⟩
  obtain ⟨k, rfl⟩ := Nat.exists_eq_add_of_le' hn
  rfl

theorem reachable_hundred : Reachable 16 ⟨hundred.1, [⟨69504, 128⟩]⟩ :=
  ⟨_, .tail .refl (Step.malloc fresh_oneRegion malloc_hundred)⟩

/-! ### The free list -/

/-- **The free list and the blocks of the caller.**  Following the links from
`freep` goes once through the static header and the free blocks, and back; from
the static header on they are in the order of their addresses, so that exactly
one link does not go up.  The free blocks and those of the caller lie above the
static header, with their sizes in their headers, no two of them overlap,
together they are the regions, and no free block begins where another one ends. -/
structure FreeList (base : ℕ) (s : State) (free : List Extent) : Prop where
  cycle : ∃ fp l, s.heap.freep = some fp ∧ Walk s.heap.mem.next fp l fp ∧
    l.Perm (base :: free.map start)
  sorted : Walk s.heap.mem.next base (base :: free.map start) base ∧
    (base :: free.map start).Pairwise (· < ·)
  wrap : ∃! x, x ∈ base :: free.map start ∧ s.heap.mem.next x ≤ x
  sizes : ∀ e ∈ free ++ s.live, 0 < e.len ∧ base + hdrSize ≤ e.start ∧
    hdrSize * (s.heap.mem e.start).size = e.len
  apart : (free ++ s.live).Pairwise Apart
  tile : ∀ x, Covers s.heap.regions x ↔ Covers (free ++ s.live) x
  coalesced : ∀ a ∈ free, ∀ b ∈ free, a.stop ≠ b.start

/-- The links of a pool go up, but for one. -/
theorem Holds.wrap {h : Heap} (hh : Holds base h ring live) :
    ∃! x, x ∈ ring.map start ∧ h.mem.next x ≤ x := by
  have hsorted : (ring.map start).Pairwise (· < ·) := List.pairwise_map.2 hh.ok.spaced.start_lt
  have hw := hh.rep.walk
  obtain ⟨rest, hring⟩ := hh.ok.head
  have hbase : ∀ x ∈ ring.map start, base ≤ x := by
    rw [show ring = anchor base :: rest from hring] at hsorted ⊢
    intro x hx
    rcases List.mem_cons.1 hx with rfl | hx
    · exact Nat.le_refl _
    · exact ((List.pairwise_cons.1 hsorted).1 x hx).le
  have hne : ring.map start ≠ [] := by
    rw [show ring = anchor base :: rest from hring]
    exact List.cons_ne_nil _ _
  have hlast : h.mem.next ((ring.map start).getLast hne) = base := by
    rw [← List.dropLast_append_getLast hne] at hw
    exact hw.split.2
  refine ⟨(ring.map start).getLast hne, ⟨List.getLast_mem hne, ?_⟩, ?_⟩
  · rw [hlast]
    exact hbase _ (List.getLast_mem hne)
  · rintro y ⟨hy, hle⟩
    rcases hw.rel_next hsorted y hy with ⟨-, hlt⟩ | hwrap
    · exact absurd hlt (not_lt.2 hle)
    · exact hw.next_inj hh.ok.spaced.nodup_starts hy (List.getLast_mem hne)
        (hwrap.trans hlast.symm)

theorem Holds.freeList {h : Heap} (hh : Holds base h ring live) :
    ∃ free, ring = anchor base :: free ∧ FreeList base ⟨h, live⟩ free := by
  have hwrap := hh.wrap
  obtain ⟨free, hring⟩ := hh.ok.head
  obtain rfl : ring = anchor base :: free := hring
  obtain ⟨fp, hfp, -⟩ := id hh.freep
  obtain ⟨L, hw, hperm, -⟩ := hh.turn hfp
  obtain ⟨hbelow, hspaced⟩ := List.pairwise_cons.1 hh.ok.spaced
  have hproper : ∀ e ∈ free, Proper base e := fun e he => by
    obtain ⟨A, B, rfl⟩ := List.append_of_mem he
    exact Pool.Ok.proper_of_append (A := anchor base :: A) hh.ok (List.cons_ne_nil _ _)
  have hall : ∀ e ∈ free ++ live, Proper base e := fun e he =>
    (List.mem_append.1 he).elim (hproper e) (hh.ok.liveProper e)
  refine ⟨free, rfl, ⟨⟨fp, fp :: L, hfp, ⟨rfl, hw.split.1⟩, ?_⟩, ⟨hh.rep.walk, ?_⟩, hwrap, ?_, ?_,
    ?_, ?_⟩⟩
  · exact (List.perm_append_singleton fp L).symm.trans hperm
  · exact List.pairwise_map.2 hh.ok.spaced.start_lt
  · intro e he
    exact ⟨(hall e he).1, (hall e he).2, hh.rep.size e (List.mem_cons_of_mem _ he)⟩
  · refine List.pairwise_append.2 ⟨?_, hh.ok.liveApart, fun a ha e he =>
      hh.ok.apart a (List.mem_cons_of_mem _ ha) e he⟩
    exact hspaced.imp fun hab => Or.inl hab.le
  · intro x
    refine (hh.ok.tile x).trans ?_
    show Covers (anchor base :: (free ++ live)) x ↔ _
    rw [covers_cons]
    refine or_iff_right fun hx => ?_
    simp only [anchor, stop] at hx
    omega
  · intro a ha b hb hab
    by_cases heq : a = b
    · have := (hproper a ha).1
      rw [← heq, stop] at hab
      omega
    · have hne : ∀ a ∈ free, ∀ b ∈ free, a ≠ b → a.stop ≠ b.start ∧ b.stop ≠ a.start := by
        have hsym : free.Pairwise fun a b => a.stop ≠ b.start ∧ b.stop ≠ a.start := by
          refine hspaced.imp_of_mem fun {a b} ha hb hab => ⟨hab.ne, ?_⟩
          unfold stop at hab ⊢
          omega
        have : Std.Symm fun a b : Extent => a.stop ≠ b.start ∧ b.stop ≠ a.start :=
          ⟨fun _ _ h => ⟨h.2, h.1⟩⟩
        exact fun a ha b hb => hsym.forall ha hb
      exact (hne a ha b hb heq).1 hab

/-- **In every reachable state** either `malloc` was never called, or the free list
is one sorted ring through the static header, the free blocks and the blocks of
the caller tile the regions, and no two free blocks touch. -/
theorem reachable_freeList (h : Reachable base s) :
    (s.heap.freep = none ∧ s.heap.regions = [] ∧ s.live = []) ∨ ∃ free, FreeList base s free := by
  rcases h.inv with hnone | ⟨ring, hh⟩
  · exact Or.inl hnone
  · obtain ⟨free, -, hfree⟩ := hh.freeList
    exact Or.inr ⟨free, hfree⟩

theorem reachable_freeList_hundred :
    (hundred.1.freep = none ∧ hundred.1.regions = [] ∧ [(⟨69504, 128⟩ : Extent)] = []) ∨
      ∃ free, FreeList 16 ⟨hundred.1, [⟨69504, 128⟩]⟩ free :=
  reachable_freeList reachable_hundred

/-! ### What `malloc` returns -/

/-- A free block: the links from `freep` lead to its header. -/
def FreeBlock (h : Heap) (r : Extent) : Prop :=
  0 < r.len ∧ hdrSize * (h.mem r.start).size = r.len ∧
    ∃ fp k, h.freep = some fp ∧ h.mem.next^[k] fp = r.start

/-- The header of a block. -/
def header (e : Extent) : Extent := ⟨e.start, hdrSize⟩

theorem Holds.freeBlock_iff {h : Heap} (hh : Holds base h ring live) {r : Extent} :
    FreeBlock h r ↔ r ∈ ring ∧ 0 < r.len := by
  obtain ⟨fp, hfp, hmem⟩ := hh.freep
  have hreach : r.start ∈ ring.map start ↔ ∃ k, h.mem.next^[k] fp = r.start :=
    hh.rep.walk.mem_iff_iterate hmem
  constructor
  · rintro ⟨hpos, hlen, fp', k, hfp', hk⟩
    obtain rfl := Option.some.inj (hfp'.symm.trans hfp)
    obtain ⟨b, hb, hstart⟩ := List.mem_map.1 (hreach.2 ⟨k, hk⟩)
    have hbr : b = r := by
      refine Extent.ext hstart ?_
      rw [← hlen, ← hstart]
      exact (hh.rep.size b (List.mem_append_left _ hb)).symm
    exact ⟨hbr ▸ hb, hpos⟩
  · rintro ⟨hr, hpos⟩
    obtain ⟨k, hk⟩ := hreach.1 (List.mem_map_of_mem hr)
    exact ⟨hpos, hh.rep.size r (List.mem_append_left _ hr), fp, k, hfp, hk⟩

/-- A header lies inside its block. -/
theorem Holds.header_apart {h : Heap} {e f : Extent} (hh : Holds base h ring live)
    (hf : f ∈ ring ++ live) (hpos : 0 < f.len) (hef : e.Apart f) : e.Apart (header f) := by
  have hsize := hh.rep.size f hf
  refine (hef.symm.part (c := header f) (Nat.le_refl _) ?_).symm
  simp only [header, stop]
  unfold hdrSize at *
  omega

/-- The payload lies inside its block. -/
theorem payload_apart {e f : Extent} (hlen : hdrSize ≤ e.len) (hef : e.Apart f) :
    (payload e).Apart f := by
  refine hef.part (Nat.le_add_right _ _) ?_
  simp only [payload, stop]
  omega

/-- The first line of `malloc` makes no free block. -/
theorem Inv.freeBlock_init (h : Inv base s) (r : Extent) :
    FreeBlock (Malloc.init base s.heap) r ↔ FreeBlock s.heap r := by
  rcases h with ⟨hfreep, hregions, -⟩ | ⟨ring, hh⟩
  · rw [(holds_anchor hfreep hregions).freeBlock_iff]
    constructor
    · rintro ⟨hr, hpos⟩
      rw [List.mem_singleton.1 hr] at hpos
      exact absurd hpos (lt_irrefl 0)
    · rintro ⟨-, -, fp, k, hfp, -⟩
      rw [hfreep] at hfp
      cases hfp
  · obtain ⟨fp, hfp, -⟩ := hh.freep
    rw [Malloc.init, hfp]

/-- **What `malloc` does in every reachable state.**  It comes to an end.  A nonzero
result is the payload of a block of the regions that is large enough for the
request and overlaps no payload of the caller and no header.  The result is `0`
only if no free block is large enough and `sbrk` failed, and then the free blocks
stay what they are. -/
theorem malloc_correct (hs : Reachable base s) {sbrk : Sbrk} (hsbrk : Fresh base sbrk)
    (nbytes : UInt32) :
    ∃ h' ap, Settles (fun n => malloc base sbrk n s.heap nbytes) (h', ap) ∧
      (ap ≠ 0 → ∃ e, ap = (payload e).start ∧ nbytes.toNat ≤ (payload e).len ∧
        (∀ x, e.start ≤ x → x < e.stop → Covers h'.regions x) ∧
        (∀ f ∈ s.live, (payload e).Apart (payload f)) ∧
        ∀ f, f = anchor base ∨ f ∈ e :: s.live ∨ FreeBlock h' f → (payload e).Apart (header f)) ∧
      (ap = 0 →
        (∀ r, FreeBlock s.heap r → r.len < hdrSize * unitsFor nbytes) ∧
        sbrk s.heap.regions (moreUnits (unitsFor nbytes) * hdrSize) = none ∧
        ∀ r, FreeBlock h' r ↔ FreeBlock s.heap r) := by
  obtain ⟨ring, hh⟩ := hs.inv.init
  rcases malloc_spec hh hsbrk nbytes with ⟨e, ring', h', hlen, hset, hh'⟩ | ⟨hno, hnone, hset⟩
  · refine ⟨h', e.start + hdrSize, hset, fun _ => ⟨e, rfl, ?_, ?_, ?_, ?_⟩, fun h0 => ?_⟩
    · have := le_unitsFor nbytes
      simp only [payload]
      omega
    · exact fun x hx hx' => (hh'.ok.tile x).2
        ⟨e, List.mem_append_right _ List.mem_cons_self, hx, hx'⟩
    · have hge := le_unitsFor nbytes
      obtain ⟨hapart, hlive⟩ := List.pairwise_cons.1 hh'.ok.liveApart
      intro f hf
      have hfge : hdrSize ≤ f.len := by
        have hpos := (hh'.ok.liveProper f (List.mem_cons_of_mem _ hf)).1
        have hsize := hh'.rep.size f (List.mem_append_right _ (List.mem_cons_of_mem _ hf))
        unfold hdrSize at *
        omega
      exact payload_apart (by omega) (payload_apart hfge (hapart f hf).symm).symm
    · have hge : hdrSize ≤ e.len := by
        have := le_unitsFor nbytes
        omega
      have hproper := hh'.ok.liveProper e List.mem_cons_self
      rintro f (rfl | hf | hf)
      · right
        have := hproper.2
        simp only [payload, header, anchor, stop]
        omega
      · rcases List.mem_cons.1 hf with rfl | hf
        · exact Or.inr (Nat.le_refl _)
        · exact hh'.header_apart (List.mem_append_right _ (List.mem_cons_of_mem _ hf))
            (hh'.ok.liveProper f (List.mem_cons_of_mem _ hf)).1
            (payload_apart hge ((List.pairwise_cons.1 hh'.ok.liveApart).1 f hf))
      · obtain ⟨hfr, hpos⟩ := hh'.freeBlock_iff.1 hf
        exact hh'.header_apart (List.mem_append_left _ hfr) hpos
          (payload_apart hge (hh'.ok.apart f hfr e List.mem_cons_self).symm)
    · simp [hdrSize] at h0
  · refine ⟨init base s.heap, 0, hset, fun h0 => absurd rfl h0, fun _ => ⟨?_, ?_, ?_⟩⟩
    · intro r hr
      exact hno r (hh.freeBlock_iff.1 ((hs.inv.freeBlock_init r).2 hr)).1
    · have hregions : (init base s.heap).regions = s.heap.regions := by
        rw [init]
        split <;> rfl
      rw [← hregions]
      exact hnone
    · exact hs.inv.freeBlock_init

theorem malloc_correct_hundred :
    ∃ h' ap, Settles (fun n => malloc 16 oneRegion n hundred.1 50) (h', ap) ∧
      (ap ≠ 0 → ∃ e, ap = (payload e).start ∧ 50 ≤ (payload e).len ∧
        (∀ x, e.start ≤ x → x < e.stop → Covers h'.regions x) ∧
        (∀ f ∈ [⟨69504, 128⟩], (payload e).Apart (payload f)) ∧
        ∀ f, f = anchor 16 ∨ f ∈ [e, ⟨69504, 128⟩] ∨ FreeBlock h' f →
          (payload e).Apart (header f)) ∧
      (ap = 0 →
        (∀ r, FreeBlock hundred.1 r → r.len < hdrSize * unitsFor 50) ∧
        oneRegion hundred.1.regions (moreUnits (unitsFor 50) * hdrSize) = none ∧
        ∀ r, FreeBlock h' r ↔ FreeBlock hundred.1 r) :=
  malloc_correct reachable_hundred fresh_oneRegion 50

/-- `free` of a block of the caller comes to an end in every reachable state. -/
theorem free_settles (hs : Reachable base s) {e : Extent} (he : e ∈ s.live) :
    ∃ h', Settles (fun n => free n s.heap (e.start + hdrSize)) h' := by
  obtain ⟨ring, hh⟩ := hs.inv.holds he
  obtain ⟨A, p, B, h', -, hset, -⟩ := free_spec (hh.perm (List.perm_cons_erase he))
  exact ⟨h', hset⟩

end Malloc
end V6User
