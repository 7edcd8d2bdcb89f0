import V6User.Malloc.Heap

/-!
# The allocator keeps its pool

`Rep` says that the headers in memory are those of a pool: following the links
from the static header visits the ring, and every block's header holds its
size.  `Holds` adds what the allocator keeps beside it.  `free` then releases a
block of the pool (`free_spec`), `morecore` grows it (`morecore_spec`), and `take`
carves a block from it (`take_spec`).
-/

namespace V6User
namespace Malloc

open Extent Fuel

/-- The link of a header. -/
def Mem.next (m : Mem) (p : ℕ) : ℕ := (m p).ptr

/-- The memory holds the headers of these blocks. -/
structure Rep (base : ℕ) (m : Mem) (ring live : List Extent) : Prop where
  walk : Walk m.next base (ring.map start) base
  size : ∀ e ∈ ring ++ live, hdrSize * (m e.start).size = e.len

section mem

variable (m : Mem) (p x q : ℕ)

@[simp] theorem setPtr_self : m.setPtr p x p = { m p with ptr := x } :=
  Function.update_self ..

@[simp] theorem setSize_self : m.setSize p x p = { m p with size := x } :=
  Function.update_self ..

variable {p q}

theorem setPtr_of_ne (h : q ≠ p) : m.setPtr p x q = m q := Function.update_of_ne h ..

theorem setSize_of_ne (h : q ≠ p) : m.setSize p x q = m q := Function.update_of_ne h ..

variable (p q)

@[simp] theorem setPtr_size : (m.setPtr p x q).size = (m q).size := by
  by_cases h : q = p
  · subst h
    rw [setPtr_self]
  · rw [setPtr_of_ne _ _ h]

@[simp] theorem setSize_ptr : (m.setSize p x q).ptr = (m q).ptr := by
  by_cases h : q = p
  · subst h
    rw [setSize_self]
  · rw [setSize_of_ne _ _ h]

end mem

variable {base : ℕ} {m : Mem} {A B ring live regions : List Extent} {p e : Extent}

/-- The size in a header gives the end of the block. -/
theorem Rep.plus_size (h : Rep base m ring live) {r : Extent} (hr : r ∈ ring ++ live) :
    plus r.start (m r.start).size = r.stop := by
  rw [plus, h.size r hr, stop]

/-- Another order of the blocks handed out. -/
theorem Rep.perm {live' : List Extent} (h : Rep base m ring live) (hp : live.Perm live') :
    Rep base m ring live' :=
  ⟨h.walk, fun r hr => h.size r ((hp.append_left ring).mem_iff.2 hr)⟩

/-- A block handed out has its header at an address of its own. -/
theorem Pool.Ok.start_ne (h : Pool.Ok base ⟨ring, e :: live, regions⟩) {r : Extent}
    (hr : r ∈ ring ∨ r ∈ live) : r.start ≠ e.start := by
  have he := h.liveProper e List.mem_cons_self
  have hapart : ∀ r : Extent, Proper base r → r.Apart e → r.start ≠ e.start := by
    intro r hr hre heq
    have hr1 := hr.1
    have he1 := he.1
    unfold Apart stop at hre
    omega
  rcases hr with hr | hr
  · rcases h.proper r hr with rfl | hp
    · have := he.2
      simp only [anchor, hdrSize] at this ⊢
      omega
    · exact hapart r hp (h.apart r hr e List.mem_cons_self)
  · exact hapart r (h.liveProper r (List.mem_cons_of_mem _ hr))
      ((List.pairwise_cons.1 h.liveApart).1 r hr).symm

/-- The headers of the blocks handed out are not those of the ring. -/
theorem Pool.Ok.live_start_ne (h : Pool.Ok base ⟨ring, live, regions⟩) {r f : Extent}
    (hr : r ∈ ring) (hf : f ∈ live) : r.start ≠ f.start :=
  (h.perm (List.perm_cons_erase hf)).start_ne (Or.inl hr)

/-- Two blocks of the pool fit into a `uint` together. -/
theorem Pool.Ok.size_add_lt (h : Pool.Ok base ⟨ring, e :: live, regions⟩)
    (hbound : Extent.total regions < hdrSize * uintRange) {r : Extent} (hr : r ∈ ring)
    {a b : ℕ} (ha : hdrSize * a = r.len) (hb : hdrSize * b = e.len) : a + b < uintRange := by
  have h₁ := len_le_total hr
  have h₂ := h.total
  simp only [total_cons] at h₂
  unfold hdrSize at *
  have := Nat.le_of_lt_succ (Nat.lt_succ_of_le h₁)
  omega

/-! ### Linking a block in -/

/-- The entry after `p` in the ring: the next extent, or the static header. -/
theorem Rep.next_cons {q : Extent} (h : Rep base m (A ++ p :: q :: B) live) :
    (m p.start).ptr = q.start ∧ Walk m.next (m q.start).ptr (B.map start) base := by
  have hw := h.walk
  rw [List.map_append, List.map_cons, List.map_cons] at hw
  obtain ⟨-, hpq, hq⟩ := hw.split
  exact ⟨hpq, hq⟩

theorem Rep.next_nil (h : Rep base m (A ++ [p]) live) : (m p.start).ptr = base := by
  have hw := h.walk
  rw [List.map_append, List.map_cons] at hw
  exact hw.split.2

/-- **The upper half of `free`**: the block is merged with the entry above it, or
linked to it. -/
theorem Rep.joinUpper (hok : Pool.Ok base ⟨A ++ p :: B, e :: live, regions⟩)
    (hrep : Rep base m (A ++ p :: B) (e :: live)) (hbound : total regions < hdrSize * uintRange) :
    (∀ x, x ≠ e.start → Malloc.joinUpper m e.start p.start x = m x) ∧
      Walk (Malloc.joinUpper m e.start p.start).next
        (Malloc.joinUpper m e.start p.start e.start).ptr ((joinRight e B).2.map start) base ∧
      hdrSize * (Malloc.joinUpper m e.start p.start e.start).size = (joinRight e B).1.len := by
  have he : e ∈ (A ++ p :: B) ++ e :: live := List.mem_append_right _ List.mem_cons_self
  have hstop := hrep.plus_size he
  have hne : ∀ r ∈ A ++ p :: B, r.start ≠ e.start := fun r hr => hok.start_ne (Or.inl hr)
  have hp : p.start ≠ e.start := hne p (List.mem_append_right _ List.mem_cons_self)
  have hframe : ∀ x, x ≠ e.start → Malloc.joinUpper m e.start p.start x = m x := by
    intro x hx
    rw [Malloc.joinUpper]
    split_ifs
    · rw [setPtr_of_ne _ _ hx, setSize_of_ne _ _ hx]
    · rw [setPtr_of_ne _ _ hx]
  refine ⟨hframe, ?_⟩
  cases B with
  | nil =>
    -- nothing above: the link goes back to the static header
    have hnext := hrep.next_nil
    have hlt := (hok.liveProper e List.mem_cons_self).2
    have hcond : ¬plus e.start (m e.start).size = (m p.start).ptr := by
      rw [hstop, hnext]
      unfold stop hdrSize at *
      omega
    rw [Malloc.joinUpper, if_neg hcond, setPtr_self]
    exact ⟨hnext, hrep.size e he⟩
  | cons q B =>
    obtain ⟨hnext, hwalk⟩ := hrep.next_cons
    have hq : q ∈ A ++ p :: q :: B :=
      List.mem_append_right _ (List.mem_cons_of_mem _ List.mem_cons_self)
    have hB : ∀ b ∈ B, b.start ≠ e.start := fun b hb =>
      hne b (List.mem_append_right _ (List.mem_cons_of_mem _ (List.mem_cons_of_mem _ hb)))
    have hwalk' : Walk (Malloc.joinUpper m e.start p.start).next (m q.start).ptr (B.map start) base :=
      hwalk.congr fun x hx => by
        obtain ⟨b, hb, rfl⟩ := List.mem_map.1 hx
        exact congrArg Header.ptr (hframe _ (hB b hb))
    have hqsize := hrep.size q (List.mem_append_left _ hq)
    have hesize := hrep.size e he
    have hadd := hok.size_add_lt hbound hq hqsize hesize
    rw [joinRight]
    by_cases hj : e.stop = q.start
    · have hcond : plus e.start (m e.start).size = (m p.start).ptr := by
        rw [hstop, hnext, hj]
      have hself : Malloc.joinUpper m e.start p.start e.start =
          ⟨(m q.start).ptr, (m e.start).size + (m q.start).size⟩ := by
        rw [Malloc.joinUpper, if_pos hcond, setPtr_self, setSize_self, setSize_of_ne _ _ hp, hnext,
          setSize_of_ne _ _ (hne q hq), Nat.mod_eq_of_lt (by omega)]
      rw [if_pos hj, hself]
      refine ⟨hwalk', ?_⟩
      dsimp only
      rw [Nat.mul_add, hesize, hqsize]
    · have hcond : ¬plus e.start (m e.start).size = (m p.start).ptr := by
        rw [hstop, hnext]
        exact hj
      have hself : Malloc.joinUpper m e.start p.start e.start =
          ⟨q.start, (m e.start).size⟩ := by
        rw [Malloc.joinUpper, if_neg hcond, setPtr_self, hnext]
      rw [if_neg hj, hself]
      refine ⟨⟨rfl, ?_⟩, hesize⟩
      rw [Mem.next, hframe _ (hne q hq)]
      exact hwalk'

/-- **`free` releases a block**: the memory holds the pool with the block put back
between `p` and the entry above it. -/
theorem Rep.release (hok : Pool.Ok base ⟨A ++ p :: B, e :: live, regions⟩)
    (hrep : Rep base m (A ++ p :: B) (e :: live)) (hbound : total regions < hdrSize * uintRange) :
    Rep base (joinLower (Malloc.joinUpper m e.start p.start) e.start p.start)
      (insertBetween A p e B) live := by
  obtain ⟨hframe, hwalk, hsize⟩ := Rep.joinUpper hok hrep hbound
  have hstart := joinRight_start e B
  have htotal := total_insertBetween A p e B
  have hsuf : ∀ b ∈ (joinRight e B).2, b ∈ B := fun b hb =>
    (joinRight_suffix e B).mem hb
  have hdef : insertBetween A p e B = A ++ (joinLeft p (joinRight e B).1 ++ (joinRight e B).2) := rfl
  generalize joinRight e B = r at *
  obtain ⟨c, B'⟩ := r
  dsimp only at hstart hsuf hsize hwalk hdef
  generalize Malloc.joinUpper m e.start p.start = m₁ at *
  -- the headers of the ring and of the other blocks are at other addresses
  have hring : ∀ r ∈ A ++ p :: B, r.start ≠ e.start := fun r hr => hok.start_ne (Or.inl hr)
  have hpm : p ∈ A ++ p :: B := List.mem_append_right _ List.mem_cons_self
  have hnd := hok.spaced.nodup_starts
  rw [List.map_append, List.map_cons, List.nodup_append] at hnd
  obtain ⟨-, hndB, hndA⟩ := hnd
  have hAp : ∀ a ∈ A, a.start ≠ p.start := fun a ha =>
    hndA _ (List.mem_map_of_mem ha) _ List.mem_cons_self
  have hBp : ∀ b ∈ B, b.start ≠ p.start := fun b hb hbp =>
    (List.nodup_cons.1 hndB).1 (hbp ▸ List.mem_map_of_mem hb)
  have hlp : ∀ f ∈ live, f.start ≠ p.start := fun f hf =>
    (hok.live_start_ne hpm (List.mem_cons_of_mem _ hf)).symm
  have hm₁p : m₁ p.start = m p.start := hframe _ (hring p hpm)
  have hpsize := hrep.size p (List.mem_append_left _ hpm)
  have hpstop : plus p.start (m₁ p.start).size = p.stop := by
    rw [hm₁p]
    exact hrep.plus_size (List.mem_append_left _ hpm)
  have hframe₂ : ∀ x, x ≠ p.start → joinLower m₁ e.start p.start x = m₁ x := by
    intro x hx
    rw [joinLower]
    split_ifs
    · rw [setPtr_of_ne _ _ hx, setSize_of_ne _ _ hx]
    · rw [setPtr_of_ne _ _ hx]
  -- the walk before `p` and the walk behind the block are still there
  have hA : Walk (joinLower m₁ e.start p.start).next base (A.map start) p.start := by
    have hw := hrep.walk
    rw [List.map_append, List.map_cons] at hw
    refine hw.split.1.congr fun x hx => ?_
    obtain ⟨a, ha, rfl⟩ := List.mem_map.1 hx
    rw [Mem.next, hframe₂ _ (hAp a ha), hframe _ (hring a (List.mem_append_left _ ha))]
    rfl
  have hB : Walk (joinLower m₁ e.start p.start).next (m₁ e.start).ptr (B'.map start) base := by
    refine hwalk.congr fun x hx => ?_
    obtain ⟨b, hb, rfl⟩ := List.mem_map.1 hx
    rw [Mem.next, hframe₂ _ (hBp b (hsuf b hb))]
    rfl
  have hother : ∀ r ∈ (A ++ B') ++ live, hdrSize * (joinLower m₁ e.start p.start r.start).size =
      r.len := by
    intro r hr
    have hne : r.start ≠ p.start ∧ r.start ≠ e.start ∧ r ∈ (A ++ p :: B) ++ e :: live := by
      rcases List.mem_append.1 hr with hr | hr
      · rcases List.mem_append.1 hr with hr | hr
        · have hmem : r ∈ A ++ p :: B := List.mem_append_left _ hr
          exact ⟨hAp r hr, hring r hmem, List.mem_append_left _ hmem⟩
        · have hmem : r ∈ A ++ p :: B :=
            List.mem_append_right _ (List.mem_cons_of_mem _ (hsuf r hr))
          exact ⟨hBp r (hsuf r hr), hring r hmem, List.mem_append_left _ hmem⟩
      · exact ⟨hlp r hr, hok.start_ne (Or.inr hr),
          List.mem_append_right _ (List.mem_cons_of_mem _ hr)⟩
    rw [hframe₂ _ hne.1, hframe _ hne.2.1]
    exact hrep.size r hne.2.2
  by_cases hj : p.stop = e.start
  · have hring' : insertBetween A p e B = A ++ ⟨p.start, p.len + c.len⟩ :: B' := by
      rw [hdef, joinLeft, hstart, if_pos hj]
      rfl
    have hself : joinLower m₁ e.start p.start p.start =
        ⟨(m₁ e.start).ptr, (m₁ p.start).size + (m₁ e.start).size⟩ := by
      have hadd : (m₁ p.start).size + (m₁ e.start).size < uintRange := by
        have hle := len_le_total (e := ⟨p.start, p.len + c.len⟩) (l := insertBetween A p e B)
          (by rw [hring']; exact List.mem_append_right _ List.mem_cons_self)
        have ht := hok.total
        simp only [total_cons] at ht
        rw [hm₁p]
        unfold hdrSize at *
        dsimp only at hle
        omega
      rw [joinLower, if_pos (hpstop.trans hj), setPtr_self, setSize_self,
        setSize_of_ne _ _ (hring p hpm).symm, Nat.mod_eq_of_lt hadd]
    rw [hring']
    constructor
    · rw [List.map_append, List.map_cons]
      refine hA.append ⟨rfl, ?_⟩
      rw [Mem.next, hself]
      exact hB
    · intro r hr
      rcases List.mem_append.1 hr with hr | hr
      · rcases List.mem_append.1 hr with hr | hr
        · exact hother r (List.mem_append_left _ (List.mem_append_left _ hr))
        · rcases List.mem_cons.1 hr with rfl | hr
          · rw [hself]
            dsimp only
            rw [Nat.mul_add, hsize, hm₁p, hpsize]
          · exact hother r (List.mem_append_left _ (List.mem_append_right _ hr))
      · exact hother r (List.mem_append_right _ hr)
  · have hring' : insertBetween A p e B = A ++ p :: c :: B' := by
      rw [hdef, joinLeft, hstart, if_neg hj]
      rfl
    have hself : joinLower m₁ e.start p.start p.start = ⟨e.start, (m₁ p.start).size⟩ := by
      rw [joinLower, if_neg fun h => hj (hpstop.symm.trans h), setPtr_self]
    have hc : joinLower m₁ e.start p.start c.start = m₁ e.start := by
      rw [hstart, hframe₂ _ (hring p hpm).symm]
    rw [hring']
    constructor
    · rw [List.map_append, List.map_cons, List.map_cons]
      refine hA.append ⟨rfl, ?_, ?_⟩
      · rw [Mem.next, hself, hstart]
      · rw [Mem.next, hc]
        exact hB
    · intro r hr
      rcases List.mem_append.1 hr with hr | hr
      · rcases List.mem_append.1 hr with hr | hr
        · exact hother r (List.mem_append_left _ (List.mem_append_left _ hr))
        · rcases List.mem_cons.1 hr with rfl | hr
          · rw [hself, hm₁p]
            exact hpsize
          · rcases List.mem_cons.1 hr with rfl | hr
            · rw [hc]
              exact hsize
            · exact hother r (List.mem_append_left _ (List.mem_append_right _ hr))
      · exact hother r (List.mem_append_right _ hr)

/-! ### The search of `free` -/

/-- **The search of `free`** ends at the entry behind which the block belongs,
wherever in the ring it starts. -/
theorem Rep.freeSearch_settles (hok : Pool.Ok base ⟨A ++ p :: B, e :: live, regions⟩)
    (hrep : Rep base m (A ++ p :: B) (e :: live)) (hp : p.stop ≤ e.start)
    (hB : ∀ b ∈ B, e.stop ≤ b.start) {fp : ℕ} (hfp : fp ∈ (A ++ p :: B).map start) :
    Settles (fun n => freeSearch m e.start n fp) p.start := by
  have hepos := (hok.liveProper e List.mem_cons_self).1
  have hbase := (hok.liveProper e List.mem_cons_self).2
  have hpe : p.start < e.start := by
    have hne := hok.start_ne (Or.inl (List.mem_append_right A List.mem_cons_self))
    unfold stop at hp
    omega
  have hBe : ∀ x ∈ B.map start, e.start < x := by
    intro x hx
    obtain ⟨b, hb, rfl⟩ := List.mem_map.1 hx
    have := hB b hb
    unfold stop at this
    omega
  have hsorted := hok.spaced.start_lt
  obtain ⟨hAs, hBs, hAp⟩ := List.pairwise_append.1 hsorted
  obtain ⟨hpB, hBs⟩ := List.pairwise_cons.1 hBs
  have hw := hrep.walk
  rw [List.map_append, List.map_cons] at hw
  obtain ⟨hwA, hwB⟩ := hw.split
  -- the search stops at `p`
  have hstop : Settles (fun n => freeSearch m e.start n p.start) p.start := by
    refine ⟨1, fun n hn => ?_⟩
    obtain ⟨n, rfl⟩ : ∃ k, n = k + 1 := ⟨n - 1, by omega⟩
    show freeSearch m e.start (n + 1) p.start = _
    rw [freeSearch]
    rcases B with _ | ⟨q, B⟩
    · have hnext : (m p.start).ptr = base := hrep.next_nil
      have hlow : base ≤ p.start := by
        rcases hok.proper p (List.mem_append_right A List.mem_cons_self) with rfl | hpp
        · exact Nat.le_refl _
        · exact (Nat.le_add_right _ _).trans hpp.2
      rw [hnext, if_neg (by omega), if_pos ⟨hlow, Or.inl hpe⟩]
    · rw [hrep.next_cons.1, if_pos ⟨hpe, hBe _ List.mem_cons_self⟩]
  -- it passes by the entries before and behind
  have hpassA : ∀ x ∈ A.map start, ∀ n,
      freeSearch m e.start (n + 1) x = freeSearch m e.start n (m.next x) := by
    intro x hx n
    have hxp : x < p.start := by
      obtain ⟨a, ha, rfl⟩ := List.mem_map.1 hx
      exact hAp a ha p List.mem_cons_self
    have hnext : x < m.next x ∧ m.next x ≤ p.start := by
      rcases hwA.rel_next (List.pairwise_map.2 hAs) x hx with ⟨hmem, hlt⟩ | heq
      · obtain ⟨a, ha, haeq⟩ := List.mem_map.1 hmem
        rw [← haeq] at hlt ⊢
        exact ⟨hlt, (hAp a ha p List.mem_cons_self).le⟩
      · rw [heq]
        exact ⟨hxp, Nat.le_refl _⟩
    unfold Mem.next at hnext
    rw [freeSearch, if_neg (by omega), if_neg (by omega)]
    rfl
  have hpassB : ∀ x ∈ B.map start, ∀ n,
      freeSearch m e.start (n + 1) x = freeSearch m e.start n (m.next x) := by
    intro x hx n
    have hxe := hBe x hx
    have hnext : x < m.next x ∨ m.next x = base := by
      rcases hwB.rel_next (List.pairwise_map.2 hBs) x hx with ⟨-, hlt⟩ | heq
      · exact Or.inl hlt
      · exact Or.inr heq
    unfold Mem.next at hnext
    unfold hdrSize at hbase
    rw [freeSearch, if_neg (by omega), if_neg (by omega)]
    rfl
  rw [List.map_append, List.map_cons] at hfp
  rcases List.mem_append.1 hfp with hfp | hfp
  · obtain ⟨l, l', hl⟩ := List.append_of_mem hfp
    rw [hl] at hwA hpassA
    refine (Walk.settles (l := fp :: l') ⟨rfl, hwA.split.2⟩ ?_ hstop)
    exact fun x hx => hpassA x (List.mem_append_right _ hx)
  · rcases List.mem_cons.1 hfp with rfl | hfp
    · exact hstop
    · obtain ⟨l, l', hl⟩ := List.append_of_mem hfp
      rw [hl] at hwB hpassB
      refine Walk.settles (l := fp :: l') ⟨rfl, hwB.split.2⟩ ?_ (Walk.settles hwA hpassA hstop)
      exact fun x hx => hpassB x (List.mem_append_right _ hx)

/-! ### The heap and its pool -/

/-- **The heap holds a pool**: its headers are those of the ring and of the blocks
handed out, `freep` points into the ring, and all regions together have fewer
units than a `uint` can count. -/
structure Holds (base : ℕ) (h : Heap) (ring live : List Extent) : Prop where
  ok : Pool.Ok base ⟨ring, live, h.regions⟩
  rep : Rep base h.mem ring live
  freep : ∃ fp, h.freep = some fp ∧ fp ∈ ring.map start
  bound : total h.regions < hdrSize * uintRange

/-- **`free` releases the block** whose payload it is given, and comes to an end. -/
theorem free_spec {h : Heap} (hh : Holds base h ring (e :: live)) :
    ∃ A p B h', ring = A ++ p :: B ∧ Settles (fun n => free n h (e.start + hdrSize)) h' ∧
      Holds base h' (insertBetween A p e B) live ∧ h'.freep = some p.start ∧
      h'.regions = h.regions := by
  obtain ⟨hok, hrep, ⟨fp, hfreep, hfp⟩, hbound⟩ := hh
  obtain ⟨rest, rfl⟩ := hok.head
  have hanchor : (anchor base).stop ≤ e.start :=
    (Nat.le_add_right _ _).trans (hok.liveProper e List.mem_cons_self).2
  obtain ⟨A, p, B, hring, hp, hB⟩ := hok.spaced.exists_place hanchor
    fun b hb => hok.apart b (List.mem_cons_of_mem _ hb) e List.mem_cons_self
  rw [hring] at hok hrep hfp
  refine ⟨A, p, B, ⟨joinLower (Malloc.joinUpper h.mem e.start p.start) e.start p.start,
    some p.start, h.regions⟩, hring, ?_, ?_, rfl, rfl⟩
  · have hfree : ∀ n, free n h (e.start + hdrSize) = (freeSearch h.mem e.start n fp >>= fun p =>
        .ok { h with mem := joinLower (Malloc.joinUpper h.mem e.start p) e.start p,
                     freep := some p }) := by
      intro n
      rw [free, hfreep, Nat.add_sub_cancel]
    simp only [hfree]
    exact (Rep.freeSearch_settles hok hrep hp hB hfp).bind (settles_of_forall fun _ => rfl)
  · exact ⟨hok.release hp hB, Rep.release hok hrep hbound,
      ⟨p.start, rfl, start_mem_insertBetween A p e B⟩, hbound⟩

/-- What `sbrk` promises: it fails, or returns a region above the static header
and above all earlier ones, and never more than a `uint` can count in units. -/
def Fresh (base : ℕ) (sbrk : Sbrk) : Prop :=
  ∀ rs n a, sbrk rs n = some a →
    base + hdrSize ≤ a ∧ (∀ r ∈ rs, r.stop ≤ a) ∧ total rs + n < hdrSize * uintRange

/-- A new region, with the header that `morecore` writes, is a block handed out. -/
theorem Holds.grow {h : Heap} (hh : Holds base h ring live) {a n : ℕ} (hn : 0 < n)
    (hlow : base + hdrSize ≤ a) (hfresh : ∀ r ∈ h.regions, r.stop ≤ a)
    (hbound : total h.regions + n * hdrSize < hdrSize * uintRange) :
    Holds base
      { h with mem := h.mem.setSize a n, regions := h.regions ++ [⟨a, n * hdrSize⟩] } ring
      (⟨a, n * hdrSize⟩ :: live) := by
  have hok := hh.ok.grow (r := ⟨a, n * hdrSize⟩) ⟨by simp only [hdrSize]; omega, hlow⟩ hfresh
  refine ⟨hok, ⟨?_, ?_⟩, hh.freep, ?_⟩
  · exact hh.rep.walk.congr fun x _ => setSize_ptr h.mem a n x
  · have hother : ∀ r, r ∈ ring ∨ r ∈ live →
        hdrSize * (h.mem.setSize a n r.start).size = r.len := fun r hr => by
      rw [setSize_of_ne _ _ (hok.start_ne hr)]
      exact hh.rep.size r (List.mem_append.2 hr)
    intro r hr
    rcases List.mem_append.1 hr with hr | hr
    · exact hother r (Or.inl hr)
    · rcases List.mem_cons.1 hr with rfl | hr
      · show hdrSize * (h.mem.setSize a n a).size = n * hdrSize
        rw [setSize_self, Nat.mul_comm]
      · exact hother r (Or.inr hr)
  · show total (h.regions ++ [⟨a, n * hdrSize⟩]) < _
    rw [total_append, total_cons, total_nil]
    exact hbound

/-- The number of units `morecore` asks for. -/
def moreUnits (nu : ℕ) : ℕ := if nu < 4096 then 4096 else nu

/-- **`morecore` grows the pool** by at least the units asked for, or leaves it as
it is. -/
theorem morecore_spec {h : Heap} (hh : Holds base h ring live) {sbrk : Sbrk}
    (hs : Fresh base sbrk) (nu : ℕ) :
    (sbrk h.regions (moreUnits nu * hdrSize) = none ∧
        ∀ n, morecore sbrk n h nu = .ok (h, none)) ∨
      ∃ ring' h' fp, Settles (fun n => morecore sbrk n h nu) (h', some fp) ∧
        Holds base h' ring' live ∧ h'.freep = some fp ∧ ∃ r ∈ ring', hdrSize * nu ≤ r.len := by
  rcases hsbrk : sbrk h.regions (moreUnits nu * hdrSize) with _ | a
  · refine Or.inl ⟨rfl, fun n => ?_⟩
    rw [moreUnits] at hsbrk
    simp only [morecore, hsbrk]
  · obtain ⟨hlow, hfresh, hbound⟩ := hs _ _ _ hsbrk
    have hpos : 0 < moreUnits nu ∧ nu ≤ moreUnits nu := by
      unfold moreUnits
      split_ifs <;> omega
    obtain ⟨A, p, B, h', -, hfree, hh', hfp, -⟩ :=
      free_spec (hh.grow hpos.1 hlow hfresh hbound)
    refine Or.inr ⟨insertBetween A p ⟨a, moreUnits nu * hdrSize⟩ B, h', p.start, ?_, hh', hfp, ?_⟩
    · rw [moreUnits] at hsbrk
      simp only [morecore, hsbrk]
      refine Settles.bind hfree (settles_of_forall fun _ => ?_)
      rw [hfp]
    · obtain ⟨r, hr, hlen⟩ := exists_len_le_insertBetween A p ⟨a, moreUnits nu * hdrSize⟩ B
      refine ⟨r, hr, le_trans ?_ hlen⟩
      rw [Nat.mul_comm]
      exact Nat.mul_le_mul_right _ hpos.2

/-- **`take` carves a block** from the end of a free block, behind its
predecessor. -/
theorem take_spec {h : Heap} {a b : Extent} {n : ℕ} (hh : Holds base h (A ++ a :: b :: B) live)
    (hn : 0 < n) (hle : hdrSize * n ≤ b.len) :
    Holds base (take h a.start b.start n).1 (carve (A ++ [a]) b B (hdrSize * n))
        (b.tailOf (hdrSize * n) :: live) ∧
      (take h a.start b.start n).2 = (b.tailOf (hdrSize * n)).start + hdrSize ∧
      (take h a.start b.start n).1.regions = h.regions := by
  obtain ⟨hok, hrep, hfreep, hbound⟩ := hh
  have hassoc : A ++ a :: b :: B = (A ++ [a]) ++ b :: B := by
    rw [List.append_assoc]
    rfl
  rw [hassoc] at hok
  have hok' := hok.carve (n := hdrSize * n) (by unfold hdrSize; omega) hle
  have hbm : b ∈ (A ++ a :: b :: B) ++ live :=
    List.mem_append_left _ (List.mem_append_right _ (List.mem_cons_of_mem _ List.mem_cons_self))
  have hbsize := hrep.size b hbm
  obtain ⟨hnext, hwalk⟩ := hrep.next_cons
  -- the headers of the other blocks are not at `b`
  have hnd := hok.spaced.nodup_starts
  rw [List.map_append, List.map_cons, List.nodup_append] at hnd
  obtain ⟨-, hndB, hndA⟩ := hnd
  have hother : ∀ r, r ∈ A ++ [a] ∨ r ∈ B ∨ r ∈ live →
      r.start ≠ b.start ∧ hdrSize * (h.mem r.start).size = r.len := by
    rintro r (hr | hr | hr)
    · refine ⟨hndA _ (List.mem_map_of_mem hr) _ List.mem_cons_self, hrep.size r ?_⟩
      rw [hassoc]
      exact List.mem_append_left _ (List.mem_append_left _ hr)
    · refine ⟨fun heq => (List.nodup_cons.1 hndB).1 (heq ▸ List.mem_map_of_mem hr), hrep.size r ?_⟩
      rw [hassoc]
      exact List.mem_append_left _ (List.mem_append_right _ (List.mem_cons_of_mem _ hr))
    · refine ⟨(hok.live_start_ne (List.mem_append_right _ List.mem_cons_self) hr).symm,
        hrep.size r (List.mem_append_right _ hr)⟩
  have hamem : ∀ l, a.start ∈ ((A ++ [a]) ++ l).map start := fun l =>
    List.mem_map_of_mem (List.mem_append_left _ (List.mem_append_right _ List.mem_cons_self))
  by_cases hbn : b.len = hdrSize * n
  · -- an exact fit leaves the ring
    have hsize : (h.mem b.start).size = n := by
      unfold hdrSize at hbn hbsize
      omega
    have hcarve : carve (A ++ [a]) b B (hdrSize * n) = (A ++ [a]) ++ B := if_pos hbn
    have htail : (b.tailOf (hdrSize * n)).start = b.start := by
      rw [tailOf, hbn, Nat.sub_self]
      rfl
    rw [hcarve] at hok' ⊢
    rw [take, if_pos hsize, htail]
    refine ⟨⟨hok', ⟨?_, ?_⟩, ⟨a.start, rfl, hamem B⟩, hbound⟩, rfl, rfl⟩
    · have hnd' := hok'.spaced.nodup_starts
      rw [List.append_assoc, List.map_append, List.nodup_append] at hnd'
      obtain ⟨-, hndB', hndA'⟩ := hnd'
      have hw := hrep.walk
      rw [List.map_append, List.map_cons] at hw
      rw [List.append_assoc, List.map_append]
      show Walk (h.mem.setPtr a.start (h.mem b.start).ptr).next base _ base
      refine (hw.split.1.congr fun x hx => ?_).append ⟨rfl, ?_⟩
      · rw [Mem.next, setPtr_of_ne _ _ (hndA' x hx _ List.mem_cons_self)]
        rfl
      · rw [Mem.next, setPtr_self]
        refine hwalk.congr fun x hx => ?_
        have hxa : x ≠ a.start := by
          rintro rfl
          exact (List.nodup_cons.1 hndB').1 hx
        rw [Mem.next, setPtr_of_ne _ _ hxa]
        rfl
    · intro r hr
      show hdrSize * (h.mem.setPtr a.start (h.mem b.start).ptr r.start).size = r.len
      rw [setPtr_size]
      rcases List.mem_append.1 hr with hr | hr
      · rcases List.mem_append.1 hr with hr | hr
        · exact (hother r (Or.inl hr)).2
        · exact (hother r (Or.inr (Or.inl hr))).2
      · rcases List.mem_cons.1 hr with rfl | hr
        · rw [htail, hbsize, hbn]
          rfl
        · exact (hother r (Or.inr (Or.inr hr))).2
  · -- otherwise the block keeps its front
    have hsize : ¬(h.mem b.start).size = n := by
      unfold hdrSize at hbn hbsize
      omega
    have hcarve : carve (A ++ [a]) b B (hdrSize * n) =
        (A ++ [a]) ++ ⟨b.start, b.len - hdrSize * n⟩ :: B := if_neg hbn
    have hfront : hdrSize * ((h.mem b.start).size - n) = b.len - hdrSize * n := by
      rw [Nat.mul_sub, hbsize]
    have htail : plus b.start ((h.mem b.start).size - n) = (b.tailOf (hdrSize * n)).start := by
      rw [plus, hfront]
      rfl
    rw [hcarve] at hok' ⊢
    have htake : take h a.start b.start n =
        ({ h with mem := (h.mem.setSize b.start ((h.mem b.start).size - n)).setSize
                    (b.tailOf (hdrSize * n)).start n, freep := some a.start },
          (b.tailOf (hdrSize * n)).start + hdrSize) := by
      rw [take, if_neg hsize]
      dsimp only
      rw [setSize_self, htail]
    rw [htake]
    refine ⟨⟨hok', ⟨?_, ?_⟩, ⟨a.start, rfl, hamem _⟩, hbound⟩, rfl, rfl⟩
    · have hw : Walk h.mem.next base (((A ++ [a]) ++ b :: B).map start) base := by
        rw [← hassoc]
        exact hrep.walk
      rw [List.map_append, List.map_cons] at hw ⊢
      refine hw.congr fun x _ => ?_
      rw [Mem.next, setSize_ptr, setSize_ptr]
      rfl
    · -- the header of the block taken lies inside `b`
      have htother : ∀ r : Extent, r.start ≠ (b.tailOf (hdrSize * n)).start → r.start ≠ b.start →
          hdrSize * (h.mem r.start).size = r.len →
          hdrSize * (((h.mem.setSize b.start ((h.mem b.start).size - n)).setSize
            (b.tailOf (hdrSize * n)).start n) r.start).size = r.len := by
        intro r hrt hrb hr
        rw [setSize_of_ne _ _ hrt, setSize_of_ne _ _ hrb, hr]
      intro r hr
      rcases List.mem_append.1 hr with hr | hr
      · have hrt := hok'.start_ne (Or.inl hr)
        rcases List.mem_append.1 hr with hr | hr
        · exact htother r hrt (hother r (Or.inl hr)).1 (hother r (Or.inl hr)).2
        · rcases List.mem_cons.1 hr with rfl | hr
          · show hdrSize * (((h.mem.setSize b.start ((h.mem b.start).size - n)).setSize
              (b.tailOf (hdrSize * n)).start n) b.start).size = _
            rw [setSize_of_ne _ _ hrt, setSize_self]
            exact hfront
          · exact htother r hrt (hother r (Or.inr (Or.inl hr))).1 (hother r (Or.inr (Or.inl hr))).2
      · rcases List.mem_cons.1 hr with rfl | hr
        · show hdrSize * (((h.mem.setSize b.start ((h.mem b.start).size - n)).setSize
            (b.tailOf (hdrSize * n)).start n) (b.tailOf (hdrSize * n)).start).size = _
          rw [setSize_self]
          rfl
        · exact htother r (hok'.start_ne (Or.inr hr)) (hother r (Or.inr (Or.inr hr))).1
            (hother r (Or.inr (Or.inr hr))).2

end Malloc
end V6User
