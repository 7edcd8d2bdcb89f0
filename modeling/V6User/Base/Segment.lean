import Mathlib.Data.List.TakeWhile
import Mathlib.Tactic.Common

/-!
# Updates of segments of one buffer

A `Seg` is a range of offsets of a list.  An update that rewrites one segment
and looks at nothing else is `modify r g`; as long as `g` keeps the length, it
leaves every disjoint segment as it was (`read_modify_of_disjoint`), and a row
of such updates on pairwise disjoint segments leaves in each segment what its
own update makes of the original bytes (`read_foldl_modify`), whatever the
order of the row.
-/

namespace V6User

/-- The offsets from `lo` on, `len` of them. -/
structure Seg where
  lo : ℕ
  len : ℕ
  deriving DecidableEq, Repr

namespace Seg

variable {α ι : Type}

/-- The entries of a list in the segment. -/
def read (r : Seg) (b : List α) : List α := (b.drop r.lo).take r.len

/-- Rewrite the segment, looking at nothing else. -/
def modify (r : Seg) (g : List α → List α) (b : List α) : List α :=
  b.take r.lo ++ g (r.read b) ++ b.drop (r.lo + r.len)

/-- The segment lies in a list of length `n`. -/
def Within (r : Seg) (n : ℕ) : Prop := r.lo + r.len ≤ n

/-- Two segments without a common offset. -/
def Disjoint (r s : Seg) : Prop := r.lo + r.len ≤ s.lo ∨ s.lo + s.len ≤ r.lo

theorem Disjoint.symm {r s : Seg} (h : r.Disjoint s) : s.Disjoint r := Or.symm h

theorem length_read {r : Seg} {b : List α} (h : r.Within b.length) : (r.read b).length = r.len := by
  unfold Within at h
  rw [read, List.length_take, List.length_drop]
  omega

/-- `g` keeps the length of a list of length `n`. -/
def Keeps (n : ℕ) (g : List α → List α) : Prop := ∀ l : List α, l.length = n → (g l).length = n

theorem length_modify {r : Seg} {g : List α → List α} {b : List α} (hg : Keeps r.len g)
    (h : r.Within b.length) : (r.modify g b).length = b.length := by
  have hlen := hg _ (length_read h)
  unfold Within at h
  rw [modify, List.length_append, List.length_append, hlen, List.length_take, List.length_drop]
  omega

/-- A segment after its own update. -/
theorem read_modify_self {r : Seg} {g : List α → List α} {b : List α} (hg : Keeps r.len g)
    (h : r.Within b.length) : r.read (r.modify g b) = g (r.read b) := by
  have hlen := hg _ (length_read h)
  unfold Within at h
  have hlo : (b.take r.lo).length = r.lo := by rw [List.length_take]; omega
  rw [read, modify, List.append_assoc, List.drop_append_of_le_length hlo.ge,
    List.drop_of_length_le hlo.le, List.nil_append, List.take_append_of_le_length hlen.ge,
    List.take_of_length_le hlen.le]

/-- **A segment disjoint from the updated one** stays as it was. -/
theorem read_modify_of_disjoint {r s : Seg} {g : List α → List α} {b : List α}
    (hg : Keeps r.len g) (h : r.Within b.length) (hd : r.Disjoint s) :
    s.read (r.modify g b) = s.read b := by
  have hlen := hg _ (length_read h)
  unfold Within at h
  have hlo : (b.take r.lo).length = r.lo := by rw [List.length_take]; omega
  rcases hd with hd | hd
  · -- behind the update: what stands there is a suffix of the list
    have hdrop : ∀ k, r.lo + r.len ≤ k → (r.modify g b).drop k = b.drop k := by
      intro k hk
      rw [modify, List.drop_append, List.drop_of_length_le (by simp only [List.length_append]; omega),
        List.nil_append, List.drop_drop]
      congr 1
      simp only [List.length_append]
      omega
    rw [read, hdrop _ hd, read]
  · -- before the update: what stands there is a prefix of the list
    have htake : ∀ k, k ≤ r.lo → (r.modify g b).take k = b.take k := by
      intro k hk
      rw [modify, List.append_assoc, List.take_append_of_le_length (by omega), List.take_take,
        Nat.min_eq_left hk]
    rw [read, read, List.take_drop, List.take_drop, htake _ hd]

variable {seg : ι → Seg} {g : List α → List α}

/-- A row of updates leaves a segment disjoint from all of them as it was. -/
theorem read_foldl_of_disjoint {s : Seg} {l : List ι} {b : List α} (hg : ∀ i ∈ l, Keeps (seg i).len g)
    (h : ∀ i ∈ l, (seg i).Within b.length) (hd : ∀ i ∈ l, (seg i).Disjoint s) :
    s.read (l.foldl (fun b i => (seg i).modify g b) b) = s.read b := by
  induction l generalizing b with
  | nil => rfl
  | cons i l ih =>
    have hi := length_modify (hg i List.mem_cons_self) (h i List.mem_cons_self)
    rw [List.foldl_cons, ih (fun j hj => hg j (List.mem_cons_of_mem _ hj))
      (fun j hj => hi ▸ h j (List.mem_cons_of_mem _ hj))
      (fun j hj => hd j (List.mem_cons_of_mem _ hj))]
    exact read_modify_of_disjoint (hg i List.mem_cons_self) (h i List.mem_cons_self)
      (hd i List.mem_cons_self)

/-- **A row of updates of pairwise disjoint segments**: each segment ends up
with what its own update makes of the bytes it held at the start. -/
theorem read_foldl_modify {l : List ι} {b : List α} (hg : ∀ i ∈ l, Keeps (seg i).len g)
    (h : ∀ i ∈ l, (seg i).Within b.length)
    (hd : l.Pairwise fun i j => (seg i).Disjoint (seg j)) :
    ∀ i ∈ l, (seg i).read (l.foldl (fun b i => (seg i).modify g b) b) = g ((seg i).read b) := by
  induction l generalizing b with
  | nil => simp
  | cons j l ih =>
    rw [List.pairwise_cons] at hd
    have hj := h j List.mem_cons_self
    have hgj := hg j List.mem_cons_self
    have hgl : ∀ i ∈ l, Keeps (seg i).len g := fun i hi => hg i (List.mem_cons_of_mem _ hi)
    have hlen := length_modify hgj hj
    have hl : ∀ i ∈ l, (seg i).Within ((seg j).modify g b).length :=
      fun i hi => hlen ▸ h i (List.mem_cons_of_mem _ hi)
    intro i hi
    rw [List.foldl_cons]
    rcases List.mem_cons.1 hi with rfl | hi
    · -- the first update: the later ones do not reach its segment
      rw [read_foldl_of_disjoint hgl hl fun k hk => (hd.1 k hk).symm, read_modify_self hgj hj]
    · rw [ih hgl hl hd.2 i hi, read_modify_of_disjoint hgj hj (hd.1 i hi)]

end Seg
end V6User
