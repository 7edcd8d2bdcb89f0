import Mathlib.Algebra.Order.Floor.Div
import Mathlib.GroupTheory.GroupAction.Ring
import V6User.Base.Flat
import V6User.Base.Fuel
import V6User.Base.Rank

/-!
# The 99th percentile of the stalls

`programs/wakestorm/wakestorm.c`: `select_p99_ns`, a quickselect in place with the partition of
Hoare.

One round of the outer loop narrows a segment of the samples to the part that has the wanted
position in it.  The scans of a round stop inside the segment, since there is a value that is
not smaller, or not greater, than the pivot in front of them: the pivot itself before the first
swap (`partition_spec`), and what was swapped after it (`partition_rest`).  So the two tests
`j == 0` are never what ends a scan.  The samples of the segment stay where they are needed
(`Narrowed`), and it gets shorter with each round (`select_spec`).

`limit` is the number of samples that may be used; to read or write another one is a fault.
Each turn of a loop spends one unit of fuel.
-/

namespace V6User
namespace Wakestorm

open Fuel Rank
open Flat (Stop ok_bind)

/-- `MAX_GUI_STALL_SAMPLES`. -/
def maxSamples : ℕ := 65536

/-- `gui_stall_samples`. -/
abbrev Samples := ℕ → ℕ

/-- `gui_stall_samples[i]`. -/
def get (limit : ℕ) (a : Samples) (i : ℕ) : Except Stop ℕ :=
  if i < limit then .ok (a i) else .error .fault

/-- `gui_stall_samples[i] = x`. -/
def set (limit : ℕ) (a : Samples) (i x : ℕ) : Except Stop Samples :=
  if i < limit then .ok (Function.update a i x) else .error .fault

/-- `while (gui_stall_samples[i] < pivot) i++;` -/
def scanUp (limit : ℕ) (a : Samples) (pivot : ℕ) : ℕ → ℕ → Except Stop ℕ
  | 0, _ => .error .fuel
  | fuel + 1, i => do
    let x ← get limit a i
    if x < pivot then scanUp limit a pivot fuel (i + 1) else .ok i

/-- `while (gui_stall_samples[j] > pivot) { if (j == 0) break; j--; }` -/
def scanDown (limit : ℕ) (a : Samples) (pivot : ℕ) : ℕ → ℕ → Except Stop ℕ
  | 0, _ => .error .fuel
  | fuel + 1, j => do
    let x ← get limit a j
    if pivot < x then if j = 0 then .ok j else scanDown limit a pivot fuel (j - 1) else .ok j

/-- The lines that swap two samples. -/
def swap (limit : ℕ) (a : Samples) (i j : ℕ) : Except Stop Samples := do
  let tmp ← get limit a i
  let x ← get limit a j
  let a ← set limit a i x
  set limit a j tmp

/-- `while (i <= j) { … }`: the samples, `i` and `j` behind the loop. -/
def partition (limit pivot : ℕ) : ℕ → Samples → ℕ → ℕ → Except Stop (Samples × ℕ × ℕ)
  | 0, _, _, _ => .error .fuel
  | fuel + 1, a, i, j =>
    if i ≤ j then do
      let i ← scanUp limit a pivot fuel i
      let j ← scanDown limit a pivot fuel j
      if i ≤ j then do
        let a ← swap limit a i j
        if j = 0 then .ok (a, i + 1, j) else partition limit pivot fuel a (i + 1) (j - 1)
      else partition limit pivot fuel a i j
    else .ok (a, i, j)

/-- `while (left < right) { … }`: the samples behind the loop. -/
def select (limit want : ℕ) : ℕ → Samples → ℕ → ℕ → Except Stop Samples
  | 0, _, _, _ => .error .fuel
  | fuel + 1, a, left, right =>
    if left < right then do
      let pivot ← get limit a ((left + right) / 2)
      let (a, i, j) ← partition limit pivot fuel a left right
      if want ≤ j then select limit want fuel a left j
      else if i ≤ want then select limit want fuel a i right
      else .ok a
    else .ok a

/-- `select_p99_ns(count)`: the samples, and what it returns. -/
def selectP99 (limit fuel : ℕ) (a : Samples) (count : ℕ) : Except Stop (Samples × ℕ) :=
  if count = 0 then .ok (a, 0)
  else do
    let count := if maxSamples < count then maxSamples else count
    let want := (count * 99 + 99) / 100
    let want := (if want = 0 then 1 else want) - 1
    let a ← select limit want fuel a 0 (count - 1)
    let x ← get limit a want
    .ok (a, x)

variable {limit pivot : ℕ} {a : Samples} {i j k l r : ℕ}

theorem get_of_lt (h : i < limit) : get limit a i = .ok (a i) := if_pos h

theorem set_of_lt {x : ℕ} (h : i < limit) : set limit a i x = .ok (Function.update a i x) :=
  if_pos h

/-! ### Scanning -/

/-- **The upward scan** stops where a sample is not smaller than the pivot, at `k` or before
it. -/
theorem scanUp_spec (hk : k < limit) (hik : i ≤ k) (hp : pivot ≤ a k) :
    ∃ i', Settles (fun f => scanUp limit a pivot f i) i' ∧ i ≤ i' ∧ i' ≤ k ∧
      (∀ m, i ≤ m → m < i' → a m < pivot) ∧ pivot ≤ a i' := by
  induction hd : k - i generalizing i with
  | zero =>
    obtain rfl : i = k := by omega
    refine ⟨i, Settles.of_succ (fun f => ?_) (settles_of_forall fun _ => rfl), Nat.le_refl _,
      Nat.le_refl _, fun m hlo hhi => by omega, hp⟩
    rw [scanUp, get_of_lt hk, ok_bind, if_neg (Nat.not_lt.2 hp)]
  | succ d ih =>
    have hi : i < limit := by omega
    by_cases hlt : a i < pivot
    · obtain ⟨i', hset, hle, hle', hall, hge⟩ := ih (i := i + 1) (by omega) (by omega)
      refine ⟨i', Settles.of_succ (fun f => ?_) hset, by omega, hle', fun m hlo hhi => ?_, hge⟩
      · rw [scanUp, get_of_lt hi, ok_bind, if_pos hlt]
      · by_cases hm : m = i
        · rw [hm]
          exact hlt
        · exact hall m (by omega) hhi
    · refine ⟨i, Settles.of_succ (fun f => ?_) (settles_of_forall fun _ => rfl), Nat.le_refl _, hik,
        fun m hlo hhi => by omega, by omega⟩
      rw [scanUp, get_of_lt hi, ok_bind, if_neg hlt]

/-- **The downward scan** stops where a sample is not greater than the pivot, at `k` or behind
it. -/
theorem scanDown_spec (hj : j < limit) (hkj : k ≤ j) (hp : a k ≤ pivot) :
    ∃ j', Settles (fun f => scanDown limit a pivot f j) j' ∧ k ≤ j' ∧ j' ≤ j ∧
      (∀ m, j' < m → m ≤ j → pivot < a m) ∧ a j' ≤ pivot := by
  induction hd : j - k generalizing j with
  | zero =>
    obtain rfl : j = k := by omega
    refine ⟨j, Settles.of_succ (fun f => ?_) (settles_of_forall fun _ => rfl), Nat.le_refl _,
      Nat.le_refl _, fun m hlo hhi => by omega, hp⟩
    rw [scanDown, get_of_lt hj, ok_bind, if_neg (Nat.not_lt.2 hp)]
  | succ d ih =>
    by_cases hlt : pivot < a j
    · obtain ⟨j', hset, hle, hle', hall, hge⟩ := ih (j := j - 1) (by omega) (by omega) (by omega)
      refine ⟨j', Settles.of_succ (fun f => ?_) hset, hle, by omega, fun m hlo hhi => ?_, hge⟩
      · rw [scanDown, get_of_lt hj, ok_bind, if_pos hlt, if_neg (by omega)]
      · by_cases hm : m = j
        · rw [hm]
          exact hlt
        · exact hall m hlo (by omega)
    · refine ⟨j, Settles.of_succ (fun f => ?_) (settles_of_forall fun _ => rfl), hkj, Nat.le_refl _,
        fun m hlo hhi => by omega, by omega⟩
      rw [scanDown, get_of_lt hj, ok_bind, if_neg hlt]

theorem swap_eq (hi : i < limit) (hj : j < limit) :
    swap limit a i j = .ok (a ∘ Equiv.swap i j) := by
  rw [swap, get_of_lt hi, ok_bind, get_of_lt hj, ok_bind, set_of_lt hi, ok_bind, set_of_lt hj]
  refine congrArg Except.ok (funext fun m => ?_)
  rw [Function.comp_apply]
  by_cases hmj : m = j
  · rw [hmj, Function.update_self, Equiv.swap_apply_right]
  · rw [Function.update_of_ne hmj]
    by_cases hmi : m = i
    · rw [hmi, Function.update_self, Equiv.swap_apply_left]
    · rw [Function.update_of_ne hmi, Equiv.swap_apply_of_ne_of_ne hmi hmj]

/-! ### Partitioning -/

/-- The samples of the segment before `i` are not greater than the pivot, and those behind `j`
not smaller. -/
structure Parted (a : Samples) (pivot l r i j : ℕ) : Prop where
  low : ∀ m, l ≤ m → m < i → a m ≤ pivot
  high : ∀ m, j < m → m ≤ r → pivot ≤ a m

/-- Two scans move both ends on. -/
theorem Parted.scanned {i' j' : ℕ} (h : Parted a pivot l r i j)
    (hup : ∀ m, i ≤ m → m < i' → a m < pivot) (hdown : ∀ m, j' < m → m ≤ j → pivot < a m) :
    Parted a pivot l r i' j' := by
  constructor
  · intro m hlo hhi
    by_cases hmi : m < i
    · exact h.low m hlo hmi
    · exact (hup m (by omega) hhi).le
  · intro m hlo hhi
    by_cases hmj : j < m
    · exact h.high m hmj hhi
    · exact (hdown m hlo (by omega)).le

/-- After a swap of what stopped the scans both ends may move on by one. -/
theorem Parted.swap {i' j' : ℕ} (h : Parted a pivot l r i' j') (hij : i' ≤ j')
    (hi : pivot ≤ a i') (hj : a j' ≤ pivot) :
    (∀ m, l ≤ m → m < i' + 1 → (a ∘ Equiv.swap i' j') m ≤ pivot) ∧
      ∀ m, j' ≤ m → m ≤ r → pivot ≤ (a ∘ Equiv.swap i' j') m := by
  constructor
  · intro m hlo hhi
    rw [Function.comp_apply]
    by_cases hm : m = i'
    · rw [hm, Equiv.swap_apply_left]
      exact hj
    · rw [Equiv.swap_apply_of_ne_of_ne hm (by omega)]
      exact h.low m hlo (by omega)
  · intro m hlo hhi
    rw [Function.comp_apply]
    by_cases hm : m = j'
    · rw [hm, Equiv.swap_apply_right]
      exact hi
    · rw [Equiv.swap_apply_of_ne_of_ne (by omega) hm]
      exact h.high m (by omega) hhi

/-- What a loop over the segment gives: `i` and `j` have passed each other, and each of them has
left its end of the segment. -/
def Partitions (limit pivot l r : ℕ) (a : Samples) (i j : ℕ) : Prop :=
  ∃ b i' j', Settles (fun f => partition limit pivot f a i j) (b, i', j') ∧
    Shuffle l (r + 1) a b ∧ l < i' ∧ j' < r ∧ j' < i' ∧ Parted b pivot l r i' j'

/-- A turn of the loop that swaps. -/
theorem partition_swap {i' j' : ℕ} {y : Samples × ℕ × ℕ} (hij : i ≤ j) (hij' : i' ≤ j')
    (hj : j' < limit) (hup : Settles (fun f => scanUp limit a pivot f i) i')
    (hdown : Settles (fun f => scanDown limit a pivot f j) j')
    (hrest : Settles (fun f => if j' = 0 then .ok (a ∘ Equiv.swap i' j', i' + 1, j')
      else partition limit pivot f (a ∘ Equiv.swap i' j') (i' + 1) (j' - 1)) y) :
    Settles (fun f => partition limit pivot f a i j) y := by
  obtain ⟨u, hu⟩ := hup
  obtain ⟨d, hd⟩ := hdown
  obtain ⟨t, ht⟩ := hrest
  dsimp only at hu hd ht
  refine ⟨max u (max d t) + 1, fun n hn => ?_⟩
  obtain ⟨f, rfl⟩ : ∃ f, n = f + 1 := ⟨n - 1, by omega⟩
  show partition limit pivot (f + 1) a i j = _
  rw [partition, if_pos hij, hu f (by omega), ok_bind, hd f (by omega), ok_bind, if_pos hij',
    swap_eq (by omega) hj, ok_bind]
  exact ht f (by omega)

/-- A turn of the loop after which `i` has passed `j`. -/
theorem partition_cross {i' j' : ℕ} (hij : i ≤ j) (hij' : j' < i')
    (hup : Settles (fun f => scanUp limit a pivot f i) i')
    (hdown : Settles (fun f => scanDown limit a pivot f j) j') :
    Settles (fun f => partition limit pivot f a i j) (a, i', j') := by
  obtain ⟨u, hu⟩ := hup
  obtain ⟨d, hd⟩ := hdown
  dsimp only at hu hd
  refine ⟨max u d + 2, fun n hn => ?_⟩
  obtain ⟨f, rfl⟩ : ∃ f, n = f + 1 + 1 := ⟨n - 2, by omega⟩
  show partition limit pivot (f + 1 + 1) a i j = _
  rw [partition, if_pos hij, hu _ (by omega), ok_bind, hd _ (by omega), ok_bind,
    if_neg (Nat.not_le.2 hij'), partition, if_neg (Nat.not_le.2 hij')]

/-- **After the first swap**, what was swapped stops the scans inside the segment. -/
theorem partition_rest (hr : r < limit) (hi : l < i) (hj : j < r)
    (h : Parted a pivot l r i j) : Partitions limit pivot l r a i j := by
  induction hd : j + 1 - i using Nat.strong_induction_on generalizing a i j with
  | _ d ih =>
    by_cases hij : i ≤ j
    · have hj₁ : j + 1 < limit := by omega
      have hj₀ : j < limit := by omega
      obtain ⟨i', hup, hi', hik, hall, hge⟩ :=
        scanUp_spec (i := i) hj₁ (by omega) (h.high (j + 1) (by omega) (by omega))
      obtain ⟨j', hdown, hkj, hj', hall', hle⟩ :=
        scanDown_spec (k := i - 1) hj₀ (by omega) (h.low (i - 1) (by omega) (by omega))
      have hscanned := h.scanned hall hall'
      by_cases hij' : i' ≤ j'
      · obtain ⟨hlow, hhigh⟩ := hscanned.swap hij' hge hle
        have hparted : Parted (a ∘ Equiv.swap i' j') pivot l r (i' + 1) (j' - 1) :=
          ⟨hlow, fun m hm hm' => hhigh m (by omega) hm'⟩
        obtain ⟨b, i₂, j₂, hset, hshuffle, hrest⟩ :=
          ih _ (by omega) (by omega) (by omega) hparted rfl
        refine ⟨b, i₂, j₂, ?_, (shuffle_swap a (by omega) (by omega)).trans hshuffle, hrest⟩
        refine partition_swap hij hij' (by omega) hup hdown ?_
        have hpos : ¬j' = 0 := by omega
        simpa only [if_neg hpos] using hset
      · exact ⟨a, i', j', partition_cross hij (by omega) hup hdown, Shuffle.refl _ _ a, by omega,
          by omega, by omega, hscanned⟩
    · refine ⟨a, i, j, Settles.of_succ (fun f => ?_) (settles_of_forall fun _ => rfl),
        Shuffle.refl _ _ a, hi, hj, by omega, h⟩
      rw [partition, if_neg hij]

/-- **One partition** of a segment around a sample of it. -/
theorem partition_spec {p : ℕ} (hr : r < limit) (hlr : l < r) (hlp : l ≤ p) (hpr : p ≤ r) :
    Partitions limit (a p) l r a l r := by
  have h : Parted a (a p) l r l r := ⟨fun m _ _ => by omega, fun m _ _ => by omega⟩
  have hp : p < limit := by omega
  obtain ⟨i', hup, hi', hip, hall, hge⟩ := scanUp_spec hp hlp (Nat.le_refl (a p))
  obtain ⟨j', hdown, hpj, hj', hall', hle⟩ := scanDown_spec hr hpr (Nat.le_refl (a p))
  have hij' : i' ≤ j' := by omega
  obtain ⟨hlow, hhigh⟩ := (h.scanned hall hall').swap hij' hge hle
  have hswap : Shuffle l (r + 1) a (a ∘ Equiv.swap i' j') :=
    shuffle_swap a (by omega) (by omega)
  by_cases hzero : j' = 0
  · -- the pivot is the first sample of all, and the smallest of the segment
    refine ⟨_, i' + 1, j', partition_swap hlr.le hij' (by omega) hup hdown ?_, hswap, by omega,
      by omega, by omega, hlow, fun m hlo hhi => hhigh m hlo.le hhi⟩
    exact settles_of_forall fun _ => if_pos hzero
  · obtain ⟨b, i₂, j₂, hset, hshuffle, hrest⟩ := partition_rest (a := a ∘ Equiv.swap i' j') hr
      (show l < i' + 1 by omega) (show j' - 1 < r by omega)
      ⟨hlow, fun m hm hm' => hhigh m (by omega) hm'⟩
    refine ⟨b, i₂, j₂, partition_swap hlr.le hij' (by omega) hup hdown ?_, hswap.trans hshuffle,
      hrest⟩
    simpa only [if_neg hzero] using hset

/-! ### Selecting -/

/-- The wanted position is in the segment, whose samples lie between those before it and those
behind it. -/
structure Narrowed (a : Samples) (n l r want : ℕ) : Prop where
  left : l ≤ want
  right : want ≤ r
  bound : r < n
  below : ∀ k, k < l → ∀ m, l ≤ m → m < n → a k ≤ a m
  above : ∀ k, k ≤ r → ∀ m, r < m → m < n → a k ≤ a m

variable {n want : ℕ}

/-- The order within the segment does not matter. -/
theorem Narrowed.shuffle {b : Samples} (h : Narrowed a n l r want) (hs : Shuffle l (r + 1) a b) :
    Narrowed b n l r want := by
  refine ⟨h.left, h.right, h.bound, fun k hk m hlo hhi => ?_, fun k hk m hlo hhi => ?_⟩
  · have hr := h.bound
    rw [hs.outside (Or.inl hk)]
    by_cases hm : m < r + 1
    · exact hs.forall (P := (a k ≤ ·)) (fun m hlo _ => h.below k hk m hlo (by omega)) m hlo hm
    · rw [hs.outside (Or.inr (by omega))]
      exact h.below k hk m hlo hhi
  · rw [hs.outside (Or.inr hlo)]
    by_cases hkl : k < l
    · rw [hs.outside (Or.inl hkl)]
      exact h.above k hk m hlo hhi
    · exact hs.forall (P := (· ≤ a m)) (fun k _ hk => h.above k (by omega) m hlo hhi) k (by omega)
        (by omega)

/-- The samples that `j` has passed are behind the others. -/
theorem Narrowed.front (h : Narrowed a n l r want) (hp : Parted a pivot l r i j) (hji : j < i)
    (hj : j < r) (hw : want ≤ j) : Narrowed a n l j want := by
  have hlow := h.left
  have hbound := h.bound
  refine ⟨hlow, hw, by omega, h.below, fun k hk m hlo hhi => ?_⟩
  by_cases hmr : r < m
  · exact h.above k (by omega) m hmr hhi
  · by_cases hkl : k < l
    · exact h.below k hkl m (by omega) hhi
    · exact (hp.low k (by omega) (by omega)).trans (hp.high m hlo (by omega))

/-- The samples that `i` has passed are before the others. -/
theorem Narrowed.back (h : Narrowed a n l r want) (hp : Parted a pivot l r i j) (hji : j < i)
    (hi : l < i) (hw : i ≤ want) : Narrowed a n i r want := by
  have hright := h.right
  refine ⟨hw, hright, h.bound, fun k hk m hlo hhi => ?_, h.above⟩
  by_cases hkl : k < l
  · exact h.below k hkl m (by omega) hhi
  · by_cases hmr : r < m
    · exact h.above k (by omega) m hmr hhi
    · exact (hp.low k (by omega) hk).trans (hp.high m (by omega) (by omega))

/-- A segment of one sample has the wanted one. -/
theorem Narrowed.atRank_of_le (h : Narrowed a n l r want) (hlr : r ≤ l) : AtRank a n want := by
  have hl := h.left
  have hr := h.right
  have hbound := h.bound
  exact ⟨fun k hk => h.below k (by omega) want (by omega) (by omega),
    fun m hlo hhi => h.above want (by omega) m (by omega) hhi⟩

/-- Between `j` and `i` the samples are equal to the pivot. -/
theorem Narrowed.atRank_of_between (h : Narrowed a n l r want) (hp : Parted a pivot l r i j)
    (hj : j < want) (hi : want < i) : AtRank a n want := by
  have hl := h.left
  have hr := h.right
  constructor
  · intro k hk
    by_cases hkl : k < l
    · exact h.below k hkl want hl (by have := h.bound; omega)
    · exact (hp.low k (by omega) (by omega)).trans (hp.high want hj hr)
  · intro m hlo hhi
    by_cases hmr : r < m
    · exact h.above want hr m hmr hhi
    · exact (hp.low want hl hi).trans (hp.high m (by omega) (by omega))

/-- A round of the selection: one partition, and then one of its sides or the end. -/
theorem select_round (want : ℕ) {b c : Samples} (hlr : l < r) (hr : r < limit)
    (hpart : Settles (fun f => partition limit (a ((l + r) / 2)) f a l r) (b, i, j))
    (hrest : Settles (fun f => if want ≤ j then select limit want f b l j
      else if i ≤ want then select limit want f b i r else .ok b) c) :
    Settles (fun f => select limit want f a l r) c := by
  obtain ⟨p, hp⟩ := hpart
  obtain ⟨q, hq⟩ := hrest
  dsimp only at hp
  refine ⟨max p q + 1, fun m hm => ?_⟩
  obtain ⟨f, rfl⟩ : ∃ f, m = f + 1 := ⟨m - 1, by omega⟩
  show select limit want (f + 1) a l r = _
  rw [select, if_pos hlr, get_of_lt (by omega), ok_bind, hp f (by omega), ok_bind]
  exact hq f (by omega)

/-- **Selecting** comes to an end with the wanted sample in its place. -/
theorem select_spec (h : Narrowed a n l r want) (hn : n ≤ limit) :
    ∃ b, Settles (fun f => select limit want f a l r) b ∧ Shuffle l (r + 1) a b ∧
      AtRank b n want := by
  induction hd : r - l using Nat.strong_induction_on generalizing a l r with
  | _ d ih =>
    have hl := h.left
    have hr := h.right
    have hbound := h.bound
    by_cases hlr : l < r
    · obtain ⟨b, i, j, hpart, hshuffle, hi, hj, hji, hparted⟩ :=
        partition_spec (a := a) (p := (l + r) / 2) (Nat.lt_of_lt_of_le hbound hn) hlr (by omega)
          (by omega)
      have hb := h.shuffle hshuffle
      have hround := fun c => select_round (c := c) want hlr (Nat.lt_of_lt_of_le hbound hn) hpart
      by_cases hwj : want ≤ j
      · obtain ⟨c, hset, hc, hrank⟩ := ih _ (by omega) (hb.front hparted hji hj hwj) rfl
        refine ⟨c, hround c ?_, hshuffle.trans (hc.mono (Nat.le_refl l) (by omega)), hrank⟩
        simpa only [if_pos hwj] using hset
      · by_cases hwi : i ≤ want
        · obtain ⟨c, hset, hc, hrank⟩ := ih _ (by omega) (hb.back hparted hji hi hwi) rfl
          refine ⟨c, hround c ?_, hshuffle.trans (hc.mono (by omega) (Nat.le_refl _)), hrank⟩
          simpa only [if_neg hwj, if_pos hwi] using hset
        · refine ⟨b, hround b ?_, hshuffle, hb.atRank_of_between hparted (by omega) (by omega)⟩
          simp only [if_neg hwj, if_neg hwi]
          exact settles_of_forall fun _ => rfl
    · refine ⟨a, Settles.of_succ (fun f => ?_) (settles_of_forall fun _ => rfl),
        Shuffle.refl _ _ a, h.atRank_of_le (by omega)⟩
      rw [select, if_neg hlr]

/-- **The 99th percentile.**  With only the first `min count maxSamples` samples to use, it comes
to an end, leaves these samples in some order and all others alone, and returns the sample of
rank `⌈99 n / 100⌉` of them, or 0 if there are none. -/
theorem selectP99_correct (a : Samples) (count : ℕ) :
    ∃ b x, Settles (fun f => selectP99 (min count maxSamples) f a count) (b, x) ∧
      (window b (min count maxSamples)).Perm (window a (min count maxSamples)) ∧
      (∀ k, min count maxSamples ≤ k → b k = a k) ∧ (count = 0 → x = 0) ∧
      (count ≠ 0 → (window a (min count maxSamples)).mergeSort[
        99 * min count maxSamples ⌈/⌉ 100 - 1]? = some x) := by
  by_cases hzero : count = 0
  · refine ⟨a, 0, settles_of_forall fun _ => if_pos hzero, List.Perm.refl _, fun _ _ => rfl,
      fun _ => rfl, fun h => absurd hzero h⟩
  · obtain ⟨n, hn⟩ : ∃ n, n = min count maxSamples := ⟨_, rfl⟩
    have hcount : (if maxSamples < count then maxSamples else count) = n := by
      split_ifs <;> omega
    have hpos : 0 < n := by
      rw [hn]
      exact Nat.lt_min.2 ⟨Nat.pos_of_ne_zero hzero, by decide⟩
    have hceil : 99 * n ⌈/⌉ 100 = (n * 99 + 99) / 100 := by
      rw [Nat.ceilDiv_eq_add_pred_div]
      omega
    have hwant : (if (n * 99 + 99) / 100 = 0 then 1 else (n * 99 + 99) / 100) - 1 =
        99 * n ⌈/⌉ 100 - 1 := by
      rw [hceil, if_neg (by omega)]
    have hnarrow : Narrowed a n 0 (n - 1) (99 * n ⌈/⌉ 100 - 1) :=
      ⟨Nat.zero_le _, by omega, by omega, fun k hk => absurd hk (Nat.not_lt_zero k),
        fun k _ m hlo hhi => by omega⟩
    obtain ⟨b, ⟨p, hp⟩, hshuffle, hrank⟩ := select_spec hnarrow (Nat.le_refl n)
    rw [Nat.sub_add_cancel hpos] at hshuffle
    rw [← hn]
    refine ⟨b, b (99 * n ⌈/⌉ 100 - 1), ⟨p, fun f hf => ?_⟩, hshuffle.perm,
      fun k hk => hshuffle.outside (Or.inr hk), fun h => absurd h hzero, fun _ => ?_⟩
    · dsimp only at hp
      show selectP99 n f a count = _
      rw [selectP99, if_neg hzero, hcount]
      dsimp only
      rw [hwant, hp f hf, ok_bind, get_of_lt (by omega), ok_bind]
    · rw [← mergeSort_eq_of_perm hshuffle.perm]
      exact hrank.getElem_sort (by omega)

end Wakestorm
end V6User
