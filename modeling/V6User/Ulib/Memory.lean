import V6User.Base.CInt
import V6User.Base.Flat

/-!
# Moving and setting bytes

`lib/ulib.c`: `memset`, `memmove` and `memcpy`, in one flat memory.

`memmove` copies upwards where the source lies above the destination and downwards elsewhere,
so that no byte is overwritten before it has been read: from every state of either loop the
bytes still to be read are those of the beginning (`copyUp_eq`, `copyDown_eq`).

The length of `memset` and of `memcpy` is a `uint`.  `memset` counts with an `int`, which is
converted back at each comparison, and `memcpy` hands the length to `memmove` as an `int`.
From `2 ^ 31` on a copy does nothing (`memcpy_of_high`), and beyond `2 ^ 31` a `memset` writes
below its destination (`memset_of_high`).
-/

namespace V6User
namespace Ulib

open CInt Flat

/-- `while (n-- > 0) *dst++ = *src++;` -/
def copyUp (m : Memory) (dst src n : ℤ) : Except Stop Memory :=
  if 0 < n then do
    let b ← read m src
    let m ← write m dst b
    copyUp m (dst + 1) (src + 1) (n - 1)
  else .ok m
termination_by n.toNat

/-- `while (n-- > 0) *--dst = *--src;` -/
def copyDown (m : Memory) (dst src n : ℤ) : Except Stop Memory :=
  if 0 < n then do
    let b ← read m (src - 1)
    let m ← write m (dst - 1) b
    copyDown m (dst - 1) (src - 1) (n - 1)
  else .ok m
termination_by n.toNat

/-- `memmove(vdst, vsrc, n)`. -/
def memmove (m : Memory) (dst src n : ℤ) : Except Stop Memory :=
  if dst < src then copyUp m dst src n else copyDown m (dst + n) (src + n) n

/-- `memcpy(dst, src, n)`: the length is converted to an `int`. -/
def memcpy (m : Memory) (dst src : ℤ) (n : UInt32) : Except Stop Memory :=
  memmove m dst src (int32 n.toNat)

/-- The `for` loop of `memset`: `i` is an `int`, and is compared as a `uint`. -/
def memsetFrom (dst : ℤ) (c : UInt8) (n : UInt32) (m : Memory) (i : ℤ) : Except Stop Memory :=
  if h : uint32 i < n.toNat then do
    let m ← write m (dst + i) c
    memsetFrom dst c n m (int32 (i + 1))
  else .ok m
termination_by n.toNat - uint32 i
decreasing_by
  have hn := n.toNat_lt
  rw [uint32_int32, uint32_add_one (by omega)]
  omega

/-- `memset(dst, c, n)`. -/
def memset (m : Memory) (dst c : ℤ) (n : UInt32) : Except Stop Memory :=
  memsetFrom dst (.ofInt c) n m 0

variable {m : Memory} {dst src n : ℤ}

/-! ### `memmove` -/

theorem copyUp_succ (hn : 0 < n) {b c : UInt8} (hsrc : m src = some b) (hdst : m dst = some c) :
    copyUp m dst src n = copyUp (Function.update m dst (some b)) (dst + 1) (src + 1) (n - 1) := by
  rw [copyUp, if_pos hn, read_of_some hsrc, ok_bind, write_of_some hdst, ok_bind]

theorem copyDown_succ (hn : 0 < n) {b c : UInt8} (hsrc : m (src - 1) = some b)
    (hdst : m (dst - 1) = some c) :
    copyDown m dst src n =
      copyDown (Function.update m (dst - 1) (some b)) (dst - 1) (src - 1) (n - 1) := by
  rw [copyDown, if_pos hn, read_of_some hsrc, ok_bind, write_of_some hdst, ok_bind]

/-- **Upwards**: the source does not lie below the destination, so a write leaves the bytes to
be read later alone. -/
theorem copyUp_eq (hle : dst ≤ src) (hd : Mapped m dst n) (hs : Mapped m src n) :
    copyUp m dst src n = .ok (fill m dst n fun j => m (src + j)) := by
  induction hk : n.toNat generalizing m dst src n with
  | zero => rw [copyUp, if_neg (by omega), fill_empty (by omega)]
  | succ k ih =>
    have hn : 0 < n := by omega
    obtain ⟨b, hb⟩ := hs src (Int.le_refl _) (by omega)
    obtain ⟨c, hc⟩ := hd dst (Int.le_refl _) (by omega)
    have hd' : Mapped m (dst + 1) (n - 1) := fun x hlo hhi => hd x (by omega) (by omega)
    have hs' : Mapped m (src + 1) (n - 1) := fun x hlo hhi => hs x (by omega) (by omega)
    rw [copyUp_succ hn hb hc, ih (by omega) hd'.update hs'.update (by omega)]
    refine congrArg Except.ok (funext fun x => ?_)
    by_cases hin : dst + 1 ≤ x ∧ x < dst + n
    · have hne : src + 1 + (x - (dst + 1)) ≠ dst := by omega
      rw [fill_of_inside hin.1 (by omega), fill_of_inside (by omega) hin.2,
        Function.update_of_ne hne]
      exact congrArg m (by omega)
    · rw [fill_of_outside (by omega)]
      by_cases hx : x = dst
      · rw [hx, Function.update_self, fill_of_inside (Int.le_refl _) (by omega), Int.sub_self,
          Int.add_zero, hb]
      · rw [Function.update_of_ne hx, fill_of_outside (by omega)]

/-- **Downwards**: the source does not lie above the destination. -/
theorem copyDown_eq (hle : src ≤ dst) (hn : 0 ≤ n) (hd : Mapped m dst n) (hs : Mapped m src n) :
    copyDown m (dst + n) (src + n) n = .ok (fill m dst n fun j => m (src + j)) := by
  induction hk : n.toNat generalizing m n with
  | zero => rw [copyDown, if_neg (by omega), fill_empty (by omega)]
  | succ k ih =>
    have hpos : 0 < n := by omega
    have hlast : ∀ p : ℤ, p + n - 1 = p + (n - 1) := fun p => by omega
    obtain ⟨b, hb⟩ := hs (src + (n - 1)) (by omega) (by omega)
    obtain ⟨c, hc⟩ := hd (dst + (n - 1)) (by omega) (by omega)
    have hd' : Mapped m dst (n - 1) := fun x hlo hhi => hd x hlo (by omega)
    have hs' : Mapped m src (n - 1) := fun x hlo hhi => hs x hlo (by omega)
    rw [← hlast] at hb hc
    rw [copyDown_succ hpos hb hc, hlast, hlast, ih (by omega) hd'.update hs'.update (by omega)]
    refine congrArg Except.ok (funext fun x => ?_)
    by_cases hin : dst ≤ x ∧ x < dst + (n - 1)
    · have hne : src + (x - dst) ≠ dst + (n - 1) := by omega
      rw [fill_of_inside hin.1 hin.2, fill_of_inside hin.1 (by omega), Function.update_of_ne hne]
    · rw [fill_of_outside (by omega)]
      by_cases hx : x = dst + (n - 1)
      · rw [hx, Function.update_self, fill_of_inside (by omega) (by omega),
          add_sub_cancel_left, ← hlast, hb]
      · rw [Function.update_of_ne hx, fill_of_outside (by omega)]

/-- The memory after a `memmove`. -/
theorem memmove_eq (hn : 0 ≤ n) (hd : Mapped m dst n) (hs : Mapped m src n) :
    memmove m dst src n = .ok (fill m dst n fun j => m (src + j)) := by
  unfold memmove
  split_ifs with hlt
  · exact copyUp_eq (Int.le_of_lt hlt) hd hs
  · exact copyDown_eq (by omega) hn hd hs

/-- The byte at each of the addresses from 0 to 7 is its address. -/
def ramp : Memory := fun x => if 0 ≤ x ∧ x < 8 then some (.ofInt x) else none

theorem mapped_ramp {a n : ℤ} (hlo : 0 ≤ a) (hhi : a + n ≤ 8) : Mapped ramp a n :=
  fun x hx hx' => ⟨.ofInt x, if_pos (by omega)⟩

/-- **`memmove` moves**: whatever the two ranges have in common, it returns, the destination
holds what the source held, and every other byte is what it was. -/
theorem memmove_correct (hn : 0 ≤ n) (hd : Mapped m dst n) (hs : Mapped m src n) :
    ∃ m', memmove m dst src n = .ok m' ∧ (∀ j, 0 ≤ j → j < n → m' (dst + j) = m (src + j)) ∧
      ∀ x, x < dst ∨ dst + n ≤ x → m' x = m x := by
  refine ⟨_, memmove_eq hn hd hs, fun j hlo hhi => ?_, fun x hx => fill_of_outside hx⟩
  rw [fill_of_inside (by omega) (by omega), add_sub_cancel_left]

theorem memmove_correct_ramp :
    ∃ m', memmove ramp 2 0 5 = .ok m' ∧ (∀ j, 0 ≤ j → j < 5 → m' (2 + j) = ramp (0 + j)) ∧
      ∀ x, x < 2 ∨ 2 + 5 ≤ x → m' x = ramp x :=
  memmove_correct (by decide) (mapped_ramp (by decide) (by decide))
    (mapped_ramp (by decide) (by decide))

/-! ### Lengths -/

/-- `memset` of `n` bytes sets the bytes of its range, and uses no others. -/
def MemsetExact (n : UInt32) : Prop :=
  ∀ m dst c, Mapped m dst n.toNat →
    memset m dst c n = .ok (fill m dst n.toNat fun _ => some (.ofInt c))

/-- `memcpy` of `n` bytes copies one range to another, and uses no other bytes. -/
def MemcpyExact (n : UInt32) : Prop :=
  ∀ m dst src, Mapped m dst n.toNat → Mapped m src n.toNat →
    dst + n.toNat ≤ src ∨ src + n.toNat ≤ dst →
      memcpy m dst src n = .ok (fill m dst n.toNat fun j => m (src + j))

/-- **The first turns of `memset`** set one byte after the other, while `i` counts up. -/
theorem memsetFrom_run (c : UInt8) {n : UInt32} {k : ℕ} (hn : k ≤ n.toNat) (hk : k ≤ 2 ^ 31)
    (hd : Mapped m dst k) :
    memsetFrom dst c n m 0 = memsetFrom dst c n (fill m dst k fun _ => some c) (int32 k) := by
  induction k with
  | zero => rw [fill_empty (by omega), int32_of_range (by decide) (by decide), Int.natCast_zero]
  | succ k ih =>
    have hi : int32 k = k := int32_of_range (by omega) (by omega)
    have hlt : uint32 k < n.toNat := by
      rw [uint32_of_range (by omega) (by omega)]
      omega
    obtain ⟨b, hb⟩ := hd (dst + k) (by omega) (by omega)
    have hb' : fill m dst k (fun _ => some c) (dst + k) = some b := by
      rw [fill_of_outside (by omega), hb]
    rw [ih (by omega) (by omega) fun x hlo hhi => hd x hlo (by omega), hi, memsetFrom, dif_pos hlt,
      write_of_some hb', fill_snoc (by omega) rfl, ok_bind, Int.natCast_succ]

/-- **`memset` is exact** while `i` does not pass the largest `int`. -/
theorem memset_of_le {n : UInt32} (hn : n.toNat ≤ 2 ^ 31) : MemsetExact n := by
  intro m dst c hd
  have hdone : ¬uint32 (int32 n.toNat) < n.toNat := by
    have hlt := n.toNat_lt
    rw [uint32_int32, uint32_of_range (by omega) (by omega)]
    omega
  rw [memset, memsetFrom_run _ (Nat.le_refl _) hn hd, memsetFrom, dif_neg hdone]

/-- The memory with one range mapped. -/
def ofRange (n : ℤ) : Memory := fun x => if 0 ≤ x ∧ x < n then some 0 else none

/-- **Beyond `2 ^ 31`**, `i` becomes negative and `memset` writes below its destination. -/
theorem memset_of_high {n : UInt32} (hn : 2 ^ 31 < n.toNat) :
    memset (ofRange n.toNat) 0 0 n = .error .fault := by
  have hlast := n.toNat_lt
  obtain ⟨k, hk⟩ : ∃ k : ℕ, k = 2 ^ 31 := ⟨_, rfl⟩
  have hd : Mapped (ofRange n.toNat) 0 k := fun x hlo hhi => ⟨0, if_pos (by omega)⟩
  have hi : int32 k = k - 2 ^ 32 := int32_of_high (by omega) (by omega)
  have hlt : uint32 (int32 k) < n.toNat := by
    rw [uint32_int32, uint32_of_range (by omega) (by omega)]
    omega
  have hnone : fill (ofRange n.toNat) 0 k (fun _ => some (.ofInt 0)) (0 + int32 k) = none := by
    rw [hi, fill_of_outside (by omega)]
    exact if_neg (by omega)
  rw [memset, memsetFrom_run _ (by omega) (by omega) hd, memsetFrom, dif_pos hlt,
    write_of_none hnone, error_bind]

theorem memcpy_of_lt {n : UInt32} (hn : n.toNat < 2 ^ 31) : MemcpyExact n := by
  intro m dst src hd hs _
  rw [memcpy, int32_of_range (by omega) (by omega)]
  exact memmove_eq (by omega) hd hs

/-- **From `2 ^ 31` on**, the length is a negative `int`, and `memcpy` does nothing. -/
theorem memcpy_of_high {n : UInt32} (hn : 2 ^ 31 ≤ n.toNat) (m : Memory) (dst src : ℤ) :
    memcpy m dst src n = .ok m := by
  have hlt := n.toNat_lt
  have hneg : ¬0 < int32 n.toNat := by
    rw [int32_of_high (by omega) (by omega)]
    omega
  unfold memcpy memmove
  split_ifs
  · rw [copyUp, if_neg hneg]
  · rw [copyDown, if_neg hneg]

/-- Zeros in one range, and ones in the next one. -/
def twoRanges (n : ℤ) : Memory := fun x =>
  if 0 ≤ x ∧ x < n then some 0 else if n ≤ x ∧ x < n + n then some 1 else none

theorem memcpy_ne_of_high {n : UInt32} (hn : 2 ^ 31 ≤ n.toNat) :
    memcpy (twoRanges n.toNat) 0 n.toNat n ≠
      .ok (fill (twoRanges n.toNat) 0 n.toNat fun j => twoRanges n.toNat (n.toNat + j)) := by
  rw [memcpy_of_high hn]
  intro heq
  have hfirst := congrFun (Except.ok.inj heq) 0
  rw [fill_of_inside (by omega) (by omega), twoRanges, if_pos (by omega), twoRanges,
    if_neg (by omega), if_pos (by omega)] at hfirst
  exact absurd hfirst (by decide)

theorem memsetExact_iff (n : UInt32) : MemsetExact n ↔ n.toNat ≤ 2 ^ 31 := by
  refine ⟨fun h => ?_, memset_of_le⟩
  by_contra hn
  have hd : Mapped (ofRange n.toNat) 0 n.toNat := fun x hlo hhi => ⟨0, if_pos (by omega)⟩
  have heq := h _ _ 0 hd
  rw [memset_of_high (by omega)] at heq
  cases heq

theorem memcpyExact_iff (n : UInt32) : MemcpyExact n ↔ n.toNat < 2 ^ 31 := by
  refine ⟨fun h => ?_, memcpy_of_lt⟩
  by_contra hn
  refine memcpy_ne_of_high (by omega) (h _ _ _ ?_ ?_ (Or.inl (by omega)))
  · exact fun x hlo hhi => ⟨0, if_pos (by omega)⟩
  · intro x hlo hhi
    refine ⟨1, ?_⟩
    rw [twoRanges, if_neg (by omega), if_pos (by omega)]

/-- **Lengths in bytes**: both functions do what they are for exactly below `2 ^ 31` bytes. -/
theorem memset_memcpy_exact_iff (n : UInt32) :
    MemsetExact n ∧ MemcpyExact n ↔ n.toNat < 2 ^ 31 := by
  rw [memsetExact_iff, memcpyExact_iff]
  exact ⟨fun h => h.2, fun h => ⟨Nat.le_of_lt h, h⟩⟩

theorem memcpy_not_exact_high : ¬(MemsetExact 2147483648 ∧ MemcpyExact 2147483648) := by
  rintro ⟨-, hcpy⟩
  rw [memcpyExact_iff] at hcpy
  exact absurd hcpy (by decide)

end Ulib
end V6User
