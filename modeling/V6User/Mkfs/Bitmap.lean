import V6User.Base.CInt
import V6User.Mkfs.Inode

/-!
# The bitmap of an image

`programs/mkfs_xv6fs/mkfs_xv6fs.c`: `balloc`.

The sector `b` of the bitmap is for the blocks from `b * BPB` on, and its loop sets the bits
of those that are used.  `base` is an `int`: from the sector 262144 on it is negative, every
number in the sector is below `used`, and all bits are set (`bit_ballocSector`).
-/

namespace V6User
namespace Mkfs

open Bytes
open CInt

/-- `BPB`. -/
def bpb : ℕ := bsize * 8

/-- `wsect(sec, buf)` for the sectors that the loops of `main` and `balloc` write, `n` of them
in a row. -/
def writeSectors (n : ℕ) (sec : ℕ → ℕ) (buf : ℕ → Mem) (disk : Disk) : Disk :=
  (List.range n).foldl (fun d b => Function.update d (sec b) (buf b)) disk

/-- The inner loop of `balloc`, from `i` on. -/
def ballocLoop (base stop used i : ℤ) (buf : Mem) : Mem :=
  if i < stop ∧ i < used then
    ballocLoop base stop used (i + 1) (setBit buf (i - base).toNat)
  else buf
termination_by (used - i).toNat

/-- The sector `b` of the bitmap. -/
def ballocSector (used : ℤ) (b : ℕ) : Mem :=
  let base := int32 (b * bpb)
  ballocLoop base (int32 (base + bpb)) used base fun _ => 0

/-- `balloc(used)`. -/
def balloc (bmapstart : ℕ) (nbitmap used : ℤ) (disk : Disk) : Disk :=
  writeSectors nbitmap.toNat (fun b => (bmapstart + b) % 2 ^ 32) (ballocSector used) disk

section Balloc

variable {n b j : ℕ} {sec : ℕ → ℕ} {buf : ℕ → Mem} {disk : Disk} {used : ℤ}

/-- Sectors in a row are written, and no others. -/
theorem writeSectors_eq (start : ℕ) (hsec : ∀ b, b < n → sec b = start + b) (j : ℕ) :
    writeSectors n sec buf disk j =
      if start ≤ j ∧ j < start + n then buf (j - start) else disk j := by
  induction n with
  | zero => exact (if_neg (by omega)).symm
  | succ n ih =>
    have hrest := ih fun b hb => hsec b (by omega)
    unfold writeSectors at hrest ⊢
    rw [List.range_succ, List.foldl_append, List.foldl_cons, List.foldl_nil, hsec n (by omega)]
    by_cases hlast : j = start + n
    · rw [hlast, Function.update_self, if_pos (by omega), Nat.add_sub_cancel_left]
    · rw [Function.update_of_ne hlast, hrest]
      split_ifs <;> first | rfl | omega

/-- The loop sets the bits from `i` on, up to where it stops. -/
theorem bit_ballocLoop (base stop used i : ℤ) (buf : Mem) (hbase : base ≤ i) (j : ℕ) :
    bit (ballocLoop base stop used i buf) j =
      (decide (i ≤ base + j ∧ base + j < stop ∧ base + j < used) || bit buf j) := by
  induction i, buf using ballocLoop.induct base stop used with
  | case1 i buf hin ih =>
    have hiff : (i ≤ base + j ∧ base + j < stop ∧ base + j < used) ↔
        (j = (i - base).toNat ∨ i + 1 ≤ base + j ∧ base + j < stop ∧ base + j < used) := by
      omega
    rw [ballocLoop, if_pos hin, ih (by omega), bit_setBit, decide_eq_decide.2 hiff,
      Bool.decide_or, ← Bool.or_assoc, Bool.or_comm (decide _) (decide (j = _))]
  | case2 i buf hend =>
    rw [ballocLoop, if_neg hend, decide_eq_false (by omega), Bool.false_or]

/-- **The bits of a sector**: those of the blocks before `used`, and all of those from 2³¹ on. -/
theorem bit_ballocSector (hpos : 0 ≤ used) (hused : used ≤ 2 ^ 31 - 2 ^ 13) (hb : b < 2 ^ 32) :
    bit (ballocSector used (b / bpb)) (b % bpb) = decide (b < used ∨ 2 ^ 31 ≤ b) := by
  have hbpb : bpb = 8192 := rfl
  have hzero : bit (fun _ => (0 : UInt8)) (b % bpb) = false := Nat.zero_testBit _
  unfold ballocSector
  dsimp only
  rw [bit_ballocLoop _ _ _ _ _ (Int.le_refl _), hzero, Bool.or_false, decide_eq_decide, hbpb]
  by_cases hlow : b < 2 ^ 31
  · rw [int32_of_range (x := ((b / 8192 : ℕ) : ℤ) * (8192 : ℕ)) (by omega) (by omega)]
    by_cases hlast : b < 2 ^ 31 - 2 ^ 13
    · rw [int32_of_range (x := ((b / 8192 : ℕ) : ℤ) * (8192 : ℕ) + (8192 : ℕ)) (by omega) (by omega)]
      omega
    · -- the last sector before 2³¹: no block is used, and the end has wrapped
      omega
  · rw [int32_of_high (x := ((b / 8192 : ℕ) : ℤ) * (8192 : ℕ)) (by omega) (by omega),
      int32_of_range (x := ((b / 8192 : ℕ) : ℤ) * (8192 : ℕ) - 2 ^ 32 + (8192 : ℕ)) (by omega)
        (by omega)]
    omega

end Balloc

end Mkfs
end V6User
