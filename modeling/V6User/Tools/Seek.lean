import V6User.Base.CInt

/-!
# Seeking with an `int`

`lib/user.h`: `lseek`, which takes an `int64` and returns an `int`; the calls of it in
`programs/dd/dd.c`, `programs/dh/dh.c` and `programs/mkfs_xv6fs/mkfs_xv6fs.c`.

The kernel answers with 64 bits, of which the caller sees the low 32 as an `int`.  So a
seek that the kernel has done is taken for one that failed exactly when bit 31 of the
offset is set (`seek_callers_iff`): `dd` then throws away data after the offset, or stops,
as `dh` and `mkfs_xv6fs` do.
-/

namespace V6User
namespace Tools

open CInt

/-- The position after `lseek(fd, offset, SEEK_SET)`, where `sys` gives the kernel's answer
and a negative one is a failure. -/
def seekPos (sys : ℤ → ℤ) (pos offset : ℤ) : ℤ := if sys offset < 0 then pos else sys offset

/-- What `lseek(fd, offset, SEEK_SET)` returns. -/
def lseek (sys : ℤ → ℤ) (offset : ℤ) : ℤ := int32 (sys offset)

/-! ### `dd` -/

/-- The loop of `dd` that reads `n` blocks and throws them away: where it leaves the input.
`read pos bs` is what `read` returns at a position. -/
def discard (read : ℤ → ℤ → ℤ) (bs : ℤ) : ℕ → ℤ → ℤ
  | 0, pos => pos
  | n + 1, pos => if read pos bs ≤ 0 then pos else discard read bs n (pos + read pos bs)

/-- `dd` on its input: the position after `skip`, and whether the seek was taken for one
that failed. -/
def ddSkip (sys : ℤ → ℤ) (read : ℤ → ℤ → ℤ) (skip bs : ℤ) : ℤ × Bool :=
  if skip > 0 then
    let offset := int64 (skip * bs)
    let pos := seekPos sys 0 offset
    if lseek sys offset < 0 then (discard read bs skip.toNat pos, true) else (pos, false)
  else (0, false)

/-- `dd` on its output: the position after `seek`, or `none` where it gives up. -/
def ddSeek (sys : ℤ → ℤ) (seek bs : ℤ) : Option ℤ :=
  if seek > 0 then
    let offset := int64 (seek * bs)
    if lseek sys offset < 0 then none else some (seekPos sys 0 offset)
  else some 0

/-! ### `dh` and `mkfs_xv6fs` -/

/-- `dh`: where the dump begins, or `none` where it gives up. -/
def dhStart (sys : ℤ → ℤ) (offset : ℤ) : Option ℤ :=
  if offset > 0 then
    if lseek sys offset < 0 then none else some (seekPos sys 0 offset)
  else some 0

/-- `BSIZE`. -/
def bsize : ℤ := 1024

/-- The seek of `wsect` and of `rsect`: where the sector is transferred, or `none` where
`mkfs_xv6fs` gives up. -/
def sectorSeek (sys : ℤ → ℤ) (pos : ℤ) (sec : ℕ) : Option ℤ :=
  let offset := int64 (sec * bsize)
  if lseek sys offset < 0 then none else some (seekPos sys pos offset)

/-! ### The offsets that are taken for errors -/

/-- Bit 31 of an offset is clear. -/
def LowOffset (offset : ℤ) : Prop := offset % 2 ^ 32 < 2 ^ 31

instance (offset : ℤ) : Decidable (LowOffset offset) :=
  inferInstanceAs (Decidable (offset % 2 ^ 32 < 2 ^ 31))

/-- A kernel that does every seek below `2 ^ 63` and answers with the offset. -/
def Seeks (sys : ℤ → ℤ) : Prop := ∀ offset, 0 ≤ offset → offset < 2 ^ 63 → sys offset = offset

section Callers

variable {sys : ℤ → ℤ} {offset pos : ℤ}

/-- **`lseek` is taken for a failure exactly where bit 31 of the offset is set.** -/
theorem lseek_neg_iff (hs : Seeks sys) (h0 : 0 ≤ offset) (h : offset < 2 ^ 63) :
    lseek sys offset < 0 ↔ ¬LowOffset offset := by
  rw [lseek, hs offset h0 h, int32_neg_iff, LowOffset, Int.not_lt]

theorem seekPos_eq (hs : Seeks sys) (h0 : 0 ≤ offset) (h : offset < 2 ^ 63) :
    seekPos sys pos offset = offset := by
  rw [seekPos, hs offset h0 h, if_neg (Int.not_lt.2 h0)]

theorem lowOffset_zero : LowOffset 0 := by decide

theorem ddSkip_iff (hs : Seeks sys) (read : ℤ → ℤ → ℤ) {skip bs : ℤ} (hskip : 0 ≤ skip)
    (hbs : 0 < bs) (h : skip * bs < 2 ^ 63) :
    ddSkip sys read skip bs = (skip * bs, false) ↔ LowOffset (skip * bs) := by
  have h0 : 0 ≤ skip * bs := Int.mul_nonneg hskip (Int.le_of_lt hbs)
  have hoff : int64 (skip * bs) = skip * bs := int64_of_range (by omega) h
  unfold ddSkip
  dsimp only
  rw [hoff, seekPos_eq hs h0 h]
  split_ifs with hpos hneg
  · rw [lseek_neg_iff hs h0 h] at hneg
    exact ⟨fun heq => absurd (Prod.mk.inj heq).2 nofun, fun hlow => absurd hlow hneg⟩
  · rw [lseek_neg_iff hs h0 h, not_not] at hneg
    exact ⟨fun _ => hneg, fun _ => rfl⟩
  · obtain rfl : skip = 0 := by omega
    rw [Int.zero_mul]
    exact ⟨fun _ => lowOffset_zero, fun _ => rfl⟩

/-- A seek that ends the program where it fails. -/
theorem seek_or_exit_iff (hs : Seeks sys) (h0 : 0 ≤ offset) (h : offset < 2 ^ 63) :
    (if lseek sys offset < 0 then none else some (seekPos sys pos offset)) = some offset ↔
      LowOffset offset := by
  rw [seekPos_eq hs h0 h]
  split_ifs with hneg
  · rw [lseek_neg_iff hs h0 h] at hneg
    exact ⟨nofun, fun hlow => absurd hlow hneg⟩
  · rw [lseek_neg_iff hs h0 h, not_not] at hneg
    exact ⟨fun _ => hneg, fun _ => rfl⟩

theorem dhStart_iff (hs : Seeks sys) (h0 : 0 ≤ offset) (h : offset < 2 ^ 63) :
    dhStart sys offset = some offset ↔ LowOffset offset := by
  unfold dhStart
  by_cases hpos : offset > 0
  · rw [if_pos hpos]
    exact seek_or_exit_iff hs h0 h
  · obtain rfl : offset = 0 := by omega
    exact ⟨fun _ => lowOffset_zero, fun _ => rfl⟩

theorem ddSeek_iff (hs : Seeks sys) {seek bs : ℤ} (hseek : 0 ≤ seek) (hbs : 0 < bs)
    (h : seek * bs < 2 ^ 63) : ddSeek sys seek bs = some (seek * bs) ↔ LowOffset (seek * bs) := by
  have h0 : 0 ≤ seek * bs := Int.mul_nonneg hseek (Int.le_of_lt hbs)
  have hoff : int64 (seek * bs) = seek * bs := int64_of_range (by omega) h
  unfold ddSeek
  dsimp only
  rw [hoff]
  by_cases hpos : seek > 0
  · rw [if_pos hpos]
    exact seek_or_exit_iff hs h0 h
  · obtain rfl : seek = 0 := by omega
    rw [if_neg hpos, Int.zero_mul]
    exact ⟨fun _ => lowOffset_zero, fun _ => rfl⟩

theorem sectorSeek_iff (hs : Seeks sys) {sec : ℕ} (hsec : sec < 2 ^ 32) :
    sectorSeek sys pos sec = some (sec * bsize) ↔ LowOffset (sec * bsize) := by
  have hoff : int64 (sec * bsize) = sec * bsize := by
    refine int64_of_range ?_ ?_ <;> unfold bsize <;> omega
  unfold sectorSeek
  dsimp only
  rw [hoff]
  exact seek_or_exit_iff hs (by unfold bsize; omega) (by unfold bsize; omega)

/-- The sectors of a file system have low offsets exactly up to 2 GiB. -/
theorem forall_lowOffset_iff (fssize : ℕ) :
    (∀ sec : ℕ, sec < fssize → LowOffset (sec * bsize)) ↔ fssize ≤ 2 ^ 21 := by
  unfold LowOffset bsize
  constructor
  · intro hall
    by_contra hbig
    have hbad := hall (2 ^ 21) (by omega)
    exact absurd hbad (by decide)
  · intro hsize sec hsec
    omega

end Callers

/-- **When a seek that was done is not taken for a failure.**  With a kernel that does every
seek and answers with the offset, for all offsets below `2 ^ 63`: `dd` has its input at
`skip * bs` and its output at `seek * bs` without an error, and `dh` begins at the offset,
exactly when bit 31 of that offset is clear; and `mkfs_xv6fs` transfers every sector below
`fssize` where it belongs exactly when there are no more than `2 ^ 21` of them. -/
theorem seek_callers_iff (sys : ℤ → ℤ) (hs : Seeks sys) :
    (∀ read skip bs, 0 ≤ skip → 0 < bs → skip * bs < 2 ^ 63 →
      (ddSkip sys read skip bs = (skip * bs, false) ↔ LowOffset (skip * bs))) ∧
    (∀ seek bs, 0 ≤ seek → 0 < bs → seek * bs < 2 ^ 63 →
      (ddSeek sys seek bs = some (seek * bs) ↔ LowOffset (seek * bs))) ∧
    (∀ offset, 0 ≤ offset → offset < 2 ^ 63 →
      (dhStart sys offset = some offset ↔ LowOffset offset)) ∧
    ∀ fssize : ℕ, fssize < 2 ^ 32 →
      ((∀ pos, ∀ sec : ℕ, sec < fssize → sectorSeek sys pos sec = some (sec * bsize)) ↔
        fssize ≤ 2 ^ 21) := by
  refine ⟨fun read _ _ hskip hbs h => ddSkip_iff hs read hskip hbs h,
    fun _ _ hseek hbs h => ddSeek_iff hs hseek hbs h, fun _ h0 h => dhStart_iff hs h0 h, ?_⟩
  intro fssize hsize
  rw [← forall_lowOffset_iff]
  constructor
  · intro hall sec hsec
    exact (sectorSeek_iff hs (Nat.lt_trans hsec hsize)).1 (hall 0 sec hsec)
  · intro hall pos sec hsec
    exact (sectorSeek_iff hs (Nat.lt_trans hsec hsize)).2 (hall sec hsec)

theorem seek_callers_iff_dh : dhStart id 4096 = some 4096 :=
  ((seek_callers_iff id fun _ _ _ => rfl).2.2.1 4096 (by decide) (by decide)).2 (by decide)

/-- **An offset of 2 GiB is taken for an error by each of them.**  `dd` reads on from there,
in a file that has one more block. -/
theorem seek_callers_fail :
    let read := fun pos bs : ℤ => if pos < 2 ^ 31 + 65536 then bs else 0
    Seeks id ∧ ddSkip id read 32768 65536 = (2 ^ 31 + 65536, true) ∧
      ddSeek id 32768 65536 = none ∧ dhStart id (2 ^ 31) = none ∧
      sectorSeek id 0 (2 ^ 21) = none :=
  ⟨fun _ _ _ => rfl, by decide, by decide, by decide, by decide⟩

end Tools
end V6User
