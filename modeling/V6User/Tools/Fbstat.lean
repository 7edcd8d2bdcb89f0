import V6User.Base.CInt

/-!
# Rectangles of a screen

`programs/fbstat/fbstat.c`: `parse_u32_arg`, and what `sample_rect`, `dump_ppm` and
`dump_ppm_current` do before they read pixels: they check the layout of the screen and the
origin of the rectangle, and clip the rectangle.

All of this is done in 32 bits.  A rectangle whose right or lower edge wraps is not clipped
(`onScreen_clip_iff`), a width may pass the test for the row buffer because three times the
width wraps, and the length that is mapped is an `int`.
-/

namespace V6User
namespace Tools
namespace Fbstat

open CInt

/-- The digits of `parse_u32_arg`; the number wraps. -/
def parseDigits : UInt32 → List UInt8 → Option UInt32
  | v, [] => some v
  | v, c :: s => if c < 48 ∨ 57 < c then none else parseDigits (v * 10 + (c - 48).toUInt32) s

/-- `parse_u32_arg(s, out)`. -/
def parseU32Arg (s : List UInt8) : Option UInt32 := if s = [] then none else parseDigits 0 s

/-- What the two `ioctl`s say of the screen. -/
structure Screen where
  xres : UInt32
  yres : UInt32
  bitsPerPixel : UInt32
  lineLength : UInt32
  deriving DecidableEq, Repr

/-- A rectangle as the program has it. -/
structure Rect where
  x : UInt32
  y : UInt32
  w : UInt32
  h : UInt32
  deriving DecidableEq, Repr

/-- The four numerals of the command line. -/
def parseRect (x y w h : List UInt8) : Option Rect := do
  let x ← parseU32Arg x
  let y ← parseU32Arg y
  let w ← parseU32Arg w
  let h ← parseU32Arg h
  return ⟨x, y, w, h⟩

/-- The test of the layout in `sample_rect` and `dump_ppm`. -/
def layoutOk (s : Screen) : Bool := s.bitsPerPixel = 32 ∧ s.xres * 4 ≤ s.lineLength

/-- The lines of all three functions that clip a rectangle. -/
def clip (s : Screen) (r : Rect) : Rect where
  x := r.x
  y := r.y
  w := if s.xres < r.x + r.w then s.xres - r.x else r.w
  h := if s.yres < r.y + r.h then s.yres - r.y else r.h

/-- The rectangle is not empty, and its origin is on the screen. -/
def originOk (s : Screen) (r : Rect) : Bool := r.x < s.xres ∧ r.y < s.yres ∧ r.w ≠ 0 ∧ r.h ≠ 0

/-- `sample_rect` up to the clipping: the clipped rectangle, unless it has returned. -/
def sampleRect (s : Screen) (x y w h : List UInt8) : Option Rect := do
  let r ← parseRect x y w h
  if layoutOk s ∧ originOk s r then some (clip s r) else none

/-- The two dumps up to the clipping, after their test of the layout. -/
def dump (layout : Bool) (s : Screen) (r : Rect) (useRect : Bool) : Option Rect :=
  let r := if useRect then r else ⟨0, 0, s.xres, s.yres⟩
  if layout ∧ originOk s r then some (clip s r) else none

/-- `dump_ppm`. -/
def dumpPpm (s : Screen) (r : Rect) (useRect : Bool) : Option Rect :=
  dump (layoutOk s) s r useRect

/-- `dump_ppm_current` only looks at the size of a pixel. -/
def dumpPpmCurrent (s : Screen) (r : Rect) (useRect : Bool) : Option Rect :=
  dump (s.bitsPerPixel = 32) s r useRect

/-- `sizeof(row)`. -/
def rowSize : ℕ := 4096

/-- The test of the dumps that a row fits its buffer. -/
def rowFits (r : Rect) : Bool := (r.w * 3).toNat ≤ rowSize

/-! ### Reading pixels -/

/-- `map_len`, a `uint64`. -/
def mapLen (s : Screen) : ℕ := s.lineLength.toNat * s.yres.toNat

/-- What `mmap`, `malloc` and `read` answer. -/
structure Answers where
  mapped : Bool
  allocated : Bool
  nread : ℤ

/-- What they promise: `mmap` needs a positive length, and `read` returns no more than it was
asked for. -/
def Answers.Lawful (s : Screen) (a : Answers) : Prop :=
  (a.mapped → 0 < int32 (mapLen s)) ∧ a.nread ≤ max 0 (int32 (mapLen s))

/-- The number of bytes at `fb`, unless the function has returned.  `mmap` and `read` are given
`(int)map_len`, `malloc` is given `(uint)map_len`, and the number read is compared with
`(ssize_t)map_len`. -/
def fbBytes (s : Screen) (a : Answers) : Option ℕ :=
  if a.mapped then some (int32 (mapLen s)).toNat
  else if ¬a.allocated then none
  else if a.nread < int64 (mapLen s) then none
  else some (uint32 (mapLen s))

/-- The offsets at which the loops of `sample_rect` and `dump_ppm` read a pixel. -/
def pixelReads (s : Screen) (r : Rect) : List ℕ :=
  (List.range r.h.toNat).flatMap fun row => (List.range r.w.toNat).map fun col =>
    (r.y + .ofNat row).toNat * s.lineLength.toNat + 4 * r.x.toNat + 4 * col

/-- The offset of a pixel that `sample_rect` reads once more. -/
def cornerRead (s : Screen) (x y : UInt32) : ℕ := y.toNat * s.lineLength.toNat + (x * 4).toNat

/-- All offsets at which `sample_rect` reads a pixel. -/
def sampleReads (s : Screen) (r : Rect) : List ℕ :=
  pixelReads s r ++ [cornerRead s r.x r.y, cornerRead s (r.x + r.w - 1) r.y,
    cornerRead s r.x (r.y + r.h - 1), cornerRead s (r.x + r.w - 1) (r.y + r.h - 1),
    cornerRead s (r.x + r.w / 2) (r.y + r.h / 2)]

/-- The size of the buffer of `dump_ppm_current`: `malloc((uint)size)`. -/
def currentBytes (r : Rect) : ℕ := uint32 (r.w.toNat * r.h.toNat * 4 : ℕ)

/-- The offsets at which `dump_ppm_current` reads a pixel in its buffer; the pitch is
`w * sizeof(uint32)`, as a `uint32`. -/
def currentReads (r : Rect) : List ℕ :=
  (List.range r.h.toNat).flatMap fun row => (List.range r.w.toNat).map fun col =>
    row * (r.w * 4).toNat + 4 * col

/-! ### Clipping -/

/-- The rectangle lies on the screen. -/
def OnScreen (s : Screen) (r : Rect) : Prop :=
  r.x.toNat + r.w.toNat ≤ s.xres.toNat ∧ r.y.toNat + r.h.toNat ≤ s.yres.toNat

/-- The right and the lower edge fit into 32 bits. -/
def NoWrap (r : Rect) : Prop :=
  r.x.toNat + r.w.toNat < 2 ^ 32 ∧ r.y.toNat + r.h.toNat < 2 ^ 32

/-- How much of the width is on the screen. -/
def width (s : Screen) (r : Rect) : ℕ := min r.w.toNat (s.xres.toNat - r.x.toNat)

/-- How much of the height is on the screen. -/
def height (s : Screen) (r : Rect) : ℕ := min r.h.toNat (s.yres.toNat - r.y.toNat)

variable {s : Screen} {r : Rect}

/-- One axis: an edge is clipped if it does not wrap. -/
theorem clip_edge {res x w : UInt32} (hx : x < res) (hwrap : x.toNat + w.toNat < 2 ^ 32) :
    (if res < x + w then res - x else w).toNat = min w.toNat (res.toNat - x.toNat) := by
  rw [UInt32.lt_iff_toNat_lt] at hx
  have hsub : (res - x).toNat = res.toNat - x.toNat :=
    UInt32.toNat_sub_of_le _ _ (UInt32.le_iff_toNat_le.2 (Nat.le_of_lt hx))
  have hadd : (x + w).toNat = x.toNat + w.toNat := by
    rw [UInt32.toNat_add, Nat.mod_eq_of_lt hwrap]
  split_ifs with h <;> rw [UInt32.lt_iff_toNat_lt, hadd] at h <;> omega

/-- An edge that wraps is not clipped: it comes out below the origin. -/
theorem clip_edge_of_wrap {res x w : UInt32} (hx : x < res) (hwrap : 2 ^ 32 ≤ x.toNat + w.toNat) :
    (if res < x + w then res - x else w) = w := by
  have hw := w.toNat_lt
  rw [UInt32.lt_iff_toNat_lt] at hx
  refine if_neg fun h => ?_
  rw [UInt32.lt_iff_toNat_lt, UInt32.toNat_add] at h
  omega

theorem originOk_iff : originOk s r = true ↔
    r.x < s.xres ∧ r.y < s.yres ∧ r.w ≠ 0 ∧ r.h ≠ 0 :=
  decide_eq_true_iff

theorem clip_width (ho : originOk s r = true) (hw : NoWrap r) : (clip s r).w.toNat = width s r :=
  clip_edge (originOk_iff.1 ho).1 hw.1

theorem clip_height (ho : originOk s r = true) (hw : NoWrap r) : (clip s r).h.toNat = height s r :=
  clip_edge (originOk_iff.1 ho).2.1 hw.2

/-- **Clipping** puts a rectangle on the screen exactly if its edges do not wrap. -/
theorem onScreen_clip_iff (ho : originOk s r = true) : OnScreen s (clip s r) ↔ NoWrap r := by
  obtain ⟨hx, hy, -, -⟩ := originOk_iff.1 ho
  constructor
  · rintro ⟨hright, hlower⟩
    have hxres := s.xres.toNat_lt
    have hyres := s.yres.toNat_lt
    constructor
    · by_contra hwrap
      rw [show (clip s r).w = r.w from clip_edge_of_wrap hx (by omega)] at hright
      dsimp only [clip] at hright
      omega
    · by_contra hwrap
      rw [show (clip s r).h = r.h from clip_edge_of_wrap hy (by omega)] at hlower
      dsimp only [clip] at hlower
      omega
  · intro hw
    rw [UInt32.lt_iff_toNat_lt] at hx hy
    rw [OnScreen, clip_width ho hw, clip_height ho hw, width, height]
    dsimp only [clip]
    omega

/-- A rectangle that is clipped keeps at least a pixel. -/
theorem width_pos (ho : originOk s r = true) : 0 < width s r ∧ 0 < height s r := by
  obtain ⟨hx, hy, hw, hh⟩ := originOk_iff.1 ho
  have hw' : r.w.toNat ≠ 0 := fun h => hw (UInt32.toNat_inj.1 h)
  have hh' : r.h.toNat ≠ 0 := fun h => hh (UInt32.toNat_inj.1 h)
  rw [UInt32.lt_iff_toNat_lt] at hx hy
  unfold width height
  omega

/-! ### The bytes that are read -/

/-- The end of the last pixel of a rectangle. -/
def lastByte (s : Screen) (x y w h : ℕ) : ℕ := (y + h - 1) * s.lineLength.toNat + 4 * (x + w)

/-- A pixel of the rectangle ends with the last one or before it. -/
theorem pixel_le_lastByte {x y w h row col : ℕ} (hrow : row < h) (hcol : col < w) :
    (y + row) * s.lineLength.toNat + 4 * (x + col) + 4 ≤ lastByte s x y w h := by
  have hmul : (y + row) * s.lineLength.toNat ≤ (y + h - 1) * s.lineLength.toNat :=
    Nat.mul_le_mul_right _ (by omega)
  unfold lastByte
  omega

theorem mem_pixelReads {o : ℕ} (hon : OnScreen s r) : o ∈ pixelReads s r ↔
    ∃ row < r.h.toNat, ∃ col < r.w.toNat,
      o = (r.y.toNat + row) * s.lineLength.toNat + 4 * (r.x.toNat + col) := by
  have hrow : ∀ row < r.h.toNat, (r.y + .ofNat row).toNat = r.y.toNat + row := fun row hrow => by
    have hlt := s.yres.toNat_lt
    have hlow := hon.2
    have hof : (UInt32.ofNat row).toNat = row := UInt32.toNat_ofNat_of_lt' (by
      unfold UInt32.size
      omega)
    rw [UInt32.toNat_add, hof, Nat.mod_eq_of_lt (by omega)]
  unfold pixelReads
  simp only [List.mem_flatMap, List.mem_map, List.mem_range]
  refine exists_congr fun row => and_congr_right fun hlt => exists_congr fun col =>
    and_congr_right fun _ => ?_
  rw [hrow row hlt, eq_comm, Nat.mul_add, Nat.add_assoc]

/-- **The loops read inside** `n` bytes exactly if the last pixel ends there. -/
theorem pixelReads_le_iff (hon : OnScreen s r) (hw : 0 < r.w.toNat) (hh : 0 < r.h.toNat) (n : ℕ) :
    (∀ o ∈ pixelReads s r, o + 4 ≤ n) ↔
      lastByte s r.x.toNat r.y.toNat r.w.toNat r.h.toNat ≤ n := by
  constructor
  · intro h
    have hlast := h _ ((mem_pixelReads hon).2
      ⟨r.h.toNat - 1, by omega, r.w.toNat - 1, by omega, rfl⟩)
    have hrow : r.y.toNat + (r.h.toNat - 1) = r.y.toNat + r.h.toNat - 1 := by omega
    rw [hrow] at hlast
    unfold lastByte
    omega
  · intro h o ho
    obtain ⟨row, hrow, col, hcol, rfl⟩ := (mem_pixelReads hon).1 ho
    exact Nat.le_trans (pixel_le_lastByte hrow hcol) h

/-- A pixel that is read once more is one of the rectangle, or lies before it in its row. -/
theorem cornerRead_le {x y : UInt32} {row col : ℕ} (hrow : row < r.h.toNat) (hcol : col < r.w.toNat)
    (hx : x.toNat = r.x.toNat + col) (hy : y.toNat = r.y.toNat + row) :
    cornerRead s x y + 4 ≤ lastByte s r.x.toNat r.y.toNat r.w.toNat r.h.toNat := by
  have hmul : (x * 4).toNat ≤ 4 * x.toNat := by
    rw [UInt32.toNat_mul, Nat.mul_comm]
    exact Nat.mod_le _ _
  have hle := pixel_le_lastByte (s := s) (x := r.x.toNat) (y := r.y.toNat) hrow hcol
  rw [← hx, ← hy] at hle
  unfold cornerRead
  omega

/-- The last pixel and the middle one of an edge that ends on the screen. -/
theorem edge_toNat {res x w : UInt32} (h : x.toNat + w.toNat ≤ res.toNat) (hw : 0 < w.toNat) :
    (x + w - 1).toNat = x.toNat + (w.toNat - 1) ∧ (x + w / 2).toNat = x.toNat + w.toNat / 2 := by
  have hres := res.toNat_lt
  have hone : (1 : UInt32).toNat = 1 := rfl
  have hadd : (x + w).toNat = x.toNat + w.toNat := by
    rw [UInt32.toNat_add, Nat.mod_eq_of_lt (by omega)]
  have hle : (1 : UInt32) ≤ x + w := UInt32.le_iff_toNat_le.2 (by rw [hadd, hone]; omega)
  constructor
  · rw [UInt32.toNat_sub_of_le _ _ hle, hadd, hone]
    omega
  · rw [UInt32.toNat_add, UInt32.toNat_div]
    exact Nat.mod_eq_of_lt (by rw [show (2 : UInt32).toNat = 2 from rfl]; omega)

theorem sampleReads_le_iff (hon : OnScreen s r) (hw : 0 < r.w.toNat) (hh : 0 < r.h.toNat) (n : ℕ) :
    (∀ o ∈ sampleReads s r, o + 4 ≤ n) ↔
      lastByte s r.x.toNat r.y.toNat r.w.toNat r.h.toNat ≤ n := by
  rw [← pixelReads_le_iff hon hw hh]
  refine ⟨fun h o ho => h o (List.mem_append_left _ ho), fun h o ho => ?_⟩
  rcases List.mem_append.1 ho with ho | ho
  · exact h o ho
  · have hlast := (pixelReads_le_iff hon hw hh n).1 h
    obtain ⟨hx, hcx⟩ := edge_toNat hon.1 hw
    obtain ⟨hy, hcy⟩ := edge_toNat hon.2 hh
    simp only [List.mem_cons, List.not_mem_nil, or_false] at ho
    refine Nat.le_trans ?_ hlast
    rcases ho with rfl | rfl | rfl | rfl | rfl
    · exact cornerRead_le hh hw rfl rfl
    · exact cornerRead_le hh (by omega) hx rfl
    · exact cornerRead_le (by omega) hw rfl hy
    · exact cornerRead_le (by omega) (by omega) hx hy
    · exact cornerRead_le (by omega) (by omega) hcx hcy

theorem mem_currentReads {o : ℕ} (hw : 4 * r.w.toNat < 2 ^ 32) : o ∈ currentReads r ↔
    ∃ row < r.h.toNat, ∃ col < r.w.toNat, o = row * (4 * r.w.toNat) + 4 * col := by
  have hpitch : (r.w * 4).toNat = 4 * r.w.toNat := by
    rw [UInt32.toNat_mul, Nat.mul_comm]
    exact Nat.mod_eq_of_lt hw
  unfold currentReads
  simp only [List.mem_flatMap, List.mem_map, List.mem_range, hpitch]
  exact exists_congr fun row => and_congr_right fun _ => exists_congr fun col =>
    and_congr_right fun _ => eq_comm

/-- **`dump_ppm_current` reads inside its buffer** exactly if the size of it did not wrap. -/
theorem currentReads_le_iff (hw : 0 < r.w.toNat) (hh : 0 < r.h.toNat)
    (hrow : 4 * r.w.toNat < 2 ^ 32) :
    (∀ o ∈ currentReads r, o + 4 ≤ currentBytes r) ↔ 4 * (r.w.toNat * r.h.toNat) < 2 ^ 32 := by
  have hend : (r.h.toNat - 1) * (4 * r.w.toNat) + 4 * r.w.toNat = 4 * (r.w.toNat * r.h.toNat) := by
    rw [← Nat.succ_mul, Nat.succ_eq_add_one, Nat.sub_add_cancel hh, Nat.mul_left_comm,
      Nat.mul_comm r.h.toNat]
  have hbytes : currentBytes r = 4 * (r.w.toNat * r.h.toNat) % 2 ^ 32 := by
    unfold currentBytes uint32
    omega
  rw [hbytes]
  constructor
  · intro h
    have hlast := h _ ((mem_currentReads hrow).2
      ⟨r.h.toNat - 1, by omega, r.w.toNat - 1, by omega, rfl⟩)
    omega
  · intro h o ho
    obtain ⟨row, hlt, col, hcol, rfl⟩ := (mem_currentReads hrow).1 ho
    have hmul : row * (4 * r.w.toNat) ≤ (r.h.toNat - 1) * (4 * r.w.toNat) :=
      Nat.mul_le_mul_right _ (by omega)
    rw [Nat.mod_eq_of_lt h]
    omega

/-! ### The memory that is read -/

/-- `e` bytes are there, whichever way `sample_rect` and `dump_ppm` get the screen: in what
`mmap` maps, if it can, and in the buffer of `read`, if that can give enough. -/
def Within (s : Screen) (e : ℕ) : Prop :=
  (0 < int32 (mapLen s) → e ≤ int32 (mapLen s)) ∧
    (int64 (mapLen s) ≤ max 0 (int32 (mapLen s)) → e ≤ uint32 (mapLen s))

/-- For all answers of the kernel. -/
theorem fbBytes_le_iff (s : Screen) (e : ℕ) :
    (∀ a n, a.Lawful s → fbBytes s a = some n → e ≤ n) ↔ Within s e := by
  constructor
  · intro h
    constructor
    · intro hpos
      have hle := h ⟨true, false, 0⟩ _ ⟨fun _ => hpos, Int.le_max_left _ _⟩ (if_pos rfl)
      omega
    · intro hread
      have hlawful : Answers.Lawful s ⟨false, true, max 0 (int32 (mapLen s))⟩ :=
        ⟨fun h => absurd h Bool.false_ne_true, Int.le_refl _⟩
      refine h _ _ hlawful ?_
      rw [fbBytes, if_neg Bool.false_ne_true, if_neg (not_not.2 rfl)]
      exact if_neg (Int.not_lt.2 hread)
  · rintro ⟨hmap, hread⟩ a n ⟨hpos, hn⟩ hbytes
    rw [fbBytes] at hbytes
    split_ifs at hbytes with hmapped halloc hshort
    · have hle := hmap (hpos hmapped)
      obtain rfl := Option.some.inj hbytes
      omega
    · obtain rfl := Option.some.inj hbytes
      exact hread (by omega)

/-- `sample_rect` clips its rectangle to the screen, and reads pixels inside the memory that
holds the screen. -/
def SampleSafe (s : Screen) (x y w h : List UInt8) : Prop :=
  ∀ r, sampleRect s x y w h = some r → OnScreen s r ∧
    ∀ a n, a.Lawful s → fbBytes s a = some n → ∀ o ∈ sampleReads s r, o + 4 ≤ n

/-- `dump_ppm` does so, and a row of the rectangle fits its buffer. -/
def PpmSafe (s : Screen) (x y w h : List UInt8) : Prop :=
  ∀ r₀ r, parseRect x y w h = some r₀ → dumpPpm s r₀ true = some r → OnScreen s r ∧
    (rowFits r = true → 3 * r.w.toNat ≤ rowSize ∧
      ∀ a n, a.Lawful s → fbBytes s a = some n → ∀ o ∈ pixelReads s r, o + 4 ≤ n)

/-- `dump_ppm_current` does so; it reads the pixels in a buffer of its own. -/
def CurrentSafe (s : Screen) (x y w h : List UInt8) : Prop :=
  ∀ r₀ r, parseRect x y w h = some r₀ → dumpPpmCurrent s r₀ true = some r → OnScreen s r ∧
    (rowFits r = true → 3 * r.w.toNat ≤ rowSize ∧ ∀ o ∈ currentReads r, o + 4 ≤ currentBytes r)

/-- The end of the last pixel of what is on the screen of a rectangle. -/
def lastOnScreen (s : Screen) (r : Rect) : ℕ :=
  lastByte s r.x.toNat r.y.toNat (width s r) (height s r)

theorem rowFits_iff : rowFits r = true ↔ 3 * r.w.toNat % 2 ^ 32 ≤ rowSize := by
  rw [rowFits, decide_eq_true_iff, UInt32.toNat_mul, Nat.mul_comm]
  rfl

/-- Three times a width is small if it is small in 32 bits and does not wrap. -/
theorem row_le_iff {w : ℕ} (h : 3 * w % 2 ^ 32 ≤ rowSize) : 3 * w ≤ rowSize ↔ 3 * w < 2 ^ 32 := by
  constructor
  · intro hle
    unfold rowSize at hle
    omega
  · intro hlt
    rwa [Nat.mod_eq_of_lt hlt] at h

/-- The pixels of a clipped rectangle, for all answers of the kernel. -/
theorem reads_iff {reads : Rect → List ℕ} (ho : originOk s r = true) (hw : NoWrap r)
    (hreads : ∀ r', OnScreen s r' → 0 < r'.w.toNat → 0 < r'.h.toNat → ∀ n,
      (∀ o ∈ reads r', o + 4 ≤ n) ↔
        lastByte s r'.x.toNat r'.y.toNat r'.w.toNat r'.h.toNat ≤ n) :
    (∀ a n, a.Lawful s → fbBytes s a = some n → ∀ o ∈ reads (clip s r), o + 4 ≤ n) ↔
      Within s (lastOnScreen s r) := by
  obtain ⟨hwidth, hheight⟩ := width_pos ho
  have hcw := clip_width ho hw
  have hch := clip_height ho hw
  have hread := hreads (clip s r) ((onScreen_clip_iff ho).2 hw) (by omega) (by omega)
  rw [hcw, hch] at hread
  rw [← fbBytes_le_iff]
  exact forall₂_congr fun a n => forall₂_congr fun _ _ => hread n

theorem sampleRect_eq_some {x y w h : List UInt8} {r : Rect} : sampleRect s x y w h = some r ↔
    ∃ r₀, parseRect x y w h = some r₀ ∧ layoutOk s = true ∧ originOk s r₀ = true ∧
      clip s r₀ = r := by
  unfold sampleRect
  cases parseRect x y w h with
  | none => simp
  | some r₀ =>
    rw [Option.bind_eq_bind, Option.bind_some, Option.ite_none_right_eq_some, Option.some_inj,
      and_assoc]
    simp

theorem dump_eq_some {layout : Bool} {r₀ r : Rect} : dump layout s r₀ true = some r ↔
    layout = true ∧ originOk s r₀ = true ∧ clip s r₀ = r := by
  unfold dump
  rw [if_pos rfl, Option.ite_none_right_eq_some, Option.some_inj, and_assoc]

/-- A dump whose pixels are right under a condition on the width. -/
theorem dump_safe_iff (reads : Rect → Prop) {cond : Prop} (ho : originOk s r = true)
    (hreads : NoWrap r → 3 * width s r ≤ rowSize → (reads (clip s r) ↔ cond)) :
    (OnScreen s (clip s r) ∧ (rowFits (clip s r) = true →
      3 * (clip s r).w.toNat ≤ rowSize ∧ reads (clip s r))) ↔
      NoWrap r ∧ (3 * width s r % 2 ^ 32 ≤ rowSize → 3 * width s r < 2 ^ 32 ∧ cond) := by
  rw [onScreen_clip_iff ho, rowFits_iff]
  refine and_congr_right fun hw => ?_
  rw [clip_width ho hw]
  refine forall_congr' fun hfits => ?_
  rw [row_le_iff hfits]
  refine and_congr_right fun hlt => hreads hw ((row_le_iff hfits).2 hlt)

theorem sampleSafe_iff (s : Screen) (x y w h : List UInt8) :
    SampleSafe s x y w h ↔ ∀ r, parseRect x y w h = some r → layoutOk s = true →
      originOk s r = true → NoWrap r ∧ Within s (lastOnScreen s r) := by
  have hsafe : ∀ r, originOk s r = true → ((OnScreen s (clip s r) ∧
      ∀ a n, a.Lawful s → fbBytes s a = some n → ∀ o ∈ sampleReads s (clip s r), o + 4 ≤ n) ↔
        NoWrap r ∧ Within s (lastOnScreen s r)) := by
    intro r ho
    rw [onScreen_clip_iff ho]
    exact and_congr_right fun hw => reads_iff ho hw fun r' => sampleReads_le_iff
  constructor
  · intro hs r hr hl ho
    exact (hsafe r ho).1 (hs _ (sampleRect_eq_some.2 ⟨r, hr, hl, ho, rfl⟩))
  · intro hc r hr
    obtain ⟨r₀, hr₀, hl, ho, rfl⟩ := sampleRect_eq_some.1 hr
    exact (hsafe r₀ ho).2 (hc r₀ hr₀ hl ho)

theorem ppmSafe_iff (s : Screen) (x y w h : List UInt8) :
    PpmSafe s x y w h ↔ ∀ r, parseRect x y w h = some r → layoutOk s = true →
      originOk s r = true → NoWrap r ∧ (3 * width s r % 2 ^ 32 ≤ rowSize →
        3 * width s r < 2 ^ 32 ∧ Within s (lastOnScreen s r)) := by
  have hsafe := fun r (ho : originOk s r = true) => dump_safe_iff
    (fun r => ∀ a n, a.Lawful s → fbBytes s a = some n → ∀ o ∈ pixelReads s r, o + 4 ≤ n)
    ho fun hw _ => reads_iff ho hw fun r' => pixelReads_le_iff
  constructor
  · intro hs r hr hl ho
    exact (hsafe r ho).1 (hs _ _ hr (dump_eq_some.2 ⟨hl, ho, rfl⟩))
  · intro hc r₀ r hr₀ hr
    obtain ⟨hl, ho, rfl⟩ := dump_eq_some.1 hr
    exact (hsafe r₀ ho).2 (hc r₀ hr₀ hl ho)

theorem currentSafe_iff (s : Screen) (x y w h : List UInt8) :
    CurrentSafe s x y w h ↔ ∀ r, parseRect x y w h = some r → s.bitsPerPixel = 32 →
      originOk s r = true → NoWrap r ∧ (3 * width s r % 2 ^ 32 ≤ rowSize →
        3 * width s r < 2 ^ 32 ∧ 4 * (width s r * height s r) < 2 ^ 32) := by
  have hreads : ∀ r, originOk s r = true → NoWrap r → 3 * width s r ≤ rowSize →
      ((∀ o ∈ currentReads (clip s r), o + 4 ≤ currentBytes (clip s r)) ↔
        4 * (width s r * height s r) < 2 ^ 32) := by
    intro r ho hw hrow
    obtain ⟨hwidth, hheight⟩ := width_pos ho
    have hcw := clip_width ho hw
    have hch := clip_height ho hw
    rw [currentReads_le_iff (by omega) (by omega) (by unfold rowSize at hrow; omega), hcw, hch]
  have hsafe := fun r (ho : originOk s r = true) => dump_safe_iff
    (fun r => ∀ o ∈ currentReads r, o + 4 ≤ currentBytes r) ho (hreads r ho)
  constructor
  · intro hs r hr hl ho
    exact (hsafe r ho).1 (hs _ _ hr (dump_eq_some.2 ⟨decide_eq_true hl, ho, rfl⟩))
  · intro hc r₀ r hr₀ hr
    obtain ⟨hl, ho, rfl⟩ := dump_eq_some.1 hr
    exact (hsafe r₀ ho).2 (hc r₀ hr₀ (of_decide_eq_true hl) ho)

/-- **When the three functions are safe.**  Of the rectangles that pass their checks, exactly
those whose edges fit into 32 bits, for which three times the clipped width does too (unless
the test of the row buffer refuses the wrapped product), and whose last pixel on the screen is
within the memory that is read. -/
theorem rect_safe_iff (s : Screen) (x y w h : List UInt8) :
    (SampleSafe s x y w h ↔ ∀ r, parseRect x y w h = some r → layoutOk s = true →
      originOk s r = true → NoWrap r ∧ Within s (lastOnScreen s r)) ∧
    (PpmSafe s x y w h ↔ ∀ r, parseRect x y w h = some r → layoutOk s = true →
      originOk s r = true → NoWrap r ∧ (3 * width s r % 2 ^ 32 ≤ rowSize →
        3 * width s r < 2 ^ 32 ∧ Within s (lastOnScreen s r))) ∧
    (CurrentSafe s x y w h ↔ ∀ r, parseRect x y w h = some r → s.bitsPerPixel = 32 →
      originOk s r = true → NoWrap r ∧ (3 * width s r % 2 ^ 32 ≤ rowSize →
        3 * width s r < 2 ^ 32 ∧ 4 * (width s r * height s r) < 2 ^ 32)) :=
  ⟨sampleSafe_iff s x y w h, ppmSafe_iff s x y w h, currentSafe_iff s x y w h⟩

/-- A screen of 1024 times 768 pixels. -/
def screen : Screen := ⟨1024, 768, 32, 4096⟩

/-- The numerals `1`, `0` and `4294967295`. -/
def one : List UInt8 := [49]
def zero : List UInt8 := [48]
def largest : List UInt8 := [52, 50, 57, 52, 57, 54, 55, 50, 57, 53]

theorem not_rect_safe :
    ¬SampleSafe screen one zero largest one ∧ ¬PpmSafe screen zero one one largest ∧
      ¬CurrentSafe screen zero one one largest := by
  refine ⟨fun h => ?_, fun h => ?_, fun h => ?_⟩
  · have hs : OnScreen screen ⟨1, 0, 4294967295, 1⟩ := (h _ (by decide)).1
    exact absurd hs.1 (by decide)
  · have hs : OnScreen screen ⟨0, 1, 1, 4294967295⟩ :=
      (h ⟨0, 1, 1, 4294967295⟩ _ (by decide) (by decide)).1
    exact absurd hs.2 (by decide)
  · have hs : OnScreen screen ⟨0, 1, 1, 4294967295⟩ :=
      (h ⟨0, 1, 1, 4294967295⟩ _ (by decide) (by decide)).1
    exact absurd hs.2 (by decide)

end Fbstat
end Tools
end V6User
