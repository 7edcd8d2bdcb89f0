import Mathlib.Algebra.Ring.Int.Defs
import Mathlib.Data.Nat.Sqrt
import V6User.Base.Bisect
import V6User.Base.CInt

/-!
# The regions and the square root of the hover probe

`programs/hoverprobe/hoverprobe.c`: `isqrt_ll`, `clamp_abs16`, and the lines of `main` that
choose the region of interest and the menu region.

The square root is a search by halves, in 64 bits, that divides where others would square.  It
neither overflows nor divides by zero, and returns the integer square root, or 40000000 if that
is less (`isqrtLl_correct`).

A region is put around a pixel and then moved onto the screen, from the left and from above,
from the right and from below, and once more.  That makes it lie on the screen exactly if it
is not larger than the screen, which is not checked (`regions_onScreen_iff`).
-/

namespace V6User
namespace Tools
namespace Hoverprobe

open Bisect CInt

/-! ### The square root -/

/-- Why a run of the square root would not return. -/
inductive Stop where
  | overflow
  | divByZero
  deriving DecidableEq, Repr

/-- A result of type `long long`. -/
def longLong (x : ℤ) : Except Stop ℤ :=
  if -2 ^ 63 ≤ x ∧ x < 2 ^ 63 then .ok x else .error .overflow

/-- A division of two `long long`s. -/
def quotient (a b : ℤ) : Except Stop ℤ :=
  if b = 0 then .error .divByZero else longLong (a.tdiv b)

/-- The `while` loop of `isqrt_ll`; the middle is `lo + (hi - lo + 1) / 2`. -/
def isqrtLoop (v lo hi : ℤ) : Except Stop ℤ :=
  if lo < hi then do
    let _ ← longLong (hi - lo)
    let span ← longLong (hi - lo + 1)
    let half ← quotient span 2
    let _ ← longLong (lo + half)
    let q ← quotient v (middle lo hi)
    if middle lo hi ≤ q then isqrtLoop v (middle lo hi) hi
    else do
      let _ ← longLong (middle lo hi - 1)
      isqrtLoop v lo (middle lo hi - 1)
  else .ok lo
termination_by (hi - lo).toNat
decreasing_by
  all_goals
    have hmiddle := middle_bounds ‹lo < hi›
    clear * - hmiddle
    omega

/-- The limit of the search: 40 seconds in microseconds. -/
def limit : ℤ := 40000000

/-- `isqrt_ll(v)`. -/
def isqrtLl (v : ℤ) : Except Stop ℤ := if v ≤ 0 then .ok 0 else isqrtLoop v 0 limit

variable {v lo hi x a b : ℤ}

theorem longLong_eq (hlo : -2 ^ 63 ≤ x) (hhi : x < 2 ^ 63) : longLong x = .ok x :=
  if_pos ⟨hlo, hhi⟩

theorem quotient_eq (hb : 0 < b) (ha : 0 ≤ a) (hhi : a < 2 ^ 63) : quotient a b = .ok (a / b) := by
  have hle := Int.ediv_le_self b ha
  have hpos := Int.ediv_nonneg ha (Int.le_of_lt hb)
  rw [quotient, if_neg (Int.ne_of_gt hb), Int.tdiv_eq_ediv_of_nonneg ha,
    longLong_eq (by omega) (by omega)]

/-- A turn of the loop: nothing overflows and nothing is divided by zero. -/
theorem isqrtLoop_step (hv : 0 ≤ v) (hmax : v < 2 ^ 63) (hlt : lo < hi) (hlo : 0 ≤ lo)
    (hhi : hi ≤ limit) :
    isqrtLoop v lo hi =
      if middle lo hi ≤ v / middle lo hi then isqrtLoop v (middle lo hi) hi
      else isqrtLoop v lo (middle lo hi - 1) := by
  have hlimit : limit = 40000000 := rfl
  have hmiddle := middle_bounds hlt
  have hhalf := Int.ediv_le_self 2 (show 0 ≤ hi - lo + 1 by omega)
  have hspan : longLong (hi - lo + 1) = .ok (hi - lo + 1) := longLong_eq (by omega) (by omega)
  rw [isqrtLoop, if_pos hlt, longLong_eq (by omega) (by omega), hspan]
  show (quotient (hi - lo + 1) 2 >>= _) = _
  rw [quotient_eq (by omega) (by omega) (by omega)]
  show (longLong (lo + (hi - lo + 1) / 2) >>= _) = _
  rw [longLong_eq (by omega) (by omega)]
  show (quotient v (middle lo hi) >>= _) = _
  rw [quotient_eq (by omega) hv hmax, longLong_eq (by omega) (by omega)]
  rfl

/-- The loop is a search by halves. -/
theorem isqrtLoop_eq (hv : 0 ≤ v) (hmax : v < 2 ^ 63) (hlo : 0 ≤ lo) (hhi : hi ≤ limit) :
    isqrtLoop v lo hi = .ok (bisect (fun m => decide (m ≤ v / m)) lo hi) := by
  fun_induction bisect (fun m => decide (m ≤ v / m)) lo hi with
  | case1 lo hi hlt hp ih =>
    have hmiddle := middle_bounds hlt
    rw [isqrtLoop_step hv hmax hlt hlo hhi, if_pos (of_decide_eq_true hp), ih (by omega) hhi]
  | case2 lo hi hlt hp ih =>
    have hmiddle := middle_bounds hlt
    have hnot : ¬middle lo hi ≤ v / middle lo hi := fun h => hp (decide_eq_true h)
    rw [isqrtLoop_step hv hmax hlt hlo hhi, if_neg hnot, ih hlo (by omega)]
  | case3 lo hi hle => rw [isqrtLoop, if_neg hle]

/-- The test by division is the one by squaring. -/
theorem le_div_self_iff {m n : ℕ} (hm : 0 < m) : ((m : ℤ) ≤ n / m) ↔ m ≤ n.sqrt := by
  rw [Nat.le_sqrt, ← Nat.le_div_iff_mul_le hm]
  exact_mod_cast Iff.rfl

/-- **The square root.**  For every 64-bit number the search ends without an overflow and
without a division by zero, with 0 for a number that is not positive, and otherwise with the
integer square root or the limit, whichever is less. -/
theorem isqrtLl_correct (v : Int64) :
    isqrtLl v.toInt = .ok (if v.toInt ≤ 0 then 0 else min limit (v.toInt.toNat.sqrt : ℤ)) := by
  have hmax := v.toInt_lt
  rw [isqrtLl]
  generalize v.toInt = x at *
  split_ifs with hv
  · rfl
  obtain ⟨n, rfl⟩ := Int.eq_ofNat_of_zero_le (show 0 ≤ x by omega)
  have hlimit : 0 ≤ limit := by decide
  rw [isqrtLoop_eq (Int.natCast_nonneg n) hmax (Int.le_refl 0) (Int.le_refl limit),
    Int.toNat_natCast]
  refine congrArg Except.ok ?_
  have htest : ∀ k : ℤ, 0 < k → (decide (k ≤ (n : ℤ) / k) = true ↔ k ≤ n.sqrt) := by
    intro k hk
    obtain ⟨m, rfl⟩ := Int.eq_ofNat_of_zero_le (Int.le_of_lt hk)
    rw [decide_eq_true_iff, le_div_self_iff (Int.ofNat_lt.1 hk), Int.ofNat_le]
  have hmono : ∀ a b : ℤ, 0 < a → a ≤ b → b ≤ limit → decide (b ≤ (n : ℤ) / b) = true →
      decide (a ≤ (n : ℤ) / a) = true := by
    intro a b ha hab _ hb
    rw [htest b (by omega)] at hb
    exact (htest a ha).2 (Int.le_trans hab hb)
  obtain ⟨hge, hle⟩ := bisect_bounds (p := fun m => decide (m ≤ (n : ℤ) / m)) hlimit
  have hholds := @bisect_holds (fun m => decide (m ≤ (n : ℤ) / m)) 0 limit
  have hfails := fun k => bisect_fails (k := k) hmono
  generalize bisect (fun m => decide (m ≤ (n : ℤ) / m)) 0 limit = r at *
  have hsqrt : r ≤ n.sqrt := by
    by_cases hr : 0 < r
    · exact (htest r hr).1 (hholds hr)
    · omega
  by_cases hlt : r < limit
  · -- the next number fails the test
    have hnext := hfails (r + 1) (by omega) (by omega)
    rw [← Bool.not_eq_true, htest (r + 1) (by omega)] at hnext
    omega
  · omega

/-! ### The regions -/

/-- `clamp_abs16`. -/
def clampAbs16 (v : ℤ) : ℤ := if v < 0 then 0 else if 65535 < v then 65535 else v

/-- `(int)(((long long)abs * (res - 1) + 32767) / 65535)`; `res - 1` is a `uint32`. -/
def toPixel (abs : ℤ) (res : UInt32) : ℤ := int32 ((abs * (res - 1).toNat + 32767).tdiv 65535)

/-- `if (rw < 4) rw = 4;`. -/
def atLeastFour (size : ℤ) : ℤ := if size < 4 then 4 else size

/-- `if (rx < 0) rx = 0;`. -/
def notNegative (x : ℤ) : ℤ := if x < 0 then 0 else x

/-- `if ((uint32)(rx + rw) > xres) rx = (int)xres - rw;`. -/
def insideEnd (x size : ℤ) (res : UInt32) : ℤ :=
  if res.toNat < uint32 (x + size) then int32 (int32 res.toNat - size) else x

/-- Where a region of some size around a pixel begins: it is centred, and clamped three times. -/
def place (pixel size : ℤ) (res : UInt32) : ℤ :=
  notNegative (insideEnd (notNegative (int32 (pixel - size.tdiv 2))) size res)

/-- `x`, `y`, `w` and `h` of the request. -/
structure Region where
  x : ℕ
  y : ℕ
  w : ℕ
  h : ℕ
  deriving DecidableEq, Repr

/-- The region around a pixel. -/
def region (px py rw rh : ℤ) (xres yres : UInt32) : Region :=
  ⟨uint32 (place px (atLeastFour rw) xres), uint32 (place py (atLeastFour rh) yres),
    uint32 (atLeastFour rw), uint32 (atLeastFour rh)⟩

/-- The region of interest: `icon_x`, `icon_y`, `rw` and `rh` are arguments of the program. -/
def roi (iconX iconY rw rh : ℤ) (xres yres : UInt32) : Region :=
  region (toPixel (clampAbs16 iconX) xres) (toPixel (clampAbs16 iconY) yres) rw rh xres yres

/-- The menu region: `menu_px_x`, `menu_px_y`, `menu_rw` and `menu_rh` are arguments of the
program. -/
def menuRoi (menuPxX menuPxY menuRw menuRh : ℤ) (xres yres : UInt32) : Region :=
  region menuPxX menuPxY menuRw menuRh xres yres

/-- The region is on the screen. -/
def OnScreen (r : Region) (xres yres : UInt32) : Prop :=
  r.x + r.w ≤ xres.toNat ∧ r.y + r.h ≤ yres.toNat

instance (r : Region) (xres yres : UInt32) : Decidable (OnScreen r xres yres) :=
  inferInstanceAs (Decidable (_ ∧ _))

variable {size pixel px py rw rh : ℤ} {res xres yres : UInt32}

/-- **One direction**: wherever the pixel is, a region that is not larger than the screen is
placed on it. -/
theorem place_inside_iff (pixel : ℤ) (res : UInt32) (hlo : 0 < size) (hhi : size < 2 ^ 31) :
    uint32 (place pixel size res) + uint32 size ≤ res.toNat ↔ size ≤ res.toNat := by
  have hres := res.toNat_lt
  have hsize : uint32 size = size := by
    rw [uint32_of_range (by omega) (by omega), Int.toNat_of_nonneg (by omega)]
  constructor
  · omega
  · intro hle
    have hbounds := int32_bounds (pixel - size.tdiv 2)
    have hsub : int32 (int32 res.toNat - size) = int32 (res.toNat - size) := Int.bmod_sub_bmod ..
    rw [place]
    generalize int32 (pixel - size.tdiv 2) = start at *
    -- the first clamp leaves a number from 0 on, so that the sum does not wrap
    obtain ⟨x, hx, hx₀, hx₁⟩ : ∃ x, notNegative start = x ∧ 0 ≤ x ∧ x < 2 ^ 31 := by
      refine ⟨_, rfl, ?_, ?_⟩ <;> unfold notNegative <;> split_ifs <;> omega
    have hsum : uint32 (x + size) = x + size := by
      rw [uint32_of_range (by omega) (by omega), Int.toNat_of_nonneg (by omega)]
    rw [hx, insideEnd, hsub]
    split_ifs with hend
    · by_cases hsmall : res.toNat - size < 2 ^ 31
      · rw [int32_of_range (by omega) hsmall, notNegative, if_neg (by omega),
          uint32_of_range (by omega) (by omega)]
        omega
      · rw [int32_of_high (by omega) (by omega), notNegative, if_pos (by omega)]
        rw [uint32_of_range (x := 0) (by omega) (by omega)]
        omega
    · rw [notNegative, if_neg (by omega), uint32_of_range hx₀ (by omega)]
      omega

/-- Both directions. -/
theorem region_onScreen_iff (hw : rw < 2 ^ 31) (hh : rh < 2 ^ 31) :
    OnScreen (region px py rw rh xres yres) xres yres ↔
      max 4 rw ≤ xres.toNat ∧ max 4 rh ≤ yres.toNat := by
  have hfour : ∀ size : ℤ, atLeastFour size = max 4 size := fun size => by
    unfold atLeastFour
    split_ifs <;> omega
  rw [OnScreen, region, hfour, hfour]
  exact and_congr (place_inside_iff px xres (by omega) (by omega))
    (place_inside_iff py yres (by omega) (by omega))

/-- **When the regions are on the screen.**  For every position and size that the arguments may
give, and every resolution: exactly if the size, which is made at least 4 by 4, is not larger
than the screen. -/
theorem regions_onScreen_iff (x y w h : Int32) (xres yres : UInt32) :
    (OnScreen (roi x.toInt y.toInt w.toInt h.toInt xres yres) xres yres ↔
      max 4 w.toInt ≤ xres.toNat ∧ max 4 h.toInt ≤ yres.toNat) ∧
    (OnScreen (menuRoi x.toInt y.toInt w.toInt h.toInt xres yres) xres yres ↔
      max 4 w.toInt ≤ xres.toNat ∧ max 4 h.toInt ≤ yres.toNat) :=
  ⟨region_onScreen_iff w.toInt_lt h.toInt_lt, region_onScreen_iff w.toInt_lt h.toInt_lt⟩

/-- A region of 2000 by 40 pixels on a screen of 1280 by 800. -/
theorem regions_not_onScreen :
    roi 11000 64200 2000 40 1280 800 = ⟨0, 760, 2000, 40⟩ ∧
      menuRoi 215 783 2000 40 1280 800 = ⟨0, 760, 2000, 40⟩ ∧
      ¬OnScreen ⟨0, 760, 2000, 40⟩ 1280 800 := by
  decide +kernel

end Hoverprobe
end Tools
end V6User
