import V6User.Printf.Agree

/-!
# What `vsnprintf` leaves in the buffer

`lib/printf.c`: the stores of `vsnprintf` go to one place after the other from the start of
the buffer, and the NUL goes to the place after the last of them; the result is the number of
places as an `int`.

A buffer of any size gets the beginning of what a large buffer would get, and nothing is
stored beyond its end.  The result is the number of bytes exactly when that fits an `int`
(`vsnprintf_truncates_iff`).
-/

namespace V6User
namespace Printf

open Shell (Byte CStr)
open Bounded CInt

/-- The buffer after the bytes `out` and the NUL were stored in it. -/
def stored (buf : ℕ → Byte) (out : List Byte) (i : ℕ) : Byte :=
  if h : i < out.length then out[i] else if i = out.length then 0 else buf i

/-- `vsnprintf(buf, size, fmt, ap)`: the buffer and the result. -/
def vsnprintfCall (text : BitVec 64 → List Byte) (size : ℕ) (fmt : CStr) (ap : VaList)
    (buf : ℕ → Byte) : Option ((ℕ → Byte) × ℤ) :=
  if size = 0 then some (buf, 0)
  else (vsnprintf text size fmt ap).map fun out => (stored buf out, int32 out.length)

/-- The call leaves the first `min (size - 1) L` of the `L` bytes that every buffer gets that
is large enough for them, a NUL after them, and its result `r` is their number; beyond the end
of the buffer nothing is stored. -/
def Truncates (text : BitVec 64 → List Byte) (size : ℕ) (fmt : CStr) (ap : VaList)
    (buf : ℕ → Byte) : Prop :=
  ∃ whole, (∀ large, whole.length < large → vsnprintf text large fmt ap = some whole) ∧
    ∃ (buf' : ℕ → Byte) (r : ℕ), vsnprintfCall text size fmt ap buf = some (buf', (r : ℤ)) ∧
      r = min (size - 1) whole.length ∧ r < size ∧ buf' r = 0 ∧
      (∀ i, i < r → some (buf' i) = whole[i]?) ∧ ∀ i, size ≤ i → buf' i = buf i

variable {text : BitVec 64 → List Byte} {size : ℕ} {fmt : CStr} {ap : VaList} {buf : ℕ → Byte}
  {out whole : List Byte}

theorem stored_of_lt {i : ℕ} (h : i < out.length) : some (stored buf out i) = out[i]? := by
  rw [stored, dif_pos h, List.getElem?_eq_getElem h]

theorem stored_length : stored buf out out.length = 0 := by
  rw [stored, dif_neg (Nat.lt_irrefl _), if_pos rfl]

theorem stored_of_gt {i : ℕ} (h : out.length < i) : stored buf out i = buf i := by
  rw [stored, dif_neg (by omega), if_neg (by omega)]

/-- What a buffer of some size gets. -/
theorem vsnprintf_eq_take (hsize : 1 ≤ size) (hc : endsInside fmt.bytes = false) :
    vsnprintf text size fmt ap =
      some ((rendered text [37, 110] fmt.bytes ap).take (size - 1)) := by
  rw [vsnprintf, if_neg (by omega), vsnprintfLoop_eq hc, pushAll_eq (Nat.zero_le _),
    List.nil_append]

theorem vsnprintfCall_eq (text : BitVec 64 → List Byte) (ap : VaList) (buf : ℕ → Byte)
    (hsize : 1 ≤ size) (hc : endsInside fmt.bytes = false) :
    vsnprintfCall text size fmt ap buf =
      some (stored buf ((rendered text [37, 110] fmt.bytes ap).take (size - 1)),
        int32 (min (size - 1) (rendered text [37, 110] fmt.bytes ap).length : ℕ)) := by
  rw [vsnprintfCall, if_neg (by omega), vsnprintf_eq_take hsize hc, Option.map_some,
    List.length_take]

/-- What is stored is what every large buffer gets. -/
theorem rendered_of_large (hc : endsInside fmt.bytes = false)
    (h : ∀ large, whole.length < large → vsnprintf text large fmt ap = some whole) :
    whole = rendered text [37, 110] fmt.bytes ap := by
  have hlarge := h ((rendered text [37, 110] fmt.bytes ap).length + whole.length + 1) (by omega)
  rw [vsnprintf_eq (by exact hc) (by omega)] at hlarge
  exact (Option.some.inj hlarge).symm

/-- **What `vsnprintf` leaves.**  For every buffer with a size, every format in which each
directive has its conversion character and all arguments, the call does what `Truncates` says
exactly when the number of bytes that it stores is below 2^31. -/
theorem vsnprintf_truncates_iff (text : BitVec 64 → List Byte) {size : ℕ} {fmt : CStr}
    (ap : VaList) (buf : ℕ → Byte) (hsize : 1 ≤ size) (hc : endsInside fmt.bytes = false) :
    Truncates text size fmt ap buf ↔
      min (size - 1) (rendered text [37, 110] fmt.bytes ap).length < 2 ^ 31 := by
  have hlen : ((rendered text [37, 110] fmt.bytes ap).take (size - 1)).length =
      min (size - 1) (rendered text [37, 110] fmt.bytes ap).length := List.length_take
  have hcall := vsnprintfCall_eq text ap buf hsize hc
  constructor
  · rintro ⟨whole, hlarge, buf', r, hr, hmin, -⟩
    obtain rfl := rendered_of_large hc hlarge
    rw [hcall] at hr
    have hint := (Prod.mk.inj (Option.some.inj hr)).2
    rw [← hmin] at hint ⊢
    have hbound := (int32_bounds (r : ℤ)).2
    omega
  · intro hfits
    refine ⟨_, fun large hl => vsnprintf_eq hc hl,
      stored buf ((rendered text [37, 110] fmt.bytes ap).take (size - 1)), _, ?_, rfl, by omega,
      ?_, ?_, ?_⟩
    · rw [hcall, int32_of_range (by omega) (by omega)]
    · rw [← hlen]
      exact stored_length
    · intro i hi
      rw [stored_of_lt (by omega), List.getElem?_take_of_lt (by omega)]
    · intro i hi
      exact stored_of_gt (by omega)

/-- `snprintf(buf, 3, "%d", 500)`. -/
theorem vsnprintf_truncates_iff_decimal :
    Truncates (fun _ => []) 3 ⟨[37, 100], by decide⟩ (fun _ => 500) fun _ => 1 := by
  have hskip : skipSpec [100] = [100] := rfl
  have hc : endsInside [37, 100] = false := by
    rw [endsInside_directive hskip, endsInside_nil]
  exact (vsnprintf_truncates_iff (fun _ => []) (fun _ => 500) (fun _ => 1) (by decide) hc).2
    (by omega)

/-- **`%2147483647d%d` in a buffer of 2^31 + 1 bytes** gives 2^31 bytes, and the result is
-2^31. -/
theorem vsnprintf_not_truncates :
    endsInside [37, 50, 49, 52, 55, 52, 56, 51, 54, 52, 55, 100, 37, 100] = false ∧
      ¬Truncates (fun _ => []) (2 ^ 31 + 1)
        ⟨[37, 50, 49, 52, 55, 52, 56, 51, 54, 52, 55, 100, 37, 100], by decide⟩ (fun _ => 5)
        fun _ => 0 := by
  have hwide : skipSpec [50, 49, 52, 55, 52, 56, 51, 54, 52, 55, 100, 37, 100] = [100, 37, 100] := rfl
  have hskip : skipSpec [100] = [100] := rfl
  have hc : endsInside [37, 50, 49, 52, 55, 52, 56, 51, 54, 52, 55, 100, 37, 100] = false := by
    rw [endsInside_directive hwide, endsInside_directive hskip, endsInside_nil]
  refine ⟨hc, ?_⟩
  -- the first directive is rendered as 2^31 - 1 bytes, the second one as one
  have hrendered : (rendered (fun _ => []) [37, 110]
      [37, 50, 49, 52, 55, 52, 56, 51, 54, 52, 55, 100, 37, 100] fun _ => 5).length = 2 ^ 31 := by
    have hfive : formatInt (vaSigned 0 fun _ => 5) 10 true {} = [53] := by decide
    have hfirst : renderNumber ⟨{}, 2147483647, -1, 0⟩ [53] =
        List.replicate (padLen 2147483647 1) 32 ++ [53] := rfl
    have hpad : padLen 2147483647 1 = 2147483646 := by decide
    have hsecond : renderNumber ⟨{}, 0, -1, 0⟩ [53] = [53] := by decide
    have hwhole : rendered (fun _ => []) [37, 110]
        [37, 50, 49, 52, 55, 52, 56, 51, 54, 52, 55, 100, 37, 100] (fun _ => 5) =
        renderNumber ⟨{}, 2147483647, -1, 0⟩ (formatInt (vaSigned 0 fun _ => 5) 10 true {}) ++
          (renderNumber ⟨{}, 0, -1, 0⟩ (formatInt (vaSigned 0 fun _ => 5) 10 true {}) ++ []) := by
      rw [rendered, items_directive hwide, items_directive hskip, items_nil]
      rfl
    rw [hwhole, hfive, hfirst, hsecond, hpad, List.append_nil, List.length_append,
      List.length_append, List.length_replicate]
    rfl
  rintro ⟨whole, hlarge, buf', r, hr, -⟩
  rw [vsnprintfCall_eq _ _ _ (by decide) hc, hrendered] at hr
  have hr := (Prod.mk.inj (Option.some.inj hr)).2
  have hneg : int32 (min (2 ^ 31 + 1 - 1) (2 ^ 31) : ℕ) < 0 := int32_neg_iff.2 (by decide)
  rw [hr] at hneg
  exact absurd hneg (by omega)

end Printf
end V6User
