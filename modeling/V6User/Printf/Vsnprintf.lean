import V6User.Base.Bounded
import V6User.Printf.Items

/-!
# `vsnprintf`

`lib/printf.c`: `vsnprintf`, the second copy of the loop, which writes to a buffer that has
an end.

What it stores is the beginning of what the format is rendered as, where `%n` has no case of
its own and stands for itself (`vsnprintfLoop_eq`), unless the format ends inside a directive
and the buffer has room for all before that (`vsnprintfLoop_eq_none`).
-/

namespace V6User
namespace Printf

open Shell (Byte)
open Bounded

/-- What `vsnprintf` does for `%p`, `%s` and for numbers that are not filled with zeros. -/
def snprintPadded (cap : ℕ) (left : Bool) (padlen : ℕ) (s out : List Byte) : List Byte :=
  let out := if !left then pushAll cap (List.replicate padlen 32) out else out
  let out := pushAll cap s out
  if left then pushAll cap (List.replicate padlen 32) out else out

/-- What `vsnprintf` does at `snprint_number`. -/
def snprintNumber (cap : ℕ) (spec : Spec) (numbuf out : List Byte) : List Byte :=
  let padlen := padLen spec.width numbuf.length
  if spec.flags.zero && !spec.flags.left && decide (0 < numbuf.length) then
    let prefixlen := prefixLen numbuf
    let out := pushAll cap (numbuf.take prefixlen) out
    let out := pushAll cap (List.replicate padlen 48) out
    pushAll cap (numbuf.drop prefixlen) out
  else snprintPadded cap spec.flags.left padlen numbuf out

/-- What `vsnprintf` does for `%c`: the argument is read only where there is room for it. -/
def snprintChar (cap : ℕ) (spec : Spec) (ap : VaList) (out : List Byte) : List Byte × VaList :=
  let pad := List.replicate (padLen spec.width 1) 32
  let out := if !spec.flags.left then pushAll cap pad out else out
  let room := out.length < cap
  let ap' := if room then ap.rest else ap
  let out := if room then out ++ [.ofBitVec ((ap 0).setWidth 8)] else out
  (if spec.flags.left then pushAll cap pad out else out, ap')

/-- The `switch` of `vsnprintf`: what is stored after it, and the arguments that are left. -/
def vsnprintfConv (text : BitVec 64 → List Byte) (cap : ℕ) (spec : Spec) (c : Byte) (ap : VaList)
    (out : List Byte) : List Byte × VaList :=
  let flags := spec.flags
  match c with
  | 100 => (snprintNumber cap spec (formatInt (vaSigned spec.isLong ap) 10 true flags) out, ap.rest)
  | 105 => (snprintNumber cap spec (formatInt (vaSigned spec.isLong ap) 10 true flags) out, ap.rest)
  | 117 => (snprintNumber cap spec (formatInt (vaUnsigned spec.isLong ap) 10 false flags) out,
      ap.rest)
  | 120 =>
    let flags := { flags with upper := false }
    (snprintNumber cap spec (formatInt (vaUnsigned spec.isLong ap) 16 false flags) out, ap.rest)
  | 88 =>
    let flags := { flags with upper := true }
    (snprintNumber cap spec (formatInt (vaUnsigned spec.isLong ap) 16 false flags) out, ap.rest)
  | 111 => (snprintNumber cap spec (formatInt (vaUnsigned spec.isLong ap) 8 false flags) out,
      ap.rest)
  | 112 =>
    let numbuf := formatPtr (ap 0)
    (snprintPadded cap flags.left (padLen spec.width numbuf.length) numbuf out, ap.rest)
  | 115 =>
    let s := stringArg text (ap 0)
    let slen := stringLen spec.precision s
    (snprintPadded cap flags.left (padLen spec.width slen) (s.take slen.toNat) out, ap.rest)
  | 99 => snprintChar cap spec ap out
  | 37 => (pushAll cap [37] out, ap)
  | c => (pushAll cap [c] (pushAll cap [37] out), ap)

/-- The loop of `vsnprintf`, with what is stored and the places that there are besides that
of the NUL: what is stored in the end, or `none` where a byte behind the NUL of the format
is read. -/
def vsnprintfLoop (text : BitVec 64 → List Byte) (cap : ℕ) (fmt : List Byte) (ap : VaList)
    (out : List Byte) : Option (List Byte) :=
  match fmt with
  | [] => some out
  | c :: fmt =>
    if out.length < cap then
      if c ≠ 37 then vsnprintfLoop text cap fmt ap (out ++ [c])
      else if fmt = [] then some out
      else
        match _h : (parseSpec fmt ap).2.1 with
        -- the conversion character is the NUL, and the loop goes on with the byte after it
        | [] => none
        | c :: rest =>
          let r := vsnprintfConv text cap (parseSpec fmt ap).1 c (parseSpec fmt ap).2.2 out
          vsnprintfLoop text cap rest r.2 r.1
    else some out
termination_by fmt.length
decreasing_by
  · exact Nat.lt_succ_self _
  · have := length_parseSpec fmt ap
    rw [_h, List.length_cons] at this
    exact Nat.lt_succ_of_lt this

/-- `vsnprintf(buf, size, fmt, ap)`: the bytes that it stores before the NUL. -/
def vsnprintf (text : BitVec 64 → List Byte) (size : ℕ) (fmt : Shell.CStr) (ap : VaList) :
    Option (List Byte) :=
  if size = 0 then some [] else vsnprintfLoop text (size - 1) fmt.bytes ap []

section Stored

variable {text : BitVec 64 → List Byte} {cap padlen : ℕ} {s out fmt : List Byte} {c : Byte}
  {spec : Spec} {ap : VaList}

theorem snprintPadded_eq {left : Bool} :
    snprintPadded cap left padlen s out = pushAll cap (padded left padlen s) out := by
  rw [snprintPadded, padded]
  cases left with
  | true => exact pushAll_pushAll
  | false => exact pushAll_pushAll

theorem snprintNumber_eq {numbuf : List Byte} :
    snprintNumber cap spec numbuf out = pushAll cap (renderNumber spec numbuf) out := by
  rw [snprintNumber, renderNumber]
  split_ifs
  · dsimp only
    rw [pushAll_pushAll, pushAll_pushAll, List.append_assoc]
  · exact snprintPadded_eq

theorem snprintChar_eq : (snprintChar cap spec ap out).1 = pushAll cap
    (padded spec.flags.left (padLen spec.width 1) [.ofBitVec ((ap 0).setWidth 8)]) out := by
  rw [← snprintPadded_eq]
  rfl

/-- Where there is room after it, the argument was read. -/
theorem snprintChar_rest : (snprintChar cap spec ap out).1.length < cap →
    (snprintChar cap spec ap out).2 = ap.rest := by
  unfold snprintChar
  extract_lets pad out₁ room ap' out₂
  intro h
  by_cases hroom : room
  · exact if_pos hroom
  · -- a buffer that was full is full
    have hout : out₂ = out₁ := if_neg hroom
    have hfull : (if spec.flags.left = true then pushAll cap pad out₂ else out₂) = out₁ := by
      rw [hout]
      split_ifs
      · exact pushAll_of_full hroom
      · rfl
    dsimp only at h
    rw [hfull] at h
    exact absurd h hroom

/-- The `switch` stores what the directive is rendered as, while there is room. -/
theorem vsnprintfConv_eq (text : BitVec 64 → List Byte) (cap : ℕ) (spec : Spec) (c : Byte)
    (ap : VaList) (out : List Byte) :
    (vsnprintfConv text cap spec c ap out).1 =
        pushAll cap (renderConv text [37, 110] spec c ap) out ∧
      ((vsnprintfConv text cap spec c ap out).1.length < cap →
        (vsnprintfConv text cap spec c ap out).2 = afterConv c ap) := by
  unfold vsnprintfConv renderConv
  split
  · exact ⟨snprintNumber_eq, fun _ => rfl⟩
  · exact ⟨snprintNumber_eq, fun _ => rfl⟩
  · exact ⟨snprintNumber_eq, fun _ => rfl⟩
  · exact ⟨snprintNumber_eq, fun _ => rfl⟩
  · exact ⟨snprintNumber_eq, fun _ => rfl⟩
  · exact ⟨snprintNumber_eq, fun _ => rfl⟩
  · exact ⟨snprintPadded_eq, fun _ => rfl⟩
  · exact ⟨snprintPadded_eq, fun _ => rfl⟩
  · exact ⟨snprintChar_eq, snprintChar_rest⟩
  · exact ⟨rfl, fun _ => rfl⟩
  · constructor
    · dsimp only
      rw [pushAll_pushAll]
      split <;> first | rfl | contradiction
    · intro _
      have hnone : takesArg c = false := by
        unfold takesArg
        split <;> first | rfl | contradiction
      rw [afterConv, hnone]
      rfl

theorem vsnprintfLoop_full (h : ¬out.length < cap) : vsnprintfLoop text cap fmt ap out = some out := by
  cases fmt with
  | nil => rw [vsnprintfLoop]
  | cons c fmt => rw [vsnprintfLoop, if_neg h]

theorem vsnprintfLoop_byte (hroom : out.length < cap) (h : c ≠ 37) :
    vsnprintfLoop text cap (c :: fmt) ap out = vsnprintfLoop text cap fmt ap (out ++ [c]) := by
  rw [vsnprintfLoop, if_pos hroom, if_pos h]

theorem vsnprintfLoop_percent : vsnprintfLoop text cap [37] ap out = some out := by
  by_cases hroom : out.length < cap
  · rw [vsnprintfLoop, if_pos hroom, if_neg (not_not.2 rfl), if_pos rfl]
  · exact vsnprintfLoop_full hroom

theorem vsnprintfLoop_inside (hroom : out.length < cap) (hfmt : fmt ≠ []) (h : skipSpec fmt = []) :
    vsnprintfLoop text cap (37 :: fmt) ap out = none := by
  rw [vsnprintfLoop, if_pos hroom, if_neg (not_not.2 rfl), if_neg hfmt]
  split
  · rfl
  · next heq => exact absurd ((h.symm.trans (skipSpec_eq ap).symm).trans heq) nofun

theorem vsnprintfLoop_directive {rest : List Byte} (hroom : out.length < cap)
    (h : skipSpec fmt = c :: rest) : vsnprintfLoop text cap (37 :: fmt) ap out =
      let r := vsnprintfConv text cap (parseSpec fmt ap).1 c (parseSpec fmt ap).2.2 out
      vsnprintfLoop text cap rest r.2 r.1 := by
  have hfmt : fmt ≠ [] := by
    rintro rfl
    exact absurd h nofun
  rw [vsnprintfLoop, if_pos hroom, if_neg (not_not.2 rfl), if_neg hfmt]
  split
  · next heq => exact absurd (h.symm.trans ((skipSpec_eq ap).symm.trans heq)) nofun
  · next heq =>
    obtain ⟨rfl, rfl⟩ := List.cons.inj (heq.symm.trans ((skipSpec_eq ap).trans h))
    rfl

/-- **`vsnprintf` stores what the format is rendered as**, as far as there is room. -/
theorem vsnprintfLoop_eq (h : endsInside fmt = false) : vsnprintfLoop text cap fmt ap out =
    some (pushAll cap (rendered text [37, 110] fmt ap) out) := by
  induction fmt using format_induction generalizing ap out with
  | nil => rw [vsnprintfLoop, rendered, items_nil, List.flatMap_nil, pushAll]
  | byte c fmt hc ih =>
    by_cases hroom : out.length < cap
    · rw [endsInside_byte hc] at h
      rw [vsnprintfLoop_byte hroom hc, ih h, rendered, rendered, items_byte hc, List.flatMap_cons,
        Item.render, List.singleton_append, pushAll, if_pos hroom]
    · rw [vsnprintfLoop_full hroom, pushAll_of_full hroom]
  | percent =>
    rw [vsnprintfLoop_percent, rendered, items_inside skipSpec_nil, List.flatMap_nil, pushAll]
  | inside fmt hfmt hs =>
    rw [endsInside_inside hfmt hs] at h
    cases h
  | directive fmt conv rest hs ih =>
    by_cases hroom : out.length < cap
    · rw [endsInside_directive hs] at h
      obtain ⟨hout, hap⟩ := vsnprintfConv_eq text cap (parseSpec fmt ap).1 conv
        (parseSpec fmt ap).2.2 out
      rw [vsnprintfLoop_directive hroom hs]
      dsimp only
      rw [rendered, items_directive hs, List.flatMap_cons, Item.render, ← pushAll_pushAll, ← hout,
        ih h]
      by_cases hafter : (vsnprintfConv text cap (parseSpec fmt ap).1 conv (parseSpec fmt ap).2.2
          out).1.length < cap
      · rw [hap hafter, rendered]
      · rw [pushAll_of_full hafter, pushAll_of_full hafter]
    · rw [vsnprintfLoop_full hroom, pushAll_of_full hroom]

/-- **A format that ends inside a directive is read beyond its NUL**, where there is room
for what comes before. -/
theorem vsnprintfLoop_eq_none (h : endsInside fmt = true)
    (hroom : (out ++ rendered text [37, 110] fmt ap).length < cap) :
    vsnprintfLoop text cap fmt ap out = none := by
  induction fmt using format_induction generalizing ap out with
  | nil => exact absurd h (by rw [endsInside_nil]; decide)
  | byte c fmt hc ih =>
    rw [endsInside_byte hc] at h
    rw [rendered, items_byte hc, List.flatMap_cons, ← List.append_assoc] at hroom
    have hout : out.length < cap := by
      rw [List.length_append, List.length_append] at hroom
      omega
    rw [vsnprintfLoop_byte hout hc]
    exact ih h hroom
  | percent => exact absurd h (by rw [endsInside_percent]; decide)
  | inside fmt hfmt hs =>
    rw [rendered, items_inside hs, List.flatMap_nil, List.append_nil] at hroom
    exact vsnprintfLoop_inside hroom hfmt hs
  | directive fmt conv rest hs ih =>
    rw [endsInside_directive hs] at h
    rw [rendered, items_directive hs, List.flatMap_cons, ← List.append_assoc, Item.render] at hroom
    obtain ⟨hout, hap⟩ := vsnprintfConv_eq text cap (parseSpec fmt ap).1 conv
      (parseSpec fmt ap).2.2 out
    have hlen := hroom
    rw [List.length_append, List.length_append] at hlen
    rw [pushAll_eq (by omega), List.take_of_length_le (by rw [List.length_append]; omega)] at hout
    rw [vsnprintfLoop_directive (by omega) hs]
    dsimp only
    rw [hap (by rw [hout, List.length_append]; omega), hout]
    exact ih h hroom

end Stored

end Printf
end V6User
