import V6User.Printf.Format

/-!
# What a format asks for

A format with its arguments is a row of items, bytes that stand for themselves and
directives with what they take of the arguments, and an item is rendered by itself.  The
row ends where the format does, be it inside a directive (`endsInside`).
`format_induction` goes along a format an item at a time.
-/

namespace V6User
namespace Printf

open Shell (Byte)

/-- An item of a format, with the slot that its conversion may take. -/
inductive Item where
  | byte (c : Byte)
  | directive (spec : Spec) (conv : Byte) (arg : VaList)

/-- The conversions that take an argument. -/
def takesArg (conv : Byte) : Bool :=
  match conv with
  | 100 | 105 | 117 | 120 | 88 | 111 | 112 | 115 | 99 => true
  | _ => false

/-- `va_list` after a conversion. -/
def afterConv (conv : Byte) (ap : VaList) : VaList := if takesArg conv then ap.rest else ap

/-- The items of a format. -/
def items (fmt : List Byte) (ap : VaList) : List Item :=
  match fmt with
  | [] => []
  | c :: fmt =>
    if c ≠ 37 then .byte c :: items fmt ap
    else
      match _h : (parseSpec fmt ap).2.1 with
      | [] => []
      | conv :: rest =>
        .directive (parseSpec fmt ap).1 conv (parseSpec fmt ap).2.2 ::
          items rest (afterConv conv (parseSpec fmt ap).2.2)
termination_by fmt.length
decreasing_by
  · exact Nat.lt_succ_self _
  · have := length_parseSpec fmt ap
    rw [_h, List.length_cons] at this
    exact Nat.lt_succ_of_lt this

/-- What is left of a format where a directive has its conversion character. -/
def skipSpec (fmt : List Byte) : List Byte := (parseSpec fmt fun _ => 0).2.1

theorem skipSpec_eq {fmt : List Byte} (ap : VaList) : (parseSpec fmt ap).2.1 = skipSpec fmt :=
  parseSpec_rest fmt ap _

theorem length_skipSpec (fmt : List Byte) : (skipSpec fmt).length ≤ fmt.length :=
  length_parseSpec fmt _

/-- The format ends after a `%` and some of a directive, before its conversion character. -/
def endsInside (fmt : List Byte) : Bool :=
  match fmt with
  | [] => false
  | c :: fmt =>
    if c ≠ 37 then endsInside fmt
    else if fmt = [] then false
    else
      match _h : skipSpec fmt with
      | [] => true
      | _ :: rest => endsInside rest
termination_by fmt.length
decreasing_by
  · exact Nat.lt_succ_self _
  · have := length_skipSpec fmt
    rw [_h, List.length_cons] at this
    exact Nat.lt_succ_of_lt this

/-- Induction along a format, an item at a time. -/
theorem format_induction {P : List Byte → Prop} (nil : P [])
    (byte : ∀ c fmt, c ≠ 37 → P fmt → P (c :: fmt)) (percent : P [37])
    (inside : ∀ fmt, fmt ≠ [] → skipSpec fmt = [] → P (37 :: fmt))
    (directive : ∀ fmt conv rest, skipSpec fmt = conv :: rest → P rest → P (37 :: fmt))
    (fmt : List Byte) : P fmt := by
  induction hn : fmt.length using Nat.strongRecOn generalizing fmt with
  | ind n ih =>
    cases fmt with
    | nil => exact nil
    | cons c fmt =>
      rw [List.length_cons] at hn
      by_cases hc : c = 37
      · subst hc
        cases hs : skipSpec fmt with
        | nil =>
          by_cases hfmt : fmt = []
          · exact hfmt ▸ percent
          · exact inside fmt hfmt hs
        | cons conv rest =>
          have hlen := length_skipSpec fmt
          rw [hs, List.length_cons] at hlen
          exact directive fmt conv rest hs (ih rest.length (by omega) rest rfl)
      · exact byte c fmt hc (ih fmt.length (by omega) fmt rfl)

section Steps

variable {c conv : Byte} {fmt rest : List Byte} {ap : VaList}

theorem items_nil : items [] ap = [] := by
  rw [items]

theorem items_byte (h : c ≠ 37) : items (c :: fmt) ap = .byte c :: items fmt ap := by
  rw [items, if_pos h]

theorem items_inside (h : skipSpec fmt = []) : items (37 :: fmt) ap = [] := by
  rw [items, if_neg (not_not.2 rfl)]
  split
  · rfl
  · next heq => exact absurd ((skipSpec_eq ap).symm.trans heq |>.symm.trans h) nofun

theorem items_directive (h : skipSpec fmt = conv :: rest) : items (37 :: fmt) ap =
    .directive (parseSpec fmt ap).1 conv (parseSpec fmt ap).2.2 ::
      items rest (afterConv conv (parseSpec fmt ap).2.2) := by
  rw [items, if_neg (not_not.2 rfl)]
  split
  · next heq => exact absurd (h.symm.trans ((skipSpec_eq ap).symm.trans heq)) nofun
  · next heq =>
    obtain ⟨rfl, rfl⟩ := List.cons.inj (heq.symm.trans ((skipSpec_eq ap).trans h))
    rfl

theorem skipSpec_nil : skipSpec [] = [] := rfl

theorem endsInside_nil : endsInside [] = false := by
  rw [endsInside]

theorem endsInside_byte (h : c ≠ 37) : endsInside (c :: fmt) = endsInside fmt := by
  rw [endsInside, if_pos h]

theorem endsInside_percent : endsInside [37] = false := by
  rw [endsInside, if_neg (not_not.2 rfl), if_pos rfl]

theorem endsInside_inside (hfmt : fmt ≠ []) (h : skipSpec fmt = []) :
    endsInside (37 :: fmt) = true := by
  rw [endsInside, if_neg (not_not.2 rfl), if_neg hfmt]
  split
  · rfl
  · next heq => exact absurd (h.symm.trans heq) nofun

theorem endsInside_directive (h : skipSpec fmt = conv :: rest) :
    endsInside (37 :: fmt) = endsInside rest := by
  have hfmt : fmt ≠ [] := by
    rintro rfl
    exact absurd h nofun
  rw [endsInside, if_neg (not_not.2 rfl), if_neg hfmt]
  split
  · next heq => exact absurd (h.symm.trans heq) nofun
  · next heq =>
    obtain ⟨-, rfl⟩ := List.cons.inj (heq.symm.trans h)
    rfl

end Steps

/-! ### What an item is rendered as -/

/-- A text with blanks before or after it. -/
def padded (left : Bool) (padlen : ℕ) (s : List Byte) : List Byte :=
  if left then s ++ List.replicate padlen 32 else List.replicate padlen 32 ++ s

/-- A number in its width. -/
def renderNumber (spec : Spec) (numbuf : List Byte) : List Byte :=
  let padlen := padLen spec.width numbuf.length
  if spec.flags.zero && !spec.flags.left && decide (0 < numbuf.length) then
    numbuf.take (prefixLen numbuf) ++ List.replicate padlen 48 ++ numbuf.drop (prefixLen numbuf)
  else padded spec.flags.left padlen numbuf

/-- What a directive is rendered as, where `%n` is rendered as `count`. -/
def renderConv (text : BitVec 64 → List Byte) (count : List Byte) (spec : Spec) (conv : Byte)
    (ap : VaList) : List Byte :=
  match conv with
  | 100 => renderNumber spec (formatInt (vaSigned spec.isLong ap) 10 true spec.flags)
  | 105 => renderNumber spec (formatInt (vaSigned spec.isLong ap) 10 true spec.flags)
  | 117 => renderNumber spec (formatInt (vaUnsigned spec.isLong ap) 10 false spec.flags)
  | 120 => renderNumber spec
      (formatInt (vaUnsigned spec.isLong ap) 16 false { spec.flags with upper := false })
  | 88 => renderNumber spec
      (formatInt (vaUnsigned spec.isLong ap) 16 false { spec.flags with upper := true })
  | 111 => renderNumber spec (formatInt (vaUnsigned spec.isLong ap) 8 false spec.flags)
  | 112 => padded spec.flags.left (padLen spec.width (formatPtr (ap 0)).length) (formatPtr (ap 0))
  | 115 =>
    let s := stringArg text (ap 0)
    let slen := stringLen spec.precision s
    padded spec.flags.left (padLen spec.width slen) (s.take slen.toNat)
  | 99 => padded spec.flags.left (padLen spec.width 1) [.ofBitVec ((ap 0).setWidth 8)]
  | 37 => [37]
  | 110 => count
  | conv => [37, conv]

/-- What an item is rendered as. -/
def Item.render (text : BitVec 64 → List Byte) (count : List Byte) : Item → List Byte
  | .byte c => [c]
  | .directive spec conv ap => renderConv text count spec conv ap

/-- What a format is rendered as. -/
def rendered (text : BitVec 64 → List Byte) (count fmt : List Byte) (ap : VaList) : List Byte :=
  (items fmt ap).flatMap (Item.render text count)

end Printf
end V6User
