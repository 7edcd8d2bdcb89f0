import Mathlib.Data.Nat.Digits.Lemmas
import V6User.Base.CInt
import V6User.Shell.Token

/-!
# Directives of a format

`lib/printf.c`: the flags, `format_int`, `format_ptr`, `parse_flags`, `parse_number`, and
the lines of `vprintf` and `vsnprintf` that read the flags, the width, the precision and
the length of a directive.  These are the same in both.

A format is the list of its bytes before the NUL, and a pointer into it is what is left of
that list, so that the pointer at the NUL is `[]`.  A pointer is moved on where the byte
under it was found to be some other byte than the NUL.  The arguments are the slots that
`va_arg` reads one after the other.
-/

namespace V6User
namespace Printf

open Shell (Byte)
open CInt

/-- `va_list`: the slots that have not been read. -/
abbrev VaList := ℕ → BitVec 64

/-- `va_list` after a call of `va_arg`. -/
def VaList.rest (ap : VaList) : VaList := fun n => ap (n + 1)

/-- `va_arg(ap, int)`. -/
def vaInt (ap : VaList) : ℤ := ((ap 0).setWidth 32).toInt

/-- `FLAG_LEFT` and the others. -/
structure Flags where
  left : Bool := false
  plus : Bool := false
  space : Bool := false
  hash : Bool := false
  zero : Bool := false
  upper : Bool := false

/-! ### Numbers -/

/-- `digits_lower` and `digits_upper`, in which the letters begin at `a`. -/
def digit (a : Byte) (n : ℕ) : Byte := if n < 10 then 48 + .ofNat n else a + .ofNat (n - 10)

/-- The digits of a number, the last one first: there is at least one. -/
def reverseDigits (a : Byte) (base n : ℕ) : List Byte :=
  if n = 0 then [digit a 0] else (Nat.digits base n).map (digit a)

/-- `format_int(buf, val, base, is_signed, flags)`: what it leaves in `buf`. -/
def formatInt (val : BitVec 64) (base : ℕ) (isSigned : Bool) (flags : Flags) : List Byte :=
  let neg := isSigned && val.toInt < 0
  let uval := if neg then (-val).toNat else val.toNat
  let tmp := reverseDigits (if flags.upper then 65 else 97) base uval
  let sign : List Byte :=
    if neg then [45]
    else if isSigned && flags.plus then [43]
    else if isSigned && flags.space then [32]
    else []
  let mark : List Byte :=
    if flags.hash && base == 16 then [48, if flags.upper then 88 else 120]
    else if flags.hash && base == 8 && tmp.getLast? != some 48 then [48]
    else []
  sign ++ mark ++ tmp.reverse

theorem length_reverseDigits_le {a : Byte} {base n : ℕ} (hbase : 8 ≤ base) (hn : n < 2 ^ 64) :
    (reverseDigits a base n).length ≤ 22 := by
  rw [reverseDigits]
  split_ifs
  · exact Nat.le_of_ble_eq_true rfl
  · rw [List.length_map, Nat.digits_length_le_iff (by omega)]
    calc n < 8 ^ 22 := hn.trans (by norm_num)
      _ ≤ base ^ 22 := Nat.pow_le_pow_left hbase 22

/-- A number has room in `numbuf`. -/
theorem length_formatInt_lt (val : BitVec 64) {base : ℕ} (isSigned : Bool) (flags : Flags)
    (hbase : 8 ≤ base) : (formatInt val base isSigned flags).length < 64 := by
  unfold formatInt
  extract_lets neg uval tmp sign mark
  have htmp : tmp.length ≤ 22 := by
    refine length_reverseDigits_le hbase ?_
    unfold uval
    split_ifs
    · exact (-val).isLt
    · exact val.isLt
  have hsign : sign.length ≤ 1 := by
    unfold sign
    split_ifs <;> simp
  have hmark : mark.length ≤ 2 := by
    unfold mark
    split_ifs <;> simp
  rw [List.length_append, List.length_append, List.length_reverse]
  omega

/-- `format_ptr(buf, x)`. -/
def formatPtr (x : BitVec 64) : List Byte :=
  48 :: 120 :: (List.range 16).map fun i => digit 97 ((x <<< (4 * i)) >>> 60).toNat

/-! ### Flags, width, precision and length -/

/-- What a flag sets. -/
def Flags.set (flags : Flags) (c : Byte) : Option Flags :=
  match c with
  | 45 => some { flags with left := true }
  | 43 => some { flags with plus := true }
  | 32 => some { flags with space := true }
  | 35 => some { flags with hash := true }
  | 48 => some { flags with zero := true }
  | _ => none

/-- `parse_flags(fmt, flags)`. -/
def parseFlags (flags : Flags) : List Byte → Flags × List Byte
  | [] => (flags, [])
  | c :: fmt =>
    match flags.set c with
    | some flags => parseFlags flags fmt
    | none => (flags, c :: fmt)

/-- The loop of `parse_number`. -/
def parseDigits (num : ℤ) : List Byte → ℤ × List Byte
  | [] => (num, [])
  | c :: fmt =>
    if 48 ≤ c ∧ c ≤ 57 then parseDigits (int32 (num * 10 + (c.toNat - 48))) fmt
    else (num, c :: fmt)

/-- `parse_number(fmt, num, ap)`. -/
def parseNumber (fmt : List Byte) (ap : VaList) : ℤ × List Byte × VaList :=
  match fmt with
  | 42 :: fmt => (vaInt ap, fmt, ap.rest)
  | fmt => ((parseDigits 0 fmt).1, (parseDigits 0 fmt).2, ap)

/-- The precision: `-1` where there is none. -/
def parsePrecision (fmt : List Byte) (ap : VaList) : ℤ × List Byte × VaList :=
  match fmt with
  | 46 :: fmt =>
    let (precision, fmt, ap) := parseNumber fmt ap
    (if precision < 0 then 0 else precision, fmt, ap)
  | fmt => (-1, fmt, ap)

/-- The length modifier, with `is_long`. -/
def parseLength : List Byte → ℕ × List Byte
  | 108 :: 108 :: fmt => (2, fmt)
  | 108 :: fmt => (1, fmt)
  | 104 :: 104 :: fmt => (0, fmt)
  | 104 :: fmt => (0, fmt)
  | 122 :: fmt => (1, fmt)
  | fmt => (0, fmt)

/-- What is read of a directive before its conversion character. -/
structure Spec where
  flags : Flags
  width : ℤ
  precision : ℤ
  isLong : ℕ

/-- The lines of `vprintf` and of `vsnprintf` that read it. -/
def parseSpec (fmt : List Byte) (ap : VaList) : Spec × List Byte × VaList :=
  let (flags, fmt) := parseFlags {} fmt
  let (width, fmt, ap) := parseNumber fmt ap
  let (precision, fmt, ap) := parsePrecision fmt ap
  let (isLong, fmt) := parseLength fmt
  (⟨flags, width, precision, isLong⟩, fmt, ap)

/-! ### Arguments -/

/-- `va_arg` for `%d`, by the length. -/
def vaSigned (isLong : ℕ) (ap : VaList) : BitVec 64 :=
  if 1 ≤ isLong then ap 0 else ((ap 0).setWidth 32).signExtend 64

/-- `va_arg` for `%u`, `%x` and `%o`, by the length. -/
def vaUnsigned (isLong : ℕ) (ap : VaList) : BitVec 64 :=
  if 1 ≤ isLong then ap 0 else ((ap 0).setWidth 32).setWidth 64

/-- `padlen`. -/
def padLen (width len : ℤ) : ℕ := (if width > len then int32 (width - len) else 0).toNat

/-- `prefixlen`: how much of a number comes before the zeros that fill it. -/
def prefixLen : List Byte → ℕ
  | 48 :: 120 :: _ => 2
  | 48 :: 88 :: _ => 2
  | 45 :: _ => 1
  | 43 :: _ => 1
  | 32 :: _ => 1
  | _ => 0

/-- What the pointer of a `%s` points at. -/
def stringArg (text : BitVec 64 → List Byte) (p : BitVec 64) : List Byte :=
  if p = 0 then [40, 110, 117, 108, 108, 41] else text p

/-- `slen`. -/
def stringLen (precision : ℤ) (s : List Byte) : ℤ :=
  let slen := int32 s.length
  if 0 ≤ precision ∧ precision < slen then precision else slen

/-! ### What is left of a format -/

section Left

variable {flags : Flags} {num : ℤ} {fmt : List Byte} {ap ap' : VaList}

theorem length_parseFlags : (parseFlags flags fmt).2.length ≤ fmt.length := by
  induction fmt generalizing flags with
  | nil => exact Nat.le_refl _
  | cons c fmt ih =>
    rw [parseFlags]
    cases flags.set c with
    | none => exact Nat.le_refl _
    | some flags => exact ih.trans (Nat.le_succ _)

theorem length_parseDigits : (parseDigits num fmt).2.length ≤ fmt.length := by
  induction fmt generalizing num with
  | nil => exact Nat.le_refl _
  | cons c fmt ih =>
    rw [parseDigits]
    split_ifs
    · exact ih.trans (Nat.le_succ _)
    · exact Nat.le_refl _

theorem length_parseNumber : (parseNumber fmt ap).2.1.length ≤ fmt.length := by
  unfold parseNumber
  split
  · exact Nat.le_succ _
  · exact length_parseDigits

theorem length_parsePrecision : (parsePrecision fmt ap).2.1.length ≤ fmt.length := by
  unfold parsePrecision
  split
  · exact length_parseNumber.trans (Nat.le_succ _)
  · exact Nat.le_refl _

theorem length_parseLength : (parseLength fmt).2.length ≤ fmt.length := by
  unfold parseLength
  split <;> simp only [List.length_cons] <;> omega

/-- A directive is read forwards. -/
theorem length_parseSpec (fmt : List Byte) (ap : VaList) :
    (parseSpec fmt ap).2.1.length ≤ fmt.length :=
  length_parseLength.trans <| length_parsePrecision.trans <| length_parseNumber.trans
    length_parseFlags

/-- Where a directive has its conversion character does not depend on the arguments. -/
theorem parseNumber_rest (fmt : List Byte) (ap ap' : VaList) :
    (parseNumber fmt ap).2.1 = (parseNumber fmt ap').2.1 := by
  unfold parseNumber
  split <;> rfl

theorem parsePrecision_rest (fmt : List Byte) (ap ap' : VaList) :
    (parsePrecision fmt ap).2.1 = (parsePrecision fmt ap').2.1 := by
  unfold parsePrecision
  split
  · exact parseNumber_rest _ ap ap'
  · rfl

theorem parseSpec_rest (fmt : List Byte) (ap ap' : VaList) :
    (parseSpec fmt ap).2.1 = (parseSpec fmt ap').2.1 := by
  unfold parseSpec
  dsimp only
  rw [parseNumber_rest _ ap ap', parsePrecision_rest _ _ (parseNumber (parseFlags {} fmt).2 ap').2.2]

end Left

end Printf
end V6User
