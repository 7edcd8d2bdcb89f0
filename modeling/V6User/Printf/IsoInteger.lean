import V6User.Base.Numeral
import V6User.Printf.Agree

/-!
# Integer directives against ISO C

`lib/printf.c`: `vprintf` at `%d`, `%i`, `%u`, `%x`, `%X` and `%o` with any flags, a decimal
width, a length and no precision.

ISO C has a number written as its sign, the mark that `#` asks for and its digits, and filled
up to the width with blanks on either side or with zeros before the digits
(`Directive.isoText`).  `vprintf` does that for every argument, the most negative one
included, with two exceptions (`vprintf_iso_iff`): under `#` it puts a `0x` before a zero,
where ISO C has none, and a width that does not fit an `int` is read as another number.
-/

namespace V6User
namespace Printf

open Shell (Byte)
open CInt Numeral

/-! ### What a directive asks for -/

/-- A flag of a directive. -/
inductive Flag where
  | left
  | plus
  | space
  | hash
  | zero
  deriving DecidableEq

/-- A flag as it is written. -/
def Flag.char : Flag → Byte
  | .left => 45
  | .plus => 43
  | .space => 32
  | .hash => 35
  | .zero => 48

/-- A length modifier. -/
inductive Length where
  | none
  | l
  | ll
  | z

/-- A length modifier as it is written. -/
def Length.chars : Length → List Byte
  | .none => []
  | .l => [108]
  | .ll => [108, 108]
  | .z => [122]

/-- The width of the C type, with `int` for no modifier. -/
def Length.bits : Length → ℕ
  | .none => 32
  | .l => 64
  | .ll => 64
  | .z => 64

/-- A conversion of an integer. -/
inductive Conv where
  | d
  | i
  | u
  | x
  | X
  | o
  deriving DecidableEq

/-- A conversion as it is written. -/
def Conv.char : Conv → Byte
  | .d => 100
  | .i => 105
  | .u => 117
  | .x => 120
  | .X => 88
  | .o => 111

def Conv.isSigned : Conv → Bool
  | .d => true
  | .i => true
  | _ => false

def Conv.base : Conv → ℕ
  | .x => 16
  | .X => 16
  | .o => 8
  | _ => 10

/-- What the letters among the digits begin at. -/
def Conv.letters : Conv → Byte
  | .X => 65
  | _ => 97

/-- A directive for an integer, with width `0` where no width is written. -/
structure Directive where
  flags : List Flag
  width : ℕ
  length : Length
  conv : Conv

/-- A width as it is written: it does not begin with a zero, which would be a flag. -/
def widthText (width : ℕ) : List Byte := (Nat.digits 10 width).reverse.map fun n => 48 + .ofNat n

namespace Directive

/-- A directive as it is written, after its `%`. -/
def text (d : Directive) : List Byte :=
  d.flags.map Flag.char ++ (widthText d.width ++ (d.length.chars ++ [d.conv.char]))

/-- The value of the argument in its C type. -/
def value (d : Directive) (slot : BitVec 64) : ℤ :=
  if d.conv.isSigned then (slot.setWidth d.length.bits).toInt
  else (slot.setWidth d.length.bits).toNat

/-! ### What ISO C prescribes -/

/-- The digits of a number: a zero has one. -/
def numeral (d : Directive) (v : ℤ) : List Byte :=
  if v = 0 then [48] else (Nat.digits d.conv.base v.natAbs).reverse.map (digit d.conv.letters)

/-- The sign: `+` and the blank are for signed conversions, and `+` goes first. -/
def sign (d : Directive) (v : ℤ) : List Byte :=
  if v < 0 then [45]
  else if d.conv.isSigned ∧ .plus ∈ d.flags then [43]
  else if d.conv.isSigned ∧ .space ∈ d.flags then [32]
  else []

/-- The mark of a number under `#`: `0x` or `0X`, which a zero has not, and for `o` a zero
where the digits do not begin with one.  For the other conversions `#` says nothing. -/
def mark (d : Directive) (v : ℤ) : List Byte :=
  if .hash ∈ d.flags ∧ v ≠ 0 then
    match d.conv with
    | .x => [48, 120]
    | .X => [48, 88]
    | .o => [48]
    | _ => []
  else []

/-- What stands before the digits. -/
def head (d : Directive) (v : ℤ) : List Byte := d.sign v ++ d.mark v

/-- The text of a value: `-` goes before `0`. -/
def isoText (d : Directive) (v : ℤ) : List Byte :=
  let fill := d.width - (d.head v ++ d.numeral v).length
  if .left ∈ d.flags then d.head v ++ d.numeral v ++ List.replicate fill 32
  else if .zero ∈ d.flags then d.head v ++ List.replicate fill 48 ++ d.numeral v
  else List.replicate fill 32 ++ (d.head v ++ d.numeral v)

/-! ### What `vprintf` reads of a directive -/

/-- The flags as `parse_flags` leaves them. -/
def readFlags (d : Directive) : Flags where
  left := .left ∈ d.flags
  plus := .plus ∈ d.flags
  space := .space ∈ d.flags
  hash := .hash ∈ d.flags
  zero := .zero ∈ d.flags

def isLong (d : Directive) : ℕ :=
  match d.length with
  | .none => 0
  | .l => 1
  | .ll => 2
  | .z => 1

/-- What is read of the directive before its conversion character. -/
def spec (d : Directive) : Spec := ⟨d.readFlags, int32 d.width, -1, d.isLong⟩

/-- What `vprintf` has in `numbuf` for a directive. -/
def numbuf (d : Directive) (ap : VaList) : List Byte :=
  let flags := { d.readFlags with upper := decide (d.conv = .X) }
  let val := if d.conv.isSigned then vaSigned d.isLong ap else vaUnsigned d.isLong ap
  formatInt val d.conv.base d.conv.isSigned flags

end Directive

/-- The text of `%+06ld` at `-42`, and of `%-#6x|` at `255`. -/
example : (Directive.mk [.plus, .zero] 6 .l .d).isoText (-42) = [45, 48, 48, 48, 52, 50] ∧
    (Directive.mk [.left, .hash] 6 .none .x).isoText 255 = [48, 120, 102, 102, 32, 32] := by
  decide

/-! ### Reading a directive -/

section Reading

variable {s : List Byte} {ap : VaList}

theorem Flags.set_eq_none {flags : Flags} {c : Byte} (h : c ∉ [45, 43, 32, 35, 48]) :
    flags.set c = none := by
  simp only [List.mem_cons, List.not_mem_nil, or_false, not_or] at h
  obtain ⟨hleft, hplus, hspace, hhash, hzero⟩ := h
  unfold Flags.set
  split <;> first | rfl | contradiction

/-- Flags are read up to a byte that is none. -/
theorem parseFlags_append (flags : List Flag) (f : Flags)
    (hs : ∀ c ∈ s.head?, c ∉ ([45, 43, 32, 35, 48] : List Byte)) :
    parseFlags f (flags.map Flag.char ++ s) =
      ({ left := f.left || .left ∈ flags, plus := f.plus || .plus ∈ flags,
         space := f.space || .space ∈ flags, hash := f.hash || .hash ∈ flags,
         zero := f.zero || .zero ∈ flags, upper := f.upper }, s) := by
  induction flags generalizing f with
  | nil =>
    cases s with
    | nil => simp [parseFlags]
    | cons c s => simp [parseFlags, Flags.set_eq_none (hs c rfl)]
  | cons flag flags ih =>
    cases flag <;> simp [parseFlags, Flag.char, Flags.set, ih]

/-- Digits are read to the number that they make, as an `int`. -/
theorem parseDigits_append (digits : List ℕ) (num : ℕ) (hdigits : ∀ n ∈ digits, n < 10)
    (hs : ∀ c ∈ s.head?, ¬(48 ≤ c ∧ c ≤ 57)) :
    parseDigits (int32 num) ((digits.map fun n => 48 + .ofNat n) ++ s) =
      (int32 (more 10 num digits : ℕ), s) := by
  induction digits generalizing num with
  | nil =>
    cases s with
    | nil => rfl
    | cons c s =>
      rw [List.map_nil, List.nil_append, parseDigits, if_neg (hs c rfl)]
      rfl
  | cons n digits ih =>
    obtain ⟨hn, hdigits⟩ := List.forall_mem_cons.1 hdigits
    have hval : (48 + .ofNat n : Byte).toNat = 48 + n := by
      rw [UInt8.toNat_add, UInt8.toNat_ofNat']
      change (48 + n % 256) % 256 = 48 + n
      omega
    have hdigit : (48 : Byte) ≤ 48 + .ofNat n ∧ (48 + .ofNat n : Byte) ≤ 57 := by
      rw [UInt8.le_iff_toNat_le, UInt8.le_iff_toNat_le, hval]
      exact ⟨Nat.le_add_right 48 n, by change 48 + n ≤ 57; omega⟩
    have hstep : int32 (int32 num * 10 + ((48 + .ofNat n : Byte).toNat - 48)) =
        int32 (num * 10 + n : ℕ) := by
      rw [hval, int32_mul_add]
      push_cast
      rw [add_sub_cancel_left]
    rw [List.map_cons, List.cons_append, parseDigits, if_pos hdigit, hstep, more_cons]
    exact ih (num * 10 + n) hdigits

/-- What comes after the flags of a directive is neither a flag nor `*`. -/
theorem head_after_flags (d : Directive) {rest : List Byte} {c : Byte}
    (hc : c ∈ (widthText d.width ++ (d.length.chars ++ (d.conv.char :: rest))).head?) :
    c ∉ ([45, 43, 32, 35, 48] : List Byte) ∧ c ≠ 42 := by
  by_cases hwidth : d.width = 0
  · rw [hwidth, widthText, Nat.digits_zero, List.reverse_nil, List.map_nil, List.nil_append] at hc
    revert hc
    cases d.length <;> cases d.conv <;> rintro ⟨rfl⟩ <;> decide
  · have hne : Nat.digits 10 d.width ≠ [] := Nat.digits_ne_nil_iff_ne_zero.2 hwidth
    have hlast := Nat.getLast_digit_ne_zero 10 hwidth
    have hlt := Nat.digits_lt_base (by decide) (List.getLast_mem hne)
    rw [widthText, List.head?_append, List.head?_map, List.head?_reverse,
      List.getLast?_eq_getLast_of_ne_nil hne] at hc
    obtain rfl : 48 + UInt8.ofNat ((Nat.digits 10 d.width).getLast hne) = c := Option.some.inj hc
    generalize (Nat.digits 10 d.width).getLast hne = n at *
    interval_cases n <;> first | contradiction | decide

theorem parseNumber_of_ne {fmt : List Byte} (h : fmt.head? ≠ some 42) :
    parseNumber fmt ap = ((parseDigits 0 fmt).1, (parseDigits 0 fmt).2, ap) := by
  unfold parseNumber
  split
  · exact absurd rfl h
  · rfl

/-- **A directive is read as it is meant**, but for a width that does not fit an `int`. -/
theorem parseSpec_text (d : Directive) (rest : List Byte) (ap : VaList) :
    parseSpec (d.text ++ rest) ap = (d.spec, d.conv.char :: rest, ap) := by
  have hafter : ∀ c ∈ (d.length.chars ++ (d.conv.char :: rest)).head?,
      c ≠ 46 ∧ ¬(48 ≤ c ∧ c ≤ 57) := by
    cases d.length <;> cases d.conv <;> rintro c ⟨rfl⟩ <;> decide
  have htext : d.text ++ rest = d.flags.map Flag.char ++
      (widthText d.width ++ (d.length.chars ++ (d.conv.char :: rest))) := by
    simp only [Directive.text, List.append_assoc, List.singleton_append]
  have hflags := parseFlags_append d.flags {} fun c (hc : c ∈ (widthText d.width ++
    (d.length.chars ++ (d.conv.char :: rest))).head?) => (head_after_flags d hc).1
  have hwidth : parseNumber (widthText d.width ++ (d.length.chars ++ (d.conv.char :: rest))) ap =
      (int32 d.width, d.length.chars ++ (d.conv.char :: rest), ap) := by
    have hdigits := parseDigits_append (Nat.digits 10 d.width).reverse 0
      (fun n hn => Nat.digits_lt_base (by decide) (List.mem_reverse.1 hn))
      fun c hc => (hafter c hc).2
    rw [more_digits, Nat.cast_zero, int32_of_range (by decide) (by decide)] at hdigits
    rw [parseNumber_of_ne fun h => (head_after_flags d h).2 rfl, widthText, hdigits]
  have hprecision : parsePrecision (d.length.chars ++ (d.conv.char :: rest)) ap =
      (-1, d.length.chars ++ (d.conv.char :: rest), ap) := by
    unfold parsePrecision
    split
    · rename_i heq
      exact absurd rfl (hafter 46 (heq ▸ rfl)).1
    · rfl
  have hlength : parseLength (d.length.chars ++ (d.conv.char :: rest)) =
      (d.isLong, d.conv.char :: rest) := by
    unfold Directive.isLong
    cases d.length <;> cases d.conv <;> rfl
  rw [htext, parseSpec, hflags]
  dsimp only
  rw [hwidth]
  dsimp only
  rw [hprecision]
  dsimp only
  rw [hlength]
  simp only [Directive.spec, Directive.readFlags, Bool.false_or]

end Reading

/-! ### What `format_int` leaves -/

section Number

variable (d : Directive) (ap : VaList)

/-- The mark that `format_int` puts under `#`: with `x` and `X` a zero has it too. -/
def Directive.codeMark (v : ℤ) : List Byte :=
  if .hash ∈ d.flags ∧ v = 0 then
    match d.conv with
    | .x => [48, 120]
    | .X => [48, 88]
    | _ => []
  else d.mark v

/-- The argument that `vprintf` formats, as the 64 bits of its value. -/
def Directive.val : BitVec 64 :=
  if d.conv.isSigned then vaSigned d.isLong ap else vaUnsigned d.isLong ap

theorem toInt_val (hsigned : d.conv.isSigned = true) : (d.val ap).toInt = d.value (ap 0) := by
  rw [Directive.val, Directive.value, if_pos hsigned, if_pos hsigned, vaSigned, Directive.isLong]
  cases d.length
  · exact BitVec.toInt_signExtend_of_le (by decide)
  all_goals exact congrArg BitVec.toInt (BitVec.setWidth_eq (ap 0)).symm

theorem toNat_val (hsigned : d.conv.isSigned = false) :
    ((d.val ap).toNat : ℤ) = d.value (ap 0) := by
  rw [Directive.val, Directive.value, hsigned, if_neg Bool.false_ne_true,
    if_neg Bool.false_ne_true, vaUnsigned, Directive.isLong]
  cases d.length
  · exact congrArg Nat.cast (BitVec.toNat_setWidth_of_le (by decide))
  all_goals exact congrArg (fun b => (b.toNat : ℤ)) (BitVec.setWidth_eq (ap 0)).symm

/-- The negation of an argument is made in 64 bits, which have room for that of the most
negative one. -/
theorem toNat_neg_of_neg {val : BitVec 64} (h : val.toInt < 0) :
    (-val).toNat = val.toInt.natAbs := by
  have hlt := val.isLt
  rw [BitVec.toInt_eq_toNat_cond] at h ⊢
  rw [BitVec.toNat_neg]
  split_ifs at h ⊢ with hsmall <;> omega

theorem reverse_reverseDigits (v : ℤ) :
    (reverseDigits d.conv.letters d.conv.base v.natAbs).reverse = d.numeral v := by
  rw [reverseDigits, Directive.numeral]
  by_cases hv : v = 0
  · rw [if_pos (Int.natAbs_eq_zero.2 hv), if_pos hv]
    rfl
  · rw [if_neg (mt Int.natAbs_eq_zero.1 hv), if_neg hv, List.map_reverse]

/-- The first digit is a zero for zero only. -/
theorem getLast_reverseDigits {a : Byte} {n : ℕ} :
    (reverseDigits a 8 n).getLast? = some 48 ↔ n = 0 := by
  rw [reverseDigits]
  split_ifs with hn
  · exact iff_of_true rfl hn
  · refine iff_of_false ?_ hn
    have hne : Nat.digits 8 n ≠ [] := Nat.digits_ne_nil_iff_ne_zero.2 hn
    have hlast := Nat.getLast_digit_ne_zero 8 hn
    have hlt := Nat.digits_lt_base (by decide) (List.getLast_mem hne)
    rw [List.getLast?_map, List.getLast?_eq_getLast_of_ne_nil hne]
    generalize (Nat.digits 8 n).getLast hne = k at *
    intro hk
    have hk : digit a k = 48 := Option.some.inj hk
    rw [digit, if_pos (by omega)] at hk
    interval_cases k <;> contradiction

theorem codeMark_eq (v : ℤ) :
    (if decide (Flag.hash ∈ d.flags) && d.conv.base == 16 then
        [48, if decide (d.conv = .X) then 88 else 120]
      else if decide (Flag.hash ∈ d.flags) && d.conv.base == 8 &&
          (reverseDigits d.conv.letters d.conv.base v.natAbs).getLast? != some 48 then [48]
      else []) = d.codeMark v := by
  unfold Directive.codeMark Directive.mark
  by_cases hhash : Flag.hash ∈ d.flags
  · have hoctal : ((reverseDigits 97 8 v.natAbs).getLast? != some 48) = decide (v ≠ 0) := by
      rw [bne, Bool.eq_iff_iff, Bool.not_eq_true', beq_eq_false_iff_ne, decide_eq_true_iff, ne_eq,
        getLast_reverseDigits, Int.natAbs_eq_zero]
    have hzero : (reverseDigits 97 8 0).getLast? = some 48 := rfl
    by_cases hv : v = 0 <;> cases d.conv <;>
      simp [hhash, hv, Conv.base, Conv.letters, hoctal, hzero]
  · simp [hhash]

/-- **`format_int` writes the sign, the mark and the digits of a number.** -/
theorem numbuf_eq : d.numbuf ap = d.sign (d.value (ap 0)) ++ d.codeMark (d.value (ap 0)) ++
    d.numeral (d.value (ap 0)) := by
  have hneg : (d.conv.isSigned && decide ((d.val ap).toInt < 0)) = decide (d.value (ap 0) < 0) := by
    cases hsigned : d.conv.isSigned with
    | true => rw [toInt_val d ap hsigned, Bool.true_and]
    | false =>
      rw [← toNat_val d ap hsigned, Bool.false_and]
      exact (decide_eq_false (Int.not_lt.2 (Int.natCast_nonneg _))).symm
  have huval : (if decide (d.value (ap 0) < 0) then (-d.val ap).toNat else (d.val ap).toNat) =
      (d.value (ap 0)).natAbs := by
    cases hsigned : d.conv.isSigned with
    | true =>
      rw [← toInt_val d ap hsigned]
      by_cases hlt : (d.val ap).toInt < 0
      · rw [decide_eq_true hlt, if_pos rfl, toNat_neg_of_neg hlt]
      · rw [decide_eq_false hlt, if_neg Bool.false_ne_true]
        have hval := (d.val ap).isLt
        rw [BitVec.toInt_eq_toNat_cond] at hlt ⊢
        split_ifs at hlt ⊢ with hsmall <;> omega
    | false =>
      rw [← toNat_val d ap hsigned, decide_eq_false (Int.not_lt.2 (Int.natCast_nonneg _)),
        if_neg Bool.false_ne_true, Int.natAbs_natCast]
  have hletters : (if decide (d.conv = .X) then 65 else 97 : Byte) = d.conv.letters := by
    cases d.conv <;> rfl
  rw [Directive.numbuf, ← Directive.val]
  unfold formatInt
  dsimp only
  rw [hneg, huval, hletters, reverse_reverseDigits]
  congr 2
  · simp only [Directive.sign, Directive.readFlags, decide_eq_true_eq, Bool.and_eq_true]
  · exact codeMark_eq d (d.value (ap 0))

/-- What `format_int` writes has room in `numbuf`. -/
theorem length_numbuf_lt : (d.numbuf ap).length < 64 :=
  length_formatInt_lt _ _ _ (by cases d.conv <;> decide)

/-- Except for a zero after `0x` it is what ISO C prescribes. -/
theorem codeMark_eq_mark {v : ℤ}
    (h : ¬(Flag.hash ∈ d.flags ∧ (d.conv = .x ∨ d.conv = .X) ∧ v = 0)) :
    d.codeMark v = d.mark v := by
  unfold Directive.codeMark
  split_ifs with hzero
  · have hmark : d.mark v = [] := if_neg fun hne => hne.2 hzero.2
    cases hconv : d.conv with
    | x => exact absurd ⟨hzero.1, .inl hconv, hzero.2⟩ h
    | X => exact absurd ⟨hzero.1, .inr hconv, hzero.2⟩ h
    | _ => exact hmark.symm
  · rfl

end Number

/-! ### Filling -/

section Filling

variable (d : Directive) (v : ℤ)

/-- A digit is no sign and no letter of a mark. -/
theorem digits_numeral : ∀ c ∈ d.numeral v, 48 ≤ c ∧ c ≠ 120 ∧ c ≠ 88 := by
  intro c hc
  rw [Directive.numeral] at hc
  split_ifs at hc with hv
  · obtain rfl := List.mem_singleton.1 hc
    decide
  · obtain ⟨n, hn, rfl⟩ := List.mem_map.1 hc
    have hlt : n < 16 := by
      have hbase : d.conv.base ≤ 16 ∧ 1 < d.conv.base := by cases d.conv <;> decide
      have := Nat.digits_lt_base hbase.2 (List.mem_reverse.1 hn)
      omega
    have hletters : d.conv.letters = 65 ∨ d.conv.letters = 97 := by
      cases d.conv <;> decide
    rcases hletters with h | h <;> rw [h] <;> interval_cases n <;> decide

theorem length_numeral_pos : 0 < (d.numeral v).length := by
  rw [Directive.numeral]
  split_ifs with hv
  · exact Nat.one_pos
  · rw [List.length_map, List.length_reverse]
    exact List.length_pos_of_ne_nil
      (Nat.digits_ne_nil_iff_ne_zero.2 (mt Int.natAbs_eq_zero.1 hv))

/-- Digits have no prefix. -/
theorem prefixLen_digits {s : List Byte} (h : ∀ c ∈ s, 48 ≤ c ∧ c ≠ 120 ∧ c ≠ 88) :
    prefixLen s = 0 := by
  unfold prefixLen
  split
  · exact absurd rfl (h 120 (by simp)).2.1
  · exact absurd rfl (h 88 (by simp)).2.2
  · exact absurd (h 45 (by simp)).1 (by decide)
  · exact absurd (h 43 (by simp)).1 (by decide)
  · exact absurd (h 32 (by simp)).1 (by decide)
  · rfl

theorem padLen_eq {width len : ℕ} (h : width < 2 ^ 31) : padLen width len = width - len := by
  rw [padLen]
  split_ifs with hlt
  · rw [int32_of_range (by omega) (by omega)]
    omega
  · omega

/-- What may stand before the digits: of the sign and the mark there is only one. -/
theorem head_cases (hv : d.conv.isSigned = false → 0 ≤ v) : d.head v = [] ∨
    d.head v = [45] ∨ d.head v = [43] ∨ d.head v = [32] ∨ d.head v = [48] ∨
      d.head v = [48, 120] ∨ d.head v = [48, 88] := by
  cases hsigned : d.conv.isSigned with
  | true =>
    have hmark : d.mark v = [] := by
      unfold Directive.mark
      cases hconv : d.conv <;> simp_all [Conv.isSigned]
    rw [Directive.head, hmark, List.append_nil, Directive.sign]
    split_ifs <;> simp
  | false =>
    have hsign : d.sign v = [] := by
      rw [Directive.sign, if_neg (Int.not_lt.2 (hv hsigned)), hsigned]
      simp
    rw [Directive.head, hsign, List.nil_append, Directive.mark]
    split_ifs
    · cases d.conv <;> simp
    · exact .inl rfl

/-- **Zeros are put between what stands before the digits and the digits**, where after the
mark of `o` it does not matter. -/
theorem fill_zeros (hv : d.conv.isSigned = false → 0 ≤ v) (n : ℕ) :
    (d.head v ++ d.numeral v).take (prefixLen (d.head v ++ d.numeral v)) ++ List.replicate n 48 ++
      (d.head v ++ d.numeral v).drop (prefixLen (d.head v ++ d.numeral v)) =
    d.head v ++ List.replicate n 48 ++ d.numeral v := by
  have hdigits := digits_numeral d v
  rcases head_cases d v hv with h | h | h | h | h | h | h <;> rw [h]
  · rw [List.nil_append, prefixLen_digits hdigits]
    rfl
  · rfl
  · rfl
  · rfl
  · have hzero : ∀ c ∈ [48] ++ d.numeral v, 48 ≤ c ∧ c ≠ 120 ∧ c ≠ 88 :=
      List.forall_mem_cons.2 ⟨by decide, hdigits⟩
    rw [prefixLen_digits hzero, List.take_zero, List.drop_zero, List.nil_append,
      ← List.append_assoc, List.append_left_inj, ← List.replicate_succ', List.replicate_succ]
    rfl
  · rfl
  · rfl

/-- **A number in its width**, where it has the mark that ISO C prescribes. -/
theorem renderNumber_eq_isoText (hwidth : d.width < 2 ^ 31)
    (hv : d.conv.isSigned = false → 0 ≤ v) :
    renderNumber d.spec (d.head v ++ d.numeral v) = d.isoText v := by
  have hpad : padLen d.spec.width (d.head v ++ d.numeral v).length =
      d.width - (d.head v ++ d.numeral v).length := by
    rw [Directive.spec, int32_of_range (by omega) (by omega)]
    exact padLen_eq hwidth
  have hne : 0 < (d.head v ++ d.numeral v).length := by
    rw [List.length_append]
    exact Nat.lt_of_lt_of_le (length_numeral_pos d v) (Nat.le_add_left _ _)
  rw [renderNumber, Directive.isoText, hpad, fill_zeros d v hv, decide_eq_true hne, Bool.and_true]
  by_cases hleft : Flag.left ∈ d.flags
  · simp [Directive.spec, Directive.readFlags, padded, hleft]
  · by_cases hzero : Flag.zero ∈ d.flags
    · simp [Directive.spec, Directive.readFlags, hleft, hzero]
    · simp [Directive.spec, Directive.readFlags, padded, hleft, hzero]

theorem mem_renderNumber (spec : Spec) {c : Byte} {numbuf : List Byte} (h : c ∈ numbuf) :
    c ∈ renderNumber spec numbuf := by
  rw [renderNumber]
  split_ifs
  · rw [← List.take_append_drop (prefixLen numbuf) numbuf, List.mem_append] at h
    rw [List.mem_append, List.mem_append]
    exact h.imp_left .inl
  · rw [padded]
    split_ifs
    · exact List.mem_append_left _ h
    · exact List.mem_append_right _ h

/-- A number is never rendered as `2 ^ 31` bytes or more. -/
theorem length_renderNumber_lt {numbuf : List Byte} (hlen : numbuf.length < 64) :
    (renderNumber d.spec numbuf).length < 2 ^ 31 := by
  have hpad : padLen d.spec.width numbuf.length + numbuf.length < 2 ^ 31 := by
    have hread : d.spec.width = int32 d.width := by
      simp only [Directive.spec]
    have hwidth := (int32_bounds d.width).2
    rw [padLen, hread]
    split_ifs with hlt
    · rw [int32_of_range (by omega) (by omega)]
      omega
    · omega
  rw [renderNumber]
  split_ifs
  · rw [List.length_append, List.length_append, List.length_replicate, List.length_take,
      List.length_drop]
    omega
  · rw [padded]
    split_ifs <;> rw [List.length_append, List.length_replicate] <;> omega

theorem le_length_isoText : d.width ≤ (d.isoText v).length := by
  rw [Directive.isoText]
  split_ifs <;> simp only [List.length_append, List.length_replicate] <;> omega

/-- A mark has a letter that no number has without it. -/
theorem exists_mem_codeMark (hhash : Flag.hash ∈ d.flags) (hconv : d.conv = .x ∨ d.conv = .X) :
    ∃ c ∈ d.codeMark 0, c ∉ d.isoText 0 := by
  have hiso : ∀ c ∈ d.isoText 0, c ∈ ([32, 48] : List Byte) := by
    have hhead : d.head 0 = [] := by
      rw [Directive.head, Directive.mark, if_neg fun h => h.2 rfl, Directive.sign,
        if_neg (Int.lt_irrefl 0)]
      rcases hconv with h | h <;> rw [h] <;> rfl
    intro c hc
    rw [Directive.isoText, hhead, Directive.numeral, if_pos rfl] at hc
    split_ifs at hc <;> simp only [List.mem_append, List.mem_replicate, List.nil_append] at hc <;>
      grind
  rcases hconv with h | h
  · refine ⟨120, ?_, fun hc => absurd (hiso 120 hc) (by decide)⟩
    rw [Directive.codeMark, if_pos ⟨hhash, rfl⟩, h]
    decide
  · refine ⟨88, ?_, fun hc => absurd (hiso 88 hc) (by decide)⟩
    rw [Directive.codeMark, if_pos ⟨hhash, rfl⟩, h]
    decide

end Filling

/-! ### `vprintf` at an integer -/

/-- The value of an unsigned conversion is not negative. -/
theorem value_nonneg (d : Directive) (slot : BitVec 64) (h : d.conv.isSigned = false) :
    0 ≤ d.value slot := by
  rw [Directive.value, h]
  exact Int.natCast_nonneg _

/-- `vprintf` does with a directive for an integer what ISO C prescribes, wherever its loop
comes to it: what is in the buffer is written out, then the text of the value, and the loop
goes on behind the directive with the next argument.  The number has room in `numbuf`. -/
def Prescribed (write : List Byte → ℤ → ℤ) (text : BitVec 64 → List Byte) (d : Directive)
    (ap : VaList) : Prop :=
  (∀ rest buf out, buf.length ≤ 240 →
    vprintfLoop write text (37 :: (d.text ++ rest)) ap buf out =
      vprintfLoop write text rest ap.rest [] (out ++ buf ++ d.isoText (d.value (ap 0)))) ∧
    (d.numbuf ap).length ≤ 64

theorem vprintfLoop_end (write : List Byte → ℤ → ℤ) (text : BitVec 64 → List Byte) (ap : VaList)
    (out : List Byte) : vprintfLoop write text [] ap [] out = some out := by
  rw [vprintfLoop_nil]
  exact congrArg some (putsN_of_le (Nat.le_refl 0))

/-- The loop writes the number in its width. -/
theorem vprintfLoop_integer {write : List Byte → ℤ → ℤ} {buf : List Byte} (hw : Accepts write)
    (text : BitVec 64 → List Byte) (d : Directive) (ap : VaList) (rest out : List Byte)
    (hbuf : buf.length ≤ 240) :
    vprintfLoop write text (37 :: (d.text ++ rest)) ap buf out =
      vprintfLoop write text rest ap.rest []
        (out ++ buf ++ renderNumber d.spec (d.numbuf ap)) := by
  have hspec : ∀ ap, parseSpec (d.text ++ rest) ap = (d.spec, d.conv.char :: rest, ap) :=
    parseSpec_text d rest
  have hskip : skipSpec (d.text ++ rest) = d.conv.char :: rest := by
    rw [skipSpec, hspec]
  have hconv : ∀ out, vprintfConv write text d.spec d.conv.char ap out =
      (printNumber write d.spec (d.numbuf ap) out, [], ap.rest) := by
    intro out
    unfold Directive.numbuf
    cases d.conv <;> rfl
  have hlen := length_numbuf_lt d ap
  rw [vprintfLoop_directive hskip, putsN_flushFull hw hbuf, hspec]
  dsimp only
  rw [hconv, printNumber_eq hw (by omega)]

/-- **When an integer is printed as ISO C prescribes.**  For every directive for an integer and
every argument, where `write` accepts everything: the text is the prescribed one, and the
number has room in `numbuf`, exactly when the width fits an `int` and the directive does not
put a zero in hexadecimal under `#`. -/
theorem vprintf_iso_iff (write : List Byte → ℤ → ℤ) (text : BitVec 64 → List Byte)
    (d : Directive) (ap : VaList) (hw : Accepts write) :
    Prescribed write text d ap ↔ d.width < 2 ^ 31 ∧
      ¬(Flag.hash ∈ d.flags ∧ (d.conv = .x ∨ d.conv = .X) ∧ d.value (ap 0) = 0) := by
  constructor
  · rintro ⟨hprinted, -⟩
    have heq : renderNumber d.spec (d.numbuf ap) = d.isoText (d.value (ap 0)) := by
      have h := hprinted [] [] [] (Nat.zero_le _)
      rw [vprintfLoop_integer hw text d ap [] [] (Nat.zero_le _), vprintfLoop_end,
        vprintfLoop_end] at h
      exact Option.some.inj h
    constructor
    · have hlt := length_renderNumber_lt d (length_numbuf_lt d ap)
      have hle := le_length_isoText d (d.value (ap 0))
      rw [heq] at hlt
      omega
    · rintro ⟨hhash, hconv, hzero⟩
      obtain ⟨c, hc, hiso⟩ := exists_mem_codeMark d hhash hconv
      refine hiso ?_
      rw [hzero] at heq
      rw [← heq]
      refine mem_renderNumber d.spec ?_
      rw [numbuf_eq, hzero]
      exact List.mem_append_left _ (List.mem_append_right _ hc)
  · rintro ⟨hwidth, hmark⟩
    refine ⟨fun rest buf out hbuf => ?_, Nat.le_of_lt (length_numbuf_lt d ap)⟩
    rw [vprintfLoop_integer hw text d ap rest out hbuf, numbuf_eq, codeMark_eq_mark d hmark]
    exact congrArg (fun s => vprintfLoop write text rest ap.rest [] (out ++ buf ++ s))
      (renderNumber_eq_isoText d _ hwidth (value_nonneg d (ap 0)))

theorem vprintf_iso_most_negative :
    Prescribed writeAll (fun _ => []) ⟨[.space, .zero], 24, .ll, .d⟩ (fun _ => 1 <<< 63) :=
  (vprintf_iso_iff writeAll (fun _ => []) ⟨[.space, .zero], 24, .ll, .d⟩ (fun _ => 1 <<< 63)
    accepts_writeAll).2 ⟨by decide, by decide⟩

/-- **A zero has `0x` before it**: `%#x` prints `0x0` for it. -/
theorem vprintf_hash_zero : Accepts writeAll ∧
    vprintfLoop writeAll (fun _ => []) [37, 35, 120] (fun _ => 0) [] [] =
      some [48, 120, 48] ∧
    ¬Prescribed writeAll (fun _ => []) ⟨[.hash], 0, .none, .x⟩ (fun _ => 0) := by
  have hprinted : vprintfLoop writeAll (fun _ => []) [37, 35, 120] (fun _ => 0) [] [] =
      some [48, 120, 48] := by
    refine (vprintfLoop_integer accepts_writeAll (fun _ => []) ⟨[.hash], 0, .none, .x⟩
      (fun _ => 0) [] [] (Nat.zero_le _)).trans ?_
    rw [vprintfLoop_end]
    rfl
  refine ⟨accepts_writeAll, hprinted, ?_⟩
  rintro ⟨h, -⟩
  have hiso := h [] [] [] (Nat.zero_le _)
  rw [vprintfLoop_end] at hiso
  exact absurd (Option.some.inj (hprinted.symm.trans hiso)) (by decide)

end Printf
end V6User
