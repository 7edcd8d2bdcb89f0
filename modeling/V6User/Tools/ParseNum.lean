import V6User.Base.Numeral
import V6User.Shell.Token

/-!
# Numbers in arguments

`programs/dd/dd.c` and `programs/dh/dh.c`: `parse_num`.

A number is written with digits, in `dh` also with hexadecimal ones after `0x`, and a suffix
`K` or `M` in either case.  Both functions read it in an `int64` that wraps, and neither asks
whether there was a digit.  So they return what the numeral says, and `-1` for everything else,
exactly on the arguments that are not a numeral without its digits and whose number fits, or
happens to wrap to `-1` (`parseNum_exact_iff`).
-/

namespace V6User
namespace Tools

open Shell (Byte)
open CInt Numeral

/-! ### The two functions -/

/-- The value of a decimal digit. -/
def decimalVal (c : Byte) : Option ℕ := if 48 ≤ c ∧ c ≤ 57 then some (c.toNat - 48) else none

/-- The value of a hexadecimal digit. -/
def hexVal (c : Byte) : Option ℕ :=
  if 48 ≤ c ∧ c ≤ 57 then some (c.toNat - 48)
  else if 97 ≤ c ∧ c ≤ 102 then some (c.toNat - 97 + 10)
  else if 65 ≤ c ∧ c ≤ 70 then some (c.toNat - 65 + 10)
  else none

/-- The loop over the digits: the number in the end, and what is left of the text. -/
def accumulate (val : Byte → Option ℕ) (base : ℕ) (n : ℤ) : List Byte → ℤ × List Byte
  | [] => (n, [])
  | c :: s =>
    match val c with
    | some d => accumulate val base (int64 (n * base + d)) s
    | none => (n, c :: s)

/-- What the suffix makes of a number, and what is left of the text. -/
def scale (n : ℤ) : List Byte → ℤ × List Byte
  | 75 :: s => (int64 (n * 1024), s)
  | 107 :: s => (int64 (n * 1024), s)
  | 77 :: s => (int64 (n * (1024 * 1024)), s)
  | 109 :: s => (int64 (n * (1024 * 1024)), s)
  | s => (n, s)

/-- The lines of `parse_num` after the digits. -/
def finish (n : ℤ) (s : List Byte) : ℤ := if (scale n s).2 = [] then (scale n s).1 else -1

/-- The loop over the digits and the lines after it. -/
def readNum (val : Byte → Option ℕ) (base : ℕ) (s : List Byte) : ℤ :=
  finish (accumulate val base 0 s).1 (accumulate val base 0 s).2

/-- `parse_num(s)` of `dd`. -/
def Dd.parseNum (s : List Byte) : ℤ := if s = [] then -1 else readNum decimalVal 10 s

/-- `parse_num(s)` of `dh`. -/
def Dh.parseNum (s : List Byte) : ℤ :=
  if s = [] then -1
  else
    match s with
    | 48 :: 120 :: s => readNum hexVal 16 s
    | 48 :: 88 :: s => readNum hexVal 16 s
    | s => readNum decimalVal 10 s

/-! ### What a numeral says -/

/-- How the digits of a numeral are written. -/
inductive Radix where
  | decimal
  | x
  | X
  deriving DecidableEq

/-- What stands before the digits. -/
def Radix.chars : Radix → List Byte
  | .decimal => []
  | .x => [48, 120]
  | .X => [48, 88]

def Radix.base : Radix → ℕ
  | .decimal => 10
  | .x => 16
  | .X => 16

def Radix.val : Radix → Byte → Option ℕ
  | .decimal => decimalVal
  | .x => hexVal
  | .X => hexVal

/-- A suffix. -/
inductive Suffix where
  | none
  | k
  | K
  | m
  | M
  deriving DecidableEq

def Suffix.chars : Suffix → List Byte
  | .none => []
  | .k => [107]
  | .K => [75]
  | .m => [109]
  | .M => [77]

def Suffix.factor : Suffix → ℕ
  | .none => 1
  | .k => 1024
  | .K => 1024
  | .m => 1024 * 1024
  | .M => 1024 * 1024

/-- A numeral.  It may be without digits, as neither function asks for one. -/
structure Written where
  radix : Radix
  digits : List Byte
  valid : ∀ c ∈ digits, (radix.val c).isSome
  suffix : Suffix

/-- A numeral as it is written. -/
def Written.text (w : Written) : List Byte := w.radix.chars ++ (w.digits ++ w.suffix.chars)

/-- The number that a numeral says. -/
def Written.value (w : Written) : ℕ :=
  more w.radix.base 0 (w.digits.filterMap w.radix.val) * w.suffix.factor

/-- The result for a text is the number of a numeral that has digits and fits an `int64`, and
`-1` where the text is none. -/
def Exact (radices : List Radix) (s : List Byte) (result : ℤ) : Prop :=
  (∀ w : Written, w.radix ∈ radices → w.text = s → w.digits ≠ [] → w.value < 2 ^ 63 →
    result = w.value) ∧
  ((∀ w : Written, w.radix ∈ radices → w.text = s → w.digits ≠ [] → 2 ^ 63 ≤ w.value) →
    result = -1)

/-- The text is no numeral without its digits, and where it is a numeral the number fits an
`int64`, or is one less than a multiple of `2 ^ 64`. -/
def Harmless (radices : List Radix) (s : List Byte) : Prop :=
  ∀ w : Written, w.radix ∈ radices → w.text = s → s ≠ [] →
    w.digits ≠ [] ∧ (w.value < 2 ^ 63 ∨ w.value % 2 ^ 64 = 2 ^ 64 - 1)

section Reading

variable {val : Byte → Option ℕ} {base : ℕ} {s : List Byte}

/-- The loop reads the digits. -/
theorem accumulate_eq (n : ℤ) : accumulate val base n s =
    (wrapped base n (spanDigits val s).1, (spanDigits val s).2) := by
  induction s generalizing n with
  | nil => rfl
  | cons c s ih =>
    rw [accumulate, spanDigits]
    cases val c with
    | none => rfl
    | some d => exact ih (int64 (n * base + d))

theorem int64_mul (n k : ℕ) : int64 (int64 n * k) = int64 (n * k : ℕ) := by
  have h := int64_mul_add n k 0
  rw [Int.add_zero, Int.add_zero] at h
  rw [h]
  push_cast
  rfl

/-- A suffix multiplies, and nothing is left after it. -/
theorem finish_suffix (n : ℕ) (suffix : Suffix) :
    finish (int64 n) suffix.chars = int64 (n * suffix.factor : ℕ) := by
  cases suffix with
  | none => simp [finish, scale, Suffix.chars, Suffix.factor]
  | _ =>
    rw [← int64_mul]
    simp [finish, scale, Suffix.chars, Suffix.factor]

theorem finish_of_notSuffix (n : ℤ) (h : ∀ suffix : Suffix, s ≠ suffix.chars) :
    finish n s = -1 := by
  have hleft : (scale n s).2 ≠ [] := by
    unfold scale
    split
    · exact fun hs => h .K (congrArg (List.cons _) hs)
    · exact fun hs => h .k (congrArg (List.cons _) hs)
    · exact fun hs => h .M (congrArg (List.cons _) hs)
    · exact fun hs => h .m (congrArg (List.cons _) hs)
    · exact h .none
  exact if_neg hleft

end Reading

/-! ### Numerals are read as they are meant -/

theorem val_suffix (radix : Radix) (suffix : Suffix) :
    ∀ c ∈ suffix.chars.head?, radix.val c = none := by
  cases radix <;> cases suffix <;> rintro c ⟨rfl⟩ <;> decide

/-- The digits and the suffix of a numeral are read as its number. -/
theorem readNum_written (w : Written) :
    readNum w.radix.val w.radix.base (w.digits ++ w.suffix.chars) = int64 w.value := by
  have hfold := wrapped_eq w.radix.base 0 (w.digits.filterMap w.radix.val)
  rw [Nat.cast_zero, int64_of_range (by decide) (by decide)] at hfold
  rw [readNum, accumulate_eq, spanDigits_append w.valid (val_suffix w.radix w.suffix), hfold,
    finish_suffix, Written.value]

/-- Digits that no suffix follows are no numeral. -/
theorem readNum_of_not {val : Byte → Option ℕ} {base : ℕ} {s : List Byte}
    (h : ∀ (digits : List Byte) (suffix : Suffix), (∀ c ∈ digits, (val c).isSome) →
      s ≠ digits ++ suffix.chars) : readNum val base s = -1 := by
  obtain ⟨digits, rest, rfl, hdigits, hrest⟩ := exists_spanDigits val s
  rw [readNum, accumulate_eq, spanDigits_append hdigits hrest]
  refine finish_of_notSuffix _ fun suffix hsuffix => h digits suffix hdigits ?_
  exact congrArg (digits ++ ·) hsuffix

/-- How `dh` takes a text to be written. -/
def radixOf : List Byte → Radix
  | 48 :: 120 :: _ => .x
  | 48 :: 88 :: _ => .X
  | _ => .decimal

theorem radixOf_text (w : Written) : radixOf w.text = w.radix := by
  obtain ⟨radix, digits, hdigits, suffix⟩ := w
  cases radix with
  | x => rfl
  | X => rfl
  | decimal =>
    have hchars : ∀ c ∈ digits ++ suffix.chars, c ≠ 120 ∧ c ≠ 88 := by
      intro c hc
      rcases List.mem_append.1 hc with hc | hc
      · have hdigit := hdigits c hc
        constructor <;> rintro rfl <;> exact absurd hdigit (by decide)
      · revert hc
        cases suffix <;> simp +contextual [Suffix.chars]
    change radixOf (digits ++ suffix.chars) = .decimal
    unfold radixOf
    split
    · rename_i heq
      exact absurd rfl (hchars 120 (heq ▸ by simp)).1
    · rename_i heq
      exact absurd rfl (hchars 88 (heq ▸ by simp)).2
    · rfl

theorem text_injective : Function.Injective Written.text := by
  intro w w' h
  have hradix : w.radix = w'.radix := by rw [← radixOf_text w, h, radixOf_text]
  obtain ⟨radix, digits, hdigits, suffix⟩ := w
  obtain ⟨radix', digits', hdigits', suffix'⟩ := w'
  obtain rfl : radix = radix' := hradix
  have hrest : digits ++ suffix.chars = digits' ++ suffix'.chars := List.append_cancel_left h
  have hspan := spanDigits_append hdigits (val_suffix radix suffix)
  rw [hrest, spanDigits_append hdigits' (val_suffix radix suffix')] at hspan
  have hchars : suffix'.chars = suffix.chars := congrArg Prod.snd hspan
  obtain rfl : suffix' = suffix := by
    cases suffix <;> cases suffix' <;> first | rfl | exact absurd hchars (by decide)
  obtain rfl : digits = digits' := List.append_cancel_right hrest
  rfl

theorem dd_parseNum_written {w : Written} (hradix : w.radix ∈ [Radix.decimal])
    (hne : w.text ≠ []) : Dd.parseNum w.text = int64 w.value := by
  have hread := readNum_written w
  rw [Dd.parseNum, if_neg hne, Written.text]
  rw [List.mem_singleton.1 hradix] at hread ⊢
  exact hread

theorem dd_parseNum_of_not {s : List Byte}
    (h : ∀ w : Written, w.radix ∈ [Radix.decimal] → w.text ≠ s) : Dd.parseNum s = -1 := by
  rw [Dd.parseNum]
  split_ifs
  · rfl
  · refine readNum_of_not fun digits suffix hdigits heq => ?_
    exact h ⟨.decimal, digits, hdigits, suffix⟩ (List.mem_singleton.2 rfl) heq.symm

/-- `dh` tells by the first two characters how a numeral is written. -/
theorem dh_parseNum_eq {s : List Byte} (hne : s ≠ []) : ∃ rest, s = (radixOf s).chars ++ rest ∧
    Dh.parseNum s = readNum (radixOf s).val (radixOf s).base rest := by
  unfold Dh.parseNum radixOf
  rw [if_neg hne]
  split
  · refine ⟨_, rfl, ?_⟩
    rw [Radix.val, Radix.base]
  · refine ⟨_, rfl, ?_⟩
    rw [Radix.val, Radix.base]
  · refine ⟨_, rfl, ?_⟩
    rw [Radix.val, Radix.base]

theorem dh_parseNum_written {w : Written} (hne : w.text ≠ []) :
    Dh.parseNum w.text = int64 w.value := by
  obtain ⟨rest, htext, hparse⟩ := dh_parseNum_eq hne
  rw [radixOf_text] at htext hparse
  obtain rfl : w.digits ++ w.suffix.chars = rest := List.append_cancel_left htext
  rw [hparse, readNum_written]

theorem dh_parseNum_of_not {s : List Byte} (h : ∀ w : Written, w.text ≠ s) :
    Dh.parseNum s = -1 := by
  by_cases hne : s = []
  · rw [hne]
    rfl
  · obtain ⟨rest, htext, hparse⟩ := dh_parseNum_eq hne
    rw [hparse]
    refine readNum_of_not fun digits suffix hdigits heq => ?_
    refine h ⟨radixOf s, digits, hdigits, suffix⟩ ?_
    exact (congrArg ((radixOf s).chars ++ ·) heq).symm.trans htext.symm

/-! ### When the result is exact -/

theorem int64_eq_neg_one_iff (n : ℕ) : int64 n = -1 ↔ n % 2 ^ 64 = 2 ^ 64 - 1 := by
  rw [int64, Int.bmod_def]
  split_ifs <;> omega

/-- A function that reads numerals in 64 bits is exact on the harmless texts. -/
theorem exact_iff {parse : List Byte → ℤ} {radices : List Radix} (hnil : parse [] = -1)
    (hwritten : ∀ w : Written, w.radix ∈ radices → w.text ≠ [] → parse w.text = int64 w.value)
    (hnot : ∀ s, (∀ w : Written, w.radix ∈ radices → w.text ≠ s) → parse s = -1) (s : List Byte) :
    Exact radices s (parse s) ↔ Harmless radices s := by
  constructor
  · rintro ⟨hvalue, hnone⟩ w hradix rfl hne
    have hparse := hwritten w hradix hne
    have hunique : ∀ w' : Written, w'.text = w.text → w' = w := fun w' h => text_injective h
    have hdigits : w.digits ≠ [] := by
      intro hdigits
      have hzero : w.value = 0 := by
        rw [Written.value, hdigits, List.filterMap_nil, more, List.foldl_nil, Nat.zero_mul]
      have hnone := hnone fun w' _ htext hdigits' => absurd (hunique w' htext ▸ hdigits) hdigits'
      rw [hparse, hzero] at hnone
      exact absurd hnone (by decide)
    refine ⟨hdigits, ?_⟩
    by_cases hfits : w.value < 2 ^ 63
    · exact .inl hfits
    · have hnone := hnone fun w' _ htext _ => hunique w' htext ▸ Nat.le_of_not_lt hfits
      exact .inr ((int64_eq_neg_one_iff _).1 (hparse.symm.trans hnone))
  · intro hharmless
    constructor
    · rintro w hradix rfl hdigits hfits
      have hne : w.text ≠ [] := by
        rw [Written.text]
        simp [hdigits]
      rw [hwritten w hradix hne, int64_of_range (by omega) (by omega)]
    · intro hlarge
      by_cases hempty : s = []
      · rw [hempty, hnil]
      by_cases hnumeral : ∃ w : Written, w.radix ∈ radices ∧ w.text = s
      · obtain ⟨w, hradix, rfl⟩ := hnumeral
        obtain ⟨hdigits, hfits | hwraps⟩ := hharmless w hradix rfl hempty
        · exact absurd hfits (Nat.not_lt.2 (hlarge w hradix rfl hdigits))
        · rw [hwritten w hradix hempty]
          exact (int64_eq_neg_one_iff _).2 hwraps
      · exact hnot s fun w hradix htext => hnumeral ⟨w, hradix, htext⟩

/-- **When a number is read exactly.**  For every text, `parse_num` of `dd` (whose numerals are
decimal) and of `dh` returns the number that the text says, and `-1` where it says none that
fits an `int64`, exactly when the text is not a numeral without its digits, such as `K` or
`0x`, and its number fits or wraps to `-1`. -/
theorem parseNum_exact_iff (s : List Byte) :
    (Exact [.decimal] s (Dd.parseNum s) ↔ Harmless [.decimal] s) ∧
      (Exact [.decimal, .x, .X] s (Dh.parseNum s) ↔ Harmless [.decimal, .x, .X] s) := by
  constructor
  · exact exact_iff rfl (fun w hradix hne => dd_parseNum_written hradix hne)
      (fun s h => dd_parseNum_of_not h) s
  · have hall : ∀ w : Written, w.radix ∈ [Radix.decimal, .x, .X] := by
      intro w
      cases w.radix <;> decide
    exact exact_iff rfl (fun w _ hne => dh_parseNum_written hne)
      (fun s h => dh_parseNum_of_not fun w => h w (hall w)) s

/-- **A suffix alone is read as zero**, by both functions, and so is `0x` by `dh`. -/
theorem parseNum_no_digits : Dd.parseNum [75] = 0 ∧ Dh.parseNum [75] = 0 ∧
    Dh.parseNum [48, 120] = 0 ∧ ¬Exact [.decimal] [75] (Dd.parseNum [75]) := by
  refine ⟨by decide, by decide, by decide, ?_⟩
  rintro ⟨-, hnone⟩
  have hbare : ∀ w : Written, w.text = [75] → w.digits = [] := by
    intro w hw
    have heq : w = ⟨.decimal, [], by simp, .K⟩ := text_injective hw
    rw [heq]
  have hresult := hnone fun w _ htext hdigits => absurd (hbare w htext) hdigits
  exact absurd hresult (by decide)

end Tools
end V6User
