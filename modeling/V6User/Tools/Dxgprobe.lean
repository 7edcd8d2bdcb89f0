import V6User.Tools.ParseNum

/-!
# Numbers in the options of `dxgprobe`

`programs/dxgprobe/dxgprobe.c`: `parse_u32_option_value` and `parse_u64_option_value`.

A number is written with decimal digits, or with hexadecimal ones after `0x`.  The function for
32 bits adds a digit and then looks whether the number still fits, the one for 64 bits looks
before it adds the digit, as there would be nothing to see afterwards.  Both accept exactly the
numerals that fit and return what these say (`parse_optionValue_exact`).
-/

namespace V6User
namespace Tools
namespace Dxgprobe

open Shell (Byte CStr)
open Numeral

/-! ### The two functions -/

/-- The chain of `if`s that makes a digit of a character, up to `if (digit >= base)`. -/
def digit (base : ℕ) (c : Byte) : Option ℕ :=
  let digit :=
    if 48 ≤ c ∧ c ≤ 57 then some (c.toNat - 48)
    else if base = 16 ∧ 97 ≤ c ∧ c ≤ 102 then some (c.toNat - 97 + 10)
    else if base = 16 ∧ 65 ≤ c ∧ c ≤ 70 then some (c.toNat - 65 + 10)
    else none
  digit.filter (· < base)

/-- The `for` loop of `parse_u32_option_value`. -/
def loop32 (base : ℕ) (parsed : UInt64) : List Byte → Option UInt64
  | [] => some parsed
  | c :: s =>
    match digit base c with
    | none => none
    | some d =>
      let parsed := parsed * .ofNat base + .ofNat d
      if 0xffffffff < parsed then none else loop32 base parsed s

/-- The `for` loop of `parse_u64_option_value`. -/
def loop64 (base : ℕ) (parsed : UInt64) : List Byte → Option UInt64
  | [] => some parsed
  | c :: s =>
    match digit base c with
    | none => none
    | some d =>
      if (~~~0 - .ofNat d) / .ofNat base < parsed then none
      else loop64 base (parsed * .ofNat base + .ofNat d) s

/-- What both functions do: the number in a text, if it is one. -/
def parse (loop : ℕ → UInt64 → List Byte → Option UInt64) : List Byte → Option UInt64
  | [] => none
  | 48 :: 120 :: s => if s = [] then none else loop 16 0 s
  | 48 :: 88 :: s => if s = [] then none else loop 16 0 s
  | s => loop 10 0 s

/-- `parse_u32_option_value(value, out)`: the result, and `*out` then. -/
def parseU32OptionValue (value : Option CStr) (out : Option UInt32) : ℤ × Option UInt32 :=
  match value, out with
  | some value, some out =>
    match parse loop32 value.bytes with
    | none => (-1, some out)
    | some parsed => (0, some parsed.toUInt32)
  | _, out => (-1, out)

/-- `parse_u64_option_value(value, out)`: the result, and `*out` then. -/
def parseU64OptionValue (value : Option CStr) (out : Option UInt64) : ℤ × Option UInt64 :=
  match value, out with
  | some value, some out =>
    match parse loop64 value.bytes with
    | none => (-1, some out)
    | some parsed => (0, some parsed)
  | _, out => (-1, out)

/-! ### Numerals -/

/-- A numeral: decimal digits, or hexadecimal ones after `0x` or `0X`, and at least one. -/
structure OptionNumeral where
  radix : Radix
  digits : Digits radix.val

/-- A numeral as it is written. -/
def OptionNumeral.text (w : OptionNumeral) : List Byte := w.radix.chars ++ w.digits.chars

/-- The number that a numeral says. -/
def OptionNumeral.value (w : OptionNumeral) : ℕ := w.digits.value w.radix.base

variable {loop : ℕ → UInt64 → List Byte → Option UInt64} {s : List Byte} {max : ℕ} {n : UInt64}

/-! ### The loops -/

theorem val_lt {r : Radix} {c : Byte} {d : ℕ} (h : r.val c = some d) : d < r.base := by
  cases r
  all_goals
    simp only [Radix.val, Radix.base, decimalVal, hexVal, UInt8.le_iff_toNat_le,
      UInt8.reduceToNat] at h ⊢
    split_ifs at h <;> · obtain rfl := Option.some.inj h; omega

/-- The digits are those of the notation. -/
theorem digit_eq (r : Radix) (c : Byte) : digit r.base c = r.val c := by
  have hchain : digit r.base c = (r.val c).filter (· < r.base) := by
    cases r <;> simp [digit, Radix.val, Radix.base, decimalVal, hexVal]
  rw [hchain]
  cases hc : r.val c with
  | none => rfl
  | some d => rw [Option.filter_some, if_pos (decide_eq_true (val_lt hc))]

theorem base_bounds (r : Radix) : 0 < r.base ∧ r.base ≤ 16 := by
  cases r <;> decide

/-- A loop accepts the digits of the numbers up to `max`, and returns the number. -/
def Reads (max : ℕ) (loop : ℕ → UInt64 → List Byte → Option UInt64) : Prop :=
  ∀ (r : Radix) (s : List Byte),
    ((∀ c ∈ s, (r.val c).isSome) → loop r.base 0 s =
      if more r.base 0 (s.filterMap r.val) ≤ max then
        some (.ofNat (more r.base 0 (s.filterMap r.val)))
      else none) ∧
    (¬(∀ c ∈ s, (r.val c).isSome) → loop r.base 0 s = none)

/-- Another digit, where there is room for it in 64 bits. -/
theorem toNat_mul_add {b d : ℕ} (h : n.toNat * b + d < 2 ^ 64) (hb : b < 2 ^ 64) :
    (n * .ofNat b + .ofNat d).toNat = n.toNat * b + d := by
  rw [UInt64.toNat_add, UInt64.toNat_mul, UInt64.toNat_ofNat', UInt64.toNat_ofNat',
    Nat.mod_eq_of_lt hb, Nat.mod_eq_of_lt (show d < 2 ^ 64 by omega), Nat.mod_add_mod,
    Nat.mod_eq_of_lt h]

/-- The loop for 32 bits does not wrap, as it stops before. -/
theorem loop32_eq (r : Radix) (hs : ∀ c ∈ s, (r.val c).isSome) (hn : n.toNat < 2 ^ 32) :
    loop32 r.base n s =
      (checked (2 ^ 32 - 1) r.base n.toNat (s.filterMap r.val)).map .ofNat := by
  induction s generalizing n with
  | nil =>
    rw [loop32, List.filterMap_nil, checked, Option.map_some, UInt64.ofNat_toNat]
  | cons c s ih =>
    obtain ⟨hc, hs⟩ := List.forall_mem_cons.1 hs
    obtain ⟨d, hd⟩ := Option.isSome_iff_exists.1 hc
    obtain ⟨hpos, hbase⟩ := base_bounds r
    have hlt := val_lt hd
    have hmul : n.toNat * r.base ≤ n.toNat * 16 := Nat.mul_le_mul_left _ hbase
    have hnext := toNat_mul_add (n := n) (b := r.base) (d := d) (by omega) (by omega)
    have hmax : (0xffffffff : UInt64).toNat = 2 ^ 32 - 1 := rfl
    have htest : 0xffffffff < n * .ofNat r.base + .ofNat d ↔
        2 ^ 32 - 1 < n.toNat * r.base + d := by
      rw [UInt64.lt_iff_toNat_lt, hnext, hmax]
    rw [loop32, digit_eq, hd, List.filterMap_cons_some hd, checked]
    dsimp only
    by_cases hbig : 2 ^ 32 - 1 < n.toNat * r.base + d
    · rw [if_pos (htest.2 hbig), if_pos hbig]
      rfl
    · rw [if_neg (mt htest.1 hbig), if_neg hbig, ih hs (by omega), hnext]

/-- The loop for 64 bits does not wrap, as it looks before it adds a digit. -/
theorem loop64_eq (r : Radix) (hs : ∀ c ∈ s, (r.val c).isSome) :
    loop64 r.base n s =
      (guarded (2 ^ 64 - 1) r.base n.toNat (s.filterMap r.val)).map .ofNat := by
  induction s generalizing n with
  | nil =>
    rw [loop64, List.filterMap_nil, guarded, Option.map_some, UInt64.ofNat_toNat]
  | cons c s ih =>
    obtain ⟨hc, hs⟩ := List.forall_mem_cons.1 hs
    obtain ⟨d, hd⟩ := Option.isSome_iff_exists.1 hc
    obtain ⟨hpos, hbase⟩ := base_bounds r
    have hlt := val_lt hd
    have hquot : ((~~~0 - .ofNat d) / .ofNat r.base : UInt64).toNat =
        (2 ^ 64 - 1 - d) / r.base := by
      have hall : (~~~0 : UInt64).toNat = 2 ^ 64 - 1 := rfl
      have hof : (UInt64.ofNat d).toNat = d := UInt64.toNat_ofNat_of_lt' (by
        unfold UInt64.size
        omega)
      have hof' : (UInt64.ofNat r.base).toNat = r.base := UInt64.toNat_ofNat_of_lt' (by
        unfold UInt64.size
        omega)
      have hle : UInt64.ofNat d ≤ ~~~0 := UInt64.le_iff_toNat_le.2 (by rw [hall, hof]; omega)
      rw [UInt64.toNat_div, UInt64.toNat_sub_of_le _ _ hle, hall, hof, hof']
    have htest : (~~~0 - .ofNat d) / .ofNat r.base < n ↔
        (2 ^ 64 - 1 - d) / r.base < n.toNat := by
      rw [UInt64.lt_iff_toNat_lt, hquot]
    rw [loop64, digit_eq, hd, List.filterMap_cons_some hd, guarded]
    dsimp only
    by_cases hbig : (2 ^ 64 - 1 - d) / r.base < n.toNat
    · rw [if_pos (htest.2 hbig), if_pos hbig]
      rfl
    · have hroom := mt (div_lt_iff hpos (show d ≤ 2 ^ 64 - 1 by omega)).2 hbig
      rw [if_neg (mt htest.1 hbig), if_neg hbig, ih hs, toNat_mul_add (by omega) (by omega)]

/-- A character that is no digit ends both loops. -/
theorem loop_of_not (r : Radix) (hs : ¬∀ c ∈ s, (r.val c).isSome) :
    loop32 r.base n s = none ∧ loop64 r.base n s = none := by
  induction s generalizing n with
  | nil => exact absurd (fun c hc => absurd hc List.not_mem_nil) hs
  | cons c s ih =>
    rw [loop32, loop64, digit_eq]
    cases hc : r.val c with
    | none => exact ⟨rfl, rfl⟩
    | some d =>
      have hrest : ¬∀ c ∈ s, (r.val c).isSome := fun h =>
        hs (List.forall_mem_cons.2 ⟨by rw [hc]; rfl, h⟩)
      dsimp only
      constructor
      · split_ifs
        · rfl
        · exact (ih hrest).1
      · split_ifs
        · rfl
        · exact (ih hrest).2

theorem digits_le {r : Radix} {d : ℕ} (hd : d ∈ s.filterMap r.val) : d ≤ 2 ^ 32 - 1 := by
  obtain ⟨c, -, hc⟩ := List.mem_filterMap.1 hd
  have hlt := val_lt hc
  have hbase := (base_bounds r).2
  omega

/-- A number is read if it is not above `max`. -/
theorem map_guarded_eq {r : Radix} (hmax : 2 ^ 32 - 1 ≤ max) :
    (guarded max r.base 0 (s.filterMap r.val)).map UInt64.ofNat =
      if more r.base 0 (s.filterMap r.val) ≤ max then
        some (.ofNat (more r.base 0 (s.filterMap r.val)))
      else none := by
  have hdigits : ∀ d ∈ s.filterMap r.val, d ≤ max := fun d hd => (digits_le hd).trans hmax
  rw [guarded_eq (base_bounds r).1 hdigits (Nat.zero_le _), apply_ite (Option.map _)]
  rfl

theorem reads_loop32 : Reads (2 ^ 32 - 1) loop32 := by
  intro r s
  constructor
  · intro hs
    have hloop := loop32_eq (n := 0) r hs (by decide)
    rw [checked_eq_guarded (base_bounds r).1 fun d => digits_le] at hloop
    rw [hloop, UInt64.toNat_zero, map_guarded_eq (Nat.le_refl _)]
  · exact fun hs => (loop_of_not r hs).1

theorem reads_loop64 : Reads (2 ^ 64 - 1) loop64 := by
  intro r s
  constructor
  · intro hs
    rw [loop64_eq r hs, UInt64.toNat_zero, map_guarded_eq (by decide)]
  · exact fun hs => (loop_of_not r hs).2

/-! ### What is accepted -/

theorem radixOf_text (w : OptionNumeral) : radixOf w.text = w.radix := by
  have h := Tools.radixOf_text ⟨w.radix, w.digits.chars, w.digits.valid, .none⟩
  rw [Written.text, Suffix.chars, List.append_nil] at h
  exact h

/-- The first two characters tell how a numeral is written. -/
theorem parse_eq (loop : ℕ → UInt64 → List Byte → Option UInt64) (hne : s ≠ []) :
    ∃ rest, s = (radixOf s).chars ++ rest ∧
    parse loop s = if rest = [] then none else loop (radixOf s).base 0 rest := by
  unfold radixOf
  split
  · exact ⟨_, rfl, rfl⟩
  · exact ⟨_, rfl, rfl⟩
  · rename_i hx hX
    refine ⟨s, rfl, ?_⟩
    rw [if_neg hne]
    unfold parse
    split
    · exact absurd rfl hne
    · exact absurd rfl (hx _)
    · exact absurd rfl (hX _)
    · rfl

/-- **Both functions** read the numerals up to a bound, and nothing else. -/
theorem parse_exact (hloop : Reads max loop) (s : List Byte) :
    (∀ w : OptionNumeral, w.text = s → w.value ≤ max → parse loop s = some (.ofNat w.value)) ∧
      ((∀ w : OptionNumeral, w.text = s → max < w.value) → parse loop s = none) := by
  constructor
  · rintro w rfl hvalue
    have hne : w.text ≠ [] := by
      simp [OptionNumeral.text, w.digits.ne_nil]
    obtain ⟨rest, htext, hparse⟩ := parse_eq loop hne
    rw [radixOf_text] at htext hparse
    obtain rfl : w.digits.chars = rest := List.append_cancel_left htext
    rw [hparse, if_neg w.digits.ne_nil, (hloop w.radix _).1 w.digits.valid]
    exact if_pos hvalue
  · intro hlarge
    by_cases hempty : s = []
    · rw [hempty, parse]
    obtain ⟨rest, htext, hparse⟩ := parse_eq loop hempty
    rw [hparse]
    split_ifs with hrest
    · rfl
    · by_cases hvalid : ∀ c ∈ rest, ((radixOf s).val c).isSome
      · rw [(hloop (radixOf s) rest).1 hvalid]
        exact if_neg (Nat.not_le.2 (hlarge ⟨radixOf s, rest, hrest, hvalid⟩ htext.symm))
      · exact (hloop (radixOf s) rest).2 hvalid

section Functions

variable {s : CStr} {w : OptionNumeral} {out32 : UInt32} {out64 : UInt64}

theorem parseU32OptionValue_text (hw : w.text = s.bytes) (hfits : w.value < 2 ^ 32) :
    parseU32OptionValue (some s) (some out32) = (0, some (.ofNat w.value)) := by
  have hparse := (parse_exact reads_loop32 s.bytes).1 w hw (by omega)
  rw [parseU32OptionValue, hparse]
  simp only [UInt64.toUInt32_ofNat']

theorem parseU64OptionValue_text (hw : w.text = s.bytes) (hfits : w.value < 2 ^ 64) :
    parseU64OptionValue (some s) (some out64) = (0, some (.ofNat w.value)) := by
  have hparse := (parse_exact reads_loop64 s.bytes).1 w hw (by omega)
  rw [parseU64OptionValue, hparse]

end Functions

/-- **Numbers in options are read exactly.**  For every string, the functions for 32 and for 64
bits return the number of a numeral that fits, and `-1` with `*out` unchanged where there is no
such numeral.  Both have the same number where it is below `2 ^ 32`. -/
theorem parse_optionValue_exact (s : CStr) (out32 : UInt32) (out64 : UInt64) :
    ((∀ w : OptionNumeral, w.text = s.bytes → w.value < 2 ^ 32 →
        ∃ v, parseU32OptionValue (some s) (some out32) = (0, some v) ∧ v.toNat = w.value) ∧
      ((∀ w : OptionNumeral, w.text = s.bytes → 2 ^ 32 ≤ w.value) →
        parseU32OptionValue (some s) (some out32) = (-1, some out32))) ∧
    ((∀ w : OptionNumeral, w.text = s.bytes → w.value < 2 ^ 64 →
        ∃ v, parseU64OptionValue (some s) (some out64) = (0, some v) ∧ v.toNat = w.value) ∧
      ((∀ w : OptionNumeral, w.text = s.bytes → 2 ^ 64 ≤ w.value) →
        parseU64OptionValue (some s) (some out64) = (-1, some out64))) ∧
    (∀ w : OptionNumeral, w.text = s.bytes → w.value < 2 ^ 32 →
      ∃ v v', parseU32OptionValue (some s) (some out32) = (0, some v) ∧
        parseU64OptionValue (some s) (some out64) = (0, some v') ∧ v.toUInt64 = v') := by
  refine ⟨⟨?_, ?_⟩, ⟨?_, ?_⟩, ?_⟩
  · intro w hw hfits
    exact ⟨_, parseU32OptionValue_text hw hfits, UInt32.toNat_ofNat_of_lt' hfits⟩
  · intro hlarge
    have hparse := (parse_exact reads_loop32 s.bytes).2 fun w hw => by
      have hvalue := hlarge w hw
      omega
    rw [parseU32OptionValue, hparse]
  · intro w hw hfits
    exact ⟨_, parseU64OptionValue_text hw hfits, UInt64.toNat_ofNat_of_lt' hfits⟩
  · intro hlarge
    have hparse := (parse_exact reads_loop64 s.bytes).2 fun w hw => by
      have hvalue := hlarge w hw
      omega
    rw [parseU64OptionValue, hparse]
  · intro w hw hfits
    refine ⟨_, _, parseU32OptionValue_text hw hfits,
      parseU64OptionValue_text hw (by omega), ?_⟩
    exact UInt32.toUInt64_ofNat' hfits

end Dxgprobe
end Tools
end V6User
