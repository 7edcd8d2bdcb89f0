import V6User.Shell.Token

/-!
# Quoted fields of a report

`programs/kprofile/kprofile.c`: `print_escaped_quoted`.

Between its quotes the field has only bytes from `!` to `~`, and a tool that reads it up to the
first quote without a backslash, undoing the escapes, has the string again, but for the bytes
that a `?` stands for (`readQuoted_print`).  So strings without such bytes are told apart by
their fields.
-/

namespace V6User
namespace Tools

open Shell (Byte)

/-- What is printed for a byte. -/
def escape (c : Byte) : List Byte :=
  if c = 92 then [92, 92]
  else if c = 34 then [92, 34]
  else if c = 32 then [92, 115]
  else if c = 9 then [92, 116]
  else if c = 10 then [92, 110]
  else if c = 13 then [92, 114]
  else if c < 32 ∨ 127 ≤ c then [63]
  else [c]

/-- `print_escaped_quoted(s)`: what it prints, where no string is a null pointer. -/
def printEscapedQuoted (s : Option (List Byte)) : List Byte :=
  [34] ++ (s.getD []).flatMap escape ++ [34]

/-- A byte that is printed as itself or as an escape of its own. -/
def Kept (c : Byte) : Prop := 32 ≤ c ∧ c ≤ 126 ∨ c = 9 ∨ c = 10 ∨ c = 13

instance (c : Byte) : Decidable (Kept c) := inferInstanceAs (Decidable (_ ∨ _))

/-- A byte, or `?` where it is not kept. -/
def mask (c : Byte) : Byte := if Kept c then c else 63

/-- What an escaped letter stands for. -/
def unescape (c : Byte) : Option Byte :=
  match c with
  | 92 => some 92
  | 34 => some 34
  | 115 => some 32
  | 116 => some 9
  | 110 => some 10
  | 114 => some 13
  | _ => none

/-- A field read after its first quote, up to the next one without a backslash: the string, and
what follows the field. -/
def readField : List Byte → Option (List Byte × List Byte)
  | [] => none
  | [92] => none
  | 92 :: c :: s => do
    let b ← unescape c
    let (field, rest) ← readField s
    return (b :: field, rest)
  | c :: s =>
    if c = 34 then some ([], s)
    else (readField s).map fun r => (c :: r.1, r.2)

/-- A field with its quotes. -/
def readQuoted : List Byte → Option (List Byte × List Byte)
  | 34 :: s => readField s
  | _ => none

/-- A quote that no backslash escapes is in the text. -/
def hasQuote : List Byte → Bool
  | [] => false
  | [c] => c == 34
  | c :: d :: s => if c = 92 then hasQuote s else c == 34 || hasQuote (d :: s)

/-- A quote, a blank and a tab, as they are printed and as they are read. -/
example : printEscapedQuoted (some [34, 32, 9]) = [34, 92, 34, 92, 115, 92, 116, 34] ∧
    readQuoted [34, 92, 34, 92, 115, 92, 116, 34] = some ([34, 32, 9], []) := by
  decide

section Escape

variable {s rest : List Byte}

/-- A byte is printed as an escape of its own, or as one byte that needs none. -/
theorem escape_cases (c : Byte) :
    (∃ d, escape c = [92, d] ∧ unescape d = some (mask c) ∧ 33 ≤ d ∧ d ≤ 126) ∨
      (escape c = [mask c] ∧ mask c ≠ 92 ∧ mask c ≠ 34 ∧ 33 ≤ mask c ∧ mask c ≤ 126) := by
  unfold escape
  split_ifs with h₁ h₂ h₃ h₄ h₅ h₆ h₇
  · subst h₁
    exact .inl ⟨92, rfl, rfl, by decide, by decide⟩
  · subst h₂
    exact .inl ⟨34, rfl, rfl, by decide, by decide⟩
  · subst h₃
    exact .inl ⟨115, rfl, rfl, by decide, by decide⟩
  · subst h₄
    exact .inl ⟨116, rfl, rfl, by decide, by decide⟩
  · subst h₅
    exact .inl ⟨110, rfl, rfl, by decide, by decide⟩
  · subst h₆
    exact .inl ⟨114, rfl, rfl, by decide, by decide⟩
  · have hmask : mask c = 63 := by
      refine if_neg ?_
      rintro (hprint | hblank)
      · simp only [UInt8.lt_iff_toNat_lt, UInt8.le_iff_toNat_le, UInt8.reduceToNat] at h₇ hprint
        omega
      · exact hblank.elim h₄ fun h => h.elim h₅ h₆
    rw [hmask]
    exact .inr ⟨rfl, by decide⟩
  · have hprint : 33 ≤ c ∧ c ≤ 126 := by
      rw [← UInt8.toNat_inj] at h₃
      simp only [UInt8.lt_iff_toNat_lt, UInt8.le_iff_toNat_le, UInt8.reduceToNat] at h₃ h₇ ⊢
      omega
    have hmask : mask c = c :=
      if_pos (.inl ⟨UInt8.le_trans (by decide : (32 : Byte) ≤ 33) hprint.1, hprint.2⟩)
    rw [hmask]
    exact .inr ⟨rfl, h₁, h₂, hprint⟩

theorem readField_byte {c : Byte} (hslash : c ≠ 92) (hquote : c ≠ 34) :
    readField (c :: s) = (readField s).map fun r => (c :: r.1, r.2) := by
  rw [readField.eq_def]
  split
  · exact absurd ‹c :: s = []› (List.cons_ne_nil c s)
  · rename_i heq
    exact absurd (List.cons.inj heq).1 hslash
  · rename_i heq
    exact absurd (List.cons.inj heq).1 hslash
  · rename_i heq
    obtain ⟨rfl, rfl⟩ := List.cons.inj heq
    exact if_neg hquote

/-- What is printed for a byte is read as the byte. -/
theorem readField_escape (c : Byte) :
    readField (escape c ++ s) = (readField s).map fun r => (mask c :: r.1, r.2) := by
  rcases escape_cases c with ⟨d, hescape, hd, -⟩ | ⟨hescape, hslash, hquote, -⟩
  · rw [hescape, List.cons_append, List.cons_append, List.nil_append, readField, hd]
    cases readField s <;> rfl
  · rw [hescape, List.singleton_append, readField_byte hslash hquote]

/-- What is printed for a string is read as the string. -/
theorem readField_flatMap (s rest : List Byte) :
    readField (s.flatMap escape ++ 34 :: rest) = some (s.map mask, rest) := by
  induction s with
  | nil => rfl
  | cons c s ih => rw [List.flatMap_cons, List.append_assoc, readField_escape, ih]; rfl

theorem hasQuote_byte {c : Byte} (hslash : c ≠ 92) (hquote : c ≠ 34) :
    hasQuote (c :: s) = hasQuote s := by
  cases s with
  | nil => exact beq_eq_false_iff_ne.2 hquote
  | cons d s => rw [hasQuote, if_neg hslash, beq_eq_false_iff_ne.2 hquote, Bool.false_or]

/-- Every quote of the string has a backslash. -/
theorem hasQuote_flatMap (s : List Byte) : hasQuote (s.flatMap escape) = false := by
  induction s with
  | nil => rfl
  | cons c s ih =>
    rw [List.flatMap_cons]
    rcases escape_cases c with ⟨d, hescape, -⟩ | ⟨hescape, hslash, hquote, -⟩
    · rw [hescape, List.cons_append, List.cons_append, List.nil_append, hasQuote, if_pos rfl, ih]
    · rw [hescape, List.singleton_append, hasQuote_byte hslash hquote, ih]

theorem mem_escape {c d : Byte} (h : d ∈ escape c) : 33 ≤ d ∧ d ≤ 126 := by
  rcases escape_cases c with ⟨e, hescape, -, hrange⟩ | ⟨hescape, -, -, hrange⟩
  · rw [hescape] at h
    rcases List.mem_cons.1 h with rfl | h
    · decide
    · rwa [List.mem_singleton.1 h]
  · rw [hescape] at h
    rwa [List.mem_singleton.1 h]

theorem map_mask_of_kept (h : ∀ c ∈ s, Kept c) : s.map mask = s := by
  conv_rhs => rw [← List.map_id s]
  exact List.map_congr_left fun c hc => if_pos (h c hc)

end Escape

/-- **A quoted field says its string.**  For every string: between the outer quotes every byte
is from `!` to `~` and every quote has a backslash; the field is read, whatever follows it, as
the string with `?` for exactly the bytes that are neither printable nor a tab, a newline or a
carriage return; and no other string without such bytes has the same field. -/
theorem printEscapedQuoted_spec (s : List Byte) : ∃ inner : List Byte,
    printEscapedQuoted (some s) = [34] ++ inner ++ [34] ∧
    (∀ c ∈ inner, 33 ≤ c ∧ c ≤ 126) ∧ hasQuote inner = false ∧
    (∀ rest, readQuoted (printEscapedQuoted (some s) ++ rest) = some (s.map mask, rest)) ∧
    ∀ s', (∀ c ∈ s, Kept c) → (∀ c ∈ s', Kept c) →
      printEscapedQuoted (some s') = printEscapedQuoted (some s) → s' = s := by
  have hread : ∀ s rest, readQuoted (printEscapedQuoted (some s) ++ rest) =
      some (s.map mask, rest) := by
    intro s rest
    rw [printEscapedQuoted, List.append_assoc, List.append_assoc]
    exact readField_flatMap s rest
  refine ⟨s.flatMap escape, rfl, ?_, hasQuote_flatMap s, hread s, ?_⟩
  · intro c hc
    obtain ⟨b, -, hb⟩ := List.mem_flatMap.1 hc
    exact mem_escape hb
  · intro s' hs hs' heq
    have hsame := hread s' []
    rw [heq, hread s []] at hsame
    have hmask : s.map mask = s'.map mask := congrArg Prod.fst (Option.some.inj hsame)
    rw [map_mask_of_kept hs, map_mask_of_kept hs'] at hmask
    exact hmask.symm

end Tools
end V6User
