import Mathlib.Computability.Language
import V6User.Tools.Grep

/-!
# The language of a pattern

`programs/grep/grep.c`: `match` against the reference meaning of its patterns.

A pattern is a row of pieces, a character or a character with a star, between a `^` that may
stand at its beginning and a `$` that may stand at its end.  The pieces denote a language, the
product of theirs, and a text has a match where some part of it is in the language, which
begins the text under `^` and ends it under `$`.  That is what `match` decides
(`match_iff_matches`): it reads a pattern from the left, so that a `*` at the beginning, a `^`
after the beginning and a `$` before the end stand for themselves, or for any number of
themselves before a star.
-/

namespace V6User
namespace Tools

open Shell (Byte)

/-- A character of a pattern, which a star may follow. -/
structure Piece where
  char : Byte
  star : Bool
  deriving DecidableEq

/-- A pattern: its pieces, and whether it stands between `^` and `$`. -/
structure Pattern where
  caret : Bool
  pieces : List Piece
  dollar : Bool
  deriving DecidableEq

/-- The pieces of a pattern, and whether a `$` ends it. -/
def readPieces : List Byte → List Piece × Bool
  | [] => ([], false)
  | c :: 42 :: re => (⟨c, true⟩ :: (readPieces re).1, (readPieces re).2)
  | c :: re =>
    if c = 36 ∧ re = [] then ([], true) else (⟨c, false⟩ :: (readPieces re).1, (readPieces re).2)

/-- A pattern as it is written. -/
def readPattern : List Byte → Pattern
  | 94 :: re => ⟨true, (readPieces re).1, (readPieces re).2⟩
  | re => ⟨false, (readPieces re).1, (readPieces re).2⟩

/-- What one character stands for: itself, or any character where it is `.`. -/
def single (c : Byte) : Language Byte := {w | ∃ t, w = [t] ∧ (t = c ∨ c = 46)}

/-- What a piece stands for. -/
def Piece.language (p : Piece) : Language Byte :=
  if p.star then KStar.kstar (single p.char) else single p.char

/-- What a row of pieces stands for. -/
def piecesLanguage (pieces : List Piece) : Language Byte := (pieces.map Piece.language).prod

/-- The text contains a match of the pattern. -/
def Pattern.Matches (p : Pattern) (text : List Byte) : Prop :=
  ∃ before mid after, text = before ++ mid ++ after ∧ mid ∈ piecesLanguage p.pieces ∧
    (p.caret = true → before = []) ∧ (p.dollar = true → after = [])

/-- The pattern `^a*.$`. -/
example : readPattern [94, 97, 42, 46, 36] = ⟨true, [⟨97, true⟩, ⟨46, false⟩], true⟩ := by
  decide

section Pieces

variable {c : Byte} {re text run : List Byte} {p : Piece} {pieces : List Piece}

theorem readPieces_byte (hstar : re.head? ≠ some 42) (hend : ¬(c = 36 ∧ re = [])) :
    readPieces (c :: re) = (⟨c, false⟩ :: (readPieces re).1, (readPieces re).2) := by
  rw [readPieces.eq_def]
  split
  · exact absurd ‹c :: re = []› (List.cons_ne_nil c re)
  · rename_i heq
    obtain ⟨-, rfl⟩ := List.cons.inj heq
    exact absurd rfl hstar
  · rename_i heq
    obtain ⟨rfl, rfl⟩ := List.cons.inj heq
    exact if_neg hend

/-- The runs of a character are what it stands for with a star. -/
theorem mem_kstar_single : run ∈ KStar.kstar (single c) ↔ ∀ t ∈ run, t = c ∨ c = 46 := by
  rw [Language.mem_kstar]
  constructor
  · rintro ⟨words, rfl, hwords⟩ t ht
    obtain ⟨w, hw, htw⟩ := List.mem_flatten.1 ht
    obtain ⟨s, rfl, hs⟩ := hwords w hw
    obtain rfl := List.mem_singleton.1 htw
    exact hs
  · intro hrun
    refine ⟨run.map fun t => [t], ?_, ?_⟩
    · rw [← List.flatMap_def, List.flatMap_singleton']
    · intro w hw
      obtain ⟨t, ht, rfl⟩ := List.mem_map.1 hw
      exact ⟨t, rfl, hrun t ht⟩

theorem mem_piecesLanguage_nil : text ∈ piecesLanguage [] ↔ text = [] := Iff.rfl

theorem mem_piecesLanguage_cons : text ∈ piecesLanguage (p :: pieces) ↔
    ∃ w ∈ p.language, ∃ rest ∈ piecesLanguage pieces, w ++ rest = text := by
  rw [piecesLanguage, List.map_cons, List.prod_cons]
  exact Language.mem_mul

/-- **What the expression says of the beginning of a text** is that the text begins with a
word of the language, and with nothing after it under a `$`. -/
theorem here_iff : Here re text ↔ ∃ mid after, text = mid ++ after ∧
    mid ∈ piecesLanguage (readPieces re).1 ∧ ((readPieces re).2 = true → after = []) := by
  constructor
  · intro h
    induction h with
    | empty text => exact ⟨[], text, rfl, rfl, fun h => absurd h Bool.false_ne_true⟩
    | @star c re run text hrun h ih =>
      obtain ⟨mid, after, rfl, hmid, hafter⟩ := ih
      refine ⟨run ++ mid, after, (List.append_assoc _ _ _).symm, ?_, hafter⟩
      exact mem_piecesLanguage_cons.2 ⟨run, mem_kstar_single.2 hrun, mid, hmid, rfl⟩
    | dollar => exact ⟨[], [], rfl, rfl, fun _ => rfl⟩
    | @byte c t re text hstar hend hc h ih =>
      obtain ⟨mid, after, rfl, hmid, hafter⟩ := ih
      rw [readPieces_byte hstar hend]
      refine ⟨t :: mid, after, rfl, ?_, hafter⟩
      exact mem_piecesLanguage_cons.2
        ⟨[t], ⟨t, rfl, hc.symm.imp_left Eq.symm⟩, mid, hmid, rfl⟩
  · rintro ⟨mid, after, rfl, hmid, hafter⟩
    induction re using readPieces.induct generalizing mid with
    | case1 => exact .empty _
    | case2 c re ih =>
      obtain ⟨run, hrun, rest, hrest, rfl⟩ := mem_piecesLanguage_cons.1 hmid
      rw [List.append_assoc]
      exact .star (mem_kstar_single.1 hrun) (ih rest hrest hafter)
    | case3 c re hre hend =>
      obtain ⟨rfl, rfl⟩ := hend
      obtain rfl : mid = [] := mem_piecesLanguage_nil.1 hmid
      obtain rfl : after = [] := hafter rfl
      exact .dollar
    | case4 c re hre hend ih =>
      have hstar : re.head? ≠ some 42 := by
        intro h
        obtain ⟨re', rfl⟩ := List.head?_eq_some_iff.1 h
        exact hre re' rfl
      rw [readPieces_byte hstar hend] at hmid hafter
      obtain ⟨_, ⟨t, rfl, ht⟩, rest, hrest, rfl⟩ := mem_piecesLanguage_cons.1 hmid
      exact .byte hstar hend (ht.symm.imp_right Eq.symm) (ih rest hrest hafter)

end Pieces

theorem readPattern_of_ne {re : List Byte} (h : re.head? ≠ some 94) :
    readPattern re = ⟨false, (readPieces re).1, (readPieces re).2⟩ := by
  unfold readPattern
  split
  · exact absurd rfl h
  · rfl

/-- **`match` finds the matches of its pattern.**  For every pattern and every text it is
total, and it says yes exactly where some part of the text is in the language of the pattern,
the beginning of the text after a `^` that comes first and its end before a `$` that comes
last. -/
theorem match_iff_matches (re text : List Byte) :
    matchText re text = true ↔ (readPattern re).Matches text := by
  rw [matchText_iff]
  constructor
  · rintro (⟨rest, rfl, h⟩ | ⟨hcaret, before, here, rfl, h⟩)
    · obtain ⟨mid, after, rfl, hmid, hafter⟩ := here_iff.1 h
      exact ⟨[], mid, after, rfl, hmid, fun _ => rfl, hafter⟩
    · obtain ⟨mid, after, rfl, hmid, hafter⟩ := here_iff.1 h
      rw [readPattern_of_ne hcaret]
      exact ⟨before, mid, after, (List.append_assoc _ _ _).symm, hmid,
        fun h => absurd h Bool.false_ne_true, hafter⟩
  · rintro ⟨before, mid, after, rfl, hmid, hbefore, hafter⟩
    by_cases hcaret : re.head? = some 94
    · obtain ⟨rest, rfl⟩ := List.head?_eq_some_iff.1 hcaret
      obtain rfl : before = [] := hbefore rfl
      exact .inl ⟨rest, rfl, here_iff.2 ⟨mid, after, rfl, hmid, hafter⟩⟩
    · rw [readPattern_of_ne hcaret] at hmid hafter
      exact .inr ⟨hcaret, before, mid ++ after, List.append_assoc _ _ _,
        here_iff.2 ⟨mid, after, rfl, hmid, hafter⟩⟩

end Tools
end V6User
