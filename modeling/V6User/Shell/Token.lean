import Mathlib.Data.List.TakeWhile
import Mathlib.Tactic.Common

/-!
# The shell's tokenizer

`programs/sh/sh.c`: `whitespace`, `symbols`, `gettoken` and `peek`.

The parser works on one NUL-terminated string (`CStr`) through a moving pointer
`s` and the fixed pointer `es` to its terminating NUL.  A `Cursor` is that
pointer: its offset in the buffer together with the bytes between it and `es`,
so `s < es` reads `c.rest ≠ []`, and `*s` is the first of those bytes, or the
NUL when there is none.  The word loop of `gettoken` is one scan whose `Quote` argument says
which of its three nested loops is running.
-/

namespace V6User
namespace Shell

/-- A `char` of the shell's text. -/
abbrev Byte := UInt8

/-- A C string: the bytes before its terminating NUL. -/
structure CStr where
  bytes : List Byte
  nul_free : (0 : Byte) ∉ bytes
  deriving DecidableEq

/-- `char whitespace[] = " \t\r\n\v"`. -/
def whitespace : List Byte := [32, 9, 13, 10, 11]

/-- `char symbols[] = "<|>&;()"`. -/
def symbols : List Byte := [60, 124, 62, 38, 59, 40, 41]

/-- The backslash byte. -/
abbrev backslash : Byte := 92

/-- The single quote byte. -/
abbrev squote : Byte := 39

/-- The double quote byte. -/
abbrev dquote : Byte := 34

@[simp] theorem quoteBytes_ne : squote ≠ backslash ∧ backslash ≠ squote ∧ dquote ≠ backslash ∧
    backslash ≠ dquote ∧ dquote ≠ squote ∧ squote ≠ dquote := by decide

/-- `strchr(set, c) != 0` for a byte that is not NUL. -/
def strchr (set : List Byte) (c : Byte) : Bool := set.contains c

/-- Whitespace and operator characters end a word outside quotes. -/
def endsWord (c : Byte) : Bool := strchr whitespace c || strchr symbols c

/-- The loop of the scanner that is running: outside quotes, in a
single-quoted region, or in a double-quoted one. -/
inductive Quote where
  | out
  | sq
  | dq
  deriving DecidableEq, Repr

/-- How far the word loop of `gettoken` moves `s` over the bytes before `es`.
A backslash outside quotes or between double quotes takes the next byte with
it; between single quotes it does so only before a single quote. -/
def wordLen : Quote → List Byte → ℕ
  | _, [] => 0
  | .out, c :: s =>
    if endsWord c then 0
    else if c = backslash then
      match s with
      | [] => 1
      | _ :: s' => wordLen .out s' + 2
    else if c = squote then wordLen .sq s + 1
    else if c = dquote then wordLen .dq s + 1
    else wordLen .out s + 1
  | .sq, c :: s =>
    if c = squote then wordLen .out s + 1
    else if c = backslash then
      match s with
      | [] => 1
      | d :: s' => if d = squote then wordLen .sq s' + 2 else wordLen .sq (d :: s') + 1
    else wordLen .sq s + 1
  | .dq, c :: s =>
    if c = dquote then wordLen .out s + 1
    else if c = backslash then
      match s with
      | [] => 1
      | _ :: s' => wordLen .dq s' + 2
    else wordLen .dq s + 1

theorem wordLen_le (m : Quote) (s : List Byte) : wordLen m s ≤ s.length := by
  fun_induction wordLen m s <;> simp only [List.length_cons, List.length_nil] at * <;> omega

/-- A pointer into the text: its offset, and the bytes from it up to `es`. -/
structure Cursor where
  pos : ℕ
  rest : List Byte
  nul_free : (0 : Byte) ∉ rest
  deriving DecidableEq

/-- The pointer to the first byte of a string. -/
def CStr.cursor (s : CStr) : Cursor := ⟨0, s.bytes, s.nul_free⟩

namespace Cursor

/-- `s += k`. -/
def advance (c : Cursor) (k : ℕ) : Cursor :=
  ⟨c.pos + k, c.rest.drop k, fun h => c.nul_free (List.mem_of_mem_drop h)⟩

/-- `*s`: the byte at the pointer, the terminating NUL at `es`. -/
def deref (c : Cursor) : Byte := c.rest.headD 0

/-- `while (s < es && strchr(whitespace, *s)) s++;` -/
def skipSpace (c : Cursor) : Cursor := c.advance (c.rest.takeWhile (strchr whitespace)).length

@[simp] theorem advance_rest (c : Cursor) (k : ℕ) : (c.advance k).rest = c.rest.drop k := rfl

@[simp] theorem advance_pos (c : Cursor) (k : ℕ) : (c.advance k).pos = c.pos + k := rfl

@[simp] theorem advance_zero (c : Cursor) : c.advance 0 = c := rfl

theorem skipSpace_rest (c : Cursor) :
    c.skipSpace.rest = c.rest.dropWhile (strchr whitespace) := by
  rw [skipSpace, advance_rest, List.dropWhile_eq_drop_findIdx_not,
    List.takeWhile_eq_take_findIdx_not, List.length_take,
    Nat.min_eq_left (List.findIdx_le_length)]

/-- Skipping whitespace a second time stays where it is. -/
@[simp] theorem skipSpace_skipSpace (c : Cursor) : c.skipSpace.skipSpace = c.skipSpace := by
  have h : (c.skipSpace.rest.takeWhile (strchr whitespace)).length = 0 := by
    rw [skipSpace_rest, List.length_eq_zero_iff, List.takeWhile_eq_nil_iff]
    intro hpos hc
    have := List.head_dropWhile_not (strchr whitespace) (l := c.rest)
      (List.ne_nil_of_length_pos hpos)
    rw [List.head_eq_getElem] at this
    simp [this] at hc
  rw [skipSpace, h, advance_zero]

theorem skipSpace_rest_suffix (c : Cursor) : c.skipSpace.rest <:+ c.rest := by
  rw [skipSpace_rest]; exact List.dropWhile_suffix _

/-- Where the pointer stands after skipping whitespace is not whitespace. -/
theorem not_whitespace_of_skipSpace {c : Cursor} {b : Byte} {s : List Byte}
    (h : c.skipSpace.rest = b :: s) : strchr whitespace b = false := by
  rw [skipSpace_rest] at h
  have := List.head_dropWhile_not (strchr whitespace) (l := c.rest) (by simp [h])
  simpa [h] using this

end Cursor

/-- The return value of `gettoken`: `0`, an operator character, `'+'` for
`>>`, or `'a'` for a word. -/
inductive Kind where
  | eof
  | pipe
  | lparen
  | rparen
  | semi
  | amp
  | lt
  | gt
  | gtgt
  | word
  deriving DecidableEq, Repr

/-- What one call of `gettoken` produces: the return value, `*q`, `*eq`, and
the value left in `*ps`. -/
structure Token where
  ret : Kind
  q : Cursor
  eq : Cursor
  ps : Cursor
  deriving DecidableEq

/-- The `switch (*s)` of `gettoken`: the kind of the token at `s`, and how far
`s` moves over it. -/
def tokenAt (s : Cursor) : Kind × ℕ :=
  let c := s.deref
  if c = 0 then (.eof, 0)
  else if c = 124 then (.pipe, 1)
  else if c = 40 then (.lparen, 1)
  else if c = 41 then (.rparen, 1)
  else if c = 59 then (.semi, 1)
  else if c = 38 then (.amp, 1)
  else if c = 60 then (.lt, 1)
  else if c = 62 then (if (s.advance 1).deref = 62 then (.gtgt, 2) else (.gt, 1))
  else (.word, wordLen .out s.rest)

/-- `gettoken(ps, es, q, eq)`. -/
def gettoken (ps : Cursor) : Token :=
  let q := ps.skipSpace
  let eq := q.advance (tokenAt q).2
  ⟨(tokenAt q).1, q, eq, eq.skipSpace⟩

/-- `peek(ps, es, toks)`: the pointer left in `*ps`, and whether the next
character is one of `toks`. -/
def peek (ps : Cursor) (toks : List Byte) : Cursor × Bool :=
  let s := ps.skipSpace
  (s, s.deref != 0 && strchr toks s.deref)

end Shell
end V6User
