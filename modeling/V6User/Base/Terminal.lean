import Mathlib.Data.List.Basic
import Mathlib.Tactic.Common

/-!
# An infinitely wide terminal

A `Terminal` interprets the bytes written to it: text overwrites the cells from the
cursor on, backspace, carriage return and newline move the cursor, and so do the
control sequences for one column to the left or right; `ESC[K` erases from the cursor
to the end of the row, `ESC[2J` every row, and `ESC[H` moves to the first cell.

`Shows t line col` says that the cursor is at a column of a row that shows exactly
`line`, with nothing below it.  There is one lemma for each thing a line editor writes
(`Shows.text`, `Shows.left`, `Shows.clearToEnd`, ...), so that what a program writes
is followed step by step without looking at the cells again.
-/

namespace V6User

/-- Where the terminal stands in a control sequence. -/
inductive Terminal.Mode where
  | text
  | escape
  | control (args : List UInt8)
  deriving DecidableEq

/-- The rows, each with the cells written so far, and the cursor. -/
structure Terminal where
  rows : ℕ → List UInt8
  row : ℕ
  col : ℕ
  mode : Terminal.Mode

namespace Terminal

/-- The cell in which nothing is written. -/
def blank : UInt8 := 32

/-- The escape byte. -/
abbrev esc : UInt8 := 27

/-- A byte that stands for a cell of its own. -/
def Printable (b : UInt8) : Prop := 32 ≤ b ∧ b ≠ 127

instance : DecidablePred Printable := fun b => inferInstanceAs (Decidable (32 ≤ b ∧ b ≠ 127))

theorem printable_of_all {s : List UInt8} (h : (s.all fun b => decide (Printable b)) = true) :
    ∀ b ∈ s, Printable b := fun b hb => of_decide_eq_true (List.all_eq_true.1 h b hb)

/-- The terminal with the row of the cursor rewritten. -/
def setLine (t : Terminal) (line : List UInt8) : Terminal :=
  { t with rows := fun r => if r = t.row then line else t.rows r }

/-- The row of the cursor. -/
def line (t : Terminal) : List UInt8 := t.rows t.row

/-- Text at the cursor. -/
def write (t : Terminal) (b : UInt8) : Terminal :=
  let before := t.line.take t.col
  let gap := List.replicate (t.col - t.line.length) blank
  { t.setLine (before ++ gap ++ b :: t.line.drop (t.col + 1)) with col := t.col + 1 }

/-- The end of a control sequence. -/
def control (t : Terminal) (args : List UInt8) (b : UInt8) : Terminal :=
  let t := { t with mode := .text }
  if args = [] ∧ b = 68 then { t with col := t.col - 1 }
  else if args = [] ∧ b = 67 then { t with col := t.col + 1 }
  else if args = [] ∧ b = 75 then t.setLine (t.line.take t.col)
  else if args = [50] ∧ b = 74 then { t with rows := fun _ => [] }
  else if args = [] ∧ b = 72 then { t with row := 0, col := 0 }
  else t

/-- One byte written to the terminal. -/
def put (t : Terminal) (b : UInt8) : Terminal :=
  match t.mode with
  | .escape => { t with mode := if b = 91 then .control [] else .text }
  | .control args => if b < 64 then { t with mode := .control (args ++ [b]) } else t.control args b
  | .text =>
    if b = esc then { t with mode := .escape }
    else if b = 8 then { t with col := t.col - 1 }
    else if b = 13 then { t with col := 0 }
    else if b = 10 then { t with row := t.row + 1 }
    else if Printable b then t.write b
    else t

/-- Bytes written to the terminal. -/
def feed (t : Terminal) (s : List UInt8) : Terminal := s.foldl put t

/-- The terminal before anything is written to it. -/
def fresh : Terminal := ⟨fun _ => [], 0, 0, .text⟩

@[simp] theorem feed_nil (t : Terminal) : t.feed [] = t := rfl

@[simp] theorem feed_cons (t : Terminal) (b : UInt8) (s : List UInt8) :
    t.feed (b :: s) = (t.put b).feed s := rfl

@[simp] theorem feed_append (t : Terminal) (s u : List UInt8) :
    t.feed (s ++ u) = (t.feed s).feed u := List.foldl_append

/-- `ESC[D`: one column to the left. -/
def csiLeft : List UInt8 := [esc, 91, 68]

/-- `ESC[C`: one column to the right. -/
def csiRight : List UInt8 := [esc, 91, 67]

/-- `ESC[K`: erase to the end of the row. -/
def csiClearToEnd : List UInt8 := [esc, 91, 75]

/-- `ESC[2J ESC[H`: erase everything and go to the first cell. -/
def csiClearScreen : List UInt8 := [esc, 91, 50, 74, esc, 91, 72]

/-- The cursor is at a column of a row that shows exactly this line, with nothing
below it, and no control sequence is under way. -/
structure Shows (t : Terminal) (line : List UInt8) (col : ℕ) : Prop where
  line_eq : t.line = line
  col_eq : t.col = col
  col_le : col ≤ line.length
  mode_eq : t.mode = .text
  below : ∀ r, t.row < r → t.rows r = []

theorem shows_fresh : fresh.Shows [] 0 :=
  ⟨rfl, rfl, Nat.le_refl _, rfl, fun _ _ => rfl⟩

theorem put_text {t : Terminal} {b : UInt8} (hmode : t.mode = .text) (hb : Printable b) :
    t.put b = t.write b := by
  have hne : ∀ c : UInt8, ¬Printable c → b ≠ c := by
    rintro c hc rfl
    exact hc hb
  rw [put, hmode]
  simp only [hne esc (by decide), hne 8 (by decide), hne 13 (by decide), hne 10 (by decide), hb,
    if_false, if_true]

variable {t : Terminal} {line : List UInt8} {col : ℕ}

/-- Text overwrites as many cells as it has bytes. -/
theorem Shows.text (h : t.Shows line col) {s : List UInt8} (hs : ∀ b ∈ s, Printable b) :
    (t.feed s).Shows (line.take col ++ s ++ line.drop (col + s.length)) (col + s.length) := by
  induction s generalizing t line col with
  | nil => simpa using h
  | cons b s ih =>
    rw [List.forall_mem_cons] at hs
    obtain ⟨hline, hcol, hle, hmode, hbelow⟩ := h
    have hstep : (t.put b).Shows (line.take col ++ b :: line.drop (col + 1)) (col + 1) := by
      rw [put_text hmode hs.1, write]
      refine ⟨?_, ?_, ?_, hmode, fun r hr => ?_⟩
      · rw [hline, hcol, Nat.sub_eq_zero_of_le hle]
        simp [Terminal.line, setLine]
      · rw [hcol]
      · rw [List.length_append, List.length_take, List.length_cons]
        omega
      · have hne : r ≠ t.row := Nat.ne_of_gt hr
        simp only [setLine, hne, if_false]
        exact hbelow r hr
    have hrest := ih hstep hs.2
    have htake : (line.take col).length = col := by
      rw [List.length_take]
      omega
    have hbefore : (line.take col ++ b :: line.drop (col + 1)).take (col + 1) =
        line.take col ++ [b] := by
      rw [List.take_append, htake, List.take_of_length_le (by omega)]
      simp
    have hafter : (line.take col ++ b :: line.drop (col + 1)).drop (col + 1 + s.length) =
        line.drop (col + (b :: s).length) := by
      rw [List.drop_append, htake, List.drop_of_length_le (by omega), List.nil_append,
        show col + 1 + s.length - col = s.length + 1 by omega, List.drop_succ_cons, List.drop_drop,
        List.length_cons]
      congr 1
      omega
    rw [hbefore, hafter] at hrest
    rw [feed_cons, List.length_cons, Nat.add_comm s.length 1, ← Nat.add_assoc]
    simpa [Nat.add_comm, Nat.add_left_comm] using hrest

/-- Bytes at the end of the row are appended to it. -/
theorem Shows.append (h : t.Shows line line.length) {s : List UInt8}
    (hs : ∀ b ∈ s, Printable b) : (t.feed s).Shows (line ++ s) (line ++ s).length := by
  have htext := h.text hs
  rw [List.take_length, List.drop_of_length_le (Nat.le_add_right _ _), List.append_nil] at htext
  rwa [List.length_append]

theorem Shows.bell (h : t.Shows line col) : (t.feed [7]).Shows line col := by
  have hput : t.put 7 = t := by
    rw [put, h.mode_eq]
    rfl
  rwa [feed_cons, feed_nil, hput]

theorem Shows.backspace (h : t.Shows line (col + 1)) : (t.feed [8]).Shows line col := by
  obtain ⟨hline, hcol, hle, hmode, hbelow⟩ := h
  have hput : t.put 8 = { t with col := t.col - 1 } := by
    rw [put, hmode]
    rfl
  rw [feed_cons, feed_nil, hput]
  exact ⟨hline, by rw [hcol]; rfl, by omega, hmode, hbelow⟩

/-- A control sequence of one byte. -/
theorem feed_control (hmode : t.mode = .text) {b : UInt8} (hb : ¬b < 64) :
    t.feed [esc, 91, b] = t.control [] b := by
  obtain ⟨rows, row, col, mode⟩ := t
  subst hmode
  simp [put, hb, control, setLine, Terminal.line]

theorem Shows.left (h : t.Shows line (col + 1)) : (t.feed csiLeft).Shows line col := by
  obtain ⟨hline, hcol, hle, hmode, hbelow⟩ := h
  rw [csiLeft, feed_control hmode (by decide)]
  exact ⟨hline, by show t.col - 1 = col; omega, by omega, rfl, hbelow⟩

theorem Shows.right (h : t.Shows line col) (hcol : col < line.length) :
    (t.feed csiRight).Shows line (col + 1) := by
  obtain ⟨hline, hcol', -, hmode, hbelow⟩ := h
  rw [csiRight, feed_control hmode (by decide)]
  exact ⟨hline, by show t.col + 1 = col + 1; omega, hcol, rfl, hbelow⟩

theorem Shows.clearToEnd (h : t.Shows line col) :
    (t.feed csiClearToEnd).Shows (line.take col) col := by
  obtain ⟨hline, hcol, hle, hmode, hbelow⟩ := h
  rw [csiClearToEnd, feed_control hmode (by decide)]
  refine ⟨?_, hcol, ?_, rfl, fun r hr => ?_⟩
  · rw [← hline, ← hcol]
    simp [control, Terminal.line, setLine]
  · rw [List.length_take]
    omega
  · have hne : r ≠ t.row := Nat.ne_of_gt hr
    simp only [control, setLine]
    simpa [hne] using hbelow r hr

theorem Shows.newline (h : t.Shows line col) : (t.feed [13, 10]).Shows [] 0 := by
  obtain ⟨rows, row, col', mode⟩ := t
  obtain ⟨-, -, -, hmode, hbelow⟩ := h
  obtain rfl : mode = .text := hmode
  exact ⟨hbelow (row + 1) (Nat.lt_succ_self row), rfl, Nat.le_refl _, rfl,
    fun r hr => hbelow r (Nat.lt_of_succ_lt hr)⟩

theorem Shows.clearScreen (h : t.Shows line col) : (t.feed csiClearScreen).Shows [] 0 := by
  obtain ⟨rows, row, col', mode⟩ := t
  obtain ⟨-, -, -, hmode, -⟩ := h
  obtain rfl : mode = .text := hmode
  exact ⟨rfl, rfl, Nat.le_refl _, rfl, fun _ _ => rfl⟩

/-- The cursor moves left over `n` columns of the row. -/
theorem Shows.lefts (n : ℕ) (h : t.Shows line (col + n)) :
    (t.feed (List.replicate n csiLeft).flatten).Shows line col := by
  induction n generalizing t with
  | zero => exact h
  | succ n ih =>
    rw [List.replicate_succ, List.flatten_cons, feed_append]
    exact ih (Shows.left h)

/-- The cursor moves right over `n` columns of the row. -/
theorem Shows.rights (n : ℕ) (h : t.Shows line col) (hle : col + n ≤ line.length) :
    (t.feed (List.replicate n csiRight).flatten).Shows line (col + n) := by
  induction n generalizing t col with
  | zero => exact h
  | succ n ih =>
    rw [List.replicate_succ, List.flatten_cons, feed_append]
    have := ih (h.right (by omega)) (by omega)
    rwa [show col + (n + 1) = col + 1 + n by omega]

/-- Text over the end of the row, and at least as long. -/
theorem Shows.overtype {a old s : List UInt8} (h : t.Shows (a ++ old) a.length)
    (hlen : old.length ≤ s.length) (hs : ∀ b ∈ s, Printable b) :
    (t.feed s).Shows (a ++ s) (a.length + s.length) := by
  have htext := h.text hs
  rwa [List.take_left, List.drop_of_length_le (by rw [List.length_append]; omega),
    List.append_nil] at htext

/-- Text over the end of the row, and what it does not cover erased. -/
theorem Shows.retype {a old s : List UInt8} (h : t.Shows (a ++ old) a.length)
    (hs : ∀ b ∈ s, Printable b) :
    ((t.feed s).feed csiClearToEnd).Shows (a ++ s) (a.length + s.length) := by
  have htext := (h.text hs).clearToEnd
  have hlen : (a ++ s).length = a.length + s.length := List.length_append
  rwa [List.take_left, ← hlen, List.take_left, hlen] at htext

end Terminal
end V6User
