import V6User.Base.Terminal
import V6User.Base.TwoSided
import V6User.Shell.RunLine

/-!
# The line under edit

`programs/sh/sh.c`: `line_buf`, `line_len`, `cursor_pos`, the functions that write to
the terminal (`term_write` to `term_clear_screen`, without the ncurses variants) and
the operations on the line (`line_clear` to `line_set`).

Each operation changes the buffer in place and repaints what changed.  `Edits l z`
says that the buffer holds the line of a two-sided editor, and `Displays` that the
terminal shows the prompt and that line.  An operation has one lemma for each: the
buffer follows the operation of the two-sided editor of the same name, and the
terminal follows the buffer.
-/

namespace V6User
namespace Shell

/-- `line_buf`, `line_len`, `cursor_pos`, and what was written to the terminal. -/
structure LineBuf where
  buf : List Byte
  len : ℕ
  cursor : ℕ
  out : List Byte

/-- `term_write(s, n)`. -/
def termWrite (l : LineBuf) (s : List Byte) : LineBuf := { l with out := l.out ++ s }

/-- `term_cursor_left(n)`. -/
def termCursorLeft (l : LineBuf) (n : ℕ) : LineBuf :=
  termWrite l (List.replicate n Terminal.csiLeft).flatten

/-- `term_cursor_right(n)`. -/
def termCursorRight (l : LineBuf) (n : ℕ) : LineBuf :=
  termWrite l (List.replicate n Terminal.csiRight).flatten

/-- `term_clear_to_eol()`. -/
def termClearToEol (l : LineBuf) : LineBuf := termWrite l Terminal.csiClearToEnd

/-- `term_bell()`. -/
def termBell (l : LineBuf) : LineBuf := termWrite l [7]

/-- `term_clear_screen()`. -/
def termClearScreen (l : LineBuf) : LineBuf := termWrite l Terminal.csiClearScreen

/-- The bytes of `line_buf` from an index on, up to `line_len`. -/
def LineBuf.from (l : LineBuf) (i : ℕ) : List Byte := (l.buf.drop i).take (l.len - i)

/-- `line_clear()`. -/
def lineClear (l : LineBuf) : LineBuf := { l with buf := l.buf.set 0 0, len := 0, cursor := 0 }

/-- `for (i = n; i > cursor; i--) buf[i] = buf[i - 1];` -/
def shiftRight (cursor : ℕ) : ℕ → List Byte → List Byte
  | 0, buf => buf
  | i + 1, buf =>
    if cursor < i + 1 then shiftRight cursor i (buf.set (i + 1) (buf.getD i 0)) else buf

/-- `n` rounds of `for (i = …; …; i++) buf[i] = buf[i + 1];` -/
def shiftLeft : ℕ → ℕ → List Byte → List Byte
  | _, 0, buf => buf
  | i, n + 1, buf => shiftLeft (i + 1) n (buf.set i (buf.getD (i + 1) 0))

/-- The line with a byte put in at the cursor. -/
def LineBuf.putIn (l : LineBuf) (c : Byte) : LineBuf :=
  let buf := (shiftRight l.cursor l.len l.buf).set l.cursor c
  { l with buf := buf.set (l.len + 1) 0, len := l.len + 1 }

/-- The line without the byte at the cursor. -/
def LineBuf.takeOut (l : LineBuf) : LineBuf :=
  let buf := shiftLeft l.cursor (l.len - 1 - l.cursor) l.buf
  { l with buf := buf.set (l.len - 1) 0, len := l.len - 1 }

/-- `line_insert_char(c)`. -/
def lineInsertChar (l : LineBuf) (c : Byte) : LineBuf :=
  if lineBufSize - 1 ≤ l.len then termBell l
  else
    let l := l.putIn c
    let l := termWrite l (l.from l.cursor)
    let l := { l with cursor := l.cursor + 1 }
    if l.cursor < l.len then termCursorLeft l (l.len - l.cursor) else l

/-- The end of `line_delete_char` and `line_delete_forward`: take out the byte at the
cursor, and write `s` and the rest of the line. -/
def removeAtCursor (l : LineBuf) (s : List Byte) : LineBuf :=
  let l := termWrite l.takeOut s
  let l := termWrite l (l.from l.cursor)
  let l := termClearToEol l
  if l.cursor < l.len then termCursorLeft l (l.len - l.cursor) else l

/-- `line_delete_char()`. -/
def lineDeleteChar (l : LineBuf) : LineBuf :=
  if l.cursor = 0 then termBell l else removeAtCursor { l with cursor := l.cursor - 1 } [8]

/-- `line_delete_forward()`. -/
def lineDeleteForward (l : LineBuf) : LineBuf :=
  if l.len ≤ l.cursor then termBell l else removeAtCursor l []

/-- `line_move_left()`. -/
def lineMoveLeft (l : LineBuf) : LineBuf :=
  if 0 < l.cursor then termCursorLeft { l with cursor := l.cursor - 1 } 1 else l

/-- `line_move_right()`. -/
def lineMoveRight (l : LineBuf) : LineBuf :=
  if l.cursor < l.len then termCursorRight { l with cursor := l.cursor + 1 } 1 else l

/-- `line_move_home()`. -/
def lineMoveHome (l : LineBuf) : LineBuf :=
  if 0 < l.cursor then { termCursorLeft l l.cursor with cursor := 0 } else l

/-- `line_move_end()`. -/
def lineMoveEnd (l : LineBuf) : LineBuf :=
  if l.cursor < l.len then { termCursorRight l (l.len - l.cursor) with cursor := l.len } else l

/-- `line_kill_to_end()`. -/
def lineKillToEnd (l : LineBuf) : LineBuf :=
  let l := termClearToEol l
  { l with buf := l.buf.set l.cursor 0, len := l.cursor }

/-- `line_kill_all()`. -/
def lineKillAll (l : LineBuf) : LineBuf :=
  lineClear (termClearToEol (if 0 < l.cursor then termCursorLeft l l.cursor else l))

/-- `memcpy(line_buf, s, n); line_buf[n] = 0;` -/
def LineBuf.copy (l : LineBuf) (s : List Byte) : LineBuf :=
  { l with buf := (s ++ l.buf.drop s.length).set s.length 0, len := s.length, cursor := s.length }

/-- `line_set(s)`. -/
def lineSet (l : LineBuf) (s : CStr) : LineBuf :=
  let l := termClearToEol (if 0 < l.cursor then termCursorLeft l l.cursor else l)
  let l := l.copy (s.bytes.take (lineBufSize - 1))
  termWrite l (l.from 0)

/-! ### The buffer -/

/-- The buffer holds the line of a two-sided editor, with a NUL after it, and the
cursor is where the editor's is. -/
structure Edits (l : LineBuf) (z : TwoSided Byte) : Prop where
  size : l.buf.length = lineBufSize
  len_lt : l.len < lineBufSize
  nul : l.buf[l.len]? = some 0
  line : l.buf.take l.len = z.line
  cursor : l.cursor = z.pos

theorem getElem?_shiftRight (cursor n : ℕ) (buf : List Byte) (hn : n < buf.length) (i : ℕ) :
    (shiftRight cursor n buf)[i]? = if cursor < i ∧ i ≤ n then buf[i - 1]? else buf[i]? := by
  induction n generalizing buf with
  | zero => grind [shiftRight]
  | succ n ih =>
    rw [shiftRight]
    by_cases hc : cursor < n + 1
    · rw [if_pos hc, ih _ (by rw [List.length_set]; omega), List.getElem?_set, List.getElem?_set]
      grind
    · rw [if_neg hc, if_neg (by omega)]

theorem getElem?_shiftLeft (i n : ℕ) (buf : List Byte) (hn : i + n < buf.length) (k : ℕ) :
    (shiftLeft i n buf)[k]? = if i ≤ k ∧ k < i + n then buf[k + 1]? else buf[k]? := by
  induction n generalizing i buf with
  | zero => grind [shiftLeft]
  | succ n ih =>
    rw [shiftLeft, ih _ _ (by rw [List.length_set]; omega), List.getElem?_set, List.getElem?_set]
    grind

theorem length_shiftRight (cursor n : ℕ) (buf : List Byte) :
    (shiftRight cursor n buf).length = buf.length := by
  induction n generalizing buf with
  | zero => rfl
  | succ n ih =>
    rw [shiftRight]
    split_ifs
    · rw [ih, List.length_set]
    · rfl

theorem length_shiftLeft (i n : ℕ) (buf : List Byte) :
    (shiftLeft i n buf).length = buf.length := by
  induction n generalizing i buf with
  | zero => rfl
  | succ n ih => rw [shiftLeft, ih, List.length_set]

theorem take_putIn (l : LineBuf) (c : Byte) (hcur : l.cursor ≤ l.len)
    (hlen : l.len + 1 < l.buf.length) :
    (l.putIn c).buf.take (l.putIn c).len =
      (l.buf.take l.len).take l.cursor ++ c :: (l.buf.take l.len).drop l.cursor := by
  refine List.ext_getElem? fun i => ?_
  have hshift := getElem?_shiftRight l.cursor l.len l.buf (by omega) i
  have hsize := length_shiftRight l.cursor l.len l.buf
  simp only [LineBuf.putIn, List.getElem?_take, List.getElem?_set, List.getElem?_append,
    List.getElem?_cons, List.getElem?_drop, List.length_take, List.length_set]
  grind

theorem take_takeOut (l : LineBuf) (hcur : l.cursor < l.len) (hlen : l.len < l.buf.length) :
    l.takeOut.buf.take l.takeOut.len =
      (l.buf.take l.len).take l.cursor ++ (l.buf.take l.len).drop (l.cursor + 1) := by
  refine List.ext_getElem? fun i => ?_
  have hshift := getElem?_shiftLeft l.cursor (l.len - 1 - l.cursor) l.buf (by omega) i
  have hsize := length_shiftLeft l.cursor (l.len - 1 - l.cursor) l.buf
  simp only [LineBuf.takeOut, List.getElem?_take, List.getElem?_set, List.getElem?_append,
    List.getElem?_drop, List.length_take]
  grind

variable {l : LineBuf} {z : TwoSided Byte}

theorem Edits.length_line (h : Edits l z) : z.line.length = l.len := by
  have hsize := h.size
  have hlen := h.len_lt
  rw [← h.line, List.length_take]
  omega

theorem Edits.cursor_le (h : Edits l z) : l.cursor ≤ l.len := by
  rw [← h.length_line, h.cursor]
  exact z.pos_le

/-- What is written to the terminal does not matter to the buffer. -/
theorem Edits.write (h : Edits l z) (s : List Byte) : Edits (termWrite l s) z :=
  ⟨h.size, h.len_lt, h.nul, h.line, h.cursor⟩

/-- Where there is nothing to move over, nothing is written. -/
theorem ite_termCursorLeft (l : LineBuf) (m n : ℕ) :
    (if m < n then termCursorLeft l (n - m) else l) = termCursorLeft l (n - m) := by
  by_cases h : m < n
  · rw [if_pos h]
  · rw [if_neg h, termCursorLeft, Nat.sub_eq_zero_of_le (Nat.not_lt.1 h)]
    simp [termWrite]

/-- `line_clear` empties the line, whatever it was. -/
theorem edits_lineClear (hsize : l.buf.length = lineBufSize) : Edits (lineClear l) .empty := by
  refine ⟨by rw [lineClear, List.length_set, hsize], Nat.zero_lt_succ 1023, ?_, rfl, rfl⟩
  rw [lineClear, List.getElem?_set_self (by rw [hsize]; decide)]

/-- A byte put in at the cursor. -/
theorem Edits.putIn (h : Edits l z) (c : Byte) (hroom : l.len < lineBufSize - 1) :
    Edits (l.putIn c) ⟨z.before, c :: z.after⟩ := by
  have hsize := h.size
  refine ⟨?_, ?_, ?_, ?_, h.cursor⟩
  · rw [LineBuf.putIn, List.length_set, List.length_set, length_shiftRight, hsize]
  · show l.len + 1 < lineBufSize
    omega
  · show (l.putIn c).buf[l.len + 1]? = some 0
    rw [LineBuf.putIn, List.getElem?_set_self]
    rw [List.length_set, length_shiftRight]
    omega
  · rw [take_putIn l c h.cursor_le (by omega), h.line, h.cursor, z.take_pos, z.drop_pos]
    rfl

/-- The byte at the cursor taken out. -/
theorem Edits.takeOut (h : Edits l z) (hcur : l.cursor < l.len) :
    Edits l.takeOut z.deleteForward := by
  have hsize := h.size
  have hlen := h.len_lt
  refine ⟨?_, ?_, ?_, ?_, h.cursor⟩
  · rw [LineBuf.takeOut, List.length_set, length_shiftLeft, hsize]
  · show l.len - 1 < lineBufSize
    omega
  · show l.takeOut.buf[l.len - 1]? = some 0
    rw [LineBuf.takeOut, List.getElem?_set_self]
    rw [length_shiftLeft]
    omega
  · rw [take_takeOut l hcur (by omega), h.line, TwoSided.line_deleteForward, h.cursor]

/-- `line_insert_char` types a byte. -/
theorem Edits.lineInsertChar (h : Edits l z) (c : Byte) :
    Edits (lineInsertChar l c) (z.insert (lineBufSize - 1) c) := by
  have hline := h.length_line
  rw [Shell.lineInsertChar]
  by_cases hfull : lineBufSize - 1 ≤ l.len
  · rw [if_pos hfull, z.insert_full c (by omega)]
    exact h.write _
  · have hput := h.putIn c (by omega)
    have hins : z.insert (lineBufSize - 1) c = ⟨c :: z.before, z.after⟩ := if_pos (by omega)
    have hnew : Edits { l.putIn c with cursor := l.cursor + 1 } ⟨c :: z.before, z.after⟩ := by
      refine ⟨hput.size, hput.len_lt, hput.nul, ?_, congrArg (· + 1) hput.cursor⟩
      rw [TwoSided.line, List.reverse_cons, List.append_assoc]
      exact hput.line
    rw [if_neg hfull, hins]
    dsimp only
    rw [ite_termCursorLeft]
    exact (hnew.write _).write _

/-- The end of a deletion takes out the byte at the cursor. -/
theorem Edits.removeAtCursor (h : Edits l z) (hcur : l.cursor < l.len) (s : List Byte) :
    Edits (removeAtCursor l s) z.deleteForward := by
  rw [Shell.removeAtCursor, ite_termCursorLeft]
  exact ((((h.takeOut hcur).write _).write _).write _).write _

/-- `line_delete_forward` deletes the byte at the cursor. -/
theorem Edits.lineDeleteForward (h : Edits l z) :
    Edits (lineDeleteForward l) z.deleteForward := by
  rw [Shell.lineDeleteForward]
  by_cases hcur : l.len ≤ l.cursor
  · have hend : z.deleteForward = z :=
      TwoSided.deleteForward_end (by rw [h.length_line, ← h.cursor]; exact hcur)
    rw [if_pos hcur, hend]
    exact h.write _
  · rw [if_neg hcur]
    exact h.removeAtCursor (Nat.not_le.1 hcur) []

/-- The cursor moved over the byte before it. -/
theorem Edits.back (h : Edits l z) : Edits { l with cursor := l.cursor - 1 } z.left :=
  ⟨h.size, h.len_lt, h.nul, by rw [TwoSided.line_left]; exact h.line,
    by rw [TwoSided.pos_left, h.cursor]⟩

/-- `line_delete_char` deletes the byte before the cursor. -/
theorem Edits.lineDeleteChar (h : Edits l z) : Edits (lineDeleteChar l) z.deleteBack := by
  rw [Shell.lineDeleteChar]
  obtain ⟨_ | ⟨a, before⟩, after⟩ := z
  · have hcur : l.cursor = 0 := h.cursor
    rw [if_pos hcur]
    exact h.write _
  · have hcur : l.cursor = before.length + 1 := h.cursor
    have hle := h.cursor_le
    rw [if_neg (by omega)]
    exact h.back.removeAtCursor (by dsimp only; omega) [8]

/-- `line_move_left` moves the cursor left. -/
theorem Edits.lineMoveLeft (h : Edits l z) : Edits (lineMoveLeft l) z.left := by
  rw [Shell.lineMoveLeft]
  by_cases hcur : 0 < l.cursor
  · rw [if_pos hcur]
    exact h.back.write _
  · have hback := h.back
    rw [if_neg hcur]
    rwa [show l.cursor - 1 = l.cursor by omega] at hback

/-- `line_move_right` moves the cursor right. -/
theorem Edits.lineMoveRight (h : Edits l z) : Edits (lineMoveRight l) z.right := by
  have hpos : z.right.pos = min (l.cursor + 1) l.len := by
    rw [TwoSided.pos_right, h.length_line, h.cursor]
  have hle := h.cursor_le
  have hline : l.buf.take l.len = z.right.line := by rw [TwoSided.line_right, h.line]
  rw [Shell.lineMoveRight]
  by_cases hcur : l.cursor < l.len
  · rw [if_pos hcur]
    refine Edits.write (l := { l with cursor := l.cursor + 1 })
      ⟨h.size, h.len_lt, h.nul, hline, ?_⟩ _
    rw [hpos]
    dsimp only
    omega
  · rw [if_neg hcur]
    refine ⟨h.size, h.len_lt, h.nul, hline, ?_⟩
    rw [hpos]
    omega

/-- `line_move_home` moves the cursor to the start. -/
theorem Edits.lineMoveHome (h : Edits l z) : Edits (lineMoveHome l) z.home := by
  rw [Shell.lineMoveHome]
  by_cases hcur : 0 < l.cursor
  · rw [if_pos hcur]
    exact ⟨h.size, h.len_lt, h.nul, h.line, rfl⟩
  · rw [if_neg hcur]
    exact ⟨h.size, h.len_lt, h.nul, h.line, by rw [TwoSided.pos_home]; omega⟩

/-- `line_move_end` moves the cursor to the end. -/
theorem Edits.lineMoveEnd (h : Edits l z) : Edits (lineMoveEnd l) z.toEnd := by
  have hline : l.buf.take l.len = z.toEnd.line := by rw [TwoSided.line_toEnd, h.line]
  have hle := h.cursor_le
  rw [Shell.lineMoveEnd]
  by_cases hcur : l.cursor < l.len
  · rw [if_pos hcur]
    exact ⟨h.size, h.len_lt, h.nul, hline, by rw [TwoSided.pos_toEnd, h.length_line]⟩
  · rw [if_neg hcur]
    exact ⟨h.size, h.len_lt, h.nul, hline, by rw [TwoSided.pos_toEnd, h.length_line]; omega⟩

/-- `line_kill_to_end` deletes from the cursor on. -/
theorem Edits.lineKillToEnd (h : Edits l z) : Edits (lineKillToEnd l) z.killToEnd := by
  have hsize := h.size
  have hlen := h.len_lt
  have hle := h.cursor_le
  refine ⟨?_, ?_, ?_, ?_, h.cursor⟩
  · show (l.buf.set l.cursor 0).length = _
    rw [List.length_set, hsize]
  · show l.cursor < lineBufSize
    omega
  · show (l.buf.set l.cursor 0)[l.cursor]? = some 0
    rw [List.getElem?_set_self (by omega)]
  · show (l.buf.set l.cursor 0).take l.cursor = _
    rw [List.take_set_of_le (Nat.le_refl _), TwoSided.line_killToEnd, ← h.line, ← h.cursor,
      List.take_take, Nat.min_eq_left hle]

/-- `line_kill_all` empties the line. -/
theorem Edits.lineKillAll (h : Edits l z) : Edits (lineKillAll l) .empty := by
  rw [Shell.lineKillAll]
  refine edits_lineClear ?_
  split_ifs
  · exact h.size
  · exact h.size

theorem take_copy (l : LineBuf) (s : List Byte) : (l.copy s).buf.take (l.copy s).len = s := by
  rw [LineBuf.copy]
  dsimp only
  rw [List.take_set_of_le (Nat.le_refl _), List.take_left]

/-- `line_set` replaces the line. -/
theorem Edits.lineSet (h : Edits l z) (s : CStr) :
    Edits (lineSet l s) (.ofLine (s.bytes.take (lineBufSize - 1))) := by
  have hsize := h.size
  have hlen : (s.bytes.take (lineBufSize - 1)).length < lineBufSize := by
    rw [List.length_take]
    exact (Nat.min_le_left _ _).trans_lt (by decide)
  rw [Shell.lineSet]
  refine Edits.write ?_ _
  have hbuf : (termClearToEol (if 0 < l.cursor then termCursorLeft l l.cursor else l)).buf =
      l.buf := by
    split_ifs <;> rfl
  have htake := take_copy (termClearToEol (if 0 < l.cursor then termCursorLeft l l.cursor else l))
    (s.bytes.take (lineBufSize - 1))
  rw [LineBuf.copy, hbuf] at htake ⊢
  generalize s.bytes.take (lineBufSize - 1) = text at hlen htake ⊢
  refine ⟨?_, hlen, ?_, by rw [TwoSided.line_ofLine]; exact htake, by rw [TwoSided.pos_ofLine]⟩
  · dsimp only
    rw [List.length_set, List.length_append, List.length_drop]
    omega
  · dsimp only
    rw [List.getElem?_set_self]
    rw [List.length_append, List.length_drop]
    omega

end Shell
end V6User
