import V6User.Shell.LineBuf

/-!
# What the terminal shows of the line

`Displays t prompt l z` says that the terminal, once it has interpreted all that was
written to it, shows the prompt and the line of `z` with the cursor in its place.
Every operation of the line editor keeps it (`Displays.lineInsertChar` and the lemmas
after it): what it writes turns the row that shows the old line into the row that
shows the new one.
-/

namespace V6User
namespace Shell

open Terminal (Printable)

/-- The row of the cursor shows the prompt and the line of `z`, and nothing else. -/
def Displays (t : Terminal) (prompt : List Byte) (l : LineBuf) (z : TwoSided Byte) : Prop :=
  (t.feed l.out).Shows (prompt ++ z.line) (prompt.length + z.pos)

variable {t : Terminal} {prompt : List Byte} {l : LineBuf} {z : TwoSided Byte}

theorem feed_termWrite (t : Terminal) (l : LineBuf) (s : List Byte) :
    t.feed (termWrite l s).out = (t.feed l.out).feed s := t.feed_append _ _

/-- The row, split where the cursor is. -/
theorem displays_iff : Displays t prompt l z ↔
    (t.feed l.out).Shows ((prompt ++ z.before.reverse) ++ z.after)
      (prompt ++ z.before.reverse).length := by
  rw [Displays, TwoSided.line, TwoSided.pos, List.append_assoc, List.length_append,
    List.length_reverse]

/-- The bytes from the cursor on are those on the far side of it. -/
theorem Edits.from_cursor (h : Edits l z) : l.from l.cursor = z.after := by
  rw [LineBuf.from, ← List.drop_take, h.line, h.cursor, z.drop_pos]

theorem Displays.bell (h : Displays t prompt l z) : Displays t prompt (termBell l) z := by
  rw [Displays, termBell, feed_termWrite]
  exact Terminal.Shows.bell h

/-- Once the line is written to its end, the cursor is put back. -/
theorem Displays.of_end {n : ℕ} (hn : n = z.after.length)
    (h : (t.feed l.out).Shows ((prompt ++ z.before.reverse) ++ z.after)
      ((prompt ++ z.before.reverse).length + z.after.length)) :
    Displays t prompt (termCursorLeft l n) z := by
  rw [displays_iff, termCursorLeft, feed_termWrite]
  refine Terminal.Shows.lefts n ?_
  rwa [hn]

theorem Displays.lineInsertChar (h : Displays t prompt l z) (hl : Edits l z)
    (hz : ∀ b ∈ z.line, Printable b) {c : Byte} (hc : Printable c) :
    Displays t prompt (lineInsertChar l c) (z.insert (lineBufSize - 1) c) := by
  have hline := hl.length_line
  rw [Shell.lineInsertChar]
  by_cases hfull : lineBufSize - 1 ≤ l.len
  · rw [if_pos hfull, z.insert_full c (by omega)]
    exact h.bell
  · have hput := hl.putIn c (by omega)
    have hs : ∀ b ∈ c :: z.after, Printable b :=
      List.forall_mem_cons.2 ⟨hc, fun b hb => hz b (List.mem_append_right _ hb)⟩
    have hins : z.insert (lineBufSize - 1) c = ⟨c :: z.before, z.after⟩ := if_pos (by omega)
    rw [if_neg hfull, hins]
    dsimp only
    rw [ite_termCursorLeft]
    refine Displays.of_end ?_ ?_
    · have hcur : l.cursor = z.before.length := hput.cursor
      rw [TwoSided.line, List.length_append, List.length_reverse] at hline
      show l.len + 1 - (l.cursor + 1) = z.after.length
      omega
    · show (t.feed (l.out ++ (l.putIn c).from (l.putIn c).cursor)).Shows _ _
      rw [hput.from_cursor, Terminal.feed_append]
      have hpaint := (displays_iff.1 h).overtype (Nat.le_succ _) hs
      simp only [List.length_append, List.length_cons, List.length_reverse, List.reverse_cons,
        List.append_assoc, List.singleton_append] at hpaint ⊢
      rwa [show prompt.length + (z.before.length + ([] : List Byte).length.succ) +
        z.after.length = prompt.length + z.before.length + (z.after.length + 1) by simp; omega]

/-- The end of a deletion, once the cursor is before the byte to take out. -/
theorem Displays.removeAtCursor {s : List Byte} (hl : Edits l z) (hcur : l.cursor < l.len)
    (h : Displays t prompt (termWrite l s) z) (hz : ∀ b ∈ z.line, Printable b) :
    Displays t prompt (removeAtCursor l s) z.deleteForward := by
  have htake := hl.takeOut hcur
  have hs : ∀ b ∈ z.deleteForward.after, Printable b :=
    fun b hb => hz b (List.mem_append_right _ (List.mem_of_mem_tail hb))
  rw [Shell.removeAtCursor, ite_termCursorLeft]
  refine Displays.of_end ?_ ?_
  · have hlen := htake.length_line
    have hpos : l.takeOut.cursor = z.deleteForward.before.length := htake.cursor
    rw [TwoSided.line, List.length_append, List.length_reverse] at hlen
    show l.takeOut.len - l.takeOut.cursor = z.deleteForward.after.length
    omega
  · have hpaint := (displays_iff.1 h).retype hs
    rw [termClearToEol, feed_termWrite, feed_termWrite]
    show ((t.feed (l.out ++ s)).feed (l.takeOut.from l.takeOut.cursor) |>.feed _).Shows _ _
    rw [htake.from_cursor]
    exact hpaint

theorem Displays.lineDeleteForward (h : Displays t prompt l z) (hl : Edits l z)
    (hz : ∀ b ∈ z.line, Printable b) :
    Displays t prompt (lineDeleteForward l) z.deleteForward := by
  rw [Shell.lineDeleteForward]
  by_cases hcur : l.len ≤ l.cursor
  · have hend : z.deleteForward = z :=
      TwoSided.deleteForward_end (by rw [hl.length_line, ← hl.cursor]; exact hcur)
    rw [if_pos hcur, hend]
    exact h.bell
  · rw [if_neg hcur]
    refine Displays.removeAtCursor hl (Nat.not_le.1 hcur) ?_ hz
    rw [Displays, feed_termWrite]
    exact h

theorem Displays.lineDeleteChar (h : Displays t prompt l z) (hl : Edits l z)
    (hz : ∀ b ∈ z.line, Printable b) : Displays t prompt (lineDeleteChar l) z.deleteBack := by
  rw [Shell.lineDeleteChar]
  obtain ⟨_ | ⟨a, before⟩, after⟩ := z
  · have hcur : l.cursor = 0 := hl.cursor
    rw [if_pos hcur]
    exact h.bell
  · have hcur : l.cursor = before.length + 1 := hl.cursor
    have hle := hl.cursor_le
    rw [if_neg (by omega)]
    refine Displays.removeAtCursor hl.back (by dsimp only; omega) ?_ ?_
    · rw [Displays, feed_termWrite]
      refine Terminal.Shows.backspace ?_
      rw [Displays] at h
      simpa [TwoSided.left, TwoSided.line, TwoSided.pos, Nat.add_assoc] using h
    · rwa [TwoSided.line_left]

theorem Displays.lineMoveLeft (h : Displays t prompt l z) (hl : Edits l z) :
    Displays t prompt (lineMoveLeft l) z.left := by
  rw [Shell.lineMoveLeft]
  have hcur := hl.cursor
  rw [Displays] at h
  by_cases hpos : 0 < l.cursor
  · rw [if_pos hpos, Displays, termCursorLeft, feed_termWrite, TwoSided.line_left,
      TwoSided.pos_left]
    refine Terminal.Shows.lefts 1 ?_
    rwa [show prompt.length + (z.pos - 1) + 1 = prompt.length + z.pos by omega]
  · rw [if_neg hpos, Displays, TwoSided.line_left, TwoSided.pos_left]
    rwa [show z.pos - 1 = z.pos by omega]

theorem Displays.lineMoveRight (h : Displays t prompt l z) (hl : Edits l z) :
    Displays t prompt (lineMoveRight l) z.right := by
  rw [Shell.lineMoveRight]
  have hcur := hl.cursor
  have hlen := hl.length_line
  have hle := z.pos_le
  rw [Displays] at h
  by_cases hpos : l.cursor < l.len
  · rw [if_pos hpos, Displays, termCursorRight, feed_termWrite, TwoSided.line_right,
      TwoSided.pos_right, Nat.min_eq_left (by omega)]
    refine Terminal.Shows.rights 1 h ?_
    show prompt.length + z.pos + 1 ≤ (prompt ++ z.line).length
    rw [List.length_append]
    omega
  · rw [if_neg hpos, Displays, TwoSided.line_right, TwoSided.pos_right]
    rwa [show min (z.pos + 1) z.line.length = z.pos by omega]

/-- The cursor moved back to the start of the line. -/
theorem Displays.back_to_start (h : Displays t prompt l z) (hl : Edits l z) :
    Displays t prompt (if 0 < l.cursor then termCursorLeft l l.cursor else l) z.home := by
  have hcur := hl.cursor
  rw [Displays] at h
  by_cases hpos : 0 < l.cursor
  · rw [if_pos hpos, Displays, termCursorLeft, feed_termWrite]
    refine Terminal.Shows.lefts l.cursor ?_
    rw [hcur]
    exact h
  · rw [if_neg hpos, Displays]
    rwa [show z.pos = 0 by omega] at h

theorem Displays.lineMoveHome (h : Displays t prompt l z) (hl : Edits l z) :
    Displays t prompt (lineMoveHome l) z.home := by
  have hstart := h.back_to_start hl
  rw [Shell.lineMoveHome]
  split_ifs at hstart ⊢
  · exact hstart
  · exact hstart

theorem Displays.lineMoveEnd (h : Displays t prompt l z) (hl : Edits l z) :
    Displays t prompt (lineMoveEnd l) z.toEnd := by
  rw [Shell.lineMoveEnd]
  have hcur := hl.cursor
  have hlen := hl.length_line
  have hle := z.pos_le
  rw [Displays] at h
  have hright : ∀ n, z.pos + n = z.line.length →
      ((t.feed l.out).feed (List.replicate n Terminal.csiRight).flatten).Shows
        (prompt ++ z.toEnd.line) (prompt.length + z.toEnd.pos) := by
    intro n hn
    rw [TwoSided.line_toEnd, TwoSided.pos_toEnd, ← hn, ← Nat.add_assoc]
    refine Terminal.Shows.rights n h ?_
    rw [List.length_append]
    omega
  by_cases hpos : l.cursor < l.len
  · rw [if_pos hpos, Displays]
    show (t.feed (l.out ++ _)).Shows _ _
    rw [Terminal.feed_append]
    exact hright _ (by omega)
  · rw [if_neg hpos, Displays]
    exact hright 0 (by omega)

/-- The row from the cursor on erased. -/
theorem Displays.clearToEol (h : Displays t prompt l z) :
    Displays t prompt (termClearToEol l) z.killToEnd := by
  have hclear := Terminal.Shows.clearToEnd (displays_iff.1 h)
  rw [List.take_left] at hclear
  rw [displays_iff, termClearToEol, feed_termWrite, TwoSided.killToEnd, List.append_nil]
  exact hclear

theorem Displays.lineKillToEnd (h : Displays t prompt l z) :
    Displays t prompt (lineKillToEnd l) z.killToEnd := h.clearToEol

theorem Displays.lineKillAll (h : Displays t prompt l z) (hl : Edits l z) :
    Displays t prompt (lineKillAll l) .empty := (h.back_to_start hl).clearToEol

theorem Displays.lineSet (h : Displays t prompt l z) (hl : Edits l z) (s : CStr)
    (hs : ∀ b ∈ s.bytes, Printable b) :
    Displays t prompt (lineSet l s) (.ofLine (s.bytes.take (lineBufSize - 1))) := by
  have hempty : Displays t prompt
      (termClearToEol (if 0 < l.cursor then termCursorLeft l l.cursor else l)) .empty :=
    (h.back_to_start hl).clearToEol
  rw [Displays, TwoSided.line_empty, TwoSided.pos_empty, List.append_nil, Nat.add_zero] at hempty
  have htext : ∀ b ∈ s.bytes.take (lineBufSize - 1), Printable b :=
    fun b hb => hs b (List.mem_of_mem_take hb)
  rw [Displays, Shell.lineSet, feed_termWrite, LineBuf.from, List.drop_zero, Nat.sub_zero,
    take_copy, TwoSided.line_ofLine, TwoSided.pos_ofLine, ← List.length_append]
  exact Terminal.Shows.append hempty htext

end Shell
end V6User
