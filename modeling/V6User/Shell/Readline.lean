import V6User.Shell.Completion

/-!
# Reading a line

`programs/sh/sh.c`: `do_readline`, `getcmd` and the part of `main` that calls it.

`readlineKey` is one turn of the loop of `do_readline`.  Beside it stands a reference
(`Reference`): a two-sided editor, a list of lines and a place in that list.
`Session` runs both on the same keys, over any number of calls of `do_readline`, and
`session_edits` and `session_displays` say that the buffer and the terminal show what
the reference holds after every key (`readline_refines`).  At the end of a call the
line is handed over in the caller's buffer (`readline_stores_iff`).
-/

namespace V6User
namespace Shell

open Terminal (Printable)

/-- What `read_key` returns: a byte, or one of the codes from `KEY_EXT_BASE` on. -/
inductive Key where
  | byte (c : Byte)
  | up
  | down
  | left
  | right
  | home
  | toEnd
  | delete
  deriving DecidableEq

/-- What the `switch` of `do_readline` takes a key for. -/
inductive KeyAction where
  | accept
  | eofOrDelete
  | interrupt
  | killAll
  | killToEnd
  | home
  | toEnd
  | deleteBack
  | complete
  | prev
  | next
  | left
  | right
  | deleteForward
  | redraw
  | insert (c : Byte)
  | ignore
  deriving DecidableEq

/-- The cases of the `switch`. -/
def Key.action : Key → KeyAction
  | .byte c =>
    if c = 13 ∨ c = 10 then .accept
    else if c = 4 then .eofOrDelete
    else if c = 3 then .interrupt
    else if c = 21 then .killAll
    else if c = 11 then .killToEnd
    else if c = 1 then .home
    else if c = 5 then .toEnd
    else if c = 8 ∨ c = 127 then .deleteBack
    else if c = 9 then .complete
    else if c = 12 then .redraw
    else if 32 ≤ c ∧ c < 127 then .insert c
    else .ignore
  | .up => .prev
  | .down => .next
  | .left => .left
  | .right => .right
  | .home => .home
  | .toEnd => .toEnd
  | .delete => .deleteForward

/-- The static state of the line editor, and what it has written in this call. -/
structure Editor where
  line : LineBuf
  history : History

/-- The state the shell is started in. -/
def Editor.initial : Editor := ⟨⟨List.replicate lineBufSize 0, 0, 0, []⟩, .initial⟩

/-- What a turn of the loop comes to: another turn, the end of the input, or a line,
with the value returned and the stores into the caller's buffer in their order. -/
inductive KeyOutcome where
  | more (e : Editor)
  | eof (e : Editor)
  | line (e : Editor) (ret : ℕ) (stores : List (ℕ × Byte))

/-- `do_readline` up to its loop. -/
def readlineStart (p : Prompt) (e : Editor) : Editor :=
  ⟨termWrite (lineClear { e.line with out := [] }) p.text, historyReset e.history⟩

/-- The end of the line, `case '\r'` and `case '\n'`. -/
def readlineAccept (nbuf : ℕ) (e : Editor) : KeyOutcome :=
  let l := termWrite e.line [13, 10]
  let history := if 0 < l.len then historyAdd e.history (CStr.ofBytes l.buf) else e.history
  let len := if nbuf ≤ l.len then nbuf - 1 else l.len
  .line ⟨{ l with len := len }, history⟩ (len + 1)
    ((List.range len).map (fun i => (i, l.buf.getD i 0)) ++ [(len, newline), (len + 1, 0)])

/-- One turn of the loop of `do_readline(buf, nbuf)`. -/
def readlineKey (p : Prompt) (v : View) (nbuf : ℕ) (e : Editor) (k : Key) : KeyOutcome :=
  match k.action with
  | .accept => readlineAccept nbuf e
  | .eofOrDelete =>
    if e.line.len = 0 then .eof { e with line := termWrite e.line [13, 10] }
    else .more { e with line := lineDeleteForward e.line }
  | .interrupt =>
    .more { e with line := termWrite (lineClear (termWrite e.line [94, 67, 13, 10])) p.text }
  | .killAll => .more { e with line := lineKillAll e.line }
  | .killToEnd => .more { e with line := lineKillToEnd e.line }
  | .home => .more { e with line := lineMoveHome e.line }
  | .toEnd => .more { e with line := lineMoveEnd e.line }
  | .deleteBack => .more { e with line := lineDeleteChar e.line }
  | .complete => .more { e with line := doTabCompletion p v e.line }
  | .prev => .more ⟨(historyPrev e.history e.line).2, (historyPrev e.history e.line).1⟩
  | .next => .more ⟨(historyNext e.history e.line).2, (historyNext e.history e.line).1⟩
  | .left => .more { e with line := lineMoveLeft e.line }
  | .right => .more { e with line := lineMoveRight e.line }
  | .deleteForward => .more { e with line := lineDeleteForward e.line }
  | .redraw => .more { e with line := showLine p (termClearScreen e.line) }
  | .insert c => .more { e with line := lineInsertChar e.line c }
  | .ignore => .more e

/-- Only printable bytes are typed. -/
theorem Key.printable_of_insert {k : Key} {c : Byte} (h : k.action = .insert c) :
    Printable c := by
  have hskip : ∀ {q : Prop} [Decidable q] {a b : KeyAction},
      (if q then a else b) = .insert c → a ≠ .insert c → b = .insert c := by
    intro q _ a b hab ha
    by_cases hq : q
    · rw [if_pos hq] at hab
      exact absurd hab ha
    · rwa [if_neg hq] at hab
  cases k with
  | byte d =>
    rw [Key.action] at h
    iterate 10 replace h := hskip h nofun
    by_cases hd : 32 ≤ d ∧ d < 127
    · rw [if_pos hd] at h
      obtain rfl := KeyAction.insert.inj h
      exact ⟨hd.1, fun he => absurd hd.2 (by rw [he]; decide)⟩
    · rw [if_neg hd] at h
      exact absurd h nofun
  | _ => exact absurd h nofun

/-! ### The reference -/

/-- A two-sided editor, the lines remembered, and the place among them of the line
last recalled. -/
structure Reference where
  sides : TwoSided Byte
  lines : List CStr
  place : ℕ

/-- Before the first line is read nothing is remembered. -/
def Reference.initial : Reference := ⟨.empty, [], 0⟩

/-- A new line. -/
def Reference.start (r : Reference) : Reference := ⟨.empty, r.lines, r.lines.length⟩

/-- The line before the place. -/
def Reference.prev (r : Reference) : Reference :=
  match r.place with
  | 0 => r
  | i + 1 => match r.lines[i]? with
    | some s => { r with sides := .ofLine s.bytes, place := i }
    | none => r

/-- The line after the place, and after the last of them an empty one. -/
def Reference.next (r : Reference) : Reference :=
  match r.lines[r.place + 1]? with
  | some s => { r with sides := .ofLine s.bytes, place := r.place + 1 }
  | none => if r.place + 1 = r.lines.length then r.start else r

/-- What a key does to the reference, where it does not end the call. -/
def Reference.key (v : View) (r : Reference) (k : Key) : Reference :=
  match k.action with
  | .accept | .redraw | .ignore => r
  | .eofOrDelete | .deleteForward => { r with sides := r.sides.deleteForward }
  | .interrupt | .killAll => { r with sides := .empty }
  | .killToEnd => { r with sides := r.sides.killToEnd }
  | .home => { r with sides := r.sides.home }
  | .toEnd => { r with sides := r.sides.toEnd }
  | .deleteBack => { r with sides := r.sides.deleteBack }
  | .complete =>
    { r with sides := (completion v r.sides.before.reverse r.sides.pos).apply r.sides }
  | .prev => r.prev
  | .next => r.next
  | .left => { r with sides := r.sides.left }
  | .right => { r with sides := r.sides.right }
  | .insert c => { r with sides := r.sides.insert (lineBufSize - 1) c }

/-- The line is accepted and remembered. -/
def Reference.accept (r : Reference) : Reference :=
  { r with lines := remember historySize r.lines (CStr.ofBytes r.sides.line) }

/-- The shell and the reference after some keys of some lines: `p` is the prompt of the
line being read, `P` a property of all bytes of prompts and of names of files. -/
inductive Session (P : Byte → Prop) : Prompt → Editor → Reference → Prop
  | start (p : Prompt) (hp : ∀ b ∈ p.text, P b) :
    Session P p (readlineStart p .initial) Reference.initial.start
  | key {p : Prompt} {e e' : Editor} {r : Reference} (h : Session P p e r) (v : View)
    (hv : v.Names P) (k : Key) (hk : readlineKey p v lineBufSize e k = .more e') :
    Session P p e' (r.key v k)
  | line {p : Prompt} {e e' : Editor} {r : Reference} (h : Session P p e r) (v : View) (k : Key)
    {ret : ℕ} {stores : List (ℕ × Byte)}
    (hk : readlineKey p v lineBufSize e k = .line e' ret stores)
    (p' : Prompt) (hp' : ∀ b ∈ p'.text, P b) :
    Session P p' (readlineStart p' e') r.accept.start

/-! ### The buffer follows the reference -/

/-- The shell holds what the reference does. -/
structure Follows (e : Editor) (r : Reference) : Prop where
  edits : Edits e.line r.sides
  ok : e.history.Ok
  lines : e.history.entries = r.lines
  place : e.history.idx = r.place

variable {p : Prompt} {e e' : Editor} {r : Reference} {v : View} {k : Key}

theorem edits_initial : Edits Editor.initial.line .empty :=
  ⟨List.length_replicate, Nat.zero_lt_succ 1023, rfl, rfl, rfl⟩

theorem Follows.start (h : Follows e r) (p : Prompt) : Follows (readlineStart p e) r.start := by
  have hclear : Edits (lineClear { e.line with out := [] }) .empty := edits_lineClear h.edits.size
  refine ⟨hclear.write _, ?_, h.lines, ?_⟩
  · exact ⟨h.ok.count_le, h.ok.start_lt, h.ok.start_zero, Nat.le_refl _⟩
  · show e.history.count = r.lines.length
    rw [← h.lines, History.length_entries h.ok]

/-- A line of the history fits into the line buffer. -/
theorem History.take_slot (h : History) (i : ℕ) :
    (h.slot i).bytes.take (lineBufSize - 1) = (h.slot i).bytes := by
  refine List.take_of_length_le ?_
  by_cases hi : i < h.slots.length
  · have hslot : h.slot i = h.slots[i] := by
      rw [History.slot, List.getD_eq_getElem?_getD, List.getElem?_eq_getElem hi]
      rfl
    rw [hslot]
    exact Nat.le_sub_one_of_lt (h.slots_lt _ (List.getElem_mem hi))
  · have hslot : h.slot i = .empty := by
      rw [History.slot, List.getD_eq_getElem?_getD, List.getElem?_eq_none (Nat.not_lt.1 hi)]
      rfl
    rw [hslot]
    exact Nat.zero_le _

/-- The `i`-th line of the history, as the shell and the reference find it. -/
theorem Follows.getElem?_lines (h : Follows e r) {i : ℕ} (hi : i < e.history.count) :
    r.lines[i]? = some (e.history.slot ((e.history.start + i) % historySize)) := by
  rw [← h.lines, History.getElem?_entries hi h.ok.count_le]

/-- A history key rings the bell, or puts a line of the history, or the empty line, in
the place of the line. -/
def Recalls (e : Editor) (r : Reference) (turn : History × LineBuf) (r' : Reference) : Prop :=
  (turn = (e.history, termBell e.line) ∧ r' = r) ∨
    ∃ i s, i ≤ e.history.count ∧ s.bytes.take (lineBufSize - 1) = s.bytes ∧
      (s ∈ r.lines ∨ s = .empty) ∧ turn = ({ e.history with idx := i }, lineSet e.line s) ∧
      r' = ⟨.ofLine s.bytes, r.lines, i⟩

theorem Follows.recalls_prev (h : Follows e r) :
    Recalls e r (historyPrev e.history e.line) r.prev := by
  have hplace := h.place
  have hle := h.ok.idx_le
  rw [historyPrev]
  rcases hr : r.place with _ | i
  · rw [if_pos (.inr (by omega))]
    exact .inl ⟨rfl, by rw [Reference.prev, hr]⟩
  · have hline := h.getElem?_lines (i := i) (by omega)
    have hidx : e.history.idx - 1 = i := by omega
    rw [if_neg (by omega), hidx]
    refine .inr ⟨i, _, by omega, e.history.take_slot _, .inl (List.mem_of_getElem? hline), rfl, ?_⟩
    rw [Reference.prev, hr]
    dsimp only
    rw [hline]

theorem Follows.recalls_next (h : Follows e r) :
    Recalls e r (historyNext e.history e.line) r.next := by
  have hplace := h.place
  have hlen : r.lines.length = e.history.count := by rw [← h.lines, History.length_entries h.ok]
  rw [historyNext]
  by_cases hlt : e.history.idx + 1 < e.history.count
  · have hline := h.getElem?_lines hlt
    rw [if_pos hlt]
    refine .inr ⟨_, _, hlt.le, e.history.take_slot _, .inl (List.mem_of_getElem? hline), rfl, ?_⟩
    rw [Reference.next, ← hplace, hline]
  · have hnone : r.lines[r.place + 1]? = none := List.getElem?_eq_none (by omega)
    rw [if_neg hlt, Reference.next, hnone]
    dsimp only
    by_cases hlast : e.history.idx + 1 = e.history.count
    · rw [if_pos hlast, if_pos (by omega)]
      exact .inr ⟨_, .empty, Nat.le_refl _, rfl, .inr rfl, rfl, by rw [← hlen]; rfl⟩
    · rw [if_neg hlast, if_neg (by omega)]
      exact .inl ⟨rfl, rfl⟩

theorem Recalls.follows {turn : History × LineBuf} {r' : Reference} (h : Recalls e r turn r')
    (hf : Follows e r) : Follows ⟨turn.2, turn.1⟩ r' := by
  rcases h with ⟨rfl, rfl⟩ | ⟨i, s, hi, hs, -, rfl, rfl⟩
  · exact ⟨hf.edits.write _, hf.ok, hf.lines, hf.place⟩
  · have hset := hf.edits.lineSet s
    rw [hs] at hset
    exact ⟨hset, ⟨hf.ok.count_le, hf.ok.start_lt, hf.ok.start_zero, hi⟩, hf.lines, rfl⟩

/-- One key: the shell follows the reference. -/
theorem Follows.key (h : Follows e r) {nbuf : ℕ} (hk : readlineKey p v nbuf e k = .more e') :
    Follows e' (r.key v k) := by
  obtain ⟨hedit, hok, hlines, hplace⟩ := id h
  rw [readlineKey] at hk
  rw [Reference.key]
  cases hact : k.action <;> rw [hact] at hk <;> dsimp only at hk ⊢
  case accept => exact absurd hk (by rw [readlineAccept]; simp)
  case eofOrDelete =>
    split_ifs at hk with hlen
    obtain rfl := KeyOutcome.more.inj hk
    exact ⟨hedit.lineDeleteForward, hok, hlines, hplace⟩
  case interrupt =>
    obtain rfl := KeyOutcome.more.inj hk
    have hclear : Edits (lineClear (termWrite e.line [94, 67, 13, 10])) .empty :=
      edits_lineClear hedit.size
    exact ⟨hclear.write _, hok, hlines, hplace⟩
  case killAll =>
    obtain rfl := KeyOutcome.more.inj hk
    exact ⟨hedit.lineKillAll, hok, hlines, hplace⟩
  case killToEnd =>
    obtain rfl := KeyOutcome.more.inj hk
    exact ⟨hedit.lineKillToEnd, hok, hlines, hplace⟩
  case home =>
    obtain rfl := KeyOutcome.more.inj hk
    exact ⟨hedit.lineMoveHome, hok, hlines, hplace⟩
  case toEnd =>
    obtain rfl := KeyOutcome.more.inj hk
    exact ⟨hedit.lineMoveEnd, hok, hlines, hplace⟩
  case deleteBack =>
    obtain rfl := KeyOutcome.more.inj hk
    exact ⟨hedit.lineDeleteChar, hok, hlines, hplace⟩
  case complete =>
    obtain rfl := KeyOutcome.more.inj hk
    exact ⟨hedit.doTabCompletion p v, hok, hlines, hplace⟩
  case prev =>
    obtain rfl := KeyOutcome.more.inj hk
    exact h.recalls_prev.follows h
  case next =>
    obtain rfl := KeyOutcome.more.inj hk
    exact h.recalls_next.follows h
  case left =>
    obtain rfl := KeyOutcome.more.inj hk
    exact ⟨hedit.lineMoveLeft, hok, hlines, hplace⟩
  case right =>
    obtain rfl := KeyOutcome.more.inj hk
    exact ⟨hedit.lineMoveRight, hok, hlines, hplace⟩
  case deleteForward =>
    obtain rfl := KeyOutcome.more.inj hk
    exact ⟨hedit.lineDeleteForward, hok, hlines, hplace⟩
  case redraw =>
    obtain rfl := KeyOutcome.more.inj hk
    exact ⟨(hedit.write _).showLine p, hok, hlines, hplace⟩
  case insert c =>
    obtain rfl := KeyOutcome.more.inj hk
    exact ⟨hedit.lineInsertChar c, hok, hlines, hplace⟩
  case ignore =>
    obtain rfl := KeyOutcome.more.inj hk
    exact ⟨hedit, hok, hlines, hplace⟩

/-- The string in the line buffer is the line. -/
theorem Edits.ofBytes_buf {l : LineBuf} {z : TwoSided Byte} (h : Edits l z) :
    CStr.ofBytes l.buf = CStr.ofBytes z.line := by
  have hlt : l.len < l.buf.length := by rw [h.size]; exact h.len_lt
  have hnul : l.buf[l.len] = 0 := Option.some.inj ((List.getElem?_eq_getElem hlt).symm.trans h.nul)
  have hbuf : l.buf = z.line ++ 0 :: l.buf.drop (l.len + 1) := by
    rw [← h.line, ← hnul, ← List.drop_eq_getElem_cons hlt, List.take_append_drop]
  have htake : l.buf.takeWhile (· != 0) = z.line.takeWhile (· != 0) := by
    rw [hbuf, List.takeWhile_append]
    split_ifs with hall
    · rw [List.takeWhile_cons_of_neg (by decide), List.append_nil]
      exact (List.takeWhile_prefix _).eq_of_length hall |>.symm
    · rfl
  exact CStr.mk.injEq .. ▸ htake

/-- The keys that end a line end it as `case '\n'` does. -/
theorem readlineKey_eq_line {nbuf ret : ℕ} {stores : List (ℕ × Byte)}
    (hk : readlineKey p v nbuf e k = .line e' ret stores) :
    readlineAccept nbuf e = .line e' ret stores := by
  rw [readlineKey] at hk
  cases hact : k.action <;> rw [hact] at hk <;> dsimp only at hk
  case accept => exact hk
  case eofOrDelete => split_ifs at hk
  all_goals exact absurd hk (by simp)

/-- The end of a line: it is remembered, and another one started. -/
theorem Follows.accept (h : Follows e r) {nbuf ret : ℕ} {stores : List (ℕ × Byte)}
    (hk : readlineAccept nbuf e = .line e' ret stores) (p' : Prompt) :
    Follows (readlineStart p' e') r.accept.start := by
  obtain ⟨hedit, hok, hlines, hplace⟩ := h
  have hlen : (CStr.ofBytes r.sides.line).bytes.length < lineBufSize := by
    refine Nat.lt_of_le_of_lt (List.takeWhile_prefix _).length_le ?_
    rw [hedit.length_line]
    exact hedit.len_lt
  have hadd : (if 0 < e.line.len then historyAdd e.history (CStr.ofBytes e.line.buf)
      else e.history) = historyAdd e.history (CStr.ofBytes e.line.buf) := by
    by_cases hpos : 0 < e.line.len
    · rw [if_pos hpos]
    · have hnil : r.sides.line = [] := by
        rw [← List.length_eq_zero_iff, hedit.length_line]
        omega
      rw [if_neg hpos, hedit.ofBytes_buf, historyAdd, if_pos]
      rw [CStr.ofBytes, hnil]
      rfl
  rw [readlineAccept] at hk
  obtain ⟨he, -, -⟩ := KeyOutcome.line.inj hk
  have hhist : e'.history = historyAdd e.history (CStr.ofBytes e.line.buf) := by
    rw [← he]
    exact hadd
  have hbuf : e'.line.buf = e.line.buf := by
    rw [← he]
    rfl
  have hnew := hok.historyAdd (CStr.ofBytes e.line.buf)
  have hentries : e'.history.entries = r.accept.lines := by
    rw [hhist, hedit.ofBytes_buf, History.entries_historyAdd hok hlen, hlines]
    rfl
  rw [← hhist] at hnew
  have hclear : Edits (lineClear { e'.line with out := [] }) .empty :=
    edits_lineClear (hbuf ▸ hedit.size)
  refine ⟨hclear.write _, ⟨hnew.count_le, hnew.start_lt, hnew.start_zero, Nat.le_refl _⟩,
    hentries, ?_⟩
  show e'.history.count = r.accept.lines.length
  rw [← hentries, History.length_entries hnew]

/-- **The buffer after every key.**  Whatever is typed, the line buffer and the history
hold what the reference holds. -/
theorem session_follows {P : Byte → Prop} (h : Session P p e r) : Follows e r := by
  induction h with
  | start p hp =>
    exact Follows.start (r := .initial) ⟨edits_initial, History.ok_initial, rfl, rfl⟩ p
  | key h v hv k hk ih => exact ih.key hk
  | line h v k hk p' hp' ih => exact ih.accept (readlineKey_eq_line hk) p'

/-! ### The terminal follows the buffer -/

/-- The bytes of the line and of the lines remembered are printable. -/
structure Reference.Printable (r : Reference) : Prop where
  line : ∀ b ∈ r.sides.line, Terminal.Printable b
  lines : AllBytes Terminal.Printable r.lines

theorem printable_of_subset {l l' : List Byte} (h : ∀ b ∈ l, Printable b) (hsub : l' ⊆ l) :
    ∀ b ∈ l', Printable b := fun b hb => h b (hsub hb)

theorem Completion.printable_apply {c : Completion} {z : TwoSided Byte} (hc : c.All Printable)
    (hz : ∀ b ∈ z.line, Printable b) : ∀ b ∈ (c.apply z).line, Printable b := by
  cases c with
  | bell => exact hz
  | choose found => exact hz
  | type s =>
    exact List.foldlRecOn (motive := fun z : TwoSided Byte => ∀ b ∈ z.line, Printable b) s _ hz
      fun z hz c hc' => printable_insert hz (hc c hc') _

theorem Reference.Printable.recall (h : r.Printable) {i : ℕ} {s : CStr}
    (hs : r.lines[i]? = some s) (place : ℕ) :
    Reference.Printable { r with sides := .ofLine s.bytes, place := place } := by
  refine ⟨?_, h.lines⟩
  rw [TwoSided.line_ofLine]
  exact h.lines s (List.mem_of_getElem? hs)

/-- One key: what is typed, completed or recalled is printable. -/
theorem Reference.Printable.key (h : r.Printable) (hv : v.Names Terminal.Printable) (k : Key) :
    (r.key v k).Printable := by
  have hline := h.line
  rw [Reference.key]
  cases hact : k.action <;> dsimp only
  case accept => exact h
  case redraw => exact h
  case ignore => exact h
  case interrupt => exact ⟨fun b hb => absurd hb List.not_mem_nil, h.lines⟩
  case killAll => exact ⟨fun b hb => absurd hb List.not_mem_nil, h.lines⟩
  case home => exact ⟨hline, h.lines⟩
  case toEnd => exact ⟨by rwa [TwoSided.line_toEnd], h.lines⟩
  case left => exact ⟨by rwa [TwoSided.line_left], h.lines⟩
  case right => exact ⟨by rwa [TwoSided.line_right], h.lines⟩
  case killToEnd =>
    refine ⟨printable_of_subset hline ?_, h.lines⟩
    rw [TwoSided.line_killToEnd]
    exact List.take_subset _ _
  case eofOrDelete =>
    exact ⟨printable_of_subset hline r.sides.line_deleteForward_subset, h.lines⟩
  case deleteForward =>
    exact ⟨printable_of_subset hline r.sides.line_deleteForward_subset, h.lines⟩
  case deleteBack =>
    exact ⟨printable_of_subset hline r.sides.line_deleteBack_subset, h.lines⟩
  case complete =>
    exact ⟨Completion.printable_apply (all_completion hv printable_builtins (by decide)
      (by decide) _ _) hline, h.lines⟩
  case insert c =>
    refine ⟨printable_insert hline ?_ _, h.lines⟩
    exact Key.printable_of_insert hact
  case prev =>
    rw [Reference.prev]
    split
    · exact h
    · split
      · rename_i hs
        exact h.recall hs _
      · exact h
  case next =>
    rw [Reference.next]
    split
    · rename_i hs
      exact h.recall hs _
    · split_ifs
      · exact ⟨fun b hb => absurd hb List.not_mem_nil, h.lines⟩
      · exact h

theorem Recalls.displays {turn : History × LineBuf} {r' : Reference} (h : Recalls e r turn r')
    (hf : Follows e r) (hr : r.Printable) {t : Terminal} {prompt : List Byte}
    (hd : Displays t prompt e.line r.sides) : Displays t prompt turn.2 r'.sides := by
  rcases h with ⟨rfl, rfl⟩ | ⟨i, s, -, hs, hmem, rfl, rfl⟩
  · exact hd.bell
  · have hbytes : ∀ b ∈ s.bytes, Printable b := by
      rcases hmem with hmem | rfl
      · exact hr.lines s hmem
      · exact fun b hb => absurd hb List.not_mem_nil
    have hset := hd.lineSet hf.edits s hbytes
    rwa [hs] at hset

/-- On an empty row, the prompt of an empty line is shown. -/
theorem displays_prompt {t : Terminal} {l : LineBuf} (hp : ∀ b ∈ p.text, Printable b)
    (h : (t.feed l.out).Shows [] 0) : Displays t p.text (termWrite l p.text) .empty := by
  rw [Displays, feed_termWrite, TwoSided.line_empty, TwoSided.pos_empty, List.append_nil]
  exact Terminal.Shows.append h hp

/-- One key: the terminal shows what the reference holds. -/
theorem Displays.key {t : Terminal} {nbuf : ℕ} (hp : ∀ b ∈ p.text, Printable b)
    (hv : v.Names Printable) (hf : Follows e r) (hr : r.Printable)
    (h : Displays t p.text e.line r.sides) (hk : readlineKey p v nbuf e k = .more e') :
    Displays t p.text e'.line (r.key v k).sides := by
  have hedit := hf.edits
  have hline := hr.line
  rw [readlineKey] at hk
  rw [Reference.key]
  cases hact : k.action <;> rw [hact] at hk <;> dsimp only at hk ⊢
  case accept => exact absurd hk (by rw [readlineAccept]; simp)
  case eofOrDelete =>
    split_ifs at hk with hlen
    obtain rfl := KeyOutcome.more.inj hk
    exact h.lineDeleteForward hedit hline
  case interrupt =>
    obtain rfl := KeyOutcome.more.inj hk
    refine displays_prompt hp ?_
    show (t.feed (e.line.out ++ ([94, 67] ++ [13, 10]))).Shows [] 0
    rw [Terminal.feed_append, Terminal.feed_append]
    exact (Terminal.Shows.text h (Terminal.printable_of_all rfl)).newline
  case killAll =>
    obtain rfl := KeyOutcome.more.inj hk
    exact h.lineKillAll hedit
  case killToEnd =>
    obtain rfl := KeyOutcome.more.inj hk
    exact h.lineKillToEnd
  case home =>
    obtain rfl := KeyOutcome.more.inj hk
    exact h.lineMoveHome hedit
  case toEnd =>
    obtain rfl := KeyOutcome.more.inj hk
    exact h.lineMoveEnd hedit
  case deleteBack =>
    obtain rfl := KeyOutcome.more.inj hk
    exact h.lineDeleteChar hedit hline
  case complete =>
    obtain rfl := KeyOutcome.more.inj hk
    exact h.doTabCompletion hv hp hedit hline
  case prev =>
    obtain rfl := KeyOutcome.more.inj hk
    exact hf.recalls_prev.displays hf hr h
  case next =>
    obtain rfl := KeyOutcome.more.inj hk
    exact hf.recalls_next.displays hf hr h
  case left =>
    obtain rfl := KeyOutcome.more.inj hk
    exact h.lineMoveLeft hedit
  case right =>
    obtain rfl := KeyOutcome.more.inj hk
    exact h.lineMoveRight hedit
  case deleteForward =>
    obtain rfl := KeyOutcome.more.inj hk
    exact h.lineDeleteForward hedit hline
  case redraw =>
    obtain rfl := KeyOutcome.more.inj hk
    refine displays_showLine hp (hedit.write _) hline ?_
    rw [termClearScreen, feed_termWrite]
    exact Terminal.Shows.clearScreen h
  case insert c =>
    obtain rfl := KeyOutcome.more.inj hk
    exact h.lineInsertChar hedit hline (Key.printable_of_insert hact)
  case ignore =>
    obtain rfl := KeyOutcome.more.inj hk
    exact h

/-- **The terminal after every key.**  Whatever is typed, the terminal shows what the
reference holds, and all of it is printable. -/
theorem session_displays (h : Session Printable p e r) :
    (∀ b ∈ p.text, Printable b) ∧ r.Printable ∧ Displays .fresh p.text e.line r.sides := by
  have hstart : ∀ {p : Prompt} {e : Editor}, (∀ b ∈ p.text, Printable b) →
      Displays .fresh p.text (readlineStart p e).line .empty := fun hp =>
    displays_prompt hp Terminal.shows_fresh
  induction h with
  | start p hp =>
    exact ⟨hp, ⟨fun b hb => absurd hb List.not_mem_nil, fun s hs => absurd hs List.not_mem_nil⟩,
      hstart hp⟩
  | key h v hv k hk ih =>
    obtain ⟨hp, hr, hd⟩ := ih
    exact ⟨hp, hr.key hv k, hd.key hp hv (session_follows h) hr hk⟩
  | line h v k hk p' hp' ih =>
    obtain ⟨-, hr, -⟩ := ih
    refine ⟨hp', ⟨fun b hb => absurd hb List.not_mem_nil, ?_⟩, hstart hp'⟩
    intro s hs
    rcases mem_remember hs with hs | rfl
    · exact hr.lines s hs
    · exact printable_of_subset hr.line (List.takeWhile_prefix _).subset

/-- **The line editor refines its reference.**  After every key of every line: the
cursor is within the line, the line within the buffer with a NUL after it; the buffer
and the cursor are those of the reference; and the terminal shows the prompt and the
line, with its cursor in the place of the line's. -/
theorem readline_refines (h : Session Printable p e r) :
    e.line.cursor ≤ e.line.len ∧ e.line.len ≤ 1023 ∧ e.line.buf[e.line.len]? = some 0 ∧
      e.line.buf.take e.line.len = r.sides.line ∧ e.line.cursor = r.sides.pos ∧
      (Terminal.fresh.feed e.line.out).Shows (p.text ++ e.line.buf.take e.line.len)
        (p.text.length + e.line.cursor) := by
  have hedit := (session_follows h).edits
  obtain ⟨-, -, hd⟩ := session_displays h
  refine ⟨hedit.cursor_le, Nat.le_of_lt_succ hedit.len_lt, hedit.nul, hedit.line, hedit.cursor, ?_⟩
  rw [hedit.line, hedit.cursor]
  exact hd

/-- A prompt of the user `u` in the root directory. -/
def plainPrompt : Prompt := ⟨⟨[117], by decide⟩, .slash, 0⟩

/-- A view of no directories at all. -/
def emptyView : View := ⟨fun _ => none, fun _ => false, fun _ => false, none⟩

/-- The shell after the byte `a` is typed `n` times. -/
def typed : ℕ → Editor
  | 0 => readlineStart plainPrompt .initial
  | n + 1 => { typed n with line := lineInsertChar (typed n).line 97 }

/-- The reference after the byte `a` is typed `n` times. -/
def typedReference : ℕ → Reference
  | 0 => Reference.initial.start
  | n + 1 => (typedReference n).key emptyView (.byte 97)

theorem session_typed {P : Byte → Prop} (hp : ∀ b ∈ plainPrompt.text, P b) (n : ℕ) :
    Session P plainPrompt (typed n) (typedReference n) := by
  have hv : emptyView.Names P := fun dir es hes => absurd hes nofun
  induction n with
  | zero => exact .start plainPrompt hp
  | succ n ih => exact .key ih emptyView hv (.byte 97) rfl

/-- The row after the byte `a` is typed twice. -/
theorem readline_refines_typed :
    (Terminal.fresh.feed (typed 2).line.out).Shows
      (plainPrompt.text ++ (typed 2).line.buf.take (typed 2).line.len)
      (plainPrompt.text.length + (typed 2).line.cursor) := by
  have hp : ∀ b ∈ plainPrompt.text, Printable b := Terminal.printable_of_all rfl
  obtain ⟨-, -, -, -, -, h⟩ := readline_refines (session_typed hp 2)
  exact h

/-! ### The caller's buffer -/

/-- The stores of a call, carried out one after the other; what is stored outside the
buffer is not in it. -/
def storeAll (buf : List Byte) (stores : List (ℕ × Byte)) : List Byte :=
  stores.foldl (fun b s => b.set s.1 s.2) buf

theorem storeAll_copy (src buf : List Byte) (n : ℕ) (hsrc : n ≤ src.length)
    (hbuf : n ≤ buf.length) :
    storeAll buf ((List.range n).map fun i => (i, src.getD i 0)) = src.take n ++ buf.drop n := by
  induction n with
  | zero => rfl
  | succ n ih =>
    have hget : src.getD n 0 = src[n] := by
      rw [List.getD_eq_getElem?_getD, List.getElem?_eq_getElem hsrc]
      rfl
    have hlen : (src.take n).length = n := by
      rw [List.length_take]
      omega
    rw [storeAll, List.range_succ, List.map_append, List.foldl_append]
    show List.set (storeAll buf _) n (src.getD n 0) = _
    rw [ih (by omega) (by omega), List.set_append_right _ _ (by omega), hlen, Nat.sub_self,
      List.drop_eq_getElem_cons hbuf, List.set_cons_zero, hget, List.take_add_one,
      List.getElem?_eq_getElem hsrc, List.append_assoc]
    rfl

theorem storeAll_end (l : List Byte) (x y : Byte) (rest : List Byte) :
    storeAll (l ++ x :: y :: rest) [(l.length, newline), (l.length + 1, 0)] =
      l ++ newline :: 0 :: rest := by
  simp [storeAll]

/-- What the accepting of a line stores: the line, a newline and a NUL. -/
theorem Follows.stores (h : Follows e r) {ret : ℕ} {stores : List (ℕ × Byte)}
    (hk : readlineAccept lineBufSize e = .line e' ret stores) :
    ret = r.sides.line.length + 1 ∧
      stores = (List.range r.sides.line.length).map (fun i => (i, e.line.buf.getD i 0)) ++
        [(r.sides.line.length, newline), (r.sides.line.length + 1, 0)] := by
  have hlt : ¬lineBufSize ≤ (termWrite e.line [13, 10]).len := Nat.not_le.2 h.edits.len_lt
  rw [readlineAccept] at hk
  obtain ⟨-, hret, hstores⟩ := KeyOutcome.line.inj hk
  rw [if_neg hlt] at hret hstores
  rw [h.edits.length_line]
  exact ⟨hret.symm, hstores.symm⟩

/-- **When the caller's buffer holds the line.**  In every session, the end of a line
stores within the buffer of `LINE_BUF_SIZE` bytes that `main` passes, and leaves the
line, a newline and a NUL there, exactly when the line is two bytes shorter than the
buffer. -/
theorem readline_stores_iff {P : Byte → Prop} (h : Session P p e r) {ret : ℕ}
    {stores : List (ℕ × Byte)} (hk : readlineKey p v lineBufSize e k = .line e' ret stores)
    {buf : List Byte} (hbuf : buf.length = lineBufSize) :
    ((∀ s ∈ stores, s.1 < lineBufSize) ∧
        (storeAll buf stores).take (ret + 1) = r.sides.line ++ [newline, 0]) ↔
      r.sides.line.length + 2 ≤ lineBufSize := by
  have hf := session_follows h
  have hedit := hf.edits
  obtain ⟨rfl, rfl⟩ := hf.stores (readlineKey_eq_line hk)
  constructor
  · rintro ⟨hlt, -⟩
    exact hlt (r.sides.line.length + 1, 0) (by simp)
  · intro hroom
    refine ⟨?_, ?_⟩
    · intro s hs
      rw [List.mem_append, List.mem_map] at hs
      rcases hs with ⟨i, hi, rfl⟩ | hs
      · have := List.mem_range.1 hi
        show i < lineBufSize
        omega
      · rcases List.mem_cons.1 hs with rfl | hs
        · show r.sides.line.length < lineBufSize
          omega
        · rw [List.mem_singleton.1 hs]
          exact hroom
    · have hcopy := storeAll_copy e.line.buf buf r.sides.line.length
        (by rw [hedit.size]; omega) (by omega)
      have hline : e.line.buf.take r.sides.line.length = r.sides.line := by
        rw [hedit.length_line, hedit.line]
      rw [hline] at hcopy
      rw [storeAll, List.foldl_append]
      obtain ⟨x, y, rest, hdrop⟩ : ∃ x y rest, buf.drop r.sides.line.length = x :: y :: rest :=
        ⟨_, _, _, by rw [List.drop_eq_getElem_cons (by omega), List.drop_eq_getElem_cons (by omega)]⟩
      show (storeAll (storeAll buf _) _).take _ = _
      rw [hcopy, hdrop, storeAll_end, List.take_append, List.take_of_length_le (by omega),
        show r.sides.line.length + 1 + 1 - r.sides.line.length = 2 by omega]
      rfl

theorem typedReference_sides {n : ℕ} (hn : n < lineBufSize) :
    (typedReference n).sides = ⟨List.replicate n 97, []⟩ := by
  induction n with
  | zero => rfl
  | succ n ih =>
    have hact : (Key.byte 97).action = .insert 97 := by decide
    rw [typedReference, Reference.key, hact]
    show ((typedReference n).sides.insert (lineBufSize - 1) 97) = _
    rw [ih (by omega), TwoSided.insert, if_pos]
    · rfl
    · rw [TwoSided.line, List.append_nil, List.length_reverse, List.length_replicate]
      omega

theorem length_typedReference {n : ℕ} (hn : n < lineBufSize) :
    (typedReference n).sides.line.length = n := by
  rw [typedReference_sides hn, TwoSided.line, List.append_nil, List.length_reverse,
    List.length_replicate]

/-- A line of one byte is stored with its newline and its NUL. -/
theorem readline_stores_iff_typed :
    ∃ e' ret stores, readlineKey plainPrompt emptyView lineBufSize (typed 1) (.byte 13) =
        .line e' ret stores ∧
      (storeAll (List.replicate lineBufSize 0) stores).take (ret + 1) = [97, newline, 0] := by
  have h : Session (fun _ => True) plainPrompt (typed 1) (typedReference 1) :=
    session_typed (fun _ _ => trivial) 1
  refine ⟨_, _, _, rfl, ?_⟩
  have hstores := (readline_stores_iff h (k := .byte 13) (v := emptyView) rfl
    (List.length_replicate (n := lineBufSize) (a := 0))).2
    (by rw [length_typedReference (by decide)]; decide)
  rw [typedReference_sides (by decide)] at hstores
  exact hstores.2

/-- **A full line is stored past the end of the buffer.**  After 1023 bytes the NUL is
stored at the offset 1024. -/
theorem readline_stores_past :
    Session (fun _ => True) plainPrompt (typed 1023) (typedReference 1023) ∧
      ¬∀ e' ret stores, readlineKey plainPrompt emptyView lineBufSize (typed 1023) (.byte 13) =
        .line e' ret stores → ∀ s ∈ stores, s.1 < lineBufSize := by
  have h : Session (fun _ => True) plainPrompt (typed 1023) (typedReference 1023) :=
    session_typed (fun _ _ => trivial) 1023
  refine ⟨h, fun hall => ?_⟩
  have hkey : readlineKey plainPrompt emptyView lineBufSize (typed 1023) (.byte 13) =
      readlineAccept lineBufSize (typed 1023) := rfl
  obtain ⟨-, hstores⟩ := (session_follows h).stores rfl
  rw [length_typedReference (by decide)] at hstores
  have hlt := hall _ _ _ (hkey.trans rfl) (1024, 0) (by rw [hstores]; simp)
  exact absurd hlt (Nat.lt_irrefl 1024)

end Shell
end V6User
