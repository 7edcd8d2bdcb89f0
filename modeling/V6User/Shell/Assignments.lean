import Mathlib.Data.List.Nodup
import V6User.Base.Splitter
import V6User.Shell.EnvTable
import V6User.Shell.Operators
import V6User.Shell.Pieces
import V6User.Shell.Words

/-!
# Lines of assignments

`programs/sh/sh.c`: `run_assignment_only_line` in `run_line`, against `expand_env_vars`,
`gettoken` and `nulterminate` on the same line.

A line of assignments is split at blanks, tabs and newlines, and what stands between them
goes into the table as it is.  Before a command the same words are expanded, cut by the
tokenizer and unquoted.  Where every byte of the line stands for itself (`PlainLine`), the
two come to the same, and, but for references and values that happen to match, nowhere
else (`assignments_given`).
-/

namespace V6User
namespace Shell

/-- The words of a text up to its first operator, without their quotes. -/
def commandWords (s : CStr) : List (List Byte) :=
  (wordSpans ((tokens s.cursor).takeWhile fun t => t.span?.isSome)).map fun w =>
    dequote .out (w.slice s.bytes)

/-- `is_env_assignment_word`, for the bytes of a word. -/
def isAssignment (w : List Byte) : Bool := 0 < envAssignmentNameLen w

/-- The tokenizer finds nothing in the line but words of the form `NAME=value`. -/
structure OnlyAssignments (line : CStr) : Prop where
  words : ∀ t ∈ tokens line.cursor, t.span?.isSome = true
  ne_nil : commandWords line ≠ []
  assignments : ∀ w ∈ commandWords line, isAssignment w = true

/-- The assignments that the line would make before a command: the assignment words its
expansion begins with. -/
def prefixAssignments (env : Env) (pid : ℕ) (line : CStr) : List (List Byte) :=
  (commandWords (expanded env pid line)).takeWhile isAssignment

/-- What `run_assignment_only_line` splits at. -/
def blank (c : Byte) : Bool := c == space || c == 9 || c == newline

/-- `run_line` takes the line for assignments. -/
structure Taken (line : CStr) : Prop where
  notBlank : isBlankLine line = false
  noOperator : lineHasControlOperator line = false
  ne_nil : blankWords line ≠ []
  assignments : (blankWords line).all isEnvAssignmentWord = true

/-- Every byte of the line is between words or stands for itself, and the line does not
begin with an empty one. -/
structure PlainLine (line : CStr) : Prop where
  notBlank : isBlankLine line = false
  bytes : ∀ b ∈ line.bytes, plainByte b = true ∨ blank b = true

/-- The table gives each name the value of the last word that assigns it. -/
def Env.Gives (env : Env) (ws : List (List Byte)) : Prop :=
  ∀ name value, lastValue ws name = some value → env.value name = some value

/-- The call came back, and its table gives each name its value. -/
def Turn.Gives (ws : List (List Byte)) : Turn → Prop
  | .returned _ env _ => env.Gives ws
  | .exited _ => False

/-! ### The words of a line -/

theorem eq_map_word {ts : List Tok} (h : ∀ t ∈ ts, t.span?.isSome = true) :
    ts = (wordSpans ts).map .word := by
  induction ts with
  | nil => rfl
  | cons t ts ih =>
    obtain ⟨ht, hts⟩ := List.forall_mem_cons.1 h
    cases t with
    | word w =>
      rw [wordSpans_cons, Tok.span?, Option.toList_some, List.singleton_append, List.map_cons,
        ← ih hts]
    | _ => exact absurd ht Bool.false_ne_true

/-- Up to 31 words are what `parsecmd` and `nulterminate` leave in `argv`. -/
theorem argvOf_eq_commandWords {s : CStr} (h : ∀ t ∈ tokens s.cursor, t.span?.isSome = true)
    (hmax : (commandWords s).length < maxArgs) : argvOf s = some (commandWords s) := by
  have hall : (tokens s.cursor).takeWhile (fun t => t.span?.isSome) = tokens s.cursor :=
    List.takeWhile_eq_self_iff.2 h
  rw [commandWords, hall] at hmax ⊢
  rw [List.length_map] at hmax
  exact argvOf_of_words (eq_map_word h) hmax

/-- A plain word at the beginning of a text is its first. -/
theorem commandWords_plain {s : CStr} {w t : List Byte} (hw : PlainWord w) (ht : EndsWord t)
    (hs : s.bytes = w ++ t) : ∃ ws, commandWords s = w :: ws := by
  have htok : (gettoken s.cursor).tok = some (.word ⟨0, w.length⟩) := by
    have h := (gettoken_plain (c := s.cursor) (g := []) hs nofun hw ht).1
    rwa [List.length_nil, Nat.add_zero, show s.cursor.pos = 0 from rfl, Nat.zero_add] at h
  have hslice : Span.slice ⟨0, w.length⟩ s.bytes = w := by
    rw [Span.slice, hs]
    exact List.take_left
  rw [commandWords, tokens_of_some htok, List.takeWhile_cons_of_pos rfl, wordSpans_cons,
    Tok.span?, Option.toList_some, List.singleton_append, List.map_cons, hslice,
    dequote_plain hw.plain]
  exact ⟨_, rfl⟩

/-- The words of a text of plain words. -/
theorem commandWords_spells {s : CStr} {ws : List (List Byte)} (h : Spells s.bytes ws) :
    (∀ t ∈ tokens s.cursor, t.span?.isSome = true) ∧ commandWords s = ws := by
  obtain ⟨spans, htoks, hslices⟩ := @tokens_spells s.bytes s.bytes ws h s.cursor rfl rfl
  have hwords : ∀ t ∈ tokens s.cursor, t.span?.isSome = true := by
    intro t ht
    rw [htoks] at ht
    obtain ⟨w, -, rfl⟩ := List.mem_map.1 ht
    rfl
  refine ⟨hwords, ?_⟩
  have hplain := h.plainWord
  rw [commandWords, List.takeWhile_eq_self_iff.2 hwords, htoks, wordSpans_map_word]
  refine Eq.trans (List.map_congr_left fun w hw => ?_) hslices
  exact dequote_plain (hplain _ (hslices ▸ List.mem_map_of_mem hw)).plain

theorem whitespace_of_blank {b : Byte} (h : blank b = true) : strchr whitespace b = true := by
  rw [blank, Bool.or_eq_true, Bool.or_eq_true, beq_iff_eq, beq_iff_eq, beq_iff_eq] at h
  rcases h with (rfl | rfl) | rfl <;> rfl

/-- **Where every byte stands for itself**, the words are what stands between blanks. -/
theorem spells_parts {s : List Byte} (h : ∀ b ∈ s, plainByte b = true ∨ blank b = true) :
    Spells s (Splitter.parts blank s) := by
  revert h
  refine Splitter.parts_induction (p := blank)
    (P := fun s ws => (∀ b ∈ s, plainByte b = true ∨ blank b = true) → Spells s ws)
    (fun _ => .nil nofun) (fun a s ha ih h => ?_) (fun w t hne hw ht ih h => ?_) s
  · refine (ih fun b hb => h b (List.mem_cons_of_mem a hb)).blank (g := [a]) ?_
    exact List.forall_mem_singleton.2 (whitespace_of_blank ha)
  · have hplain : PlainWord w := by
      refine ⟨hne, fun b hb => ?_⟩
      refine (h b (List.mem_append_left t hb)).resolve_right ?_
      rw [hw b hb]
      exact Bool.false_ne_true
    have hend : EndsWord t := by
      rcases ht with rfl | ⟨a, r, rfl, ha⟩
      · exact .inl rfl
      · exact .inr ⟨a, r, rfl, Bool.or_eq_true_iff.2 (.inl (whitespace_of_blank ha))⟩
    exact Spells.cons (g := []) nofun hplain hend
      (ih fun b hb => h b (List.mem_append_right w hb))

/-- The words of `run_assignment_only_line`. -/
theorem blankWords_eq {line : CStr} (hlen : line.bytes.length < lineBufSize) :
    (blankWords line).map CStr.bytes = Splitter.parts blank line.bytes := by
  have htake : line.bytes.take (lineBufSize - 1) = line.bytes :=
    List.take_of_length_le (Nat.le_pred_of_lt hlen)
  rw [blankWords, htake, List.map_map]
  refine Eq.trans (List.map_congr_left (g := id) fun w hw => ?_) (List.map_id _)
  exact ofBytes_bytes fun h0 => line.nul_free (Splitter.mem_of_mem_parts (p := blank) hw h0)

/-! ### What `run_line` does with the line -/

section Turn

variable {env : Env} {pid : ℕ} {interactive : Bool} {line : CStr}

theorem lineFormOf_of_taken (h : Taken line) : lineFormOf line = .assignments (blankWords line) := by
  rw [lineFormOf, h.notBlank, h.noOperator, if_neg Bool.false_ne_true, if_neg Bool.false_ne_true,
    if_pos ⟨h.ne_nil, h.assignments⟩]

/-- A line of assignments does not begin with a word that is none. -/
theorem OnlyAssignments.not_startsWith (h : OnlyAssignments line) {w : List Byte}
    (hw : PlainWord w) (hassign : isAssignment w = false) :
    ¬line.startsWith (w ++ [space]) = true := by
  intro hstart
  obtain ⟨t, ht⟩ := List.isPrefixOf_iff_prefix.1 hstart
  obtain ⟨ws, hws⟩ := commandWords_plain (s := line) (t := space :: t) hw
    (.inr ⟨space, t, rfl, rfl⟩) (by rw [← ht, List.append_assoc]; rfl)
  have hfirst := h.assignments w (hws ▸ List.mem_cons_self)
  exact Bool.false_ne_true (hassign.symm.trans hfirst)

/-- The forms of a line that have nothing to do with the table. -/
def LineForm.keepsTable : LineForm → Bool
  | .assignments _ => false
  | .exportVar _ _ => false
  | .unset _ => false
  | _ => true

theorem gives_of_keepsTable {buf : CStr} {ws : List (List Byte)}
    (hform : (lineForm buf).keepsTable = true)
    (h : (runLine env pid interactive buf).Gives ws) : env.Gives ws := by
  rw [runLine] at h
  cases hf : lineForm buf with
  | assignments _ => rw [hf] at hform; exact absurd hform Bool.false_ne_true
  | exportVar _ _ => rw [hf] at hform; exact absurd hform Bool.false_ne_true
  | unset _ => rw [hf] at hform; exact absurd hform Bool.false_ne_true
  | cd path =>
    rw [hf] at h
    dsimp only at h
    split_ifs at h <;> exact h
  | echo text =>
    rw [hf] at h
    dsimp only at h
    split_ifs at h <;> exact h
  | external line =>
    rw [hf] at h
    dsimp only at h
    rw [runExternal] at h
    split_ifs at h
    · exact h
    · split at h <;> first | exact h | exact h.elim
  | _ => rw [hf] at h; exact h

/-- A line that is not taken for assignments leaves the table as it is. -/
theorem gives_of_not_taken {buf : CStr} {ws : List (List Byte)} (hbuf : withNewline buf = some line)
    (hline : OnlyAssignments line) (h : ¬Taken line)
    (hgives : (runLine env pid interactive buf).Gives ws) : env.Gives ws := by
  have hexport : ¬line.startsWith [101, 120, 112, 111, 114, 116, 32] = true :=
    hline.not_startsWith (w := [101, 120, 112, 111, 114, 116])
      ⟨List.cons_ne_nil _ _, List.all_eq_true.1 rfl⟩ rfl
  have hunset : ¬line.startsWith [117, 110, 115, 101, 116, 32] = true :=
    hline.not_startsWith (w := [117, 110, 115, 101, 116])
      ⟨List.cons_ne_nil _ _, List.all_eq_true.1 rfl⟩ rfl
  refine gives_of_keepsTable ?_ hgives
  rw [lineForm, hbuf]
  dsimp only
  unfold lineFormOf
  by_cases hblank : isBlankLine line = true
  · rw [if_pos hblank]
    rfl
  by_cases hop : lineHasControlOperator line = true
  · rw [if_neg hblank, if_pos hop]
    rfl
  have hwords : ¬(blankWords line ≠ [] ∧ (blankWords line).all isEnvAssignmentWord = true) :=
    fun hw => h ⟨Bool.eq_false_iff.2 hblank, Bool.eq_false_iff.2 hop, hw.1, hw.2⟩
  rw [if_neg hblank, if_neg hop, if_neg hwords]
  split_ifs <;> rfl

/-- A line that is taken for assignments. -/
theorem gives_taken_iff {buf : CStr} {ws : List (List Byte)} (hbuf : withNewline buf = some line)
    (htaken : Taken line) (hlen : line.bytes.length < lineBufSize)
    (hfull : env.NeverFull (blankWords line))
    (hshort : ∀ w ∈ Splitter.parts blank line.bytes, ShortAssignment w) :
    (runLine env pid interactive buf).Gives ws ↔ ∀ name value, lastValue ws name = some value →
      (lastValue (Splitter.parts blank line.bytes) name).or (env.value name) = some value := by
  have hform : lineForm buf = .assignments (blankWords line) := by
    rw [lineForm, hbuf]
    exact lineFormOf_of_taken htaken
  have hshort' : ∀ w ∈ blankWords line, ShortAssignment w.bytes := fun w hw =>
    hshort w.bytes (blankWords_eq hlen ▸ List.mem_map_of_mem hw)
  rw [runLine, hform]
  show (runAssignments env (blankWords line)).1.Gives ws ↔ _
  simp only [Env.Gives, value_runAssignments _ hfull hshort', blankWords_eq hlen]

end Turn

/-! ### Lines on which every byte stands for itself -/

section Plain

variable {env : Env} {pid : ℕ} {line : CStr}

theorem noOperator_of_plain {s : List Byte} (h : ∀ b ∈ s, plainByte b = true ∨ blank b = true) :
    controlOperatorFrom none s = false := by
  induction s with
  | nil => rfl
  | cons c s ih =>
    have hc : c ≠ backslash ∧ ¬(c = squote ∨ c = dquote) ∧
        strchr [124, 38, 59, 60, 62, 40, 41] c = false := by
      rcases h c List.mem_cons_self with hc | hc
      · obtain ⟨hends, hs, hd, hb⟩ := plainByte_iff.1 hc
        refine ⟨hb, not_or.2 ⟨hs, hd⟩, ?_⟩
        obtain ⟨-, hsymbol⟩ := Bool.or_eq_false_iff.1 hends
        rw [strchr_control, ← strchr_symbols_eq, hsymbol]
      · rw [blank, Bool.or_eq_true, Bool.or_eq_true, beq_iff_eq, beq_iff_eq, beq_iff_eq] at hc
        rcases hc with (rfl | rfl) | rfl <;> decide
    rw [controlOperatorFrom.eq_def]
    dsimp only
    rw [if_neg hc.1]
    rw [if_neg hc.2.1, hc.2.2, if_neg Bool.false_ne_true]
    exact ih fun b hb => h b (List.mem_cons_of_mem c hb)

theorem expanded_eq (hlen : line.bytes.length < lineBufSize)
    (hsame : fullExpansion env pid line = line.bytes) : expanded env pid line = line := by
  have hfit : (fullExpansion env pid line).length ≤ expandMax := by
    rw [hsame]
    exact (Nat.le_of_lt hlen).trans (by decide)
  have hbytes := (expanded_bytes line hfit).trans hsame
  cases line
  exact CStr.mk.injEq .. ▸ hbytes

/-- Where the expansion changes nothing, the words are those of the line. -/
theorem prefixAssignments_eq (hlen : line.bytes.length < lineBufSize)
    (hline : OnlyAssignments line) (hsame : fullExpansion env pid line = line.bytes) :
    prefixAssignments env pid line = commandWords line := by
  rw [prefixAssignments, expanded_eq hlen hsame]
  exact List.takeWhile_eq_self_iff.2 hline.assignments

theorem PlainLine.commandWords_eq (h : PlainLine line) :
    commandWords line = Splitter.parts blank line.bytes :=
  (commandWords_spells (spells_parts h.bytes)).2

theorem PlainLine.taken (h : PlainLine line) (hlen : line.bytes.length < lineBufSize)
    (hline : OnlyAssignments line) : Taken line := by
  have hwords : (blankWords line).map CStr.bytes = commandWords line :=
    (blankWords_eq hlen).trans h.commandWords_eq.symm
  constructor
  · exact h.notBlank
  · exact noOperator_of_plain h.bytes
  · rintro hnil
    rw [hnil] at hwords
    exact hline.ne_nil hwords.symm
  · refine List.all_eq_true.2 fun w hw => hline.assignments w.bytes ?_
    rw [← hwords]
    exact List.mem_map_of_mem hw

/-- **A plain line does what it would do before a command.** -/
theorem gives_of_plainLine {interactive : Bool} {buf : CStr} (hbuf : withNewline buf = some line)
    (hlen : line.bytes.length < lineBufSize) (hline : OnlyAssignments line)
    (hshort : ∀ w ∈ prefixAssignments env pid line, ShortAssignment w)
    (hfull : Taken line → env.NeverFull (blankWords line))
    (hsame : fullExpansion env pid line = line.bytes) (h : PlainLine line) :
    (runLine env pid interactive buf).Gives (prefixAssignments env pid line) := by
  have htaken := h.taken hlen hline
  have hwords := (prefixAssignments_eq hlen hline hsame).trans h.commandWords_eq
  rw [hwords] at hshort ⊢
  refine (gives_taken_iff hbuf htaken hlen (hfull htaken) hshort).2 fun name value hvalue => ?_
  rw [hvalue]
  rfl

end Plain

/-! ### Lines that the splitter gets right -/

section Converse

variable {text w name value : List Byte} {ws : List (List Byte)}

theorem eq_of_isAssignment (h : isAssignment w = true) :
    w = assignedName w ++ 61 :: assignedValue w := by
  have hpos : 0 < envAssignmentNameLen w := of_decide_eq_true h
  obtain ⟨hlen, hmem⟩ :
      envAssignmentNameLen w = (w.takeWhile (· != 61)).length ∧ w.contains 61 = true := by
    unfold envAssignmentNameLen at hpos ⊢
    dsimp only at hpos ⊢
    split_ifs at hpos ⊢ with hform
    · exact ⟨rfl, (Bool.and_eq_true_iff.1 hform).2⟩
    · exact absurd hpos (Nat.lt_irrefl 0)
  obtain ⟨l, r, hw, hl⟩ : ∃ l r, w = l ++ 61 :: r ∧ envAssignmentNameLen w = l.length := by
    have hsplit := List.takeWhile_append_dropWhile (p := (· != 61)) (l := w)
    have hhead := List.head?_dropWhile_not (· != 61) w
    cases hd : w.dropWhile (· != 61) with
    | nil =>
      have hall := List.dropWhile_eq_nil_iff.1 hd 61 (List.contains_iff_mem.1 hmem)
      exact absurd hall (by decide)
    | cons c r =>
      rw [hd] at hhead hsplit
      obtain rfl : c = 61 := by simpa using hhead
      exact ⟨_, r, hsplit.symm, hlen⟩
  rw [assignedName, assignedValue, hl, ← List.drop_drop, hw, List.take_left, List.drop_left]
  rfl

theorem mem_of_lastValue (h : lastValue ws name = some value) :
    ∃ w ∈ ws, assignedName w = name ∧ assignedValue w = value := by
  induction ws with
  | nil => exact absurd h nofun
  | cons v ws ih =>
    rw [lastValue, Option.or_eq_some_iff] at h
    rcases h with h | ⟨-, h⟩
    · obtain ⟨w, hw, heq⟩ := ih h
      exact ⟨w, List.mem_cons_of_mem v hw, heq⟩
    · split_ifs at h with hname
      exact ⟨v, List.mem_cons_self, hname.symm, Option.some.inj h⟩

/-- In a row of assignments to different names each has its say. -/
theorem lastValue_of_nodup (hnodup : (ws.map assignedName).Nodup) (hw : w ∈ ws) :
    lastValue ws (assignedName w) = some (assignedValue w) := by
  induction ws with
  | nil => exact absurd hw List.not_mem_nil
  | cons v ws ih =>
    obtain ⟨hv, hws⟩ := List.nodup_cons.1 hnodup
    rw [lastValue]
    rcases List.mem_cons.1 hw with rfl | hw
    · have hnone : lastValue ws (assignedName w) = none := by
        refine Option.eq_none_iff_forall_ne_some.2 fun value hvalue => hv ?_
        obtain ⟨u, hu, hname, -⟩ := mem_of_lastValue hvalue
        exact hname ▸ List.mem_map_of_mem hu
      rw [hnone, if_pos rfl]
      rfl
    · rw [ih hws hw]
      rfl

/-- Unquoting takes no blank away. -/
theorem countP_blank_dequote (m : Quote) (s : List Byte) :
    (dequote m s).countP blank = s.countP blank := by
  have hmark : blank squote = false ∧ blank dquote = false ∧ blank backslash = false := by decide
  fun_induction dequote m s <;> simp_all [List.countP_cons]

/-- Where no word of a text has a blank in it, at most as many parts of the text have
something in them as it has words. -/
theorem filled_le (c : Cursor) (hwords : ∀ t ∈ tokens c, t.span?.isSome = true)
    (htext : text.drop c.pos = c.rest)
    (hblank : ∀ w ∈ wordSpans (tokens c), ∀ b ∈ w.slice text, blank b = false) :
    Splitter.filled blank solid c.rest ≤ (wordSpans (tokens c)).length := by
  have hskip : ∀ c : Cursor, Splitter.filled blank solid c.rest =
      Splitter.filled blank solid c.skipSpace.rest := by
    intro c
    rw [Cursor.skipSpace_rest]
    conv_lhs => rw [← List.takeWhile_append_dropWhile (p := strchr whitespace) (l := c.rest)]
    refine Splitter.filled_append fun b hb => ?_
    rw [solid, List.mem_takeWhile_imp hb]
    rfl
  induction c using tokens_induction with
  | nil c ht =>
    have hnil : c.skipSpace.rest = [] := by
      rw [← tokens_eq_nil_iff, tokens_of_none ht]
    rw [hskip, hnil]
    exact Nat.zero_le _
  | cons c t ht ih =>
    rw [tokens_of_some ht] at hwords hblank ⊢
    obtain ⟨w, rfl⟩ : ∃ w, t = .word w := by
      have hspan := hwords t List.mem_cons_self
      cases t <;> first | exact ⟨_, rfl⟩ | exact absurd hspan Bool.false_ne_true
    obtain ⟨hslice, heq, hps⟩ := slice_of_tok ht htext
    have hspans : wordSpans (.word w :: tokens (gettoken c).ps) =
        w :: wordSpans (tokens (gettoken c).ps) := rfl
    rw [hspans] at hblank ⊢
    have hrest := ih (fun u hu => hwords u (List.mem_cons_of_mem _ hu)) hps
      fun v hv => hblank v (List.mem_cons_of_mem w hv)
    have hsplit : c.skipSpace.rest = w.slice text ++ (gettoken c).eq.rest := by
      rw [hslice, heq, List.take_append_drop]
    rw [hskip, hsplit, List.length_cons]
    refine (Splitter.filled_append_le (hblank w List.mem_cons_self)).trans ?_
    rw [hskip (gettoken c).eq]
    exact Nat.succ_le_succ hrest

/-- An assignment word is not whitespace alone. -/
theorem any_solid (h : isAssignment w = true) : w.any solid = true := by
  have hpos : 0 < envAssignmentNameLen w := of_decide_eq_true h
  unfold envAssignmentNameLen at hpos
  dsimp only at hpos
  split_ifs at hpos with hform
  · obtain ⟨hhead, -⟩ := Bool.and_eq_true_iff.1 (Bool.and_eq_true_iff.1 hform).1
    obtain ⟨c, hc, hstart⟩ := (Option.any_eq_true ..).1 hhead
    refine List.any_eq_true.2 ⟨c, List.mem_of_mem_head? hc, ?_⟩
    rw [solid, Bool.not_eq_true', Bool.eq_false_iff]
    intro hwhite
    have hmem := List.contains_iff_mem.1 hwhite
    simp only [whitespace, List.mem_cons, List.not_mem_nil, or_false] at hmem
    rcases hmem with rfl | rfl | rfl | rfl | rfl <;> exact absurd hstart (by decide)
  · exact absurd hpos (Nat.lt_irrefl 0)

variable {env : Env} {pid : ℕ} {interactive : Bool} {buf line : CStr}

/-- `run_line` sees to it that no line ends in a backslash. -/
theorem getLast?_withNewline (hbuf : withNewline buf = some line) :
    line.bytes.getLast? ≠ some backslash := by
  have hnewline : some newline ≠ some backslash := by decide
  unfold withNewline at hbuf
  split_ifs at hbuf with hopen
  · obtain rfl := Option.some.inj hbuf
    rw [List.getLast?_concat]
    exact hnewline
  · obtain rfl := Option.some.inj hbuf
    rcases not_and_or.1 hopen with hnil | hlast
    · rw [not_not.1 hnil]
      simp
    · rw [not_not.1 hlast]
      exact hnewline

/-- Assignments of the same values are the same words. -/
theorem subset_of_values {vs : List (List Byte)} (hws : ∀ w ∈ ws, isAssignment w = true)
    (hvs : ∀ v ∈ vs, isAssignment v = true)
    (h : ∀ w ∈ ws, lastValue vs (assignedName w) = some (assignedValue w)) : ws ⊆ vs := by
  intro w hw
  obtain ⟨v, hv, hname, hvalue⟩ := mem_of_lastValue (h w hw)
  rw [eq_of_isAssignment (hws w hw), ← hname, ← hvalue, ← eq_of_isAssignment (hvs v hv)]
  exact hv

theorem OnlyAssignments.commandWords_eq (h : OnlyAssignments line) : commandWords line =
    (wordSpans (tokens line.cursor)).map fun w => dequote .out (w.slice line.bytes) := by
  rw [commandWords, List.takeWhile_eq_self_iff.2 h.words]

/-- Where each word stands between blanks as it is, there is nothing else between them. -/
theorem perm_parts (hline : OnlyAssignments line) (hnodup : (commandWords line).Nodup)
    (hparts : ∀ w ∈ Splitter.parts blank line.bytes, isAssignment w = true)
    (hsub : commandWords line ⊆ Splitter.parts blank line.bytes) :
    (commandWords line).Perm (Splitter.parts blank line.bytes) := by
  have hblank : ∀ w ∈ wordSpans (tokens line.cursor), ∀ b ∈ w.slice line.bytes,
      blank b = false := by
    intro w hw
    have hmem : dequote .out (w.slice line.bytes) ∈ Splitter.parts blank line.bytes :=
      hsub (hline.commandWords_eq ▸ List.mem_map_of_mem hw)
    have hnone := (Splitter.of_mem_parts hmem).2
    have hcount : (w.slice line.bytes).countP blank = 0 := by
      rw [← countP_blank_dequote .out]
      exact List.countP_eq_zero.2 fun b hb => by rw [hnone b hb]; exact Bool.false_ne_true
    exact fun b hb => Bool.eq_false_iff.2 (List.countP_eq_zero.1 hcount b hb)
  have hfilled : Splitter.filled blank solid line.bytes ≤ _ :=
    filled_le line.cursor hline.words rfl hblank
  have hle : (Splitter.parts blank line.bytes).length ≤ (commandWords line).length := by
    rw [Splitter.filled_parts, List.countP_eq_length.2 fun w hw => any_solid (hparts w hw)] at hfilled
    rwa [hline.commandWords_eq, List.length_map]
  exact (List.subperm_of_subset hnodup hsub).perm_of_length_le hle

/-- Where the words are what stands between blanks, nothing is lost of the line. -/
theorem plain_of_perm (hbuf : withNewline buf = some line) (hline : OnlyAssignments line)
    (hperm : (commandWords line).Perm (Splitter.parts blank line.bytes)) :
    ∀ w ∈ commandWords line, PlainWord w := by
  have hsolid : ∀ b, blank b = true → solid b = false := by
    intro b hb
    rw [solid, whitespace_of_blank hb]
    rfl
  have hcount : ((commandWords line).map (List.countP solid)).sum = line.bytes.countP solid := by
    rw [(hperm.map _).sum_eq, Splitter.sum_countP_parts hsolid]
  rw [hline.commandWords_eq] at hcount ⊢
  rw [List.map_map] at hcount
  have hall := plain_of_words hline.words (getLast?_withNewline hbuf) hcount
  intro w hw
  obtain ⟨v, hv, rfl⟩ := List.mem_map.1 hw
  exact hall v hv

/-- **A line that is done right is plain**, where its names are different, the table does
not have their values already, and no reference changes it. -/
theorem plainLine_of_gives (hbuf : withNewline buf = some line)
    (hlen : line.bytes.length < lineBufSize) (hline : OnlyAssignments line)
    (hfull : Taken line → env.NeverFull (blankWords line))
    (hshort : Taken line → ∀ w ∈ Splitter.parts blank line.bytes, ShortAssignment w)
    (hsame : fullExpansion env pid line = line.bytes)
    (hnodup : ((commandWords line).map assignedName).Nodup)
    (hfresh : ∀ w ∈ commandWords line, env.value (assignedName w) ≠ some (assignedValue w))
    (hgives : (runLine env pid interactive buf).Gives (prefixAssignments env pid line)) :
    PlainLine line := by
  rw [prefixAssignments_eq hlen hline hsame] at hgives
  have hlast : ∀ w ∈ commandWords line, lastValue (commandWords line) (assignedName w) =
      some (assignedValue w) := fun w hw => lastValue_of_nodup hnodup hw
  -- the table does not have the values yet, so the line is taken for assignments
  have htaken : Taken line := by
    by_contra hnot
    obtain ⟨w, ws, hws⟩ := List.exists_cons_of_ne_nil hline.ne_nil
    have hw : w ∈ commandWords line := hws ▸ List.mem_cons_self
    exact hfresh w hw (gives_of_not_taken hbuf hline hnot hgives _ _ (hlast w hw))
  rw [gives_taken_iff hbuf htaken hlen (hfull htaken) (hshort htaken)] at hgives
  have hparts : ∀ w ∈ Splitter.parts blank line.bytes, isAssignment w = true :=
    fun w hw => decide_eq_true (hshort htaken w hw).pos
  -- and has them from the line
  have hvalues : ∀ w ∈ commandWords line, lastValue (Splitter.parts blank line.bytes)
      (assignedName w) = some (assignedValue w) := by
    intro w hw
    rcases Option.or_eq_some_iff.1 (hgives _ _ (hlast w hw)) with hvalue | ⟨-, hvalue⟩
    · exact hvalue
    · exact absurd hvalue (hfresh w hw)
  have hperm := perm_parts hline (List.Nodup.of_map _ hnodup) hparts
    (subset_of_values hline.assignments hparts hvalues)
  have hplain := plain_of_perm hbuf hline hperm
  refine ⟨htaken.notBlank, fun b hb => ?_⟩
  by_cases hbl : blank b = true
  · exact .inr hbl
  · obtain ⟨w, hw, hmem⟩ := Splitter.mem_parts (p := blank) hb (Bool.eq_false_iff.2 hbl)
    exact .inl ((hplain w (hperm.mem_iff.2 hw)).plain b hmem)

end Converse

/-- **When a line of assignments is done as it would be before a command.**  For every
table and every line in which the tokenizer finds nothing but assignment words, where
these fit into a slot and the table has one for them: `run_line` gives each name the value
of the last of these words, expanded and unquoted, if every byte of the line stands for
itself and no reference changes it.  Where the table does not have the values already, it
does so exactly if it takes the line for assignments and what stands between blanks, as it
is, gives the names these values; and where no name is there twice, none has its value
already and no reference changes the line, only if every byte stands for itself. -/
theorem assignments_given (env : Env) (pid : ℕ) (interactive : Bool) (buf line : CStr)
    (hbuf : withNewline buf = some line) (hlen : line.bytes.length < lineBufSize)
    (hline : OnlyAssignments line)
    (hshort : ∀ w ∈ prefixAssignments env pid line, ShortAssignment w)
    (hfull : Taken line → env.NeverFull (blankWords line)) :
    (fullExpansion env pid line = line.bytes → PlainLine line →
      (runLine env pid interactive buf).Gives (prefixAssignments env pid line)) ∧
    ((Taken line → ∀ w ∈ Splitter.parts blank line.bytes, ShortAssignment w) →
      (¬env.Gives (prefixAssignments env pid line) →
        ((runLine env pid interactive buf).Gives (prefixAssignments env pid line) ↔
          Taken line ∧ ∀ name value, lastValue (prefixAssignments env pid line) name = some value →
            (lastValue (Splitter.parts blank line.bytes) name).or (env.value name) = some value)) ∧
      (fullExpansion env pid line = line.bytes →
        ((commandWords line).map assignedName).Nodup →
        (∀ w ∈ commandWords line, env.value (assignedName w) ≠ some (assignedValue w)) →
        (runLine env pid interactive buf).Gives (prefixAssignments env pid line) →
        PlainLine line)) := by
  constructor
  · exact gives_of_plainLine hbuf hlen hline hshort hfull
  intro hparts
  constructor
  · intro hnew
    constructor
    · intro hgives
      have htaken : Taken line := by
        by_contra hnot
        exact hnew (gives_of_not_taken hbuf hline hnot hgives)
      exact ⟨htaken,
        (gives_taken_iff hbuf htaken hlen (hfull htaken) (hparts htaken)).1 hgives⟩
    · rintro ⟨htaken, hvalues⟩
      exact (gives_taken_iff hbuf htaken hlen (hfull htaken) (hparts htaken)).2 hvalues
  · exact plainLine_of_gives hbuf hlen hline hfull hparts

/-- The line `X=a`. -/
def plainAssignment : CStr := ⟨[88, 61, 97, 10], by decide⟩

theorem assignments_given_plain :
    (runLine .cleared 1 true ⟨[88, 61, 97], by decide⟩).Gives
      (prefixAssignments .cleared 1 plainAssignment) := by
  have hplain : PlainLine plainAssignment := by
    refine ⟨rfl, fun b hb => ?_⟩
    have hall : (plainAssignment.bytes.all fun b => plainByte b || blank b) = true := rfl
    exact Bool.or_eq_true_iff.1 (List.all_eq_true.1 hall b hb)
  have hwords : commandWords plainAssignment = [[88, 61, 97]] := hplain.commandWords_eq
  have hshort : ShortAssignment [88, 61, 97] := ⟨by decide, by decide, by decide⟩
  have hline : OnlyAssignments plainAssignment := by
    refine ⟨(commandWords_spells (spells_parts hplain.bytes)).1, ?_, ?_⟩
    · rw [hwords]
      exact List.cons_ne_nil _ _
    · rw [hwords]
      exact List.forall_mem_singleton.2 rfl
  have hsame : fullExpansion .cleared 1 plainAssignment = plainAssignment.bytes := rfl
  have hfull : Env.cleared.NeverFull (blankWords plainAssignment) := ⟨_, rfl, trivial⟩
  refine (assignments_given .cleared 1 true ⟨[88, 61, 97], by decide⟩ plainAssignment rfl
    (by decide) hline ?_ fun _ => hfull).1 hsame hplain
  rw [prefixAssignments_eq (by decide) hline hsame, hwords]
  exact List.forall_mem_singleton.2 hshort

/-- The line `X="a"`. -/
def quotedAssignment : CStr := ⟨[88, 61, 34, 97, 34, 10], by decide⟩

/-- **`X="a"` puts the quotes into the table.** -/
theorem assignments_given_fails :
    withNewline ⟨[88, 61, 34, 97, 34], by decide⟩ = some quotedAssignment ∧
      OnlyAssignments quotedAssignment ∧
      (∀ w ∈ prefixAssignments .cleared 1 quotedAssignment, ShortAssignment w) ∧
      Env.cleared.NeverFull (blankWords quotedAssignment) ∧
      ¬(runLine .cleared 1 true ⟨[88, 61, 34, 97, 34], by decide⟩).Gives
        (prefixAssignments .cleared 1 quotedAssignment) := by
  have htoks : tokens quotedAssignment.cursor = [.word ⟨0, 5⟩] := by
    rw [tokens_of_some (c := quotedAssignment.cursor) (t := .word ⟨0, 5⟩) rfl, tokens_of_none rfl]
  have hwords : commandWords quotedAssignment = [[88, 61, 97]] := by
    rw [commandWords, htoks]
    rfl
  have hline : OnlyAssignments quotedAssignment := by
    constructor
    · rw [htoks]
      exact List.forall_mem_singleton.2 rfl
    · rw [hwords]
      exact List.cons_ne_nil _ _
    · rw [hwords]
      exact List.forall_mem_singleton.2 rfl
  have hsame : fullExpansion .cleared 1 quotedAssignment = quotedAssignment.bytes := rfl
  have hwordsOf := prefixAssignments_eq (by decide) hline hsame
  have htaken : Taken quotedAssignment := ⟨rfl, rfl, List.cons_ne_nil _ _, rfl⟩
  have hparts : ∀ w ∈ Splitter.parts blank quotedAssignment.bytes, ShortAssignment w := by
    rw [show Splitter.parts blank quotedAssignment.bytes = [[88, 61, 34, 97, 34]] from rfl]
    exact List.forall_mem_singleton.2 ⟨by decide, by decide, by decide⟩
  have hfull : Env.cleared.NeverFull (blankWords quotedAssignment) := ⟨_, rfl, trivial⟩
  have hbuf : withNewline ⟨[88, 61, 34, 97, 34], by decide⟩ = some quotedAssignment := rfl
  refine ⟨hbuf, hline, ?_, hfull, fun hgives => ?_⟩
  · rw [hwordsOf, hwords]
    exact List.forall_mem_singleton.2 ⟨by decide, by decide, by decide⟩
  · rw [hwordsOf, hwords, gives_taken_iff hbuf htaken (by decide) hfull hparts] at hgives
    exact absurd (hgives [88] [97] rfl) (by decide)

end Shell
end V6User
