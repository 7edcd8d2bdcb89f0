import V6User.Base.Lines
import V6User.Shell.Token

/-!
# Searching the lines of a file

`programs/grep/grep.c`: `grep` with its buffer `buf`, and `match`, `matchhere`, `matchstar`.

Each read fills what is left of the buffer after the line that is not terminated yet.  A line
of `sizeof(buf) - 1` bytes leaves no room, the next read is for no bytes at all, and the loop
takes its 0 for the end of the file; and what is in the buffer at the end of the file was not
terminated and is never looked at.  So `grep` does its work exactly on the files without long
lines whose last line is terminated or does not match (`grep_writes_matching_iff`).
-/

namespace V6User
namespace Tools

open Lines
open Shell (Byte)

/-! ### Matching -/

/-- `matchstar`, with `matchhere re` for what follows the star. -/
def matchstar (here : List Byte → Bool) (c : Byte) : List Byte → Bool
  | [] => here []
  | t :: text => here (t :: text) || (t == c || c == 46) && matchstar here c text

/-- `matchhere`. -/
def matchhere : List Byte → List Byte → Bool
  | [], _ => true
  | c :: 42 :: re, text => matchstar (matchhere re) c text
  | c :: re, text =>
    if c = 36 ∧ re = [] then text == []
    else
      match text with
      | [] => false
      | t :: text => (c == 46 || c == t) && matchhere re text

/-- The loop of `match` over the places of the text. -/
def matchAnywhere (re : List Byte) : List Byte → Bool
  | [] => matchhere re []
  | t :: text => matchhere re (t :: text) || matchAnywhere re text

/-- `match`. -/
def matchText : List Byte → List Byte → Bool
  | 94 :: re, text => matchhere re text
  | re, text => matchAnywhere re text

/-- What a regular expression says of the beginning of a text: `c*` is any run of bytes with
`c`, where `.` is any byte, and a `$` that comes last is the end of the text. -/
inductive Here : List Byte → List Byte → Prop
  | empty (text : List Byte) : Here [] text
  | star {c : Byte} {re run text : List Byte} (hrun : ∀ t ∈ run, t = c ∨ c = 46)
      (h : Here re text) : Here (c :: 42 :: re) (run ++ text)
  | dollar : Here [36] []
  | byte {c t : Byte} {re text : List Byte} (hstar : re.head? ≠ some 42)
      (hend : ¬(c = 36 ∧ re = [])) (hc : c = 46 ∨ c = t) (h : Here re text) :
      Here (c :: re) (t :: text)

theorem matchstar_iff {here : List Byte → Bool} {c : Byte} {text : List Byte} :
    matchstar here c text = true ↔
      ∃ run rest, text = run ++ rest ∧ (∀ t ∈ run, t = c ∨ c = 46) ∧ here rest = true := by
  induction text with
  | nil =>
    constructor
    · intro h
      exact ⟨[], [], rfl, nofun, h⟩
    · rintro ⟨run, rest, heq, -, h⟩
      obtain ⟨-, rfl⟩ := List.append_eq_nil_iff.1 heq.symm
      exact h
  | cons t text ih =>
    rw [matchstar, Bool.or_eq_true, Bool.and_eq_true, Bool.or_eq_true, beq_iff_eq, beq_iff_eq, ih]
    constructor
    · rintro (h | ⟨ht, run, rest, rfl, hrun, h⟩)
      · exact ⟨[], t :: text, rfl, nofun, h⟩
      · exact ⟨t :: run, rest, rfl, List.forall_mem_cons.2 ⟨ht, hrun⟩, h⟩
    · rintro ⟨run, rest, heq, hrun, h⟩
      rcases run with _ | ⟨a, run⟩
      · exact .inl (heq ▸ h)
      · obtain ⟨rfl, rfl⟩ := List.cons.inj heq
        obtain ⟨ha, hrun⟩ := List.forall_mem_cons.1 hrun
        exact .inr ⟨ha, run, rest, rfl, hrun, h⟩

/-- A character of the expression that no star follows. -/
theorem matchhere_byte {c : Byte} {re text : List Byte} (hstar : re.head? ≠ some 42) :
    matchhere (c :: re) text = if c = 36 ∧ re = [] then text == [] else
      match text with
      | [] => false
      | t :: text => (c == 46 || c == t) && matchhere re text := by
  rw [matchhere.eq_def]
  split
  · exact absurd ‹c :: re = []› (List.cons_ne_nil c re)
  · rename_i heq
    obtain ⟨-, rfl⟩ := List.cons.inj heq
    exact absurd rfl hstar
  · rename_i heq
    obtain ⟨rfl, rfl⟩ := List.cons.inj heq
    rfl

theorem matchhere_star_iff {c : Byte} {re text : List Byte}
    (h : ∀ text, matchhere re text = true ↔ Here re text) :
    matchhere (c :: 42 :: re) text = true ↔ Here (c :: 42 :: re) text := by
  rw [matchhere, matchstar_iff]
  constructor
  · rintro ⟨run, rest, rfl, hrun, hrest⟩
    exact .star hrun ((h rest).1 hrest)
  · intro hhere
    cases hhere with
    | star hrun hrest => exact ⟨_, _, rfl, hrun, (h _).2 hrest⟩
    | byte hstar => exact absurd rfl hstar

theorem matchhere_byte_iff {c : Byte} {re text : List Byte} (hstar : re.head? ≠ some 42)
    (h : ∀ text, matchhere re text = true ↔ Here re text) :
    matchhere (c :: re) text = true ↔ Here (c :: re) text := by
  rw [matchhere_byte hstar]
  by_cases hlast : c = 36 ∧ re = []
  · obtain ⟨rfl, rfl⟩ := hlast
    rw [if_pos ⟨rfl, rfl⟩, beq_iff_eq]
    constructor
    · rintro rfl
      exact .dollar
    · intro hhere
      cases hhere with
      | dollar => rfl
      | byte _ hend => exact absurd ⟨rfl, rfl⟩ hend
  · rw [if_neg hlast]
    constructor
    · intro hhere
      rcases text with _ | ⟨t, text⟩
      · exact absurd hhere Bool.false_ne_true
      · rw [Bool.and_eq_true, Bool.or_eq_true, beq_iff_eq, beq_iff_eq] at hhere
        exact .byte hstar hlast hhere.1 ((h text).1 hhere.2)
    · intro hhere
      cases hhere with
      | star => exact absurd rfl hstar
      | dollar => exact absurd ⟨rfl, rfl⟩ hlast
      | byte _ _ hc hrest =>
        rw [Bool.and_eq_true, Bool.or_eq_true, beq_iff_eq, beq_iff_eq]
        exact ⟨hc, (h _).2 hrest⟩

/-- **`matchhere` decides what the regular expression says.** -/
theorem matchhere_iff {re : List Byte} :
    ∀ text, matchhere re text = true ↔ Here re text := by
  suffices h : ∀ n : ℕ, ∀ re : List Byte, re.length ≤ n → ∀ text,
      matchhere re text = true ↔ Here re text from h re.length re (Nat.le_refl _)
  intro n
  induction n with
  | zero =>
    intro re hre text
    obtain rfl := List.eq_nil_of_length_eq_zero (Nat.le_zero.1 hre)
    exact ⟨fun _ => .empty text, fun _ => rfl⟩
  | succ n ih =>
    intro re hre text
    rcases re with _ | ⟨c, re⟩
    · exact ⟨fun _ => .empty text, fun _ => rfl⟩
    · by_cases hstar : re.head? = some 42
      · obtain ⟨re, rfl⟩ := List.head?_eq_some_iff.1 hstar
        rw [List.length_cons, List.length_cons] at hre
        exact matchhere_star_iff (ih re (by omega))
      · exact matchhere_byte_iff hstar (ih re (Nat.le_of_succ_le_succ hre))

/-- **What `match` finds**: the rest of the expression at the beginning of the text after a
`^`, and else the expression at the beginning of some part that goes up to the end. -/
theorem matchText_iff {re text : List Byte} :
    matchText re text = true ↔
      (∃ rest, re = 94 :: rest ∧ Here rest text) ∨
        re.head? ≠ some 94 ∧ ∃ before after, text = before ++ after ∧ Here re after := by
  have hany : ∀ re text, matchAnywhere re text = true ↔
      ∃ before after, text = before ++ after ∧ Here re after := by
    intro re text
    induction text with
    | nil =>
      rw [matchAnywhere, matchhere_iff]
      constructor
      · intro h
        exact ⟨[], [], rfl, h⟩
      · rintro ⟨before, after, heq, h⟩
        obtain ⟨-, rfl⟩ := List.append_eq_nil_iff.1 heq.symm
        exact h
    | cons t text ih =>
      rw [matchAnywhere, Bool.or_eq_true, matchhere_iff, ih]
      constructor
      · rintro (h | ⟨before, after, rfl, h⟩)
        · exact ⟨[], t :: text, rfl, h⟩
        · exact ⟨t :: before, after, rfl, h⟩
      · rintro ⟨before, after, heq, h⟩
        rcases before with _ | ⟨b, before⟩
        · exact .inl (heq ▸ h)
        · obtain ⟨rfl, rfl⟩ := List.cons.inj heq
          exact .inr ⟨before, after, rfl, h⟩
  unfold matchText
  split
  · rename_i rest
    rw [matchhere_iff]
    constructor
    · intro h
      exact .inl ⟨rest, rfl, h⟩
    · rintro (⟨rest, heq, h⟩ | ⟨hne, -⟩)
      · obtain ⟨-, rfl⟩ := List.cons.inj heq
        exact h
      · exact absurd rfl hne
  · rename_i hcaret
    rw [hany]
    constructor
    · intro h
      refine .inr ⟨fun hhead => ?_, h⟩
      obtain ⟨rest, rfl⟩ := List.head?_eq_some_iff.1 hhead
      exact hcaret rest rfl
    · rintro (⟨rest, rfl, -⟩ | ⟨-, h⟩)
      · exact absurd rfl (hcaret rest)
      · exact h

/-! ### The loop of `grep` -/

/-- `sizeof(buf)`. -/
def bufSize : ℕ := 1024

/-- `strchr(p, '\n')`: the text before the first newline and what follows it, unless a NUL
comes first. -/
def newline : List Byte → Option (List Byte × List Byte)
  | [] => none
  | c :: p =>
    if c = 10 then some ([], p)
    else if c = 0 then none
    else (newline p).map fun q => (c :: q.1, q.2)

theorem length_newline {p text rest : List Byte} (h : newline p = some (text, rest)) :
    rest.length < p.length := by
  induction p generalizing text with
  | nil => exact absurd h nofun
  | cons c p ih =>
    rw [newline] at h
    split_ifs at h
    · obtain ⟨-, rfl⟩ := Prod.mk.inj (Option.some.inj h)
      exact Nat.lt_succ_self _
    · obtain ⟨q, hq, heq⟩ := Option.map_eq_some_iff.1 h
      obtain ⟨-, rfl⟩ := Prod.mk.inj heq
      exact Nat.lt_succ_of_lt (ih hq)

/-- What the calls give: how many bytes each `read` delivers, one more than `chunk` says where
there are as many, and which of the writes fail. -/
structure Calls where
  chunk : ℕ → ℕ
  fails : ℕ → Bool

/-- The result of the `i`-th `read` of at most `size` bytes when `left` are left. -/
def Calls.read (calls : Calls) (i size left : ℕ) : ℕ := min (calls.chunk i + 1) (min size left)

/-- The loop over the lines of the buffer, from `p` on: what has been written, and the place
where no newline is found, or `none` where a write failed. -/
def scan (calls : Calls) (pattern p : List Byte) (written : List (List Byte)) :
    List (List Byte) × Option (List Byte) :=
  match h : newline p with
  | none => (written, some p)
  | some (text, rest) =>
    if matchText pattern text then
      if calls.fails written.length then (written, none)
      else scan calls pattern rest (written ++ [text ++ [10]])
    else scan calls pattern rest written
termination_by p.length
decreasing_by all_goals exact length_newline h

/-- What `grep` has done when it ends: its writes, what it has not read of the input, and
whether it left with `exit(1)`. -/
structure Result where
  written : List (List Byte)
  unread : List Byte
  exited : Bool

/-- The loop of `grep`, from the `i`-th read on, with `buf` before `buf + m`. -/
def grepLoop (calls : Calls) (pattern : List Byte) (i : ℕ) (buf input : List Byte)
    (written : List (List Byte)) : Result :=
  if _h : calls.read i (bufSize - buf.length - 1) input.length = 0 then
    ⟨written, input, false⟩
  else
    let n := calls.read i (bufSize - buf.length - 1) input.length
    match scan calls pattern (buf ++ input.take n) written with
    | (written, none) => ⟨written, input.drop n, true⟩
    | (written, some p) => grepLoop calls pattern (i + 1) p (input.drop n) written
termination_by input.length
decreasing_by
  rw [List.length_drop]
  have hle : calls.read i (bufSize - buf.length - 1) input.length ≤ input.length :=
    Nat.le_trans (Nat.min_le_right _ _) (Nat.min_le_right _ _)
  omega

/-- `grep`. -/
def grep (calls : Calls) (pattern input : List Byte) : Result :=
  grepLoop calls pattern 0 [] input []

theorem newline_of_notMem {p : List Byte} (h : 10 ∉ p) : newline p = none := by
  induction p with
  | nil => rfl
  | cons c p ih =>
    obtain ⟨hc, hp⟩ := List.ne_and_not_mem_of_not_mem_cons h
    rw [newline, if_neg (Ne.symm hc), ih hp]
    exact ite_self none

theorem newline_line {text : List Byte} (rest : List Byte) (h : 10 ∉ text) (hnul : 0 ∉ text) :
    newline (text ++ 10 :: rest) = some (text, rest) := by
  induction text with
  | nil => rfl
  | cons c text ih =>
    obtain ⟨hc, htext⟩ := List.ne_and_not_mem_of_not_mem_cons h
    obtain ⟨hc0, hnul⟩ := List.ne_and_not_mem_of_not_mem_cons hnul
    rw [List.cons_append, newline, if_neg (Ne.symm hc), if_neg (Ne.symm hc0), ih htext hnul]
    rfl

/-- The terminated lines of a text that match, as they are written. -/
def matching (pattern s : List Byte) : List (List Byte) :=
  ((terminated 10 s).filter (matchText pattern)).map (· ++ [10])

theorem matching_append (pattern s t : List Byte) :
    matching pattern (s ++ t) = matching pattern s ++ matching pattern (unterminated 10 s ++ t) := by
  rw [matching, terminated_append, List.filter_append, List.map_append]
  rfl

/-- **One pass over the buffer**: the matching lines are written, and what is not terminated
stays. -/
theorem scan_eq {calls : Calls} (hfails : ∀ i, calls.fails i = false) (pattern : List Byte)
    {p : List Byte} (hnul : 0 ∉ p) (written : List (List Byte)) :
    scan calls pattern p written =
      (written ++ matching pattern p, some (unterminated 10 p)) := by
  induction p using line_induction (10 : Byte) generalizing written with
  | last p hp =>
    have hnone := newline_of_notMem hp
    rw [scan]
    split
    · rw [matching, terminated_of_notMem hp, unterminated_of_notMem hp]
      exact congrArg (·, _) (List.append_nil written).symm
    · rename_i h
      exact absurd (hnone.symm.trans h) nofun
  | line text rest htext ih =>
    rw [List.mem_append, not_or, List.mem_cons, not_or] at hnul
    have hsome := newline_line rest htext hnul.1
    rw [scan]
    split
    · rename_i h
      exact absurd (hsome.symm.trans h) nofun
    · rename_i h
      obtain ⟨rfl, rfl⟩ := Prod.mk.inj (Option.some.inj (hsome.symm.trans h))
      rw [matching, terminated_line htext, unterminated_line htext, List.filter_cons]
      split
      · rw [hfails, if_neg Bool.false_ne_true, ih hnul.2.2, List.append_assoc]
        rfl
      · rw [ih hnul.2.2]
        rfl

/-- The lines fit the buffer: a terminated one with its terminator and a NUL, the last one
with a NUL. -/
def LinesFit (input : List Byte) : Prop :=
  (∀ text ∈ terminated 10 input, text.length + 2 ≤ bufSize) ∧
    (unterminated 10 input).length + 1 ≤ bufSize

/-- The lines that are in the buffer fit it. -/
theorem linesFit_append_iff {s t : List Byte} (hs : s.length < bufSize) :
    LinesFit (s ++ t) ↔ LinesFit (unterminated 10 s ++ t) := by
  rw [LinesFit, LinesFit, terminated_append, unterminated_append, List.forall_mem_append]
  refine and_congr_left' (and_iff_right fun text htext => ?_)
  have := length_lt_of_mem_terminated htext
  omega

/-- A line that fills the buffer does not fit, unless it ends there. -/
theorem not_linesFit_of_full {buf input : List Byte} (hbuf : 10 ∉ buf)
    (hfull : buf.length + 1 = bufSize) (hne : input ≠ []) : ¬LinesFit (buf ++ input) := by
  rintro ⟨hterm, hlast⟩
  rcases cases_line 10 input with hline | ⟨text, rest, htext, rfl⟩
  · have hnot : 10 ∉ buf ++ input := by
      rw [List.mem_append, not_or]
      exact ⟨hbuf, hline⟩
    rw [unterminated_of_notMem hnot, List.length_append] at hlast
    have := List.length_pos_iff.2 hne
    omega
  · have hnot : 10 ∉ buf ++ text := by
      rw [List.mem_append, not_or]
      exact ⟨hbuf, htext⟩
    rw [← List.append_assoc, terminated_line hnot] at hterm
    have := hterm _ List.mem_cons_self
    rw [List.length_append] at this
    omega

/-- **The loop, by induction on what is left to read**: where the lines fit the buffer all is
read and the matching terminated lines are written, and else something stays unread. -/
theorem grepLoop_spec {calls : Calls} (hfails : ∀ i, calls.fails i = false)
    (pattern : List Byte) (i : ℕ) (buf input : List Byte) (hlen : buf.length < bufSize)
    (hbuf : 10 ∉ buf) (hnul : 0 ∉ buf ++ input) (written : List (List Byte)) :
    (LinesFit (buf ++ input) ∧ grepLoop calls pattern i buf input written =
        ⟨written ++ matching pattern (buf ++ input), [], false⟩) ∨
      ¬LinesFit (buf ++ input) ∧ (grepLoop calls pattern i buf input written).unread ≠ [] := by
  induction hn : input.length using Nat.strong_induction_on generalizing i buf input written with
  | h _ ih =>
    subst hn
    rw [grepLoop]
    split
    · rename_i hread
      by_cases hinput : input = []
      · subst hinput
        rw [List.append_nil, LinesFit, matching, terminated_of_notMem hbuf,
          unterminated_of_notMem hbuf]
        exact .inl ⟨⟨nofun, hlen⟩, by rw [List.filter_nil, List.map_nil, List.append_nil]⟩
      · have hpos := List.length_pos_iff.2 hinput
        have hfull : buf.length + 1 = bufSize := by
          rw [Calls.read] at hread
          omega
        exact .inr ⟨not_linesFit_of_full hbuf hfull hinput, hinput⟩
    · rename_i hread
      obtain ⟨n, hn⟩ : ∃ n, calls.read i (bufSize - buf.length - 1) input.length = n := ⟨_, rfl⟩
      rw [hn] at hread
      have hle : n ≤ bufSize - buf.length - 1 ∧ n ≤ input.length := by
        rw [← hn, Calls.read]
        omega
      have hsplit : buf ++ input = (buf ++ input.take n) ++ input.drop n := by
        rw [List.append_assoc, List.take_append_drop]
      rw [hsplit, List.mem_append, not_or] at hnul
      have hsub : 0 ∉ unterminated 10 (buf ++ input.take n) := fun h =>
        hnul.1 ((unterminated_suffix 10 _).subset h)
      have hshort : (buf ++ input.take n).length < bufSize := by
        rw [List.length_append, List.length_take]
        omega
      have hdrop : (input.drop n).length < input.length := by
        rw [List.length_drop]
        omega
      have hstep := ih _ hdrop (i + 1)
        (unterminated 10 (buf ++ input.take n)) (input.drop n)
        (Nat.lt_of_le_of_lt (unterminated_suffix 10 _).length_le hshort)
        (notMem_unterminated 10 _) (by rw [List.mem_append, not_or]; exact ⟨hsub, hnul.2⟩)
        (written ++ matching pattern (buf ++ input.take n)) rfl
      dsimp only
      rw [hn, scan_eq hfails pattern hnul.1 written]
      rw [hsplit, linesFit_append_iff hshort, matching_append pattern (buf ++ input.take n),
        ← List.append_assoc]
      exact hstep

/-- **`grep` on a file**: it reads all and writes the terminated lines that match when the
lines fit the buffer, and else does not read all. -/
theorem grep_spec (calls : Calls) (hfails : ∀ i, calls.fails i = false)
    (pattern input : List Byte) (hnul : 0 ∉ input) :
    (LinesFit input ∧ grep calls pattern input = ⟨matching pattern input, [], false⟩) ∨
      ¬LinesFit input ∧ (grep calls pattern input).unread ≠ [] :=
  grepLoop_spec hfails pattern 0 [] input (Nat.succ_pos _) List.not_mem_nil hnul []

/-! ### What `grep` writes -/

/-- The lines of a file as they are in it, the last one perhaps without a newline. -/
def fileLines (input : List Byte) : List (List Byte) :=
  (terminated 10 input).map (· ++ [10]) ++
    if unterminated 10 input = [] then [] else [unterminated 10 input]

/-- The text of a line of a file. -/
def lineText (line : List Byte) : List Byte := line.takeWhile (· ≠ 10)

/-- All of the input is read, and exactly the lines with a matching text are written, in
order. -/
def WritesMatching (result : Result) (pattern input : List Byte) : Prop :=
  result.unread = [] ∧ result.exited = false ∧
    result.written = (fileLines input).filter fun line => matchText pattern (lineText line)

theorem lineText_newline {text : List Byte} (h : 10 ∉ text) : lineText (text ++ [10]) = text := by
  have hpos : ∀ c ∈ text, decide (c ≠ 10) = true := fun c hc =>
    decide_eq_true (ne_of_mem_of_not_mem hc h)
  rw [lineText, List.takeWhile_append_of_pos hpos]
  exact List.append_nil text

theorem lineText_of_notMem {text : List Byte} (h : 10 ∉ text) : lineText text = text :=
  List.takeWhile_eq_self_iff.2 fun _ hc => decide_eq_true (ne_of_mem_of_not_mem hc h)

theorem filter_fileLines (pattern input : List Byte) :
    ((fileLines input).filter fun line => matchText pattern (lineText line)) =
      matching pattern input ++ if unterminated 10 input ≠ [] ∧
        matchText pattern (unterminated 10 input) then [unterminated 10 input] else [] := by
  have hterm : ((terminated 10 input).map (· ++ [10])).filter
      (fun line => matchText pattern (lineText line)) = matching pattern input := by
    rw [matching, List.filter_map]
    refine congrArg _ (List.filter_congr fun text htext => ?_)
    exact congrArg _ (lineText_newline (notMem_of_mem_terminated htext))
  rw [fileLines, List.filter_append, hterm]
  refine congrArg _ ?_
  by_cases hlast : unterminated 10 input = []
  · rw [if_pos hlast, if_neg fun h => h.1 hlast, List.filter_nil]
  · rw [if_neg hlast, List.filter_cons, List.filter_nil,
      lineText_of_notMem (notMem_unterminated 10 input)]
    exact if_congr (and_iff_right hlast).symm rfl rfl

/-- **Exactly the inputs that `grep` handles**: those without a line that does not fit the
buffer, and with no unterminated line at the end that matches. -/
theorem grep_writes_matching_iff (chunk : ℕ → ℕ) (pattern input : List Byte)
    (hnul : 0 ∉ input) :
    WritesMatching (grep ⟨chunk, fun _ => false⟩ pattern input) pattern input ↔
      (∀ text ∈ terminated 10 input, text.length ≤ 1022) ∧
        (unterminated 10 input).length ≤ 1023 ∧
        ¬(unterminated 10 input ≠ [] ∧ matchText pattern (unterminated 10 input) = true) := by
  have hfit : LinesFit input ↔ (∀ text ∈ terminated 10 input, text.length ≤ 1022) ∧
      (unterminated 10 input).length ≤ 1023 := by
    refine and_congr (forall₂_congr fun text _ => ?_) ?_
    · exact Nat.add_le_add_iff_right (n := 2)
    · exact Nat.add_le_add_iff_right (n := 1)
  rw [← and_assoc, ← hfit, WritesMatching, filter_fileLines]
  rcases grep_spec ⟨chunk, fun _ => false⟩ (fun _ => rfl) pattern input hnul with
    ⟨hlines, heq⟩ | ⟨hlines, hunread⟩
  · rw [heq]
    constructor
    · rintro ⟨-, -, hwritten⟩
      refine ⟨hlines, fun hlast => ?_⟩
      rw [if_pos hlast] at hwritten
      exact absurd (List.append_cancel_left ((List.append_nil _).trans hwritten)) nofun
    · rintro ⟨-, hlast⟩
      rw [if_neg hlast, List.append_nil]
      exact ⟨rfl, rfl, rfl⟩
  · exact ⟨fun h => absurd h.1 hunread, fun h => absurd h.1 hlines⟩

/-- The second line matches, the first and the last do not. -/
theorem grep_writes_matching_small :
    WritesMatching (grep ⟨fun _ => 2, fun _ => false⟩ [94, 97] [98, 10, 97, 10, 98])
      [94, 97] [98, 10, 97, 10, 98] :=
  (grep_writes_matching_iff (fun _ => 2) [94, 97] [98, 10, 97, 10, 98] (by decide)).2
    ⟨by decide, by decide, by decide⟩

/-- An unterminated line that matches is not written. -/
theorem grep_unterminated_unwritten :
    ¬WritesMatching (grep ⟨fun _ => 0, fun _ => false⟩ [97] [97]) [97] [97] := by
  rintro ⟨hunread, -, hwritten⟩
  rcases grep_spec ⟨fun _ => 0, fun _ => false⟩ (fun _ => rfl) [97] [97] (by decide) with
    ⟨-, heq⟩ | ⟨-, hne⟩
  · rw [heq] at hwritten
    revert hwritten
    decide
  · exact hne hunread

end Tools
end V6User
