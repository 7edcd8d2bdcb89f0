import V6User.Shell.Expand
import V6User.Shell.Parsecmd

/-!
# One command line

`programs/sh/sh.c`: `line_has_control_operator`, `run_assignment_only_line`,
`panic` and `run_line`.

`lineForm` is the chain of tests with which `run_line` decides what a line is;
none of them looks at the environment or runs anything.  `runLine` does what the
form asks for.  A line that is not a builtin goes through the expander to the
parser, and the parser runs in the shell's own process: where it calls `panic`,
the shell exits (`Turn.exited`).  So `run_line` comes back to its caller exactly
when the tokens of the expanded line begin with a line of the grammar and the
parser can report what follows it (`runLine_returns_iff`).
-/

namespace V6User
namespace Shell

/-- `LINE_BUF_SIZE`. -/
def lineBufSize : ℕ := 1024

/-- `'\n'`. -/
abbrev newline : Byte := 10

/-- `' '`. -/
abbrev space : Byte := 32

/-- The loop of `line_has_control_operator`, with the quote it is inside of. -/
def controlOperatorFrom : Option Byte → List Byte → Bool
  | _, [] => false
  | quote, c :: s =>
    if c = backslash then
      match s with
      | [] => false
      | _ :: s' => controlOperatorFrom quote s'
    else match quote with
      | some q => if c = q then controlOperatorFrom none s else controlOperatorFrom quote s
      | none =>
        if c = squote ∨ c = dquote then controlOperatorFrom (some c) s
        else if strchr [124, 38, 59, 60, 62, 40, 41] c then true
        else controlOperatorFrom none s

/-- `line_has_control_operator(s)`. -/
def lineHasControlOperator (line : CStr) : Bool := controlOperatorFrom none line.bytes

/-- The string stored in `l`, up to its first NUL. -/
def CStr.ofBytes (l : List Byte) : CStr :=
  ⟨l.takeWhile (· != 0), nul_notMem_takeWhile l⟩

theorem ofBytes_bytes {l : List Byte} (h : (0 : Byte) ∉ l) : (CStr.ofBytes l).bytes = l := by
  refine List.takeWhile_eq_self_iff.2 fun c hc => ?_
  rw [bne_iff_ne]
  rintro rfl
  exact h hc

/-- The words of a line, as `run_assignment_only_line` splits it. -/
def blankWords (line : CStr) : List CStr :=
  (((line.bytes.take (lineBufSize - 1)).splitOnP fun c => c == space || c == 9 || c == newline).filter
    (· ≠ [])).map CStr.ofBytes

/-- `is_env_assignment_word(word)`. -/
def isEnvAssignmentWord (word : CStr) : Bool := 0 < envAssignmentNameLen word.bytes

/-- The line with a newline at its end, where there is room for it: the first
step of `run_line`. -/
def withNewline (buf : CStr) : Option CStr :=
  if buf.bytes ≠ [] ∧ buf.bytes.getLast? ≠ some newline then
    if buf.bytes.length < lineBufSize - 1 then
      some ⟨buf.bytes ++ [newline], by simpa [newline] using buf.nul_free⟩
    else none
  else some buf

/-- The line is empty or a comment. -/
def isBlankLine (line : CStr) : Bool :=
  match line.bytes.dropWhile fun c => c == space || c == 9 with
  | [] => true
  | c :: _ => c == newline || c == 35

/-- `buf[strlen(buf) - 1] = 0`. -/
def CStr.chop (s : CStr) : CStr := s.take (s.bytes.length - 1)

/-- The line starts with these bytes. -/
def CStr.startsWith (s : CStr) (l : List Byte) : Bool := l.isPrefixOf s.bytes

/-- The byte at an index of a string, or the NUL after it. -/
def CStr.at (s : CStr) (i : ℕ) : Byte := s.bytes.getD i 0

/-- `while (*arg == ' ') arg++;` -/
def CStr.skipBlanks (s : CStr) : CStr := s.drop (s.bytes.takeWhile (· == space)).length

/-- The value of an `export`, without the quotes around it. -/
def exportValue (value : CStr) : CStr :=
  let v := value.bytes
  if 2 ≤ v.length ∧ v.head? = v.getLast? ∧ (v.head? = some dquote ∨ v.head? = some squote) then
    (value.take (v.length - 1)).drop 1
  else value

/-- What `run_line` takes a line for. -/
inductive LineForm where
  | tooLong
  | blank
  | assignments (words : List CStr)
  | cd (path : CStr)
  | ls (path : CStr)
  | history
  | env
  | exportVar (name value : CStr)
  | exportUsage
  | unset (name : CStr)
  | echo (text : CStr)
  | exit
  | external (line : CStr)

/-- The builtin `export`, once its name is chopped off the line. -/
def exportForm (arg : CStr) : LineForm :=
  if arg.bytes.contains 61 then
    let name := arg.bytes.takeWhile (· != 61)
    .exportVar (arg.take name.length) (exportValue (arg.drop (name.length + 1)))
  else .exportUsage

/-- The tests of `run_line`, in its order, for a line that ends in a newline. -/
def lineFormOf (line : CStr) : LineForm :=
  if isBlankLine line then .blank
  else if lineHasControlOperator line then .external line
  else if blankWords line ≠ [] ∧ (blankWords line).all isEnvAssignmentWord then
    .assignments (blankWords line)
  -- `cd `
  else if line.startsWith [99, 100, 32] then .cd (line.chop.drop 3)
  -- `ls`
  else if line.startsWith [108, 115] ∧ (line.at 2 = newline ∨ line.at 2 = space) then
    if line.chop.at 2 = 0 ∨ line.chop.at 3 = 0 then .ls ⟨[46], by decide⟩
    else .ls (line.chop.drop 3)
  -- `history`
  else if line.startsWith [104, 105, 115, 116, 111, 114, 121] ∧
      (line.at 7 = newline ∨ line.at 7 = 0) then .history
  -- `env`
  else if line.startsWith [101, 110, 118] ∧ (line.at 3 = newline ∨ line.at 3 = 0) then .env
  -- `export `
  else if line.startsWith [101, 120, 112, 111, 114, 116, 32] then
    exportForm (line.chop.drop 7).skipBlanks
  -- `unset `
  else if line.startsWith [117, 110, 115, 101, 116, 32] then
    .unset (line.chop.drop 6).skipBlanks
  -- `echo `
  else if line.startsWith [101, 99, 104, 111, 32] then .echo (line.chop.drop 5)
  -- `exit`
  else if line.startsWith [101, 120, 105, 116] ∧ (line.at 4 = newline ∨ line.at 4 = 0) then .exit
  else .external line

/-- What `run_line(buf, interactive)` takes `buf` for. -/
def lineForm (buf : CStr) : LineForm :=
  match withNewline buf with
  | none => .tooLong
  | some line => lineFormOf line

/-- What `run_line` does besides changing the environment table.  `cd` stands for
`chdir` with its error message or `update_cwd`, and `forkRun` for the fork, the
`runcmd` in the child and the wait for it. -/
inductive Action where
  | errprintf (fmt : String) (arg : List Byte)
  | cd (path : List Byte)
  | ls (path : CStr)
  | history
  | envList
  | printLine (text : List Byte)
  | forkRun (interactive : Bool) (cmd : Cmd Span) (buf : Buffer)
  deriving DecidableEq

/-- How a call of `run_line` ends: it returns, with the table and what it did, or
`panic` ends the shell's process. -/
inductive Turn where
  | returned (ret : ℤ) (env : Env) (did : List Action)
  | exited (why : Stop)

/-- The second loop of `run_assignment_only_line`. -/
def runAssignments (env : Env) : List CStr → Env × List Action
  | [] => (env, [])
  | w :: ws =>
    match envSetAssignment env w with
    | some env' => runAssignments env' ws
    | none =>
      let r := runAssignments env ws
      (r.1, .errprintf "sh: bad assignment: %s\n" w.bytes :: r.2)

/-- The end of `run_line`: expand, parse, fork. -/
def runExternal (env : Env) (pid : ℕ) (interactive : Bool) (line : CStr) : Turn :=
  if (expandEnvVars env pid line).truncated then
    .returned (-1) env [.errprintf "sh: expanded command too long\n" []]
  else
    match parsecmd (expanded env pid line) with
    | .stopped why => .exited why
    | .syntaxError near => .returned 0 env [.errprintf "syntax error near: %s\n" near]
    | .cmd (.exec []) _ => .returned 0 env []
    | .cmd cmd buf => .returned 0 env [.forkRun interactive cmd buf]

/-- `run_line(buf, interactive)`. -/
def runLine (env : Env) (pid : ℕ) (interactive : Bool) (buf : CStr) : Turn :=
  match lineForm buf with
  | .tooLong => .returned (-1) env [.errprintf "sh: command line too long\n" []]
  | .blank => .returned 0 env []
  | .assignments ws => .returned 0 (runAssignments env ws).1 (runAssignments env ws).2
  | .cd path =>
    if (expandEnvVars env pid path).truncated then
      .returned (-1) env [.errprintf "sh: expanded command too long\n" []]
    else .returned 0 env [.cd (expandEnvVars env pid path).out]
  | .ls path => .returned 0 env [.ls path]
  | .history => .returned 0 env [.history]
  | .env => .returned 0 env [.envList]
  | .exportVar name value =>
    match envSet env name value with
    | some env' => .returned 0 env' []
    | none => .returned 0 env [.errprintf "export: too many variables\n" []]
  | .exportUsage => .returned 0 env [.errprintf "export: usage: export VAR=value\n" []]
  | .unset name => .returned 0 ((envUnset env name).getD env) []
  | .echo text =>
    if (expandEnvVars env pid text).truncated then
      .returned (-1) env [.errprintf "sh: expanded command too long\n" []]
    else .returned 0 env [.printLine (expandEnvVars env pid text).out]
  | .exit => .returned 1 env []
  | .external line => runExternal env pid interactive line

/-- The tokens begin with a line of the grammar that is followed by nothing, by a
closing parenthesis, or, where it ends in a block, by a word or an opening
parenthesis. -/
def BeginsWithLine (ts : List Tok) : Prop :=
  ∃ (d : Line) (rest : List Tok), d.Fits ∧ ts = d.tokens ++ rest ∧
    follow lineStop d.blk rest = true

/-- The call came back to its caller, with `0` or `-1`. -/
def Turn.Returns : Turn → Prop
  | .returned ret _ _ => ret = 0 ∨ ret = -1
  | .exited _ => False

theorem returns_runExternal (env : Env) (pid : ℕ) (interactive : Bool) (line : CStr) :
    (runExternal env pid interactive line).Returns ↔
      (expandEnvVars env pid line).truncated = true ∨
        BeginsWithLine (tokens (expanded env pid line).cursor) := by
  rw [BeginsWithLine, ← parseText_returns_iff, runExternal]
  by_cases ht : (expandEnvVars env pid line).truncated = true
  · simp [ht, Turn.Returns]
  · rw [if_neg ht, parsecmd]
    cases hp : parseText (expanded env pid line) with
    | tree cmd =>
      cases cmd with
      | exec argv => cases argv <;> simp [Turn.Returns]
      | _ => simp [Turn.Returns]
    | syntaxError near => simp [Turn.Returns]
    | stopped why => simp [Turn.Returns, ht]

/-- **When `run_line` comes back.**  For every line other than the builtin `exit`
and every environment table, `run_line` returns `0` or `-1` to its caller exactly
when the line is not one for the parser, or its expansion does not fit into the
buffer, or the tokens of the expanded line begin with a line of the grammar with
nothing after it that the parser stops at inside one of its procedures
(`BeginsWithLine`); in every other case `panic` ends the shell. -/
theorem runLine_returns_iff (env : Env) (pid : ℕ) (interactive : Bool) (buf : CStr)
    (hexit : lineForm buf ≠ .exit) :
    (runLine env pid interactive buf).Returns ↔
      ∀ line, lineForm buf = .external line → (expandEnvVars env pid line).truncated = false →
        BeginsWithLine (tokens (expanded env pid line).cursor) := by
  rw [runLine]
  cases hf : lineForm buf with
  | external line =>
    rw [returns_runExternal]
    simp only [LineForm.external.injEq, forall_eq']
    cases (expandEnvVars env pid line).truncated <;> simp
  | exit => exact absurd hf hexit
  | cd path =>
    simp only [reduceCtorEq, false_imp_iff, implies_true, iff_true]
    split_ifs <;> simp [Turn.Returns]
  | echo text =>
    simp only [reduceCtorEq, false_imp_iff, implies_true, iff_true]
    split_ifs <;> simp [Turn.Returns]
  | exportVar name value =>
    simp only [reduceCtorEq, false_imp_iff, implies_true, iff_true]
    cases envSet env name value <;> simp [Turn.Returns]
  | _ => simp [Turn.Returns]

/-- The line `a|b` goes through the expander and the parser, and comes back. -/
theorem runLine_returns_iff_pipe :
    lineForm ⟨[97, 124, 98], by decide⟩ = .external ⟨[97, 124, 98, 10], by decide⟩ ∧
      (expandEnvVars .cleared 1 ⟨[97, 124, 98, 10], by decide⟩).truncated = false ∧
      (runLine .cleared 1 true ⟨[97, 124, 98], by decide⟩).Returns := by
  have h : lineForm ⟨[97, 124, 98], by decide⟩ = .external ⟨[97, 124, 98, 10], by decide⟩ := by rfl
  have hfits : (expandEnvVars .cleared 1 ⟨[97, 124, 98, 10], by decide⟩).truncated = false := by
    decide +kernel
  have hiff := runLine_returns_iff .cleared 1 true ⟨[97, 124, 98], by decide⟩ (by simp [h])
  refine ⟨h, hfits, hiff.2 fun line hline _ => ?_⟩
  obtain rfl := LineForm.external.inj (h.symm.trans hline)
  refine ⟨.fin (.more (.exec [] [⟨⟨0, 1⟩, []⟩]) (.one (.exec [] [⟨⟨2, 3⟩, []⟩]))) 0, [],
    ⟨by simp [Simple.Fits, maxArgs], by simp [Pipe.Fits, Simple.Fits, maxArgs]⟩, ?_, rfl⟩
  decide +kernel

/-- **A line with an opening parenthesis ends the shell.** -/
theorem runLine_exits :
    lineForm ⟨[40], by decide⟩ ≠ .exit ∧
      runLine .cleared 1 true ⟨[40], by decide⟩ = .exited (.panic "syntax - missing )") ∧
      ¬(runLine .cleared 1 true ⟨[40], by decide⟩).Returns := by
  have h : lineForm ⟨[40], by decide⟩ = .external ⟨[40, 10], by decide⟩ := by rfl
  have hrun : runLine .cleared 1 true ⟨[40], by decide⟩ =
      .exited (.panic "syntax - missing )") := by
    rw [runLine, h]
    rfl
  refine ⟨by simp [h], hrun, ?_⟩
  rw [hrun]
  exact id

end Shell
end V6User
