import V6User.Shell.Tokens

/-!
# The recursive-descent parser

`programs/sh/sh.c`: the command constructors, `parseline`, `parsepipe`,
`parseredirs`, `parseblock` and `parseexec`, and the part of `parsecmd` before
`nulterminate`.

A command tree holds spans of the text.  The procedures pass the pointer `*ps`
along and stop the process through `panic`; the `while` loops of `parseline`
and `parseexec` are `lineLoop` and `execLoop`.  Each call and each turn of a
loop spends one unit of fuel, and `parsecmd` starts with more than any text of
its length can use (`V6User.Shell.Grammar`).
-/

namespace V6User
namespace Shell

/-- `MAXARGS`. -/
def maxArgs : ℕ := 32

/-- The flags of `open` that redirections use. -/
inductive OpenFlag where
  | rdonly
  | wronly
  | creat
  | trunc
  | append
  deriving DecidableEq, Repr

/-- `struct cmd` and its five variants.  The parser stores the words and file
names as spans of the text; what a span points to is read later. -/
inductive Cmd (ω : Type) where
  | exec (argv : List ω)
  | redir (cmd : Cmd ω) (file : ω) (mode : List OpenFlag) (fd : ℕ)
  | pipe (left right : Cmd ω)
  | list (left right : Cmd ω)
  | back (cmd : Cmd ω)
  deriving DecidableEq, Repr

/-- The array `argv[MAXARGS]` of an EXEC node, zeroed by `execcmd`: the words
stored in it, and a null pointer in every slot after them. -/
def argvSlots {ω : Type} (argv : List ω) : List (Option ω) :=
  argv.map some ++ List.replicate (maxArgs - argv.length) none

/-- `cmd->argv[argc] = q; cmd->eargv[argc] = eq` through the pointer `cmd` of
`parseexec`, which keeps pointing at the innermost command while `ret` is
wrapped into redirections around it. -/
def Cmd.pushArg (w : Span) : Cmd Span → Cmd Span
  | .exec argv => .exec (argv ++ [w])
  | .redir cmd file mode fd => .redir (cmd.pushArg w) file mode fd
  | c => c

/-- The `switch (tok)` of `parseredirs`. -/
def redirFor (tok : Kind) (cmd : Cmd Span) (file : Span) : Cmd Span :=
  match tok with
  | .lt => .redir cmd file [.rdonly] 0
  | .gt => .redir cmd file [.wronly, .creat, .trunc] 1
  | .gtgt => .redir cmd file [.wronly, .creat, .append] 1
  | _ => cmd

/-- Why the parser did not return a command: it called `panic`, or the model
ran out of fuel. -/
inductive Stop where
  | panic (msg : String)
  | fuel
  deriving DecidableEq, Repr

/-- The span `[q, eq)` of a token. -/
def Token.span (t : Token) : Span := ⟨t.q.pos, t.eq.pos⟩

/-- `parseredirs(cmd, ps, es)`. -/
def parseredirs : ℕ → Cmd Span → Cursor → Except Stop (Cmd Span × Cursor)
  | 0, _, _ => .error .fuel
  | n + 1, cmd, ps =>
    if (peek ps [60, 62]).2 then
      let tok := gettoken (peek ps [60, 62]).1
      let file := gettoken tok.ps
      if file.ret ≠ .word then .error (.panic "missing file for redirection")
      else parseredirs n (redirFor tok.ret cmd file.span) file.ps
    else .ok (cmd, (peek ps [60, 62]).1)

/-- The `while` loop of `parseexec`: `argc` words are stored, `ret` is the tree
so far. -/
def execLoop : ℕ → ℕ → Cmd Span → Cursor → Except Stop (Cmd Span × Cursor)
  | 0, _, _, _ => .error .fuel
  | n + 1, argc, ret, ps =>
    let p := peek ps [124, 41, 38, 59]
    if p.2 then .ok (ret, p.1)
    else
      let t := gettoken p.1
      if t.ret = .eof then .ok (ret, t.ps)
      else if t.ret ≠ .word then .error (.panic "syntax")
      else if argc + 1 ≥ maxArgs then .error (.panic "too many args")
      else do
        let r ← parseredirs n (ret.pushArg t.span) t.ps
        execLoop n (argc + 1) r.1 r.2

mutual

/-- `parseline(ps, es)`. -/
def parseline : ℕ → Cursor → Except Stop (Cmd Span × Cursor)
  | 0, _ => .error .fuel
  | n + 1, ps => do
    let r ← parsepipe n ps
    lineLoop n r.1 r.2

/-- The `while` loop of `parseline` and the `;` after it. -/
def lineLoop : ℕ → Cmd Span → Cursor → Except Stop (Cmd Span × Cursor)
  | 0, _, _ => .error .fuel
  | n + 1, cmd, ps =>
    let p := peek ps [38]
    if p.2 then
      let t := gettoken p.1
      if t.ps.rest ≠ [] ∧ ¬(peek t.ps [59, 38]).2 then do
        let r ← parseline n (peek t.ps [59, 38]).1
        .ok (.list (.back cmd) r.1, r.2)
      else lineLoop n (.back cmd) t.ps
    else
      let p := peek p.1 [59]
      if p.2 then do
        let r ← parseline n (gettoken p.1).ps
        .ok (.list cmd r.1, r.2)
      else .ok (cmd, p.1)

/-- `parsepipe(ps, es)`. -/
def parsepipe : ℕ → Cursor → Except Stop (Cmd Span × Cursor)
  | 0, _ => .error .fuel
  | n + 1, ps => do
    let l ← parseexec n ps
    let p := peek l.2 [124]
    if p.2 then
      let r ← parsepipe n (gettoken p.1).ps
      .ok (.pipe l.1 r.1, r.2)
    else .ok (l.1, p.1)

/-- `parseexec(ps, es)`. -/
def parseexec : ℕ → Cursor → Except Stop (Cmd Span × Cursor)
  | 0, _ => .error .fuel
  | n + 1, ps =>
    let p := peek ps [40]
    if p.2 then parseblock n p.1
    else do
      let r ← parseredirs n (.exec []) p.1
      execLoop n 0 r.1 r.2

/-- `parseblock(ps, es)`. -/
def parseblock : ℕ → Cursor → Except Stop (Cmd Span × Cursor)
  | 0, _ => .error .fuel
  | n + 1, ps =>
    let p := peek ps [40]
    if ¬p.2 then .error (.panic "parseblock")
    else do
      let r ← parseline n (gettoken p.1).ps
      let q := peek r.2 [41]
      if ¬q.2 then .error (.panic "syntax - missing )")
      else parseredirs n r.1 (gettoken q.1).ps

end

/-- What the part of `parsecmd` before `nulterminate` comes to: a command tree,
the error `syntax error near:` with the rest of the text, or a stop inside the
parser. -/
inductive Parsed where
  | tree (cmd : Cmd Span)
  | syntaxError (near : List Byte)
  | stopped (why : Stop)
  deriving DecidableEq, Repr

/-- Fuel for a text of `n` bytes. -/
def parseFuel (n : ℕ) : ℕ := 8 * n + 16

/-- `parsecmd(s)` up to the call of `nulterminate`. -/
def parseText (s : CStr) : Parsed :=
  match parseline (parseFuel s.bytes.length) s.cursor with
  | .error e => .stopped e
  | .ok (cmd, ps) =>
    if (peek ps []).1.rest ≠ [] then .syntaxError (peek ps []).1.rest else .tree cmd

end Shell
end V6User
