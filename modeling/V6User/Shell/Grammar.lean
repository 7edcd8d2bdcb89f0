import V6User.Shell.ParserFuel

/-!
# The grammar of the command language

    Line   ::= Pipe | Pipe ';' Line | Pipe '&'+ | Pipe '&'+ Line | Pipe '&'+ ';' Line
    Pipe   ::= Simple | Simple '|' Pipe
    Simple ::= '(' Line ')' Redir* | Redir* (word Redir*)*
    Redir  ::= ('<' | '>' | '>>') word

with at most 31 words in a simple command.  A value of `Line`, `Pipe` or
`Simple` is a derivation; `tokens` is the token list it derives, `Fits` the
bound on the words, and `tree` the command tree it stands for: the words of a
simple command in an EXEC node, its redirections around it with the first one
innermost, LIST, PIPE and BACK nodes for the operators.

A derivation is read back from its tree in `read`: the tree keeps every word,
every redirection and every operator in order, except that `&` before a command
makes the same nodes as `& ;` and that parentheses leave no node of their own.
-/

namespace V6User
namespace Shell

/-- The redirection operators. -/
inductive RedirOp where
  | lt
  | gt
  | gtgt
  deriving DecidableEq, Repr

/-- The token of a redirection operator. -/
def RedirOp.tok : RedirOp → Tok
  | .lt => .lt
  | .gt => .gt
  | .gtgt => .gtgt

/-- The value `gettoken` returns for it. -/
def RedirOp.kind : RedirOp → Kind
  | .lt => .lt
  | .gt => .gt
  | .gtgt => .gtgt

/-- `Redir`: an operator and a file name. -/
structure Redir where
  op : RedirOp
  file : Span
  deriving DecidableEq, Repr

/-- A word and the redirections after it. -/
structure Arg where
  word : Span
  redirs : List Redir
  deriving DecidableEq, Repr

mutual

/-- Derivations of `Simple`. -/
inductive Simple where
  | block (l : Line) (rs : List Redir)
  | exec (rs : List Redir) (args : List Arg)

/-- Derivations of `Pipe`. -/
inductive Pipe where
  | one (s : Simple)
  | more (s : Simple) (p : Pipe)

/-- Derivations of `Line`; `k` counts the `&`s after the pipe, so `fin` is
`Pipe` or `Pipe '&'+`, `cont` is `Pipe '&'+ Line` with `k + 1` of them, and
`semi` is `Pipe ';' Line` or `Pipe '&'+ ';' Line`. -/
inductive Line where
  | fin (p : Pipe) (k : ℕ)
  | cont (p : Pipe) (k : ℕ) (l : Line)
  | semi (p : Pipe) (k : ℕ) (l : Line)

end

/-- The tokens of a list of redirections. -/
def redirToks : List Redir → List Tok
  | [] => []
  | r :: rs => r.op.tok :: .word r.file :: redirToks rs

/-- The tokens of the words of a simple command. -/
def argToks : List Arg → List Tok
  | [] => []
  | a :: args => .word a.word :: redirToks a.redirs ++ argToks args

/-- A row of `&`s. -/
def amps (k : ℕ) : List Tok := List.replicate k .amp

mutual

/-- The tokens a simple command derives. -/
def Simple.tokens : Simple → List Tok
  | .block l rs => .lparen :: l.tokens ++ .rparen :: redirToks rs
  | .exec rs args => redirToks rs ++ argToks args

/-- The tokens a pipe derives. -/
def Pipe.tokens : Pipe → List Tok
  | .one s => s.tokens
  | .more s p => s.tokens ++ .pipe :: p.tokens

/-- The tokens a line derives. -/
def Line.tokens : Line → List Tok
  | .fin p k => p.tokens ++ amps k
  | .cont p k l => p.tokens ++ amps (k + 1) ++ l.tokens
  | .semi p k l => p.tokens ++ amps k ++ .semi :: l.tokens

end

mutual

/-- No simple command has more than 31 words. -/
def Simple.Fits : Simple → Prop
  | .block l _ => l.Fits
  | .exec _ args => args.length < maxArgs

/-- No simple command of the pipe has more than 31 words. -/
def Pipe.Fits : Pipe → Prop
  | .one s => s.Fits
  | .more s p => s.Fits ∧ p.Fits

/-- No simple command of the line has more than 31 words. -/
def Line.Fits : Line → Prop
  | .fin p _ => p.Fits
  | .cont p _ l => p.Fits ∧ l.Fits
  | .semi p _ l => p.Fits ∧ l.Fits

end

/-- `Line` derives a token list. -/
def Derives (ts : List Tok) : Prop := ∃ d : Line, d.Fits ∧ d.tokens = ts

/-! ### The tree of a derivation -/

/-- Redirections wrapped around a command, the first one innermost. -/
def wrapRedirs (rs : List Redir) (cmd : Cmd Span) : Cmd Span :=
  rs.foldl (fun c r => redirFor r.op.kind c r.file) cmd

/-- `k` BACK nodes. -/
def backs : ℕ → Cmd Span → Cmd Span
  | 0, c => c
  | k + 1, c => backs k (.back c)

/-- The redirections of a simple command, in order. -/
def allRedirs (rs : List Redir) (args : List Arg) : List Redir := rs ++ args.flatMap Arg.redirs

mutual

/-- The tree of a simple command. -/
def Simple.tree : Simple → Cmd Span
  | .block l rs => wrapRedirs rs l.tree
  | .exec rs args => wrapRedirs (allRedirs rs args) (.exec (args.map Arg.word))

/-- The tree of a pipe. -/
def Pipe.tree : Pipe → Cmd Span
  | .one s => s.tree
  | .more s p => .pipe s.tree p.tree

/-- The tree of a line. -/
def Line.tree : Line → Cmd Span
  | .fin p k => backs k p.tree
  | .cont p k l => .list (backs (k + 1) p.tree) l.tree
  | .semi p k l => .list (backs k p.tree) l.tree

end

/-! ### Reading a tree -/

/-- What reading a tree from left to right meets: the words of an EXEC node, a
redirection with its file and the operator it came from, or an operator. -/
inductive Item where
  | argv (ws : List Span)
  | redir (file : Span) (mode : List OpenFlag) (fd : ℕ)
  | pipe
  | semi
  | amp
  deriving DecidableEq, Repr

/-- Reading a command tree: REDIR nodes innermost first, a LIST node as `;`. -/
def Cmd.read : Cmd Span → List Item
  | .exec argv => [.argv argv]
  | .redir c file mode fd => c.read ++ [.redir file mode fd]
  | .pipe l r => l.read ++ .pipe :: r.read
  | .list l r => l.read ++ .semi :: r.read
  | .back c => c.read ++ [.amp]

/-- The flags and the descriptor a redirection operator stands for. -/
def Redir.item (r : Redir) : Item :=
  match r.op with
  | .lt => .redir r.file [.rdonly] 0
  | .gt => .redir r.file [.wronly, .creat, .trunc] 1
  | .gtgt => .redir r.file [.wronly, .creat, .append] 1

mutual

/-- The text of a simple command: all its words, then all its redirections. -/
def Simple.read : Simple → List Item
  | .block l rs => l.read ++ rs.map Redir.item
  | .exec rs args => .argv (args.map Arg.word) :: (allRedirs rs args).map Redir.item

/-- The text of a pipe. -/
def Pipe.read : Pipe → List Item
  | .one s => s.read
  | .more s p => s.read ++ .pipe :: p.read

/-- The text of a line, with `& ;` for an `&` before a command. -/
def Line.read : Line → List Item
  | .fin p k => p.read ++ List.replicate k .amp
  | .cont p k l => p.read ++ List.replicate (k + 1) .amp ++ .semi :: l.read
  | .semi p k l => p.read ++ List.replicate k .amp ++ .semi :: l.read

end

theorem read_wrapRedirs (rs : List Redir) (c : Cmd Span) :
    (wrapRedirs rs c).read = c.read ++ rs.map Redir.item := by
  induction rs generalizing c with
  | nil => simp [wrapRedirs]
  | cons r rs ih =>
    have hr : (redirFor r.op.kind c r.file).read = c.read ++ [r.item] := by
      cases hop : r.op <;> simp [RedirOp.kind, redirFor, Cmd.read, Redir.item, hop]
    have := ih (redirFor r.op.kind c r.file)
    rw [hr] at this
    simpa [wrapRedirs] using this

theorem read_backs (k : ℕ) (c : Cmd Span) : (backs k c).read = c.read ++ List.replicate k .amp := by
  induction k generalizing c with
  | zero => simp [backs]
  | succ k ih => simp [backs, ih, Cmd.read, List.replicate_succ]

mutual

theorem Simple.read_tree : ∀ s : Simple, s.tree.read = s.read
  | .block l rs => by rw [Simple.tree, Simple.read, read_wrapRedirs, Line.read_tree l]
  | .exec rs args => by rw [Simple.tree, Simple.read, read_wrapRedirs]; rfl

theorem Pipe.read_tree : ∀ p : Pipe, p.tree.read = p.read
  | .one s => by rw [Pipe.tree, Pipe.read, Simple.read_tree s]
  | .more s p => by
      rw [Pipe.tree, Pipe.read, Cmd.read, Simple.read_tree s, Pipe.read_tree p]

/-- **Reading the tree of a derivation gives back its text.** -/
theorem Line.read_tree : ∀ d : Line, d.tree.read = d.read
  | .fin p k => by rw [Line.tree, Line.read, read_backs, Pipe.read_tree p]
  | .cont p k l => by
      rw [Line.tree, Line.read, Cmd.read, read_backs, Pipe.read_tree p, Line.read_tree l]
  | .semi p k l => by
      rw [Line.tree, Line.read, Cmd.read, read_backs, Pipe.read_tree p, Line.read_tree l]

end

end Shell
end V6User
