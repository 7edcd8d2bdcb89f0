import Mathlib.Data.List.Induction
import V6User.Base.FdTable
import V6User.Shell.Parsecmd

/-!
# The order of redirections

`programs/sh/sh.c`: `parseredirs`, the redirections in `parseexec` and `parseblock`, and
the REDIR case of `runcmd`.

The parser wraps a REDIR node around the command for each redirection it reads, so the
last one written is the outermost node; `runcmd` carries out a REDIR node before it goes
on to the command inside.  Together they carry out the redirections from the last to
the first (`runRedirs_tree`), and the first one written for a descriptor is the one the
command runs with.  It is the textual order exactly for a list of redirections that
reads the same from both ends (`redirections_in_order_iff`).
-/

namespace V6User
namespace Shell

/-- A call of `open` in the REDIR case: `rcmd->file`, `rcmd->mode` and the descriptor it
is for. -/
structure Opening where
  file : List Byte
  mode : List OpenFlag
  fd : ℕ
  deriving DecidableEq

/-- What a descriptor can refer to: a file open when `runcmd` starts, a file that a
redirection opened, or an end of a pipe. -/
inductive Desc where
  | inherited (n : ℕ)
  | file (o : Opening)
  | pipeRead (i : ℕ)
  | pipeWrite (i : ℕ)
  deriving DecidableEq

/-- The first `n` REDIR nodes of a command in `runcmd`: close the descriptor, open the
file, and go on with the command inside.  `opens done o` says whether `open` succeeds
for `o` after the calls `done`.  The result is the list of all calls, and the command
and the table that are left where none failed. -/
def runRedirs (opens : List Opening → Opening → Bool) :
    ℕ → Cmd (List Byte) → FdTable Desc → List Opening →
      List Opening × Option (Cmd (List Byte) × FdTable Desc)
  | n + 1, .redir cmd file mode fd, t, done =>
    let o : Opening := ⟨file, mode, fd⟩
    if opens done o then runRedirs opens n cmd (t.redirect fd (.file o)) (done ++ [o])
    else (done ++ [o], none)
  | _, cmd, t, done => (done, some (cmd, t))

/-- Redirections in the order of a list: each file is opened, and in force for its
descriptor from then on. -/
def inOrder (opens : List Opening → Opening → Bool) :
    List Opening → FdTable Desc → List Opening → List Opening × Option (FdTable Desc)
  | [], t, done => (done, some t)
  | o :: os, t, done =>
    if opens done o then inOrder opens os (t.set o.fd (some (.file o))) (done ++ [o])
    else (done ++ [o], none)

/-- The redirection that stands for an operator and a file name. -/
def Redir.opening (f : Span → List Byte) (r : Redir) : Opening :=
  match r.op with
  | .lt => ⟨f r.file, [.rdonly], 0⟩
  | .gt => ⟨f r.file, [.wronly, .creat, .trunc], 1⟩
  | .gtgt => ⟨f r.file, [.wronly, .creat, .append], 1⟩

/-- The redirections of a simple command or a block, in the order of the text. -/
def Simple.redirs : Simple → List Redir
  | .block _ rs => rs
  | .exec rs args => allRedirs rs args

/-- The command that the redirections of a simple command are for. -/
def Simple.core : Simple → Cmd Span
  | .block l _ => l.tree
  | .exec _ args => .exec (args.map Arg.word)

theorem Simple.tree_eq (d : Simple) : d.tree = wrapRedirs d.redirs d.core := by
  cases d <;> rfl

/-- Descriptors 0 and 1 are open. -/
def FdTable.StdOpen (t : FdTable Desc) : Prop := (t.get 0).isSome ∧ (t.get 1).isSome

theorem stdOpen_set {t : FdTable Desc} (h : FdTable.StdOpen t) (fd : ℕ) (d : Desc) :
    FdTable.StdOpen (t.set fd (some d)) := by
  have hget : ∀ n, (t.get n).isSome → ((t.set fd (some d)).get n).isSome := by
    intro n hn
    rw [FdTable.get_set]
    split_ifs
    · rfl
    · exact hn
  exact ⟨hget 0 h.1, hget 1 h.2⟩

theorem opening_fd_le (f : Span → List Byte) (r : Redir) : (r.opening f).fd ≤ 1 := by
  rw [Redir.opening]
  cases r.op
  · exact Nat.zero_le 1
  · exact Nat.le_refl 1
  · exact Nat.le_refl 1

theorem map_redirFor (f : Span → List Byte) (r : Redir) (c : Cmd Span) :
    (redirFor r.op.kind c r.file).map f =
      .redir (c.map f) (r.opening f).file (r.opening f).mode (r.opening f).fd := by
  rw [Redir.opening]
  cases r.op <;> rfl

theorem wrapRedirs_concat (rs : List Redir) (r : Redir) (c : Cmd Span) :
    wrapRedirs (rs ++ [r]) c = redirFor r.op.kind (wrapRedirs rs c) r.file := by
  rw [wrapRedirs_append]
  rfl

/-- **The redirections are carried out from the last to the first.** -/
theorem runRedirs_wrapRedirs (opens : List Opening → Opening → Bool) (f : Span → List Byte)
    (rs : List Redir) (c : Cmd Span) {t : FdTable Desc} (ht : FdTable.StdOpen t)
    (done : List Opening) :
    runRedirs opens rs.length ((wrapRedirs rs c).map f) t done =
      (inOrder opens (rs.map (Redir.opening f)).reverse t done).map id
        (Option.map fun t' => (c.map f, t')) := by
  induction rs using List.reverseRecOn generalizing t done with
  | nil => cases c <;> rfl
  | append_singleton rs r ih =>
    have hset : t.redirect (r.opening f).fd (.file (r.opening f)) =
        t.set (r.opening f).fd (some (.file (r.opening f))) := by
      refine FdTable.redirect_eq_set (fun n hn => ?_) _
      have hle := opening_fd_le f r
      obtain rfl : n = 0 := by omega
      exact ht.1
    rw [List.length_append, List.length_singleton, wrapRedirs_concat, map_redirFor, runRedirs,
      List.map_append, List.reverse_append, List.map_singleton, List.reverse_singleton,
      List.singleton_append, inOrder]
    split_ifs with hok
    · rw [hset]
      exact ih (stdOpen_set ht _ _) _
    · rfl

theorem Simple.runRedirs_tree (d : Simple) (opens : List Opening → Opening → Bool)
    (f : Span → List Byte) {t : FdTable Desc} (ht : FdTable.StdOpen t) (done : List Opening) :
    runRedirs opens d.redirs.length (d.tree.map f) t done =
      (inOrder opens (d.redirs.map (Redir.opening f)).reverse t done).map id
        (Option.map fun t' => (d.core.map f, t')) := by
  rw [Simple.tree_eq]
  exact runRedirs_wrapRedirs opens f d.redirs d.core ht done

/-- Executing a simple command carries out its redirections in the order of the text,
whatever files can be opened and whatever is open before: it opens the files in that
order, and where the command comes to run, each descriptor refers to the file of the
last redirection for it. -/
def Simple.InTextOrder (d : Simple) (f : Span → List Byte) : Prop :=
  let os := d.redirs.map (Redir.opening f)
  ∀ (opens : List Opening → Opening → Bool) (t : FdTable Desc), FdTable.StdOpen t →
    runRedirs opens d.redirs.length (d.tree.map f) t [] =
        (inOrder opens os t []).map id (Option.map fun t' => (d.core.map f, t')) ∧
      ∀ done c t', runRedirs opens d.redirs.length (d.tree.map f) t [] = (done, some (c, t')) →
        ∀ fd, t'.get fd = ((os.reverse.find? fun o => o.fd == fd).map Desc.file).or (t.get fd)

/-- Where every file can be opened, the calls are those of the list. -/
theorem inOrder_of_opens (os : List Opening) (t : FdTable Desc) (done : List Opening) :
    (inOrder (fun _ _ => true) os t done).1 = done ++ os := by
  induction os generalizing t done with
  | nil => exact (List.append_nil done).symm
  | cons o os ih =>
    rw [inOrder, if_pos rfl, ih, List.append_assoc, List.singleton_append]

/-- **In the order of a list the last redirection of a descriptor is in force**, and a
descriptor without one keeps its file. -/
theorem inOrder_get {opens : List Opening → Opening → Bool} {os : List Opening}
    {t t' : FdTable Desc} {done done' : List Opening}
    (h : inOrder opens os t done = (done', some t')) (fd : ℕ) :
    t'.get fd = ((os.reverse.find? fun o => o.fd == fd).map Desc.file).or (t.get fd) := by
  induction os generalizing t done with
  | nil =>
    obtain ⟨-, ht⟩ := Prod.mk.inj h
    obtain rfl := Option.some.inj ht
    rfl
  | cons o os ih =>
    rw [inOrder] at h
    split_ifs at h with hok
    · rw [ih h, List.reverse_cons, List.find?_append, FdTable.get_set]
      cases os.reverse.find? fun o => o.fd == fd with
      | some o' => rfl
      | none =>
        by_cases hfd : fd = o.fd
        · simp [hfd]
        · have hne : (o.fd == fd) = false := by simpa using Ne.symm hfd
          simp [hfd, hne]
    · exact absurd (Prod.mk.inj h).2 nofun

/-- The table of a shell with nothing but its terminal open. -/
def stdTable : FdTable Desc where
  get n := if n < 3 then some (.inherited n) else none
  finite := ⟨3, fun _ hm => if_neg (Nat.not_lt.2 hm)⟩

/-- **When redirections take effect in the order of the text.**  Executing the tree of a
simple command or a block carries out its redirections from left to right exactly when
their list reads the same from both ends. -/
theorem redirections_in_order_iff (d : Simple) (f : Span → List Byte) :
    d.InTextOrder f ↔
      (d.redirs.map (Redir.opening f)).reverse = d.redirs.map (Redir.opening f) := by
  constructor
  · intro h
    have hstd : FdTable.StdOpen stdTable := ⟨rfl, rfl⟩
    have hrun := (h (fun _ _ => true) stdTable hstd).1
    rw [d.runRedirs_tree _ f hstd] at hrun
    have htrace := congrArg Prod.fst hrun
    rw [Prod.map_fst, Prod.map_fst, inOrder_of_opens, inOrder_of_opens] at htrace
    exact htrace
  · intro h opens t ht
    have hcode := d.runRedirs_tree opens f ht []
    rw [h] at hcode
    rw [hcode]
    refine ⟨rfl, fun done c t' hrun fd => ?_⟩
    obtain ⟨hdone, hrest⟩ := Prod.mk.inj hrun
    obtain ⟨t'', ht'', hpair⟩ := Option.map_eq_some_iff.1 hrest
    obtain ⟨-, rfl⟩ := Prod.mk.inj hpair
    exact inOrder_get (Prod.ext hdone ht'') fd

/-- The command `e>a>b`. -/
def twoOutputs : Simple :=
  .exec [] [⟨⟨0, 1⟩, [⟨.gt, ⟨2, 3⟩⟩, ⟨.gt, ⟨4, 5⟩⟩]⟩]

/-- The text `e>a>b`. -/
def twoOutputsText : CStr := ⟨[101, 62, 97, 62, 98], by decide⟩

/-- **The first output file is the one in force.**  The text `e>a>b` is the command
`twoOutputs`; its files are opened in the order `b`, `a`. -/
theorem redirections_reversed :
    parseText twoOutputsText = .tree twoOutputs.tree ∧
      ¬twoOutputs.InTextOrder fun w => w.slice twoOutputsText.bytes := by
  refine ⟨by rfl, fun h => ?_⟩
  have hstd : FdTable.StdOpen stdTable := ⟨rfl, rfl⟩
  have hrun := (h (fun _ _ => true) stdTable hstd).1
  rw [twoOutputs.runRedirs_tree _ _ hstd] at hrun
  have htrace := congrArg Prod.fst hrun
  rw [Prod.map_fst, Prod.map_fst, inOrder_of_opens, inOrder_of_opens] at htrace
  exact absurd htrace (by decide)

end Shell
end V6User
