import Mathlib.Data.List.Nodup
import Mathlib.Data.List.Perm.Subperm
import V6User.Shell.Redirections

/-!
# Running a command tree

`programs/sh/sh.c`: `run_pipe_left`, `run_pipe_right` and `runcmd`.

`runcmd` is carried out by processes that fork one another, each with a descriptor table
of its own.  `Step` is one step of one of them, in any order, so `Reaches` covers every
interleaving.  A process remembers the PIPE and REDIR nodes around the node it is at
(`Frame`), the children it forked and those it waited for.

`Process.Good` says for each place a process can be at which descriptors it has open
(those of the shell, rebound by the nearest frame for them: `wiring`) and how many of its
children it still has to wait for; `Inv.step` shows that every step keeps it, and
`runcmd_wiring` reads off what holds in every reachable state.
-/

namespace V6User
namespace Shell

/-- A command tree with the strings of its words. -/
abbrev Command := Cmd (List Byte)

/-- A node of the tree that rebinds a descriptor for the commands inside: a PIPE, with
the number of its pipe, as seen from its left or its right command, or a REDIR. -/
inductive Frame where
  | pipeLeft (i : ℕ)
  | pipeRight (i : ℕ)
  | redir (o : Opening)
  deriving DecidableEq

/-- What a frame binds a descriptor to. -/
def Frame.binds (fd : ℕ) : Frame → Option Desc
  | .pipeLeft i => if fd = 1 then some (.pipeWrite i) else none
  | .pipeRight i => if fd = 0 then some (.pipeRead i) else none
  | .redir o => if fd = o.fd then some (.file o) else none

/-- A node of the tree `root`, with the PIPE and REDIR nodes around it, the nearest
first. -/
inductive Enclosed (root : Command) : List Frame → Command → Prop
  | root : Enclosed root [] root
  | redir {fs : List Frame} {c : Command} {file : List Byte} {mode : List OpenFlag} {fd : ℕ}
    (h : Enclosed root fs (.redir c file mode fd)) :
    Enclosed root (.redir ⟨file, mode, fd⟩ :: fs) c
  | pipeLeft {fs : List Frame} {l r : Command} (h : Enclosed root fs (.pipe l r)) (i : ℕ) :
    Enclosed root (.pipeLeft i :: fs) l
  | pipeRight {fs : List Frame} {l r : Command} (h : Enclosed root fs (.pipe l r)) (i : ℕ) :
    Enclosed root (.pipeRight i :: fs) r
  | listLeft {fs : List Frame} {l r : Command} (h : Enclosed root fs (.list l r)) :
    Enclosed root fs l
  | listRight {fs : List Frame} {l r : Command} (h : Enclosed root fs (.list l r)) :
    Enclosed root fs r
  | back {fs : List Frame} {c : Command} (h : Enclosed root fs (.back c)) : Enclosed root fs c

/-- What a process still has to do of `runcmd`. -/
inductive Todo where
  /-- `runcmd(cmd)` -/
  | run (cmd : Command)
  /-- `run_pipe_left(cmd, p)` -/
  | pipeLeft (cmd : Command) (r w : ℕ)
  /-- `run_pipe_right(cmd, p)` -/
  | pipeRight (cmd : Command) (r w : ℕ)
  /-- PIPE from its second `fork` on -/
  | secondFork (right : Command) (i r w : ℕ)
  /-- PIPE after its second `fork` -/
  | closeBoth (r w : ℕ)
  /-- `n` calls of `wait(0)`, and then `runcmd` or `exit(0)` -/
  | wait (n : ℕ) (next : Option Command)
  /-- the EXEC case -/
  | exec (argv : List (List Byte))
  | exited

/-- A process: its parent, its descriptors, what it still has to do, and, for the record,
the node it is at, the frames around that node, the children it forked and those it
waited for. -/
structure Process where
  parent : Option ℕ
  fds : FdTable Desc
  todo : Todo
  node : Command
  frames : List Frame
  forked : List ℕ
  reaped : List ℕ

/-- All processes, by their numbers, and the number of the next pipe. -/
structure Config where
  procs : List Process
  pipes : ℕ

/-- A process just forked: a copy of the table, and no children. -/
def Process.child (pid : ℕ) (fds : FdTable Desc) (frames : List Frame)
    (node : Command) (todo : Todo) : Process where
  parent := some pid
  fds := fds
  todo := todo
  node := node
  frames := frames
  forked := []
  reaped := []

/-- The state with one process in another state. -/
def Config.set (s : Config) (pid : ℕ) (p : Process) : Config :=
  { s with procs := s.procs.set pid p }

/-- The state after a process has forked a child: the child has the next number. -/
def Config.fork (s : Config) (pid : ℕ) (p child : Process) : Config :=
  { s with procs := s.procs.set pid { p with forked := p.forked ++ [s.procs.length] } ++ [child] }

/-- `runcmd` goes on with another node. -/
def Process.goto (p : Process) (c : Command) : Process := { p with todo := .run c, node := c }

/-- One step of the process `pid`. -/
inductive Step (s : Config) (pid : ℕ) (p : Process) : Config → Prop
  /-- REDIR: `close`, and an `open` that succeeds -/
  | redir {c : Command} {file : List Byte} {mode : List OpenFlag} {fd : ℕ}
    (h : p.todo = .run (.redir c file mode fd)) :
    Step s pid p (s.set pid
      { p.goto c with
        fds := p.fds.redirect fd (.file ⟨file, mode, fd⟩)
        frames := .redir ⟨file, mode, fd⟩ :: p.frames })
  /-- REDIR: an `open` that fails, and `exit(1)` -/
  | redirFails {c : Command} {file : List Byte} {mode : List OpenFlag} {fd : ℕ}
    (h : p.todo = .run (.redir c file mode fd)) :
    Step s pid p (s.set pid { p with fds := p.fds.close fd, todo := .exited })
  /-- EXEC -/
  | exec {argv : List (List Byte)} (h : p.todo = .run (.exec argv)) :
    Step s pid p (s.set pid { p with todo := .exec argv })
  /-- the command of an EXEC exits, or `exit` before it -/
  | execExits {argv : List (List Byte)} (h : p.todo = .exec argv) :
    Step s pid p (s.set pid { p with todo := .exited })
  /-- LIST: `fork` -/
  | list {l r : Command} (h : p.todo = .run (.list l r)) :
    Step s pid p (s.fork pid { p with todo := .wait 1 (some r) }
      (.child pid p.fds p.frames l (.run l)))
  /-- PIPE: `pipe` and the first `fork` -/
  | pipe {l r : Command} (h : p.todo = .run (.pipe l r)) {t : FdTable Desc} {rd wr : ℕ}
    (hp : p.fds.pipe (.pipeRead s.pipes) (.pipeWrite s.pipes) = (t, rd, wr)) :
    Step s pid p
      ({ s with pipes := s.pipes + 1 }.fork pid
        { p with fds := t, todo := .secondFork r s.pipes rd wr }
        (.child pid t (.pipeLeft s.pipes :: p.frames) l (.pipeLeft l rd wr)))
  /-- PIPE: the second `fork` -/
  | secondFork {r : Command} {i rd wr : ℕ} (h : p.todo = .secondFork r i rd wr) :
    Step s pid p (s.fork pid { p with todo := .closeBoth rd wr }
      (.child pid p.fds (.pipeRight i :: p.frames) r (.pipeRight r rd wr)))
  /-- PIPE: `close(p[0]); close(p[1]);` -/
  | closeBoth {rd wr : ℕ} (h : p.todo = .closeBoth rd wr) :
    Step s pid p (s.set pid { p with fds := (p.fds.close rd).close wr, todo := .wait 2 none })
  /-- `run_pipe_left` up to `runcmd` -/
  | pipeLeft {c : Command} {rd wr : ℕ} (h : p.todo = .pipeLeft c rd wr) :
    Step s pid p (s.set pid { p.goto c with fds := p.fds.takeOver 1 wr rd wr })
  /-- `run_pipe_right` up to `runcmd` -/
  | pipeRight {c : Command} {rd wr : ℕ} (h : p.todo = .pipeRight c rd wr) :
    Step s pid p (s.set pid { p.goto c with fds := p.fds.takeOver 0 rd rd wr })
  /-- `wait(0)` for a child that has exited -/
  | wait {n : ℕ} {next : Option Command} (h : p.todo = .wait (n + 1) next) {q : ℕ} {c : Process}
    (hq : s.procs[q]? = some c) (hparent : c.parent = some pid) (hexit : c.todo = .exited)
    (hnew : q ∉ p.reaped) :
    Step s pid p (s.set pid { p with todo := .wait n next, reaped := p.reaped ++ [q] })
  /-- `wait(0)` without a child fails -/
  | waitFails {n : ℕ} {next : Option Command} (h : p.todo = .wait (n + 1) next)
    (hnone : ∀ (q : ℕ) (c : Process), s.procs[q]? = some c → c.parent = some pid → q ∈ p.reaped) :
    Step s pid p (s.set pid { p with todo := .wait n next })
  /-- LIST: `runcmd(lcmd->right)` -/
  | next {c : Command} (h : p.todo = .wait 0 (some c)) : Step s pid p (s.set pid (p.goto c))
  /-- PIPE: `exit(0)` -/
  | exit (h : p.todo = .wait 0 none) : Step s pid p (s.set pid { p with todo := .exited })
  /-- BACK: `fork` and `exit(0)` -/
  | back {c : Command} (h : p.todo = .run (.back c)) :
    Step s pid p (s.fork pid { p with todo := .exited } (.child pid p.fds p.frames c (.run c)))

/-- The shell's child that runs the tree: it is the only process. -/
def Config.start (root : Command) (t : FdTable Desc) : Config :=
  ⟨[⟨none, t, .run root, root, [], [], []⟩], 0⟩

/-- The states that running a tree with a table can come to. -/
inductive Reaches (root : Command) (t : FdTable Desc) : Config → Prop
  | start : Reaches root t (.start root t)
  | step {s s' : Config} {pid : ℕ} {p : Process} (h : Reaches root t s)
    (hp : s.procs[pid]? = some p) (hstep : Step s pid p s') : Reaches root t s'

/-! ### The descriptors of a process -/

/-- The descriptors of the table `runcmd` starts with, each rebound by the nearest frame
for it. -/
def wiring (t : FdTable Desc) (fs : List Frame) (fd : ℕ) : Option Desc :=
  (fs.findSome? (Frame.binds fd)).or (t.get fd)

/-- The pipe of a frame. -/
def Frame.pipe? : Frame → Option ℕ
  | .pipeLeft i | .pipeRight i => some i
  | .redir _ => none

/-- The pipes of the PIPE nodes around a node. -/
def pipesOf (fs : List Frame) : List ℕ := fs.filterMap Frame.pipe?

/-- Not an end of a pipe that `runcmd` made. -/
def NoPipeEnd (d : Option Desc) : Prop :=
  ∀ i, d ≠ some (.pipeRead i) ∧ d ≠ some (.pipeWrite i)

/-- The table of a process that starts `runcmd`: 0, 1 and 2 are open, and none of its
pipes is there yet. -/
structure Entry (t : FdTable Desc) : Prop where
  standard : ∀ fd ≤ 2, (t.get fd).isSome
  noPipeEnd : ∀ fd, NoPipeEnd (t.get fd)

/-- The standard descriptors are those of `wiring`, and no other is an end of a pipe. -/
structure Wired (t : FdTable Desc) (fs : List Frame) (fds : FdTable Desc) : Prop where
  standard : ∀ fd ≤ 2, fds.get fd = wiring t fs fd
  others : ∀ fd, 2 < fd → NoPipeEnd (fds.get fd)

/-- So it is but for the two ends of one more pipe. -/
structure WiredEnds (t : FdTable Desc) (fs : List Frame) (i rd wr : ℕ) (fds : FdTable Desc) :
    Prop where
  ne : rd ≠ wr
  rd_gt : 2 < rd
  wr_gt : 2 < wr
  rd_get : fds.get rd = some (.pipeRead i)
  wr_get : fds.get wr = some (.pipeWrite i)
  standard : ∀ fd ≤ 2, fds.get fd = wiring t fs fd
  others : ∀ fd, 2 < fd → fd ≠ rd → fd ≠ wr → NoPipeEnd (fds.get fd)

section Wiring

variable {t fds : FdTable Desc} {fs : List Frame} {fd : ℕ}

theorem noPipeEnd_none : NoPipeEnd none := fun _ => ⟨nofun, nofun⟩

theorem noPipeEnd_file (o : Opening) : NoPipeEnd (some (.file o)) := fun _ => ⟨nofun, nofun⟩

theorem wiring_cons (t : FdTable Desc) (f : Frame) (fs : List Frame) (fd : ℕ) :
    wiring t (f :: fs) fd = (f.binds fd).or (wiring t fs fd) := by
  rw [wiring, wiring, List.findSome?_cons]
  cases f.binds fd <;> rfl

theorem wiring_of_binds {f : Frame} {d : Desc} (h : f.binds fd = some d) :
    wiring t (f :: fs) fd = some d := by
  rw [wiring_cons, h, Option.some_or]

theorem wiring_of_not_binds {f : Frame} (h : f.binds fd = none) :
    wiring t (f :: fs) fd = wiring t fs fd := by
  rw [wiring_cons, h, Option.none_or]

/-- A frame only rebinds, so the standard descriptors stay open. -/
theorem Entry.wiring_isSome (ht : Entry t) (fs : List Frame) (hfd : fd ≤ 2) :
    (wiring t fs fd).isSome := by
  rw [wiring]
  cases fs.findSome? (Frame.binds fd) with
  | none => exact ht.standard fd hfd
  | some d => rfl

theorem Wired.isSome (h : Wired t fs fds) (ht : Entry t) (hfd : fd ≤ 2) : (fds.get fd).isSome :=
  (h.standard fd hfd).symm ▸ ht.wiring_isSome fs hfd

/-- REDIR. -/
theorem Wired.redirect (h : Wired t fs fds) (ht : Entry t) (o : Opening) :
    Wired t (.redir o :: fs) (fds.redirect o.fd (.file o)) := by
  constructor
  · intro fd hfd
    by_cases heq : fd = o.fd
    · have hbelow : ∀ n < o.fd, (fds.get n).isSome := fun n hn => h.isSome ht (by omega)
      rw [FdTable.get_redirect hbelow, if_pos heq]
      have hbinds : (Frame.redir o).binds fd = some (.file o) := if_pos heq
      exact (wiring_of_binds hbinds).symm
    · rw [FdTable.get_redirect_of_open heq (h.isSome ht hfd), h.standard fd hfd]
      have hbinds : (Frame.redir o).binds fd = none := if_neg heq
      exact (wiring_of_not_binds hbinds).symm
  · intro fd hfd
    rcases fds.get_redirect_cases o.fd (.file o) fd with hget | hget | hget <;> rw [hget]
    · exact noPipeEnd_file o
    · exact noPipeEnd_none
    · exact h.others fd hfd

/-- PIPE: `pipe`. -/
theorem Wired.pipe (h : Wired t fs fds) (ht : Entry t) {fds' : FdTable Desc} {i rd wr : ℕ}
    (hp : fds.pipe (.pipeRead i) (.pipeWrite i) = (fds', rd, wr)) : WiredEnds t fs i rd wr fds' := by
  have hspec := fds.pipe_spec (.pipeRead i) (.pipeWrite i)
  rw [hp] at hspec
  obtain ⟨hne, hrd, hwr, hrdGet, hwrGet, hothers⟩ := hspec
  have hgt : ∀ {n}, fds.get n = none → 2 < n := by
    intro n hn
    by_contra hle
    have := h.isSome ht (Nat.not_lt.1 hle)
    rw [hn] at this
    exact absurd this nofun
  refine ⟨hne, hgt hrd, hgt hwr, hrdGet, hwrGet, fun fd hfd => ?_, fun fd hfd h₁ h₂ => ?_⟩
  · have hlt₁ := hgt hrd
    have hlt₂ := hgt hwr
    rw [hothers fd (by omega) (by omega), h.standard fd hfd]
  · rw [hothers fd h₁ h₂]
    exact h.others fd hfd

variable {i rd wr : ℕ}

theorem WiredEnds.isSome (h : WiredEnds t fs i rd wr fds) (ht : Entry t) (hfd : fd ≤ 2) :
    (fds.get fd).isSome :=
  (h.standard fd hfd).symm ▸ ht.wiring_isSome fs hfd

/-- `close(p[0]); close(p[1]);` -/
theorem WiredEnds.closeBoth (h : WiredEnds t fs i rd wr fds) :
    Wired t fs ((fds.close rd).close wr) := by
  obtain ⟨-, hrd, hwr, -, -, hstd, hothers⟩ := h
  constructor
  · intro fd hfd
    rw [FdTable.get_close, if_neg (by omega), FdTable.get_close, if_neg (by omega), hstd fd hfd]
  · intro fd hfd
    rw [FdTable.get_close, FdTable.get_close]
    by_cases h₁ : fd = wr
    · rw [if_pos h₁]
      exact noPipeEnd_none
    · by_cases h₂ : fd = rd
      · rw [if_neg h₁, if_pos h₂]
        exact noPipeEnd_none
      · rw [if_neg h₁, if_neg h₂]
        exact hothers fd hfd h₂ h₁

/-- `run_pipe_left` and `run_pipe_right`: a standard descriptor takes over one of the ends,
and the frame says which. -/
theorem WiredEnds.takeOver (h : WiredEnds t fs i rd wr fds) (ht : Entry t) {f : Frame} {d : Desc}
    {src dst : ℕ} (hdst : dst ≤ 2) (hsrc : 2 < src) (hd : fds.get src = some d)
    (hbinds : ∀ fd, f.binds fd = if fd = dst then some d else none) :
    Wired t (f :: fs) (fds.takeOver dst src rd wr) := by
  have hrd := h.rd_gt
  have hwr := h.wr_gt
  have hget : ∀ n, (fds.takeOver dst src rd wr).get n =
      if n = dst then some d else if n = rd ∨ n = wr then none else fds.get n :=
    FdTable.get_takeOver (fun n hn => h.isSome ht (by omega)) (by omega) hd (by omega) (by omega)
  constructor
  · intro fd hfd
    rw [hget fd]
    by_cases heq : fd = dst
    · rw [if_pos heq]
      exact (wiring_of_binds ((hbinds fd).trans (if_pos heq))).symm
    · rw [if_neg heq, if_neg (by omega), h.standard fd hfd]
      exact (wiring_of_not_binds ((hbinds fd).trans (if_neg heq))).symm
  · intro fd hfd
    rw [hget fd, if_neg (by omega)]
    by_cases hend : fd = rd ∨ fd = wr
    · rw [if_pos hend]
      exact noPipeEnd_none
    · rw [if_neg hend]
      exact h.others fd hfd (fun h => hend (.inl h)) (fun h => hend (.inr h))

end Wiring

/-! ### The children of a process -/

/-- The process waited for its own children only, each once, and `n` are left. -/
structure Process.Owes (p : Process) (n : ℕ) : Prop where
  forked_nodup : p.forked.Nodup
  reaped_nodup : p.reaped.Nodup
  own : p.reaped ⊆ p.forked
  left : p.forked.length = p.reaped.length + n

section Owes

variable {p p' : Process} {n q : ℕ}

theorem Process.Owes.congr (h : p.Owes n) (hforked : p'.forked = p.forked)
    (hreaped : p'.reaped = p.reaped) : p'.Owes n := by
  refine ⟨?_, ?_, ?_, ?_⟩
  · exact hforked ▸ h.forked_nodup
  · exact hreaped ▸ h.reaped_nodup
  · exact hforked ▸ hreaped ▸ h.own
  · exact hforked ▸ hreaped ▸ h.left

theorem Process.Owes.fork (h : p.Owes n) (hq : q ∉ p.forked) (hforked : p'.forked = p.forked ++ [q])
    (hreaped : p'.reaped = p.reaped) : p'.Owes (n + 1) := by
  have hleft := h.left
  refine ⟨?_, hreaped ▸ h.reaped_nodup, ?_, ?_⟩
  · rw [hforked, List.nodup_append]
    refine ⟨h.forked_nodup, List.nodup_singleton q, fun a ha b hb => ?_⟩
    rintro rfl
    exact hq (List.mem_singleton.1 hb ▸ ha)
  · rw [hforked, hreaped]
    exact fun a ha => List.mem_append_left _ (h.own ha)
  · rw [hforked, hreaped, List.length_append, List.length_singleton]
    omega

theorem Process.Owes.wait (h : p.Owes (n + 1)) (hq : q ∈ p.forked) (hnew : q ∉ p.reaped)
    (hforked : p'.forked = p.forked) (hreaped : p'.reaped = p.reaped ++ [q]) : p'.Owes n := by
  have hleft := h.left
  refine ⟨hforked ▸ h.forked_nodup, ?_, ?_, ?_⟩
  · rw [hreaped, List.nodup_append]
    refine ⟨h.reaped_nodup, List.nodup_singleton q, fun a ha b hb => ?_⟩
    rintro rfl
    exact hnew (List.mem_singleton.1 hb ▸ ha)
  · rw [hforked, hreaped]
    intro a ha
    rcases List.mem_append.1 ha with ha | ha
    · exact h.own ha
    · exact List.mem_singleton.1 ha ▸ hq
  · rw [hforked, hreaped, List.length_append, List.length_singleton]
    omega

/-- Where something is owed, a child is left that was not waited for. -/
theorem Process.Owes.exists_left (h : p.Owes (n + 1)) : ∃ q ∈ p.forked, q ∉ p.reaped := by
  by_contra hnone
  push Not at hnone
  have hle : p.forked.length ≤ p.reaped.length :=
    (List.subperm_of_subset h.forked_nodup hnone).length_le
  have hleft := h.left
  omega

/-- Where nothing is owed, all children were waited for. -/
theorem Process.Owes.perm (h : p.Owes 0) : p.reaped.Perm p.forked :=
  (List.subperm_of_subset h.reaped_nodup h.own).perm_of_length_le (Nat.le_of_eq h.left)

end Owes

/-! ### The invariant -/

/-- The node is a BACK. -/
def IsBack : Command → Prop
  | .back _ => True
  | _ => False

/-- What holds of a process at each place it can be at. -/
def Process.Good (root : Command) (t : FdTable Desc) (p : Process) : Prop :=
  match p.todo with
  | .run c => p.node = c ∧ Enclosed root p.frames c ∧ Wired t p.frames p.fds ∧ p.Owes 0
  | .pipeLeft c rd wr => ∃ i fs, p.frames = .pipeLeft i :: fs ∧ Enclosed root p.frames c ∧
      WiredEnds t fs i rd wr p.fds ∧ p.Owes 0
  | .pipeRight c rd wr => ∃ i fs, p.frames = .pipeRight i :: fs ∧ Enclosed root p.frames c ∧
      WiredEnds t fs i rd wr p.fds ∧ p.Owes 0
  | .secondFork c i rd wr => (∃ l, p.node = .pipe l c) ∧ Enclosed root p.frames p.node ∧
      WiredEnds t p.frames i rd wr p.fds ∧ (∀ j ∈ pipesOf p.frames, j < i) ∧ p.Owes 1
  | .closeBoth rd wr => ¬IsBack p.node ∧ (∃ i, WiredEnds t p.frames i rd wr p.fds) ∧ p.Owes 2
  | .wait n next => ¬IsBack p.node ∧ (∀ c ∈ next, Enclosed root p.frames c) ∧
      Wired t p.frames p.fds ∧ p.Owes n
  | .exec argv => p.node = .exec argv ∧ Enclosed root p.frames (.exec argv) ∧
      Wired t p.frames p.fds ∧ p.Owes 0
  | .exited => IsBack p.node ∧ p.Owes 1 ∨ ¬IsBack p.node ∧ p.Owes 0

/-- The pipes around the node of a process are different ones that were opened. -/
structure Process.PipesOk (p : Process) (pipes : ℕ) : Prop where
  pairwise : (pipesOf p.frames).Pairwise (fun i j => j < i)
  lt : ∀ i ∈ pipesOf p.frames, i < pipes
  opened : ∀ c i rd wr, p.todo = .secondFork c i rd wr → i < pipes

/-- What holds in every reachable state. -/
structure Inv (root : Command) (t : FdTable Desc) (s : Config) : Prop where
  good : ∀ (pid : ℕ) (p : Process), s.procs[pid]? = some p → p.Good root t
  pipes : ∀ (pid : ℕ) (p : Process), s.procs[pid]? = some p → p.PipesOk s.pipes
  child : ∀ (pid : ℕ) (p : Process), s.procs[pid]? = some p → ∀ q ∈ p.forked,
    ∃ c, s.procs[q]? = some c ∧ c.parent = some pid
  parent : ∀ (q : ℕ) (c : Process) (pid : ℕ), s.procs[q]? = some c → c.parent = some pid →
    ∃ p, s.procs[pid]? = some p ∧ q ∈ p.forked

section Invariant

variable {root : Command} {t : FdTable Desc} {s s' : Config} {pid : ℕ} {p p' c : Process}

theorem Process.PipesOk.mono {m n : ℕ} (h : p.PipesOk m) (hle : m ≤ n) : p.PipesOk n :=
  ⟨h.pairwise, fun i hi => (h.lt i hi).trans_le hle,
    fun c i rd wr htodo => (h.opened c i rd wr htodo).trans_le hle⟩

/-- The state after a step in which a process forks nothing. -/
theorem Config.getElem?_set (s : Config) (pid : ℕ) (p' : Process) (q : ℕ) :
    (s.set pid p').procs[q]? =
      if q = pid then (if pid < s.procs.length then some p' else none) else s.procs[q]? := by
  rw [Config.set, List.getElem?_set]
  by_cases h : q = pid
  · rw [if_pos h.symm, if_pos h]
  · rw [if_neg (Ne.symm h), if_neg h]

/-- The state after a step in which a process forks a child. -/
theorem Config.getElem?_fork (s : Config) (hlt : pid < s.procs.length) (p' c : Process) (q : ℕ) :
    (s.fork pid p' c).procs[q]? =
      if q = s.procs.length then some c
      else if q = pid then some { p' with forked := p'.forked ++ [s.procs.length] }
      else s.procs[q]? := by
  rw [Config.fork]
  grind

/-- A step of one process that forks nothing. -/
theorem Inv.set (h : Inv root t s) (hp : s.procs[pid]? = some p)
    (hparent : p'.parent = p.parent) (hforked : p'.forked = p.forked) (hgood : p'.Good root t)
    (hpipes : p'.PipesOk s.pipes) : Inv root t (s.set pid p') := by
  have hlt : pid < s.procs.length := (List.getElem?_eq_some_iff.1 hp).1
  have hget : ∀ {q : ℕ} {c : Process}, (s.set pid p').procs[q]? = some c →
      q = pid ∧ c = p' ∨ s.procs[q]? = some c := by
    intro q c hq
    rw [Config.getElem?_set, if_pos hlt] at hq
    by_cases he : q = pid
    · rw [if_pos he] at hq
      exact .inl ⟨he, (Option.some.inj hq).symm⟩
    · rw [if_neg he] at hq
      exact .inr hq
  have hput : ∀ {q : ℕ} {c : Process}, s.procs[q]? = some c →
      ∃ c' : Process, (s.set pid p').procs[q]? = some c' ∧
      c'.parent = c.parent ∧ c'.forked = c.forked := by
    intro q c hq
    rw [Config.getElem?_set, if_pos hlt]
    by_cases he : q = pid
    · subst he
      obtain rfl := Option.some.inj (hp.symm.trans hq)
      exact ⟨p', if_pos rfl, hparent, hforked⟩
    · exact ⟨c, (if_neg he).trans hq, rfl, rfl⟩
  refine ⟨fun q c hq => ?_, fun q c hq => ?_, fun q c hq k hk => ?_, fun k c q hk hpar => ?_⟩
  · rcases hget hq with ⟨-, rfl⟩ | hq
    · exact hgood
    · exact h.good q c hq
  · rcases hget hq with ⟨-, rfl⟩ | hq
    · exact hpipes
    · exact h.pipes q c hq
  · have hold : ∃ c' : Process, s.procs[k]? = some c' ∧ c'.parent = some q := by
      rcases hget hq with ⟨rfl, rfl⟩ | hq
      · exact h.child q p hp k (hforked ▸ hk)
      · exact h.child q c hq k hk
    obtain ⟨c', hc', hpar⟩ := hold
    obtain ⟨c'', hc'', hpar', -⟩ := hput hc'
    exact ⟨c'', hc'', hpar'.trans hpar⟩
  · have hold : ∃ c' : Process, s.procs[q]? = some c' ∧ k ∈ c'.forked := by
      rcases hget hk with ⟨rfl, rfl⟩ | hk
      · exact h.parent k p q hp (hparent ▸ hpar)
      · exact h.parent k c q hk hpar
    obtain ⟨c', hc', hmem⟩ := hold
    obtain ⟨c'', hc'', -, hfork⟩ := hput hc'
    exact ⟨c'', hc'', hfork ▸ hmem⟩

/-- The number of the next child is new to every process. -/
theorem Inv.length_notMem_forked (h : Inv root t s) (hp : s.procs[pid]? = some p) :
    s.procs.length ∉ p.forked := by
  intro hmem
  obtain ⟨c, hc, -⟩ := h.child pid p hp _ hmem
  exact absurd (List.getElem?_eq_some_iff.1 hc).1 (Nat.lt_irrefl _)

/-- A step of one process that forks a child. -/
theorem Inv.fork (h : Inv root t s) (hp : s.procs[pid]? = some p)
    (hparent : p'.parent = p.parent) (hforked : p'.forked = p.forked)
    (hchild : c.parent = some pid) (hnone : c.forked = [])
    (hgood : { p' with forked := p'.forked ++ [s.procs.length] }.Good root t)
    (hpipes : p'.PipesOk s.pipes) (hcgood : c.Good root t) (hcpipes : c.PipesOk s.pipes) :
    Inv root t (s.fork pid p' c) := by
  have hlt : pid < s.procs.length := (List.getElem?_eq_some_iff.1 hp).1
  generalize hp'' : { p' with forked := p'.forked ++ [s.procs.length] } = p'' at hgood
  have hforked' : p''.forked = p.forked ++ [s.procs.length] := by rw [← hp'', hforked]
  have hparent' : p''.parent = p.parent := by rw [← hp'', hparent]
  have hpipes' : p''.PipesOk s.pipes := by
    subst hp''
    exact ⟨hpipes.pairwise, hpipes.lt, hpipes.opened⟩
  have hgetEq := Config.getElem?_fork s hlt p' c
  rw [hp''] at hgetEq
  have hget : ∀ {q : ℕ} {d : Process}, (s.fork pid p' c).procs[q]? = some d →
      q = s.procs.length ∧ d = c ∨ q = pid ∧ d = p'' ∨ s.procs[q]? = some d := by
    intro q d hq
    rw [hgetEq] at hq
    by_cases he : q = s.procs.length
    · rw [if_pos he] at hq
      exact .inl ⟨he, (Option.some.inj hq).symm⟩
    · rw [if_neg he] at hq
      by_cases he' : q = pid
      · rw [if_pos he'] at hq
        exact .inr (.inl ⟨he', (Option.some.inj hq).symm⟩)
      · rw [if_neg he'] at hq
        exact .inr (.inr hq)
  have hput : ∀ {q : ℕ} {d : Process}, s.procs[q]? = some d →
      ∃ d' : Process, (s.fork pid p' c).procs[q]? = some d' ∧
      d'.parent = d.parent ∧ d.forked ⊆ d'.forked := by
    intro q d hq
    have hqlt := (List.getElem?_eq_some_iff.1 hq).1
    rw [hgetEq, if_neg (Nat.ne_of_lt hqlt)]
    by_cases he : q = pid
    · subst he
      obtain rfl := Option.some.inj (hp.symm.trans hq)
      refine ⟨p'', if_pos rfl, hparent', ?_⟩
      rw [hforked']
      exact List.subset_append_left _ _
    · exact ⟨d, (if_neg he).trans hq, rfl, List.Subset.refl _⟩
  have hpid : (s.fork pid p' c).procs[pid]? = some p'' := by
    rw [hgetEq, if_neg (Nat.ne_of_lt hlt), if_pos rfl]
  have hnew : (s.fork pid p' c).procs[s.procs.length]? = some c := by
    rw [hgetEq, if_pos rfl]
  refine ⟨fun q d hq => ?_, fun q d hq => ?_, fun q d hq k hk => ?_, fun k d q hk hpar => ?_⟩
  · rcases hget hq with ⟨-, rfl⟩ | ⟨-, rfl⟩ | hq
    · exact hcgood
    · exact hgood
    · exact h.good q d hq
  · rcases hget hq with ⟨-, rfl⟩ | ⟨-, rfl⟩ | hq
    · exact hcpipes
    · exact hpipes'
    · exact h.pipes q d hq
  · have hold : (k = s.procs.length ∧ q = pid) ∨ ∃ d' : Process, s.procs[k]? = some d' ∧
        d'.parent = some q := by
      rcases hget hq with ⟨-, rfl⟩ | ⟨rfl, rfl⟩ | hq
      · rw [hnone] at hk
        exact absurd hk List.not_mem_nil
      · rw [hforked'] at hk
        rcases List.mem_append.1 hk with hk | hk
        · exact .inr (h.child q p hp k hk)
        · exact .inl ⟨List.mem_singleton.1 hk, rfl⟩
      · exact .inr (h.child q d hq k hk)
    rcases hold with ⟨rfl, rfl⟩ | ⟨d', hd', hpar⟩
    · exact ⟨c, hnew, hchild⟩
    · obtain ⟨d'', hd'', hpar', -⟩ := hput hd'
      exact ⟨d'', hd'', hpar'.trans hpar⟩
  · have hold : (k = s.procs.length ∧ q = pid) ∨
        ∃ d' : Process, s.procs[q]? = some d' ∧ k ∈ d'.forked := by
      rcases hget hk with ⟨rfl, rfl⟩ | ⟨rfl, rfl⟩ | hk
      · exact .inl ⟨rfl, Option.some.inj (hpar.symm.trans hchild)⟩
      · exact .inr (h.parent k p q hp (hparent' ▸ hpar))
      · exact .inr (h.parent k d q hk hpar)
    rcases hold with ⟨rfl, rfl⟩ | ⟨d', hd', hmem⟩
    · refine ⟨p'', hpid, ?_⟩
      rw [hforked']
      exact List.mem_append_right _ (List.mem_singleton.2 rfl)
    · obtain ⟨d'', hd'', -, hsub⟩ := hput hd'
      exact ⟨d'', hd'', hsub hmem⟩

/-- A process that is at the same place but for its table, `todo`, node and what it
waited for, in a state where its frames stay. -/
theorem Process.PipesOk.stay {n : ℕ} (h : p.PipesOk n) (hframes : p'.frames = p.frames)
    (htodo : ∀ c i rd wr, p'.todo ≠ .secondFork c i rd wr) : p'.PipesOk n :=
  ⟨hframes ▸ h.pairwise, hframes ▸ h.lt, fun c i rd wr hc => absurd hc (htodo c i rd wr)⟩

/-- A process inside one more PIPE. -/
theorem Process.PipesOk.push {n i : ℕ} (h : p.PipesOk n) {f : Frame} (hf : f.pipe? = some i)
    (hframes : p'.frames = f :: p.frames) (hnew : ∀ j ∈ pipesOf p.frames, j < i) (hi : i < n)
    (htodo : ∀ c i rd wr, p'.todo ≠ .secondFork c i rd wr) : p'.PipesOk n := by
  have hpipes : pipesOf p'.frames = i :: pipesOf p.frames := by
    rw [pipesOf, hframes, List.filterMap_cons_some hf, pipesOf]
  refine ⟨?_, ?_, fun c i rd wr hc => absurd hc (htodo c i rd wr)⟩
  · rw [hpipes]
    exact List.pairwise_cons.2 ⟨hnew, h.pairwise⟩
  · rw [hpipes]
    intro j hj
    rcases List.mem_cons.1 hj with rfl | hj
    · exact hi
    · exact h.lt j hj

/-- A process that has just been forked owes nothing. -/
theorem Process.owes_child (pid : ℕ) (fds : FdTable Desc) (frames : List Frame) (node : Command)
    (todo : Todo) : (Process.child pid fds frames node todo).Owes 0 :=
  ⟨List.nodup_nil, List.nodup_nil, List.Subset.refl _, rfl⟩

/-- **Every step keeps the invariant.** -/
theorem Inv.step (h : Inv root t s) (ht : Entry t) (hp : s.procs[pid]? = some p)
    (hstep : Step s pid p s') : Inv root t s' := by
  have hg := h.good pid p hp
  have hpipes := h.pipes pid p hp
  have hfresh := h.length_notMem_forked hp
  rw [Process.Good] at hg
  cases hstep with
  | @redir c file mode fd htodo =>
    rw [htodo] at hg
    obtain ⟨-, henc, hwired, howes⟩ := hg
    refine h.set hp rfl rfl ?_ ?_
    · exact ⟨rfl, .redir henc, hwired.redirect ht ⟨file, mode, fd⟩, howes.congr rfl rfl⟩
    · exact ⟨hpipes.pairwise, hpipes.lt, nofun⟩
  | redirFails htodo =>
    rw [htodo] at hg
    obtain ⟨hnode, -, -, howes⟩ := hg
    refine h.set hp rfl rfl (.inr ⟨?_, howes.congr rfl rfl⟩) (hpipes.stay rfl nofun)
    exact hnode ▸ id
  | exec htodo =>
    rw [htodo] at hg
    obtain ⟨hnode, henc, hwired, howes⟩ := hg
    exact h.set hp rfl rfl ⟨hnode, henc, hwired, howes.congr rfl rfl⟩ (hpipes.stay rfl nofun)
  | execExits htodo =>
    rw [htodo] at hg
    obtain ⟨hnode, -, -, howes⟩ := hg
    refine h.set hp rfl rfl (.inr ⟨?_, howes.congr rfl rfl⟩) (hpipes.stay rfl nofun)
    exact hnode ▸ id
  | list htodo =>
    rw [htodo] at hg
    obtain ⟨hnode, henc, hwired, howes⟩ := hg
    refine h.fork hp rfl rfl rfl rfl ?_ (hpipes.stay rfl nofun) ?_ (hpipes.stay rfl nofun)
    · refine ⟨hnode ▸ id, fun c hc => ?_, hwired, howes.fork hfresh rfl rfl⟩
      obtain rfl := Option.some.inj hc
      exact .listRight henc
    · exact ⟨rfl, .listLeft henc, hwired, Process.owes_child ..⟩
  | @pipe l r htodo fds' rd wr hpipe =>
    rw [htodo] at hg
    obtain ⟨hnode, henc, hwired, howes⟩ := hg
    have hends := hwired.pipe ht hpipe
    have hinv : Inv root t { s with pipes := s.pipes + 1 } :=
      ⟨h.good, fun q c hq => (h.pipes q c hq).mono (Nat.le_succ _), h.child, h.parent⟩
    have hpipes' := hpipes.mono (Nat.le_succ _)
    refine hinv.fork hp rfl rfl rfl rfl ?_ ⟨hpipes'.pairwise, hpipes'.lt, ?_⟩ ?_ ?_
    · exact ⟨⟨l, hnode⟩, hnode ▸ henc, hends, hpipes.lt, howes.fork hfresh rfl rfl⟩
    · rintro c i rd wr hc
      cases hc
      exact Nat.lt_succ_self _
    · exact ⟨s.pipes, p.frames, rfl, .pipeLeft henc _, hends, Process.owes_child ..⟩
    · exact hpipes'.push rfl rfl hpipes.lt (Nat.lt_succ_self _) nofun
  | @secondFork r i rd wr htodo =>
    have hi := hpipes.opened _ _ _ _ htodo
    rw [htodo] at hg
    obtain ⟨⟨l, hnode⟩, henc, hends, hlt, howes⟩ := hg
    rw [hnode] at henc
    refine h.fork hp rfl rfl rfl rfl ?_ (hpipes.stay rfl nofun) ?_ ?_
    · exact ⟨hnode ▸ id, ⟨i, hends⟩, howes.fork hfresh rfl rfl⟩
    · exact ⟨i, p.frames, rfl, .pipeRight henc _, hends, Process.owes_child ..⟩
    · exact hpipes.push rfl rfl hlt hi nofun
  | closeBoth htodo =>
    rw [htodo] at hg
    obtain ⟨hnode, ⟨i, hends⟩, howes⟩ := hg
    refine h.set hp rfl rfl ?_ (hpipes.stay rfl nofun)
    exact ⟨hnode, nofun, hends.closeBoth, howes.congr rfl rfl⟩
  | pipeLeft htodo =>
    rw [htodo] at hg
    obtain ⟨i, fs, hframes, henc, hends, howes⟩ := hg
    have hwired := hends.takeOver ht (f := .pipeLeft i) (Nat.le_succ 1) hends.wr_gt hends.wr_get
      fun fd => rfl
    rw [← hframes] at hwired
    exact h.set hp rfl rfl ⟨rfl, henc, hwired, howes.congr rfl rfl⟩ (hpipes.stay rfl nofun)
  | pipeRight htodo =>
    rw [htodo] at hg
    obtain ⟨i, fs, hframes, henc, hends, howes⟩ := hg
    have hwired := hends.takeOver ht (f := .pipeRight i) (Nat.zero_le 2) hends.rd_gt hends.rd_get
      fun fd => rfl
    rw [← hframes] at hwired
    exact h.set hp rfl rfl ⟨rfl, henc, hwired, howes.congr rfl rfl⟩ (hpipes.stay rfl nofun)
  | @wait n next htodo q c hq hparent hexit hnew =>
    rw [htodo] at hg
    obtain ⟨hnode, henc, hwired, howes⟩ := hg
    obtain ⟨p', hp', hmem⟩ := h.parent q c pid hq hparent
    obtain rfl := Option.some.inj (hp.symm.trans hp')
    refine h.set hp rfl rfl ?_ (hpipes.stay rfl nofun)
    exact ⟨hnode, henc, hwired, howes.wait hmem hnew rfl rfl⟩
  | waitFails htodo hnone =>
    rw [htodo] at hg
    obtain ⟨-, -, -, howes⟩ := hg
    -- a child is left, so `wait` finds one
    obtain ⟨q, hq, hnew⟩ := howes.exists_left
    obtain ⟨c, hc, hparent⟩ := h.child pid p hp q hq
    exact absurd (hnone q c hc hparent) hnew
  | next htodo =>
    rw [htodo] at hg
    obtain ⟨-, henc, hwired, howes⟩ := hg
    refine h.set hp rfl rfl ?_ (hpipes.stay rfl nofun)
    exact ⟨rfl, henc _ rfl, hwired, howes.congr rfl rfl⟩
  | exit htodo =>
    rw [htodo] at hg
    obtain ⟨hnode, -, -, howes⟩ := hg
    exact h.set hp rfl rfl (.inr ⟨hnode, howes.congr rfl rfl⟩) (hpipes.stay rfl nofun)
  | back htodo =>
    rw [htodo] at hg
    obtain ⟨hnode, henc, hwired, howes⟩ := hg
    refine h.fork hp rfl rfl rfl rfl ?_ (hpipes.stay rfl nofun) ?_ (hpipes.stay rfl nofun)
    · exact .inl ⟨hnode ▸ trivial, howes.fork hfresh rfl rfl⟩
    · exact ⟨rfl, .back henc, hwired, Process.owes_child ..⟩

theorem Inv.start (root : Command) (ht : Entry t) : Inv root t (.start root t) := by
  have hone : ∀ {pid : ℕ} {p : Process}, (Config.start root t).procs[pid]? = some p →
      p = ⟨none, t, .run root, root, [], [], []⟩ := by
    intro pid p hp
    exact List.mem_singleton.1 (List.mem_of_getElem? hp)
  refine ⟨fun pid p hp => ?_, fun pid p hp => ?_, fun pid p hp q hq => ?_, fun q c pid hq hpar => ?_⟩
  · obtain rfl := hone hp
    refine ⟨rfl, .root, ⟨fun fd _ => rfl, fun fd _ => ht.noPipeEnd fd⟩, ?_⟩
    exact ⟨List.nodup_nil, List.nodup_nil, List.Subset.refl _, rfl⟩
  · obtain rfl := hone hp
    exact ⟨List.Pairwise.nil, nofun, nofun⟩
  · obtain rfl := hone hp
    exact absurd hq List.not_mem_nil
  · obtain rfl := hone hq
    exact absurd hpar nofun

theorem Reaches.inv (h : Reaches root t s) (ht : Entry t) : Inv root t s := by
  induction h with
  | start => exact Inv.start root ht
  | step _ hp hstep ih => exact ih.step ht hp hstep

/-- Descriptor 2 is never an end of a pipe. -/
theorem noPipeEnd_wiring_two (ht : Entry t) (fs : List Frame) : NoPipeEnd (wiring t fs 2) := by
  induction fs with
  | nil => exact ht.noPipeEnd 2
  | cons f fs ih =>
    rw [wiring_cons]
    cases f with
    | pipeLeft i => exact ih
    | pipeRight i => exact ih
    | redir o =>
      rw [Frame.binds]
      split_ifs
      · exact noPipeEnd_file o
      · exact ih

theorem Process.PipesOk.nodup {n : ℕ} (h : p.PipesOk n) : (pipesOf p.frames).Nodup :=
  h.pairwise.imp fun hlt => Nat.ne_of_gt hlt

/-- What an EXEC leaf that runs finds: the nearest PIPE or REDIR around it binds each
standard descriptor, and the other descriptors are no ends of pipes.  The pipes of the
PIPE nodes around it are different ones. -/
structure Process.AtLeaf (root : Command) (t : FdTable Desc) (p : Process)
    (argv : List (List Byte)) : Prop where
  leaf : Enclosed root p.frames (.exec argv)
  pipes_nodup : (pipesOf p.frames).Nodup
  stdin : p.fds.get 0 = wiring t p.frames 0
  stdout : p.fds.get 1 = wiring t p.frames 1
  noPipeEnd : ∀ fd, 2 ≤ fd → NoPipeEnd (p.fds.get fd)
  standard : ∀ fd ≤ 2, (p.fds.get fd).isSome

/-- How a process waits: for children of its own and for each once; `wait` is called only
where a child is left.  No child is left where a LIST or PIPE starts or where the process
exits, except for the one child of a BACK. -/
structure Process.WaitsForOwn (p : Process) : Prop where
  own : p.reaped ⊆ p.forked
  once : p.reaped.Nodup
  finds : ∀ n next, p.todo = .wait (n + 1) next → ∃ q ∈ p.forked, q ∉ p.reaped
  list : ∀ l r, p.todo = .run (.list l r) → p.reaped.Perm p.forked
  pipe : ∀ l r, p.todo = .run (.pipe l r) → p.reaped.Perm p.forked
  exited : p.todo = .exited → ¬IsBack p.node → p.reaped.Perm p.forked
  back : p.todo = .exited → IsBack p.node → ∃ q, p.forked.Perm (q :: p.reaped)

/-- Where one child is owed, the others were waited for. -/
theorem Process.Owes.exists_perm (h : p.Owes 1) : ∃ q, p.forked.Perm (q :: p.reaped) := by
  obtain ⟨q, hq, hnew⟩ := h.exists_left
  have hsub : (q :: p.reaped) ⊆ p.forked := List.cons_subset.2 ⟨hq, h.own⟩
  have hnodup : (q :: p.reaped).Nodup := List.nodup_cons.2 ⟨hnew, h.reaped_nodup⟩
  have hleft := h.left
  refine ⟨q, ((List.subperm_of_subset hnodup hsub).perm_of_length_le ?_).symm⟩
  rw [List.length_cons, hleft]

theorem Inv.waitsForOwn (h : Inv root t s) (hp : s.procs[pid]? = some p) : p.WaitsForOwn := by
  have hg := h.good pid p hp
  rw [Process.Good] at hg
  have howes : ∃ n, p.Owes n := by
    split at hg
    · exact ⟨0, hg.2.2.2⟩
    · obtain ⟨-, -, -, -, -, howes⟩ := hg
      exact ⟨0, howes⟩
    · obtain ⟨-, -, -, -, -, howes⟩ := hg
      exact ⟨0, howes⟩
    · exact ⟨1, hg.2.2.2.2⟩
    · exact ⟨2, hg.2.2⟩
    · exact ⟨_, hg.2.2.2⟩
    · exact ⟨0, hg.2.2.2⟩
    · rcases hg with ⟨-, howes⟩ | ⟨-, howes⟩
      · exact ⟨1, howes⟩
      · exact ⟨0, howes⟩
  obtain ⟨n, hn⟩ := howes
  refine ⟨hn.own, hn.reaped_nodup, ?_, ?_, ?_, ?_, ?_⟩
  · intro k next htodo
    rw [htodo] at hg
    exact hg.2.2.2.exists_left
  · intro l r htodo
    rw [htodo] at hg
    exact hg.2.2.2.perm
  · intro l r htodo
    rw [htodo] at hg
    exact hg.2.2.2.perm
  · intro htodo hback
    rw [htodo] at hg
    rcases hg with ⟨hnode, -⟩ | ⟨-, howes⟩
    · exact absurd hnode hback
    · exact howes.perm
  · intro htodo hback
    rw [htodo] at hg
    rcases hg with ⟨-, howes⟩ | ⟨hnode, -⟩
    · exact howes.exists_perm
    · exact absurd hback hnode

theorem Inv.atLeaf (h : Inv root t s) (ht : Entry t) (hp : s.procs[pid]? = some p)
    {argv : List (List Byte)} (htodo : p.todo = .exec argv) : p.AtLeaf root t argv := by
  have hg := h.good pid p hp
  rw [Process.Good, htodo] at hg
  obtain ⟨-, henc, hwired, -⟩ := hg
  refine ⟨henc, (h.pipes pid p hp).nodup, hwired.standard 0 (by omega), hwired.standard 1 (by omega),
    fun fd hfd => ?_, fun fd hfd => hwired.isSome ht hfd⟩
  rcases Nat.eq_or_lt_of_le hfd with rfl | hlt
  · rw [hwired.standard 2 (Nat.le_refl 2)]
    exact noPipeEnd_wiring_two ht p.frames
  · exact hwired.others fd hlt

/-- **What the processes of a command tree hold and wait for**, in every order of their
steps: each EXEC leaf runs with the descriptors of the nearest PIPE and REDIR nodes around
it and without any other end of a pipe, and each process waits for its own children. -/
theorem runcmd_wiring (ht : Entry t) (h : Reaches root t s) (hp : s.procs[pid]? = some p) :
    (∀ argv, p.todo = .exec argv → p.AtLeaf root t argv) ∧ p.WaitsForOwn :=
  ⟨fun _ htodo => (h.inv ht).atLeaf ht hp htodo, (h.inv ht).waitsForOwn hp⟩

end Invariant

/-! ### Two trees -/

theorem entry_stdTable : Entry stdTable := by
  refine ⟨fun fd hfd => ?_, fun fd i => ?_⟩
  · have hget : stdTable.get fd = some (.inherited fd) := if_pos (by omega)
    rw [hget]
    rfl
  · rw [stdTable]
    dsimp only
    split_ifs
    · exact ⟨nofun, nofun⟩
    · exact ⟨nofun, nofun⟩

/-- A step of the process `pid`. -/
theorem Reaches.goOn {root : Command} {t : FdTable Desc} {s s' : Config} (h : Reaches root t s)
    (pid : ℕ) {p : Process} (hp : s.procs[pid]? = some p) (hstep : Step s pid p s') :
    Reaches root t s' := .step h hp hstep

/-- The process of a tree with the standard descriptors, that forked and waited for
nothing. -/
def aloneAt (c : Command) (todo : Todo) : Process := ⟨none, stdTable, todo, c, [], [], []⟩

/-- The tree of `e>o | f`. -/
def outputAndPipe : Command :=
  .pipe (.redir (.exec [[101]]) [111] [.wronly, .creat, .trunc] 1) (.exec [[102]])

/-- Both commands of `e>o | f` at their leaves, and the shell's child when the first has exited. -/
theorem reaches_outputAndPipe : ∃ s s', Reaches outputAndPipe stdTable s ∧
    Reaches outputAndPipe stdTable s' ∧
    (∃ p, s.procs[1]? = some p ∧ p.todo = .exec [[101]] ∧
      p.frames = [.redir ⟨[111], [.wronly, .creat, .trunc], 1⟩, .pipeLeft 0]) ∧
    (∃ p, s.procs[2]? = some p ∧ p.todo = .exec [[102]] ∧ p.frames = [.pipeRight 0]) ∧
    ∃ p, s'.procs[0]? = some p ∧ p.todo = .wait 1 none ∧ p.forked = [1, 2] ∧ p.reaped = [1] := by
  have hstart : Reaches outputAndPipe stdTable (.start outputAndPipe stdTable) := .start
  have hpipe := hstart.goOn 0 rfl (.pipe rfl rfl)
  have hfork := hpipe.goOn 0 rfl (.secondFork rfl)
  have hclose := hfork.goOn 0 rfl (.closeBoth rfl)
  have hleft := hclose.goOn 1 rfl (.pipeLeft rfl)
  have hopen := hleft.goOn 1 rfl (.redir rfl)
  have hfirst := hopen.goOn 1 rfl (.exec rfl)
  have hright := hfirst.goOn 2 rfl (.pipeRight rfl)
  have hboth := hright.goOn 2 rfl (.exec rfl)
  have hexit := hboth.goOn 1 rfl (.execExits rfl)
  have hwait := hexit.goOn 0 rfl (.wait rfl (q := 1) rfl rfl rfl (by decide))
  exact ⟨_, _, hboth, hwait, ⟨_, rfl, rfl, rfl⟩, ⟨_, rfl, rfl, rfl⟩, _, rfl, rfl, rfl, rfl⟩

theorem runcmd_wiring_pipe : ∃ s s', Reaches outputAndPipe stdTable s ∧
    Reaches outputAndPipe stdTable s' ∧
    (∃ p, s.procs[1]? = some p ∧
      p.frames = [.redir ⟨[111], [.wronly, .creat, .trunc], 1⟩, .pipeLeft 0] ∧
      p.AtLeaf outputAndPipe stdTable [[101]]) ∧
    (∃ p, s.procs[2]? = some p ∧ p.frames = [.pipeRight 0] ∧
      p.AtLeaf outputAndPipe stdTable [[102]]) ∧
    ∃ p, s'.procs[0]? = some p ∧ p.todo = .wait 1 none ∧ p.forked = [1, 2] ∧ p.reaped = [1] ∧
      p.WaitsForOwn := by
  obtain ⟨s, s', h, h', ⟨p, hp, htodo, hframes⟩, ⟨q, hq, hqtodo, hqframes⟩, o, ho, hwait, hforked,
    hreaped⟩ := reaches_outputAndPipe
  exact ⟨s, s', h, h', ⟨p, hp, hframes, (runcmd_wiring entry_stdTable h hp).1 _ htodo⟩,
    ⟨q, hq, hqframes, (runcmd_wiring entry_stdTable h hq).1 _ hqtodo⟩,
    o, ho, hwait, hforked, hreaped, (runcmd_wiring entry_stdTable h' ho).2⟩

/-- **A background command is not waited for.**  The process of `e &` forks a child and
exits. -/
theorem back_not_waited : ∃ s p, Reaches (.back (.exec [[101]])) stdTable s ∧
    s.procs[0]? = some p ∧ p.todo = .exited ∧ ¬p.reaped.Perm p.forked := by
  have hstep : Step (.start (.back (.exec [[101]])) stdTable) 0
      (aloneAt (.back (.exec [[101]])) (.run (.back (.exec [[101]])))) _ := .back rfl
  refine ⟨_, _, .step .start rfl hstep, rfl, rfl, fun h => ?_⟩
  exact absurd h.length_eq (by decide)

end Shell
end V6User
