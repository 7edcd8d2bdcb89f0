import V6User.Base.Replace
import V6User.Shell.Runcmd

/-!
# The runs of a command tree

`programs/sh/sh.c`: `runcmd`, carried out by the processes of `V6User.Shell.Runcmd` in any
order.  Every `fork`, `pipe` and `dup` succeeds there, in all the results of this module: where
one fails, `panic` ends the process at once, and it leaves behind what it forked and did not wait
for.  An `open` may fail, and then the process exits.

Each EXEC leaf of the tree is at every moment at one place (`Process.share`): a process still
has to run it, has begun it, or gave it up with a redirection that failed.  No process waits for
ever, and every run ends (`runcmd_completes`).  Where a process goes on with a command, those
that it forked before have finished, with everything below them that is not in the background
(`runcmd_in_order`), and the ends of a pipe are in no other hands than those of its two commands
(`runcmd_pipe_ends`).
-/

namespace V6User
namespace Shell

/-- The words of the EXEC leaves of a tree, from left to right. -/
def leaves : Command → List (List (List Byte))
  | .exec argv => [argv]
  | .redir c _ _ _ => leaves c
  | .pipe l r => leaves l ++ leaves r
  | .list l r => leaves l ++ leaves r
  | .back c => leaves c

/-- The leaves that a process still has to run, or to fork a process for. -/
def Todo.pending : Todo → List (List (List Byte))
  | .run c | .pipeLeft c _ _ | .pipeRight c _ _ | .secondFork c _ _ _ | .wait _ (some c) => leaves c
  | .closeBoth _ _ | .wait _ none | .exec _ | .exited => []

/-- The leaf that a process has begun. -/
def Process.begun (p : Process) : List (List (List Byte)) :=
  match p.todo, p.node with
  | .exec _, .exec argv | .exited, .exec argv => [argv]
  | _, _ => []

/-- The leaves below a redirection that failed. -/
def Process.dropped (p : Process) : List (List (List Byte)) :=
  match p.todo, p.node with
  | .exited, .redir c _ _ _ => leaves c
  | _, _ => []

/-- The leaves that are with a process. -/
def Process.share (p : Process) : List (List (List Byte)) :=
  p.begun ++ p.dropped ++ p.todo.pending

def Config.begun (s : Config) : List (List (List Byte)) := s.procs.flatMap Process.begun

def Config.dropped (s : Config) : List (List (List Byte)) := s.procs.flatMap Process.dropped

def Config.pending (s : Config) : List (List (List Byte)) := s.procs.flatMap (·.todo.pending)

/-- How many steps a process with a tree can make, with all that it forks. -/
def work : Command → ℕ
  | .exec _ => 2
  | .redir c _ _ _ => work c + 1
  | .pipe l r => work l + work r + 8
  | .list l r => work l + work r + 3
  | .back c => work c + 1

def Todo.work : Todo → ℕ
  | .run c => Shell.work c
  | .pipeLeft c _ _ | .pipeRight c _ _ => Shell.work c + 1
  | .secondFork c _ _ _ => Shell.work c + 6
  | .closeBoth _ _ => 4
  | .wait n none => n + 1
  | .wait n (some c) => n + 1 + Shell.work c
  | .exec _ => 1
  | .exited => 0

def Config.work (s : Config) : ℕ := (s.procs.map (·.todo.work)).sum

/-- Some process makes a step. -/
def Config.Next (s s' : Config) : Prop := ∃ pid p, s.procs[pid]? = some p ∧ Step s pid p s'

/-- Every process has exited. -/
def Config.Final (s : Config) : Prop := ∀ (pid : ℕ) (p : Process), s.procs[pid]? = some p →
  p.todo = .exited

/-- The process has exited. -/
def Config.Exited (s : Config) (q : ℕ) : Prop :=
  ∃ c, s.procs[q]? = some c ∧ c.todo = .exited

/-- The process has exited, and so has everything that it forked, but for what it left in the
background. -/
inductive Finished (s : Config) : ℕ → Prop
  | intro {pid : ℕ} {p : Process} (hp : s.procs[pid]? = some p) (hexit : p.todo = .exited)
    (hchildren : ¬IsBack p.node → ∀ q ∈ p.forked, Finished s q) : Finished s pid

section Runs

variable {root : Command} {t : FdTable Desc} {s s' : Config} {pid : ℕ} {p p' c : Process}

/-! ### Every run ends -/

theorem work_set (hp : s.procs[pid]? = some p) (hlt : p'.todo.work < p.todo.work) :
    (s.set pid p').work < s.work := by
  have hsum := sum_map_set (f := fun q : Process => q.todo.work) hp p'
  change ((s.procs.set pid p').map fun q : Process => q.todo.work).sum < s.work
  rw [Config.work]
  omega

theorem work_fork (hp : s.procs[pid]? = some p) (hlt : p'.todo.work + c.todo.work < p.todo.work) :
    (s.fork pid p' c).work < s.work := by
  have hsum := sum_map_set (f := fun q : Process => q.todo.work) hp
    { p' with forked := p'.forked ++ [s.procs.length] }
  rw [Config.work, Config.work, Config.fork, List.map_append, List.sum_append, List.map_singleton,
    List.sum_singleton]
  dsimp only at hsum ⊢
  omega

/-- **Every step leaves less to do.** -/
theorem Config.Next.work_lt (h : s.Next s') : s'.work < s.work := by
  obtain ⟨pid, p, hp, hstep⟩ := h
  cases hstep with
  | redir htodo => exact work_set hp (by simp [htodo, Todo.work, Process.goto, Shell.work])
  | redirFails htodo => exact work_set hp (by simp [htodo, Todo.work, Shell.work])
  | exec htodo => exact work_set hp (by simp [htodo, Todo.work, Shell.work])
  | execExits htodo => exact work_set hp (by simp [htodo, Todo.work])
  | list htodo =>
    exact work_fork hp (by simp only [htodo, Todo.work, Process.child, Shell.work]; omega)
  | @pipe l r htodo fds rd wr hpipe =>
    refine work_fork (s := { s with pipes := s.pipes + 1 }) hp ?_
    simp only [htodo, Todo.work, Process.child, Shell.work]
    omega
  | secondFork htodo =>
    exact work_fork hp (by simp only [htodo, Todo.work, Process.child]; omega)
  | closeBoth htodo => exact work_set hp (by simp [htodo, Todo.work])
  | pipeLeft htodo => exact work_set hp (by simp [htodo, Todo.work, Process.goto])
  | pipeRight htodo => exact work_set hp (by simp [htodo, Todo.work, Process.goto])
  | @wait n next htodo q c hq hparent hexit hnew =>
    refine work_set hp ?_
    cases next with
    | none => simp [htodo, Todo.work]
    | some c => simp [htodo, Todo.work]
  | @waitFails n next htodo hnone =>
    refine work_set hp ?_
    cases next with
    | none => simp [htodo, Todo.work]
    | some c => simp [htodo, Todo.work]
  | next htodo => exact work_set hp (by simp [htodo, Todo.work, Process.goto])
  | exit htodo => exact work_set hp (by simp [htodo, Todo.work])
  | back htodo => exact work_fork hp (by simp [htodo, Todo.work, Process.child, Shell.work])

/-! ### Where the leaves are -/

/-- Up to an EXEC leaf or its exit, a process has what it still has to run. -/
theorem share_of_todo {todo : Todo} (h : p.todo = todo) (hexec : ∀ argv, todo ≠ .exec argv)
    (hexited : todo ≠ .exited) : p.share = todo.pending := by
  rw [Process.share, Process.begun, Process.dropped, h]
  cases todo with
  | exec argv => exact absurd rfl (hexec argv)
  | exited => exact absurd rfl hexited
  | _ => rfl

/-- The share of a process is that of any other at the same place. -/
theorem share_congr {q : Process} (htodo : p.todo = q.todo) (hnode : p.node = q.node) :
    p.share = q.share := by
  rw [Process.share, Process.share, Process.begun, Process.begun, Process.dropped, Process.dropped,
    htodo, hnode]

/-- A process closes the ends of a pipe, and waits without going on, at a PIPE only. -/
structure Process.AtPipe (p : Process) : Prop where
  closing : ∀ rd wr, p.todo = .closeBoth rd wr → ∃ l r, p.node = .pipe l r
  waiting : ∀ n, p.todo = .wait n none → ∃ l r, p.node = .pipe l r

@[simp] theorem Process.todo_goto (cmd : Command) : (p.goto cmd).todo = .run cmd := rfl

@[simp] theorem Process.todo_child (parent : ℕ) (fds : FdTable Desc) (frames : List Frame)
    (node : Command) (todo : Todo) : (Process.child parent fds frames node todo).todo = todo := rfl

theorem atPipe_of_ne (hclosing : ∀ rd wr, p.todo ≠ .closeBoth rd wr)
    (hwaiting : ∀ n, p.todo ≠ .wait n none) : p.AtPipe :=
  ⟨fun rd wr h => absurd h (hclosing rd wr), fun n h => absurd h (hwaiting n)⟩

/-- Where the leaves of the tree are: each with one process. -/
structure Shared (root : Command) (s : Config) : Prop where
  perm : (leaves root).Perm (s.procs.flatMap Process.share)
  atPipe : ∀ (pid : ℕ) (p : Process), s.procs[pid]? = some p → p.AtPipe

/-- What holds of every process, after a step of one that forks nothing. -/
theorem Config.forall_set {P : Process → Prop}
    (h : ∀ (q : ℕ) (c : Process), s.procs[q]? = some c → P c) (hp' : P p') :
    ∀ (q : ℕ) (c : Process), (s.set pid p').procs[q]? = some c → P c := by
  intro q c hq
  rw [Config.getElem?_set] at hq
  split_ifs at hq with hpid hlt
  · exact Option.some.inj hq ▸ hp'
  · exact h q c hq

/-- What holds of every process, after a step of one that forks another. -/
theorem Config.forall_fork {P : Process → Prop}
    (h : ∀ (q : ℕ) (c : Process), s.procs[q]? = some c → P c) (hp : s.procs[pid]? = some p)
    (hp' : P { p' with forked := p'.forked ++ [s.procs.length] }) (hc : P c) :
    ∀ (q : ℕ) (c' : Process), (s.fork pid p' c).procs[q]? = some c' → P c' := by
  intro q c' hq
  rw [Config.getElem?_fork s (List.getElem?_eq_some_iff.1 hp).1] at hq
  split_ifs at hq with hnew hpid
  · exact Option.some.inj hq ▸ hc
  · exact Option.some.inj hq ▸ hp'
  · exact h q c' hq

theorem Shared.set (h : Shared root s) (hp : s.procs[pid]? = some p) (hshare : p.share = p'.share)
    (hat : p'.AtPipe) : Shared root (s.set pid p') := by
  refine ⟨?_, Config.forall_set h.atPipe hat⟩
  have hset := perm_flatMap_set (f := Process.share) (b := p') (e := []) hp (by rw [hshare]; simp)
  rw [List.append_nil] at hset
  exact h.perm.trans hset

theorem Shared.fork (h : Shared root s) (hp : s.procs[pid]? = some p)
    (hshare : p.share.Perm (p'.share ++ c.share)) (hat : p'.AtPipe) (hatc : c.AtPipe) :
    Shared root (s.fork pid p' c) := by
  refine ⟨?_, Config.forall_fork h.atPipe hp ⟨hat.closing, hat.waiting⟩ hatc⟩
  have hset := perm_flatMap_set (f := Process.share) (e := c.share) hp
    (b := { p' with forked := p'.forked ++ [s.procs.length] }) hshare
  rw [Config.fork, List.flatMap_append, List.flatMap_singleton]
  exact h.perm.trans hset

/-- **No step loses or doubles a leaf.** -/
theorem Shared.step (h : Shared root s) (hinv : Inv root t s) (hp : s.procs[pid]? = some p)
    (hstep : Step s pid p s') : Shared root s' := by
  have hg := hinv.good pid p hp
  have hat := h.atPipe pid p hp
  rw [Process.Good] at hg
  cases hstep with
  | redir htodo =>
    exact h.set hp (share_of_todo htodo (by simp) (by simp)) (atPipe_of_ne (by simp) (by simp))
  | @redirFails c file mode fd htodo =>
    rw [htodo] at hg
    refine h.set hp ?_ (atPipe_of_ne (by simp) (by simp))
    have hexit : (aloneAt (.redir c file mode fd) .exited).share =
        ({ p with fds := p.fds.close fd, todo := .exited } : Process).share :=
      share_congr rfl hg.1.symm
    rw [share_of_todo htodo (by simp) (by simp), ← hexit]
    exact (List.append_nil (leaves c)).symm
  | @exec argv htodo =>
    rw [htodo] at hg
    refine h.set hp ?_ (atPipe_of_ne (by simp) (by simp))
    rw [share_of_todo htodo (by simp) (by simp)]
    exact share_congr (p := aloneAt (.exec argv) (.exec argv)) rfl hg.1.symm
  | @execExits argv htodo =>
    rw [htodo] at hg
    refine h.set hp ?_ (atPipe_of_ne (by simp) (by simp))
    rw [share_congr (q := aloneAt (.exec argv) (.exec argv)) htodo hg.1]
    exact share_congr (p := aloneAt (.exec argv) .exited) rfl hg.1.symm
  | list htodo =>
    refine h.fork hp ?_ (atPipe_of_ne (by simp) (by simp)) (atPipe_of_ne (by simp) (by simp))
    rw [share_of_todo htodo (by simp) (by simp)]
    exact List.perm_append_comm
  | @pipe l r htodo fds rd wr hpipe =>
    have hmore : Shared root { s with pipes := s.pipes + 1 } := ⟨h.perm, h.atPipe⟩
    refine hmore.fork hp ?_ (atPipe_of_ne (by simp) (by simp)) (atPipe_of_ne (by simp) (by simp))
    rw [share_of_todo htodo (by simp) (by simp)]
    exact List.perm_append_comm
  | @secondFork r i rd wr htodo =>
    rw [htodo] at hg
    obtain ⟨⟨l, hnode⟩, -⟩ := hg
    refine h.fork hp ?_ ⟨fun _ _ _ => ⟨l, r, hnode⟩, by simp⟩ (atPipe_of_ne (by simp) (by simp))
    rw [share_of_todo htodo (by simp) (by simp)]
    exact .refl _
  | closeBoth htodo =>
    exact h.set hp (share_of_todo htodo (by simp) (by simp))
      ⟨by simp, fun _ _ => hat.closing _ _ htodo⟩
  | pipeLeft htodo =>
    exact h.set hp (share_of_todo htodo (by simp) (by simp)) (atPipe_of_ne (by simp) (by simp))
  | pipeRight htodo =>
    exact h.set hp (share_of_todo htodo (by simp) (by simp)) (atPipe_of_ne (by simp) (by simp))
  | @wait n next htodo q c hq hparent hexit hnew =>
    refine h.set hp ?_ ⟨by simp, fun m hm => hat.waiting (n + 1) ?_⟩
    · rw [share_of_todo htodo (by simp) (by simp)]
      cases next <;> rfl
    · rw [htodo, (Todo.wait.inj hm).2]
  | @waitFails n next htodo hnone =>
    refine h.set hp ?_ ⟨by simp, fun m hm => hat.waiting (n + 1) ?_⟩
    · rw [share_of_todo htodo (by simp) (by simp)]
      cases next <;> rfl
    · rw [htodo, (Todo.wait.inj hm).2]
  | next htodo =>
    exact h.set hp (share_of_todo htodo (by simp) (by simp)) (atPipe_of_ne (by simp) (by simp))
  | exit htodo =>
    obtain ⟨l, r, hnode⟩ := hat.waiting _ htodo
    refine h.set hp ?_ (atPipe_of_ne (by simp) (by simp))
    rw [share_of_todo htodo (by simp) (by simp)]
    exact share_congr (p := aloneAt (.pipe l r) .exited) rfl hnode.symm
  | @back c htodo =>
    rw [htodo] at hg
    refine h.fork hp ?_ (atPipe_of_ne (by simp) (by simp)) (atPipe_of_ne (by simp) (by simp))
    have hexit : (aloneAt (.back c) .exited).share = ({ p with todo := .exited } : Process).share :=
      share_congr rfl hg.1.symm
    rw [share_of_todo htodo (by simp) (by simp), ← hexit]
    exact .refl _

theorem Shared.start (root : Command) (t : FdTable Desc) : Shared root (.start root t) := by
  refine ⟨?_, fun pid p hp => ?_⟩
  · rw [Config.start, List.flatMap_singleton]
    exact .refl _
  · obtain rfl := List.mem_singleton.1 (List.mem_of_getElem? hp)
    exact atPipe_of_ne (by simp) (by simp)

theorem Reaches.shared (h : Reaches root t s) (ht : Entry t) : Shared root s := by
  induction h with
  | start => exact Shared.start root t
  | step hreach hp hstep ih => exact ih.step (hreach.inv ht) hp hstep

/-! ### No process waits for ever -/

/-- A process is forked after the one that forks it, and one that was waited for has exited. -/
structure InOrder (s : Config) : Prop where
  later : ∀ (pid : ℕ) (p : Process), s.procs[pid]? = some p → ∀ q ∈ p.forked, pid < q
  exited : ∀ (pid : ℕ) (p : Process), s.procs[pid]? = some p → ∀ q ∈ p.reaped,
    s.Exited q

theorem InOrder.set (h : InOrder s) (hp : s.procs[pid]? = some p) (hlive : p.todo ≠ .exited)
    (hforked : p'.forked = p.forked)
    (hreaped : ∀ q ∈ p'.reaped, q ∈ p.reaped ∨ s.Exited q) :
    InOrder (s.set pid p') := by
  -- a process that has exited is not the one that makes the step
  have hstay : ∀ q, s.Exited q → (s.set pid p').Exited q := by
    rintro q ⟨c, hq, hexit⟩
    refine ⟨c, ?_, hexit⟩
    rw [Config.getElem?_set, if_neg, hq]
    rintro rfl
    exact hlive (Option.some.inj (hp.symm.trans hq) ▸ hexit)
  refine ⟨fun q c hq => ?_, fun q c hq r hr => hstay r ?_⟩
  · rw [Config.getElem?_set] at hq
    split_ifs at hq with hpid hlt
    · obtain rfl := Option.some.inj hq
      rw [hforked, hpid]
      exact h.later pid p hp
    · exact h.later q c hq
  · rw [Config.getElem?_set] at hq
    split_ifs at hq with hpid hlt
    · obtain rfl := Option.some.inj hq
      exact (hreaped r hr).elim (h.exited pid p hp r) id
    · exact h.exited q c hq r hr

theorem InOrder.fork (h : InOrder s) (hp : s.procs[pid]? = some p) (hlive : p.todo ≠ .exited)
    (hforked : p'.forked = p.forked) (hreaped : p'.reaped = p.reaped) (hc : c.forked = [])
    (hc' : c.reaped = []) : InOrder (s.fork pid p' c) := by
  have hlt := (List.getElem?_eq_some_iff.1 hp).1
  have hstay : ∀ q, s.Exited q → (s.fork pid p' c).Exited q := by
    rintro q ⟨d, hq, hexit⟩
    refine ⟨d, ?_, hexit⟩
    rw [Config.getElem?_fork s hlt, if_neg, if_neg, hq]
    · rintro rfl
      exact hlive (Option.some.inj (hp.symm.trans hq) ▸ hexit)
    · exact Nat.ne_of_lt (List.getElem?_eq_some_iff.1 hq).1
  refine ⟨fun q d hq => ?_, fun q d hq r hr => hstay r ?_⟩
  · rw [Config.getElem?_fork s hlt] at hq
    split_ifs at hq with hnew hpid
    · obtain rfl := Option.some.inj hq
      rw [hc]
      exact fun r hr => absurd hr List.not_mem_nil
    · obtain rfl := Option.some.inj hq
      intro r hr
      rw [hforked, List.mem_append, List.mem_singleton] at hr
      rw [hpid]
      rcases hr with hr | rfl
      · exact h.later pid p hp r hr
      · exact hlt
    · exact h.later q d hq
  · rw [Config.getElem?_fork s hlt] at hq
    split_ifs at hq with hnew hpid
    · obtain rfl := Option.some.inj hq
      rw [hc'] at hr
      exact absurd hr List.not_mem_nil
    · obtain rfl := Option.some.inj hq
      rw [hreaped] at hr
      exact h.exited pid p hp r hr
    · exact h.exited q d hq r hr

theorem Step.live (hstep : Step s pid p s') : p.todo ≠ .exited := by
  intro hexit
  cases hstep <;> simp_all

theorem InOrder.step (h : InOrder s) (hp : s.procs[pid]? = some p) (hstep : Step s pid p s') :
    InOrder s' := by
  have hlive := hstep.live
  cases hstep with
  | redir => exact h.set hp hlive rfl fun _ => .inl
  | redirFails => exact h.set hp hlive rfl fun _ => .inl
  | exec => exact h.set hp hlive rfl fun _ => .inl
  | execExits => exact h.set hp hlive rfl fun _ => .inl
  | list => exact h.fork hp hlive rfl rfl rfl rfl
  | pipe =>
    have hmore : InOrder { s with pipes := s.pipes + 1 } := ⟨h.later, h.exited⟩
    exact hmore.fork hp hlive rfl rfl rfl rfl
  | secondFork => exact h.fork hp hlive rfl rfl rfl rfl
  | closeBoth => exact h.set hp hlive rfl fun _ => .inl
  | pipeLeft => exact h.set hp hlive rfl fun _ => .inl
  | pipeRight => exact h.set hp hlive rfl fun _ => .inl
  | @wait n next htodo q c hq hparent hexit hnew =>
    refine h.set hp hlive rfl fun r hr => (List.mem_append.1 hr).imp_right fun hr => ?_
    exact List.mem_singleton.1 hr ▸ ⟨c, hq, hexit⟩
  | waitFails => exact h.set hp hlive rfl fun _ => .inl
  | next => exact h.set hp hlive rfl fun _ => .inl
  | exit => exact h.set hp hlive rfl fun _ => .inl
  | back => exact h.fork hp hlive rfl rfl rfl rfl

theorem Reaches.inOrder (h : Reaches root t s) : InOrder s := by
  induction h with
  | start =>
    refine ⟨fun pid p hp => ?_, fun pid p hp => ?_⟩
    · obtain rfl := List.mem_singleton.1 (List.mem_of_getElem? hp)
      exact fun q hq => absurd hq List.not_mem_nil
    · obtain rfl := List.mem_singleton.1 (List.mem_of_getElem? hp)
      exact fun q hq => absurd hq List.not_mem_nil
  | step _ hp hstep ih => exact ih.step hp hstep

/-- A process that does not wait for a child goes on. -/
theorem exists_step (s : Config) (pid : ℕ) (hlive : p.todo ≠ .exited)
    (hwait : ∀ n next, p.todo ≠ .wait (n + 1) next) : ∃ s', Step s pid p s' := by
  cases htodo : p.todo with
  | run cmd =>
    cases cmd with
    | exec argv => exact ⟨_, .exec htodo⟩
    | redir c file mode fd => exact ⟨_, .redir htodo⟩
    | pipe l r => exact ⟨_, .pipe htodo rfl⟩
    | list l r => exact ⟨_, .list htodo⟩
    | back c => exact ⟨_, .back htodo⟩
  | pipeLeft cmd r w => exact ⟨_, .pipeLeft htodo⟩
  | pipeRight cmd r w => exact ⟨_, .pipeRight htodo⟩
  | secondFork right i r w => exact ⟨_, .secondFork htodo⟩
  | closeBoth r w => exact ⟨_, .closeBoth htodo⟩
  | wait n next =>
    cases n with
    | succ n => exact absurd htodo (hwait n next)
    | zero =>
      cases next with
      | none => exact ⟨_, .exit htodo⟩
      | some c => exact ⟨_, .next htodo⟩
  | exec argv => exact ⟨_, .execExits htodo⟩
  | exited => exact absurd htodo hlive

/-- Of the processes that live, one was forked last. -/
theorem exists_last (h : ¬s.Final) : ∃ pid p, s.procs[pid]? = some p ∧ p.todo ≠ .exited ∧
    ∀ (q : ℕ) (c : Process), s.procs[q]? = some c → pid < q → c.todo = .exited := by
  classical
  rw [Config.Final] at h
  push Not at h
  obtain ⟨q, c, hq, hlive⟩ := h
  have hle : q ≤ s.procs.length := (List.getElem?_eq_some_iff.1 hq).1.le
  have hspec := Nat.findGreatest_spec
    (P := fun q => ∃ c : Process, s.procs[q]? = some c ∧ c.todo ≠ .exited) hle ⟨c, hq, hlive⟩
  obtain ⟨p, hp, hp'⟩ := hspec
  refine ⟨_, p, hp, hp', fun r d hr hlt => ?_⟩
  by_contra hd
  exact Nat.findGreatest_is_greatest hlt (List.getElem?_eq_some_iff.1 hr).1.le ⟨d, hr, hd⟩

/-- **The process that was forked last of those that live goes on.** -/
theorem Inv.next_or_final (h : Inv root t s) (horder : InOrder s) :
    (∃ s', s.Next s') ∨ s.Final := by
  by_cases hfinal : s.Final
  · exact .inr hfinal
  obtain ⟨pid, p, hp, hlive, hlater⟩ := exists_last hfinal
  by_cases hwait : ∃ n next, p.todo = .wait (n + 1) next
  · obtain ⟨n, next, htodo⟩ := hwait
    obtain ⟨q, hq, hnew⟩ := (h.waitsForOwn hp).finds n next htodo
    obtain ⟨c, hc, hparent⟩ := h.child pid p hp q hq
    have hexit := hlater q c hc (horder.later pid p hp q hq)
    exact .inl ⟨_, pid, p, hp, .wait htodo hc hparent hexit hnew⟩
  · push Not at hwait
    obtain ⟨s', hstep⟩ := exists_step s pid hlive hwait
    exact .inl ⟨s', pid, p, hp, hstep⟩

theorem perm_shares (l : List Process) : (l.flatMap Process.share).Perm
    (l.flatMap Process.begun ++ l.flatMap Process.dropped ++ l.flatMap (·.todo.pending)) := by
  induction l with
  | nil => exact .refl _
  | cons p l ih =>
    simp only [List.flatMap_cons, Process.share]
    refine (ih.append_left _).trans ?_
    rw [← Multiset.coe_eq_coe]
    simp only [← Multiset.coe_add]
    ac_rfl

/-- **What a run of a command tree does**, in every order of the steps of its processes, where every
`fork`, `pipe` and `dup` succeeds: every leaf is at one place; the run goes on until every process
has exited, and does not go on for ever; and then each leaf was begun once, but for those below a
redirection that failed. -/
theorem runcmd_completes (ht : Entry t) (h : Reaches root t s) :
    (leaves root).Perm (s.begun ++ s.dropped ++ s.pending) ∧
      ((∃ s', s.Next s') ∨ s.Final) ∧
      (¬∃ f : ℕ → Config, f 0 = s ∧ ∀ n, (f n).Next (f (n + 1))) ∧
      (s.Final → (leaves root).Perm (s.begun ++ s.dropped)) := by
  have hperm : (leaves root).Perm (s.begun ++ s.dropped ++ s.pending) :=
    (h.shared ht).perm.trans (perm_shares s.procs)
  refine ⟨hperm, (h.inv ht).next_or_final h.inOrder, ?_, fun hfinal => ?_⟩
  · rintro ⟨f, -, hf⟩
    exact not_infinite_of_lt Config.work (fun _ _ hnext => hnext.work_lt) ⟨f, hf⟩
  · have hpending : s.pending = [] := by
      rw [Config.pending, List.flatMap_eq_nil_iff]
      intro p hp
      obtain ⟨pid, hpid⟩ := List.mem_iff_getElem?.1 hp
      rw [hfinal pid p hpid, Todo.pending]
    rwa [hpending, List.append_nil] at hperm

/-! ### What was forked before has finished -/

/-- **A process that has exited has finished.** -/
theorem InOrder.finished (horder : InOrder s) (h : Inv root t s) : ∀ pid, s.Exited pid →
    Finished s pid := by
  -- the children have greater numbers
  have hall : ∀ n pid, s.procs.length ≤ pid + n → s.Exited pid → Finished s pid := by
    intro n
    induction n with
    | zero =>
      rintro pid hle ⟨p, hp, -⟩
      have hlt := (List.getElem?_eq_some_iff.1 hp).1
      omega
    | succ n ih =>
      rintro pid hle ⟨p, hp, hexit⟩
      refine .intro hp hexit fun hback q hq => ih q ?_ ?_
      · have hlt := horder.later pid p hp q hq
        omega
      · exact horder.exited pid p hp q (((h.waitsForOwn hp).exited hexit hback).mem_iff.2 hq)
  exact fun pid hpid => hall s.procs.length pid (Nat.le_add_left _ _) hpid

/-- **A command runs when those before it have finished**, where every `fork`, `pipe` and `dup`
succeeds: a process that goes on with a node of the tree, and one that is at an EXEC leaf, has
nothing running that it forked before, in every order of the steps. -/
theorem runcmd_in_order (ht : Entry t) (h : Reaches root t s) (hp : s.procs[pid]? = some p)
    (hgoes : (∃ cmd, p.todo = .run cmd) ∨ ∃ argv, p.todo = .exec argv) :
    ∀ q ∈ p.forked, Finished s q := by
  intro q hq
  have hg := (h.inv ht).good pid p hp
  have howes : p.Owes 0 := by
    rw [Process.Good] at hg
    rcases hgoes with ⟨cmd, htodo⟩ | ⟨argv, htodo⟩
    · rw [htodo] at hg
      exact hg.2.2.2
    · rw [htodo] at hg
      exact hg.2.2.2
  have hexited := h.inOrder.exited pid p hp q (howes.perm.mem_iff.2 hq)
  exact h.inOrder.finished (h.inv ht) q hexited

/-! ### Who holds the ends of a pipe -/

/-- The commands of a pipe hold the end that is theirs. -/
def Frame.holds : Frame → Desc → Prop
  | .pipeLeft i, d => d = .pipeWrite i
  | .pipeRight i, d => d = .pipeRead i
  | .redir _, _ => False

/-- The process will close the descriptor before it does anything else but fork and close. -/
def Todo.closes (fd : ℕ) : Todo → Prop
  | .pipeLeft _ rd wr | .pipeRight _ rd wr | .secondFork _ _ rd wr | .closeBoth rd wr =>
    fd = rd ∨ fd = wr
  | _ => False

/-- A standard descriptor that is an end of a pipe has it from a frame. -/
theorem exists_holds (ht : Entry t) {fs : List Frame} {fd : ℕ} {d : Desc}
    (hd : ∃ i, d = .pipeRead i ∨ d = .pipeWrite i) (h : wiring t fs fd = some d) :
    ∃ f ∈ fs, f.holds d := by
  induction fs with
  | nil =>
    obtain ⟨i, rfl | rfl⟩ := hd
    · exact absurd h (ht.noPipeEnd fd i).1
    · exact absurd h (ht.noPipeEnd fd i).2
  | cons f fs ih =>
    cases hbinds : f.binds fd with
    | none =>
      rw [wiring_of_not_binds hbinds] at h
      obtain ⟨g, hg, hholds⟩ := ih h
      exact ⟨g, List.mem_cons_of_mem _ hg, hholds⟩
    | some e =>
      rw [wiring_of_binds hbinds] at h
      obtain rfl := Option.some.inj h
      refine ⟨f, List.mem_cons_self .., ?_⟩
      cases f with
      | pipeLeft i =>
        rw [Frame.binds] at hbinds
        split_ifs at hbinds
        exact (Option.some.inj hbinds).symm
      | pipeRight i =>
        rw [Frame.binds] at hbinds
        split_ifs at hbinds
        exact (Option.some.inj hbinds).symm
      | redir o =>
        rw [Frame.binds] at hbinds
        split_ifs at hbinds
        obtain rfl := Option.some.inj hbinds
        obtain ⟨i, hi | hi⟩ := hd
        · cases hi
        · cases hi

/-- Of the ends of pipes, a process has those that it is about to close and those of the commands
around its node. -/
theorem WiredEnds.holds {fs : List Frame} {fds : FdTable Desc} {i rd wr fd : ℕ} {d : Desc}
    (h : WiredEnds t fs i rd wr fds) (ht : Entry t) (hd : ∃ i, d = .pipeRead i ∨ d = .pipeWrite i)
    (hget : fds.get fd = some d) : (fd = rd ∨ fd = wr) ∨ fd ≤ 2 ∧ ∃ f ∈ fs, f.holds d := by
  by_cases hend : fd = rd ∨ fd = wr
  · exact .inl hend
  · rw [not_or] at hend
    right
    rcases Nat.lt_or_ge 2 fd with hgt | hle
    · obtain ⟨j, hj⟩ := hd
      have hno := h.others fd hgt hend.1 hend.2 j
      rw [hget] at hno
      rcases hj with rfl | rfl
      · exact absurd rfl hno.1
      · exact absurd rfl hno.2
    · exact ⟨hle, exists_holds ht hd ((h.standard fd hle).symm.trans hget)⟩

theorem held_cons {f : Frame} {fs : List Frame} {fd : ℕ} {d : Desc} :
    (fd ≤ 2 ∧ ∃ f ∈ fs, f.holds d) → fd ≤ 2 ∧ ∃ f' ∈ f :: fs, f'.holds d := by
  rintro ⟨hle, f', hf, hholds⟩
  exact ⟨hle, f', List.mem_cons_of_mem f hf, hholds⟩

theorem Wired.holds {fs : List Frame} {fds : FdTable Desc} {fd : ℕ} {d : Desc}
    (h : Wired t fs fds) (ht : Entry t) (hd : ∃ i, d = .pipeRead i ∨ d = .pipeWrite i)
    (hget : fds.get fd = some d) : fd ≤ 2 ∧ ∃ f ∈ fs, f.holds d := by
  rcases Nat.lt_or_ge 2 fd with hgt | hle
  · obtain ⟨j, hj⟩ := hd
    have hno := h.others fd hgt j
    rw [hget] at hno
    rcases hj with rfl | rfl
    · exact absurd rfl hno.1
    · exact absurd rfl hno.2
  · exact ⟨hle, exists_holds ht hd ((h.standard fd hle).symm.trans hget)⟩

/-- **Who holds the ends of a pipe**, in every order of the steps, where every `fork`, `pipe` and
`dup` succeeds: a process that lives has the write end of a pipe only as a standard descriptor and
inside the left command of its PIPE, and the read end only so inside the right one; but for the two
numbers of `pipe` itself, which a process has only where nothing keeps it from the step that closes
them or forks the right command. -/
theorem runcmd_pipe_ends (ht : Entry t) (h : Reaches root t s) (hp : s.procs[pid]? = some p)
    (hlive : p.todo ≠ .exited) {fd : ℕ} {d : Desc} (hget : p.fds.get fd = some d)
    (hd : ∃ i, d = .pipeRead i ∨ d = .pipeWrite i) :
    (p.todo.closes fd ∧ ∃ s', Step s pid p s') ∨ fd ≤ 2 ∧ ∃ f ∈ p.frames, f.holds d := by
  have hg := (h.inv ht).good pid p hp
  have hcloses : p.todo.closes fd ∨ fd ≤ 2 ∧ ∃ f ∈ p.frames, f.holds d := by
    rw [Process.Good] at hg
    cases htodo : p.todo with
    | run cmd =>
      rw [htodo] at hg
      exact .inr (hg.2.2.1.holds ht hd hget)
    | pipeLeft cmd rd wr =>
      rw [htodo] at hg
      obtain ⟨i, fs, hframes, -, hends, -⟩ := hg
      rw [hframes]
      exact (hends.holds ht hd hget).imp_right held_cons
    | pipeRight cmd rd wr =>
      rw [htodo] at hg
      obtain ⟨i, fs, hframes, -, hends, -⟩ := hg
      rw [hframes]
      exact (hends.holds ht hd hget).imp_right held_cons
    | secondFork right i rd wr =>
      rw [htodo] at hg
      exact hg.2.2.1.holds ht hd hget
    | closeBoth rd wr =>
      rw [htodo] at hg
      obtain ⟨-, ⟨i, hends⟩, -⟩ := hg
      exact hends.holds ht hd hget
    | wait n next =>
      rw [htodo] at hg
      exact .inr (hg.2.2.1.holds ht hd hget)
    | exec argv =>
      rw [htodo] at hg
      exact .inr (hg.2.2.1.holds ht hd hget)
    | exited => exact absurd htodo hlive
  refine hcloses.imp_left fun hclose => ⟨hclose, exists_step s pid hlive fun n next htodo => ?_⟩
  rw [htodo] at hclose
  exact hclose

end Runs

/-! ### The run of `e; f` -/

/-- The tree of `e; f`. -/
def twoCommands : Command := .list (.exec [[101]]) (.exec [[102]])

theorem reaches_second : ∃ p, Reaches twoCommands stdTable
    ⟨[p, (Process.child 0 stdTable [] (.exec [[101]]) .exited)], 0⟩ ∧
      p.todo = .exec [[102]] ∧ p.forked = [1] := by
  refine ⟨⟨none, stdTable, .exec [[102]], .exec [[102]], [], [1], [1]⟩, ?_, rfl, rfl⟩
  have hstart : Reaches twoCommands stdTable (.start twoCommands stdTable) := .start
  have hfork := hstart.goOn 0 rfl (.list rfl)
  have hbegin := hfork.goOn 1 rfl (.exec rfl)
  have hexit := hbegin.goOn 1 rfl (.execExits rfl)
  have hwait := hexit.goOn 0 rfl (.wait rfl (q := 1) rfl rfl rfl (by decide))
  have hnext := hwait.goOn 0 rfl (.next rfl)
  exact hnext.goOn 0 rfl (.exec rfl)

theorem runcmd_completes_second : ∃ s, Reaches twoCommands stdTable s ∧
    (leaves twoCommands).Perm (s.begun ++ s.dropped ++ s.pending) ∧
      ((∃ s', s.Next s') ∨ s.Final) ∧
      (¬∃ f : ℕ → Config, f 0 = s ∧ ∀ n, (f n).Next (f (n + 1))) ∧
      (s.Final → (leaves twoCommands).Perm (s.begun ++ s.dropped)) := by
  obtain ⟨p, h, -⟩ := reaches_second
  exact ⟨_, h, runcmd_completes entry_stdTable h⟩

theorem runcmd_in_order_second : ∃ s p, Reaches twoCommands stdTable s ∧
    s.procs[0]? = some p ∧ p.todo = .exec [[102]] ∧ Finished s 1 := by
  obtain ⟨p, h, htodo, hforked⟩ := reaches_second
  have hp : [p, Process.child 0 stdTable [] (.exec [[101]]) .exited][0]? = some p := rfl
  have hmem : 1 ∈ p.forked := by
    rw [hforked]
    exact List.mem_singleton_self 1
  exact ⟨_, p, h, hp, htodo, runcmd_in_order entry_stdTable h hp (.inr ⟨_, htodo⟩) 1 hmem⟩

theorem runcmd_pipe_ends_first : ∃ s p rd,
    Reaches (.pipe (.exec [[101]]) (.exec [[102]])) stdTable s ∧ s.procs[0]? = some p ∧
      p.fds.get rd = some (.pipeRead 0) ∧
      ((p.todo.closes rd ∧ ∃ s', Step s 0 p s') ∨
        rd ≤ 2 ∧ ∃ f ∈ p.frames, f.holds (.pipeRead 0)) := by
  have hspec := stdTable.pipe_spec (.pipeRead 0) (.pipeWrite 0)
  have hstart : Reaches (.pipe (.exec [[101]]) (.exec [[102]])) stdTable
      (.start (.pipe (.exec [[101]]) (.exec [[102]])) stdTable) := .start
  have hpipe := hstart.goOn 0 rfl (.pipe rfl rfl)
  refine ⟨_, _, _, hpipe, rfl, hspec.2.2.2.1, ?_⟩
  refine runcmd_pipe_ends entry_stdTable hpipe rfl ?_ hspec.2.2.2.1 ⟨0, .inl rfl⟩
  exact Todo.noConfusion

end Shell
end V6User
