import Mathlib.Data.Finset.Basic
import Mathlib.Logic.Hydra
import V6User.Base.Process
import V6User.Base.Replace

/-!
# Processes that fork and talk through pipes

Each process is a program that makes calls (`Process`); it takes turns with the others in any
order.  A pipe is what was written to it and how much of that was taken out again, and has room
for `cap` messages, each of which is written and read as a whole.  A descriptor is named by the
end of the pipe that it stands for.

A read waits for a message as long as a process that runs has the write end open, and finds the
end of the file otherwise.  A write waits for room as long as a process that runs has the read
end open; otherwise it fails, or kills the writer.  `pipe` and `fork` may fail.

Nothing new comes to hold an end of a pipe that is there (`Step.held`), a process that cannot go
on waits in one of three ways (`blocked_cases`), and no run goes on for ever (`not_infinite`).
-/

namespace V6User
namespace Pipes

/-- The two ends of a pipe. -/
inductive End
  | read
  | write
  deriving DecidableEq

/-- What `fork` answers. -/
inductive Forked
  | parent
  | child
  | failed

/-- What a process asks for.  `wait` is for one child; `print` writes a line to the output. -/
inductive Call (μ ω : Type)
  | read (i : ℕ)
  | write (i : ℕ) (m : μ)
  | close (e : ℕ × End)
  | pipe
  | fork
  | wait
  | print (x : ω)

/-- What a call answers.  The programs do not look at what `write` and `wait` return. -/
def Reply {μ ω : Type} : Call μ ω → Type
  | .read _ => Option μ
  | .pipe => Option ℕ
  | .fork => Forked
  | _ => Unit

/-- A program exits with a status. -/
abbrev Prog (μ ω α : Type) : Type := Process (Call μ ω) Reply ℕ α

/-- A pipe: all that was written to it, and how many messages were read. -/
structure Pipe (μ : Type) where
  sent : List μ
  taken : ℕ

/-- A process: what it does next, the ends it has open, and the children it did not wait for. -/
structure Proc (μ ω : Type) where
  prog : Prog μ ω Unit
  ends : Finset (ℕ × End)
  kids : List ℕ

/-- The processes by their numbers, the pipes, and the output. -/
structure State (μ ω : Type) where
  procs : List (Proc μ ω)
  pipes : List (Pipe μ)
  printed : List ω

variable {μ ω : Type}

/-- The process makes a call next. -/
def Proc.Running (p : Proc μ ω) : Prop := ∃ c k, p.prog = .ask c k

/-- A process that runs has the end open. -/
def State.Held (s : State μ ω) (e : ℕ × End) : Prop :=
  ∃ (q : ℕ) (p : Proc μ ω), s.procs[q]? = some p ∧ p.Running ∧ e ∈ p.ends

/-- The process does not run any more. -/
def State.Ended (s : State μ ω) (q : ℕ) : Prop :=
  ∃ p : Proc μ ω, s.procs[q]? = some p ∧ ¬p.Running

/-- What a call leaves, but for the program. -/
structure After (μ ω : Type) where
  pipes : List (Pipe μ)
  ends : Finset (ℕ × End)
  kids : List ℕ
  printed : List ω

/-- A call that leaves everything as it was. -/
def State.same (s : State μ ω) (p : Proc μ ω) : After μ ω := ⟨s.pipes, p.ends, p.kids, s.printed⟩

/-- What a call of the process `p` may answer, and what it leaves. -/
inductive Answers (cap : ℕ) (s : State μ ω) (p : Proc μ ω) :
    (c : Call μ ω) → Reply c → After μ ω → Prop
  | read {i : ℕ} {x : μ} {π : Pipe μ} (hend : (i, .read) ∈ p.ends) (hpipe : s.pipes[i]? = some π)
    (hx : π.sent[π.taken]? = some x) :
    Answers cap s p (.read i) (some x)
      ⟨s.pipes.set i ⟨π.sent, π.taken + 1⟩, p.ends, p.kids, s.printed⟩
  | endOfFile {i : ℕ} {π : Pipe μ} (hend : (i, .read) ∈ p.ends) (hpipe : s.pipes[i]? = some π)
    (hempty : π.sent.length ≤ π.taken) (hnone : ¬s.Held (i, .write)) :
    Answers cap s p (.read i) none (s.same p)
  | badRead {i : ℕ} (hbad : ∀ π, s.pipes[i]? = some π → (i, .read) ∉ p.ends) :
    Answers cap s p (.read i) none (s.same p)
  | write {i : ℕ} {m : μ} {π : Pipe μ} (hend : (i, .write) ∈ p.ends)
    (hpipe : s.pipes[i]? = some π) (hroom : π.sent.length < π.taken + cap)
    (hheld : s.Held (i, .read)) :
    Answers cap s p (.write i m) ()
      ⟨s.pipes.set i ⟨π.sent ++ [m], π.taken⟩, p.ends, p.kids, s.printed⟩
  | noReader {i : ℕ} {m : μ} (hnone : ¬s.Held (i, .read)) :
    Answers cap s p (.write i m) () (s.same p)
  | badWrite {i : ℕ} {m : μ} (hbad : ∀ π, s.pipes[i]? = some π → (i, .write) ∉ p.ends) :
    Answers cap s p (.write i m) () (s.same p)
  | close {e : ℕ × End} :
    Answers cap s p (.close e) () ⟨s.pipes, p.ends.erase e, p.kids, s.printed⟩
  | pipe : Answers cap s p .pipe (some s.pipes.length) ⟨s.pipes ++ [⟨[], 0⟩],
      insert (s.pipes.length, .write) (insert (s.pipes.length, .read) p.ends), p.kids, s.printed⟩
  | noPipe : Answers cap s p .pipe none (s.same p)
  | noFork : Answers cap s p .fork .failed (s.same p)
  | wait {q : ℕ} (hq : q ∈ p.kids) (hended : s.Ended q) :
    Answers cap s p .wait () ⟨s.pipes, p.ends, p.kids.erase q, s.printed⟩
  | noKids (hnone : p.kids = []) : Answers cap s p .wait () (s.same p)
  | print {x : ω} :
    Answers cap s p (.print x) () ⟨s.pipes, p.ends, p.kids, s.printed ++ [x]⟩

/-- The state after a call of the process `t`, which goes on with `q`. -/
def State.goOn (s : State μ ω) (t : ℕ) (q : Prog μ ω Unit) (a : After μ ω) : State μ ω :=
  ⟨s.procs.set t ⟨q, a.ends, a.kids⟩, a.pipes, a.printed⟩

/-- One step of the process `p` with the number `t`. -/
inductive Step (cap : ℕ) (s : State μ ω) (t : ℕ) (p : Proc μ ω) : State μ ω → Prop
  | call {c : Call μ ω} {k : Reply c → Prog μ ω Unit} {r : Reply c} {a : After μ ω}
    (hprog : p.prog = .ask c k) (hanswers : Answers cap s p c r a) :
    Step cap s t p (s.goOn t (k r) a)
  | fork {k : Forked → Prog μ ω Unit} (hprog : p.prog = .ask .fork k) :
    Step cap s t p ⟨s.procs.set t ⟨k .parent, p.ends, p.kids ++ [s.procs.length]⟩ ++
      [⟨k .child, p.ends, []⟩], s.pipes, s.printed⟩
  | killed {i : ℕ} {m : μ} {k : Unit → Prog μ ω Unit} (hprog : p.prog = .ask (.write i m) k)
    (hnone : ¬s.Held (i, .read)) (e : ℕ) : Step cap s t p (s.goOn t (.exit e) (s.same p))

/-- Some process makes a step. -/
def Next (cap : ℕ) (s s' : State μ ω) : Prop :=
  ∃ t p, s.procs[t]? = some p ∧ Step cap s t p s'

/-- A call of a process that is given by its number, with the state after it. -/
theorem Next.call {cap t : ℕ} {s s' : State μ ω} {p : Proc μ ω} {c : Call μ ω}
    {k : Reply c → Prog μ ω Unit} {r : Reply c} {a : After μ ω} (hp : s.procs[t]? = some p)
    (hprog : p.prog = .ask c k) (hanswers : Answers cap s p c r a) (hs' : s.goOn t (k r) a = s') :
    Next cap s s' :=
  ⟨t, p, hp, hs' ▸ .call hprog hanswers⟩

/-- The states that a program run by one process with nothing open can come to. -/
inductive Reaches (cap : ℕ) (prog : Prog μ ω Unit) : State μ ω → Prop
  | start : Reaches cap prog ⟨[⟨prog, ∅, []⟩], [], []⟩
  | step {s s' : State μ ω} (h : Reaches cap prog s) (hnext : Next cap s s') : Reaches cap prog s'

section Steps

variable {cap t : ℕ} {s s' : State μ ω} {p : Proc μ ω}

/-! ### The steps of each call -/

/-- A step of a process at a call that is neither `fork` nor `write`. -/
theorem Step.call_cases (hstep : Step cap s t p s') {c : Call μ ω} {k : Reply c → Prog μ ω Unit}
    (hprog : p.prog = .ask c k) (hfork : c ≠ .fork) (hwrite : ∀ i m, c ≠ .write i m) :
    ∃ r a, Answers cap s p c r a ∧ s' = s.goOn t (k r) a := by
  cases hstep with
  | call hprog' hanswers =>
    obtain ⟨rfl, hk⟩ := Process.ask.inj (hprog.symm.trans hprog')
    obtain rfl := eq_of_heq hk
    exact ⟨_, _, hanswers, rfl⟩
  | fork hprog' =>
    obtain ⟨rfl, -⟩ := Process.ask.inj (hprog.symm.trans hprog')
    exact absurd rfl hfork
  | killed hprog' =>
    obtain ⟨rfl, -⟩ := Process.ask.inj (hprog.symm.trans hprog')
    exact absurd rfl (hwrite _ _)

theorem Step.read_cases (hstep : Step cap s t p s') {i : ℕ} {k : Option μ → Prog μ ω Unit}
    (hprog : p.prog = .ask (.read i) k) :
    (∃ x π, s.pipes[i]? = some π ∧ π.sent[π.taken]? = some x ∧
      s' = s.goOn t (k (some x)) ⟨s.pipes.set i ⟨π.sent, π.taken + 1⟩, p.ends, p.kids, s.printed⟩) ∨
    (∀ π, s.pipes[i]? = some π → (i, .read) ∈ p.ends →
      π.sent.length ≤ π.taken ∧ ¬s.Held (i, .write)) ∧ s' = s.goOn t (k none) (s.same p) := by
  obtain ⟨r, a, hanswers, rfl⟩ := hstep.call_cases hprog nofun nofun
  cases hanswers with
  | read hend hpipe hx => exact .inl ⟨_, _, hpipe, hx, rfl⟩
  | endOfFile hend hpipe hempty hnone =>
    refine .inr ⟨fun π hπ _ => ⟨?_, hnone⟩, rfl⟩
    exact Option.some.inj (hpipe.symm.trans hπ) ▸ hempty
  | badRead hbad => exact .inr ⟨fun π hπ hend => absurd hend (hbad π hπ), rfl⟩

theorem Step.write_cases (hstep : Step cap s t p s') {i : ℕ} {m : μ} {k : Unit → Prog μ ω Unit}
    (hprog : p.prog = .ask (.write i m) k) :
    (∃ π, s.pipes[i]? = some π ∧ s.Held (i, .read) ∧ s' = s.goOn t (k ())
      ⟨s.pipes.set i ⟨π.sent ++ [m], π.taken⟩, p.ends, p.kids, s.printed⟩) ∨
    (∀ π, s.pipes[i]? = some π → (i, .write) ∈ p.ends → ¬s.Held (i, .read)) ∧
      (s' = s.goOn t (k ()) (s.same p) ∨ ∃ e, s' = s.goOn t (.exit e) (s.same p)) := by
  cases hstep with
  | @call c k' r a hprog' hanswers =>
    obtain ⟨rfl, hk⟩ := Process.ask.inj (hprog.symm.trans hprog')
    obtain rfl := eq_of_heq hk
    cases hanswers with
    | write hend hpipe hroom hheld => exact .inl ⟨_, hpipe, hheld, rfl⟩
    | noReader hnone => exact .inr ⟨fun _ _ _ => hnone, .inl rfl⟩
    | badWrite hbad => exact .inr ⟨fun π hπ hend => absurd hend (hbad π hπ), .inl rfl⟩
  | fork hprog' =>
    obtain ⟨hc, -⟩ := Process.ask.inj (hprog.symm.trans hprog')
    exact absurd hc nofun
  | killed hprog' hnone e =>
    obtain ⟨hc, -⟩ := Process.ask.inj (hprog.symm.trans hprog')
    obtain ⟨rfl, rfl⟩ := Call.write.inj hc
    exact .inr ⟨fun _ _ _ => hnone, .inr ⟨e, rfl⟩⟩

theorem Step.close_cases (hstep : Step cap s t p s') {e : ℕ × End} {k : Unit → Prog μ ω Unit}
    (hprog : p.prog = .ask (.close e) k) :
    s' = s.goOn t (k ()) ⟨s.pipes, p.ends.erase e, p.kids, s.printed⟩ := by
  obtain ⟨r, a, hanswers, rfl⟩ := hstep.call_cases hprog nofun nofun
  cases hanswers
  rfl

theorem Step.pipe_cases (hstep : Step cap s t p s') {k : Option ℕ → Prog μ ω Unit}
    (hprog : p.prog = .ask .pipe k) :
    s' = s.goOn t (k (some s.pipes.length)) ⟨s.pipes ++ [⟨[], 0⟩],
      insert (s.pipes.length, .write) (insert (s.pipes.length, .read) p.ends), p.kids, s.printed⟩ ∨
    s' = s.goOn t (k none) (s.same p) := by
  obtain ⟨r, a, hanswers, rfl⟩ := hstep.call_cases hprog nofun nofun
  cases hanswers with
  | pipe => exact .inl rfl
  | noPipe => exact .inr rfl

theorem Step.fork_cases (hstep : Step cap s t p s') {k : Forked → Prog μ ω Unit}
    (hprog : p.prog = .ask .fork k) :
    s' = ⟨s.procs.set t ⟨k .parent, p.ends, p.kids ++ [s.procs.length]⟩ ++ [⟨k .child, p.ends, []⟩],
      s.pipes, s.printed⟩ ∨ s' = s.goOn t (k .failed) (s.same p) := by
  cases hstep with
  | call hprog' hanswers =>
    obtain ⟨rfl, hk⟩ := Process.ask.inj (hprog.symm.trans hprog')
    obtain rfl := eq_of_heq hk
    cases hanswers
    exact .inr rfl
  | fork hprog' =>
    obtain ⟨-, hk⟩ := Process.ask.inj (hprog.symm.trans hprog')
    obtain rfl := eq_of_heq hk
    exact .inl rfl
  | killed hprog' =>
    obtain ⟨hc, -⟩ := Process.ask.inj (hprog.symm.trans hprog')
    exact absurd hc nofun

theorem Step.wait_cases (hstep : Step cap s t p s') {k : Unit → Prog μ ω Unit}
    (hprog : p.prog = .ask .wait k) :
    (∃ q ∈ p.kids, s.Ended q ∧
      s' = s.goOn t (k ()) ⟨s.pipes, p.ends, p.kids.erase q, s.printed⟩) ∨
    p.kids = [] ∧ s' = s.goOn t (k ()) (s.same p) := by
  obtain ⟨r, a, hanswers, rfl⟩ := hstep.call_cases hprog nofun nofun
  cases hanswers with
  | wait hq hended => exact .inl ⟨_, hq, hended, rfl⟩
  | noKids hnone => exact .inr ⟨hnone, rfl⟩

theorem Step.print_cases (hstep : Step cap s t p s') {x : ω} {k : Unit → Prog μ ω Unit}
    (hprog : p.prog = .ask (.print x) k) :
    s' = s.goOn t (k ()) ⟨s.pipes, p.ends, p.kids, s.printed ++ [x]⟩ := by
  obtain ⟨r, a, hanswers, rfl⟩ := hstep.call_cases hprog nofun nofun
  cases hanswers
  rfl

/-- Only a process that runs makes a step. -/
theorem Step.running (hstep : Step cap s t p s') : p.Running := by
  cases hstep with
  | call hprog => exact ⟨_, _, hprog⟩
  | fork hprog => exact ⟨_, _, hprog⟩
  | killed hprog => exact ⟨_, _, hprog⟩

/-- No process is taken away. -/
theorem Step.length_le (hstep : Step cap s t p s') : s.procs.length ≤ s'.procs.length := by
  cases hstep with
  | call => exact List.length_set.ge
  | fork =>
    rw [List.length_append, List.length_set]
    exact Nat.le_add_right _ _
  | killed => exact List.length_set.ge

/-! ### Who holds an end -/

/-- A call leaves no end of a pipe that was there open which was not open before. -/
theorem Answers.ends {c : Call μ ω} {r : Reply c} {a : After μ ω} (h : Answers cap s p c r a)
    {e : ℕ × End} (he : e ∈ a.ends) (hold : e.1 < s.pipes.length) : e ∈ p.ends := by
  cases h with
  | close => exact Finset.mem_of_mem_erase he
  | pipe =>
    rcases Finset.mem_insert.1 he with rfl | he
    · exact absurd hold (lt_irrefl _)
    rcases Finset.mem_insert.1 he with rfl | he
    · exact absurd hold (lt_irrefl _)
    · exact he
  | _ => exact he

/-- **Nothing comes to hold an end of a pipe that is there**, if nothing held it. -/
theorem Step.held (hstep : Step cap s t p s') (hp : s.procs[t]? = some p) {e : ℕ × End}
    (hold : e.1 < s.pipes.length) (h : s'.Held e) : s.Held e := by
  have hrun := hstep.running
  obtain ⟨q, c, hq, hc, he⟩ := h
  cases hstep with
  | call hprog hanswers =>
    rw [State.goOn, List.getElem?_set] at hq
    split_ifs at hq with htq
    · obtain rfl := Option.some.inj hq
      exact ⟨t, p, hp, hrun, hanswers.ends he hold⟩
    · exact ⟨q, c, hq, hc, he⟩
  | fork hprog =>
    rw [List.getElem?_append] at hq
    split_ifs at hq with hlt
    · rw [List.getElem?_set] at hq
      split_ifs at hq with htq
      · obtain rfl := Option.some.inj hq
        exact ⟨t, p, hp, hrun, he⟩
      · exact ⟨q, c, hq, hc, he⟩
    · obtain rfl := List.mem_singleton.1 (List.mem_of_getElem? hq)
      exact ⟨t, p, hp, hrun, he⟩
  | killed hprog hnone e =>
    rw [State.goOn, List.getElem?_set] at hq
    split_ifs at hq with htq
    · obtain rfl := Option.some.inj hq
      exact ⟨t, p, hp, hrun, he⟩
    · exact ⟨q, c, hq, hc, he⟩

/-! ### Waiting -/

/-- **How a process can wait**: for a message, for room, or for a child. -/
theorem blocked_cases (hp : p.Running) (hstuck : ∀ s', ¬Step cap s t p s') :
    (∃ i k π, p.prog = .ask (.read i) k ∧ (i, .read) ∈ p.ends ∧ s.pipes[i]? = some π ∧
      π.sent.length ≤ π.taken ∧ s.Held (i, .write)) ∨
    (∃ i m k π, p.prog = .ask (.write i m) k ∧ (i, .write) ∈ p.ends ∧ s.pipes[i]? = some π ∧
      π.taken + cap ≤ π.sent.length ∧ s.Held (i, .read)) ∨
    ∃ k, p.prog = .ask .wait k ∧ p.kids ≠ [] ∧ ∀ q ∈ p.kids, ¬s.Ended q := by
  obtain ⟨c, k, hprog⟩ := hp
  have hno : ∀ r a, ¬Answers cap s p c r a := fun r a ha => hstuck _ (.call hprog ha)
  cases c with
  | read i =>
    left
    by_cases hbad : ∀ π, s.pipes[i]? = some π → (i, .read) ∉ p.ends
    · exact absurd (.badRead hbad) (hno _ _)
    push Not at hbad
    obtain ⟨π, hπ, hend⟩ := hbad
    refine ⟨i, k, π, hprog, hend, hπ, ?_, ?_⟩
    · by_contra hlt
      have hx : π.sent[π.taken]? = some (π.sent.get ⟨π.taken, Nat.not_le.1 hlt⟩) :=
        List.getElem?_eq_getElem (Nat.not_le.1 hlt)
      exact hno _ _ (.read hend hπ hx)
    · by_contra hnone
      rcases Nat.lt_or_ge π.taken π.sent.length with hlt | hle
      · have hx : π.sent[π.taken]? = some (π.sent.get ⟨π.taken, hlt⟩) :=
          List.getElem?_eq_getElem hlt
        exact hno _ _ (.read hend hπ hx)
      · exact hno _ _ (.endOfFile hend hπ hle hnone)
  | write i m =>
    right
    left
    by_cases hbad : ∀ π, s.pipes[i]? = some π → (i, .write) ∉ p.ends
    · exact absurd (.badWrite hbad) (hno _ _)
    push Not at hbad
    obtain ⟨π, hπ, hend⟩ := hbad
    have hheld : s.Held (i, .read) := by
      by_contra hnone
      exact hno _ _ (.noReader hnone)
    refine ⟨i, m, k, π, hprog, hend, hπ, ?_, hheld⟩
    by_contra hlt
    exact hno _ _ (.write hend hπ (Nat.not_le.1 hlt) hheld)
  | close e => exact absurd .close (hno _ _)
  | pipe => exact absurd .pipe (hno _ _)
  | fork => exact absurd (.fork hprog) (hstuck _)
  | wait =>
    right
    right
    refine ⟨k, hprog, ?_, ?_⟩
    · intro hnone
      exact hno _ _ (.noKids hnone)
    · intro q hq hended
      exact hno _ _ (.wait hq hended)
  | print x => exact absurd .print (hno _ _)

/-! ### Every run ends -/

/-- What a program may be after its next call, or after it was killed. -/
def Later (q p : Prog μ ω Unit) : Prop :=
  (∃ (c : Call μ ω) (k : Reply c → Prog μ ω Unit) (r : Reply c), p = .ask c k ∧ q = k r) ∨
    (∃ e, q = .exit e) ∧ ∃ (c : Call μ ω) (k : Reply c → Prog μ ω Unit), p = .ask c k

theorem acc_exit (e : ℕ) : Acc Later (.exit e : Prog μ ω Unit) := by
  refine .intro _ fun q hq => ?_
  rcases hq with ⟨c, k, r, h, -⟩ | ⟨-, c, k, h⟩
  · cases h
  · cases h

/-- A program makes finitely many calls, whatever they answer. -/
theorem wellFounded_later : WellFounded (Later (μ := μ) (ω := ω)) := by
  refine ⟨fun p => ?_⟩
  induction p with
  | done a =>
    refine .intro _ fun q hq => ?_
    rcases hq with ⟨c, k, r, h, -⟩ | ⟨-, c, k, h⟩
    · cases h
    · cases h
  | exit e => exact acc_exit e
  | stuck =>
    refine .intro _ fun q hq => ?_
    rcases hq with ⟨c, k, r, h, -⟩ | ⟨-, c, k, h⟩
    · cases h
    · cases h
  | ask c k ih =>
    refine .intro _ fun q hq => ?_
    rcases hq with ⟨c', k', r, h, rfl⟩ | ⟨⟨e, rfl⟩, -⟩
    · obtain ⟨rfl, hk⟩ := Process.ask.inj h
      obtain rfl := eq_of_heq hk
      exact ih r
    · exact acc_exit e

/-- The programs of all processes, in any order. -/
def State.progs (s : State μ ω) : Multiset (Prog μ ω Unit) := (s.procs.map Proc.prog : List _)

/-- A step puts later programs in the place of one. -/
theorem Next.cutExpand (h : Next cap s s') : Relation.CutExpand Later s'.progs s.progs := by
  obtain ⟨t, p, hp, hstep⟩ := h
  have hprog : (s.procs.map Proc.prog)[t]? = some p.prog := by rw [List.getElem?_map, hp]; rfl
  -- the program of `p` is replaced by `b`
  have hset : ∀ b : Proc μ ω, ((s.procs.set t b).map Proc.prog : Multiset (Prog μ ω Unit)) +
      {p.prog} = s.progs + {b.prog} := by
    intro b
    rw [List.map_set]
    exact coe_set_add hprog b.prog
  cases hstep with
  | call hask hanswers =>
    refine ⟨{_}, p.prog, fun q hq => ?_, hset _⟩
    obtain rfl := Multiset.mem_singleton.1 hq
    exact .inl ⟨_, _, _, hask, rfl⟩
  | @fork k hask =>
    refine ⟨{k .parent} + {k .child}, p.prog, fun q hq => ?_, ?_⟩
    · rcases Multiset.mem_add.1 hq with hq | hq
      · obtain rfl := Multiset.mem_singleton.1 hq
        exact .inl ⟨_, _, _, hask, rfl⟩
      · obtain rfl := Multiset.mem_singleton.1 hq
        exact .inl ⟨_, _, _, hask, rfl⟩
    · rw [State.progs, List.map_append, ← Multiset.coe_add, add_right_comm, hset, add_assoc]
      rfl
  | killed hask hnone e =>
    refine ⟨{_}, p.prog, fun q hq => ?_, hset _⟩
    obtain rfl := Multiset.mem_singleton.1 hq
    exact .inr ⟨⟨e, rfl⟩, _, _, hask⟩

/-- **No run goes on for ever.** -/
theorem not_infinite (cap : ℕ) :
    ¬∃ f : ℕ → State μ ω, ∀ n, Next cap (f n) (f (n + 1)) := by
  rintro ⟨f, hf⟩
  have hwf := (wellFounded_later (μ := μ) (ω := ω)).cutExpand
  exact (wellFounded_iff_isEmpty_descending_chain.1 hwf).elim
    ⟨fun n => (f n).progs, fun n => (hf n).cutExpand⟩

end Steps
end Pipes
end V6User
