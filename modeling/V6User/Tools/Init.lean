import Mathlib.Data.Int.Init
import Mathlib.Data.List.Basic
import Mathlib.Tactic.Common

/-!
# The loop of process 1

`programs/init/init.c`: the end of `main`.  A console shell is started, and process 1 waits
until `wait` returns its pid; then a shell is started again.  The results of `fork` and `wait`
come one after the other and may be anything.

No more than one shell is outstanding, and none is when the next one is started
(`outstanding_after`).  But a `fork` that fails makes process 1 exit, so that it runs for ever
exactly where no `fork` fails (`supervises_iff`).
-/

namespace V6User
namespace Tools

/-- Where the process is: before `fork`, before `wait` with the pid of the shell, after
`exit(status)`, or after a `fork` that returned 0, in the child that becomes the shell. -/
inductive Phase where
  | forking
  | waiting (pid : ℤ)
  | exited (status : ℤ)
  | shell

/-- A call that was made, with its result. -/
inductive InitCall where
  | fork (ret : ℤ)
  | wait (ret : ℤ)
  | sleep

/-- The process and the calls that it made, the last one first. -/
structure Init where
  phase : Phase
  calls : List InitCall

/-- One pass of the inner loop after `wait` returned. -/
def afterWait (eintr pid wpid : ℤ) (calls : List InitCall) : Init :=
  if wpid = pid then ⟨.forking, .wait wpid :: calls⟩
  else if wpid < 0 then
    if wpid ≠ -eintr then ⟨.waiting pid, .sleep :: .wait wpid :: calls⟩
    else ⟨.waiting pid, .wait wpid :: calls⟩
  else ⟨.waiting pid, .wait wpid :: calls⟩

/-- The loop up to the next result of `fork` or `wait`. -/
def superviseStep (eintr : ℤ) (s : Init) (ret : ℤ) : Init :=
  match s.phase with
  | .forking =>
    if ret < 0 then ⟨.exited 1, .fork ret :: s.calls⟩
    else if ret = 0 then ⟨.shell, .fork ret :: s.calls⟩
    else ⟨.waiting ret, .fork ret :: s.calls⟩
  | .waiting pid => afterWait eintr pid ret s.calls
  | .exited _ | .shell => s

/-- The loop after `n` results. -/
def supervise (eintr : ℤ) (results : ℕ → ℤ) : ℕ → Init
  | 0 => ⟨.forking, []⟩
  | n + 1 => superviseStep eintr (supervise eintr results n) (results n)

/-- The shells that were started and whose pid `wait` has not returned since. -/
def outstanding : List InitCall → List ℤ
  | [] => []
  | .fork ret :: calls => if 0 < ret then ret :: outstanding calls else outstanding calls
  | .wait ret :: calls => (outstanding calls).erase ret
  | .sleep :: calls => outstanding calls

/-- Process 1 never exits, at most one shell that it started is outstanding at any time, and
none is when it starts another one. -/
def Supervises (eintr : ℤ) (results : ℕ → ℤ) : Prop :=
  ∀ n, (∀ status, (supervise eintr results n).phase ≠ .exited status) ∧
    (outstanding (supervise eintr results n).calls).length ≤ 1 ∧
    ((supervise eintr results n).phase = .forking →
      outstanding (supervise eintr results n).calls = [])

/-- What is outstanding, by where the process is. -/
def Tracks (s : Init) : Prop :=
  match s.phase with
  | .waiting pid => outstanding s.calls = [pid]
  | _ => outstanding s.calls = []

theorem tracks_afterWait {eintr pid wpid : ℤ} {calls : List InitCall}
    (h : outstanding calls = [pid]) : Tracks (afterWait eintr pid wpid calls) := by
  unfold afterWait
  split_ifs with hpid hneg hintr
  · -- the shell is the one that was waited for
    unfold Tracks
    rw [outstanding, h, hpid, List.erase_cons_head]
  all_goals
    unfold Tracks
    simp only [outstanding, h]
    rw [List.erase_cons_tail (by simpa using Ne.symm hpid), List.erase_nil]

/-- **What one result changes.** -/
theorem tracks_superviseStep {eintr : ℤ} {s : Init} (h : Tracks s) (ret : ℤ) :
    Tracks (superviseStep eintr s ret) := by
  obtain ⟨phase, calls⟩ := s
  cases phase with
  | forking =>
    have hnone : outstanding calls = [] := h
    unfold superviseStep
    dsimp only
    split_ifs with hneg hzero
    · unfold Tracks
      rw [outstanding, if_neg (by omega), hnone]
    · unfold Tracks
      rw [outstanding, if_neg (by omega), hnone]
    · unfold Tracks
      rw [outstanding, if_pos (by omega), hnone]
  | waiting pid => exact tracks_afterWait h
  | exited status => exact h
  | shell => exact h

theorem tracks_supervise (eintr : ℤ) (results : ℕ → ℤ) (n : ℕ) :
    Tracks (supervise eintr results n) := by
  induction n with
  | zero => exact rfl
  | succ n ih => exact tracks_superviseStep ih _

/-- **No two shells**: at most one is outstanding, and none before a `fork`. -/
theorem outstanding_after (eintr : ℤ) (results : ℕ → ℤ) (n : ℕ) :
    (outstanding (supervise eintr results n).calls).length ≤ 1 ∧
      ((supervise eintr results n).phase = .forking →
        outstanding (supervise eintr results n).calls = []) := by
  have htracks := tracks_supervise eintr results n
  unfold Tracks at htracks
  constructor
  · split at htracks
    · rw [htracks]
      exact Nat.le_refl _
    · rw [htracks]
      exact Nat.zero_le _
  · intro hphase
    rw [hphase] at htracks
    exact htracks

/-- One result makes the process exit only where it is a failure of `fork`. -/
theorem not_exited_superviseStep {eintr ret : ℤ} {s : Init}
    (h : ∀ status, s.phase ≠ .exited status) (hfork : s.phase = .forking → 0 ≤ ret) :
    ∀ status, (superviseStep eintr s ret).phase ≠ .exited status := by
  intro status
  obtain ⟨phase, calls⟩ := s
  cases phase with
  | forking =>
    have hret := hfork rfl
    unfold superviseStep
    dsimp only
    rw [if_neg (by omega)]
    split_ifs <;> exact nofun
  | waiting pid =>
    unfold superviseStep afterWait
    dsimp only
    split_ifs <;> exact nofun
  | exited status' => exact absurd rfl (h status')
  | shell => exact nofun

/-- **When process 1 never exits.**  For all results of `fork` and `wait`: process 1 never
exits, and starts one shell after the other as `Supervises` says, exactly when no `fork` of the
loop fails. -/
theorem supervises_iff (eintr : ℤ) (results : ℕ → ℤ) : Supervises eintr results ↔
    ∀ n, (supervise eintr results n).phase = .forking → 0 ≤ results n := by
  constructor
  · intro h n hphase
    by_contra hneg
    refine (h (n + 1)).1 1 ?_
    rw [supervise, superviseStep, hphase]
    dsimp only
    rw [if_pos (by omega)]
  · intro hfork n
    refine ⟨?_, outstanding_after eintr results n⟩
    induction n with
    | zero => exact fun _ => nofun
    | succ n ih => exact not_exited_superviseStep ih (hfork n)

/-- **A `fork` that fails** ends process 1: the first one, with `-ENOMEM`. -/
theorem not_supervises : ¬Supervises 4 fun _ => -12 :=
  fun h => (h 1).1 1 rfl

end Tools
end V6User
