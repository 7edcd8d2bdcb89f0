import Mathlib.Data.Int.Init
import Mathlib.Data.List.Basic
import Mathlib.Tactic.Common

/-!
# Steps one after another, up to the first that fails

A program that makes one step after another and gives up at the first whose result is not good
is a list of steps.  `trace` is what it does, where step `n` has the result `result n`, and
`firstFailure` is the step at which it gives up.  A computation `Performs` such a list if it
does that after whatever was done before; the tests between the steps put the lists together
(`Performs.unlessFails`).
-/

namespace V6User
namespace Script

variable {α β : Type} (result : ℕ → β) (good : β → Prop) [DecidablePred good]

/-- The steps that are made from number `n` on, and their results. -/
def trace : ℕ → List α → List (α × β)
  | _, [] => []
  | n, a :: as => (a, result n) :: if good (result n) then trace (n + 1) as else []

/-- The first step whose result is not good. -/
def firstFailure : ℕ → List α → Option α
  | _, [] => none
  | n, a :: as => if good (result n) then firstFailure (n + 1) as else some a

section Lists

variable {result good} {as bs : List α} {n : ℕ}

theorem firstFailure_append (as bs : List α) (n : ℕ) :
    firstFailure result good n (as ++ bs) =
      (firstFailure result good n as).or (firstFailure result good (n + as.length) bs) := by
  induction as generalizing n with
  | nil => rw [List.nil_append, firstFailure, Option.none_or, List.length_nil, Nat.add_zero]
  | cons a as ih =>
    rw [List.cons_append, firstFailure, firstFailure, List.length_cons,
      Nat.add_comm as.length 1, ← Nat.add_assoc]
    split_ifs
    · exact ih (n + 1)
    · rfl

/-- The steps of the second list are made if all of the first succeed. -/
theorem trace_append (as bs : List α) (n : ℕ) :
    trace result good n (as ++ bs) = trace result good n as ++
      if firstFailure result good n as = none then trace result good (n + as.length) bs
      else [] := by
  induction as generalizing n with
  | nil => rw [List.nil_append, trace, firstFailure, if_pos rfl, List.nil_append,
      List.length_nil, Nat.add_zero]
  | cons a as ih =>
    rw [List.cons_append, trace, trace, firstFailure, List.length_cons, List.cons_append,
      Nat.add_comm as.length 1, ← Nat.add_assoc]
    by_cases hgood : good (result n)
    · rw [if_pos hgood, if_pos hgood, if_pos hgood, ih (n + 1)]
    · rw [if_neg hgood, if_neg hgood, if_neg hgood, if_neg (by simp), List.append_nil]

theorem length_trace (h : firstFailure result good n as = none) :
    (trace result good n as).length = as.length := by
  induction as generalizing n with
  | nil => rfl
  | cons a as ih =>
    rw [firstFailure] at h
    split_ifs at h with hgood
    rw [trace, if_pos hgood, List.length_cons, List.length_cons, ih h]

end Lists

/-! ### Computations -/

/-- Make a step. -/
def step (a : α) : StateM (List (α × β)) β := fun log =>
  (result log.length, log ++ [(a, result log.length)])

/-- The computation makes the steps `as` up to the first failure, and returns `r` if there is
none and `bad` if there is one. -/
def Performs (m : StateM (List (α × β)) ℤ) (as : List α) (r bad : ℤ) : Prop :=
  ∀ log, m log = (if firstFailure result good log.length as = none then r else bad,
    log ++ trace result good log.length as)

/-- `if (m < 0) return bad;` and what follows it. -/
def unlessFails (m : StateM (List (α × β)) ℤ) (bad : ℤ) (rest : StateM (List (α × β)) ℤ) :
    StateM (List (α × β)) ℤ := do
  if (← m) < 0 then return bad
  rest

variable {result good} {as bs : List α} {m rest : StateM (List (α × β)) ℤ} {r r' bad bad' : ℤ}

theorem unlessFails_run (log : List (α × β)) :
    unlessFails m bad rest log =
      if (m log).1 < 0 then (bad, (m log).2) else rest (m log).2 := by
  change (if (m log).1 < 0 then (pure bad : StateM (List (α × β)) ℤ) else rest) (m log).2 = _
  split_ifs <;> rfl

namespace Performs

theorem pure (r bad : ℤ) : Performs result good (Pure.pure r) ([] : List α) r bad := by
  intro log
  rw [firstFailure, trace, if_pos rfl, List.append_nil]
  rfl

/-- **One list of steps after another**, with a test between them. -/
theorem unlessFails (hm : Performs result good m as r bad) (hr : 0 ≤ r) (hbad : bad < 0)
    (hrest : Performs result good rest bs r' bad') :
    Performs result good (Script.unlessFails m bad' rest) (as ++ bs) r' bad' := by
  intro log
  rw [unlessFails_run, hm log, firstFailure_append, trace_append]
  cases hfail : firstFailure result good log.length as with
  | none =>
    have hlength : (log ++ trace result good log.length as).length =
        log.length + as.length := by
      rw [List.length_append, length_trace hfail]
    rw [if_pos rfl, if_pos rfl, if_neg (Int.not_lt.2 hr), hrest, hlength, Option.none_or,
      List.append_assoc]
  | some a =>
    have hsome : ¬some a = none := Option.some_ne_none a
    rw [if_neg hsome, if_neg hsome, if_pos hbad, Option.some_or, if_neg hsome, List.append_nil]

/-- A computation that fails in any case is the last one. -/
theorem unlessFails_of_neg (hm : Performs result good m as r bad) (hr : r < 0) (hbad : bad < 0) :
    Performs result good (Script.unlessFails m bad' rest) as bad' bad' := by
  intro log
  rw [unlessFails_run, hm log]
  split_ifs <;> rfl

end Performs

end Script
end V6User
