import V6User.Base.Fuel
import V6User.Shell.TokenParser

/-!
# More fuel gives the same result

The parser of `programs/sh/sh.c` is modelled with fuel.  A call that has enough of it
gives the same result with more (`tok_mono`, `tokLine_mono`), so a result does not depend
on the fuel it was found with.
-/

namespace V6User
namespace Shell

open Fuel

/-! ### More fuel gives the same result -/

theorem tokRedirs_mono (cmd : Cmd Span) (ts : List Tok) :
    Mono .fuel (fun n => tokRedirs n cmd ts) := by
  intro n
  induction n generalizing cmd ts with
  | zero => exact le_out _
  | succ n ih =>
    match ts with
    | [] => exact Le.refl _
    | t :: ts =>
      simp only [tokRedirs]
      cases t.redir? with
      | none => exact Le.refl _
      | some f =>
        match ts with
        | [] => exact Le.refl _
        | u :: us => cases u <;> first | exact ih _ _ | exact Le.refl _

theorem tokExecLoop_mono (argc : ℕ) (ret : Cmd Span) (ts : List Tok) :
    Mono .fuel (fun n => tokExecLoop n argc ret ts) := by
  intro n
  induction n generalizing argc ret ts with
  | zero => exact le_out _
  | succ n ih =>
    match ts with
    | [] => exact Le.refl _
    | t :: ts =>
      cases t with
      | word w =>
        simp only [tokExecLoop]
        split_ifs
        · exact Le.refl _
        · exact (tokRedirs_mono _ _ n).bind fun r => ih _ _ _
      | _ => exact Le.refl _

theorem tok_mono (n : ℕ) :
    (∀ ts, Le .fuel (tokLine n ts) (tokLine (n + 1) ts)) ∧
      (∀ cmd ts, Le .fuel (tokLineLoop n cmd ts) (tokLineLoop (n + 1) cmd ts)) ∧
      (∀ ts, Le .fuel (tokPipe n ts) (tokPipe (n + 1) ts)) ∧
      (∀ ts, Le .fuel (tokExec n ts) (tokExec (n + 1) ts)) ∧
      (∀ ts, Le .fuel (tokBlock n ts) (tokBlock (n + 1) ts)) := by
  induction n with
  | zero =>
    exact ⟨fun _ => le_out _, fun _ _ => le_out _, fun _ => le_out _, fun _ => le_out _,
      fun _ => le_out _⟩
  | succ n ih =>
    obtain ⟨hline, hloop, hpipe, hexec, hblock⟩ := ih
    refine ⟨fun ts => ?_, fun cmd ts => ?_, fun ts => ?_, fun ts => ?_, fun ts => ?_⟩
    · exact (hpipe ts).bind fun r => hloop r.1 r.2
    · match ts with
      | [] => exact Le.refl _
      | t :: ts =>
        cases t with
        | amp =>
          match ts with
          | [] => exact hloop _ _
          | u :: us =>
            cases u with
            | amp => exact hloop _ _
            | semi => exact hloop _ _
            | _ => exact (hline _).bind fun r => Le.refl _
        | semi => exact (hline _).bind fun r => Le.refl _
        | _ => exact Le.refl _
    · refine (hexec ts).bind fun l => ?_
      match l.2 with
      | [] => exact Le.refl _
      | t :: ts =>
        cases t with
        | pipe => exact (hpipe ts).bind fun r => Le.refl _
        | _ => exact Le.refl _
    · have hplain : ∀ ts, Le .fuel
          (tokRedirs n (.exec []) ts >>= fun r => tokExecLoop n 0 r.1 r.2)
          (tokRedirs (n + 1) (.exec []) ts >>= fun r => tokExecLoop (n + 1) 0 r.1 r.2) :=
        fun ts => (tokRedirs_mono _ _ n).bind fun r => tokExecLoop_mono _ _ _ n
      match ts with
      | [] => exact hplain _
      | t :: ts =>
        cases t with
        | lparen => exact hblock _
        | _ => exact hplain _
    · match ts with
      | [] => exact Le.refl _
      | t :: ts =>
        cases t with
        | lparen =>
          refine (hline ts).bind fun r => ?_
          match r.2 with
          | [] => exact Le.refl _
          | u :: us =>
            cases u with
            | rparen => exact tokRedirs_mono _ _ n
            | _ => exact Le.refl _
        | _ => exact Le.refl _

theorem tokLine_mono (ts : List Tok) : Mono .fuel (fun n => tokLine n ts) :=
  fun n => (tok_mono n).1 ts

end Shell
end V6User
