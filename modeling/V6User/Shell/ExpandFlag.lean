import V6User.Shell.Pieces
import V6User.Shell.RunLine

/-!
# Whether an expansion was cut off

`programs/sh/sh.c`: `expand_truncated`, and the calls of `expand_env_vars` in `run_line`.

The flag says whether the expander has read its whole input.  That is whether the expansion is
complete but for one case: the input ends in a reference.  A reference is read even where the
buffer has no room for all that it stands for, and it is not read where the buffer is full,
although it may stand for nothing (`expansionOk_iff`).
-/

namespace V6User
namespace Shell

/-- What `run_line` calls the expander with. -/
def LineForm.operand : LineForm → Option CStr
  | .cd path => some path
  | .echo text => some text
  | .external line => some line
  | _ => none

/-- What `run_line` would do with an expansion, if it were complete. -/
def LineForm.act (env : Env) (interactive : Bool) (text : List Byte) : LineForm → Turn
  | .cd _ => .returned 0 env [.cd text]
  | .echo _ => .returned 0 env [.printLine text]
  | .external _ =>
    match parsecmd (CStr.ofBytes text) with
    | .stopped why => .exited why
    | .syntaxError near => .returned 0 env [.errprintf "syntax error near: %s\n" near]
    | .cmd (.exec []) _ => .returned 0 env []
    | .cmd cmd buf => .returned 0 env [.forkRun interactive cmd buf]
  | _ => .returned 0 env []

/-- Without the flag the expansion is complete, with it the complete expansion is longer than
the buffer; and each caller acts on the complete expansion, or refuses one that is too long. -/
structure ExpansionOk (env : Env) (pid : ℕ) (input : CStr) : Prop where
  complete : (expandEnvVars env pid input).truncated = false →
    (expandEnvVars env pid input).out = fullExpansion env pid input
  long : (expandEnvVars env pid input).truncated = true →
    expandMax < (fullExpansion env pid input).length
  callers : ∀ interactive buf, (lineForm buf).operand = some input →
    runLine env pid interactive buf =
        (lineForm buf).act env interactive (fullExpansion env pid input) ∨
      expandMax < (fullExpansion env pid input).length ∧
        runLine env pid interactive buf =
          .returned (-1) env [.errprintf "sh: expanded command too long\n" []]

/-- If the input ends in a reference, that is not one which the buffer has room to begin and
not to end, nor an empty one after which the buffer is just full. -/
def LastFits (env : Env) (pid : ℕ) (input : CStr) : Prop :=
  ∀ ps r, pieces false 0 input.bytes = ps ++ [.ref r] →
    ¬((fullText env pid ps).length < expandMax ∧
        expandMax < (fullText env pid ps).length + (r.value env pid).length) ∧
      ¬((fullText env pid ps).length = expandMax ∧ r.value env pid = [])

section Flag

variable {env : Env} {pid : ℕ} {input : CStr}

theorem out_expandEnvVars (env : Env) (pid : ℕ) (input : CStr) :
    (expandEnvVars env pid input).out = (fullExpansion env pid input).take expandMax := by
  have hout := @expandLoop_out env pid false 0 input.bytes [] (Nat.zero_le _)
  rwa [List.nil_append] at hout

/-- The expansion is complete if the buffer has room for it. -/
theorem out_eq_iff : (expandEnvVars env pid input).out = fullExpansion env pid input ↔
    (fullExpansion env pid input).length ≤ expandMax := by
  rw [out_expandEnvVars]
  constructor
  · intro h
    have hlen := congrArg List.length h
    rw [List.length_take] at hlen
    omega
  · exact List.take_of_length_le

/-- The flag, by the last piece of the input. -/
theorem truncated_snoc {ps : List Piece} {x : Piece}
    (h : pieces false 0 input.bytes = ps ++ [x]) :
    (expandEnvVars env pid input).truncated = true ↔
      expandMax ≤ (fullText env pid ps).length := by
  have hiff := @expandLoop_truncated_iff env pid false 0 input.bytes []
    (Nat.zero_le _)
  rw [h, List.dropLast_concat, List.length_nil, Nat.zero_add] at hiff
  exact hiff.trans (and_iff_right (List.append_ne_nil_of_right_ne_nil _ (List.cons_ne_nil _ _)))

theorem length_fullExpansion_snoc {ps : List Piece} {x : Piece}
    (h : pieces false 0 input.bytes = ps ++ [x]) :
    (fullExpansion env pid input).length =
      (fullText env pid ps).length + (x.text env pid).length := by
  rw [fullExpansion, h, fullText_append, List.length_append, fullText_cons, fullText_nil,
    List.append_nil]

/-- The flag is right about an input that ends as it should. -/
theorem LastFits.truncated_iff (h : LastFits env pid input) :
    (expandEnvVars env pid input).truncated = true ↔
      expandMax < (fullExpansion env pid input).length := by
  rcases List.eq_nil_or_concat (pieces false 0 input.bytes) with hnil | ⟨ps, x, hps⟩
  · have hiff := @expandLoop_truncated_iff env pid false 0 input.bytes []
      (Nat.zero_le _)
    rw [fullExpansion, hnil]
    rw [hnil] at hiff
    refine hiff.trans (iff_of_false (fun hne => hne.1 rfl) ?_)
    exact Nat.not_lt_zero _
  · rw [List.concat_eq_append] at hps
    rw [truncated_snoc hps, length_fullExpansion_snoc hps]
    cases x with
    | byte b =>
      rw [Piece.text, List.length_singleton]
      omega
    | ref r =>
      obtain ⟨hcut, hempty⟩ := h ps r hps
      rw [Piece.text]
      rw [← List.length_eq_zero_iff] at hempty
      omega

/-- The callers look at the flag. -/
theorem runLine_of_operand (interactive : Bool) {buf : CStr}
    (hoperand : (lineForm buf).operand = some input) :
    runLine env pid interactive buf =
      if (expandEnvVars env pid input).truncated then
        .returned (-1) env [.errprintf "sh: expanded command too long\n" []]
      else (lineForm buf).act env interactive (expandEnvVars env pid input).out := by
  rw [runLine]
  cases hform : lineForm buf with
  | cd path =>
    rw [hform] at hoperand
    obtain rfl := Option.some.inj hoperand
    rfl
  | echo text =>
    rw [hform] at hoperand
    obtain rfl := Option.some.inj hoperand
    rfl
  | external line =>
    rw [hform] at hoperand
    obtain rfl := Option.some.inj hoperand
    have hexpanded : CStr.ofBytes (expandEnvVars env pid line).out = expanded env pid line :=
      CStr.mk.injEq .. ▸ ofBytes_bytes (expanded env pid line).nul_free
    dsimp only [LineForm.act]
    rw [hexpanded]
    rfl
  | _ =>
    rw [hform] at hoperand
    exact absurd hoperand.symm (Option.some_ne_none input)

/-- **When the flag tells whether the expansion was cut off.**  For every input and every
table, with the callers acting on it accordingly, exactly if the input does not end in a
reference that the buffer has room to begin and not to end, nor in an empty one after which
it is just full. -/
theorem expansionOk_iff (env : Env) (pid : ℕ) (input : CStr) :
    ExpansionOk env pid input ↔ LastFits env pid input := by
  constructor
  · rintro ⟨hcomplete, hlong, -⟩ ps r hps
    have hflag := @truncated_snoc env pid _ _ _ hps
    have hlen := @length_fullExpansion_snoc env pid _ _ _ hps
    rw [Piece.text] at hlen
    constructor
    · rintro ⟨hbegins, hends⟩
      have hclear : (expandEnvVars env pid input).truncated = false := by
        rw [← Bool.not_eq_true, hflag]
        omega
      have hroom := out_eq_iff.1 (hcomplete hclear)
      omega
    · rintro ⟨hfull, hempty⟩
      have hmore := hlong (hflag.2 hfull.ge)
      rw [hempty, List.length_nil] at hlen
      omega
  · intro hfits
    have hiff := hfits.truncated_iff
    have hcomplete : (expandEnvVars env pid input).truncated = false →
        (expandEnvVars env pid input).out = fullExpansion env pid input := by
      intro hclear
      refine out_eq_iff.2 (Nat.le_of_not_lt fun hlt => ?_)
      exact Bool.false_ne_true (hclear.symm.trans (hiff.2 hlt))
    refine ⟨hcomplete, hiff.1, fun interactive buf hoperand => ?_⟩
    rw [runLine_of_operand interactive hoperand]
    by_cases hflag : (expandEnvVars env pid input).truncated = true
    · rw [if_pos hflag]
      exact .inr ⟨hiff.1 hflag, rfl⟩
    · rw [if_neg hflag, hcomplete (Bool.eq_false_iff.2 hflag)]
      exact .inl rfl

end Flag

/-- The table with `V` set. -/
def onlyV (value : CStr) : Env := (envSet .cleared ⟨[86], by decide⟩ value).getD .cleared

theorem value_onlyV (value : CStr) (pid : ℕ) :
    (Ref.named [86]).value (onlyV value) pid = value.bytes.take (maxEnvValue - 1) := rfl

/-- The table with `V` set to 255 times `a`. -/
def longValue : Env := onlyV (CStr.ofBytes (List.replicate 255 97))

/-- **Nine times `$V`** expands to 2295 bytes, of which the first 2047 are taken for all. -/
theorem not_expansionOk : ¬ExpansionOk longValue 1
    ⟨[36, 86, 36, 86, 36, 86, 36, 86, 36, 86, 36, 86, 36, 86, 36, 86, 36, 86], by decide⟩ := by
  rintro ⟨hcomplete, -, -⟩
  have hvalue : ((Ref.named [86]).value longValue 1).length = 255 := by
    rw [longValue, value_onlyV, ofBytes_bytes, List.take_replicate, List.length_replicate]
    · rfl
    · exact fun h => absurd (List.eq_of_mem_replicate h) (by decide)
  have hpieces : pieces false 0
      [36, 86, 36, 86, 36, 86, 36, 86, 36, 86, 36, 86, 36, 86, 36, 86, 36, 86] =
      List.replicate 8 (.ref (.named [86])) ++ [.ref (.named [86])] := by rfl
  have hlen : ∀ n, (fullText longValue 1 (List.replicate n (.ref (.named [86])))).length =
      n * 255 := by
    intro n
    induction n with
    | zero => rfl
    | succ n ih =>
      rw [List.replicate_succ, fullText_cons, List.length_append, ih, Piece.text, hvalue]
      omega
  have hclear : (expandEnvVars longValue 1 ⟨[36, 86, 36, 86, 36, 86, 36, 86, 36, 86, 36, 86, 36, 86,
      36, 86, 36, 86], by decide⟩).truncated = false := by
    rw [← Bool.not_eq_true, truncated_snoc hpieces, hlen]
    decide
  have hroom := out_eq_iff.1 (hcomplete hclear)
  rw [length_fullExpansion_snoc hpieces, hlen, Piece.text, hvalue] at hroom
  exact absurd hroom (by decide)

end Shell
end V6User
