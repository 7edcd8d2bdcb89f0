import V6User.Shell.Pieces
import V6User.Shell.Words

/-!
# Builtins and the commands they stand for

`programs/sh/sh.c`: `cd`, `ls` and `echo` in `run_line`, against `expand_env_vars`,
`parsecmd` and `nulterminate` on the same line; `programs/echo/echo.c`: `main`.

A builtin takes the rest of the line as its operand: `cd` and `echo` with the variables
expanded, `ls` as it is written.  The parser cuts the expanded line into words and takes
their quotes away.  The two come to the same where the operand is made of plain words
(`Builtin.Plain`), and, but for references, nowhere else (`builtin_operands`).
-/

namespace V6User
namespace Shell

/-- The builtins that take the rest of the line for their operand. -/
inductive Builtin where
  | cd
  | ls
  | echo
  deriving DecidableEq, Repr

/-- The name of a builtin. -/
def Builtin.name : Builtin → List Byte
  | .cd => [99, 100]
  | .ls => [108, 115]
  | .echo => [101, 99, 104, 111]

/-- A line with the name of a builtin, a blank and an operand. -/
def Builtin.line (b : Builtin) (arg : CStr) : CStr where
  bytes := b.name ++ space :: arg.bytes ++ [newline]
  nul_free := by
    have harg := arg.nul_free
    cases b <;> simp [Builtin.name, space, newline, harg]

/-- What `run_line` takes such a line for. -/
def Builtin.form (b : Builtin) (arg : CStr) : LineForm :=
  match b with
  | .cd => .cd arg
  | .ls => .ls arg
  | .echo => .echo arg

/-- The words that the end of `run_line` would put in `argv` for a line. -/
def externalArgv (env : Env) (pid : ℕ) (line : CStr) : Option (List (List Byte)) :=
  if (expandEnvVars env pid line).truncated then none else argvOf (expanded env pid line)

/-- The loop of `echo`'s `main` over the arguments after the first. -/
def echoWrites : List (List Byte) → List Byte
  | [] => []
  | [a] => a ++ [newline]
  | a :: b :: args => a ++ [space] ++ echoWrites (b :: args)

/-- What `echo` writes. -/
def echoMain (argv : List (List Byte)) : List Byte := echoWrites argv.tail

/-- The builtin acts on the words that would be in `argv`: `cd` goes to the only word
after the name, `ls` lists it, and `echo` writes what the command would write. -/
def Action.Agrees (argv : Option (List (List Byte))) : Action → Prop
  | .cd path => argv = some [Builtin.cd.name, path]
  | .ls path => argv = some [Builtin.ls.name, path.bytes]
  | .printLine text => ∃ args, argv = some (Builtin.echo.name :: args) ∧
      echoMain (Builtin.echo.name :: args) = text ++ [newline]
  | _ => True

/-- All that a call of `run_line` did agrees with what would be in `argv`. -/
def Turn.Agrees (argv : Option (List (List Byte))) : Turn → Prop
  | .returned _ _ did => ∀ a ∈ did, a.Agrees argv
  | .exited _ => True

/-- The expanded line fits into the buffer. -/
def Builtin.Fits (b : Builtin) (env : Env) (pid : ℕ) (arg : CStr) : Prop :=
  (expandEnvVars env pid (b.line arg)).truncated = false ∧
    (fullExpansion env pid (b.line arg)).length ≤ expandMax

/-- The line expands to the name, a blank, the expansion of the operand, and the newline
if no `${` at the end of the operand takes it in. -/
def Builtin.KeepsOperand (b : Builtin) (env : Env) (pid : ℕ) (arg : CStr) : Prop :=
  ∃ e ∈ [[newline], []],
    fullExpansion env pid (b.line arg) = b.name ++ space :: fullExpansion env pid arg ++ e

/-- Plain words with one blank between two of them, as many as `argv` has room for. -/
def PlainWords (text : List Byte) : Prop :=
  ∃ ws : List (List Byte), ws ≠ [] ∧ ws.length + 1 < maxArgs ∧ (∀ w ∈ ws, PlainWord w) ∧
    [space].intercalate ws = text

/-- The operand stands for itself: the expansion of what follows `cd` is a plain word,
what follows `ls` is one and is not changed by the expansion, and the expansion of what
follows `echo` is plain words. -/
def Builtin.Plain (b : Builtin) (env : Env) (pid : ℕ) (arg : CStr) : Prop :=
  match b with
  | .cd => (expandEnvVars env pid arg).truncated = true ∨
      b.Fits env pid arg ∧ b.KeepsOperand env pid arg ∧ PlainWord (fullExpansion env pid arg)
  | .ls => b.Fits env pid arg ∧ b.KeepsOperand env pid arg ∧
      fullExpansion env pid arg = arg.bytes ∧ PlainWord arg.bytes
  | .echo => (expandEnvVars env pid arg).truncated = true ∨
      b.Fits env pid arg ∧ b.KeepsOperand env pid arg ∧ PlainWords (fullExpansion env pid arg)

/-! ### The line is a builtin -/

theorem Builtin.plainWord_name (b : Builtin) : PlainWord b.name := by
  cases b <;> exact ⟨List.cons_ne_nil _ _, List.all_eq_true.1 rfl⟩

/-- The first word of the line is the name, which is no assignment. -/
theorem Builtin.not_assignments (b : Builtin) (arg : CStr) :
    ¬(blankWords (b.line arg) ≠ [] ∧ (blankWords (b.line arg)).all isEnvAssignmentWord) := by
  have hfirst : ∃ ws, blankWords (b.line arg) = CStr.ofBytes b.name :: ws := by
    obtain ⟨l, hl⟩ : ∃ l, (b.line arg).bytes.take (lineBufSize - 1) = b.name ++ space :: l := by
      refine ⟨(arg.bytes ++ [newline]).take (lineBufSize - 1 - (b.name.length + 1)), ?_⟩
      cases b <;> rfl
    have hname : ∀ c ∈ b.name, (c == space || c == 9 || c == newline) = false := by
      have hall : (b.name.all fun c => !(c == space || c == 9 || c == newline)) = true := by
        cases b <;> rfl
      exact fun c hc => Bool.not_eq_true' _ ▸ List.all_eq_true.1 hall c hc
    have hne : b.name ≠ [] := b.plainWord_name.ne_nil
    unfold blankWords
    rw [hl, List.splitOnP_append_cons_of_forall_mem hname space rfl,
      List.filter_cons, if_pos (decide_eq_true hne), List.map_cons]
    exact ⟨_, rfl⟩
  obtain ⟨ws, hws⟩ := hfirst
  rintro ⟨-, hall⟩
  rw [hws, List.all_cons, Bool.and_eq_true] at hall
  have hname : isEnvAssignmentWord (CStr.ofBytes b.name) = false := by cases b <;> rfl
  exact Bool.false_ne_true (hname.symm.trans hall.1)

theorem Builtin.chop_line (b : Builtin) (arg : CStr) :
    (b.line arg).chop.bytes = b.name ++ space :: arg.bytes := by
  have hlen : (b.line arg).bytes.length - 1 = (b.name ++ space :: arg.bytes).length := by
    rw [Builtin.line, List.length_append, List.length_singleton, Nat.add_sub_cancel]
  rw [CStr.chop, CStr.take_bytes, hlen]
  exact List.take_left

theorem Builtin.operand_line (b : Builtin) (arg : CStr) {k : ℕ} (hk : k = b.name.length + 1) :
    (b.line arg).chop.drop k = arg := by
  have hbytes : ((b.line arg).chop.drop k).bytes = arg.bytes := by
    rw [CStr.drop_bytes, b.chop_line, hk, ← List.drop_drop, List.drop_left]
    rfl
  cases arg
  exact CStr.mk.injEq .. ▸ hbytes

/-- A builtin with an operand and without operators is taken for the builtin. -/
theorem Builtin.lineFormOf_line (b : Builtin) (arg : CStr) (hne : arg.bytes ≠ [])
    (hop : lineHasControlOperator (b.line arg) = false) :
    lineFormOf (b.line arg) = b.form arg := by
  have hblank : isBlankLine (b.line arg) = false := by
    cases b <;> rfl
  rw [lineFormOf, hblank, hop, if_neg Bool.false_ne_true, if_neg Bool.false_ne_true,
    if_neg (b.not_assignments arg)]
  -- which tests the line passes is decided by its first bytes
  have hpos : ∀ {l : List Byte}, l.isPrefixOf (b.line arg).bytes = true →
      (b.line arg).startsWith l = true := id
  have hneg : ∀ {l : List Byte}, l.isPrefixOf (b.line arg).bytes = false →
      (b.line arg).startsWith l ≠ true := fun h => Bool.eq_false_iff.1 h
  cases b with
  | cd =>
    rw [if_pos (hpos rfl), Builtin.cd.operand_line arg (k := 3) rfl]
    rfl
  | ls =>
    obtain ⟨d, l, harg⟩ := List.exists_cons_of_ne_nil hne
    have hd : d ≠ 0 := fun h => arg.nul_free (by rw [harg, h]; exact List.mem_cons_self)
    have hat : ¬((Builtin.ls.line arg).chop.at 2 = 0 ∨ (Builtin.ls.line arg).chop.at 3 = 0) := by
      have hspace : space ≠ 0 := by decide
      rw [CStr.at, CStr.at, Builtin.ls.chop_line, harg]
      rintro (h | h)
      · exact hspace h
      · exact hd h
    rw [if_neg (hneg rfl), if_pos ⟨hpos rfl, .inr rfl⟩, if_neg hat,
      Builtin.ls.operand_line arg (k := 3) rfl]
    rfl
  | echo =>
    rw [if_neg (hneg rfl), if_neg fun h => hneg rfl h.1, if_neg fun h => hneg rfl h.1,
      if_neg fun h => hneg rfl h.1, if_neg (hneg rfl), if_neg (hneg rfl), if_pos (hpos rfl),
      Builtin.echo.operand_line arg (k := 5) rfl]
    rfl

/-! ### The expanded line -/

section Expansion

variable {b : Builtin} {env : Env} {pid : ℕ} {arg : CStr}

theorem pieces_line (hclosed : Closed arg) : pieces false 0 (b.line arg).bytes =
    ((b.name ++ [space]).map .byte ++ pieces false 0 arg.bytes) ++ [.byte newline] := by
  have hcopied : ∀ c ∈ b.name ++ [space], c ≠ squote ∧ c ≠ dollar := by
    have hall : ((b.name ++ [space]).all fun c => c != squote && c != dollar) = true := by
      cases b <;> rfl
    intro c hc
    simpa using List.all_eq_true.1 hall c hc
  have hnewline : EndsRef newline := ⟨by decide, by decide, by decide, by decide, by decide⟩
  have hline : (b.line arg).bytes = (b.name ++ [space]) ++ (arg.bytes ++ [newline]) := by
    simp [Builtin.line]
  rw [hline, pieces_prefix hcopied, pieces_append hnewline _ _ _ (Nat.zero_le _) hclosed,
    List.append_assoc]

/-- Without an open `${` the newline stands for itself. -/
theorem fullExpansion_line (hclosed : Closed arg) : fullExpansion env pid (b.line arg) =
    b.name ++ space :: fullExpansion env pid arg ++ [newline] := by
  rw [fullExpansion, pieces_line hclosed, fullText_append, fullText_append, fullText_map_byte,
    List.append_assoc b.name, List.singleton_append]
  rfl

theorem fits_of_closed (hclosed : Closed arg)
    (h : (expandEnvVars env pid (b.line arg)).truncated = false) : b.Fits env pid arg := by
  refine ⟨h, ?_⟩
  have hiff := @expandLoop_truncated_iff env pid false 0 (b.line arg).bytes []
    (Nat.zero_le _)
  have hne : pieces false 0 (b.line arg).bytes ≠ [] := by
    rw [pieces_line hclosed]
    exact List.append_ne_nil_of_right_ne_nil _ (List.cons_ne_nil _ _)
  have hlt : ¬expandMax ≤ (fullText env pid (pieces false 0 (b.line arg).bytes).dropLast).length :=
    fun hle => Bool.false_ne_true (h.symm.trans (hiff.2 ⟨hne, (Nat.zero_add _).symm ▸ hle⟩))
  rw [pieces_line hclosed, List.dropLast_concat] at hlt
  rw [fullExpansion, pieces_line hclosed, fullText_append, List.length_append,
    show fullText env pid [.byte newline] = [newline] from rfl, List.length_singleton]
  omega

/-- The operand is expanded in full. -/
theorem out_of_fits (hfits : b.Fits env pid arg) (hkeeps : b.KeepsOperand env pid arg) :
    (expandEnvVars env pid arg).out = fullExpansion env pid arg := by
  obtain ⟨e, -, he⟩ := hkeeps
  have hlen := hfits.2
  rw [he, List.length_append, List.length_append, List.length_cons] at hlen
  have hout := @expandLoop_out env pid false 0 arg.bytes [] (Nat.zero_le _)
  rw [List.nil_append, List.take_of_length_le] at hout
  · exact hout
  · exact show (fullExpansion env pid arg).length ≤ expandMax by omega

end Expansion

/-! ### The operand as words -/

/-- Plain words with blanks between them. -/
theorem spells_intercalate {ws : List (List Byte)} (hplain : ∀ w ∈ ws, PlainWord w)
    {e : List Byte} (he : ∀ b ∈ e, strchr whitespace b = true) :
    Spells ([space].intercalate ws ++ e) ws := by
  induction ws with
  | nil => exact .nil he
  | cons w ws ih =>
    obtain ⟨hw, hws⟩ := List.forall_mem_cons.1 hplain
    cases ws with
    | nil =>
      rw [List.intercalate_singleton]
      refine Spells.cons (g := []) nofun hw ?_ (.nil he)
      rcases e with _ | ⟨c, e⟩
      · exact .inl rfl
      · exact .inr ⟨c, e, rfl, Bool.or_eq_true_iff.2 (.inl (he c List.mem_cons_self))⟩
    | cons v ws =>
      rw [List.intercalate_cons_cons, List.append_assoc, List.append_assoc]
      refine Spells.cons (g := []) nofun hw (.inr ⟨space, _, rfl, rfl⟩) ?_
      exact (ih hws).blank (g := [space]) (List.all_eq_true.1 rfl)

theorem echoWrites_eq {args : List (List Byte)} (h : args ≠ []) :
    echoWrites args = [space].intercalate args ++ [newline] := by
  induction args with
  | nil => exact absurd rfl h
  | cons a args ih =>
    cases args with
    | nil => rw [List.intercalate_singleton]; rfl
    | cons b args =>
      rw [echoWrites, ih (List.cons_ne_nil _ _), List.intercalate_cons_cons]
      simp only [List.append_assoc]

section Words

variable {b : Builtin} {env : Env} {pid : ℕ} {arg : CStr} {ws : List (List Byte)}

/-- Plain words in the operand come back in `argv`. -/
theorem externalArgv_of_words (hfits : b.Fits env pid arg) (hkeeps : b.KeepsOperand env pid arg)
    (hne : ws ≠ []) (hmax : ws.length + 1 < maxArgs) (hplain : ∀ w ∈ ws, PlainWord w)
    (hws : [space].intercalate ws = fullExpansion env pid arg) :
    externalArgv env pid (b.line arg) = some (b.name :: ws) := by
  obtain ⟨e, he, hline⟩ := hkeeps
  have hblank : ∀ c ∈ e, strchr whitespace c = true := by
    rcases List.mem_cons.1 he with rfl | he
    · exact List.all_eq_true.1 rfl
    · rw [List.mem_singleton.1 he]
      exact nofun
  have hall : ∀ w ∈ b.name :: ws, PlainWord w := List.forall_mem_cons.2 ⟨b.plainWord_name, hplain⟩
  have htext : (expanded env pid (b.line arg)).bytes = [space].intercalate (b.name :: ws) ++ e := by
    obtain ⟨w, ws, rfl⟩ := List.exists_cons_of_ne_nil hne
    rw [expanded_bytes _ hfits.2, hline, ← hws, List.intercalate_cons_cons,
      List.append_assoc b.name, List.append_assoc,
      List.append_assoc]
    rfl
  have hspells := spells_intercalate hall hblank
  rw [← htext] at hspells
  rw [externalArgv, if_neg (Bool.eq_false_iff.1 hfits.1)]
  exact argvOf_spells hspells hmax

/-- Words in `argv` that add up to the operand are plain. -/
theorem words_of_externalArgv (hclosed : Closed arg)
    (h : externalArgv env pid (b.line arg) = some (b.name :: ws))
    (hws : [space].intercalate ws = fullExpansion env pid arg) :
    ws.length + 1 < maxArgs ∧ ∀ w ∈ ws, PlainWord w := by
  rw [externalArgv] at h
  split_ifs at h with htrunc
  have hfits := fits_of_closed hclosed (Bool.eq_false_iff.2 htrunc)
  have htext : (expanded env pid (b.line arg)).bytes =
      b.name ++ (space :: fullExpansion env pid arg ++ [newline]) := by
    rw [expanded_bytes _ hfits.2, fullExpansion_line hclosed, List.append_assoc]
  obtain ⟨htok, -⟩ := gettoken_plain (c := (expanded env pid (b.line arg)).cursor) (g := [])
    htext nofun b.plainWord_name (.inr ⟨space, _, rfl, rfl⟩)
  have hlast : (expanded env pid (b.line arg)).bytes.getLast? ≠ some backslash := by
    rw [htext, ← List.append_assoc, List.getLast?_concat]
    decide
  have hcount : ([space].intercalate (b.name :: ws)).countP solid =
      (expanded env pid (b.line arg)).bytes.countP solid := by
    have hspace : solid space = false := by decide
    have hnewline : [newline].countP solid = 0 := by decide
    rw [countP_intercalate, List.map_cons, List.sum_cons, ← countP_intercalate, hws, htext,
      List.cons_append, List.countP_append, List.countP_cons_of_neg (by rw [hspace]; decide),
      List.countP_append, hnewline, Nat.add_zero]
  obtain ⟨hlen, hplain⟩ := plain_of_argvOf h (tokens_of_some htok) hlast hcount
  exact ⟨hlen, fun w hw => hplain w (List.mem_cons_of_mem _ hw)⟩

/-! ### The builtins and the commands -/

/-- The builtin does nothing, or the words after the name in `argv` are its operand. -/
def Builtin.Operands (b : Builtin) (argv : Option (List (List Byte))) (env : Env) (pid : ℕ)
    (arg : CStr) : Prop :=
  match b with
  | .cd => (expandEnvVars env pid arg).truncated = false →
      argv = some [b.name, (expandEnvVars env pid arg).out]
  | .ls => argv = some [b.name, arg.bytes]
  | .echo => (expandEnvVars env pid arg).truncated = false →
      ∃ args, argv = some (b.name :: args) ∧
        echoMain (b.name :: args) = (expandEnvVars env pid arg).out ++ [newline]

theorem agrees_runLine_iff {buf : CStr} (interactive : Bool)
    (hbuf : withNewline buf = some (b.line arg)) (hne : arg.bytes ≠ [])
    (hop : lineHasControlOperator (b.line arg) = false) (argv : Option (List (List Byte))) :
    (runLine env pid interactive buf).Agrees argv ↔ b.Operands argv env pid arg := by
  have hform : lineForm buf = b.form arg := by
    rw [lineForm, hbuf]
    exact b.lineFormOf_line arg hne hop
  rw [runLine, hform]
  cases b with
  | ls => simp [Builtin.form, Builtin.Operands, Turn.Agrees, Action.Agrees]
  | cd =>
    by_cases ht : (expandEnvVars env pid arg).truncated = true <;>
      simp [ht, Builtin.form, Builtin.Operands, Turn.Agrees, Action.Agrees]
  | echo =>
    by_cases ht : (expandEnvVars env pid arg).truncated = true <;>
      simp [ht, Builtin.form, Builtin.Operands, Turn.Agrees, Action.Agrees]

theorem one_lt_maxArgs : 1 + 1 < maxArgs := by decide

/-- Plain operands are what the command would get. -/
theorem operands_of_plain (h : b.Plain env pid arg) :
    b.Operands (externalArgv env pid (b.line arg)) env pid arg := by
  cases b with
  | cd =>
    intro ht
    obtain ⟨hfits, hkeeps, hplain⟩ := h.resolve_left (Bool.eq_false_iff.1 ht)
    rw [out_of_fits hfits hkeeps]
    exact externalArgv_of_words hfits hkeeps (List.cons_ne_nil _ _) one_lt_maxArgs
      (List.forall_mem_singleton.2 hplain) List.intercalate_singleton
  | ls =>
    obtain ⟨hfits, hkeeps, hsame, hplain⟩ := h
    exact externalArgv_of_words hfits hkeeps (List.cons_ne_nil _ _) one_lt_maxArgs
      (List.forall_mem_singleton.2 hplain) (List.intercalate_singleton.trans hsame.symm)
  | echo =>
    intro ht
    obtain ⟨hfits, hkeeps, ws, hne, hmax, hplain, hws⟩ := h.resolve_left (Bool.eq_false_iff.1 ht)
    refine ⟨ws, externalArgv_of_words hfits hkeeps hne hmax hplain hws, ?_⟩
    rw [echoMain, List.tail_cons, echoWrites_eq hne, hws, out_of_fits hfits hkeeps]

/-- Operands that are what the command would get are plain. -/
theorem plain_of_operands (hclosed : Closed arg)
    (hls : b = .ls → fullExpansion env pid arg = arg.bytes)
    (h : b.Operands (externalArgv env pid (b.line arg)) env pid arg) : b.Plain env pid arg := by
  have hkeeps : b.KeepsOperand env pid arg :=
    ⟨[newline], List.mem_cons_self, fullExpansion_line hclosed⟩
  -- a line with an `argv` is not too long
  have hfits : ∀ {argv}, externalArgv env pid (b.line arg) = some argv → b.Fits env pid arg := by
    intro argv hargv
    rw [externalArgv] at hargv
    split_ifs at hargv with ht
    exact fits_of_closed hclosed (Bool.eq_false_iff.2 ht)
  cases b with
  | cd =>
    refine or_iff_not_imp_left.2 fun ht => ?_
    have hargv := h (Bool.eq_false_iff.2 ht)
    have hfit := hfits hargv
    rw [out_of_fits hfit hkeeps] at hargv
    obtain ⟨-, hplain⟩ := words_of_externalArgv hclosed hargv List.intercalate_singleton
    exact ⟨hfit, hkeeps, List.forall_mem_singleton.1 hplain⟩
  | ls =>
    have hsame := hls rfl
    obtain ⟨-, hplain⟩ := words_of_externalArgv hclosed h
      (List.intercalate_singleton.trans hsame.symm)
    exact ⟨hfits h, hkeeps, hsame, List.forall_mem_singleton.1 hplain⟩
  | echo =>
    refine or_iff_not_imp_left.2 fun ht => ?_
    obtain ⟨args, hargv, hecho⟩ := h (Bool.eq_false_iff.2 ht)
    have hfit := hfits hargv
    rw [out_of_fits hfit hkeeps, echoMain, List.tail_cons] at hecho
    have hne : args ≠ [] := by
      rintro rfl
      exact List.append_ne_nil_of_right_ne_nil _ (List.cons_ne_nil _ _) hecho.symm
    rw [echoWrites_eq hne] at hecho
    have hws := List.append_cancel_right hecho
    obtain ⟨hmax, hplain⟩ := words_of_externalArgv hclosed hargv hws
    exact ⟨hfit, hkeeps, args, hne, hmax, hplain, hws⟩

end Words

/-- **When a builtin acts on the words the command would get.**  On a line without
operators that `run_line` takes for `cd`, `ls` or `echo` with an operand, the builtin goes
to, lists or writes what stands in `argv` for the same line if its operand is plain; and
if no `${` of the operand is open and, for `ls`, the expansion leaves the operand as it
is, only then. -/
theorem builtin_operands (b : Builtin) (env : Env) (pid : ℕ) (interactive : Bool)
    (buf arg : CStr) (hbuf : withNewline buf = some (b.line arg)) (hne : arg.bytes ≠ [])
    (hop : lineHasControlOperator (b.line arg) = false) :
    (b.Plain env pid arg →
      (runLine env pid interactive buf).Agrees (externalArgv env pid (b.line arg))) ∧
    (Closed arg → (b = .ls → fullExpansion env pid arg = arg.bytes) →
      (runLine env pid interactive buf).Agrees (externalArgv env pid (b.line arg)) →
      b.Plain env pid arg) := by
  rw [agrees_runLine_iff interactive hbuf hne hop]
  exact ⟨operands_of_plain, plain_of_operands⟩

/-- The line `echo a`. -/
theorem builtin_operands_echo :
    (runLine .cleared 1 true ⟨[101, 99, 104, 111, 32, 97], by decide⟩).Agrees
      (externalArgv .cleared 1 (Builtin.echo.line ⟨[97], by decide⟩)) := by
  have hword : PlainWord [97] := ⟨List.cons_ne_nil _ _, List.all_eq_true.1 rfl⟩
  refine (builtin_operands .echo .cleared 1 true ⟨[101, 99, 104, 111, 32, 97], by decide⟩
    ⟨[97], by decide⟩ rfl (List.cons_ne_nil _ _) rfl).1 (.inr ⟨⟨rfl, by decide⟩, ?_, ?_⟩)
  · exact ⟨[newline], List.mem_cons_self, rfl⟩
  · exact ⟨[[97]], List.cons_ne_nil _ _, by decide, List.forall_mem_singleton.2 hword, rfl⟩

/-- **`echo "a"` writes the quotes.** -/
theorem builtin_operands_fails :
    withNewline ⟨[101, 99, 104, 111, 32, 34, 97, 34], by decide⟩ =
        some (Builtin.echo.line ⟨[34, 97, 34], by decide⟩) ∧
      lineHasControlOperator (Builtin.echo.line ⟨[34, 97, 34], by decide⟩) = false ∧
      ¬(runLine .cleared 1 true ⟨[101, 99, 104, 111, 32, 34, 97, 34], by decide⟩).Agrees
        (externalArgv .cleared 1 (Builtin.echo.line ⟨[34, 97, 34], by decide⟩)) := by
  have hpieces : pieces false 0 [34, 97, 34] = [.byte 34, .byte 97, .byte 34] := by rfl
  have hclosed : Closed ⟨[34, 97, 34], by decide⟩ := by
    intro r hr
    rw [hpieces] at hr
    simp at hr
  have hbuf : withNewline ⟨[101, 99, 104, 111, 32, 34, 97, 34], by decide⟩ =
      some (Builtin.echo.line ⟨[34, 97, 34], by decide⟩) := rfl
  refine ⟨hbuf, rfl, fun h => ?_⟩
  have hoperands := (agrees_runLine_iff true hbuf (List.cons_ne_nil _ _) rfl _).1 h
  obtain ht | ⟨-, -, ws, hne, -, hplain, hws⟩ :=
    plain_of_operands (b := .echo) hclosed nofun hoperands
  · exact absurd ht Bool.false_ne_true
  · -- the first byte of the first word is the quote
    obtain ⟨w, ws, rfl⟩ := List.exists_cons_of_ne_nil hne
    have hw := hplain w List.mem_cons_self
    obtain ⟨c, w, rfl⟩ := List.exists_cons_of_ne_nil hw.ne_nil
    have hc : c = 34 := by
      cases ws <;> exact (List.cons.inj hws).1
    exact absurd (hw.plain c List.mem_cons_self) (by rw [hc]; decide)

end Shell
end V6User
