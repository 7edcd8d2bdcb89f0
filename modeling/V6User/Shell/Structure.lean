import V6User.Shell.Parsecmd
import V6User.Shell.Pieces
import V6User.Shell.Shape

/-!
# What the values of variables can change

`programs/sh/sh.c`: `expand_env_vars`, `gettoken` and the parser, for two environments.

The expander puts a value into the line as text, and the tokenizer reads the line
afterwards.  So a value with an operator, a quote or a backslash in it can change what
the line means (`values_can_inject`).  A value that has none of the bytes special where
it stands, and outside quotes is no blank, is read like any other such value (`Inert`,
`Inert.sameFrom`): then the operators are the same, and so is the number of commands,
which the parser makes of the operators and of where there are words (`leaves_eq`).
-/

namespace V6User
namespace Shell

/-! ### The number of commands -/

/-- The EXEC nodes of a tree. -/
def Cmd.leaves {ω : Type} : Cmd ω → ℕ
  | .exec _ => 1
  | .redir c _ _ _ => c.leaves
  | .pipe l r => l.leaves + r.leaves
  | .list l r => l.leaves + r.leaves
  | .back c => c.leaves

/-- After an `&` the parser goes on with another command. -/
def joinsAfterAmp : List Kind → Bool
  | [] | .semi :: _ | .amp :: _ => false
  | _ => true

/-- The operators of a row of tokens that join two commands. -/
def joins : List Kind → ℕ
  | [] => 0
  | .pipe :: ks | .semi :: ks => joins ks + 1
  | .amp :: ks => joins ks + if joinsAfterAmp ks then 1 else 0
  | _ :: ks => joins ks

/-- A run of words joins as one word does. -/
theorem joins_shapeFrom (b : Bool) (ts : List Tok) :
    joins (shapeFrom b ts) = joins (ts.map Tok.kind) := by
  have hafter : ∀ ts : List Tok,
      joinsAfterAmp (shapeFrom false ts) = joinsAfterAmp (ts.map Tok.kind) := by
    intro ts
    cases ts with
    | nil => rfl
    | cons t ts => cases t <;> rfl
  induction ts generalizing b with
  | nil => rfl
  | cons t ts ih =>
    cases t with
    | word w => cases b <;> exact ih true
    | amp =>
      show joins (shapeFrom false ts) + _ = _
      rw [hafter, ih]
      rfl
    | pipe => exact congrArg (· + 1) (ih false)
    | semi => exact congrArg (· + 1) (ih false)
    | _ => exact ih false

theorem leaves_redirFor (k : Kind) (c : Cmd Span) (file : Span) :
    (redirFor k c file).leaves = c.leaves := by
  cases k <;> rfl

theorem leaves_wrapRedirs (rs : List Redir) (c : Cmd Span) : (wrapRedirs rs c).leaves = c.leaves := by
  induction rs generalizing c with
  | nil => rfl
  | cons r rs ih => rw [wrapRedirs_cons, ih, leaves_redirFor]

theorem joins_redirToks (rs : List Redir) (ts : List Tok) :
    joins ((redirToks rs ++ ts).map Tok.kind) = joins (ts.map Tok.kind) := by
  induction rs with
  | nil => rfl
  | cons r rs ih => cases hop : r.op <;> simpa [redirToks, hop, RedirOp.tok, Tok.kind, joins] using ih

theorem joins_argToks (args : List Arg) (ts : List Tok) :
    joins ((argToks args ++ ts).map Tok.kind) = joins (ts.map Tok.kind) := by
  induction args with
  | nil => rfl
  | cons a args ih =>
    have hredirs := joins_redirToks a.redirs (argToks args ++ ts)
    simp only [argToks, List.cons_append, List.append_assoc, List.map_cons, Tok.kind, joins]
    exact hredirs.trans ih

/-- **The parser counts operators**: what it takes of a token list has one EXEC node more
than there are operators in it that join commands. -/
theorem tok_leaves (n : ℕ) :
    (∀ ts c rest, tokLine n ts = .ok (c, rest) →
      c.leaves + joins (rest.map Tok.kind) = 1 + joins (ts.map Tok.kind)) ∧
    (∀ cmd ts c rest, tokLineLoop n cmd ts = .ok (c, rest) →
      c.leaves + joins (rest.map Tok.kind) = cmd.leaves + joins (ts.map Tok.kind)) ∧
    (∀ ts c rest, tokPipe n ts = .ok (c, rest) →
      c.leaves + joins (rest.map Tok.kind) = 1 + joins (ts.map Tok.kind)) ∧
    (∀ ts c rest, tokExec n ts = .ok (c, rest) →
      c.leaves + joins (rest.map Tok.kind) = 1 + joins (ts.map Tok.kind)) ∧
    (∀ ts c rest, tokBlock n ts = .ok (c, rest) →
      c.leaves + joins (rest.map Tok.kind) = 1 + joins (ts.map Tok.kind)) := by
  induction n with
  | zero =>
    refine ⟨?_, ?_, ?_, ?_, ?_⟩
    · intro ts c rest h; cases h
    · intro cmd ts c rest h; cases h
    · intro ts c rest h; cases h
    · intro ts c rest h; cases h
    · intro ts c rest h; cases h
  | succ n ih =>
    obtain ⟨hline, hloop, hpipe, hexec, hblock⟩ := ih
    refine ⟨?_, ?_, ?_, ?_, ?_⟩
    · intro ts c rest h
      obtain ⟨⟨c₁, ts₁⟩, h₁, h₂⟩ := bind_eq_ok.1 h
      have hp := hpipe ts c₁ ts₁ h₁
      have hl := hloop c₁ ts₁ c rest h₂
      omega
    · intro cmd ts c rest h
      -- the rest of the line is another one
      have hjoin : ∀ (us : List Tok) (c₁ : Cmd Span),
          (do let r ← tokLine n us; .ok (.list c₁ r.1, r.2)) = Except.ok (c, rest) →
            c.leaves + joins (rest.map Tok.kind) = c₁.leaves + (joins (us.map Tok.kind) + 1) := by
        intro us c₁ h
        obtain ⟨⟨c₂, ts₂⟩, h₁, h₂⟩ := bind_eq_ok.1 h
        have hl := hline us c₂ ts₂ h₁
        cases h₂
        show c₁.leaves + c₂.leaves + joins (ts₂.map Tok.kind) = _
        omega
      cases ts with
      | nil => cases h; rfl
      | cons t ts =>
        cases t with
        | amp =>
          cases ts with
          | nil =>
            rw [tokLineLoop] at h
            have hl := hloop (.back cmd) _ _ _ h
            exact hl
          | cons u us =>
            cases u with
            | amp =>
              rw [tokLineLoop] at h
              have hl := hloop (.back cmd) _ _ _ h
              exact hl
            | semi =>
              rw [tokLineLoop] at h
              have hl := hloop (.back cmd) _ _ _ h
              exact hl
            | _ => exact hjoin _ (.back cmd) h
        | semi => exact hjoin _ cmd h
        | _ => cases h; rfl
    · intro ts c rest h
      obtain ⟨⟨c₁, ts₁⟩, h₁, h₂⟩ := bind_eq_ok.1 h
      have hl := hexec ts c₁ ts₁ h₁
      cases ts₁ with
      | nil => cases h₂; exact hl
      | cons t ts₁ =>
        cases t with
        | pipe =>
          obtain ⟨⟨c₂, ts₂⟩, h₃, h₄⟩ := bind_eq_ok.1 h₂
          have hr := hpipe ts₁ c₂ ts₂ h₃
          cases h₄
          have hpipe : joins ((Tok.pipe :: ts₁).map Tok.kind) = joins (ts₁.map Tok.kind) + 1 := rfl
          show c₁.leaves + c₂.leaves + joins (ts₂.map Tok.kind) = _
          omega
        | _ => cases h₂; exact hl
    · intro ts c rest h
      have hplain : ∀ ts, (tokRedirs n (.exec []) ts >>= fun r => tokExecLoop n 0 r.1 r.2) =
            .ok (c, rest) →
          c.leaves + joins (rest.map Tok.kind) = 1 + joins (ts.map Tok.kind) := by
        intro ts h
        obtain ⟨⟨c₁, ts₁⟩, h₁, h₂⟩ := bind_eq_ok.1 h
        obtain ⟨rs, rfl, rfl, -⟩ := tokRedirs_sound h₁
        obtain ⟨args, rfl, -, rfl, -⟩ := tokExecLoop_sound (by decide) h₂
        rw [joins_redirToks, joins_argToks, leaves_wrapRedirs]
        rfl
      cases ts with
      | nil => exact hplain _ h
      | cons t ts =>
        cases t with
        | lparen => exact hblock _ _ _ h
        | _ => exact hplain _ h
    · intro ts c rest h
      cases ts with
      | nil => cases h
      | cons t ts =>
        cases t with
        | lparen =>
          obtain ⟨⟨c₁, ts₁⟩, h₁, h₂⟩ := bind_eq_ok.1 h
          have hl := hline ts c₁ ts₁ h₁
          cases ts₁ with
          | nil => cases h₂
          | cons u us =>
            cases u with
            | rparen =>
              obtain ⟨rs, rfl, rfl, -⟩ := tokRedirs_sound h₂
              have hrs := joins_redirToks rs rest
              have hrparen : joins ((Tok.rparen :: (redirToks rs ++ rest)).map Tok.kind) =
                  joins ((redirToks rs ++ rest).map Tok.kind) := rfl
              rw [leaves_wrapRedirs]
              show c₁.leaves + _ = 1 + joins (ts.map Tok.kind)
              omega
            | _ => cases h₂
        | _ => cases h

/-- **The number of commands**: a text that is parsed has one EXEC node more than there
are operators in it that join commands. -/
theorem leaves_eq {s : CStr} {cmd : Cmd Span} (h : parseText s = .tree cmd) :
    cmd.leaves = 1 + joins (shape (tokens s.cursor)) := by
  have hl := (tok_leaves _).1 _ _ _ ((parseText_eq s).1 cmd |>.1 h)
  rw [shape, joins_shapeFrom]
  exact hl

/-! ### Values that are read alike -/

/-- The quotes that a byte is read in. -/
def Reading.quote : Reading → Quote
  | .gap _ => .out
  | .word m _ => m

/-- A backslash stands before the byte. -/
def Reading.escaped : Reading → Bool
  | .gap _ => false
  | .word _ esc => esc

/-- A byte that means nothing special to `gettoken` in these quotes. -/
def plainIn : Quote → Byte → Bool
  | .out, c => (operatorKind c).isNone && c != squote && c != dquote && c != backslash
  | .sq, c => c != squote && c != backslash
  | .dq, c => c != dquote && c != backslash

/-- A value that does not disturb the tokenizer in a state: no byte of it is special
there; outside quotes it has something else than whitespace; and after a backslash it is
not empty. -/
structure Inert (q : Reading) (v : List Byte) : Prop where
  plain : ∀ b ∈ v, plainIn q.quote b = true
  word : q.quote = .out → q.escaped = false → ∃ b ∈ v, strchr whitespace b = false
  nonempty : q.escaped = true → v ≠ []

/-- After a value the tokenizer is in a word, in the quotes it was in. -/
def Reading.settled (q : Reading) : Reading := .word q.quote false

/-- Between words a value begins one. -/
def Reading.mark : Reading → List Kind
  | .gap _ => [.word]
  | .word _ _ => []

section Inertness

variable {q : Reading} {m : Quote} {b : Byte} {v : List Byte}

theorem plainIn_ne_backslash (h : plainIn m b = true) : b ≠ backslash := by
  cases m <;> simp_all [plainIn]

/-- A plain byte in a word writes nothing and changes nothing. -/
theorem step_plain (h : plainIn m b = true) :
    shapeScan.step (.word m false) b = (.word m false, none) := by
  have hb := plainIn_ne_backslash h
  cases m with
  | out =>
    simp only [plainIn, Bool.and_eq_true, bne_iff_ne, ne_eq, Option.isNone_iff_eq_none] at h
    obtain ⟨⟨⟨hop, hs⟩, hd⟩, -⟩ := h
    by_cases hw : strchr whitespace b = true
    · exact outsideStep_blank hw
    · have hends : endsWord b = false := by
        rw [endsWord, strchr_symbols_eq, hop, Bool.eq_false_iff.2 hw]
        rfl
      rw [step_word hends, decide_eq_false hb, nextQuote, if_neg hs, if_neg hd]
  | sq =>
    simp only [plainIn, Bool.and_eq_true, bne_iff_ne, ne_eq] at h
    rw [step_sq, if_neg h.1, decide_eq_false hb]
  | dq =>
    simp only [plainIn, Bool.and_eq_true, bne_iff_ne, ne_eq] at h
    rw [step_dq, if_neg h.1, decide_eq_false hb]

theorem run_plain (h : ∀ b ∈ v, plainIn m b = true) :
    shapeScan.after (.word m false) v = .word m false ∧
      shapeScan.output (.word m false) v = [] := by
  induction v with
  | nil => exact ⟨rfl, rfl⟩
  | cons b v ih =>
    rw [Transducer.after_cons, Transducer.output_cons, step_plain (h b List.mem_cons_self)]
    exact ih fun d hd => h d (List.mem_cons_of_mem b hd)

/-- After a backslash the first byte of a value is escaped, or plain. -/
theorem step_escaped (h : plainIn m b = true) :
    shapeScan.step (.word m true) b = (.word m false, none) := by
  cases m with
  | out => rfl
  | sq =>
    have hb := plainIn_ne_backslash h
    simp only [plainIn, Bool.and_eq_true, bne_iff_ne, ne_eq] at h
    rw [step_sq, if_neg h.1, decide_eq_false hb]
  | dq => rfl

/-- Between words a value begins a word. -/
theorem run_gap (gt : Bool) (h : ∀ b ∈ v, plainIn .out b = true)
    (hw : ∃ b ∈ v, strchr whitespace b = false) :
    shapeScan.after (.gap gt) v = .word .out false ∧
      shapeScan.output (.gap gt) v = [.word] := by
  induction v generalizing gt with
  | nil =>
    obtain ⟨b, hb, -⟩ := hw
    exact absurd hb List.not_mem_nil
  | cons b v ih =>
    have hplain := h b List.mem_cons_self
    have hrest : ∀ d ∈ v, plainIn .out d = true := fun d hd => h d (List.mem_cons_of_mem b hd)
    rw [Transducer.after_cons, Transducer.output_cons]
    by_cases hblank : strchr whitespace b = true
    · have hstep : shapeScan.step (.gap gt) b = (.gap false, none) := outsideStep_blank hblank
      rw [hstep]
      refine ih false hrest ?_
      obtain ⟨d, hd, hdw⟩ := hw
      rcases List.mem_cons.1 hd with rfl | hd
      · rw [hblank] at hdw
        exact absurd hdw nofun
      · exact ⟨d, hd, hdw⟩
    · have hb := plainIn_ne_backslash hplain
      simp only [plainIn, Bool.and_eq_true, bne_iff_ne, ne_eq, Option.isNone_iff_eq_none] at hplain
      obtain ⟨⟨⟨hop, hs⟩, hd⟩, -⟩ := hplain
      have hends : endsWord b = false := by
        rw [endsWord, strchr_symbols_eq, hop, Bool.eq_false_iff.2 hblank]
        rfl
      rw [step_gap hends, decide_eq_false hb, nextQuote, if_neg hs, if_neg hd]
      obtain ⟨hafter, hout⟩ := run_plain hrest
      exact ⟨hafter, by rw [hout]; rfl⟩

/-- **An inert value is read like any other.** -/
theorem Inert.run (h : Inert q v) :
    shapeScan.after q v = q.settled ∧
      shapeScan.output q v = q.mark := by
  obtain ⟨hplain, hword, hne⟩ := h
  match q with
  | .gap gt => exact run_gap gt hplain (hword rfl rfl)
  | .word m false => exact run_plain hplain
  | .word m true =>
    obtain ⟨b, v, rfl⟩ := List.exists_cons_of_ne_nil (hne rfl)
    have hstep := step_escaped (m := m) (hplain b List.mem_cons_self)
    rw [Transducer.after_cons, Transducer.output_cons, hstep]
    exact run_plain fun d hd => hplain d (List.mem_cons_of_mem b hd)

theorem Inert.sameFrom {w : List Byte} (hv : Inert q v) (hw : Inert q w) :
    shapeScan.SameFrom q v w :=
  ⟨hv.run.1.trans hw.run.1.symm, hv.run.2.trans hw.run.2.symm⟩

end Inertness

/-! ### Two environments -/

/-- Every reference of a line has the same value in two environments, or in both a value
that is inert in the state in which the tokenizer comes to it. -/
def Harmless (env env' : Env) (pid : ℕ) : Reading → List Piece → Prop
  | _, [] => True
  | q, .byte b :: ps => Harmless env env' pid (shapeScan.step q b).1 ps
  | q, .ref r :: ps =>
    (r.value env pid = r.value env' pid ∨
      Inert q (r.value env pid) ∧ Inert q (r.value env' pid)) ∧
      Harmless env env' pid (shapeScan.after q (r.value env pid)) ps

section Environments

variable {env env' : Env} {pid : ℕ}

theorem Harmless.sameFrom {q : Reading} {ps : List Piece} (h : Harmless env env' pid q ps) :
    shapeScan.SameFrom q (fullText env pid ps) (fullText env' pid ps) := by
  induction ps generalizing q with
  | nil => exact .refl _ _ _
  | cons x ps ih =>
    rw [fullText_cons, fullText_cons]
    cases x with
    | byte b => exact (Transducer.SameFrom.refl shapeScan q [b]).append (ih h)
    | ref r =>
      obtain ⟨hvalue, hrest⟩ := h
      refine Transducer.SameFrom.append ?_ (ih hrest)
      rcases hvalue with heq | ⟨hv, hw⟩
      · rw [Piece.text, Piece.text, heq]
        exact .refl _ _ _
      · exact hv.sameFrom hw

theorem operators_eq_shape (b : Bool) (ts : List Tok) :
    operators ts = (shapeFrom b ts).filter (· ≠ .word) := by
  induction ts generalizing b with
  | nil => rfl
  | cons t ts ih =>
    cases t with
    | word w => cases b <;> exact ih true
    | _ => exact congrArg (List.cons _) (ih false)

/-- **Values that are inert where they stand do not change the structure of a line.**  In
two environments in which every reference of a line has the same value or inert ones, and
the buffer holds the complete expansions, the expanded lines have the same operators in
the same order, and where both are parsed, the same number of commands. -/
theorem values_keep_structure (line : CStr)
    (hfit : (fullExpansion env pid line).length ≤ expandMax)
    (hfit' : (fullExpansion env' pid line).length ≤ expandMax)
    (h : Harmless env env' pid (.gap false) (pieces false 0 line.bytes)) :
    operators (tokens (expanded env pid line).cursor) =
        operators (tokens (expanded env' pid line).cursor) ∧
      ∀ cmd buf cmd' buf', parsecmd (expanded env pid line) = .cmd cmd buf →
        parsecmd (expanded env' pid line) = .cmd cmd' buf' → cmd.leaves = cmd'.leaves := by
  have hshape : shape (tokens (expanded env pid line).cursor) =
      shape (tokens (expanded env' pid line).cursor) := by
    rw [shape, shape, ← (shape_eq _).1, ← (shape_eq _).1]
    show joinGt (shapeScan.output _ (expanded env pid line).bytes) =
      joinGt (shapeScan.output _ (expanded env' pid line).bytes)
    rw [expanded_bytes line hfit, expanded_bytes line hfit', fullExpansion, fullExpansion,
      h.sameFrom.output]
  constructor
  · rw [operators_eq_shape false, operators_eq_shape false]
    exact congrArg _ hshape
  · intro cmd buf cmd' buf' hcmd hcmd'
    rw [leaves_eq (parsecmd_eq_cmd_iff.1 hcmd).1, leaves_eq (parsecmd_eq_cmd_iff.1 hcmd').1, hshape]

end Environments

/-- A table with one variable. -/
def Env.single (name value : CStr) : Env where
  vars := .make name value :: (Env.cleared.vars.drop 1)
  size := rfl

theorem envGet_single (name value : CStr) (n : List Byte) :
    envGet (.single name value) n =
      if (name.take (maxEnvName - 1)).bytes = n then some (value.take (maxEnvValue - 1)) else none := by
  have hrest : (Env.cleared.vars.drop 1).find? (fun v => v.isNamed n) = none := by
    refine List.find?_eq_none.2 fun v hv => ?_
    have hunused : v.used = false := by
      obtain ⟨-, rfl⟩ := List.mem_replicate.1 (List.mem_of_mem_drop hv)
      rfl
    rw [EnvVar.isNamed, hunused, Bool.false_and]
    exact Bool.false_ne_true
  rw [envGet, Env.single, List.find?_cons, hrest]
  by_cases hn : (name.take (maxEnvName - 1)).bytes = n
  · have hnamed : (EnvVar.make name value).isNamed n = true := by
      rw [EnvVar.isNamed, EnvVar.make]
      simpa using hn
    rw [hnamed, if_pos hn]
    rfl
  · have hnamed : (EnvVar.make name value).isNamed n = false := by
      rw [EnvVar.isNamed, EnvVar.make]
      simpa using hn
    rw [hnamed, if_neg hn]
    rfl

/-- The line `a $X`. -/
def referenceLine : CStr := ⟨[97, 32, 36, 88, 10], by decide⟩

theorem values_keep_structure_words :
    operators (tokens (expanded (.single ⟨[88], by decide⟩ ⟨[98], by decide⟩) 1 referenceLine).cursor) =
      operators (tokens (expanded (.single ⟨[88], by decide⟩ ⟨[99, 32, 100], by decide⟩) 1
        referenceLine).cursor) := by
  have hb : Inert (.word .out false) [98] :=
    ⟨List.all_eq_true.1 rfl, fun _ _ => ⟨98, by decide, by decide⟩, nofun⟩
  have hcd : Inert (.word .out false) [99, 32, 100] :=
    ⟨List.all_eq_true.1 rfl, fun _ _ => ⟨99, by decide, by decide⟩, nofun⟩
  have h : Harmless (.single ⟨[88], by decide⟩ ⟨[98], by decide⟩)
      (.single ⟨[88], by decide⟩ ⟨[99, 32, 100], by decide⟩) 1 (.gap false)
      (pieces false 0 referenceLine.bytes) := ⟨.inr ⟨hb, hcd⟩, trivial⟩
  exact (values_keep_structure referenceLine (by decide) (by decide) h).1

/-- **A value can bring an operator into a line.**  The two tables define the same name,
and `a $X` has no operator with `b` for its value and one with `;b`. -/
theorem values_can_inject : ∃ (env env' : Env) (line : CStr),
    (∀ name, (envGet env name).isSome = (envGet env' name).isSome) ∧
      operators (tokens (expanded env 1 line).cursor) ≠
        operators (tokens (expanded env' 1 line).cursor) := by
  refine ⟨.single ⟨[88], by decide⟩ ⟨[98], by decide⟩, .single ⟨[88], by decide⟩ ⟨[59, 98], by decide⟩,
    referenceLine, fun name => ?_, by decide⟩
  rw [envGet_single, envGet_single]
  split_ifs <;> rfl

end Shell
end V6User
