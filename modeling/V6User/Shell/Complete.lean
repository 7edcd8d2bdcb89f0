import V6User.Shell.Sound

/-!
# The parser terminates and accepts what is derived

Every turn of a loop and every recursive call of the parser of
`programs/sh/sh.c` either takes a token or goes one level down the chain
`parseline`, `parsepipe`, `parseexec`, `parseblock`, so four units of fuel for
each token and a few more are enough (`tok_ne_fuel`), and the fuel `parsecmd`
starts with never runs out.

The grammar is ambiguous where the parser is not: after an `&` the rest of the
line may begin with an empty command, so `a & & b` derives in two ways.  The
loop of `parseline` accepts the same tokens whatever command it holds
(`tokLineLoop_congr`), so it follows any of the derivations to the same end.
-/

namespace V6User
namespace Shell

open Fuel

/-! ### Enough fuel -/

theorem tokRedirs_ne_fuel {n : ℕ} {cmd : Cmd Span} {ts : List Tok} (h : ts.length < n) :
    tokRedirs n cmd ts ≠ .error .fuel := by
  induction n generalizing cmd ts with
  | zero => omega
  | succ n ih =>
    cases ts with
    | nil => simp [tokRedirs]
    | cons t ts =>
      rw [tokRedirs]
      cases t.redir? with
      | none => simp
      | some f =>
        cases ts with
        | nil => simp
        | cons u us =>
          simp only [List.length_cons] at h
          cases u with
          | word w => exact ih (by omega)
          | _ => simp

theorem tokRedirs_length {n : ℕ} {cmd c : Cmd Span} {ts rest : List Tok}
    (h : tokRedirs n cmd ts = .ok (c, rest)) : rest.length ≤ ts.length := by
  obtain ⟨rs, rfl, -, -⟩ := tokRedirs_sound h
  simp

theorem tokExecLoop_ne_fuel {n argc : ℕ} {ret : Cmd Span} {ts : List Tok} (h : ts.length < n) :
    tokExecLoop n argc ret ts ≠ .error .fuel := by
  induction n generalizing argc ret ts with
  | zero => omega
  | succ n ih =>
    match ts with
    | [] => simp [tokExecLoop]
    | t :: ts =>
      simp only [List.length_cons] at h
      cases t with
      | word w =>
        rw [tokExecLoop]
        split_ifs
        · simp
        · refine bind_ne_out (tokRedirs_ne_fuel (by omega)) fun r hr => ih ?_
          have := tokRedirs_length (show _ = Except.ok (r.1, r.2) from hr)
          omega
      | _ => simp [tokExecLoop]

/-- **Fuel in proportion to the tokens is enough.** -/
theorem tok_ne_fuel (n : ℕ) :
    (∀ ts : List Tok, 4 * ts.length + 5 ≤ n → tokLine n ts ≠ .error .fuel) ∧
      (∀ cmd, ∀ ts : List Tok, 4 * ts.length + 2 ≤ n → tokLineLoop n cmd ts ≠ .error .fuel) ∧
      (∀ ts : List Tok, 4 * ts.length + 4 ≤ n → tokPipe n ts ≠ .error .fuel) ∧
      (∀ ts : List Tok, 4 * ts.length + 3 ≤ n → tokExec n ts ≠ .error .fuel) ∧
      (∀ ts : List Tok, 4 * ts.length + 2 ≤ n → tokBlock n ts ≠ .error .fuel) := by
  induction n with
  | zero =>
    refine ⟨fun ts h => ?_, fun cmd ts h => ?_, fun ts h => ?_, fun ts h => ?_, fun ts h => ?_⟩ <;>
      omega
  | succ n ih =>
    obtain ⟨hline, hloop, hpipe, hexec, hblock⟩ := ih
    refine ⟨fun ts h => ?_, fun cmd ts h => ?_, fun ts h => ?_, fun ts h => ?_, fun ts h => ?_⟩
    · refine bind_ne_out (hpipe ts (by omega)) fun r hr => hloop _ _ ?_
      obtain ⟨p, -, rfl, -, -⟩ := (tok_sound n).2.2.1 ts r.1 r.2 hr
      simp only [List.length_append] at h
      omega
    · cases ts with
      | nil => simp [tokLineLoop]
      | cons t ts =>
        simp only [List.length_cons] at h
        have hl : ∀ f : Cmd Span → Cmd Span, ∀ us : List Tok, us.length ≤ ts.length →
            (tokLine n us >>= fun r => Except.ok (f r.1, r.2)) ≠ .error Stop.fuel :=
          fun f us hus => bind_ne_out (hline _ (by omega)) (by simp)
        cases t with
        | amp =>
          cases ts with
          | nil => exact hloop _ _ (by simp only [List.length_nil] at h ⊢; omega)
          | cons u us =>
            cases u with
            | amp => exact hloop _ _ (by simp only [List.length_cons] at h ⊢; omega)
            | semi => exact hloop _ _ (by simp only [List.length_cons] at h ⊢; omega)
            | _ => exact hl _ _ le_rfl
        | semi => exact hl _ _ le_rfl
        | _ => simp [tokLineLoop]
    · refine bind_ne_out (hexec ts (by omega)) fun l hl => ?_
      obtain ⟨s, -, rfl, -, -⟩ := (tok_sound n).2.2.2.1 ts l.1 l.2 hl
      obtain ⟨c, us⟩ := l
      cases us with
      | nil => simp
      | cons u us =>
        simp only [List.length_append, List.length_cons] at h
        cases u with
        | pipe => exact bind_ne_out (hpipe _ (by omega)) (by simp)
        | _ => simp
    · have hplain : tokRedirs n (.exec []) ts >>= (fun r => tokExecLoop n 0 r.1 r.2) ≠
          .error .fuel := by
        refine bind_ne_out (tokRedirs_ne_fuel (by omega)) fun r hr => tokExecLoop_ne_fuel ?_
        have := tokRedirs_length (show _ = Except.ok (r.1, r.2) from hr)
        omega
      cases ts with
      | nil => exact hplain
      | cons t ts =>
        cases t with
        | lparen => exact hblock _ (by omega)
        | _ => exact hplain
    · cases ts with
      | nil => simp [tokBlock]
      | cons t ts =>
        simp only [List.length_cons] at h
        cases t with
        | lparen =>
          refine bind_ne_out (hline ts (by omega)) fun r hr => ?_
          obtain ⟨d, -, rfl, -, -⟩ := tokLine_sound (show _ = Except.ok (r.1, r.2) from hr)
          obtain ⟨c, us⟩ := r
          cases us with
          | nil => simp
          | cons u us =>
            simp only [List.length_append, List.length_cons] at h
            cases u with
            | rparen => exact tokRedirs_ne_fuel (by omega)
            | _ => simp
        | _ => simp [tokBlock]

/-! ### What is derived is accepted -/

theorem redir?_tok (op : RedirOp) : op.tok.redir? = some (redirFor op.kind) := by
  cases op <;> rfl

theorem noRedir_of_follow {blk : Bool} {rest : List Tok}
    (h : follow simpleStop blk rest = true) : noRedir rest = true := by
  match rest with
  | [] => rfl
  | t :: ts => cases t <;> first | rfl | cases h

theorem tokRedirs_settles (cmd : Cmd Span) (rs : List Redir) {rest : List Tok}
    (h : noRedir rest = true) :
    Settles (fun n => tokRedirs n cmd (redirToks rs ++ rest)) (wrapRedirs rs cmd, rest) := by
  induction rs generalizing cmd with
  | nil =>
    refine Settles.of_succ (g := fun _ => .ok (cmd, rest)) (fun n => ?_)
      (settles_of_forall fun _ => rfl)
    match rest with
    | [] => rfl
    | t :: ts =>
      simp only [noRedir, Option.isNone_iff_eq_none] at h
      simp [redirToks, tokRedirs, h]
  | cons r rs ih =>
    refine Settles.of_succ (fun n => ?_) (ih (redirFor r.op.kind cmd r.file))
    simp [redirToks, tokRedirs, redir?_tok]

theorem noRedir_argToks (args : List Arg) {rest : List Tok} (h : noRedir rest = true) :
    noRedir (argToks args ++ rest) = true := by
  cases args with
  | nil => exact h
  | cons a args => rfl

theorem tokExecLoop_settles (argc : ℕ) (ret : Cmd Span) (args : List Arg) {rest : List Tok}
    (hlen : argc + args.length < maxArgs) (h : follow simpleStop false rest = true) :
    ∃ c, Settles (fun n => tokExecLoop n argc ret (argToks args ++ rest)) (c, rest) := by
  induction args generalizing argc ret with
  | nil =>
    refine ⟨ret, Settles.of_succ (g := fun _ => .ok (ret, rest)) (fun n => ?_)
      (settles_of_forall fun _ => rfl)⟩
    match rest with
    | [] => rfl
    | t :: ts => cases t <;> first | rfl | cases h
  | cons a args ih =>
    simp only [List.length_cons] at hlen
    obtain ⟨c, hc⟩ := ih (argc + 1) (wrapRedirs a.redirs (ret.pushArg a.word)) (by omega)
    have hr := tokRedirs_settles (ret.pushArg a.word) a.redirs
      (noRedir_argToks args (noRedir_of_follow h))
    refine ⟨c, Settles.of_succ (fun n => ?_)
      (hr.bind (g := fun n r => tokExecLoop n (argc + 1) r.1 r.2) hc)⟩
    have hmax : ¬argc + 1 ≥ maxArgs := by omega
    simp [argToks, tokExecLoop, hmax]

/-- A simple command that is not a block is accepted. -/
theorem tokExec_settles (rs : List Redir) (args : List Arg) {rest : List Tok}
    (hlen : args.length < maxArgs) (h : follow simpleStop false rest = true) :
    ∃ c, Settles (fun n => tokExec n (redirToks rs ++ (argToks args ++ rest))) (c, rest) := by
  obtain ⟨c, hc⟩ := tokExecLoop_settles 0 (wrapRedirs rs (.exec [])) args
    (by omega) h
  have hr := tokRedirs_settles (.exec []) rs (noRedir_argToks args (noRedir_of_follow h))
  refine ⟨c, Settles.of_succ (fun n => ?_) (hr.bind (g := fun n r => tokExecLoop n 0 r.1 r.2) hc)⟩
  match rs, args, rest, h with
  | r :: rs, _, _, _ => cases hop : r.op <;> simp [redirToks, tokExec, hop, RedirOp.tok]
  | [], a :: args, _, _ => rfl
  | [], [], [], _ => rfl
  | [], [], t :: ts, h => cases t <;> first | rfl | cases h

/-- A pipe ends where its last simple command does. -/
theorem tokPipe_settles {ts rest : List Tok} {blk : Bool} {c : Cmd Span}
    (hs : Settles (fun n => tokExec n ts) (c, rest)) (h : follow pipeStop blk rest = true) :
    Settles (fun n => tokPipe n ts) (c, rest) := by
  refine Settles.of_succ (fun n => rfl) (hs.bind (settles_of_forall fun n => ?_))
  match rest with
  | [] => rfl
  | t :: ts => cases t <;> first | rfl | cases h

theorem follow_simple_of_pipe {blk : Bool} {rest : List Tok}
    (h : follow pipeStop blk rest = true) : follow simpleStop blk rest = true := by
  match rest with
  | [] => rfl
  | t :: ts => cases t <;> first | exact h | rfl

theorem follow_pipe_of_line {blk blk' : Bool} {rest : List Tok} (h : follow lineStop blk rest = true)
    (hb : blk = true → blk' = true) : follow pipeStop blk' rest = true := by
  match rest with
  | [] => rfl
  | t :: ts => cases t <;> first | exact hb h | rfl | cases h

/-- An empty command is accepted wherever a pipe may end. -/
theorem tokPipe_empty {rest : List Tok} (h : follow pipeStop false rest = true) :
    ∃ c, Settles (fun n => tokPipe n rest) (c, rest) := by
  obtain ⟨c, hc⟩ := tokExec_settles [] [] (by decide) (follow_simple_of_pipe h)
  exact ⟨c, tokPipe_settles hc h⟩

/-- **The loop of `parseline` takes the same tokens whatever command it holds.** -/
theorem tokLineLoop_congr {n : ℕ} {cmd c : Cmd Span} {ts rest : List Tok} (cmd' : Cmd Span)
    (h : tokLineLoop n cmd ts = .ok (c, rest)) :
    ∃ c', tokLineLoop n cmd' ts = .ok (c', rest) := by
  induction n generalizing cmd cmd' ts with
  | zero => cases h
  | succ n ih =>
    match ts with
    | [] => cases h; exact ⟨cmd', rfl⟩
    | t :: ts =>
      have hl : ∀ (f g : Cmd Span → Cmd Span) (us : List Tok),
          (tokLine n us >>= fun r => Except.ok (f r.1, r.2)) = .ok (c, rest) →
          ∃ c', (tokLine n us >>= fun r => Except.ok (g r.1, r.2)) = .ok (c', rest) := by
        intro f g us h
        obtain ⟨⟨c₁, ts₁⟩, h₁, h₂⟩ := bind_eq_ok.1 h
        cases h₂
        exact ⟨g c₁, by rw [h₁]; rfl⟩
      cases t with
      | amp =>
        match ts with
        | [] => exact ih _ h
        | u :: us =>
          cases u with
          | amp => exact ih _ h
          | semi => exact ih _ h
          | _ => exact hl (.list (.back cmd)) (.list (.back cmd')) _ h
      | semi => exact hl (.list cmd) (.list cmd') _ h
      | _ => cases h; exact ⟨cmd', rfl⟩

/-- Whatever command the loop of `parseline` holds, it takes `ts` up to `rest`. -/
def Loops (ts rest : List Tok) : Prop :=
  ∀ cmd, ∃ c, Settles (fun n => tokLineLoop n cmd ts) (c, rest)

theorem Loops.of_settles {cmd c : Cmd Span} {ts rest : List Tok}
    (h : Settles (fun n => tokLineLoop n cmd ts) (c, rest)) : Loops ts rest := by
  intro cmd'
  obtain ⟨N, hN⟩ := h
  obtain ⟨c', hc'⟩ := tokLineLoop_congr cmd' (hN N le_rfl)
  exact ⟨c', Mono.settles (fun n => (tok_mono n).2.1 cmd' ts) hc'⟩

theorem Loops.stop {blk : Bool} {rest : List Tok} (h : follow lineStop blk rest = true) :
    Loops rest rest := by
  intro cmd
  refine ⟨cmd, Settles.of_succ (g := fun _ => .ok (cmd, rest)) (fun n => ?_)
    (settles_of_forall fun _ => rfl)⟩
  match rest with
  | [] => rfl
  | t :: ts => cases t <;> first | rfl | cases h

theorem Loops.semi {ts rest : List Tok} {c : Cmd Span}
    (h : Settles (fun n => tokLine n ts) (c, rest)) :
    Loops (.semi :: ts) rest :=
  fun cmd => ⟨.list cmd c, Settles.of_succ (fun _ => rfl)
    (h.bind (settles_of_forall fun _ => rfl))⟩

/-- An `&` before what the loop itself goes on with. -/
theorem Loops.amp {ts rest : List Tok} (hts : ts = [] ∨ ∃ t us, ts = t :: us ∧ ampStop t = true)
    (h : Loops ts rest) : Loops (.amp :: ts) rest := by
  intro cmd
  obtain ⟨c, hc⟩ := h (.back cmd)
  refine ⟨c, Settles.of_succ (fun n => ?_) hc⟩
  obtain rfl | ⟨t, us, rfl, ht⟩ := hts
  · rfl
  · cases t <;> first | rfl | cases ht

/-- **An `&` before a line.**  Where the line begins with an empty command, the
loop goes on where a second `parseline` would have started. -/
theorem Loops.amp_line {ts rest : List Tok} {c : Cmd Span}
    (h : Settles (fun n => tokLine n ts) (c, rest)) : Loops (.amp :: ts) rest := by
  -- the line starts with an empty command, which takes nothing
  have hempty : follow pipeStop false ts = true → Loops ts rest := by
    intro hf
    obtain ⟨c₀, N, hN⟩ := tokPipe_empty hf
    obtain ⟨M, hM⟩ := h
    have hl : Settles (fun n => tokLineLoop n c₀ ts) (c, rest) := by
      refine ⟨max N M, fun n hn => ?_⟩
      have := hM (n + 1) (by omega)
      simpa only [tokLine, hN n (by omega), ok_bind] using this
    exact Loops.of_settles hl
  cases ts with
  | nil => exact Loops.amp (Or.inl rfl) (hempty rfl)
  | cons t ts =>
    cases t with
    | amp => exact Loops.amp (Or.inr ⟨_, _, rfl, rfl⟩) (hempty rfl)
    | semi => exact Loops.amp (Or.inr ⟨_, _, rfl, rfl⟩) (hempty rfl)
    | _ =>
      exact fun cmd => ⟨.list (.back cmd) c, Settles.of_succ (fun _ => rfl)
        (h.bind (settles_of_forall fun _ => rfl))⟩

/-- A row of `&`s before what the loop takes after one of them. -/
theorem Loops.amps {ts rest : List Tok} (k : ℕ) (h : Loops (.amp :: ts) rest) :
    Loops (Shell.amps (k + 1) ++ ts) rest := by
  induction k with
  | zero => exact h
  | succ k ih => exact Loops.amp (Or.inr ⟨_, _, rfl, rfl⟩) ih

theorem amps_append_follow {blk : Bool} {k : ℕ} {rest : List Tok}
    (h : k = 0 → follow pipeStop blk rest = true) :
    follow pipeStop blk (amps k ++ rest) = true := by
  cases k with
  | zero => exact h rfl
  | succ k => rfl

theorem settles_line {ts ts' rest : List Tok}
    (hp : ∃ c, Settles (fun n => tokPipe n (ts ++ ts')) (c, ts')) (hl : Loops ts' rest) :
    ∃ c, Settles (fun n => tokLine n (ts ++ ts')) (c, rest) := by
  obtain ⟨c, hc⟩ := hp
  obtain ⟨c', hc'⟩ := hl c
  exact ⟨c', Settles.of_succ (fun _ => rfl) (hc.bind hc')⟩

mutual

theorem Simple.settles : ∀ s : Simple, s.Fits → ∀ rest, follow simpleStop s.blk rest = true →
    ∃ c, Settles (fun n => tokExec n (s.tokens ++ rest)) (c, rest)
  | .block l rs, hs, rest, h => by
      obtain ⟨c, hc⟩ := Line.settles l hs (.rparen :: (redirToks rs ++ rest)) rfl
      have hr := tokRedirs_settles c rs (noRedir_of_follow h)
      have hb : Settles
          (fun n => tokBlock n (.lparen :: (l.tokens ++ .rparen :: (redirToks rs ++ rest))))
          (wrapRedirs rs c, rest) :=
        Settles.of_succ (fun _ => rfl) (hc.bind hr)
      refine ⟨wrapRedirs rs c, Settles.of_succ (fun n => ?_) hb⟩
      simp [Simple.tokens, tokExec]
  | .exec rs args, hs, rest, h => by
      obtain ⟨c, hc⟩ := tokExec_settles rs args hs h
      exact ⟨c, by simpa [Simple.tokens] using hc⟩

theorem Pipe.settles : ∀ p : Pipe, p.Fits → ∀ rest, follow pipeStop p.blk rest = true →
    ∃ c, Settles (fun n => tokPipe n (p.tokens ++ rest)) (c, rest)
  | .one s, hp, rest, h => by
      obtain ⟨c, hc⟩ := Simple.settles s hp rest (follow_simple_of_pipe h)
      exact ⟨c, tokPipe_settles hc h⟩
  | .more s p, hp, rest, h => by
      obtain ⟨c, hc⟩ := Simple.settles s hp.1 (.pipe :: (p.tokens ++ rest)) rfl
      obtain ⟨c', hc'⟩ := Pipe.settles p hp.2 rest h
      have hm : Settles (fun n => tokPipe n (s.tokens ++ .pipe :: (p.tokens ++ rest)))
          (.pipe c c', rest) :=
        Settles.of_succ (fun _ => rfl) (hc.bind (hc'.bind (settles_of_forall fun _ => rfl)))
      exact ⟨.pipe c c', by simpa [Pipe.tokens] using hm⟩

/-- **What is derived is accepted**, up to a token that ends it. -/
theorem Line.settles : ∀ d : Line, d.Fits → ∀ rest, follow lineStop d.blk rest = true →
    ∃ c, Settles (fun n => tokLine n (d.tokens ++ rest)) (c, rest)
  | .fin p k, hd, rest, h => by
      have hloop : Loops (amps k ++ rest) rest := by
        cases k with
        | zero => exact Loops.stop h
        | succ k =>
          have hf : follow pipeStop false rest = true := follow_pipe_of_line h (fun hb => hb)
          obtain ⟨c, hc⟩ := tokPipe_empty hf
          obtain ⟨c', hc'⟩ := Loops.stop h c
          exact Loops.amps k (Loops.amp_line (Settles.of_succ (fun _ => rfl) (hc.bind hc')))
      have hp := Pipe.settles p hd (amps k ++ rest) (amps_append_follow fun hk => by
        subst hk
        exact follow_pipe_of_line h (fun hb => hb))
      have := settles_line hp hloop
      simpa [Line.tokens] using this
  | .cont p k l, hd, rest, h => by
      obtain ⟨c, hc⟩ := Line.settles l hd.2 rest h
      have hp := Pipe.settles p hd.1 (amps (k + 1) ++ (l.tokens ++ rest)) rfl
      have := settles_line hp (Loops.amps k (Loops.amp_line hc))
      simpa [Line.tokens] using this
  | .semi p k l, hd, rest, h => by
      obtain ⟨c, hc⟩ := Line.settles l hd.2 rest h
      have hloop : Loops (amps k ++ .semi :: (l.tokens ++ rest)) rest := by
        cases k with
        | zero => exact Loops.semi hc
        | succ k => exact Loops.amps k (Loops.amp (Or.inr ⟨_, _, rfl, rfl⟩) (Loops.semi hc))
      have hp := Pipe.settles p hd.1 (amps k ++ .semi :: (l.tokens ++ rest))
        (amps_append_follow fun _ => rfl)
      have := settles_line hp hloop
      simpa [Line.tokens] using this

end

/-! ### The whole text -/

theorem tokens_length_le (c : Cursor) : (tokens c).length ≤ c.rest.length := by
  suffices h : ∀ n c, (tokensUpTo n c).length ≤ n from h _ _
  intro n
  induction n with
  | zero => exact fun _ => Nat.le_refl 0
  | succ n ih =>
    intro c
    rw [tokensUpTo]
    cases (gettoken c).tok with
    | none => simp
    | some t => simpa using ih _

theorem tokLine_parseFuel (s : CStr) :
    tokLine (parseFuel s.bytes.length) (tokens s.cursor) ≠ .error .fuel := by
  refine (tok_ne_fuel _).1 _ ?_
  have : (tokens s.cursor).length ≤ s.bytes.length := tokens_length_le _
  simp only [parseFuel]
  omega

/-- The parser terminates on every text. -/
theorem parseText_ne_fuel (s : CStr) : parseText s ≠ .stopped .fuel := by
  rw [Ne, (parseText_eq s).2]
  exact tokLine_parseFuel s

/-- **The parser accepts a text exactly when its tokens derive from `Line`.** -/
theorem parseText_accepts (s : CStr) :
    (∃ cmd, parseText s = .tree cmd) ↔ Derives (tokens s.cursor) := by
  constructor
  · rintro ⟨cmd, h⟩
    obtain ⟨d, hd, hts, -, -⟩ := tokLine_sound (((parseText_eq s).1 cmd).1 h)
    exact ⟨d, hd, by simpa using hts.symm⟩
  · rintro ⟨d, hd, hts⟩
    obtain ⟨c, hc⟩ := Line.settles d hd [] rfl
    rw [List.append_nil, hts] at hc
    exact ⟨c, ((parseText_eq s).1 c).2 ((tokLine_mono _).eq_of_settles hc (tokLine_parseFuel s))⟩

/-- The tree of an accepted text is the tree of a derivation of its tokens. -/
theorem parseText_tree {s : CStr} {cmd : Cmd Span} (h : parseText s = .tree cmd) :
    ∃ d : Line, d.Fits ∧ d.tokens = tokens s.cursor ∧ cmd = d.tree := by
  obtain ⟨d, hd, hts, hc, -⟩ := tokLine_sound (((parseText_eq s).1 cmd).1 h)
  exact ⟨d, hd, by simpa using hts.symm, hc⟩

/-- **When the parser stops the shell.**  It comes back, with a tree or with
`syntax error near:`, exactly when the tokens begin with a line that is followed
by nothing, by a closing parenthesis, or, where the line ends in a block, by a
word or an opening parenthesis. -/
theorem parseText_returns_iff (s : CStr) :
    (∀ why, parseText s ≠ .stopped why) ↔
      ∃ (d : Line) (rest : List Tok), d.Fits ∧ tokens s.cursor = d.tokens ++ rest ∧
        follow lineStop d.blk rest = true := by
  have hstop := fun e => (parseText_eq s).2 e
  constructor
  · intro h
    cases ht : tokLine (parseFuel s.bytes.length) (tokens s.cursor) with
    | error e => exact absurd ((hstop e).2 ht) (h e)
    | ok r =>
      obtain ⟨d, hd, hts, -, hf⟩ := tokLine_sound (show _ = Except.ok (r.1, r.2) from ht)
      exact ⟨d, r.2, hd, hts, hf⟩
  · rintro ⟨d, rest, hd, hts, hf⟩ why hw
    obtain ⟨c, hc⟩ := Line.settles d hd rest hf
    rw [← hts] at hc
    have := (tokLine_mono _).eq_of_settles hc (tokLine_parseFuel s)
    rw [(hstop why).1 hw] at this
    cases this

end Shell
end V6User
