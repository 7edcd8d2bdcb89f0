import V6User.Shell.Grammar

/-!
# What the parser accepts is derived

When a procedure of the parser returns a tree, the tokens it took are those of
a derivation, the tree is the tree of that derivation, and the token it stopped
at is one that cannot continue it (`Line.follow` and its companions): after a
simple command other than a block an operator that ends it, after a block also
a word or an opening parenthesis, which the parser leaves to the `syntax error`
of `parsecmd`.
-/

namespace V6User
namespace Shell

/-! ### What may follow -/

/-- The next token, if there is one, passes `stop`; a word or an opening
parenthesis may come only after a block. -/
def follow (stop : Tok → Bool) (blk : Bool) : List Tok → Bool
  | [] => true
  | .word _ :: _ => blk
  | .lparen :: _ => blk
  | t :: _ => stop t

/-- The operators that end a simple command. -/
def simpleStop : Tok → Bool
  | .pipe | .rparen | .semi | .amp => true
  | _ => false

/-- The operators that end a pipe. -/
def pipeStop : Tok → Bool
  | .rparen | .semi | .amp => true
  | _ => false

/-- The operator that ends a line. -/
def lineStop : Tok → Bool
  | .rparen => true
  | _ => false

/-- The operators after which the loop of `parseline` goes on. -/
def ampStop : Tok → Bool
  | .semi | .amp => true
  | _ => false

/-- The simple command is a block. -/
def Simple.blk : Simple → Bool
  | .block _ _ => true
  | .exec _ _ => false

/-- The pipe ends in a block. -/
def Pipe.blk : Pipe → Bool
  | .one s => s.blk
  | .more _ p => p.blk

/-- The line ends in a block. -/
def Line.blk : Line → Bool
  | .fin p k => k == 0 && p.blk
  | .cont _ _ l => l.blk
  | .semi _ _ l => l.blk

/-- No redirection follows. -/
def noRedir : List Tok → Bool
  | [] => true
  | t :: _ => t.redir?.isNone

/-! ### Redirections and words -/

theorem wrapRedirs_cons (r : Redir) (rs : List Redir) (c : Cmd Span) :
    wrapRedirs (r :: rs) c = wrapRedirs rs (redirFor r.op.kind c r.file) := rfl

theorem wrapRedirs_append (rs rs' : List Redir) (c : Cmd Span) :
    wrapRedirs (rs ++ rs') c = wrapRedirs rs' (wrapRedirs rs c) := by
  simp [wrapRedirs]

/-- Storing a word goes through redirections to the command inside them. -/
theorem pushArg_wrapRedirs (w : Span) (rs : List Redir) (c : Cmd Span) :
    (wrapRedirs rs c).pushArg w = wrapRedirs rs (c.pushArg w) := by
  induction rs generalizing c with
  | nil => rfl
  | cons r rs ih =>
    have hr : (redirFor r.op.kind c r.file).pushArg w = redirFor r.op.kind (c.pushArg w) r.file := by
      cases r.op <;> rfl
    rw [wrapRedirs_cons, wrapRedirs_cons, ih, hr]

theorem redir?_eq_some {t : Tok} {f : Cmd Span → Span → Cmd Span} (h : t.redir? = some f) :
    ∃ op : RedirOp, t = op.tok ∧ f = redirFor op.kind := by
  cases t <;> simp only [Tok.redir?, Option.some.injEq, reduceCtorEq] at h
  · exact ⟨.lt, rfl, h.symm⟩
  · exact ⟨.gt, rfl, h.symm⟩
  · exact ⟨.gtgt, rfl, h.symm⟩

theorem tokRedirs_sound {n : ℕ} {cmd c : Cmd Span} {ts rest : List Tok}
    (h : tokRedirs n cmd ts = .ok (c, rest)) :
    ∃ rs, ts = redirToks rs ++ rest ∧ c = wrapRedirs rs cmd ∧ noRedir rest = true := by
  induction n generalizing cmd ts with
  | zero => cases h
  | succ n ih =>
    cases ts with
    | nil =>
      cases h
      exact ⟨[], rfl, rfl, rfl⟩
    | cons t ts =>
      rw [tokRedirs] at h
      cases hf : t.redir? with
      | none =>
        rw [hf] at h
        cases h
        exact ⟨[], rfl, rfl, by simp [noRedir, hf]⟩
      | some f =>
        rw [hf] at h
        obtain ⟨op, rfl, rfl⟩ := redir?_eq_some hf
        cases ts with
        | nil => cases h
        | cons u us =>
          cases u with
          | word w =>
            obtain ⟨rs, rfl, rfl, hr⟩ := ih h
            exact ⟨⟨op, w⟩ :: rs, rfl, rfl, hr⟩
          | _ => cases h

theorem tokExecLoop_sound {n argc : ℕ} {rs : List Redir} {ws : List Span} {c : Cmd Span}
    {ts rest : List Tok} (hargc : argc < maxArgs)
    (h : tokExecLoop n argc (wrapRedirs rs (.exec ws)) ts = .ok (c, rest)) :
    ∃ args, ts = argToks args ++ rest ∧ argc + args.length < maxArgs ∧
      c = wrapRedirs (allRedirs rs args) (.exec (ws ++ args.map Arg.word)) ∧
      follow simpleStop false rest = true := by
  induction n generalizing argc rs ws ts with
  | zero => cases h
  | succ n ih =>
    have hstop : ∀ rest, follow simpleStop false rest = true →
        ∃ args, rest = argToks args ++ rest ∧ argc + args.length < maxArgs ∧
          wrapRedirs rs (.exec ws) =
            wrapRedirs (allRedirs rs args) (.exec (ws ++ args.map Arg.word)) ∧
          follow simpleStop false rest = true :=
      fun rest hr => ⟨[], rfl, hargc, by simp [allRedirs], hr⟩
    match ts with
    | [] => cases h; exact hstop _ rfl
    | t :: ts =>
      cases t with
      | word w =>
        rw [tokExecLoop] at h
        split_ifs at h with hmax
        obtain ⟨⟨c₁, ts₁⟩, h₁, h₂⟩ := bind_eq_ok.1 h
        rw [pushArg_wrapRedirs, Cmd.pushArg] at h₁
        obtain ⟨rs₁, rfl, rfl, hnr⟩ := tokRedirs_sound h₁
        rw [← wrapRedirs_append] at h₂
        obtain ⟨args, rfl, hlen, rfl, hr⟩ := ih (by omega) h₂
        refine ⟨⟨w, rs₁⟩ :: args, by simp [argToks], by simp only [List.length_cons]; omega, ?_, hr⟩
        simp [allRedirs]
      | pipe => cases h; exact hstop _ rfl
      | rparen => cases h; exact hstop _ rfl
      | semi => cases h; exact hstop _ rfl
      | amp => cases h; exact hstop _ rfl
      | _ => cases h

/-! ### Pipes and lines -/

theorem back_backs (k : ℕ) (c : Cmd Span) : Cmd.back (backs k c) = backs (k + 1) c := by
  induction k generalizing c with
  | zero => rfl
  | succ k ih => exact ih _

theorem amps_succ (k : ℕ) (ts : List Tok) : amps (k + 1) ++ ts = amps k ++ .amp :: ts := by
  simp [amps, List.replicate_succ']

/-- **What the parser accepts is derived**, procedure by procedure. -/
theorem tok_sound (n : ℕ) :
    (∀ ts c rest, tokLine n ts = .ok (c, rest) →
      ∃ d : Line, d.Fits ∧ ts = d.tokens ++ rest ∧ c = d.tree ∧
        follow lineStop d.blk rest = true) ∧
    (∀ (p : Pipe) (k : ℕ) ts c rest, p.Fits → (k = 0 → follow pipeStop p.blk ts = true) →
      (k ≠ 0 → follow ampStop false ts = true) →
      tokLineLoop n (backs k p.tree) ts = .ok (c, rest) →
      ∃ d : Line, d.Fits ∧ p.tokens ++ amps k ++ ts = d.tokens ++ rest ∧ c = d.tree ∧
        follow lineStop d.blk rest = true) ∧
    (∀ ts c rest, tokPipe n ts = .ok (c, rest) →
      ∃ p : Pipe, p.Fits ∧ ts = p.tokens ++ rest ∧ c = p.tree ∧
        follow pipeStop p.blk rest = true) ∧
    (∀ ts c rest, tokExec n ts = .ok (c, rest) →
      ∃ s : Simple, s.Fits ∧ ts = s.tokens ++ rest ∧ c = s.tree ∧
        follow simpleStop s.blk rest = true) ∧
    (∀ ts c rest, tokBlock n ts = .ok (c, rest) →
      ∃ s : Simple, s.Fits ∧ ts = s.tokens ++ rest ∧ c = s.tree ∧
        follow simpleStop s.blk rest = true) := by
  induction n with
  | zero =>
    refine ⟨?_, ?_, ?_, ?_, ?_⟩
    · intro ts c rest h; cases h
    · intro p k ts c rest _ _ _ h; cases h
    · intro ts c rest h; cases h
    · intro ts c rest h; cases h
    · intro ts c rest h; cases h
  | succ n ih =>
    obtain ⟨hline, hloop, hpipe, hexec, hblock⟩ := ih
    refine ⟨?_, ?_, ?_, ?_, ?_⟩
    · intro ts c rest h
      obtain ⟨⟨c₁, ts₁⟩, h₁, h₂⟩ := bind_eq_ok.1 h
      obtain ⟨p, hp, rfl, rfl, hf⟩ := hpipe _ _ _ h₁
      obtain ⟨d, hd, hts, hc, hr⟩ := hloop p 0 ts₁ c rest hp (fun _ => hf) (by simp) h₂
      exact ⟨d, hd, by simpa [amps] using hts, hc, hr⟩
    · intro p k ts c rest hp hf₀ hf₁ h
      have hamp : ∀ us, p.tokens ++ amps k ++ .amp :: us = p.tokens ++ amps (k + 1) ++ us :=
        fun us => by rw [List.append_assoc, List.append_assoc, amps_succ]
      cases ts with
      | nil =>
        cases h
        exact ⟨.fin p k, hp, rfl, rfl, rfl⟩
      | cons t ts =>
        -- the loop ends at a token other than `&` and `;`
        have hfin : ∀ u us, follow ampStop false (u :: us) = false →
            (follow pipeStop p.blk (u :: us) = true → follow lineStop p.blk (u :: us) = true) →
            (k = 0 → follow pipeStop p.blk (u :: us) = true) →
            (k ≠ 0 → follow ampStop false (u :: us) = true) →
            ∃ d : Line, d.Fits ∧ p.tokens ++ amps k ++ u :: us = d.tokens ++ u :: us ∧
              backs k p.tree = d.tree ∧ follow lineStop d.blk (u :: us) = true := by
          intro u us hu hl h₀ h₁
          have hk : k = 0 := by
            by_contra hk
            rw [hu] at h₁
            exact Bool.noConfusion (h₁ hk)
          subst hk
          exact ⟨.fin p 0, hp, rfl, rfl, by simpa [Line.blk] using hl (h₀ rfl)⟩
        cases t with
        | amp =>
          rw [hamp]
          cases ts with
          | nil =>
            rw [tokLineLoop, back_backs] at h
            exact hloop p (k + 1) _ c rest hp (by simp) (fun _ => rfl) h
          | cons u us =>
            have hcont : tokLineLoop (n + 1) (backs k p.tree) (.amp :: u :: us) =
                  (do let r ← tokLine n (u :: us)
                      .ok (.list (.back (backs k p.tree)) r.1, r.2)) →
                ∃ d : Line, d.Fits ∧ p.tokens ++ amps (k + 1) ++ u :: us = d.tokens ++ rest ∧
                  c = d.tree ∧ follow lineStop d.blk rest = true := by
              intro he
              rw [he] at h
              obtain ⟨⟨c₁, ts₁⟩, h₁, h₂⟩ := bind_eq_ok.1 h
              obtain ⟨d, hd, hts, rfl, hr⟩ := hline _ _ _ h₁
              cases h₂
              rw [back_backs]
              exact ⟨.cont p k d, ⟨hp, hd⟩, by simp [Line.tokens, hts], rfl, hr⟩
            cases u with
            | amp =>
              rw [tokLineLoop, back_backs] at h
              exact hloop p (k + 1) _ c rest hp (by simp) (fun _ => rfl) h
            | semi =>
              rw [tokLineLoop, back_backs] at h
              exact hloop p (k + 1) _ c rest hp (by simp) (fun _ => rfl) h
            | _ => exact hcont rfl
        | semi =>
          obtain ⟨⟨c₁, ts₁⟩, h₁, h₂⟩ := bind_eq_ok.1 h
          obtain ⟨d, hd, rfl, rfl, hr⟩ := hline _ _ _ h₁
          cases h₂
          exact ⟨.semi p k d, ⟨hp, hd⟩, by simp [Line.tokens], rfl, hr⟩
        | _ => cases h; exact hfin _ _ rfl (fun h => h) hf₀ hf₁
    · intro ts c rest h
      obtain ⟨⟨c₁, ts₁⟩, h₁, h₂⟩ := bind_eq_ok.1 h
      obtain ⟨s, hs, rfl, rfl, hf⟩ := hexec _ _ _ h₁
      cases ts₁ with
      | nil =>
        cases h₂
        exact ⟨.one s, hs, rfl, rfl, rfl⟩
      | cons t ts₁ =>
        cases t with
        | pipe =>
          obtain ⟨⟨c₂, ts₂⟩, h₃, h₄⟩ := bind_eq_ok.1 h₂
          obtain ⟨p, hp, rfl, rfl, hr⟩ := hpipe _ _ _ h₃
          cases h₄
          exact ⟨.more s p, ⟨hs, hp⟩, by simp [Pipe.tokens], rfl, hr⟩
        | _ => cases h₂; exact ⟨.one s, hs, rfl, rfl, hf⟩
    · intro ts c rest h
      have hplain : ∀ ts, (tokRedirs n (.exec []) ts >>= fun r => tokExecLoop n 0 r.1 r.2) =
            .ok (c, rest) →
          ∃ s : Simple, s.Fits ∧ ts = s.tokens ++ rest ∧ c = s.tree ∧
            follow simpleStop s.blk rest = true := by
        intro ts h
        obtain ⟨⟨c₁, ts₁⟩, h₁, h₂⟩ := bind_eq_ok.1 h
        obtain ⟨rs, rfl, rfl, -⟩ := tokRedirs_sound h₁
        obtain ⟨args, rfl, hlen, rfl, hr⟩ := tokExecLoop_sound (by decide) h₂
        exact ⟨.exec rs args, by simpa [Simple.Fits] using hlen, by simp [Simple.tokens],
          by simp [Simple.tree], hr⟩
      cases ts with
      | nil => exact hplain _ h
      | cons t ts =>
        cases t with
        | lparen => exact hblock _ _ _ h
        | _ => exact hplain _ h
    · intro ts c rest h
      cases ts with
      | nil => cases h
      | cons t ts =>
        cases t with
        | lparen =>
          obtain ⟨⟨c₁, ts₁⟩, h₁, h₂⟩ := bind_eq_ok.1 h
          obtain ⟨l, hl, rfl, rfl, -⟩ := hline _ _ _ h₁
          cases ts₁ with
          | nil => cases h₂
          | cons u us =>
            cases u with
            | rparen =>
              obtain ⟨rs, rfl, rfl, hnr⟩ := tokRedirs_sound h₂
              refine ⟨.block l rs, hl, by simp [Simple.tokens], rfl, ?_⟩
              cases rest with
              | nil => rfl
              | cons t ts => cases t <;> first | rfl | cases hnr
            | _ => cases h₂
        | _ => cases h

/-- What `parseline` takes of a token list is a line. -/
theorem tokLine_sound {n : ℕ} {ts rest : List Tok} {c : Cmd Span} (h : tokLine n ts = .ok (c, rest)) :
    ∃ d : Line, d.Fits ∧ ts = d.tokens ++ rest ∧ c = d.tree ∧
      follow lineStop d.blk rest = true :=
  (tok_sound n).1 ts c rest h

end Shell
end V6User
