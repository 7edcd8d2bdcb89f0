import V6User.Shell.Command

/-!
# The parser sees only the token sequence

The same procedures as `V6User.Shell.Command`, over a list of tokens in place
of a pointer into the text: a `peek` is a match on the head of the list, a
`gettoken` drops it.  Each procedure over the text is the one over its tokens
(`parseline_onTokens` and its companions), with the same fuel, the same tree and
the same message when it stops.  Acceptance, losslessness and the ways the
parser can stop are proved about token lists and carried over by
`parseText_eq`.
-/

namespace V6User
namespace Shell

/-- A token that redirects, and the node it makes. -/
def Tok.redir? : Tok → Option (Cmd Span → Span → Cmd Span)
  | .lt => some (redirFor .lt)
  | .gt => some (redirFor .gt)
  | .gtgt => some (redirFor .gtgt)
  | _ => none

/-- `parseredirs` over tokens. -/
def tokRedirs : ℕ → Cmd Span → List Tok → Except Stop (Cmd Span × List Tok)
  | 0, _, _ => .error .fuel
  | _ + 1, cmd, [] => .ok (cmd, [])
  | n + 1, cmd, t :: ts =>
    match t.redir? with
    | some f =>
      match ts with
      | .word w :: ts => tokRedirs n (f cmd w) ts
      | _ => .error (.panic "missing file for redirection")
    | none => .ok (cmd, t :: ts)

/-- The loop of `parseexec` over tokens. -/
def tokExecLoop : ℕ → ℕ → Cmd Span → List Tok → Except Stop (Cmd Span × List Tok)
  | 0, _, _, _ => .error .fuel
  | _ + 1, _, ret, [] => .ok (ret, [])
  | n + 1, argc, ret, t :: ts =>
    match t with
    | .pipe | .rparen | .amp | .semi => .ok (ret, t :: ts)
    | .word w =>
      if argc + 1 ≥ maxArgs then .error (.panic "too many args")
      else do
        let r ← tokRedirs n (ret.pushArg w) ts
        tokExecLoop n (argc + 1) r.1 r.2
    | _ => .error (.panic "syntax")

mutual

/-- `parseline` over tokens. -/
def tokLine : ℕ → List Tok → Except Stop (Cmd Span × List Tok)
  | 0, _ => .error .fuel
  | n + 1, ts => do
    let r ← tokPipe n ts
    tokLineLoop n r.1 r.2

/-- The loop of `parseline` over tokens. -/
def tokLineLoop : ℕ → Cmd Span → List Tok → Except Stop (Cmd Span × List Tok)
  | 0, _, _ => .error .fuel
  | n + 1, cmd, .amp :: ts =>
    match ts with
    | [] => tokLineLoop n (.back cmd) []
    | .semi :: ts => tokLineLoop n (.back cmd) (.semi :: ts)
    | .amp :: ts => tokLineLoop n (.back cmd) (.amp :: ts)
    | t :: ts => do
      let r ← tokLine n (t :: ts)
      .ok (.list (.back cmd) r.1, r.2)
  | n + 1, cmd, .semi :: ts => do
    let r ← tokLine n ts
    .ok (.list cmd r.1, r.2)
  | _ + 1, cmd, ts => .ok (cmd, ts)

/-- `parsepipe` over tokens. -/
def tokPipe : ℕ → List Tok → Except Stop (Cmd Span × List Tok)
  | 0, _ => .error .fuel
  | n + 1, ts => do
    let l ← tokExec n ts
    match l.2 with
    | .pipe :: ts => do
      let r ← tokPipe n ts
      .ok (.pipe l.1 r.1, r.2)
    | ts => .ok (l.1, ts)

/-- `parseexec` over tokens. -/
def tokExec : ℕ → List Tok → Except Stop (Cmd Span × List Tok)
  | 0, _ => .error .fuel
  | n + 1, ts =>
    match ts with
    | .lparen :: ts => tokBlock n (.lparen :: ts)
    | ts => do
      let r ← tokRedirs n (.exec []) ts
      tokExecLoop n 0 r.1 r.2

/-- `parseblock` over tokens. -/
def tokBlock : ℕ → List Tok → Except Stop (Cmd Span × List Tok)
  | 0, _ => .error .fuel
  | n + 1, .lparen :: ts => do
    let r ← tokLine n ts
    match r.2 with
    | .rparen :: ts => tokRedirs n r.1 ts
    | _ => .error (.panic "syntax - missing )")
  | _ + 1, _ => .error (.panic "parseblock")

end

/-! ### `peek` and `gettoken` on the token sequence -/

/-- The first character of an operator; a word has none among `symbols`. -/
def Tok.first : Tok → Option Byte
  | .pipe => some 124
  | .lparen => some 40
  | .rparen => some 41
  | .semi => some 59
  | .amp => some 38
  | .lt => some 60
  | .gt => some 62
  | .gtgt => some 62
  | .word _ => none

/-- The head of a token list is an operator whose character is in `set`. -/
def headIn (set : List Byte) : List Tok → Bool
  | [] => false
  | t :: _ => t.first.any (strchr set)

@[simp] theorem peek_fst (c : Cursor) (set : List Byte) : (peek c set).1 = c.skipSpace := rfl

theorem tokens_of_none {c : Cursor} (h : (gettoken c).tok = none) : tokens c = [] := by
  rw [tokens_eq, h]

theorem tokens_of_some {c : Cursor} {t : Tok} (h : (gettoken c).tok = some t) :
    tokens c = t :: tokens (gettoken c).ps := by
  rw [tokens_eq, h]

/-- The characters that a token of each kind begins with. -/
def Kind.OpensWith (c : Byte) : Kind → Prop
  | .eof => c = 0
  | .pipe => c = 124
  | .lparen => c = 40
  | .rparen => c = 41
  | .semi => c = 59
  | .amp => c = 38
  | .lt => c = 60
  | .gt => c = 62
  | .gtgt => c = 62
  | .word => c ≠ 0 ∧ strchr symbols c = false

/-- **The kind of a token, by the character that it begins with.** -/
theorem opensWith_tokenAt (s : Cursor) : (tokenAt s).1.OpensWith s.deref := by
  have hite : ∀ {p : Prop} [Decidable p] {a b : Kind × ℕ}, (p → a.1.OpensWith s.deref) →
      (¬p → b.1.OpensWith s.deref) → (if p then a else b).1.OpensWith s.deref := by
    intro p _ a b ha hb
    split_ifs with hp
    · exact ha hp
    · exact hb hp
  refine hite (fun h => h) fun h0 => hite (fun h => h) fun h124 => hite (fun h => h) fun h40 =>
    hite (fun h => h) fun h41 => hite (fun h => h) fun h59 => hite (fun h => h) fun h38 =>
    hite (fun h => h) fun h60 => hite (fun h => hite (fun _ => h) fun _ => h) fun h62 => ⟨h0, ?_⟩
  simp [strchr, symbols, h124, h40, h41, h59, h38, h60, h62]

/-- The character under the pointer, against the token there. -/
theorem first_of_tok {c : Cursor} {t : Tok} (h : (gettoken c).tok = some t) :
    c.skipSpace.deref ≠ 0 ∧
      (t.first = some c.skipSpace.deref ∨
        t.first = none ∧ strchr symbols c.skipSpace.deref = false) := by
  have hopens := opensWith_tokenAt c.skipSpace
  simp only [Token.tok, gettoken] at h
  generalize c.skipSpace.deref = d at hopens ⊢
  cases hkind : (tokenAt c.skipSpace).1 with
  | eof =>
    rw [hkind] at h
    exact absurd h.symm (Option.some_ne_none t)
  | word =>
    rw [hkind] at h hopens
    obtain rfl := Option.some.inj h
    exact ⟨hopens.1, .inr ⟨rfl, hopens.2⟩⟩
  | _ =>
    rw [hkind] at h hopens
    obtain rfl := Option.some.inj h
    obtain rfl : d = _ := hopens
    exact ⟨by decide, .inl rfl⟩

/-- **`peek` looks at the first token.** -/
theorem peek_snd {set : List Byte} (hset : ∀ b ∈ set, b ∈ symbols) (c : Cursor) :
    (peek c set).2 = headIn set (tokens c) := by
  cases ht : (gettoken c).tok with
  | none =>
    have hnil := tokens_of_none ht
    have hr := (tokens_eq_nil_iff c).1 hnil
    simp [peek, Cursor.deref, hr, hnil, headIn]
  | some t =>
    obtain ⟨h0, hf | ⟨hf, hs⟩⟩ := first_of_tok ht
    · simp [peek, tokens_of_some ht, headIn, hf, h0]
    · have : strchr set c.skipSpace.deref = false := by
        simp only [strchr, List.contains_eq_mem, decide_eq_false_iff_not] at hs ⊢
        exact fun hm => hs (hset _ hm)
      simp [peek, tokens_of_some ht, headIn, hf, this]

@[simp] theorem ok_bind {α β : Type} (x : α) (f : α → Except Stop β) :
    (Except.ok x >>= f) = f x := rfl

@[simp] theorem error_bind {α β : Type} (e : Stop) (f : α → Except Stop β) :
    (Except.error e >>= f) = .error e := rfl

/-- What follows a procedure that returned. -/
theorem bind_eq_ok {α β : Type} {x : Except Stop α} {f : α → Except Stop β} {b : β} :
    x >>= f = .ok b ↔ ∃ a, x = .ok a ∧ f a = .ok b := by
  cases x <;> simp

/-- The pointer of a result, replaced by the tokens from it on. -/
def onTokens (r : Except Stop (Cmd Span × Cursor)) : Except Stop (Cmd Span × List Tok) :=
  r.map (Prod.map id tokens)

@[simp] theorem onTokens_ok (x : Cmd Span × Cursor) : onTokens (.ok x) = .ok (x.1, tokens x.2) := rfl

@[simp] theorem onTokens_error (e : Stop) : onTokens (.error e) = .error e := rfl

/-- Two procedures in sequence, where the second one depends on the pointer
through its tokens only. -/
theorem onTokens_bind {x : Except Stop (Cmd Span × Cursor)}
    {f : Cmd Span × Cursor → Except Stop (Cmd Span × Cursor)}
    {g : Cmd Span × List Tok → Except Stop (Cmd Span × List Tok)}
    (h : ∀ r, onTokens (f r) = g (r.1, tokens r.2)) :
    onTokens (x >>= f) = onTokens x >>= g := by
  cases x with
  | error e => rfl
  | ok r => exact h r

/-- A procedure whose result is wrapped into a node. -/
theorem onTokens_wrap (f : Cmd Span → Cmd Span) (x : Except Stop (Cmd Span × Cursor)) :
    onTokens (x >>= fun r => .ok (f r.1, r.2)) = onTokens x >>= fun r => .ok (f r.1, r.2) :=
  onTokens_bind fun _ => rfl

/-- The kind of the token at the pointer. -/
theorem ret_of_tok {c : Cursor} {t : Tok} (h : (gettoken c).tok = some t) :
    (gettoken c).ret = match t with
      | .pipe => .pipe
      | .lparen => .lparen
      | .rparen => .rparen
      | .semi => .semi
      | .amp => .amp
      | .lt => .lt
      | .gt => .gt
      | .gtgt => .gtgt
      | .word _ => .word := by
  cases hr : (gettoken c).ret <;> simp only [Token.tok, hr] at h <;> cases h <;> rfl

/-- `*ps < es` after a `gettoken`. -/
theorem rest_ne_nil_iff (c : Cursor) : (gettoken c).ps.rest ≠ [] ↔ tokens (gettoken c).ps ≠ [] := by
  rw [ne_eq, ne_eq, tokens_eq_nil_iff]
  simp [gettoken]

theorem span_of_word {c : Cursor} {w : Span} (h : (gettoken c).tok = some (.word w)) :
    (gettoken c).span = w := by
  cases hr : (gettoken c).ret <;> simp only [Token.tok, hr] at h <;> cases h
  rfl

theorem parseredirs_onTokens (n : ℕ) (cmd : Cmd Span) (ps : Cursor) :
    onTokens (parseredirs n cmd ps) = tokRedirs n cmd (tokens ps) := by
  induction n generalizing cmd ps with
  | zero => rfl
  | succ n ih =>
    have hp : (peek ps [60, 62]).2 = headIn [60, 62] (tokens ps) :=
      peek_snd (by simp [symbols]) ps
    simp only [parseredirs, hp, peek_fst, gettoken_skipSpace]
    cases ht : (gettoken ps).tok with
    | none => simp [tokens_of_none ht, headIn, tokRedirs]
    | some t =>
      have hret := ret_of_tok ht
      have hts := tokens_of_some ht
      cases hf : (gettoken (gettoken ps).ps).tok with
      | none =>
        rw [hts, tokens_of_none hf]
        cases t <;> simp [headIn, Tok.first, strchr, tokRedirs, Tok.redir?, hts, tokens_of_none hf,
          (tok_eq_none_iff.1 hf)]
      | some u =>
        have huret := ret_of_tok hf
        have hus := tokens_of_some hf
        rw [hts, hus]
        cases t <;> cases u <;>
          simp_all [headIn, Tok.first, strchr, tokRedirs, Tok.redir?, redirFor, span_of_word]

theorem execLoop_onTokens (n argc : ℕ) (ret : Cmd Span) (ps : Cursor) :
    onTokens (execLoop n argc ret ps) = tokExecLoop n argc ret (tokens ps) := by
  induction n generalizing argc ret ps with
  | zero => rfl
  | succ n ih =>
    have hp : (peek ps [124, 41, 38, 59]).2 = headIn [124, 41, 38, 59] (tokens ps) :=
      peek_snd (by simp [symbols]) ps
    simp only [execLoop, hp, peek_fst, gettoken_skipSpace]
    cases ht : (gettoken ps).tok with
    | none =>
      have hnil : tokens (gettoken ps).ps = [] := by
        rw [tokens_eq_nil_iff]
        have := (tokens_eq_nil_iff ps).1 (tokens_of_none ht)
        simpa [gettoken, tokenAt_nil this] using this
      simp [tokens_of_none ht, headIn, tokExecLoop, tok_eq_none_iff.1 ht, hnil]
    | some t =>
      have hret := ret_of_tok ht
      have hts := tokens_of_some ht
      cases t with
      | word w =>
        rw [hts]
        simp only [headIn, Tok.first, Option.any_none, Bool.false_eq_true, if_false, hret,
          reduceCtorEq, ne_eq, not_true_eq_false, tokExecLoop, span_of_word ht]
        split_ifs
        · rfl
        · rw [onTokens_bind (g := fun r => tokExecLoop n (argc + 1) r.1 r.2)
            (fun r => ih (argc + 1) r.1 r.2), parseredirs_onTokens]
      | _ => simp_all [headIn, Tok.first, strchr, tokExecLoop]

/-- **The parser over the text is the parser over its tokens.** -/
theorem parse_onTokens (n : ℕ) :
    (∀ ps, onTokens (parseline n ps) = tokLine n (tokens ps)) ∧
      (∀ cmd ps, onTokens (lineLoop n cmd ps) = tokLineLoop n cmd (tokens ps)) ∧
      (∀ ps, onTokens (parsepipe n ps) = tokPipe n (tokens ps)) ∧
      (∀ ps, onTokens (parseexec n ps) = tokExec n (tokens ps)) ∧
      (∀ ps, onTokens (parseblock n ps) = tokBlock n (tokens ps)) := by
  induction n with
  | zero => exact ⟨fun _ => rfl, fun _ _ => rfl, fun _ => rfl, fun _ => rfl, fun _ => rfl⟩
  | succ n ih =>
    obtain ⟨hline, hloop, hpipe, hexec, hblock⟩ := ih
    refine ⟨fun ps => ?_, fun cmd ps => ?_, fun ps => ?_, fun ps => ?_, fun ps => ?_⟩
    · rw [parseline, tokLine, onTokens_bind (g := fun r => tokLineLoop n r.1 r.2)
        (fun r => hloop r.1 r.2), hpipe]
    · have hp : (peek ps [38]).2 = headIn [38] (tokens ps) := peek_snd (by simp [symbols]) ps
      have hp' : (peek ps.skipSpace [59]).2 = headIn [59] (tokens ps) := by
        rw [peek_snd (by simp [symbols]), tokens_skipSpace]
      have hq : (peek (gettoken ps).ps [59, 38]).2 = headIn [59, 38] (tokens (gettoken ps).ps) :=
        peek_snd (by simp [symbols]) _
      simp only [lineLoop, hp, hp', hq, peek_fst, gettoken_skipSpace, rest_ne_nil_iff]
      cases ht : (gettoken ps).tok with
      | none => simp [tokens_of_none ht, headIn, tokLineLoop]
      | some t =>
        rw [tokens_of_some ht]
        cases t with
        | amp =>
          have hback := onTokens_wrap (.list (.back cmd)) (parseline n (gettoken ps).ps.skipSpace)
          rw [hline, tokens_skipSpace] at hback
          cases hts : tokens (gettoken ps).ps with
          | nil => simp [tokLineLoop, hloop, hts, headIn, Tok.first, strchr]
          | cons u us =>
            rw [hts] at hback
            cases u <;> simp [tokLineLoop, headIn, Tok.first, strchr, hloop, hts, hback]
        | semi =>
          have hsemi := onTokens_wrap (.list cmd) (parseline n (gettoken ps).ps)
          rw [hline] at hsemi
          simp [headIn, Tok.first, strchr, tokLineLoop, hsemi]
        | _ => simp [tokLineLoop, headIn, Tok.first, strchr, tokens_of_some ht]
    · rw [parsepipe, tokPipe, ← hexec]
      cases hx : parseexec n ps with
      | error e => rfl
      | ok l =>
        have hp : (peek l.2 [124]).2 = headIn [124] (tokens l.2) := peek_snd (by simp [symbols]) _
        have hwrap := onTokens_wrap (.pipe l.1) (parsepipe n (gettoken l.2).ps)
        rw [hpipe] at hwrap
        simp only [ok_bind, onTokens_ok, hp, peek_fst, gettoken_skipSpace]
        cases ht : (gettoken l.2).tok with
        | none => simp [tokens_of_none ht, headIn]
        | some t =>
          rw [tokens_of_some ht]
          cases t <;> simp [headIn, Tok.first, strchr, tokens_of_some ht, hwrap]
    · have hp : (peek ps [40]).2 = headIn [40] (tokens ps) := peek_snd (by simp [symbols]) ps
      have hplain : onTokens (parseredirs n (.exec []) ps.skipSpace >>= fun r => execLoop n 0 r.1 r.2)
          = tokRedirs n (.exec []) (tokens ps) >>= fun r => tokExecLoop n 0 r.1 r.2 := by
        rw [onTokens_bind (g := fun r => tokExecLoop n 0 r.1 r.2)
          (fun r => execLoop_onTokens n 0 r.1 r.2), parseredirs_onTokens, tokens_skipSpace]
      simp only [parseexec, hp, peek_fst]
      cases ht : (gettoken ps).tok with
      | none => simpa [tokens_of_none ht, headIn, tokExec] using hplain
      | some t =>
        rw [tokens_of_some ht] at hplain ⊢
        cases t <;>
          simp [headIn, Tok.first, strchr, tokExec, hplain, hblock, tokens_of_some ht]
    · have hp : (peek ps [40]).2 = headIn [40] (tokens ps) := peek_snd (by simp [symbols]) ps
      simp only [parseblock, hp, peek_fst, gettoken_skipSpace]
      cases ht : (gettoken ps).tok with
      | none =>
        rw [tokens_of_none ht]
        simp [headIn, tokBlock]
      | some t =>
        rw [tokens_of_some ht]
        cases t with
        | lparen =>
          simp only [headIn, Tok.first, tokBlock, ← hline]
          cases hx : parseline n (gettoken ps).ps with
          | error e => simp [strchr]
          | ok r =>
            have hq : (peek r.2 [41]).2 = headIn [41] (tokens r.2) := peek_snd (by simp [symbols]) _
            simp only [ok_bind, onTokens_ok, hq]
            cases hu : (gettoken r.2).tok with
            | none => simp [tokens_of_none hu, headIn, strchr]
            | some u =>
              rw [tokens_of_some hu]
              cases u <;> simp [headIn, Tok.first, strchr, parseredirs_onTokens]
        | _ => simp [headIn, Tok.first, strchr, tokBlock]

/-- What `parsecmd` comes to, from its tokens: the tree when the line parser
takes all of them. -/
theorem parseText_eq (s : CStr) :
    (∀ cmd, parseText s = .tree cmd ↔
        tokLine (parseFuel s.bytes.length) (tokens s.cursor) = .ok (cmd, [])) ∧
      (∀ e, parseText s = .stopped e ↔
        tokLine (parseFuel s.bytes.length) (tokens s.cursor) = .error e) := by
  rw [← (parse_onTokens _).1]
  unfold parseText
  cases parseline (parseFuel s.bytes.length) s.cursor with
  | error e => simp
  | ok r =>
    simp only [peek_fst, onTokens_ok, Except.ok.injEq, Prod.mk.injEq]
    by_cases hr : r.2.skipSpace.rest = []
    · simp [hr, (tokens_eq_nil_iff r.2).2 hr]
    · have := mt (tokens_eq_nil_iff r.2).1 hr
      simp [hr, this]

end Shell
end V6User
