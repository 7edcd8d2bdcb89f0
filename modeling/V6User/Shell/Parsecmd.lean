import V6User.Shell.Nulterminate

/-!
# What `parsecmd` accepts and returns

`programs/sh/sh.c`: `parsecmd` as a whole.  It terminates, and it returns a tree
exactly when the tokens of the text derive from the grammar; the tree, read from
left to right, is the text of a derivation (`parsecmd_grammar`).  It is not quite
the text itself: `a & b` and `a & ; b` have the same tree
(`operators_not_read`).

A list of words written between double quotes, with a backslash before each
double quote and backslash, comes back as the arguments of one command
(`parsecmd_quoted`).
-/

namespace V6User
namespace Shell

/-! ### The grammar -/

/-- **`parsecmd` and its grammar.**  On every text the parser terminates.  It
returns a command exactly when the tokens of the text derive from `Line`, and
otherwise reports an error, as `syntax error near:` or through `panic`.  The tree
is that of a derivation of exactly these tokens, and reading it gives back the
text of the derivation: for each simple command its words and its redirections,
in order, and the operators between them, with `& ;` for an `&` that a command
follows directly. -/
theorem parsecmd_grammar (s : CStr) :
    parsecmd s ≠ .stopped .fuel ∧
      ((∃ cmd buf, parsecmd s = .cmd cmd buf) ↔ Derives (tokens s.cursor)) ∧
      (¬Derives (tokens s.cursor) →
        (∃ near, parsecmd s = .syntaxError near) ∨ ∃ msg, parsecmd s = .stopped (.panic msg)) ∧
      ∀ cmd buf, parsecmd s = .cmd cmd buf →
        ∃ d : Line, d.Fits ∧ d.tokens = tokens s.cursor ∧ cmd = d.tree ∧ cmd.read = d.read := by
  have hfuel : parsecmd s ≠ .stopped .fuel := by
    intro h
    refine parseText_ne_fuel s ?_
    unfold parsecmd at h
    split at h <;> simp_all
  have hacc : (∃ cmd buf, parsecmd s = .cmd cmd buf) ↔ Derives (tokens s.cursor) := by
    rw [← parseText_accepts]
    constructor
    · rintro ⟨cmd, buf, h⟩
      exact ⟨cmd, (parsecmd_eq_cmd_iff.1 h).1⟩
    · rintro ⟨cmd, h⟩
      exact ⟨cmd, _, parsecmd_eq_cmd_iff.2 ⟨h, rfl⟩⟩
  refine ⟨hfuel, hacc, fun hn => ?_, fun cmd buf h => ?_⟩
  · cases h : parsecmd s with
    | cmd cmd buf => exact absurd (hacc.1 ⟨cmd, buf, h⟩) hn
    | syntaxError near => exact Or.inl ⟨near, rfl⟩
    | stopped why =>
      cases why with
      | panic msg => exact Or.inr ⟨msg, rfl⟩
      | fuel => exact absurd h hfuel
  · obtain ⟨d, hd, hts, rfl⟩ := parseText_tree (parsecmd_eq_cmd_iff.1 h).1
    exact ⟨d, hd, hts, rfl, Line.read_tree d⟩

/-- The operators that join commands. -/
def Tok.joins : Tok → Bool
  | .pipe | .semi | .amp => true
  | _ => false

/-- **The tree does not tell `a& b` from `a&;b`.**  The two texts have the same
tree, words included, so no way to read trees gives back the operators of every
accepted text. -/
theorem operators_not_read :
    ¬∃ read : Cmd Span → List Tok, ∀ s cmd buf, parsecmd s = .cmd cmd buf →
      read cmd = (tokens s.cursor).filter Tok.joins := by
  rintro ⟨read, h⟩
  let cmd : Cmd Span := .list (.back (.exec [⟨0, 1⟩])) (.exec [⟨3, 4⟩])
  have h₁ := h ⟨[97, 38, 32, 98], by decide⟩ cmd _ (parsecmd_eq_cmd_iff.2 ⟨by decide, rfl⟩)
  have h₂ := h ⟨[97, 38, 59, 98], by decide⟩ cmd _ (parsecmd_eq_cmd_iff.2 ⟨by decide, rfl⟩)
  exact absurd (h₁.symm.trans h₂) (by decide)

/-! ### Quoted words -/

/-- A byte between double quotes. -/
def quoteByte (c : Byte) : List Byte := if c = dquote ∨ c = backslash then [backslash, c] else [c]

/-- A word between double quotes. -/
def quoteWord (w : List Byte) : List Byte := dquote :: w.flatMap quoteByte ++ [dquote]

/-- Quoted words with single spaces between them. -/
def quoteWords : List (List Byte) → List Byte
  | [] => []
  | [w] => quoteWord w
  | w :: ws => quoteWord w ++ 32 :: quoteWords ws

theorem quoteWords_cons_cons (w v : List Byte) (ws : List (List Byte)) :
    quoteWords (w :: v :: ws) = quoteWord w ++ 32 :: quoteWords (v :: ws) := rfl

theorem nul_notMem_quoteWord {w : List Byte} (h : (0 : Byte) ∉ w) : (0 : Byte) ∉ quoteWord w := by
  have hb : ∀ c ∈ w, (0 : Byte) ∉ quoteByte c := by
    intro c hc
    have hne : c ≠ 0 := fun h0 => h (h0 ▸ hc)
    unfold quoteByte
    split_ifs <;> simp [hne.symm]
  simp only [quoteWord, List.mem_append, List.mem_cons, List.mem_flatMap, not_or]
  refine ⟨⟨by decide, ?_⟩, by decide⟩
  rintro ⟨c, hc, h0⟩
  exact hb c hc h0

theorem nul_notMem_quoteWords : ∀ ws : List (List Byte), (∀ w ∈ ws, (0 : Byte) ∉ w) →
    (0 : Byte) ∉ quoteWords ws
  | [], _ => by simp [quoteWords]
  | [w], h => nul_notMem_quoteWord (h w List.mem_cons_self)
  | w :: v :: ws, h => by
      have hw := nul_notMem_quoteWord (h w List.mem_cons_self)
      have hws := nul_notMem_quoteWords (v :: ws) fun u hu => h u (List.mem_cons_of_mem _ hu)
      simp only [quoteWords, List.mem_append, List.mem_cons, not_or] at hws ⊢
      exact ⟨hw, by decide, hws⟩

/-- The command line of a list of words. -/
def commandLine (ws : List CStr) : CStr where
  bytes := quoteWords (ws.map CStr.bytes)
  nul_free := nul_notMem_quoteWords _ fun w hw => by
    obtain ⟨s, -, rfl⟩ := List.mem_map.1 hw
    exact s.nul_free

/-- **`dequote` undoes the quoting.** -/
theorem dequote_quoteWord (w : List Byte) : dequote .out (quoteWord w) = w := by
  have hdq : ∀ w : List Byte, dequote .dq (w.flatMap quoteByte ++ [dquote]) = w := by
    intro w
    induction w with
    | nil => rfl
    | cons c w ih =>
      rw [List.flatMap_cons, List.append_assoc]
      by_cases hc : c = dquote ∨ c = backslash
      · rw [quoteByte, if_pos hc, List.cons_append, List.cons_append, List.nil_append]
        simp only [dequote, hc, quoteBytes_ne, if_true, if_false, ih]
      · obtain ⟨h₁, h₂⟩ := not_or.1 hc
        rw [quoteByte, if_neg hc, List.cons_append, List.nil_append, dequote.eq_def]
        simp only [h₁, h₂, if_false, ih]
  rw [quoteWord, List.cons_append, dequote.eq_def]
  simp only [quoteBytes_ne, if_true, if_false, hdq]

/-- The word loop of `gettoken` steps over a quoted word, up to what ends it. -/
theorem wordLen_quoteWord (w tl : List Byte)
    (h : tl = [] ∨ ∃ c l, tl = c :: l ∧ endsWord c = true) :
    wordLen .out (quoteWord w ++ tl) = (quoteWord w).length := by
  have hout : wordLen .out tl = 0 := by
    rcases h with rfl | ⟨c, l, rfl, hc⟩
    · rfl
    · rw [wordLen.eq_def]
      simp only [hc, if_true]
  have hdq : ∀ w : List Byte, wordLen .dq (w.flatMap quoteByte ++ dquote :: tl) =
      (w.flatMap quoteByte).length + 1 := by
    intro w
    induction w with
    | nil =>
      rw [List.flatMap_nil, List.nil_append, wordLen.eq_def]
      simp [hout]
    | cons c w ih =>
      rw [List.flatMap_cons, List.append_assoc, List.length_append]
      by_cases hc : c = dquote ∨ c = backslash
      · rw [quoteByte, if_pos hc, List.cons_append, List.cons_append, List.nil_append]
        simp only [wordLen, quoteBytes_ne, if_true, if_false, ih, List.length_cons, List.length_nil]
        omega
      · obtain ⟨h₁, h₂⟩ := not_or.1 hc
        rw [quoteByte, if_neg hc, List.cons_append, List.nil_append, wordLen.eq_def]
        simp only [h₁, h₂, if_false, ih, List.length_cons, List.length_nil]
        omega
  rw [quoteWord, List.append_assoc, List.cons_append, wordLen.eq_def]
  have hd : endsWord dquote = false := by decide
  simp only [hd, Bool.false_eq_true, quoteBytes_ne, if_true, if_false, List.singleton_append, hdq,
    List.length_append, List.length_cons, List.length_nil]

/-- A byte that ends a word, or the end of the text. -/
def EndsWord (tl : List Byte) : Prop := tl = [] ∨ ∃ c l, tl = c :: l ∧ endsWord c = true

theorem gettoken_quoteWord {c : Cursor} {w t : List Byte} (hc : c.rest = quoteWord w ++ t)
    (h : EndsWord t) :
    (gettoken c).tok = some (.word ⟨c.pos, c.pos + (quoteWord w).length⟩) ∧
      (gettoken c).ps = (c.advance (quoteWord w).length).skipSpace := by
  have hcons : c.rest = dquote :: (w.flatMap quoteByte ++ dquote :: t) := by
    rw [hc, quoteWord, List.append_assoc, List.cons_append, List.singleton_append]
  have hskip : c.skipSpace = c := by
    rw [Cursor.skipSpace, hcons, List.takeWhile_cons_of_neg (by decide), List.length_nil,
      Cursor.advance_zero]
  have hat : tokenAt c = (.word, (quoteWord w).length) := by
    have hd : c.deref = dquote := by rw [Cursor.deref, hcons, List.headD_cons]
    simp only [tokenAt, hd, hc, wordLen_quoteWord w t h]
    rfl
  simp only [gettoken, hskip, hat, Token.tok, Cursor.advance_pos, and_self]

/-- The spans of quoted words written from an offset on. -/
def quotedSpans : ℕ → List (List Byte) → List Span
  | _, [] => []
  | p, w :: ws => ⟨p, p + (quoteWord w).length⟩ :: quotedSpans (p + (quoteWord w).length + 1) ws

/-- **Quoted words are the tokens** of the text they are written in. -/
theorem tokens_quoteWords : ∀ (ws : List (List Byte)) (c : Cursor), c.rest = quoteWords ws →
    tokens c = (quotedSpans c.pos ws).map .word
  | [], c, hc => by
      refine tokens_of_none (tok_eq_none_iff.2 ?_)
      have hskip : c.skipSpace.rest = [] := by rw [Cursor.skipSpace_rest, hc]; rfl
      simp [gettoken, tokenAt_nil hskip]
  | [w], c, hc => by
      obtain ⟨htok, hps⟩ := gettoken_quoteWord (c := c) (w := w) (t := [])
        (by rw [hc, quoteWords, List.append_nil]) (Or.inl rfl)
      have hnil : tokens (c.advance (quoteWord w).length) = (quotedSpans 0 []).map .word :=
        tokens_quoteWords [] _ (by simp [hc, quoteWords])
      rw [tokens_of_some htok, hps, tokens_skipSpace, hnil]
      rfl
  | w :: v :: ws, c, hc => by
      obtain ⟨htok, hps⟩ := gettoken_quoteWord (c := c) (w := w) (t := 32 :: quoteWords (v :: ws))
        hc (Or.inr ⟨32, _, rfl, by decide⟩)
      have hrest : (c.advance (quoteWord w).length).rest = 32 :: quoteWords (v :: ws) := by
        rw [Cursor.advance_rest, hc, quoteWords_cons_cons, List.drop_left]
      have htail := tokens_quoteWords (v :: ws) ((c.advance (quoteWord w).length).advance 1)
        (by rw [Cursor.advance_rest, hrest]; rfl)
      rw [tokens_of_some htok, hps, tokens_skipSpace, tokens_whitespace hrest (by decide), htail]
      rfl

theorem slices_quotedSpans : ∀ (ws : List (List Byte)) (text : List Byte) (p : ℕ),
    text.drop p = quoteWords ws →
    (quotedSpans p ws).map (fun w => dequote .out (w.slice text)) = ws
  | [], _, _, _ => rfl
  | [w], text, p, h => by
      have hs : Span.slice ⟨p, p + (quoteWord w).length⟩ text = quoteWord w := by
        simp [Span.slice, h, quoteWords]
      simp only [quotedSpans, List.map_cons, List.map_nil, hs, dequote_quoteWord]
  | w :: v :: ws, text, p, h => by
      have hs : Span.slice ⟨p, p + (quoteWord w).length⟩ text = quoteWord w := by
        simp [Span.slice, h, quoteWords]
      have htail := slices_quotedSpans (v :: ws) text (p + (quoteWord w).length + 1) (by
        rw [Nat.add_assoc, ← List.drop_drop, h, quoteWords_cons_cons, ← List.drop_drop, List.drop_left]
        rfl)
      rw [quotedSpans, List.map_cons, hs, dequote_quoteWord, htail]

/-! ### A line of words -/

theorem redirToks_of_words {rs : List Redir} (h : ∀ t ∈ redirToks rs, t.span?.isSome) :
    rs = [] := by
  cases rs with
  | nil => rfl
  | cons r rs =>
    have := h r.op.tok List.mem_cons_self
    cases hop : r.op <;> simp [hop, RedirOp.tok, Tok.span?] at this

theorem argToks_of_words {args : List Arg} (h : ∀ t ∈ argToks args, t.span?.isSome) :
    args.flatMap Arg.redirs = [] ∧ wordSpans (argToks args) = args.map Arg.word := by
  induction args with
  | nil => exact ⟨rfl, rfl⟩
  | cons a args ih =>
    have hr : a.redirs = [] := redirToks_of_words fun t ht => h t (by simp [argToks, ht])
    obtain ⟨hrs, hws⟩ := ih fun t ht => h t (by simp [argToks, ht])
    constructor
    · rw [List.flatMap_cons, hr, hrs, List.nil_append]
    · simp [argToks, hr, redirToks, Tok.span?, hws]

/-- A line without operators is one simple command, with its words in order. -/
theorem tree_of_words {d : Line} (h : ∀ t ∈ d.tokens, t.span?.isSome) :
    d.tree = .exec (wordSpans d.tokens) := by
  have hno : ∀ t : Tok, t.span? = none → t ∉ d.tokens := fun t ht hm => by
    have := h t hm
    simp [ht] at this
  rcases d with ⟨p, k⟩ | ⟨p, k, l⟩ | ⟨p, k, l⟩
  · have hk : k = 0 := by
      by_contra hk
      exact hno .amp rfl (by simp [Line.tokens, amps, hk])
    subst hk
    rcases p with s | ⟨s, p⟩
    · rcases s with ⟨l, rs⟩ | ⟨rs, args⟩
      · exact absurd (by simp [Line.tokens, Pipe.tokens, Simple.tokens]) (hno .lparen rfl)
      · have hrs : rs = [] := redirToks_of_words fun t ht => h t (by
          simp [Line.tokens, Pipe.tokens, Simple.tokens, ht])
        have hargs : ∀ t ∈ argToks args, t.span?.isSome := fun t ht => h t (by
          simp [Line.tokens, Pipe.tokens, Simple.tokens, ht])
        obtain ⟨hredirs, hwords⟩ := argToks_of_words hargs
        simp [Line.tree, Line.tokens, Pipe.tree, Pipe.tokens, Simple.tree, Simple.tokens,
          allRedirs, hrs, hredirs, hwords, backs, wrapRedirs, redirToks]
    · exact absurd (by simp [Line.tokens, Pipe.tokens]) (hno .pipe rfl)
  · exact absurd (by simp [Line.tokens, amps]) (hno .amp rfl)
  · exact absurd (by simp [Line.tokens]) (hno .semi rfl)

theorem length_quotedSpans (p : ℕ) (ws : List (List Byte)) :
    (quotedSpans p ws).length = ws.length := by
  induction ws generalizing p with
  | nil => rfl
  | cons w ws ih => simp [quotedSpans, ih]

theorem wordSpans_map_word (ws : List Span) : wordSpans (ws.map .word) = ws := by
  induction ws with
  | nil => rfl
  | cons w ws ih => simp [Tok.span?, ih]

theorem argToks_map (ws : List Span) :
    argToks (ws.map fun w => ⟨w, []⟩) = ws.map .word := by
  induction ws with
  | nil => rfl
  | cons w ws ih => simp [argToks, redirToks, ih]

/-- **Quoting round trip.**  A list of at most 31 words, each written between
double quotes with a backslash before every double quote and backslash, with
single spaces between them, is parsed into one EXEC command whose `argv` holds
these words and then a null pointer. -/
theorem parsecmd_quoted (ws : List CStr) (hmax : ws.length ≤ 31) :
    ∃ argv buf, parsecmd (commandLine ws) = .cmd (.exec argv) buf ∧
      argvSlots (argv.map fun w => buf.cstr w.q) =
        ws.map (fun w => some w.bytes) ++ none :: List.replicate (31 - ws.length) none := by
  let spans := quotedSpans 0 (ws.map CStr.bytes)
  have hlen : spans.length = ws.length := by
    rw [length_quotedSpans, List.length_map]
  have htok : tokens (commandLine ws).cursor = spans.map .word :=
    tokens_quoteWords _ (commandLine ws).cursor rfl
  have hder : Derives (tokens (commandLine ws).cursor) := by
    refine ⟨.fin (.one (.exec [] (spans.map fun w => ⟨w, []⟩))) 0, ?_, ?_⟩
    · simp only [Line.Fits, Pipe.Fits, Simple.Fits, List.length_map, hlen, maxArgs]
      omega
    · simp [Line.tokens, Pipe.tokens, Simple.tokens, argToks_map, redirToks, amps, htok]
  obtain ⟨cmd, hcmd⟩ := (parseText_accepts _).2 hder
  obtain ⟨d, -, hd, rfl⟩ := parseText_tree hcmd
  have hwords : wordSpans d.tokens = spans := by
    rw [hd, htok]
    exact wordSpans_map_word spans
  have htree : d.tree = .exec spans := by
    rw [← hwords]
    refine tree_of_words fun t ht => ?_
    rw [hd, htok] at ht
    obtain ⟨w, -, rfl⟩ := List.mem_map.1 ht
    rfl
  rw [htree] at hcmd
  refine ⟨spans, _, parsecmd_eq_cmd_iff.2 ⟨hcmd, rfl⟩, ?_⟩
  -- the strings in the buffer are the words, unquoted
  have hstr : spans.map (fun w => (nulterminate (.exec spans) (commandLine ws).buffer).cstr w.q) =
      ws.map CStr.bytes := by
    rw [← slices_quotedSpans (ws.map CStr.bytes) (commandLine ws).bytes 0 rfl]
    exact List.map_congr_left fun w hw =>
      cstr_foldl_terminateWord hcmd (List.Perm.refl _) w hw
  have hslots : maxArgs - ws.length = 31 - ws.length + 1 := by
    simp only [maxArgs]
    omega
  rw [hstr, argvSlots, List.length_map, hslots, List.map_map, List.replicate_succ]
  rfl

/-- The bound on the number of words holds of a list with an empty word and one
of a double quote, a backslash and `|`. -/
theorem parsecmd_quoted_two :
    let ws : List CStr := [⟨[], by decide⟩, ⟨[34, 92, 124], by decide⟩]
    (commandLine ws).bytes = [34, 34, 32, 34, 92, 34, 92, 92, 124, 34] ∧
      ∃ argv buf, parsecmd (commandLine ws) = .cmd (.exec argv) buf ∧
        argvSlots (argv.map fun w => buf.cstr w.q) =
          some [] :: some [34, 92, 124] :: List.replicate 30 none :=
  ⟨by decide, parsecmd_quoted [⟨[], by decide⟩, ⟨[34, 92, 124], by decide⟩] (by decide)⟩

end Shell
end V6User
