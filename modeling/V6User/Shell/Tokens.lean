import V6User.Shell.Token

/-!
# The token sequence of a text

Calling `gettoken` until it returns `0` gives the token sequence of a text.
The parser of `programs/sh/sh.c` never backs up, so what it sees of the text is
this sequence, through `peek` at its head and `gettoken` to its tail: that is
`tokens_eq`, `peek_snd` and `tokens_skipSpace` here.

The words of the sequence carry the spans `[q, eq)` that `gettoken` stored for
them.  Between two of them there is at least one byte that belongs to neither
(`tokens_spaced`), which is what lets the shell terminate and unquote every word
in place.
-/

namespace V6User
namespace Shell

/-- The offsets `q` and `eq` of a word in the buffer. -/
structure Span where
  q : ℕ
  eq : ℕ
  deriving DecidableEq, Repr

/-- A token other than the end of the text; a word carries its span. -/
inductive Tok where
  | pipe
  | lparen
  | rparen
  | semi
  | amp
  | lt
  | gt
  | gtgt
  | word (w : Span)
  deriving DecidableEq, Repr

/-- The token read by one call of `gettoken`, if the text is not at its end. -/
def Token.tok (t : Token) : Option Tok :=
  match t.ret with
  | .eof => none
  | .pipe => some .pipe
  | .lparen => some .lparen
  | .rparen => some .rparen
  | .semi => some .semi
  | .amp => some .amp
  | .lt => some .lt
  | .gt => some .gt
  | .gtgt => some .gtgt
  | .word => some (.word ⟨t.q.pos, t.eq.pos⟩)

/-- At most `n` tokens from the pointer on. -/
def tokensUpTo : ℕ → Cursor → List Tok
  | 0, _ => []
  | n + 1, c =>
    match (gettoken c).tok with
    | none => []
    | some t => t :: tokensUpTo n (gettoken c).ps

/-- The token sequence from the pointer to the end of the text. -/
def tokens (c : Cursor) : List Tok := tokensUpTo c.rest.length c

/-! ### One step of the sequence -/

theorem tokenAt_nil {s : Cursor} (h : s.rest = []) : tokenAt s = (.eof, 0) := by
  simp [tokenAt, Cursor.deref, h]

/-- The first byte of a word does not end it, so the scan takes it. -/
theorem wordLen_pos {c : Byte} {s : List Byte} (h : endsWord c = false) :
    0 < wordLen .out (c :: s) := by
  unfold wordLen
  simp only [h, Bool.false_eq_true, if_false]
  split_ifs
  · split <;> omega
  all_goals omega

theorem strchr_symbols (c : Byte) : strchr symbols c = true ↔
    c = 60 ∨ c = 124 ∨ c = 62 ∨ c = 38 ∨ c = 59 ∨ c = 40 ∨ c = 41 := by
  simp [strchr, symbols]

/-- **What is found at a byte**: a word, an operator of one byte, or `>>`. -/
theorem tokenAt_cases {s : Cursor} {b : Byte} {l : List Byte} (hr : s.rest = b :: l) :
    (strchr symbols b = false ∧ tokenAt s = (.word, wordLen .out (b :: l))) ∨
      (∃ k, strchr symbols b = true ∧ k ≠ .word ∧ k ≠ .eof ∧ tokenAt s = (k, 1)) ∨
      b = 62 ∧ (∃ l', l = 62 :: l') ∧ tokenAt s = (.gtgt, 2) := by
  have hderef : s.deref = b := by rw [Cursor.deref, hr]; rfl
  have hzero : b ≠ 0 := fun hb => s.nul_free (by rw [hr, hb]; exact List.mem_cons_self)
  by_cases hsym : strchr symbols b = true
  · right
    rcases (strchr_symbols b).1 hsym with rfl | rfl | rfl | rfl | rfl | rfl | rfl
    · exact .inl ⟨.lt, hsym, nofun, nofun, by rw [tokenAt, hderef]; rfl⟩
    · exact .inl ⟨.pipe, hsym, nofun, nofun, by rw [tokenAt, hderef]; rfl⟩
    · have hgt : tokenAt s = if (s.advance 1).deref = 62 then (.gtgt, 2) else (.gt, 1) := by
        rw [tokenAt, hderef]
        rfl
      by_cases hnext : (s.advance 1).deref = 62
      · refine .inr ⟨rfl, ?_, by rw [hgt, if_pos hnext]⟩
        rw [Cursor.deref, Cursor.advance_rest, hr] at hnext
        cases l with
        | nil => exact absurd hnext (by decide)
        | cons d l => exact ⟨l, congrArg (· :: l) hnext⟩
      · exact .inl ⟨.gt, hsym, nofun, nofun, by rw [hgt, if_neg hnext]⟩
    · exact .inl ⟨.amp, hsym, nofun, nofun, by rw [tokenAt, hderef]; rfl⟩
    · exact .inl ⟨.semi, hsym, nofun, nofun, by rw [tokenAt, hderef]; rfl⟩
    · exact .inl ⟨.lparen, hsym, nofun, nofun, by rw [tokenAt, hderef]; rfl⟩
    · exact .inl ⟨.rparen, hsym, nofun, nofun, by rw [tokenAt, hderef]; rfl⟩
  · refine .inl ⟨Bool.eq_false_iff.2 hsym, ?_⟩
    obtain ⟨h₁, h₂, h₃, h₄, h₅, h₆, h₇⟩ := by
      simpa only [strchr_symbols, not_or] using hsym
    rw [tokenAt, hderef, hr, if_neg hzero, if_neg h₂, if_neg h₆, if_neg h₇, if_neg h₅, if_neg h₄,
      if_neg h₁, if_neg h₃]

/-- A word is what the word loop steps over. -/
theorem tokenAt_word {s : Cursor} (h : (tokenAt s).1 = .word) :
    (tokenAt s).2 = wordLen .out s.rest := by
  cases hr : s.rest with
  | nil =>
    rw [tokenAt_nil hr] at h
    exact absurd h nofun
  | cons b l =>
    rcases tokenAt_cases hr with ⟨-, hat⟩ | ⟨k, -, hk, -, hat⟩ | ⟨-, -, hat⟩
    · rw [hat]
    · rw [hat] at h
      exact absurd h hk
    · rw [hat] at h
      exact absurd h nofun

/-- Every token takes at least one byte and none past `es`. -/
theorem tokenAt_bounds {s : Cursor} (hs : s.skipSpace = s) :
    (tokenAt s).2 ≤ s.rest.length ∧ (s.rest ≠ [] → 0 < (tokenAt s).2 ∧ (tokenAt s).1 ≠ .eof) := by
  cases hr : s.rest with
  | nil => simp [tokenAt_nil hr]
  | cons b l =>
    have hw : strchr whitespace b = false := Cursor.not_whitespace_of_skipSpace (hs ▸ hr)
    rcases tokenAt_cases hr with ⟨hsym, hat⟩ | ⟨k, -, -, hk, hat⟩ | ⟨-, ⟨l', rfl⟩, hat⟩
    · rw [hat]
      exact ⟨wordLen_le _ _, fun _ => ⟨wordLen_pos (by rw [endsWord, hw, hsym]; rfl), nofun⟩⟩
    · rw [hat]
      exact ⟨Nat.succ_le_succ (Nat.zero_le _), fun _ => ⟨Nat.one_pos, hk⟩⟩
    · rw [hat]
      exact ⟨Nat.succ_le_succ (Nat.succ_le_succ (Nat.zero_le _)), fun _ => ⟨Nat.two_pos, nofun⟩⟩

theorem tok_eq_none_iff {t : Token} : t.tok = none ↔ t.ret = .eof := by
  cases hr : t.ret <;> simp [Token.tok, hr]

theorem gettoken_rest_suffix (c : Cursor) : (gettoken c).ps.rest <:+ c.rest :=
  ((Cursor.skipSpace_rest_suffix _).trans (List.drop_suffix _ _)).trans
    (Cursor.skipSpace_rest_suffix _)

/-- A call that finds a token leaves fewer bytes before `es`. -/
theorem gettoken_length_lt {c : Cursor} (h : (gettoken c).tok ≠ none) :
    (gettoken c).ps.rest.length < c.rest.length := by
  have hle := (c.skipSpace_rest_suffix).length_le
  have hb := tokenAt_bounds c.skipSpace_skipSpace
  have hne : c.skipSpace.rest ≠ [] := by
    intro hnil
    exact h (tok_eq_none_iff.2 (by simp [gettoken, tokenAt_nil hnil]))
  have hps : (gettoken c).ps.rest.length ≤ c.skipSpace.rest.length - (tokenAt c.skipSpace).2 := by
    refine ((Cursor.skipSpace_rest_suffix _).length_le).trans ?_
    rw [Cursor.advance_rest, List.length_drop]
  have hpos := (hb.2 hne).1
  omega

/-- The bound on the number of tokens does not matter once it reaches the
number of bytes left. -/
theorem tokensUpTo_eq {c : Cursor} {n : ℕ} (hn : c.rest.length ≤ n) :
    tokensUpTo n c = tokens c := by
  suffices h : ∀ m n : ℕ, ∀ c : Cursor, c.rest.length ≤ m →
      c.rest.length ≤ n → tokensUpTo m c = tokensUpTo n c from h _ _ c hn le_rfl
  intro m
  induction m with
  | zero =>
    intro n c hm hn
    cases n with
    | zero => rfl
    | succ n =>
      have hr : c.rest = [] := List.length_eq_zero_iff.1 (Nat.le_zero.1 hm)
      have ht : (gettoken c).tok = none := by
        by_contra hne
        have := gettoken_length_lt hne
        simp [hr] at this
      simp only [tokensUpTo, ht]
  | succ m ih =>
    intro n c hm hn
    cases ht : (gettoken c).tok with
    | none => cases n <;> simp only [tokensUpTo, ht]
    | some t =>
      have hlt := gettoken_length_lt (c := c) (by simp [ht])
      cases n with
      | zero => omega
      | succ n =>
        simp only [tokensUpTo, ht]
        rw [ih n _ (by omega) (by omega)]

/-- **The token sequence, one call at a time.** -/
theorem tokens_eq (c : Cursor) :
    tokens c = match (gettoken c).tok with
      | none => []
      | some t => t :: tokens (gettoken c).ps := by
  cases ht : (gettoken c).tok with
  | none => rw [← tokensUpTo_eq (Nat.le_succ _), tokensUpTo, ht]
  | some t =>
    have hlt := gettoken_length_lt (c := c) (by simp [ht])
    rw [← tokensUpTo_eq (Nat.le_succ _), tokensUpTo, ht]
    simp only [tokensUpTo_eq hlt.le]

@[simp] theorem gettoken_skipSpace (c : Cursor) : gettoken c.skipSpace = gettoken c := by
  simp only [gettoken, Cursor.skipSpace_skipSpace]

/-- Whitespace before a token is not part of the sequence. -/
@[simp] theorem tokens_skipSpace (c : Cursor) : tokens c.skipSpace = tokens c := by
  rw [tokens_eq, tokens_eq c, gettoken_skipSpace]

theorem Cursor.advance_advance (c : Cursor) (j k : ℕ) :
    (c.advance j).advance k = c.advance (j + k) := by
  simp only [Cursor.advance, List.drop_drop, Nat.add_assoc]

/-- A byte of whitespace before a token is not part of the sequence. -/
theorem tokens_whitespace {c : Cursor} {b : Byte} {s : List Byte} (h : c.rest = b :: s)
    (hb : strchr whitespace b = true) : tokens c = tokens (c.advance 1) := by
  have hskip : c.skipSpace = (c.advance 1).skipSpace := by
    rw [Cursor.skipSpace, Cursor.skipSpace, Cursor.advance_advance, h, Cursor.advance_rest, h,
      List.takeWhile_cons_of_pos hb, List.length_cons, Nat.add_comm]
    rfl
  rw [← tokens_skipSpace, hskip, tokens_skipSpace]

theorem tok_ne_none_of_rest {c : Cursor} (h : c.skipSpace.rest ≠ []) :
    (gettoken c).tok ≠ none :=
  fun hn => ((tokenAt_bounds c.skipSpace_skipSpace).2 h).2 (tok_eq_none_iff.1 hn)

/-- The sequence is empty exactly when nothing but whitespace is left. -/
theorem tokens_eq_nil_iff (c : Cursor) : tokens c = [] ↔ c.skipSpace.rest = [] := by
  rw [tokens_eq]
  constructor
  · intro h
    by_contra hne
    cases ht : (gettoken c).tok with
    | none => exact tok_ne_none_of_rest hne ht
    | some t => simp [ht] at h
  · intro h
    have : (gettoken c).tok = none := tok_eq_none_iff.2 (by simp [gettoken, tokenAt_nil h])
    simp [this]

/-! ### Where the words lie -/

/-- The span of a word token. -/
def Tok.span? : Tok → Option Span
  | .word w => some w
  | _ => none

/-- The spans of the words of a token list, in order. -/
def wordSpans (ts : List Tok) : List Span := ts.filterMap Tok.span?

/-- Induction along the token sequence. -/
theorem tokens_induction {P : Cursor → Prop} (nil : ∀ c, (gettoken c).tok = none → P c)
    (cons : ∀ c t, (gettoken c).tok = some t → P (gettoken c).ps → P c) (c : Cursor) : P c := by
  suffices h : ∀ n : ℕ, ∀ c : Cursor, c.rest.length ≤ n → P c from h _ c le_rfl
  intro n
  induction n with
  | zero =>
    intro c hn
    refine nil c ?_
    by_contra hne
    have := gettoken_length_lt hne
    omega
  | succ n ih =>
    intro c hn
    cases ht : (gettoken c).tok with
    | none => exact nil c ht
    | some t =>
      have hlt := gettoken_length_lt (c := c) (by simp [ht])
      exact cons c t ht (ih _ (by omega))

/-- The word loop stops at `es` or at a byte that ends a word. -/
theorem wordLen_stop (m : Quote) (s : List Byte) :
    s.drop (wordLen m s) = [] ∨ ∃ c l, s.drop (wordLen m s) = c :: l ∧ endsWord c = true := by
  fun_induction wordLen m s <;> simp_all

theorem Cursor.advance_end {c : Cursor} {k : ℕ} (h : k ≤ c.rest.length) :
    (c.advance k).pos + (c.advance k).rest.length = c.pos + c.rest.length := by
  rw [Cursor.advance_pos, Cursor.advance_rest, List.length_drop]
  omega

theorem Cursor.skipSpace_end (c : Cursor) :
    c.pos ≤ c.skipSpace.pos ∧
      c.skipSpace.pos + c.skipSpace.rest.length = c.pos + c.rest.length :=
  ⟨Nat.le_add_right _ _, Cursor.advance_end (List.takeWhile_prefix _).length_le⟩

/-- The pointers of one call of `gettoken`, in order. -/
theorem gettoken_pos (c : Cursor) :
    c.pos ≤ (gettoken c).q.pos ∧ (gettoken c).q.pos ≤ (gettoken c).eq.pos ∧
      (gettoken c).eq.pos ≤ (gettoken c).ps.pos ∧
      (gettoken c).ps.pos + (gettoken c).ps.rest.length = c.pos + c.rest.length := by
  have hq := c.skipSpace_end
  have heq := Cursor.advance_end (tokenAt_bounds c.skipSpace_skipSpace).1
  have hps := (c.skipSpace.advance (tokenAt c.skipSpace).2).skipSpace_end
  have hle : c.skipSpace.pos ≤ (c.skipSpace.advance (tokenAt c.skipSpace).2).pos :=
    Nat.le_add_right _ _
  exact ⟨hq.1, hle, hps.1, by simp only [gettoken]; omega⟩

/-- A token has at least one byte. -/
theorem gettoken_pos_lt {c : Cursor} (h : (gettoken c).tok ≠ none) :
    (gettoken c).q.pos < (gettoken c).eq.pos := by
  have hne : c.skipSpace.rest ≠ [] := by
    intro hnil
    exact h (tok_eq_none_iff.2 (by simp [gettoken, tokenAt_nil hnil]))
  exact Nat.lt_add_of_pos_right ((tokenAt_bounds c.skipSpace_skipSpace).2 hne).1

theorem span_of_tok {t : Token} {w : Span} (h : t.tok.bind Tok.span? = some w) :
    t.ret = .word ∧ w = ⟨t.q.pos, t.eq.pos⟩ := by
  rcases t with ⟨ret, q, eq, ps⟩
  cases ret <;> simp_all [Token.tok, Tok.span?]

theorem wordSpans_tokens (c : Cursor) : wordSpans (tokens c) =
    (match (gettoken c).tok with
      | none => []
      | some t => t.span?.toList ++ wordSpans (tokens (gettoken c).ps)) := by
  rw [tokens_eq]
  cases (gettoken c).tok with
  | none => rfl
  | some t => cases h : t.span? <;> simp [wordSpans, h]

/-- Every word is a nonempty part of the text from the pointer on. -/
theorem wordSpans_bounds (c : Cursor) : ∀ w ∈ wordSpans (tokens c),
    c.pos ≤ w.q ∧ w.q < w.eq ∧ w.eq ≤ c.pos + c.rest.length := by
  induction c using tokens_induction with
  | nil c ht => simp [wordSpans_tokens, ht]
  | cons c t ht ih =>
    intro w hw
    obtain ⟨hq, heq, hps, hend⟩ := gettoken_pos c
    simp only [wordSpans_tokens c, ht, List.mem_append, Option.mem_toList] at hw
    rcases hw with hw | hw
    · obtain ⟨-, rfl⟩ := span_of_tok (t := gettoken c) (w := w) (by rw [ht]; exact hw)
      have := gettoken_pos_lt (c := c) (by simp [ht])
      refine ⟨hq, this, ?_⟩
      show (gettoken c).eq.pos ≤ _
      omega
    · have := ih w hw
      omega

/-- After the end of a word, the next word does not start at once. -/
theorem wordSpans_after {c : Cursor}
    (h : c.rest = [] ∨ ∃ b l, c.rest = b :: l ∧ endsWord b = true) :
    ∀ w ∈ wordSpans (tokens c), c.pos < w.q := by
  rcases h with h | ⟨b, l, h, hb⟩
  · have hnil : tokens c = [] := by
      rw [tokens_eq_nil_iff, Cursor.skipSpace_rest, h]
      rfl
    simp [hnil, wordSpans]
  · by_cases hw : strchr whitespace b = true
    · -- whitespace: the pointer moves on before the next token
      have hpos : c.pos < c.skipSpace.pos := by
        simp only [Cursor.skipSpace, Cursor.advance_pos, h, List.takeWhile_cons, hw, if_true,
          List.length_cons]
        omega
      intro w hw
      rw [← tokens_skipSpace] at hw
      exact hpos.trans_le (wordSpans_bounds _ w hw).1
    · -- an operator: it is the next token, and not a word
      have hs : strchr symbols b = true := by
        simpa [endsWord, hw] using hb
      have hskip : c.skipSpace = c := by
        simp [Cursor.skipSpace, h, hw]
      intro w hm
      rw [wordSpans_tokens] at hm
      cases ht : (gettoken c).tok with
      | none => simp [ht] at hm
      | some t =>
        obtain ⟨hq, -, hps, -⟩ := gettoken_pos c
        have hlt := gettoken_pos_lt (c := c) (by simp [ht])
        simp only [ht, List.mem_append, Option.mem_toList] at hm
        rcases hm with hm | hm
        · obtain ⟨hret, -⟩ := span_of_tok (t := gettoken c) (w := w) (by rw [ht]; exact hm)
          have hword : (tokenAt c).1 = .word := by rwa [gettoken, hskip] at hret
          rcases tokenAt_cases h with ⟨hsym, -⟩ | ⟨k, -, hk, -, hat⟩ | ⟨-, -, hat⟩
          · rw [hs] at hsym
            exact Bool.noConfusion hsym
          · rw [hat] at hword
            exact absurd hword hk
          · rw [hat] at hword
            cases hword
        · have := (wordSpans_bounds _ w hm).1
          omega

/-- **Between two words there is a byte that belongs to neither**: the words
are in the order of the text, and the end of one is before the start of the
next. -/
theorem tokens_spaced (c : Cursor) :
    (wordSpans (tokens c)).Pairwise fun a b => a.eq < b.q := by
  induction c using tokens_induction with
  | nil c ht => simp [wordSpans_tokens, ht]
  | cons c t ht ih =>
    simp only [wordSpans_tokens c, ht]
    cases hw : t.span? with
    | none =>
      rw [Option.toList_none, List.nil_append]
      exact ih
    | some a =>
      obtain ⟨hret, rfl⟩ := span_of_tok (t := gettoken c) (w := a) (by rw [ht]; exact hw)
      rw [Option.toList_some, List.singleton_append]
      refine List.pairwise_cons.2 ⟨fun b hb => ?_, ih⟩
      -- the word ends at `es` or at a byte that ends it
      refine wordSpans_after (c := (gettoken c).eq) ?_ b ?_
      · simp only [gettoken, Cursor.advance_rest, tokenAt_word hret]
        exact wordLen_stop _ _
      · rw [← tokens_skipSpace]
        exact hb

end Shell
end V6User
