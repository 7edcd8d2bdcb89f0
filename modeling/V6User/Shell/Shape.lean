import V6User.Base.Transducer
import V6User.Shell.Quoting

/-!
# The tokenizer, one byte at a time

`programs/sh/sh.c`: `gettoken`, as a machine that reads the text byte by byte.

What the parser makes of a text depends on its operators and on where there are words
between them (`shape`).  `shapeScan` writes one mark for each operator and one for each
run of words; it remembers whether a word has been read since the last operator, the
quotes it is in, and a backslash (`Reading`).  `shape_eq` says that these marks are the
shape of the token sequence, where a second `>` right after a first one joins it.
-/

namespace V6User
namespace Shell

/-- The return value of `gettoken` for a token. -/
def Tok.kind : Tok → Kind
  | .pipe => .pipe
  | .lparen => .lparen
  | .rparen => .rparen
  | .semi => .semi
  | .amp => .amp
  | .lt => .lt
  | .gt => .gt
  | .gtgt => .gtgt
  | .word _ => .word

/-- The kinds of the tokens, with one word for each run of words; the flag says that
the tokens follow a word. -/
def shapeFrom : Bool → List Tok → List Kind
  | _, [] => []
  | b, .word _ :: ts => if b then shapeFrom true ts else .word :: shapeFrom true ts
  | _, t :: ts => t.kind :: shapeFrom false ts

/-- The operators of a token sequence, and where there are words between them. -/
def shape (ts : List Tok) : List Kind := shapeFrom false ts

/-- The operators of a token sequence. -/
def operators (ts : List Tok) : List Kind := (ts.map Tok.kind).filter (· ≠ .word)

/-- What the machine remembers of the text before a byte. -/
inductive Reading where
  /-- no word since the last operator; `gt` right after a `>` -/
  | gap (gt : Bool)
  /-- in or after a word, in these quotes; `esc` right after a backslash that may escape
  the byte -/
  | word (m : Quote) (esc : Bool)
  deriving DecidableEq, Repr

/-- The `case`s of `gettoken` for an operator. -/
def operatorKind (c : Byte) : Option Kind :=
  if c = 124 then some .pipe
  else if c = 40 then some .lparen
  else if c = 41 then some .rparen
  else if c = 59 then some .semi
  else if c = 38 then some .amp
  else if c = 60 then some .lt
  else if c = 62 then some .gt
  else none

/-- A byte outside quotes: `blank` is the state after whitespace, `mark` what a byte of
a word writes. -/
def outsideStep (gt : Bool) (blank : Reading) (mark : Option Kind) (c : Byte) :
    Reading × Option Kind :=
  if strchr whitespace c then (blank, none)
  else match operatorKind c with
    | some .gt => if gt then (.gap false, some .gtgt) else (.gap true, some .gt)
    | some k => (.gap false, some k)
    | none => (.word (nextQuote .out c) (decide (c = backslash)), mark)

/-- The machine. -/
def shapeScan : Transducer Reading Byte Kind where
  step
    | .gap gt, c => outsideStep gt (.gap false) (some .word) c
    | .word .out false, c => outsideStep false (.word .out false) none c
    | .word .sq esc, c =>
      if c = squote then (if esc then .word .sq false else .word .out false, none)
      else (.word .sq (decide (c = backslash)), none)
    | .word .dq false, c =>
      if c = dquote then (.word .out false, none) else (.word .dq (decide (c = backslash)), none)
    | .word m true, _ => (.word m false, none)

/-- Joins a `>` with the second one that follows it at once. -/
def joinGt : List Kind → List Kind
  | .gt :: .gtgt :: ks => .gtgt :: joinGt ks
  | k :: ks => k :: joinGt ks
  | [] => []

/-! ### Steps -/

section Steps

variable {c : Byte} {s : List Byte} {gt : Bool} {blank : Reading} {mark : Option Kind}

theorem strchr_symbols_eq (c : Byte) : strchr symbols c = (operatorKind c).isSome := by
  rw [Bool.eq_iff_iff, strchr_symbols, operatorKind]
  split_ifs <;> simp_all

/-- What the first byte of an operator tells of it. -/
theorem operatorKind_some {k : Kind} (h : operatorKind c = some k) :
    k ≠ .word ∧ k ≠ .gtgt ∧ (k = .gt → c = 62) := by
  unfold operatorKind at h
  split_ifs at h with h1 h2 h3 h4 h5 h6 h7 <;> cases h
  iterate 6 exact ⟨nofun, nofun, nofun⟩
  exact ⟨nofun, nofun, fun _ => h7⟩

theorem operatorKind_ne_word (c : Byte) : operatorKind c ≠ some .word :=
  fun h => (operatorKind_some h).1 rfl

theorem outsideStep_blank (h : strchr whitespace c = true) :
    outsideStep gt blank mark c = (blank, none) := if_pos h

theorem outsideStep_word (h : endsWord c = false) :
    outsideStep gt blank mark c = (.word (nextQuote .out c) (decide (c = backslash)), mark) := by
  obtain ⟨hw, hs⟩ := Bool.or_eq_false_iff.1 h
  rw [strchr_symbols_eq, Option.isSome_eq_false_iff, Option.isNone_iff_eq_none] at hs
  rw [outsideStep, hw, hs]
  rfl

theorem outsideStep_operator {k : Kind} (hw : strchr whitespace c = false)
    (h : operatorKind c = some k) (hk : k ≠ .gt) :
    outsideStep gt blank mark c = (.gap false, some k) := by
  rw [outsideStep, hw, h]
  cases k <;> first | rfl | exact absurd rfl hk

/-- Whitespace outside quotes writes nothing. -/
theorem output_whitespace {q : Reading} (hq : q = .gap false ∨ q = .word .out false)
    {l : List Byte} (h : ∀ b ∈ l, strchr whitespace b = true) :
    shapeScan.output q (l ++ s) = shapeScan.output q s := by
  induction l with
  | nil => rfl
  | cons b l ih =>
    have hstep : shapeScan.step q b = (q, none) := by
      rcases hq with rfl | rfl
      · exact outsideStep_blank (h b List.mem_cons_self)
      · exact outsideStep_blank (h b List.mem_cons_self)
    rw [List.cons_append, Transducer.output_cons, hstep]
    exact ih fun d hd => h d (List.mem_cons_of_mem b hd)

theorem output_skipSpace {q : Reading} (hq : q = .gap false ∨ q = .word .out false) (c : Cursor) :
    shapeScan.output q c.rest = shapeScan.output q c.skipSpace.rest := by
  have hws : ∀ b ∈ c.rest.takeWhile (strchr whitespace), strchr whitespace b = true :=
    fun b hb => List.mem_takeWhile_imp hb
  have hsplit := output_whitespace (s := c.rest.dropWhile (strchr whitespace)) hq hws
  rw [List.takeWhile_append_dropWhile] at hsplit
  rw [hsplit, Cursor.skipSpace_rest]

/-- A mark `>>` is written right after a `>` only, and a byte that writes nothing is no
`>`. -/
theorem step_ne_gtgt {q : Reading} (hq : q ≠ .gap true) (c : Byte) :
    (shapeScan.step q c).2 ≠ some .gtgt ∧
      ((shapeScan.step q c).2 = none → (shapeScan.step q c).1 ≠ .gap true) := by
  have hout : ∀ blank mark, blank ≠ Reading.gap true → mark ≠ some Kind.gtgt →
      (outsideStep false blank mark c).2 ≠ some .gtgt ∧
        ((outsideStep false blank mark c).2 = none →
          (outsideStep false blank mark c).1 ≠ .gap true) := by
    intro blank mark hblank hmark
    rw [outsideStep]
    split
    · exact ⟨nofun, fun _ => hblank⟩
    · cases hk : operatorKind c with
      | none => exact ⟨hmark, fun _ => nofun⟩
      | some k =>
        have hgtgt := (operatorKind_some hk).2.1
        cases k with
        | gtgt => exact absurd rfl hgtgt
        | _ => exact ⟨nofun, nofun⟩
  match q with
  | .gap false => exact hout _ _ nofun nofun
  | .gap true => exact absurd rfl hq
  | .word .out false => exact hout _ _ nofun nofun
  | .word .sq esc =>
    rw [shapeScan]
    dsimp only
    split_ifs <;> exact ⟨nofun, fun _ => nofun⟩
  | .word .dq false =>
    rw [shapeScan]
    dsimp only
    split_ifs <;> exact ⟨nofun, fun _ => nofun⟩
  | .word .out true => exact ⟨nofun, fun _ => nofun⟩
  | .word .dq true => exact ⟨nofun, fun _ => nofun⟩

theorem head?_output_ne_gtgt {q : Reading} (hq : q ≠ .gap true) (s : List Byte) :
    (shapeScan.output q s).head? ≠ some .gtgt := by
  induction s generalizing q with
  | nil => exact nofun
  | cons c s ih =>
    obtain ⟨hmark, hnone⟩ := step_ne_gtgt hq c
    rw [Transducer.output_cons]
    cases hm : (shapeScan.step q c).2 with
    | none => exact ih (hnone hm)
    | some k =>
      rw [hm] at hmark
      exact hmark

/-- A byte that goes on with a word. -/
theorem step_word (h : endsWord c = false) :
    shapeScan.step (.word .out false) c = (.word (nextQuote .out c) (decide (c = backslash)), none) :=
  outsideStep_word h

theorem step_gap (h : endsWord c = false) :
    shapeScan.step (.gap gt) c = (.word (nextQuote .out c) (decide (c = backslash)), some .word) :=
  outsideStep_word h

theorem step_sq (esc : Bool) : shapeScan.step (.word .sq esc) c =
    if c = squote then (if esc then .word .sq false else .word .out false, none)
    else (.word .sq (decide (c = backslash)), none) := rfl

theorem step_dq : shapeScan.step (.word .dq false) c =
    if c = dquote then (.word .out false, none) else (.word .dq (decide (c = backslash)), none) := rfl

theorem step_out_esc : shapeScan.step (.word .out true) c = (.word .out false, none) := rfl

theorem step_dq_esc : shapeScan.step (.word .dq true) c = (.word .dq false, none) := rfl

/-- On the rest of a word the machine writes nothing. -/
theorem output_word (m : Quote) (s : List Byte) :
    shapeScan.output (.word m false) s =
      shapeScan.output (.word .out false) (s.drop (wordLen m s)) := by
  fun_induction wordLen m s <;>
    simp_all [Transducer.output_cons, step_word, step_sq, step_dq, step_out_esc, step_dq_esc,
      nextQuote]

/-- The word that `gettoken` finds at the pointer. -/
theorem output_word_token (h : endsWord c = false) :
    shapeScan.output (.gap false) (c :: s) =
        .word :: shapeScan.output (.word .out false) ((c :: s).drop (wordLen .out (c :: s))) ∧
      shapeScan.output (.word .out false) (c :: s) =
        shapeScan.output (.word .out false) ((c :: s).drop (wordLen .out (c :: s))) := by
  have hword := output_word .out (c :: s)
  refine ⟨?_, hword⟩
  rw [← hword, Transducer.output_cons, Transducer.output_cons, step_gap h, step_word h]
  rfl

/-- An operator of one byte that is no `>`. -/
theorem output_operator {k : Kind} {q : Reading} (hq : q = .gap false ∨ q = .word .out false)
    (hw : strchr whitespace c = false) (h : operatorKind c = some k) (hk : k ≠ .gt) :
    shapeScan.output q (c :: s) = k :: shapeScan.output (.gap false) s := by
  rcases hq with rfl | rfl
  · rw [Transducer.output_cons]
    exact congrArg (fun r => r.2.toList ++ shapeScan.output r.1 s) (outsideStep_operator hw h hk)
  · rw [Transducer.output_cons]
    exact congrArg (fun r => r.2.toList ++ shapeScan.output r.1 s) (outsideStep_operator hw h hk)

/-- Right after a `>`, any other byte is read as if there had been a blank. -/
theorem output_after_gt (h : s.head? ≠ some 62) :
    shapeScan.output (.gap true) s = shapeScan.output (.gap false) s := by
  cases s with
  | nil => rfl
  | cons d s =>
    have hd : d ≠ 62 := fun hd => h (congrArg some hd)
    have hkind : operatorKind d ≠ some .gt := fun hk => hd ((operatorKind_some hk).2.2 rfl)
    have hstep : shapeScan.step (.gap true) d = shapeScan.step (.gap false) d := by
      show outsideStep true _ _ d = outsideStep false _ _ d
      rw [outsideStep, outsideStep]
      split
      · rfl
      · cases hk : operatorKind d with
        | none => rfl
        | some k => cases k <;> first | rfl | exact absurd hk hkind
    rw [Transducer.output_cons, Transducer.output_cons, hstep]

theorem output_gt {q : Reading} (hq : q = .gap false ∨ q = .word .out false) :
    shapeScan.output q (62 :: s) = .gt :: shapeScan.output (.gap true) s := by
  rcases hq with rfl | rfl <;> rfl

theorem output_gtgt : shapeScan.output (.gap true) (62 :: s) =
    .gtgt :: shapeScan.output (.gap false) s := rfl

end Steps

theorem joinGt_cons {k : Kind} {ks : List Kind} (h : k = .gt → ks.head? ≠ some .gtgt) :
    joinGt (k :: ks) = k :: joinGt ks := by
  rw [joinGt]
  rintro ks' rfl rfl
  exact h rfl rfl

theorem kind_of_tok {t : Token} {k : Tok} (h : t.tok = some k) : k.kind = t.ret := by
  rcases t with ⟨ret, q, eq, ps⟩
  cases ret <;> first | (obtain rfl := Option.some.inj h; rfl) | exact absurd h nofun

theorem shapeFrom_word (b : Bool) (w : Span) (ts : List Tok) :
    shapeFrom b (.word w :: ts) = if b then shapeFrom true ts else .word :: shapeFrom true ts := rfl

theorem shapeFrom_operator {t : Tok} (h : t.kind ≠ .word) (b : Bool) (ts : List Tok) :
    shapeFrom b (t :: ts) = t.kind :: shapeFrom false ts := by
  cases t <;> first | rfl | exact absurd rfl h

/-- The `switch` of `gettoken`, read off the operator of the first byte. -/
theorem tokenAt_switch {s : Cursor} {b : Byte} {l : List Byte} (hr : s.rest = b :: l) :
    tokenAt s =
      match operatorKind b with
      | none => (.word, wordLen .out (b :: l))
      | some .gt => if (s.advance 1).deref = 62 then (.gtgt, 2) else (.gt, 1)
      | some k => (k, 1) := by
  have hderef : s.deref = b := by rw [Cursor.deref, hr]; rfl
  by_cases hsym : strchr symbols b = true
  · rw [tokenAt, hderef]
    rcases (strchr_symbols b).1 hsym with rfl | rfl | rfl | rfl | rfl | rfl | rfl <;> rfl
  · have hop : operatorKind b = none := by
      rwa [strchr_symbols_eq, Bool.not_eq_true, Option.isSome_eq_false_iff,
        Option.isNone_iff_eq_none] at hsym
    rw [hop]
    rcases tokenAt_cases hr with ⟨-, hat⟩ | ⟨k, hk, -⟩ | ⟨rfl, -⟩
    · exact hat
    · exact absurd hk hsym
    · exact absurd (by decide) hsym

/-- The token at a pointer, by the first byte. -/
theorem tokenAt_cons {s : Cursor} {b : Byte} {l : List Byte} (hr : s.rest = b :: l) :
    (operatorKind b = none → tokenAt s = (.word, wordLen .out (b :: l))) ∧
      (∀ k, operatorKind b = some k → k ≠ .gt → tokenAt s = (k, 1)) ∧
      (operatorKind b = some .gt →
        b = 62 ∧ tokenAt s = if l.head? = some 62 then (.gtgt, 2) else (.gt, 1)) := by
  have hhead : ((s.advance 1).deref = 62) ↔ l.head? = some 62 := by
    rw [Cursor.deref, Cursor.advance_rest, hr, List.drop_one, List.tail_cons]
    cases l <;> simp
  have hat := tokenAt_switch hr
  refine ⟨fun hop => ?_, fun k hop hgt => ?_, fun hop => ?_⟩
  · rw [hat, hop]
  · rw [hat, hop]
    cases k <;> first | rfl | exact absurd rfl hgt
  · rw [hat, hop]
    exact ⟨(operatorKind_some hop).2.2 rfl, if_congr hhead rfl rfl⟩

section Step

variable {c : Cursor} {t : Tok} {q : Reading}

/-- Where `gettoken` finds a token, and what it leaves. -/
theorem rest_of_tok (ht : (gettoken c).tok = some t) :
    ∃ b l, c.skipSpace.rest = b :: l ∧ strchr whitespace b = false ∧
      t.kind = (tokenAt c.skipSpace).1 ∧
      (gettoken c).eq.rest = (b :: l).drop (tokenAt c.skipSpace).2 := by
  obtain ⟨b, l, hr⟩ : ∃ b l, c.skipSpace.rest = b :: l := by
    refine List.exists_cons_of_ne_nil fun hnil => ?_
    rw [← tokens_eq_nil_iff, tokens_eq, ht] at hnil
    exact absurd hnil nofun
  refine ⟨b, l, hr, Cursor.not_whitespace_of_skipSpace hr, kind_of_tok ht, ?_⟩
  rw [← hr]
  rfl

/-- A word token: the machine marks it unless it is in a word already. -/
theorem output_tok_word {w : Span} (ht : (gettoken c).tok = some (.word w)) :
    shapeScan.output (.gap false) c.rest =
        .word :: shapeScan.output (.word .out false) (gettoken c).eq.rest ∧
      shapeScan.output (.word .out false) c.rest =
        shapeScan.output (.word .out false) (gettoken c).eq.rest := by
  obtain ⟨b, l, hr, hw, hkind, heq⟩ := rest_of_tok ht
  obtain ⟨hword, hop, hgt⟩ := tokenAt_cons hr
  have hk : operatorKind b = none := by
    cases hk : operatorKind b with
    | none => rfl
    | some k =>
      by_cases hkgt : k = .gt
      · subst hkgt
        obtain ⟨-, hat⟩ := hgt hk
        rw [hat] at hkind
        split_ifs at hkind <;> exact absurd hkind nofun
      · rw [hop k hk hkgt] at hkind
        exact absurd (hk.trans (congrArg some hkind.symm)) (operatorKind_ne_word b)
  have hends : endsWord b = false := by
    rw [endsWord, hw, strchr_symbols_eq, hk]
    rfl
  rw [heq, hword hk, output_skipSpace (.inl rfl) c, output_skipSpace (.inr rfl) c, hr]
  exact output_word_token hends

/-- An operator token: the machine marks it, in two parts if it is a `>>`. -/
theorem output_tok_operator (ht : (gettoken c).tok = some t) (hne : t.kind ≠ .word)
    (hq : q = .gap false ∨ q = .word .out false) :
    joinGt (shapeScan.output q c.rest) =
      t.kind :: joinGt (shapeScan.output (.gap false) (gettoken c).eq.rest) := by
  obtain ⟨b, l, hr, hw, hkind, heq⟩ := rest_of_tok ht
  obtain ⟨hword, hop, hgt⟩ := tokenAt_cons hr
  rw [output_skipSpace hq, heq, hr]
  cases hk : operatorKind b with
  | none =>
    rw [hword hk] at hkind
    exact absurd hkind hne
  | some k =>
    by_cases hkgt : k = .gt
    · subst hkgt
      obtain ⟨rfl, hat⟩ := hgt hk
      rw [output_gt hq]
      by_cases hnext : l.head? = some 62
      · obtain ⟨l', rfl⟩ : ∃ l', l = 62 :: l' := by
          cases l with
          | nil => exact absurd hnext nofun
          | cons d l' => exact ⟨l', by rw [Option.some.inj hnext]⟩
        rw [hat, if_pos hnext] at hkind ⊢
        rw [output_gtgt, hkind, joinGt]
        rfl
      · rw [hat, if_neg hnext] at hkind ⊢
        have hhead := head?_output_ne_gtgt (q := .gap false) nofun l
        rw [output_after_gt hnext, joinGt_cons fun _ => hhead, hkind]
        rfl
    · rw [hop k hk hkgt] at hkind ⊢
      rw [output_operator hq hw hk hkgt, joinGt_cons fun h => absurd h hkgt, hkind]
      rfl

end Step

/-- **The tokens, byte by byte**: the marks of the machine are the operators of the token
sequence, and where there are words between them. -/
theorem shape_eq (c : Cursor) :
    joinGt (shapeScan.output (.gap false) c.rest) = shapeFrom false (tokens c) ∧
      joinGt (shapeScan.output (.word .out false) c.rest) = shapeFrom true (tokens c) := by
  induction c using tokens_induction with
  | nil c ht =>
    have htok : tokens c = [] := by rw [tokens_eq, ht]
    have hnil := (tokens_eq_nil_iff c).1 htok
    rw [output_skipSpace (.inl rfl), output_skipSpace (.inr rfl), hnil, htok]
    exact ⟨rfl, rfl⟩
  | cons c t ht ih =>
    have htok : tokens c = t :: tokens (gettoken c).ps := by rw [tokens_eq, ht]
    have hps : ∀ q, q = .gap false ∨ q = .word .out false →
        shapeScan.output q (gettoken c).ps.rest = shapeScan.output q (gettoken c).eq.rest :=
      fun q hq => (output_skipSpace hq (gettoken c).eq).symm
    rw [hps _ (.inl rfl), hps _ (.inr rfl)] at ih
    rw [htok]
    by_cases hkind : t.kind = .word
    · obtain ⟨w, rfl⟩ : ∃ w, t = .word w := by
        cases t <;> first | exact ⟨_, rfl⟩ | exact absurd hkind nofun
      obtain ⟨hgap, hin⟩ := output_tok_word ht
      rw [hgap, hin, joinGt_cons fun h => Kind.noConfusion h, shapeFrom_word, shapeFrom_word, ih.2]
      exact ⟨rfl, rfl⟩
    · rw [output_tok_operator ht hkind (.inl rfl), output_tok_operator ht hkind (.inr rfl),
        shapeFrom_operator hkind, shapeFrom_operator hkind, ih.1]
      exact ⟨rfl, rfl⟩

end Shell
end V6User
