import Mathlib.Algebra.GroupWithZero.Nat
import Mathlib.Algebra.Order.BigOperators.Group.List
import V6User.Shell.RunLine

/-!
# The words of a text without operators

`programs/sh/sh.c`: `gettoken`, `parsecmd` and `nulterminate` on a text of words.

A text of words that stand for themselves is cut into exactly these words
(`Spells`, `argvOf_spells`).  The other way round, nothing is lost of a text only where
each of its words stands for itself: unquoting a word takes away a byte that is not
whitespace unless the word has no quote and no backslash (`plain_of_countP`), so a text
that its unquoted words add up to is a text of plain words (`plain_of_argvOf`).
-/

namespace V6User
namespace Shell

/-- A byte of a word that stands for itself. -/
def plainByte (b : Byte) : Bool := !endsWord b && b != squote && b != dquote && b != backslash

/-- A word that stands for itself. -/
structure PlainWord (w : List Byte) : Prop where
  ne_nil : w ≠ []
  plain : ∀ b ∈ w, plainByte b = true

/-- The text is whitespace and plain words. -/
inductive Spells : List Byte → List (List Byte) → Prop
  | nil {s : List Byte} (h : ∀ b ∈ s, strchr whitespace b = true) : Spells s []
  | cons {g w t : List Byte} {ws : List (List Byte)} (hg : ∀ b ∈ g, strchr whitespace b = true)
    (hw : PlainWord w) (ht : EndsWord t) (h : Spells t ws) : Spells (g ++ w ++ t) (w :: ws)

/-- `argv` of the command that `parsecmd` makes of a text, where it is one simple
command. -/
def argvOf (s : CStr) : Option (List (List Byte)) :=
  match parsecmd s with
  | .cmd (.exec argv) buf => some (argv.map fun w => buf.cstr w.q)
  | _ => none

section Plain

variable {b : Byte} {w t : List Byte}

theorem plainByte_iff : plainByte b = true ↔
    endsWord b = false ∧ b ≠ squote ∧ b ≠ dquote ∧ b ≠ backslash := by
  simp only [plainByte, Bool.and_eq_true, Bool.not_eq_true', bne_iff_ne, ne_eq, and_assoc]

theorem dequote_plainByte (h : plainByte b = true) : dequote .out (b :: t) = b :: dequote .out t := by
  obtain ⟨-, hs, hd, hb⟩ := plainByte_iff.1 h
  rw [dequote.eq_def]
  simp only [hs, hd, hb, if_false]

theorem dequote_squote : dequote .out (squote :: t) = dequote .sq t := by
  rw [dequote.eq_def]
  simp

theorem dequote_dquote : dequote .out (dquote :: t) = dequote .dq t := by
  rw [dequote.eq_def]
  simp

theorem wordLen_plainByte (h : plainByte b = true) : wordLen .out (b :: t) = wordLen .out t + 1 := by
  obtain ⟨he, hs, hd, hb⟩ := plainByte_iff.1 h
  rw [wordLen.eq_def]
  simp only [he, hs, hd, hb, if_false, Bool.false_eq_true]

theorem wordLen_escape : wordLen .out (backslash :: b :: t) = wordLen .out t + 2 := rfl

theorem wordLen_squote : wordLen .out (squote :: t) = wordLen .sq t + 1 := by
  have he : endsWord squote = false := by decide
  rw [wordLen.eq_def]
  simp [he]

theorem wordLen_dquote : wordLen .out (dquote :: t) = wordLen .dq t + 1 := by
  have he : endsWord dquote = false := by decide
  rw [wordLen.eq_def]
  simp [he]

theorem dequote_plain (h : ∀ b ∈ w, plainByte b = true) : dequote .out w = w := by
  induction w with
  | nil => rfl
  | cons b w ih =>
    rw [dequote_plainByte (h b List.mem_cons_self), ih fun d hd => h d (List.mem_cons_of_mem b hd)]

theorem wordLen_of_endsWord (ht : EndsWord t) : wordLen .out t = 0 := by
  rcases ht with rfl | ⟨c, l, rfl, hc⟩
  · rfl
  · rw [wordLen.eq_def]
    simp only [hc, if_true]

theorem wordLen_plain (h : ∀ b ∈ w, plainByte b = true) (ht : EndsWord t) :
    wordLen .out (w ++ t) = w.length := by
  induction w with
  | nil => exact wordLen_of_endsWord ht
  | cons b w ih =>
    rw [List.cons_append, wordLen_plainByte (h b List.mem_cons_self),
      ih fun d hd => h d (List.mem_cons_of_mem b hd), List.length_cons]

/-- The word that `gettoken` finds after whitespace. -/
theorem gettoken_plain {c : Cursor} {g : List Byte} (hc : c.rest = g ++ w ++ t)
    (hg : ∀ b ∈ g, strchr whitespace b = true) (hw : PlainWord w) (ht : EndsWord t) :
    (gettoken c).tok = some (.word ⟨c.pos + g.length, c.pos + g.length + w.length⟩) ∧
      (gettoken c).eq = c.advance (g.length + w.length) := by
  obtain ⟨b, w', rfl⟩ := List.exists_cons_of_ne_nil hw.ne_nil
  obtain ⟨he, -⟩ := plainByte_iff.1 (hw.plain b List.mem_cons_self)
  obtain ⟨hblank, hsym⟩ := Bool.or_eq_false_iff.1 he
  have htake : (c.rest.takeWhile (strchr whitespace)).length = g.length := by
    rw [hc, List.append_assoc, List.takeWhile_append_of_pos hg, List.cons_append,
      List.takeWhile_cons_of_neg (by rw [hblank]; exact Bool.false_ne_true), List.append_nil]
  have hskip : c.skipSpace = c.advance g.length := by rw [Cursor.skipSpace, htake]
  have hrest : c.skipSpace.rest = b :: w' ++ t := by
    rw [hskip, Cursor.advance_rest, hc, List.append_assoc, List.drop_left]
  have hat : tokenAt c.skipSpace = (.word, (b :: w').length) := by
    have hb : b ≠ 0 := fun hb => c.skipSpace.nul_free (by
      rw [hrest, hb]
      exact List.mem_cons_self)
    have hderef : c.skipSpace.deref = b := by rw [Cursor.deref, hrest]; rfl
    rw [Bool.eq_false_iff, ne_eq, strchr_symbols] at hsym
    push Not at hsym
    rw [tokenAt, hderef, hrest, wordLen_plain hw.plain ht]
    simp only [hb, hsym, if_false]
  rw [hskip] at hat
  constructor
  · simp only [gettoken, hat, Token.tok, hskip, Cursor.advance_pos]
  · simp only [gettoken, hat, hskip, Cursor.advance_advance]

end Plain

theorem Spells.plainWord {s : List Byte} {ws : List (List Byte)} (h : Spells s ws) :
    ∀ w ∈ ws, PlainWord w := by
  induction h with
  | nil _ => exact nofun
  | cons _ hw _ _ ih => exact List.forall_mem_cons.2 ⟨hw, ih⟩

/-- Whitespace before a text changes none of its words. -/
theorem Spells.blank {g s : List Byte} {ws : List (List Byte)}
    (hg : ∀ b ∈ g, strchr whitespace b = true) (h : Spells s ws) : Spells (g ++ s) ws := by
  have happend : ∀ {l : List Byte}, (∀ b ∈ l, strchr whitespace b = true) →
      ∀ b ∈ g ++ l, strchr whitespace b = true :=
    fun hl b hb => (List.mem_append.1 hb).elim (hg b) (hl b)
  cases h with
  | nil hs => exact .nil (happend hs)
  | cons hg' hw ht h =>
    rw [← List.append_assoc, ← List.append_assoc]
    exact .cons (happend hg') hw ht h

/-- The tokens of a text of plain words. -/
theorem tokens_spells {text s : List Byte} {ws : List (List Byte)} (h : Spells s ws) (c : Cursor)
    (hc : c.rest = s) (htext : text.drop c.pos = s) :
    ∃ spans : List Span, tokens c = spans.map .word ∧ spans.map (·.slice text) = ws := by
  induction h generalizing c with
  | nil hs =>
    refine ⟨[], ?_, rfl⟩
    rw [List.map_nil, tokens_eq_nil_iff, Cursor.skipSpace_rest, hc, List.dropWhile_eq_nil_iff]
    exact hs
  | @cons g w t ws hg hw ht _ ih =>
    obtain ⟨htok, heq⟩ := gettoken_plain hc hg hw ht
    have hdrop : text.drop (c.pos + (g.length + w.length)) = t := by
      rw [← List.drop_drop, htext, ← List.length_append, List.drop_left]
    obtain ⟨spans, hspans, hslices⟩ := ih (c.advance (g.length + w.length))
      (by rw [Cursor.advance_rest, hc, ← List.length_append, List.drop_left]) hdrop
    refine ⟨⟨c.pos + g.length, c.pos + g.length + w.length⟩ :: spans, ?_, ?_⟩
    · rw [tokens_of_some htok, show (gettoken c).ps = (gettoken c).eq.skipSpace from rfl,
        tokens_skipSpace, heq, hspans, List.map_cons]
    · rw [List.map_cons, hslices, Span.slice, Nat.add_sub_cancel_left, ← List.drop_drop, htext,
        List.append_assoc, List.drop_left, List.take_left]

/-! ### The words in `argv` -/

/-- A text of words alone is one simple command. -/
theorem argvOf_of_words {s : CStr} {spans : List Span} (h : tokens s.cursor = spans.map .word)
    (hmax : spans.length < maxArgs) :
    argvOf s = some (spans.map fun w => dequote .out (w.slice s.bytes)) := by
  have hder : Derives (tokens s.cursor) := by
    refine ⟨.fin (.one (.exec [] (spans.map fun w => ⟨w, []⟩))) 0, ?_, ?_⟩
    · simpa only [Line.Fits, Pipe.Fits, Simple.Fits, List.length_map] using hmax
    · simp [Line.tokens, Pipe.tokens, Simple.tokens, argToks_map, redirToks, amps, h]
  obtain ⟨cmd, hcmd⟩ := (parseText_accepts _).2 hder
  obtain ⟨d, -, hd, rfl⟩ := parseText_tree hcmd
  have htree : d.tree = .exec spans := by
    have hwords : wordSpans d.tokens = spans := by
      rw [hd, h]
      exact wordSpans_map_word spans
    rw [← hwords]
    refine tree_of_words fun t ht => ?_
    rw [hd, h] at ht
    obtain ⟨w, -, rfl⟩ := List.mem_map.1 ht
    rfl
  rw [htree] at hcmd
  rw [argvOf, parsecmd_eq_cmd_iff.2 ⟨hcmd, rfl⟩]
  refine congrArg some (List.map_congr_left fun w hw => ?_)
  exact cstr_foldl_terminateWord hcmd (List.Perm.refl _) w hw

theorem wrapRedirs_eq_exec {rs : List Redir} {ws argv : List Span}
    (h : wrapRedirs rs (.exec ws) = .exec argv) : rs = [] ∧ ws = argv := by
  rcases List.eq_nil_or_concat rs with rfl | ⟨rs, r, rfl⟩
  · exact ⟨rfl, Cmd.exec.inj h⟩
  · rw [List.concat_eq_append, wrapRedirs_append, wrapRedirs_cons] at h
    cases hop : r.op <;> simp [hop, RedirOp.kind, redirFor, wrapRedirs] at h

/-- A text whose first token is a word and that is one simple command is a text of
words. -/
theorem words_of_argvOf {s : CStr} {argv : List (List Byte)} (h : argvOf s = some argv)
    {w : Span} {ts : List Tok} (hfirst : tokens s.cursor = .word w :: ts) :
    ∃ spans : List Span, tokens s.cursor = spans.map .word ∧ spans.length < maxArgs ∧
      argv = spans.map fun w => dequote .out (w.slice s.bytes) := by
  obtain ⟨words, buf, hcmd, rfl⟩ : ∃ words buf, parsecmd s = .cmd (.exec words) buf ∧
      argv = words.map fun w => buf.cstr w.q := by
    rw [argvOf] at h
    split at h
    · exact ⟨_, _, by assumption, (Option.some.inj h).symm⟩
    · cases h
  obtain ⟨hparse, rfl⟩ := parsecmd_eq_cmd_iff.1 hcmd
  obtain ⟨d, hfits, hd, htree⟩ := parseText_tree hparse
  rw [← hd] at hfirst
  obtain ⟨args, hlen, htoks, hredirs, rfl⟩ : ∃ args : List Arg, args.length < maxArgs ∧
      d.tokens = argToks args ∧ args.flatMap Arg.redirs = [] ∧ args.map Arg.word = words := by
    rcases d with ⟨p, k⟩ | ⟨p, k, l⟩ | ⟨p, k, l⟩
    · rcases k with _ | k
      · rcases p with s | ⟨s, p⟩
        · rcases s with ⟨l, rs⟩ | ⟨rs, args⟩
          · cases (List.cons.inj hfirst).1
          · obtain ⟨hall, hwords⟩ := wrapRedirs_eq_exec htree.symm
            obtain ⟨rfl, hargs⟩ := List.append_eq_nil_iff.1 hall
            refine ⟨args, hfits, ?_, hargs, hwords⟩
            simp [Line.tokens, Pipe.tokens, Simple.tokens, redirToks, amps]
        · cases htree
      · rw [Line.tree, ← back_backs] at htree
        cases htree
    · cases htree
    · cases htree
  have hmap : ∀ args : List Arg, args.flatMap Arg.redirs = [] →
      argToks args = (args.map Arg.word).map .word := by
    intro args
    induction args with
    | nil => exact fun _ => rfl
    | cons a args ih =>
      intro h
      obtain ⟨ha, hargs⟩ := List.append_eq_nil_iff.1 (List.flatMap_cons ▸ h)
      rw [argToks, ha, ih hargs]
      rfl
  refine ⟨args.map Arg.word, ?_, by rwa [List.length_map], ?_⟩
  · rw [← hd, htoks, hmap args hredirs]
  · exact List.map_congr_left fun w hw => cstr_foldl_terminateWord hparse (List.Perm.refl _) w hw

/-- **A text of at most 31 plain words** comes back as `argv`. -/
theorem argvOf_spells {s : CStr} {ws : List (List Byte)} (h : Spells s.bytes ws)
    (hmax : ws.length < maxArgs) : argvOf s = some ws := by
  obtain ⟨spans, htoks, hslices⟩ := @tokens_spells s.bytes s.bytes ws h s.cursor rfl rfl
  have hplain := h.plainWord
  have hlen : spans.length = ws.length := by rw [← hslices, List.length_map]
  rw [argvOf_of_words htoks (hlen ▸ hmax)]
  refine congrArg some (Eq.trans (List.map_congr_left fun w hw => ?_) hslices)
  exact dequote_plain (hplain _ (hslices ▸ List.mem_map_of_mem hw)).plain

/-! ### What unquoting takes away -/

/-- Not whitespace. -/
def solid (b : Byte) : Bool := !strchr whitespace b

section Count

variable {text s : List Byte}

/-- Unquoting takes bytes away. -/
theorem countP_dequote_le (m : Quote) (s : List Byte) :
    (dequote m s).countP solid ≤ s.countP solid := by
  fun_induction dequote m s <;> simp only [List.countP_cons, List.countP_nil] at * <;> omega

theorem solid_mark : solid squote = true ∧ solid dquote = true ∧ solid backslash = true := by decide

/-- From a word with a quote or a backslash it takes one that is no whitespace. -/
theorem plain_of_countP (s : List Byte) (hlast : s.getLast? ≠ some backslash)
    (h : (dequote .out (s.take (wordLen .out s))).countP solid =
      (s.take (wordLen .out s)).countP solid) :
    ∀ b ∈ s.take (wordLen .out s), plainByte b = true := by
  obtain ⟨hs, hd, hb⟩ := solid_mark
  induction s with
  | nil => exact fun b hb => absurd hb List.not_mem_nil
  | cons c s ih =>
    by_cases hend : endsWord c = true
    · rw [wordLen_of_endsWord (.inr ⟨c, s, rfl, hend⟩)]
      exact fun b hb => absurd hb List.not_mem_nil
    · by_cases hcb : c = backslash
      · subst hcb
        cases s with
        | nil => exact absurd rfl hlast
        | cons d s =>
          have hle := countP_dequote_le .out (s.take (wordLen .out s))
          rw [wordLen_escape] at h
          simp only [List.take_succ_cons, dequote, if_true, List.countP_cons, hb] at h
          omega
      · by_cases hcs : c = squote
        · subst hcs
          have hle := countP_dequote_le .sq (s.take (wordLen .sq s))
          rw [wordLen_squote, List.take_succ_cons, dequote_squote, List.countP_cons_of_pos hs] at h
          omega
        · by_cases hcd : c = dquote
          · subst hcd
            have hle := countP_dequote_le .dq (s.take (wordLen .dq s))
            rw [wordLen_dquote, List.take_succ_cons, dequote_dquote, List.countP_cons_of_pos hd] at h
            omega
          · have hc : plainByte c = true :=
              plainByte_iff.2 ⟨Bool.eq_false_iff.2 hend, hcs, hcd, hcb⟩
            rw [wordLen_plainByte hc, List.take_succ_cons] at h ⊢
            rw [dequote_plainByte hc, List.countP_cons, List.countP_cons, Nat.add_right_cancel_iff] at h
            have hlast' : s.getLast? ≠ some backslash := by
              cases s with
              | nil => simp
              | cons d s => rwa [List.getLast?_cons_cons] at hlast
            exact List.forall_mem_cons.2 ⟨hc, ih hlast' h⟩

theorem drop_advance {c : Cursor} (h : text.drop c.pos = c.rest) (k : ℕ) :
    text.drop (c.advance k).pos = (c.advance k).rest := by
  rw [Cursor.advance_pos, Cursor.advance_rest, ← List.drop_drop, h]

theorem countP_skipSpace (c : Cursor) : c.rest.countP solid = c.skipSpace.rest.countP solid := by
  have hblank : (c.rest.takeWhile (strchr whitespace)).countP solid = 0 := by
    refine List.countP_eq_zero.2 fun b hb => ?_
    rw [solid, List.mem_takeWhile_imp hb]
    exact Bool.false_ne_true
  rw [Cursor.skipSpace_rest]
  conv_lhs => rw [← List.takeWhile_append_dropWhile (p := strchr whitespace) (l := c.rest)]
  rw [List.countP_append, hblank, Nat.zero_add]

/-- A word token in the text. -/
theorem slice_of_tok {c : Cursor} {w : Span} (ht : (gettoken c).tok = some (.word w))
    (htext : text.drop c.pos = c.rest) :
    w.slice text = c.skipSpace.rest.take (wordLen .out c.skipSpace.rest) ∧
      (gettoken c).eq.rest = c.skipSpace.rest.drop (wordLen .out c.skipSpace.rest) ∧
      text.drop (gettoken c).ps.pos = (gettoken c).ps.rest := by
  obtain ⟨hret, rfl⟩ := span_of_tok (t := gettoken c) (w := w) (by rw [ht]; rfl)
  have hat : (tokenAt c.skipSpace).2 = wordLen .out c.skipSpace.rest := tokenAt_word hret
  have hq : text.drop c.skipSpace.pos = c.skipSpace.rest := drop_advance htext _
  have heq : (gettoken c).eq = c.skipSpace.advance (wordLen .out c.skipSpace.rest) := by
    rw [← hat]
    rfl
  refine ⟨?_, ?_, drop_advance (drop_advance hq _) _⟩
  · rw [Span.slice, heq, Cursor.advance_pos]
    show (text.drop c.skipSpace.pos).take _ = _
    rw [hq]
    exact congrArg (List.take · _) (Nat.add_sub_cancel_left ..)
  · rw [heq, Cursor.advance_rest]

/-- What is solid in a text of words is in its words, and each of these is what the word
loop takes of a part of the text. -/
theorem countP_words (c : Cursor) (hwords : ∀ t ∈ tokens c, t.span?.isSome)
    (htext : text.drop c.pos = c.rest) :
    c.rest.countP solid =
        ((wordSpans (tokens c)).map fun w => (w.slice text).countP solid).sum ∧
      ∀ w ∈ wordSpans (tokens c), ∃ r, r <:+ c.rest ∧ w.slice text = r.take (wordLen .out r) := by
  induction c using tokens_induction with
  | nil c ht =>
    have hnil : c.skipSpace.rest = [] := by
      rw [← tokens_eq_nil_iff, tokens_of_none ht]
    rw [tokens_of_none ht, countP_skipSpace, hnil]
    exact ⟨rfl, nofun⟩
  | cons c t ht ih =>
    rw [tokens_of_some ht] at hwords ⊢
    obtain ⟨w, rfl⟩ : ∃ w, t = .word w := by
      have hspan := hwords t List.mem_cons_self
      cases t <;> first | exact ⟨_, rfl⟩ | exact absurd hspan Bool.false_ne_true
    obtain ⟨hslice, heq, hps⟩ := slice_of_tok ht htext
    obtain ⟨hsum, hall⟩ := ih (fun u hu => hwords u (List.mem_cons_of_mem _ hu)) hps
    have hspans : wordSpans (.word w :: tokens (gettoken c).ps) =
        w :: wordSpans (tokens (gettoken c).ps) := rfl
    have heqps : (gettoken c).eq.rest.countP solid = (gettoken c).ps.rest.countP solid :=
      countP_skipSpace _
    rw [hspans]
    constructor
    · rw [List.map_cons, List.sum_cons, ← hsum, hslice, ← heqps, heq, ← List.countP_append,
        List.take_append_drop]
      exact countP_skipSpace c
    · refine List.forall_mem_cons.2 ⟨⟨_, c.skipSpace_rest_suffix, hslice⟩, fun v hv => ?_⟩
      obtain ⟨r, hr, hv⟩ := hall v hv
      exact ⟨r, hr.trans (gettoken_rest_suffix c), hv⟩

/-- The count of a text of words with blanks between them. -/
theorem countP_intercalate (ws : List (List Byte)) :
    ([space].intercalate ws).countP solid = (ws.map (List.countP solid)).sum := by
  induction ws with
  | nil => rfl
  | cons w ws ih =>
    cases ws with
    | nil => rw [List.intercalate_singleton]; simp
    | cons v ws =>
      have hspace : [space].countP solid = 0 := by decide
      rw [List.intercalate_cons_cons, List.countP_append, List.countP_append, ih, hspace]
      simp only [List.map_cons, List.sum_cons]
      omega

theorem eq_of_sum_eq {ι : Type} {l : List ι} {f g : ι → ℕ} (hle : ∀ i ∈ l, f i ≤ g i)
    (h : (l.map f).sum = (l.map g).sum) : ∀ i ∈ l, f i = g i := by
  induction l with
  | nil => exact nofun
  | cons i l ih =>
    obtain ⟨hi, hl⟩ := List.forall_mem_cons.1 hle
    have hsum := List.sum_le_sum hl
    rw [List.map_cons, List.map_cons, List.sum_cons, List.sum_cons] at h
    exact List.forall_mem_cons.2 ⟨by omega, ih hl (by omega)⟩

/-- **Nothing is lost of plain words only.**  Where the words of a text that does not end
in a backslash have, without their quotes, all that is solid in the text, they are plain
words. -/
theorem plain_of_words {s : CStr} (hwords : ∀ t ∈ tokens s.cursor, t.span?.isSome)
    (hlast : s.bytes.getLast? ≠ some backslash)
    (hcount : ((wordSpans (tokens s.cursor)).map fun w =>
      (dequote .out (w.slice s.bytes)).countP solid).sum = s.bytes.countP solid) :
    ∀ w ∈ wordSpans (tokens s.cursor), PlainWord (dequote .out (w.slice s.bytes)) := by
  obtain ⟨hsum, hall⟩ := @countP_words s.bytes s.cursor hwords rfl
  have heq := eq_of_sum_eq (fun w _ => countP_dequote_le .out (w.slice s.bytes))
    (hcount.trans hsum)
  intro w hw
  obtain ⟨r, hr, hslice⟩ := hall w hw
  have hplain : ∀ b ∈ w.slice s.bytes, plainByte b = true := by
    have hrlast : r.getLast? ≠ some backslash := by
      intro hback
      obtain ⟨p, hp⟩ := hr
      have hbytes : s.bytes = p ++ r := hp.symm
      rw [hbytes, List.getLast?_append, hback, Option.some_or] at hlast
      exact hlast rfl
    have hcountw : (dequote .out (w.slice s.bytes)).countP solid =
        (w.slice s.bytes).countP solid := heq w hw
    rw [hslice] at hcountw ⊢
    exact plain_of_countP r hrlast hcountw
  rw [dequote_plain hplain]
  refine ⟨fun hnil => ?_, hplain⟩
  obtain ⟨-, hlt, hle⟩ := wordSpans_bounds s.cursor w hw
  have hlen := congrArg List.length hnil
  have hbound : w.eq ≤ s.bytes.length := (Nat.zero_add s.bytes.length) ▸ hle
  rw [Span.slice, List.length_take, List.length_drop, List.length_nil] at hlen
  omega

/-- The same for a text that is one command. -/
theorem plain_of_argvOf {s : CStr} {argv : List (List Byte)} (h : argvOf s = some argv)
    {w : Span} {ts : List Tok} (hfirst : tokens s.cursor = .word w :: ts)
    (hlast : s.bytes.getLast? ≠ some backslash)
    (hcount : ([space].intercalate argv).countP solid = s.bytes.countP solid) :
    argv.length < maxArgs ∧ ∀ a ∈ argv, PlainWord a := by
  obtain ⟨spans, htoks, hmax, rfl⟩ := words_of_argvOf h hfirst
  have hwords : ∀ t ∈ tokens s.cursor, t.span?.isSome := by
    intro t ht
    rw [htoks] at ht
    obtain ⟨w, -, rfl⟩ := List.mem_map.1 ht
    rfl
  have hspans : wordSpans (tokens s.cursor) = spans := by
    rw [htoks]
    exact wordSpans_map_word spans
  rw [countP_intercalate, List.map_map] at hcount
  refine ⟨by rwa [List.length_map], fun a ha => ?_⟩
  obtain ⟨w, hw, rfl⟩ := List.mem_map.1 ha
  exact plain_of_words hwords hlast (by rw [hspans]; exact hcount) w (hspans ▸ hw)

end Count

end Shell
end V6User
