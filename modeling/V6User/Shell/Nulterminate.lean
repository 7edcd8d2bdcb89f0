import V6User.Base.Segment
import V6User.Shell.Quoting
import V6User.Shell.Complete

/-!
# Terminating and unquoting words in place

`programs/sh/sh.c`: `dequote`, `nulterminate` and the end of `parsecmd`.

The words of a command tree are spans of the buffer that holds the text.
`nulterminate` walks the tree and, word by word, stores a NUL at the end of the
span and removes the quotes of what is then a string, in the same buffer.  A
word's update stays inside its span and the byte after it (`terminateWord_eq`),
and those are pairwise disjoint over the words of an accepted text
(`spans_disjoint`), so each string is what `dequote` makes of the word, in
whatever order the tree is walked.
-/

namespace V6User
namespace Shell

/-- The memory that holds the text, its terminating NUL included. -/
abbrev Buffer := List Byte

/-- The buffer of a string. -/
def CStr.buffer (s : CStr) : Buffer := s.bytes ++ [0]

/-- `*p` for a pointer into the buffer. -/
def Buffer.load (b : Buffer) (p : ℕ) : Byte := b.getD p 0

/-- `*p = c`. -/
def Buffer.store (b : Buffer) (p : ℕ) (c : Byte) : Buffer := b.set p c

/-- The string at a pointer: the bytes up to the next NUL. -/
def Buffer.cstr (b : Buffer) (p : ℕ) : List Byte := (b.drop p).takeWhile (· != 0)

theorem lt_of_load_ne {b : Buffer} {p : ℕ} (h : b.load p ≠ 0) : p < b.length := by
  by_contra hp
  exact h (by rw [Buffer.load, List.getD_eq_getElem?_getD, List.getElem?_eq_none (by omega)]; rfl)

@[simp] theorem length_store (b : Buffer) (p : ℕ) (c : Byte) : (b.store p c).length = b.length :=
  List.length_set

/-- The loops of `dequote(s)` in the buffer `b`: `m` says which of them runs,
and `dst` and `s` are the two pointers. -/
def dequoteAt (b : Buffer) (m : Quote) (dst s : ℕ) : Buffer :=
  if b.load s = 0 then b.store dst 0
  else match m with
    | .out =>
      if b.load s = backslash ∧ b.load (s + 1) ≠ 0 then
        dequoteAt (b.store dst (b.load (s + 1))) .out (dst + 1) (s + 2)
      else if b.load s = squote then dequoteAt b .sq dst (s + 1)
      else if b.load s = dquote then dequoteAt b .dq dst (s + 1)
      else dequoteAt (b.store dst (b.load s)) .out (dst + 1) (s + 1)
    | .sq =>
      if b.load s = squote then dequoteAt b .out dst (s + 1)
      else if b.load s = backslash ∧ b.load (s + 1) = squote then
        dequoteAt (b.store dst (b.load (s + 1))) .sq (dst + 1) (s + 2)
      else if b.load s = backslash ∧ b.load (s + 1) = backslash then
        dequoteAt (b.store dst (b.load (s + 1))) .sq (dst + 1) (s + 2)
      else dequoteAt (b.store dst (b.load s)) .sq (dst + 1) (s + 1)
    | .dq =>
      if b.load s = dquote then dequoteAt b .out dst (s + 1)
      else if b.load s = backslash ∧ b.load (s + 1) = dquote then
        dequoteAt (b.store dst (b.load (s + 1))) .dq (dst + 1) (s + 2)
      else if b.load s = backslash ∧ b.load (s + 1) = backslash then
        dequoteAt (b.store dst (b.load (s + 1))) .dq (dst + 1) (s + 2)
      else dequoteAt (b.store dst (b.load s)) .dq (dst + 1) (s + 1)
termination_by b.length - s
decreasing_by
  all_goals
    have := lt_of_load_ne ‹¬b.load s = 0›
    try rw [length_store]
    omega

/-- `*eargv[i] = 0; dequote(argv[i])`, and the same for a file name. -/
def terminateWord (b : Buffer) (w : Span) : Buffer := dequoteAt (b.store w.eq 0) .out w.q w.q

/-- `nulterminate(cmd)` on the buffer its words lie in. -/
def nulterminate : Cmd Span → Buffer → Buffer
  | .exec argv, b => argv.foldl terminateWord b
  | .redir cmd file _ _, b => terminateWord (nulterminate cmd b) file
  | .pipe left right, b => nulterminate right (nulterminate left b)
  | .list left right, b => nulterminate right (nulterminate left b)
  | .back cmd, b => nulterminate cmd b

/-- What `parsecmd` comes to: a command tree and the buffer its words point
into, or why there is none. -/
inductive Outcome where
  | cmd (cmd : Cmd Span) (buf : Buffer)
  | syntaxError (near : List Byte)
  | stopped (why : Stop)
  deriving DecidableEq, Repr

/-- `parsecmd(s)`. -/
def parsecmd (s : CStr) : Outcome :=
  match parseText s with
  | .tree cmd => .cmd cmd (nulterminate cmd s.buffer)
  | .syntaxError near => .syntaxError near
  | .stopped why => .stopped why

theorem parsecmd_eq_cmd_iff {s : CStr} {cmd : Cmd Span} {buf : Buffer} :
    parsecmd s = .cmd cmd buf ↔ parseText s = .tree cmd ∧ buf = nulterminate cmd s.buffer := by
  unfold parsecmd
  cases parseText s <;> simp only [Outcome.cmd.injEq, Parsed.tree.injEq, reduceCtorEq, false_and]
  constructor
  · rintro ⟨rfl, rfl⟩; exact ⟨rfl, rfl⟩
  · rintro ⟨rfl, rfl⟩; exact ⟨rfl, rfl⟩

/-- The same tree with other words. -/
def Cmd.map {ω ω' : Type} (f : ω → ω') : Cmd ω → Cmd ω'
  | .exec argv => .exec (argv.map f)
  | .redir cmd file mode fd => .redir (cmd.map f) (f file) mode fd
  | .pipe left right => .pipe (left.map f) (right.map f)
  | .list left right => .list (left.map f) (right.map f)
  | .back cmd => .back (cmd.map f)

/-- The tree with the strings its words point to. -/
def Cmd.strings (cmd : Cmd Span) (b : Buffer) : Cmd (List Byte) := cmd.map fun w => b.cstr w.q

/-- The bytes of the text a span delimits. -/
def Span.slice (w : Span) (text : List Byte) : List Byte := (text.drop w.q).take (w.eq - w.q)

/-- The words of a tree in the order of `nulterminate`. -/
def Cmd.spans : Cmd Span → List Span
  | .exec argv => argv
  | .redir cmd file _ _ => cmd.spans ++ [file]
  | .pipe left right => left.spans ++ right.spans
  | .list left right => left.spans ++ right.spans
  | .back cmd => cmd.spans

/-! ### One word -/

/-- The bytes `ws` in place of those at `p`. -/
def patch (b : Buffer) (p : ℕ) (ws : List Byte) : Buffer := b.take p ++ ws ++ b.drop (p + ws.length)

theorem patch_cons {b : Buffer} {p : ℕ} {c : Byte} {ws : List Byte} (hp : p < b.length) :
    patch (b.store p c) (p + 1) ws = patch b p (c :: ws) := by
  rw [patch, patch, Buffer.store, List.drop_set_of_lt (by omega), List.take_set, List.take_add_one,
    List.getElem?_eq_getElem hp]
  rw [List.set_append_right _ _ (by rw [List.length_take]; omega)]
  simp [Nat.add_comm, Nat.add_left_comm, Nat.min_eq_left hp.le]

theorem load_of_drop {b : Buffer} {p : ℕ} {c : Byte} {l : List Byte} (h : b.drop p = c :: l) :
    b.load p = c := by
  rw [Buffer.load, List.getD_eq_getElem?_getD, ← List.head?_drop, h]
  rfl

theorem drop_store {b : Buffer} {p k : ℕ} {c : Byte} {l : List Byte} (h : b.drop k = l)
    (hp : p < k) : (b.store p c).drop k = l := by
  rw [Buffer.store, List.drop_set_of_lt hp, h]

theorem drop_add {b : Buffer} {k : ℕ} {c : Byte} {l : List Byte} (h : b.drop k = c :: l) :
    b.drop (k + 1) = l := by
  rw [← List.drop_drop, h]
  rfl


theorem length_dequote_le (m : Quote) (w : List Byte) : (dequote m w).length ≤ w.length := by
  fun_induction dequote m w <;> simp only [List.length_cons, List.length_nil] at * <;> omega

theorem patch_nil {b : Buffer} {p : ℕ} {c : Byte} (hp : p < b.length) :
    b.store p c = patch b p [c] := by
  rw [← patch_cons hp, patch, List.append_nil, List.length_nil, Nat.add_zero, List.take_append_drop]

/-- What the loops of `dequote` do from `s` on, for the word `w` that is there
and the loop `m`, whatever the rest of the buffer holds. -/
def Unquotes (m : Quote) (w : List Byte) : Prop :=
  ∀ (b : Buffer) (dst s : ℕ) (tl : List Byte), b.drop s = w ++ 0 :: tl → dst ≤ s →
    dequoteAt b m dst s = patch b dst (dequote m w ++ [0])

theorem lt_of_drop {b : Buffer} {p : ℕ} {c : Byte} {l : List Byte} (h : b.drop p = c :: l) :
    p < b.length := by
  by_contra hp
  rw [List.drop_of_length_le (by omega)] at h
  cases h

/-- At the NUL every loop ends. -/
theorem unquotes_nil (m : Quote) : Unquotes m [] := by
  intro b dst s tl hb hdst
  have hs : b.load s = 0 := load_of_drop hb
  have hlt := lt_of_drop hb
  rw [show dequote m [] = [] by cases m <;> rfl, List.nil_append, ← patch_nil (by omega)]
  cases m <;> rw [dequoteAt, if_pos hs]

/-- Going on after a byte that is not copied. -/
theorem Unquotes.skip {m m' : Quote} {c : Byte} {w : List Byte} (h : Unquotes m' w)
    (hd : dequote m (c :: w) = dequote m' w)
    (hs : ∀ (b : Buffer) (dst s : ℕ), b.load s = c → dequoteAt b m dst s = dequoteAt b m' dst (s + 1)) :
    Unquotes m (c :: w) := by
  intro b dst s tl hb hdst
  rw [hs b dst s (load_of_drop hb), h b dst (s + 1) tl (drop_add hb) (by omega), hd]

/-- Going on after a byte that is copied. -/
theorem Unquotes.copy {m : Quote} {c : Byte} {w : List Byte} (h : Unquotes m w)
    (hd : dequote m (c :: w) = c :: dequote m w)
    (hs : ∀ (b : Buffer) (dst s : ℕ), b.load s = c → b.load (s + 1) = w.headD 0 →
      dequoteAt b m dst s = dequoteAt (b.store dst c) m (dst + 1) (s + 1)) :
    Unquotes m (c :: w) := by
  intro b dst s tl hb hdst
  have hlt := lt_of_drop hb
  have hnext : b.load (s + 1) = w.headD 0 := by
    cases w with
    | nil => exact load_of_drop (drop_add hb)
    | cons d w => exact load_of_drop (drop_add hb)
  rw [hs b dst s (load_of_drop hb) hnext,
    h _ _ _ tl (drop_store (drop_add hb) (by omega)) (by omega), patch_cons (by omega), hd]
  rfl

/-- Going on after a backslash and the byte it escapes. -/
theorem Unquotes.escape {m : Quote} {d : Byte} {w : List Byte} (h : Unquotes m w)
    (hd : dequote m (backslash :: d :: w) = d :: dequote m w)
    (hs : ∀ (b : Buffer) (dst s : ℕ), b.load s = backslash → b.load (s + 1) = d →
      dequoteAt b m dst s = dequoteAt (b.store dst d) m (dst + 1) (s + 2)) :
    Unquotes m (backslash :: d :: w) := by
  intro b dst s tl hb hdst
  have hlt := lt_of_drop hb
  rw [hs b dst s (load_of_drop hb) (load_of_drop (drop_add hb)),
    h _ _ _ tl (drop_store (drop_add (drop_add hb)) (by omega)) (by omega),
    patch_cons (by omega), hd]
  rfl

@[simp] theorem quoteBytes_ne_zero : backslash ≠ 0 ∧ squote ≠ 0 ∧ dquote ≠ 0 ∧ 0 ≠ backslash ∧
    0 ≠ squote ∧ 0 ≠ dquote := by decide

theorem head_ne_zero {c : Byte} {w : List Byte} (h : (0 : Byte) ∉ c :: w) : c ≠ 0 :=
  fun hc => h (hc ▸ List.mem_cons_self)

theorem nul_of_cons {c : Byte} {w : List Byte} (h : (0 : Byte) ∉ c :: w) : (0 : Byte) ∉ w :=
  fun hw => h (List.mem_cons_of_mem _ hw)

/-- **The loops of `dequote` in the buffer** write what the pure `dequote` gives
for the word at `s`, and a NUL, from `dst` on. -/
theorem dequoteAt_eq (m : Quote) (w : List Byte) (hw : (0 : Byte) ∉ w) : Unquotes m w := by
  fun_induction dequote m w with
  | case1 m => exact unquotes_nil m
  | case2 =>
    refine (unquotes_nil .out).copy rfl fun b dst s hs hn => ?_
    rw [dequoteAt.eq_def b _ dst s]
    simp [hs, hn]
  | case3 d w ih =>
    have hd : d ≠ 0 := head_ne_zero (nul_of_cons hw)
    refine (ih (nul_of_cons (nul_of_cons hw))).escape (by simp [dequote]) fun b dst s hs hn => ?_
    rw [dequoteAt.eq_def b _ dst s]
    simp [hs, hn, hd]
  | case4 w _ ih =>
    refine (ih (nul_of_cons hw)).skip (by rw [dequote.eq_def]; simp) fun b dst s hs => ?_
    rw [dequoteAt.eq_def b _ dst s]
    simp [hs]
  | case5 w _ _ ih =>
    refine (ih (nul_of_cons hw)).skip (by rw [dequote.eq_def]; simp) fun b dst s hs => ?_
    rw [dequoteAt.eq_def b _ dst s]
    simp [hs]
  | case6 c w h₁ h₂ h₃ ih =>
    have hc : c ≠ 0 := head_ne_zero hw
    refine (ih (nul_of_cons hw)).copy (by rw [dequote.eq_def]; simp [h₁, h₂, h₃]) fun b dst s hs _ => ?_
    rw [dequoteAt.eq_def b _ dst s]
    simp [hs, hc, h₁, h₂, h₃]
  | case7 w ih =>
    refine (ih (nul_of_cons hw)).skip (by rw [dequote.eq_def]; simp) fun b dst s hs => ?_
    rw [dequoteAt.eq_def b _ dst s]
    simp [hs]
  | case8 =>
    refine (unquotes_nil .sq).copy rfl fun b dst s hs hn => ?_
    rw [dequoteAt.eq_def b _ dst s]
    simp [hs, hn]
  | case9 d w h _ ih =>
    refine (ih (nul_of_cons (nul_of_cons hw))).escape (by simp [dequote, h]) fun b dst s hs hn => ?_
    rw [dequoteAt.eq_def b _ dst s]
    rcases h with rfl | rfl <;> simp [hs, hn]
  | case10 d w h _ ih =>
    obtain ⟨h₁, h₂⟩ := not_or.1 h
    refine (ih (nul_of_cons hw)).copy (by simp [dequote, h]) fun b dst s hs hn => ?_
    rw [dequoteAt.eq_def b _ dst s]
    simp [hs, hn, h₁, h₂]
  | case11 c w h₁ h₂ ih =>
    have hc : c ≠ 0 := head_ne_zero hw
    refine (ih (nul_of_cons hw)).copy (by rw [dequote.eq_def]; simp [h₁, h₂]) fun b dst s hs _ => ?_
    rw [dequoteAt.eq_def b _ dst s]
    simp [hs, hc, h₁, h₂]
  | case12 w ih =>
    refine (ih (nul_of_cons hw)).skip (by rw [dequote.eq_def]; simp) fun b dst s hs => ?_
    rw [dequoteAt.eq_def b _ dst s]
    simp [hs]
  | case13 =>
    refine (unquotes_nil .dq).copy rfl fun b dst s hs hn => ?_
    rw [dequoteAt.eq_def b _ dst s]
    simp [hs, hn]
  | case14 d w h _ ih =>
    refine (ih (nul_of_cons (nul_of_cons hw))).escape (by simp [dequote, h]) fun b dst s hs hn => ?_
    rw [dequoteAt.eq_def b _ dst s]
    rcases h with rfl | rfl <;> simp [hs, hn]
  | case15 d w h _ ih =>
    obtain ⟨h₁, h₂⟩ := not_or.1 h
    refine (ih (nul_of_cons hw)).copy (by simp [dequote, h]) fun b dst s hs hn => ?_
    rw [dequoteAt.eq_def b _ dst s]
    simp [hs, hn, h₁, h₂]
  | case16 c w h₁ h₂ ih =>
    have hc : c ≠ 0 := head_ne_zero hw
    refine (ih (nul_of_cons hw)).copy (by rw [dequote.eq_def]; simp [h₁, h₂]) fun b dst s hs _ => ?_
    rw [dequoteAt.eq_def b _ dst s]
    simp [hs, hc, h₁, h₂]

/-! ### A word's own bytes -/

/-- The bytes that terminating and unquoting a word may touch: its span and the
byte after it. -/
@[simps] def Span.seg (w : Span) : Seg where
  lo := w.q
  len := w.eq - w.q + 1

/-- What terminating and unquoting a word makes of those bytes: the unquoted
word, a NUL, and behind it what the shrinking left over. -/
def unquoted (l : List Byte) : List Byte :=
  let w := dequote .out (l.dropLast.takeWhile (· != 0)) ++ [0]
  w ++ (l.dropLast ++ [0]).drop w.length

theorem length_unquoted_head_le (l : List Byte) :
    (dequote .out (l.dropLast.takeWhile (· != 0)) ++ [0]).length ≤ l.dropLast.length + 1 := by
  rw [List.length_append, List.length_singleton]
  exact Nat.succ_le_succ
    ((length_dequote_le _ _).trans (List.takeWhile_prefix _).length_le)

theorem keeps_unquoted (w : Span) : Seg.Keeps w.seg.len unquoted := by
  intro l hl
  have hle := length_unquoted_head_le l
  have hlen : l.dropLast.length = w.eq - w.q := by
    rw [List.length_dropLast, hl, Span.seg_len, Nat.add_sub_cancel]
  simp only [unquoted, List.length_append, List.length_drop, List.length_singleton, hlen,
    Span.seg_len] at hle ⊢
  omega

/-- A string ends at the first NUL. -/
theorem exists_tail (l y : List Byte) :
    ∃ tl, l ++ 0 :: y = l.takeWhile (· != 0) ++ 0 :: tl := by
  induction l with
  | nil => exact ⟨y, rfl⟩
  | cons c l ih =>
    by_cases hc : c = 0
    · exact ⟨l ++ 0 :: y, by simp [hc]⟩
    · obtain ⟨tl, htl⟩ := ih
      exact ⟨tl, by simp [hc, htl]⟩

theorem nul_notMem_takeWhile (l : List Byte) : (0 : Byte) ∉ l.takeWhile (· != 0) := by
  intro h
  simpa using List.mem_takeWhile_imp h

theorem dropLast_read {b : Buffer} {w : Span} (hq : w.q ≤ w.eq) (heq : w.eq < b.length) :
    (w.seg.read b).dropLast = w.slice b := by
  simp only [Seg.read, Span.slice, Span.seg_len, Span.seg_lo, List.dropLast_eq_take,
    List.length_take, List.length_drop, List.take_take]
  congr 1
  omega

/-- **Terminating and unquoting a word** rewrites its own bytes and looks at
nothing else. -/
theorem terminateWord_eq {b : Buffer} {w : Span} (hq : w.q ≤ w.eq) (heq : w.eq < b.length) :
    terminateWord b w = w.seg.modify unquoted b := by
  have hdrop : (b.store w.eq 0).drop w.q = w.slice b ++ 0 :: b.drop (w.eq + 1) := by
    rw [Buffer.store, List.drop_set, if_neg (by omega), List.set_eq_take_append_cons_drop,
      if_pos (by rw [List.length_drop]; omega), List.drop_drop, Span.slice]
    congr 3
    omega
  have htake : (b.store w.eq 0).take w.q = b.take w.q := by
    rw [Buffer.store, List.take_set_of_le hq]
  have hle := length_unquoted_head_le (w.seg.read b)
  rw [dropLast_read hq heq] at hle
  obtain ⟨tl, htl⟩ := exists_tail (w.slice b) (b.drop (w.eq + 1))
  rw [terminateWord, dequoteAt_eq .out _ (nul_notMem_takeWhile (w.slice b)) _ _ _ tl
    (hdrop.trans htl) le_rfl, patch, htake, ← List.drop_drop, hdrop, Seg.modify, unquoted,
    dropLast_read hq heq]
  simp only [Span.seg_lo, Span.seg_len, List.append_assoc]
  rw [List.append_cancel_left_eq, List.append_cancel_left_eq, List.append_cancel_left_eq,
    List.append_cons (w.slice b), List.drop_append_of_le_length (by simpa using hle)]
  congr 2
  omega

/-! ### The words of a tree -/

theorem nulterminate_eq (cmd : Cmd Span) (b : Buffer) :
    nulterminate cmd b = cmd.spans.foldl terminateWord b := by
  induction cmd generalizing b with
  | exec argv => rfl
  | redir cmd file mode fd ih => simp [nulterminate, Cmd.spans, ih]
  | pipe left right ihl ihr => simp [nulterminate, Cmd.spans, ihl, ihr]
  | list left right ihl ihr => simp [nulterminate, Cmd.spans, ihl, ihr]
  | back cmd ih => exact ih b

@[simp] theorem wordSpans_append (ts us : List Tok) :
    wordSpans (ts ++ us) = wordSpans ts ++ wordSpans us :=
  List.filterMap_append

@[simp] theorem wordSpans_cons (t : Tok) (ts : List Tok) :
    wordSpans (t :: ts) = t.span?.toList ++ wordSpans ts := by
  cases h : t.span? <;> simp [wordSpans, h]

@[simp] theorem wordSpans_amps (k : ℕ) : wordSpans (amps k) = [] := by
  simp [wordSpans, amps, Tok.span?]

theorem wordSpans_redirToks (rs : List Redir) : wordSpans (redirToks rs) = rs.map Redir.file := by
  induction rs with
  | nil => rfl
  | cons r rs ih => cases hop : r.op <;> simp [redirToks, RedirOp.tok, Tok.span?, ih, hop]

theorem wordSpans_argToks (args : List Arg) :
    (args.map Arg.word ++ (args.flatMap Arg.redirs).map Redir.file).Perm
      (wordSpans (argToks args)) := by
  induction args with
  | nil => rfl
  | cons a args ih =>
    simp only [List.map_cons, List.flatMap_cons, List.map_append, argToks, List.cons_append,
      wordSpans_cons, wordSpans_append, wordSpans_redirToks, Tok.span?, Option.toList_some,
      List.nil_append]
    refine List.Perm.cons _ ?_
    -- the redirections after the first word move before the other words
    exact (List.perm_append_comm_assoc _ _ _).trans (ih.append_left _)

theorem spans_wrapRedirs (rs : List Redir) (c : Cmd Span) :
    (wrapRedirs rs c).spans = c.spans ++ rs.map Redir.file := by
  induction rs generalizing c with
  | nil => simp [wrapRedirs]
  | cons r rs ih =>
    have hr : (redirFor r.op.kind c r.file).spans = c.spans ++ [r.file] := by
      cases r.op <;> rfl
    rw [wrapRedirs_cons, ih, hr]
    simp

theorem spans_backs (k : ℕ) (c : Cmd Span) : (backs k c).spans = c.spans := by
  induction k generalizing c with
  | zero => rfl
  | succ k ih => exact ih _

mutual

theorem Simple.spans_tree : ∀ s : Simple, s.tree.spans.Perm (wordSpans s.tokens)
  | .block l rs => by
      simp only [Simple.tree, spans_wrapRedirs, Simple.tokens, wordSpans_cons, wordSpans_append,
        wordSpans_redirToks, Tok.span?, Option.toList_none, List.nil_append, List.cons_append]
      exact (Line.spans_tree l).append_right _
  | .exec rs args => by
      simp only [Simple.tree, spans_wrapRedirs, Simple.tokens, Cmd.spans, allRedirs,
        List.map_append, wordSpans_append, wordSpans_redirToks]
      exact (List.perm_append_comm_assoc _ _ _).trans ((wordSpans_argToks args).append_left _)

theorem Pipe.spans_tree : ∀ p : Pipe, p.tree.spans.Perm (wordSpans p.tokens)
  | .one s => Simple.spans_tree s
  | .more s p => by
      simp only [Pipe.tree, Cmd.spans, Pipe.tokens, wordSpans_cons, wordSpans_append, Tok.span?,
        Option.toList_none, List.nil_append]
      exact (Simple.spans_tree s).append (Pipe.spans_tree p)

/-- The tree of a derivation has the words of its tokens. -/
theorem Line.spans_tree : ∀ d : Line, d.tree.spans.Perm (wordSpans d.tokens)
  | .fin p k => by
      simp only [Line.tree, spans_backs, Line.tokens, wordSpans_append, wordSpans_amps,
        List.append_nil]
      exact Pipe.spans_tree p
  | .cont p k l => by
      simp only [Line.tree, Cmd.spans, spans_backs, Line.tokens, wordSpans_append, wordSpans_amps,
        List.append_nil]
      exact (Pipe.spans_tree p).append (Line.spans_tree l)
  | .semi p k l => by
      simp only [Line.tree, Cmd.spans, spans_backs, Line.tokens, wordSpans_cons, wordSpans_append,
        wordSpans_amps, List.append_nil, Tok.span?, Option.toList_none, List.nil_append]
      exact (Pipe.spans_tree p).append (Line.spans_tree l)

end

/-- **The words of an accepted text** lie in its buffer, and no two of them, with
the bytes after them, have a byte in common. -/
theorem spans_disjoint {s : CStr} {cmd : Cmd Span} (h : parseText s = .tree cmd) :
    (∀ w ∈ cmd.spans, w.q < w.eq ∧ w.eq < s.buffer.length) ∧
      cmd.spans.Pairwise fun v w => v.seg.Disjoint w.seg := by
  obtain ⟨d, -, hts, rfl⟩ := parseText_tree h
  have hperm := Line.spans_tree d
  rw [hts] at hperm
  have hb := wordSpans_bounds s.cursor
  refine ⟨fun w hw => ?_, ?_⟩
  · obtain ⟨-, hlt, hle⟩ := hb w (hperm.mem_iff.1 hw)
    refine ⟨hlt, ?_⟩
    simpa [CStr.buffer, CStr.cursor, Nat.lt_succ_iff] using hle
  · refine (hperm.pairwise_iff fun h => h.symm).2 ?_
    refine (tokens_spaced s.cursor).imp_of_mem fun {v w} hv hw hlt => ?_
    left
    have := hb v hv
    simp only [Span.seg_lo, Span.seg_len]
    omega

theorem foldl_terminateWord {ws : List Span} {b : Buffer}
    (h : ∀ w ∈ ws, w.q < w.eq ∧ w.eq < b.length) :
    ws.foldl terminateWord b = ws.foldl (fun b w => w.seg.modify unquoted b) b := by
  induction ws generalizing b with
  | nil => rfl
  | cons w ws ih =>
    obtain ⟨hq, heq⟩ := h w List.mem_cons_self
    have hw := terminateWord_eq hq.le heq
    have hlen : (w.seg.modify unquoted b).length = b.length :=
      Seg.length_modify (keeps_unquoted w) (by simp only [Seg.Within, Span.seg]; omega)
    rw [List.foldl_cons, List.foldl_cons, hw,
      ih fun v hv => hlen ▸ h v (List.mem_cons_of_mem _ hv)]

/-- The bytes of a word before the pass. -/
theorem slice_buffer {s : CStr} {w : Span} (hq : w.q ≤ w.eq) (h : w.eq < s.buffer.length) :
    w.slice s.buffer = w.slice s.bytes := by
  have hlen : w.eq ≤ s.bytes.length := by simpa [CStr.buffer, Nat.lt_succ_iff] using h
  rw [Span.slice, Span.slice, CStr.buffer, List.take_drop, List.take_drop,
    List.take_append_of_le_length (by omega)]

/-- A string whose NUL lies in a word's own bytes ends there. -/
theorem cstr_of_read {b : Buffer} {w : Span} {l tl : List Byte}
    (h : w.seg.read b = l ++ 0 :: tl) (hl : (0 : Byte) ∉ l) : b.cstr w.q = l := by
  have hdrop : b.drop w.q = l ++ 0 :: (tl ++ (b.drop w.q).drop w.seg.len) := by
    rw [← List.cons_append, ← List.append_assoc, ← h]
    exact (List.take_append_drop _ _).symm
  have hall : ∀ c ∈ l, (c != 0) = true := fun c hc => by
    have : c ≠ 0 := fun h0 => hl (h0 ▸ hc)
    simpa using this
  rw [Buffer.cstr, hdrop, List.takeWhile_append_of_pos hall]
  simp

theorem nul_notMem_dequote {m : Quote} {w : List Byte} (hw : (0 : Byte) ∉ w) :
    (0 : Byte) ∉ dequote m w := by
  fun_induction dequote m w <;> simp_all

theorem takeWhile_slice {s : CStr} (w : Span) :
    (w.slice s.bytes).takeWhile (· != 0) = w.slice s.bytes := by
  rw [List.takeWhile_eq_self_iff]
  intro c hc
  have : c ≠ 0 := fun h0 =>
    s.nul_free (h0 ▸ List.mem_of_mem_drop (List.mem_of_mem_take hc))
  simpa using this

theorem Cmd.map_congr {ω : Type} {f g : Span → ω} {cmd : Cmd Span}
    (h : ∀ w ∈ cmd.spans, f w = g w) : cmd.map f = cmd.map g := by
  induction cmd with
  | exec argv => exact congrArg Cmd.exec (List.map_congr_left h)
  | redir cmd file mode fd ih =>
    simp only [Cmd.spans, List.mem_append, List.mem_singleton] at h
    rw [Cmd.map, Cmd.map, ih fun w hw => h w (Or.inl hw), h file (Or.inr rfl)]
  | pipe left right ihl ihr =>
    simp only [Cmd.spans, List.mem_append] at h
    rw [Cmd.map, Cmd.map, ihl fun w hw => h w (Or.inl hw), ihr fun w hw => h w (Or.inr hw)]
  | list left right ihl ihr =>
    simp only [Cmd.spans, List.mem_append] at h
    rw [Cmd.map, Cmd.map, ihl fun w hw => h w (Or.inl hw), ihr fun w hw => h w (Or.inr hw)]
  | back cmd ih => rw [Cmd.map, Cmd.map, ih h]

/-- **In whatever order the words are terminated and unquoted**, each string
ends up as what `dequote` makes of the word. -/
theorem cstr_foldl_terminateWord {s : CStr} {cmd : Cmd Span} (h : parseText s = .tree cmd)
    {ws : List Span} (hws : ws.Perm cmd.spans) :
    ∀ w ∈ cmd.spans,
      (ws.foldl terminateWord s.buffer).cstr w.q = dequote .out (w.slice s.bytes) := by
  obtain ⟨hb, hd⟩ := spans_disjoint h
  intro w hw
  obtain ⟨hq, heq⟩ := hb w hw
  have hbw : ∀ v ∈ ws, v.q < v.eq ∧ v.eq < s.buffer.length := fun v hv => hb v (hws.mem_iff.1 hv)
  have hread := Seg.read_foldl_modify (fun v _ => keeps_unquoted v)
    (fun v hv => show v.seg.Within s.buffer.length from by
      have := hbw v hv
      show v.q + (v.eq - v.q + 1) ≤ _
      omega)
    ((hws.pairwise_iff fun h => h.symm).2 hd) w (hws.mem_iff.2 hw)
  rw [foldl_terminateWord hbw]
  rw [unquoted, dropLast_read hq.le heq, slice_buffer hq.le heq, takeWhile_slice,
    List.append_assoc] at hread
  refine cstr_of_read hread (nul_notMem_dequote ?_)
  exact fun h0 => s.nul_free (List.mem_of_mem_drop (List.mem_of_mem_take h0))

/-- **The words of a parsed command are what a pure parser would return.**  For
every text that `parsecmd` accepts, the strings the tree points to after
`nulterminate` are `dequote` of the parts of the text its tokens delimited; so
they are in any other order of the words; and terminating and unquoting one word
leaves every byte of every other word, and of the byte after it, as it was. -/
theorem parsecmd_strings (s : CStr) (cmd : Cmd Span) (buf : Buffer)
    (h : parsecmd s = .cmd cmd buf) :
    cmd.strings buf = cmd.map (fun w => dequote .out (w.slice s.bytes)) ∧
      (∀ ws : List Span, ws.Perm cmd.spans →
        cmd.strings (ws.foldl terminateWord s.buffer) =
          cmd.map (fun w => dequote .out (w.slice s.bytes))) ∧
      cmd.spans.Pairwise fun v w => ∀ b : Buffer, b.length = s.buffer.length →
        w.seg.read (terminateWord b v) = w.seg.read b ∧
          v.seg.read (terminateWord b w) = v.seg.read b := by
  obtain ⟨ht, rfl⟩ := parsecmd_eq_cmd_iff.1 h
  obtain ⟨hb, hd⟩ := spans_disjoint ht
  have hall : ∀ ws : List Span, ws.Perm cmd.spans →
      cmd.strings (ws.foldl terminateWord s.buffer) =
        cmd.map (fun w => dequote .out (w.slice s.bytes)) :=
    fun ws hws => Cmd.map_congr (cstr_foldl_terminateWord ht hws)
  refine ⟨?_, hall, hd.imp_of_mem fun {v w} hv hw hvw b hlen => ?_⟩
  · rw [nulterminate_eq]
    exact hall _ (List.Perm.refl _)
  · have hframe : ∀ v w : Span, v ∈ cmd.spans → v.seg.Disjoint w.seg →
        w.seg.read (terminateWord b v) = w.seg.read b := by
      intro v w hv hvw
      obtain ⟨hq, heq⟩ := hb v hv
      rw [terminateWord_eq hq.le (hlen ▸ heq)]
      refine Seg.read_modify_of_disjoint (keeps_unquoted v) ?_ hvw
      show v.q + (v.eq - v.q + 1) ≤ _
      omega
    exact ⟨hframe v w hv hvw, hframe w v hw hvw.symm⟩

/-- The hypothesis holds of the text `a "b c">'d'`, whose redirection is walked
after both words. -/
theorem parsecmd_strings_redir :
    let s : CStr := ⟨[97, 32, 34, 98, 32, 99, 34, 62, 39, 100, 39], by decide⟩
    let cmd : Cmd Span := .redir (.exec [⟨0, 1⟩, ⟨2, 7⟩]) ⟨8, 11⟩ [.wronly, .creat, .trunc] 1
    parsecmd s = .cmd cmd (nulterminate cmd s.buffer) ∧
      cmd.strings (nulterminate cmd s.buffer) =
        .redir (.exec [[97], [98, 32, 99]]) [100] [.wronly, .creat, .trunc] 1 := by
  intro s cmd
  have h : parsecmd s = .cmd cmd (nulterminate cmd s.buffer) :=
    parsecmd_eq_cmd_iff.2 ⟨by decide, rfl⟩
  exact ⟨h, (parsecmd_strings s cmd _ h).1.trans (by decide)⟩

end Shell
end V6User
