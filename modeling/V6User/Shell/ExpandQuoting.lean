import V6User.Shell.Expand
import V6User.Shell.Quoting

/-!
# Quoting, to the expander and to the tokenizer

`programs/sh/sh.c`: `expand_env_vars` against `gettoken` on the same line.

`lineStates` puts together the quoting states in which `gettoken` reads the
words of a line.  They are those of one scan of the whole line that no byte
stops (`lineStates_eq`), so a byte lies between single quotes for `gettoken`
exactly when an odd number of its quote marks precede it.  The expander has quote
marks of its own: it takes every single quote outside `${...}`, also one that
`gettoken` finds escaped or between double quotes.  Where the number of marks
that only one of the two takes is odd, one of them is inside a region and the
other is not (`expandEnvVars_quoting_iff`).
-/

namespace V6User
namespace Shell

/-- The quoting state of `gettoken` at each byte from a pointer on, for at most
`n` tokens: the states of its word loop in a word, and outside quotes
elsewhere. -/
def lineStatesUpTo : ℕ → Cursor → List QState
  | 0, c => List.replicate c.rest.length (some .out)
  | n + 1, c =>
    let t := gettoken c
    if t.ret = .eof then List.replicate c.rest.length (some .out)
    else
      List.replicate (t.q.pos - c.pos) (some .out) ++
        ((if t.ret = .word then gettokenScan.states .out t.q.rest
          else List.replicate (t.eq.pos - t.q.pos) (some .out)) ++
        (List.replicate (t.ps.pos - t.eq.pos) (some .out) ++ lineStatesUpTo n t.ps))

/-- The quoting states of `gettoken` on a line. -/
def lineStates (line : CStr) : List QState := lineStatesUpTo line.bytes.length line.cursor

/-- The word loop of `gettoken`, going on over what ends a word. -/
@[simps] def lineScan : QuoteScan Quote Byte where
  lead := gettokenScan.lead
  escapes := gettokenScan.escapes
  step := gettokenScan.step
  stop _ _ := false

/-! ### One scan of the line -/

theorem lineScan_plain {l : List Byte} (h : ∀ b ∈ l, endsWord b = true) (r : List Byte) :
    lineScan.states .out (l ++ r) =
      List.replicate l.length (some .out) ++ lineScan.states .out r := by
  induction l with
  | nil => rfl
  | cons b l ih =>
    have hb := h b List.mem_cons_self
    have hne : ∀ d : Byte, endsWord d = false → b ≠ d := fun d hd he => by
      rw [he, hd] at hb
      cases hb
    have h₁ := hne backslash (by decide)
    have h₂ := hne squote (by decide)
    have h₃ := hne dquote (by decide)
    rw [List.cons_append, QuoteScan.states_of_char rfl (by simpa using h₁)]
    simp only [lineScan_step, gettokenScan_step, nextQuote, h₂, h₃, if_false]
    rw [ih fun d hd => h d (List.mem_cons_of_mem _ hd)]
    rfl

/-- Where the word loop stops, the scan of the line goes on outside quotes. -/
theorem lineScan_word (m : Quote) (s : List Byte) :
    lineScan.states m s =
      gettokenScan.states m s ++ lineScan.states .out (s.drop (wordLen m s)) := by
  fun_induction wordLen m s <;>
    simp_all [QuoteScan.states_of_stop, QuoteScan.states_of_char, QuoteScan.states_of_escape,
      QuoteScan.states_of_not_escape, QuoteScan.states_of_last, nextQuote]

theorem lineScan_skipSpace (c : Cursor) :
    lineScan.states .out c.rest =
      List.replicate (c.skipSpace.pos - c.pos) (some .out) ++
        lineScan.states .out c.skipSpace.rest := by
  have hws : ∀ b ∈ c.rest.takeWhile (strchr whitespace), endsWord b = true := fun b hb => by
    rw [endsWord, List.mem_takeWhile_imp hb, Bool.true_or]
  have hlen : c.skipSpace.pos - c.pos = (c.rest.takeWhile (strchr whitespace)).length :=
    Nat.add_sub_cancel_left ..
  rw [Cursor.skipSpace_rest, hlen, ← lineScan_plain hws, List.takeWhile_append_dropWhile]

/-- An operator is made of bytes that end a word. -/
theorem endsWord_of_operator {s : Cursor} (h : (tokenAt s).1 ≠ .word) :
    ∀ b ∈ s.rest.take (tokenAt s).2, endsWord b = true := by
  cases hr : s.rest with
  | nil => simp
  | cons c l =>
    rcases tokenAt_cases hr with ⟨-, hat⟩ | ⟨k, hsym, -, -, hat⟩ | ⟨rfl, ⟨l', rfl⟩, hat⟩
    · rw [hat] at h
      exact absurd rfl h
    · rw [hat]
      exact List.forall_mem_singleton.2 (by rw [endsWord, hsym, Bool.or_true])
    · rw [hat]
      have hgt : endsWord 62 = true := by decide
      exact List.forall_mem_cons.2 ⟨hgt, List.forall_mem_singleton.2 hgt⟩

/-- **One scan of the line**: the states in which `gettoken` reads the words of
a line are those of its word loop, going on over what ends a word. -/
theorem lineStates_eq (line : CStr) : lineStates line = lineScan.states .out line.bytes := by
  suffices h : ∀ n : ℕ, ∀ c : Cursor, c.rest.length ≤ n →
      lineStatesUpTo n c = lineScan.states .out c.rest from h _ _ le_rfl
  intro n
  induction n with
  | zero =>
    intro c hn
    have hnil : c.rest = [] := List.length_eq_zero_iff.1 (Nat.le_zero.1 hn)
    rw [lineStatesUpTo, hnil]
    rfl
  | succ n ih =>
    intro c hn
    rw [lineStatesUpTo]
    by_cases he : (gettoken c).ret = .eof
    · -- only whitespace is left
      have hnil : c.skipSpace.rest = [] := by
        by_contra hne
        exact ((tokenAt_bounds c.skipSpace_skipSpace).2 hne).2 he
      have hend := c.skipSpace_end
      have hlen : c.skipSpace.pos - c.pos = c.rest.length := by
        rw [hnil, List.length_nil] at hend
        omega
      simp only [he, if_true]
      rw [lineScan_skipSpace, hnil, hlen, QuoteScan.states_nil, List.append_nil]
    · have hne : (gettoken c).tok ≠ none := fun h => he (tok_eq_none_iff.1 h)
      have hlt := gettoken_length_lt hne
      simp only [he, if_false]
      rw [ih _ (by omega), lineScan_skipSpace c]
      refine congrArg _ ?_
      have htail := lineScan_skipSpace (gettoken c).eq
      by_cases hw : (gettoken c).ret = .word
      · rw [if_pos hw, lineScan_word .out c.skipSpace.rest]
        refine congrArg _ ?_
        have hrest : (gettoken c).eq.rest = c.skipSpace.rest.drop (wordLen .out c.skipSpace.rest) := by
          rw [← tokenAt_word hw]
          rfl
        rw [← hrest, htail]
        rfl
      · rw [if_neg hw]
        have hop := endsWord_of_operator hw
        have hlen : (gettoken c).eq.pos - (gettoken c).q.pos =
            (c.skipSpace.rest.take (tokenAt c.skipSpace).2).length := by
          rw [List.length_take, Nat.min_eq_left (tokenAt_bounds c.skipSpace_skipSpace).1]
          exact Nat.add_sub_cancel_left ..
        have hsplit := lineScan_plain hop (gettoken c).eq.rest
        rw [show (gettoken c).eq.rest = c.skipSpace.rest.drop (tokenAt c.skipSpace).2 from rfl,
          List.take_append_drop] at hsplit
        rw [hsplit, hlen]
        refine congrArg _ ?_
        exact htail.symm

/-! ### Quote marks -/

/-- The single quotes that `gettoken` takes as marks: neither escaped nor between
double quotes. -/
def tokenMarks (s : List Byte) (qs : List QState) : List Bool :=
  List.zipWith (fun b q => b == squote && (q == some .out || q == some .sq)) s qs

@[simp] theorem tokenMarks_cons (b : Byte) (q : QState) (s : List Byte) (qs : List QState) :
    tokenMarks (b :: s) (q :: qs) =
      (b == squote && (q == some .out || q == some .sq)) :: tokenMarks s qs := rfl

theorem backslash_ne_dollar : backslash ≠ dollar := by decide

/-- **Between single quotes for the tokenizer**: an odd number of its marks
precede the byte. -/
theorem singleQuoted_iff (m : Quote) (s : List Byte) (i : ℕ) (hi : s[i]? = some dollar) :
    (lineScan.states m s)[i]? = some (some .sq) ↔
      (m = .sq ↔ ((tokenMarks s (lineScan.states m s)).take i).count true % 2 = 0) := by
  fun_induction lineScan.states m s generalizing i with
  | case1 => simp at hi
  | case2 m c s hs => cases hs
  | case3 m c hs hl =>
    rw [lineScan_lead, gettokenScan_lead, beq_iff_eq] at hl
    subst hl
    cases i with
    | zero => simp [backslash_ne_dollar] at hi
    | succ i => simp at hi
  | case4 m c hs hl d s he ih =>
    -- the escaped byte: a dollar is escaped only outside single quotes
    rw [lineScan_lead, gettokenScan_lead, beq_iff_eq] at hl
    subst hl
    rcases i with _ | _ | i
    · simp [backslash_ne_dollar] at hi
    · have hd : d = dollar := by simpa using hi
      have hm : m ≠ .sq := by
        rintro rfl
        rw [hd] at he
        exact absurd he (by decide)
      simp [hm]
    · have := ih i (by simpa using hi)
      simpa using this
  | case5 m c hs hl d s he ih =>
    rw [lineScan_lead, gettokenScan_lead, beq_iff_eq] at hl
    subst hl
    cases i with
    | zero => simp [backslash_ne_dollar] at hi
    | succ i =>
      have := ih i (by simpa using hi)
      simpa using this
  | case6 m c s hs hl ih =>
    cases i with
    | zero => simp
    | succ i =>
      have := ih i (by simpa using hi)
      rw [List.getElem?_cons_succ, this, tokenMarks_cons, List.take_succ_cons, List.count_cons]
      -- a mark enters or leaves single quotes, any other byte does neither
      simp only [lineScan_step, gettokenScan_step]
      by_cases hc : c = squote
      · cases m <;> simp [nextQuote, hc] <;> omega
      · have hns : nextQuote m c = .sq ↔ m = .sq := by
          cases m <;> simp only [nextQuote, hc, if_false] <;> split_ifs <;> simp
        simp [hns, hc]

/-! ### Where the two agree -/

/-- The single quotes of a line that only one of the two takes as a mark: the
expander all those outside `${...}`, the tokenizer all those that are neither
escaped nor between double quotes. -/
def strayQuotes (env : Env) (pid : ℕ) (line : CStr) : List Bool :=
  List.zipWith bne ((places env pid line.bytes).map Place.mark)
    (tokenMarks line.bytes (lineStates line))

theorem count_zipWith_bne (a b : List Bool) (h : a.length = b.length) (i : ℕ) :
    ((List.zipWith bne a b).take i).count true % 2 =
      ((a.take i).count true + (b.take i).count true) % 2 := by
  induction a generalizing b i with
  | nil =>
    cases b with
    | nil => simp
    | cons y b => simp at h
  | cons x a ih =>
    cases b with
    | nil => simp at h
    | cons y b =>
      cases i with
      | zero => rfl
      | succ i =>
        have := ih b (by simpa using h) i
        simp only [List.zipWith_cons_cons, List.take_succ_cons, List.count_cons]
        cases x <;> cases y <;> simp <;> omega

theorem length_lineScan (m : Quote) (s : List Byte) : (lineScan.states m s).length = s.length := by
  fun_induction lineScan.states m s <;> simp_all

/-- **When the expander and the tokenizer agree on single quotes.**  On a line,
the expander replaces exactly those `$` references that do not lie between single
quotes for `gettoken` if and only if, at each reference, the number of stray
quotes before it is even; where the complete expansion of what stands before the
reference fills the buffer, so that the reference is not reached, it has to lie
between single quotes. -/
theorem expandEnvVars_quoting_iff (env : Env) (pid : ℕ) (line : CStr) :
    (∀ i, IsReference line.bytes i →
      ((expandEnvVars env pid line).fates[i]? = some .replaced ↔
        (lineStates line)[i]? ≠ some (some .sq))) ↔
      ∀ i, IsReference line.bytes i →
        if sizeAt (places env pid line.bytes) i < expandMax then
          ((strayQuotes env pid line).take i).count true % 2 = 0
        else (lineStates line)[i]? = some (some .sq) := by
  refine forall_congr' fun i => imp_congr_right fun hi => ?_
  have hlen : ((places env pid line.bytes).map Place.mark).length =
      (tokenMarks line.bytes (lineStates line)).length := by
    rw [List.length_map, places, length_layout, tokenMarks, List.length_zipWith, lineStates_eq,
      length_lineScan, Nat.min_self]
  have hmarks : (((places env pid line.bytes).map Place.mark).take i).count true =
      marksBefore (places env pid line.bytes) i := by
    rw [marksBefore, ← List.map_take, List.count_eq_countP, List.countP_map]
    exact List.countP_congr fun x _ => by simp
  have hsq := singleQuoted_iff .out line.bytes i hi.1
  rw [← lineStates_eq] at hsq
  rw [replaced_iff env pid line i hi, strayQuotes, count_zipWith_bne _ _ hlen, hmarks, Ne, hsq]
  simp only [reduceCtorEq, false_iff]
  split_ifs with hsize
  · simp only [hsize, true_and]
    omega
  · simp only [hsize, false_and, false_iff, not_not]

/-- **The two disagree on `"it's $HOME"`**: the single quote between double quotes
is a mark for the expander alone, so it does not replace a reference that is not
between single quotes. -/
theorem expandEnvVars_quoting_fails :
    let line : CStr := ⟨[34, 105, 116, 39, 115, 32, 36, 72, 79, 77, 69, 34], by decide⟩
    IsReference line.bytes 6 ∧ (lineStates line)[6]? = some (some .dq) ∧
      ¬((expandEnvVars .cleared 1 line).fates[6]? = some .replaced ↔
        (lineStates line)[6]? ≠ some (some .sq)) := by
  refine ⟨⟨by decide, by decide⟩, by decide, by decide⟩

end Shell
end V6User
