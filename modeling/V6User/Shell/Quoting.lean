import V6User.Base.QuoteScan
import V6User.Shell.Tokens

/-!
# Two scanners for one quoting language

`programs/sh/sh.c` reads quotes twice: `gettoken` finds where a word ends, and
`dequote` later removes the quotes from the word it delimited.  Each is a
hand-written scanner with its own escape rules.  `gettoken`, between single
quotes, takes a backslash as an escape only before a single quote; `dequote`
takes it as one before a backslash as well.  Between double quotes it is the
other way round: `gettoken` lets a backslash take any next byte with it,
`dequote` only a double quote or a backslash.

Both are instances of `QuoteScan` that differ only in what a backslash escapes
(`gettokenScan`, `dequoteScan`), and `QuoteScan.states` is the quoting state
each is in at each byte.  The states agree on a word exactly when no backslash
of the word stands before a byte the two treat differently, and the two close
the same regions exactly when no single-quoted region holds an even number of
backslashes, not zero, directly before a single quote (`closesAgree`).
-/

namespace V6User
namespace Shell

/-- The quoting state of a scanner at the byte it reads: the region it is in,
or `none` at the byte a backslash escapes, which cannot close a region. -/
abbrev QState := Option Quote

/-- The region after a byte that no backslash escapes. -/
def nextQuote : Quote → Byte → Quote
  | .out, c => if c = squote then .sq else if c = dquote then .dq else .out
  | .sq, c => if c = squote then .out else .sq
  | .dq, c => if c = dquote then .out else .dq

/-- The word loop of `gettoken` as a quote scanner. -/
@[simps] def gettokenScan : QuoteScan Quote Byte where
  lead c := c == backslash
  escapes m d := match m with
    | .out => true
    | .sq => d == squote
    | .dq => true
  step := nextQuote
  stop m c := m == .out && endsWord c

/-- `dequote` as a quote scanner. -/
@[simps] def dequoteScan : QuoteScan Quote Byte where
  lead c := c == backslash
  escapes m d := match m with
    | .out => true
    | .sq => d == squote || d == backslash
    | .dq => d == dquote || d == backslash
  step := nextQuote
  stop _ _ := false

/-- `dequote(s)`: the bytes left when the quotes and escapes of a word are
removed. -/
def dequote : Quote → List Byte → List Byte
  | _, [] => []
  | .out, c :: s =>
    if c = backslash then
      match s with
      | [] => [c]
      | d :: s' => d :: dequote .out s'
    else if c = squote then dequote .sq s
    else if c = dquote then dequote .dq s
    else c :: dequote .out s
  | .sq, c :: s =>
    if c = squote then dequote .out s
    else if c = backslash then
      match s with
      | [] => [c]
      | d :: s' =>
        if d = squote ∨ d = backslash then d :: dequote .sq s' else c :: dequote .sq (d :: s')
    else c :: dequote .sq s
  | .dq, c :: s =>
    if c = dquote then dequote .out s
    else if c = backslash then
      match s with
      | [] => [c]
      | d :: s' =>
        if d = dquote ∨ d = backslash then d :: dequote .dq s' else c :: dequote .dq (d :: s')
    else c :: dequote .dq s

/-! ### The scanners are the ones of the source -/

/-- The scanner of `gettoken` reads exactly the bytes the word loop steps over. -/
theorem length_gettokenScan (m : Quote) (s : List Byte) :
    (gettokenScan.states m s).length = wordLen m s := by
  fun_induction wordLen m s <;>
    simp [QuoteScan.states_of_stop, QuoteScan.states_of_char, QuoteScan.states_of_escape,
      QuoteScan.states_of_not_escape, QuoteScan.states_of_last, nextQuote, *]

/-- A quote mark that opens or closes a region. -/
def isMark (b : Byte) (q : QState) : Bool :=
  (b == squote && (q == some .out || q == some .sq)) ||
    (b == dquote && (q == some .out || q == some .dq))

/-- The bytes a scanner with these states keeps: not the marks, and not a
backslash that escapes the byte after it. -/
def keep : List Byte → List QState → List Byte
  | b :: s, q :: qs =>
    if isMark b q || (b == backslash && q.isSome && qs.head? == some none) then keep s qs
    else b :: keep s qs
  | _, _ => []

/-- **The states of `dequote` determine what it writes.** -/
theorem keep_dequoteScan (m : Quote) (s : List Byte) :
    keep s (dequoteScan.states m s) = dequote m s := by
  fun_induction dequote m s <;>
    simp_all [QuoteScan.states_of_char, QuoteScan.states_of_escape,
      QuoteScan.states_of_not_escape, QuoteScan.states_of_last, nextQuote, keep, isMark]

/-! ### Where the two agree -/

/-- The two treat the byte after a backslash differently in two cases: a
backslash between single quotes, and between double quotes any byte that is
neither a double quote nor a backslash. -/
theorem escapes_eq_iff (m : Quote) (d : Byte) :
    gettokenScan.escapes m d = dequoteScan.escapes m d ↔
      ¬(m = .sq ∧ d = backslash) ∧ ¬(m = .dq ∧ d ≠ dquote ∧ d ≠ backslash) := by
  cases m
  · simp
  · by_cases hd : d = squote <;> by_cases hb : d = backslash <;> simp_all
  · by_cases hd : d = dquote <;> by_cases hb : d = backslash <;> simp_all

/-- At which bytes a scanner closes a quoted region. -/
def closings (w : List Byte) (qs : List QState) : List Bool :=
  List.zipWith (fun b q => (q == some .sq && b == squote) || (q == some .dq && b == dquote)) w qs

/-- In no single-quoted region does an even number of backslashes, not zero,
stand directly before a single quote.  Between single quotes the scan takes
backslashes in pairs, so that the last one before the quote is reached alone
when their number is odd. -/
def closesAgree : Quote → List Byte → Bool
  | _, [] => true
  | m, c :: s =>
    if c = backslash then
      match s with
      | [] => true
      | d :: s' =>
        if m = .sq ∧ d = backslash then s'.head? != some squote && closesAgree .sq s'
        else if m = .sq ∧ d ≠ squote then closesAgree .sq (d :: s')
        else closesAgree m s'
    else closesAgree (nextQuote m c) s

@[simp] theorem endsWord_backslash : endsWord backslash = false := by decide

theorem closings_cons (b : Byte) (q : QState) (w : List Byte) (qs : List QState) :
    closings (b :: w) (q :: qs) =
      ((q == some .sq && b == squote) || (q == some .dq && b == dquote)) :: closings w qs := rfl

/-- **The two scanners close the same regions** of a word that `gettoken` reads
to its end exactly when no single-quoted region of it holds an even number of
backslashes, not zero, before a single quote. -/
theorem closings_eq_iff {m : Quote} {w : List Byte} (hr : gettokenScan.Reads m w) :
    closings w (gettokenScan.states m w) = closings w (dequoteScan.states m w) ↔
      closesAgree m w = true := by
  fun_induction closesAgree m w with
  | case1 => simp
  | case2 m => simp [QuoteScan.states_of_last hr.not_stop, QuoteScan.states_of_last]
  | case3 m d s' h ih =>
    -- a pair of backslashes between single quotes: an escape for `dequote` only
    obtain ⟨rfl, rfl⟩ := h
    have hr₁ := hr.of_not_escape (by simp) (by simp)
    rw [QuoteScan.states_of_not_escape hr.not_stop (by simp) (by simp),
      QuoteScan.states_of_escape (by simp) (by simp) (by simp)]
    match s' with
    | [] => simp [QuoteScan.states_of_last hr₁.not_stop, closings_cons, closesAgree]
    | e :: s' =>
      by_cases he : e = squote
      · subst he
        rw [QuoteScan.states_of_escape hr₁.not_stop (by simp) (by simp),
          QuoteScan.states_of_char (by simp) (by simp)]
        simp [closings_cons]
      · rw [QuoteScan.states_of_not_escape hr₁.not_stop (by simp) (by simpa using he)]
        have hr₂ := hr₁.of_not_escape (by simp) (by simpa using he)
        simp [closings_cons, he, ih hr₂]
  | case4 m d s' hd h ih =>
    obtain ⟨rfl, hq⟩ := h
    have hb : d ≠ backslash := fun hb => hd ⟨rfl, hb⟩
    rw [QuoteScan.states_of_not_escape hr.not_stop (by simp) (by simpa using hq),
      QuoteScan.states_of_not_escape (by simp) (by simp) (by simp [hq, hb])]
    simp [closings_cons, ih (hr.of_not_escape (by simp) (by simpa using hq))]
  | case5 m d s' hd h ih =>
    have he : gettokenScan.escapes m d = true := by cases m <;> simp_all
    rw [QuoteScan.states_of_escape hr.not_stop (by simp) he]
    have ih := ih (hr.of_escape (by simp) he)
    by_cases hD : dequoteScan.escapes m d = true
    · rw [QuoteScan.states_of_escape (by simp) (by simp) hD]
      simp [closings_cons, ih]
    · -- an ordinary byte between double quotes: `dequote` keeps the backslash
      have hm : m = .dq ∧ d ≠ dquote ∧ d ≠ backslash := by cases m <;> simp_all
      obtain ⟨rfl, hq, hb⟩ := hm
      rw [QuoteScan.states_of_not_escape (by simp) (by simp) (by simpa using hD),
        QuoteScan.states_of_char (by simp) (by simpa using hb)]
      simp [closings_cons, nextQuote, hq, ih]
  | case6 m c s hb ih =>
    rw [QuoteScan.states_of_char hr.not_stop (by simpa using hb),
      QuoteScan.states_of_char (by simp) (by simpa using hb)]
    simp [closings_cons, ih (hr.of_char (by simpa using hb))]

/-- The bytes of a token, from `*q` to `*eq`. -/
def Token.word (t : Token) : List Byte := t.q.rest.take (t.eq.pos - t.q.pos)

/-- A word token is the part of the text its word loop steps over. -/
theorem word_of_ret {c : Cursor} (h : (gettoken c).ret = .word) :
    (gettoken c).word =
      (gettoken c).q.rest.take (gettokenScan.states .out (gettoken c).q.rest).length := by
  simp [Token.word, gettoken, tokenAt_word h, length_gettokenScan]

/-- **When `dequote` reads a word in the states of `gettoken`.**  For every text
and every word token in it, the two are in the same quoting state at each byte
of the token exactly when every backslash of the token escapes the same byte
for both: no backslash directly after a backslash between single quotes, and no
backslash before anything but a double quote or a backslash between double
quotes (`escapes_eq_iff`).  They close the same regions exactly when no
single-quoted region holds an even number of backslashes, not zero, before a
single quote.  The states are those of `dequote` itself: what it writes are the
bytes that they keep. -/
theorem dequote_lockstep_iff (text : CStr) (i : ℕ)
    (h : (gettoken (text.cursor.advance i)).ret = .word) :
    let t := gettoken (text.cursor.advance i)
    (gettokenScan.states .out t.q.rest = dequoteScan.states .out t.word ↔
        gettokenScan.escapesAgree dequoteScan .out t.word = true) ∧
      (closings t.word (gettokenScan.states .out t.q.rest) =
          closings t.word (dequoteScan.states .out t.word) ↔
        closesAgree .out t.word = true) ∧
      keep t.word (dequoteScan.states .out t.word) = dequote .out t.word := by
  intro t
  have hw := word_of_ret h
  have hr : gettokenScan.Reads .out t.word := hw ▸ gettokenScan.reads_take _ _
  have hs : gettokenScan.states .out t.q.rest = gettokenScan.states .out t.word := by
    rw [hw, QuoteScan.states_take]
  rw [hs]
  exact ⟨QuoteScan.states_eq_iff (S := gettokenScan) (T := dequoteScan) rfl rfl (fun _ _ => rfl) hr,
    closings_eq_iff hr, keep_dequoteScan _ _⟩

/-- The text `'a\'b'"c"` is one word with an escape between its single quotes and two regions. -/
theorem dequote_lockstep_iff_quoted :
    let t := gettoken ((⟨[39, 97, 92, 39, 98, 39, 34, 99, 34], by decide⟩ : CStr).cursor.advance 0)
    t.ret = .word ∧ t.word = [39, 97, 92, 39, 98, 39, 34, 99, 34] ∧
      gettokenScan.states .out t.q.rest = dequoteScan.states .out t.word ∧
      closings t.word (gettokenScan.states .out t.q.rest) =
        closings t.word (dequoteScan.states .out t.word) := by
  obtain ⟨hstates, hclosings, -⟩ :=
    dequote_lockstep_iff ⟨[39, 97, 92, 39, 98, 39, 34, 99, 34], by decide⟩ 0 (by decide)
  exact ⟨by decide, by decide, hstates.2 (by decide), hclosings.2 (by decide)⟩

/-- **The two scanners fall apart on `'a\\'`** (a single-quoted `a` and two
backslashes): `gettoken` reads the second quote as escaped and the region as
open, `dequote` closes it there. -/
theorem dequote_lockstep_fails :
    let t := gettoken (⟨[39, 97, 92, 92, 39], by decide⟩ : CStr).cursor
    t.ret = .word ∧ t.word = [39, 97, 92, 92, 39] ∧
      gettokenScan.states .out t.q.rest ≠ dequoteScan.states .out t.word ∧
      closings t.word (gettokenScan.states .out t.q.rest) ≠
        closings t.word (dequoteScan.states .out t.word) := by decide

end Shell
end V6User
