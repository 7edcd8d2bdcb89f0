import V6User.Shell.RunLine
import V6User.Shell.Shape

/-!
# The test for operators

`programs/sh/sh.c`: `line_has_control_operator` against `gettoken`.

`run_line` takes a line for a builtin only where `line_has_control_operator` finds no
operator in it.  That scan has its own rule for a backslash between single quotes: it
takes any next byte with it, while `gettoken` lets it escape a single quote only.  The
two part at a single quote after an even number of backslashes, not zero: the scan
closes the region there and `gettoken` does not (`misread`).  Up to such a quote the two
give the same answer (`controlOperatorFrom_eq`).  From there on each goes on in a region of
its own, and what is between quotes for the one is outside them for the other
(`lineHasControlOperator_agrees`).
-/

namespace V6User
namespace Shell

/-- An operator follows in a text that `gettoken` reads in these quotes. -/
def operatorFrom (m : Quote) (s : List Byte) : Bool :=
  (shapeScan.output (.word m false) s).any (· ≠ .word)

/-- What follows the first single quote that `line_has_control_operator` takes for the
end of a region and `gettoken` for an escaped byte, where no operator comes before it. -/
def misread : Quote → List Byte → Option (List Byte)
  | _, [] => none
  | .out, c :: s =>
    if (operatorKind c).isSome then none
    else if c = backslash then
      match s with
      | [] => none
      | _ :: s' => misread .out s'
    else misread (nextQuote .out c) s
  | .sq, c :: s =>
    if c = backslash then
      match s with
      | [] => none
      | d :: s' =>
        if d = backslash then
          if s'.head? = some squote then some s'.tail else misread .sq s'
        else misread .sq s'
    else misread (nextQuote .sq c) s
  | .dq, c :: s =>
    if c = backslash then
      match s with
      | [] => none
      | _ :: s' => misread .dq s'
    else misread (nextQuote .dq c) s

/-- The test answers what the operators among the tokens of `gettoken` say. -/
def Agrees (line : CStr) : Prop :=
  lineHasControlOperator line = true ↔ operators (tokens line.cursor) ≠ []

/-- An operator stands after an even number of single quotes, with `n` before the text. -/
def OperatorAfter (n : ℕ) (t : List Byte) : Prop :=
  ∃ a c b, t = a ++ c :: b ∧ (operatorKind c).isSome ∧ (n + a.count squote) % 2 = 0

/-- Neither a backslash nor a double quote. -/
def Unescaped (t : List Byte) : Prop := backslash ∉ t ∧ dquote ∉ t

/-- The quote that `line_has_control_operator` waits for. -/
def Quote.mark : Quote → Option Byte
  | .out => none
  | .sq => some squote
  | .dq => some dquote

/-! ### The two scans, a byte at a time -/

section Scans

variable {c d : Byte} {s : List Byte} {m : Quote}

theorem strchr_control (c : Byte) :
    strchr [124, 38, 59, 60, 62, 40, 41] c = (operatorKind c).isSome := by
  rw [← strchr_symbols_eq, strchr, strchr, symbols, Bool.eq_iff_iff]
  simp only [List.contains_iff_mem, List.mem_cons, List.not_mem_nil, or_false]
  tauto

theorem not_whitespace_of_operator (h : (operatorKind c).isSome) : strchr whitespace c = false := by
  rw [← strchr_symbols_eq, strchr_symbols] at h
  rcases h with rfl | rfl | rfl | rfl | rfl | rfl | rfl <;> decide

theorem operatorFrom_operator (h : (operatorKind c).isSome) : operatorFrom .out (c :: s) = true := by
  obtain ⟨k, hk⟩ := Option.isSome_iff_exists.1 h
  have hne : k ≠ .word := fun he => operatorKind_ne_word c (he ▸ hk)
  have hw := not_whitespace_of_operator h
  by_cases hgt : k = .gt
  · subst hgt
    have hstep : shapeScan.step (.word .out false) c = (.gap true, some .gt) := by
      show outsideStep false _ _ c = _
      rw [outsideStep, hw, hk]
      rfl
    rw [operatorFrom, Transducer.output_cons, hstep]
    rfl
  · rw [operatorFrom, output_operator (.inr rfl) hw hk hgt, List.any_cons, decide_eq_true hne,
      Bool.true_or]

theorem operatorFrom_char (hop : m = .out → (operatorKind c).isSome = false) (hc : c ≠ backslash) :
    operatorFrom m (c :: s) = operatorFrom (nextQuote m c) s := by
  have hstep : shapeScan.step (.word m false) c = (.word (nextQuote m c) false, none) := by
    cases m with
    | out =>
      have hop := hop rfl
      by_cases hw : strchr whitespace c = true
      · have hq : nextQuote .out c = .out := by
          have h₁ : c ≠ squote := by rintro rfl; exact absurd hw (by decide)
          have h₂ : c ≠ dquote := by rintro rfl; exact absurd hw (by decide)
          rw [nextQuote, if_neg h₁, if_neg h₂]
        rw [hq]
        exact outsideStep_blank hw
      · rw [step_word, decide_eq_false hc]
        rw [endsWord, strchr_symbols_eq, hop, Bool.or_false]
        exact Bool.eq_false_iff.2 hw
    | sq =>
      rw [step_sq, nextQuote, decide_eq_false hc]
      by_cases hs : c = squote
      · rw [if_pos hs, if_pos hs]
        rfl
      · rw [if_neg hs, if_neg hs]
    | dq =>
      rw [step_dq, nextQuote, decide_eq_false hc]
      by_cases hs : c = dquote
      · rw [if_pos hs, if_pos hs]
      · rw [if_neg hs, if_neg hs]
  rw [operatorFrom, Transducer.output_cons, hstep]
  rfl

/-- A backslash that takes the next byte with it. -/
theorem operatorFrom_escape (h : m = .sq → d = squote) :
    operatorFrom m (backslash :: d :: s) = operatorFrom m s := by
  cases m with
  | out => rfl
  | sq =>
    obtain rfl := h rfl
    rfl
  | dq => rfl

theorem operatorFrom_not_escape (h : s.head? ≠ some squote) :
    operatorFrom .sq (backslash :: s) = operatorFrom .sq s := by
  cases s with
  | nil => rfl
  | cons d s =>
    have hd : d ≠ squote := fun hd => h (congrArg some hd)
    simp [operatorFrom, Transducer.output_cons, step_sq, hd]

theorem head?_backslash (s : List Byte) : (backslash :: s).head? ≠ some squote :=
  fun h => absurd (Option.some.inj h) (by decide)

theorem operatorFrom_last : operatorFrom m [backslash] = false := by
  cases m <;> rfl

theorem controlOperatorFrom_escape (q : Option Byte) :
    controlOperatorFrom q (backslash :: d :: s) = controlOperatorFrom q s := by
  rw [controlOperatorFrom.eq_def]
  simp

theorem controlOperatorFrom_last (q : Option Byte) : controlOperatorFrom q [backslash] = false := by
  rw [controlOperatorFrom.eq_def]
  simp

theorem controlOperatorFrom_operator (h : (operatorKind c).isSome) :
    controlOperatorFrom none (c :: s) = true := by
  have hne : c ≠ backslash ∧ c ≠ squote ∧ c ≠ dquote := by
    rw [← strchr_symbols_eq, strchr_symbols] at h
    rcases h with rfl | rfl | rfl | rfl | rfl | rfl | rfl <;> decide
  rw [controlOperatorFrom.eq_def]
  simp only [hne, strchr_control, h, if_true, if_false, or_self]

theorem controlOperatorFrom_char (hop : m = .out → (operatorKind c).isSome = false)
    (hc : c ≠ backslash) :
    controlOperatorFrom m.mark (c :: s) = controlOperatorFrom (nextQuote m c).mark s := by
  rw [controlOperatorFrom.eq_def]
  cases m with
  | out =>
    simp only [hc, if_false, Quote.mark, strchr_control, hop rfl, nextQuote, Bool.false_eq_true]
    by_cases h₁ : c = squote
    · subst h₁
      simp
    · by_cases h₂ : c = dquote
      · subst h₂
        simp
      · simp [h₁, h₂]
  | sq =>
    simp only [hc, if_false, Quote.mark, nextQuote]
    split_ifs <;> rfl
  | dq =>
    simp only [hc, if_false, Quote.mark, nextQuote]
    split_ifs <;> rfl

end Scans

/-- **Up to a misread quote the two scans agree**: without one they find the same, and
with one each goes on from there in its own quotes. -/
theorem controlOperatorFrom_eq (m : Quote) (s : List Byte) :
    match misread m s with
    | none => controlOperatorFrom m.mark s = operatorFrom m s
    | some r => controlOperatorFrom m.mark s = controlOperatorFrom none r ∧
        operatorFrom m s = operatorFrom .sq r := by
  have hout : Quote.out ≠ .sq := by decide
  have hsq : Quote.sq ≠ .out := by decide
  have hdq : Quote.dq ≠ .sq := by decide
  have hdq' : Quote.dq ≠ .out := by decide
  fun_induction misread m s with
  | case1 m => cases m <;> rfl
  | case2 c s hop =>
    exact (controlOperatorFrom_operator hop).trans (operatorFrom_operator hop).symm
  | case3 hop =>
    exact (controlOperatorFrom_last _).trans operatorFrom_last.symm
  | case4 d s hop ih =>
    rw [controlOperatorFrom_escape, operatorFrom_escape (m := .out) fun h => absurd h hout]
    exact ih
  | case5 c s hop hc ih =>
    have hop : (operatorKind c).isSome = false := Bool.eq_false_iff.2 hop
    rw [controlOperatorFrom_char (fun _ => hop) hc, operatorFrom_char (fun _ => hop) hc]
    exact ih
  | case6 => exact (controlOperatorFrom_last _).trans operatorFrom_last.symm
  | case7 s hs =>
    -- an even number of backslashes before a single quote
    obtain ⟨r, rfl⟩ : ∃ r, s = squote :: r := by
      cases s with
      | nil => cases hs
      | cons d r => exact ⟨r, by rw [Option.some.inj hs]⟩
    constructor
    · rw [controlOperatorFrom_escape,
        controlOperatorFrom_char (m := .sq) (fun h => absurd h hsq) (by decide)]
      rfl
    · rw [operatorFrom_not_escape (head?_backslash _), operatorFrom_escape fun _ => rfl]
      rfl
  | case8 s hs ih =>
    rw [controlOperatorFrom_escape, operatorFrom_not_escape (head?_backslash s),
      operatorFrom_not_escape hs]
    exact ih
  | case9 d s hd ih =>
    rw [controlOperatorFrom_escape]
    by_cases hq : d = squote
    · rw [operatorFrom_escape fun _ => hq]
      exact ih
    · rw [operatorFrom_not_escape (s := d :: s) fun h => hq (Option.some.inj h),
        operatorFrom_char (m := .sq) (fun h => absurd h hsq) hd, nextQuote, if_neg hq]
      exact ih
  | case10 c s hc ih =>
    rw [controlOperatorFrom_char (m := .sq) (fun h => absurd h hsq) hc,
      operatorFrom_char (m := .sq) (fun h => absurd h hsq) hc]
    exact ih
  | case11 => exact (controlOperatorFrom_last _).trans operatorFrom_last.symm
  | case12 d s ih =>
    rw [controlOperatorFrom_escape, operatorFrom_escape (m := .dq) fun h => absurd h hdq]
    exact ih
  | case13 c s hc ih =>
    rw [controlOperatorFrom_char (m := .dq) (fun h => absurd h hdq') hc,
      operatorFrom_char (m := .dq) (fun h => absurd h hdq') hc]
    exact ih

theorem any_joinGt (ks : List Kind) :
    (joinGt ks).any (· ≠ .word) = ks.any (· ≠ .word) := by
  fun_induction joinGt ks with
  | case1 ks ih => simp
  | case2 k ks h ih => rw [List.any_cons, List.any_cons, ih]
  | case3 => rfl

theorem any_shapeFrom (b : Bool) (ts : List Tok) :
    (shapeFrom b ts).any (· ≠ .word) = !(operators ts).isEmpty := by
  induction ts generalizing b with
  | nil => rfl
  | cons t ts ih =>
    by_cases ht : t.kind = .word
    · have hops : operators (t :: ts) = operators ts := by
        rw [operators, List.map_cons, List.filter_cons_of_neg (by simp [ht]), operators]
      obtain ⟨w, rfl⟩ : ∃ w, t = .word w := by
        cases t <;> first | exact ⟨_, rfl⟩ | exact absurd ht (by decide)
      rw [shapeFrom_word, hops]
      cases b
      · rw [if_neg (by decide), List.any_cons, ih]
        rfl
      · rw [if_pos rfl, ih]
    · have hops : operators (t :: ts) = t.kind :: operators ts := by
        rw [operators, List.map_cons, List.filter_cons_of_pos (by simpa using ht), operators]
      rw [shapeFrom_operator ht, hops, List.any_cons, decide_eq_true ht, Bool.true_or]
      rfl

/-- The operators of a text, byte by byte. -/
theorem operatorFrom_out (c : Cursor) :
    operatorFrom .out c.rest = !(operators (tokens c)).isEmpty := by
  rw [operatorFrom, ← any_joinGt, (shape_eq c).2, any_shapeFrom]

theorem agrees_iff (line : CStr) :
    Agrees line ↔ controlOperatorFrom none line.bytes = operatorFrom .out line.bytes := by
  have hops : (operators (tokens line.cursor) ≠ []) ↔ operatorFrom .out line.bytes = true := by
    rw [show line.bytes = line.cursor.rest from rfl, operatorFrom_out, Bool.not_eq_true',
      ← Bool.not_eq_true, List.isEmpty_iff]
  rw [Agrees, hops, lineHasControlOperator, ← Bool.eq_iff_iff]

/-! ### What follows a misread quote -/

section Rest

variable {c : Byte} {n : ℕ} {m : Quote} {p r s t : List Byte}

theorem operatorAfter_nil : ¬OperatorAfter n [] := by
  rintro ⟨a, c, b, hnil, -⟩
  exact absurd hnil.symm (List.append_ne_nil_of_right_ne_nil _ (List.cons_ne_nil _ _))

theorem operatorAfter_cons : OperatorAfter n (c :: s) ↔
    ((operatorKind c).isSome ∧ n % 2 = 0) ∨ OperatorAfter (n + if c = squote then 1 else 0) s := by
  constructor
  · rintro ⟨a, d, b, heq, hop, hn⟩
    cases a with
    | nil =>
      obtain ⟨rfl, -⟩ := List.cons.inj heq
      exact .inl ⟨hop, hn⟩
    | cons e a =>
      obtain ⟨rfl, rfl⟩ := List.cons.inj heq
      refine .inr ⟨a, d, b, rfl, hop, ?_⟩
      simp only [List.count_cons, beq_iff_eq] at hn
      omega
  · rintro (⟨hop, hn⟩ | ⟨a, d, b, rfl, hop, hn⟩)
    · exact ⟨[], c, s, rfl, hop, hn⟩
    · refine ⟨c :: a, d, b, rfl, hop, ?_⟩
      simp only [List.count_cons, beq_iff_eq]
      omega

/-- The bytes of a text without escapes lie outside quotes after an even number of single
quotes, for a scan that tells the regions apart as both scans do. -/
theorem scan_iff {f : Quote → List Byte → Bool} (hnil : ∀ m, f m [] = false)
    (hop : ∀ c s, (operatorKind c).isSome → f .out (c :: s) = true)
    (hchar : ∀ m c s, (m = .out → (operatorKind c).isSome = false) → c ≠ backslash →
      f m (c :: s) = f (nextQuote m c) s) (ht : Unescaped t) :
    (f .out t = true ↔ OperatorAfter 0 t) ∧ (f .sq t = true ↔ OperatorAfter 1 t) := by
  have hparity : ∀ n, OperatorAfter (n + 2) = OperatorAfter n := by
    intro n
    funext s
    unfold OperatorAfter
    simp only [Nat.add_right_comm n 2, Nat.add_mod_right]
  induction t with
  | nil =>
    rw [hnil, hnil]
    exact ⟨iff_of_false Bool.false_ne_true operatorAfter_nil,
      iff_of_false Bool.false_ne_true operatorAfter_nil⟩
  | cons c s ih =>
    obtain ⟨hb, hd⟩ := ht
    obtain ⟨hb, hbs⟩ := not_or.1 (List.mem_cons.not.1 hb)
    obtain ⟨hd, hds⟩ := not_or.1 (List.mem_cons.not.1 hd)
    obtain ⟨hout, hsq⟩ := ih ⟨hbs, hds⟩
    have hb' : c ≠ backslash := fun h => hb h.symm
    have hd' : c ≠ dquote := fun h => hd h.symm
    rw [operatorAfter_cons, operatorAfter_cons, hchar .sq c s nofun hb']
    constructor
    · by_cases hc : (operatorKind c).isSome
      · exact iff_of_true (hop c s hc) (.inl ⟨hc, rfl⟩)
      · rw [hchar .out c s (fun _ => Bool.eq_false_iff.2 hc) hb',
          or_iff_right fun h => hc h.1, nextQuote]
        by_cases hq : c = squote
        · rw [if_pos hq, if_pos hq]
          exact hsq
        · rw [if_neg hq, if_neg hq, if_neg hd']
          exact hout
    · rw [or_iff_right fun h => absurd h.2 (by decide), nextQuote]
      by_cases hq : c = squote
      · rw [if_pos hq, if_pos hq, hparity 0]
        exact hout
      · rw [if_neg hq, if_neg hq]
        exact hsq

/-- **The misread quote does not depend on what follows it.** -/
theorem misread_eq_some (h : misread m s = some r) :
    ∃ p, p ≠ [] ∧ s = p ++ r ∧ ∀ t, misread m (p ++ t) = some t := by
  fun_induction misread m s with
  | case1 => cases h
  | case2 => cases h
  | case3 => cases h
  | case4 d s hop ih =>
    obtain ⟨p, -, rfl, hp⟩ := ih h
    refine ⟨backslash :: d :: p, List.cons_ne_nil _ _, rfl, fun t => ?_⟩
    rw [← hp t, List.cons_append, List.cons_append, misread, if_neg hop, if_pos rfl]
  | case5 c s hop hc ih =>
    obtain ⟨p, -, rfl, hp⟩ := ih h
    refine ⟨c :: p, List.cons_ne_nil _ _, rfl, fun t => ?_⟩
    rw [← hp t, List.cons_append, misread.eq_def]
    dsimp only
    rw [if_neg hop, if_neg hc]
  | case6 => cases h
  | case7 s hs =>
    cases s with
    | nil => cases hs
    | cons d s =>
      obtain rfl : d = squote := Option.some.inj hs
      obtain rfl : s = r := Option.some.inj h
      exact ⟨[backslash, backslash, squote], List.cons_ne_nil _ _, rfl, fun t => rfl⟩
  | case8 s hs ih =>
    obtain ⟨p, hne, rfl, hp⟩ := ih h
    refine ⟨backslash :: backslash :: p, List.cons_ne_nil _ _, rfl, fun t => ?_⟩
    rw [List.head?_append_of_ne_nil _ hne] at hs
    rw [← hp t, List.cons_append, List.cons_append, misread.eq_def]
    dsimp only
    rw [if_pos rfl, if_pos rfl, List.head?_append_of_ne_nil _ hne, if_neg hs]
  | case9 d s hd ih =>
    obtain ⟨p, -, rfl, hp⟩ := ih h
    refine ⟨backslash :: d :: p, List.cons_ne_nil _ _, rfl, fun t => ?_⟩
    rw [← hp t, List.cons_append, List.cons_append, misread.eq_def]
    dsimp only
    rw [if_pos rfl, if_neg hd]
  | case10 c s hc ih =>
    obtain ⟨p, -, rfl, hp⟩ := ih h
    refine ⟨c :: p, List.cons_ne_nil _ _, rfl, fun t => ?_⟩
    rw [← hp t, List.cons_append, misread.eq_def]
    dsimp only
    rw [if_neg hc]
  | case11 => cases h
  | case12 d s ih =>
    obtain ⟨p, -, rfl, hp⟩ := ih h
    refine ⟨backslash :: d :: p, List.cons_ne_nil _ _, rfl, fun t => ?_⟩
    rw [← hp t, List.cons_append, List.cons_append, misread, if_pos rfl]
  | case13 c s hc ih =>
    obtain ⟨p, -, rfl, hp⟩ := ih h
    refine ⟨c :: p, List.cons_ne_nil _ _, rfl, fun t => ?_⟩
    rw [← hp t, List.cons_append, misread.eq_def]
    dsimp only
    rw [if_neg hc]

/-- Without the byte of an operator neither scan finds one. -/
theorem scans_false (hs : ∀ c ∈ s, (operatorKind c).isSome = false) (m : Quote) :
    controlOperatorFrom m.mark s = false ∧ operatorFrom m s = false := by
  generalize hn : s.length = n
  induction n using Nat.strong_induction_on generalizing s m with
  | h n ih =>
    rcases s with _ | ⟨c, s⟩
    · cases m <;> exact ⟨rfl, rfl⟩
    obtain ⟨hc, hs'⟩ := List.forall_mem_cons.1 hs
    by_cases hb : c = backslash
    · subst hb
      rcases s with _ | ⟨d, s⟩
      · exact ⟨controlOperatorFrom_last _, operatorFrom_last⟩
      obtain ⟨hd, hs''⟩ := List.forall_mem_cons.1 hs'
      obtain ⟨hctl, hop⟩ := ih s.length (by rw [← hn, List.length_cons, List.length_cons]; omega)
        hs'' m rfl
      refine ⟨(controlOperatorFrom_escape _).trans hctl, ?_⟩
      by_cases hq : m = .sq → d = squote
      · exact (operatorFrom_escape hq).trans hop
      · obtain ⟨rfl, hd⟩ := Classical.not_imp.1 hq
        rw [operatorFrom_not_escape (s := d :: s) fun h => hd (Option.some.inj h)]
        exact (ih (d :: s).length (by rw [← hn]; simp) hs' .sq rfl).2
    · obtain ⟨hctl, hop⟩ := ih s.length (by rw [← hn]; simp) hs' (nextQuote m c) rfl
      exact ⟨(controlOperatorFrom_char (fun _ => hc) hb).trans hctl,
        (operatorFrom_char (fun _ => hc) hb).trans hop⟩

end Rest

/-- **When the test for operators is right.**  `line_has_control_operator` returns 1 for
exactly the lines with an operator token, if no single quote before the first operator
is misread, or if no byte of an operator follows it.  And where one is misread, then of the lines
that begin as this one up to there and go on without a backslash or a double quote, those are
right in which an operator stands after an even number of further single quotes if and only if one
stands after an odd number of them. -/
theorem lineHasControlOperator_agrees (line : CStr) :
    ((∀ r, misread .out line.bytes = some r → ∀ c ∈ r, (operatorKind c).isSome = false) →
      Agrees line) ∧
    ∀ r, misread .out line.bytes = some r → ∃ p, line.bytes = p ++ r ∧
      ∀ (line' : CStr) t, line'.bytes = p ++ t → Unescaped t →
        (Agrees line' ↔ (OperatorAfter 0 t ↔ OperatorAfter 1 t)) := by
  constructor
  · intro hrest
    have hscan := controlOperatorFrom_eq .out line.bytes
    rw [agrees_iff]
    cases hr : misread .out line.bytes with
    | none =>
      rw [hr] at hscan
      exact hscan
    | some r =>
      rw [hr] at hscan
      exact (hscan.1.trans (scans_false (hrest r hr) .out).1).trans
        (hscan.2.trans (scans_false (hrest r hr) .sq).2).symm
  · intro r hr
    obtain ⟨p, -, heq, hp⟩ := misread_eq_some hr
    refine ⟨p, heq, fun line' t ht hplain => ?_⟩
    have hscan := controlOperatorFrom_eq .out line'.bytes
    rw [ht, hp t, ← ht] at hscan
    obtain ⟨hctl, hop⟩ := hscan
    have hctl' := (scan_iff (f := fun m => controlOperatorFrom m.mark) (fun m => by cases m <;> rfl)
      (fun c s => controlOperatorFrom_operator) (fun m c s => controlOperatorFrom_char) hplain).1
    have hop' := (scan_iff (f := operatorFrom) (fun m => by cases m <;> rfl)
      (fun c s => operatorFrom_operator) (fun m c s => operatorFrom_char) hplain).2
    rw [agrees_iff, ← hctl', ← hop']
    have hmark : controlOperatorFrom none line'.bytes = controlOperatorFrom none t := hctl
    rw [hmark, hop, Bool.eq_iff_iff]
    rfl

/-- `a ';';` has no misread quote, `'\\'x` (two backslashes between single quotes, and a letter) has
nothing after it that could be an operator, and `'\\';';` has an operator for both scans. -/
theorem lineHasControlOperator_agrees_quoted :
    Agrees ⟨[97, 32, 39, 59, 39, 59], by decide⟩ ∧ Agrees ⟨[39, 92, 92, 39, 120], by decide⟩ ∧
      Agrees ⟨[39, 92, 92, 39, 59, 39, 59], by decide⟩ := by
  refine ⟨(lineHasControlOperator_agrees _).1 fun r hr => ?_,
    (lineHasControlOperator_agrees _).1 fun r hr => ?_, ?_⟩
  · have hnone : misread .out [97, 32, 39, 59, 39, 59] = none := by decide
    exact absurd (hnone.symm.trans hr) nofun
  · have hsome : misread .out [39, 92, 92, 39, 120] = some [120] := by decide
    obtain rfl := Option.some.inj (hsome.symm.trans hr)
    decide +kernel
  · have hsome : misread .out [39, 92, 92, 39, 59, 39, 59] = some [59, 39, 59] := by decide
    obtain ⟨p, hp, hagrees⟩ :=
      (lineHasControlOperator_agrees ⟨[39, 92, 92, 39, 59, 39, 59], by decide⟩).2 _ hsome
    refine (hagrees _ _ hp ⟨by decide, by decide⟩).2 (iff_of_true ?_ ?_)
    · exact ⟨[], 59, [39, 59], rfl, by decide, by decide⟩
    · exact ⟨[59, 39], 59, [], rfl, by decide, by decide⟩

/-- **The test finds an operator that is not there**: `'\\';` (two backslashes between
single quotes, and a semicolon) is one word for `gettoken`, whose quote is not closed. -/
theorem lineHasControlOperator_fails :
    let line : CStr := ⟨[39, 92, 92, 39, 59], by decide⟩
    lineHasControlOperator line = true ∧ operators (tokens line.cursor) = [] := by
  refine ⟨by decide, by decide⟩

end Shell
end V6User
