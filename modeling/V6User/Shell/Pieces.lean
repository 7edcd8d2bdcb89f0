import V6User.Shell.Expand

/-!
# The pieces of a line

`programs/sh/sh.c`: `expand_env_vars` without its buffer.

Which bytes of a line are copied and which belong to a reference does not depend on the
environment: `pieces` is the line cut into the two.  The complete expansion is the text
of the pieces, one after the other (`fullText`), and `expand_env_vars` leaves as much of
it as the buffer holds (`expandLoop_out`); it reports a line that is too long exactly
when the buffer is full before the last piece (`expandLoop_truncated_iff`).
-/

namespace V6User
namespace Shell

/-- A byte of a line that is copied, or a reference. -/
inductive Piece where
  | byte (b : Byte)
  | ref (r : Ref)
  deriving DecidableEq, Repr

/-- The pieces of a line; `quoted` and `skip` are those of the loop of
`expand_env_vars`. -/
def pieces : Bool → ℕ → List Byte → List Piece
  | _, _, [] => []
  | quoted, skip + 1, _ :: p => pieces quoted skip p
  | quoted, 0, c :: p =>
    if quoted then .byte c :: pieces (c != squote) 0 p
    else if c = squote then .byte c :: pieces true 0 p
    else if c = dollar then
      match refAfter p with
      | some r => .ref r :: pieces false r.len p
      | none => .byte c :: pieces false 0 p
    else .byte c :: pieces false 0 p

/-- What a piece stands for. -/
def Piece.text (env : Env) (pid : ℕ) : Piece → List Byte
  | .byte b => [b]
  | .ref r => r.value env pid

/-- The text of a row of pieces. -/
def fullText (env : Env) (pid : ℕ) (ps : List Piece) : List Byte := ps.flatMap (Piece.text env pid)

/-- The complete expansion of a line. -/
def fullExpansion (env : Env) (pid : ℕ) (line : CStr) : List Byte :=
  fullText env pid (pieces false 0 line.bytes)

section Text

variable {env : Env} {pid : ℕ}

@[simp] theorem fullText_nil : fullText env pid [] = [] := rfl

theorem fullText_cons (x : Piece) (ps : List Piece) :
    fullText env pid (x :: ps) = x.text env pid ++ fullText env pid ps := rfl

theorem fullText_append (ps qs : List Piece) :
    fullText env pid (ps ++ qs) = fullText env pid ps ++ fullText env pid qs :=
  List.flatMap_append

theorem fullText_map_byte (l : List Byte) : fullText env pid (l.map .byte) = l := by
  induction l with
  | nil => rfl
  | cons b l ih => rw [List.map_cons, fullText_cons, ih]; rfl

theorem emit_eq (out val : List Byte) (h : out.length ≤ expandMax) :
    emit out val = (out ++ val).take expandMax := by
  rw [emit, List.take_append, List.take_of_length_le h]

theorem take_take_append (n : ℕ) (s t : List Byte) :
    (s.take n ++ t).take n = (s ++ t).take n := by
  by_cases h : s.length ≤ n
  · rw [List.take_of_length_le h]
  · have hlen : (s.take n).length = n := List.length_take_of_le (Nat.le_of_not_le h)
    rw [List.take_append_of_le_length (Nat.le_of_eq hlen.symm),
      List.take_append_of_le_length (Nat.le_of_not_le h), List.take_take, Nat.min_self]

theorem length_emit_le {out : List Byte} (h : out.length ≤ expandMax) (val : List Byte) :
    (emit out val).length ≤ expandMax := by
  rw [emit_eq out val h, List.length_take]
  exact Nat.min_le_left _ _

/-- **What the expander leaves**: the complete expansion, as far as the buffer holds it. -/
theorem expandLoop_out (q : Bool) (k : ℕ) (p out : List Byte) (h : out.length ≤ expandMax) :
    (expandLoop env pid q k p out).out =
      (out ++ fullText env pid (pieces q k p)).take expandMax := by
  have hroom : ∀ {c : Byte} {out : List Byte}, ¬expandMax ≤ out.length →
      (out ++ [c]).length ≤ expandMax := by
    intro c out hmax
    rw [List.length_append, List.length_singleton]
    omega
  fun_induction expandLoop env pid q k p out with
  | case1 q k out => rw [pieces, fullText_nil, List.append_nil, List.take_of_length_le h]
  | case2 q k c p out ih => rw [pieces]; exact ih h
  | case3 q c p out hmax =>
    have hlen : out.length = expandMax := Nat.le_antisymm h hmax
    rw [List.take_append, hlen, Nat.sub_self, List.take_zero, List.append_nil,
      List.take_of_length_le h]
  | case4 c p out hmax ih =>
    rw [pieces, if_pos rfl, fullText_cons]
    simpa [Piece.text, Expansion.after] using ih (hroom hmax)
  | case5 q p out hmax hq ih =>
    rw [pieces, if_neg hq, if_pos rfl, fullText_cons]
    simpa [Piece.text, Expansion.after] using ih (hroom hmax)
  | case6 q p out hmax hq r hr hne ih =>
    rw [pieces, if_neg hq, if_neg hne, if_pos rfl, hr]
    dsimp only
    rw [fullText_cons, Piece.text, ← List.append_assoc, ← take_take_append, ← emit_eq _ _ h]
    exact ih (length_emit_le h _)
  | case7 q p out hmax hq hr hne ih =>
    rw [pieces, if_neg hq, if_neg hne, if_pos rfl, hr]
    dsimp only
    rw [fullText_cons]
    simpa [Piece.text, Expansion.after] using ih (hroom hmax)
  | case8 q c p out hmax hq hs hd ih =>
    rw [pieces, if_neg hq, if_neg hs, if_neg hd, fullText_cons]
    simpa [Piece.text, Expansion.after] using ih (hroom hmax)

/-- **When the expander reports that the line is too long**: the buffer is full before
the last piece. -/
theorem expandLoop_truncated_iff (q : Bool) (k : ℕ) (p out : List Byte)
    (h : out.length ≤ expandMax) :
    (expandLoop env pid q k p out).truncated = true ↔
      pieces q k p ≠ [] ∧
        expandMax ≤ out.length + (fullText env pid (pieces q k p).dropLast).length := by
  -- what is left after a piece that the buffer has room to begin
  have hstep : ∀ (out : List Byte) (x : Piece) (ps : List Piece) (n : ℕ),
      ¬expandMax ≤ out.length → n = min (out.length + (x.text env pid).length) expandMax →
      ((ps ≠ [] ∧ expandMax ≤ n + (fullText env pid ps.dropLast).length) ↔
        (x :: ps ≠ [] ∧
          expandMax ≤ out.length + (fullText env pid (x :: ps).dropLast).length)) := by
    intro out x ps n hmax hn
    cases ps with
    | nil =>
      simp only [ne_eq, not_true_eq_false, false_and, List.dropLast_singleton, fullText_nil,
        List.length_nil, false_iff]
      exact fun hle => hmax hle.2
    | cons y ps =>
      rw [List.dropLast_cons_cons, fullText_cons, List.length_append]
      simp only [ne_eq, reduceCtorEq, not_false_eq_true, true_and]
      omega
  have hbyte : ∀ (out : List Byte) (c : Byte), ¬expandMax ≤ out.length →
      (out ++ [c]).length = min (out.length + ((Piece.byte c).text env pid).length) expandMax := by
    intro out c hmax
    rw [List.length_append, Piece.text, List.length_singleton]
    omega
  have hroom : ∀ {c : Byte} {out : List Byte}, ¬expandMax ≤ out.length →
      (out ++ [c]).length ≤ expandMax := by
    intro c out hmax
    rw [List.length_append, List.length_singleton]
    omega
  fun_induction expandLoop env pid q k p out with
  | case1 q k out =>
    rw [pieces]
    simp
  | case2 q k c p out ih => rw [pieces]; exact ih h
  | case3 q c p out hmax =>
    have hne : pieces q 0 (c :: p) ≠ [] := by
      rw [pieces]
      split_ifs <;> first | exact List.cons_ne_nil _ _ | (split <;> exact List.cons_ne_nil _ _)
    simp only [true_iff]
    exact ⟨hne, hmax.trans (Nat.le_add_right _ _)⟩
  | case4 c p out hmax ih =>
    rw [pieces, if_pos rfl, ← hstep out _ _ _ hmax (hbyte out c hmax)]
    exact ih (hroom hmax)
  | case5 q p out hmax hq ih =>
    rw [pieces, if_neg hq, if_pos rfl, ← hstep out _ _ _ hmax (hbyte out _ hmax)]
    exact ih (hroom hmax)
  | case6 q p out hmax hq r hr hne ih =>
    rw [pieces, if_neg hq, if_neg hne, if_pos rfl, hr]
    have hlen : (emit out (r.value env pid)).length =
        min (out.length + ((Piece.ref r).text env pid).length) expandMax := by
      rw [emit_eq _ _ h, List.length_take, List.length_append, Nat.min_comm]
      rfl
    dsimp only
    rw [← hstep out _ _ _ hmax hlen]
    exact ih (length_emit_le h _)
  | case7 q p out hmax hq hr hne ih =>
    rw [pieces, if_neg hq, if_neg hne, if_pos rfl, hr]
    dsimp only
    rw [← hstep out _ _ _ hmax (hbyte out _ hmax)]
    exact ih (hroom hmax)
  | case8 q c p out hmax hq hs hd ih =>
    rw [pieces, if_neg hq, if_neg hs, if_neg hd, ← hstep out _ _ _ hmax (hbyte out c hmax)]
    exact ih (hroom hmax)

/-- The expanded line, where the buffer holds the complete expansion. -/
theorem expanded_bytes (line : CStr) (h : (fullExpansion env pid line).length ≤ expandMax) :
    (expanded env pid line).bytes = fullExpansion env pid line := by
  have hout : (expandLoop env pid false 0 line.bytes []).out =
      ([] ++ fullExpansion env pid line).take expandMax :=
    expandLoop_out false 0 line.bytes [] (Nat.zero_le _)
  rw [List.nil_append] at hout
  exact hout.trans (List.take_of_length_le h)

end Text

/-! ### Lines put together -/

/-- A reference that is not a `${` without its `}`. -/
def Ref.closed : Ref → Bool
  | .braced _ closed => closed
  | _ => true

/-- No `${` of the line is left open. -/
def Closed (line : CStr) : Prop := ∀ r, .ref r ∈ pieces false 0 line.bytes → r.closed = true

/-- A byte that does not go on with a reference. -/
structure EndsRef (d : Byte) : Prop where
  name : envNameChar d = false
  lbrace : d ≠ lbrace
  dollar : d ≠ dollar
  status : d ≠ 63
  rbrace : d ≠ rbrace

section Append

variable {d : Byte}

theorem refAfter_singleton (hd : EndsRef d) : refAfter [d] = none := by
  have hstart : envNameStart d = false := by
    have hname := hd.name
    rw [envNameChar, Bool.or_eq_false_iff] at hname
    exact hname.1
  rw [refAfter, if_neg hd.lbrace, if_neg hd.dollar, if_neg hd.status, hstart]
  rfl

theorem refAfter_append_none (hd : EndsRef d) {p : List Byte} (h : refAfter p = none) :
    refAfter (p ++ [d]) = none := by
  cases p with
  | nil => exact refAfter_singleton hd
  | cons c p =>
    rw [refAfter] at h
    rw [List.cons_append, refAfter]
    split_ifs at h ⊢
    rfl

theorem refAfter_append {p : List Byte} (hd : EndsRef d) {r : Ref} (h : refAfter p = some r)
    (hclosed : r.closed = true) : refAfter (p ++ [d]) = some r := by
  cases p with
  | nil => exact absurd h nofun
  | cons c p =>
    rw [refAfter] at h
    rw [List.cons_append, refAfter]
    split_ifs at h ⊢ with hl hdol hst hname
    · obtain rfl := Option.some.inj h
      have hmem : p.contains rbrace = true := hclosed
      have htake : (p ++ [d]).takeWhile (· != rbrace) = p.takeWhile (· != rbrace) := by
        rw [List.takeWhile_append, if_neg]
        intro hlen
        have hall := (List.takeWhile_prefix (· != rbrace)).eq_of_length hlen
        have := List.takeWhile_eq_self_iff.1 hall rbrace (List.contains_iff_mem.1 hmem)
        simp at this
      have hcontains : (p ++ [d]).contains rbrace = p.contains rbrace := by
        rw [hmem, List.contains_iff_mem]
        exact List.mem_append_left _ (List.contains_iff_mem.1 hmem)
      rw [htake, hcontains]
    · exact h
    · exact h
    · obtain rfl := Option.some.inj h
      have htake : ((c :: p) ++ [d]).takeWhile envNameChar = (c :: p).takeWhile envNameChar := by
        have hnil : [d].takeWhile envNameChar = [] :=
          List.takeWhile_cons_of_neg (by rw [hd.name]; exact Bool.false_ne_true)
        rw [List.takeWhile_append, hnil, List.append_nil]
        split_ifs with hlen
        · exact ((List.takeWhile_prefix _).eq_of_length hlen).symm
        · rfl
      rw [← List.cons_append, htake]

theorem len_refAfter_le {p : List Byte} {r : Ref} (h : refAfter p = some r) : r.len ≤ p.length := by
  cases p with
  | nil => exact absurd h nofun
  | cons c p =>
    have hbrace := (List.takeWhile_prefix (l := p) (· != rbrace)).length_le
    have hname := (List.takeWhile_prefix (l := c :: p) envNameChar).length_le
    rw [refAfter] at h
    split_ifs at h with hl hdol hst hn
    · obtain rfl := Option.some.inj h
      rw [Ref.len, List.length_cons]
      split_ifs with hmem
      · have hne : (p.takeWhile (· != rbrace)).length ≠ p.length := by
          intro hlen
          have hall := (List.takeWhile_prefix (· != rbrace)).eq_of_length hlen
          have := List.takeWhile_eq_self_iff.1 hall rbrace (List.contains_iff_mem.1 hmem)
          simp at this
        omega
      · omega
    · obtain rfl := Option.some.inj h
      exact Nat.succ_le_succ (Nat.zero_le _)
    · obtain rfl := Option.some.inj h
      exact Nat.succ_le_succ (Nat.zero_le _)
    · obtain rfl := Option.some.inj h
      exact hname

/-- A byte at the end of a line without an open reference is a piece of its own. -/
theorem pieces_append (hd : EndsRef d) (q : Bool) (k : ℕ) (p : List Byte) (hk : k ≤ p.length)
    (hclosed : ∀ r, .ref r ∈ pieces q k p → r.closed = true) :
    pieces q k (p ++ [d]) = pieces q k p ++ [.byte d] := by
  have hrest : ∀ {x : Piece} {ps : List Piece}, (∀ r, .ref r ∈ x :: ps → r.closed = true) →
      ∀ r, .ref r ∈ ps → r.closed = true :=
    fun h r hr => h r (List.mem_cons_of_mem _ hr)
  fun_induction pieces q k p with
  | case1 q k =>
    obtain rfl : k = 0 := Nat.le_zero.1 hk
    simp [pieces, hd.dollar]
  | case2 q k c p ih =>
    rw [List.cons_append, pieces]
    exact ih (Nat.le_of_succ_le_succ hk) hclosed
  | case3 c p ih =>
    rw [List.cons_append, pieces, if_pos rfl, ih (Nat.zero_le _) (hrest hclosed)]
    rfl
  | case4 q p hq ih =>
    rw [List.cons_append, pieces, if_neg hq, if_pos rfl, ih (Nat.zero_le _) (hrest hclosed)]
    rfl
  | case5 q p hq r hr hne ih =>
    have hr' := refAfter_append hd hr (hclosed r List.mem_cons_self)
    rw [List.cons_append, pieces, if_neg hq, if_neg hne, if_pos rfl, hr']
    dsimp only
    rw [ih (len_refAfter_le hr) (hrest hclosed)]
    rfl
  | case6 q p hq hr hne ih =>
    rw [List.cons_append, pieces, if_neg hq, if_neg hne, if_pos rfl, refAfter_append_none hd hr]
    dsimp only
    rw [ih (Nat.zero_le _) (hrest hclosed)]
    rfl
  | case7 q c p hq hs hdol ih =>
    rw [List.cons_append, pieces, if_neg hq, if_neg hs, if_neg hdol,
      ih (Nat.zero_le _) (hrest hclosed)]
    rfl

/-- Bytes at the start of a line that the expander copies. -/
theorem pieces_prefix {l : List Byte} (h : ∀ b ∈ l, b ≠ squote ∧ b ≠ dollar) (p : List Byte) :
    pieces false 0 (l ++ p) = l.map .byte ++ pieces false 0 p := by
  induction l with
  | nil => rfl
  | cons b l ih =>
    obtain ⟨hs, hd⟩ := h b List.mem_cons_self
    rw [List.cons_append, pieces, if_neg Bool.false_ne_true, if_neg hs, if_neg hd,
      ih fun d hd => h d (List.mem_cons_of_mem b hd)]
    rfl

end Append
end Shell
end V6User
