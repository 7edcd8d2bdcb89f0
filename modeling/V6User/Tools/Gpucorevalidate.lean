import V6User.Base.Lines
import V6User.Tools.ParseNum

/-!
# Counters that `gpucorevalidate` reads

`programs/gpucorevalidate/gpucorevalidate.c`: `output_has_token`, `parse_u64` and
`read_line_counter`.

The lines of a captured output are told apart by an anchor.  `output_has_token` takes a line
where the anchor stands between blanks; `read_line_counter` takes one that contains it anywhere,
also within a longer word, and reads the number after `key=` there in 64 bits that wrap.  So the
counter is the one of the first line that has the anchor as a token exactly when both find the
same line first and its number fits, or neither line has a number to be read
(`readLineCounter_spec_iff`).
-/

namespace V6User
namespace Tools
namespace Gpucorevalidate

open Shell (Byte)
open CInt Lines Numeral

/-- A string whose length is an `int`, as `strlen` counts.  The strings here are literals of the
program, and outputs that `run_child_capture` holds in at most 131072 bytes. -/
structure Text where
  bytes : List Byte
  nul_free : 0 ∉ bytes
  length_lt : bytes.length < 2 ^ 31

/-- `strlen(s)`. -/
def strlen (s : Text) : UInt32 := .ofNat s.bytes.length

/-- `memcmp(p, t, len) == 0`, where `p` is a place in the line. -/
def sameAt (line : List Byte) (p : ℕ) (t : Text) (len : UInt32) : Bool :=
  (line.drop p).take len.toNat = t.bytes.take len.toNat

/-- `token_boundary(c)`. -/
def tokenBoundary (c : Byte) : Bool := c = 0 || c = 32 || c = 9 || c = 10 || c = 13

/-- `output_token_match_at(start, end, p, token, len)`. -/
def outputTokenMatchAt (line : List Byte) (p : ℕ) (token : Text) (len : UInt32) : Bool :=
  if p ≠ 0 && !tokenBoundary (line.getD (p - 1) 0) then false
  else if !sameAt line p token len then false
  else if p + len.toNat = line.length || tokenBoundary (line.getD (p + len.toNat) 0) then true
  else 0 < len && token.bytes.getD (len.toNat - 1) 0 = 61

/-- `output_has_token(start, end, token)`. -/
def outputHasToken (line : List Byte) (token : Text) : Bool :=
  let len := strlen token
  if len = 0 then true
  else if UInt32.ofNat line.length < len then false
  else (List.range (line.length - len.toNat + 1)).any fun p => outputTokenMatchAt line p token len

/-- The loop of `parse_u64`: `v` and `digits` after it. -/
def parseLoop (v : UInt64) (digits : ℤ) : List Byte → UInt64 × ℤ
  | [] => (v, digits)
  | c :: s =>
    if 48 ≤ c ∧ c ≤ 57 then parseLoop (v * 10 + .ofNat (c.toNat - 48)) (int32 (digits + 1)) s
    else (v, digits)

/-- `parse_u64(p, end, value)`: what is stored in `*value`, if the result is not `-1`. -/
def parseU64 (s : List Byte) : Option UInt64 :=
  let r := parseLoop 0 0 s
  if r.2 = 0 then none else some r.1

/-- The loop of `read_line_counter` that sets `has_anchor`. -/
def hasAnchor (line : List Byte) (anchor : Text) : Bool :=
  (List.range line.length).any fun p =>
    p + (strlen anchor).toNat ≤ line.length && sameAt line p anchor (strlen anchor)

/-- The tests of `read_line_counter` for the key at a place in the line. -/
def keyAt (line : List Byte) (key : Text) (p : ℕ) : Bool :=
  let klen := (strlen key).toNat
  p + klen + 1 ≤ line.length && (p = 0 || line.getD (p - 1) 0 = 32) &&
    sameAt line p key (strlen key) && line.getD (p + klen) 0 = 61

/-- What `read_line_counter` returns for a line with the anchor. -/
def lineCounter (line : List Byte) (key : Text) : Option UInt64 :=
  ((List.range line.length).find? (keyAt line key)).bind fun p =>
    parseU64 (line.drop (p + (strlen key).toNat + 1))

/-- The loop of `read_line_counter` over the lines from number `n` on. -/
def readLines (anchor key : Text) : ℕ → List (List Byte) → Option (ℕ × UInt64)
  | _, [] => none
  | n, line :: lines =>
    if hasAnchor line anchor then (lineCounter line key).map (n, ·)
    else readLines anchor key (n + 1) lines

/-- `read_line_counter(output, anchor, key, value)`: what is stored in `*value`, if the result
is not `-1`, and the number of the line where `line` is then. -/
def readLineCounter (output anchor key : Text) : Option (ℕ × UInt64) :=
  readLines anchor key 0 (scanLines 10 output.bytes)

/-! ### The counter of a line -/

/-- The line has `key=` at its beginning or after a blank, between `before` and `rest`. -/
def Field (key : Text) (line before rest : List Byte) : Prop :=
  line = before ++ (key.bytes ++ 61 :: rest) ∧ (before = [] ∨ before.getLast? = some 32)

/-- The first such place. -/
def FirstField (key : Text) (line before rest : List Byte) : Prop :=
  Field key line before rest ∧
    ∀ before' rest', Field key line before' rest' → before.length ≤ before'.length

/-- The line has `key=` followed by a decimal numeral, which says `n`. -/
def HasCounter (key : Text) (line : List Byte) (n : ℕ) : Prop :=
  ∃ (before : List Byte) (digits : Digits decimalVal) (after : List Byte),
    FirstField key line before (digits.chars ++ after) ∧
      (∀ c ∈ after.head?, decimalVal c = none) ∧ digits.value 10 = n

/-- The line number `i` of the output has such a numeral. -/
def CounterIn (output key : Text) (i n : ℕ) : Prop :=
  ∃ line, (lines 10 output.bytes)[i]? = some line ∧ HasCounter key line n

/-- The number of the first line that is selected. -/
def firstLine (select : List Byte → Bool) (output : Text) : Option ℕ :=
  (lines 10 output.bytes).findIdx? select

variable {line before before' rest rest' : List Byte} {key anchor output : Text} {n p : ℕ}

theorem strlen_toNat (s : Text) : (strlen s).toNat = s.bytes.length :=
  UInt32.toNat_ofNat_of_lt' (s.length_lt.trans (by decide))

theorem Field.unique (h : Field key line before rest) (h' : Field key line before' rest')
    (hlen : before.length = before'.length) : before = before' ∧ rest = rest' := by
  obtain ⟨rfl, hrest⟩ := List.append_inj (h.1.symm.trans h'.1) hlen
  have hcons := List.append_cancel_left hrest
  exact ⟨rfl, (List.cons.inj hcons).2⟩

theorem FirstField.unique (h : FirstField key line before rest)
    (h' : FirstField key line before' rest') : before = before' ∧ rest = rest' :=
  h.1.unique h'.1 (Nat.le_antisymm (h.2 _ _ h'.1) (h'.2 _ _ h.1))

/-- A line has no more than one counter. -/
theorem HasCounter.unique {n' : ℕ} (h : HasCounter key line n) (h' : HasCounter key line n') :
    n = n' := by
  obtain ⟨before, digits, after, hfirst, hafter, rfl⟩ := h
  obtain ⟨before', digits', after', hfirst', hafter', rfl⟩ := h'
  have hrest := (hfirst.unique hfirst').2
  rw [(Digits.append_inj hafter hafter' hrest).1]

theorem getLast?_take_eq (hp : 0 < p) (hle : p ≤ line.length) :
    (line.take p).getLast? = some (line.getD (p - 1) 0) := by
  have hlt : p - 1 < line.length := by omega
  rw [List.getLast?_eq_getElem?, List.length_take, Nat.min_eq_left hle,
    List.getElem?_take_of_lt (by omega), List.getD_eq_getElem?_getD, List.getElem?_eq_getElem hlt]
  rfl

/-- The tests find the places of the key. -/
theorem keyAt_iff : keyAt line key p = true ↔
    ∃ before rest, Field key line before rest ∧ before.length = p := by
  unfold keyAt sameAt
  rw [strlen_toNat, List.take_length]
  simp only [Bool.and_eq_true, Bool.or_eq_true, decide_eq_true_eq]
  constructor
  · rintro ⟨⟨⟨hle, hbefore⟩, hkey⟩, heq⟩
    have hlt : p + key.bytes.length < line.length := by omega
    refine ⟨line.take p, line.drop (p + key.bytes.length + 1), ⟨?_, ?_⟩, ?_⟩
    · rw [List.getD_eq_getElem?_getD, List.getElem?_eq_getElem hlt, Option.getD_some] at heq
      have hrest : (line.drop p).drop key.bytes.length =
          61 :: line.drop (p + key.bytes.length + 1) := by
        rw [List.drop_drop, List.drop_eq_getElem_cons hlt, heq]
      rw [← hrest]
      nth_rewrite 1 [← hkey]
      rw [List.take_append_drop, List.take_append_drop]
    · rcases Nat.eq_zero_or_pos p with rfl | hp
      · exact .inl rfl
      · rw [getLast?_take_eq hp (by omega)]
        exact .inr (congrArg some (hbefore.resolve_left (by omega)))
    · rw [List.length_take]
      omega
  · rintro ⟨before, rest, ⟨rfl, hbefore⟩, rfl⟩
    refine ⟨⟨⟨?_, ?_⟩, ?_⟩, ?_⟩
    · simp only [List.length_append, List.length_cons]
      omega
    · rcases hbefore with rfl | hlast
      · exact .inl rfl
      · right
        rw [List.getLast?_eq_getElem?] at hlast
        have hlt := (List.getElem?_eq_some_iff.1 hlast).1
        rw [List.getD_eq_getElem?_getD, List.getElem?_append_left hlt, hlast]
        rfl
    · rw [List.drop_left, List.take_left]
    · rw [List.getD_eq_getElem?_getD, List.getElem?_append_right (by omega),
        Nat.add_sub_cancel_left, List.getElem?_append_right (by omega), Nat.sub_self]
      rfl

theorem find?_keyAt_iff : (List.range line.length).find? (keyAt line key) = some p ↔
    ∃ before rest, FirstField key line before rest ∧ before.length = p := by
  rw [List.find?_range_eq_some, keyAt_iff]
  constructor
  · rintro ⟨⟨before, rest, hfield, rfl⟩, -, hfirst⟩
    refine ⟨before, rest, ⟨hfield, fun before' rest' hfield' => ?_⟩, rfl⟩
    refine Nat.le_of_not_lt fun hlt => ?_
    have hnot := hfirst _ hlt
    rw [keyAt_iff.2 ⟨before', rest', hfield', rfl⟩] at hnot
    exact absurd hnot (by decide)
  · rintro ⟨before, rest, ⟨hfield, hfirst⟩, rfl⟩
    refine ⟨⟨before, rest, hfield, rfl⟩, ?_, ?_⟩
    · rw [List.mem_range, hfield.1, List.length_append, List.length_append, List.length_cons]
      omega
    · intro j hj
      rw [Bool.not_eq_true', ← Bool.not_eq_true, keyAt_iff]
      rintro ⟨before', rest', hfield', rfl⟩
      exact absurd (hfirst _ _ hfield') (Nat.not_le.2 hj)

/-! ### The number that is read -/

/-- The loop wraps, and has the number cut to 64 bits. -/
theorem parseLoop_eq (s : List Byte) (n k : ℕ) : parseLoop (.ofNat n) (int32 k) s =
    (.ofNat (more 10 n (spanDigits decimalVal s).1),
      int32 (k + (spanDigits decimalVal s).1.length : ℕ)) := by
  induction s generalizing n k with
  | nil => rfl
  | cons c s ih =>
    rw [parseLoop, spanDigits]
    by_cases hc : 48 ≤ c ∧ c ≤ 57
    · have hval : decimalVal c = some (c.toNat - 48) := if_pos hc
      have hnumber : UInt64.ofNat n * 10 + .ofNat (c.toNat - 48) =
          .ofNat (n * 10 + (c.toNat - 48)) := by
        rw [UInt64.ofNat_add, UInt64.ofNat_mul]
        rfl
      have hdigits : int32 (int32 k + 1) = int32 (k + 1 : ℕ) := by
        have hadd := int32_mul_add k 1 1
        rw [Int.mul_one, Int.mul_one] at hadd
        exact hadd
      rw [if_pos hc, hval, hnumber, hdigits, ih]
      dsimp only
      rw [more_cons, List.length_cons, Nat.add_assoc, Nat.add_comm 1]
    · have hval : decimalVal c = none := if_neg hc
      rw [if_neg hc, hval]
      rfl

/-- A numeral is read, cut to 64 bits, if there is one. -/
theorem parseU64_eq_some_iff {s : List Byte} (hs : s.length < 2 ^ 31) {v : UInt64} :
    parseU64 s = some v ↔ ∃ (digits : Digits decimalVal) (after : List Byte),
      s = digits.chars ++ after ∧ (∀ c ∈ after.head?, decimalVal c = none) ∧
        v = .ofNat (digits.value 10) := by
  obtain ⟨symbols, after, rfl, hsymbols, hafter⟩ := exists_spanDigits decimalVal s
  have hspan := spanDigits_append hsymbols hafter
  have hlength : (symbols.filterMap decimalVal).length = symbols.length :=
    List.filterMap_length_eq_length.2 hsymbols
  have hloop := parseLoop_eq (symbols ++ after) 0 0
  rw [hspan, hlength, Nat.zero_add] at hloop
  rw [List.length_append] at hs
  have hparse : parseU64 (symbols ++ after) = if symbols = [] then none
      else some (.ofNat (more 10 0 (symbols.filterMap decimalVal))) := by
    have hzero : int32 symbols.length = 0 ↔ symbols = [] := by
      rw [int32_of_range (by omega) (by omega), Int.natCast_eq_zero, List.length_eq_zero_iff]
    rw [parseU64]
    change (if (parseLoop (.ofNat 0) (int32 (0 : ℕ)) (symbols ++ after)).2 = 0 then none
      else some (parseLoop (.ofNat 0) (int32 (0 : ℕ)) (symbols ++ after)).1) = _
    rw [hloop]
    simp only [hzero]
  rw [hparse]
  constructor
  · intro hsome
    split_ifs at hsome with hnil
    exact ⟨⟨symbols, hnil, hsymbols⟩, after, rfl, hafter, (Option.some.inj hsome).symm⟩
  · rintro ⟨digits, after', heq, hafter', rfl⟩
    have hspan' := spanDigits_append digits.valid hafter'
    rw [← heq, hspan] at hspan'
    obtain rfl : after = after' := congrArg Prod.snd hspan'
    obtain rfl : symbols = digits.chars := List.append_cancel_right heq
    rw [if_neg digits.ne_nil]
    rfl

theorem Field.drop_eq (h : Field key line before rest) :
    line.drop (before.length + key.bytes.length + 1) = rest := by
  rw [h.1, Nat.add_assoc, ← List.drop_drop, List.drop_left, ← List.drop_drop, List.drop_left,
    List.drop_one, List.tail_cons]

/-- **What is read from a line** is its counter, cut to 64 bits. -/
theorem lineCounter_eq_some_iff (hline : line.length < 2 ^ 31) {v : UInt64} :
    lineCounter line key = some v ↔ ∃ n, HasCounter key line n ∧ v = .ofNat n := by
  rw [lineCounter, Option.bind_eq_some_iff, strlen_toNat]
  have hdrop : ∀ k, (line.drop k).length < 2 ^ 31 := by
    intro k
    rw [List.length_drop]
    omega
  constructor
  · rintro ⟨p, hfind, hparse⟩
    obtain ⟨before, rest, hfirst, rfl⟩ := find?_keyAt_iff.1 hfind
    obtain ⟨digits, after, hrest, hafter, rfl⟩ := (parseU64_eq_some_iff (hdrop _)).1 hparse
    rw [hfirst.1.drop_eq] at hrest
    rw [hrest] at hfirst
    exact ⟨_, ⟨before, digits, after, hfirst, hafter, rfl⟩, rfl⟩
  · rintro ⟨n, ⟨before, digits, after, hfirst, hafter, rfl⟩, rfl⟩
    refine ⟨before.length, find?_keyAt_iff.2 ⟨before, _, hfirst, rfl⟩, ?_⟩
    exact (parseU64_eq_some_iff (hdrop _)).2 ⟨digits, after, hfirst.1.drop_eq, hafter, rfl⟩

/-! ### The line that is read -/

theorem readLines_eq (anchor key : Text) (n : ℕ) (ls : List (List Byte)) :
    readLines anchor key n ls = (ls.findIdx? (hasAnchor · anchor)).bind fun i =>
      (ls[i]?.bind (lineCounter · key)).map (n + i, ·) := by
  induction ls generalizing n with
  | nil => rfl
  | cons line ls ih =>
    rw [readLines, List.findIdx?_cons]
    by_cases hline : hasAnchor line anchor = true
    · rw [if_pos hline, if_pos hline]
      rfl
    · rw [if_neg hline, if_neg hline, ih]
      cases ls.findIdx? (hasAnchor · anchor) with
      | none => rfl
      | some i =>
        rw [Option.bind_some, Option.map_some, Option.bind_some, List.getElem?_cons_succ,
          Nat.add_right_comm, Nat.add_assoc]

theorem length_line_lt {i : ℕ} (h : (lines 10 output.bytes)[i]? = some line) :
    line.length < 2 ^ 31 :=
  (length_le_of_mem_lines (List.mem_of_getElem? h)).trans_lt output.length_lt

/-- The result is the counter of the first line that contains the anchor. -/
theorem readLineCounter_eq_some_iff {i : ℕ} {v : UInt64} :
    readLineCounter output anchor key = some (i, v) ↔
      firstLine (hasAnchor · anchor) output = some i ∧
        ∃ n, CounterIn output key i n ∧ v = .ofNat n := by
  have hread : ∀ j, ((lines 10 output.bytes)[j]?.bind (lineCounter · key)).map (0 + j, ·) =
      some (i, v) ↔ j = i ∧ ∃ n, CounterIn output key i n ∧ v = .ofNat n := by
    intro j
    rw [Option.map_eq_some_iff]
    constructor
    · rintro ⟨v', hcounter, heq⟩
      obtain ⟨rfl, rfl⟩ := Prod.mk.inj heq
      obtain ⟨line, hline, hcounter⟩ := Option.bind_eq_some_iff.1 hcounter
      obtain ⟨n, hn, rfl⟩ := (lineCounter_eq_some_iff (length_line_lt hline)).1 hcounter
      rw [Nat.zero_add]
      exact ⟨rfl, n, ⟨line, hline, hn⟩, rfl⟩
    · rintro ⟨rfl, n, ⟨line, hline, hn⟩, rfl⟩
      refine ⟨_, ?_, Prod.ext (Nat.zero_add j) rfl⟩
      rw [hline, Option.bind_some]
      exact (lineCounter_eq_some_iff (length_line_lt hline)).2 ⟨n, hn, rfl⟩
  rw [readLineCounter, scanLines_eq, readLines_eq, Option.bind_eq_some_iff]
  constructor
  · rintro ⟨j, hj, hcounter⟩
    obtain ⟨rfl, hn⟩ := (hread j).1 hcounter
    exact ⟨hj, hn⟩
  · rintro ⟨hi, hn⟩
    exact ⟨i, hi, (hread i).2 ⟨rfl, hn⟩⟩

theorem CounterIn.unique {i n' : ℕ} (h : CounterIn output key i n)
    (h' : CounterIn output key i n') : n = n' := by
  obtain ⟨line, hline, hn⟩ := h
  obtain ⟨line', hline', hn'⟩ := h'
  rw [hline] at hline'
  obtain rfl := Option.some.inj hline'
  exact hn.unique hn'

/-- **When the counter is that of the line with the token.**  For every output, anchor and key,
the value is taken from the first line that has the anchor as a token, and there is one exactly
if this line has `key=` followed by a decimal numeral that fits 64 bits, exactly in two cases.
Either the first line that contains the anchor is the first that has it as a token, and a
numeral there fits; or they are not the same, and the first has no numeral after `key=`, and the
second none that fits. -/
theorem readLineCounter_spec_iff (output anchor key : Text) :
    (∀ i v, readLineCounter output anchor key = some (i, v) ↔
      firstLine (outputHasToken · anchor) output = some i ∧ CounterIn output key i v.toNat) ↔
    if firstLine (hasAnchor · anchor) output = firstLine (outputHasToken · anchor) output then
      ∀ i, firstLine (outputHasToken · anchor) output = some i →
        ∀ n, CounterIn output key i n → n < 2 ^ 64
    else
      (∀ i, firstLine (hasAnchor · anchor) output = some i → ∀ n, ¬CounterIn output key i n) ∧
        ∀ i, firstLine (outputHasToken · anchor) output = some i →
          ∀ n, CounterIn output key i n → 2 ^ 64 ≤ n := by
  have hfits : ∀ n : ℕ, n < 2 ^ 64 → (UInt64.ofNat n).toNat = n := fun n hn =>
    UInt64.toNat_ofNat_of_lt' hn
  simp only [readLineCounter_eq_some_iff]
  split_ifs with hsame
  · rw [hsame]
    constructor
    · intro hspec i hi n hn
      have hcut := ((hspec i (.ofNat n)).1 ⟨hi, n, hn, rfl⟩).2
      rw [hn.unique hcut]
      exact (UInt64.ofNat n).toNat_lt
    · intro hlt i v
      refine and_congr_right fun hi => ⟨?_, fun hn => ⟨_, hn, UInt64.ofNat_toNat.symm⟩⟩
      rintro ⟨n, hn, rfl⟩
      rwa [hfits n (hlt i hi n hn)]
  · constructor
    · intro hspec
      constructor
      · intro i hi n hn
        have htoken := ((hspec i (.ofNat n)).1 ⟨hi, n, hn, rfl⟩).1
        exact hsame (hi.trans htoken.symm)
      · intro i hi n hn
        refine Nat.le_of_not_lt fun hlt => ?_
        have hcontains := ((hspec i (.ofNat n)).2 ⟨hi, by rwa [hfits n hlt]⟩).1
        exact hsame (hcontains.trans hi.symm)
    · rintro ⟨hnone, hlarge⟩ i v
      constructor
      · rintro ⟨hi, n, hn, -⟩
        exact absurd hn (hnone i hi n)
      · rintro ⟨hi, hn⟩
        exact absurd (hlarge i hi _ hn) (Nat.not_le.2 v.toNat_lt)

/-- **A counter of another line**: `xab k=1` contains the anchor `ab`, but not as a token. -/
theorem readLineCounter_of_word : ¬∀ i v,
    readLineCounter ⟨[120, 97, 98, 32, 107, 61, 49, 10, 97, 98, 32, 107, 61, 50, 10], by decide,
      by decide⟩ ⟨[97, 98], by decide, by decide⟩ ⟨[107], by decide, by decide⟩ = some (i, v) ↔
    firstLine (outputHasToken · ⟨[97, 98], by decide, by decide⟩) ⟨[120, 97, 98, 32, 107, 61, 49,
      10, 97, 98, 32, 107, 61, 50, 10], by decide, by decide⟩ = some i ∧
      CounterIn ⟨[120, 97, 98, 32, 107, 61, 49, 10, 97, 98, 32, 107, 61, 50, 10], by decide,
        by decide⟩ ⟨[107], by decide, by decide⟩ i v.toNat := by
  intro hspec
  have hread : readLineCounter ⟨[120, 97, 98, 32, 107, 61, 49, 10, 97, 98, 32, 107, 61, 50, 10],
      by decide, by decide⟩ ⟨[97, 98], by decide, by decide⟩ ⟨[107], by decide, by decide⟩ =
      some (0, 1) := by
    rw [readLineCounter, scanLines_eq]
    decide
  exact absurd ((hspec 0 1).1 hread).1 (by decide)

end Gpucorevalidate
end Tools
end V6User
