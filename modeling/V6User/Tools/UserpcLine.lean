import V6User.Tools.ParseNum

/-!
# A line of the memory map

`programs/kprofile/kprofile.c`: `userpc_hex_digit`, `userpc_parse_hex_until`,
`userpc_parse_dec_until_space`, `userpc_skip_spaces`, `userpc_copy_sanitized_path` and
`userpc_parse_maps_line`.

A line has two addresses, the permissions, an offset, a device, an inode and a path.  Its
numerals are read with a test for room in 64 bits before each digit, so that none wraps.  Every
line that is laid out so, with each field set apart from the next one, is read as what it says,
and every other line is refused, but for those that run the permissions together with the
offset, or the inode together with the path: there the code asks for no blank, and takes a line
whose permissions are missing for one whose offset begins with them
(`parseMapsLine_ok_iff`).
-/

namespace V6User
namespace Tools
namespace Userpc

open Shell (Byte)
open Numeral

/-! ### The code -/

/-- `struct userpc_map_entry`, where `stop` is `end`. -/
structure MapEntry where
  used : Bool := false
  tgid : ℤ := 0
  start : UInt64 := 0
  stop : UInt64 := 0
  offset : UInt64 := 0
  devMajor : UInt64 := 0
  devMinor : UInt64 := 0
  inode : UInt64 := 0
  perms : List Byte := []
  path : List Byte := []
  samples : UInt64 := 0
  firstSeq : UInt64 := 0
  lastSeq : UInt64 := 0
  deriving DecidableEq

/-- `KPROFILE_UINT64_MAX`. -/
def uint64Max : UInt64 := 0xffffffffffffffff

/-- `KPROFILE_USERPC_MAP_PATH_LEN`. -/
def pathLen : ℕ := 160

/-- `userpc_hex_digit`, with `none` for `-1`: the tests are those of `dh`. -/
def hexDigit (c : Byte) : Option ℕ := hexVal c

/-- The loop of `userpc_parse_hex_until`: the number, how many digits it has and what is
left. -/
def hexLoop (delim : Byte) (v : UInt64) (digits : ℕ) :
    List Byte → Option (UInt64 × ℕ × List Byte)
  | [] => some (v, digits, [])
  | c :: p =>
    if c = delim then some (v, digits, c :: p)
    else
      match hexDigit c with
      | none => none
      | some d =>
        if (uint64Max - .ofNat d) / 16 < v then none
        else hexLoop delim (v * 16 + .ofNat d) (digits + 1) p

/-- `userpc_parse_hex_until(pp, delim, out)`: the number and what is left after `delim`. -/
def parseHexUntil (delim : Byte) (p : List Byte) : Option (UInt64 × List Byte) :=
  match hexLoop delim 0 0 p with
  | none => none
  | some (v, digits, p) => if digits = 0 ∨ p.head? ≠ some delim then none else some (v, p.tail)

/-- The loop of `userpc_parse_dec_until_space`. -/
def decLoop (v : UInt64) (digits : ℕ) : List Byte → Option (UInt64 × ℕ × List Byte)
  | [] => some (v, digits, [])
  | c :: p =>
    match decimalVal c with
    | none => some (v, digits, c :: p)
    | some d =>
      if (uint64Max - .ofNat d) / 10 < v then none
      else decLoop (v * 10 + .ofNat d) (digits + 1) p

/-- `userpc_parse_dec_until_space(pp, out)`. -/
def parseDecUntilSpace (p : List Byte) : Option (UInt64 × List Byte) :=
  match decLoop 0 0 p with
  | none => none
  | some (v, digits, p) => if digits = 0 then none else some (v, p)

/-- A blank or a tab. -/
def isBlank (c : Byte) : Bool := c == 32 || c == 9

/-- `userpc_skip_spaces(pp)`. -/
def skipSpaces (p : List Byte) : List Byte := p.dropWhile isBlank

/-- The loop over the four characters of the permissions, of which `n` are left to read. -/
def parsePerms : ℕ → List Byte → Option (List Byte × List Byte)
  | 0, p => some ([], p)
  | _ + 1, [] => none
  | n + 1, c :: p =>
    if isBlank c then none
    else do
      let (perms, p) ← parsePerms n p
      some (c :: perms, p)

/-- The loop of `userpc_copy_sanitized_path`, with `i` bytes in the field: what it adds, and
whether it had to stop for want of room. -/
def copyLoop (i : ℕ) : List Byte → List Byte × Bool
  | [] => ([], false)
  | c :: src =>
    if c = 10 ∨ c = 13 then ([], false)
    else if pathLen ≤ i + 1 then ([], true)
    else ((if isBlank c then 95 else c) :: (copyLoop (i + 1) src).1, (copyLoop (i + 1) src).2)

/-- `userpc_copy_sanitized_path(dst, sizeof(out->path), src, truncated)`. -/
def copySanitizedPath (src : List Byte) : List Byte × Bool := copyLoop 0 (skipSpaces src)

/-- `userpc_parse_maps_line(line, out, path_truncated)`: the entry, and whether its path was cut,
or `none` for `-1`. -/
def parseMapsLine (line : List Byte) : Option (MapEntry × Bool) := do
  let (start, p) ← parseHexUntil 45 line
  let (stop, p) ← parseHexUntil 32 p
  let (perms, p) ← parsePerms 4 (skipSpaces p)
  let (offset, p) ← parseHexUntil 32 (skipSpaces p)
  let (devMajor, p) ← parseHexUntil 58 (skipSpaces p)
  let (devMinor, p) ← parseHexUntil 32 p
  let (inode, p) ← parseDecUntilSpace (skipSpaces p)
  let (path, truncated) := copySanitizedPath (skipSpaces p)
  if start < stop then
    some ({ start, stop, offset, devMajor, devMinor, inode, perms, path }, truncated)
  else none

/-! ### Numerals -/

section Numerals

variable {p rest : List Byte} {v : UInt64}

theorem hexVal_lt {c : Byte} {d : ℕ} (h : hexVal c = some d) : d < 16 := by
  unfold hexVal at h
  simp only [UInt8.le_iff_toNat_le, UInt8.reduceToNat] at h
  split_ifs at h <;> obtain rfl := Option.some.inj h <;> omega

theorem decimalVal_lt {c : Byte} {d : ℕ} (h : decimalVal c = some d) : d < 10 := by
  unfold decimalVal at h
  simp only [UInt8.le_iff_toNat_le, UInt8.reduceToNat] at h
  split_ifs at h
  obtain rfl := Option.some.inj h
  omega

/-- What both loops do with digits: each is added where there is room for it. -/
def addDigits (b v : UInt64) : List ℕ → Option UInt64
  | [] => some v
  | d :: ds => if (uint64Max - .ofNat d) / b < v then none else addDigits b (v * b + .ofNat d) ds

theorem toNat_ofNat_of_lt {n : ℕ} (h : n < 2 ^ 64) : (UInt64.ofNat n).toNat = n :=
  UInt64.toNat_ofNat_of_lt h

/-- The test before a digit is the one of `guarded`. -/
theorem div_lt_iff_toNat {b : UInt64} {d : ℕ} (hd : d < 2 ^ 64) :
    (uint64Max - .ofNat d) / b < v ↔ (2 ^ 64 - 1 - d) / b.toNat < v.toNat := by
  have hmax : uint64Max.toNat = 2 ^ 64 - 1 := rfl
  rw [UInt64.lt_iff_toNat_lt, UInt64.toNat_div, UInt64.toNat_sub_of_le, hmax,
    toNat_ofNat_of_lt hd]
  rw [UInt64.le_iff_toNat_le, hmax, toNat_ofNat_of_lt hd]
  omega

/-- **The digits make their number where it fits 64 bits**, and nothing otherwise. -/
theorem addDigits_eq {b v : UInt64} {ds : List ℕ} (hb : 0 < b.toNat)
    (hds : ∀ d ∈ ds, d < 2 ^ 64) : addDigits b v ds =
      if more b.toNat v.toNat ds < 2 ^ 64 then some (.ofNat (more b.toNat v.toNat ds)) else none := by
  have hguarded : addDigits b v ds =
      (guarded (2 ^ 64 - 1) b.toNat v.toNat ds).map UInt64.ofNat := by
    induction ds generalizing v with
    | nil => exact congrArg some UInt64.ofNat_toNat.symm
    | cons d ds ih =>
      obtain ⟨hd, hds⟩ := List.forall_mem_cons.1 hds
      rw [addDigits, guarded]
      by_cases hroom : (2 ^ 64 - 1 - d) / b.toNat < v.toNat
      · rw [if_pos hroom, if_pos ((div_lt_iff_toNat hd).2 hroom)]
        rfl
      · have hfits : v.toNat * b.toNat + d < 2 ^ 64 := by
          have := mt (Numeral.div_lt_iff hb (Nat.le_sub_one_of_lt hd)).2 hroom
          omega
        have hstep : (v * b + .ofNat d).toNat = v.toNat * b.toNat + d := by
          rw [UInt64.toNat_add, UInt64.toNat_mul, toNat_ofNat_of_lt hd,
            Nat.mod_eq_of_lt (by omega : v.toNat * b.toNat < 2 ^ 64), Nat.mod_eq_of_lt hfits]
        rw [if_neg hroom, if_neg (mt (div_lt_iff_toNat hd).1 hroom), ih hds, hstep]
  have hv := v.toNat_lt
  rw [hguarded, guarded_eq hb (fun d hd => Nat.le_sub_one_of_lt (hds d hd)) (by omega)]
  split_ifs <;> first | rfl | omega

theorem hexLoop_append {delim : Byte} {chars : List Byte} {n : ℕ}
    (hdelim : hexVal delim = none) (hchars : ∀ c ∈ chars, (hexVal c).isSome) :
    hexLoop delim v n (chars ++ rest) = (addDigits 16 v (chars.filterMap hexVal)).bind fun v =>
      hexLoop delim v (n + chars.length) rest := by
  induction chars generalizing v n with
  | nil => rfl
  | cons c chars ih =>
    obtain ⟨hc, hchars⟩ := List.forall_mem_cons.1 hchars
    obtain ⟨d, hd⟩ := Option.isSome_iff_exists.1 hc
    have hne : c ≠ delim := by
      rintro rfl
      rw [hdelim] at hd
      cases hd
    rw [List.cons_append, hexLoop, if_neg hne, hexDigit, hd, List.filterMap_cons_some hd, addDigits]
    dsimp only
    split_ifs
    · rfl
    · rw [ih hchars, List.length_cons]
      simp only [Nat.add_assoc, Nat.add_comm 1]

theorem decLoop_append {chars : List Byte} {n : ℕ} (hchars : ∀ c ∈ chars, (decimalVal c).isSome) :
    decLoop v n (chars ++ rest) = (addDigits 10 v (chars.filterMap decimalVal)).bind fun v =>
      decLoop v (n + chars.length) rest := by
  induction chars generalizing v n with
  | nil => rfl
  | cons c chars ih =>
    obtain ⟨hc, hchars⟩ := List.forall_mem_cons.1 hchars
    obtain ⟨d, hd⟩ := Option.isSome_iff_exists.1 hc
    rw [List.cons_append, decLoop, hd, List.filterMap_cons_some hd, addDigits]
    dsimp only
    split_ifs
    · rfl
    · rw [ih hchars, List.length_cons]
      simp only [Nat.add_assoc, Nat.add_comm 1]

theorem filterMap_lt {val : Byte → Option ℕ} {b : ℕ} (h : ∀ c d, val c = some d → d < b)
    (hb : b ≤ 2 ^ 64) (chars : List Byte) : ∀ d ∈ chars.filterMap val, d < 2 ^ 64 := by
  intro d hd
  obtain ⟨c, -, hc⟩ := List.mem_filterMap.1 hd
  exact Nat.lt_of_lt_of_le (h c d hc) hb

/-- **A hexadecimal numeral is read up to its delimiter**, exactly where it fits 64 bits. -/
theorem parseHexUntil_iff {delim : Byte} (hdelim : hexVal delim = none) :
    parseHexUntil delim p = some (v, rest) ↔ ∃ t : Digits hexVal,
      p = t.chars ++ delim :: rest ∧ t.value 16 < 2 ^ 64 ∧ v = .ofNat (t.value 16) := by
  have hread : ∀ chars tail, (∀ c ∈ chars, (hexVal c).isSome) →
      hexLoop delim 0 0 (chars ++ tail) =
        if more 16 0 (chars.filterMap hexVal) < 2 ^ 64 then
          hexLoop delim (.ofNat (more 16 0 (chars.filterMap hexVal))) chars.length tail
        else none := by
    intro chars tail hchars
    rw [hexLoop_append hdelim hchars, addDigits_eq (by decide)
      (filterMap_lt (fun c d => hexVal_lt) (by norm_num) chars), Nat.zero_add]
    change (if more 16 0 _ < 2 ^ 64 then some _ else none).bind _ = _
    split_ifs <;> rfl
  constructor
  · intro h
    obtain ⟨chars, tail, rfl, hchars, htail⟩ := exists_spanDigits hexVal p
    rw [parseHexUntil, hread chars tail hchars] at h
    by_cases hfits : more 16 0 (chars.filterMap hexVal) < 2 ^ 64
    · rw [if_pos hfits] at h
      cases tail with
      | nil => simp [hexLoop] at h
      | cons c tail =>
        by_cases hc : c = delim
        · subst hc
          rw [hexLoop, if_pos rfl] at h
          by_cases hne : chars = []
          · simp [hne] at h
          · simp only [List.length_eq_zero_iff, hne, List.head?_cons, ne_eq, not_true, or_false,
              if_false, List.tail_cons, Option.some.injEq, Prod.mk.injEq] at h
            obtain ⟨rfl, rfl⟩ := h
            exact ⟨⟨chars, hne, hchars⟩, rfl, hfits, rfl⟩
        · rw [hexLoop, if_neg hc, hexDigit, htail c rfl] at h
          simp at h
    · rw [if_neg hfits] at h
      simp at h
  · rintro ⟨t, rfl, hfits, rfl⟩
    have hlen : t.chars.length ≠ 0 := fun h => t.ne_nil (List.eq_nil_of_length_eq_zero h)
    have hvalue : more 16 0 (t.chars.filterMap hexVal) = t.value 16 := rfl
    rw [parseHexUntil, hread t.chars (delim :: rest) t.valid, hvalue, if_pos hfits, hexLoop,
      if_pos rfl]
    simp [hlen]

/-- **A decimal numeral is read up to the first byte that is no digit**, exactly where it fits
64 bits. -/
theorem parseDecUntilSpace_iff :
    parseDecUntilSpace p = some (v, rest) ↔ ∃ t : Digits decimalVal,
      p = t.chars ++ rest ∧ (∀ c ∈ rest.head?, decimalVal c = none) ∧ t.value 10 < 2 ^ 64 ∧
        v = .ofNat (t.value 10) := by
  have hread : ∀ chars tail, (∀ c ∈ chars, (decimalVal c).isSome) →
      (∀ c ∈ tail.head?, decimalVal c = none) →
      decLoop 0 0 (chars ++ tail) =
        if more 10 0 (chars.filterMap decimalVal) < 2 ^ 64 then
          some (.ofNat (more 10 0 (chars.filterMap decimalVal)), chars.length, tail)
        else none := by
    intro chars tail hchars htail
    have hend : ∀ v n, decLoop v n tail = some (v, n, tail) := by
      intro v n
      cases tail with
      | nil => rfl
      | cons c tail => rw [decLoop, htail c rfl]
    rw [decLoop_append hchars, addDigits_eq (by decide)
      (filterMap_lt (fun c d => decimalVal_lt) (by norm_num) chars), Nat.zero_add]
    simp only [hend]
    change (if more 10 0 _ < 2 ^ 64 then some _ else none).bind _ = _
    split_ifs <;> rfl
  constructor
  · intro h
    obtain ⟨chars, tail, rfl, hchars, htail⟩ := exists_spanDigits decimalVal p
    rw [parseDecUntilSpace, hread chars tail hchars htail] at h
    by_cases hfits : more 10 0 (chars.filterMap decimalVal) < 2 ^ 64
    · rw [if_pos hfits] at h
      by_cases hne : chars = []
      · simp [hne] at h
      · simp only [List.length_eq_zero_iff, hne, if_false, Option.some.injEq, Prod.mk.injEq] at h
        obtain ⟨rfl, rfl⟩ := h
        exact ⟨⟨chars, hne, hchars⟩, rfl, htail, hfits, rfl⟩
    · rw [if_neg hfits] at h
      simp at h
  · rintro ⟨t, rfl, hrest, hfits, rfl⟩
    have hlen : t.chars.length ≠ 0 := fun h => t.ne_nil (List.eq_nil_of_length_eq_zero h)
    have hvalue : more 10 0 (t.chars.filterMap decimalVal) = t.value 10 := rfl
    rw [parseDecUntilSpace, hread t.chars rest t.valid hrest, hvalue, if_pos hfits]
    simp [hlen]

end Numerals

/-! ### Blanks and permissions -/

section Blanks

variable {val : Byte → Option ℕ} {b p rest perms : List Byte} {n : ℕ}

theorem skipSpaces_append (hb : ∀ c ∈ b, isBlank c) (hrest : ∀ c ∈ rest.head?, isBlank c = false) :
    skipSpaces (b ++ rest) = rest := by
  rw [skipSpaces, List.dropWhile_append_of_pos hb]
  cases rest with
  | nil => rfl
  | cons c rest => exact List.dropWhile_cons_of_neg (by rw [hrest c rfl]; decide)

/-- A text is blanks and what is left of it after them. -/
theorem exists_skipSpaces (p : List Byte) : ∃ b, p = b ++ skipSpaces p ∧ (∀ c ∈ b, isBlank c) ∧
    ∀ c ∈ (skipSpaces p).head?, isBlank c = false := by
  refine ⟨p.takeWhile isBlank, List.takeWhile_append_dropWhile.symm, ?_, ?_⟩
  · exact fun c hc => List.mem_takeWhile_imp hc
  · intro c hc
    have hnot := List.head?_dropWhile_not isBlank p
    rw [skipSpaces] at hc
    rw [Option.mem_def.1 hc] at hnot
    simpa using hnot

theorem skipSpaces_skipSpaces (p : List Byte) : skipSpaces (skipSpaces p) = skipSpaces p := by
  obtain ⟨-, -, -, hhead⟩ := exists_skipSpaces p
  exact skipSpaces_append (b := []) (by simp) hhead

theorem hexVal_blank {c : Byte} (h : isBlank c) : hexVal c = none := by
  rw [isBlank, Bool.or_eq_true, beq_iff_eq, beq_iff_eq] at h
  rcases h with rfl | rfl <;> decide

theorem decimalVal_blank {c : Byte} (h : isBlank c) : decimalVal c = none := by
  rw [isBlank, Bool.or_eq_true, beq_iff_eq, beq_iff_eq] at h
  rcases h with rfl | rfl <;> decide

/-- A numeral does not begin with a blank. -/
theorem head_digits (hval : ∀ c, isBlank c → val c = none) (t : Digits val) :
    ∀ c ∈ (t.chars ++ rest).head?, isBlank c = false := by
  obtain ⟨chars, hne, hvalid⟩ := t
  intro c hc
  cases chars with
  | nil => exact absurd rfl hne
  | cons d chars =>
    obtain rfl : d = c := Option.some.inj hc
    have hd := hvalid d List.mem_cons_self
    by_contra hblank
    rw [hval d (by simpa using hblank)] at hd
    cases hd

theorem parsePerms_iff : parsePerms n p = some (perms, rest) ↔
    p = perms ++ rest ∧ perms.length = n ∧ ∀ c ∈ perms, isBlank c = false := by
  induction n generalizing p perms with
  | zero =>
    rw [parsePerms, Option.some.injEq, Prod.mk.injEq]
    constructor
    · rintro ⟨rfl, rfl⟩
      exact ⟨rfl, rfl, by simp⟩
    · rintro ⟨rfl, hlen, -⟩
      obtain rfl := List.eq_nil_of_length_eq_zero hlen
      exact ⟨rfl, rfl⟩
  | succ n ih =>
    cases p with
    | nil =>
      rw [parsePerms]
      constructor
      · intro h
        cases h
      · rintro ⟨hp, hlen, -⟩
        obtain ⟨rfl, -⟩ := List.append_eq_nil_iff.1 hp.symm
        cases hlen
    | cons c p =>
      rw [parsePerms]
      constructor
      · intro h
        split_ifs at h with hc
        obtain ⟨⟨perms', rest'⟩, hperms, h⟩ := Option.bind_eq_some_iff.1 h
        obtain ⟨rfl, rfl⟩ := Prod.mk.inj (Option.some.inj h)
        obtain ⟨rfl, hlen, hvalid⟩ := ih.1 hperms
        refine ⟨rfl, by rw [List.length_cons, hlen], ?_⟩
        exact List.forall_mem_cons.2 ⟨by simpa using hc, hvalid⟩
      · rintro ⟨hp, hlen, hvalid⟩
        cases perms with
        | nil => cases hlen
        | cons d perms =>
          rw [List.cons_append] at hp
          obtain ⟨rfl, rfl⟩ := List.cons.inj hp
          obtain ⟨hc, hvalid⟩ := List.forall_mem_cons.1 hvalid
          have hrest := ih.2 ⟨rfl, Nat.succ.inj hlen, hvalid⟩
          rw [hc, if_neg Bool.false_ne_true, hrest]
          rfl

end Blanks

/-! ### How a line is laid out -/

/-- The parts of a line.  Where `gap` is empty, or `tail` begins with neither a blank nor the end
of the line, two fields are run together. -/
structure Layout where
  start : Digits hexVal
  stop : Digits hexVal
  afterStop : List Byte
  perms : List Byte
  gap : List Byte
  offset : Digits hexVal
  afterOffset : List Byte
  devMajor : Digits hexVal
  devMinor : Digits hexVal
  afterMinor : List Byte
  inode : Digits decimalVal
  tail : List Byte
  blank_afterStop : ∀ c ∈ afterStop, isBlank c
  length_perms : perms.length = 4
  valid_perms : ∀ c ∈ perms, isBlank c = false
  blank_gap : ∀ c ∈ gap, isBlank c
  blank_afterOffset : ∀ c ∈ afterOffset, isBlank c
  blank_afterMinor : ∀ c ∈ afterMinor, isBlank c
  head_tail : ∀ c ∈ tail.head?, decimalVal c = none

namespace Layout

/-- The line with these parts. -/
def text (l : Layout) : List Byte :=
  l.start.chars ++ 45 :: (l.stop.chars ++ 32 :: (l.afterStop ++ (l.perms ++ (l.gap ++
    (l.offset.chars ++ 32 :: (l.afterOffset ++ (l.devMajor.chars ++ 58 :: (l.devMinor.chars ++
      32 :: (l.afterMinor ++ (l.inode.chars ++ l.tail))))))))))

/-- The numerals fit 64 bits and the addresses are in order. -/
structure Fits (l : Layout) : Prop where
  start : l.start.value 16 < 2 ^ 64
  stop : l.stop.value 16 < 2 ^ 64
  offset : l.offset.value 16 < 2 ^ 64
  devMajor : l.devMajor.value 16 < 2 ^ 64
  devMinor : l.devMinor.value 16 < 2 ^ 64
  inode : l.inode.value 10 < 2 ^ 64
  lt : l.start.value 16 < l.stop.value 16

/-- The permissions and the inode are set apart from what comes after them. -/
def Separated (l : Layout) : Prop :=
  l.gap ≠ [] ∧ ∀ c ∈ l.tail.head?, isBlank c ∨ c = 10 ∨ c = 13

/-- What the line says: the entry, and whether its path is too long for the field. -/
def entry (l : Layout) : MapEntry × Bool :=
  ({ start := .ofNat (l.start.value 16), stop := .ofNat (l.stop.value 16),
     offset := .ofNat (l.offset.value 16), devMajor := .ofNat (l.devMajor.value 16),
     devMinor := .ofNat (l.devMinor.value 16), inode := .ofNat (l.inode.value 10),
     perms := l.perms, path := (copySanitizedPath l.tail).1 }, (copySanitizedPath l.tail).2)

/-- The permissions do not begin with a blank. -/
theorem head_perms (l : Layout) (rest : List Byte) :
    ∀ c ∈ (l.perms ++ rest).head?, isBlank c = false := by
  intro c hc
  have hlen := l.length_perms
  have hvalid := l.valid_perms
  cases hperms : l.perms with
  | nil =>
    rw [hperms] at hlen
    cases hlen
  | cons d perms =>
    rw [hperms] at hc hvalid
    obtain rfl : d = c := Option.some.inj hc
    exact hvalid d List.mem_cons_self

end Layout

theorem copySanitizedPath_skipSpaces (p : List Byte) :
    copySanitizedPath (skipSpaces p) = copySanitizedPath p := by
  rw [copySanitizedPath, skipSpaces_skipSpaces, copySanitizedPath]

/-- **What is read of a line**: the entry of its layout, where the numerals fit. -/
theorem parseMapsLine_iff {line : List Byte} {r : MapEntry × Bool} :
    parseMapsLine line = some r ↔ ∃ l : Layout, l.text = line ∧ l.Fits ∧ r = l.entry := by
  have hdash : hexVal 45 = none := by decide
  have hblank : hexVal 32 = none := by decide
  have hcolon : hexVal 58 = none := by decide
  constructor
  · intro h
    obtain ⟨⟨start, p₁⟩, h₁, h⟩ := Option.bind_eq_some_iff.1 h
    obtain ⟨⟨stop, p₂⟩, h₂, h⟩ := Option.bind_eq_some_iff.1 h
    obtain ⟨⟨perms, p₃⟩, h₃, h⟩ := Option.bind_eq_some_iff.1 h
    obtain ⟨⟨offset, p₄⟩, h₄, h⟩ := Option.bind_eq_some_iff.1 h
    obtain ⟨⟨devMajor, p₅⟩, h₅, h⟩ := Option.bind_eq_some_iff.1 h
    obtain ⟨⟨devMinor, p₆⟩, h₆, h⟩ := Option.bind_eq_some_iff.1 h
    obtain ⟨⟨inode, p₇⟩, h₇, h⟩ := Option.bind_eq_some_iff.1 h
    obtain ⟨start, rfl, hstart, rfl⟩ := (parseHexUntil_iff hdash).1 h₁
    obtain ⟨stop, rfl, hstop, rfl⟩ := (parseHexUntil_iff hblank).1 h₂
    obtain ⟨afterStop, hp₂, hafterStop, -⟩ := exists_skipSpaces p₂
    obtain ⟨hp₃, hperms, hvalid⟩ := parsePerms_iff.1 h₃
    obtain ⟨gap, hgap, hblankGap, -⟩ := exists_skipSpaces p₃
    obtain ⟨offset, hp₄, hoffset, rfl⟩ := (parseHexUntil_iff hblank).1 h₄
    obtain ⟨afterOffset, hp₅, hafterOffset, -⟩ := exists_skipSpaces p₄
    obtain ⟨devMajor, hp₆, hdevMajor, rfl⟩ := (parseHexUntil_iff hcolon).1 h₅
    obtain ⟨devMinor, rfl, hdevMinor, rfl⟩ := (parseHexUntil_iff hblank).1 h₆
    obtain ⟨afterMinor, hp₇, hafterMinor, -⟩ := exists_skipSpaces p₆
    obtain ⟨inode, hp₈, htail, hinode, rfl⟩ := parseDecUntilSpace_iff.1 h₇
    dsimp only at h
    split_ifs at h with hlt
    rw [UInt64.lt_iff_toNat_lt, toNat_ofNat_of_lt hstart, toNat_ofNat_of_lt hstop] at hlt
    refine ⟨⟨start, stop, afterStop, perms, gap, offset, afterOffset, devMajor, devMinor,
      afterMinor, inode, p₇, hafterStop, hperms, hvalid, hblankGap, hafterOffset, hafterMinor,
      htail⟩, ?_, ⟨hstart, hstop, hoffset, hdevMajor, hdevMinor, hinode, hlt⟩, ?_⟩
    · rw [Layout.text, hp₂, hp₃, hgap, hp₄, hp₅, hp₆, hp₇, hp₈]
    · rw [← Option.some.inj h, Layout.entry, copySanitizedPath_skipSpaces]
  · rintro ⟨l, rfl, hfits, rfl⟩
    have hlt : UInt64.ofNat (l.start.value 16) < .ofNat (l.stop.value 16) := by
      rw [UInt64.lt_iff_toNat_lt, toNat_ofNat_of_lt hfits.start, toNat_ofNat_of_lt hfits.stop]
      exact hfits.lt
    refine Option.bind_eq_some_iff.2
      ⟨_, (parseHexUntil_iff hdash).2 ⟨l.start, rfl, hfits.start, rfl⟩, ?_⟩
    refine Option.bind_eq_some_iff.2
      ⟨_, (parseHexUntil_iff hblank).2 ⟨l.stop, rfl, hfits.stop, rfl⟩, ?_⟩
    dsimp only
    rw [skipSpaces_append l.blank_afterStop (l.head_perms _)]
    refine Option.bind_eq_some_iff.2
      ⟨_, parsePerms_iff.2 ⟨rfl, l.length_perms, l.valid_perms⟩, ?_⟩
    dsimp only
    rw [skipSpaces_append l.blank_gap (head_digits (fun c => hexVal_blank) l.offset)]
    refine Option.bind_eq_some_iff.2
      ⟨_, (parseHexUntil_iff hblank).2 ⟨l.offset, rfl, hfits.offset, rfl⟩, ?_⟩
    dsimp only
    rw [skipSpaces_append l.blank_afterOffset (head_digits (fun c => hexVal_blank) l.devMajor)]
    refine Option.bind_eq_some_iff.2
      ⟨_, (parseHexUntil_iff hcolon).2 ⟨l.devMajor, rfl, hfits.devMajor, rfl⟩, ?_⟩
    refine Option.bind_eq_some_iff.2
      ⟨_, (parseHexUntil_iff hblank).2 ⟨l.devMinor, rfl, hfits.devMinor, rfl⟩, ?_⟩
    dsimp only
    rw [skipSpaces_append l.blank_afterMinor (head_digits (fun c => decimalVal_blank) l.inode)]
    refine Option.bind_eq_some_iff.2
      ⟨_, parseDecUntilSpace_iff.2 ⟨l.inode, rfl, l.head_tail, hfits.inode, rfl⟩, ?_⟩
    dsimp only
    rw [if_pos hlt, copySanitizedPath_skipSpaces, Layout.entry]

/-- **A line has one layout**, as far as what is run together goes. -/
theorem Layout.text_inj {l l' : Layout} (h : l.text = l'.text) :
    l.gap = l'.gap ∧ l.tail = l'.tail := by
  have hend : ∀ (d : Byte) (rest : List Byte), hexVal d = none →
      ∀ c ∈ (d :: rest).head?, hexVal c = none := by
    rintro d rest hd c ⟨rfl⟩
    exact hd
  have hstart := (Digits.append_inj (hend 45 _ (by decide)) (hend 45 _ (by decide)) h).2
  have hstop := (Digits.append_inj (hend 32 _ (by decide)) (hend 32 _ (by decide))
    (List.cons.inj hstart).2).2
  have hperms := congrArg skipSpaces (List.cons.inj hstop).2
  rw [skipSpaces_append l.blank_afterStop (l.head_perms _),
    skipSpaces_append l'.blank_afterStop (l'.head_perms _)] at hperms
  have hgap := List.append_inj_right hperms (l.length_perms.trans l'.length_perms.symm)
  have hoffset := congrArg skipSpaces hgap
  rw [skipSpaces_append l.blank_gap (head_digits (fun c => hexVal_blank) l.offset),
    skipSpaces_append l'.blank_gap (head_digits (fun c => hexVal_blank) l'.offset)] at hoffset
  have hafterOffset := (Digits.append_inj (hend 32 _ (by decide)) (hend 32 _ (by decide))
    hoffset).2
  have hdevMajor := congrArg skipSpaces (List.cons.inj hafterOffset).2
  rw [skipSpaces_append l.blank_afterOffset (head_digits (fun c => hexVal_blank) l.devMajor),
    skipSpaces_append l'.blank_afterOffset (head_digits (fun c => hexVal_blank) l'.devMajor)]
    at hdevMajor
  have hdevMinor := (Digits.append_inj (hend 58 _ (by decide)) (hend 58 _ (by decide))
    hdevMajor).2
  have hafterMinor := (Digits.append_inj (hend 32 _ (by decide)) (hend 32 _ (by decide))
    (List.cons.inj hdevMinor).2).2
  have hinode := congrArg skipSpaces (List.cons.inj hafterMinor).2
  rw [skipSpaces_append l.blank_afterMinor (head_digits (fun c => decimalVal_blank) l.inode),
    skipSpaces_append l'.blank_afterMinor (head_digits (fun c => decimalVal_blank) l'.inode)]
    at hinode
  constructor
  · rw [hoffset] at hgap
    exact List.append_cancel_right hgap
  · exact (Digits.append_inj l.head_tail l'.head_tail hinode).2

/-! ### The line of an entry -/

section Path

variable {path nl : List Byte}

/-- A path without blanks is copied up to the end of the line. -/
theorem copyLoop_path {i : ℕ} (hpath : ∀ c ∈ path, isBlank c = false ∧ c ≠ 10 ∧ c ≠ 13)
    (hnl : ∀ c ∈ nl.head?, c = 10 ∨ c = 13) (hlen : i + path.length < pathLen) :
    copyLoop i (path ++ nl) = (path, false) := by
  induction path generalizing i with
  | nil =>
    cases nl with
    | nil => rfl
    | cons c nl => exact if_pos (hnl c rfl)
  | cons c path ih =>
    obtain ⟨⟨hblank, hlf, hcr⟩, hpath⟩ := List.forall_mem_cons.1 hpath
    rw [List.length_cons] at hlen
    rw [List.cons_append, copyLoop, if_neg (by simp [hlf, hcr]), if_neg (by omega),
      ih hpath (by omega), hblank, if_neg Bool.false_ne_true]

theorem copySanitizedPath_path {b : List Byte} (hb : ∀ c ∈ b, isBlank c)
    (hpath : ∀ c ∈ path, isBlank c = false ∧ c ≠ 10 ∧ c ≠ 13)
    (hnl : ∀ c ∈ nl.head?, c = 10 ∨ c = 13) (hlen : path.length < pathLen) :
    copySanitizedPath (b ++ (path ++ nl)) = (path, false) := by
  have hhead : ∀ c ∈ (path ++ nl).head?, isBlank c = false := by
    intro c hc
    cases path with
    | nil =>
      rcases hnl c hc with rfl | rfl <;> decide
    | cons d path =>
      obtain rfl : d = c := Option.some.inj hc
      exact (hpath d List.mem_cons_self).1
  rw [copySanitizedPath, skipSpaces_append hb hhead]
  exact copyLoop_path hpath hnl (by omega)

end Path

/-- The fields of an entry that a line has. -/
def MapEntry.fields (e : MapEntry) : MapEntry where
  start := e.start
  stop := e.stop
  offset := e.offset
  devMajor := e.devMajor
  devMinor := e.devMinor
  inode := e.inode
  perms := e.perms
  path := e.path

/-- An entry of the map: the addresses are in order, and the path has no white space and is
shorter than the field for it. -/
structure MapEntry.Valid (e : MapEntry) : Prop where
  lt : e.start < e.stop
  path : ∀ c ∈ e.path, isBlank c = false ∧ c ≠ 10 ∧ c ≠ 13
  length_path : e.path.length < pathLen

/-- The line shows the entry: its numerals say the numbers of the entry, its permissions are
those of the entry, four characters without a blank, and its path is the path. -/
structure Shows (line : List Byte) (e : MapEntry) (l : Layout) (b nl : List Byte) : Prop where
  text : l.text = line
  separated : l.Separated
  start : l.start.value 16 = e.start.toNat
  stop : l.stop.value 16 = e.stop.toNat
  offset : l.offset.value 16 = e.offset.toNat
  devMajor : l.devMajor.value 16 = e.devMajor.toNat
  devMinor : l.devMinor.value 16 = e.devMinor.toNat
  inode : l.inode.value 10 = e.inode.toNat
  perms : l.perms = e.perms
  tail : l.tail = b ++ (e.path ++ nl)
  blank : ∀ c ∈ b, isBlank c
  newline : ∀ c ∈ nl.head?, c = 10 ∨ c = 13

/-- **The line of an entry is read as the entry.** -/
theorem parseMapsLine_shows {line b nl : List Byte} {e : MapEntry} {l : Layout} (he : e.Valid)
    (h : Shows line e l b nl) : parseMapsLine line = some (e.fields, false) := by
  have hlt := he.lt
  rw [UInt64.lt_iff_toNat_lt] at hlt
  refine parseMapsLine_iff.2 ⟨l, h.text, ?_, ?_⟩
  · constructor
    · rw [h.start]
      exact e.start.toNat_lt
    · rw [h.stop]
      exact e.stop.toNat_lt
    · rw [h.offset]
      exact e.offset.toNat_lt
    · rw [h.devMajor]
      exact e.devMajor.toNat_lt
    · rw [h.devMinor]
      exact e.devMinor.toNat_lt
    · rw [h.inode]
      exact e.inode.toNat_lt
    · rw [h.start, h.stop]
      exact hlt
  · rw [Layout.entry, h.start, h.stop, h.offset, h.devMajor, h.devMinor, h.inode, h.perms, h.tail,
      copySanitizedPath_path h.blank he.path h.newline he.length_path]
    simp only [UInt64.ofNat_toNat, MapEntry.fields]

/-- The line of an entry is read as the entry, and whatever is read is what a line says that is
laid out with its fields set apart, whose numerals fit 64 bits and whose addresses are in
order. -/
def LineOk (line : List Byte) : Prop :=
  (∀ (e : MapEntry) (l : Layout) (b nl : List Byte), e.Valid → Shows line e l b nl →
    parseMapsLine line = some (e.fields, false)) ∧
  ∀ r, parseMapsLine line = some r →
    ∃ l : Layout, l.text = line ∧ l.Separated ∧ l.Fits ∧ r = l.entry

/-- The line runs the permissions together with the offset, or the inode together with what
follows it, and is in order otherwise. -/
def RunTogether (line : List Byte) : Prop := ∃ l : Layout, l.text = line ∧ l.Fits ∧ ¬l.Separated

/-- **When a line is read as it should be**: for every line, exactly when it does not run fields
together that should be set apart. -/
theorem parseMapsLine_ok_iff (line : List Byte) : LineOk line ↔ ¬RunTogether line := by
  constructor
  · rintro ⟨-, hsound⟩ ⟨l, htext, hfits, hrun⟩
    obtain ⟨l', htext', hseparated, -⟩ := hsound _ (parseMapsLine_iff.2 ⟨l, htext, hfits, rfl⟩)
    obtain ⟨hgap, htail⟩ := Layout.text_inj (htext.trans htext'.symm)
    refine hrun ?_
    rw [Layout.Separated, hgap, htail]
    exact hseparated
  · intro hrun
    refine ⟨fun e l b nl he h => parseMapsLine_shows he h, fun r hr => ?_⟩
    obtain ⟨l, htext, hfits, hentry⟩ := parseMapsLine_iff.1 hr
    refine ⟨l, htext, ?_, hfits, hentry⟩
    by_contra hseparated
    exact hrun ⟨l, htext, hfits, hseparated⟩

/-- The parts of a line without permissions, whose offset is taken for both. -/
def missingPerms : Layout where
  start := ⟨[49], by simp, by simp [hexVal]⟩
  stop := ⟨[50], by simp, by simp [hexVal]⟩
  afterStop := []
  perms := [49, 48, 48, 48]
  gap := []
  offset := ⟨[48, 48, 48, 48], by simp, by simp [hexVal]⟩
  afterOffset := []
  devMajor := ⟨[56], by simp, by simp [hexVal]⟩
  devMinor := ⟨[49], by simp, by simp [hexVal]⟩
  afterMinor := []
  inode := ⟨[53], by simp, by simp [decimalVal]⟩
  tail := []
  blank_afterStop := by simp
  length_perms := rfl
  valid_perms := by simp [isBlank]
  blank_gap := by simp
  blank_afterOffset := by simp
  blank_afterMinor := by simp
  head_tail := by simp

/-- **A line without its permissions is accepted**: of `1-2 10000000 8:1 5` the first four digits
of the offset are taken for them. -/
theorem parseMapsLine_missing_perms :
    parseMapsLine [49, 45, 50, 32, 49, 48, 48, 48, 48, 48, 48, 48, 32, 56, 58, 49, 32, 53] =
      some ({ start := 1, stop := 2, offset := 0, devMajor := 8, devMinor := 1, inode := 5,
              perms := [49, 48, 48, 48] }, false) ∧
    ¬LineOk [49, 45, 50, 32, 49, 48, 48, 48, 48, 48, 48, 48, 32, 56, 58, 49, 32, 53] := by
  have hparse : parseMapsLine
      [49, 45, 50, 32, 49, 48, 48, 48, 48, 48, 48, 48, 32, 56, 58, 49, 32, 53] =
        some ({ start := 1, stop := 2, offset := 0, devMajor := 8, devMinor := 1, inode := 5,
                perms := [49, 48, 48, 48] }, false) := by
    decide
  refine ⟨hparse, ?_⟩
  rintro ⟨-, hsound⟩
  obtain ⟨l, htext, hseparated, -⟩ := hsound _ hparse
  have hgap : l.gap = missingPerms.gap := (@Layout.text_inj l missingPerms htext).1
  exact hseparated.1 hgap

end Userpc
end Tools
end V6User
