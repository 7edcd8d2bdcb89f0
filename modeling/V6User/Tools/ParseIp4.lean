import Mathlib.Data.Nat.Digits.Defs
import V6User.Tools.ParseNum

/-!
# Addresses in the network configuration

`programs/init/init.c`: `parse_ip4`.

The numbers of an address are read in an `int` that wraps, and their digits are counted in
another one; both are looked at only where a number ends.  So a number is taken when its low 32
bits make an `int` of at most 255, which also numbers far above 255 do.  The function does what
it should exactly on the strings where this makes no difference (`parseIp4_ok_iff`).
-/

namespace V6User
namespace Tools

open Shell (Byte)
open CInt Numeral

/-- `'.'`. -/
abbrev dot : Byte := 46

/-- What ends an address: the end of the string, a newline, a carriage return, a blank, a tab
or `'#'`. -/
def addressEnds : List Byte := [0, 10, 13, 32, 9, 35]

/-- What the end of a number makes of `parts`, unless it makes the function return -1. -/
def addPart (parts : List ℤ) (val digits : ℤ) : Option (List ℤ) :=
  if digits = 0 ∨ 255 < val ∨ 3 < parts.length then none else some (parts ++ [val])

/-- The loop of `parse_ip4` up to its `break`, with the `parts` that it has. -/
def ip4Loop (parts : List ℤ) (val digits : ℤ) : List Byte → Option (List ℤ)
  | [] => addPart parts val digits
  | c :: s =>
    match decimalVal c with
    | some d => ip4Loop parts (int32 (val * 10 + d)) (int32 (digits + 1)) s
    | none =>
      if c = dot then
        match addPart parts val digits with
        | some parts => ip4Loop parts 0 0 s
        | none => none
      else if c ∈ addressEnds then addPart parts val digits
      else none

/-- `(uint32)parts[0] | (uint32)parts[1] << 8 | …`. -/
def networkOrder (parts : List ℤ) : UInt32 :=
  UInt32.ofInt (parts.getD 0 0) ||| UInt32.ofInt (parts.getD 1 0) <<< 8 |||
    UInt32.ofInt (parts.getD 2 0) <<< 16 ||| UInt32.ofInt (parts.getD 3 0) <<< 24

/-- `parse_ip4(s, out)`: what it returns, and `*out` then. -/
def parseIp4 (s : List Byte) (out : UInt32) : ℤ × UInt32 :=
  match ip4Loop [] 0 0 s with
  | some parts => if parts.length ≠ 4 then (-1, out) else (0, networkOrder parts)
  | none => (-1, out)

/-! ### What an address says -/

/-- A decimal number as it is written. -/
abbrev Decimal : Type := Digits decimalVal

/-- The string begins with these numbers, separated by single dots, and the address ends
after them. -/
def Dotted (s : List Byte) (ts : List Decimal) : Prop :=
  ts ≠ [] ∧ ∃ rest, s = [dot].intercalate (ts.map Digits.chars) ++ rest ∧
    ∀ c ∈ rest.head?, c ∈ addressEnds

/-- The string begins with four numbers, of 0 to 255 each. -/
def IsAddress (s : List Byte) (ts : List Decimal) : Prop :=
  Dotted s ts ∧ ts.length = 4 ∧ ∀ t ∈ ts, t.value 10 ≤ 255

/-- `parse_ip4` returns 0 and stores the four values of an address, the first one in the low
byte, and returns -1 and stores nothing where there is none. -/
def Ip4Ok (s : List Byte) : Prop :=
  (∀ ts, IsAddress s ts → ∀ out, ∃ word, parseIp4 s out = (0, word) ∧
    word.toNat = Nat.ofDigits 256 (ts.map (Digits.value 10))) ∧
  ((∀ ts, ¬IsAddress s ts) → ∀ out, parseIp4 s out = (-1, out))

/-- The number passes the tests at its end. -/
def Taken (t : Decimal) : Prop := int32 t.chars.length ≠ 0 ∧ int32 (t.value 10) ≤ 255

instance : DecidablePred Taken := fun t =>
  inferInstanceAs (Decidable (int32 t.chars.length ≠ 0 ∧ int32 (t.value 10) ≤ 255))

/-! ### The loop -/

section Loop

variable {s rest : List Byte} {parts : List ℤ} {t : Decimal} {ts : List Decimal}

theorem decimalVal_dot : decimalVal dot = none := rfl

theorem decimalVal_of_ends {c : Byte} (h : c ∈ addressEnds) : decimalVal c = none ∧ c ≠ dot := by
  simp only [addressEnds, List.mem_cons, List.not_mem_nil, or_false] at h
  rcases h with rfl | rfl | rfl | rfl | rfl | rfl <;> exact ⟨rfl, by decide⟩

/-- Digits are added to the number, whatever follows them. -/
theorem ip4Loop_chars (cs : List Byte) (h : ∀ c ∈ cs, (decimalVal c).isSome) (n k : ℕ) :
    ip4Loop parts (int32 n) (int32 k) (cs ++ rest) =
      ip4Loop parts (int32 (more 10 n (cs.filterMap decimalVal) : ℕ))
        (int32 (k + cs.length : ℕ)) rest := by
  induction cs generalizing n k with
  | nil => rfl
  | cons c cs ih =>
    obtain ⟨hc, hcs⟩ := List.forall_mem_cons.1 h
    obtain ⟨d, hd⟩ := Option.isSome_iff_exists.1 hc
    have hval : int32 (int32 n * 10 + d) = int32 (n * 10 + d : ℕ) := by
      rw [int32_mul_add]
      push_cast
      rfl
    have hcount : int32 (int32 k + 1) = int32 (k + 1 : ℕ) := by
      have hone := int32_mul_add k 1 1
      rw [Int.mul_one, Int.mul_one] at hone
      rw [hone]
      push_cast
      rfl
    rw [List.cons_append, ip4Loop, hd]
    dsimp only
    rw [hval, hcount, ih hcs, List.filterMap_cons_some hd, more_cons, List.length_cons,
      Nat.add_right_comm, Nat.add_assoc]

/-- A number, and then the rest. -/
theorem ip4Loop_number (t : Decimal) (rest : List Byte) :
    ip4Loop parts 0 0 (t.chars ++ rest) =
      ip4Loop parts (int32 (t.value 10)) (int32 t.chars.length) rest := by
  have h := @ip4Loop_chars rest parts t.chars t.valid 0 0
  rw [Nat.zero_add] at h
  exact h

theorem addPart_eq : addPart parts (int32 (t.value 10)) (int32 t.chars.length) =
    if Taken t ∧ parts.length ≤ 3 then some (parts ++ [int32 (t.value 10)]) else none := by
  rw [addPart]
  by_cases h : Taken t ∧ parts.length ≤ 3
  · have hnot : ¬(int32 t.chars.length = 0 ∨ 255 < int32 (t.value 10) ∨ 3 < parts.length) := by
      obtain ⟨⟨hcount, hval⟩, hroom⟩ := h
      omega
    rw [if_neg hnot, if_pos h]
  · have hsome : int32 t.chars.length = 0 ∨ 255 < int32 (t.value 10) ∨ 3 < parts.length := by
      by_contra hnone
      rw [not_or, not_or] at hnone
      exact h ⟨⟨hnone.1, by omega⟩, by omega⟩
    rw [if_pos hsome, if_neg h]

theorem dotted_singleton : Dotted s [t] ↔
    ∃ rest, s = t.chars ++ rest ∧ ∀ c ∈ rest.head?, c ∈ addressEnds := by
  simp [Dotted]

theorem dotted_cons_cons {t' : Decimal} : Dotted s (t :: t' :: ts) ↔
    ∃ s', s = t.chars ++ dot :: s' ∧ Dotted s' (t' :: ts) := by
  unfold Dotted
  rw [List.map_cons, List.map_cons, List.intercalate_cons_cons]
  constructor
  · rintro ⟨-, rest, rfl, hrest⟩
    exact ⟨_, by simp, List.cons_ne_nil _ _, rest, rfl, hrest⟩
  · rintro ⟨s', rfl, -, rest, rfl, hrest⟩
    exact ⟨List.cons_ne_nil _ _, rest, by simp, hrest⟩

/-- **What the loop makes of numbers**: they all have to be taken, and to be four at most. -/
theorem ip4Loop_dotted (h : Dotted s ts) : ip4Loop parts 0 0 s =
    if (∀ t ∈ ts, Taken t) ∧ parts.length + ts.length ≤ 4 then
      some (parts ++ ts.map fun t => int32 (t.value 10))
    else none := by
  induction ts generalizing s parts with
  | nil => exact absurd rfl h.1
  | cons t ts ih =>
    cases ts with
    | nil =>
      obtain ⟨rest, rfl, hrest⟩ := dotted_singleton.1 h
      have hend : ip4Loop parts (int32 (t.value 10)) (int32 t.chars.length) rest =
          addPart parts (int32 (t.value 10)) (int32 t.chars.length) := by
        cases rest with
        | nil => rfl
        | cons c rest =>
          have hc := hrest c rfl
          obtain ⟨hnone, hdot⟩ := decimalVal_of_ends hc
          rw [ip4Loop, hnone]
          dsimp only
          rw [if_neg hdot, if_pos hc]
      rw [ip4Loop_number, hend, addPart_eq]
      refine if_congr ?_ rfl rfl
      rw [List.forall_mem_singleton, List.length_singleton]
      exact and_congr_right fun _ => by omega
    | cons t' ts =>
      obtain ⟨s', rfl, hrest⟩ := dotted_cons_cons.1 h
      rw [ip4Loop_number, ip4Loop, decimalVal_dot]
      dsimp only
      rw [if_pos rfl, addPart_eq]
      by_cases htaken : Taken t ∧ parts.length ≤ 3
      · rw [if_pos htaken]
        dsimp only
        rw [ih hrest, List.append_assoc, List.length_append, List.length_singleton]
        refine if_congr ?_ rfl rfl
        rw [List.forall_mem_cons (a := t), List.length_cons (a := t)]
        constructor
        · rintro ⟨hall, hroom⟩
          exact ⟨⟨htaken.1, hall⟩, by omega⟩
        · rintro ⟨⟨-, hall⟩, hroom⟩
          exact ⟨hall, by omega⟩
      · rw [if_neg htaken, if_neg]
        rintro ⟨hall, hroom⟩
        rw [List.length_cons, List.length_cons] at hroom
        exact htaken ⟨hall t List.mem_cons_self, by omega⟩

/-- Where the loop gives parts there were numbers. -/
theorem dotted_of_ip4Loop {ps : List ℤ} (h : ip4Loop parts 0 0 s = some ps) :
    ∃ ts, Dotted s ts := by
  obtain ⟨n, hn⟩ : ∃ n, s.length < n := ⟨_, Nat.lt_succ_self _⟩
  induction n generalizing s parts with
  | zero => exact absurd hn (Nat.not_lt_zero _)
  | succ n ih =>
    obtain ⟨symbols, rest, rfl, hsymbols, hrest⟩ := exists_spanDigits decimalVal s
    by_cases hne : symbols = []
    · -- a number without digits ends the function
      have hzero : ∀ parts : List ℤ, addPart parts 0 0 = none := fun _ => if_pos (.inl rfl)
      subst hne
      rw [List.nil_append] at h
      cases rest with
      | nil => exact absurd ((hzero parts).symm.trans h) nofun
      | cons c rest =>
        rw [ip4Loop, hrest c rfl] at h
        dsimp only at h
        rw [hzero] at h
        split_ifs at h
    · let t : Decimal := ⟨symbols, hne, hsymbols⟩
      have hloop : ip4Loop parts 0 0 (symbols ++ rest) =
          ip4Loop parts (int32 (t.value 10)) (int32 t.chars.length) rest := ip4Loop_number t rest
      cases rest with
      | nil => exact ⟨[t], dotted_singleton.2 ⟨[], rfl, by simp⟩⟩
      | cons c rest =>
        rw [hloop, ip4Loop, hrest c rfl] at h
        dsimp only at h
        by_cases hdot : c = dot
        · rw [if_pos hdot] at h
          rcases hpart : addPart parts (int32 (t.value 10)) (int32 t.chars.length) with _ | parts'
          · rw [hpart] at h
            exact absurd h nofun
          · rw [hpart] at h
            have hlen : rest.length < n := by
              rw [List.length_append, List.length_cons] at hn
              omega
            obtain ⟨ts, hts⟩ := ih h hlen
            obtain ⟨t', ts, rfl⟩ := List.exists_cons_of_ne_nil hts.1
            exact ⟨t :: t' :: ts, dotted_cons_cons.2 ⟨rest, by rw [hdot], hts⟩⟩
        · rw [if_neg hdot] at h
          by_cases hend : c ∈ addressEnds
          · exact ⟨[t], dotted_singleton.2 ⟨c :: rest, rfl, by simpa using hend⟩⟩
          · rw [if_neg hend] at h
            exact absurd h nofun

/-- The numbers of a string are fixed. -/
theorem Dotted.unique {ts' : List Decimal} (h : Dotted s ts) (h' : Dotted s ts') : ts = ts' := by
  have hends : ∀ {rest : List Byte}, (∀ c ∈ rest.head?, c ∈ addressEnds) →
      ∀ c ∈ rest.head?, decimalVal c = none :=
    fun h c hc => (decimalVal_of_ends (h c hc)).1
  have hdots : ∀ {r : List Byte}, ∀ c ∈ (dot :: r).head?, decimalVal c = none := by
    intro r c hc
    obtain rfl := Option.some.inj hc
    exact decimalVal_dot
  induction ts generalizing s ts' with
  | nil => exact absurd rfl h.1
  | cons t ts ih =>
    obtain ⟨t', ts', rfl⟩ := List.exists_cons_of_ne_nil h'.1
    rcases ts with _ | ⟨u, ts⟩ <;> rcases ts' with _ | ⟨u', ts'⟩
    · obtain ⟨rest, rfl, hrest⟩ := dotted_singleton.1 h
      obtain ⟨rest', hs, hrest'⟩ := dotted_singleton.1 h'
      rw [(Digits.append_inj (hends hrest) (hends hrest') hs).1]
    · obtain ⟨rest, rfl, hrest⟩ := dotted_singleton.1 h
      obtain ⟨r', hs, -⟩ := dotted_cons_cons.1 h'
      obtain ⟨-, rfl⟩ := Digits.append_inj (hends hrest) hdots hs
      exact absurd rfl (decimalVal_of_ends (hrest dot rfl)).2
    · obtain ⟨r, rfl, -⟩ := dotted_cons_cons.1 h
      obtain ⟨rest', hs, hrest'⟩ := dotted_singleton.1 h'
      obtain ⟨-, rfl⟩ := Digits.append_inj hdots (hends hrest') hs
      exact absurd rfl (decimalVal_of_ends (hrest' dot rfl)).2
    · obtain ⟨r, rfl, hr⟩ := dotted_cons_cons.1 h
      obtain ⟨r', hs, hr'⟩ := dotted_cons_cons.1 h'
      obtain ⟨rfl, heq⟩ := Digits.append_inj hdots hdots hs
      obtain rfl := (List.cons.inj heq).2
      rw [ih hr hr']

end Loop

/-! ### The four parts -/

theorem toNat_ofInt_natCast {n : ℕ} (h : n < 256) : (UInt32.ofInt n).toNat = n := by
  simp [UInt32.ofInt]
  omega

theorem or_shifts {a b c d : ℕ} (ha : a < 256) (hb : b < 256) (hc : c < 256) :
    a ||| b <<< 8 ||| c <<< 16 ||| d <<< 24 = a + 256 * (b + 256 * (c + 256 * d)) := by
  have hlow : a ||| b <<< 8 = b <<< 8 + a := by
    rw [Nat.or_comm, Nat.shiftLeft_add_eq_or_of_lt (by omega)]
  rw [hlow, Nat.or_comm (b <<< 8 + a), ← Nat.shiftLeft_add_eq_or_of_lt (by omega),
    Nat.or_comm _ (d <<< 24), ← Nat.shiftLeft_add_eq_or_of_lt (by omega)]
  omega

/-- The parts stand in the order of the bytes. -/
theorem toNat_networkOrder {a b c d : ℕ} (ha : a < 256) (hb : b < 256) (hc : c < 256)
    (hd : d < 256) : (networkOrder [(a : ℤ), (b : ℤ), (c : ℤ), (d : ℤ)]).toNat =
      Nat.ofDigits 256 [a, b, c, d] := by
  have hshift : ∀ {x : ℕ} (k : UInt32), x < 256 → k.toNat ≤ 24 →
      (UInt32.ofInt x <<< k).toNat = x <<< k.toNat := by
    intro x k hx hk
    have hpow : 2 ^ k.toNat ≤ 2 ^ 24 := Nat.pow_le_pow_right (by decide) hk
    have hlt : x <<< k.toNat < 2 ^ 32 := by
      rw [Nat.shiftLeft_eq]
      exact (Nat.mul_lt_mul_of_lt_of_le hx hpow (by decide)).trans_le (by decide)
    have hcount : k.toNat % 32 = k.toNat := Nat.mod_eq_of_lt (by omega)
    rw [UInt32.toNat_shiftLeft, toNat_ofInt_natCast hx, hcount, Nat.mod_eq_of_lt hlt]
  change (UInt32.ofInt a ||| UInt32.ofInt b <<< 8 ||| UInt32.ofInt c <<< 16 |||
    UInt32.ofInt d <<< 24).toNat = _
  rw [UInt32.toNat_or, UInt32.toNat_or, UInt32.toNat_or, toNat_ofInt_natCast ha,
    hshift 8 hb (by decide), hshift 16 hc (by decide), hshift 24 hd (by decide)]
  exact or_shifts ha hb hc

/-! ### The function -/

section Parse

variable {s : List Byte} {t : Decimal} {ts : List Decimal}

/-- **What the function makes of numbers.** -/
theorem parseIp4_dotted (h : Dotted s ts) (out : UInt32) : parseIp4 s out =
    if (∀ t ∈ ts, Taken t) ∧ ts.length = 4 then
      (0, networkOrder (ts.map fun t => int32 (t.value 10)))
    else (-1, out) := by
  have hloop := @ip4Loop_dotted s [] ts h
  rw [List.length_nil, Nat.zero_add, List.nil_append] at hloop
  rw [parseIp4, hloop]
  by_cases htaken : (∀ t ∈ ts, Taken t) ∧ ts.length ≤ 4
  · rw [if_pos htaken]
    dsimp only
    rw [List.length_map]
    by_cases hlen : ts.length = 4
    · rw [if_neg (by omega), if_pos ⟨htaken.1, hlen⟩]
    · rw [if_pos hlen, if_neg fun hall => hlen hall.2]
  · rw [if_neg htaken, if_neg fun hall => htaken ⟨hall.1, Nat.le_of_eq hall.2⟩]

/-- The word of an address. -/
theorem toNat_networkOrder_of_small (hlen : ts.length = 4) (hsmall : ∀ t ∈ ts, t.value 10 ≤ 255) :
    (networkOrder (ts.map fun t => int32 (t.value 10))).toNat =
      Nat.ofDigits 256 (ts.map (Digits.value 10)) := by
  have hparts : (ts.map fun t => int32 (t.value 10)) = ts.map fun t => (t.value 10 : ℤ) := by
    refine List.map_congr_left fun t ht => ?_
    have hle := hsmall t ht
    exact int32_of_range (by omega) (by omega)
  rw [hparts]
  obtain ⟨a, b, c, d, rfl⟩ : ∃ a b c d, ts = [a, b, c, d] := by
    rcases ts with _ | ⟨a, _ | ⟨b, _ | ⟨c, _ | ⟨d, _ | ⟨e, ts⟩⟩⟩⟩⟩
    all_goals simp at hlen
    exact ⟨a, b, c, d, rfl⟩
  simp only [List.forall_mem_cons] at hsmall
  obtain ⟨ha, hb, hc, hd, -⟩ := hsmall
  exact toNat_networkOrder (by omega) (by omega) (by omega) (by omega)

/-- **When an address is read as it should be.**  For every string: `parse_ip4` returns 0 and
stores the four values where the string begins with an address, and else returns -1 and stores
nothing, exactly if four numbers that it begins with all pass the tests when they are all at
most 255, and not else. -/
theorem parseIp4_ok_iff (s : List Byte) : Ip4Ok s ↔
    ∀ ts, Dotted s ts → ts.length = 4 →
      ((∀ t ∈ ts, Taken t) ↔ ∀ t ∈ ts, t.value 10 ≤ 255) := by
  constructor
  · rintro ⟨haccepts, hrejects⟩ ts hts hlen
    have hparse := parseIp4_dotted hts 0
    constructor
    · intro htaken
      by_contra hsmall
      have hnone : ∀ ts', ¬IsAddress s ts' := by
        rintro ts' ⟨hts', -, hsmall'⟩
        exact hsmall (hts.unique hts' ▸ hsmall')
      rw [if_pos ⟨htaken, hlen⟩, hrejects hnone 0] at hparse
      have hreturn : (-1 : ℤ) = 0 := congrArg Prod.fst hparse
      omega
    · intro hsmall
      by_contra htaken
      obtain ⟨word, hword, -⟩ := haccepts ts ⟨hts, hlen, hsmall⟩ 0
      rw [if_neg fun hall => htaken hall.1, hword] at hparse
      have hreturn : (0 : ℤ) = -1 := congrArg Prod.fst hparse
      omega
  · intro hiff
    refine ⟨?_, ?_⟩
    · rintro ts ⟨hts, hlen, hsmall⟩ out
      have htaken := (hiff ts hts hlen).2 hsmall
      refine ⟨_, ?_, toNat_networkOrder_of_small hlen hsmall⟩
      rw [parseIp4_dotted hts, if_pos ⟨htaken, hlen⟩]
    · intro hnone out
      rcases hloop : ip4Loop [] 0 0 s with _ | ps
      · rw [parseIp4, hloop]
      · obtain ⟨ts, hts⟩ := dotted_of_ip4Loop hloop
        rw [parseIp4_dotted hts, if_neg]
        rintro ⟨htaken, hlen⟩
        exact hnone ts ⟨hts, hlen, (hiff ts hts hlen).1 htaken⟩

end Parse

/-- **The address `4294967296.0.0.0`** is taken for `0.0.0.0`. -/
theorem not_ip4Ok : ¬Ip4Ok [52, 50, 57, 52, 57, 54, 55, 50, 57, 54, 46, 48, 46, 48, 46, 48] := by
  rintro ⟨-, hrejects⟩
  let zero : Decimal := ⟨[48], by decide, by simp [decimalVal]⟩
  let large : Decimal := ⟨[52, 50, 57, 52, 57, 54, 55, 50, 57, 54], by decide, by simp [decimalVal]⟩
  have hdotted : Dotted [52, 50, 57, 52, 57, 54, 55, 50, 57, 54, 46, 48, 46, 48, 46, 48]
      [large, zero, zero, zero] := ⟨List.cons_ne_nil _ _, [], rfl, by simp⟩
  have hnone : ∀ ts, ¬IsAddress [52, 50, 57, 52, 57, 54, 55, 50, 57, 54, 46, 48, 46, 48, 46, 48]
      ts := by
    rintro ts ⟨hts, -, hsmall⟩
    obtain rfl := hdotted.unique hts
    exact absurd (hsmall large List.mem_cons_self) (by decide)
  have hreturn : (0 : ℤ) = -1 := congrArg Prod.fst (hrejects hnone 0)
  omega

end Tools
end V6User
