import Mathlib.Data.Nat.Digits.Lemmas
import V6User.Base.CInt

/-!
# Reading numerals

A numeral is read from the left: each digit multiplies what was read so far by the base and is
added (`more`).  A loop that does so in a fixed width has in the end the number that the digits
make, cut to the width (`wrapped_eq`); a loop that tests before each digit whether there is
room for it has the number itself, and gives up exactly when the number has none
(`guarded_eq`).

`spanDigits` takes the digits from the beginning of a text.
-/

namespace V6User
namespace Numeral

open CInt

/-- The number that the digits make when they are written after those of `n`. -/
def more (b n : ℕ) (ds : List ℕ) : ℕ := ds.foldl (fun n d => n * b + d) n

section More

variable {b n : ℕ} {ds : List ℕ}

theorem more_cons {d : ℕ} : more b n (d :: ds) = more b (n * b + d) ds := rfl

/-- The last `k` digits of a number make what they stand for. -/
theorem more_range (b n k : ℕ) :
    more b 0 ((List.range k).reverse.map fun j => n / b ^ j % b) = n % b ^ k := by
  induction k generalizing n with
  | zero => rw [pow_zero, Nat.mod_one]; rfl
  | succ k ih =>
    have hshift : (fun j => n / b ^ j % b) ∘ Nat.succ = fun j => n / b / b ^ j % b := by
      funext j
      rw [Function.comp_apply, Nat.div_div_eq_div_mul, Nat.succ_eq_add_one, pow_succ']
    have hfirst : more b 0 ((List.range k).reverse.map fun j => n / b / b ^ j % b) =
        n / b % b ^ k := ih (n / b)
    rw [more] at hfirst
    rw [List.range_succ_eq_map, List.reverse_cons, List.map_append, ← List.map_reverse,
      List.map_map, hshift, more, List.foldl_append, hfirst, pow_succ', Nat.mod_mul]
    rw [List.map_singleton, List.foldl_cons, List.foldl_nil, pow_zero, Nat.div_one]
    ring

/-- The digits of a number make it again. -/
theorem more_digits (b n : ℕ) : more b 0 (Nat.digits b n).reverse = n := by
  rw [more, List.foldl_reverse]
  conv_rhs => rw [← Nat.ofDigits_digits b n, Nat.ofDigits_eq_foldr]
  simp only [Nat.cast_id, Nat.mul_comm, Nat.add_comm]

/-- A number does not get smaller with more digits. -/
theorem le_more (hb : 0 < b) : n ≤ more b n ds := by
  induction ds generalizing n with
  | nil => exact Nat.le_refl n
  | cons d ds ih =>
    have hle : n ≤ n * b := Nat.le_mul_of_pos_right n hb
    exact (hle.trans (Nat.le_add_right _ d)).trans ih

/-- What a loop that works in 64 bits makes of the digits. -/
def wrapped (b : ℕ) (n : ℤ) (ds : List ℕ) : ℤ := ds.foldl (fun n (d : ℕ) => int64 (n * b + d)) n

/-- **A loop in 64 bits has the number cut to 64 bits.** -/
theorem wrapped_eq (b n : ℕ) (ds : List ℕ) : wrapped b (int64 n) ds = int64 (more b n ds : ℕ) := by
  induction ds generalizing n with
  | nil => rw [wrapped, List.foldl_nil, more, List.foldl_nil]
  | cons d ds ih =>
    have hstep : int64 (int64 n * b + d) = int64 (n * b + d : ℕ) := by
      rw [int64_mul_add]
      push_cast
      rfl
    rw [wrapped, List.foldl_cons, hstep, more_cons]
    exact ih (n * b + d)

end More

/-! ### A loop that tests for room -/

/-- The loop that multiplies by `b` and adds a digit where `max` has room for the result. -/
def guarded (max b : ℕ) : ℕ → List ℕ → Option ℕ
  | n, [] => some n
  | n, d :: ds => if (max - d) / b < n then none else guarded max b (n * b + d) ds

/-- The test is the one for room. -/
theorem div_lt_iff {max b n d : ℕ} (hb : 0 < b) (hd : d ≤ max) :
    (max - d) / b < n ↔ max < n * b + d := by
  rw [Nat.div_lt_iff_lt_mul hb]
  omega

/-- **The loop gives up exactly when there is no room for the number.** -/
theorem guarded_eq {max b n : ℕ} {ds : List ℕ} (hb : 0 < b) (hds : ∀ d ∈ ds, d ≤ max)
    (hn : n ≤ max) :
    guarded max b n ds = if more b n ds ≤ max then some (more b n ds) else none := by
  induction ds generalizing n with
  | nil => exact (if_pos hn).symm
  | cons d ds ih =>
    obtain ⟨hd, hds⟩ := List.forall_mem_cons.1 hds
    rw [guarded, more_cons]
    by_cases hroom : max < n * b + d
    · have hmore : n * b + d ≤ more b (n * b + d) ds := le_more hb
      rw [if_pos ((div_lt_iff hb hd).2 hroom), if_neg (by omega)]
    · rw [if_neg (mt (div_lt_iff hb hd).1 hroom)]
      exact ih hds (Nat.le_of_not_lt hroom)

/-- The loop that multiplies by `b`, adds a digit, and gives up if the result is above `max`. -/
def checked (max b : ℕ) : ℕ → List ℕ → Option ℕ
  | n, [] => some n
  | n, d :: ds => if max < n * b + d then none else checked max b (n * b + d) ds

/-- **The two tests are the same**: before a digit is added, and after it. -/
theorem checked_eq_guarded {max b n : ℕ} {ds : List ℕ} (hb : 0 < b) (hds : ∀ d ∈ ds, d ≤ max) :
    checked max b n ds = guarded max b n ds := by
  induction ds generalizing n with
  | nil => rfl
  | cons d ds ih =>
    obtain ⟨hd, hds⟩ := List.forall_mem_cons.1 hds
    rw [checked, guarded]
    simp only [div_lt_iff hb hd, ih hds]

/-! ### The digits at the beginning of a text -/

/-- The digits at the beginning of a text, and what follows them. -/
def spanDigits {α : Type*} (val : α → Option ℕ) : List α → List ℕ × List α
  | [] => ([], [])
  | c :: s =>
    match val c with
    | some d => (d :: (spanDigits val s).1, (spanDigits val s).2)
    | none => ([], c :: s)

section Span

variable {α : Type*} {val : α → Option ℕ} {s rest : List α}

theorem spanDigits_rest (h : ∀ c ∈ s.head?, val c = none) : spanDigits val s = ([], s) := by
  cases s with
  | nil => rfl
  | cons c s => rw [spanDigits, h c rfl]

/-- The digits end where the next symbol is none. -/
theorem spanDigits_append (hs : ∀ c ∈ s, (val c).isSome)
    (hrest : ∀ c ∈ rest.head?, val c = none) :
    spanDigits val (s ++ rest) = (s.filterMap val, rest) := by
  induction s with
  | nil => exact spanDigits_rest hrest
  | cons c s ih =>
    obtain ⟨hc, hs⟩ := List.forall_mem_cons.1 hs
    obtain ⟨d, hd⟩ := Option.isSome_iff_exists.1 hc
    rw [List.cons_append, spanDigits, hd, ih hs, List.filterMap_cons_some hd]

/-- A text is its digits and what follows them. -/
theorem exists_spanDigits (val : α → Option ℕ) (s : List α) :
    ∃ symbols rest, s = symbols ++ rest ∧ (∀ c ∈ symbols, (val c).isSome) ∧
      ∀ c ∈ rest.head?, val c = none := by
  induction s with
  | nil => exact ⟨[], [], rfl, by simp, by simp⟩
  | cons c s ih =>
    cases hc : val c with
    | none => exact ⟨[], c :: s, rfl, by simp, by simpa using hc⟩
    | some d =>
      obtain ⟨symbols, rest, rfl, hsymbols, hrest⟩ := ih
      refine ⟨c :: symbols, rest, rfl, ?_, hrest⟩
      exact List.forall_mem_cons.2 ⟨by rw [hc]; rfl, hsymbols⟩

end Span

/-- The text of a numeral: digits, and at least one. -/
structure Digits {α : Type*} (val : α → Option ℕ) where
  chars : List α
  ne_nil : chars ≠ []
  valid : ∀ c ∈ chars, (val c).isSome

namespace Digits

variable {α : Type*} {val : α → Option ℕ}

/-- The values of the digits. -/
def values (t : Digits val) : List ℕ := t.chars.filterMap val

/-- The number that a numeral says in base `b`. -/
def value (b : ℕ) (t : Digits val) : ℕ := more b 0 t.values

/-- A numeral ends where the next symbol is no digit. -/
theorem append_inj {t t' : Digits val} {rest rest' : List α}
    (hrest : ∀ c ∈ rest.head?, val c = none) (hrest' : ∀ c ∈ rest'.head?, val c = none)
    (h : t.chars ++ rest = t'.chars ++ rest') : t = t' ∧ rest = rest' := by
  have hspan := spanDigits_append t.valid hrest
  rw [h, spanDigits_append t'.valid hrest'] at hspan
  obtain rfl : rest' = rest := congrArg Prod.snd hspan
  obtain ⟨chars, hne, hvalid⟩ := t
  obtain ⟨chars', hne', hvalid'⟩ := t'
  obtain rfl : chars = chars' := List.append_cancel_right h
  exact ⟨rfl, rfl⟩

end Digits

end Numeral
end V6User
