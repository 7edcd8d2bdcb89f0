import V6User.Base.Flat
import V6User.Base.Fuel

/-!
# Comparing bytes

`lib/ulib.c`: `memcmp` and `strcmp`, in one flat memory.

Both look for the first bytes that differ, and return the difference of these two
(`memcmp_eq`, `strcmp_settles`).  `strcmp` takes them as unsigned bytes, so that its sign is
that of the lexicographic order.  `memcmp` takes them as plain `char`s, which are signed on
x86_64, and so orders a byte from 128 on below one that is not (`memcmp_sign_iff`).
-/

namespace V6User
namespace Ulib

open Flat Fuel

/-- The value of a byte as a plain `char`. -/
def char (b : UInt8) : ℤ := if b.toNat < 128 then b.toNat else b.toNat - 256

/-- `(uchar)c`. -/
def uchar (b : UInt8) : ℤ := b.toNat

/-- The `while` loop of `memcmp`. -/
def memcmpFrom (m : Memory) : ℕ → ℤ → ℤ → Except Stop ℤ
  | 0, _, _ => .ok 0
  | n + 1, p1, p2 => do
    let a ← read m p1
    let b ← read m p2
    if a ≠ b then .ok (char a - char b) else memcmpFrom m n (p1 + 1) (p2 + 1)

/-- `memcmp(s1, s2, n)`. -/
def memcmp (m : Memory) (s1 s2 : ℤ) (n : UInt32) : Except Stop ℤ := memcmpFrom m n.toNat s1 s2

/-- `strcmp(p, q)`; each turn of the loop spends one unit of fuel. -/
def strcmp (m : Memory) : ℕ → ℤ → ℤ → Except Stop ℤ
  | 0, _, _ => .error .fuel
  | fuel + 1, p, q => do
    let a ← read m p
    let b ← read m q
    if a ≠ 0 ∧ a = b then strcmp m fuel (p + 1) (q + 1) else .ok (uchar a - uchar b)

/-! ### The first difference -/

/-- The first bytes in which two lists differ. -/
def firstDiff : List UInt8 → List UInt8 → Option (UInt8 × UInt8)
  | a :: l₁, b :: l₂ => if a = b then firstDiff l₁ l₂ else some (a, b)
  | _, _ => none

/-- The difference of the first bytes that differ, each with the value `v` gives it. -/
def difference (v : UInt8 → ℤ) (l₁ l₂ : List UInt8) : ℤ :=
  match firstDiff l₁ l₂ with
  | none => 0
  | some (a, b) => v a - v b

/-- The sign of `r` is that of the lexicographic comparison of unsigned bytes. -/
def HasSign (r : ℤ) (l₁ l₂ : List UInt8) : Prop :=
  (r < 0 ↔ l₁ < l₂) ∧ (r = 0 ↔ l₁ = l₂) ∧ (0 < r ↔ l₂ < l₁)

/-- The first bytes that differ, if any do, have the same top bit. -/
def SameHalf (l₁ l₂ : List UInt8) : Prop :=
  ∀ a b, firstDiff l₁ l₂ = some (a, b) → (a.toNat < 128 ↔ b.toNat < 128)

variable {l₁ l₂ : List UInt8} {a b : UInt8} {m : Memory} {p p1 p2 q r r' : ℤ}

theorem difference_cons (v : UInt8 → ℤ) : difference v (a :: l₁) (b :: l₂) =
    if a = b then difference v l₁ l₂ else v a - v b := by
  unfold difference
  rw [firstDiff]
  split_ifs <;> rfl

/-- Lists of one length without a first difference are the same. -/
theorem firstDiff_eq_none (hlen : l₁.length = l₂.length) : firstDiff l₁ l₂ = none → l₁ = l₂ := by
  induction l₁ generalizing l₂ with
  | nil => exact fun _ => (List.length_eq_zero_iff.1 hlen.symm).symm
  | cons a l₁ ih =>
    cases l₂ with
    | nil => cases hlen
    | cons b l₂ =>
      intro h
      rw [firstDiff] at h
      split_ifs at h with hab
      rw [hab, ih (Nat.succ.inj hlen) h]

/-- **The first difference decides** how two lists compare. -/
theorem lt_iff_of_firstDiff (h : firstDiff l₁ l₂ = some (a, b)) :
    a ≠ b ∧ l₁ ≠ l₂ ∧ (l₁ < l₂ ↔ a < b) ∧ (l₂ < l₁ ↔ b < a) := by
  induction l₁ generalizing l₂ with
  | nil => cases h
  | cons x l₁ ih =>
    cases l₂ with
    | nil => cases h
    | cons y l₂ =>
      rw [firstDiff] at h
      rw [List.cons_lt_cons_iff, List.cons_lt_cons_iff]
      split_ifs at h with hxy
      · obtain ⟨hab, hne, hlt, hgt⟩ := ih h
        have hirr : ¬y < y := UInt8.lt_irrefl y
        rw [hxy, hlt, hgt]
        exact ⟨hab, fun heq => hne (List.cons.inj heq).2, by simp [hirr], by simp [hirr]⟩
      · obtain ⟨rfl, rfl⟩ := Prod.mk.inj (Option.some.inj h)
        exact ⟨hxy, fun heq => hxy (List.cons.inj heq).1, by simp [hxy], by simp [Ne.symm hxy]⟩

/-- The difference has the sign of the comparison exactly if `v` orders the first bytes that
differ as they are. -/
theorem hasSign_difference_iff (v : UInt8 → ℤ) (hlen : l₁.length = l₂.length) :
    HasSign (difference v l₁ l₂) l₁ l₂ ↔
      ∀ a b, firstDiff l₁ l₂ = some (a, b) → (v a < v b ↔ a < b) ∧ (v b < v a ↔ b < a) := by
  unfold difference HasSign
  cases hd : firstDiff l₁ l₂ with
  | none =>
    obtain rfl := firstDiff_eq_none hlen hd
    have hirr : ¬l₁ < l₁ := List.lt_irrefl l₁
    simp [hirr]
  | some ab =>
    obtain ⟨a, b⟩ := ab
    obtain ⟨hab, hne, hlt, hgt⟩ := lt_iff_of_firstDiff hd
    rw [hlt, hgt]
    constructor
    · rintro ⟨hneg, -, hpos⟩ a' b' heq
      obtain ⟨rfl, rfl⟩ := Prod.mk.inj (Option.some.inj heq)
      rw [← hneg, ← hpos]
      constructor <;> dsimp only <;> omega
    · intro h
      obtain ⟨hneg, hpos⟩ := h a b rfl
      rw [← hneg, ← hpos]
      refine ⟨by dsimp only; omega, iff_of_false (fun hzero => ?_) hne, by dsimp only; omega⟩
      -- different bytes have different values, since `v` orders them
      have hval : a.toNat ≠ b.toNat := fun heq => hab (UInt8.toNat_inj.1 heq)
      rw [UInt8.lt_iff_toNat_lt] at hneg hpos
      dsimp only at hzero
      omega

/-- Plain `char`s are in the order of the bytes within each half. -/
theorem char_lt_iff (hab : a ≠ b) :
    ((char a < char b ↔ a < b) ∧ (char b < char a ↔ b < a)) ↔
      (a.toNat < 128 ↔ b.toNat < 128) := by
  have ha := a.toNat_lt
  have hb := b.toNat_lt
  have hne : a.toNat ≠ b.toNat := fun heq => hab (UInt8.toNat_inj.1 heq)
  rw [UInt8.lt_iff_toNat_lt, UInt8.lt_iff_toNat_lt]
  unfold char
  split_ifs <;> omega

theorem hasSign_char_iff (hlen : l₁.length = l₂.length) :
    HasSign (difference char l₁ l₂) l₁ l₂ ↔ SameHalf l₁ l₂ := by
  rw [hasSign_difference_iff char hlen]
  refine forall₂_congr fun a b => forall_congr' fun hd => ?_
  exact char_lt_iff (lt_iff_of_firstDiff hd).1

theorem hasSign_uchar (hlen : l₁.length = l₂.length) :
    HasSign (difference uchar l₁ l₂) l₁ l₂ := by
  refine (hasSign_difference_iff uchar hlen).2 fun a b _ => ?_
  rw [UInt8.lt_iff_toNat_lt, UInt8.lt_iff_toNat_lt]
  unfold uchar
  omega

/-- Where one number has the sign of the comparison, another one has it if they agree in sign. -/
theorem sign_eq_iff_hasSign (h : HasSign r' l₁ l₂) : r.sign = r'.sign ↔ HasSign r l₁ l₂ := by
  have hsign : r.sign = r'.sign ↔
      (r < 0 ↔ r' < 0) ∧ (r = 0 ↔ r' = 0) ∧ (0 < r ↔ 0 < r') := by
    rcases lt_trichotomy r 0 with hr | rfl | hr <;>
      rcases lt_trichotomy r' 0 with hr' | rfl | hr' <;>
      simp [Int.sign_eq_neg_one_of_neg, Int.sign_eq_one_of_pos, *] <;> omega
  rw [hsign, HasSign, h.1, h.2.1, h.2.2]

/-! ### The two functions -/

theorem memcmpFrom_eq (h₁ : At m p1 l₁) (h₂ : At m p2 l₂) (hlen : l₁.length = l₂.length) :
    memcmpFrom m l₁.length p1 p2 = .ok (difference char l₁ l₂) := by
  induction l₁ generalizing p1 p2 l₂ with
  | nil => rw [List.length_eq_zero_iff.1 hlen.symm]; rfl
  | cons a l₁ ih =>
    cases l₂ with
    | nil => cases hlen
    | cons b l₂ =>
      rw [List.length_cons, memcmpFrom, read_of_some h₁.1, ok_bind, read_of_some h₂.1, ok_bind,
        difference_cons]
      by_cases hab : a = b
      · rw [if_neg (not_not.2 hab), if_pos hab]
        exact ih h₁.2 h₂.2 (Nat.succ.inj hlen)
      · rw [if_pos hab, if_neg hab]

theorem memcmp_eq {n : UInt32} (h₁ : At m p1 l₁) (h₂ : At m p2 l₂) (hn₁ : l₁.length = n.toNat)
    (hn₂ : l₂.length = n.toNat) : memcmp m p1 p2 n = .ok (difference char l₁ l₂) := by
  rw [memcmp, ← hn₁]
  exact memcmpFrom_eq h₁ h₂ (hn₁.trans hn₂.symm)

/-- `strcmp` stops at the first difference, or at the end of both strings. -/
theorem strcmp_settles {s₁ s₂ : List UInt8} (h₁ : At m p (s₁ ++ [0])) (h₂ : At m q (s₂ ++ [0]))
    (hz₁ : 0 ∉ s₁) (hlen : s₁.length = s₂.length) :
    Settles (fun k => strcmp m k p q) (difference uchar (s₁ ++ [0]) (s₂ ++ [0])) := by
  induction s₁ generalizing p q s₂ with
  | nil =>
    rw [List.length_eq_zero_iff.1 hlen.symm] at h₂ ⊢
    refine Settles.of_succ (fun k => ?_) (settles_of_forall fun _ => rfl)
    rw [strcmp, read_of_some h₁.1, ok_bind, read_of_some h₂.1, ok_bind, if_neg fun h => h.1 rfl]
    rfl
  | cons a s₁ ih =>
    cases s₂ with
    | nil => cases hlen
    | cons b s₂ =>
      obtain ⟨ha, hz₁⟩ := not_or.1 fun h => hz₁ (List.mem_cons.2 h)
      rw [List.cons_append, List.cons_append, difference_cons]
      have hstep : ∀ k, strcmp m (k + 1) p q =
          if a ≠ 0 ∧ a = b then strcmp m k (p + 1) (q + 1) else .ok (uchar a - uchar b) := by
        intro k
        rw [strcmp, read_of_some h₁.1, ok_bind, read_of_some h₂.1, ok_bind]
      by_cases hab : a = b
      · rw [if_pos hab]
        refine Settles.of_succ (fun k => ?_) (ih h₁.2 h₂.2 hz₁ (Nat.succ.inj hlen))
        rw [hstep, if_pos ⟨Ne.symm ha, hab⟩]
      · rw [if_neg hab]
        refine Settles.of_succ (fun k => ?_) (settles_of_forall fun _ => rfl)
        rw [hstep, if_neg fun h => hab h.2]

/-- **The sign of `memcmp`** is that of the lexicographic comparison of unsigned bytes, and on
strings of one length that of `strcmp`, exactly if the first bytes that differ have the same
top bit. -/
theorem memcmp_sign_iff {n : UInt32} (h₁ : At m p1 l₁) (h₂ : At m p2 l₂)
    (hn₁ : l₁.length = n.toNat) (hn₂ : l₂.length = n.toNat) :
    ∃ r, memcmp m p1 p2 n = .ok r ∧ (HasSign r l₁ l₂ ↔ SameHalf l₁ l₂) ∧
      ∀ s₁ s₂, l₁ = s₁ ++ [0] → l₂ = s₂ ++ [0] → 0 ∉ s₁ → 0 ∉ s₂ →
        ∃ r', Settles (fun k => strcmp m k p1 p2) r' ∧ (r.sign = r'.sign ↔ SameHalf l₁ l₂) := by
  have hlen : l₁.length = l₂.length := hn₁.trans hn₂.symm
  refine ⟨_, memcmp_eq h₁ h₂ hn₁ hn₂, hasSign_char_iff hlen, ?_⟩
  rintro s₁ s₂ rfl rfl hz₁ -
  have hs : s₁.length = s₂.length := by
    rw [List.length_append, List.length_append] at hlen
    exact Nat.add_right_cancel hlen
  refine ⟨_, strcmp_settles h₁ h₂ hz₁ hs, ?_⟩
  rw [sign_eq_iff_hasSign (hasSign_uchar hlen)]
  exact hasSign_char_iff hlen

/-- The strings `a` and `é`, in Latin-1, at 0 and at 2. -/
def letters : Memory := fun x =>
  if x = 0 then some 97 else if x = 2 then some 233 else if x = 1 ∨ x = 3 then some 0 else none

theorem at_letters : At letters 0 [97, 0] ∧ At letters 2 [233, 0] :=
  ⟨⟨rfl, rfl, trivial⟩, rfl, rfl, trivial⟩

theorem memcmp_sign_iff_letters :
    ∃ r, memcmp letters 0 2 2 = .ok r ∧ (HasSign r [97, 0] [233, 0] ↔ SameHalf [97, 0] [233, 0]) ∧
      ∀ s₁ s₂ : List UInt8, [97, 0] = s₁ ++ [0] → [233, 0] = s₂ ++ [0] → 0 ∉ s₁ → 0 ∉ s₂ →
        ∃ r', Settles (fun k => strcmp letters k 0 2) r' ∧
          (r.sign = r'.sign ↔ SameHalf [97, 0] [233, 0]) :=
  memcmp_sign_iff at_letters.1 at_letters.2 rfl rfl

theorem memcmp_letters : memcmp letters 0 2 2 = .ok 120 ∧ ¬HasSign 120 [97, 0] [233, 0] ∧
    strcmp letters 2 0 2 = .ok (-136) := by
  refine ⟨rfl, fun h => ?_, rfl⟩
  exact absurd (h.1.2 (by decide)) (by decide)

end Ulib
end V6User
