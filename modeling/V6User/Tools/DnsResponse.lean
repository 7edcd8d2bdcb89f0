import Mathlib.Algebra.Ring.Int.Defs
import Mathlib.Data.Int.Order.Basic
import V6User.Base.Offsets

/-!
# The replies that the DNS stress test accepts

`programs/dnsstress/dnsstress.c`: `get16`, `skip_name` and `response_usable`.

A reply is parsed with one offset, which moves over the labels of a name, the questions and the
answers.  A read outside `[0, len)` and an overflow of `int` stop the run.  The first never
happens, the second only if `len` comes near to the largest `int`, and what is returned is 1
exactly if the reply is usable (`responseUsable_correct`).
-/

namespace V6User
namespace Tools
namespace DnsResponse

open Offsets

/-- Why a run stops: a read outside of `[0, len)`, or an overflow of `int`. -/
inductive Stop where
  | outside
  | overflow
  deriving DecidableEq, Repr

/-- `buf` and `len`. -/
structure Reply where
  buf : ℤ → UInt8
  len : ℤ

/-! ### The program -/

/-- `buf[i]`. -/
def Reply.get (r : Reply) (i : ℤ) : Except Stop UInt8 :=
  if 0 ≤ i ∧ i < r.len then .ok (r.buf i) else .error .outside

/-- A sum of type `int`. -/
def int (x : ℤ) : Except Stop ℤ := if x < 2 ^ 31 then .ok x else .error .overflow

/-- `get16(buf + i)`. -/
def get16 (r : Reply) (i : ℤ) : Except Stop UInt16 := do
  let hi ← r.get i
  let lo ← r.get (i + 1)
  return hi.toUInt16 <<< 8 ||| lo.toUInt16

/-- `skip_name(buf, len, off)`. -/
def skipName (r : Reply) (off : ℤ) : Except Stop ℤ :=
  if r.len ≤ off then .ok (-1)
  else do
    let n ← r.get off
    let _ ← int (off + 1)
    if n = 0 then .ok (off + 1)
    else if n &&& 0xc0 = 0xc0 then
      if r.len ≤ off + 1 then .ok (-1) else int (off + 2)
    else if n &&& 0xc0 ≠ 0 then .ok (-1)
    else do
      let _ ← int (off + 1 + n.toNat)
      if r.len < off + 1 + n.toNat then .ok (-1) else skipName r (off + 1 + n.toNat)
termination_by (r.len - off).toNat
decreasing_by
  have hlt := Int.not_le.1 ‹¬r.len ≤ off›
  clear * - hlt
  omega

/-- The loop over the questions: where the last one ends, or nothing if it returns -1. -/
def questions (r : Reply) : ℕ → ℤ → Except Stop (Option ℤ)
  | 0, off => .ok (some off)
  | k + 1, off => do
    let off ← skipName r off
    if off < 0 then .ok none
    else do
      let past ← int (off + 4)
      if r.len < past then .ok none else questions r k past

/-- `(qtype == 1 && rdlen == 4) || (qtype == 28 && rdlen == 16)`. -/
def isAddress (qtype rdlen : UInt16) : Bool :=
  (qtype == 1 && rdlen == 4) || (qtype == 28 && rdlen == 16)

/-- The loop over the answers. -/
def answers (r : Reply) (qtype : UInt16) : ℕ → ℤ → Except Stop ℤ
  | 0, _ => .ok 0
  | k + 1, off => do
    let off ← skipName r off
    if off < 0 then .ok (-1)
    else do
      let data ← int (off + 10)
      if r.len < data then .ok (-1)
      else do
        let typ ← get16 r off
        let cls ← get16 r (off + 2)
        let rdlen ← get16 r (off + 8)
        let past ← int (data + rdlen.toNat)
        if r.len < past then .ok (-1)
        else if cls = 1 ∧ typ = qtype ∧ isAddress qtype rdlen then .ok 1
        else answers r qtype k past

/-- `response_usable(buf, len, id, qtype)`. -/
def responseUsable (r : Reply) (id qtype : UInt16) : Except Stop ℤ :=
  if r.len < 12 then .ok (-1)
  else do
    let got ← get16 r 0
    if got ≠ id then .ok (-1)
    else do
      let flags ← r.get 3
      if flags &&& 0x0f ≠ 0 then .ok 0
      else do
        let qd ← get16 r 4
        let an ← get16 r 6
        match ← questions r qd.toNat 12 with
        | none => .ok (-1)
        | some off => answers r qtype an.toNat off

/-! ### Messages -/

/-- The number of two bytes, the high one first. -/
def Reply.word (r : Reply) (i : ℤ) : ℕ := 256 * (r.buf i).toNat + (r.buf (i + 1)).toNat

/-- A name, from where it begins to behind its end: labels of up to 63 bytes, and then the root
or a pointer of two bytes. -/
inductive Name (r : Reply) : ℤ → ℤ → Prop
  | root {off : ℤ} (inside : off < r.len) (byte : (r.buf off).toNat = 0) : Name r off (off + 1)
  | pointer {off : ℤ} (inside : off + 1 < r.len) (byte : 192 ≤ (r.buf off).toNat) :
      Name r off (off + 2)
  | label {off stop : ℤ} (pos : 1 ≤ (r.buf off).toNat) (byte : (r.buf off).toNat ≤ 63)
      (inside : off + 1 + (r.buf off).toNat ≤ r.len)
      (rest : Name r (off + 1 + (r.buf off).toNat) stop) : Name r off stop

/-- A question: a name, a type and a class. -/
def Question (r : Reply) (off stop : ℤ) : Prop :=
  ∃ m, Name r off m ∧ stop = m + 4 ∧ stop ≤ r.len

/-- A record whose name ends at `m`: type, class, time to live, and data with its length. -/
def RecordAt (r : Reply) (off m stop : ℤ) : Prop :=
  Name r off m ∧ stop = m + 10 + r.word (m + 8) ∧ stop ≤ r.len ∧ m + 10 ≤ r.len

/-- A record. -/
def Record (r : Reply) (off stop : ℤ) : Prop := ∃ m, RecordAt r off m stop

/-- The length of the addresses of a type: `A` and `AAAA`. -/
def addressLength (qtype : UInt16) : Option ℕ :=
  if qtype = 1 then some 4 else if qtype = 28 then some 16 else none

/-- The record whose name ends at `m` has class IN, the type that was asked for, and the length
of an address of that type. -/
def IsAnswer (r : Reply) (qtype : UInt16) (m : ℤ) : Prop :=
  r.word (m + 2) = 1 ∧ r.word m = qtype.toNat ∧ addressLength qtype = some (r.word (m + 8))

/-- One of the next `k` records is an answer, and those before it are there as well. -/
def HasAnswer (r : Reply) (qtype : UInt16) (k : ℕ) (off : ℤ) : Prop :=
  ∃ i < k, ∃ a m stop, Times (Record r) i off a ∧ RecordAt r a m stop ∧ IsAnswer r qtype m

/-- A header with this id and the response code 0, all the questions, and among the answers one
of the type that was asked for. -/
def Usable (r : Reply) (id qtype : UInt16) : Prop :=
  12 ≤ r.len ∧ r.word 0 = id.toNat ∧ (r.buf 3).toNat % 16 = 0 ∧
    ∃ off, Times (Question r) (r.word 4) 12 off ∧ HasAnswer r qtype (r.word 6) off

variable {r : Reply} {id qtype : UInt16} {off stop m i : ℤ} {k : ℕ} {n : UInt8}

/-! ### Bytes and words -/

/-- What the model's runs may end in: an overflow, if `len` is near to the largest `int`. -/
def Tolerated (r : Reply) (e : Stop) : Prop := e = .overflow ∧ 2 ^ 31 ≤ r.len + 65535

theorem and_pointer : n &&& 0xc0 = 0xc0 ↔ 192 ≤ n.toNat := by
  have hall : ∀ j < 256, j &&& 192 = 192 ↔ 192 ≤ j := by decide +kernel
  rw [← UInt8.toNat_inj, UInt8.toNat_and]
  exact hall _ n.toNat_lt

theorem and_label : n &&& 0xc0 = 0 ↔ n.toNat ≤ 63 := by
  have hall : ∀ j < 256, j &&& 192 = 0 ↔ j ≤ 63 := by decide +kernel
  rw [← UInt8.toNat_inj, UInt8.toNat_and]
  exact hall _ n.toNat_lt

theorem and_rcode : n &&& 0x0f = 0 ↔ n.toNat % 16 = 0 := by
  rw [← UInt8.toNat_inj, UInt8.toNat_and]
  exact (Nat.and_two_pow_sub_one_eq_mod n.toNat 4).congr_left

theorem get_of_inside (hlo : 0 ≤ i) (hhi : i < r.len) : r.get i = .ok (r.buf i) :=
  if_pos ⟨hlo, hhi⟩

/-- Two bytes put together. -/
theorem toNat_join (hi lo : UInt8) :
    (hi.toUInt16 <<< 8 ||| lo.toUInt16).toNat = 256 * hi.toNat + lo.toNat := by
  have hshift : (hi.toUInt16 <<< 8).toNat = hi.toNat <<< 8 := by
    have hlt := hi.toNat_lt
    rw [UInt16.toNat_shiftLeft, UInt8.toNat_toUInt16]
    refine Nat.mod_eq_of_lt ?_
    rw [show (8 : UInt16).toNat % 16 = 8 from rfl, Nat.shiftLeft_eq]
    omega
  rw [UInt16.toNat_or, hshift, UInt8.toNat_toUInt16, ← Nat.shiftLeft_add_eq_or_of_lt lo.toNat_lt,
    Nat.shiftLeft_eq, Nat.mul_comm]

theorem get16_of_inside (hlo : 0 ≤ i) (hhi : i + 1 < r.len) :
    ∃ w, get16 r i = .ok w ∧ w.toNat = r.word i := by
  refine ⟨(r.buf i).toUInt16 <<< 8 ||| (r.buf (i + 1)).toUInt16, ?_, toNat_join _ _⟩
  rw [get16, get_of_inside hlo (by omega), get_of_inside (by omega) hhi]
  rfl

theorem int_gives {x : ℤ} (h : x ≤ r.len + 65535) :
    Gives (Tolerated r) (int x) fun y => y = x := by
  unfold int
  split_ifs with hx
  · exact rfl
  · exact ⟨rfl, by omega⟩

/-! ### Names -/

theorem Name.bounds (h : Name r off stop) : off < stop ∧ stop ≤ r.len := by
  induction h with
  | root inside _ => omega
  | pointer inside _ => omega
  | label pos _ _ _ ih => omega

theorem Name.unique {stop' : ℤ} (h : Name r off stop) (h' : Name r off stop') :
    stop = stop' := by
  induction h with
  | root _ byte => cases h' <;> omega
  | pointer _ byte => cases h' <;> omega
  | label pos byte _ _ ih =>
    cases h' with
    | root _ byte' => omega
    | pointer _ byte' => omega
    | label _ _ _ rest => exact ih rest

/-- `skip_name` goes behind the name, or returns -1 if there is none. -/
theorem skipName_gives (hoff : 0 ≤ off) :
    Gives (Tolerated r) (skipName r off) fun v =>
      Name r off v ∨ v = -1 ∧ ∀ stop, ¬Name r off stop := by
  induction hk : (r.len - off).toNat using Nat.strongRecOn generalizing off with
  | _ k ih =>
    rw [skipName]
    by_cases hend : r.len ≤ off
    · rw [if_pos hend]
      refine .inr ⟨rfl, fun stop h => ?_⟩
      have hbounds := h.bounds
      omega
    rw [if_neg hend, get_of_inside hoff (by omega)]
    refine (int_gives (by omega)).bind fun _ _ => ?_
    by_cases hzero : r.buf off = 0
    · rw [if_pos hzero]
      exact .inl (.root (by omega) (by rw [hzero]; rfl))
    have hpos : 1 ≤ (r.buf off).toNat := Nat.one_le_iff_ne_zero.2 fun h =>
      hzero (UInt8.toNat_inj.1 h)
    rw [if_neg hzero]
    by_cases hptr : r.buf off &&& 0xc0 = 0xc0
    · have hbyte := and_pointer.1 hptr
      rw [if_pos hptr]
      split_ifs with hshort
      · refine .inr ⟨rfl, fun stop h => ?_⟩
        cases h <;> omega
      · refine (int_gives (by omega)).mono ?_
        rintro _ rfl
        exact .inl (.pointer (by omega) hbyte)
    have hbyte := mt and_pointer.2 hptr
    rw [if_neg hptr]
    by_cases hlabel : r.buf off &&& 0xc0 = 0
    · have hle := and_label.1 hlabel
      rw [if_neg (not_not.2 hlabel)]
      refine (int_gives (by omega)).bind fun _ _ => ?_
      split_ifs with hshort
      · refine .inr ⟨rfl, fun stop h => ?_⟩
        cases h <;> omega
      · refine (ih _ (by omega) (show 0 ≤ off + 1 + (r.buf off).toNat by omega) rfl).mono ?_
        rintro v (h | ⟨rfl, h⟩)
        · exact .inl (.label hpos hle (by omega) h)
        · refine .inr ⟨rfl, fun stop h' => ?_⟩
          cases h' with
          | root _ byte => omega
          | pointer _ byte => omega
          | label _ _ _ rest => exact h stop rest
    · have hle := mt and_label.2 hlabel
      rw [if_pos hlabel]
      refine .inr ⟨rfl, fun stop h => ?_⟩
      cases h <;> omega

/-! ### Questions and answers -/

theorem questions_gives (hoff : 0 ≤ off) :
    Gives (Tolerated r) (questions r k off) fun v =>
      (∃ a, v = some a ∧ Times (Question r) k off a) ∨
        v = none ∧ ∀ a, ¬Times (Question r) k off a := by
  induction k generalizing off with
  | zero => exact .inl ⟨off, rfl, .zero off⟩
  | succ k ih =>
    rw [questions]
    refine (skipName_gives hoff).bind fun m hm => ?_
    rcases hm with hm | ⟨rfl, hnone⟩
    · have hbounds := hm.bounds
      rw [if_neg (by omega)]
      refine (int_gives (by omega)).bind ?_
      rintro _ rfl
      split_ifs with hshort
      · refine .inr ⟨rfl, fun a ha => ?_⟩
        obtain ⟨b, ⟨m', hm', rfl, hb⟩, -⟩ := times_succ.1 ha
        have heq := hm.unique hm'
        omega
      · refine (ih (by omega)).mono ?_
        rintro v (⟨a, rfl, ha⟩ | ⟨rfl, hrest⟩)
        · exact .inl ⟨a, rfl, .succ ⟨m, hm, rfl, by omega⟩ ha⟩
        · refine .inr ⟨rfl, fun a ha => ?_⟩
          obtain ⟨b, ⟨m', hm', rfl, -⟩, ha⟩ := times_succ.1 ha
          exact hrest a (hm.unique hm' ▸ ha)
    · refine .inr ⟨rfl, fun a ha => ?_⟩
      obtain ⟨b, ⟨m, hm, -⟩, -⟩ := times_succ.1 ha
      exact hnone m hm

theorem Question.unique {stop' : ℤ} (h : Question r off stop) (h' : Question r off stop') :
    stop = stop' := by
  obtain ⟨m, hm, rfl, -⟩ := h
  obtain ⟨m', hm', rfl, -⟩ := h'
  rw [hm.unique hm']

theorem Question.le (h : Question r off stop) : off ≤ stop := by
  obtain ⟨m, hm, rfl, -⟩ := h
  have hbounds := hm.bounds
  omega

theorem isAddress_iff {rdlen : UInt16} :
    isAddress qtype rdlen = true ↔ addressLength qtype = some rdlen.toNat := by
  have hlen : ∀ j : UInt16, some j.toNat = some rdlen.toNat ↔ rdlen = j := fun j => by
    rw [Option.some.injEq, UInt16.toNat_inj, eq_comm]
  simp only [isAddress, Bool.or_eq_true, Bool.and_eq_true, beq_iff_eq]
  unfold addressLength
  split_ifs with hfour hsix
  · subst hfour
    simpa using (hlen 4).symm
  · subst hsix
    simpa using (hlen 16).symm
  · simp [hfour, hsix]

theorem not_hasAnswer_zero : ¬HasAnswer r qtype 0 off := by
  rintro ⟨i, hi, -⟩
  exact Nat.not_lt_zero i hi

/-- An answer is in the first record, or in those that follow it. -/
theorem hasAnswer_succ : HasAnswer r qtype (k + 1) off ↔
    ∃ m stop, RecordAt r off m stop ∧ (IsAnswer r qtype m ∨ HasAnswer r qtype k stop) := by
  constructor
  · rintro ⟨i, hi, a, m, stop, htimes, hrec, hanswer⟩
    cases i with
    | zero =>
      obtain rfl := times_zero.1 htimes
      exact ⟨m, stop, hrec, .inl hanswer⟩
    | succ i =>
      obtain ⟨b, ⟨m₀, hrec₀⟩, htimes⟩ := times_succ.1 htimes
      exact ⟨m₀, b, hrec₀, .inr ⟨i, Nat.lt_of_succ_lt_succ hi, a, m, stop, htimes, hrec, hanswer⟩⟩
  · rintro ⟨m₀, b, hrec₀, hanswer | ⟨i, hi, a, m, stop, htimes, hrec, hanswer⟩⟩
    · exact ⟨0, k.succ_pos, off, m₀, b, .zero off, hrec₀, hanswer⟩
    · exact ⟨i + 1, Nat.succ_lt_succ hi, a, m, stop, .succ ⟨m₀, hrec₀⟩ htimes, hrec, hanswer⟩

theorem word_le (r : Reply) (i : ℤ) : r.word i ≤ 65535 := by
  have hhi := (r.buf i).toNat_lt
  have hlo := (r.buf (i + 1)).toNat_lt
  rw [Reply.word]
  omega

theorem answers_gives (hoff : 0 ≤ off) :
    Gives (Tolerated r) (answers r qtype k off) fun v => v = 1 ↔ HasAnswer r qtype k off := by
  induction k generalizing off with
  | zero => exact iff_of_false (by decide) not_hasAnswer_zero
  | succ k ih =>
    rw [answers]
    refine (skipName_gives hoff).bind fun m hm => ?_
    rcases hm with hm | ⟨rfl, hnone⟩
    · have hbounds := hm.bounds
      rw [if_neg (by omega)]
      refine (int_gives (by omega)).bind ?_
      rintro _ rfl
      by_cases hshort : r.len < m + 10
      · rw [if_pos hshort]
        refine iff_of_false (by decide) fun h => ?_
        obtain ⟨m', stop, ⟨hm', -, -, hle⟩, -⟩ := hasAnswer_succ.1 h
        have heq := hm.unique hm'
        omega
      rw [if_neg hshort]
      obtain ⟨typ, htyp, etyp⟩ := get16_of_inside (r := r) (i := m) (by omega) (by omega)
      obtain ⟨cls, hcls, ecls⟩ := get16_of_inside (r := r) (i := m + 2) (by omega) (by omega)
      obtain ⟨rdlen, hlen, elen⟩ := get16_of_inside (r := r) (i := m + 8) (by omega) (by omega)
      have hword := word_le r (m + 8)
      rw [htyp, hcls, hlen]
      refine (int_gives (by omega)).bind ?_
      rintro _ rfl
      have hone : IsAnswer r qtype m ↔ cls = 1 ∧ typ = qtype ∧ isAddress qtype rdlen = true := by
        rw [IsAnswer, ← ecls, ← etyp, ← elen, isAddress_iff, UInt16.toNat_inj,
          ← UInt16.toNat_inj (b := 1)]
        rfl
      split_ifs with hpast hyes
      · refine iff_of_false (by decide) fun h => ?_
        obtain ⟨m', stop, ⟨hm', rfl, hle, -⟩, -⟩ := hasAnswer_succ.1 h
        rw [← hm.unique hm'] at hle
        omega
      · refine iff_of_true rfl (hasAnswer_succ.2 ⟨m, _, ⟨hm, rfl, ?_, ?_⟩, .inl (hone.2 hyes)⟩) <;>
          omega
      · refine (ih (by omega)).mono fun v hv => hv.trans ?_
        rw [hasAnswer_succ, elen]
        constructor
        · intro h
          exact ⟨m, _, ⟨hm, rfl, by omega, by omega⟩, .inr h⟩
        · rintro ⟨m', stop, ⟨hm', rfl, -⟩, h⟩
          rw [← hm.unique hm'] at h
          exact h.resolve_left fun h => hyes (hone.1 h)
    · refine iff_of_false (by decide) fun h => ?_
      obtain ⟨m, stop, ⟨hm, -⟩, -⟩ := hasAnswer_succ.1 h
      exact hnone m hm

/-! ### The response -/

theorem responseUsable_gives :
    Gives (Tolerated r) (responseUsable r id qtype) fun v => v = 1 ↔ Usable r id qtype := by
  rw [responseUsable]
  by_cases hshort : r.len < 12
  · rw [if_pos hshort]
    exact iff_of_false (by decide) fun h => absurd h.1 (by omega)
  rw [if_neg hshort]
  obtain ⟨got, hgot, egot⟩ := get16_of_inside (r := r) (i := 0) (by omega) (by omega)
  obtain ⟨qd, hqd, eqd⟩ := get16_of_inside (r := r) (i := 4) (by omega) (by omega)
  obtain ⟨an, han, ean⟩ := get16_of_inside (r := r) (i := 6) (by omega) (by omega)
  rw [hgot, hqd, han, get_of_inside (by omega) (by omega)]
  refine gives_ok_bind ?_
  by_cases hid : got = id
  · rw [if_neg (not_not.2 hid)]
    refine gives_ok_bind ?_
    by_cases hcode : r.buf 3 &&& 0x0f = 0
    · rw [if_neg (not_not.2 hcode)]
      refine gives_ok_bind (gives_ok_bind ?_)
      rw [eqd, ean]
      refine (questions_gives (by omega)).bind ?_
      rintro _ (⟨a, rfl, ha⟩ | ⟨rfl, hnone⟩)
      · have hle := ha.le fun _ _ => Question.le
        refine (answers_gives (by omega)).mono fun v hv => hv.trans ?_
        constructor
        · intro h
          exact ⟨by omega, by rw [← egot, hid], and_rcode.1 hcode, a, ha, h⟩
        · rintro ⟨-, -, -, a', ha', h⟩
          have heq := Times.unique (R := Question r) (fun _ _ _ => Question.unique) ha ha'
          exact heq ▸ h
      · refine iff_of_false (by decide) ?_
        rintro ⟨-, -, -, a, ha, -⟩
        exact hnone a ha
    · rw [if_pos hcode]
      exact iff_of_false (by decide) fun h => hcode (and_rcode.2 h.2.2.1)
  · rw [if_pos hid]
    refine iff_of_false (by decide) fun h => hid (UInt16.toNat_inj.1 ?_)
    rw [egot, h.2.1]

theorem not_tolerated_outside : ¬Tolerated r .outside := by
  rintro ⟨h, -⟩
  cases h

/-- **What `response_usable` returns.**  For every content of the buffer and every length,
neither it nor `skip_name`, from any offset that is not negative, reads outside of `[0, len)`;
both end, with a result unless an `int` overflows, which it does not when `len` is less than the
largest `int` by 65535; and the result is 1 exactly if the reply is usable. -/
theorem responseUsable_correct (r : Reply) (id qtype : UInt16) :
    (∀ off, 0 ≤ off → skipName r off ≠ .error .outside) ∧
      responseUsable r id qtype ≠ .error .outside ∧
      (r.len + 65535 < 2 ^ 31 →
        (∀ off, 0 ≤ off → ∃ v, skipName r off = .ok v) ∧ ∃ v, responseUsable r id qtype = .ok v) ∧
      ∀ v, responseUsable r id qtype = .ok v → (v = 1 ↔ Usable r id qtype) := by
  refine ⟨fun off hoff => (skipName_gives hoff).ne_error not_tolerated_outside,
    responseUsable_gives.ne_error not_tolerated_outside, fun hlen => ?_,
    fun v hv => responseUsable_gives.of_ok hv⟩
  have hnone : ∀ e, ¬Tolerated r e := by
    rintro e ⟨-, he⟩
    omega
  exact ⟨fun off hoff => (skipName_gives hoff).total hnone, responseUsable_gives.total hnone⟩

end DnsResponse
end Tools
end V6User
