import Mathlib.Data.List.Basic
import Mathlib.Data.Nat.Prime.Basic

/-!
# The sieve

`sift l` takes the head of a list of numbers away, with all its multiples.  Where it is done again
and again to the numbers from 2 on, what stands at the head is each time the next prime
(`head?_sift`).
-/

namespace V6User

/-- The head and its multiples are taken away. -/
def sift : List ℕ → List ℕ
  | [] => []
  | p :: l => l.filter fun x => ¬p ∣ x

theorem sift_cons (p : ℕ) (l : List ℕ) : sift (p :: l) = (p :: l).filter fun x => ¬p ∣ x := by
  rw [List.filter_cons_of_neg (by simp)]
  rfl

/-- The primes among the numbers from 2 on. -/
def primesFrom (n : ℕ) : List ℕ := (List.range' 2 n).filter fun x => x.Prime

section Sieve

variable {n k p x : ℕ}

theorem mem_primesFrom : p ∈ primesFrom n ↔ p.Prime ∧ p < 2 + n := by
  rw [primesFrom, List.mem_filter, List.mem_range'_1, decide_eq_true_iff]
  constructor
  · rintro ⟨⟨-, hlt⟩, hp⟩
    exact ⟨hp, hlt⟩
  · rintro ⟨hp, hlt⟩
    exact ⟨⟨hp.two_le, hlt⟩, hp⟩

theorem pairwise_primesFrom (n : ℕ) : (primesFrom n).Pairwise (· < ·) :=
  List.Pairwise.filter _ (List.pairwise_lt_range' ..)

/-- Of the first primes, those before the next one. -/
theorem mem_take_primesFrom (hp : (primesFrom n)[k]? = some p) :
    x ∈ (primesFrom n).take k ↔ x.Prime ∧ x < p := by
  obtain ⟨hk, rfl⟩ := List.getElem?_eq_some_iff.1 hp
  have hsorted := List.pairwise_iff_getElem.1 (pairwise_primesFrom n)
  constructor
  · intro hx
    obtain ⟨i, hi, rfl⟩ := List.mem_take_iff_getElem.1 hx
    have hlt : i < k := lt_of_lt_of_le hi (min_le_left _ _)
    exact ⟨(mem_primesFrom.1 (List.getElem_mem _)).1, hsorted i k _ hk hlt⟩
  · rintro ⟨hprime, hlt⟩
    have hbound := (mem_primesFrom.1 (List.getElem_mem hk)).2
    obtain ⟨i, hi, rfl⟩ := List.mem_iff_getElem.1 (mem_primesFrom.2 ⟨hprime, hlt.trans hbound⟩)
    refine List.mem_take_iff_getElem.2 ⟨i, lt_min ?_ hi, rfl⟩
    by_contra hle
    rcases Nat.eq_or_lt_of_le (Nat.not_lt.1 hle) with rfl | hgt
    · exact lt_irrefl _ hlt
    · exact lt_asymm hlt (hsorted k i hk hi hgt)

/-- The numbers that the first `k` primes leave. -/
def unsifted (n k : ℕ) : List ℕ :=
  (List.range' 2 n).filter fun x => ∀ q ∈ (primesFrom n).take k, ¬q ∣ x

/-- **The least number that the first primes leave is the next one.** -/
theorem head?_unsifted (n k : ℕ) : (unsifted n k).head? = (primesFrom n)[k]? := by
  rw [unsifted, List.head?_filter]
  cases hp : (primesFrom n)[k]? with
  | none =>
    -- all primes are among the first, and every number has a prime factor
    rw [List.find?_eq_none]
    intro x hx hleft
    rw [List.mem_range'_1] at hx
    have hprime := Nat.minFac_prime (show x ≠ 1 by omega)
    have hmem : x.minFac ∈ primesFrom n :=
      mem_primesFrom.2 ⟨hprime, lt_of_le_of_lt (Nat.minFac_le (by omega)) hx.2⟩
    rw [← List.take_of_length_le (List.getElem?_eq_none_iff.1 hp)] at hmem
    exact of_decide_eq_true hleft _ hmem (Nat.minFac_dvd x)
  | some p =>
    have hmem := mem_primesFrom.1 (List.mem_of_getElem? hp)
    have hpos := hmem.1.two_le
    have hbound := hmem.2
    rw [List.find?_eq_some_iff_getElem]
    refine ⟨?_, p - 2, ?_, ?_, ?_⟩
    · refine decide_eq_true fun q hq hdvd => ?_
      obtain ⟨hq, hlt⟩ := (mem_take_primesFrom hp).1 hq
      exact Nat.ne_of_lt hlt ((Nat.prime_dvd_prime_iff_eq hq hmem.1).1 hdvd)
    · rw [List.length_range']
      omega
    · rw [List.getElem_range']
      omega
    · intro j hj
      -- a smaller number has a smaller prime factor
      rw [List.getElem_range', Bool.not_eq_true', decide_eq_false_iff_not]
      intro hleft
      have hprime := Nat.minFac_prime (show 2 + 1 * j ≠ 1 by omega)
      have hle := Nat.minFac_le (show 0 < 2 + 1 * j by omega)
      exact hleft _ ((mem_take_primesFrom hp).2 ⟨hprime, by omega⟩) (Nat.minFac_dvd _)

/-- **One prime more is sifted.** -/
theorem sift_unsifted (n k : ℕ) : sift (unsifted n k) = unsifted n (k + 1) := by
  have hhead := head?_unsifted n k
  cases hlist : unsifted n k with
  | nil =>
    rw [hlist, List.head?_nil] at hhead
    have hle := List.getElem?_eq_none_iff.1 hhead.symm
    rw [sift, ← hlist, unsifted, unsifted, List.take_of_length_le hle,
      List.take_of_length_le (Nat.le_succ_of_le hle)]
  | cons p l =>
    rw [hlist, List.head?_cons] at hhead
    rw [sift_cons, ← hlist, unsifted, unsifted, List.filter_filter]
    refine List.filter_congr fun x _ => ?_
    rw [List.take_add_one, ← hhead, Bool.and_comm, ← Bool.decide_and, decide_eq_decide]
    simp only [Option.toList_some, List.mem_append, List.mem_singleton]
    constructor
    · rintro ⟨hall, hp⟩ q (hq | rfl)
      · exact hall q hq
      · exact hp
    · intro hall
      exact ⟨fun q hq => hall q (.inl hq), hall p (.inr rfl)⟩

theorem sift_iterate (n k : ℕ) : sift^[k] (List.range' 2 n) = unsifted n k := by
  induction k with
  | zero =>
    rw [Function.iterate_zero, id, unsifted, List.take_zero]
    exact (List.filter_eq_self.2 fun x _ => by simp).symm
  | succ k ih => rw [Function.iterate_succ_apply', ih, sift_unsifted]

/-- **What stands at the head is each time the next prime.** -/
theorem head?_sift (n k : ℕ) : (sift^[k] (List.range' 2 n)).head? = (primesFrom n)[k]? := by
  rw [sift_iterate, head?_unsifted]

end Sieve
end V6User
