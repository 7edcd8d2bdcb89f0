import Mathlib.Data.Nat.Find
import Mathlib.Logic.Function.Basic
import Mathlib.Tactic.Common

/-!
# Descriptor tables

A table gives each number an open file or nothing, and only finitely many numbers have
one.  `alloc` puts a file at the lowest free number, as `open`, `dup` and `pipe` do, and
`close` frees a number.  `get_redirect` and `get_takeOver` are the two idioms with which a
process rebinds a number: close it, and have the lowest free one be that number.
-/

namespace V6User

/-- A descriptor table over the open files `δ`. -/
@[ext] structure FdTable (δ : Type) where
  get : ℕ → Option δ
  finite : ∃ n, ∀ m, n ≤ m → get m = none

namespace FdTable

variable {δ : Type} {t : FdTable δ} {fd : ℕ} {d : δ}

theorem exists_free (t : FdTable δ) : ∃ n, t.get n = none := by
  obtain ⟨n, hn⟩ := t.finite
  exact ⟨n, hn n (Nat.le_refl n)⟩

/-- The lowest number without an open file. -/
def lowestFree (t : FdTable δ) : ℕ := Nat.find t.exists_free

/-- The table with one entry changed. -/
def set (t : FdTable δ) (fd : ℕ) (d : Option δ) : FdTable δ where
  get := Function.update t.get fd d
  finite := by
    obtain ⟨n, hn⟩ := t.finite
    refine ⟨max n (fd + 1), fun m hm => ?_⟩
    rw [Function.update_of_ne (by omega)]
    exact hn m (by omega)

/-- `close(fd)`. -/
def close (t : FdTable δ) (fd : ℕ) : FdTable δ := t.set fd none

/-- A file at the lowest free number. -/
def alloc (t : FdTable δ) (d : δ) : FdTable δ := t.set t.lowestFree (some d)

/-- `close(fd)`, and then a file at the lowest free number. -/
def redirect (t : FdTable δ) (fd : ℕ) (d : δ) : FdTable δ := (t.close fd).alloc d

/-- `dup(fd)`; where there is nothing to duplicate, it fails. -/
def dup (t : FdTable δ) (fd : ℕ) : FdTable δ :=
  match t.get fd with
  | some d => t.alloc d
  | none => t

theorem get_set (t : FdTable δ) (fd : ℕ) (d : Option δ) (n : ℕ) :
    (t.set fd d).get n = if n = fd then d else t.get n := Function.update_apply ..

theorem get_close (t : FdTable δ) (fd n : ℕ) :
    (t.close fd).get n = if n = fd then none else t.get n := t.get_set fd none n

theorem get_lowestFree (t : FdTable δ) : t.get t.lowestFree = none := Nat.find_spec t.exists_free

theorem ne_lowestFree_of_open {n : ℕ} (h : t.get n = some d) : n ≠ t.lowestFree := by
  rintro rfl
  rw [get_lowestFree] at h
  exact absurd h nofun

theorem lowestFree_eq (hfree : t.get fd = none) (hopen : ∀ n < fd, (t.get n).isSome) :
    t.lowestFree = fd := by
  refine (Nat.find_eq_iff _).2 ⟨hfree, fun n hn hnone => ?_⟩
  have := hopen n hn
  rw [hnone] at this
  exact absurd this nofun

theorem get_alloc (t : FdTable δ) (d : δ) (n : ℕ) :
    (t.alloc d).get n = if n = t.lowestFree then some d else t.get n := t.get_set _ _ n

/-- Where all lower numbers are open, a closed number is the one that comes next. -/
theorem get_redirect (hopen : ∀ n < fd, (t.get n).isSome) (d : δ) (n : ℕ) :
    (t.redirect fd d).get n = if n = fd then some d else t.get n := by
  have hlow : (t.close fd).lowestFree = fd := by
    refine lowestFree_eq (by rw [get_close, if_pos rfl]) fun m hm => ?_
    rw [get_close, if_neg (Nat.ne_of_lt hm)]
    exact hopen m hm
  rw [redirect, get_alloc, hlow, get_close]
  by_cases hn : n = fd
  · rw [if_pos hn, if_pos hn]
  · rw [if_neg hn, if_neg hn, if_neg hn]

/-- So closing and opening sets the number. -/
theorem redirect_eq_set (hopen : ∀ n < fd, (t.get n).isSome) (d : δ) :
    t.redirect fd d = t.set fd (some d) := by
  ext1
  funext n
  rw [get_redirect hopen, get_set]

/-- Other open numbers are left alone, whichever number the file is opened at. -/
theorem get_redirect_of_open {n : ℕ} (hne : n ≠ fd) (hopen : (t.get n).isSome) (d : δ) :
    (t.redirect fd d).get n = t.get n := by
  have hclose : (t.close fd).get n = t.get n := by rw [get_close, if_neg hne]
  obtain ⟨e, he⟩ := Option.isSome_iff_exists.1 hopen
  rw [redirect, get_alloc, if_neg (ne_lowestFree_of_open (hclose.trans he)), hclose]

/-- A number refers to the file, to nothing or to what it referred to. -/
theorem get_redirect_cases (t : FdTable δ) (fd : ℕ) (d : δ) (n : ℕ) :
    (t.redirect fd d).get n = some d ∨ (t.redirect fd d).get n = none ∨
      (t.redirect fd d).get n = t.get n := by
  rw [redirect, get_alloc, get_close]
  by_cases h₁ : n = (t.close fd).lowestFree
  · exact .inl (if_pos h₁)
  · rw [if_neg h₁]
    by_cases h₂ : n = fd
    · exact .inr (.inl (if_pos h₂))
    · exact .inr (.inr (if_neg h₂))

/-- Two files at the two lowest free numbers, as `pipe` opens them: the table and the
numbers. -/
def pipe (t : FdTable δ) (r w : δ) : FdTable δ × ℕ × ℕ :=
  let t' := t.alloc r
  (t'.alloc w, t.lowestFree, t'.lowestFree)

theorem pipe_spec (t : FdTable δ) (r w : δ) :
    (t.pipe r w).2.1 ≠ (t.pipe r w).2.2 ∧ t.get (t.pipe r w).2.1 = none ∧
      t.get (t.pipe r w).2.2 = none ∧ (t.pipe r w).1.get (t.pipe r w).2.1 = some r ∧
      (t.pipe r w).1.get (t.pipe r w).2.2 = some w ∧
      ∀ n, n ≠ (t.pipe r w).2.1 → n ≠ (t.pipe r w).2.2 → (t.pipe r w).1.get n = t.get n := by
  have hopen : (t.alloc r).get t.lowestFree = some r := by rw [get_alloc, if_pos rfl]
  have hne : t.lowestFree ≠ (t.alloc r).lowestFree := ne_lowestFree_of_open hopen
  have hfree := (t.alloc r).get_lowestFree
  rw [get_alloc, if_neg (Ne.symm hne)] at hfree
  refine ⟨hne, t.get_lowestFree, hfree, ?_, ?_, fun n h₁ h₂ => ?_⟩
  · exact (get_alloc _ _ _).trans ((if_neg hne).trans hopen)
  · exact (get_alloc _ _ _).trans (if_pos rfl)
  · exact (get_alloc _ _ _).trans ((if_neg h₂).trans ((get_alloc _ _ _).trans (if_neg h₁)))

/-- A number takes over the file of another, whose table entries are then closed: the
idiom of a process at one end of a pipe. -/
def takeOver (t : FdTable δ) (fd src r w : ℕ) : FdTable δ :=
  (((t.close fd).dup src).close r).close w

/-- Of the two ends only the one taken over stays open, at its new number. -/
theorem get_takeOver {src r w : ℕ} (hopen : ∀ n < fd, (t.get n).isSome) (hsrc : src ≠ fd)
    (hd : t.get src = some d) (hr : r ≠ fd) (hw : w ≠ fd) (n : ℕ) :
    (t.takeOver fd src r w).get n =
      if n = fd then some d else if n = r ∨ n = w then none else t.get n := by
  have hdup : (t.close fd).dup src = t.redirect fd d := by
    rw [dup, get_close, if_neg hsrc, hd, redirect]
  rw [takeOver, hdup, get_close, get_close, get_redirect hopen]
  by_cases hn : n = fd
  · subst hn
    rw [if_neg hw.symm, if_neg hr.symm, if_pos rfl, if_pos rfl]
  · rw [if_neg hn, if_neg hn]
    by_cases hnw : n = w
    · rw [if_pos hnw, if_pos (.inr hnw)]
    · by_cases hnr : n = r
      · rw [if_neg hnw, if_pos hnr, if_pos (.inl hnr)]
      · rw [if_neg hnw, if_neg hnr, if_neg (not_or.2 ⟨hnr, hnw⟩)]

end FdTable
end V6User
