import Mathlib.Data.List.Basic
import Mathlib.Tactic.Common

/-!
# Scanning text with quoted regions and escapes

A quote scanner reads a text from left to right in a mode, the kind of region
it is in.  A lead character (a backslash, say) may escape the character after
it, and which characters it escapes depends on the mode; every other character
moves the scanner to its next mode; in some modes some characters end the scan.

`QuoteScan.states` gives the state of the scanner at each character it reads:
its mode, or `none` at a character that is escaped.  Two scanners that differ
only in what a lead escapes are in the same states on a text exactly when they
take the same decision at every lead (`states_eq_iff`).
-/

namespace V6User

/-- A scanner with modes `κ` over the characters `α`. -/
structure QuoteScan (κ α : Type*) where
  lead : α → Bool
  escapes : κ → α → Bool
  step : κ → α → κ
  stop : κ → α → Bool

namespace QuoteScan

variable {κ α : Type*}

/-- The state of the scanner at each character it reads: the mode it is in, or
`none` where the character is escaped. -/
def states (S : QuoteScan κ α) : κ → List α → List (Option κ)
  | _, [] => []
  | k, c :: s =>
    if S.stop k c then []
    else if S.lead c then
      match s with
      | [] => [some k]
      | d :: s' =>
        if S.escapes k d then some k :: none :: S.states k s' else some k :: S.states k (d :: s')
    else some k :: S.states (S.step k c) s

/-- The scanner reads the whole text. -/
def Reads (S : QuoteScan κ α) (k : κ) (s : List α) : Prop := (S.states k s).length = s.length

/-- Two scanners take the same decision at every lead of the text. -/
def escapesAgree (S T : QuoteScan κ α) : κ → List α → Bool
  | _, [] => true
  | k, c :: s =>
    if S.lead c then
      match s with
      | [] => true
      | d :: s' =>
        S.escapes k d == T.escapes k d &&
          if S.escapes k d then S.escapesAgree T k s' else S.escapesAgree T k (d :: s')
    else S.escapesAgree T (S.step k c) s

section steps

variable {S T : QuoteScan κ α} {k : κ} {c d : α} {s : List α}

@[simp] theorem states_nil : S.states k [] = [] := rfl

theorem states_cons (S : QuoteScan κ α) (k : κ) (c : α) (s : List α) :
    S.states k (c :: s) = if S.stop k c then []
      else if S.lead c then
        match s with
        | [] => [some k]
        | d :: s' =>
          if S.escapes k d then some k :: none :: S.states k s' else some k :: S.states k (d :: s')
      else some k :: S.states (S.step k c) s := by
  rw [states.eq_def]

theorem states_of_stop (hs : S.stop k c = true) : S.states k (c :: s) = [] := by
  rw [states_cons]; simp [hs]

theorem states_of_char (hs : S.stop k c = false) (hl : S.lead c = false) :
    S.states k (c :: s) = some k :: S.states (S.step k c) s := by
  rw [states_cons]; simp [hs, hl]

theorem states_of_escape (hs : S.stop k c = false) (hl : S.lead c = true)
    (he : S.escapes k d = true) :
    S.states k (c :: d :: s) = some k :: none :: S.states k s := by
  rw [states_cons]; simp [hs, hl, he]

theorem states_of_not_escape (hs : S.stop k c = false) (hl : S.lead c = true)
    (he : S.escapes k d = false) :
    S.states k (c :: d :: s) = some k :: S.states k (d :: s) := by
  rw [states_cons]; simp [hs, hl, he]

theorem states_of_last (hs : S.stop k c = false) (hl : S.lead c = true) :
    S.states k [c] = [some k] := by
  rw [states_cons]; simp [hs, hl]

/-- The first character a scanner reads is not escaped. -/
theorem states_ne_none_cons (S : QuoteScan κ α) (k : κ) (s : List α) (qs : List (Option κ)) :
    S.states k s ≠ none :: qs := by
  fun_cases S.states k s <;> simp

theorem escapesAgree_cons (S T : QuoteScan κ α) (k : κ) (c : α) (s : List α) :
    S.escapesAgree T k (c :: s) = if S.lead c then
        match s with
        | [] => true
        | d :: s' =>
          S.escapes k d == T.escapes k d &&
            if S.escapes k d then S.escapesAgree T k s' else S.escapesAgree T k (d :: s')
      else S.escapesAgree T (S.step k c) s := by
  rw [escapesAgree.eq_def]

theorem escapesAgree_of_char (hl : S.lead c = false) :
    S.escapesAgree T k (c :: s) = S.escapesAgree T (S.step k c) s := by
  rw [escapesAgree_cons]; simp [hl]

theorem escapesAgree_of_lead (hl : S.lead c = true) :
    S.escapesAgree T k (c :: d :: s) = (S.escapes k d == T.escapes k d &&
      if S.escapes k d then S.escapesAgree T k s else S.escapesAgree T k (d :: s)) := by
  rw [escapesAgree_cons]; simp [hl]

/-- What a scanner reads to its end does not begin with a stop. -/
theorem Reads.not_stop (h : S.Reads k (c :: s)) : S.stop k c = false := by
  by_contra hs
  simp [Reads, states_of_stop (by simpa using hs)] at h

theorem Reads.of_char (h : S.Reads k (c :: s)) (hl : S.lead c = false) :
    S.Reads (S.step k c) s := by
  have hs := h.not_stop
  rw [Reads, states_of_char hs hl] at h
  simpa [Reads] using h

theorem Reads.of_escape (h : S.Reads k (c :: d :: s)) (hl : S.lead c = true)
    (he : S.escapes k d = true) : S.Reads k s := by
  have hs := h.not_stop
  rw [Reads, states_of_escape hs hl he] at h
  simpa [Reads] using h

theorem Reads.of_not_escape (h : S.Reads k (c :: d :: s)) (hl : S.lead c = true)
    (he : S.escapes k d = false) : S.Reads k (d :: s) := by
  have hs := h.not_stop
  rw [Reads, states_of_not_escape hs hl he] at h
  simpa [Reads] using h

end steps

theorem length_states_le (S : QuoteScan κ α) (k : κ) (s : List α) :
    (S.states k s).length ≤ s.length := by
  fun_induction S.states k s <;> simp only [List.length_cons, List.length_nil] at * <;> omega

/-- The scanner reads the whole of the part of a text that it reads. -/
theorem states_take (S : QuoteScan κ α) (k : κ) (s : List α) :
    S.states k (s.take (S.states k s).length) = S.states k s := by
  fun_induction S.states k s with
  | case1 => rfl
  | case2 => rfl
  | case3 k c hs hl => simpa using states_of_last (by simpa using hs) hl
  | case4 k c hs hl d s' he ih =>
    simp only [List.length_cons, List.take_succ_cons]
    rw [states_of_escape (by simpa using hs) hl he, ih]
  | case5 k c hs hl d s' he ih =>
    cases hn : S.states k (d :: s') with
    | nil => simpa using states_of_last (by simpa using hs) hl
    | cons q qs =>
      rw [hn] at ih
      simp only [List.length_cons, List.take_succ_cons] at ih ⊢
      rw [states_of_not_escape (by simpa using hs) hl (by simpa using he), ih]
  | case6 k c s hs hl ih =>
    simp only [List.length_cons, List.take_succ_cons]
    rw [states_of_char (by simpa using hs) (by simpa using hl), ih]

theorem reads_take (S : QuoteScan κ α) (k : κ) (s : List α) :
    S.Reads k (s.take (S.states k s).length) := by
  rw [Reads, states_take, List.length_take, Nat.min_eq_left (S.length_states_le k s)]

/-- **Two scanners are in the same states exactly when they agree on every
escape.**  The scanners share the lead and the modes; the first reads the whole
text and the second is never stopped. -/
theorem states_eq_iff {S T : QuoteScan κ α} (hlead : T.lead = S.lead) (hstep : T.step = S.step)
    (hstop : ∀ k c, T.stop k c = false) {k : κ} {s : List α} (hr : S.Reads k s) :
    S.states k s = T.states k s ↔ S.escapesAgree T k s = true := by
  fun_induction S.states k s with
  | case1 => simp [states, escapesAgree]
  | case2 k c s hs => simp [Reads, states_of_stop hs] at hr
  | case3 k c hs hl =>
    rw [states_of_last (hstop k c) (hlead ▸ hl)]
    simp [escapesAgree]
  | case4 k c hs hl d s' he ih =>
    rw [escapesAgree_of_lead hl]
    by_cases hT : T.escapes k d = true
    · rw [states_of_escape (hstop k c) (hlead ▸ hl) hT]
      simp [he, hT, ih (hr.of_escape hl he)]
    · rw [states_of_not_escape (hstop k c) (hlead ▸ hl) (by simpa using hT)]
      simp only [List.cons.injEq, true_and, he, hT]
      simpa using fun h => T.states_ne_none_cons _ _ _ h.symm
  | case5 k c hs hl d s' he ih =>
    rw [escapesAgree_of_lead hl]
    by_cases hT : T.escapes k d = true
    · rw [states_of_escape (hstop k c) (hlead ▸ hl) hT]
      simp only [List.cons.injEq, true_and, he, hT]
      simpa using S.states_ne_none_cons _ _ _
    · rw [states_of_not_escape (hstop k c) (hlead ▸ hl) (by simpa using hT)]
      simp [he, hT, ih (hr.of_not_escape hl (by simpa using he))]
  | case6 k c s hs hl ih =>
    rw [states_of_char (hstop k c) (by simpa [hlead] using hl), hstep,
      escapesAgree_of_char (by simpa using hl)]
    simp [ih (hr.of_char (by simpa using hl))]

end QuoteScan

end V6User
