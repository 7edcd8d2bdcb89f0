import Mathlib.Data.List.TakeWhile
import Mathlib.Tactic.Common

/-!
# The lines of a text

A text is cut by an element `nl` into terminated lines, each followed by an `nl`, and what
comes after the last of these, which may be empty.  Both are computed as the text comes in:
with more text, only what was unterminated goes on (`terminated_append`).
-/

namespace V6User
namespace Lines

variable {α : Type} [DecidableEq α] {nl : α} {s t text : List α}

/-- The terminated lines of a text, each without its terminator. -/
def terminated (nl : α) (s : List α) : List (List α) := (s.splitOn nl).dropLast

/-- What comes after the last terminator. -/
def unterminated (nl : α) (s : List α) : List α := (s.splitOn nl).getLastD []

/-- All lines: an unterminated one counts when it is not empty. -/
def lines (nl : α) (s : List α) : List (List α) :=
  terminated nl s ++ if unterminated nl s = [] then [] else [unterminated nl s]

theorem terminated_of_notMem (h : nl ∉ s) : terminated nl s = [] := by
  rw [terminated, List.splitOn_eq_singleton h]
  rfl

theorem unterminated_of_notMem (h : nl ∉ s) : unterminated nl s = s := by
  rw [unterminated, List.splitOn_eq_singleton h]
  rfl

theorem terminated_line (h : nl ∉ text) :
    terminated nl (text ++ nl :: s) = text :: terminated nl s := by
  rw [terminated, List.splitOn_append_cons_self_of_not_mem h,
    List.dropLast_cons_of_ne_nil (List.splitOn_ne_nil nl s)]
  rfl

theorem unterminated_line (h : nl ∉ text) :
    unterminated nl (text ++ nl :: s) = unterminated nl s := by
  obtain ⟨l, ls, hs⟩ := List.exists_cons_of_ne_nil (List.splitOn_ne_nil nl s)
  rw [unterminated, unterminated, List.splitOn_append_cons_self_of_not_mem h, hs]
  rfl

theorem lines_of_notMem (h : nl ∉ s) : lines nl s = if s = [] then [] else [s] := by
  rw [lines, terminated_of_notMem h, unterminated_of_notMem h, List.nil_append]

theorem lines_line (h : nl ∉ text) : lines nl (text ++ nl :: s) = text :: lines nl s := by
  rw [lines, terminated_line h, unterminated_line h]
  rfl

/-- A text is one unterminated line, or begins with a terminated one. -/
theorem cases_line (nl : α) (s : List α) :
    nl ∉ s ∨ ∃ text rest, nl ∉ text ∧ s = text ++ nl :: rest := by
  by_cases h : nl ∈ s
  · obtain ⟨text, rest, rfl, htext⟩ := List.eq_append_cons_of_mem h
    exact .inr ⟨text, rest, htext, rfl⟩
  · exact .inl h

/-- **Induction along a text, a line at a time.** -/
theorem line_induction (nl : α) {P : List α → Prop} (last : ∀ s, nl ∉ s → P s)
    (line : ∀ text rest, nl ∉ text → P rest → P (text ++ nl :: rest)) (s : List α) : P s := by
  suffices h : ∀ n : ℕ, ∀ s : List α, s.length ≤ n → P s from h s.length s (Nat.le_refl _)
  intro n
  induction n with
  | zero =>
    intro s hs
    obtain rfl := List.eq_nil_of_length_eq_zero (Nat.le_zero.1 hs)
    exact last [] List.not_mem_nil
  | succ n ih =>
    intro s hs
    rcases cases_line nl s with h | ⟨text, rest, htext, rfl⟩
    · exact last s h
    · refine line text rest htext (ih rest ?_)
      rw [List.length_append, List.length_cons] at hs
      omega

/-- Nothing in a line terminates it. -/
theorem notMem_of_mem_terminated (h : text ∈ terminated nl s) : nl ∉ text := by
  induction s using line_induction nl with
  | last s hs =>
    rw [terminated_of_notMem hs] at h
    exact absurd h List.not_mem_nil
  | line first rest hfirst ih =>
    rw [terminated_line hfirst] at h
    rcases List.mem_cons.1 h with rfl | h
    · exact hfirst
    · exact ih h

theorem notMem_unterminated (nl : α) (s : List α) : nl ∉ unterminated nl s := by
  induction s using line_induction nl with
  | last s hs => rwa [unterminated_of_notMem hs]
  | line first rest hfirst ih => rwa [unterminated_line hfirst]

/-- **More text goes on with what was unterminated.** -/
theorem terminated_append (nl : α) (s t : List α) :
    terminated nl (s ++ t) = terminated nl s ++ terminated nl (unterminated nl s ++ t) := by
  induction s using line_induction nl with
  | last s hs => rw [terminated_of_notMem hs, unterminated_of_notMem hs, List.nil_append]
  | line first rest hfirst ih =>
    rw [List.append_assoc, List.cons_append, terminated_line hfirst, terminated_line hfirst,
      unterminated_line hfirst, ih, List.cons_append]

theorem unterminated_append (nl : α) (s t : List α) :
    unterminated nl (s ++ t) = unterminated nl (unterminated nl s ++ t) := by
  induction s using line_induction nl with
  | last s hs => rw [unterminated_of_notMem hs]
  | line first rest hfirst ih =>
    rw [List.append_assoc, List.cons_append, unterminated_line hfirst, unterminated_line hfirst,
      ih]

/-- A text is its lines with their terminators. -/
theorem flatten_terminated_append (nl : α) (s : List α) :
    ((terminated nl s).map (· ++ [nl])).flatten ++ unterminated nl s = s := by
  induction s using line_induction nl with
  | last s hs => rw [terminated_of_notMem hs, unterminated_of_notMem hs]; rfl
  | line first rest hfirst ih =>
    rw [terminated_line hfirst, unterminated_line hfirst, List.map_cons, List.flatten_cons,
      List.append_assoc, ih, List.append_assoc]
    rfl

theorem unterminated_suffix (nl : α) (s : List α) : unterminated nl s <:+ s :=
  ⟨_, flatten_terminated_append nl s⟩

/-- There are as many terminated lines as terminators. -/
theorem length_terminated (nl : α) (s : List α) : (terminated nl s).length = s.count nl := by
  induction s using line_induction nl with
  | last s hs => rw [terminated_of_notMem hs, List.count_eq_zero_of_not_mem hs, List.length_nil]
  | line first rest hfirst ih =>
    rw [terminated_line hfirst, List.length_cons, ih, List.count_append,
      List.count_eq_zero_of_not_mem hfirst, List.count_cons_self, Nat.zero_add]

theorem length_lt_of_mem_terminated (h : text ∈ terminated nl s) : text.length < s.length := by
  induction s using line_induction nl with
  | last s hs =>
    rw [terminated_of_notMem hs] at h
    exact absurd h List.not_mem_nil
  | line first rest hfirst ih =>
    rw [terminated_line hfirst] at h
    rw [List.length_append, List.length_cons]
    rcases List.mem_cons.1 h with rfl | h
    · omega
    · have := ih h
      omega

theorem length_le_of_mem_lines (h : text ∈ lines nl s) : text.length ≤ s.length := by
  rcases List.mem_append.1 h with h | h
  · exact (length_lt_of_mem_terminated h).le
  · split_ifs at h
    · exact absurd h List.not_mem_nil
    · rw [List.mem_singleton.1 h]
      exact (unterminated_suffix nl s).length_le

theorem mem_of_mem_lines {c : α} (h : text ∈ lines nl s) (hc : c ∈ text) : c ∈ s := by
  rcases List.mem_append.1 h with h | h
  · rw [← flatten_terminated_append nl s]
    exact List.mem_append_left _
      (List.mem_flatten.2 ⟨text ++ [nl], List.mem_map_of_mem h, List.mem_append_left _ hc⟩)
  · split_ifs at h
    · exact absurd h List.not_mem_nil
    · rw [List.mem_singleton.1 h] at hc
      exact (unterminated_suffix nl s).subset hc

/-! ### Lines that a loop goes through -/

/-- The lines in front of a loop that looks for the next terminator and ends where nothing is
left. -/
def scanLines (nl : α) (s : List α) : List (List α) :=
  if s = [] then []
  else s.takeWhile (· ≠ nl) :: scanLines nl (s.dropWhile (· ≠ nl)).tail
termination_by s.length
decreasing_by
  have hpos := List.length_pos_iff.2 ‹¬s = []›
  have hle := (List.dropWhile_suffix (· ≠ nl) (l := s)).length_le
  rw [List.length_tail]
  omega

theorem scanLines_nil (nl : α) : scanLines nl [] = [] := by
  rw [scanLines, if_pos rfl]

/-- **The loop goes through all lines.** -/
theorem scanLines_eq (nl : α) (s : List α) : scanLines nl s = lines nl s := by
  have hall : ∀ {text : List α}, nl ∉ text → ∀ c ∈ text, decide (c ≠ nl) = true :=
    fun h c hc => decide_eq_true fun heq => h (heq ▸ hc)
  induction s using line_induction nl with
  | last s hs =>
    rw [lines_of_notMem hs]
    split_ifs with hnil
    · rw [hnil, scanLines_nil]
    · rw [scanLines, if_neg hnil, List.takeWhile_eq_self_iff.2 (hall hs),
        List.dropWhile_eq_nil_iff.2 (hall hs), List.tail_nil, scanLines_nil]
  | line text rest htext ih =>
    have hne : text ++ nl :: rest ≠ [] := by simp
    have htake : (text ++ nl :: rest).takeWhile (fun c => decide (c ≠ nl)) = text := by
      rw [List.takeWhile_append_of_pos (hall htext)]
      simp
    have hdrop : (text ++ nl :: rest).dropWhile (fun c => decide (c ≠ nl)) = nl :: rest := by
      rw [List.dropWhile_append_of_pos (hall htext)]
      simp
    rw [scanLines, if_neg hne, htake, hdrop, List.tail_cons, ih, lines_line htext]

/-! ### The lines of the beginning of a text -/

section Prefix

variable {l : List α} {i j : ℕ}

/-- The terminated lines of the beginning are lines of the text. -/
theorem getElem?_lines_of_terminated (h : s <+: t) (hi : (terminated nl s)[i]? = some l) :
    (lines nl t)[i]? = some l := by
  obtain ⟨r, rfl⟩ := h
  have hlt := (List.getElem?_eq_some_iff.1 hi).1
  rw [lines, terminated_append, List.append_assoc, List.getElem?_append_left hlt]
  exact hi

/-- All lines of the beginning but the last are lines of the text. -/
theorem getElem?_lines_before (h : s <+: t) (hj : j < i) (hi : i < (lines nl s).length) :
    (lines nl t)[j]? = (lines nl s)[j]? := by
  have hlen : (lines nl s).length ≤ (terminated nl s).length + 1 := by
    rw [lines, List.length_append]
    split_ifs <;> simp
  have hlt : j < (terminated nl s).length := by omega
  have hmem := List.getElem?_eq_getElem hlt
  rw [getElem?_lines_of_terminated h hmem, lines, List.getElem?_append_left hlt, hmem]

theorem exists_lines_append (hu : nl ∉ s) (hne : s ≠ []) (t : List α) :
    ∃ l ls, lines nl (s ++ t) = l :: ls ∧ s <+: l := by
  rcases cases_line nl t with ht | ⟨text, rest, htext, rfl⟩
  · have hall : nl ∉ s ++ t := by simp [hu, ht]
    exact ⟨s ++ t, [], by rw [lines_of_notMem hall, if_neg (by simp [hne])],
      List.prefix_append s t⟩
  · have hall : nl ∉ s ++ text := by simp [hu, htext]
    exact ⟨s ++ text, lines nl rest, by rw [← List.append_assoc, lines_line hall],
      List.prefix_append s text⟩

/-- **The lines of the beginning of a text begin its lines.** -/
theorem getElem?_lines_of_prefix (h : s <+: t) (hi : (lines nl s)[i]? = some l) :
    ∃ l', (lines nl t)[i]? = some l' ∧ l <+: l' := by
  by_cases hlt : i < (terminated nl s).length
  · rw [lines, List.getElem?_append_left hlt] at hi
    exact ⟨l, getElem?_lines_of_terminated h hi, List.prefix_refl l⟩
  · -- the line is the one that is not terminated
    rw [lines, List.getElem?_append_right (by omega)] at hi
    split_ifs at hi with hnil
    · simp at hi
    · obtain ⟨r, rfl⟩ := h
      obtain ⟨hzero, rfl⟩ : i - (terminated nl s).length = 0 ∧ unterminated nl s = l := by
        rw [List.getElem?_singleton] at hi
        split_ifs at hi with hzero
        · exact ⟨hzero, Option.some.inj hi⟩
      obtain ⟨l', ls, heq, hpre⟩ :=
        exists_lines_append (notMem_unterminated nl s) hnil r
      refine ⟨l', ?_, hpre⟩
      have hsplit : lines nl (s ++ r) = terminated nl s ++ lines nl (unterminated nl s ++ r) := by
        rw [lines, lines, terminated_append, unterminated_append, List.append_assoc]
      rw [hsplit, List.getElem?_append_right (by omega), heq, hzero]
      rfl

end Prefix

/-! ### A text that is held in part -/

/-- The string in a buffer of `size` places, when the first `n` elements of a text are read, or
as many as there is room for before the `stop`. -/
def held (size n : ℕ) (stop : α) (s : List α) : List α :=
  (s.take (min n (size - 1))).takeWhile (· ≠ stop)

theorem held_begins (size n : ℕ) (stop : α) (s : List α) : held size n stop s <+: s :=
  (List.takeWhile_prefix _).trans (List.take_prefix _ _)

theorem notMem_held (size n : ℕ) (stop : α) (s : List α) : stop ∉ held size n stop s := by
  intro h
  have hne := List.mem_takeWhile_imp h
  exact absurd rfl (of_decide_eq_true hne)

theorem length_held_le (size n : ℕ) (stop : α) (s : List α) : (held size n stop s).length ≤ size := by
  have htake := (List.takeWhile_prefix (l := s.take (min n (size - 1))) (· ≠ stop)).length_le
  rw [List.length_take] at htake
  show (List.takeWhile _ _).length ≤ size
  omega

end Lines
end V6User
