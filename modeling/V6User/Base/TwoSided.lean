import Mathlib.Data.List.Basic
import Mathlib.Tactic.Common

/-!
# A two-sided editor

The line under edit as the entries before the cursor, the nearest first, and the
entries from the cursor on.  Each operation touches the two sides only where they
meet.  The lemmas of the second part say what an operation does to the whole line and
to the position of the cursor in it.
-/

namespace V6User

/-- A line with a cursor in it. -/
structure TwoSided (α : Type) where
  before : List α
  after : List α
  deriving DecidableEq, Repr

namespace TwoSided

variable {α : Type}

/-- The line. -/
def line (z : TwoSided α) : List α := z.before.reverse ++ z.after

/-- The position of the cursor. -/
def pos (z : TwoSided α) : ℕ := z.before.length

/-- The empty line. -/
def empty : TwoSided α := ⟨[], []⟩

/-- A line with the cursor at its end. -/
def ofLine (l : List α) : TwoSided α := ⟨l.reverse, []⟩

/-- Type an entry, in a line of at most `size`. -/
def insert (size : ℕ) (z : TwoSided α) (a : α) : TwoSided α :=
  if z.line.length < size then ⟨a :: z.before, z.after⟩ else z

/-- Delete the entry before the cursor. -/
def deleteBack (z : TwoSided α) : TwoSided α := ⟨z.before.tail, z.after⟩

/-- Delete the entry at the cursor. -/
def deleteForward (z : TwoSided α) : TwoSided α := ⟨z.before, z.after.tail⟩

/-- Move over the entry before the cursor. -/
def left : TwoSided α → TwoSided α
  | ⟨[], after⟩ => ⟨[], after⟩
  | ⟨a :: before, after⟩ => ⟨before, a :: after⟩

/-- Move over the entry at the cursor. -/
def right : TwoSided α → TwoSided α
  | ⟨before, []⟩ => ⟨before, []⟩
  | ⟨before, a :: after⟩ => ⟨a :: before, after⟩

/-- Move to the start of the line. -/
def home (z : TwoSided α) : TwoSided α := ⟨[], z.line⟩

/-- Move to the end of the line. -/
def toEnd (z : TwoSided α) : TwoSided α := ⟨z.line.reverse, []⟩

/-- Delete from the cursor on. -/
def killToEnd (z : TwoSided α) : TwoSided α := ⟨z.before, []⟩

variable {z : TwoSided α}

theorem pos_le (z : TwoSided α) : z.pos ≤ z.line.length := by
  rw [line, pos, List.length_append, List.length_reverse]
  exact Nat.le_add_right _ _

theorem take_pos (z : TwoSided α) : z.line.take z.pos = z.before.reverse := by
  rw [line, pos, ← List.length_reverse, List.take_left]

theorem drop_pos (z : TwoSided α) : z.line.drop z.pos = z.after := by
  rw [line, pos, ← List.length_reverse, List.drop_left]

@[simp] theorem line_empty : (empty : TwoSided α).line = [] := rfl

@[simp] theorem pos_empty : (empty : TwoSided α).pos = 0 := rfl

@[simp] theorem line_ofLine (l : List α) : (ofLine l).line = l := by simp [ofLine, line]

@[simp] theorem pos_ofLine (l : List α) : (ofLine l).pos = l.length := by simp [ofLine, pos]

theorem insert_full {size : ℕ} (a : α) (h : size ≤ z.line.length) : z.insert size a = z :=
  if_neg (Nat.not_lt.2 h)

theorem line_deleteForward (z : TwoSided α) :
    z.deleteForward.line = z.line.take z.pos ++ z.line.drop (z.pos + 1) := by
  rw [take_pos, ← List.drop_drop, drop_pos, List.drop_one]
  rfl

/-- At the end of the line there is nothing to delete forward. -/
theorem deleteForward_end (h : z.line.length ≤ z.pos) : z.deleteForward = z := by
  obtain ⟨before, _ | ⟨a, after⟩⟩ := z
  · rfl
  · simp only [line, pos, List.length_append, List.length_reverse, List.length_cons] at h
    omega

theorem line_deleteBack_subset (z : TwoSided α) : z.deleteBack.line ⊆ z.line := by
  intro a ha
  rw [line, deleteBack, List.mem_append, List.mem_reverse] at ha
  rw [line, List.mem_append, List.mem_reverse]
  exact ha.imp_left List.mem_of_mem_tail

theorem line_deleteForward_subset (z : TwoSided α) : z.deleteForward.line ⊆ z.line := by
  intro a ha
  rw [line, deleteForward, List.mem_append] at ha
  rw [line, List.mem_append]
  exact ha.imp_right List.mem_of_mem_tail

@[simp] theorem line_left (z : TwoSided α) : z.left.line = z.line := by
  obtain ⟨_ | ⟨a, before⟩, after⟩ := z
  · rfl
  · simp [left, line]

theorem pos_left (z : TwoSided α) : z.left.pos = z.pos - 1 := by
  obtain ⟨_ | ⟨a, before⟩, after⟩ := z <;> rfl

@[simp] theorem line_right (z : TwoSided α) : z.right.line = z.line := by
  obtain ⟨before, _ | ⟨a, after⟩⟩ := z
  · rfl
  · simp [right, line]

theorem pos_right (z : TwoSided α) : z.right.pos = min (z.pos + 1) z.line.length := by
  obtain ⟨before, _ | ⟨a, after⟩⟩ := z
  · simp [right, line, pos]
  · simp only [right, line, pos, List.length_cons, List.length_append, List.length_reverse]
    omega

@[simp] theorem line_home (z : TwoSided α) : z.home.line = z.line := rfl

@[simp] theorem pos_home (z : TwoSided α) : z.home.pos = 0 := rfl

@[simp] theorem line_toEnd (z : TwoSided α) : z.toEnd.line = z.line := line_ofLine _

@[simp] theorem pos_toEnd (z : TwoSided α) : z.toEnd.pos = z.line.length := pos_ofLine _

theorem line_killToEnd (z : TwoSided α) : z.killToEnd.line = z.line.take z.pos := by
  rw [take_pos, killToEnd, line, List.append_nil]

end TwoSided
end V6User
