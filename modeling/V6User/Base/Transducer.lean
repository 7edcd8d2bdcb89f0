import Mathlib.Data.List.Basic

/-!
# Machines that read a text and write marks

A transducer reads a text one character at a time; at each character it may write
a mark.  What it does on a piece of text depends on what stands before only through
the state it is in there (`output_append`), so two pieces that lead from one state to
one state with the same marks can stand for each other (`SameFrom`).
-/

namespace V6User

/-- A transducer with states `σ`, which reads `α` and writes `β`. -/
structure Transducer (σ α β : Type*) where
  step : σ → α → σ × Option β

namespace Transducer

variable {σ α β : Type*} (T : Transducer σ α β)

/-- The state after a text. -/
def after (q : σ) : List α → σ
  | [] => q
  | a :: s => after (T.step q a).1 s

/-- The marks written on a text. -/
def output (q : σ) : List α → List β
  | [] => []
  | a :: s => (T.step q a).2.toList ++ output (T.step q a).1 s

@[simp] theorem after_nil (q : σ) : T.after q [] = q := rfl

@[simp] theorem output_nil (q : σ) : T.output q [] = [] := rfl

theorem after_cons (q : σ) (a : α) (s : List α) :
    T.after q (a :: s) = T.after (T.step q a).1 s := rfl

theorem output_cons (q : σ) (a : α) (s : List α) :
    T.output q (a :: s) = (T.step q a).2.toList ++ T.output (T.step q a).1 s := rfl

theorem after_append (q : σ) (s t : List α) :
    T.after q (s ++ t) = T.after (T.after q s) t := by
  induction s generalizing q with
  | nil => rfl
  | cons a s ih => exact ih _

theorem output_append (q : σ) (s t : List α) :
    T.output q (s ++ t) = T.output q s ++ T.output (T.after q s) t := by
  induction s generalizing q with
  | nil => rfl
  | cons a s ih => rw [List.cons_append, output_cons, ih, output_cons, List.append_assoc, after_cons]

/-- Two pieces of text that the machine reads alike from a state. -/
structure SameFrom (q : σ) (s t : List α) : Prop where
  after : T.after q s = T.after q t
  output : T.output q s = T.output q t

variable {T} {q : σ} {s s' t t' : List α}

theorem SameFrom.refl (T : Transducer σ α β) (q : σ) (s : List α) : T.SameFrom q s s := ⟨rfl, rfl⟩

/-- Texts put together from pieces that are read alike are read alike. -/
theorem SameFrom.append (h : T.SameFrom q s t) (h' : T.SameFrom (T.after q s) s' t') :
    T.SameFrom q (s ++ s') (t ++ t') := by
  constructor
  · rw [T.after_append, T.after_append, ← h.after, h'.after]
  · rw [T.output_append, T.output_append, ← h.after, h.output, h'.output]

end Transducer
end V6User
