import Mathlib.Algebra.Order.BigOperators.Group.List
import V6User.Printf.Vprintf
import V6User.Printf.Vsnprintf

/-!
# The two copies of the loop

`lib/printf.c`: `vprintf` and `vsnprintf` on one format.

They write the same bytes exactly where the format has no `%n`, for which only `vprintf` has
a case (`vprintf_agrees_iff`).  Each of them stays within the format exactly where it does
not end inside a directive: the byte after `%` is tested for the NUL, but the conversion
character is not (`vprintf_within_iff`).
-/

namespace V6User
namespace Printf

open Shell (Byte CStr)
open Bounded

variable {text : BitVec 64 → List Byte} {fmt : List Byte} {ap : VaList}

/-- `vprintf` writes what `vsnprintf` stores when the buffer is large enough. -/
def Agree (write : List Byte → ℤ → ℤ) (text : BitVec 64 → List Byte) (fmt : CStr)
    (ap : VaList) : Prop :=
  ∃ out, vprintf write text fmt ap = some out ∧
    ∀ size, out.length < size → vsnprintf text size fmt ap = some out

/-- No directive of the format is `%n`. -/
def NoCount (fmt : List Byte) (ap : VaList) : Prop :=
  ∀ spec arg, Item.directive spec 110 arg ∉ items fmt ap

/-! ### `%n` -/

theorem renderConv_of_ne {spec : Spec} {conv : Byte} {count : List Byte} (h : conv ≠ 110) :
    renderConv text count spec conv ap = renderConv text [] spec conv ap := by
  unfold renderConv
  split <;> first | rfl | contradiction

theorem rendered_of_noCount (count : List Byte) (h : NoCount fmt ap) :
    rendered text count fmt ap = rendered text [] fmt ap := by
  refine List.flatMap_congr fun item hitem => ?_
  cases item with
  | byte c => rfl
  | directive spec conv arg =>
    refine renderConv_of_ne ?_
    rintro rfl
    exact h spec arg hitem

/-- With `%n` something more is rendered where it stands for itself. -/
theorem length_rendered_lt (text : BitVec 64 → List Byte) (h : ¬NoCount fmt ap) :
    (rendered text [] fmt ap).length < (rendered text [37, 110] fmt ap).length := by
  rw [rendered, rendered, List.length_flatMap, List.length_flatMap]
  refine List.sum_lt_sum _ _ ?_ ?_
  · intro item _
    cases item with
    | byte c => exact Nat.le_refl _
    | directive spec conv arg =>
      by_cases hconv : conv = 110
      · subst hconv
        exact Nat.zero_le _
      · exact Nat.le_of_eq (congrArg List.length (renderConv_of_ne hconv).symm)
  · simp only [NoCount, not_forall, not_not] at h
    obtain ⟨spec, arg, hmem⟩ := h
    exact ⟨_, hmem, Nat.zero_lt_succ _⟩

/-- What `vsnprintf` stores in a large buffer. -/
theorem vsnprintf_eq {size : ℕ} {fmt : CStr} (hc : endsInside fmt.bytes = false)
    (hsize : (rendered text [37, 110] fmt.bytes ap).length < size) :
    vsnprintf text size fmt ap = some (rendered text [37, 110] fmt.bytes ap) := by
  rw [vsnprintf, if_neg (by omega), vsnprintfLoop_eq hc, pushAll_eq (Nat.zero_le _),
    List.nil_append, List.take_of_length_le (by omega)]

theorem vprintf_eq {write : List Byte → ℤ → ℤ} {fmt : CStr} (hw : Accepts write)
    (hc : endsInside fmt.bytes = false) :
    vprintf write text fmt ap = some (rendered text [] fmt.bytes ap) := by
  rw [vprintf, vprintfLoop_eq hw (Nat.zero_le _) hc, List.append_nil, List.nil_append]

/-- **When the two copies agree.**  For every format in which each directive has its
conversion character and all arguments, where `write` accepts everything: what `vprintf`
writes is what `vsnprintf` stores in every buffer that is large enough, exactly when no
directive is `%n`. -/
theorem vprintf_agrees_iff (write : List Byte → ℤ → ℤ) (text : BitVec 64 → List Byte) (fmt : CStr)
    (ap : VaList) (hw : Accepts write) (hc : endsInside fmt.bytes = false) :
    Agree write text fmt ap ↔ NoCount fmt.bytes ap := by
  rw [Agree, vprintf_eq hw hc]
  constructor
  · rintro ⟨out, hout, hstored⟩
    obtain rfl := Option.some.inj hout
    by_contra hcount
    have hlt := length_rendered_lt text hcount
    have hsame := hstored _ (hlt.trans (Nat.lt_succ_self _))
    rw [vsnprintf_eq hc (Nat.lt_succ_self _)] at hsame
    rw [Option.some.inj hsame] at hlt
    exact absurd hlt (Nat.lt_irrefl _)
  · intro hcount
    refine ⟨_, rfl, fun size hsize => ?_⟩
    rw [← rendered_of_noCount [37, 110] hcount] at hsize ⊢
    exact vsnprintf_eq hc hsize

/-- A `write` that takes all it is given. -/
def writeAll (_ : List Byte) (n : ℤ) : ℤ := n

theorem accepts_writeAll : Accepts writeAll := ⟨fun _ _ h => ⟨h, Int.le_refl _⟩, fun _ _ h => h⟩

theorem vprintf_agrees_iff_decimal :
    Agree writeAll (fun _ => []) ⟨[37, 100], by decide⟩ (fun _ => 5) := by
  have hskip : skipSpec [100] = [100] := rfl
  have hc : endsInside [37, 100] = false := by
    rw [endsInside_directive hskip, endsInside_nil]
  refine (vprintf_agrees_iff writeAll (fun _ => []) ⟨[37, 100], by decide⟩ (fun _ => 5)
    accepts_writeAll hc).2 ?_
  intro spec arg hmem
  rw [items_directive hskip, items_nil, List.mem_singleton] at hmem
  exact absurd (Item.directive.inj hmem).2.1 (by decide)

/-- **`%n` is written as nothing and stored as itself.** -/
theorem vprintf_disagrees : Accepts writeAll ∧ endsInside [37, 110] = false ∧
    ¬Agree writeAll (fun _ => []) ⟨[37, 110], by decide⟩ fun _ => 0 := by
  have hskip : skipSpec [110] = [110] := rfl
  have hc : endsInside [37, 110] = false := by
    rw [endsInside_directive hskip, endsInside_nil]
  have hrendered : ∀ count, rendered (fun _ => []) count [37, 110] (fun _ => 0) = count := by
    intro count
    rw [rendered, items_directive hskip, items_nil, List.flatMap_cons, List.flatMap_nil,
      List.append_nil]
    rfl
  refine ⟨accepts_writeAll, hc, ?_⟩
  rintro ⟨out, hout, hstored⟩
  rw [vprintf_eq accepts_writeAll hc, hrendered] at hout
  obtain rfl := Option.some.inj hout
  have hsame := hstored 3 (by decide)
  rw [vsnprintf_eq hc (by rw [hrendered]; decide), hrendered] at hsame
  exact absurd hsame (by decide)

/-! ### The end of the format -/

theorem vprintfLoop_isSome {write : List Byte → ℤ → ℤ} {buf out : List Byte}
    (h : endsInside fmt = false) : vprintfLoop write text fmt ap buf out ≠ none := by
  induction fmt using format_induction generalizing ap buf out with
  | nil => rw [vprintfLoop_nil]; exact nofun
  | byte c fmt hc ih =>
    rw [endsInside_byte hc] at h
    rw [vprintfLoop_byte hc]
    exact ih h
  | percent => rw [vprintfLoop_percent]; exact nofun
  | inside fmt hfmt hs =>
    rw [endsInside_inside hfmt hs] at h
    exact absurd h nofun
  | directive fmt conv rest hs ih =>
    rw [endsInside_directive hs] at h
    rw [vprintfLoop_directive hs]
    exact ih h

/-- **When the loops stay within the format.**  For every format: `vprintf` reads no byte of
it behind the NUL, whatever the arguments are and `write` does, exactly when it does not end
inside a directive, and so it is for `vsnprintf` over all buffers and arguments. -/
theorem vprintf_within_iff (fmt : CStr) :
    (∀ write text ap, vprintf write text fmt ap ≠ none ↔ endsInside fmt.bytes = false) ∧
      ((∀ text size ap, vsnprintf text size fmt ap ≠ none) ↔ endsInside fmt.bytes = false) := by
  constructor
  · intro write text ap
    constructor
    · intro hsome
      by_contra hc
      exact hsome (vprintfLoop_eq_none (by simpa using hc))
    · exact vprintfLoop_isSome
  · constructor
    · intro hsome
      by_contra hc
      refine hsome (fun _ => [])
        ((rendered (fun _ => []) [37, 110] fmt.bytes fun _ => 0).length + 2) (fun _ => 0) ?_
      rw [vsnprintf, if_neg (by omega)]
      exact vsnprintfLoop_eq_none (by simpa using hc) (by rw [List.nil_append]; omega)
    · intro hc text size ap
      rw [vsnprintf]
      split_ifs
      · exact nofun
      · rw [vsnprintfLoop_eq hc]
        exact nofun

/-- **`%l` at the end of a format** is read beyond the NUL by both. -/
theorem vprintf_within_fails :
    vprintf writeAll (fun _ => []) ⟨[37, 108], by decide⟩ (fun _ => 0) = none ∧
      vsnprintf (fun _ => []) 16 ⟨[37, 108], by decide⟩ (fun _ => 0) = none := by
  have hskip : skipSpec [108] = [] := rfl
  constructor
  · exact vprintfLoop_inside (List.cons_ne_nil _ _) hskip
  · exact vsnprintfLoop_inside (Nat.zero_lt_succ _) (List.cons_ne_nil _ _) hskip

end Printf
end V6User
