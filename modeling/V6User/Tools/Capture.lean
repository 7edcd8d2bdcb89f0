import Mathlib.Data.Int.Init
import Mathlib.Data.List.Infix
import V6User.Base.Lines
import V6User.Shell.Token

/-!
# Capturing the output of a child

`programs/gpucorevalidate/gpucorevalidate.c`: `run_child_capture`, which copies what a child
writes to a pipe into a buffer, and the checks that a token does not occur in it.

The buffer gets the beginning of the output, and the checks read it up to its first NUL.  So
it holds the whole output exactly when that is shorter than the buffer and has no NUL in it
(`runChildCapture_complete_iff`); otherwise a token that occurs is not seen.
-/

namespace V6User
namespace Tools

open Lines
open Shell (Byte)

/-! ### The capture -/

/-- `wait_for_child`: the results of `wait`, each with whether the child exited and its exit
status, until `wait` fails or the child is reaped. -/
def waitForChild (pid : ℤ) : List (ℤ × Option ℕ) → Option (Option ℕ)
  | [] => none
  | (got, status) :: rest =>
    if got < 0 then none
    else if got = pid then some status
    else waitForChild pid rest

/-- What the calls of the parent give: `pipe` and `fork`, what `read` delivers one piece after
the other and whether it fails then, and the results of `wait`. -/
structure ChildCalls where
  pipe : ℤ
  fork : ℤ
  pieces : List (List Byte)
  readFails : Bool
  waits : List (ℤ × Option ℕ)

/-- The output of the child, delivered in pieces of at most `sizeof(tmp)` bytes. -/
def ChildCalls.Delivers (calls : ChildCalls) (output : List Byte) : Prop :=
  calls.pieces.flatten = output ∧ ∀ piece ∈ calls.pieces, piece ≠ [] ∧ piece.length ≤ 256

/-- What one pass of the loop appends to `out`. -/
def capturePiece (outSize : ℤ) (out tmp : List Byte) : List Byte :=
  if outSize > 1 ∧ (out.length : ℤ) < outSize - 1 then
    let copy := if (tmp.length : ℤ) > outSize - 1 - out.length then outSize - 1 - out.length
      else tmp.length
    out ++ tmp.take copy.toNat
  else out

/-- `run_child_capture`: the bytes in `out` before the NUL that is put after them. -/
def runChildCapture (calls : ChildCalls) (outSize : ℤ) : Except String (List Byte) :=
  if calls.pipe < 0 then .error "pipe_failed"
  else if calls.fork < 0 then .error "fork_failed"
  else
    let out := calls.pieces.foldl (capturePiece outSize) []
    if calls.readFails then .error "read_failed"
    else
      match waitForChild calls.fork calls.waits with
      | none => .error "wait_failed"
      | some none => .error "child_not_exited"
      | some (some rc) => if rc ≠ 0 then .error "exit" else .ok out

/-! ### The checks -/

/-- `token_boundary`. -/
def tokenBoundary (c : Byte) : Bool := c == 0 || c == 32 || c == 9 || c == 10 || c == 13

/-- `output_token_match_at`, at the place `p` of the bytes from `start` to `end`. -/
def tokenMatchAt (s : List Byte) (p : ℕ) (token : List Byte) : Bool :=
  if p ≠ 0 ∧ ¬(s[p - 1]?.any tokenBoundary = true) then false
  else if (s.drop p).take token.length ≠ token then false
  else if p + token.length = s.length ∨ s[p + token.length]?.any tokenBoundary = true then true
  else decide (0 < token.length) && token.getLast? == some 61

/-- `output_has_token`. -/
def outputHasToken (s token : List Byte) : Bool :=
  if token.length = 0 then true
  else if s.length < token.length then false
  else (List.range (s.length - token.length + 1)).any fun p => tokenMatchAt s p token

/-- The bytes of a string: those before its NUL. -/
def cstring (out : List Byte) : List Byte := out.takeWhile (· ≠ 0)

/-- `output_contains_token`. -/
def outputContainsToken (out token : List Byte) : Bool := outputHasToken (cstring out) token

/-- The loop of `output_line_has_token`. -/
def lineLoop (anchor token : List Byte) (line : List Byte) : Bool :=
  match line with
  | [] => false
  | c :: s =>
    let text := (c :: s).takeWhile (· ≠ 10)
    if outputHasToken text anchor && outputHasToken text token then true
    else
      match _h : (c :: s).dropWhile (· ≠ 10) with
      | [] => false
      | _ :: rest => lineLoop anchor token rest
termination_by line.length
decreasing_by
  have hle := (List.dropWhile_suffix (l := c :: s) (· ≠ 10)).length_le
  rw [_h] at hle
  exact hle

/-- `output_line_has_token`. -/
def outputLineHasToken (out anchor token : List Byte) : Bool :=
  lineLoop anchor token (cstring out)

/-- `reject_output_token` and `reject_output_line_token` return 0. -/
def rejectOutputToken (out token : List Byte) : Bool := !outputContainsToken out token

def rejectOutputLineToken (out anchor token : List Byte) : Bool :=
  !outputLineHasToken out anchor token

/-! ### What the buffer holds -/

theorem capturePiece_eq (outSize : ℤ) (out tmp : List Byte) :
    capturePiece outSize out tmp = out ++ tmp.take ((outSize - 1).toNat - out.length) := by
  unfold capturePiece
  split_ifs with hroom hcopy
  · exact congrArg (out ++ tmp.take ·) (by omega)
  · dsimp only
    rw [Int.toNat_natCast, List.take_length, List.take_of_length_le (by omega)]
  · rw [Nat.sub_eq_zero_of_le (by omega), List.take_zero, List.append_nil]

/-- **However the pipe delivers the output, the buffer gets its beginning.** -/
theorem foldl_capturePiece (outSize : ℤ) (out : List Byte) (pieces : List (List Byte)) :
    pieces.foldl (capturePiece outSize) out =
      out ++ pieces.flatten.take ((outSize - 1).toNat - out.length) := by
  induction pieces generalizing out with
  | nil => rw [List.flatten_nil, List.take_nil, List.append_nil]; rfl
  | cons tmp pieces ih =>
    rw [List.foldl_cons, ih, capturePiece_eq, List.append_assoc, List.flatten_cons,
      List.take_append, List.length_append, List.length_take]
    have hlen : (outSize - 1).toNat - (out.length +
          min ((outSize - 1).toNat - out.length) tmp.length) =
        (outSize - 1).toNat - out.length - tmp.length := by
      omega
    rw [hlen]

theorem runChildCapture_eq_ok {calls : ChildCalls} {outSize : ℤ} {out : List Byte}
    (h : runChildCapture calls outSize = .ok out) :
    out = calls.pieces.flatten.take (outSize - 1).toNat := by
  unfold runChildCapture at h
  split_ifs at h
  revert h
  dsimp only
  split
  · exact nofun
  · exact nofun
  · split_ifs
    · exact nofun
    · intro h
      rw [← Except.ok.inj h, foldl_capturePiece]
      rfl

/-! ### What the checks see -/

/-- The token occurs in the text as a word, or, when it ends in `=`, as the beginning of
one. -/
def Occurs (s token : List Byte) : Prop :=
  token = [] ∨ ∃ before after, s = before ++ token ++ after ∧
    (before = [] ∨ before.getLast?.any tokenBoundary = true) ∧
    (after = [] ∨ after.head?.any tokenBoundary = true ∨ token.getLast? = some 61)

theorem tokenMatchAt_iff {before rest token : List Byte} (htoken : token ≠ []) :
    tokenMatchAt (before ++ rest) before.length token = true ↔
      (before = [] ∨ before.getLast?.any tokenBoundary = true) ∧ ∃ after, rest = token ++ after ∧
        (after = [] ∨ after.head?.any tokenBoundary = true ∨ token.getLast? = some 61) := by
  have hlast : before ≠ [] → (before ++ rest)[before.length - 1]? = before.getLast? := fun hne => by
    have := List.length_pos_iff.2 hne
    rw [List.getElem?_append_left (by omega), List.getLast?_eq_getElem?]
  have hstart : (before.length ≠ 0 ∧
      ¬(before ++ rest)[before.length - 1]?.any tokenBoundary = true) ↔
        ¬(before = [] ∨ before.getLast?.any tokenBoundary = true) := by
    rw [not_or, ne_eq, List.length_eq_zero_iff]
    refine and_congr_right fun hne => ?_
    rw [hlast hne]
  unfold tokenMatchAt
  by_cases hbefore : before = [] ∨ before.getLast?.any tokenBoundary = true
  · rw [if_neg fun h => hstart.1 h hbefore, and_iff_right hbefore, List.drop_left]
    by_cases hstarts : rest.take token.length = token
    · obtain ⟨after, rfl⟩ : ∃ after, rest = token ++ after :=
        ⟨rest.drop token.length,
          (List.take_append_drop token.length rest).symm.trans (by rw [hstarts])⟩
      have hend : before.length + token.length = (before ++ (token ++ after)).length ↔
          after = [] := by
        rw [← List.length_eq_zero_iff, List.length_append, List.length_append]
        omega
      have hnext : (before ++ (token ++ after))[before.length + token.length]? = after.head? := by
        rw [← List.append_assoc, ← List.length_append, List.getElem?_append_right (Nat.le_refl _),
          Nat.sub_self, List.head?_eq_getElem?]
      have hafter : (∃ after', token ++ after = token ++ after' ∧ (after' = [] ∨
            after'.head?.any tokenBoundary = true ∨ token.getLast? = some 61)) ↔
          (after = [] ∨ after.head?.any tokenBoundary = true) ∨ token.getLast? = some 61 := by
        rw [or_assoc]
        constructor
        · rintro ⟨after', heq, h⟩
          rwa [List.append_cancel_left heq]
        · exact fun h => ⟨after, rfl, h⟩
      have hover := or_congr hend (b := (before ++ (token ++ after))[
          before.length + token.length]?.any tokenBoundary = true) (by rw [hnext])
      rw [if_neg (not_not.2 hstarts), hafter]
      by_cases hboundary : after = [] ∨ after.head?.any tokenBoundary = true
      · rw [if_pos (hover.2 hboundary)]
        exact ⟨fun _ => .inl hboundary, fun _ => rfl⟩
      · rw [if_neg (mt hover.1 hboundary), or_iff_right hboundary, Bool.and_eq_true,
          decide_eq_true_iff, beq_iff_eq]
        exact and_iff_right (List.length_pos_iff.2 htoken)
    · rw [if_pos hstarts]
      refine ⟨nofun, ?_⟩
      rintro ⟨after, rfl, -⟩
      exact absurd List.take_left hstarts
  · rw [if_pos (hstart.2 hbefore)]
    exact ⟨nofun, fun h => absurd h.1 hbefore⟩

/-- **`output_has_token` finds the tokens that occur.** -/
theorem outputHasToken_iff {s token : List Byte} :
    outputHasToken s token = true ↔ Occurs s token := by
  unfold outputHasToken Occurs
  by_cases htoken : token = []
  · rw [if_pos (by rw [htoken]; rfl)]
    exact ⟨fun _ => .inl htoken, fun _ => rfl⟩
  rw [if_neg (mt List.length_eq_zero_iff.1 htoken), or_iff_right htoken]
  constructor
  · intro h
    split_ifs at h with hlen
    obtain ⟨p, hp, hmatch⟩ := List.any_eq_true.1 h
    have hle : p ≤ s.length := by
      have := List.mem_range.1 hp
      omega
    obtain ⟨before, rest, rfl, rfl⟩ : ∃ before rest, s = before ++ rest ∧ before.length = p :=
      ⟨s.take p, s.drop p, (List.take_append_drop p s).symm, List.length_take_of_le hle⟩
    obtain ⟨hbefore, after, rfl, hafter⟩ := (tokenMatchAt_iff htoken).1 hmatch
    exact ⟨before, after, (List.append_assoc ..).symm, hbefore, hafter⟩
  · rintro ⟨before, after, rfl, hbefore, hafter⟩
    rw [List.length_append, List.length_append, if_neg (by omega)]
    refine List.any_eq_true.2 ⟨before.length, List.mem_range.2 (by omega), ?_⟩
    rw [List.append_assoc]
    exact (tokenMatchAt_iff htoken).2 ⟨hbefore, after, rfl, hafter⟩

/-- The first line has the tokens, or the loop goes on after its newline. -/
theorem lineLoop_iff_first {anchor token s text tail : List Byte} (hne : s ≠ [])
    (htext : s.takeWhile (· ≠ 10) = text) (htail : s.dropWhile (· ≠ 10) = tail) :
    lineLoop anchor token s = true ↔ (Occurs text anchor ∧ Occurs text token) ∨
      ∃ c rest, tail = c :: rest ∧ lineLoop anchor token rest = true := by
  have hhas : (outputHasToken text anchor && outputHasToken text token) = true ↔
      Occurs text anchor ∧ Occurs text token := by
    rw [Bool.and_eq_true, outputHasToken_iff, outputHasToken_iff]
  obtain ⟨c, s, rfl⟩ := List.exists_cons_of_ne_nil hne
  rw [lineLoop, htext, ← hhas]
  split
  · rename_i h
    exact ⟨fun _ => .inl h, fun _ => rfl⟩
  · rename_i h
    rw [or_iff_right h]
    split
    · rename_i hd
      refine ⟨nofun, ?_⟩
      rintro ⟨c, rest, hcons, -⟩
      exact absurd ((htail.symm.trans hd).symm.trans hcons) nofun
    · rename_i c' rest hd
      constructor
      · exact fun h => ⟨c', rest, htail.symm.trans hd, h⟩
      · rintro ⟨c, rest', hcons, h⟩
        obtain ⟨-, rfl⟩ := List.cons.inj ((htail.symm.trans hd).symm.trans hcons)
        exact h

/-- **`output_line_has_token` goes along the lines.** -/
theorem lineLoop_iff {anchor token s : List Byte} :
    lineLoop anchor token s = true ↔
      ∃ line ∈ lines 10 s, Occurs line anchor ∧ Occurs line token := by
  induction s using line_induction (10 : Byte) with
  | last s hs =>
    rw [lines_of_notMem hs]
    by_cases hne : s = []
    · subst hne
      rw [lineLoop, if_pos rfl]
      exact ⟨nofun, nofun⟩
    · have hkeep : ∀ c ∈ s, decide (c ≠ 10) = true := fun _ hc =>
        decide_eq_true (ne_of_mem_of_not_mem hc hs)
      rw [lineLoop_iff_first hne (List.takeWhile_eq_self_iff.2 hkeep)
        (List.dropWhile_eq_nil_iff.2 hkeep), if_neg hne]
      constructor
      · rintro (h | ⟨c, rest, hcons, -⟩)
        · exact ⟨s, List.mem_singleton_self s, h⟩
        · exact absurd hcons nofun
      · rintro ⟨line, hline, h⟩
        rw [List.mem_singleton.1 hline] at h
        exact .inl h
  | line text rest htext ih =>
    have hkeep : ∀ c ∈ text, decide (c ≠ 10) = true := fun _ hc =>
      decide_eq_true (ne_of_mem_of_not_mem hc htext)
    have htake : (text ++ 10 :: rest).takeWhile (· ≠ 10) = text := by
      rw [List.takeWhile_append_of_pos hkeep]
      exact List.append_nil text
    have hdrop : (text ++ 10 :: rest).dropWhile (· ≠ 10) = 10 :: rest := by
      rw [List.dropWhile_append_of_pos hkeep]
      rfl
    rw [lineLoop_iff_first (List.append_ne_nil_of_right_ne_nil text (List.cons_ne_nil 10 rest))
      htake hdrop, lines_line htext]
    constructor
    · rintro (h | ⟨c, rest', hcons, h⟩)
      · exact ⟨text, List.mem_cons_self, h⟩
      · obtain ⟨-, rfl⟩ := List.cons.inj hcons
        obtain ⟨line, hline, h⟩ := ih.1 h
        exact ⟨line, List.mem_cons_of_mem text hline, h⟩
    · rintro ⟨line, hline, h⟩
      rcases List.mem_cons.1 hline with rfl | hline
      · exact .inl h
      · exact .inr ⟨10, rest, rfl, ih.2 ⟨line, hline, h⟩⟩

/-! ### What a passed check says -/

/-- The string in `out` is the whole output, and the tokens that are rejected in it are absent
from the output and from its lines. -/
def Complete (out output : List Byte) : Prop :=
  cstring out = output ∧
    (∀ token, rejectOutputToken out token = true → ¬Occurs output token) ∧
    ∀ anchor token, rejectOutputLineToken out anchor token = true →
      ¬∃ line ∈ lines 10 output, Occurs line anchor ∧ Occurs line token

/-- What is rejected in the whole output is absent. -/
theorem complete_iff {out output : List Byte} : Complete out output ↔ cstring out = output := by
  refine ⟨fun h => h.1, fun h => ⟨h, fun token hreject hoccurs => ?_, fun anchor token hreject
    hoccurs => ?_⟩⟩
  · rw [rejectOutputToken, outputContainsToken, h, outputHasToken_iff.2 hoccurs] at hreject
    exact absurd hreject nofun
  · rw [rejectOutputLineToken, outputLineHasToken, h, lineLoop_iff.2 hoccurs] at hreject
    exact absurd hreject nofun

/-- **Exactly the outputs that are captured**: those that fit the buffer with a NUL after them
and have no NUL in them. -/
theorem runChildCapture_complete_iff (calls : ChildCalls) (outSize : ℤ)
    {out output : List Byte} (hsize : 0 < outSize) (hdelivers : calls.Delivers output)
    (hrun : runChildCapture calls outSize = .ok out) :
    Complete out output ↔ (output.length : ℤ) < outSize ∧ 0 ∉ output := by
  rw [complete_iff, runChildCapture_eq_ok hrun, hdelivers.1, cstring]
  constructor
  · intro h
    have hle := (List.takeWhile_prefix (l := output.take (outSize - 1).toNat) (· ≠ 0)).length_le
    rw [h, List.length_take] at hle
    refine ⟨by omega, fun hmem => ?_⟩
    rw [← h] at hmem
    have hne := List.mem_takeWhile_imp hmem
    exact absurd rfl (of_decide_eq_true hne)
  · rintro ⟨hfits, hnul⟩
    rw [List.take_of_length_le (by omega)]
    exact List.takeWhile_eq_self_iff.2 fun _ hc => decide_eq_true (ne_of_mem_of_not_mem hc hnul)

/-- `ok=1` in two pieces, with a buffer of eight bytes. -/
theorem runChildCapture_complete_small :
    Complete [111, 107, 61, 49] [111, 107, 61, 49] :=
  (runChildCapture_complete_iff
    ⟨0, 7, [[111, 107, 61], [49]], false, [(5, some 1), (7, some 0)]⟩ 8 (by decide)
      ⟨rfl, by decide⟩ rfl).2
    ⟨by decide, by decide⟩

/-- Spaces that fill the buffer, and then `x=1`. -/
theorem reject_passes_overflow : ∃ (calls : ChildCalls) (output out : List Byte),
    calls.Delivers output ∧ runChildCapture calls 32768 = .ok out ∧
      rejectOutputToken out [120, 61, 49] = true ∧ Occurs output [120, 61, 49] := by
  have hflat : (List.replicate 128 (List.replicate 256 (32 : Byte)) ++ [[120, 61, 49]]).flatten =
      List.replicate 32768 32 ++ [120, 61, 49] := by
    rw [List.flatten_append, List.flatten_replicate_replicate]
    rfl
  refine ⟨⟨0, 7, List.replicate 128 (List.replicate 256 32) ++ [[120, 61, 49]], false,
    [(7, some 0)]⟩, List.replicate 32768 32 ++ [120, 61, 49], List.replicate 32767 32,
    ⟨hflat, fun piece h => ?_⟩, ?_, ?_,
    .inr ⟨List.replicate 32768 32, [], (List.append_nil _).symm, .inr ?_, .inl rfl⟩⟩
  · rcases List.mem_append.1 h with h | h
    · rw [List.eq_of_mem_replicate h]
      exact ⟨List.cons_ne_nil _ _, by rw [List.length_replicate]⟩
    · rw [List.mem_singleton.1 h]
      decide
  · have hfold := foldl_capturePiece 32768 []
      (List.replicate 128 (List.replicate 256 (32 : Byte)) ++ [[120, 61, 49]])
    rw [hflat, List.take_append_of_le_length (by rw [List.length_replicate]; decide),
      List.take_replicate, List.nil_append] at hfold
    unfold runChildCapture
    rw [hfold]
    rfl
  · have hcstring : cstring (List.replicate 32767 32) = List.replicate 32767 32 :=
      List.takeWhile_eq_self_iff.2 fun c hc => by rw [List.eq_of_mem_replicate hc]; rfl
    rw [rejectOutputToken, outputContainsToken, hcstring, Bool.not_eq_true', ← Bool.not_eq_true,
      outputHasToken_iff]
    rintro (h | ⟨before, after, h, -⟩)
    · exact absurd h (List.cons_ne_nil _ _)
    · have hmem : (120 : Byte) ∈ List.replicate 32767 (32 : Byte) := by
        rw [h]
        exact List.mem_append_left _ (List.mem_append_right _ List.mem_cons_self)
      exact absurd (List.eq_of_mem_replicate hmem) (by decide)
  · rw [List.getLast?_replicate, if_neg (by decide)]
    rfl

end Tools
end V6User
