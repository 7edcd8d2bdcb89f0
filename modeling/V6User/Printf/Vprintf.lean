import V6User.Printf.Items

/-!
# `vprintf`

`lib/printf.c`: `puts_n` and `vprintf`.

Bytes that stand for themselves are gathered in a buffer, which is written out when it is
nearly full and before each directive.  Where `write` accepts everything, what is written
is what the format is rendered as, with nothing for `%n` (`vprintfLoop_eq`), unless the
format ends inside a directive: then the loop goes on behind the NUL
(`vprintfLoop_eq_none`).
-/

namespace V6User
namespace Printf

open Shell (Byte)
open CInt

/-- The loop of `puts_n(fd, s, n)`.  The bytes that were written so far are `out`, and
`write` answers to them and to a count with what it returns. -/
def putsN (write : List Byte → ℤ → ℤ) (s : List Byte) (n idx : ℕ) (out : List Byte) : List Byte :=
  if idx < n then
    let ret := write out (int32 (n - idx))
    if ret ≤ 0 then out
    else putsN write s n (idx + ret.toNat) (out ++ (s.drop idx).take ret.toNat)
  else out
termination_by n - idx
decreasing_by omega

/-- `puts_n(fd, s, n)` for an `int`, which becomes a `size_t`. -/
def putsInt (write : List Byte → ℤ → ℤ) (s : List Byte) (n : ℤ) (out : List Byte) : List Byte :=
  putsN write s (n % 2 ^ 64).toNat 0 out

/-- `for (int p = 0; p < padlen; p++) puts_n(fd, &c, 1)`. -/
def putsPad (write : List Byte → ℤ → ℤ) (c : Byte) (padlen : ℕ) (out : List Byte) : List Byte :=
  (putsN write [c] 1 0)^[padlen] out

/-- What `vprintf` does for `%p`, `%s`, `%c` and for numbers that are not filled with
zeros. -/
def putsPadded (write : List Byte → ℤ → ℤ) (left : Bool) (padlen : ℕ) (s : List Byte) (n : ℤ)
    (out : List Byte) : List Byte :=
  let out := if !left then putsPad write 32 padlen out else out
  let out := putsInt write s n out
  if left then putsPad write 32 padlen out else out

/-- What `vprintf` does at `print_number`. -/
def printNumber (write : List Byte → ℤ → ℤ) (spec : Spec) (numbuf out : List Byte) : List Byte :=
  let padlen := padLen spec.width numbuf.length
  if spec.flags.zero && !spec.flags.left && decide (0 < numbuf.length) then
    let prefixlen := prefixLen numbuf
    let out := putsN write numbuf prefixlen 0 out
    let out := putsPad write 48 padlen out
    putsN write (numbuf.drop prefixlen) (numbuf.length - prefixlen) 0 out
  else putsPadded write spec.flags.left padlen numbuf numbuf.length out

/-- The `switch` of `vprintf`: what was written after it, what it puts into the buffer, and
the arguments that are left. -/
def vprintfConv (write : List Byte → ℤ → ℤ) (text : BitVec 64 → List Byte) (spec : Spec) (c : Byte)
    (ap : VaList) (out : List Byte) : List Byte × List Byte × VaList :=
  let flags := spec.flags
  match c with
  | 100 => (printNumber write spec (formatInt (vaSigned spec.isLong ap) 10 true flags) out, [],
      ap.rest)
  | 105 => (printNumber write spec (formatInt (vaSigned spec.isLong ap) 10 true flags) out, [],
      ap.rest)
  | 117 => (printNumber write spec (formatInt (vaUnsigned spec.isLong ap) 10 false flags) out, [],
      ap.rest)
  | 120 =>
    let flags := { flags with upper := false }
    (printNumber write spec (formatInt (vaUnsigned spec.isLong ap) 16 false flags) out, [], ap.rest)
  | 88 =>
    let flags := { flags with upper := true }
    (printNumber write spec (formatInt (vaUnsigned spec.isLong ap) 16 false flags) out, [], ap.rest)
  | 111 => (printNumber write spec (formatInt (vaUnsigned spec.isLong ap) 8 false flags) out, [],
      ap.rest)
  | 112 =>
    let numbuf := formatPtr (ap 0)
    (putsPadded write flags.left (padLen spec.width numbuf.length) numbuf numbuf.length out, [],
      ap.rest)
  | 115 =>
    let s := stringArg text (ap 0)
    let slen := stringLen spec.precision s
    (putsPadded write flags.left (padLen spec.width slen) s slen out, [], ap.rest)
  | 99 =>
    (putsPadded write flags.left (padLen spec.width 1) [.ofBitVec ((ap 0).setWidth 8)] 1 out, [],
      ap.rest)
  | 37 => (out, [37], ap)
  | 110 => (out, [], ap)
  | c => (out, [37, c], ap)

/-- The buffer and what was written, after the buffer was written out if it is nearly
full. -/
def flushFull (write : List Byte → ℤ → ℤ) (buf out : List Byte) : List Byte × List Byte :=
  if 240 ≤ buf.length then ([], putsN write buf buf.length 0 out) else (buf, out)

/-- The loop of `vprintf`, with what is in the buffer and what was written: what is written
in the end, or `none` where a byte behind the NUL of the format is read. -/
def vprintfLoop (write : List Byte → ℤ → ℤ) (text : BitVec 64 → List Byte) (fmt : List Byte)
    (ap : VaList) (buf out : List Byte) : Option (List Byte) :=
  match fmt with
  | [] => some (putsN write buf buf.length 0 out)
  | c :: fmt =>
    let buf' := (flushFull write buf out).1
    let out' := (flushFull write buf out).2
    if c ≠ 37 then vprintfLoop write text fmt ap (buf' ++ [c]) out'
    else if fmt = [] then some (putsN write buf' buf'.length 0 out')
    else
      match _h : (parseSpec fmt ap).2.1 with
      -- the conversion character is the NUL, and the loop goes on with the byte after it
      | [] => none
      | c :: rest =>
        let r := vprintfConv write text (parseSpec fmt ap).1 c (parseSpec fmt ap).2.2
          (putsN write buf' buf'.length 0 out')
        vprintfLoop write text rest r.2.2 r.2.1 r.1
termination_by fmt.length
decreasing_by
  · exact Nat.lt_succ_self _
  · have := length_parseSpec fmt ap
    rw [_h, List.length_cons] at this
    exact Nat.lt_succ_of_lt this

/-- `vprintf(fd, fmt, ap)`. -/
def vprintf (write : List Byte → ℤ → ℤ) (text : BitVec 64 → List Byte) (fmt : Shell.CStr)
    (ap : VaList) : Option (List Byte) :=
  vprintfLoop write text fmt.bytes ap [] []

/-- `write` accepts everything: of a count that is positive it takes something, and it takes
nothing of any other. -/
structure Accepts (write : List Byte → ℤ → ℤ) : Prop where
  takes : ∀ out n, 0 < n → 0 < write out n ∧ write out n ≤ n
  refuses : ∀ out n, n ≤ 0 → write out n ≤ 0

section Output

variable {write : List Byte → ℤ → ℤ} {text : BitVec 64 → List Byte} {s out buf : List Byte}
  {n idx padlen : ℕ} {c : Byte} {spec : Spec} {ap : VaList} {fmt : List Byte}

theorem putsN_of_le (hn : n ≤ idx) : putsN write s n idx out = out := by
  rw [putsN, if_neg (Nat.not_lt.2 hn)]

/-- **`puts_n` writes its bytes.** -/
theorem putsN_eq (hw : Accepts write) (hn : n < 2 ^ 31) :
    putsN write s n idx out = out ++ (s.take n).drop idx := by
  induction hk : n - idx using Nat.strongRecOn generalizing idx out with
  | ind k ih =>
    by_cases hlt : idx < n
    · have hcount : int32 (n - idx) = n - idx := int32_of_range (by omega) (by omega)
      obtain ⟨hpos, hle⟩ := hw.takes out (n - idx) (by omega)
      rw [putsN, if_pos hlt, hcount]
      dsimp only
      rw [if_neg (Int.not_le.2 hpos), ih (n - (idx + (write out (n - idx)).toNat)) (by omega) rfl,
        List.append_assoc]
      congr 1
      have htake : (s.drop idx).take (write out (n - idx)).toNat =
          ((s.take n).drop idx).take (write out (n - idx)).toNat := by
        rw [List.drop_take, List.take_take, Nat.min_eq_left (by omega)]
      rw [htake, ← List.drop_drop, List.take_append_drop]
    · rw [putsN_of_le (Nat.not_lt.1 hlt), List.drop_of_length_le, List.append_nil]
      exact (List.length_take_le _ _).trans (Nat.not_lt.1 hlt)

theorem putsInt_eq (hw : Accepts write) {len : ℤ} (hlo : -2 ^ 31 ≤ len) (hhi : len < 2 ^ 31) :
    putsInt write s len out = out ++ s.take len.toNat := by
  rw [putsInt]
  by_cases hneg : len < 0
  · -- as a `size_t` it is too large, but its low bits are a count that is refused
    have hmod : (len % 2 ^ 64).toNat = (2 ^ 64 + len : ℤ).toNat := by omega
    have hcount : int32 ((len % 2 ^ 64).toNat - (0 : ℕ)) = len := by
      rw [int32, hmod, Int.toNat_of_nonneg (by omega), Int.bmod_def]
      split_ifs <;> omega
    rw [putsN, if_pos (by omega), hcount]
    dsimp only
    rw [if_pos (hw.refuses out len (by omega)), Int.toNat_of_nonpos (by omega), List.take_zero,
      List.append_nil]
  · have hmod : (len % 2 ^ 64).toNat = len.toNat := by omega
    rw [hmod, putsN_eq hw (by omega), List.drop_zero]

theorem putsPad_eq (hw : Accepts write) :
    putsPad write c padlen out = out ++ List.replicate padlen c := by
  rw [putsPad]
  induction padlen generalizing out with
  | zero => exact (List.append_nil out).symm
  | succ k ih =>
    rw [Function.iterate_succ_apply, ih, putsN_eq hw (by norm_num), List.append_assoc,
      List.replicate_succ]
    rfl

theorem putsPadded_eq (hw : Accepts write) {left : Bool} {len : ℤ} (hlo : -2 ^ 31 ≤ len)
    (hhi : len < 2 ^ 31) : putsPadded write left padlen s len out =
      out ++ padded left padlen (s.take len.toNat) := by
  rw [putsPadded, padded]
  cases left with
  | true =>
    simp only [Bool.not_true, Bool.false_eq_true, if_true, if_false]
    rw [putsPad_eq hw, putsInt_eq hw hlo hhi, List.append_assoc]
  | false =>
    simp only [Bool.not_false, Bool.false_eq_true, if_true, if_false]
    rw [putsPad_eq hw, putsInt_eq hw hlo hhi, List.append_assoc]

theorem prefixLen_le (numbuf : List Byte) : prefixLen numbuf ≤ numbuf.length := by
  unfold prefixLen
  split <;> simp

theorem printNumber_eq (hw : Accepts write) {numbuf : List Byte} (hlen : numbuf.length < 2 ^ 31) :
    printNumber write spec numbuf out = out ++ renderNumber spec numbuf := by
  have hle := prefixLen_le numbuf
  rw [printNumber, renderNumber]
  split_ifs
  · rw [putsN_eq hw (by omega), putsPad_eq hw, putsN_eq hw (by omega), List.drop_zero,
      List.drop_zero, List.append_assoc, List.append_assoc]
    rw [List.take_of_length_le (Nat.le_of_eq (List.length_drop ..)), List.append_assoc]
  · rw [putsPadded_eq hw (by omega) (by omega), Int.toNat_natCast, List.take_length]

theorem stringLen_bounds (precision : ℤ) (s : List Byte) :
    -2 ^ 31 ≤ stringLen precision s ∧ stringLen precision s < 2 ^ 31 := by
  obtain ⟨hlo, hhi⟩ := int32_bounds s.length
  rw [stringLen]
  split_ifs with hprec <;> omega

/-! ### The loop -/

/-- The `switch` writes what the directive is rendered as. -/
theorem vprintfConv_eq (text : BitVec 64 → List Byte) (spec : Spec) (c : Byte) (ap : VaList)
    (out : List Byte) (hw : Accepts write) :
    (vprintfConv write text spec c ap out).1 ++ (vprintfConv write text spec c ap out).2.1 =
        out ++ renderConv text [] spec c ap ∧
      (vprintfConv write text spec c ap out).2.2 = afterConv c ap := by
  have hnumber : ∀ val base isSigned flags, 8 ≤ base →
      printNumber write spec (formatInt val base isSigned flags) out ++ [] =
        out ++ renderNumber spec (formatInt val base isSigned flags) := by
    intro val base isSigned flags hbase
    have hlen := length_formatInt_lt val isSigned flags hbase
    rw [List.append_nil, printNumber_eq hw (by omega)]
  unfold vprintfConv
  split
  · exact ⟨hnumber _ _ _ _ (by norm_num), rfl⟩
  · exact ⟨hnumber _ _ _ _ (by norm_num), rfl⟩
  · exact ⟨hnumber _ _ _ _ (by norm_num), rfl⟩
  · exact ⟨hnumber _ _ _ _ (by norm_num), rfl⟩
  · exact ⟨hnumber _ _ _ _ (by norm_num), rfl⟩
  · exact ⟨hnumber _ _ _ _ (by norm_num), rfl⟩
  · have hlen : (formatPtr (ap 0)).length = 18 := by simp [formatPtr]
    dsimp only
    rw [putsPadded_eq hw (by omega) (by omega), Int.toNat_natCast, List.take_length]
    exact ⟨List.append_nil _, rfl⟩
  · obtain ⟨hlo, hhi⟩ := stringLen_bounds spec.precision (stringArg text (ap 0))
    exact ⟨(List.append_nil _).trans (putsPadded_eq hw hlo hhi), rfl⟩
  · exact ⟨(List.append_nil _).trans (putsPadded_eq hw (by norm_num) (by norm_num)), rfl⟩
  · exact ⟨rfl, rfl⟩
  · exact ⟨rfl, rfl⟩
  · have hrender : renderConv text [] spec c ap = [37, c] := by
      unfold renderConv
      split <;> first | rfl | contradiction
    constructor
    · exact congrArg (out ++ ·) hrender.symm
    · have hnone : takesArg c = false := by
        unfold takesArg
        split <;> first | rfl | contradiction
      rw [afterConv, hnone]
      rfl

theorem flushFull_eq (out : List Byte) (hw : Accepts write) (hbuf : buf.length ≤ 240) :
    (flushFull write buf out).2 ++ (flushFull write buf out).1 = out ++ buf ∧
      (flushFull write buf out).1.length < 240 := by
  rw [flushFull]
  split_ifs with hfull
  · rw [putsN_eq hw (by omega), List.drop_zero, List.take_length]
    exact ⟨List.append_nil _, Nat.zero_lt_succ _⟩
  · exact ⟨rfl, Nat.lt_of_not_le hfull⟩

/-- What is in the buffer is written out. -/
theorem putsN_flushFull (hw : Accepts write) (hbuf : buf.length ≤ 240) :
    putsN write (flushFull write buf out).1 (flushFull write buf out).1.length 0
      (flushFull write buf out).2 = out ++ buf := by
  obtain ⟨heq, hlen⟩ := flushFull_eq out hw hbuf
  rw [putsN_eq hw (by omega), List.drop_zero, List.take_length, heq]

theorem vprintfLoop_nil : vprintfLoop write text [] ap buf out =
    some (putsN write buf buf.length 0 out) := by
  rw [vprintfLoop]

theorem vprintfLoop_byte (h : c ≠ 37) : vprintfLoop write text (c :: fmt) ap buf out =
    vprintfLoop write text fmt ap ((flushFull write buf out).1 ++ [c])
      (flushFull write buf out).2 := by
  rw [vprintfLoop]
  exact if_pos h

theorem vprintfLoop_percent : vprintfLoop write text [37] ap buf out =
    some (putsN write (flushFull write buf out).1 (flushFull write buf out).1.length 0
      (flushFull write buf out).2) := by
  rw [vprintfLoop]
  dsimp only
  rw [if_neg (not_not.2 rfl), if_pos rfl]

theorem vprintfLoop_inside (hfmt : fmt ≠ []) (h : skipSpec fmt = []) :
    vprintfLoop write text (37 :: fmt) ap buf out = none := by
  rw [vprintfLoop]
  dsimp only
  rw [if_neg (not_not.2 rfl), if_neg hfmt]
  split
  · rfl
  · next heq => exact absurd ((h.symm.trans (skipSpec_eq ap).symm).trans heq) nofun

theorem vprintfLoop_directive {rest : List Byte} (h : skipSpec fmt = c :: rest) :
    vprintfLoop write text (37 :: fmt) ap buf out =
      let r := vprintfConv write text (parseSpec fmt ap).1 c (parseSpec fmt ap).2.2
        (putsN write (flushFull write buf out).1 (flushFull write buf out).1.length 0
          (flushFull write buf out).2)
      vprintfLoop write text rest r.2.2 r.2.1 r.1 := by
  have hfmt : fmt ≠ [] := by
    rintro rfl
    exact absurd h nofun
  rw [vprintfLoop]
  dsimp only
  rw [if_neg (not_not.2 rfl), if_neg hfmt]
  split
  · next heq => exact absurd (h.symm.trans ((skipSpec_eq ap).symm.trans heq)) nofun
  · next heq =>
    obtain ⟨rfl, rfl⟩ := List.cons.inj (heq.symm.trans ((skipSpec_eq ap).trans h))
    rfl

theorem length_vprintfConv_buf (write : List Byte → ℤ → ℤ) (text : BitVec 64 → List Byte)
    (spec : Spec) (c : Byte) (ap : VaList) (out : List Byte) :
    (vprintfConv write text spec c ap out).2.1.length ≤ 2 := by
  unfold vprintfConv
  split <;> simp

/-- **`vprintf` writes what the format is rendered as.** -/
theorem vprintfLoop_eq (hw : Accepts write) (hbuf : buf.length ≤ 240)
    (h : endsInside fmt = false) :
    vprintfLoop write text fmt ap buf out = some (out ++ buf ++ rendered text [] fmt ap) := by
  induction fmt using format_induction generalizing ap buf out with
  | nil =>
    rw [vprintfLoop_nil, putsN_eq hw (by omega), rendered, items_nil]
    simp
  | byte c fmt hc ih =>
    obtain ⟨heq, hlen⟩ := flushFull_eq out hw hbuf
    rw [endsInside_byte hc] at h
    rw [vprintfLoop_byte hc, ih _ h, ← List.append_assoc, heq, rendered, rendered, items_byte hc,
      List.flatMap_cons, List.append_assoc (out ++ buf)]
    · rfl
    · rw [List.length_append, List.length_singleton]
      omega
  | percent =>
    rw [vprintfLoop_percent, putsN_flushFull hw hbuf, rendered, items_inside skipSpec_nil]
    simp
  | inside fmt hfmt hs => 
    rw [endsInside_inside hfmt hs] at h
    exact absurd h nofun
  | directive fmt conv rest hs ih =>
    rw [endsInside_directive hs] at h
    rw [vprintfLoop_directive hs, putsN_flushFull hw hbuf]
    dsimp only
    obtain ⟨hout, hap⟩ := vprintfConv_eq text (parseSpec fmt ap).1 conv (parseSpec fmt ap).2.2
      (out ++ buf) hw
    have hlen := length_vprintfConv_buf write text (parseSpec fmt ap).1 conv
      (parseSpec fmt ap).2.2 (out ++ buf)
    rw [ih (by omega) h, hout, hap, rendered, rendered, items_directive hs, List.flatMap_cons,
      List.append_assoc, List.append_assoc, List.append_assoc]
    rfl

/-- **A format that ends inside a directive is read beyond its NUL.** -/
theorem vprintfLoop_eq_none (h : endsInside fmt = true) :
    vprintfLoop write text fmt ap buf out = none := by
  induction fmt using format_induction generalizing ap buf out with
  | nil => exact absurd h (by rw [endsInside_nil]; decide)
  | byte c fmt hc ih =>
    rw [endsInside_byte hc] at h
    rw [vprintfLoop_byte hc, ih h]
  | percent => exact absurd h (by rw [endsInside_percent]; decide)
  | inside fmt hfmt hs => exact vprintfLoop_inside hfmt hs
  | directive fmt conv rest hs ih =>
    rw [endsInside_directive hs] at h
    rw [vprintfLoop_directive hs]
    exact ih h

end Output

end Printf
end V6User
