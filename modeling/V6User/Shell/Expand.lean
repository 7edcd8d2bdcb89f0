import V6User.Shell.Env

/-!
# Expanding `$` references

`programs/sh/sh.c`: `itoa_local` and `expand_env_vars`.

The expander copies a line into a buffer of 2047 bytes and replaces `$VAR`,
`${VAR}`, `$$` and `$?` on the way.  Its notion of quoting is one line long: a
single quote starts a region that is copied as it is, up to the next single
quote.  The buffer is the only limit: from the first byte on that the buffer has
no room for, the line is not read.

`expandLoop` also records what becomes of each byte of the line (`Fate`), which
is not visible in the text it returns.  `layout` is what the expander would do
without the limit; a `$` reference of the line is replaced exactly when the
complete expansion of what stands before it is shorter than the buffer and an
even number of the expander's quote marks precede it (`replaced_iff`).
-/

namespace V6User
namespace Shell

/-- `sizeof(expand_buf) - 1`: the bytes `expand_buf` has room for. -/
def expandMax : ℕ := 2047

/-- `'$'`. -/
abbrev dollar : Byte := 36

/-- `'{'`. -/
abbrev lbrace : Byte := 123

/-- `'}'`. -/
abbrev rbrace : Byte := 125

/-- `while (val && i < 15) tmp[i++] = '0' + val % 10, val /= 10`. -/
def itoaDigits : ℕ → ℕ → List Byte
  | 0, _ => []
  | room + 1, val =>
    if val = 0 then [] else UInt8.ofNat (48 + val % 10) :: itoaDigits room (val / 10)

/-- `itoa_local(val, buf, bufsz)` for a value that is not negative: what it
leaves in `buf`. -/
def itoaLocal (val bufsz : ℕ) : List Byte :=
  if bufsz < 2 then []
  else if val = 0 then [48]
  else ((itoaDigits 15 val).take (bufsz - 1)).reverse

/-- A reference, by what follows its `$`. -/
inductive Ref where
  | braced (name : List Byte) (closed : Bool)
  | pid
  | status
  | named (name : List Byte)
  deriving DecidableEq, Repr

/-- The reference a `$` starts, if `p` is what follows it. -/
def refAfter : List Byte → Option Ref
  | [] => none
  | c :: p =>
    if c = lbrace then some (.braced (p.takeWhile (· != rbrace)) (p.contains rbrace))
    else if c = dollar then some .pid
    else if c = 63 then some .status
    else if envNameStart c then some (.named ((c :: p).takeWhile envNameChar))
    else none

/-- How many bytes after the `$` belong to the reference. -/
def Ref.len : Ref → ℕ
  | .braced name closed => 1 + name.length + if closed then 1 else 0
  | .pid => 1
  | .status => 1
  | .named name => name.length

/-- The text a reference stands for: `$?` is not tracked and gives `0`, and a
name that is not set gives nothing. -/
def Ref.value (env : Env) (pid : ℕ) : Ref → List Byte
  | .braced name _ => ((envGet env (name.take (maxEnvName - 1))).map CStr.bytes).getD []
  | .pid => itoaLocal pid 16
  | .status => [48]
  | .named name => ((envGet env (name.take (maxEnvName - 1))).map CStr.bytes).getD []

/-- What becomes of a byte of the line: copied, copied inside the expander's
quotes (their closing mark included), or replaced as a part of a reference. -/
inductive Fate where
  | copied
  | quoted
  | replaced
  deriving DecidableEq, Repr

/-- What `expand_env_vars` leaves: the text in `expand_buf`, `expand_truncated`,
and the fate of each byte that was read. -/
structure Expansion where
  out : List Byte
  truncated : Bool
  fates : List Fate
  deriving DecidableEq, Repr

/-- An expansion of what follows a byte of this fate. -/
def Expansion.after (x : Expansion) (f : Fate) : Expansion := { x with fates := f :: x.fates }

@[simp] theorem Expansion.fates_after_zero (x : Expansion) (f : Fate) :
    (x.after f).fates[0]? = some f := rfl

@[simp] theorem Expansion.fates_after_succ (x : Expansion) (f : Fate) (i : ℕ) :
    (x.after f).fates[i + 1]? = x.fates[i]? := rfl

/-- `while (*val && out < out_end) *out++ = *val++`. -/
def emit (out val : List Byte) : List Byte := out ++ val.take (expandMax - out.length)

/-- The loop of `expand_env_vars` at the bytes `p`, with `out` in the buffer:
`quoted` says whether its inner loop for a quoted region is running, and `skip`
is how many bytes a reference that was replaced has moved `p` ahead. -/
def expandLoop (env : Env) (pid : ℕ) : Bool → ℕ → List Byte → List Byte → Expansion
  | _, _, [], out => ⟨out, false, []⟩
  | quoted, skip + 1, _ :: p, out => (expandLoop env pid quoted skip p out).after .replaced
  | quoted, 0, c :: p, out =>
    if expandMax ≤ out.length then ⟨out, true, []⟩
    else if quoted then (expandLoop env pid (c != squote) 0 p (out ++ [c])).after .quoted
    else if c = squote then (expandLoop env pid true 0 p (out ++ [c])).after .copied
    else if c = dollar then
      match refAfter p with
      | some r => (expandLoop env pid false r.len p (emit out (r.value env pid))).after .replaced
      | none => (expandLoop env pid false 0 p (out ++ [c])).after .copied
    else (expandLoop env pid false 0 p (out ++ [c])).after .copied

/-- `expand_env_vars(input)`. -/
def expandEnvVars (env : Env) (pid : ℕ) (input : CStr) : Expansion :=
  expandLoop env pid false 0 input.bytes []

/-! ### The text that is expanded -/

theorem nul_notMem_itoaLocal (val bufsz : ℕ) : (0 : Byte) ∉ itoaLocal val bufsz := by
  have hdigits : ∀ room val, (0 : Byte) ∉ itoaDigits room val := by
    intro room
    induction room with
    | zero => simp [itoaDigits]
    | succ room ih =>
      intro val
      rw [itoaDigits]
      split_ifs
      · simp
      · have hne : (0 : Byte) ≠ UInt8.ofNat (48 + val % 10) := by
          intro h
          have := congrArg UInt8.toNat h
          rw [UInt8.toNat_ofNat_of_lt' (by simp only [UInt8.size]; omega)] at this
          have h0 : (0 : UInt8).toNat = 0 := rfl
          omega
        rw [List.mem_cons, not_or]
        exact ⟨hne, ih _⟩
  rw [itoaLocal]
  split_ifs
  · simp
  · decide
  · intro h
    exact hdigits _ _ (List.mem_of_mem_take (List.mem_reverse.1 h))

theorem nul_notMem_value (env : Env) (pid : ℕ) (r : Ref) : (0 : Byte) ∉ r.value env pid := by
  have hget : ∀ name, (0 : Byte) ∉ ((envGet env name).map CStr.bytes).getD [] := by
    intro name
    cases envGet env name with
    | none => simp
    | some v => exact v.nul_free
  cases r with
  | braced name closed => exact hget _
  | pid => exact nul_notMem_itoaLocal _ _
  | status => simp [Ref.value]
  | named name => exact hget _

/-- What the expander leaves is a string. -/
theorem nul_notMem_expandLoop (env : Env) (pid : ℕ) (q : Bool) (k : ℕ) (p out : List Byte)
    (hp : (0 : Byte) ∉ p) (hout : (0 : Byte) ∉ out) :
    (0 : Byte) ∉ (expandLoop env pid q k p out).out := by
  have hval : ∀ (out : List Byte) (r : Ref), (0 : Byte) ∉ out →
      (0 : Byte) ∉ emit out (r.value env pid) := by
    intro out r hout h
    rcases List.mem_append.1 h with h | h
    · exact hout h
    · exact nul_notMem_value env pid r (List.mem_of_mem_take h)
  fun_induction expandLoop env pid q k p out <;> simp_all [Expansion.after]

/-- The expanded line, as `parsecmd` reads it. -/
def expanded (env : Env) (pid : ℕ) (input : CStr) : CStr :=
  ⟨(expandEnvVars env pid input).out,
    nul_notMem_expandLoop env pid false 0 input.bytes [] input.nul_free (by simp)⟩

/-! ### What the expander does without the limit -/

/-- What the expander makes of one byte of the line: whether it is one of its
quote marks, and the size of the complete expansion of what stands before it, or
before the reference it is a part of. -/
structure Place where
  mark : Bool
  size : ℕ
  deriving DecidableEq, Repr

/-- The places of the bytes `p`, when the expansion so far has `n` bytes and a
reference that reaches into `p` started at `b`. -/
def layout (env : Env) (pid : ℕ) : Bool → ℕ → List Byte → ℕ → ℕ → List Place
  | _, _, [], _, _ => []
  | quoted, skip + 1, _ :: p, n, b => ⟨false, b⟩ :: layout env pid quoted skip p n b
  | quoted, 0, c :: p, n, _ =>
    if quoted then ⟨c == squote, n⟩ :: layout env pid (c != squote) 0 p (n + 1) n
    else if c = squote then ⟨true, n⟩ :: layout env pid true 0 p (n + 1) n
    else if c = dollar then
      match refAfter p with
      | some r => ⟨false, n⟩ :: layout env pid false r.len p (n + (r.value env pid).length) n
      | none => ⟨false, n⟩ :: layout env pid false 0 p (n + 1) n
    else ⟨false, n⟩ :: layout env pid false 0 p (n + 1) n

theorem length_layout (env : Env) (pid : ℕ) (q : Bool) (k : ℕ) (p : List Byte) (n b : ℕ) :
    (layout env pid q k p n b).length = p.length := by
  fun_induction layout env pid q k p n b <;> simp_all

/-- The expansion of what stands before a byte only grows along the line. -/
theorem le_size_layout (env : Env) (pid : ℕ) (q : Bool) (k : ℕ) (p : List Byte) (n b : ℕ) {a : ℕ}
    (hn : a ≤ n) (hb : k ≠ 0 → a ≤ b) : ∀ x ∈ layout env pid q k p n b, a ≤ x.size := by
  fun_induction layout env pid q k p n b with
  | case1 => simp
  | case2 _ _ _ _ _ _ ih =>
    have hb := hb (Nat.succ_ne_zero _)
    exact List.forall_mem_cons.2 ⟨hb, ih hn fun _ => hb⟩
  | case3 _ _ _ _ ih => exact List.forall_mem_cons.2 ⟨hn, ih (by omega) fun _ => hn⟩
  | case4 _ _ _ _ _ ih => exact List.forall_mem_cons.2 ⟨hn, ih (by omega) fun _ => hn⟩
  | case5 _ _ _ _ _ _ _ _ ih => exact List.forall_mem_cons.2 ⟨hn, ih (by omega) fun _ => hn⟩
  | case6 _ _ _ _ _ _ _ ih => exact List.forall_mem_cons.2 ⟨hn, ih (by omega) fun _ => hn⟩
  | case7 _ _ _ _ _ _ _ _ ih => exact List.forall_mem_cons.2 ⟨hn, ih (by omega) fun _ => hn⟩

/-- The size at a byte of the line. -/
def sizeAt (ps : List Place) (i : ℕ) : ℕ := (ps[i]?.map Place.size).getD 0

/-- The quote marks of the expander before a byte. -/
def marksBefore (ps : List Place) (i : ℕ) : ℕ := (ps.take i).countP Place.mark

@[simp] theorem sizeAt_zero (x : Place) (ps : List Place) : sizeAt (x :: ps) 0 = x.size := rfl

@[simp] theorem sizeAt_succ (x : Place) (ps : List Place) (i : ℕ) :
    sizeAt (x :: ps) (i + 1) = sizeAt ps i := rfl

@[simp] theorem marksBefore_zero (ps : List Place) : marksBefore ps 0 = 0 := rfl

@[simp] theorem marksBefore_succ (x : Place) (ps : List Place) (i : ℕ) :
    marksBefore (x :: ps) (i + 1) = marksBefore ps i + if x.mark then 1 else 0 := by
  rw [marksBefore, marksBefore, List.take_succ_cons, List.countP_cons]

/-- A `$` of the line that starts a reference, by what follows it. -/
def IsReference (text : List Byte) (i : ℕ) : Prop :=
  text[i]? = some dollar ∧ (refAfter (text.drop (i + 1))).isSome

theorem isReference_zero {c : Byte} {p : List Byte} :
    IsReference (c :: p) 0 ↔ c = dollar ∧ (refAfter p).isSome := by
  simp [IsReference]

theorem isReference_succ {c : Byte} {p : List Byte} {i : ℕ} :
    IsReference (c :: p) (i + 1) ↔ IsReference p i := by
  simp [IsReference]

theorem length_emit {out val : List Byte} {n : ℕ} (h : out.length = min n expandMax) :
    (emit out val).length = min (n + val.length) expandMax := by
  rw [emit, List.length_append, List.length_take, h]
  omega

/-- **When a reference is replaced**, from any point of the loop on: with the
complete expansion so far `n` bytes long, the buffer holds as much of it as it
has room for. -/
theorem replaced_iff_aux (env : Env) (pid : ℕ) (q : Bool) (k : ℕ) (p out : List Byte) (n b : ℕ)
    (hout : out.length = min n expandMax) (hk : k ≠ 0 → q = false ∧ b < expandMax) (i : ℕ)
    (hi : IsReference p i) :
    (expandLoop env pid q k p out).fates[i]? = some .replaced ↔
      sizeAt (layout env pid q k p n b) i < expandMax ∧
        (q = true ↔ marksBefore (layout env pid q k p n b) i % 2 = 1) := by
  fun_induction expandLoop env pid q k p out generalizing n b i with
  | case1 => simp [IsReference] at hi
  | case2 quoted skip c p out ih =>
    obtain ⟨rfl, hb⟩ := hk (Nat.succ_ne_zero _)
    rw [layout]
    cases i with
    | zero => simpa using hb
    | succ i =>
      rw [isReference_succ] at hi
      simpa using ih n b hout (fun _ => ⟨rfl, hb⟩) i hi
  | case3 quoted c p out hmax =>
    -- the buffer is full: nothing from here on is read
    have hlen : i < (layout env pid quoted 0 (c :: p) n b).length := by
      rw [length_layout]
      exact (List.getElem?_eq_some_iff.1 hi.1).1
    have hsize : expandMax ≤ sizeAt (layout env pid quoted 0 (c :: p) n b) i := by
      rw [sizeAt, List.getElem?_eq_getElem hlen]
      exact le_size_layout env pid quoted 0 (c :: p) n b (by omega) (by simp) _
        (List.getElem_mem hlen)
    simp only [List.getElem?_nil, reduceCtorEq, false_iff, not_and]
    omega
  | case4 c p out hmax ih =>
    have hlen : (out ++ [c]).length = min (n + 1) expandMax := by
      rw [List.length_append, List.length_singleton]
      omega
    rw [layout, if_pos rfl]
    cases i with
    | zero => simp
    | succ i =>
      rw [isReference_succ] at hi
      rw [Expansion.fates_after_succ, sizeAt_succ, marksBefore_succ,
        ih (n + 1) n hlen (by simp) i hi]
      -- a quote mark ends the region, so that the next one starts one
      by_cases hc : c = squote
      · simp only [hc, bne_self_eq_false, beq_self_eq_true, if_true, Bool.false_eq_true,
          false_iff, true_iff]
        omega
      · simp only [bne_iff_ne.2 hc, beq_eq_false_iff_ne.2 hc, Bool.false_eq_true, if_false,
          Nat.add_zero, true_iff]
  | case5 quoted p out hmax hq ih =>
    have hlen : (out ++ [squote]).length = min (n + 1) expandMax := by
      rw [List.length_append, List.length_singleton]
      omega
    rw [layout, if_neg hq, if_pos rfl]
    cases i with
    | zero => exact absurd (isReference_zero.1 hi).1 (by decide)
    | succ i =>
      rw [isReference_succ] at hi
      rw [Expansion.fates_after_succ, sizeAt_succ, marksBefore_succ,
        ih (n + 1) n hlen (by simp) i hi]
      simp only [hq, Bool.false_eq_true, if_true, false_iff, true_iff]
      omega
  | case6 quoted p out hmax hq r hr hne ih =>
    have hn : n < expandMax := by omega
    rw [layout, if_neg hq, if_neg hne, if_pos rfl]
    simp only [hr]
    cases i with
    | zero => simp [hq, hn]
    | succ i =>
      rw [isReference_succ] at hi
      rw [Expansion.fates_after_succ, sizeAt_succ, marksBefore_succ,
        ih (n + (r.value env pid).length) n (length_emit hout) (fun _ => ⟨rfl, hn⟩) i hi]
      simp only [hq, Bool.false_eq_true, if_false, Nat.add_zero]
  | case7 quoted p out hmax hq hr hne ih =>
    have hlen : (out ++ [dollar]).length = min (n + 1) expandMax := by
      rw [List.length_append, List.length_singleton]
      omega
    rw [layout, if_neg hq, if_neg hne, if_pos rfl]
    simp only [hr]
    cases i with
    | zero => simp [isReference_zero, hr] at hi
    | succ i =>
      rw [isReference_succ] at hi
      rw [Expansion.fates_after_succ, sizeAt_succ, marksBefore_succ,
        ih (n + 1) n hlen (by simp) i hi]
      simp only [hq, Bool.false_eq_true, if_false, Nat.add_zero]
  | case8 quoted c p out hmax hq hs hd ih =>
    have hlen : (out ++ [c]).length = min (n + 1) expandMax := by
      rw [List.length_append, List.length_singleton]
      omega
    rw [layout, if_neg hq, if_neg hs, if_neg hd]
    cases i with
    | zero => exact absurd (isReference_zero.1 hi).1 hd
    | succ i =>
      rw [isReference_succ] at hi
      rw [Expansion.fates_after_succ, sizeAt_succ, marksBefore_succ,
        ih (n + 1) n hlen (by simp) i hi]
      simp only [hq, Bool.false_eq_true, if_false, Nat.add_zero]

/-- The places of a line. -/
def places (env : Env) (pid : ℕ) (line : List Byte) : List Place := layout env pid false 0 line 0 0

/-- **When a reference is replaced**: the complete expansion of what stands
before it fits into the buffer with room to spare, and an even number of the
expander's quote marks stand before it. -/
theorem replaced_iff (env : Env) (pid : ℕ) (line : CStr) (i : ℕ) (hi : IsReference line.bytes i) :
    (expandEnvVars env pid line).fates[i]? = some .replaced ↔
      sizeAt (places env pid line.bytes) i < expandMax ∧
        marksBefore (places env pid line.bytes) i % 2 = 0 := by
  rw [expandEnvVars, replaced_iff_aux env pid false 0 line.bytes [] 0 0 rfl (by simp) i hi]
  simp only [Bool.false_eq_true, false_iff, Nat.mod_two_not_eq_one]
  rfl

end Shell
end V6User
