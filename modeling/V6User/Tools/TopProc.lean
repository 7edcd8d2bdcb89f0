import V6User.Base.Lines
import V6User.Base.Splitter
import V6User.Tools.ParseNum

/-!
# What `top` reads from `/proc`

`programs/top/top.c`: `read_file_into`, `parse_u64_token`, `parse_decimal_x100`,
`parse_cpu_line`, `read_proc_uptime`, `read_proc_loadavg`, `read_proc_stat`,
`read_system_snapshot` and `parse_pid_stat`.

A file is read in pieces of the kernel's choice into a buffer that may be too short for it.  What
`top` takes from it is nevertheless what the whole file says: for `/proc/stat` if the lines of the
processors fit the buffer, which come first (`readSystemSnapshot_reads`), and for the `stat` of a
process if its first fields do, whatever blanks and parentheses are in its name
(`parsePidStat_reads`).
-/

namespace V6User
namespace Tools
namespace TopProc

open Numeral Lines Splitter

/-! ### Reading a file -/

/-- A file that was opened: its bytes, and how many of them each `read` is ready to give, or an
error. -/
structure ProcFile where
  text : List UInt8
  gives : ℕ → Option ℕ

/-- The loop of `read_file_into`, from `read` number `k` on, where there is room for so many bytes
and the file has these left. -/
def readLoop (f : ProcFile) (room k : ℕ) (rest : List UInt8) : List UInt8 :=
  if room = 0 then []
  else
    match f.gives k with
    | none => []
    | some c =>
      if rest = [] then []
      else
        let n := min (max c 1) room
        rest.take n ++ readLoop f (room - n) (k + 1) (rest.drop n)
termination_by room

/-- `read_file_into(path, buf, bufsz)`: what is in the buffer, or `none` for the result -1. -/
def readFileInto (file : Option ProcFile) (bufsz : ℕ) : Option (List UInt8) :=
  file.map fun f => readLoop f (bufsz - 1) 0 f.text

/-- The string in a buffer. -/
def str (buf : List UInt8) : List UInt8 := buf.takeWhile (· ≠ 0)

/-! ### Numbers -/

/-- The loop over the digits: the number, and what is left. -/
def accDigits (v : UInt64) : List UInt8 → UInt64 × List UInt8
  | [] => (v, [])
  | c :: s =>
    match decimalVal c with
    | some d => accDigits (v * 10 + .ofNat d) s
    | none => (v, c :: s)

/-- `parse_u64_token(s)`. -/
def parseU64Token (s : List UInt8) : UInt64 := (accDigits 0 s).1

/-- The loop over the digits of the fraction, of which so many may still be read: the fraction, and
how many were missing. -/
def fracLoop : ℕ → UInt64 → List UInt8 → UInt64 × ℕ
  | 0, frac, _ => (frac, 0)
  | left + 1, frac, [] => (frac, left + 1)
  | left + 1, frac, c :: s =>
    match decimalVal c with
    | some d => fracLoop left (frac * 10 + .ofNat d) s
    | none => (frac, left + 1)

/-- `while (frac_digits++ < 2) frac *= 10`. -/
def padFrac (frac : UInt64) : ℕ → UInt64
  | 0 => frac
  | left + 1 => padFrac (frac * 10) left

/-- `parse_decimal_x100(s)`. -/
def parseDecimalX100 (s : List UInt8) : UInt64 :=
  let whole := accDigits 0 s
  let frac := match whole.2 with
    | 46 :: s => fracLoop 2 0 s
    | _ => (0, 2)
  whole.1 * 100 + padFrac frac.1 frac.2

/-! ### The whole system -/

/-- The loop that skips what is no blank. -/
def skipWord (line : List UInt8) : List UInt8 := line.dropWhile (· ≠ 32)

/-- The loop that skips blanks. -/
def skipBlanks (line : List UInt8) : List UInt8 := line.dropWhile (· = 32)

/-- The loop that fills `vals`, which has room for so many more. -/
def cpuVals : ℕ → List UInt8 → List UInt64
  | 0, _ => []
  | left + 1, line =>
    if line = [] then [] else parseU64Token line :: cpuVals left (skipBlanks (skipWord line))

/-- `struct cpu_snap`. -/
structure CpuSnap where
  busyTicks : UInt64
  totalTicks : UInt64
  deriving DecidableEq

/-- `parse_cpu_line(line, busy, total)`. -/
def parseCpuLine (line : List UInt8) : CpuSnap :=
  let vals := cpuVals 10 (skipBlanks (skipWord line))
  let sum := vals.foldl (· + ·) 0
  let idle := vals.getD 3 0 + vals.getD 4 0
  ⟨if sum > idle then sum - idle else 0, sum⟩

/-- `struct sys_snap`, as far as these functions fill it; `ncpus` is the length of `cpu`. -/
structure SysSnap where
  uptimeMs : UInt64
  loadAvg5sX100 : UInt64
  all : CpuSnap
  cpu : List CpuSnap
  deriving DecidableEq

/-- `MAX_CPUS`. -/
def maxCpus : ℕ := 64

/-- `strncmp_local(line, "cpu ", 4) == 0`. -/
def isTotalLine (line : List UInt8) : Bool := line.take 4 == [99, 112, 117, 32]

/-- `strncmp_local(line, "cpu", 3) == 0 && line[3] >= '0' && line[3] <= '9'`. -/
def isCpuLine (line : List UInt8) : Bool :=
  line.take 3 == [99, 112, 117] && ((line.drop 3).head?.bind decimalVal).isSome

/-- The body of the loop of `read_proc_stat`, for one line. -/
def statLine (ss : SysSnap) (line : List UInt8) : SysSnap :=
  if isTotalLine line then { ss with all := parseCpuLine line }
  else if isCpuLine line ∧ ss.cpu.length < maxCpus then
    { ss with cpu := ss.cpu ++ [parseCpuLine line] }
  else ss

/-- `read_proc_stat(ss)`. -/
def readProcStat (file : Option ProcFile) (ss : SysSnap) : SysSnap :=
  match readFileInto file 2048 with
  | none => ss
  | some buf => if buf = [] then ss else (scanLines 10 (str buf)).foldl statLine ss

/-- `read_proc_uptime(ss)`. -/
def readProcUptime (file : Option ProcFile) (ss : SysSnap) : SysSnap :=
  match readFileInto file 128 with
  | none => ss
  | some buf =>
    if buf = [] then ss else { ss with uptimeMs := parseDecimalX100 (str buf) * 10 }

/-- `read_proc_loadavg(ss)`. -/
def readProcLoadavg (file : Option ProcFile) (ss : SysSnap) : SysSnap :=
  match readFileInto file 128 with
  | none => ss
  | some buf =>
    if buf = [] then ss
    else { ss with loadAvg5sX100 := parseDecimalX100 (skipBlanks (skipWord (str buf))) }

/-- `read_system_snapshot(ss)`. -/
def readSystemSnapshot (uptime loadavg stat : Option ProcFile) : SysSnap :=
  readProcStat stat (readProcLoadavg loadavg (readProcUptime uptime ⟨0, 0, ⟨0, 0⟩, []⟩))

/-! ### A process -/

/-- The loop that looks for the last `)`: what follows it. -/
def lastParen (rp : Option (List UInt8)) : List UInt8 → Option (List UInt8)
  | [] => rp
  | c :: s => lastParen (if c = 41 then some s else rp) s

/-- The loop over the fields, up to number 15, of which so many are left: `utime` and `stime`. -/
def statFields : ℕ → List UInt8 → UInt64 → UInt64 → UInt64 × UInt64
  | 0, _, utime, stime => (utime, stime)
  | left + 1, p, utime, stime =>
    if p = [] then (utime, stime)
    else
      let start := skipBlanks p
      let field := 15 - left
      statFields left (skipWord start) (if field = 14 then parseU64Token start else utime)
        (if field = 15 then parseU64Token start else stime)

/-- `parse_pid_stat(pid, ps)`: `cputime_ticks` after it. -/
def parsePidStat (file : Option ProcFile) (cputimeTicks : UInt64) : UInt64 :=
  match readFileInto file 512 with
  | none => cputimeTicks
  | some buf =>
    if buf = [] then cputimeTicks
    else
      match lastParen none (str buf) with
      | none => cputimeTicks
      | some p =>
        let times := statFields 13 (skipBlanks p) 0 0
        times.1 + times.2

/-! ### What the files say -/

/-- The number at the beginning of a text. -/
def number (s : List UInt8) : ℕ := more 10 0 (spanDigits decimalVal s).1

/-- A text begins with a decimal fraction, which is this many hundredths and a rest. -/
def Hundredths (text : List UInt8) (n : ℕ) : Prop :=
  ∃ (whole frac : Digits decimalVal) (rest : List UInt8),
    text = whole.chars ++ 46 :: (frac.chars ++ rest) ∧ (∀ c ∈ rest.head?, decimalVal c = none) ∧
      n = more 10 (whole.value 10) ((frac.values ++ [0, 0]).take 2)

/-- The fields of a text. -/
def fields (s : List UInt8) : List (List UInt8) := Splitter.parts (· == 32) s

/-- The ticks of a processor in its line, after its name. -/
def ticks (line : List UInt8) : List ℕ := (((fields line).drop 1).take 10).map number

/-- What a line says about a processor: all ticks, and those that were neither idle nor spent
waiting. -/
def cpuOf (line : List UInt8) : CpuSnap where
  busyTicks := .ofNat ((ticks line).sum - ((ticks line).getD 3 0 + (ticks line).getD 4 0))
  totalTicks := .ofNat (ticks line).sum

section Reading

variable {f : ProcFile} {room k : ℕ} {rest : List UInt8}

/-- **A file is read up to the room in the buffer**, in whatever pieces. -/
theorem readLoop_eq (hf : ∀ k, (f.gives k).isSome) : readLoop f room k rest = rest.take room := by
  induction hroom : room using Nat.strongRecOn generalizing room k rest with
  | ind n ih =>
    subst hroom
    obtain ⟨c, hc⟩ := Option.isSome_iff_exists.1 (hf k)
    rw [readLoop, hc]
    dsimp only
    split_ifs with hzero hnil
    · rw [hzero, List.take_zero]
    · rw [hnil, List.take_nil]
    · have hpos : 0 < min (max c 1) room := by omega
      have hle : min (max c 1) room ≤ room := Nat.min_le_right _ _
      rw [ih _ (by omega) rfl, ← List.take_add, Nat.add_sub_cancel' hle]

theorem readFileInto_eq (hf : ∀ k, (f.gives k).isSome) (bufsz : ℕ) :
    readFileInto (some f) bufsz = some (f.text.take (bufsz - 1)) :=
  congrArg some (readLoop_eq hf)

theorem str_eq (h : 0 ∉ rest) : str rest = rest :=
  List.takeWhile_eq_self_iff.2 fun _ hc => decide_eq_true fun hzero => h (hzero ▸ hc)

theorem str_take (h : 0 ∉ rest) (n : ℕ) : str (rest.take n) = rest.take n :=
  str_eq fun hmem => h (List.mem_of_mem_take hmem)

end Reading

/-! ### Numbers -/

section Numbers

variable {s rest : List UInt8} {n left : ℕ}

theorem ofNat_more (d : ℕ) : UInt64.ofNat n * 10 + .ofNat d = .ofNat (n * 10 + d) := by
  rw [UInt64.ofNat_add, UInt64.ofNat_mul]
  rfl

/-- The loop over the digits has the number, cut to 64 bits. -/
theorem accDigits_eq (n : ℕ) (s : List UInt8) : accDigits (.ofNat n) s =
    (.ofNat (more 10 n (spanDigits decimalVal s).1), (spanDigits decimalVal s).2) := by
  induction s generalizing n with
  | nil => rfl
  | cons c s ih =>
    rw [accDigits, spanDigits]
    cases hc : decimalVal c with
    | none => rfl
    | some d =>
      dsimp only
      rw [ofNat_more, ih, more_cons]

theorem parseU64Token_eq (s : List UInt8) : parseU64Token s = .ofNat (number s) := by
  have hzero : (0 : UInt64) = .ofNat 0 := rfl
  rw [parseU64Token, hzero, accDigits_eq, number]

/-- The fraction, and what is missing of it. -/
theorem fracLoop_eq (hs : ∀ c ∈ s, (decimalVal c).isSome)
    (hrest : ∀ c ∈ rest.head?, decimalVal c = none) (n left : ℕ) :
    fracLoop left (.ofNat n) (s ++ rest) =
      (.ofNat (more 10 n ((s.filterMap decimalVal).take left)), left - s.length) := by
  induction s generalizing n left with
  | nil =>
    rw [List.nil_append, List.filterMap_nil, List.take_nil]
    cases left with
    | zero => rfl
    | succ left =>
      cases rest with
      | nil => rfl
      | cons c rest =>
        rw [fracLoop, hrest c rfl]
        rfl
  | cons c s ih =>
    obtain ⟨hc, hs⟩ := List.forall_mem_cons.1 hs
    obtain ⟨d, hd⟩ := Option.isSome_iff_exists.1 hc
    rw [List.filterMap_cons_some hd]
    cases left with
    | zero => rw [fracLoop, List.take_zero, Nat.zero_sub]; rfl
    | succ left =>
      rw [List.cons_append, fracLoop, hd]
      dsimp only
      rw [ofNat_more, ih hs, List.take_succ_cons, more_cons, List.length_cons,
        Nat.add_sub_add_right]

/-- The zeros that are missing are put behind. -/
theorem padFrac_eq (n left : ℕ) :
    padFrac (.ofNat n) left = .ofNat (more 10 n (List.replicate left 0)) := by
  induction left generalizing n with
  | zero => rfl
  | succ left ih =>
    have hstep : UInt64.ofNat n * 10 = .ofNat (n * 10 + 0) := by
      rw [UInt64.ofNat_add, UInt64.ofNat_mul]
      exact (UInt64.add_zero _).symm
    rw [padFrac, hstep, ih, List.replicate_succ, more_cons]

theorem more_append (n : ℕ) (ds ds' : List ℕ) :
    more 10 n (ds ++ ds') = more 10 (more 10 n ds) ds' := List.foldl_append ..

/-- Two digits behind a number. -/
theorem more_two (n : ℕ) {ds : List ℕ} (h : ds.length = 2) :
    more 10 n ds = n * 100 + more 10 0 ds := by
  obtain ⟨a, b, rfl⟩ := List.length_eq_two.1 h
  simp only [more, List.foldl_cons, List.foldl_nil]
  omega

/-- **A decimal fraction** is read as so many hundredths. -/
theorem parseDecimalX100_eq (h : Hundredths s n) : parseDecimalX100 s = .ofNat n := by
  obtain ⟨whole, frac, rest, rfl, hrest, rfl⟩ := h
  have hpoint : ∀ c ∈ (46 :: (frac.chars ++ rest)).head?, decimalVal c = none := by
    rintro c hc
    rw [← Option.some.inj hc]
    rfl
  have hzero : (0 : UInt64) = .ofNat 0 := rfl
  have hlen : (frac.chars.filterMap decimalVal).length = frac.chars.length := by
    rw [List.length_filterMap_eq_countP]
    exact List.countP_eq_length.2 frac.valid
  have htwo : ((frac.values ++ [0, 0]).take 2).length = 2 := by
    rw [List.length_take, List.length_append]
    exact Nat.min_eq_left (Nat.le_add_left 2 _)
  have hpad : (frac.values ++ [0, 0]).take 2 =
      (frac.chars.filterMap decimalVal).take 2 ++ List.replicate (2 - frac.chars.length) 0 := by
    rw [List.take_append, ← hlen]
    congr 1
    show List.take _ (List.replicate 2 0) = _
    rw [List.take_replicate]
    congr 1
    have hle : frac.values.length = (frac.chars.filterMap decimalVal).length := rfl
    omega
  unfold parseDecimalX100
  rw [hzero, accDigits_eq, spanDigits_append whole.valid hpoint]
  show _ * 100 + padFrac (fracLoop 2 (.ofNat 0) (frac.chars ++ rest)).1
    (fracLoop 2 (.ofNat 0) (frac.chars ++ rest)).2 = _
  rw [fracLoop_eq frac.valid hrest]
  dsimp only
  rw [padFrac_eq, ← more_append, ← hpad, more_two (whole.value 10) htwo, UInt64.ofNat_add,
    UInt64.ofNat_mul]
  rfl

end Numbers

/-! ### Fields -/

section Fields

variable {s t w line : List UInt8} {left : ℕ}

theorem skipWord_append (hw : ∀ c ∈ w, (c == 32) = false)
    (ht : t = [] ∨ ∃ c r, t = c :: r ∧ (c == 32) = true) : skipWord (w ++ t) = t := by
  have hall : ∀ c ∈ w, decide (c ≠ 32) = true := fun c hc =>
    decide_eq_true (by simpa using hw c hc)
  unfold skipWord
  rw [List.dropWhile_append_of_pos hall]
  rcases ht with rfl | ⟨c, r, rfl, hc⟩
  · rfl
  · rw [List.dropWhile_cons_of_neg (by simpa using hc)]

/-- Blanks are between the fields. -/
theorem fields_skipBlanks (s : List UInt8) : fields (skipBlanks s) = fields s := by
  induction s with
  | nil => rfl
  | cons c s ih =>
    by_cases hc : c = 32
    · have hsep : fields (c :: s) = fields s := parts_sep (beq_iff_eq.2 hc)
      rw [hsep, ← ih]
      exact congrArg fields (List.dropWhile_cons_of_pos (decide_eq_true hc))
    · exact congrArg fields (List.dropWhile_cons_of_neg (by simpa using hc))

/-- What begins with no blank is empty, or a field and what comes after it. -/
theorem cases_field (s : List UInt8) : (skipBlanks s = [] ∧ fields s = []) ∨ ∃ w t,
    skipBlanks s = w ++ t ∧ w ≠ [] ∧ (∀ c ∈ w, (c == 32) = false) ∧
      (t = [] ∨ ∃ c r, t = c :: r ∧ (c == 32) = true) ∧ fields s = w :: fields t := by
  refine parts_induction (P := fun s ws => (skipBlanks s = [] ∧ ws = []) ∨ ∃ w t,
    skipBlanks s = w ++ t ∧ w ≠ [] ∧ (∀ c ∈ w, (c == 32) = false) ∧
      (t = [] ∨ ∃ c r, t = c :: r ∧ (c == 32) = true) ∧ ws = w :: fields t) (.inl ⟨rfl, rfl⟩)
    (fun c s hc ih => ?_) (fun w t hne hw ht _ => .inr ⟨w, t, ?_, hne, hw, ht, rfl⟩) s
  · have hskip : skipBlanks (c :: s) = skipBlanks s :=
      List.dropWhile_cons_of_pos (by simpa using hc)
    rw [hskip]
    exact ih
  · obtain ⟨c, w, rfl⟩ := List.exists_cons_of_ne_nil hne
    exact List.dropWhile_cons_of_neg (by simpa using hw c List.mem_cons_self)

/-- The number of a field ends with it. -/
theorem number_append (ht : t = [] ∨ ∃ c r, t = c :: r ∧ (c == 32) = true) (w : List UInt8) :
    number (w ++ t) = number w := by
  have hspan : (spanDigits decimalVal (w ++ t)).1 = (spanDigits decimalVal w).1 := by
    induction w with
    | nil =>
      rcases ht with rfl | ⟨c, r, rfl, hc⟩
      · rfl
      · rw [eq_of_beq hc]
        rfl
    | cons c w ih =>
      rw [List.cons_append, spanDigits, spanDigits]
      cases decimalVal c with
      | none => rfl
      | some d =>
        dsimp only
        rw [ih]
  rw [number, hspan, number]

/-- **The loop that fills `vals`** takes the numbers of the fields. -/
theorem cpuVals_eq (left : ℕ) (s : List UInt8) : cpuVals left (skipBlanks s) =
    ((fields s).take left).map fun w => .ofNat (number w) := by
  induction left generalizing s with
  | zero => rfl
  | succ left ih =>
    rw [cpuVals]
    rcases cases_field s with ⟨hskip, hfields⟩ | ⟨w, t, hskip, hne, hw, ht, hfields⟩
    · rw [if_pos hskip, hfields]
      rfl
    · rw [hskip, if_neg (List.append_ne_nil_of_left_ne_nil hne t), hfields, List.take_succ_cons,
        List.map_cons, skipWord_append hw ht, ih, parseU64Token_eq, number_append ht]

/-- The fields after the first word, which begins the line. -/
theorem fields_skipWord (hline : line.head? ≠ some 32) :
    fields (skipWord line) = (fields line).drop 1 := by
  have hself : skipBlanks line = line := by
    cases line with
    | nil => rfl
    | cons c s =>
      exact List.dropWhile_cons_of_neg (by simpa using fun hc => hline (congrArg some hc))
  rcases cases_field line with ⟨hskip, hfields⟩ | ⟨w, t, hskip, hne, hw, ht, hfields⟩
  · rw [hself] at hskip
    rw [hskip]
    rfl
  · rw [hself] at hskip
    rw [hfields, hskip, skipWord_append hw ht]
    rfl

end Fields

/-! ### The lines of the processors -/

section Cpus

variable {line cpus rest : List UInt8} {l : List ℕ} {ss : SysSnap}

theorem getD_add_getD_le (l : List ℕ) : l.getD 3 0 + l.getD 4 0 ≤ l.sum := by
  rcases l with _ | ⟨a, _ | ⟨b, _ | ⟨c, _ | ⟨d, _ | ⟨e, l⟩⟩⟩⟩⟩ <;> simp <;> omega

theorem foldl_ofNat (l : List ℕ) (n : ℕ) :
    (l.map UInt64.ofNat).foldl (· + ·) (.ofNat n) = .ofNat (n + l.sum) := by
  induction l generalizing n with
  | nil => rfl
  | cons a l ih =>
    rw [List.map_cons, List.foldl_cons, ← UInt64.ofNat_add, ih, List.sum_cons, Nat.add_assoc]

theorem getD_map_ofNat (l : List ℕ) (i : ℕ) :
    (l.map UInt64.ofNat).getD i 0 = .ofNat (l.getD i 0) := by
  rw [List.getD_eq_getElem?_getD, List.getD_eq_getElem?_getD, List.getElem?_map]
  cases l[i]? with
  | none => rfl
  | some a => rfl

/-- **The line of a processor** is read as what it says. -/
theorem parseCpuLine_eq (hline : line.head? ≠ some 32) (hsum : (ticks line).sum < 2 ^ 64) :
    parseCpuLine line = cpuOf line := by
  have hvals : cpuVals 10 (skipBlanks (skipWord line)) = (ticks line).map UInt64.ofNat := by
    rw [cpuVals_eq, fields_skipWord hline, ticks, List.map_map]
    rfl
  have hzero : (0 : UInt64) = .ofNat 0 := rfl
  have hidle := getD_add_getD_le (ticks line)
  unfold parseCpuLine cpuOf
  dsimp only
  rw [hvals, getD_map_ofNat, getD_map_ofNat, ← UInt64.ofNat_add, hzero, foldl_ofNat, Nat.zero_add]
  congr 1
  generalize (ticks line).getD 3 0 + (ticks line).getD 4 0 = idle at hidle ⊢
  generalize (ticks line).sum = sum at hsum hidle ⊢
  have hlt : UInt64.ofNat sum > UInt64.ofNat idle ↔ idle < sum := by
    rw [gt_iff_lt, UInt64.lt_iff_toNat_lt, UInt64.toNat_ofNat_of_lt' hsum,
      UInt64.toNat_ofNat_of_lt' (Nat.lt_of_le_of_lt hidle hsum)]
  split_ifs with hgt
  · rw [UInt64.ofNat_sub hidle]
  · have hle := mt hlt.2 hgt
    rw [Nat.sub_eq_zero_of_le (by omega)]

theorem isCpuLine_of_isTotalLine (h : isTotalLine line = true) : isCpuLine line = false := by
  have htake : line.take 4 = [99, 112, 117, 32] := eq_of_beq h
  have hthird : (line.drop 3).head? = some 32 := by
    rw [List.head?_drop, ← List.getElem?_take_of_lt (show 3 < 4 by decide), htake]
    rfl
  rw [isCpuLine, hthird]
  exact Bool.and_false _

/-- A line that begins with `cpu`. -/
theorem head?_of_take {n : ℕ} {w : List UInt8} (h : line.take n = 99 :: w) :
    line.head? ≠ some 32 := by
  cases line with
  | nil =>
    intro hc
    cases hc
  | cons c s =>
    cases n with
    | zero => exact absurd h.symm (List.cons_ne_nil _ _)
    | succ n =>
      rw [List.take_succ_cons] at h
      rw [(List.cons.inj h).1]
      exact fun hc => absurd (Option.some.inj hc) (by decide)

/-- **The loop over the lines** keeps the last line for all processors, and the first lines for
one. -/
theorem foldl_statLine (ls : List (List UInt8)) (ss : SysSnap) : ls.foldl statLine ss =
    { ss with
      all := (((ls.filter isTotalLine).getLast?).map parseCpuLine).getD ss.all
      cpu := ss.cpu ++ ((ls.filter isCpuLine).take (maxCpus - ss.cpu.length)).map parseCpuLine } := by
  induction ls generalizing ss with
  | nil => simp
  | cons line ls ih =>
    rw [List.foldl_cons, ih, statLine]
    split_ifs with htotal hcpu
    · have hcpu := isCpuLine_of_isTotalLine htotal
      rw [List.filter_cons_of_pos htotal, List.filter_cons_of_neg (by simp [hcpu]),
        List.getLast?_cons]
      cases (ls.filter isTotalLine).getLast? with
      | none => rfl
      | some l => rfl
    · obtain ⟨hcpu, hroom⟩ := hcpu
      obtain ⟨n, hn⟩ : ∃ n, maxCpus - ss.cpu.length = n + 1 :=
        ⟨maxCpus - ss.cpu.length - 1, by omega⟩
      have hn' : maxCpus - (ss.cpu ++ [parseCpuLine line]).length = n := by
        rw [List.length_append, List.length_singleton]
        omega
      rw [List.filter_cons_of_neg (by simp [htotal]), List.filter_cons_of_pos hcpu]
      dsimp only
      rw [hn, hn', List.take_succ_cons, List.map_cons, List.append_assoc]
      rfl
    · rw [List.filter_cons_of_neg (by simp [htotal])]
      by_cases hc : isCpuLine line = true
      · have hfull : maxCpus - ss.cpu.length = 0 := by
          have hroom : ¬ss.cpu.length < maxCpus := fun hlt => hcpu ⟨hc, hlt⟩
          omega
        rw [hfull, List.take_zero, List.take_zero]
      · rw [List.filter_cons_of_neg hc]

theorem lines_append (hend : unterminated 10 cpus = []) (rest : List UInt8) :
    lines 10 (cpus ++ rest) = lines 10 cpus ++ lines 10 rest := by
  rw [lines, lines, lines, terminated_append, unterminated_append, hend, if_pos rfl,
    List.append_nil, List.append_assoc]
  rfl

/-- What begins a text has no other lines with a beginning than the text. -/
theorem filter_lines_take {p : List UInt8 → Bool} {w : List UInt8}
    (hp : ∀ l, p l = true → w <+: l) (hrest : ∀ l ∈ lines 10 rest, ¬w <+: l) (n : ℕ) :
    (lines 10 (rest.take n)).filter p = [] := by
  refine List.filter_eq_nil_iff.2 fun l hl hpl => ?_
  obtain ⟨i, hi⟩ := List.getElem?_of_mem hl
  obtain ⟨l', hi', hpre⟩ := getElem?_lines_of_prefix (List.take_prefix n rest) hi
  exact hrest l' (List.mem_of_getElem? hi') ((hp l hpl).trans hpre)

/-- **`/proc/stat` is read as what it says**, if the lines of the processors fit the buffer. -/
theorem readProcStat_eq {f : ProcFile} (hf : ∀ k, (f.gives k).isSome) (hnul : 0 ∉ f.text)
    (htext : f.text = cpus ++ rest) (hend : unterminated 10 cpus = [])
    (hlen : cpus.length ≤ 2047) (hrest : ∀ l ∈ lines 10 rest, ¬[99, 112, 117] <+: l)
    (hsum : ∀ l ∈ lines 10 cpus, (ticks l).sum < 2 ^ 64) (ss : SysSnap) :
    readProcStat (some f) ss =
      { ss with
        all := (((lines 10 f.text).filter isTotalLine).getLast?.map cpuOf).getD ss.all
        cpu := ss.cpu ++
          (((lines 10 f.text).filter isCpuLine).take (maxCpus - ss.cpu.length)).map cpuOf } := by
  have htotal : ∀ l, isTotalLine l = true → [99, 112, 117] <+: l := fun l hl =>
    ⟨32 :: l.drop 4, by
      have htake : l.take 4 = [99, 112, 117, 32] := eq_of_beq hl
      conv_rhs => rw [← List.take_append_drop 4 l, htake]
      rfl⟩
  have hcpu : ∀ l, isCpuLine l = true → [99, 112, 117] <+: l := fun l hl => by
    have htake : l.take 3 = [99, 112, 117] := eq_of_beq (Bool.and_eq_true_iff.1 hl).1
    exact htake ▸ List.take_prefix 3 l
  have hhead : ∀ l : List UInt8, [99, 112, 117] <+: l → l.head? ≠ some 32 := fun l hl => by
    have htake : l.take 3 = [99, 112, 117] := (List.prefix_iff_eq_take.1 hl).symm
    exact head?_of_take htake
  -- what was read, and the lines of it that matter
  have hread : str (f.text.take 2047) = cpus ++ rest.take (2047 - cpus.length) := by
    rw [str_take hnul, htext, List.take_append, List.take_of_length_le hlen]
  have hfilter : ∀ p : List UInt8 → Bool, (∀ l, p l = true → [99, 112, 117] <+: l) →
      (lines 10 (str (f.text.take 2047))).filter p = (lines 10 cpus).filter p ∧
        (lines 10 f.text).filter p = (lines 10 cpus).filter p := by
    intro p hp
    have hall := filter_lines_take hp hrest rest.length
    rw [List.take_length] at hall
    rw [hread, htext, lines_append hend, lines_append hend, List.filter_append,
      List.filter_append, filter_lines_take hp hrest, hall, List.append_nil]
    exact ⟨rfl, rfl⟩
  have hparse : ∀ l ∈ lines 10 cpus, [99, 112, 117] <+: l → parseCpuLine l = cpuOf l :=
    fun l hl hpre => parseCpuLine_eq (hhead l hpre) (hsum l hl)
  obtain ⟨htot₁, htot₂⟩ := hfilter isTotalLine htotal
  obtain ⟨hcpu₁, hcpu₂⟩ := hfilter isCpuLine hcpu
  have hone : ((lines 10 cpus).filter isTotalLine).getLast?.map parseCpuLine =
      ((lines 10 cpus).filter isTotalLine).getLast?.map cpuOf := by
    refine Option.map_congr fun l hl => ?_
    obtain ⟨hmem, hl⟩ := List.mem_filter.1 (List.mem_of_getLast? hl)
    exact hparse l hmem (htotal l hl)
  have hmany : (((lines 10 cpus).filter isCpuLine).take (maxCpus - ss.cpu.length)).map
      parseCpuLine = (((lines 10 cpus).filter isCpuLine).take (maxCpus - ss.cpu.length)).map
        cpuOf := by
    refine List.map_congr_left fun l hl => ?_
    obtain ⟨hmem, hl⟩ := List.mem_filter.1 (List.mem_of_mem_take hl)
    exact hparse l hmem (hcpu l hl)
  have hfold : readProcStat (some f) ss =
      (lines 10 (str (f.text.take 2047))).foldl statLine ss := by
    unfold readProcStat
    rw [readFileInto_eq hf]
    dsimp only
    split_ifs with hnil
    · rw [hnil]
      rfl
    · rw [scanLines_eq]
  rw [hfold, foldl_statLine, htot₁, hcpu₁, htot₂, hcpu₂, hone, hmany]

theorem Hundredths.ne_nil {s : List UInt8} {n : ℕ} (h : Hundredths s n) : s ≠ [] := by
  obtain ⟨whole, frac, rest, rfl, -⟩ := h
  exact List.append_ne_nil_of_left_ne_nil whole.ne_nil _

/-- Blanks before a decimal fraction are skipped. -/
theorem Hundredths.skipBlanks {s : List UInt8} {n : ℕ} (h : Hundredths s n) :
    TopProc.skipBlanks (32 :: s) = s := by
  obtain ⟨whole, frac, rest, rfl, -⟩ := h
  obtain ⟨c, cs, hc⟩ := List.exists_cons_of_ne_nil whole.ne_nil
  have hdigit := whole.valid c (hc ▸ List.mem_cons_self)
  have hne : c ≠ 32 := by
    rintro rfl
    cases hdigit
  have hblank : TopProc.skipBlanks (32 :: (whole.chars ++ 46 :: (frac.chars ++ rest))) =
      TopProc.skipBlanks (whole.chars ++ 46 :: (frac.chars ++ rest)) :=
    List.dropWhile_cons_of_pos (decide_eq_true rfl)
  rw [hblank, hc]
  exact List.dropWhile_cons_of_neg (by simpa using hne)

/-- **The snapshot of the system**, whatever pieces the files are read in, where the lines of the
processors and the two short files fit their buffers: the uptime, the second of the load averages,
and what the lines of `/proc/stat` say about all processors and about the first 64 of them, also
where what comes after these lines does not fit. -/
theorem readSystemSnapshot_reads {uptime loadavg stat : ProcFile} {up load : ℕ}
    {first second : List UInt8}
    (hreads : ∀ f ∈ [uptime, loadavg, stat], (∀ k, (f.gives k).isSome) ∧ 0 ∉ f.text)
    (hup : Hundredths uptime.text up) (huplen : uptime.text.length ≤ 127)
    (hload : loadavg.text = first ++ 32 :: second) (hfirst : 32 ∉ first)
    (hsecond : Hundredths second load) (hloadlen : loadavg.text.length ≤ 127)
    (htext : stat.text = cpus ++ rest) (hend : unterminated 10 cpus = [])
    (hlen : cpus.length ≤ 2047) (hrest : ∀ l ∈ lines 10 rest, ¬[99, 112, 117] <+: l)
    (hsum : ∀ l ∈ lines 10 cpus, (ticks l).sum < 2 ^ 64) :
    readSystemSnapshot (some uptime) (some loadavg) (some stat) =
      { uptimeMs := .ofNat (up * 10)
        loadAvg5sX100 := .ofNat load
        all := (((lines 10 stat.text).filter isTotalLine).getLast?.map cpuOf).getD ⟨0, 0⟩
        cpu := (((lines 10 stat.text).filter isCpuLine).take 64).map cpuOf } := by
  simp only [List.forall_mem_cons] at hreads
  obtain ⟨⟨hru, hnu⟩, ⟨hrl, hnl⟩, ⟨hrs, hns⟩, -⟩ := hreads
  have hupdate : readProcUptime (some uptime) ⟨0, 0, ⟨0, 0⟩, []⟩ =
      ⟨.ofNat (up * 10), 0, ⟨0, 0⟩, []⟩ := by
    unfold readProcUptime
    rw [readFileInto_eq hru, List.take_of_length_le huplen]
    dsimp only
    rw [if_neg hup.ne_nil, str_eq hnu, parseDecimalX100_eq hup, UInt64.ofNat_mul]
    rfl
  have hloaded : readProcLoadavg (some loadavg) ⟨.ofNat (up * 10), 0, ⟨0, 0⟩, []⟩ =
      ⟨.ofNat (up * 10), .ofNat load, ⟨0, 0⟩, []⟩ := by
    have hword : ∀ c ∈ first, (c == 32) = false := fun c hc =>
      beq_eq_false_iff_ne.2 fun heq => hfirst (heq ▸ hc)
    have hskip : skipBlanks (skipWord loadavg.text) = second := by
      rw [hload, skipWord_append hword (.inr ⟨32, second, rfl, rfl⟩)]
      exact hsecond.skipBlanks
    have hne : loadavg.text ≠ [] := by
      rw [hload]
      exact List.append_ne_nil_of_right_ne_nil _ (List.cons_ne_nil _ _)
    unfold readProcLoadavg
    rw [readFileInto_eq hrl, List.take_of_length_le hloadlen]
    dsimp only
    rw [if_neg hne, str_eq hnl, hskip, parseDecimalX100_eq hsecond]
  rw [readSystemSnapshot, hupdate, hloaded, readProcStat_eq hrs hns htext hend hlen hrest hsum]
  rfl

/-- The lines of the processors: `cpu  4 1 2 9 3` and `cpu0 4 1 2 9 3`. -/
def smallCpus : List UInt8 :=
  [99, 112, 117, 32, 32, 52, 32, 49, 32, 50, 32, 57, 32, 51] ++ 10 ::
    [99, 112, 117, 48, 32, 52, 32, 49, 32, 50, 32, 57, 32, 51] ++ [10]

/-- A file that is read two bytes at a time. -/
def inPairs (text : List UInt8) : ProcFile where
  text := text
  gives _ := some 2

/-- Of 19 ticks 12 were idle or spent waiting; the load averages are `0.1 0.25`. -/
theorem readSystemSnapshot_reads_small :
    readSystemSnapshot (some (inPairs [53, 46, 53, 32, 49]))
      (some (inPairs ([48, 46, 49] ++ 32 :: [48, 46, 50, 53, 32, 49])))
      (some (inPairs (smallCpus ++ [105, 110, 116, 114, 32, 55]))) =
      ⟨.ofNat (550 * 10), .ofNat 25, ⟨7, 19⟩, [⟨7, 19⟩]⟩ := by
  have hreads : ∀ f ∈ [inPairs [53, 46, 53, 32, 49],
      inPairs ([48, 46, 49] ++ 32 :: [48, 46, 50, 53, 32, 49]),
      inPairs (smallCpus ++ [105, 110, 116, 114, 32, 55])],
      (∀ k, (f.gives k).isSome) ∧ 0 ∉ f.text := by
    simp only [List.forall_mem_cons]
    exact ⟨⟨fun _ => rfl, by decide +kernel⟩, ⟨fun _ => rfl, by decide +kernel⟩,
      ⟨fun _ => rfl, by decide +kernel⟩, fun _ h => absurd h List.not_mem_nil⟩
  have hup : Hundredths [53, 46, 53, 32, 49] 550 :=
    ⟨⟨[53], by decide +kernel, by decide +kernel⟩, ⟨[53], by decide +kernel, by decide +kernel⟩,
      [32, 49], rfl, by decide +kernel, by decide +kernel⟩
  have hload : Hundredths [48, 46, 50, 53, 32, 49] 25 :=
    ⟨⟨[48], by decide +kernel, by decide +kernel⟩,
      ⟨[50, 53], by decide +kernel, by decide +kernel⟩, [32, 49], rfl, by decide +kernel,
      by decide +kernel⟩
  exact (readSystemSnapshot_reads hreads hup (by decide +kernel) rfl (by decide +kernel) hload
    (by decide +kernel) rfl (by decide +kernel) (by decide +kernel) (by decide +kernel)
    (by decide +kernel)).trans (by decide +kernel)

end Cpus

/-! ### The times of a process -/

section Process

variable {p s t head tail rest past : List UInt8} {left : ℕ} {utime stime : UInt64}

/-- The last `)` is found. -/
theorem lastParen_eq (head : List UInt8) (hrest : 41 ∉ rest) (rp : Option (List UInt8)) :
    lastParen rp (head ++ 41 :: rest) = some rest := by
  have hnone : ∀ (s : List UInt8) rp, 41 ∉ s → lastParen rp s = rp := by
    intro s
    induction s with
    | nil => exact fun _ _ => rfl
    | cons c s ih =>
      intro rp hs
      have hc : c ≠ 41 := fun hc => hs (hc ▸ List.mem_cons_self)
      rw [lastParen, if_neg hc]
      exact ih rp fun hmem => hs (List.mem_cons_of_mem c hmem)
  induction head generalizing rp with
  | nil =>
    rw [List.nil_append, lastParen, if_pos rfl]
    exact hnone rest _ hrest
  | cons c head ih => exact ih _

/-- Fields after fields. -/
theorem fields_append (s : List UInt8) (ht : t = [] ∨ ∃ c r, t = c :: r ∧ (c == 32) = true) :
    fields (s ++ t) = fields s ++ fields t := by
  refine parts_induction (P := fun s ws => fields (s ++ t) = ws ++ fields t) rfl
    (fun c s hc ih => (parts_sep hc).trans ih) (fun w u hne hw hu ih => ?_) s
  have hu' : u ++ t = [] ∨ ∃ c r, u ++ t = c :: r ∧ (c == 32) = true := by
    rcases hu with rfl | ⟨c, r, rfl, hc⟩
    · exact ht
    · exact .inr ⟨c, r ++ t, rfl, hc⟩
  rw [List.append_assoc, fields, parts_part hne hw hu', ← fields, ih, List.cons_append]

/-- The number of a field, by its place. -/
def numberAt (s : List UInt8) (i : ℕ) : ℕ := number ((fields s).getD i [])

/-- **The loop over the fields** takes the numbers of the last two that it goes through. -/
theorem statFields_eq (hle : left ≤ (fields s).length) (utime stime : UInt64) (hfew : left ≤ 13) :
    statFields left s utime stime =
      (if 2 ≤ left then .ofNat (numberAt s (left - 2)) else utime,
        if 1 ≤ left then .ofNat (numberAt s (left - 1)) else stime) := by
  induction left generalizing s utime stime with
  | zero => rfl
  | succ left ih =>
    rcases cases_field s with ⟨-, hfields⟩ | ⟨w, t, hskip, hne, hw, ht, hfields⟩
    · rw [hfields] at hle
      exact absurd hle (Nat.not_succ_le_zero left)
    have hs : s ≠ [] := by
      rintro rfl
      exact List.append_ne_nil_of_left_ne_nil hne t hskip.symm
    have hle' : left ≤ (fields t).length := by
      rw [hfields, List.length_cons] at hle
      omega
    have hat : ∀ i, numberAt s (i + 1) = numberAt t i := fun i => by
      rw [numberAt, hfields, List.getD_cons_succ, numberAt]
    have hat₀ : numberAt s 0 = number w := by
      rw [numberAt, hfields, List.getD_cons_zero]
    rw [statFields, if_neg hs]
    dsimp only
    rw [hskip, skipWord_append hw ht, ih hle' _ _ (by omega), parseU64Token_eq,
      number_append ht, ← hat₀]
    rcases left with _ | _ | left
    · rfl
    · exact Prod.ext rfl (congrArg UInt64.ofNat (hat 0).symm)
    · have hfirst : ¬15 - (left + 2) = 14 := by omega
      have hsecond : ¬15 - (left + 2) = 15 := by omega
      rw [if_neg hfirst, if_neg hsecond]
      simp [hat]

/-- Where there are enough fields, what comes after them does not matter. -/
theorem numberAt_append {i : ℕ} (ht : t = [] ∨ ∃ c r, t = c :: r ∧ (c == 32) = true)
    (hi : i < (fields s).length) : numberAt (s ++ t) i = numberAt s i := by
  rw [numberAt, fields_append s ht, List.getD_eq_getElem?_getD, List.getElem?_append_left hi,
    ← List.getD_eq_getElem?_getD, numberAt]

/-- **The times of a process**, whatever pieces its file is read in and whatever its name is made
of: the sum of fields 14 and 15, which are the 12th and the 13th after the name, if these fit the
buffer. -/
theorem parsePidStat_reads {f : ProcFile} (hreads : ∀ k, (f.gives k).isSome) (hnul : 0 ∉ f.text)
    (htext : f.text = head ++ 41 :: (tail ++ past)) (hparen : 41 ∉ tail ++ past)
    (hpast : past = [] ∨ ∃ r, past = 32 :: r) (hfields : 13 ≤ (fields tail).length)
    (hlen : head.length + 1 + tail.length ≤ 511) (cputimeTicks : UInt64) :
    parsePidStat (some f) cputimeTicks = .ofNat (numberAt tail 11 + numberAt tail 12) := by
  obtain ⟨n, hn⟩ : ∃ n, 511 = head.length + (1 + (tail.length + n)) :=
    ⟨511 - (head.length + 1 + tail.length), by omega⟩
  have hread : str (f.text.take 511) = head ++ 41 :: (tail ++ past.take n) := by
    rw [str_take hnul, htext, hn, List.take_length_add_append, Nat.add_comm 1,
      List.take_succ_cons, List.take_length_add_append]
  have hne : f.text.take 511 ≠ [] := by
    intro hnil
    rw [hnil] at hread
    exact List.append_ne_nil_of_right_ne_nil head (List.cons_ne_nil _ _) hread.symm
  have hafter : 41 ∉ tail ++ past.take n := by
    intro hmem
    refine hparen ?_
    rcases List.mem_append.1 hmem with hmem | hmem
    · exact List.mem_append_left _ hmem
    · exact List.mem_append_right _ (List.mem_of_mem_take hmem)
  have hpast' : past.take n = [] ∨ ∃ c r, past.take n = c :: r ∧ (c == 32) = true := by
    rcases hpast with rfl | ⟨r, rfl⟩
    · exact .inl List.take_nil
    · cases n with
      | zero => exact .inl rfl
      | succ n => exact .inr ⟨32, r.take n, rfl, rfl⟩
  have hskip : fields (skipBlanks (tail ++ past.take n)) = fields (tail ++ past.take n) :=
    fields_skipBlanks _
  have hmany : 13 ≤ (fields (skipBlanks (tail ++ past.take n))).length := by
    rw [hskip, fields_append tail hpast', List.length_append]
    omega
  have hat : ∀ i < 13, numberAt (skipBlanks (tail ++ past.take n)) i = numberAt tail i := by
    intro i hi
    have hsame : numberAt (skipBlanks (tail ++ past.take n)) i =
        numberAt (tail ++ past.take n) i := by
      rw [numberAt, hskip, numberAt]
    rw [hsame, numberAt_append hpast' (by omega)]
  unfold parsePidStat
  rw [readFileInto_eq hreads]
  dsimp only
  rw [if_neg hne, hread, lastParen_eq head hafter none]
  dsimp only
  rw [statFields_eq hmany 0 0 (Nat.le_refl 13), if_pos (by decide), if_pos (by decide),
    hat 11 (by decide), hat 12 (by decide), UInt64.ofNat_add]

/-- ` S 1 1 1 1 1 1 1 1 1 1 12 30`. -/
def smallFields : List UInt8 :=
  [32, 83, 32, 49, 32, 49, 32, 49, 32, 49, 32, 49, 32, 49, 32, 49, 32, 49, 32, 49, 32, 49] ++
    [32, 49, 50, 32, 51, 48]

/-- The file of a process with the name `a) b`, read a byte at a time. -/
def smallProcess : ProcFile where
  text := [55, 32, 40, 97, 41, 32, 98] ++ 41 :: (smallFields ++ [32, 57])
  gives _ := some 1

theorem parsePidStat_reads_small : parsePidStat (some smallProcess) 0 =
    .ofNat (numberAt smallFields 11 + numberAt smallFields 12) :=
  parsePidStat_reads (f := smallProcess) (fun _ => rfl) (by decide +kernel) rfl (by decide +kernel)
    (.inr ⟨[57], rfl⟩) (by decide +kernel) (by decide +kernel) 0

end Process

end TopProc
end Tools
end V6User
