import V6User.Shell.RunLine

/-!
# Where the command lines come from

`programs/sh/sh.c`: the `sh -c` part of `main`, and `run_script`.

`sh -c` joins its arguments with blanks in a buffer of 1024 bytes (`joinLoop`),
and `run_script` reads the start of a file into a buffer of 16384 bytes
(`readLoop`) and goes through the lines it finds there up to the first NUL
(`scriptLoop`).  Both leave it to `run_line` to find out that a line is too long.
It does, except where what was left out is not missing at the end of a full
buffer: `cmdLine_whole_iff` and `runScript_whole_iff` say exactly when no part of
the input is taken for the whole.
-/

namespace V6User
namespace Shell

/-- What `run_line` returns for a line that is too long. -/
def reportTooLong (env : Env) : Turn :=
  .returned (-1) env [.errprintf "sh: command line too long\n" []]

/-- Whether `run_line` finds a line too long: it has no newline at its end, and no
room for one. -/
theorem lineForm_eq_tooLong_iff (buf : CStr) :
    lineForm buf = .tooLong ↔
      buf.bytes.getLast? ≠ some newline ∧ lineBufSize - 1 ≤ buf.bytes.length := by
  have hite : ∀ (c : Prop) [Decidable c] (a b : LineForm), a ≠ .tooLong → b ≠ .tooLong →
      (if c then a else b) ≠ .tooLong := by
    intro c _ a b ha hb
    split_ifs <;> assumption
  have hform : ∀ line, lineFormOf line ≠ .tooLong := by
    intro line
    rw [lineFormOf, exportForm]
    repeat' apply hite
    all_goals exact fun h => LineForm.noConfusion h
  rw [lineForm, withNewline]
  by_cases hlast : buf.bytes ≠ [] ∧ buf.bytes.getLast? ≠ some newline
  · rw [if_pos hlast]
    by_cases hlen : buf.bytes.length < lineBufSize - 1
    · rw [if_pos hlen]
      simp only [hform, false_iff, not_and]
      omega
    · rw [if_neg hlen]
      simp only [true_iff]
      exact ⟨hlast.2, by omega⟩
  · rw [if_neg hlast]
    simp only [hform, false_iff, not_and]
    intro hne
    have hnil : buf.bytes = [] := by
      by_contra hne'
      exact hlast ⟨hne', hne⟩
    rw [hnil]
    decide

theorem runLine_of_tooLong {env : Env} {pid : ℕ} {interactive : Bool} {buf : CStr}
    (h : lineForm buf = .tooLong) : runLine env pid interactive buf = reportTooLong env := by
  rw [runLine, h]
  rfl

/-- Only a line that is too long is reported as one. -/
theorem runLine_eq_report_iff {env : Env} {pid : ℕ} {interactive : Bool} {buf : CStr} :
    runLine env pid interactive buf = reportTooLong env ↔ lineForm buf = .tooLong := by
  refine ⟨fun h => ?_, runLine_of_tooLong⟩
  rw [runLine] at h
  unfold reportTooLong at h
  cases hf : lineForm buf with
  | tooLong => rfl
  | external line =>
    rw [hf] at h
    simp only [runExternal] at h
    split_ifs at h
    · simp at h
    · split at h <;> simp at h
  | cd path =>
    rw [hf] at h
    dsimp only at h
    split_ifs at h <;> simp at h
  | echo text =>
    rw [hf] at h
    dsimp only at h
    split_ifs at h <;> simp at h
  | exportVar name value =>
    rw [hf] at h
    dsimp only at h
    split at h <;> simp at h
  | _ =>
    rw [hf] at h
    simp at h

/-! ### `sh -c` -/

/-- The arguments after `-c` that make up the command: a `--` before them is left
out. -/
def commandArgs : List CStr → List CStr
  | [] => []
  | a :: as => if a.bytes = [45, 45] then as else a :: as

/-- The loop of `main` over the arguments, with `buf` in `cmdbuf`: `first` says
whether this is the first one. -/
def joinLoop : Bool → List CStr → List Byte → List Byte
  | _, [], buf => buf
  | first, a :: as, buf =>
    if buf.length < lineBufSize - 2 then
      let buf := if first = false ∧ buf.length < lineBufSize - 1 then buf ++ [space] else buf
      joinLoop false as (buf ++ a.bytes.take (lineBufSize - buf.length - 1))
    else buf

/-- The arguments with a blank before each but the first. -/
def joined : Bool → List CStr → List Byte
  | _, [] => []
  | first, a :: as => (if first then [] else [space]) ++ a.bytes ++ joined false as

theorem nul_notMem_joined (first : Bool) (as : List CStr) : (0 : Byte) ∉ joined first as := by
  induction as generalizing first with
  | nil => exact List.not_mem_nil
  | cons a as ih =>
    rw [joined, List.mem_append, List.mem_append]
    rintro ((h | h) | h)
    · cases first
      · exact absurd (List.mem_singleton.1 h) (by decide)
      · exact List.not_mem_nil h
    · exact a.nul_free h
    · exact ih false h

theorem nul_notMem_joinLoop (first : Bool) (as : List CStr) (buf : List Byte)
    (hbuf : (0 : Byte) ∉ buf) : (0 : Byte) ∉ joinLoop first as buf := by
  induction as generalizing first buf with
  | nil => exact hbuf
  | cons a as ih =>
    rw [joinLoop]
    split_ifs with h hsp
    · refine ih false _ ?_
      rw [List.mem_append, List.mem_append]
      rintro ((h | h) | h)
      · exact hbuf h
      · exact absurd (List.mem_singleton.1 h) (by decide)
      · exact a.nul_free (List.mem_of_mem_take h)
    · refine ih false _ ?_
      rw [List.mem_append]
      rintro (h | h)
      · exact hbuf h
      · exact a.nul_free (List.mem_of_mem_take h)
    · exact hbuf

/-- The line that `sh -c` hands to `run_line`. -/
def cmdLine (args : List CStr) : CStr :=
  ⟨joinLoop true (commandArgs args) [],
    nul_notMem_joinLoop true (commandArgs args) [] List.not_mem_nil⟩

/-- The arguments of `sh -c`, joined with blanks. -/
def wholeCmdLine (args : List CStr) : CStr :=
  ⟨joined true (commandArgs args), nul_notMem_joined true (commandArgs args)⟩

/-- Once there is no room for a blank and a byte, the loop is over. -/
theorem joinLoop_of_full (first : Bool) (as : List CStr) {buf : List Byte}
    (h : lineBufSize - 2 ≤ buf.length) : joinLoop first as buf = buf := by
  cases as with
  | nil => rfl
  | cons a as => rw [joinLoop, if_neg (by omega)]

/-- One round: the blank and the argument are appended, cut off where the buffer is
full. -/
theorem joinLoop_cons (first : Bool) (a : CStr) (as : List CStr) {buf : List Byte}
    (h : buf.length < lineBufSize - 2) :
    joinLoop first (a :: as) buf =
      joinLoop false as ((buf ++ joined first [a]).take (lineBufSize - 1)) := by
  have hsize : lineBufSize = 1024 := rfl
  rw [joinLoop, if_pos h]
  cases first
  · have hroom : buf.length < lineBufSize - 1 := by omega
    simp only [hroom, true_and, if_true, joined, List.append_nil, Bool.false_eq_true, if_false]
    rw [← List.append_assoc, List.take_append, List.take_of_length_le (i := lineBufSize - 1)]
    · congr 3
      omega
    · rw [List.length_append, List.length_singleton]
      omega
  · simp only [Bool.true_eq_false, false_and, if_false, joined, if_true, List.append_nil,
      List.nil_append]
    rw [List.take_append, List.take_of_length_le (i := lineBufSize - 1) (by omega)]
    congr 3
    omega

theorem joined_cons (first : Bool) (a : CStr) (as : List CStr) :
    joined first (a :: as) = joined first [a] ++ joined false as := by
  simp [joined]

theorem joined_append (first : Bool) (as bs : List CStr) (has : as ≠ []) :
    joined first (as ++ bs) = joined first as ++ joined false bs := by
  induction as generalizing first with
  | nil => exact absurd rfl has
  | cons a as ih =>
    rw [List.cons_append, joined_cons, joined_cons first a as, List.append_assoc]
    cases as with
    | nil => rfl
    | cons b as => rw [ih false (List.cons_ne_nil _ _)]

/-- **The loop without an argument left out.**  Where the buffer never has exactly
one byte less than it can hold while arguments remain, the loop leaves as much of
the whole as fits. -/
theorem joinLoop_of_forall (as : List CStr) : ∀ (first : Bool) (buf : List Byte),
    buf.length ≤ lineBufSize - 1 →
    (∀ j < as.length, (buf ++ joined first (as.take j)).length ≠ lineBufSize - 2) →
    joinLoop first as buf = (buf ++ joined first as).take (lineBufSize - 1) := by
  have hsize : lineBufSize = 1024 := rfl
  induction as with
  | nil =>
    intro first buf hbuf _
    rw [joinLoop, joined, List.append_nil, List.take_of_length_le hbuf]
  | cons a as ih =>
    intro first buf hbuf hne
    have h0 := hne 0 (Nat.succ_pos _)
    rw [List.take_zero, joined, List.append_nil] at h0
    by_cases hroom : buf.length < lineBufSize - 2
    · rw [joinLoop_cons first a as hroom, joined_cons first a as, ← List.append_assoc]
      by_cases hfit : (buf ++ joined first [a]).length ≤ lineBufSize - 1
      · rw [List.take_of_length_le hfit]
        refine ih false _ hfit fun j hj => ?_
        have h := hne (j + 1) (Nat.succ_lt_succ hj)
        rwa [List.take_succ_cons, joined_cons, ← List.append_assoc] at h
      · have hfull : lineBufSize - 2 ≤
            ((buf ++ joined first [a]).take (lineBufSize - 1)).length := by
          rw [List.length_take]
          omega
        have hcut : (buf ++ joined first [a] ++ joined false as).take (lineBufSize - 1) =
            (buf ++ joined first [a]).take (lineBufSize - 1) :=
          List.take_append_of_le_length (by omega)
        rw [joinLoop_of_full false as hfull, hcut]
    · rw [joinLoop_of_full first _ (by omega), List.take_append_of_le_length (by omega),
        List.take_of_length_le hbuf]

/-- **The loop with an argument left out.**  Where the buffer comes to hold exactly
one byte less than it can while arguments remain, the loop leaves these. -/
theorem joinLoop_of_exists (as : List CStr) : ∀ (first : Bool) (buf : List Byte),
    buf.length ≤ lineBufSize - 2 →
    (∃ j < as.length, (buf ++ joined first (as.take j)).length = lineBufSize - 2) →
    joinLoop first as buf = (buf ++ joined first as).take (lineBufSize - 2) := by
  have hsize : lineBufSize = 1024 := rfl
  induction as with
  | nil =>
    rintro first buf - ⟨j, hj, -⟩
    exact absurd hj (Nat.not_lt_zero j)
  | cons a as ih =>
    rintro first buf hbuf ⟨j, hj, h⟩
    by_cases hroom : buf.length < lineBufSize - 2
    · rw [joinLoop_cons first a as hroom]
      cases j with
      | zero =>
        rw [List.take_zero, joined, List.append_nil] at h
        omega
      | succ j =>
        rw [List.take_succ_cons, joined_cons, ← List.append_assoc] at h
        have hfit : (buf ++ joined first [a]).length ≤ lineBufSize - 2 := by
          rw [List.length_append] at h
          omega
        rw [List.take_of_length_le (by omega), joined_cons first a as, ← List.append_assoc]
        exact ih false _ hfit ⟨j, Nat.lt_of_succ_lt_succ hj, h⟩
    · rw [joinLoop_of_full first _ (by omega), List.take_append_of_le_length (by omega),
        List.take_of_length_le hbuf]

/-- No initial run of the arguments fills the buffer up to its last byte but one
while others follow. -/
def NoneLeftOut (args : List CStr) : Prop :=
  ∀ j < (commandArgs args).length,
    (joined true ((commandArgs args).take j)).length ≠ lineBufSize - 2

/-- The byte at which a line that is too long is cut off is not a newline. -/
def CutIsSeen (whole : CStr) : Prop :=
  lineBufSize ≤ whole.bytes.length → whole.bytes[lineBufSize - 2]? ≠ some newline

/-- Where an argument is left out, `run_line` receives less than the whole and finds
nothing wrong with its length. -/
theorem cmdLine_of_leftOut {args : List CStr} (h : ¬NoneLeftOut args) :
    cmdLine args ≠ wholeCmdLine args ∧ lineForm (cmdLine args) ≠ .tooLong := by
  have hsize : lineBufSize = 1024 := rfl
  rw [NoneLeftOut] at h
  push Not at h
  obtain ⟨j, hj, hlen⟩ := h
  have hrun : (cmdLine args).bytes = (wholeCmdLine args).bytes.take (lineBufSize - 2) :=
    joinLoop_of_exists (commandArgs args) true [] (Nat.zero_le _) ⟨j, hj, hlen⟩
  have hlt : lineBufSize - 2 < (wholeCmdLine args).bytes.length := by
    have hne : (commandArgs args).take j ≠ [] := by
      intro hnil
      rw [hnil] at hlen
      exact absurd hlen (by decide)
    have hwhole := joined_append true ((commandArgs args).take j) ((commandArgs args).drop j) hne
    rw [List.take_append_drop, List.drop_eq_getElem_cons hj, joined_cons] at hwhole
    have hlt : lineBufSize - 2 < (joined true (commandArgs args)).length := by
      rw [hwhole]
      simp only [joined, List.length_append, hlen, List.length_singleton, Bool.false_eq_true,
        if_false]
      omega
    exact hlt
  have hlen' : (cmdLine args).bytes.length = lineBufSize - 2 := by
    rw [hrun, List.length_take]
    omega
  refine ⟨fun he => ?_, fun he => ?_⟩
  · rw [he] at hlen'
    omega
  · have := ((lineForm_eq_tooLong_iff _).1 he).2
    omega

/-- **When `sh -c` runs the whole command or none of it.**  `run_line` receives the
arguments joined with blanks, or reports that the line is too long and does nothing,
exactly when no initial run of the arguments joins to `LINE_BUF_SIZE - 2` bytes with
other arguments after it, and the byte at which a longer line is cut off is not a
newline. -/
theorem cmdLine_whole_iff (args : List CStr) :
    (cmdLine args = wholeCmdLine args ∨
        ∀ env pid, runLine env pid false (cmdLine args) = reportTooLong env) ↔
      NoneLeftOut args ∧ CutIsSeen (wholeCmdLine args) := by
  have hsize : lineBufSize = 1024 := rfl
  have hreport : (∀ env pid, runLine env pid false (cmdLine args) = reportTooLong env) ↔
      lineForm (cmdLine args) = .tooLong :=
    ⟨fun h => runLine_eq_report_iff.1 (h .cleared 0), fun h _ _ => runLine_of_tooLong h⟩
  rw [hreport]
  by_cases hleft : NoneLeftOut args
  · have hrun : (cmdLine args).bytes = (wholeCmdLine args).bytes.take (lineBufSize - 1) :=
      joinLoop_of_forall (commandArgs args) true [] (Nat.zero_le _) hleft
    rw [lineForm_eq_tooLong_iff, hrun]
    simp only [hleft, true_and, CutIsSeen]
    by_cases hlong : lineBufSize ≤ (wholeCmdLine args).bytes.length
    · have hne : cmdLine args ≠ wholeCmdLine args := by
        intro he
        rw [he] at hrun
        have := congrArg List.length hrun
        rw [List.length_take] at this
        omega
      have hlen : ((wholeCmdLine args).bytes.take (lineBufSize - 1)).length = lineBufSize - 1 := by
        rw [List.length_take]
        omega
      have hlast : ((wholeCmdLine args).bytes.take (lineBufSize - 1)).getLast? =
          (wholeCmdLine args).bytes[lineBufSize - 2]? := by
        rw [List.getLast?_eq_getElem?, hlen, List.getElem?_take, if_pos (by omega)]
        rfl
      simp only [hne, hlast, hlong, false_or, forall_const, and_iff_left_iff_imp]
      exact fun _ => hlen.ge
    · have he : cmdLine args = wholeCmdLine args := by
        rw [List.take_of_length_le (by omega)] at hrun
        exact CStr.mk.injEq .. ▸ hrun
      simp only [he, true_or, hlong, false_imp_iff]
  · obtain ⟨hne, hform⟩ := cmdLine_of_leftOut hleft
    simp only [hne, hform, hleft, false_and, or_self]

/-- An argument of 1022 bytes. -/
def fullArg : CStr :=
  ⟨List.replicate (lineBufSize - 2) 97, by
    rw [List.mem_replicate]
    decide⟩

/-- **An argument is left out.**  After an argument of 1022 bytes another is dropped,
and the shell runs the first as the command. -/
theorem cmdLine_dropped :
    ¬(cmdLine [fullArg, ⟨[98], by decide⟩] = wholeCmdLine [fullArg, ⟨[98], by decide⟩] ∨
      ∀ env pid, runLine env pid false (cmdLine [fullArg, ⟨[98], by decide⟩]) =
        reportTooLong env) := by
  have hlen : fullArg.bytes.length = lineBufSize - 2 := List.length_replicate
  have hargs : commandArgs [fullArg, ⟨[98], by decide⟩] = [fullArg, ⟨[98], by decide⟩] := by
    rw [commandArgs, if_neg]
    intro he
    rw [he] at hlen
    exact absurd hlen (by decide)
  have hleft : ¬NoneLeftOut [fullArg, ⟨[98], by decide⟩] := by
    intro h
    rw [NoneLeftOut, hargs] at h
    refine h 1 (by decide) ?_
    simpa [joined] using hlen
  obtain ⟨hne, hform⟩ := cmdLine_of_leftOut hleft
  rintro (he | hreport)
  · exact hne he
  · exact hform (runLine_eq_report_iff.1 (hreport .cleared 1))

/-! ### `sh file` -/

/-- `SCRIPT_MAX`. -/
def scriptMax : ℕ := 16384

/-- The reads of `run_script`: `total` bytes are in the buffer, and `chunk total` is
how many bytes the next `read` gives at most besides the first. -/
def readLoop (chunk : ℕ → ℕ) (file : List Byte) (total : ℕ) : List Byte :=
  let n := min (min (chunk total + 1) (scriptMax - total - 1)) (file.length - total)
  if n = 0 then []
  else (file.drop total).take n ++ readLoop chunk file (total + n)
termination_by scriptMax - total

/-- The loop of `run_script` over `text`, the buffer from `line` on: the lines it
passes to `run_line`, each with what came of it. -/
def scriptLoop (pid : ℕ) (env : Env) (text : List Byte) : List (CStr × Turn) :=
  if text.headD 0 = 0 then []
  else
    let line := text.takeWhile fun c => c != 0 && c != newline
    let saved := (text.drop line.length).headD 0
    let linebuf := CStr.ofBytes (line.take (lineBufSize - 1))
    let turn := runLine env pid false linebuf
    (linebuf, turn) ::
      match turn with
      | .returned ret env' _ =>
        if ret = 1 ∨ saved = 0 then [] else scriptLoop pid env' (text.drop (line.length + 1))
      | .exited _ => []
termination_by text.length
decreasing_by
  have hne : text ≠ [] := by
    rintro rfl
    contradiction
  have := List.length_pos_of_ne_nil hne
  rw [List.length_drop]
  omega

/-- `run_script(path)`, on what `open` and `malloc` give: its result, its own
messages and the lines it passes to `run_line`. -/
def runScript (pid : ℕ) (env : Env) (path : CStr) (file : Option (List Byte)) (room : Bool)
    (chunk : ℕ → ℕ) : ℤ × List Action × List (CStr × Turn) :=
  match file with
  | none => (1, [.errprintf "sh: cannot open %s\n" path.bytes], [])
  | some file =>
    if room then (0, [], scriptLoop pid env (readLoop chunk file 0))
    else (1, [.errprintf "sh: out of memory\n" []], [])

/-- **The reads do not depend on their sizes.**  They leave the start of the file in
the buffer, as much of it as fits. -/
theorem readLoop_eq (chunk : ℕ → ℕ) (file : List Byte) (total : ℕ) :
    readLoop chunk file total = (file.drop total).take (scriptMax - 1 - total) := by
  induction total using readLoop.induct chunk file with
  | case1 total n hn =>
    rw [readLoop]
    have hzero : scriptMax - 1 - total = 0 ∨ file.length - total = 0 := by omega
    rw [if_pos hn]
    rcases hzero with h | h
    · rw [h, List.take_zero]
    · rw [List.drop_of_length_le (by omega), List.take_nil]
  | case2 total n hn ih =>
    rw [readLoop, if_neg hn]
    have hsplit : scriptMax - 1 - total = n + (scriptMax - 1 - (total + n)) := by omega
    rw [ih, hsplit, List.take_add, List.drop_drop]

/-- The lines of a text: what stands between its newlines, and after the last of
them where anything does. -/
def fileLines : List Byte → List (List Byte)
  | [] => []
  | c :: text =>
    if c = newline then [] :: fileLines text
    else match fileLines text with
      | [] => [[c]]
      | l :: ls => (c :: l) :: ls

/-- The table for the next line, where a line does not end the shell. -/
def Turn.next : Turn → Option Env
  | .returned ret env _ => if ret = 1 then none else some env
  | .exited _ => none

/-- The lines one after the other through `run_line`, up to the first that ends the
shell. -/
def runLines (pid : ℕ) : Env → List (List Byte) → List (CStr × Turn)
  | _, [] => []
  | env, l :: ls =>
    let linebuf := CStr.ofBytes (l.take (lineBufSize - 1))
    let turn := runLine env pid false linebuf
    (linebuf, turn) ::
      match turn.next with
      | some env' => runLines pid env' ls
      | none => []

theorem fileLines_append_newline {line : List Byte} (rest : List Byte)
    (h : ∀ c ∈ line, c ≠ newline) :
    fileLines (line ++ newline :: rest) = line :: fileLines rest := by
  induction line with
  | nil => rw [List.nil_append, fileLines, if_pos rfl]
  | cons c line ih =>
    rw [List.forall_mem_cons] at h
    rw [List.cons_append, fileLines, if_neg h.1, ih h.2]

theorem fileLines_of_no_newline {line : List Byte} (hne : line ≠ [])
    (h : ∀ c ∈ line, c ≠ newline) : fileLines line = [line] := by
  induction line with
  | nil => exact absurd rfl hne
  | cons c line ih =>
    rw [List.forall_mem_cons] at h
    rw [fileLines, if_neg h.1]
    cases line with
    | nil => rfl
    | cons d line => rw [ih (List.cons_ne_nil _ _) h.2]

/-- A start of a text has no more lines than the text. -/
theorem length_fileLines_le_of_prefix {s t : List Byte} (h : s <+: t) :
    (fileLines s).length ≤ (fileLines t).length := by
  induction s generalizing t with
  | nil => exact Nat.zero_le _
  | cons c s ih =>
    obtain ⟨u, rfl⟩ := h
    have hle := ih (List.prefix_append s u)
    rw [List.cons_append, fileLines, fileLines]
    by_cases hc : c = newline
    · rw [if_pos hc, if_pos hc]
      exact Nat.succ_le_succ hle
    · rw [if_neg hc, if_neg hc]
      cases hs : fileLines s <;> cases hu : fileLines (s ++ u) <;> rw [hs, hu] at hle
      all_goals
        simp only [List.length_cons, List.length_nil] at hle ⊢
        omega

/-- The text at `line` is the line, and then the end of the text, a NUL or a newline
and the lines after it. -/
theorem scriptLoop_split (text : List Byte) :
    let line := text.takeWhile fun c => c != 0 && c != newline
    (∀ c ∈ line, c ≠ 0 ∧ c ≠ newline) ∧
      (text.takeWhile (· != 0) = line ∧ (text.drop line.length).headD 0 = 0 ∨
        text.takeWhile (· != 0) =
            line ++ newline :: (text.drop (line.length + 1)).takeWhile (· != 0) ∧
          (text.drop line.length).headD 0 = newline) := by
  induction text with
  | nil => exact ⟨fun c hc => absurd hc List.not_mem_nil, .inl ⟨rfl, rfl⟩⟩
  | cons c text ih =>
    dsimp only at ih ⊢
    by_cases hzero : c = 0
    · subst hzero
      exact ⟨fun c hc => absurd hc List.not_mem_nil, .inl ⟨rfl, rfl⟩⟩
    · by_cases hnl : c = newline
      · subst hnl
        exact ⟨fun c hc => absurd hc List.not_mem_nil, .inr ⟨rfl, rfl⟩⟩
      · obtain ⟨hall, hrest⟩ := ih
        have hline : (c :: text).takeWhile (fun c => c != 0 && c != newline) =
            c :: text.takeWhile fun c => c != 0 && c != newline := by simp [hzero, hnl]
        have hkept : (c :: text).takeWhile (· != 0) = c :: text.takeWhile (· != 0) := by
          simp [hzero]
        rw [hline, hkept, List.length_cons, List.drop_succ_cons, List.drop_succ_cons]
        refine ⟨List.forall_mem_cons.2 ⟨⟨hzero, hnl⟩, hall⟩, ?_⟩
        rcases hrest with ⟨htake, hhead⟩ | ⟨htake, hhead⟩
        · exact .inl ⟨congrArg _ htake, hhead⟩
        · exact .inr ⟨congrArg _ htake, hhead⟩

/-- **The loop takes the lines before the first NUL.** -/
theorem scriptLoop_eq (pid : ℕ) (env : Env) (text : List Byte) :
    scriptLoop pid env text = runLines pid env (fileLines (text.takeWhile (· != 0))) := by
  induction hn : text.length using Nat.strong_induction_on generalizing env text with
  | _ n ih =>
    rw [scriptLoop]
    by_cases hhead : text.headD 0 = 0
    · rw [if_pos hhead]
      cases text with
      | nil => rfl
      | cons c text =>
        have hc : c = 0 := hhead
        subst hc
        rfl
    · rw [if_neg hhead]
      have hpos : 0 < text.length := by
        refine List.length_pos_of_ne_nil ?_
        rintro rfl
        exact hhead rfl
      obtain ⟨hall, hrest⟩ := scriptLoop_split text
      dsimp only at hall hrest ⊢
      generalize text.takeWhile (fun c => c != 0 && c != newline) = line at hall hrest
      have hline : ∀ c ∈ line, c ≠ newline := fun c hc => (hall c hc).2
      rcases hrest with ⟨htake, hsaved⟩ | ⟨htake, hsaved⟩
      · have hne : line ≠ [] := by
          rintro rfl
          exact hhead hsaved
        rw [htake, fileLines_of_no_newline hne hline, runLines]
        simp only [hsaved, or_true, if_true, runLines]
        congr 1
        split <;> split <;> rfl
      · rw [htake, fileLines_append_newline _ hline, runLines]
        have hsaved' : ¬(text.drop line.length).headD 0 = 0 := by
          rw [hsaved]
          decide
        simp only [hsaved', or_false]
        congr 1
        generalize runLine env pid false _ = turn
        cases turn with
        | exited why => rfl
        | returned ret env' did =>
          rw [Turn.next]
          dsimp only
          split_ifs
          · rfl
          · refine ih _ ?_ _ _ rfl
            rw [List.length_drop]
            omega

/-- The line has no room for its newline in `run_line`. -/
def DoesNotFit (line : List Byte) : Prop := lineBufSize - 1 ≤ line.length

instance (line : List Byte) : Decidable (DoesNotFit line) :=
  inferInstanceAs (Decidable (lineBufSize - 1 ≤ line.length))

/-- The calls of `run_line` are those for these lines in order, up to and including
the first that ends the shell; a line that does not fit is reported and nothing of it
is run, and every other line is passed whole. -/
def RunsWhole (pid : ℕ) : Env → List (List Byte) → List (CStr × Turn) → Prop
  | _, [], runs => runs = []
  | env, l :: ls, runs =>
    ∃ linebuf turn rest, runs = (linebuf, turn) :: rest ∧ turn = runLine env pid false linebuf ∧
      (linebuf.bytes = l ∨ DoesNotFit l ∧ turn = reportTooLong env) ∧
      match turn.next with
      | some env' => RunsWhole pid env' ls rest
      | none => rest = []

/-- What comes of a line that is passed whole, or reported where it does not fit. -/
def lineTurn (pid : ℕ) (env : Env) (line : List Byte) : Turn :=
  if DoesNotFit line then reportTooLong env
  else runLine env pid false (CStr.ofBytes line)

/-- How many of these lines the shell comes to, up to and including the first that
ends it. -/
def linesReached (pid : ℕ) : Env → List (List Byte) → ℕ
  | _, [] => 0
  | env, l :: ls =>
    1 + match (lineTurn pid env l).next with
      | some env' => linesReached pid env' ls
      | none => 0

/-- The part of a script that `run_script` keeps: what fits into its buffer, up to
the first NUL. -/
def scriptKept (file : List Byte) : List Byte :=
  (file.take (scriptMax - 1)).takeWhile (· != 0)

/-- The line read is the line written, or both do not fit. -/
def SameOrNoFit (read written : List Byte) : Prop :=
  read = written ∨ DoesNotFit read ∧ DoesNotFit written

theorem mem_fileLines {text l : List Byte} (hl : l ∈ fileLines text) :
    newline ∉ l ∧ ∀ c ∈ l, c ∈ text := by
  induction text generalizing l with
  | nil => exact absurd hl List.not_mem_nil
  | cons c text ih =>
    rw [fileLines] at hl
    by_cases hc : c = newline
    · rw [if_pos hc, List.mem_cons] at hl
      rcases hl with rfl | hl
      · exact ⟨List.not_mem_nil, fun c hc => absurd hc List.not_mem_nil⟩
      · exact ⟨(ih hl).1, fun d hd => List.mem_cons_of_mem _ ((ih hl).2 d hd)⟩
    · rw [if_neg hc] at hl
      cases hf : fileLines text with
      | nil =>
        rw [hf] at hl
        have he : l = [c] := List.mem_singleton.1 hl
        subst he
        exact ⟨fun hmem => hc (List.mem_singleton.1 hmem).symm,
          fun d hd => List.mem_singleton.1 hd ▸ List.mem_cons_self⟩
      | cons l' ls =>
        rw [hf] at hl ih
        rcases List.mem_cons.1 hl with rfl | hl
        · obtain ⟨hnl, hmem⟩ := ih List.mem_cons_self
          refine ⟨?_, ?_⟩
          · rw [List.mem_cons]
            rintro (h | h)
            · exact hc h.symm
            · exact hnl h
          · intro d hd
            rcases List.mem_cons.1 hd with rfl | hd
            · exact List.mem_cons_self
            · exact List.mem_cons_of_mem _ (hmem d hd)
        · obtain ⟨hnl, hmem⟩ := ih (List.mem_cons_of_mem _ hl)
          exact ⟨hnl, fun d hd => List.mem_cons_of_mem _ (hmem d hd)⟩

/-- A line of the buffer, cut off where it is too long, comes to what the line
itself would come to. -/
theorem runLine_linebuf (pid : ℕ) (env : Env) {l : List Byte} (hzero : (0 : Byte) ∉ l)
    (hnl : newline ∉ l) :
    runLine env pid false (CStr.ofBytes (l.take (lineBufSize - 1))) = lineTurn pid env l := by
  rw [lineTurn]
  by_cases hlen : DoesNotFit l
  · rw [if_pos hlen]
    rw [DoesNotFit] at hlen
    refine runLine_of_tooLong ((lineForm_eq_tooLong_iff _).2 ?_)
    rw [ofBytes_bytes fun h => hzero (List.mem_of_mem_take h)]
    refine ⟨fun h => hnl (List.mem_of_mem_take (List.mem_of_getLast? h)), ?_⟩
    rw [List.length_take]
    omega
  · rw [if_neg hlen]
    rw [DoesNotFit] at hlen
    rw [List.take_of_length_le (by omega)]

/-- What `run_line` is passed for a line, and what comes of it, is right for a line of
the file exactly where the two are the same or both do not fit. -/
theorem sameOrNoFit_iff (pid : ℕ) (env : Env) {l p : List Byte} (hzero : (0 : Byte) ∉ p) :
    ((CStr.ofBytes (p.take (lineBufSize - 1))).bytes = l ∨
        DoesNotFit l ∧ lineTurn pid env p = reportTooLong env) ↔ SameOrNoFit p l := by
  have hsize : lineBufSize = 1024 := rfl
  rw [ofBytes_bytes fun h => hzero (List.mem_of_mem_take h), SameOrNoFit]
  by_cases hlen : DoesNotFit p
  · have hturn : lineTurn pid env p = reportTooLong env := if_pos hlen
    simp only [hturn, and_true, hlen, true_and]
    constructor
    · rintro (rfl | h)
      · right
        rw [DoesNotFit] at hlen ⊢
        rw [List.length_take]
        omega
      · exact .inr h
    · rintro (rfl | h)
      · exact .inr hlen
      · exact .inr h
  · have hturn : lineTurn pid env p ≠ reportTooLong env := by
      rw [lineTurn, if_neg hlen]
      intro h
      have := ((lineForm_eq_tooLong_iff _).1 (runLine_eq_report_iff.1 h)).2
      rw [ofBytes_bytes hzero] at this
      exact hlen this
    simp only [hturn, and_false, or_false, hlen, false_and]
    rw [DoesNotFit] at hlen
    rw [List.take_of_length_le (by omega)]

theorem lineTurn_congr (pid : ℕ) (env : Env) {l p : List Byte} (h : SameOrNoFit p l) :
    lineTurn pid env p = lineTurn pid env l := by
  rcases h with rfl | ⟨hp, hl⟩
  · rfl
  · rw [lineTurn, lineTurn, if_pos hp, if_pos hl]

/-- **The lines of one text run as those of another.**  Where `ps` has no more lines
than `ls`, running the lines `ps` is running the lines `ls` whole exactly when each
line of `ls` that the shell comes to is the line of `ps` in its place, or both do not
fit. -/
theorem runsWhole_iff (pid : ℕ) (ls : List (List Byte)) : ∀ (env : Env) (ps : List (List Byte)),
    ps.length ≤ ls.length → (∀ p ∈ ps, (0 : Byte) ∉ p ∧ newline ∉ p) →
    (RunsWhole pid env ls (runLines pid env ps) ↔
      ∀ k < linesReached pid env ls, ∃ p l, ps[k]? = some p ∧ ls[k]? = some l ∧ SameOrNoFit p l) := by
  induction ls with
  | nil =>
    intro env ps hlen _
    have hps : ps = [] := List.length_eq_zero_iff.1 (Nat.le_zero.1 hlen)
    subst hps
    simp [RunsWhole, runLines, linesReached]
  | cons l ls ih =>
    intro env ps hlen hps
    cases ps with
    | nil =>
      refine iff_of_false ?_ ?_
      · rintro ⟨_, _, _, h, -⟩
        exact absurd h (by simp [runLines])
      · intro h
        obtain ⟨p, _, hp, -⟩ := h 0 (by simp [linesReached])
        exact absurd hp (by simp)
    | cons p ps =>
      obtain ⟨⟨hzero, hnl⟩, hps⟩ := List.forall_mem_cons.1 hps
      have hturn := runLine_linebuf pid env hzero hnl
      have hsame := sameOrNoFit_iff pid env (l := l) hzero
      rw [runLines, RunsWhole, linesReached]
      simp only [hturn, List.cons.injEq, Prod.mk.injEq]
      have hfirst : ∀ n, (∀ k < 1 + n,
            ∃ q m, (p :: ps)[k]? = some q ∧ (l :: ls)[k]? = some m ∧ SameOrNoFit q m) ↔
          SameOrNoFit p l ∧
            ∀ k < n, ∃ q m, ps[k]? = some q ∧ ls[k]? = some m ∧ SameOrNoFit q m := by
        intro n
        rw [Nat.add_comm, Nat.forall_lt_succ_left]
        simp
      rw [hfirst]
      constructor
      · rintro ⟨_, _, rest, ⟨⟨rfl, rfl⟩, rfl⟩, -, hl, hrest⟩
        have hpl := hsame.1 hl
        refine ⟨hpl, ?_⟩
        rw [← lineTurn_congr pid env hpl]
        cases hnext : (lineTurn pid env p).next with
        | none => exact fun k hk => absurd hk (Nat.not_lt_zero k)
        | some env' =>
          rw [hnext] at hrest
          exact (ih env' ps (Nat.le_of_succ_le_succ hlen) hps).1 hrest
      · rintro ⟨hpl, hrest⟩
        refine ⟨_, _, _, ⟨⟨rfl, rfl⟩, rfl⟩, hturn.symm, hsame.2 hpl, ?_⟩
        rw [← lineTurn_congr pid env hpl] at hrest
        cases hnext : (lineTurn pid env p).next with
        | none => rfl
        | some env' =>
          rw [hnext] at hrest
          exact (ih env' ps (Nat.le_of_succ_le_succ hlen) hps).2 hrest

/-- Every line of the file that the shell comes to, up to and including the first that
ends it, is the line in its place in the part of the file that is kept, or both do not
fit. -/
def KeptWhole (pid : ℕ) (env : Env) (file : List Byte) : Prop :=
  ∀ k < linesReached pid env (fileLines file), ∃ p l,
    (fileLines (scriptKept file))[k]? = some p ∧ (fileLines file)[k]? = some l ∧ SameOrNoFit p l

theorem runScript_runs (pid : ℕ) (env : Env) (path : CStr) (file : List Byte) (chunk : ℕ → ℕ) :
    (runScript pid env path (some file) true chunk).2.2 =
      runLines pid env (fileLines (scriptKept file)) := by
  rw [runScript]
  simp only [if_true]
  rw [scriptLoop_eq, readLoop_eq, List.drop_zero, Nat.sub_zero, scriptKept]

theorem runLines_kept_iff (pid : ℕ) (env : Env) (file : List Byte) :
    RunsWhole pid env (fileLines file) (runLines pid env (fileLines (scriptKept file))) ↔
      KeptWhole pid env file := by
  refine runsWhole_iff pid (fileLines file) env _ ?_ fun p hp => ?_
  · exact length_fileLines_le_of_prefix
      ((List.takeWhile_prefix _).trans (List.take_prefix _ _))
  · obtain ⟨hnl, hmem⟩ := mem_fileLines hp
    exact ⟨fun h => nul_notMem_takeWhile _ (hmem 0 h), hnl⟩

/-- **When `run_script` runs the lines of the file.**  For every file and however its
bytes are read, `run_script` passes the lines of the file in order to `run_line`, up
to and including the first that ends the shell, and reports those that do not fit,
exactly when the lines it comes to are kept whole in its buffer. -/
theorem runScript_whole_iff (pid : ℕ) (env : Env) (path : CStr) (file : List Byte)
    (chunk : ℕ → ℕ) :
    RunsWhole pid env (fileLines file) (runScript pid env path (some file) true chunk).2.2 ↔
      KeptWhole pid env file := by
  rw [runScript_runs]
  exact runLines_kept_iff pid env file

/-- Empty lines before a text are come to, and then its lines. -/
theorem linesReached_replicate (pid : ℕ) (env : Env) (n : ℕ) (ls : List (List Byte)) :
    linesReached pid env (List.replicate n [] ++ ls) = n + linesReached pid env ls := by
  have hturn : lineTurn pid env [] = .returned 0 env [] := rfl
  induction n with
  | zero => rw [List.replicate_zero, List.nil_append, Nat.zero_add]
  | succ n ih =>
    have hstep : linesReached pid env ([] :: (List.replicate n [] ++ ls)) =
        1 + linesReached pid env (List.replicate n [] ++ ls) := by
      simp [linesReached, hturn, Turn.next]
    rw [List.replicate_succ, List.cons_append, hstep, ih]
    omega

theorem fileLines_replicate (n : ℕ) (text : List Byte) :
    fileLines (List.replicate n newline ++ text) = List.replicate n [] ++ fileLines text := by
  induction n with
  | zero => rfl
  | succ n ih =>
    rw [List.replicate_succ, List.cons_append, fileLines, if_pos rfl, ih, List.replicate_succ,
      List.cons_append]

/-- A script with a line that stands across the end of the buffer: 16382 newlines and
the line `ls`. -/
def cutScript : List Byte := List.replicate (scriptMax - 2) newline ++ [108, 115]

/-- **A cut line is run.**  The last line of the script is passed without its last
byte. -/
theorem runScript_cut :
    ¬RunsWhole 1 .cleared (fileLines cutScript)
      (runScript 1 .cleared ⟨[102], by decide⟩ (some cutScript) true fun _ => 0).2.2 := by
  rw [runScript_runs, runLines_kept_iff, KeptWhole, cutScript, fileLines_replicate,
    linesReached_replicate]
  have hkept : scriptKept (List.replicate (scriptMax - 2) newline ++ [108, 115]) =
      List.replicate (scriptMax - 2) newline ++ [108] := by
    rw [scriptKept, List.take_append, List.length_replicate, List.take_replicate,
      List.takeWhile_append_of_pos]
    · rfl
    · intro c hc
      rw [List.eq_of_mem_replicate hc]
      decide
  rw [hkept, fileLines_replicate]
  intro h
  obtain ⟨p, l, hp, hl, hpl⟩ := h (scriptMax - 2) (Nat.lt_add_of_pos_right (by decide))
  rw [List.getElem?_append_right (by rw [List.length_replicate]), List.length_replicate,
    Nat.sub_self] at hp hl
  have hp' : p = [108] := (Option.some.inj hp).symm
  have hl' : l = [108, 115] := (Option.some.inj hl).symm
  subst hp' hl'
  rcases hpl with h | ⟨h, -⟩
  · exact absurd h (by decide)
  · exact absurd h (by decide)

end Shell
end V6User
