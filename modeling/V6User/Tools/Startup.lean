import V6User.Base.Lines
import V6User.Base.Splitter
import V6User.Shell.Token

/-!
# The services of process 1

`programs/init/init.c`: `is_env_assignment`, and the block of `main` that starts the services
of `/etc/startup`.

One read fills `buf`, and the lines that are found in it are cut into tokens in place, with
room for 31 tokens, 15 assignments and 15 arguments; whatever is left over is dropped without
a word.  So each service is started from one whole line exactly where the lines that start one
are all in `buf` and have no more than 15 of either (`startup_ok_iff`).
-/

namespace V6User
namespace Tools

open Lines Splitter
open Shell (Byte)

/-! ### The code -/

/-- `'\n'`. -/
def lineEnd : Byte := 10

/-- `sizeof(buf)`. -/
def startupBufSize : ℕ := 1024

/-- A space or a tab. -/
def isSeparator (c : Byte) : Bool := c == 32 || c == 9

/-- `is_env_assignment`. -/
def isEnvAssignment : List Byte → Bool
  | [] => false
  | c :: s => c != 61 && s.contains 61

/-- The call in the child of the service. -/
inductive ServiceCall where
  | exec (sargv : List (List Byte))
  | execve (sargv senv : List (List Byte))

/-- The arguments that the service gets. -/
def ServiceCall.argv : ServiceCall → List (List Byte)
  | .exec sargv => sargv
  | .execve sargv _ => sargv

/-- The environment that the service gets. -/
def ServiceCall.env : ServiceCall → List (List Byte)
  | .exec _ => []
  | .execve _ senv => senv

/-- `if (envc > 0) execve(sargv[0], sargv, senv); else exec(sargv[0], sargv);` -/
def serviceCall (sargv senv : List (List Byte)) : ServiceCall :=
  if senv = [] then .exec sargv else .execve sargv senv

/-- The loop that fills `tokens`, with room for so many more. -/
def tokenLoop : ℕ → List Byte → List (List Byte)
  | 0, _ => []
  | room + 1, q =>
    if q = [] then []
    else
      q.takeWhile (fun c => !isSeparator c) ::
        tokenLoop room ((q.dropWhile fun c => !isSeparator c).dropWhile isSeparator)

/-- What is done for one line: the call that the child of `fork` makes, or nothing. -/
def startLine (line : List Byte) : Option ServiceCall :=
  let p := line.dropWhile isSeparator
  if p = [] ∨ p.head? = some 35 then none
  else
    let tokens := tokenLoop 31 p
    let senv := (tokens.take 15).takeWhile isEnvAssignment
    let rest := tokens.drop senv.length
    if rest = [] then none else some (serviceCall (rest.take 15) senv)

/-- `while (*line)`, from the `i`-th line on: the services that are started, each with the
number of its line.  `forks` tells for each line whether its `fork` succeeds. -/
def startupLoop (forks : ℕ → Bool) : ℕ → List (List Byte) → List (ℕ × ServiceCall)
  | _, [] => []
  | i, line :: lines =>
    match startLine line with
    | none => startupLoop forks (i + 1) lines
    | some call =>
      if forks i then (i, call) :: startupLoop forks (i + 1) lines
      else startupLoop forks (i + 1) lines

/-- The string in `buf`, where the read gives the first `n` bytes of the file, or as many as
it asks for. -/
def startupBuf (file : List Byte) (n : ℕ) : List Byte := held startupBufSize n 0 file

/-- The services that are started. -/
def startup (forks : ℕ → Bool) (file : List Byte) (n : ℕ) : List (ℕ × ServiceCall) :=
  startupLoop forks 0 (scanLines lineEnd (startupBuf file n))

/-! ### What the file says -/

/-- The tokens of a line. -/
def lineTokens (line : List Byte) : List (List Byte) := Splitter.parts isSeparator line

/-- The line is a comment. -/
def IsComment (line : List Byte) : Prop := (line.dropWhile isSeparator).head? = some 35

/-- The leading `NAME=value` tokens of a line. -/
def assignments (line : List Byte) : List (List Byte) :=
  (lineTokens line).takeWhile isEnvAssignment

/-- The tokens after these. -/
def command (line : List Byte) : List (List Byte) := (lineTokens line).dropWhile isEnvAssignment

/-- The services are started from lines of the file, in their order, no line more than once.
Such a line is whole in the buffer and no comment, and the service gets all its assignments as
the environment and all its other tokens as the arguments. -/
structure StartupOk (forks : ℕ → Bool) (file : List Byte) (n : ℕ) : Prop where
  ordered : (startup forks file n).Pairwise fun p q => p.1 < q.1
  lines : ∀ p ∈ startup forks file n, ∃ line, (lines lineEnd file)[p.1]? = some line ∧
    (lines lineEnd (startupBuf file n))[p.1]? = some line ∧ ¬IsComment line ∧
    p.2.env = assignments line ∧ p.2.argv = command line

/-- No token is missing, and no assignment is taken for the program. -/
theorem StartupOk.tokens {forks : ℕ → Bool} {file : List Byte} {n : ℕ}
    (h : StartupOk forks file n) {p : ℕ × ServiceCall} (hp : p ∈ startup forks file n) :
    ∃ line, (Lines.lines lineEnd file)[p.1]? = some line ∧
      p.2.env ++ p.2.argv = lineTokens line ∧
      ∀ program ∈ p.2.argv.head?, isEnvAssignment program = false := by
  obtain ⟨line, hline, -, -, henv, hargv⟩ := h.lines p hp
  refine ⟨line, hline, ?_, ?_⟩
  · rw [henv, hargv]
    exact List.takeWhile_append_dropWhile
  · rw [hargv, command]
    intro program hprogram
    have := List.head?_dropWhile_not isEnvAssignment (lineTokens line)
    rw [Option.mem_def.1 hprogram] at this
    simpa using this

/-! ### The tokens of a line -/

section Line

variable {line : List Byte}

theorem tokenLoop_nil (room : ℕ) : tokenLoop room [] = [] := by
  cases room with
  | zero => rfl
  | succ room => rw [tokenLoop, if_pos rfl]

/-- The loop finds the tokens of the line, as far as there is room for them. -/
theorem tokenLoop_eq (s : List Byte) (room : ℕ) :
    tokenLoop room (s.dropWhile isSeparator) = (Splitter.parts isSeparator s).take room := by
  revert room
  refine parts_induction
    (P := fun s ws => ∀ room, tokenLoop room (s.dropWhile isSeparator) = ws.take room)
    (fun room => ?_) (fun a s ha ih room => ?_) (fun w t hne hw ht ih room => ?_) s
  · rw [List.dropWhile_nil, tokenLoop_nil, List.take_nil]
  · rw [List.dropWhile_cons_of_pos ha]
    exact ih room
  · cases room with
    | zero => rfl
    | succ room =>
      obtain ⟨a, w, rfl⟩ := List.exists_cons_of_ne_nil hne
      have hfirst : ¬isSeparator a = true := by simpa using hw a List.mem_cons_self
      have hpart : ∀ c ∈ a :: w, (!isSeparator c) = true := by simpa using hw
      have hstop : ∀ c ∈ t.head?, (!isSeparator c) = false := by
        rcases ht with rfl | ⟨b, r, rfl, hb⟩
        · exact fun c hc => absurd hc nofun
        · intro c hc
          obtain rfl := Option.some.inj hc
          rw [hb]
          rfl
      have htake : (a :: w ++ t).takeWhile (fun c => !isSeparator c) = a :: w := by
        rw [List.takeWhile_append_of_pos hpart]
        rcases t with _ | ⟨b, r⟩
        · rw [List.takeWhile_nil, List.append_nil]
        · rw [List.takeWhile_cons_of_neg (by simp [hstop b rfl]), List.append_nil]
      have hdrop : (a :: w ++ t).dropWhile (fun c => !isSeparator c) = t := by
        rw [List.dropWhile_append_of_pos hpart]
        rcases t with _ | ⟨b, r⟩
        · rfl
        · exact List.dropWhile_cons_of_neg (by simp [hstop b rfl])
      have hcons : (a :: w ++ t).dropWhile isSeparator = a :: w ++ t :=
        List.dropWhile_cons_of_neg hfirst
      have hany : a :: w ++ t ≠ [] := List.cons_ne_nil _ _
      rw [hcons, tokenLoop, if_neg hany, htake, hdrop, ih room,
        List.take_succ_cons]

/-- The line by its tokens. -/
theorem startLine_eq (h : ¬IsComment line) : startLine line =
    if ((lineTokens line).take 31).drop ((assignments line).take 15).length = [] then none
    else some (serviceCall
      ((((lineTokens line).take 31).drop ((assignments line).take 15).length).take 15)
      ((assignments line).take 15)) := by
  have henv : (((lineTokens line).take 31).take 15).takeWhile isEnvAssignment =
      (assignments line).take 15 := by
    rw [List.take_take, assignments, List.take_takeWhile]
    rfl
  rw [startLine]
  dsimp only
  by_cases hp : line.dropWhile isSeparator = []
  · have htokens : (lineTokens line).take 31 = [] := by
      rw [lineTokens, ← tokenLoop_eq, hp, tokenLoop_nil]
    rw [if_pos (.inl hp), htokens, List.drop_nil, if_pos rfl]
  · have hstart : ¬(line.dropWhile isSeparator = [] ∨
        (line.dropWhile isSeparator).head? = some 35) := not_or.2 ⟨hp, h⟩
    rw [if_neg hstart, tokenLoop_eq, ← lineTokens, henv]

theorem startLine_comment (h : IsComment line) : startLine line = none := by
  rw [startLine]
  exact if_pos (.inr h)

theorem env_serviceCall (sargv senv : List (List Byte)) : (serviceCall sargv senv).env = senv := by
  rw [serviceCall]
  split_ifs with hsenv
  · exact hsenv.symm
  · rfl

theorem argv_serviceCall (sargv senv : List (List Byte)) :
    (serviceCall sargv senv).argv = sargv := by
  rw [serviceCall]
  split_ifs
  · rfl
  · rfl

theorem drop_assignments (line : List Byte) :
    (lineTokens line).drop (assignments line).length = command line := by
  have hsplit : lineTokens line = assignments line ++ command line :=
    List.takeWhile_append_dropWhile.symm
  rw [hsplit, List.drop_left]

/-- A line with no more than 15 assignments. -/
theorem startLine_of_le (h : ¬IsComment line) (hlen : (assignments line).length ≤ 15) :
    startLine line = if command line = [] then none
      else some (serviceCall ((command line).take 15) (assignments line)) := by
  have hdrop : ((lineTokens line).take 31).drop (assignments line).length =
      (command line).take (31 - (assignments line).length) := by
    rw [List.drop_take, drop_assignments]
  have hnil : (command line).take (31 - (assignments line).length) = [] ↔ command line = [] := by
    rw [List.take_eq_nil_iff]
    constructor
    · rintro (hzero | hnil)
      · omega
      · exact hnil
    · exact .inr
  have htake : ((command line).take (31 - (assignments line).length)).take 15 =
      (command line).take 15 := by
    rw [List.take_take, Nat.min_eq_left (by omega)]
  rw [startLine_eq h, List.take_of_length_le hlen, hdrop, htake]
  by_cases hcommand : command line = []
  · rw [if_pos (hnil.2 hcommand), if_pos hcommand]
  · rw [if_neg fun hcut => hcommand (hnil.1 hcut), if_neg hcommand]

/-- A line with more is started, with 15 of them. -/
theorem startLine_of_lt (h : ¬IsComment line) (hlen : 15 < (assignments line).length) :
    ∃ call, startLine line = some call ∧ call.env.length = 15 := by
  have htake : ((assignments line).take 15).length = 15 := List.length_take_of_le (by omega)
  have hle : (assignments line).length ≤ (lineTokens line).length :=
    (List.takeWhile_prefix isEnvAssignment).length_le
  have hne : ((lineTokens line).take 31).drop 15 ≠ [] := by
    intro hnil
    have := congrArg List.length hnil
    rw [List.length_drop, List.length_take, List.length_nil] at this
    omega
  rw [startLine_eq h, htake, if_neg hne]
  refine ⟨_, rfl, ?_⟩
  rw [env_serviceCall, htake]

end Line

/-! ### The lines of the buffer -/

section Loop

variable {forks : ℕ → Bool} {i j : ℕ} {ls : List (List Byte)} {call : ServiceCall}

/-- **What the loop starts**: for each line that a service is to be started for, that service,
if there is a child for it. -/
theorem mem_startupLoop : (j, call) ∈ startupLoop forks i ls ↔
    ∃ k line, j = i + k ∧ ls[k]? = some line ∧ forks j = true ∧ startLine line = some call := by
  induction ls generalizing i with
  | nil => simp [startupLoop]
  | cons line ls ih =>
    -- the line in front is the first of the rest of the file, or one after it is
    have hfront : (∃ k l, j = i + k ∧ (line :: ls)[k]? = some l ∧ forks j = true ∧
        startLine l = some call) ↔ (j = i ∧ forks j = true ∧ startLine line = some call) ∨
          (j, call) ∈ startupLoop forks (i + 1) ls := by
      rw [ih]
      constructor
      · rintro ⟨k, l, rfl, hl, hfork, hcall⟩
        rcases k with _ | k
        · obtain rfl := Option.some.inj hl
          exact .inl ⟨rfl, hfork, hcall⟩
        · exact .inr ⟨k, l, by omega, hl, hfork, hcall⟩
      · rintro (⟨rfl, hfork, hcall⟩ | ⟨k, l, rfl, hl, hfork, hcall⟩)
        · exact ⟨0, line, rfl, rfl, hfork, hcall⟩
        · exact ⟨k + 1, l, by omega, hl, hfork, hcall⟩
    rw [hfront, startupLoop]
    cases hstart : startLine line with
    | none => simp
    | some first =>
      dsimp only
      split_ifs with hfork
      · rw [List.mem_cons, Prod.mk.injEq]
        constructor
        · rintro (⟨rfl, rfl⟩ | hmem)
          · exact .inl ⟨rfl, hfork, rfl⟩
          · exact .inr hmem
        · rintro (⟨rfl, -, hcall⟩ | hmem)
          · exact .inl ⟨rfl, (Option.some.inj hcall).symm⟩
          · exact .inr hmem
      · constructor
        · exact .inr
        · rintro (⟨rfl, hfork', -⟩ | hmem)
          · exact absurd hfork' hfork
          · exact hmem

/-- The lines are taken in their order. -/
theorem pairwise_startupLoop (forks : ℕ → Bool) (i : ℕ) (ls : List (List Byte)) :
    (startupLoop forks i ls).Pairwise fun p q => p.1 < q.1 := by
  induction ls generalizing i with
  | nil => exact .nil
  | cons line ls ih =>
    rw [startupLoop]
    cases startLine line with
    | none => exact ih (i + 1)
    | some call =>
      dsimp only
      split_ifs
      · refine .cons ?_ (ih (i + 1))
        rintro ⟨j, call'⟩ hmem
        obtain ⟨k, -, rfl, -⟩ := mem_startupLoop.1 hmem
        dsimp only
        omega
      · exact ih (i + 1)

end Loop

theorem mem_startup {forks : ℕ → Bool} {file : List Byte} {n i : ℕ} {call : ServiceCall} :
    (i, call) ∈ startup forks file n ↔ ∃ line,
      (lines lineEnd (startupBuf file n))[i]? = some line ∧ forks i = true ∧
        startLine line = some call := by
  rw [startup, scanLines_eq, mem_startupLoop]
  constructor
  · rintro ⟨k, line, rfl, hline, hfork, hcall⟩
    rw [Nat.zero_add] at *
    exact ⟨line, hline, hfork, hcall⟩
  · rintro ⟨line, hline, hfork, hcall⟩
    exact ⟨i, line, (Nat.zero_add i).symm, hline, hfork, hcall⟩

/-- A line that starts a service as it should, if it starts one: it has no more than 15
assignments, and either nothing else, or no more than 15 other tokens and is a line of the
file. -/
def Fits (file : List Byte) (i : ℕ) (line : List Byte) : Prop :=
  (assignments line).length ≤ 15 ∧ (command line = [] ∨
    (lines lineEnd file)[i]? = some line ∧ (command line).length ≤ 15)

/-- **When each service is started from a line of the file.**  For every file, every number of
bytes that the read gives, and whatever the `fork`s return: the services are started as the
lines of the file say, exactly if every line in the buffer that is no comment and for which
`fork` succeeds fits. -/
theorem startup_ok_iff (forks : ℕ → Bool) (file : List Byte) (n : ℕ) : StartupOk forks file n ↔
    ∀ i line, (lines lineEnd (startupBuf file n))[i]? = some line → forks i = true →
      ¬IsComment line → Fits file i line := by
  constructor
  · intro hok i line hline hfork hcomment
    have hfrom : ∀ call, startLine line = some call → (lines lineEnd file)[i]? = some line ∧
        call.env = assignments line ∧ call.argv = command line := by
      intro call hcall
      obtain ⟨line', hfile, hbuf, -, henv, hargv⟩ :=
        hok.lines (i, call) (mem_startup.2 ⟨line, hline, hfork, hcall⟩)
      obtain rfl := Option.some.inj (hline.symm.trans hbuf)
      exact ⟨hfile, henv, hargv⟩
    by_cases hlen : (assignments line).length ≤ 15
    · refine ⟨hlen, ?_⟩
      by_cases hnil : command line = []
      · exact .inl hnil
      · have hcall := startLine_of_le hcomment hlen
        rw [if_neg hnil] at hcall
        obtain ⟨hfile, -, hargv⟩ := hfrom _ hcall
        rw [argv_serviceCall] at hargv
        have hargc := congrArg List.length hargv
        rw [List.length_take] at hargc
        exact .inr ⟨hfile, by omega⟩
    · obtain ⟨call, hcall, henvc⟩ := startLine_of_lt hcomment (by omega)
      obtain ⟨-, henv, -⟩ := hfrom call hcall
      rw [henv] at henvc
      omega
  · intro hfits
    refine ⟨pairwise_startupLoop _ _ _, ?_⟩
    rintro ⟨i, call⟩ hp
    obtain ⟨line, hline, hfork, hcall⟩ := mem_startup.1 hp
    have hcomment : ¬IsComment line := by
      intro hcomment
      rw [startLine_comment hcomment] at hcall
      exact absurd hcall nofun
    obtain ⟨hlen, hrest⟩ := hfits i line hline hfork hcomment
    rw [startLine_of_le hcomment hlen] at hcall
    rcases hrest with hnil | ⟨hfile, hargc⟩
    · rw [if_pos hnil] at hcall
      exact absurd hcall nofun
    · by_cases hnil : command line = []
      · rw [if_pos hnil] at hcall
        exact absurd hcall nofun
      · rw [if_neg hnil, List.take_of_length_le hargc] at hcall
        obtain rfl := Option.some.inj hcall
        exact ⟨line, hfile, hline, hcomment, env_serviceCall _ _, argv_serviceCall _ _⟩

/-- A line of 16 tokens. -/
def sixteenTokens : List Byte :=
  [97, 32, 97, 32, 97, 32, 97, 32, 97, 32, 97, 32, 97, 32, 97, 32, 97, 32, 97, 32, 97, 32, 97, 32,
    97, 32, 97, 32, 97, 32, 97]

/-- **A line of 16 tokens**: the service gets 15 of them. -/
theorem not_startupOk : ¬StartupOk (fun _ => true) sixteenTokens 31 := by
  intro h
  have hbuf : startupBuf sixteenTokens 31 = sixteenTokens := by decide
  have hlines : lines lineEnd sixteenTokens = [sixteenTokens] := by
    rw [lines_of_notMem (by decide), if_neg (by decide)]
  have hcall : startLine sixteenTokens = some (.exec (List.replicate 15 [97])) := rfl
  have hmem : (0, ServiceCall.exec (List.replicate 15 [97])) ∈
      startup (fun _ => true) sixteenTokens 31 :=
    mem_startup.2 ⟨sixteenTokens, by rw [hbuf, hlines]; rfl, rfl, hcall⟩
  obtain ⟨line, hline, htokens, -⟩ := h.tokens hmem
  rw [hlines] at hline
  obtain rfl := Option.some.inj hline
  have hsixteen : (lineTokens sixteenTokens).take 16 = List.replicate 16 [97] := by
    rw [lineTokens, ← tokenLoop_eq]
    rfl
  rw [← htokens] at hsixteen
  exact absurd hsixteen (by decide)

end Tools
end V6User
