import V6User.Base.Splitter
import V6User.Shell.Builtins

/-!
# Candidates of the command search

`programs/sh/sh.c`: `exec_with_path_env`.

A word without a slash is tried as it is and then in each directory of `PATH`, with a path that
`memcpy` and `strcpy` put together in a buffer of 512 bytes.  Neither asks how long the word is:
a word of a command line can have some 2000 bytes.  The candidates are right exactly where the
directory, its slash, the word and the NUL have room in the buffer (`search_ok_iff`).
-/

namespace V6User
namespace Shell

open Splitter

/-- `sizeof(fullpath)`. -/
def fullpathSize : ℕ := 512

/-- `"PATH"`. -/
def pathName : List Byte := [80, 65, 84, 72]

/-- What the calls of `memcpy` and `strcpy` put into `fullpath` for a directory, byte after
byte from its first place. -/
def fullpath (cmd dir : List Byte) : List Byte :=
  dir ++ (if dir.getLast? ≠ some 47 then [47] else []) ++ cmd ++ [0]

/-- A call of `shell_exec_env`: with the word, or with `fullpath` as it has been filled. -/
inductive ExecPath where
  | word (cmd : List Byte)
  | fullpath (stored : List Byte)
  deriving DecidableEq

/-- The loop over `pathcopy`, from `p` on, with what it puts into `fullpath`.  A call of
`shell_exec_env` with the path of a program (`found`) does not come back. -/
def searchPath (found : List Byte → Bool) (cmd : List Byte) : List Byte → List (List Byte)
  | [] => []
  | c :: p =>
    let dir := (c :: p).takeWhile (· != 58)
    let rest := ((c :: p).dropWhile (· != 58)).drop 1
    if 0 < dir.length then
      fullpath cmd dir ::
        if found (CStr.ofBytes (fullpath cmd dir)).bytes then [] else searchPath found cmd rest
    else searchPath found cmd rest
termination_by p => p.length
decreasing_by
  all_goals
    have hle := (List.dropWhile_suffix (l := c :: p) (· != 58)).length_le
    rw [List.length_drop]
    rw [List.length_cons] at hle ⊢
    omega

/-- `exec_with_path_env(cmd, ..)`: its calls of `shell_exec_env`. -/
def execWithPathEnv (found : List Byte → Bool) (env : Env) (cmd : CStr) : List ExecPath :=
  .word cmd.bytes ::
    if cmd.bytes.contains 47 then []
    else if found cmd.bytes then []
    else match envGet env pathName with
      | none => []
      | some path =>
        (searchPath found cmd.bytes (path.bytes.take (maxEnvValue - 1))).map .fullpath

/-- The path of a word in a directory. -/
def candidate (cmd dir : List Byte) : List Byte :=
  dir ++ (if dir.getLast? ≠ some 47 then [47] else []) ++ cmd

/-- The directories that `PATH` names. -/
def pathDirectories (env : Env) : List (List Byte) :=
  ((envGet env pathName).map fun path => parts (· == 58) path.bytes).getD []

/-- The directories up to the first where the word is found. -/
def searched (found : List Byte → Bool) (cmd : List Byte) : List (List Byte) → List (List Byte)
  | [] => []
  | dir :: dirs => dir :: if found (candidate cmd dir) then [] else searched found cmd dirs

/-- The directories that are searched for a word. -/
def directoriesFor (found : List Byte → Bool) (env : Env) (cmd : CStr) : List (List Byte) :=
  if 47 ∈ cmd.bytes ∨ found cmd.bytes then []
  else searched found cmd.bytes (pathDirectories env)

/-- The buffer has room for what is put into it, and the string in it is the candidate. -/
structure CandidateOk (cmd dir stored : List Byte) : Prop where
  inside : stored.length ≤ fullpathSize
  path : (CStr.ofBytes stored).bytes = candidate cmd dir

/-- The word is tried as it is, and in the directories one after the other. -/
def SearchOk (dirs : List (List Byte)) (cmd : List Byte) (calls : List ExecPath) : Prop :=
  ∃ stored, calls = .word cmd :: stored.map .fullpath ∧ List.Forall₂ (CandidateOk cmd) dirs stored

/-- A word that `runcmd` calls `exec_with_path_env` with for the line in `buf`: the first in
`argv` that is no assignment. -/
def IsCommandWord (env : Env) (pid : ℕ) (buf : CStr) (cmd : List Byte) : Prop :=
  ∃ line argv, lineForm buf = .external line ∧ externalArgv env pid line = some argv ∧
    (argv.dropWhile fun w => decide (0 < envAssignmentNameLen w)).head? = some cmd

section Search

variable {found : List Byte → Bool} {env : Env} {cmd : CStr} {dir : List Byte}

theorem fullpath_eq (cmd dir : List Byte) : fullpath cmd dir = candidate cmd dir ++ [0] := rfl

/-- The string in `fullpath`. -/
theorem ofBytes_fullpath (cmd : CStr) (hdir : (0 : Byte) ∉ dir) :
    (CStr.ofBytes (fullpath cmd.bytes dir)).bytes = candidate cmd.bytes dir := by
  have hnul : (0 : Byte) ∉ candidate cmd.bytes dir := by
    rw [candidate, List.mem_append, List.mem_append]
    rintro ((h | h) | h)
    · exact hdir h
    · split_ifs at h
      · exact absurd (List.mem_singleton.1 h) (by decide)
      · exact absurd h List.not_mem_nil
    · exact cmd.nul_free h
  have hall : ∀ b ∈ candidate cmd.bytes dir, (b != 0) = true := by
    intro b hb
    rw [bne_iff_ne]
    rintro rfl
    exact hnul hb
  show (fullpath cmd.bytes dir).takeWhile (· != 0) = _
  rw [fullpath_eq, List.takeWhile_append_of_pos hall]
  simp

theorem searchPath_colon (cmd p : List Byte) :
    searchPath found cmd (58 :: p) = searchPath found cmd p := by
  rw [searchPath]
  rfl

/-- A directory, and what is left of `PATH` after it. -/
theorem searchPath_dir (cmd : List Byte) {w t : List Byte} (hw : w ≠ [])
    (hno : ∀ a ∈ w, (a == 58) = false) (ht : t = [] ∨ ∃ a r, t = a :: r ∧ (a == 58) = true) :
    searchPath found cmd (w ++ t) =
      fullpath cmd w :: if found (CStr.ofBytes (fullpath cmd w)).bytes then []
        else searchPath found cmd t := by
  have hall : ∀ a ∈ w, (a != 58) = true := fun a ha => by rw [bne, hno a ha]; rfl
  have htake : (w ++ t).takeWhile (· != 58) = w := by
    rw [List.takeWhile_append_of_pos hall]
    rcases ht with rfl | ⟨a, r, rfl, ha⟩
    · exact List.append_nil w
    · rw [List.takeWhile_cons_of_neg (by rw [bne, ha]; decide), List.append_nil]
  have hdrop : (w ++ t).dropWhile (· != 58) = t := by
    rw [List.dropWhile_append_of_pos hall]
    rcases ht with rfl | ⟨a, r, rfl, ha⟩
    · rfl
    · exact List.dropWhile_cons_of_neg (by rw [bne, ha]; decide)
  have hrest : searchPath found cmd (t.drop 1) = searchPath found cmd t := by
    rcases ht with rfl | ⟨a, r, rfl, ha⟩
    · rfl
    · rw [beq_iff_eq.1 ha, searchPath_colon]
      rfl
  obtain ⟨c, w', rfl⟩ := List.exists_cons_of_ne_nil hw
  rw [List.cons_append] at htake hdrop ⊢
  rw [searchPath]
  simp only [htake, hdrop, hrest]
  rw [if_pos (List.length_pos_iff.2 hw)]

/-- **The loop goes through the directories.** -/
theorem searchPath_eq (cmd : CStr) {p : List Byte} (hp : (0 : Byte) ∉ p) :
    searchPath found cmd.bytes p =
      (searched found cmd.bytes (parts (· == 58) p)).map (fullpath cmd.bytes) := by
  revert hp
  refine parts_induction (P := fun p dirs => (0 : Byte) ∉ p → searchPath found cmd.bytes p =
    (searched found cmd.bytes dirs).map (fullpath cmd.bytes)) ?nil ?sep ?part p
  case nil =>
    intro _
    rw [searchPath]
    rfl
  case sep =>
    intro a s ha ih hp
    rw [beq_iff_eq.1 ha, searchPath_colon]
    exact ih fun h => hp (List.mem_cons_of_mem a h)
  case part =>
    intro w t hw hno ht ih hp
    have hwt := not_or.1 (fun h => hp (List.mem_append.2 h))
    rw [searchPath_dir cmd.bytes hw hno ht, searched, ofBytes_fullpath cmd hwt.1, List.map_cons,
      ih hwt.2]
    split_ifs <;> rfl

/-- The calls, for every word and every table. -/
theorem execWithPathEnv_eq (found : List Byte → Bool) (env : Env) (cmd : CStr) :
    execWithPathEnv found env cmd = .word cmd.bytes ::
      ((directoriesFor found env cmd).map (fullpath cmd.bytes)).map .fullpath := by
  rw [execWithPathEnv, directoriesFor, pathDirectories]
  congr 1
  by_cases hslash : 47 ∈ cmd.bytes
  · rw [if_pos (List.contains_iff_mem.2 hslash), if_pos (.inl hslash)]
    rfl
  · by_cases hfound : found cmd.bytes = true
    · rw [if_neg (by rwa [List.contains_iff_mem]), if_pos hfound, if_pos (.inr hfound)]
      rfl
    · rw [if_neg (by rwa [List.contains_iff_mem]), if_neg hfound, if_neg (by tauto)]
      cases hpath : envGet env pathName with
      | none => rfl
      | some path =>
        have hlen : path.bytes.length ≤ maxEnvValue - 1 := by
          obtain ⟨var, -, rfl⟩ := Option.map_eq_some_iff.1 hpath
          exact Nat.le_sub_one_of_lt var.value_lt
        dsimp only
        rw [List.take_of_length_le hlen, searchPath_eq cmd path.nul_free]
        rfl

theorem mem_of_mem_searched {dirs : List (List Byte)} {cmd : List Byte} :
    dir ∈ searched found cmd dirs → dir ∈ dirs := by
  induction dirs with
  | nil => exact id
  | cons d dirs ih =>
    intro h
    rw [searched] at h
    rcases List.mem_cons.1 h with rfl | h
    · exact List.mem_cons_self
    · split_ifs at h
      · exact absurd h List.not_mem_nil
      · exact List.mem_cons_of_mem _ (ih h)

theorem nul_notMem_directoriesFor (h : dir ∈ directoriesFor found env cmd) : (0 : Byte) ∉ dir := by
  rw [directoriesFor] at h
  split_ifs at h
  · exact absurd h List.not_mem_nil
  · have hmem := mem_of_mem_searched h
    rw [pathDirectories] at hmem
    cases hpath : envGet env pathName with
    | none =>
      rw [hpath] at hmem
      exact absurd hmem List.not_mem_nil
    | some path =>
      rw [hpath] at hmem
      exact fun h0 => path.nul_free (mem_of_mem_parts hmem h0)

/-- One candidate is right if there is room for it. -/
theorem candidateOk_iff (cmd : CStr) (hdir : (0 : Byte) ∉ dir) :
    CandidateOk cmd.bytes dir (fullpath cmd.bytes dir) ↔
      (candidate cmd.bytes dir).length < fullpathSize := by
  have hlen : (fullpath cmd.bytes dir).length = (candidate cmd.bytes dir).length + 1 := by
    rw [fullpath_eq, List.length_append, List.length_singleton]
  constructor
  · intro h
    have hinside := h.inside
    omega
  · intro h
    exact ⟨by omega, ofBytes_fullpath cmd hdir⟩

theorem searchOk_iff {dirs stored : List (List Byte)} {cmd : List Byte} :
    SearchOk dirs cmd (.word cmd :: stored.map .fullpath) ↔
      List.Forall₂ (CandidateOk cmd) dirs stored := by
  constructor
  · rintro ⟨stored', hcalls, hok⟩
    have hinj : Function.Injective ExecPath.fullpath := fun _ _ h => ExecPath.fullpath.inj h
    obtain rfl := hinj.list_map (List.cons.inj hcalls).2
    exact hok
  · intro hok
    exact ⟨stored, rfl, hok⟩

/-- **When the search is right.**  For every word and every value of `PATH`, and whichever paths
are programs: exactly if each of the directories that are searched, with a slash after it, the
word and the NUL, has room in the buffer. -/
theorem search_ok_iff (found : List Byte → Bool) (env : Env) (cmd : CStr) :
    SearchOk (directoriesFor found env cmd) cmd.bytes (execWithPathEnv found env cmd) ↔
      ∀ dir ∈ directoriesFor found env cmd, (candidate cmd.bytes dir).length < fullpathSize := by
  have hdirs : ∀ dir ∈ directoriesFor found env cmd,
      (CandidateOk cmd.bytes dir (fullpath cmd.bytes dir) ↔
        (candidate cmd.bytes dir).length < fullpathSize) :=
    fun dir h => candidateOk_iff cmd (nul_notMem_directoriesFor h)
  rw [execWithPathEnv_eq, searchOk_iff, List.forall₂_map_right_iff, List.forall₂_same]
  exact forall₂_congr hdirs

end Search

/-! ### A word that does not fit -/

theorem isEnvAssignmentWord_of_notMem {w : CStr} (h : 61 ∉ w.bytes) :
    isEnvAssignmentWord w = false := by
  have hcontains : w.bytes.contains 61 = false := by
    rwa [← Bool.not_eq_true, List.contains_iff_mem]
  rw [isEnvAssignmentWord, envAssignmentNameLen, hcontains, Bool.and_false]
  rfl

/-- A line that begins with `a` and has no `=` is no builtin and no assignment. -/
theorem lineFormOf_of_cons {line : CStr} {l : List Byte} (hline : line.bytes = 97 :: l)
    (heq : 61 ∉ line.bytes) : lineFormOf line = .external line := by
  have hblank : isBlankLine line = false := by
    rw [isBlankLine, hline]
    rfl
  have hwords : ¬(blankWords line ≠ [] ∧ (blankWords line).all isEnvAssignmentWord = true) := by
    rintro ⟨hne, hall⟩
    obtain ⟨w, hw⟩ := List.exists_mem_of_ne_nil _ hne
    obtain ⟨part, hpart, rfl⟩ := List.mem_map.1 hw
    have hsub : ∀ b ∈ (CStr.ofBytes part).bytes, b ∈ line.bytes := fun b hb =>
      List.mem_of_mem_take (mem_of_mem_parts hpart ((List.takeWhile_prefix _).subset hb))
    rw [List.all_eq_true] at hall
    have hno := isEnvAssignmentWord_of_notMem fun h => heq (hsub 61 h)
    exact Bool.false_ne_true (hno.symm.trans (hall _ hw))
  have hstarts : ∀ c s, c ≠ 97 → line.startsWith (c :: s) = false := by
    intro c s hc
    rw [CStr.startsWith, hline, List.isPrefixOf, beq_false_of_ne hc]
    rfl
  rw [lineFormOf, hblank, if_neg hwords]
  simp [hstarts]

/-- The words of a line that the expander copies. -/
theorem externalArgv_of_copied {line : CStr} {ws : List (List Byte)} (env : Env) (pid : ℕ)
    (hcopied : ∀ b ∈ line.bytes, b ≠ squote ∧ b ≠ dollar) (hlen : line.bytes.length ≤ expandMax)
    (hspells : Spells line.bytes ws) (hmax : ws.length < maxArgs) :
    externalArgv env pid line = some ws := by
  have hpieces := pieces_prefix hcopied []
  rw [List.append_nil, pieces, List.append_nil] at hpieces
  have hfull : fullExpansion env pid line = line.bytes := by
    rw [fullExpansion, hpieces, fullText_map_byte]
  have hclear : (expandEnvVars env pid line).truncated = false := by
    have hiff := @expandLoop_truncated_iff env pid false 0 line.bytes [] (Nat.zero_le _)
    rw [hpieces, ← List.map_dropLast, fullText_map_byte, List.length_dropLast] at hiff
    rw [← Bool.not_eq_true, expandEnvVars, hiff, List.length_nil]
    rintro ⟨hne, hle⟩
    have hpos : 0 < line.bytes.length :=
      List.length_pos_iff.2 fun h => hne (by rw [h, List.map_nil])
    omega
  have hbytes : (expanded env pid line).bytes = line.bytes := by
    rw [expanded_bytes line (by rwa [hfull]), hfull]
  rw [externalArgv, hclear, if_neg Bool.false_ne_true]
  rw [← hbytes] at hspells
  exact argvOf_spells hspells hmax

/-- **Words that reach the search**: `a`s, as many as there is room for in a line. -/
theorem isCommandWord_replicate (env : Env) (pid : ℕ) {n : ℕ} (hn : n < lineBufSize - 2)
    (hnul : (0 : Byte) ∉ List.replicate (n + 1) 97) :
    IsCommandWord env pid ⟨List.replicate (n + 1) 97, hnul⟩ (List.replicate (n + 1) 97) := by
  have hsize : lineBufSize = 1024 := rfl
  have hmem : ∀ b ∈ List.replicate (n + 1) (97 : Byte) ++ [newline], b = 97 ∨ b = newline := by
    intro b hb
    rcases List.mem_append.1 hb with hb | hb
    · exact .inl (List.eq_of_mem_replicate hb)
    · exact .inr (List.mem_singleton.1 hb)
  have hnul' : (0 : Byte) ∉ List.replicate (n + 1) 97 ++ [newline] := fun h =>
    absurd (hmem 0 h) (by decide)
  have hline : withNewline ⟨List.replicate (n + 1) 97, hnul⟩ =
      some ⟨List.replicate (n + 1) 97 ++ [newline], hnul'⟩ := by
    have hlast : (List.replicate (n + 1) (97 : Byte)).getLast? ≠ some newline := by
      rw [List.getLast?_replicate, if_neg (Nat.succ_ne_zero n)]
      decide
    rw [withNewline, if_pos ⟨List.cons_ne_nil _ _, hlast⟩, if_pos]
    rw [List.length_replicate]
    omega
  have hplain : PlainWord (List.replicate (n + 1) (97 : Byte)) := by
    refine ⟨List.cons_ne_nil _ _, fun b hb => ?_⟩
    rw [List.eq_of_mem_replicate hb]
    decide
  have hspells : Spells (List.replicate (n + 1) 97 ++ [newline]) [List.replicate (n + 1) 97] :=
    .cons (fun b hb => absurd hb List.not_mem_nil) hplain (.inr ⟨newline, [], rfl, by decide⟩)
      (.nil (List.forall_mem_singleton.2 rfl))
  have hargv : externalArgv env pid ⟨List.replicate (n + 1) 97 ++ [newline], hnul'⟩ =
      some [List.replicate (n + 1) 97] := by
    refine externalArgv_of_copied env pid (fun b hb => ?_) ?_ hspells ?_
    · rcases hmem b hb with rfl | rfl <;> decide
    · rw [List.length_append, List.length_replicate]
      show n + 1 + 1 ≤ 2047
      omega
    · exact (by decide : 1 < maxArgs)
  have hno : envAssignmentNameLen (List.replicate (n + 1) 97) = 0 := by
    have hword : isEnvAssignmentWord ⟨List.replicate (n + 1) 97, hnul⟩ = false :=
      isEnvAssignmentWord_of_notMem fun h => absurd (List.eq_of_mem_replicate h) (by decide)
    exact Nat.eq_zero_of_not_pos (of_decide_eq_false hword)
  refine ⟨_, _, ?_, hargv, ?_⟩
  · rw [lineForm, hline]
    exact lineFormOf_of_cons rfl fun h => absurd (hmem 61 h) (by decide)
  · rw [List.dropWhile_cons_of_neg (by rw [hno]; decide)]
    rfl

/-- The table with `PATH=/bin`. -/
def binPath : Env :=
  (envSet .cleared ⟨pathName, by decide⟩ ⟨[47, 98, 105, 110], by decide⟩).getD .cleared

/-- **A word that does not fit.**  For a word of 600 bytes in `/bin` 606 bytes are put into
`fullpath`. -/
theorem not_searchOk : ∃ buf cmd, IsCommandWord binPath 1 buf cmd.bytes ∧
    ¬SearchOk (directoriesFor (fun _ => false) binPath cmd) cmd.bytes
      (execWithPathEnv (fun _ => false) binPath cmd) := by
  have hnul : (0 : Byte) ∉ List.replicate 600 97 := fun h =>
    absurd (List.eq_of_mem_replicate h) (by decide)
  refine ⟨⟨_, hnul⟩, ⟨_, hnul⟩, isCommandWord_replicate binPath 1 (by decide) hnul, ?_⟩
  have hdirs : directoriesFor (fun _ => false) binPath ⟨List.replicate 600 97, hnul⟩ =
      [[47, 98, 105, 110]] := by
    rw [directoriesFor, if_neg]
    · rfl
    · rintro (h | h)
      · exact absurd (List.eq_of_mem_replicate h) (by decide)
      · exact Bool.false_ne_true h
  intro hok
  rw [execWithPathEnv_eq, hdirs, searchOk_iff] at hok
  have hfits := (List.forall₂_cons.1 hok).1.inside
  rw [fullpath_eq, candidate, List.length_append, List.length_append, List.length_append,
    List.length_replicate] at hfits
  exact absurd hfits (by decide)

end Shell
end V6User
