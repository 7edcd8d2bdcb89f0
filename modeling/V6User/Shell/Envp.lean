import Mathlib.Data.List.Dedup
import V6User.Base.Latest
import V6User.Shell.Assignments
import V6User.Shell.EnvMap

/-!
# The environment of a command

`programs/sh/sh.c`: `assignment_matches_name`, `copy_assignment_env`,
`assignment_has_later_override` and `build_exec_envp_with_assignments`, which merges the
table and the assignments before a command.

The first loop goes through the slots and takes for each the last assignment to its name,
and the second through the words and takes each assignment that has no later one to its
name and no slot.  Together they give each name once, with the value of the last
assignment to it or else that of the table (`buildExecEnvp_spec`).
-/

namespace V6User
namespace Shell

/-- `strncmp_local(a, b, n) == 0`. -/
def strncmpLocal (a b : List Byte) (n : ℕ) : Bool := a.take n == b.take n

/-- `assignment_matches_name(assignment, name)`. -/
def assignmentMatchesName (assignment name : List Byte) : Bool :=
  let alen := envAssignmentNameLen assignment
  if alen = 0 then false else alen == name.length && strncmpLocal assignment name alen

/-- What a row of `env_storage` is filled with. -/
def envRow (name value : List Byte) : List Byte :=
  name.take (maxEnvName - 1) ++ 61 :: value.take (maxEnvValue - 1)

/-- `copy_assignment_env(dst, assignment)`. -/
def copyAssignmentEnv (assignment : List Byte) : List Byte :=
  let nlen := envAssignmentNameLen assignment
  envRow (assignment.take nlen) (assignment.drop (nlen + 1))

/-- `assignment_has_later_override(assignv, assignc, idx)`, for a word and what comes after
it. -/
def assignmentHasLaterOverride (word : List Byte) (later : List (List Byte)) : Bool :=
  let nlen := envAssignmentNameLen word
  later.any fun w => nlen == envAssignmentNameLen w && strncmpLocal word w nlen

/-- The row for a slot: that of the last assignment to its name, if there is one. -/
def slotRow (assignv : List (List Byte)) (v : EnvVar) : Option (List Byte) :=
  if v.used then
    match assignv.foldl (fun m w => if assignmentMatchesName w v.name.bytes then some w else m)
      none with
    | some w => some (copyAssignmentEnv w)
    | none => some (envRow v.name.bytes v.value.bytes)
  else none

/-- The row for a word: none where it is no assignment, there is a later one to its name,
or a slot has it. -/
def wordRow (env : Env) (word : List Byte) (later : List (List Byte)) : Option (List Byte) :=
  if !isAssignment word || assignmentHasLaterOverride word later then none
  else if env.vars.any fun v => v.used && assignmentMatchesName word v.name.bytes then none
  else some (copyAssignmentEnv word)

/-- `build_exec_envp_with_assignments(assignv, assignc)`: the strings it points to, and the
null pointer. -/
def buildExecEnvp (env : Env) (assignv : List CStr) : List (Option (List Byte)) :=
  let words := assignv.map CStr.bytes
  let out := Latest.gather maxEnvVars (fun v _ => slotRow words v) env.vars []
  (Latest.gather maxEnvVars (wordRow env) words out).map some ++ [none]

/-! ### What the two loops take -/

/-- The name that a word assigns. -/
def wordKey (w : List Byte) : Option (List Byte) :=
  if isAssignment w then some (assignedName w) else none

/-- The value of a name for the command: that of the last assignment to it, or else that
of the table. -/
def mergedValue (env : Env) (words : List (List Byte)) (name : List Byte) : Option (List Byte) :=
  (lastValue (words.filter isAssignment) name).or (env.value name)

/-- What the first loop takes. -/
def slotPairs (env : Env) (words : List (List Byte)) : List (List Byte × List Byte) :=
  env.vars.filterMap fun v => v.key.map fun name =>
    (name, ((Latest.last wordKey words name).map assignedValue).getD v.value.bytes)

/-- What the second loop takes. -/
def wordPairs (env : Env) (words : List (List Byte)) : List (List Byte × List Byte) :=
  (Latest.latest wordKey words).filterMap fun p =>
    if p.1 ∈ Slots.keys EnvVar.key env.vars then none else some (p.1, assignedValue p.2)

section Rows

variable {env : Env} {w w' name value : List Byte} {words : List (List Byte)} {v : EnvVar}

theorem length_assignedName (w : List Byte) : (assignedName w).length = envAssignmentNameLen w := by
  rw [assignedName, List.length_take]
  refine Nat.min_eq_left ?_
  unfold envAssignmentNameLen
  dsimp only
  split_ifs
  · exact (List.takeWhile_sublist _).length_le
  · exact Nat.zero_le _

/-- `strncmp_local` of two names of one length. -/
theorem strncmpLocal_iff (hlen : envAssignmentNameLen w = name.length) :
    strncmpLocal w name (envAssignmentNameLen w) = true ↔ assignedName w = name := by
  rw [strncmpLocal, beq_iff_eq, ← assignedName, List.take_of_length_le (Nat.le_of_eq hlen.symm)]

theorem wordKey_eq_some_iff :
    wordKey w = some name ↔ isAssignment w = true ∧ assignedName w = name := by
  unfold wordKey
  split_ifs with h
  · exact ⟨fun heq => ⟨h, Option.some.inj heq⟩, fun heq => congrArg some heq.2⟩
  · exact ⟨nofun, fun heq => absurd heq.1 h⟩

theorem assignmentMatchesName_iff : assignmentMatchesName w name = true ↔ wordKey w = some name := by
  rw [wordKey_eq_some_iff, isAssignment, decide_eq_true_eq]
  unfold assignmentMatchesName
  dsimp only
  split_ifs with hpos
  · exact ⟨nofun, fun h => absurd hpos (Nat.ne_of_gt h.1)⟩
  · rw [Bool.and_eq_true_iff, beq_iff_eq]
    constructor
    · rintro ⟨hlen, hcmp⟩
      exact ⟨Nat.pos_of_ne_zero hpos, (strncmpLocal_iff hlen).1 hcmp⟩
    · rintro ⟨-, rfl⟩
      exact ⟨(length_assignedName w).symm, (strncmpLocal_iff (length_assignedName w).symm).2 rfl⟩

/-- The loop for the last match finds the last assignment to the name. -/
theorem foldl_match (m : Option (List Byte)) :
    words.foldl (fun m w => if assignmentMatchesName w name then some w else m) m =
      (Latest.last wordKey words name).or m := by
  induction words generalizing m with
  | nil => rfl
  | cons w words ih =>
    rw [List.foldl_cons, ih, Latest.last, Option.or_assoc]
    congr 1
    by_cases h : wordKey w = some name
    · rw [if_pos (assignmentMatchesName_iff.2 h), if_pos h]
      rfl
    · rw [if_neg (mt assignmentMatchesName_iff.1 h), if_neg h]
      rfl

/-- The value of the last assignment to a name. -/
theorem lastValue_filter : lastValue (words.filter isAssignment) name =
    (Latest.last wordKey words name).map assignedValue := by
  induction words with
  | nil => rfl
  | cons w words ih =>
    rw [Latest.last, Option.map_or, ← ih]
    by_cases hw : isAssignment w = true
    · rw [List.filter_cons_of_pos hw, lastValue]
      congr 1
      by_cases hname : name = assignedName w
      · rw [if_pos hname, if_pos (wordKey_eq_some_iff.2 ⟨hw, hname.symm⟩)]
        rfl
      · rw [if_neg hname, if_neg fun h => hname (wordKey_eq_some_iff.1 h).2.symm]
        rfl
    · rw [List.filter_cons_of_neg hw, if_neg fun h => hw (wordKey_eq_some_iff.1 h).1]
      exact (Option.or_none).symm

theorem any_slot_matches (h : wordKey w = some name) :
    (env.vars.any fun v => v.used && assignmentMatchesName w v.name.bytes) = true ↔
      name ∈ Slots.keys EnvVar.key env.vars := by
  rw [← any_isNamed_iff, List.any_eq_true, List.any_eq_true]
  have hmatch : ∀ m, assignmentMatchesName w m = true ↔ m = name := by
    intro m
    rw [assignmentMatchesName_iff, h, Option.some.injEq, eq_comm]
  simp only [EnvVar.isNamed, Bool.and_eq_true_iff, hmatch, beq_iff_eq]

theorem assignmentHasLaterOverride_iff (h : wordKey w = some name) :
    assignmentHasLaterOverride w words = true ↔ Latest.last wordKey words name ≠ none := by
  obtain ⟨hw, rfl⟩ := wordKey_eq_some_iff.1 h
  have hpos : 0 < envAssignmentNameLen w := of_decide_eq_true hw
  have hstep : ∀ u, (envAssignmentNameLen w == envAssignmentNameLen u &&
      strncmpLocal w u (envAssignmentNameLen w)) = true ↔ wordKey u = some (assignedName w) := by
    intro u
    rw [Bool.and_eq_true_iff, beq_iff_eq, strncmpLocal, beq_iff_eq, wordKey_eq_some_iff,
      isAssignment, decide_eq_true_eq]
    constructor
    · rintro ⟨hlen, hcmp⟩
      refine ⟨hlen ▸ hpos, ?_⟩
      rw [assignedName, assignedName, hcmp, hlen]
    · rintro ⟨-, hname⟩
      have hlen : envAssignmentNameLen w = envAssignmentNameLen u := by
        rw [← length_assignedName, ← length_assignedName, hname]
      refine ⟨hlen, ?_⟩
      rw [← assignedName, ← hname, assignedName, hlen]
  rw [ne_eq, Latest.last_eq_none_iff, assignmentHasLaterOverride, List.any_eq_true]
  simp only [hstep, not_forall, not_not, exists_prop]

theorem slotRow_eq : slotRow words v = (v.key.map fun name =>
    (name, ((Latest.last wordKey words name).map assignedValue).getD v.value.bytes)).map
      fun p => envRow p.1 p.2 := by
  unfold slotRow EnvVar.key
  split_ifs
  · rw [foldl_match, Option.or_none, Option.map_some, Option.map_some]
    cases hlast : Latest.last wordKey words v.name.bytes with
    | none => rfl
    | some w =>
      have hname := (wordKey_eq_some_iff.1 (Latest.key_of_last hlast).2).2
      exact congrArg (fun name => some (envRow name (assignedValue w))) hname
  · rfl

theorem wordRow_eq : wordRow env w words = (Latest.final wordKey w words).bind fun p =>
    if p.1 ∈ Slots.keys EnvVar.key env.vars then none
    else some (envRow p.1 (assignedValue p.2)) := by
  unfold wordRow
  by_cases hw : isAssignment w = true
  · have hkey : wordKey w = some (assignedName w) := wordKey_eq_some_iff.2 ⟨hw, rfl⟩
    by_cases hlater : assignmentHasLaterOverride w words = true
    · have hfinal : Latest.final wordKey w words = none := by
        refine Option.eq_none_iff_forall_ne_some.2 fun p hp => ?_
        obtain ⟨hnone, hk, -⟩ := Latest.final_eq_some_iff.1 hp
        exact (assignmentHasLaterOverride_iff hk).1 hlater hnone
      rw [hfinal, hlater, Bool.or_true, if_pos rfl]
      rfl
    · have hnone : Latest.last wordKey words (assignedName w) = none :=
        not_not.1 (mt (assignmentHasLaterOverride_iff hkey).2 hlater)
      rw [Latest.final_eq_some_iff.2 ⟨hnone, hkey, rfl⟩, Option.bind_some, hw,
        Bool.eq_false_iff.2 hlater, Bool.not_true, Bool.or_false, if_neg Bool.false_ne_true]
      dsimp only
      simp only [any_slot_matches hkey]
      rfl
  · have hfinal : Latest.final wordKey w words = none := by
      refine Option.eq_none_iff_forall_ne_some.2 fun p hp => ?_
      exact hw (wordKey_eq_some_iff.1 (Latest.final_eq_some_iff.1 hp).2.1).1
    rw [hfinal, Bool.eq_false_iff.2 hw, Bool.not_false, Bool.true_or, if_pos rfl]
    rfl

/-- The rows that the two loops fill. -/
theorem picks_rows (env : Env) (words : List (List Byte)) :
    Latest.picks (fun v _ => slotRow words v) env.vars ++
    Latest.picks (wordRow env) words =
      (slotPairs env words ++ wordPairs env words).map fun p => envRow p.1 p.2 := by
  rw [List.map_append, Latest.picks_const, slotPairs, wordPairs, List.map_filterMap,
    List.map_filterMap, Latest.latest, ← Latest.picks_bind]
  congr 1
  · exact congrArg (fun f => List.filterMap f env.vars) (funext fun v => slotRow_eq)
  · refine congrArg (fun f => Latest.picks f words) (funext₂ fun w later => ?_)
    rw [wordRow_eq]
    congr 1
    funext p
    split_ifs <;> rfl

/-! ### The pairs -/

theorem slotPairs_names (env : Env) (words : List (List Byte)) :
    (slotPairs env words).map Prod.fst = Slots.keys EnvVar.key env.vars := by
  rw [slotPairs, List.map_filterMap, Slots.keys]
  refine congrArg (fun f => List.filterMap f env.vars) (funext fun v => ?_)
  cases v.key <;> rfl

theorem mem_wordPairs_iff : (name, value) ∈ wordPairs env words ↔
    name ∉ Slots.keys EnvVar.key env.vars ∧
      (Latest.last wordKey words name).map assignedValue = some value := by
  rw [wordPairs, List.mem_filterMap, Option.map_eq_some_iff]
  constructor
  · rintro ⟨⟨k, w⟩, hp, heq⟩
    split_ifs at heq with hk
    obtain ⟨rfl, rfl⟩ := Prod.mk.inj (Option.some.inj heq)
    exact ⟨hk, w, Latest.mem_latest_iff.1 hp, rfl⟩
  · rintro ⟨hk, w, hlast, rfl⟩
    exact ⟨(name, w), Latest.mem_latest_iff.2 hlast, if_neg hk⟩

theorem wordPairs_names : (wordPairs env words).map Prod.fst =
    ((Latest.latest wordKey words).map Prod.fst).filter (· ∉ Slots.keys EnvVar.key env.vars) := by
  rw [wordPairs, List.map_filterMap, List.filter_map, ← List.filterMap_eq_filter,
    List.map_filterMap]
  refine congrArg (fun f => List.filterMap f _) (funext fun p => ?_)
  by_cases hp : p.1 ∈ Slots.keys EnvVar.key env.vars
  · simp [Option.guard, hp]
  · simp [Option.guard, hp]

/-- The two loops never take one name twice. -/
theorem nodup_names (words : List (List Byte)) (hd : env.Distinct) :
    ((slotPairs env words ++ wordPairs env words).map Prod.fst).Nodup := by
  rw [List.map_append, slotPairs_names, wordPairs_names]
  refine List.nodup_append.2 ⟨hd, Latest.nodup_latest.filter _, ?_⟩
  rintro a ha b hb rfl
  exact of_decide_eq_true (List.mem_filter.1 hb).2 ha

/-- What they take is what the command is to see. -/
theorem mem_pairs_iff (hd : env.Distinct) :
    (name, value) ∈ slotPairs env words ++ wordPairs env words ↔
      mergedValue env words name = some value := by
  have hvalue : env.value name =
      (Slots.lookup EnvVar.key env.vars name).map fun v => v.value.bytes := by
    rw [Env.value, envGet_eq, Option.map_map]
    rfl
  rw [List.mem_append, mem_wordPairs_iff, mergedValue, lastValue_filter, hvalue]
  by_cases hk : name ∈ Slots.keys EnvVar.key env.vars
  · obtain ⟨v, hv, hkey⟩ := List.mem_filterMap.1 hk
    have hslot : (name, value) ∈ slotPairs env words ↔
        ((Latest.last wordKey words name).map assignedValue).getD v.value.bytes = value := by
      rw [slotPairs, List.mem_filterMap]
      constructor
      · rintro ⟨v', hv', heq⟩
        obtain ⟨m, hm, heq⟩ := Option.map_eq_some_iff.1 heq
        obtain ⟨rfl, rfl⟩ := Prod.mk.inj heq
        have hsame := (Slots.lookup_of_mem hd hv' hm).symm.trans (Slots.lookup_of_mem hd hv hkey)
        rw [Option.some.inj hsame]
      · rintro rfl
        exact ⟨v, hv, by rw [hkey]; rfl⟩
    rw [hslot, Slots.lookup_of_mem hd hv hkey]
    cases (Latest.last wordKey words name).map assignedValue with
    | none => simp [hk]
    | some _ => simp [hk]
  · have hnot : (name, value) ∉ slotPairs env words := fun hmem =>
      hk (slotPairs_names env words ▸ List.mem_map_of_mem hmem)
    rw [Slots.lookup_eq_none_iff.2 hk]
    simp [hnot, hk]

/-- A name that the command is to see is in the table or assigned. -/
theorem mergedValue_isSome_iff : (∃ value, mergedValue env words name = some value) ↔
    name ∈ Slots.keys EnvVar.key env.vars ++ (words.filter isAssignment).map assignedName := by
  have hassigned : (∃ w, Latest.last wordKey words name = some w) ↔
      name ∈ (words.filter isAssignment).map assignedName := by
    rw [List.mem_map, ← Option.ne_none_iff_exists', ne_eq, Latest.last_eq_none_iff]
    simp only [wordKey_eq_some_iff, List.mem_filter, not_forall, not_not, exists_prop, and_assoc]
  have htable : (∃ value, env.value name = some value) ↔
      name ∈ Slots.keys EnvVar.key env.vars := by
    rw [← not_iff_not, ← Slots.lookup_eq_none_iff, Env.value, envGet_eq,
      ← Option.ne_none_iff_exists', not_not, Option.map_eq_none_iff, Option.map_eq_none_iff]
  rw [List.mem_append, ← hassigned, ← htable, mergedValue, lastValue_filter]
  cases Latest.last wordKey words name with
  | none => simp
  | some w => simp

/-- Short names and values are in a row as they are. -/
theorem envRow_eq (hname : name.length < maxEnvName) (hvalue : value.length < maxEnvValue) :
    envRow name value = name ++ 61 :: value := by
  have hn : name.take (maxEnvName - 1) = name := List.take_of_length_le (Nat.le_pred_of_lt hname)
  have hv : value.take (maxEnvValue - 1) = value :=
    List.take_of_length_le (Nat.le_pred_of_lt hvalue)
  rw [envRow, hn, hv]

/-- What the command is to see is short, where the assignments are. -/
theorem short_of_mergedValue (hshort : ∀ w ∈ words, isAssignment w = true → ShortAssignment w)
    (h : mergedValue env words name = some value) :
    name.length < maxEnvName ∧ value.length < maxEnvValue := by
  rw [mergedValue, Option.or_eq_some_iff] at h
  rcases h with h | ⟨-, h⟩
  · obtain ⟨w, hw, rfl, rfl⟩ := mem_of_lastValue h
    obtain ⟨hmem, hassign⟩ := List.mem_filter.1 hw
    obtain ⟨-, hname, hvalue⟩ := hshort w hmem hassign
    exact ⟨(length_assignedName w).trans_lt hname, hvalue⟩
  · rw [Env.value, envGet_eq, Option.map_map] at h
    obtain ⟨v, hv, rfl⟩ := Option.map_eq_some_iff.1 h
    exact ⟨EnvVar.key_length_lt (Slots.key_of_lookup hv), v.value_lt⟩

end Rows

/-- **The environment of a command is the table with the assignments over it.**  For a
table in which no name is there twice, and words whose names and values are short, with no
more than 64 names in all: the vector ends with the null pointer and holds a string
`NAME=value` for each name of the table or of an assignment, and no other; no name is there
twice, and its value is that of the last assignment to it or else that of the table. -/
theorem buildExecEnvp_spec (env : Env) (assignv : List CStr) (hd : env.Distinct)
    (hshort : ∀ w ∈ assignv.map CStr.bytes, isAssignment w = true → ShortAssignment w)
    (hcount : (Slots.keys EnvVar.key env.vars ++
      ((assignv.map CStr.bytes).filter isAssignment).map assignedName).dedup.length ≤ maxEnvVars) :
    ∃ pairs : List (List Byte × List Byte),
      buildExecEnvp env assignv = (pairs.map fun p => some (p.1 ++ 61 :: p.2)) ++ [none] ∧
      (pairs.map Prod.fst).Nodup ∧
      (∀ name, name ∈ pairs.map Prod.fst ↔ name ∈ Slots.keys EnvVar.key env.vars ++
        ((assignv.map CStr.bytes).filter isAssignment).map assignedName) ∧
      ∀ name value, (name, value) ∈ pairs ↔
        (lastValue ((assignv.map CStr.bytes).filter isAssignment) name).or (env.value name) =
          some value := by
  set words := assignv.map CStr.bytes with hwords
  have hnodup := nodup_names words hd
  have hnames : ∀ name, name ∈ (slotPairs env words ++ wordPairs env words).map Prod.fst ↔
      name ∈ Slots.keys EnvVar.key env.vars ++ (words.filter isAssignment).map assignedName := by
    intro name
    rw [← mergedValue_isSome_iff, List.mem_map]
    constructor
    · rintro ⟨⟨_, value⟩, hp, rfl⟩
      exact ⟨value, (mem_pairs_iff hd).1 hp⟩
    · rintro ⟨value, hvalue⟩
      exact ⟨(name, value), (mem_pairs_iff hd).2 hvalue, rfl⟩
  have hlen : (slotPairs env words ++ wordPairs env words).length ≤ maxEnvVars := by
    rw [← List.length_map (f := Prod.fst)]
    refine (List.subperm_of_subset hnodup fun name hname => ?_).length_le.trans hcount
    exact List.mem_dedup.2 ((hnames name).1 hname)
  refine ⟨slotPairs env words ++ wordPairs env words, ?_, hnodup, hnames, fun _ _ => mem_pairs_iff hd⟩
  have hrows := picks_rows env words
  -- neither loop stops for want of room
  have hfirst : Latest.gather maxEnvVars (fun v _ => slotRow words v) env.vars [] =
      Latest.picks (fun v _ => slotRow words v) env.vars := by
    refine Latest.gather_eq ?_
    have hsum := congrArg List.length hrows
    rw [List.length_append, List.length_map] at hsum
    rw [List.nil_append]
    omega
  have hsecond : Latest.gather maxEnvVars (wordRow env) words
      (Latest.picks (fun v _ => slotRow words v) env.vars) =
        (slotPairs env words ++ wordPairs env words).map fun p => envRow p.1 p.2 := by
    rw [← hrows]
    refine Latest.gather_eq ?_
    rw [hrows, List.length_map]
    exact hlen
  rw [buildExecEnvp, ← hwords, hfirst, hsecond, List.map_map]
  congr 1
  refine List.map_congr_left fun p hp => ?_
  obtain ⟨hname, hvalue⟩ := short_of_mergedValue hshort ((mem_pairs_iff hd).1 hp)
  exact congrArg some (envRow_eq hname hvalue)

/-- The words `X=a` and `X=b`, over a table that has no names. -/
theorem buildExecEnvp_spec_twice :
    ∃ pairs : List (List Byte × List Byte),
      buildExecEnvp .cleared [⟨[88, 61, 97], by decide⟩, ⟨[88, 61, 98], by decide⟩] =
        (pairs.map fun p => some (p.1 ++ 61 :: p.2)) ++ [none] ∧
      (pairs.map Prod.fst).Nodup ∧
      (∀ name, name ∈ pairs.map Prod.fst ↔ name ∈ Slots.keys EnvVar.key Env.cleared.vars ++
        ([[88, 61, 97], [88, 61, 98]].filter isAssignment).map assignedName) ∧
      ∀ name value, (name, value) ∈ pairs ↔
        (lastValue ([[88, 61, 97], [88, 61, 98]].filter isAssignment) name).or
          (Env.cleared.value name) = some value :=
  buildExecEnvp_spec .cleared [⟨[88, 61, 97], by decide⟩, ⟨[88, 61, 98], by decide⟩]
    distinct_cleared
    (List.forall_mem_cons.2 ⟨fun _ => ⟨by decide, by decide, by decide⟩,
      List.forall_mem_singleton.2 fun _ => ⟨by decide, by decide, by decide⟩⟩)
    (by decide)

end Shell
end V6User
