import V6User.Base.Distinct
import V6User.Base.Splitter
import V6User.Shell.Completion

/-!
# What a Tab types

`programs/sh/sh.c`: `add_matches_from_dir` to `do_tab_completion`, against all names that the
typed word could be completed to (`candidates`).

`matches` has room for 64 names, and the common prefix is that of the names in it.  So a Tab
types what continues the word in all candidates exactly where the names that found no room
begin with the common prefix of the others, or nothing is typed at all.  A word of more than
255 bytes is completed as its first 255 bytes would be, which is right where nothing is typed
(`completion_ok`).
-/

namespace V6User
namespace Shell

open Distinct Splitter

/-! ### The candidates -/

/-- The word before the cursor, of any length. -/
def typedWord (buf : List Byte) (cursor : ℕ) : CStr :=
  CStr.ofBytes ((buf.drop (wordStart buf cursor)).take (cursor - wordStart buf cursor))

/-- Whether the word is in the place of a command. -/
def inCommandPlace (buf : List Byte) (cursor : ℕ) : Bool :=
  isFirstWord (buf.take (wordStart buf cursor))

/-- The directory of a word, with its slash, and what of the word comes after it. -/
def wordDir (word : CStr) : CStr × CStr :=
  match lastSlash none 0 word.bytes with
  | some slash => (word.take (slash + 1), word.drop (slash + 1))
  | none => (.dot, word)

/-- The entry has a name that the word can be completed to. -/
def Completes (v : View) (dir start : CStr) (executablesOnly : Bool) (de : Dirent) : Prop :=
  de.ino ≠ 0 ∧ de.name.startsWith start.bytes ∧ de.name.bytes ≠ [46] ∧ de.name.bytes ≠ [46, 46] ∧
    (executablesOnly → v.isReg (entryPath dir de.name))

instance (v : View) (dir start : CStr) (executablesOnly : Bool) :
    DecidablePred (Completes v dir start executablesOnly) := fun de =>
  inferInstanceAs (Decidable (de.ino ≠ 0 ∧ de.name.startsWith start.bytes ∧
    de.name.bytes ≠ [46] ∧ de.name.bytes ≠ [46, 46] ∧
    (executablesOnly → v.isReg (entryPath dir de.name))))

/-- The names of a directory that the word can be completed to. -/
def dirNames (v : View) (dir start : CStr) (executablesOnly : Bool) : List CStr :=
  (((v.entries dir).getD []).filter fun de => decide (Completes v dir start executablesOnly de)).map
    Dirent.name

/-- All names that the word can be completed to, each of them once: those in its directory,
and in the place of a command also the programs in the directories of `PATH` and the
builtins. -/
def candidates (v : View) (first : Bool) (dir start : CStr) : List CStr :=
  (if first ∧ dir = .dot then
    dirNames v .dot start false ++
      ((v.path.map pathDirs).getD []).flatMap (fun dir => dirNames v dir start true) ++
      builtins.filter fun b => b.startsWith start.bytes
  else dirNames v dir start false).eraseDups

/-- The beginning that names have in common. -/
def commonText : List CStr → List Byte
  | [] => []
  | m :: others => m.bytes.take (commonPrefixLen (m :: others))

/-- The bytes that are handed to `line_insert_char`. -/
def Completion.typed : Completion → List Byte
  | .type s => s
  | .bell | .choose _ => []

/-- What is typed goes on with the word as all candidates do, and ends with a slash or a blank
only if there is exactly one. -/
def Extends (cs : List CStr) (start : CStr) (s : List Byte) : Prop :=
  s = [] ∨ cs ≠ [] ∧ ∃ rest last, s = rest ++ last ∧
    (∀ c ∈ cs, start.bytes ++ rest <+: c.bytes) ∧
    (last = [] ∨ (last = [47] ∨ last = [space]) ∧ cs.length = 1)

/-- What a Tab types extends the typed word. -/
def TabOk (v : View) (buf : List Byte) (cursor : ℕ) : Prop :=
  Extends
    (candidates v (inCommandPlace buf cursor) (wordDir (typedWord buf cursor)).1
      (wordDir (typedWord buf cursor)).2)
    (wordDir (typedWord buf cursor)).2 (completion v buf cursor).typed

/-! ### The table -/

section Table

variable {v : View} {dir start : CStr} {executablesOnly : Bool} {found : List CStr}

theorem addMatch_eq (de : Dirent) : addMatch v dir start executablesOnly found de =
    if Completes v dir start executablesOnly de then add maxMatches found de.name else found := by
  have hcond : (found.length < maxMatches ∧ de.ino ≠ 0 ∧ de.name.startsWith start.bytes ∧
      de.name.bytes ≠ [46] ∧ de.name.bytes ≠ [46, 46] ∧ de.name ∉ found ∧
      (executablesOnly → v.isReg (entryPath dir de.name))) ↔
      Completes v dir start executablesOnly de ∧ found.length < maxMatches ∧ de.name ∉ found := by
    unfold Completes
    tauto
  rw [addMatch, add, if_congr hcond rfl rfl]
  by_cases h : Completes v dir start executablesOnly de <;> simp [h]

/-- The names of a directory are put into the table. -/
theorem addMatchesFromDir_eq : addMatchesFromDir v dir start executablesOnly found =
    collect maxMatches found (dirNames v dir start executablesOnly) := by
  have hloop : ∀ es : List Dirent, es.foldl (addMatch v dir start executablesOnly) found =
      collect maxMatches found ((es.filter fun de =>
        decide (Completes v dir start executablesOnly de)).map Dirent.name) := by
    intro es
    induction es generalizing found with
    | nil => rfl
    | cons de es ih =>
      rw [List.foldl_cons, addMatch_eq, ih, List.filter_cons]
      by_cases h : Completes v dir start executablesOnly de <;> simp [h, collect]
  rw [addMatchesFromDir, dirNames]
  cases v.entries dir with
  | none => rfl
  | some es => exact hloop es

theorem foldl_addBuiltin (bs : List CStr) : bs.foldl (addBuiltin start) found =
    collect maxMatches found (bs.filter fun b => b.startsWith start.bytes) := by
  induction bs generalizing found with
  | nil => rfl
  | cons b bs ih =>
    rw [List.foldl_cons, ih, List.filter_cons]
    by_cases h : b.startsWith start.bytes = true <;> simp [h, addBuiltin, collect, add]

/-- **The table holds the first 64 candidates.** -/
theorem table_eq (first : Bool) : (if first ∧ dir = .dot then collectPathMatches v start
      else addMatchesFromDir v dir start false []) =
    (candidates v first dir start).take maxMatches := by
  rw [candidates]
  split_ifs
  · rw [collectPathMatches]
    simp only [addMatchesFromDir_eq]
    rw [foldl_collect, foldl_addBuiltin, ← collect_append, ← collect_append, collect_eq,
      List.append_assoc]
  · rw [addMatchesFromDir_eq, collect_eq]

theorem mem_dirNames {m : CStr} (h : m ∈ dirNames v dir start executablesOnly) :
    start.bytes <+: m.bytes := by
  obtain ⟨de, hde, rfl⟩ := List.mem_map.1 h
  have hcompletes := of_decide_eq_true (List.mem_filter.1 hde).2
  exact List.isPrefixOf_iff_prefix.1 hcompletes.2.1

/-- All candidates begin with the word. -/
theorem mem_candidates {first : Bool} {m : CStr} (h : m ∈ candidates v first dir start) :
    start.bytes <+: m.bytes := by
  rw [candidates, List.mem_eraseDups] at h
  split_ifs at h
  · simp only [List.mem_append, List.mem_flatMap, List.mem_filter] at h
    rcases h with (h | ⟨d, -, h⟩) | ⟨-, h⟩
    · exact mem_dirNames h
    · exact mem_dirNames h
    · exact List.isPrefixOf_iff_prefix.1 h
  · exact mem_dirNames h

end Table

/-! ### The common prefix -/

section Common

variable {m : CStr} {others found : List CStr}

/-- Each byte that the loop passes is in all names. -/
theorem commonPrefixFrom_spec {done s : List Byte} (h : (0 : Byte) ∉ s)
    (hdone : ∀ o ∈ others, done <+: o.bytes) :
    ∃ k, commonPrefixFrom others s done.length = done.length + k ∧ k ≤ s.length ∧
      ∀ o ∈ others, done ++ s.take k <+: o.bytes := by
  induction s generalizing done with
  | nil => exact ⟨0, rfl, Nat.le_refl 0, by simpa using hdone⟩
  | cons c s ih =>
    rw [commonPrefixFrom]
    split_ifs with hall
    · have hc : c ≠ 0 := fun hc => h (hc ▸ List.mem_cons_self)
      have hnext : ∀ o ∈ others, done ++ [c] <+: o.bytes := by
        intro o ho
        obtain ⟨r, hr⟩ := hdone o ho
        have hbyte : o.at done.length = c := by simpa using List.all_eq_true.1 hall o ho
        rcases r with _ | ⟨d, r⟩
        · -- the name ends here, and its NUL is no byte of the first one
          rw [CStr.at, ← hr] at hbyte
          exact absurd (by simpa using hbyte.symm) hc
        · obtain rfl : d = c := by
            rw [CStr.at, ← hr] at hbyte
            simpa using hbyte
          exact ⟨r, by rw [← hr, List.append_assoc, List.singleton_append]⟩
      have hs : (0 : Byte) ∉ s := fun hs => h (List.mem_cons_of_mem c hs)
      obtain ⟨k, heq, hle, hpre⟩ := ih hs hnext
      rw [List.length_append, List.length_singleton] at heq
      refine ⟨k + 1, ?_, Nat.succ_le_succ hle, fun o ho => ?_⟩
      · rw [heq, Nat.add_assoc, Nat.add_comm 1 k]
      · rw [List.take_succ_cons]
        simpa using hpre o ho
    · exact ⟨0, rfl, Nat.zero_le _, by simpa using hdone⟩

theorem commonPrefixLen_spec (m : CStr) (others : List CStr) :
    commonPrefixLen (m :: others) ≤ m.bytes.length ∧
      ∀ o ∈ others, m.bytes.take (commonPrefixLen (m :: others)) <+: o.bytes := by
  rcases others with _ | ⟨n, others⟩
  · exact ⟨Nat.le_refl _, fun o ho => absurd ho List.not_mem_nil⟩
  · obtain ⟨k, heq, hle, hpre⟩ := @commonPrefixFrom_spec (n :: others) [] m.bytes m.nul_free
      fun o _ => List.nil_prefix
    have hlen : commonPrefixLen (m :: n :: others) = k := by
      simpa [commonPrefixLen] using heq
    rw [hlen]
    exact ⟨hle, by simpa using hpre⟩

/-- **The common prefix begins all names.** -/
theorem commonText_begins : ∀ o ∈ found, commonText found <+: o.bytes := by
  rcases found with _ | ⟨m, others⟩
  · exact fun o ho => absurd ho List.not_mem_nil
  · exact List.forall_mem_cons.2 ⟨List.take_prefix _ _, (commonPrefixLen_spec m others).2⟩

theorem length_commonText : (commonText found).length = commonPrefixLen found := by
  rcases found with _ | ⟨m, others⟩
  · rfl
  · exact List.length_take_of_le (commonPrefixLen_spec m others).1

end Common

/-! ### What is typed -/

section Typed

variable {v : View} {dir start : CStr} {found cs : List CStr}

/-- The bytes that a table makes the function type. -/
def insertion (v : View) (dir start : CStr) (found : List CStr) : List Byte :=
  match found with
  | [] => []
  | m :: others =>
    if start.bytes.length < commonPrefixLen (m :: others) then
      (commonText (m :: others)).drop start.bytes.length ++
        if others = [] then
          [if v.isDir (if dir = .dot then m else dir.append m) then 47 else space]
        else []
    else []

theorem lastSlash_lt {s : List Byte} {p q : ℕ} (h : lastSlash none p s = some q) :
    q < p + s.length := by
  have hgeneral : ∀ (s : List Byte) (slash : Option ℕ) (p q : ℕ), lastSlash slash p s = some q →
      slash = some q ∨ q < p + s.length := by
    intro s
    induction s with
    | nil => exact fun slash p q h => .inl h
    | cons c s ih =>
      intro slash p q h
      rw [lastSlash] at h
      rw [List.length_cons]
      rcases ih _ _ _ h with hslash | hlt
      · split_ifs at hslash
        · obtain rfl := Option.some.inj hslash
          exact .inr (by omega)
        · exact .inl hslash
      · exact .inr (by omega)
  rcases hgeneral s none p q h with hnone | hlt
  · exact absurd hnone.symm (Option.some_ne_none q)
  · exact hlt

/-- The directory of a word that is not longer than a name is not cut. -/
theorem getCompletionDir_eq {word : CStr} (h : word.bytes.length ≤ 255) :
    getCompletionDir word = wordDir word := by
  rw [getCompletionDir, wordDir]
  cases hslash : lastSlash none 0 word.bytes with
  | none => rfl
  | some slash =>
    have hlt := lastSlash_lt hslash
    dsimp only
    rw [Nat.min_eq_left (by omega)]

/-- The beginning of the word that the function completes. -/
def heldWord (buf : List Byte) (cursor : ℕ) : CStr := (getCompletionWord buf cursor).1

theorem length_heldWord_le (buf : List Byte) (cursor : ℕ) :
    (heldWord buf cursor).bytes.length ≤ 255 := by
  have hle := (List.takeWhile_prefix (· != 0) (l := (buf.drop (wordStart buf cursor)).take
    (min (cursor - wordStart buf cursor) nameMax))).length_le
  rw [List.length_take] at hle
  have hmax : nameMax = 255 := rfl
  change (List.takeWhile (· != 0) _).length ≤ 255
  omega

/-- A word of no more than 255 bytes is held as it is. -/
theorem heldWord_eq {buf : List Byte} {cursor : ℕ}
    (h : cursor - wordStart buf cursor ≤ nameMax) : heldWord buf cursor = typedWord buf cursor := by
  rw [heldWord, typedWord, getCompletionWord]
  dsimp only
  rw [Nat.min_eq_left h]

/-- **What a Tab types** is made of the first 64 candidates of the beginning of the word. -/
theorem typed_completion (v : View) (buf : List Byte) (cursor : ℕ) :
    (completion v buf cursor).typed =
      insertion v (wordDir (heldWord buf cursor)).1 (wordDir (heldWord buf cursor)).2
        ((candidates v (inCommandPlace buf cursor) (wordDir (heldWord buf cursor)).1
          (wordDir (heldWord buf cursor)).2).take maxMatches) := by
  have hword : getCompletionWord buf cursor =
      (heldWord buf cursor, inCommandPlace buf cursor) := rfl
  rw [completion, hword]
  dsimp only
  rw [getCompletionDir_eq (length_heldWord_le buf cursor)]
  generalize wordDir (heldWord buf cursor) = d
  obtain ⟨dir, start⟩ := d
  dsimp only
  rw [table_eq]
  generalize (candidates v (inCommandPlace buf cursor) dir start).take maxMatches = found
  rcases found with _ | ⟨m, others⟩
  · rfl
  · rw [insertion, commonText]
    dsimp only
    by_cases hcommon : start.bytes.length < commonPrefixLen (m :: others)
    · rw [if_pos hcommon, if_pos hcommon]
      by_cases hone : others = []
      · rw [if_pos hone, if_pos hone]
        rfl
      · rw [if_neg hone, if_neg hone, List.append_nil]
        rfl
    · rw [if_neg hcommon, if_neg hcommon]
      by_cases hone : others = []
      · rw [if_pos hone]
        rfl
      · rw [if_neg hone]
        rfl

end Typed

/-! ### When it is right -/

section Right

variable {v : View} {dir start : CStr} {cs : List CStr}

/-- The candidates that find no room in the table begin with the common text of those that do,
unless that text is not longer than the word. -/
def RoomOrShared (start : CStr) (cs : List CStr) : Prop :=
  (commonText (cs.take maxMatches)).length ≤ start.bytes.length ∨
    ∀ c ∈ cs.drop maxMatches, commonText (cs.take maxMatches) <+: c.bytes

theorem insertion_of_le {found : List CStr}
    (h : (commonText found).length ≤ start.bytes.length) : insertion v dir start found = [] := by
  rw [length_commonText] at h
  rcases found with _ | ⟨m, others⟩
  · rfl
  · rw [insertion, if_neg (by omega)]

theorem insertion_of_lt {found : List CStr} (h : start.bytes.length < (commonText found).length) :
    ∃ last, insertion v dir start found = (commonText found).drop start.bytes.length ++ last ∧
      (last = [] ∨ (last = [47] ∨ last = [space]) ∧ found.length = 1) := by
  rw [length_commonText] at h
  rcases found with _ | ⟨m, others⟩
  · exact absurd h (Nat.not_lt_zero _)
  · rw [insertion, if_pos h]
    refine ⟨_, rfl, ?_⟩
    by_cases hone : others = []
    · rw [if_pos hone, hone]
      refine .inr ⟨?_, rfl⟩
      split_ifs <;> simp
    · exact .inl (if_neg hone)

/-- **When the text that the table makes the function type is right.** -/
theorem extends_insertion_iff (hcs : ∀ c ∈ cs, start.bytes <+: c.bytes) :
    Extends cs start (insertion v dir start (cs.take maxMatches)) ↔ RoomOrShared start cs := by
  have hmax : maxMatches = 64 := rfl
  by_cases hle : (commonText (cs.take maxMatches)).length ≤ start.bytes.length
  · rw [insertion_of_le hle]
    exact iff_of_true (.inl rfl) (.inl hle)
  · obtain ⟨last, hins, hlast⟩ := @insertion_of_lt v dir start _ (Nat.lt_of_not_le hle)
    have hlen : (cs.take maxMatches).length = 1 ↔ cs.length = 1 := by
      rw [List.length_take]
      omega
    have hne : cs ≠ [] := by
      rintro rfl
      exact hle (Nat.zero_le _)
    -- the word and what is typed after it are the common text
    have htext : start.bytes ++ (commonText (cs.take maxMatches)).drop start.bytes.length =
        commonText (cs.take maxMatches) := by
      obtain ⟨c, cs', rfl⟩ := List.exists_cons_of_ne_nil hne
      have hmem : c ∈ (c :: cs').take maxMatches := List.mem_cons_self
      have hpre := List.prefix_of_prefix_length_le (hcs c List.mem_cons_self)
        (commonText_begins c hmem) (Nat.le_of_lt (Nat.lt_of_not_le hle))
      obtain ⟨r, hr⟩ := hpre
      rw [← hr, List.drop_left]
    rw [hins]
    constructor
    · intro hext
      refine .inr fun c hc => ?_
      have hmem := List.mem_of_mem_drop hc
      have hmore : maxMatches < cs.length := by
        have hpos := List.length_pos_of_mem hc
        rw [List.length_drop] at hpos
        omega
      have hnone : last = [] := by
        rcases hlast with hnone | ⟨-, hone⟩
        · exact hnone
        · have := hlen.1 hone
          omega
      rw [hnone, List.append_nil] at hext
      rcases hext with hnil | ⟨-, rest, last', hsplit, hall, hlast'⟩
      · have := congrArg List.length hnil
        rw [List.length_drop, List.length_nil] at this
        omega
      · rcases hlast' with rfl | ⟨-, hone⟩
        · rw [List.append_nil] at hsplit
          rw [← htext, hsplit]
          exact hall c hmem
        · omega
    · intro hshared
      refine .inr ⟨hne, _, last, rfl, fun c hc => ?_, ?_⟩
      · rw [htext]
        rw [← List.take_append_drop maxMatches cs] at hc
        rcases List.mem_append.1 hc with hc | hc
        · exact commonText_begins c hc
        · rcases hshared with hshort | hshared
          · exact absurd hshort hle
          · exact hshared c hc
      · rcases hlast with hnone | ⟨hend, hone⟩
        · exact .inl hnone
        · exact .inr ⟨hend, hlen.1 hone⟩

end Right

/-- The candidates of the word before the cursor. -/
def typedCandidates (v : View) (buf : List Byte) (cursor : ℕ) : List CStr :=
  candidates v (inCommandPlace buf cursor) (wordDir (typedWord buf cursor)).1
    (wordDir (typedWord buf cursor)).2

/-- The first 64 candidates of the first 255 bytes of the word have nothing in common beyond
these bytes. -/
def SharesNothing (v : View) (buf : List Byte) (cursor : ℕ) : Prop :=
  (commonText ((candidates v (inCommandPlace buf cursor) (wordDir (heldWord buf cursor)).1
    (wordDir (heldWord buf cursor)).2).take maxMatches)).length ≤
      (wordDir (heldWord buf cursor)).2.bytes.length

/-- **When a Tab types what all candidates share.**  For every content of the directories, every
line and every place of the cursor in it: what is typed extends a word of no more than 255 bytes
as it should exactly if the candidates beyond the 64th begin with the common text of those before,
or that text is not longer than the word.  A longer word is extended as it should if the candidates
of its first 255 bytes have nothing in common beyond these, and only if, where the word itself has
no candidate. -/
theorem completion_ok (v : View) (buf : List Byte) (cursor : ℕ) :
    (cursor - wordStart buf cursor ≤ nameMax → (TabOk v buf cursor ↔
      RoomOrShared (wordDir (typedWord buf cursor)).2 (typedCandidates v buf cursor))) ∧
    (nameMax < cursor - wordStart buf cursor → (SharesNothing v buf cursor → TabOk v buf cursor) ∧
      (typedCandidates v buf cursor = [] →
        (TabOk v buf cursor ↔ SharesNothing v buf cursor))) := by
  have hnothing : SharesNothing v buf cursor → TabOk v buf cursor := by
    intro h
    rw [TabOk, typed_completion, insertion_of_le h]
    exact .inl rfl
  refine ⟨fun hlen => ?_, fun hlen => ⟨hnothing, fun hnone => ⟨fun hok => ?_, hnothing⟩⟩⟩
  · rw [TabOk, typed_completion, heldWord_eq hlen, extends_insertion_iff fun c hc =>
      mem_candidates hc]
    rfl
  · rw [typedCandidates] at hnone
    rw [TabOk, hnone, typed_completion] at hok
    -- without a candidate nothing may be typed
    have hnil := hok.resolve_right fun h => h.1 rfl
    by_contra hshares
    obtain ⟨last, hins, -⟩ := insertion_of_lt (Nat.lt_of_not_le hshares)
    have hlen := congrArg List.length (hins.symm.trans hnil)
    rw [List.length_append, List.length_drop, List.length_nil] at hlen
    have hlt := Nat.lt_of_not_le hshares
    omega

/-- A directory with the names `abc` and `abd`. -/
def pairView : View where
  entries _ := some [⟨1, CStr.ofBytes [97, 98, 99]⟩, ⟨1, CStr.ofBytes [97, 98, 100]⟩]
  isReg _ := true
  isDir _ := false
  path := none

/-- After `a`, the `b` of both names is typed, and after 256 times `a` nothing, since neither of
the names begins so. -/
theorem completion_ok_pair :
    (completion pairView [120, 32, 97] 3).typed = [98] ∧ TabOk pairView [120, 32, 97] 3 ∧
      TabOk pairView ([120, 32] ++ List.replicate 256 97) 258 := by
  refine ⟨by decide, ((completion_ok pairView _ 3).1 (by decide)).2 (.inr ?_),
    ((completion_ok pairView _ 258).2 (by decide +kernel)).1 (by
      unfold SharesNothing
      decide +kernel)⟩
  have hnone : (typedCandidates pairView [120, 32, 97] 3).drop maxMatches = [] := by
    decide +kernel
  rw [typedCandidates] at hnone ⊢
  rw [hnone]
  exact fun c hc => absurd hc List.not_mem_nil

/-- A directory with 64 names `ab!` and so on, and `ac` after them. -/
def crowdedView : View where
  entries _ := some (((List.range 64).map fun i =>
    ⟨1, CStr.ofBytes [97, 98, .ofNat (33 + i)]⟩) ++ [⟨1, CStr.ofBytes [97, 99]⟩])
  isReg _ := true
  isDir _ := false
  path := none

/-- **After `a`, the `b` of the first 64 names is typed**, which `ac` does not have. -/
theorem not_tabOk : ¬TabOk crowdedView [120, 32, 97] 3 := by
  have hword : wordDir (typedWord [120, 32, 97] 3) = (.dot, CStr.ofBytes [97]) := by decide
  have hplace : inCommandPlace [120, 32, 97] 3 = false := by decide
  have hshort : 3 - wordStart [120, 32, 97] 3 ≤ nameMax := by decide
  rw [TabOk, typed_completion, heldWord_eq hshort, extends_insertion_iff fun c hc =>
    mem_candidates hc, hword, hplace]
  have hcommon : commonText ((candidates crowdedView false .dot (CStr.ofBytes [97])).take 64) =
    [97, 98] := by decide +kernel
  have hlast : CStr.ofBytes [97, 99] ∈
    (candidates crowdedView false .dot (CStr.ofBytes [97])).drop 64 := by decide +kernel
  rintro (hle | hall)
  · rw [maxMatches, hcommon] at hle
    exact absurd hle (by decide)
  · have hpre := hall _ hlast
    rw [maxMatches, hcommon] at hpre
    exact absurd hpre (by decide)

end Shell
end V6User
