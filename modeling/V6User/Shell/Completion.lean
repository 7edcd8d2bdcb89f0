import V6User.Shell.History
import V6User.Shell.LineDisplay

/-!
# Tab completion

`programs/sh/sh.c`: `match_exists` to `do_tab_completion`.

What the shell learns from the file system at a Tab is a `View`: the entries of the
directories it opens, and what `stat` says of the files it asks for.  `completion`
works out from the word before the cursor what the Tab does (`Completion`), and
`doTabCompletion` does it.
-/

namespace V6User
namespace Shell

open Terminal (Printable)

/-- `NAME_MAX`. -/
def nameMax : ℕ := 255

/-- `MAX_MATCHES`. -/
def maxMatches : ℕ := 64

/-- `struct linux_dirent64`, as far as it is looked at. -/
structure Dirent where
  ino : ℕ
  name : CStr

/-- What the file system answers during one completion, and the value of `PATH`. -/
structure View where
  entries : CStr → Option (List Dirent)
  isReg : CStr → Bool
  isDir : CStr → Bool
  path : Option CStr

/-- Two strings one after the other. -/
def CStr.append (s t : CStr) : CStr :=
  ⟨s.bytes ++ t.bytes, by
    rw [List.mem_append, not_or]
    exact ⟨s.nul_free, t.nul_free⟩⟩

theorem nul_notMem_dot : (0 : Byte) ∉ ([46] : List Byte) := by decide

/-- The string `.`. -/
def CStr.dot : CStr := ⟨[46], nul_notMem_dot⟩

/-- The string `/`. -/
def CStr.slash : CStr := ⟨[47], by decide⟩

/-- `is_word_boundary(c)`. -/
def isWordBoundary (c : Byte) : Bool := strchr [32, 9, 124, 59, 38, 62, 60, 40, 41] c

/-- `while (start > 0 && !is_word_boundary(line_buf[start - 1])) start--;` -/
def wordStart (buf : List Byte) : ℕ → ℕ
  | 0 => 0
  | start + 1 => if isWordBoundary (buf.getD start 0) then start + 1 else wordStart buf start

/-- Whether the word after this text is in the place of a command. -/
def isFirstWord (text : List Byte) : Bool :=
  text.foldl (fun first c =>
    if c = space ∨ c = 9 then first else decide (c = 124 ∨ c = 59 ∨ c = 38)) true

/-- `get_completion_word(word, maxlen, is_first_word)`: the word before the cursor,
and whether it is in the place of a command. -/
def getCompletionWord (buf : List Byte) (cursor : ℕ) : CStr × Bool :=
  let start := wordStart buf cursor
  (CStr.ofBytes ((buf.drop start).take (min (cursor - start) nameMax)),
    isFirstWord (buf.take start))

/-- The offset of the last slash of a string, with `slash` the last one before it. -/
def lastSlash (slash : Option ℕ) : ℕ → List Byte → Option ℕ
  | _, [] => slash
  | p, c :: s => lastSlash (if c = 47 then some p else slash) (p + 1) s

/-- `get_completion_dir(word, dir, prefix, maxdir)`. -/
def getCompletionDir (word : CStr) : CStr × CStr :=
  match lastSlash none 0 word.bytes with
  | some slash => (word.take (min (slash + 1) 255), word.drop (slash + 1))
  | none => (.dot, word)

/-- The path of an entry of a directory. -/
def entryPath (dir name : CStr) : CStr :=
  if dir.bytes ≠ [] ∧ dir.bytes.getLast? ≠ some 47 then (dir.append .slash).append name
  else dir.append name

/-- One entry of a directory in `add_matches_from_dir`. -/
def addMatch (v : View) (dir start : CStr) (executablesOnly : Bool) (found : List CStr)
    (de : Dirent) : List CStr :=
  if found.length < maxMatches ∧ de.ino ≠ 0 ∧ de.name.startsWith start.bytes ∧
      de.name.bytes ≠ [46] ∧ de.name.bytes ≠ [46, 46] ∧ de.name ∉ found ∧
      (executablesOnly → v.isReg (entryPath dir de.name)) then found ++ [de.name]
  else found

/-- `add_matches_from_dir(dir, prefix, executables_only)`. -/
def addMatchesFromDir (v : View) (dir start : CStr) (executablesOnly : Bool)
    (found : List CStr) : List CStr :=
  match v.entries dir with
  | none => found
  | some es => es.foldl (addMatch v dir start executablesOnly) found

/-- The directories of `PATH`, as far as its copy in `pathcopy` holds them. -/
def pathDirs (path : CStr) : List CStr :=
  (((path.bytes.take (maxEnvValue - 1)).splitOnP (· == 58)).filter fun d =>
    decide (0 < d.length ∧ d.length < 256)).map CStr.ofBytes

/-- `builtins` in `collect_path_matches`: cd, ls, echo, exit, export, unset, env,
history and waitgdb. -/
def builtins : List CStr :=
  [⟨[99, 100], by decide⟩, ⟨[108, 115], by decide⟩, ⟨[101, 99, 104, 111], by decide⟩,
    ⟨[101, 120, 105, 116], by decide⟩, ⟨[101, 120, 112, 111, 114, 116], by decide⟩,
    ⟨[117, 110, 115, 101, 116], by decide⟩, ⟨[101, 110, 118], by decide⟩,
    ⟨[104, 105, 115, 116, 111, 114, 121], by decide⟩,
    ⟨[119, 97, 105, 116, 103, 100, 98], by decide⟩]

/-- One of the builtins in `collect_path_matches`. -/
def addBuiltin (start : CStr) (found : List CStr) (b : CStr) : List CStr :=
  if found.length < maxMatches ∧ b.startsWith start.bytes ∧ b ∉ found then found ++ [b] else found

/-- `collect_path_matches(prefix)`. -/
def collectPathMatches (v : View) (start : CStr) : List CStr :=
  let found := addMatchesFromDir v .dot start false []
  let dirs := (v.path.map pathDirs).getD []
  let found := dirs.foldl (fun found dir => addMatchesFromDir v dir start true found) found
  builtins.foldl (addBuiltin start) found

/-- The loop of `common_prefix_len`, with `len` bytes of the first match behind it. -/
def commonPrefixFrom (others : List CStr) : List Byte → ℕ → ℕ
  | [], len => len
  | c :: s, len =>
    if others.all fun m => m.at len == c then commonPrefixFrom others s (len + 1) else len

/-- `common_prefix_len()`. -/
def commonPrefixLen : List CStr → ℕ
  | [] => 0
  | [m] => m.bytes.length
  | m :: others => commonPrefixFrom others m.bytes 0

/-- What a Tab does: nothing but ring the bell, type the rest of a name, or show the
names there are to choose from. -/
inductive Completion where
  | bell
  | type (s : List Byte)
  | choose (found : List CStr)

/-- The first part of `do_tab_completion`. -/
def completion (v : View) (buf : List Byte) (cursor : ℕ) : Completion :=
  let (word, first) := getCompletionWord buf cursor
  let (dir, start) := getCompletionDir word
  let found :=
    if first ∧ dir = .dot then collectPathMatches v start
    else addMatchesFromDir v dir start false []
  match found with
  | [] => .bell
  | m :: others =>
    let common := commonPrefixLen (m :: others)
    if start.bytes.length < common then
      let rest := (m.bytes.take common).drop start.bytes.length
      if others = [] then
        let path := if dir = .dot then m else dir.append m
        .type (rest ++ [if v.isDir path then 47 else space])
      else .type rest
    else if others = [] then .type []
    else .choose (m :: others)

/-- The names in columns, from the `i`-th on. -/
def listing (count cols colwidth : ℕ) : ℕ → List CStr → List Byte
  | _, [] => []
  | i, m :: found =>
    m.bytes ++
      (if (i + 1) % cols = 0 ∨ i + 1 = count then [13, 10]
        else List.replicate (colwidth - m.bytes.length) space) ++
      listing count cols colwidth (i + 1) found

/-- The names to choose from, under the line. -/
def showChoices (found : List CStr) : List Byte :=
  let maxlen := (found.map fun m => m.bytes.length).foldl max 0
  let colwidth := max (maxlen + 2) 8
  let cols := max (80 / colwidth) 1
  [13, 10] ++ listing found.length cols colwidth 0 found

/-- `user_name`, `cwd_path` and `user_uid`. -/
structure Prompt where
  user : CStr
  cwd : CStr
  uid : ℤ

/-- What `term_show_prompt` writes. -/
def Prompt.text (p : Prompt) : List Byte :=
  p.user.bytes ++ [58] ++ p.cwd.bytes ++ [if p.uid = 0 then 35 else 36, space]

/-- The prompt, the line, and the cursor put back into it. -/
def showLine (p : Prompt) (l : LineBuf) : LineBuf :=
  let l := termWrite l p.text
  let l := termWrite l (l.from 0)
  if l.cursor < l.len then termCursorLeft l (l.len - l.cursor) else l

/-- `do_tab_completion()`. -/
def doTabCompletion (p : Prompt) (v : View) (l : LineBuf) : LineBuf :=
  match completion v l.buf l.cursor with
  | .bell => termBell l
  | .type s => s.foldl lineInsertChar l
  | .choose found => showLine p (termWrite l (showChoices found))

/-! ### What the completion looks at -/

theorem wordStart_le (buf : List Byte) (n : ℕ) : wordStart buf n ≤ n := by
  induction n with
  | zero => exact Nat.le_refl 0
  | succ n ih =>
    rw [wordStart]
    split_ifs
    · exact Nat.le_refl _
    · exact Nat.le_succ_of_le ih

theorem wordStart_take (buf : List Byte) {m n : ℕ} (h : m ≤ n) :
    wordStart (buf.take n) m = wordStart buf m := by
  induction m with
  | zero => rfl
  | succ m ih =>
    rw [wordStart, wordStart, ih (by omega), List.getD_eq_getElem?_getD, List.getElem?_take_of_lt h,
      ← List.getD_eq_getElem?_getD]

/-- A completion looks at the line before the cursor only. -/
theorem completion_take (v : View) (buf : List Byte) (cursor : ℕ) :
    completion v (buf.take cursor) cursor = completion v buf cursor := by
  have hword : getCompletionWord (buf.take cursor) cursor = getCompletionWord buf cursor := by
    have hle := wordStart_le buf cursor
    simp only [getCompletionWord]
    rw [wordStart_take buf (Nat.le_refl cursor), List.take_take, Nat.min_eq_left hle,
      List.drop_take, List.take_take, Nat.min_eq_left (Nat.min_le_left _ _)]
  rw [completion, completion, hword]

/-! ### Names -/

/-- The names of all entries, byte by byte, have a property. -/
def View.Names (P : Byte → Prop) (v : View) : Prop :=
  ∀ dir es, v.entries dir = some es → ∀ de ∈ es, ∀ b ∈ de.name.bytes, P b

variable {P : Byte → Prop} {v : View}

/-- All bytes of all strings of a list have a property. -/
def AllBytes (P : Byte → Prop) (found : List CStr) : Prop := ∀ m ∈ found, ∀ b ∈ m.bytes, P b

theorem AllBytes.append {found : List CStr} (h : AllBytes P found) {m : CStr}
    (hm : ∀ b ∈ m.bytes, P b) : AllBytes P (found ++ [m]) := by
  intro n hn
  rcases List.mem_append.1 hn with hn | hn
  · exact h n hn
  · rw [List.mem_singleton.1 hn]
    exact hm

theorem allBytes_addMatchesFromDir (hv : v.Names P) (dir start : CStr) (executablesOnly : Bool)
    {found : List CStr} (h : AllBytes P found) :
    AllBytes P (addMatchesFromDir v dir start executablesOnly found) := by
  rw [addMatchesFromDir]
  split
  · exact h
  · rename_i es hes
    refine List.foldlRecOn es _ h fun found hfound de hde => ?_
    rw [addMatch]
    split_ifs
    · exact hfound.append (hv dir es hes de hde)
    · exact hfound

theorem allBytes_collectPathMatches (hv : v.Names P) (hb : AllBytes P builtins) (start : CStr) :
    AllBytes P (collectPathMatches v start) := by
  have hnil : AllBytes P [] := fun m hm => absurd hm List.not_mem_nil
  have hdirs : ∀ dirs : List CStr, AllBytes P (dirs.foldl
      (fun found dir => addMatchesFromDir v dir start true found)
      (addMatchesFromDir v .dot start false [])) := fun dirs =>
    List.foldlRecOn (motive := AllBytes P) dirs _ (allBytes_addMatchesFromDir hv _ _ _ hnil)
      fun found hfound d _ => allBytes_addMatchesFromDir hv _ _ _ hfound
  rw [collectPathMatches]
  generalize builtins = bs at hb ⊢
  refine List.foldlRecOn (motive := AllBytes P) bs (addBuiltin start) (hdirs _)
    fun found hfound b hmem => ?_
  rw [addBuiltin]
  split_ifs
  · exact hfound.append (hb b hmem)
  · exact hfound

theorem printable_builtins : AllBytes Printable builtins := by
  have h : (builtins.all fun m => m.bytes.all fun b => decide (Printable b)) = true := by decide
  exact fun m hm => Terminal.printable_of_all (List.all_eq_true.1 h m hm)

/-- What a Tab types or shows are bytes of names. -/
def Completion.All (P : Byte → Prop) : Completion → Prop
  | .bell => True
  | .type s => ∀ b ∈ s, P b
  | .choose found => found ≠ [] ∧ AllBytes P found

/-- **A completion types and shows bytes of the names it finds**, and the slash or the
blank after a whole name. -/
theorem all_completion (hv : v.Names P) (hb : AllBytes P builtins) (hslash : P 47)
    (hspace : P space) (buf : List Byte) (cursor : ℕ) : (completion v buf cursor).All P := by
  have hnil : AllBytes P [] := fun m hm => absurd hm List.not_mem_nil
  rw [completion]
  generalize getCompletionWord buf cursor = w
  obtain ⟨word, first⟩ := w
  dsimp only
  generalize getCompletionDir word = d
  obtain ⟨dir, start⟩ := d
  dsimp only
  have hfound : AllBytes P (if first ∧ dir = .dot then collectPathMatches v start
      else addMatchesFromDir v dir start false []) := by
    split_ifs
    · exact allBytes_collectPathMatches hv hb start
    · exact allBytes_addMatchesFromDir hv _ _ _ hnil
  generalize (if first ∧ dir = .dot then collectPathMatches v start
      else addMatchesFromDir v dir start false []) = found at hfound
  rcases found with _ | ⟨m, others⟩
  · exact trivial
  · have hrest : ∀ n, ∀ b ∈ (m.bytes.take n).drop start.bytes.length, P b := fun n b hmem =>
      hfound m List.mem_cons_self b (List.mem_of_mem_take (List.mem_of_mem_drop hmem))
    have hlast : ∀ c : Bool, P (if c then 47 else space) := by
      rintro (_ | _)
      · exact hspace
      · exact hslash
    dsimp only
    by_cases hcommon : start.bytes.length < commonPrefixLen (m :: others)
    · rw [if_pos hcommon]
      by_cases hone : others = []
      · rw [if_pos hone]
        intro b hmem
        rcases List.mem_append.1 hmem with hmem | hmem
        · exact hrest _ b hmem
        · rw [List.mem_singleton.1 hmem]
          exact hlast _
      · rw [if_neg hone]
        exact hrest _
    · rw [if_neg hcommon]
      by_cases hone : others = []
      · rw [if_pos hone]
        exact fun b hmem => absurd hmem List.not_mem_nil
      · rw [if_neg hone]
        exact ⟨List.cons_ne_nil _ _, hfound⟩

/-! ### The line and the terminal -/

/-- What a completion makes of the line. -/
def Completion.apply (c : Completion) (z : TwoSided Byte) : TwoSided Byte :=
  match c with
  | .type s => s.foldl (TwoSided.insert (lineBufSize - 1)) z
  | .bell | .choose _ => z

variable {l : LineBuf} {z : TwoSided Byte} {t : Terminal} {p : Prompt}

theorem Edits.insertAll (h : Edits l z) (s : List Byte) :
    Edits (s.foldl Shell.lineInsertChar l) (s.foldl (TwoSided.insert (lineBufSize - 1)) z) := by
  induction s generalizing l z with
  | nil => exact h
  | cons c s ih => exact ih (h.lineInsertChar c)

theorem Edits.showLine (h : Edits l z) (p : Prompt) : Edits (showLine p l) z := by
  rw [Shell.showLine, ite_termCursorLeft]
  exact ((h.write _).write _).write _

/-- The completion at the cursor of the line. -/
theorem Edits.completion_eq (h : Edits l z) (v : View) :
    completion v l.buf l.cursor = completion v z.before.reverse z.pos := by
  rw [← completion_take, ← z.take_pos, ← h.line, ← h.cursor, List.take_take,
    Nat.min_eq_left h.cursor_le]

/-- `do_tab_completion` does to the line what the completion says. -/
theorem Edits.doTabCompletion (h : Edits l z) (p : Prompt) (v : View) :
    Edits (doTabCompletion p v l) ((completion v z.before.reverse z.pos).apply z) := by
  rw [Shell.doTabCompletion, h.completion_eq v]
  cases completion v z.before.reverse z.pos with
  | bell => exact h.write _
  | type s => exact h.insertAll s
  | choose found => exact (h.write _).showLine p

/-- All bytes of the line are printable after a printable byte is typed. -/
theorem printable_insert {z : TwoSided Byte} (hz : ∀ b ∈ z.line, P b) {c : Byte} (hc : P c)
    (n : ℕ) : ∀ b ∈ (z.insert n c).line, P b := by
  rw [TwoSided.insert]
  split_ifs
  · intro b hb
    rw [TwoSided.line, List.reverse_cons, List.append_assoc] at hb
    rcases List.mem_append.1 hb with hb | hb
    · exact hz b (List.mem_append_left _ hb)
    · rcases List.mem_cons.1 hb with rfl | hb
      · exact hc
      · exact hz b (List.mem_append_right _ hb)
  · exact hz

theorem Displays.insertAll {s : List Byte} (hs : ∀ b ∈ s, Printable b) {prompt : List Byte}
    (h : Displays t prompt l z) (hl : Edits l z) (hz : ∀ b ∈ z.line, Printable b) :
    Displays t prompt (s.foldl Shell.lineInsertChar l)
      (s.foldl (TwoSided.insert (lineBufSize - 1)) z) := by
  induction s generalizing l z with
  | nil => exact h
  | cons c s ih =>
    rw [List.forall_mem_cons] at hs
    exact ih hs.2 (h.lineInsertChar hl hz hs.1) (hl.lineInsertChar c)
      (printable_insert hz hs.1 _)

/-- On an empty row, the prompt and the line are shown. -/
theorem displays_showLine (hp : ∀ b ∈ p.text, Printable b) (hl : Edits l z)
    (hz : ∀ b ∈ z.line, Printable b) (h : (t.feed l.out).Shows [] 0) :
    Displays t p.text (showLine p l) z := by
  have hprompt := Terminal.Shows.append h hp
  have hline := Terminal.Shows.append hprompt hz
  have hbuf : l.from 0 = z.line := by
    rw [LineBuf.from, List.drop_zero, Nat.sub_zero, hl.line]
  rw [Shell.showLine, ite_termCursorLeft]
  refine Displays.of_end ?_ ?_
  · show l.len - l.cursor = z.after.length
    rw [← z.drop_pos, List.length_drop, hl.length_line, hl.cursor]
  · rw [feed_termWrite, feed_termWrite]
    show (((t.feed l.out).feed p.text).feed (l.from 0)).Shows _ _
    rw [hbuf]
    rw [List.nil_append] at hline
    rwa [← List.length_append, List.append_assoc]

/-- After the names the cursor is at the start of an empty row. -/
theorem shows_listing {count cols colwidth : ℕ} {found : List CStr} (hne : found ≠ [])
    (hfound : AllBytes Printable found) {line : List Byte} {i : ℕ} {t : Terminal}
    (hcount : i + found.length = count) (h : t.Shows line line.length) :
    (t.feed (listing count cols colwidth i found)).Shows [] 0 := by
  induction found generalizing i line t with
  | nil => exact absurd rfl hne
  | cons m found ih =>
    have hm := Terminal.Shows.append h (hfound m List.mem_cons_self)
    have hrest : AllBytes Printable found := fun n hn => hfound n (List.mem_cons_of_mem m hn)
    rw [List.length_cons] at hcount
    rw [listing, Terminal.feed_append, Terminal.feed_append]
    rcases found with _ | ⟨n, found⟩
    · rw [if_pos (.inr hcount)]
      exact hm.newline
    · split_ifs
      · have hnl : Terminal.Shows _ [] ([] : List Byte).length := hm.newline
        exact ih (List.cons_ne_nil _ _) hrest (by omega) hnl
      · have hpad := Terminal.Shows.append hm
          (s := List.replicate (colwidth - m.bytes.length) space) fun b hb => by
            rw [List.eq_of_mem_replicate hb]
            decide
        exact ih (List.cons_ne_nil _ _) hrest (by omega) hpad

theorem Displays.doTabCompletion {v : View} (hv : v.Names Printable)
    (hp : ∀ b ∈ p.text, Printable b) (h : Displays t p.text l z) (hl : Edits l z)
    (hz : ∀ b ∈ z.line, Printable b) :
    Displays t p.text (doTabCompletion p v l) ((completion v z.before.reverse z.pos).apply z) := by
  have hall := all_completion hv printable_builtins (by decide) (by decide) z.before.reverse z.pos
  rw [Shell.doTabCompletion, hl.completion_eq v]
  revert hall
  cases completion v z.before.reverse z.pos with
  | bell => exact fun _ => h.bell
  | type s => exact fun hs => h.insertAll hs hl hz
  | choose found =>
    rintro ⟨hne, hfound⟩
    refine displays_showLine hp (hl.write _) hz ?_
    rw [feed_termWrite, showChoices, Terminal.feed_append]
    have hnl : Terminal.Shows _ [] ([] : List Byte).length := Terminal.Shows.newline h
    exact shows_listing hne hfound (Nat.zero_add _) hnl

end Shell
end V6User
