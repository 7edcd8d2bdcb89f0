import V6User.Base.Lines
import V6User.Tools.UserpcLine

/-!
# Reading the memory map of a process

`programs/kprofile/kprofile.c`: `userpc_map_entry_same`, `userpc_store_map_entry` and
`userpc_read_maps_for_pid`.

The file is read in pieces and gathered byte after byte in a buffer, which is handed on at each
newline.  A line for which the buffer has no room is counted and skipped, up to and including the
next newline.  What happens does not depend on how the reads cut the file
(`readLines_flatten`); but the byte at which the buffer turns out to be full is dropped before it
is looked at, and where it is the newline the line after it is skipped instead
(`handsLines_iff`).
-/

namespace V6User
namespace Tools
namespace Userpc

open Shell (Byte)
open Lines

/-! ### The loop over the bytes -/

/-- `sizeof(line)`. -/
def lineMax : ℕ := 512

/-- What `userpc_read_maps_for_pid` does with a line and where one is cut, on a state `σ`. -/
structure Handler (σ : Type) where
  line : σ → List Byte → σ
  truncated : σ → σ

/-- The variables of the loop: what the lines have done so far, `line` up to `line_len`, and
`discarding`. -/
structure Reader (σ : Type) where
  st : σ
  line : List Byte
  discarding : Bool

/-- The body of the loop over the bytes of a piece. -/
def readByte {σ : Type} (h : Handler σ) (r : Reader σ) (c : Byte) : Reader σ :=
  if r.discarding then
    if c = 10 then { r with discarding := false } else r
  else if lineMax ≤ r.line.length + 1 then ⟨h.truncated r.st, [], true⟩
  else if c = 10 then { r with st := h.line r.st (r.line ++ [c]), line := [] }
  else { r with line := r.line ++ [c] }

/-- What a `read` returns. -/
inductive ReadResult where
  | failed (error : ℤ)
  | data (bytes : List Byte)

/-- The loop over the reads, which ends with the file or where a read fails: the variables, and
the error. -/
def readPieces {σ : Type} (h : Handler σ) (r : Reader σ) : List ReadResult → Reader σ × Option ℤ
  | [] => (r, none)
  | .failed error :: _ => (r, some error)
  | .data bytes :: reads =>
    if bytes = [] then (r, none) else readPieces h (bytes.foldl (readByte h) r) reads

/-- The lines after the loop: what is in the buffer is a line too. -/
def lastLine {σ : Type} (h : Handler σ) (r : Reader σ) : σ :=
  if r.line ≠ [] ∧ r.discarding = false then h.line r.st r.line else r.st

/-! ### The table -/

/-- `struct userpc_pid_map_status`. -/
structure PidStatus where
  used : Bool
  tgid : ℤ
  sampledRecords : UInt64
  lastCountedSeq : UInt64
  lastSampleSeq : UInt64
  lastScanSeq : UInt64
  snapshots : UInt64
  openFailures : UInt64
  readFailures : UInt64
  linesSeen : UInt64
  linesStored : UInt64
  lastError : ℤ

/-- `struct userpc_maps`, whose array `pids` has the status that is passed along. -/
structure Maps where
  entries : List MapEntry
  pidDropped : UInt64
  mapDropped : UInt64
  pathTruncated : UInt64
  lineTruncated : UInt64
  parseFailures : UInt64
  attempted : UInt64
  succeeded : UInt64
  openFailed : UInt64
  readFailed : UInt64

/-- `userpc_map_entry_same(a, b)`. -/
def mapEntrySame (a b : MapEntry) : Bool :=
  a.used && a.tgid == b.tgid && a.start == b.start && a.stop == b.stop && a.offset == b.offset &&
    a.devMajor == b.devMajor && a.devMinor == b.devMinor && a.inode == b.inode &&
    a.perms == b.perms && a.path == b.path

/-- `userpc_store_map_entry(maps, pid_status, entry)`. -/
def storeMapEntry (maps : Maps) (status : PidStatus) (entry : MapEntry) : Maps × PidStatus :=
  if maps.entries.any fun e => mapEntrySame e entry then (maps, status)
  else
    match maps.entries.findIdx? fun e => !e.used with
    | none => ({ maps with mapDropped := maps.mapDropped + 1 }, status)
    | some freeSlot =>
      ({ maps with entries := maps.entries.set freeSlot { entry with used := true } },
        { status with linesStored := status.linesStored + 1 })

/-- What is done with a line: the string in the buffer is parsed and the entry stored. -/
def handleLine (st : Maps × PidStatus) (line : List Byte) : Maps × PidStatus :=
  let (maps, status) := st
  let status := { status with linesSeen := status.linesSeen + 1 }
  match parseMapsLine (line.takeWhile (· ≠ 0)) with
  | none => ({ maps with parseFailures := maps.parseFailures + 1 }, status)
  | some (entry, pathTruncated) =>
    let (maps, status) := storeMapEntry maps status { entry with tgid := status.tgid }
    (if pathTruncated then { maps with pathTruncated := maps.pathTruncated + 1 } else maps, status)

/-- `maps->line_truncated++`. -/
def countTruncated (st : Maps × PidStatus) : Maps × PidStatus :=
  ({ st.1 with lineTruncated := st.1.lineTruncated + 1 }, st.2)

def mapsHandler : Handler (Maps × PidStatus) := ⟨handleLine, countTruncated⟩

/-- What is recorded of a read that failed. -/
def noteReadFailure (st : Maps × PidStatus) (error : ℤ) : Maps × PidStatus :=
  ({ st.1 with readFailed := st.1.readFailed + 1 },
    { st.2 with readFailures := st.2.readFailures + 1, lastError := error })

/-- `userpc_read_maps_for_pid(maps, pid_status)`, where `open` returns `fd`. -/
def userpcReadMapsForPid (maps : Maps) (status : PidStatus) (fd : ℤ) (reads : List ReadResult) :
    Maps × PidStatus :=
  if status.tgid ≤ 0 then (maps, status)
  else if 4 ≤ status.snapshots then (maps, status)
  else if status.lastScanSeq = status.lastSampleSeq then (maps, status)
  else
    let maps := { maps with attempted := maps.attempted + 1 }
    let status := { status with snapshots := status.snapshots + 1 }
    if fd < 0 then
      ({ maps with openFailed := maps.openFailed + 1 },
        { status with openFailures := status.openFailures + 1, lastError := fd })
    else
      let (r, error) := readPieces mapsHandler ⟨(maps, status), [], false⟩ reads
      let r := match error with
        | none => r
        | some error => { r with st := noteReadFailure r.st error }
      let (maps, status) := lastLine mapsHandler r
      ({ maps with succeeded := maps.succeeded + 1 },
        { status with lastScanSeq := status.lastSampleSeq })

/-! ### What is handed on -/

/-- What happens to a line: it is handed on, or cut. -/
inductive Event where
  | line (text : List Byte)
  | truncated
  deriving DecidableEq

/-- What a handler does on an event. -/
def Handler.apply {σ : Type} (h : Handler σ) (st : σ) : Event → σ
  | .line text => h.line st text
  | .truncated => h.truncated st

/-- A handler that keeps the events. -/
def recorder : Handler (List Event) := ⟨fun events text => events ++ [.line text],
  fun events => events ++ [.truncated]⟩

/-- The loop over the reads and the lines after it. -/
def readLines {σ : Type} (h : Handler σ) (st : σ) (reads : List ReadResult) : σ :=
  lastLine h (readPieces h ⟨st, [], false⟩ reads).1

/-- The event of a line, which has room in the buffer with a NUL after it or has not. -/
def eventOf (text : List Byte) : Event :=
  if text.length + 1 ≤ lineMax then .line text else .truncated

/-- What should happen to the lines of a file: one event for each of them, in their order. -/
def expected (content : List Byte) : List Event :=
  (terminated 10 content).map (fun text => eventOf (text ++ [10])) ++
    if unterminated 10 content = [] then [] else [eventOf (unterminated 10 content)]

/-- A terminated line fills the buffer up to its newline, and something follows it. -/
def Swallows (content : List Byte) : Prop :=
  ∃ before text rest, content = before ++ (text ++ 10 :: rest) ∧
    (before = [] ∨ before.getLast? = some 10) ∧ 10 ∉ text ∧ text.length + 1 = lineMax ∧ rest ≠ []

/-! ### Pieces -/

section Bytes

variable {σ : Type} (h : Handler σ) {st : σ} {line text rest : List Byte}

/-- What the lines of a text do, from where the loop is. -/
def scan (r : Reader σ) (content : List Byte) : σ := lastLine h (content.foldl (readByte h) r)

theorem readPieces_data (r : Reader σ) (chunks : List (List Byte)) (hne : ∀ c ∈ chunks, c ≠ []) :
    readPieces h r (chunks.map .data) = (chunks.flatten.foldl (readByte h) r, none) := by
  induction chunks generalizing r with
  | nil => rfl
  | cons c chunks ih =>
    obtain ⟨hc, hne⟩ := List.forall_mem_cons.1 hne
    rw [List.map_cons, readPieces, if_neg hc, ih _ hne, List.flatten_cons, List.foldl_append]

/-- **How the reads cut the file does not matter.** -/
theorem readLines_flatten (st : σ) (chunks : List (List Byte)) (hne : ∀ c ∈ chunks, c ≠ []) :
    readLines h st (chunks.map .data) = scan h ⟨st, [], false⟩ chunks.flatten := by
  rw [readLines, readPieces_data h _ chunks hne, scan]

/-! ### The bytes of a line -/

/-- Bytes for which there is room are gathered. -/
theorem foldl_gather (hnl : 10 ∉ text) (hroom : line.length + text.length < lineMax) :
    text.foldl (readByte h) ⟨st, line, false⟩ = ⟨st, line ++ text, false⟩ := by
  induction text generalizing line with
  | nil => rw [List.append_nil]; rfl
  | cons c text ih =>
    rw [List.mem_cons, not_or] at hnl
    rw [List.length_cons] at hroom
    have hstep : readByte h ⟨st, line, false⟩ c = ⟨st, line ++ [c], false⟩ := by
      rw [readByte, if_neg Bool.false_ne_true, if_neg (by dsimp only; omega),
        if_neg (Ne.symm hnl.1)]
    rw [List.foldl_cons, hstep, ih hnl.2 (by rw [List.length_append, List.length_singleton]; omega),
      List.append_assoc]
    rfl

/-- What is skipped goes up to the newline. -/
theorem foldl_discard (hnl : 10 ∉ text) :
    text.foldl (readByte h) ⟨st, [], true⟩ = ⟨st, [], true⟩ := by
  induction text with
  | nil => rfl
  | cons c text ih =>
    rw [List.mem_cons, not_or] at hnl
    have hstep : readByte h ⟨st, [], true⟩ c = ⟨st, [], true⟩ := by
      rw [readByte, if_pos rfl, if_neg (Ne.symm hnl.1)]
    rw [List.foldl_cons, hstep, ih hnl.2]

/-- At the first byte without room the line is cut, whatever the byte is. -/
theorem foldl_cut (hnl : 10 ∉ text) (c : Byte) (hfull : text.length + 1 = lineMax) :
    (text ++ [c]).foldl (readByte h) ⟨st, [], false⟩ = ⟨h.truncated st, [], true⟩ := by
  have hgather : text.foldl (readByte h) ⟨st, [], false⟩ = ⟨st, [] ++ text, false⟩ :=
    foldl_gather h hnl (by rw [List.length_nil]; omega)
  rw [List.foldl_append, hgather, List.foldl_cons, List.foldl_nil, List.nil_append, readByte,
    if_neg Bool.false_ne_true, if_pos (by dsimp only; omega)]

/-- A text without room for it is cut where the buffer is full, and skipped from there on. -/
theorem foldl_long (hnl : 10 ∉ text) (hlong : lineMax ≤ text.length) :
    text.foldl (readByte h) ⟨st, [], false⟩ = ⟨h.truncated st, [], true⟩ := by
  have hpos : 0 < lineMax := by decide
  have hne : text.drop (lineMax - 1) ≠ [] := by
    rw [Ne, List.drop_eq_nil_iff]
    omega
  obtain ⟨c, tail, htail⟩ := List.exists_cons_of_ne_nil hne
  have hsplit : text = text.take (lineMax - 1) ++ [c] ++ tail := by
    rw [List.append_assoc, List.singleton_append, ← htail, List.take_append_drop]
  have hfull : (text.take (lineMax - 1)).length + 1 = lineMax := by
    rw [List.length_take]
    omega
  have hfirst : 10 ∉ text.take (lineMax - 1) := fun hmem => hnl (List.mem_of_mem_take hmem)
  have hrest : 10 ∉ tail := by
    intro hmem
    refine hnl (List.mem_of_mem_drop (i := lineMax - 1) ?_)
    rw [htail]
    exact List.mem_cons_of_mem _ hmem
  rw [hsplit, List.foldl_append, foldl_cut h hfirst c hfull, foldl_discard h hrest]

/-! ### The lines of a text -/

theorem scan_nil (discarding : Bool) : scan h ⟨st, [], discarding⟩ [] = st := by
  rw [scan, List.foldl_nil, lastLine]
  exact if_neg fun hline => hline.1 rfl

/-- The last line, without a newline. -/
theorem scan_last (hnl : 10 ∉ text) (hne : text ≠ []) :
    scan h ⟨st, [], false⟩ text = h.apply st (eventOf text) := by
  rw [scan, eventOf]
  by_cases hroom : text.length + 1 ≤ lineMax
  · rw [foldl_gather h hnl (by rw [List.length_nil]; omega), if_pos hroom]
    exact if_pos ⟨hne, rfl⟩
  · rw [foldl_long h hnl (by omega), if_neg hroom]
    exact if_neg fun hline => hline.1 rfl

/-- A line with its newline, where the newline is not the byte for which there is no room. -/
theorem scan_line (hnl : 10 ∉ text) (hfull : text.length + 1 ≠ lineMax) (rest : List Byte) :
    scan h ⟨st, [], false⟩ (text ++ 10 :: rest) =
      scan h ⟨h.apply st (eventOf (text ++ [10])), [], false⟩ rest := by
  rw [scan, scan, List.foldl_append, List.foldl_cons, eventOf, List.length_append,
    List.length_singleton]
  by_cases hroom : text.length + 1 + 1 ≤ lineMax
  · rw [foldl_gather h hnl (by rw [List.length_nil]; omega), if_pos hroom, readByte,
      if_neg Bool.false_ne_true, if_neg (by dsimp only [List.nil_append]; omega), if_pos rfl]
    rfl
  · rw [foldl_long h hnl (by omega), if_neg hroom]
    rfl

/-- Where it is, the line is cut, and the next one is skipped. -/
theorem scan_cut (hnl : 10 ∉ text) (hfull : text.length + 1 = lineMax) (rest : List Byte) :
    scan h ⟨st, [], false⟩ (text ++ 10 :: rest) = scan h ⟨h.truncated st, [], true⟩ rest := by
  have hsplit : text ++ 10 :: rest = text ++ [10] ++ rest := by
    rw [List.append_assoc, List.singleton_append]
  rw [scan, scan, hsplit, List.foldl_append, foldl_cut h hnl 10 hfull]

/-- After a skipped line the loop goes on as at the beginning. -/
theorem scan_skip (hnl : 10 ∉ text) (rest : List Byte) :
    scan h ⟨st, [], true⟩ (text ++ 10 :: rest) = scan h ⟨st, [], false⟩ rest := by
  rw [scan, scan, List.foldl_append, foldl_discard h hnl]
  rfl

/-- A skipped line may be the last one. -/
theorem scan_skip_last (hnl : 10 ∉ text) : scan h ⟨st, [], true⟩ text = st := by
  rw [scan, foldl_discard h hnl, lastLine]
  exact if_neg fun hline => hline.1 rfl

end Bytes

/-! ### What should happen to a line -/

section Expected

variable {text rest content : List Byte}

theorem expected_line (hnl : 10 ∉ text) :
    expected (text ++ 10 :: rest) = eventOf (text ++ [10]) :: expected rest := by
  rw [expected, terminated_line hnl, unterminated_line hnl, expected]
  rfl

theorem expected_last (hnl : 10 ∉ text) :
    expected text = if text = [] then [] else [eventOf text] := by
  rw [expected, terminated_of_notMem hnl, unterminated_of_notMem hnl]
  rfl

theorem not_swallows_last (hnl : 10 ∉ text) : ¬Swallows text := by
  rintro ⟨before, line, rest, rfl, -⟩
  exact hnl (by simp)

/-- Where the first line ends is determined. -/
theorem line_inj {text' rest' : List Byte} (hnl : 10 ∉ text) (hnl' : 10 ∉ text')
    (h : text ++ 10 :: rest = text' ++ 10 :: rest') : text = text' ∧ rest = rest' := by
  have hterminated := congrArg (terminated 10) h
  rw [terminated_line hnl, terminated_line hnl'] at hterminated
  obtain rfl := (List.cons.inj hterminated).1
  exact ⟨rfl, (List.cons.inj (List.append_cancel_left h)).2⟩

/-- A file swallows a line at its first line or after it. -/
theorem swallows_line (hnl : 10 ∉ text) : Swallows (text ++ 10 :: rest) ↔
    text.length + 1 = lineMax ∧ rest ≠ [] ∨ Swallows rest := by
  constructor
  · rintro ⟨before, line, rest', heq, hbefore, hline, hfull, hrest⟩
    rcases cases_line 10 before with hno | ⟨first, before', hfirst, rfl⟩
    · have hnil : before = [] := by
        rcases hbefore with h | h
        · exact h
        · exact absurd (List.mem_of_getLast? h) hno
      subst hnil
      obtain ⟨rfl, rfl⟩ := line_inj hnl hline heq
      exact .inl ⟨hfull, hrest⟩
    · rw [List.append_assoc, List.cons_append] at heq
      obtain ⟨rfl, rfl⟩ := line_inj hnl hfirst heq
      refine .inr ⟨before', line, rest', rfl, ?_, hline, hfull, hrest⟩
      by_cases hempty : before' = []
      · exact .inl hempty
      · rcases hbefore with h | h
        · simp at h
        · rw [List.getLast?_append_of_ne_nil _ (List.cons_ne_nil _ _),
            List.getLast?_cons_of_ne_nil hempty] at h
          exact .inr h
  · rintro (⟨hfull, hrest⟩ | ⟨before, line, rest', rfl, hbefore, hline, hfull, hrest⟩)
    · exact ⟨[], text, rest, rfl, .inl rfl, hnl, hfull, hrest⟩
    · refine ⟨text ++ 10 :: before, line, rest', by simp, .inr ?_, hline, hfull, hrest⟩
      rcases hbefore with rfl | h
      · simp
      · have hne : before ≠ [] := by
          rintro rfl
          cases h
        rw [List.getLast?_append_of_ne_nil _ (List.cons_ne_nil _ _),
          List.getLast?_cons_of_ne_nil hne, h]

end Expected

/-! ### When every line is handed on -/

/-- Whatever is done with the lines, and however the reads cut the file: each line that has room
in the buffer is handed on once, whole and in order, and each other line is counted once. -/
def HandsLines (chunks : List (List Byte)) : Prop :=
  ∀ (σ : Type) (h : Handler σ) (st : σ),
    readLines h st (chunks.map .data) = (expected chunks.flatten).foldl h.apply st

/-- Where no line is swallowed, the loop does what should happen to the lines. -/
theorem scan_eq_expected {σ : Type} (h : Handler σ) {content : List Byte} (hno : ¬Swallows content)
    (st : σ) : scan h ⟨st, [], false⟩ content = (expected content).foldl h.apply st := by
  induction content using line_induction (10 : Byte) generalizing st with
  | last text hnl =>
    rw [expected_last hnl]
    split_ifs with hempty
    · rw [hempty, scan_nil]
      rfl
    · rw [scan_last h hnl hempty]
      rfl
  | line text rest hnl ih =>
    rw [swallows_line hnl, not_or, not_and] at hno
    obtain ⟨hfirst, hrest⟩ := hno
    rw [expected_line hnl, List.foldl_cons]
    by_cases hfull : text.length + 1 = lineMax
    · obtain rfl : rest = [] := not_not.1 (hfirst hfull)
      have hevent : eventOf (text ++ [10]) = .truncated := by
        rw [eventOf, List.length_append, List.length_singleton, hfull]
        exact if_neg (by decide)
      rw [scan_cut h hnl hfull, scan_nil, hevent, expected_last List.not_mem_nil, if_pos rfl]
      rfl
    · rw [scan_line h hnl hfull, ih hrest]

theorem length_apply (events : List Event) (e : Event) :
    (recorder.apply events e).length = events.length + 1 := by
  cases e <;> exact List.length_append

/-- No line has more than one event, and a line that is skipped has none. -/
theorem length_scan_le (events : List Event) (content : List Byte) :
    (scan recorder ⟨events, [], false⟩ content).length ≤
      events.length + (expected content).length ∧
    (content ≠ [] → (scan recorder ⟨events, [], true⟩ content).length <
      events.length + (expected content).length) := by
  induction content using line_induction (10 : Byte) generalizing events with
  | last text hnl =>
    rw [expected_last hnl]
    constructor
    · split_ifs with hempty
      · rw [hempty, scan_nil]
        exact Nat.le_refl _
      · rw [scan_last recorder hnl hempty, length_apply]
        exact Nat.le_refl _
    · intro hne
      rw [scan_skip_last recorder hnl, if_neg hne]
      exact Nat.lt_succ_self _
  | line text rest hnl ih =>
    rw [expected_line hnl, List.length_cons]
    constructor
    · by_cases hfull : text.length + 1 = lineMax
      · rw [scan_cut recorder hnl hfull]
        by_cases hempty : rest = []
        · rw [hempty, scan_nil, expected_last List.not_mem_nil, if_pos rfl]
          exact Nat.le_of_eq List.length_append
        · have hlt := (ih (recorder.truncated events)).2 hempty
          rw [show (recorder.truncated events).length = events.length + 1 from
            List.length_append] at hlt
          omega
      · have hle := (ih (recorder.apply events (eventOf (text ++ [10])))).1
        rw [length_apply] at hle
        rw [scan_line recorder hnl hfull]
        omega
    · intro _
      have hle := (ih events).1
      rw [scan_skip recorder hnl]
      omega

/-- A swallowed line is missing. -/
theorem length_scan_lt (events : List Event) {content : List Byte} (h : Swallows content) :
    (scan recorder ⟨events, [], false⟩ content).length <
      events.length + (expected content).length := by
  induction content using line_induction (10 : Byte) generalizing events with
  | last text hnl => exact absurd h (not_swallows_last hnl)
  | line text rest hnl ih =>
    rw [expected_line hnl, List.length_cons]
    by_cases hfull : text.length + 1 = lineMax
    · have hempty : rest ≠ [] := by
        rcases (swallows_line hnl).1 h with hfirst | hrest
        · exact hfirst.2
        · rintro rfl
          exact not_swallows_last List.not_mem_nil hrest
      have hlt := (length_scan_le (recorder.truncated events) rest).2 hempty
      rw [show (recorder.truncated events).length = events.length + 1 from
        List.length_append] at hlt
      rw [scan_cut recorder hnl hfull]
      omega
    · have hrest : Swallows rest := ((swallows_line hnl).1 h).resolve_left fun h => hfull h.1
      have hlt := ih (recorder.apply events (eventOf (text ++ [10]))) hrest
      rw [length_apply] at hlt
      rw [scan_line recorder hnl hfull]
      omega

theorem foldl_recorder (events more : List Event) :
    more.foldl recorder.apply events = events ++ more := by
  induction more generalizing events with
  | nil => exact (List.append_nil events).symm
  | cons e more ih =>
    rw [List.foldl_cons, ih]
    cases e <;> exact List.append_assoc _ _ _

/-- **When every line is handed on.**  For every content of the file and every way in which the
reads cut it, each read giving something: exactly when no line fills the buffer up to its newline
with something after it. -/
theorem handsLines_iff (chunks : List (List Byte)) (hne : ∀ c ∈ chunks, c ≠ []) :
    HandsLines chunks ↔ ¬Swallows chunks.flatten := by
  constructor
  · intro hhands hswallows
    have hevents := hhands _ recorder []
    rw [readLines_flatten recorder [] chunks hne, foldl_recorder, List.nil_append] at hevents
    have hlt := length_scan_lt [] hswallows
    rw [hevents, List.length_nil] at hlt
    omega
  · intro hno σ h st
    rw [readLines_flatten h st chunks hne, scan_eq_expected h hno]

theorem handsLines_two_pieces : HandsLines [[97, 10], [98]] := by
  refine (handsLines_iff [[97, 10], [98]] (by simp)).2 ?_
  rintro ⟨before, text, rest, heq, -, -, hfull, -⟩
  have hlen := congrArg List.length heq
  simp only [List.flatten_cons, List.flatten_nil, List.length_append, List.length_cons,
    List.length_nil, lineMax] at hlen hfull
  omega

/-- **The line after a line of 511 bytes is lost.** -/
theorem not_handsLines_full : ¬HandsLines [List.replicate 511 97 ++ [10, 98]] := by
  intro hhands
  have hevents := hhands _ recorder []
  have hnl : (10 : Byte) ∉ List.replicate 511 97 := fun h =>
    absurd (List.eq_of_mem_replicate h) (by decide)
  have hfull : (List.replicate 511 (97 : Byte)).length + 1 = lineMax :=
    congrArg (· + 1) List.length_replicate
  have hne : ∀ c ∈ [List.replicate 511 97 ++ [(10 : Byte), 98]], c ≠ [] := fun c hc hempty =>
    absurd (List.append_eq_nil_iff.1 ((List.mem_singleton.1 hc).symm.trans hempty)).2 (by decide)
  rw [readLines_flatten recorder [] _ hne, List.flatten_singleton, foldl_recorder,
    expected_line hnl, scan_cut recorder hnl hfull, scan_skip_last recorder (by decide),
    expected_last (by decide)] at hevents
  exact absurd (congrArg List.length hevents) (by decide)

/-- **What the map of a process adds to the table**, in a turn that opens the file: each line is
parsed and stored, or counted, in the order of the file. -/
theorem userpcReadMapsForPid_eq {maps : Maps} {status : PidStatus} {fd : ℤ}
    {chunks : List (List Byte)} (htgid : 0 < status.tgid) (hsnapshots : status.snapshots < 4)
    (hseq : status.lastScanSeq ≠ status.lastSampleSeq) (hfd : 0 ≤ fd)
    (hne : ∀ c ∈ chunks, c ≠ []) (hno : ¬Swallows chunks.flatten) :
    userpcReadMapsForPid maps status fd (chunks.map .data) =
      let r := (expected chunks.flatten).foldl mapsHandler.apply
        ({ maps with attempted := maps.attempted + 1 },
          { status with snapshots := status.snapshots + 1 })
      ({ r.1 with succeeded := r.1.succeeded + 1 },
        { r.2 with lastScanSeq := r.2.lastSampleSeq }) := by
  rw [userpcReadMapsForPid, if_neg (Int.not_le.2 htgid), if_neg (UInt64.not_le.2 hsnapshots),
    if_neg hseq]
  dsimp only
  rw [if_neg (Int.not_lt.2 hfd), readPieces_data mapsHandler _ chunks hne]
  dsimp only
  rw [← scan, scan_eq_expected mapsHandler hno]

end Userpc
end Tools
end V6User
