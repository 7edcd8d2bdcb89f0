import Mathlib.Data.List.Rotate
import V6User.Shell.LineBuf

/-!
# The command history

`programs/sh/sh.c`: `history`, `history_count`, `history_idx`, `history_start` and
`history_add` to `history_reset`.

The lines are kept in a ring of 32 buffers.  `History.entries` reads them off in
order, the oldest first, and `entries_historyAdd` says what `history_add` does to
them: a line is appended unless it is empty or repeats the last one, and the oldest
makes room for it where the ring is full.
-/

namespace V6User
namespace Shell

/-- `HISTORY_SIZE`. -/
def historySize : ℕ := 32

theorem nul_notMem_empty : (0 : Byte) ∉ ([] : List Byte) := List.not_mem_nil

/-- The empty string. -/
def CStr.empty : CStr := ⟨[], nul_notMem_empty⟩

/-- `history`, `history_count`, `history_idx` and `history_start`: each of the
buffers holds a string and its NUL. -/
structure History where
  slots : List CStr
  count : ℕ
  idx : ℕ
  start : ℕ
  size : slots.length = historySize
  slots_lt : ∀ s ∈ slots, s.bytes.length < lineBufSize

/-- The history of a shell that has just been started. -/
def History.initial : History where
  slots := List.replicate historySize .empty
  count := 0
  idx := 0
  start := 0
  size := List.length_replicate
  slots_lt := fun s hs => by
    rw [List.eq_of_mem_replicate hs]
    decide

/-- `history[i]`. -/
def History.slot (h : History) (i : ℕ) : CStr := h.slots.getD i .empty

/-- `memcpy(history[i], line, n); history[i][n] = 0;` -/
def History.store (h : History) (i : ℕ) (line : CStr) : History where
  slots := h.slots.set i (line.take (lineBufSize - 1))
  count := h.count
  idx := h.idx
  start := h.start
  size := by rw [List.length_set, h.size]
  slots_lt := by
    intro s hs
    rcases List.mem_or_eq_of_mem_set hs with hs | rfl
    · exact h.slots_lt s hs
    · rw [CStr.take_bytes, List.length_take]
      exact (Nat.min_le_left _ _).trans_lt (by decide)

/-- The line in the next free buffer. -/
def History.append (h : History) (line : CStr) : History :=
  { h with count := h.count + 1 }.store h.count line

/-- The line in the place of the oldest. -/
def History.turn (h : History) (line : CStr) : History :=
  { h with start := (h.start + 1) % historySize }.store h.start line

/-- `history_add(line)`. -/
def historyAdd (h : History) (line : CStr) : History :=
  if line.bytes = [] then h
  else if 0 < h.count ∧ h.slot ((h.start + h.count - 1) % historySize) = line then h
  else if h.count < historySize then h.append line
  else h.turn line

/-- `history_prev()`. -/
def historyPrev (h : History) (l : LineBuf) : History × LineBuf :=
  if h.count = 0 ∨ h.idx = 0 then (h, termBell l)
  else
    let h := { h with idx := h.idx - 1 }
    (h, lineSet l (h.slot ((h.start + h.idx) % historySize)))

/-- `history_next()`. -/
def historyNext (h : History) (l : LineBuf) : History × LineBuf :=
  if h.idx + 1 < h.count then
    let h := { h with idx := h.idx + 1 }
    (h, lineSet l (h.slot ((h.start + h.idx) % historySize)))
  else if h.idx + 1 = h.count then ({ h with idx := h.count }, lineSet l .empty)
  else (h, termBell l)

/-- `history_reset()`. -/
def historyReset (h : History) : History := { h with idx := h.count }

/-- The lines of the history, the oldest first. -/
def History.entries (h : History) : List CStr := (h.slots.rotate h.start).take h.count

/-- The ring is filled from its first buffer on before it turns. -/
structure History.Ok (h : History) : Prop where
  count_le : h.count ≤ historySize
  start_lt : h.start < historySize
  start_zero : h.count < historySize → h.start = 0
  idx_le : h.idx ≤ h.count

/-- A history with one line more, of at most `size` lines: a line that is empty or
repeats the last one is left out. -/
def remember (size : ℕ) (hs : List CStr) (line : CStr) : List CStr :=
  if line.bytes = [] ∨ hs.getLast? = some line then hs
  else (hs ++ [line]).drop (hs.length + 1 - size)

theorem mem_remember {size : ℕ} {hs : List CStr} {line s : CStr} (h : s ∈ remember size hs line) :
    s ∈ hs ∨ s = line := by
  rw [remember] at h
  split_ifs at h
  · exact .inl h
  · rcases List.mem_append.1 (List.mem_of_mem_drop h) with h | h
    · exact .inl h
    · exact .inr (List.mem_singleton.1 h)

variable {h : History}

theorem History.ok_initial : History.initial.Ok :=
  ⟨Nat.zero_le _, Nat.zero_lt_succ 31, fun _ => rfl, Nat.le_refl 0⟩

theorem History.length_entries (hok : h.Ok) : h.entries.length = h.count := by
  rw [entries, List.length_take, List.length_rotate, h.size, Nat.min_eq_left hok.count_le]

/-- The lines in their buffers. -/
theorem History.getElem?_entries {i : ℕ} (hi : i < h.count) (hcount : h.count ≤ historySize) :
    h.entries[i]? = some (h.slot ((h.start + i) % historySize)) := by
  have hsize := h.size
  have hlt : (i + h.start) % h.slots.length < h.slots.length :=
    Nat.mod_lt _ (by rw [hsize]; decide)
  rw [entries, List.getElem?_take_of_lt hi, List.getElem?_rotate (by omega), History.slot,
    List.getD_eq_getElem?_getD, Nat.add_comm h.start, ← hsize, List.getElem?_eq_getElem hlt]
  rfl

theorem History.getLast?_entries (hok : h.Ok) (hpos : 0 < h.count) :
    h.entries.getLast? = some (h.slot ((h.start + h.count - 1) % historySize)) := by
  rw [List.getLast?_eq_getElem?, length_entries hok, getElem?_entries (by omega) hok.count_le,
    Nat.add_sub_assoc hpos]

theorem History.slot_store_self {i : ℕ} (hi : i < historySize) (line : CStr) :
    (h.store i line).slot i = line.take (lineBufSize - 1) := by
  have hlt : i < h.slots.length := by rw [h.size]; exact hi
  rw [slot, List.getD_eq_getElem?_getD, store, List.getElem?_set_self hlt]
  rfl

theorem History.slot_store_of_ne {i j : ℕ} (hij : i ≠ j) (line : CStr) :
    (h.store i line).slot j = h.slot j := by
  rw [slot, slot, List.getD_eq_getElem?_getD, List.getD_eq_getElem?_getD, store,
    List.getElem?_set_ne hij]

/-- Room in the ring: the line is appended. -/
theorem History.entries_append (hok : h.Ok) {line : CStr} (hline : line.bytes.length < lineBufSize)
    (hroom : h.count < historySize) :
    (h.append line).entries = h.entries ++ [line] := by
  have hstart := hok.start_zero hroom
  have htake : line.take (lineBufSize - 1) = line := CStr.mk.injEq .. ▸
    List.take_of_length_le (Nat.le_sub_one_of_lt hline)
  refine List.ext_getElem? fun i => ?_
  rcases Nat.lt_trichotomy i h.count with hi | rfl | hi
  · have hnew := getElem?_entries (h := h.append line) (Nat.lt_succ_of_lt hi) hroom
    have hindex : ((h.append line).start + i) % historySize = i := by
      show (h.start + i) % historySize = i
      rw [hstart, Nat.zero_add, Nat.mod_eq_of_lt (hi.trans hroom)]
    rw [hnew, hindex, append, slot_store_of_ne (Nat.ne_of_gt hi), List.getElem?_append_left
      (by rw [length_entries hok]; exact hi), getElem?_entries hi hok.count_le, hstart,
      Nat.zero_add, Nat.mod_eq_of_lt (hi.trans hroom)]
    rfl
  · have hnew := getElem?_entries (h := h.append line) (Nat.lt_succ_self h.count) hroom
    have hindex : ((h.append line).start + h.count) % historySize = h.count := by
      show (h.start + h.count) % historySize = h.count
      rw [hstart, Nat.zero_add, Nat.mod_eq_of_lt hroom]
    rw [hnew, hindex, append, slot_store_self hroom, htake, List.getElem?_append_right
      (by rw [length_entries hok]), length_entries hok, Nat.sub_self]
    rfl
  · rw [List.getElem?_eq_none, List.getElem?_eq_none]
    · rw [List.length_append, length_entries hok, List.length_singleton]
      omega
    · rw [entries, List.length_take]
      exact (Nat.min_le_left _ _).trans hi

/-- No room in the ring: the oldest line makes room. -/
theorem History.entries_turn (hok : h.Ok) {line : CStr} (hline : line.bytes.length < lineBufSize)
    (hfull : h.count = historySize) :
    (h.turn line).entries = h.entries.tail ++ [line] := by
  have hsize : historySize = 32 := rfl
  have hstart := hok.start_lt
  have htake : line.take (lineBufSize - 1) = line := CStr.mk.injEq .. ▸
    List.take_of_length_le (Nat.le_sub_one_of_lt hline)
  have hlen : h.entries.tail.length = historySize - 1 := by
    rw [List.length_tail, length_entries hok, hfull]
  refine List.ext_getElem? fun i => ?_
  rcases Nat.lt_trichotomy i (historySize - 1) with hi | rfl | hi
  · have hnew := getElem?_entries (h := h.turn line) (i := i) (by show i < h.count; omega) hfull.le
    have hindex : ((h.turn line).start + i) % historySize = (h.start + (i + 1)) % historySize := by
      show ((h.start + 1) % 32 + i) % 32 = (h.start + (i + 1)) % 32
      omega
    rw [hnew, hindex, turn, slot_store_of_ne (by rw [hsize]; omega),
      List.getElem?_append_left (by omega), List.getElem?_tail, getElem?_entries (by omega) hfull.le]
    rfl
  · have hnew := getElem?_entries (h := h.turn line) (i := historySize - 1)
      (by show historySize - 1 < h.count; omega) hfull.le
    have hindex : ((h.turn line).start + (historySize - 1)) % historySize = h.start := by
      show ((h.start + 1) % 32 + 31) % 32 = h.start
      omega
    rw [hnew, hindex, turn, slot_store_self hstart, htake, List.getElem?_append_right (by omega),
      hlen, Nat.sub_self]
    rfl
  · rw [List.getElem?_eq_none, List.getElem?_eq_none]
    · rw [List.length_append, hlen, List.length_singleton]
      omega
    · rw [entries, List.length_take]
      show min h.count _ ≤ i
      omega

/-- **`history_add` remembers the line.** -/
theorem History.entries_historyAdd (hok : h.Ok) {line : CStr}
    (hline : line.bytes.length < lineBufSize) :
    (historyAdd h line).entries = remember historySize h.entries line := by
  have hle := hok.count_le
  rw [historyAdd, remember]
  by_cases hempty : line.bytes = []
  · rw [if_pos hempty, if_pos (.inl hempty)]
  · have hlast : (0 < h.count ∧ h.slot ((h.start + h.count - 1) % historySize) = line) ↔
        h.entries.getLast? = some line := by
      by_cases hpos : 0 < h.count
      · rw [getLast?_entries hok hpos, Option.some.injEq]
        exact and_iff_right hpos
      · have hnil : h.entries = [] := by
          rw [← List.length_eq_zero_iff, length_entries hok]
          omega
        simp [hpos, hnil]
    rw [if_neg hempty]
    simp only [hlast, hempty, false_or, length_entries hok]
    split_ifs with hdup hroom
    · rfl
    · rw [entries_append hok hline hroom, Nat.sub_eq_zero_of_le hroom, List.drop_zero]
    · have hfull : h.count = historySize := by omega
      have hne : h.entries ≠ [] := by
        rw [← List.length_pos_iff, length_entries hok, hfull]
        decide
      rw [entries_turn hok hline hfull, hfull, Nat.add_sub_cancel_left, List.drop_append_of_le_length
        (by rw [length_entries hok, hfull]; decide), List.drop_one]

theorem History.Ok.historyAdd (hok : h.Ok) (line : CStr) : (historyAdd h line).Ok := by
  have hsize : historySize = 32 := rfl
  obtain ⟨hcount, hlt, hzero, hidx⟩ := hok
  rw [Shell.historyAdd]
  split_ifs with hempty hdup hroom
  · exact ⟨hcount, hlt, hzero, hidx⟩
  · exact ⟨hcount, hlt, hzero, hidx⟩
  · exact ⟨hroom, hlt, fun _ => hzero hroom, Nat.le_succ_of_le hidx⟩
  · exact ⟨hcount, Nat.mod_lt _ (by decide), fun h => absurd h hroom, hidx⟩

end Shell
end V6User
