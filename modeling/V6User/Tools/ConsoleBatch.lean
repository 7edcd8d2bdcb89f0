import V6User.Base.Lines
import V6User.Tools.ConsoleRecord

/-!
# Reading a batch of console records

`programs/consolerecord/consolerecord.c`: `read_batch_file`, which reads the records of a batch
from a regular file into a buffer and checks them one after the other.

The file and the system are a `World`: what `lstat` and `fstat` answer, the bytes that are
read, how `read` splits them and where it is interrupted, and the open descriptors and the
buffers that are not freed.  `Accepts` says which files are a batch.  The function returns
the bytes of just these, whatever the splitting, and releases what it does not return
(`readBatchFile_iff`).
-/

namespace V6User
namespace Tools
namespace ConsoleBatch

open Process
open ConsoleRecord (Stat Errno Flag isReg sourceFlags)
open Lines (terminated unterminated)
open Shell (Byte)

/-! ### The calls -/

/-- What the header of the console fixes: the limits of a batch, which are `int`s, and the
checks of a record and of a batch. -/
structure Header where
  maxInputBytes : ℕ
  maxRecords : ℕ
  maxLogicalBytes : ℕ
  wireTextValid : (text : List Byte) → (len : ℕ) → Bool
  batchWireTextValid : (data : List Byte) → (len count : ℕ) → Bool
  input_small : maxInputBytes < 2 ^ 31
  logical_small : maxLogicalBytes < 2 ^ 31

/-- The calls.  A buffer is a number that `malloc` gives. -/
inductive Call
  | lstat (path : List Byte)
  | open (path : List Byte) (flags : List Flag)
  | fstat (fd : ℕ)
  | malloc (n : ℕ)
  | read (fd n : ℕ)
  | close (fd : ℕ)
  | free (buffer : ℕ)

/-- What a call answers. -/
def Reply : Call → Type
  | .lstat _ | .fstat _ => Except Errno Stat
  | .open _ _ => Except Errno ℕ
  | .malloc _ => Option ℕ
  | .read _ n => Except Errno {bytes : List Byte // bytes.length ≤ n}
  | .close _ => Except Errno Unit
  | .free _ => Unit

abbrev Prog (α : Type) : Type := Process Call Reply Empty α

def lstat (path : List Byte) : Prog (Except Errno Stat) := call (Call.lstat path)

def openFd (path : List Byte) (flags : List Flag) : Prog (Except Errno ℕ) :=
  call (Call.open path flags)

def fstat (fd : ℕ) : Prog (Except Errno Stat) := call (Call.fstat fd)

def malloc (n : ℕ) : Prog (Option ℕ) := call (Call.malloc n)

def read (fd n : ℕ) : Prog (Except Errno {bytes : List Byte // bytes.length ≤ n}) :=
  call (Call.read fd n)

def close (fd : ℕ) : Prog (Except Errno Unit) := call (Call.close fd)

def free (buffer : ℕ) : Prog Unit := call (Call.free buffer)

/-! ### The function -/

/-- What the function gives back: `*data_out` with its bytes, `*data_len_out` and
`*record_count_out`. -/
structure Batch where
  buffer : ℕ
  data : List Byte
  dataLen : ℕ
  recordCount : ℕ

/-- The comparison of the device, the inode and the size. -/
def sameFile (pathStat fileStat : Stat) : Bool :=
  fileStat.dev == pathStat.dev && fileStat.ino == pathStat.ino && fileStat.size == pathStat.size

/-- The first loop: the bytes of the file, of which `data` are there. -/
def readData (fd size : ℕ) : ℕ → List Byte → Prog (Option (List Byte))
  | 0, _ => .stuck
  | fuel + 1, data =>
    if data.length < size then do
      match ← read fd (size - data.length) with
      | .error .eintr => readData fd size fuel data
      | .error _ => pure none
      | .ok bytes => if bytes.1 = [] then pure none else readData fd size fuel (data ++ bytes.1)
    else pure (some data)

/-- The second loop: whether the file ends there and is still the same. -/
def readEnd (fd : ℕ) (pathStat : Stat) : ℕ → Prog Bool
  | 0 => .stuck
  | fuel + 1 => do
    match ← read fd 1 with
    | .error .eintr => readEnd fd pathStat fuel
    | .error _ => pure false
    | .ok bytes =>
      if bytes.1 ≠ [] then pure false
      else match ← fstat fd with
        | .error _ => pure false
        | .ok fileStat => pure (sameFile pathStat fileStat)

/-- The loop over the bytes from `data[i]` on: `recordBytes` and `recordCount` at the end. -/
def scanLoop (H : Header) (data : List Byte) :
    List Byte → (i recordBytes recordCount : ℕ) → Option (ℕ × ℕ)
  | [], _, recordBytes, recordCount => some (recordBytes, recordCount)
  | c :: rest, i, recordBytes, recordCount =>
    let recordBytes := recordBytes + 1
    if recordBytes > H.maxInputBytes then none
    else if c = 10 then
      if recordBytes = 1 ∨
          !H.wireTextValid ((data.drop (i + 1 - recordBytes)).take recordBytes) recordBytes ∨
          recordCount = H.maxRecords then none
      else scanLoop H data rest (i + 1) 0 (recordCount + 1)
    else if c < 0x20 ∨ 0x7e < c then none
    else scanLoop H data rest (i + 1) recordBytes recordCount

/-- The checks of the records: how many there are. -/
def checkRecords (H : Header) (data : List Byte) : Option ℕ :=
  match scanLoop H data data 0 0 0 with
  | none => none
  | some (recordBytes, recordCount) =>
    if recordBytes ≠ 0 ∨ recordCount = 0 ∨
        !H.batchWireTextValid data data.length recordCount then none
    else some recordCount

/-- `free(data)` and the failure. -/
def discard (buffer : ℕ) : Prog (Option Batch) := do
  let _ ← free buffer
  pure none

/-- `read_batch_file` from the loop over the bytes on. -/
def checkBatch (H : Header) (buffer : ℕ) (data : List Byte) : Prog (Option Batch) :=
  match checkRecords H data with
  | none => discard buffer
  | some recordCount => pure (some ⟨buffer, data, data.length, recordCount⟩)

/-- `free(data)`, `close(fd)` and the failure. -/
def discardClose (buffer fd : ℕ) : Prog (Option Batch) := do
  let _ ← free buffer
  let _ ← close fd
  pure none

/-- `close(fd)` and the failure. -/
def closeOnly (fd : ℕ) : Prog (Option Batch) := do
  let _ ← close fd
  pure none

/-- `read_batch_file` from the first loop on. -/
def fillBuffer (H : Header) (fuel fd buffer size : ℕ) (pathStat : Stat) :
    Prog (Option Batch) := do
  match ← readData fd size fuel [] with
  | none => discardClose buffer fd
  | some data =>
    if !(← readEnd fd pathStat fuel) then discardClose buffer fd
    else
      let _ ← close fd
      checkBatch H buffer data

/-- `read_batch_file` from the first `fstat` on. -/
def readOpened (H : Header) (fuel fd : ℕ) (pathStat : Stat) : Prog (Option Batch) := do
  match ← fstat fd with
  | .error _ => closeOnly fd
  | .ok fileStat =>
    if !isReg fileStat.mode || !sameFile pathStat fileStat then closeOnly fd
    else match ← malloc fileStat.size.toNat with
      | none => closeOnly fd
      | some buffer => fillBuffer H fuel fd buffer fileStat.size.toNat pathStat

/-- `read_batch_file`.  The fuel bounds the passes of its two loops over `read`. -/
def readBatchFile (H : Header) (fuel : ℕ) (path : Option (List Byte)) : Prog (Option Batch) :=
  match path with
  | none => pure none
  | some path =>
    if path = [] then pure none
    else do
      match ← lstat path with
      | .error _ => pure none
      | .ok pathStat =>
        if !isReg pathStat.mode || pathStat.size ≤ 0 || H.maxLogicalBytes < pathStat.size then
          pure none
        else match ← openFd path sourceFlags with
          | .error _ => pure none
          | .ok fd => readOpened H fuel fd pathStat

/-! ### The records -/

/-- A record, without its newline: not empty, printable, not too long with the newline and
accepted by the header. -/
structure IsRecord (H : Header) (text : List Byte) : Prop where
  nonempty : text ≠ []
  printable : ∀ c ∈ text, 0x20 ≤ c ∧ c ≤ 0x7e
  length_le : text.length + 1 ≤ H.maxInputBytes
  valid : H.wireTextValid (text ++ [10]) (text.length + 1) = true

/-- From 1 to `maxRecords` records, each with its newline, which the header accepts together. -/
structure IsBatch (H : Header) (data : List Byte) : Prop where
  complete : unterminated 10 data = []
  nonempty : 1 ≤ (terminated 10 data).length
  length_le : (terminated 10 data).length ≤ H.maxRecords
  records : ∀ text ∈ terminated 10 data, IsRecord H text
  valid : H.batchWireTextValid data data.length (terminated 10 data).length = true

variable {H : Header} {data text rest s : List Byte} {i recordBytes recordCount n : ℕ}
  {p : ℕ × ℕ}

/-- Bytes that are no newline. -/
theorem scanLoop_text (htext : 10 ∉ text) :
    scanLoop H data (text ++ rest) i recordBytes recordCount = some p ↔
      (∀ c ∈ text, 0x20 ≤ c ∧ c ≤ 0x7e) ∧
      (text ≠ [] → recordBytes + text.length ≤ H.maxInputBytes) ∧
      scanLoop H data rest (i + text.length) (recordBytes + text.length) recordCount = some p := by
  induction text generalizing i recordBytes with
  | nil => simp
  | cons c text ih =>
    rw [List.mem_cons, not_or] at htext
    have hc : c ≠ 10 := fun heq => htext.1 heq.symm
    have hlater := @ih (i + 1) (recordBytes + 1) htext.2
    rw [Nat.add_assoc i, Nat.add_assoc recordBytes, Nat.add_comm 1] at hlater
    rw [List.cons_append, scanLoop, if_neg hc, List.length_cons, List.forall_mem_cons]
    constructor
    · intro h
      split_ifs at h with hlong hprint
      obtain ⟨hall, hlen, hrest⟩ := hlater.1 h
      rw [not_or, UInt8.not_lt, UInt8.not_lt] at hprint
      refine ⟨⟨hprint, hall⟩, fun _ => ?_, hrest⟩
      rcases eq_or_ne text [] with rfl | hne
      · rw [List.length_nil]
        omega
      · have hle := hlen hne
        omega
    · rintro ⟨⟨hprint, hall⟩, hlen, hrest⟩
      have hlong := hlen (List.cons_ne_nil _ _)
      rw [if_neg (by omega), if_neg (by rwa [not_or, UInt8.not_lt, UInt8.not_lt])]
      exact hlater.2 ⟨hall, fun _ => by omega, hrest⟩

/-- A record. -/
theorem scanLoop_line (htext : 10 ∉ text) (hdata : data.drop i = text ++ 10 :: rest) :
    scanLoop H data (text ++ 10 :: rest) i 0 recordCount = some p ↔
      IsRecord H text ∧ recordCount ≠ H.maxRecords ∧
        scanLoop H data rest (i + text.length + 1) 0 (recordCount + 1) = some p := by
  have hrecord : (data.drop (i + text.length + 1 - (text.length + 1))).take (text.length + 1) =
      text ++ [10] := by
    rw [show i + text.length + 1 - (text.length + 1) = i by omega, hdata,
      List.take_append, List.take_of_length_le (by omega),
      show text.length + 1 - text.length = 1 by omega]
    rfl
  rw [scanLoop_text htext, Nat.zero_add, scanLoop, if_pos rfl, hrecord]
  constructor
  · rintro ⟨hprint, -, h⟩
    split_ifs at h with hlong hbad
    rw [not_or, not_or, Bool.not_eq_true', Bool.not_eq_false] at hbad
    have hne : text ≠ [] := by
      rintro rfl
      exact hbad.1 rfl
    exact ⟨⟨hne, hprint, by omega, hbad.2.1⟩, hbad.2.2, h⟩
  · rintro ⟨hr, hcount, h⟩
    have hpos := List.length_pos_iff.2 hr.nonempty
    have hle := hr.length_le
    refine ⟨hr.printable, fun _ => by omega, ?_⟩
    rw [if_neg (by omega), if_neg, h]
    rw [not_or, not_or, hr.valid]
    exact ⟨by omega, by decide, hcount⟩

/-- **The loop over the bytes.**  It takes the records one after the other, and then the bytes
of an unfinished one. -/
theorem scanLoop_iff (hcount : recordCount ≤ H.maxRecords) (hdata : data.drop i = s) :
    scanLoop H data s i 0 recordCount = some p ↔
      (∀ text ∈ terminated 10 s, IsRecord H text) ∧
      recordCount + (terminated 10 s).length ≤ H.maxRecords ∧
      (∀ c ∈ unterminated 10 s, 0x20 ≤ c ∧ c ≤ 0x7e) ∧
      (unterminated 10 s ≠ [] → (unterminated 10 s).length ≤ H.maxInputBytes) ∧
      p = ((unterminated 10 s).length, recordCount + (terminated 10 s).length) := by
  induction s using Lines.line_induction (10 : Byte) generalizing i recordCount with
  | last s hs =>
    have htext := @scanLoop_text H data s [] i 0 recordCount p hs
    rw [List.append_nil, Nat.zero_add, scanLoop, Option.some_inj] at htext
    rw [htext, Lines.terminated_of_notMem hs, Lines.unterminated_of_notMem hs, List.length_nil,
      Nat.add_zero, eq_comm (a := p)]
    simp [hcount]
  | line text rest htext ih =>
    have hrest : data.drop (i + text.length + 1) = rest := by
      rw [Nat.add_assoc, ← List.drop_drop, hdata, ← List.drop_drop, List.drop_left]
      rfl
    rw [scanLoop_line htext hdata, Lines.terminated_line htext, Lines.unterminated_line htext,
      List.forall_mem_cons, List.length_cons]
    constructor
    · rintro ⟨hr, hmax, h⟩
      obtain ⟨hall, hlen, hprint, hshort, hp⟩ := (ih (by omega) hrest).1 h
      exact ⟨⟨hr, hall⟩, by omega, hprint, hshort, by rw [hp]; congr 1; omega⟩
    · rintro ⟨⟨hr, hall⟩, hlen, hprint, hshort, hp⟩
      refine ⟨hr, by omega, (ih (by omega) hrest).2 ⟨hall, by omega, hprint, hshort, ?_⟩⟩
      rw [hp]
      congr 1
      omega

/-- **The checks accept just the batches.** -/
theorem checkRecords_iff :
    checkRecords H data = some n ↔ IsBatch H data ∧ n = data.count 10 := by
  rw [← Lines.length_terminated]
  have hloop := fun p => @scanLoop_iff H data data 0 0 p (Nat.zero_le _) List.drop_zero
  simp only [Nat.zero_add] at hloop
  unfold checkRecords
  constructor
  · intro h
    rcases hscan : scanLoop H data data 0 0 0 with _ | p
    · simp [hscan] at h
    · obtain ⟨hall, hlen, -, -, rfl⟩ := (hloop p).1 hscan
      rw [hscan] at h
      dsimp only at h
      split_ifs at h with hbad
      obtain rfl := Option.some.inj h
      rw [not_or, not_or, not_not, Bool.not_eq_true', Bool.not_eq_false] at hbad
      obtain ⟨hend, hsome, hvalid⟩ := hbad
      exact ⟨⟨List.eq_nil_of_length_eq_zero hend, Nat.one_le_iff_ne_zero.2 hsome, hlen, hall,
        hvalid⟩, rfl⟩
  · rintro ⟨hb, rfl⟩
    have hscan := (hloop _).2 ⟨hb.records, hb.length_le, by simp [hb.complete],
      by simp [hb.complete], rfl⟩
    rw [hscan]
    dsimp only
    rw [if_neg]
    rw [not_or, not_or, hb.complete, hb.valid]
    exact ⟨by simp, Nat.one_le_iff_ne_zero.1 hb.nonempty, by decide⟩

/-! ### The file and the system -/

/-- What `lstat` and the calls of `fstat` answer, the bytes that are still to be read, how the
next calls of `read` split them (`none` is an interrupt, `some k` gives at most `k + 1` bytes,
and after these `read` gives what it is asked for), and the descriptors and buffers. -/
structure World where
  pathStat : Stat
  fileStats : ℕ → Stat
  content : List Byte
  pieces : List (Option ℕ)
  fds : List ℕ
  buffers : List ℕ

/-- `read`: no bytes at the end of the file only. -/
def World.read (w : World) (n : ℕ) :
    Except Errno {bytes : List Byte // bytes.length ≤ n} × World :=
  match w.pieces with
  | [] => (.ok ⟨w.content.take n, List.length_take_le _ _⟩, { w with content := w.content.drop n })
  | none :: pieces => (.error .eintr, { w with pieces })
  | some k :: pieces =>
    (.ok ⟨w.content.take (min (k + 1) n),
        (List.length_take_le _ _).trans (Nat.min_le_right _ _)⟩,
      { w with content := w.content.drop (min (k + 1) n), pieces })

/-- A number that is not in use. -/
def unused (numbers : List ℕ) : ℕ := numbers.foldr max 0 + 1

/-- The answers: `malloc` and the other calls succeed. -/
def World.answer (w : World) : (c : Call) → Reply c × World
  | .lstat _ => (.ok w.pathStat, w)
  | .open _ _ => (.ok (unused w.fds), { w with fds := unused w.fds :: w.fds })
  | .fstat _ => (.ok (w.fileStats 0), { w with fileStats := fun i => w.fileStats (i + 1) })
  | .malloc _ => (some (unused w.buffers), { w with buffers := unused w.buffers :: w.buffers })
  | .read _ n => w.read n
  | .close fd => (.ok (), { w with fds := w.fds.erase fd })
  | .free buffer => ((), { w with buffers := w.buffers.erase buffer })

/-- The file is a regular one, and the same from `lstat` to the last `fstat`. -/
structure Unchanged (w : World) : Prop where
  path_reg : isReg w.pathStat.mode = true
  opened_reg : isReg (w.fileStats 0).mode = true
  opened : sameFile w.pathStat (w.fileStats 0) = true
  ended : sameFile w.pathStat (w.fileStats 1) = true
  length : (w.content.length : ℤ) = w.pathStat.size

/-- The files that are a batch. -/
structure Accepts (H : Header) (w : World) : Prop where
  unchanged : Unchanged w
  size_pos : 1 ≤ w.pathStat.size
  size_le : w.pathStat.size ≤ H.maxLogicalBytes
  batch : IsBatch H w.content

variable {w : World} {fd fuel size buffer : ℕ} {path : List Byte} {flags : List Flag} {α : Type}

/-! What each call does in a run. -/

@[simp] theorem run_lstat {f : Except Errno Stat → Prog α} :
    run World.answer (lstat path >>= f) w = run World.answer (f (.ok w.pathStat)) w :=
  run_call_bind ..

@[simp] theorem run_openFd {f : Except Errno ℕ → Prog α} :
    run World.answer (openFd path flags >>= f) w =
      run World.answer (f (.ok (unused w.fds))) { w with fds := unused w.fds :: w.fds } :=
  run_call_bind ..

@[simp] theorem run_fstat {f : Except Errno Stat → Prog α} :
    run World.answer (fstat fd >>= f) w = run World.answer (f (.ok (w.fileStats 0)))
      { w with fileStats := fun i => w.fileStats (i + 1) } :=
  run_call_bind ..

@[simp] theorem run_malloc {f : Option ℕ → Prog α} :
    run World.answer (malloc n >>= f) w = run World.answer (f (some (unused w.buffers)))
      { w with buffers := unused w.buffers :: w.buffers } :=
  run_call_bind ..

@[simp] theorem run_read
    {f : Except Errno {bytes : List Byte // bytes.length ≤ n} → Prog α} :
    run World.answer (read fd n >>= f) w = run World.answer (f (w.read n).1) (w.read n).2 :=
  run_call_bind ..

@[simp] theorem run_close {f : Except Errno Unit → Prog α} :
    run World.answer (close fd >>= f) w =
      run World.answer (f (.ok ())) { w with fds := w.fds.erase fd } :=
  run_call_bind ..

@[simp] theorem run_free {f : Unit → Prog α} :
    run World.answer (free buffer >>= f) w =
      run World.answer (f ()) { w with buffers := w.buffers.erase buffer } :=
  run_call_bind ..

/-- **What `read` does**: it is interrupted, or gives some bytes, and none at the end only. -/
theorem World.read_cases (w : World) {n : ℕ} (hn : 1 ≤ n) :
    (∃ pieces, pieces.length < w.pieces.length ∧ w.read n = (.error .eintr, { w with pieces })) ∨
    ∃ (bytes : {bytes : List Byte // bytes.length ≤ n}) (k : ℕ) (pieces : List (Option ℕ)),
      k ≤ n ∧ k ≤ w.content.length ∧ (k = 0 → w.content = []) ∧ bytes.1 = w.content.take k ∧
        pieces.length ≤ w.pieces.length ∧
        w.read n = (.ok bytes, { w with content := w.content.drop k, pieces }) := by
  have hsome : ∀ m, 1 ≤ m → m ≤ n → ∃ k, k ≤ n ∧ k ≤ w.content.length ∧
      (k = 0 → w.content = []) ∧ w.content.take m = w.content.take k ∧
      w.content.drop m = w.content.drop k := by
    intro m hm hle
    rcases Nat.le_total m w.content.length with h | h
    · exact ⟨m, hle, h, by omega, rfl, rfl⟩
    · refine ⟨w.content.length, by omega, Nat.le_refl _, List.eq_nil_of_length_eq_zero, ?_, ?_⟩
      · rw [List.take_of_length_le h, List.take_length]
      · rw [List.drop_of_length_le h, List.drop_length]
  rcases hp : w.pieces with _ | ⟨_ | k, pieces⟩
  · obtain ⟨k, hk, hlen, hnil, htake, hdrop⟩ := hsome n hn (Nat.le_refl _)
    refine .inr ⟨⟨w.content.take n, List.length_take_le _ _⟩, k, [], hk, hlen, hnil, htake,
      Nat.le_refl _, ?_⟩
    rw [World.read, hp, ← hdrop]
  · refine .inl ⟨pieces, by simp, ?_⟩
    rw [World.read, hp]
  · obtain ⟨k', hk, hlen, hnil, htake, hdrop⟩ := hsome (min (k + 1) n) (by omega) (by omega)
    refine .inr ⟨⟨w.content.take (min (k + 1) n), (List.length_take_le _ _).trans (by omega)⟩, k',
      pieces, hk, hlen, hnil, htake, by simp, ?_⟩
    rw [World.read, hp, ← hdrop]

/-- **The first loop**, when there is fuel for the splitting. -/
theorem run_readData (hfuel : w.pieces.length + w.content.length < fuel) :
    ∃ pieces, pieces.length ≤ w.pieces.length ∧
      run World.answer (readData fd size fuel data) w =
        (pure (if size ≤ data.length + w.content.length
            then some (data ++ w.content.take (size - data.length)) else none),
          { w with content := w.content.drop (size - data.length), pieces }) := by
  induction fuel generalizing data w with
  | zero => omega
  | succ fuel ih =>
    unfold readData
    by_cases hlt : data.length < size
    · rw [if_pos hlt, run_read]
      rcases w.read_cases (n := size - data.length) (by omega) with
        ⟨pieces, hpieces, hread⟩ | ⟨bytes, k, pieces, hk, hlen, hnil, hbytes, hpieces, hread⟩
      · -- an interrupt uses up a piece
        rw [hread]
        obtain ⟨pieces', hle, hrun⟩ := @ih data { w with pieces } (by dsimp only; omega)
        dsimp only at hle
        exact ⟨pieces', by omega, hrun⟩
      · rw [hread]
        dsimp only
        rw [hbytes]
        rcases Nat.eq_zero_or_pos k with rfl | hpos
        · -- the end of the file
          rw [if_pos List.take_zero, hnil rfl, List.length_nil, if_neg (by omega), List.drop_nil,
            List.drop_nil]
          exact ⟨pieces, hpieces, rfl⟩
        · have htake : (w.content.take k).length = k := List.length_take_of_le hlen
          have hne : w.content.take k ≠ [] := List.ne_nil_of_length_pos (by omega)
          obtain ⟨pieces', hle, hrun⟩ := @ih (data ++ w.content.take k)
            { w with content := w.content.drop k, pieces }
            (by dsimp only; rw [List.length_drop]; omega)
          have hrest : size - data.length = k + (size - (data.length + k)) := by omega
          dsimp only at hle hrun
          rw [List.length_append, htake, List.length_drop, Nat.add_assoc, Nat.add_sub_cancel' hlen,
            List.append_assoc, List.drop_drop] at hrun
          rw [if_neg hne, hrest, List.take_add]
          exact ⟨pieces', by omega, hrun⟩
    · rw [if_neg hlt, if_pos (by omega), show size - data.length = 0 by omega]
      refine ⟨w.pieces, Nat.le_refl _, ?_⟩
      rw [List.take_zero, List.append_nil, List.drop_zero]
      rfl

/-- **The second loop**, which goes on where the first one ended. -/
theorem run_readEnd {pathStat : Stat} (hfuel : w.pieces.length < fuel) :
    ∃ w' : World, w'.fds = w.fds ∧ w'.buffers = w.buffers ∧
      run World.answer (readEnd fd pathStat fuel) w =
        (pure (decide (w.content = []) && sameFile pathStat (w.fileStats 0)), w') := by
  induction fuel generalizing w with
  | zero => omega
  | succ fuel ih =>
    unfold readEnd
    rw [run_read]
    rcases w.read_cases (n := 1) (Nat.le_refl 1) with
      ⟨pieces, hpieces, hread⟩ | ⟨bytes, k, pieces, hk, hlen, hnil, hbytes, hpieces, hread⟩
    · rw [hread]
      exact @ih { w with pieces } (by dsimp only; omega)
    · rw [hread]
      dsimp only
      rw [hbytes]
      rcases Nat.eq_zero_or_pos k with rfl | hpos
      · rw [if_neg (by simp), run_fstat, hnil rfl, decide_eq_true rfl, Bool.true_and]
        refine ⟨_, ?_, ?_, rfl⟩
        · rfl
        · rfl
      · have hne : w.content.take k ≠ [] := by
          refine List.ne_nil_of_length_pos ?_
          rw [List.length_take_of_le hlen]
          exact hpos
        have hcontent : w.content ≠ [] := fun h => hne (by rw [h, List.take_nil])
        rw [if_pos hne, decide_eq_false hcontent, Bool.false_and]
        refine ⟨_, ?_, ?_, rfl⟩
        · rfl
        · rfl

/-- How a call ends: a batch that is accepted and its buffer, or nothing and no buffer. -/
def Ends (fds buffers : List ℕ) (accepted : Prop) (content : List Byte)
    (q : Prog (Option Batch) × World) : Prop :=
  ∃ r, q.1 = pure r ∧ q.2.fds = fds ∧ (r.isSome = true ↔ accepted) ∧
    (r = none → q.2.buffers = buffers) ∧
    ∀ b ∈ r, b.data = content ∧ b.dataLen = content.length ∧
      b.recordCount = content.count 10 ∧ q.2.buffers = b.buffer :: buffers

variable {fds buffers : List ℕ} {accepted : Prop} {content : List Byte}

theorem ends_none (hfds : w.fds = fds) (hbuffers : w.buffers = buffers) (h : ¬accepted) :
    Ends fds buffers accepted content (pure none, w) :=
  ⟨none, rfl, hfds, iff_of_false Bool.false_ne_true h, fun _ => hbuffers, by simp⟩

theorem ends_checkBatch (hfds : w.fds = fds) (hbuffers : w.buffers = buffer :: buffers) :
    Ends fds buffers (IsBatch H data) data (run World.answer (checkBatch H buffer data) w) := by
  unfold checkBatch
  rcases hcheck : checkRecords H data with _ | n
  · have hnot : ¬IsBatch H data := fun h => by
      rw [checkRecords_iff.2 ⟨h, rfl⟩] at hcheck
      cases hcheck
    dsimp only
    rw [discard, run_free]
    exact ends_none hfds (by rw [hbuffers]; exact List.erase_cons_head ..) hnot
  · obtain ⟨hb, rfl⟩ := checkRecords_iff.1 hcheck
    refine ⟨some _, rfl, hfds, iff_of_true rfl hb, fun h => by simp at h, ?_⟩
    rintro b ⟨⟩
    exact ⟨rfl, rfl, rfl, hbuffers⟩

theorem ends_discardClose (hfds : w.fds = fd :: fds) (hbuffers : w.buffers = buffer :: buffers)
    (h : ¬accepted) :
    Ends fds buffers accepted content (run World.answer (discardClose buffer fd) w) := by
  rw [discardClose, run_free, run_close]
  exact ends_none (by rw [← List.erase_cons_head fd fds, ← hfds])
    (by rw [← List.erase_cons_head buffer buffers, ← hbuffers]) h

theorem ends_closeOnly (hfds : w.fds = fd :: fds) (hbuffers : w.buffers = buffers)
    (h : ¬accepted) : Ends fds buffers accepted content (run World.answer (closeOnly fd) w) := by
  rw [closeOnly, run_close]
  exact ends_none (by rw [← List.erase_cons_head fd fds, ← hfds]) hbuffers h

/-- **From the first loop on.** -/
theorem ends_fillBuffer {pathStat : Stat} (hfuel : w.pieces.length + w.content.length < fuel)
    (hfds : w.fds = fd :: fds) (hbuffers : w.buffers = buffer :: buffers) :
    Ends fds buffers (w.content.length = size ∧ sameFile pathStat (w.fileStats 0) = true ∧
        IsBatch H w.content) w.content
      (run World.answer (fillBuffer H fuel fd buffer size pathStat) w) := by
  obtain ⟨pieces, hpieces, hfirst⟩ := @run_readData [] w fd fuel size hfuel
  rw [List.length_nil, Nat.zero_add, Nat.sub_zero, List.nil_append] at hfirst
  rw [fillBuffer, run_bind hfirst]
  split_ifs with hsize
  · obtain ⟨w', hfds', hbuffers', hsecond⟩ := @run_readEnd
      { w with content := w.content.drop size, pieces } fd fuel pathStat (by dsimp only; omega)
    dsimp only at hfds' hbuffers' hsecond ⊢
    rw [run_bind hsecond]
    rw [hfds] at hfds'
    rw [hbuffers] at hbuffers'
    split_ifs with hchanged
    · refine ends_discardClose hfds' hbuffers' ?_
      rintro ⟨hlen, hsame, -⟩
      simp [hlen.symm, hsame] at hchanged
    · rw [Bool.not_eq_true', Bool.not_eq_false, Bool.and_eq_true, decide_eq_true_iff,
        List.drop_eq_nil_iff] at hchanged
      have hall : w.content.take size = w.content := List.take_of_length_le hchanged.1
      have hlen : w.content.length = size := by omega
      rw [run_close, hall]
      have hends := @ends_checkBatch H w.content { w' with fds := w'.fds.erase fd } buffer fds
        buffers (by rw [hfds']; exact List.erase_cons_head ..) hbuffers'
      simpa [hlen, hchanged.2] using hends
  · refine ends_discardClose hfds hbuffers ?_
    rintro ⟨hlen, -⟩
    omega

theorem Ends.congr {q : Prog (Option Batch) × World} {accepted' : Prop}
    (h : Ends fds buffers accepted content q) (hiff : accepted ↔ accepted') :
    Ends fds buffers accepted' content q := by
  obtain ⟨r, hr, hfds, hsome, hrest⟩ := h
  exact ⟨r, hr, hfds, hsome.trans hiff, hrest⟩

/-- **From the first `fstat` on.** -/
theorem ends_readOpened {pathStat : Stat} (hfuel : w.pieces.length + w.content.length < fuel)
    (hfds : w.fds = fd :: fds) (hpos : 1 ≤ pathStat.size) :
    Ends fds w.buffers (isReg (w.fileStats 0).mode = true ∧
        sameFile pathStat (w.fileStats 0) = true ∧ sameFile pathStat (w.fileStats 1) = true ∧
        (w.content.length : ℤ) = pathStat.size ∧ IsBatch H w.content) w.content
      (run World.answer (readOpened H fuel fd pathStat) w) := by
  rw [readOpened, run_fstat]
  dsimp only
  split_ifs with hchecked
  · refine ends_closeOnly hfds rfl ?_
    rintro ⟨hreg, hsame, -⟩
    simp [hreg, hsame] at hchecked
  · rw [Bool.or_eq_true, not_or, Bool.not_eq_true', Bool.not_eq_false, Bool.not_eq_true',
      Bool.not_eq_false] at hchecked
    obtain ⟨hreg, hsame⟩ := hchecked
    have hsize : (w.fileStats 0).size = pathStat.size := by
      simp only [sameFile, Bool.and_eq_true, beq_iff_eq] at hsame
      exact hsame.2
    rw [run_malloc]
    dsimp only
    have hfill := @ends_fillBuffer H
      { w with
        fileStats := fun i => w.fileStats (i + 1)
        buffers := unused w.buffers :: w.buffers }
      fd fuel (w.fileStats 0).size.toNat (unused w.buffers) fds w.buffers pathStat hfuel hfds rfl
    rw [hsize] at hfill ⊢
    refine hfill.congr ?_
    dsimp only
    constructor
    · rintro ⟨hlen, hended, hb⟩
      exact ⟨hreg, hsame, hended, by omega, hb⟩
    · rintro ⟨-, -, hended, hlen, hb⟩
      exact ⟨by omega, hended, hb⟩

/-- **The batch is the file.**  However `read` splits the file and is interrupted, the function
ends, and succeeds exactly when the file is accepted: then it gives the bytes of the file, the
number of its newlines and the buffer, which is all that is left.  Otherwise nothing is. -/
theorem readBatchFile_iff (H : Header) (path : Option (List Byte)) (w : World) (extra : ℕ) :
    Ends w.fds w.buffers ((∃ name ∈ path, name ≠ []) ∧ Accepts H w) w.content
      (run World.answer
        (readBatchFile H (w.pieces.length + w.content.length + 1 + extra) path) w) := by
  rcases path with _ | path
  · exact ends_none rfl rfl fun h => by simp at h
  unfold readBatchFile
  dsimp only
  split_ifs with hempty
  · exact ends_none rfl rfl fun h => by simp [hempty] at h
  rw [run_lstat]
  dsimp only
  split_ifs with hchecked
  · refine ends_none rfl rfl ?_
    rintro ⟨-, ha⟩
    have hreg := ha.unchanged.path_reg
    have hpos := ha.size_pos
    have hle := ha.size_le
    simp [hreg] at hchecked
    omega
  · simp only [Bool.or_eq_true, Bool.not_eq_true', decide_eq_true_eq, not_or, Bool.not_eq_false,
      Int.not_le, Int.not_lt] at hchecked
    obtain ⟨⟨hreg, hpos⟩, hle⟩ := hchecked
    rw [run_openFd]
    dsimp only
    refine (ends_readOpened (by dsimp only; omega) rfl (by omega)).congr ?_
    constructor
    · rintro ⟨hopened, hsame, hended, hlen, hb⟩
      exact ⟨⟨path, rfl, hempty⟩, ⟨hreg, hopened, hsame, hended, hlen⟩, by omega, hle, hb⟩
    · rintro ⟨-, ha⟩
      have hu := ha.unchanged
      exact ⟨hu.opened_reg, hu.opened, hu.ended, hu.length, ha.batch⟩

end ConsoleBatch
end Tools
end V6User
