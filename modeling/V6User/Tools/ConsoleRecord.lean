import Mathlib.Algebra.Group.Nat.Defs
import Mathlib.Data.Int.Init
import Mathlib.Data.List.Induction
import V6User.Base.Process
import V6User.Shell.Token

/-!
# Committing a terminal record

`programs/consolerecord/consolerecord.c`: `terminal_batch_file`, which reads the record of a
terminal from a private file, removes the file and commits the record to the console, with its
checks `terminal_marker_valid`, `terminal_private_source_valid` and
`terminal_source_identity_matches`.

Every call may fail, and another process may change the path between two of them, so nothing
is assumed about the answers, except that `read` gives at most as many bytes as were asked for.
The function goes through its steps in one order, and every failure leaves that order for the
end: `Verified` is a history in which all the checks before `unlink` went well, and `Consumed`
one in which the file is known to be gone as well.  Only after the one the path is unlinked,
and only after the other the record is committed (`terminalBatchFile_commits`).
-/

namespace V6User
namespace Tools
namespace ConsoleRecord

open Process
open Shell (Byte)

/-! ### The calls -/

/-- What the header of the console fixes: the longest marker, the length of the buffer, in
which the record of every marker fits, the numbers of the request, and the check of the text
of a record with its marker. -/
structure Header where
  markerMaxBytes : ℕ
  maxLogicalBytes : ℕ
  abiVersion : ℕ
  terminalCommit : ℕ
  commitWireTextValid : (data : List Byte) → (len count : ℕ) → (marker : List Byte) →
    (markerLen flags : ℕ) → Bool
  fits : markerMaxBytes * 2 + 13 ≤ maxLogicalBytes
  small : maxLogicalBytes < 2 ^ 31

/-- `struct stat`, as far as it is looked at. -/
structure Stat where
  dev : ℕ
  ino : ℕ
  mode : UInt32
  nlink : ℕ
  uid : ℕ
  size : ℤ

/-- The errors that the function tells apart. -/
inductive Errno
  | enoent
  | eintr
  | other (code : ℕ)
  deriving DecidableEq

/-- The flags of `open`. -/
inductive Flag
  | rdonly
  | wronly
  | nonblock
  | nofollow
  | cloexec
  deriving DecidableEq

/-- `struct console_record_batch_write_v1`, with the bytes that its pointer points to. -/
structure BatchWrite where
  version : ℕ
  flags : ℕ
  data : List Byte
  dataLen : ℕ
  recordCount : ℕ
  reserved0 : ℕ
  reserved1 : ℕ

/-- The system calls. -/
inductive Call
  | lstat (path : List Byte)
  | open (path : List Byte) (flags : List Flag)
  | fstat (fd : ℕ)
  | read (fd n : ℕ)
  | unlink (path : List Byte)
  | close (fd : ℕ)
  | ioctl (fd : ℕ) (request : BatchWrite)

/-- What a call answers. -/
def Reply : Call → Type
  | .lstat _ | .fstat _ => Except Errno Stat
  | .open _ _ => Except Errno ℕ
  | .read _ n => Except Errno {bytes : List Byte // bytes.length ≤ n}
  | .unlink _ | .close _ => Except Errno Unit
  | .ioctl _ _ => ℤ

abbrev Prog (α : Type) : Type := Process Call Reply Empty α

abbrev History : Type := List (Event Reply)

def lstat (path : List Byte) : Prog (Except Errno Stat) := call (Call.lstat path)

def openFd (path : List Byte) (flags : List Flag) : Prog (Except Errno ℕ) :=
  call (Call.open path flags)

def fstat (fd : ℕ) : Prog (Except Errno Stat) := call (Call.fstat fd)

def read (fd n : ℕ) : Prog (Except Errno {bytes : List Byte // bytes.length ≤ n}) :=
  call (Call.read fd n)

def unlink (path : List Byte) : Prog (Except Errno Unit) := call (Call.unlink path)

def close (fd : ℕ) : Prog (Except Errno Unit) := call (Call.close fd)

def ioctl (fd : ℕ) (request : BatchWrite) : Prog ℤ := call (Call.ioctl fd request)

/-! ### The function -/

/-- `'0'`–`'9'`, `'A'`–`'Z'` or `'a'`–`'z'`. -/
def markerByte (c : Byte) : Bool :=
  (48 ≤ c && c ≤ 57) || (65 ≤ c && c ≤ 90) || (97 ≤ c && c ≤ 122)

/-- The loop of `terminal_marker_valid` over the bytes before the NUL. -/
def markerLoop (H : Header) (len : ℕ) : List Byte → Option ℕ
  | [] => if len = 0 then none else some len
  | c :: rest =>
    if len = H.markerMaxBytes ∨ !markerByte c then none else markerLoop H (len + 1) rest

/-- `terminal_marker_valid`: the length of a valid marker. -/
def terminalMarkerValid (H : Header) : Option (List Byte) → Option ℕ
  | none => none
  | some marker => markerLoop H 0 marker

/-- `S_ISREG`. -/
def isReg (mode : UInt32) : Bool := mode &&& 0o170000 == 0o100000

/-- `terminal_private_source_valid`. -/
def terminalPrivateSourceValid (euid : ℕ) (st : Stat) (expectedLinks : ℕ) : Bool :=
  isReg st.mode && st.uid == euid && st.mode &&& 0o77 == 0 && st.nlink == expectedLinks

/-- `terminal_source_identity_matches`. -/
def terminalSourceIdentityMatches (left right : Stat) : Bool :=
  left.dev == right.dev && left.ino == right.ino && left.uid == right.uid &&
    left.mode == right.mode && left.size == right.size

/-- The checks that are made of a `stat` after the first one. -/
def sameSource (euid : ℕ) (pathStat st : Stat) (expectedLinks : ℕ) : Bool :=
  terminalPrivateSourceValid euid st expectedLinks && terminalSourceIdentityMatches pathStat st

/-- `"/dev/console"`. -/
def consolePath : List Byte := [47, 100, 101, 118, 47, 99, 111, 110, 115, 111, 108, 101]

/-- The flags with which the source is opened. -/
def sourceFlags : List Flag := [.rdonly, .nonblock, .nofollow, .cloexec]

/-- Close a descriptor that is open. -/
def closeIfOpen : Option ℕ → Prog Unit
  | none => pure ()
  | some fd => do
    let _ ← close fd
    pure ()

/-- The label `out`. -/
def out (inputFd consoleFd : Option ℕ) (status : ℤ) : Prog ℤ := do
  closeIfOpen inputFd
  closeIfOpen consoleFd
  pure status

/-- The first loop: `data` holds the bytes before `offset`. -/
def readData (fd expectedLen : ℕ) : ℕ → List Byte → Prog (Option (List Byte))
  | 0, _ => .stuck
  | fuel + 1, data =>
    if data.length < expectedLen then do
      match ← read fd (expectedLen - data.length) with
      | .error .eintr => readData fd expectedLen fuel data
      | .error _ => pure none
      | .ok bytes =>
        if bytes.1 = [] then pure none else readData fd expectedLen fuel (data ++ bytes.1)
    else pure (some data)

/-- The second loop: whether nothing comes after the data. -/
def readEnd (fd : ℕ) : ℕ → Prog Bool
  | 0 => .stuck
  | fuel + 1 => do
    match ← read fd 1 with
    | .error .eintr => readEnd fd fuel
    | .error _ => pure false
    | .ok bytes => pure (bytes.1 = [])

/-- The request of the commit. -/
def batchRequest (H : Header) (data : List Byte) (expectedLen : ℕ) : BatchWrite :=
  ⟨H.abiVersion, H.terminalCommit, data, expectedLen, 2, 0, 0⟩

/-- `terminal_batch_file` from the `ioctl` on. -/
def commit (H : Header) (data : List Byte) (expectedLen consoleFd : ℕ) : Prog ℤ := do
  let ret ← ioctl consoleFd (batchRequest H data expectedLen)
  if ret = (expectedLen : ℤ) then do
    let _ ← close consoleFd
    pure 0
  else out none (some consoleFd) 4

/-- `terminal_batch_file` from `unlink` to the `ioctl`. -/
def consume (H : Header) (euid : ℕ) (path data : List Byte) (expectedLen : ℕ) (pathStat : Stat)
    (inputFd consoleFd : ℕ) : Prog ℤ := do
  let .ok _ ← unlink path | out (some inputFd) (some consoleFd) 2
  let .error .enoent ← lstat path | out (some inputFd) (some consoleFd) 2
  let .ok fileStat ← fstat inputFd | out (some inputFd) (some consoleFd) 2
  if !sameSource euid pathStat fileStat 0 then out (some inputFd) (some consoleFd) 2 else
  let .ok _ ← close inputFd | out (some inputFd) (some consoleFd) 2
  commit H data expectedLen consoleFd

/-- `terminal_batch_file` from the two loops to `unlink`. -/
def verify (H : Header) (euid fuel : ℕ) (path marker : List Byte)
    (markerLen expectedLen : ℕ) (pathStat : Stat) (inputFd consoleFd : ℕ) : Prog ℤ := do
  let some data ← readData inputFd expectedLen fuel []
    | out (some inputFd) (some consoleFd) 2
  if !(← readEnd inputFd fuel) then out (some inputFd) (some consoleFd) 2 else
  if !H.commitWireTextValid data expectedLen 2 marker markerLen 0 then
    out (some inputFd) (some consoleFd) 2 else
  let .ok verifyStat ← lstat path | out (some inputFd) (some consoleFd) 2
  if !sameSource euid pathStat verifyStat 1 then out (some inputFd) (some consoleFd) 2 else
  let .ok fileStat ← fstat inputFd | out (some inputFd) (some consoleFd) 2
  if !sameSource euid pathStat fileStat 1 then out (some inputFd) (some consoleFd) 2 else
  consume H euid path data expectedLen pathStat inputFd consoleFd

/-- `terminal_batch_file` from the first `lstat` to the two loops. -/
def openSource (H : Header) (euid fuel : ℕ) (path marker : List Byte)
    (markerLen expectedLen : ℕ) : Prog ℤ := do
  let .ok pathStat ← lstat path | pure 2
  if !terminalPrivateSourceValid euid pathStat 1 || pathStat.size != expectedLen then pure 2 else
  let .ok inputFd ← openFd path sourceFlags | pure 2
  let .ok fileStat ← fstat inputFd | out (some inputFd) none 2
  if !sameSource euid pathStat fileStat 1 then out (some inputFd) none 2 else
  -- the console is opened before the source is consumed
  let .ok consoleFd ← openFd consolePath [.wronly] | out (some inputFd) none 3
  verify H euid fuel path marker markerLen expectedLen pathStat inputFd consoleFd

/-- `terminal_batch_file`.  The fuel bounds the passes of its two loops. -/
def terminalBatchFile (H : Header) (euid fuel : ℕ) (path marker : Option (List Byte)) :
    Prog ℤ :=
  match path, marker with
  | some path, some marker =>
    if path = [] then pure 2
    else match terminalMarkerValid H (some marker) with
      | none => pure 2
      | some markerLen => openSource H euid fuel path marker markerLen (markerLen * 2 + 13)
  | _, _ => pure 2

/-! ### What the two loops read -/

/-- The calls of the first loop that got the bytes of `data`. -/
inductive Reads (fd expectedLen : ℕ) : History → List Byte → Prop
  | start : Reads fd expectedLen [] []
  | interrupted {t : History} {data : List Byte} (h : Reads fd expectedLen t data) :
      Reads fd expectedLen
        (t ++ [⟨.read fd (expectedLen - data.length), .error .eintr⟩]) data
  | piece {t : History} {data : List Byte} (h : Reads fd expectedLen t data)
      (bytes : {bytes : List Byte // bytes.length ≤ expectedLen - data.length}) :
      Reads fd expectedLen
        (t ++ [⟨.read fd (expectedLen - data.length), .ok bytes⟩]) (data ++ bytes.1)

/-- The calls of the second loop, when nothing comes after the data. -/
def endReads (fd interrupts : ℕ) : History :=
  .replicate interrupts ⟨.read fd 1, .error .eintr⟩ ++ [⟨.read fd 1, .ok ⟨[], by decide⟩⟩]

theorem Reads.length_le {fd expectedLen : ℕ} {t : History} {data : List Byte}
    (h : Reads fd expectedLen t data) : data.length ≤ expectedLen := by
  induction h with
  | start => exact Nat.zero_le _
  | interrupted _ ih => exact ih
  | @piece t data _ bytes ih =>
    have hbytes := bytes.2
    rw [List.length_append]
    omega

/-- The call is the `ioctl`. -/
def issues : Call → Bool
  | .ioctl _ _ => true
  | _ => false

/-- The `ioctl` has not been issued. -/
def Unissued (s : History) : Prop := ∀ e ∈ s, issues e.1 = false

theorem Unissued.append {s t : History} (hs : Unissued s) (ht : Unissued t) :
    Unissued (s ++ t) :=
  List.forall_mem_append.2 ⟨hs, ht⟩

theorem Unissued.snoc {s : History} (hs : Unissued s) {c : Call} (hc : issues c = false)
    (r : Reply c) : Unissued (s ++ [⟨c, r⟩]) :=
  hs.append (List.forall_mem_singleton.2 hc)

theorem Reads.unissued {fd expectedLen : ℕ} {t : History} {data : List Byte}
    (h : Reads fd expectedLen t data) : Unissued t := by
  induction h with
  | start => exact List.forall_mem_nil _
  | interrupted _ ih => exact ih.snoc rfl _
  | piece _ _ ih => exact ih.snoc rfl _

theorem endReads_unissued (fd interrupts : ℕ) : Unissued (endReads fd interrupts) := by
  refine Unissued.append ?_ (List.forall_mem_singleton.2 rfl)
  intro e he
  rw [List.eq_of_mem_replicate he]
  rfl

/-! ### The order of the calls -/

/-- A history in which every check before `unlink` went well. -/
structure Verified (H : Header) (euid : ℕ) (path marker : List Byte) where
  markerLen : ℕ
  pathStat : Stat
  openStat : Stat
  verifyStat : Stat
  fileStat : Stat
  inputFd : ℕ
  consoleFd : ℕ
  reads : History
  interrupts : ℕ
  data : List Byte
  marker_valid : terminalMarkerValid H (some marker) = some markerLen
  path_private : terminalPrivateSourceValid euid pathStat 1
  path_size : pathStat.size = (markerLen * 2 + 13 : ℕ)
  open_same : sameSource euid pathStat openStat 1
  reads_data : Reads inputFd (markerLen * 2 + 13) reads data
  data_length : data.length = markerLen * 2 + 13
  text_valid : H.commitWireTextValid data (markerLen * 2 + 13) 2 marker markerLen 0
  verify_same : sameSource euid pathStat verifyStat 1
  file_same : sameSource euid pathStat fileStat 1

variable {H : Header} {euid : ℕ} {path marker : List Byte}

/-- The calls up to the two loops. -/
def opening (path : List Byte) (pathStat openStat : Stat) (inputFd consoleFd : ℕ) : History :=
  [⟨.lstat path, .ok pathStat⟩, ⟨.open path sourceFlags, .ok inputFd⟩,
    ⟨.fstat inputFd, .ok openStat⟩, ⟨.open consolePath [.wronly], .ok consoleFd⟩]

/-- The calls that were made, with their answers. -/
def Verified.history (v : Verified H euid path marker) : History :=
  opening path v.pathStat v.openStat v.inputFd v.consoleFd ++ v.reads ++
    endReads v.inputFd v.interrupts ++
    [⟨.lstat path, .ok v.verifyStat⟩, ⟨.fstat v.inputFd, .ok v.fileStat⟩]

/-- A history after which the path was unlinked and not there any more, and the file open at
`inputFd` was still the one that was read and had no link left. -/
structure Consumed (H : Header) (euid : ℕ) (path marker : List Byte) extends
    Verified H euid path marker where
  finalStat : Stat
  final_same : sameSource euid pathStat finalStat 0

/-- The calls that were made, with their answers. -/
def Consumed.history (c : Consumed H euid path marker) : History :=
  c.toVerified.history ++
    [⟨.unlink path, .ok ()⟩, ⟨.lstat path, .error .enoent⟩,
      ⟨.fstat c.inputFd, .ok c.finalStat⟩, ⟨.close c.inputFd, .ok ()⟩]

/-- The `ioctl` that commits what was read, with what it returned. -/
def Consumed.commitCall (c : Consumed H euid path marker) (ret : ℤ) : Event Reply :=
  ⟨.ioctl c.consoleFd (batchRequest H c.data (c.markerLen * 2 + 13)), ret⟩

theorem Verified.history_unissued (v : Verified H euid path marker) : Unissued v.history := by
  have hopening : Unissued (opening path v.pathStat v.openStat v.inputFd v.consoleFd) := by
    intro e he
    simp only [opening, List.mem_cons, List.not_mem_nil, or_false] at he
    rcases he with rfl | rfl | rfl | rfl <;> rfl
  have hloops := (hopening.append v.reads_data.unissued).append
    (endReads_unissued v.inputFd v.interrupts)
  refine hloops.append ?_
  intro e he
  simp only [List.mem_cons, List.not_mem_nil, or_false] at he
  rcases he with rfl | rfl <;> rfl

theorem Consumed.history_unissued (c : Consumed H euid path marker) : Unissued c.history := by
  refine c.toVerified.history_unissued.append ?_
  intro e he
  simp only [List.mem_cons, List.not_mem_nil, or_false] at he
  rcases he with rfl | rfl | rfl | rfl <;> rfl

/-- How the function ends, after which calls. -/
inductive Outcome (H : Header) (euid : ℕ) (path marker : List Byte) : ℤ → History → Prop
  | unissued {status : ℤ} {s : History} (hstatus : status = 2 ∨ status = 3)
      (hs : Unissued s) : Outcome H euid path marker status s
  | committed (c : Consumed H euid path marker) (closed : Except Errno Unit) :
      Outcome H euid path marker 0
        (c.history ++ [c.commitCall (c.markerLen * 2 + 13 : ℕ), ⟨.close c.consoleFd, closed⟩])
  | refused (c : Consumed H euid path marker) (ret : ℤ)
      (hret : ret ≠ (c.markerLen * 2 + 13 : ℕ)) (closed : Except Errno Unit) :
      Outcome H euid path marker 4
        (c.history ++ [c.commitCall ret, ⟨.close c.consoleFd, closed⟩])

/-- `unlink` only after every check, and the `ioctl` only after the file is gone. -/
def contract (H : Header) (euid : ℕ) (path marker : List Byte) : Contract Reply Empty ℤ where
  calls s
    | ⟨.unlink p, _⟩ => p = path ∧ ∃ v : Verified H euid path marker, s = v.history
    | ⟨.ioctl fd request, ret⟩ => ∃ c : Consumed H euid path marker, s = c.history ∧
        (⟨.ioctl fd request, ret⟩ : Event Reply) = c.commitCall ret
    | _ => True
  returns := Outcome H euid path marker
  exits e _ := e.elim
  stuck := Unissued

theorem meets_out {inputFd consoleFd : Option ℕ} {status : ℤ} {s : History}
    (hstatus : status = 2 ∨ status = 3) (hs : Unissued s) :
    Meets (contract H euid path marker) (out inputFd consoleFd status) s := by
  have hconsole : ∀ s, Unissued s → Meets (contract H euid path marker)
      (closeIfOpen consoleFd >>= fun _ => pure status) s := by
    intro s hs
    rcases consoleFd with _ | fd
    · exact .unissued hstatus hs
    · refine (meets_call_bind (Call.close fd)).2 fun r => ?_
      refine ⟨trivial, ?_⟩
      exact .unissued hstatus (hs.snoc rfl r)
  rcases inputFd with _ | fd
  · exact hconsole s hs
  · refine (meets_call_bind (Call.close fd)).2 fun r => ?_
    refine ⟨trivial, ?_⟩
    exact hconsole _ (hs.snoc rfl r)

/-- **The end, once the file is gone.** -/
theorem meets_commit (c : Consumed H euid path marker) :
    Meets (contract H euid path marker)
      (commit H c.data (c.markerLen * 2 + 13) c.consoleFd) c.history := by
  refine (meets_call_bind (Call.ioctl c.consoleFd _)).2 fun ret => ?_
  refine ⟨⟨c, rfl, rfl⟩, ?_⟩
  split_ifs with hret
  · refine (meets_call_bind (Call.close c.consoleFd)).2 fun closed => ?_
    refine ⟨trivial, ?_⟩
    rw [List.append_assoc]
    have hret : ret = ((c.markerLen * 2 + 13 : ℕ) : ℤ) := hret
    subst hret
    exact .committed c closed
  · refine (meets_call_bind (Call.close c.consoleFd)).2 fun closed => ?_
    refine ⟨trivial, ?_⟩
    rw [List.append_assoc]
    exact .refused c ret hret closed

/-- **From `unlink` on.** -/
theorem meets_consume (v : Verified H euid path marker) :
    Meets (contract H euid path marker)
      (consume H euid path v.data (v.markerLen * 2 + 13) v.pathStat v.inputFd v.consoleFd)
      v.history := by
  have hv := v.history_unissued
  refine (meets_call_bind (Call.unlink path)).2 fun r => ?_
  refine ⟨⟨rfl, v, rfl⟩, ?_⟩
  rcases r with e | ⟨⟩
  · exact meets_out (.inl rfl) (hv.snoc rfl _)
  have hgone := hv.snoc (c := .unlink path) rfl (.ok ())
  refine (meets_call_bind (Call.lstat path)).2 fun r => ?_
  refine ⟨trivial, ?_⟩
  rcases r with (_ | _ | code) | st
  rotate_left
  · exact meets_out (.inl rfl) (hgone.snoc rfl _)
  · exact meets_out (.inl rfl) (hgone.snoc rfl _)
  · exact meets_out (.inl rfl) (hgone.snoc rfl _)
  have habsent := hgone.snoc (c := .lstat path) rfl (.error .enoent)
  refine (meets_call_bind (Call.fstat v.inputFd)).2 fun r => ?_
  refine ⟨trivial, ?_⟩
  rcases r with e | st
  · exact meets_out (.inl rfl) (habsent.snoc rfl _)
  have hfinal := habsent.snoc (c := .fstat v.inputFd) rfl (.ok st)
  by_cases hsame : sameSource euid v.pathStat st 0
  · simp only [hsame]
    refine (meets_call_bind (Call.close v.inputFd)).2 fun r => ?_
    refine ⟨trivial, ?_⟩
    rcases r with e | ⟨⟩
    · exact meets_out (.inl rfl) (hfinal.snoc rfl _)
    simp only [List.append_assoc, List.singleton_append]
    exact meets_commit ⟨v, st, hsame⟩
  · simp only [hsame]
    exact meets_out (.inl rfl) hfinal

/-- **The first loop.**  It makes the calls of `Reads`, and stops before the end only without
having issued the `ioctl`. -/
theorem meets_readData {fd expectedLen : ℕ} {s t : History} {data : List Byte} {fuel : ℕ}
    {Q : Option (List Byte) → History → Prop} (hs : Unissued s)
    (ht : Reads fd expectedLen t data)
    (hfail : ∀ t, Unissued t → Q none t)
    (hdata : ∀ t data, Reads fd expectedLen t data → data.length = expectedLen →
      Q (some data) (s ++ t)) :
    Meets ((contract H euid path marker).to Q) (readData fd expectedLen fuel data)
      (s ++ t) := by
  have hmade : ∀ {t data}, Reads fd expectedLen t data → Unissued (s ++ t) :=
    fun ht => hs.append ht.unissued
  induction fuel generalizing t data with
  | zero => exact hmade ht
  | succ fuel ih =>
    unfold readData
    split_ifs with hlt
    · refine (meets_call_bind (Call.read fd (expectedLen - data.length))).2 fun r => ?_
      refine ⟨trivial, ?_⟩
      rcases r with (_ | _ | code) | bytes
      · exact hfail _ ((hmade ht).snoc rfl _)
      · rw [List.append_assoc]
        exact ih ht.interrupted
      · exact hfail _ ((hmade ht).snoc rfl _)
      · have hpiece := ht.piece bytes
        change Meets _ (if bytes.1 = [] then _ else _) _
        split_ifs with hempty
        · exact hfail _ ((hmade ht).snoc rfl _)
        · rw [List.append_assoc]
          exact ih hpiece
    · exact hdata t data ht (le_antisymm ht.length_le (Nat.le_of_not_lt hlt))

/-- **The second loop.** -/
theorem meets_readEnd {fd fuel : ℕ} (interrupts : ℕ) {s : History} {Q : Bool → History → Prop}
    (hs : Unissued s) (hfail : ∀ t, Unissued t → Q false t)
    (hend : ∀ interrupts, Q true (s ++ endReads fd interrupts)) :
    Meets ((contract H euid path marker).to Q) (readEnd fd fuel)
      (s ++ .replicate interrupts ⟨Call.read fd 1, Except.error Errno.eintr⟩) := by
  have hmade : ∀ n, Unissued
      (s ++ .replicate n ⟨Call.read fd 1, Except.error Errno.eintr⟩) := by
    intro n
    refine hs.append fun e he => ?_
    rw [List.eq_of_mem_replicate he]
    rfl
  induction fuel generalizing interrupts with
  | zero => exact hmade interrupts
  | succ fuel ih =>
    refine (meets_call_bind (Call.read fd 1)).2 fun r => ?_
    refine ⟨trivial, ?_⟩
    rcases r with (_ | _ | code) | ⟨bytes, hbytes⟩
    · exact hfail _ ((hmade interrupts).snoc rfl _)
    · rw [List.append_assoc, ← List.replicate_succ']
      exact ih (interrupts + 1)
    · exact hfail _ ((hmade interrupts).snoc rfl _)
    · rcases bytes with _ | ⟨b, bytes⟩
      · rw [List.append_assoc]
        exact hend interrupts
      · exact hfail _ ((hmade interrupts).snoc rfl _)

/-- **From the two loops on.** -/
theorem meets_verify {fuel markerLen inputFd consoleFd : ℕ} {pathStat openStat : Stat}
    (hmarker : terminalMarkerValid H (some marker) = some markerLen)
    (hprivate : terminalPrivateSourceValid euid pathStat 1)
    (hsize : pathStat.size = (markerLen * 2 + 13 : ℕ))
    (hopen : sameSource euid pathStat openStat 1) :
    Meets (contract H euid path marker)
      (verify H euid fuel path marker markerLen (markerLen * 2 + 13) pathStat inputFd consoleFd)
      (opening path pathStat openStat inputFd consoleFd) := by
  have hopening : Unissued (opening path pathStat openStat inputFd consoleFd) := by
    intro e he
    simp only [opening, List.mem_cons, List.not_mem_nil, or_false] at he
    rcases he with rfl | rfl | rfl | rfl <;> rfl
  refine meets_bind.2 ?_
  rw [← List.append_nil (opening path pathStat openStat inputFd consoleFd)]
  refine meets_readData hopening .start (fun t ht => meets_out (.inl rfl) ht) ?_
  intro reads data hreads hlen
  have hread := hopening.append hreads.unissued
  refine meets_bind.2 ?_
  rw [← List.append_nil (_ ++ reads)]
  refine meets_readEnd 0 hread (fun t ht => meets_out (.inl rfl) ht) ?_
  intro interrupts
  have hended := hread.append (endReads_unissued inputFd interrupts)
  by_cases hwire : H.commitWireTextValid data (markerLen * 2 + 13) 2 marker markerLen 0
  · simp only [hwire]
    refine (meets_call_bind (Call.lstat path)).2 fun r => ?_
    refine ⟨trivial, ?_⟩
    rcases r with e | verifyStat
    · exact meets_out (.inl rfl) (hended.snoc rfl _)
    have hverify := hended.snoc (c := .lstat path) rfl (.ok verifyStat)
    by_cases hsame : sameSource euid pathStat verifyStat 1
    · simp only [hsame]
      refine (meets_call_bind (Call.fstat inputFd)).2 fun r => ?_
      refine ⟨trivial, ?_⟩
      rcases r with e | fileStat
      · exact meets_out (.inl rfl) (hverify.snoc rfl _)
      have hfile := hverify.snoc (c := .fstat inputFd) rfl (.ok fileStat)
      by_cases hagain : sameSource euid pathStat fileStat 1
      · simp only [hagain]
        rw [List.append_assoc _ [_] [_], List.singleton_append]
        exact meets_consume ⟨markerLen, pathStat, openStat, verifyStat, fileStat, inputFd,
          consoleFd, reads, interrupts, data, hmarker, hprivate, hsize, hopen, hreads, hlen,
          hwire, hsame, hagain⟩
      · simp only [hagain]
        exact meets_out (.inl rfl) hfile
    · simp only [hsame]
      exact meets_out (.inl rfl) hverify
  · simp only [hwire]
    exact meets_out (.inl rfl) hended

/-- **The whole function.** -/
theorem meets_openSource {fuel markerLen : ℕ}
    (hmarker : terminalMarkerValid H (some marker) = some markerLen) :
    Meets (contract H euid path marker)
      (openSource H euid fuel path marker markerLen (markerLen * 2 + 13)) [] := by
  have hstart : Unissued [] := List.forall_mem_nil _
  refine (meets_call_bind (Call.lstat path)).2 fun r => ?_
  refine ⟨trivial, ?_⟩
  rcases r with e | pathStat
  · exact .unissued (.inl rfl) (hstart.snoc rfl _)
  have hpath := hstart.snoc (c := .lstat path) rfl (.ok pathStat)
  by_cases hchecked : (!terminalPrivateSourceValid euid pathStat 1 ||
      pathStat.size != (markerLen * 2 + 13 : ℕ)) = true
  · simp only [hchecked]
    exact .unissued (.inl rfl) hpath
  · have hfound := hchecked
    rw [Bool.or_eq_true, not_or, Bool.not_eq_true', Bool.not_eq_false, bne_iff_ne,
      not_not] at hfound
    simp only [hchecked]
    refine (meets_call_bind (Call.open path sourceFlags)).2 fun r => ?_
    refine ⟨trivial, ?_⟩
    rcases r with e | inputFd
    · exact .unissued (.inl rfl) (hpath.snoc rfl _)
    have hinput := hpath.snoc (c := .open path sourceFlags) rfl (.ok inputFd)
    refine (meets_call_bind (Call.fstat inputFd)).2 fun r => ?_
    refine ⟨trivial, ?_⟩
    rcases r with e | openStat
    · exact meets_out (.inl rfl) (hinput.snoc rfl _)
    have hfile := hinput.snoc (c := .fstat inputFd) rfl (.ok openStat)
    by_cases hsame : sameSource euid pathStat openStat 1
    · simp only [hsame]
      refine (meets_call_bind (Call.open consolePath _)).2 fun r => ?_
      refine ⟨trivial, ?_⟩
      rcases r with e | consoleFd
      · exact meets_out (.inr rfl) (hfile.snoc rfl _)
      exact meets_verify hmarker hfound.1 hfound.2 hsame
    · simp only [hsame]
      exact meets_out (.inl rfl) hfile

theorem meets_terminalBatchFile {fuel : ℕ} :
    Meets (contract H euid path marker)
      (terminalBatchFile H euid fuel (some path) (some marker)) [] := by
  have hstart : Unissued [] := List.forall_mem_nil _
  unfold terminalBatchFile
  dsimp only
  split_ifs with hempty
  · exact .unissued (.inl rfl) hstart
  · rcases hmarker : terminalMarkerValid H (some marker) with _ | markerLen
    · exact .unissued (.inl rfl) hstart
    · exact meets_openSource hmarker

/-! ### Every run -/

/-- The `ioctl`s are at most one, if none comes before one. -/
theorem countP_issues_le {t : History}
    (h : ∀ t₁ e t₂, t = t₁ ++ e :: t₂ → issues e.1 = true → Unissued t₁) :
    t.countP (fun e => issues e.1) ≤ 1 := by
  induction t using List.reverseRecOn with
  | nil => exact Nat.zero_le _
  | append_singleton t e ih =>
    rw [List.countP_append, List.countP_singleton]
    split_ifs with he
    · have hnone : t.countP (fun e => issues e.1) = 0 := by
        refine List.countP_eq_zero.2 fun e' he' => ?_
        rw [h t e [] rfl he e' he']
        exact Bool.false_ne_true
      omega
    · refine ih fun t₁ e' t₂ ht => h t₁ e' (t₂ ++ [e]) ?_
      rw [ht, List.append_assoc, List.cons_append]

/-- What the process itself does to the entries of the directories: nothing but a successful
`unlink` takes one away. -/
def applyEvent (entries : List Byte → Option ℕ) : Event Reply → List Byte → Option ℕ
  | ⟨.unlink path, .ok _⟩ => fun p => if p = path then none else entries p
  | _ => entries

/-- The same for all calls that were made. -/
def applyHistory (t : History) (entries : List Byte → Option ℕ) : List Byte → Option ℕ :=
  t.foldl applyEvent entries

theorem applyHistory_eq {t : History} {entries : List Byte → Option ℕ}
    (h : ∀ p, (⟨.unlink p, .ok ()⟩ : Event Reply) ∉ t) : applyHistory t entries = entries := by
  induction t generalizing entries with
  | nil => rfl
  | cons e t ih =>
    have hhead : applyEvent entries e = entries := by
      rcases e with ⟨c, r⟩
      cases c with
      | unlink p =>
        rcases r with _ | ⟨⟩
        · rfl
        · exact absurd List.mem_cons_self (h p)
      | _ => rfl
    change applyHistory t (applyEvent entries e) = entries
    rw [hhead]
    exact ih fun p hp => h p (List.mem_cons_of_mem _ hp)

/-- The function succeeds exactly after an `ioctl` that returned the length. -/
theorem Outcome.eq_zero_iff {status : ℤ} {s : History} (h : Outcome H euid path marker status s) :
    status = 0 ↔
      ∃ c : Consumed H euid path marker, c.commitCall (c.markerLen * 2 + 13 : ℕ) ∈ s := by
  cases h with
  | unissued hstatus hs =>
    constructor
    · omega
    · rintro ⟨c, hc⟩
      exact absurd (hs _ hc).symm Bool.false_ne_true
  | committed c closed => exact ⟨fun _ => ⟨c, by simp⟩, fun _ => rfl⟩
  | refused c ret hret closed =>
    constructor
    · omega
    · rintro ⟨c', hc'⟩
      have hlen : c'.markerLen = c.markerLen :=
        Option.some.inj (c'.marker_valid.symm.trans c.marker_valid)
      rw [List.mem_append, List.mem_cons, List.mem_singleton] at hc'
      rcases hc' with hbefore | hsame | hclose
      · exact absurd (c.history_unissued _ hbefore).symm Bool.false_ne_true
      · have hret' : ((c'.markerLen * 2 + 13 : ℕ) : ℤ) = ret := eq_of_heq (Sigma.mk.inj hsame).2
        exact absurd (hlen ▸ hret'.symm) hret
      · exact absurd (congrArg issues (Sigma.mk.inj hclose).1).symm Bool.false_ne_true

/-- The other ways to end come without an `ioctl`. -/
theorem Outcome.unissued_of {status : ℤ} {s : History} (h : Outcome H euid path marker status s)
    (hstatus : status = 2 ∨ status = 3) : Unissued s := by
  cases h with
  | unissued _ hs => exact hs
  | committed => omega
  | refused => omega

/-- What is promised of the calls `t` that were made, when the function has come to `q`. -/
structure Ordered (H : Header) (euid : ℕ) (path marker : Option (List Byte)) (t : History)
    (q : Prog ℤ) : Prop where
  /-- The record is committed at most once. -/
  once : t.countP (fun e => issues e.1) ≤ 1
  /-- It is what was read from the private file, which is gone. -/
  consumed : ∀ t₁ e t₂, t = t₁ ++ e :: t₂ → issues e.1 = true → ∃ p ∈ path, ∃ m ∈ marker,
    ∃ (c : Consumed H euid p m) (ret : ℤ), t₁ = c.history ∧ e = c.commitCall ret
  /-- The path is not unlinked before every check went well. -/
  verified : ∀ t₁ p r t₂, t = t₁ ++ ⟨.unlink p, r⟩ :: t₂ → p ∈ path ∧ ∃ m ∈ marker,
    ∃ v : Verified H euid p m, t₁ = v.history
  /-- The function returns 0 exactly when the `ioctl` returned the length. -/
  success : ∀ status, q = pure status → (status = 0 ↔ ∃ p ∈ path, ∃ m ∈ marker,
    ∃ c : Consumed H euid p m, c.commitCall (c.markerLen * 2 + 13 : ℕ) ∈ t)
  /-- With status 2 or 3 there was no `ioctl`. -/
  refused : ∀ status, q = pure status → status = 2 ∨ status = 3 → Unissued t
  /-- The loops are before the `ioctl`. -/
  loops : q = .stuck → Unissued t
  /-- A failure before the `unlink` leaves the entries of the directories as they are. -/
  inPlace : (∀ p ∈ path, ∀ m ∈ marker, ∀ v : Verified H euid p m,
      ¬v.history ++ [⟨.unlink p, .ok ()⟩] <+: t) →
    ∀ entries, applyHistory t entries = entries

theorem ordered_null {path marker : Option (List Byte)} (h : path = none ∨ marker = none) :
    Ordered H euid path marker [] (pure 2) where
  once := Nat.zero_le _
  consumed := by
    intro t₁ e t₂ ht
    exact absurd ht (by simp)
  verified := by
    intro t₁ p r t₂ ht
    exact absurd ht (by simp)
  success := by
    intro status hstatus
    obtain rfl : (2 : ℤ) = status := Process.done.inj hstatus
    constructor
    · omega
    · rintro ⟨p, hp, m, hm, -⟩
      rcases h with rfl | rfl
      · exact absurd hp nofun
      · exact absurd hm nofun
  refused _ _ _ := List.forall_mem_nil _
  loops h := absurd h nofun
  inPlace _ _ := rfl

/-- **The record is committed once, and only after the file is gone.**  Whatever the calls
answer, the `ioctl` is issued at most once, with the bytes that were read from the private file
and that the header finds valid, after the path was unlinked and not found any more and the
open file was still the same and had no link left. -/
theorem terminalBatchFile_ordered {H : Header} {euid fuel : ℕ}
    {path marker : Option (List Byte)} {t : History} {q : Prog ℤ}
    (hr : Reaches (terminalBatchFile H euid fuel path marker) t q) :
    Ordered H euid path marker t q := by
  rcases path with _ | path
  · cases hr
    exact ordered_null (.inl rfl)
  rcases marker with _ | marker
  · cases hr
    exact ordered_null (.inr rfl)
  obtain ⟨hq, hcalls⟩ := meets_terminalBatchFile.reaches hr
  rw [List.nil_append] at hq
  have hcommit : ∀ t₁ e t₂, t = t₁ ++ e :: t₂ → issues e.1 = true →
      ∃ (c : Consumed H euid path marker) (ret : ℤ), t₁ = c.history ∧ e = c.commitCall ret := by
    intro t₁ e t₂ ht he
    have hcall := hcalls t₁ e t₂ ht
    rw [List.nil_append] at hcall
    obtain ⟨c, r⟩ := e
    cases c with
    | ioctl fd request =>
      obtain ⟨c, hc, hevent⟩ := hcall
      exact ⟨c, r, hc, hevent⟩
    | _ => exact absurd he Bool.false_ne_true
  have hunlink : ∀ t₁ p r t₂, t = t₁ ++ (⟨.unlink p, r⟩ : Event Reply) :: t₂ →
      p = path ∧ ∃ v : Verified H euid path marker, t₁ = v.history := by
    intro t₁ p r t₂ ht
    have hcall := hcalls t₁ _ t₂ ht
    rw [List.nil_append] at hcall
    exact hcall
  constructor
  case once =>
    refine countP_issues_le fun t₁ e t₂ ht he => ?_
    obtain ⟨c, ret, rfl, -⟩ := hcommit t₁ e t₂ ht he
    exact c.history_unissued
  case consumed =>
    intro t₁ e t₂ ht he
    exact ⟨path, rfl, marker, rfl, hcommit t₁ e t₂ ht he⟩
  case verified =>
    intro t₁ p r t₂ ht
    obtain ⟨rfl, v, hv⟩ := hunlink t₁ p r t₂ ht
    exact ⟨rfl, marker, rfl, v, hv⟩
  case success =>
    rintro status rfl
    have houtcome : Outcome H euid path marker status t := hq
    rw [houtcome.eq_zero_iff]
    constructor
    · rintro ⟨c, hc⟩
      exact ⟨path, rfl, marker, rfl, c, hc⟩
    · rintro ⟨p, ⟨⟩, m, ⟨⟩, c, hc⟩
      exact ⟨c, hc⟩
  case refused =>
    rintro status rfl hstatus
    exact Outcome.unissued_of hq hstatus
  case loops =>
    rintro rfl
    exact hq
  case inPlace =>
    intro hfailed entries
    refine applyHistory_eq fun p hp => ?_
    obtain ⟨t₁, t₂, ht⟩ := List.append_of_mem hp
    obtain ⟨rfl, v, rfl⟩ := hunlink t₁ p _ t₂ ht
    refine hfailed p rfl marker rfl v ⟨t₂, ?_⟩
    rw [ht, List.append_assoc, List.singleton_append]

/-- The header as the tests use it: a record is `M:RC:0` and `M:FENCE`, each on a line, for
the marker `M` of at most 64 bytes. -/
def testHeader : Header where
  markerMaxBytes := 64
  maxLogicalBytes := 141
  abiVersion := 1
  terminalCommit := 1
  commitWireTextValid data _ _ marker _ _ :=
    data == marker ++ [58, 82, 67, 58, 48, 10] ++ marker ++ [58, 70, 69, 78, 67, 69, 10]
  fits := by decide
  small := by decide

/-- The record with the marker `T`. -/
def testRecord : List Byte := [84, 58, 82, 67, 58, 48, 10, 84, 58, 70, 69, 78, 67, 69, 10]

/-- Calls on a private file with that record which all go well. -/
def testAnswer (s : History) : (c : Call) → Reply c
  | .lstat path => if (applyHistory s (fun _ => some 7) path).isSome
      then .ok ⟨1, 7, 0o100600, 1, 1000, 15⟩ else .error .enoent
  | .open path _ => .ok (if path = consolePath then 4 else 3)
  | .fstat _ => .ok ⟨1, 7, 0o100600,
      if (applyHistory s (fun _ => some 7) [97]).isSome then 1 else 0, 1000, 15⟩
  | .read _ n => .ok ⟨(if s.length = 4 then testRecord else []).take n, List.length_take_le _ _⟩
  | .unlink _ => .ok ()
  | .close _ => .ok ()
  | .ioctl _ request => (request.dataLen : ℤ)

theorem terminalBatchFile_ordered_test : ∃ c : Consumed testHeader 1000 [97] [84],
    c.commitCall (c.markerLen * 2 + 13 : ℕ) ∈
      (follow testAnswer (terminalBatchFile testHeader 1000 3 (some [97]) (some [84])) []).1 := by
  have hrun := terminalBatchFile_ordered (reaches_follow testAnswer
    (terminalBatchFile testHeader 1000 3 (some [97]) (some [84])) [])
  obtain ⟨p, ⟨⟩, m, ⟨⟩, c, hc⟩ := (hrun.success 0 rfl).1 rfl
  exact ⟨c, hc⟩

end ConsoleRecord
end Tools
end V6User
