import Mathlib.Algebra.Ring.Nat
import V6User.Base.CInt
import V6User.Base.Ranking
import V6User.Base.Tally
import V6User.Shell.Token

/-!
# The summary of the wake-ups before a terminal is there

`programs/kprofile/kprofile.c`: `prepty_wait_ms`, `prepty_thread_role`, `prepty_bucket_add`,
`prepty_fd_target_match`, `prepty_fd_target_note` and `print_prepty_role_summary`.

The records of polled descriptors are summed up in a table of 96 rows, one for each target, and
the eight busiest rows are printed.  These are the first eight of a stable sort of the first 96
targets, each with what all of its records make (`rankedRows_eq`).  The waits are added to buckets
that overlap: every wait is in one of the threads' buckets and in one of the three for how it
ended, and the dominant source is the first of those with the longest waits
(`roleSummary_accounts`).

The numbers of the events and roles come from the kernel's headers.
-/

namespace V6User
namespace Tools
namespace RoleSummary

open CInt Slots Tally Ranking
open Shell (Byte)

/-! ### The code -/

/-- The constants of the kernel's headers. -/
structure Abi where
  pollFd : ℤ
  pollWait : ℤ
  wayland : UInt64
  qdbus : UInt64
  eventfd : UInt64
  pipe : UInt64
  unixOther : UInt64
  other : UInt64
  ppoll : ℤ

/-- What a record says about a polled descriptor: who polls what. -/
structure Target where
  fd : ℤ
  tgid : ℤ
  file : UInt64
  role : ℤ
  kind : List Byte
  target : List Byte
  path : List Byte
  peerPath : List Byte
  comm : List Byte
  deriving DecidableEq

/-- `struct konsole_prepty_wake_record`, of which the summary reads these fields. -/
structure WakeRecord where
  event : ℤ
  seq : UInt64
  polled : Target
  pollRevents : ℤ
  pollOp : ℤ
  roleMask : UInt64
  ready : ℤ
  hasUnnotifiedFds : ℤ
  nevents : ℤ
  timeoutMs : ℤ
  waitStartMs : UInt64
  waiterRunMs : UInt64

/-- `struct prepty_fd_target_summary`. -/
structure Row where
  used : Bool
  polled : Target
  pollRecords : UInt64
  readyRecords : UInt64
  reventsOr : UInt64
  lastSeq : UInt64
  deriving DecidableEq

/-- `PREPTY_FD_TARGET_CAP`. -/
def targetCap : ℕ := 96

/-- A row of the table after `memset`. -/
def emptyRow : Row := ⟨false, ⟨0, 0, 0, 0, [], [], [], [], []⟩, 0, 0, 0, 0⟩

/-- A row that is taken. -/
def freshRow (polled : Target) : Row := ⟨true, polled, 0, 0, 0, 0⟩

/-- What a record does to its row. -/
def countRecord (s : Row) (r : WakeRecord) : Row :=
  { s with
    pollRecords := s.pollRecords + 1
    readyRecords := if r.pollRevents ≠ 0 then s.readyRecords + 1 else s.readyRecords
    reventsOr := s.reventsOr ||| .ofNat (uint32 r.pollRevents)
    lastSeq := r.seq }

/-- The target of a row that is in use. -/
def rowKey (s : Row) : Option Target := if s.used then some s.polled else none

/-- How the table is kept: `prepty_fd_target_match` compares the targets. -/
def targets : Rules Row WakeRecord Target where
  key := rowKey
  keyOf r := r.polled
  fresh := freshRow
  count := countRecord
  key_fresh _ := rfl
  key_count _ _ := rfl

/-- `prepty_fd_target_note(rows, r)`. -/
def fdTargetNote (abi : Abi) (rows : List Row) (r : WakeRecord) : List Row :=
  if r.event ≠ abi.pollFd then rows else note targets rows r

/-- Whether a row is printed before another one. -/
def busier (a b : Row) : Bool :=
  b.pollRecords < a.pollRecords || a.pollRecords == b.pollRecords && b.readyRecords < a.readyRecords

/-- The rows that are printed, in their order. -/
def rankedRows (abi : Abi) (rs : List WakeRecord) : List Row :=
  ranking busier Row.used (rs.foldl (fdTargetNote abi) (List.replicate targetCap emptyRow)) 8 []

/-- `prepty_wait_ms(r)`. -/
def waitMs (r : WakeRecord) : UInt64 :=
  if r.waitStartMs ≤ r.waiterRunMs then r.waiterRunMs - r.waitStartMs else 0

/-- `enum prepty_thread_role`. -/
inductive ThreadRole where
  | wayland
  | qdbus
  | main
  | other
  deriving DecidableEq

/-- `WaylandEventThr`. -/
def waylandComm : List Byte := [87, 97, 121, 108, 97, 110, 100, 69, 118, 101, 110, 116, 84, 104, 114]

/-- `QDBusConnection`. -/
def qdbusComm : List Byte := [81, 68, 66, 117, 115, 67, 111, 110, 110, 101, 99, 116, 105, 111, 110]

/-- `konsole`. -/
def konsoleComm : List Byte := [107, 111, 110, 115, 111, 108, 101]

/-- `prepty_thread_role(comm)`. -/
def threadRole (comm : List Byte) : ThreadRole :=
  if comm.take 15 = waylandComm then .wayland
  else if comm.take 15 = qdbusComm then .qdbus
  else if comm.take 7 = konsoleComm then .main
  else .other

/-- The buckets of `print_prepty_role_summary`. -/
inductive Bucket where
  | thread (role : ThreadRole)
  | wayland
  | qdbus
  | eventfd
  | pipe
  | unixOther
  | other
  | ready
  | timeoutRescan
  | timeoutNotify
  | eventReady
  | timedRescan
  | mainPpoll

/-- Whether a wait is added to a bucket. -/
def adds (abi : Abi) (r : WakeRecord) : Bucket → Bool
  | .thread role => threadRole r.polled.comm = role
  | .wayland => r.roleMask &&& abi.wayland ≠ 0
  | .qdbus => r.roleMask &&& abi.qdbus ≠ 0
  | .eventfd => r.roleMask &&& abi.eventfd ≠ 0
  | .pipe => r.roleMask &&& abi.pipe ≠ 0
  | .unixOther => r.roleMask &&& abi.unixOther ≠ 0
  | .other => r.roleMask &&& abi.other ≠ 0
  | .ready => 0 < r.ready
  | .timeoutRescan => ¬0 < r.ready ∧ r.hasUnnotifiedFds ≠ 0
  | .timeoutNotify => ¬0 < r.ready ∧ ¬r.hasUnnotifiedFds ≠ 0
  | .eventReady => 0 < r.ready ∧ 0 < r.nevents
  | .timedRescan => r.nevents = 0 ∧ 0 < r.timeoutMs
  | .mainPpoll => threadRole r.polled.comm = .main ∧ r.pollOp = abi.ppoll

/-- `struct prepty_wait_bucket`. -/
structure WaitBucket where
  calls : UInt64
  ms : UInt64

/-- `prepty_bucket_add(bucket, ms)`. -/
def bucketAdd (bucket : WaitBucket) (ms : UInt64) : WaitBucket := ⟨bucket.calls + 1, bucket.ms + ms⟩

/-- What a record does to the buckets. -/
def addWait (abi : Abi) (st : Bucket → WaitBucket) (r : WakeRecord) : Bucket → WaitBucket :=
  if r.event ≠ abi.pollWait then st
  else fun b => if adds abi r b then bucketAdd (st b) (waitMs r) else st b

/-- The sources, in the order in which `PREPTY_DOMINANT` looks at them. -/
def sources : List (Bucket × String) :=
  [(.wayland, "wayland"), (.qdbus, "qdbus"), (.eventfd, "eventfd"), (.pipe, "pipe"),
    (.unixOther, "unix_other"), (.other, "other"), (.mainPpoll, "main_ppoll")]

/-- What `print_prepty_role_summary` prints: the buckets, the sums over the threads, `dominant` and
`dominant_ms`, and the ranked rows. -/
structure Summary where
  bucket : Bucket → WaitBucket
  waitCalls : UInt64
  waitMs : UInt64
  dominant : String
  dominantMs : UInt64
  rows : List Row

/-- `PREPTY_DOMINANT(bucket, name)`. -/
def dominate (st : Bucket → WaitBucket) (d : String × UInt64) (s : Bucket × String) :
    String × UInt64 :=
  if d.2 < (st s.1).ms then (s.2, (st s.1).ms) else d

/-- `print_prepty_role_summary(snap, count)`, for the first `count` records. -/
def roleSummary (abi : Abi) (rs : List WakeRecord) : Summary :=
  let st := rs.foldl (addWait abi) fun _ => ⟨0, 0⟩
  let dominant := sources.foldl (dominate st) ("none", 0)
  { bucket := st
    waitCalls := (st (.thread .wayland)).calls + (st (.thread .qdbus)).calls +
      (st (.thread .main)).calls + (st (.thread .other)).calls
    waitMs := (st (.thread .wayland)).ms + (st (.thread .qdbus)).ms +
      (st (.thread .main)).ms + (st (.thread .other)).ms
    dominant := dominant.1
    dominantMs := dominant.2
    rows := rankedRows abi rs }

/-! ### The rows -/

section Rows

variable {abi : Abi} {rs : List WakeRecord}

/-- The records of polled descriptors. -/
def polls (abi : Abi) (rs : List WakeRecord) : List WakeRecord :=
  rs.filter fun r => r.event = abi.pollFd

/-- What records with one target make: how many they are and how many were ready, all the events
together, and the last sequence number. -/
def rowOf (rs : List WakeRecord) (polled : Target) : Row :=
  let own := rs.filter fun r => r.polled = polled
  { used := true
    polled := polled
    pollRecords := .ofNat own.length
    readyRecords := .ofNat (own.countP fun r => r.pollRevents ≠ 0)
    reventsOr := (own.map fun r => .ofNat (uint32 r.pollRevents)).foldr (· ||| ·) 0
    lastSeq := (own.getLast?.map WakeRecord.seq).getD 0 }

theorem add_ofNat_succ (x : UInt64) (n : ℕ) : x + 1 + .ofNat n = x + .ofNat (n + 1) := by
  rw [UInt64.ofNat_add, UInt64.add_comm (.ofNat n), ← UInt64.add_assoc]
  rfl

/-- What the records of a row make of it. -/
theorem foldl_countRecord (s : Row) (rs : List WakeRecord) : rs.foldl countRecord s =
    { s with
      pollRecords := s.pollRecords + .ofNat rs.length
      readyRecords := s.readyRecords + .ofNat (rs.countP fun r => r.pollRevents ≠ 0)
      reventsOr := s.reventsOr ||| (rs.map fun r => .ofNat (uint32 r.pollRevents)).foldr (· ||| ·) 0
      lastSeq := (rs.getLast?.map WakeRecord.seq).getD s.lastSeq } := by
  induction rs generalizing s with
  | nil => simp
  | cons r rs ih =>
    have hready : (countRecord s r).readyRecords +
        .ofNat (rs.countP fun r => decide (r.pollRevents ≠ 0)) =
        s.readyRecords + .ofNat ((r :: rs).countP fun r => decide (r.pollRevents ≠ 0)) := by
      unfold countRecord
      by_cases h : r.pollRevents ≠ 0
      · rw [List.countP_cons_of_pos (by simpa using h), ← add_ofNat_succ]
        exact congrArg (· + _) (if_pos h)
      · rw [List.countP_cons_of_neg (by simpa using h)]
        exact congrArg (· + _) (if_neg h)
    have hlast : (rs.getLast?.map WakeRecord.seq).getD r.seq =
        ((r :: rs).getLast?.map WakeRecord.seq).getD s.lastSeq := by
      rw [List.getLast?_cons]
      cases rs.getLast? <;> rfl
    rw [List.foldl_cons, ih, hready, List.length_cons, List.map_cons, List.foldr_cons,
      ← add_ofNat_succ, ← UInt64.or_assoc, ← hlast]
    rfl

theorem row_eq (rs : List WakeRecord) (polled : Target) :
    row targets rs polled = rowOf rs polled := by
  have hor : ∀ x : UInt64, (0 : UInt64) ||| x = x := fun x => UInt64.zero_or
  have hfold := foldl_countRecord (freshRow polled) (rs.filter fun r => r.polled = polled)
  unfold row rowOf
  refine hfold.trans ?_
  unfold freshRow
  dsimp only
  rw [UInt64.zero_add, UInt64.zero_add, hor]

/-- Only the records of polled descriptors count. -/
theorem foldl_fdTargetNote (rows : List Row) :
    rs.foldl (fdTargetNote abi) rows = (polls abi rs).foldl (note targets) rows := by
  rw [polls, List.foldl_filter]
  refine List.foldl_ext _ _ _ fun rows r _ => ?_
  rw [fdTargetNote]
  by_cases h : r.event = abi.pollFd
  · rw [if_neg (not_not.2 h), if_pos (decide_eq_true h)]
  · rw [if_pos h, if_neg (by simpa using h)]

theorem behind_iff {a b : Row} : Behind busier a b ↔
    b.pollRecords.toNat < a.pollRecords.toNat ∨ (a.pollRecords.toNat = b.pollRecords.toNat ∧
      b.readyRecords.toNat ≤ a.readyRecords.toNat) := by
  unfold Behind busier
  rw [Bool.or_eq_false_iff, Bool.and_eq_false_iff, decide_eq_false_iff_not,
    decide_eq_false_iff_not, beq_eq_false_iff_ne, ne_eq, ← UInt64.toNat_inj,
    UInt64.lt_iff_toNat_lt, UInt64.lt_iff_toNat_lt]
  omega

theorem behind_trans (a b c : Row) (hab : Behind busier a b) (hbc : Behind busier b c) :
    Behind busier a c := by
  rw [behind_iff] at *
  omega

theorem behind_total (a b : Row) : Behind busier a b ∨ Behind busier b a := by
  rw [behind_iff, behind_iff]
  omega

/-- **The rows that are printed**: those of the first 96 targets, each with what all of its records
make, in the order into which a stable sort puts them by their records and their ready ones, and
of these the first eight. -/
theorem rankedRows_eq (abi : Abi) (rs : List WakeRecord) : rankedRows abi rs =
    (((((polls abi rs).map WakeRecord.polled).eraseDups.take 96).map
      (rowOf (polls abi rs))).insertionSort (Behind busier)).take 8 := by
  have hempty : rowKey emptyRow = none := rfl
  have hrows : ((kept targets targetCap (polls abi rs)).map (rowOf (polls abi rs))).filter
      Row.used = (kept targets targetCap (polls abi rs)).map (rowOf (polls abi rs)) := by
    rw [List.filter_eq_self]
    intro s hs
    obtain ⟨polled, -, rfl⟩ := List.mem_map.1 hs
    rfl
  have hfree : ∀ m, (List.replicate m emptyRow).filter Row.used = [] := fun m => by
    rw [List.filter_replicate]
    rfl
  rw [rankedRows, foldl_fdTargetNote, foldl_note hempty, ranking_eq behind_trans behind_total,
    List.filter_append, hfree, List.append_nil, List.map_congr_left fun k _ => row_eq _ k, hrows]
  rfl

end Rows

/-! ### The waits -/

section Waits

variable {abi : Abi} {rs : List WakeRecord} {st : Bucket → WaitBucket}

/-- The records of waits. -/
def waits (abi : Abi) (rs : List WakeRecord) : List WakeRecord :=
  rs.filter fun r => r.event = abi.pollWait

/-- How many waits these are, and how long they are together. -/
def total (rs : List WakeRecord) : WaitBucket :=
  ⟨.ofNat rs.length, .ofNat (rs.map fun r => (waitMs r).toNat).sum⟩

/-- What is in a bucket. -/
theorem foldl_addWait (st : Bucket → WaitBucket) (b : Bucket) :
    rs.foldl (addWait abi) st b =
      ⟨(st b).calls + (total ((waits abi rs).filter fun r => adds abi r b)).calls,
        (st b).ms + (total ((waits abi rs).filter fun r => adds abi r b)).ms⟩ := by
  induction rs generalizing st with
  | nil => simp [waits, total]
  | cons r rs ih =>
    rw [List.foldl_cons, ih, addWait]
    by_cases hevent : r.event = abi.pollWait
    · have hwaits : waits abi (r :: rs) = r :: waits abi rs :=
        List.filter_cons_of_pos (decide_eq_true hevent)
      rw [if_neg (not_not.2 hevent), hwaits]
      by_cases hadds : adds abi r b = true
      · have hcons : (r :: waits abi rs).filter (fun r => adds abi r b) =
            r :: (waits abi rs).filter fun r => adds abi r b := List.filter_cons_of_pos hadds
        rw [if_pos hadds, hcons]
        unfold total bucketAdd
        rw [List.map_cons, List.sum_cons, UInt64.ofNat_add, UInt64.ofNat_toNat, List.length_cons,
          add_ofNat_succ, UInt64.add_assoc]
      · have hcons : (r :: waits abi rs).filter (fun r => adds abi r b) =
            (waits abi rs).filter fun r => adds abi r b := List.filter_cons_of_neg hadds
        rw [if_neg hadds, hcons]
    · have hwaits : waits abi (r :: rs) = waits abi rs :=
        List.filter_cons_of_neg (by simpa using hevent)
      rw [if_pos hevent, hwaits]

/-- Every wait is in the bucket of one thread. -/
theorem sum_threads (w : WakeRecord → ℕ) (rs : List WakeRecord) :
    ((rs.filter fun r => adds abi r (.thread .wayland)).map w).sum +
      ((rs.filter fun r => adds abi r (.thread .qdbus)).map w).sum +
      ((rs.filter fun r => adds abi r (.thread .main)).map w).sum +
      ((rs.filter fun r => adds abi r (.thread .other)).map w).sum = (rs.map w).sum := by
  induction rs with
  | nil => rfl
  | cons r rs ih =>
    cases hrole : threadRole r.polled.comm <;>
    · simp only [adds] at ih
      simp [adds, hrole]
      omega

/-- Every wait ended in one of three ways. -/
theorem sum_endings (w : WakeRecord → ℕ) (rs : List WakeRecord) :
    ((rs.filter fun r => adds abi r .ready).map w).sum +
      ((rs.filter fun r => adds abi r .timeoutRescan).map w).sum +
      ((rs.filter fun r => adds abi r .timeoutNotify).map w).sum = (rs.map w).sum := by
  induction rs with
  | nil => rfl
  | cons r rs ih =>
    simp only [adds] at ih
    by_cases hready : 0 < r.ready
    · have hnot : ¬r.ready ≤ 0 := not_le.2 hready
      simp [adds, hready, hnot] at ih ⊢
      omega
    · have hle : r.ready ≤ 0 := not_lt.1 hready
      by_cases hfds : r.hasUnnotifiedFds = 0
      · simp [adds, hready, hle, hfds] at ih ⊢
        omega
      · simp [adds, hready, hle, hfds] at ih ⊢
        omega

/-- The first of the sources with the longest waits, if any took some time. -/
theorem foldl_dominate (st : Bucket → WaitBucket) (l : List (Bucket × String)) :
    (∀ s ∈ l, (st s.1).ms.toNat ≤ (l.foldl (dominate st) ("none", 0)).2.toNat) ∧
      (l.foldl (dominate st) ("none", 0) = ("none", 0) ∨ ∃ l₁ s l₂, l = l₁ ++ s :: l₂ ∧
        l.foldl (dominate st) ("none", 0) = (s.2, (st s.1).ms) ∧ 0 < (st s.1).ms.toNat ∧
          ∀ p ∈ l₁, (st p.1).ms.toNat < (st s.1).ms.toNat) := by
  induction l using List.reverseRecOn with
  | nil => exact ⟨fun _ hs => absurd hs List.not_mem_nil, .inl rfl⟩
  | append_singleton l s ih =>
    obtain ⟨hall, hfirst⟩ := ih
    rw [List.foldl_append, List.foldl_cons, List.foldl_nil]
    unfold dominate at hall hfirst ⊢
    split_ifs with hlt
    · rw [UInt64.lt_iff_toNat_lt] at hlt
      have hbelow : ∀ p ∈ l, (st p.1).ms.toNat < (st s.1).ms.toNat := fun p hp =>
        Nat.lt_of_le_of_lt (hall p hp) hlt
      refine ⟨fun p hp => ?_, .inr ⟨l, s, [], rfl, rfl, Nat.zero_lt_of_lt hlt, hbelow⟩⟩
      rcases List.mem_append.1 hp with hp | hp
      · exact (hbelow p hp).le
      · rw [List.mem_singleton.1 hp]
    · rw [UInt64.lt_iff_toNat_lt, Nat.not_lt] at hlt
      refine ⟨fun p hp => ?_, ?_⟩
      · rcases List.mem_append.1 hp with hp | hp
        · exact hall p hp
        · rw [List.mem_singleton.1 hp]
          exact hlt
      · refine hfirst.imp_right ?_
        rintro ⟨l₁, s', l₂, hsplit, heq, hpos, hbefore⟩
        exact ⟨l₁, s', l₂ ++ [s], by rw [hsplit]; simp, heq, hpos, hbefore⟩

/-- **The books of the waits balance.**  Each bucket has the waits that belong there; the buckets
of the threads together, and those for how a wait ended, have every wait once, and so do the sums
that are printed; and the dominant source is the first of those whose waits took longest, and some
time at all, or it is none and no source's waits took any. -/
theorem roleSummary_accounts (abi : Abi) (rs : List WakeRecord) :
    (∀ b, (roleSummary abi rs).bucket b = total ((waits abi rs).filter fun r => adds abi r b)) ∧
      (roleSummary abi rs).waitCalls = (total (waits abi rs)).calls ∧
      (roleSummary abi rs).waitMs = (total (waits abi rs)).ms ∧
      ((roleSummary abi rs).bucket .ready).calls +
        ((roleSummary abi rs).bucket .timeoutRescan).calls +
        ((roleSummary abi rs).bucket .timeoutNotify).calls = (total (waits abi rs)).calls ∧
      ((roleSummary abi rs).bucket .ready).ms + ((roleSummary abi rs).bucket .timeoutRescan).ms +
        ((roleSummary abi rs).bucket .timeoutNotify).ms = (total (waits abi rs)).ms ∧
      (∀ s ∈ sources, ((roleSummary abi rs).bucket s.1).ms.toNat ≤
        (roleSummary abi rs).dominantMs.toNat) ∧
      (((roleSummary abi rs).dominant = "none" ∧ (roleSummary abi rs).dominantMs = 0) ∨
        ∃ l₁ s l₂, sources = l₁ ++ s :: l₂ ∧ (roleSummary abi rs).dominant = s.2 ∧
          (roleSummary abi rs).dominantMs = ((roleSummary abi rs).bucket s.1).ms ∧
          0 < (roleSummary abi rs).dominantMs.toNat ∧
          ∀ p ∈ l₁, ((roleSummary abi rs).bucket p.1).ms.toNat <
            (roleSummary abi rs).dominantMs.toNat) := by
  have hbucket : ∀ b, (roleSummary abi rs).bucket b =
      total ((waits abi rs).filter fun r => adds abi r b) := by
    intro b
    refine (foldl_addWait (fun _ => ⟨0, 0⟩) b).trans ?_
    rw [UInt64.zero_add, UInt64.zero_add]
  have hones : ∀ l : List WakeRecord, l.length = (l.map fun _ => 1).sum := fun l => by simp
  have hcalls : (roleSummary abi rs).waitCalls = (total (waits abi rs)).calls := by
    show ((roleSummary abi rs).bucket _).calls + ((roleSummary abi rs).bucket _).calls +
      ((roleSummary abi rs).bucket _).calls + ((roleSummary abi rs).bucket _).calls = _
    simp only [hbucket, total, ← UInt64.ofNat_add]
    rw [hones, hones, hones, hones, sum_threads, ← hones]
  have hms : (roleSummary abi rs).waitMs = (total (waits abi rs)).ms := by
    show ((roleSummary abi rs).bucket _).ms + ((roleSummary abi rs).bucket _).ms +
      ((roleSummary abi rs).bucket _).ms + ((roleSummary abi rs).bucket _).ms = _
    simp only [hbucket, total, ← UInt64.ofNat_add]
    rw [sum_threads]
  obtain ⟨hall, hfirst⟩ := foldl_dominate (roleSummary abi rs).bucket sources
  refine ⟨hbucket, hcalls, hms, ?_, ?_, hall, ?_⟩
  · simp only [hbucket, total, ← UInt64.ofNat_add]
    rw [hones, hones, hones, sum_endings, ← hones]
  · simp only [hbucket, total, ← UInt64.ofNat_add]
    rw [sum_endings]
  · refine hfirst.imp (fun heq => ⟨congrArg Prod.fst heq, congrArg Prod.snd heq⟩) ?_
    rintro ⟨l₁, s, l₂, hsplit, heq, hpos, hbefore⟩
    have hms : (roleSummary abi rs).dominantMs = ((roleSummary abi rs).bucket s.1).ms :=
      congrArg Prod.snd heq
    exact ⟨l₁, s, l₂, hsplit, congrArg Prod.fst heq, hms, hms ▸ hpos,
      fun p hp => hms ▸ hbefore p hp⟩

end Waits

end RoleSummary
end Tools
end V6User
