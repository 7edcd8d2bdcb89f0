import V6User.Base.Tally
import V6User.Tools.UserpcAttribute
import V6User.Tools.UserpcRead

/-!
# Collecting the processes that were sampled

`programs/kprofile/kprofile.c`: `userpc_maps_init`, `userpc_map_pid_slot` and
`collect_userpc_maps_from_snapshot`, which calls `userpc_read_maps_for_pid`.

Snapshots of the kernel's ring of samples come again and again while the profiled command runs, and
they overlap.  Each sample is nevertheless counted once: in a run of snapshots that move forward,
every process that has a slot was sampled as often as there are different records of it
(`collect_counts`).  And whatever the snapshots and the files are, the books of the table balance:
a file is read at most four times, and every attempt, failure and stored line is accounted for
(`collect_books`).
-/

namespace V6User
namespace Tools
namespace Userpc

open Slots Tally

variable {ringCap : UInt64}

/-! ### The code -/

/-- `KPROFILE_USERPC_MAP_PID_CAP`. -/
def pidCap : ℕ := 64

/-- `KPROFILE_USERPC_MAP_CAP`. -/
def mapCap : ℕ := 512

/-- `struct userpc_maps`, with its array `pids`. -/
structure UserpcMaps where
  maps : Maps
  pids : List PidStatus

/-- A status after `memset`. -/
def freePid : PidStatus := ⟨false, 0, 0, 0, 0, 0, 0, 0, 0, 0, 0, 0⟩

/-- A slot that is taken. -/
def freshPid (tgid : ℤ) : PidStatus := { freePid with used := true, tgid := tgid }

/-- `userpc_maps_init(maps)`. -/
def userpcMapsInit : UserpcMaps where
  maps := ⟨List.replicate mapCap {}, 0, 0, 0, 0, 0, 0, 0, 0, 0⟩
  pids := List.replicate pidCap freePid

/-- `userpc_map_pid_slot(maps, tgid)`: the slot, or `none` for -1. -/
def userpcMapPidSlot (st : UserpcMaps) (tgid : ℤ) : UserpcMaps × Option ℕ :=
  if tgid ≤ 0 then (st, none)
  else
    match st.pids.findIdx? fun s => s.used && s.tgid == tgid with
    | some i => (st, some i)
    | none =>
      match st.pids.findIdx? fun s => !s.used with
      | none => ({ st with maps.pidDropped := st.maps.pidDropped + 1 }, none)
      | some freeSlot => ({ st with pids := st.pids.set freeSlot (freshPid tgid) }, some freeSlot)

/-- What a record does to the slot of its process. -/
def countSample (s : PidStatus) (r : Record) : PidStatus :=
  { s with
    sampledRecords := if s.lastCountedSeq < r.seq then s.sampledRecords + 1 else s.sampledRecords
    lastCountedSeq := if s.lastCountedSeq < r.seq then r.seq else s.lastCountedSeq
    lastSampleSeq := if s.lastSampleSeq < r.seq then r.seq else s.lastSampleSeq }

/-- The body of the loop over the records. -/
def sampleRecord (st : UserpcMaps) (r : Record) : UserpcMaps :=
  if r.tgid ≤ 0 ∨ r.seq = 0 then st
  else
    match userpcMapPidSlot st r.tgid with
    | (st, none) => st
    | (st, some slot) => { st with pids := st.pids.modify slot fun s => countSample s r }

/-- The loop over the slots.  `files` tells for each process what `open` of its map returns, and
the reads. -/
def readAll (files : ℤ → ℤ × List ReadResult) (maps : Maps) :
    List PidStatus → Maps × List PidStatus
  | [] => (maps, [])
  | s :: pids =>
    let read := if s.used then userpcReadMapsForPid maps s (files s.tgid).1 (files s.tgid).2
      else (maps, s)
    let rest := readAll files read.1 pids
    (rest.1, read.2 :: rest.2)

/-- A snapshot, and the files at that time. -/
structure Pass (ringCap : UInt64) where
  snap : Snapshot ringCap
  files : ℤ → ℤ × List ReadResult

/-- `collect_userpc_maps_from_snapshot(maps, snap)`. -/
def collectUserpcMaps (st : UserpcMaps) (p : Pass ringCap) : UserpcMaps :=
  let st := (p.snap.records.take (snapshotCount p.snap).toNat).foldl sampleRecord st
  let read := readAll p.files st.maps st.pids
  ⟨read.1, read.2⟩

/-- The table after some snapshots. -/
def collected (passes : List (Pass ringCap)) : UserpcMaps :=
  passes.foldl collectUserpcMaps userpcMapsInit

/-! ### What is seen of a slot -/

/-- The process of a slot. -/
def pidKey (s : PidStatus) : Option ℤ := if s.used then some s.tgid else none

/-- The fields of a slot that the samples change. -/
structure Sampled where
  process : Option ℤ
  records : UInt64
  counted : UInt64
  last : UInt64

/-- These fields. -/
def sampledOf (s : PidStatus) : Sampled :=
  ⟨pidKey s, s.sampledRecords, s.lastCountedSeq, s.lastSampleSeq⟩

/-- What a record does to them. -/
def countSampled (s : Sampled) (r : Record) : Sampled :=
  { s with
    records := if s.counted < r.seq then s.records + 1 else s.records
    counted := if s.counted < r.seq then r.seq else s.counted
    last := if s.last < r.seq then r.seq else s.last }

/-- How the table of the processes is kept. -/
def samples : Rules Sampled Record ℤ where
  key := Sampled.process
  keyOf r := r.tgid
  fresh tgid := ⟨some tgid, 0, 0, 0⟩
  count := countSampled
  key_fresh _ := rfl
  key_count _ _ := rfl

section Slot

variable {st : UserpcMaps} {r : Record} {tgid : ℤ}

theorem pidKey_eq_some (s : PidStatus) (tgid : ℤ) :
    (s.used && s.tgid == tgid) = decide (pidKey s = some tgid) := by
  unfold pidKey
  by_cases h : s.tgid = tgid <;> cases s.used <;> simp [h]

theorem pidKey_eq_none (s : PidStatus) : (!s.used) = decide (pidKey s = none) := by
  unfold pidKey
  cases s.used <;> simp

/-- **A record in the table**, as the loop over the slots treats it. -/
theorem sampleRecord_eq (hr : Valid r) : sampleRecord st r =
    if (lookup pidKey st.pids r.tgid).isSome then
      { st with pids := update pidKey st.pids (some r.tgid) fun s => countSample s r }
    else if ∀ s ∈ st.pids, pidKey s ≠ none then
      { st with maps.pidDropped := st.maps.pidDropped + 1 }
    else
      { st with pids := update pidKey st.pids none fun _ => countSample (freshPid r.tgid) r } := by
  have hpos : ¬r.tgid ≤ 0 := not_le.2 hr.1
  have hvalid : ¬(r.tgid ≤ 0 ∨ r.seq = 0) := not_or.2 ⟨hpos, hr.2⟩
  unfold sampleRecord userpcMapPidSlot lookup
  rw [if_neg hvalid, if_neg hpos]
  simp only [pidKey_eq_some, pidKey_eq_none]
  cases hslot : st.pids.findIdx? fun s => decide (pidKey s = some r.tgid) with
  | some i =>
    have hsome : (st.pids.find? fun s => decide (pidKey s = some r.tgid)).isSome := by
      rw [List.find?_isSome]
      obtain ⟨s, hs, hk⟩ := List.findIdx?_isSome.symm.trans (congrArg Option.isSome hslot)
        |> List.any_eq_true.1
      exact ⟨s, hs, hk⟩
    have hi := (List.findIdx?_eq_some_iff_findIdx_eq.1 hslot).2
    rw [if_pos hsome, update, hi]
  | none =>
    have hnone : ¬(st.pids.find? fun s => decide (pidKey s = some r.tgid)).isSome := by
      rw [Option.not_isSome_iff_eq_none, List.find?_eq_none]
      intro s hs
      rw [List.findIdx?_eq_none_iff.1 hslot s hs]
      exact Bool.false_ne_true
    rw [if_neg hnone]
    dsimp only
    cases hfree : st.pids.findIdx? fun s => decide (pidKey s = none) with
    | none =>
      rw [if_pos fun s hs => of_decide_eq_false (List.findIdx?_eq_none_iff.1 hfree s hs)]
    | some i =>
      obtain ⟨hlt, hi⟩ := List.findIdx?_eq_some_iff_findIdx_eq.1 hfree
      have hnot : ¬∀ s ∈ st.pids, pidKey s ≠ none := by
        intro hall
        have hkey := (List.findIdx_eq hlt).1 hi
        exact hall _ (List.getElem_mem hlt) (of_decide_eq_true hkey.1)
      rw [if_neg hnot, update, hi]
      dsimp only
      refine congrArg (UserpcMaps.mk st.maps) (List.ext_getElem? fun j => ?_)
      rw [List.getElem?_modify, List.getElem?_modify, List.getElem?_set]
      by_cases hj : i = j
      · subst hj
        simp [hlt]
      · simp [hj]

theorem keys_sampled (pids : List PidStatus) :
    keys Sampled.process (pids.map sampledOf) = keys pidKey pids := List.filterMap_map

theorem lookup_sampled (pids : List PidStatus) (tgid : ℤ) :
    lookup Sampled.process (pids.map sampledOf) tgid = none ↔ lookup pidKey pids tgid = none := by
  rw [lookup_eq_none_iff, lookup_eq_none_iff, keys_sampled]

/-- What is seen of the table is kept by the rules, and only the records without a slot are counted
as dropped. -/
theorem sampled_sampleRecord (hr : Valid r) :
    (sampleRecord st r).pids.map sampledOf = note samples (st.pids.map sampledOf) r ∧
      (sampleRecord st r).maps = { st.maps with
        pidDropped := st.maps.pidDropped +
          if Full samples (st.pids.map sampledOf) r then 1 else 0 } := by
  have hall : (∀ s ∈ st.pids.map sampledOf, s.process ≠ none) ↔ ∀ s ∈ st.pids, pidKey s ≠ none :=
    List.forall_mem_map
  rw [sampleRecord_eq hr, note]
  by_cases hslot : lookup pidKey st.pids r.tgid = none
  · have hnone : ¬(lookup pidKey st.pids r.tgid).isSome := by simp [hslot]
    have hnone' : ¬(lookup samples.key (st.pids.map sampledOf) (samples.keyOf r)).isSome := by
      have := (lookup_sampled st.pids r.tgid).2 hslot
      simpa [samples] using this
    rw [if_neg hnone, if_neg hnone']
    split_ifs with hused hfull hfull
    · have hsame : update samples.key (st.pids.map sampledOf) none
          (fun _ => samples.count (samples.fresh (samples.keyOf r)) r) = st.pids.map sampledOf :=
        update_of_forall_ne (hall.2 hused)
      exact ⟨hsame.symm, rfl⟩
    · exact absurd ⟨(lookup_sampled st.pids r.tgid).2 hslot, hall.2 hused⟩ hfull
    · exact absurd (hall.1 hfull.2) hused
    · refine ⟨map_update (fun _ => rfl) fun _ => rfl, ?_⟩
      rw [UInt64.add_zero]
  · have hsome : (lookup pidKey st.pids r.tgid).isSome := Option.isSome_iff_ne_none.2 hslot
    have hsome' : (lookup samples.key (st.pids.map sampledOf) (samples.keyOf r)).isSome :=
      Option.isSome_iff_ne_none.2 (mt (lookup_sampled st.pids r.tgid).1 hslot)
    have hnot : ¬Full samples (st.pids.map sampledOf) r := fun hfull =>
      hslot ((lookup_sampled st.pids r.tgid).1 hfull.1)
    rw [if_pos hsome, if_pos hsome', if_neg hnot, UInt64.add_zero]
    exact ⟨map_update (fun _ => rfl) fun _ => rfl, rfl⟩

theorem sampleRecord_of_not_valid (hr : ¬Valid r) : sampleRecord st r = st := by
  have hinvalid : r.tgid ≤ 0 ∨ r.seq = 0 := by
    by_contra hnot
    rw [not_or, not_le] at hnot
    exact hr hnot
  rw [sampleRecord, if_pos hinvalid]

/-- The loop over the records. -/
theorem sampled_foldl (st : UserpcMaps) (rs : List Record) :
    (rs.foldl sampleRecord st).pids.map sampledOf =
        (rs.filter fun r => Valid r).foldl (note samples) (st.pids.map sampledOf) ∧
      (rs.foldl sampleRecord st).maps = { st.maps with
        pidDropped := st.maps.pidDropped +
          .ofNat (dropped samples (st.pids.map sampledOf) (rs.filter fun r => Valid r)) } := by
  induction rs generalizing st with
  | nil => simp [dropped]
  | cons r rs ih =>
    rw [List.foldl_cons]
    by_cases hr : Valid r
    · obtain ⟨hpids, hmaps⟩ := @sampled_sampleRecord st r hr
      rw [List.filter_cons_of_pos (by simpa using hr), List.foldl_cons, (ih _).1, (ih _).2, hpids,
        hmaps, dropped, UInt64.ofNat_add]
      refine ⟨rfl, ?_⟩
      rw [← UInt64.add_assoc]
      split_ifs <;> rfl
    · rw [List.filter_cons_of_neg (by simpa using hr), sampleRecord_of_not_valid hr]
      exact ih st

end Slot

/-! ### Reading a file -/

/-- What two entries must differ in. -/
def ident (e : MapEntry) : MapEntry :=
  { e with used := true, samples := 0, firstSeq := 0, lastSeq := 0 }

/-- The key of an entry that is in use. -/
def entryKey (e : MapEntry) : Option MapEntry := if e.used then some (ident e) else none

/-- What the steps of reading a file keep: the samples, and the books of the entries and of the
reads that failed. -/
structure Keeps (a b : Maps × PidStatus) : Prop where
  sampled : sampledOf b.2 = sampledOf a.2
  tgid : b.2.tgid = a.2.tgid
  pidDropped : b.1.pidDropped = a.1.pidDropped
  readFailed : b.1.readFailed - b.2.readFailures = a.1.readFailed - a.2.readFailures
  stored : .ofNat (keys entryKey b.1.entries).length - b.2.linesStored =
    .ofNat (keys entryKey a.1.entries).length - a.2.linesStored
  nodup : (keys entryKey a.1.entries).Nodup → (keys entryKey b.1.entries).Nodup
  size : b.1.entries.length = a.1.entries.length
  owner : ∀ e ∈ b.1.entries, e.used → e ∈ a.1.entries ∨ e.tgid = a.2.tgid

/-- What is counted while a file is not read. -/
structure Same (a b : Maps × PidStatus) : Prop where
  attempted : b.1.attempted = a.1.attempted
  succeeded : b.1.succeeded = a.1.succeeded
  openFailed : b.1.openFailed = a.1.openFailed
  snapshots : b.2.snapshots = a.2.snapshots
  openFailures : b.2.openFailures = a.2.openFailures

section Reading

variable {a b c : Maps × PidStatus} {maps : Maps} {status : PidStatus} {entry : MapEntry}

theorem Keeps.refl (a : Maps × PidStatus) : Keeps a a :=
  ⟨rfl, rfl, rfl, rfl, rfl, id, rfl, fun _ he _ => .inl he⟩

theorem Keeps.trans (hab : Keeps a b) (hbc : Keeps b c) : Keeps a c where
  sampled := hbc.sampled.trans hab.sampled
  tgid := hbc.tgid.trans hab.tgid
  pidDropped := hbc.pidDropped.trans hab.pidDropped
  readFailed := hbc.readFailed.trans hab.readFailed
  stored := hbc.stored.trans hab.stored
  nodup h := hbc.nodup (hab.nodup h)
  size := hbc.size.trans hab.size
  owner e he hused := by
    rcases hbc.owner e he hused with he | he
    · exact hab.owner e he hused
    · exact .inr (he.trans hab.tgid)

theorem Same.refl (a : Maps × PidStatus) : Same a a := ⟨rfl, rfl, rfl, rfl, rfl⟩

theorem Same.trans (hab : Same a b) (hbc : Same b c) : Same a c :=
  ⟨hbc.attempted.trans hab.attempted, hbc.succeeded.trans hab.succeeded,
    hbc.openFailed.trans hab.openFailed, hbc.snapshots.trans hab.snapshots,
    hbc.openFailures.trans hab.openFailures⟩

theorem mapEntrySame_eq (e entry : MapEntry) :
    mapEntrySame e entry = decide (entryKey e = some (ident entry)) := by
  rw [Bool.eq_iff_iff]
  unfold mapEntrySame entryKey ident
  cases e.used <;> simp [and_assoc]

theorem entryKey_eq_none (e : MapEntry) : (!e.used) = decide (entryKey e = none) := by
  unfold entryKey
  cases e.used <;> simp

/-- Storing an entry keeps the books of the table. -/
theorem keeps_storeMapEntry (h : entry.tgid = status.tgid) :
    Keeps (maps, status) (storeMapEntry maps status entry) ∧
      Same (maps, status) (storeMapEntry maps status entry) := by
  unfold storeMapEntry
  simp only [mapEntrySame_eq, entryKey_eq_none]
  split_ifs with hsame
  · exact ⟨.refl _, .refl _⟩
  · cases hfree : maps.entries.findIdx? fun e => decide (entryKey e = none) with
    | none =>
      exact ⟨⟨rfl, rfl, rfl, rfl, rfl, id, rfl, fun _ he _ => .inl he⟩, rfl, rfl, rfl, rfl, rfl⟩
    | some i =>
      obtain ⟨hlt, hi⟩ := List.findIdx?_eq_some_iff_findIdx_eq.1 hfree
      have hset : maps.entries.set i { entry with used := true } =
          update entryKey maps.entries none fun _ => { entry with used := true } := by
        rw [update, hi, List.set_eq_modify]
      have hslot : ∃ e ∈ maps.entries, entryKey e = none :=
        ⟨_, List.getElem_mem hlt, of_decide_eq_true ((List.findIdx_eq hlt).1 hi).1⟩
      have hkey : entryKey { entry with used := true } = some (ident entry) := rfl
      have hkeys := keys_fill hkey hslot
      have hnew : ident entry ∉ keys entryKey maps.entries := by
        intro hmem
        obtain ⟨e, he, hk⟩ := List.mem_filterMap.1 hmem
        exact hsame (List.any_eq_true.2 ⟨e, he, decide_eq_true hk⟩)
      dsimp only
      rw [hset]
      refine ⟨⟨rfl, rfl, rfl, rfl, ?_, fun hnodup => ?_, ?_, fun e he _ => ?_⟩, rfl, rfl, rfl, rfl,
        rfl⟩
      · rw [hkeys.length_eq, List.length_cons, UInt64.ofNat_add]
        show _ + 1 - (status.linesStored + 1) = _
        grind
      · exact hkeys.nodup_iff.2 (List.nodup_cons.2 ⟨hnew, hnodup⟩)
      · exact List.length_modify _ _ _
      · rcases mem_update he with he | ⟨-, -, -, rfl⟩
        · exact .inl he
        · exact .inr h

/-- Handling a line keeps the books. -/
theorem keeps_handleLine (a : Maps × PidStatus) (line : List Shell.Byte) :
    Keeps a (handleLine a line) ∧ Same a (handleLine a line) := by
  obtain ⟨maps, status⟩ := a
  unfold handleLine
  dsimp only
  have hseen : Keeps (maps, status) (maps, { status with linesSeen := status.linesSeen + 1 }) :=
    ⟨rfl, rfl, rfl, rfl, rfl, id, rfl, fun _ he _ => .inl he⟩
  cases parseMapsLine (line.takeWhile (· ≠ 0)) with
  | none =>
    exact ⟨⟨rfl, rfl, rfl, rfl, rfl, id, rfl, fun _ he _ => .inl he⟩, rfl, rfl, rfl, rfl, rfl⟩
  | some parsed =>
    obtain ⟨entry, pathTruncated⟩ := parsed
    obtain ⟨hkeeps, hsame⟩ := @keeps_storeMapEntry maps
      { status with linesSeen := status.linesSeen + 1 } { entry with tgid := status.tgid } rfl
    dsimp only
    cases pathTruncated with
    | false => exact ⟨hseen.trans hkeeps, hsame.1, hsame.2, hsame.3, hsame.4, hsame.5⟩
    | true =>
      have hcut : ∀ b : Maps × PidStatus,
          Keeps b ({ b.1 with pathTruncated := b.1.pathTruncated + 1 }, b.2) := fun b =>
        ⟨rfl, rfl, rfl, rfl, rfl, id, rfl, fun _ he _ => .inl he⟩
      exact ⟨(hseen.trans hkeeps).trans (hcut _), hsame.1, hsame.2, hsame.3, hsame.4, hsame.5⟩

theorem keeps_countTruncated (a : Maps × PidStatus) :
    Keeps a (countTruncated a) ∧ Same a (countTruncated a) :=
  ⟨⟨rfl, rfl, rfl, rfl, rfl, id, rfl, fun _ he _ => .inl he⟩, rfl, rfl, rfl, rfl, rfl⟩

theorem keeps_noteReadFailure (a : Maps × PidStatus) (error : ℤ) :
    Keeps a (noteReadFailure a error) ∧ Same a (noteReadFailure a error) := by
  refine ⟨⟨rfl, rfl, rfl, ?_, rfl, id, rfl, fun _ he _ => .inl he⟩, rfl, rfl, rfl, rfl, rfl⟩
  show a.1.readFailed + 1 - (a.2.readFailures + 1) = _
  grind

/-- What every step of the loop over the bytes keeps the loop keeps. -/
theorem rel_readPieces {σ : Type} {h : Handler σ} {R : σ → σ → Prop} (hrefl : ∀ st, R st st)
    (htrans : ∀ {st st' st'' : σ}, R st st' → R st' st'' → R st st'')
    (hline : ∀ st text, R st (h.line st text)) (htruncated : ∀ st, R st (h.truncated st))
    (r : Reader σ) (reads : List ReadResult) : R r.st (readPieces h r reads).1.st := by
  have hbyte : ∀ (r : Reader σ) c, R r.st (readByte h r c).st := by
    intro r c
    unfold readByte
    split_ifs
    · exact hrefl _
    · exact hrefl _
    · exact htruncated _
    · exact hline _ _
    · exact hrefl _
  have hbytes : ∀ (bytes : List Shell.Byte) (r : Reader σ),
      R r.st (bytes.foldl (readByte h) r).st := by
    intro bytes
    induction bytes with
    | nil => exact fun r => hrefl _
    | cons c bytes ih => exact fun r => htrans (hbyte r c) (ih _)
  induction reads generalizing r with
  | nil => exact hrefl _
  | cons read reads ih =>
    cases read with
    | failed error => exact hrefl _
    | data bytes =>
      rw [readPieces]
      split_ifs
      · exact hrefl _
      · exact htrans (hbytes bytes r) (ih _)

/-- What one call of `userpc_read_maps_for_pid` keeps. -/
structure Read (a b : Maps × PidStatus) : Prop extends Keeps a b where
  attempted : b.1.attempted - b.2.snapshots = a.1.attempted - a.2.snapshots
  openFailed : b.1.openFailed - b.2.openFailures = a.1.openFailed - a.2.openFailures
  ended : b.1.attempted - b.1.succeeded - b.1.openFailed =
    a.1.attempted - a.1.succeeded - a.1.openFailed
  scans : a.2.snapshots.toNat ≤ 4 → b.2.snapshots.toNat ≤ 4

theorem Read.refl (a : Maps × PidStatus) : Read a a := ⟨.refl a, rfl, rfl, rfl, id⟩

/-- What the reads and the lines after the loop make of it. -/
def afterReads (a : Maps × PidStatus) (reads : List ReadResult) : Maps × PidStatus :=
  let read := readPieces mapsHandler ⟨a, [], false⟩ reads
  lastLine mapsHandler (match read.2 with
    | none => read.1
    | some error => { read.1 with st := noteReadFailure read.1.st error })

theorem keeps_afterReads (a : Maps × PidStatus) (reads : List ReadResult) :
    Keeps a (afterReads a reads) ∧ Same a (afterReads a reads) := by
  have hlast : ∀ r : Reader (Maps × PidStatus),
      Keeps r.st (lastLine mapsHandler r) ∧ Same r.st (lastLine mapsHandler r) := by
    intro r
    unfold lastLine
    split_ifs
    · exact keeps_handleLine _ _
    · exact ⟨.refl _, .refl _⟩
  have hpieces := rel_readPieces (h := mapsHandler) (R := fun a b => Keeps a b ∧ Same a b)
    (fun st => ⟨.refl st, .refl st⟩) (fun hab hbc => ⟨hab.1.trans hbc.1, hab.2.trans hbc.2⟩)
    keeps_handleLine keeps_countTruncated ⟨a, [], false⟩ reads
  unfold afterReads
  generalize readPieces mapsHandler ⟨a, [], false⟩ reads = read at hpieces
  dsimp only
  cases read.2 with
  | none => exact ⟨hpieces.1.trans (hlast _).1, hpieces.2.trans (hlast _).2⟩
  | some error =>
    obtain ⟨hkeeps, hsame⟩ := keeps_noteReadFailure read.1.st error
    have hend := hlast { read.1 with st := noteReadFailure read.1.st error }
    exact ⟨(hpieces.1.trans hkeeps).trans hend.1, (hpieces.2.trans hsame).trans hend.2⟩

/-- **Reading the map of a process keeps the books**, whatever the file is and whatever fails. -/
theorem read_userpcReadMapsForPid (maps : Maps) (status : PidStatus) (fd : ℤ)
    (reads : List ReadResult) :
    Read (maps, status) (userpcReadMapsForPid maps status fd reads) := by
  unfold userpcReadMapsForPid
  split_ifs with htgid hmany hscan hfd
  · exact .refl _
  · exact .refl _
  · exact .refl _
  all_goals
    have hfew : status.snapshots.toNat ≤ 4 → (status.snapshots + 1).toNat ≤ 4 := by
      intro _
      rw [UInt64.le_iff_toNat_le, Nat.not_le] at hmany
      have hone : (1 : UInt64).toNat = 1 := rfl
      have hfour : (4 : UInt64).toNat = 4 := rfl
      rw [UInt64.toNat_add]
      omega
  · refine ⟨⟨rfl, rfl, rfl, rfl, rfl, id, rfl, fun _ he _ => .inl he⟩, ?_, ?_, ?_, hfew⟩
    all_goals dsimp only; grind
  · obtain ⟨hkeeps, hsame⟩ := keeps_afterReads ({ maps with attempted := maps.attempted + 1 },
      { status with snapshots := status.snapshots + 1 }) reads
    refine ⟨⟨hkeeps.1, hkeeps.2, hkeeps.3, hkeeps.4, hkeeps.5, hkeeps.6, hkeeps.7, hkeeps.8⟩, ?_, ?_,
      ?_, fun h => ?_⟩
    · have hattempted := hsame.attempted
      have hsnapshots := hsame.snapshots
      show (afterReads _ reads).1.attempted - (afterReads _ reads).2.snapshots = _
      grind
    · have hopen := hsame.openFailed
      have hfailures := hsame.openFailures
      show (afterReads _ reads).1.openFailed - (afterReads _ reads).2.openFailures = _
      grind
    · have hattempted := hsame.attempted
      have hsucceeded := hsame.succeeded
      have hopen := hsame.openFailed
      show (afterReads _ reads).1.attempted - ((afterReads _ reads).1.succeeded + 1) -
        (afterReads _ reads).1.openFailed = _
      grind
    · show (afterReads _ reads).2.snapshots.toNat ≤ 4
      rw [hsame.snapshots]
      exact hfew h

end Reading

/-! ### The books -/

/-- What the slots in use have counted, together. -/
def sumOf (f : PidStatus → UInt64) (pids : List PidStatus) : UInt64 :=
  (pids.map fun s => if s.used then f s else 0).foldr (· + ·) 0

/-- **The books of the table.**  Every attempt, every failure and every stored line is that of one
process; an attempt failed at once or ended; no process has two slots, and none had its file read
more than four times; no entry is there twice, and each one is of a process with a slot. -/
structure Balanced (st : UserpcMaps) : Prop where
  attempted : st.maps.attempted = sumOf PidStatus.snapshots st.pids
  openFailed : st.maps.openFailed = sumOf PidStatus.openFailures st.pids
  readFailed : st.maps.readFailed = sumOf PidStatus.readFailures st.pids
  stored : .ofNat (keys entryKey st.maps.entries).length = sumOf PidStatus.linesStored st.pids
  ended : st.maps.attempted = st.maps.succeeded + st.maps.openFailed
  scans : ∀ s ∈ st.pids, s.snapshots.toNat ≤ 4
  nodup : (keys entryKey st.maps.entries).Nodup
  size : st.maps.entries.length = mapCap ∧ st.pids.length = pidCap
  owner : ∀ e ∈ st.maps.entries, e.used → e.tgid ∈ keys pidKey st.pids
  processes : (keys pidKey st.pids).Nodup

section Books

variable {st : UserpcMaps} {maps : Maps} {s : PidStatus} {pids : List PidStatus}

theorem sumOf_cons (f : PidStatus → UInt64) (s : PidStatus) (pids : List PidStatus) :
    sumOf f (s :: pids) = (if s.used then f s else 0) + sumOf f pids := rfl

theorem sumOf_append (f : PidStatus → UInt64) (pids pids' : List PidStatus) :
    sumOf f (pids ++ pids') = sumOf f pids + sumOf f pids' := by
  induction pids with
  | nil => exact (UInt64.zero_add _).symm
  | cons s pids ih => rw [List.cons_append, sumOf_cons, sumOf_cons, ih, UInt64.add_assoc]

theorem sumOf_replicate (f : PidStatus → UInt64) (n : ℕ) :
    sumOf f (List.replicate n freePid) = 0 := by
  induction n with
  | zero => rfl
  | succ n ih =>
    rw [List.replicate_succ, sumOf_cons, ih]
    rfl

/-- The sums do not change where no slot in use does. -/
theorem sumOf_update {f : PidStatus → UInt64} {o : Option ℤ} {g : PidStatus → PidStatus}
    (h : ∀ s, pidKey s = o → (if (g s).used then f (g s) else 0) = if s.used then f s else 0) :
    sumOf f (update pidKey pids o g) = sumOf f pids := by
  unfold sumOf
  rw [map_update_of_same h]

theorem used_of_pidKey {tgid : ℤ} (h : pidKey s = some tgid) : s.used = true := by
  unfold pidKey at h
  split_ifs at h with hused
  exact hused

theorem not_used_of_pidKey (h : pidKey s = none) : s.used = false := by
  unfold pidKey at h
  split_ifs at h with hused
  exact Bool.eq_false_iff.2 hused

/-- A record keeps the books. -/
theorem Balanced.sampleRecord (h : Balanced st) (r : Record) : Balanced (sampleRecord st r) := by
  by_cases hr : Valid r
  · rw [sampleRecord_eq hr]
    split_ifs with hslot hused
    · have hsame : ∀ f : PidStatus → UInt64, (∀ s, f (countSample s r) = f s) →
          sumOf f (update pidKey st.pids (some r.tgid) fun s => countSample s r) =
            sumOf f st.pids := fun f hf => sumOf_update fun s _ => by
        rw [hf]
        rfl
      have hkeys : keys pidKey (update pidKey st.pids (some r.tgid) fun s => countSample s r) =
          keys pidKey st.pids := keys_update fun s hs => hs
      refine ⟨?_, ?_, ?_, ?_, h.ended, fun s hs => ?_, h.nodup, ?_, ?_, ?_⟩
      · exact h.attempted.trans (hsame _ fun _ => rfl).symm
      · exact h.openFailed.trans (hsame _ fun _ => rfl).symm
      · exact h.readFailed.trans (hsame _ fun _ => rfl).symm
      · exact h.stored.trans (hsame _ fun _ => rfl).symm
      · rcases mem_update hs with hs | ⟨s', hs', -, rfl⟩
        · exact h.scans s hs
        · exact h.scans s' hs'
      · exact ⟨h.size.1, (List.length_modify _ _ _).trans h.size.2⟩
      · exact fun e he heused => hkeys.symm ▸ h.owner e he heused
      · exact hkeys.symm ▸ h.processes
    · exact ⟨h.attempted, h.openFailed, h.readFailed, h.stored, h.ended, h.scans, h.nodup, h.size,
        h.owner, h.processes⟩
    · have hsame : ∀ f : PidStatus → UInt64, f (countSample (freshPid r.tgid) r) = 0 →
          sumOf f (update pidKey st.pids none fun _ => countSample (freshPid r.tgid) r) =
            sumOf f st.pids := fun f hf => sumOf_update fun s hs => by
        rw [hf, not_used_of_pidKey hs]
        rfl
      have hfree : ∃ s ∈ st.pids, pidKey s = none := by
        by_contra hnone
        exact hused fun s hs hk => hnone ⟨s, hs, hk⟩
      have hfresh : pidKey (countSample (freshPid r.tgid) r) = some r.tgid := rfl
      have hkeys := keys_fill hfresh hfree
      refine ⟨?_, ?_, ?_, ?_, h.ended, fun s hs => ?_, h.nodup, ?_, ?_, ?_⟩
      · exact h.attempted.trans (hsame _ rfl).symm
      · exact h.openFailed.trans (hsame _ rfl).symm
      · exact h.readFailed.trans (hsame _ rfl).symm
      · exact h.stored.trans (hsame _ rfl).symm
      · rcases mem_update hs with hs | ⟨-, -, -, rfl⟩
        · exact h.scans s hs
        · exact Nat.zero_le 4
      · exact ⟨h.size.1, (List.length_modify _ _ _).trans h.size.2⟩
      · exact fun e he heused => hkeys.mem_iff.2 (List.mem_cons_of_mem _ (h.owner e he heused))
      · have hnone : lookup pidKey st.pids r.tgid = none := by simpa using hslot
        exact hkeys.nodup_iff.2 (List.nodup_cons.2 ⟨lookup_eq_none_iff.1 hnone, h.processes⟩)
  · rwa [sampleRecord_of_not_valid hr]

/-- Reading the file of one slot keeps the books. -/
theorem Balanced.read {before after : List PidStatus} {b : Maps × PidStatus}
    (h : Balanced ⟨maps, before ++ s :: after⟩) (hused : s.used = true) (hread : Read (maps, s) b) :
    Balanced ⟨b.1, before ++ b.2 :: after⟩ := by
  have hkey : pidKey b.2 = pidKey s := congrArg Sampled.process hread.sampled
  have hs : pidKey s = some s.tgid := if_pos hused
  have hused' : b.2.used = true := used_of_pidKey (hkey.trans hs)
  have hsum : ∀ (f : PidStatus → UInt64) (t : PidStatus), t.used = true →
      sumOf f (before ++ t :: after) = sumOf f before + (f t + sumOf f after) := by
    intro f t ht
    rw [sumOf_append, sumOf_cons, if_pos ht]
  have hkeys : keys pidKey (before ++ b.2 :: after) = keys pidKey (before ++ s :: after) := by
    unfold keys
    rw [List.filterMap_append, List.filterMap_append, List.filterMap_cons, List.filterMap_cons, hkey]
  obtain ⟨hattempted, hopen, hfailed, hstored, hended, hscans, hnodup, hsize, howner,
    hprocesses⟩ := h
  rw [hsum _ s hused] at hattempted hopen hfailed hstored
  dsimp only at hattempted hopen hfailed hstored hended hnodup hsize howner
  refine ⟨?_, ?_, ?_, ?_, ?_, fun t ht => ?_, hread.nodup hnodup, ?_, fun e he heused => ?_,
    hkeys.symm ▸ hprocesses⟩
  · have := hread.attempted
    rw [hsum _ _ hused']
    grind
  · have := hread.openFailed
    rw [hsum _ _ hused']
    grind
  · have := hread.readFailed
    rw [hsum _ _ hused']
    grind
  · have := hread.stored
    rw [hsum _ _ hused']
    grind
  · have := hread.ended
    grind
  · rcases List.mem_append.1 ht with ht | ht
    · exact hscans t (List.mem_append_left _ ht)
    · rcases List.mem_cons.1 ht with rfl | ht
      · exact hread.scans (hscans s (by simp))
      · exact hscans t (by simp [ht])
  · have hlen : (before ++ b.2 :: after).length = (before ++ s :: after).length := by simp
    exact ⟨hread.size.trans hsize.1, hlen.trans hsize.2⟩
  · rw [hkeys]
    rcases hread.owner e he heused with he | he
    · exact howner e he heused
    · rw [he]
      exact List.mem_filterMap.2 ⟨s, by simp, hs⟩

/-- The loop over the slots. -/
theorem balanced_readAll (files : ℤ → ℤ × List ReadResult) (before : List PidStatus)
    (h : Balanced ⟨maps, before ++ pids⟩) :
    Balanced ⟨(readAll files maps pids).1, before ++ (readAll files maps pids).2⟩ := by
  induction pids generalizing maps before with
  | nil => exact h
  | cons s pids ih =>
    rw [readAll]
    dsimp only
    by_cases hused : s.used = true
    · rw [if_pos hused]
      have hone := h.read hused (read_userpcReadMapsForPid maps s (files s.tgid).1 (files s.tgid).2)
      have := @ih _ (before ++ [_]) (by rw [List.append_assoc]; exact hone)
      rwa [List.append_assoc] at this
    · rw [if_neg hused]
      have := @ih maps (before ++ [s]) (by rwa [List.append_assoc])
      rwa [List.append_assoc] at this

/-- **The books balance in every run**, whatever the snapshots and the files are. -/
theorem collect_books (passes : List (Pass ringCap)) : Balanced (collected passes) := by
  have hinit : Balanced userpcMapsInit := by
    have hnone : keys entryKey (List.replicate mapCap {}) = [] := keys_replicate rfl mapCap
    have hfree : keys pidKey (List.replicate pidCap freePid) = [] := keys_replicate rfl pidCap
    refine ⟨(sumOf_replicate _ _).symm, (sumOf_replicate _ _).symm, (sumOf_replicate _ _).symm, ?_,
      rfl, fun s hs => ?_, ?_, ⟨List.length_replicate, List.length_replicate⟩, fun e he heused => ?_,
      ?_⟩
    · show UInt64.ofNat (keys entryKey (List.replicate mapCap {})).length = _
      rw [hnone]
      exact (sumOf_replicate _ _).symm
    · rw [List.eq_of_mem_replicate hs]
      exact Nat.zero_le 4
    · show (keys entryKey (List.replicate mapCap {})).Nodup
      rw [hnone]
      exact List.nodup_nil
    · rw [List.eq_of_mem_replicate he] at heused
      cases heused
    · show (keys pidKey (List.replicate pidCap freePid)).Nodup
      rw [hfree]
      exact List.nodup_nil
  have hstep : ∀ (st : UserpcMaps) (p : Pass ringCap), Balanced st →
      Balanced (collectUserpcMaps st p) := by
    intro st p h
    have hrecords : ∀ (rs : List Record) (st : UserpcMaps), Balanced st →
        Balanced (rs.foldl sampleRecord st) := by
      intro rs
      induction rs with
      | nil => exact fun _ h => h
      | cons r rs ih => exact fun st h => ih _ (h.sampleRecord r)
    exact balanced_readAll p.files [] (hrecords _ st h)
  unfold collected
  generalize userpcMapsInit = st at hinit
  induction passes generalizing st with
  | nil => exact hinit
  | cons p passes ih => exact ih _ (hstep st p hinit)

end Books

/-! ### The samples -/

/-- Records that come in the order of their sequence numbers, except that some come again. -/
inductive Forward : List Record → Prop
  | nil : Forward []
  | snoc {rs : List Record} {r : Record} (h : Forward rs) (hr : r ∈ rs ∨ ∀ r' ∈ rs, r'.seq < r.seq) :
      Forward (rs ++ [r])

/-- The snapshots of a ring: each one has the records of a log from one place on up to another
one, and both places move forward only. -/
def OfRing (log : List Record) (passes : List (Pass ringCap)) : Prop :=
  ∃ windows : List (ℕ × ℕ),
    List.Forall₂ (fun p w => validRecords p.snap = (log.take w.2).drop w.1) passes windows ∧
      windows.Pairwise fun w w' => w.1 ≤ w'.1 ∧ w.2 ≤ w'.2

/-- The valid records of all snapshots. -/
def seen (passes : List (Pass ringCap)) : List Record := passes.flatMap fun p => validRecords p.snap

section Counts

variable {log rs part : List Record} {passes : List (Pass ringCap)} {st : UserpcMaps} {r : Record}

theorem Forward.filter (h : Forward rs) (p : Record → Bool) : Forward (rs.filter p) := by
  induction h with
  | nil => exact .nil
  | @snoc rs r h hr ih =>
    rw [List.filter_append]
    by_cases hp : p r = true
    · rw [List.filter_cons_of_pos hp]
      refine ih.snoc (hr.imp (fun hmem => List.mem_filter.2 ⟨hmem, hp⟩) fun hlt r' hr' => ?_)
      exact hlt r' (List.mem_of_mem_filter hr')
    · rw [List.filter_cons_of_neg hp, List.filter_nil, List.append_nil]
      exact ih

/-- A part in order goes on where each of its records is new or was there. -/
theorem Forward.append (h : Forward rs) (hpart : part.Pairwise fun r r' => r.seq < r'.seq)
    (hnew : ∀ r ∈ part, r ∈ rs ∨ ∀ r' ∈ rs, r'.seq < r.seq) : Forward (rs ++ part) := by
  induction part using List.reverseRecOn with
  | nil => rwa [List.append_nil]
  | append_singleton part r ih =>
    obtain ⟨hpart, -, hlt⟩ := List.pairwise_append.1 hpart
    rw [← List.append_assoc]
    refine (ih hpart fun r' hr' => hnew r' (List.mem_append_left _ hr')).snoc ?_
    refine (hnew r (by simp)).imp (fun hmem => List.mem_append_left _ hmem) fun hold r' hr' => ?_
    rcases List.mem_append.1 hr' with hr' | hr'
    · exact hold r' hr'
    · exact hlt r' hr' r (List.mem_singleton.2 rfl)

theorem mem_window {a b : ℕ} :
    r ∈ (log.take b).drop a ↔ ∃ i, a ≤ i ∧ i < b ∧ log[i]? = some r := by
  rw [List.mem_iff_getElem?]
  constructor
  · rintro ⟨j, hj⟩
    rw [List.getElem?_drop, List.getElem?_take] at hj
    split_ifs at hj with hlt
    exact ⟨a + j, Nat.le_add_right a j, hlt, hj⟩
  · rintro ⟨i, hle, hlt, hi⟩
    refine ⟨i - a, ?_⟩
    rw [List.getElem?_drop, List.getElem?_take, Nat.add_sub_cancel' hle, if_pos hlt, hi]

/-- **The records of the snapshots of a ring** come in order, except that some come again. -/
theorem forward_seen (hlog : log.Pairwise fun r r' => r.seq < r'.seq) (h : OfRing log passes) :
    Forward (seen passes) := by
  obtain ⟨windows, hwindows, hforward⟩ := h
  have hseen : seen passes = windows.flatMap fun w => (log.take w.2).drop w.1 := by
    clear hforward
    induction hwindows with
    | nil => rfl
    | @cons p w passes windows hp _ ih =>
      rw [List.flatMap_cons, ← hp, ← ih]
      rfl
  have hlt : ∀ {i j : ℕ} {r r' : Record}, log[i]? = some r → log[j]? = some r' → i < j →
      r.seq < r'.seq := by
    intro i j r r' hi hj hij
    obtain ⟨hi', rfl⟩ := List.getElem?_eq_some_iff.1 hi
    obtain ⟨hj', rfl⟩ := List.getElem?_eq_some_iff.1 hj
    exact List.pairwise_iff_getElem.1 hlog i j hi' hj' hij
  rw [hseen]
  clear hwindows hseen
  induction windows using List.reverseRecOn with
  | nil => exact .nil
  | append_singleton windows w ih =>
    obtain ⟨hbefore, -, hlast⟩ := List.pairwise_append.1 hforward
    rw [List.flatMap_append, List.flatMap_singleton]
    refine (ih hbefore).append
      (hlog.sublist ((List.drop_sublist _ _).trans (List.take_sublist _ _))) fun r hr => ?_
    by_cases hold : r ∈ windows.flatMap fun w => (log.take w.2).drop w.1
    · exact .inl hold
    · refine .inr fun r' hr' => ?_
      obtain ⟨w', hw', hr'⟩ := List.mem_flatMap.1 hr'
      obtain ⟨i, hlow, hhigh, hi⟩ := mem_window.1 hr
      obtain ⟨i', -, hhigh', hi'⟩ := mem_window.1 hr'
      obtain ⟨hfirst, -⟩ := hlast w' hw' w (List.mem_singleton.2 rfl)
      refine hlt hi' hi ?_
      -- an earlier window that goes beyond the record has it
      by_contra hle
      exact hold (List.mem_flatMap.2 ⟨w', hw', mem_window.2 ⟨i, by omega, by omega, hi⟩⟩)

/-- What a process has counted of its records: how many different ones they are, and the last. -/
structure Counted (s : Sampled) (rs : List Record) : Prop where
  records : s.records.toNat = (rs.map Record.seq).eraseDups.length
  counted : s.counted = s.last
  le : s.records.toNat ≤ s.last.toNat
  unset : rs = [] → s.last = 0
  greatest : rs ≠ [] → IsGreatest (seqs rs) s.last.toNat

theorem seqs_of_mem (hr : r ∈ rs) : r.seq.toNat ∈ seqs rs := ⟨r, hr, rfl⟩

/-- **A process counts each of its records once** when they come in order. -/
theorem Forward.counted {tgid : ℤ} (h : Forward rs) (hvalid : ∀ r ∈ rs, r.seq ≠ 0) :
    Counted (rs.foldl countSampled ⟨some tgid, 0, 0, 0⟩) rs := by
  induction h with
  | nil => exact ⟨rfl, rfl, Nat.le_refl 0, fun _ => rfl, fun h => absurd rfl h⟩
  | @snoc rs r h hr ih =>
    have hs := ih fun r' hr' => hvalid r' (List.mem_append_left _ hr')
    rw [List.foldl_append, List.foldl_cons, List.foldl_nil]
    generalize rs.foldl countSampled ⟨some tgid, 0, 0, 0⟩ = s at hs
    have hne : rs ++ [r] ≠ [] := by simp
    have hseqs : seqs (rs ++ [r]) = insert r.seq.toNat (seqs rs) := seqs_snoc rs r
    rcases hr with hmem | hnew
    · -- the record was there before
      have hgreatest := hs.greatest (List.ne_nil_of_mem hmem)
      have hle : r.seq.toNat ≤ s.last.toNat := hgreatest.2 (seqs_of_mem hmem)
      have hold : countSampled s r = s := by
        have hnot : ¬s.last < r.seq := by
          rw [UInt64.lt_iff_toNat_lt]
          omega
        unfold countSampled
        rw [hs.counted, if_neg hnot, if_neg hnot]
        exact congrArg (fun c => Sampled.mk s.process s.records c s.last) hs.counted.symm
      have hdups : ((rs ++ [r]).map Record.seq).eraseDups = (rs.map Record.seq).eraseDups := by
        have hin : r.seq ∈ rs.map Record.seq := List.mem_map_of_mem hmem
        have hrest : [r.seq].removeAll (rs.map Record.seq) = [] :=
          List.filter_cons_of_neg (by simpa using hin)
        rw [List.map_append, List.eraseDups_append, List.map_singleton, hrest, List.eraseDups_nil,
          List.append_nil]
      rw [hold]
      refine ⟨by rw [hdups, hs.records], hs.counted, hs.le, fun hnil => absurd hnil hne, fun _ => ?_⟩
      rw [hseqs, Set.insert_eq_of_mem (seqs_of_mem hmem)]
      exact hgreatest
    · have hlt : s.last < r.seq := by
        by_cases hnil : rs = []
        · have hpos : r.seq.toNat ≠ 0 := fun hzero =>
            hvalid r (by simp) (UInt64.toNat_inj.1 hzero)
          have hzero : (0 : UInt64).toNat = 0 := rfl
          rw [hs.unset hnil, UInt64.lt_iff_toNat_lt]
          omega
        · obtain ⟨r', hr', heq⟩ := (hs.greatest hnil).1
          have hless := hnew r' hr'
          rw [UInt64.lt_iff_toNat_lt] at hless ⊢
          omega
      have hnext : countSampled s r = ⟨s.process, s.records + 1, r.seq, r.seq⟩ := by
        unfold countSampled
        rw [hs.counted, if_pos hlt, if_pos hlt]
      have hnot : r.seq ∉ rs.map Record.seq := by
        intro hmem
        obtain ⟨r', hr', heq⟩ := List.mem_map.1 hmem
        have hless := hnew r' hr'
        rw [heq] at hless
        exact UInt64.lt_irrefl _ hless
      have hdups : ((rs ++ [r]).map Record.seq).eraseDups.length =
          (rs.map Record.seq).eraseDups.length + 1 := by
        have hrest : [r.seq].removeAll (rs.map Record.seq) = [r.seq] :=
          List.filter_cons_of_pos (by simpa using hnot)
        rw [List.map_append, List.eraseDups_append, List.map_singleton, hrest, List.length_append]
        rfl
      have hle := hs.le
      have hbound := r.seq.toNat_lt
      rw [UInt64.lt_iff_toNat_lt] at hlt
      have hone : (s.records + 1).toNat = s.records.toNat + 1 := by
        rw [UInt64.toNat_add]
        exact Nat.mod_eq_of_lt (by change _ + 1 < _; omega)
      rw [hnext]
      have hless : (s.records + 1).toNat ≤ r.seq.toNat := by omega
      refine ⟨by rw [hdups, hone, hs.records], rfl, hless, fun hnil => absurd hnil hne,
        fun _ => ⟨?_, ?_⟩⟩
      · rw [hseqs]
        exact Set.mem_insert _ _
      · rw [hseqs]
        rintro n (rfl | ⟨r', hr', rfl⟩)
        · exact Nat.le_refl _
        · have hless := hnew r' hr'
          rw [UInt64.lt_iff_toNat_lt] at hless
          exact hless.le

/-- What the files are does not matter for what is seen of the table. -/
theorem sampled_readAll (files : ℤ → ℤ × List ReadResult) (maps : Maps) (pids : List PidStatus) :
    (readAll files maps pids).2.map sampledOf = pids.map sampledOf ∧
      (readAll files maps pids).1.pidDropped = maps.pidDropped := by
  induction pids generalizing maps with
  | nil => exact ⟨rfl, rfl⟩
  | cons s pids ih =>
    have hkeeps : Keeps (maps, s)
        (if s.used then userpcReadMapsForPid maps s (files s.tgid).1 (files s.tgid).2
          else (maps, s)) := by
      split_ifs
      · exact (read_userpcReadMapsForPid _ _ _ _).toKeeps
      · exact .refl _
    rw [readAll]
    dsimp only
    rw [List.map_cons, List.map_cons, (ih _).1, (ih _).2, hkeeps.sampled]
    exact ⟨rfl, hkeeps.pidDropped⟩

/-- What is seen of the table after the snapshots. -/
theorem sampled_collected (passes : List (Pass ringCap)) :
    (collected passes).pids.map sampledOf =
        (seen passes).foldl (note samples) (List.replicate pidCap (sampledOf freePid)) ∧
      (collected passes).maps.pidDropped =
        .ofNat (dropped samples (List.replicate pidCap (sampledOf freePid)) (seen passes)) := by
  have hrun : ∀ st : UserpcMaps, (passes.foldl collectUserpcMaps st).pids.map sampledOf =
      (seen passes).foldl (note samples) (st.pids.map sampledOf) ∧
      (passes.foldl collectUserpcMaps st).maps.pidDropped = st.maps.pidDropped +
        .ofNat (dropped samples (st.pids.map sampledOf) (seen passes)) := by
    induction passes with
    | nil => exact fun st => ⟨rfl, (UInt64.add_zero _).symm⟩
    | cons p passes ih =>
      intro st
      have hvalid : (p.snap.records.take (snapshotCount p.snap).toNat).filter
          (fun r => Valid r) = validRecords p.snap := by
        rw [toNat_snapshotCount]
        rfl
      obtain ⟨hpids, hmaps⟩ := sampled_foldl st (p.snap.records.take (snapshotCount p.snap).toNat)
      rw [hvalid] at hpids hmaps
      have hread := sampled_readAll p.files
        ((p.snap.records.take (snapshotCount p.snap).toNat).foldl sampleRecord st).maps
        ((p.snap.records.take (snapshotCount p.snap).toNat).foldl sampleRecord st).pids
      have hpass : (collectUserpcMaps st p).pids.map sampledOf =
          (validRecords p.snap).foldl (note samples) (st.pids.map sampledOf) :=
        hread.1.trans hpids
      have hdropped : (collectUserpcMaps st p).maps.pidDropped = st.maps.pidDropped +
          .ofNat (dropped samples (st.pids.map sampledOf) (validRecords p.snap)) :=
        hread.2.trans (congrArg Maps.pidDropped hmaps)
      have hseen : seen (p :: passes) = validRecords p.snap ++ seen passes := List.flatMap_cons
      rw [List.foldl_cons, (ih _).1, (ih _).2, hpass, hdropped, hseen, List.foldl_append,
        dropped_append, UInt64.ofNat_add, UInt64.add_assoc]
      exact ⟨rfl, rfl⟩
  obtain ⟨hpids, hdropped⟩ := hrun userpcMapsInit
  have hinit : userpcMapsInit.pids.map sampledOf = List.replicate pidCap (sampledOf freePid) :=
    List.map_replicate
  rw [hinit] at hpids hdropped
  exact ⟨hpids, hdropped.trans (UInt64.zero_add _)⟩

/-- **Each sample is counted once**, though the snapshots overlap.  The slots are those of the first
64 processes that were sampled; each of these was sampled as often as there are different records
of it in the snapshots, and the last one is the greatest of their sequence numbers; and the records
that were dropped are those of the other processes. -/
theorem collect_counts (hlog : log.Pairwise fun r r' => r.seq < r'.seq) (h : OfRing log passes) :
    keys pidKey (collected passes).pids = ((seen passes).map Record.tgid).eraseDups.take 64 ∧
      (∀ s ∈ (collected passes).pids, s.used →
        s.sampledRecords.toNat = (((seen passes).filter fun r => r.tgid = s.tgid).map
          Record.seq).eraseDups.length ∧
        IsGreatest (seqs ((seen passes).filter fun r => r.tgid = s.tgid)) s.lastSampleSeq.toNat) ∧
      (collected passes).maps.pidDropped = .ofNat ((seen passes).countP fun r =>
        r.tgid ∉ ((seen passes).map Record.tgid).eraseDups.take 64) := by
  have hfree : samples.key (sampledOf freePid) = none := rfl
  obtain ⟨hpids, hdropped⟩ := sampled_collected passes
  rw [dropped_eq hfree] at hdropped
  rw [foldl_note hfree] at hpids
  refine ⟨?_, fun s hs hused => ?_, hdropped⟩
  · rw [← keys_sampled, hpids]
    exact keys_rows _ _ hfree
  · have hmem : sampledOf s ∈ (kept samples pidCap (seen passes)).map (row samples (seen passes)) ++
        List.replicate (pidCap - (kept samples pidCap (seen passes)).length) (sampledOf freePid) :=
      hpids ▸ List.mem_map_of_mem hs
    have hkey : (sampledOf s).process = some s.tgid := if_pos hused
    rcases List.mem_append.1 hmem with hmem | hmem
    · obtain ⟨tgid, htgid, hrow⟩ := List.mem_map.1 hmem
      have heq : tgid = s.tgid := by
        have hk := key_row (t := samples) (seen passes) tgid
        rw [hrow] at hk
        exact Option.some.inj (hk.symm.trans hkey)
      subst heq
      have hvalid : ∀ r ∈ (seen passes).filter fun r => r.tgid = s.tgid, r.seq ≠ 0 := by
        intro r hr
        obtain ⟨p, -, hr⟩ := List.mem_flatMap.1 (List.mem_of_mem_filter hr)
        exact (of_decide_eq_true (List.mem_filter.1 hr).2).2
      have hcounted := @Forward.counted _ s.tgid ((forward_seen hlog h).filter _) hvalid
      have hsampled : sampledOf s = ((seen passes).filter fun r => r.tgid = s.tgid).foldl
          countSampled ⟨some s.tgid, 0, 0, 0⟩ := hrow.symm
      rw [← hsampled] at hcounted
      refine ⟨hcounted.records, hcounted.greatest ?_⟩
      have hin : s.tgid ∈ (seen passes).map Record.tgid :=
        List.mem_eraseDups.1 (List.mem_of_mem_take htgid)
      obtain ⟨r, hr, hr'⟩ := List.mem_map.1 hin
      exact List.ne_nil_of_mem (List.mem_filter.2 ⟨hr, decide_eq_true hr'⟩)
    · rw [List.eq_of_mem_replicate hmem] at hkey
      cases hkey

/-- A snapshot of a ring of two samples of process 7, of which so many are there. -/
def smallPass (stored : UInt64) : Pass 2 where
  snap := ⟨stored, 2, [⟨7, 1, 0⟩, ⟨7, 2, 0⟩], rfl⟩
  files _ := (-1, [])

/-- The first sample is in both snapshots. -/
theorem collect_counts_small : keys pidKey (collected [smallPass 1, smallPass 2]).pids = [7] ∧
    (∀ s ∈ (collected [smallPass 1, smallPass 2]).pids, s.used → s.tgid = 7 →
      s.sampledRecords.toNat = 2) ∧
    (collected [smallPass 1, smallPass 2]).maps.pidDropped = 0 := by
  have hlog : [(⟨7, 1, 0⟩ : Record), ⟨7, 2, 0⟩].Pairwise fun r r' => r.seq < r'.seq := by simp
  have hring : OfRing [⟨7, 1, 0⟩, ⟨7, 2, 0⟩] [smallPass 1, smallPass 2] :=
    ⟨[(0, 1), (0, 2)], .cons rfl (.cons rfl .nil), by simp⟩
  obtain ⟨hkeys, hcount, hdropped⟩ := collect_counts hlog hring
  refine ⟨hkeys, fun s hs hused htgid => ?_, hdropped⟩
  rw [(hcount s hs hused).1, htgid]
  rfl

end Counts

end Userpc
end Tools
end V6User
