import Mathlib.Order.Bounds.Basic
import V6User.Base.Buckets
import V6User.Tools.UserpcLine

/-!
# Samples attributed to mappings

`programs/kprofile/kprofile.c`: `userpc_map_contains` and `userpc_maps_attribute`.

The entries of the table are buckets: each valid record of the ring is counted in the first
entry of its process whose range has its address, and as unmapped where there is none.  An entry
ends with the number of the records counted in it and with the least and the greatest of their
sequence numbers, and no valid record is lost (`userpcMapsAttribute_spec`).
-/

namespace V6User
namespace Tools
namespace Userpc

open Buckets

/-- `struct kprofile_userpc_record`, of which the attribution reads these fields. -/
structure Record where
  tgid : ℤ
  seq : UInt64
  rip : UInt64

/-- `struct kprofile_userpc_snapshot`, whose array has `KPROFILE_USERPC_RING_CAP` records. -/
structure Snapshot (ringCap : UInt64) where
  stored : UInt64
  capacity : UInt64
  records : List Record
  length_records : records.length = ringCap.toNat

/-- `userpc_map_contains(entry, rec)`. -/
def contains (entry : MapEntry) (rec : Record) : Bool :=
  entry.used && entry.tgid == rec.tgid && entry.start ≤ rec.rip && rec.rip < entry.stop

/-- What an entry is set to before the records are counted. -/
def resetEntry (entry : MapEntry) : MapEntry :=
  { entry with samples := 0, firstSeq := 0, lastSeq := 0 }

/-- What the inner loop does with the entry that contains the record. -/
def countRecord (entry : MapEntry) (r : Record) : MapEntry :=
  { entry with
    samples := entry.samples + 1
    firstSeq := if entry.firstSeq = 0 ∨ r.seq < entry.firstSeq then r.seq else entry.firstSeq
    lastSeq := if entry.lastSeq < r.seq then r.seq else entry.lastSeq }

/-- `count`: how many records of the snapshot are looked at. -/
def snapshotCount {ringCap : UInt64} (snap : Snapshot ringCap) : UInt64 :=
  let count := snap.stored
  let count := if snap.capacity < count then snap.capacity else count
  if ringCap < count then ringCap else count

/-- A turn of the loop over the records, with the table and `*unmapped_samples`.  The inner loop
goes over the entries up to the first one that contains the record, and `found` says whether
there was one. -/
def attributeRecord (st : List MapEntry × UInt64) (r : Record) : List MapEntry × UInt64 :=
  if r.tgid ≤ 0 ∨ r.seq = 0 then st
  else
    let found := st.1.any fun entry => contains entry r
    (put contains countRecord r st.1, if found then st.2 else st.2 + 1)

/-- `userpc_maps_attribute(maps, snap, unmapped_samples)`, for pointers that are not null: the
entries of the table and `*unmapped_samples` afterwards. -/
def userpcMapsAttribute {ringCap : UInt64} (entries : List MapEntry) (snap : Snapshot ringCap) :
    List MapEntry × UInt64 :=
  (snap.records.take (snapshotCount snap).toNat).foldl attributeRecord (entries.map resetEntry, 0)

/-! ### What is counted -/

/-- A valid record. -/
def Valid (r : Record) : Prop := 0 < r.tgid ∧ r.seq ≠ 0

instance (r : Record) : Decidable (Valid r) := inferInstanceAs (Decidable (_ ∧ _))

/-- The valid records among the first ones of the snapshot. -/
def validRecords {ringCap : UInt64} (snap : Snapshot ringCap) : List Record :=
  (snap.records.take (min (min snap.stored.toNat snap.capacity.toNat) ringCap.toNat)).filter
    fun r => Valid r

/-- The sequence numbers of records. -/
def seqs (rs : List Record) : Set ℕ := {s | ∃ r ∈ rs, r.seq.toNat = s}

/-- The entry sums up the records: their number, and the least and the greatest of their
sequence numbers. -/
structure Sums (entry : MapEntry) (rs : List Record) : Prop where
  samples : entry.samples.toNat = rs.length
  unset : rs = [] → entry.firstSeq = 0 ∧ entry.lastSeq = 0
  least : rs ≠ [] → IsLeast (seqs rs) entry.firstSeq.toNat
  greatest : rs ≠ [] → IsGreatest (seqs rs) entry.lastSeq.toNat

section Counting

variable {ringCap : UInt64} {entry : MapEntry} {rs : List Record} {r : Record}

theorem toNat_snapshotCount (snap : Snapshot ringCap) : (snapshotCount snap).toNat =
    min (min snap.stored.toNat snap.capacity.toNat) ringCap.toNat := by
  unfold snapshotCount
  simp only [UInt64.lt_iff_toNat_lt]
  split_ifs <;> omega

theorem contains_countRecord (entry : MapEntry) (r r' : Record) :
    contains (countRecord entry r) r' = contains entry r' := rfl

theorem seqs_snoc (rs : List Record) (r : Record) :
    seqs (rs ++ [r]) = insert r.seq.toNat (seqs rs) := by
  ext s
  simp only [seqs, Set.mem_ofPred_eq, Set.mem_insert_iff, List.mem_append, List.mem_singleton]
  constructor
  · rintro ⟨r', hr' | rfl, rfl⟩
    · exact .inr ⟨r', hr', rfl⟩
    · exact .inl rfl
  · rintro (rfl | ⟨r', hr', rfl⟩)
    · exact ⟨r, .inr rfl, rfl⟩
    · exact ⟨r', .inl hr', rfl⟩

/-- An entry sums up one record more.  Its first sequence number is `0` only before the first
record, whose own is not. -/
theorem Sums.snoc (h : Sums entry rs) (hrs : ∀ r ∈ rs, r.seq ≠ 0)
    (hlen : rs.length + 1 < 2 ^ 64) : Sums (countRecord entry r) (rs ++ [r]) := by
  have hsamples : (entry.samples + 1).toNat = rs.length + 1 := by
    rw [UInt64.toNat_add, h.samples]
    exact Nat.mod_eq_of_lt hlen
  refine ⟨by rw [List.length_append]; exact hsamples, by simp, fun _ => ?_, fun _ => ?_⟩
  · rw [seqs_snoc]
    by_cases hempty : rs = []
    · have hfirst : (countRecord entry r).firstSeq = r.seq := if_pos (.inl (h.unset hempty).1)
      rw [hfirst, hempty]
      exact ⟨Set.mem_insert _ _, by simp [lowerBounds, seqs]⟩
    · have hleast := h.least hempty
      obtain ⟨r₀, hr₀, hfirst⟩ := hleast.1
      have hne : entry.firstSeq ≠ 0 := by
        rw [← UInt64.toNat_inj.1 hfirst]
        exact hrs r₀ hr₀
      have hmin : (countRecord entry r).firstSeq.toNat =
          min r.seq.toNat entry.firstSeq.toNat := by
        simp only [countRecord, hne, false_or, UInt64.lt_iff_toNat_lt]
        split_ifs <;> omega
      rw [hmin]
      exact hleast.insert r.seq.toNat
  · rw [seqs_snoc]
    have hmax : (countRecord entry r).lastSeq.toNat = max r.seq.toNat entry.lastSeq.toNat := by
      simp only [countRecord, UInt64.lt_iff_toNat_lt]
      split_ifs <;> omega
    rw [hmax]
    by_cases hempty : rs = []
    · rw [(h.unset hempty).2, hempty]
      exact ⟨by simp, by simp [upperBounds, seqs]⟩
    · exact (h.greatest hempty).insert r.seq.toNat

/-- **An entry sums up the records that are counted in it.** -/
theorem sums_foldl (entry : MapEntry) (rs : List Record) (hrs : ∀ r ∈ rs, r.seq ≠ 0)
    (hlen : rs.length < 2 ^ 64) : Sums (rs.foldl countRecord (resetEntry entry)) rs := by
  induction rs using List.reverseRecOn with
  | nil => exact ⟨rfl, fun _ => ⟨rfl, rfl⟩, fun h => absurd rfl h, fun h => absurd rfl h⟩
  | append_singleton rs r ih =>
    rw [List.length_append, List.length_singleton] at hlen
    have hrs' : ∀ r ∈ rs, r.seq ≠ 0 := fun r' hr' => hrs r' (List.mem_append_left _ hr')
    rw [List.foldl_append]
    exact (ih hrs' (by omega)).snoc hrs' hlen

end Counting

/-! ### The whole run -/

section Run

variable {ringCap : UInt64}

/-- An entry of the process of the record whose range has its address. -/
def InRange (entry : MapEntry) (r : Record) : Prop :=
  entry.used = true ∧ entry.tgid = r.tgid ∧ entry.start ≤ r.rip ∧ r.rip < entry.stop

theorem contains_iff {entry : MapEntry} {r : Record} : contains entry r ↔ InRange entry r := by
  simp only [contains, InRange, Bool.and_eq_true, beq_iff_eq, decide_eq_true_eq, and_assoc]

theorem any_contains (entries : List MapEntry) (r : Record) :
    (entries.any fun entry => contains entry r) = (home contains entries r).isSome := by
  rw [home, List.findIdx?_isSome]

/-- **The run**: the valid records are put into the entries, and those without a home are counted
as unmapped. -/
theorem foldl_attributeRecord (entries : List MapEntry) (unmapped : UInt64) (rs : List Record) :
    rs.foldl attributeRecord (entries, unmapped) =
      (putAll contains countRecord entries (rs.filter fun r => Valid r),
        unmapped + .ofNat ((rs.filter fun r => Valid r).filter
          fun r => home contains entries r = none).length) := by
  induction rs generalizing entries unmapped with
  | nil => simp [putAll]
  | cons r rs ih =>
    rw [List.foldl_cons, attributeRecord, any_contains]
    by_cases hvalid : Valid r
    · have hnot : ¬(r.tgid ≤ 0 ∨ r.seq = 0) := by
        rintro (h | h)
        · exact absurd hvalid.1 (Int.not_lt.2 h)
        · exact hvalid.2 h
      rw [if_neg hnot, ih, List.filter_cons, if_pos (decide_eq_true hvalid), List.filter_cons]
      simp only [home_put contains_countRecord]
      cases hhome : home contains entries r with
      | none =>
        rw [if_pos (decide_eq_true rfl), List.length_cons, UInt64.ofNat_add]
        refine Prod.ext rfl ?_
        change unmapped + 1 + _ = unmapped + (_ + 1)
        rw [UInt64.add_assoc, UInt64.add_comm 1]
      | some j =>
        rw [Option.isSome_some, if_pos rfl, decide_eq_false (Option.some_ne_none j),
          if_neg Bool.false_ne_true]
        rfl
    · have hskip : r.tgid ≤ 0 ∨ r.seq = 0 := by
        by_contra h
        rw [not_or] at h
        exact hvalid ⟨Int.lt_of_not_ge h.1, h.2⟩
      rw [if_pos hskip, ih, List.filter_cons, if_neg (by simpa using hvalid)]

/-- What a run leaves of an entry besides its counters is what was there. -/
theorem resetEntry_foldl (entry : MapEntry) (rs : List Record) :
    resetEntry (rs.foldl countRecord entry) = resetEntry entry := by
  induction rs generalizing entry with
  | nil => rfl
  | cons r rs ih => exact ih (countRecord entry r)

theorem home_resetEntry (entries : List MapEntry) (r : Record) :
    home contains (entries.map resetEntry) r = home contains entries r := by
  rw [home, List.findIdx?_map]
  rfl

theorem length_validRecords_lt (snap : Snapshot ringCap) :
    (validRecords snap).length < 2 ^ 64 := by
  have hfilter := List.length_filter_le (fun r => decide (Valid r)) (snap.records.take
    (min (min snap.stored.toNat snap.capacity.toNat) ringCap.toNat))
  have hcap := ringCap.toNat_lt
  rw [List.length_take] at hfilter
  rw [validRecords]
  omega

/-- **Every valid record is counted once.**  For every table and every snapshot there is a home
for each record, an entry of its own process whose range has its address, or none where there is
no such entry; after the run an entry sums up the valid records whose home it is, and is
otherwise as it was; `*unmapped_samples` is the number of the valid records without a home; and
all samples with these are as many as the valid records. -/
theorem userpcMapsAttribute_spec (entries : List MapEntry) (snap : Snapshot ringCap) :
    ∃ home : Record → Option ℕ,
      (∀ r j, home r = some j → ∃ entry, entries[j]? = some entry ∧ InRange entry r) ∧
      (∀ r, home r = none → ∀ entry ∈ entries, ¬InRange entry r) ∧
      (∀ j : ℕ, (userpcMapsAttribute entries snap).1[j]?.map resetEntry =
        entries[j]?.map resetEntry) ∧
      (∀ (j : ℕ) entry, (userpcMapsAttribute entries snap).1[j]? = some entry →
        Sums entry ((validRecords snap).filter fun r => home r = some j)) ∧
      (userpcMapsAttribute entries snap).2.toNat =
        ((validRecords snap).filter fun r => home r = none).length ∧
      ((userpcMapsAttribute entries snap).1.map fun entry => entry.samples.toNat).sum +
        (userpcMapsAttribute entries snap).2.toNat = (validRecords snap).length := by
  have hlt := length_validRecords_lt snap
  have hrun : userpcMapsAttribute entries snap =
      (putAll contains countRecord (entries.map resetEntry) (validRecords snap),
        .ofNat ((validRecords snap).filter fun r => home contains entries r = none).length) := by
    rw [userpcMapsAttribute, foldl_attributeRecord, toNat_snapshotCount, UInt64.zero_add]
    simp only [home_resetEntry]
    rfl
  have hget : ∀ j : ℕ, (userpcMapsAttribute entries snap).1[j]? = entries[j]?.map fun entry =>
      ((validRecords snap).filter fun r => home contains entries r = some j).foldl countRecord
        (resetEntry entry) := by
    intro j
    rw [hrun]
    dsimp only
    rw [getElem?_putAll contains_countRecord, List.getElem?_map, Option.map_map]
    simp only [home_resetEntry]
    rfl
  have hunmapped : (userpcMapsAttribute entries snap).2.toNat =
      ((validRecords snap).filter fun r => home contains entries r = none).length := by
    rw [hrun]
    refine toNat_ofNat_of_lt (Nat.lt_of_le_of_lt (List.length_filter_le _ _) hlt)
  refine ⟨home contains entries, ?_, ?_, ?_, ?_, hunmapped, ?_⟩
  · intro r j hj
    obtain ⟨entry, hentry, haccepts⟩ := exists_of_home hj
    exact ⟨entry, hentry, contains_iff.1 haccepts⟩
  · intro r hr entry hentry hrange
    have hnot := not_accepts_of_home hr hentry
    rw [contains_iff.2 hrange] at hnot
    cases hnot
  · intro j
    rw [hget, Option.map_map]
    refine congrArg (fun f => entries[j]?.map f) (funext fun entry => ?_)
    exact resetEntry_foldl (resetEntry entry) _
  · intro j entry hentry
    rw [hget] at hentry
    obtain ⟨entry, -, rfl⟩ := Option.map_eq_some_iff.1 hentry
    refine sums_foldl entry _ (fun r hr => ?_)
      (Nat.lt_of_le_of_lt (List.length_filter_le _ _) hlt)
    have hvalid := (List.mem_filter.1 (List.mem_filter.1 hr).1).2
    exact (of_decide_eq_true hvalid).2
  · have hcount : ∀ (entry : MapEntry) (r : Record), entry.samples.toNat < 2 ^ 64 - 1 →
        (countRecord entry r).samples.toNat = entry.samples.toNat + 1 := by
      intro entry r h
      change (entry.samples + 1).toNat = _
      rw [UInt64.toNat_add]
      exact Nat.mod_eq_of_lt (by change _ + 1 < _; omega)
    have hzero : ((entries.map resetEntry).map fun entry => entry.samples.toNat).sum = 0 := by
      rw [List.map_map]
      exact List.sum_eq_zero (by simp [resetEntry])
    have hsum := @sum_putAll _ _ contains _ _ _ hcount contains_countRecord
      (entries.map resetEntry) (validRecords snap) (by rw [hzero]; omega)
    simp only [home_resetEntry] at hsum
    rw [hunmapped, hrun]
    rw [hzero, Nat.zero_add] at hsum
    exact hsum

end Run

end Userpc
end Tools
end V6User
