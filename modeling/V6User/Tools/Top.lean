import Mathlib.Data.Int.Init
import V6User.Base.Wrapping

/-!
# The rates that `top` shows

`programs/top/top.c`: `fill_io_totals`, `find_by_pid`, and the differences that `print_header`
and `print_procs` pass to `fmt_rate` for two snapshots.

The totals of a snapshot are over the processes in it, so a process that exits takes what it
had counted out of the next total; and the counters of a process are taken from those of
whoever had its pid in the older snapshot.  The differences are what was transferred exactly
when that makes no difference (`refreshRates_true_iff`): as long as all processes fit the
snapshots, what those that exited had counted has to be nothing (`total_condition_iff`).
-/

namespace V6User
namespace Tools

open Wrapping

/-! ### Two snapshots -/

/-- `struct proc_snap`, as far as the rates depend on it. -/
structure ProcSnap where
  pid : ℤ
  vmKb : UInt64
  fsBytesRead : UInt64
  fsBytesWritten : UInt64
  netBytesSent : UInt64
  netBytesRecv : UInt64
  bioReads : UInt64
  bioWrites : UInt64

/-- The totals in `struct sys_snap`. -/
structure IoTotals where
  fsBytesRead : UInt64
  fsBytesWritten : UInt64
  netBytesSent : UInt64
  netBytesRecv : UInt64
  bioReads : UInt64
  bioWrites : UInt64

/-- `fill_io_totals`. -/
def fillIoTotals (snap : List ProcSnap) : IoTotals :=
  snap.foldl (fun ss p =>
    { fsBytesRead := ss.fsBytesRead + p.fsBytesRead
      fsBytesWritten := ss.fsBytesWritten + p.fsBytesWritten
      netBytesSent := ss.netBytesSent + p.netBytesSent
      netBytesRecv := ss.netBytesRecv + p.netBytesRecv
      bioReads := ss.bioReads + p.bioReads
      bioWrites := ss.bioWrites + p.bioWrites }) ⟨0, 0, 0, 0, 0, 0⟩

/-- `find_by_pid`. -/
def findByPid (snap : List ProcSnap) (pid : ℤ) : Option ProcSnap :=
  snap.find? fun p => p.pid == pid

/-- What `print_header` passes to `fmt_rate`. -/
def headerRates (cur prev : IoTotals) : List UInt64 :=
  [cur.fsBytesRead - prev.fsBytesRead, cur.fsBytesWritten - prev.fsBytesWritten,
    cur.netBytesSent - prev.netBytesSent, cur.netBytesRecv - prev.netBytesRecv]

/-- What `print_procs` passes to `fmt_rate` for one process. -/
def procRates (prev : List ProcSnap) (cur : ProcSnap) : List UInt64 :=
  match findByPid prev cur.pid with
  | some old => [cur.fsBytesRead - old.fsBytesRead, cur.fsBytesWritten - old.fsBytesWritten,
      cur.netBytesSent - old.netBytesSent, cur.netBytesRecv - old.netBytesRecv]
  | none => [cur.fsBytesRead, cur.fsBytesWritten, cur.netBytesSent, cur.netBytesRecv]

/-- The processes that `print_procs` shows. -/
def shown (showAll : Bool) (p : ProcSnap) : Bool := showAll || p.vmKb != 0

/-- What a refresh passes to `fmt_rate`. -/
def refreshRates (cur prev : List ProcSnap) (showAll : Bool) : List UInt64 :=
  headerRates (fillIoTotals cur) (fillIoTotals prev) ++
    (cur.filter (shown showAll)).flatMap (procRates prev)

/-- `MAX_PROCS`. -/
def maxProcs : ℕ := 128

/-! ### What was transferred -/

/-- A process: which one it is, and what `/proc` says of it. -/
structure Process where
  id : ℕ
  snap : ProcSnap

/-- `scan_procs`: the first processes of `/proc`. -/
def scanProcs (procs : List Process) : List ProcSnap := (procs.take maxProcs).map Process.snap

/-- The counters of bytes. -/
def byteCounters : List (ProcSnap → UInt64) :=
  [ProcSnap.fsBytesRead, ProcSnap.fsBytesWritten, ProcSnap.netBytesSent, ProcSnap.netBytesRecv]

/-- What a counter of a process was before; a process that started since had counted
nothing. -/
def countedBefore (before : List Process) (c : ProcSnap → UInt64) (p : Process) : ℕ :=
  ((before.find? fun q => q.id == p.id).map fun q => (c q.snap).toNat).getD 0

/-- What a process transferred between two points of time. -/
def transferred (before : List Process) (c : ProcSnap → UInt64) (p : Process) : ℕ :=
  (c p.snap).toNat - countedBefore before c p

/-- What the processes in the newer snapshot transferred: all of them together, and each of
those that are shown. -/
def trueRates (after before : List Process) (showAll : Bool) : List ℕ :=
  byteCounters.map (fun c => ((after.take maxProcs).map (transferred before c)).sum) ++
    ((after.take maxProcs).filter fun p => shown showAll p.snap).flatMap fun p =>
      byteCounters.map fun c => transferred before c p

/-- The counters of a process do not decrease. -/
def CountsUp (after before : List Process) : Prop :=
  ∀ p ∈ after, ∀ c ∈ byteCounters, countedBefore before c p ≤ (c p.snap).toNat

instance (after before : List Process) : Decidable (CountsUp after before) :=
  inferInstanceAs (Decidable (∀ p ∈ after, ∀ c ∈ byteCounters, _ ≤ _))

/-! ### The rates as differences of counters -/

theorem fillIoTotals_eq (snap : List ProcSnap) :
    fillIoTotals snap = ⟨total ProcSnap.fsBytesRead snap, total ProcSnap.fsBytesWritten snap,
      total ProcSnap.netBytesSent snap, total ProcSnap.netBytesRecv snap,
      total ProcSnap.bioReads snap, total ProcSnap.bioWrites snap⟩ := by
  -- the fields are summed side by side
  have hfold : ∀ (snap : List ProcSnap) (r w s v i o : UInt64),
      snap.foldl (fun ss p =>
        { fsBytesRead := ss.fsBytesRead + p.fsBytesRead
          fsBytesWritten := ss.fsBytesWritten + p.fsBytesWritten
          netBytesSent := ss.netBytesSent + p.netBytesSent
          netBytesRecv := ss.netBytesRecv + p.netBytesRecv
          bioReads := ss.bioReads + p.bioReads
          bioWrites := ss.bioWrites + p.bioWrites }) (⟨r, w, s, v, i, o⟩ : IoTotals) =
        ⟨snap.foldl (fun x p => x + p.fsBytesRead) r,
          snap.foldl (fun x p => x + p.fsBytesWritten) w,
          snap.foldl (fun x p => x + p.netBytesSent) s,
          snap.foldl (fun x p => x + p.netBytesRecv) v,
          snap.foldl (fun x p => x + p.bioReads) i,
          snap.foldl (fun x p => x + p.bioWrites) o⟩ := by
    intro snap
    induction snap with
    | nil => exact fun _ _ _ _ _ _ => rfl
    | cons p snap ih => exact fun _ _ _ _ _ _ => ih _ _ _ _ _ _
  exact hfold snap 0 0 0 0 0 0

/-- The difference in the totals of a counter. -/
def headerDelta (cur prev : List ProcSnap) (c : ProcSnap → UInt64) : UInt64 :=
  total c cur - total c prev

/-- The counter that the pid had in the older snapshot, or 0. -/
def foundBefore (prev : List ProcSnap) (c : ProcSnap → UInt64) (pid : ℤ) : UInt64 :=
  ((findByPid prev pid).map c).getD 0

theorem headerRates_eq (cur prev : List ProcSnap) :
    headerRates (fillIoTotals cur) (fillIoTotals prev) = byteCounters.map (headerDelta cur prev) := by
  rw [fillIoTotals_eq, fillIoTotals_eq]
  rfl

theorem procRates_eq (prev : List ProcSnap) (cur : ProcSnap) :
    procRates prev cur = byteCounters.map fun c => c cur - foundBefore prev c cur.pid := by
  unfold procRates foundBefore
  rcases findByPid prev cur.pid with _ | old
  · simp [byteCounters]
  · rfl

/-- Lists of as many values for each element are equal when the values are. -/
theorem flatMap_map_eq_iff {α β γ : Type} {f g : α → β → γ} {l : List β} {as : List α} :
    (as.flatMap fun a => l.map (f a)) = (as.flatMap fun a => l.map (g a)) ↔
      ∀ a ∈ as, ∀ b ∈ l, f a b = g a b := by
  induction as with
  | nil => exact ⟨fun _ => nofun, fun _ => rfl⟩
  | cons a as ih =>
    rw [List.flatMap_cons, List.flatMap_cons, List.forall_mem_cons, ← ih, ← List.map_inj_left]
    constructor
    · intro h
      exact List.append_inj h (by rw [List.length_map, List.length_map])
    · rintro ⟨ha, has⟩
      rw [ha, has]

/-- **The total of a counter.** -/
theorem headerDelta_eq_iff {after before : List Process} (hmono : CountsUp after before)
    {c : ProcSnap → UInt64} (hc : c ∈ byteCounters) :
    (headerDelta (scanProcs after) (scanProcs before) c).toNat =
        ((after.take maxProcs).map (transferred before c)).sum ↔
      ((after.take maxProcs).map (transferred before c)).sum < 2 ^ 64 ∧
        ((after.take maxProcs).map (countedBefore before c)).sum ≡
          ((before.take maxProcs).map fun q => (c q.snap).toNat).sum [MOD 2 ^ 64] := by
  have hsum : ((after.take maxProcs).map (transferred before c)).sum +
      ((after.take maxProcs).map (countedBefore before c)).sum =
        ((scanProcs after).map fun p => (c p).toNat).sum := by
    unfold scanProcs
    rw [List.map_map, ← List.sum_map_add]
    refine congrArg List.sum (List.map_congr_left fun p hp => ?_)
    exact Nat.sub_add_cancel (hmono p (List.mem_of_mem_take hp) c hc)
  have hold : ((scanProcs before).map fun p => (c p).toNat).sum =
      ((before.take maxProcs).map fun q => (c q.snap).toNat).sum := by
    unfold scanProcs
    rw [List.map_map]
    rfl
  unfold headerDelta
  rw [toNat_sub_eq_iff]
  refine and_congr_right fun _ => ?_
  have hnew := total_toNat c (scanProcs after)
  have hprev := total_toNat c (scanProcs before)
  rw [← hsum] at hnew
  rw [hold] at hprev
  constructor
  · intro h
    exact Nat.ModEq.add_left_cancel' _ ((hnew.symm.trans h).trans (hprev.add_left _))
  · intro h
    exact hnew.trans ((h.add_left _).trans (hprev.symm.add_left _))

/-- **The counter of one process.** -/
theorem procDelta_eq_iff {after before : List Process} (hmono : CountsUp after before)
    {c : ProcSnap → UInt64} (hc : c ∈ byteCounters) {p : Process} (hp : p ∈ after) (old : UInt64) :
    (c p.snap - old).toNat = transferred before c p ↔ old.toNat = countedBefore before c p := by
  have hle := hmono p hp c hc
  have hlt := (c p.snap).toNat_lt
  have hold := old.toNat_lt
  rw [toNat_sub_eq_iff, transferred, Nat.ModEq]
  omega

/-- **Exactly when the rates are what was transferred.**  The counters of processes do not
decrease; then what `fmt_rate` gets is right if and only if for every counter the total before
is what the processes of the newer snapshot had counted, up to a multiple of `2 ^ 64`, and for
every process that is shown the counter found under its pid is its own. -/
theorem refreshRates_true_iff (after before : List Process) (showAll : Bool)
    (hmono : CountsUp after before) :
    (refreshRates (scanProcs after) (scanProcs before) showAll).map UInt64.toNat =
        trueRates after before showAll ↔
      (∀ c ∈ byteCounters, ((after.take maxProcs).map (transferred before c)).sum < 2 ^ 64 ∧
        ((after.take maxProcs).map (countedBefore before c)).sum ≡
          ((before.take maxProcs).map fun q => (c q.snap).toNat).sum [MOD 2 ^ 64]) ∧
      ∀ p ∈ after.take maxProcs, shown showAll p.snap = true → ∀ c ∈ byteCounters,
        (foundBefore (scanProcs before) c p.snap.pid).toNat = countedBefore before c p := by
  have hshown : (scanProcs after).filter (shown showAll) =
      ((after.take maxProcs).filter fun p => shown showAll p.snap).map Process.snap :=
    List.filter_map
  have hprocs : (((scanProcs after).filter (shown showAll)).flatMap
        (procRates (scanProcs before))).map UInt64.toNat =
      ((after.take maxProcs).filter fun p => shown showAll p.snap).flatMap fun p =>
        byteCounters.map fun c =>
          (c p.snap - foundBefore (scanProcs before) c p.snap.pid).toNat := by
    rw [hshown, List.flatMap_map, List.map_flatMap]
    refine congrArg (List.flatMap · _) (funext fun p => ?_)
    rw [procRates_eq, List.map_map]
    rfl
  have hheader : (headerRates (fillIoTotals (scanProcs after))
        (fillIoTotals (scanProcs before))).map UInt64.toNat =
      byteCounters.map fun c => (headerDelta (scanProcs after) (scanProcs before) c).toNat := by
    rw [headerRates_eq, List.map_map]
    rfl
  have happ : ∀ {a b a' b' : List ℕ}, a.length = a'.length → (a ++ b = a' ++ b' ↔ a = a' ∧ b = b') :=
    fun hlen => ⟨fun h => List.append_inj h hlen, fun h => by rw [h.1, h.2]⟩
  rw [refreshRates, List.map_append, hheader, hprocs, trueRates,
    happ (by rw [List.length_map, List.length_map]), List.map_inj_left, flatMap_map_eq_iff]
  refine and_congr (forall₂_congr fun c hc => headerDelta_eq_iff hmono hc) ?_
  constructor
  · intro h p hp hs c hc
    exact (procDelta_eq_iff hmono hc (List.mem_of_mem_take hp) _).1
      (h p (List.mem_filter.2 ⟨hp, hs⟩) c hc)
  · intro h p hp c hc
    obtain ⟨hp, hs⟩ := List.mem_filter.1 hp
    exact (procDelta_eq_iff hmono hc (List.mem_of_mem_take hp) _).2 (h p hp hs c hc)

/-- A process that transferred 5 bytes between the snapshots. -/
theorem refreshRates_true_small :
    (refreshRates (scanProcs [⟨0, ⟨7, 1, 15, 0, 0, 0, 0, 0⟩⟩])
      (scanProcs [⟨0, ⟨7, 1, 10, 0, 0, 0, 0, 0⟩⟩]) false).map UInt64.toNat =
      trueRates [⟨0, ⟨7, 1, 15, 0, 0, 0, 0, 0⟩⟩] [⟨0, ⟨7, 1, 10, 0, 0, 0, 0, 0⟩⟩] false :=
  (refreshRates_true_iff _ _ false (by decide)).2 ⟨by decide, by decide⟩

/-- A process with 100 bytes exits, and the total wraps around. -/
theorem refreshRates_wraps : ¬∀ after before showAll, CountsUp after before →
    (refreshRates (scanProcs after) (scanProcs before) showAll).map UInt64.toNat =
      trueRates after before showAll := by
  intro hall
  have h := hall [] [⟨0, ⟨7, 1, 100, 0, 0, 0, 0, 0⟩⟩] false nofun
  revert h
  decide

/-! ### What exits -/

/-- The counters of those that had exited by the newer snapshot. -/
def exitedTotal (after before : List Process) (c : ProcSnap → UInt64) : ℕ :=
  ((before.filter fun q => !(after.map Process.id).contains q.id).map fun q => (c q.snap).toNat).sum

/-- A value that one process at most adds. -/
theorem sum_ite_id {after : List Process} (hafter : (after.map Process.id).Nodup) (k x : ℕ) :
    (after.map fun p => if k = p.id then x else 0).sum =
      if (after.map Process.id).contains k then x else 0 := by
  induction after with
  | nil => rfl
  | cons p after ih =>
    obtain ⟨hp, hafter⟩ := List.nodup_cons.1 hafter
    rw [List.map_cons, List.sum_cons, ih hafter, List.map_cons, List.contains_cons]
    by_cases hk : k = p.id
    · subst hk
      rw [if_pos rfl, if_neg (by rwa [List.contains_iff_mem]), beq_self_eq_true, Bool.true_or,
        if_pos rfl]
      exact Nat.add_zero x
    · rw [if_neg hk, beq_false_of_ne hk, Bool.false_or]
      exact Nat.zero_add _

/-- **The total before** is over those that are still there and those that exited. -/
theorem sum_before_eq {after before : List Process} (hafter : (after.map Process.id).Nodup)
    (hbefore : (before.map Process.id).Nodup) (c : ProcSnap → UInt64) :
    (before.map fun q => (c q.snap).toNat).sum =
      (after.map (countedBefore before c)).sum + exitedTotal after before c := by
  induction before with
  | nil =>
    have hzero : after.map (countedBefore [] c) = after.map fun _ => 0 := rfl
    rw [hzero, List.map_const', List.sum_replicate]
    rfl
  | cons q before ih =>
    obtain ⟨hq, hbefore⟩ := List.nodup_cons.1 hbefore
    -- no other entry has the id of the first one
    have hone : ∀ p : Process, countedBefore (q :: before) c p =
        (if q.id = p.id then (c q.snap).toNat else 0) + countedBefore before c p := by
      intro p
      unfold countedBefore
      rw [List.find?_cons]
      by_cases hqp : q.id = p.id
      · have hnone : before.find? (fun r => r.id == p.id) = none :=
          List.find?_eq_none.2 fun r hr hrp =>
            hq (List.mem_map.2 ⟨r, hr, (beq_iff_eq.1 hrp).trans hqp.symm⟩)
        rw [hnone, beq_iff_eq.2 hqp, if_pos hqp]
        rfl
      · rw [beq_false_of_ne hqp, if_neg hqp, Nat.zero_add]
    have hsum : (after.map (countedBefore (q :: before) c)).sum =
        (if (after.map Process.id).contains q.id then (c q.snap).toNat else 0) +
          (after.map (countedBefore before c)).sum := by
      rw [← sum_ite_id hafter, ← List.sum_map_add]
      exact congrArg List.sum (List.map_congr_left fun p _ => hone p)
    rw [List.map_cons, List.sum_cons, ih hbefore, hsum, exitedTotal, exitedTotal, List.filter_cons]
    by_cases hcontains : (after.map Process.id).contains q.id = true
    · rw [hcontains, if_pos rfl, if_neg (by decide)]
      omega
    · rw [Bool.eq_false_iff.2 hcontains, if_neg (by decide), if_pos (by decide), List.map_cons,
        List.sum_cons]
      omega

/-- **The totals go wrong with what exits**, when all processes fit the snapshots. -/
theorem total_condition_iff {after before : List Process} (hafter : (after.map Process.id).Nodup)
    (hbefore : (before.map Process.id).Nodup) (ha : after.length ≤ maxProcs)
    (hb : before.length ≤ maxProcs) (c : ProcSnap → UInt64) :
    ((after.take maxProcs).map (countedBefore before c)).sum ≡
        ((before.take maxProcs).map fun q => (c q.snap).toNat).sum [MOD 2 ^ 64] ↔
      2 ^ 64 ∣ exitedTotal after before c := by
  rw [List.take_of_length_le ha, List.take_of_length_le hb, sum_before_eq hafter hbefore,
    Nat.modEq_iff_dvd' (Nat.le_add_right _ _), Nat.add_sub_cancel_left]

end Tools
end V6User
