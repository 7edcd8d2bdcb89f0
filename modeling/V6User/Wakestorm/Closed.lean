import Mathlib.Data.List.Nodup
import V6User.Wakestorm.Program

/-!
# The words of the wake storm after the stop

`stop_all_threads` and `stop_gui_threads` in `programs/wakestorm/wakestorm.c` set the stop flag
and wake the threads that wait for a command.  A thread looks at the stop flag before it waits,
so it may have seen 0 and not wait yet when it is woken.  Where the word was changed before,
`futex_wait` returns at once; where it was not, the thread waits for ever.

A word is `Closed` from the first call on which `stop_…` touches it.  A thread that has seen the
stop flag 0 knows of its word that it has not seen a later value (`Fresh`), and that it does not
wait any more once the word is closed.  Here stands what a step of each thread keeps of this
(`Keeps` and `MainKeeps`), and that each call of another thread than the main thread keeps it.
-/

namespace V6User
namespace Wakestorm

open Process Threads

/-! ### What the main thread has called -/

/-- The stop flag was set. -/
def Stopped (s : Shared) : Prop := Call.store .stopFlag 1 ∈ s.calls .main

/-- The main thread has called `c` since it set the stop flag. -/
def CalledSinceStop (s : Shared) (c : Call) : Prop :=
  ∃ before since, s.calls .main = before ++ .store .stopFlag 1 :: since ∧ c ∈ since

/-- A call that changes a word or wakes those who wait for it. -/
def touches (w : Word) : Call → Bool
  | .store w' _ | .add w' _ | .futexWake w' _ => w' = w
  | _ => false

/-- The main thread has touched the word since it set the stop flag. -/
def Closed (s : Shared) (w : Word) : Prop := ∃ c, CalledSinceStop s c ∧ touches w c = true

/-- The main thread has woken those who wait for the word since it set the stop flag. -/
def Woken (s : Shared) (w : Word) : Prop := ∃ nr, CalledSinceStop s (.futexWake w nr)

variable {s s' : Shared} {t u : Tid} {c d : Call} {w : Word} {v : ℤ}

theorem CalledSinceStop.stopped (h : CalledSinceStop s c) : Stopped s := by
  obtain ⟨before, since, hcalls, -⟩ := h
  rw [Stopped, hcalls]
  exact List.mem_append_right _ List.mem_cons_self

theorem Closed.stopped (h : Closed s w) : Stopped s := h.elim fun _ h => h.1.stopped

theorem Woken.closed (h : Woken s w) : Closed s w :=
  h.elim fun nr h => ⟨.futexWake w nr, h, decide_eq_true rfl⟩

/-- The main thread has called the same. -/
theorem calledSinceStop_congr (h : s'.calls .main = s.calls .main) :
    CalledSinceStop s' c ↔ CalledSinceStop s c := by
  rw [CalledSinceStop, CalledSinceStop, h]

theorem closed_congr (h : s'.calls .main = s.calls .main) : Closed s' w ↔ Closed s w :=
  exists_congr fun _ => and_congr_left fun _ => calledSinceStop_congr h

theorem woken_congr (h : s'.calls .main = s.calls .main) : Woken s' w ↔ Woken s w :=
  exists_congr fun _ => calledSinceStop_congr h

/-- The main thread has called one more. -/
theorem calledSinceStop_snoc (h : s'.calls .main = s.calls .main ++ [d]) :
    CalledSinceStop s' c ↔ CalledSinceStop s c ∨ Stopped s ∧ c = d := by
  constructor
  · rintro ⟨before, since, hcalls, hc⟩
    rw [h] at hcalls
    rcases List.eq_nil_or_concat since with rfl | ⟨since', e, rfl⟩
    · exact absurd hc List.not_mem_nil
    · rw [List.concat_eq_append, ← List.cons_append, ← List.append_assoc] at hcalls
      obtain ⟨hbefore, hlast⟩ := List.append_inj' hcalls rfl
      obtain rfl := (List.cons.inj hlast).1
      rw [List.concat_eq_append, List.mem_append, List.mem_singleton] at hc
      rcases hc with hc | rfl
      · exact .inl ⟨before, since', hbefore, hc⟩
      · refine .inr ⟨?_, rfl⟩
        rw [Stopped, hbefore]
        exact List.mem_append_right _ List.mem_cons_self
  · rintro (⟨before, since, hcalls, hc⟩ | ⟨hstop, rfl⟩)
    · refine ⟨before, since ++ [d], ?_, List.mem_append_left _ hc⟩
      rw [h, hcalls, List.append_assoc, List.cons_append]
    · obtain ⟨before, since, hcalls⟩ := List.append_of_mem hstop
      refine ⟨before, since ++ [c], ?_, List.mem_append_right _ List.mem_cons_self⟩
      rw [h, hcalls, List.append_assoc, List.cons_append]

theorem closed_snoc (h : s'.calls .main = s.calls .main ++ [d]) :
    Closed s' w ↔ Closed s w ∨ Stopped s ∧ touches w d = true := by
  constructor
  · rintro ⟨c, hc, htouch⟩
    rcases (calledSinceStop_snoc h).1 hc with hc | ⟨hstop, rfl⟩
    · exact .inl ⟨c, hc, htouch⟩
    · exact .inr ⟨hstop, htouch⟩
  · rintro (⟨c, hc, htouch⟩ | ⟨hstop, htouch⟩)
    · exact ⟨c, (calledSinceStop_snoc h).2 (.inl hc), htouch⟩
    · exact ⟨d, (calledSinceStop_snoc h).2 (.inr ⟨hstop, rfl⟩), htouch⟩

theorem woken_snoc (h : s'.calls .main = s.calls .main ++ [d]) :
    Woken s' w ↔ Woken s w ∨ Stopped s ∧ ∃ nr, d = .futexWake w nr := by
  constructor
  · rintro ⟨nr, hc⟩
    rcases (calledSinceStop_snoc h).1 hc with hc | ⟨hstop, hd⟩
    · exact .inl ⟨nr, hc⟩
    · exact .inr ⟨hstop, nr, hd.symm⟩
  · rintro (⟨nr, hc⟩ | ⟨hstop, nr, rfl⟩)
    · exact ⟨nr, (calledSinceStop_snoc h).2 (.inl hc)⟩
    · exact ⟨nr, (calledSinceStop_snoc h).2 (.inr ⟨hstop, rfl⟩)⟩

/-! ### What the threads may rely on -/

/-- The word at which a thread waits for its commands. -/
def waitsOn (o : Options) : Tid → Option Word
  | .main => none
  | .worker id => if id < o.workers ∧ id % 2 = 0 then some (.workerSeq id) else none
  | .leader id => if o.mode = .hd ∧ id < leaderThreads then some .leaderCmd else none
  | .churn id => if o.mode = .hd ∧ id < o.churn then some .anchorCmd else none
  | .reactor id => if o.mode = .guihd ∧ id < guiReactors ∧ id % 2 = 0
    then some (.guiReactorSeq id) else none
  | .producer id => if o.mode = .guihd ∧ id < guiProducerThreads
    then some .guiRoundCmd else none

/-- A word in which threads get commands. -/
def isCommand : Word → Bool
  | .leaderCmd | .anchorCmd | .guiRoundCmd | .workerSeq _ | .guiReactorSeq _ => true
  | _ => false

/-- A word that only the main thread changes. -/
def mainOnly : Word → Bool
  | .startFlag | .stopFlag | .leaderCmd | .anchorCmd | .guiRoundCmd => true
  | _ => false

/-- The value that was stored last. -/
def lastStored (w : Word) (calls : List Call) : ℤ :=
  calls.foldl (fun last c => match c with
    | .store w' v => if w' = w then v else last
    | _ => last) 0

/-- The largest command that a word had before it was closed: in the mode `hd` the round that the
leader of a worker gave it last. -/
def top (o : Options) (s : Shared) (w : Word) : ℤ :=
  match o.mode, w with
  | .hd, .workerSeq id => lastStored (.workerSeq id) (s.calls (.leader (id % leaderThreads)))
  | _, w => s.mem w

/-- A thread that has seen `v` in its word has not seen what the word was closed with. -/
def Fresh (o : Options) (s : Shared) (w : Word) (v : ℤ) : Prop :=
  v ≤ top o s w ∧ (Closed s w → v < s.mem w)

/-- What holds in every state. -/
structure Inv (o : Options) (s : Shared) : Prop where
  nodup : ∀ w, (s.queue w).Nodup
  waits : ∀ w, ∀ t ∈ s.queue w, waitsOn o t = some w
  flag : s.mem .stopFlag ≠ 0 ↔ Stopped s
  open_top : ∀ w, ¬Closed s w → top o s w = s.mem w
  woken : ∀ w, Woken s w → s.queue w = []
  rounds_le : o.mode = .hd → s.mem .leaderCmd ≤ o.rounds ∧
    ∀ id, top o s (.workerSeq id) ≤ o.rounds

/-- What a step of another thread than the main thread keeps. -/
structure Keeps (o : Options) (t : Tid) (s s' : Shared) : Prop where
  inv : Inv o s → Inv o s'
  words : ∀ w, mainOnly w = true → s'.mem w = s.mem w
  top_le : ∀ w, top o s w ≤ top o s' w
  fresh : ∀ w v, Fresh o s w v → Fresh o s' w v
  queue : ∀ w, ∀ u ∈ s'.queue w, u ≠ t → u ∈ s.queue w
  calls : ∀ u, u ≠ t → s'.calls u = s.calls u

/-- What a step of the main thread keeps: a word that it wakes without having changed it is no
longer fresh for those who have seen its value. -/
structure MainKeeps (o : Options) (s s' : Shared) : Prop where
  inv : Inv o s → Inv o s'
  flag : s.mem .stopFlag ≠ 0 → s'.mem .stopFlag ≠ 0
  top_le : ∀ w, isCommand w = true → top o s w ≤ top o s' w
  fresh : ∀ w v, isCommand w = true → Fresh o s w v →
    Fresh o s' w v ∨ v = s.mem w ∧ ¬Closed s w ∧ Stopped s ∧ ∃ nr,
      s'.calls .main = s.calls .main ++ [.futexWake w nr]
  queue : ∀ w, ∀ u ∈ s'.queue w, u ∈ s.queue w
  calls : ∀ u, u ≠ .main → s'.calls u = s.calls u

/-- What a thread relies on while `c` is its next call. -/
structure Relies (o : Options) (t : Tid) (c : Option Call) (s s' : Shared) : Prop where
  inv : Inv o s'
  flag : s.mem .stopFlag ≠ 0 → s'.mem .stopFlag ≠ 0
  top_le : ∀ w, isCommand w = true → top o s w ≤ top o s' w
  fresh : ∀ w v, isCommand w = true → c = some (.atMost w v) ∨ c = some (.futexWait w v) →
    Fresh o s w v → Fresh o s' w v
  queue : ∀ w, t ∈ s'.queue w → t ∈ s.queue w
  calls : s'.calls t = s.calls t

/-- What the main thread relies on. -/
structure MainRelies (o : Options) (s s' : Shared) : Prop where
  inv : Inv o s'
  words : ∀ w, mainOnly w = true → s'.mem w = s.mem w
  calls : s'.calls .main = s.calls .main

/-! ### The calls of the other threads -/

/-- A call that changes neither a word nor a queue. -/
def silent : Call → Bool
  | .store _ _ | .add _ _ | .futexWait _ _ | .futexWake _ _ => false
  | _ => true

variable {o : Options}

theorem isCommand_of_waitsOn (h : waitsOn o t = some w) : isCommand w = true := by
  cases t with
  | main => exact nomatch h
  | _ =>
    dsimp only [waitsOn] at h
    split_ifs at h
    obtain rfl := Option.some.inj h
    rfl

theorem effect_of_silent (hc : silent c = true) {r : Reply c} (h : effect t s c r s') :
    s' = s := by
  cases c with
  | load => exact h.2
  | atMost => exact h.2
  | resume => exact h.2
  | store => exact absurd hc Bool.false_ne_true
  | add => exact absurd hc Bool.false_ne_true
  | futexWait => exact absurd hc Bool.false_ne_true
  | futexWake => exact absurd hc Bool.false_ne_true
  | _ => exact h

theorem calls_of_effect {r : Reply c} (h : effect t s c r s') : s'.calls = s.calls := by
  cases c with
  | load => rw [h.2]
  | atMost => rw [h.2]
  | store => rw [show s' = s.write _ _ from h]; rfl
  | add => rw [h.2]; rfl
  | futexWait w v =>
    change if s.mem w = v then _ ∧ s' = _ else _ ∧ s' = s at h
    split_ifs at h
    · rw [h.2]; rfl
    · rw [h.2]
  | resume => rw [h.2]
  | futexWake =>
    obtain ⟨q, -, -, rfl⟩ := h
    rfl
  | _ => rw [show s' = s from h]

theorem lastStored_snoc_store (calls : List Call) :
    lastStored w (calls ++ [.store w v]) = v := by
  simp [lastStored]

theorem lastStored_snoc (calls : List Call) (hc : ∀ v, c ≠ .store w v) :
    lastStored w (calls ++ [c]) = lastStored w calls := by
  rw [lastStored, List.foldl_append]
  cases c with
  | store w' v' =>
    have hw : w' ≠ w := fun hw => hc v' (hw ▸ rfl)
    exact if_neg hw
  | _ => rfl

theorem calls_called_self : (s.called t c).calls t = s.calls t ++ [c] :=
  Function.update_self ..

theorem calls_called_of_ne (h : u ≠ t) : (s.called t c).calls u = s.calls u :=
  Function.update_of_ne h ..

theorem queue_setQueue_self {q : List Tid} : (s.setQueue w q).queue w = q :=
  Function.update_self ..

theorem queue_setQueue_of_ne {q : List Tid} {w' : Word} (h : w' ≠ w) :
    (s.setQueue w q).queue w' = s.queue w' :=
  Function.update_of_ne h ..

theorem mem_write_self : (s.write w v).mem w = v := Function.update_self ..

theorem mem_write_of_ne {w' : Word} (h : w' ≠ w) : (s.write w v).mem w' = s.mem w' :=
  Function.update_of_ne h ..

/-- The last value stored in a word changes only by a store to the word. -/
theorem top_called (hc : ∀ v, c ≠ .store w v) : top o (s.called t c) w = top o s w := by
  unfold top
  split
  · rename_i id _
    by_cases ht : Tid.leader (id % leaderThreads) = t
    · rw [← ht, calls_called_self, lastStored_snoc _ hc]
    · rw [calls_called_of_ne ht]
  · rfl

theorem Fresh.congr (h : Fresh o s w v) (htop : top o s w ≤ top o s' w)
    (hmem : s.mem w ≤ s'.mem w) (hmain : s'.calls .main = s.calls .main) : Fresh o s' w v :=
  ⟨Int.le_trans h.1 htop,
    fun hclosed => Int.lt_of_lt_of_le (h.2 ((closed_congr hmain).1 hclosed)) hmem⟩

/-- A step that leaves the words as they are, and what the main thread has called. -/
theorem Inv.of_mem_eq (h : Inv o s) (hmem : s'.mem = s.mem)
    (hmain : s'.calls .main = s.calls .main) (htop : ∀ w, top o s' w = top o s w)
    (hnodup : ∀ w, (s'.queue w).Nodup) (hwaits : ∀ w, ∀ t ∈ s'.queue w, waitsOn o t = some w)
    (hwoken : ∀ w, Woken s w → s'.queue w = []) : Inv o s' where
  nodup := hnodup
  waits := hwaits
  flag := by
    rw [hmem, Stopped, hmain]
    exact h.flag
  open_top w hopen := by
    rw [htop, hmem]
    exact h.open_top w fun hclosed => hopen ((closed_congr hmain).2 hclosed)
  woken w hw := hwoken w ((woken_congr hmain).1 hw)
  rounds_le hhd := by
    rw [hmem]
    simp only [htop]
    exact h.rounds_le hhd

/-- A call of another thread that leaves the words as they are and lengthens no queue but by
the thread itself. -/
theorem Keeps.of_mem_eq (ht : t ≠ .main) (hc : ∀ w v, c ≠ .store w v) {s₁ : Shared}
    (hmem : s₁.mem = s.mem) (hcalls : s₁.calls = s.calls)
    (hqueue : Inv o s → (∀ w, (s₁.queue w).Nodup) ∧
      (∀ w, ∀ u ∈ s₁.queue w, waitsOn o u = some w) ∧ ∀ w, Woken s w → s₁.queue w = [])
    (hothers : ∀ w, ∀ u ∈ s₁.queue w, u ≠ t → u ∈ s.queue w) :
    Keeps o t s (s₁.called t c) := by
  have hmain : (s₁.called t c).calls .main = s.calls .main := by
    rw [calls_called_of_ne ht.symm, hcalls]
  have htop : ∀ w, top o (s₁.called t c) w = top o s w := by
    intro w
    rw [top_called (hc w)]
    simp only [top, hmem, hcalls]
  refine ⟨?_, ?_, ?_, ?_, hothers, ?_⟩
  · intro hinv
    obtain ⟨hnodup, hwaits, hwoken⟩ := hqueue hinv
    exact hinv.of_mem_eq hmem hmain htop hnodup hwaits hwoken
  · exact fun w _ => congrFun hmem w
  · exact fun w => Int.le_of_eq (htop w).symm
  · intro w v hv
    exact hv.congr (Int.le_of_eq (htop w).symm) (Int.le_of_eq (congrFun hmem w).symm) hmain
  · intro u hu
    rw [calls_called_of_ne hu, hcalls]

/-- **A call that changes nothing.** -/
theorem keeps_silent (ht : t ≠ .main) (hc : silent c = true) : Keeps o t s (s.called t c) := by
  refine Keeps.of_mem_eq ht ?_ rfl rfl (fun h => ⟨h.nodup, h.waits, h.woken⟩) fun _ _ hu _ => hu
  rintro w v rfl
  exact absurd hc Bool.false_ne_true

/-- **A wake.** -/
theorem keeps_futexWake (ht : t ≠ .main) {nr : ℕ} {q : List Tid} (hq : q.Sublist (s.queue w)) :
    Keeps o t s ((s.setQueue w q).called t (.futexWake w nr)) := by
  have hsub : ∀ w', ((s.setQueue w q).queue w').Sublist (s.queue w') := by
    intro w'
    by_cases hw : w' = w
    · subst hw
      rw [queue_setQueue_self]
      exact hq
    · rw [queue_setQueue_of_ne hw]
  refine Keeps.of_mem_eq (c := .futexWake w nr) ht (fun _ _ => nofun) rfl rfl
    (fun h => ⟨?_, ?_, ?_⟩) ?_
  · exact fun w' => (h.nodup w').sublist (hsub w')
  · exact fun w' u hu => h.waits w' u ((hsub w').mem hu)
  · intro w' hw
    have hnil := hsub w'
    rw [h.woken w' hw] at hnil
    exact List.sublist_nil.1 hnil
  · exact fun w' u hu _ => (hsub w').mem hu

/-- **A wait**, of a thread that knows its word to be fresh. -/
theorem keeps_futexWait (ht : t ≠ .main) (hw : waitsOn o t = some w) (hv : Fresh o s w v)
    (hout : t ∉ s.queue w) (hmem : s.mem w = v) :
    Keeps o t s ((s.setQueue w (s.queue w ++ [t])).called t (.futexWait w v)) := by
  have hopen : ¬Woken s w := by
    intro hwoken
    have := hv.2 hwoken.closed
    omega
  refine Keeps.of_mem_eq (c := .futexWait w v) ht (fun _ _ => nofun) rfl rfl
    (fun h => ⟨?_, ?_, ?_⟩) ?_
  · intro w'
    by_cases hw' : w' = w
    · subst hw'
      rw [queue_setQueue_self]
      refine List.nodup_append.2 ⟨h.nodup w', List.nodup_singleton t, ?_⟩
      rintro a ha b hb rfl
      exact hout (List.mem_singleton.1 hb ▸ ha)
    · rw [queue_setQueue_of_ne hw']
      exact h.nodup w'
  · intro w' u hu
    by_cases hw' : w' = w
    · subst hw'
      rw [queue_setQueue_self, List.mem_append, List.mem_singleton] at hu
      rcases hu with hu | rfl
      · exact h.waits w' u hu
      · exact hw
    · rw [queue_setQueue_of_ne hw'] at hu
      exact h.waits w' u hu
  · intro w' hwoken
    have hw' : w' ≠ w := fun heq => hopen (heq ▸ hwoken)
    rw [queue_setQueue_of_ne hw']
    exact h.woken w' hwoken
  · intro w' u hu hne
    by_cases hw' : w' = w
    · subst hw'
      rw [queue_setQueue_self, List.mem_append, List.mem_singleton] at hu
      exact hu.resolve_right hne
    · rw [queue_setQueue_of_ne hw'] at hu
      exact hu

theorem top_of_plain (h : o.mode = .hd → ∀ id, w ≠ .workerSeq id) : top o s w = s.mem w := by
  unfold top
  split
  · rename_i id hmode
    exact absurd rfl (h hmode id)
  · rfl

theorem top_write_of_ne {w' : Word} (h : w' ≠ w) : top o (s.write w v) w' = top o s w' := by
  unfold top
  split
  · rfl
  · exact mem_write_of_ne h

/-- **A change of a word** to a value that is later than all that were seen before. -/
theorem keeps_write (ht : t ≠ .main) (hw : mainOnly w = false) {x : ℤ}
    (hc : ∀ w' v, c = .store w' v → w' = w) (hlater : top o s w < x)
    (htop : top o ((s.write w x).called t c) w = x)
    (hle : o.mode = .hd → ∀ id, w = .workerSeq id → x ≤ o.rounds) :
    Keeps o t s ((s.write w x).called t c) := by
  have hmain : ((s.write w x).called t c).calls .main = s.calls .main :=
    calls_called_of_ne ht.symm
  have hmem : ∀ {w'}, w' ≠ w → ((s.write w x).called t c).mem w' = s.mem w' :=
    fun h => mem_write_of_ne h
  have hself : ((s.write w x).called t c).mem w = x := mem_write_self
  have htop_ne : ∀ {w'}, w' ≠ w → top o ((s.write w x).called t c) w' = top o s w' := by
    intro w' h
    rw [top_called fun v hv => h (hc w' v hv), top_write_of_ne h]
  have hflag : ∀ {w'}, mainOnly w' = true → w' ≠ w := by
    rintro w' hw' rfl
    exact absurd (hw.symm.trans hw') Bool.false_ne_true
  refine ⟨?_, fun w' hw' => hmem (hflag hw'), ?_, ?_, fun _ _ hu _ => hu,
    fun u hu => calls_called_of_ne hu⟩
  · intro h
    refine ⟨h.nodup, h.waits, ?_, ?_, ?_, ?_⟩
    · rw [hmem (hflag rfl), Stopped, hmain]
      exact h.flag
    · intro w' hopen
      by_cases hw' : w' = w
      · subst hw'
        rw [htop, hself]
      · rw [htop_ne hw', hmem hw']
        exact h.open_top w' fun hclosed => hopen ((closed_congr hmain).2 hclosed)
    · exact fun w' hwoken => h.woken w' ((woken_congr hmain).1 hwoken)
    · intro hhd
      obtain ⟨hcmd, hseq⟩ := h.rounds_le hhd
      refine ⟨?_, fun id => ?_⟩
      · rw [hmem (hflag rfl)]
        exact hcmd
      by_cases hid : Word.workerSeq id = w
      · rw [hid, htop]
        exact hle hhd id hid.symm
      · rw [htop_ne hid]
        exact hseq id
  · intro w'
    by_cases hw' : w' = w
    · subst hw'
      rw [htop]
      exact Int.le_of_lt hlater
    · exact Int.le_of_eq (htop_ne hw').symm
  · intro w' v hv
    by_cases hw' : w' = w
    · subst hw'
      have hlt : v < x := Int.lt_of_le_of_lt hv.1 hlater
      refine ⟨?_, fun _ => ?_⟩
      · rw [htop]
        exact Int.le_of_lt hlt
      · rw [hself]
        exact hlt
    · exact hv.congr (Int.le_of_eq (htop_ne hw').symm) (Int.le_of_eq (hmem hw').symm) hmain

/-- **A count** on a word that no leader stores to. -/
theorem keeps_add (ht : t ≠ .main) (hw : mainOnly w = false)
    (hplain : o.mode = .hd → ∀ id, w ≠ .workerSeq id) :
    Keeps o t s ((s.write w (s.mem w + 1)).called t (.add w 1)) := by
  refine keeps_write ht hw nofun ?_ ?_ fun hhd id hid => absurd hid (hplain hhd id)
  · rw [top_of_plain hplain]
    exact Int.lt_succ _
  · rw [top_of_plain hplain]
    exact mem_write_self

theorem top_store_self {id lead : ℕ} (hhd : o.mode = .hd) (hid : id % leaderThreads = lead)
    {x : ℤ} : top o ((s.write (.workerSeq id) x).called (.leader lead) (.store (.workerSeq id) x))
      (.workerSeq id) = x := by
  unfold top
  rw [hhd]
  dsimp only
  rw [hid, calls_called_self, lastStored_snoc_store]

theorem top_store_of_ne {id id' : ℕ} (h : id' ≠ id) {x : ℤ} :
    top o ((s.write (.workerSeq id) x).called t (.store (.workerSeq id) x)) (.workerSeq id') =
      top o s (.workerSeq id') := by
  have hw : Word.workerSeq id' ≠ .workerSeq id := fun heq => h (Word.workerSeq.inj heq)
  rw [top_called, top_write_of_ne hw]
  rintro v ⟨⟩
  exact h rfl

/-- **The store of a leader** with a later round. -/
theorem keeps_store {id lead : ℕ} (hhd : o.mode = .hd) (hid : id % leaderThreads = lead) {x : ℤ}
    (hlater : top o s (.workerSeq id) < x) (hle : x ≤ o.rounds) :
    Keeps o (.leader lead) s
      ((s.write (.workerSeq id) x).called (.leader lead) (.store (.workerSeq id) x)) := by
  refine keeps_write (t := .leader lead) nofun rfl ?_ hlater (top_store_self hhd hid)
    fun _ _ _ => hle
  rintro w' v ⟨⟩
  rfl

end Wakestorm
end V6User
