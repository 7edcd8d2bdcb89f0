import Mathlib.Data.List.Perm.Subperm
import V6User.Wakestorm.Waiters

/-!
# The main thread of the wake storm

The main thread of `programs/wakestorm/wakestorm.c` gives the commands of its rounds, sets the
stop flag, and wakes each word at which threads wait.  It keeps what `Wakestorm.Closed` says of
the words, and when it has stopped the threads it has woken each word (`safe_mainHd` and
`safe_runGuihd`).
-/

namespace V6User
namespace Wakestorm

open Process Threads

variable {s s' s₁ : Shared} {t u : Tid} {c d : Call} {w : Word} {v x : ℤ} {o : Options}
variable {α β : Type} {P : Shared → Prop} {Q : α → Shared → Prop}

/-! ### The calls of the main thread -/

theorem stopped_snoc (h : s'.calls .main = s.calls .main ++ [d]) :
    Stopped s' ↔ Stopped s ∨ d = .store .stopFlag 1 := by
  rw [Stopped, h, List.mem_append, List.mem_singleton]
  exact or_congr_right eq_comm

/-- **A call of the main thread that changes no word**, and lengthens no queue. -/
theorem MainKeeps.of_mem_eq (hinv : Inv o s) (hmem : s₁.mem = s.mem) (hcalls : s₁.calls = s.calls)
    (hd : ∀ w v, d ≠ .store w v) (hqueue : ∀ w, (s₁.queue w).Sublist (s.queue w))
    (hwoken : ∀ w nr, d = .futexWake w nr → Stopped s → s₁.queue w = [])
    (htouches : ∀ w, touches w d = true → ∃ nr, d = .futexWake w nr) :
    MainKeeps o s (s₁.called .main d) := by
  have hmain : (s₁.called .main d).calls .main = s.calls .main ++ [d] := by
    rw [calls_called_self, hcalls]
  have htop : ∀ w, top o (s₁.called .main d) w = top o s w := by
    intro w
    rw [top_called (hd w)]
    simp only [top, hmem, hcalls]
  refine ⟨fun h => ⟨?_, ?_, ?_, ?_, ?_, ?_⟩, ?_, ?_, ?_, ?_, ?_⟩
  · exact fun w => (h.nodup w).sublist (hqueue w)
  · exact fun w t ht => h.waits w t ((hqueue w).mem ht)
  · rw [stopped_snoc hmain, or_iff_left (hd _ _)]
    change s₁.mem .stopFlag ≠ 0 ↔ _
    rw [hmem]
    exact h.flag
  · intro w hopen
    rw [htop]
    change _ = s₁.mem w
    rw [hmem]
    exact h.open_top w fun hclosed => hopen ((closed_snoc hmain).2 (.inl hclosed))
  · intro w hw
    rcases (woken_snoc hmain).1 hw with hw | ⟨hstop, nr, hw⟩
    · have hnil := hqueue w
      rw [h.woken w hw] at hnil
      exact List.sublist_nil.1 hnil
    · exact hwoken w nr hw hstop
  · intro hhd
    simp only [htop]
    change s₁.mem .leaderCmd ≤ _ ∧ _
    rw [hmem]
    exact h.rounds_le hhd
  · intro hflag
    change s₁.mem .stopFlag ≠ 0
    rw [hmem]
    exact hflag
  · exact fun w _ => Int.le_of_eq (htop w).symm
  · rintro w v - ⟨htop_le, hlt⟩
    have hmem_w : (s₁.called .main d).mem w = s.mem w := congrFun hmem w
    by_cases hclosed : Closed s w
    · refine .inl ⟨Int.le_trans htop_le (Int.le_of_eq (htop w).symm), fun _ => ?_⟩
      rw [hmem_w]
      exact hlt hclosed
    have hopen := hinv.open_top w hclosed
    by_cases hv : v = s.mem w
    · by_cases hclosed' : Closed (s₁.called .main d) w
      · obtain ⟨hstop, htouch⟩ := ((closed_snoc hmain).1 hclosed').resolve_left hclosed
        obtain ⟨nr, rfl⟩ := htouches w htouch
        exact .inr ⟨hv, hclosed, hstop, nr, hmain⟩
      · exact .inl ⟨Int.le_trans htop_le (Int.le_of_eq (htop w).symm), fun h => absurd h hclosed'⟩
    · refine .inl ⟨Int.le_trans htop_le (Int.le_of_eq (htop w).symm), fun _ => ?_⟩
      rw [hmem_w]
      omega
  · exact fun w u hu => (hqueue w).mem hu
  · intro u hu
    rw [calls_called_of_ne hu, hcalls]

theorem mainKeeps_silent (hinv : Inv o s) (hc : silent c = true) :
    MainKeeps o s (s.called .main c) := by
  refine MainKeeps.of_mem_eq hinv rfl rfl ?_ (fun _ => .refl _) ?_ ?_
  · rintro w v rfl
    exact absurd hc Bool.false_ne_true
  · rintro w nr rfl
    exact absurd hc Bool.false_ne_true
  · intro w htouch
    cases c with
    | store => exact absurd hc Bool.false_ne_true
    | add => exact absurd hc Bool.false_ne_true
    | futexWake => exact absurd hc Bool.false_ne_true
    | _ => exact absurd htouch Bool.false_ne_true

/-- The threads that may wait for a word. -/
def waiters (o : Options) : Word → List Tid
  | .leaderCmd => (List.range leaderThreads).map .leader
  | .anchorCmd => (List.range o.churn).map .churn
  | .guiRoundCmd => (List.range guiProducerThreads).map .producer
  | .workerSeq id => [.worker id]
  | .guiReactorSeq id => [.reactor id]
  | _ => []

theorem mem_waiters (h : waitsOn o t = some w) : t ∈ waiters o w := by
  cases t with
  | main => exact nomatch h
  | _ =>
    dsimp only [waitsOn] at h
    split_ifs at h with hid
    obtain rfl := Option.some.inj h
    simp [waiters, hid]

theorem Inv.queue_length_le (h : Inv o s) (w : Word) :
    (s.queue w).length ≤ (waiters o w).length :=
  ((h.nodup w).subperm fun t ht => mem_waiters (h.waits w t ht)).length_le

/-- **A wake by the main thread**, of all who may wait if it has set the stop flag. -/
theorem mainKeeps_futexWake (hinv : Inv o s) {nr : ℕ} {q : List Tid}
    (hq : q.Sublist (s.queue w)) (hlength : q.length = (s.queue w).length - nr)
    (hnr : Stopped s → (waiters o w).length ≤ nr) :
    MainKeeps o s ((s.setQueue w q).called .main (.futexWake w nr)) := by
  refine MainKeeps.of_mem_eq hinv rfl rfl (fun _ _ => nofun) ?_ ?_ ?_
  · intro w'
    by_cases hw : w' = w
    · subst hw
      rw [queue_setQueue_self]
      exact hq
    · rw [queue_setQueue_of_ne hw]
  · rintro w' nr' ⟨⟩ hstop
    rw [queue_setQueue_self]
    have hqueue := hinv.queue_length_le w
    have := hnr hstop
    exact List.eq_nil_of_length_eq_zero (by omega)
  · intro w' htouch
    obtain rfl : w = w' := of_decide_eq_true htouch
    exact ⟨nr, rfl⟩

/-- The main thread does not store for the leaders. -/
theorem top_main_worker (hhd : o.mode = .hd) (id : ℕ) :
    top o ((s.write w x).called .main d) (.workerSeq id) = top o s (.workerSeq id) := by
  unfold top
  rw [hhd]
  rfl

theorem top_main_of_ne {w' : Word} (h : w' ≠ w) :
    top o ((s.write w x).called .main d) w' = top o s w' := by
  unfold top
  split
  · rfl
  · exact mem_write_of_ne h

theorem top_main_self (hplain : o.mode = .hd → ∀ id, w ≠ .workerSeq id) :
    top o ((s.write w x).called .main d) w = x := by
  rw [top_of_plain hplain]
  exact mem_write_self

theorem le_top_main (hle : top o s w ≤ x) : top o s w ≤ top o ((s.write w x).called .main d) w := by
  by_cases hplain : o.mode = .hd → ∀ id, w ≠ .workerSeq id
  · rw [top_main_self hplain]
    exact hle
  · simp only [not_forall, not_not] at hplain
    obtain ⟨hhd, id, rfl⟩ := hplain
    exact Int.le_of_eq (top_main_worker hhd id).symm

/-- **A change of a word by the main thread.**  A command word gets a later value, and after the
stop one that is later than all commands. -/
theorem mainKeeps_write (htouches : ∀ w', touches w' d = decide (w = w'))
    (hd : ∀ w' nr, d ≠ .futexWake w' nr) (hflag : w = .stopFlag → x ≠ 0)
    (hstop : w = .stopFlag ↔ d = .store .stopFlag 1)
    (hlater : isCommand w = true → top o s w ≤ x ∧ (Stopped s → top o s w < x))
    (hworker : o.mode = .hd → (∃ id, w = .workerSeq id) → Stopped s)
    (hle : w = .leaderCmd → x ≤ o.rounds) :
    MainKeeps o s ((s.write w x).called .main d) := by
  have hmain : ((s.write w x).called .main d).calls .main = s.calls .main ++ [d] :=
    calls_called_self
  have hmem : ∀ {w'}, w' ≠ w → ((s.write w x).called .main d).mem w' = s.mem w' :=
    fun h => mem_write_of_ne h
  have hself : ((s.write w x).called .main d).mem w = x := mem_write_self
  have hclosed_self : Stopped s → Closed ((s.write w x).called .main d) w := by
    intro h
    refine (closed_snoc hmain).2 (.inr ⟨h, ?_⟩)
    rw [htouches]
    exact decide_eq_true rfl
  have hclosed_ne : ∀ {w'}, w' ≠ w → Closed ((s.write w x).called .main d) w' → Closed s w' := by
    intro w' hne hclosed
    refine ((closed_snoc hmain).1 hclosed).resolve_right fun h => hne ?_
    rw [htouches] at h
    exact (of_decide_eq_true h.2).symm
  refine ⟨fun h => ⟨h.nodup, h.waits, ?_, ?_, ?_, ?_⟩, ?_, ?_, ?_, fun _ _ hu => hu, ?_⟩
  · rw [stopped_snoc hmain, ← hstop]
    by_cases hw : w = .stopFlag
    · subst hw
      rw [hself]
      exact ⟨fun _ => .inr rfl, fun _ => hflag rfl⟩
    · rw [hmem (Ne.symm hw), or_iff_left hw]
      exact h.flag
  · intro w' hopen
    by_cases hw' : w' = w
    · subst hw'
      have hplain : o.mode = .hd → ∀ id, w' ≠ .workerSeq id :=
        fun hhd id hid => hopen (hclosed_self (hworker hhd ⟨id, hid⟩))
      rw [top_main_self hplain, hself]
    · rw [top_main_of_ne hw', hmem hw']
      exact h.open_top w' fun hclosed => hopen ((closed_snoc hmain).2 (.inl hclosed))
  · intro w' hw'
    rcases (woken_snoc hmain).1 hw' with hw' | ⟨-, nr, hwake⟩
    · exact h.woken w' hw'
    · exact absurd hwake (hd w' nr)
  · intro hhd
    obtain ⟨hcmd, hseq⟩ := h.rounds_le hhd
    refine ⟨?_, fun id => ?_⟩
    · by_cases hw : w = .leaderCmd
      · subst hw
        rw [hself]
        exact hle rfl
      · rw [hmem (Ne.symm hw)]
        exact hcmd
    · rw [top_main_worker hhd]
      exact hseq id
  · intro hne
    by_cases hw : w = .stopFlag
    · subst hw
      rw [hself]
      exact hflag rfl
    · rw [hmem (Ne.symm hw)]
      exact hne
  · intro w' hw'
    by_cases heq : w' = w
    · subst heq
      exact le_top_main (hlater hw').1
    · exact Int.le_of_eq (top_main_of_ne heq).symm
  · rintro w' v hw' ⟨hv, hlt⟩
    refine .inl ?_
    by_cases heq : w' = w
    · subst heq
      obtain ⟨hle, hbelow⟩ := hlater hw'
      refine ⟨Int.le_trans hv (le_top_main hle), fun hclosed => ?_⟩
      rw [hself]
      have hstopped : Stopped s := by
        rcases (closed_snoc hmain).1 hclosed with h | h
        · exact h.stopped
        · exact h.1
      exact Int.lt_of_le_of_lt hv (hbelow hstopped)
    · refine ⟨Int.le_trans hv (Int.le_of_eq (top_main_of_ne heq).symm), fun hclosed => ?_⟩
      rw [hmem heq]
      exact hlt (hclosed_ne heq hclosed)
  · exact fun u hu => calls_called_of_ne hu

/-! ### What the main thread knows -/

/-- The specification of the main thread. -/
def mainSpec (o : Options) {α : Type} (Q : α → Shared → Prop) : Spec Call Unit α Shared :=
  ⟨fun _ => MainRelies o, MainKeeps o, Q, fun _ _ => True⟩

/-- What the main thread knows, that the others do not change, nor its calls that change
nothing. -/
structure Steady (o : Options) (P : Shared → Prop) : Prop where
  inv : ∀ s, P s → Inv o s
  relies : ∀ s s', P s → MainRelies o s s' → P s'
  silent : ∀ s c, P s → silent c = true → Inv o (s.called .main c) → P (s.called .main c)

/-- A word that holds the round. -/
def holdsRound : Word → Bool
  | .leaderCmd | .anchorCmd | .guiRoundCmd => true
  | _ => false

/-- The stop flag is not set, and no round after `k` was begun. -/
structure Before (o : Options) (k : ℤ) (s : Shared) : Prop where
  inv : Inv o s
  running : ¬Stopped s
  round_le : ∀ w, holdsRound w = true → s.mem w ≤ k

/-- The stop flag is set, and the words of `done` were woken. -/
structure After (o : Options) (done : Word → Prop) (s : Shared) : Prop where
  inv : Inv o s
  stopped : Stopped s
  woken : ∀ w, done w → Woken s w

theorem ne_stop_of_silent (hc : silent c = true) (v : ℤ) : c ≠ .store w v := by
  rintro rfl
  exact absurd hc Bool.false_ne_true

theorem steady_before (k : ℤ) : Steady o (Before o k) where
  inv s h := h.inv
  relies s s' h hrely := by
    refine ⟨hrely.inv, ?_, fun w hw => ?_⟩
    · rw [Stopped, hrely.calls]
      exact h.running
    · have hmain : mainOnly w = true := by
        cases w with
        | leaderCmd => rfl
        | anchorCmd => rfl
        | guiRoundCmd => rfl
        | _ => exact absurd hw Bool.false_ne_true
      rw [hrely.words w hmain]
      exact h.round_le w hw
  silent s c h hc hinv := by
    refine ⟨hinv, fun hstop => h.running ?_, h.round_le⟩
    exact ((stopped_snoc calls_called_self).1 hstop).resolve_right (ne_stop_of_silent hc 1)

theorem After.snoc {done : Word → Prop} (h : After o done s) (hinv : Inv o s')
    (hcalls : s'.calls .main = s.calls .main ++ [d]) : After o done s' :=
  ⟨hinv, (stopped_snoc hcalls).2 (.inl h.stopped),
    fun w hw => (woken_snoc hcalls).2 (.inl (h.woken w hw))⟩

theorem steady_after (done : Word → Prop) : Steady o (After o done) where
  inv s h := h.inv
  relies s s' h hrely := by
    refine ⟨hrely.inv, ?_, fun w hw => (woken_congr hrely.calls).2 (h.woken w hw)⟩
    rw [Stopped, hrely.calls]
    exact h.stopped
  silent s c h hc hinv := h.snoc hinv calls_called_self

/-- **A call of the main thread that changes nothing.** -/
theorem safe_main_silent (hP : Steady o P) (c : Call) (hc : silent c = true)
    {f : Reply c → Prog α} (hs : P s)
    (h : ∀ r s, P s → Safe exec .main (mainSpec o Q) (f r) s) :
    Safe exec .main (mainSpec o Q) (call c >>= f) s := by
  refine safe_call_bind c P hs (fun s s' hs hrely => hP.relies s s' hs hrely) ?_
  rintro s r s' hs ⟨s₁, heffect, rfl⟩
  obtain rfl := effect_of_silent hc heffect
  have hkeeps := mainKeeps_silent (hP.inv s₁ hs) hc
  exact ⟨hkeeps, h r _ (hP.silent s₁ c hs hc (hkeeps.inv (hP.inv s₁ hs)))⟩

/-- **A wait of the main thread**, which sleeps. -/
theorem safe_waitUntilAtLeast (hP : Steady o P) (w : Word) (target : ℤ) {fuel : ℕ} (hs : P s) :
    Safe exec .main (mainSpec o fun _ s => P s) (waitUntilAtLeast w target fuel) s := by
  induction fuel generalizing s with
  | zero => exact trivial
  | succ fuel ih =>
    refine safe_main_silent hP (.load w) rfl hs fun value s hs => ?_
    split
    · refine safe_main_silent hP .timeUp rfl hs fun up s hs => ?_
      cases up with
      | true => exact hs
      | false => exact safe_main_silent hP .pause rfl hs fun _ s hs => ih hs
    · exact hs

/-- **A store of the main thread before the stop.**  The words of the rounds get later rounds. -/
theorem safe_store_before {k k' : ℤ} (hk : k ≤ k') {f : Unit → Prog α} (hw : w ≠ .stopFlag)
    (hround : isCommand w = true → holdsRound w = true ∧ k ≤ x ∧ x ≤ k')
    (hle : w = .leaderCmd → x ≤ o.rounds) (hs : Before o k s)
    (h : ∀ s, Before o k' s → Safe exec .main (mainSpec o Q) (f ()) s) :
    Safe exec .main (mainSpec o Q) (store w x >>= f) s := by
  refine safe_call_bind (Call.store w x) (Before o k) hs
    (fun s s' hs hrely => (steady_before k).relies s s' hs hrely) ?_
  rintro s r s' hs ⟨s₁, rfl, rfl⟩
  have hplain : ∀ id, w ≠ .workerSeq id := by
    rintro id rfl
    exact absurd (hround rfl).1 Bool.false_ne_true
  have hkeeps : MainKeeps o s ((s.write w x).called .main (.store w x)) := by
    refine mainKeeps_write (fun _ => rfl) (fun _ _ => nofun) (fun h => absurd h hw) ?_ ?_ ?_ hle
    · exact ⟨fun h => absurd h hw, fun h => absurd (Call.store.inj h).1 hw⟩
    · intro hcommand
      obtain ⟨hholds, hkx, -⟩ := hround hcommand
      rw [top_of_plain fun _ => hplain]
      exact ⟨Int.le_trans (hs.round_le w hholds) hkx, fun hstop => absurd hstop hs.running⟩
    · rintro - ⟨id, hid⟩
      exact absurd hid (hplain id)
  refine ⟨hkeeps, h _ ⟨hkeeps.inv hs.inv, fun hstop => ?_, fun w' hw' => ?_⟩⟩
  · rcases (stopped_snoc calls_called_self).1 hstop with hstop | hstop
    · exact hs.running hstop
    · exact hw (Call.store.inj hstop).1
  · change (s.write w x).mem w' ≤ k'
    by_cases heq : w' = w
    · subst heq
      rw [mem_write_self]
      have hcommand : isCommand w' = true := by
        cases w' with
        | leaderCmd => rfl
        | anchorCmd => rfl
        | guiRoundCmd => rfl
        | _ => exact absurd hw' Bool.false_ne_true
      exact (hround hcommand).2.2
    · rw [mem_write_of_ne heq]
      exact Int.le_trans (hs.round_le w' hw') hk

/-- **A wake of the main thread before the stop.** -/
theorem safe_wake_before {k : ℤ} {nr : ℕ} {f : Unit → Prog α} (hs : Before o k s)
    (h : ∀ s, Before o k s → Safe exec .main (mainSpec o Q) (f ()) s) :
    Safe exec .main (mainSpec o Q) (futexWake w nr >>= f) s := by
  refine safe_call_bind (Call.futexWake w nr) (Before o k) hs
    (fun s s' hs hrely => (steady_before k).relies s s' hs hrely) ?_
  rintro s r s' hs ⟨s₁, ⟨q, hq, hlength, rfl⟩, rfl⟩
  have hkeeps : MainKeeps o s ((s.setQueue w q).called .main (.futexWake w nr)) :=
    mainKeeps_futexWake hs.inv hq hlength fun hstop => absurd hstop hs.running
  refine ⟨hkeeps, h _ ⟨hkeeps.inv hs.inv, fun hstop => hs.running ?_, hs.round_le⟩⟩
  exact ((stopped_snoc calls_called_self).1 hstop).resolve_right nofun

/-- **The rounds of `main`**, of which `round` is the next. -/
theorem safe_hdRounds {fuel n round : ℕ} (hn : round + n = o.rounds + 1)
    (hs : Before o ((round : ℤ) - 1) s) :
    Safe exec .main (mainSpec o fun _ s => ∃ k, Before o k s) (hdRounds o fuel n round) s := by
  induction n generalizing s round with
  | zero => exact ⟨_, hs⟩
  | succ n ih =>
    have hle : (round : ℤ) ≤ o.rounds := by omega
    have hk : (round : ℤ) - 1 ≤ round := by omega
    have hround := steady_before (o := o) (round : ℤ)
    refine safe_main_silent (steady_before _) (.load .quietCount) rfl hs fun quietBase s hs => ?_
    refine safe_store_before (Int.le_refl _) nofun nofun nofun hs fun s hs => ?_
    refine safe_store_before hk nofun (fun _ => ⟨rfl, hk, Int.le_refl _⟩) nofun hs fun s hs => ?_
    refine safe_wake_before hs fun s hs => ?_
    refine safe_main_silent hround .pause rfl hs fun _ s hs => ?_
    refine safe_store_before (Int.le_refl _) nofun
      (fun _ => ⟨rfl, Int.le_refl _, Int.le_refl _⟩) (fun _ => hle) hs fun s hs => ?_
    refine safe_wake_before hs fun s hs => ?_
    refine safe_bind.2 ((safe_waitUntilAtLeast hround _ _ hs).mono fun b s hs => ?_)
    cases b with
    | false => exact ⟨_, hs⟩
    | true =>
      refine safe_bind.2 ((safe_waitUntilAtLeast hround _ _ hs).mono fun b s hs => ?_)
      cases b with
      | false => exact ⟨_, hs⟩
      | true =>
        refine safe_main_silent hround (.assign .completedRounds round) rfl hs fun _ s hs => ?_
        refine safe_main_silent hround .pause rfl hs fun _ s hs => ih (by omega) ?_
        rw [Int.natCast_add, Int.natCast_one, Int.add_sub_cancel]
        exact hs

/-- **The rounds of `run_guihd`.** -/
theorem safe_guiRounds {fuel n round : ℕ} (hs : Before o ((round : ℤ) - 1) s) :
    Safe exec .main (mainSpec o fun _ s => ∃ k, Before o k s) (guiRounds fuel n round) s := by
  induction n generalizing s round with
  | zero => exact ⟨_, hs⟩
  | succ n ih =>
    have hk : (round : ℤ) - 1 ≤ round := by omega
    have hround := steady_before (o := o) (round : ℤ)
    refine safe_store_before (Int.le_refl _) nofun nofun nofun hs fun s hs => ?_
    refine safe_store_before hk nofun (fun _ => ⟨rfl, hk, Int.le_refl _⟩) nofun hs fun s hs => ?_
    refine safe_wake_before hs fun s hs => ?_
    refine safe_bind.2 ((safe_waitUntilAtLeast hround _ _ hs).mono fun b s hs => ?_)
    cases b with
    | false => exact ⟨_, hs⟩
    | true =>
      refine safe_main_silent hround (.assign .completedRounds round) rfl hs fun _ s hs => ?_
      refine safe_main_silent hround .pause rfl hs fun _ s hs => ih ?_
      rw [Int.natCast_add, Int.natCast_one, Int.add_sub_cancel]
      exact hs

/-! ### The stop -/

theorem After.mono {done done' : Word → Prop} (h : After o done s)
    (hdone : ∀ w, done' w → done w) : After o done' s :=
  ⟨h.inv, h.stopped, fun w hw => h.woken w (hdone w hw)⟩

/-- **The stop flag is set.** -/
theorem safe_setStop {k : ℤ} {f : Unit → Prog α} (hs : Before o k s)
    (h : ∀ s, After o (fun _ => False) s → Safe exec .main (mainSpec o Q) (f ()) s) :
    Safe exec .main (mainSpec o Q) (store .stopFlag 1 >>= f) s := by
  refine safe_call_bind (Call.store .stopFlag 1) (Before o k) hs
    (fun s s' hs hrely => (steady_before k).relies s s' hs hrely) ?_
  rintro s r s' hs ⟨s₁, rfl, rfl⟩
  have hkeeps : MainKeeps o s ((s.write .stopFlag 1).called .main (.store .stopFlag 1)) :=
    mainKeeps_write (fun _ => rfl) (fun _ _ => nofun) (fun _ => by decide) (iff_of_true rfl rfl)
      nofun (fun _ h => h.elim fun _ => nofun) nofun
  refine ⟨hkeeps, h _ ⟨hkeeps.inv hs.inv, ?_, fun w hw => hw.elim⟩⟩
  exact (stopped_snoc calls_called_self).2 (.inr rfl)

/-- **A wake of all who wait for a word.** -/
theorem safe_wake_after {done : Word → Prop} {nr : ℕ} {f : Unit → Prog α}
    (hnr : (waiters o w).length ≤ nr) (hs : After o done s)
    (h : ∀ s, After o (fun w' => done w' ∨ w' = w) s →
      Safe exec .main (mainSpec o Q) (f ()) s) :
    Safe exec .main (mainSpec o Q) (futexWake w nr >>= f) s := by
  refine safe_call_bind (Call.futexWake w nr) (After o done) hs
    (fun s s' hs hrely => (steady_after done).relies s s' hs hrely) ?_
  rintro s r s' hs ⟨s₁, ⟨q, hq, hlength, rfl⟩, rfl⟩
  have hkeeps : MainKeeps o s ((s.setQueue w q).called .main (.futexWake w nr)) :=
    mainKeeps_futexWake hs.inv hq hlength fun _ => hnr
  have hcalls : ((s.setQueue w q).called .main (.futexWake w nr)).calls .main =
      s.calls .main ++ [.futexWake w nr] := calls_called_self
  have hafter := hs.snoc (hkeeps.inv hs.inv) hcalls
  refine ⟨hkeeps, h _ ⟨hafter.inv, hafter.stopped, fun w' hw' => ?_⟩⟩
  rcases hw' with hw' | rfl
  · exact hafter.woken w' hw'
  · exact (woken_snoc hcalls).2 (.inr ⟨hs.stopped, nr, rfl⟩)

/-- **A change of a word after the stop**, to a value that is later than all commands. -/
theorem After.write {done : Word → Prop} (hs : After o done s)
    (htouches : ∀ w', touches w' d = decide (w = w')) (hd : ∀ w' nr, d ≠ .futexWake w' nr)
    (hw : w ≠ .stopFlag) (hstop : d ≠ .store .stopFlag 1) (hcmd : w ≠ .leaderCmd)
    (hlater : top o s w < x) : MainKeeps o s ((s.write w x).called .main d) ∧
      After o done ((s.write w x).called .main d) := by
  have hkeeps : MainKeeps o s ((s.write w x).called .main d) :=
    mainKeeps_write htouches hd (fun h => absurd h hw) (iff_of_false hw hstop)
      (fun _ => ⟨Int.le_of_lt hlater, fun _ => hlater⟩) (fun _ _ => hs.stopped)
      fun h => absurd h hcmd
  exact ⟨hkeeps, hs.snoc (hkeeps.inv hs.inv) calls_called_self⟩

/-- **A loop that wakes the threads with an even number**, each at its word. -/
theorem safe_closeAll {ids : List ℕ} (word : ℕ → Word) {body : ℕ → Prog Unit}
    {done : Word → Prop}
    (hbody : ∀ i done s, After o done s → Safe exec .main
      (mainSpec o fun _ s => After o (fun w => done w ∨ i % 2 = 0 ∧ w = word i) s) (body i) s)
    (hs : After o done s) :
    Safe exec .main
      (mainSpec o fun _ s => After o (fun w => done w ∨ ∃ i ∈ ids, i % 2 = 0 ∧ w = word i) s)
      (each ids body) s := by
  have hstart : After o (fun w => done w ∨ ∃ i ∈ ids, i ∉ ids ∧ i % 2 = 0 ∧ w = word i) s := by
    refine hs.mono ?_
    rintro w (hw | ⟨i, hi, hout, -⟩)
    · exact hw
    · exact absurd hi hout
  have hstep : ∀ i rest s, i :: rest <:+ ids →
      After o (fun w => done w ∨ ∃ j ∈ ids, j ∉ i :: rest ∧ j % 2 = 0 ∧ w = word j) s →
      Safe exec .main (mainSpec o fun _ s =>
        After o (fun w => done w ∨ ∃ j ∈ ids, j ∉ rest ∧ j % 2 = 0 ∧ w = word j) s)
        (body i) s := by
    intro i rest s _ hs
    refine (hbody i _ s hs).mono fun _ s hs => hs.mono ?_
    rintro w (hw | ⟨j, hj, hout, heven, rfl⟩)
    · exact .inl (.inl hw)
    · by_cases hji : j = i
      · subst hji
        exact .inr ⟨heven, rfl⟩
      · refine .inl (.inr ⟨j, hj, fun hmem => ?_, heven, rfl⟩)
        exact (List.mem_cons.1 hmem).elim hji hout
  refine (safe_each (S := mainSpec o fun _ _ => True) (I := fun rest s =>
    After o (fun w => done w ∨ ∃ j ∈ ids, j ∉ rest ∧ j % 2 = 0 ∧ w = word j) s) hstep hstart).mono
    fun _ s hs => hs.mono ?_
  rintro w (hw | ⟨i, hi, heven, rfl⟩)
  · exact .inl hw
  · exact .inr ⟨i, hi, List.not_mem_nil, heven, rfl⟩

/-- **A count and a wake**, of the one thread that waits for the word. -/
theorem safe_close_add {done : Word → Prop} (hgui : o.mode = .guihd) {i : ℕ} {word : ℕ → Word}
    (hword : word i ≠ .stopFlag ∧ word i ≠ .leaderCmd)
    (hwaiters : (waiters o (word i)).length ≤ 1) (hs : After o done s) :
    Safe exec .main
      (mainSpec o fun _ s => After o (fun w => done w ∨ i % 2 = 0 ∧ w = word i) s)
      (if i % 2 = 1 then writePipe i
        else do
          let _ ← add (word i) 1
          futexWake (word i) 1) s := by
  split_ifs with hodd
  · refine safe_main_silent (f := .done) (steady_after done) (.writePipe i) rfl hs
      fun _ s hs => hs.mono ?_
    rintro w (hw | ⟨heven, -⟩)
    · exact hw
    · exact absurd (heven.symm.trans hodd) (by decide)
  · refine safe_call_bind (Call.add (word i) 1) (After o done) hs
      (fun s s' hs hrely => (steady_after done).relies s s' hs hrely) ?_
    rintro s r s' hs ⟨s₁, ⟨-, rfl⟩, rfl⟩
    have hlater : top o s (word i) < s.mem (word i) + 1 := by
      rw [top_of_plain fun hhd => nomatch hgui.symm.trans hhd]
      exact Int.lt_succ _
    obtain ⟨hkeeps, hafter⟩ := hs.write (d := .add (word i) 1) (fun _ => rfl)
      (fun _ _ => nofun) hword.1 nofun hword.2 hlater
    refine ⟨hkeeps, safe_wake_after (f := .done) hwaiters hafter fun s hs => hs.mono ?_⟩
    rintro w (hw | ⟨-, rfl⟩)
    · exact .inl hw
    · exact .inr rfl

/-- **A store and a wake**, of the worker that waits for the word. -/
theorem safe_close_store {done : Word → Prop} (hhd : o.mode = .hd) {i : ℕ} (hs : After o done s) :
    Safe exec .main
      (mainSpec o fun _ s => After o (fun w => done w ∨ i % 2 = 0 ∧ w = .workerSeq i) s)
      (if i % 2 = 1 then writePipe i
        else do
          store (.workerSeq i) (o.rounds + 1)
          futexWake (.workerSeq i) 1) s := by
  split_ifs with hodd
  · refine safe_main_silent (f := .done) (steady_after done) (.writePipe i) rfl hs
      fun _ s hs => hs.mono ?_
    rintro w (hw | ⟨heven, -⟩)
    · exact hw
    · exact absurd (heven.symm.trans hodd) (by decide)
  · refine safe_call_bind (Call.store (.workerSeq i) (o.rounds + 1)) (After o done) hs
      (fun s s' hs hrely => (steady_after done).relies s s' hs hrely) ?_
    rintro s r s' hs ⟨s₁, rfl, rfl⟩
    have hlater : top o s (.workerSeq i) < o.rounds + 1 :=
      Int.lt_add_one_of_le ((hs.inv.rounds_le hhd).2 i)
    obtain ⟨hkeeps, hafter⟩ := hs.write (d := .store (.workerSeq i) (o.rounds + 1)) (fun _ => rfl)
      (fun _ _ => nofun) nofun nofun nofun hlater
    refine ⟨hkeeps, safe_wake_after (f := .done) (Nat.le_refl 1) hafter fun s hs => hs.mono ?_⟩
    rintro w (hw | ⟨-, rfl⟩)
    · exact .inl hw
    · exact .inr rfl

/-- Each word at which a thread waits was woken. -/
def AllWoken (o : Options) (s : Shared) : Prop := ∀ t w, waitsOn o t = some w → Woken s w

/-- **`stop_all_threads` wakes each word** at which a thread waits. -/
theorem safe_stopAllThreads (hhd : o.mode = .hd) {k : ℤ} (hs : Before o k s) :
    Safe exec .main (mainSpec o fun _ s => AllWoken o s) (stopAllThreads o) s := by
  refine safe_setStop hs fun s hs => ?_
  refine safe_wake_after (by simp [waiters]) hs fun s hs => ?_
  refine safe_wake_after (by simp [waiters]) hs fun s hs => ?_
  refine safe_wake_after (Nat.zero_le _) hs fun s hs => ?_
  refine (safe_closeAll .workerSeq (fun i done s hs => safe_close_store hhd hs) hs).mono
    fun _ s hs => ?_
  intro t w ht
  refine hs.woken w ?_
  cases t with
  | main => exact nomatch ht
  | worker id =>
    dsimp only [waitsOn] at ht
    split_ifs at ht with hid
    exact .inr ⟨id, List.mem_range.2 hid.1, hid.2, (Option.some.inj ht).symm⟩
  | leader id =>
    dsimp only [waitsOn] at ht
    split_ifs at ht with hid
    exact .inl (.inl (.inl (.inr (Option.some.inj ht).symm)))
  | churn id =>
    dsimp only [waitsOn] at ht
    split_ifs at ht with hid
    exact .inl (.inl (.inr (Option.some.inj ht).symm))
  | reactor id =>
    dsimp only [waitsOn] at ht
    split_ifs at ht with hid
    exact nomatch hhd.symm.trans hid.1
  | producer id =>
    dsimp only [waitsOn] at ht
    split_ifs at ht with hid
    exact nomatch hhd.symm.trans hid.1

/-- **`stop_gui_threads` wakes each word** at which a thread waits. -/
theorem safe_stopGuiThreads (hgui : o.mode = .guihd) {k : ℤ} (hs : Before o k s) :
    Safe exec .main (mainSpec o fun _ s => AllWoken o s) (stopGuiThreads o) s := by
  refine safe_setStop hs fun s hs => ?_
  refine safe_wake_after (by simp [waiters]) hs fun s hs => ?_
  refine safe_wake_after (Nat.zero_le _) hs fun s hs => ?_
  refine safe_bind.2 ((safe_closeAll .guiReactorSeq (fun i done s hs =>
    safe_close_add hgui ⟨nofun, nofun⟩ (Nat.le_refl 1) hs) hs).mono fun _ s hs => ?_)
  refine (safe_closeAll .workerSeq (fun i done s hs =>
    safe_close_add hgui ⟨nofun, nofun⟩ (Nat.le_refl 1) hs) hs).mono fun _ s hs => ?_
  intro t w ht
  refine hs.woken w ?_
  cases t with
  | main => exact nomatch ht
  | worker id =>
    dsimp only [waitsOn] at ht
    split_ifs at ht with hid
    exact .inr ⟨id, List.mem_range.2 hid.1, hid.2, (Option.some.inj ht).symm⟩
  | leader id =>
    dsimp only [waitsOn] at ht
    split_ifs at ht with hid
    exact nomatch hgui.symm.trans hid.1
  | churn id =>
    dsimp only [waitsOn] at ht
    split_ifs at ht with hid
    exact nomatch hgui.symm.trans hid.1
  | reactor id =>
    dsimp only [waitsOn] at ht
    split_ifs at ht with hid
    obtain ⟨-, hlt, heven⟩ := hid
    exact .inl (.inr ⟨id, List.mem_range.2 hlt, heven, (Option.some.inj ht).symm⟩)
  | producer id =>
    dsimp only [waitsOn] at ht
    split_ifs at ht with hid
    exact .inl (.inl (.inl (.inr (Option.some.inj ht).symm)))

/-! ### The main thread -/

theorem safe_startRounds {expected : ℤ} {fuel : ℕ} {rounds : Prog Unit} (hs : Before o 0 s)
    (hrounds : ∀ s, Before o 0 s →
      Safe exec .main (mainSpec o fun _ s => ∃ k, Before o k s) rounds s) :
    Safe exec .main (mainSpec o fun _ s => ∃ k, Before o k s)
      (startRounds expected fuel rounds) s := by
  refine safe_bind.2 ((safe_waitUntilAtLeast (steady_before 0) _ _ hs).mono fun b s hs => ?_)
  cases b with
  | false => exact ⟨0, hs⟩
  | true =>
    refine safe_store_before (Int.le_refl 0) nofun nofun nofun hs fun s hs => ?_
    exact safe_main_silent (steady_before 0) .pause rfl hs fun _ s hs => hrounds s hs

theorem before_start : Before o 0 .start := ⟨inv_start, nofun, fun _ _ => Int.le_refl 0⟩

/-- **`main` is safe**, and has woken each word when it has stopped the threads. -/
theorem safe_mainHd (hhd : o.mode = .hd) (fuel : ℕ) :
    Safe exec .main (mainSpec o fun b s => b = true → AllWoken o s) (mainHd o fuel) .start := by
  refine safe_main_silent (steady_before 0) .setUp rfl before_start fun ok s hs => ?_
  cases ok with
  | false => exact nofun
  | true =>
    refine safe_bind.2 ((safe_startRounds hs fun s hs =>
      safe_hdRounds (Nat.add_comm 1 o.rounds) hs).mono fun _ s hs => ?_)
    obtain ⟨k, hs⟩ := hs
    exact safe_bind.2 ((safe_stopAllThreads hhd hs).mono fun _ s hs _ => hs)

/-- **`run_guihd` is safe**, and has woken each word when it has stopped the threads. -/
theorem safe_runGuihd (hgui : o.mode = .guihd) (fuel : ℕ) :
    Safe exec .main (mainSpec o fun b s => b = true → AllWoken o s) (runGuihd o fuel)
      .start := by
  refine safe_main_silent (steady_before 0) .setUp rfl before_start fun ok s hs => ?_
  cases ok with
  | false => exact safe_bind.2 ((safe_stopGuiThreads hgui hs).mono fun _ s hs _ => hs)
  | true =>
    refine safe_bind.2 ((safe_startRounds hs fun s hs => ?_).mono fun _ s hs => ?_)
    · exact safe_guiRounds hs
    obtain ⟨k, hs⟩ := hs
    exact safe_bind.2 ((safe_stopGuiThreads hgui hs).mono fun _ s hs _ => hs)

end Wakestorm
end V6User
