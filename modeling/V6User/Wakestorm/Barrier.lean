import V6User.Wakestorm.Stop

/-!
# The rounds of the producers

`run_guihd` in `programs/wakestorm/wakestorm.c` gives its producers a round in `gui_round_cmd`,
after it has set `gui_round_done` back to 0, and goes on when `wait_until_at_least` finds that
both have counted themselves there.

`Lockstep` is what holds of the two words and of the rounds that each producer has begun and
counted, in every state: a producer is at most one round behind, and `gui_round_done` is the
number of those that have counted the round of the command, or it was set back while nobody is in
a round.  So when the wait ends every producer has run each round once, and none is in the next
one (`every_producer_done`).
-/

namespace V6User
namespace Wakestorm

open Process Threads

/-! ### What the threads have called -/

/-- The rounds that a thread has begun: the values that it gave its variable `seen`. -/
def begun (calls : List Call) : List ℤ :=
  calls.filterMap fun c => match c with
    | .assign .seen v => some v
    | _ => none

/-- How often a thread has counted itself in `gui_round_done`. -/
def counted (calls : List Call) : ℕ := calls.count (.add .guiRoundDone 1)

/-- The round that the main thread has completed since its last command. -/
def lastCompleted (calls : List Call) : Option ℤ :=
  calls.foldl (fun last c => match c with
    | .assign .completedRounds v => some v
    | .store .guiRoundCmd _ => none
    | _ => last) none

/-- The rounds from 1 on. -/
def roundsTo (n : ℕ) : List ℤ := (List.range n).map fun i => (i : ℤ) + 1

/-- How many rounds a producer has counted. -/
def Shared.rounds (s : Shared) (p : ℕ) : ℕ := counted (s.calls (.producer p))

/-- The producers that have counted the round of the command. -/
def arrived (s : Shared) : ℕ :=
  (List.range guiProducerThreads).countP fun p => s.rounds p = s.mem .guiRoundCmd

/-- Every producer has counted the round of the command. -/
def AllArrived (s : Shared) : Prop :=
  ∀ p < guiProducerThreads, (s.rounds p : ℤ) = s.mem .guiRoundCmd

/-- What holds of the rounds in every state. -/
structure Lockstep (s : Shared) : Prop where
  begun : ∀ p < guiProducerThreads, begun (s.calls (.producer p)) = roundsTo (s.rounds p) ∨
    begun (s.calls (.producer p)) = roundsTo (s.rounds p + 1) ∧
      (s.rounds p : ℤ) + 1 ≤ s.mem .guiRoundCmd
  near : ∀ p < guiProducerThreads,
    s.mem .guiRoundCmd - 1 ≤ s.rounds p ∧ (s.rounds p : ℤ) ≤ s.mem .guiRoundCmd
  done : s.mem .guiRoundDone = arrived s ∨ AllArrived s ∧ s.mem .guiRoundDone = 0
  completed : ∀ r, lastCompleted (s.calls .main) = some r →
    s.mem .guiRoundCmd = r ∧ AllArrived s

variable {s s' : Shared} {t u : Tid} {c : Call} {w : Word} {v : ℤ} {o : Options} {p n : ℕ}

theorem begun_snoc_assign (calls : List Call) (v : ℤ) :
    begun (calls ++ [.assign .seen v]) = begun calls ++ [v] := by
  simp [begun]

theorem begun_snoc (calls : List Call) (hc : ∀ v, c ≠ .assign .seen v) :
    begun (calls ++ [c]) = begun calls := by
  rw [begun, List.filterMap_append]
  cases c with
  | assign x v => cases x with
    | seen => exact absurd rfl (hc v)
    | completedRounds => exact List.append_nil _
  | _ => exact List.append_nil _

theorem counted_snoc_add (calls : List Call) :
    counted (calls ++ [.add .guiRoundDone 1]) = counted calls + 1 := by
  simp [counted]

theorem counted_snoc (calls : List Call) (hc : c ≠ .add .guiRoundDone 1) :
    counted (calls ++ [c]) = counted calls := by
  rw [counted, List.count_append, List.count_singleton, if_neg (by simpa using hc), Nat.add_zero,
    counted]

theorem lastCompleted_snoc (calls : List Call) (hc : ∀ v, c ≠ .assign .completedRounds v)
    (hc' : ∀ v, c ≠ .store .guiRoundCmd v) :
    lastCompleted (calls ++ [c]) = lastCompleted calls := by
  rw [lastCompleted, List.foldl_append]
  cases c with
  | assign x v => cases x with
    | seen => rfl
    | completedRounds => exact absurd rfl (hc v)
  | store w v => cases w with
    | guiRoundCmd => exact absurd rfl (hc' v)
    | _ => rfl
  | _ => rfl

theorem roundsTo_succ (n : ℕ) : roundsTo (n + 1) = roundsTo n ++ [(n : ℤ) + 1] := by
  simp [roundsTo, List.range_succ]

theorem length_roundsTo (n : ℕ) : (roundsTo n).length = n := by
  simp [roundsTo]

/-- A producer that is in a round is not behind the command. -/
theorem Lockstep.in_round (h : Lockstep s) (hp : p < guiProducerThreads)
    (hbegun : Wakestorm.begun (s.calls (.producer p)) = roundsTo (s.rounds p + 1)) :
    (s.rounds p : ℤ) + 1 = s.mem .guiRoundCmd := by
  have hnear := h.near p hp
  rcases h.begun p hp with hout | ⟨-, hle⟩
  · have hlen := congrArg List.length (hbegun.symm.trans hout)
    rw [length_roundsTo, length_roundsTo] at hlen
    omega
  · omega

/-- When both have counted themselves, every producer has. -/
theorem Lockstep.allArrived (h : Lockstep s) (hdone : guiProducerThreads ≤ s.mem .guiRoundDone) :
    AllArrived s := by
  rcases h.done with harrived | ⟨hall, -⟩
  · have hle : (List.range guiProducerThreads).length ≤ arrived s := by
      rw [List.length_range]
      omega
    intro p hp
    have hevery := List.countP_eq_length.1 (Nat.le_antisymm List.countP_le_length hle)
    exact of_decide_eq_true (hevery p (List.mem_range.2 hp))
  · exact hall

theorem Lockstep.begun_of_allArrived (h : Lockstep s) (hall : AllArrived s)
    (hp : p < guiProducerThreads) :
    Wakestorm.begun (s.calls (.producer p)) = roundsTo (s.rounds p) := by
  have heq := hall p hp
  exact (h.begun p hp).resolve_right fun hin => by omega

theorem lockstep_start : Lockstep .start where
  begun p _ := .inl rfl
  near p _ := by
    change (0 : ℤ) - 1 ≤ (0 : ℕ) ∧ ((0 : ℕ) : ℤ) ≤ 0
    omega
  done := .inr ⟨fun _ _ => rfl, rfl⟩
  completed r h := by
    cases h

/-! ### The calls that leave the rounds as they are -/

/-- A call that changes neither of the two words. -/
def plain : Call → Bool
  | .store w _ | .add w _ => w ≠ .guiRoundCmd && w ≠ .guiRoundDone
  | _ => true

/-- The two words, and what the threads have called of the rounds, are the same. -/
structure SameRounds (s s' : Shared) : Prop where
  command : s'.mem .guiRoundCmd = s.mem .guiRoundCmd
  done : s'.mem .guiRoundDone = s.mem .guiRoundDone
  completed : lastCompleted (s'.calls .main) = lastCompleted (s.calls .main)
  begun : ∀ p < guiProducerThreads,
    begun (s'.calls (.producer p)) = begun (s.calls (.producer p))
  rounds : ∀ p < guiProducerThreads, s'.rounds p = s.rounds p

theorem AllArrived.congr (h : AllArrived s) (hsame : SameRounds s s') : AllArrived s' := by
  intro p hp
  rw [hsame.rounds p hp, hsame.command]
  exact h p hp

theorem arrived_congr (hsame : SameRounds s s') : arrived s' = arrived s := by
  refine List.countP_congr fun p hp => ?_
  rw [hsame.rounds p (List.mem_range.1 hp), hsame.command]

theorem Lockstep.congr (h : Lockstep s) (hsame : SameRounds s s') : Lockstep s' where
  begun p hp := by
    rw [hsame.begun p hp, hsame.rounds p hp, hsame.command]
    exact h.begun p hp
  near p hp := by
    rw [hsame.rounds p hp, hsame.command]
    exact h.near p hp
  done := by
    rw [hsame.done, arrived_congr hsame]
    exact h.done.imp_right fun hidle => ⟨hidle.1.congr hsame, hidle.2⟩
  completed r hr := by
    rw [hsame.completed] at hr
    obtain ⟨hcmd, hall⟩ := h.completed r hr
    rw [hsame.command]
    exact ⟨hcmd, hall.congr hsame⟩

variable {r : Reply c}

theorem calls_of_exec (h : exec t s c r s') : s'.calls t = s.calls t ++ [c] := by
  obtain ⟨s₁, heffect, rfl⟩ := h
  rw [calls_called_self, calls_of_effect heffect]

theorem calls_of_exec_of_ne (h : exec t s c r s') (hu : u ≠ t) : s'.calls u = s.calls u := by
  obtain ⟨s₁, heffect, rfl⟩ := h
  rw [calls_called_of_ne hu, calls_of_effect heffect]

/-- A call that does not write to a word. -/
theorem mem_of_exec (h : exec t s c r s') (hstore : ∀ v, c ≠ .store w v)
    (hadd : ∀ v, c ≠ .add w v) : s'.mem w = s.mem w := by
  obtain ⟨s₁, heffect, rfl⟩ := h
  change s₁.mem w = s.mem w
  cases c with
  | load => rw [heffect.2]
  | atMost => rw [heffect.2]
  | store w' v =>
    rw [show s₁ = s.write w' v from heffect]
    exact mem_write_of_ne fun heq => hstore v (heq ▸ rfl)
  | add w' v =>
    rw [heffect.2]
    exact mem_write_of_ne fun heq => hadd v (heq ▸ rfl)
  | futexWait w' v =>
    change if s.mem w' = v then _ ∧ s₁ = _ else _ ∧ s₁ = s at heffect
    split_ifs at heffect
    · rw [heffect.2]
      rfl
    · rw [heffect.2]
  | resume => rw [heffect.2]
  | futexWake =>
    obtain ⟨q, -, -, rfl⟩ := heffect
    rfl
  | _ => rw [show s₁ = s from heffect]

theorem mem_of_store {r : Unit} (h : exec t s (.store w v) r s') : s'.mem w = v := by
  obtain ⟨s₁, heffect, rfl⟩ := h
  change s₁.mem w = v
  rw [show s₁ = s.write w v from heffect]
  exact mem_write_self

theorem mem_of_add {r : ℤ} (h : exec t s (.add w v) r s') : s'.mem w = s.mem w + v := by
  obtain ⟨s₁, heffect, rfl⟩ := h
  change s₁.mem w = s.mem w + v
  rw [heffect.2]
  exact mem_write_self

theorem ne_of_plain (hc : plain c = true) (hw : w = .guiRoundCmd ∨ w = .guiRoundDone) :
    (∀ v, c ≠ .store w v) ∧ ∀ v, c ≠ .add w v := by
  constructor
  · rintro v rfl
    rcases hw with rfl | rfl <;> simp [plain] at hc
  · rintro v rfl
    rcases hw with rfl | rfl <;> simp [plain] at hc

/-- **A call that leaves the rounds as they are**: it changes neither word, begins no round of a
producer and completes none of the main thread. -/
theorem sameRounds_of_exec (h : exec t s c r s') (hc : plain c = true)
    (hseen : ∀ p < guiProducerThreads, t = .producer p → ∀ v, c ≠ .assign .seen v)
    (hcompleted : t = .main → ∀ v, c ≠ .assign .completedRounds v) : SameRounds s s' where
  command := mem_of_exec h (ne_of_plain hc (.inl rfl)).1 (ne_of_plain hc (.inl rfl)).2
  done := mem_of_exec h (ne_of_plain hc (.inr rfl)).1 (ne_of_plain hc (.inr rfl)).2
  completed := by
    by_cases ht : t = .main
    · subst ht
      rw [calls_of_exec h]
      exact lastCompleted_snoc _ (hcompleted rfl) (ne_of_plain hc (.inl rfl)).1
    · rw [calls_of_exec_of_ne h (Ne.symm ht)]
  begun p hp := by
    by_cases ht : t = .producer p
    · subst ht
      rw [calls_of_exec h]
      exact begun_snoc _ (hseen p hp rfl)
    · rw [calls_of_exec_of_ne h (Ne.symm ht)]
  rounds p hp := by
    unfold Shared.rounds
    by_cases ht : t = .producer p
    · subst ht
      rw [calls_of_exec h]
      exact counted_snoc _ ((ne_of_plain hc (.inr rfl)).2 1)
    · rw [calls_of_exec_of_ne h (Ne.symm ht)]

/-! ### What the threads rely on and keep -/

/-- What a step of another thread than the main thread keeps: it gives no command, and while
nobody is in a round it does not count. -/
structure Follows (s s' : Shared) : Prop where
  lockstep : Lockstep s → Lockstep s'
  command : s'.mem .guiRoundCmd = s.mem .guiRoundCmd
  idle : Lockstep s → AllArrived s → AllArrived s' ∧ s'.mem .guiRoundDone = s.mem .guiRoundDone

/-- What a step of the main thread keeps: it completes a round when every producer has. -/
structure Commands (s s' : Shared) : Prop where
  lockstep : Lockstep s → Lockstep s'
  later : s.mem .guiRoundCmd ≤ s'.mem .guiRoundCmd
  completes : ∀ r, s'.calls .main = s.calls .main ++ [.assign .completedRounds r] →
    s.mem .guiRoundCmd = r ∧ AllArrived s

/-- What another thread relies on, and its own calls keep but for those of the rounds. -/
structure Leaves (t : Tid) (s s' : Shared) : Prop where
  lockstep : Lockstep s'
  later : s.mem .guiRoundCmd ≤ s'.mem .guiRoundCmd
  begun : begun (s'.calls t) = begun (s.calls t)
  counted : counted (s'.calls t) = counted (s.calls t)

/-- What the main thread relies on, and its own calls keep but for those of the rounds. -/
structure MainLeaves (s s' : Shared) : Prop where
  lockstep : Lockstep s'
  command : s'.mem .guiRoundCmd = s.mem .guiRoundCmd
  idle : AllArrived s → AllArrived s' ∧ s'.mem .guiRoundDone = s.mem .guiRoundDone

/-- The specification of another thread. -/
def followSpec (t : Tid) {α : Type} (Q : α → Shared → Prop) : Spec Call Unit α Shared :=
  ⟨fun _ s s' => Leaves t s s', fun s s' => Follows s s' ∧ ∀ u, u ≠ t → s'.calls u = s.calls u, Q,
    fun _ _ => True⟩

/-- The specification of the main thread. -/
def commandSpec {α : Type} (Q : α → Shared → Prop) : Spec Call Unit α Shared :=
  ⟨fun _ s s' => MainLeaves s s',
    fun s s' => Commands s s' ∧ ∀ u, u ≠ .main → s'.calls u = s.calls u, Q, fun _ _ => True⟩

theorem SameRounds.follows (h : SameRounds s s') : Follows s s' :=
  ⟨fun hlock => hlock.congr h, h.command, fun _ hall => ⟨hall.congr h, h.done⟩⟩

/-- A call that changes neither word and sets no variable. -/
def Inert (c : Call) : Prop := plain c = true ∧ ∀ x v, c ≠ .assign x v

/-- **Threads that have no part in the rounds.** -/
theorem safe_of_plain {α : Type} {p : Prog α} (hp : Only (plain · = true) p) (ht : t ≠ .main)
    (htp : ∀ p < guiProducerThreads, t ≠ .producer p) (hs : Lockstep s) :
    Safe exec t (followSpec t fun _ _ => True) p s := by
  refine safe_of_only hp (I := Lockstep) (fun _ _ _ _ hrely => hrely.lockstep) ?_
    (fun _ _ _ => trivial) (fun _ _ _ => trivial) hs
  intro c r s s' hc hs hexec
  have hsame := sameRounds_of_exec hexec hc (fun p hp heq => absurd heq (htp p hp))
    fun heq => absurd heq ht
  exact ⟨⟨hsame.follows, fun u hu => calls_of_exec_of_ne hexec hu⟩, hs.congr hsame⟩

/-! ### Programs without a part in the rounds -/

variable {α : Type}

theorem only_plain {q : Prog α} (h : Only Inert q) : Only (plain · = true) q := by
  induction q with
  | done a => exact trivial
  | exit e => exact trivial
  | stuck => exact trivial
  | ask c k ih => exact ⟨h.1.1, fun r => ih r (h.2 r)⟩

theorem only_each {ids : List ℕ} {body : ℕ → Prog Unit} (hbody : ∀ i, Only Inert (body i)) :
    Only Inert (each ids body) := by
  induction ids with
  | nil => exact only_pure ()
  | cons i rest ih => exact only_bind (hbody i) fun _ => ih

theorem only_signalReady : Only Inert signalReady :=
  only_bind (only_call ⟨rfl, by simp⟩) fun _ => only_call ⟨rfl, by simp⟩

theorem only_awaitStart (fuel : ℕ) : Only Inert (awaitStart fuel) := by
  induction fuel with
  | zero => exact trivial
  | succ fuel ih =>
    refine only_bind (only_call ⟨rfl, by simp⟩) fun flag => ?_
    split_ifs
    · exact only_pure ()
    · exact only_bind (only_call ⟨rfl, by simp⟩) fun _ => ih

theorem only_awaitCommand (w : Word) (seen : ℤ) (fuel : ℕ) :
    Only Inert (awaitCommand w seen fuel) := by
  induction fuel with
  | zero => exact trivial
  | succ fuel ih =>
    refine only_bind (only_call ⟨rfl, by simp⟩) fun flag => ?_
    split_ifs
    · exact only_pure ()
    · refine only_bind (only_call ⟨rfl, by simp⟩) fun waits => ?_
      split_ifs
      · refine only_bind ?_ fun _ => ih
        refine only_bind (only_call ⟨rfl, by simp⟩) fun queued => ?_
        cases queued with
        | true => exact ⟨⟨rfl, by simp⟩, fun _ => trivial⟩
        | false => exact trivial
      · exact only_pure ()

theorem only_commandLoop (w : Word) (accepts : ℤ → ℤ → Bool) {body : ℕ → ℤ → Prog Unit}
    (hbody : ∀ fuel round, Only Inert (body fuel round)) (fuel : ℕ) (seen : ℤ) :
    Only (plain · = true) (commandLoop w accepts body fuel seen) := by
  induction fuel generalizing seen with
  | zero => exact trivial
  | succ fuel ih =>
    refine only_bind (only_call rfl) fun flag => ?_
    split_ifs
    · exact trivial
    refine only_bind (only_plain (only_awaitCommand w seen fuel)) fun _ => ?_
    refine only_bind (only_call rfl) fun flag => ?_
    split_ifs
    · exact trivial
    refine only_bind (only_call rfl) fun round => ?_
    split_ifs
    · refine only_bind (only_call rfl) fun _ => ?_
      exact only_bind (only_plain (hbody fuel round)) fun _ => ih round
    · exact ih seen

theorem only_guiPipeLoop (id : ℕ) {body : Prog Unit} (hbody : Only Inert body) (fuel : ℕ) :
    Only Inert (guiPipeLoop id body fuel) := by
  induction fuel with
  | zero => exact trivial
  | succ fuel ih =>
    refine only_bind (only_call ⟨rfl, by simp⟩) fun flag => ?_
    split_ifs
    · exact trivial
    refine only_bind (only_call ⟨rfl, by simp⟩) fun byte => ?_
    cases byte with
    | none => exact only_bind (only_call ⟨rfl, by simp⟩) fun _ => ih
    | some byte =>
      refine only_bind (only_call ⟨rfl, by simp⟩) fun flag => ?_
      split_ifs
      · exact trivial
      · exact only_bind hbody fun _ => ih

theorem only_guiChurnLoop (fuel : ℕ) : Only Inert (guiChurnLoop fuel) := by
  induction fuel with
  | zero => exact trivial
  | succ fuel ih =>
    refine only_bind (only_call ⟨rfl, by simp⟩) fun flag => ?_
    split_ifs
    · exact trivial
    refine only_bind (only_call ⟨rfl, by simp⟩) fun _ => ?_
    refine only_bind (only_call ⟨rfl, by simp⟩) fun flag => ?_
    split_ifs
    · exact trivial
    · exact only_bind (only_call ⟨rfl, by simp⟩) fun _ => ih

/-- A write to a pipe, or a count with a wake. -/
theorem only_wake (id : ℕ) {w : Word} (hw : plain (.add w 1) = true) :
    Only Inert (if id % 2 = 1 then writePipe id else do
      let _ ← add w 1
      futexWake w 1) := by
  split_ifs
  · exact only_call ⟨rfl, by simp⟩
  · exact only_bind (only_call ⟨hw, by simp⟩) fun _ => only_call ⟨rfl, by simp⟩

theorem only_wakeLeaves (o : Options) (id : ℕ) (base : UInt64) (leaves : List ℕ) :
    Only Inert (wakeLeaves o id base leaves) := by
  induction leaves with
  | nil => exact only_pure ()
  | cons i rest ih =>
    refine only_bind (only_call ⟨rfl, by simp⟩) fun flag => ?_
    split_ifs
    · exact only_pure ()
    · exact only_bind (only_wake _ rfl) fun _ => ih

theorem only_reactorBody (o : Options) (id : ℕ) : Only Inert (reactorBody o id) :=
  only_bind (only_call ⟨rfl, by simp⟩) fun _ =>
    only_bind (only_call ⟨rfl, by simp⟩) fun base => only_wakeLeaves o id base _

theorem only_bursts (o : Options) (id : ℕ) (round : ℤ) (fuel burst : ℕ) :
    Only Inert (bursts o id round fuel burst) := by
  induction fuel generalizing burst with
  | zero => exact trivial
  | succ fuel ih =>
    refine only_bind (only_call ⟨rfl, by simp⟩) fun flag => ?_
    split_ifs
    · exact only_pure ()
    refine only_bind (only_call ⟨rfl, by simp⟩) fun up => ?_
    split_ifs
    · exact only_pure ()
    · refine only_bind (only_each fun i => only_wake _ rfl) fun _ => ?_
      exact only_bind (only_call ⟨rfl, by simp⟩) fun _ => ih _

theorem only_waitUntilAtLeast (w : Word) (target : ℤ) (fuel : ℕ) :
    Only Inert (waitUntilAtLeast w target fuel) := by
  induction fuel with
  | zero => exact trivial
  | succ fuel ih =>
    refine only_bind (only_call ⟨rfl, by simp⟩) fun value => ?_
    split_ifs
    · refine only_bind (only_call ⟨rfl, by simp⟩) fun up => ?_
      split_ifs
      · exact only_pure false
      · exact only_bind (only_call ⟨rfl, by simp⟩) fun _ => ih
    · exact only_pure true

theorem only_stopGuiThreads (o : Options) : Only Inert (stopGuiThreads o) := by
  refine only_bind (only_call ⟨rfl, by simp⟩) fun _ => ?_
  refine only_bind (only_call ⟨rfl, by simp⟩) fun _ => ?_
  refine only_bind (only_call ⟨rfl, by simp⟩) fun _ => ?_
  exact only_bind (only_each fun i => only_wake _ rfl) fun _ => only_each fun i => only_wake _ rfl

/-- **The threads without a part in the rounds.** -/
theorem only_entry (hgui : o.mode = .guihd) (ht : t ≠ .main)
    (htp : ∀ p < guiProducerThreads, t ≠ .producer p) (fuel : ℕ) :
    Only (plain · = true) (entry o fuel t) := by
  have hstart : ∀ {loop : Prog Bool}, Only (plain · = true) loop →
      Only (plain · = true) (do signalReady; awaitStart fuel; loop) := fun hloop =>
    only_bind (only_plain only_signalReady) fun _ =>
      only_bind (only_plain (only_awaitStart fuel)) fun _ => hloop
  have hpause : Only Inert pause := only_call ⟨rfl, by simp⟩
  cases t with
  | main => exact absurd rfl ht
  | worker id =>
    simp only [entry, hgui]
    split_ifs
    · refine hstart ?_
      split_ifs
      · exact only_plain (only_guiPipeLoop id hpause fuel)
      · exact only_commandLoop _ _ (fun _ _ => hpause) fuel 0
    · exact only_pure false
  | leader id =>
    simp only [entry, hgui]
    exact only_pure false
  | churn id =>
    simp only [entry, hgui]
    split_ifs
    · exact hstart (only_plain (only_guiChurnLoop fuel))
    · exact only_pure false
  | reactor id =>
    simp only [entry, hgui]
    split_ifs
    · refine hstart ?_
      split_ifs
      · exact only_plain (only_guiPipeLoop id (only_reactorBody o id) fuel)
      · exact only_commandLoop _ _ (fun _ _ => only_reactorBody o id) fuel 0
    · exact only_pure false
  | producer id =>
    simp only [entry, hgui]
    split_ifs with hid
    · exact absurd rfl (htp id hid.2)
    · exact only_pure false

/-! ### A producer -/

/-- What a producer knows: the rounds that it has begun, and how many it has counted. -/
structure Knows (p : ℕ) (rounds : List ℤ) (n : ℕ) (s : Shared) : Prop where
  lockstep : Lockstep s
  begun : begun (s.calls (.producer p)) = rounds
  counted : s.rounds p = n

variable {rounds : List ℤ} {Q : α → Shared → Prop}

theorem Knows.leaves (h : Knows p rounds n s) (hleaves : Leaves (.producer p) s s') :
    Knows p rounds n s' :=
  ⟨hleaves.lockstep, hleaves.begun.trans h.begun, hleaves.counted.trans h.counted⟩

theorem Knows.congr (h : Knows p rounds n s) (hp : p < guiProducerThreads)
    (hsame : SameRounds s s') : Knows p rounds n s' :=
  ⟨h.lockstep.congr hsame, (hsame.begun p hp).trans h.begun, (hsame.rounds p hp).trans h.counted⟩

theorem follows_of_inert (hc : Inert c) (h : exec (.producer p) s c r s') :
    SameRounds s s' ∧ Follows s s' ∧ ∀ u, u ≠ .producer p → s'.calls u = s.calls u := by
  have hsame := sameRounds_of_exec h hc.1 (fun _ _ _ => hc.2 .seen) nofun
  exact ⟨hsame, hsame.follows, fun u hu => calls_of_exec_of_ne h hu⟩

/-- **Calls of a producer that have no part in the rounds.** -/
theorem safe_inert {q : Prog α} (hq : Only Inert q) (hp : p < guiProducerThreads)
    (hs : Knows p rounds n s) :
    Safe exec (.producer p) (followSpec (.producer p) fun _ s => Knows p rounds n s) q s := by
  refine safe_of_only hq (I := Knows p rounds n) (fun _ _ _ hs hrely => hs.leaves hrely) ?_
    (fun _ _ hs => hs) (fun _ _ _ => trivial) hs
  intro c r s s' hc hs hexec
  obtain ⟨hsame, hfollows⟩ := follows_of_inert hc hexec
  exact ⟨hfollows, hs.congr hp hsame⟩

theorem safe_inert_bind {β : Type} {q : Prog β} (hq : Only Inert q) (hp : p < guiProducerThreads)
    {f : β → Prog α} (hs : Knows p rounds n s)
    (h : ∀ b s, Knows p rounds n s → Safe exec (.producer p) (followSpec (.producer p) Q) (f b) s) :
    Safe exec (.producer p) (followSpec (.producer p) Q) (q >>= f) s :=
  safe_bind.2 ((safe_inert hq hp hs).mono h)

/-- **A producer reads the command**, which does not go back. -/
theorem safe_load_command {f : ℤ → Prog α} (hp : p < guiProducerThreads)
    (hs : Knows p rounds n s)
    (h : ∀ (round : ℤ) s, Knows p rounds n s → round ≤ n + 1 → round ≤ s.mem .guiRoundCmd →
      Safe exec (.producer p) (followSpec (.producer p) Q) (f round) s) :
    Safe exec (.producer p) (followSpec (.producer p) Q) (load .guiRoundCmd >>= f) s := by
  refine safe_call_bind (Call.load .guiRoundCmd) (Knows p rounds n) hs
    (fun _ _ hs hrely => hs.leaves hrely) ?_
  intro s r s' hs hexec
  obtain ⟨hsame, hfollows⟩ := follows_of_inert ⟨rfl, by simp⟩ hexec
  have hnear := (hs.lockstep.near p hp).1
  obtain rfl : r = s.mem .guiRoundCmd := by
    obtain ⟨s₁, heffect, -⟩ := hexec
    exact heffect.1
  rw [hs.counted] at hnear
  exact ⟨hfollows, h _ s' (hs.congr hp hsame) (by omega) (Int.le_of_eq hsame.command.symm)⟩

theorem rounds_of_ne {q : ℕ} (hcalls : ∀ u, u ≠ .producer p → s'.calls u = s.calls u)
    (hq : q ≠ p) : s'.calls (.producer q) = s.calls (.producer q) ∧ s'.rounds q = s.rounds q := by
  have hsame : s'.calls (.producer q) = s.calls (.producer q) :=
    hcalls _ fun heq => hq (Tid.producer.inj heq)
  exact ⟨hsame, congrArg counted hsame⟩

/-- A call of a producer in the rounds. -/
theorem Lockstep.of_producer (h : Lockstep s)
    (hcalls : ∀ u, u ≠ .producer p → s'.calls u = s.calls u)
    (hcmd : s'.mem .guiRoundCmd = s.mem .guiRoundCmd)
    (hbegun : Wakestorm.begun (s'.calls (.producer p)) = roundsTo (s'.rounds p) ∨
      Wakestorm.begun (s'.calls (.producer p)) = roundsTo (s'.rounds p + 1) ∧
        (s'.rounds p : ℤ) + 1 ≤ s.mem .guiRoundCmd)
    (hnear : s.mem .guiRoundCmd - 1 ≤ s'.rounds p ∧ (s'.rounds p : ℤ) ≤ s.mem .guiRoundCmd)
    (hdone : s'.mem .guiRoundDone = arrived s' ∨ AllArrived s' ∧ s'.mem .guiRoundDone = 0)
    (hall : AllArrived s → AllArrived s') : Lockstep s' where
  begun q hq := by
    rw [hcmd]
    by_cases hqp : q = p
    · subst hqp
      exact hbegun
    · rw [(rounds_of_ne hcalls hqp).1, (rounds_of_ne hcalls hqp).2]
      exact h.begun q hq
  near q hq := by
    rw [hcmd]
    by_cases hqp : q = p
    · subst hqp
      exact hnear
    · rw [(rounds_of_ne hcalls hqp).2]
      exact h.near q hq
  done := hdone
  completed r hr := by
    have hmain : s'.calls .main = s.calls .main := hcalls _ nofun
    rw [hmain] at hr
    obtain ⟨hround, harrived⟩ := h.completed r hr
    rw [hcmd]
    exact ⟨hround, hall harrived⟩

/-- **A producer begins the next round**, which is that of the command. -/
theorem safe_begin {f : Unit → Prog α} (hp : p < guiProducerThreads)
    (hs : Knows p (roundsTo n) n s) (hcmd : (n : ℤ) + 1 ≤ s.mem .guiRoundCmd)
    (h : ∀ s, Knows p (roundsTo (n + 1)) n s →
      Safe exec (.producer p) (followSpec (.producer p) Q) (f ()) s) :
    Safe exec (.producer p) (followSpec (.producer p) Q)
      (assign .seen (n + 1 : ℤ) >>= f) s := by
  refine safe_call_bind (Call.assign .seen (n + 1))
    (fun s => Knows p (roundsTo n) n s ∧ (n : ℤ) + 1 ≤ s.mem .guiRoundCmd) ⟨hs, hcmd⟩ ?_ ?_
  · exact fun s s' hs hrely => ⟨hs.1.leaves hrely, Int.le_trans hs.2 hrely.later⟩
  rintro s r s' ⟨hs, hcmd⟩ hexec
  have hlock := hs.lockstep
  have hcalls := calls_of_exec hexec
  have hothers : ∀ u, u ≠ .producer p → s'.calls u = s.calls u :=
    fun u hu => calls_of_exec_of_ne hexec hu
  have hword : s'.mem .guiRoundCmd = s.mem .guiRoundCmd := mem_of_exec hexec nofun nofun
  have hdone : s'.mem .guiRoundDone = s.mem .guiRoundDone := mem_of_exec hexec nofun nofun
  have hrounds : ∀ q, s'.rounds q = s.rounds q := by
    intro q
    by_cases hq : q = p
    · subst hq
      rw [Shared.rounds, hcalls, counted_snoc (c := .assign .seen (n + 1)) _ nofun, Shared.rounds]
    · exact (rounds_of_ne hothers hq).2
  have hall : AllArrived s → AllArrived s' := by
    intro hall q hq
    rw [hrounds, hword]
    exact hall q hq
  have harrived : arrived s' = arrived s := by
    simp only [arrived, hrounds, hword]
  have hbegun : begun (s'.calls (.producer p)) = roundsTo (s'.rounds p + 1) := by
    rw [hcalls, begun_snoc_assign, hs.begun, hrounds, hs.counted, roundsTo_succ]
  have hlock' : Lockstep s' := by
    refine hlock.of_producer hothers hword (.inr ⟨hbegun, ?_⟩) ?_ ?_ hall
    · rw [hrounds, hs.counted]
      exact hcmd
    · rw [hrounds]
      exact hlock.near p hp
    · rw [hdone, harrived]
      exact hlock.done.imp_right fun hidle => ⟨hall hidle.1, hidle.2⟩
  refine ⟨⟨⟨fun _ => hlock', hword, fun _ harr => ⟨hall harr, hdone⟩⟩, hothers⟩, h s' ?_⟩
  refine ⟨hlock', ?_, (hrounds p).trans hs.counted⟩
  rw [hbegun, hrounds, hs.counted]

/-- There are two producers. -/
theorem arrived_eq (s : Shared) : arrived s =
    (if (s.rounds 0 : ℤ) = s.mem .guiRoundCmd then 1 else 0) +
      if (s.rounds 1 : ℤ) = s.mem .guiRoundCmd then 1 else 0 := by
  simp [arrived, guiProducerThreads, List.range_succ, List.countP_cons, Nat.add_comm]

/-- One more has counted itself. -/
theorem arrived_succ (hp : p < guiProducerThreads)
    (hcmd : s'.mem .guiRoundCmd = s.mem .guiRoundCmd) (hone : ∀ q, q ≠ p → s'.rounds q = s.rounds q)
    (hafter : (s'.rounds p : ℤ) = s.mem .guiRoundCmd)
    (hbefore : (s.rounds p : ℤ) ≠ s.mem .guiRoundCmd) : arrived s' = arrived s + 1 := by
  have htwo : p = 0 ∨ p = 1 := by
    unfold guiProducerThreads at hp
    omega
  rw [arrived_eq, arrived_eq, hcmd]
  rcases htwo with rfl | rfl
  · rw [if_pos hafter, if_neg hbefore, hone 1 (by decide)]
    omega
  · rw [if_pos hafter, if_neg hbefore, hone 0 (by decide)]

/-- **A producer counts itself**, at the end of the round of the command. -/
theorem safe_count {f : ℤ → Prog α} (hp : p < guiProducerThreads)
    (hs : Knows p (roundsTo (n + 1)) n s)
    (h : ∀ r s, Knows p (roundsTo (n + 1)) (n + 1) s →
      Safe exec (.producer p) (followSpec (.producer p) Q) (f r) s) :
    Safe exec (.producer p) (followSpec (.producer p) Q) (add .guiRoundDone 1 >>= f) s := by
  refine safe_call_bind (Call.add .guiRoundDone 1) (Knows p (roundsTo (n + 1)) n) hs
    (fun _ _ hs hrely => hs.leaves hrely) ?_
  intro s r s' hs hexec
  have hlock := hs.lockstep
  have hcalls := calls_of_exec hexec
  have hothers : ∀ u, u ≠ .producer p → s'.calls u = s.calls u :=
    fun u hu => calls_of_exec_of_ne hexec hu
  have hword : s'.mem .guiRoundCmd = s.mem .guiRoundCmd := mem_of_exec hexec nofun nofun
  have hdone : s'.mem .guiRoundDone = s.mem .guiRoundDone + 1 := mem_of_add hexec
  have hself : s'.rounds p = n + 1 := by
    rw [Shared.rounds, hcalls, counted_snoc_add]
    exact congrArg (· + 1) hs.counted
  have hbegun : begun (s'.calls (.producer p)) = roundsTo (n + 1) := by
    rw [hcalls, begun_snoc (c := .add .guiRoundDone 1) _ nofun, hs.begun]
  -- the producer was in the round of the command, so not all had counted themselves
  have hround : (n : ℤ) + 1 = s.mem .guiRoundCmd := by
    have hin := hlock.in_round hp (by rw [hs.begun, hs.counted])
    rwa [hs.counted] at hin
  have hnot : ¬AllArrived s := by
    intro hall
    have heq := hall p hp
    rw [hs.counted] at heq
    omega
  have harrived : arrived s' = arrived s + 1 := by
    have hone : ∀ q, q ≠ p → s'.rounds q = s.rounds q := fun q hq => (rounds_of_ne hothers hq).2
    refine arrived_succ hp hword hone ?_ ?_
    · rw [hself]
      omega
    · rw [hs.counted]
      omega
  have hlock' : Lockstep s' := by
    refine hlock.of_producer hothers hword (.inl ?_) ?_ (.inl ?_) fun hall => absurd hall hnot
    · rw [hbegun, hself]
    · rw [hself]
      omega
    · rw [hdone, harrived, hlock.done.resolve_right fun hidle => hnot hidle.1]
      rfl
  refine ⟨⟨⟨fun _ => hlock', hword, fun _ hall => absurd hall hnot⟩, hothers⟩, h r s' ?_⟩
  exact ⟨hlock', hbegun, hself⟩

/-- **The round of a producer.** -/
theorem safe_producerBody (hp : p < guiProducerThreads) (fuel : ℕ) (round : ℤ)
    (hs : Knows p (roundsTo (n + 1)) n s) :
    Safe exec (.producer p)
      (followSpec (.producer p) fun _ s => Knows p (roundsTo (n + 1)) (n + 1) s)
      (producerBody o p fuel round) s := by
  refine safe_inert_bind (only_bursts o p round fuel 0) hp hs fun _ s hs => ?_
  refine safe_count hp hs fun done s hs => ?_
  split_ifs
  · exact safe_inert (only_call ⟨rfl, by simp⟩) hp hs
  · exact hs

/-- **The loop of a producer.** -/
theorem safe_producerLoop (hp : p < guiProducerThreads) {fuel : ℕ} (hs : Knows p (roundsTo n) n s) :
    Safe exec (.producer p) (followSpec (.producer p) fun _ _ => True)
      (commandLoop .guiRoundCmd isRound (producerBody o p) fuel n) s := by
  induction fuel generalizing s n with
  | zero => exact trivial
  | succ fuel ih =>
    refine safe_inert_bind (only_call ⟨rfl, by simp⟩) hp hs fun flag s hs => ?_
    split_ifs
    · exact trivial
    refine safe_inert_bind (only_awaitCommand _ _ _) hp hs fun _ s hs => ?_
    refine safe_inert_bind (only_call ⟨rfl, by simp⟩) hp hs fun flag s hs => ?_
    split_ifs
    · exact trivial
    refine safe_load_command hp hs fun round s hs hround hcmd => ?_
    split_ifs with haccepts
    · -- the round of the command is the next one
      have hlt := lt_of_isRound haccepts
      obtain rfl : round = n + 1 := by omega
      refine safe_begin hp hs hcmd fun s hs => ?_
      exact safe_bind.2 ((safe_producerBody hp fuel _ hs).mono fun _ s hs => ih hs)
    · exact ih hs

theorem safe_producer (hgui : o.mode = .guihd) (hp : p < guiProducerThreads) (fuel : ℕ) :
    Safe exec (.producer p) (followSpec (.producer p) fun _ _ => True)
      (entry o fuel (.producer p)) .start := by
  have hs : Knows p (roundsTo 0) 0 .start := ⟨lockstep_start, rfl, rfl⟩
  dsimp only [entry]
  rw [if_pos ⟨hgui, hp⟩]
  refine safe_inert_bind only_signalReady hp hs fun _ s hs => ?_
  refine safe_inert_bind (only_awaitStart fuel) hp hs fun _ s hs => ?_
  exact safe_producerLoop hp hs

/-! ### The main thread -/

/-- The main thread has completed round `r`. -/
structure Idle (r : ℤ) (s : Shared) : Prop where
  lockstep : Lockstep s
  command : s.mem .guiRoundCmd = r
  all : AllArrived s

/-- What the main thread knows that the others leave as it is. -/
def MainStable (P : Shared → Prop) : Prop := ∀ s s', P s → MainLeaves s s' → P s'

theorem mainStable_idle (r : ℤ) : MainStable (Idle r) := fun _ _ h hleaves =>
  ⟨hleaves.lockstep, hleaves.command.trans h.command, (hleaves.idle h.all).1⟩

theorem mainStable_command (r : ℤ) :
    MainStable fun s => Lockstep s ∧ s.mem .guiRoundCmd = r := fun _ _ h hleaves =>
  ⟨hleaves.lockstep, hleaves.command.trans h.2⟩

theorem commands_of_same (hsame : SameRounds s s') (hcalls : s'.calls .main = s.calls .main ++ [c])
    (hc : ∀ v, c ≠ .assign .completedRounds v) : Commands s s' where
  lockstep h := h.congr hsame
  later := Int.le_of_eq hsame.command.symm
  completes r hr := by
    have hcons := List.append_cancel_left (hcalls.symm.trans hr)
    exact absurd (List.cons.inj hcons).1 (hc r)

/-- **Calls of the main thread that have no part in the rounds.** -/
theorem safe_main_inert {q : Prog α} (hq : Only Inert q) {P : Shared → Prop}
    (hP : MainStable P) (hlock : ∀ s, P s → Lockstep s) (hs : P s) :
    Safe exec .main (commandSpec fun _ s => P s) q s := by
  refine safe_of_only hq (I := P) (fun _ _ _ hs hrely => hP _ _ hs hrely) ?_
    (fun _ _ hs => hs) (fun _ _ _ => trivial) hs
  intro c r s s' hc hs hexec
  have hsame := sameRounds_of_exec hexec hc.1 nofun fun _ => hc.2 .completedRounds
  refine ⟨⟨commands_of_same hsame (calls_of_exec hexec) (hc.2 .completedRounds),
    fun u hu => calls_of_exec_of_ne hexec hu⟩, hP s s' hs ?_⟩
  exact ⟨(hlock s hs).congr hsame, hsame.command, fun hall => ⟨hall.congr hsame, hsame.done⟩⟩

theorem safe_main_inert_bind {β : Type} {q : Prog β} (hq : Only Inert q) {P : Shared → Prop}
    (hP : MainStable P) (hlock : ∀ s, P s → Lockstep s) {f : β → Prog α} (hs : P s)
    (h : ∀ b s, P s → Safe exec .main (commandSpec Q) (f b) s) :
    Safe exec .main (commandSpec Q) (q >>= f) s :=
  safe_bind.2 ((safe_main_inert hq hP hlock hs).mono h)

/-- **The wait for the producers.**  When it does not time out, every producer has counted the
round. -/
theorem safe_waitProducers {r : ℤ} (fuel : ℕ) (hs : Lockstep s ∧ s.mem .guiRoundCmd = r) :
    Safe exec .main (commandSpec fun b s => (b = true → Idle r s) ∧ Lockstep s)
      (waitUntilAtLeast .guiRoundDone guiProducerThreads fuel) s := by
  have hP := mainStable_command r
  have hlock : ∀ s, (Lockstep s ∧ s.mem .guiRoundCmd = r) → Lockstep s := fun _ h => h.1
  induction fuel generalizing s with
  | zero => exact trivial
  | succ fuel ih =>
    refine safe_call_bind (Call.load .guiRoundDone) _ hs hP ?_
    intro s value s' hs hexec
    have hsame : SameRounds s s' := sameRounds_of_exec hexec rfl nofun fun _ _ => nofun
    have hs' : Lockstep s' ∧ s'.mem .guiRoundCmd = r :=
      ⟨hs.1.congr hsame, hsame.command.trans hs.2⟩
    refine ⟨⟨commands_of_same hsame (calls_of_exec hexec) fun _ => nofun,
      fun u hu => calls_of_exec_of_ne hexec hu⟩, ?_⟩
    obtain rfl : value = s.mem .guiRoundDone := by
      obtain ⟨s₁, heffect, -⟩ := hexec
      exact heffect.1
    split_ifs with hfew
    · refine safe_main_inert_bind (only_call ⟨rfl, by simp⟩) hP hlock hs' fun up s hs => ?_
      split_ifs
      · exact ⟨nofun, hs.1⟩
      · exact safe_main_inert_bind (only_call ⟨rfl, by simp⟩) hP hlock hs fun _ s hs => ih hs
    · have hall := hs.1.allArrived (Int.not_lt.1 hfew)
      exact ⟨fun _ => ⟨hs'.1, hs'.2, hall.congr hsame⟩, hs'.1⟩

/-- A call of the main thread in the rounds. -/
theorem Lockstep.of_main (h : Lockstep s) (hcalls : ∀ u, u ≠ .main → s'.calls u = s.calls u)
    (hcmd : s.mem .guiRoundCmd ≤ s'.mem .guiRoundCmd)
    (hnear : ∀ p < guiProducerThreads, s'.mem .guiRoundCmd - 1 ≤ s.rounds p)
    (hdone : s'.mem .guiRoundDone = arrived s' ∨ AllArrived s' ∧ s'.mem .guiRoundDone = 0)
    (hcompleted : ∀ r, lastCompleted (s'.calls .main) = some r →
      s'.mem .guiRoundCmd = r ∧ AllArrived s') : Lockstep s' where
  begun p hp := by
    rw [Shared.rounds, hcalls (.producer p) nofun]
    refine (h.begun p hp).imp_right fun hin => ⟨hin.1, ?_⟩
    exact Int.le_trans hin.2 hcmd
  near p hp := by
    rw [Shared.rounds, hcalls (.producer p) nofun]
    exact ⟨hnear p hp, Int.le_trans (h.near p hp).2 hcmd⟩
  done := hdone
  completed := hcompleted

theorem rounds_of_main (hcalls : ∀ u, u ≠ .main → s'.calls u = s.calls u) (p : ℕ) :
    s'.rounds p = s.rounds p := congrArg counted (hcalls (.producer p) nofun)

/-- **The count is set back** while nobody is in a round. -/
theorem safe_reset {r : ℤ} {f : Unit → Prog α} (hs : Idle r s)
    (h : ∀ s, Idle r s ∧ s.mem .guiRoundDone = 0 → Safe exec .main (commandSpec Q) (f ()) s) :
    Safe exec .main (commandSpec Q) (store .guiRoundDone 0 >>= f) s := by
  refine safe_call_bind (Call.store .guiRoundDone 0) (Idle r) hs (mainStable_idle r) ?_
  intro s x s' hs hexec
  have hcalls := calls_of_exec hexec
  have hothers : ∀ u, u ≠ .main → s'.calls u = s.calls u :=
    fun u hu => calls_of_exec_of_ne hexec hu
  have hword : s'.mem .guiRoundCmd = s.mem .guiRoundCmd :=
    mem_of_exec hexec (fun v hv => by simp at hv) fun _ => nofun
  have hzero : s'.mem .guiRoundDone = 0 := mem_of_store hexec
  have hall : AllArrived s' := by
    intro p hp
    rw [rounds_of_main hothers, hword]
    exact hs.all p hp
  have hlock : Lockstep s' := by
    refine hs.lockstep.of_main hothers (Int.le_of_eq hword.symm) ?_ (.inr ⟨hall, hzero⟩) ?_
    · rw [hword]
      exact fun p hp => (hs.lockstep.near p hp).1
    · intro r' hr'
      rw [hcalls, lastCompleted_snoc _ (by simp) (by simp)] at hr'
      exact ⟨hword.trans (hs.lockstep.completed r' hr').1, hall⟩
  refine ⟨⟨⟨fun _ => hlock, Int.le_of_eq hword.symm, fun r' hr' => ?_⟩, hothers⟩,
    h s' ⟨⟨hlock, hword.trans hs.command, hall⟩, hzero⟩⟩
  have hcons := List.append_cancel_left (hcalls.symm.trans hr')
  simp at hcons

/-- **The next command.** -/
theorem safe_command {r : ℤ} {f : Unit → Prog α} (hs : Idle r s ∧ s.mem .guiRoundDone = 0)
    (h : ∀ s, Lockstep s ∧ s.mem .guiRoundCmd = r + 1 →
      Safe exec .main (commandSpec Q) (f ()) s) :
    Safe exec .main (commandSpec Q) (store .guiRoundCmd (r + 1) >>= f) s := by
  refine safe_call_bind (Call.store .guiRoundCmd (r + 1))
    (fun s => Idle r s ∧ s.mem .guiRoundDone = 0) hs ?_ ?_
  · intro s s' hs hleaves
    exact ⟨mainStable_idle r s s' hs.1 hleaves, (hleaves.idle hs.1.all).2.trans hs.2⟩
  rintro s x s' ⟨hs, hdone⟩ hexec
  have hcalls := calls_of_exec hexec
  have hothers : ∀ u, u ≠ .main → s'.calls u = s.calls u :=
    fun u hu => calls_of_exec_of_ne hexec hu
  have hsame : s'.mem .guiRoundDone = s.mem .guiRoundDone :=
    mem_of_exec hexec (fun v hv => by simp at hv) fun _ => nofun
  have hword : s'.mem .guiRoundCmd = r + 1 := mem_of_store hexec
  have hrounds : ∀ p < guiProducerThreads, (s'.rounds p : ℤ) = r := by
    intro p hp
    rw [rounds_of_main hothers, hs.all p hp, hs.command]
  have hnone : arrived s' = 0 := by
    refine List.countP_eq_zero.2 fun p hp => ?_
    rw [decide_eq_true_iff, hrounds p (List.mem_range.1 hp), hword]
    omega
  have hcmd := hs.command
  have hlock : Lockstep s' := by
    refine hs.lockstep.of_main hothers (by omega) (fun p hp => ?_) (.inl ?_) ?_
    · have hp' := hs.all p hp
      omega
    · rw [hsame, hdone, hnone]
      rfl
    · intro r' hr'
      rw [hcalls] at hr'
      simp [lastCompleted] at hr'
  refine ⟨⟨⟨fun _ => hlock, by omega, fun r' hr' => ?_⟩, hothers⟩, h s' ⟨hlock, hword⟩⟩
  have hcons := List.append_cancel_left (hcalls.symm.trans hr')
  simp at hcons

/-- **The end of a round.** -/
theorem safe_complete {r : ℤ} {f : Unit → Prog α} (hs : Idle r s)
    (h : ∀ s, Idle r s → Safe exec .main (commandSpec Q) (f ()) s) :
    Safe exec .main (commandSpec Q) (assign .completedRounds r >>= f) s := by
  refine safe_call_bind (Call.assign .completedRounds r) (Idle r) hs (mainStable_idle r) ?_
  intro s x s' hs hexec
  have hcalls := calls_of_exec hexec
  have hothers : ∀ u, u ≠ .main → s'.calls u = s.calls u :=
    fun u hu => calls_of_exec_of_ne hexec hu
  have hword : s'.mem .guiRoundCmd = s.mem .guiRoundCmd :=
    mem_of_exec hexec (fun _ => nofun) fun _ => nofun
  have hsame : s'.mem .guiRoundDone = s.mem .guiRoundDone :=
    mem_of_exec hexec (fun _ => nofun) fun _ => nofun
  have hrounds : ∀ p, s'.rounds p = s.rounds p := rounds_of_main hothers
  have hall : AllArrived s' := by
    intro p hp
    rw [hrounds, hword]
    exact hs.all p hp
  have harrived : arrived s' = arrived s := by
    simp only [arrived, hrounds, hword]
  have hlock : Lockstep s' := by
    refine hs.lockstep.of_main hothers (Int.le_of_eq hword.symm) ?_ ?_ ?_
    · rw [hword]
      exact fun p hp => (hs.lockstep.near p hp).1
    · rw [hsame, harrived]
      exact hs.lockstep.done.imp_right fun hidle => ⟨hall, hidle.2⟩
    · intro r' hr'
      have hr : r = r' := by
        rw [hcalls] at hr'
        simpa [lastCompleted] using hr'
      exact ⟨hword.trans (hs.command.trans hr), hall⟩
  refine ⟨⟨⟨fun _ => hlock, Int.le_of_eq hword.symm, fun r' hr' => ?_⟩, hothers⟩,
    h s' ⟨hlock, hword.trans hs.command, hall⟩⟩
  have hcons := List.append_cancel_left (hcalls.symm.trans hr')
  obtain rfl : r = r' := by simpa using hcons
  exact ⟨hs.command, hs.all⟩

/-- **The rounds of the main thread.** -/
theorem safe_commandRounds (fuel m round : ℕ) (hs : Idle (round : ℤ) s) :
    Safe exec .main (commandSpec fun _ s => Lockstep s) (guiRounds fuel m (round + 1)) s := by
  induction m generalizing s round with
  | zero => exact hs.lockstep
  | succ m ih =>
    refine safe_reset hs fun s hs => ?_
    refine safe_command hs fun s hs => ?_
    refine safe_main_inert_bind (only_call ⟨rfl, by simp⟩) (mainStable_command _)
      (fun _ h => h.1) hs fun _ s hs => ?_
    refine safe_bind.2 ((safe_waitProducers fuel hs).mono fun arrived s hs => ?_)
    cases arrived with
    | false => exact hs.2
    | true =>
      refine safe_complete (hs.1 rfl) fun s hs => ?_
      refine safe_main_inert_bind (only_call ⟨rfl, by simp⟩) (mainStable_idle _)
        (fun _ h => h.lockstep) hs fun _ s hs => ?_
      exact ih (round + 1) hs

theorem safe_startCommands {expected : ℤ} {fuel : ℕ} {rounds : Prog Unit} (hs : Idle 0 s)
    (hrounds : ∀ s, Idle 0 s → Safe exec .main (commandSpec fun _ s => Lockstep s) rounds s) :
    Safe exec .main (commandSpec fun _ s => Lockstep s) (startRounds expected fuel rounds) s := by
  have hlock : ∀ s, Idle 0 s → Lockstep s := fun _ h => h.lockstep
  refine safe_main_inert_bind (only_waitUntilAtLeast _ _ _) (mainStable_idle 0) hlock hs
    fun ready s hs => ?_
  split_ifs
  · refine safe_main_inert_bind (only_call ⟨rfl, by simp⟩) (mainStable_idle 0) hlock hs
      fun _ s hs => ?_
    exact safe_main_inert_bind (only_call ⟨rfl, by simp⟩) (mainStable_idle 0) hlock hs
      fun _ s hs => hrounds s hs
  · exact hs.lockstep

theorem safe_commandMain (hgui : o.mode = .guihd) (fuel : ℕ) :
    Safe exec .main (commandSpec fun _ _ => True) (entry o fuel .main) .start := by
  have hs : Idle 0 .start := ⟨lockstep_start, rfl, fun _ _ => rfl⟩
  have hlock : MainStable Lockstep := fun _ _ _ hleaves => hleaves.lockstep
  have hstop : ∀ s, Lockstep s → Safe exec .main (commandSpec fun _ _ => True) (do
      stopGuiThreads o
      pure true) s := fun s hs =>
    safe_main_inert_bind (only_stopGuiThreads o) hlock (fun _ h => h) hs fun _ _ _ => trivial
  simp only [entry, hgui]
  refine safe_main_inert_bind (only_call ⟨rfl, by simp⟩) (mainStable_idle 0)
    (fun _ h => h.lockstep) hs fun ok s hs => ?_
  split_ifs
  · refine safe_bind.2 ((safe_startCommands hs fun s hs => ?_).mono fun _ s hs => hstop s hs)
    exact safe_commandRounds fuel o.rounds 0 hs
  · exact hstop s hs.lockstep

/-! ### The first round -/

/-- The threads of the mode `guihd` but the producers. -/
def guiThreads : List Tid :=
  (List.range 200).map .worker ++ ((List.range 8).map .reactor ++ (List.range 24).map .churn)

theorem nodup_guiThreads : guiThreads.Nodup := by
  refine List.nodup_append.2 ⟨?_, List.nodup_append.2 ⟨?_, ?_, ?_⟩, ?_⟩
  · exact List.nodup_range.map fun _ _ h => Tid.worker.inj h
  · exact List.nodup_range.map fun _ _ h => Tid.reactor.inj h
  · exact List.nodup_range.map fun _ _ h => Tid.churn.inj h
  · simp
  · rintro a ha b hb rfl
    obtain ⟨i, -, rfl⟩ := List.mem_map.1 ha
    simp at hb

theorem present_guiThreads (ht : t ∈ guiThreads) : Present (.least .guihd) t := by
  cases t with
  | main => simp [guiThreads] at ht
  | leader => simp [guiThreads] at ht
  | producer => simp [guiThreads] at ht
  | _ => simpa [guiThreads, Present, Options.least, guiReactors] using ht

/-- The main thread, from the set-up to the wait for the producers of the first round. -/
theorem leads_firstCommand {m : Word → ℤ} (hready : 234 ≤ m .readyCount) : ∃ m',
    Leads .main (entry (.least .guihd) 2 .main) m (do
      let _ ← (do
        if ← waitUntilAtLeast .guiRoundDone guiProducerThreads 2 then
          assign .completedRounds 1
          pause
          guiRounds 2 0 2
        else pure ())
      stopGuiThreads (.least .guihd)
      pure true) m' ∧
    m' .startFlag = 1 ∧ m' .guiRoundCmd = 1 ∧ m' .guiRoundDone = 0 ∧
      m' .stopFlag = m .stopFlag := by
  refine ⟨_, leads_free rfl true ((Leads.bind (Leads.bind
    (leads_waitUntilAtLeast hready 1))).trans (leads_store (leads_free rfl ()
    (leads_store (leads_store (leads_futexWake (leads_refl _ _))))))), ?_, ?_, ?_, ?_⟩
  · rfl
  · rfl
  · rfl
  · rfl

/-- A producer, from the start to the end of the first round. -/
theorem leads_firstRound_producer {m : Word → ℤ} (hstart : m .startFlag = 1)
    (hstop : m .stopFlag = 0) (hcmd : m .guiRoundCmd = 1) (p : ℕ) : ∃ q,
    Leads (.producer p) (do
      awaitStart 2
      commandLoop .guiRoundCmd isRound (producerBody (.least .guihd) p) 2 0) m q
      (Function.update m .guiRoundDone (m .guiRoundDone + 1)) := by
  have hlook : ∀ {k : ℤ → Prog Bool} {q : Prog Bool} {m' : Word → ℤ},
      Leads (.producer p) (k 0) m q m' → Leads (.producer p) (.ask (.load .stopFlag) k) m q m' := by
    intro k q m' h
    refine leads_load ?_
    rw [hstop]
    exact h
  have hload : ∀ {k : ℤ → Prog Bool} {q : Prog Bool} {m' : Word → ℤ},
      Leads (.producer p) (k 1) m q m' →
      Leads (.producer p) (.ask (.load .guiRoundCmd) k) m q m' := by
    intro k q m' h
    refine leads_load ?_
    rw [hcmd]
    exact h
  have hatMost : ∀ {k : Bool → Prog Bool} {q : Prog Bool} {m' : Word → ℤ},
      Leads (.producer p) (k false) m q m' →
      Leads (.producer p) (.ask (.atMost .guiRoundCmd 0) k) m q m' := by
    intro k q m' h
    refine leads_atMost ?_
    rw [hcmd]
    exact h
  -- the round ends at once, and the count says whether the producer wakes the main thread
  exact ⟨_, (leads_awaitStart (hstart ▸ by decide) 1 _).trans
    (hlook (hlook (hatMost (hlook (hload (leads_free rfl () (hlook (leads_free rfl true
      (leads_add (leads_refl _ _))))))))))⟩

/-! ### Every run -/

/-- The specification of each thread in the rounds. -/
def roundSpec : Tid → Spec Call Unit Bool Shared
  | .main => commandSpec fun _ _ => True
  | t => followSpec t fun _ _ => True

theorem roundSpec_of_ne (ht : t ≠ .main) : roundSpec t = followSpec t fun _ _ => True := by
  cases t with
  | main => exact absurd rfl ht
  | _ => rfl

/-- What holds of the rounds in each state of a run. -/
structure InStep (cfg : Config) : Prop where
  lockstep : Lockstep cfg.shared
  safe : ∀ t, Safe exec t (roundSpec t) (cfg.prog t) cfg.shared

theorem inStep_start (hgui : o.mode = .guihd) (fuel : ℕ) : InStep (start o fuel) := by
  refine ⟨lockstep_start, fun t => ?_⟩
  by_cases ht : t = .main
  · subst ht
    exact safe_commandMain hgui fuel
  rw [roundSpec_of_ne ht]
  by_cases hp : ∃ p < guiProducerThreads, t = .producer p
  · obtain ⟨p, hp, rfl⟩ := hp
    exact safe_producer hgui hp fuel
  · have hnone : ∀ p < guiProducerThreads, t ≠ .producer p := fun p hlt heq => hp ⟨p, hlt, heq⟩
    exact safe_of_plain (only_entry hgui ht hnone fuel) ht hnone lockstep_start

/-- **A step of any thread.** -/
theorem InStep.step {cfg cfg' : Config} (h : InStep cfg) (hstep : Step exec t cfg cfg') :
    InStep cfg' := by
  have hlock : (roundSpec t).guar cfg.shared cfg'.shared → Lockstep cfg'.shared := by
    intro hguar
    by_cases ht : t = .main
    · subst ht
      exact hguar.1.lockstep h.lockstep
    · rw [roundSpec_of_ne ht] at hguar
      exact hguar.1.lockstep h.lockstep
  have hrely : ∀ u, u ≠ t → (roundSpec t).guar cfg.shared cfg'.shared →
      (roundSpec u).rely (next (cfg.prog u)) cfg.shared cfg'.shared := by
    intro u hu hguar
    have hlock' := hlock hguar
    by_cases hmain : u = .main
    · subst hmain
      rw [roundSpec_of_ne (Ne.symm hu)] at hguar
      exact ⟨hlock', hguar.1.command, hguar.1.idle h.lockstep⟩
    · rw [roundSpec_of_ne hmain]
      have hboth : cfg.shared.mem .guiRoundCmd ≤ cfg'.shared.mem .guiRoundCmd ∧
          cfg'.shared.calls u = cfg.shared.calls u := by
        by_cases ht : t = .main
        · subst ht
          exact ⟨hguar.1.later, hguar.2 u hu⟩
        · rw [roundSpec_of_ne ht] at hguar
          exact ⟨Int.le_of_eq hguar.1.command.symm, hguar.2 u hu⟩
      exact ⟨hlock', hboth.1, by rw [hboth.2], by rw [hboth.2]⟩
  obtain ⟨hguar, hsafe⟩ := hstep.safe h.safe hrely
    (fun u _ _ _ _ _ => by cases u with | _ => trivial)
    fun u _ _ _ _ _ => by cases u with | _ => trivial
  exact ⟨hlock hguar, hsafe⟩

theorem InStep.run {cfg cfg' : Config} {ok : Tid → Config → Config → Prop} (h : InStep cfg)
    (hrun : Run exec ok cfg cfg') : InStep cfg' := by
  induction hrun with
  | refl => exact h
  | step _ hstep _ ih => exact ih.step hstep

/-- The wait for round `r` has ended, and the next command was not given. -/
def Completed (cfg : Config) (r : ℤ) : Prop :=
  next (cfg.prog .main) = some (.assign .completedRounds r) ∨
    lastCompleted (cfg.shared.calls .main) = some r

/-- **Every producer is done when the wait ends.**  In every run, from the end of the wait for
round `r` up to the next command, every producer has begun each round from 1 to `r` once, has
counted each and has begun no other one.  And in every state `gui_round_done` is the number of
producers that have counted the round of the command, unless it was set back when all had. -/
theorem every_producer_done {o : Options} (hgui : o.mode = .guihd) {fuel : ℕ} {cfg : Config}
    (hrun : Run exec anyStep (start o fuel) cfg) :
    (∀ r, Completed cfg r → ∀ p < guiProducerThreads,
      begun (cfg.shared.calls (.producer p)) = roundsTo r.toNat ∧
        (counted (cfg.shared.calls (.producer p)) : ℤ) = r) ∧
    (cfg.shared.mem .guiRoundDone = arrived cfg.shared ∨
      AllArrived cfg.shared ∧ cfg.shared.mem .guiRoundDone = 0) := by
  have hin := (inStep_start hgui fuel).run hrun
  refine ⟨fun r hr p hp => ?_, hin.lockstep.done⟩
  have hall : cfg.shared.mem .guiRoundCmd = r ∧ AllArrived cfg.shared := by
    rcases hr with hnext | hlast
    · -- the next call is possible, and the main thread guarantees what it tells
      have hmain := hin.safe .main
      rcases hprog : cfg.prog .main with a | e | _ | ⟨c, k⟩
      · simp [hprog, next] at hnext
      · simp [hprog, next] at hnext
      · simp [hprog, next] at hnext
      · rw [hprog] at hnext hmain
        obtain rfl : c = .assign .completedRounds r := Option.some.inj hnext
        have hcall := hmain cfg.shared .refl () _ ⟨cfg.shared, rfl, rfl⟩
        exact hcall.1.1.completes r calls_called_self
    · exact hin.lockstep.completed r hlast
  have hrounds : (cfg.shared.rounds p : ℤ) = r := (hall.2 p hp).trans hall.1
  refine ⟨?_, hrounds⟩
  rw [hin.lockstep.begun_of_allArrived hall.2 hp, ← hrounds, Int.toNat_natCast]

/-- Both producers are done with the first round. -/
theorem every_producer_done_first : ∃ cfg : Config,
    Run exec anyStep (start (.least .guihd) 2) cfg ∧ Completed cfg 1 ∧
      ∀ p < guiProducerThreads, begun (cfg.shared.calls (.producer p)) = [1] ∧
        counted (cfg.shared.calls (.producer p)) = 1 := by
  have hstart : Reached anyStep (start (.least .guihd) 2) (ready (fun _ => 0) 0)
      (entry (.least .guihd) 2) :=
    ⟨.start, (ready_zero _).symm, fun _ => rfl, .refl _⟩
  have hproducer : ∀ p, Tid.producer p ∉ guiThreads := by simp [guiThreads]
  have hmain : Tid.main ∉ guiThreads := by simp [guiThreads]
  -- all threads are ready, the producers first
  obtain ⟨prog₁, hzero₁, hothers₁, hreached₁⟩ := hstart.alone (t := .producer 0) rfl
    (leads_signalReady _ (fun _ => 0) 0) fun _ _ _ _ => trivial
  obtain ⟨prog₂, hone₂, hothers₂, hreached₂⟩ := hreached₁.alone (t := .producer 1)
    (hothers₁ (.producer 1) (by simp)) (leads_signalReady _ (fun _ => 0) 1)
    fun _ _ _ _ => trivial
  have hrest : ∀ t ∈ guiThreads, prog₂ t = entry (.least .guihd) 2 t := by
    intro t ht
    rw [hothers₂ t (fun h => hproducer 1 (h ▸ ht)), hothers₁ t (fun h => hproducer 0 (h ▸ ht))]
  obtain ⟨loop, -, hreached₃⟩ := reached_ready nodup_guiThreads
    (fun t ht => present_guiThreads ht) hrest (fun _ _ _ _ => trivial) hreached₂
  have hlength : 1 + 1 + guiThreads.length = 234 := by simp [guiThreads]
  rw [hlength] at hreached₃
  -- the command, and each producer does its round
  obtain ⟨m, hcommand, hflag, hcmd, hdone, hstop⟩ :=
    leads_firstCommand (m := ready (fun _ => 0) 234) (Int.le_refl 234)
  obtain ⟨prog₄, hmain₄, hothers₄, hreached₄⟩ := hreached₃.alone (t := .main)
    ((if_neg hmain).trans ((hothers₂ .main (by simp)).trans (hothers₁ .main (by simp))))
    hcommand fun _ _ _ _ => trivial
  obtain ⟨q₀, hround₀⟩ := leads_firstRound_producer hflag hstop hcmd 0
  obtain ⟨prog₅, -, hothers₅, hreached₅⟩ := hreached₄.alone (t := .producer 0)
    ((hothers₄ _ (by simp)).trans ((if_neg (hproducer 0)).trans
      ((hothers₂ _ (by simp)).trans hzero₁))) hround₀ fun _ _ _ _ => trivial
  have hone : (m .guiRoundDone) + 1 = 1 := by rw [hdone, Int.zero_add]
  rw [hone] at hreached₅
  obtain ⟨q₁, hround₁⟩ := leads_firstRound_producer (m := Function.update m .guiRoundDone 1)
    hflag hstop hcmd 1
  obtain ⟨prog₆, -, hothers₆, hreached₆⟩ := hreached₅.alone (t := .producer 1)
    ((hothers₅ _ (by simp)).trans ((hothers₄ _ (by simp)).trans ((if_neg (hproducer 1)).trans
      hone₂))) hround₁ fun _ _ _ _ => trivial
  -- the wait of the main thread ends
  obtain ⟨prog₇, hmain₇, -, s, -, -, hrun⟩ := hreached₆.alone (t := .main)
    ((hothers₆ _ (by simp)).trans ((hothers₅ _ (by simp)).trans hmain₄))
    (Leads.bind (Leads.bind (leads_waitUntilAtLeast (Int.le_refl 2) 1))) fun _ _ _ _ => trivial
  have hcompleted : Completed ⟨s, prog₇⟩ 1 := .inl (congrArg next hmain₇)
  refine ⟨_, hrun, hcompleted, fun p hp => ?_⟩
  obtain ⟨hbegun, hcounted⟩ := (every_producer_done rfl hrun).1 1 hcompleted p hp
  exact ⟨hbegun, Int.ofNat.inj hcounted⟩

end Wakestorm
end V6User
