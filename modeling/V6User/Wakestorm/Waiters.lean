import V6User.Wakestorm.Closed

/-!
# The threads of the wake storm that wait

Every thread of `programs/wakestorm/wakestorm.c` but the main thread keeps what `Wakestorm.Closed`
says of the words (`safe_entry`): most of what they do is `Tame`, the loop before a command is
`safe_commandLoop`, and a leader stores to the words of its workers.
-/

namespace V6User
namespace Wakestorm

open Process Threads

variable {s s' : Shared} {t u : Tid} {c d : Call} {w : Word} {v : ℤ} {o : Options}

/-! ### The threads -/

/-- The specification of another thread than the main thread. -/
def threadSpec (o : Options) (t : Tid) {α : Type} (Q : α → Shared → Prop) :
    Spec Call Unit α Shared :=
  ⟨Relies o t, Keeps o t, Q, fun _ _ => True⟩

/-- The thread waits nowhere. -/
def Ready (o : Options) (t : Tid) (s : Shared) : Prop := Inv o s ∧ ∀ w, t ∉ s.queue w

/-- What a thread knows that neither the others nor its own calls change, but for its stores. -/
structure Stable (o : Options) (t : Tid) (P : Shared → Prop) : Prop where
  relies : ∀ c s s', P s → Relies o t c s s' → P s'
  keeps : ∀ c s s', P s → Keeps o t s s' → s'.calls t = s.calls t ++ [c] →
    (∀ w v, c ≠ .store w v) → P s'

theorem Ready.relies (h : Ready o t s) {c : Option Call} (hrely : Relies o t c s s') :
    Ready o t s' :=
  ⟨hrely.inv, fun w hw => h.2 w (hrely.queue w hw)⟩

variable {α β : Type} {P : Shared → Prop} {Q : α → Shared → Prop}

/-- **A call that changes nothing**, and what the thread knows. -/
theorem safe_silent (ht : t ≠ .main) (hP : Stable o t P) (c : Call) (hc : silent c = true)
    {f : Reply c → Prog α} (hs : Ready o t s ∧ P s)
    (h : ∀ r s, effect t s c r s → Ready o t (s.called t c) → P (s.called t c) →
      Safe exec t (threadSpec o t Q) (f r) (s.called t c)) :
    Safe exec t (threadSpec o t Q) (call c >>= f) s := by
  refine safe_call_bind c (fun s => Ready o t s ∧ P s) hs ?_ ?_
  · exact fun s s' hs hrely => ⟨hs.1.relies hrely, hP.relies _ s s' hs.2 hrely⟩
  · rintro s r s' ⟨hready, hp⟩ ⟨s₁, heffect, rfl⟩
    obtain rfl := effect_of_silent hc heffect
    have hkeeps : Keeps o t s₁ (s₁.called t c) := keeps_silent ht hc
    refine ⟨hkeeps, h r s₁ heffect ⟨hkeeps.inv hready.1, hready.2⟩ ?_⟩
    refine hP.keeps c s₁ _ hp hkeeps calls_called_self ?_
    rintro w v rfl
    exact absurd hc Bool.false_ne_true

theorem safe_load (ht : t ≠ .main) (hP : Stable o t P) (w : Word) {f : ℤ → Prog α}
    (hs : Ready o t s ∧ P s)
    (h : ∀ s, Ready o t s → P s → Safe exec t (threadSpec o t Q) (f (s.mem w)) s) :
    Safe exec t (threadSpec o t Q) (load w >>= f) s := by
  refine safe_silent ht hP (Call.load w) rfl hs fun r s heffect hready hp => ?_
  obtain rfl : r = s.mem w := heffect.1
  exact h _ hready hp

/-- **A count**, on a word that no leader stores to. -/
theorem safe_add (ht : t ≠ .main) (hP : Stable o t P) (w : Word) (hw : mainOnly w = false)
    (hplain : o.mode = .hd → ∀ id, w ≠ .workerSeq id) {f : ℤ → Prog α} (hs : Ready o t s ∧ P s)
    (h : ∀ r s, Ready o t s → P s → Safe exec t (threadSpec o t Q) (f r) s) :
    Safe exec t (threadSpec o t Q) (add w 1 >>= f) s := by
  refine safe_call_bind (Call.add w 1) (fun s => Ready o t s ∧ P s) hs ?_ ?_
  · exact fun s s' hs hrely => ⟨hs.1.relies hrely, hP.relies _ s s' hs.2 hrely⟩
  · rintro s r s' ⟨hready, hp⟩ ⟨s₁, ⟨-, rfl⟩, rfl⟩
    have hkeeps : Keeps o t s ((s.write w (s.mem w + 1)).called t (.add w 1)) :=
      keeps_add ht hw hplain
    refine ⟨hkeeps, h r _ ⟨hkeeps.inv hready.1, hready.2⟩ ?_⟩
    exact hP.keeps _ s _ hp hkeeps calls_called_self fun _ _ => nofun

/-- **A wake.** -/
theorem safe_futexWake (ht : t ≠ .main) (hP : Stable o t P) (w : Word) (nr : ℕ)
    {Q : Unit → Shared → Prop} (hs : Ready o t s ∧ P s)
    (h : ∀ s, Ready o t s → P s → Q () s) :
    Safe exec t (threadSpec o t Q) (futexWake w nr) s := by
  refine safe_call_bind (Call.futexWake w nr) (fun s => Ready o t s ∧ P s) hs ?_ ?_
  · exact fun s s' hs hrely => ⟨hs.1.relies hrely, hP.relies _ s s' hs.2 hrely⟩
  · rintro s r s' ⟨hready, hp⟩ ⟨s₁, ⟨q, hq, -, rfl⟩, rfl⟩
    have hkeeps : Keeps o t s ((s.setQueue w q).called t (.futexWake w nr)) :=
      keeps_futexWake ht hq
    refine ⟨hkeeps, h _ ⟨hkeeps.inv hready.1, fun w' hw' => ?_⟩ ?_⟩
    · change t ∈ (s.setQueue w q).queue w' at hw'
      by_cases heq : w' = w
      · subst heq
        rw [queue_setQueue_self] at hw'
        exact hready.2 w' (hq.mem hw')
      · rw [queue_setQueue_of_ne heq] at hw'
        exact hready.2 w' hw'
    · exact hP.keeps _ s _ hp hkeeps calls_called_self fun _ _ => nofun

/-- The thread is stopped, or has seen no later command than there was. -/
def Behind (o : Options) (w : Word) (seen : ℤ) (s : Shared) : Prop :=
  s.mem .stopFlag ≠ 0 ∨ seen ≤ top o s w

theorem Behind.keeps {seen : ℤ} (h : Behind o w seen s) (hkeeps : Keeps o t s s') :
    Behind o w seen s' := by
  rcases h with h | h
  · refine .inl ?_
    rw [hkeeps.words _ rfl]
    exact h
  · exact .inr (Int.le_trans h (hkeeps.top_le w))

theorem stable_behind (hw : isCommand w = true) (seen : ℤ) : Stable o t (Behind o w seen) where
  relies c s s' h hrely := by
    rcases h with h | h
    · exact .inl (hrely.flag h)
    · exact .inr (Int.le_trans h (hrely.top_le w hw))
  keeps c s s' h hkeeps _ _ := h.keeps hkeeps

theorem Stable.and {P' : Shared → Prop} (h : Stable o t P) (h' : Stable o t P') :
    Stable o t fun s => P s ∧ P' s where
  relies c s s' hs hrely := ⟨h.relies c s s' hs.1 hrely, h'.relies c s s' hs.2 hrely⟩
  keeps c s s' hs hkeeps hcalls hc :=
    ⟨h.keeps c s s' hs.1 hkeeps hcalls hc, h'.keeps c s s' hs.2 hkeeps hcalls hc⟩

/-- What a thread has seen is fresh after it found the stop flag 0. -/
theorem Behind.fresh {seen : ℤ} (h : Behind o w seen s) (hinv : Inv o s)
    (hflag : s.mem .stopFlag = 0) : Fresh o s w seen := by
  refine ⟨h.resolve_left fun hne => hne hflag, fun hclosed => ?_⟩
  exact absurd hflag (hinv.flag.2 hclosed.stopped)

/-- A thread at its word, after it found the stop flag 0. -/
theorem Fresh.relies {c : Option Call} {seen : ℤ} (h : Fresh o s w seen)
    (hw : isCommand w = true) (hc : c = some (.atMost w seen) ∨ c = some (.futexWait w seen))
    (hrely : Relies o t c s s') : Fresh o s' w seen :=
  hrely.fresh w seen hw hc h

/-- **The wait for a word**, of a thread that found the stop flag 0. -/
theorem safe_futexWait (ht : t ≠ .main) (hP : Stable o t P) (hw : waitsOn o t = some w)
    {seen : ℤ} {Q : Unit → Shared → Prop} (hs : Ready o t s ∧ P s ∧ Fresh o s w seen)
    (h : ∀ s, Ready o t s → P s → Behind o w seen s → Q () s) :
    Safe exec t (threadSpec o t Q) (futexWait w seen) s := by
  have hcommand : isCommand w = true := isCommand_of_waitsOn hw
  refine safe_call_bind (Call.futexWait w seen)
    (fun s => Ready o t s ∧ P s ∧ Fresh o s w seen) hs ?_ ?_
  · exact fun s s' hs hrely => ⟨hs.1.relies hrely, hP.relies _ s s' hs.2.1 hrely,
      hs.2.2.relies hcommand (.inr rfl) hrely⟩
  · rintro s r s' ⟨hready, hp, hfresh⟩ ⟨s₁, heffect, rfl⟩
    change if s.mem w = seen then r = true ∧ s₁ = s.setQueue w (s.queue w ++ [t])
      else r = false ∧ s₁ = s at heffect
    split_ifs at heffect with hmem
    · obtain ⟨rfl, rfl⟩ := heffect
      have hkeeps : Keeps o t s ((s.setQueue w (s.queue w ++ [t])).called t (.futexWait w seen)) :=
        keeps_futexWait ht hw hfresh (hready.2 w) hmem
      refine ⟨hkeeps, ?_⟩
      refine safe_call_bind (Call.resume w) (fun s => (Inv o s ∧ ∀ w', w' ≠ w → t ∉ s.queue w') ∧
        P s ∧ Behind o w seen s) ⟨⟨hkeeps.inv hready.1, fun w' hw' => ?_⟩, ?_, ?_⟩ ?_ ?_
      · change t ∉ (s.setQueue w _).queue w'
        rw [queue_setQueue_of_ne hw']
        exact hready.2 w'
      · exact hP.keeps _ s _ hp hkeeps calls_called_self fun _ _ => nofun
      · exact .inr (Int.le_trans hfresh.1 (hkeeps.top_le w))
      · rintro s s' ⟨⟨-, hout⟩, hp, hbehind⟩ hrely
        exact ⟨⟨hrely.inv, fun w' hw' hmem => hout w' hw' (hrely.queue w' hmem)⟩,
          hP.relies _ s s' hp hrely, (stable_behind hcommand seen).relies _ s s' hbehind hrely⟩
      · rintro s r s' ⟨⟨hinv, hout⟩, hp, hbehind⟩ ⟨s₁, ⟨hleft, rfl⟩, rfl⟩
        have hkeeps : Keeps o t s₁ (s₁.called t (.resume w)) := keeps_silent ht rfl
        refine ⟨hkeeps, h _ ⟨hkeeps.inv hinv, fun w' => ?_⟩ ?_ ?_⟩
        · by_cases hw' : w' = w
          · subst hw'
            exact hleft
          · exact hout w' hw'
        · exact hP.keeps _ s₁ _ hp hkeeps calls_called_self fun _ _ => nofun
        · exact (stable_behind hcommand seen).keeps _ s₁ _ hbehind hkeeps calls_called_self
            fun _ _ => nofun
    · obtain ⟨rfl, rfl⟩ := heffect
      have hkeeps : Keeps o t s₁ (s₁.called t (.futexWait w seen)) :=
        Keeps.of_mem_eq (c := .futexWait w seen) ht (fun _ _ => nofun) rfl rfl
          (fun h => ⟨h.nodup, h.waits, h.woken⟩) fun _ _ hu _ => hu
      refine ⟨hkeeps, h _ ⟨hkeeps.inv hready.1, hready.2⟩ ?_ ?_⟩
      · exact hP.keeps _ s₁ _ hp hkeeps calls_called_self fun _ _ => nofun
      · exact .inr (Int.le_trans hfresh.1 (hkeeps.top_le w))

/-- **The loop before a command.** -/
theorem safe_awaitCommand (ht : t ≠ .main) (hP : Stable o t P) (hw : waitsOn o t = some w)
    {seen : ℤ} {fuel : ℕ} {Q : Unit → Shared → Prop}
    (hs : Ready o t s ∧ P s ∧ Behind o w seen s)
    (h : ∀ s, Ready o t s → P s → Behind o w seen s → Q () s) :
    Safe exec t (threadSpec o t Q) (awaitCommand w seen fuel) s := by
  have hcommand : isCommand w = true := isCommand_of_waitsOn hw
  induction fuel generalizing s with
  | zero => exact trivial
  | succ fuel ih =>
    refine safe_load ht (hP.and (stable_behind hcommand seen)) .stopFlag hs fun s hready hp => ?_
    split_ifs with hflag
    · exact h s hready hp.1 hp.2
    -- from here the thread is between its look at the flag and its wait
    have hzero : s.mem .stopFlag = 0 := not_not.1 hflag
    refine safe_call_bind (Call.atMost w seen)
      (fun s => Ready o t s ∧ P s ∧ Fresh o s w seen)
      ⟨hready, hp.1, hp.2.fresh hready.1 hzero⟩ ?_ ?_
    · exact fun s s' hs hrely => ⟨hs.1.relies hrely, hP.relies _ s s' hs.2.1 hrely,
        hs.2.2.relies hcommand (.inl rfl) hrely⟩
    · rintro s r s' ⟨hready, hp, hfresh⟩ ⟨s₁, ⟨-, rfl⟩, rfl⟩
      have hkeeps : Keeps o t s₁ (s₁.called t (.atMost w seen)) := keeps_silent ht rfl
      have hready' : Ready o t (s₁.called t (.atMost w seen)) := ⟨hkeeps.inv hready.1, hready.2⟩
      have hp' := hP.keeps _ s₁ _ hp hkeeps calls_called_self fun _ _ => nofun
      refine ⟨hkeeps, ?_⟩
      cases r with
      | true =>
        have hfresh' := hkeeps.fresh w seen hfresh
        exact safe_bind.2 (safe_futexWait ht hP hw ⟨hready', hp', hfresh'⟩
          fun s hready hp hbehind => ih ⟨hready, hp, hbehind⟩)
      | false => exact h _ hready' hp' (.inr (Int.le_trans hfresh.1 (hkeeps.top_le w)))

/-- **The loop of a thread that gets its commands in a word.**  `J seen` is what the thread
knows besides, and the body keeps it. -/
theorem safe_commandLoop (ht : t ≠ .main) (hw : waitsOn o t = some w)
    {J : ℤ → Shared → Prop} (hJ : ∀ seen, Stable o t (J seen))
    {accepts : ℤ → ℤ → Bool} {body : ℕ → ℤ → Prog Unit}
    (hbody : ∀ fuel seen round s, accepts seen round = true → Ready o t s →
      Behind o w round s → J seen s → (o.mode = .hd → w = .leaderCmd → round ≤ o.rounds) →
      Safe exec t (threadSpec o t fun _ s => Ready o t s ∧ Behind o w round s ∧ J round s)
        (body fuel round) s)
    {fuel : ℕ} {seen : ℤ} {Q : Bool → Shared → Prop}
    (hs : Ready o t s ∧ Behind o w seen s ∧ J seen s) :
    Safe exec t (threadSpec o t Q) (commandLoop w accepts body fuel seen) s := by
  have hcommand : isCommand w = true := isCommand_of_waitsOn hw
  induction fuel generalizing s seen with
  | zero => exact trivial
  | succ fuel ih =>
    have hP := (hJ seen).and (stable_behind (o := o) (t := t) hcommand seen)
    refine safe_load ht hP .stopFlag ⟨hs.1, hs.2.2, hs.2.1⟩ fun s hready hp => ?_
    split_ifs with hflag
    · exact trivial
    refine safe_bind.2 (safe_awaitCommand ht (hJ seen) hw ⟨hready, hp⟩
      fun s hready hj hbehind => ?_)
    refine safe_load ht hP .stopFlag ⟨hready, hj, hbehind⟩ fun s hready hp => ?_
    split_ifs with hflag
    · exact trivial
    refine safe_load ht hP w ⟨hready, hp⟩ fun s hready hp => ?_
    obtain ⟨hj, hbehind⟩ := hp
    have hround : Behind o w (s.mem w) s := by
      by_cases hclosed : Closed s w
      · exact .inl (hready.1.flag.2 hclosed.stopped)
      · exact .inr (Int.le_of_eq (hready.1.open_top w hclosed).symm)
    have hle : o.mode = .hd → w = .leaderCmd → s.mem w ≤ o.rounds := by
      rintro hhd rfl
      exact (hready.1.rounds_le hhd).1
    generalize s.mem w = round at hround hle ⊢
    have hP := (hJ seen).and (stable_behind (o := o) (t := t) hcommand round)
    split
    · rename_i haccepts
      refine safe_silent ht hP (.assign .seen round) rfl ⟨hready, hj, hround⟩
        fun r s _ hready hp => ?_
      refine safe_bind.2 ((hbody fuel seen round _ haccepts hready hp.2 hp.1 hle).mono ?_)
      exact fun _ s hs => ih hs
    · exact ih ⟨hready, hbehind, hj⟩

/-- **A loop over a list**, where `I` is what holds before its last elements. -/
theorem safe_each {S : Spec Call Unit Unit Shared} {ids : List ℕ} {body : ℕ → Prog Unit}
    {I : List ℕ → Shared → Prop}
    (hbody : ∀ i rest s, i :: rest <:+ ids → I (i :: rest) s →
      Safe exec t (S.to fun _ s => I rest s) (body i) s) (hs : I ids s) :
    Safe exec t (S.to fun _ s => I [] s) (each ids body) s := by
  induction ids generalizing s with
  | nil => exact hs
  | cons i rest ih =>
    refine safe_bind.2 ((hbody i rest s List.suffix_rfl hs).mono fun _ s hs => ?_)
    exact ih (fun j later s hlater => hbody j later s (hlater.trans (List.suffix_cons i rest))) hs

/-- A program that waits for no word, and changes none that the leaders store to. -/
def Tame (o : Options) (t : Tid) (p : Prog α) : Prop :=
  ∀ P, Stable o t P → ∀ s, Ready o t s → P s →
    Safe exec t (threadSpec o t fun _ s => Ready o t s ∧ P s) p s

theorem tame_pure (a : α) : Tame o t (pure a) := fun _ _ _ hready hp => ⟨hready, hp⟩

theorem Tame.bind {p : Prog α} {f : α → Prog β} (hp : Tame o t p) (hf : ∀ a, Tame o t (f a)) :
    Tame o t (p >>= f) := by
  intro P hP s hready hs
  refine safe_bind.2 ((hp P hP s hready hs).mono ?_)
  exact fun a s h => hf a P hP s h.1 h.2

theorem tame_silent (ht : t ≠ .main) (c : Call) (hc : silent c = true) :
    Tame o t (call c : Prog (Reply c)) := by
  intro P hP s hready hs
  exact safe_silent ht hP c hc ⟨hready, hs⟩ fun r s _ hready hs => ⟨hready, hs⟩

theorem tame_add (ht : t ≠ .main) (w : Word) (hw : mainOnly w = false)
    (hplain : o.mode = .hd → ∀ id, w ≠ .workerSeq id) : Tame o t (add w 1) := by
  intro P hP s hready hs
  exact safe_add ht hP w hw hplain ⟨hready, hs⟩ fun r s hready hs => ⟨hready, hs⟩

theorem tame_futexWake (ht : t ≠ .main) (w : Word) (nr : ℕ) : Tame o t (futexWake w nr) := by
  intro P hP s hready hs
  exact safe_futexWake ht hP w nr ⟨hready, hs⟩ fun s hready hs => ⟨hready, hs⟩

theorem tame_each {ids : List ℕ} {body : ℕ → Prog Unit} (hbody : ∀ i, Tame o t (body i)) :
    Tame o t (each ids body) := by
  induction ids with
  | nil => exact tame_pure ()
  | cons i rest ih => exact (hbody i).bind fun _ => ih

theorem tame_signalReady (ht : t ≠ .main) : Tame o t signalReady :=
  (tame_add ht .readyCount rfl fun _ _ => nofun).bind fun _ => tame_futexWake ht .readyCount 1

theorem tame_awaitStart (ht : t ≠ .main) (fuel : ℕ) : Tame o t (awaitStart fuel) := by
  induction fuel with
  | zero => exact fun _ _ _ _ _ => trivial
  | succ fuel ih =>
    refine (tame_silent ht (.load .startFlag) rfl).bind fun flag => ?_
    split_ifs
    · exact tame_pure ()
    · exact (tame_silent ht .pause rfl).bind fun _ => ih

theorem tame_workerBody (ht : t ≠ .main) : Tame o t workerBody :=
  (tame_silent ht .pause rfl).bind fun _ =>
    (tame_add ht .quietCount rfl fun _ _ => nofun).bind fun _ => tame_futexWake ht .quietCount 1

theorem tame_workerPipeLoop (ht : t ≠ .main) (id fuel : ℕ) (seen : ℤ) :
    Tame o t (workerPipeLoop id fuel seen) := by
  induction fuel generalizing seen with
  | zero => exact fun _ _ _ _ _ => trivial
  | succ fuel ih =>
    refine (tame_silent ht (.load .stopFlag) rfl).bind fun flag => ?_
    split_ifs
    · exact fun _ _ _ _ _ => trivial
    refine (tame_silent ht (.readPipe id) rfl).bind fun byte => ?_
    cases byte with
    | none => exact (tame_silent ht .pause rfl).bind fun _ => ih seen
    | some byte =>
      dsimp only
      split_ifs with hzero hround
      · exact fun _ _ _ _ _ => trivial
      · refine (tame_silent ht (.assign .seen _) rfl).bind fun _ => ?_
        exact (tame_workerBody ht).bind fun _ => ih _
      · exact ih seen

theorem tame_guiPipeLoop (ht : t ≠ .main) (id : ℕ) {body : Prog Unit} (hbody : Tame o t body)
    (fuel : ℕ) : Tame o t (guiPipeLoop id body fuel) := by
  induction fuel with
  | zero => exact fun _ _ _ _ _ => trivial
  | succ fuel ih =>
    refine (tame_silent ht (.load .stopFlag) rfl).bind fun flag => ?_
    split_ifs
    · exact fun _ _ _ _ _ => trivial
    refine (tame_silent ht (.readPipe id) rfl).bind fun byte => ?_
    cases byte with
    | none => exact (tame_silent ht .pause rfl).bind fun _ => ih
    | some byte =>
      refine (tame_silent ht (.load .stopFlag) rfl).bind fun flag => ?_
      split_ifs
      · exact fun _ _ _ _ _ => trivial
      · exact hbody.bind fun _ => ih

theorem tame_guiChurnLoop (ht : t ≠ .main) (fuel : ℕ) : Tame o t (guiChurnLoop fuel) := by
  induction fuel with
  | zero => exact fun _ _ _ _ _ => trivial
  | succ fuel ih =>
    refine (tame_silent ht (.load .stopFlag) rfl).bind fun flag => ?_
    split_ifs
    · exact fun _ _ _ _ _ => trivial
    refine (tame_silent ht .pause rfl).bind fun _ => ?_
    refine (tame_silent ht (.load .stopFlag) rfl).bind fun flag => ?_
    split_ifs
    · exact fun _ _ _ _ _ => trivial
    · exact (tame_silent ht .pause rfl).bind fun _ => ih

theorem tame_wakeGuiLeaf (ht : t ≠ .main) (hgui : o.mode = .guihd) (id : ℕ) :
    Tame o t (wakeGuiLeaf id) := by
  unfold wakeGuiLeaf
  split_ifs
  · exact tame_silent ht (.writePipe id) rfl
  · refine (tame_add ht (.workerSeq id) rfl fun hhd => ?_).bind fun _ => tame_futexWake ht _ 1
    exact nomatch hgui.symm.trans hhd

theorem tame_wakeGuiReactor (ht : t ≠ .main) (id : ℕ) : Tame o t (wakeGuiReactor id) := by
  unfold wakeGuiReactor
  split_ifs
  · exact tame_silent ht (.writePipe id) rfl
  · exact (tame_add ht (.guiReactorSeq id) rfl fun _ _ => nofun).bind fun _ =>
      tame_futexWake ht _ 1

theorem tame_wakeLeaves (ht : t ≠ .main) (hgui : o.mode = .guihd) (id : ℕ) (base : UInt64)
    (leaves : List ℕ) : Tame o t (wakeLeaves o id base leaves) := by
  induction leaves with
  | nil => exact tame_pure ()
  | cons i rest ih =>
    refine (tame_silent ht (.load .stopFlag) rfl).bind fun flag => ?_
    split_ifs
    · exact tame_pure ()
    · exact (tame_wakeGuiLeaf ht hgui _).bind fun _ => ih

theorem tame_reactorBody (ht : t ≠ .main) (hgui : o.mode = .guihd) (id : ℕ) :
    Tame o t (reactorBody o id) :=
  (tame_silent ht .pause rfl).bind fun _ =>
    (tame_silent ht (.guiLeafCursor _) rfl).bind fun base => tame_wakeLeaves ht hgui id base _

theorem tame_bursts (ht : t ≠ .main) (id : ℕ) (round : ℤ) (fuel burst : ℕ) :
    Tame o t (bursts o id round fuel burst) := by
  induction fuel generalizing burst with
  | zero => exact fun _ _ _ _ _ => trivial
  | succ fuel ih =>
    refine (tame_silent ht (.load .stopFlag) rfl).bind fun flag => ?_
    split_ifs
    · exact tame_pure ()
    refine (tame_silent ht .timeUp rfl).bind fun up => ?_
    cases up with
    | true => exact tame_pure ()
    | false =>
      refine (tame_each fun i => tame_wakeGuiReactor ht _).bind fun _ => ?_
      exact (tame_silent ht .pause rfl).bind fun _ => ih _

theorem tame_producerBody (ht : t ≠ .main) (id fuel : ℕ) (round : ℤ) :
    Tame o t (producerBody o id fuel round) := by
  refine (tame_bursts ht id round fuel 0).bind fun _ => ?_
  refine (tame_add ht .guiRoundDone rfl fun _ _ => nofun).bind fun done => ?_
  split_ifs
  · exact tame_futexWake ht .guiRoundDone 1
  · exact tame_pure ()

/-- The leader has given these workers no later round than `v`. -/
def Gave (o : Options) (ids : List ℕ) (v : ℤ) (s : Shared) : Prop :=
  ∀ i ∈ ids, top o s (.workerSeq i) ≤ v

theorem stable_gave (hhd : o.mode = .hd) {id : ℕ} {ids : List ℕ}
    (hids : ∀ i ∈ ids, i % leaderThreads = id) (v : ℤ) :
    Stable o (.leader id) (Gave o ids v) where
  relies c s s' h hrely i hi := by
    have hv := h i hi
    unfold top at hv ⊢
    rw [hhd] at hv ⊢
    dsimp only at hv ⊢
    rw [hids i hi] at hv ⊢
    rw [hrely.calls]
    exact hv
  keeps c s s' h _ hcalls hc i hi := by
    have hv := h i hi
    unfold top at hv ⊢
    rw [hhd] at hv ⊢
    dsimp only at hv ⊢
    rw [hids i hi] at hv ⊢
    rw [hcalls, lastStored_snoc _ (hc _)]
    exact hv

/-- **The workers of a leader.** -/
theorem safe_wakeWorkers (hhd : o.mode = .hd) {id : ℕ} {ids : List ℕ}
    (hids : ∀ i ∈ ids, i % leaderThreads = id) (hnodup : ids.Nodup) {seen round : ℤ}
    (hlater : seen < round) (hle : round ≤ o.rounds)
    (hs : Ready o (.leader id) s ∧ Behind o .leaderCmd round s ∧ Gave o ids round s ∧
      Gave o ids seen s) :
    Safe exec (.leader id) (threadSpec o (.leader id) fun _ s => Ready o (.leader id) s ∧
      Behind o .leaderCmd round s ∧ Gave o ids round s ∧ Gave o [] seen s)
      (each ids (wakeWorker round)) s := by
  refine safe_each (S := threadSpec o (.leader id) fun _ _ => True) (I := fun rest s =>
    Ready o (.leader id) s ∧ Behind o .leaderCmd round s ∧ Gave o ids round s ∧
      Gave o rest seen s) ?_ hs
  rintro i rest s hsuffix ⟨hready, hbehind, hgave, hleft⟩
  obtain ⟨hi, -⟩ := List.nodup_cons.1 (hnodup.sublist hsuffix.sublist)
  have ht : Tid.leader id ≠ .main := nofun
  have hsub : ∀ j ∈ i :: rest, j % leaderThreads = id := fun j hj => hids j (hsuffix.mem hj)
  have hP := (stable_behind (w := .leaderCmd) rfl round).and ((stable_gave hhd hids round).and
    (stable_gave hhd (fun j hj => hsub j (List.mem_cons_of_mem i hj)) seen))
  have hleft' : Gave o rest seen s := fun j hj => hleft j (List.mem_cons_of_mem i hj)
  unfold wakeWorker
  split_ifs
  · exact safe_silent (f := .done) ht hP (.writePipe i) rfl ⟨hready, hbehind, hgave, hleft'⟩
      fun r s _ hready hp => ⟨hready, hp⟩
  refine safe_call_bind (Call.store (.workerSeq i) round) (fun s => Ready o (.leader id) s ∧
    Behind o .leaderCmd round s ∧ Gave o ids round s ∧ Gave o (i :: rest) seen s)
    ⟨hready, hbehind, hgave, hleft⟩ ?_ ?_
  · rintro s s' ⟨hready, hbehind, hgave, hleft⟩ hrely
    exact ⟨hready.relies hrely, (stable_behind rfl _).relies _ s s' hbehind hrely,
      (stable_gave hhd hids round).relies _ s s' hgave hrely,
      (stable_gave hhd hsub seen).relies _ s s' hleft hrely⟩
  · rintro s r s' ⟨hready, hbehind, hgave, hleft⟩ ⟨s₁, rfl, rfl⟩
    have htop : top o s (.workerSeq i) < round :=
      Int.lt_of_le_of_lt (hleft i List.mem_cons_self) hlater
    have hkeeps := keeps_store (o := o) hhd (hsub i List.mem_cons_self) htop hle
    refine ⟨hkeeps, safe_futexWake ht hP (.workerSeq i) 1
      ⟨⟨hkeeps.inv hready.1, hready.2⟩, hbehind.keeps hkeeps, ?_, ?_⟩
      fun s hready hp => ⟨hready, hp⟩⟩
    · intro j hj
      by_cases hji : j = i
      · subst hji
        exact Int.le_of_eq (top_store_self hhd (hids j hj))
      · rw [top_store_of_ne hji]
        exact hgave j hj
    · intro j hj
      have hji : j ≠ i := fun heq => hi (heq ▸ hj)
      rw [top_store_of_ne hji]
      exact hleft j (List.mem_cons_of_mem i hj)

theorem of_mem_followers {id i : ℕ} (h : i ∈ followers o id) : i % leaderThreads = id :=
  of_decide_eq_true (List.mem_filter.1 h).2

theorem lt_of_isRound {seen round : ℤ} (h : isRound seen round = true) : seen < round := by
  simp only [isRound, Bool.not_eq_true', Bool.or_eq_false_iff, decide_eq_false_iff_not] at h
  omega

theorem safe_leaderBody (hhd : o.mode = .hd) {id : ℕ} {seen round : ℤ} (hlater : seen < round)
    (hle : round ≤ o.rounds) (hs : Ready o (.leader id) s ∧ Behind o .leaderCmd round s ∧
      Gave o (followers o id) seen s) :
    Safe exec (.leader id) (threadSpec o (.leader id) fun _ s =>
      Ready o (.leader id) s ∧ Behind o .leaderCmd round s ∧ Gave o (followers o id) round s)
      (leaderBody o id round) s := by
  obtain ⟨hready, hbehind, hgave⟩ := hs
  have ht : Tid.leader id ≠ .main := nofun
  have hids : ∀ i ∈ followers o id, i % leaderThreads = id := fun _ => of_mem_followers
  have hnodup : (followers o id).Nodup := List.nodup_range.filter _
  have hwake := safe_wakeWorkers hhd hids hnodup hlater hle ⟨hready, hbehind,
    fun i hi => Int.le_trans (hgave i hi) (Int.le_of_lt hlater), hgave⟩
  refine safe_bind.2 (hwake.mono fun _ s hs => ?_)
  obtain ⟨hready, hbehind, hgave, -⟩ := hs
  have hP := (stable_behind (w := .leaderCmd) rfl round).and (stable_gave hhd hids round)
  refine safe_add ht hP .leadersDone rfl (fun _ _ => nofun) ⟨hready, hbehind, hgave⟩
    fun r s hready hp => ?_
  split_ifs
  · exact safe_futexWake ht hP .leadersDone 1 ⟨hready, hp⟩ fun s hready hp => ⟨hready, hp⟩
  · exact ⟨hready, hp⟩

/-! ### The entries -/

theorem stable_true : Stable o t fun _ => True :=
  ⟨fun _ _ _ _ _ => trivial, fun _ _ _ _ _ _ _ => trivial⟩

/-- A thread that signals that it is ready, awaits the start and then gets its commands. -/
theorem safe_started (ht : t ≠ .main) {P : Shared → Prop} (hP : Stable o t P) {fuel : ℕ}
    {loop : Prog Bool} (hs : Ready o t s ∧ P s)
    (hloop : ∀ s, Ready o t s ∧ P s → Safe exec t (threadSpec o t fun _ _ => True) loop s) :
    Safe exec t (threadSpec o t fun _ _ => True) (do signalReady; awaitStart fuel; loop) s := by
  have hsignal := tame_signalReady ht P hP s hs.1 hs.2
  refine safe_bind.2 (hsignal.mono fun _ s hs => safe_bind.2 ?_)
  exact (tame_awaitStart ht fuel P hP s hs.1 hs.2).mono fun _ s hs => hloop s hs

/-- A loop whose body is tame. -/
theorem safe_commandLoop_of_tame (ht : t ≠ .main) (hw : waitsOn o t = some w)
    {accepts : ℤ → ℤ → Bool} {body : ℕ → ℤ → Prog Unit}
    (hbody : ∀ fuel round, Tame o t (body fuel round)) {fuel : ℕ}
    (hs : Ready o t s ∧ Behind o w 0 s) :
    Safe exec t (threadSpec o t fun _ _ => True) (commandLoop w accepts body fuel 0) s := by
  have hcommand : isCommand w = true := isCommand_of_waitsOn hw
  refine safe_commandLoop ht hw (J := fun _ _ => True) (fun _ => stable_true) ?_
    ⟨hs.1, hs.2, trivial⟩
  intro fuel seen round s _ hready hbehind _ _
  refine (hbody fuel round _ (stable_behind hcommand round) s hready hbehind).mono ?_
  exact fun _ s hs => ⟨hs.1, hs.2, trivial⟩

theorem Tame.safe {p : Prog Bool} (h : Tame o t p) (hs : Ready o t s) :
    Safe exec t (threadSpec o t fun _ _ => True) p s :=
  (h _ stable_true s hs trivial).mono fun _ _ _ => trivial

theorem inv_start : Inv o .start where
  nodup w := List.nodup_nil
  waits w t ht := absurd ht List.not_mem_nil
  flag := by
    refine ⟨fun h => absurd rfl h, fun h => ?_⟩
    exact absurd h List.not_mem_nil
  open_top w _ := by
    unfold top
    split
    · rfl
    · rfl
  woken w _ := rfl
  rounds_le hhd := by
    refine ⟨Int.natCast_nonneg _, fun id => ?_⟩
    unfold top
    split
    · exact Int.natCast_nonneg _
    · exact Int.natCast_nonneg _

theorem ready_start : Ready o t .start := ⟨inv_start, fun _ => List.not_mem_nil⟩

theorem top_start : top o .start w = 0 := by
  unfold top
  split
  · rfl
  · rfl

theorem behind_start : Behind o w 0 .start := .inr (Int.le_of_eq top_start.symm)

/-- The entry of a thread whose loop is tame. -/
theorem safe_tame_entry (ht : t ≠ .main) {fuel : ℕ} {loop : Prog Bool} (hloop : Tame o t loop) :
    Safe exec t (threadSpec o t fun _ _ => True) (do signalReady; awaitStart fuel; loop)
      .start :=
  safe_started ht stable_true ⟨ready_start, trivial⟩ fun _ hs => hloop.safe hs.1

/-- The entry of a thread that gets its commands in a word, and has a tame body. -/
theorem safe_command_entry (ht : t ≠ .main) (hw : waitsOn o t = some w)
    {accepts : ℤ → ℤ → Bool} {body : ℕ → ℤ → Prog Unit}
    (hbody : ∀ fuel round, Tame o t (body fuel round)) {fuel : ℕ} :
    Safe exec t (threadSpec o t fun _ _ => True)
      (do signalReady; awaitStart fuel; commandLoop w accepts body fuel 0) .start :=
  safe_started ht (stable_behind (isCommand_of_waitsOn hw) 0) ⟨ready_start, behind_start⟩
    fun _ hs => safe_commandLoop_of_tame ht hw hbody hs

theorem safe_workerEntry {id : ℕ} (hid : id < o.workers) (fuel : ℕ) :
    Safe exec (.worker id) (threadSpec o (.worker id) fun _ _ => True) (workerEntry id fuel)
      .start := by
  have ht : Tid.worker id ≠ .main := nofun
  unfold workerEntry
  split_ifs with hodd
  · exact safe_tame_entry ht (tame_workerPipeLoop ht id fuel 0)
  · have hw : waitsOn o (.worker id) = some (.workerSeq id) := if_pos ⟨hid, by omega⟩
    exact safe_command_entry ht hw fun _ _ => tame_workerBody ht

theorem safe_guiLeafEntry {id : ℕ} (hid : id < o.workers) (fuel : ℕ) :
    Safe exec (.worker id) (threadSpec o (.worker id) fun _ _ => True) (guiLeafEntry id fuel)
      .start := by
  have ht : Tid.worker id ≠ .main := nofun
  have hpause : Tame o (.worker id) pause := tame_silent ht .pause rfl
  unfold guiLeafEntry
  split_ifs with hodd
  · exact safe_tame_entry ht (tame_guiPipeLoop ht id hpause fuel)
  · have hw : waitsOn o (.worker id) = some (.workerSeq id) := if_pos ⟨hid, by omega⟩
    exact safe_command_entry ht hw fun _ _ => hpause

theorem safe_leaderEntry {id : ℕ} (hhd : o.mode = .hd) (hid : id < leaderThreads) (fuel : ℕ) :
    Safe exec (.leader id) (threadSpec o (.leader id) fun _ _ => True) (leaderEntry o id fuel)
      .start := by
  have ht : Tid.leader id ≠ .main := nofun
  have hw : waitsOn o (.leader id) = some .leaderCmd := if_pos ⟨hhd, hid⟩
  have hids : ∀ i ∈ followers o id, i % leaderThreads = id := fun _ => of_mem_followers
  have hgave := fun seen => stable_gave hhd hids seen
  refine safe_started ht ((stable_behind (w := .leaderCmd) rfl 0).and (hgave 0))
    ⟨ready_start, behind_start, fun i _ => Int.le_of_eq top_start⟩ fun s hs => ?_
  refine safe_commandLoop ht hw hgave ?_ hs
  intro fuel seen round s haccepts hready hbehind hj hle
  exact safe_leaderBody hhd (lt_of_isRound haccepts) (hle hhd rfl) ⟨hready, hbehind, hj⟩

theorem safe_guiReactorEntry {id : ℕ} (hgui : o.mode = .guihd) (hid : id < guiReactors)
    (fuel : ℕ) : Safe exec (.reactor id) (threadSpec o (.reactor id) fun _ _ => True)
      (guiReactorEntry o id fuel) .start := by
  have ht : Tid.reactor id ≠ .main := nofun
  have hbody := tame_reactorBody ht hgui id
  unfold guiReactorEntry
  split_ifs with hodd
  · exact safe_tame_entry ht (tame_guiPipeLoop ht id hbody fuel)
  · have hw : waitsOn o (.reactor id) = some (.guiReactorSeq id) :=
      if_pos ⟨hgui, hid, by omega⟩
    exact safe_command_entry ht hw fun _ _ => hbody

/-- **Every other thread is safe from its start.** -/
theorem safe_entry (ht : t ≠ .main) (fuel : ℕ) :
    Safe exec t (threadSpec o t fun _ _ => True) (entry o fuel t) .start := by
  have hnone : Safe exec t (threadSpec o t fun _ _ => True) (pure false) .start := trivial
  cases t with
  | main => exact absurd rfl ht
  | worker id =>
    dsimp only [entry]
    split_ifs with hid
    · cases hmode : o.mode with
      | hd => exact safe_workerEntry hid fuel
      | guihd => exact safe_guiLeafEntry hid fuel
    · exact hnone
  | leader id =>
    dsimp only [entry]
    split_ifs with hid
    · exact safe_leaderEntry hid.1 hid.2 fuel
    · exact hnone
  | churn id =>
    dsimp only [entry]
    split_ifs with hid
    · cases hmode : o.mode with
      | hd =>
        have hw : waitsOn o (.churn id) = some .anchorCmd := if_pos ⟨hmode, hid⟩
        exact safe_command_entry ht hw fun _ _ => tame_silent ht .pause rfl
      | guihd => exact safe_tame_entry ht (tame_guiChurnLoop ht fuel)
    · exact hnone
  | reactor id =>
    dsimp only [entry]
    split_ifs with hid
    · exact safe_guiReactorEntry hid.1 hid.2 fuel
    · exact hnone
  | producer id =>
    dsimp only [entry]
    split_ifs with hid
    · have hw : waitsOn o (.producer id) = some .guiRoundCmd := if_pos hid
      exact safe_command_entry ht hw fun fuel round => tame_producerBody ht id fuel round
    · exact hnone

end Wakestorm
end V6User
