import V6User.Wakestorm.MainThread
import V6User.Wakestorm.Schedule

/-!
# Stopping the threads of the wake storm

What the threads of `programs/wakestorm/wakestorm.c` know of their words is lost by one step
only: the wake of a word that was not changed since the stop, while a thread has seen its value
and the stop flag 0, but does not wait yet.  Without such a step (`Timely`) no thread waits any
more once the main thread has stopped them (`no_thread_waits_after_stop`); with it a thread can
wait for ever (`wake_lost_at_stop`).
-/

namespace V6User
namespace Wakestorm

open Process Threads

variable {t u : Tid} {w : Word} {o : Options}

/-! ### All threads together -/

/-- The specification of each thread. -/
def spec (o : Options) : Tid → Spec Call Unit Bool Shared
  | .main => mainSpec o fun b s => b = true → AllWoken o s
  | t => threadSpec o t fun _ _ => True

theorem spec_of_ne (ht : t ≠ .main) : spec o t = threadSpec o t fun _ _ => True := by
  cases t with
  | main => exact absurd rfl ht
  | _ => rfl

/-- The step is not a wake, after the stop, of a word that was not changed since, while a thread
that has seen its value is about to compare it again or to wait. -/
def Timely (t : Tid) (cfg _cfg' : Config) : Prop :=
  t = .main → ∀ w nr, next (cfg.prog .main) = some (.futexWake w nr) →
    Stopped cfg.shared → ¬Closed cfg.shared w → ∀ u,
      next (cfg.prog u) ≠ some (.atMost w (cfg.shared.mem w)) ∧
      next (cfg.prog u) ≠ some (.futexWait w (cfg.shared.mem w))

/-- What holds in each state of a run. -/
structure Sound (o : Options) (cfg : Config) : Prop where
  inv : Inv o cfg.shared
  safe : ∀ t, Safe exec t (spec o t) (cfg.prog t) cfg.shared

theorem sound_start (o : Options) (fuel : ℕ) : Sound o (start o fuel) := by
  refine ⟨inv_start, fun t => ?_⟩
  by_cases ht : t = .main
  · subst ht
    change Safe exec .main (spec o .main) (entry o fuel .main) .start
    cases hmode : o.mode with
    | hd =>
      simp only [entry, hmode]
      exact safe_mainHd hmode fuel
    | guihd =>
      simp only [entry, hmode]
      exact safe_runGuihd hmode fuel
  · rw [spec_of_ne ht]
    exact safe_entry ht fuel

/-- A call is kept as the last one of its thread. -/
theorem calls_of_step {cfg cfg' : Config} (hstep : Step exec t cfg cfg') :
    ∃ c, next (cfg.prog t) = some c ∧ cfg'.shared.calls t = cfg.shared.calls t ++ [c] := by
  obtain @⟨s, s', prog, c, k, r, hnext, s₁, heffect, rfl⟩ := hstep
  refine ⟨c, ?_, ?_⟩
  · change next (prog t) = some c
    rw [hnext]
    rfl
  · change (s₁.called t c).calls t = s.calls t ++ [c]
    rw [calls_called_self, calls_of_effect heffect]

/-- **A timely step keeps every thread safe.** -/
theorem Sound.step {cfg cfg' : Config} (h : Sound o cfg) (hstep : Step exec t cfg cfg')
    (htimely : Timely t cfg cfg') : Sound o cfg' := by
  have hguar_inv : (spec o t).guar cfg.shared cfg'.shared → Inv o cfg'.shared := by
    intro hguar
    cases t with
    | main => exact MainKeeps.inv hguar h.inv
    | _ => exact Keeps.inv hguar h.inv
  have hrely : ∀ u, u ≠ t → (spec o t).guar cfg.shared cfg'.shared →
      (spec o u).rely (next (cfg.prog u)) cfg.shared cfg'.shared := by
    intro u hu hguar
    by_cases ht : t = .main
    · subst ht
      have hkeeps : MainKeeps o cfg.shared cfg'.shared := hguar
      rw [spec_of_ne hu]
      refine ⟨hguar_inv hguar, hkeeps.flag, hkeeps.top_le, ?_, fun w => hkeeps.queue w u,
        hkeeps.calls u hu⟩
      intro w v hw hnext hfresh
      refine (hkeeps.fresh w v hw hfresh).resolve_right ?_
      rintro ⟨rfl, hopen, hstopped, nr, hcalls⟩
      obtain ⟨c, hc, hcalls'⟩ := calls_of_step hstep
      have hcons := List.append_cancel_left (hcalls'.symm.trans hcalls)
      obtain rfl : c = .futexWake w nr := (List.cons.inj hcons).1
      obtain ⟨hne, hne'⟩ := htimely rfl w nr hc hstopped hopen u
      exact hnext.elim hne hne'
    · rw [spec_of_ne ht] at hguar
      have hkeeps : Keeps o t cfg.shared cfg'.shared := hguar
      have hinv' := hkeeps.inv h.inv
      by_cases hmain : u = .main
      · subst hmain
        exact ⟨hinv', hkeeps.words, hkeeps.calls .main hu⟩
      · rw [spec_of_ne hmain]
        refine ⟨hinv', fun hflag => ?_, fun w _ => hkeeps.top_le w,
          fun w v _ _ => hkeeps.fresh w v, fun w hw => hkeeps.queue w u hw hu,
          hkeeps.calls u hu⟩
        rw [hkeeps.words .stopFlag rfl]
        exact hflag
  have hreturns : ∀ u b s s', (spec o u).returns b s → (spec o u).rely none s s' →
      (spec o u).returns b s' := by
    intro u b s s' hreturns hrely
    cases u with
    | main => exact fun hb t w ht => (woken_congr (MainRelies.calls hrely)).2 (hreturns hb t w ht)
    | _ => trivial
  have hexits : ∀ u e s s', (spec o u).exits e s → (spec o u).rely none s s' →
      (spec o u).exits e s' := by
    intro u e s s' _ _
    cases u with
    | _ => trivial
  obtain ⟨hguar, hsafe⟩ := hstep.safe h.safe hrely hreturns hexits
  exact ⟨hguar_inv hguar, hsafe⟩

theorem Sound.run {cfg cfg' : Config} (h : Sound o cfg) (hrun : Run exec Timely cfg cfg') :
    Sound o cfg' := by
  induction hrun with
  | refl => exact h
  | step _ hstep hok ih => exact ih.step hstep hok

/-- **No thread waits after the stop.**  In every run whose steps are timely, nobody waits for a
word, now or later, once the main thread has stopped the threads. -/
theorem no_thread_waits_after_stop {o : Options} {fuel : ℕ} {cfg : Config}
    (hrun : Run exec Timely (start o fuel) cfg) (hstopped : cfg.prog .main = .done true)
    (w : Word) : cfg.shared.queue w = [] := by
  have hsound := (sound_start o fuel).run hrun
  have hmain := hsound.safe .main
  rw [hstopped] at hmain
  have hwoken : AllWoken o cfg.shared := hmain rfl
  refine List.eq_nil_iff_forall_not_mem.2 fun t ht => ?_
  have hwaits := hsound.inv.waits w t ht
  rw [hsound.inv.woken w (hwoken t w hwaits)] at ht
  exact List.not_mem_nil ht

/-! ### Two runs -/

/-- The least that a mode can be asked for. -/
def Options.least (mode : Mode) : Options where
  mode := mode
  workers := 200
  rounds := 1
  targetRunnable := 1
  churn := 24
  workers_le := by decide
  rounds_le := by
    cases mode with
    | hd => decide
    | guihd => decide
  target_le := by decide
  churn_le := by decide

/-- The main thread, from the set-up to the wait for the leaders of the first round. -/
theorem leads_firstRound {m : Word → ℤ} (hready : 226 ≤ m .readyCount) : ∃ m' q,
    Leads .main (entry (.least .hd) 4 .main) m q m' ∧ m' .startFlag = 1 ∧ m' .anchorCmd = 1 ∧
      m' .leadersDone = 0 ∧ m' .stopFlag = m .stopFlag ∧
      q = (do
        let _ ← (do
          if ← waitUntilAtLeast .leadersDone leaderThreads 4 then
            if ← waitUntilAtLeast .quietCount (m .quietCount + 200) 4 then
              assign .completedRounds 1
              pause
              hdRounds (.least .hd) 4 0 2
            else pure ()
          else pure ())
        stopAllThreads (.least .hd)
        pure true) := by
  refine ⟨_, _, leads_free rfl true ((Leads.bind (Leads.bind
    (leads_waitUntilAtLeast ?_ 3))).trans (leads_store (leads_free rfl () (leads_load
    (leads_store (leads_store (leads_futexWake (leads_free rfl () (leads_store
    (leads_futexWake (leads_refl _ _)))))))))))
    , ?_, ?_, ?_, ?_, ?_⟩
  · exact hready
  · rfl
  · rfl
  · rfl
  · rfl
  · rfl

/-- A churn thread, from the start to the place between its look at the stop flag and its wait,
after it has seen the first round. -/
theorem leads_churn {m : Word → ℤ} (hstart : m .startFlag = 1) (hstop : m .stopFlag = 0)
    (hcmd : m .anchorCmd = 1) : ∃ k k' k'', Leads (.churn 0) (do
        awaitStart 4
        commandLoop .anchorCmd (fun seen round => !(round ≤ seen)) (fun _ _ => pause) 4 0)
        m (.ask (.atMost .anchorCmd 1) k) m ∧
      k true = .ask (.futexWait .anchorCmd 1) k' ∧ k' true = .ask (.resume .anchorCmd) k'' := by
  have hlook : ∀ {k : ℤ → Prog Bool} {q : Prog Bool}, Leads (.churn 0) (k 0) m q m →
      Leads (.churn 0) (.ask (.load .stopFlag) k) m q m := by
    intro k q h
    refine leads_load ?_
    rw [hstop]
    exact h
  have hload : ∀ {k : ℤ → Prog Bool} {q : Prog Bool}, Leads (.churn 0) (k 1) m q m →
      Leads (.churn 0) (.ask (.load .anchorCmd) k) m q m := by
    intro k q h
    refine leads_load ?_
    rw [hcmd]
    exact h
  have hatMost : ∀ {k : Bool → Prog Bool} {q : Prog Bool}, Leads (.churn 0) (k false) m q m →
      Leads (.churn 0) (.ask (.atMost .anchorCmd 0) k) m q m := by
    intro k q h
    refine leads_atMost ?_
    rw [hcmd]
    exact h
  -- the first round, and two more looks at the stop flag
  exact ⟨_, _, _, (leads_awaitStart (hstart ▸ by decide) 3 _).trans
    (hlook (hlook (hatMost (hlook (hload (leads_free rfl () (leads_free rfl ()
      (hlook (hlook (leads_refl _ _)))))))))), rfl, rfl⟩

/-- The threads of the mode `hd` but the first churn thread. -/
def otherThreads : List Tid :=
  (List.range 200).map .worker ++ ((List.range 2).map .leader ++
    (List.range 23).map fun i => .churn (i + 1))

theorem nodup_otherThreads : otherThreads.Nodup := by
  refine List.nodup_append.2 ⟨?_, List.nodup_append.2 ⟨?_, ?_, ?_⟩, ?_⟩
  · exact List.nodup_range.map fun _ _ h => Tid.worker.inj h
  · exact List.nodup_range.map fun _ _ h => Tid.leader.inj h
  · exact List.nodup_range.map fun _ _ h => Nat.succ.inj (Tid.churn.inj h)
  · simp
  · rintro a ha b hb rfl
    obtain ⟨i, -, rfl⟩ := List.mem_map.1 ha
    simp at hb

theorem mem_otherThreads (ht : t ≠ .churn 0) : t ∈ otherThreads ↔ Present (.least .hd) t := by
  cases t with
  | churn id =>
    have hid : id ≠ 0 := fun h => ht (h ▸ rfl)
    obtain ⟨i, rfl⟩ := Nat.exists_eq_succ_of_ne_zero hid
    simp [otherThreads, Present, Options.least]
    omega
  | _ => simp [otherThreads, Present, Options.least, leaderThreads]

/-- The threads get ready, the leaders do not answer in time, and all threads exit. -/
theorem no_thread_waits_after_stop_late : ∃ cfg : Config,
    Run exec Timely (start (.least .hd) 4) cfg ∧ cfg.prog .main = .done true ∧
      (∀ t, Present (.least .hd) t → cfg.prog t = .exit ()) ∧ ∀ w, cfg.shared.queue w = [] := by
  have hmem : ∀ t, t ∈ Tid.churn 0 :: otherThreads ↔ Present (.least .hd) t := by
    intro t
    by_cases ht : t = .churn 0
    · subst ht
      exact iff_of_true List.mem_cons_self (by simp [Present, Options.least])
    · rw [List.mem_cons, or_iff_right ht, mem_otherThreads ht]
  have hmain : Tid.main ∉ Tid.churn 0 :: otherThreads := fun h => (hmem _).1 h
  have hother : ∀ t ∈ Tid.churn 0 :: otherThreads, ∀ cfg cfg' : Config, Timely t cfg cfg' := by
    rintro t ht cfg cfg' rfl
    exact absurd ht hmain
  have hnodup : (Tid.churn 0 :: otherThreads).Nodup :=
    List.nodup_cons.2 ⟨by simp [otherThreads], nodup_otherThreads⟩
  have hstart : Reached Timely (start (.least .hd) 4) (ready (fun _ => 0) 0)
      (entry (.least .hd) 4) :=
    ⟨.start, (ready_zero _).symm, fun _ => rfl, .refl _⟩
  obtain ⟨loop, hlooks, hready⟩ := reached_ready hnodup (fun t ht => (hmem t).1 ht)
    (fun t _ => rfl) hother hstart
  have hlength : 0 + (Tid.churn 0 :: otherThreads).length = 226 := by simp [otherThreads]
  rw [hlength] at hready
  -- the first round, which is late, and the stop
  obtain ⟨m, q, hround, hflag, -, hdone, -, rfl⟩ :=
    leads_firstRound (m := ready (fun _ => 0) 226) (Int.le_refl 226)
  obtain ⟨m', hstopped, hstop, hflag', -⟩ := leads_stopAllThreads (t := .main) (.least .hd) m
  have hlate : m .leadersDone < (leaderThreads : ℤ) := by
    rw [hdone]
    decide
  have hleads : Leads .main (entry (.least .hd) 4 .main) (ready (fun _ => 0) 226) (.done true)
      m' := by
    refine (hround.trans (Leads.bind (Leads.bind (leads_waitUntilAtLeast_late hlate 3)))).trans ?_
    exact Leads.bind hstopped
  -- nobody is about to wait when the words are woken
  obtain ⟨prog, hprog, hothers, hreached⟩ := hready.alone (t := .main) (if_neg hmain) hleads
    fun cfg cfg' hsame _ _ w nr hnext _ _ u => by
      by_cases hu : u = .main
      · subst hu
        rw [hnext]
        exact ⟨nofun, nofun⟩
      · rw [hsame u hu]
        split_ifs with hin
        · exact ⟨nofun, nofun⟩
        · rw [entry_of_absent hu fun h => hin ((hmem u).2 h)]
          exact ⟨nofun, nofun⟩
  have hwaiting : ∀ t ∈ Tid.churn 0 :: otherThreads, prog t = (do awaitStart 4; loop t) := by
    intro t ht
    have hne : t ≠ .main := fun h => hmain (h ▸ ht)
    rw [hothers t hne, if_pos ht]
  obtain ⟨s, -, -, hrun⟩ := reached_exit hnodup hlooks hwaiting hother
    (by rw [hflag', hflag]; decide) (by rw [hstop]; decide) hreached
  have hend : (if Tid.main ∈ Tid.churn 0 :: otherThreads then .exit () else prog .main) =
      .done true := (if_neg hmain).trans hprog
  exact ⟨_, hrun, hend, fun t ht => if_pos ((hmem t).2 ht), no_thread_waits_after_stop hrun hend⟩

/-- Steps of any kind. -/
def anyStep (_ : Tid) (_ _ : Config) : Prop := True

/-- The main thread waits for the leaders of the first round, a churn thread is between its look
at the stop flag and its wait, and all others await the start. -/
theorem reached_window : ∃ (m : Word → ℤ) (prog : Tid → Prog Bool) (loop : Tid → Prog Bool),
    Reached anyStep (start (.least .hd) 4) m prog ∧
    (m .startFlag = 1 ∧ m .stopFlag = 0 ∧ m .anchorCmd = 1 ∧ m .leadersDone = 0) ∧
    (∃ later : Prog Unit, prog .main = (do
      let _ ← (do
        if ← waitUntilAtLeast .leadersDone leaderThreads 4 then later else pure ())
      stopAllThreads (.least .hd)
      pure true)) ∧
    (∃ k k' k'', prog (.churn 0) = .ask (.atMost .anchorCmd 1) k ∧
      k true = .ask (.futexWait .anchorCmd 1) k' ∧ k' true = .ask (.resume .anchorCmd) k'') ∧
    (∀ t ∈ otherThreads, prog t = (do awaitStart 4; loop t) ∧ LooksAtStop (loop t)) ∧
    ∀ t, t ∉ otherThreads → t ≠ .main → t ≠ .churn 0 → prog t = .done false := by
  have hstart : Reached anyStep (start (.least .hd) 4) (ready (fun _ => 0) 0)
      (entry (.least .hd) 4) :=
    ⟨.start, (ready_zero _).symm, fun _ => rfl, .refl _⟩
  have hpresent : ∀ t ∈ otherThreads, t ≠ .churn 0 ∧ Present (.least .hd) t := by
    intro t ht
    have hne : t ≠ .churn 0 := by
      rintro rfl
      simp [otherThreads] at ht
    exact ⟨hne, (mem_otherThreads hne).1 ht⟩
  have hmain : Tid.main ∉ otherThreads := fun h => (hpresent _ h).2
  have hchurn : Tid.churn 0 ∉ otherThreads := fun h => (hpresent _ h).1 rfl
  -- all threads are ready, the churn thread first
  obtain ⟨prog₁, hchurn₁, hothers₁, hreached₁⟩ := hstart.alone (t := .churn 0) rfl
    (leads_signalReady _ (fun _ => 0) 0) fun _ _ _ _ => trivial
  obtain ⟨loop, hlooks, hreached₂⟩ := reached_ready nodup_otherThreads
    (fun t ht => (hpresent t ht).2) (fun t ht => hothers₁ t (hpresent t ht).1)
    (fun _ _ _ _ => trivial) hreached₁
  have hlength : 0 + 1 + otherThreads.length = 226 := by simp [otherThreads]
  rw [hlength] at hreached₂
  -- the first round, and the churn thread sees it
  obtain ⟨m, q, hround, hflag, hcmd, hdone, hstop, rfl⟩ :=
    leads_firstRound (m := ready (fun _ => 0) 226) (Int.le_refl 226)
  obtain ⟨prog₃, hmain₃, hothers₃, hreached₃⟩ := hreached₂.alone (t := .main)
    ((if_neg hmain).trans (hothers₁ .main nofun)) hround fun _ _ _ _ => trivial
  obtain ⟨k, k', k'', hsees, hwait, hresume⟩ := leads_churn hflag hstop hcmd
  obtain ⟨prog₄, hchurn₄, hothers₄, hreached₄⟩ := hreached₃.alone (t := .churn 0)
    ((hothers₃ (.churn 0) nofun).trans ((if_neg hchurn).trans hchurn₁)) hsees fun _ _ _ _ => trivial
  refine ⟨m, prog₄, loop, hreached₄, ⟨hflag, hstop, hcmd, hdone⟩,
    ⟨_, (hothers₄ .main nofun).trans hmain₃⟩,
    ⟨k, k', k'', hchurn₄, hwait, hresume⟩, fun t ht => ⟨?_, hlooks t ht⟩, fun t ht hne hne' => ?_⟩
  · have hne : t ≠ .main := fun h => hmain (h ▸ ht)
    rw [hothers₄ t (hpresent t ht).1, hothers₃ t hne, if_pos ht]
  · rw [hothers₄ t hne', hothers₃ t hne, if_neg ht, hothers₁ t hne']
    exact entry_of_absent hne (fun h => ht ((mem_otherThreads hne').2 h)) 4

/-- **A wake is lost.**  In a run the main thread has stopped the threads, all others have
ended, and a churn thread that had looked at the stop flag before waits for ever. -/
theorem wake_lost_at_stop : ∃ (o : Options) (fuel : ℕ) (cfg : Config),
    Run exec anyStep (start o fuel) cfg ∧ cfg.prog .main = .done true ∧
      .churn 0 ∈ cfg.shared.queue .anchorCmd ∧ ∀ t cfg', ¬Step exec t cfg cfg' := by
  obtain ⟨m, prog, loop, hreached, ⟨hflag, -, hcmd, hdone⟩, ⟨later, hmain⟩,
    ⟨k, k', k'', hchurn, hwait, hresume⟩, hloop, habsent⟩ := reached_window
  -- the main thread stops the threads, and the others end
  obtain ⟨m', hstopped, hstop', hflag', hcmd'⟩ := leads_stopAllThreads (t := .main) (.least .hd) m
  have hlate : m .leadersDone < (leaderThreads : ℤ) := by
    rw [hdone]
    decide
  have hleads : Leads .main (prog .main) m (.done true) m' := by
    rw [hmain]
    refine (Leads.bind (Leads.bind (leads_waitUntilAtLeast_late hlate 3))).trans ?_
    exact Leads.bind hstopped
  obtain ⟨prog₁, hmain₁, hothers₁, hreached₁⟩ := hreached.alone rfl hleads
    fun _ _ _ _ => trivial
  have hother : ∀ t ∈ otherThreads, t ≠ .main := by
    rintro t ht rfl
    simp [otherThreads] at ht
  have hchurn_out : Tid.churn 0 ∉ otherThreads := by simp [otherThreads]
  have hstart : m' .startFlag ≠ 0 := by
    rw [hflag', hflag]
    decide
  have hstop : m' .stopFlag ≠ 0 := by
    rw [hstop']
    decide
  obtain ⟨s, hmem, hqueue, hrun⟩ := reached_exit nodup_otherThreads (fun t ht => (hloop t ht).2)
    (fun t ht => (hothers₁ t (hother t ht)).trans (hloop t ht).1) (fun _ _ _ _ => trivial)
    hstart hstop hreached₁
  -- the churn thread waits
  have hvalue : s.mem .anchorCmd = 1 := by rw [hmem, hcmd', hcmd]
  let s₁ := s.called (.churn 0) (.atMost .anchorCmd 1)
  let s₂ := (s₁.setQueue .anchorCmd (s₁.queue .anchorCmd ++ [.churn 0])).called (.churn 0)
    (.futexWait .anchorCmd 1)
  have hcompare : exec (.churn 0) s (.atMost .anchorCmd 1) true s₁ :=
    ⟨s, ⟨by rw [hvalue]; rfl, rfl⟩, rfl⟩
  have hblock : exec (.churn 0) s₁ (.futexWait .anchorCmd 1) true s₂ := by
    refine ⟨s₁.setQueue .anchorCmd (s₁.queue .anchorCmd ++ [.churn 0]), ?_, rfl⟩
    change if s.mem .anchorCmd = 1 then _ ∧ _ else _
    rw [if_pos hvalue]
    exact ⟨rfl, rfl⟩
  have halone : Alone exec (.churn 0) (.ask (.atMost .anchorCmd 1) k) s (k' true) s₂ := by
    refine .call hcompare ?_
    rw [hwait]
    exact .call hblock (.refl _ _)
  let prog₂ : Tid → Prog Bool := fun u => if u ∈ otherThreads then .exit () else prog₁ u
  have hchurn₂ : prog₂ (.churn 0) = .ask (.atMost .anchorCmd 1) k :=
    (if_neg hchurn_out).trans ((hothers₁ (.churn 0) nofun).trans hchurn)
  rw [← hchurn₂] at halone
  refine ⟨.least .hd, 4, ⟨s₂, Function.update prog₂ (.churn 0) (k' true)⟩,
    hrun.trans (halone.run fun _ _ _ _ => trivial), ?_, ?_, ?_⟩
  · change Function.update prog₂ (.churn 0) (k' true) .main = .done true
    have hne : Tid.main ≠ .churn 0 := nofun
    rw [Function.update_of_ne hne]
    exact (if_neg fun h => hother .main h rfl).trans hmain₁
  · change Tid.churn 0 ∈ (s₁.setQueue .anchorCmd _).queue .anchorCmd
    rw [queue_setQueue_self]
    exact List.mem_append_right _ List.mem_cons_self
  · intro t cfg' hstep
    obtain @⟨_, s', _, c, k₁, r, hnext, s₃, heffect, rfl⟩ := hstep
    by_cases ht : t = .churn 0
    · subst ht
      rw [Function.update_self, hresume] at hnext
      cases hnext
      refine heffect.1 ?_
      change Tid.churn 0 ∈ (s₁.setQueue .anchorCmd _).queue .anchorCmd
      rw [queue_setQueue_self]
      exact List.mem_append_right _ List.mem_cons_self
    · rw [Function.update_of_ne ht] at hnext
      by_cases hin : t ∈ otherThreads
      · exact nomatch (if_pos hin).symm.trans hnext
      have hprog : prog₁ t = .ask c k₁ := (if_neg hin).symm.trans hnext
      by_cases hmain : t = .main
      · subst hmain
        exact nomatch hmain₁.symm.trans hprog
      · exact nomatch (habsent t hin hmain ht).symm.trans ((hothers₁ t hmain).symm.trans hprog)

end Wakestorm
end V6User
