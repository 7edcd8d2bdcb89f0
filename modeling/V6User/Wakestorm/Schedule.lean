import V6User.Wakestorm.Program

/-!
# Runs of the wake storm

Runs of the threads of `programs/wakestorm/wakestorm.c` while nobody waits.  `Leads` says where a
thread comes by its own calls, and how the words are then, and `Leads.reached` makes it a part of
a run.  All threads can signal one after the other that they are ready (`reached_ready`).
-/

namespace V6User
namespace Wakestorm

open Process Threads

variable {t u : Tid} {w : Word} {v : ℤ} {m m' m'' : Word → ℤ} {α β : Type}

/-- From the words `m`, and while nobody waits, the thread comes from `p` to `q`, which leaves
the words `m'`. -/
def Leads (t : Tid) (p : Prog α) (m : Word → ℤ) (q : Prog α) (m' : Word → ℤ) : Prop :=
  ∀ s : Shared, s.mem = m → (∀ w, s.queue w = []) →
    ∃ s' : Shared, Alone exec t p s q s' ∧ s'.mem = m' ∧ ∀ w, s'.queue w = []

theorem leads_refl (p : Prog α) (m : Word → ℤ) : Leads t p m p m :=
  fun s hmem hqueue => ⟨s, .refl p s, hmem, hqueue⟩

theorem Leads.trans {p q r : Prog α} (h : Leads t p m q m') (h' : Leads t q m' r m'') :
    Leads t p m r m'' := by
  intro s hmem hqueue
  obtain ⟨s', hfirst, hmem', hqueue'⟩ := h s hmem hqueue
  obtain ⟨s'', hlater, hend⟩ := h' s' hmem' hqueue'
  exact ⟨s'', hfirst.trans hlater, hend⟩

theorem Leads.bind {p q : Prog α} {f : α → Prog β} (h : Leads t p m q m') :
    Leads t (p >>= f) m (q >>= f) m' := by
  intro s hmem hqueue
  obtain ⟨s', halone, hend⟩ := h s hmem hqueue
  exact ⟨s', halone.bind, hend⟩

/-- A call, and then the rest. -/
theorem leads_call {c : Call} {k : Reply c → Prog α} {q : Prog α} (r : Reply c)
    (hcall : ∀ s : Shared, s.mem = m → (∀ w, s.queue w = []) →
      ∃ s₁, effect t s c r s₁ ∧ s₁.mem = m' ∧ ∀ w, s₁.queue w = [])
    (hlater : Leads t (k r) m' q m'') : Leads t (.ask c k) m q m'' := by
  intro s hmem hqueue
  obtain ⟨s₁, heffect, hmem₁, hqueue₁⟩ := hcall s hmem hqueue
  obtain ⟨s', halone, hend⟩ := hlater (s₁.called t c) hmem₁ hqueue₁
  exact ⟨s', .call ⟨s₁, heffect, rfl⟩ halone, hend⟩

theorem leads_load {k : ℤ → Prog α} {q : Prog α} (hlater : Leads t (k (m w)) m q m') :
    Leads t (.ask (.load w) k) m q m' :=
  leads_call (m w) (fun s hmem hqueue => ⟨s, ⟨by rw [hmem], rfl⟩, hmem, hqueue⟩) hlater

theorem leads_atMost {k : Bool → Prog α} {q : Prog α}
    (hlater : Leads t (k (decide (m w ≤ v))) m q m') : Leads t (.ask (.atMost w v) k) m q m' :=
  leads_call (decide (m w ≤ v)) (fun s hmem hqueue => ⟨s, ⟨by rw [hmem], rfl⟩, hmem, hqueue⟩)
    hlater

theorem leads_store {k : Unit → Prog α} {q : Prog α}
    (hlater : Leads t (k ()) (Function.update m w v) q m') :
    Leads t (.ask (.store w v) k) m q m' :=
  leads_call () (fun s hmem hqueue => ⟨s.write w v, rfl, by rw [← hmem]; rfl, hqueue⟩) hlater

theorem leads_add {k : ℤ → Prog α} {q : Prog α}
    (hlater : Leads t (k (m w + v)) (Function.update m w (m w + v)) q m') :
    Leads t (.ask (.add w v) k) m q m' :=
  leads_call (m w + v) (fun s hmem hqueue =>
    ⟨s.write w (s.mem w + v), ⟨by rw [hmem], rfl⟩, by rw [← hmem]; rfl, hqueue⟩) hlater

theorem leads_futexWake {nr : ℕ} {k : Unit → Prog α} {q : Prog α}
    (hlater : Leads t (k ()) m q m') : Leads t (.ask (.futexWake w nr) k) m q m' := by
  refine leads_call () (fun s hmem hqueue => ⟨s, ⟨[], ?_, ?_, ?_⟩, hmem, hqueue⟩) hlater
  · exact List.nil_sublist _
  · rw [hqueue, List.length_nil, Nat.zero_sub]
  · have hsame : Function.update s.queue w [] = s.queue := by
      rw [← hqueue w, Function.update_eq_self]
    rw [Shared.setQueue, hsame]

/-- A call that may answer anything, and changes nothing. -/
def free : Call → Bool
  | .assign _ _ | .pause | .timeUp | .readPipe _ | .writePipe _ | .guiLeafCursor _ | .setUp => true
  | _ => false

theorem leads_free {c : Call} (hc : free c = true) {k : Reply c → Prog α} {q : Prog α}
    (r : Reply c) (hlater : Leads t (k r) m q m') : Leads t (.ask c k) m q m' := by
  refine leads_call r (fun s hmem hqueue => ⟨s, ?_, hmem, hqueue⟩) hlater
  cases c with
  | load => exact absurd hc Bool.false_ne_true
  | atMost => exact absurd hc Bool.false_ne_true
  | store => exact absurd hc Bool.false_ne_true
  | add => exact absurd hc Bool.false_ne_true
  | futexWait => exact absurd hc Bool.false_ne_true
  | resume => exact absurd hc Bool.false_ne_true
  | futexWake => exact absurd hc Bool.false_ne_true
  | _ => rfl

/-! ### Parts of runs -/

/-- A run comes to the words `m` and the programs `prog`, and nobody waits. -/
def Reached (ok : Tid → Config → Config → Prop) (cfg : Config) (m : Word → ℤ)
    (prog : Tid → Prog Bool) : Prop :=
  ∃ s : Shared, s.mem = m ∧ (∀ w, s.queue w = []) ∧ Run exec ok cfg ⟨s, prog⟩

variable {ok : Tid → Config → Config → Prop} {cfg : Config} {prog : Tid → Prog Bool}

/-- **A thread goes on alone.** -/
theorem Leads.reached {q : Prog Bool} (h : Leads t (prog t) m q m')
    (hok : ∀ cfg cfg', (∀ u, u ≠ t → cfg.prog u = prog u) → Step exec t cfg cfg' →
      ok t cfg cfg') (hreached : Reached ok cfg m prog) :
    Reached ok cfg m' (Function.update prog t q) := by
  obtain ⟨s, hmem, hqueue, hrun⟩ := hreached
  obtain ⟨s', halone, hmem', hqueue'⟩ := h s hmem hqueue
  exact ⟨s', hmem', hqueue', hrun.trans (halone.run hok)⟩

/-- The others stay where they are. -/
theorem Reached.alone {p q : Prog Bool} (hreached : Reached ok cfg m prog) (hprog : prog t = p)
    (h : Leads t p m q m')
    (hok : ∀ cfg cfg', (∀ u, u ≠ t → cfg.prog u = prog u) → Step exec t cfg cfg' →
      ok t cfg cfg') :
    ∃ prog', prog' t = q ∧ (∀ u, u ≠ t → prog' u = prog u) ∧ Reached ok cfg m' prog' := by
  subst hprog
  exact ⟨_, Function.update_self .., fun u hu => Function.update_of_ne hu ..,
    h.reached hok hreached⟩

/-- **Some threads go on alone**, one after the other. -/
theorem reached_each {ts : List Tid} (hnodup : ts.Nodup) {k : Tid → Prog Bool}
    (ms : ℕ → Word → ℤ) (n : ℕ)
    (hleads : ∀ t ∈ ts, ∀ i, Leads t (prog t) (ms i) (k t) (ms (i + 1)))
    (hok : ∀ t ∈ ts, ∀ cfg cfg', ok t cfg cfg') (hreached : Reached ok cfg (ms n) prog) :
    Reached ok cfg (ms (n + ts.length)) fun u => if u ∈ ts then k u else prog u := by
  induction ts generalizing n prog with
  | nil => exact hreached
  | cons t rest ih =>
    obtain ⟨hout, hnodup⟩ := List.nodup_cons.1 hnodup
    have hfirst := (hleads t List.mem_cons_self n).reached
      (fun cfg cfg' _ _ => hok t List.mem_cons_self cfg cfg') hreached
    have hlater : Reached ok cfg (ms (n + 1 + rest.length))
        fun u => if u ∈ rest then k u else Function.update prog t (k t) u :=
      ih hnodup (n + 1) ?_ (fun u hu => hok u (List.mem_cons_of_mem t hu)) hfirst
    · have hprog : (fun u => if u ∈ rest then k u else Function.update prog t (k t) u) =
          fun u => if u ∈ t :: rest then k u else prog u := by
        funext u
        by_cases hut : u = t
        · subst hut
          rw [if_neg hout, if_pos List.mem_cons_self, Function.update_self]
        · simp only [List.mem_cons, hut, false_or, Function.update_of_ne hut]
      rw [hprog, Nat.add_assoc, Nat.add_comm 1] at hlater
      exact hlater
    · intro u hu i
      have hut : u ≠ t := fun heq => hout (heq ▸ hu)
      rw [Function.update_of_ne hut]
      exact hleads u (List.mem_cons_of_mem t hu) i

/-! ### The start and the end of the other threads -/

/-- There is such a thread. -/
def Present (o : Options) : Tid → Prop
  | .main => False
  | .worker id => id < o.workers
  | .leader id => o.mode = .hd ∧ id < leaderThreads
  | .churn id => id < o.churn
  | .reactor id => o.mode = .guihd ∧ id < guiReactors
  | .producer id => o.mode = .guihd ∧ id < guiProducerThreads

/-- A loop that begins with a look at the stop flag, and ends if that is set. -/
def LooksAtStop (loop : Prog Bool) : Prop :=
  ∃ k, loop = .ask (.load .stopFlag) k ∧ ∀ v : ℤ, v ≠ 0 → k v = .exit ()

theorem looksAtStop_commandLoop (w : Word) (accepts : ℤ → ℤ → Bool) (body : ℕ → ℤ → Prog Unit)
    (fuel : ℕ) (seen : ℤ) : LooksAtStop (commandLoop w accepts body (fuel + 1) seen) :=
  ⟨_, rfl, fun _ hv => if_pos hv⟩

theorem looksAtStop_guiPipeLoop (id : ℕ) (body : Prog Unit) (fuel : ℕ) :
    LooksAtStop (guiPipeLoop id body (fuel + 1)) :=
  ⟨_, rfl, fun _ hv => if_pos hv⟩

/-- **Every other thread signals that it is ready, awaits the start, and looks at the stop
flag.** -/
theorem entry_of_present {o : Options} (h : Present o t) (fuel : ℕ) : ∃ loop, LooksAtStop loop ∧
    entry o (fuel + 1) t = (do signalReady; awaitStart (fuel + 1); loop) := by
  cases t with
  | main => exact h.elim
  | worker id =>
    have hid : id < o.workers := h
    cases hmode : o.mode with
    | hd =>
      refine ⟨if id % 2 = 1 then workerPipeLoop id (fuel + 1) 0
        else commandLoop (.workerSeq id) isRound (fun _ _ => workerBody) (fuel + 1) 0, ?_, ?_⟩
      · split_ifs
        · exact ⟨_, rfl, fun _ hv => if_pos hv⟩
        · exact looksAtStop_commandLoop ..
      · dsimp only [entry]
        rw [if_pos hid, hmode]
        rfl
    | guihd =>
      refine ⟨if id % 2 = 1 then guiPipeLoop id pause (fuel + 1)
        else commandLoop (.workerSeq id) (fun _ _ => true) (fun _ _ => pause) (fuel + 1) 0,
        ?_, ?_⟩
      · split_ifs
        · exact looksAtStop_guiPipeLoop ..
        · exact looksAtStop_commandLoop ..
      · dsimp only [entry]
        rw [if_pos hid, hmode]
        rfl
  | leader id => exact ⟨_, looksAtStop_commandLoop .., if_pos h⟩
  | churn id =>
    have hid : id < o.churn := h
    cases hmode : o.mode with
    | hd =>
      refine ⟨_, looksAtStop_commandLoop .anchorCmd (fun seen round => !(round ≤ seen))
        (fun _ _ => pause) fuel 0, ?_⟩
      dsimp only [entry]
      rw [if_pos hid, hmode]
      rfl
    | guihd =>
      refine ⟨guiChurnLoop (fuel + 1), ⟨_, rfl, fun _ hv => if_pos hv⟩, ?_⟩
      dsimp only [entry]
      rw [if_pos hid, hmode]
      rfl
  | reactor id =>
    refine ⟨if id % 2 = 1 then guiPipeLoop id (reactorBody o id) (fuel + 1)
      else commandLoop (.guiReactorSeq id) (fun _ _ => true) (fun _ _ => reactorBody o id)
        (fuel + 1) 0, ?_, if_pos h⟩
    split_ifs
    · exact looksAtStop_guiPipeLoop ..
    · exact looksAtStop_commandLoop ..
  | producer id => exact ⟨_, looksAtStop_commandLoop .., if_pos h⟩

theorem entry_of_absent {o : Options} (ht : t ≠ .main) (h : ¬Present o t) (fuel : ℕ) :
    entry o fuel t = .done false := by
  cases t with
  | main => exact absurd rfl ht
  | _ => exact if_neg h

/-- The words after `n` threads have signalled. -/
def ready (m : Word → ℤ) (n : ℕ) : Word → ℤ :=
  Function.update m .readyCount (m .readyCount + n)

theorem leads_signalReady (p : Prog Bool) (m : Word → ℤ) (n : ℕ) :
    Leads t (do signalReady; p) (ready m n) p (ready m (n + 1)) := by
  refine leads_add (leads_futexWake ?_)
  have hready : Function.update (ready m n) .readyCount (ready m n .readyCount + 1) =
      ready m (n + 1) := by
    rw [ready, ready, Function.update_self, Function.update_idem, Int.add_assoc]
    rfl
  rw [hready]
  exact leads_refl _ _

/-- **Some threads signal that they are ready.** -/
theorem reached_ready {o : Options} {ts : List Tid} (hnodup : ts.Nodup)
    (hpresent : ∀ t ∈ ts, Present o t) {fuel n : ℕ}
    (hprog : ∀ t ∈ ts, prog t = entry o (fuel + 1) t) (hok : ∀ t ∈ ts, ∀ cfg cfg', ok t cfg cfg')
    (hreached : Reached ok cfg (ready m n) prog) : ∃ loop : Tid → Prog Bool,
      (∀ t ∈ ts, LooksAtStop (loop t)) ∧ Reached ok cfg (ready m (n + ts.length)) fun u =>
        if u ∈ ts then (do awaitStart (fuel + 1); loop u) else prog u := by
  have hloop : ∀ t, ∃ loop, t ∈ ts → LooksAtStop loop ∧
      prog t = (do signalReady; awaitStart (fuel + 1); loop) := by
    intro t
    by_cases ht : t ∈ ts
    · obtain ⟨loop, hlooks, hentry⟩ := entry_of_present (hpresent t ht) fuel
      exact ⟨loop, fun _ => ⟨hlooks, (hprog t ht).trans hentry⟩⟩
    · exact ⟨pure false, fun h => absurd h ht⟩
  choose loop hloop using hloop
  refine ⟨loop, fun t ht => (hloop t ht).1, ?_⟩
  refine reached_each hnodup (ready m) n (fun t ht i => ?_) hok hreached
  rw [(hloop t ht).2]
  exact leads_signalReady _ m i

theorem leads_awaitStart (hstart : m .startFlag ≠ 0) (fuel : ℕ) (p : Prog Bool) :
    Leads t (do awaitStart (fuel + 1); p) m p m := by
  refine leads_load (k := fun flag => (if flag ≠ 0 then pure () else do
    pause
    awaitStart fuel) >>= fun _ => p) ?_
  rw [if_pos hstart]
  exact leads_refl _ _

/-- **Some threads that await the start find the stop flag set**, and exit. -/
theorem reached_exit {ts : List Tid} (hnodup : ts.Nodup) {fuel : ℕ} {loop : Tid → Prog Bool}
    (hlooks : ∀ t ∈ ts, LooksAtStop (loop t))
    (hprog : ∀ t ∈ ts, prog t = (do awaitStart (fuel + 1); loop t))
    (hok : ∀ t ∈ ts, ∀ cfg cfg', ok t cfg cfg') (hstart : m .startFlag ≠ 0)
    (hstop : m .stopFlag ≠ 0) (hreached : Reached ok cfg m prog) :
    Reached ok cfg m fun u => if u ∈ ts then .exit () else prog u := by
  refine reached_each (k := fun _ => .exit ()) hnodup (fun _ => m) 0 (fun t ht i => ?_) hok
    hreached
  obtain ⟨k, hloop, hk⟩ := hlooks t ht
  rw [hprog t ht, hloop]
  refine (leads_awaitStart hstart fuel _).trans (leads_load ?_)
  rw [hk _ hstop]
  exact leads_refl _ _

theorem leads_waitUntilAtLeast {target : ℤ} (h : target ≤ m w) (fuel : ℕ) :
    Leads t (waitUntilAtLeast w target (fuel + 1)) m (pure true) m := by
  refine leads_load (k := fun value => if value < target then do
    if ← timeUp then pure false
    else
      pause
      waitUntilAtLeast w target fuel
    else pure true) ?_
  rw [if_neg (Int.not_lt.2 h)]
  exact leads_refl _ _

/-- The time is up. -/
theorem leads_waitUntilAtLeast_late {target : ℤ} (h : m w < target) (fuel : ℕ) :
    Leads t (waitUntilAtLeast w target (fuel + 1)) m (pure false) m := by
  refine leads_load (k := fun value => if value < target then do
    if ← timeUp then pure false
    else
      pause
      waitUntilAtLeast w target fuel
    else pure true) ?_
  rw [if_pos h]
  exact leads_free rfl true (leads_refl _ _)

/-- A loop over a list whose body leaves some words as they are. -/
theorem leads_each {body : ℕ → Prog Unit} (kept : Word → Prop)
    (hbody : ∀ i m, ∃ m', Leads t (body i) m (pure ()) m' ∧ ∀ w, kept w → m' w = m w)
    (ids : List ℕ) (m : Word → ℤ) :
    ∃ m', Leads t (each ids body) m (pure ()) m' ∧ ∀ w, kept w → m' w = m w := by
  induction ids generalizing m with
  | nil => exact ⟨m, leads_refl _ _, fun _ _ => rfl⟩
  | cons i rest ih =>
    obtain ⟨m₁, hfirst, hkept₁⟩ := hbody i m
    obtain ⟨m', hlater, hkept⟩ := ih m₁
    exact ⟨m', (Leads.bind hfirst).trans hlater, fun w hw => (hkept w hw).trans (hkept₁ w hw)⟩

/-- `stop_all_threads` while nobody waits. -/
theorem leads_stopAllThreads (o : Options) (m : Word → ℤ) : ∃ m',
    Leads t (stopAllThreads o) m (pure ()) m' ∧ m' .stopFlag = 1 ∧
      m' .startFlag = m .startFlag ∧ m' .anchorCmd = m .anchorCmd := by
  have hbody : ∀ i m, ∃ m', Leads t (if i % 2 = 1 then writePipe i
      else do
        store (.workerSeq i) (o.rounds + 1)
        futexWake (.workerSeq i) 1) m (pure ()) m' ∧
      ∀ w, w = .stopFlag ∨ w = .startFlag ∨ w = .anchorCmd → m' w = m w := by
    intro i m
    split_ifs
    · exact ⟨m, leads_free rfl () (leads_refl _ _), fun _ _ => rfl⟩
    · refine ⟨_, leads_store (leads_futexWake (leads_refl _ _)), fun w hw => ?_⟩
      refine Function.update_of_ne ?_ ..
      rintro rfl
      exact hw.elim nofun fun hw => hw.elim nofun nofun
  obtain ⟨m', hloop, hkept⟩ := leads_each _ hbody (List.range o.workers)
    (Function.update m .stopFlag 1)
  refine ⟨m', leads_store (leads_futexWake (leads_futexWake (leads_futexWake hloop))), ?_⟩
  refine ⟨?_, ?_, ?_⟩
  · exact hkept _ (.inl rfl)
  · exact hkept _ (.inr (.inl rfl))
  · exact hkept _ (.inr (.inr rfl))

theorem ready_zero (m : Word → ℤ) : ready m 0 = m :=
  (congrArg (Function.update m _) (Int.add_zero _)).trans (Function.update_eq_self ..)

end Wakestorm
end V6User
