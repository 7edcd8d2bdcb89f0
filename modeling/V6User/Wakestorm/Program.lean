import Mathlib.Data.Int.Init
import Mathlib.Data.List.Basic
import V6User.Base.Threads

/-!
# The threads of the wake storm

`programs/wakestorm/wakestorm.c`: the main thread of the two modes (`main` and `run_guihd`, with
`wait_until_at_least`, `stop_all_threads` and `stop_gui_threads`) and the entries of its other
threads, as programs over the shared words.

A thread waits for a command in a word with `futex_wait`, which puts it into the queue of the
word if the word still has the expected value, and returns when a `futex_wake` has taken it out.
The clock, the sleeps and the pipes may give anything.  What the threads measure, and the words
that only the main thread reads at the end, are left out.
-/

namespace V6User
namespace Wakestorm

open Process

/-! ### The shared words -/

/-- The two modes. -/
inductive Mode
  | hd
  | guihd
  deriving DecidableEq

/-- `MAX_ROUNDS`. -/
def maxRounds : ℕ := 240

/-- The most rounds that a mode can be asked for. -/
def Mode.maxRounds : Mode → ℕ
  | .hd => 20
  | .guihd => Wakestorm.maxRounds

/-- `LEADER_THREADS`. -/
def leaderThreads : ℕ := 2

/-- `GUI_PRODUCER_THREADS`. -/
def guiProducerThreads : ℕ := 2

/-- `DEFAULT_GUI_REACTORS`. -/
def guiReactors : ℕ := 8

/-- What the arguments and the number of processors fix. -/
structure Options where
  mode : Mode
  workers : ℕ
  rounds : ℕ
  targetRunnable : ℕ
  churn : ℕ
  workers_le : 200 ≤ workers ∧ workers ≤ 384
  rounds_le : 1 ≤ rounds ∧ rounds ≤ mode.maxRounds
  target_le : 1 ≤ targetRunnable ∧ targetRunnable ≤ 96
  churn_le : 24 ≤ churn ∧ churn ≤ 32

/-- The words that the threads share. -/
inductive Word
  | startFlag
  | stopFlag
  | readyCount
  | leaderCmd
  | leadersDone
  | anchorCmd
  | guiRoundCmd
  | guiRoundDone
  | quietCount
  | workerSeq (id : ℕ)
  | guiReactorSeq (id : ℕ)
  deriving DecidableEq

/-- The threads.  The workers of the mode `guihd` are its leaves. -/
inductive Tid
  | main
  | worker (id : ℕ)
  | leader (id : ℕ)
  | churn (id : ℕ)
  | reactor (id : ℕ)
  | producer (id : ℕ)
  deriving DecidableEq

/-- The local variables whose values matter. -/
inductive Local
  | seen
  | completedRounds
  deriving DecidableEq

/-- What a thread does.  `atMost` is a load that is compared at once; `futexWait` asks to be put
into the queue, and `resume` returns when the thread is not in it any more; `assign` sets a
local variable; `pause` is any computation, sleep or yield, and `timeUp` a look at the clock. -/
inductive Call
  | load (w : Word)
  | atMost (w : Word) (v : ℤ)
  | store (w : Word) (v : ℤ)
  | add (w : Word) (v : ℤ)
  | futexWait (w : Word) (v : ℤ)
  | resume (w : Word)
  | futexWake (w : Word) (nr : ℕ)
  | assign (x : Local) (v : ℤ)
  | pause
  | timeUp
  | readPipe (id : ℕ)
  | writePipe (id : ℕ)
  | guiLeafCursor (leaves : ℕ)
  | setUp
  deriving DecidableEq

/-- What a call answers. -/
def Reply : Call → Type
  | .load _ | .add _ _ => ℤ
  | .atMost _ _ | .futexWait _ _ | .timeUp | .setUp => Bool
  | .readPipe _ => Option ℕ
  | .guiLeafCursor _ => UInt64
  | _ => Unit

/-- A thread ends with `thread_exit`; the main thread returns whether it stopped the others. -/
abbrev Prog (α : Type) : Type := Process Call Reply Unit α

/-- `atomic_load_int`. -/
def load (w : Word) : Prog ℤ := call (Call.load w)

/-- `atomic_load_int(w) <= v`. -/
def atMost (w : Word) (v : ℤ) : Prog Bool := call (Call.atMost w v)

/-- `atomic_store_int`. -/
def store (w : Word) (v : ℤ) : Prog Unit := call (Call.store w v)

/-- `atomic_add_int`. -/
def add (w : Word) (v : ℤ) : Prog ℤ := call (Call.add w v)

/-- `futex_wait`. -/
def futexWait (w : Word) (v : ℤ) : Prog Unit := do
  let queued : Bool ← call (Call.futexWait w v)
  if queued then call (Call.resume w) else pure ()

/-- `futex_wake`. -/
def futexWake (w : Word) (nr : ℕ) : Prog Unit := call (Call.futexWake w nr)

def assign (x : Local) (v : ℤ) : Prog Unit := call (Call.assign x v)

def pause : Prog Unit := call Call.pause

def timeUp : Prog Bool := call Call.timeUp

def readPipe (id : ℕ) : Prog (Option ℕ) := call (Call.readPipe id)

def writePipe (id : ℕ) : Prog Unit := call (Call.writePipe id)

/-- `atomic_fetch_add_u64(&gui_leaf_cursor, leaves)`. -/
def guiLeafCursor (leaves : ℕ) : Prog UInt64 := call (Call.guiLeafCursor leaves)

/-- The pipes and the threads are made: whether that went well. -/
def setUp : Prog Bool := call Call.setUp

/-- `thread_exit`. -/
def threadExit : Prog Bool := .exit ()

/-- A loop over the elements of a list. -/
def each : List ℕ → (ℕ → Prog Unit) → Prog Unit
  | [], _ => pure ()
  | i :: rest, body => do
    body i
    each rest body

/-! ### The other threads -/

/-- `signal_ready`. -/
def signalReady : Prog Unit := do
  let _ ← add .readyCount 1
  futexWake .readyCount 1

/-- `while (!atomic_load_int(&start_flag)) cpu_yield();` -/
def awaitStart : ℕ → Prog Unit
  | 0 => .stuck
  | fuel + 1 => do
    if (← load .startFlag) ≠ 0 then pure ()
    else
      pause
      awaitStart fuel

/-- `while (!stop_flag && *w <= seen) futex_wait(w, seen);` -/
def awaitCommand (w : Word) (seen : ℤ) : ℕ → Prog Unit
  | 0 => .stuck
  | fuel + 1 => do
    if (← load .stopFlag) ≠ 0 then pure ()
    else if ← atMost w seen then
      futexWait w seen
      awaitCommand w seen fuel
    else pure ()

/-- The loop of a thread that gets its commands in the word `w`.  `accepts seen round` says
whether it does what it finds there, and `body` what that is. -/
def commandLoop (w : Word) (accepts : ℤ → ℤ → Bool) (body : ℕ → ℤ → Prog Unit) :
    ℕ → ℤ → Prog Bool
  | 0, _ => .stuck
  | fuel + 1, seen => do
    if (← load .stopFlag) ≠ 0 then threadExit
    else
      awaitCommand w seen fuel
      if (← load .stopFlag) ≠ 0 then threadExit
      else
        let round ← load w
        if accepts seen round then
          assign .seen round
          body fuel round
          commandLoop w accepts body fuel round
        else commandLoop w accepts body fuel seen

/-- `!(round <= seen || round > MAX_ROUNDS)`. -/
def isRound (seen round : ℤ) : Bool := !(round ≤ seen || round > maxRounds)

/-- What a worker does in a round. -/
def workerBody : Prog Unit := do
  pause
  let _ ← add .quietCount 1
  futexWake .quietCount 1

/-- The loop of a worker with an odd number, which gets its rounds from a pipe. -/
def workerPipeLoop (id : ℕ) : ℕ → ℤ → Prog Bool
  | 0, _ => .stuck
  | fuel + 1, seen => do
    if (← load .stopFlag) ≠ 0 then threadExit
    else match ← readPipe id with
      | none =>
        pause
        workerPipeLoop id fuel seen
      | some byte =>
        let round : ℤ := (byte % 128 : ℕ)
        if round = 0 then threadExit
        else if isRound seen round then
          assign .seen round
          workerBody
          workerPipeLoop id fuel round
        else workerPipeLoop id fuel seen

/-- `worker_entry`. -/
def workerEntry (id fuel : ℕ) : Prog Bool := do
  signalReady
  awaitStart fuel
  if id % 2 = 1 then workerPipeLoop id fuel 0
  else commandLoop (.workerSeq id) isRound (fun _ _ => workerBody) fuel 0

/-- The loop of a leaf or a reactor with an odd number. -/
def guiPipeLoop (id : ℕ) (body : Prog Unit) : ℕ → Prog Bool
  | 0 => .stuck
  | fuel + 1 => do
    if (← load .stopFlag) ≠ 0 then threadExit
    else match ← readPipe id with
      | none =>
        pause
        guiPipeLoop id body fuel
      | some byte =>
        if (← load .stopFlag) ≠ 0 ∨ byte = 0 then threadExit
        else
          body
          guiPipeLoop id body fuel

/-- `gui_leaf_entry`. -/
def guiLeafEntry (id fuel : ℕ) : Prog Bool := do
  signalReady
  awaitStart fuel
  if id % 2 = 1 then guiPipeLoop id pause fuel
  else commandLoop (.workerSeq id) (fun _ _ => true) (fun _ _ => pause) fuel 0

/-- `wake_worker`. -/
def wakeWorker (round : ℤ) (id : ℕ) : Prog Unit :=
  if id % 2 = 1 then writePipe id
  else do
    store (.workerSeq id) round
    futexWake (.workerSeq id) 1

/-- The workers that a leader wakes: `for (int i = id; i < worker_count; i += LEADER_THREADS)`. -/
def followers (o : Options) (id : ℕ) : List ℕ :=
  (List.range o.workers).filter fun i => i % leaderThreads = id

/-- What a leader does in a round. -/
def leaderBody (o : Options) (id : ℕ) (round : ℤ) : Prog Unit := do
  each (followers o id) (wakeWorker round)
  if (← add .leadersDone 1) ≥ leaderThreads then futexWake .leadersDone 1
  else pure ()

/-- `leader_entry`. -/
def leaderEntry (o : Options) (id fuel : ℕ) : Prog Bool := do
  signalReady
  awaitStart fuel
  commandLoop .leaderCmd isRound (fun _ => leaderBody o id) fuel 0

/-- `wake_gui_leaf`. -/
def wakeGuiLeaf (id : ℕ) : Prog Unit :=
  if id % 2 = 1 then writePipe id
  else do
    let _ ← add (.workerSeq id) 1
    futexWake (.workerSeq id) 1

/-- `clamp_int`. -/
def clampInt (val min max : ℕ) : ℕ := if val < min then min else if val > max then max else val

/-- The leaves that a reactor wakes one after the other, until it is stopped. -/
def wakeLeaves (o : Options) (id : ℕ) (base : UInt64) : List ℕ → Prog Unit
  | [] => pure ()
  | i :: rest => do
    if (← load .stopFlag) ≠ 0 then pure ()
    else
      wakeGuiLeaf ((base + .ofNat i * 17 + .ofNat id * 7) % .ofNat o.workers).toNat
      wakeLeaves o id base rest

/-- What a reactor does when it is woken. -/
def reactorBody (o : Options) (id : ℕ) : Prog Unit := do
  pause
  let leavesPerWake := clampInt ((o.targetRunnable + 11) / 12) 2 4
  let base ← guiLeafCursor leavesPerWake
  wakeLeaves o id base (List.range leavesPerWake)

/-- `gui_reactor_entry`. -/
def guiReactorEntry (o : Options) (id fuel : ℕ) : Prog Bool := do
  signalReady
  awaitStart fuel
  if id % 2 = 1 then guiPipeLoop id (reactorBody o id) fuel
  else commandLoop (.guiReactorSeq id) (fun _ _ => true) (fun _ _ => reactorBody o id) fuel 0

/-- `wake_gui_reactor`. -/
def wakeGuiReactor (id : ℕ) : Prog Unit :=
  if id % 2 = 1 then writePipe id
  else do
    let _ ← add (.guiReactorSeq id) 1
    futexWake (.guiReactorSeq id) 1

/-- The bursts of a producer until the end of the round. -/
def bursts (o : Options) (id : ℕ) (round : ℤ) : ℕ → ℕ → Prog Unit
  | 0, _ => .stuck
  | fuel + 1, burst => do
    if (← load .stopFlag) ≠ 0 then pure ()
    else if ← timeUp then pure ()
    else
      let base := (round.toNat + burst * 5 + id * 3) % guiReactors
      each (List.range (clampInt ((o.targetRunnable + 7) / 8) 2 4)) fun i =>
        wakeGuiReactor ((base + i * 3) % guiReactors)
      pause
      bursts o id round fuel (burst + 1)

/-- What a producer does in a round. -/
def producerBody (o : Options) (id fuel : ℕ) (round : ℤ) : Prog Unit := do
  bursts o id round fuel 0
  if (← add .guiRoundDone 1) ≥ guiProducerThreads then futexWake .guiRoundDone 1
  else pure ()

/-- `gui_producer_entry`. -/
def guiProducerEntry (o : Options) (id fuel : ℕ) : Prog Bool := do
  signalReady
  awaitStart fuel
  commandLoop .guiRoundCmd isRound (producerBody o id) fuel 0

/-- `churn_entry`. -/
def churnEntry (fuel : ℕ) : Prog Bool := do
  signalReady
  awaitStart fuel
  commandLoop .anchorCmd (fun seen round => !(round ≤ seen)) (fun _ _ => pause) fuel 0

/-- The loop of `gui_churn_entry`. -/
def guiChurnLoop : ℕ → Prog Bool
  | 0 => .stuck
  | fuel + 1 => do
    if (← load .stopFlag) ≠ 0 then threadExit
    else
      pause
      if (← load .stopFlag) ≠ 0 then threadExit
      else
        pause
        guiChurnLoop fuel

/-- `gui_churn_entry`. -/
def guiChurnEntry (fuel : ℕ) : Prog Bool := do
  signalReady
  awaitStart fuel
  guiChurnLoop fuel

/-! ### The main thread -/

/-- `wait_until_at_least`: whether the word reached the target in time. -/
def waitUntilAtLeast (w : Word) (target : ℤ) : ℕ → Prog Bool
  | 0 => .stuck
  | fuel + 1 => do
    if (← load w) < target then
      if ← timeUp then pure false
      else
        pause
        waitUntilAtLeast w target fuel
    else pure true

/-- `stop_all_threads`. -/
def stopAllThreads (o : Options) : Prog Unit := do
  store .stopFlag 1
  futexWake .leaderCmd leaderThreads
  futexWake .anchorCmd o.churn
  futexWake .quietCount o.workers
  each (List.range o.workers) fun i =>
    if i % 2 = 1 then writePipe i
    else do
      store (.workerSeq i) (o.rounds + 1)
      futexWake (.workerSeq i) 1

/-- `stop_gui_threads`. -/
def stopGuiThreads (o : Options) : Prog Unit := do
  store .stopFlag 1
  futexWake .guiRoundCmd guiProducerThreads
  futexWake .guiRoundDone guiProducerThreads
  each (List.range guiReactors) fun i =>
    if i % 2 = 1 then writePipe i
    else do
      let _ ← add (.guiReactorSeq i) 1
      futexWake (.guiReactorSeq i) 1
  each (List.range o.workers) fun i =>
    if i % 2 = 1 then writePipe i
    else do
      let _ ← add (.workerSeq i) 1
      futexWake (.workerSeq i) 1

/-- The `n` rounds of `main` from `round` on. -/
def hdRounds (o : Options) (fuel : ℕ) : ℕ → ℕ → Prog Unit
  | 0, _ => pure ()
  | n + 1, round => do
    let quietBase ← load .quietCount
    store .leadersDone 0
    store .anchorCmd round
    futexWake .anchorCmd o.churn
    pause
    store .leaderCmd round
    futexWake .leaderCmd leaderThreads
    if ← waitUntilAtLeast .leadersDone leaderThreads fuel then
      if ← waitUntilAtLeast .quietCount (quietBase + o.workers) fuel then
        assign .completedRounds round
        pause
        hdRounds o fuel n (round + 1)
      else pure ()
    else pure ()

/-- The `n` rounds of `run_guihd` from `round` on. -/
def guiRounds (fuel : ℕ) : ℕ → ℕ → Prog Unit
  | 0, _ => pure ()
  | n + 1, round => do
    store .guiRoundDone 0
    store .guiRoundCmd round
    futexWake .guiRoundCmd guiProducerThreads
    if ← waitUntilAtLeast .guiRoundDone guiProducerThreads fuel then
      assign .completedRounds round
      pause
      guiRounds fuel n (round + 1)
    else pure ()

/-- All other threads are awaited, and then the rounds go on. -/
def startRounds (expectedReady : ℤ) (fuel : ℕ) (rounds : Prog Unit) : Prog Unit := do
  if ← waitUntilAtLeast .readyCount expectedReady fuel then
    store .startFlag 1
    pause
    rounds
  else pure ()

/-- `main`, which returns at once if the set-up fails. -/
def mainHd (o : Options) (fuel : ℕ) : Prog Bool := do
  if ← setUp then
    startRounds (o.workers + leaderThreads + o.churn) fuel (hdRounds o fuel o.rounds 1)
    stopAllThreads o
    pure true
  else pure false

/-- `run_guihd`. -/
def runGuihd (o : Options) (fuel : ℕ) : Prog Bool := do
  if ← setUp then
    startRounds (o.workers + guiReactors + guiProducerThreads + o.churn) fuel
      (guiRounds fuel o.rounds 1)
    stopGuiThreads o
    pure true
  else
    stopGuiThreads o
    pure true

/-- What each thread runs.  A thread that there is not does nothing. -/
def entry (o : Options) (fuel : ℕ) : Tid → Prog Bool
  | .main => match o.mode with
    | .hd => mainHd o fuel
    | .guihd => runGuihd o fuel
  | .worker id => if id < o.workers then
      match o.mode with
      | .hd => workerEntry id fuel
      | .guihd => guiLeafEntry id fuel
    else pure false
  | .leader id => if o.mode = .hd ∧ id < leaderThreads then leaderEntry o id fuel else pure false
  | .churn id => if id < o.churn then
      match o.mode with
      | .hd => churnEntry fuel
      | .guihd => guiChurnEntry fuel
    else pure false
  | .reactor id => if o.mode = .guihd ∧ id < guiReactors then guiReactorEntry o id fuel
    else pure false
  | .producer id => if o.mode = .guihd ∧ id < guiProducerThreads then guiProducerEntry o id fuel
    else pure false

/-! ### The steps -/

/-- The words, the threads that wait at each word, and what each thread has called. -/
structure Shared where
  mem : Word → ℤ
  queue : Word → List Tid
  calls : Tid → List Call

def Shared.write (s : Shared) (w : Word) (v : ℤ) : Shared :=
  { s with mem := Function.update s.mem w v }

def Shared.setQueue (s : Shared) (w : Word) (q : List Tid) : Shared :=
  { s with queue := Function.update s.queue w q }

def Shared.called (s : Shared) (t : Tid) (c : Call) : Shared :=
  { s with calls := Function.update s.calls t (s.calls t ++ [c]) }

/-- What a call does to the words and the queues.  `futexWake` takes any `nr` of the threads
that wait, or all if there are not more. -/
def effect (t : Tid) (s : Shared) : (c : Call) → Reply c → Shared → Prop
  | .load w, r, s' => r = s.mem w ∧ s' = s
  | .atMost w v, r, s' => r = decide (s.mem w ≤ v) ∧ s' = s
  | .store w v, _, s' => s' = s.write w v
  | .add w v, r, s' => r = s.mem w + v ∧ s' = s.write w (s.mem w + v)
  | .futexWait w v, r, s' =>
    if s.mem w = v then r = true ∧ s' = s.setQueue w (s.queue w ++ [t]) else r = false ∧ s' = s
  | .resume w, _, s' => t ∉ s.queue w ∧ s' = s
  | .futexWake w nr, _, s' => ∃ q, q.Sublist (s.queue w) ∧
      q.length = (s.queue w).length - nr ∧ s' = s.setQueue w q
  | _, _, s' => s' = s

/-- A call of a thread, which is kept. -/
def exec (t : Tid) (s : Shared) (c : Call) (r : Reply c) (s' : Shared) : Prop :=
  ∃ s₁, effect t s c r s₁ ∧ s' = s₁.called t c

/-- All words are 0, nobody waits and nothing was called. -/
def Shared.start : Shared := ⟨fun _ => 0, fun _ => [], fun _ => []⟩

abbrev Config : Type := Threads.Config Tid Reply Unit Bool Shared

/-- All threads at their start. -/
def start (o : Options) (fuel : ℕ) : Config := ⟨.start, entry o fuel⟩

end Wakestorm
end V6User
