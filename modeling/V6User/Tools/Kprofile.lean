import Mathlib.Data.Int.Init
import V6User.Base.Process
import V6User.Shell.Token

/-!
# Profiling a command

`programs/kprofile/kprofile.c`: `main` up to the last `kstatsctl(0)`, with `parse_options`,
`userpc_ctl`, `capture_userpc_state` and `disarm_userpc_if_armed`.  What it prints is left out,
and so are the samples and counters that it keeps for printing.

The program turns the profiling of the kernel on, starts the command in a child, waits for it
and turns the profiling off.  Nothing is assumed about what the calls answer: on every way by
which the parent exits, the profiling of the kernel and of the user code is off again,
and the child of a process group starts the command only after the parent has looked at
the group and armed what was asked for (`main_restores`).
-/

namespace V6User
namespace Tools
namespace Kprofile

open Process
open Shell (Byte)

/-! ### The options -/

/-- What `parse_options` finds. -/
structure Options where
  profilePgroup : Bool
  timeoutMs : UInt64
  userpc : Bool
  userpcPeriod : UInt64
  userpcLimit : UInt64
  vfsEnoentAttr : Bool
  deriving DecidableEq

/-- The options before the first argument. -/
def Options.start : Options := ⟨true, 0, false, 1, 0, false⟩

/-- An argument. -/
def arg (s : String) : List Byte := s.toList.map fun c => .ofNat c.toNat

/-- The loop of `parse_uint_arg`. -/
def parseUintLoop (v : ℕ) : List Byte → Option ℕ
  | [] => some v
  | c :: rest =>
    if c < 48 ∨ 57 < c then none
    else
      let digit := c.toNat - 48
      if v > (2 ^ 64 - 1 - digit) / 10 then none else parseUintLoop (v * 10 + digit) rest

/-- `parse_uint_arg`. -/
def parseUintArg (s : List Byte) : Option UInt64 :=
  if s = [] then none else (parseUintLoop 0 s).map .ofNat

/-- The loop of `parse_options` from the argument with the number `i` on.  `ringCap` is the
`KPROFILE_USERPC_RING_CAP` of the kernel. -/
def parseLoop (ringCap : UInt64) (o : Options) (i : ℕ) :
    List (List Byte) → Option (Options × ℕ)
  | [] => some (o, i)
  | a :: rest =>
    if a = arg "--system-only" ∨ a = arg "--no-pgroup" then
      parseLoop ringCap { o with profilePgroup := false } (i + 1) rest
    else if a = arg "--pgroup" then
      parseLoop ringCap { o with profilePgroup := true } (i + 1) rest
    else if a = arg "--timeout-ms" then
      match rest with
      | [] => none
      | v :: rest => do
        let n ← parseUintArg v
        parseLoop ringCap { o with timeoutMs := n } (i + 2) rest
    else if a = arg "--userpc" then
      parseLoop ringCap { o with userpc := true, profilePgroup := true } (i + 1) rest
    else if a = arg "--userpc-period" then
      match rest with
      | [] => none
      | v :: rest => do
        let n ← parseUintArg v
        if n = 0 ∨ n > 2147483647 then none
        else
          let o := { o with userpcPeriod := n, userpc := true, profilePgroup := true }
          parseLoop ringCap o (i + 2) rest
    else if a = arg "--userpc-limit" then
      match rest with
      | [] => none
      | v :: rest => do
        let n ← parseUintArg v
        if n = 0 ∨ n > ringCap then none
        else
          let o := { o with userpcLimit := n, userpc := true, profilePgroup := true }
          parseLoop ringCap o (i + 2) rest
    else if a = arg "--vfs-enoent-attr" then
      parseLoop ringCap { o with vfsEnoentAttr := true } (i + 1) rest
    else if a = arg "--" then some (o, i + 1)
    else some (o, i)

/-- `parse_options`: the options and the number of the argument with the command. -/
def parseOptions (ringCap : UInt64) (argv : List (List Byte)) : Option (Options × ℕ) := do
  let (o, i) ← parseLoop ringCap .start 1 (argv.drop 1)
  let o := if o.userpc then { o with profilePgroup := true } else o
  if i < argv.length then some (o, i) else none

/-! ### The calls -/

/-- The two pipes between the parent and the child. -/
inductive Pipe
  | ready
  | go
  deriving DecidableEq

/-- The ends of a pipe. -/
inductive End
  | reading
  | writing
  deriving DecidableEq

/-- The calls of the parent and of the child.  `collectMaps` stands for the reads of
`/proc/<pid>/maps` of `collect_userpc_maps_from_snapshot`. -/
inductive Call
  | kstatsctl (enable vfsEnoentAttr : Bool)
  | kstats2
  | pipe (p : Pipe)
  | fork
  | close (p : Pipe) (e : End)
  | read (p : Pipe)
  | write (p : Pipe) (byte : Byte)
  | setpgid (pid pgid : ℤ)
  | kprofilePgroup (pgid : ℤ)
  | kprofileUserpcCtl (enable : Bool) (targetPgid : ℤ) (periodTicks : UInt64)
  | kprofileUserpcSnapshot
  | kprofilePreptyRing
  | kprofileVfsEnoentSnapshot
  | collectMaps
  | malloc
  | waitpid (pid : ℤ) (nohang : Bool)
  | uptime
  | kill (pid sig : ℤ)
  | nanosleep
  | exec (command : ℕ)

/-- What a call answers.  `waitpid` also gives the status if it has one. -/
def Reply : Call → Type
  | .malloc => Bool
  | .waitpid _ _ => ℤ × Option ℤ
  | .uptime => UInt64
  | .collectMaps | .nanosleep => Unit
  | _ => ℤ

/-- A program that ends by `exit`. -/
abbrev Prog (α : Type) : Type := Process Call Reply ℤ α

abbrev History : Type := List (Event Reply)

def kstatsctl (enable vfsEnoentAttr : Bool) : Prog ℤ := call (Call.kstatsctl enable vfsEnoentAttr)

/-- `read_kstats`. -/
def readKstats : Prog ℤ := call Call.kstats2

def pipe (p : Pipe) : Prog ℤ := call (Call.pipe p)

def fork : Prog ℤ := call Call.fork

def close (p : Pipe) (e : End) : Prog ℤ := call (Call.close p e)

def read (p : Pipe) : Prog ℤ := call (Call.read p)

def write (p : Pipe) (byte : Byte) : Prog ℤ := call (Call.write p byte)

def setpgid (pid pgid : ℤ) : Prog ℤ := call (Call.setpgid pid pgid)

/-- `read_pgroup`. -/
def readPgroup (pgid : ℤ) : Prog ℤ := call (Call.kprofilePgroup pgid)

/-- `period_ticks != 0 ? period_ticks : 1`. -/
def ticks (period : UInt64) : UInt64 := if period = 0 then 1 else period

/-- `userpc_ctl`. -/
def userpcCtl (enable : Bool) (pgid : ℤ) (periodTicks : UInt64) : Prog ℤ :=
  call (Call.kprofileUserpcCtl enable (if enable then pgid else 0) (ticks periodTicks))

/-- `read_userpc_ring`. -/
def readUserpcRing : Prog ℤ := call Call.kprofileUserpcSnapshot

def collectMaps : Prog Unit := call Call.collectMaps

def malloc : Prog Bool := call Call.malloc

def waitpid (pid : ℤ) (nohang : Bool) : Prog (ℤ × Option ℤ) := call (Call.waitpid pid nohang)

def uptime : Prog UInt64 := call Call.uptime

def kill (pid sig : ℤ) : Prog ℤ := call (Call.kill pid sig)

/-- `profile_sleep`. -/
def profileSleep : Prog Unit := call Call.nanosleep

def exec (command : ℕ) : Prog ℤ := call (Call.exec command)

/-! ### The program -/

/-- What `main` keeps of the samples of user code: whether it has the memory for the maps, and
for a snapshot, and whether it has a snapshot. -/
structure Samples where
  userpcMaps : Bool
  userpcAfter : Bool
  haveUserpcAfter : Bool

/-- `capture_userpc_snapshot`. -/
def captureUserpcSnapshot (s : Samples) : Prog Samples := do
  let allocated ← if s.userpcAfter then pure true else malloc
  if allocated then
    let r ← readUserpcRing
    pure { s with userpcAfter := true, haveUserpcAfter := s.haveUserpcAfter || r == 0 }
  else pure s

/-- `collect_userpc_maps_from_snapshot`, which needs the maps and the snapshot. -/
def collectUserpcMaps (s : Samples) : Prog Unit :=
  if s.userpcMaps && s.userpcAfter then collectMaps else pure ()

/-- `capture_userpc_state`. -/
def captureUserpcState (s : Samples) : Prog Samples := do
  let s ← captureUserpcSnapshot s
  if s.haveUserpcAfter then collectUserpcMaps s
  pure s

/-- `disarm_userpc_if_armed`: the new value of `userpc_armed`. -/
def disarmUserpcIfArmed (armed : Bool) (periodTicks : UInt64) : Prog Bool := do
  if armed then
    let _ ← userpcCtl false 0 periodTicks
    pure false
  else pure false

/-- Turn the profiling off and exit with status 1. -/
def stop {α : Type} : Prog α := do
  let _ ← kstatsctl false false
  .exit 1

/-- The child in a process group waits until it is told to go on: whether it was. -/
def awaitGo : Prog Unit := do
  let _ ← close .ready .reading
  let _ ← close .go .writing
  let _ ← setpgid 0 0
  if (← write .ready 114) ≠ 1 then .exit 1
  else
    let _ ← close .ready .writing
    if (← read .go) ≠ 1 then .exit 1
    else
      let _ ← close .go .reading
      pure ()

/-- The child. -/
def child (o : Options) (command : ℕ) : Prog Unit := do
  if o.profilePgroup then awaitGo
  let _ ← exec command
  .exit 1

/-- The profiling of the user code is turned on, if it was asked for: the value of
`userpc_armed`. -/
def arm (o : Options) (pid : ℤ) : Prog Bool :=
  if o.userpc then do
    if (← userpcCtl true pid o.userpcPeriod) < 0 then
      let _ ← close .go .writing
      let _ ← waitpid pid false
      stop
    else pure true
  else pure false

/-- What the parent does before the child of a process group may start the command: the value
of `userpc_armed`. -/
def prepare (o : Options) (pid : ℤ) : Prog Bool := do
  let _ ← close .ready .writing
  let _ ← close .go .reading
  if (← read .ready) ≠ 1 then stop
  else
    let _ ← close .ready .reading
    let _ ← setpgid pid pid
    let _ ← readPgroup pid
    let armed ← arm o pid
    if (← write .go 103) ≠ 1 then
      let _ ← disarmUserpcIfArmed armed o.userpcPeriod
      stop
    else
      let _ ← close .go .writing
      pure armed

/-- What the poll loop changes. -/
structure Polling where
  samples : Samples
  armed : Bool
  termSent : Bool
  killSent : Bool
  status : ℤ

/-- The end of the time for the command: the samples are taken, the profiling of the user code
is turned off, and the group gets the signal. -/
def expire (o : Options) (pid sig : ℤ) (s : Polling) : Prog Polling := do
  let s ←
    if o.userpc then
      let samples ← captureUserpcState s.samples
      let armed ← disarmUserpcIfArmed s.armed o.userpcPeriod
      pure { s with samples, armed }
    else pure s
  let _ ← kill (-pid) sig
  pure s

/-- What a pass of the poll loop does after the time is up: whether the loop ends. -/
def timeOut (o : Options) (pid : ℤ) (elapsed : UInt64) (s : Polling) : Prog (Bool × Polling) := do
  if !s.termSent then
    let s ← expire o pid 15 s
    pure (false, { s with termSent := true })
  else if !s.killSent ∧ elapsed ≥ o.timeoutMs + 2000 then
    let s ← expire o pid 9 s
    pure (false, { s with killSent := true })
  else pure (s.killSent && elapsed ≥ o.timeoutMs + 4000, s)

/-- A pass of the poll loop after the samples are taken. -/
def pollChild (o : Options) (pid : ℤ) (childStart : UInt64) (s : Polling) :
    Prog (Bool × Polling) := do
  let (w, status) ← waitpid pid true
  let s := { s with status := status.getD s.status }
  if w = pid then pure (true, s)
  else if w < 0 then pure (true, { s with status := 256 })
  else
    let elapsed := (← uptime) - childStart
    if o.timeoutMs ≠ 0 ∧ elapsed ≥ o.timeoutMs then timeOut o pid elapsed s
    else pure (false, s)

/-- The poll loop. -/
def poll (o : Options) (pid : ℤ) (childStart : UInt64) : ℕ → Polling → Prog Polling
  | 0, _ => .stuck
  | fuel + 1, s => do
    let _ ← readPgroup pid
    let samples ← if o.userpc then captureUserpcState s.samples else pure s.samples
    let (ends, s) ← pollChild o pid childStart { s with samples }
    if ends then pure s
    else
      profileSleep
      poll o pid childStart fuel s

/-- `exit(WIFEXITED(status) ? WEXITSTATUS(status) : 1)`. -/
def exitStatus (status : ℤ) : ℤ := if status % 256 = 0 then status / 256 % 256 else 1

/-- The last samples of user code. -/
def lastSamples (o : Options) (s : Polling) : Prog Unit :=
  if o.userpc then do
    let _ ← disarmUserpcIfArmed s.armed o.userpcPeriod
    if s.samples.haveUserpcAfter then collectUserpcMaps s.samples
    else
      let _ ← captureUserpcState s.samples
      pure ()
  else pure ()

/-- A snapshot that is asked for, if there is memory for it. -/
def snapshot (wanted : Bool) (c : Call) : Prog Unit :=
  if wanted then do
    if ← malloc then
      let _ ← call c
      pure ()
    else pure ()
  else pure ()

/-- What the parent does after the child. -/
def finish (o : Options) (s : Polling) : Prog Unit := do
  if (← readKstats) < 0 then
    let _ ← disarmUserpcIfArmed s.armed o.userpcPeriod
    stop
  else
    lastSamples o s
    snapshot o.userpc .kprofilePreptyRing
    snapshot o.vfsEnoentAttr .kprofileVfsEnoentSnapshot
    let _ ← kstatsctl false false
    .exit (exitStatus s.status)

/-- The parent from `fork` on. -/
def parent (o : Options) (fuel : ℕ) (userpcMaps : Bool) (pid : ℤ) : Prog Unit := do
  if o.profilePgroup then
    let armed ← prepare o pid
    let start ← uptime
    let s ← poll o pid start fuel ⟨⟨userpcMaps, false, false⟩, armed, false, false, 0⟩
    finish o s
  else
    let _ ← uptime
    let (_, status) ← waitpid pid false
    finish o ⟨⟨userpcMaps, false, false⟩, false, false, false, status.getD 0⟩

/-- The pipes of a process group: whether both are there. -/
def openPipes : Prog Bool := do
  if (← pipe .ready) < 0 then pure false
  else
    let r ← pipe .go
    pure (decide (0 ≤ r))

/-- `main` once the profiling is on. -/
def profile (o : Options) (command fuel : ℕ) (userpcMaps : Bool) : Prog Unit := do
  if (← readKstats) < 0 then stop
  else
    let opened ← if o.profilePgroup then openPipes else pure true
    if !opened then stop
    else
      let pid ← fork
      if pid < 0 then stop
      else if pid = 0 then child o command
      else parent o fuel userpcMaps pid

/-- `main`, and the child as well where `fork` answers 0.  The fuel bounds the passes of the
poll loop. -/
def main (ringCap : UInt64) (fuel : ℕ) (argv : List (List Byte)) : Prog Unit :=
  match parseOptions ringCap argv with
  | none => .exit 1
  | some (o, command) => do
    let userpcMaps ← if o.userpc then malloc else pure false
    if (← kstatsctl true o.vfsEnoentAttr) < 0 then .exit 1
    else profile o command fuel userpcMaps

/-! ### What is on -/

/-- What the calls have turned on and not off again. -/
structure Kernel where
  profiling : Bool
  armed : Bool

/-- The call did not fail. -/
def succeeded (r : ℤ) : Bool := 0 ≤ r

theorem succeeded_of_neg {r : ℤ} (h : r < 0) : succeeded r = false :=
  decide_eq_false (Int.not_le.2 h)

theorem succeeded_of_nonneg {r : ℤ} (h : 0 ≤ r) : succeeded r = true := decide_eq_true h

/-- One more call: it turns something on if it succeeds, and off in any case. -/
def Kernel.see (k : Kernel) : Event Reply → Kernel
  | ⟨.kstatsctl enable _, r⟩ =>
    if enable then { k with profiling := k.profiling || succeeded r }
    else { k with profiling := false }
  | ⟨.kprofileUserpcCtl enable _ _, r⟩ =>
    if enable then { k with armed := k.armed || succeeded r }
    else { k with armed := false }
  | _ => k

/-- What is on after some calls. -/
def after (t : History) : Kernel := t.foldl Kernel.see ⟨false, false⟩

theorem after_snoc (t : History) (e : Event Reply) : after (t ++ [e]) = (after t).see e := by
  rw [after, List.foldl_append]
  rfl

/-- The parent has looked at the group of the child, and armed the profiling of the user code
if that was asked for. -/
def Prepared (o : Options) (t : History) : Prop :=
  ∃ pid : ℤ, (⟨.fork, pid⟩ : Event Reply) ∈ t ∧
    (∃ r, (⟨.kprofilePgroup pid, r⟩ : Event Reply) ∈ t) ∧
    (o.userpc = true → ∃ (period : UInt64) (r : ℤ), 0 ≤ r ∧
      (⟨.kprofileUserpcCtl true pid period, r⟩ : Event Reply) ∈ t)

/-- The parent tells the child to go on only when all is prepared, the child starts the command
only when it was told to, and the parent does not exit before all is off. -/
def contract (o : Options) : Contract Reply ℤ Unit where
  calls t
    | ⟨.write .go _, _⟩ => Prepared o t ∧ (⟨.fork, (0 : ℤ)⟩ : Event Reply) ∉ t
    | ⟨.read .go, _⟩ => (⟨.fork, (0 : ℤ)⟩ : Event Reply) ∈ t
    | ⟨.exec _, _⟩ => o.profilePgroup = true → (⟨.read .go, (1 : ℤ)⟩ : Event Reply) ∈ t
    | _ => True
  returns _ _ := False
  exits _ t := (⟨.fork, (0 : ℤ)⟩ : Event Reply) ∈ t ∨ after t = ⟨false, false⟩
  stuck _ := True

/-- A call that turns nothing on or off, and with which no child starts or goes on. -/
def quiet : Call → Bool
  | .kstatsctl _ _ | .kprofileUserpcCtl _ _ _ | .fork | .write .go _ | .read .go | .exec _ => false
  | _ => true

/-- In the parent the profiling is on, and that of the user code if it is `armed`, which was
asked for. -/
structure At (o : Options) (armed : Bool) (t : History) : Prop where
  on : after t = ⟨true, armed⟩
  asked : armed = true → o.userpc = true
  inParent : (⟨.fork, (0 : ℤ)⟩ : Event Reply) ∉ t

variable {o : Options} {α : Type} {armed : Bool} {t : History} {Q : α → History → Prop}

theorem calls_of_quiet (o : Options) (t : History) {c : Call} (hc : quiet c = true)
    (r : Reply c) : (contract o).calls t ⟨c, r⟩ := by
  cases c with
  | write p byte => cases p with
    | ready => exact trivial
    | go => exact absurd hc Bool.false_ne_true
  | read p => cases p with
    | ready => exact trivial
    | go => exact absurd hc Bool.false_ne_true
  | exec => exact absurd hc Bool.false_ne_true
  | _ => exact trivial

/-- Another call than `fork` does not lead to the child. -/
theorem fork_notMem_snoc (h : (⟨.fork, (0 : ℤ)⟩ : Event Reply) ∉ t) {c : Call} {r : Reply c}
    (hc : c ≠ .fork) : (⟨.fork, (0 : ℤ)⟩ : Event Reply) ∉ t ++ [⟨c, r⟩] := by
  rw [List.mem_append, List.mem_singleton, not_or]
  exact ⟨h, fun heq => hc (Sigma.mk.inj heq).1.symm⟩

/-- One more call, which is no `fork`. -/
theorem At.call {armed' : Bool} (h : At o armed t) {c : Call} {r : Reply c}
    (hsee : (after t).see ⟨c, r⟩ = ⟨true, armed'⟩) (harmed : armed' = true → o.userpc = true)
    (hc : c ≠ .fork) : At o armed' (t ++ [⟨c, r⟩]) where
  on := (after_snoc t _).trans hsee
  asked := harmed
  inParent := fork_notMem_snoc h.inParent hc

theorem At.snoc (h : At o armed t) {c : Call} (hc : quiet c = true) (r : Reply c) :
    At o armed (t ++ [⟨c, r⟩]) := by
  have hsee : (after t).see ⟨c, r⟩ = after t := by
    cases c with
    | kstatsctl => exact absurd hc Bool.false_ne_true
    | kprofileUserpcCtl => exact absurd hc Bool.false_ne_true
    | _ => rfl
  refine h.call (hsee.trans h.on) h.asked ?_
  rintro rfl
  exact absurd hc Bool.false_ne_true

theorem At.fork (h : At o armed t) {pid : ℤ} (hpid : pid ≠ 0) :
    At o armed (t ++ [⟨.fork, pid⟩]) where
  on := (after_snoc t _).trans h.on
  asked := h.asked
  inParent := by
    rw [List.mem_append, List.mem_singleton, not_or]
    exact ⟨h.inParent, fun heq => hpid (eq_of_heq (Sigma.mk.inj heq).2).symm⟩

/-- **A quiet call.**  What was called before was called. -/
theorem meets_quiet_subset (c : Call) (hc : quiet c = true) {f : Reply c → Prog α}
    {S : History} (hS : S ⊆ t) (ht : At o armed t)
    (h : ∀ r t, ⟨c, r⟩ :: S ⊆ t → At o armed t → Meets ((contract o).to Q) (f r) t) :
    Meets ((contract o).to Q) (call c >>= f) t := by
  refine (meets_call_bind c).2 fun r => ⟨calls_of_quiet o t hc r, h r _ ?_ (ht.snoc hc r)⟩
  exact List.cons_subset.2 ⟨by simp, fun e he => List.mem_append_left _ (hS he)⟩

theorem meets_quiet (c : Call) (hc : quiet c = true) {f : Reply c → Prog α} (ht : At o armed t)
    (h : ∀ r t, At o armed t → Meets ((contract o).to Q) (f r) t) :
    Meets ((contract o).to Q) (call c >>= f) t :=
  (meets_call_bind c).2 fun r => ⟨calls_of_quiet o t hc r, h r _ (ht.snoc hc r)⟩

theorem meets_captureUserpcSnapshot {s : Samples} {Q : Samples → History → Prop}
    (ht : At o armed t) (h : ∀ s t, At o armed t → Q s t) :
    Meets ((contract o).to Q) (captureUserpcSnapshot s) t := by
  have hring : ∀ t, At o armed t → Meets ((contract o).to Q)
      (readUserpcRing >>= fun r => pure { s with
        userpcAfter := true, haveUserpcAfter := s.haveUserpcAfter || r == 0 }) t :=
    fun t ht => meets_quiet Call.kprofileUserpcSnapshot rfl ht fun _ t ht => h _ t ht
  unfold captureUserpcSnapshot
  split_ifs with hs
  · exact hring t ht
  · refine meets_quiet Call.malloc rfl ht fun allocated t ht => ?_
    cases allocated with
    | false => exact h s t ht
    | true => exact hring t ht

theorem meets_collectUserpcMaps {s : Samples} {Q : Unit → History → Prop}
    (ht : At o armed t) (h : ∀ t, At o armed t → Q () t) :
    Meets ((contract o).to Q) (collectUserpcMaps s) t := by
  unfold collectUserpcMaps
  split
  · exact fun r => ⟨calls_of_quiet o t rfl r, h _ (ht.snoc rfl r)⟩
  · exact h t ht

theorem meets_captureUserpcState {s : Samples} {Q : Samples → History → Prop}
    (ht : At o armed t) (h : ∀ s t, At o armed t → Q s t) :
    Meets ((contract o).to Q) (captureUserpcState s) t := by
  refine meets_bind.2 (meets_captureUserpcSnapshot ht fun s t ht => ?_)
  split_ifs with hs
  · exact meets_bind.2 (meets_collectUserpcMaps ht fun t ht => h s t ht)
  · exact h s t ht

theorem meets_disarmUserpcIfArmed {period : UInt64} {Q : Bool → History → Prop}
    (ht : At o armed t) (h : ∀ t, At o false t → Q false t) :
    Meets ((contract o).to Q) (disarmUserpcIfArmed armed period) t := by
  unfold disarmUserpcIfArmed
  split_ifs with harmed
  · refine (meets_call_bind (Call.kprofileUserpcCtl false 0 _)).2 fun r => ?_
    refine ⟨trivial, h _ (ht.call ?_ nofun nofun)⟩
    rw [ht.on]
    rfl
  · rw [Bool.not_eq_true] at harmed
    subst harmed
    exact h t ht

/-- **The way out.** -/
theorem meets_stop (ht : At o false t) : Meets ((contract o).to Q) stop t := by
  refine (meets_call_bind (Call.kstatsctl false false)).2 fun r => ?_
  refine ⟨trivial, .inr ?_⟩
  rw [after_snoc, ht.on]
  rfl

/-- The profiling of the user code is turned off, and then the rest of the way out. -/
theorem meets_disarm_stop {period : UInt64} (ht : At o armed t) :
    Meets ((contract o).to Q) (disarmUserpcIfArmed armed period >>= fun _ => stop) t :=
  meets_bind.2 (meets_disarmUserpcIfArmed ht fun _ ht => meets_stop ht)

theorem meets_expire {pid sig : ℤ} {s : Polling} {Q : Polling → History → Prop}
    (ht : At o s.armed t) (h : ∀ s t, At o s.armed t → Q s t) :
    Meets ((contract o).to Q) (expire o pid sig s) t := by
  have hkill : ∀ (s : Polling) (t : History), At o s.armed t → Meets ((contract o).to Q)
      (kill (-pid) sig >>= fun _ => pure s) t :=
    fun s t ht => meets_quiet (Call.kill (-pid) sig) rfl ht fun _ t ht => h s t ht
  unfold expire
  split_ifs with hu
  · refine meets_bind.2 (meets_captureUserpcState ht fun samples t ht => ?_)
    refine meets_bind.2 (meets_disarmUserpcIfArmed ht fun t ht => ?_)
    exact hkill { s with samples, armed := false } t ht
  · exact hkill s t ht

theorem meets_timeOut {pid : ℤ} {elapsed : UInt64} {s : Polling}
    {Q : Bool × Polling → History → Prop} (ht : At o s.armed t)
    (h : ∀ b s t, At o s.armed t → Q (b, s) t) :
    Meets ((contract o).to Q) (timeOut o pid elapsed s) t := by
  unfold timeOut
  split_ifs with hterm hkill
  · exact meets_bind.2 (meets_expire ht fun s t ht => h false _ t ht)
  · exact meets_bind.2 (meets_expire ht fun s t ht => h false _ t ht)
  · exact h _ s t ht

theorem meets_pollChild {pid : ℤ} {start : UInt64} {s : Polling}
    {Q : Bool × Polling → History → Prop} (ht : At o s.armed t)
    (h : ∀ b s t, At o s.armed t → Q (b, s) t) :
    Meets ((contract o).to Q) (pollChild o pid start s) t := by
  refine meets_quiet (Call.waitpid pid true) rfl ht fun r t ht => ?_
  obtain ⟨w, status⟩ := r
  dsimp only
  split_ifs with hpid hneg
  · exact h true _ t ht
  · exact h true _ t ht
  · refine meets_quiet Call.uptime rfl ht fun now t ht => ?_
    split_ifs with htime
    · exact meets_timeOut ht h
    · exact h false _ t ht

/-- **The poll loop.** -/
theorem meets_poll {pid : ℤ} {start : UInt64} {fuel : ℕ} {s : Polling}
    {Q : Polling → History → Prop} (ht : At o s.armed t) (h : ∀ s t, At o s.armed t → Q s t) :
    Meets ((contract o).to Q) (poll o pid start fuel s) t := by
  induction fuel generalizing s t with
  | zero => exact trivial
  | succ fuel ih =>
    have hpass : ∀ (samples : Samples) (t : History), At o s.armed t → Meets ((contract o).to Q)
        (pollChild o pid start { s with samples } >>= fun r =>
          if r.1 then pure r.2 else profileSleep >>= fun _ => poll o pid start fuel r.2) t := by
      intro samples t ht
      refine meets_bind.2 (meets_pollChild ht fun ends s t ht => ?_)
      cases ends with
      | true => exact h s t ht
      | false => exact meets_quiet Call.nanosleep rfl ht fun _ t ht => ih ht
    refine meets_quiet (Call.kprofilePgroup pid) rfl ht fun _ t ht => ?_
    split_ifs with hu
    · exact meets_bind.2 (meets_captureUserpcState ht hpass)
    · exact hpass _ t ht

theorem meets_lastSamples {s : Polling} {Q : Unit → History → Prop} (ht : At o s.armed t)
    (h : ∀ t, At o false t → Q () t) : Meets ((contract o).to Q) (lastSamples o s) t := by
  unfold lastSamples
  split
  · refine meets_bind.2 (meets_disarmUserpcIfArmed ht fun t ht => ?_)
    split
    · exact meets_collectUserpcMaps ht h
    · exact meets_bind.2 (meets_captureUserpcState ht fun _ t ht => h t ht)
  · rename_i hu
    have hoff : s.armed = false := Bool.eq_false_iff.2 fun harmed => hu (ht.asked harmed)
    rw [hoff] at ht
    exact h t ht

theorem meets_snapshot {wanted : Bool} (c : Call) (hc : quiet c = true)
    {Q : Unit → History → Prop} (ht : At o armed t) (h : ∀ t, At o armed t → Q () t) :
    Meets ((contract o).to Q) (snapshot wanted c) t := by
  unfold snapshot
  split
  · refine meets_quiet Call.malloc rfl ht fun allocated t ht => ?_
    cases allocated with
    | false => exact h t ht
    | true => exact meets_quiet c hc ht fun _ t ht => h t ht
  · exact h t ht

/-- **The end.** -/
theorem meets_finish {s : Polling} (ht : At o s.armed t) :
    Meets (contract o) (finish o s) t := by
  refine meets_quiet Call.kstats2 rfl ht fun r t ht => ?_
  split_ifs with hr
  · exact meets_disarm_stop ht
  · refine meets_bind.2 (meets_lastSamples ht fun t ht => ?_)
    refine meets_bind.2 (meets_snapshot Call.kprofilePreptyRing rfl ht fun t ht => ?_)
    refine meets_bind.2 (meets_snapshot Call.kprofileVfsEnoentSnapshot rfl ht fun t ht => ?_)
    refine (meets_call_bind (Call.kstatsctl false false)).2 fun r => ⟨trivial, .inr ?_⟩
    rw [after_snoc, ht.on]
    rfl

theorem meets_arm {pid : ℤ} {Q : Bool → History → Prop} {S : History} (hS : S ⊆ t)
    (ht : At o false t)
    (h : ∀ armed t, S ⊆ t → At o armed t →
      (o.userpc = true → ∃ (period : UInt64) (r : ℤ), 0 ≤ r ∧
        (⟨.kprofileUserpcCtl true pid period, r⟩ : Event Reply) ∈ t) → Q armed t) :
    Meets ((contract o).to Q) (arm o pid) t := by
  unfold arm
  split
  · rename_i hu
    refine (meets_call_bind (Call.kprofileUserpcCtl true pid _)).2 fun r => ⟨trivial, ?_⟩
    have hsee : (after t).see ⟨.kprofileUserpcCtl true pid (ticks o.userpcPeriod), r⟩ =
        ⟨true, succeeded r⟩ := by
      rw [ht.on]
      rfl
    split
    · rename_i hr
      have hfailed : At o false
          (t ++ [⟨.kprofileUserpcCtl true pid (ticks o.userpcPeriod), r⟩]) :=
        ht.call (hsee.trans (congrArg (Kernel.mk true) (succeeded_of_neg hr))) nofun nofun
      refine meets_quiet (Call.close .go .writing) rfl hfailed fun _ t ht => ?_
      refine meets_quiet (Call.waitpid pid false) rfl ht fun _ t ht => ?_
      exact meets_stop ht
    · rename_i hr
      have hpos : (0 : ℤ) ≤ r := Int.not_lt.1 hr
      have hon := hsee.trans (congrArg (Kernel.mk true) (succeeded_of_nonneg hpos))
      refine h true _ (fun e he => List.mem_append_left _ (hS he))
        (ht.call hon (fun _ => hu) nofun) fun _ => ⟨ticks o.userpcPeriod, r, hpos, ?_⟩
      exact List.mem_append_right _ List.mem_cons_self
  · rename_i hu
    exact h false t hS ht fun hu' => absurd hu' hu

/-- **All that comes before the child is told to go on.** -/
theorem meets_prepare {pid : ℤ} {Q : Bool → History → Prop}
    (hfork : (⟨.fork, pid⟩ : Event Reply) ∈ t) (ht : At o false t)
    (h : ∀ armed t, At o armed t → Q armed t) :
    Meets ((contract o).to Q) (prepare o pid) t := by
  have hS : [(⟨.fork, pid⟩ : Event Reply)] ⊆ t := List.cons_subset.2 ⟨hfork, List.nil_subset _⟩
  refine meets_quiet_subset (Call.close .ready .writing) rfl hS ht fun _ t hS ht => ?_
  refine meets_quiet_subset (Call.close .go .reading) rfl hS ht fun _ t hS ht => ?_
  refine meets_quiet_subset (Call.read .ready) rfl hS ht fun r t hS ht => ?_
  split
  · exact meets_stop ht
  refine meets_quiet_subset (Call.close .ready .reading) rfl hS ht fun _ t hS ht => ?_
  refine meets_quiet_subset (Call.setpgid pid pid) rfl hS ht fun _ t hS ht => ?_
  refine meets_quiet_subset (Call.kprofilePgroup pid) rfl hS ht fun looked t hS ht => ?_
  refine meets_bind.2 (meets_arm hS ht fun armed t hS ht hu => ?_)
  have hprepared : Prepared o t := ⟨pid, hS (by simp), ⟨looked, hS (by simp)⟩, hu⟩
  refine (meets_call_bind (Call.write .go 103)).2 fun r => ⟨⟨hprepared, ht.inParent⟩, ?_⟩
  have hwrote : At o armed (t ++ [⟨.write .go 103, r⟩]) := ht.call ht.on ht.asked nofun
  split
  · exact meets_disarm_stop hwrote
  · exact meets_quiet (Call.close .go .writing) rfl hwrote fun _ t ht => h armed t ht

/-- **The parent.** -/
theorem meets_parent {fuel : ℕ} {maps : Bool} {pid : ℤ}
    (hfork : (⟨.fork, pid⟩ : Event Reply) ∈ t) (ht : At o false t) :
    Meets (contract o) (parent o fuel maps pid) t := by
  unfold parent
  split
  · refine meets_bind.2 (meets_prepare hfork ht fun armed t ht => ?_)
    refine meets_quiet Call.uptime rfl ht fun start t ht => ?_
    exact meets_bind.2 (meets_poll ht fun s t ht => meets_finish ht)
  · refine meets_quiet Call.uptime rfl ht fun _ t ht => ?_
    refine meets_quiet (Call.waitpid pid false) rfl ht fun r t ht => ?_
    exact meets_finish ht

/-- A call of the child.  What was called before was called. -/
theorem meets_call_subset (c : Call) (hc : quiet c = true) {f : Reply c → Prog α} {S : History}
    (hS : S ⊆ t) (h : ∀ r t, ⟨c, r⟩ :: S ⊆ t → Meets ((contract o).to Q) (f r) t) :
    Meets ((contract o).to Q) (call c >>= f) t := by
  refine (meets_call_bind c).2 fun r => ⟨calls_of_quiet o t hc r, h r _ ?_⟩
  exact List.cons_subset.2 ⟨by simp, fun e he => List.mem_append_left _ (hS he)⟩

theorem meets_awaitGo {Q : Unit → History → Prop}
    (hS : [(⟨.fork, (0 : ℤ)⟩ : Event Reply)] ⊆ t)
    (h : ∀ t, [(⟨.fork, (0 : ℤ)⟩ : Event Reply), ⟨.read .go, (1 : ℤ)⟩] ⊆ t → Q () t) :
    Meets ((contract o).to Q) awaitGo t := by
  refine meets_call_subset (Call.close .ready .reading) rfl hS fun _ t hS => ?_
  refine meets_call_subset (Call.close .go .writing) rfl hS fun _ t hS => ?_
  refine meets_call_subset (Call.setpgid 0 0) rfl hS fun _ t hS => ?_
  refine meets_call_subset (Call.write .ready 114) rfl hS fun _ t hS => ?_
  split
  · exact .inl (hS (by simp))
  refine meets_call_subset (Call.close .ready .writing) rfl hS fun _ t hS => ?_
  have hfork := hS (a := ⟨.fork, (0 : ℤ)⟩) (by simp)
  refine (meets_call_bind (Call.read .go)).2 fun r => ⟨hfork, ?_⟩
  split
  · exact .inl (List.mem_append_left _ hfork)
  · rename_i hr
    obtain rfl : r = (1 : ℤ) := not_not.1 hr
    refine (meets_call_bind (Call.close .go .reading)).2 fun _ => ⟨trivial, h _ ?_⟩
    exact List.cons_subset.2 ⟨by simp [hfork], List.cons_subset.2 ⟨by simp, List.nil_subset _⟩⟩

/-- **The child.** -/
theorem meets_child {command : ℕ} (hfork : (⟨.fork, (0 : ℤ)⟩ : Event Reply) ∈ t) :
    Meets (contract o) (child o command) t := by
  have hexec : ∀ t : History, (⟨.fork, (0 : ℤ)⟩ : Event Reply) ∈ t →
      (o.profilePgroup = true → (⟨.read .go, (1 : ℤ)⟩ : Event Reply) ∈ t) →
      Meets (contract o) (exec command >>= fun _ => .exit 1) t := by
    intro t hfork hgo
    refine (meets_call_bind (Call.exec command)).2 fun _ => ⟨hgo, .inl ?_⟩
    exact List.mem_append_left _ hfork
  unfold child
  split
  · have hS : [(⟨.fork, (0 : ℤ)⟩ : Event Reply)] ⊆ t :=
      List.cons_subset.2 ⟨hfork, List.nil_subset _⟩
    refine meets_bind.2 (meets_awaitGo hS fun t hS => ?_)
    exact hexec t (hS (by simp)) fun _ => hS (by simp)
  · rename_i hp
    exact hexec t hfork fun h => absurd h hp

theorem meets_openPipes {Q : Bool → History → Prop} (ht : At o armed t)
    (h : ∀ opened t, At o armed t → Q opened t) :
    Meets ((contract o).to Q) openPipes t := by
  refine meets_quiet (Call.pipe .ready) rfl ht fun r t ht => ?_
  split
  · exact h false t ht
  · exact meets_quiet (Call.pipe .go) rfl ht fun r t ht => h _ t ht

/-- **The program once the profiling is on.** -/
theorem meets_profile {command fuel : ℕ} {maps : Bool} (ht : At o false t) :
    Meets (contract o) (profile o command fuel maps) t := by
  have hfork : ∀ (opened : Bool) (t : History), At o false t → Meets (contract o)
      (if !opened then stop else do
        let pid ← fork
        if pid < 0 then stop
        else if pid = 0 then child o command
        else parent o fuel maps pid) t := by
    intro opened t ht
    split
    · exact meets_stop ht
    refine (meets_call_bind Call.fork).2 fun pid => ⟨trivial, ?_⟩
    split
    · rename_i hpid
      exact meets_stop (ht.fork (Int.ne_of_lt hpid))
    split
    · rename_i hpid
      obtain rfl : pid = (0 : ℤ) := hpid
      exact meets_child (List.mem_append_right _ List.mem_cons_self)
    · rename_i hpid
      exact meets_parent (List.mem_append_right _ List.mem_cons_self) (ht.fork hpid)
  refine meets_quiet Call.kstats2 rfl ht fun r t ht => ?_
  split
  · exact meets_stop ht
  split
  · exact meets_bind.2 (meets_openPipes ht hfork)
  · exact hfork true t ht

/-- **The whole program.** -/
theorem meets_main {ringCap : UInt64} {fuel : ℕ} {argv : List (List Byte)} {command : ℕ}
    (ho : parseOptions ringCap argv = some (o, command)) :
    Meets (contract o) (main ringCap fuel argv) [] := by
  have henable : ∀ (maps : Bool) (t : History), after t = ⟨false, false⟩ →
      (⟨.fork, (0 : ℤ)⟩ : Event Reply) ∉ t → Meets (contract o)
      (do if (← kstatsctl true o.vfsEnoentAttr) < 0 then .exit 1
          else profile o command fuel maps) t := by
    intro maps t ht hfork
    refine (meets_call_bind (Call.kstatsctl true o.vfsEnoentAttr)).2 fun r => ⟨trivial, ?_⟩
    have hafter : after (t ++ [⟨.kstatsctl true o.vfsEnoentAttr, r⟩]) = ⟨succeeded r, false⟩ := by
      rw [after_snoc, ht]
      rfl
    split
    · rename_i hr
      exact .inr (hafter.trans (congrArg (Kernel.mk · false) (succeeded_of_neg hr)))
    · rename_i hr
      have hpos : (0 : ℤ) ≤ r := Int.not_lt.1 hr
      have hon := hafter.trans (congrArg (Kernel.mk · false) (succeeded_of_nonneg hpos))
      exact meets_profile ⟨hon, nofun, fork_notMem_snoc hfork nofun⟩
  unfold main
  rw [ho]
  dsimp only
  split
  · refine (meets_call_bind Call.malloc).2 fun maps => ⟨trivial, ?_⟩
    exact henable maps _ rfl (fork_notMem_snoc List.not_mem_nil nofun)
  · exact henable false [] rfl List.not_mem_nil

/-! ### The parent and the child together -/

/-- The parent, the child once there is one, what each of them has called since the start of
the program, and how many bytes are in the pipe `go`. -/
structure System where
  parent : Prog Unit
  parentHistory : History
  child : Option (Prog Unit × History)
  goBytes : ℕ

/-- The system at the start. -/
def System.start (ringCap : UInt64) (fuel : ℕ) (argv : List (List Byte)) : System :=
  ⟨main ringCap fuel argv, [], none, 0⟩

/-- A byte was written, or read. -/
def transferred (r : ℤ) : Bool := r == 1

/-- The bytes in the pipe `go` after a call: what is read from it is there. -/
def flow (n : ℕ) : Event Reply → Option ℕ
  | ⟨.write .go _, r⟩ => if transferred r then some (n + 1) else some n
  | ⟨.read .go, r⟩ =>
    if transferred r then (if n = 0 then none else some (n - 1)) else some n
  | _ => some n

/-- The `fork` of the parent: when it succeeds, it answers the parent the number of the child,
and the child 0. -/
def System.forked (s : System) (k : ℤ → Prog Unit) (pid : ℤ) : Option System :=
  if pid = 0 then none
  else some { s with
    parent := k pid
    parentHistory := s.parentHistory ++ [⟨.fork, pid⟩]
    child := if 0 < pid then some (k 0, s.parentHistory ++ [⟨.fork, (0 : ℤ)⟩]) else s.child }

/-- The next call of the child or of the parent, and what it answers. -/
def System.step (s : System) (childTurn : Bool) (answer : (c : Call) → Reply c) :
    Option System :=
  if childTurn then
    match s.child with
    | some (.ask c k, h) => (flow s.goBytes ⟨c, answer c⟩).map fun n =>
      { s with child := some (k (answer c), h ++ [⟨c, answer c⟩]), goBytes := n }
    | _ => none
  else
    match s.parent with
    | .ask .fork k => s.forked k (answer .fork)
    | .ask c k => (flow s.goBytes ⟨c, answer c⟩).map fun n =>
      { s with
        parent := k (answer c)
        parentHistory := s.parentHistory ++ [⟨c, answer c⟩]
        goBytes := n }
    | _ => none

/-- The states of the system in every order of the calls and with every answer. -/
inductive Reachable (start : System) : System → Prop
  | start : Reachable start start
  | step {s s' : System} (h : Reachable start s) (childTurn : Bool)
      (answer : (c : Call) → Reply c) (hs : s.step childTurn answer = some s') :
      Reachable start s'

theorem flow_read {n m : ℕ} (h : flow n ⟨.read .go, (1 : ℤ)⟩ = some m) : 0 < n := by
  rcases n with _ | n
  · exact absurd h nofun
  · exact Nat.succ_pos n

/-- No bytes come into the pipe but by a write. -/
theorem flow_pos {n m : ℕ} {c : Call} {r : Reply c} (h : flow n ⟨c, r⟩ = some m) (hm : 0 < m) :
    0 < n ∨ ∃ byte, c = .write .go byte := by
  by_cases hc : ∃ byte, c = .write .go byte
  · exact .inr hc
  refine .inl ?_
  cases c with
  | write p byte => cases p with
    | ready => exact Option.some.inj h ▸ hm
    | go => exact absurd ⟨byte, rfl⟩ hc
  | read p => cases p with
    | ready => exact Option.some.inj h ▸ hm
    | go =>
      simp only [flow] at h
      split_ifs at h with hr hn
      · exact Nat.pos_of_ne_zero hn
      · exact Option.some.inj h ▸ hm
  | _ => exact Option.some.inj h ▸ hm

theorem Prepared.append (h : Prepared o t) (t' : History) : Prepared o (t ++ t') := by
  obtain ⟨pid, hfork, ⟨r, hlook⟩, harm⟩ := h
  refine ⟨pid, List.mem_append_left _ hfork, ⟨r, List.mem_append_left _ hlook⟩, fun hu => ?_⟩
  obtain ⟨period, r, hr, hmem⟩ := harm hu
  exact ⟨period, r, hr, List.mem_append_left _ hmem⟩

/-- The programs of the parent and of the child are at what they have called, and bytes come
out of the pipe `go`, or are in it, only when all is prepared. -/
structure Consistent (o : Options) (s : System) : Prop where
  parent : Meets (contract o) s.parent s.parentHistory
  inParent : (⟨.fork, (0 : ℤ)⟩ : Event Reply) ∉ s.parentHistory
  unread : ∀ r, (⟨.read .go, r⟩ : Event Reply) ∉ s.parentHistory
  child : ∀ q h, s.child = some (q, h) → Meets (contract o) q h ∧
    (⟨.fork, (0 : ℤ)⟩ : Event Reply) ∈ h
  told : ∀ q h, s.child = some (q, h) → (⟨.read .go, (1 : ℤ)⟩ : Event Reply) ∈ h →
    Prepared o s.parentHistory
  filled : 0 < s.goBytes → Prepared o s.parentHistory

variable {s s' : System} {answer : (c : Call) → Reply c}

/-- A call of the child. -/
theorem Consistent.child_step (hs : Consistent o s) {c : Call} {k : Reply c → Prog Unit}
    {h : History} (hchild : s.child = some (.ask c k, h)) {r : Reply c} {n : ℕ}
    (hflow : flow s.goBytes ⟨c, r⟩ = some n) :
    Consistent o { s with child := some (k r, h ++ [⟨c, r⟩]), goBytes := n } := by
  obtain ⟨hmeets, hfork⟩ := hs.child _ _ hchild
  obtain ⟨hcall, hnext⟩ := hmeets r
  refine ⟨hs.parent, hs.inParent, hs.unread, ?_, ?_, ?_⟩
  · rintro q h' ⟨⟩
    exact ⟨hnext, List.mem_append_left _ hfork⟩
  · rintro q h' ⟨⟩ hread
    rw [List.mem_append, List.mem_singleton] at hread
    rcases hread with hread | hread
    · exact hs.told _ _ hchild hread
    · rw [← hread] at hflow
      exact hs.filled (flow_read hflow)
  · intro hn
    rcases flow_pos hflow hn with hpos | ⟨byte, rfl⟩
    · exact hs.filled hpos
    · exact absurd hfork hcall.2

/-- A call of the parent that is no `fork`. -/
theorem Consistent.parent_step (hs : Consistent o s) {c : Call} {k : Reply c → Prog Unit}
    (hparent : s.parent = .ask c k) (hc : c ≠ .fork) {r : Reply c} {n : ℕ}
    (hflow : flow s.goBytes ⟨c, r⟩ = some n) :
    Consistent o { s with
      parent := k r, parentHistory := s.parentHistory ++ [⟨c, r⟩], goBytes := n } := by
  have hmeets := hs.parent
  rw [hparent] at hmeets
  obtain ⟨hcall, hnext⟩ := hmeets r
  refine ⟨hnext, fork_notMem_snoc hs.inParent hc, ?_, hs.child, ?_, ?_⟩
  · intro r' hmem
    rw [List.mem_append, List.mem_singleton] at hmem
    rcases hmem with hmem | hmem
    · exact hs.unread r' hmem
    · obtain rfl : Call.read .go = c := (Sigma.mk.inj hmem).1
      exact hs.inParent hcall
  · exact fun q h hchild hread => (hs.told q h hchild hread).append _
  · intro hn
    rcases flow_pos hflow hn with hpos | ⟨byte, rfl⟩
    · exact (hs.filled hpos).append _
    · exact hcall.1.append _

/-- The `fork` of the parent. -/
theorem Consistent.fork_step (hs : Consistent o s) {k : ℤ → Prog Unit}
    (hparent : s.parent = .ask .fork k) {pid : ℤ} (hstep : s.forked k pid = some s') :
    Consistent o s' := by
  have hmeets : ∀ r, Meets (contract o) (k r) (s.parentHistory ++ [⟨.fork, r⟩]) := by
    have h := hs.parent
    rw [hparent] at h
    exact fun r => (h r).2
  have hunread : ∀ r pid, (⟨.read .go, r⟩ : Event Reply) ∉ s.parentHistory ++ [⟨.fork, pid⟩] := by
    intro r pid hmem
    rw [List.mem_append, List.mem_singleton] at hmem
    rcases hmem with hmem | hmem
    · exact hs.unread r hmem
    · exact absurd (Sigma.mk.inj hmem).1 nofun
  have hfork : pid ≠ 0 → (⟨.fork, (0 : ℤ)⟩ : Event Reply) ∉ s.parentHistory ++ [⟨.fork, pid⟩] := by
    intro hpid
    rw [List.mem_append, List.mem_singleton, not_or]
    exact ⟨hs.inParent, fun heq => hpid (eq_of_heq (Sigma.mk.inj heq).2).symm⟩
  unfold System.forked at hstep
  split_ifs at hstep with hpid hpos
  · obtain rfl := Option.some.inj hstep
    refine ⟨hmeets pid, hfork hpid, fun r => hunread r pid, ?_, ?_,
      fun hn => (hs.filled hn).append _⟩
    · rintro q h ⟨⟩
      exact ⟨hmeets 0, List.mem_append_right _ List.mem_cons_self⟩
    · rintro q h ⟨⟩ hread
      exact absurd hread (hunread _ _)
  · obtain rfl := Option.some.inj hstep
    exact ⟨hmeets pid, hfork hpid, fun r => hunread r pid, hs.child,
      fun q h hchild hread => (hs.told q h hchild hread).append _,
      fun hn => (hs.filled hn).append _⟩

theorem System.step_parent {c : Call} {k : Reply c → Prog Unit} (hparent : s.parent = .ask c k)
    (hc : c ≠ .fork) : s.step false answer = (flow s.goBytes ⟨c, answer c⟩).map fun n =>
      { s with
        parent := k (answer c)
        parentHistory := s.parentHistory ++ [⟨c, answer c⟩]
        goBytes := n } := by
  unfold System.step
  rw [hparent]
  cases c with
  | fork => exact absurd rfl hc
  | _ => rfl

/-- **A step of the system.** -/
theorem Consistent.step (hs : Consistent o s) {childTurn : Bool}
    (hstep : s.step childTurn answer = some s') : Consistent o s' := by
  cases childTurn with
  | true =>
    rcases hchild : s.child with _ | ⟨q, h⟩
    · simp [System.step, hchild] at hstep
    cases q with
    | ask c k =>
      simp only [System.step, hchild] at hstep
      obtain ⟨n, hflow, rfl⟩ := Option.map_eq_some_iff.1 hstep
      exact hs.child_step hchild hflow
    | _ => simp [System.step, hchild] at hstep
  | false =>
    cases hparent : s.parent with
    | ask c k =>
      by_cases hc : c = .fork
      · subst hc
        simp only [System.step, hparent] at hstep
        exact hs.fork_step hparent hstep
      · rw [System.step_parent hparent hc] at hstep
        obtain ⟨n, hflow, rfl⟩ := Option.map_eq_some_iff.1 hstep
        exact hs.parent_step hparent hc hflow
    | _ => simp [System.step, hparent] at hstep

/-- **Every state is consistent.** -/
theorem Reachable.consistent {ringCap : UInt64} {fuel : ℕ} {argv : List (List Byte)}
    {command : ℕ} (ho : parseOptions ringCap argv = some (o, command))
    (h : Reachable (.start ringCap fuel argv) s) : Consistent o s := by
  induction h with
  | start =>
    exact ⟨meets_main ho, List.not_mem_nil, fun _ => List.not_mem_nil, nofun, nofun,
      fun hn => absurd hn (lt_irrefl 0)⟩
  | step _ _ _ hstep ih => exact ih.step hstep

/-- **What was turned on is turned off, and the child waits for the parent.**  Whatever the
calls answer, when the parent exits the profiling of the kernel and of the user code is off.
With a process group the child does not start the command before the parent has looked at the
group, though that may have failed, and has armed the profiling of the user code if it was
asked for. -/
theorem main_restores (ringCap : UInt64) (fuel : ℕ) (argv : List (List Byte)) :
    (∀ t, ¬Reaches (main ringCap fuel argv) t (.done ())) ∧
    (∀ t status, Reaches (main ringCap fuel argv) t (.exit status) →
      (⟨.fork, (0 : ℤ)⟩ : Event Reply) ∉ t → after t = ⟨false, false⟩) ∧
    (∀ o command s, parseOptions ringCap argv = some (o, command) → o.profilePgroup = true →
      Reachable (.start ringCap fuel argv) s → ∀ command k h,
        s.child = some (.ask (.exec command) k, h) → Prepared o s.parentHistory) := by
  have hends : ∀ t q, Reaches (main ringCap fuel argv) t q →
      (q = .exit 1 ∧ t = []) ∨ ∃ o, Meets (contract o) q t := by
    intro t q hr
    rcases ho : parseOptions ringCap argv with _ | ⟨o, command⟩
    · unfold main at hr
      rw [ho] at hr
      cases hr
      exact .inl ⟨rfl, rfl⟩
    · have h := ((meets_main ho).reaches hr).1
      exact .inr ⟨o, h⟩
  refine ⟨?_, ?_, ?_⟩
  · intro t hr
    rcases hends t _ hr with ⟨hq, -⟩ | ⟨o, hmeets⟩
    · exact absurd hq nofun
    · exact hmeets
  · intro t status hr hfork
    rcases hends t _ hr with ⟨-, rfl⟩ | ⟨o, hmeets⟩
    · rfl
    · exact hmeets.resolve_left hfork
  · intro o command s ho hp hs command' k h hchild
    have hcons := hs.consistent ho
    have hexec := ((hcons.child _ _ hchild).1 (0 : ℤ)).1 hp
    exact hcons.told _ _ hchild hexec

/-- Calls that go well, but for the look at the group and the writes to `go` that fail. -/
def testAnswer (look go : ℤ) : (c : Call) → Reply c
  | .fork => (5 : ℤ)
  | .read _ | .write .ready _ => (1 : ℤ)
  | .write .go _ => go
  | .kprofilePgroup _ => look
  | .malloc => true
  | .waitpid _ _ => (0, none)
  | .uptime => (0 : UInt64)
  | .collectMaps | .nanosleep => ()
  | .kstatsctl _ _ | .kstats2 | .pipe _ | .close _ _ | .setpgid _ _ | .kprofileUserpcCtl _ _ _
  | .kprofileUserpcSnapshot | .kprofilePreptyRing | .kprofileVfsEnoentSnapshot | .kill _ _
  | .exec _ => (0 : ℤ)

/-- What `fork` and the look at the group answered. -/
def answered : Event Reply → Option ℤ
  | ⟨.fork, r⟩ => some r
  | ⟨.kprofilePgroup _, r⟩ => some r
  | _ => none

/-- The child is not told to go on, after the profiling of the user code was armed. -/
theorem main_restores_unstarted :
    after (follow (fun _ => testAnswer 1 (-1))
      (main 4096 0 [arg "kprofile", arg "--userpc", arg "sh"]) []).1 = ⟨false, false⟩ := by
  refine (main_restores 4096 0 [arg "kprofile", arg "--userpc", arg "sh"]).2.1 _ 1
    (reaches_follow _ _ _) fun hfork => ?_
  have hpid : ∀ e ∈ (follow (fun _ => testAnswer 1 (-1))
      (main 4096 0 [arg "kprofile", arg "--userpc", arg "sh"]) []).1, answered e ≠ some 0 := by
    decide
  exact hpid _ hfork rfl

/-- The states after some turns, of the child where `true`, with the answers of a function. -/
def System.run (answer : (c : Call) → Reply c) (s : System) : List Bool → Option System
  | [] => some s
  | childTurn :: turns => (s.step childTurn answer).bind fun s => s.run answer turns

theorem Reachable.run {start : System} (answer : (c : Call) → Reply c) (turns : List Bool)
    (h : Reachable start s) (hrun : s.run answer turns = some s') : Reachable start s' := by
  induction turns generalizing s with
  | nil => exact Option.some.inj hrun ▸ h
  | cons childTurn turns ih =>
    obtain ⟨s₁, hstep, hrest⟩ := Option.bind_eq_some_iff.1 hrun
    exact ih (h.step childTurn answer hstep) hrest

/-- The turns up to the start of the command. -/
def testTurns : List Bool :=
  .replicate 5 false ++ .replicate 5 true ++ .replicate 7 false ++ [true, true]

/-- When the look at the group fails, the command is started without a snapshot. -/
theorem child_execs_without_snapshot :
    ∃ o command s, parseOptions 4096 [arg "kprofile", arg "sh"] = some (o, command) ∧
      o.profilePgroup = true ∧ Reachable (.start 4096 0 [arg "kprofile", arg "sh"]) s ∧
      (∃ k h, s.child = some (.ask (.exec 1) k, h)) ∧
      ∀ pid, (⟨.kprofilePgroup pid, (0 : ℤ)⟩ : Event Reply) ∉ s.parentHistory := by
  refine ⟨_, _, _, rfl, rfl, Reachable.run (testAnswer (-1) 1) testTurns .start rfl,
    ⟨_, _, rfl⟩, fun pid hlook => ?_⟩
  have hfailed : ∀ e ∈ ((System.start 4096 0 [arg "kprofile", arg "sh"]).run
      (testAnswer (-1) 1) testTurns).elim [] System.parentHistory, answered e ≠ some 0 := by
    decide
  exact hfailed _ hlook rfl

end Kprofile
end Tools
end V6User
