import Mathlib.Order.Monotone.Defs
import V6User.Base.CInt
import V6User.Tools.Kprofile

/-!
# The time limit of a profiled command

`programs/kprofile/kprofile.c`: the poll loop of `main` sends the group of the child `SIGTERM`
when `timeout_ms` milliseconds have passed since the child was started, and `SIGKILL` two
seconds later.  It takes the time from `uptime()`, which is the low 32 bits of the milliseconds
of a clock that does not go back (`host_compat_uptime` of `lib/host_compat.h`), sign-extended
by `(uint64)uptime()`.

The subtraction of two such readings is right unless they go back as `int`s: then it gives
almost 2⁶⁴ and the signal is sent early (`signals_early`).  In every run without such a reading
no signal is early (`signals_timely`).
-/

namespace V6User
namespace Tools
namespace Kprofile

open Process
open CInt (int32)
open Shell (Byte)

/-! ### The clock -/

/-- `(uint64)uptime()` after so many milliseconds. -/
def reading (ms : ℕ) : UInt64 := .ofInt (int32 ms)

variable {a b : ℕ}

theorem elapsed_eq (a b : ℕ) :
    ((reading b - reading a).toNat : ℤ) = (int32 b - int32 a) % 2 ^ 64 := by
  have hread : ∀ ms : ℕ, ((reading ms).toNat : ℤ) = int32 ms % 2 ^ 64 := by
    intro ms
    rw [reading, UInt64.ofInt, UInt64.toNat_ofNat']
    omega
  have ha := hread a
  have hb := hread b
  rw [UInt64.toNat_sub]
  omega

/-- **Readings that do not go back.**  What they give is not more than what has passed. -/
theorem elapsed_le (hab : a ≤ b) (h : int32 a ≤ int32 b) :
    (reading b - reading a).toNat ≤ b - a ∧ (reading b - reading a).toNat < 2 ^ 32 := by
  have heq := elapsed_eq a b
  rw [int32, int32, Int.bmod_def, Int.bmod_def] at *
  split_ifs at * <;> omega

/-- Readings that go back give almost 2⁶⁴. -/
theorem elapsed_of_back (h : int32 b < int32 a) :
    ((reading b - reading a).toNat : ℤ) = 2 ^ 64 + int32 b - int32 a := by
  have heq := elapsed_eq a b
  have ha := CInt.int32_bounds a
  have hb := CInt.int32_bounds b
  omega

/-! ### What the calls tell -/

def isUptime : Event Reply → Bool
  | ⟨.uptime, _⟩ => true
  | _ => false

def isKill (sig : ℤ) : Event Reply → Bool
  | ⟨.kill _ s, _⟩ => s == sig
  | _ => false

/-- The time was asked for, the first time at the start of the child. -/
def started (t : History) : Bool := t.any isUptime

/-- The signal was sent. -/
def sent (sig : ℤ) (t : History) : Bool := t.any (isKill sig)

/-- The time when the child was started.  The call with the number `n` is made at `clock n`. -/
def startTime (clock : ℕ → ℕ) (t : History) : ℕ := clock (t.findIdx isUptime)

/-- The milliseconds from the start of the child to the next call. -/
def sinceStart (clock : ℕ → ℕ) (t : History) : ℕ := clock t.length - startTime clock t

/-- The milliseconds after which the next signal is due. -/
def due (timeout : UInt64) (t : History) : ℕ :=
  if sent 15 t then timeout.toNat + 2000 else timeout.toNat

/-- The clock answers `uptime`. -/
def Ticks (clock : ℕ → ℕ) (t : History) : Event Reply → Prop
  | ⟨.uptime, r⟩ => r = reading (clock t.length)
  | _ => True

/-- `SIGTERM` is not sent before `timeout` milliseconds have passed since the start of the
child, `SIGKILL` not before `timeout + 2000` and not before `SIGTERM`, and nothing else is
sent. -/
def Timely (timeout : UInt64) (clock : ℕ → ℕ) (t : History) : Event Reply → Prop
  | ⟨.kill _ sig, _⟩ => started t = true ∧
    (sig = 15 ∧ timeout.toNat ≤ sinceStart clock t ∨
      sig = 9 ∧ timeout.toNat + 2000 ≤ sinceStart clock t ∧ sent 15 t = true)
  | _ => True

/-- The least difference of readings with which the signal is sent: `due`, or `timeout` alone
where `timeout + 2000` wraps. -/
def threshold (timeout : UInt64) (t : History) : ℕ :=
  if due timeout t < 2 ^ 64 then due timeout t else timeout.toNat

/-- A poll of the clock that does not bring a signal forward: the reading as an `int` is not
below that at the start, or the signal is due, or the timeout is out of reach even so. -/
def Steady (timeout : UInt64) (clock : ℕ → ℕ) (t : History) : Event Reply → Prop
  | ⟨.uptime, _⟩ => started t = true → sent 9 t = false →
    int32 (startTime clock t) ≤ int32 (clock t.length) ∨ due timeout t ≤ sinceStart clock t ∨
      2 ^ 64 + int32 (clock t.length) - int32 (startTime clock t) < threshold timeout t
  | _ => True

/-! ### The invariant -/

/-- The clock answers, and no poll of it brings a signal forward. -/
def Fair (timeout : UInt64) (clock : ℕ → ℕ) (t : History) : Prop :=
  Each (Ticks clock) t ∧ Each (Steady timeout clock) t

/-- No signal is early while the clock is fair. -/
def timely (timeout : UInt64) (clock : ℕ → ℕ) : Contract Reply ℤ Unit where
  calls t e := Fair timeout clock t → Timely timeout clock t e
  returns _ _ := True
  exits _ _ := True
  stuck _ := True

/-- Neither the clock nor a signal. -/
def untimed : Call → Prop
  | .uptime | .kill _ _ => False
  | _ => True

/-- The child is not started. -/
structure Waiting (t : History) : Prop where
  started : started t = false
  sentTerm : sent 15 t = false
  sentKill : sent 9 t = false

/-- The child was started at the reading `start`, what of the signals was sent, and that at
least `n` milliseconds have passed. -/
structure Running (timeout : UInt64) (clock : ℕ → ℕ) (start : UInt64) (term kill : Bool)
    (n : ℕ) (t : History) : Prop where
  started : started t = true
  first : Fair timeout clock t → start = reading (startTime clock t)
  sentTerm : sent 15 t = term
  sentKill : sent 9 t = kill
  order : kill = true → term = true
  late : Fair timeout clock t → n ≤ sinceStart clock t

variable {timeout start : UInt64} {clock : ℕ → ℕ} {term kill : Bool} {n : ℕ} {t : History}
  {c : Call} {α : Type} {Q : α → History → Prop}

theorem started_snoc (t : History) (e : Event Reply) :
    started (t ++ [e]) = (started t || isUptime e) := by
  simp [started]

theorem sent_snoc (sig : ℤ) (t : History) (e : Event Reply) :
    sent sig (t ++ [e]) = (sent sig t || isKill sig e) := by
  simp [sent]

theorem Fair.snoc {e : Event Reply} (h : Fair timeout clock (t ++ [e])) :
    Fair timeout clock t ∧ Ticks clock t e ∧ Steady timeout clock t e := by
  obtain ⟨hticks, htick⟩ := each_snoc.1 h.1
  obtain ⟨hall, hsteady⟩ := each_snoc.1 h.2
  exact ⟨⟨hticks, hall⟩, htick, hsteady⟩

/-- The start is the first reading, whatever comes after it. -/
theorem startTime_snoc (h : Kprofile.started t = true) (e : Event Reply) :
    startTime clock (t ++ [e]) = startTime clock t := by
  have hlt : t.findIdx isUptime < t.length := List.findIdx_lt_length.2 (List.any_eq_true.1 h)
  rw [startTime, List.findIdx_append, if_pos hlt, startTime]

theorem sinceStart_snoc (hclock : Monotone clock) (h : Kprofile.started t = true)
    (e : Event Reply) : sinceStart clock t ≤ sinceStart clock (t ++ [e]) := by
  have hnext : clock t.length ≤ clock (t ++ [e]).length := hclock (by simp)
  rw [sinceStart, sinceStart, startTime_snoc h]
  omega

/-- **One more call.** -/
theorem Running.snoc (hclock : Monotone clock)
    (h : Running timeout clock start term kill n t) {e : Event Reply}
    (he : isKill 9 e = true → term = true) :
    Running timeout clock start (term || isKill 15 e) (kill || isKill 9 e) n (t ++ [e]) where
  started := by rw [started_snoc, h.started, Bool.true_or]
  first hfair := by
    rw [startTime_snoc h.started]
    exact h.first hfair.snoc.1
  sentTerm := by rw [sent_snoc, h.sentTerm]
  sentKill := by rw [sent_snoc, h.sentKill]
  order hkill := by
    rcases Bool.or_eq_true_iff.1 hkill with hkill | hkill
    · rw [h.order hkill, Bool.true_or]
    · rw [he hkill, Bool.true_or]
  late hfair := (h.late hfair.snoc.1).trans (sinceStart_snoc hclock h.started e)

theorem Running.forget (h : Running timeout clock start term kill n t) :
    Running timeout clock start term kill 0 t :=
  ⟨h.started, h.first, h.sentTerm, h.sentKill, h.order, fun _ => Nat.zero_le _⟩

theorem isKill_of_untimed (hc : untimed c) (sig : ℤ) (r : Reply c) :
    isKill sig ⟨c, r⟩ = false := by
  cases c with
  | kill => exact hc.elim
  | _ => rfl

theorem isUptime_of_untimed (hc : untimed c) (r : Reply c) : isUptime ⟨c, r⟩ = false := by
  cases c with
  | uptime => exact hc.elim
  | _ => rfl

theorem calls_of_untimed (hc : untimed c) (r : Reply c) : (timely timeout clock).calls t ⟨c, r⟩ := by
  intro _
  cases c with
  | kill => exact hc.elim
  | _ => exact trivial

theorem Running.untimed (hclock : Monotone clock)
    (h : Running timeout clock start term kill n t) (hc : untimed c) (r : Reply c) :
    Running timeout clock start term kill n (t ++ [⟨c, r⟩]) := by
  have hnext := h.snoc hclock (e := ⟨c, r⟩) fun hkill => by
    rw [isKill_of_untimed hc] at hkill
    exact absurd hkill Bool.false_ne_true
  rwa [isKill_of_untimed hc, isKill_of_untimed hc, Bool.or_false, Bool.or_false] at hnext

theorem Waiting.untimed (h : Waiting t) (hc : untimed c) (r : Reply c) :
    Waiting (t ++ [⟨c, r⟩]) where
  started := by rw [started_snoc, h.started, isUptime_of_untimed hc, Bool.or_false]
  sentTerm := by rw [sent_snoc, h.sentTerm, isKill_of_untimed hc, Bool.or_false]
  sentKill := by rw [sent_snoc, h.sentKill, isKill_of_untimed hc, Bool.or_false]

/-- The child is started. -/
theorem Waiting.uptime (h : Waiting t) (r : UInt64) :
    Running timeout clock r false false 0 (t ++ [⟨.uptime, r⟩]) where
  started := by
    rw [started_snoc, h.started]
    rfl
  first hfair := by
    have hnone : t.findIdx isUptime = t.length :=
      List.findIdx_eq_length_of_false fun e he => by
        simpa using (List.any_eq_false.1 h.started) e he
    have hread : ([⟨.uptime, r⟩] : History).findIdx isUptime = 0 := by
      rw [List.findIdx_cons]
      rfl
    have hidx : (t ++ [⟨.uptime, r⟩] : History).findIdx isUptime = t.length := by
      rw [List.findIdx_append, hnone, hread, if_neg (lt_irrefl _), Nat.zero_add]
    rw [startTime, hidx]
    exact hfair.snoc.2.1
  sentTerm := by
    rw [sent_snoc, h.sentTerm]
    rfl
  sentKill := by
    rw [sent_snoc, h.sentKill]
    rfl
  order := id
  late _ := Nat.zero_le _

/-- A program that neither asks for the time nor sends a signal. -/
theorem meets_waiting {p : Prog α} (hp : Only untimed p) (ht : Waiting t)
    (h : ∀ a t, Waiting t → Q a t) : Meets ((timely timeout clock).to Q) p t :=
  hp.meets (fun _ r _ hc ht => ⟨calls_of_untimed hc r, ht.untimed hc r⟩) h
    (fun _ _ _ => trivial) (fun _ _ => trivial) ht

theorem meets_running (hclock : Monotone clock) {p : Prog α} (hp : Only untimed p)
    (ht : Running timeout clock start term kill n t)
    (h : ∀ a t, Running timeout clock start term kill n t → Q a t) :
    Meets ((timely timeout clock).to Q) p t :=
  hp.meets (fun _ r _ hc ht => ⟨calls_of_untimed hc r, ht.untimed hclock hc r⟩) h
    (fun _ _ _ => trivial) (fun _ _ => trivial) ht

/-! ### The programs that neither ask for the time nor send a signal -/

variable {o : Options}

theorem only_captureUserpcSnapshot (s : Samples) : Only untimed (captureUserpcSnapshot s) := by
  have hring : Only untimed (readUserpcRing >>= fun r => pure { s with
      userpcAfter := true, haveUserpcAfter := s.haveUserpcAfter || r == 0 } : Prog Samples) :=
    only_bind (only_call trivial) fun _ => only_pure _
  unfold captureUserpcSnapshot
  split
  · exact hring
  · refine only_bind (only_call trivial) fun allocated => ?_
    cases allocated with
    | false => exact only_pure _
    | true => exact hring

theorem only_collectUserpcMaps (s : Samples) : Only untimed (collectUserpcMaps s) := by
  unfold collectUserpcMaps
  split
  · exact only_call trivial
  · exact only_pure _

theorem only_captureUserpcState (s : Samples) : Only untimed (captureUserpcState s) := by
  refine only_bind (only_captureUserpcSnapshot s) fun s => ?_
  split
  · exact only_bind (only_collectUserpcMaps s) fun _ => only_pure _
  · exact only_pure _

theorem only_disarmUserpcIfArmed (armed : Bool) (period : UInt64) :
    Only untimed (disarmUserpcIfArmed armed period) := by
  unfold disarmUserpcIfArmed
  split
  · exact only_bind (only_call trivial) fun _ => only_pure _
  · exact only_pure _

theorem only_stop : Only untimed (stop : Prog α) :=
  only_bind (only_call trivial) fun _ => trivial

theorem only_child (o : Options) (command : ℕ) : Only untimed (child o command) := by
  have hwait : Only untimed awaitGo := by
    refine only_bind (only_call trivial) fun _ => only_bind (only_call trivial) fun _ => ?_
    refine only_bind (only_call trivial) fun _ => only_bind (only_call trivial) fun _ => ?_
    split
    · exact trivial
    · refine only_bind (only_call trivial) fun _ => only_bind (only_call trivial) fun _ => ?_
      split
      · exact trivial
      · exact only_bind (only_call trivial) fun _ => only_pure _
  have hexec : Only untimed (exec command >>= fun _ => .exit 1 : Prog Unit) :=
    only_bind (only_call trivial) fun _ => trivial
  unfold child
  split
  · exact only_bind hwait fun _ => hexec
  · exact hexec

theorem only_prepare (o : Options) (pid : ℤ) : Only untimed (prepare o pid) := by
  have harm : Only untimed (arm o pid) := by
    unfold arm
    split
    · refine only_bind (only_call trivial) fun _ => ?_
      split
      · exact only_bind (only_call trivial) fun _ => only_bind (only_call trivial) fun _ => only_stop
      · exact only_pure _
    · exact only_pure _
  refine only_bind (only_call trivial) fun _ => only_bind (only_call trivial) fun _ => ?_
  refine only_bind (only_call trivial) fun _ => ?_
  split
  · exact only_stop
  · refine only_bind (only_call trivial) fun _ => only_bind (only_call trivial) fun _ => ?_
    refine only_bind (only_call trivial) fun _ => only_bind harm fun armed => ?_
    refine only_bind (only_call trivial) fun _ => ?_
    split
    · exact only_bind (only_disarmUserpcIfArmed _ _) fun _ => only_stop
    · exact only_bind (only_call trivial) fun _ => only_pure _

theorem only_openPipes : Only untimed openPipes := by
  refine only_bind (only_call trivial) fun _ => ?_
  split
  · exact only_pure _
  · exact only_bind (only_call trivial) fun _ => only_pure _

theorem only_lastSamples (o : Options) (s : Polling) : Only untimed (lastSamples o s) := by
  unfold lastSamples
  split
  · refine only_bind (only_disarmUserpcIfArmed _ _) fun _ => ?_
    split
    · exact only_collectUserpcMaps _
    · exact only_bind (only_captureUserpcState _) fun _ => only_pure _
  · exact only_pure _

theorem only_snapshot (wanted : Bool) (hc : untimed c) : Only untimed (snapshot wanted c) := by
  unfold snapshot
  split
  · refine only_bind (only_call trivial) fun allocated => ?_
    split
    · exact only_bind (only_call hc) fun _ => only_pure _
    · exact only_pure _
  · exact only_pure _

theorem only_finish (o : Options) (s : Polling) : Only untimed (finish o s) := by
  refine only_bind (only_call trivial) fun _ => ?_
  split
  · exact only_bind (only_disarmUserpcIfArmed _ _) fun _ => only_stop
  · refine only_bind (only_lastSamples o s) fun _ => ?_
    refine only_bind (only_snapshot _ trivial) fun _ => ?_
    refine only_bind (only_snapshot _ trivial) fun _ => ?_
    exact only_bind (only_call trivial) fun _ => trivial

/-! ### The poll loop -/

/-- Where the poll loop is between two calls of a pass. -/
abbrev Polls (o : Options) (clock : ℕ → ℕ) (start : UInt64) (s : Polling) (n : ℕ)
    (t : History) : Prop :=
  Running o.timeoutMs clock start s.termSent s.killSent n t

/-- A signal that is not early. -/
theorem meets_expire_timely (hclock : Monotone clock) {pid sig : ℤ} {s : Polling}
    {Q : Polling → History → Prop} (ht : Polls o clock start s n t)
    (hsig : sig = 15 ∧ o.timeoutMs.toNat ≤ n ∨
      sig = 9 ∧ o.timeoutMs.toNat + 2000 ≤ n ∧ s.termSent = true)
    (h : ∀ s' t, s'.termSent = s.termSent → s'.killSent = s.killSent →
      Running o.timeoutMs clock start (s.termSent || sig == 15) (s.killSent || sig == 9) n t →
      Q s' t) :
    Meets ((timely o.timeoutMs clock).to Q) (expire o pid sig s) t := by
  have hkill : ∀ (s' : Polling) (t : History), s'.termSent = s.termSent →
      s'.killSent = s.killSent → Polls o clock start s n t →
      Meets ((timely o.timeoutMs clock).to Q) (kill (-pid) sig >>= fun _ => pure s') t := by
    intro s' t hterm hkilled ht
    refine (meets_call_bind (Call.kill (-pid) sig)).2 fun r => ⟨fun hfair => ?_, ?_⟩
    · refine ⟨ht.started, ?_⟩
      have hlate := ht.late hfair
      rcases hsig with ⟨rfl, hn⟩ | ⟨rfl, hn, hsent⟩
      · exact .inl ⟨rfl, hn.trans hlate⟩
      · exact .inr ⟨rfl, hn.trans hlate, ht.sentTerm.trans hsent⟩
    · have hafter := ht.snoc hclock (e := ⟨.kill (-pid) sig, r⟩) fun hkill => by
        rcases hsig with ⟨rfl, -⟩ | ⟨-, -, hsent⟩
        · exact absurd hkill (by simp [isKill])
        · exact hsent
      exact h s' _ hterm hkilled hafter
  unfold expire
  split
  · refine meets_bind.2 (meets_running hclock (only_captureUserpcState _) ht ?_)
    intro samples t ht
    refine meets_bind.2 (meets_running hclock (only_disarmUserpcIfArmed _ _) ht ?_)
    exact fun armed t ht => hkill { s with samples, armed } t rfl rfl ht
  · exact hkill s t rfl rfl ht

/-- **What a reading tells.**  The signal is sent when it is due. -/
theorem due_le_sinceStart (hclock : Monotone clock) (hstarted : Kprofile.started t = true)
    (hkill : sent 9 t = false) {now : UInt64} (htick : Ticks clock t ⟨.uptime, now⟩)
    (hsteady : Steady timeout clock t ⟨.uptime, now⟩)
    (hreached : timeout.toNat ≤ (now - reading (startTime clock t)).toNat)
    (hnext : sent 15 t = true →
      (timeout + 2000).toNat ≤ (now - reading (startTime clock t)).toNat) :
    due timeout t ≤ sinceStart clock t := by
  obtain rfl : now = reading (clock t.length) := htick
  have htimeout : timeout.toNat < 2 ^ 64 := timeout.toNat_lt
  have hsum : (timeout + 2000).toNat = (timeout.toNat + 2000) % 2 ^ 64 := by
    simp [UInt64.toNat_add]
  rw [hsum] at hnext
  have hpast : startTime clock t ≤ clock t.length := hclock List.findIdx_le_length
  rcases hsteady hstarted hkill with hle | hdue | hfar
  · -- the readings do not go back, so the subtraction gives no more than has passed
    obtain ⟨hpassed, hsmall⟩ := elapsed_le hpast hle
    rw [sinceStart, due]
    split
    · rename_i hterm
      have hnext := hnext hterm
      omega
    · omega
  · exact hdue
  · -- the signal would not be sent
    exfalso
    have helapsed := @elapsed_of_back (startTime clock t) (clock t.length)
    unfold threshold due at hfar
    by_cases hterm : sent 15 t = true
    · have hnext := hnext hterm
      simp only [if_pos hterm] at hfar
      split at hfar
      · have hback := helapsed (by omega)
        omega
      · have hback := helapsed (by omega)
        omega
    · simp only [if_neg hterm, if_pos htimeout] at hfar
      have hback := helapsed (by omega)
      omega

theorem meets_timeOut_timely (hclock : Monotone clock) {pid : ℤ} {elapsed : UInt64} {s : Polling}
    {Q : Bool × Polling → History → Prop} (ht : Polls o clock start s n t)
    (hterm : s.termSent = false → o.timeoutMs.toNat ≤ n)
    (hkill : s.termSent = true → s.killSent = false → elapsed ≥ o.timeoutMs + 2000 →
      o.timeoutMs.toNat + 2000 ≤ n)
    (h : ∀ b s t, Polls o clock start s 0 t → Q (b, s) t) :
    Meets ((timely o.timeoutMs clock).to Q) (timeOut o pid elapsed s) t := by
  unfold timeOut
  split_ifs with hunsent hnext
  · have hn := hterm (by simpa using hunsent)
    refine meets_bind.2 (meets_expire_timely hclock ht (.inl ⟨rfl, hn⟩) ?_)
    intro s' t _ hkilled ht
    refine h false { s' with termSent := true } t ?_
    have hsent := ht.forget
    simp only [beq_self_eq_true, Bool.or_true, show ((15 : ℤ) == 9) = false from rfl,
      Bool.or_false] at hsent
    rw [← hkilled] at hsent
    exact hsent
  · have hsent : s.termSent = true := by simpa using hunsent
    have hn := hkill hsent (by simpa using hnext.1) hnext.2
    refine meets_bind.2 (meets_expire_timely hclock ht (.inr ⟨rfl, hn, hsent⟩) ?_)
    intro s' t hterm _ ht
    refine h false { s' with killSent := true } t ?_
    have hkilled := ht.forget
    simp only [beq_self_eq_true, Bool.or_true, show ((9 : ℤ) == 15) = false from rfl,
      Bool.or_false] at hkilled
    rw [← hterm] at hkilled
    exact hkilled
  · exact h _ s t ht.forget

theorem Running.read (hclock : Monotone clock) (ht : Running timeout clock start term kill n t)
    (now : UInt64) : Running timeout clock start term kill n (t ++ [⟨.uptime, now⟩]) := by
  have hread := ht.snoc hclock (e := ⟨.uptime, now⟩) fun hkill => absurd hkill Bool.false_ne_true
  simpa [isKill] using hread

/-- The milliseconds that a signal is sent after, if one is sent when `elapsed` is read. -/
def needed (o : Options) (elapsed : UInt64) (s : Polling) : ℕ :=
  if s.killSent then 0
  else if !s.termSent then o.timeoutMs.toNat
  else if elapsed ≥ o.timeoutMs + 2000 then o.timeoutMs.toNat + 2000
  else 0

/-- **The milliseconds have passed.** -/
theorem Running.reached (hclock : Monotone clock) {s : Polling} (ht : Polls o clock start s 0 t)
    {now : UInt64} (hreached : now - start ≥ o.timeoutMs) :
    Polls o clock start s (needed o (now - start) s) (t ++ [⟨.uptime, now⟩]) := by
  refine { ht.read hclock now with late := fun hfair => ?_ }
  obtain ⟨hbefore, htick, hsteady⟩ := hfair.snoc
  have hstart := ht.first hbefore
  have hdue : s.killSent = false → (s.termSent = true → now - start ≥ o.timeoutMs + 2000) →
      due o.timeoutMs t ≤ sinceStart clock (t ++ [⟨.uptime, now⟩]) := by
    intro hkill hnext
    rw [hstart] at hreached hnext
    refine le_trans ?_ (sinceStart_snoc hclock ht.started _)
    refine due_le_sinceStart hclock ht.started (ht.sentKill.trans hkill) htick hsteady
      (UInt64.le_iff_toNat_le.1 hreached) fun hterm => ?_
    exact UInt64.le_iff_toNat_le.1 (hnext (ht.sentTerm.symm.trans hterm))
  rw [due, ht.sentTerm] at hdue
  unfold needed
  split_ifs with hkill hterm hnext
  · exact Nat.zero_le _
  · have hunsent : s.termSent = false := by simpa using hterm
    have hlate := hdue (by simpa using hkill) (by simp [hunsent])
    rwa [hunsent, if_neg Bool.false_ne_true] at hlate
  · have hsent : s.termSent = true := by simpa using hterm
    have hlate := hdue (by simpa using hkill) fun _ => hnext
    rwa [if_pos hsent] at hlate
  · exact Nat.zero_le _

theorem meets_pollChild_timely (hclock : Monotone clock) {pid : ℤ} {s : Polling}
    {Q : Bool × Polling → History → Prop} (ht : Polls o clock start s 0 t)
    (h : ∀ b s t, Polls o clock start s 0 t → Q (b, s) t) :
    Meets ((timely o.timeoutMs clock).to Q) (pollChild o pid start s) t := by
  refine (meets_call_bind (Call.waitpid pid true)).2 fun r => ⟨fun _ => trivial, ?_⟩
  have ht := ht.untimed hclock (c := .waitpid pid true) trivial r
  obtain ⟨w, status⟩ := r
  dsimp only
  split_ifs with hpid hneg
  · exact h true _ _ ht
  · exact h true _ _ ht
  · refine (meets_call_bind Call.uptime).2 fun now => ⟨fun _ => trivial, ?_⟩
    split_ifs with htime
    · refine meets_timeOut_timely hclock (ht.reached hclock htime.2) ?_ ?_ h
      · intro hterm
        have hkill : s.killSent = false :=
          Bool.eq_false_iff.2 fun hkill => by simp [ht.order hkill] at hterm
        have hunsent : s.termSent = false := hterm
        simp [needed, hunsent, hkill]
      · intro hterm hkill hnext
        rw [needed, hterm, hkill, if_pos hnext]
        exact le_rfl
    · exact h false _ _ (ht.read hclock now)

/-- **The poll loop.** -/
theorem meets_poll_timely (hclock : Monotone clock) {pid : ℤ} {fuel : ℕ} {s : Polling}
    {Q : Polling → History → Prop} (ht : Polls o clock start s 0 t)
    (h : ∀ s t, Polls o clock start s 0 t → Q s t) :
    Meets ((timely o.timeoutMs clock).to Q) (poll o pid start fuel s) t := by
  induction fuel generalizing s t with
  | zero => exact trivial
  | succ fuel ih =>
    have hpass : ∀ (samples : Samples) (t : History), Polls o clock start s 0 t →
        Meets ((timely o.timeoutMs clock).to Q)
          (pollChild o pid start { s with samples } >>= fun r =>
            if r.1 then pure r.2 else profileSleep >>= fun _ => poll o pid start fuel r.2) t := by
      intro samples t ht
      refine meets_bind.2 (meets_pollChild_timely (s := { s with samples }) hclock ht ?_)
      intro ends s t ht
      cases ends with
      | true => exact h s t ht
      | false =>
        refine meets_bind.2 (meets_running hclock (only_call trivial) ht fun _ t ht => ?_)
        exact ih ht
    refine meets_bind.2 (meets_running hclock (only_call trivial) ht fun _ t ht => ?_)
    split_ifs with hu
    · exact meets_bind.2 (meets_running hclock (only_captureUserpcState _) ht hpass)
    · exact hpass _ t ht

/-- **The parent.** -/
theorem meets_parent_timely (hclock : Monotone clock) {fuel : ℕ} {userpcMaps : Bool} {pid : ℤ}
    (ht : Waiting t) :
    Meets (timely o.timeoutMs clock) (parent o fuel userpcMaps pid) t := by
  have hfinish : ∀ s start term kill t, Running o.timeoutMs clock start term kill 0 t →
      Meets (timely o.timeoutMs clock) (finish o s) t := fun s start term kill t ht =>
    meets_running hclock (only_finish o s) ht fun _ _ _ => trivial
  unfold parent
  split_ifs with hp
  · refine meets_bind.2 (meets_waiting (only_prepare o pid) ht fun armed t ht => ?_)
    refine (meets_call_bind Call.uptime).2 fun start => ⟨fun _ => trivial, ?_⟩
    refine meets_bind.2 (meets_poll_timely hclock (ht.uptime start) fun s t ht => ?_)
    exact hfinish s _ _ _ t ht
  · refine (meets_call_bind Call.uptime).2 fun start => ⟨fun _ => trivial, ?_⟩
    refine meets_bind.2 (meets_running hclock (only_call trivial) (ht.uptime start) ?_)
    exact fun _ t ht => hfinish _ _ _ _ t ht

theorem meets_profile_timely (hclock : Monotone clock) {command fuel : ℕ} {maps : Bool}
    (ht : Waiting t) : Meets (timely o.timeoutMs clock) (profile o command fuel maps) t := by
  have hstop : ∀ t, Waiting t → Meets (timely o.timeoutMs clock) (stop : Prog Unit) t :=
    fun t ht => meets_waiting only_stop ht fun _ _ _ => trivial
  have hfork : ∀ (opened : Bool) (t : History), Waiting t → Meets (timely o.timeoutMs clock)
      (if !opened then stop else do
        let pid ← fork
        if pid < 0 then stop
        else if pid = 0 then child o command
        else parent o fuel maps pid) t := by
    intro opened t ht
    split
    · exact hstop t ht
    refine meets_bind.2 (meets_waiting (only_call trivial) ht fun pid t ht => ?_)
    split_ifs with hneg hzero
    · exact hstop t ht
    · exact meets_waiting (only_child o command) ht fun _ _ _ => trivial
    · exact meets_parent_timely hclock ht
  refine meets_bind.2 (meets_waiting (only_call trivial) ht fun r t ht => ?_)
  split
  · exact hstop t ht
  split
  · exact meets_bind.2 (meets_waiting only_openPipes ht hfork)
  · exact hfork true t ht

/-- **The whole program.** -/
theorem meets_main_timely (hclock : Monotone clock) {ringCap : UInt64} {fuel command : ℕ}
    {argv : List (List Byte)} (ho : parseOptions ringCap argv = some (o, command)) :
    Meets (timely o.timeoutMs clock) (main ringCap fuel argv) [] := by
  have henable : ∀ (maps : Bool) (t : History), Waiting t → Meets (timely o.timeoutMs clock)
      (do if (← kstatsctl true o.vfsEnoentAttr) < 0 then .exit 1
          else profile o command fuel maps) t := by
    intro maps t ht
    refine meets_bind.2 (meets_waiting (only_call trivial) ht fun r t ht => ?_)
    split
    · exact trivial
    · exact meets_profile_timely hclock ht
  have hstart : Waiting [] := ⟨rfl, rfl, rfl⟩
  unfold main
  rw [ho]
  dsimp only
  split
  · exact meets_bind.2 (meets_waiting (only_call trivial) hstart henable)
  · exact henable false [] hstart

/-- **When no signal is early**: in every run with a clock that does not go back, when no poll
of it brings a signal forward. -/
theorem signals_timely {ringCap : UInt64} {fuel command : ℕ} {argv : List (List Byte)}
    (ho : parseOptions ringCap argv = some (o, command)) (hclock : Monotone clock)
    {q : Prog Unit} (hr : Reaches (main ringCap fuel argv) t q) (hticks : Each (Ticks clock) t)
    (hsteady : Each (Steady o.timeoutMs clock) t) : Each (Timely o.timeoutMs clock) t := by
  intro t₁ e t₂ ht
  have hcall := ((meets_main_timely hclock ho).reaches hr).2 t₁ e t₂ ht
  rw [List.nil_append] at hcall
  subst ht
  exact hcall ⟨hticks.of_append, hsteady.of_append⟩

/-- Up to 2³¹ ms, which are almost 25 days, the readings do not go back. -/
theorem steady_of_lt (hclock : Monotone clock) (hsmall : ∀ n, clock n < 2 ^ 31) (t : History)
    (e : Event Reply) : Steady timeout clock t e := by
  obtain ⟨c, r⟩ := e
  cases c with
  | uptime =>
    intro _ _
    have hstart : startTime clock t < 2 ^ 31 := hsmall _
    have hnow := hsmall t.length
    have hpast : startTime clock t ≤ clock t.length := hclock List.findIdx_le_length
    rw [CInt.int32_of_range (by omega) (by omega), CInt.int32_of_range (by omega) (by omega)]
    exact .inl (by omega)
  | _ => exact trivial

/-- The answers at the times of a clock: the child does not end. -/
def timedAnswer (clock : ℕ → ℕ) (s : History) : (c : Call) → Reply c
  | .uptime => reading (clock s.length)
  | c => testAnswer 0 1 c

theorem each_ticks (clock : ℕ → ℕ) (p : Prog Unit) :
    Each (Ticks clock) (follow (timedAnswer clock) p []).1 := by
  refine each_follow (fun s c => ?_) p []
  cases c with
  | uptime => exact rfl
  | _ => exact trivial

/-- `kprofile --timeout-ms 1000 sh`. -/
def testArgv : List (List Byte) := [arg "kprofile", arg "--timeout-ms", arg "1000", arg "sh"]

/-- A call takes a second, up to the hundredth. -/
def slowClock (n : ℕ) : ℕ := min (1000 * n) 100000

/-- Both signals are sent, and in time. -/
theorem signals_timely_slow :
    Each (Timely 1000 slowClock)
      (follow (timedAnswer slowClock) (main 4096 3 testArgv) []).1 ∧
    sent 9 (follow (timedAnswer slowClock) (main 4096 3 testArgv) []).1 = true := by
  have hclock : Monotone slowClock := fun a b hab => by
    unfold slowClock
    omega
  have hsmall : ∀ n, slowClock n < 2 ^ 31 := fun n => by
    unfold slowClock
    omega
  have ho : parseOptions 4096 testArgv =
      some ({ Options.start with timeoutMs := 1000 }, 3) := by decide
  refine ⟨signals_timely ho hclock (reaches_follow _ _ _) (each_ticks slowClock _) ?_, by decide⟩
  exact fun t e _ _ => steady_of_lt hclock hsmall t e

theorem Timely.of_term {e : Event Reply} (h : Timely timeout clock t e)
    (he : isKill 15 e = true) : timeout.toNat ≤ sinceStart clock t := by
  obtain ⟨c, r⟩ := e
  cases c with
  | kill pid sig =>
    obtain ⟨-, ⟨-, hn⟩ | ⟨hsig, hn, -⟩⟩ := h
    · exact hn
    · omega
  | _ => exact absurd he Bool.false_ne_true

/-- A call takes a millisecond, and the child is started two before the reading goes back. -/
def wrappingClock (n : ℕ) : ℕ := 2 ^ 31 - 15 + n

/-- **A signal that is early**: `SIGTERM` four milliseconds after the start of the child, with a
timeout of a second. -/
theorem signals_early :
    ¬∀ (ringCap : UInt64) (fuel command : ℕ) (argv : List (List Byte)) (o : Options)
      (clock : ℕ → ℕ) (t : History) (q : Prog Unit),
      parseOptions ringCap argv = some (o, command) → 0 < o.timeoutMs → Monotone clock →
      Reaches (main ringCap fuel argv) t q → Each (Ticks clock) t →
      Each (Timely o.timeoutMs clock) t := by
  intro h
  have ho : parseOptions 4096 testArgv =
      some ({ Options.start with timeoutMs := 1000 }, 3) := by decide
  have hclock : Monotone wrappingClock := fun a b hab => by
    unfold wrappingClock
    omega
  have hall := h 4096 1 3 testArgv _ wrappingClock _ _ ho (by decide) hclock
    (reaches_follow (timedAnswer wrappingClock) _ []) (each_ticks wrappingClock _)
  have hkill : (follow (timedAnswer wrappingClock) (main 4096 1 testArgv) []).1[17]?.any
      (isKill 15) = true := by decide
  have hpassed : sinceStart wrappingClock
      ((follow (timedAnswer wrappingClock) (main 4096 1 testArgv) []).1.take 17) = 4 := by decide
  obtain ⟨e, he, hterm⟩ := (Option.any_eq_true _ _).1 hkill
  have hdue := (hall.getElem he).of_term hterm
  rw [hpassed] at hdue
  exact absurd hdue (by decide)

end Kprofile
end Tools
end V6User
