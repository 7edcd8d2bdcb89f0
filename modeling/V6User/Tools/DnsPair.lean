import V6User.Tools.DnsQuery
import V6User.Tools.ParseIp4

/-!
# A pair of DNS queries

`programs/dnsstress/dnsstress.c`: `parse_ipv4` and `query_pair`.

The queries for the address of type `A` and of type `AAAA` go out one after the other, and the
replies are waited for in up to eight turns.  Datagrams from elsewhere, replies to other queries
and replies in any order may come in between.  Each goes into the same buffer, whose first two
bytes are read as the id, so that of a datagram of one byte the other one is left over from before
(`arrivals`).

`query_pair` returns 0 exactly if both queries were sent, no call fails up to the turn where both
have been answered or the eighth one, no reply to the first query is broken, and the last one is
usable (`queryPair_iff`).  Nothing is asked of the replies to the second query.
-/

namespace V6User
namespace Tools
namespace DnsPair

open DnsQuery DnsResponse Offsets

/-! ### What the kernel gives -/

/-- `sizeof(reply)`. -/
def replySize : ℕ := 1536

/-- What `recvfrom` puts into `reply`, and where it came from. -/
structure Datagram where
  bytes : List UInt8
  addr : UInt32
  port : UInt16
  pos : 0 < bytes.length
  le : bytes.length ≤ replySize

/-- What ends the inner loop: `-EAGAIN`, or another result that is not positive. -/
inductive Ending where
  | again
  | failed (n : ℤ)

/-- What one turn of the outer loop gets: no event in time, an error of `poll`, or some datagrams
and an end of them.  They are finitely many, so that the inner loop ends. -/
inductive Turn where
  | timeout
  | pollFailed (prc : ℤ)
  | ready (ds : List Datagram) (ending : Ending)

/-- The results of the calls: `getpid`, `socket`, the two of `sendto`, and the turns. -/
structure Kernel where
  pid : ℤ
  socket : ℤ
  sent4 : ℤ
  sent6 : ℤ
  turns : ℕ → Turn

/-- `enum dns_fail_reason`. -/
inductive Reason where
  | none
  | build
  | socket
  | server
  | send4
  | send6
  | poll
  | recv
  | badSrc
  | bad4
  | timeout4
  deriving DecidableEq

/-- `struct dns_result`. -/
structure DnsResult where
  reason : Reason
  detail : ℤ
  got4 : ℤ
  got6 : ℤ
  badSrcAddr : UInt32
  badSrcPort : UInt16

/-- `dns_result_init`. -/
def DnsResult.init : DnsResult := ⟨.none, 0, 0, 0, 0, 0⟩

/-! ### The program -/

/-- The loop of `parse_ipv4`: the `parts` at the end of the string. -/
def ipv4Loop (parts : List ℤ) (value : ℤ) : List UInt8 → Option (List ℤ)
  | [] => if 4 ≤ parts.length then none else some (parts ++ [value])
  | c :: s =>
    match decimalVal c with
    | some d => if 255 < value * 10 + d then none else ipv4Loop parts (value * 10 + d) s
    | none =>
      if c = dot then
        if 4 ≤ parts.length then none else ipv4Loop (parts ++ [value]) 0 s
      else none

/-- `parse_ipv4(s)`. -/
def parseIpv4 (s : List UInt8) : UInt32 :=
  match ipv4Loop [] 0 s with
  | some parts => if parts.length ≠ 4 then 0 else networkOrder parts
  | none => 0

/-- `dst`, and the ids of the queries. -/
structure Query where
  addr : UInt32
  port : UInt16
  id4 : UInt16
  id6 : UInt16

/-- `bswap16(DNS_PORT)`. -/
def dnsPort : UInt16 := (53 : UInt16) <<< 8 ||| (53 : UInt16) >>> 8

/-- The variables of the loops. -/
structure Session where
  got4 : ℤ
  got6 : ℤ
  reply : ℤ → UInt8
  res : DnsResult

/-- The function is left: at a fault of the model of `response_usable`, or with -1. -/
inductive Exit where
  | stop (e : Stop)
  | fail (res : DnsResult)

/-- A computation inside of the loops. -/
def lift {α : Type} (x : Except Stop α) : Except Exit α := x.mapError Exit.stop

/-- The buffer after a datagram. -/
def Datagram.into (d : Datagram) (reply : ℤ → UInt8) : ℤ → UInt8 := fun i =>
  if 0 ≤ i ∧ i < d.bytes.length then d.bytes.getD i.toNat 0 else reply i

/-- One turn of the inner loop, for a datagram. -/
def receiveOne (q : Query) (s : Session) (d : Datagram) : Except Exit Session := do
  let reply := d.into s.reply
  if d.addr ≠ q.addr ∨ d.port ≠ q.port then
    .ok { s with
      reply := reply
      res := { s.res with reason := .badSrc, badSrcAddr := d.addr, badSrcPort := d.port } }
  else do
    let id ← lift (get16 ⟨reply, replySize⟩ 0)
    if id = q.id4 then do
      let ok ← lift (responseUsable ⟨reply, d.bytes.length⟩ q.id4 1)
      if 0 < ok then .ok { s with reply := reply, got4 := 1 }
      else if ok < 0 then .error (.fail { s.res with reason := .bad4, detail := d.bytes.length })
      else .ok { s with reply := reply, got4 := -1 }
    else if id = q.id6 then do
      let ok ← lift (responseUsable ⟨reply, d.bytes.length⟩ q.id6 28)
      .ok { s with reply := reply, got6 := if 0 < ok then 1 else -1 }
    else .ok { s with reply := reply }

/-- One turn of the outer loop. -/
def takeTurn (q : Query) (s : Session) : Turn → Except Exit Session
  | .timeout => .ok s
  | .pollFailed prc => .error (.fail { s.res with reason := .poll, detail := prc })
  | .ready ds ending => do
    let s ← ds.foldlM (receiveOne q) s
    match ending with
    | .again => .ok s
    | .failed n => .error (.fail { s.res with reason := .recv, detail := n })

/-- The outer loop, with the turns that it may still take. -/
def waitLoop (q : Query) (turns : ℕ → Turn) : ℕ → ℕ → Session → Except Exit Session
  | 0, _, s => .ok s
  | left + 1, wait, s =>
    if s.got4 ≠ 0 ∧ s.got6 ≠ 0 then .ok s
    else do
      let s ← takeTurn q s (turns wait)
      waitLoop q turns left (wait + 1) s

/-- The address, the port and the ids that `query_pair` computes. -/
def queryOf (k : Kernel) (server : List UInt8) (iter : ℤ) : Query :=
  let id4 := UInt16.ofInt (0x4000 + (k.pid * 37 + iter * 2))
  ⟨parseIpv4 server, dnsPort, id4, id4 + 1⟩

/-- What `query_pair` does when it has made the queries, of these lengths. -/
def exchange (k : Kernel) (q : Query) (reply : ℤ → UInt8) (q4len q6len : ℤ) :
    Except Stop (ℤ × DnsResult) :=
  let init := DnsResult.init
  if q4len < 0 ∨ q6len < 0 then .ok (-1, { init with reason := .build })
  else if k.socket < 0 then .ok (-1, { init with reason := .socket, detail := k.socket })
  else if q.addr = 0 then .ok (-1, { init with reason := .server })
  else if k.sent4 ≠ q4len then .ok (-1, { init with reason := .send4, detail := k.sent4 })
  else if k.sent6 ≠ q6len then .ok (-1, { init with reason := .send6, detail := k.sent6 })
  else
    match waitLoop q k.turns 8 0 ⟨0, 0, reply, init⟩ with
    | .error (.stop e) => .error e
    | .error (.fail res) => .ok (-1, res)
    | .ok s =>
      if s.got4 = 1 then .ok (0, s.res)
      else .ok (-1, { s.res with
        reason := if s.res.reason = .none then .timeout4 else s.res.reason
        got4 := s.got4
        got6 := s.got6 })

/-- `query_pair(server, host, iter, res)`: what it returns, and `*res` then.  The buffers hold
anything at first. -/
def queryPair (k : Kernel) (q4 q6 reply : ℤ → UInt8) (server : List UInt8) (host : Host)
    (iter : ℤ) : Except Stop (ℤ × DnsResult) := do
  let q := queryOf k server iter
  let r4 ← makeQuery q4 512 q.id4 host 1
  let r6 ← makeQuery q6 512 q.id6 host 28
  exchange k q reply r4.2 r6.2

/-! ### What arrives -/

/-- A datagram in the buffer: where it came from, the buffer, and its length. -/
structure Arrival where
  addr : UInt32
  port : UInt16
  buf : ℤ → UInt8
  len : ℤ

/-- The buffer after some datagrams. -/
def fill (reply : ℤ → UInt8) (ds : List Datagram) : ℤ → UInt8 :=
  ds.foldl (fun reply d => d.into reply) reply

/-- Datagrams one after another in the buffer. -/
def arrivals (reply : ℤ → UInt8) : List Datagram → List Arrival
  | [] => []
  | d :: ds => ⟨d.addr, d.port, d.into reply, d.bytes.length⟩ :: arrivals (d.into reply) ds

/-- The datagram comes from the server, and its first bytes are this id. -/
def Arrival.Answers (q : Query) (id : UInt16) (a : Arrival) : Prop :=
  a.addr = q.addr ∧ a.port = q.port ∧ (⟨a.buf, replySize⟩ : Reply).word 0 = id.toNat

instance (q : Query) (id : UInt16) : DecidablePred (Arrival.Answers q id) := fun _ =>
  inferInstanceAs (Decidable (_ ∧ _ ∧ _))

/-- The replies to a query among what arrived. -/
def replies (q : Query) (id : UInt16) (as : List Arrival) : List Arrival :=
  as.filter fun a => a.Answers q id

/-- What `response_usable` looks at. -/
def Arrival.toReply (a : Arrival) : Reply := ⟨a.buf, a.len⟩

/-- A reply to the first query that `response_usable` returns -1 for. -/
def Broken (q : Query) (a : Arrival) : Prop :=
  ∃ v, responseUsable a.toReply q.id4 1 = .ok v ∧ v < 0

/-- Both queries have been answered. -/
def Answered (q : Query) (as : List Arrival) : Prop :=
  replies q q.id4 as ≠ [] ∧ replies q q.id6 as ≠ []

/-- The datagrams of a turn. -/
def Turn.datagrams : Turn → List Datagram
  | .ready ds _ => ds
  | _ => []

/-- No call of the turn failed. -/
def Turn.Fine : Turn → Prop
  | .timeout => True
  | .ready _ .again => True
  | _ => False

/-- What arrives in the first `m` turns. -/
def heard (k : Kernel) (reply : ℤ → UInt8) (m : ℕ) : List Arrival :=
  arrivals reply ((List.range m).flatMap fun i => (k.turns i).datagrams)

/-- Both queries were made and sent as a whole. -/
structure Sent (k : Kernel) (server : List UInt8) (host : Host) : Prop where
  labels : ∀ l ∈ labels host.bytes, LegalLabel l
  length : (host.bytes.length : ℤ) + 18 ≤ 512
  socket : 0 ≤ k.socket
  server : parseIpv4 server ≠ 0
  sent4 : k.sent4 = host.bytes.length + 18
  sent6 : k.sent6 = host.bytes.length + 18

/-- The replies are waited for in `m` turns: up to the one after which both queries have been
answered, and in at most eight. -/
structure Waits (k : Kernel) (q : Query) (reply : ℤ → UInt8) (m : ℕ) : Prop where
  le : m ≤ 8
  before : ∀ i < m, ¬Answered q (heard k reply i)
  enough : m = 8 ∨ Answered q (heard k reply m)

/-- The turns go well, and the last reply to the first query is usable. -/
structure Succeeds (k : Kernel) (q : Query) (reply : ℤ → UInt8) (m : ℕ) : Prop where
  fine : ∀ i < m, (k.turns i).Fine
  formed : ∀ a ∈ replies q q.id4 (heard k reply m), ¬Broken q a
  last : ∃ a, (replies q q.id4 (heard k reply m)).getLast? = some a ∧
    Usable a.toReply q.id4 1

section Runs

variable {k : Kernel} {q : Query} {reply : ℤ → UInt8} {m : ℕ} {s s' : Session} {d : Datagram}
  {ds : List Datagram} {as : List Arrival} {id : UInt16}

/-- The number of turns is determined. -/
theorem Waits.unique {m' : ℕ} (h : Waits k q reply m) (h' : Waits k q reply m') : m = m' := by
  have hle : ∀ {m m'}, Waits k q reply m → Waits k q reply m' → m' ≤ m := by
    intro m m' h h'
    refine Nat.le_of_not_lt fun hlt => ?_
    rcases h.enough with height | hanswered
    · have hle := h'.le
      omega
    · exact h'.before m hlt hanswered
  exact Nat.le_antisymm (hle h' h) (hle h h')

theorem arrivals_append (reply : ℤ → UInt8) (ds ds' : List Datagram) :
    arrivals reply (ds ++ ds') = arrivals reply ds ++ arrivals (fill reply ds) ds' := by
  induction ds generalizing reply with
  | nil => rfl
  | cons d ds ih => exact congrArg _ (ih (d.into reply))

theorem replies_append (as as' : List Arrival) :
    replies q id (as ++ as') = replies q id as ++ replies q id as' := List.filter_append ..

/-- What `got4` and `got6` say of the replies that came: nothing, or whether the last was
usable. -/
def verdict (q : Query) (id qtype : UInt16) (as : List Arrival) : ℤ → Prop := fun v =>
  (v = 0 ∧ replies q id as = []) ∨ ∃ a, (replies q id as).getLast? = some a ∧
    (v = 1 ∧ Usable a.toReply id qtype ∨ v = -1 ∧ ¬Usable a.toReply id qtype)

/-- The variables of the loops after what arrived. -/
structure Inv (q : Query) (as : List Arrival) (s : Session) : Prop where
  got4 : verdict q q.id4 1 as s.got4
  got6 : verdict q q.id6 28 as s.got6
  formed : ∀ a ∈ replies q q.id4 as, ¬Broken q a

/-! ### The inner loop -/

theorem replySize_gt : (0 : ℤ) + 1 < replySize := by decide

/-- The datagram in the buffer. -/
def arrival (reply : ℤ → UInt8) (d : Datagram) : Arrival :=
  ⟨d.addr, d.port, d.into reply, d.bytes.length⟩

theorem replies_snoc_of_answers {a : Arrival} (h : a.Answers q id) (as : List Arrival) :
    replies q id (as ++ [a]) = replies q id as ++ [a] := by
  rw [replies_append]
  exact congrArg _ (List.filter_cons_of_pos (decide_eq_true h))

theorem replies_snoc_of_not {a : Arrival} (h : ¬a.Answers q id) (as : List Arrival) :
    replies q id (as ++ [a]) = replies q id as := by
  rw [replies_append]
  have hnil : replies q id [a] = [] := List.filter_cons_of_neg fun hdec => h (of_decide_eq_true hdec)
  rw [hnil, List.append_nil]

theorem verdict_snoc {a : Arrival} {v : ℤ} {qtype : UInt16} (h : a.Answers q id)
    (hv : v = 1 ∧ Usable a.toReply id qtype ∨ v = -1 ∧ ¬Usable a.toReply id qtype) :
    verdict q id qtype (as ++ [a]) v := by
  refine .inr ⟨a, ?_, hv⟩
  rw [replies_snoc_of_answers h, List.getLast?_concat]

theorem verdict_snoc_of_not {a : Arrival} {v : ℤ} {qtype : UInt16} (h : ¬a.Answers q id)
    (hv : verdict q id qtype as v) : verdict q id qtype (as ++ [a]) v := by
  unfold verdict
  rw [replies_snoc_of_not h]
  exact hv

theorem verdict_ne_zero {v : ℤ} {qtype : UInt16} (h : verdict q id qtype as v) :
    v ≠ 0 ↔ replies q id as ≠ [] := by
  rcases h with ⟨rfl, hnil⟩ | ⟨a, ha, ⟨rfl, -⟩ | ⟨rfl, -⟩⟩
  · exact iff_of_false (fun h => h rfl) (fun h => h hnil)
  · exact iff_of_true (by decide) fun hnil => by simp [hnil] at ha
  · exact iff_of_true (by decide) fun hnil => by simp [hnil] at ha

theorem verdict_eq_one {v : ℤ} {qtype : UInt16} (h : verdict q id qtype as v) :
    v = 1 ↔ ∃ a, (replies q id as).getLast? = some a ∧ Usable a.toReply id qtype := by
  rcases h with ⟨rfl, hnil⟩ | ⟨a, ha, ⟨rfl, hu⟩ | ⟨rfl, hu⟩⟩
  · refine iff_of_false (by decide) ?_
    rintro ⟨a, ha, -⟩
    simp [hnil] at ha
  · exact iff_of_true rfl ⟨a, ha, hu⟩
  · refine iff_of_false (by decide) ?_
    rintro ⟨b, hb, hub⟩
    rw [ha] at hb
    exact hu (Option.some.inj hb ▸ hub)

/-! ### What `response_usable` returns -/

theorem gives_any {α : Type} (x : Except Stop α) : Gives (fun _ => True) x fun _ => True := by
  cases x with
  | ok a => trivial
  | error e => trivial

theorem answers_le (r : Reply) (qtype : UInt16) (k : ℕ) (off : ℤ) :
    Gives (fun _ => True) (answers r qtype k off) fun v => v ≤ 1 := by
  have hneg : (-1 : ℤ) ≤ 1 := by decide
  induction k generalizing off with
  | zero => exact Int.zero_le_ofNat 1
  | succ k ih =>
    rw [answers]
    refine (gives_any _).bind fun m _ => ?_
    split_ifs
    · exact hneg
    refine (gives_any _).bind fun data _ => ?_
    split_ifs
    · exact hneg
    refine (gives_any _).bind fun typ _ => (gives_any _).bind fun cls _ =>
      (gives_any _).bind fun rdlen _ => (gives_any _).bind fun past _ => ?_
    split_ifs
    · exact hneg
    · exact Int.le_refl 1
    · exact ih past

theorem responseUsable_le (r : Reply) (id qtype : UInt16) :
    Gives (fun _ => True) (responseUsable r id qtype) fun v => v ≤ 1 := by
  have hneg : (-1 : ℤ) ≤ 1 := by decide
  rw [responseUsable]
  split_ifs
  · exact hneg
  refine (gives_any _).bind fun got _ => ?_
  split_ifs
  · exact hneg
  refine (gives_any _).bind fun flags _ => ?_
  split_ifs
  · exact Int.zero_le_ofNat 1
  refine (gives_any _).bind fun qd _ => (gives_any _).bind fun an _ =>
    (gives_any _).bind fun off _ => ?_
  cases off with
  | none => exact hneg
  | some off => exact answers_le r qtype _ off

/-- A run of the loops may stop with the result -1, for a reason, when `P` holds. -/
def Fails (P : Prop) (e : Exit) : Prop := ∃ res, e = .fail res ∧ res.reason ≠ .none ∧ P

/-- `response_usable` returns for what `recvfrom` has put into the buffer. -/
theorem exists_responseUsable (reply : ℤ → UInt8) (d : Datagram) (id qtype : UInt16) :
    ∃ v, responseUsable (arrival reply d).toReply id qtype = .ok v ∧
      v ≤ 1 ∧ (v = 1 ↔ Usable (arrival reply d).toReply id qtype) := by
  obtain ⟨-, -, htotal, hone⟩ := responseUsable_correct (arrival reply d).toReply id qtype
  have hlen : (arrival reply d).toReply.len + 65535 < 2 ^ 31 := by
    have hle := d.le
    show (d.bytes.length : ℤ) + 65535 < 2 ^ 31
    unfold replySize at hle
    omega
  obtain ⟨v, hv⟩ := (htotal hlen).2
  exact ⟨v, hv, (responseUsable_le _ _ _).of_ok hv, hone v hv⟩

/-- **A datagram is taken.** -/
theorem receiveOne_gives (hne : q.id6 ≠ q.id4) (h : Inv q as s) (d : Datagram) :
    Gives (Fails (∃ a ∈ replies q q.id4 (as ++ [arrival s.reply d]), Broken q a))
      (receiveOne q s d)
      fun s' => Inv q (as ++ [arrival s.reply d]) s' ∧ s'.reply = d.into s.reply := by
  set a := arrival s.reply d with hadef
  unfold receiveOne
  dsimp only
  -- a datagram that is no reply changes nothing but the buffer
  have hother : ∀ {res}, ¬a.Answers q q.id4 → ¬a.Answers q q.id6 →
      Inv q (as ++ [a]) ⟨s.got4, s.got6, d.into s.reply, res⟩ := by
    intro res h4 h6
    refine ⟨verdict_snoc_of_not h4 h.got4, verdict_snoc_of_not h6 h.got6, ?_⟩
    rw [replies_snoc_of_not h4]
    exact h.formed
  split_ifs with hsrc
  · have hnot : ∀ id, ¬a.Answers q id := by
      rintro id ⟨haddr, hport, -⟩
      exact hsrc.elim (fun hne => hne haddr) fun hne => hne hport
    exact ⟨hother (hnot _) (hnot _), rfl⟩
  obtain ⟨haddr, hport⟩ := not_or.1 hsrc
  obtain ⟨id, hid, hword⟩ : ∃ w, get16 ⟨d.into s.reply, replySize⟩ 0 = .ok w ∧ w.toNat =
      (⟨d.into s.reply, replySize⟩ : Reply).word 0 :=
    get16_of_inside (Int.le_refl 0) replySize_gt
  have hanswers : ∀ id', a.Answers q id' ↔ id = id' := by
    intro id'
    rw [← UInt16.toNat_inj, hword]
    exact ⟨fun h => h.2.2, fun h => ⟨not_not.1 haddr, not_not.1 hport, h⟩⟩
  rw [hid]
  show Gives _ (if id = q.id4 then _ else _) _
  split_ifs with h4 h6
  · have hself := (hanswers q.id4).2 h4
    have hnot6 : ¬a.Answers q q.id6 := fun hans => hne (((hanswers q.id6).1 hans).symm.trans h4)
    obtain ⟨v, hv, hle, hone⟩ := exists_responseUsable s.reply d q.id4 1
    have hv' : responseUsable ⟨d.into s.reply, d.bytes.length⟩ q.id4 1 = .ok v := hv
    rw [hv']
    show Gives _ (if 0 < v then _ else _) _
    have hbroken : Broken q a ↔ v < 0 := by
      constructor
      · rintro ⟨v', hv'', hneg⟩
        exact Except.ok.inj (hv.symm.trans hv'') ▸ hneg
      · exact fun hneg => ⟨v, hv, hneg⟩
    split_ifs with hpos hneg
    · refine ⟨⟨verdict_snoc hself (.inl ⟨rfl, hone.1 (by omega)⟩),
        verdict_snoc_of_not hnot6 h.got6, ?_⟩, rfl⟩
      rw [replies_snoc_of_answers hself]
      intro b hb
      rcases List.mem_append.1 hb with hb | hb
      · exact h.formed b hb
      · rw [List.mem_singleton.1 hb, hbroken]
        omega
    · refine ⟨_, rfl, Reason.noConfusion, a, ?_, hbroken.2 hneg⟩
      rw [replies_snoc_of_answers hself]
      exact List.mem_append_right _ (List.mem_singleton_self a)
    · refine ⟨⟨verdict_snoc hself (.inr ⟨rfl, fun hu => ?_⟩),
        verdict_snoc_of_not hnot6 h.got6, ?_⟩, rfl⟩
      · have h1 := hone.2 hu
        omega
      rw [replies_snoc_of_answers hself]
      intro b hb
      rcases List.mem_append.1 hb with hb | hb
      · exact h.formed b hb
      · rw [List.mem_singleton.1 hb, hbroken]
        exact hneg
  · have hself := (hanswers q.id6).2 h6
    have hnot4 : ¬a.Answers q q.id4 := fun hans => h4 ((hanswers q.id4).1 hans)
    obtain ⟨v, hv, hle, hone⟩ := exists_responseUsable s.reply d q.id6 28
    have hv' : responseUsable ⟨d.into s.reply, d.bytes.length⟩ q.id6 28 = .ok v := hv
    rw [hv']
    refine ⟨⟨verdict_snoc_of_not hnot4 h.got4, verdict_snoc hself ?_, ?_⟩, rfl⟩
    · split_ifs with hpos
      · exact .inl ⟨rfl, hone.1 (by omega)⟩
      · refine .inr ⟨rfl, fun hu => ?_⟩
        have h1 := hone.2 hu
        omega
    · rw [replies_snoc_of_not hnot4]
      exact h.formed
  · exact ⟨hother (fun hans => h4 ((hanswers _).1 hans)) fun hans => h6 ((hanswers _).1 hans), rfl⟩

/-- **The inner loop** over the datagrams of one turn. -/
theorem receive_gives (hne : q.id6 ≠ q.id4) (h : Inv q as s) (ds : List Datagram) :
    Gives (Fails (∃ a ∈ replies q q.id4 (as ++ arrivals s.reply ds), Broken q a))
      (ds.foldlM (receiveOne q) s)
      fun s' => Inv q (as ++ arrivals s.reply ds) s' ∧ s'.reply = fill s.reply ds := by
  induction ds generalizing as s with
  | nil =>
    refine ⟨?_, rfl⟩
    rw [arrivals, List.append_nil]
    exact h
  | cons d ds ih =>
    have hsplit : as ++ arrivals s.reply (d :: ds) =
        as ++ [arrival s.reply d] ++ arrivals (d.into s.reply) ds := by
      rw [List.append_assoc]
      rfl
    rw [List.foldlM_cons, hsplit]
    have hone := receiveOne_gives hne h d
    rcases hs : receiveOne q s d with e | s₁
    · -- the reply that was broken is among those of the turn
      rw [hs] at hone
      obtain ⟨res, he, hres, a, ha, hbroken⟩ := hone
      refine ⟨res, he, hres, a, ?_, hbroken⟩
      rw [replies_append]
      exact List.mem_append_left _ ha
    · rw [hs] at hone
      obtain ⟨hinv, hreply⟩ := hone
      have hrest := ih hinv
      rw [hreply] at hrest
      exact hrest

/-! ### The turns -/

/-- The buffer after the first `m` turns. -/
def filled (k : Kernel) (reply : ℤ → UInt8) (m : ℕ) : ℤ → UInt8 :=
  fill reply ((List.range m).flatMap fun i => (k.turns i).datagrams)

theorem fill_append (reply : ℤ → UInt8) (ds ds' : List Datagram) :
    fill reply (ds ++ ds') = fill (fill reply ds) ds' := List.foldl_append ..

/-- What has arrived after one turn more. -/
theorem heard_succ (k : Kernel) (reply : ℤ → UInt8) (m : ℕ) : heard k reply (m + 1) =
    heard k reply m ++ arrivals (filled k reply m) (k.turns m).datagrams := by
  unfold heard filled
  rw [List.range_succ, List.flatMap_append, List.flatMap_singleton, arrivals_append]

theorem filled_succ (k : Kernel) (reply : ℤ → UInt8) (m : ℕ) :
    filled k reply (m + 1) = fill (filled k reply m) (k.turns m).datagrams := by
  unfold filled
  rw [List.range_succ, List.flatMap_append, List.flatMap_singleton, fill_append]

/-- What has arrived stays. -/
theorem heard_begins (k : Kernel) (reply : ℤ → UInt8) {m n : ℕ} (hle : m ≤ n) :
    heard k reply m <+: heard k reply n := by
  induction n, hle using Nat.le_induction with
  | base => exact List.prefix_rfl
  | succ n _ ih =>
    rw [heard_succ]
    exact ih.trans (List.prefix_append _ _)

theorem mem_replies_of_begins {a : Arrival} {as' : List Arrival} (hle : as <+: as')
    (ha : a ∈ replies q id as) : a ∈ replies q id as' := by
  obtain ⟨rest, rfl⟩ := hle
  rw [replies_append]
  exact List.mem_append_left _ ha

/-- The state of the loop before turn `m`. -/
structure Before (k : Kernel) (q : Query) (reply : ℤ → UInt8) (m : ℕ) (s : Session) : Prop where
  inv : Inv q (heard k reply m) s
  buffer : s.reply = filled k reply m
  fine : ∀ i < m, (k.turns i).Fine
  waited : ∀ i < m, ¬Answered q (heard k reply i)

/-- The first turn that did not go well, before which not both queries were answered. -/
def Spoils (k : Kernel) (q : Query) (reply : ℤ → UInt8) (m : ℕ) : Prop :=
  m < 8 ∧ (∀ i ≤ m, ¬Answered q (heard k reply i)) ∧
    (¬(k.turns m).Fine ∨ ∃ a ∈ replies q q.id4 (heard k reply (m + 1)), Broken q a)

/-- **One turn of the outer loop.** -/
theorem takeTurn_gives (hne : q.id6 ≠ q.id4) (h : Before k q reply m s) :
    Gives (Fails (¬(k.turns m).Fine ∨ ∃ a ∈ replies q q.id4 (heard k reply (m + 1)), Broken q a))
      (takeTurn q s (k.turns m))
      fun s' => Inv q (heard k reply (m + 1)) s' ∧ s'.reply = filled k reply (m + 1) ∧
        (k.turns m).Fine := by
  rw [heard_succ, filled_succ, ← h.buffer]
  rcases hturn : k.turns m with _ | prc | ⟨ds, ending⟩
  · refine ⟨?_, rfl, trivial⟩
    show Inv q (heard k reply m ++ []) s
    rw [List.append_nil]
    exact h.inv
  · exact ⟨_, rfl, Reason.noConfusion, .inl id⟩
  · have hall := receive_gives hne h.inv ds
    rw [takeTurn]
    rcases hs : ds.foldlM (receiveOne q) s with e | s₁
    · rw [hs] at hall
      obtain ⟨res, he, hres, hbroken⟩ := hall
      exact ⟨res, he, hres, .inr hbroken⟩
    · rw [hs] at hall
      cases ending with
      | again => exact ⟨hall.1, hall.2, trivial⟩
      | failed n => exact ⟨_, rfl, Reason.noConfusion, .inl id⟩

/-- **The outer loop** ends after the turns that are waited for, or at a turn that did not go
well. -/
theorem waitLoop_gives (hne : q.id6 ≠ q.id4) {left : ℕ} (hleft : m + left = 8)
    (h : Before k q reply m s) :
    Gives (Fails (∃ n, Spoils k q reply n)) (waitLoop q k.turns left m s)
      fun s' => ∃ n, Waits k q reply n ∧ Before k q reply n s' := by
  induction left generalizing m s with
  | zero => exact ⟨m, ⟨by omega, h.waited, .inl hleft⟩, h⟩
  | succ left ih =>
    have hanswered : s.got4 ≠ 0 ∧ s.got6 ≠ 0 ↔ Answered q (heard k reply m) :=
      and_congr (verdict_ne_zero h.inv.got4) (verdict_ne_zero h.inv.got6)
    rw [waitLoop]
    by_cases hgot : s.got4 ≠ 0 ∧ s.got6 ≠ 0
    · rw [if_pos hgot]
      exact ⟨m, ⟨by omega, h.waited, .inr (hanswered.1 hgot)⟩, h⟩
    rw [if_neg hgot]
    have hwaited : ∀ i < m + 1, ¬Answered q (heard k reply i) := by
      intro i hi
      rcases Nat.lt_succ_iff_lt_or_eq.1 hi with hlt | rfl
      · exact h.waited i hlt
      · exact mt hanswered.2 hgot
    have hturn := takeTurn_gives hne h
    rcases hs : takeTurn q s (k.turns m) with e | s₁
    · rw [hs] at hturn
      obtain ⟨res, he, hres, hbad⟩ := hturn
      exact ⟨res, he, hres, m, by omega, fun i hi => hwaited i (by omega), hbad⟩
    · rw [hs] at hturn
      obtain ⟨hinv, hreply, hfine⟩ := hturn
      refine ih (by omega) ⟨hinv, hreply, fun i hi => ?_, hwaited⟩
      rcases Nat.lt_succ_iff_lt_or_eq.1 hi with hlt | rfl
      · exact h.fine i hlt
      · exact hfine

/-- Where a turn did not go well, the pair of queries does not succeed. -/
theorem Spoils.not_succeeds {n : ℕ} (h : Spoils k q reply n) (hm : Waits k q reply m) :
    ¬Succeeds k q reply m := by
  obtain ⟨hlt, hwaited, hbad⟩ := h
  intro hs
  have hle : n < m := by
    refine Nat.lt_of_not_le fun hle => ?_
    rcases hm.enough with height | hanswered
    · omega
    · exact hwaited m hle hanswered
  rcases hbad with hfine | ⟨a, ha, hbroken⟩
  · exact hfine (hs.fine n hle)
  · exact hs.formed a (mem_replies_of_begins (heard_begins k reply hle) ha) hbroken

theorem succ_ne_self (id : UInt16) : id + 1 ≠ id := by
  intro h
  have hlt := id.toNat_lt
  have heq := congrArg UInt16.toNat h
  rw [UInt16.toNat_add, UInt16.toNat_one] at heq
  omega

/-- What the exchange comes to: 0 or -1, with a reason for the latter, and 0 exactly if `good`. -/
def Returns (x : Except Stop (ℤ × DnsResult)) (good : Prop) : Prop :=
  ∃ r res, x = .ok (r, res) ∧ (r = 0 ∨ r = -1 ∧ res.reason ≠ .none) ∧ (r = 0 ↔ good)

theorem returns_failed {res : DnsResult} {good : Prop} (hres : res.reason ≠ .none)
    (hnot : ¬good) : Returns (.ok (-1, res)) good :=
  ⟨-1, res, rfl, .inr ⟨rfl, hres⟩, iff_of_false (by decide) hnot⟩

/-- Both queries were made, with this length. -/
theorem exchange_returns (hne : q.id6 ≠ q.id4) {len : ℤ} (hlen : 0 ≤ len) :
    Returns (exchange k q reply len len) ((0 ≤ k.socket ∧ q.addr ≠ 0 ∧ k.sent4 = len ∧
      k.sent6 = len) ∧ ∃ m, Waits k q reply m ∧ Succeeds k q reply m) := by
  unfold exchange
  dsimp only
  rw [if_neg (by omega)]
  split_ifs with hsocket haddr hsent4 hsent6
  · exact returns_failed Reason.noConfusion fun h => absurd h.1.1 (Int.not_le.2 hsocket)
  · exact returns_failed Reason.noConfusion fun h => h.1.2.1 haddr
  · exact returns_failed Reason.noConfusion fun h => hsent4 h.1.2.2.1
  · exact returns_failed Reason.noConfusion fun h => hsent6 h.1.2.2.2
  have hstart : Before k q reply 0 ⟨0, 0, reply, .init⟩ := by
    refine ⟨⟨.inl ⟨rfl, rfl⟩, .inl ⟨rfl, rfl⟩, fun a ha => ?_⟩, rfl, fun i hi => ?_, fun i hi => ?_⟩
    · exact absurd ha List.not_mem_nil
    · exact absurd hi (Nat.not_lt_zero i)
    · exact absurd hi (Nat.not_lt_zero i)
  have hloop := waitLoop_gives hne (Nat.zero_add 8) hstart
  rcases hs : waitLoop q k.turns 8 0 ⟨0, 0, reply, .init⟩ with e | s
  · rw [hs] at hloop
    obtain ⟨res, rfl, hres, n, hspoils⟩ := hloop
    exact returns_failed hres fun ⟨_, m, hwaits, hsucc⟩ => hspoils.not_succeeds hwaits hsucc
  · rw [hs] at hloop
    obtain ⟨n, hwaits, hbefore⟩ := hloop
    have hone := verdict_eq_one hbefore.inv.got4
    dsimp only
    by_cases hgot : s.got4 = 1
    · rw [if_pos hgot]
      exact ⟨0, _, rfl, .inl rfl, iff_of_true rfl ⟨⟨Int.not_lt.1 hsocket, haddr, not_not.1 hsent4,
        not_not.1 hsent6⟩, n, hwaits, hbefore.fine, hbefore.inv.formed, hone.1 hgot⟩⟩
    · rw [if_neg hgot]
      refine returns_failed ?_ fun ⟨_, m, hwaits', hsucc⟩ => hgot (hone.2 ?_)
      · dsimp only
        split_ifs with hnone
        · exact Reason.noConfusion
        · exact hnone
      · rw [hwaits.unique hwaits']
        exact hsucc.last

/-- **`query_pair`**, for all that the kernel and the network may do, with finitely many datagrams in
each turn: it returns 0 or -1, with a reason for the latter, and 0 exactly if the queries were sent
and the replies that are waited for are good. -/
theorem queryPair_iff (k : Kernel) (q4 q6 reply : ℤ → UInt8) (server : List UInt8) (host : Host)
    (iter : ℤ) : Returns (queryPair k q4 q6 reply server host iter) (Sent k server host ∧
      ∃ m, Waits k (queryOf k server iter) reply m ∧
        Succeeds k (queryOf k server iter) reply m) := by
  have hne : (queryOf k server iter).id6 ≠ (queryOf k server iter).id4 := succ_ne_self _
  have haddr : (queryOf k server iter).addr = parseIpv4 server := rfl
  unfold queryPair
  dsimp only
  generalize queryOf k server iter = q at hne haddr ⊢
  have hcap : (13 : ℤ) ≤ 512 := by decide
  obtain ⟨b4, hcases4⟩ := makeQuery_spec q4 hcap q.id4 host 1
  obtain ⟨b6, hcases6⟩ := makeQuery_spec q6 hcap q.id6 host 28
  by_cases hgood : (∀ l ∈ labels host.bytes, LegalLabel l) ∧ (host.bytes.length : ℤ) + 18 ≤ 512
  · obtain ⟨-, h4, -⟩ := hcases4.resolve_right fun h => h.1 hgood
    obtain ⟨-, h6, -⟩ := hcases6.resolve_right fun h => h.1 hgood
    rw [h4, h6]
    have hlen : 0 ≤ (host.bytes.length : ℤ) + 18 := by omega
    obtain ⟨r, res, hrun, hr, hiff⟩ := @exchange_returns k q reply hne _ hlen
    refine ⟨r, res, hrun, hr, hiff.trans (and_congr_left' ⟨?_, ?_⟩)⟩
    · rintro ⟨hsocket, hserver, hsent4, hsent6⟩
      exact ⟨hgood.1, hgood.2, hsocket, haddr ▸ hserver, hsent4, hsent6⟩
    · intro h
      exact ⟨h.socket, haddr ▸ h.server, h.sent4, h.sent6⟩
  · -- the queries could not be made
    obtain ⟨-, h4⟩ := hcases4.resolve_left fun h => hgood h.1
    obtain ⟨-, h6⟩ := hcases6.resolve_left fun h => hgood h.1
    rw [h4, h6]
    have hbuild : exchange k q reply (-1) (-1) =
        .ok (-1, { DnsResult.init with reason := .build }) := by
      unfold exchange
      exact if_pos (.inl (by decide))
    show Returns (exchange k q reply (-1) (-1)) _
    rw [hbuild]
    exact returns_failed Reason.noConfusion fun h => hgood ⟨h.1.labels, h.1.length⟩

end Runs

end DnsPair
end Tools
end V6User
