import Mathlib.Algebra.Ring.Nat
import Mathlib.Logic.Function.Iterate
import V6User.Base.Bytes
import V6User.Base.CInt

/-!
# One iteration of the TCP stress test

`programs/tcpstress/tcpstress.c`: `vstream_init`, `validate_pattern` and `run_one_iter`.

The response of the server is a header of 16 bytes and then a pattern made by xorshift32.  The
kernel delivers it in pieces of its own choice, at least a byte and at most what the buffers of
a call have room for, which it fills in their order.  `run_one_iter` compares each piece with
the pattern as it comes, and carries the word that a piece ends in over to the next one.

The validator accepts two parts of a stream one after the other exactly if it accepts them
together (`validatePattern_append`), what it finds in the buffers of a call is the piece that was
put there (`validateIovs_eq`), and so the iteration succeeds exactly if the response is what was
asked for, however it is delivered (`runOneIter_ok_iff`).
-/

namespace V6User
namespace Tools
namespace Tcpstress

open Bytes CInt

/-! ### The pattern -/

/-- The three lines of xorshift32. -/
def xorshift (s : UInt32) : UInt32 :=
  let s := s ^^^ (s <<< 13)
  let s := s ^^^ (s >>> 17)
  s ^^^ (s <<< 5)

/-- The bytes of a word, low byte first. -/
def wordByte (s : UInt32) (k : ℕ) : UInt8 := (s >>> .ofNat (8 * k)).toUInt8

/-- `struct vstream`. -/
structure VStream where
  state : UInt32
  word : ℕ → UInt8
  pos : ℕ

/-- The state that a seed begins with. -/
def start (seed : UInt32) : UInt32 := if seed = 0 then 0xDEADBEEF else seed

/-- `vstream_init`. -/
def vstreamInit (seed : UInt32) : VStream := ⟨start seed, fun _ => 0, 4⟩

/-- The lines of `validate_pattern` that make the next word. -/
def VStream.refill (v : VStream) : VStream := ⟨xorshift v.state, wordByte (xorshift v.state), 0⟩

/-- Why an iteration has failed. -/
inductive Failure where
  | socket
  | connect
  | shortSend
  | header
  | badHeader
  | recv
  | eof
  | mismatch (off : ℕ) (got want : UInt8)
  deriving DecidableEq, Repr

/-- `validate_pattern` of some bytes, the first of which is the byte `base` of the stream. -/
def validatePattern (base : ℕ) : List UInt8 → VStream → Except Failure VStream
  | [], v => .ok v
  | b :: bs, v =>
    let v := if v.pos = 4 then v.refill else v
    if b ≠ v.word v.pos then .error (.mismatch base b (v.word v.pos))
    else validatePattern (base + 1) bs { v with pos := v.pos + 1 }

/-- A stream that is validated in pieces. -/
def validatePieces (base : ℕ) : List (List UInt8) → VStream → Except Failure VStream
  | [], v => .ok v
  | p :: ps, v => do
    let v ← validatePattern base p v
    validatePieces (base + p.length) ps v

/-! ### The iteration -/

/-- What the peer and the kernel do: the results of the calls before the response, the bytes
that arrive until the connection ends, how many of them each call would like to give, and
whether the end is one of the stream or an error. -/
structure Peer where
  socket : ℤ
  connect : ℤ
  sent : ℤ
  stream : List UInt8
  piece : ℕ → ℕ → ℕ
  hangup : Bool

/-- How many bytes a call gives: at least one, and no more than there is room for. -/
def Peer.size (k : Peer) (call cap : ℕ) : ℕ := max 1 (min (k.piece call cap) cap)

/-- `RSP_MAGIC`. -/
def rspMagic : UInt32 := 0x10AD0FAB

/-- A word of the header. -/
def le32 (hdr : List UInt8) (o : ℕ) : UInt32 :=
  (hdr.getD o 0).toUInt32 ||| (hdr.getD (o + 1) 0).toUInt32 <<< 8 |||
    (hdr.getD (o + 2) 0).toUInt32 <<< 16 ||| (hdr.getD (o + 3) 0).toUInt32 <<< 24

/-- `sizeof(hdr)`. -/
def hdrSize : ℕ := 16

/-- The loop that reads the header: the header, and what is still to come. -/
def headerLoop (k : Peer) (call : ℕ) (rest hdr : List UInt8) :
    Except Failure (List UInt8 × List UInt8 × ℕ) :=
  if hdr.length < hdrSize then
    if rest = [] then .error .header
    else
      let n := k.size call (hdrSize - hdr.length)
      headerLoop k (call + 1) (rest.drop n) (hdr ++ rest.take n)
  else .ok (hdr, rest, call)
termination_by rest.length
decreasing_by
  rw [List.length_drop]
  exact Nat.sub_lt (List.length_pos_iff.2 ‹¬rest = []›) (Nat.le_max_left _ _)

/-- `RECV_CHUNK`. -/
def recvChunk : ℕ := 16384

/-- `RECV_VEC_LEN`. -/
def recvVecLen : ℕ := 4

/-- `iv[i].iov_len`: the difference is one of `uint64`, which the test takes as an `int64`. -/
def iovLen (payload received i : ℕ) : ℕ :=
  let remain := int64 (payload - received - i * recvChunk)
  if remain ≤ 0 then 0 else if recvChunk < remain then recvChunk else remain.toNat

/-- The lengths of the buffers for one call. -/
def iovLens (payload received : ℕ) : List ℕ := (List.range recvVecLen).map (iovLen payload received)

/-- The kernel fills the buffers in their order, beginning with number `i`. -/
def scatter (buf : Mem) (i : ℕ) : List ℕ → List UInt8 → Mem
  | [], _ => buf
  | len :: lens, data =>
    scatter (copy buf (i * recvChunk) (fun j => (data.take len).getD j 0) (data.take len).length)
      (i + 1) lens (data.drop len)

/-- Bytes of the buffers. -/
def bytesAt (buf : Mem) (o n : ℕ) : List UInt8 := (List.range n).map fun j => buf (o + j)

/-- The `for` loop that validates the buffers. -/
def validateIovs (buf : Mem) (i : ℕ) : List ℕ → ℕ → ℕ → VStream → Except Failure (ℕ × VStream)
  | [], _, received, v => .ok (received, v)
  | len :: lens, left, received, v =>
    if left = 0 then .ok (received, v)
    else
      let take := if left < len then left else len
      if take = 0 then validateIovs buf (i + 1) lens left received v
      else do
        let v ← validatePattern received (bytesAt buf (i * recvChunk) take) v
        validateIovs buf (i + 1) lens (left - take) (received + take) v

/-- The loop that receives the payload. -/
def bodyLoop (k : Peer) (payload call : ℕ) (rest : List UInt8) (buf : Mem) (received : ℕ)
    (v : VStream) : Except Failure Unit :=
  if received < payload then
    if rest = [] then .error (if k.hangup then .eof else .recv)
    else
      let lens := iovLens payload received
      let n := k.size call lens.sum
      let buf := scatter buf 0 lens (rest.take n)
      match validateIovs buf 0 lens (rest.take n).length received v with
      | .error e => .error e
      | .ok (received, v) => bodyLoop k payload (call + 1) (rest.drop n) buf received v
  else .ok ()
termination_by rest.length
decreasing_by
  rw [List.length_drop]
  exact Nat.sub_lt (List.length_pos_iff.2 ‹¬rest = []›) (Nat.le_max_left _ _)

/-- `run_one_iter`, which returns 0 or fails. -/
def runOneIter (k : Peer) (connId payload seed : UInt32) : Except Failure Unit :=
  if k.socket < 0 then .error .socket
  else if k.connect < 0 then .error .connect
  else if k.sent ≠ 16 then .error .shortSend
  else
    match headerLoop k 0 k.stream [] with
    | .error e => .error e
    | .ok (hdr, rest, call) =>
      if le32 hdr 0 ≠ rspMagic ∨ le32 hdr 4 ≠ connId ∨ le32 hdr 8 ≠ payload ∨
          le32 hdr 12 ≠ seed then
        .error .badHeader
      else bodyLoop k payload.toNat call rest (fun _ => 0) 0 (vstreamInit seed)

/-! ### Validating -/

/-- A byte of the pattern. -/
def pattern (seed : UInt32) (t : ℕ) : UInt8 := wordByte (xorshift^[t / 4 + 1] (start seed)) (t % 4)

variable {base n : ℕ} {v v' : VStream} {a b bs : List UInt8} {seed : UInt32}

/-- **Two parts of a stream** are validated as one. -/
theorem validatePattern_append (base : ℕ) (a b : List UInt8) (v : VStream) :
    validatePattern base (a ++ b) v =
      (validatePattern base a v >>= validatePattern (base + a.length) b) := by
  induction a generalizing base v with
  | nil => rfl
  | cons x a ih =>
    rw [List.cons_append, validatePattern, validatePattern]
    split_ifs
    · rfl
    · rw [ih, List.length_cons, Nat.add_assoc, Nat.add_comm 1]
    · rfl
    · rw [ih, List.length_cons, Nat.add_assoc, Nat.add_comm 1]

/-- **A stream in pieces** is validated as a whole. -/
theorem validatePieces_eq (base : ℕ) (ps : List (List UInt8)) (v : VStream) :
    validatePieces base ps v = validatePattern base ps.flatten v := by
  induction ps generalizing base v with
  | nil => rfl
  | cons p ps ih =>
    rw [validatePieces, List.flatten_cons, validatePattern_append]
    exact congrArg _ (funext fun v => ih _ v)

/-- The validator stands before the byte `t` of the pattern. -/
structure Before (seed : UInt32) (t : ℕ) (v : VStream) : Prop where
  state : v.state = xorshift^[(t + 3) / 4] (start seed)
  pos : v.pos = if t % 4 = 0 then 4 else t % 4
  word : t % 4 ≠ 0 → v.word = wordByte v.state

theorem before_init (seed : UInt32) : Before seed 0 (vstreamInit seed) :=
  ⟨rfl, rfl, fun h => absurd rfl h⟩

/-- A word is made when the last one is used up. -/
theorem Before.next {t : ℕ} (h : Before seed t v) :
    (if v.pos = 4 then v.refill else v).state = xorshift^[t / 4 + 1] (start seed) ∧
      (if v.pos = 4 then v.refill else v).word =
        wordByte (if v.pos = 4 then v.refill else v).state ∧
      (if v.pos = 4 then v.refill else v).pos = t % 4 := by
  have hpos := h.pos
  by_cases ht : t % 4 = 0
  · rw [if_pos ht] at hpos
    rw [if_pos hpos]
    refine ⟨?_, rfl, ht.symm⟩
    have hwords : (t + 3) / 4 = t / 4 := by omega
    show xorshift v.state = _
    rw [h.state, hwords, Function.iterate_succ_apply']
  · rw [if_neg ht] at hpos
    rw [if_neg (by omega)]
    refine ⟨?_, h.word ht, hpos⟩
    have hwords : (t + 3) / 4 = t / 4 + 1 := by omega
    rw [h.state, hwords]

/-- **The validator accepts the pattern** and nothing else. -/
theorem validatePattern_ok_iff {t : ℕ} (h : Before seed t v) (base : ℕ) :
    (∃ v', validatePattern base bs v = .ok v') ↔
      ∀ j, j < bs.length → bs[j]? = some (pattern seed (t + j)) := by
  induction bs generalizing t v base with
  | nil => exact iff_of_true ⟨v, rfl⟩ fun j hj => absurd hj (Nat.not_lt_zero j)
  | cons b bs ih =>
    obtain ⟨hstate, hword, hpos⟩ := h.next
    rw [validatePattern]
    generalize (if v.pos = 4 then v.refill else v) = w at *
    have hbyte : w.word w.pos = pattern seed t := by
      rw [hword, hpos, hstate]
      rfl
    have hnext : Before seed (t + 1) { w with pos := w.pos + 1 } := by
      have hwords : (t + 1 + 3) / 4 = t / 4 + 1 := by omega
      refine ⟨?_, ?_, fun _ => hword⟩
      · rw [hwords]
        exact hstate
      · show w.pos + 1 = _
        rw [hpos]
        split_ifs <;> omega
    rw [hbyte]
    by_cases hb : b = pattern seed t
    · rw [if_neg (not_not.2 hb), ih hnext]
      constructor
      · intro hrest j hj
        cases j with
        | zero => rw [hb]; rfl
        | succ j =>
          have hj' := hrest j (Nat.lt_of_succ_lt_succ hj)
          rw [List.getElem?_cons_succ, hj', Nat.add_assoc, Nat.add_comm 1]
      · intro hall j hj
        have hj' := hall (j + 1) (Nat.succ_lt_succ hj)
        rw [List.getElem?_cons_succ] at hj'
        rw [hj', Nat.add_assoc, Nat.add_comm 1]
    · rw [if_pos hb]
      refine iff_of_false (fun ⟨_, hv⟩ => ?_) fun hall => ?_
      · cases hv
      · have h0 := hall 0 (Nat.zero_lt_succ _)
        exact hb (Option.some.inj h0)

/-! ### The buffers -/

/-- The buffers from number `i` on hold the bytes of a piece. -/
def Filled (buf : Mem) (i : ℕ) : List ℕ → List UInt8 → Prop
  | [], _ => True
  | len :: lens, data =>
    bytesAt buf (i * recvChunk) (min len data.length) = data.take len ∧
      Filled buf (i + 1) lens (data.drop len)

/-- The buffers before a number are not written. -/
theorem scatter_below {buf : Mem} {i x : ℕ} {lens : List ℕ} {data : List UInt8}
    (hx : x < i * recvChunk) : scatter buf i lens data x = buf x := by
  induction lens generalizing buf i data with
  | nil => rfl
  | cons len lens ih =>
    have hnext : x < (i + 1) * recvChunk := by
      rw [Nat.succ_mul]
      omega
    rw [scatter, ih hnext]
    exact copy_of_outside (Or.inl hx)

/-- What the kernel has put into the buffers is there. -/
theorem filled_scatter {buf : Mem} {i : ℕ} {lens : List ℕ} {data : List UInt8}
    (hlens : ∀ len ∈ lens, len ≤ recvChunk) : Filled (scatter buf i lens data) i lens data := by
  induction lens generalizing buf i data with
  | nil => trivial
  | cons len lens ih =>
    have hlen := hlens len List.mem_cons_self
    refine ⟨?_, ih fun l hl => hlens l (List.mem_cons_of_mem _ hl)⟩
    have htake : (data.take len).length = min len data.length := List.length_take
    refine List.ext_getElem (by rw [bytesAt, List.length_map, List.length_range, htake]) ?_
    intro j hj hj'
    rw [bytesAt, List.length_map, List.length_range] at hj
    have hbelow : i * recvChunk + j < (i + 1) * recvChunk := by
      rw [Nat.succ_mul]
      omega
    simp only [bytesAt, List.getElem_map, List.getElem_range]
    rw [scatter, scatter_below hbelow, copy_of_inside (by omega) (by omega),
      Nat.add_sub_cancel_left, List.getD_eq_getElem?_getD, List.getElem?_eq_getElem hj',
      Option.getD_some]

/-- **The buffers are validated** as the piece that they hold. -/
theorem validateIovs_eq {buf : Mem} {i received : ℕ} {lens : List ℕ} {data : List UInt8}
    (hbuf : Filled buf i lens data) (hsum : data.length ≤ lens.sum) (v : VStream) :
    validateIovs buf i lens data.length received v =
      (validatePattern received data v).map (received + data.length, ·) := by
  induction lens generalizing i received data v with
  | nil =>
    obtain rfl : data = [] := List.length_eq_zero_iff.1 (Nat.le_zero.1 hsum)
    rfl
  | cons len lens ih =>
    obtain ⟨hbytes, hrest⟩ := hbuf
    rw [List.sum_cons] at hsum
    rw [validateIovs]
    by_cases hzero : data.length = 0
    · obtain rfl := List.length_eq_zero_iff.1 hzero
      rfl
    · have htake : (if data.length < len then data.length else len) = min len data.length := by
        split_ifs <;> omega
      have hsplit : data.length - min len data.length = (data.drop len).length := by
        rw [List.length_drop]
        omega
      have hihsum : (data.drop len).length ≤ lens.sum := by
        rw [List.length_drop]
        omega
      rw [if_neg hzero, htake]
      dsimp only
      split_ifs with hlen
      · obtain rfl : len = 0 := by omega
        have hih : validateIovs buf (i + 1) lens (data.drop 0).length received v =
            (validatePattern received (data.drop 0) v).map (received + (data.drop 0).length, ·) :=
          ih hrest hihsum v
        rw [List.drop_zero] at hih
        exact hih
      · rw [hbytes, hsplit]
        conv_rhs => rw [← List.take_append_drop len data, validatePattern_append]
        cases validatePattern received (data.take len) v with
        | error e => rfl
        | ok v' =>
          show validateIovs buf (i + 1) lens _ _ v' = (validatePattern _ _ v').map _
          rw [ih hrest hihsum v', List.length_take, List.length_append, List.length_take,
            Nat.add_assoc]

/-- A buffer has room for what is still to come behind the buffers before it. -/
theorem iovLen_eq {payload received i : ℕ} (hp : payload < 2 ^ 32) (hr : received ≤ payload)
    (hi : i < recvVecLen) :
    iovLen payload received i = min recvChunk (payload - received - i * recvChunk) := by
  unfold recvVecLen at hi
  have hval : int64 (payload - received - i * recvChunk) = payload - received - i * recvChunk := by
    refine int64_of_range ?_ ?_ <;> · unfold recvChunk; omega
  unfold iovLen
  rw [hval]
  dsimp only
  generalize recvChunk = c
  split_ifs <;> omega

/-- Parts of at most `c` bytes, one behind the other. -/
theorem sum_parts (c left n : ℕ) :
    ((List.range n).map fun i => min c (left - i * c)).sum = min (n * c) left := by
  induction n with
  | zero => rw [Nat.zero_mul, Nat.zero_min]; rfl
  | succ n ih =>
    rw [List.range_succ, List.map_append, List.sum_append, ih, List.map_singleton,
      List.sum_singleton, Nat.succ_mul]
    omega

theorem sum_iovLens {payload received : ℕ} (hp : payload < 2 ^ 32) (hr : received ≤ payload) :
    (iovLens payload received).sum = min (recvVecLen * recvChunk) (payload - received) := by
  have hlens : iovLens payload received =
      (List.range recvVecLen).map fun i => min recvChunk (payload - received - i * recvChunk) := by
    unfold iovLens
    exact List.map_congr_left fun i hi => iovLen_eq hp hr (List.mem_range.1 hi)
  rw [hlens, sum_parts]

theorem le_recvChunk {payload received : ℕ} (hp : payload < 2 ^ 32) (hr : received ≤ payload) :
    ∀ len ∈ iovLens payload received, len ≤ recvChunk := by
  intro len hlen
  obtain ⟨i, hi, rfl⟩ := List.mem_map.1 hlen
  rw [iovLen_eq hp hr (List.mem_range.1 hi)]
  exact Nat.min_le_left _ _

/-! ### The loops -/

variable {k : Peer} {call : ℕ} {rest hdr : List UInt8}

theorem size_bounds (k : Peer) (call : ℕ) {cap : ℕ} (hcap : 0 < cap) :
    1 ≤ k.size call cap ∧ k.size call cap ≤ cap := by
  unfold Peer.size
  omega

/-- **The header** is read as a whole, or the connection ends before. -/
theorem headerLoop_eq (call : ℕ) (rest hdr : List UInt8) (hhdr : hdr.length ≤ hdrSize) :
    (rest.length < hdrSize - hdr.length → headerLoop k call rest hdr = .error .header) ∧
      (hdrSize - hdr.length ≤ rest.length → ∃ call', headerLoop k call rest hdr =
        .ok (hdr ++ rest.take (hdrSize - hdr.length), rest.drop (hdrSize - hdr.length),
          call')) := by
  induction hd : rest.length using Nat.strong_induction_on generalizing call rest hdr with
  | _ d ih =>
    rw [headerLoop]
    by_cases hfull : hdr.length < hdrSize
    · rw [if_pos hfull]
      by_cases hrest : rest = []
      · rw [if_pos hrest]
        rw [hrest] at hd
        refine ⟨fun _ => rfl, fun hle => ?_⟩
        rw [← hd, List.length_nil] at hle
        omega
      · rw [if_neg hrest]
        have hpos := List.length_pos_iff.2 hrest
        obtain ⟨hone, hcap⟩ := size_bounds k call (show 0 < hdrSize - hdr.length by omega)
        dsimp only
        generalize k.size call (hdrSize - hdr.length) = n at *
        have hdrop : (rest.drop n).length = rest.length - n := List.length_drop
        have happ : (hdr ++ rest.take n).length = hdr.length + min n rest.length := by
          rw [List.length_append, List.length_take]
        obtain ⟨hshort, hlong⟩ := ih _ (by omega) (call + 1) (rest.drop n)
          (hdr ++ rest.take n) (by omega) rfl
        constructor
        · exact fun hlt => hshort (by omega)
        · intro hle
          obtain ⟨call', heq⟩ := hlong (by omega)
          have hleft : hdrSize - (hdr ++ rest.take n).length = hdrSize - hdr.length - n := by omega
          have hsum : n + (hdrSize - hdr.length - n) = hdrSize - hdr.length := by omega
          refine ⟨call', ?_⟩
          rw [heq, hleft, List.append_assoc, List.drop_drop, ← List.take_add, hsum]
    · rw [if_neg hfull]
      have hzero : hdrSize - hdr.length = 0 := by omega
      rw [hzero]
      refine ⟨fun hlt => absurd hlt (Nat.not_lt_zero _), fun _ => ⟨call, ?_⟩⟩
      rw [List.take_zero, List.append_nil, List.drop_zero]

/-- **The payload** is received and validated as a whole. -/
theorem bodyLoop_ok_iff {payload received : ℕ} {buf : Mem} (hp : payload < 2 ^ 32)
    (hr : received ≤ payload) :
    bodyLoop k payload call rest buf received v = .ok () ↔ payload - received ≤ rest.length ∧
      ∃ v', validatePattern received (rest.take (payload - received)) v = .ok v' := by
  induction hd : rest.length using Nat.strong_induction_on
    generalizing call rest buf received v with
  | _ d ih =>
    rw [bodyLoop]
    by_cases hdone : received < payload
    · rw [if_pos hdone]
      by_cases hrest : rest = []
      · rw [if_pos hrest]
        rw [hrest] at hd
        refine iff_of_false (fun h => by cases h) fun h => ?_
        have hle := h.1
        rw [← hd, List.length_nil] at hle
        omega
      · rw [if_neg hrest]
        have hpos := List.length_pos_iff.2 hrest
        have hcap := sum_iovLens hp hr
        have hroom : 0 < (iovLens payload received).sum := by
          rw [hcap]
          unfold recvVecLen recvChunk
          omega
        obtain ⟨hone, hle⟩ := size_bounds k call hroom
        dsimp only
        generalize k.size call (iovLens payload received).sum = n at *
        have htake : (rest.take n).length = min n rest.length := List.length_take
        have hdrop : (rest.drop n).length = rest.length - n := List.length_drop
        rw [validateIovs_eq (filled_scatter (le_recvChunk hp hr)) (by omega)]
        -- what is to come is this piece, and what is to come after it
        have hsplit : rest.take (payload - received) =
            rest.take n ++ (rest.drop n).take (payload - (received + (rest.take n).length)) := by
          have hsum : payload - received = n + (payload - received - n) := by omega
          rw [hsum, List.take_add, htake]
          by_cases hn : n ≤ rest.length
          · congr 2
            omega
          · rw [List.drop_eq_nil_of_le (by omega), List.take_nil, List.take_nil]
        rw [hsplit, validatePattern_append]
        cases hval : validatePattern received (rest.take n) v with
        | error e => exact iff_of_false (fun h => by cases h) fun ⟨_, _, h⟩ => by cases h
        | ok v' =>
          show bodyLoop k payload (call + 1) (rest.drop n) _ (received + (rest.take n).length) v' =
            .ok () ↔ _
          rw [ih _ (by omega) (by omega) rfl]
          refine and_congr ?_ Iff.rfl
          omega
    · rw [if_neg hdone]
      have hzero : payload - received = 0 := by omega
      rw [hzero]
      exact iff_of_true rfl ⟨Nat.zero_le _, v, rfl⟩

/-- The calls before the response succeed. -/
def Connected (k : Peer) : Prop := 0 ≤ k.socket ∧ 0 ≤ k.connect ∧ k.sent = 16

/-- **The response that is asked for**: a header that echoes the request, and then the pattern
of the seed. -/
structure Answers (stream : List UInt8) (connId payload seed : UInt32) : Prop where
  length : hdrSize + payload.toNat ≤ stream.length
  magic : le32 (stream.take hdrSize) 0 = rspMagic
  conn : le32 (stream.take hdrSize) 4 = connId
  size : le32 (stream.take hdrSize) 8 = payload
  echo : le32 (stream.take hdrSize) 12 = seed
  pattern : ∀ t, t < payload.toNat → stream[hdrSize + t]? = some (pattern seed t)

/-- What comes after the header is accepted if it is the pattern. -/
theorem payload_ok_iff {stream : List UInt8} {n : ℕ} (hle : hdrSize + n ≤ stream.length) :
    (∃ v', validatePattern 0 ((stream.drop hdrSize).take n) (vstreamInit seed) = .ok v') ↔
      ∀ t, t < n → stream[hdrSize + t]? = some (pattern seed t) := by
  have hlen : ((stream.drop hdrSize).take n).length = n := by
    rw [List.length_take, List.length_drop]
    omega
  rw [validatePattern_ok_iff (before_init seed), hlen]
  refine forall₂_congr fun t ht => ?_
  rw [List.getElem?_take_of_lt ht, List.getElem?_drop, Nat.zero_add]

/-- **One iteration succeeds** exactly if the response is the one that is asked for, in whatever
pieces it comes; and a stream in pieces is validated as a whole. -/
theorem runOneIter_ok_iff (k : Peer) (connId payload seed : UInt32) :
    (runOneIter k connId payload seed = .ok () ↔
      Connected k ∧ Answers k.stream connId payload seed) ∧
    ∀ base ps v, validatePieces base ps v = validatePattern base ps.flatten v := by
  refine ⟨?_, validatePieces_eq⟩
  unfold runOneIter
  by_cases hconn : Connected k
  · obtain ⟨hsocket, hconnect, hsent⟩ := id hconn
    rw [if_neg (by omega), if_neg (by omega), if_neg (not_not.2 hsent)]
    obtain ⟨hshort, hlong⟩ := headerLoop_eq (k := k) 0 k.stream [] (Nat.zero_le _)
    rw [List.length_nil, Nat.sub_zero, List.nil_append] at hlong
    rw [List.length_nil, Nat.sub_zero] at hshort
    by_cases hlen : k.stream.length < hdrSize
    · rw [hshort hlen]
      refine iff_of_false (fun h => by cases h) fun h => ?_
      have := h.2.length
      omega
    · obtain ⟨call, heq⟩ := hlong (by omega)
      rw [heq]
      dsimp only
      split_ifs with hbad
      · refine iff_of_false (fun h => by cases h) fun h => ?_
        rcases hbad with hbad | hbad | hbad | hbad
        · exact hbad h.2.magic
        · exact hbad h.2.conn
        · exact hbad h.2.size
        · exact hbad h.2.echo
      · simp only [not_or, not_not] at hbad
        obtain ⟨hmagic, hid, hsize, hseed⟩ := hbad
        rw [bodyLoop_ok_iff payload.toNat_lt (Nat.zero_le _), Nat.sub_zero, List.length_drop]
        constructor
        · rintro ⟨hle, haccept⟩
          have hwhole : hdrSize + payload.toNat ≤ k.stream.length := by omega
          exact ⟨hconn, hwhole, hmagic, hid, hsize, hseed, (payload_ok_iff hwhole).1 haccept⟩
        · rintro ⟨-, hans⟩
          have hle := hans.length
          exact ⟨by omega, (payload_ok_iff hle).2 hans.pattern⟩
  · refine iff_of_false (fun h => ?_) fun h => hconn h.1
    split_ifs at h with hsocket hconnect hsent
    exact hconn ⟨by omega, by omega, not_not.1 hsent⟩

end Tcpstress
end Tools
end V6User
