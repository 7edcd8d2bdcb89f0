import Mathlib.Algebra.BigOperators.Group.List.Basic
import V6User.Ulib.Compare

/-!
# The download of the network test

`programs/webkitnettest/webkitnettest.c`: `http_download_one`.

The response arrives in pieces of the kernel's choice, none longer than the buffer.  The program
looks for the blank line that ends the header within a single piece, takes the status from the
beginning of that same piece, and counts the bytes that come after.  So it gets the status and
the length of the body right exactly if one piece has the whole blank line, and is the first one
or begins by chance with the same digits at the same place (`httpDownloadOne_exact_iff`).
-/

namespace V6User
namespace Tools
namespace HttpDownload

open Ulib (char)

/-! ### What the kernel gives -/

/-- `sizeof(buf)`. -/
def bufSize : ℕ := 8192

/-- What a call of `recvfrom` or `recvmsg` puts into `buf`. -/
structure Piece where
  bytes : List UInt8
  pos : 0 < bytes.length
  le : bytes.length ≤ bufSize

/-- What ends the inner loop: `-EAGAIN`, 0, or another error. -/
inductive Ending where
  | again
  | eof
  | failed
  deriving DecidableEq, Repr

/-- What one turn of the outer loop gets: no event in time, an error of `poll`, or some pieces
and an end of them. -/
inductive Turn where
  | timeout
  | pollFailed
  | ready (pieces : List Piece) (ending : Ending)

/-- The results of the calls: `socket`, `parse_ipv4`, `connect`, the first `poll` and whether
one of the events it asks for is in `revents`, `getsockopt` and `so_error`, whether `sendto` has
sent the whole request, and the turns of the loop. -/
structure Kernel where
  socket : ℤ
  addr : UInt32
  connect : ℤ
  poll : ℤ
  revents : Bool
  getsockopt : ℤ
  soError : ℤ
  sent : Bool
  turns : List Turn

/-- Why the download has failed; `waiting` is a run whose turns do not end it. -/
inductive Failure where
  | socket
  | address
  | connect
  | connectPoll
  | soError
  | shortSend
  | idle
  | poll
  | recv
  | waiting
  deriving DecidableEq, Repr

/-! ### The program -/

/-- `header_done`, `status` and `total`. -/
structure Session where
  headerDone : Bool
  status : ℤ
  total : UInt64
  deriving DecidableEq, Repr

/-- The values that the variables begin with. -/
def Session.init : Session := ⟨false, 0, 0⟩

/-- `buf[i] == '\r' && buf[i + 1] == '\n' && buf[i + 2] == '\r' && buf[i + 3] == '\n'`. -/
def isBlank (buf : List UInt8) (i : ℕ) : Bool :=
  buf[i]? == some 13 && buf[i + 1]? == some 10 && buf[i + 2]? == some 13 && buf[i + 3]? == some 10

/-- The `for` loop: the first `i` with `i + 3 < n` at which it breaks. -/
def findBlank (buf : List UInt8) : Option ℕ := (List.range (buf.length - 3)).find? (isBlank buf)

/-- `n >= 12 && buf[0] == 'H' && buf[9] >= '0' && buf[9] <= '9'`. -/
def looksLikeStatus (buf : List UInt8) : Bool :=
  12 ≤ buf.length && buf[0]? == some 72 && 48 ≤ char (buf.getD 9 0) && char (buf.getD 9 0) ≤ 57

/-- `(buf[9] - '0') * 100 + (buf[10] - '0') * 10 + (buf[11] - '0')`. -/
def statusAt (buf : List UInt8) : ℤ :=
  (char (buf.getD 9 0) - 48) * 100 + (char (buf.getD 10 0) - 48) * 10 + (char (buf.getD 11 0) - 48)

/-- What the body of the inner loop does with the bytes it has received. -/
def Session.receive (s : Session) (buf : List UInt8) : Session :=
  if s.headerDone then { s with total := s.total + .ofNat buf.length }
  else
    match findBlank buf with
    | none => s
    | some i =>
      { s with
        headerDone := true
        status := if looksLikeStatus buf then statusAt buf else s.status
        total := s.total + .ofNat (buf.length - (i + 4)) }

/-- The inner loop, up to what ends it. -/
def Session.receiveAll (s : Session) : List Piece → Session
  | [] => s
  | p :: ps => (s.receive p.bytes).receiveAll ps

/-- The outer loop, with `idle_polls`, which each piece sets back to 0. -/
def Session.download (s : Session) (idlePolls : ℕ) : List Turn → Except Failure Session
  | [] => .error .waiting
  | .timeout :: ts =>
    if 3 ≤ idlePolls + 1 then .error .idle else s.download (idlePolls + 1) ts
  | .pollFailed :: _ => .error .poll
  | .ready ps .eof :: _ => .ok (s.receiveAll ps)
  | .ready ps .again :: ts => (s.receiveAll ps).download (if ps.isEmpty then idlePolls else 0) ts
  | .ready _ .failed :: _ => .error .recv

/-- `EINPROGRESS`. -/
def einprogress : ℤ := 115

/-- `http_download_one(ip, port, path, host, use_recvmsg)`, up to the line `done`. -/
def httpDownloadOne (k : Kernel) : Except Failure Session :=
  if k.socket < 0 then .error .socket
  else if k.addr = 0 then .error .address
  else if k.connect < 0 ∧ k.connect ≠ -einprogress then .error .connect
  else if k.poll ≤ 0 ∨ ¬k.revents then .error .connectPoll
  else if k.getsockopt < 0 ∨ k.soError ≠ 0 then .error .soError
  else if ¬k.sent then .error .shortSend
  else Session.init.download 0 k.turns

/-- What `http_download_one` returns. -/
def returned : Except Failure Session → ℤ
  | .ok s => if 200 ≤ s.status ∧ s.status < 300 ∧ 0 < s.total then 0 else -1
  | .error _ => -1

/-! ### The stream -/

/-- The pieces that the loop is given until the end of the stream. -/
def pieces : List Turn → List Piece
  | [] => []
  | .ready ps .again :: ts => ps ++ pieces ts
  | .ready ps _ :: _ => ps
  | _ :: ts => pieces ts

/-- The bytes of some pieces. -/
def stream (ps : List Piece) : List UInt8 := (ps.map Piece.bytes).flatten

/-- A blank line, with the end of the line before it. -/
def Blank (s : List UInt8) (i : ℕ) : Prop :=
  s[i]? = some 13 ∧ s[i + 1]? = some 10 ∧ s[i + 2]? = some 13 ∧ s[i + 3]? = some 10

/-- The first blank line. -/
def FirstBlank (s : List UInt8) (i : ℕ) : Prop := Blank s i ∧ ∀ j < i, ¬Blank s j

/-- A byte is a digit. -/
def IsDigit (b : UInt8) : Prop := 48 ≤ b ∧ b ≤ 57

instance : DecidablePred IsDigit := fun _ => inferInstanceAs (Decidable (_ ∧ _))

/-- The response line `HTTP/x.y abc`, with the number that `abc` is. -/
def StatusLine (s : List UInt8) (status : ℤ) : Prop :=
  ∃ major minor a b c rest,
    s = [72, 84, 84, 80, 47, major, 46, minor, 32, a, b, c] ++ rest ∧
    IsDigit major ∧ IsDigit minor ∧ IsDigit a ∧ IsDigit b ∧ IsDigit c ∧ a ≠ 48 ∧
    status = 100 * (a.toNat - 48) + 10 * (b.toNat - 48) + (c.toNat - 48)

/-- A response, its status, and the number of bytes after its first blank line. -/
structure Response (s : List UInt8) (status : ℤ) (body : ℕ) : Prop where
  line : StatusLine s status
  blank : ∃ i, FirstBlank s i ∧ body + (i + 4) = s.length

variable {buf l a b : List UInt8} {ps before after : List Piece} {piece : Piece} {i j body : ℕ}
  {status : ℤ} {s s' : Session}

theorem stream_append : stream (before ++ ps) = stream before ++ stream ps := by
  rw [stream, List.map_append, List.flatten_append, stream, stream]

theorem stream_cons : stream (piece :: ps) = piece.bytes ++ stream ps := rfl

theorem isBlank_iff : isBlank buf i = true ↔ Blank buf i := by
  simp only [isBlank, Blank, Bool.and_eq_true, beq_iff_eq, and_assoc]

theorem Blank.lt (h : Blank buf i) : i + 3 < buf.length :=
  (List.getElem?_eq_some_iff.1 h.2.2.2).1

theorem FirstBlank.le (h : FirstBlank buf i) (hj : Blank buf j) : i ≤ j :=
  Nat.le_of_not_lt fun hlt => h.2 j hlt hj

theorem findBlank_eq_some : findBlank buf = some i ↔ FirstBlank buf i := by
  rw [findBlank, List.find?_range_eq_some, isBlank_iff, List.mem_range, FirstBlank]
  simp only [Bool.not_eq_true', ← Bool.not_eq_true, isBlank_iff]
  constructor
  · rintro ⟨h, -, hj⟩
    exact ⟨h, hj⟩
  · rintro ⟨h, hj⟩
    exact ⟨h, Nat.lt_sub_of_add_lt h.lt, hj⟩

theorem findBlank_eq_none : findBlank buf = none ↔ ∀ i, ¬Blank buf i := by
  rw [findBlank, List.find?_range_eq_none]
  simp only [Bool.not_eq_true', ← Bool.not_eq_true, isBlank_iff]
  constructor
  · intro h i hi
    exact h i (Nat.lt_sub_of_add_lt hi.lt) hi
  · intro h i _
    exact h i

/-- A blank line inside a part of a stream. -/
theorem blank_append (h : i + 3 < l.length) :
    Blank (a ++ (l ++ b)) (a.length + i) ↔ Blank l i := by
  simp only [Blank, Nat.add_assoc, List.getElem?_append_right (Nat.le_add_right a.length _),
    Nat.add_sub_cancel_left]
  rw [List.getElem?_append_left (by omega), List.getElem?_append_left (by omega),
    List.getElem?_append_left (by omega), List.getElem?_append_left (by omega)]

/-! ### The loop over the pieces -/

theorem receiveAll_append :
    s.receiveAll (before ++ ps) = (s.receiveAll before).receiveAll ps := by
  induction before generalizing s with
  | nil => rfl
  | cons p before ih => exact ih

/-- A download that ends has received its pieces in their order. -/
theorem download_ok {idlePolls : ℕ} {ts : List Turn} (h : s.download idlePolls ts = .ok s') :
    s' = s.receiveAll (pieces ts) := by
  induction ts generalizing s idlePolls with
  | nil => cases h
  | cons t ts ih =>
    rcases t with _ | _ | ⟨ps, ending⟩
    · rw [Session.download] at h
      split at h
      · cases h
      · exact ih h
    · cases h
    · cases ending with
      | again => exact (ih h).trans receiveAll_append.symm
      | eof => exact (Except.ok.inj h).symm
      | failed => cases h

theorem httpDownloadOne_ok {k : Kernel} (h : httpDownloadOne k = .ok s) :
    s = Session.init.receiveAll (pieces k.turns) := by
  rw [httpDownloadOne] at h
  split_ifs at h
  exact download_ok h

/-- Before a blank line is found in a piece nothing changes. -/
theorem receiveAll_header (hs : s.headerDone = false)
    (h : ∀ p ∈ ps, findBlank p.bytes = none) : s.receiveAll ps = s := by
  induction ps with
  | nil => rfl
  | cons p ps ih =>
    have hp : s.receive p.bytes = s := by
      rw [Session.receive, hs, h p List.mem_cons_self]
      rfl
    rw [Session.receiveAll, hp, ih fun q hq => h q (List.mem_cons_of_mem p hq)]

/-- After it every byte is counted. -/
theorem receiveAll_body (hs : s.headerDone = true) :
    s.receiveAll ps = { s with total := s.total + .ofNat (stream ps).length } := by
  induction ps generalizing s with
  | nil => exact congrArg (Session.mk _ _) (UInt64.add_zero s.total).symm
  | cons p ps ih =>
    have hp : s.receive p.bytes = { s with total := s.total + .ofNat p.bytes.length } := by
      rw [Session.receive, if_pos hs]
    rw [Session.receiveAll, hp,
      ih (s := { s with total := s.total + .ofNat p.bytes.length }) hs, stream_cons,
      List.length_append, UInt64.ofNat_add, UInt64.add_assoc]

/-- The first piece with a blank line gives the status, and the place to count from. -/
theorem receiveAll_at (h : ∀ p ∈ before, findBlank p.bytes = none)
    (hp : findBlank piece.bytes = some i) :
    Session.init.receiveAll (before ++ piece :: after) =
      ⟨true, if looksLikeStatus piece.bytes then statusAt piece.bytes else 0,
        .ofNat ((stream (before ++ piece :: after)).length -
          ((stream before).length + i + 4))⟩ := by
  have hi : i + 3 < piece.bytes.length := (findBlank_eq_some.1 hp).1.lt
  have hlen : (stream (before ++ piece :: after)).length - ((stream before).length + i + 4) =
      (piece.bytes.length - (i + 4)) + (stream after).length := by
    rw [stream_append, stream_cons, List.length_append, List.length_append]
    omega
  have hpiece : Session.init.receive piece.bytes =
      ⟨true, if looksLikeStatus piece.bytes then statusAt piece.bytes else 0,
        .ofNat (piece.bytes.length - (i + 4))⟩ := by
    rw [Session.receive, hp]
    exact congrArg (Session.mk _ _) (UInt64.zero_add _)
  rw [receiveAll_append, receiveAll_header rfl h, Session.receiveAll, hpiece, receiveAll_body rfl,
    hlen, UInt64.ofNat_add]

/-- Either no piece has a blank line or there is a first one. -/
theorem noBlank_or_first (ps : List Piece) :
    (∀ p ∈ ps, findBlank p.bytes = none) ∨ ∃ before piece after i, ps = before ++ piece :: after ∧
      (∀ p ∈ before, findBlank p.bytes = none) ∧ findBlank piece.bytes = some i := by
  induction ps with
  | nil => exact .inl fun p hp => absurd hp List.not_mem_nil
  | cons p ps ih =>
    cases hp : findBlank p.bytes with
    | some i => exact .inr ⟨[], p, ps, i, rfl, fun q hq => absurd hq List.not_mem_nil, hp⟩
    | none =>
      rcases ih with h | ⟨before, piece, after, i, rfl, h, hi⟩
      · exact .inl (List.forall_mem_cons.2 ⟨hp, h⟩)
      · exact .inr ⟨p :: before, piece, after, i, rfl, List.forall_mem_cons.2 ⟨hp, h⟩, hi⟩

/-! ### The response line -/

theorem char_digit {b : UInt8} (h : IsDigit b) :
    char b = b.toNat ∧ 48 ≤ char b ∧ char b ≤ 57 := by
  obtain ⟨hlo, hhi⟩ := h
  rw [UInt8.le_iff_toNat_le] at hlo hhi
  have hlo : 48 ≤ b.toNat := hlo
  have hhi : b.toNat ≤ 57 := hhi
  rw [char, if_pos (by omega)]
  omega

/-- Bytes that begin with a response line give its status. -/
theorem StatusLine.read (h : StatusLine l status) :
    looksLikeStatus l = true ∧ statusAt l = status := by
  obtain ⟨major, minor, a, b, c, rest, rfl, -, -, ha, hb, hc, -, rfl⟩ := h
  have hgeta : ([72, 84, 84, 80, 47, major, 46, minor, 32, a, b, c] ++ rest).getD 9 0 = a := rfl
  have hgetb : ([72, 84, 84, 80, 47, major, 46, minor, 32, a, b, c] ++ rest).getD 10 0 = b := rfl
  have hgetc : ([72, 84, 84, 80, 47, major, 46, minor, 32, a, b, c] ++ rest).getD 11 0 = c := rfl
  obtain ⟨ea, hlo, hhi⟩ := char_digit ha
  obtain ⟨eb, -, -⟩ := char_digit hb
  obtain ⟨ec, -, -⟩ := char_digit hc
  constructor
  · rw [looksLikeStatus, hgeta, decide_eq_true hlo, decide_eq_true hhi]
    simp
  · rw [statusAt, hgeta, hgetb, hgetc, ea, eb, ec]
    omega

/-- The status of a response line is not the 0 that the variable begins with. -/
theorem StatusLine.pos (h : StatusLine l status) : 0 < status := by
  obtain ⟨major, minor, a, b, c, rest, -, -, -, ha, hb, hc, hne, rfl⟩ := h
  obtain ⟨ea, hlo, -⟩ := char_digit ha
  obtain ⟨eb, hb, -⟩ := char_digit hb
  obtain ⟨ec, hc, -⟩ := char_digit hc
  have hne : a.toNat ≠ 48 := fun h => hne (UInt8.toNat_inj.1 h)
  omega

/-- There is no blank line in a response line. -/
theorem StatusLine.blank_le (h : StatusLine l status) (hi : Blank l i) : 12 ≤ i := by
  obtain ⟨major, minor, a, b, c, rest, rfl, hmajor, hminor, ha, hb, hc, -, -⟩ := h
  have hdigit : ∀ {d : UInt8}, IsDigit d → 13 ≠ d := by
    rintro d ⟨hd, -⟩ rfl
    exact absurd hd (by decide)
  have hline : 13 ∉ [72, 84, 84, 80, 47, major, 46, minor, 32, a, b, c] := by
    simp [hdigit hmajor, hdigit hminor, hdigit ha, hdigit hb, hdigit hc]
  by_contra hlt
  have hget := hi.1
  rw [List.getElem?_append_left (by exact Nat.lt_of_not_le hlt)] at hget
  exact hline (List.mem_of_getElem? hget)

/-- A part of a stream that has its first 12 bytes has its response line. -/
theorem StatusLine.of_append (h : StatusLine (l ++ b) status) (hl : 12 ≤ l.length) :
    StatusLine l status := by
  obtain ⟨major, minor, x, y, z, rest, heq, hline⟩ := h
  rcases List.append_eq_append_iff.1 heq with ⟨c, hc, rfl⟩ | ⟨c, rfl, rfl⟩
  · have hnil : c = [] := by
      have hlen := congrArg List.length hc
      rw [List.length_append] at hlen
      exact List.length_eq_zero_iff.1 (by simp at hlen; omega)
    rw [hnil, List.append_nil] at hc
    exact ⟨major, minor, x, y, z, [], by rw [← hc, List.append_nil], hline⟩
  · exact ⟨major, minor, x, y, z, c, rfl, hline⟩

/-! ### Which splittings are read right -/

/-- One piece has the whole first blank line; it is the first piece, or else it looks like the
beginning of a response with this status. -/
def OnePiece (ps : List Piece) (status : ℤ) : Prop :=
  ∃ before piece after i, ps = before ++ piece :: after ∧ FirstBlank (stream ps) i ∧
    (stream before).length ≤ i ∧ i + 4 ≤ (stream before).length + piece.bytes.length ∧
    (before = [] ∨ looksLikeStatus piece.bytes = true ∧ statusAt piece.bytes = status)

/-- A blank line in a piece is one of the stream. -/
theorem blank_stream (h : Blank piece.bytes i) :
    Blank (stream (before ++ piece :: after)) ((stream before).length + i) := by
  rw [stream_append, stream_cons]
  exact (blank_append h.lt).2 h

/-- The first blank line of the stream is found in the piece that has it. -/
theorem findBlank_of_first (h : FirstBlank (stream (before ++ piece :: after)) i)
    (hlo : (stream before).length ≤ i) (hhi : i + 4 ≤ (stream before).length + piece.bytes.length) :
    findBlank piece.bytes = some (i - (stream before).length) := by
  obtain ⟨o, rfl⟩ := Nat.exists_eq_add_of_le hlo
  rw [Nat.add_sub_cancel_left, findBlank_eq_some]
  constructor
  · have hblank := h.1
    rw [stream_append, stream_cons, blank_append (by omega)] at hblank
    exact hblank
  · intro j hj hblank
    exact h.2 _ (Nat.add_lt_add_left hj _) (blank_stream hblank)

/-- No piece before it has a blank line. -/
theorem findBlank_before (h : FirstBlank (stream (before ++ ps)) i)
    (hlo : (stream before).length ≤ i) : ∀ p ∈ before, findBlank p.bytes = none := by
  intro p hp
  refine findBlank_eq_none.2 fun j hj => ?_
  obtain ⟨b₁, b₂, rfl⟩ := List.append_of_mem hp
  rw [List.append_assoc, List.cons_append] at h
  refine h.2 ((stream b₁).length + j) ?_ (blank_stream hj)
  have hlt := hj.lt
  rw [stream_append, stream_cons, List.length_append, List.length_append] at hlo
  omega

/-- **When a download is exact.**  For every response and every way it comes in pieces: the status
and the number of bytes are those of the response exactly if its body has less than `2 ^ 64` bytes,
and one piece has the whole first blank line and is the first one, or looks like the beginning of
a response with the same status. -/
theorem httpDownloadOne_exact_iff {k : Kernel} (hr : Response (stream (pieces k.turns)) status body)
    (h : httpDownloadOne k = .ok s) :
    (s.status = status ∧ s.total.toNat = body) ↔
      body < 2 ^ 64 ∧ OnePiece (pieces k.turns) status := by
  obtain ⟨hline, p, hp, hbody⟩ := hr
  rw [httpDownloadOne_ok h]
  generalize pieces k.turns = ps at *
  constructor
  · rintro ⟨hstatus, htotal⟩
    rcases noBlank_or_first ps with hnone | ⟨before, piece, after, i, rfl, hnone, hi⟩
    · rw [receiveAll_header rfl hnone] at hstatus
      exact absurd hstatus hline.pos.ne
    · rw [receiveAll_at hnone hi] at hstatus htotal
      have hblank := (findBlank_eq_some.1 hi).1
      -- the blank line that is found is one of the stream, hence not before the first one
      have hle : p ≤ (stream before).length + i := hp.le (blank_stream hblank)
      have hmod : ((stream (before ++ piece :: after)).length - ((stream before).length + i + 4)) %
          2 ^ 64 = body := by
        rw [← htotal, UInt64.toNat_ofNat']
      have hpiece := hblank.lt
      have hwhole : (stream before).length + piece.bytes.length ≤
          (stream (before ++ piece :: after)).length := by
        rw [stream_append, stream_cons, List.length_append, List.length_append]
        omega
      have hlt := Nat.mod_lt ((stream (before ++ piece :: after)).length -
        ((stream before).length + i + 4)) (Nat.two_pow_pos 64)
      have hge := Nat.mod_le ((stream (before ++ piece :: after)).length -
        ((stream before).length + i + 4)) (2 ^ 64)
      have heq : p = (stream before).length + i := by omega
      refine ⟨hmod ▸ hlt, before, piece, after, p, rfl, hp, by omega, by omega, .inr ?_⟩
      split_ifs at hstatus with hlooks
      · exact ⟨hlooks, hstatus⟩
      · exact absurd hstatus hline.pos.ne
  · rintro ⟨hlt, before, piece, after, i, rfl, hi, hlo, hhi, hfirst⟩
    obtain rfl : p = i := Nat.le_antisymm (hp.le hi.1) (hi.le hp.1)
    rw [receiveAll_at (findBlank_before hp hlo) (findBlank_of_first hp hlo hhi)]
    have hread : looksLikeStatus piece.bytes = true ∧ statusAt piece.bytes = status := by
      rcases hfirst with rfl | hread
      · rw [List.nil_append, stream_cons] at hline
        have hle : 12 ≤ piece.bytes.length := by
          have hp := hi.1
          rw [List.nil_append, stream_cons] at hp
          have h12 := hline.blank_le hp
          rw [stream, List.map_nil, List.flatten_nil, List.length_nil] at hhi
          omega
        exact (hline.of_append hle).read
      · exact hread
    refine ⟨by rw [if_pos hread.1, hread.2], ?_⟩
    rw [UInt64.toNat_ofNat', Nat.mod_eq_of_lt] <;> omega

/-- The pieces that the calls of a kernel give when nothing fails. -/
def kernelOf (ps : List Piece) : Kernel := ⟨3, 1, 0, 1, true, 0, 0, true, [.ready ps .eof]⟩

/-- `HTTP/1.0 200 OK`, a blank line, and `x`. -/
def okResponse : List UInt8 :=
  [72, 84, 84, 80, 47, 49, 46, 48, 32, 50, 48, 48, 32, 79, 75, 13, 10, 13, 10, 120]

theorem okResponse_response : Response okResponse 200 1 where
  line := ⟨49, 48, 50, 48, 48, [32, 79, 75, 13, 10, 13, 10, 120], rfl, by decide⟩
  blank := ⟨15, findBlank_eq_some.1 (by decide), rfl⟩

/-- The same calls; the header comes in one turn, after one in which nothing came, and the body in
the next one. -/
def afterHeader : Kernel :=
  { kernelOf [] with
    turns := [.timeout, .ready [⟨okResponse.take 19, by decide, by decide⟩] .again,
      .ready [⟨okResponse.drop 19, by decide, by decide⟩] .eof] }

/-- The response cut after its header: the status and the length are right. -/
theorem httpDownloadOne_exact_iff_cut : ∃ s, httpDownloadOne afterHeader = .ok s ∧
    (s.status = 200 ∧ s.total.toNat = 1) ∧ OnePiece (pieces afterHeader.turns) 200 := by
  have hfirst : FirstBlank okResponse 15 := findBlank_eq_some.1 (by decide)
  have hone : OnePiece (pieces afterHeader.turns) 200 :=
    ⟨[], ⟨okResponse.take 19, by decide, by decide⟩, [⟨okResponse.drop 19, by decide, by decide⟩],
      15, rfl, hfirst, by decide, by decide, .inl rfl⟩
  refine ⟨⟨true, 200, 1⟩, by decide, ?_, hone⟩
  exact (httpDownloadOne_exact_iff (k := afterHeader) okResponse_response (by decide)).2
    ⟨by decide, hone⟩

/-- The same response, cut after its first 12 bytes: the status is 0. -/
theorem httpDownloadOne_split :
    Response okResponse 200 1 ∧
      stream (pieces (kernelOf [⟨okResponse.take 12, by decide, by decide⟩,
        ⟨okResponse.drop 12, by decide, by decide⟩]).turns) = okResponse ∧
      httpDownloadOne (kernelOf [⟨okResponse, by decide, by decide⟩]) = .ok ⟨true, 200, 1⟩ ∧
      httpDownloadOne (kernelOf [⟨okResponse.take 12, by decide, by decide⟩,
        ⟨okResponse.drop 12, by decide, by decide⟩]) = .ok ⟨true, 0, 1⟩ ∧
      returned (.ok ⟨true, 200, 1⟩) = 0 ∧ returned (.ok ⟨true, 0, 1⟩) = -1 :=
  ⟨okResponse_response, rfl, by decide, by decide, by decide, by decide⟩

end HttpDownload
end Tools
end V6User
