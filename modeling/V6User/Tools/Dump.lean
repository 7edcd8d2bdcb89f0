import V6User.Base.Cut
import V6User.Tools.Hexline
import V6User.Tools.Seek

/-!
# The loops of the hexdump

`programs/dh/dh.c`: `main`, from its `lseek` on.

What a `read` gives is cut into lines by itself, so that its last line is short wherever it is
no multiple of the width, and the addresses go on from there.  The dump is the one that is
meant, all lines full but the last, exactly where `lseek` is not taken for one that failed, each
`read` that gives something, but the last of them, gives a multiple of the width, and the lines
have room in the buffer of `hexline` (`dump_ok_iff`).
-/

namespace V6User
namespace Tools

open Shell (Byte)
open Cut

/-- `READ_BUF`. -/
def readBuf : ℕ := 4096

/-- `width`, as `main` accepts it. -/
structure Width where
  places : ℕ
  pos : 1 ≤ places
  le : places ≤ 64

/-- The arguments of a call of `hexline`. -/
structure DumpLine where
  addr : BitVec 64
  data : List Byte

/-- The loop over `off`: `left` are the bytes of `rbuf` from `off` to `n`. -/
def dumpChunk (width : Width) (addr : BitVec 64) (left : List Byte) : List DumpLine :=
  if left.length = 0 then []
  else
    let linelen := min left.length width.places
    ⟨addr, left.take linelen⟩ ::
      dumpChunk width (addr + .ofNat 64 linelen) (left.drop linelen)
termination_by left.length
decreasing_by
  have hpos := width.pos
  rw [List.length_drop]
  omega

/-- The loop over `remaining`, with what its calls of `read` give. -/
def dumpLoop (width : Width) : ℕ → BitVec 64 → List (List Byte) → List DumpLine
  | _, _, [] => []
  | remaining, addr, chunk :: reads =>
    if remaining = 0 ∨ chunk.length = 0 then []
    else
      dumpChunk width addr chunk ++
        dumpLoop width (remaining - chunk.length) (addr + .ofNat 64 chunk.length) reads

/-- `main` from its `lseek` on: what it prints.  `sys` gives the answer of the kernel to `lseek`;
where `dh` takes it for an error, nothing is read. -/
def dump (sys : ℤ → ℤ) (width : Width) (offset length : ℕ) (reads : List (List Byte)) :
    List DumpLine :=
  match dhStart sys offset with
  | none => []
  | some _ => dumpLoop width length (.ofNat 64 offset) reads

/-- What the calls of `read` can give where `rest` is left of the file and `remaining` bytes
are still to be dumped: at most as much as is asked for, and nothing only at the end. -/
inductive Reads : List Byte → ℕ → List (List Byte) → Prop
  | done (rest : List Byte) : Reads rest 0 []
  | atEnd {remaining : ℕ} (h : 0 < remaining) : Reads [] remaining [[]]
  | chunk {chunk rest : List Byte} {remaining : ℕ} {reads : List (List Byte)}
    (hpos : 0 < chunk.length) (hbuf : chunk.length ≤ readBuf) (hle : chunk.length ≤ remaining)
    (h : Reads rest (remaining - chunk.length) reads) :
    Reads (chunk ++ rest) remaining (chunk :: reads)

/-- The reads that give something. -/
def parts (reads : List (List Byte)) : List (List Byte) := reads.filter (·.length ≠ 0)

/-- The dump that is meant: its lines fit and can be read back, all but the last have `width`
bytes, their addresses go on by the width, and together they are the bytes asked for. -/
structure DumpOk (file : List Byte) (offset length : ℕ) (width : Width)
    (lines : List DumpLine) : Prop where
  line : ∀ l ∈ lines, LineOk l.addr l.data width.places
  even : Even width.places (lines.map DumpLine.data)
  addr : ∀ i (l : DumpLine), lines[i]? = some l →
    l.addr = .ofNat 64 (offset + i * width.places)
  bytes : (lines.map DumpLine.data).flatten = (file.drop offset).take length

/-! ### The lines as pieces -/

/-- The pieces with their addresses. -/
def placed (addr : BitVec 64) : List (List Byte) → List DumpLine
  | [] => []
  | p :: ps => ⟨addr, p⟩ :: placed (addr + .ofNat 64 p.length) ps

variable {addr : BitVec 64} {ps qs : List (List Byte)} {width : Width}

theorem placed_append : placed addr (ps ++ qs) =
    placed addr ps ++ placed (addr + .ofNat 64 ps.flatten.length) qs := by
  induction ps generalizing addr with
  | nil => simp [placed]
  | cons p ps ih =>
    rw [List.cons_append, placed, placed, ih, List.flatten_cons, List.length_append,
      BitVec.ofNat_add, BitVec.add_assoc, List.cons_append]

theorem map_data_placed : (placed addr ps).map DumpLine.data = ps := by
  induction ps generalizing addr with
  | nil => rfl
  | cons p ps ih => rw [placed, List.map_cons, ih]

/-- A line is at the address after the bytes before it. -/
theorem addr_of_placed {i : ℕ} {l : DumpLine} (hl : (placed addr ps)[i]? = some l) :
    i < ps.length ∧ l.addr = addr + .ofNat 64 (ps.take i).flatten.length := by
  induction ps generalizing addr i with
  | nil => exact absurd hl (by simp [placed])
  | cons p ps ih =>
    rw [placed] at hl
    cases i with
    | zero =>
      rw [List.getElem?_cons_zero] at hl
      obtain rfl := Option.some.inj hl
      exact ⟨Nat.zero_lt_succ _, by simp⟩
    | succ i =>
      rw [List.getElem?_cons_succ] at hl
      obtain ⟨hi, haddr⟩ := ih hl
      refine ⟨Nat.succ_lt_succ hi, ?_⟩
      rw [haddr, List.take_succ_cons, List.flatten_cons, List.length_append, BitVec.ofNat_add,
        BitVec.add_assoc]

/-- **The lines of one `read`** are its pieces. -/
theorem dumpChunk_eq (width : Width) (addr : BitVec 64) (left : List Byte) :
    dumpChunk width addr left = placed addr (cut width.places left) := by
  induction left using dropInduction width.pos generalizing addr with
  | nil => rw [dumpChunk, cut_nil, if_pos List.length_nil, placed]
  | step left hleft ih =>
    have hpos := List.length_pos_iff.2 hleft
    have htake : left.take (min left.length width.places) = left.take width.places := by
      rw [Nat.min_comm]
      exact List.take_eq_take_min.symm
    have hdrop : left.drop (min left.length width.places) = left.drop width.places := by
      rw [Nat.min_comm]
      exact List.drop_eq_drop_min.symm
    have hlen : (left.take width.places).length = min left.length width.places := by
      rw [List.length_take, Nat.min_comm]
    rw [dumpChunk, cut_of_ne_nil width.pos hleft, if_neg (Nat.ne_of_gt hpos), placed, hlen]
    dsimp only
    rw [htake, hdrop, ih]

theorem parts_cons {chunk : List Byte} (hpos : 0 < chunk.length) (reads : List (List Byte)) :
    parts (chunk :: reads) = chunk :: parts reads :=
  List.filter_cons_of_pos (by simpa using List.length_pos_iff.1 hpos)

theorem ne_nil_of_mem_parts {reads : List (List Byte)} : ∀ c ∈ parts reads, c ≠ [] := by
  intro c hc
  have hlen := of_decide_eq_true (List.mem_filter.1 hc).2
  exact List.length_pos_iff.1 (Nat.pos_of_ne_zero hlen)

variable {file rest : List Byte} {offset length remaining : ℕ} {reads : List (List Byte)}

/-- **What the reads give** is the bytes asked for. -/
theorem Reads.flatten_parts (h : Reads rest remaining reads) :
    (parts reads).flatten = rest.take remaining := by
  induction h with
  | done rest => rfl
  | atEnd => rw [List.take_nil]; rfl
  | chunk hpos hbuf hle h ih =>
    rw [parts_cons hpos, List.flatten_cons, ih, List.take_append, List.take_of_length_le hle]

/-- **The lines of the dump** are the pieces of the reads, one read after the other. -/
theorem Reads.dump_eq (h : Reads rest remaining reads) (addr : BitVec 64) :
    dumpLoop width remaining addr reads =
      placed addr ((parts reads).flatMap (cut width.places)) := by
  induction h generalizing addr with
  | done rest => rfl
  | atEnd =>
    rw [dumpLoop, if_pos (.inr List.length_nil)]
    rfl
  | chunk hpos hbuf hle h ih =>
    rw [dumpLoop, if_neg (by omega), ih, dumpChunk_eq, parts_cons hpos, List.flatMap_cons,
      placed_append, flatten_cut width.pos]

/-! ### The dump that is meant -/

/-- A line of the dump has at least one byte and at most `width` of them. -/
theorem Reads.length_line (h : Reads rest remaining reads) {l : DumpLine}
    (hl : l ∈ dumpLoop width remaining addr reads) :
    1 ≤ l.data.length ∧ l.data.length ≤ width.places := by
  have hdata : l.data ∈ (dumpLoop width remaining addr reads).map DumpLine.data :=
    List.mem_map_of_mem hl
  rw [h.dump_eq, map_data_placed, List.mem_flatMap] at hdata
  obtain ⟨c, -, hc⟩ := hdata
  exact length_of_mem_cut width.pos hc

/-- **When the loop dumps what is meant**: the lines have room in the buffer, if there is one at
all, and each read but the last gives a multiple of the width. -/
theorem Reads.dumpLoop_ok_iff (h : Reads (file.drop offset) length reads) :
    DumpOk file offset length width (dumpLoop width length (.ofNat 64 offset) reads) ↔
      ((file.drop offset).take length = [] ∨ width.places ≤ 60) ∧
        ∀ c ∈ (parts reads).dropLast, width.places ∣ c.length := by
  have hdump : dumpLoop width length (.ofNat 64 offset) reads =
      placed (.ofNat 64 offset) ((parts reads).flatMap (cut width.places)) := h.dump_eq _
  have hdata := congrArg (List.map DumpLine.data) hdump
  rw [map_data_placed] at hdata
  have hflat := (flatten_flatMap_cut width.pos (parts reads)).trans h.flatten_parts
  constructor
  · intro hok
    have heven := hok.even
    rw [hdata] at heven
    refine ⟨?_, (even_flatMap_cut width.pos ne_nil_of_mem_parts).1 heven⟩
    rcases hlines : dumpLoop width length (.ofNat 64 offset) reads with _ | ⟨l, lines⟩
    · have hbytes := hok.bytes
      rw [hlines] at hbytes
      exact .inl hbytes.symm
    · have hmem : l ∈ dumpLoop width length (.ofNat 64 offset) reads := by
        rw [hlines]
        exact List.mem_cons_self
      obtain ⟨hpos, hle⟩ := h.length_line hmem
      have hfits := (hok.line l hmem).1
      rw [length_hexline l.addr hle width.pos, lineSize] at hfits
      exact .inr (by omega)
  · rintro ⟨hwidth, hdvd⟩
    have heven := (even_flatMap_cut width.pos ne_nil_of_mem_parts).2 hdvd
    refine ⟨fun l hl => ?_, ?_, fun i l hl => ?_, ?_⟩
    · obtain ⟨hpos, hle⟩ := h.length_line hl
      refine ⟨?_, decodeLine_hexline l.addr hle⟩
      rw [length_hexline l.addr hle width.pos, lineSize]
      rcases hwidth with hnil | hwidth
      · rw [← hflat, ← hdata, List.flatten_eq_nil_iff] at hnil
        rw [hnil l.data (List.mem_map_of_mem hl)] at hpos
        exact absurd hpos (Nat.not_lt_zero 0)
      · omega
    · rw [hdata]
      exact heven
    · rw [hdump] at hl
      obtain ⟨hi, haddr⟩ := addr_of_placed hl
      rw [haddr, heven.length_flatten_take hi, BitVec.ofNat_add]
    · rw [hdata]
      exact hflat

/-- Where no byte is asked for, no read gives one. -/
theorem Reads.parts_eq_nil (h : Reads rest remaining reads) (hnil : rest.take remaining = []) :
    parts reads = [] := by
  rw [← h.flatten_parts, List.flatten_eq_nil_iff] at hnil
  exact List.eq_nil_iff_forall_not_mem.2 fun c hc => ne_nil_of_mem_parts c hc (hnil c hc)

/-- A dump of no line is the one that is meant where no byte is asked for. -/
theorem dumpOk_nil_iff :
    DumpOk file offset length width [] ↔ (file.drop offset).take length = [] := by
  constructor
  · intro hok
    exact hok.bytes.symm
  · intro hnil
    have heven : Even width.places (([] : List (List Byte)).flatMap (cut width.places)) :=
      (even_flatMap_cut width.pos (by simp)).2 (by simp)
    exact ⟨by simp, heven, by simp, hnil.symm⟩

/-- `dh` begins at the offset, or takes the seek for one that failed. -/
theorem dhStart_eq {sys : ℤ → ℤ} (hs : Seeks sys) (hoff : offset < 2 ^ 63) :
    dhStart sys offset = if LowOffset offset then some (offset : ℤ) else none := by
  have h63 : (offset : ℤ) < 2 ^ 63 := by exact_mod_cast hoff
  by_cases hlow : LowOffset offset
  · rw [if_pos hlow]
    exact (dhStart_iff hs (Int.natCast_nonneg _) h63).2 hlow
  · have hpos : (offset : ℤ) > 0 := by
      rcases Nat.eq_zero_or_pos offset with rfl | hpos
      · exact absurd lowOffset_zero hlow
      · exact_mod_cast hpos
    rw [if_neg hlow, dhStart, if_pos hpos,
      if_pos ((lseek_neg_iff hs (Int.natCast_nonneg _) h63).2 hlow)]

/-- **When the dump is right.**  For every file, offset, length and width, with a kernel that does
every seek and however the reads give the bytes: nothing is asked for, or `lseek` is not taken for
one that failed, the lines have room in the buffer, and each read but the last gives a multiple of
the width. -/
theorem dump_ok_iff (sys : ℤ → ℤ) (hs : Seeks sys) (hoff : offset < 2 ^ 63)
    (h : ∀ pos, dhStart sys offset = some pos → Reads (file.drop pos.toNat) length reads) :
    DumpOk file offset length width (dump sys width offset length reads) ↔
      (file.drop offset).take length = [] ∨ LowOffset offset ∧ width.places ≤ 60 ∧
        ∀ c ∈ (parts reads).dropLast, width.places ∣ c.length := by
  rw [dhStart_eq hs hoff] at h
  unfold dump
  rw [dhStart_eq hs hoff]
  by_cases hlow : LowOffset offset
  · rw [if_pos hlow] at h ⊢
    have hreads : Reads (file.drop offset) length reads := h offset rfl
    refine hreads.dumpLoop_ok_iff.trans ⟨?_, ?_⟩
    · rintro ⟨hnil | hwidth, hdvd⟩
      · exact .inl hnil
      · exact .inr ⟨hlow, hwidth, hdvd⟩
    · rintro (hnil | ⟨-, hwidth, hdvd⟩)
      · refine ⟨.inl hnil, fun c hc => ?_⟩
        rw [hreads.parts_eq_nil hnil] at hc
        exact absurd hc List.not_mem_nil
      · exact ⟨.inr hwidth, hdvd⟩
  · rw [if_neg hlow]
    refine dumpOk_nil_iff.trans ⟨.inl, ?_⟩
    rintro (hnil | ⟨hlow', -⟩)
    · exact hnil
    · exact absurd hlow' hlow

theorem dump_ok_short : DumpOk [1, 2, 3, 4] 1 3 ⟨2, by decide, by decide⟩
    (dump id ⟨2, by decide, by decide⟩ 1 3 [[2, 3], [4]]) :=
  have hlast : Reads [4] 1 [[4]] :=
    @Reads.chunk [4] [] 1 [] (by decide) (by decide) (by decide) (.done [])
  have hreads : Reads (([1, 2, 3, 4] : List Byte).drop 1) 3 [[2, 3], [4]] :=
    @Reads.chunk [2, 3] [4] 3 [[4]] (by decide) (by decide) (by decide) hlast
  (dump_ok_iff id (fun _ _ _ => rfl) (by decide) fun _ hpos => Option.some.inj hpos ▸ hreads).2
    (.inr (by decide))

/-- **A dump that is not even.**  `dh -w 24 -n 5000` on 5000 bytes: the first read gives 4096 of
them, which is no multiple of 24. -/
theorem not_dumpOk : ∃ reads, Reads ((List.replicate 5000 0).drop 0) 5000 reads ∧
    dhStart id (0 : ℕ) = some 0 ∧
    ¬DumpOk (List.replicate 5000 0) 0 5000 ⟨24, by decide, by decide⟩
      (dump id ⟨24, by decide, by decide⟩ 0 5000 reads) := by
  have hsplit : (List.replicate 5000 0 : List Byte).drop 0 =
      List.replicate 4096 0 ++ (List.replicate 904 0 ++ []) := by
    rw [List.drop_zero, List.append_nil, List.replicate_append_replicate]
  have hreads : Reads ((List.replicate 5000 0).drop 0) 5000
      [List.replicate 4096 0, List.replicate 904 0] := by
    rw [hsplit]
    refine .chunk ?_ ?_ ?_ (.chunk ?_ ?_ ?_ ?_)
    all_goals simp only [List.length_replicate, readBuf]
    case refine_7 => exact .done []
    all_goals decide
  refine ⟨_, hreads, rfl, fun hok => ?_⟩
  have hdvd := (hreads.dumpLoop_ok_iff.1 hok).2 (List.replicate 4096 0) (by
    rw [parts_cons (by rw [List.length_replicate]; decide),
      parts_cons (by rw [List.length_replicate]; decide)]
    exact List.mem_cons_self)
  rw [List.length_replicate] at hdvd
  exact absurd hdvd (by decide)

end Tools
end V6User
