import V6User.Fsutil.CopyContent
import V6User.Tools.ParseNum
import V6User.Tools.Seek

/-!
# `dd`

`programs/dd/dd.c`: `match_opt`, the options and the copy.

The input is read from where `skip` leads, one record after another, and written behind what
was written before.  A record is what one `read` gives, so that a `count` counts the short ones
as well.  When the status is 0, the output has the records one after another, behind as many
zeros as `seek` asks for, and the counts that are printed say how long they are; and where every
call transfers all that it can, they are the blocks of the input that were asked for
(`dd_copies`).
-/

namespace V6User
namespace Tools
namespace Dd

open Vfs Effect CInt
open Fsutil (Moves moves_look moves_write)

/-! ### The options -/

/-- `match_opt(arg, key)`. -/
def matchOpt : List UInt8 → List UInt8 → Option (List UInt8)
  | 61 :: val, [] => some val
  | a :: arg, k :: key => if a = k then matchOpt arg key else none
  | _, _ => none

/-- `MAX_BS`. -/
def maxBs : ℤ := 65536

/-- What `main` knows from its arguments. -/
structure Options where
  infile : Option Path
  outfile : Option Path
  bs : ℤ
  count : ℤ
  skip : ℤ
  seek : ℤ
  bs_pos : 0 < bs
  skip_nonneg : 0 ≤ skip
  seek_nonneg : 0 ≤ seek
  deriving DecidableEq

theorem default_bs_pos : (0 : ℤ) < 512 := by decide

/-- The options before the first argument. -/
def Options.default : Options where
  infile := none
  outfile := none
  bs := 512
  count := -1
  skip := 0
  seek := 0
  bs_pos := default_bs_pos
  skip_nonneg := Int.le_refl 0
  seek_nonneg := Int.le_refl 0

/-- What `dd` prints to the standard error. -/
inductive Message where
  /-- `dd: invalid bs=%s (max %d)` -/
  | invalidBs (val : List UInt8)
  /-- `dd: invalid count=%s` -/
  | invalidCount (val : List UInt8)
  /-- `dd: invalid skip=%s` -/
  | invalidSkip (val : List UInt8)
  /-- `dd: invalid seek=%s` -/
  | invalidSeek (val : List UInt8)
  /-- `dd: unknown option: %s` -/
  | unknownOption (arg : List UInt8)
  /-- `Usage: dd [if=FILE] [of=FILE] [bs=N] [count=N] [skip=N] [seek=N]` -/
  | usage
  /-- `dd: cannot open %s` -/
  | cannotOpen (file : Path)
  /-- `dd: cannot seek on output` -/
  | cannotSeek
  /-- `dd: read error` -/
  | readError
  /-- `dd: write error` -/
  | writeError
  /-- `%d+%d records in` -/
  | recordsIn (blocks part : ℤ)
  /-- `%d+%d records out` -/
  | recordsOut (blocks part : ℤ)

/-- One argument. -/
def option (o : Options) (arg : List UInt8) : Except (List Message) Options :=
  match matchOpt arg [105, 102] with
  | some val => .ok { o with infile := some val }
  | none =>
  match matchOpt arg [111, 102] with
  | some val => .ok { o with outfile := some val }
  | none =>
  match matchOpt arg [98, 115] with
  | some val =>
    if h : parseNum val ≤ 0 ∨ maxBs < parseNum val then .error [.invalidBs val]
    else .ok { o with bs := parseNum val, bs_pos := Int.not_le.1 fun hle => h (.inl hle) }
  | none =>
  match matchOpt arg [99, 111, 117, 110, 116] with
  | some val =>
    if parseNum val < 0 then .error [.invalidCount val]
    else .ok { o with count := parseNum val }
  | none =>
  match matchOpt arg [115, 107, 105, 112] with
  | some val =>
    if h : parseNum val < 0 then .error [.invalidSkip val]
    else .ok { o with skip := parseNum val, skip_nonneg := Int.not_lt.1 h }
  | none =>
  match matchOpt arg [115, 101, 101, 107] with
  | some val =>
    if h : parseNum val < 0 then .error [.invalidSeek val]
    else .ok { o with seek := parseNum val, seek_nonneg := Int.not_lt.1 h }
  | none => .error [.unknownOption arg, .usage]

/-- The loop over the arguments. -/
def options (args : List (List UInt8)) : Except (List Message) Options :=
  args.foldlM option .default

/-! ### The copy -/

/-- A descriptor: what it is open on, and its position. -/
abbrev Descriptor := Ino × ℕ

/-- The input, opened if it has a name. -/
def openInput (o : Options) (stdin : Descriptor) : Prog Descriptor :=
  match o.infile with
  | some infile => do
    let ifd ← openRead infile
    pure (ifd, 0)
  | none => pure stdin

/-- The output, opened if it has a name. -/
def openOutput (o : Options) (stdout : Descriptor) : Prog Descriptor :=
  match o.outfile with
  | some outfile => do
    let ofd ← openWrite outfile
    pure (ofd, 0)
  | none => pure stdout

/-- The loop that reads `n` blocks and throws them away: where it leaves the input. -/
def skipBlocks (ifd : Ino) (bs : ℕ) : ℕ → ℕ → Prog ℕ
  | 0, pos => pure pos
  | n + 1, pos => do
    match ← attempt (read ifd pos bs) with
    | .error _ => pure pos
    | .ok buf => if buf = [] then pure pos else skipBlocks ifd bs n (pos + buf.length)

/-- `skip`: the position of the input, where `sys` gives the answers of `lseek`. -/
def skipInput (sys : ℤ → ℤ) (o : Options) (ifd : Ino) (pos : ℕ) : Prog ℕ :=
  if o.skip > 0 then
    let offset := int64 (o.skip * o.bs)
    let pos := (seekPos sys pos offset).toNat
    if lseek sys offset < 0 then skipBlocks ifd o.bs.toNat o.skip.toNat pos else pure pos
  else pure pos

/-- `seek`: the position of the output, or `none` where `dd` gives up. -/
def seekOutput (sys : ℤ → ℤ) (o : Options) (pos : ℕ) : Option ℕ :=
  if o.seek > 0 then
    let offset := int64 (o.seek * o.bs)
    if lseek sys offset < 0 then none else some (seekPos sys pos offset).toNat
  else some pos

/-- `done` and the counts of the records. -/
structure Counts where
  done : ℕ
  blocksIn : ℕ
  partialIn : ℕ
  blocksOut : ℕ
  partialOut : ℕ

/-- A record of `n` bytes was read and written. -/
def Counts.add (bs n : ℕ) (c : Counts) : Counts where
  done := c.done + 1
  blocksIn := if n = bs then c.blocksIn + 1 else c.blocksIn
  partialIn := if n = bs then c.partialIn else c.partialIn + 1
  blocksOut := if n = bs then c.blocksOut + 1 else c.blocksOut
  partialOut := if n = bs then c.partialOut else c.partialOut + 1

/-- A record is written, which has to take all of it. -/
def writeRecord (ofd : Ino) (opos : ℕ) (buf : List UInt8) : Prog (Except Message Unit) := do
  match ← attempt (write ofd opos buf) with
  | .error _ => pure (.error .writeError)
  | .ok n => pure (if n ≠ buf.length then .error .writeError else .ok ())

/-- The copy loop: what it counted, or what it prints before it gives up. -/
def copyLoop (o : Options) (ifd ofd : Ino) : ℕ → ℕ → ℕ → Counts → Prog (Except Message Counts)
  | 0, _, _, _ => diverge
  | fuel + 1, ipos, opos, c =>
    if o.count < 0 ∨ c.done < o.count then do
      match ← attempt (read ifd ipos o.bs.toNat) with
      | .error _ => pure (.error .readError)
      | .ok buf =>
        if buf = [] then pure (.ok c)
        else do
          match ← writeRecord ofd opos buf with
          | .error m => pure (.error m)
          | .ok () =>
            copyLoop o ifd ofd fuel (ipos + buf.length) (opos + buf.length)
              (c.add o.bs.toNat buf.length)
    else pure (.ok c)

/-- A descriptor that was opened is closed. -/
def closeNamed (file : Option Path) (fd : Ino) : Prog (Except Errno Unit) :=
  match file with
  | some _ => attempt (close fd)
  | none => pure (.ok ())

/-- What `main` does when both files are open: the exit status, and what it prints. -/
def transfer (sysIn sysOut : ℤ → ℤ) (o : Options) (input output : Descriptor) (fuel : ℕ) :
    Prog (ℕ × List Message) := do
  let ipos ← skipInput sysIn o input.1 input.2
  match seekOutput sysOut o output.2 with
  | none => pure (1, [.cannotSeek])
  | some opos => do
    match ← copyLoop o input.1 output.1 fuel ipos opos ⟨0, 0, 0, 0, 0⟩ with
    | .error m => pure (1, [m])
    | .ok c => do
      let _ ← closeNamed o.infile input.1
      let _ ← closeNamed o.outfile output.1
      pure (0, [.recordsIn (int32 c.blocksIn) (int32 c.partialIn),
        .recordsOut (int32 c.blocksOut) (int32 c.partialOut)])

/-- `main`: the exit status, and what it prints.  `sys` gives the answers of `lseek` for what a
descriptor is open on. -/
def dd (sys : Ino → ℤ → ℤ) (stdin stdout : Descriptor) (fuel : ℕ) (args : List (List UInt8)) :
    Prog (ℕ × List Message) :=
  match options args with
  | .error said => pure (1, said)
  | .ok o => do
    match ← attempt (openInput o stdin) with
    | .error _ => pure (1, [.cannotOpen (o.infile.getD [])])
    | .ok input => do
      match ← attempt (openOutput o stdout) with
      | .error _ => pure (1, [.cannotOpen (o.outfile.getD [])])
      | .ok output => transfer (sys input.1) (sys output.1) o input output fuel

/-! ### What is copied -/

/-- What a file that was empty has when these bytes were written at a position. -/
def placed (offset : ℕ) (bytes : List UInt8) : List UInt8 :=
  if bytes = [] then [] else List.replicate offset 0 ++ bytes

/-- Every call transfers all that it can. -/
def Full (w : World) (n : ℕ) : Prop := ∀ k c, n ≤ (w.env k c).count

/-- The records that were copied so far, of an input that is read from `rest` on. -/
structure Records (o : Options) (w : World) (rest bytes : List UInt8) (c : Counts) : Prop where
  front : bytes <+: rest
  done : c.done = c.blocksIn + c.partialIn
  out : c.blocksOut = c.blocksIn ∧ c.partialOut = c.partialIn
  least : c.blocksIn * o.bs.toNat + c.partialIn ≤ bytes.length
  most : bytes.length ≤ c.blocksIn * o.bs.toNat + c.partialIn * (o.bs.toNat - 1)
  count : 0 ≤ o.count → c.done ≤ o.count
  full : Full w o.bs.toNat → bytes = rest.take (c.done * o.bs.toNat)

/-- The records that were asked for were copied: `blocks` of the length `bs`, and `part` that are
shorter. -/
structure Copied (o : Options) (w : World) (rest bytes : List UInt8) (blocks part : ℕ) :
    Prop where
  front : bytes <+: rest
  least : blocks * o.bs.toNat + part ≤ bytes.length
  most : bytes.length ≤ blocks * o.bs.toNat + part * (o.bs.toNat - 1)
  count : 0 ≤ o.count → blocks + part ≤ o.count
  all : o.count < 0 ∨ blocks + part < o.count → bytes = rest
  full : Full w o.bs.toNat →
    bytes = if o.count < 0 then rest else rest.take (o.count.toNat * o.bs.toNat)

section Copy

variable {o : Options} {w w' : World} {s t : Ino} {mode perm pos start offset : ℕ}
  {data rest bytes buf : List UInt8} {c : Counts}

theorem Options.toNat_bs_pos (o : Options) : 0 < o.bs.toNat := by
  have hpos := o.bs_pos
  omega

theorem runs_read_data {n : ℕ} (hn : 0 < n) (h : Runs (Vfs.read s pos n) w (.ok buf) w')
    (hs : w.fs.node s = some (.reg mode data)) :
    ∃ k, 0 < k ∧ k ≤ n ∧ buf = (data.drop pos).take k ∧ (Full w n → k = n) := by
  unfold Vfs.read look at h
  obtain ⟨-, -, ⟨e, -, hbad, -⟩ | ⟨-, ⟨e, -, hbad, -⟩ | ⟨a, hok, hr⟩⟩⟩ := runs_sys_outcome h
  · exact absurd hbad (ok_ne_error _ _)
  · exact absurd hbad (ok_ne_error _ _)
  · obtain rfl := Except.ok.inj hr
    dsimp only at hok
    rw [hs] at hok
    obtain ⟨hbuf, -⟩ := Prod.mk.inj (Except.ok.inj hok)
    refine ⟨_, ?_, Nat.min_le_right _ _, hbuf.symm, fun hfull => ?_⟩
    · omega
    · have hcount := hfull w.calls.length .read
      omega

/-- What is written behind what was written before. -/
theorem writeAt_placed (hbuf : buf ≠ []) :
    writeAt (placed offset bytes) (offset + bytes.length) buf = placed offset (bytes ++ buf) := by
  unfold placed
  rw [if_neg (List.append_ne_nil_of_right_ne_nil _ hbuf)]
  by_cases hnil : bytes = []
  · rw [if_pos hnil, hnil, writeAt]
    simp
  · rw [if_neg hnil]
    have hlen : (List.replicate offset (0 : UInt8) ++ bytes).length = offset + bytes.length := by
      rw [List.length_append, List.length_replicate]
    rw [← hlen, Fsutil.writeAt_append, List.append_assoc]

/-- A record that is written is put where the output has come to, or `dd` gives up. -/
theorem exists_writeRecord (t : Ino) (pos : ℕ) (buf : List UInt8) (w : World)
    (ht : w.fs.node t = some (.reg perm data)) : ∃ x w',
      Runs (writeRecord t pos buf) w (.ok x) w' ∧ Moves t w w' ∧ ((∃ m, x = .error m) ∨
        x = .ok () ∧ w'.fs.node t = some (.reg perm (writeAt data pos buf))) := by
  obtain ⟨x, w₁, hwrite⟩ : ∃ x w₁, Runs (write t pos buf) w x w₁ := exists_runs_sys _ _ w
  have hmoves := moves_write t pos buf _ _ _ hwrite
  unfold writeRecord
  cases x with
  | error e =>
    exact ⟨_, w₁, runs_attempt_bind.2 ⟨_, w₁, hwrite, runs_pure.2 ⟨rfl, rfl⟩⟩, hmoves, .inl ⟨_, rfl⟩⟩
  | ok n =>
    refine ⟨_, w₁, runs_attempt_bind.2 ⟨_, w₁, hwrite, runs_pure.2 ⟨rfl, rfl⟩⟩, hmoves, ?_⟩
    split_ifs with hshort
    · exact .inl ⟨_, rfl⟩
    refine .inr ⟨rfl, ?_⟩
    obtain ⟨-, -, ⟨e, hbad, -⟩ | ⟨out, a, hok, hr⟩⟩ := runs_sys hwrite
    · exact absurd hbad (ok_ne_error _ _)
    obtain rfl := Except.ok.inj hr
    obtain ⟨perm', data', ht', hlen, hfs⟩ := Fs.write_eq_ok hok
    obtain ⟨rfl, rfl⟩ := Node.reg.inj (Option.some.inj (ht.symm.trans ht'))
    have hall : buf.take out.count = buf := by
      rw [List.length_take] at hlen
      exact List.take_of_length_le (by omega)
    rw [hfs, hall]
    show (w.fs.node.alter t (Node.setData _)) t = _
    rw [Nodes.alter, if_pos rfl, ht]
    rfl

/-- **A record is read and written.** -/
theorem Records.add (h : Records o w rest bytes c) (hgo : o.count < 0 ∨ c.done < o.count) {k : ℕ}
    (hk : k ≤ o.bs.toNat) (hbuf : buf = (rest.drop bytes.length).take k) (hne : buf ≠ [])
    (hfull : Full w o.bs.toNat → k = o.bs.toNat) :
    Records o w rest (bytes ++ buf) (c.add o.bs.toNat buf.length) := by
  have hpos := o.toNat_bs_pos
  have hlen : buf.length ≤ o.bs.toNat := by
    rw [hbuf, List.length_take]
    omega
  have hbuf_pos := List.length_pos_iff.2 hne
  have hdrop : bytes ++ rest.drop bytes.length = rest :=
    (List.prefix_iff_eq_append.1 h.front)
  obtain ⟨hblocks, hpart⟩ := h.out
  have hleast := h.least
  have hmost := h.most
  have hdone := h.done
  refine ⟨?_, ?_, ⟨?_, ?_⟩, ?_, ?_, fun hcount => ?_, fun hf => ?_⟩
  · refine ⟨(rest.drop bytes.length).drop k, ?_⟩
    rw [hbuf, List.append_assoc, List.take_append_drop, hdrop]
  · simp only [Counts.add]
    split_ifs <;> omega
  · simp only [Counts.add, hblocks]
  · simp only [Counts.add, hpart]
  · simp only [Counts.add, List.length_append]
    split_ifs
    · rw [Nat.add_mul]
      omega
    · omega
  · simp only [Counts.add, List.length_append]
    split_ifs
    · rw [Nat.add_mul]
      omega
    · rw [Nat.add_mul]
      omega
  · show ((c.done + 1 : ℕ) : ℤ) ≤ o.count
    omega
  · show bytes ++ buf = rest.take ((c.done + 1) * o.bs.toNat)
    have htake := h.full hf
    have hsame : rest.drop bytes.length = rest.drop (c.done * o.bs.toNat) := by
      rw [htake, List.length_take]
      rcases Nat.le_total (c.done * o.bs.toNat) rest.length with hle | hle
      · rw [Nat.min_eq_left hle]
      · rw [Nat.min_eq_right hle, List.drop_eq_nil_of_le hle,
          List.drop_eq_nil_of_le (Nat.le_refl _)]
    rw [hbuf, hfull hf, hsame, Nat.succ_mul, List.take_add, ← htake]

/-- Where no record is left, or no more were asked for. -/
theorem Records.copied (h : Records o w rest bytes c)
    (hall : o.count < 0 ∨ c.done < o.count → bytes = rest) :
    Copied o w rest bytes c.blocksIn c.partialIn := by
  have hdone := h.done
  refine ⟨h.front, h.least, h.most, fun hcount => ?_, fun hmore => hall ?_, fun hf => ?_⟩
  · have hle := h.count hcount
    omega
  · omega
  · split_ifs with hcount
    · exact hall (.inl hcount)
    · have hle := h.count (Int.not_lt.1 hcount)
      have hbytes := h.full hf
      rcases Int.lt_or_eq_of_le hle with hlt | heq
      · -- the end of the input came first
        have hrest := hall (.inr hlt)
        rw [hrest] at hbytes
        have hshort := List.take_eq_self_iff _ |>.1 hbytes.symm
        have hmul : c.done * o.bs.toNat ≤ o.count.toNat * o.bs.toNat :=
          Nat.mul_le_mul_right _ (by omega)
        rw [hrest, List.take_of_length_le (Nat.le_trans hshort hmul)]
      · rw [← heq, Int.toNat_natCast]
        exact hbytes

/-- **The copy loop** ends, and where it does so without an error all records were copied. -/
theorem exists_copyLoop {w₀ : World} (hst : s ≠ t) (henv : w.env = w₀.env)
    (hs : w.fs.node s = some (.reg mode data))
    (ht : w.fs.node t = some (.reg perm (placed offset bytes)))
    (h : Records o w₀ (data.drop start) bytes c) : ∃ x w',
      Settles (fun n => copyLoop o s t n (start + bytes.length) (offset + bytes.length) c) w
        (.ok x) w' ∧
      Moves t w w' ∧ ((∃ m, x = .error m) ∨ ∃ c' bytes', x = .ok c' ∧
        w'.fs.node t = some (.reg perm (placed offset bytes')) ∧
        Copied o w₀ (data.drop start) bytes' c'.blocksIn c'.partialIn ∧
        c'.blocksOut = c'.blocksIn ∧ c'.partialOut = c'.partialIn) := by
  induction hleft : data.length - (start + bytes.length) using Nat.strongRecOn
    generalizing w bytes c with
  | ind left ih =>
    by_cases hgo : o.count < 0 ∨ c.done < o.count
    · obtain ⟨x, w₁, hread⟩ : ∃ x w₁, Runs (Vfs.read s (start + bytes.length) o.bs.toNat) w x w₁ :=
        exists_runs_look _ _ w
      have hmoves₁ : Moves t w w₁ := moves_look _ _ _ hread
      obtain ⟨hfs₁, -⟩ := runs_look hread
      cases x with
      | error e =>
        refine ⟨.error .readError, w₁, .of_succ fun n => ?_, hmoves₁, .inl ⟨_, rfl⟩⟩
        rw [copyLoop, if_pos hgo]
        exact runs_attempt_bind.2 ⟨_, w₁, hread, runs_pure.2 ⟨rfl, rfl⟩⟩
      | ok buf =>
        obtain ⟨k, hpos, hle, hbuf, hfull⟩ := runs_read_data o.toNat_bs_pos hread hs
        rw [← List.drop_drop] at hbuf
        by_cases hnil : buf = []
        · -- the end of the input
          refine ⟨.ok c, w₁, .of_succ fun n => ?_, hmoves₁,
            .inr ⟨c, bytes, rfl, ?_, h.copied fun _ => ?_, h.out⟩⟩
          · rw [copyLoop, if_pos hgo]
            refine runs_attempt_bind.2 ⟨_, w₁, hread, ?_⟩
            dsimp only
            rw [if_pos hnil]
            exact runs_pure.2 ⟨rfl, rfl⟩
          · rw [hfs₁, ht]
          · rcases List.take_eq_nil_iff.1 (hbuf.symm.trans hnil) with hzero | hend
            · omega
            · have hfront := List.prefix_iff_eq_append.1 h.front
              rw [hend, List.append_nil] at hfront
              exact hfront
        · have hbytes : bytes.length + buf.length ≤ data.length - start := by
            have hrec := (h.add hgo hle hbuf hnil fun hf => hfull fun k c => ?_).front.length_le
            · rwa [List.length_append, List.length_drop] at hrec
            · rw [henv]
              exact hf k c
          have hbuf_pos := List.length_pos_iff.2 hnil
          obtain ⟨y, w₂, hwrite, hmoves₂, hcases⟩ :=
            exists_writeRecord t (offset + bytes.length) buf w₁ (hfs₁ ▸ ht)
          -- what a turn of the loop does after its `read` and its `write`
          have hturn : ∀ {n z w'}, Runs (match y with
              | .error m => (pure (.error m) : Prog (Except Message Counts))
              | .ok () => copyLoop o s t n (start + bytes.length + buf.length)
                (offset + bytes.length + buf.length) (c.add o.bs.toNat buf.length)) w₂ z w' →
              Runs (copyLoop o s t (n + 1) (start + bytes.length) (offset + bytes.length) c)
                w z w' := by
            intro n z w' hrun
            rw [copyLoop, if_pos hgo]
            refine runs_attempt_bind.2 ⟨_, w₁, hread, ?_⟩
            dsimp only
            rw [if_neg hnil]
            exact runs_bind.2 (.inr ⟨y, w₂, hwrite, hrun⟩)
          rcases hcases with ⟨m, rfl⟩ | ⟨rfl, ht₂⟩
          · exact ⟨.error m, w₂, .of_succ fun n => hturn (runs_pure.2 ⟨rfl, rfl⟩),
              trans_of (Moves t) hmoves₁ hmoves₂, .inl ⟨m, rfl⟩⟩
          · rw [writeAt_placed hnil] at ht₂
            have hs₂ : w₂.fs.node s = some (.reg mode data) := by
              rw [hmoves₂.node s hst, hfs₁, hs]
            have henv₂ : w₂.env = w₀.env := by rw [hmoves₂.env, hmoves₁.env, henv]
            have hadd := h.add hgo hle hbuf hnil fun hf => hfull fun k c => by
              rw [henv]
              exact hf k c
            obtain ⟨z, w', hrest, hmoves₃, hend⟩ :=
              ih (data.length - (start + (bytes ++ buf).length))
                (by rw [List.length_append]; omega) henv₂ hs₂ ht₂ hadd rfl
            refine ⟨z, w', hrest.succ fun n hn => hturn ?_,
              trans_of (Moves t) (trans_of (Moves t) hmoves₁ hmoves₂) hmoves₃, hend⟩
            rw [List.length_append, ← Nat.add_assoc, ← Nat.add_assoc] at hn
            exact hn
    · refine ⟨.ok c, w, .of_succ fun n => ?_, refl_of (Moves t) w,
        .inr ⟨c, bytes, rfl, ht, h.copied fun hmore => absurd hmore hgo, h.out⟩⟩
      rw [copyLoop, if_neg hgo]
      exact runs_pure.2 ⟨rfl, rfl⟩

/-! ### Where the copy begins -/

/-- The blocks that are thrown away move the input on. -/
theorem exists_skipBlocks (s : Ino) (bs n pos : ℕ) (w : World) : ∃ pos' w',
    Runs (skipBlocks s bs n pos) w (.ok pos') w' ∧ w'.env = w.env ∧ w'.fs = w.fs ∧ pos ≤ pos' := by
  induction n generalizing pos w with
  | zero => exact ⟨pos, w, runs_pure.2 ⟨rfl, rfl⟩, rfl, rfl, Nat.le_refl pos⟩
  | succ n ih =>
    obtain ⟨x, w₁, hread⟩ : ∃ x w₁, Runs (Vfs.read s pos bs) w x w₁ := exists_runs_look _ _ w
    obtain ⟨henv, -, hfs⟩ := Fsutil.runs_look_noted hread
    rw [skipBlocks]
    cases x with
    | error e =>
      exact ⟨pos, w₁, runs_attempt_bind.2 ⟨_, w₁, hread, runs_pure.2 ⟨rfl, rfl⟩⟩, henv, hfs,
        Nat.le_refl pos⟩
    | ok buf =>
      by_cases hnil : buf = []
      · refine ⟨pos, w₁, runs_attempt_bind.2 ⟨_, w₁, hread, ?_⟩, henv, hfs, Nat.le_refl pos⟩
        dsimp only
        rw [if_pos hnil]
        exact runs_pure.2 ⟨rfl, rfl⟩
      · obtain ⟨pos', w', hrest, henv', hfs', hle⟩ := ih (pos + buf.length) w₁
        refine ⟨pos', w', runs_attempt_bind.2 ⟨_, w₁, hread, ?_⟩, henv'.trans henv, hfs'.trans hfs,
          by omega⟩
        dsimp only
        rw [if_neg hnil]
        exact hrest

/-- **`skip`** leads to the offset, or on from there where the offset is taken for an error. -/
theorem exists_skipInput {sys : ℤ → ℤ} (hsys : Seeks sys) (hsmall : o.skip * o.bs < 2 ^ 63)
    (s : Ino) (w : World) : ∃ start w', Runs (skipInput sys o s 0) w (.ok start) w' ∧
      w'.env = w.env ∧ w'.fs = w.fs ∧ o.skip * o.bs ≤ start ∧
      (LowOffset (o.skip * o.bs) → (start : ℤ) = o.skip * o.bs) := by
  have h0 : 0 ≤ o.skip * o.bs := Int.mul_nonneg o.skip_nonneg (Int.le_of_lt o.bs_pos)
  have hoff : int64 (o.skip * o.bs) = o.skip * o.bs := int64_of_range (by omega) hsmall
  unfold skipInput
  split_ifs with hpos
  · dsimp only
    rw [hoff, seekPos_eq hsys h0 hsmall]
    split_ifs with hneg
    · obtain ⟨start, w', hrun, henv, hfs, hle⟩ :=
        exists_skipBlocks s o.bs.toNat o.skip.toNat (o.skip * o.bs).toNat w
      refine ⟨start, w', hrun, henv, hfs, by omega, fun hlow => ?_⟩
      exact absurd hlow ((lseek_neg_iff hsys h0 hsmall).1 hneg)
    · exact ⟨_, w, runs_pure.2 ⟨rfl, rfl⟩, rfl, rfl, by omega, fun _ => by omega⟩
  · have hzero : o.skip = 0 := Int.le_antisymm (Int.not_lt.1 hpos) o.skip_nonneg
    refine ⟨0, w, runs_pure.2 ⟨rfl, rfl⟩, rfl, rfl, ?_, fun _ => ?_⟩
    · rw [hzero, Int.zero_mul]
      exact Int.le_refl 0
    · rw [hzero, Int.zero_mul]
      rfl

/-- **`seek`** leads to the offset, or `dd` gives up. -/
theorem seekOutput_eq {sys : ℤ → ℤ} (hsys : Seeks sys) (hsmall : o.seek * o.bs < 2 ^ 63) :
    seekOutput sys o 0 = none ∨ seekOutput sys o 0 = some (o.seek * o.bs).toNat := by
  have h0 : 0 ≤ o.seek * o.bs := Int.mul_nonneg o.seek_nonneg (Int.le_of_lt o.bs_pos)
  have hoff : int64 (o.seek * o.bs) = o.seek * o.bs := int64_of_range (by omega) hsmall
  unfold seekOutput
  split_ifs with hpos
  · dsimp only
    rw [hoff, seekPos_eq hsys h0 hsmall]
    split_ifs with hneg
    · exact .inl rfl
    · exact .inr rfl
  · have hzero : o.seek = 0 := Int.le_antisymm (Int.not_lt.1 hpos) o.seek_nonneg
    rw [hzero, Int.zero_mul]
    exact .inr rfl

theorem exists_closeNamed (file : Option Path) (fd : Ino) (w : World) : ∃ x w',
    Runs (closeNamed file fd) w (.ok x) w' ∧ w'.fs = w.fs := by
  unfold closeNamed
  cases file with
  | none => exact ⟨.ok (), w, runs_pure.2 ⟨rfl, rfl⟩, rfl⟩
  | some file =>
    obtain ⟨x, w', hclose⟩ : ∃ x w', Runs (close fd) w x w' := exists_runs_look _ _ w
    exact ⟨x, w', runs_attempt.2 ⟨x, hclose, rfl⟩, (runs_look hclose).1⟩

/-! ### The program -/

/-- How `dd` ends, from a file to another one: with a message, or with the records that were
asked for behind the zeros in the output. -/
inductive Ends (o : Options) (dst : Path) (s : Ino) (data : List UInt8) (w w' : World) :
    ℕ → List Message → Prop
  | failed (m : Message) : Ends o dst s data w w' 1 [m]
  | copied {start blocks part perm : ℕ} {bytes : List UInt8} {t : Ino}
      (start_le : o.skip * o.bs ≤ start)
      (start_eq : LowOffset (o.skip * o.bs) → (start : ℤ) = o.skip * o.bs)
      (records : Copied o w (data.drop start) bytes blocks part) (other : t ≠ s)
      (output : w'.fs.get true dst = .ok (t, .reg perm (placed (o.seek * o.bs).toNat bytes))) :
      Ends o dst s data w w' 0 [.recordsIn (int32 blocks) (int32 part),
        .recordsOut (int32 blocks) (int32 part)]

theorem exists_openInput {src : Path} {x : Node} (stdin : Descriptor) (hin : o.infile = some src)
    (hsrc : w.fs.get true src = .ok (s, x)) : ∃ r w', Runs (openInput o stdin) w r w' ∧
      w'.env = w.env ∧ w'.fs = w.fs ∧ ((∃ e, r = .error e) ∨ r = .ok (s, 0)) := by
  unfold openInput
  rw [hin]
  obtain ⟨r, w', hopen⟩ : ∃ r w', Runs (openRead src) w r w' := exists_runs_look _ _ w
  obtain ⟨henv, -, hfs⟩ := Fsutil.runs_look_noted hopen
  obtain ⟨-, ⟨e, rfl, -⟩ | ⟨out, i, hi, rfl⟩⟩ := runs_look hopen
  · exact ⟨_, w', runs_bind.2 (.inl ⟨e, hopen, rfl⟩), henv, hfs, .inl ⟨e, rfl⟩⟩
  · obtain ⟨y, hy⟩ := Fsutil.exists_of_map_fst hi
    obtain ⟨rfl, -⟩ := Prod.mk.inj (Except.ok.inj (hsrc.symm.trans hy))
    exact ⟨_, w', runs_bind.2 (.inr ⟨s, w', hopen, runs_pure.2 ⟨rfl, rfl⟩⟩), henv, hfs, .inr rfl⟩

theorem exists_openOutput {dst : Path} (stdout : Descriptor) (hout : o.outfile = some dst)
    (hother : w.fs.OtherFile s dst) (hs : w.fs.node s = some (.reg mode data)) : ∃ r w',
      Runs (openOutput o stdout) w r w' ∧ w'.env = w.env ∧ Sub w.fs w'.fs ∧
        w'.fs.node s = some (.reg mode data) ∧ ((∃ e, r = .error e) ∨ ∃ t perm, r = .ok (t, 0) ∧
          t ≠ s ∧ w'.fs.get true dst = .ok (t, .reg perm [])) := by
  unfold openOutput
  rw [hout]
  obtain ⟨r, w', hopen⟩ : ∃ r w', Runs (openWrite dst) w r w' := exists_runs_sys _ _ w
  obtain ⟨henv, -, ⟨e, rfl, hfs, -⟩ | ⟨out, t, hwrite, rfl⟩⟩ := runs_sys hopen
  · exact ⟨_, w', runs_bind.2 (.inl ⟨e, hopen, rfl⟩), henv, hfs ▸ Sub.refl _, hfs ▸ hs,
      .inl ⟨e, rfl⟩⟩
  · obtain ⟨hne, hsub, ⟨perm, hget⟩, hs'⟩ := Fs.openWrite_spec hwrite hother hs
    exact ⟨_, w', runs_bind.2 (.inr ⟨t, w', hopen, runs_pure.2 ⟨rfl, rfl⟩⟩), henv, hsub, hs',
      .inr ⟨t, perm, rfl, hne, hget⟩⟩

/-- What is done with both files open. -/
theorem exists_transfer {sysIn sysOut : ℤ → ℤ} {src dst : Path} {w₀ : World} (hin : Seeks sysIn)
    (hout : Seeks sysOut) (hskip : o.skip * o.bs < 2 ^ 63) (hseek : o.seek * o.bs < 2 ^ 63)
    (henv : w.env = w₀.env) (hsrc : w.fs.get true src = .ok (s, .reg mode data)) (hne : t ≠ s)
    (hdst : w.fs.get true dst = .ok (t, .reg perm [])) : ∃ status said w',
      Settles (fun n => transfer sysIn sysOut o (s, 0) (t, 0) n) w (.ok (status, said)) w' ∧
        w'.fs.get true src = .ok (s, .reg mode data) ∧ Ends o dst s data w₀ w' status said := by
  obtain ⟨-, -, -, hs⟩ := Fs.get_eq_ok.1 hsrc
  obtain ⟨-, -, -, ht⟩ := Fs.get_eq_ok.1 hdst
  obtain ⟨start, w₁, hrun₁, henv₁, hfs₁, hle, heq⟩ := exists_skipInput hin hskip s w
  unfold transfer
  dsimp only
  rcases seekOutput_eq hout hseek with hnone | hsome
  · refine ⟨1, [.cannotSeek], w₁, (Settles.of_runs hrun₁).bind ?_, hfs₁ ▸ hsrc, .failed _⟩
    rw [hnone]
    exact .of_runs (runs_pure.2 ⟨rfl, rfl⟩)
  have hnil : Records o w₀ (data.drop start) [] ⟨0, 0, 0, 0, 0⟩ := by
    refine ⟨List.nil_prefix, rfl, ⟨rfl, rfl⟩, ?_, Nat.zero_le _, fun hcount => hcount, fun _ => ?_⟩
    · simp
    · simp
  have ht₁ : w₁.fs.node t = some (.reg perm (placed (o.seek * o.bs).toNat [])) := hfs₁ ▸ ht
  obtain ⟨x, w₂, hloop, hmoves, hcases⟩ :=
    exists_copyLoop hne.symm (henv₁.trans henv) (hfs₁ ▸ hs) ht₁ hnil
  have hsrc₂ : w₂.fs.get true src = .ok (s, .reg mode data) :=
    Fsutil.get_of_sub hmoves.sub (hfs₁ ▸ hsrc) (by rw [hmoves.node s hne.symm, hfs₁, hs])
  rcases hcases with ⟨m, rfl⟩ | ⟨c, bytes, rfl, ht₂, hcopied, hblocks, hpart⟩
  · refine ⟨1, [m], w₂, (Settles.of_runs hrun₁).bind ?_, hsrc₂, .failed m⟩
    rw [hsome]
    exact hloop.bind (.of_runs (runs_pure.2 ⟨rfl, rfl⟩))
  · obtain ⟨x, w₃, hclose, hfs₃⟩ := exists_closeNamed o.infile s w₂
    obtain ⟨y, w₄, hclose', hfs₄⟩ := exists_closeNamed o.outfile t w₃
    have hdst₂ : w₂.fs.get true dst = .ok (t, .reg perm (placed (o.seek * o.bs).toNat bytes)) :=
      Fsutil.get_of_sub hmoves.sub (hfs₁ ▸ hdst) ht₂
    refine ⟨0, _, w₄, (Settles.of_runs hrun₁).bind ?_, by rw [hfs₄, hfs₃, hsrc₂],
      .copied hle heq hcopied hne (by rw [hfs₄, hfs₃, hdst₂])⟩
    rw [hsome]
    refine hloop.bind (.of_runs (runs_bind.2 (.inr ⟨x, w₃, hclose, ?_⟩)))
    refine runs_bind.2 (.inr ⟨y, w₄, hclose', runs_pure.2 ⟨?_, rfl⟩⟩)
    rw [hblocks, hpart]

/-- **`dd` from a file to another one.**  Whatever the calls transfer or report, it ends, the input
is as it was, and with the status 0 the output has the records that were asked for. -/
theorem dd_copies {sys : Ino → ℤ → ℤ} {stdin stdout : Descriptor} {args : List (List UInt8)}
    {src dst : Path} (hargs : options args = .ok o) (hin : o.infile = some src)
    (hout : o.outfile = some dst) (hsrc : w.fs.get true src = .ok (s, .reg mode data))
    (hother : w.fs.OtherFile s dst) (hsys : ∀ i, Seeks (sys i))
    (hskip : o.skip * o.bs < 2 ^ 63) (hseek : o.seek * o.bs < 2 ^ 63) :
    ∃ status said w', Settles (fun n => dd sys stdin stdout n args) w (.ok (status, said)) w' ∧
      w'.fs.get true src = .ok (s, .reg mode data) ∧ Ends o dst s data w w' status said := by
  obtain ⟨-, -, -, hs⟩ := Fs.get_eq_ok.1 hsrc
  unfold dd
  rw [hargs]
  dsimp only
  obtain ⟨x, w₁, hopen₁, henv₁, hfs₁, hx⟩ := exists_openInput stdin hin hsrc
  rcases hx with ⟨e, rfl⟩ | rfl
  · exact ⟨1, _, w₁, (Settles.of_runs hopen₁).attempt.bind (.of_runs (runs_pure.2 ⟨rfl, rfl⟩)),
      hfs₁ ▸ hsrc, .failed _⟩
  obtain ⟨y, w₂, hopen₂, henv₂, hsub₂, hs₂, hy⟩ :=
    exists_openOutput stdout hout (hfs₁ ▸ hother) (hfs₁ ▸ hs)
  have hsrc₂ := Fsutil.get_of_sub hsub₂ (hfs₁ ▸ hsrc) hs₂
  rcases hy with ⟨e, rfl⟩ | ⟨t, perm, rfl, hne, hdst⟩
  · exact ⟨1, _, w₂, (Settles.of_runs hopen₁).attempt.bind ((Settles.of_runs hopen₂).attempt.bind
      (.of_runs (runs_pure.2 ⟨rfl, rfl⟩))), hsrc₂, .failed _⟩
  · obtain ⟨status, said, w', hrest, hsrc', hends⟩ := exists_transfer (hsys s) (hsys t) hskip hseek
      (henv₂.trans henv₁) hsrc₂ hne hdst
    exact ⟨status, said, w', (Settles.of_runs hopen₁).attempt.bind
      ((Settles.of_runs hopen₂).attempt.bind hrest), hsrc', hends⟩

/-! ### More fuel -/

theorem copyLoop_refines (ifd ofd : Ino) (n ipos opos : ℕ) (c : Counts) :
    Refines (copyLoop o ifd ofd n ipos opos c) (copyLoop o ifd ofd (n + 1) ipos opos c) := by
  induction n generalizing ipos opos c with
  | zero => exact fun _ _ _ h => absurd h not_runs_diverge
  | succ n ih =>
    rw [copyLoop, copyLoop]
    split_ifs
    · refine Refines.bind (Refines.refl _) fun x => ?_
      cases x with
      | error e => exact Refines.refl _
      | ok buf =>
        dsimp only
        split_ifs
        · exact Refines.refl _
        · refine Refines.bind (Refines.refl _) fun y => ?_
          cases y with
          | error m => exact Refines.refl _
          | ok => exact ih _ _ _
    · exact Refines.refl _

theorem dd_refines (sys : Ino → ℤ → ℤ) (stdin stdout : Descriptor) (n : ℕ)
    (args : List (List UInt8)) :
    Refines (dd sys stdin stdout n args) (dd sys stdin stdout (n + 1) args) := by
  unfold dd
  rcases options args with said | o
  · exact Refines.refl _
  refine Refines.bind (Refines.refl _) fun x => ?_
  rcases x with e | input
  · exact Refines.refl _
  refine Refines.bind (Refines.refl _) fun y => ?_
  rcases y with e | output
  · exact Refines.refl _
  refine Refines.bind (Refines.refl _) fun ipos => ?_
  rcases seekOutput (sys output.1) o output.2 with - | opos
  · exact Refines.refl _
  · exact Refines.bind (copyLoop_refines _ _ _ _ _ _) fun _ => Refines.refl _

end Copy

/-- `/d/f` has four bytes. -/
def fourBytes : World :=
  { smallWorld with
    fs := smallFs.alter ⟨0, 2⟩ (Node.setData [7, 8, 9, 10]) (sameShape_setData _) }

/-- `dd if=/d/f of=/d/x bs=1 count=2 skip=1 seek=3`. -/
def smallArgs : List (List UInt8) :=
  [[105, 102, 61, 47, 100, 47, 102], [111, 102, 61, 47, 100, 47, 120], [98, 115, 61, 49],
    [99, 111, 117, 110, 116, 61, 50], [115, 107, 105, 112, 61, 49], [115, 101, 101, 107, 61, 51]]

/-- The options that these are. -/
def smallOptions : Options where
  infile := some [47, 100, 47, 102]
  outfile := some [47, 100, 47, 120]
  bs := 1
  count := 2
  skip := 1
  seek := 3
  bs_pos := Int.zero_lt_one
  skip_nonneg := Int.zero_le_ofNat 1
  seek_nonneg := Int.zero_le_ofNat 3

theorem dd_copies_small : ∃ said w',
    Settles (fun n => dd (fun _ => id) (⟨1, 0⟩, 0) (⟨1, 0⟩, 0) n smallArgs) fourBytes
      (.ok (0, said)) w' ∧
    w'.fs.get true [47, 100, 47, 102] = .ok (⟨0, 2⟩, .reg 0o640 [7, 8, 9, 10]) ∧
    Ends smallOptions [47, 100, 47, 120] ⟨0, 2⟩ [7, 8, 9, 10] fourBytes w' 0 said := by
  have hargs : options smallArgs = .ok smallOptions := by
    have hopt : (options smallArgs).toOption = some smallOptions := by decide +kernel
    rcases ho : options smallArgs with e | o
    · rw [ho] at hopt
      cases hopt
    · rw [ho] at hopt
      exact congrArg Except.ok (Option.some.inj hopt)
  have hother : fourBytes.fs.OtherFile ⟨0, 2⟩ [47, 100, 47, 120] := by
    intro place j hfind hj
    have hmissing : fourBytes.fs.find true [47, 100, 47, 120] =
        .ok (.entry ⟨0, 1⟩ ⟨[120], by decide, by decide⟩ none) := rfl
    rw [← Except.ok.inj (hmissing.symm.trans hfind)] at hj
    cases hj
  obtain ⟨status, said, w', hsettles, hsrc, hends⟩ : ∃ status said w',
      Settles (fun n => dd (fun _ => id) (⟨1, 0⟩, 0) (⟨1, 0⟩, 0) n smallArgs) fourBytes
        (.ok (status, said)) w' ∧ _ ∧ _ :=
    dd_copies hargs rfl rfl rfl hother (fun _ _ _ _ => rfl) (by decide) (by decide)
  have hrun : endsWith (dd (fun _ => id) (⟨1, 0⟩, 0) (⟨1, 0⟩, 0) 5 smallArgs)
      (fun ret _ => ret.1 == 0) fourBytes = true := by decide +kernel
  obtain ⟨⟨status', said'⟩, w'', hrun, hzero⟩ := exists_of_endsWith hrun
  obtain ⟨hret, rfl⟩ := hsettles.unique (Settles.of_refines (dd_refines _ _ _ · _) hrun)
  obtain ⟨rfl, rfl⟩ := Prod.mk.inj (Except.ok.inj hret)
  obtain rfl := beq_iff_eq.1 hzero
  exact ⟨said, w', hsettles, hsrc, hends⟩

end Dd
end Tools
end V6User
