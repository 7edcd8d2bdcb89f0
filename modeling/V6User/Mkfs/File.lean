import Mathlib.Data.List.Nodup
import V6User.Mkfs.Inode

/-!
# Files

What `iappend` does to one file, over the blocks that the file has.

A file is its data blocks in order, the indirect block, `0` where there is none, and its
bytes.  It takes its blocks from the free ones in a row (`File.grow`).  `Maps` says that an
inode leads to these blocks, and `Holds` that they have the bytes besides.  One turn of the
loop keeps `Holds` for the file with more bytes (`holds_put`), and so does the loop
(`appendLoop_spec`); no block but those of the file changes.
-/

namespace V6User
namespace Mkfs

open Shell (Byte)
open Bytes

/-- A file: its data blocks, its indirect block and its bytes. -/
structure File where
  data : List ℕ
  ind : ℕ
  bytes : List Byte

namespace File

/-- The blocks of a file. -/
def blocks (f : File) : List ℕ := f.data ++ if f.ind = 0 then [] else [f.ind]

/-- One more data block, the blocks being taken from `next` on, with the next free one. -/
def grow (f : File) (next : ℕ) : File × ℕ :=
  if f.data.length < ndirect then ({ f with data := f.data ++ [next] }, next + 1)
  else if f.ind = 0 then ({ f with data := f.data ++ [next + 1], ind := next }, next + 2)
  else ({ f with data := f.data ++ [next] }, next + 1)

/-- The blocks are different, they lie between two bounds, and there is an indirect block
where there are too many for the inode. -/
structure Ok (f : File) (lo hi : ℕ) : Prop where
  pos : 0 < lo
  ind : f.ind = 0 ↔ f.data.length ≤ ndirect
  range : ∀ b ∈ f.blocks, lo ≤ b ∧ b < hi
  nodup : f.blocks.Nodup

end File

/-- How many blocks a file with so many data blocks has. -/
def blockCount (n : ℕ) : ℕ := n + if n ≤ ndirect then 0 else 1

section Grow

variable {f : File} {lo hi next : ℕ}

theorem File.Ok.length_blocks (h : f.Ok lo hi) : f.blocks.length = blockCount f.data.length := by
  rw [File.blocks, blockCount, List.length_append]
  by_cases hind : f.ind = 0
  · rw [if_pos hind, if_pos (h.ind.1 hind)]
    rfl
  · rw [if_neg hind, if_neg (mt h.ind.2 hind)]
    rfl

theorem perm_snoc (l r : List ℕ) (x : ℕ) : (l ++ [x] ++ r).Perm (x :: (l ++ r)) := by
  rw [List.append_assoc]
  exact List.perm_middle

/-- The blocks that a file takes are the next free ones. -/
theorem File.grow_blocks (f : File) (hnext : 0 < next) : ((f.grow next).1.blocks).Perm
    (List.range' next ((f.grow next).2 - next) ++ f.blocks) := by
  unfold File.grow
  split_ifs with hdirect hind
  · rw [Nat.add_sub_cancel_left]
    exact perm_snoc _ _ _
  · rw [Nat.add_sub_cancel_left, File.blocks, File.blocks, if_pos hind, if_neg (Nat.ne_of_gt hnext),
      List.append_nil]
    exact (List.perm_append_singleton next _).trans
      ((List.perm_append_singleton (next + 1) f.data).cons next)
  · rw [Nat.add_sub_cancel_left]
    exact perm_snoc _ _ _

theorem File.le_grow (f : File) (next : ℕ) : next < (f.grow next).2 ∧ (f.grow next).2 ≤ next + 2 := by
  unfold File.grow
  split_ifs <;> constructor <;> dsimp only <;> omega

/-- A file that grows stays well formed. -/
theorem File.Ok.grow (h : f.Ok lo next) (hlo : lo ≤ next) :
    (f.grow next).1.Ok lo (f.grow next).2 := by
  have hpos := h.pos
  have hperm := f.grow_blocks (show 0 < next by omega)
  obtain ⟨hlt, hle⟩ := f.le_grow next
  refine ⟨hpos, ?_, ?_, ?_⟩
  · have hind := h.ind
    unfold File.grow
    split_ifs with hdirect hzero
    · dsimp only
      rw [hind, List.length_append, List.length_singleton]
      omega
    · dsimp only
      rw [List.length_append, List.length_singleton]
      omega
    · dsimp only
      rw [hind, List.length_append, List.length_singleton]
      rw [hind] at hzero
      omega
  · intro b hb
    rcases List.mem_append.1 (hperm.mem_iff.1 hb) with hb | hb
    · rw [List.mem_range'_1] at hb
      omega
    · obtain ⟨hblo, hbhi⟩ := h.range b hb
      omega
  · rw [hperm.nodup_iff, List.nodup_append]
    refine ⟨List.nodup_range', h.nodup, ?_⟩
    rintro a ha b hb rfl
    rw [List.mem_range'_1] at ha
    obtain ⟨-, hbhi⟩ := h.range a hb
    omega

end Grow

/-! ### From the inode to the blocks -/

/-- The inode leads to the blocks of the file, and has no others. -/
structure Maps (disk : Disk) (din : Dinode) (f : File) : Prop where
  direct : ∀ k, k < ndirect → din.addr k = f.data.getD k 0
  indirect : din.addr ndirect = f.ind
  words : f.ind ≠ 0 → ∀ k, k < nindirect → load 4 (disk f.ind) (4 * k) = f.data.getD (ndirect + k) 0

/-- The blocks from `lo` to `hi` read as zero. -/
def Zero (disk : Disk) (lo hi : ℕ) : Prop :=
  ∀ b, lo ≤ b → b < hi → ∀ o, o < bsize → disk b o = 0

/-- The file that has block `fbn`. -/
def File.reach (f : File) (fbn next : ℕ) : File × ℕ :=
  if f.data.length ≤ fbn then f.grow next else (f, next)

theorem getD_snoc (l : List ℕ) (x k : ℕ) :
    (l ++ [x]).getD k 0 = if k = l.length then x else l.getD k 0 := by
  rw [List.getD_eq_getElem?_getD, List.getElem?_append, List.getD_eq_getElem?_getD]
  split_ifs with hlt heq heq
  · omega
  · rfl
  · rw [heq, Nat.sub_self]
    rfl
  · rw [List.getElem?_eq_none (by simp; omega), List.getElem?_eq_none (by omega)]

section DataBlock

variable {c : Cursor} {f : File} {lo hi limit fbn : ℕ}

/-- A data block of the file. -/
theorem File.Ok.getD_pos (h : f.Ok lo hi) (hfbn : fbn < f.data.length) : f.data.getD fbn 0 ≠ 0 := by
  have hget : f.data.getD fbn 0 = f.data[fbn] := by
    rw [List.getD_eq_getElem?_getD, List.getElem?_eq_getElem hfbn]
    rfl
  have hmem : f.data.getD fbn 0 ∈ f.blocks := by
    rw [hget]
    exact List.mem_append_left _ (List.getElem_mem hfbn)
  have := h.range _ hmem
  have := h.pos
  omega

theorem getD_length_le {α : Type} {l : List α} {k : ℕ} {d : α} (h : l.length ≤ k) :
    l.getD k d = d := by
  rw [List.getD_eq_getElem?_getD, List.getElem?_eq_none h]
  rfl

theorem succ_eq {x : ℕ} (h : x + 1 < 2 ^ 32) : succ x = x + 1 := Nat.mod_eq_of_lt h

/-- A block that the inode or the indirect block has already. -/
theorem dataBlock_old (hm : Maps c.disk c.din f) (hok : f.Ok lo hi) (hmax : fbn < maxfile)
    (hfbn : fbn < f.data.length) : c.dataBlock fbn = (c, f.data.getD fbn 0) := by
  have hpos := hok.getD_pos hfbn
  unfold Cursor.dataBlock
  by_cases hdirect : fbn < ndirect
  · rw [if_pos hdirect, hm.direct fbn hdirect, if_neg hpos]
    dsimp only
    rw [hm.direct fbn hdirect]
  · have hind : f.ind ≠ 0 := by
      rw [ne_eq, hok.ind]
      omega
    have hword : load 4 (c.disk f.ind) (4 * (fbn - ndirect)) = f.data.getD fbn 0 := by
      rw [hm.words hind (fbn - ndirect) (by unfold maxfile at hmax; omega)]
      congr 1
      omega
    rw [if_neg hdirect, hm.indirect, if_neg hind]
    dsimp only
    rw [hm.indirect, hword, if_neg hpos]

/-- A new block that the inode leads to. -/
theorem dataBlock_direct (hm : Maps c.disk c.din f) (hok : f.Ok lo hi)
    (hlt : c.freeblock + 1 < 2 ^ 32) (hlen : f.data.length = fbn) (hdirect : fbn < ndirect) :
    c.dataBlock fbn = ({ c with
        din := c.din.setAddr fbn c.freeblock
        freeblock := c.freeblock + 1 }, c.freeblock) ∧
      Maps c.disk (c.din.setAddr fbn c.freeblock) { f with data := f.data ++ [c.freeblock] } := by
  have hind : f.ind = 0 := hok.ind.2 (by omega)
  constructor
  · unfold Cursor.dataBlock
    rw [if_pos hdirect, hm.direct fbn hdirect, getD_length_le (Nat.le_of_eq hlen), if_pos rfl,
      succ_eq hlt]
    dsimp only
    rw [Dinode.addr_setAddr_self (by omega)]
  · refine ⟨fun k hk => ?_, ?_, fun hne => absurd hind hne⟩
    · dsimp only
      rw [getD_snoc, hlen]
      split_ifs with heq
      · rw [heq, Dinode.addr_setAddr_self (by omega)]
      · rw [Dinode.addr_setAddr_of_ne heq, hm.direct k hk]
    · rw [Dinode.addr_setAddr_of_ne (by omega), hm.indirect]

/-- A new block that the indirect block leads to. -/
theorem dataBlock_indirect (hm : Maps c.disk c.din f) (hok : f.Ok lo hi)
    (hlt : c.freeblock + 1 < 2 ^ 32) (hlen : f.data.length = fbn) (hmax : fbn < maxfile)
    (hind : f.ind ≠ 0) :
    c.dataBlock fbn = ({ c with
        disk := Function.update c.disk f.ind
          (store 4 (c.disk f.ind) (4 * (fbn - ndirect)) c.freeblock)
        freeblock := c.freeblock + 1 }, c.freeblock) ∧
      Maps (Function.update c.disk f.ind
          (store 4 (c.disk f.ind) (4 * (fbn - ndirect)) c.freeblock)) c.din
        { f with data := f.data ++ [c.freeblock] } := by
  have hfar : ¬fbn ≤ ndirect := by
    rw [← hlen, ← hok.ind]
    exact hind
  have hword : load 4 (c.disk f.ind) (4 * (fbn - ndirect)) = 0 := by
    rw [hm.words hind (fbn - ndirect) (by unfold maxfile at hmax; omega)]
    exact getD_length_le (by omega)
  constructor
  · unfold Cursor.dataBlock
    rw [if_neg (by omega), hm.indirect, if_neg hind]
    dsimp only
    rw [hm.indirect, hword, if_pos rfl, load_store_self (by omega), succ_eq hlt]
  · refine ⟨fun k hk => ?_, hm.indirect, fun _ k hk => ?_⟩
    · dsimp only
      rw [getD_snoc, if_neg (by omega), hm.direct k hk]
    · dsimp only
      rw [getD_snoc, Function.update_self]
      split_ifs with heq
      · rw [show k = fbn - ndirect by omega, load_store_self (by omega)]
      · rw [load_store_of_disjoint (by omega), hm.words hind k hk]

/-- The first block that an indirect block leads to, which is new as well. -/
theorem dataBlock_first (hm : Maps c.disk c.din f) (hok : f.Ok lo hi)
    (hzero : ∀ o, o < bsize → c.disk c.freeblock o = 0) (hlt : c.freeblock + 2 < 2 ^ 32)
    (hpos : 0 < c.freeblock) (hlen : f.data.length = fbn) (hdirect : ¬fbn < ndirect)
    (hind : f.ind = 0) :
    c.dataBlock fbn = ({ c with
        disk := Function.update c.disk c.freeblock
          (store 4 (c.disk c.freeblock) 0 (c.freeblock + 1))
        din := c.din.setAddr ndirect c.freeblock
        freeblock := c.freeblock + 2 }, c.freeblock + 1) ∧
      Maps (Function.update c.disk c.freeblock
          (store 4 (c.disk c.freeblock) 0 (c.freeblock + 1))) (c.din.setAddr ndirect c.freeblock)
        { f with data := f.data ++ [c.freeblock + 1], ind := c.freeblock } := by
  have hfbn : fbn = ndirect := by
    have := hok.ind.1 hind
    omega
  have hword : ∀ o, o + 4 ≤ bsize → load 4 (c.disk c.freeblock) o = 0 := fun o ho =>
    load_of_zero fun j _ hj => hzero j (by omega)
  constructor
  · unfold Cursor.dataBlock
    rw [if_neg hdirect, hm.indirect, hind, if_pos rfl, succ_eq (by omega)]
    dsimp only
    rw [Dinode.addr_setAddr_self (by omega), hfbn, Nat.sub_self, hword _ (by decide), if_pos rfl,
      load_store_self (by omega), succ_eq (by omega)]
  · refine ⟨fun k hk => ?_, ?_, fun _ k hk => ?_⟩
    · dsimp only
      rw [getD_snoc, if_neg (by omega), Dinode.addr_setAddr_of_ne (by omega), hm.direct k hk]
    · exact Dinode.addr_setAddr_self (by omega)
    · dsimp only
      rw [getD_snoc, Function.update_self]
      split_ifs with heq
      · rw [show k = 0 by omega, load_store_self (by omega)]
      · rw [load_store_of_disjoint (by omega), hword _ (by unfold nindirect at hk; unfold bsize; omega),
          getD_length_le (by omega)]

/-- **The block for the bytes at `fbn`** is that of the file, which has grown if it was at
its end; only the indirect block changes. -/
theorem dataBlock_spec (hm : Maps c.disk c.din f) (hok : f.Ok lo c.freeblock)
    (hlo : lo ≤ c.freeblock) (hzero : Zero c.disk c.freeblock limit) (hlimit : limit < 2 ^ 32)
    (hroom : (f.reach fbn c.freeblock).2 ≤ limit) (hmax : fbn < maxfile)
    (hfbn : f.data.length = fbn ∨ f.data.length = fbn + 1) :
    (c.dataBlock fbn).1.freeblock = (f.reach fbn c.freeblock).2 ∧
      (c.dataBlock fbn).1.off = c.off ∧
      (c.dataBlock fbn).2 = (f.reach fbn c.freeblock).1.data.getD fbn 0 ∧
      Maps (c.dataBlock fbn).1.disk (c.dataBlock fbn).1.din (f.reach fbn c.freeblock).1 ∧
      ∀ b, (f.reach fbn c.freeblock).1.ind = 0 ∨ b ≠ (f.reach fbn c.freeblock).1.ind →
        (c.dataBlock fbn).1.disk b = c.disk b := by
  have hpos := hok.pos
  unfold File.reach at hroom ⊢
  rcases hfbn with hlen | hlen
  · rw [if_pos (Nat.le_of_eq hlen)] at hroom ⊢
    unfold File.grow at hroom ⊢
    by_cases hdirect : fbn < ndirect
    · rw [if_pos (by omega)] at hroom ⊢
      dsimp only at hroom
      obtain ⟨heq, hmaps⟩ := dataBlock_direct hm hok (by omega) hlen hdirect
      rw [heq]
      refine ⟨rfl, rfl, ?_, hmaps, fun _ _ => rfl⟩
      dsimp only
      rw [getD_snoc, if_pos hlen.symm]
    · rw [if_neg (by omega)] at hroom ⊢
      by_cases hind : f.ind = 0
      · rw [if_pos hind] at hroom ⊢
        dsimp only at hroom
        obtain ⟨heq, hmaps⟩ := dataBlock_first hm hok (hzero c.freeblock (by omega) (by omega))
          (by omega) (by omega) hlen hdirect hind
        rw [heq]
        refine ⟨rfl, rfl, ?_, hmaps, fun b hb => Function.update_of_ne ?_ _ _⟩
        · dsimp only
          rw [getD_snoc, if_pos hlen.symm]
        · exact hb.resolve_left (show c.freeblock ≠ 0 by omega)
      · rw [if_neg hind] at hroom ⊢
        dsimp only at hroom
        obtain ⟨heq, hmaps⟩ := dataBlock_indirect hm hok (by omega) hlen hmax hind
        rw [heq]
        refine ⟨rfl, rfl, ?_, hmaps, fun b hb =>
          Function.update_of_ne (hb.resolve_left hind) _ _⟩
        dsimp only
        rw [getD_snoc, if_pos hlen.symm]
  · rw [if_neg (by omega), dataBlock_old hm hok hmax (by omega)]
    exact ⟨rfl, rfl, rfl, hm, fun _ _ => rfl⟩

/-- What stands before the size in the inode stays. -/
theorem head_dataBlock {o : ℕ} (ho : o < 8) : (c.dataBlock fbn).1.din.mem o = c.din.mem o := by
  have hset : ∀ (din : Dinode) k x, (din.setAddr k x).mem o = din.mem o :=
    fun din k x => store_of_outside (by omega)
  unfold Cursor.dataBlock
  dsimp only
  split_ifs <;> simp only [hset]

end DataBlock

/-! ### The bytes -/

/-- How many data blocks so many bytes take. -/
def dataCount (n : ℕ) : ℕ := (n + (bsize - 1)) / bsize

/-- The cursor is at the end of a file, whose blocks have its bytes and zeros after them; the
free blocks read as zero. -/
structure Holds (lo limit : ℕ) (c : Cursor) (f : File) : Prop where
  maps : Maps c.disk c.din f
  ok : f.Ok lo c.freeblock
  le : lo ≤ c.freeblock
  zero : Zero c.disk c.freeblock limit
  off : c.off = f.bytes.length
  count : f.data.length = dataCount f.bytes.length
  content : ∀ pos, pos / bsize < f.data.length →
    c.disk (f.data.getD (pos / bsize) 0) (pos % bsize) = f.bytes.getD pos 0

section Put

variable {c : Cursor} {f : File} {lo hi limit next fbn i j : ℕ} {p : List Byte}

theorem File.Ok.data_inj (h : f.Ok lo hi) (hi' : i < f.data.length) (hj : j < f.data.length)
    (heq : f.data.getD i 0 = f.data.getD j 0) : i = j := by
  have hnodup : f.data.Nodup := (List.nodup_append.1 h.nodup).1
  rw [List.getD_eq_getElem?_getD, List.getD_eq_getElem?_getD, List.getElem?_eq_getElem hi',
    List.getElem?_eq_getElem hj] at heq
  exact (List.Nodup.getElem_inj_iff hnodup).1 heq

theorem File.Ok.data_mem (hi' : i < f.data.length) : f.data.getD i 0 ∈ f.data := by
  rw [List.getD_eq_getElem?_getD, List.getElem?_eq_getElem hi']
  exact List.getElem_mem hi'

theorem File.Ok.data_ne_ind (h : f.Ok lo hi) (hi' : i < f.data.length) :
    f.data.getD i 0 ≠ f.ind := by
  by_cases hind : f.ind = 0
  · rw [hind]
    exact h.getD_pos hi'
  · refine (List.nodup_append.1 h.nodup).2.2 _ (File.Ok.data_mem hi') _ ?_
    rw [if_neg hind]
    exact List.mem_singleton_self _

theorem File.reach_length (next : ℕ) (hfbn : f.data.length = fbn ∨ f.data.length = fbn + 1) :
    (f.reach fbn next).1.data.length = fbn + 1 := by
  unfold File.reach File.grow
  split_ifs <;> dsimp only <;> try rw [List.length_append, List.length_singleton]
  all_goals omega

theorem File.reach_getD (hi' : i < f.data.length) :
    (f.reach fbn next).1.data.getD i 0 = f.data.getD i 0 := by
  unfold File.reach File.grow
  split_ifs <;> dsimp only
  · rw [getD_snoc, if_neg (by omega)]
  · rw [getD_snoc, if_neg (by omega)]
  · rw [getD_snoc, if_neg (by omega)]

/-- A block that the file has got lies among the free ones. -/
theorem File.le_reach_getD (hlen : f.data.length = fbn) :
    next ≤ (f.reach fbn next).1.data.getD fbn 0 := by
  unfold File.reach File.grow
  split_ifs <;> dsimp only
  · rw [getD_snoc, if_pos hlen.symm]
  · rw [getD_snoc, if_pos hlen.symm]
    omega
  · rw [getD_snoc, if_pos hlen.symm]
  · omega

theorem File.Ok.reach (fbn : ℕ) (h : f.Ok lo next) (hlo : lo ≤ next) :
    (f.reach fbn next).1.Ok lo (f.reach fbn next).2 ∧ next ≤ (f.reach fbn next).2 ∧
      ((f.reach fbn next).1.blocks).Perm
        (List.range' next ((f.reach fbn next).2 - next) ++ f.blocks) := by
  have hpos := h.pos
  unfold File.reach
  split_ifs
  · exact ⟨h.grow hlo, (f.le_grow next).1.le, f.grow_blocks (by omega)⟩
  · refine ⟨h, Nat.le_refl _, ?_⟩
    dsimp only
    rw [Nat.sub_self]
    exact List.Perm.refl _

theorem getD_append (l r : List Byte) (k : ℕ) :
    (l ++ r).getD k 0 = if k < l.length then l.getD k 0 else r.getD (k - l.length) 0 := by
  rw [List.getD_eq_getElem?_getD, List.getElem?_append]
  split_ifs <;> rfl

/-- Where the cursor stands, the file has its last block or none yet. -/
theorem Holds.length_data (h : Holds lo limit c f) :
    f.data.length = c.off / bsize ∨ f.data.length = c.off / bsize + 1 := by
  have hcount := h.count
  rw [← h.off] at hcount
  unfold dataCount bsize at hcount
  unfold bsize
  omega

/-- **One turn of the loop**: the file has more bytes, and no block but its own changes. -/
theorem holds_put (p : List Byte) (h : Holds lo limit c f) (hlimit : limit < 2 ^ 32)
    (hroom : (f.reach (c.off / bsize) c.freeblock).2 ≤ limit) (hmax : c.off / bsize < maxfile)
    (hp : 0 < p.length) :
    Holds lo limit (c.put p) { (f.reach (c.off / bsize) c.freeblock).1 with
        bytes := f.bytes ++ p.take ((c.off / bsize + 1) * bsize - c.off) } ∧
      (c.put p).freeblock = (f.reach (c.off / bsize) c.freeblock).2 ∧
      (∀ o, o < 8 → (c.put p).din.mem o = c.din.mem o) ∧
      ∀ b, b ∉ (f.reach (c.off / bsize) c.freeblock).1.blocks → (c.put p).disk b = c.disk b := by
  set fbn := c.off / bsize with hfbn
  have hlen := h.length_data
  obtain ⟨hfree, hoff, hx, hmaps, hframe⟩ := dataBlock_spec h.maps h.ok h.le h.zero hlimit hroom
    hmax hlen
  obtain ⟨hok, hle, hperm⟩ := File.Ok.reach fbn h.ok h.le
  have hcount : (f.reach fbn c.freeblock).1.data.length = fbn + 1 := File.reach_length _ hlen
  have hlast : fbn < (f.reach fbn c.freeblock).1.data.length := by omega
  set f' := (f.reach fbn c.freeblock).1 with hf'
  set next := (f.reach fbn c.freeblock).2 with hnext
  set r := c.dataBlock fbn with hr
  set n1 := min ((fbn + 1) * bsize - c.off) p.length with hn1
  set x := f'.data.getD fbn 0 with hxdef
  have hxind : x ≠ f'.ind := hok.data_ne_ind hlast
  have hxmem : x ∈ f'.blocks := List.mem_append_left _ (File.Ok.data_mem hlast)
  have hxlt : x < next := (hok.range x hxmem).2
  have hdisk : (c.put p).disk = Function.update r.1.disk x
      (copy (r.1.disk x) (c.off - fbn * bsize) (fun j => p.getD j 0) n1) := by
    unfold Cursor.put
    dsimp only
    rw [← hfbn, ← hr, hx]
  have hput : (c.put p).din = r.1.din ∧ (c.put p).freeblock = r.1.freeblock ∧
      (c.put p).off = c.off + n1 := ⟨rfl, rfl, rfl⟩
  have htake : (p.take ((fbn + 1) * bsize - c.off)).length = n1 := List.length_take
  have hother : ∀ b, b ∉ f'.blocks → (c.put p).disk b = c.disk b := by
    intro b hb
    have hbx : b ≠ x := by
      rintro rfl
      exact hb hxmem
    rw [hdisk, Function.update_of_ne hbx]
    refine hframe b ?_
    by_cases hind : f'.ind = 0
    · exact .inl hind
    · refine .inr ?_
      rintro rfl
      refine hb (List.mem_append_right _ ?_)
      rw [if_neg hind]
      exact List.mem_singleton_self _
  refine ⟨⟨?_, ?_, ?_, ?_, ?_, ?_, ?_⟩, hput.2.1.trans hfree, ?_, hother⟩
  · refine ⟨hmaps.direct, hmaps.indirect, fun hind k hk => ?_⟩
    rw [hdisk, Function.update_of_ne hxind.symm]
    exact hmaps.words hind k hk
  · rw [hput.2.1, hfree]
    exact ⟨hok.pos, hok.ind, hok.range, hok.nodup⟩
  · rw [hput.2.1, hfree]
    exact h.le.trans hle
  · intro b hb hb' o ho
    rw [hput.2.1, hfree] at hb
    rw [hother b fun hmem => absurd (hok.range b hmem).2 (Nat.not_lt.2 hb)]
    exact h.zero b (hle.trans hb) hb' o ho
  · rw [hput.2.2, List.length_append, htake, h.off]
  · rw [List.length_append, htake, ← h.off]
    refine hcount.trans ?_
    unfold dataCount bsize at *
    omega
  · intro pos hdiv
    dsimp only at hdiv ⊢
    rw [hcount] at hdiv
    rw [hdisk, getD_append, ← h.off]
    by_cases hblock : pos / bsize = fbn
    · rw [hblock, ← hxdef, Function.update_self]
      -- what the block had before, outside the new bytes
      have hold : c.disk x (pos % bsize) = f.bytes.getD pos 0 := by
        rcases hlen with hlen | hlen
        · have hnew : c.freeblock ≤ x := by
            rw [hxdef, hf']
            exact File.le_reach_getD hlen
          have hend : c.off ≤ pos := by
            have hfull := h.count
            rw [← h.off] at hfull
            unfold dataCount bsize at *
            omega
          rw [h.zero x hnew (by omega) _ (Nat.mod_lt _ (by decide)),
            getD_length_le (h.off ▸ hend)]
        · have hsame : f.data.getD (pos / bsize) 0 = x := by
            rw [hxdef, hf', ← hblock, File.reach_getD (by omega)]
          rw [← h.content pos (by omega), hsame]
      by_cases hbefore : pos < c.off
      · rw [if_pos hbefore, copy_of_outside (.inl (by unfold bsize at *; omega)),
          hframe x (.inr hxind), hold]
      · rw [if_neg hbefore]
        by_cases hin : pos - c.off < n1
        · rw [copy_of_inside (by unfold bsize at *; omega) (by unfold bsize at *; omega)]
          have hpos' : pos - c.off < (fbn + 1) * bsize - c.off := by omega
          rw [List.getD_eq_getElem?_getD, List.getD_eq_getElem?_getD,
            List.getElem?_take_of_lt hpos']
          congr 2
          unfold bsize at *
          omega
        · rw [copy_of_outside (.inr (by unfold bsize at *; omega)), hframe x (.inr hxind), hold,
            getD_length_le (by rw [← h.off]; omega), getD_length_le (by rw [htake]; omega)]
    · have hold : pos < c.off := by
        unfold bsize at *
        omega
      have hin : pos / bsize < f.data.length := by
        rw [h.count, ← h.off]
        unfold dataCount bsize
        omega
      have hlt : pos / bsize < f'.data.length := by omega
      have hy : f'.data.getD (pos / bsize) 0 ≠ x := fun heq => hblock (hok.data_inj hlt hlast heq)
      rw [if_pos hold, Function.update_of_ne hy, hframe _ (.inr (hok.data_ne_ind hlt)), hf',
        File.reach_getD hin, h.content pos hin]
  · exact fun o ho => head_dataBlock ho

theorem blockCount_mono {m n : ℕ} (h : m ≤ n) : blockCount m ≤ blockCount n := by
  unfold blockCount
  split_ifs <;> omega

theorem range'_split {a b c : ℕ} (hab : a ≤ b) (hbc : b ≤ c) :
    List.range' a (c - a) = List.range' a (b - a) ++ List.range' b (c - b) := by
  obtain ⟨k, rfl⟩ := Nat.exists_eq_add_of_le hab
  obtain ⟨m, rfl⟩ := Nat.exists_eq_add_of_le hbc
  rw [Nat.add_sub_cancel_left, Nat.add_sub_cancel_left, List.range'_append_1]
  congr 1
  omega

/-- **The loop of `iappend`** adds its bytes to the file. -/
theorem appendLoop_spec (hlimit : limit < 2 ^ 32) (p : List Byte) (h : Holds lo limit c f)
    (hmax : f.bytes.length + p.length ≤ maxfile * bsize)
    (hroom : c.freeblock + blockCount (dataCount (f.bytes.length + p.length)) ≤
      limit + f.blocks.length) :
    ∃ c' f', appendLoop c p = some c' ∧ Holds lo limit c' f' ∧ f'.bytes = f.bytes ++ p ∧
      c.freeblock ≤ c'.freeblock ∧
      (f'.blocks).Perm (List.range' c.freeblock (c'.freeblock - c.freeblock) ++ f.blocks) ∧
      (∀ o, o < 8 → c'.din.mem o = c.din.mem o) ∧
      ∀ b, b ∉ f'.blocks → c'.disk b = c.disk b := by
  induction hn : p.length using Nat.strongRecOn generalizing c f p with
  | ind n ih =>
    by_cases hnil : p = []
    · subst hnil
      refine ⟨c, f, ?_, h, (List.append_nil _).symm, Nat.le_refl _, ?_, fun _ _ => rfl,
        fun _ _ => rfl⟩
      · rw [appendLoop]
        exact dif_pos rfl
      · rw [Nat.sub_self]
        exact List.Perm.refl _
    · have hp : 0 < p.length := List.length_pos_iff.2 hnil
      have hoff := h.off
      have hfits : c.off / bsize < maxfile := by
        unfold bsize at *
        omega
      obtain ⟨hok, hle, hperm⟩ := File.Ok.reach (c.off / bsize) h.ok h.le
      have hcount := File.reach_length c.freeblock h.length_data
      have hlen := hperm.length_eq
      rw [List.length_append, List.length_range', hok.length_blocks, hcount] at hlen
      have hstep : (f.reach (c.off / bsize) c.freeblock).2 ≤ limit := by
        have hmono : blockCount (c.off / bsize + 1) ≤
            blockCount (dataCount (f.bytes.length + p.length)) := by
          refine blockCount_mono ?_
          unfold dataCount bsize at *
          omega
        omega
      obtain ⟨hholds, hfree, hhead, hframe⟩ := holds_put p h hlimit hstep hfits hp
      obtain ⟨n1, hn1⟩ : ∃ n1, n1 = (c.off / bsize + 1) * bsize - c.off := ⟨_, rfl⟩
      have hpos : 0 < n1 := by
        unfold bsize at hn1
        omega
      have hdrop : p.drop (min n1 p.length) = p.drop n1 := by
        rcases Nat.le_total n1 p.length with hcase | hcase
        · rw [Nat.min_eq_left hcase]
        · rw [Nat.min_eq_right hcase, List.drop_length, List.drop_of_length_le hcase]
      rw [← hn1] at hholds
      have hsum : (p.take n1).length + (p.drop n1).length = p.length := by
        rw [← List.length_append, List.take_append_drop]
      have hrest : (p.drop n1).length < n := by
        rw [List.length_drop]
        omega
      obtain ⟨c', f', hloop, hc', hbytes, hle', hperm', hhead', hframe'⟩ := ih _ hrest (p.drop n1)
        hholds (by dsimp only; rw [List.length_append]; omega) (by
          have hblocks : (File.blocks { (f.reach (c.off / bsize) c.freeblock).1 with
              bytes := f.bytes ++ p.take n1 }).length =
                (f.reach (c.off / bsize) c.freeblock).1.blocks.length := rfl
          dsimp only at hblocks ⊢
          rw [hblocks, hfree, List.length_append, Nat.add_assoc, hsum, hok.length_blocks, hcount]
          omega) rfl
      have hsame : (File.blocks { (f.reach (c.off / bsize) c.freeblock).1 with
          bytes := f.bytes ++ p.take n1 }) = (f.reach (c.off / bsize) c.freeblock).1.blocks := rfl
      rw [hsame] at hperm'
      rw [hfree] at hle' hperm'
      refine ⟨c', f', ?_, hc', ?_, by omega, ?_,
        fun o ho => (hhead' o ho).trans (hhead o ho), ?_⟩
      · rw [appendLoop, dif_neg hnil, if_neg (by omega), ← hn1, hdrop]
        exact hloop
      · rw [hbytes]
        dsimp only
        rw [List.append_assoc, List.take_append_drop]
      · have hrange : List.range' c.freeblock (c'.freeblock - c.freeblock) =
            List.range' c.freeblock ((f.reach (c.off / bsize) c.freeblock).2 - c.freeblock) ++
              List.range' (f.reach (c.off / bsize) c.freeblock).2
                (c'.freeblock - (f.reach (c.off / bsize) c.freeblock).2) := range'_split hle hle'
        rw [hrange]
        refine hperm'.trans ?_
        refine (hperm.append_left _).trans ?_
        rw [← List.append_assoc]
        exact List.perm_append_comm.append_right _
      · intro b hb
        rw [hframe' b hb]
        refine hframe b fun hmem => hb ?_
        exact hperm'.mem_iff.2 (List.mem_append_right _ hmem)

end Put

end Mkfs
end V6User
