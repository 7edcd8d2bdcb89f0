import V6User.Mkfs.Bitmap
import V6User.Mkfs.Calls
import V6User.Mkfs.Sectors

/-!
# The image that `mkfs_xv6fs` writes

`programs/mkfs_xv6fs/mkfs_xv6fs.c`: `main`, and `atoi` of `lib/ulib.c`.

`ImageOk` reads the superblock back from the image and says what it promises: the regions
follow one another, every inode and every bit has its place, a bit is set exactly where the
block is in use, and the root directory is there.  `makeRoot_spec` is the root directory, by
the rules for `ialloc` and `iappend`, and `mkfs_spec` the whole image.  It is all of `ImageOk`
up to 2³¹ blocks (`Written.imageOk`); beyond them `balloc` would count in numbers that are
negative, but no sector from 2²¹ on can be sought (`mkfs_imageOk`).
-/

namespace V6User
namespace Mkfs

open Shell (Byte)
open Bytes
open CInt Tools

/-- `FSMAGIC`. -/
def fsmagic : ℕ := 0x10203040

/-- `ROOTINO`. -/
def rootino : ℕ := 1

/-- `XV6_T_DIR`. -/
def xv6TDir : ℕ := 1

/-- `DEFAULT_LOGSIZE`. -/
def defaultLogsize : ℕ := 240

/-- `DEFAULT_NINODES`. -/
def defaultNinodes : ℕ := 200

/-- `MIN_FSSIZE`. -/
def minFssize : ℕ := 100

/-- `sizeof(struct xv6_dirent)`. -/
def direntSize : ℕ := 16

/-- `struct superblock`. -/
structure Superblock where
  magic : ℕ
  size : ℕ
  nblocks : ℕ
  ninodes : ℕ
  nlog : ℕ
  logstart : ℕ
  inodestart : ℕ
  bmapstart : ℕ

/-- Its words, in their order in memory. -/
def Superblock.words (sb : Superblock) : List ℕ :=
  [sb.magic, sb.size, sb.nblocks, sb.ninodes, sb.nlog, sb.logstart, sb.inodestart, sb.bmapstart]

/-- Its bytes. -/
def Superblock.mem (sb : Superblock) : Mem := fun j =>
  .ofNat (sb.words.getD (j / 4) 0 / 256 ^ (j % 4))

section Layout

variable (fssize userNinodes : ℕ)

/-- The numbers of the layout, which are `int`. -/
def nlog : ℤ := int32 defaultLogsize
def ninodeblocks : ℤ := int32 ((userNinodes / ipb + 1 : ℕ) : ℤ)
def nbitmap : ℤ := int32 (uint32 ((fssize / bpb + 1 : ℕ) : ℤ) : ℤ)
def nmeta : ℤ := int32 (2 + nlog + ninodeblocks userNinodes + nbitmap fssize)
def nblocks : ℤ := int32 (uint32 ((fssize : ℤ) - nmeta fssize userNinodes) : ℤ)

/-- The superblock that is filled in. -/
def superblock : Superblock where
  magic := fsmagic
  size := fssize
  nblocks := uint32 (nblocks fssize userNinodes)
  ninodes := userNinodes
  nlog := uint32 nlog
  logstart := 2
  inodestart := uint32 (2 + nlog)
  bmapstart := uint32 (2 + nlog + ninodeblocks userNinodes)

end Layout

/-- The superblock is written to block 1. -/
def writeSuperblock (sb : Superblock) (disk : Disk) : Disk :=
  Function.update disk 1 (copy (fun _ => 0) 0 sb.mem 32)

/-- `struct xv6_dirent` with a number and a name. -/
def dirent (inum : ℕ) (name : List Byte) : List Byte :=
  (List.range direntSize).map
    (copy (store 2 (fun _ => 0) 0 inum) 2 (fun j => name.getD j 0) (name.length + 1))

/-- The root directory: its inode, its link count, its entries and its size. -/
def makeRoot (sys : ℤ → ℤ) (inodestart : ℕ) (img : Image) : Option Image := do
  transfer sys (winodeSectors inodestart img.freeinode)
  let r := ialloc inodestart img xv6TDir
  if r.1 ≠ rootino then none
  else
    transfer sys (rinodeSectors inodestart r.1 ++ winodeSectors inodestart r.1)
    let din := (rinode inodestart r.2.disk r.1).setNlink 2
    let img := { r.2 with disk := winode inodestart r.2.disk r.1 din }
    transfer sys (iappendSectors inodestart img r.1 (dirent r.1 [46]))
    let img ← iappend inodestart img r.1 (dirent r.1 [46])
    transfer sys (iappendSectors inodestart img r.1 (dirent r.1 [46, 46]))
    let img ← iappend inodestart img r.1 (dirent r.1 [46, 46])
    transfer sys (rinodeSectors inodestart r.1 ++ winodeSectors inodestart r.1)
    let din := rinode inodestart img.disk r.1
    let off := (din.size / bsize + 1) * bsize
    some { img with disk := winode inodestart img.disk r.1 (din.setSize off) }

/-- `main` from the layout on, on a device of any content: `none` is `exit(1)`.  The answers of
the kernel to the seeks are those of `sys`. -/
def mkfs (sys : ℤ → ℤ) (fssize userNinodes : ℕ) (disk : Disk) : Option Disk :=
  if fssize < minFssize then none
  else if userNinodes < 2 then none
  else if nblocks fssize userNinodes < 1 then none
  else do
    let sb := superblock fssize userNinodes
    transfer sys (List.range fssize)
    let disk := writeSectors fssize (fun i => i) (fun _ _ => 0) disk
    transfer sys [1]
    let disk := writeSuperblock sb disk
    let img ← makeRoot sys sb.inodestart ⟨disk, 1, uint32 (nmeta fssize userNinodes)⟩
    transfer sys ((List.range (nbitmap fssize).toNat).map fun b => (sb.bmapstart + b) % 2 ^ 32)
    some (balloc sb.bmapstart (nbitmap fssize) (int32 img.freeblock) img.disk)

/-- `atoi`, whose number is an `int`. -/
def atoi (n : ℤ) : List Byte → ℤ
  | [] => n
  | c :: s => if 48 ≤ c ∧ c ≤ 57 then atoi (int32 (n * 10 + (c.toNat - 48))) s else n

/-- `fssize`: the argument, or what `lseek` to the end of the device returns, which is the low
part of what the kernel answers. -/
def fssizeOf (deviceEnd : ℤ) : Option (List Byte) → Option ℕ
  | some arg => some (uint32 (atoi 0 arg))
  | none => if int32 deviceEnd ≤ 0 then none else some (uint32 (int32 deviceEnd / bsize))

/-- `user_ninodes`: the argument, or the default. -/
def userNinodesOf : Option (List Byte) → ℕ
  | some arg => uint32 (atoi 0 arg)
  | none => defaultNinodes

/-- `main` once the device is open, with its second and third arguments. -/
def main (sys : ℤ → ℤ) (deviceEnd : ℤ) (size ninodes : Option (List Byte)) (disk : Disk) :
    Option Disk :=
  (fssizeOf deviceEnd size).bind fun fssize => mkfs sys fssize (userNinodesOf ninodes) disk

/-- The checks that `main` makes. -/
def Accepts (fssize userNinodes : ℕ) : Prop :=
  minFssize ≤ fssize ∧ 2 ≤ userNinodes ∧ 1 ≤ nblocks fssize userNinodes

/-! ### What the image says of itself -/

/-- The superblock that is read from an image. -/
def readSuper (disk : Disk) : Superblock where
  magic := load 4 (disk 1) 0
  size := load 4 (disk 1) 4
  nblocks := load 4 (disk 1) 8
  ninodes := load 4 (disk 1) 12
  nlog := load 4 (disk 1) 16
  logstart := load 4 (disk 1) 20
  inodestart := load 4 (disk 1) 24
  bmapstart := load 4 (disk 1) 28

/-- Where the data blocks begin. -/
def Superblock.dataStart (sb : Superblock) : ℕ := sb.size - sb.nblocks

/-- `BBLOCK(b, sb)`. -/
def bblock (bmapstart b : ℕ) : ℕ := b / bpb + bmapstart

/-- The image is that of a file system of so many blocks and inodes: the log follows the
superblock, the inodes the log, the bitmap the inodes and the data blocks the bitmap, up to
the last block; a bit is set exactly for what lies before the data blocks and for what an
inode leads to; the root directory has its two entries and no others. -/
structure ImageOk (fssize userNinodes : ℕ) (disk : Disk) : Prop where
  magic : (readSuper disk).magic = fsmagic
  size : (readSuper disk).size = fssize
  ninodes : (readSuper disk).ninodes = userNinodes
  nblocks : 0 < (readSuper disk).nblocks ∧ (readSuper disk).nblocks ≤ fssize
  logstart : (readSuper disk).logstart = 2
  inodestart : (readSuper disk).inodestart = 2 + (readSuper disk).nlog
  inodes : ∀ i, i < userNinodes →
    (readSuper disk).inodestart ≤ iblock (readSuper disk).inodestart i ∧
      iblock (readSuper disk).inodestart i < (readSuper disk).bmapstart
  bitmap : ∀ b, b < fssize → bblock (readSuper disk).bmapstart b < (readSuper disk).dataStart
  bits : ∀ b, b < fssize →
    (bit (disk (bblock (readSuper disk).bmapstart b)) (b % bpb) = true ↔
      b < (readSuper disk).dataStart ∨
        ∃ i, i < userNinodes ∧ b ∈ fileBlocks (readSuper disk).inodestart disk i)
  rootType : (rinode (readSuper disk).inodestart disk rootino).type = xv6TDir
  rootNlink : (rinode (readSuper disk).inodestart disk rootino).nlink = 2
  rootSize : (rinode (readSuper disk).inodestart disk rootino).size = bsize
  rootBytes : fileBytes (readSuper disk).inodestart disk rootino =
    dirent rootino [46] ++ dirent rootino [46, 46] ++
      List.replicate (bsize - 2 * direntSize) 0

/-! ### The layout -/

/-- The number of blocks before the data blocks. -/
def metaCount (fssize userNinodes : ℕ) : ℕ :=
  2 + defaultLogsize + (userNinodes / ipb + 1) + (fssize / bpb + 1)

/-- The layout as numbers without a width. -/
structure LayoutIs (fssize userNinodes : ℕ) : Prop where
  nbitmap : nbitmap fssize = (fssize / bpb + 1 : ℕ)
  nmeta : nmeta fssize userNinodes = metaCount fssize userNinodes
  nblocks : (superblock fssize userNinodes).nblocks = fssize - metaCount fssize userNinodes
  nlog : (superblock fssize userNinodes).nlog = defaultLogsize
  inodestart : (superblock fssize userNinodes).inodestart = 2 + defaultLogsize
  bmapstart : (superblock fssize userNinodes).bmapstart =
    2 + defaultLogsize + (userNinodes / ipb + 1)
  below : metaCount fssize userNinodes < fssize
  small : metaCount fssize userNinodes < 2 ^ 29

section Accepted

variable {fssize userNinodes : ℕ}

/-- **Nothing wraps** in the layout that `main` accepts. -/
theorem Accepts.layoutIs (h : Accepts fssize userNinodes) (hf : fssize < 2 ^ 32)
    (hn : userNinodes < 2 ^ 32) : LayoutIs fssize userNinodes := by
  have hblocks := h.2.2
  have hlog : nlog = 240 := rfl
  have hinodes : ninodeblocks userNinodes = (userNinodes / ipb + 1 : ℕ) := by
    unfold ninodeblocks ipb bsize dinodeSize
    exact int32_of_range (by omega) (by omega)
  have hbitmap : nbitmap fssize = (fssize / bpb + 1 : ℕ) := by
    unfold nbitmap bpb bsize
    rw [int32_uint32]
    exact int32_of_range (by omega) (by omega)
  have hsmall : metaCount fssize userNinodes < 2 ^ 29 := by
    unfold metaCount defaultLogsize ipb bpb bsize dinodeSize
    omega
  have hmeta : nmeta fssize userNinodes = metaCount fssize userNinodes := by
    have hsum : 2 + nlog + ninodeblocks userNinodes + nbitmap fssize =
        (metaCount fssize userNinodes : ℤ) := by
      rw [hlog, hinodes, hbitmap]
      unfold metaCount defaultLogsize
      omega
    unfold nmeta
    rw [hsum]
    exact int32_of_range (by omega) (by omega)
  have hint : nblocks fssize userNinodes = int32 ((fssize : ℤ) - metaCount fssize userNinodes) := by
    unfold nblocks
    rw [int32_uint32, hmeta]
  rw [hint] at hblocks
  have hbelow : metaCount fssize userNinodes < fssize := by
    by_contra hge
    rw [int32_of_range (by omega) (by omega)] at hblocks
    omega
  have hrange : (fssize : ℤ) - metaCount fssize userNinodes < 2 ^ 31 := by
    by_contra hge
    have hneg := int32_neg_iff.2 (show 2 ^ 31 ≤
      ((fssize : ℤ) - metaCount fssize userNinodes) % 2 ^ 32 by omega)
    exact Int.not_lt.2 (Int.le_trans (by decide) hblocks) hneg
  refine ⟨hbitmap, hmeta, ?_, ?_, ?_, ?_, hbelow, hsmall⟩
  · unfold superblock
    dsimp only
    rw [hint, int32_of_range (by omega) hrange, uint32_of_range (by omega) (by omega)]
    omega
  · exact uint32_of_range (x := 240) (by omega) (by omega)
  · exact uint32_of_range (x := 242) (by omega) (by omega)
  · unfold superblock
    dsimp only
    have hsum : 2 + nlog + ninodeblocks userNinodes =
        ((2 + defaultLogsize + (userNinodes / ipb + 1) : ℕ) : ℤ) := by
      rw [hlog, hinodes]
      unfold defaultLogsize
      omega
    have hle : 2 + defaultLogsize + (userNinodes / ipb + 1) ≤ metaCount fssize userNinodes :=
      Nat.le_add_right _ _
    generalize 2 + defaultLogsize + (userNinodes / ipb + 1) = start at *
    rw [hsum, uint32_of_range (by omega) (by omega), Int.toNat_natCast]

theorem LayoutIs.words_lt (hl : LayoutIs fssize userNinodes) (hf : fssize < 2 ^ 32)
    (hn : userNinodes < 2 ^ 32) : ∀ x ∈ (superblock fssize userNinodes).words, x < 2 ^ 32 := by
  have hsmall := hl.small
  have hbound : (superblock fssize userNinodes).bmapstart < 2 ^ 32 := by
    rw [hl.bmapstart]
    exact (Nat.le_add_right _ _).trans_lt (hsmall.trans (by decide))
  intro x hx
  unfold Superblock.words at hx
  simp only [List.mem_cons, List.not_mem_nil, or_false] at hx
  rcases hx with hx | hx | hx | hx | hx | hx | hx | hx
  · exact hx ▸ (show 0x10203040 < 2 ^ 32 by omega)
  · exact hx ▸ hf
  · rw [hx, hl.nblocks]
    omega
  · exact hx ▸ hn
  · rw [hx, hl.nlog]
    decide
  · exact hx ▸ (show 2 < 2 ^ 32 by omega)
  · rw [hx, hl.inodestart]
    decide
  · exact hx ▸ hbound

/-- The superblock is read back. -/
theorem load_superblock (sb : Superblock) (hsb : ∀ x ∈ sb.words, x < 2 ^ 32) {k : ℕ} (hk : k < 8) :
    load 4 (copy (fun _ => 0) 0 sb.mem 32) (4 * k) = sb.words.getD k 0 := by
  have hdigits : load 4 sb.mem (4 * k) = sb.words.getD k 0 % 256 ^ 4 := by
    refine load_of_digits fun j hj => ?_
    unfold Superblock.mem
    rw [show (4 * k + j) / 4 = k by omega, show (4 * k + j) % 4 = j by omega]
  have hmem : sb.words.getD k 0 ∈ sb.words := by
    have hlt : k < sb.words.length := hk
    rw [List.getD_eq_getElem?_getD, List.getElem?_eq_getElem hlt]
    exact List.getElem_mem hlt
  have hcopy : load 4 (copy (fun _ => 0) 0 sb.mem 32) (0 + 4 * k) = load 4 sb.mem (4 * k) :=
    load_copy_inside (by omega)
  rw [Nat.zero_add] at hcopy
  rw [hcopy, hdigits]
  exact Nat.mod_eq_of_lt (hsb _ hmem)

end Accepted

/-! ### The root directory -/

theorem length_dirent (inum : ℕ) (name : List Byte) : (dirent inum name).length = direntSize := by
  unfold dirent
  rw [List.length_map, List.length_range]

theorem dirent_ne_nil (inum : ℕ) (name : List Byte) : dirent inum name ≠ [] :=
  List.ne_nil_of_length_pos (by rw [length_dirent]; decide)

section Root

variable {ninodes inodestart lo limit : ℕ} {disk : Disk}

/-- What `makeRoot` leaves: a directory of one block, which is the first free one. -/
structure RootIs (inodestart ninodes lo : ℕ) (disk disk' : Disk) : Prop where
  maps : Maps disk' (rinode inodestart disk' rootino) ⟨[lo], 0, []⟩
  type : (rinode inodestart disk' rootino).type = xv6TDir
  nlink : (rinode inodestart disk' rootino).nlink = 2
  size : (rinode inodestart disk' rootino).size = bsize
  content : ∀ pos, pos < bsize →
    disk' lo pos = (dirent rootino [46] ++ dirent rootino [46, 46]).getD pos 0
  inodes : ∀ i, i < ninodes → i ≠ rootino → ∀ o, o < dinodeSize →
    (rinode inodestart disk' i).mem o = (rinode inodestart disk i).mem o
  others : ∀ b, b ≠ iblock inodestart rootino → b ≠ lo → disk' b = disk b

/-- An image with one file that has some bytes, but not more than a block of them. -/
theorem Consistent.oneBlock {img : Image} {files : ℕ → File}
    (h : Consistent inodestart lo limit rootino img files) (hnext : img.freeinode = rootino + 1)
    (hpos : 0 < (files rootino).bytes.length) (hle : (files rootino).bytes.length ≤ bsize) :
    img.freeblock = lo + 1 ∧ (files rootino).data = [lo] ∧ (files rootino).ind = 0 := by
  have hstored := h.stored rootino (Nat.le_refl _) (by omega)
  have hcount : (files rootino).data.length = 1 := by
    rw [hstored.count]
    unfold dataCount bsize at *
    omega
  have hind : (files rootino).ind = 0 := hstored.ok.ind.2 (hcount.trans_le (by decide))
  have hblocks : (files rootino).blocks = (files rootino).data := by
    unfold File.blocks
    rw [if_pos hind, List.append_nil]
  have hfree : img.freeblock = lo + 1 := by
    rw [h.total, hnext, Nat.Ico_succ_singleton, Finset.sum_singleton, hblocks, hcount]
  obtain ⟨x, hx⟩ := List.length_eq_one_iff.1 hcount
  have hrange := hstored.ok.range x (by rw [hblocks, hx]; exact List.mem_singleton_self _)
  refine ⟨hfree, ?_, hind⟩
  rw [hx, show x = lo by omega]

/-- An image with the root directory alone: the first bytes of its inode are those of `head`, and
its bytes are `text`.  The other inodes and sectors are those of `disk`. -/
structure RootAlone (inodestart ninodes lo limit : ℕ) (disk : Disk) (head : Dinode)
    (text : List Byte) (img : Image) : Prop where
  next : img.freeinode = rootino + 1
  file : ∃ files, Consistent inodestart lo limit rootino img files ∧ (files rootino).bytes = text
  head : ∀ o, o < 8 → (rinode inodestart img.disk rootino).mem o = head.mem o
  inodes : ∀ i, i < ninodes → i ≠ rootino → ∀ o, o < dinodeSize →
    (rinode inodestart img.disk i).mem o = (rinode inodestart disk i).mem o
  others : ∀ b, b ≠ iblock inodestart rootino → b ≠ lo → img.disk b = disk b

section Alone

variable {img : Image} {head : Dinode} {text : List Byte}

theorem RootAlone.oneBlock (h : RootAlone inodestart ninodes lo limit disk head text img)
    (hpos : 0 < text.length) (hle : text.length ≤ bsize) :
    ∃ f, Stored inodestart lo img rootino f ∧ f.bytes = text ∧ f.data = [lo] ∧ f.ind = 0 ∧
      img.freeblock = lo + 1 := by
  obtain ⟨files, hcons, htext⟩ := h.file
  obtain ⟨hfree, hdata, hind⟩ := hcons.oneBlock h.next (htext ▸ hpos) (htext ▸ hle)
  have hlt : rootino < img.freeinode := by
    rw [h.next]
    exact Nat.lt_succ_self _
  exact ⟨files rootino, hcons.stored rootino (Nat.le_refl _) hlt, htext, hdata, hind, hfree⟩

/-- The inode that `ialloc` gives, with its link count. -/
theorem rootAlone_start (hr : Region inodestart ninodes lo) (hnodes : 2 ≤ ninodes)
    (hzero : Zero disk lo limit) (himg : img = (ialloc inodestart ⟨disk, rootino, lo⟩ xv6TDir).2) :
    RootAlone inodestart ninodes lo limit disk
      ((((Dinode.setType ⟨fun _ => 0⟩ (xv6TDir % 2 ^ 16)).setNlink 1).setSize 0).setNlink 2) []
      { img with
        disk := winode inodestart img.disk rootino
          ((rinode inodestart img.disk rootino).setNlink 2) } := by
  have hone : rootino < ninodes := hnodes
  obtain ⟨hnext, hcons, hmem, hinodes, hdisk⟩ := ialloc_spec hr
    (show (⟨disk, rootino, lo⟩ : Image).freeinode < ninodes from hnodes) xv6TDir
    (consistent_start ⟨disk, rootino, lo⟩ hzero)
  rw [← himg] at hnext hcons hmem hinodes hdisk
  dsimp only at hnext hmem hinodes hdisk
  refine ⟨hnext, ⟨_, hcons.setInode hr (Nat.le_refl _) (by omega) (by omega)
    (fun k _ => Dinode.addr_setNlink (x := 2)) Dinode.size_setNlink, rfl⟩, ?_, ?_, ?_⟩
  · intro o ho
    dsimp only
    rw [rinode_winode (by unfold dinodeSize; omega)]
    unfold Dinode.setNlink store
    dsimp only
    split_ifs
    · rfl
    · exact hmem o (by unfold dinodeSize; omega)
  · intro i hi hne o ho
    dsimp only
    rw [rinode_winode_of_ne hr hi hone hne ho, hinodes i hi hne o ho]
  · intro b hb _
    dsimp only
    rw [winode_of_ne hb, hdisk b hb]

/-- An entry is appended, with the sectors of the inode and of the block. -/
theorem RootAlone.append (h : RootAlone inodestart ninodes lo limit disk head text img)
    (hr : Region inodestart ninodes lo) (hnodes : 2 ≤ ninodes) (hlt : lo < limit)
    (hlimit : limit < 2 ^ 32) (name : List Byte) (hroom : text.length + direntSize ≤ bsize) :
    ∃ img', iappend inodestart img rootino (dirent rootino name) = some img' ∧
      iappendSectors inodestart img rootino (dirent rootino name) =
        [iblock inodestart rootino, lo, lo, iblock inodestart rootino,
          iblock inodestart rootino] ∧
      RootAlone inodestart ninodes lo limit disk head (text ++ dirent rootino name) img' := by
  obtain ⟨files, hcons, htext⟩ := h.file
  have hnext := h.next
  have hlen := length_dirent rootino name
  have hpos : 0 < direntSize := by decide
  have hsize := (hcons.stored rootino (Nat.le_refl _) (by omega)).size
  have hfree : img.freeblock = lo + (files rootino).blocks.length := by
    rw [hcons.total, hnext, Nat.Ico_succ_singleton, Finset.sum_singleton]
  have hcount : blockCount (dataCount (text.length + direntSize)) = 1 := by
    have hone : dataCount (text.length + direntSize) = 1 := by
      unfold dataCount bsize at *
      omega
    rw [hone]
    rfl
  obtain ⟨img', f, hrun, hbytes, hnext', -, hcons', hhead, hinodes, hdisk⟩ := iappend_spec hr hlimit
    (dirent rootino name) hcons (Nat.le_refl _) (by omega) (by rw [hnext]; exact hnodes)
    (by rw [htext, hlen]; exact hroom.trans (by decide)) (by
      rw [htext, hlen, hcount, hfree]
      omega)
  rw [htext] at hbytes
  have hself : Function.update files rootino f rootino = f := Function.update_self ..
  have hlen' : f.bytes.length = text.length + direntSize := by
    rw [hbytes, List.length_append, hlen]
  obtain ⟨-, hdata, hind⟩ := hcons'.oneBlock (hnext'.trans hnext) (by rw [hself]; omega)
    (by rw [hself]; omega)
  have hstored := hcons'.stored rootino (Nat.le_refl _) (by omega)
  rw [hself] at hdata hind hstored
  have haddr : (rinode inodestart img'.disk rootino).addr 0 = lo := by
    rw [hstored.maps.direct 0 (by decide), hdata]
    rfl
  refine ⟨img', hrun, ?_, hnext'.trans hnext, ⟨_, hcons', by rw [hself, hbytes]⟩,
    fun o ho => (hhead o ho).trans (h.head o ho),
    fun i hi hne o ho => (hinodes i hi hne o ho).trans (h.inodes i hi hne o ho), fun b hb hlo => ?_⟩
  · rw [iappendSectors_eq (dirent_ne_nil rootino name) (by rw [hsize, htext, hlen]; exact hroom)
      hrun, haddr]
  · have hblocks : f.blocks = [lo] := by rw [File.blocks, hdata, hind]; rfl
    have hnot : b ∉ f.blocks := by
      rw [hblocks]
      exact fun hmem => hlo (List.mem_singleton.1 hmem)
    rw [hdisk b hb hnot, h.others b hb hlo]

/-- The directory with its two entries, when its inode was given its size. -/
theorem RootAlone.rootIs (h : RootAlone inodestart ninodes lo limit disk
      ((((Dinode.setType ⟨fun _ => 0⟩ (xv6TDir % 2 ^ 16)).setNlink 1).setSize 0).setNlink 2)
      (dirent rootino [46] ++ dirent rootino [46, 46]) img)
    (hr : Region inodestart ninodes lo) (hnodes : 2 ≤ ninodes) :
    RootIs inodestart ninodes lo disk (winode inodestart img.disk rootino
      ((rinode inodestart img.disk rootino).setSize bsize)) := by
  have hone : rootino < ninodes := hnodes
  obtain ⟨f, hstored, hbytes, hdata, hind, -⟩ := h.oneBlock (by decide) (by decide)
  obtain ⟨din, hdin⟩ : ∃ din, din = (rinode inodestart img.disk rootino).setSize bsize := ⟨_, rfl⟩
  rw [← hdin]
  have hmem : ∀ o, o < dinodeSize →
      (rinode inodestart (winode inodestart img.disk rootino din) rootino).mem o = din.mem o :=
    fun o ho => rinode_winode ho
  have hhead : ∀ o, o < 8 →
      (rinode inodestart (winode inodestart img.disk rootino din) rootino).mem o =
        ((((Dinode.setType ⟨fun _ => 0⟩ (xv6TDir % 2 ^ 16)).setNlink 1).setSize 0).setNlink
          2).mem o := by
    intro o ho
    have hset : din.mem o = (rinode inodestart img.disk rootino).mem o := by
      rw [hdin]
      exact store_of_outside (by omega)
    rw [hmem o (by unfold dinodeSize; omega), hset, h.head o ho]
  refine ⟨?_, ?_, ?_, ?_, ?_, ?_, ?_⟩
  · have hmaps : Maps img.disk din ⟨[lo], 0, []⟩ := by
      have hm := hstored.maps
      refine ⟨fun k hk => ?_, ?_, fun hind => absurd rfl hind⟩
      · rw [hdin, Dinode.addr_setSize, hm.direct k hk, hdata]
      · rw [hdin, Dinode.addr_setSize, hm.indirect, hind]
    exact hmaps.congr hmem fun hind => absurd rfl hind
  · refine (load_congr fun j _ hj => hhead j (by omega)).trans ?_
    unfold Dinode.setNlink Dinode.setSize
    dsimp only
    rw [load_store_of_disjoint (by omega), load_store_of_disjoint (by omega),
      load_store_of_disjoint (by omega)]
    exact load_store_self (by decide)
  · refine (load_congr fun j _ hj => hhead j (by omega)).trans ?_
    exact Dinode.nlink_setNlink (by decide)
  · rw [size_congr hmem, hdin, Dinode.size_setSize (by decide)]
  · intro pos hpos
    have hcontent := hstored.content pos (by rw [hdata, Nat.div_eq_of_lt hpos]; exact Nat.one_pos)
    rw [hdata, Nat.div_eq_of_lt hpos, Nat.mod_eq_of_lt hpos, hbytes] at hcontent
    rw [winode_of_ne (Nat.ne_of_gt (hr.iblock_lt hone))]
    exact hcontent
  · intro i hi hne o ho
    rw [rinode_winode_of_ne hr hi hone hne ho, h.inodes i hi hne o ho]
  · intro b hb hlo
    rw [winode_of_ne hb, h.others b hb hlo]

end Alone

/-- **The root directory**, on an image without inodes. -/
theorem makeRoot_spec (hr : Region inodestart ninodes lo) (hnodes : 2 ≤ ninodes) (hlt : lo < limit)
    (hlimit : limit < 2 ^ 32) (hzero : Zero disk lo limit) {sys : ℤ → ℤ}
    (hsys : transfer sys (List.range limit) = some ()) :
    ∃ img, makeRoot sys inodestart ⟨disk, rootino, lo⟩ = some img ∧ img.freeblock = lo + 1 ∧
      RootIs inodestart ninodes lo disk img.disk := by
  obtain ⟨img₁, himg₁⟩ : ∃ img, img = (ialloc inodestart ⟨disk, rootino, lo⟩ xv6TDir).2 := ⟨_, rfl⟩
  have h₂ := rootAlone_start hr hnodes hzero himg₁
  obtain ⟨img₃, hrun₃, hsectors₃, h₃⟩ := h₂.append hr hnodes hlt hlimit [46] (by decide)
  obtain ⟨img₄, hrun₄, hsectors₄, h₄⟩ := h₃.append hr hnodes hlt hlimit [46, 46] (by decide)
  obtain ⟨f, hstored, hbytes, -, -, hfree⟩ := h₄.oneBlock (by decide) (by decide)
  have hsize : ((rinode inodestart img₄.disk rootino).size / bsize + 1) * bsize = bsize := by
    rw [hstored.size, hbytes]
    rfl
  refine ⟨{ img₄ with
    disk := winode inodestart img₄.disk rootino
      ((rinode inodestart img₄.disk rootino).setSize bsize) }, ?_, hfree, h₄.rootIs hr hnodes⟩
  -- the sectors are that of the inode and the block of the directory
  have hinode : iblock inodestart rootino < limit := (hr.iblock_lt hnodes).trans hlt
  have hsectors : ∀ sectors : List ℕ,
      (∀ sec ∈ sectors, sec = iblock inodestart rootino ∨ sec = lo) →
        transfer sys sectors = some () := fun sectors hmem =>
    transfer_of_lt hsys fun sec hsec => by
      rcases hmem sec hsec with rfl | rfl
      · exact hinode
      · exact hlt
  have hnum : (ialloc inodestart ⟨disk, rootino, lo⟩ xv6TDir).1 = rootino := rfl
  unfold makeRoot
  dsimp only
  rw [hsectors (winodeSectors inodestart rootino) (by simp [winodeSectors])]
  simp only [Option.bind_eq_bind, Option.bind_some]
  rw [if_neg (not_not.2 hnum), hnum,
    hsectors (rinodeSectors inodestart rootino ++ winodeSectors inodestart rootino)
      (by simp [rinodeSectors, winodeSectors]), ← himg₁, hsectors₃,
    hsectors [iblock inodestart rootino, lo, lo, iblock inodestart rootino,
      iblock inodestart rootino] (by simp)]
  simp only [Option.bind_some]
  rw [hrun₃, Option.bind_some, hsectors₄,
    hsectors [iblock inodestart rootino, lo, lo, iblock inodestart rootino,
      iblock inodestart rootino] (by simp)]
  simp only [Option.bind_some]
  rw [hrun₄, Option.bind_some, hsize]

end Root

/-! ### The image -/

/-- What `main` writes, in the numbers of the layout. -/
structure Written (fssize userNinodes : ℕ) (disk : Disk) : Prop where
  super : readSuper disk = superblock fssize userNinodes
  bits : ∀ b, b < fssize →
    bit (disk (bblock (superblock fssize userNinodes).bmapstart b)) (b % bpb) =
      decide (b < metaCount fssize userNinodes + 1 ∨ 2 ^ 31 ≤ b)
  maps : Maps disk (rinode 242 disk rootino) ⟨[metaCount fssize userNinodes], 0, []⟩
  type : (rinode 242 disk rootino).type = xv6TDir
  nlink : (rinode 242 disk rootino).nlink = 2
  size : (rinode 242 disk rootino).size = bsize
  content : ∀ pos, pos < bsize → disk (metaCount fssize userNinodes) pos =
    (dirent rootino [46] ++ dirent rootino [46, 46]).getD pos 0
  empty : ∀ i, i < userNinodes → i ≠ rootino → ∀ o, o < dinodeSize → (rinode 242 disk i).mem o = 0

section Image

variable {fssize userNinodes inum : ℕ} {disk disk' : Disk}

theorem readSuper_eq {sb : Superblock} (hsb : ∀ x ∈ sb.words, x < 2 ^ 32)
    (h : disk 1 = copy (fun _ => 0) 0 sb.mem 32) : readSuper disk = sb := by
  have hword : ∀ k, k < 8 → load 4 (disk 1) (4 * k) = sb.words.getD k 0 := by
    intro k hk
    rw [h, load_superblock sb hsb hk]
  obtain ⟨magic, size, nblocks, ninodes, nlog, logstart, inodestart, bmapstart⟩ := sb
  unfold readSuper
  congr 1
  · exact hword 0 (by decide)
  · exact hword 1 (by decide)
  · exact hword 2 (by decide)
  · exact hword 3 (by decide)
  · exact hword 4 (by decide)
  · exact hword 5 (by decide)
  · exact hword 6 (by decide)
  · exact hword 7 (by decide)

theorem rinode_congr {inodestart : ℕ}
    (h : disk' (iblock inodestart inum) = disk (iblock inodestart inum)) :
    rinode inodestart disk' inum = rinode inodestart disk inum := by
  unfold rinode
  rw [h]

/-- What `main` has checked when it ends well. -/
theorem accepts_of_mkfs {sys : ℤ → ℤ} (h : mkfs sys fssize userNinodes disk = some disk') :
    Accepts fssize userNinodes ∧ transfer sys (List.range fssize) = some () := by
  unfold mkfs at h
  split_ifs at h with hsize hnodes hblocks
  obtain ⟨u, hsys, -⟩ := Option.bind_eq_some_iff.1 h
  exact ⟨⟨Nat.not_lt.1 hsize, Nat.not_lt.1 hnodes, Int.not_lt.1 hblocks⟩, hsys⟩

theorem uint32_lt (x : ℤ) : uint32 x < 2 ^ 32 := by
  unfold uint32
  omega

theorem fssizeOf_lt {deviceEnd : ℤ} {size : Option (List Byte)}
    (h : fssizeOf deviceEnd size = some fssize) : fssize < 2 ^ 32 := by
  unfold fssizeOf at h
  split at h
  · exact Option.some.inj h ▸ uint32_lt _
  · split_ifs at h
    exact Option.some.inj h ▸ uint32_lt _

theorem userNinodesOf_lt (ninodes : Option (List Byte)) : userNinodesOf ninodes < 2 ^ 32 := by
  unfold userNinodesOf
  split
  · exact uint32_lt _
  · decide

/-- **Every accepted layout is written**, with the bits that `balloc` sets, if every sector is
transferred. -/
theorem mkfs_spec {sys : ℤ → ℤ} (h : Accepts fssize userNinodes) (hf : fssize < 2 ^ 32)
    (hn : userNinodes < 2 ^ 32) (hsys : transfer sys (List.range fssize) = some ())
    (disk : Disk) :
    ∃ disk', mkfs sys fssize userNinodes disk = some disk' ∧ Written fssize userNinodes disk' := by
  have hl := h.layoutIs hf hn
  have htwo := h.2.1
  obtain ⟨lo, hlo⟩ : ∃ lo, lo = metaCount fssize userNinodes := ⟨_, rfl⟩
  obtain ⟨sb, hsb⟩ : ∃ sb, sb = superblock fssize userNinodes := ⟨_, rfl⟩
  obtain ⟨n, hinodes⟩ : ∃ n, n = userNinodes / ipb := ⟨_, rfl⟩
  obtain ⟨m, hbitmap⟩ : ∃ m, m = fssize / bpb := ⟨_, rfl⟩
  have hbelow := hl.below
  have hsmall := hl.small
  have hstart : sb.inodestart = 242 := by
    rw [hsb]
    exact hl.inodestart
  have hbmap : sb.bmapstart = 242 + (n + 1) := by
    rw [hsb, hinodes]
    exact hl.bmapstart
  have hcount : lo = sb.bmapstart + (m + 1) := by
    rw [hlo, hbmap, hinodes, hbitmap]
    rfl
  rw [← hlo] at hbelow hsmall
  -- the zeros, with the superblock among them
  obtain ⟨disk₂, hdisk₂⟩ : ∃ d, d = writeSuperblock sb
      (writeSectors fssize (fun i => i) (fun _ _ => 0) disk) := ⟨_, rfl⟩
  have hone : disk₂ 1 = copy (fun _ => 0) 0 sb.mem 32 := by
    rw [hdisk₂]
    exact Function.update_self ..
  have hzero : ∀ b, b < fssize → b ≠ 1 → disk₂ b = fun _ => 0 := by
    intro b hb hne
    rw [hdisk₂, writeSuperblock, Function.update_of_ne hne,
      writeSectors_eq 0 (fun b _ => (Nat.zero_add b).symm), if_pos ⟨Nat.zero_le b, by omega⟩]
  have hr : Region 242 userNinodes lo := ⟨by rw [← hinodes]; omega, by omega, hn⟩
  obtain ⟨img, himg, hfree, hroot⟩ := makeRoot_spec hr htwo hbelow hf
    (fun b hb hb' o _ => congrFun (hzero b hb' (by omega)) o) hsys
  -- the sectors of the bitmap are those before the data blocks
  have hsector : ∀ b, balloc sb.bmapstart (nbitmap fssize) (int32 img.freeblock) img.disk b =
      if sb.bmapstart ≤ b ∧ b < lo then ballocSector (lo + 1 : ℕ) (b - sb.bmapstart)
      else img.disk b := by
    intro b
    rw [hfree, int32_of_range (x := ((lo + 1 : ℕ) : ℤ)) (by omega) (by omega), balloc, hl.nbitmap,
      Int.toNat_natCast, ← hbitmap, writeSectors_eq sb.bmapstart
      (fun b hb => Nat.mod_eq_of_lt (by omega)), ← hcount]
  have hkeep : ∀ b, b < sb.bmapstart ∨ lo ≤ b →
      balloc sb.bmapstart (nbitmap fssize) (int32 img.freeblock) img.disk b = img.disk b := by
    intro b hb
    rw [hsector, if_neg (by omega)]
  have hinode : ∀ i, i < userNinodes →
      rinode 242 (balloc sb.bmapstart (nbitmap fssize) (int32 img.freeblock) img.disk) i =
        rinode 242 img.disk i := by
    intro i hi
    refine rinode_congr (hkeep _ (.inl ?_))
    rw [hr.iblock_eq hi, hbmap, hinodes]
    have := Nat.div_le_div_right (c := ipb) hi.le
    omega
  -- no sector lies behind the last of the file system
  have hsuper : transfer sys [1] = some () :=
    transfer_of_lt hsys fun sec hsec => by
      rw [List.mem_singleton.1 hsec]
      omega
  have hbits : transfer sys ((List.range (nbitmap fssize).toNat).map fun b =>
      (sb.bmapstart + b) % 2 ^ 32) = some () := by
    refine transfer_of_lt hsys fun sec hsec => ?_
    obtain ⟨b, hb, rfl⟩ := List.mem_map.1 hsec
    rw [hl.nbitmap, Int.toNat_natCast, ← hbitmap] at hb
    have hlt := List.mem_range.1 hb
    exact (Nat.mod_le _ _).trans_lt (by omega)
  generalize hdisk' : balloc sb.bmapstart (nbitmap fssize) (int32 img.freeblock) img.disk = disk' at *
  have hroot' : rinode 242 disk' rootino = rinode 242 img.disk rootino := hinode rootino htwo
  refine ⟨disk', ?_, ⟨?_, ?_, ?_, ?_, ?_, ?_, ?_, ?_⟩⟩
  · unfold mkfs
    rw [if_neg (Nat.not_lt.2 h.1), if_neg (Nat.not_lt.2 htwo), if_neg (Int.not_lt.2 h.2.2)]
    dsimp only
    rw [← hsb, hstart, ← hdisk₂, hl.nmeta, ← hlo, uint32_of_range (by omega) (by omega),
      Int.toNat_natCast, hsys, hsuper, hbits]
    simp only [Option.bind_eq_bind, Option.bind_some]
    change (makeRoot sys 242 ⟨disk₂, rootino, lo⟩).bind _ = _
    rw [himg, Option.bind_some, hdisk']
  · rw [← hsb]
    refine readSuper_eq (hsb ▸ hl.words_lt hf hn) ?_
    have hne : (1 : ℕ) ≠ iblock 242 rootino := by decide
    rw [hkeep 1 (by omega), hroot.others 1 hne (by omega), hone]
  · intro b hb
    have hin : sb.bmapstart ≤ b / bpb + sb.bmapstart ∧ b / bpb + sb.bmapstart < lo := by
      have hle : b / bpb ≤ m := hbitmap ▸ Nat.div_le_div_right hb.le
      refine ⟨Nat.le_add_left _ _, ?_⟩
      omega
    rw [← hsb, ← hlo, hsector, bblock, if_pos hin, Nat.add_sub_cancel,
      bit_ballocSector (by omega) (by omega) (by omega), decide_eq_decide]
    omega
  · rw [hroot', ← hlo]
    exact hroot.maps.congr (fun _ _ => rfl) fun hind => absurd rfl hind
  · rw [hroot']
    exact hroot.type
  · rw [hroot']
    exact hroot.nlink
  · rw [hroot']
    exact hroot.size
  · intro pos hpos
    rw [← hlo, hkeep lo (.inr (Nat.le_refl _))]
    exact hroot.content pos hpos
  · intro i hi hne o ho
    have hlow := hr.iblock_lt hi
    rw [hinode i hi, hroot.inodes i hi hne o ho]
    unfold rinode view
    dsimp only
    rw [hzero _ (by omega) (by rw [hr.iblock_eq hi]; exact Nat.ne_of_gt (Nat.le_add_left _ _))]

/-- An inode of zeros leads to no block. -/
theorem fileBlocks_of_zero {inodestart : ℕ}
    (h : ∀ o, o < dinodeSize → (rinode inodestart disk inum).mem o = 0) :
    fileBlocks inodestart disk inum = [] := by
  have haddr : ∀ k, k ≤ ndirect → (rinode inodestart disk inum).addr k = 0 := by
    intro k hk
    refine load_of_zero fun j _ hj => h j ?_
    unfold ndirect at hk
    unfold dinodeSize
    omega
  unfold fileBlocks
  dsimp only
  rw [haddr ndirect (Nat.le_refl _), if_pos rfl]
  refine List.filter_eq_nil_iff.2 fun x hx => ?_
  have hzero : x = 0 := by
    rcases List.mem_append.1 hx with hx | hx
    · obtain ⟨k, hk, rfl⟩ := List.mem_map.1 hx
      exact haddr k (List.mem_range.1 hk).le
    · exact List.mem_singleton.1 hx
  rw [hzero]
  decide

/-- The blocks in use, apart from those before the data blocks, are that of the root. -/
theorem Written.mem_fileBlocks_iff (hw : Written fssize userNinodes disk) (htwo : 2 ≤ userNinodes)
    (b : ℕ) : (∃ i, i < userNinodes ∧ b ∈ fileBlocks 242 disk i) ↔
      b = metaCount fssize userNinodes := by
  have hpos : 0 < metaCount fssize userNinodes :=
    Nat.lt_of_lt_of_le (Nat.succ_pos _) (Nat.le_add_left _ _)
  have hok : File.Ok ⟨[metaCount fssize userNinodes], 0, []⟩ (metaCount fssize userNinodes)
      (metaCount fssize userNinodes + 1) := by
    refine ⟨hpos, iff_of_true rfl (show 1 ≤ 11 by decide), fun x hx => ?_, List.nodup_singleton _⟩
    rw [List.mem_singleton.1 hx]
    exact ⟨Nat.le_refl _, Nat.lt_succ_self _⟩
  have hroot : b ∈ fileBlocks 242 disk rootino ↔ b = metaCount fssize userNinodes := by
    rw [(hw.maps.fileBlocks_perm hok (show 1 ≤ 267 by decide)).mem_iff]
    exact List.mem_singleton
  constructor
  · rintro ⟨i, hi, hb⟩
    by_cases hne : i = rootino
    · rw [hne] at hb
      exact hroot.1 hb
    · rw [fileBlocks_of_zero (hw.empty i hi hne)] at hb
      exact absurd hb List.not_mem_nil
  · exact fun hb => ⟨rootino, htwo, hroot.2 hb⟩

/-- The bytes of the root directory. -/
theorem Written.rootBytes (hw : Written fssize userNinodes disk) : fileBytes 242 disk rootino =
    dirent rootino [46] ++ dirent rootino [46, 46] ++
      List.replicate (bsize - 2 * direntSize) 0 := by
  have haddr : (rinode 242 disk rootino).addr 0 = metaCount fssize userNinodes :=
    hw.maps.direct 0 (by decide)
  have hlen : (dirent rootino [46] ++ dirent rootino [46, 46]).length +
      (bsize - 2 * direntSize) = bsize := by
    rw [List.length_append, length_dirent, length_dirent]
    rfl
  rw [← map_getD_range, hlen]
  unfold fileBytes
  dsimp only
  rw [hw.size]
  refine List.map_congr_left fun pos hpos => ?_
  have hin := List.mem_range.1 hpos
  rw [Nat.div_eq_of_lt hin, Nat.mod_eq_of_lt hin, blockAt, if_pos (by decide), haddr,
    hw.content pos hin]

/-- **The image is consistent up to 2³¹ blocks.**  Beyond them the bits of free blocks would be
set. -/
theorem Written.imageOk (hl : LayoutIs fssize userNinodes) (hw : Written fssize userNinodes disk)
    (htwo : 2 ≤ userNinodes) (hle : fssize ≤ 2 ^ 31) : ImageOk fssize userNinodes disk := by
  have hbelow := hl.below
  have hsmall := hl.small
  have hstart : (superblock fssize userNinodes).inodestart = 242 := hl.inodestart
  have hdata : (superblock fssize userNinodes).dataStart = metaCount fssize userNinodes := by
    have hsize : (superblock fssize userNinodes).size = fssize := rfl
    rw [Superblock.dataStart, hl.nblocks, hsize]
    omega
  have hbits : ∀ b, b < fssize →
      (bit (disk (bblock (superblock fssize userNinodes).bmapstart b)) (b % bpb) = true ↔
        b < metaCount fssize userNinodes ∨ ∃ i, i < userNinodes ∧ b ∈ fileBlocks 242 disk i) := by
    intro b hb
    rw [hw.bits b hb, decide_eq_true_iff, hw.mem_fileBlocks_iff htwo]
    omega
  have hstep : userNinodes / ipb + 242 < (superblock fssize userNinodes).bmapstart := by
    rw [hl.bmapstart]
    unfold defaultLogsize
    omega
  have hend : (superblock fssize userNinodes).bmapstart + (fssize / bpb + 1) =
      metaCount fssize userNinodes := by
    rw [hl.bmapstart]
    rfl
  have hbmap : (superblock fssize userNinodes).bmapstart ≤ metaCount fssize userNinodes :=
    hend ▸ Nat.le_add_right _ _
  have hs := hw.super
  refine ⟨?_, ?_, ?_, ?_, ?_, ?_, fun i hi => ?_, fun b hb => ?_, fun b hb => ?_, ?_, ?_, ?_, ?_⟩
  · rw [hs]
    rfl
  · rw [hs]
    rfl
  · rw [hs]
    rfl
  · rw [hs, hl.nblocks]
    omega
  · rw [hs]
    rfl
  · rw [hs, hstart, hl.nlog]
    rfl
  · have hmod : iblock 242 i = i / ipb + 242 :=
      Nat.mod_eq_of_lt ((Nat.add_le_add_right (Nat.div_le_div_right hi.le) _).trans_lt
        (hstep.trans_le (hbmap.trans (by omega))))
    have hdiv : i / ipb ≤ userNinodes / ipb := Nat.div_le_div_right hi.le
    rw [hs, hstart, hmod]
    refine ⟨Nat.le_add_left _ _, ?_⟩
    exact (Nat.add_le_add_right hdiv _).trans_lt hstep
  · have hdiv : b / bpb ≤ fssize / bpb := Nat.div_le_div_right hb.le
    rw [hs, hdata, bblock, ← hend, Nat.add_comm]
    exact Nat.add_lt_add_left (Nat.lt_succ_of_le hdiv) _
  · rw [hs, hstart, hdata]
    exact hbits b hb
  · rw [hs, hstart]
    exact hw.type
  · rw [hs, hstart]
    exact hw.nlink
  · rw [hs, hstart]
    exact hw.size
  · rw [hs, hstart]
    exact hw.rootBytes

/-- **What `mkfs_xv6fs` writes.**  With a kernel that answers a seek with the offset or an error,
and for all numbers of blocks and of inodes: it ends well exactly if it accepts the numbers and
every sector of the file system is transferred, and what it has written then is the image of such
a file system; and these are the numbers that it has from its arguments and the device. -/
theorem mkfs_imageOk {sys : ℤ → ℤ} (hs : Answers sys) (disk : Disk) :
    (∀ fssize userNinodes, fssize < 2 ^ 32 → userNinodes < 2 ^ 32 →
      ((∃ disk', mkfs sys fssize userNinodes disk = some disk') ↔
        Accepts fssize userNinodes ∧ ∀ sec < fssize, (sectorSeek sys 0 sec).isSome) ∧
      ∀ disk', mkfs sys fssize userNinodes disk = some disk' →
        ImageOk fssize userNinodes disk') ∧
    ∀ deviceEnd size ninodes disk', main sys deviceEnd size ninodes disk = some disk' →
      ∃ fssize, fssizeOf deviceEnd size = some fssize ∧
        ImageOk fssize (userNinodesOf ninodes) disk' := by
  have hmkfs : ∀ fssize userNinodes, fssize < 2 ^ 32 → userNinodes < 2 ^ 32 →
      ((∃ disk', mkfs sys fssize userNinodes disk = some disk') ↔
        Accepts fssize userNinodes ∧ ∀ sec < fssize, (sectorSeek sys 0 sec).isSome) ∧
      ∀ disk', mkfs sys fssize userNinodes disk = some disk' →
        ImageOk fssize userNinodes disk' := by
    intro fssize userNinodes hf hn
    have htransfer : transfer sys (List.range fssize) = some () ↔
        ∀ sec < fssize, (sectorSeek sys 0 sec).isSome := by
      rw [transfer_eq_some_iff]
      exact forall_congr' fun sec => imp_congr_left List.mem_range
    rw [← htransfer]
    refine ⟨⟨?_, ?_⟩, ?_⟩
    · rintro ⟨disk', hrun⟩
      exact accepts_of_mkfs hrun
    · rintro ⟨haccepts, hsys⟩
      obtain ⟨disk', hrun, -⟩ := mkfs_spec haccepts hf hn hsys disk
      exact ⟨disk', hrun⟩
    · intro disk' hrun
      obtain ⟨haccepts, hsys⟩ := accepts_of_mkfs hrun
      obtain ⟨disk'', hrun', hw⟩ := mkfs_spec haccepts hf hn hsys disk
      obtain rfl := Option.some.inj (hrun.symm.trans hrun')
      have hle := le_of_transfer hs hf hsys
      exact hw.imageOk (haccepts.layoutIs hf hn) haccepts.2.1 (by omega)
  refine ⟨hmkfs, fun deviceEnd size ninodes disk' hrun => ?_⟩
  obtain ⟨fssize, hfssize, hrun⟩ := Option.bind_eq_some_iff.1 hrun
  exact ⟨fssize, hfssize, (hmkfs fssize _ (fssizeOf_lt hfssize) (userNinodesOf_lt _)).2 disk' hrun⟩

/-- A thousand blocks, with the default number of inodes. -/
theorem mkfs_imageOk_thousand :
    ∃ disk', main id (1000 * 1024) none none (fun _ _ => 0) = some disk' ∧
      ImageOk 1000 200 disk' := by
  have hs : Answers id := fun _ _ _ => .inl rfl
  obtain ⟨hiff, hok⟩ := (mkfs_imageOk hs fun _ _ => 0).1 1000 200 (by omega) (by omega)
  have hseeks : ∀ sec < 1000, (sectorSeek id 0 sec).isSome := fun sec hsec =>
    transfer_eq_some_iff.1 (transfer_of_seeks (fun _ _ _ => rfl) (show 1000 ≤ 2 ^ 21 by omega))
      sec (List.mem_range.2 hsec)
  obtain ⟨disk', hrun⟩ := hiff.2 ⟨⟨by decide, by decide, by decide⟩, hseeks⟩
  have hsize : fssizeOf (1000 * 1024) none = some 1000 := by decide
  refine ⟨disk', ?_, hok disk' hrun⟩
  rw [main, hsize, Option.bind_some]
  exact hrun

end Image

end Mkfs
end V6User
