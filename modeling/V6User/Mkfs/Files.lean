import Mathlib.Algebra.BigOperators.Group.Finset.Basic
import Mathlib.Algebra.Order.BigOperators.Group.Finset
import Mathlib.Order.Interval.Finset.Nat
import V6User.Mkfs.File

/-!
# The files of an image

`programs/mkfs_xv6fs/mkfs_xv6fs.c`: `ialloc` and `iappend` on an image with many files.

`Consistent` is the invariant of an image whose inodes from `first` on were allocated: each
leads to its file, no two files have a block in common, and the blocks are those from `lo`
to the next free one.  A call of `ialloc` adds an empty file, and one of `iappend` adds
bytes to a file and leaves the others as they are (`op_spec`).
-/

namespace V6User
namespace Mkfs

open Shell (Byte)
open Bytes

/-- The inode of a file leads to its blocks, and these have its bytes and zeros after them. -/
structure Stored (inodestart lo : ℕ) (img : Image) (inum : ℕ) (f : File) : Prop where
  maps : Maps img.disk (rinode inodestart img.disk inum) f
  ok : f.Ok lo img.freeblock
  size : (rinode inodestart img.disk inum).size = f.bytes.length
  count : f.data.length = dataCount f.bytes.length
  content : ∀ pos, pos / bsize < f.data.length →
    img.disk (f.data.getD (pos / bsize) 0) (pos % bsize) = f.bytes.getD pos 0

/-- A file without bytes. -/
def File.empty : File := ⟨[], 0, []⟩

/-- The sectors of the inodes below `ninodes` lie before the block `lo`. -/
structure Region (inodestart ninodes lo : ℕ) : Prop where
  below : ninodes / ipb + inodestart < lo
  lo_lt : lo < 2 ^ 32
  inodes_lt : ninodes < 2 ^ 32

/-- The inodes of the image from `first` on are those of the files. -/
structure Consistent (inodestart lo limit first : ℕ) (img : Image) (files : ℕ → File) : Prop where
  le : lo ≤ img.freeblock
  first_le : first ≤ img.freeinode
  zero : Zero img.disk img.freeblock limit
  stored : ∀ i, first ≤ i → i < img.freeinode → Stored inodestart lo img i (files i)
  fresh : ∀ i, img.freeinode ≤ i → files i = File.empty
  apart : ∀ i j, first ≤ i → i < img.freeinode → first ≤ j → j < img.freeinode → i ≠ j →
    ∀ b ∈ (files i).blocks, b ∉ (files j).blocks
  total : img.freeblock = lo + ∑ i ∈ Finset.Ico first img.freeinode, (files i).blocks.length

section Inodes

variable {inodestart ninodes lo limit first inum i : ℕ} {disk disk' : Disk}
  {din din' : Dinode} {f f' : File} {img img' : Image} {files : ℕ → File}

theorem Region.iblock_eq (h : Region inodestart ninodes lo) (hi : i < ninodes) :
    iblock inodestart i = i / ipb + inodestart := by
  have hbelow := h.below
  have hlo := h.lo_lt
  refine Nat.mod_eq_of_lt ?_
  unfold ipb bsize dinodeSize at *
  omega

theorem Region.iblock_lt (h : Region inodestart ninodes lo) (hi : i < ninodes) :
    iblock inodestart i < lo := by
  have hbelow := h.below
  rw [h.iblock_eq hi]
  unfold ipb bsize dinodeSize at *
  omega

/-- An inode that was written is read back. -/
theorem rinode_winode {o : ℕ} (ho : o < dinodeSize) :
    (rinode inodestart (winode inodestart disk inum din) inum).mem o = din.mem o := by
  unfold rinode winode view
  dsimp only
  rw [Function.update_self, copy_of_inside (by omega) (by omega), Nat.add_sub_cancel_left]

/-- **The other inodes stay as they are**, also those in the same sector. -/
theorem rinode_winode_of_ne (hr : Region inodestart ninodes lo) (hi : i < ninodes)
    (hinum : inum < ninodes) (hne : i ≠ inum) {o : ℕ} (ho : o < dinodeSize) :
    (rinode inodestart (winode inodestart disk inum din) i).mem o =
      (rinode inodestart disk i).mem o := by
  unfold rinode winode view
  dsimp only
  by_cases hblock : iblock inodestart i = iblock inodestart inum
  · rw [hblock, Function.update_self]
    refine copy_of_outside ?_
    rw [hr.iblock_eq hi, hr.iblock_eq hinum] at hblock
    unfold ipb bsize dinodeSize at *
    omega
  · rw [Function.update_of_ne hblock]

theorem winode_of_ne {b : ℕ} (h : b ≠ iblock inodestart inum) :
    winode inodestart disk inum din b = disk b := Function.update_of_ne h _ _

theorem addr_congr (h : ∀ o, o < dinodeSize → din'.mem o = din.mem o) {k : ℕ} (hk : k ≤ ndirect) :
    din'.addr k = din.addr k :=
  load_congr fun j _ hj => h j (by unfold ndirect at hk; unfold dinodeSize; omega)

theorem size_congr (h : ∀ o, o < dinodeSize → din'.mem o = din.mem o) : din'.size = din.size :=
  load_congr fun j _ hj => h j (by unfold dinodeSize; omega)

/-- The inode and its indirect block are all that the blocks depend on. -/
theorem Maps.congr (h : Maps disk din f) (hdin : ∀ o, o < dinodeSize → din'.mem o = din.mem o)
    (hdisk : f.ind ≠ 0 → disk' f.ind = disk f.ind) : Maps disk' din' f := by
  refine ⟨fun k hk => ?_, ?_, fun hind k hk => ?_⟩
  · rw [addr_congr hdin hk.le, h.direct k hk]
  · rw [addr_congr hdin (Nat.le_refl _), h.indirect]
  · rw [hdisk hind, h.words hind k hk]

theorem File.ind_mem (h : f.ind ≠ 0) : f.ind ∈ f.blocks := by
  refine List.mem_append_right _ ?_
  rw [if_neg h]
  exact List.mem_singleton_self _

theorem File.Ok.mono {hi hi' : ℕ} (h : f.Ok lo hi) (hle : hi ≤ hi') : f.Ok lo hi' :=
  ⟨h.pos, h.ind, fun b hb => ⟨(h.range b hb).1, (h.range b hb).2.trans_le hle⟩, h.nodup⟩

/-- **A file stays as it is** where its inode and its blocks do. -/
theorem Stored.congr (h : Stored inodestart lo img inum f) (hle : img.freeblock ≤ img'.freeblock)
    (hdin : ∀ o, o < dinodeSize → (rinode inodestart img'.disk inum).mem o =
      (rinode inodestart img.disk inum).mem o)
    (hdisk : ∀ b ∈ f.blocks, img'.disk b = img.disk b) : Stored inodestart lo img' inum f := by
  refine ⟨h.maps.congr hdin fun hind => hdisk _ (File.ind_mem hind), h.ok.mono hle, ?_, h.count,
    fun pos hpos => ?_⟩
  · rw [size_congr hdin, h.size]
  · rw [hdisk _ (List.mem_append_left _ (File.Ok.data_mem hpos)), h.content pos hpos]

/-- **One file that grows**, or that is new: the image is that of the other files and of it,
where their inodes stay and no block but its own changes. -/
theorem Consistent.set (img' : Image) (h : Consistent inodestart lo limit first img files)
    (hfirst : first ≤ inum) (hlt : inum < img'.freeinode) (hinode : img.freeinode ≤ img'.freeinode)
    (hnew : ∀ i, i < img'.freeinode → i ≠ inum → i < img.freeinode)
    (hblock : img.freeblock ≤ img'.freeblock) (hstored : Stored inodestart lo img' inum f')
    (hperm : (f'.blocks).Perm (List.range' img.freeblock (img'.freeblock - img.freeblock) ++
      (files inum).blocks))
    (hinodes : ∀ i, first ≤ i → i < img.freeinode → i ≠ inum → ∀ o, o < dinodeSize →
      (rinode inodestart img'.disk i).mem o = (rinode inodestart img.disk i).mem o)
    (hdisk : ∀ b, lo ≤ b → b ∉ f'.blocks → img'.disk b = img.disk b) :
    Consistent inodestart lo limit first img' (Function.update files inum f') := by
  have hle := h.le
  -- the blocks of another file are old ones, and not of the one that grows
  have hother : ∀ i, first ≤ i → i < img.freeinode → i ≠ inum → ∀ b ∈ (files i).blocks,
      b ∉ f'.blocks := by
    intro i hi hi' hne b hb hmem
    have hrange := (h.stored i hi hi').ok.range b hb
    rcases List.mem_append.1 (hperm.mem_iff.1 hmem) with hmem | hmem
    · rw [List.mem_range'_1] at hmem
      omega
    · by_cases hold : inum < img.freeinode
      · exact h.apart i inum hi hi' hfirst hold hne b hb hmem
      · rw [h.fresh inum (Nat.not_lt.1 hold)] at hmem
        exact List.not_mem_nil hmem
  refine ⟨hle.trans hblock, h.first_le.trans hinode, ?_, ?_, ?_, ?_, ?_⟩
  · intro b hb hb' o ho
    rw [hdisk b (by omega) fun hmem => absurd (hstored.ok.range b hmem).2 (Nat.not_lt.2 hb)]
    exact h.zero b (hblock.trans hb) hb' o ho
  · intro i hi hi'
    by_cases hne : i = inum
    · rw [hne, Function.update_self]
      exact hstored
    · have hold := hnew i hi' hne
      rw [Function.update_of_ne hne]
      refine (h.stored i hi hold).congr hblock (hinodes i hi hold hne) fun b hb => ?_
      exact hdisk b ((h.stored i hi hold).ok.range b hb).1 (hother i hi hold hne b hb)
  · intro i hi
    rw [Function.update_of_ne (by omega)]
    exact h.fresh i (hinode.trans hi)
  · intro i j hi hi' hj hj' hij b hb
    by_cases hii : i = inum
    · subst hii
      rw [Function.update_self] at hb
      rw [Function.update_of_ne hij.symm]
      exact fun hmem => hother j hj (hnew j hj' hij.symm) hij.symm b hmem hb
    · rw [Function.update_of_ne hii] at hb
      by_cases hjj : j = inum
      · rw [hjj, Function.update_self]
        exact hother i hi (hnew i hi' hii) hii b hb
      · rw [Function.update_of_ne hjj]
        exact h.apart i j hi (hnew i hi' hii) hj (hnew j hj' hjj) hij b hb
  · have hmem : inum ∈ Finset.Ico first img'.freeinode := Finset.mem_Ico.2 ⟨hfirst, hlt⟩
    have hlength := hperm.length_eq
    rw [List.length_append, List.length_range'] at hlength
    have hsame : ∑ i ∈ Finset.Ico first img'.freeinode, (files i).blocks.length =
        ∑ i ∈ Finset.Ico first img.freeinode, (files i).blocks.length := by
      refine (Finset.sum_subset (Finset.Ico_subset_Ico_right hinode) fun i hi hi' => ?_).symm
      rw [Finset.mem_Ico] at hi hi'
      rw [h.fresh i (by omega)]
      rfl
    have hrest : ∑ i ∈ (Finset.Ico first img'.freeinode).erase inum,
        (Function.update files inum f' i).blocks.length =
        ∑ i ∈ (Finset.Ico first img'.freeinode).erase inum, (files i).blocks.length := by
      refine Finset.sum_congr rfl fun i hi => ?_
      rw [Function.update_of_ne (Finset.ne_of_mem_erase hi)]
    have htotal := h.total
    have holdsum := Finset.add_sum_erase _ (fun i => (files i).blocks.length) hmem
    have hnewsum := Finset.add_sum_erase _
      (fun i => (Function.update files inum f' i).blocks.length) hmem
    rw [Function.update_self, hrest] at hnewsum
    omega

/-- The inode of a file that was put in its place, and whose blocks are those of a disk. -/
theorem Holds.stored {c : Cursor} (h : Holds lo limit c f)
    (hmem : ∀ o, o < dinodeSize →
      (rinode inodestart img.disk inum).mem o = (c.din.setSize c.off).mem o)
    (hdisk : ∀ b ∈ f.blocks, img.disk b = c.disk b) (hfree : img.freeblock = c.freeblock)
    (hsize : c.off < 2 ^ 32) : Stored inodestart lo img inum f := by
  refine ⟨?_, hfree ▸ h.ok, ?_, h.count, fun pos hpos => ?_⟩
  · have hset : Maps c.disk (c.din.setSize c.off) f := by
      refine ⟨fun k hk => ?_, ?_, h.maps.words⟩
      · rw [Dinode.addr_setSize, h.maps.direct k hk]
      · rw [Dinode.addr_setSize, h.maps.indirect]
    exact hset.congr hmem fun hind => hdisk _ (File.ind_mem hind)
  · rw [size_congr hmem, Dinode.size_setSize hsize, h.off]
  · rw [hdisk _ (List.mem_append_left _ (File.Ok.data_mem hpos)), h.content pos hpos]

/-- **A call of `ialloc`** adds a file without bytes. -/
theorem ialloc_spec (hr : Region inodestart ninodes lo) (hpos : img.freeinode < ninodes) (type : ℕ)
    (h : Consistent inodestart lo limit first img files) :
    (ialloc inodestart img type).2.freeinode = img.freeinode + 1 ∧
      Consistent inodestart lo limit first (ialloc inodestart img type).2 files ∧
      (∀ o, o < dinodeSize →
        (rinode inodestart (ialloc inodestart img type).2.disk img.freeinode).mem o =
          (((Dinode.setType ⟨fun _ => 0⟩ (type % 2 ^ 16)).setNlink 1).setSize 0).mem o) ∧
      (∀ i, i < ninodes → i ≠ img.freeinode → ∀ o, o < dinodeSize →
        (rinode inodestart (ialloc inodestart img type).2.disk i).mem o =
          (rinode inodestart img.disk i).mem o) ∧
      ∀ b, b ≠ iblock inodestart img.freeinode →
        (ialloc inodestart img type).2.disk b = img.disk b := by
  have hinodes := hr.inodes_lt
  have hempty := h.fresh img.freeinode (Nat.le_refl _)
  have hsucc : (ialloc inodestart img type).2.freeinode = img.freeinode + 1 :=
    succ_eq (show img.freeinode + 1 < 2 ^ 32 by omega)
  have hmem : ∀ o, o < dinodeSize →
      (rinode inodestart (ialloc inodestart img type).2.disk img.freeinode).mem o =
        (((Dinode.setType ⟨fun _ => 0⟩ (type % 2 ^ 16)).setNlink 1).setSize 0).mem o :=
    fun o ho => rinode_winode ho
  have hothers : ∀ i, i < ninodes → i ≠ img.freeinode → ∀ o, o < dinodeSize →
      (rinode inodestart (ialloc inodestart img type).2.disk i).mem o =
        (rinode inodestart img.disk i).mem o :=
    fun i hi hne o ho => rinode_winode_of_ne hr hi hpos hne ho
  have hdisk : ∀ b, b ≠ iblock inodestart img.freeinode →
      (ialloc inodestart img type).2.disk b = img.disk b := fun b hb => winode_of_ne hb
  have hstored : Stored inodestart lo (ialloc inodestart img type).2 img.freeinode
      File.empty := by
    have haddr : ∀ k, k ≤ ndirect → (rinode inodestart (ialloc inodestart img type).2.disk
        img.freeinode).addr k = 0 := by
      intro k hk
      rw [addr_congr hmem hk, Dinode.addr_setSize, Dinode.addr_setNlink, Dinode.addr_setType]
      exact load_of_zero fun _ _ _ => rfl
    refine ⟨⟨fun k hk => haddr k hk.le, haddr ndirect (Nat.le_refl _), fun hind => absurd rfl hind⟩,
      ⟨?_, ?_, fun b hb => absurd hb List.not_mem_nil, List.nodup_nil⟩, ?_, rfl,
      fun pos hpos => absurd hpos (Nat.not_lt_zero _)⟩
    · exact (Nat.zero_le _).trans_lt hr.below
    · exact iff_of_true rfl (Nat.zero_le _)
    · rw [size_congr hmem, Dinode.size_setSize (by omega)]
      rfl
  refine ⟨hsucc, ?_, hmem, hothers, hdisk⟩
  have hnone : (List.range' img.freeblock ((ialloc inodestart img type).2.freeblock -
      img.freeblock)) = [] := by
    rw [show (ialloc inodestart img type).2.freeblock = img.freeblock from rfl, Nat.sub_self]
    rfl
  have hset := h.set (ialloc inodestart img type).2 h.first_le (by omega) (by omega)
    (fun i hi hne => by omega) (Nat.le_refl _) hstored
    (by rw [hempty, hnone]; exact List.Perm.refl _)
    (fun i _ hi hne => hothers i (by omega) hne)
    (fun b hb _ => hdisk b (Nat.ne_of_gt ((hr.iblock_lt hpos).trans_le hb)))
  rw [← hempty, Function.update_eq_self] at hset
  exact hset

/-- **A call of `iappend`** adds its bytes to a file, which takes the next free blocks. -/
theorem iappend_spec (hr : Region inodestart ninodes lo) (hlimit : limit < 2 ^ 32) (p : List Byte)
    (h : Consistent inodestart lo limit first img files) (hfirst : first ≤ inum)
    (hinum : inum < img.freeinode) (hinodes : img.freeinode ≤ ninodes)
    (hmax : (files inum).bytes.length + p.length ≤ maxfile * bsize)
    (hroom : img.freeblock + blockCount (dataCount ((files inum).bytes.length + p.length)) ≤
      limit + (files inum).blocks.length) :
    ∃ img' f', iappend inodestart img inum p = some img' ∧ f'.bytes = (files inum).bytes ++ p ∧
      img'.freeinode = img.freeinode ∧ img.freeblock ≤ img'.freeblock ∧
      Consistent inodestart lo limit first img' (Function.update files inum f') ∧
      (∀ o, o < 8 →
        (rinode inodestart img'.disk inum).mem o = (rinode inodestart img.disk inum).mem o) ∧
      (∀ i, i < ninodes → i ≠ inum → ∀ o, o < dinodeSize →
        (rinode inodestart img'.disk i).mem o = (rinode inodestart img.disk i).mem o) ∧
      ∀ b, b ≠ iblock inodestart inum → b ∉ f'.blocks → img'.disk b = img.disk b := by
  have hold := h.stored inum hfirst hinum
  have hsmall : inum < ninodes := by omega
  obtain ⟨c, f', hloop, hc, hbytes, hle, hperm, hhead, hframe⟩ := appendLoop_spec hlimit p
    (c := ⟨img.disk, img.freeblock, rinode inodestart img.disk inum,
      (rinode inodestart img.disk inum).size⟩)
    ⟨hold.maps, hold.ok, h.le, h.zero, hold.size, hold.count, hold.content⟩ hmax hroom
  dsimp only at hle hperm hhead hframe
  have hlow : ∀ b, b < lo → c.disk b = img.disk b := fun b hb =>
    hframe b fun hmem => absurd (hc.ok.range b hmem).1 (Nat.not_le.2 hb)
  have hoff : c.off < 2 ^ 32 := by
    rw [hc.off, hbytes, List.length_append]
    unfold maxfile ndirect nindirect bsize at hmax
    omega
  have hothers : ∀ i, i < ninodes → i ≠ inum → ∀ o, o < dinodeSize →
      (rinode inodestart (winode inodestart c.disk inum (c.din.setSize c.off)) i).mem o =
        (rinode inodestart img.disk i).mem o := by
    intro i hi hne o ho
    rw [rinode_winode_of_ne hr hi hsmall hne ho]
    unfold rinode
    rw [hlow _ (hr.iblock_lt hi)]
  refine ⟨⟨winode inodestart c.disk inum (c.din.setSize c.off), img.freeinode, c.freeblock⟩, f', ?_,
    hbytes, rfl, hle, ?_, ?_, hothers, ?_⟩
  · unfold iappend
    dsimp only
    rw [hloop]
    rfl
  · refine h.set _ hfirst hinum (Nat.le_refl _) (fun i hi _ => hi) hle ?_ hperm
      (fun i _ hi hne => hothers i (by omega) hne) fun b hb hnot => ?_
    · refine hc.stored (fun o ho => rinode_winode ho) (fun b hb => ?_) rfl hoff
      have hrange := (hc.ok.range b hb).1
      exact winode_of_ne (Nat.ne_of_gt ((hr.iblock_lt hsmall).trans_le hrange))
    · rw [← hframe b hnot]
      exact winode_of_ne (Nat.ne_of_gt ((hr.iblock_lt hsmall).trans_le hb))
  · intro o ho
    have hset : (c.din.setSize c.off).mem o = c.din.mem o := store_of_outside (by omega)
    dsimp only
    rw [rinode_winode (by unfold dinodeSize; omega), hset, hhead o ho]
  · intro b hb hnot
    rw [← hframe b hnot]
    exact winode_of_ne hb

/-- An inode that is written again, with the same size and the same blocks. -/
theorem Consistent.setInode (hr : Region inodestart ninodes lo) (hfirst : first ≤ inum)
    (hinum : inum < img.freeinode) (hinodes : img.freeinode ≤ ninodes)
    (h : Consistent inodestart lo limit first img files)
    (haddr : ∀ k, k ≤ ndirect → din.addr k = (rinode inodestart img.disk inum).addr k)
    (hsize : din.size = (rinode inodestart img.disk inum).size) :
    Consistent inodestart lo limit first
      { img with disk := winode inodestart img.disk inum din } files := by
  have hsmall : inum < ninodes := by omega
  have hold := h.stored inum hfirst hinum
  have hdisk : ∀ b, lo ≤ b → winode inodestart img.disk inum din b = img.disk b := fun b hb =>
    winode_of_ne (Nat.ne_of_gt ((hr.iblock_lt hsmall).trans_le hb))
  have hmaps : Maps img.disk din (files inum) := by
    refine ⟨fun k hk => ?_, ?_, hold.maps.words⟩
    · rw [haddr k hk.le, hold.maps.direct k hk]
    · rw [haddr ndirect (Nat.le_refl _), hold.maps.indirect]
  have hstored : Stored inodestart lo { img with disk := winode inodestart img.disk inum din } inum
      (files inum) := by
    have hblock : ∀ b ∈ (files inum).blocks, winode inodestart img.disk inum din b = img.disk b :=
      fun b hb => hdisk b (hold.ok.range b hb).1
    refine ⟨hmaps.congr (fun o ho => rinode_winode ho) fun hind => hblock _ (File.ind_mem hind),
      hold.ok, ?_, hold.count, fun pos hpos => ?_⟩
    · rw [size_congr fun o ho => rinode_winode ho, hsize, hold.size]
    · dsimp only
      rw [hblock _ (List.mem_append_left _ (File.Ok.data_mem hpos)), hold.content pos hpos]
  have hset := h.set { img with disk := winode inodestart img.disk inum din } hfirst hinum
    (Nat.le_refl _) (fun i hi _ => hi) (Nat.le_refl _) hstored
    (by rw [Nat.sub_self]; exact List.Perm.refl _)
    (fun i _ hi hne o ho => rinode_winode_of_ne hr (by omega) hsmall hne ho)
    (fun b hb _ => hdisk b hb)
  rw [Function.update_eq_self] at hset
  exact hset

end Inodes

end Mkfs
end V6User
