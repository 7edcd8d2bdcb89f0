import Mathlib.Data.List.Perm.Subperm
import V6User.Mkfs.Files

/-!
# Sequences of calls

`programs/mkfs_xv6fs/mkfs_xv6fs.c`: calls of `ialloc` and `iappend` one after another.

What a file is can be read from the image: `fileBytes` follows the addresses of an inode to
its bytes, `fileBlocks` are the blocks that it leads to and `imageBlocks` those of all
inodes.  They are what the invariant says of the files (`Stored.fileBytes_eq`,
`Stored.fileBlocks_perm`), and together they are the blocks that were taken from the free
ones (`Consistent.imageBlocks_perm`).  So every call keeps the other files (`call_spec`), and
after a run each file has the bytes that were appended to it (`run_files`), as long as there
are inodes left: `ialloc` does not look at their number (`ialloc_past_end`).

`rsect` and `wsect` are taken to transfer every sector that they seek, as they do for all sectors
below 2²¹; `V6User.Mkfs.Sectors` says which ones the calls seek.
-/

namespace V6User
namespace Mkfs

open Shell (Byte)
open Bytes

/-- A call on the image. -/
inductive Call
  | ialloc (type : ℕ)
  | iappend (inum : ℕ) (p : List Byte)

/-- What it does. -/
def Call.run (inodestart : ℕ) (img : Image) : Call → Option Image
  | .ialloc type => some (Mkfs.ialloc inodestart img type).2
  | .iappend inum p => Mkfs.iappend inodestart img inum p

/-- One call after another. -/
def run (inodestart : ℕ) : Image → List Call → Option Image
  | img, [] => some img
  | img, call :: calls => (call.run inodestart img).bind fun img' => run inodestart img' calls

/-- How many inodes are created. -/
def created : List Call → ℕ
  | [] => 0
  | .ialloc _ :: calls => created calls + 1
  | .iappend _ _ :: calls => created calls

/-- The bytes that are appended to an inode. -/
def appended (i : ℕ) : List Call → List Byte
  | [] => []
  | .ialloc _ :: calls => appended i calls
  | .iappend inum p :: calls => (if inum = i then p else []) ++ appended i calls

/-- The calls of `iappend` are on inodes from `first` on that were created before. -/
def OnCreated (first : ℕ) : ℕ → List Call → Prop
  | _, [] => True
  | next, .ialloc _ :: calls => OnCreated first (next + 1) calls
  | next, .iappend inum _ :: calls => first ≤ inum ∧ inum < next ∧ OnCreated first next calls

/-- The call adds bytes to this inode. -/
def Call.On (i : ℕ) : Call → Prop
  | .ialloc _ => False
  | .iappend inum _ => inum = i

/-! ### What is read from the image -/

/-- The block that an inode gives for the bytes at `fbn`. -/
def blockAt (disk : Disk) (din : Dinode) (fbn : ℕ) : ℕ :=
  if fbn < ndirect then din.addr fbn
  else load 4 (disk (din.addr ndirect)) (4 * (fbn - ndirect))

/-- The bytes that an inode leads to. -/
def fileBytes (inodestart : ℕ) (disk : Disk) (inum : ℕ) : List Byte :=
  let din := rinode inodestart disk inum
  (List.range din.size).map fun pos => disk (blockAt disk din (pos / bsize)) (pos % bsize)

/-- The data blocks and the indirect block that an inode leads to. -/
def fileBlocks (inodestart : ℕ) (disk : Disk) (inum : ℕ) : List ℕ :=
  let din := rinode inodestart disk inum
  let ind := din.addr ndirect
  ((List.range ndirect).map din.addr ++ ind :: if ind = 0 then []
    else (List.range nindirect).map fun k => load 4 (disk ind) (4 * k)).filter (· ≠ 0)

/-- The blocks of all inodes from `first` on. -/
def imageBlocks (inodestart first : ℕ) (img : Image) : List ℕ :=
  (List.range' first (img.freeinode - first)).flatMap (fileBlocks inodestart img.disk)

/-- What a call does to the inodes that are there: those that it is not on keep their inode
and their blocks, and `freeblock` advances by the number of blocks that are new. -/
structure Call.Steady (inodestart first : ℕ) (img : Image) (call : Call) (img' : Image) :
    Prop where
  inodes : ∀ i, first ≤ i → i < img.freeinode → ¬call.On i → ∀ o, o < dinodeSize →
    (rinode inodestart img'.disk i).mem o = (rinode inodestart img.disk i).mem o
  blocks : ∀ i, first ≤ i → i < img.freeinode → ¬call.On i →
    ∀ b ∈ fileBlocks inodestart img.disk i, img'.disk b = img.disk b
  freeblock : img'.freeblock = img.freeblock +
    ((imageBlocks inodestart first img').filter (· ∉ imageBlocks inodestart first img)).length

/-- Every call of a run goes through, and is steady. -/
def EachSteady (inodestart first : ℕ) : Image → List Call → Prop
  | _, [] => True
  | img, call :: calls => ∃ img', call.run inodestart img = some img' ∧
      call.Steady inodestart first img img' ∧ EachSteady inodestart first img' calls

section Read

variable {inodestart lo limit first inum i fbn n : ℕ} {disk : Disk} {din : Dinode} {f : File}
  {img : Image} {files : ℕ → File}

/-- The block that an inode gives is that of the file. -/
theorem Maps.blockAt_eq (hm : Maps disk din f) {hi : ℕ} (hok : f.Ok lo hi)
    (hmax : f.data.length ≤ maxfile) (hfbn : fbn < f.data.length) :
    blockAt disk din fbn = f.data.getD fbn 0 := by
  unfold blockAt
  split_ifs with hdirect
  · exact hm.direct fbn hdirect
  · have hind : f.ind ≠ 0 := by
      rw [ne_eq, hok.ind]
      omega
    rw [hm.indirect, hm.words hind (fbn - ndirect) (by unfold maxfile at hmax; omega)]
    congr 1
    omega

/-- A list read past its end. -/
theorem map_getD_range {α : Type} (l : List α) (d : α) (m : ℕ) :
    (List.range (l.length + m)).map (fun k => l.getD k d) = l ++ List.replicate m d := by
  refine List.ext_getElem (by simp) fun k hk hk' => ?_
  rw [List.length_map, List.length_range] at hk
  rw [List.getElem_map, List.getElem_range]
  by_cases hin : k < l.length
  · rw [List.getElem_append_left hin, List.getD_eq_getElem?_getD, List.getElem?_eq_getElem hin]
    rfl
  · rw [List.getElem_append_right (by omega), List.getElem_replicate, getD_length_le (by omega)]

/-- The entries of a list that are not zero, where those after it read as zero. -/
theorem filter_getD {l : List ℕ} (hpos : ∀ x ∈ l, x ≠ 0) (hlen : l.length ≤ n) :
    ((List.range n).map fun k => l.getD k 0).filter (· ≠ 0) = l := by
  obtain ⟨m, rfl⟩ := Nat.exists_eq_add_of_le hlen
  rw [map_getD_range, List.filter_append, List.filter_replicate_of_neg (of_decide_eq_false rfl),
    List.filter_eq_self.2 fun x hx => decide_eq_true (hpos x hx), List.append_nil]

theorem File.Ok.data_pos {hi : ℕ} (h : f.Ok lo hi) : ∀ x ∈ f.data, x ≠ 0 := by
  intro x hx
  have hpos := h.pos
  have hrange := h.range x (List.mem_append_left _ hx)
  omega

theorem dataCount_le {len : ℕ} (h : len ≤ maxfile * bsize) : dataCount len ≤ maxfile := by
  unfold dataCount maxfile ndirect nindirect bsize at *
  omega

/-- **The bytes that an inode leads to** are those of its file. -/
theorem Stored.fileBytes_eq (h : Stored inodestart lo img inum f)
    (hmax : f.bytes.length ≤ maxfile * bsize) : fileBytes inodestart img.disk inum = f.bytes := by
  have hlen : f.data.length ≤ maxfile := h.count ▸ dataCount_le hmax
  unfold fileBytes
  dsimp only
  rw [h.size]
  refine List.ext_getElem (by rw [List.length_map, List.length_range]) fun pos hpos hpos' => ?_
  have hin : pos / bsize < f.data.length := by
    rw [h.count]
    unfold dataCount bsize
    omega
  rw [List.getElem_map, List.getElem_range, h.maps.blockAt_eq h.ok hlen hin, h.content pos hin,
    List.getD_eq_getElem?_getD, List.getElem?_eq_getElem hpos']
  rfl

/-- **The blocks that an inode leads to** are those of its file. -/
theorem Maps.fileBlocks_perm (hm : Maps disk (rinode inodestart disk inum) f) {hi : ℕ}
    (hok : f.Ok lo hi) (hlen : f.data.length ≤ maxfile) :
    (fileBlocks inodestart disk inum).Perm f.blocks := by
  have hdirect : (List.range ndirect).map (rinode inodestart disk inum).addr =
      (List.range ndirect).map fun k => f.data.getD k 0 :=
    List.map_congr_left fun k hk => hm.direct k (List.mem_range.1 hk)
  unfold fileBlocks File.blocks
  dsimp only
  rw [hdirect, hm.indirect]
  by_cases hind : f.ind = 0
  · rw [if_pos hind, if_pos hind, List.filter_append,
      filter_getD hok.data_pos (hok.ind.1 hind), hind]
    exact List.Perm.refl _
  · have hwords : (List.range nindirect).map (fun k => load 4 (disk f.ind) (4 * k)) =
        (List.range nindirect).map fun k => f.data.getD (ndirect + k) 0 :=
      List.map_congr_left fun k hk => hm.words hind k (List.mem_range.1 hk)
    have hall : ((List.range ndirect).map fun k => f.data.getD k 0) ++
        ((List.range nindirect).map fun k => f.data.getD (ndirect + k) 0) =
        (List.range maxfile).map fun k => f.data.getD k 0 := by
      unfold maxfile
      rw [List.range_add, List.map_append, List.map_map]
      rfl
    rw [if_neg hind, if_neg hind, hwords]
    refine (List.perm_middle.filter _).trans ?_
    rw [hall, List.filter_cons, if_pos (decide_eq_true hind), filter_getD hok.data_pos hlen]
    exact (List.perm_append_singleton f.ind f.data).symm

theorem Stored.fileBlocks_perm (h : Stored inodestart lo img inum f)
    (hmax : f.bytes.length ≤ maxfile * bsize) :
    (fileBlocks inodestart img.disk inum).Perm f.blocks :=
  h.maps.fileBlocks_perm h.ok (h.count ▸ dataCount_le hmax)

/-- The blocks of different files are different, and there are no gaps between them. -/
theorem Consistent.blocks_perm (h : Consistent inodestart lo limit first img files) :
    ((List.range' first (img.freeinode - first)).flatMap fun i => (files i).blocks).Perm
      (List.range' lo (img.freeblock - lo)) := by
  have hmem : ∀ i ∈ List.range' first (img.freeinode - first), first ≤ i ∧ i < img.freeinode := by
    intro i hi
    rw [List.mem_range'_1] at hi
    omega
  have hnodup : ((List.range' first (img.freeinode - first)).flatMap
      fun i => (files i).blocks).Nodup := by
    rw [List.nodup_flatMap]
    refine ⟨fun i hi => (h.stored i (hmem i hi).1 (hmem i hi).2).ok.nodup, ?_⟩
    refine List.Nodup.pairwise_of_forall_ne List.nodup_range' fun i hi j hj hne b hb => ?_
    exact h.apart i j (hmem i hi).1 (hmem i hi).2 (hmem j hj).1 (hmem j hj).2 hne b hb
  refine (List.subperm_of_subset hnodup fun b hb => ?_).perm_of_length_le ?_
  · obtain ⟨i, hi, hb⟩ := List.mem_flatMap.1 hb
    have hrange := (h.stored i (hmem i hi).1 (hmem i hi).2).ok.range b hb
    rw [List.mem_range'_1]
    omega
  · have hsum : (List.map (fun i => (files i).blocks.length)
        (List.range' first (img.freeinode - first))).sum =
        ∑ i ∈ Finset.Ico first img.freeinode, (files i).blocks.length := rfl
    have htotal := h.total
    rw [List.length_range', List.length_flatMap, hsum]
    omega

/-- **The blocks of all inodes** are those that were taken from the free ones. -/
theorem Consistent.imageBlocks_perm (h : Consistent inodestart lo limit first img files)
    (hmax : ∀ i, first ≤ i → i < img.freeinode → (files i).bytes.length ≤ maxfile * bsize) :
    (imageBlocks inodestart first img).Perm (List.range' lo (img.freeblock - lo)) := by
  refine (List.Perm.flatMap_left _ fun i hi => ?_).trans h.blocks_perm
  rw [List.mem_range'_1] at hi
  exact (h.stored i hi.1 (by omega)).fileBlocks_perm (hmax i hi.1 (by omega))

end Read

section Run

variable {inodestart ninodes lo limit first next inum i : ℕ} {img img' : Image}
  {files files' : ℕ → File} {call : Call} {calls : List Call}

/-- The blocks that a step took are the new ones of the image. -/
theorem Consistent.freeblock_eq (h : Consistent inodestart lo limit first img files)
    (h' : Consistent inodestart lo limit first img' files') (hle : img.freeblock ≤ img'.freeblock)
    (hmax : ∀ i, first ≤ i → i < img.freeinode → (files i).bytes.length ≤ maxfile * bsize)
    (hmax' : ∀ i, first ≤ i → i < img'.freeinode → (files' i).bytes.length ≤ maxfile * bsize) :
    img'.freeblock = img.freeblock +
      ((imageBlocks inodestart first img').filter
        (· ∉ imageBlocks inodestart first img)).length := by
  have hlo := h.le
  have hmem : ∀ b, b ∈ imageBlocks inodestart first img ↔ lo ≤ b ∧ b < img.freeblock := by
    intro b
    rw [(h.imageBlocks_perm hmax).mem_iff, List.mem_range'_1]
    omega
  have hsplit : List.range' lo (img'.freeblock - lo) = List.range' lo (img.freeblock - lo) ++
      List.range' img.freeblock (img'.freeblock - img.freeblock) := range'_split hlo hle
  have hold : (List.range' lo (img.freeblock - lo)).filter
      (· ∉ imageBlocks inodestart first img) = [] := by
    refine List.filter_eq_nil_iff.2 fun b hb => ?_
    rw [List.mem_range'_1] at hb
    rw [decide_eq_true_iff, not_not, hmem]
    omega
  have hnew : (List.range' img.freeblock (img'.freeblock - img.freeblock)).filter
      (· ∉ imageBlocks inodestart first img) =
      List.range' img.freeblock (img'.freeblock - img.freeblock) := by
    refine List.filter_eq_self.2 fun b hb => ?_
    rw [List.mem_range'_1] at hb
    rw [decide_eq_true_iff, hmem]
    omega
  rw [((h'.imageBlocks_perm hmax').filter _).length_eq, hsplit, List.filter_append, hold, hnew,
    List.nil_append, List.length_range']
  omega

/-- The free blocks suffice for what the calls append. -/
def Room (lo limit first next : ℕ) (files : ℕ → File) (calls : List Call) : Prop :=
  lo + ∑ i ∈ Finset.Ico first (next + created calls),
    blockCount (dataCount ((files i).bytes.length + (appended i calls).length)) ≤ limit

/-- What a file needs for one call is there, where it is there for all calls. -/
theorem Consistent.room (h : Consistent inodestart lo limit first img files) {p : List Byte}
    (hfirst : first ≤ inum) (hinum : inum < img.freeinode)
    (hroom : Room lo limit first img.freeinode files (.iappend inum p :: calls)) :
    img.freeblock + blockCount (dataCount ((files inum).bytes.length + p.length)) ≤
      limit + (files inum).blocks.length := by
  have hmem : inum ∈ Finset.Ico first (img.freeinode + created calls) :=
    Finset.mem_Ico.2 ⟨hfirst, by omega⟩
  have hall : ∑ i ∈ Finset.Ico first (img.freeinode + created calls), (files i).blocks.length =
      ∑ i ∈ Finset.Ico first img.freeinode, (files i).blocks.length := by
    refine (Finset.sum_subset (Finset.Ico_subset_Ico_right (by omega)) fun i hi hi' => ?_).symm
    rw [Finset.mem_Ico] at hi hi'
    rw [h.fresh i (by omega)]
    rfl
  have hothers : ∑ i ∈ (Finset.Ico first (img.freeinode + created calls)).erase inum,
      (files i).blocks.length ≤
      ∑ i ∈ (Finset.Ico first (img.freeinode + created calls)).erase inum,
        blockCount (dataCount ((files i).bytes.length +
          (appended i (.iappend inum p :: calls)).length)) := by
    refine Finset.sum_le_sum fun i hi => ?_
    have hi := Finset.mem_Ico.1 (Finset.mem_of_mem_erase hi)
    by_cases hold : i < img.freeinode
    · have hstored := h.stored i hi.1 hold
      rw [hstored.ok.length_blocks, hstored.count]
      refine blockCount_mono ?_
      unfold dataCount bsize
      omega
    · rw [h.fresh i (Nat.not_lt.1 hold)]
      exact Nat.zero_le _
  have hthis : blockCount (dataCount ((files inum).bytes.length + p.length)) ≤
      blockCount (dataCount ((files inum).bytes.length +
        (appended inum (.iappend inum p :: calls)).length)) := by
    refine blockCount_mono ?_
    rw [appended, if_pos rfl, List.length_append]
    unfold dataCount bsize
    omega
  have htotal := h.total
  have hsum := Finset.add_sum_erase _ (fun i => (files i).blocks.length) hmem
  have hsum' := Finset.add_sum_erase _ (fun i => blockCount (dataCount ((files i).bytes.length +
    (appended i (.iappend inum p :: calls)).length))) hmem
  unfold Room at hroom
  rw [created] at hroom
  omega

theorem created_cons : created (call :: calls) = created [call] + created calls := by
  cases call with
  | ialloc type =>
    rw [created, created, created]
    omega
  | iappend inum p =>
    rw [created, created, created]
    omega

theorem appended_cons (i : ℕ) (call : Call) (calls : List Call) :
    appended i (call :: calls) = appended i [call] ++ appended i calls := by
  cases call with
  | ialloc type => rfl
  | iappend inum p => rw [appended, appended, appended, List.append_nil]

/-- Blocks of a file of the image lie behind the inodes, and are read from its inode. -/
theorem Consistent.mem_blocks (h : Consistent inodestart lo limit first img files)
    (hi : first ≤ i) (hi' : i < img.freeinode)
    (hmax : (files i).bytes.length ≤ maxfile * bsize) {b : ℕ}
    (hb : b ∈ fileBlocks inodestart img.disk i) : b ∈ (files i).blocks ∧ lo ≤ b := by
  have hstored := h.stored i hi hi'
  have hmem := (hstored.fileBlocks_perm hmax).mem_iff.1 hb
  exact ⟨hmem, (hstored.ok.range b hmem).1⟩

/-- **One call** adds its bytes to one file, or a file, and keeps the others. -/
theorem call_spec (hr : Region inodestart ninodes lo) (hlimit : limit < 2 ^ 32)
    (h : Consistent inodestart lo limit first img files)
    (hon : OnCreated first img.freeinode (call :: calls))
    (hcount : img.freeinode + created (call :: calls) ≤ ninodes)
    (hmax : ∀ i, first ≤ i → i < img.freeinode + created (call :: calls) →
      (files i).bytes.length + (appended i (call :: calls)).length ≤ maxfile * bsize)
    (hroom : Room lo limit first img.freeinode files (call :: calls)) :
    ∃ img' files', call.run inodestart img = some img' ∧
      call.Steady inodestart first img img' ∧ Consistent inodestart lo limit first img' files' ∧
      img'.freeinode = img.freeinode + created [call] ∧
      ∀ i, (files' i).bytes = (files i).bytes ++ appended i [call] := by
  have hold : ∀ i, first ≤ i → i < img.freeinode →
      (files i).bytes.length ≤ maxfile * bsize := by
    intro i hi hi'
    have := hmax i hi (by omega)
    omega
  cases call with
  | ialloc type =>
    rw [created] at hcount
    obtain ⟨hnext, hcons, -, hothers, hdisk⟩ := ialloc_spec hr (by omega) type h
    refine ⟨_, files, rfl, ⟨fun i hi hi' _ => hothers i (by omega) (by omega), ?_, ?_⟩, hcons,
      hnext, fun i => (List.append_nil _).symm⟩
    · intro i hi hi' _ b hb
      have hlo := (h.mem_blocks hi hi' (hold i hi hi') hb).2
      exact hdisk b (Nat.ne_of_gt ((hr.iblock_lt (by omega)).trans_le hlo))
    · refine h.freeblock_eq hcons (Nat.le_refl _) hold fun i hi hi' => ?_
      by_cases hnew : i < img.freeinode
      · exact hold i hi hnew
      · rw [h.fresh i (Nat.not_lt.1 hnew)]
        exact Nat.zero_le _
  | iappend inum p =>
    obtain ⟨hfirst, hinum, -⟩ := hon
    rw [created] at hcount
    have hfits : (files inum).bytes.length + p.length ≤ maxfile * bsize := by
      have := hmax inum hfirst (by omega)
      rw [appended, if_pos rfl, List.length_append] at this
      omega
    obtain ⟨img', f', hrun, hbytes, hnext, hle, hcons, -, hothers, hdisk⟩ := iappend_spec hr hlimit p
      h hfirst hinum (by omega) hfits (h.room hfirst hinum hroom)
    refine ⟨img', Function.update files inum f', hrun,
      ⟨fun i hi hi' hne => hothers i (by omega) (Ne.symm hne), ?_, ?_⟩, hcons, hnext, fun i => ?_⟩
    · intro i hi hi' hne b hb
      obtain ⟨hmem, hlo⟩ := h.mem_blocks hi hi' (hold i hi hi') hb
      refine hdisk b (Nat.ne_of_gt ((hr.iblock_lt (by omega)).trans_le hlo)) ?_
      have hapart := hcons.apart i inum hi (by omega) hfirst (by omega) (Ne.symm hne)
      rw [Function.update_of_ne (Ne.symm hne), Function.update_self] at hapart
      exact hapart b hmem
    · refine h.freeblock_eq hcons hle hold fun i hi hi' => ?_
      by_cases heq : i = inum
      · rw [heq, Function.update_self, hbytes, List.length_append]
        exact hfits
      · rw [Function.update_of_ne heq]
        exact hold i hi (by omega)
    · rw [appended, appended, List.append_nil]
      by_cases heq : i = inum
      · rw [heq, Function.update_self, if_pos rfl, hbytes]
      · rw [Function.update_of_ne heq, if_neg (Ne.symm heq), List.append_nil]

/-- **A run**, call by call. -/
theorem run_spec (hr : Region inodestart ninodes lo) (hlimit : limit < 2 ^ 32)
    (h : Consistent inodestart lo limit first img files)
    (hon : OnCreated first img.freeinode calls) (hcount : img.freeinode + created calls ≤ ninodes)
    (hmax : ∀ i, first ≤ i → i < img.freeinode + created calls →
      (files i).bytes.length + (appended i calls).length ≤ maxfile * bsize)
    (hroom : Room lo limit first img.freeinode files calls) :
    ∃ img' files', run inodestart img calls = some img' ∧ EachSteady inodestart first img calls ∧
      Consistent inodestart lo limit first img' files' ∧
      img'.freeinode = img.freeinode + created calls ∧
      ∀ i, (files' i).bytes = (files i).bytes ++ appended i calls := by
  induction calls generalizing img files with
  | nil => exact ⟨img, files, rfl, trivial, h, rfl, fun i => (List.append_nil _).symm⟩
  | cons call calls ih =>
    obtain ⟨img₁, files₁, hrun, hsteady, hcons, hnext, hbytes⟩ :=
      call_spec hr hlimit h hon hcount hmax hroom
    have hsplit : img₁.freeinode + created calls = img.freeinode + created (call :: calls) := by
      rw [created_cons, hnext, Nat.add_assoc]
    have hlength : ∀ i, (files₁ i).bytes.length + (appended i calls).length =
        (files i).bytes.length + (appended i (call :: calls)).length := by
      intro i
      rw [hbytes, appended_cons i call calls, List.length_append, List.length_append, Nat.add_assoc]
    have hon₁ : OnCreated first img₁.freeinode calls := by
      rw [hnext]
      cases call with
      | ialloc type => exact hon
      | iappend inum p => exact hon.2.2
    obtain ⟨img', files', hrest, heach, hcons', hnext', hbytes'⟩ := ih hcons hon₁ (by omega)
      (fun i hi hi' => (hlength i).trans_le (hmax i hi (by omega))) (by
        unfold Room at hroom ⊢
        rw [hsplit]
        simp only [hlength]
        exact hroom)
    refine ⟨img', files', ?_, ⟨img₁, hrun, hsteady, heach⟩, hcons', by omega, fun i => ?_⟩
    · rw [run, hrun]
      exact hrest
    · rw [hbytes', hbytes, List.append_assoc, ← appended_cons]

/-- Before any inode is created. -/
theorem consistent_start (img : Image) (hzero : Zero img.disk img.freeblock limit) :
    Consistent inodestart img.freeblock limit img.freeinode img (fun _ => File.empty) := by
  refine ⟨Nat.le_refl _, Nat.le_refl _, hzero, fun i hi hi' => by omega, fun _ _ => rfl,
    fun i j hi hi' => by omega, ?_⟩
  rw [Finset.Ico_self, Finset.sum_empty, Nat.add_zero]

/-- **What a run leaves.**  Where every sector that is sought is transferred, and the inodes that
the run creates lie before the free blocks, which read as zero and suffice, every call keeps the
other files, each inode leads to the bytes that were appended to it, all blocks are different, and
the allocator has advanced by their number. -/
theorem run_files (inodestart ninodes limit : ℕ) (img : Image) (calls : List Call)
    (hregion : ninodes / ipb + inodestart < img.freeblock) (hinodes : ninodes < 2 ^ 32)
    (hlimit : limit < 2 ^ 32) (hzero : Zero img.disk img.freeblock limit)
    (hon : OnCreated img.freeinode img.freeinode calls)
    (hcount : img.freeinode + created calls ≤ ninodes)
    (hmax : ∀ i, (appended i calls).length ≤ maxfile * bsize)
    (hroom : img.freeblock + ∑ i ∈ Finset.Ico img.freeinode (img.freeinode + created calls),
      blockCount (dataCount (appended i calls).length) ≤ limit) :
    ∃ img', run inodestart img calls = some img' ∧
      EachSteady inodestart img.freeinode img calls ∧
      img'.freeinode = img.freeinode + created calls ∧
      (∀ i, img.freeinode ≤ i → i < img'.freeinode →
        fileBytes inodestart img'.disk i = appended i calls ∧
          (rinode inodestart img'.disk i).size = (appended i calls).length) ∧
      (imageBlocks inodestart img.freeinode img').Nodup ∧
      img'.freeblock = img.freeblock + (imageBlocks inodestart img.freeinode img').length := by
  have hempty : ∀ i, (File.empty.bytes.length + (appended i calls).length) =
      (appended i calls).length := fun i => Nat.zero_add _
  obtain ⟨img', files', hrun, heach, hcons, hnext, hbytes⟩ := run_spec
    ⟨hregion, by omega, hinodes⟩ hlimit (consistent_start img hzero) hon hcount
    (fun i _ _ => (hempty i).trans_le (hmax i)) (by
      unfold Room
      simp only [hempty]
      exact hroom)
  have hfits : ∀ i, (files' i).bytes.length ≤ maxfile * bsize := by
    intro i
    rw [hbytes]
    exact hmax i
  have hperm := hcons.imageBlocks_perm fun i _ _ => hfits i
  refine ⟨img', hrun, heach, hnext, fun i hi hi' => ⟨?_, ?_⟩, ?_, ?_⟩
  · rw [(hcons.stored i hi hi').fileBytes_eq (hfits i), hbytes]
    rfl
  · rw [(hcons.stored i hi hi').size, hbytes]
    rfl
  · exact hperm.nodup_iff.2 List.nodup_range'
  · have hle := hcons.le
    rw [hperm.length_eq, List.length_range']
    omega

/-- A directory with the first bytes of an entry, on an image with two inodes. -/
theorem run_files_two : ∃ img', run 242 ⟨fun _ _ => 0, 1, 244⟩ [.ialloc 1, .iappend 1 [1, 0]] =
    some img' ∧ fileBytes 242 img'.disk 1 = [1, 0] := by
  obtain ⟨img', hrun, -, hnext, hfiles, -, -⟩ := run_files 242 2 300 ⟨fun _ _ => 0, 1, 244⟩
    [.ialloc 1, .iappend 1 [1, 0]] (by decide) (by decide) (by decide) (fun _ _ _ _ _ => rfl)
    ⟨Nat.le_refl _, Nat.lt_succ_self _, trivial⟩ (Nat.le_refl _)
    (fun i => by
      rw [appended, appended, appended, List.append_nil]
      split_ifs <;> decide)
    (by decide)
  refine ⟨img', hrun, (hfiles 1 (Nat.le_refl _) ?_).1⟩
  rw [hnext]
  decide

/-- **`ialloc` has no end.**  Where the blocks after the sector 242 of the inodes are free from
244 on, the inode 32 lies in the first of these, and bytes that are then appended to the
inode 1 change it. -/
theorem ialloc_past_end :
    OnCreated 1 1 (List.replicate 32 (.ialloc 1) ++ [.iappend 1 [7]]) ∧
      ((run 242 ⟨fun _ _ => 0, 1, 244⟩ (List.replicate 32 (.ialloc 1))).map fun img =>
        (rinode 242 img.disk 32).mem 0) = some 1 ∧
      ((run 242 ⟨fun _ _ => 0, 1, 244⟩
        (List.replicate 32 (.ialloc 1) ++ [.iappend 1 [7]])).map fun img =>
          (rinode 242 img.disk 32).mem 0) = some 7 := by
  refine ⟨⟨Nat.le_refl _, by decide, trivial⟩, ?_, ?_⟩
  · decide +kernel
  · decide +kernel

end Run

end Mkfs
end V6User
