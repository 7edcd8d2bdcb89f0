import V6User.Mkfs.Files
import V6User.Tools.Seek

/-!
# The seeks of `mkfs_xv6fs`

`programs/mkfs_xv6fs/mkfs_xv6fs.c`: `wsect` and `rsect`, and which sectors `rinode`, `winode`,
`ialloc` and `iappend` hand to them.

`wsect` and `rsect` seek their sector and end the program where `lseek`, which returns an `int`,
is negative.  A kernel that answers a seek with the offset is taken for one that failed from the
sector 2²¹ on, so that a program that has written all sectors of a file system had no more of
them (`le_of_transfer`).
-/

namespace V6User
namespace Mkfs

open Shell (Byte)
open Tools Bytes CInt

/-- The seeks of `wsect` and `rsect` for some sectors: `none` is `exit(1)`. -/
def transfer (sys : ℤ → ℤ) (sectors : List ℕ) : Option Unit :=
  if ∀ sec ∈ sectors, (sectorSeek sys 0 sec).isSome then some () else none

/-- The sectors that `rinode` seeks. -/
def rinodeSectors (inodestart inum : ℕ) : List ℕ := [iblock inodestart inum]

/-- The sectors that `winode` seeks: it reads its sector before it writes it. -/
def winodeSectors (inodestart inum : ℕ) : List ℕ :=
  [iblock inodestart inum, iblock inodestart inum]

/-- The sectors that one turn of the loop of `iappend` seeks. -/
def Cursor.turnSectors (c : Cursor) : List ℕ :=
  let fbn := c.off / bsize
  let r := c.dataBlock fbn
  let indirect :=
    if fbn < ndirect then []
    else
      let ind := r.1.din.addr ndirect
      if load 4 (c.disk ind) (4 * (fbn - ndirect)) = 0 then [ind, ind] else [ind]
  indirect ++ [r.2, r.2]

/-- The sectors that the loop of `iappend` seeks. -/
def appendSectors (c : Cursor) (p : List Byte) : List ℕ :=
  if _ : p = [] then []
  else if maxfile ≤ c.off / bsize then []
  else
    c.turnSectors ++
      appendSectors (c.put p) (p.drop (min ((c.off / bsize + 1) * bsize - c.off) p.length))
termination_by p.length
decreasing_by
  have hpos : 0 < p.length := List.length_pos_iff.2 ‹_›
  have hroom : c.off < (c.off / bsize + 1) * bsize := by
    unfold bsize
    omega
  rw [List.length_drop]
  omega

/-- The sectors that `iappend(inum, xp, n)` seeks. -/
def iappendSectors (inodestart : ℕ) (img : Image) (inum : ℕ) (p : List Byte) : List ℕ :=
  let din := rinode inodestart img.disk inum
  rinodeSectors inodestart inum ++
    (appendSectors ⟨img.disk, img.freeblock, din, din.size⟩ p ++ winodeSectors inodestart inum)

/-- A kernel that answers a seek with the offset, or with the number of an error. -/
def Answers (sys : ℤ → ℤ) : Prop :=
  ∀ offset, 0 ≤ offset → offset < 2 ^ 63 →
    sys offset = offset ∨ (-4095 ≤ sys offset ∧ sys offset < 0)

section Transfer

variable {sys : ℤ → ℤ} {sectors : List ℕ} {n sec : ℕ}

theorem transfer_eq_some_iff :
    transfer sys sectors = some () ↔ ∀ sec ∈ sectors, (sectorSeek sys 0 sec).isSome := by
  unfold transfer
  by_cases h : ∀ sec ∈ sectors, (sectorSeek sys 0 sec).isSome
  · rw [if_pos h]
    exact iff_of_true rfl h
  · rw [if_neg h]
    exact iff_of_false (Option.some_ne_none ()).symm h

/-- A sector that was sought once is sought again. -/
theorem transfer_of_lt (h : transfer sys (List.range n) = some ()) (hlt : ∀ sec ∈ sectors, sec < n) :
    transfer sys sectors = some () :=
  transfer_eq_some_iff.2 fun sec hsec =>
    transfer_eq_some_iff.1 h sec (List.mem_range.2 (hlt sec hsec))

/-- The seek of a sector that goes through has a low offset. -/
theorem lowOffset_of_isSome (hs : Answers sys) (hsec : sec < 2 ^ 32)
    (h : (sectorSeek sys 0 sec).isSome) : LowOffset (sec * Tools.bsize) := by
  have hoff : int64 (sec * Tools.bsize) = sec * Tools.bsize := by
    refine int64_of_range ?_ ?_ <;> unfold Tools.bsize <;> omega
  unfold sectorSeek at h
  dsimp only at h
  rw [hoff] at h
  have hneg : ¬lseek sys (sec * Tools.bsize) < 0 := by
    intro hneg
    rw [if_pos hneg] at h
    cases h
  have hpos : 0 ≤ (sec : ℤ) * Tools.bsize := by unfold Tools.bsize; omega
  rcases hs (sec * Tools.bsize) hpos (by unfold Tools.bsize; omega) with heq | ⟨hlo, hhi⟩
  · rw [lseek, heq, int32_neg_iff] at hneg
    exact Int.not_le.1 hneg
  · rw [lseek, int32_of_range (by omega) (by omega)] at hneg
    exact absurd hhi hneg

/-- **All sectors that are transferred lie below 2²¹.** -/
theorem le_of_transfer (hs : Answers sys) (hn : n < 2 ^ 32)
    (h : transfer sys (List.range n) = some ()) : n ≤ 2 ^ 21 :=
  (forall_lowOffset_iff n).1 fun sec hsec =>
    lowOffset_of_isSome hs (hsec.trans hn) (transfer_eq_some_iff.1 h sec (List.mem_range.2 hsec))

/-- A kernel that does all seeks is taken to do those below 2²¹. -/
theorem transfer_of_seeks (hs : Seeks sys) (hn : n ≤ 2 ^ 21) :
    transfer sys (List.range n) = some () := by
  refine transfer_eq_some_iff.2 fun sec hsec => ?_
  have hlow := (forall_lowOffset_iff n).2 hn sec (List.mem_range.1 hsec)
  have hseek : sectorSeek sys 0 sec = some (sec * Tools.bsize) :=
    (sectorSeek_iff hs ((List.mem_range.1 hsec).trans (by omega))).2 hlow
  rw [hseek]
  rfl

end Transfer

section Append

variable {inodestart inum : ℕ} {img img' : Image} {p : List Byte}

/-- **The sectors of a call that stays in the first block**: that of the inode and the block. -/
theorem iappendSectors_eq (hp : p ≠ [])
    (hroom : (rinode inodestart img.disk inum).size + p.length ≤ bsize)
    (hrun : iappend inodestart img inum p = some img') :
    iappendSectors inodestart img inum p =
      [iblock inodestart inum, (rinode inodestart img'.disk inum).addr 0,
        (rinode inodestart img'.disk inum).addr 0, iblock inodestart inum,
        iblock inodestart inum] := by
  have hlen := List.length_pos_iff.2 hp
  obtain ⟨c, hc⟩ : ∃ c : Cursor, c = ⟨img.disk, img.freeblock, rinode inodestart img.disk inum,
      (rinode inodestart img.disk inum).size⟩ := ⟨_, rfl⟩
  have hoff : c.off = (rinode inodestart img.disk inum).size := by rw [hc]
  have hfbn : c.off / bsize = 0 := Nat.div_eq_of_lt (by omega)
  have hmax : ¬maxfile ≤ c.off / bsize := by
    rw [hfbn]
    decide
  -- one turn takes all of the bytes
  have hrest : p.drop (min ((c.off / bsize + 1) * bsize - c.off) p.length) = [] := by
    rw [hfbn]
    exact List.drop_eq_nil_of_le (by omega)
  have hloop : appendLoop c p = some (c.put p) := by
    rw [appendLoop, dif_neg hp, if_neg hmax, hrest, appendLoop, dif_pos rfl]
  have hblock : (c.dataBlock 0).2 = (c.dataBlock 0).1.din.addr 0 := by
    unfold Cursor.dataBlock
    rw [if_pos (by decide)]
  have haddr : (rinode inodestart img'.disk inum).addr 0 = (c.dataBlock 0).2 := by
    unfold iappend at hrun
    dsimp only at hrun
    rw [← hc, hloop] at hrun
    obtain rfl := Option.some.inj hrun
    refine (addr_congr (fun o ho => rinode_winode ho) (Nat.zero_le _)).trans ?_
    rw [Dinode.addr_setSize, hblock]
    show (c.dataBlock (c.off / bsize)).1.din.addr 0 = _
    rw [hfbn]
  have hturn : c.turnSectors = [(c.dataBlock 0).2, (c.dataBlock 0).2] := by
    unfold Cursor.turnSectors
    dsimp only
    rw [hfbn, if_pos (by decide), List.nil_append]
  unfold iappendSectors
  dsimp only
  rw [← hc, appendSectors, dif_neg hp, if_neg hmax, hrest, appendSectors, dif_pos rfl, hturn,
    haddr]
  rfl

end Append

end Mkfs
end V6User
