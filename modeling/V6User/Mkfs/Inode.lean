import Mathlib.Logic.Function.Basic
import V6User.Base.Bytes
import V6User.Shell.Token

/-!
# Inodes and blocks of an image

`programs/mkfs_xv6fs/mkfs_xv6fs.c`: `struct dinode`, `winode`, `rinode`, `ialloc` and
`iappend`.

A sector is a memory of 1024 bytes and the image gives the sector with each number.  A
`struct dinode` is the 64 bytes that it has in a sector; `xint` and `xshort` leave a number
as it is on a machine whose numbers have their low byte first.  Every transfer of a sector
succeeds.
-/

namespace V6User
namespace Mkfs

open Shell (Byte)
open Bytes

/-- `BSIZE`. -/
def bsize : ℕ := 1024

/-- `NDIRECT`. -/
def ndirect : ℕ := 11

/-- `NINDIRECT`. -/
def nindirect : ℕ := 256

/-- `MAXFILE`. -/
def maxfile : ℕ := ndirect + nindirect

/-- `sizeof(struct dinode)`. -/
def dinodeSize : ℕ := 64

/-- `IPB`. -/
def ipb : ℕ := bsize / dinodeSize

/-- `struct dinode`, as its bytes. -/
structure Dinode where
  mem : Mem

namespace Dinode

/-- The fields `type`, `nlink`, `size` and `addrs`. -/
def type (din : Dinode) : ℕ := load 2 din.mem 0
def nlink (din : Dinode) : ℕ := load 2 din.mem 6
def size (din : Dinode) : ℕ := load 4 din.mem 8
def addr (din : Dinode) (k : ℕ) : ℕ := load 4 din.mem (12 + 4 * k)

/-- Assignments to them. -/
def setType (din : Dinode) (x : ℕ) : Dinode := ⟨store 2 din.mem 0 x⟩
def setNlink (din : Dinode) (x : ℕ) : Dinode := ⟨store 2 din.mem 6 x⟩
def setSize (din : Dinode) (x : ℕ) : Dinode := ⟨store 4 din.mem 8 x⟩
def setAddr (din : Dinode) (k x : ℕ) : Dinode := ⟨store 4 din.mem (12 + 4 * k) x⟩

end Dinode

/-- The sectors of an image. -/
abbrev Disk := ℕ → Mem

/-- The image with the allocators' `freeinode` and `freeblock`. -/
structure Image where
  disk : Disk
  freeinode : ℕ
  freeblock : ℕ

/-- `IBLOCK(i, sb)`, with `sb.inodestart`. -/
def iblock (inodestart inum : ℕ) : ℕ := (inum / ipb + inodestart) % 2 ^ 32

/-- `rinode(inum, ip)`. -/
def rinode (inodestart : ℕ) (disk : Disk) (inum : ℕ) : Dinode :=
  ⟨view (disk (iblock inodestart inum)) (inum % ipb * dinodeSize)⟩

/-- `winode(inum, ip)`. -/
def winode (inodestart : ℕ) (disk : Disk) (inum : ℕ) (din : Dinode) : Disk :=
  let bn := iblock inodestart inum
  Function.update disk bn (copy (disk bn) (inum % ipb * dinodeSize) din.mem dinodeSize)

/-- `x++` for a `uint`. -/
def succ (x : ℕ) : ℕ := (x + 1) % 2 ^ 32

/-- `ialloc(type)`. -/
def ialloc (inodestart : ℕ) (img : Image) (type : ℕ) : ℕ × Image :=
  let inum := img.freeinode
  let din : Dinode := ⟨fun _ => 0⟩
  let din := ((din.setType (type % 2 ^ 16)).setNlink 1).setSize 0
  (inum, { img with freeinode := succ inum, disk := winode inodestart img.disk inum din })

/-- The variables of `iappend`, with the image that it works on. -/
structure Cursor where
  disk : Disk
  freeblock : ℕ
  din : Dinode
  off : ℕ

/-- The block for the bytes at `fbn`, which is taken from the free ones where there is
none, as is the indirect block. -/
def Cursor.dataBlock (c : Cursor) (fbn : ℕ) : Cursor × ℕ :=
  if fbn < ndirect then
    let c := if c.din.addr fbn = 0 then
        { c with din := c.din.setAddr fbn c.freeblock, freeblock := succ c.freeblock }
      else c
    (c, c.din.addr fbn)
  else
    let c := if c.din.addr ndirect = 0 then
        { c with din := c.din.setAddr ndirect c.freeblock, freeblock := succ c.freeblock }
      else c
    let indirect := c.disk (c.din.addr ndirect)
    let o := 4 * (fbn - ndirect)
    if load 4 indirect o = 0 then
      let indirect := store 4 indirect o c.freeblock
      ({ c with
        disk := Function.update c.disk (c.din.addr ndirect) indirect
        freeblock := succ c.freeblock }, load 4 indirect o)
    else (c, load 4 indirect o)

/-- What one turn of the loop of `iappend` writes, `n1` bytes of `p`. -/
def Cursor.put (c : Cursor) (p : List Byte) : Cursor :=
  let fbn := c.off / bsize
  let r := c.dataBlock fbn
  let n1 := min ((fbn + 1) * bsize - c.off) p.length
  let buf := copy (r.1.disk r.2) (c.off - fbn * bsize) (fun j => p.getD j 0) n1
  { r.1 with disk := Function.update r.1.disk r.2 buf, off := c.off + n1 }

/-- The loop of `iappend`: `none` is `exit(1)`. -/
def appendLoop (c : Cursor) (p : List Byte) : Option Cursor :=
  if _ : p = [] then some c
  else if maxfile ≤ c.off / bsize then none
  else appendLoop (c.put p) (p.drop (min ((c.off / bsize + 1) * bsize - c.off) p.length))
termination_by p.length
decreasing_by
  have hpos : 0 < p.length := List.length_pos_iff.2 ‹_›
  have hroom : c.off < (c.off / bsize + 1) * bsize := by
    unfold bsize
    omega
  rw [List.length_drop]
  omega

/-- `iappend(inum, xp, n)`. -/
def iappend (inodestart : ℕ) (img : Image) (inum : ℕ) (p : List Byte) : Option Image :=
  let din := rinode inodestart img.disk inum
  (appendLoop ⟨img.disk, img.freeblock, din, din.size⟩ p).map fun c =>
    { img with
      disk := winode inodestart c.disk inum (c.din.setSize c.off)
      freeblock := c.freeblock }

/-! ### Fields -/

section Fields

variable {din din' : Dinode} {x k k' : ℕ}

@[simp] theorem Dinode.size_setAddr : (din.setAddr k x).size = din.size :=
  load_store_of_disjoint (by omega)

@[simp] theorem Dinode.size_setNlink : (din.setNlink x).size = din.size :=
  load_store_of_disjoint (by omega)

@[simp] theorem Dinode.addr_setSize : (din.setSize x).addr k = din.addr k :=
  load_store_of_disjoint (by omega)

@[simp] theorem Dinode.addr_setNlink : (din.setNlink x).addr k = din.addr k :=
  load_store_of_disjoint (by omega)

@[simp] theorem Dinode.addr_setType : (din.setType x).addr k = din.addr k :=
  load_store_of_disjoint (by omega)

theorem Dinode.size_setSize (hx : x < 2 ^ 32) : (din.setSize x).size = x :=
  load_store_self hx

theorem Dinode.nlink_setNlink (hx : x < 2 ^ 16) : (din.setNlink x).nlink = x :=
  load_store_self hx

theorem Dinode.addr_setAddr_self (hx : x < 2 ^ 32) : (din.setAddr k x).addr k = x :=
  load_store_self hx

theorem Dinode.addr_setAddr_of_ne (h : k' ≠ k) : (din.setAddr k x).addr k' = din.addr k' :=
  load_store_of_disjoint (by omega)

end Fields

end Mkfs
end V6User
