import V6User.Fsutil.Paths
import V6User.Vfs.Calls

/-!
# Copying

`fsutil_copy_path` of `lib/fsutil.c` and what it is made of: a regular file is read and written
in pieces, a symbolic link is read and made again, and a directory is copied entry by entry.
The loops and the recursion take fuel.

The calls by which a path is opened and the one that removes an entry are parameters of the
functions (`CopyCalls`), so that conditions may be put on them; the functions of the source are
those at the system calls.
-/

namespace V6User
namespace Fsutil

open Vfs Effect

/-- The calls of a copy that can take a file away, and the one by which what is copied is
opened. -/
structure CopyCalls where
  openRead : Path → Prog Ino
  openWrite : Path → Prog Ino
  unlink : Path → Prog Unit

/-- The system calls. -/
def systemCalls : CopyCalls := ⟨openRead, openWrite, unlink⟩

@[simp] theorem systemCalls_openRead : systemCalls.openRead = openRead := rfl

@[simp] theorem systemCalls_openWrite : systemCalls.openWrite = openWrite := rfl

@[simp] theorem systemCalls_unlink : systemCalls.unlink = unlink := rfl

/-- `fsutil_same_file`. -/
def sameFile (a b : Stat) : Bool := a.ino.dev == b.ino.dev && a.ino.num == b.ino.num

/-- `FSUTIL_COPY_BUFSZ`. -/
def copyBufsz : ℕ := 4096

/-- `while (off < n) { … write(dfd, buf + off, n - off) … }`, where the destination has `pos`
bytes before these. -/
def writeLoop (dfd : Ino) (pos : ℕ) (buf : List UInt8) : ℕ → ℕ → Prog Unit
  | 0, _ => diverge
  | fuel + 1, off => do
    if off < buf.length then
      let w ← write dfd (pos + off) (buf.drop off)
      if w = 0 then throw .eio
      else writeLoop dfd pos buf fuel (off + w)
    else pure ()

/-- The loop that reads and writes, from a position on. -/
def copyLoop (sfd dfd : Ino) : ℕ → ℕ → Prog Unit
  | 0, _ => diverge
  | fuel + 1, pos => do
    let buf ← read sfd pos copyBufsz
    if buf = [] then pure ()
    else
      writeLoop dfd pos buf fuel 0
      copyLoop sfd dfd fuel (pos + buf.length)

/-- `fsutil_copy_regular`, with these calls. -/
def copyRegularVia (c : CopyCalls) (fuel : ℕ) (src dst : Path) (srcSt : Stat) : Prog Unit := do
  let dstSt ← attempt (lstat dst)
  if (match dstSt with
    | .ok dstSt => sameFile srcSt dstSt
    | .error _ => false) then throw .einval
  else
    let sfd ← c.openRead src
    match ← attempt (c.openWrite dst) with
    | .error e => do
      let _ ← attempt (close sfd)
      throw e
    | .ok dfd => do
      let ret ← attempt (copyLoop sfd dfd fuel 0)
      let _ ← attempt (close dfd)
      let _ ← attempt (close sfd)
      match ret with
      | .ok () => chmod dst srcSt.perm
      | .error e => throw e

/-- `fsutil_copy_regular`. -/
def copyRegular : ℕ → Path → Path → Stat → Prog Unit := copyRegularVia systemCalls

/-- `fsutil_copy_symlink`, with these calls. -/
def copySymlinkVia (c : CopyCalls) (maxpath : ℕ) (src dst : Path) : Prog Unit := do
  let target ← readlink src (maxpath - 1)
  if maxpath - 1 ≤ target.length then throw .enametoolong
  else
    match ← attempt (lstat dst) with
    | .ok dstSt =>
      if dstSt.kind = .dir then throw .eisdir
      else do
        c.unlink dst
        symlink target dst
    | .error e => if e ≠ .enoent then throw e else symlink target dst

/-- `fsutil_copy_symlink`. -/
def copySymlink : ℕ → Path → Path → Prog Unit := copySymlinkVia systemCalls

/-- The records of one buffer, where `copy` copies what a path leads to. -/
def copyRecords (maxpath : ℕ) (copy : Path → Path → Prog Unit) (src dst : Path) :
    List Dirent → Prog Unit
  | [] => pure ()
  | de :: rest => do
    if de.reclen = 0 then throw .eio
    else if de.ino ≠ 0 ∧ !isDotOrDotdot de.name.bytes then
      let srcChild ← ofExcept (joinPath maxpath src de.name.bytes)
      let dstChild ← ofExcept (joinPath maxpath dst de.name.bytes)
      copy srcChild dstChild
      copyRecords maxpath copy src dst rest
    else copyRecords maxpath copy src dst rest

/-- The loop over the entries of a directory, from a record on. -/
def copyEntries (maxpath : ℕ) (copy : Path → Path → Prog Unit) (src dst : Path) (fd : Ino) :
    ℕ → ℕ → Prog Unit
  | 0, _ => diverge
  | fuel + 1, pos => do
    let des ← getdents fd pos
    if des = [] then pure ()
    else
      copyRecords maxpath copy src dst des
      copyEntries maxpath copy src dst fd fuel (pos + des.length)

/-- What `fsutil_copy_directory` does before it reads the directory: the destination has to be
another directory, and is made where there is none. -/
def enterDirectory (dst : Path) (srcSt : Stat) : Prog Unit := do
  match ← attempt (lstat dst) with
  | .ok dstSt =>
    if dstSt.kind ≠ .dir then throw .enotdir
    else if sameFile srcSt dstSt then throw .einval
    else pure ()
  | .error e => if e = .enoent then mkdir dst else throw e

/-- `fsutil_copy_directory`, with these calls. -/
def copyDirectoryVia (c : CopyCalls) (maxpath : ℕ) (copy : Path → Path → Prog Unit) (fuel : ℕ)
    (src dst : Path) (srcSt : Stat) (recursive : Bool) : Prog Unit := do
  if !recursive then throw .eisdir
  else
    enterDirectory dst srcSt
    let fd ← c.openRead src
    let ret ← attempt (copyEntries maxpath copy src dst fd fuel 0)
    let _ ← attempt (close fd)
    ofExcept ret

/-- `fsutil_copy_directory`. -/
def copyDirectory :
    ℕ → (Path → Path → Prog Unit) → ℕ → Path → Path → Stat → Bool → Prog Unit :=
  copyDirectoryVia systemCalls

/-- `fsutil_copy_path`, with these calls. -/
def copyPathVia (c : CopyCalls) (maxpath : ℕ) : ℕ → Path → Path → Bool → Prog Unit
  | 0, _, _, _ => diverge
  | fuel + 1, src, dst, recursive => do
    let copy := fun src dst => copyPathVia c maxpath fuel src dst recursive
    let srcSt ← lstat src
    match srcSt.kind with
    | .reg => copyRegularVia c fuel src dst srcSt
    | .lnk => do
      match ← attempt (copySymlinkVia c maxpath src dst) with
      | .ok () => pure ()
      | .error ret => do
        match ← attempt (stat src) with
        | .error _ => throw ret
        | .ok followSt =>
          match followSt.kind with
          | .reg => copyRegularVia c fuel src dst followSt
          | .dir => copyDirectoryVia c maxpath copy fuel src dst followSt recursive
          | _ => throw ret
    | .dir => do
      copyDirectoryVia c maxpath copy fuel src dst srcSt recursive
      chmod dst srcSt.perm
    | .other => throw .eopnotsupp

/-- **`fsutil_copy_path`.** -/
def copyPath : ℕ → ℕ → Path → Path → Bool → Prog Unit := copyPathVia systemCalls

end Fsutil
end V6User
