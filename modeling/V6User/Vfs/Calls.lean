import V6User.Base.Effect
import V6User.Vfs.Change

/-!
# System calls on files

The calls that `lib/fsutil.c` makes, as they are specified.  The kernel decides what the
specification leaves open: how many bytes or records a call transfers, which slot of a
directory an entry takes, whether a removed one stays as a dead record, the mode of what is
made, and whether the call reports an error (`Outcome`).  A call that reports an error changes
nothing, and that a path does not exist is reported exactly where it does not.  The calls that
were made are kept, last one first.

A descriptor is the inode that it stands for; where in the file or the directory the next
transfer begins is counted by the loops that make it.
-/

namespace V6User
namespace Vfs

/-- The calls. -/
inductive Call where
  | lstat (path : Path)
  | stat (path : Path)
  | openRead (path : Path)
  | openWrite (path : Path)
  | read
  | write
  | getdents
  | mkdir (path : Path)
  | symlink (target path : Path)
  | readlink (path : Path)
  | unlink (path : Path)
  | chmod (path : Path)
  | close (fd : Ino)

/-- What the kernel decides about a call. -/
structure Outcome where
  fault : Option { e : Errno // e ≠ .enoent }
  count : ℕ
  slot : ℕ
  dead : Bool
  mode : ℕ

/-- The file system, the kernel's decisions about the calls in their order, and the calls. -/
structure World where
  fs : Fs
  env : ℕ → Call → Outcome
  calls : List Call

/-- Programs. -/
abbrev Prog := Effect World Errno

/-- A call that does what `f` says, unless it reports an error. -/
def sys {α : Type} (c : Call) (f : Outcome → Fs → Except Errno (α × Fs)) : Prog α := fun w =>
  let o := w.env w.calls.length c
  match o.fault with
  | some e => some (.error e, { w with calls := c :: w.calls })
  | none =>
    match f o w.fs with
    | .error e => some (.error e, { w with calls := c :: w.calls })
    | .ok (a, fs') => some (.ok a, { w with fs := fs', calls := c :: w.calls })

/-- A call that changes nothing. -/
def look {α : Type} (c : Call) (f : Outcome → Fs → Except Errno α) : Prog α :=
  sys c fun o fs => (f o fs).map fun a => (a, fs)

/-- A call that changes the file system and gives no result. -/
def change (c : Call) (f : Outcome → Fs → Except Errno Fs) : Prog Unit :=
  sys c fun o fs => (f o fs).map fun fs' => ((), fs')

/-- The file type of `st_mode`. -/
inductive Kind where
  | reg
  | lnk
  | dir
  | other
  deriving DecidableEq

/-- `struct stat`: `st_dev` and `st_ino`, and the file type and the permission bits of
`st_mode`. -/
structure Stat where
  ino : Ino
  kind : Kind
  perm : ℕ

/-- The file type of an inode. -/
def Node.kind : Node → Kind
  | .reg _ _ => .reg
  | .lnk _ => .lnk
  | .dir _ _ _ => .dir
  | .other _ => .other

/-- The permission bits of an inode; those of a link are not used. -/
def Node.perm : Node → ℕ
  | .reg mode _ => mode
  | .lnk _ => 0
  | .dir mode _ _ => mode
  | .other mode => mode

/-- What `lstat` and `stat` give. -/
def Fs.statOf (fs : Fs) (follow : Bool) (path : Path) : Except Errno Stat :=
  (fs.get follow path).map fun x => ⟨x.1, x.2.kind, x.2.perm⟩

/-- `lstat(path)`. -/
def lstat (path : Path) : Prog Stat := look (.lstat path) fun _ fs => fs.statOf false path

/-- `stat(path)`. -/
def stat (path : Path) : Prog Stat := look (.stat path) fun _ fs => fs.statOf true path

/-- `open(path, O_RDONLY)`. -/
def openRead (path : Path) : Prog Ino :=
  look (.openRead path) fun _ fs => (fs.get true path).map Prod.fst

/-- The bytes of an inode that is a file. -/
def Node.setData (data : List UInt8) : Node → Node
  | .reg mode _ => .reg mode data
  | x => x

/-- The permission bits of an inode that has them. -/
def Node.setMode (mode : ℕ) : Node → Node
  | .reg _ data => .reg mode data
  | .lnk target => .lnk target
  | .dir _ up slots => .dir mode up slots
  | .other _ => .other mode

theorem sameShape_setData (data : List UInt8) (x : Node) : SameShape x (x.setData data) := by
  cases x with
  | reg mode old => exact .reg _ _ _ _
  | lnk target => exact .lnk _
  | dir mode up slots => exact .dir _ _ _ _
  | other mode => exact .other _ _

theorem sameShape_setMode (mode : ℕ) (x : Node) : SameShape x (x.setMode mode) := by
  cases x with
  | reg old data => exact .reg _ _ _ _
  | lnk target => exact .lnk _
  | dir old up slots => exact .dir _ _ _ _
  | other old => exact .other _ _

/-- An inode with an entry that was missing. -/
def Fs.makeAt (fs : Fs) (d : Ino) (n : Name) (k : ℕ) (x : New) : Except Errno (Ino × Fs) :=
  match h : fs.node.entry d n with
  | .error e => .error e
  | .ok (some _) => .error .eexist
  | .ok none => .ok (fs.new d, fs.make d n k x h)

/-- An inode is emptied, unless it is a directory. -/
def Fs.truncate (fs : Fs) (i : Ino) : Except Errno (Ino × Fs) :=
  match fs.node i with
  | some (.dir _ _ _) => .error .eisdir
  | _ => .ok (i, fs.alter i (Node.setData []) (sameShape_setData []))

/-- The file that a path leads to, made where there is none and emptied where there is one. -/
def Fs.openWrite (fs : Fs) (k mode : ℕ) (path : Path) : Except Errno (Ino × Fs) :=
  match fs.find true path with
  | .error e => .error e
  | .ok (.entry d n none) => fs.makeAt d n k (.file mode)
  | .ok (.top i) | .ok (.entry _ _ (some i)) => fs.truncate i

/-- `open(path, O_WRONLY | O_CREAT | O_TRUNC)`. -/
def openWrite (path : Path) : Prog Ino :=
  sys (.openWrite path) fun o fs => fs.openWrite o.slot o.mode path

/-- `close(fd)`. -/
def close (fd : Ino) : Prog Unit := look (.close fd) fun _ _ => .ok ()

/-- `read(fd, buf, size)` from a position on: at least one byte, before the end. -/
def read (fd : Ino) (pos size : ℕ) : Prog (List UInt8) :=
  look .read fun o fs =>
    match fs.node fd with
    | some (.reg _ data) => .ok ((data.drop pos).take (min (max o.count 1) size))
    | some (.dir _ _ _) => .error .eisdir
    | _ => .error .einval

/-- Bytes from a position on, with zeros before them where there are none. -/
def writeAt (data : List UInt8) (pos : ℕ) (bytes : List UInt8) : List UInt8 :=
  (data ++ List.replicate (pos - data.length) 0).take pos ++ bytes ++
    data.drop (pos + bytes.length)

/-- The bytes are put into a file. -/
def Fs.write (fs : Fs) (fd : Ino) (pos : ℕ) (bytes : List UInt8) : Except Errno (ℕ × Fs) :=
  match fs.node fd with
  | some (.reg _ data) =>
    .ok (bytes.length, fs.alter fd (Node.setData (writeAt data pos bytes)) (sameShape_setData _))
  | _ => .error .einval

/-- `write(fd, buf, n)` at a position. -/
def write (fd : Ino) (pos : ℕ) (buf : List UInt8) : Prog ℕ :=
  sys .write fun o fs => fs.write fd pos (buf.take o.count)

/-- `struct linux_dirent64`; `ino` is zero for a dead slot. -/
structure Dirent where
  ino : ℕ
  reclen : ℕ
  name : Name

/-- The record of a slot. -/
def Slot.dirent (s : Slot) : Dirent where
  ino := match s.ino with
    | some i => i.num + 1
    | none => 0
  reclen := 20 + s.name.bytes.length
  name := s.name

/-- `getdents(fd, buf, size)` from a record on: at least one, before the end. -/
def getdents (fd : Ino) (pos : ℕ) : Prog (List Dirent) :=
  look .getdents fun o fs =>
    match fs.node fd with
    | some (.dir _ _ slots) => .ok (((slots.drop pos).take (max o.count 1)).map Slot.dirent)
    | _ => .error .enotdir

/-- What is made at a place where nothing is. -/
def Fs.makeNew (fs : Fs) (place : Except Errno Place) (k : ℕ) (x : New) : Except Errno Fs :=
  match place with
  | .error e => .error e
  | .ok (.entry d n none) => (fs.makeAt d n k x).map Prod.snd
  | .ok _ => .error .eexist

/-- `mkdir(path)`. -/
def mkdir (path : Path) : Prog Unit :=
  change (.mkdir path) fun o fs => fs.makeNew (fs.findEntry path) o.slot (.folder o.mode)

/-- `symlink(target, path)`. -/
def symlink (target path : Path) : Prog Unit :=
  change (.symlink target path) fun o fs => fs.makeNew (fs.find false path) o.slot (.link target)

/-- `readlink(path, buf, size)`. -/
def readlink (path : Path) (size : ℕ) : Prog Path :=
  look (.readlink path) fun _ fs =>
    match fs.get false path with
    | .error e => .error e
    | .ok (_, .lnk target) => .ok (target.take size)
    | .ok _ => .error .einval

/-- The directory has no entries but `.` and `..`. -/
def slotsEmpty (slots : List Slot) : Bool :=
  slots.all fun s => s.ino.isNone || decide s.name.IsDots

/-- The file system without the entry that a path names: a directory has to be empty. -/
def Fs.unlink (fs : Fs) (dead : Bool) (path : Path) : Except Errno Fs :=
  match fs.findEntry path with
  | .error e => .error e
  | .ok (.top _) => .error .ebusy
  | .ok (.entry _ _ none) => .error .enoent
  | .ok (.entry d n (some i)) =>
    if n.IsDots then .error .einval
    else if i.dev ≠ d.dev then .error .ebusy
    else match fs.node i with
      | some (.dir _ _ slots) => if slotsEmpty slots then .ok (fs.remove dead d n) else .error .enotempty
      | _ => if WantsDir path then .error .enotdir else .ok (fs.remove dead d n)

/-- `unlink(path)`. -/
def unlink (path : Path) : Prog Unit := change (.unlink path) fun o fs => fs.unlink o.dead path

/-- `fchmodat(AT_FDCWD, path, mode, 0)`. -/
def chmod (path : Path) (mode : ℕ) : Prog Unit :=
  change (.chmod path) fun _ fs =>
    (fs.get true path).map fun x => fs.alter x.1 (Node.setMode mode) (sameShape_setMode mode)

/-! ### What a call does -/

open Effect

section Sys

variable {α : Type} {c : Call} {w w' : World}

/-- **A call** is noted, and it either reports an error that the kernel decides on, or does
what it is to do. -/
theorem runs_sys_outcome {f : Outcome → Fs → Except Errno (α × Fs)} {r : Except Errno α}
    (h : Runs (sys c f) w r w') : w'.env = w.env ∧ w'.calls = c :: w.calls ∧
      ((∃ e, (w.env w.calls.length c).fault = some e ∧ r = .error e.1 ∧ w'.fs = w.fs) ∨
        (w.env w.calls.length c).fault = none ∧
          ((∃ e, f (w.env w.calls.length c) w.fs = .error e ∧ r = .error e ∧ w'.fs = w.fs) ∨
            ∃ a, f (w.env w.calls.length c) w.fs = .ok (a, w'.fs) ∧ r = .ok a)) := by
  unfold Runs sys at h
  dsimp only at h
  split at h
  · next e he =>
    obtain ⟨rfl, rfl⟩ := Prod.mk.inj (Option.some.inj h)
    exact ⟨rfl, rfl, .inl ⟨e, he, rfl, rfl⟩⟩
  · next hfault =>
    split at h
    · next e he =>
      obtain ⟨rfl, rfl⟩ := Prod.mk.inj (Option.some.inj h)
      exact ⟨rfl, rfl, .inr ⟨hfault, .inl ⟨e, he, rfl, rfl⟩⟩⟩
    · next a fs' hok =>
      obtain ⟨rfl, rfl⟩ := Prod.mk.inj (Option.some.inj h)
      exact ⟨rfl, rfl, .inr ⟨hfault, .inr ⟨a, hok, rfl⟩⟩⟩

/-- What a call does, whatever the kernel decides. -/
theorem runs_sys {f : Outcome → Fs → Except Errno (α × Fs)} {r : Except Errno α}
    (h : Runs (sys c f) w r w') : w'.env = w.env ∧ w'.calls = c :: w.calls ∧
      ((∃ e, r = .error e ∧ w'.fs = w.fs ∧ (e = .enoent → ∃ o, f o w.fs = .error e)) ∨
        ∃ o a, f o w.fs = .ok (a, w'.fs) ∧ r = .ok a) := by
  obtain ⟨henv, hcalls, ⟨e, -, hr, hfs⟩ | ⟨-, ⟨e, he, hr, hfs⟩ | ⟨a, hok, hr⟩⟩⟩ :=
    runs_sys_outcome h
  · exact ⟨henv, hcalls, .inl ⟨e.1, hr, hfs, fun hnone => absurd hnone e.2⟩⟩
  · exact ⟨henv, hcalls, .inl ⟨e, hr, hfs, fun _ => ⟨_, he⟩⟩⟩
  · exact ⟨henv, hcalls, .inr ⟨_, a, hok, hr⟩⟩

/-- A call ends. -/
theorem exists_runs_sys (c : Call) (f : Outcome → Fs → Except Errno (α × Fs)) (w : World) :
    ∃ r w', Runs (sys c f) w r w' := by
  unfold Runs sys
  dsimp only
  split
  · exact ⟨_, _, rfl⟩
  · split
    · exact ⟨_, _, rfl⟩
    · exact ⟨_, _, rfl⟩

theorem exists_runs_look (c : Call) (f : Outcome → Fs → Except Errno α) (w : World) :
    ∃ r w', Runs (look c f) w r w' := exists_runs_sys _ _ w

theorem exists_runs_change (c : Call) (f : Outcome → Fs → Except Errno Fs) (w : World) :
    ∃ r w', Runs (change c f) w r w' := exists_runs_sys _ _ w

/-- A call that only looks. -/
theorem runs_look {f : Outcome → Fs → Except Errno α} {r : Except Errno α}
    (h : Runs (look c f) w r w') : w'.fs = w.fs ∧
      ((∃ e, r = .error e ∧ (e = .enoent → ∃ o, f o w.fs = .error e)) ∨
        ∃ o a, f o w.fs = .ok a ∧ r = .ok a) := by
  obtain ⟨-, -, ⟨e, rfl, hfs, he⟩ | ⟨o, a, hf, rfl⟩⟩ := runs_sys h
  · refine ⟨hfs, .inl ⟨e, rfl, fun hnone => ?_⟩⟩
    obtain ⟨o, ho⟩ := he hnone
    rcases hf : f o w.fs with e' | a
    · rw [hf] at ho
      exact ⟨o, hf.trans (congrArg _ (Except.error.inj ho))⟩
    · rw [hf] at ho
      exact absurd ho nofun
  · rcases hfo : f o w.fs with e | b
    · rw [hfo] at hf
      exact absurd hf nofun
    · rw [hfo] at hf
      obtain ⟨rfl, hfs⟩ := Prod.mk.inj (Except.ok.inj hf)
      exact ⟨hfs.symm, .inr ⟨o, b, hfo, rfl⟩⟩

/-- The kernel reports no error of its own. -/
def Calm (env : ℕ → Call → Outcome) : Prop := ∀ k c, (env k c).fault = none

/-- A call that only looks, with what the kernel decides about it. -/
theorem runs_look_outcome {f : Outcome → Fs → Except Errno α} {r : Except Errno α}
    (h : Runs (look c f) w r w') : w'.fs = w.fs ∧ w'.env = w.env ∧
      ((∃ e, (w.env w.calls.length c).fault = some e ∧ r = .error e.1) ∨
        r = f (w.env w.calls.length c) w.fs) := by
  obtain ⟨henv, -, ⟨e, he, hr, hfs⟩ | ⟨-, ⟨e, he, rfl, hfs⟩ | ⟨a, ha, rfl⟩⟩⟩ :=
    runs_sys_outcome h
  · exact ⟨hfs, henv, .inl ⟨e, he, hr⟩⟩
  · refine ⟨hfs, henv, .inr ?_⟩
    rcases hf : f (w.env w.calls.length c) w.fs with e' | a
    · rw [hf] at he
      exact congrArg _ (Except.error.inj he).symm
    · rw [hf] at he
      exact absurd he nofun
  · rcases hf : f (w.env w.calls.length c) w.fs with e' | b
    · rw [hf] at ha
      exact absurd ha nofun
    · rw [hf] at ha
      obtain ⟨rfl, hfs⟩ := Prod.mk.inj (Except.ok.inj ha)
      exact ⟨hfs.symm, henv, .inr rfl⟩

/-- A call that changes the file system, with what the kernel decides about it. -/
theorem runs_change_outcome {f : Outcome → Fs → Except Errno Fs} {r : Except Errno Unit}
    (h : Runs (change c f) w r w') : w'.env = w.env ∧
      ((∃ e, (w.env w.calls.length c).fault = some e ∧ r = .error e.1 ∧ w'.fs = w.fs) ∨
        (∃ e, f (w.env w.calls.length c) w.fs = .error e ∧ r = .error e ∧ w'.fs = w.fs) ∨
          f (w.env w.calls.length c) w.fs = .ok w'.fs ∧ r = .ok ()) := by
  obtain ⟨henv, -, ⟨e, he, hr, hfs⟩ | ⟨-, ⟨e, he, rfl, hfs⟩ | ⟨a, ha, rfl⟩⟩⟩ :=
    runs_sys_outcome h
  · exact ⟨henv, .inl ⟨e, he, hr, hfs⟩⟩
  · refine ⟨henv, .inr (.inl ⟨e, ?_, rfl, hfs⟩)⟩
    rcases hf : f (w.env w.calls.length c) w.fs with e' | fs'
    · rw [hf] at he
      exact congrArg _ (Except.error.inj he)
    · rw [hf] at he
      exact absurd he nofun
  · refine ⟨henv, .inr (.inr ⟨?_, rfl⟩)⟩
    rcases hf : f (w.env w.calls.length c) w.fs with e' | fs'
    · rw [hf] at ha
      exact absurd ha nofun
    · rw [hf] at ha
      exact congrArg _ (Prod.mk.inj (Except.ok.inj ha)).2

/-- A call that changes the file system. -/
theorem runs_change {f : Outcome → Fs → Except Errno Fs} {r : Except Errno Unit}
    (h : Runs (change c f) w r w') :
    (∃ e, r = .error e ∧ w'.fs = w.fs ∧ (e = .enoent → ∃ o, f o w.fs = .error e)) ∨
      ∃ o, f o w.fs = .ok w'.fs ∧ r = .ok () := by
  obtain ⟨-, ⟨e, -, hr, hfs⟩ | ⟨e, he, hr, hfs⟩ | ⟨hok, hr⟩⟩ := runs_change_outcome h
  · exact .inl ⟨e.1, hr, hfs, fun hnone => absurd hnone e.2⟩
  · exact .inl ⟨e, hr, hfs, fun _ => ⟨_, he⟩⟩
  · exact .inr ⟨_, hok, hr⟩

/-- `lstat` and `stat` say what the path leads to. -/
theorem Fs.statOf_eq_ok {fs : Fs} {follow : Bool} {path : Path} {st : Stat} :
    fs.statOf follow path = .ok st ↔
      ∃ x, fs.get follow path = .ok (st.ino, x) ∧ st.kind = x.kind ∧ st.perm = x.perm := by
  unfold Fs.statOf
  rcases fs.get follow path with e | ⟨i, x⟩
  · exact iff_of_false nofun fun ⟨x, h, _⟩ => absurd h nofun
  · constructor
    · intro h
      rw [← Except.ok.inj h]
      exact ⟨x, rfl, rfl, rfl⟩
    · rintro ⟨y, h, hkind, hperm⟩
      obtain ⟨hi, rfl⟩ := Prod.mk.inj (Except.ok.inj h)
      obtain ⟨ino, kind, perm⟩ := st
      exact congrArg Except.ok (Stat.mk.injEq .. ▸ ⟨hi, hkind.symm, hperm.symm⟩)

theorem Node.dir_of_kind (x : Node) (h : x.kind = .dir) :
    ∃ mode up slots, x = .dir mode up slots := by
  cases x with
  | dir mode up slots => exact ⟨mode, up, slots, rfl⟩
  | _ => exact absurd h nofun

/-- A directory is not a link. -/
theorem Fs.link_of_kind {fs : Fs} {follow : Bool} {path : Path} {i : Ino} {x : Node}
    (h : fs.get follow path = .ok (i, x)) (hx : x.kind = .dir) : fs.node.link i = none := by
  obtain ⟨-, -, -, hnode⟩ := Fs.get_eq_ok.1 h
  unfold Nodes.link
  rw [hnode]
  cases x with
  | lnk target => exact absurd hx nofun
  | _ => rfl

/-- `lstat` fails as the file system says, when it says that there is nothing. -/
theorem Fs.statOf_eq_error {fs : Fs} {follow : Bool} {path : Path} {e : Errno} :
    fs.statOf follow path = .error e ↔ fs.get follow path = .error e := by
  unfold Fs.statOf
  rcases fs.get follow path with e' | x
  · exact ⟨fun h => congrArg _ (Except.error.inj h), fun h => congrArg _ (Except.error.inj h)⟩
  · exact iff_of_false nofun nofun

end Sys

/-! ### A small file system -/

/-- A name of one byte. -/
def nameOf (b : UInt8) (h : b ≠ slash) : Name where
  bytes := [b]
  ne_nil := List.cons_ne_nil b []
  no_slash hm := h (List.mem_singleton.1 hm).symm

/-- The directory `/d` and the file `/d/f`, with nothing in it. -/
def smallFs : Fs :=
  let d : Name := ⟨[100], by decide, by decide⟩
  let f : Name := ⟨[102], by decide, by decide⟩
  ((Fs.fresh 0o755 8).make ⟨0, 0⟩ d 0 (.folder 0o700) rfl).make ⟨0, 1⟩ f 0 (.file 0o640) rfl

/-- A world where no call reports an error. -/
def smallWorld : World where
  fs := smallFs
  env _ _ := ⟨none, 1, 0, false, 0⟩
  calls := []

end Vfs
end V6User
