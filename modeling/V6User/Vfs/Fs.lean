import Mathlib.Data.List.Nodup
import V6User.Vfs.Path

/-!
# A file system

The file system as the system calls see it.  An inode, named by its device and its number,
is a file, a symbolic link, a directory or something else, and a directory has the inode
above it and a list of slots; a slot without an inode is dead.  `Fs` keeps with it that the
entries of a directory have different names and lead to inodes.

A path is resolved from the root or from the working directory (`Fs.find`).  What it leads
to may be an entry that does not exist yet.  A resolution succeeds along the names and links
that it goes through (`Walks`, `Fs.walk_eq_ok`).  One that finds an inode finds it in every
file system that has the same entries and more (`Fs.walk_mono`), and the last name is looked
up in what the names before it lead to (`Fs.walk_snoc`).
-/

namespace V6User
namespace Vfs

/-- An inode: `st_dev` and `st_ino`. -/
structure Ino where
  dev : ℕ
  num : ℕ
  deriving DecidableEq

/-- A record of a directory. -/
structure Slot where
  name : Name
  ino : Option Ino

/-- What an inode is; `mode` are the permission bits. -/
inductive Node where
  | reg (mode : ℕ) (data : List UInt8)
  | lnk (target : Path)
  | dir (mode : ℕ) (up : Ino) (slots : List Slot)
  | other (mode : ℕ)

/-- Error numbers. -/
inductive Errno where
  | enoent
  | eio
  | eexist
  | exdev
  | enotdir
  | eisdir
  | einval
  | enametoolong
  | enotempty
  | ebusy
  | eloop
  | eopnotsupp
  | other (n : ℕ)
  deriving DecidableEq

/-- The inodes that are in use, and what they are. -/
abbrev Nodes := Ino → Option Node

/-- The inode of the live slot with a name. -/
def findSlot (slots : List Slot) (n : Name) : Option Ino :=
  slots.findSome? fun s => if s.name = n then s.ino else none

/-- The names of the slots that are live. -/
def liveNames (slots : List Slot) : List Name :=
  slots.filterMap fun s => s.ino.map fun _ => s.name

/-- The entry of a directory with a name, `.` and `..` being entries as well. -/
def Nodes.entry (node : Nodes) (d : Ino) (n : Name) : Except Errno (Option Ino) :=
  match node d with
  | some (.dir _ up slots) =>
    if n = Name.dot then .ok (some d)
    else if n = Name.dotdot then .ok (some up)
    else .ok (findSlot slots n)
  | _ => .error .enotdir

/-- The target of a symbolic link. -/
def Nodes.link (node : Nodes) (i : Ino) : Option Path :=
  match node i with
  | some (.lnk t) => some t
  | _ => none

/-- A file system: its inodes, where absolute and relative paths begin, and how many links a
path may go through.  No number from `next` on is in use. -/
structure Fs where
  node : Nodes
  root : Ino
  cwd : Ino
  maxLinks : ℕ
  next : ℕ
  unused : ∀ i : Ino, next ≤ i.num → node i = none
  nodup : ∀ d mode up slots, node d = some (.dir mode up slots) → (liveNames slots).Nodup
  closed : ∀ d n i, node.entry d n = .ok (some i) → (node i).isSome

/-- A file system with nothing in it but its root. -/
def Fs.fresh (mode maxLinks : ℕ) : Fs where
  node i := if i = ⟨0, 0⟩ then some (.dir mode ⟨0, 0⟩ []) else none
  root := ⟨0, 0⟩
  cwd := ⟨0, 0⟩
  maxLinks := maxLinks
  next := 1
  unused i hi := if_neg fun h => by
    rw [h] at hi
    exact Nat.not_succ_le_zero 0 hi
  nodup d mode' up slots h := by
    split_ifs at h
    injection h with h
    injection h with _ _ hslots
    rw [← hslots]
    exact List.nodup_nil
  closed d n i h := by
    unfold Nodes.entry at h
    by_cases hd : d = ⟨0, 0⟩
    · rw [hd] at h
      dsimp only at h
      split_ifs at h
      · exact Option.some.inj (Except.ok.inj h) ▸ rfl
      · exact Option.some.inj (Except.ok.inj h) ▸ rfl
      · exact absurd (Except.ok.inj h) nofun
    · dsimp only at h
      rw [if_neg hd] at h
      exact absurd h nofun

/-- The child of a directory with a name. -/
def Fs.child (fs : Fs) (d : Ino) (n : Name) : Option Ino :=
  match fs.node d with
  | some (.dir _ _ slots) => if n.IsDots then none else findSlot slots n
  | _ => none

/-- Where the resolution of a path begins, seen from the directory `d`. -/
def Fs.base (fs : Fs) (d : Ino) (path : Path) : Ino :=
  if path.head? = some slash then fs.root else d

/-- Where a path leads: to an inode as such, or to the entry of a directory, which may not
exist. -/
inductive Place where
  | top (i : Ino)
  | entry (d : Ino) (n : Name) (ino : Option Ino)

/-- The inode at a place. -/
def Place.ino : Place → Option Ino
  | .top i => some i
  | .entry _ _ ino => ino

/-- The names from the directory `d` on, up to a symbolic link that has to be followed, from
where `k` goes on.  The last name is followed if `follow` says so. -/
def Fs.walkWith (fs : Fs) (follow : Bool) (k : Ino → List Name → Except Errno Place) :
    Ino → List Name → Except Errno Place
  | d, [] => .ok (.top d)
  | d, n :: l =>
    match fs.node.entry d n with
    | .error e => .error e
    | .ok none => if l = [] then .ok (.entry d n none) else .error .enoent
    | .ok (some i) =>
      match fs.node.link i with
      | some t =>
        if l = [] ∧ follow = false then .ok (.entry d n (some i))
        else if t = [] then .error .enoent
        else k (fs.base d t) (names t ++ l)
      | none => if l = [] then .ok (.entry d n (some i)) else fs.walkWith follow k i l

/-- **The resolution of names**, through at most so many links. -/
def Fs.walk (fs : Fs) (follow : Bool) : ℕ → Ino → List Name → Except Errno Place
  | 0 => fs.walkWith follow fun _ _ => .error .eloop
  | links + 1 => fs.walkWith follow (fs.walk follow links)

/-- **A resolution that succeeds**, name by name: `links` is how many links it may still go
through. -/
inductive Walks (fs : Fs) (follow : Bool) : ℕ → Ino → List Name → Place → Prop where
  | top {links : ℕ} {d : Ino} : Walks fs follow links d [] (.top d)
  | missing {links : ℕ} {d : Ino} {n : Name} (hentry : fs.node.entry d n = .ok none) :
      Walks fs follow links d [n] (.entry d n none)
  | last {links : ℕ} {d i : Ino} {n : Name} (hentry : fs.node.entry d n = .ok (some i))
      (hlink : follow = true → fs.node.link i = none) :
      Walks fs follow links d [n] (.entry d n (some i))
  | down {links : ℕ} {d i : Ino} {n : Name} {l : List Name} {place : Place}
      (hentry : fs.node.entry d n = .ok (some i)) (hlink : fs.node.link i = none) (hne : l ≠ [])
      (hw : Walks fs follow links i l place) : Walks fs follow links d (n :: l) place
  | through {links : ℕ} {d i : Ino} {n : Name} {l : List Name} {t : Path} {place : Place}
      (hentry : fs.node.entry d n = .ok (some i)) (hlink : fs.node.link i = some t)
      (hfollow : ¬(l = [] ∧ follow = false)) (ht : t ≠ [])
      (hw : Walks fs follow links (fs.base d t) (names t ++ l) place) :
      Walks fs follow (links + 1) d (n :: l) place

/-- The resolution of a list of names that a path has. -/
def Fs.resolve (fs : Fs) (follow : Bool) (path : Path) (l : List Name) : Except Errno Place :=
  if path = [] then .error .enoent
  else fs.walk follow fs.maxLinks (fs.base fs.cwd path) l

/-- The place that a path leads to. -/
def Fs.find (fs : Fs) (follow : Bool) (path : Path) : Except Errno Place :=
  fs.resolve follow path (names path)

/-- The entry that a path names, for what is made or removed there. -/
def Fs.findEntry (fs : Fs) (path : Path) : Except Errno Place :=
  fs.resolve false path (comps path)

/-- The inode that a path leads to, and what it is. -/
def Fs.get (fs : Fs) (follow : Bool) (path : Path) : Except Errno (Ino × Node) :=
  match fs.find follow path with
  | .error e => .error e
  | .ok place =>
    match place.ino with
    | none => .error .enoent
    | some i =>
      match fs.node i with
      | none => .error .eio
      | some x => .ok (i, x)

/-! ### Slots -/

section Slots

variable {slots : List Slot} {s : Slot} {n : Name} {i : Ino}

theorem mem_liveNames (h : (⟨n, some i⟩ : Slot) ∈ slots) : n ∈ liveNames slots :=
  List.mem_filterMap.2 ⟨⟨n, some i⟩, h, rfl⟩

/-- **The entry with a name** is the slot with it. -/
theorem findSlot_eq_some_iff (h : (liveNames slots).Nodup) :
    findSlot slots n = some i ↔ (⟨n, some i⟩ : Slot) ∈ slots := by
  unfold findSlot
  induction slots with
  | nil => exact iff_of_false nofun List.not_mem_nil
  | cons s slots ih =>
    obtain ⟨m, o⟩ := s
    rw [List.findSome?_cons]
    cases o with
    | none =>
      have hrest : (liveNames slots).Nodup := h
      have hskip : (if m = n then (none : Option Ino) else none) = none := ite_self _
      dsimp only
      rw [hskip]
      dsimp only
      rw [ih hrest, List.mem_cons]
      constructor
      · exact .inr
      · rintro (heq | hmem)
        · exact absurd (Slot.mk.inj heq).2 nofun
        · exact hmem
    | some j =>
      obtain ⟨hnot, hrest⟩ : m ∉ liveNames slots ∧ (liveNames slots).Nodup := List.nodup_cons.1 h
      dsimp only
      by_cases hm : m = n
      · rw [if_pos hm]
        dsimp only
        rw [List.mem_cons]
        constructor
        · intro hj
          rw [hm, Option.some.inj hj]
          exact .inl rfl
        · rintro (heq | hmem)
          · exact (Slot.mk.inj heq).2.symm
          · exact absurd (hm ▸ mem_liveNames hmem) hnot
      · rw [if_neg hm]
        dsimp only
        rw [ih hrest, List.mem_cons]
        constructor
        · exact .inr
        · rintro (heq | hmem)
          · exact absurd (Slot.mk.inj heq).1.symm hm
          · exact hmem

end Slots

/-! ### Resolution -/

section Resolution

variable {fs fs' fs'' : Fs} {follow : Bool} {links : ℕ} {d i : Ino} {n : Name} {l : List Name}
  {path : Path} {place : Place}

theorem Fs.entry_of_child (h : fs.child d n = some i) : fs.node.entry d n = .ok (some i) := by
  unfold Fs.child at h
  unfold Nodes.entry
  split at h
  · split_ifs at h with hdots
    rw [if_neg fun hd => hdots (.inl hd), if_neg fun hd => hdots (.inr hd), h]
  · exact absurd h nofun

theorem Fs.child_of_entry (h : fs.node.entry d n = .ok (some i)) (hn : ¬n.IsDots) :
    fs.child d n = some i := by
  unfold Nodes.entry at h
  unfold Fs.child
  split at h
  · rw [if_neg fun hd => hn (.inl hd), if_neg fun hd => hn (.inr hd)] at h
    rw [if_neg hn]
    exact Except.ok.inj h
  · exact absurd h nofun

/-- **The last name** is looked up in what the names before it lead to. -/
theorem Fs.walk_snoc (fs : Fs) (links : ℕ) (d : Ino) (l : List Name) (n : Name) :
    fs.walk false links d (l ++ [n]) =
      match fs.walk true links d l with
      | .error e => .error e
      | .ok place =>
        match place.ino with
        | none => .error .enoent
        | some i => (fs.node.entry i n).map (Place.entry i n) := by
  -- first for any way to go on after a link that has this property
  have hwith : ∀ k k' : Ino → List Name → Except Errno Place,
      (∀ d l, k d (l ++ [n]) = match k' d l with
        | .error e => .error e
        | .ok place => match place.ino with
          | none => .error .enoent
          | some i => (fs.node.entry i n).map (Place.entry i n)) →
      ∀ d l, fs.walkWith false k d (l ++ [n]) = match fs.walkWith true k' d l with
        | .error e => .error e
        | .ok place => match place.ino with
          | none => .error .enoent
          | some i => (fs.node.entry i n).map (Place.entry i n) := by
    intro k k' hk d l
    induction l generalizing d with
    | nil =>
      rw [List.nil_append, Fs.walkWith, Fs.walkWith]
      dsimp only [Place.ino]
      rcases fs.node.entry d n with e | _ | i
      · rfl
      · rfl
      · dsimp only
        rcases fs.node.link i with _ | t
        · rfl
        · rfl
    | cons m l ih =>
      rw [List.cons_append, Fs.walkWith, Fs.walkWith]
      have hne : l ++ [n] ≠ [] := List.append_ne_nil_of_right_ne_nil _ (List.cons_ne_nil _ _)
      rcases fs.node.entry d m with e | _ | i
      · rfl
      · dsimp only
        rw [if_neg hne]
        split_ifs <;> rfl
      · dsimp only
        rcases fs.node.link i with _ | t
        · dsimp only
          rw [if_neg hne, ih]
          split_ifs with hl
          · rw [hl, Fs.walkWith]
            rfl
          · rfl
        · dsimp only
          have hfollow : ¬(l = [] ∧ true = false) := fun h => Bool.noConfusion h.2
          rw [if_neg fun h => hne h.1, if_neg hfollow]
          split_ifs
          · rfl
          · rw [← List.append_assoc, hk]
  induction links generalizing d l with
  | zero => exact hwith _ _ (fun _ _ => rfl) d l
  | succ links ih => exact hwith _ _ ih d l

theorem Fs.walks_of_walk (hw : fs.walk follow links d l = .ok place) :
    Walks fs follow links d l place := by
  -- first for any way to go on after a link
  have hwith : ∀ links : ℕ, ∀ k : Ino → List Name → Except Errno Place,
      (∀ d n l i t, fs.node.entry d n = .ok (some i) → fs.node.link i = some t →
        ¬(l = [] ∧ follow = false) → t ≠ [] → k (fs.base d t) (names t ++ l) = .ok place →
        Walks fs follow links d (n :: l) place) →
      ∀ d l, fs.walkWith follow k d l = .ok place → Walks fs follow links d l place := by
    intro links k hk d l hw
    induction l generalizing d with
    | nil =>
      obtain rfl := Except.ok.inj hw
      exact .top
    | cons n l ih =>
      rw [Fs.walkWith] at hw
      rcases hentry : fs.node.entry d n with e | _ | i
      · rw [hentry] at hw
        exact absurd hw nofun
      · rw [hentry] at hw
        dsimp only at hw
        split_ifs at hw with hl
        obtain rfl := Except.ok.inj hw
        rw [hl]
        exact .missing hentry
      · rw [hentry] at hw
        dsimp only at hw
        rcases hlink : fs.node.link i with _ | t
        · rw [hlink] at hw
          dsimp only at hw
          split_ifs at hw with hl
          · obtain rfl := Except.ok.inj hw
            rw [hl]
            exact .last hentry fun _ => hlink
          · exact .down hentry hlink hl (ih i hw)
        · rw [hlink] at hw
          dsimp only at hw
          split_ifs at hw with hlast ht
          · obtain rfl := Except.ok.inj hw
            rw [hlast.1]
            exact .last hentry fun h => absurd (h.symm.trans hlast.2) Bool.noConfusion
          · exact hk d n l i t hentry hlink hlast ht hw
  induction links generalizing d l with
  | zero => exact hwith 0 (fun _ _ => .error .eloop) (fun _ _ _ _ _ _ _ _ _ h =>
      absurd h (by nofun)) d l hw
  | succ links ih =>
    exact hwith _ _ (fun _ _ _ _ _ hentry hlink hfollow ht h =>
      .through hentry hlink hfollow ht (ih h)) d l hw

theorem Walks.walk (h : Walks fs follow links d l place) :
    fs.walk follow links d l = .ok place := by
  -- what is done at a name does not depend on how many links are left, except at a link
  have hwith : ∀ links, ∃ k, fs.walk follow links = fs.walkWith follow k := by
    intro links
    cases links with
    | zero => exact ⟨_, rfl⟩
    | succ links => exact ⟨_, rfl⟩
  induction h with
  | @top links d =>
    obtain ⟨k, hk⟩ := hwith links
    rw [hk, Fs.walkWith]
  | @missing links d n hentry =>
    obtain ⟨k, hk⟩ := hwith links
    rw [hk, Fs.walkWith, hentry]
    dsimp only
    rw [if_pos rfl]
  | @last links d i n hentry hlink =>
    obtain ⟨k, hk⟩ := hwith links
    rw [hk, Fs.walkWith, hentry]
    dsimp only
    rcases hl : fs.node.link i with _ | t
    · dsimp only
      rw [if_pos rfl]
    · dsimp only
      have hfollow : follow = false := by
        rcases hf : follow with _ | _
        · rfl
        · rw [hlink hf] at hl
          exact absurd hl nofun
      rw [if_pos ⟨rfl, hfollow⟩]
  | @down links d i n l place hentry hlink hne _ ih =>
    obtain ⟨k, hk⟩ := hwith links
    rw [hk] at ih ⊢
    rw [Fs.walkWith, hentry]
    dsimp only
    rw [hlink]
    dsimp only
    rw [if_neg hne, ih]
  | through hentry hlink hfollow ht _ ih =>
    rw [Fs.walk, Fs.walkWith, hentry]
    dsimp only
    rw [hlink]
    dsimp only
    rw [if_neg hfollow, if_neg ht, ih]

/-- **The resolution of names succeeds** along the names and links that it goes through. -/
theorem Fs.walk_eq_ok : fs.walk follow links d l = .ok place ↔ Walks fs follow links d l place :=
  ⟨Fs.walks_of_walk, Walks.walk⟩

/-- What a file system has, another one has as well. -/
structure Sub (fs fs' : Fs) : Prop where
  root : fs'.root = fs.root
  cwd : fs'.cwd = fs.cwd
  maxLinks : fs'.maxLinks = fs.maxLinks
  entry : ∀ d n i, fs.node.entry d n = .ok (some i) → fs'.node.entry d n = .ok (some i)
  isSome : ∀ i, (fs.node i).isSome → (fs'.node i).isSome
  link : ∀ i, (fs.node i).isSome → fs'.node.link i = fs.node.link i

theorem Sub.refl (fs : Fs) : Sub fs fs :=
  ⟨rfl, rfl, rfl, fun _ _ _ h => h, fun _ h => h, fun _ _ => rfl⟩

theorem Sub.trans (h : Sub fs fs') (h' : Sub fs' fs'') : Sub fs fs'' where
  root := h'.root.trans h.root
  cwd := h'.cwd.trans h.cwd
  maxLinks := h'.maxLinks.trans h.maxLinks
  entry d n i hi := h'.entry d n i (h.entry d n i hi)
  isSome i hi := h'.isSome i (h.isSome i hi)
  link i hi := (h'.link i (h.isSome i hi)).trans (h.link i hi)

theorem Sub.base (h : Sub fs fs') (d : Ino) (path : Path) : fs'.base d path = fs.base d path := by
  unfold Fs.base
  rw [h.root]

/-- An entry that is there leads to the same link or to none, where there is more. -/
theorem Sub.link_entry (h : Sub fs fs') (hentry : fs.node.entry d n = .ok (some i)) :
    fs'.node.link i = fs.node.link i :=
  h.link i (fs.closed d n i hentry)

/-- **What is found stays found** where there is more. -/
theorem Walks.mono (h : Sub fs fs') (hw : Walks fs follow links d l place)
    (hi : place.ino = some i) : Walks fs' follow links d l place := by
  induction hw with
  | top => exact .top
  | missing => exact absurd hi nofun
  | last hentry hlink =>
    exact .last (h.entry _ _ _ hentry) fun hf => (h.link_entry hentry).trans (hlink hf)
  | down hentry hlink hne _ ih =>
    exact .down (h.entry _ _ _ hentry) ((h.link_entry hentry).trans hlink) hne (ih hi)
  | @through links d j n l t place hentry hlink hfollow ht _ ih =>
    have hw := ih hi
    rw [← h.base d t] at hw
    exact .through (h.entry _ _ _ hentry) ((h.link_entry hentry).trans hlink) hfollow ht hw

theorem Fs.walk_mono (h : Sub fs fs') (hw : fs.walk follow links d l = .ok place)
    (hi : place.ino = some i) : fs'.walk follow links d l = .ok place :=
  ((Fs.walks_of_walk hw).mono h hi).walk

/-- **What was missing is found** where it has been made, if it is no link that is followed. -/
theorem Fs.walk_made {e : Ino} (h : Sub fs fs')
    (hw : fs.walk follow links d l = .ok (.entry e n none))
    (hentry : fs'.node.entry e n = .ok (some i))
    (hlink : follow = true → fs'.node.link i = none) :
    fs'.walk follow links d l = .ok (.entry e n (some i)) := by
  replace hw := Fs.walks_of_walk hw
  refine Walks.walk ?_
  generalize hplace : Place.entry e n none = place at hw
  induction hw with
  | top => exact absurd hplace nofun
  | missing =>
    obtain ⟨rfl, rfl, -⟩ := Place.entry.inj hplace
    exact .last hentry hlink
  | last => exact absurd (Place.entry.inj hplace).2.2 nofun
  | down hold hlink hne _ ih =>
    exact .down (h.entry _ _ _ hold) ((h.link_entry hold).trans hlink) hne (ih hplace)
  | @through links d j m l t place hold hlink hfollow ht _ ih =>
    have hw := ih hplace
    rw [← h.base d t] at hw
    exact .through (h.entry _ _ _ hold) ((h.link_entry hold).trans hlink) hfollow ht hw

/-- What is found without following the last name is found by following it, unless it is a
link. -/
theorem Fs.walk_follow (hw : fs.walk false links d l = .ok place) (hi : place.ino = some i)
    (hlink : fs.node.link i = none) : fs.walk true links d l = .ok place := by
  replace hw := Fs.walks_of_walk hw
  refine Walks.walk ?_
  induction hw with
  | top => exact .top
  | missing hentry => exact .missing hentry
  | last hentry =>
    obtain rfl := Option.some.inj hi
    exact .last hentry fun _ => hlink
  | down hentry hnone hne _ ih => exact .down hentry hnone hne (ih hi)
  | through hentry hsome _ ht _ ih =>
    exact .through hentry hsome (fun h => Bool.noConfusion h.2) ht (ih hi)

/-- What is found by following the last name names something that exists. -/
theorem Fs.walk_exists (hw : fs.walk true links d l = .ok place) (hi : place.ino = some i) :
    ∃ place' j, fs.walk false links d l = .ok place' ∧ place'.ino = some j := by
  replace hw := Fs.walks_of_walk hw
  simp only [Fs.walk_eq_ok]
  induction hw with
  | @top links d => exact ⟨.top d, d, .top, rfl⟩
  | missing => exact absurd hi nofun
  | @last links d j n hentry =>
    exact ⟨.entry d n (some j), j, .last hentry fun h => Bool.noConfusion h, rfl⟩
  | down hentry hlink hne _ ih =>
    obtain ⟨place', j, hw, hj⟩ := ih hi
    exact ⟨place', j, .down hentry hlink hne hw, hj⟩
  | @through links d j n l t place hentry hlink _ ht _ ih =>
    -- at the last name it is the link itself
    by_cases hl : l = []
    · rw [hl]
      exact ⟨.entry d n (some j), j, .last hentry fun h => Bool.noConfusion h, rfl⟩
    · obtain ⟨place', j', hw, hj⟩ := ih hi
      exact ⟨place', j', .through hentry hlink (fun h => hl h.1) ht hw, hj⟩

/-- What is missing when the last name is followed is missing when it is not, unless there is a
link. -/
theorem Fs.walk_missing {e : Ino} (hw : fs.walk true links d l = .ok (.entry e n none)) :
    fs.walk false links d l = .ok (.entry e n none) ∨
      ∃ place i, fs.walk false links d l = .ok place ∧ place.ino = some i := by
  replace hw := Fs.walks_of_walk hw
  simp only [Fs.walk_eq_ok]
  generalize hplace : Place.entry e n none = place at hw ⊢
  induction hw with
  | top => exact absurd hplace nofun
  | missing hentry => exact .inl (.missing hentry)
  | last => exact absurd (Place.entry.inj hplace).2.2 nofun
  | down hentry hlink hne _ ih =>
    rcases ih hplace with hw | ⟨place, i, hw, hi⟩
    · exact .inl (.down hentry hlink hne hw)
    · exact .inr ⟨place, i, .down hentry hlink hne hw, hi⟩
  | @through links d j m l t place hentry hlink _ ht _ ih =>
    -- at the last name it is the link itself
    by_cases hl : l = []
    · rw [hl]
      exact .inr ⟨.entry d m (some j), j, .last hentry fun h => Bool.noConfusion h, rfl⟩
    · rcases ih hplace with hw | ⟨place, i, hw, hi⟩
      · exact .inl (.through hentry hlink (fun h => hl h.1) ht hw)
      · exact .inr ⟨place, i, .through hentry hlink (fun h => hl h.1) ht hw, hi⟩

/-- The entry that is found is what the directory has. -/
theorem Fs.walk_entry {e : Ino} {o : Option Ino}
    (hw : fs.walk follow links d l = .ok (.entry e n o)) : fs.node.entry e n = .ok o := by
  replace hw := Fs.walks_of_walk hw
  generalize hplace : Place.entry e n o = place at hw
  induction hw with
  | top => exact absurd hplace nofun
  | missing hentry | last hentry =>
    obtain ⟨rfl, rfl, rfl⟩ := Place.entry.inj hplace
    exact hentry
  | down _ _ _ _ ih | through _ _ _ _ _ ih => exact ih hplace

/-- The inode that a path leads to, in terms of its resolution. -/
theorem Fs.get_eq_ok {x : Node} : fs.get follow path = .ok (i, x) ↔
    ∃ place, fs.find follow path = .ok place ∧ place.ino = some i ∧ fs.node i = some x := by
  unfold Fs.get
  constructor
  · intro h
    split at h
    · exact absurd h nofun
    · next place hplace =>
      split at h
      · exact absurd h nofun
      · next j hj =>
        split at h
        · exact absurd h nofun
        · next y hy =>
          obtain ⟨rfl, rfl⟩ := Prod.mk.inj (Except.ok.inj h)
          exact ⟨place, hplace, hj, hy⟩
  · rintro ⟨place, hplace, hi, hx⟩
    rw [hplace]
    simp only [hi, hx]

end Resolution

end Vfs
end V6User
