import V6User.Vfs.Lookup
import V6User.Vfs.Onward

/-!
# Trees that are the same

Two trees, in one file system or in two, are the same when they have the same names at every
level, the same contents, the same targets of symbolic links and the same permission bits
(`SameTree`).  What a tree is depends on the inodes in it alone (`SameTree.congr`).

`Grown` is what a file system is after something was made at a place where nothing was: a
directory has one entry more, what the entry leads to is new, and everything else is as it
was.
-/

namespace V6User
namespace Vfs

/-- The trees at `s` and at `t` are the same. -/
inductive SameTree (fs fs' : Fs) : Ino → Ino → Prop
  | file {s t : Ino} {mode : ℕ} {data : List UInt8} (hs : fs.node s = some (.reg mode data))
      (ht : fs'.node t = some (.reg mode data)) : SameTree fs fs' s t
  | link {s t : Ino} {target : Path} (hs : fs.node s = some (.lnk target))
      (ht : fs'.node t = some (.lnk target)) : SameTree fs fs' s t
  | dir {s t up up' : Ino} {mode : ℕ} {slots slots' : List Slot}
      (hs : fs.node s = some (.dir mode up slots)) (ht : fs'.node t = some (.dir mode up' slots'))
      (names : ∀ n, (fs'.child t n).isSome ↔ (fs.child s n).isSome)
      (children : ∀ n i j, fs.child s n = some i → fs'.child t n = some j → SameTree fs fs' i j) :
      SameTree fs fs' s t

/-- The inodes in the tree of `top` are the same in both file systems. -/
def SameNodes (top : Ino) (fs fs' : Fs) : Prop := ∀ i, InTree fs top i → fs'.node i = fs.node i

section Trees

variable {fs fs' gs gs' : Fs} {top s t d e i : Ino} {n : Name}

theorem Fs.child_congr (h : gs.node d = fs.node d) (n : Name) : gs.child d n = fs.child d n := by
  unfold Fs.child
  rw [h]

/-- The entries of a directory. -/
theorem Fs.child_eq_some_iff {mode : ℕ} {up : Ino} {slots : List Slot}
    (hdir : fs.node d = some (.dir mode up slots)) :
    fs.child d n = some i ↔ ¬n.IsDots ∧ (⟨n, some i⟩ : Slot) ∈ slots := by
  unfold Fs.child
  rw [hdir]
  dsimp only
  by_cases hdots : n.IsDots
  · rw [if_pos hdots]
    exact iff_of_false nofun fun h => h.1 hdots
  · rw [if_neg hdots, findSlot_eq_some_iff (fs.nodup d mode up slots hdir)]
    exact (and_iff_right hdots).symm

/-- What has a child is a directory. -/
theorem Fs.dir_of_child (h : fs.child d n = some i) :
    ∃ mode up slots, fs.node d = some (.dir mode up slots) := by
  unfold Fs.child at h
  split at h
  · next mode up slots hdir => exact ⟨mode, up, slots, hdir⟩
  · exact absurd h nofun

theorem Fs.isSome_of_child (h : fs.child d n = some i) : (fs.node i).isSome :=
  fs.closed d n i (Fs.entry_of_child h)

theorem InTree.isSome (h : InTree fs top i) (htop : (fs.node top).isSome) : (fs.node i).isSome := by
  cases h with
  | top => exact htop
  | child _ hi => exact Fs.isSome_of_child hi

/-- A tree whose top has no entries. -/
theorem InTree.eq_top (h : InTree fs top i) (htop : ∀ m, fs.child top m = none) : i = top := by
  induction h with
  | top => rfl
  | @child d n i _ hi ih =>
    rw [ih, htop n] at hi
    exact absurd hi nofun

/-- A tree whose top has entries is made of their trees. -/
theorem InTree.cases_top (h : InTree fs top i) :
    i = top ∨ ∃ n e, fs.child top n = some e ∧ InTree fs e i := by
  induction h with
  | top => exact .inl rfl
  | @child d n i _ hi ih =>
    rcases ih with rfl | ⟨m, e, he, hd⟩
    · exact .inr ⟨n, i, hi, .top⟩
    · exact .inr ⟨m, e, he, .child hd hi⟩

theorem SameNodes.inTree (h : SameNodes top fs fs') (hi : InTree fs top i) : InTree fs' top i := by
  induction hi with
  | top => exact .top
  | @child d n i hd hi ih => exact .child ih ((Fs.child_congr (h d hd) n).trans hi)

/-- Nothing comes into a tree whose inodes are the same. -/
theorem SameNodes.inTree_iff (h : SameNodes top fs fs') : InTree fs' top i ↔ InTree fs top i := by
  refine ⟨fun hi => ?_, h.inTree⟩
  induction hi with
  | top => exact .top
  | @child d n i _ hi ih => exact .child ih ((Fs.child_congr (h d ih) n).symm.trans hi)

theorem SameNodes.symm (h : SameNodes top fs fs') : SameNodes top fs' fs :=
  fun i hi => (h i (h.inTree_iff.1 hi)).symm

theorem SameNodes.child (h : SameNodes top fs fs') (hi : fs.child top n = some i) :
    SameNodes i fs fs' :=
  fun e he => h e (InTree.trans (.child .top hi) he)

/-- **What a tree is** depends on the inodes in it. -/
theorem SameTree.congr (h : SameTree fs fs' s t) (hs : SameNodes s fs gs)
    (ht : SameNodes t fs' gs') : SameTree gs gs' s t := by
  induction h with
  | @file s t _ _ hfile hfile' =>
    exact .file ((hs s .top).trans hfile) ((ht t .top).trans hfile')
  | @link s t _ hlink hlink' => exact .link ((hs s .top).trans hlink) ((ht t .top).trans hlink')
  | @dir s t _ _ _ _ _ hdir hdir' names _ ih =>
    have hchild := Fs.child_congr (hs s .top)
    have hchild' := Fs.child_congr (ht t .top)
    refine .dir ((hs s .top).trans hdir) ((ht t .top).trans hdir') (fun n => ?_)
      fun n i j hi hj => ?_
    · rw [hchild, hchild', names]
    · rw [hchild] at hi
      rw [hchild'] at hj
      exact ih n i j hi hj (hs.child hi) (ht.child hj)

end Trees

/-! ### A place where nothing is -/

/-- Nothing is at the path. -/
def Fs.Missing (fs : Fs) (path : Path) : Prop :=
  ∀ place, fs.find false path = .ok place → place.ino = none

section Missing

variable {fs fs' : Fs} {path : Path} {d i : Ino} {n : Name} {x : Node}

theorem Fs.Missing.not_get (h : fs.Missing path) : fs.get false path ≠ .ok (i, x) := by
  intro hget
  obtain ⟨place, hplace, hi, -⟩ := Fs.get_eq_ok.1 hget
  rw [h place hplace] at hi
  exact absurd hi nofun

/-- A path to a missing entry does not end in a slash. -/
theorem Fs.find_missing (h : fs.find false path = .ok (.entry d n none)) :
    ¬WantsDir path ∧ fs.findEntry path = .ok (.entry d n none) := by
  have hne := Fs.ne_nil_of_resolve h
  unfold Fs.find names at h
  split_ifs at h with hwants
  · obtain ⟨place, e, o, -, -, hentry, hplace⟩ := (Fs.resolve_snoc_eq_ok hne).1 h
    obtain ⟨-, -, rfl⟩ := Place.entry.inj hplace
    exact absurd (Nodes.entry_dot hentry) nofun
  · exact ⟨hwants, h⟩

/-- An entry that `open` finds missing is missing for `lstat`, where nothing is. -/
theorem Fs.Missing.find_false (h : fs.Missing path)
    (hfind : fs.find true path = .ok (.entry d n none)) :
    fs.find false path = .ok (.entry d n none) := by
  have hne := Fs.ne_nil_of_resolve hfind
  unfold Fs.Missing at h
  unfold Fs.find Fs.resolve at *
  rw [if_neg hne] at hfind
  simp only [if_neg hne] at h ⊢
  rcases Fs.walk_missing hfind with hwalk | ⟨place, i, hwalk, hi⟩
  · exact hwalk
  · rw [h place hwalk] at hi
    exact absurd hi nofun

/-- `open` finds nothing where nothing is. -/
theorem Fs.Missing.find_true (h : fs.Missing path) {place : Place}
    (hfind : fs.find true path = .ok place) : place.ino = none := by
  rcases hi : place.ino with _ | i
  · rfl
  · obtain ⟨place', j, hplace', hj⟩ := Fs.find_exists hfind hi
    rw [h place' hplace'] at hj
    exact absurd hj nofun

end Missing

/-! ### One entry more -/

/-- The directory `d` has the entry `n` for `t`, which is new with all that is below it, and
everything else is as it was. -/
structure Grown (fs fs' : Fs) (d : Ino) (n : Name) (t : Ino) : Prop where
  missing : fs.node.entry d n = .ok none
  sub : Sub fs fs'
  node : ∀ i, (fs.node i).isSome → i ≠ d → fs'.node i = fs.node i
  child : ∀ m, fs'.child d m = if m = n then some t else fs.child d m
  fresh : ∀ i, InTree fs' t i → fs.node i = none

section Grown

variable {fs fs' : Fs} {d t i : Ino} {n m : Name} {k : ℕ} {x : New}

/-- The entries of the directory where something was made. -/
theorem Fs.child_make (h : fs.node.entry d n = .ok none) (m : Name) :
    (fs.make d n k x h).child d m = if m = n then some (fs.new d) else fs.child d m := by
  obtain ⟨mode, up, slots, hdir, hdots, hnot⟩ := Fs.dir_of_missing h
  have hnew : d ≠ fs.new d := Fs.ne_new (hdir ▸ rfl)
  have hmade : (fs.make d n k x h).node d =
      some (.dir mode up (addSlot slots k ⟨n, some (fs.new d)⟩)) := Nodes.make_dir hnew hdir
  unfold Fs.child
  rw [hmade, hdir]
  dsimp only
  by_cases hm : m = n
  · rw [if_pos hm, hm, if_neg hdots]
    exact (Fs.findSlot_make hdir hnot _).2 (.inl ⟨rfl, rfl⟩)
  · rw [if_neg hm]
    split_ifs
    · rfl
    · refine Option.ext fun i => ?_
      rw [Fs.findSlot_make hdir hnot]
      exact or_iff_right fun h => hm h.1

/-- What was made, and has grown since. -/
theorem Grown.of_make (h : fs.node.entry d n = .ok none) (hsub : Sub (fs.make d n k x h) fs')
    (hnode : ∀ i, ((fs.make d n k x h).node i).isSome → i ≠ fs.new d →
      fs'.node i = (fs.make d n k x h).node i)
    (hfresh : ∀ i, InTree fs' (fs.new d) i → fs.node i = none) :
    Grown fs fs' d n (fs.new d) := by
  obtain ⟨mode, up, slots, hdir, -, -⟩ := Fs.dir_of_missing h
  have hd : (fs.node d).isSome := hdir ▸ rfl
  refine ⟨h, (sub_make h).trans hsub, fun i hi hne => ?_, fun m => ?_, hfresh⟩
  · rw [hnode i (Nodes.isSome_make hi) (Fs.ne_new hi)]
    exact Nodes.make_of_ne (Fs.ne_new hi) hne
  · rw [← Fs.child_make h (k := k) (x := x)]
    exact Fs.child_congr (hnode d (Nodes.isSome_make hd) (Fs.ne_new hd)) m

/-- A tree without the directory stays as it is. -/
theorem Grown.sameNodes (h : Grown fs fs' d n t) {top : Ino} (htop : (fs.node top).isSome)
    (hd : ¬InTree fs top d) : SameNodes top fs fs' := by
  intro i hi
  refine h.node i (hi.isSome htop) ?_
  rintro rfl
  exact hd hi

theorem Grown.not_isDots (h : Grown fs fs' d n t) : ¬n.IsDots := by
  obtain ⟨-, -, -, -, hdots, -⟩ := Fs.dir_of_missing h.missing
  exact hdots

/-- The new entry. -/
theorem Grown.entry (h : Grown fs fs' d n t) : fs'.node.entry d n = .ok (some t) :=
  Fs.entry_of_child ((h.child n).trans (if_pos rfl))

end Grown

end Vfs
end V6User
