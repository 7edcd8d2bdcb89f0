import V6User.Vfs.Onward

/-!
# What is reached through a path

The files that are reached through a path, by the path itself or by names from there on
(`Through`), and when a change keeps them with their bytes (`KeepsFiles`).  What is made takes
nothing away, and no more does setting the bytes of another file.  An entry that is removed
takes away what is reached by looking it up (`Uses`).
-/

namespace V6User
namespace Vfs

/-- A path through `src`: `src` itself, or names from there on, none of them `..`. -/
def Through (src p : Path) : Prop :=
  p = src ∨ ∃ rest, p = src ++ slash :: rest ∧ Name.dotdot ∉ comps rest

/-- The path leads to the file `i`, with these bytes. -/
def Fs.FileAt (fs : Fs) (p : Path) (i : Ino) (data : List UInt8) : Prop :=
  ∃ mode, fs.get true p = .ok (i, .reg mode data)

/-- The file is reached through `src`. -/
def Fs.SourceFile (fs : Fs) (src : Path) (i : Ino) : Prop :=
  ∃ p data, Through src p ∧ fs.FileAt p i data

/-- What is reached through `src` in `fs` is reached in `fs'` by the same path, with the same
bytes. -/
def KeepsFiles (src : Path) (fs fs' : Fs) : Prop :=
  ∀ p i data, Through src p → fs.FileAt p i data → fs'.FileAt p i data

/-- The resolution of names looks up the entry `m` of `e`; `links` is how many links it may
still go through. -/
inductive Uses (fs : Fs) (follow : Bool) : ℕ → Ino → List Name → Ino → Name → Prop where
  | here {links : ℕ} {d i : Ino} {n : Name} {l : List Name}
      (hentry : fs.node.entry d n = .ok (some i)) : Uses fs follow links d (n :: l) d n
  | down {links : ℕ} {d i e : Ino} {n m : Name} {l : List Name}
      (hentry : fs.node.entry d n = .ok (some i)) (hlink : fs.node.link i = none)
      (h : Uses fs follow links i l e m) : Uses fs follow links d (n :: l) e m
  | through {links : ℕ} {d i e : Ino} {n m : Name} {l : List Name} {t : Path}
      (hentry : fs.node.entry d n = .ok (some i)) (hlink : fs.node.link i = some t)
      (hfollow : ¬(l = [] ∧ follow = false))
      (h : Uses fs follow links (fs.base d t) (names t ++ l) e m) :
      Uses fs follow (links + 1) d (n :: l) e m

/-- The entry `n` of `d` is on the way of the path. -/
def Fs.OnWay (fs : Fs) (follow : Bool) (p : Path) (d : Ino) (n : Name) : Prop :=
  Uses fs follow fs.maxLinks (fs.base fs.cwd p) (names p) d n

theorem Uses.ne_nil {fs : Fs} {follow : Bool} {links : ℕ} {d e : Ino} {m : Name} {l : List Name}
    (h : Uses fs follow links d l e m) : l ≠ [] := by
  cases h <;> exact List.cons_ne_nil _ _

/-- The ways on from the first name. -/
theorem Uses.cons {fs : Fs} {follow : Bool} {links : ℕ} {d e : Ino} {n m : Name} {l : List Name}
    (h : Uses fs follow links d (n :: l) e m) :
    ∃ i, fs.node.entry d n = .ok (some i) ∧ (d = e ∧ n = m ∨
      fs.node.link i = none ∧ Uses fs follow links i l e m ∨ (fs.node.link i).isSome) := by
  cases h with
  | here hentry => exact ⟨_, hentry, .inl ⟨rfl, rfl⟩⟩
  | down hentry hlink h => exact ⟨_, hentry, .inr (.inl ⟨hlink, h⟩)⟩
  | through hentry hlink hfollow h => exact ⟨_, hentry, .inr (.inr (hlink ▸ rfl))⟩

section Reached

variable {fs fs' fs₀ : Fs} {dead follow : Bool} {links : ℕ} {d e i : Ino} {n m : Name}
  {l : List Name} {place : Place} {src p : Path} {k : ℕ} {x : New} {y : Node} {data : List UInt8}

/-! ### An entry is removed -/

/-- The other entries are as they were. -/
theorem Nodes.entry_remove_of_ne {node : Nodes} (h : ¬(d = e ∧ n = m)) :
    (node.remove dead e m).entry d n = node.entry d n := by
  unfold Nodes.entry Nodes.remove
  by_cases hd : d = e
  · rw [if_pos hd]
    rcases node d with _ | (_ | _ | ⟨mode, up, slots⟩ | _)
    case some.dir =>
      dsimp only
      rw [findSlot_killSlot, if_neg fun hn => h ⟨hd, hn⟩]
    all_goals rfl
  · rw [if_neg hd]

/-- What is missing is missing without an entry as well. -/
theorem Fs.entry_remove_missing (h : fs.node.entry d n = .ok none) :
    (fs.remove dead e m).node.entry d n = .ok none := by
  by_cases hne : d = e ∧ n = m
  · obtain ⟨rfl, rfl⟩ := hne
    obtain ⟨mode, up, slots, hdir, hdots, -⟩ := Fs.dir_of_missing h
    have hdir' : (fs.remove dead d n).node d = some (.dir mode up (killSlot dead slots n)) := by
      show fs.node.remove dead d n d = _
      rw [Nodes.remove, if_pos rfl, hdir]
    unfold Nodes.entry
    rw [hdir']
    dsimp only
    rw [if_neg fun hn => hdots (.inl hn), if_neg fun hn => hdots (.inr hn), findSlot_killSlot,
      if_pos rfl]
  · exact (Nodes.entry_remove_of_ne hne).trans h

/-- **What is found is found** without an entry that is not looked up. -/
theorem Walks.remove (hw : Walks fs follow links d l place)
    (huses : ¬Uses fs follow links d l e m) :
    Walks (fs.remove dead e m) follow links d l place := by
  have hkeep : ∀ {d : Ino} {n : Name} {o : Option Ino}, fs.node.entry d n = .ok o →
      ¬(d = e ∧ n = m) → (fs.remove dead e m).node.entry d n = .ok o :=
    fun hentry hne => (Nodes.entry_remove_of_ne hne).trans hentry
  have hlinks : ∀ i, (fs.remove dead e m).node.link i = fs.node.link i := fun _ =>
    Nodes.link_remove
  -- an entry that is there and is looked up first is not the one that is removed
  have hfirst : ∀ {links d i n l}, fs.node.entry d n = .ok (some i) →
      ¬Uses fs follow links d (n :: l) e m → ¬(d = e ∧ n = m) := by
    rintro links d i n l hentry hnot ⟨rfl, rfl⟩
    exact hnot (.here hentry)
  induction hw with
  | top => exact .top
  | missing hentry => exact .missing (Fs.entry_remove_missing hentry)
  | last hentry hlink =>
    exact .last (hkeep hentry (hfirst hentry huses)) fun hf => (hlinks _).trans (hlink hf)
  | down hentry hlink hne _ ih =>
    exact .down (hkeep hentry (hfirst hentry huses)) ((hlinks _).trans hlink) hne
      (ih fun h => huses (.down hentry hlink h))
  | through hentry hlink hfollow ht _ ih =>
    exact .through (hkeep hentry (hfirst hentry huses)) ((hlinks _).trans hlink) hfollow ht
      (ih fun h => huses (.through hentry hlink hfollow h))

/-- What is not a directory stays what it is. -/
theorem Nodes.remove_of_not_dir {node : Nodes} (hi : node i = some y) (hy : y.kind ≠ .dir) :
    node.remove dead d n i = some y := by
  unfold Nodes.remove
  rw [hi]
  cases y with
  | dir => exact absurd rfl hy
  | _ => exact ite_self _

/-- **What a path leads to**, it leads to without an entry that is not on its way. -/
theorem Fs.get_remove (h : fs.get follow p = .ok (i, y)) (hway : ¬fs.OnWay follow p d n) :
    ∃ z, (fs.remove dead d n).get follow p = .ok (i, z) ∧ fs.node.remove dead d n i = some z := by
  obtain ⟨place, hplace, hi, hnode⟩ := Fs.get_eq_ok.1 h
  have hne := Fs.ne_nil_of_resolve hplace
  obtain ⟨z, hz⟩ : ∃ z, fs.node.remove dead d n i = some z := by
    refine Option.isSome_iff_exists.1 ?_
    rw [Nodes.isSome_remove, hnode]
    rfl
  refine ⟨z, Fs.get_eq_ok.2 ⟨place, ?_, hi, hz⟩, hz⟩
  unfold Fs.find Fs.resolve at hplace ⊢
  rw [if_neg hne] at hplace ⊢
  exact ((Fs.walks_of_walk hplace).remove hway).walk

/-- A file is reached without an entry that is not on its way. -/
theorem Fs.FileAt.remove (h : fs.FileAt p i data) (hway : ¬fs.OnWay true p d n) :
    (fs.remove dead d n).FileAt p i data := by
  obtain ⟨mode, hget⟩ := h
  obtain ⟨-, -, -, hnode⟩ := Fs.get_eq_ok.1 hget
  obtain ⟨z, hz, hi⟩ : ∃ z, (fs.remove dead d n).get true p = .ok (i, z) ∧
    fs.node.remove dead d n i = some z := Fs.get_remove hget hway
  obtain rfl := Option.some.inj (hi.symm.trans (Nodes.remove_of_not_dir hnode nofun))
  exact ⟨mode, hz⟩

/-! ### Files that are kept -/

theorem KeepsFiles.refl (src : Path) (fs : Fs) : KeepsFiles src fs fs := fun _ _ _ _ h => h

/-- A file of the source is there. -/
theorem KeepsFiles.isSome (h : KeepsFiles src fs₀ fs) (hi : fs₀.SourceFile src i) :
    (fs.node i).isSome := by
  obtain ⟨p, data, hp, hfile⟩ := hi
  obtain ⟨mode, hget⟩ := h p i data hp hfile
  obtain ⟨-, -, -, hnode⟩ := Fs.get_eq_ok.1 hget
  exact hnode ▸ rfl

/-- Where there is more, the files are kept if their bytes are. -/
theorem KeepsFiles.of_sub (h : KeepsFiles src fs₀ fs) (hsub : Sub fs fs')
    (hnode : ∀ i mode data, fs₀.SourceFile src i → fs.node i = some (.reg mode data) →
      ∃ mode', fs'.node i = some (.reg mode' data)) : KeepsFiles src fs₀ fs' := by
  intro p i data hp hfile
  obtain ⟨mode, hget⟩ := h p i data hp hfile
  obtain ⟨place, hplace, hi, hold⟩ := Fs.get_eq_ok.1 hget
  obtain ⟨mode', hnew⟩ := hnode i mode data ⟨p, data, hp, hfile⟩ hold
  exact ⟨mode', Fs.get_eq_ok.2 ⟨place, Fs.resolve_mono hsub hplace hi, hi, hnew⟩⟩

theorem KeepsFiles.make (h : KeepsFiles src fs₀ fs) (hmissing : fs.node.entry d n = .ok none) :
    KeepsFiles src fs₀ (fs.make d n k x hmissing) := by
  refine h.of_sub (sub_make hmissing) fun i mode data _ hold => ⟨mode, ?_⟩
  obtain ⟨mode', up, slots, hdir, -, -⟩ := Fs.dir_of_missing hmissing
  refine (Nodes.make_of_ne (Fs.ne_new (hold ▸ rfl)) ?_).trans hold
  rintro rfl
  exact absurd (hdir.symm.trans hold) nofun

/-- The bytes of another file are set. -/
theorem KeepsFiles.setData (h : KeepsFiles src fs₀ fs) (hi : ¬fs₀.SourceFile src i)
    (bytes : List UInt8) :
    KeepsFiles src fs₀ (fs.alter i (Node.setData bytes) (sameShape_setData bytes)) := by
  refine h.of_sub (sub_alter fs i _) fun j mode data hj hold => ⟨mode, ?_⟩
  refine (Nodes.alter_of_ne ?_).trans hold
  rintro rfl
  exact hi hj

theorem KeepsFiles.setMode (h : KeepsFiles src fs₀ fs) (i : Ino) (mode : ℕ) :
    KeepsFiles src fs₀ (fs.alter i (Node.setMode mode) (sameShape_setMode mode)) := by
  refine h.of_sub (sub_alter fs i _) fun j mode' data _ hold => ?_
  show ∃ perm, fs.node.alter i (Node.setMode mode) j = _
  unfold Nodes.alter
  split_ifs
  · rw [hold]
    exact ⟨mode, rfl⟩
  · exact ⟨mode', hold⟩

theorem KeepsFiles.remove (h : KeepsFiles src fs₀ fs)
    (hway : ∀ p i data, Through src p → fs₀.FileAt p i data → ¬fs.OnWay true p d n) :
    KeepsFiles src fs₀ (fs.remove dead d n) := fun p i data hp hfile =>
  (h p i data hp hfile).remove (hway p i data hp hfile)

/-- An inode that is not in use is no file of the source. -/
theorem KeepsFiles.not_source (h : KeepsFiles src fs₀ fs) (hi : fs.node i = none) :
    ¬fs₀.SourceFile src i := by
  intro hsource
  have hin := h.isSome hsource
  rw [hi] at hin
  exact Bool.false_ne_true hin

end Reached

end Vfs
end V6User
