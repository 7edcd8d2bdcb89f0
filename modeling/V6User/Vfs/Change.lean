import Mathlib.Logic.Function.Basic
import V6User.Vfs.Fs

/-!
# Changes of a file system

What system calls do to the inodes: an entry is removed (`Fs.remove`), an inode is made with
an entry for it (`Fs.make`), and the bytes or the mode of an inode are set (`Fs.alter`).
Beside each stands what it leaves of the entries, the links and the other inodes.
-/

namespace V6User
namespace Vfs

/-! ### An entry is removed -/

/-- The slots of a directory without the entry with a name; its slot stays as a dead one if
`dead` says so, and slots that are dead already stay. -/
def killSlot (dead : Bool) (slots : List Slot) (n : Name) : List Slot :=
  slots.filterMap fun s =>
    if s.name = n ∧ s.ino.isSome then (if dead then some ⟨s.name, none⟩ else none) else some s

section Kill

variable {dead : Bool} {slots : List Slot} {n m : Name} {i : Ino}

theorem mem_killSlot : (⟨m, some i⟩ : Slot) ∈ killSlot dead slots n ↔
    m ≠ n ∧ (⟨m, some i⟩ : Slot) ∈ slots := by
  unfold killSlot
  rw [List.mem_filterMap]
  constructor
  · rintro ⟨⟨k, o⟩, hs, heq⟩
    split_ifs at heq with hk
    · exact absurd (Slot.mk.inj (Option.some.inj heq)).2 nofun
    · obtain ⟨rfl, rfl⟩ := Slot.mk.inj (Option.some.inj heq)
      exact ⟨fun hn => hk ⟨hn, rfl⟩, hs⟩
  · rintro ⟨hne, hs⟩
    exact ⟨⟨m, some i⟩, hs, if_neg fun h => hne h.1⟩

/-- An entry that leaves no slot is only taken away. -/
theorem mem_of_mem_killSlot {s : Slot} (h : s ∈ killSlot false slots n) : s ∈ slots := by
  obtain ⟨t, ht, heq⟩ := List.mem_filterMap.1 h
  by_cases hkill : t.name = n ∧ t.ino.isSome
  · rw [if_pos hkill, if_neg Bool.false_ne_true] at heq
    exact absurd heq nofun
  · rw [if_neg hkill] at heq
    exact Option.some.inj heq ▸ ht

/-- The slots after the first one are treated alike. -/
theorem killSlot_cons (dead : Bool) (s : Slot) (slots : List Slot) (n : Name) :
    killSlot dead (s :: slots) n =
      (if s.name = n ∧ s.ino.isSome then (if dead then [⟨s.name, none⟩] else []) else [s]) ++
        killSlot dead slots n := by
  unfold killSlot
  rw [List.filterMap_cons]
  split_ifs <;> rfl

theorem liveNames_killSlot : List.Sublist (liveNames (killSlot dead slots n)) (liveNames slots) := by
  induction slots with
  | nil => exact List.Sublist.refl _
  | cons s slots ih =>
    obtain ⟨k, o⟩ := s
    rw [killSlot_cons]
    cases o with
    | none =>
      split_ifs
      · exact ih
      · exact ih
      · exact ih
    | some j =>
      split_ifs
      · exact ih.cons k
      · exact ih.cons k
      · exact ih.cons_cons k

end Kill

/-- The inodes without the entry of a directory. -/
def Nodes.remove (node : Nodes) (dead : Bool) (d : Ino) (n : Name) : Nodes := fun j =>
  if j = d then match node j with
    | some (.dir mode up slots) => some (.dir mode up (killSlot dead slots n))
    | x => x
  else node j

section Remove

variable {node : Nodes} {dead : Bool} {d e i : Ino} {n m : Name}

theorem Nodes.isSome_remove : (node.remove dead d n i).isSome = (node i).isSome := by
  unfold Nodes.remove
  split_ifs
  · split
    · next h => rw [h]; rfl
    · rfl
  · rfl

theorem Nodes.link_remove : (node.remove dead d n).link i = node.link i := by
  unfold Nodes.link Nodes.remove
  split_ifs
  · rcases node i with _ | (_ | _ | _ | _) <;> rfl
  · rfl

theorem Nodes.remove_dir {mode : ℕ} {up : Ino} {slots : List Slot}
    (h : node.remove dead d n e = some (.dir mode up slots)) :
    ∃ slots', node e = some (.dir mode up slots') ∧
      slots = if e = d then killSlot dead slots' n else slots' := by
  unfold Nodes.remove at h
  split_ifs at h with hd
  · rcases hn : node e with _ | (_ | _ | ⟨mode', up', slots'⟩ | _)
    all_goals rw [hn] at h
    · exact absurd h nofun
    · exact absurd h nofun
    · exact absurd h nofun
    · injection h with h
      injection h with hmode hup hslots
      exact ⟨slots', by rw [hmode, hup], by rw [if_pos hd, hslots]⟩
    · exact absurd h nofun
  · exact ⟨slots, h, (if_neg hd).symm⟩

/-- The entries that are left. -/
theorem Nodes.entry_of_remove
    (hnodup : ∀ mode up slots, node e = some (.dir mode up slots) → (liveNames slots).Nodup)
    (h : (node.remove dead d n).entry e m = .ok (some i)) : node.entry e m = .ok (some i) := by
  unfold Nodes.entry at h
  split at h
  · next mode up slots hdir =>
    obtain ⟨slots', hold, hslots⟩ := Nodes.remove_dir hdir
    unfold Nodes.entry
    rw [hold]
    dsimp only
    split_ifs at h ⊢ with hdot hdotdot
    · exact h
    · exact h
    · have hfind := Except.ok.inj h
      have hnd := hnodup mode up slots' hold
      split_ifs at hslots with hd
      · rw [hslots, findSlot_eq_some_iff (hnd.sublist liveNames_killSlot), mem_killSlot] at hfind
        rw [(findSlot_eq_some_iff hnd).2 hfind.2]
      · rw [← hslots, hfind]
  · exact absurd h nofun

end Remove

/-- The file system without the entry of a directory. -/
def Fs.remove (fs : Fs) (dead : Bool) (d : Ino) (n : Name) : Fs where
  node := fs.node.remove dead d n
  root := fs.root
  cwd := fs.cwd
  maxLinks := fs.maxLinks
  next := fs.next
  unused i hi := by
    rw [← Option.not_isSome_iff_eq_none, Nodes.isSome_remove, fs.unused i hi]
    exact Bool.false_ne_true
  nodup e mode up slots h := by
    obtain ⟨slots', hold, rfl⟩ := Nodes.remove_dir h
    have hnd := fs.nodup e mode up slots' hold
    split_ifs
    · exact hnd.sublist liveNames_killSlot
    · exact hnd
  closed e m i h := by
    rw [Nodes.isSome_remove]
    exact fs.closed e m i (Nodes.entry_of_remove (fs.nodup e) h)

/-! ### An inode is made -/

/-- What may be made. -/
inductive New where
  | file (mode : ℕ)
  | link (target : Path)
  | folder (mode : ℕ)

/-- The inode, below the directory `d`. -/
def New.node (d : Ino) : New → Node
  | .file mode => .reg mode []
  | .link target => .lnk target
  | .folder mode => .dir mode d []

/-- The slots of a directory with one more, in place of a dead slot or at the end. -/
def addSlot (slots : List Slot) (k : ℕ) (s : Slot) : List Slot :=
  match slots[k]? with
  | some ⟨_, none⟩ => slots.set k s
  | _ => slots ++ [s]

section Add

variable {slots : List Slot} {k : ℕ} {n m : Name} {i j : Ino}

/-- Either a dead slot was replaced, or nothing. -/
theorem addSlot_cases (slots : List Slot) (k : ℕ) (s : Slot) :
    (∃ l m r, slots = l ++ ⟨m, none⟩ :: r ∧ addSlot slots k s = l ++ s :: r) ∨
      addSlot slots k s = slots ++ [s] := by
  unfold addSlot
  split
  · next m hk =>
    left
    obtain ⟨hlt, hget⟩ := List.getElem?_eq_some_iff.1 hk
    refine ⟨slots.take k, m, slots.drop (k + 1), ?_, List.set_eq_take_append_cons_drop .. ▸ ?_⟩
    · rw [← hget, ← List.drop_eq_getElem_cons hlt, List.take_append_drop]
    · rw [if_pos hlt]
  · exact .inr rfl

theorem mem_addSlot : (⟨m, some i⟩ : Slot) ∈ addSlot slots k ⟨n, some j⟩ ↔
    (m = n ∧ i = j) ∨ (⟨m, some i⟩ : Slot) ∈ slots := by
  have hnew : (⟨m, some i⟩ : Slot) = ⟨n, some j⟩ ↔ m = n ∧ i = j := by
    rw [Slot.mk.injEq, Option.some.injEq]
  rcases addSlot_cases slots k ⟨n, some j⟩ with ⟨l, o, r, hslots, hadd⟩ | hadd
  · have hdead : (⟨m, some i⟩ : Slot) ≠ ⟨o, none⟩ := fun h => absurd (Slot.mk.inj h).2 nofun
    rw [hadd, hslots, List.mem_append, List.mem_cons, hnew, List.mem_append, List.mem_cons]
    constructor
    · rintro (h | h | h)
      · exact .inr (.inl h)
      · exact .inl h
      · exact .inr (.inr (.inr h))
    · rintro (h | h | h | h)
      · exact .inr (.inl h)
      · exact .inl h
      · exact absurd h hdead
      · exact .inr (.inr h)
  · rw [hadd, List.mem_append, List.mem_singleton, hnew, or_comm]

theorem liveNames_addSlot : (liveNames (addSlot slots k ⟨n, some j⟩)).Perm
    (n :: liveNames slots) := by
  rcases addSlot_cases slots k ⟨n, some j⟩ with ⟨l, o, r, hslots, hadd⟩ | hadd
  · rw [hadd, hslots]
    unfold liveNames
    rw [List.filterMap_append, List.filterMap_append]
    exact List.perm_middle
  · rw [hadd]
    unfold liveNames
    rw [List.filterMap_append]
    exact List.perm_append_singleton _ _

end Add

/-- The inodes with one more, and an entry for it. -/
def Nodes.make (node : Nodes) (d new : Ino) (n : Name) (k : ℕ) (x : New) : Nodes := fun j =>
  if j = new then some (x.node d)
  else if j = d then match node j with
    | some (.dir mode up slots) => some (.dir mode up (addSlot slots k ⟨n, some new⟩))
    | x => x
  else node j

section Make

variable {node : Nodes} {d new e i : Ino} {n m : Name} {k : ℕ} {x : New}

theorem Nodes.make_self : node.make d new n k x new = some (x.node d) := if_pos rfl

theorem Nodes.make_of_ne (hnew : e ≠ new) (hd : e ≠ d) : node.make d new n k x e = node e := by
  rw [Nodes.make, if_neg hnew, if_neg hd]

theorem Nodes.make_dir {mode : ℕ} {up : Ino} {slots : List Slot} (hne : d ≠ new)
    (h : node d = some (.dir mode up slots)) :
    node.make d new n k x d = some (.dir mode up (addSlot slots k ⟨n, some new⟩)) := by
  rw [Nodes.make, if_neg hne, if_pos rfl, h]

theorem Nodes.isSome_make (h : (node i).isSome) : (node.make d new n k x i).isSome := by
  unfold Nodes.make
  split_ifs
  · rfl
  · split
    · rfl
    · exact h
  · exact h

theorem Nodes.link_make (h : i ≠ new) : (node.make d new n k x).link i = node.link i := by
  unfold Nodes.link Nodes.make
  rw [if_neg h]
  split_ifs
  · rcases node i with _ | (_ | _ | _ | _) <;> rfl
  · rfl

/-- A directory of the file system, from what it is where an inode was made. -/
theorem Nodes.dir_of_make {mode : ℕ} {up : Ino} {slots : List Slot} (hnew : e ≠ new)
    (h : node.make d new n k x e = some (.dir mode up slots)) :
    ∃ slots', node e = some (.dir mode up slots') ∧
      slots = if e = d then addSlot slots' k ⟨n, some new⟩ else slots' := by
  rw [Nodes.make, if_neg hnew] at h
  split_ifs at h with hd
  · rcases hn : node e with _ | (_ | _ | ⟨mode', up', slots'⟩ | _)
    all_goals rw [hn] at h
    · exact absurd h nofun
    · exact absurd h nofun
    · exact absurd h nofun
    · injection h with h
      injection h with hmode hup hslots
      exact ⟨slots', by rw [hmode, hup], by rw [if_pos hd, hslots]⟩
    · exact absurd h nofun
  · exact ⟨slots, h, (if_neg hd).symm⟩

end Make

/-- The number of the next inode, on the device of a directory. -/
def Fs.new (fs : Fs) (d : Ino) : Ino := ⟨d.dev, fs.next⟩

section MakeFs

variable {fs : Fs} {d e i : Ino} {n m : Name} {k : ℕ} {x : New}

theorem Fs.ne_new (h : (fs.node i).isSome) : i ≠ fs.new d := by
  rintro rfl
  rw [fs.unused _ (Nat.le_refl _)] at h
  exact Bool.false_ne_true h

/-- A directory that an entry is missing in. -/
theorem Fs.dir_of_missing (h : fs.node.entry d n = .ok none) :
    ∃ mode up slots, fs.node d = some (.dir mode up slots) ∧ ¬n.IsDots ∧
      n ∉ liveNames slots := by
  unfold Nodes.entry at h
  split at h
  · next mode up slots hdir =>
    split_ifs at h with hdot hdotdot
    · exact absurd (Except.ok.inj h) nofun
    · exact absurd (Except.ok.inj h) nofun
    · refine ⟨mode, up, slots, hdir, fun hn => hn.elim hdot hdotdot, fun hmem => ?_⟩
      obtain ⟨⟨m, o⟩, hs, hm⟩ := List.mem_filterMap.1 hmem
      obtain ⟨i, rfl, rfl⟩ := Option.map_eq_some_iff.1 hm
      rw [(findSlot_eq_some_iff (fs.nodup d mode up slots hdir)).2 hs] at h
      exact absurd (Except.ok.inj h) nofun
  · exact absurd h nofun

/-- The slots of the directory that got the entry. -/
theorem Fs.findSlot_make {mode : ℕ} {up : Ino} {slots : List Slot}
    (hdir : fs.node d = some (.dir mode up slots)) (hnot : n ∉ liveNames slots) (j : Ino) :
    findSlot (addSlot slots k ⟨n, some j⟩) m = some i ↔
      (m = n ∧ i = j) ∨ findSlot slots m = some i := by
  have hnd := fs.nodup d mode up slots hdir
  rw [findSlot_eq_some_iff (liveNames_addSlot.nodup_iff.2 (List.nodup_cons.2 ⟨hnot, hnd⟩)),
    findSlot_eq_some_iff hnd, mem_addSlot]

/-- What was there is there where an inode was made. -/
theorem Fs.entry_make_of_entry (h : fs.node.entry d n = .ok none)
    (hold : fs.node.entry e m = .ok (some i)) :
    (fs.node.make d (fs.new d) n k x).entry e m = .ok (some i) := by
  obtain ⟨mode, up, slots, hdir, -, hnot⟩ := Fs.dir_of_missing h
  have hnew : e ≠ fs.new d := by
    refine Fs.ne_new ?_
    unfold Nodes.entry at hold
    split at hold
    · next he => rw [he]; rfl
    · exact absurd hold nofun
  by_cases hd : e = d
  · subst hd
    unfold Nodes.entry at hold ⊢
    rw [hdir] at hold
    rw [Nodes.make_dir hnew hdir]
    dsimp only at hold ⊢
    split_ifs at hold ⊢
    · exact hold
    · exact hold
    · rw [(Fs.findSlot_make hdir hnot _).2 (.inr (Except.ok.inj hold))]
  · unfold Nodes.entry at hold ⊢
    rw [Nodes.make_of_ne hnew hd]
    exact hold

/-- The entry for the inode that was made. -/
theorem Fs.entry_make_self (h : fs.node.entry d n = .ok none) :
    (fs.node.make d (fs.new d) n k x).entry d n = .ok (some (fs.new d)) := by
  obtain ⟨mode, up, slots, hdir, hdots, hnot⟩ := Fs.dir_of_missing h
  unfold Nodes.entry
  rw [Nodes.make_dir (Fs.ne_new (by rw [hdir]; rfl)) hdir]
  dsimp only
  rw [if_neg fun hn => hdots (.inl hn), if_neg fun hn => hdots (.inr hn),
    (Fs.findSlot_make hdir hnot _).2 (.inl ⟨rfl, rfl⟩)]

/-- Where an entry leads to after an inode was made. -/
theorem Fs.of_entry_make (h : fs.node.entry d n = .ok none)
    (hentry : (fs.node.make d (fs.new d) n k x).entry e m = .ok (some i)) :
    fs.node.entry e m = .ok (some i) ∨ i = fs.new d ∨ i = d := by
  obtain ⟨mode, up, slots, hdir, -, hnot⟩ := Fs.dir_of_missing h
  by_cases hnew : e = fs.new d
  · subst hnew
    right
    unfold Nodes.entry at hentry
    rw [Nodes.make_self] at hentry
    cases x with
    | file mode => exact absurd hentry nofun
    | link target => exact absurd hentry nofun
    | folder mode =>
      dsimp only [New.node] at hentry
      split_ifs at hentry
      · exact .inl (Option.some.inj (Except.ok.inj hentry)).symm
      · exact .inr (Option.some.inj (Except.ok.inj hentry)).symm
      · exact absurd (Except.ok.inj hentry) nofun
  · by_cases hd : e = d
    · subst hd
      unfold Nodes.entry at hentry ⊢
      rw [Nodes.make_dir hnew hdir] at hentry
      rw [hdir]
      dsimp only at hentry ⊢
      split_ifs at hentry ⊢
      · exact .inl hentry
      · exact .inl hentry
      · rcases (Fs.findSlot_make hdir hnot _).1 (Except.ok.inj hentry) with ⟨-, hi⟩ | hold
        · exact .inr (.inl hi)
        · exact .inl (by rw [hold])
    · unfold Nodes.entry at hentry ⊢
      rw [Nodes.make_of_ne hnew hd] at hentry
      exact .inl hentry

/-- The file system with one more inode, and an entry for it. -/
def Fs.make (fs : Fs) (d : Ino) (n : Name) (k : ℕ) (x : New)
    (h : fs.node.entry d n = .ok none) : Fs where
  node := fs.node.make d (fs.new d) n k x
  root := fs.root
  cwd := fs.cwd
  maxLinks := fs.maxLinks
  next := fs.next + 1
  unused i hi := by
    obtain ⟨mode, up, slots, hdir, -, -⟩ := Fs.dir_of_missing h
    have hne : i ≠ fs.new d := by
      rintro rfl
      exact Nat.not_succ_le_self _ hi
    have hd : i ≠ d := by
      rintro rfl
      rw [fs.unused i (Nat.le_of_succ_le hi)] at hdir
      exact absurd hdir nofun
    rw [Nodes.make_of_ne hne hd, fs.unused i (Nat.le_of_succ_le hi)]
  nodup e mode up slots hdir := by
    by_cases hnew : e = fs.new d
    · rw [hnew, Nodes.make_self] at hdir
      cases x with
      | file => exact absurd hdir nofun
      | link => exact absurd hdir nofun
      | folder =>
        injection hdir with hdir
        injection hdir with _ _ hslots
        rw [← hslots]
        exact List.nodup_nil
    · obtain ⟨slots', hold, rfl⟩ := Nodes.dir_of_make hnew hdir
      have hnd := fs.nodup e mode up slots' hold
      split_ifs with hd
      · subst hd
        obtain ⟨mode', up', slots'', hdir', -, hnot⟩ := Fs.dir_of_missing h
        rw [hold] at hdir'
        injection hdir' with hdir'
        injection hdir' with _ _ hslots
        rw [liveNames_addSlot.nodup_iff, List.nodup_cons]
        exact ⟨hslots ▸ hnot, hnd⟩
      · exact hnd
  closed e m i hentry := by
    obtain ⟨mode, up, slots, hdir, -, -⟩ := Fs.dir_of_missing h
    rcases Fs.of_entry_make h hentry with hold | rfl | rfl
    · exact Nodes.isSome_make (fs.closed e m i hold)
    · rw [Nodes.make_self]
      rfl
    · exact Nodes.isSome_make (by rw [hdir]; rfl)

end MakeFs

/-! ### An inode is altered -/

/-- An inode that is altered stays what it is, with the same entries or the same target. -/
inductive SameShape : Node → Node → Prop
  | reg (mode mode' data data') : SameShape (.reg mode data) (.reg mode' data')
  | lnk (target) : SameShape (.lnk target) (.lnk target)
  | dir (mode mode' up slots) : SameShape (.dir mode up slots) (.dir mode' up slots)
  | other (mode mode') : SameShape (.other mode) (.other mode')

/-- The inodes with one altered. -/
def Nodes.alter (node : Nodes) (i : Ino) (f : Node → Node) : Nodes := fun j =>
  if j = i then (node j).map f else node j

section Alter

variable {node : Nodes} {d i j : Ino} {n : Name} {f : Node → Node}

theorem Nodes.alter_of_ne (h : j ≠ i) : node.alter i f j = node j := if_neg h

theorem Nodes.isSome_alter : (node.alter i f j).isSome = (node j).isSome := by
  unfold Nodes.alter
  split_ifs
  · exact Option.isSome_map
  · rfl

theorem Nodes.link_alter (hf : ∀ x, SameShape x (f x)) : (node.alter i f).link j = node.link j := by
  unfold Nodes.link Nodes.alter
  split_ifs
  · rcases node j with _ | x
    · rfl
    · have hx := hf x
      rw [Option.map_some]
      generalize f x = y at hx
      cases hx <;> rfl
  · rfl

theorem Nodes.entry_alter (hf : ∀ x, SameShape x (f x)) :
    (node.alter i f).entry d n = node.entry d n := by
  unfold Nodes.entry
  by_cases hd : d = i
  · rw [Nodes.alter, if_pos hd]
    rcases node d with _ | x
    · rfl
    · have hx := hf x
      rw [Option.map_some]
      generalize f x = y at hx
      cases hx <;> rfl
  · rw [Nodes.alter_of_ne hd]

end Alter

/-- The file system with one inode altered. -/
def Fs.alter (fs : Fs) (i : Ino) (f : Node → Node) (hf : ∀ x, SameShape x (f x)) : Fs where
  node := fs.node.alter i f
  root := fs.root
  cwd := fs.cwd
  maxLinks := fs.maxLinks
  next := fs.next
  unused j hj := by
    rw [← Option.not_isSome_iff_eq_none, Nodes.isSome_alter, fs.unused j hj]
    exact Bool.false_ne_true
  nodup e mode up slots h := by
    unfold Nodes.alter at h
    split_ifs at h
    · obtain ⟨x, hx, hfx⟩ := Option.map_eq_some_iff.1 h
      have hshape := hf x
      rw [hfx] at hshape
      cases hshape with
      | dir mode' => exact fs.nodup e mode' up slots hx
    · exact fs.nodup e mode up slots h
  closed d n j h := by
    rw [Nodes.isSome_alter]
    exact fs.closed d n j ((Nodes.entry_alter hf).symm.trans h)

end Vfs
end V6User
