import V6User.Vfs.Change

/-!
# Directory trees

`InTree fs top d` says that the directory `d` is reached from `top` through entries, and
never through a symbolic link.  A file system `Shrinks` to another where entries were removed
and nothing else, and where a directory lost the entry for it only when it was empty.  So a
directory without entries whose tree shrank has no tree left (`Shrinks.tree_gone`).
-/

namespace V6User
namespace Vfs

/-- What is reached from `top` through the entries of directories. -/
inductive InTree (fs : Fs) (top : Ino) : Ino → Prop
  | top : InTree fs top top
  | child {d n i} (h : InTree fs top d) (hi : fs.child d n = some i) : InTree fs top i

/-- Entries were removed, each of them for a file, a link or a directory that is empty
then. -/
structure Shrinks (fs fs' : Fs) : Prop where
  sub : Sub fs' fs
  tidy : ∀ d n i, fs.child d n = some i → fs'.child d n = none → ∀ m, fs'.child i m = none

section Trees

variable {fs fs' fs'' : Fs} {dead : Bool} {top d e i j : Ino} {n m : Name}

/-- The name of a child is not `.` or `..`. -/
theorem Fs.not_isDots_of_child (h : fs.child d n = some i) : ¬n.IsDots := by
  unfold Fs.child at h
  split at h
  · split_ifs at h with hdots
    exact hdots
  · exact absurd h nofun

theorem Sub.child (h : Sub fs fs') (hi : fs.child d n = some i) : fs'.child d n = some i :=
  Fs.child_of_entry (h.entry d n i (Fs.entry_of_child hi)) (Fs.not_isDots_of_child hi)

theorem Sub.inTree (h : Sub fs fs') (hd : InTree fs top d) : InTree fs' top d := by
  induction hd with
  | top => exact .top
  | child _ hi ih => exact .child ih (h.child hi)

/-- A directory lies in the tree of one in whose tree it was found. -/
theorem InTree.trans (hd : InTree fs top d) (he : InTree fs d e) : InTree fs top e := by
  induction he with
  | top => exact hd
  | child _ hi ih => exact .child ih hi

/-! ### An entry is removed -/

/-- The slot with another name is found as before. -/
theorem findSlot_killSlot (dead : Bool) (slots : List Slot) (n m : Name) :
    findSlot (killSlot dead slots n) m = if m = n then none else findSlot slots m := by
  induction slots with
  | nil => exact (ite_self _).symm
  | cons s slots ih =>
    have hcons : ∀ (s : Slot) (l : List Slot), findSlot (s :: l) m =
        ((if s.name = m then s.ino else none).or (findSlot l m)) := by
      intro s l
      unfold findSlot
      rw [List.findSome?_cons]
      rcases (if s.name = m then s.ino else none) with _ | i <;> rfl
    rw [killSlot_cons, hcons]
    by_cases hn : s.name = n ∧ s.ino.isSome
    · -- the slot is dead or gone, and it is not found by another name
      rw [if_pos hn]
      have hgone : ∀ l, findSlot ((if dead then [⟨s.name, none⟩] else []) ++ l) m =
          findSlot l m := by
        intro l
        cases dead with
        | true =>
          rw [if_pos rfl, List.singleton_append, hcons, ite_self]
          rfl
        | false => rfl
      rw [hgone, ih]
      by_cases hm : m = n
      · rw [if_pos hm, if_pos hm]
      · have hne : s.name ≠ m := fun h => hm (h.symm.trans hn.1)
        rw [if_neg hm, if_neg hm, if_neg hne]
        rfl
    · rw [if_neg hn, List.singleton_append, hcons, ih]
      by_cases hm : m = n
      · -- a slot with the name that stays is dead
        have hnone : (if s.name = m then s.ino else none) = none := by
          split_ifs with hs
          · exact Option.not_isSome_iff_eq_none.1 fun h => hn ⟨hs.trans hm, h⟩
          · rfl
        rw [if_pos hm, if_pos hm, hnone]
        rfl
      · rw [if_neg hm, if_neg hm]

/-- Whether the slot stays makes no difference to the entries. -/
theorem Nodes.entry_remove_dead (node : Nodes) (dead dead' : Bool) (d : Ino) (n : Name) (e : Ino)
    (m : Name) : (node.remove dead d n).entry e m = (node.remove dead' d n).entry e m := by
  unfold Nodes.entry Nodes.remove
  by_cases he : e = d
  · rw [if_pos he, if_pos he]
    rcases node e with _ | (_ | _ | ⟨mode, up, slots⟩ | _)
    case some.dir =>
      dsimp only
      rw [findSlot_killSlot, findSlot_killSlot]
    all_goals rfl
  · rw [if_neg he, if_neg he]

theorem Fs.child_remove (fs : Fs) (dead : Bool) (d : Ino) (n : Name) (e : Ino) (m : Name) :
    (fs.remove dead d n).child e m = if e = d ∧ m = n then none else fs.child e m := by
  unfold Fs.child Fs.remove Nodes.remove
  dsimp only
  by_cases he : e = d
  · rw [if_pos he]
    rcases fs.node e with _ | (_ | _ | ⟨mode, up, slots⟩ | _)
    case some.dir =>
      dsimp only
      rw [findSlot_killSlot]
      by_cases hm : m = n
      · simp [he, hm]
      · simp [hm]
    all_goals exact (ite_self _).symm
  · rw [if_neg he, if_neg fun h => he h.1]

theorem sub_remove (fs : Fs) (dead : Bool) (d : Ino) (n : Name) : Sub (fs.remove dead d n) fs where
  root := rfl
  cwd := rfl
  maxLinks := rfl
  entry e _ _ hi := Nodes.entry_of_remove (fs.nodup e) hi
  isSome _ hi := Nodes.isSome_remove.symm.trans hi
  link _ _ := Nodes.link_remove.symm

/-- The file systems with and without the dead slot have the same entries. -/
theorem sub_remove_dead (fs : Fs) (dead dead' : Bool) (d : Ino) (n : Name) :
    Sub (fs.remove dead d n) (fs.remove dead' d n) where
  root := rfl
  cwd := rfl
  maxLinks := rfl
  entry e m _ hi := (Nodes.entry_remove_dead fs.node dead' dead d n e m).trans hi
  isSome _ hi := Nodes.isSome_remove.trans (Nodes.isSome_remove.symm.trans hi)
  link _ _ := Nodes.link_remove.trans Nodes.link_remove.symm

/-! ### Entries are removed -/

namespace Shrinks

theorem refl (fs : Fs) : Shrinks fs fs :=
  ⟨Sub.refl fs, fun _ _ _ hi hnone => absurd (hi.symm.trans hnone) nofun⟩

/-- An entry that is left is the one that was there. -/
theorem child_eq (h : Shrinks fs fs') (hi : fs.child d n = some i) :
    fs'.child d n = some i ∨ fs'.child d n = none := by
  rcases hchild : fs'.child d n with _ | j
  · exact .inr rfl
  · exact .inl ((h.sub.child hchild).symm.trans hi)

theorem trans (h : Shrinks fs fs') (h' : Shrinks fs' fs'') : Shrinks fs fs'' := by
  refine ⟨h'.sub.trans h.sub, fun d n i hi hnone m => ?_⟩
  rcases h.child_eq hi with hkept | hgone
  · exact h'.tidy d n i hkept hnone m
  · -- the directory was empty before, and no entry is new
    rcases hchild : fs''.child i m with _ | j
    · rfl
    · exact absurd ((h'.sub.child hchild).symm.trans (h.tidy d n i hi hgone m)) nofun

/-- The entry of a file, a link or an empty directory is removed. -/
theorem remove (hempty : ∀ i, fs.child d n = some i → ∀ m, fs.child i m = none) :
    Shrinks fs (fs.remove dead d n) := by
  refine ⟨sub_remove fs dead d n, fun e m i hi hnone k => ?_⟩
  rw [Fs.child_remove] at hnone ⊢
  by_cases hem : e = d ∧ m = n
  · obtain ⟨rfl, rfl⟩ := hem
    rw [hempty i hi k, ite_self]
  · rw [if_neg hem, hi] at hnone
    exact absurd hnone nofun

/-- **A tree is gone** when its top has no entries. -/
theorem tree_gone (h : Shrinks fs fs') (htop : ∀ m, fs'.child top m = none)
    (hd : InTree fs top d) (m : Name) : fs'.child d m = none := by
  induction hd generalizing m with
  | top => exact htop m
  | child _ hi ih => exact h.tidy _ _ _ hi (ih _) m

end Shrinks

/-- Entries were removed in the tree of `top`, and nowhere else. -/
structure ShrinksIn (fs : Fs) (top : Ino) (fs' : Fs) : Prop extends Shrinks fs fs' where
  inside : ∀ d n i, fs.child d n = some i → fs'.child d n = none → InTree fs top d

theorem ShrinksIn.refl (fs : Fs) (top : Ino) : ShrinksIn fs top fs :=
  ⟨Shrinks.refl fs, fun _ _ _ hi hnone => absurd (hi.symm.trans hnone) nofun⟩

theorem ShrinksIn.trans (h : ShrinksIn fs top fs') (h' : Shrinks fs' fs'')
    (hin : ∀ d n i, fs'.child d n = some i → fs''.child d n = none → InTree fs top d) :
    ShrinksIn fs top fs'' := by
  refine ⟨h.toShrinks.trans h', fun d n i hi hnone => ?_⟩
  rcases h.toShrinks.child_eq hi with hkept | hgone
  · exact hin d n i hkept hnone
  · exact h.inside d n i hi hgone

end Trees

end Vfs
end V6User
