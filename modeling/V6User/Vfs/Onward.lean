import V6User.Vfs.Unlink

/-!
# What stays

No call takes back a call that was made before it or an inode that is in use (`Onward`), and so
no program does.
-/

namespace V6User
namespace Vfs

open Effect

/-- The calls that were made and the inodes in use stay. -/
structure Onward (w w' : World) : Prop where
  calls : w.calls <:+ w'.calls
  node : ∀ i, (w.fs.node i).isSome → (w'.fs.node i).isSome

instance : Std.Refl Onward := ⟨fun w => ⟨List.suffix_refl w.calls, fun _ h => h⟩⟩

instance : IsTrans World Onward :=
  ⟨fun _ _ _ h h' => ⟨h.calls.trans h'.calls, fun i hi => h'.node i (h.node i hi)⟩⟩

section Onward

variable {α : Type} {c : Call}

/-- A call keeps what it does not take back in the file system. -/
theorem onward_sys {f : Outcome → Fs → Except Errno (α × Fs)}
    (hf : ∀ o fs a fs', f o fs = .ok (a, fs') → ∀ i, (fs.node i).isSome → (fs'.node i).isSome) :
    Keeps Onward (sys c f) := by
  intro w r w' h
  obtain ⟨-, hcalls, ⟨e, -, hfs, -⟩ | ⟨o, a, hok, -⟩⟩ := runs_sys h
  · refine ⟨hcalls ▸ List.suffix_cons _ _, fun i hi => ?_⟩
    rw [hfs]
    exact hi
  · exact ⟨hcalls ▸ List.suffix_cons _ _, hf o _ a _ hok⟩

theorem onward_look {f : Outcome → Fs → Except Errno α} : Keeps Onward (look c f) := by
  refine onward_sys fun o fs a fs' h i hi => ?_
  rcases hf : f o fs with e | b
  · rw [hf] at h
    exact absurd h nofun
  · rw [hf] at h
    obtain ⟨-, rfl⟩ := Prod.mk.inj (Except.ok.inj h)
    exact hi

theorem onward_change {f : Outcome → Fs → Except Errno Fs}
    (hf : ∀ o fs fs', f o fs = .ok fs' → ∀ i, (fs.node i).isSome → (fs'.node i).isSome) :
    Keeps Onward (change c f) := by
  refine onward_sys fun o fs a fs' h => ?_
  rcases hfo : f o fs with e | b
  · rw [hfo] at h
    exact absurd h nofun
  · rw [hfo] at h
    obtain ⟨-, rfl⟩ := Prod.mk.inj (Except.ok.inj h)
    exact hf o fs b hfo

end Onward

section Calls

variable {fs fs' : Fs} {d i : Ino} {n : Name} {k : ℕ} {x : New}

/-- What is made where an entry is missing. -/
theorem Fs.makeAt_eq_ok (h : fs.makeAt d n k x = .ok (i, fs')) :
    ∃ hmissing : fs.node.entry d n = .ok none, i = fs.new d ∧ fs' = fs.make d n k x hmissing := by
  unfold Fs.makeAt at h
  split at h
  · exact absurd h nofun
  · exact absurd h nofun
  · next hmissing =>
    obtain ⟨rfl, rfl⟩ := Prod.mk.inj (Except.ok.inj h)
    exact ⟨hmissing, rfl, rfl⟩

/-- Something is made at a place only where an entry is missing. -/
theorem Fs.makeNew_eq_ok {place : Except Errno Place} (h : fs.makeNew place k x = .ok fs') :
    ∃ d n, ∃ hmissing : fs.node.entry d n = .ok none, place = .ok (.entry d n none) ∧
      fs' = fs.make d n k x hmissing := by
  unfold Fs.makeNew at h
  split at h
  · exact absurd h nofun
  · next d n =>
    rcases hmake : fs.makeAt d n k x with e | ⟨i, fs₁⟩
    · rw [hmake] at h
      exact absurd h nofun
    · rw [hmake] at h
      obtain ⟨hmissing, -, hfs⟩ := Fs.makeAt_eq_ok hmake
      exact ⟨d, n, hmissing, rfl, (Except.ok.inj h).symm.trans hfs⟩
  · exact absurd h nofun

/-- A file that is opened for writing is made or emptied. -/
theorem Fs.openWrite_eq_ok {mode : ℕ} {path : Path} (h : fs.openWrite k mode path = .ok (i, fs')) :
    (∃ d n, ∃ hmissing : fs.node.entry d n = .ok none, fs.find true path = .ok (.entry d n none) ∧
      i = fs.new d ∧ fs' = fs.make d n k (.file mode) hmissing) ∨
    ∃ place, fs.find true path = .ok place ∧ place.ino = some i ∧
      fs' = fs.alter i (Node.setData []) (sameShape_setData []) := by
  have hthere : ∀ j, fs.truncate j = .ok (i, fs') →
      j = i ∧ fs' = fs.alter i (Node.setData []) (sameShape_setData []) := by
    intro j hj
    unfold Fs.truncate at hj
    split at hj
    · exact absurd hj nofun
    · obtain ⟨rfl, rfl⟩ := Prod.mk.inj (Except.ok.inj hj)
      exact ⟨rfl, rfl⟩
  unfold Fs.openWrite at h
  rcases hfind : fs.find true path with e | (j | ⟨d, n, _ | j⟩)
  all_goals rw [hfind] at h
  · exact absurd h nofun
  · obtain ⟨rfl, hfs⟩ := hthere j h
    exact .inr ⟨_, rfl, rfl, hfs⟩
  · obtain ⟨hmissing, hi, hfs⟩ := Fs.makeAt_eq_ok h
    exact .inl ⟨d, n, hmissing, rfl, hi, hfs⟩
  · obtain ⟨rfl, hfs⟩ := hthere j h
    exact .inr ⟨_, rfl, rfl, hfs⟩

theorem sub_alter (fs : Fs) (i : Ino) {f : Node → Node} (hf : ∀ x, SameShape x (f x)) :
    Sub fs (fs.alter i f hf) where
  root := rfl
  cwd := rfl
  maxLinks := rfl
  entry _ _ _ h := (Nodes.entry_alter hf).trans h
  isSome _ h := Nodes.isSome_alter.trans h
  link _ _ := Nodes.link_alter hf

theorem sub_make (h : fs.node.entry d n = .ok none) : Sub fs (fs.make d n k x h) where
  root := rfl
  cwd := rfl
  maxLinks := rfl
  entry _ _ _ hold := Fs.entry_make_of_entry h hold
  isSome _ hi := Nodes.isSome_make hi
  link _ hi := Nodes.link_make (Fs.ne_new hi)

/-- What a path leads to, if there is something, is a file, and it is another one than `i`. -/
def Fs.OtherFile (fs : Fs) (i : Ino) (path : Path) : Prop :=
  ∀ place j, fs.find true path = .ok place → place.ino = some j →
    j ≠ i ∧ ∃ mode data, fs.node j = some (.reg mode data)

/-- **The file that is opened for writing** is empty, and it is what the path leads to; another
file stays as it was. -/
theorem Fs.openWrite_spec {mode mode' : ℕ} {data : List UInt8} {path : Path} {s : Ino}
    (h : fs.openWrite k mode path = .ok (i, fs')) (hother : fs.OtherFile s path)
    (hs : fs.node s = some (.reg mode' data)) :
    i ≠ s ∧ Sub fs fs' ∧ (∃ perm, fs'.get true path = .ok (i, .reg perm [])) ∧
      fs'.node s = some (.reg mode' data) := by
  rcases Fs.openWrite_eq_ok h with ⟨d, n, hmissing, hfind, rfl, rfl⟩ | ⟨place, hfind, hi, rfl⟩
  · have hnode : (fs.make d n k (.file mode) hmissing).node (fs.new d) = some (.reg mode []) :=
      Nodes.make_self
    have hlink : (fs.make d n k (.file mode) hmissing).node.link (fs.new d) = none := by
      unfold Nodes.link
      rw [hnode]
    obtain ⟨mode', up, slots, hdir, -, -⟩ := Fs.dir_of_missing hmissing
    have hnew : s ≠ fs.new d := Fs.ne_new (hs ▸ rfl)
    have hd : s ≠ d := by
      rintro rfl
      rw [hdir] at hs
      exact absurd hs nofun
    refine ⟨hnew.symm, sub_make hmissing, ⟨mode, ?_⟩, (Nodes.make_of_ne hnew hd).trans hs⟩
    exact Fs.get_eq_ok.2 ⟨_, Fs.resolve_made (sub_make hmissing) hfind
      (Fs.entry_make_self hmissing) fun _ => hlink, rfl, hnode⟩
  · obtain ⟨hne, perm, old, hi'⟩ := hother place i hfind hi
    have hsub := sub_alter fs i (sameShape_setData [])
    have hnode : (fs.alter i (Node.setData []) (sameShape_setData [])).node i =
        some (.reg perm []) := by
      show (fs.node.alter i (Node.setData [])) i = _
      rw [Nodes.alter, if_pos rfl, hi']
      rfl
    refine ⟨hne, hsub, ⟨perm, ?_⟩, (Nodes.alter_of_ne hne.symm).trans hs⟩
    exact Fs.get_eq_ok.2 ⟨place, Fs.resolve_mono hsub hfind hi, hi, hnode⟩

/-- Only a file is written to. -/
theorem Fs.write_eq_ok {fd : Ino} {pos w : ℕ} {bytes : List UInt8}
    (h : fs.write fd pos bytes = .ok (w, fs')) :
    ∃ mode data, fs.node fd = some (.reg mode data) ∧ w = bytes.length ∧
      fs' = fs.alter fd (Node.setData (writeAt data pos bytes)) (sameShape_setData _) := by
  unfold Fs.write at h
  split at h
  · next mode data hnode =>
    obtain ⟨rfl, rfl⟩ := Prod.mk.inj (Except.ok.inj h)
    exact ⟨mode, data, hnode, rfl, rfl⟩
  · exact absurd h nofun

theorem Fs.isSome_makeNew {place : Except Errno Place} (h : fs.makeNew place k x = .ok fs')
    (hi : (fs.node i).isSome) : (fs'.node i).isSome := by
  obtain ⟨d, n, hmissing, -, rfl⟩ := Fs.makeNew_eq_ok h
  exact Nodes.isSome_make hi

theorem onward_unlink (path : Path) : Keeps Onward (unlink path) := by
  refine onward_change fun o fs fs' h i hi => ?_
  obtain ⟨d, n, j, -, -, -, -, rfl⟩ := Fs.unlink_eq_ok h
  exact Nodes.isSome_remove.trans hi

theorem onward_chmod (path : Path) (mode : ℕ) : Keeps Onward (chmod path mode) := by
  refine onward_change fun o fs fs' h i hi => ?_
  rcases hget : fs.get true path with e | y
  · rw [hget] at h
    exact absurd h nofun
  · rw [hget] at h
    rw [← Except.ok.inj h]
    exact Nodes.isSome_alter.trans hi

theorem onward_openWrite (path : Path) : Keeps Onward (openWrite path) := by
  refine onward_sys fun o fs a fs' h i hi => ?_
  rcases Fs.openWrite_eq_ok h with ⟨d, n, hmissing, -, -, rfl⟩ | ⟨place, -, -, rfl⟩
  · exact Nodes.isSome_make hi
  · exact Nodes.isSome_alter.trans hi

theorem onward_write (fd : Ino) (pos : ℕ) (buf : List UInt8) : Keeps Onward (write fd pos buf) := by
  refine onward_sys fun o fs a fs' h i hi => ?_
  obtain ⟨mode, data, -, -, rfl⟩ := Fs.write_eq_ok h
  exact Nodes.isSome_alter.trans hi

end Calls

end Vfs
end V6User
