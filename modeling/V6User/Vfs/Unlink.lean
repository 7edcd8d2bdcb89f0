import V6User.Vfs.Calls
import V6User.Vfs.Lookup
import V6User.Vfs.Tree

/-!
# What `unlink` removes

The entry that the path names, when what it leads to has no entries itself
(`Fs.unlink_eq_ok`).
-/

namespace V6User
namespace Vfs

variable {fs fs' : Fs} {dead : Bool} {path : Path} {d i : Ino} {n : Name}

/-- An empty directory has no children. -/
theorem Fs.child_of_slotsEmpty {mode : ℕ} {up : Ino} {slots : List Slot}
    (hnode : fs.node i = some (.dir mode up slots)) (h : slotsEmpty slots = true) (m : Name) :
    fs.child i m = none := by
  unfold Fs.child
  rw [hnode]
  dsimp only
  by_cases hdots : m.IsDots
  · exact if_pos hdots
  · rw [if_neg hdots]
    rcases hfind : findSlot slots m with _ | j
    · rfl
    · have hmem := (findSlot_eq_some_iff (fs.nodup i mode up slots hnode)).1 hfind
      have hslot := List.all_eq_true.1 h _ hmem
      simp [hdots] at hslot

theorem Fs.child_of_not_dir (h : ∀ mode up slots, fs.node i ≠ some (.dir mode up slots))
    (m : Name) : fs.child i m = none := by
  unfold Fs.child
  split
  · next hnode => exact absurd hnode (h _ _ _)
  · rfl

/-- **What `unlink` does**: it removes the entry that the path names. -/
theorem Fs.unlink_eq_ok (h : fs.unlink dead path = .ok fs') :
    ∃ d n i, fs.findEntry path = .ok (.entry d n (some i)) ∧ ¬n.IsDots ∧
      (∀ m, fs.child i m = none) ∧
      (WantsDir path → ∃ mode up slots, fs.node i = some (.dir mode up slots)) ∧
      fs' = fs.remove dead d n := by
  unfold Fs.unlink at h
  split at h
  · exact absurd h nofun
  · exact absurd h nofun
  · exact absurd h nofun
  · next d n i hentry =>
    by_cases hdots : n.IsDots
    · rw [if_pos hdots] at h
      exact absurd h nofun
    by_cases hdev : i.dev ≠ d.dev
    · rw [if_neg hdots, if_pos hdev] at h
      exact absurd h nofun
    rw [if_neg hdots, if_neg hdev] at h
    split at h
    · next mode up slots hnode =>
      split_ifs at h with hempty
      exact ⟨d, n, i, hentry, hdots, Fs.child_of_slotsEmpty hnode hempty,
        fun _ => ⟨mode, up, slots, hnode⟩, (Except.ok.inj h).symm⟩
    · next hnode =>
      split_ifs at h with hwants
      exact ⟨d, n, i, hentry, hdots, Fs.child_of_not_dir hnode,
        fun hw => absurd hw hwants, (Except.ok.inj h).symm⟩

/-- Whether the slot stays does not matter to whether the entry is removed. -/
theorem Fs.unlink_dead (h : fs.unlink dead path = .ok fs') :
    ∃ d n, fs' = fs.remove dead d n ∧
      ∀ dead', fs.unlink dead' path = .ok (fs.remove dead' d n) := by
  unfold Fs.unlink at h ⊢
  rcases hentry : fs.findEntry path with e | ⟨d | ⟨d, n, _ | i⟩⟩
  all_goals
    rw [hentry] at h
    dsimp only at h ⊢
  · exact absurd h nofun
  · exact absurd h nofun
  · exact absurd h nofun
  · by_cases hdots : n.IsDots
    · rw [if_pos hdots] at h
      exact absurd h nofun
    by_cases hdev : i.dev ≠ d.dev
    · rw [if_neg hdots, if_pos hdev] at h
      exact absurd h nofun
    rw [if_neg hdots, if_neg hdev] at h
    rcases hnode : fs.node i with _ | (_ | _ | ⟨mode, up, slots⟩ | _)
    all_goals
      rw [hnode] at h
      dsimp only at h
      split_ifs at h with hcond
      refine ⟨d, n, (Except.ok.inj h).symm, fun dead' => ?_⟩
      rw [if_neg hdots, if_neg hdev]
    · exact if_neg hcond
    · exact if_neg hcond
    · exact if_neg hcond
    · exact if_pos hcond
    · exact if_neg hcond

/-- `unlink` does not say that there is nothing where there is something. -/
theorem Fs.unlink_ne_enoent {follow : Bool} {x : Node} (h : fs.get follow path = .ok (i, x)) :
    fs.unlink dead path ≠ .error .enoent := by
  intro hunlink
  obtain ⟨place, j, hplace, hj⟩ := Fs.findEntry_of_get h
  unfold Fs.unlink at hunlink
  rw [hplace] at hunlink
  obtain d | ⟨d, n, _ | k⟩ := place
  · exact absurd (Except.error.inj hunlink) nofun
  · exact absurd hj nofun
  · dsimp only at hunlink
    rcases hnode : fs.node k with _ | (_ | _ | _ | _)
    all_goals
      rw [hnode] at hunlink
      dsimp only at hunlink
      split_ifs at hunlink
    all_goals exact absurd (Except.error.inj hunlink) nofun

end Vfs
end V6User
