import V6User.Fsutil.Remove

/-!
# Removals that go on for ever

The loop of `fsutil_remove_path` (`lib/fsutil.c`) takes the first record of a directory that is
not `.` or `..` for a child, also when the record is dead.  With `force`, removing the child
then counts as done because nothing is there, and the loop finds the same record again.

So a removal can go on for ever (`Loops`) when the first records lead to a dead one, or to an
entry that is removed and leaves a dead one; and it does where every entry that is removed
leaves its slot (`Loops.not_runs`).
-/

namespace V6User
namespace Fsutil

open Vfs Effect

/-! ### The first child -/

/-- The name of the first record that is not `.` or `..`. -/
def firstName (slots : List Slot) : Option Name :=
  (slots.find? fun s => !decide s.name.IsDots).map Slot.name

section FirstChild

variable {maxpath fuel pos : ℕ} {path p : Path} {force : Bool} {fs fs' : Fs} {w w' : World}
  {fd top : Ino} {mode : ℕ} {up : Ino} {slots : List Slot} {n : Name}

theorem firstName_cons (s : Slot) (slots : List Slot) :
    firstName (s :: slots) = if s.name.IsDots then firstName slots else some s.name := by
  unfold firstName
  rw [List.find?_cons]
  split_ifs with hdots
  · rw [decide_eq_true hdots]
    rfl
  · rw [decide_eq_false hdots]
    rfl

theorem firstName_append (s t : List Slot) :
    firstName (s ++ t) = (firstName s).or (firstName t) := by
  unfold firstName
  rw [List.find?_append, Option.map_or]

/-- The first name does not depend on which slots are dead. -/
theorem firstName_killSlot (slots : List Slot) (n : Name) :
    firstName (killSlot true slots n) = firstName slots := by
  have hone : ∀ m o, firstName [⟨m, o⟩] = if m.IsDots then none else some m := fun m o =>
    firstName_cons _ _
  induction slots with
  | nil => rfl
  | cons s slots ih =>
    have hcons : s :: slots = [s] ++ slots := rfl
    rw [killSlot_cons, hcons, firstName_append, firstName_append, ih, if_pos rfl]
    split_ifs with hs
    · rw [hone, hone]
    · rfl

theorem not_isDots_of_firstName (h : firstName slots = some n) : ¬n.IsDots := by
  obtain ⟨s, hs, rfl⟩ := Option.map_eq_some_iff.1 h
  simpa using List.find?_some hs

theorem findChild_dirents (maxpath : ℕ) (path : Path) (slots : List Slot) :
    findChild maxpath path (slots.map Slot.dirent) = match firstName slots with
      | none => .ok none
      | some n => (joinPath maxpath path n.bytes).map some := by
  induction slots with
  | nil => rfl
  | cons s slots ih =>
    have hreclen : s.dirent.reclen ≠ 0 := Nat.ne_of_gt (Nat.lt_of_lt_of_le (by omega)
      (Nat.le_add_right 20 s.name.bytes.length))
    rw [List.map_cons, findChild, if_neg hreclen, firstName_cons, ih]
    have hdots : isDotOrDotdot s.dirent.name.bytes = true ↔ s.name.IsDots :=
      isDotOrDotdot_iff s.name
    by_cases h : s.name.IsDots
    · rw [hdots.2 h, if_pos h]
      rfl
    · rw [Bool.eq_false_iff.2 (mt hdots.1 h), if_neg h]
      rfl

/-- What reading a directory for its first child gives: the kernel reports an error, or the
path of the child is put together, if there is one. -/
theorem runs_readChild_dir {r : Except Errno (Option Path)}
    (hnode : w.fs.node fd = some (.dir mode up slots)) (hpos : firstName (slots.take pos) = none)
    (h : Runs (readChild maxpath path fd fuel pos) w r w') : w'.fs = w.fs ∧ w'.env = w.env ∧
      ((∃ e, r = .error e ∧ ¬Calm w.env) ∨ r = match firstName slots with
        | none => .ok none
        | some n => (joinPath maxpath path n.bytes).map some) := by
  induction fuel generalizing pos w with
  | zero => exact absurd h not_runs_diverge
  | succ fuel ih =>
    rw [readChild] at h
    rcases runs_bind.1 h with ⟨e, hdents, rfl⟩ | ⟨des, w₁, hdents, h⟩
    · obtain ⟨hfs, henv, ⟨e', he, -⟩ | hr⟩ := runs_look_outcome hdents
      · refine ⟨hfs, henv, .inl ⟨e, rfl, fun hcalm => ?_⟩⟩
        cases he.symm.trans (hcalm _ _)
      · rw [hnode] at hr
        cases hr
    obtain ⟨hfs, henv, ⟨e', -, hbad⟩ | hr⟩ := runs_look_outcome hdents
    · cases hbad
    rw [hnode] at hr
    obtain rfl := Except.ok.inj hr
    -- the records of this buffer
    have hk := Nat.le_max_right (w.env w.calls.length .getdents).count 1
    generalize max (w.env w.calls.length .getdents).count 1 = k at h hk
    generalize hchunk : (slots.drop pos).take k = chunk at h
    have hslots : slots = slots.take pos ++ (chunk ++ (slots.drop pos).drop k) := by
      rw [← hchunk, List.take_append_drop, List.take_append_drop]
    have hfirst : firstName slots = (firstName chunk).or (firstName ((slots.drop pos).drop k)) := by
      conv_lhs => rw [hslots]
      rw [firstName_append, firstName_append, hpos, Option.none_or]
    split_ifs at h with hnil
    · -- the end of the directory
      obtain ⟨rfl, rfl⟩ := runs_pure.1 h
      have hdrop : slots.drop pos = [] := by
        rw [List.map_eq_nil_iff] at hnil
        rcases List.take_eq_nil_iff.1 (hchunk.trans hnil) with hzero | hdrop
        · exact absurd hzero (by omega)
        · exact hdrop
      rw [hdrop, List.take_nil] at hchunk
      rw [hfirst, ← hchunk, hdrop, List.drop_nil]
      exact ⟨hfs, henv, .inr rfl⟩
    · rw [findChild_dirents] at h
      rcases hname : firstName chunk with _ | n
      · -- no child among these records
        rw [hname] at h hfirst
        rcases runs_ofExcept_bind.1 h with ⟨e, hbad, -, -⟩ | ⟨found, hfound, h⟩
        · cases hbad
        obtain rfl := Except.ok.inj hfound
        have hlen : slots.take (pos + (chunk.map Slot.dirent).length) = slots.take pos ++ chunk := by
          rw [List.length_map, List.take_add, ← hchunk, List.length_take, ← List.take_take,
            List.take_length]
        have hnext : firstName (slots.take (pos + (chunk.map Slot.dirent).length)) = none := by
          rw [hlen, firstName_append, hpos, hname]
          rfl
        rw [← hfs] at hnode
        obtain ⟨hfs', henv', hr⟩ := ih hnode hnext h
        rw [henv] at hr
        exact ⟨hfs'.trans hfs, henv'.trans henv, hr⟩
      · rw [hname] at h hfirst
        rw [hfirst, Option.some_or]
        dsimp only at h ⊢
        rcases hjoin : joinPath maxpath path n.bytes with e | p
        · rw [hjoin] at h
          rcases runs_ofExcept_bind.1 h with ⟨e', he', rfl, rfl⟩ | ⟨found, hbad, -⟩
          · exact ⟨hfs, henv, .inr (congrArg _ (Except.error.inj he').symm)⟩
          · cases hbad
        · rw [hjoin] at h
          rcases runs_ofExcept_bind.1 h with ⟨e, hbad, -, -⟩ | ⟨found, hfound, h⟩
          · cases hbad
          · obtain rfl := Except.ok.inj hfound
            obtain ⟨rfl, rfl⟩ := runs_pure.1 h
            exact ⟨hfs, henv, .inr rfl⟩

/-- Only a directory is read. -/
theorem exists_dir_of_readChild {found : Option Path}
    (h : Runs (readChild maxpath path fd fuel pos) w (.ok found) w') :
    ∃ mode up slots, w.fs.node fd = some (.dir mode up slots) := by
  cases fuel with
  | zero => exact absurd h not_runs_diverge
  | succ fuel =>
    rw [readChild] at h
    rcases runs_bind.1 h with ⟨e, -, hbad⟩ | ⟨des, w₁, hdents, -⟩
    · cases hbad
    · obtain ⟨-, ⟨e, hbad, -⟩ | ⟨o, des', hdes, -⟩⟩ := runs_look hdents
      · cases hbad
      · split at hdes
        · next mode up slots hnode => exact ⟨mode, up, slots, hnode⟩
        · cases hdes

/-- Reading a directory for its first child ends, by induction on the records that are left. -/
theorem exists_settles_readChild (maxpath : ℕ) (path : Path) (fd : Ino) (pos : ℕ) (w : World) :
    ∃ r w', Settles (fun n => readChild maxpath path fd n pos) w r w' := by
  by_cases hdir : ∃ mode up slots, w.fs.node fd = some (.dir mode up slots)
  · obtain ⟨mode, up, slots, hnode⟩ := hdir
    induction hleft : slots.length - pos using Nat.strongRecOn generalizing pos w with
    | ind left ih =>
      obtain ⟨r₁, w₁, hdents⟩ : ∃ r w', Runs (getdents fd pos) w r w' := exists_runs_look _ _ w
      obtain ⟨hfs, -, -⟩ := runs_look_outcome hdents
      obtain ⟨-, ⟨e, rfl, -⟩ | ⟨o, des, hdes, rfl⟩⟩ := runs_look hdents
      · exact ⟨_, _, .of_succ fun n => runs_bind.2 (.inl ⟨e, hdents, rfl⟩)⟩
      rw [hnode] at hdes
      have hlen : des.length = min (max o.count 1) (slots.length - pos) := by
        rw [← Except.ok.inj hdes, List.length_map, List.length_take, List.length_drop]
      by_cases hnil : des = []
      · refine ⟨.ok none, w₁, .of_succ fun n => runs_bind.2 (.inr ⟨des, w₁, hdents, ?_⟩)⟩
        rw [if_pos hnil]
        exact runs_pure.2 ⟨rfl, rfl⟩
      have hpos := List.length_pos_iff.2 hnil
      rcases hfind : findChild maxpath path des with e | _ | child
      · refine ⟨.error e, w₁, .of_succ fun n => runs_bind.2 (.inr ⟨des, w₁, hdents, ?_⟩)⟩
        rw [if_neg hnil]
        exact runs_ofExcept_bind.2 (.inl ⟨e, hfind, rfl, rfl⟩)
      · -- no child among these records
        obtain ⟨r, w', hrest⟩ := ih (slots.length - (pos + des.length)) (by omega)
          (pos + des.length) w₁ (hfs ▸ hnode) rfl
        refine ⟨r, w', hrest.succ fun n hrun => runs_bind.2 (.inr ⟨des, w₁, hdents, ?_⟩)⟩
        rw [if_neg hnil]
        exact runs_ofExcept_bind.2 (.inr ⟨none, hfind, hrun⟩)
      · refine ⟨.ok (some child), w₁,
          .of_succ fun n => runs_bind.2 (.inr ⟨des, w₁, hdents, ?_⟩)⟩
        rw [if_neg hnil]
        exact runs_ofExcept_bind.2 (.inr ⟨some child, hfind, runs_pure.2 ⟨rfl, rfl⟩⟩)
  · obtain ⟨r₁, w₁, hdents⟩ : ∃ r w', Runs (getdents fd pos) w r w' := exists_runs_look _ _ w
    obtain ⟨-, ⟨e, rfl, -⟩ | ⟨o, des, hdes, rfl⟩⟩ := runs_look hdents
    · exact ⟨_, _, .of_succ fun n => runs_bind.2 (.inl ⟨e, hdents, rfl⟩)⟩
    · split at hdes
      · next mode up slots hnode => exact absurd ⟨mode, up, slots, hnode⟩ hdir
      · exact absurd hdes nofun

end FirstChild

/-! ### The loop over the children -/

section Loop

variable {maxpath fuel : ℕ} {path p : Path} {force : Bool} {fs fs' : Fs} {w w' : World}
  {top : Ino} {mode : ℕ} {up : Ino} {slots : List Slot} {n : Name}

/-- A run of the loop, when the kernel reports no error: the first child is removed. -/
theorem runs_removeChildren_calm {remove : Path → Prog Unit} {r : Except Errno Unit}
    (hcalm : Calm w.env) (hopen : w.fs.get true path = .ok (top, .dir mode up slots))
    (hfirst : firstName slots = some n) (hjoin : joinPath maxpath path n.bytes = .ok p)
    (h : Runs (removeChildren maxpath path remove (fuel + 1)) w r w') :
    ∃ w₁ x w₂, w₁.fs = w.fs ∧ w₁.env = w.env ∧ Runs (remove p) w₁ x w₂ ∧
      (x = .ok () → Runs (removeChildren maxpath path remove fuel) w₂ r w') := by
  rw [removeChildren] at h
  have hopened : ∀ x w₁, Runs (openRead path) w x w₁ →
      x = .ok top ∧ w₁.fs = w.fs ∧ w₁.env = w.env := by
    intro x w₁ hrun
    obtain ⟨hfs, henv, ⟨e, he, -⟩ | hx⟩ := runs_look_outcome hrun
    · cases he.symm.trans (hcalm _ _)
    · rw [hopen] at hx
      exact ⟨hx, hfs, henv⟩
  rcases runs_bind.1 h with ⟨e, hrun, -⟩ | ⟨fd, w₁, hrun, h⟩
  · cases (hopened _ _ hrun).1
  obtain ⟨hfd, hfs₁, henv₁⟩ := hopened _ _ hrun
  obtain rfl := Except.ok.inj hfd
  obtain ⟨found, w₂, hread, h⟩ := runs_attempt_bind.1 h
  obtain ⟨-, -, -, hnode⟩ := Fs.get_eq_ok.1 hopen
  obtain ⟨hfs₂, henv₂, ⟨e, -, hnot⟩ | hfound⟩ :=
    runs_readChild_dir (hfs₁ ▸ hnode) (by rw [List.take_zero]; rfl) hread
  · exact absurd (henv₁ ▸ hcalm) hnot
  rw [hfirst] at hfound
  dsimp only at hfound
  rw [hjoin] at hfound
  obtain ⟨_, w₃, hclose, h⟩ := runs_attempt_bind.1 h
  obtain ⟨hfs₃, henv₃, -⟩ := runs_look_outcome hclose
  rcases runs_ofExcept_bind.1 h with ⟨e, hbad, -, -⟩ | ⟨child, hchild, h⟩
  · cases hfound.symm.trans hbad
  obtain rfl := Except.ok.inj (hfound.symm.trans hchild)
  have hfs : w₃.fs = w.fs := hfs₃.trans (hfs₂.trans hfs₁)
  have henv : w₃.env = w.env := henv₃.trans (henv₂.trans henv₁)
  rcases runs_bind.1 h with ⟨e, hrun, -⟩ | ⟨u, w₄, hrun, h⟩
  · exact ⟨w₃, .error e, w', hfs, henv, hrun, by simp⟩
  · exact ⟨w₃, .ok u, w₄, hfs, henv, hrun, fun _ => h⟩

/-- The removal of a directory comes to a child: the directory `top` has one, and `p` is the
path that is put together for the first. -/
structure FirstChild (maxpath : ℕ) (fs : Fs) (path : Path) (top : Ino) (n : Name) (p : Path) :
    Prop where
  get : ∃ mode up slots, fs.get false path = .ok (top, .dir mode up slots) ∧
    firstName slots = some n
  base : ∃ base, copyBasename maxpath path = .ok base ∧ isDotOrDotdot base = false
  join : joinPath maxpath path n.bytes = .ok p

/-- There is something with no child. -/
def Leaf (fs : Fs) (p : Path) : Prop :=
  ∃ i x, fs.get false p = .ok (i, x) ∧
    ∀ mode up slots, x = .dir mode up slots → firstName slots = none

/-- **The removal can go on for ever**: the first child is missing, or it can be removed and
leaves its slot, or its own removal can go on for ever. -/
inductive Loops (maxpath : ℕ) (fs : Fs) : Path → Prop
  | missing {path p : Path} {top : Ino} {n : Name} (h : FirstChild maxpath fs path top n p)
      (hp : fs.get false p = .error .enoent) : Loops maxpath fs path
  | leaf {path p : Path} {top : Ino} {n : Name} {fs' : Fs} {x : Ino × Node}
      (h : FirstChild maxpath fs path top n p) (hp : Leaf fs p)
      (hunlink : fs.unlink true p = .ok fs') (hopen : fs'.get true path = .ok x) :
      Loops maxpath fs path
  | child {path p : Path} {top : Ino} {n : Name} (h : FirstChild maxpath fs path top n p)
      (hp : Loops maxpath fs p) : Loops maxpath fs path

/-- The kernel reports no error, and every entry that is removed leaves its slot. -/
def LeavesSlots (env : ℕ → Call → Outcome) : Prop :=
  ∀ k c, (env k c).fault = none ∧ (env k c).dead = true

theorem LeavesSlots.calm {env : ℕ → Call → Outcome} (h : LeavesSlots env) : Calm env := fun k c =>
  (h k c).1

/-- With `force`, a child that is missing counts as removed. -/
theorem runs_removePath_missing {m : ℕ} {r : Except Errno Unit} (hcalm : Calm w.env)
    (hp : w.fs.get false p = .error .enoent)
    (h : Runs (removePath maxpath m p true true) w r w') :
    r = .ok () ∧ w'.fs = w.fs ∧ w'.env = w.env := by
  cases m with
  | zero => exact absurd h not_runs_diverge
  | succ m =>
    rw [removePath, removePathVia] at h
    obtain ⟨st, w₁, hlstat, h⟩ := runs_attempt_bind.1 h
    obtain ⟨hfs, henv, ⟨e, he, -⟩ | rfl⟩ := runs_look_outcome hlstat
    · cases he.symm.trans (hcalm _ _)
    · rw [Fs.statOf_eq_error.2 hp] at h
      obtain ⟨rfl, rfl⟩ := Runs.unique h (runs_forced ⟨rfl, rfl⟩)
      exact ⟨rfl, hfs, henv⟩

/-- **The loop with a child that is missing never ends.** -/
theorem removeChildren_missing {m : ℕ} {r : Except Errno Unit} (hcalm : Calm w.env)
    (hopen : w.fs.get true path = .ok (top, .dir mode up slots)) (hfirst : firstName slots = some n)
    (hjoin : joinPath maxpath path n.bytes = .ok p) (hp : w.fs.get false p = .error .enoent) :
    ¬Runs (removeChildren maxpath path (fun c => removePath maxpath m c true true) fuel) w r w' := by
  induction fuel generalizing w with
  | zero => exact not_runs_diverge
  | succ fuel ih =>
    intro h
    obtain ⟨w₁, x, w₂, hfs, henv, hrun, hrest⟩ :=
      runs_removeChildren_calm hcalm hopen hfirst hjoin h
    obtain ⟨hx, hfs₂, henv₂⟩ := runs_removePath_missing (henv ▸ hcalm) (hfs ▸ hp) hrun
    have hfs' : w₂.fs = w.fs := hfs₂.trans hfs
    refine ih (w := w₂) ?_ ?_ ?_ (hrest hx)
    · rw [henv₂, henv]
      exact hcalm
    · rw [hfs']
      exact hopen
    · rw [hfs']
      exact hp

/-- The path of a child has a base name that is not `.` or `..`. -/
theorem exists_base_of_join (hne : path ≠ []) (hn : ¬n.IsDots)
    (hjoin : joinPath maxpath path n.bytes = .ok p) :
    ∃ base, copyBasename maxpath p = .ok base ∧ isDotOrDotdot base = false := by
  obtain ⟨-, -, hfits⟩ := length_joinPath hjoin
  refine ⟨n.bytes, ?_, Bool.eq_false_iff.2 (mt (isDotOrDotdot_iff n).1 hn)⟩
  rw [copyBasename_eq (lastComponent_joinPath hne hjoin), if_neg (by omega)]

/-- Where there is no child the loop ends at once, when the kernel reports no error. -/
theorem runs_removeChildren_none {remove : Path → Prog Unit} {r : Except Errno Unit}
    (hcalm : Calm w.env) (hopen : w.fs.get true path = .ok (top, .dir mode up slots))
    (hfirst : firstName slots = none)
    (h : Runs (removeChildren maxpath path remove fuel) w r w') :
    r = .ok () ∧ w'.fs = w.fs ∧ w'.env = w.env := by
  cases fuel with
  | zero => exact absurd h not_runs_diverge
  | succ fuel =>
    rw [removeChildren] at h
    rcases runs_bind.1 h with ⟨e, hrun, rfl⟩ | ⟨fd, w₁, hrun, h⟩
    · obtain ⟨-, -, ⟨e', he, -⟩ | hx⟩ := runs_look_outcome hrun
      · cases he.symm.trans (hcalm _ _)
      · rw [hopen] at hx
        cases hx
    obtain ⟨hfs₁, henv₁, ⟨e', he, -⟩ | hx⟩ := runs_look_outcome hrun
    · cases he.symm.trans (hcalm _ _)
    rw [hopen] at hx
    obtain rfl := Except.ok.inj hx
    obtain ⟨found, w₂, hread, h⟩ := runs_attempt_bind.1 h
    obtain ⟨-, -, -, hnode⟩ := Fs.get_eq_ok.1 hopen
    obtain ⟨hfs₂, henv₂, ⟨e, -, hnot⟩ | hfound⟩ :=
      runs_readChild_dir (hfs₁ ▸ hnode) (by rw [List.take_zero]; rfl) hread
    · exact absurd (henv₁ ▸ hcalm) hnot
    rw [hfirst] at hfound
    obtain rfl := hfound
    obtain ⟨_, w₃, hclose, h⟩ := runs_attempt_bind.1 h
    obtain ⟨hfs₃, henv₃, -⟩ := runs_look_outcome hclose
    rcases runs_ofExcept_bind.1 h with ⟨e, hbad, -, -⟩ | ⟨child, hchild, h⟩
    · cases hbad
    obtain rfl := Except.ok.inj hchild
    obtain ⟨rfl, rfl⟩ := runs_pure.1 h
    exact ⟨rfl, hfs₃.trans (hfs₂.trans hfs₁), henv₃.trans (henv₂.trans henv₁)⟩

/-- An entry that `unlink` can remove is removed and leaves its slot. -/
theorem runs_unlinkPath_leaves {r : Except Errno Unit} (henv : LeavesSlots w.env)
    (hunlink : w.fs.unlink true p = .ok fs') (h : Runs (unlinkPath true p) w r w') :
    r = .ok () ∧ w'.fs = fs' ∧ w'.env = w.env := by
  unfold unlinkPath unlinkPathVia at h
  obtain ⟨x, w₁, hrun, h⟩ := runs_attempt_bind.1 h
  obtain ⟨henv₁, ⟨e, he, -⟩ | ⟨e, he, -⟩ | ⟨hok, rfl⟩⟩ := runs_change_outcome hrun
  · exact absurd (he.symm.trans (henv _ _).1) nofun
  · rw [(henv _ _).2, hunlink] at he
    exact absurd he nofun
  · rw [(henv _ _).2, hunlink] at hok
    obtain ⟨rfl, rfl⟩ := runs_pure.1 h
    exact ⟨rfl, (Except.ok.inj hok).symm, henv₁⟩

/-- The removal of something without a child comes to `unlink`. -/
theorem runs_removePath_leaf {m : ℕ} {r : Except Errno Unit} (henv : LeavesSlots w.env)
    (hp : Leaf w.fs p) (hunlink : w.fs.unlink true p = .ok fs')
    (hbase : ∃ base, copyBasename maxpath p = .ok base ∧ isDotOrDotdot base = false)
    (h : Runs (removePath maxpath m p true true) w r w') :
    r = .ok () ∧ w'.fs = fs' ∧ w'.env = w.env := by
  cases m with
  | zero => exact absurd h not_runs_diverge
  | succ m =>
    obtain ⟨i, x, hget, hnone⟩ := hp
    obtain ⟨base, hbase, hdots⟩ := hbase
    rw [removePath, removePathVia] at h
    obtain ⟨st, w₁, hlstat, h⟩ := runs_attempt_bind.1 h
    obtain ⟨hfs₁, henv₁, ⟨e, he, -⟩ | hst⟩ := runs_look_outcome hlstat
    · cases he.symm.trans (henv _ _).1
    unfold Fs.statOf at hst
    rw [hget] at hst
    obtain rfl := hst
    rcases runs_ofExcept_bind.1 h with ⟨e, hbad, -, -⟩ | ⟨base', hbase', hrest⟩
    · cases hbase.symm.trans hbad
    obtain rfl := Except.ok.inj (hbase.symm.trans hbase')
    rw [hdots, if_neg Bool.false_ne_true] at hrest
    have henv' : LeavesSlots w₁.env := henv₁ ▸ henv
    by_cases hkind : x.kind = .dir
    · -- a directory without a child
      rw [if_neg (not_not.2 hkind), if_neg (by decide)] at hrest
      obtain ⟨mode, up, slots, rfl⟩ := x.dir_of_kind hkind
      have hopen := Fs.get_true_of_false hget (Fs.link_of_kind hget rfl)
      rw [← hfs₁] at hopen
      have hloop : ∀ x w₂, Runs (removeChildren maxpath p
          (fun c => removePath maxpath m c true true) m) w₁ x w₂ →
          x = .ok () ∧ w₂.fs = w₁.fs ∧ w₂.env = w₁.env := fun x w₂ =>
        runs_removeChildren_none henv'.calm hopen (hnone mode up slots rfl)
      rcases runs_bind.1 hrest with ⟨e, hrun, -⟩ | ⟨u, w₂, hrun, hend⟩
      · cases (hloop _ _ hrun).1
      obtain ⟨-, hfs₂, henv₂⟩ := hloop _ _ hrun
      obtain ⟨hr, hfs, henv₃⟩ := runs_unlinkPath_leaves (henv₂ ▸ henv')
        ((hfs₂.trans hfs₁) ▸ hunlink) hend
      exact ⟨hr, hfs, henv₃.trans (henv₂.trans henv₁)⟩
    · rw [if_pos hkind] at hrest
      obtain ⟨hr, hfs, henv₂⟩ := runs_unlinkPath_leaves henv' (hfs₁ ▸ hunlink) hrest
      exact ⟨hr, hfs, henv₂.trans henv₁⟩

theorem FirstChild.ne_nil (h : FirstChild maxpath fs path top n p) : path ≠ [] := by
  obtain ⟨mode, up, slots, hget, -⟩ := h.get
  obtain ⟨place, hplace, -⟩ := Fs.get_eq_ok.1 hget
  exact Fs.ne_nil_of_resolve hplace

theorem FirstChild.not_isDots (h : FirstChild maxpath fs path top n p) : ¬n.IsDots := by
  obtain ⟨mode, up, slots, -, hfirst⟩ := h.get
  exact not_isDots_of_firstName hfirst

/-- The removal comes to the loop over the children. -/
theorem FirstChild.runs_loop (h : FirstChild maxpath fs path top n p) (hfs : w.fs = fs)
    (hcalm : Calm w.env) {m : ℕ} {r : Except Errno Unit}
    (hrun : Runs (removePath maxpath m path true true) w r w') :
    ∃ m' w₁ x w₂, w₁.fs = fs ∧ w₁.env = w.env ∧
      Runs (removeChildren maxpath path (fun c => removePath maxpath m' c true true) m') w₁ x w₂ := by
  cases m with
  | zero => exact absurd hrun not_runs_diverge
  | succ m =>
    obtain ⟨mode, up, slots, hget, -⟩ := h.get
    obtain ⟨base, hbase, hdots⟩ := h.base
    subst hfs
    rw [removePath, removePathVia] at hrun
    obtain ⟨st, w₁, hlstat, hrun⟩ := runs_attempt_bind.1 hrun
    obtain ⟨hfs₁, henv₁, ⟨e, he, -⟩ | hst⟩ := runs_look_outcome hlstat
    · cases he.symm.trans (hcalm _ _)
    unfold Fs.statOf at hst
    rw [hget] at hst
    obtain rfl := hst
    rcases runs_ofExcept_bind.1 hrun with ⟨e, hbad, -, -⟩ | ⟨base', hbase', hrest⟩
    · cases hbase.symm.trans hbad
    obtain rfl := Except.ok.inj (hbase.symm.trans hbase')
    have hkind : (Node.dir mode up slots).kind = .dir := rfl
    rw [hdots, if_neg Bool.false_ne_true, if_neg (not_not.2 hkind), if_neg (by decide)] at hrest
    rcases runs_bind.1 hrest with ⟨e, hloop, -⟩ | ⟨u, w₂, hloop, -⟩
    · exact ⟨m, w₁, .error e, w', hfs₁, henv₁, hloop⟩
    · exact ⟨m, w₁, .ok u, w₂, hfs₁, henv₁, hloop⟩

/-- The child that was removed left its slot, and is missing from then on. -/
theorem FirstChild.unlink (h : FirstChild maxpath fs path top n p) {dead : Bool}
    (hunlink : fs.unlink dead p = .ok fs') : fs' = fs.remove dead top n := by
  obtain ⟨mode, up, slots, hget, -⟩ := h.get
  have hbelow := below_of_joinPath h.ne_nil h.join
  obtain ⟨d, n', i, hentry, -, -, -, rfl⟩ := Fs.unlink_eq_ok hunlink
  rw [Fs.findEntry_below hbelow] at hentry
  obtain ⟨place, d', o, hplace, hd, -, heq⟩ := (Fs.find_below hbelow).1 hentry
  obtain ⟨rfl, rfl, rfl⟩ := Place.entry.inj heq
  obtain ⟨place', hplace', htop⟩ := Fs.resolve_comps_of_get hget (Fs.link_of_kind hget rfl)
  obtain rfl := Except.ok.inj (hplace.symm.trans hplace')
  obtain rfl := Option.some.inj (hd.symm.trans htop)
  rfl

theorem FirstChild.missing_after (h : FirstChild maxpath fs path top n p) {x : Ino × Node}
    (hunlink : fs.unlink true p = .ok fs') (hopen : fs'.get true path = .ok x) :
    ∃ mode up slots, fs'.get true path = .ok (top, .dir mode up slots) ∧
      firstName slots = some n ∧ fs'.get false p = .error .enoent := by
  obtain ⟨mode, up, slots, hget, hfirst⟩ := h.get
  obtain rfl := h.unlink hunlink
  obtain ⟨j, y⟩ := x
  obtain ⟨rfl, hget'⟩ := Fs.get_sub (sub_remove fs true top n) hget (Fs.link_of_kind hget rfl) hopen
  obtain ⟨-, -, -, hnode⟩ := Fs.get_eq_ok.1 hget
  obtain ⟨-, -, -, hnode'⟩ := Fs.get_eq_ok.1 hget'
  have hkill : (fs.remove true j n).node j = some (.dir mode up (killSlot true slots n)) := by
    unfold Fs.remove Nodes.remove
    dsimp only
    rw [if_pos rfl, hnode]
  obtain rfl := Option.some.inj (hkill.symm.trans hnode')
  refine ⟨mode, up, killSlot true slots n, hopen, (firstName_killSlot slots n).trans hfirst, ?_⟩
  refine Fs.get_missing (below_of_joinPath h.ne_nil h.join) hget' (Fs.link_of_kind hget' rfl) ?_
  have hdots := h.not_isDots
  unfold Nodes.entry
  rw [hkill]
  dsimp only
  rw [if_neg fun hn => hdots (.inl hn), if_neg fun hn => hdots (.inr hn), findSlot_killSlot,
    if_pos rfl]

/-- **A removal that can go on for ever does so** where every entry that is removed leaves its
slot, by induction on why it can. -/
theorem Loops.not_runs (hloops : Loops maxpath fs path) {m : ℕ} {r : Except Errno Unit}
    (hfs : w.fs = fs) (henv : LeavesSlots w.env) :
    ¬Runs (removePath maxpath m path true true) w r w' := by
  induction hloops generalizing m w r w' with
  | @missing path p top n h hp =>
    intro hrun
    obtain ⟨mode, up, slots, hget, hfirst⟩ := h.get
    obtain ⟨m', w₁, x, w₂, hfs₁, henv₁, hloop⟩ := h.runs_loop hfs henv.calm hrun
    have hopen := Fs.get_true_of_false hget (Fs.link_of_kind hget rfl)
    exact removeChildren_missing (henv₁ ▸ henv.calm) (hfs₁ ▸ hopen) hfirst h.join (hfs₁ ▸ hp) hloop
  | @leaf path p top n fs' x h hp hunlink hopen =>
    intro hrun
    obtain ⟨mode, up, slots, hget, hfirst⟩ := h.get
    obtain ⟨m', w₁, x, w₂, hfs₁, henv₁, hloop⟩ := h.runs_loop hfs henv.calm hrun
    have henv' : LeavesSlots w₁.env := henv₁ ▸ henv
    cases m' with
    | zero => exact absurd hloop not_runs_diverge
    | succ m' =>
      have hopen₁ := Fs.get_true_of_false hget (Fs.link_of_kind hget rfl)
      obtain ⟨w₃, y, w₄, hfs₃, henv₃, hchild, hrest⟩ :=
        runs_removeChildren_calm henv'.calm (hfs₁ ▸ hopen₁) hfirst h.join hloop
      have hfs₃' : w₃.fs = fs := hfs₃.trans hfs₁
      have henv₃' : LeavesSlots w₃.env := henv₃ ▸ henv'
      obtain ⟨hy, hfs₄, henv₄⟩ := runs_removePath_leaf henv₃' (hfs₃' ▸ hp) (hfs₃' ▸ hunlink)
        (exists_base_of_join h.ne_nil h.not_isDots h.join) hchild
      obtain ⟨mode', up', slots', hopen', hfirst', hp'⟩ := h.missing_after hunlink hopen
      exact removeChildren_missing (henv₄ ▸ henv₃'.calm) (hfs₄ ▸ hopen') hfirst' h.join
        (hfs₄ ▸ hp') (hrest hy)
  | @child path p top n h hp ih =>
    intro hrun
    obtain ⟨mode, up, slots, hget, hfirst⟩ := h.get
    obtain ⟨m', w₁, x, w₂, hfs₁, henv₁, hloop⟩ := h.runs_loop hfs henv.calm hrun
    have henv' : LeavesSlots w₁.env := henv₁ ▸ henv
    cases m' with
    | zero => exact absurd hloop not_runs_diverge
    | succ m' =>
      have hopen₁ := Fs.get_true_of_false hget (Fs.link_of_kind hget rfl)
      obtain ⟨w₃, y, w₄, hfs₃, henv₃, hchild, -⟩ :=
        runs_removeChildren_calm henv'.calm (hfs₁ ▸ hopen₁) hfirst h.join hloop
      exact ih (hfs₃.trans hfs₁) (henv₃ ▸ henv') hchild

end Loop

end Fsutil
end V6User
