import V6User.Fsutil.CopyVia
import V6User.Vfs.Onward
import V6User.Vfs.Tree

/-!
# Copying a directory into itself

`fsutil_copy_directory` refuses to copy a directory onto itself, but it does not look whether
the destination lies below the source.  Where the destination does not exist it is made, and
what was made stays; so such a copy ends without making anything exactly when it is stopped
before the directory is read (`Stopped`).
-/

namespace V6User
namespace Fsutil

open Vfs Effect

/-! ### Nothing is taken back -/

section Onward

variable {maxpath : ℕ} {copy : Path → Path → Prog Unit}

theorem tame_onward : Tame Onward where
  look _ _ := onward_look
  make _ _ _ _ := onward_change fun _ _ _ h _ hi => Fs.isSome_makeNew h hi
  chmod := onward_chmod

theorem keepsOpened_onward (p : Path) : KeepsOpened Onward (openWrite p) := by
  intro k herror hok
  refine Keeps.bind (Keeps.attempt (onward_openWrite p)) fun x => ?_
  cases x with
  | error e => exact herror e
  | ok t => exact hok t (onward_write t)

theorem onward_openRead (p : Path) : Keeps Onward (openRead p) := onward_look

theorem onward_copyRegular (fuel : ℕ) (src dst : Path) (st : Stat) :
    Keeps Onward (copyRegular fuel src dst st) :=
  keeps_copyRegularVia (c := systemCalls) tame_onward onward_openRead keepsOpened_onward fuel src
    dst st

theorem onward_copySymlink (src dst : Path) : Keeps Onward (copySymlink maxpath src dst) :=
  keeps_copySymlinkVia (c := systemCalls) tame_onward src dst (onward_unlink dst)

theorem onward_copyDirectory (hcopy : ∀ s d, Keeps Onward (copy s d)) (fuel : ℕ)
    (src dst : Path) (st : Stat) (recursive : Bool) :
    Keeps Onward (copyDirectory maxpath copy fuel src dst st recursive) :=
  keeps_copyDirectoryVia (c := systemCalls) tame_onward onward_openRead hcopy fuel src dst st
    recursive

/-- **A copy takes nothing back**: what was there and what it made stays in use. -/
theorem onward_copyPath (fuel : ℕ) (src dst : Path) (recursive : Bool) :
    Keeps Onward (copyPath maxpath fuel src dst recursive) :=
  keeps_copyPathVia (c := systemCalls) tame_onward onward_openRead keepsOpened_onward
    onward_unlink fuel src dst recursive

end Onward

/-! ### What stops a copy before the directory is read -/

/-- The calls before the source directory is read stop the copy: `lstat` of the source fails,
`lstat` of the destination fails for another reason than that it does not exist, or finds
something else than another directory, or the destination cannot be made. -/
inductive Stopped (w : World) (src dst : Path) : Prop
  | noSource {e w₁} (h : Runs (lstat src) w (.error e) w₁)
  | failed {st w₁ e w₂} (h : Runs (lstat src) w (.ok st) w₁)
      (hdst : Runs (lstat dst) w₁ (.error e) w₂) (he : e ≠ .enoent)
  | refused {st w₁ dt w₂} (h : Runs (lstat src) w (.ok st) w₁)
      (hdst : Runs (lstat dst) w₁ (.ok dt) w₂) (hdt : dt.kind ≠ .dir ∨ sameFile st dt = true)
  | notMade {st w₁ w₂ e w₃} (h : Runs (lstat src) w (.ok st) w₁)
      (hdst : Runs (lstat dst) w₁ (.error .enoent) w₂) (hmkdir : Runs (mkdir dst) w₂ (.error e) w₃)

/-- The copy ends with an error and makes nothing. -/
def Refuses (maxpath : ℕ) (w : World) (src dst : Path) : Prop :=
  ∃ fuel e w', Runs (copyPath maxpath fuel src dst true) w (.error e) w' ∧
    ∀ i, w.fs.node i = none → w'.fs.node i = none

section Stopped

variable {maxpath fuel : ℕ} {src dst : Path} {w w' : World} {st : Stat}

/-- The destination is entered, or what stops it says so. -/
theorem runs_enterDirectory {r : Except Errno Unit} (h : Runs (enterDirectory dst st) w r w') :
    (∃ dt w₂, Runs (lstat dst) w (.ok dt) w₂ ∧ w'.fs = w.fs ∧
      ((∃ e, r = .error e ∧ (dt.kind ≠ .dir ∨ sameFile st dt = true)) ∨
        r = .ok () ∧ dt.kind = .dir)) ∨
    (∃ e w₂, Runs (lstat dst) w (.error e) w₂ ∧ e ≠ .enoent ∧ r = .error e ∧ w'.fs = w.fs) ∨
    ∃ w₂, Runs (lstat dst) w (.error .enoent) w₂ ∧ w₂.fs = w.fs ∧ Runs (mkdir dst) w₂ r w' := by
  obtain ⟨dstSt, w₂, hlstat, h⟩ := runs_attempt_bind.1 h
  have hfs := (runs_look hlstat).1
  cases dstSt with
  | ok dt =>
    left
    dsimp only at h
    split_ifs at h with hkind hsame
    · obtain ⟨rfl, rfl⟩ := runs_throw.1 h
      exact ⟨dt, _, hlstat, hfs, .inl ⟨_, rfl, .inl hkind⟩⟩
    · obtain ⟨rfl, rfl⟩ := runs_throw.1 h
      exact ⟨dt, _, hlstat, hfs, .inl ⟨_, rfl, .inr hsame⟩⟩
    · obtain ⟨rfl, rfl⟩ := runs_pure.1 h
      exact ⟨dt, _, hlstat, hfs, .inr ⟨rfl, not_not.1 hkind⟩⟩
  | error e =>
    right
    dsimp only at h
    split_ifs at h with he
    · obtain rfl := he
      exact .inr ⟨w₂, hlstat, hfs, h⟩
    · obtain ⟨rfl, rfl⟩ := runs_throw.1 h
      exact .inl ⟨e, _, hlstat, he, rfl, hfs⟩

/-- A directory that was made is in use from then on. -/
theorem exists_made (h : Runs (mkdir dst) w (.ok ()) w') :
    ∃ i, w.fs.node i = none ∧ (w'.fs.node i).isSome := by
  obtain ⟨e, hbad, -⟩ | ⟨o, hmake, -⟩ := runs_change h
  · exact absurd hbad nofun
  · obtain ⟨d, n, hmissing, -, hfs⟩ := Fs.makeNew_eq_ok hmake
    refine ⟨w.fs.new d, w.fs.unused _ (Nat.le_refl _), ?_⟩
    rw [hfs]
    exact congrArg Option.isSome Nodes.make_self

/-- A copy that makes nothing, of a directory to what is none, was stopped. -/
theorem stopped_of_refuses {s : Ino} {x : Node} (hsrc : w.fs.get false src = .ok (s, x))
    (hdir : x.kind = .dir) (hdst : ∀ i y, w.fs.get false dst = .ok (i, y) → y.kind ≠ .dir)
    (h : Refuses maxpath w src dst) : Stopped w src dst := by
  obtain ⟨fuel, e, w', hrun, hnone⟩ := h
  cases fuel with
  | zero => exact absurd hrun not_runs_diverge
  | succ fuel =>
    rw [copyPath, copyPathVia] at hrun
    rcases runs_bind.1 hrun with ⟨e', hlstat, -⟩ | ⟨st, w₁, hlstat, hrun⟩
    · exact .noSource hlstat
    obtain ⟨hfs₁, ⟨e', hbad, -⟩ | ⟨o, st', hst, heq⟩⟩ := runs_look hlstat
    · exact absurd hbad (ok_ne_error _ _)
    obtain rfl := Except.ok.inj heq
    have hkind : st.kind = .dir := by
      obtain ⟨y, hy, hkind, -⟩ := Fs.statOf_eq_ok.1 hst
      obtain ⟨-, rfl⟩ := Prod.mk.inj (Except.ok.inj (hsrc.symm.trans hy))
      exact hkind.trans hdir
    rw [hkind] at hrun
    -- what comes after the directory was made takes nothing back
    have hcopy : ∀ s d, Keeps Onward (copyPath maxpath fuel s d true) := fun s d =>
      onward_copyPath fuel s d true
    have hread := keeps_readDirectory (c := systemCalls) tame_onward onward_openRead maxpath hcopy
      fuel src dst
    obtain ⟨r₂, w₂, henter, honward⟩ : ∃ r₂ w₂, Runs (enterDirectory dst st) w₁ r₂ w₂ ∧
        Onward w₂ w' := by
      rcases runs_bind.1 hrun with ⟨e', hcopy, -⟩ | ⟨u, w₃, hcopy, hchmod⟩
      · rcases runs_bind.1 hcopy with ⟨e'', henter, -⟩ | ⟨u, w₂, henter, hrest⟩
        · exact ⟨_, _, henter, refl_of Onward _⟩
        · exact ⟨_, _, henter, hread _ _ _ hrest⟩
      · rcases runs_bind.1 hcopy with ⟨e'', henter, hbad⟩ | ⟨u, w₂, henter, hrest⟩
        · exact absurd hbad (ok_ne_error _ _)
        · exact ⟨_, _, henter, trans_of Onward (hread _ _ _ hrest) (onward_chmod _ _ _ _ _ hchmod)⟩
    obtain ⟨dt, w₃, hlstat', -, ⟨e', -, hdt⟩ | ⟨-, hdt⟩⟩ | ⟨e', w₃, hlstat', he', -, -⟩ |
      ⟨w₃, hlstat', hfs₃, hmkdir⟩ := runs_enterDirectory henter
    · exact .refused hlstat hlstat' hdt
    · -- there is no directory at the destination
      obtain ⟨-, ⟨e', hbad, -⟩ | ⟨o, dt', hst', heq⟩⟩ := runs_look hlstat'
      · exact absurd hbad (ok_ne_error _ _)
      obtain rfl := Except.ok.inj heq
      obtain ⟨y, hy, hkind', -⟩ := Fs.statOf_eq_ok.1 hst'
      rw [hfs₁] at hy
      exact absurd (hkind'.symm.trans hdt) (hdst _ _ hy)
    · exact .failed hlstat hlstat' he'
    · rcases r₂ with e' | u
      · exact .notMade hlstat hlstat' hmkdir
      · obtain ⟨i, hi, hmade⟩ := exists_made hmkdir
        rw [hfs₃, hfs₁] at hi
        have hin := honward.node i hmade
        rw [hnone i hi] at hin
        exact absurd hin Bool.false_ne_true

/-- What stops the copy is an error, and nothing was changed. -/
theorem exists_runs_enterDirectory {w₁ : World} (hsrc : Runs (lstat src) w (.ok st) w₁)
    (h : Stopped w src dst) :
    ∃ e w₂, Runs (enterDirectory dst st) w₁ (.error e) w₂ ∧ w₂.fs = w₁.fs := by
  cases h with
  | noSource hlstat => exact absurd (hlstat.unique hsrc).1 nofun
  | @failed _ _ e w₂ hlstat hdst he =>
    obtain ⟨-, rfl⟩ := hlstat.unique hsrc
    refine ⟨e, w₂, runs_attempt_bind.2 ⟨_, _, hdst, ?_⟩, (runs_look hdst).1⟩
    dsimp only
    rw [if_neg he]
    exact runs_throw.2 ⟨rfl, rfl⟩
  | @refused _ _ dt w₂ hlstat hdst hdt =>
    obtain ⟨hst, rfl⟩ := hlstat.unique hsrc
    obtain rfl := Except.ok.inj hst
    by_cases hkind : dt.kind ≠ .dir
    · refine ⟨.enotdir, w₂, runs_attempt_bind.2 ⟨_, _, hdst, ?_⟩, (runs_look hdst).1⟩
      dsimp only
      rw [if_pos hkind]
      exact runs_throw.2 ⟨rfl, rfl⟩
    · refine ⟨.einval, w₂, runs_attempt_bind.2 ⟨_, _, hdst, ?_⟩, (runs_look hdst).1⟩
      dsimp only
      rw [if_neg hkind, if_pos (hdt.resolve_left hkind)]
      exact runs_throw.2 ⟨rfl, rfl⟩
  | @notMade _ _ w₂ e w₃ hlstat hdst hmkdir =>
    obtain ⟨-, rfl⟩ := hlstat.unique hsrc
    obtain ⟨e', -, hfs, -⟩ | ⟨o, -, hbad⟩ := runs_change hmkdir
    · refine ⟨e, w₃, runs_attempt_bind.2 ⟨_, _, hdst, ?_⟩, hfs.trans (runs_look hdst).1⟩
      dsimp only
      rw [if_pos rfl]
      exact hmkdir
    · exact absurd hbad nofun

/-- **A copy that is stopped** ends with an error, without going down into the tree, and has
made nothing. -/
theorem runs_of_stopped (maxpath : ℕ) {s : Ino} {x : Node} (hsrc : w.fs.get false src = .ok (s, x))
    (hdir : x.kind = .dir) (h : Stopped w src dst) (fuel : ℕ) :
    ∃ e w', Runs (copyPath maxpath (fuel + 1) src dst true) w (.error e) w' ∧ w'.fs = w.fs := by
  obtain ⟨r, w₁, hlstat⟩ : ∃ r w', Runs (lstat src) w r w' :=
    exists_runs_look (.lstat src) (fun _ fs => fs.statOf false src) w
  obtain ⟨hfs₁, ⟨e, rfl, -⟩ | ⟨o, st, hst, rfl⟩⟩ := runs_look hlstat
  · refine ⟨e, w₁, ?_, hfs₁⟩
    rw [copyPath, copyPathVia]
    exact runs_bind.2 (.inl ⟨e, hlstat, rfl⟩)
  · have hkind : st.kind = .dir := by
      obtain ⟨y, hy, hkind, -⟩ := Fs.statOf_eq_ok.1 hst
      obtain ⟨-, rfl⟩ := Prod.mk.inj (Except.ok.inj (hsrc.symm.trans hy))
      exact hkind.trans hdir
    obtain ⟨e, w₂, henter, hfs₂⟩ := exists_runs_enterDirectory hlstat h
    refine ⟨e, w₂, ?_, hfs₂.trans hfs₁⟩
    rw [copyPath, copyPathVia]
    refine runs_bind.2 (.inr ⟨st, w₁, hlstat, ?_⟩)
    rw [hkind]
    refine runs_bind.2 (.inl ⟨e, ?_, rfl⟩)
    exact runs_bind.2 (.inl ⟨e, henter, rfl⟩)

end Stopped

/-- **When a recursive copy is refused.**  A copy of a directory, to wherever, that is stopped
before the directory is read ends with an error and changes nothing; and where the destination
is not a directory already, only such a copy ends with an error and makes nothing. -/
theorem copyPath_refuses (maxpath : ℕ) {w : World} {src dst : Path} {s : Ino} {x : Node}
    (hsrc : w.fs.get false src = .ok (s, x)) (hdir : x.kind = .dir) :
    (Stopped w src dst → ∀ fuel, ∃ e w',
      Runs (copyPath maxpath (fuel + 1) src dst true) w (.error e) w' ∧ w'.fs = w.fs) ∧
    ((∀ i y, w.fs.get false dst = .ok (i, y) → y.kind ≠ .dir) →
      (Refuses maxpath w src dst ↔ Stopped w src dst)) := by
  refine ⟨runs_of_stopped maxpath hsrc hdir, fun hdst =>
    ⟨stopped_of_refuses hsrc hdir hdst, fun h => ?_⟩⟩
  obtain ⟨e, w', hrun, hfs⟩ := runs_of_stopped maxpath hsrc hdir h 0
  exact ⟨1, e, w', hrun, fun i hi => hfs ▸ hi⟩

/-- The directory `/d` is not copied to the file `/d/f` in it. -/
theorem copyPath_refuses_small : ∃ e w',
    Runs (copyPath 512 1 [47, 100] [47, 100, 47, 102] true) smallWorld (.error e) w' ∧
      w'.fs = smallWorld.fs := by
  have hsrc : Runs (lstat [47, 100]) smallWorld (.ok ⟨⟨0, 1⟩, .dir, 0o700⟩)
      { smallWorld with calls := [.lstat [47, 100]] } := rfl
  have hdst : Runs (lstat [47, 100, 47, 102]) { smallWorld with calls := [.lstat [47, 100]] }
      (.ok ⟨⟨0, 2⟩, .reg, 0o640⟩)
      { smallWorld with calls := [.lstat [47, 100, 47, 102], .lstat [47, 100]] } := rfl
  exact (copyPath_refuses 512 rfl rfl).1 (.refused hsrc hdst (.inl nofun)) 0

/-- What a path names, whether it exists or not, lies in the tree of the directory `top`. -/
def LiesInside (fs : Fs) (top : Ino) (path : Path) : Prop :=
  ∃ d n o, fs.findEntry path = .ok (.entry d n o) ∧ ¬n.IsDots ∧ InTree fs top d

/-- The copy of `/d` to `/d/x` makes the directory `/d/x`. -/
theorem copyPath_not_refused : ¬∀ maxpath w src dst s x, w.fs.get false src = .ok (s, x) →
    x.kind = .dir → LiesInside w.fs s dst → Refuses maxpath w src dst := by
  intro hall
  have hinside : LiesInside smallWorld.fs ⟨0, 1⟩ [47, 100, 47, 120] :=
    ⟨⟨0, 1⟩, ⟨[120], by decide, by decide⟩, none, rfl, by decide, .top⟩
  have hrefuses := hall 512 smallWorld [47, 100] [47, 100, 47, 120] ⟨0, 1⟩ _ rfl rfl hinside
  have hsrc : Runs (lstat [47, 100]) smallWorld (.ok ⟨⟨0, 1⟩, .dir, 0o700⟩)
      { smallWorld with calls := [.lstat [47, 100]] } := rfl
  have hdst : Runs (lstat [47, 100, 47, 120]) { smallWorld with calls := [.lstat [47, 100]] }
      (.error .enoent)
      { smallWorld with calls := [.lstat [47, 100, 47, 120], .lstat [47, 100]] } := rfl
  have hmissing : smallWorld.fs.get false [47, 100, 47, 120] = .error .enoent := rfl
  cases stopped_of_refuses rfl rfl (fun _ _ h => absurd (hmissing.symm.trans h) nofun)
    hrefuses with
  | noSource h => exact absurd (h.unique hsrc).1 nofun
  | failed h h' he =>
    obtain ⟨-, rfl⟩ := h.unique hsrc
    exact he (Except.error.inj (h'.unique hdst).1)
  | refused h h' =>
    obtain ⟨-, rfl⟩ := h.unique hsrc
    exact absurd (h'.unique hdst).1 nofun
  | notMade h h' h'' =>
    obtain ⟨-, rfl⟩ := h.unique hsrc
    obtain ⟨-, rfl⟩ := h'.unique hdst
    exact absurd (Option.some.inj h'') nofun

end Fsutil
end V6User
