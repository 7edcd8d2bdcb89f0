import V6User.Fsutil.CopyTree
import V6User.Vfs.Reached

/-!
# What a copy takes away

`fsutil_copy_regular` compares the source with what `lstat` finds at the destination, and then
opens the destination through symbolic links; `fsutil_copy_symlink` unlinks the destination
without any comparison.  A run in which each of these calls is made where it takes no file of
the source (`sparing`) keeps all of them.
-/

namespace V6User
namespace Fsutil

open Vfs Effect

/-! ### Calls that take no file of the source -/

/-- The two paths lead to the same inode. -/
def SameTarget (fs : Fs) (src dst : Path) : Prop :=
  ∃ i x y, fs.get true src = .ok (i, x) ∧ fs.get true dst = .ok (i, y)

/-- A path that is opened for writing does not lead to a file of the source. -/
def OpensOther (src : Path) (fs₀ : Fs) (p : Path) (w : World) : Prop :=
  ∀ i x, w.fs.get true p = .ok (i, x) → ¬fs₀.SourceFile src i

/-- The entry that is unlinked is not on the way to a file of the source, and the destination
is not the source itself. -/
def UnlinksOther (src dst : Path) (fs₀ : Fs) (p : Path) (w : World) : Prop :=
  ¬SameTarget fs₀ src dst ∧ ∀ d n i, w.fs.findEntry p = .ok (.entry d n (some i)) →
    ∀ q j data, Through src q → fs₀.FileAt q j data → ¬w.fs.OnWay true q d n

/-- The system calls where they take no file that was reached through `src` in `fs₀`. -/
noncomputable def sparing (src dst : Path) (fs₀ : Fs) : CopyCalls where
  openRead := openRead
  openWrite p := given (OpensOther src fs₀ p) (openWrite p)
  unlink p := given (UnlinksOther src dst fs₀ p) (unlink p)

section Kept

variable {src dst : Path} {fs₀ : Fs} {maxpath : ℕ}

theorem steady_keepsFiles (src : Path) (fs₀ : Fs) : Steady (KeepsFiles src fs₀) where
  make _ _ h hmissing := h.make hmissing
  setMode i mode h := h.setMode i mode

/-- **The file that is opened** is no file of the source. -/
theorem keepsOpened_sparing (p : Path) :
    KeepsOpened (Carries (KeepsFiles src fs₀)) ((sparing src dst fs₀).openWrite p) := by
  refine (steady_keepsFiles src fs₀).keepsOpened (Q := fun t => ¬fs₀.SourceFile src t)
    (fun w r w' h => ⟨(runs_given.1 h).2, fun _ _ => (runs_given.1 h).1⟩)
    (fun t fs bytes ht hk => hk.setData ht bytes) (fun fs t hk ht => hk.not_source ht) ?_
  intro w place t hother hk hplace ht hsource
  obtain ⟨x, hx⟩ := Option.isSome_iff_exists.1 (hk.isSome hsource)
  exact hother t x (Fs.get_eq_ok.2 ⟨place, hplace, ht, hx⟩) hsource

theorem keeps_unlink_sparing (p : Path) :
    Keeps (Carries (KeepsFiles src fs₀)) ((sparing src dst fs₀).unlink p) := by
  intro w r w' h
  obtain ⟨⟨-, hother⟩, h⟩ := runs_given.1 h
  obtain ⟨e, -, hfs, -⟩ | ⟨o, hok, -⟩ := runs_change h
  · exact carries_of_fs hfs
  · obtain ⟨d, n, i, hentry, -, -, -, hfs⟩ := Fs.unlink_eq_ok hok
    exact fun hk => hfs ▸ hk.remove (hother d n i hentry)

/-- **The files of the source are kept** by a copy that opens and unlinks none of them. -/
theorem keepsFiles_copyPath (fuel : ℕ) (s d : Path) (recursive : Bool) :
    Keeps (Carries (KeepsFiles src fs₀))
      (copyPathVia (sparing src dst fs₀) maxpath fuel s d recursive) :=
  keeps_copyPathVia (steady_keepsFiles src fs₀).tame carries_openRead keepsOpened_sparing
    keeps_unlink_sparing fuel s d recursive

end Kept

/-! ### A copy to the same file -/

section Same

variable {src dst : Path} {fs₀ : Fs} {maxpath fuel : ℕ} {w w' : World} {i : Ino} {x y : Node}
  {st : Stat} {copy : Path → Path → Prog Unit} {recursive : Bool} {r : Except Errno Unit}

/-- An error, and nothing was changed. -/
def Refused (w : World) (r : Except Errno Unit) (w' : World) : Prop :=
  (∃ e, r = .error e) ∧ w'.fs = w.fs

theorem refused_throw {e : Errno} (h : Runs (Effect.throw e : Prog Unit) w r w') :
    Refused w r w' := by
  obtain ⟨rfl, rfl⟩ := runs_throw.1 h
  exact ⟨⟨e, rfl⟩, rfl⟩

theorem Refused.of_fs {w₁ : World} (h : Refused w₁ r w') (hfs : w₁.fs = w.fs) : Refused w r w' :=
  ⟨h.1, h.2.trans hfs⟩

/-- What `lstat` finds is what `open` finds, unless it is a link. -/
theorem Fs.statOf_of_get {fs : Fs} (hst : fs.statOf false src = .ok st)
    (hsrc : fs.get true src = .ok (i, x)) (hne : st.kind ≠ .lnk) :
    st.ino = i ∧ st.kind = x.kind := by
  obtain ⟨z, hz, hkind, -⟩ := Fs.statOf_eq_ok.1 hst
  have hlink : fs.node.link st.ino = none := by
    obtain ⟨-, -, -, hnode⟩ := Fs.get_eq_ok.1 hz
    unfold Nodes.link
    rw [hnode]
    cases z with
    | lnk target => exact absurd hkind hne
    | _ => rfl
  obtain ⟨hi, rfl⟩ :=
    Prod.mk.inj (Except.ok.inj ((Fs.get_true_of_false hz hlink).symm.trans hsrc))
  exact ⟨hi, hkind⟩

/-- `lstat` does not say that there is nothing where `open` finds something. -/
theorem not_runs_lstat_enoent (hdst : w.fs.get true dst = .ok (i, y)) :
    ¬Runs (lstat dst) w (.error .enoent) w' := by
  intro h
  obtain ⟨-, ⟨e, he, hnone⟩ | ⟨o, st, -, hbad⟩⟩ := runs_look h
  · obtain ⟨-, hmissing⟩ := hnone (Except.error.inj he).symm
    rw [← Except.error.inj he] at hmissing
    obtain ⟨place, hplace, hi, -⟩ := Fs.get_eq_ok.1 hdst
    obtain ⟨place', j, hplace', hj⟩ := Fs.find_exists hplace hi
    have hget := Fs.statOf_eq_error.1 hmissing
    unfold Fs.get at hget
    rw [hplace'] at hget
    dsimp only at hget
    rw [hj] at hget
    dsimp only at hget
    split at hget
    · exact absurd (Except.error.inj hget) nofun
    · exact absurd hget nofun
  · exact absurd hbad nofun

/-- The directory of the source is not entered as the destination. -/
theorem enterDirectory_refused (hdst : w.fs.get true dst = .ok (st.ino, y))
    (h : Runs (enterDirectory dst st) w r w') : Refused w r w' := by
  obtain ⟨dstSt, w₁, hlstat, h⟩ := runs_attempt_bind.1 h
  have hfs := (runs_look hlstat).1
  cases dstSt with
  | ok dt =>
    dsimp only at h
    split_ifs at h with hkind hsame
    · exact (refused_throw h).of_fs hfs
    · exact (refused_throw h).of_fs hfs
    · -- the same directory, and so the same inode
      obtain ⟨-, ⟨e, hbad, -⟩ | ⟨o, dt', hst, heq⟩⟩ := runs_look hlstat
      · exact absurd hbad nofun
      obtain rfl := Except.ok.inj heq
      obtain ⟨z, hz, hzkind, -⟩ := Fs.statOf_eq_ok.1 hst
      have hlink := Fs.link_of_kind hz (hzkind.symm.trans (not_not.1 hkind))
      have hi := (Prod.mk.inj (Except.ok.inj (hdst.symm.trans (Fs.get_true_of_false hz hlink)))).1
      refine absurd ?_ hsame
      unfold sameFile
      rw [hi, beq_self_eq_true, beq_self_eq_true]
      rfl
  | error e =>
    dsimp only at h
    split_ifs at h with he
    · exact absurd (he ▸ hlstat) (not_runs_lstat_enoent hdst)
    · exact (refused_throw h).of_fs hfs

theorem copyDirectory_refused {c : CopyCalls} (hdst : w.fs.get true dst = .ok (st.ino, y))
    (h : Runs (copyDirectoryVia c maxpath copy fuel src dst st recursive) w r w') :
    Refused w r w' := by
  unfold copyDirectoryVia at h
  split_ifs at h
  · exact refused_throw h
  · rcases runs_bind.1 h with ⟨e, henter, rfl⟩ | ⟨u, w₁, henter, -⟩
    · exact enterDirectory_refused hdst henter
    · obtain ⟨⟨e, hbad⟩, -⟩ := enterDirectory_refused hdst henter
      exact absurd hbad nofun

/-- A file of the source is not opened. -/
theorem copyRegular_refused (hsource : fs₀.SourceFile src i)
    (hdst : w.fs.get true dst = .ok (i, y))
    (h : Runs (copyRegularVia (sparing src dst fs₀) fuel src dst st) w r w') :
    Refused w r w' := by
  unfold copyRegularVia at h
  obtain ⟨dstSt, w₁, hlstat, h⟩ := runs_attempt_bind.1 h
  have hfs₁ := (runs_look hlstat).1
  split_ifs at h
  · exact (refused_throw h).of_fs hfs₁
  have hlook : ∀ {r' w''}, Runs (openRead src) w₁ r' w'' → w''.fs = w₁.fs := fun hread =>
    (runs_look hread).1
  rcases runs_bind.1 h with ⟨e, hread, rfl⟩ | ⟨sfd, w₂, hread, h⟩
  · exact ⟨⟨e, rfl⟩, (hlook hread).trans hfs₁⟩
  obtain ⟨x, w₃, hopen, -⟩ := runs_attempt_bind.1 h
  have hother := (runs_given.1 hopen).1
  rw [← hfs₁, ← hlook hread] at hdst
  exact absurd hsource (hother i y hdst)

/-- The destination is not unlinked. -/
theorem copySymlink_refused (hsame : SameTarget fs₀ src dst)
    (hdst : w.fs.get true dst = .ok (i, y))
    (h : Runs (copySymlinkVia (sparing src dst fs₀) maxpath src dst) w r w') :
    Refused w r w' := by
  unfold copySymlinkVia at h
  rcases runs_bind.1 h with ⟨e, hread, rfl⟩ | ⟨target, w₁, hread, h⟩
  · exact ⟨⟨e, rfl⟩, (runs_look hread).1⟩
  have hfs₁ := (runs_look hread).1
  split_ifs at h
  · exact (refused_throw h).of_fs hfs₁
  obtain ⟨dstSt, w₂, hlstat, h⟩ := runs_attempt_bind.1 h
  have hfs₂ := (runs_look hlstat).1.trans hfs₁
  rw [← hfs₁] at hdst
  cases dstSt with
  | ok dt =>
    dsimp only at h
    split_ifs at h
    · exact (refused_throw h).of_fs hfs₂
    · rcases runs_bind.1 h with ⟨e, hunlink, -⟩ | ⟨u, w₃, hunlink, -⟩
      · exact absurd hsame (runs_given.1 hunlink).1.1
      · exact absurd hsame (runs_given.1 hunlink).1.1
  | error e =>
    dsimp only at h
    split_ifs at h with he
    · exact (refused_throw h).of_fs hfs₂
    · exact absurd (not_not.1 he ▸ hlstat) (not_runs_lstat_enoent hdst)

/-- **A copy to the same file is refused**, where no file of the source is taken. -/
theorem copyPathVia_refused (hsame : SameTarget w.fs src dst)
    (h : Runs (copyPathVia (sparing src dst w.fs) maxpath fuel src dst recursive) w r w') :
    Refused w r w' := by
  obtain ⟨i, x, y, hsrc, hdst⟩ := hsame
  have hsource : x.kind = .reg → w.fs.SourceFile src i := by
    intro hreg
    cases x with
    | reg mode data => exact ⟨src, data, .inl rfl, mode, hsrc⟩
    | _ => exact absurd hreg nofun
  cases fuel with
  | zero => exact absurd h not_runs_diverge
  | succ fuel =>
    rw [copyPathVia] at h
    rcases runs_bind.1 h with ⟨e, hlstat, rfl⟩ | ⟨st, w₁, hlstat, h⟩
    · exact ⟨⟨e, rfl⟩, (runs_look hlstat).1⟩
    obtain ⟨hfs₁, ⟨e, hbad, -⟩ | ⟨o, st', hst, heq⟩⟩ := runs_look hlstat
    · exact absurd hbad (ok_ne_error _ _)
    obtain rfl := Except.ok.inj heq
    have hdst₁ : w₁.fs.get true dst = .ok (i, y) := hfs₁ ▸ hdst
    refine (?_ : Refused w₁ r w').of_fs hfs₁
    rcases hk : st.kind with _ | _ | _ | _
    all_goals rw [hk] at h
    · obtain ⟨-, hkind⟩ := Fs.statOf_of_get hst hsrc (by rw [hk]; decide)
      exact copyRegular_refused (hsource (hkind.symm.trans hk)) hdst₁ h
    · obtain ⟨ret, w₂, hsymlink, h⟩ := runs_attempt_bind.1 h
      obtain ⟨⟨e, rfl⟩, hfs₂⟩ := copySymlink_refused ⟨i, x, y, hsrc, hdst⟩ hdst₁ hsymlink
      obtain ⟨followSt, w₃, hstat, h⟩ := runs_attempt_bind.1 h
      replace hstat : Runs (stat src) w₂ followSt w₃ := hstat
      obtain ⟨hfs₃, hfollow⟩ := runs_look hstat
      have hfs : w₃.fs = w₁.fs := hfs₃.trans hfs₂
      have hdst₃ : w₃.fs.get true dst = .ok (i, y) := hfs ▸ hdst₁
      refine (?_ : Refused w₃ r w').of_fs hfs
      cases followSt with
      | error _ => exact refused_throw h
      | ok ft =>
        -- `stat` of the source finds the same inode
        obtain ⟨e', hbad, -⟩ | ⟨o, ft', hft, heq⟩ := hfollow
        · exact absurd hbad (ok_ne_error _ _)
        obtain rfl := Except.ok.inj heq
        obtain ⟨z', hz', hkind', -⟩ := Fs.statOf_eq_ok.1 hft
        rw [hfs₂, hfs₁, hsrc] at hz'
        obtain ⟨hi, rfl⟩ := Prod.mk.inj (Except.ok.inj hz')
        rcases hfk : ft.kind with _ | _ | _ | _
        all_goals
          dsimp only at h
          rw [hfk] at h
        · exact copyRegular_refused (hsource (hkind'.symm.trans hfk)) hdst₃ h
        · exact refused_throw h
        · exact copyDirectory_refused (hi ▸ hdst₃) h
        · exact refused_throw h
    · obtain ⟨rfl, -⟩ := Fs.statOf_of_get hst hsrc (by rw [hk]; decide)
      rcases runs_bind.1 h with ⟨e, hcopy, rfl⟩ | ⟨u, w₂, hcopy, -⟩
      · exact copyDirectory_refused hdst₁ hcopy
      · obtain ⟨⟨e, hbad⟩, -⟩ := copyDirectory_refused hdst₁ hcopy
        exact absurd hbad (ok_ne_error _ _)
    · exact refused_throw h

/-- What `lstat` finds at the destination is the inode that the source leads to, which is not
behind a link unless it is a directory; and the kernel lets `lstat` find it. -/
structure Itself (w : World) (src dst : Path) (i : Ino) (x : Node) : Prop where
  source : w.fs.get true src = .ok (i, x)
  target : w.fs.get false dst = .ok (i, x)
  notLink : x.kind ≠ .lnk
  direct : w.fs.get false src = .ok (i, x) ∨ x.kind = .dir
  calm : ∀ k, (w.env k (.lstat dst)).fault = none

theorem Itself.of_fs {w₁ : World} (h : Itself w src dst i x) (hfs : w₁.fs = w.fs)
    (henv : w₁.env = w.env) : Itself w₁ src dst i x where
  source := hfs ▸ h.source
  target := hfs ▸ h.target
  notLink := h.notLink
  direct := hfs ▸ h.direct
  calm := henv ▸ h.calm

theorem Itself.runs_lstat (h : Itself w src dst i x) :
    ∃ w', Runs (lstat dst) w (.ok ⟨i, x.kind, x.perm⟩) w' := by
  obtain ⟨r, w', hrun⟩ : ∃ r w', Runs (lstat dst) w r w' :=
    exists_runs_look (.lstat dst) (fun _ fs => fs.statOf false dst) w
  obtain ⟨-, -, ⟨e, he, -⟩ | hr⟩ := runs_look_outcome hrun
  · rw [h.calm] at he
    exact absurd he nofun
  · rw [Fs.statOf, h.target] at hr
    obtain rfl : r = .ok ⟨i, x.kind, x.perm⟩ := hr
    exact ⟨w', hrun⟩

theorem Itself.sameTarget (h : Itself w src dst i x) : SameTarget w.fs src dst := by
  refine ⟨i, x, x, h.source, Fs.get_true_of_false h.target ?_⟩
  obtain ⟨-, -, -, hnode⟩ := Fs.get_eq_ok.1 h.source
  unfold Nodes.link
  rw [hnode]
  cases x with
  | lnk target => exact absurd rfl h.notLink
  | _ => rfl

theorem sameFile_of_ino {a b : Stat} (h : a.ino = b.ino) : sameFile a b = true := by
  unfold sameFile
  rw [h, beq_self_eq_true, beq_self_eq_true]
  rfl

theorem Itself.runs_copyDirectory (h : Itself w src dst i x) (c : CopyCalls)
    (hdir : x.kind = .dir) (hst : st.ino = i) :
    ∃ e w', Runs (copyDirectoryVia c maxpath copy fuel src dst st recursive) w (.error e) w' := by
  unfold copyDirectoryVia
  split_ifs
  · exact ⟨_, _, runs_throw.2 ⟨rfl, rfl⟩⟩
  · obtain ⟨w₁, hlstat⟩ := h.runs_lstat
    refine ⟨.einval, w₁, runs_bind.2 (.inl ⟨_, runs_attempt_bind.2 ⟨_, _, hlstat, ?_⟩, rfl⟩)⟩
    dsimp only
    rw [if_neg (not_not.2 hdir), if_pos (sameFile_of_ino hst)]
    exact runs_throw.2 ⟨rfl, rfl⟩

theorem Itself.runs_copySymlink (h : Itself w src dst i x) (c : CopyCalls) (maxpath : ℕ)
    (hdir : x.kind = .dir) : ∃ e w', Runs (copySymlinkVia c maxpath src dst) w (.error e) w' ∧
      w'.fs = w.fs ∧ w'.env = w.env := by
  obtain ⟨r, w₁, hread⟩ : ∃ r w', Runs (readlink src (maxpath - 1)) w r w' :=
    exists_runs_look _ _ w
  obtain ⟨hfs₁, henv₁, -⟩ := runs_look_outcome hread
  unfold copySymlinkVia
  cases r with
  | error e => exact ⟨e, w₁, runs_bind.2 (.inl ⟨e, hread, rfl⟩), hfs₁, henv₁⟩
  | ok target =>
    by_cases hlong : maxpath - 1 ≤ target.length
    · refine ⟨.enametoolong, w₁, runs_bind.2 (.inr ⟨target, w₁, hread, ?_⟩), hfs₁, henv₁⟩
      rw [if_pos hlong]
      exact runs_throw.2 ⟨rfl, rfl⟩
    · obtain ⟨w₂, hlstat⟩ := (h.of_fs hfs₁ henv₁).runs_lstat
      obtain ⟨hfs₂, henv₂, -⟩ := runs_look_outcome hlstat
      refine ⟨.eisdir, w₂, runs_bind.2 (.inr ⟨target, w₁, hread, ?_⟩), hfs₂.trans hfs₁,
        henv₂.trans henv₁⟩
      rw [if_neg hlong]
      refine runs_attempt_bind.2 ⟨_, w₂, hlstat, ?_⟩
      dsimp only
      rw [if_pos hdir]
      exact runs_throw.2 ⟨rfl, rfl⟩

/-- **A copy to itself ends**, and in none of the calls that can take a file away. -/
theorem Itself.exists_runs (h : Itself w src dst i x) (c : CopyCalls) (maxpath fuel : ℕ)
    (recursive : Bool) :
    ∃ r w', Runs (copyPathVia c maxpath (fuel + 1) src dst recursive) w r w' := by
  obtain ⟨r, w₁, hlstat⟩ : ∃ r w', Runs (lstat src) w r w' :=
    exists_runs_look (.lstat src) (fun _ fs => fs.statOf false src) w
  rw [copyPathVia]
  obtain ⟨hfs₁, henv₁, hr⟩ := runs_look_outcome hlstat
  cases r with
  | error e => exact ⟨_, _, runs_bind.2 (.inl ⟨e, hlstat, rfl⟩)⟩
  | ok st =>
    have h₁ := h.of_fs hfs₁ henv₁
    obtain ⟨e, -, hbad⟩ | hst := hr
    · exact absurd hbad (ok_ne_error _ _)
    have hfound := Fs.statOf_of_get hst.symm h.source
    refine hlstat.exists_bind ?_
    rcases hk : st.kind with _ | _ | _ | _
    · obtain ⟨hi, -⟩ := hfound (by rw [hk]; decide)
      obtain ⟨w₂, hlstat'⟩ := h₁.runs_lstat
      refine hlstat'.exists_attempt_bind ?_
      dsimp only
      rw [if_pos (sameFile_of_ino hi)]
      exact exists_runs_throw _ _
    · have hdir : x.kind = .dir := by
        refine h.direct.resolve_left fun hlstat => h.notLink ?_
        rw [Fs.statOf, hlstat] at hst
        rw [Except.ok.inj hst] at hk
        exact hk
      obtain ⟨e, w₂, hsymlink, hfs₂, henv₂⟩ := h₁.runs_copySymlink c maxpath hdir
      have h₂ := h₁.of_fs hfs₂ henv₂
      refine hsymlink.exists_attempt_bind ?_
      obtain ⟨r, w₃, hstat⟩ : ∃ r w', Runs (stat src) w₂ r w' :=
        exists_runs_look (.stat src) (fun _ fs => fs.statOf true src) w₂
      obtain ⟨hfs₃, henv₃, hr⟩ := runs_look_outcome hstat
      refine hstat.exists_attempt_bind ?_
      cases r with
      | error _ => exact exists_runs_throw _ _
      | ok ft =>
        obtain ⟨e', -, hbad⟩ | hft := hr
        · exact absurd hbad (ok_ne_error _ _)
        rw [Fs.statOf, h₂.source] at hft
        obtain rfl : ft = ⟨i, x.kind, x.perm⟩ := Except.ok.inj hft
        dsimp only
        rw [hdir]
        have hino : (⟨i, .dir, x.perm⟩ : Stat).ino = i := rfl
        obtain ⟨e', w₄, hcopy⟩ := (h₂.of_fs hfs₃ henv₃).runs_copyDirectory c hdir hino
        exact ⟨_, _, hcopy⟩
    · obtain ⟨hi, hkind⟩ := hfound (by rw [hk]; decide)
      obtain ⟨e, w₂, hcopy⟩ := h₁.runs_copyDirectory c (hkind.symm.trans hk) hi
      exact ⟨_, _, runs_bind.2 (.inl ⟨e, hcopy, rfl⟩)⟩
    · exact exists_runs_throw _ _

end Same

/-! ### What a copy leaves -/

/-- The files of the source are there as before, and a copy to the same file was refused. -/
structure CopySpares (src dst : Path) (w : World) (r : Except Errno Unit) (w' : World) :
    Prop where
  kept : KeepsFiles src w.fs w'.fs
  refused : SameTarget w.fs src dst → Refused w r w'

/-- **When a copy spares its source.**  Every run in which the files that are opened for writing
and the entries that are unlinked are none of the source leaves what was reached through the
source as it was, and fails without changing anything where the destination is the same file.
So does, in particular, a copy whose destination is found to be the source itself. -/
theorem copyPath_spares (maxpath : ℕ) (src dst : Path) (recursive : Bool) (w : World) :
    (∀ fuel r w', Runs (copyPathVia (sparing src dst w.fs) maxpath fuel src dst recursive) w r w' →
      Runs (copyPath maxpath fuel src dst recursive) w r w' ∧ CopySpares src dst w r w') ∧
    ∀ i x, Itself w src dst i x → ∀ fuel, ∃ e w',
      Runs (copyPath maxpath (fuel + 1) src dst recursive) w (.error e) w' ∧ w'.fs = w.fs := by
  have hrefines : ∀ fuel, Refines
      (copyPathVia (sparing src dst w.fs) maxpath fuel src dst recursive)
      (copyPath maxpath fuel src dst recursive) := by
    intro fuel
    refine copyPathVia_refines (fun p => ?_) (fun p => ?_) (fun p => ?_) fuel src dst recursive
    · exact Refines.refl (openRead p)
    · exact Refines.given _ (openWrite p)
    · exact Refines.given _ (unlink p)
  refine ⟨fun fuel r w' h => ⟨hrefines fuel _ _ _ h, ?_, fun hsame => ?_⟩, fun i x h fuel => ?_⟩
  · exact keepsFiles_copyPath fuel src dst recursive _ _ _ h (KeepsFiles.refl src w.fs)
  · exact copyPathVia_refused hsame h
  · obtain ⟨r, w', hrun⟩ := h.exists_runs (sparing src dst w.fs) maxpath fuel recursive
    obtain ⟨⟨e, rfl⟩, hfs⟩ := copyPathVia_refused h.sameTarget hrun
    exact ⟨e, w', hrefines _ _ _ _ hrun, hfs⟩

/-- The file `/d/f` with a byte in it and the link `/l` to it, where no call reports an
error. -/
def linkedWorld : World where
  fs := linkWorld.fs.alter ⟨0, 2⟩ (Node.setData [120]) (sameShape_setData _)
  env := smallWorld.env
  calls := []

/-- The copy of the byte of `/d/f` to `/d/g`, which does not exist, and the one of `/d/f` to
itself. -/
theorem copyPath_spares_small :
    (∃ w', Runs (copyPath 512 4 [47, 100, 47, 102] [47, 100, 47, 103] false) linkedWorld (.ok ())
      w' ∧ CopySpares [47, 100, 47, 102] [47, 100, 47, 103] linkedWorld (.ok ()) w' ∧
      ∃ t mode, w'.fs.get true [47, 100, 47, 103] = .ok (t, .reg mode [120])) ∧
    ∃ e w', Runs (copyPath 512 1 [47, 100, 47, 102] [47, 100, 47, 102] false) linkedWorld (.error e)
      w' ∧ w'.fs = linkedWorld.fs := by
  have hvia : ∃ r w', Runs (copyPathVia (sparing [47, 100, 47, 102] [47, 100, 47, 103]
      linkedWorld.fs) 512 4 [47, 100, 47, 102] [47, 100, 47, 103] false) linkedWorld r w' := by
    have hlstat : Runs (lstat [47, 100, 47, 102]) linkedWorld (.ok ⟨⟨0, 2⟩, .reg, 0o640⟩)
        { linkedWorld with calls := [.lstat [47, 100, 47, 102]] } := rfl
    refine hlstat.exists_bind (Runs.exists_attempt_bind rfl ?_)
    rw [if_neg Bool.false_ne_true]
    refine Runs.exists_bind rfl (Runs.exists_attempt_bind (runs_given.2 ⟨?_, rfl⟩) ⟨_, _, rfl⟩)
    intro i x hget
    exact absurd hget nofun
  obtain ⟨r, w', hvia⟩ := hvia
  have hspares := (copyPath_spares 512 _ _ false linkedWorld).1 4 _ _ hvia
  obtain ⟨w'', hrun, hcopied⟩ : ∃ w'', Runs (copyPath 512 4 [47, 100, 47, 102]
      [47, 100, 47, 103] false) linkedWorld (.ok ()) w'' ∧
        ∃ t mode, w''.fs.get true [47, 100, 47, 103] = .ok (t, .reg mode [120]) :=
    ⟨_, rfl, _, _, rfl⟩
  obtain ⟨rfl, rfl⟩ := hrun.unique hspares.1
  have hself : Itself linkedWorld [47, 100, 47, 102] [47, 100, 47, 102] ⟨0, 2⟩
      (.reg 0o640 [120]) := ⟨rfl, rfl, nofun, .inl rfl, fun _ => rfl⟩
  exact ⟨⟨_, hspares.1, hspares.2, hcopied⟩,
    (copyPath_spares 512 _ _ false linkedWorld).2 _ _ hself 0⟩

/-- The copy of `/d/f` to `/l` empties the file and returns 0. -/
theorem copyPath_not_spares : ¬∀ maxpath fuel src dst recursive w r w',
    Runs (copyPath maxpath fuel src dst recursive) w r w' → CopySpares src dst w r w' := by
  intro hall
  obtain ⟨w', hrun, hget⟩ : ∃ w', Runs (copyPath 512 2 [47, 100, 47, 102] [47, 108] false)
      linkedWorld (.ok ()) w' ∧
        w'.fs.get true [47, 100, 47, 102] = .ok (⟨0, 2⟩, .reg 0o640 []) := ⟨_, rfl, rfl⟩
  have hfile : linkedWorld.fs.FileAt [47, 100, 47, 102] ⟨0, 2⟩ [120] := ⟨0o640, rfl⟩
  obtain ⟨mode, hkept⟩ := (hall _ _ _ _ _ _ _ _ hrun).kept _ _ _ (.inl rfl) hfile
  rw [hget] at hkept
  have hnode := (Prod.mk.inj (Except.ok.inj hkept)).2
  exact absurd (Node.reg.inj hnode).2 nofun

end Fsutil
end V6User
