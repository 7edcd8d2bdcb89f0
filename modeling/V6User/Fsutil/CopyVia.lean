import V6User.Fsutil.Copy
import V6User.Vfs.Onward

/-!
# The copy and the calls that it makes

With calls that are given a condition, `copyPathVia` makes the runs of the copy in which the
condition was met (`copyPathVia_refines`).

What these calls keep, and the calls that take nothing away, the copy keeps
(`keeps_copyPathVia`).  So it is with a condition on the file system (`Carries`) that is not
lost where something is made or a mode is set (`Steady.tame`), if no file is opened that the
condition depends on (`Steady.keepsOpened`).
-/

namespace V6User
namespace Fsutil

open Vfs Effect

section Refines

variable {maxpath fuel : ℕ} {c c' : CopyCalls} {copy copy' : Path → Path → Prog Unit}

theorem copyRecords_refines (hcopy : ∀ s d, Refines (copy s d) (copy' s d)) (src dst : Path)
    (des : List Dirent) :
    Refines (copyRecords maxpath copy src dst des) (copyRecords maxpath copy' src dst des) := by
  induction des with
  | nil => exact Refines.refl _
  | cons de rest ih =>
    rw [copyRecords, copyRecords]
    split_ifs
    · exact Refines.refl _
    · refine Refines.bind (Refines.refl _) fun s => Refines.bind (Refines.refl _) fun d => ?_
      exact Refines.bind (hcopy s d) fun _ => ih
    · exact ih

theorem copyEntries_refines (hcopy : ∀ s d, Refines (copy s d) (copy' s d)) (src dst : Path)
    (fd : Ino) (fuel pos : ℕ) :
    Refines (copyEntries maxpath copy src dst fd fuel pos)
      (copyEntries maxpath copy' src dst fd fuel pos) := by
  induction fuel generalizing pos with
  | zero => exact Refines.refl _
  | succ fuel ih =>
    rw [copyEntries, copyEntries]
    refine Refines.bind (Refines.refl _) fun des => ?_
    split_ifs
    · exact Refines.refl _
    · exact Refines.bind (copyRecords_refines hcopy src dst des) fun _ => ih _

theorem copyDirectoryVia_refines (hread : ∀ p, Refines (c.openRead p) (c'.openRead p))
    (hcopy : ∀ s d, Refines (copy s d) (copy' s d)) (src dst : Path) (st : Stat)
    (recursive : Bool) :
    Refines (copyDirectoryVia c maxpath copy fuel src dst st recursive)
      (copyDirectoryVia c' maxpath copy' fuel src dst st recursive) := by
  unfold copyDirectoryVia
  split_ifs
  · exact Refines.refl _
  · refine Refines.bind (Refines.refl _) fun _ => Refines.bind (hread src) fun fd => ?_
    exact Refines.bind (Refines.attempt (copyEntries_refines hcopy src dst fd fuel 0)) fun _ =>
      Refines.refl _

theorem copyRegularVia_refines (hread : ∀ p, Refines (c.openRead p) (c'.openRead p))
    (hopen : ∀ p, Refines (c.openWrite p) (c'.openWrite p)) (fuel : ℕ) (src dst : Path)
    (st : Stat) :
    Refines (copyRegularVia c fuel src dst st) (copyRegularVia c' fuel src dst st) := by
  unfold copyRegularVia
  refine Refines.bind (Refines.refl _) fun dstSt => ?_
  split_ifs
  · exact Refines.refl _
  · refine Refines.bind (hread src) fun sfd => ?_
    exact Refines.bind (Refines.attempt (hopen dst)) fun _ => Refines.refl _

/-- The runs with calls that end in fewer ways are runs. -/
theorem copyPathVia_refines (hread : ∀ p, Refines (c.openRead p) (c'.openRead p))
    (hopen : ∀ p, Refines (c.openWrite p) (c'.openWrite p))
    (hunlink : ∀ p, Refines (c.unlink p) (c'.unlink p)) (fuel : ℕ) (src dst : Path)
    (recursive : Bool) :
    Refines (copyPathVia c maxpath fuel src dst recursive)
      (copyPathVia c' maxpath fuel src dst recursive) := by
  have hsymlink : ∀ src dst,
      Refines (copySymlinkVia c maxpath src dst) (copySymlinkVia c' maxpath src dst) := by
    intro src dst
    unfold copySymlinkVia
    refine Refines.bind (Refines.refl _) fun target => ?_
    split_ifs
    · exact Refines.refl _
    · refine Refines.bind (Refines.refl _) fun dstSt => ?_
      cases dstSt with
      | error e => exact Refines.refl _
      | ok dstSt =>
        dsimp only
        split_ifs
        · exact Refines.refl _
        · exact Refines.bind (hunlink dst) fun _ => Refines.refl _
  induction fuel generalizing src dst with
  | zero => exact Refines.refl _
  | succ fuel ih =>
    rw [copyPathVia, copyPathVia]
    refine Refines.bind (Refines.refl _) fun st => ?_
    cases st.kind with
    | reg => exact copyRegularVia_refines hread hopen _ _ _ _
    | lnk =>
      refine Refines.bind (Refines.attempt (hsymlink src dst)) fun ret => ?_
      cases ret with
      | ok u => exact Refines.refl _
      | error e =>
        refine Refines.bind (Refines.refl _) fun followSt => ?_
        cases followSt with
        | error _ => exact Refines.refl _
        | ok followSt =>
          dsimp only
          cases followSt.kind with
          | reg => exact copyRegularVia_refines hread hopen _ _ _ _
          | dir => exact copyDirectoryVia_refines hread ih _ _ _ _
          | lnk => exact Refines.refl _
          | other => exact Refines.refl _
    | dir => exact Refines.bind (copyDirectoryVia_refines hread ih _ _ _ _) fun _ => Refines.refl _
    | other => exact Refines.refl _

end Refines

/-! ### What every call keeps -/

/-- A relation that the calls keep which only look, make something where nothing is or set a
mode. -/
structure Tame (R : World → World → Prop) : Prop where
  look {α : Type} (c : Call) (f : Outcome → Fs → Except Errno α) : Keeps R (look c f)
  make (c : Call) (place : Fs → Except Errno Place) (k : Outcome → ℕ) (x : Outcome → New) :
    Keeps R (change c fun o fs => fs.makeNew (place fs) (k o) (x o))
  chmod (p : Path) (mode : ℕ) : Keeps R (chmod p mode)

/-- What follows `m` keeps the relation if it does so for a file that writes keep it for. -/
def KeepsOpened (R : World → World → Prop) (m : Prog Ino) : Prop :=
  ∀ k : Except Errno Ino → Prog Unit, (∀ e, Keeps R (k (.error e))) →
    (∀ t, (∀ pos buf, Keeps R (write t pos buf)) → Keeps R (k (.ok t))) →
    Keeps R (attempt m >>= k)

section Keeps

variable {R : World → World → Prop} [Std.Refl R] [IsTrans World R] {maxpath fuel : ℕ}
  {c : CopyCalls} {copy : Path → Path → Prog Unit} {t : Ino}

theorem keeps_writeLoop (hwrite : ∀ pos buf, Keeps R (write t pos buf)) (pos : ℕ)
    (buf : List UInt8) (fuel off : ℕ) : Keeps R (writeLoop t pos buf fuel off) := by
  induction fuel generalizing off with
  | zero => exact Keeps.diverge
  | succ fuel ih =>
    rw [writeLoop]
    split_ifs
    · refine Keeps.bind (hwrite _ _) fun w => ?_
      split_ifs
      · exact Keeps.throw _
      · exact ih _
    · exact Keeps.pure _

theorem keeps_copyLoop {s : Ino} (hread : ∀ pos, Keeps R (read s pos copyBufsz))
    (hwrite : ∀ pos buf, Keeps R (write t pos buf)) (fuel pos : ℕ) :
    Keeps R (copyLoop s t fuel pos) := by
  induction fuel generalizing pos with
  | zero => exact Keeps.diverge
  | succ fuel ih =>
    rw [copyLoop]
    refine Keeps.bind (hread pos) fun buf => ?_
    split_ifs
    · exact Keeps.pure _
    · exact Keeps.bind (keeps_writeLoop hwrite _ _ _ _) fun _ => ih _

/-- What `fsutil_copy_regular` does once the destination is open. -/
theorem keeps_writeFile (ht : Tame R) (hwrite : ∀ pos buf, Keeps R (write t pos buf)) (s : Ino)
    (fuel : ℕ) (dst : Path) (mode : ℕ) : Keeps R (do
      let ret ← attempt (copyLoop s t fuel 0)
      let _ ← attempt (close t)
      let _ ← attempt (close s)
      match ret with
      | .ok () => chmod dst mode
      | .error e => throw e : Prog Unit) := by
  refine Keeps.bind (Keeps.attempt (keeps_copyLoop (fun _ => ht.look _ _) hwrite _ _)) fun ret => ?_
  refine Keeps.bind (Keeps.attempt (ht.look _ _)) fun _ => ?_
  refine Keeps.bind (Keeps.attempt (ht.look _ _)) fun _ => ?_
  cases ret with
  | ok u => exact ht.chmod _ _
  | error e => exact Keeps.throw _

theorem keeps_copyRegularVia (ht : Tame R) (hread : ∀ p, Keeps R (c.openRead p))
    (hopen : ∀ p, KeepsOpened R (c.openWrite p)) (fuel : ℕ) (src dst : Path) (st : Stat) :
    Keeps R (copyRegularVia c fuel src dst st) := by
  unfold copyRegularVia
  refine Keeps.bind (Keeps.attempt (ht.look _ _)) fun dstSt => ?_
  split_ifs
  · exact Keeps.throw _
  · refine Keeps.bind (hread src) fun sfd => hopen dst _ (fun e => ?_) fun t hwrite => ?_
    · exact Keeps.bind (Keeps.attempt (ht.look _ _)) fun _ => Keeps.throw _
    · exact keeps_writeFile ht hwrite _ _ _ _

theorem keeps_copySymlinkVia (ht : Tame R) (src dst : Path) (hunlink : Keeps R (c.unlink dst)) :
    Keeps R (copySymlinkVia c maxpath src dst) := by
  unfold copySymlinkVia
  refine Keeps.bind (ht.look _ _) fun target => ?_
  split_ifs
  · exact Keeps.throw _
  · refine Keeps.bind (Keeps.attempt (ht.look _ _)) fun dstSt => ?_
    cases dstSt with
    | ok dstSt =>
      dsimp only
      split_ifs
      · exact Keeps.throw _
      · exact Keeps.bind hunlink fun _ => ht.make _ _ _ _
    | error e =>
      dsimp only
      split_ifs
      · exact Keeps.throw _
      · exact ht.make _ _ _ _

theorem keeps_copyRecords (hcopy : ∀ s d, Keeps R (copy s d)) (src dst : Path)
    (des : List Dirent) : Keeps R (copyRecords maxpath copy src dst des) := by
  induction des with
  | nil => exact Keeps.pure _
  | cons de rest ih =>
    rw [copyRecords]
    split_ifs
    · exact Keeps.throw _
    · refine Keeps.bind (Keeps.ofExcept _) fun s => Keeps.bind (Keeps.ofExcept _) fun d => ?_
      exact Keeps.bind (hcopy s d) fun _ => ih
    · exact ih

theorem keeps_copyEntries (ht : Tame R) (hcopy : ∀ s d, Keeps R (copy s d)) (src dst : Path)
    (fd : Ino) (fuel pos : ℕ) : Keeps R (copyEntries maxpath copy src dst fd fuel pos) := by
  induction fuel generalizing pos with
  | zero => exact Keeps.diverge
  | succ fuel ih =>
    rw [copyEntries]
    refine Keeps.bind (ht.look _ _) fun des => ?_
    split_ifs
    · exact Keeps.pure _
    · exact Keeps.bind (keeps_copyRecords hcopy _ _ _) fun _ => ih _

theorem keeps_enterDirectory (ht : Tame R) (dst : Path) (st : Stat) :
    Keeps R (enterDirectory dst st) := by
  unfold enterDirectory
  refine Keeps.bind (Keeps.attempt (ht.look _ _)) fun dstSt => ?_
  cases dstSt with
  | ok dstSt =>
    dsimp only
    split_ifs
    · exact Keeps.throw _
    · exact Keeps.throw _
    · exact Keeps.pure _
  | error e =>
    dsimp only
    split_ifs
    · exact ht.make _ _ _ _
    · exact Keeps.throw _

/-- What follows once the destination is there. -/
theorem keeps_readDirectory (ht : Tame R) (hread : ∀ p, Keeps R (c.openRead p)) (maxpath : ℕ)
    (hcopy : ∀ s d, Keeps R (copy s d)) (fuel : ℕ) (src dst : Path) : Keeps R (do
      let fd ← c.openRead src
      let ret ← attempt (copyEntries maxpath copy src dst fd fuel 0)
      let _ ← attempt (close fd)
      ofExcept ret : Prog Unit) := by
  refine Keeps.bind (hread src) fun fd => ?_
  refine Keeps.bind (Keeps.attempt (keeps_copyEntries ht hcopy _ _ _ _ _)) fun ret => ?_
  exact Keeps.bind (Keeps.attempt (ht.look _ _)) fun _ => Keeps.ofExcept _

theorem keeps_copyDirectoryVia (ht : Tame R) (hread : ∀ p, Keeps R (c.openRead p))
    (hcopy : ∀ s d, Keeps R (copy s d)) (fuel : ℕ) (src dst : Path) (st : Stat)
    (recursive : Bool) : Keeps R (copyDirectoryVia c maxpath copy fuel src dst st recursive) := by
  unfold copyDirectoryVia
  split_ifs
  · exact Keeps.throw _
  · exact Keeps.bind (keeps_enterDirectory ht _ _) fun _ =>
      keeps_readDirectory ht hread _ hcopy _ _ _

/-- **What the calls keep, the copy keeps.** -/
theorem keeps_copyPathVia (ht : Tame R) (hread : ∀ p, Keeps R (c.openRead p))
    (hopen : ∀ p, KeepsOpened R (c.openWrite p)) (hunlink : ∀ p, Keeps R (c.unlink p)) (fuel : ℕ)
    (src dst : Path) (recursive : Bool) :
    Keeps R (copyPathVia c maxpath fuel src dst recursive) := by
  induction fuel generalizing src dst with
  | zero => exact Keeps.diverge
  | succ fuel ih =>
    rw [copyPathVia]
    refine Keeps.bind (ht.look _ _) fun st => ?_
    cases st.kind with
    | reg => exact keeps_copyRegularVia ht hread hopen _ _ _ _
    | lnk =>
      refine Keeps.bind (Keeps.attempt (keeps_copySymlinkVia ht _ _ (hunlink _))) fun ret => ?_
      cases ret with
      | ok u => exact Keeps.pure _
      | error e =>
        refine Keeps.bind (Keeps.attempt (ht.look _ _)) fun followSt => ?_
        cases followSt with
        | error _ => exact Keeps.throw _
        | ok followSt =>
          dsimp only
          cases followSt.kind with
          | reg => exact keeps_copyRegularVia ht hread hopen _ _ _ _
          | dir => exact keeps_copyDirectoryVia ht hread ih _ _ _ _ _
          | lnk => exact Keeps.throw _
          | other => exact Keeps.throw _
    | dir => exact Keeps.bind (keeps_copyDirectoryVia ht hread ih _ _ _ _ _) fun _ => ht.chmod _ _
    | other => exact Keeps.throw _

end Keeps

/-! ### Conditions on the file system -/

/-- The condition holds of the file system afterwards if it did before. -/
def Carries (I : Fs → Prop) (w w' : World) : Prop := I w.fs → I w'.fs

instance (I : Fs → Prop) : Std.Refl (Carries I) := ⟨fun _ h => h⟩

instance (I : Fs → Prop) : IsTrans World (Carries I) := ⟨fun _ _ _ h h' hi => h' (h hi)⟩

/-- A condition that is not lost where something is made or a mode is set. -/
structure Steady (I : Fs → Prop) : Prop where
  make {fs : Fs} {d : Ino} {n : Name} (k : ℕ) (x : New) (h : I fs)
    (hmissing : fs.node.entry d n = .ok none) : I (fs.make d n k x hmissing)
  setMode {fs : Fs} (i : Ino) (mode : ℕ) (h : I fs) :
    I (fs.alter i (Node.setMode mode) (sameShape_setMode mode))

section Carries

variable {I : Fs → Prop} {α : Type} {c : Call} {w w' : World} {t : Ino} {p : Path}

theorem carries_of_fs (h : w'.fs = w.fs) : Carries I w w' := fun hi => h ▸ hi

theorem carries_look {f : Outcome → Fs → Except Errno α} : Keeps (Carries I) (look c f) :=
  fun _ _ _ h => carries_of_fs (runs_look h).1

theorem carries_openRead (p : Path) : Keeps (Carries I) (openRead p) := carries_look

theorem carries_change {f : Outcome → Fs → Except Errno Fs}
    (hf : ∀ o fs fs', f o fs = .ok fs' → I fs → I fs') : Keeps (Carries I) (change c f) := by
  intro w r w' h
  obtain ⟨e, -, hfs, -⟩ | ⟨o, hok, -⟩ := runs_change h
  · exact carries_of_fs hfs
  · exact hf o _ _ hok

theorem Steady.chmod (h : Steady I) (p : Path) (mode : ℕ) : Keeps (Carries I) (chmod p mode) := by
  refine carries_change fun o fs fs' hok hi => ?_
  rcases hget : fs.get true p with e | y
  · rw [hget] at hok
    exact absurd hok nofun
  · rw [hget] at hok
    rw [← Except.ok.inj hok]
    exact h.setMode y.1 mode hi

theorem Steady.tame (h : Steady I) : Tame (Carries I) where
  look _ _ := carries_look
  make c place k x := by
    refine carries_change fun o fs fs' hok hi => ?_
    obtain ⟨d, n, hmissing, -, rfl⟩ := Fs.makeNew_eq_ok hok
    exact h.make _ _ hi hmissing
  chmod := h.chmod

theorem carries_write (ht : ∀ fs bytes, I fs →
      I (fs.alter t (Node.setData bytes) (sameShape_setData bytes))) (pos : ℕ) (buf : List UInt8) :
    Keeps (Carries I) (write t pos buf) := by
  intro w r w' h
  obtain ⟨-, -, ⟨e, -, hfs, -⟩ | ⟨o, a, hok, -⟩⟩ := runs_sys h
  · exact carries_of_fs hfs
  · obtain ⟨mode, data, -, -, hfs⟩ := Fs.write_eq_ok hok
    exact fun hi => hfs ▸ ht w.fs _ hi

/-- **The file that is opened**, where `Q` says of a file that its bytes do not matter: a new
file is one, and so is the one that the path leads to. -/
theorem Steady.keepsOpened (h : Steady I) {P : World → Prop} {Q : Ino → Prop} {m : Prog Ino}
    (hm : ∀ w r w', Runs m w r w' → Runs (openWrite p) w r w' ∧ ∀ t, r = .ok t → P w)
    (hset : ∀ t fs bytes, Q t → I fs →
      I (fs.alter t (Node.setData bytes) (sameShape_setData bytes)))
    (hnew : ∀ fs t, I fs → fs.node t = none → Q t)
    (hthere : ∀ w place t, P w → I w.fs → w.fs.find true p = .ok place → place.ino = some t →
      Q t) : KeepsOpened (Carries I) m := by
  intro k herror hok w r w' hrun hi
  obtain ⟨x, w₁, hopen, hrest⟩ := runs_attempt_bind.1 hrun
  obtain ⟨hopen, hP⟩ := hm _ _ _ hopen
  obtain ⟨-, -, ⟨e, rfl, hfs, -⟩ | ⟨o, t, hopened, rfl⟩⟩ := runs_sys hopen
  · exact herror e _ _ _ hrest (hfs ▸ hi)
  obtain ⟨hq, hi₁⟩ : Q t ∧ I w₁.fs := by
    rcases Fs.openWrite_eq_ok hopened with
      ⟨d, n, hmissing, -, rfl, hfs⟩ | ⟨place, hplace, ht, hfs⟩
    · exact ⟨hnew w.fs _ hi (w.fs.unused _ (Nat.le_refl _)), hfs ▸ h.make _ _ hi hmissing⟩
    · have hq := hthere w place t (hP t rfl) hi hplace ht
      exact ⟨hq, hfs ▸ hset t w.fs [] hq hi⟩
  exact hok t (carries_write fun fs bytes => hset t fs bytes hq) _ _ _ hrest hi₁

end Carries

end Fsutil
end V6User
