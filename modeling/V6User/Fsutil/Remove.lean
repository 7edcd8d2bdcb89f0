import V6User.Fsutil.Paths
import V6User.Vfs.Unlink

/-!
# Removing a tree

`fsutil_remove_path` of `lib/fsutil.c`.  A directory is read until a child is found, the child
is removed, and the directory is read again from its start; when there is no child left the
directory itself is removed.  The loops and the recursion take fuel, and the call that removes an
entry is a parameter, so that a condition may be put on it.

Everything that is removed is the entry of the path itself or lies in the tree of what `lstat`
finds there, and when the removal succeeds nothing of that tree is left (`Removes`).
-/

namespace V6User
namespace Fsutil

open Vfs Effect

/-- `(force && ret == -ENOENT) ? 0 : ret`, for a `ret` that is an error. -/
def unlessForced (force : Bool) (e : Errno) : Prog Unit :=
  if force = true ∧ e = .enoent then pure () else throw e

/-- `ret = unlink(path); return (force && ret == -ENOENT) ? 0 : ret;`, with this call. -/
def unlinkPathVia (unlink : Path → Prog Unit) (force : Bool) (path : Path) : Prog Unit := do
  match ← attempt (unlink path) with
  | .ok () => pure ()
  | .error e => unlessForced force e

/-- The same with the system call. -/
def unlinkPath : Bool → Path → Prog Unit := unlinkPathVia unlink

/-- The child that the records of one buffer give. -/
def findChild (maxpath : ℕ) (path : Path) : List Dirent → Except Errno (Option Path)
  | [] => .ok none
  | de :: rest =>
    if de.reclen = 0 then .error .eio
    else if !isDotOrDotdot de.name.bytes then (joinPath maxpath path de.name.bytes).map some
    else findChild maxpath path rest

/-- The first child of a directory, from a record on. -/
def readChild (maxpath : ℕ) (path : Path) (fd : Ino) : ℕ → ℕ → Prog (Option Path)
  | 0, _ => diverge
  | fuel + 1, pos => do
    let des ← getdents fd pos
    if des = [] then pure none
    else
      match ← ofExcept (findChild maxpath path des) with
      | some child => pure (some child)
      | none => readChild maxpath path fd fuel (pos + des.length)

/-- The loop that removes one child after another. -/
def removeChildren (maxpath : ℕ) (path : Path) (remove : Path → Prog Unit) : ℕ → Prog Unit
  | 0 => diverge
  | fuel + 1 => do
    let fd ← openRead path
    let found ← attempt (readChild maxpath path fd fuel 0)
    let _ ← attempt (close fd)
    match ← ofExcept found with
    | none => pure ()
    | some child => do
      remove child
      removeChildren maxpath path remove fuel

/-- `fsutil_remove_path`, with this call for `unlink`. -/
def removePathVia (unlink : Path → Prog Unit) (maxpath : ℕ) : ℕ → Path → Bool → Bool → Prog Unit
  | 0, _, _, _ => diverge
  | fuel + 1, path, recursive, force => do
    match ← attempt (lstat path) with
    | .error e => unlessForced force e
    | .ok st => do
      let base ← ofExcept (copyBasename maxpath path)
      if isDotOrDotdot base then throw .einval
      else if st.kind ≠ .dir then unlinkPathVia unlink force path
      else if !recursive then throw .eisdir
      else do
        removeChildren maxpath path
          (fun child => removePathVia unlink maxpath fuel child true force) fuel
        unlinkPathVia unlink force path

/-- **`fsutil_remove_path`.** -/
def removePath : ℕ → ℕ → Path → Bool → Bool → Prog Unit := removePathVia unlink

/-! ### The parts -/

section Parts

variable {maxpath : ℕ} {path child : Path} {force : Bool} {w w' : World}

/-- A child has a name that is not `.` or `..`, and its path ends in it. -/
theorem of_findChild {des : List Dirent} (h : findChild maxpath path des = .ok (some child)) :
    ∃ n : Name, ¬n.IsDots ∧ joinPath maxpath path n.bytes = .ok child := by
  induction des with
  | nil => exact absurd (Except.ok.inj h) nofun
  | cons de rest ih =>
    rw [findChild] at h
    split_ifs at h with hreclen hdots
    · rcases hjoin : joinPath maxpath path de.name.bytes with e | p
      · rw [hjoin] at h
        exact absurd h nofun
      · rw [hjoin] at h
        obtain rfl := Option.some.inj (Except.ok.inj h)
        refine ⟨de.name, fun hn => ?_, hjoin⟩
        rw [(isDotOrDotdot_iff _).2 hn] at hdots
        exact absurd hdots nofun
    · exact ih h

/-- Reading changes nothing. -/
theorem runs_readChild {fd : Ino} {fuel pos : ℕ} {r : Except Errno (Option Path)}
    (h : Runs (readChild maxpath path fd fuel pos) w r w') : w'.fs = w.fs ∧
      ∀ child, r = .ok (some child) →
        ∃ n : Name, ¬n.IsDots ∧ joinPath maxpath path n.bytes = .ok child := by
  induction fuel generalizing pos w with
  | zero => exact absurd h not_runs_diverge
  | succ fuel ih =>
    rw [readChild] at h
    rcases runs_bind.1 h with ⟨e, hdents, rfl⟩ | ⟨des, w₁, hdents, h⟩
    · exact ⟨(runs_look hdents).1, nofun⟩
    have hfs := (runs_look hdents).1
    split_ifs at h
    · obtain ⟨rfl, rfl⟩ := runs_pure.1 h
      exact ⟨hfs, nofun⟩
    rcases runs_ofExcept_bind.1 h with ⟨e, -, rfl, rfl⟩ | ⟨found, hfound, h⟩
    · exact ⟨hfs, nofun⟩
    cases found with
    | none =>
      obtain ⟨hfs', hchild⟩ := ih h
      exact ⟨hfs'.trans hfs, hchild⟩
    | some child =>
      obtain ⟨rfl, rfl⟩ := runs_pure.1 h
      refine ⟨hfs, fun c hc => ?_⟩
      obtain rfl := Option.some.inj (Except.ok.inj hc)
      exact of_findChild hfound

theorem runs_unlessForced {e : Errno} {r : Except Errno Unit}
    (h : Runs (unlessForced force e) w r w') :
    w'.fs = w.fs ∧ (r = .ok () → force = true ∧ e = .enoent) := by
  unfold unlessForced at h
  split_ifs at h with hforced
  · rw [(runs_pure.1 h).2]
    exact ⟨rfl, fun _ => hforced⟩
  · obtain ⟨rfl, rfl⟩ := runs_throw.1 h
    exact ⟨rfl, nofun⟩

theorem runs_forced {e : Errno} (h : force = true ∧ e = .enoent) :
    Runs (unlessForced force e) w (.ok ()) w := by
  unfold unlessForced
  rw [if_pos h]
  exact runs_pure.2 ⟨rfl, rfl⟩

theorem runs_not_forced {e : Errno} (h : ¬(force = true ∧ e = .enoent)) :
    Runs (unlessForced force e) w (.error e) w := by
  unfold unlessForced
  rw [if_neg h]
  exact runs_throw.2 ⟨rfl, rfl⟩

/-- Where there is something, success means that the entry was removed. -/
theorem runs_unlinkPath {follow : Bool} {i : Ino} {x : Node} {r : Except Errno Unit}
    (hget : w.fs.get follow path = .ok (i, x)) (h : Runs (unlinkPath force path) w r w') :
    (w'.fs = w.fs ∧ r ≠ .ok ()) ∨ (∃ dead, w.fs.unlink dead path = .ok w'.fs ∧ r = .ok ()) := by
  unfold unlinkPath unlinkPathVia at h
  obtain ⟨u, w₁, hunlink, h⟩ := runs_attempt_bind.1 h
  obtain ⟨e, rfl, hfs, he⟩ | ⟨o, hok, rfl⟩ := runs_change hunlink
  · obtain ⟨hfs', hforced⟩ := runs_unlessForced h
    refine .inl ⟨hfs'.trans hfs, fun hr => ?_⟩
    obtain ⟨o, ho⟩ := he (hforced hr).2
    rw [(hforced hr).2] at ho
    exact Fs.unlink_ne_enoent hget ho
  · obtain ⟨rfl, rfl⟩ := runs_pure.1 h
    exact .inr ⟨o.dead, hok, rfl⟩

end Parts

/-! ### What a removal does -/

/-- What the removal of a path does to the file system, with the result `r`. -/
structure Removes (fs : Fs) (path : Path) (r : Except Errno Unit) (fs' : Fs) : Prop where
  shrinks : Shrinks fs fs'
  missing : ∀ e, fs.get false path = .error e → fs' = fs
  inside : ∀ top x, fs.get false path = .ok (top, x) → ∀ d n i, fs.child d n = some i →
    fs'.child d n = none → InTree fs top d ∨ fs.findEntry path = .ok (.entry d n (some top))
  gone : ∀ top x, fs.get false path = .ok (top, x) → r = .ok () →
    (∃ d n, fs.findEntry path = .ok (.entry d n (some top)) ∧ fs'.child d n = none) ∧
      ∀ m, fs'.child top m = none

section Removes

variable {fs fs₁ fs' : Fs} {dead : Bool} {path p : Path} {r : Except Errno Unit} {top : Ino} {x : Node}
  {n : Name}

/-- A removal that fails, after it removed something in the tree. -/
theorem removes_of_error (hget : fs.get false path = .ok (top, x)) (hs : ShrinksIn fs top fs')
    (hr : r ≠ .ok ()) : Removes fs path r fs' where
  shrinks := hs.toShrinks
  missing e he := absurd (hget.symm.trans he) nofun
  inside top' x' hget' d n i hi hnone := by
    obtain ⟨rfl, rfl⟩ := Prod.mk.inj (Except.ok.inj (hget.symm.trans hget'))
    exact .inl (hs.inside d n i hi hnone)
  gone _ _ _ hok := absurd hok hr

/-- A removal that ends with `unlink`. -/
theorem removes_of_unlink (hget : fs.get false path = .ok (top, x)) (hs : ShrinksIn fs top fs₁)
    (hunlink : fs₁.unlink dead path = .ok fs') : Removes fs path (.ok ()) fs' := by
  obtain ⟨d, n, i, hentry₁, hdots, hempty, hdir, rfl⟩ := Fs.unlink_eq_ok hunlink
  -- what the path names is what `lstat` found
  have hchild₁ : fs₁.child d n = some i := Fs.child_of_entry (Fs.resolve_entry hentry₁) hdots
  have hentry : fs.findEntry path = .ok (.entry d n (some i)) :=
    Fs.resolve_mono hs.sub hentry₁ rfl
  obtain rfl : top = i := by
    obtain ⟨place, hplace₁, hi⟩ := Fs.find_of_findEntry hentry₁ rfl hdir
    obtain ⟨place', hplace, htop, -⟩ := Fs.get_eq_ok.1 hget
    obtain rfl := Except.ok.inj (hplace.symm.trans (Fs.resolve_mono hs.sub hplace₁ hi))
    exact Option.some.inj (htop.symm.trans hi)
  have hremove : Shrinks fs₁ (fs₁.remove dead d n) := by
    refine Shrinks.remove fun j hj => ?_
    rw [hchild₁] at hj
    exact Option.some.inj hj ▸ hempty
  constructor
  · exact hs.toShrinks.trans hremove
  · exact fun e he => absurd (hget.symm.trans he) nofun
  · intro top' x' hget' e m j hj hnone
    obtain ⟨rfl, rfl⟩ := Prod.mk.inj (Except.ok.inj (hget.symm.trans hget'))
    rw [Fs.child_remove] at hnone
    by_cases hem : e = d ∧ m = n
    · obtain ⟨rfl, rfl⟩ := hem
      exact .inr hentry
    · rw [if_neg hem] at hnone
      exact .inl (hs.inside e m j hj hnone)
  · intro top' x' hget' _
    obtain ⟨rfl, rfl⟩ := Prod.mk.inj (Except.ok.inj (hget.symm.trans hget'))
    refine ⟨⟨d, n, hentry, ?_⟩, fun m => ?_⟩
    · rw [Fs.child_remove, if_pos ⟨rfl, rfl⟩]
    · rw [Fs.child_remove, hempty m, ite_self]

/-- **The removal of a child** stays in the tree. -/
theorem Removes.inside_below (hget : fs.get false path = .ok (top, x))
    (hlink : fs.node.link top = none) (hs : Shrinks fs fs₁) (hbelow : Below path p n)
    (hn : ¬n.IsDots) (h : Removes fs₁ p r fs') {d : Ino} {m : Name} {i : Ino}
    (hi : fs₁.child d m = some i) (hnone : fs'.child d m = none) : InTree fs top d := by
  rcases hget₁ : fs₁.get false p with e | ⟨c, y⟩
  · rw [h.missing e hget₁, hi] at hnone
    exact absurd hnone nofun
  -- the child is an entry of the directory that the path led to in the beginning
  obtain ⟨place, hplace, hc, -⟩ := Fs.get_eq_ok.1 hget₁
  have hsame : fs₁.findEntry p = fs₁.find false p := Fs.findEntry_below hbelow
  rw [hplace] at hsame
  obtain ⟨place₁, e, o, hplace₁, he, hentry, rfl⟩ := (Fs.find_below hbelow).1 hplace
  obtain rfl : o = some c := hc
  obtain ⟨place₂, hplace₂, htop⟩ := Fs.resolve_comps_of_get hget hlink
  obtain rfl := Except.ok.inj (hplace₂.symm.trans (Fs.resolve_mono hs.sub hplace₁ he))
  obtain rfl := Option.some.inj (htop.symm.trans he)
  rcases h.inside c y hget₁ d m i hi hnone with htree | hown
  · have hchild := hs.sub.child (Fs.child_of_entry hentry hn)
    exact (InTree.child .top hchild).trans (hs.sub.inTree htree)
  · obtain ⟨rfl, -, -⟩ := Place.entry.inj (Except.ok.inj (hsame.symm.trans hown))
    exact .top

/-- **The children of a directory** are removed in its tree, and where this succeeds the path
still leads somewhere. -/
theorem removeChildren_spec {maxpath fuel : ℕ} {remove : Path → Prog Unit} {w w' : World}
    (hremove : ∀ p w r w', Runs (remove p) w r w' → Removes w.fs p r w'.fs)
    (hget : fs.get false path = .ok (top, x)) (hlink : fs.node.link top = none)
    (hs : ShrinksIn fs top w.fs) (h : Runs (removeChildren maxpath path remove fuel) w r w') :
    ShrinksIn fs top w'.fs ∧ (r = .ok () → ∃ y, w'.fs.get true path = .ok y) := by
  induction fuel generalizing w with
  | zero => exact absurd h not_runs_diverge
  | succ fuel ih =>
    obtain ⟨place, hplace, -⟩ := Fs.get_eq_ok.1 hget
    have hne := Fs.ne_nil_of_resolve hplace
    rw [removeChildren] at h
    rcases runs_bind.1 h with ⟨e, hopen, rfl⟩ | ⟨fd, w₁, hopen, h⟩
    · rw [(runs_look hopen).1]
      exact ⟨hs, nofun⟩
    obtain ⟨hfs₁, ⟨e, hbad, -⟩ | ⟨-, i, hopened, -⟩⟩ := runs_look hopen
    · exact absurd hbad nofun
    obtain ⟨found, w₂, hread, h⟩ := runs_attempt_bind.1 h
    obtain ⟨hfs₂, hchild⟩ := runs_readChild hread
    obtain ⟨_, w₃, hclose, h⟩ := runs_attempt_bind.1 h
    -- reading changes nothing
    have hfs : w₃.fs = w.fs := (runs_look hclose).1.trans (hfs₂.trans hfs₁)
    rcases runs_ofExcept_bind.1 h with ⟨e, -, rfl, rfl⟩ | ⟨child, hfound, h⟩
    · rw [hfs]
      exact ⟨hs, nofun⟩
    cases child with
    | none =>
      obtain ⟨-, rfl⟩ := runs_pure.1 h
      rw [hfs]
      refine ⟨hs, fun _ => ?_⟩
      rcases hy : w.fs.get true path with e | y
      · rw [hy] at hopened
        exact absurd hopened nofun
      · exact ⟨y, rfl⟩
    | some child =>
      obtain ⟨n, hn, hjoin⟩ := hchild child hfound
      have hbelow := below_of_joinPath hne hjoin
      have hs₃ : ShrinksIn fs top w₃.fs := hfs ▸ hs
      -- what the removal of the child does stays in the tree
      have hstep : ∀ r₄ w₄, Runs (remove child) w₃ r₄ w₄ → ShrinksIn fs top w₄.fs := by
        intro r₄ w₄ hrun
        have hrem := hremove child w₃ r₄ w₄ hrun
        exact hs₃.trans hrem.shrinks fun d m i =>
          hrem.inside_below hget hlink hs₃.toShrinks hbelow hn
      rcases runs_bind.1 h with ⟨e, hrun, rfl⟩ | ⟨u, w₄, hrun, h⟩
      · exact ⟨hstep _ _ hrun, nofun⟩
      · exact ih (hstep _ _ hrun) h

end Removes

/-- **A removal** does what `Removes` says, whether it succeeds or not. -/
theorem removePath_spec {maxpath fuel : ℕ} {path : Path} {recursive force : Bool} {w w' : World}
    {r : Except Errno Unit} (h : Runs (removePath maxpath fuel path recursive force) w r w') :
    Removes w.fs path r w'.fs := by
  induction fuel generalizing path recursive force w r w' with
  | zero => exact absurd h not_runs_diverge
  | succ fuel ih =>
    rw [removePath, removePathVia] at h
    obtain ⟨st, w₁, hlstat, h⟩ := runs_attempt_bind.1 h
    obtain ⟨hfs₁, ⟨e, rfl, he⟩ | ⟨-, st, hst, rfl⟩⟩ := runs_look hlstat
    · -- nothing was found, or `lstat` failed
      obtain ⟨hfs, hforced⟩ := runs_unlessForced h
      rw [hfs.trans hfs₁]
      refine ⟨Shrinks.refl _, fun _ _ => rfl,
        fun _ _ _ _ _ _ hi hnone => absurd (hi.symm.trans hnone) nofun, fun top x hget hr => ?_⟩
      obtain ⟨o, ho⟩ := he (hforced hr).2
      rw [(hforced hr).2, Fs.statOf_eq_error, hget] at ho
      exact absurd ho nofun
    · obtain ⟨x, hget, hkind, -⟩ := Fs.statOf_eq_ok.1 hst
      have hrefl := ShrinksIn.refl w.fs st.ino
      have hfail : ∀ e, Removes w.fs path (.error e) w₁.fs := fun e =>
        removes_of_error hget (hfs₁ ▸ hrefl) nofun
      rcases runs_ofExcept_bind.1 h with ⟨e, -, rfl, rfl⟩ | ⟨base, -, h⟩
      · exact hfail e
      split_ifs at h with hdots hdir hrec
      · obtain ⟨rfl, rfl⟩ := runs_throw.1 h
        exact hfail _
      · -- not a directory
        rcases runs_unlinkPath (hfs₁ ▸ hget) h with ⟨hfs, hr⟩ | ⟨dead, hunlink, rfl⟩
        · rw [hfs, hfs₁]
          exact removes_of_error hget hrefl hr
        · exact removes_of_unlink hget hrefl (hfs₁ ▸ hunlink)
      · obtain ⟨rfl, rfl⟩ := runs_throw.1 h
        exact hfail _
      · have hlink : w.fs.node.link st.ino = none :=
          Fs.link_of_kind hget (hkind.symm.trans (not_not.1 hdir))
        have hs₁ : ShrinksIn w.fs st.ino w₁.fs := by
          rw [hfs₁]
          exact hrefl
        have hremove : ∀ p w r w', Runs (removePath maxpath fuel p true force) w r w' →
            Removes w.fs p r w'.fs := fun _ _ _ _ hrun => ih hrun
        rcases runs_bind.1 h with ⟨e, hrun, rfl⟩ | ⟨u, w₂, hrun, h⟩
        · exact removes_of_error hget (removeChildren_spec hremove hget hlink hs₁ hrun).1 nofun
        · obtain ⟨hs, hthere⟩ := removeChildren_spec hremove hget hlink hs₁ hrun
          obtain ⟨⟨i, y⟩, hy⟩ := hthere rfl
          rcases runs_unlinkPath hy h with ⟨hfs, hr⟩ | ⟨dead, hunlink, rfl⟩
          · rw [hfs]
            exact removes_of_error hget hs hr
          · exact removes_of_unlink hget hs hunlink

/-- A path that ends in `.` or `..` is refused, and nothing is changed; with `force`, a path
that leads nowhere is not an error. -/
theorem removePath_dots (maxpath fuel : ℕ) {path c : Path} (force : Bool) (w : World)
    (hc : LastComponent path c) (hdots : isDotOrDotdot c = true) :
    ∃ r w', Runs (removePath maxpath (fuel + 1) path true force) w r w' ∧ w'.fs = w.fs ∧
      ((∃ e, r = .error e) ∨
        r = .ok () ∧ force = true ∧ w.fs.get false path = .error .enoent) := by
  obtain ⟨r₁, w₁, hlstat⟩ : ∃ r w', Runs (lstat path) w r w' :=
    exists_runs_look (.lstat path) (fun _ fs => fs.statOf false path) w
  obtain ⟨hfs, ⟨e, rfl, he⟩ | ⟨-, st, -, rfl⟩⟩ := runs_look hlstat
  · by_cases hforced : force = true ∧ e = .enoent
    · obtain ⟨o, ho⟩ := he hforced.2
      rw [hforced.2, Fs.statOf_eq_error] at ho
      refine ⟨.ok (), w₁, runs_attempt_bind.2 ⟨_, w₁, hlstat, ?_⟩, hfs,
        .inr ⟨rfl, hforced.1, ho⟩⟩
      exact runs_forced hforced
    · refine ⟨.error e, w₁, runs_attempt_bind.2 ⟨_, w₁, hlstat, ?_⟩, hfs, .inl ⟨e, rfl⟩⟩
      exact runs_not_forced hforced
  · rcases hbase : copyBasename maxpath path with e | base
    · refine ⟨.error e, w₁, runs_attempt_bind.2 ⟨_, w₁, hlstat, ?_⟩, hfs, .inl ⟨e, rfl⟩⟩
      exact runs_ofExcept_bind.2 (.inl ⟨e, hbase, rfl, rfl⟩)
    · obtain rfl := copyBasename_component hc hbase
      refine ⟨.error .einval, w₁, runs_attempt_bind.2 ⟨_, w₁, hlstat, ?_⟩, hfs, .inl ⟨_, rfl⟩⟩
      refine runs_ofExcept_bind.2 (.inr ⟨base, hbase, ?_⟩)
      rw [if_pos hdots]
      exact runs_throw.2 ⟨rfl, rfl⟩

/-- **What `fsutil_remove_path` removes.**  Every entry that is gone was the one that the path
names, or lay in the tree of what `lstat` found; success on something that exists leaves
nothing of it; and a path that ends in `.` or `..` changes nothing, with an error unless the
path does not exist and `force` is set, and then with success. -/
theorem removePath_tree (maxpath : ℕ) (path : Path) (force : Bool) (w : World) :
    (∀ fuel r w', Runs (removePath maxpath fuel path true force) w r w' →
      (∀ d n i, w.fs.child d n = some i → w'.fs.child d n ≠ some i →
        ∃ top x, w.fs.get false path = .ok (top, x) ∧
          (InTree w.fs top d ∨ w.fs.findEntry path = .ok (.entry d n (some top)))) ∧
      ∀ top x, w.fs.get false path = .ok (top, x) → r = .ok () →
        (∃ d n, w.fs.findEntry path = .ok (.entry d n (some top)) ∧ w'.fs.child d n = none) ∧
          ∀ d, InTree w.fs top d → ∀ n, w'.fs.child d n = none) ∧
    ∀ c, LastComponent path c → isDotOrDotdot c = true → ∀ fuel, ∃ r w',
      Runs (removePath maxpath (fuel + 1) path true force) w r w' ∧ w'.fs = w.fs ∧
        ((∃ e, r = .error e) ∨
        r = .ok () ∧ force = true ∧ w.fs.get false path = .error .enoent) := by
  refine ⟨fun fuel r w' h => ⟨fun d n i hi hgone => ?_, fun top x hget hr => ?_⟩,
    fun c hc hdots fuel => removePath_dots maxpath fuel force w hc hdots⟩
  · have hspec := removePath_spec h
    have hnone := (hspec.shrinks.child_eq hi).resolve_left hgone
    rcases hget : w.fs.get false path with e | ⟨top, x⟩
    · rw [hspec.missing e hget, hi] at hnone
      exact absurd hnone nofun
    · exact ⟨top, x, rfl, hspec.inside top x hget d n i hi hnone⟩
  · have hspec := removePath_spec h
    obtain ⟨hown, hempty⟩ := hspec.gone top x hget hr
    exact ⟨hown, fun d hd n => hspec.shrinks.tree_gone hempty hd n⟩

/-- `/d` is removed, with the file in it. -/
theorem removePath_tree_small : ∃ w', Runs (removePath 512 5 [47, 100] true false) smallWorld
    (.ok ()) w' ∧ smallFs.child ⟨0, 1⟩ ⟨[102], by decide, by decide⟩ = some ⟨0, 2⟩ ∧
      ∀ n, w'.fs.child ⟨0, 1⟩ n = none := by
  obtain ⟨w', hrun⟩ : ∃ w', Runs (removePath 512 5 [47, 100] true false) smallWorld (.ok ()) w' :=
    ⟨_, rfl⟩
  refine ⟨w', hrun, rfl, fun n => ?_⟩
  have htree := (removePath_tree 512 [47, 100] false smallWorld).1 5 _ _ hrun
  exact (htree.2 ⟨0, 1⟩ _ rfl rfl).2 ⟨0, 1⟩ .top n

/-- `rm -f` of `x/..`, where there is no `x`, reports success. -/
theorem removePath_dotdot_forced : ¬∀ maxpath fuel path force w c r w',
    LastComponent path c → isDotOrDotdot c = true →
    Runs (removePath maxpath fuel path true force) w r w' → ∃ e, r = .error e := by
  intro hall
  have hlast : LastComponent [120, 47, 46, 46] [46, 46] :=
    ⟨[120, 47], 0, rfl, by decide, by decide, .inr rfl⟩
  obtain ⟨w', hrun⟩ : ∃ w', Runs (removePath 512 1 [120, 47, 46, 46] true true) smallWorld
      (.ok ()) w' := ⟨_, rfl⟩
  obtain ⟨e, he⟩ := hall 512 1 _ true smallWorld _ _ w' hlast rfl hrun
  exact absurd he nofun

end Fsutil
end V6User
