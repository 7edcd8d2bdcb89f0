import V6User.Fsutil.Remove
import V6User.Vfs.SameTree

/-!
# `rm`

`programs/rm/rm.c`: the options, and `fsutil_remove_path` for one operand after another.

The removals of the operands add up.  An entry that is gone in the end was in the tree of what
an operand led to before the first removal (`Removable.mono`), and a path that leads nowhere stays
so.  With `-f` the result `ENOENT` counts as success.  `fsutil_remove_path` has it for a path
that goes through the tree that it removes, when that path leads nowhere any more
(`removePath_enoent`); so after a success of `rm` no operand exists (`rm_removes`).
-/

namespace V6User
namespace Fsutil

open Vfs Effect

/-! ### The program -/

/-- What `rm` prints to the standard error. -/
inductive RmMessage where
  /-- `Usage: rm [-f] [-r|-R] files...` -/
  | usage
  /-- `rm: unknown option -%c` -/
  | unknownOption (c : UInt8)
  /-- `rm: missing operand` -/
  | missingOperand
  /-- `rm: %s failed to delete (%d)` -/
  | failed (path : Path) (e : Errno)

/-- `recursive` and `force`. -/
structure RmFlags where
  recursive : Bool
  force : Bool

/-- The loop over the letters of an argument. -/
def rmFlags (flags : RmFlags) : List UInt8 → Except RmMessage RmFlags
  | [] => .ok flags
  | c :: s =>
    if c = 102 then rmFlags { flags with force := true } s
    else if c = 114 ∨ c = 82 then rmFlags { flags with recursive := true } s
    else .error (.unknownOption c)

/-- The loop over the arguments before the first that is no option. -/
def rmOptions (flags : RmFlags) : List Path → Except RmMessage (RmFlags × List Path)
  | [] => .ok (flags, [])
  | (45 :: c :: s) :: args => do
    let flags ← rmFlags flags (c :: s)
    rmOptions flags args
  | args => .ok (flags, args)

/-- The loop over the operands: what it prints. -/
def rmOperands (maxpath fuel : ℕ) (flags : RmFlags) : List Path → Prog (List RmMessage)
  | [] => pure []
  | path :: paths => do
    let ret ← attempt (removePath maxpath fuel path flags.recursive flags.force)
    let later ← rmOperands maxpath fuel flags paths
    match ret with
    | .ok () => pure later
    | .error e =>
      if flags.force = true ∧ e = .enoent then pure later else pure (.failed path e :: later)

/-- `main`: the exit status, and what it prints. -/
def rm (maxpath fuel : ℕ) (args : List Path) : Prog (ℕ × List RmMessage) :=
  if args = [] then pure (1, [.usage])
  else
    match rmOptions ⟨false, false⟩ args with
    | .error m => pure (1, [m])
    | .ok (_, []) => pure (1, [.missingOperand])
    | .ok (flags, paths) => do
      let said ← rmOperands maxpath fuel flags paths
      pure (if said.isEmpty then 0 else 1, said)

/-- The operands among the arguments. -/
def operands (args : List Path) : List Path :=
  match rmOptions ⟨false, false⟩ args with
  | .error _ => []
  | .ok (_, paths) => paths

/-! ### What one removal does -/

section Removal

variable {fs fs₀ fs₁ fs' : Fs} {maxpath fuel : ℕ} {path child p : Path} {recursive force : Bool}
  {w w' : World} {r : Except Errno Unit} {top d i : Ino} {x : Node} {n : Name} {e : Errno}

/-- No directory lies below itself. -/
def Acyclic (fs : Fs) : Prop := ∀ d n i, fs.child d n = some i → ¬InTree fs i d

theorem Acyclic.sub (h : Acyclic fs) (hs : Sub fs' fs) : Acyclic fs' := fun d n i hi hin =>
  h d n i (hs.child hi) (hs.inTree hin)

/-- The path leads nowhere. -/
def Lost (fs : Fs) (path : Path) : Prop := ∃ e, fs.get false path = .error e

/-- **A path that leads nowhere** leads nowhere where less is left. -/
theorem Lost.sub (h : Lost fs path) (hs : Sub fs' fs) : Lost fs' path := by
  obtain ⟨e, he⟩ := h
  rcases hget : fs'.get false path with e' | ⟨i, x⟩
  · exact ⟨e', hget⟩
  · obtain ⟨y, hy⟩ := Fs.get_mono hs hget
    exact absurd (hy.symm.trans he) (ok_ne_error _ _)

/-- After `unlink` the path leads nowhere. -/
theorem lost_of_unlink {dead : Bool} (h : fs.unlink dead path = .ok fs') : Lost fs' path := by
  obtain ⟨d, n, i, hentry, hdots, -, -, rfl⟩ := Fs.unlink_eq_ok h
  rcases hget : (fs.remove dead d n).get false path with e | ⟨j, y⟩
  · exact ⟨e, hget⟩
  · obtain ⟨place, k, hplace, hk⟩ := Fs.findEntry_of_get hget
    have hsame := Fs.resolve_mono (sub_remove fs dead d n) hplace hk
    obtain rfl := Except.ok.inj (hentry.symm.trans hsame)
    have hchild := Fs.child_of_entry (Fs.resolve_entry hplace) hdots
    rw [Fs.child_remove, if_pos ⟨rfl, rfl⟩] at hchild
    cases hchild

/-- How a removal ends: before anything was found, with an error on the way, or with the
`unlink` of the path itself. -/
inductive Outcomes (fs : Fs) (path : Path) (r : Except Errno Unit) (fs' : Fs) : Prop
  | missing (hget : Lost fs path) (hfs : fs' = fs)
  | stopped {top : Ino} {x : Node} (hget : fs.get false path = .ok (top, x)) (hr : r ≠ .ok ())
    (hs : ShrinksIn fs top fs')
  | removed {top : Ino} {x : Node} {fs₁ : Fs} {dead : Bool}
    (hget : fs.get false path = .ok (top, x)) (hr : r = .ok ()) (hs : ShrinksIn fs top fs₁)
    (hunlink : fs₁.unlink dead path = .ok fs')

theorem removePath_outcomes (h : Runs (removePath maxpath fuel path recursive force) w r w') :
    Outcomes w.fs path r w'.fs := by
  cases fuel with
  | zero => exact absurd h not_runs_diverge
  | succ fuel =>
    rw [removePath, removePathVia] at h
    obtain ⟨st, w₁, hlstat, h⟩ := runs_attempt_bind.1 h
    obtain ⟨hfs₁, ⟨e, rfl, he⟩ | ⟨-, st, hst, rfl⟩⟩ := runs_look hlstat
    · obtain ⟨hfs, hforced⟩ := runs_unlessForced h
      have hsame : w'.fs = w.fs := hfs.trans hfs₁
      rcases hget : w.fs.get false path with e' | ⟨top, x⟩
      · exact .missing ⟨e', hget⟩ hsame
      · -- `lstat` failed although there is something, and not with `ENOENT`
        refine .stopped hget (fun hr => ?_) (hsame ▸ ShrinksIn.refl w.fs top)
        obtain ⟨o, ho⟩ := he (hforced hr).2
        rw [(hforced hr).2, Fs.statOf_eq_error, hget] at ho
        cases ho
    · obtain ⟨x, hget, hkind, -⟩ := Fs.statOf_eq_ok.1 hst
      have hrefl : ShrinksIn w.fs st.ino w₁.fs := hfs₁ ▸ ShrinksIn.refl w.fs st.ino
      have hfail : ∀ e, Outcomes w.fs path (.error e) w₁.fs := fun e =>
        .stopped hget (fun hr => ok_ne_error () e hr.symm) hrefl
      rcases runs_ofExcept_bind.1 h with ⟨e, -, rfl, rfl⟩ | ⟨base, -, h⟩
      · exact hfail e
      split_ifs at h with hdots hdir hrec
      · obtain ⟨rfl, rfl⟩ := runs_throw.1 h
        exact hfail _
      · rcases runs_unlinkPath (hfs₁ ▸ hget) h with ⟨hfs, hr⟩ | ⟨dead, hunlink, rfl⟩
        · exact .stopped hget hr (hfs ▸ hrefl)
        · exact .removed hget rfl hrefl hunlink
      · obtain ⟨rfl, rfl⟩ := runs_throw.1 h
        exact hfail _
      · have hlink : w.fs.node.link st.ino = none :=
          Fs.link_of_kind hget (hkind.symm.trans (not_not.1 hdir))
        have hremove : ∀ p w r w', Runs (removePath maxpath fuel p true force) w r w' →
            Removes w.fs p r w'.fs := fun _ _ _ _ hrun => removePath_spec hrun
        rcases runs_bind.1 h with ⟨e, hrun, rfl⟩ | ⟨u, w₂, hrun, h⟩
        · exact .stopped hget (fun hr => ok_ne_error () e hr.symm)
            (removeChildren_spec hremove hget hlink hrefl hrun).1
        · obtain ⟨hs, hthere⟩ := removeChildren_spec hremove hget hlink hrefl hrun
          obtain ⟨⟨i, y⟩, hy⟩ := hthere rfl
          rcases runs_unlinkPath hy h with ⟨hfs, hr⟩ | ⟨dead, hunlink, rfl⟩
          · exact .stopped hget hr (hfs ▸ hs)
          · exact .removed hget rfl hs hunlink

/-! ### The result `ENOENT` -/

theorem ne_enoent_of_unlessForced (h : Runs (unlessForced true e) w r w') :
    r ≠ .error .enoent := by
  rintro rfl
  unfold unlessForced at h
  split_ifs at h with hforced
  · exact ok_ne_error () _ (runs_pure.1 h).1.symm
  · obtain rfl := Except.error.inj (runs_throw.1 h).1
    exact hforced ⟨rfl, rfl⟩

theorem ne_enoent_of_unlinkPath (h : Runs (unlinkPath true path) w r w') :
    r ≠ .error .enoent := by
  unfold unlinkPath unlinkPathVia at h
  obtain ⟨u, w₁, hunlink, h⟩ := runs_attempt_bind.1 h
  rcases u with e | u
  · exact ne_enoent_of_unlessForced h
  · rw [(runs_pure.1 h).1]
    exact ok_ne_error _ _

theorem copyBasename_ne_enoent : copyBasename maxpath path ≠ .error .enoent := by
  unfold copyBasename
  dsimp only
  split_ifs <;> simp

theorem joinPath_ne_enoent {dir name : Path} : joinPath maxpath dir name ≠ .error .enoent := by
  unfold joinPath
  dsimp only
  split_ifs <;> simp

theorem findChild_ne_enoent {des : List Dirent} :
    findChild maxpath path des ≠ .error .enoent := by
  induction des with
  | nil => exact ok_ne_error _ _
  | cons de rest ih =>
    rw [findChild]
    split_ifs
    · simp
    · rcases hjoin : joinPath maxpath path de.name.bytes with e | p
      · rintro heq
        exact joinPath_ne_enoent (hjoin.trans (congrArg Except.error (Except.error.inj heq)))
      · exact ok_ne_error _ _
    · exact ih

theorem getdents_ne_enoent {fd : Ino} {pos : ℕ} {des : Except Errno (List Dirent)}
    (h : Runs (getdents fd pos) w des w') : des ≠ .error .enoent := by
  rintro rfl
  obtain ⟨-, ⟨e, he, hf⟩ | ⟨o, a, -, hbad⟩⟩ := runs_look h
  · obtain rfl := Except.error.inj he
    obtain ⟨o, ho⟩ := hf rfl
    split at ho
    · exact ok_ne_error _ _ ho
    · exact absurd (Except.error.inj ho) (by decide)
  · exact ok_ne_error _ _ hbad.symm

theorem readChild_ne_enoent {fd : Ino} {pos : ℕ} {found : Except Errno (Option Path)}
    (h : Runs (readChild maxpath path fd fuel pos) w found w') : found ≠ .error .enoent := by
  induction fuel generalizing pos w with
  | zero => exact absurd h not_runs_diverge
  | succ fuel ih =>
    rw [readChild] at h
    rcases runs_bind.1 h with ⟨e, hdents, rfl⟩ | ⟨des, w₁, hdents, h⟩
    · exact fun heq => getdents_ne_enoent hdents (congrArg Except.error (Except.error.inj heq))
    split_ifs at h
    · rw [(runs_pure.1 h).1]
      exact ok_ne_error _ _
    rcases runs_ofExcept_bind.1 h with ⟨e, hfind, rfl, rfl⟩ | ⟨child, -, h⟩
    · exact fun heq => findChild_ne_enoent (hfind.trans
        (congrArg Except.error (Except.error.inj heq)))
    cases child with
    | none => exact ih h
    | some child =>
      rw [(runs_pure.1 h).1]
      exact ok_ne_error _ _

/-- The removal of a child that ends with `ENOENT`: the directory is lost as well, since its
entry for the child is still there. -/
theorem lost_of_lost_child (hacyclic : Acyclic w.fs) (hpath : path ≠ [])
    (hjoin : joinPath maxpath path n.bytes = .ok child) (hn : ¬n.IsDots)
    (hchild : w.fs.get false child = .ok (i, x)) (hs : ShrinksIn w.fs i w'.fs)
    (hlost : Lost w'.fs child) (hdir : ∀ j y, w'.fs.get false path = .ok (j, y) →
      w'.fs.node.link j = none) : Lost w'.fs path := by
  have hbelow := below_of_joinPath hpath hjoin
  rcases hget : w'.fs.get false path with e | ⟨d, y⟩
  · exact ⟨e, hget⟩
  exfalso
  obtain ⟨y₀, hget₀⟩ := Fs.get_mono hs.sub hget
  have hlink := hdir d y hget
  obtain ⟨-, -, -, hy⟩ := Fs.get_eq_ok.1 hget
  have hlink₀ : w.fs.node.link d = none := (hs.sub.link d (hy ▸ rfl)).trans hlink
  have hentry := (Fs.get_below_iff hbelow hget₀ hlink₀ hn).1 ⟨x, hchild⟩
  rcases hs.toShrinks.child_eq hentry with hkept | hgone
  · obtain ⟨z, hz⟩ := (Fs.get_below_iff hbelow hget hlink hn).2 hkept
    obtain ⟨e, he⟩ := hlost
    exact ok_ne_error _ _ (hz.symm.trans he)
  · exact hacyclic d n i hentry (hs.inside d n i hentry hgone)

/-- What a path led to, if it was no link, is still no link where less is left. -/
theorem link_of_sub (hget : fs.get false path = .ok (top, x)) (hlink : fs.node.link top = none)
    (hs : Sub fs' fs) {y : Node} (h : fs'.get false path = .ok (i, y)) :
    fs'.node.link i = none := by
  obtain ⟨z, hz⟩ := Fs.get_mono hs h
  obtain ⟨rfl, -⟩ := Prod.mk.inj (Except.ok.inj (hget.symm.trans hz))
  obtain ⟨-, -, -, hy⟩ := Fs.get_eq_ok.1 h
  exact (hs.link top (hy ▸ rfl)).symm.trans hlink

/-- A removal that ends with `ENOENT` stopped in the tree, and its path is lost. -/
def StopsLost (w : World) (path : Path) (w' : World) : Prop :=
  (∃ top x, w.fs.get false path = .ok (top, x) ∧ ShrinksIn w.fs top w'.fs) ∧ Lost w'.fs path

/-- **The loop over the children** ends with `ENOENT` only when the path of the directory is
lost. -/
theorem removeChildren_enoent {remove : Path → Prog Unit}
    (hremove : ∀ p w r w', Runs (remove p) w r w' → Removes w.fs p r w'.fs)
    (hstops : ∀ p w w', Acyclic w.fs → Runs (remove p) w (.error .enoent) w' → StopsLost w p w')
    (hacyclic : Acyclic fs) (hget : fs.get false path = .ok (top, x))
    (hlink : fs.node.link top = none) (hs : ShrinksIn fs top w.fs)
    (h : Runs (removeChildren maxpath path remove fuel) w (.error .enoent) w') :
    Lost w'.fs path := by
  induction fuel generalizing w with
  | zero => exact absurd h not_runs_diverge
  | succ fuel ih =>
    obtain ⟨place, hplace, -⟩ := Fs.get_eq_ok.1 hget
    have hne := Fs.ne_nil_of_resolve hplace
    rw [removeChildren] at h
    rcases runs_bind.1 h with ⟨e, hopen, he⟩ | ⟨fd, w₁, hopen, h⟩
    · obtain rfl := Except.error.inj he
      obtain ⟨hfs, ⟨e, he, hf⟩ | ⟨o, a, -, hbad⟩⟩ := runs_look hopen
      · obtain rfl := Except.error.inj he
        obtain ⟨o, ho⟩ := hf rfl
        rw [hfs]
        rcases hfalse : w.fs.get false path with e | ⟨j, y⟩
        · exact ⟨e, hfalse⟩
        · have htrue := Fs.get_true_of_false hfalse (link_of_sub hget hlink hs.sub hfalse)
          rw [htrue] at ho
          exact absurd ho (ok_ne_error _ _)
      · exact absurd hbad.symm (ok_ne_error _ _)
    obtain ⟨found, w₂, hread, h⟩ := runs_attempt_bind.1 h
    obtain ⟨hfs₂, hchild⟩ := runs_readChild hread
    obtain ⟨_, w₃, hclose, h⟩ := runs_attempt_bind.1 h
    have hfs : w₃.fs = w.fs :=
      (runs_look hclose).1.trans (hfs₂.trans (runs_look hopen).1)
    rcases runs_ofExcept_bind.1 h with ⟨e, rfl, he, -⟩ | ⟨child, hfound, h⟩
    · exact absurd (congrArg Except.error (Except.error.inj he.symm)) (readChild_ne_enoent hread)
    cases child with
    | none => exact absurd (runs_pure.1 h).1.symm (ok_ne_error _ _)
    | some child =>
      obtain ⟨n, hn, hjoin⟩ := hchild child hfound
      have hbelow := below_of_joinPath hne hjoin
      have hs₃ : ShrinksIn fs top w₃.fs := hfs ▸ hs
      have hstep : ∀ r₄ w₄, Runs (remove child) w₃ r₄ w₄ → ShrinksIn fs top w₄.fs := by
        intro r₄ w₄ hrun
        have hrem := hremove child w₃ r₄ w₄ hrun
        exact hs₃.trans hrem.shrinks fun d m i =>
          hrem.inside_below hget hlink hs₃.toShrinks hbelow hn
      rcases runs_bind.1 h with ⟨e, hrun, he⟩ | ⟨u, w₄, hrun, h⟩
      · obtain rfl := Except.error.inj he
        have hacyclic₃ := hacyclic.sub hs₃.sub
        obtain ⟨⟨c, y, hc, hin⟩, hlost⟩ := hstops child w₃ w' hacyclic₃ hrun
        exact lost_of_lost_child hacyclic₃ hne hjoin hn hc hin hlost fun j y hj =>
          link_of_sub hget hlink (hstep _ _ hrun).sub hj
      · exact ih (hstep _ _ hrun) h

/-- **With `force`, the result `ENOENT`** means that the path leads nowhere any more. -/
theorem removePath_enoent (hacyclic : Acyclic w.fs)
    (h : Runs (removePath maxpath fuel path recursive true) w (.error .enoent) w') :
    StopsLost w path w' := by
  induction fuel generalizing path recursive w w' with
  | zero => exact absurd h not_runs_diverge
  | succ fuel ih =>
    have hstopped : ∀ top x, w.fs.get false path = .ok (top, x) → ShrinksIn w.fs top w'.fs := by
      intro top x hget
      cases removePath_outcomes h with
      | missing hlost =>
        obtain ⟨e, he⟩ := hlost
        exact absurd (hget.symm.trans he) (ok_ne_error _ _)
      | stopped hget' _ hs =>
        obtain ⟨rfl, -⟩ := Prod.mk.inj (Except.ok.inj (hget.symm.trans hget'))
        exact hs
      | removed _ hr => exact absurd hr.symm (ok_ne_error _ _)
    rw [removePath, removePathVia] at h
    obtain ⟨st, w₁, hlstat, h⟩ := runs_attempt_bind.1 h
    obtain ⟨hfs₁, ⟨e, rfl, -⟩ | ⟨-, st, hst, rfl⟩⟩ := runs_look hlstat
    · exact absurd rfl (ne_enoent_of_unlessForced h)
    obtain ⟨x, hget, hkind, -⟩ := Fs.statOf_eq_ok.1 hst
    refine ⟨⟨st.ino, x, hget, hstopped st.ino x hget⟩, ?_⟩
    rcases runs_ofExcept_bind.1 h with ⟨e, hbase, he, -⟩ | ⟨base, -, h⟩
    · obtain rfl := Except.error.inj he
      exact absurd hbase copyBasename_ne_enoent
    split_ifs at h with hdots hdir hrec
    · exact absurd (Except.error.inj (runs_throw.1 h).1) (by decide)
    · exact absurd rfl (ne_enoent_of_unlinkPath h)
    · exact absurd (Except.error.inj (runs_throw.1 h).1) (by decide)
    · have hlink : w.fs.node.link st.ino = none :=
        Fs.link_of_kind hget (hkind.symm.trans (not_not.1 hdir))
      rcases runs_bind.1 h with ⟨e, hrun, he⟩ | ⟨u, w₂, -, h⟩
      · obtain rfl := Except.error.inj he
        exact removeChildren_enoent (fun _ _ _ _ hrun => removePath_spec hrun)
          (fun _ _ _ hacyclic hrun => ih hacyclic hrun) hacyclic hget hlink
          (hfs₁ ▸ ShrinksIn.refl w.fs st.ino) hrun
      · exact absurd rfl (ne_enoent_of_unlinkPath h)

/-- **A removal that counts as a success** leaves nothing at the path. -/
theorem lost_of_success (hacyclic : Acyclic w.fs)
    (h : Runs (removePath maxpath fuel path recursive force) w r w')
    (hr : r = .ok () ∨ force = true ∧ r = .error .enoent) : Lost w'.fs path := by
  rcases hr with rfl | ⟨rfl, rfl⟩
  · cases removePath_outcomes h with
    | missing hlost hfs => exact hfs ▸ hlost
    | stopped _ hr => exact absurd rfl hr
    | removed _ _ _ hunlink => exact lost_of_unlink hunlink
  · exact (removePath_enoent hacyclic h).2

/-- The entry lies in the tree of what the path leads to, or the path names it. -/
def Removable (fs : Fs) (path : Path) (d : Ino) (n : Name) : Prop :=
  ∃ top x, fs.get false path = .ok (top, x) ∧
    (InTree fs top d ∨ fs.findEntry path = .ok (.entry d n (some top)))

theorem Removable.mono (h : Removable fs path d n) (hs : Sub fs fs') : Removable fs' path d n := by
  obtain ⟨top, x, hget, hplace⟩ := h
  obtain ⟨y, hy⟩ := Fs.get_mono hs hget
  exact ⟨top, y, hy, hplace.imp hs.inTree fun hentry => Fs.resolve_mono hs hentry rfl⟩

theorem Removes.removable (h : Removes fs path r fs') (hi : fs.child d n = some i)
    (hgone : fs'.child d n = none) : Removable fs path d n := by
  rcases hget : fs.get false path with e | ⟨top, x⟩
  · rw [h.missing e hget, hi] at hgone
    cases hgone
  · exact ⟨top, x, hget, h.inside top x hget d n i hi hgone⟩

end Removal

/-! ### All operands -/

section Operands

variable {maxpath fuel : ℕ} {flags : RmFlags} {paths args : List Path} {w w' : World}

/-- What the removal of the operands does, where it says `said`. -/
structure RemovesAll (fs : Fs) (paths : List Path) (said : List RmMessage) (fs' : Fs) : Prop where
  shrinks : Shrinks fs fs'
  inside : ∀ d n i, fs.child d n = some i → fs'.child d n = none →
    ∃ path ∈ paths, Removable fs path d n
  lost : Acyclic fs → ∀ path ∈ paths, (∀ e, RmMessage.failed path e ∉ said) → Lost fs' path

theorem removesAll_nil (fs : Fs) : RemovesAll fs [] [] fs where
  shrinks := Shrinks.refl fs
  inside _ _ _ hi hgone := absurd (hi.symm.trans hgone) (Option.some_ne_none _)
  lost _ _ hpath := absurd hpath List.not_mem_nil

/-- **One operand, and then the others.** -/
theorem RemovesAll.cons {path : Path} {recursive force : Bool} {r : Except Errno Unit}
    {w₁ : World} {said said' : List RmMessage} {fs' : Fs}
    (h : Runs (removePath maxpath fuel path recursive force) w r w₁)
    (hall : RemovesAll w₁.fs paths said fs') (hmore : ∀ m ∈ said, m ∈ said')
    (hsuccess : (∀ e, RmMessage.failed path e ∉ said') →
      r = .ok () ∨ force = true ∧ r = .error .enoent) :
    RemovesAll w.fs (path :: paths) said' fs' where
  shrinks := (removePath_spec h).shrinks.trans hall.shrinks
  inside := by
    intro d n i hi hgone
    have hspec := removePath_spec h
    rcases hspec.shrinks.child_eq hi with hkept | hgone₁
    · obtain ⟨p, hp, hremovable⟩ := hall.inside d n i hkept hgone
      exact ⟨p, List.mem_cons_of_mem _ hp, hremovable.mono hspec.shrinks.sub⟩
    · exact ⟨path, List.mem_cons_self, hspec.removable hi hgone₁⟩
  lost := by
    intro hacyclic p hp hno
    rcases List.mem_cons.1 hp with rfl | hp
    · exact (lost_of_success hacyclic h (hsuccess hno)).sub hall.shrinks.sub
    · exact hall.lost (hacyclic.sub (removePath_spec h).shrinks.sub) p hp
        fun e he => hno e (hmore _ he)

theorem runs_rmOperands {r : Except Errno (List RmMessage)}
    (h : Runs (rmOperands maxpath fuel flags paths) w r w') :
    ∃ said, r = .ok said ∧ RemovesAll w.fs paths said w'.fs := by
  induction paths generalizing w r w' with
  | nil =>
    obtain ⟨rfl, rfl⟩ := runs_pure.1 h
    exact ⟨[], rfl, removesAll_nil _⟩
  | cons path paths ih =>
    obtain ⟨ret, w₁, hremove, h⟩ := runs_attempt_bind.1 h
    rcases runs_bind.1 h with ⟨e, hlater, -⟩ | ⟨later, w₂, hlater, h⟩
    · obtain ⟨said, hsaid, -⟩ := ih hlater
      exact absurd hsaid.symm (ok_ne_error _ _)
    obtain ⟨said, hsaid, hall⟩ := ih hlater
    obtain rfl := Except.ok.inj hsaid
    have hquiet : (ret = .ok () ∨ flags.force = true ∧ ret = .error .enoent) →
        RemovesAll w.fs (path :: paths) later w₂.fs := fun hret =>
      .cons hremove hall (fun _ hm => hm) fun _ => hret
    rcases ret with e | u
    · dsimp only at h
      split_ifs at h with hforced
      · obtain ⟨rfl, rfl⟩ := runs_pure.1 h
        exact ⟨later, rfl, hquiet (.inr ⟨hforced.1, congrArg _ hforced.2⟩)⟩
      · obtain ⟨rfl, rfl⟩ := runs_pure.1 h
        exact ⟨_, rfl, .cons hremove hall (fun _ => List.mem_cons_of_mem _)
          fun hno => absurd List.mem_cons_self (hno e)⟩
    · obtain ⟨rfl, rfl⟩ := runs_pure.1 h
      exact ⟨later, rfl, hquiet (.inl rfl)⟩

/-- **What `rm` does**, whatever calls fail.  It ends with the status 0 exactly if it said
nothing.  Only entries are removed, each of them in the tree of what an operand led to at the
start, or named by an operand.  An operand about which nothing was said leads nowhere in the
end, if no directory lies below itself; after a success that is all of them. -/
theorem rm_removes (hacyclic : Acyclic w.fs) {r : Except Errno (ℕ × List RmMessage)}
    (h : Runs (rm maxpath fuel args) w r w') :
    ∃ status said, r = .ok (status, said) ∧ status ≤ 1 ∧ (status = 0 ↔ said = []) ∧
      Shrinks w.fs w'.fs ∧
      (∀ d n i, w.fs.child d n = some i → w'.fs.child d n ≠ some i →
        ∃ path ∈ operands args, Removable w.fs path d n) ∧
      (∀ path ∈ operands args, (∀ e, RmMessage.failed path e ∉ said) → Lost w'.fs path) := by
  have hnothing : ∀ m, operands args = [] → r = .ok (1, [m]) → w' = w →
      ∃ status said, r = .ok (status, said) ∧ status ≤ 1 ∧ (status = 0 ↔ said = []) ∧
        Shrinks w.fs w'.fs ∧
        (∀ d n i, w.fs.child d n = some i → w'.fs.child d n ≠ some i →
          ∃ path ∈ operands args, Removable w.fs path d n) ∧
        (∀ path ∈ operands args, (∀ e, RmMessage.failed path e ∉ said) → Lost w'.fs path) := by
    rintro m hnone rfl rfl
    refine ⟨1, [m], rfl, Nat.le_refl 1, by simp, Shrinks.refl _,
      fun d n i hi hgone => absurd hi hgone, ?_⟩
    rw [hnone]
    exact fun path hpath => absurd hpath List.not_mem_nil
  unfold rm at h
  split_ifs at h with hargs
  · obtain ⟨rfl, rfl⟩ := runs_pure.1 h
    exact hnothing .usage (by rw [hargs]; rfl) rfl rfl
  rcases hoptions : rmOptions ⟨false, false⟩ args with m | ⟨flags, paths⟩
  · rw [hoptions] at h
    obtain ⟨rfl, rfl⟩ := runs_pure.1 h
    exact hnothing m (by rw [operands, hoptions]) rfl rfl
  have hpaths : operands args = paths := by rw [operands, hoptions]
  rw [hoptions] at h
  rcases paths with _ | ⟨path, paths⟩
  · obtain ⟨rfl, rfl⟩ := runs_pure.1 h
    exact hnothing .missingOperand hpaths rfl rfl
  rcases runs_bind.1 h with ⟨e, hrun, -⟩ | ⟨said, w₁, hrun, h⟩
  · obtain ⟨said, hsaid, -⟩ := runs_rmOperands hrun
    exact absurd hsaid.symm (ok_ne_error _ _)
  obtain ⟨said, hsaid, hall⟩ := runs_rmOperands hrun
  obtain rfl := Except.ok.inj hsaid
  obtain ⟨rfl, rfl⟩ := runs_pure.1 h
  rw [hpaths]
  refine ⟨_, _, rfl, by split_ifs <;> simp, by simp, hall.shrinks, fun d n i hi hgone => ?_,
    fun p hp hno => hall.lost hacyclic p hp hno⟩
  exact hall.inside d n i hi ((hall.shrinks.child_eq hi).resolve_left hgone)

end Operands

/-- The file system with `/d` and `/d/f` has no directory below itself. -/
theorem acyclic_smallFs : Acyclic smallFs := by
  have hup : ∀ {d n i}, smallFs.child d n = some i → d.num < i.num := by
    intro d n i hi
    by_cases hroot : d = ⟨0, 0⟩
    · subst hroot
      have hnode : smallFs.node ⟨0, 0⟩ = some (.dir 0o755 ⟨0, 0⟩
        [⟨⟨[100], by decide, by decide⟩, some ⟨0, 1⟩⟩]) := rfl
      obtain ⟨-, hmem⟩ := (Fs.child_eq_some_iff hnode).1 hi
      obtain rfl := Option.some.inj (Slot.mk.inj (List.mem_singleton.1 hmem)).2
      decide
    by_cases hdir : d = ⟨0, 1⟩
    · subst hdir
      have hnode : smallFs.node ⟨0, 1⟩ = some (.dir 0o700 ⟨0, 0⟩
        [⟨⟨[102], by decide, by decide⟩, some ⟨0, 2⟩⟩]) := rfl
      obtain ⟨-, hmem⟩ := (Fs.child_eq_some_iff hnode).1 hi
      obtain rfl := Option.some.inj (Slot.mk.inj (List.mem_singleton.1 hmem)).2
      decide
    -- the other inodes are no directories
    rw [Fs.child_of_not_dir] at hi
    · cases hi
    · intro mode up slots hnode
      have hnew : d ≠ ⟨0, 2⟩ := by
        rintro rfl
        cases hnode
      have hold : smallFs.node d = none :=
        (Nodes.make_of_ne hnew hdir).trans ((Nodes.make_of_ne hdir hroot).trans (if_neg hroot))
      rw [hold] at hnode
      cases hnode
  have htree : ∀ {i d}, InTree smallFs i d → i.num ≤ d.num := by
    intro i d hin
    induction hin with
    | top => exact Nat.le_refl _
    | child _ hi ih => exact Nat.le_trans ih (Nat.le_of_lt (hup hi))
  exact fun d n i hi hin => Nat.not_le_of_lt (hup hi) (htree hin)

/-- `rm -r /d` in the file system with `/d` and `/d/f`. -/
theorem rm_removes_small : ∃ w', Runs (rm 512 5 [[45, 114], [47, 100]]) smallWorld (.ok (0, []))
    w' ∧ Lost w'.fs [47, 100] := by
  obtain ⟨w', hrun⟩ : ∃ w', Runs (rm 512 5 [[45, 114], [47, 100]]) smallWorld (.ok (0, [])) w' :=
    ⟨_, rfl⟩
  refine ⟨w', hrun, ?_⟩
  obtain ⟨status, said, hr, -, -, -, -, hlost⟩ := rm_removes acyclic_smallFs hrun
  obtain ⟨-, rfl⟩ := Prod.mk.inj (Except.ok.inj hr)
  exact hlost [47, 100] (List.mem_singleton_self _) fun e => List.not_mem_nil

end Fsutil
end V6User
