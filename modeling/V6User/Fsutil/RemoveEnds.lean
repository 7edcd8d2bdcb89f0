import V6User.Fsutil.RemoveLoops

/-!
# When a removal ends

`fsutil_remove_path` of `lib/fsutil.c`, with enough fuel.  `LoopStep` and `PathStep` say what
the loop over the children and the function itself do first, and what is left then.

A removal with a child to remove that cannot go on for ever comes to an error
(`settles_error_of_not_loops`): its children have longer paths, which fit the buffer.  Where
no missing child is passed over, every pass of the loop takes an entry away
(`exists_loopSettles`).  Together they say exactly when a removal ends
(`removePath_ends_iff`).
-/

namespace V6User
namespace Fsutil

open Vfs Effect

/-! ### With enough fuel -/

section Ends

variable {maxpath : ℕ} {path p : Path} {force : Bool} {fs fs' : Fs} {w w' : World}
  {top : Ino} {mode : ℕ} {up : Ino} {slots : List Slot} {n : Name}

/-- With enough fuel the loop over the children ends, and so do the removals in it. -/
def LoopSettles (maxpath : ℕ) (path : Path) (force : Bool) (w : World) (r : Except Errno Unit)
    (w' : World) : Prop :=
  ∃ N, ∀ m k, N ≤ m → N ≤ k →
    Runs (removeChildren maxpath path (fun c => removePath maxpath m c true force) k) w r w'

/-- **What the loop does first**: it ends, or it goes on with the removal of a child. -/
inductive LoopStep (maxpath : ℕ) (path : Path) (force : Bool) (w : World) : Prop
  | fails {e : Errno} {w' : World} (h : LoopSettles maxpath path force w (.error e) w')
  | ends {top up : Ino} {mode : ℕ} {slots : List Slot} {w' : World}
      (hopen : w.fs.get true path = .ok (top, .dir mode up slots))
      (hfirst : firstName slots = none) (h : LoopSettles maxpath path force w (.ok ()) w')
      (hfs : w'.fs = w.fs) (henv : w'.env = w.env)
  | child {top up : Ino} {mode : ℕ} {slots : List Slot} {n : Name} {p : Path} {w₁ : World}
      (hopen : w.fs.get true path = .ok (top, .dir mode up slots))
      (hfirst : firstName slots = some n) (hjoin : joinPath maxpath path n.bytes = .ok p)
      (hfs : w₁.fs = w.fs) (henv : w₁.env = w.env)
      (herror : ∀ e w₂, Settles (fun m => removePath maxpath m p true force) w₁ (.error e) w₂ →
        LoopSettles maxpath path force w (.error e) w₂)
      (hok : ∀ w₂ r w', Settles (fun m => removePath maxpath m p true force) w₁ (.ok ()) w₂ →
        LoopSettles maxpath path force w₂ r w' → LoopSettles maxpath path force w r w')

theorem loopSettles_of_succ {r : Except Errno Unit} {N : ℕ}
    (h : ∀ m k, N ≤ m → N ≤ k → Runs (removeChildren maxpath path
      (fun c => removePath maxpath m c true force) (k + 1)) w r w') :
    LoopSettles maxpath path force w r w' := by
  refine ⟨N + 1, fun m k hm hk => ?_⟩
  obtain ⟨k, rfl⟩ := Nat.exists_eq_succ_of_ne_zero (Nat.ne_of_gt (Nat.lt_of_lt_of_le
    (Nat.succ_pos N) hk))
  exact h m k (Nat.le_of_succ_le hm) (Nat.le_of_succ_le_succ hk)

/-- How the loop goes on with the child that it has found. -/
def removeFound (maxpath : ℕ) (path : Path) (remove : Path → Prog Unit) (k : ℕ) :
    Option Path → Prog Unit
  | none => pure ()
  | some child => do
    remove child
    removeChildren maxpath path remove k

theorem loopStep (maxpath : ℕ) (path : Path) (force : Bool) (w : World) :
    LoopStep maxpath path force w := by
  obtain ⟨x₁, w₁, hrun⟩ : ∃ r w', Runs (openRead path) w r w' := exists_runs_look _ _ w
  obtain ⟨hfs₁, henv₁, hopen⟩ := runs_look_outcome hrun
  rcases x₁ with e | fd
  · exact .fails (loopSettles_of_succ (N := 0) fun m k _ _ => runs_bind.2 (.inl ⟨e, hrun, rfl⟩))
  obtain ⟨e, -, hbad⟩ | hopen := hopen
  · cases hbad
  obtain ⟨x, hget⟩ : ∃ x, w.fs.get true path = .ok (fd, x) := by
    rcases hget : w.fs.get true path with e | ⟨i, x⟩
    · rw [hget] at hopen
      cases hopen
    · rw [hget] at hopen
      exact ⟨x, by rw [Except.ok.inj hopen]⟩
  obtain ⟨found, w₂, N, hread⟩ := exists_settles_readChild maxpath path fd 0 w₁
  obtain ⟨x₃, w₃, hclose⟩ : ∃ r w', Runs (close fd) w₂ r w' := exists_runs_look _ _ w₂
  obtain ⟨hfs₃, henv₃, -⟩ := runs_look_outcome hclose
  -- one pass, up to the removal of the child
  have hpass : ∀ (remove : Path → Prog Unit) k r w', N ≤ k →
      Runs (Effect.ofExcept found >>= removeFound maxpath path remove k) w₃ r w' →
      Runs (removeChildren maxpath path remove (k + 1)) w r w' := fun remove k r w' hk h =>
    runs_bind.2 (.inr ⟨fd, w₁, hrun, runs_attempt_bind.2 ⟨found, w₂, hread k hk,
      runs_attempt_bind.2 ⟨x₃, w₃, hclose, h⟩⟩⟩)
  rcases found with e | child
  · exact .fails (loopSettles_of_succ (N := N) fun m k _ hk =>
      hpass _ k _ w₃ hk (runs_ofExcept_bind.2 (.inl ⟨e, rfl, rfl, rfl⟩)))
  obtain ⟨mode, up, slots, hnode⟩ := exists_dir_of_readChild (hread N (Nat.le_refl N))
  obtain ⟨hfs₂, henv₂, ⟨e, hbad, -⟩ | hfound⟩ :=
    runs_readChild_dir hnode (by rw [List.take_zero]; rfl) (hread N (Nat.le_refl N))
  · cases hbad
  obtain rfl : x = .dir mode up slots := by
    obtain ⟨-, -, -, hx⟩ := Fs.get_eq_ok.1 hget
    rw [hfs₁, hx] at hnode
    exact Option.some.inj hnode
  have hfs : w₃.fs = w.fs := hfs₃.trans (hfs₂.trans hfs₁)
  have henv : w₃.env = w.env := henv₃.trans (henv₂.trans henv₁)
  rcases hfirst : firstName slots with _ | n
  · rw [hfirst] at hfound
    obtain rfl := Except.ok.inj hfound
    exact .ends hget hfirst (loopSettles_of_succ (N := N) fun m k _ hk =>
      hpass _ k _ w₃ hk (runs_ofExcept_bind.2 (.inr ⟨none, rfl, runs_pure.2 ⟨rfl, rfl⟩⟩))) hfs henv
  · rw [hfirst] at hfound
    dsimp only at hfound
    rcases hjoin : joinPath maxpath path n.bytes with e | p
    · rw [hjoin] at hfound
      cases hfound
    rw [hjoin] at hfound
    obtain rfl := Except.ok.inj hfound
    refine .child hget hfirst hjoin hfs henv (fun e w₄ hrem => ?_) (fun w₄ r w' hrem hrest => ?_)
    · obtain ⟨M, hM⟩ := hrem
      refine loopSettles_of_succ (N := max N M) fun m k hm hk => ?_
      refine hpass _ k _ w₄ (Nat.le_trans (Nat.le_max_left N M) hk) ?_
      refine runs_ofExcept_bind.2 (.inr ⟨some p, rfl, runs_bind.2 (.inl ⟨e, ?_, rfl⟩)⟩)
      exact hM m (Nat.le_trans (Nat.le_max_right N M) hm)
    · obtain ⟨M, hM⟩ := hrem
      obtain ⟨K, hK⟩ := hrest
      refine loopSettles_of_succ (N := max N (max M K)) fun m k hm hk => ?_
      refine hpass _ k _ w' (by omega) ?_
      refine runs_ofExcept_bind.2 (.inr ⟨some p, rfl, runs_bind.2 (.inr ⟨(), w₄, ?_, ?_⟩)⟩)
      · exact hM m (by omega)
      · exact hK m k (by omega) (by omega)

/-- **What a removal does first**: it fails, or nothing is there, or `unlink` is all it does, or
it comes to the loop. -/
inductive PathStep (maxpath : ℕ) (path : Path) (force : Bool) (w : World) : Prop
  | fails {e : Errno} {w' : World}
      (h : Settles (fun m => removePath maxpath m path true force) w (.error e) w')
  | forced {w' : World} (hforce : force = true) (hget : w.fs.get false path = .error .enoent)
      (h : Settles (fun m => removePath maxpath m path true force) w (.ok ()) w')
  | unlink {i : Ino} {x : Node} {w₁ : World} {r : Except Errno Unit} {w' : World}
      (hget : w.fs.get false path = .ok (i, x)) (hx : x.kind ≠ .dir) (hfs : w₁.fs = w.fs)
      (hrun : Runs (unlinkPath force path) w₁ r w')
      (h : Settles (fun m => removePath maxpath m path true force) w r w')
  | loop {top up : Ino} {mode : ℕ} {slots : List Slot} {w₁ : World}
      (hget : w.fs.get false path = .ok (top, .dir mode up slots))
      (hbase : ∃ base, copyBasename maxpath path = .ok base ∧ isDotOrDotdot base = false)
      (hfs : w₁.fs = w.fs) (henv : w₁.env = w.env)
      (herror : ∀ e w₂, LoopSettles maxpath path force w₁ (.error e) w₂ →
        Settles (fun m => removePath maxpath m path true force) w (.error e) w₂)
      (hok : ∀ w₂ r w', LoopSettles maxpath path force w₁ (.ok ()) w₂ →
        Runs (unlinkPath force path) w₂ r w' →
        Settles (fun m => removePath maxpath m path true force) w r w')

theorem exists_runs_unlinkPath (force : Bool) (path : Path) (w : World) :
    ∃ r w', Runs (unlinkPath force path) w r w' := by
  obtain ⟨x, w₁, hrun⟩ : ∃ r w', Runs (unlink path) w r w' := exists_runs_change _ _ w
  rcases x with e | _
  · by_cases hforced : force = true ∧ e = .enoent
    · exact ⟨_, _, runs_attempt_bind.2 ⟨_, _, hrun, runs_forced hforced⟩⟩
    · exact ⟨_, _, runs_attempt_bind.2 ⟨_, _, hrun, runs_not_forced hforced⟩⟩
  · exact ⟨_, _, runs_attempt_bind.2 ⟨_, _, hrun, runs_pure.2 ⟨rfl, rfl⟩⟩⟩

theorem pathStep (maxpath : ℕ) (path : Path) (force : Bool) (w : World) :
    PathStep maxpath path force w := by
  obtain ⟨x₁, w₁, hlstat⟩ : ∃ r w', Runs (lstat path) w r w' := exists_runs_look _ _ w
  obtain ⟨hfs₁, henv₁, hst⟩ := runs_look_outcome hlstat
  rcases x₁ with e | st
  · by_cases hforced : force = true ∧ e = .enoent
    · obtain ⟨rfl, rfl⟩ := hforced
      have h : Settles (fun m => removePath maxpath m path true true) w (.ok ()) w₁ :=
        .of_succ fun m => runs_attempt_bind.2 ⟨_, w₁, hlstat, runs_forced ⟨rfl, rfl⟩⟩
      refine .forced rfl ?_ h
      obtain ⟨e, -, he⟩ | hst := hst
      · exact absurd (Except.error.inj he).symm e.2
      · exact Fs.statOf_eq_error.1 hst.symm
    · exact .fails (.of_succ fun m =>
        runs_attempt_bind.2 ⟨_, w₁, hlstat, runs_not_forced hforced⟩)
  obtain ⟨e, -, hbad⟩ | hst := hst
  · exact absurd hbad nofun
  obtain ⟨x, hget, hkind, -⟩ := Fs.statOf_eq_ok.1 hst.symm
  rcases hbase : copyBasename maxpath path with e | base
  · exact .fails (.of_succ fun m => runs_attempt_bind.2 ⟨_, w₁, hlstat,
      runs_ofExcept_bind.2 (.inl ⟨e, hbase, rfl, rfl⟩)⟩)
  -- what is left is the same whatever the fuel
  have hpass : ∀ m r w', Runs (if isDotOrDotdot base then Effect.throw .einval
      else if st.kind ≠ .dir then unlinkPath force path
      else if !true then Effect.throw .eisdir
      else do
        removeChildren maxpath path (fun c => removePath maxpath m c true force) m
        unlinkPath force path) w₁ r w' →
      Runs (removePath maxpath (m + 1) path true force) w r w' := fun m r w' h =>
    runs_attempt_bind.2 ⟨_, w₁, hlstat, runs_ofExcept_bind.2 (.inr ⟨base, hbase, h⟩)⟩
  by_cases hdots : isDotOrDotdot base = true
  · have h : Settles (fun m => removePath maxpath m path true force) w (.error .einval) w₁ := by
      refine .of_succ fun m => hpass m _ _ ?_
      rw [if_pos hdots]
      exact runs_throw.2 ⟨rfl, rfl⟩
    exact .fails h
  by_cases hdir : st.kind = .dir
  · rw [hkind] at hdir
    obtain ⟨mode, up, slots, rfl⟩ := x.dir_of_kind hdir
    have hif : ∀ (a b c d : Prog Unit), (if isDotOrDotdot base then a
        else if st.kind ≠ .dir then b else if !true then c else d) = d := fun a b c d => by
      rw [if_neg hdots, if_neg (not_not.2 (hkind.trans hdir)), if_neg (by decide)]
    refine .loop hget ⟨base, hbase, Bool.eq_false_iff.2 hdots⟩ hfs₁ henv₁ (fun e w₂ hloop => ?_)
      (fun w₂ r w' hloop hrun => ?_)
    all_goals
      obtain ⟨N, hN⟩ := hloop
      refine ⟨N + 1, fun m hm => ?_⟩
      obtain ⟨m, rfl⟩ := Nat.exists_eq_succ_of_ne_zero (Nat.ne_of_gt (Nat.lt_of_lt_of_le
        (Nat.succ_pos N) hm))
      refine hpass m _ _ ?_
      rw [hif]
      have hmN := Nat.le_of_succ_le_succ hm
    · exact runs_bind.2 (.inl ⟨e, hN m m hmN hmN, rfl⟩)
    · exact runs_bind.2 (.inr ⟨(), w₂, hN m m hmN hmN, hrun⟩)
  · obtain ⟨r, w', hrun⟩ := exists_runs_unlinkPath force path w₁
    refine .unlink hget (hkind ▸ hdir) hfs₁ hrun (.of_succ fun m => hpass m _ _ ?_)
    rw [if_neg hdots, if_pos hdir]
    exact hrun

/-- Two ways to find a directory find the same. -/
theorem slots_eq_of_get {mode' : ℕ} {up' top' : Ino} {slots' : List Slot}
    (hget : fs.get false path = .ok (top, .dir mode up slots))
    (hopen : fs.get true path = .ok (top', .dir mode' up' slots')) : top' = top ∧ slots' = slots := by
  have htrue := Fs.get_true_of_false hget (Fs.link_of_kind hget rfl)
  obtain ⟨rfl, hnode⟩ := Prod.mk.inj (Except.ok.inj (htrue.symm.trans hopen))
  injection hnode with _ _ hslots
  exact ⟨rfl, hslots.symm⟩

/-- What has no child is removed by `unlink`, if at all. -/
theorem settles_leaf (maxpath : ℕ) (force : Bool) (hp : Leaf w.fs p) : ∃ r w',
    Settles (fun m => removePath maxpath m p true force) w r w' ∧
      ((∃ e, r = .error e) ∨ r = .ok () ∧ ∃ dead, w.fs.unlink dead p = .ok w'.fs) := by
  obtain ⟨i, x, hget, hnone⟩ := hp
  have hend : ∀ w₁ : World, w₁.fs = w.fs → ∀ r w', Runs (unlinkPath force p) w₁ r w' →
      (∃ e, r = .error e) ∨ r = .ok () ∧ ∃ dead, w.fs.unlink dead p = .ok w'.fs := by
    intro w₁ hfs r w' hrun
    rcases runs_unlinkPath (hfs ▸ hget) hrun with ⟨-, hr⟩ | ⟨dead, hunlink, hr⟩
    · rcases r with e | _
      · exact .inl ⟨e, rfl⟩
      · exact absurd rfl hr
    · exact .inr ⟨hr, dead, hfs ▸ hunlink⟩
  rcases pathStep maxpath p force w with h | ⟨-, hmissing, -⟩ | ⟨-, -, hfs, hrun, h⟩ |
    ⟨hdir, -, hfs, henv, herror, hok⟩
  · exact ⟨_, _, h, .inl ⟨_, rfl⟩⟩
  · exact absurd (hget.symm.trans hmissing) nofun
  · exact ⟨_, _, h, hend _ hfs _ _ hrun⟩
  · obtain ⟨rfl, rfl⟩ := Prod.mk.inj (Except.ok.inj (hget.symm.trans hdir))
    rcases loopStep maxpath p force _ with h | ⟨-, -, h, hfs', -⟩ | ⟨hopen, hfirst, -⟩
    · exact ⟨_, _, herror _ _ h, .inl ⟨_, rfl⟩⟩
    · obtain ⟨r, w', hrun⟩ := exists_runs_unlinkPath force p _
      exact ⟨r, w', hok _ _ _ h hrun, hend _ (hfs'.trans hfs) _ _ hrun⟩
    · rw [hfs] at hopen
      obtain ⟨-, rfl⟩ := slots_eq_of_get hdir hopen
      exact absurd ((hnone _ _ _ rfl).symm.trans hfirst) nofun

/-- Whether the slot stays makes no difference to what a path leads to. -/
theorem exists_get_of_unlink {dead : Bool} {x : Ino × Node} (hunlink : fs.unlink dead p = .ok fs')
    (hopen : fs'.get true path = .ok x) :
    ∃ fs'' y, fs.unlink true p = .ok fs'' ∧ fs''.get true path = .ok y := by
  obtain ⟨d, n, rfl, hany⟩ := Fs.unlink_dead hunlink
  obtain ⟨y, hy⟩ := Fs.get_mono (sub_remove_dead fs dead true d n) hopen
  exact ⟨_, _, hany true, hy⟩

/-- **A removal that has a child to remove and cannot go on for ever fails.** -/
theorem settles_error_of_not_loops (hget : w.fs.get false path = .ok (top, .dir mode up slots))
    (hfirst : firstName slots = some n) (hnot : ¬Loops maxpath w.fs path) :
    ∃ e w', Settles (fun m => removePath maxpath m path true true) w (.error e) w' := by
  induction hleft : maxpath - dropSlashes path path.length using Nat.strongRecOn
    generalizing path w top mode up slots n with
  | ind left ih =>
    rcases pathStep maxpath path true w with h | ⟨-, hmissing, -⟩ | ⟨hget', hx, -⟩ |
      ⟨hdir, hbase, hfs, henv, herror, hok⟩
    · exact ⟨_, _, h⟩
    · exact absurd (hget.symm.trans hmissing) nofun
    · obtain ⟨rfl, rfl⟩ := Prod.mk.inj (Except.ok.inj (hget.symm.trans hget'))
      exact absurd rfl hx
    · rcases loopStep maxpath path true _ with h | ⟨hopen, hnone, -⟩ |
        ⟨hopen, hfirst', hjoin, hfs', henv', hcherror, hchok⟩
      · exact ⟨_, _, herror _ _ h⟩
      · rw [hfs] at hopen
        obtain ⟨-, rfl⟩ := slots_eq_of_get hget hopen
        exact absurd (hfirst.symm.trans hnone) nofun
      · rw [hfs] at hopen
        obtain ⟨-, rfl⟩ := slots_eq_of_get hget hopen
        obtain rfl := Option.some.inj (hfirst.symm.trans hfirst')
        have hchild : FirstChild maxpath w.fs path top n _ :=
          ⟨⟨mode, up, _, hget, hfirst⟩, hbase, hjoin⟩
        rename_i w₁ _ _ _ _ _ p w₂
        have hfs₂ : w₂.fs = w.fs := hfs'.trans hfs
        -- the child: missing, or without a child itself, or a directory with one
        rcases hgetp : w.fs.get false p with e | ⟨i, x⟩
        · rcases pathStep maxpath p true w₂ with h | ⟨-, hmissing, -⟩ | ⟨hp, -⟩ | ⟨hp, -⟩
          · exact ⟨_, _, herror _ _ (hcherror _ _ h)⟩
          · exact absurd (.missing hchild (hfs₂ ▸ hmissing)) hnot
          · rw [hfs₂] at hp
            exact absurd (hgetp.symm.trans hp) nofun
          · rw [hfs₂] at hp
            exact absurd (hgetp.symm.trans hp) nofun
        by_cases hleaf : Leaf w₂.fs p
        · obtain ⟨r, w₃, hrem, ⟨e, rfl⟩ | ⟨rfl, dead, hunlink⟩⟩ := settles_leaf maxpath true hleaf
          · exact ⟨e, w₃, herror _ _ (hcherror _ _ hrem)⟩
          · -- nothing is found where the path led to, as the removal cannot go on for ever
            have hno : ∀ x, w₃.fs.get true path ≠ .ok x := fun x hopen₃ => by
              obtain ⟨fs'', y, hunlink', hy⟩ := exists_get_of_unlink (hfs₂ ▸ hunlink) hopen₃
              exact hnot (.leaf hchild (hfs₂ ▸ hleaf) hunlink' hy)
            rcases loopStep maxpath path true w₃ with h | ⟨hopen₃, -⟩ | ⟨hopen₃, -⟩
            · exact ⟨_, _, herror _ _ (hchok _ _ _ hrem h)⟩
            · exact absurd hopen₃ (hno _)
            · exact absurd hopen₃ (hno _)
        · rw [← hfs₂] at hgetp
          obtain ⟨mode', up', slots', m, rfl, hfirstp⟩ : ∃ mode up slots m,
              x = .dir mode up slots ∧ firstName slots = some m := by
            by_contra hno
            refine hleaf ⟨i, x, hgetp, fun mode up slots hx => ?_⟩
            rcases hm : firstName slots with _ | m
            · rfl
            · exact absurd ⟨mode, up, slots, m, hx, hm⟩ hno
          have hnotp : ¬Loops maxpath w₂.fs p := by
            rw [hfs₂]
            exact fun hp => hnot (.child hchild hp)
          obtain ⟨hlong, hfits, -⟩ := length_joinPath hjoin
          rw [← dropSlashes_joinPath hchild.ne_nil hjoin] at hlong hfits
          obtain ⟨e, w₃, hrem⟩ := ih (maxpath - dropSlashes p p.length) (by omega) hgetp hfirstp
            hnotp rfl
          exact ⟨e, w₃, herror _ _ (hcherror _ _ hrem)⟩

/-! ### Every removal ends where no record is dead -/

/-- No record in the tree is dead. -/
def NoDead (fs : Fs) (top : Ino) : Prop :=
  ∀ d, InTree fs top d → ∀ mode up slots, fs.node d = some (.dir mode up slots) →
    ∀ s ∈ slots, ¬s.name.IsDots → s.ino.isSome

/-- The removal of an entry leaves no slot. -/
def LeavesNone (env : ℕ → Call → Outcome) : Prop := ∀ k c, (env k c).dead = false

/-- A missing child is an error, or there is none. -/
def Quiet (force : Bool) (w : World) (path : Path) : Prop :=
  force = false ∨ LeavesNone w.env ∧ ∀ top x, w.fs.get false path = .ok (top, x) → NoDead w.fs top

/-- The slots of directories are only taken away, if removals leave none. -/
structure Thins (w w' : World) : Prop where
  env : w'.env = w.env
  slots : LeavesNone w.env → ∀ d mode up slots, w'.fs.node d = some (.dir mode up slots) →
    ∃ slots', w.fs.node d = some (.dir mode up slots') ∧ ∀ s ∈ slots, s ∈ slots'

instance : Std.Refl Thins := ⟨fun _ => ⟨rfl, fun _ _ _ _ slots h => ⟨slots, h, fun _ hs => hs⟩⟩⟩

instance : IsTrans World Thins := by
  refine ⟨fun w₁ w₂ w₃ h h' => ⟨h'.env.trans h.env, fun hnone d mode up slots hnode => ?_⟩⟩
  obtain ⟨slots₂, hnode₂, hsub₂⟩ := h'.slots (h.env ▸ hnone) d mode up slots hnode
  obtain ⟨slots₁, hnode₁, hsub₁⟩ := h.slots hnone d mode up slots₂ hnode₂
  exact ⟨slots₁, hnode₁, fun s hs => hsub₁ s (hsub₂ s hs)⟩

theorem thins_look {α : Type} {c : Call} {f : Outcome → Fs → Except Errno α} :
    Keeps Thins (look c f) := by
  intro w r w' h
  obtain ⟨hfs, henv, -⟩ := runs_look_outcome h
  exact ⟨henv, fun _ d mode up slots hnode => ⟨slots, hfs ▸ hnode, fun _ hs => hs⟩⟩

theorem thins_unlink (path : Path) : Keeps Thins (unlink path) := by
  intro w r w' h
  obtain ⟨henv, ⟨e, -, -, hfs⟩ | ⟨e, -, -, hfs⟩ | ⟨hok, -⟩⟩ := runs_change_outcome h
  · exact ⟨henv, fun _ d mode up slots hnode => ⟨slots, hfs ▸ hnode, fun _ hs => hs⟩⟩
  · exact ⟨henv, fun _ d mode up slots hnode => ⟨slots, hfs ▸ hnode, fun _ hs => hs⟩⟩
  · refine ⟨henv, fun hnone d mode up slots hnode => ?_⟩
    rw [hnone] at hok
    obtain ⟨e, n, hfs, -⟩ := Fs.unlink_dead hok
    rw [hfs] at hnode
    obtain ⟨slots', hnode', rfl⟩ := Nodes.remove_dir hnode
    refine ⟨slots', hnode', fun s hs => ?_⟩
    split_ifs at hs
    · exact mem_of_mem_killSlot hs
    · exact hs

theorem thins_unlessForced (force : Bool) (e : Errno) : Keeps Thins (unlessForced force e) := by
  unfold unlessForced
  split_ifs
  · exact Keeps.pure ()
  · exact Keeps.throw e

theorem thins_unlinkPath (force : Bool) (path : Path) : Keeps Thins (unlinkPath force path) := by
  refine Keeps.bind (thins_unlink path).attempt fun x => ?_
  rcases x with e | _
  · exact thins_unlessForced force e
  · exact Keeps.pure ()

theorem thins_readChild (maxpath : ℕ) (path : Path) (fd : Ino) (fuel pos : ℕ) :
    Keeps Thins (readChild maxpath path fd fuel pos) := by
  induction fuel generalizing pos with
  | zero => exact Keeps.diverge
  | succ fuel ih =>
    refine Keeps.bind thins_look fun des => ?_
    split_ifs
    · exact Keeps.pure none
    · refine Keeps.bind (Keeps.ofExcept _) fun found => ?_
      rcases found with _ | child
      · exact ih _
      · exact Keeps.pure _

theorem thins_removeChildren {remove : Path → Prog Unit} (hremove : ∀ p, Keeps Thins (remove p))
    (maxpath : ℕ) (path : Path) (fuel : ℕ) :
    Keeps Thins (removeChildren maxpath path remove fuel) := by
  induction fuel with
  | zero => exact Keeps.diverge
  | succ fuel ih =>
    refine Keeps.bind thins_look fun fd => ?_
    refine Keeps.bind (thins_readChild _ _ _ _ _).attempt fun found => ?_
    refine Keeps.bind thins_look.attempt fun _ => ?_
    refine Keeps.bind (Keeps.ofExcept _) fun child => ?_
    rcases child with _ | child
    · exact Keeps.pure ()
    · exact Keeps.bind (hremove child) fun _ => ih

theorem thins_removePath (maxpath fuel : ℕ) (path : Path) (recursive force : Bool) :
    Keeps Thins (removePath maxpath fuel path recursive force) := by
  induction fuel generalizing path recursive force with
  | zero => exact Keeps.diverge
  | succ fuel ih =>
    refine Keeps.bind thins_look.attempt fun x => ?_
    rcases x with e | st
    · exact thins_unlessForced force e
    · refine Keeps.bind (Keeps.ofExcept _) fun base => ?_
      split_ifs
      · exact Keeps.throw _
      · exact thins_unlinkPath force path
      · exact Keeps.throw _
      · exact Keeps.bind (thins_removeChildren (fun p => ih p true force) maxpath path fuel)
          fun _ => thins_unlinkPath force path

/-- The first record of a directory without dead ones is a child. -/
theorem exists_child_of_firstName {d : Ino} (hnode : fs.node d = some (.dir mode up slots))
    (hlive : ∀ s ∈ slots, ¬s.name.IsDots → s.ino.isSome) (hfirst : firstName slots = some n) :
    ∃ i, fs.child d n = some i := by
  have hdots := not_isDots_of_firstName hfirst
  obtain ⟨s, hs, rfl⟩ := Option.map_eq_some_iff.1 hfirst
  have hmem := List.mem_of_find?_eq_some hs
  obtain ⟨i, hi⟩ := Option.isSome_iff_exists.1 (hlive s hmem hdots)
  refine ⟨i, ?_⟩
  unfold Fs.child
  rw [hnode]
  dsimp only
  rw [if_neg hdots, findSlot_eq_some_iff (fs.nodup d mode up slots hnode), ← hi]
  exact hmem

/-- **A removal that succeeds** where no missing child is passed over took an entry away. -/
theorem child_gone {w₁ w₂ : World} (hget : w₁.fs.get false path = .ok (top, .dir mode up slots))
    (hfirst : firstName slots = some n) (hjoin : joinPath maxpath path n.bytes = .ok p)
    (hquiet : Quiet force w₁ path)
    (hrem : Settles (fun m => removePath maxpath m p true force) w₁ (.ok ()) w₂) :
    (w₁.fs.child top n).isSome ∧ w₂.fs.child top n = none := by
  obtain ⟨place, hplace, -, hnode⟩ := Fs.get_eq_ok.1 hget
  have hbelow := below_of_joinPath (Fs.ne_nil_of_resolve hplace) hjoin
  have hbelow_iff := fun i => Fs.get_below_iff (i := i) hbelow hget (Fs.link_of_kind hget rfl)
    (not_isDots_of_firstName hfirst)
  rcases hgetp : w₁.fs.get false p with e | ⟨i, x⟩
  · -- nothing is there, and that was no error
    rcases pathStep maxpath p force w₁ with h | ⟨hforce, -, -⟩ | ⟨hp, -⟩ | ⟨hp, -⟩
    · exact absurd (h.unique hrem).1 nofun
    · obtain hnot | ⟨-, hnodead⟩ := hquiet
      · exact absurd (hforce.symm.trans hnot) nofun
      · obtain ⟨i, hi⟩ := exists_child_of_firstName hnode
          (hnodead top _ hget top .top mode up slots hnode) hfirst
        obtain ⟨y, hy⟩ := (hbelow_iff i).2 hi
        exact absurd (hgetp.symm.trans hy) nofun
    · exact absurd (hgetp.symm.trans hp) nofun
    · exact absurd (hgetp.symm.trans hp) nofun
  · have hi := (hbelow_iff i).1 ⟨x, hgetp⟩
    obtain ⟨m, hrun⟩ := hrem.exists_runs
    obtain ⟨⟨d, n', hentry, hnone⟩, -⟩ := (removePath_spec hrun).gone i x hgetp rfl
    rw [Fs.findEntry_below hbelow] at hentry
    obtain ⟨place', d', o, hplace', hd', -, heq⟩ := (Fs.find_below hbelow).1 hentry
    obtain ⟨rfl, rfl, rfl⟩ := Place.entry.inj heq
    obtain ⟨place₁, hplace₁, htop⟩ := Fs.resolve_comps_of_get hget (Fs.link_of_kind hget rfl)
    obtain rfl := Except.ok.inj (hplace'.symm.trans hplace₁)
    obtain rfl := Option.some.inj (hd'.symm.trans htop)
    exact ⟨hi ▸ rfl, hnone⟩

/-- One that counted does not count any more. -/
theorem countP_lt {α : Type} {l : List α} {a : α} {P Q : α → Bool} (ha : a ∈ l)
    (hPQ : ∀ b ∈ l, Q b = true → P b = true) (hP : P a = true) (hQ : Q a = false) :
    l.countP Q < l.countP P := by
  obtain ⟨s, t, rfl⟩ := List.append_of_mem ha
  have hs := List.countP_mono_left (l := s) fun b hb => hPQ b (List.mem_append_left _ hb)
  have ht := List.countP_mono_left (l := t) fun b hb =>
    hPQ b (List.mem_append_right _ (List.mem_cons_of_mem a hb))
  rw [List.countP_append, List.countP_append, List.countP_cons_of_pos hP,
    List.countP_cons_of_neg (by rw [hQ]; exact Bool.false_ne_true)]
  omega

/-- **The loop over the children ends**, by induction on the children that are left. -/
theorem exists_loopSettles (hget : fs.get false path = .ok (top, .dir mode up slots))
    (hchild : ∀ p (n : Name), joinPath maxpath path n.bytes = .ok p → ∀ w, Quiet force w p →
      ∃ r w', Settles (fun m => removePath maxpath m p true force) w r w')
    (hs : Shrinks fs w.fs)
    (hquiet : force = false ∨ LeavesNone w.env ∧ NoDead w.fs top) :
    ∃ r w', LoopSettles maxpath path force w r w' := by
  induction hleft : slots.countP (fun s => (w.fs.child top s.name).isSome) using Nat.strongRecOn
    generalizing w with
  | ind left ih =>
    rcases loopStep maxpath path force w with h | ⟨-, -, h, -, -⟩ |
      ⟨hopen, hfirst, hjoin, hfs, henv, herror, hok⟩
    · exact ⟨_, _, h⟩
    · exact ⟨_, _, h⟩
    · rename_i top' up' mode' slots' n p w₁
      obtain ⟨rfl, hget₁⟩ := Fs.get_sub hs.sub hget (Fs.link_of_kind hget rfl) hopen
      rw [← hfs] at hget₁
      have hquiet₁ : Quiet force w₁ path := by
        refine hquiet.imp_right fun h => ⟨henv ▸ h.1, fun top x hx => ?_⟩
        obtain ⟨rfl, -⟩ := Prod.mk.inj (Except.ok.inj (hget₁.symm.trans hx))
        exact hfs ▸ h.2
      have hquietp : Quiet force w₁ p := by
        refine hquiet₁.imp_right fun h => ⟨h.1, fun i x hx d hd => ?_⟩
        obtain ⟨place, hplace, -⟩ := Fs.get_eq_ok.1 hget₁
        have hi := (Fs.get_below_iff (below_of_joinPath (Fs.ne_nil_of_resolve hplace) hjoin) hget₁
          (Fs.link_of_kind hget₁ rfl) (not_isDots_of_firstName hfirst)).1 ⟨x, hx⟩
        exact h.2 _ _ hget₁ d ((InTree.child .top hi).trans hd)
      obtain ⟨r, w₂, hrem⟩ := hchild p n hjoin w₁ hquietp
      rcases r with e | _
      · exact ⟨_, _, herror e w₂ hrem⟩
      obtain ⟨hbefore, hafter⟩ := child_gone hget₁ hfirst hjoin hquiet₁ hrem
      obtain ⟨m, hrun⟩ := hrem.exists_runs
      have hs₂ : Shrinks w.fs w₂.fs := hfs ▸ (removePath_spec hrun).shrinks
      have hthin := thins_removePath maxpath m p true force _ _ _ hrun
      rw [hfs] at hbefore
      have hquiet₂ : force = false ∨ LeavesNone w₂.env ∧ NoDead w₂.fs top' := by
        refine hquiet.imp_right fun h => ?_
        have hnone : LeavesNone w₁.env := henv ▸ h.1
        refine ⟨hthin.env ▸ hnone, fun d hd mode up slots hnode s hmem hdots => ?_⟩
        obtain ⟨slots', hnode', hsub⟩ := hthin.slots hnone d mode up slots hnode
        exact h.2 d (hs₂.sub.inTree hd) mode up slots' (hfs ▸ hnode') s (hsub s hmem) hdots
      have hless : slots.countP (fun s => (w₂.fs.child top' s.name).isSome) < left := by
        obtain ⟨i, hi⟩ := Option.isSome_iff_exists.1 hbefore
        have hi' := hs.sub.child hi
        obtain ⟨-, -, -, hnode⟩ := Fs.get_eq_ok.1 hget
        unfold Fs.child at hi'
        rw [hnode] at hi'
        dsimp only at hi'
        rw [if_neg (not_isDots_of_firstName hfirst),
          findSlot_eq_some_iff (fs.nodup _ mode up slots hnode)] at hi'
        rw [← hleft]
        refine countP_lt hi' (fun s _ hlater => ?_) hbefore ?_
        · obtain ⟨j, hj⟩ := Option.isSome_iff_exists.1 hlater
          rw [hs₂.sub.child hj]
          rfl
        · dsimp only
          rw [hafter]
          rfl
      obtain ⟨r', w', hloop⟩ := ih _ hless (hs.trans hs₂) hquiet₂ rfl
      exact ⟨r', w', hok w₂ r' w' hrem hloop⟩

/-- **The removal ends** where no record is dead, or without `force`. -/
theorem exists_settles_removePath (hquiet : Quiet force w path) :
    ∃ r w', Settles (fun m => removePath maxpath m path true force) w r w' := by
  induction hleft : maxpath - dropSlashes path path.length using Nat.strongRecOn
    generalizing path w with
  | ind left ih =>
    rcases pathStep maxpath path force w with h | ⟨-, -, h⟩ | ⟨-, -, -, -, h⟩ |
      ⟨hget, hbase, hfs, henv, herror, hok⟩
    · exact ⟨_, _, h⟩
    · exact ⟨_, _, h⟩
    · exact ⟨_, _, h⟩
    · rename_i top up mode slots w₁
      obtain ⟨place, hplace, -⟩ := Fs.get_eq_ok.1 hget
      have hne := Fs.ne_nil_of_resolve hplace
      have hquiet₁ : force = false ∨ LeavesNone w₁.env ∧ NoDead w₁.fs top :=
        hquiet.imp_right fun h => ⟨henv ▸ h.1, hfs ▸ h.2 top _ hget⟩
      have hchild : ∀ p (n : Name), joinPath maxpath path n.bytes = .ok p → ∀ w, Quiet force w p →
          ∃ r w', Settles (fun m => removePath maxpath m p true force) w r w' := by
        intro p n hjoin w hquietp
        obtain ⟨hlong, hfits, -⟩ := length_joinPath hjoin
        rw [← dropSlashes_joinPath hne hjoin] at hlong hfits
        exact ih (maxpath - dropSlashes p p.length) (by omega) hquietp rfl
      obtain ⟨r, w₂, hloop⟩ :=
        exists_loopSettles hget hchild (hfs ▸ Shrinks.refl w.fs) hquiet₁
      rcases r with e | _
      · exact ⟨_, _, herror e w₂ hloop⟩
      · obtain ⟨r, w', hrun⟩ := exists_runs_unlinkPath force path w₂
        exact ⟨r, w', hok w₂ r w' hloop hrun⟩

/-- A removal that has no child to remove ends. -/
theorem exists_settles_of_no_child
    (hno : ∀ top mode up slots n, w.fs.get false path = .ok (top, .dir mode up slots) →
      firstName slots ≠ some n) :
    ∃ r w', Settles (fun m => removePath maxpath m path true force) w r w' := by
  rcases pathStep maxpath path force w with h | ⟨-, -, h⟩ | ⟨-, -, -, -, h⟩ |
    ⟨hget, hbase, hfs, henv, herror, hok⟩
  · exact ⟨_, _, h⟩
  · exact ⟨_, _, h⟩
  · exact ⟨_, _, h⟩
  · have hleaf : Leaf w.fs path := by
      refine ⟨_, _, hget, fun mode up slots hx => ?_⟩
      rcases hfirst : firstName slots with _ | n
      · rfl
      · exact absurd hfirst (hno _ mode up slots n (hx ▸ hget))
    obtain ⟨r, w', h, -⟩ := settles_leaf maxpath force hleaf
    exact ⟨r, w', h⟩

/-! ### Exactly when a removal ends -/

/-- `fsutil_remove_path(path, 1, force)` ends, whatever the kernel decides that `P` allows. -/
def Ends (maxpath : ℕ) (P : (ℕ → Call → Outcome) → Prop) (fs : Fs) (path : Path) (force : Bool) :
    Prop :=
  ∀ env calls, P env →
    ∃ fuel r w', Runs (removePath maxpath fuel path true force) ⟨fs, env, calls⟩ r w'

/-- **When `fsutil_remove_path` ends.**  Whatever the kernel decides, it ends exactly without
`force` or where it cannot go on for ever; and where removals leave no slots, it ends when no
record in the tree is dead. -/
theorem removePath_ends_iff (maxpath : ℕ) (fs : Fs) (path : Path) (force : Bool) :
    (Ends maxpath (fun _ => True) fs path force ↔ force = false ∨ ¬Loops maxpath fs path) ∧
      ((∀ top x, fs.get false path = .ok (top, x) → NoDead fs top) →
        Ends maxpath LeavesNone fs path force) := by
  have hsettles : ∀ w : World, (∃ r w', Settles (fun m => removePath maxpath m path true force)
      w r w') → ∃ fuel r w', Runs (removePath maxpath fuel path true force) w r w' := by
    rintro w ⟨r, w', h⟩
    obtain ⟨fuel, hrun⟩ := h.exists_runs
    exact ⟨fuel, r, w', hrun⟩
  constructor
  · constructor
    · intro hends
      cases force with
      | false => exact .inl rfl
      | true =>
        refine .inr fun hloops => ?_
        obtain ⟨fuel, r, w', hrun⟩ := hends (fun _ _ => ⟨none, 1, 0, true, 0⟩) [] trivial
        exact hloops.not_runs rfl (fun _ _ => ⟨rfl, rfl⟩) hrun
    · intro hcond env calls _
      refine hsettles _ ?_
      rcases hcond with hforce | hnot
      · exact exists_settles_removePath (.inl hforce)
      cases force with
      | false => exact exists_settles_removePath (.inl rfl)
      | true =>
        by_cases hchild : ∃ top mode up slots n, fs.get false path = .ok (top, .dir mode up slots) ∧
            firstName slots = some n
        · obtain ⟨top, mode, up, slots, n, hget, hfirst⟩ := hchild
          obtain ⟨e, w', h⟩ := settles_error_of_not_loops (w := ⟨fs, env, calls⟩) hget hfirst hnot
          exact ⟨_, w', h⟩
        · exact exists_settles_of_no_child fun top mode up slots n hget hfirst =>
            hchild ⟨top, mode, up, slots, n, hget, hfirst⟩
  · intro hnodead env calls hnone
    exact hsettles _ (exists_settles_removePath (.inr ⟨hnone, hnodead⟩))

/-- `/d`, where the slot of a file that was removed is dead, is never removed. -/
theorem removePath_dead_loops : ¬∀ (fs : Fs) (env : ℕ → Call → Outcome) (path : Path) (force : Bool),
    ∃ fuel r w', Runs (removePath 512 fuel path true force) ⟨fs, env, []⟩ r w' := by
  intro hall
  have hchild : FirstChild 512 (smallFs.remove true ⟨0, 1⟩ ⟨[102], by decide, by decide⟩) [47, 100]
      ⟨0, 1⟩ ⟨[102], by decide, by decide⟩ [47, 100, 47, 102] :=
    ⟨⟨_, _, _, rfl, rfl⟩, ⟨_, rfl, rfl⟩, rfl⟩
  obtain ⟨fuel, r, w', hrun⟩ := hall _ (fun _ _ => ⟨none, 1, 0, true, 0⟩) [47, 100] true
  exact (Loops.missing hchild rfl).not_runs rfl (fun _ _ => ⟨rfl, rfl⟩) hrun

end Ends

end Fsutil
end V6User
