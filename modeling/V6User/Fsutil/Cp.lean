import V6User.Fsutil.CopyTree
import V6User.Fsutil.Target

/-!
# `cp`

`programs/cp/cp.c`: the option, and `fsutil_resolve_target` and `fsutil_copy_path` for one
source after another.

A recursive copy of several trees into a directory is one copy after another, each with a
place of its own in the directory.  What one of them makes is new, so it leaves alone what the
others made (`Filled.step`), and the sources, which the directory is not in.  When `cp` ends with
the status 0, the directory has a tree for each source that is the same as it (`cp_fills`).
-/

namespace V6User
namespace Fsutil

open Vfs Effect

/-! ### The program -/

/-- What `cp` prints to the standard error. -/
inductive CpMessage where
  /-- `cp: unknown option -%c` -/
  | unknownOption (c : UInt8)
  /-- `Usage: cp [-r|-R] source... destination` -/
  | usage
  /-- `cp: cannot use %s as destination for %s (%d)` -/
  | noTarget (dst src : Path) (e : Errno)
  /-- `cp: failed to copy %s to %s (%d)` -/
  | failed (src dst : Path) (e : Errno)

/-- The loop over the letters of an option: `recursive`. -/
def cpFlags (recursive : Bool) : List UInt8 → Except CpMessage Bool
  | [] => .ok recursive
  | c :: s => if c = 114 ∨ c = 82 then cpFlags true s else .error (.unknownOption c)

/-- The loop over the arguments before the first that is no option. -/
def cpOptions (recursive : Bool) : List Path → Except CpMessage (Bool × List Path)
  | [] => .ok (recursive, [])
  | (45 :: c :: s) :: args => do
    let recursive ← cpFlags recursive (c :: s)
    cpOptions recursive args
  | args => .ok (recursive, args)

/-- The loop over the sources: what it prints. -/
def cpSources (maxpath fuel : ℕ) (recursive many : Bool) (dst : Path) :
    List Path → Prog (List CpMessage)
  | [] => pure []
  | src :: srcs => do
    match ← attempt (resolveTarget maxpath maxpath src dst many) with
    | .error e => do
      let later ← cpSources maxpath fuel recursive many dst srcs
      pure (.noTarget dst src e :: later)
    | .ok target => do
      let ret ← attempt (copyPath maxpath fuel src target recursive)
      let later ← cpSources maxpath fuel recursive many dst srcs
      match ret with
      | .ok () => pure later
      | .error e => pure (.failed src target e :: later)

/-- `main`: the exit status, and what it prints. -/
def cp (maxpath fuel : ℕ) (args : List Path) : Prog (ℕ × List CpMessage) :=
  match cpOptions false args with
  | .error m => pure (1, [m])
  | .ok (recursive, paths) =>
    match paths.getLast?, paths.dropLast with
    | some dst, src :: srcs => do
      let said ← cpSources maxpath fuel recursive (2 < paths.length) dst (src :: srcs)
      pure (if said.isEmpty then 0 else 1, said)
    | _, _ => pure (1, [.usage])

/-! ### A directory that is filled -/

/-- A source: its path, its last component and what `lstat` finds there. -/
structure Source where
  path : Path
  name : Name
  ino : Ino

/-- The source can be copied into the directory `d`: `d` is not in its tree, and has no entry
with its name. -/
structure Source.Fits (fs : Fs) (d : Ino) (x : Source) : Prop where
  found : ∃ y, fs.get false x.path = .ok (x.ino, y)
  last : LastComponent x.path x.name.bytes
  name : ¬x.name.IsDots
  outside : ¬InTree fs x.ino d
  free : fs.child d x.name = none

/-- The directory `d` was given an entry for each of the sources, with a tree that is the same,
and everything else is as it was. -/
structure Filled (fs : Fs) (d : Ino) (done : List Source) (fs' : Fs) : Prop where
  sub : Sub fs fs'
  node : ∀ i, (fs.node i).isSome → i ≠ d → fs'.node i = fs.node i
  child : ∀ m, (∀ x ∈ done, x.name ≠ m) → fs'.child d m = fs.child d m
  tree : ∀ x ∈ done, ∃ t, fs'.child d x.name = some t ∧ SameTree fs fs' x.ino t ∧
    ¬InTree fs' t d

section Filled

variable {fs fs₁ fs' : Fs} {d s t i : Ino} {n : Name} {x : Source} {done : List Source}
  {target dst : Path}

theorem Filled.refl (fs : Fs) (d : Ino) : Filled fs d [] fs where
  sub := Sub.refl fs
  node _ _ _ := rfl
  child _ _ := rfl
  tree _ hx := absurd hx List.not_mem_nil

theorem Source.Fits.isSome (h : x.Fits fs d) : (fs.node x.ino).isSome := by
  obtain ⟨y, hget⟩ := h.found
  obtain ⟨-, -, -, hy⟩ := Fs.get_eq_ok.1 hget
  exact hy ▸ rfl

/-- The sources stay as they are. -/
theorem Filled.sameNodes (h : Filled fs d done fs') (hx : x.Fits fs d) :
    SameNodes x.ino fs fs' := by
  intro i hi
  refine h.node i (hi.isSome hx.isSome) ?_
  rintro rfl
  exact hx.outside hi

/-- **One more source** is copied into the directory. -/
theorem Filled.step (h : Filled fs d done fs₁) (hx : x.Fits fs d) (hd : (fs.node d).isSome)
    (hnew : ∀ y ∈ done, y.name ≠ x.name) (hgrown : Grown fs₁ fs' d x.name t)
    (hsame : SameTree fs₁ fs' x.ino t) : Filled fs d (done ++ [x]) fs' where
  sub := h.sub.trans hgrown.sub
  node i hi hne := (hgrown.node i (h.sub.isSome i hi) hne).trans (h.node i hi hne)
  child m hm := by
    have hne : m ≠ x.name := fun heq =>
      hm x (List.mem_append_right _ (List.mem_singleton_self x)) heq.symm
    rw [hgrown.child, if_neg hne]
    exact h.child m fun y hy => hm y (List.mem_append_left _ hy)
  tree y hy := by
    rcases List.mem_append.1 hy with hy | hy
    · obtain ⟨u, hu, htree, hout⟩ := h.tree y hy
      have hkept := hgrown.sameNodes (Fs.isSome_of_child hu) hout
      refine ⟨u, ?_, htree.congr (fun _ _ => rfl) hkept, fun hin => hout (hkept.inTree_iff.1 hin)⟩
      rw [hgrown.child, if_neg (hnew y hy)]
      exact hu
    · obtain rfl := List.mem_singleton.1 hy
      refine ⟨t, (hgrown.child _).trans (if_pos rfl), ?_, fun hin => ?_⟩
      · exact hsame.congr (h.sameNodes hx).symm fun _ _ => rfl
      · -- what the copy made is new
        have hnone := hgrown.fresh d hin
        have hsome := h.sub.isSome d hd
        rw [hnone] at hsome
        cases hsome

/-- A directory is one where there is more. -/
theorem dir_of_sub (hs : Sub fs fs') {mode : ℕ} {up : Ino} {slots : List Slot}
    (hdir : fs.node d = some (.dir mode up slots)) :
    ∃ mode up slots, fs'.node d = some (.dir mode up slots) := by
  have hdot : fs.node.entry d Name.dot = .ok (some d) := by
    unfold Nodes.entry
    rw [hdir]
    exact if_pos rfl
  have hdot' := hs.entry d Name.dot d hdot
  unfold Nodes.entry at hdot'
  split at hdot'
  · next mode up slots hnode => exact ⟨mode, up, slots, hnode⟩
  · exact absurd hdot'.symm (ok_ne_error _ _)

/-- The entry of a directory that it does not have. -/
theorem entry_none {mode : ℕ} {up : Ino} {slots : List Slot}
    (hdir : fs.node d = some (.dir mode up slots)) (hn : ¬n.IsDots) (hnone : fs.child d n = none) :
    fs.node.entry d n = .ok none := by
  unfold Fs.child at hnone
  unfold Nodes.entry
  rw [hdir] at hnone ⊢
  dsimp only at hnone ⊢
  rw [if_neg hn] at hnone
  rw [if_neg fun h => hn (.inl h), if_neg fun h => hn (.inr h), hnone]

/-- The path of a directory leads to it where there is more. -/
theorem get_dir_of_sub (hs : Sub fs fs') {mode : ℕ} {up : Ino} {slots : List Slot}
    (hdst : fs.get false dst = .ok (d, .dir mode up slots)) :
    ∃ mode up slots, fs'.get false dst = .ok (d, .dir mode up slots) := by
  obtain ⟨y, hget⟩ := Fs.get_mono hs hdst
  obtain ⟨-, -, -, hnode⟩ := Fs.get_eq_ok.1 hdst
  obtain ⟨mode', up', slots', hdir⟩ := dir_of_sub hs hnode
  obtain ⟨-, -, -, hy⟩ := Fs.get_eq_ok.1 hget
  obtain rfl := Option.some.inj (hy.symm.trans hdir)
  exact ⟨mode', up', slots', hget⟩

/-- **The place of a source** in the directory, before it is copied there. -/
theorem Filled.place (h : Filled fs d done fs') (hx : x.Fits fs d)
    (hnew : ∀ y ∈ done, y.name ≠ x.name) {mode : ℕ} {up : Ino} {slots : List Slot}
    (hdst : fs'.get false dst = .ok (d, .dir mode up slots))
    (hbelow : Below dst target x.name) : fs'.find false target = .ok (.entry d x.name none) := by
  obtain ⟨-, -, -, hdir⟩ := Fs.get_eq_ok.1 hdst
  have hlink : fs'.node.link d = none := by
    unfold Nodes.link
    rw [hdir]
  obtain ⟨place, hplace, hd⟩ := Fs.resolve_comps_of_get hdst hlink
  have hnone : fs'.child d x.name = none := (h.child x.name hnew).trans hx.free
  exact (Fs.find_below hbelow).2 ⟨place, d, none, hplace, hd, entry_none hdir hx.name hnone, rfl⟩

end Filled

/-! ### The runs -/

/-- The calls that were made stay, and so does what the kernel decides. -/
structure Later (w w' : World) : Prop where
  calls : w.calls <:+ w'.calls
  env : w'.env = w.env

instance : Std.Refl Later := ⟨fun w => ⟨List.suffix_refl w.calls, rfl⟩⟩

instance : IsTrans World Later :=
  ⟨fun _ _ _ h h' => ⟨h.calls.trans h'.calls, h'.env.trans h.env⟩⟩

section Runs

variable {maxpath fuel : ℕ} {many : Bool} {src dst target : Path} {w w' w₁ : World} {d : Ino}

theorem later_sys {α : Type} {c : Call} {f : Outcome → Fs → Except Errno (α × Fs)} :
    Keeps Later (sys c f) := by
  intro w r w' h
  obtain ⟨henv, hcalls, -⟩ := runs_sys h
  exact ⟨hcalls ▸ List.suffix_cons _ _, henv⟩

theorem later_look {α : Type} {c : Call} {f : Outcome → Fs → Except Errno α} :
    Keeps Later (look c f) := later_sys

theorem later_change {c : Call} {f : Outcome → Fs → Except Errno Fs} :
    Keeps Later (change c f) := later_sys

theorem later_copyPath (fuel : ℕ) (src dst : Path) (recursive : Bool) :
    Keeps Later (copyPath maxpath fuel src dst recursive) := by
  have htame : Tame Later :=
    ⟨fun _ _ => later_look, fun _ _ _ _ => later_change, fun _ _ => later_change⟩
  have hopen : ∀ p, KeepsOpened Later (openWrite p) := by
    intro p k herror hok
    refine Keeps.bind (Keeps.attempt later_sys) fun x => ?_
    cases x with
    | error e => exact herror e
    | ok t => exact hok t fun _ _ => later_sys
  have hunlink : ∀ p, Keeps Later (unlink p) := fun _ => later_change
  have hread : ∀ p, Keeps Later (openRead p) := fun _ => later_look
  exact keeps_copyPathVia (c := systemCalls) htame hread hopen hunlink fuel src dst recursive

theorem later_resolveTarget (src dst : Path) (many : Bool) :
    Keeps Later (resolveTarget maxpath maxpath src dst many) := by
  unfold resolveTarget
  refine Keeps.bind (Keeps.attempt later_look) fun ret => ?_
  split_ifs
  · exact Keeps.throw _
  · exact Keeps.bind (Keeps.ofExcept _) fun _ => Keeps.ofExcept _
  · exact Keeps.throw _
  · exact Keeps.pure _

theorem later_cpSources (recursive many : Bool) (dst : Path) (srcs : List Path) :
    Keeps Later (cpSources maxpath fuel recursive many dst srcs) := by
  induction srcs with
  | nil => exact Keeps.pure _
  | cons src srcs ih =>
    refine Keeps.bind (Keeps.attempt (later_resolveTarget src dst many)) fun target => ?_
    cases target with
    | error e => exact Keeps.bind ih fun _ => Keeps.pure _
    | ok target =>
      refine Keeps.bind (Keeps.attempt (later_copyPath fuel src target recursive)) fun ret => ?_
      refine Keeps.bind ih fun later => ?_
      cases ret with
      | error e => exact Keeps.pure _
      | ok u => exact Keeps.pure _

/-- Where the destination is a directory, the target is in it; for a single source, this takes
an `lstat` that does not fail. -/
theorem runs_resolveTarget_ok {mode : ℕ} {up : Ino} {slots : List Slot}
    (hdst : w.fs.get false dst = .ok (d, .dir mode up slots))
    (hlstat : many = true ∨ ∀ k, (w.env k (.lstat dst)).fault = none)
    (h : Runs (resolveTarget maxpath maxpath src dst many) w (.ok target) w₁) :
    w₁.fs = w.fs ∧ ∃ base, copyBasename maxpath src = .ok base ∧
      joinPath maxpath dst base = .ok target := by
  obtain ⟨ret, w₂, hrun, hrest⟩ := runs_attempt_bind.1 h
  obtain ⟨hfs, -, ⟨e, hfault, rfl⟩ | hret⟩ := runs_look_outcome hrun
  · rcases hlstat with rfl | hnone
    · rw [isDir] at hrest
      exact absurd (runs_throw.1 hrest).1 (ok_ne_error _ _)
    · rw [hnone] at hfault
      cases hfault
  · have hst : w.fs.statOf false dst = .ok ⟨d, .dir, mode⟩ := by
      unfold Fs.statOf
      rw [hdst]
      rfl
    rw [hst] at hret
    subst hret
    obtain ⟨rfl, hr⟩ := (runs_resolveTarget_dir hrun rfl).1 h
    refine ⟨hfs, ?_⟩
    rcases hbase : copyBasename maxpath src with e | base
    · rw [hbase] at hr
      exact absurd hr (ok_ne_error _ _)
    · rw [hbase] at hr
      exact ⟨base, rfl, hr.symm⟩

/-- **One source after another** fills the directory. -/
theorem fills_sources {fs : Fs} {mode : ℕ} {up : Ino} {slots : List Slot}
    (hdst : fs.get false dst = .ok (d, .dir mode up slots))
    (hlstat : many = true ∨ ∀ k, (w.env k (.lstat dst)).fault = none) {done rest : List Source}
    (hfits : ∀ x ∈ rest, x.Fits fs d) (hnames : ((done ++ rest).map Source.name).Nodup)
    (hfilled : Filled fs d done w.fs) (hlinks : LinksCopied w w')
    (h : Runs (cpSources maxpath fuel true many dst (rest.map Source.path)) w (.ok []) w') :
    Filled fs d (done ++ rest) w'.fs := by
  induction rest generalizing done w with
  | nil =>
    obtain ⟨-, rfl⟩ := runs_pure.1 h
    rw [List.append_nil]
    exact hfilled
  | cons x rest ih =>
    have hx : x.Fits fs d := hfits x List.mem_cons_self
    have hnew : ∀ y ∈ done, y.name ≠ x.name := by
      intro y hy heq
      rw [List.map_append, List.nodup_append] at hnames
      exact hnames.2.2 _ (List.mem_map_of_mem hy) _ (List.mem_map_of_mem List.mem_cons_self) heq
    obtain ⟨ret, w₁, hresolve, h⟩ := runs_attempt_bind.1 h
    rcases ret with e | target
    · -- a message was printed
      rcases runs_bind.1 h with ⟨e', -, he⟩ | ⟨later, w₂, -, h⟩
      · exact absurd he (ok_ne_error _ _)
      · exact absurd (Except.ok.inj (runs_pure.1 h).1) (List.cons_ne_nil _ _).symm
    obtain ⟨ret, w₂, hcopy, h⟩ := runs_attempt_bind.1 h
    rcases runs_bind.1 h with ⟨e', -, he⟩ | ⟨later, w₃, hlater, h⟩
    · exact absurd he (ok_ne_error _ _)
    rcases ret with e | u
    · exact absurd (Except.ok.inj (runs_pure.1 h).1) (List.cons_ne_nil _ _).symm
    obtain ⟨he, rfl⟩ := runs_pure.1 h
    obtain rfl := Except.ok.inj he
    -- where the calls of the copy are among all of them
    have hbefore := later_resolveTarget x.path dst many _ _ _ hresolve
    have hduring := later_copyPath fuel x.path target true _ _ _ hcopy
    have hafter := later_cpSources true many dst (rest.map Source.path) _ _ _ hlater
    obtain ⟨mode', up', slots', hdst'⟩ := get_dir_of_sub hfilled.sub hdst
    obtain ⟨hfs, base, hbase, hjoin⟩ := runs_resolveTarget_ok hdst' hlstat hresolve
    obtain rfl := copyBasename_component hx.last hbase
    obtain ⟨dirPlace, hdirPlace, -⟩ := Fs.get_eq_ok.1 hdst
    have hbelow := below_of_joinPath (Fs.ne_nil_of_resolve hdirPlace) hjoin
    have hplace := hfilled.place hx hnew hdst' hbelow
    have hentry : w.fs.findEntry target = .ok (.entry d x.name none) :=
      (Fs.findEntry_below hbelow).trans hplace
    rw [← hfs] at hplace hentry hfilled
    obtain ⟨y, hfound⟩ := hx.found
    obtain ⟨y', hfound'⟩ := Fs.get_mono hfilled.sub hfound
    have hsame := hfilled.sameNodes hx
    obtain ⟨d', n', t, hcopied⟩ := copyPath_copiesTrees maxpath fuel x.path target w₁ w₂ x.ino y'
      hcopy (hlinks.mono hbefore.calls hafter.calls) hfound'
      (fun place hp => by rw [← Except.ok.inj (hplace.symm.trans hp)]; rfl) fun e m hp hin => by
        obtain ⟨rfl, rfl, -⟩ := Place.entry.inj (Except.ok.inj (hentry.symm.trans hp))
        exact hx.outside (hsame.inTree_iff.1 hin)
    obtain ⟨rfl, rfl, -⟩ := Place.entry.inj (Except.ok.inj (hentry.symm.trans hcopied.found))
    have hd : (fs.node d).isSome := by
      obtain ⟨-, -, -, hnode⟩ := Fs.get_eq_ok.1 hdst
      exact hnode ▸ rfl
    have hstep := hfilled.step hx hd hnew hcopied.toGrown hcopied.same
    have happend : done ++ x :: rest = done ++ [x] ++ rest := by
      rw [List.append_assoc]
      rfl
    rw [happend] at hnames ⊢
    refine ih ?_ (fun z hz => hfits z (List.mem_cons_of_mem _ hz)) hnames hstep ?_ hlater
    · rwa [hduring.env, hbefore.env]
    · exact hlinks.mono (hbefore.calls.trans hduring.calls) (List.suffix_refl _)

/-- **`cp -r` of several trees into a directory.**  Each source has a last component of its own,
which the directory has no entry for, and the directory is not in its tree.  If `cp` ends with
the status 0, and no symbolic link had to be followed because it could not be copied, it said
nothing, and the directory has a tree under the name of each source that is the same as the
source was.  The sources and everything else but the directory are as they were, and so are its
other entries. -/
theorem cp_fills {args : List Path} {sources : List Source} {said : List CpMessage} {mode : ℕ}
    {up : Ino} {slots : List Slot}
    (hargs : cpOptions false args = .ok (true, sources.map Source.path ++ [dst]))
    (hdst : w.fs.get false dst = .ok (d, .dir mode up slots))
    (hlstat : 2 ≤ sources.length ∨ ∀ k, (w.env k (.lstat dst)).fault = none)
    (hfits : ∀ x ∈ sources, x.Fits w.fs d) (hnames : (sources.map Source.name).Nodup)
    (hlinks : LinksCopied w w') (h : Runs (cp maxpath fuel args) w (.ok (0, said)) w') :
    said = [] ∧
      (∀ x ∈ sources, ∃ t, w'.fs.child d x.name = some t ∧ SameTree w.fs w'.fs x.ino t ∧
        SameNodes x.ino w.fs w'.fs) ∧
      (∀ i, (w.fs.node i).isSome → i ≠ d → w'.fs.node i = w.fs.node i) ∧
      ∀ m, (∀ x ∈ sources, x.name ≠ m) → w'.fs.child d m = w.fs.child d m := by
  unfold cp at h
  rw [hargs] at h
  dsimp only at h
  rw [List.getLast?_concat, List.dropLast_concat] at h
  rcases sources with _ | ⟨x, sources⟩
  · exact absurd (Prod.mk.inj (Except.ok.inj (runs_pure.1 h).1)).1 (by decide)
  rcases runs_bind.1 h with ⟨e, -, he⟩ | ⟨said', w₁, hrun, h⟩
  · exact absurd he (ok_ne_error _ _)
  obtain ⟨hsaid, rfl⟩ := runs_pure.1 h
  obtain ⟨hstatus, rfl⟩ := Prod.mk.inj (Except.ok.inj hsaid)
  obtain rfl : said = [] := by
    by_contra hne
    rw [List.isEmpty_eq_false_iff.2 hne] at hstatus
    exact absurd hstatus (by decide)
  have hmany : decide (2 < ((x :: sources).map Source.path ++ [dst]).length) = true ∨
      ∀ k, (w.env k (.lstat dst)).fault = none := by
    refine hlstat.imp_left fun hlen => decide_eq_true ?_
    rw [List.length_append, List.length_map, List.length_singleton]
    exact Nat.lt_succ_of_le hlen
  have hfilled : Filled w.fs d ([] ++ x :: sources) w'.fs :=
    fills_sources hdst hmany hfits hnames (.refl _ _) hlinks hrun
  refine ⟨rfl, fun y hy => ?_, hfilled.node, hfilled.child⟩
  obtain ⟨t, hchild, htree, -⟩ := hfilled.tree y hy
  exact ⟨t, hchild, htree, hfilled.sameNodes (hfits y hy)⟩

end Runs

/-! ### A directory and a file -/

/-- The file system with two bytes in `/d/f`, a file `/g` with one, and an empty directory `/e`. -/
def treesFs : Fs :=
  (((smallFs.make ⟨0, 0⟩ (nameOf 103 (by decide)) 0 (.file 0o600) rfl).make ⟨0, 0⟩
    (nameOf 101 (by decide)) 0 (.folder 0o755) rfl).alter ⟨0, 2⟩ (Node.setData [121, 120])
      (sameShape_setData _)).alter ⟨0, 3⟩ (Node.setData [122]) (sameShape_setData _)

/-- No call reports an error, and each one transfers one byte. -/
def treesWorld : World where
  fs := treesFs
  env := smallWorld.env
  calls := []

/-- The directory `/d` and the file `/g` as sources. -/
def folderSource : Source := ⟨[47, 100], nameOf 100 (by decide), ⟨0, 1⟩⟩

def fileSource : Source := ⟨[47, 103], nameOf 103 (by decide), ⟨0, 3⟩⟩

theorem nodes_treesFs : treesFs.node ⟨0, 1⟩ = some (.dir 0o700 ⟨0, 0⟩
      [⟨nameOf 102 (by decide), some ⟨0, 2⟩⟩]) ∧
    treesFs.node ⟨0, 2⟩ = some (.reg 0o640 [121, 120]) ∧
    treesFs.node ⟨0, 3⟩ = some (.reg 0o600 [122]) :=
  ⟨rfl, rfl, rfl⟩

/-- What is no directory has nothing below it. -/
theorem leaf_treesFs {i : Ino} (hi : i = ⟨0, 2⟩ ∨ i = ⟨0, 3⟩) (m : Name) :
    treesFs.child i m = none := by
  obtain ⟨-, hf, hg⟩ := nodes_treesFs
  refine Fs.child_of_not_dir (fun _ _ _ hdir => ?_) m
  rcases hi with rfl | rfl
  · exact absurd (hf.symm.trans hdir) nofun
  · exact absurd (hg.symm.trans hdir) nofun

theorem fits_folderSource : folderSource.Fits treesFs ⟨0, 4⟩ where
  found := ⟨_, rfl⟩
  last := ⟨[47], 0, rfl, by decide, by decide, .inr rfl⟩
  name hdots := hdots.elim (fun h => absurd (congrArg Name.bytes h) (by decide))
    fun h => absurd (congrArg Name.bytes h) (by decide)
  outside hin := by
    obtain ⟨hd, -, -⟩ := nodes_treesFs
    rcases hin.cases_top with htop | ⟨m, e, he, hin⟩
    · exact absurd htop (by decide)
    · obtain ⟨-, hmem⟩ := (Fs.child_eq_some_iff hd).1 he
      obtain rfl := Option.some.inj (Slot.mk.inj (List.mem_singleton.1 hmem)).2
      exact absurd (hin.eq_top (leaf_treesFs (.inl rfl))) (by decide)
  free := rfl

theorem fits_fileSource : fileSource.Fits treesFs ⟨0, 4⟩ where
  found := ⟨_, rfl⟩
  last := ⟨[47], 0, rfl, by decide, by decide, .inr rfl⟩
  name hdots := hdots.elim (fun h => absurd (congrArg Name.bytes h) (by decide))
    fun h => absurd (congrArg Name.bytes h) (by decide)
  outside hin := absurd (hin.eq_top (leaf_treesFs (.inr rfl))) (by decide)
  free := rfl

/-- `cp -r /d /g /e`. -/
theorem cp_fills_two : ∃ w' t u,
    Runs (cp 512 6 [[45, 114], [47, 100], [47, 103], [47, 101]]) treesWorld (.ok (0, [])) w' ∧
      w'.fs.child ⟨0, 4⟩ (nameOf 100 (by decide)) = some t ∧
      SameTree treesFs w'.fs ⟨0, 1⟩ t ∧
      w'.fs.child ⟨0, 4⟩ (nameOf 103 (by decide)) = some u ∧ SameTree treesFs w'.fs ⟨0, 3⟩ u := by
  have hends : endsWith (cp 512 6 [[45, 114], [47, 100], [47, 103], [47, 101]])
      (fun ret w' => ret.1 == 0 && ret.2.isEmpty && w'.calls.all notStat) treesWorld = true := by
    decide +kernel
  obtain ⟨⟨status, said⟩, w', hrun, hends⟩ := exists_of_endsWith hends
  simp only [Bool.and_eq_true, beq_iff_eq, List.isEmpty_iff] at hends
  obtain ⟨⟨rfl, rfl⟩, hcalls⟩ := hends
  have hlinks : LinksCopied treesWorld w' := by
    intro T hT p hp
    have hall := List.all_eq_true.1 hcalls _ (hT ▸ List.mem_append_left _ hp)
    exact absurd hall Bool.false_ne_true
  have hargs : cpOptions false [[45, 114], [47, 100], [47, 103], [47, 101]] =
      .ok (true, [folderSource, fileSource].map Source.path ++ [[47, 101]]) := rfl
  have hdst : treesWorld.fs.get false [47, 101] = .ok (⟨0, 4⟩, .dir 0o755 ⟨0, 0⟩ []) := rfl
  have hfits : ∀ x ∈ [folderSource, fileSource], x.Fits treesFs ⟨0, 4⟩ := by
    intro x hx
    rcases List.mem_pair.1 hx with rfl | rfl
    · exact fits_folderSource
    · exact fits_fileSource
  obtain ⟨-, hfilled, -⟩ := cp_fills hargs hdst (.inl (Nat.le_refl 2)) hfits (by decide) hlinks hrun
  obtain ⟨t, ht, hfolder, -⟩ := hfilled folderSource List.mem_cons_self
  obtain ⟨u, hu, hfile, -⟩ := hfilled fileSource (List.mem_cons_of_mem _ List.mem_cons_self)
  exact ⟨w', t, u, hrun, ht, hfolder, hu, hfile⟩

end Fsutil
end V6User
