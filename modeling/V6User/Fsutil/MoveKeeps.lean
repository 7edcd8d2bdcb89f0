import V6User.Fsutil.CopyTree
import V6User.Fsutil.Move
import V6User.Vfs.Below

/-!
# What a move loses

A move between devices is a copy and a removal.  The copy says that it is done when it has
written through a link to its own source, and when it has copied what a link leads to because
it could not copy the link; what is removed then is lost.

A run in which each call that goes through was made where it takes nothing that is still needed
(`aside`) loses nothing.  As long as the copy goes on, the tree of the source is there
(`keeps_copy_aside`).  A copy that returned 0 has found a place for each file and link
(`copyPath_finds`), and the removal leaves a way to what is there (`keeps_removeAside`).
-/

namespace V6User
namespace Fsutil

open Vfs Effect

/-! ### Calls that take nothing that is needed -/

/-- A file or link that the names led to is where the path of `dst` leads with these names, or where
they lead from the entry that `dst` named in `fs₀`. -/
def Kept (dst : Path) (fs₀ : Fs) (l : List Name) (leaf : Content) (fs : Fs) : Prop :=
  (∃ q, PathAt dst l q ∧ fs.Found q leaf) ∨
    ∃ d n o, fs₀.findEntry dst = .ok (.entry d n o) ∧ fs.LeafAt d (n :: l) leaf

/-- It is there by a way that does not use the entry of `m` in `e`. -/
def KeptBeside (dst : Path) (fs₀ : Fs) (l : List Name) (leaf : Content) (e : Ino) (m : Name)
    (fs : Fs) : Prop :=
  (∃ q, PathAt dst l q ∧ fs.Found q leaf ∧ ¬fs.OnWay leaf.follow q e m) ∨
    ∃ d n o, fs₀.findEntry dst = .ok (.entry d n o) ∧ fs.LeafAt d (n :: l) leaf ∧
      ¬fs.Passes e m d (n :: l)

section Aside

variable (src dst : Path) (fs₀ : Fs) (s : Ino) (p : Path) (fs : Fs)

/-- A path that is opened for reading is not that of a link of the tree at `s` which leads to a
directory: its entries would be copied in place of the link. -/
def ReadsItself : Prop :=
  ∀ l target, fs₀.LeafAt s l (.link target) → PathAt src l p →
    ∀ t x, fs.get true p = .ok (t, x) → x.kind ≠ .dir

/-- A path that is opened for writing is not the place of a link of the tree at `s`.  Where it leads
to something, this is no file of the tree; it is a file, if the path is the place of one; and if it
is what has been copied, the path is the place of one with the same bytes. -/
def OpensAside : Prop :=
  (∀ l target, fs₀.LeafAt s l (.link target) → ¬PathAt dst l p) ∧
    ∀ place t, fs.find true p = .ok place → place.ino = some t →
      (∀ mode data, InTree fs₀ s t → fs₀.node t ≠ some (.reg mode data)) ∧
      (∀ l data, fs₀.LeafAt s l (.file data) → PathAt dst l p →
        ∃ mode old, fs.node t = some (.reg mode old)) ∧
      ∀ l leaf q x, fs₀.LeafAt s l leaf → PathAt dst l q → fs.get leaf.follow q = .ok (t, x) →
        x.content = some leaf → ∃ l', fs₀.LeafAt s l' leaf ∧ PathAt dst l' p

/-- The entry that is unlinked is not in the tree at `s` and not on the way to it, and not on
the way to what has been copied to another place. -/
def UnlinksAside : Prop :=
  ∀ d n i, fs.findEntry p = .ok (.entry d n (some i)) →
    ¬InTree fs₀ s d ∧ ¬fs.OnWay false src d n ∧
    ∀ l leaf q, fs₀.LeafAt s l leaf → PathAt dst l q → fs.Found q leaf → ¬PathAt dst l p →
      ¬fs.OnWay leaf.follow q d n

/-- The entry that is removed is not on every way to what has been copied. -/
def RemovesAside : Prop :=
  ∀ d n i, fs.findEntry p = .ok (.entry d n (some i)) →
    ∀ l leaf, fs₀.LeafAt s l leaf → Kept dst fs₀ l leaf fs → KeptBeside dst fs₀ l leaf d n fs

/-- The condition for the tree that `src` led to in `fs₀`, if it led to one. -/
def ForSource (P : Ino → Prop) : Prop := ∀ s x, fs₀.get false src = .ok (s, x) → P s

end Aside

/-- The system calls of the copy where, if they go through, they take nothing that is needed. -/
noncomputable def aside (src dst : Path) (fs₀ : Fs) : CopyCalls where
  openRead p := granted (fun w => ForSource src fs₀ fun s => ReadsItself src fs₀ s p w.fs)
    (openRead p)
  openWrite p := granted (fun w => ForSource src fs₀ fun s => OpensAside dst fs₀ s p w.fs)
    (openWrite p)
  unlink p := granted (fun w => ForSource src fs₀ fun s => UnlinksAside src dst fs₀ s p w.fs)
    (unlink p)

/-- The removal of an entry where, if it goes through, it takes nothing that is needed. -/
noncomputable def removeAside (src dst : Path) (fs₀ : Fs) (p : Path) : Prog Unit :=
  granted (fun w => ForSource src fs₀ fun s => RemovesAside dst fs₀ s p w.fs) (unlink p)

theorem copyPath_aside_refines (src dst : Path) (fs₀ : Fs) (maxpath fuel : ℕ) (p q : Path) :
    Refines (copyPathVia (aside src dst fs₀) maxpath fuel p q true)
      (copyPath maxpath fuel p q true) :=
  copyPathVia_refines (fun p => Refines.granted _ (openRead p))
    (fun p => Refines.granted _ (openWrite p)) (fun p => Refines.granted _ (unlink p)) fuel p q true

/-! ### While the copy goes on -/

section Held

variable {src dst : Path} {fs₀ : Fs} {s : Ino} {x₀ : Node} {maxpath : ℕ}

theorem steady_treeHeld (src : Path) (fs₀ : Fs) (s : Ino) : Steady (TreeHeld src fs₀ s) where
  make _ _ h hmissing := h.make hmissing
  setMode i mode h := h.setMode i mode

theorem keepsOpened_aside (hsrc : fs₀.get false src = .ok (s, x₀)) (p : Path) :
    KeepsOpened (Carries (TreeHeld src fs₀ s)) ((aside src dst fs₀).openWrite p) := by
  refine (steady_treeHeld src fs₀ s).keepsOpened
    (Q := fun t => ∀ mode data, InTree fs₀ s t → fs₀.node t ≠ some (.reg mode data))
    (fun w r w' h => ⟨(runs_granted.1 h).1, (runs_granted.1 h).2⟩)
    (fun t fs bytes ht h => h.setData bytes ht) (fun fs t h ht mode data hin => ?_) ?_
  · obtain ⟨x, y, -, hy, -⟩ := h.node t hin
    exact absurd (ht.symm.trans hy) nofun
  · intro w place t haside _ hplace ht
    exact ((haside s x₀ hsrc).2 place t hplace ht).1

theorem keeps_unlink_aside (hsrc : fs₀.get false src = .ok (s, x₀)) (p : Path) :
    Keeps (Carries (TreeHeld src fs₀ s)) ((aside src dst fs₀).unlink p) := by
  intro w r w' h
  obtain ⟨h, haside⟩ := runs_granted.1 h
  obtain ⟨e, -, hfs, -⟩ | ⟨o, hok, hr⟩ := runs_change h
  · exact carries_of_fs hfs
  · obtain ⟨d, n, i, hentry, -, -, -, hfs⟩ := Fs.unlink_eq_ok hok
    obtain ⟨hin, hway, -⟩ := haside () hr s x₀ hsrc d n i hentry
    exact fun hheld => hfs ▸ hheld.remove hin hway

theorem keeps_openRead_aside (p : Path) :
    Keeps (Carries (TreeHeld src fs₀ s)) ((aside src dst fs₀).openRead p) := fun w r w' h =>
  carries_openRead p w r w' (runs_granted.1 h).1

/-- **The tree of the source is there** as long as the copy goes on. -/
theorem keeps_copy_aside (hsrc : fs₀.get false src = .ok (s, x₀)) (fuel : ℕ) (p q : Path) :
    Keeps (Carries (TreeHeld src fs₀ s))
      (copyPathVia (aside src dst fs₀) maxpath fuel p q true) :=
  keeps_copyPathVia (steady_treeHeld src fs₀ s).tame keeps_openRead_aside
    (keepsOpened_aside hsrc) (keeps_unlink_aside hsrc) fuel p q true

end Held

/-! ### What has been copied -/

/-- What was found at the places of files and links of the tree still is, and so is now what
the names in `S` lead to. -/
def Finds (dst : Path) (fs₀ : Fs) (s : Ino) (S : List Name → Prop) (fs fs' : Fs) : Prop :=
  ∀ l leaf q, fs₀.LeafAt s l leaf → PathAt dst l q → S l ∨ fs.Found q leaf → fs'.Found q leaf

section Finds

variable {src dst p q : Path} {fs₀ fs fs' fs'' : Fs} {s i : Ino} {x₀ : Node}
  {S S' : List Name → Prop} {maxpath fuel mode : ℕ} {l l' : List Name} {w w' : World} {st : Stat}
  {data : List UInt8} {target : Path} {leaf : Content}

theorem Finds.refl (dst : Path) (fs₀ : Fs) (s : Ino) (fs : Fs) :
    Finds dst fs₀ s (fun _ => False) fs fs := fun _ _ _ _ _ h => h.resolve_left False.elim

theorem Finds.trans (h : Finds dst fs₀ s S fs fs') (h' : Finds dst fs₀ s S' fs' fs'') :
    Finds dst fs₀ s (fun l => S l ∨ S' l) fs fs'' := by
  intro l leaf q hleaf hq hor
  refine h' l leaf q hleaf hq ?_
  rcases hor with (hS | hS') | hfound
  · exact .inr (h l leaf q hleaf hq (.inl hS))
  · exact .inl hS'
  · exact .inr (h l leaf q hleaf hq (.inr hfound))

theorem Finds.mono (h : Finds dst fs₀ s S fs fs')
    (hS : ∀ l leaf, fs₀.LeafAt s l leaf → S' l → S l) : Finds dst fs₀ s S' fs fs' :=
  fun l leaf q hleaf hq hor => h l leaf q hleaf hq (hor.imp_left (hS l leaf hleaf))

theorem finds_of_found (h : ∀ q leaf, fs.Found q leaf → fs'.Found q leaf) :
    Finds dst fs₀ s (fun _ => False) fs fs' :=
  fun _ leaf q _ _ hor => h q leaf (hor.resolve_left False.elim)

theorem steady_found (q : Path) (leaf : Content) : Steady fun fs => fs.Found q leaf where
  make _ _ h hmissing := h.make hmissing
  setMode i mode h := h.setMode i mode

/-! ### Files and links -/

/-- What is found at another place than the one that is unlinked stays. -/
theorem keeps_unlink_found (hsrc : fs₀.get false src = .ok (s, x₀))
    (hleaf : fs₀.LeafAt s l leaf) (hq : PathAt dst l q) (hne : ¬PathAt dst l p) :
    Keeps (Carries fun fs => fs.Found q leaf) ((aside src dst fs₀).unlink p) := by
  intro w r w' h
  obtain ⟨h, haside⟩ := runs_granted.1 h
  obtain ⟨e, -, hfs, -⟩ | ⟨o, hok, hr⟩ := runs_change h
  · exact carries_of_fs hfs
  · obtain ⟨d, n, i, hentry, -, -, -, hfs⟩ := Fs.unlink_eq_ok hok
    obtain ⟨-, -, hway⟩ := haside () hr s x₀ hsrc d n i hentry
    exact fun hfound => hfs ▸ hfound.remove (hway l leaf q hleaf hq hfound hne)

/-- The copy of a file opens its destination where it takes nothing that is needed. -/
theorem runs_copyRegular_aside (hsrc : fs₀.get false src = .ok (s, x₀))
    (h : Runs (copyRegularVia (aside src dst fs₀) fuel p q st) w (.ok ()) w') :
    OpensAside dst fs₀ s q w.fs ∧ Runs (copyRegular fuel p q st) w (.ok ()) w' := by
  have hrefines : Refines (copyRegularVia (aside src dst fs₀) fuel p q st)
      (copyRegular fuel p q st) :=
    copyRegularVia_refines (fun p => Refines.granted _ (openRead p))
      (fun p => Refines.granted _ (openWrite p)) fuel p q st
  refine ⟨?_, hrefines _ _ _ h⟩
  unfold copyRegularVia at h
  obtain ⟨dstSt, w₁, hlstat, h⟩ := runs_attempt_bind.1 h
  have hfs₁ := (runs_look hlstat).1
  split_ifs at h
  · exact absurd (runs_throw.1 h).1 (ok_ne_error _ _)
  rcases runs_bind.1 h with ⟨e, -, hbad⟩ | ⟨sfd, w₂, hread, h⟩
  · exact absurd hbad (ok_ne_error _ _)
  have hfs₂ := (runs_look (runs_granted.1 hread).1).1.trans hfs₁
  obtain ⟨x, w₃, hopen, h⟩ := runs_attempt_bind.1 h
  cases x with
  | error e =>
    obtain ⟨_, _, -, h⟩ := runs_attempt_bind.1 h
    exact absurd (runs_throw.1 h).1 (ok_ne_error _ _)
  | ok dfd =>
    rw [← hfs₂]
    exact (runs_granted.1 hopen).2 dfd rfl s x₀ hsrc

/-- What is found is found after the copy of a file, unless it was opened. -/
theorem copyRegular_found (h : Runs (copyRegular fuel p q st) w (.ok ()) w') : q ≠ [] ∧
    ∀ q' leaf i x, w.fs.get leaf.follow q' = .ok (i, x) → x.content = some leaf →
      (∀ place, w.fs.find true q = .ok place → place.ino ≠ some i) → w'.fs.Found q' leaf := by
  rcases runs_copyRegular h with
    ⟨⟨e, hbad⟩, -⟩ | ⟨s', t, w₁, x, w₂, w₃, hopened, hloop, hcloses⟩
  · exact absurd hbad (ok_ne_error _ _)
  obtain ⟨k, m, hwrite⟩ := hopened.write
  have hopen := Fs.openWrite_eq_ok hwrite
  refine ⟨?_, fun q' leaf i z hget hleaf hother => ?_⟩
  · rcases hopen with ⟨d, n, hmissing, hfind, -⟩ | ⟨place, hfind, -⟩
    · exact Fs.ne_nil_of_resolve hfind
    · exact Fs.ne_nil_of_resolve hfind
  obtain ⟨-, -, -, hi⟩ := Fs.get_eq_ok.1 hget
  obtain ⟨hsub, hne, hi₁⟩ : Sub w.fs w₁.fs ∧ i ≠ t ∧ w₁.fs.node i = some z := by
    rcases hopen with ⟨d, n, hmissing, -, rfl, hfs⟩ | ⟨place, hfind, ht, hfs⟩
    · have hnew : i ≠ w.fs.new d := Fs.ne_new (hi ▸ rfl)
      have hd : i ≠ d := by
        rintro rfl
        obtain ⟨mode, up, slots, hdir, -, -⟩ := Fs.dir_of_missing hmissing
        obtain rfl := Option.some.inj (hi.symm.trans hdir)
        exact absurd hleaf nofun
      rw [hfs]
      exact ⟨sub_make hmissing, hnew, (Nodes.make_of_ne hnew hd).trans hi⟩
    · have hne : i ≠ t := by
        rintro rfl
        exact hother place hfind ht
      rw [hfs]
      exact ⟨sub_alter _ _ _, hne, (Nodes.alter_of_ne hne).trans hi⟩
  cases x with
  | error e => exact absurd (hcloses.failed e rfl).1 (ok_ne_error _ _)
  | ok u =>
    have hmoves := moves_copyLoop s' t fuel 0 _ _ _ hloop
    have hfound : w₃.fs.Found q' leaf := by
      obtain ⟨y, hy⟩ := Fs.get_mono (hsub.trans hmoves.sub) hget
      obtain ⟨-, -, -, hi₂⟩ := Fs.get_eq_ok.1 hy
      obtain rfl := Option.some.inj (((hmoves.node i hne).trans hi₁).symm.trans hi₂)
      rw [hcloses.fs]
      exact ⟨i, _, hy, hleaf⟩
    exact (steady_found q' leaf).chmod q st.perm _ _ _ (hcloses.done rfl) hfound

/-- **A file** is found at its place once it is copied.  What lies there in the tree is the file
that the path leads to, or a link. -/
theorem copyRegular_finds (hsrc : fs₀.get false src = .ok (s, x₀))
    (hheld : TreeHeld src fs₀ s w.fs) (hq : PathAt dst l q)
    (hleaf : ∀ l' leaf, fs₀.LeafAt s l' leaf → l <+: l' → l' = l ∧ ∀ data, leaf = .file data →
      ∃ i mode, InTree fs₀ s i ∧ w.fs.get false p = .ok (i, .reg mode data))
    (h : Runs (copyRegularVia (aside src dst fs₀) fuel p q st) w (.ok ()) w') :
    q ≠ [] ∧ Finds dst fs₀ s (fun l' => l <+: l') w.fs w'.fs := by
  obtain ⟨⟨hlinks, haside⟩, hrun⟩ := runs_copyRegular_aside hsrc h
  obtain ⟨hne, hkeeps⟩ := copyRegular_found hrun
  -- a file of the tree is copied to another file
  have hcopied : ∀ leaf, fs₀.LeafAt s l leaf → ∃ t y, w'.fs.get true q = .ok (t, y) ∧
      y.content = some leaf ∧ w'.fs.Found q leaf ∧ Sub w.fs w'.fs ∧
        ∀ place t', w.fs.find true q = .ok place → place.ino = some t' → t' = t := by
    intro leaf hl
    cases leaf with
    | link target => exact absurd hq (hlinks l target hl)
    | file data =>
    obtain ⟨i, mode, hin, hget⟩ := (hleaf l _ hl (List.prefix_refl l)).2 data rfl
    obtain ⟨-, -, -, hnode⟩ := Fs.get_eq_ok.1 hget
    have hother : w.fs.OtherFile i q := by
      intro place j hfind hj
      obtain ⟨hother, hreg, -⟩ := haside place j hfind hj
      refine ⟨?_, hreg l data hl hq⟩
      rintro rfl
      obtain ⟨x, y, hx, hy, halike⟩ := hheld.node j hin
      obtain rfl := Option.some.inj (hnode.symm.trans hy)
      cases halike with
      | reg mode' => exact hother mode' data hin hx
    have hlink : w.fs.node.link i = none := by
      unfold Nodes.link
      rw [hnode]
    obtain ⟨t, k, m, fs₁, hwrite, -, hsub, hgetq, -⟩ :=
      copyRegular_ok hrun (Fs.get_true_of_false hget hlink) hother
    obtain ⟨-, hsub₁, -, -⟩ := Fs.openWrite_spec hwrite hother hnode
    refine ⟨t, _, hgetq, rfl, ⟨t, _, hgetq, rfl⟩, hsub₁.trans hsub, fun place t' hfind ht' => ?_⟩
    rcases Fs.openWrite_eq_ok hwrite with ⟨d, n, -, hfind', -⟩ | ⟨place', hfind', ht, -⟩
    · obtain rfl := Except.ok.inj (hfind.symm.trans hfind')
      exact absurd ht' nofun
    · obtain rfl := Except.ok.inj (hfind.symm.trans hfind')
      exact Option.some.inj (ht'.symm.trans ht)
  refine ⟨hne, fun l' leaf q' hl' hq' hor => ?_⟩
  by_cases hpre : l <+: l'
  · obtain ⟨rfl, -⟩ := hleaf l' leaf hl' hpre
    obtain ⟨-, -, -, -, ⟨j, x, hgetj, hx⟩, -⟩ := hcopied leaf hl'
    exact ⟨j, x, (hq'.get_eq hq _ _).trans hgetj, hx⟩
  obtain ⟨j, x, hgetj, hx⟩ := hor.resolve_left hpre
  by_cases hopen : ∀ place, w.fs.find true q = .ok place → place.ino ≠ some j
  · exact hkeeps q' leaf j x hgetj hx hopen
  -- another copy of the same bytes was opened
  obtain ⟨place, hopen⟩ := not_forall.1 hopen
  obtain ⟨hfind, hj⟩ := Classical.not_imp.1 hopen
  obtain ⟨-, -, hsame⟩ := haside place j hfind (not_not.1 hj)
  obtain ⟨l₂, hl₂, hat⟩ := hsame l' leaf q' x hl' hq' hgetj hx
  obtain rfl := hq.unique hat
  obtain ⟨t, z, hgetq, hz, -, hsub, ht⟩ := hcopied leaf hl₂
  obtain rfl := ht place j hfind (not_not.1 hj)
  obtain ⟨-, -, -, hnew⟩ := Fs.get_eq_ok.1 hgetq
  obtain ⟨y, hy⟩ := Fs.get_mono hsub hgetj
  obtain ⟨-, -, -, hyj⟩ := Fs.get_eq_ok.1 hy
  obtain rfl := Option.some.inj (hnew.symm.trans hyj)
  exact ⟨j, _, hy, hz⟩

/-- A link is found where it was made, and what was found is found. -/
theorem runs_symlink_found (h : Runs (symlink target q) w (.ok ()) w') :
    q ≠ [] ∧ w'.fs.Found q (.link target) ∧
      ∀ q' leaf, w.fs.Found q' leaf → w'.fs.Found q' leaf := by
  obtain ⟨e, hbad, -⟩ | ⟨o, hmake, -⟩ := runs_change h
  · exact absurd hbad (ok_ne_error _ _)
  obtain ⟨d, n, hmissing, hfind, hfs⟩ := Fs.makeNew_eq_ok hmake
  rw [hfs]
  refine ⟨Fs.ne_nil_of_resolve hfind, ?_, fun q' leaf hfound => hfound.make hmissing⟩
  have hmade := Fs.resolve_made (sub_make hmissing (k := o.slot) (x := .link target)) hfind
    (Fs.entry_make_self hmissing) fun hfollow => absurd hfollow Bool.false_ne_true
  exact ⟨_, _, Fs.get_eq_ok.2 ⟨_, hmade, rfl, Nodes.make_self⟩, rfl⟩

/-- **A symbolic link** is found at its place once it is copied. -/
theorem copySymlink_finds (hsrc : fs₀.get false src = .ok (s, x₀))
    (hheld : TreeHeld src fs₀ s w.fs) (hp : PathAt src l p) (hq : PathAt dst l q)
    (hget : w.fs.get false p = .ok (i, .lnk target))
    (h : Runs (copySymlinkVia (aside src dst fs₀) maxpath p q) w (.ok ()) w') :
    q ≠ [] ∧ Finds dst fs₀ s (fun l' => l <+: l') w.fs w'.fs := by
  unfold copySymlinkVia at h
  rcases runs_bind.1 h with ⟨e, -, hbad⟩ | ⟨read, w₁, hread, h⟩
  · exact absurd hbad (ok_ne_error _ _)
  obtain ⟨hfs₁, ⟨e, hbad, -⟩ | ⟨o, read', htarget, heq⟩⟩ := runs_look hread
  · exact absurd hbad (ok_ne_error _ _)
  obtain rfl := Except.ok.inj heq
  rw [hget] at htarget
  have hread' : read = target.take (maxpath - 1) := (Except.ok.inj htarget).symm
  split_ifs at h with hlong
  · exact absurd (runs_throw.1 h).1 (ok_ne_error _ _)
  -- the whole target has been read
  have hwhole : read = target := by
    rw [hread', List.length_take] at hlong
    rw [hread']
    exact List.take_of_length_le (by omega)
  -- what is found before the link is made is found afterwards, and so is the link
  have hmade : ∀ w₂, Runs (symlink read q) w₂ (.ok ()) w' →
      (∀ l' leaf q', l' ≠ l → fs₀.LeafAt s l' leaf → PathAt dst l' q' → w.fs.Found q' leaf →
        w₂.fs.Found q' leaf) → q ≠ [] ∧ Finds dst fs₀ s (fun l' => l <+: l') w.fs w'.fs := by
    intro w₂ hsymlink hkeeps
    obtain ⟨hne, hlink, hfound⟩ := runs_symlink_found hsymlink
    refine ⟨hne, fun l' leaf q' hleaf hq' hor => ?_⟩
    by_cases hpre : l <+: l'
    · obtain ⟨rfl, hsome, -⟩ := hheld.eq_of_leafAt hp hget nofun hleaf hpre
      obtain rfl := Option.some.inj hsome
      obtain ⟨j, x, hj, hx⟩ := hlink
      rw [hwhole] at hx
      exact ⟨j, x, (hq'.get_eq hq _ _).trans hj, hx⟩
    · refine hfound q' leaf (hkeeps l' leaf q' ?_ hleaf hq' (hor.resolve_left hpre))
      rintro rfl
      exact hpre (List.prefix_refl l')
  obtain ⟨dstSt, w₂, hlstat, h⟩ := runs_attempt_bind.1 h
  have hfs₂ := (runs_look hlstat).1.trans hfs₁
  cases dstSt with
  | ok dt =>
    dsimp only at h
    split_ifs at h
    · exact absurd (runs_throw.1 h).1 (ok_ne_error _ _)
    rcases runs_bind.1 h with ⟨e, -, hbad⟩ | ⟨u, w₃, hunlink, hsymlink⟩
    · exact absurd hbad (ok_ne_error _ _)
    refine hmade w₃ hsymlink fun l' leaf q' hne hleaf hq' hfound => ?_
    rw [← hfs₂] at hfound
    exact keeps_unlink_found hsrc hleaf hq' (fun hat => hne (hat.unique hq)) _ _ _ hunlink hfound
  | error e =>
    dsimp only at h
    split_ifs at h
    · exact absurd (runs_throw.1 h).1 (ok_ne_error _ _)
    · refine hmade w₂ h fun l' leaf q' _ _ _ hfound => ?_
      rw [hfs₂]
      exact hfound

/-! ### Directories -/

/-- What `copy` copies without an error is found at its place, if it is of the tree. -/
def FindsCopies (src dst : Path) (fs₀ : Fs) (s : Ino) (copy : Path → Path → Prog Unit) : Prop :=
  ∀ l p q w w', Runs (copy p q) w (.ok ()) w' → PathAt src l p → PathAt dst l q →
    TreeHeld src fs₀ s w.fs → q ≠ [] ∧ Finds dst fs₀ s (fun l' => l <+: l') w.fs w'.fs

/-- The names lead through one of the entries. -/
def Among (l : List Name) (slots : List Slot) (l' : List Name) : Prop :=
  ∃ m i, (⟨m, some i⟩ : Slot) ∈ slots ∧ ¬m.IsDots ∧ l ++ [m] <+: l'

variable {copy : Path → Path → Prog Unit} {slots : List Slot} {fd up : Ino} {pos : ℕ}

/-- **The destination is there**, and what was found is found. -/
theorem enterDirectory_found (h : Runs (enterDirectory q st) w (.ok ()) w') :
    q ≠ [] ∧ ∀ q' leaf, w.fs.Found q' leaf → w'.fs.Found q' leaf := by
  obtain ⟨dt, w₂, hlstat, hfs, -⟩ | ⟨e, w₂, -, -, hbad, -⟩ | ⟨w₂, -, hfs₂, hmkdir⟩ :=
    runs_enterDirectory h
  · obtain ⟨-, ⟨e, hbad, -⟩ | ⟨o, st', hst, -⟩⟩ := runs_look hlstat
    · exact absurd hbad (ok_ne_error _ _)
    obtain ⟨x, hx, -⟩ := Fs.statOf_eq_ok.1 hst
    obtain ⟨place, hplace, -⟩ := Fs.get_eq_ok.1 hx
    exact ⟨Fs.ne_nil_of_resolve hplace, fun q' leaf hfound => hfs ▸ hfound⟩
  · exact absurd hbad (ok_ne_error _ _)
  · obtain ⟨e, hbad, -⟩ | ⟨o, hmake, -⟩ := runs_change hmkdir
    · exact absurd hbad (ok_ne_error _ _)
    rw [hfs₂] at hmake
    obtain ⟨d, n, hmissing, hfind, hfs⟩ := Fs.makeNew_eq_ok hmake
    exact ⟨Fs.ne_nil_of_resolve hfind, fun q' leaf hfound => hfs ▸ hfound.make hmissing⟩

/-- **The records of one buffer** are found once they are copied. -/
theorem copyRecords_finds (hcopy : FindsCopies src dst fs₀ s copy)
    (hkeeps : ∀ p q, Keeps (Carries (TreeHeld src fs₀ s)) (copy p q)) (hp : PathAt src l p)
    (hq : PathAt dst l q) (hpne : p ≠ []) (hqne : q ≠ [])
    (h : Runs (copyRecords maxpath copy p q (slots.map Slot.dirent)) w (.ok ()) w')
    (hheld : TreeHeld src fs₀ s w.fs) : Finds dst fs₀ s (Among l slots) w.fs w'.fs := by
  induction slots generalizing w with
  | nil =>
    obtain ⟨-, rfl⟩ := runs_pure.1 h
    exact (Finds.refl dst fs₀ s w'.fs).mono fun l' leaf _ ⟨m, i, hmem, _⟩ =>
      List.not_mem_nil hmem
  | cons slot slots ih =>
    have hlen : slot.dirent.reclen ≠ 0 := by
      show 20 + slot.name.bytes.length ≠ 0
      omega
    rw [List.map_cons, copyRecords, if_neg hlen] at h
    by_cases hlive : slot.dirent.ino ≠ 0 ∧ (!isDotOrDotdot slot.dirent.name.bytes) = true
    · rw [if_pos hlive] at h
      rcases runs_ofExcept_bind.1 h with ⟨e, -, hbad, -⟩ | ⟨sc, hsc, hjoined⟩
      · exact absurd hbad (ok_ne_error _ _)
      rcases runs_ofExcept_bind.1 hjoined with ⟨e, -, hbad, -⟩ | ⟨dc, hdc, hthere⟩
      · exact absurd hbad (ok_ne_error _ _)
      rcases runs_bind.1 hthere with ⟨e, -, hbad⟩ | ⟨u, w₁, hrun, hrest⟩
      · exact absurd hbad (ok_ne_error _ _)
      obtain ⟨-, hone⟩ := hcopy _ sc dc w w₁ hrun (.name hp (below_of_joinPath hpne hsc))
        (.name hq (below_of_joinPath hqne hdc)) hheld
      refine (hone.trans (ih hrest (hkeeps sc dc _ _ _ hrun hheld))).mono ?_
      rintro l' leaf - ⟨m, i, hmem, hdots, hpre⟩
      rcases List.mem_cons.1 hmem with rfl | hmem
      · exact .inl hpre
      · exact .inr ⟨m, i, hmem, hdots, hpre⟩
    · rw [if_neg hlive] at h
      refine (ih h hheld).mono ?_
      rintro l' leaf - ⟨m, i, hmem, hdots, hpre⟩
      rcases List.mem_cons.1 hmem with rfl | hmem
      · refine absurd ⟨Nat.succ_ne_zero _, ?_⟩ hlive
        rw [← isDotOrDotdot_iff, Bool.not_eq_true] at hdots
        exact congrArg Bool.not hdots
      · exact ⟨m, i, hmem, hdots, hpre⟩

/-- The slots of a directory are those that it had, and more. -/
def HasSlots (src : Path) (fs₀ : Fs) (s fd : Ino) (slots : List Slot) : Prop :=
  ∀ fs mode up cur, TreeHeld src fs₀ s fs → fs.node fd = some (.dir mode up cur) →
    ∀ (k : ℕ) m i, slots[k]? = some ⟨m, some i⟩ → cur[k]? = some ⟨m, some i⟩

/-- **The entries of a directory** are found once they are copied, from a position on. -/
theorem copyEntries_finds (hcopy : FindsCopies src dst fs₀ s copy)
    (hkeeps : ∀ p q, Keeps (Carries (TreeHeld src fs₀ s)) (copy p q)) (hp : PathAt src l p)
    (hq : PathAt dst l q) (hpne : p ≠ []) (hqne : q ≠ [])
    (hslots : HasSlots src fs₀ s fd slots)
    (h : Runs (copyEntries maxpath copy p q fd fuel pos) w (.ok ()) w')
    (hheld : TreeHeld src fs₀ s w.fs) :
    Finds dst fs₀ s (Among l (slots.drop pos)) w.fs w'.fs := by
  induction fuel generalizing pos w with
  | zero => exact absurd h not_runs_diverge
  | succ fuel ih =>
    rw [copyEntries] at h
    rcases runs_bind.1 h with ⟨e, -, hbad⟩ | ⟨des, w₁, hread, h⟩
    · exact absurd hbad (ok_ne_error _ _)
    obtain ⟨hfs₁, ⟨e, hbad, -⟩ | ⟨o, des', hdes, heq⟩⟩ := runs_look hread
    · exact absurd hbad (ok_ne_error _ _)
    obtain rfl := Except.ok.inj heq
    -- the slots that are there now
    obtain ⟨mode, up, cur, hdir, rfl⟩ : ∃ mode up cur, w.fs.node fd = some (.dir mode up cur) ∧
        des = ((cur.drop pos).take (max o.count 1)).map Slot.dirent := by
      split at hdes
      · next mode up cur hdir => exact ⟨mode, up, cur, hdir, (Except.ok.inj hdes).symm⟩
      · exact absurd hdes.symm (ok_ne_error _ _)
    have hcur := hslots w.fs mode up cur hheld hdir
    rw [← hfs₁] at hheld ⊢
    have hcount : max o.count 1 ≠ 0 := by omega
    generalize max o.count 1 = count at h hcount
    have hindex : ∀ {m i}, (⟨m, some i⟩ : Slot) ∈ slots.drop pos →
        ∃ k, slots[pos + k]? = some ⟨m, some i⟩ ∧ (cur.drop pos)[k]? = some ⟨m, some i⟩ := by
      intro m i hmem
      obtain ⟨k, hk⟩ := List.mem_iff_getElem?.1 hmem
      rw [List.getElem?_drop] at hk
      exact ⟨k, hk, List.getElem?_drop.trans (hcur _ m i hk)⟩
    by_cases hend : ((cur.drop pos).take count).map Slot.dirent = []
    · rw [if_pos hend] at h
      obtain ⟨-, rfl⟩ := runs_pure.1 h
      refine (Finds.refl dst fs₀ s w'.fs).mono ?_
      rintro l' leaf - ⟨m, i, hmem, -⟩
      obtain ⟨k, -, hk⟩ := hindex hmem
      -- a call reads at least one record
      rcases List.take_eq_nil_iff.1 (List.map_eq_nil_iff.1 hend) with hzero | hnil
      · exact hcount hzero
      · rw [hnil, List.getElem?_nil] at hk
        cases hk
    · rw [if_neg hend] at h
      rcases runs_bind.1 h with ⟨e, -, hbad⟩ | ⟨u, w₂, hrecords, h⟩
      · exact absurd hbad (ok_ne_error _ _)
      have hone := copyRecords_finds hcopy hkeeps hp hq hpne hqne hrecords hheld
      have hheld₂ := keeps_copyRecords hkeeps p q _ _ _ _ hrecords hheld
      rw [List.length_map] at h
      refine (hone.trans (ih h hheld₂)).mono ?_
      rintro l' leaf - ⟨m, i, hmem, hdots, hpre⟩
      obtain ⟨k, hk, hcurk⟩ := hindex hmem
      by_cases hlt : k < ((cur.drop pos).take count).length
      · refine .inl ⟨m, i, ?_, hdots, hpre⟩
        refine List.mem_iff_getElem?.2 ⟨k, ?_⟩
        rw [List.getElem?_take_of_lt (by rw [List.length_take] at hlt; omega)]
        exact hcurk
      · refine .inr ⟨m, i, ?_, hdots, hpre⟩
        refine List.mem_iff_getElem?.2 ⟨k - ((cur.drop pos).take count).length, ?_⟩
        rw [List.getElem?_drop, Nat.add_assoc, Nat.add_sub_cancel' (Nat.le_of_not_lt hlt)]
        exact hk

/-- Below a directory there is what its entries lead to. -/
theorem among_of_leafAt (hleaf : fs₀.LeafAt s l' leaf) (hl : l <+: l')
    (hi : fs₀.descend s l = some i) (hdir : fs₀.node i = some (.dir mode up slots)) :
    Among l slots l' := by
  obtain ⟨r, rfl⟩ := hl
  obtain ⟨j, x, hj, hx, hsome⟩ := hleaf
  rw [Fs.descend_append, hi] at hj
  cases r with
  | nil =>
    obtain rfl : i = j := Option.some.inj hj
    obtain rfl := Option.some.inj (hdir.symm.trans hx)
    exact absurd hsome nofun
  | cons m r =>
    replace hj : (fs₀.child i m).bind (fun e => fs₀.descend e r) = some j := hj
    obtain ⟨e, he, -⟩ := Option.bind_eq_some_iff.1 hj
    obtain ⟨hdots, hmem⟩ := (Fs.child_eq_some_iff hdir).1 he
    exact ⟨m, e, hmem, hdots, r, by rw [List.append_assoc, List.singleton_append]⟩

/-- Entries are read from a directory. -/
theorem copyEntries_dir (h : Runs (copyEntries maxpath copy p q fd fuel pos) w (.ok ()) w') :
    ∃ mode up cur, w.fs.node fd = some (.dir mode up cur) := by
  cases fuel with
  | zero => exact absurd h not_runs_diverge
  | succ fuel =>
    rw [copyEntries] at h
    rcases runs_bind.1 h with ⟨e, -, hbad⟩ | ⟨des, w₁, hread, -⟩
    · exact absurd hbad (ok_ne_error _ _)
    obtain ⟨-, ⟨e, hbad, -⟩ | ⟨o, des', hdes, -⟩⟩ := runs_look hread
    · exact absurd hbad (ok_ne_error _ _)
    split at hdes
    · next mode up cur hdir => exact ⟨mode, up, cur, hdir⟩
    · exact absurd hdes (ok_ne_error _ _).symm

/-- **A directory**: what lies below it is found at its place once it is copied.  What lies there in
the tree lies in the directory that the path leads to, or is a link. -/
theorem copyDirectory_finds (hsrc : fs₀.get false src = .ok (s, x₀))
    (hcopy : FindsCopies src dst fs₀ s copy)
    (hkeeps : ∀ p q, Keeps (Carries (TreeHeld src fs₀ s)) (copy p q))
    (hheld : TreeHeld src fs₀ s w.fs) (hp : PathAt src l p) (hq : PathAt dst l q)
    (hleaf : ∀ l' leaf, fs₀.LeafAt s l' leaf → l <+: l' →
      (∃ i mode up slots, w.fs.get false p = .ok (i, .dir mode up slots)) ∨
        l' = l ∧ ∃ target, leaf = .link target)
    (h : Runs (copyDirectoryVia (aside src dst fs₀) maxpath copy fuel p q st true) w (.ok ()) w') :
    q ≠ [] ∧ Finds dst fs₀ s (fun l' => l <+: l') w.fs w'.fs := by
  obtain ⟨w₂, w₃, w₄, fd, x, henter, hopen, hentries, hclose⟩ := runs_copyDirectoryVia h
  have hfs' := (runs_look hclose).1
  obtain ⟨hqne, hfound⟩ := enterDirectory_found henter
  have hheld₂ : TreeHeld src fs₀ s w₂.fs :=
    keeps_enterDirectory (steady_treeHeld src fs₀ s).tame q st _ _ _ henter hheld
  obtain ⟨hopen, hreads⟩ := runs_granted.1 hopen
  obtain ⟨hfs₃, ⟨e, hbad, -⟩ | ⟨o, fd', hfd, heq⟩⟩ := runs_look hopen
  · exact absurd hbad (ok_ne_error _ _)
  obtain rfl := Except.ok.inj heq
  obtain ⟨y, hfd⟩ := Fs.get_of_map_fst hfd
  have hheld₃ : TreeHeld src fs₀ s w₃.fs := hfs₃ ▸ hheld₂
  obtain ⟨place, hplace, -, hfdnode⟩ := Fs.get_eq_ok.1 hfd
  have hpne := Fs.ne_nil_of_resolve hplace
  have hydir : y.kind = .dir := by
    obtain ⟨mode, up, cur, hdir⟩ := copyEntries_dir hentries
    rw [hfs₃] at hdir
    rw [Option.some.inj (hfdnode.symm.trans hdir)]
    rfl
  -- the slots that are copied are those of the directory in the tree, if it is there
  obtain ⟨slots₀, hslots, hamong⟩ : ∃ slots₀, HasSlots src fs₀ s fd slots₀ ∧
      ∀ l' leaf, fs₀.LeafAt s l' leaf → l <+: l' → Among l slots₀ l' := by
    by_cases hin : ∃ l' leaf, fs₀.LeafAt s l' leaf ∧ l <+: l'
    · obtain ⟨l', leaf, hl', hpre⟩ := hin
      rcases hleaf l' leaf hl' hpre with ⟨i, mode, up, slots, hget⟩ | ⟨rfl, target, rfl⟩
      case inr => exact absurd hydir (hreads fd rfl s x₀ hsrc _ target hl' hp fd y hfd)
      obtain ⟨j, x, y', hj, hx, halike, hgetj⟩ := hheld.get_of_leafAt hp hl' hpre
      obtain ⟨rfl, rfl⟩ := Prod.mk.inj (Except.ok.inj (hget.symm.trans hgetj))
      cases halike with
      | dir mode₀ _ _ slots₀ _ _ =>
        obtain ⟨x₂, y₂, hx₂, halike₂, hget₂⟩ := hheld₂.get_pathAt hp hj
        have hkind : y₂.kind = .dir := by
          obtain rfl := Option.some.inj (hx.symm.trans hx₂)
          exact halike₂.kind
        rw [Fs.get_true_of_false hget₂ (Fs.link_of_kind hget₂ hkind)] at hfd
        obtain ⟨rfl, -⟩ := Prod.mk.inj (Except.ok.inj hfd)
        refine ⟨slots₀, fun fs mode' up' cur hheld' hdir => ?_, fun l' leaf hl' hpre' =>
          among_of_leafAt hl' hpre' hj hx⟩
        obtain ⟨x', y', hx', hy', halike'⟩ := hheld'.node i (Fs.inTree_of_descend hj)
        obtain rfl := Option.some.inj (hx.symm.trans hx')
        obtain rfl := Option.some.inj (hdir.symm.trans hy')
        cases halike' with
        | dir _ _ _ _ _ hindex => exact hindex
    · exact ⟨[], fun _ _ _ _ _ _ _ _ _ hk => absurd hk nofun,
        fun l' leaf hl' hpre => absurd ⟨l', leaf, hl', hpre⟩ hin⟩
  have hall := copyEntries_finds hcopy hkeeps hp hq hpne hqne hslots hentries hheld₃
  rw [hfs₃] at hall
  rw [hfs']
  refine ⟨hqne, ((finds_of_found hfound).trans hall).mono fun l' leaf hl' hpre => .inr ?_⟩
  exact hamong l' leaf hl' hpre

/-! ### The whole copy -/

/-- **What a copy that returned 0 has copied** is found at its place. -/
theorem copyPath_finds (hsrc : fs₀.get false src = .ok (s, x₀)) (maxpath fuel : ℕ) :
    FindsCopies src dst fs₀ s fun p q => copyPathVia (aside src dst fs₀) maxpath fuel p q true := by
  induction fuel with
  | zero => exact fun _ _ _ _ _ h => absurd h not_runs_diverge
  | succ fuel ih =>
    intro l p q w w' h hp hq hheld
    dsimp only at h
    rw [copyPathVia] at h
    rcases runs_bind.1 h with ⟨e, -, hbad⟩ | ⟨st, w₁, hlstat, h⟩
    · exact absurd hbad (ok_ne_error _ _)
    obtain ⟨hfs₁, ⟨e, hbad, -⟩ | ⟨o, st', hst, heq⟩⟩ := runs_look hlstat
    · exact absurd hbad (ok_ne_error _ _)
    obtain rfl := Except.ok.inj heq
    obtain ⟨x, hget, hkind, -⟩ := Fs.statOf_eq_ok.1 hst
    rw [← hfs₁] at hheld hget ⊢
    rw [hkind] at h
    obtain ⟨mode, data⟩ | target | ⟨mode, up, slots⟩ | mode := x
    · refine copyRegular_finds hsrc hheld hq (fun l' leaf hl' hpre => ?_) h
      obtain ⟨rfl, hsome, hin⟩ := hheld.eq_of_leafAt hp hget (by simp [Node.kind]) hl' hpre
      refine ⟨rfl, fun bytes hbytes => ?_⟩
      obtain rfl := Content.file.inj ((Option.some.inj hsome).trans hbytes)
      exact ⟨_, _, hin, hget⟩
    · obtain ⟨ret, w₂, hsymlink, h⟩ := runs_attempt_bind.1 h
      cases ret with
      | ok u =>
        obtain ⟨-, rfl⟩ := runs_pure.1 h
        exact copySymlink_finds hsrc hheld hp hq hget hsymlink
      | error e =>
        -- what the link leads to is copied, but not in the place of a link of the tree
        have hlinks : ∀ l' leaf, fs₀.LeafAt s l' leaf → l <+: l' →
            l' = l ∧ leaf = .link target := by
          intro l' leaf hl' hpre
          obtain ⟨rfl, hsome, -⟩ := hheld.eq_of_leafAt hp hget (by simp [Node.kind]) hl' hpre
          exact ⟨rfl, (Option.some.inj hsome).symm⟩
        have hheld₂ := keeps_copySymlinkVia (steady_treeHeld src fs₀ s).tame p q
          (keeps_unlink_aside hsrc q) _ _ _ hsymlink hheld
        obtain ⟨followSt, w₃, hstat, h⟩ := runs_attempt_bind.1 h
        rw [← (runs_look hstat).1] at hheld₂
        have hrest : ∀ {S}, Finds dst fs₀ s (fun l' => l <+: l') w₃.fs S →
            Finds dst fs₀ s (fun l' => l <+: l') w₁.fs S := by
          intro S hfinds l' leaf q' hl' hq' hor
          refine hfinds l' leaf q' hl' hq' (or_iff_not_imp_left.2 fun hpre => ?_)
          have hkeeps := keeps_unlink_found hsrc hl' hq' fun hat : PathAt dst l' q =>
            hpre (hat.unique hq ▸ List.prefix_refl l)
          rw [(runs_look hstat).1]
          exact keeps_copySymlinkVia (steady_found q' leaf).tame p q hkeeps _ _ _ hsymlink
            (hor.resolve_left hpre)
        cases followSt with
        | error _ => exact absurd (runs_throw.1 h).1 (ok_ne_error _ _)
        | ok followSt =>
          dsimp only at h
          split at h
          · obtain ⟨hne, hfinds⟩ := copyRegular_finds hsrc hheld₂ hq (fun l' leaf hl' hpre => by
              obtain ⟨rfl, rfl⟩ := hlinks l' leaf hl' hpre
              exact ⟨rfl, fun _ hfile => absurd hfile (by simp)⟩) h
            exact ⟨hne, hrest hfinds⟩
          · obtain ⟨hne, hfinds⟩ := copyDirectory_finds hsrc ih
              (fun p q => keeps_copy_aside hsrc fuel p q) hheld₂ hp hq (fun l' leaf hl' hpre => by
                obtain ⟨rfl, rfl⟩ := hlinks l' leaf hl' hpre
                exact .inr ⟨rfl, target, rfl⟩) h
            exact ⟨hne, hrest hfinds⟩
          · exact absurd (runs_throw.1 h).1 (ok_ne_error _ _)
    · rcases runs_bind.1 h with ⟨e, -, hbad⟩ | ⟨u, w₂, hcopy, hchmod⟩
      · exact absurd hbad (ok_ne_error _ _)
      obtain ⟨hne, hfinds⟩ := copyDirectory_finds hsrc ih
        (fun p q => keeps_copy_aside hsrc fuel p q) hheld hp hq
        (fun _ _ _ _ => .inl ⟨_, _, _, _, hget⟩) hcopy
      refine ⟨hne, (hfinds.trans (finds_of_found fun q' leaf hfound => ?_)).mono
        fun l' leaf _ hpre => .inl hpre⟩
      exact (steady_found q' leaf).chmod q st.perm _ _ _ hchmod hfound
    · exact absurd (runs_throw.1 h).1 (ok_ne_error _ _)

end Finds

/-! ### The removal -/

section Remove

variable {src dst : Path} {fs₀ : Fs} {s : Ino} {x₀ : Node} {maxpath : ℕ} {l : List Name}
  {leaf : Content}

/-- **The removal leaves a way** to what has been copied. -/
theorem keeps_removeAside (hsrc : fs₀.get false src = .ok (s, x₀)) (hleaf : fs₀.LeafAt s l leaf)
    (p : Path) : Keeps (Carries (Kept dst fs₀ l leaf)) (removeAside src dst fs₀ p) := by
  intro w r w' h
  obtain ⟨h, haside⟩ := runs_granted.1 h
  obtain ⟨e, -, hfs, -⟩ | ⟨o, hok, hr⟩ := runs_change h
  · exact carries_of_fs hfs
  · obtain ⟨d, n, i, hentry, -, -, -, hfs⟩ := Fs.unlink_eq_ok hok
    intro hkept
    rw [hfs]
    rcases haside () hr s x₀ hsrc d n i hentry l leaf hleaf hkept with
      ⟨q, hq, hfound, hway⟩ | ⟨e, m, o', hdst, hat, hway⟩
    · exact .inl ⟨q, hq, hfound.remove hway⟩
    · exact .inr ⟨e, m, o', hdst, hat.remove hway⟩

end Remove

/-! ### What a move leaves -/

/-- Every file and link that was reached under `src` is as it was, and is reached by the same
names under `src`, under `dst` or from the entry that `dst` named. -/
def LosesNothing (src dst : Path) (fs fs' : Fs) : Prop :=
  ∀ s x l leaf, fs.get false src = .ok (s, x) → fs.LeafAt s l leaf →
    (∃ p, PathAt src l p ∧ fs'.Found p leaf) ∨ Kept dst fs l leaf fs'

/-- `rename` does what it is asked for or nothing: what `src` led to is there still, or it is
what the entry for `dst` leads to now, and below it there is what was there. -/
structure Renames (rename : Path → Path → Prog Unit) : Prop where
  failed {src dst : Path} {w w' : World} {e : Errno}
    (h : Runs (rename src dst) w (.error e) w') : w'.fs = w.fs
  moved {src dst : Path} {w w' : World} {s : Ino} {x : Node}
    (h : Runs (rename src dst) w (.ok ()) w') (hsrc : w.fs.get false src = .ok (s, x)) :
    ((∃ y, w'.fs.get false src = .ok (s, y)) ∨
        ∃ d n o, w.fs.findEntry dst = .ok (.entry d n o) ∧ w'.fs.child d n = some s) ∧
      ∀ l i z, w.fs.descend s l = some i → w.fs.node i = some z → z.kind ≠ .dir →
        w'.fs.descend s l = some i ∧ w'.fs.node i = some z

section Whole

variable {rename : Path → Path → Prog Unit} {src dst : Path} {fs fs' : Fs} {w w' : World}

theorem LosesNothing.of_held (h : ∀ s x, fs.get false src = .ok (s, x) → TreeHeld src fs s fs') :
    LosesNothing src dst fs fs' := by
  intro s x l leaf hsrc hleaf
  exact .inl ((h s x hsrc).found hleaf)

theorem LosesNothing.of_fs (h : fs' = fs) : LosesNothing src dst fs fs' := by
  rw [h]
  exact .of_held fun _ _ hsrc => .refl hsrc

/-- Where `rename` moves the tree itself. -/
theorem Renames.losesNothing (hrename : Renames rename)
    (h : Runs (rename src dst) w (.ok ()) w') : LosesNothing src dst w.fs w'.fs := by
  intro s x l leaf hsrc ⟨i, z, hi, hz, hleaf⟩
  obtain ⟨hwhere, hbelow⟩ := hrename.moved h hsrc
  have hdir : z.kind ≠ .dir := by
    cases z with
    | dir => exact absurd hleaf nofun
    | _ => exact nofun
  obtain ⟨hi', hz'⟩ := hbelow l i z hi hz hdir
  rcases hwhere with ⟨y, hget⟩ | ⟨d, n, o, hentry, hchild⟩
  · obtain ⟨place, hplace, -⟩ := Fs.get_eq_ok.1 hget
    obtain ⟨p, -, hp⟩ := exists_pathAt (Fs.ne_nil_of_resolve hplace) l
    obtain ⟨y', hy'⟩ := Fs.get_pathAt hp hget hi'
    obtain ⟨-, -, -, hnode⟩ := Fs.get_eq_ok.1 hy'
    obtain rfl := Option.some.inj (hz'.symm.trans hnode)
    exact .inl ⟨p, hp, Fs.found_of_get hy' hleaf⟩
  · refine .inr (.inr ⟨d, n, o, hentry, i, z, ?_, hz', hleaf⟩)
    rw [Fs.descend, hchild]
    exact hi'

/-- Where the tree is copied and removed. -/
theorem movePathVia_losesNothing (hrename : Renames rename) {maxpath fuel : ℕ}
    {r : Except Errno Unit} (h : Runs (movePathVia rename (aside src dst w.fs)
      (removeAside src dst w.fs) maxpath fuel src dst) w r w') :
    LosesNothing src dst w.fs w'.fs := by
  unfold movePathVia at h
  obtain ⟨x, w₁, hrun, h⟩ := runs_attempt_bind.1 h
  cases x with
  | ok u =>
    obtain ⟨-, rfl⟩ := runs_pure.1 h
    exact hrename.losesNothing hrun
  | error e =>
    have hfs₁ := hrename.failed hrun
    dsimp only at h
    split_ifs at h
    · obtain ⟨-, rfl⟩ := runs_throw.1 h
      exact .of_fs hfs₁
    rcases runs_bind.1 h with ⟨e', hlstat, -⟩ | ⟨st, w₂, hlstat, h⟩
    · exact .of_fs ((runs_look hlstat).1.trans hfs₁)
    have hfs₂ := (runs_look hlstat).1.trans hfs₁
    rcases runs_bind.1 h with ⟨e', hcopy, -⟩ | ⟨u, w₃, hcopy, h⟩
    · refine .of_held fun s x hsrc => ?_
      refine keeps_copy_aside hsrc fuel src dst _ _ _ hcopy ?_
      rw [hfs₂]
      exact .refl hsrc
    · intro s x l leaf hsrc hleaf
      have hheld : TreeHeld src w.fs s w₂.fs := by
        rw [hfs₂]
        exact .refl hsrc
      obtain ⟨hne, hfinds⟩ :=
        copyPath_finds hsrc maxpath fuel [] src dst w₂ w₃ hcopy .base .base hheld
      obtain ⟨q, -, hq⟩ := exists_pathAt hne l
      have hkept : Kept dst w.fs l leaf w₃.fs :=
        .inl ⟨q, hq, hfinds l leaf q hleaf hq (.inl List.nil_prefix)⟩
      have hremove : ∀ p, Keeps (Carries (Kept dst w.fs l leaf)) (removeAside src dst w.fs p) :=
        keeps_removeAside hsrc hleaf
      refine .inr ?_
      split_ifs at h
      · have hlook : ∀ {α : Type} (c : Call) (f : Outcome → Fs → Except Errno α),
            Keeps (Carries (Kept dst w.fs l leaf)) (look c f) := fun _ _ => carries_look
        exact keeps_removePathVia hlook hremove fuel src true false _ _ _ h hkept
      · exact hremove src _ _ _ h hkept

/-- **When a move loses nothing.**  Every run in which no file of the source is opened for
writing, nothing that has been copied is written over or removed, and what a link leads to is not
copied in its place leaves each file and link that was reached under the source as it was, there or
at its place in the destination; whether the calls fail or not. -/
theorem movePath_losesNothing (hrename : Renames rename) (maxpath : ℕ) (src dst : Path)
    (w : World) : ∀ fuel r w', Runs (movePathVia rename (aside src dst w.fs)
      (removeAside src dst w.fs) maxpath fuel src dst) w r w' →
    Runs (movePath rename maxpath fuel src dst) w r w' ∧ LosesNothing src dst w.fs w'.fs := by
  intro fuel r w' h
  refine ⟨?_, movePathVia_losesNothing hrename h⟩
  refine movePathVia_refines rename (fun p => ?_) (fun p => ?_) (fun p => ?_) (fun p => ?_) fuel
    src dst _ _ _ h
  · exact Refines.granted _ (openRead p)
  · exact Refines.granted _ (openWrite p)
  · exact Refines.granted _ (unlink p)
  · exact Refines.granted _ (unlink p)

end Whole

/-! ### Two devices -/

/-- The root of one device, with the directory `/m` for the root of another. -/
def mountFs : Fs where
  node i :=
    if i = ⟨0, 0⟩ then some (.dir 0o755 ⟨0, 0⟩ [⟨nameOf 109 (by decide), some ⟨1, 0⟩⟩])
    else if i = ⟨1, 0⟩ then some (.dir 0o755 ⟨0, 0⟩ [])
    else none
  root := ⟨0, 0⟩
  cwd := ⟨0, 0⟩
  maxLinks := 8
  next := 1
  unused i hi := by
    obtain ⟨dev, num⟩ := i
    have hnum : num ≠ 0 := Nat.ne_of_gt hi
    rw [if_neg fun h => hnum (Ino.mk.inj h).2, if_neg fun h => hnum (Ino.mk.inj h).2]
  nodup d mode up slots h := by
    split_ifs at h
    · obtain ⟨-, -, rfl⟩ := Node.dir.inj (Option.some.inj h)
      exact List.nodup_singleton _
    · obtain ⟨-, -, rfl⟩ := Node.dir.inj (Option.some.inj h)
      exact List.nodup_nil
  closed d n i h := by
    unfold Nodes.entry at h
    dsimp only at h
    by_cases hroot : d = ⟨0, 0⟩
    · rw [if_pos hroot] at h
      dsimp only at h
      split_ifs at h
      · obtain rfl := Option.some.inj (Except.ok.inj h)
        rw [if_pos hroot]
        rfl
      · obtain rfl := Option.some.inj (Except.ok.inj h)
        rfl
      · unfold findSlot at h
        rw [List.findSome?_cons] at h
        split_ifs at h
        · obtain rfl := Option.some.inj (Except.ok.inj h)
          rfl
        · exact absurd (Except.ok.inj h) nofun
    · rw [if_neg hroot] at h
      by_cases hmount : d = ⟨1, 0⟩
      · rw [if_pos hmount] at h
        dsimp only at h
        split_ifs at h
        · obtain rfl := Option.some.inj (Except.ok.inj h)
          rw [if_neg hroot, if_pos hmount]
          rfl
        · obtain rfl := Option.some.inj (Except.ok.inj h)
          rfl
        · exact absurd (Except.ok.inj h) nofun
      · rw [if_neg hmount] at h
        exact absurd h nofun

/-- The file `/f` with a byte in it and, on the other device, the link `/m/l` to it. -/
def mountWorld : World where
  fs := ((mountFs.make ⟨0, 0⟩ (nameOf 102 (by decide)) 1 (.file 0o640) rfl).alter ⟨0, 1⟩
    (Node.setData [121]) (sameShape_setData _)).make ⟨1, 0⟩ (nameOf 108 (by decide)) 0
      (.link [47, 102]) rfl
  env := smallWorld.env
  calls := []

/-- `rename` from one device to another. -/
def renameAcross (_ _ : Path) : Prog Unit := throw .exdev

theorem renames_renameAcross : Renames renameAcross where
  failed h := by
    rw [(runs_throw.1 h).2]
  moved h := absurd (runs_throw.1 h).1 (ok_ne_error _ _)

/-- What the move of `/f` to `/m/h` finds once the file is copied: the entry that it removes is
not one of those on the way to the copy. -/
def copiedAcross (w : World) : Bool :=
  endsWith (unlink [47, 102]) (fun _ _ => true) w &&
    (match w.fs.findEntry [47, 102] with
      | .ok (.entry d n _) => decide (d = ⟨0, 0⟩ ∧ n = nameOf 102 (by decide))
      | _ => false) &&
    decide (w.fs.base w.fs.cwd [47, 109, 47, 104] = ⟨0, 0⟩) &&
    decide (w.fs.node.entry ⟨0, 0⟩ (nameOf 109 (by decide)) = .ok (some ⟨1, 0⟩)) &&
    decide (w.fs.node.link ⟨1, 0⟩ = none) &&
    decide (w.fs.node.entry ⟨1, 0⟩ (nameOf 104 (by decide)) = .ok (some ⟨1, 3⟩)) &&
    decide (w.fs.node.link ⟨1, 3⟩ = none)

theorem entry_of_copiedAcross {w : World} {d i : Ino} {n : Name} (h : copiedAcross w = true)
    (hfind : w.fs.findEntry [47, 102] = .ok (.entry d n (some i))) :
    d = ⟨0, 0⟩ ∧ n = nameOf 102 (by decide) := by
  unfold copiedAcross at h
  simp only [Bool.and_eq_true, decide_eq_true_eq, hfind] at h
  exact h.1.1.1.1.1.2

theorem not_onWay_of_copiedAcross {w : World} {d i : Ino} {n : Name} (follow : Bool)
    (h : copiedAcross w = true) (hfind : w.fs.findEntry [47, 102] = .ok (.entry d n (some i))) :
    ¬w.fs.OnWay follow [47, 109, 47, 104] d n := by
  intro hway
  obtain ⟨rfl, rfl⟩ := entry_of_copiedAcross h hfind
  unfold copiedAcross at h
  simp only [Bool.and_eq_true, decide_eq_true_eq, hfind] at h
  obtain ⟨⟨⟨⟨⟨-, hbase⟩, hmount⟩, hdir⟩, hmade⟩, hfile⟩ := h
  have hnames : names [47, 109, 47, 104] =
      [nameOf 109 (by decide), nameOf 104 (by decide)] := rfl
  rw [Fs.OnWay, hbase, hnames] at hway
  obtain ⟨j, hj, ⟨-, hn⟩ | ⟨-, hway⟩ | hlink⟩ := hway.cons
  · exact absurd hn (by decide)
  · obtain rfl := Option.some.inj (Except.ok.inj (hmount.symm.trans hj))
    obtain ⟨k, hk, ⟨hd, -⟩ | ⟨-, hway⟩ | hlink⟩ := hway.cons
    · exact absurd hd (by decide)
    · exact absurd rfl hway.ne_nil
    · obtain rfl := Option.some.inj (Except.ok.inj (hmade.symm.trans hk))
      rw [hfile] at hlink
      exact absurd hlink Bool.false_ne_true
  · obtain rfl := Option.some.inj (Except.ok.inj (hmount.symm.trans hj))
    rw [hdir] at hlink
    exact absurd hlink Bool.false_ne_true

/-- The move of `/f` to `/m/h`, which does not exist. -/
theorem movePath_losesNothing_small : ∃ w', Runs (movePath renameAcross 512 4 [47, 102]
    [47, 109, 47, 104]) mountWorld (.ok ()) w' ∧
      LosesNothing [47, 102] [47, 109, 47, 104] mountWorld.fs w'.fs := by
  have hget : mountWorld.fs.get false [47, 102] = .ok (⟨0, 1⟩, .reg 0o640 [121]) := rfl
  -- the source is a file
  have hlinks : ∀ s x, mountWorld.fs.get false [47, 102] = .ok (s, x) → ∀ l target,
      ¬mountWorld.fs.LeafAt s l (.link target) := by
    intro s x hs l target hl
    obtain ⟨rfl, rfl⟩ := Prod.mk.inj (Except.ok.inj (hget.symm.trans hs))
    obtain rfl := hl.eq_of_prefix (List.nil_prefix) rfl rfl nofun
    obtain ⟨i, y, hi, hy, hleaf⟩ := hl
    obtain rfl : (⟨0, 1⟩ : Ino) = i := Option.some.inj hi
    have hnode : mountWorld.fs.node ⟨0, 1⟩ = some (.reg 0o640 [121]) := rfl
    obtain rfl := Option.some.inj (hnode.symm.trans hy)
    exact absurd (Option.some.inj hleaf) nofun
  let w₁ : World := { mountWorld with calls := [.lstat [47, 102]] }
  have hlstat : Runs (lstat [47, 102]) mountWorld (.ok ⟨⟨0, 1⟩, .reg, 0o640⟩) w₁ := rfl
  have hends : endsWith (copyPath 512 4 [47, 102] [47, 109, 47, 104] true)
      (fun _ => copiedAcross) w₁ = true := by decide +kernel
  obtain ⟨⟨⟩, w₂, hcopy, hcopied⟩ := exists_of_endsWith hends
  have hvia : Runs (copyPathVia (aside [47, 102] [47, 109, 47, 104] mountWorld.fs) 512 4 [47, 102]
      [47, 109, 47, 104] true) w₁ (.ok ()) w₂ := by
    obtain ⟨r, w', hvia⟩ : ∃ r w', Runs (copyPathVia (aside [47, 102] [47, 109, 47, 104]
        mountWorld.fs) 512 4 [47, 102] [47, 109, 47, 104] true) w₁ r w' := by
      have hlstat' : Runs (lstat [47, 102]) w₁ (.ok ⟨⟨0, 1⟩, .reg, 0o640⟩)
          { w₁ with calls := .lstat [47, 102] :: w₁.calls } := rfl
      refine hlstat'.exists_bind (Runs.exists_attempt_bind rfl ?_)
      rw [if_neg Bool.false_ne_true]
      have hread : ∀ w, w.fs = mountWorld.fs → w.env = mountWorld.env → Runs (openRead [47, 102]) w
          (.ok ⟨0, 1⟩) { w with calls := .openRead [47, 102] :: w.calls } := by
        rintro ⟨fs, env, calls⟩ rfl rfl
        rfl
      refine Runs.exists_bind (runs_granted.2 ⟨hread _ rfl rfl, fun _ _ s x hs l target hl =>
        absurd hl (hlinks s x hs l target)⟩) (Runs.exists_attempt_bind
          (runs_granted.2 ⟨rfl, fun _ _ s x hs => ⟨fun l target hl =>
            absurd hl (hlinks s x hs l target), fun place t hfind ht => ?_⟩⟩) ⟨_, _, rfl⟩)
      have hmissing : mountWorld.fs.find true [47, 109, 47, 104] =
          .ok (.entry ⟨1, 0⟩ (nameOf 104 (by decide)) none) := rfl
      obtain rfl := Except.ok.inj (hmissing.symm.trans hfind)
      exact absurd ht nofun
    obtain ⟨rfl, rfl⟩ := (copyPath_aside_refines _ _ _ _ _ _ _ _ _ _ hvia).unique hcopy
    exact hvia
  have hunlink : endsWith (unlink [47, 102]) (fun _ _ => true) w₂ = true := by
    unfold copiedAcross at hcopied
    simp only [Bool.and_eq_true] at hcopied
    exact hcopied.1.1.1.1.1.1
  obtain ⟨⟨⟩, w', hunlink, -⟩ := exists_of_endsWith hunlink
  have hremove : Runs (removeAside [47, 102] [47, 109, 47, 104] mountWorld.fs [47, 102]) w₂
      (.ok ()) w' := by
    refine runs_granted.2 ⟨hunlink, fun _ _ s x hsrc d n i hfind l leaf hleaf hkept => ?_⟩
    obtain ⟨rfl, rfl⟩ := Prod.mk.inj (Except.ok.inj (hget.symm.trans hsrc))
    obtain rfl := hleaf.eq_of_prefix (List.nil_prefix) rfl rfl nofun
    rcases hkept with ⟨q, hq, hfound⟩ | ⟨e, m, o, hdst, hat⟩
    · refine .inl ⟨q, hq, hfound, ?_⟩
      rw [hq.eq_base]
      exact not_onWay_of_copiedAcross leaf.follow hcopied hfind
    · refine .inr ⟨e, m, o, hdst, hat, ?_⟩
      have hentry : mountWorld.fs.findEntry [47, 109, 47, 104] =
          .ok (.entry ⟨1, 0⟩ (nameOf 104 (by decide)) none) := rfl
      obtain ⟨rfl, rfl, -⟩ := Place.entry.inj (Except.ok.inj (hentry.symm.trans hdst))
      obtain ⟨rfl, -⟩ := entry_of_copiedAcross hcopied hfind
      rintro (⟨hbad, -⟩ | ⟨j, -, hbad⟩)
      · exact absurd hbad (by decide)
      · exact hbad
  refine ⟨w', movePath_losesNothing renames_renameAcross 512 _ _ mountWorld 4 _ _ ?_⟩
  refine runs_attempt_bind.2 ⟨.error .exdev, mountWorld, runs_throw.2 ⟨rfl, rfl⟩, ?_⟩
  exact runs_bind.2 (.inr ⟨_, w₁, hlstat, runs_bind.2 (.inr ⟨(), w₂, hvia, hremove⟩)⟩)

/-- The move of `/f` to `/m/l`, which is a link to it, empties the file and removes it. -/
theorem movePath_loses : ¬∀ rename, Renames rename → ∀ maxpath fuel src dst w r w',
    Runs (movePath rename maxpath fuel src dst) w r w' → LosesNothing src dst w.fs w'.fs := by
  intro hall
  obtain ⟨w', hrun, hsrc, hdst, hchild, hnode⟩ : ∃ w', Runs (movePath renameAcross 512 2 [47, 102]
      [47, 109, 47, 108]) mountWorld (.ok ()) w' ∧ w'.fs.get true [47, 102] = .error .enoent ∧
        w'.fs.get true [47, 109, 47, 108] = .error .enoent ∧
        w'.fs.child ⟨1, 0⟩ (nameOf 108 (by decide)) = some ⟨1, 2⟩ ∧
        w'.fs.node ⟨1, 2⟩ = some (.lnk [47, 102]) := ⟨_, rfl, rfl, rfl, rfl, rfl⟩
  have hleaf : mountWorld.fs.LeafAt ⟨0, 1⟩ [] (.file [121]) :=
    ⟨⟨0, 1⟩, .reg 0o640 [121], rfl, rfl, rfl⟩
  have hentry : mountWorld.fs.findEntry [47, 109, 47, 108] =
      .ok (.entry ⟨1, 0⟩ (nameOf 108 (by decide)) (some ⟨1, 2⟩)) := rfl
  rcases hall _ renames_renameAcross _ _ _ _ _ _ _ hrun _ _ [] (.file [121]) rfl hleaf with
    ⟨p, hp, i, x, hget, -⟩ | ⟨p, hp, i, x, hget, -⟩ | ⟨d, n, o, hplace, i, x, hi, hx, hdata⟩
  · rw [hp.eq_base] at hget
    exact absurd (hget.symm.trans hsrc) (ok_ne_error _ _)
  · rw [hp.eq_base] at hget
    exact absurd (hget.symm.trans hdst) (ok_ne_error _ _)
  · obtain ⟨rfl, rfl, -⟩ := Place.entry.inj (Except.ok.inj (hentry.symm.trans hplace))
    rw [Fs.descend, hchild] at hi
    obtain rfl : _ = i := Option.some.inj hi
    obtain rfl := Option.some.inj (hnode.symm.trans hx)
    exact absurd (Option.some.inj hdata) (by simp)

end Fsutil
end V6User
