import V6User.Fsutil.CopyContent
import V6User.Fsutil.CopyInside
import V6User.Vfs.SameTree

/-!
# A copied tree

What a recursive copy to a place where nothing is has made when `fsutil_copy_path` returns 0.
Each of the three kinds of a source makes one entry with a new tree below it, and leaves
everything else as it is (`CopiedTo`).  The loop over a directory keeps the part of the
entries that it has copied so far (`Progress`).

Where `fsutil_copy_symlink` fails, the code calls `stat` and copies what the link leads to; so
a link was copied as a link in all calls without a `stat` (`LinksCopied`).
-/

namespace V6User
namespace Fsutil

open Vfs Effect

/-- No symbolic link was followed because it could not be copied. -/
def LinksCopied (w w' : World) : Prop := ∀ T, w'.calls = T ++ w.calls → ∀ p, Call.stat p ∉ T

theorem LinksCopied.mono {w w' a b : World} (h : LinksCopied w w') (ha : w.calls <:+ a.calls)
    (hb : b.calls <:+ w'.calls) : LinksCopied a b := by
  intro T hT p hp
  obtain ⟨U, hU⟩ := ha
  obtain ⟨V, hV⟩ := hb
  refine h (V ++ (T ++ U)) ?_ p (List.mem_append_right _ (List.mem_append_left _ hp))
  rw [List.append_assoc, List.append_assoc, hU, ← hT, hV]

/-- A call of `stat` is one of those calls. -/
theorem LinksCopied.not_stat {w w' a b : World} {p : Path} (h : LinksCopied w w')
    (hcall : b.calls = .stat p :: a.calls) (ha : w.calls <:+ a.calls)
    (hb : b.calls <:+ w'.calls) : False := by
  refine h.mono ha hb [.stat p] ?_ p (List.mem_singleton_self _)
  rw [hcall]
  rfl

/-- The tree at `s` has been copied to `dst`, where nothing was: there is the entry `n` of `d`
for `t` now, with a tree that is the same. -/
structure CopiedTo (fs fs' : Fs) (s : Ino) (dst : Path) (d : Ino) (n : Name) (t : Ino) : Prop
    extends Grown fs fs' d n t where
  found : fs.findEntry dst = .ok (.entry d n none)
  same : SameTree fs fs' s t
  folder : WantsDir dst → ∃ mode up slots, fs'.node t = some (.dir mode up slots)

/-- What `copy` copies without an error, to where nothing is and not below the source, it has
copied. -/
def CopiesTrees (copy : Path → Path → Prog Unit) : Prop :=
  ∀ src dst w w' s x, Runs (copy src dst) w (.ok ()) w' → LinksCopied w w' →
    w.fs.get false src = .ok (s, x) → w.fs.Missing dst →
    (∀ d n, w.fs.findEntry dst = .ok (.entry d n none) → ¬InTree w.fs s d) →
    ∃ d n t, CopiedTo w.fs w'.fs s dst d n t

/-! ### Files and links -/

section Leaves

variable {maxpath fuel mode : ℕ} {src dst target : Path} {w w' : World} {s : Ino}
  {data : List UInt8} {st : Stat}

/-- **A file** is copied. -/
theorem copyRegular_copiedTo (h : Runs (copyRegular fuel src dst st) w (.ok ()) w')
    (hsrc : w.fs.get true src = .ok (s, .reg mode data)) (hperm : st.perm = mode)
    (hdst : w.fs.Missing dst) : ∃ d n t, CopiedTo w.fs w'.fs s dst d n t := by
  obtain ⟨-, -, -, hs⟩ := Fs.get_eq_ok.1 hsrc
  have hother : w.fs.OtherFile s dst := by
    intro place j hfind hj
    rw [hdst.find_true hfind] at hj
    exact absurd hj nofun
  obtain ⟨t, k, m, fs₁, hwrite, -, hsub, hget, hnode⟩ := copyRegular_ok h hsrc hother
  obtain ⟨-, -, -, ht⟩ := Fs.get_eq_ok.1 hget
  rw [hperm] at ht
  rcases Fs.openWrite_eq_ok hwrite with ⟨d, n, hmissing, hfind, rfl, hfs⟩ | ⟨place, hfind, hi, -⟩
  · obtain ⟨hwants, hentry⟩ := Fs.find_missing (hdst.find_false hfind)
    have hleaf : ∀ m, w'.fs.child (w.fs.new d) m = none := Fs.child_of_not_dir fun _ _ _ hdir =>
      absurd (ht.symm.trans hdir) nofun
    have hgrown : Grown w.fs w'.fs d n (w.fs.new d) := by
      refine Grown.of_make hmissing (k := k) (x := .file m) ?_ (fun i _ hi => ?_) fun i hi => ?_
      · rw [← hfs]
        exact hsub
      · rw [← hfs]
        exact hnode i hi
      · rw [hi.eq_top hleaf]
        exact w.fs.unused _ (Nat.le_refl _)
    exact ⟨d, n, _, hgrown, hentry, .file hs ht, fun hw => absurd hw hwants⟩
  · rw [hdst.find_true hfind] at hi
    exact absurd hi nofun

/-- `lstat` finds nothing where nothing is. -/
theorem not_runs_lstat_missing (hdst : w.fs.Missing dst) : ¬Runs (lstat dst) w (.ok st) w' := by
  intro h
  obtain ⟨-, ⟨e, hbad, -⟩ | ⟨o, st', hst, -⟩⟩ := runs_look h
  · exact absurd hbad nofun
  · obtain ⟨x, hx, -⟩ := Fs.statOf_eq_ok.1 hst
    exact hdst.not_get hx

/-- **A symbolic link** is copied. -/
theorem copySymlink_copiedTo (h : Runs (copySymlink maxpath src dst) w (.ok ()) w')
    (hsrc : w.fs.get false src = .ok (s, .lnk target)) (hdst : w.fs.Missing dst) :
    ∃ d n t, CopiedTo w.fs w'.fs s dst d n t := by
  obtain ⟨-, -, -, hs⟩ := Fs.get_eq_ok.1 hsrc
  rw [copySymlink, copySymlinkVia, systemCalls_unlink] at h
  rcases runs_bind.1 h with ⟨e, -, hbad⟩ | ⟨read, w₁, hread, h⟩
  · exact absurd hbad nofun
  obtain ⟨hfs₁, ⟨e, hbad, -⟩ | ⟨o, read', htarget, heq⟩⟩ := runs_look hread
  · exact absurd hbad nofun
  obtain rfl := Except.ok.inj heq
  rw [hsrc] at htarget
  have hread' : read = target.take (maxpath - 1) := (Except.ok.inj htarget).symm
  split_ifs at h with hlong
  · exact absurd (runs_throw.1 h).1 nofun
  -- the whole target has been read
  have hwhole : read = target := by
    rw [hread', List.length_take] at hlong
    rw [hread']
    exact List.take_of_length_le (by omega)
  obtain ⟨dstSt, w₂, hlstat, h⟩ := runs_attempt_bind.1 h
  have hfs₂ := (runs_look hlstat).1
  have hdst₁ : w₁.fs.Missing dst := by
    rw [hfs₁]
    exact hdst
  cases dstSt with
  | ok dt => exact absurd hlstat (not_runs_lstat_missing hdst₁)
  | error e =>
    dsimp only at h
    split_ifs at h
    · exact absurd (runs_throw.1 h).1 nofun
    · obtain ⟨e, hbad, -⟩ | ⟨o, hmake, -⟩ := runs_change h
      · exact absurd hbad nofun
      rw [hfs₂, hfs₁, hwhole] at hmake
      obtain ⟨d, n, hmissing, hfind, hfs⟩ := Fs.makeNew_eq_ok hmake
      obtain ⟨hwants, hentry⟩ := Fs.find_missing hfind
      have ht : w'.fs.node (w.fs.new d) = some (.lnk target) := by
        rw [hfs]
        exact Nodes.make_self
      have hleaf : ∀ m, w'.fs.child (w.fs.new d) m = none := Fs.child_of_not_dir fun _ _ _ hdir =>
        absurd (ht.symm.trans hdir) nofun
      have hgrown : Grown w.fs w'.fs d n (w.fs.new d) := by
        refine Grown.of_make hmissing (k := o.slot) (x := .link target) ?_ (fun i _ _ => ?_)
          fun i hi => ?_
        · rw [hfs]
          exact Sub.refl _
        · rw [hfs]
        · rw [hi.eq_top hleaf]
          exact w.fs.unused _ (Nat.le_refl _)
      exact ⟨d, n, _, hgrown, hentry, .link hs ht, fun hw => absurd hw hwants⟩

end Leaves

/-! ### Directories -/

/-- Both directories are there, the destination being empty and outside the source. -/
structure Entered (fs : Fs) (src dst : Path) (s t : Ino) (slots : List Slot) : Prop where
  source : ∃ mode up, fs.get false src = .ok (s, .dir mode up slots)
  target : ∃ mode up, fs.get false dst = .ok (t, .dir mode up [])
  outside : ¬InTree fs s t

/-- The entries in the slots `done` of the source have been copied, and nothing else was done. -/
structure Progress (fs₁ : Fs) (s t : Ino) (done : List Slot) (fs : Fs) : Prop where
  sub : Sub fs₁ fs
  dir : ∃ mode up slots, fs.node t = some (.dir mode up slots)
  node : ∀ i, (fs₁.node i).isSome → i ≠ t → fs.node i = fs₁.node i
  names : ∀ m, (fs.child t m).isSome ↔ ¬m.IsDots ∧ ∃ i, (⟨m, some i⟩ : Slot) ∈ done
  trees : ∀ m i j, fs₁.child s m = some i → fs.child t m = some j →
    SameTree fs₁ fs i j ∧ ∀ e, InTree fs j e → fs₁.node e = none

section Directory

variable {maxpath fuel : ℕ} {copy : Path → Path → Prog Unit} {src dst sc dc : Path}
  {fs₁ fs fs' : Fs} {s t i j : Ino} {slots done rest : List Slot} {m : Name} {w w' : World}

theorem Entered.sourceDir (he : Entered fs₁ src dst s t slots) :
    ∃ mode up, fs₁.node s = some (.dir mode up slots) := by
  obtain ⟨mode, up, hget⟩ := he.source
  obtain ⟨-, -, -, hs⟩ := Fs.get_eq_ok.1 hget
  exact ⟨mode, up, hs⟩

theorem Entered.targetDir (he : Entered fs₁ src dst s t slots) :
    ∃ mode up, fs₁.node t = some (.dir mode up []) := by
  obtain ⟨mode, up, hget⟩ := he.target
  obtain ⟨-, -, -, ht⟩ := Fs.get_eq_ok.1 hget
  exact ⟨mode, up, ht⟩

/-- At the start nothing has been copied. -/
theorem Entered.progress (he : Entered fs₁ src dst s t slots) : Progress fs₁ s t [] fs₁ := by
  obtain ⟨mode, up, ht⟩ := he.targetDir
  have hnone : ∀ m, fs₁.child t m = none := by
    intro m
    rcases hm : fs₁.child t m with _ | i
    · rfl
    · exact absurd ((Fs.child_eq_some_iff ht).1 hm).2 List.not_mem_nil
  refine ⟨Sub.refl _, ⟨mode, up, [], ht⟩, fun _ _ _ => rfl, fun m => ?_, fun m i j _ hj => ?_⟩
  · rw [hnone m]
    exact iff_of_false nofun fun ⟨_, i, hi⟩ => List.not_mem_nil hi
  · rw [hnone m] at hj
    exact absurd hj nofun

/-- The source stays as it is. -/
theorem Progress.sameNodes (hp : Progress fs₁ s t done fs) (he : Entered fs₁ src dst s t slots) :
    SameNodes s fs₁ fs := by
  obtain ⟨mode, up, hs⟩ := he.sourceDir
  intro i hi
  refine hp.node i (hi.isSome (hs ▸ rfl)) ?_
  rintro rfl
  exact he.outside hi

/-- A slot without an entry is passed over. -/
theorem Progress.skip (hp : Progress fs₁ s t done fs) {slot : Slot}
    (hslot : slot.ino = none ∨ slot.name.IsDots) : Progress fs₁ s t (done ++ [slot]) fs := by
  refine ⟨hp.sub, hp.dir, hp.node, fun m => ?_, hp.trees⟩
  rw [hp.names]
  refine and_congr_right fun hdots => exists_congr fun i => ?_
  rw [List.mem_append, List.mem_singleton]
  refine (or_iff_left ?_).symm
  rintro rfl
  rcases hslot with hdead | hname
  · exact absurd hdead nofun
  · exact hdots hname

/-- **One entry more** has been copied. -/
theorem Progress.copied (hp : Progress fs₁ s t done fs) (he : Entered fs₁ src dst s t slots)
    (hi : fs₁.child s m = some i) (hc : CopiedTo fs fs' i dc t m j) :
    Progress fs₁ s t (done ++ [⟨m, some i⟩]) fs' := by
  obtain ⟨mode, up, ht⟩ := he.targetDir
  have hsource := (hp.sameNodes he).child hi
  have hdots := hc.not_isDots
  have hdir := Fs.dir_of_child ((hc.child m).trans (if_pos rfl))
  refine ⟨hp.sub.trans hc.sub, hdir, fun e hin hne => ?_, fun k => ?_, fun k i' j' hi' hj' => ?_⟩
  · rw [hc.node e (hp.sub.isSome e hin) hne, hp.node e hin hne]
  · rw [hc.child k]
    simp only [List.mem_append, List.mem_singleton]
    by_cases hk : k = m
    · rw [if_pos hk, hk]
      exact iff_of_true rfl ⟨hdots, i, .inr rfl⟩
    · rw [if_neg hk, hp.names]
      refine and_congr_right fun _ => exists_congr fun e => (or_iff_left fun heq => ?_).symm
      exact hk (Slot.mk.inj heq).1
  · rw [hc.child k] at hj'
    by_cases hk : k = m
    · -- the new entry
      rw [if_pos hk] at hj'
      rw [hk, hi] at hi'
      obtain rfl := Option.some.inj hi'
      obtain rfl := Option.some.inj hj'
      refine ⟨hc.same.congr hsource.symm fun _ _ => rfl, fun e hin => ?_⟩
      rcases hnode : fs₁.node e with _ | x
      · rfl
      · have hsome := hp.sub.isSome e (hnode ▸ rfl)
        rw [hc.fresh e hin] at hsome
        exact absurd hsome nofun
    · -- an entry that was there has a tree without the directory itself
      rw [if_neg hk] at hj'
      obtain ⟨hsame, hfresh⟩ := hp.trees k i' j' hi' hj'
      have hkept : SameNodes j' fs fs' := by
        intro e hin
        refine hc.node e (hin.isSome (Fs.isSome_of_child hj')) ?_
        rintro rfl
        exact absurd ((hfresh e hin).symm.trans ht) nofun
      exact ⟨hsame.congr (fun _ _ => rfl) hkept, fun e hin => hfresh e (hkept.inTree_iff.1 hin)⟩

/-- The paths of a child: the one leads to it, and at the other there is nothing. -/
theorem Progress.paths (hp : Progress fs₁ s t done fs) (he : Entered fs₁ src dst s t slots)
    (hi : fs₁.child s m = some i) (hnew : fs.child t m = none)
    (hsc : joinPath maxpath src m.bytes = .ok sc) (hdc : joinPath maxpath dst m.bytes = .ok dc) :
    (∃ x, fs.get false sc = .ok (i, x)) ∧ fs.Missing dc ∧
      ∀ d n, fs.findEntry dc = .ok (.entry d n none) → d = t ∧ n = m := by
  obtain ⟨mode, up, hsrc⟩ := he.source
  obtain ⟨mode', up', hdst⟩ := he.target
  obtain ⟨mode₁, up₁, hs⟩ := he.sourceDir
  obtain ⟨mode₂, up₂, ht⟩ := he.targetDir
  have hlink : ∀ (d : Ino) (mode : ℕ) (up : Ino) (l : List Slot),
      fs₁.node d = some (.dir mode up l) → fs.node.link d = none := by
    intro d mode up l hd
    rw [hp.sub.link d (hd ▸ rfl)]
    unfold Nodes.link
    rw [hd]
  obtain ⟨place, hplace, -, -⟩ := Fs.get_eq_ok.1 hsrc
  obtain ⟨place', hplace', -, -⟩ := Fs.get_eq_ok.1 hdst
  have hbelow := below_of_joinPath (Fs.ne_nil_of_resolve hplace) hsc
  have hbelow' := below_of_joinPath (Fs.ne_nil_of_resolve hplace') hdc
  obtain ⟨y, hsrc'⟩ := Fs.get_mono hp.sub hsrc
  obtain ⟨y', hdst'⟩ := Fs.get_mono hp.sub hdst
  have hdots := Fs.not_isDots_of_child hi
  -- what the path of the child leads to in the destination
  have hfind : ∀ place, fs.find false dc = .ok place → place = .entry t m none := by
    intro place hplace
    obtain ⟨place₁, d, o, hplace₁, hd, hentry, rfl⟩ := (Fs.find_below hbelow').1 hplace
    obtain ⟨place₂, hplace₂, ht₂⟩ := Fs.resolve_comps_of_get hdst' (hlink t _ _ _ ht)
    obtain rfl := Except.ok.inj (hplace₁.symm.trans hplace₂)
    obtain rfl := Option.some.inj (hd.symm.trans ht₂)
    cases o with
    | none => rfl
    | some j =>
      rw [Fs.child_of_entry hentry hdots] at hnew
      exact absurd hnew nofun
  refine ⟨(Fs.get_below_iff hbelow hsrc' (hlink s _ _ _ hs) hdots).2 (hp.sub.child hi), ?_, ?_⟩
  · intro place hplace
    rw [hfind place hplace]
    rfl
  · intro d n hentry
    rw [Fs.findEntry_below hbelow'] at hentry
    obtain ⟨rfl, rfl, -⟩ := Place.entry.inj (hfind _ hentry)
    exact ⟨rfl, rfl⟩

/-- **The records of one buffer** are copied. -/
theorem copyRecords_progress (hcopy : CopiesTrees copy) (honward : ∀ s d, Keeps Onward (copy s d))
    (he : Entered fs₁ src dst s t slots) {l : List Slot} (hsplit : slots = done ++ (l ++ rest))
    (h : Runs (copyRecords maxpath copy src dst (l.map Slot.dirent)) w (.ok ()) w')
    (hlinks : LinksCopied w w') (hp : Progress fs₁ s t done w.fs) :
    Progress fs₁ s t (done ++ l) w'.fs := by
  induction l generalizing done w with
  | nil =>
    obtain ⟨-, rfl⟩ := runs_pure.1 h
    rw [List.append_nil]
    exact hp
  | cons slot l ih =>
    have hsplit' : slots = done ++ [slot] ++ (l ++ rest) := by
      rw [hsplit, List.append_assoc]
      rfl
    have happend : done ++ slot :: l = done ++ [slot] ++ l := by
      rw [List.append_assoc]
      rfl
    have hlen : slot.dirent.reclen ≠ 0 := by
      show 20 + slot.name.bytes.length ≠ 0
      omega
    rw [List.map_cons, copyRecords, if_neg hlen] at h
    rw [happend]
    by_cases hlive : slot.dirent.ino ≠ 0 ∧ (!isDotOrDotdot slot.dirent.name.bytes) = true
    · rw [if_pos hlive] at h
      obtain ⟨m, _ | i⟩ := slot
      · exact absurd rfl hlive.1
      have hdots : ¬m.IsDots := by
        rw [← isDotOrDotdot_iff, Bool.not_eq_true]
        exact Bool.not_eq_true' _ ▸ hlive.2
      obtain ⟨mode, up, hs⟩ := he.sourceDir
      have hi : fs₁.child s m = some i := by
        refine (Fs.child_eq_some_iff hs).2 ⟨hdots, ?_⟩
        rw [hsplit]
        exact List.mem_append_right _ List.mem_cons_self
      -- the names of the slots are different
      have hnew : w.fs.child t m = none := by
        rw [← Option.not_isSome_iff_eq_none, hp.names]
        rintro ⟨-, i', hi'⟩
        have hnodup := fs₁.nodup s mode up slots hs
        rw [hsplit] at hnodup
        unfold liveNames at hnodup
        rw [List.filterMap_append] at hnodup
        refine (List.nodup_append.1 hnodup).2.2 m ?_ m ?_ rfl
        · exact List.mem_filterMap.2 ⟨_, hi', rfl⟩
        · exact List.mem_filterMap.2 ⟨_, List.mem_append_left _ List.mem_cons_self, rfl⟩
      rcases runs_ofExcept_bind.1 h with ⟨e, -, hbad, -⟩ | ⟨sc, hsc, hjoined⟩
      · cases hbad
      rcases runs_ofExcept_bind.1 hjoined with ⟨e, -, hbad, -⟩ | ⟨dc, hdc, hthere⟩
      · cases hbad
      rcases runs_bind.1 hthere with ⟨e, -, hbad⟩ | ⟨u, w₁, hrun, hrest⟩
      · cases hbad
      obtain ⟨⟨x, hget⟩, hmissing, hplace⟩ := hp.paths he hi hnew hsc hdc
      have hbefore := (honward sc dc _ _ _ hrun).calls
      have hafter := (keeps_copyRecords honward src dst _ _ _ _ hrest).calls
      have hsource := hp.sameNodes he
      obtain ⟨d, n, j, hc⟩ := hcopy sc dc w w₁ i x hrun
        (hlinks.mono (List.suffix_refl _) hafter) hget hmissing (by
          intro d n hentry hin
          obtain ⟨rfl, -⟩ := hplace d n hentry
          refine he.outside (hsource.inTree_iff.1 ?_)
          exact InTree.trans (.child .top (hp.sub.child hi)) hin)
      obtain ⟨rfl, rfl⟩ := hplace d n hc.found
      exact ih hsplit' hrest (hlinks.mono hbefore (List.suffix_refl _)) (hp.copied he hi hc)
    · rw [if_neg hlive] at h
      refine ih hsplit' h hlinks (hp.skip ?_)
      obtain ⟨m, _ | i⟩ := slot
      · exact .inl rfl
      · right
        rw [← isDotOrDotdot_iff]
        rcases hm : isDotOrDotdot m.bytes with _ | _
        · exact absurd ⟨Nat.succ_ne_zero _, congrArg Bool.not hm⟩ hlive
        · rfl

/-- **The entries of a directory** are copied, however many records a call reads. -/
theorem copyEntries_progress (hcopy : CopiesTrees copy) (honward : ∀ s d, Keeps Onward (copy s d))
    (he : Entered fs₁ src dst s t slots) {pos : ℕ}
    (h : Runs (copyEntries maxpath copy src dst s fuel pos) w (.ok ()) w')
    (hlinks : LinksCopied w w') (hp : Progress fs₁ s t (slots.take pos) w.fs) :
    Progress fs₁ s t slots w'.fs := by
  induction fuel generalizing pos w with
  | zero => exact absurd h not_runs_diverge
  | succ fuel ih =>
    rw [copyEntries] at h
    rcases runs_bind.1 h with ⟨e, -, hbad⟩ | ⟨des, w₁, hread, h⟩
    · cases hbad
    obtain ⟨hfs₁, ⟨e, hbad, -⟩ | ⟨o, des', hdes, heq⟩⟩ := runs_look hread
    · cases hbad
    obtain rfl := Except.ok.inj heq
    obtain ⟨mode, up, hs⟩ := he.sourceDir
    rw [(hp.sameNodes he) s .top, hs] at hdes
    obtain rfl := Except.ok.inj hdes
    have hp₁ : Progress fs₁ s t (slots.take pos) w₁.fs := by
      rw [hfs₁]
      exact hp
    have hnoted := (runs_look_noted hread).2.1
    by_cases hend : ((slots.drop pos).take (max o.count 1)).map Slot.dirent = []
    · rw [if_pos hend] at h
      obtain ⟨-, rfl⟩ := runs_pure.1 h
      -- a call reads at least one record
      have hdrop : slots.drop pos = [] := by
        have hcount : max o.count 1 ≠ 0 := by omega
        rcases List.take_eq_nil_iff.1 (List.map_eq_nil_iff.1 hend) with hzero | hnil
        · exact absurd hzero hcount
        · exact hnil
      rw [List.take_of_length_le (List.drop_eq_nil_iff.1 hdrop)] at hp₁
      exact hp₁
    · rw [if_neg hend] at h
      rcases runs_bind.1 h with ⟨e, -, hbad⟩ | ⟨u, w₂, hrecords, h⟩
      · cases hbad
      have hbefore : w.calls <:+ w₁.calls := hnoted ▸ List.suffix_cons _ _
      have hmiddle := (keeps_copyRecords honward src dst _ _ _ _ hrecords).calls
      have hafter := (keeps_copyEntries tame_onward honward src dst _ _ _ _ _ _ h).calls
      have hsplit : slots = slots.take pos ++ ((slots.drop pos).take (max o.count 1) ++
          (slots.drop pos).drop (max o.count 1)) := by
        rw [List.take_append_drop, List.take_append_drop]
      have hp₂ := copyRecords_progress hcopy honward he hsplit hrecords
        (hlinks.mono hbefore hafter) hp₁
      have hpos : slots.take pos ++ (slots.drop pos).take (max o.count 1) =
          slots.take (pos + ((slots.drop pos).take (max o.count 1)).length) := by
        rw [List.take_add, ← List.prefix_iff_eq_take.1 (List.take_prefix _ _)]
      rw [hpos] at hp₂
      rw [List.length_map] at h
      exact ih h (hlinks.mono (hbefore.trans hmiddle) (List.suffix_refl _)) hp₂

end Directory

section Whole

variable {maxpath fuel mode : ℕ} {copy : Path → Path → Prog Unit} {src dst : Path} {s up : Ino}
  {slots : List Slot} {w w' w₁ : World} {st : Stat}

/-- **The destination is made**, and both directories are there. -/
theorem entered_of_runs (h : Runs (enterDirectory dst st) w (.ok ()) w')
    (hsrc : w.fs.get false src = .ok (s, .dir mode up slots)) (hdst : w.fs.Missing dst)
    (hout : ∀ d n, w.fs.findEntry dst = .ok (.entry d n none) → ¬InTree w.fs s d) :
    ∃ d n k m, ∃ hmissing : w.fs.node.entry d n = .ok none,
      w.fs.findEntry dst = .ok (.entry d n none) ∧
      w'.fs = w.fs.make d n k (.folder m) hmissing ∧ SameNodes s w.fs w'.fs ∧
      Entered w'.fs src dst s (w.fs.new d) slots := by
  obtain ⟨-, -, -, hs⟩ := Fs.get_eq_ok.1 hsrc
  obtain ⟨dt, w₂, hlstat, -⟩ | ⟨e, w₂, -, -, hbad, -⟩ | ⟨w₂, -, hfs₂, hmkdir⟩ :=
    runs_enterDirectory h
  · exact absurd hlstat (not_runs_lstat_missing hdst)
  · exact absurd hbad nofun
  obtain ⟨e, hbad, -⟩ | ⟨o, hmake, -⟩ := runs_change hmkdir
  · exact absurd hbad nofun
  rw [hfs₂] at hmake
  obtain ⟨d, n, hmissing, hfind, hfs⟩ := Fs.makeNew_eq_ok hmake
  rw [hfs]
  have ht : (w.fs.make d n o.slot (.folder o.mode) hmissing).node (w.fs.new d) =
      some (.dir o.mode d []) := Nodes.make_self
  have hleaf : ∀ m, (w.fs.make d n o.slot (.folder o.mode) hmissing).child (w.fs.new d) m = none := by
    intro m
    rcases hm : (w.fs.make d n o.slot (.folder o.mode) hmissing).child (w.fs.new d) m with _ | i
    · rfl
    · exact absurd ((Fs.child_eq_some_iff ht).1 hm).2 List.not_mem_nil
  have hunused : w.fs.node (w.fs.new d) = none := w.fs.unused _ (Nat.le_refl _)
  have hgrown : Grown w.fs (w.fs.make d n o.slot (.folder o.mode) hmissing) d n (w.fs.new d) :=
    Grown.of_make hmissing (Sub.refl _) (fun _ _ _ => rfl) fun i hi => hi.eq_top hleaf ▸ hunused
  have hsame := hgrown.sameNodes (hs ▸ rfl) (hout d n hfind)
  refine ⟨d, n, _, _, hmissing, hfind, rfl, hsame, ⟨mode, up, ?_⟩, ⟨o.mode, d, ?_⟩, fun hin => ?_⟩
  · obtain ⟨y, hy⟩ := Fs.get_mono hgrown.sub hsrc
    obtain ⟨place, hplace, hi, -⟩ := Fs.get_eq_ok.1 hy
    exact Fs.get_eq_ok.2 ⟨place, hplace, hi, (hsame s .top).trans hs⟩
  · have hentry := Fs.resolve_made hgrown.sub hfind hgrown.entry fun h => Bool.noConfusion h
    obtain ⟨place, hplace, hi⟩ := Fs.find_of_findEntry hentry rfl fun _ => ⟨_, _, _, ht⟩
    exact Fs.get_eq_ok.2 ⟨place, hplace, hi, ht⟩
  · -- what is new is not in the tree
    have hsome := (hsame.inTree_iff.1 hin).isSome (hs ▸ rfl)
    rw [hunused] at hsome
    exact absurd hsome nofun

/-- The directory is read once the destination is there. -/
theorem runs_copyDirectoryVia {c : CopyCalls}
    (h : Runs (copyDirectoryVia c maxpath copy fuel src dst st true) w (.ok ()) w') :
    ∃ w₂ w₃ w₄ fd x, Runs (enterDirectory dst st) w (.ok ()) w₂ ∧
      Runs (c.openRead src) w₂ (.ok fd) w₃ ∧
      Runs (copyEntries maxpath copy src dst fd fuel 0) w₃ (.ok ()) w₄ ∧
      Runs (close fd) w₄ x w' := by
  rw [copyDirectoryVia, if_neg (by decide)] at h
  rcases runs_bind.1 h with ⟨e, -, hbad⟩ | ⟨u, w₂, henter, hread⟩
  · exact absurd hbad nofun
  rcases runs_bind.1 hread with ⟨e, -, hbad⟩ | ⟨fd, w₃, hopen, hloop⟩
  · exact absurd hbad nofun
  obtain ⟨ret, w₄, hentries, hclosing⟩ := runs_attempt_bind.1 hloop
  obtain ⟨x, w₅, hclose, hret⟩ := runs_attempt_bind.1 hclosing
  obtain ⟨rfl, rfl⟩ := runs_ofExcept.1 hret
  exact ⟨w₂, w₃, w₄, fd, x, henter, hopen, hentries, hclose⟩

theorem runs_copyDirectory
    (h : Runs (copyDirectory maxpath copy fuel src dst st true) w (.ok ()) w') :
    ∃ w₂ w₃ w₄ fd, Runs (enterDirectory dst st) w (.ok ()) w₂ ∧ Runs (openRead src) w₂ (.ok fd) w₃ ∧
      Runs (copyEntries maxpath copy src dst fd fuel 0) w₃ (.ok ()) w₄ ∧ w'.fs = w₄.fs ∧
      w.calls <:+ w₃.calls ∧ w₄.calls <:+ w'.calls := by
  obtain ⟨w₂, w₃, w₄, fd, x, henter, hopen, hentries, hclose⟩ := runs_copyDirectoryVia h
  rw [systemCalls_openRead] at hopen
  obtain ⟨-, hcalls, hfs⟩ := runs_look_noted hclose
  have hentered := (keeps_enterDirectory tame_onward dst st _ _ _ henter).calls
  have hopened := (runs_look_noted hopen).2.1
  refine ⟨w₂, w₃, w₄, fd, henter, hopen, hentries, hfs, ?_, hcalls ▸ List.suffix_cons _ _⟩
  exact hentered.trans (hopened ▸ List.suffix_cons _ _)

/-- What was copied below the directory is new, and stays where the mode of the directory is
set. -/
theorem Progress.below {fs₀ fs₁ fs fs' : Fs} {t j : Ino} {m : Name}
    (hp : Progress fs₁ s t slots fs) (he : Entered fs₁ src dst s t slots) (hsub : Sub fs₀ fs₁)
    (hset : ∀ i, i ≠ t → fs'.node i = fs.node i) (hj : fs.child t m = some j) :
    ∃ i, fs₁.child s m = some i ∧ SameTree fs₁ fs i j ∧ SameNodes j fs fs' ∧
      ∀ e, InTree fs' j e → fs₀.node e = none := by
  obtain ⟨mode, up, hs⟩ := he.sourceDir
  obtain ⟨mode', up', ht⟩ := he.targetDir
  obtain ⟨hdots, i, hi⟩ := (hp.names m).1 (hj ▸ rfl)
  have hi₁ := (Fs.child_eq_some_iff hs).2 ⟨hdots, hi⟩
  obtain ⟨htree, hfresh⟩ := hp.trees m i j hi₁ hj
  have hkept : SameNodes j fs fs' := by
    intro e hin
    refine hset e ?_
    rintro rfl
    exact absurd ((hfresh _ hin).symm.trans ht) nofun
  refine ⟨i, hi₁, htree, hkept, fun e hin => ?_⟩
  rcases hnode : fs₀.node e with _ | x
  · rfl
  · have hsome := hsub.isSome e (hnode ▸ rfl)
    rw [hfresh e (hkept.inTree_iff.1 hin)] at hsome
    exact absurd hsome nofun

/-- **All entries have been copied**, and the mode of the directory is set at last. -/
theorem Progress.copiedTo {fs₁ : Fs} {d : Ino} {n : Name} {k m : ℕ}
    (hp : Progress fs₁ s (w.fs.new d) slots w₁.fs) (hmissing : w.fs.node.entry d n = .ok none)
    (hfind : w.fs.findEntry dst = .ok (.entry d n none))
    (hfs₁ : fs₁ = w.fs.make d n k (.folder m) hmissing) (hsame : SameNodes s w.fs fs₁)
    (he : Entered fs₁ src dst s (w.fs.new d) slots)
    (hs : w.fs.node s = some (.dir mode up slots)) (hperm : st.perm = mode)
    (hchmod : Runs (chmod dst st.perm) w₁ (.ok ()) w') :
    ∃ d n t, CopiedTo w.fs w'.fs s dst d n t := by
  obtain ⟨mode₁, up₁, hdst⟩ := he.target
  obtain ⟨-, -, -, ht⟩ := Fs.get_eq_ok.1 hdst
  obtain ⟨mode', up', slots', ht₁⟩ := hp.dir
  have hget₁ : w₁.fs.get true dst = .ok (w.fs.new d, .dir mode' up' slots') :=
    get_of_sub hp.sub (Fs.get_true_of_false hdst (Fs.link_of_kind hdst rfl)) ht₁
  obtain ⟨hget', hsub', hset⟩ := runs_chmod_ok hchmod hget₁
  obtain ⟨-, -, -, ht'⟩ := Fs.get_eq_ok.1 hget'
  rw [Node.setMode, hperm] at ht'
  have hchild : ∀ m, w'.fs.child (w.fs.new d) m = w₁.fs.child (w.fs.new d) m := by
    intro m
    refine Option.ext fun i => ?_
    rw [Fs.child_eq_some_iff ht', Fs.child_eq_some_iff ht₁]
  have hsub₁ : Sub w.fs fs₁ := hfs₁ ▸ sub_make hmissing
  have hgrown : Grown w.fs w'.fs d n (w.fs.new d) := by
    refine Grown.of_make hmissing (k := k) (x := .folder m) ?_ (fun i hi hne => ?_) fun i hi => ?_
    · rw [← hfs₁]
      exact hp.sub.trans hsub'
    · rw [← hfs₁] at hi ⊢
      rw [hset i hne, hp.node i hi hne]
    · rcases hi.cases_top with rfl | ⟨m, j, hj, hin⟩
      · exact w.fs.unused _ (Nat.le_refl _)
      · obtain ⟨-, -, -, -, hfresh⟩ := hp.below he hsub₁ hset ((hchild m).symm.trans hj)
        exact hfresh i hin
  refine ⟨d, n, _, hgrown, hfind, .dir hs ht' (fun m => ?_) fun m i j hi hj => ?_,
    fun _ => ⟨_, _, _, ht'⟩⟩
  · rw [hchild, hp.names, Option.isSome_iff_exists]
    simp only [Fs.child_eq_some_iff hs, exists_and_left]
  · rw [hchild] at hj
    obtain ⟨i', hi', htree, hkept, -⟩ := hp.below he hsub₁ hset hj
    have hi₁ := (Fs.child_congr (hsame s .top) m).trans hi
    obtain rfl := Option.some.inj (hi'.symm.trans hi₁)
    exact htree.congr (hsame.child hi).symm hkept

/-- **A directory** is copied, and gets the permission bits of the source. -/
theorem copyDirectory_copiedTo (hcopy : CopiesTrees copy)
    (honward : ∀ s d, Keeps Onward (copy s d))
    (h : Runs (copyDirectory maxpath copy fuel src dst st true) w (.ok ()) w₁)
    (hchmod : Runs (chmod dst st.perm) w₁ (.ok ()) w') (hlinks : LinksCopied w w₁)
    (hsrc : w.fs.get false src = .ok (s, .dir mode up slots)) (hperm : st.perm = mode)
    (hdst : w.fs.Missing dst)
    (hout : ∀ d n, w.fs.findEntry dst = .ok (.entry d n none) → ¬InTree w.fs s d) :
    ∃ d n t, CopiedTo w.fs w'.fs s dst d n t := by
  obtain ⟨-, -, -, hs⟩ := Fs.get_eq_ok.1 hsrc
  obtain ⟨w₂, w₃, w₄, fd, henter, hopen, hentries, hfs₁, hbefore, hafter⟩ :=
    runs_copyDirectory h
  obtain ⟨d, n, k, m, hmissing, hfind, hfs₂, hsame, he⟩ := entered_of_runs henter hsrc hdst hout
  -- the descriptor stands for the source
  obtain ⟨mode₂, up₂, hsrc₂⟩ := he.source
  obtain ⟨hfs₃, ⟨e, hbad, -⟩ | ⟨o, fd', hfd, heq⟩⟩ := runs_look hopen
  · exact absurd hbad nofun
  obtain rfl := Except.ok.inj heq
  rw [Fs.get_true_of_false hsrc₂ (Fs.link_of_kind hsrc₂ rfl)] at hfd
  obtain rfl : s = fd := Except.ok.inj hfd
  have hp : Progress w₂.fs s (w.fs.new d) slots w₁.fs := by
    rw [hfs₁]
    refine copyEntries_progress hcopy honward he hentries (hlinks.mono hbefore hafter) ?_
    rw [hfs₃, List.take_zero]
    exact he.progress
  exact hp.copiedTo hmissing hfind hfs₂ hsame he hs hperm hchmod

end Whole

/-! ### The whole copy -/

section Path

variable {maxpath : ℕ} {src dst : Path} {w w' : World}

/-- There is something to be copied. -/
theorem exists_source {fuel : ℕ} (h : Runs (copyPath maxpath fuel src dst true) w (.ok ()) w') :
    ∃ s x, w.fs.get false src = .ok (s, x) := by
  cases fuel with
  | zero => exact absurd h not_runs_diverge
  | succ fuel =>
    rw [copyPath, copyPathVia] at h
    rcases runs_bind.1 h with ⟨e, -, hbad⟩ | ⟨st, w₁, hlstat, -⟩
    · cases hbad
    obtain ⟨-, ⟨e, hbad, -⟩ | ⟨o, st', hst, -⟩⟩ := runs_look hlstat
    · cases hbad
    obtain ⟨x, hx, -⟩ := Fs.statOf_eq_ok.1 hst
    exact ⟨_, x, hx⟩

/-- **`fsutil_copy_path` copies trees**, as long as links can be copied. -/
theorem copyPath_copiesTrees (maxpath fuel : ℕ) :
    CopiesTrees fun src dst => copyPath maxpath fuel src dst true := by
  induction fuel with
  | zero => exact fun _ _ _ _ _ _ h => absurd h not_runs_diverge
  | succ fuel ih =>
    intro src dst w w' s x h hlinks hsrc hdst hout
    dsimp only at h
    rw [copyPath, copyPathVia] at h
    rcases runs_bind.1 h with ⟨e, -, hbad⟩ | ⟨st, w₁, hlstat, h⟩
    · cases hbad
    obtain ⟨hfs₁, ⟨e, hbad, -⟩ | ⟨o, st', hst, heq⟩⟩ := runs_look hlstat
    · cases hbad
    obtain rfl := Except.ok.inj heq
    have hnoted := (runs_look_noted hlstat).2.1
    have hbefore : w.calls <:+ w₁.calls := hnoted ▸ List.suffix_cons _ _
    obtain ⟨y, hget, hkind, hperm⟩ := Fs.statOf_eq_ok.1 hst
    obtain ⟨rfl, rfl⟩ := Prod.mk.inj (Except.ok.inj (hget.symm.trans hsrc))
    rw [← hfs₁] at hsrc hdst hout ⊢
    have honward : ∀ s d, Keeps Onward (copyPath maxpath fuel s d true) := fun s d =>
      onward_copyPath fuel s d true
    rw [hkind] at h
    obtain ⟨mode, data⟩ | target | ⟨mode, up, slots⟩ | mode := y
    · have hlink : w₁.fs.node.link st.ino = none := by
        obtain ⟨-, -, -, hnode⟩ := Fs.get_eq_ok.1 hsrc
        unfold Nodes.link
        rw [hnode]
      exact copyRegular_copiedTo h (Fs.get_true_of_false hsrc hlink) hperm hdst
    · obtain ⟨ret, w₂, hsymlink, h⟩ := runs_attempt_bind.1 h
      have hcalls := (onward_copySymlink src dst _ _ _ hsymlink).calls
      cases ret with
      | ok u =>
        obtain ⟨-, rfl⟩ := runs_pure.1 h
        exact copySymlink_copiedTo hsymlink hsrc hdst
      | error e =>
        -- the link is followed
        obtain ⟨followSt, w₃, hstat, h⟩ := runs_attempt_bind.1 h
        have hcalls₃ := (runs_look_noted hstat).2.1
        have hfollow : ∀ q : Prog Unit, Keeps Onward q → Runs q w₃ (.ok ()) w' → False := by
          intro q hq hrun
          exact hlinks.not_stat hcalls₃ (hbefore.trans hcalls) (hq _ _ _ hrun).calls
        cases followSt with
        | error _ => cases (runs_throw.1 h).1
        | ok followSt =>
          dsimp only at h
          split at h
          · exact absurd h (hfollow _ (onward_copyRegular _ _ _ _))
          · exact absurd h (hfollow _ (onward_copyDirectory honward _ _ _ _ _))
          · cases (runs_throw.1 h).1
    · rcases runs_bind.1 h with ⟨e, -, hbad⟩ | ⟨u, w₂, hcopy, hchmod⟩
      · cases hbad
      have hafter : w₂.calls <:+ w'.calls := (onward_chmod dst st.perm _ _ _ hchmod).calls
      exact copyDirectory_copiedTo ih honward hcopy hchmod (hlinks.mono hbefore hafter) hsrc hperm
        hdst hout
    · cases (runs_throw.1 h).1

/-- **A recursive copy to where nothing is.**  If `fsutil_copy_path` returns 0, the destination
does not exist and does not lie in the source, and no symbolic link had to be followed because
it could not be copied, then the tree at the destination is the tree that was at the source,
which is as it was. -/
theorem copyPath_copies_tree {maxpath fuel : ℕ} {src dst : Path} {w w' : World}
    (h : Runs (copyPath maxpath fuel src dst true) w (.ok ()) w') (hlinks : LinksCopied w w')
    (hdst : w.fs.Missing dst)
    (hout : ∀ s x, w.fs.get false src = .ok (s, x) → ¬LiesInside w.fs s dst) :
    ∃ s x t y, w.fs.get false src = .ok (s, x) ∧ w'.fs.get false dst = .ok (t, y) ∧
      SameTree w.fs w'.fs s t ∧ w'.fs.get false src = .ok (s, x) ∧ SameNodes s w.fs w'.fs := by
  obtain ⟨s, x, hsrc⟩ := exists_source h
  obtain ⟨place, hplace, hi, hs⟩ := Fs.get_eq_ok.1 hsrc
  have hnotin : ∀ d n, w.fs.findEntry dst = .ok (.entry d n none) → ¬InTree w.fs s d := by
    intro d n hfind hin
    obtain ⟨-, -, -, -, hdots, -⟩ := Fs.dir_of_missing (Fs.resolve_entry hfind)
    exact hout s x hsrc ⟨d, n, none, hfind, hdots, hin⟩
  obtain ⟨d, n, t, hc⟩ := copyPath_copiesTrees maxpath fuel src dst w w' s x h hlinks hsrc hdst
    hnotin
  have hsame := hc.sameNodes (hs ▸ rfl) (hnotin d n hc.found)
  have hentry := Fs.resolve_made hc.sub hc.found hc.entry fun h => Bool.noConfusion h
  obtain ⟨place', hplace', ht⟩ := Fs.find_of_findEntry hentry rfl hc.folder
  obtain ⟨y, hy⟩ := Option.isSome_iff_exists.1 (w'.fs.closed d n t hc.entry)
  refine ⟨s, x, t, y, hsrc, Fs.get_eq_ok.2 ⟨place', hplace', ht, hy⟩, hc.same, ?_, hsame⟩
  obtain ⟨x', hget⟩ := Fs.get_mono hc.sub hsrc
  obtain ⟨place₁, hplace₁, hi₁, -⟩ := Fs.get_eq_ok.1 hget
  exact Fs.get_eq_ok.2 ⟨place₁, hplace₁, hi₁, (hsame s .top).trans hs⟩

end Path

/-! ### Small copies -/

/-- The kind of what the path leads to after a copy that returned 0 and made no other calls
than those that `ok` allows. -/
def kindAfter (ok : Call → Bool) (w : World) (src dst : Path) : Option Kind :=
  match copyPath 512 3 src dst true w with
  | some (.ok (), w') =>
    if w'.calls.all ok then
      match w'.fs.get false dst with
      | .ok (_, x) => some x.kind
      | .error _ => none
    else none
  | _ => none

theorem exists_of_kindAfter {ok : Call → Bool} {w : World} {src dst : Path} {k : Kind}
    (h : kindAfter ok w src dst = some k) :
    ∃ w' i x, Runs (copyPath 512 3 src dst true) w (.ok ()) w' ∧ (∀ c ∈ w'.calls, ok c = true) ∧
      w'.fs.get false dst = .ok (i, x) ∧ x.kind = k := by
  unfold kindAfter at h
  split at h
  · next w' hrun =>
    split_ifs at h with hall
    split at h
    · next i x hget => exact ⟨w', i, x, hrun, List.all_eq_true.1 hall, hget, Option.some.inj h⟩
    · exact absurd h nofun
  · exact absurd h nofun

/-- Not a call of `stat`. -/
def notStat : Call → Bool
  | .stat _ => false
  | _ => true

/-- The directory `/d`, with the file `/d/f` in it, is copied to `/x`. -/
theorem copyPath_copies_tree_small : ∃ w', Runs (copyPath 512 3 [47, 100] [47, 120] true)
    smallWorld (.ok ()) w' ∧ ∃ s x t y, smallWorld.fs.get false [47, 100] = .ok (s, x) ∧
      w'.fs.get false [47, 120] = .ok (t, y) ∧ SameTree smallWorld.fs w'.fs s t ∧
      w'.fs.get false [47, 100] = .ok (s, x) ∧ SameNodes s smallWorld.fs w'.fs := by
  have hkind : kindAfter notStat smallWorld [47, 100] [47, 120] = some .dir := by decide +kernel
  obtain ⟨w', -, -, hrun, hcalls, -⟩ := exists_of_kindAfter hkind
  have hfind : smallWorld.fs.find false [47, 120] =
      .ok (.entry ⟨0, 0⟩ ⟨[120], by decide, by decide⟩ none) := rfl
  have hentry : smallWorld.fs.findEntry [47, 120] =
      .ok (.entry ⟨0, 0⟩ ⟨[120], by decide, by decide⟩ none) := rfl
  have hd : smallWorld.fs.node ⟨0, 1⟩ = some (.dir 0o700 ⟨0, 0⟩
      [⟨⟨[102], by decide, by decide⟩, some ⟨0, 2⟩⟩]) := rfl
  have hf : smallWorld.fs.node ⟨0, 2⟩ = some (.reg 0o640 []) := rfl
  refine ⟨w', hrun, copyPath_copies_tree hrun ?_ ?_ ?_⟩
  · intro T hT p hp
    have hall := hcalls _ (hT ▸ List.mem_append_left _ hp)
    exact absurd hall Bool.false_ne_true
  · intro place hplace
    rw [← Except.ok.inj (hfind.symm.trans hplace)]
    rfl
  · rintro s x hsrc ⟨d, n, o, hplace, -, hin⟩
    obtain ⟨rfl, -, -⟩ := Place.entry.inj (Except.ok.inj (hentry.symm.trans hplace))
    have hget : smallWorld.fs.get false [47, 100] = .ok (⟨0, 1⟩, _) := rfl
    obtain rfl := (Prod.mk.inj (Except.ok.inj (hget.symm.trans hsrc))).1
    -- the root is not below the directory
    rcases hin.cases_top with hroot | ⟨m, e, he, hin⟩
    · exact absurd hroot (by decide)
    · obtain ⟨-, hmem⟩ := (Fs.child_eq_some_iff hd).1 he
      obtain rfl := Option.some.inj (Slot.mk.inj (List.mem_singleton.1 hmem)).2
      have hleaf := Fs.child_of_not_dir (i := ⟨0, 2⟩) fun _ _ _ hdir =>
        absurd (hf.symm.trans hdir) nofun
      exact absurd (hin.eq_top hleaf) (by decide)

/-- The file system with a link `/l` to `/d/f`, and a kernel that makes no links. -/
def linkWorld : World where
  fs := smallFs.make ⟨0, 0⟩ ⟨[108], by decide, by decide⟩ 1 (.link [47, 100, 47, 102]) rfl
  env _ c := match c with
    | .symlink _ _ => ⟨some ⟨.eio, by decide⟩, 1, 0, false, 0⟩
    | _ => ⟨none, 1, 0, false, 0⟩
  calls := []

/-- Where the link cannot be made, the copy of `/l` to `/x` returns 0 and has made a file. -/
theorem copyPath_copies_no_link : ¬∀ maxpath fuel src dst w w',
    Runs (copyPath maxpath fuel src dst true) w (.ok ()) w' → w.fs.Missing dst →
      (∀ s x, w.fs.get false src = .ok (s, x) → ¬LiesInside w.fs s dst) →
      ∃ s x t y, w.fs.get false src = .ok (s, x) ∧ w'.fs.get false dst = .ok (t, y) ∧
        SameTree w.fs w'.fs s t := by
  intro hall
  have hkind : kindAfter (fun _ => true) linkWorld [47, 108] [47, 120] = some .reg := by
    decide +kernel
  obtain ⟨w', i, z, hrun, -, hdst, hz⟩ := exists_of_kindAfter hkind
  have hfind : linkWorld.fs.find false [47, 120] =
      .ok (.entry ⟨0, 0⟩ ⟨[120], by decide, by decide⟩ none) := rfl
  have hentry : linkWorld.fs.findEntry [47, 120] =
      .ok (.entry ⟨0, 0⟩ ⟨[120], by decide, by decide⟩ none) := rfl
  have hget : linkWorld.fs.get false [47, 108] = .ok (⟨0, 3⟩, .lnk [47, 100, 47, 102]) := rfl
  have hl : linkWorld.fs.node ⟨0, 3⟩ = some (.lnk [47, 100, 47, 102]) := rfl
  obtain ⟨s, x, t, y, hsrc, hdst', hsame⟩ := hall 512 3 [47, 108] [47, 120] linkWorld w' hrun
    (by
      intro place hplace
      rw [← Except.ok.inj (hfind.symm.trans hplace)]
      rfl)
    (by
      rintro s x hsrc ⟨d, n, o, hplace, -, hin⟩
      obtain ⟨rfl, -, -⟩ := Place.entry.inj (Except.ok.inj (hentry.symm.trans hplace))
      obtain rfl := (Prod.mk.inj (Except.ok.inj (hget.symm.trans hsrc))).1
      have hleaf := Fs.child_of_not_dir (i := ⟨0, 3⟩) fun _ _ _ hdir =>
        absurd (hl.symm.trans hdir) nofun
      exact absurd (hin.eq_top hleaf) (by decide))
  obtain rfl := (Prod.mk.inj (Except.ok.inj (hget.symm.trans hsrc))).1
  obtain ⟨rfl, rfl⟩ := Prod.mk.inj (Except.ok.inj (hdst.symm.trans hdst'))
  obtain ⟨-, -, -, hi⟩ := Fs.get_eq_ok.1 hdst
  cases hsame with
  | file hs => exact absurd (hl.symm.trans hs) nofun
  | link _ ht =>
    obtain rfl := Option.some.inj (hi.symm.trans ht)
    exact absurd hz nofun
  | dir hs => exact absurd (hl.symm.trans hs) nofun

end Fsutil
end V6User
