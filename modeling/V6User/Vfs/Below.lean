import Mathlib.Data.List.Induction
import V6User.Vfs.Reached
import V6User.Vfs.SameTree

/-!
# What lies below a path

The files and symbolic links that lie in the tree of an inode, by the names that lead to them
(`Fs.LeafAt`), and when a tree is still there after a change (`TreeHeld`).  A path followed by
names (`PathAt`) leads, in a tree that is still there, to what the names lead to
(`TreeHeld.get_pathAt`).
-/

namespace V6User
namespace Vfs

/-- The bytes of a file or the target of a symbolic link. -/
inductive Content where
  | file (data : List UInt8)
  | link (target : Path)

/-- What an inode holds, unless it is a directory or something else. -/
def Node.content : Node → Option Content
  | .reg _ data => some (.file data)
  | .lnk target => some (.link target)
  | _ => none

/-- A symbolic link is found by not following it. -/
def Content.follow : Content → Bool
  | .file _ => true
  | .link _ => false

/-- The inode that the names lead to from `s` on, entry by entry. -/
def Fs.descend (fs : Fs) (s : Ino) : List Name → Option Ino
  | [] => some s
  | n :: l => (fs.child s n).bind fun i => fs.descend i l

/-- The names lead from `s` to a file or a link. -/
def Fs.LeafAt (fs : Fs) (s : Ino) (l : List Name) (leaf : Content) : Prop :=
  ∃ i x, fs.descend s l = some i ∧ fs.node i = some x ∧ x.content = some leaf

/-- The entry is one of those that the names lead through from `s`. -/
def Fs.Passes (fs : Fs) (d : Ino) (n : Name) : Ino → List Name → Prop
  | _, [] => False
  | s, m :: l => (s = d ∧ m = n) ∨ ∃ i, fs.child s m = some i ∧ fs.Passes d n i l

/-- The path leads to a file or a link. -/
def Fs.Found (fs : Fs) (q : Path) (leaf : Content) : Prop :=
  ∃ i x, fs.get leaf.follow q = .ok (i, x) ∧ x.content = some leaf

/-- The path is `base`, followed by names. -/
inductive PathAt (base : Path) : List Name → Path → Prop where
  | base : PathAt base [] base
  | name {l : List Name} {p q : Path} {n : Name} (h : PathAt base l p) (hb : Below p q n) :
      PathAt base (l ++ [n]) q

/-- The same node, where a directory may have got more entries. -/
inductive Alike : Node → Node → Prop
  | reg (mode mode' data) : Alike (.reg mode data) (.reg mode' data)
  | lnk (target) : Alike (.lnk target) (.lnk target)
  | dir (mode mode' up slots slots')
      (h : ∀ (k : ℕ) m i, slots[k]? = some ⟨m, some i⟩ → slots'[k]? = some ⟨m, some i⟩) :
      Alike (.dir mode up slots) (.dir mode' up slots')
  | other (mode mode') : Alike (.other mode) (.other mode')

/-- The tree that `src` led to in `fs₀`, at `s`, is there in `fs`. -/
structure TreeHeld (src : Path) (fs₀ : Fs) (s : Ino) (fs : Fs) : Prop where
  root : ∃ x, fs.get false src = .ok (s, x)
  node : ∀ i, InTree fs₀ s i → ∃ x y, fs₀.node i = some x ∧ fs.node i = some y ∧ Alike x y

section Below

variable {fs fs' fs₀ : Fs} {dead follow : Bool} {d i j s : Ino} {n m : Name} {l l' : List Name}
  {src base p q : Path} {k : ℕ} {new : New} {x y z : Node} {leaf : Content}

/-! ### Names one after another -/

theorem Fs.descend_append (fs : Fs) (s : Ino) (l l' : List Name) :
    fs.descend s (l ++ l') = (fs.descend s l).bind fun i => fs.descend i l' := by
  induction l generalizing s with
  | nil => rfl
  | cons n l ih =>
    rw [List.cons_append, Fs.descend, Fs.descend]
    rcases fs.child s n with _ | i
    · rfl
    · exact ih i

theorem Fs.descend_snoc (h : fs.descend s (l ++ [n]) = some i) :
    ∃ d, fs.descend s l = some d ∧ fs.child d n = some i := by
  rw [Fs.descend_append] at h
  obtain ⟨d, hd, hi⟩ := Option.bind_eq_some_iff.1 h
  obtain ⟨j, hj, hji⟩ := Option.bind_eq_some_iff.1 hi
  exact ⟨d, hd, hj.trans hji⟩

theorem Fs.descend_of_child (h : fs.descend s l = some d) (hi : fs.child d n = some i) :
    fs.descend s (l ++ [n]) = some i := by
  rw [Fs.descend_append, h]
  show (fs.child d n).bind _ = _
  rw [hi]
  rfl

/-- What the names lead to is in the tree. -/
theorem Fs.inTree_of_descend (h : fs.descend s l = some i) : InTree fs s i := by
  induction l using List.reverseRecOn generalizing i with
  | nil => exact Option.some.inj h ▸ .top
  | append_singleton l n ih =>
    obtain ⟨d, hd, hi⟩ := Fs.descend_snoc h
    exact .child (ih hd) hi

/-- Nothing lies below a file or a link. -/
theorem Fs.LeafAt.eq_of_prefix (h : fs.LeafAt s l' leaf) (hl : l <+: l')
    (hi : fs.descend s l = some i) (hx : fs.node i = some x) (hdir : x.kind ≠ .dir) : l' = l := by
  obtain ⟨r, rfl⟩ := hl
  obtain ⟨j, y, hj, -, -⟩ := h
  rw [Fs.descend_append, hi] at hj
  cases r with
  | nil => exact List.append_nil l
  | cons n r =>
    replace hj : (fs.child i n).bind (fun e => fs.descend e r) = some j := hj
    obtain ⟨e, he, -⟩ := Option.bind_eq_some_iff.1 hj
    obtain ⟨mode, up, slots, hnode⟩ := Fs.dir_of_child he
    obtain rfl := Option.some.inj (hx.symm.trans hnode)
    exact absurd rfl hdir

/-! ### Paths with names below them -/

theorem PathAt.comps (h : PathAt base l p) : comps p = Vfs.comps base ++ l := by
  induction h with
  | base => exact (List.append_nil _).symm
  | name _ hb ih => rw [hb.comps, ih, List.append_assoc]

theorem PathAt.eq_base (h : PathAt base [] p) : p = base := by
  generalize hl : ([] : List Name) = l at h
  cases h with
  | base => rfl
  | name => exact absurd hl.symm (List.append_ne_nil_of_right_ne_nil _ (List.cons_ne_nil _ _))

/-- A path has the names of one place. -/
theorem PathAt.unique (h : PathAt base l p) (h' : PathAt base l' p) : l = l' :=
  List.append_cancel_left (h.comps.symm.trans h'.comps)

theorem below_append (hp : p ≠ []) (n : Name) : Below p (p ++ slash :: n.bytes) n where
  dir_ne_nil := hp
  ne_nil := List.append_ne_nil_of_left_ne_nil hp _
  head := List.head?_append_of_ne_nil _ hp
  comps := by rw [comps_append_slash, comps_bytes]
  names := names_append_name p n

theorem exists_pathAt (hbase : base ≠ []) (l : List Name) : ∃ p, p ≠ [] ∧ PathAt base l p := by
  induction l using List.reverseRecOn with
  | nil => exact ⟨base, hbase, .base⟩
  | append_singleton l n ih =>
    obtain ⟨p, hne, hp⟩ := ih
    have hb := below_append hne n
    exact ⟨_, hb.ne_nil, .name hp hb⟩

theorem PathAt.snoc (h : PathAt base (l ++ [n]) q) : ∃ p, PathAt base l p ∧ Below p q n := by
  generalize hl : l ++ [n] = l' at h
  cases h with
  | base => exact absurd hl (List.append_ne_nil_of_right_ne_nil _ (List.cons_ne_nil _ _))
  | name h hb =>
    obtain ⟨rfl, hn⟩ := List.append_inj' hl rfl
    obtain rfl := List.head_eq_of_cons_eq hn
    exact ⟨_, h, hb⟩

theorem PathAt.head (h : PathAt base l p) : p.head? = base.head? := by
  induction h with
  | base => rfl
  | name _ hb ih => rw [hb.head, ih]

/-- Two paths with the same names lead to the same. -/
theorem PathAt.find_eq (h : PathAt base l p) (h' : PathAt base l q) (fs : Fs) (follow : Bool) :
    fs.find follow p = fs.find follow q := by
  induction l using List.reverseRecOn with
  | nil => rw [h.eq_base, h'.eq_base]
  | append_singleton l n _ =>
    obtain ⟨p', hp', hb⟩ := h.snoc
    obtain ⟨q', hq', hb'⟩ := h'.snoc
    unfold Fs.find Fs.resolve Fs.base
    rw [if_neg hb.ne_nil, if_neg hb'.ne_nil, hb.names, hb'.names, h.head, h'.head, hp'.comps,
      hq'.comps]

theorem PathAt.get_eq (h : PathAt base l p) (h' : PathAt base l q) (fs : Fs) (follow : Bool) :
    fs.get follow p = fs.get follow q := by
  unfold Fs.get
  rw [h.find_eq h']

/-- **What the names lead to, the path leads to.** -/
theorem Fs.get_pathAt (h : PathAt base l p) (hbase : fs.get false base = .ok (s, x))
    (hl : fs.descend s l = some i) : ∃ y, fs.get false p = .ok (i, y) := by
  induction h generalizing i with
  | base => exact ⟨x, Option.some.inj hl ▸ hbase⟩
  | name _ hb ih =>
    obtain ⟨d, hd, hi⟩ := Fs.descend_snoc hl
    obtain ⟨y, hy⟩ := ih hd
    obtain ⟨mode, up, slots, hnode⟩ := Fs.dir_of_child hi
    have hlink : fs.node.link d = none := by
      unfold Nodes.link
      rw [hnode]
    exact (Fs.get_below_iff hb hy hlink (Fs.not_isDots_of_child hi)).2 hi

theorem Fs.get_of_map_fst (h : (fs.get follow p).map Prod.fst = .ok i) :
    ∃ x, fs.get follow p = .ok (i, x) := by
  rcases hget : fs.get follow p with e | ⟨j, x⟩
  · rw [hget] at h
    cases h
  · rw [hget] at h
    obtain rfl : j = i := Except.ok.inj h
    exact ⟨x, rfl⟩

theorem Fs.found_of_get (h : fs.get false p = .ok (i, y)) (hy : y.content = some leaf) :
    fs.Found p leaf := by
  refine ⟨i, y, ?_, hy⟩
  cases leaf with
  | file data =>
    refine Fs.get_true_of_false h ?_
    obtain ⟨-, -, -, hnode⟩ := Fs.get_eq_ok.1 h
    unfold Nodes.link
    rw [hnode]
    cases y with
    | lnk target => exact absurd (Option.some.inj hy) nofun
    | _ => rfl
  | link target => exact h

/-! ### A tree that is still there -/

theorem Alike.refl (x : Node) : Alike x x := by
  cases x with
  | reg mode data => exact .reg _ _ _
  | lnk target => exact .lnk _
  | dir mode up slots => exact .dir _ _ _ _ _ fun _ _ _ h => h
  | other mode => exact .other _ _

theorem Alike.trans (h : Alike x y) (h' : Alike y z) : Alike x z := by
  cases h with
  | reg => cases h'; exact .reg _ _ _
  | lnk => cases h'; exact .lnk _
  | dir mode mode' up slots slots' hs =>
    cases h' with
    | dir _ mode'' _ _ slots'' hs' => exact .dir _ _ _ _ _ fun k m i hk => hs' k m i (hs k m i hk)
  | other => cases h'; exact .other _ _

theorem Alike.kind (h : Alike x y) : y.kind = x.kind := by
  cases h <;> rfl

theorem Alike.content_eq (h : Alike x y) : y.content = x.content := by
  cases h <;> rfl

theorem TreeHeld.refl (h : fs.get false src = .ok (s, x)) : TreeHeld src fs s fs := by
  obtain ⟨-, -, -, hs⟩ := Fs.get_eq_ok.1 h
  refine ⟨⟨x, h⟩, fun i hi => ?_⟩
  obtain ⟨y, hy⟩ := Option.isSome_iff_exists.1 (hi.isSome (hs ▸ rfl))
  exact ⟨y, y, hy, hy, Alike.refl y⟩

/-- The entries of a tree that is still there. -/
theorem TreeHeld.child (h : TreeHeld src fs₀ s fs) (hd : InTree fs₀ s d)
    (hi : fs₀.child d n = some i) : fs.child d n = some i := by
  obtain ⟨x, y, hx, hy, halike⟩ := h.node d hd
  obtain ⟨mode, up, slots, hdir⟩ := Fs.dir_of_child hi
  obtain rfl := Option.some.inj (hx.symm.trans hdir)
  cases halike with
  | dir _ mode' _ _ slots' hslots =>
    obtain ⟨hdots, hmem⟩ := (Fs.child_eq_some_iff hdir).1 hi
    obtain ⟨k, hk⟩ := List.mem_iff_getElem?.1 hmem
    exact (Fs.child_eq_some_iff hy).2 ⟨hdots, List.mem_iff_getElem?.2 ⟨k, hslots k n i hk⟩⟩

theorem TreeHeld.descend (h : TreeHeld src fs₀ s fs) (hl : fs₀.descend s l = some i) :
    fs.descend s l = some i := by
  induction l using List.reverseRecOn generalizing i with
  | nil => exact hl
  | append_singleton l n ih =>
    obtain ⟨d, hd, hi⟩ := Fs.descend_snoc hl
    exact Fs.descend_of_child (ih hd) (h.child (Fs.inTree_of_descend hd) hi)

/-- **The path of what was in the tree** leads to it. -/
theorem TreeHeld.get_pathAt (h : TreeHeld src fs₀ s fs) (hp : PathAt src l p)
    (hl : fs₀.descend s l = some i) :
    ∃ x y, fs₀.node i = some x ∧ Alike x y ∧ fs.get false p = .ok (i, y) := by
  obtain ⟨x, y, hx, hy, halike⟩ := h.node i (Fs.inTree_of_descend hl)
  obtain ⟨z, hz⟩ := h.root
  obtain ⟨w, hw⟩ := Fs.get_pathAt hp hz (h.descend hl)
  obtain ⟨-, -, -, hnode⟩ := Fs.get_eq_ok.1 hw
  obtain rfl := Option.some.inj (hy.symm.trans hnode)
  exact ⟨x, y, hx, halike, hw⟩

/-- A file or a link of the tree, at the names of a path and on from there. -/
theorem TreeHeld.get_of_leafAt (h : TreeHeld src fs₀ s fs) (hp : PathAt src l p)
    (hleaf : fs₀.LeafAt s l' leaf) (hl : l <+: l') :
    ∃ i x y, fs₀.descend s l = some i ∧ fs₀.node i = some x ∧ Alike x y ∧
      fs.get false p = .ok (i, y) := by
  obtain ⟨r, rfl⟩ := hl
  obtain ⟨j, -, hj, -⟩ := hleaf
  rw [Fs.descend_append] at hj
  obtain ⟨i, hi, -⟩ := Option.bind_eq_some_iff.1 hj
  obtain ⟨x, y, hx, halike, hget⟩ := h.get_pathAt hp hi
  exact ⟨i, x, y, hi, hx, halike, hget⟩

/-- Where the path leads to no directory, there is at most what it leads to. -/
theorem TreeHeld.eq_of_leafAt (h : TreeHeld src fs₀ s fs) (hp : PathAt src l p)
    (hget : fs.get false p = .ok (i, y)) (hy : y.kind ≠ .dir) (hleaf : fs₀.LeafAt s l' leaf)
    (hl : l <+: l') : l' = l ∧ y.content = some leaf ∧ InTree fs₀ s i := by
  obtain ⟨j, x, y', hj, hx, halike, hget'⟩ := h.get_of_leafAt hp hleaf hl
  obtain ⟨rfl, rfl⟩ := Prod.mk.inj (Except.ok.inj (hget.symm.trans hget'))
  obtain rfl := hleaf.eq_of_prefix hl hj hx (halike.kind ▸ hy)
  obtain ⟨j, x', hj', hx', hsome⟩ := hleaf
  obtain rfl := Option.some.inj (hj.symm.trans hj')
  obtain rfl := Option.some.inj (hx.symm.trans hx')
  exact ⟨rfl, halike.content_eq.trans hsome, Fs.inTree_of_descend hj⟩

/-- **What is in the tree is found** under its path. -/
theorem TreeHeld.found (h : TreeHeld src fs₀ s fs) (hleaf : fs₀.LeafAt s l leaf) :
    ∃ p, PathAt src l p ∧ fs.Found p leaf := by
  obtain ⟨x, hx⟩ := h.root
  obtain ⟨place, hplace, -⟩ := Fs.get_eq_ok.1 hx
  obtain ⟨p, -, hp⟩ := exists_pathAt (Fs.ne_nil_of_resolve hplace) l
  obtain ⟨i, y, hi, hy, hsome⟩ := hleaf
  obtain ⟨y', z, hy', halike, hget⟩ := h.get_pathAt hp hi
  obtain rfl := Option.some.inj (hy.symm.trans hy')
  exact ⟨p, hp, Fs.found_of_get hget (halike.content_eq.trans hsome)⟩

/-! ### Changes that keep a tree -/

theorem TreeHeld.step (h : TreeHeld src fs₀ s fs)
    (hroot : ∀ x, fs.get false src = .ok (s, x) → ∃ y, fs'.get false src = .ok (s, y))
    (hnode : ∀ i y, InTree fs₀ s i → fs.node i = some y → ∃ z, fs'.node i = some z ∧ Alike y z) :
    TreeHeld src fs₀ s fs' := by
  obtain ⟨x, hx⟩ := h.root
  refine ⟨hroot x hx, fun i hi => ?_⟩
  obtain ⟨x, y, hx, hy, halike⟩ := h.node i hi
  obtain ⟨z, hz, halike'⟩ := hnode i y hi hy
  exact ⟨x, z, hx, hz, halike.trans halike'⟩

theorem getElem?_addSlot {slots : List Slot} {t : Slot} {a : ℕ}
    (h : slots[a]? = some ⟨m, some i⟩) : (addSlot slots k t)[a]? = some ⟨m, some i⟩ := by
  obtain ⟨hlt, -⟩ := List.getElem?_eq_some_iff.1 h
  unfold addSlot
  split
  · next o hk =>
    -- a slot that is dead is another one
    have hne : k ≠ a := by
      rintro rfl
      exact absurd (Slot.mk.inj (Option.some.inj (hk.symm.trans h))).2 nofun
    rw [List.getElem?_set_ne hne]
    exact h
  · rw [List.getElem?_append_left hlt]
    exact h

theorem TreeHeld.make (h : TreeHeld src fs₀ s fs) (hmissing : fs.node.entry d n = .ok none) :
    TreeHeld src fs₀ s (fs.make d n k new hmissing) := by
  refine h.step (fun x hx => Fs.get_mono (sub_make hmissing) hx) fun i y _ hy => ?_
  have hnew : i ≠ fs.new d := Fs.ne_new (hy ▸ rfl)
  by_cases hd : i = d
  · subst hd
    obtain ⟨mode, up, slots, hdir, -, -⟩ := Fs.dir_of_missing hmissing
    obtain rfl := Option.some.inj (hy.symm.trans hdir)
    refine ⟨_, Nodes.make_dir hnew hdir, ?_⟩
    exact .dir _ _ _ _ _ fun _ _ _ hslot => getElem?_addSlot hslot
  · exact ⟨y, (Nodes.make_of_ne hnew hd).trans hy, Alike.refl y⟩

theorem TreeHeld.alter (h : TreeHeld src fs₀ s fs) {f : Node → Node} (hf : ∀ x, SameShape x (f x))
    (ht : ∀ y, InTree fs₀ s i → fs.node i = some y → Alike y (f y)) :
    TreeHeld src fs₀ s (fs.alter i f hf) := by
  refine h.step (fun x hx => Fs.get_mono (sub_alter fs i hf) hx) fun j y hj hy => ?_
  show ∃ z, fs.node.alter i f j = some z ∧ Alike y z
  unfold Nodes.alter
  split_ifs with hi
  · rw [hy]
    exact ⟨f y, rfl, ht y (hi ▸ hj) (hi ▸ hy)⟩
  · exact ⟨y, hy, Alike.refl y⟩

/-- The bytes of what is no file of the tree are set. -/
theorem TreeHeld.setData (h : TreeHeld src fs₀ s fs) (bytes : List UInt8)
    (ht : ∀ mode data, InTree fs₀ s i → fs₀.node i ≠ some (.reg mode data)) :
    TreeHeld src fs₀ s (fs.alter i (Node.setData bytes) (sameShape_setData bytes)) := by
  refine h.alter _ fun y hi hy => ?_
  obtain ⟨x, y', hx, hy', halike⟩ := h.node i hi
  obtain rfl := Option.some.inj (hy.symm.trans hy')
  cases y with
  | reg mode data =>
    cases halike
    exact absurd hx (ht _ _ hi)
  | _ => exact Alike.refl _

theorem alike_setMode (mode : ℕ) (x : Node) : Alike x (x.setMode mode) := by
  cases x with
  | reg old data => exact .reg _ _ _
  | lnk target => exact .lnk _
  | dir old up slots => exact .dir _ _ _ _ _ fun _ _ _ h => h
  | other old => exact .other _ _

theorem TreeHeld.setMode (h : TreeHeld src fs₀ s fs) (i : Ino) (mode : ℕ) :
    TreeHeld src fs₀ s (fs.alter i (Node.setMode mode) (sameShape_setMode mode)) :=
  h.alter _ fun y _ _ => alike_setMode mode y

theorem TreeHeld.remove (h : TreeHeld src fs₀ s fs) (hd : ¬InTree fs₀ s d)
    (hway : ¬fs.OnWay false src d n) : TreeHeld src fs₀ s (fs.remove dead d n) := by
  refine h.step (fun x hx => ?_) fun i y hi hy => ⟨y, ?_, Alike.refl y⟩
  · obtain ⟨y, hy, -⟩ : ∃ y, (fs.remove dead d n).get false src = .ok (s, y) ∧ _ :=
      Fs.get_remove hx hway
    exact ⟨y, hy⟩
  · show fs.node.remove dead d n i = some y
    have hne : i ≠ d := by
      rintro rfl
      exact hd hi
    rw [Nodes.remove, if_neg hne]
    exact hy

/-! ### Changes that keep what is found -/

theorem Fs.Found.of_sub (h : fs.Found q leaf) (hsub : Sub fs fs')
    (hnode : ∀ i x, fs.get leaf.follow q = .ok (i, x) → fs.node i = some x →
      ∃ y, fs'.node i = some y ∧ y.content = x.content) : fs'.Found q leaf := by
  obtain ⟨i, x, hget, hleaf⟩ := h
  obtain ⟨place, hplace, hi, hx⟩ := Fs.get_eq_ok.1 hget
  obtain ⟨y, hy, hsame⟩ := hnode i x hget hx
  exact ⟨i, y, Fs.get_eq_ok.2 ⟨place, Fs.resolve_mono hsub hplace hi, hi, hy⟩, hsame.trans hleaf⟩

theorem Fs.Found.make (h : fs.Found q leaf) (hmissing : fs.node.entry d n = .ok none) :
    (fs.make d n k new hmissing).Found q leaf := by
  obtain ⟨i, x, hget, hleaf⟩ := h
  refine Fs.Found.of_sub ⟨i, x, hget, hleaf⟩ (sub_make hmissing) fun j y hj hy => ⟨y, ?_, rfl⟩
  obtain ⟨rfl, rfl⟩ := Prod.mk.inj (Except.ok.inj (hget.symm.trans hj))
  obtain ⟨mode, up, slots, hdir, -, -⟩ := Fs.dir_of_missing hmissing
  refine (Nodes.make_of_ne (Fs.ne_new (hy ▸ rfl)) ?_).trans hy
  rintro rfl
  obtain rfl := Option.some.inj (hdir.symm.trans hy)
  exact absurd hleaf nofun

theorem Fs.Found.alter (h : fs.Found q leaf) {f : Node → Node} (hf : ∀ x, SameShape x (f x))
    (ht : ∀ x, fs.get leaf.follow q = .ok (i, x) → (f x).content = x.content) :
    (fs.alter i f hf).Found q leaf := by
  refine h.of_sub (sub_alter fs i hf) fun j y hj hy => ?_
  show ∃ z, fs.node.alter i f j = some z ∧ _
  unfold Nodes.alter
  split_ifs with hi
  · rw [hy]
    exact ⟨f y, rfl, ht y (hi ▸ hj)⟩
  · exact ⟨y, hy, rfl⟩

theorem Fs.Found.setMode (h : fs.Found q leaf) (i : Ino) (mode : ℕ) :
    (fs.alter i (Node.setMode mode) (sameShape_setMode mode)).Found q leaf :=
  h.alter _ fun y _ => (alike_setMode mode y).content_eq

theorem Fs.Found.remove (h : fs.Found q leaf) (hway : ¬fs.OnWay leaf.follow q d n) :
    (fs.remove dead d n).Found q leaf := by
  obtain ⟨i, x, hget, hleaf⟩ := h
  obtain ⟨-, -, -, hnode⟩ := Fs.get_eq_ok.1 hget
  obtain ⟨z, hz, hi⟩ : ∃ z, (fs.remove dead d n).get leaf.follow q = .ok (i, z) ∧ _ :=
    Fs.get_remove hget hway
  have hdir : x.kind ≠ .dir := by
    cases x with
    | dir => exact absurd hleaf nofun
    | _ => exact nofun
  obtain rfl := Option.some.inj (hi.symm.trans (Nodes.remove_of_not_dir hnode hdir))
  exact ⟨i, z, hz, hleaf⟩

theorem Fs.descend_remove (h : fs.descend s l = some i) (hway : ¬fs.Passes d n s l) :
    (fs.remove dead d n).descend s l = some i := by
  induction l generalizing s with
  | nil => exact h
  | cons m l ih =>
    obtain ⟨j, hj, hi⟩ := Option.bind_eq_some_iff.1 h
    have hchild : (fs.remove dead d n).child s m = some j := by
      rw [Fs.child_remove, if_neg fun heq => hway (.inl heq)]
      exact hj
    rw [Fs.descend, hchild]
    exact ih hi fun hrest => hway (.inr ⟨j, hj, hrest⟩)

/-- **What the names lead to** is there as long as none of the entries is removed. -/
theorem Fs.LeafAt.remove (h : fs.LeafAt s l leaf) (hway : ¬fs.Passes d n s l) :
    (fs.remove dead d n).LeafAt s l leaf := by
  obtain ⟨i, x, hi, hx, hleaf⟩ := h
  have hdir : x.kind ≠ .dir := by
    cases x with
    | dir => exact absurd hleaf nofun
    | _ => exact nofun
  exact ⟨i, x, Fs.descend_remove hi hway, Nodes.remove_of_not_dir hx hdir, hleaf⟩

end Below

end Vfs
end V6User
