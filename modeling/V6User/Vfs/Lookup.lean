import V6User.Vfs.Fs

/-!
# What paths lead to

How the ways to look a path up are related: what `lstat` finds (`Fs.find false`), what
`open` finds (`Fs.find true`) and the entry that is made or removed (`Fs.findEntry`).  The
path of a child is looked up in the directory that the path of the directory leads to
(`Fs.find_below`).
-/

namespace V6User
namespace Vfs

variable {fs fs' : Fs} {follow : Bool} {path dir p : Path} {l : List Name} {place : Place}
  {d i : Ino} {n : Name} {x : Node}

theorem Nodes.entry_dot {node : Nodes} {o : Option Ino} (h : node.entry d Name.dot = .ok o) :
    o = some d := by
  unfold Nodes.entry at h
  split at h
  · exact (Except.ok.inj h).symm
  · exact absurd h nofun

/-- **What is found stays found** where there is more. -/
theorem Fs.resolve_mono (h : Sub fs fs') (hr : fs.resolve follow path l = .ok place)
    (hi : place.ino = some i) : fs'.resolve follow path l = .ok place := by
  unfold Fs.resolve at hr ⊢
  split_ifs at hr ⊢ with hne
  rw [h.base, h.maxLinks, h.cwd]
  exact Fs.walk_mono h hr hi

theorem Fs.resolve_made (h : Sub fs fs')
    (hr : fs.resolve follow path l = .ok (.entry d n none))
    (hentry : fs'.node.entry d n = .ok (some i))
    (hlink : follow = true → fs'.node.link i = none) :
    fs'.resolve follow path l = .ok (.entry d n (some i)) := by
  unfold Fs.resolve at hr ⊢
  split_ifs at hr ⊢ with hne
  rw [h.base, h.maxLinks, h.cwd]
  exact Fs.walk_made h hr hentry hlink

theorem Fs.get_mono (h : Sub fs fs') (hget : fs.get follow path = .ok (i, x)) :
    ∃ y, fs'.get follow path = .ok (i, y) := by
  obtain ⟨place, hplace, hi, hx⟩ := Fs.get_eq_ok.1 hget
  obtain ⟨y, hy⟩ := Option.isSome_iff_exists.1 (h.isSome i (hx ▸ rfl))
  exact ⟨y, Fs.get_eq_ok.2 ⟨place, Fs.resolve_mono h hplace hi, hi, hy⟩⟩

/-- The last name of a list is looked up in what the names before it lead to. -/
theorem Fs.resolve_snoc_eq_ok (hne : path ≠ []) :
    fs.resolve false path (l ++ [n]) = .ok place ↔
      ∃ place' d o, fs.resolve true path l = .ok place' ∧ place'.ino = some d ∧
        fs.node.entry d n = .ok o ∧ place = .entry d n o := by
  unfold Fs.resolve
  rw [if_neg hne, if_neg hne, Fs.walk_snoc]
  constructor
  · intro h
    split at h
    · exact absurd h nofun
    · next place' hplace =>
      split at h
      · exact absurd h nofun
      · next d hd =>
        rcases hentry : fs.node.entry d n with e | o
        · rw [hentry] at h
          exact absurd h nofun
        · rw [hentry] at h
          exact ⟨place', d, o, hplace, hd, hentry, (Except.ok.inj h).symm⟩
  · rintro ⟨place', d, o, hplace, hd, hentry, rfl⟩
    rw [hplace]
    dsimp only
    rw [hd]
    dsimp only
    rw [hentry]
    rfl

theorem Fs.resolve_entry {o : Option Ino} (h : fs.resolve follow path l = .ok (.entry d n o)) :
    fs.node.entry d n = .ok o := by
  unfold Fs.resolve at h
  split_ifs at h
  exact Fs.walk_entry h

theorem Fs.ne_nil_of_resolve (h : fs.resolve follow path l = .ok place) : path ≠ [] := by
  rintro rfl
  unfold Fs.resolve at h
  rw [if_pos rfl] at h
  exact absurd h nofun

/-- The directory that `lstat` finds is what the names of its path lead to. -/
theorem Fs.resolve_comps_of_get (h : fs.get false path = .ok (i, x))
    (hlink : fs.node.link i = none) :
    ∃ place, fs.resolve true path (comps path) = .ok place ∧ place.ino = some i := by
  obtain ⟨place, hplace, hi, -⟩ := Fs.get_eq_ok.1 h
  have hne := Fs.ne_nil_of_resolve hplace
  unfold Fs.find names at hplace
  split_ifs at hplace with hwants
  · obtain ⟨place', d, o, hplace', hd, hentry, rfl⟩ := (Fs.resolve_snoc_eq_ok hne).1 hplace
    obtain rfl := Nodes.entry_dot hentry
    exact ⟨place', hplace', hd.trans hi⟩
  · refine ⟨place, ?_, hi⟩
    unfold Fs.resolve at hplace ⊢
    rw [if_neg hne] at hplace ⊢
    exact Fs.walk_follow hplace hi hlink

/-- **The path of a child** is looked up in the directory. -/
theorem Fs.find_below (h : Below dir p n) : fs.find false p = .ok place ↔
    ∃ place' d o, fs.resolve true dir (comps dir) = .ok place' ∧ place'.ino = some d ∧
      fs.node.entry d n = .ok o ∧ place = .entry d n o := by
  rw [← Fs.resolve_snoc_eq_ok h.dir_ne_nil]
  unfold Fs.find Fs.resolve Fs.base
  rw [if_neg h.ne_nil, if_neg h.dir_ne_nil, h.names, h.head]

theorem Fs.findEntry_below (h : Below dir p n) : fs.findEntry p = fs.find false p := by
  unfold Fs.findEntry Fs.find
  rw [h.comps, h.names]

/-- Where following the last name finds something, not following it does as well. -/
theorem Fs.resolve_exists (h : fs.resolve true path l = .ok place) (hi : place.ino = some i) :
    ∃ place' j, fs.resolve false path l = .ok place' ∧ place'.ino = some j := by
  have hne := Fs.ne_nil_of_resolve h
  unfold Fs.resolve at h ⊢
  rw [if_neg hne] at h ⊢
  exact Fs.walk_exists h hi

/-- What `open` finds, `lstat` finds as something. -/
theorem Fs.find_exists (h : fs.find follow path = .ok place) (hi : place.ino = some i) :
    ∃ place' j, fs.find false path = .ok place' ∧ place'.ino = some j := by
  cases follow with
  | false => exact ⟨place, i, h, hi⟩
  | true => exact Fs.resolve_exists h hi

/-- What exists has an entry. -/
theorem Fs.findEntry_of_get (h : fs.get follow path = .ok (i, x)) :
    ∃ place j, fs.findEntry path = .ok place ∧ place.ino = some j := by
  obtain ⟨place, hplace, hi, -⟩ := Fs.get_eq_ok.1 h
  have hne := Fs.ne_nil_of_resolve hplace
  obtain ⟨place', j, hplace', hj⟩ := Fs.find_exists hplace hi
  unfold Fs.find names at hplace'
  split_ifs at hplace' with hwants
  · obtain ⟨place₁, d, o, hplace₁, hd, -, -⟩ := (Fs.resolve_snoc_eq_ok hne).1 hplace'
    exact Fs.resolve_exists hplace₁ hd
  · exact ⟨place', j, hplace', hj⟩

/-- **The entry that a path names** leads to what `lstat` finds. -/
theorem Fs.find_of_findEntry (h : fs.findEntry path = .ok place) (hi : place.ino = some i)
    (hdir : WantsDir path → ∃ mode up slots, fs.node i = some (.dir mode up slots)) :
    ∃ place', fs.find false path = .ok place' ∧ place'.ino = some i := by
  have hne := Fs.ne_nil_of_resolve h
  unfold Fs.find names
  split_ifs with hwants
  · obtain ⟨mode, up, slots, hnode⟩ := hdir hwants
    have hlink : fs.node.link i = none := by
      unfold Nodes.link
      rw [hnode]
    have htrue : fs.resolve true path (comps path) = .ok place := by
      unfold Fs.findEntry Fs.resolve at h
      unfold Fs.resolve
      rw [if_neg hne] at h ⊢
      exact Fs.walk_follow h hi hlink
    refine ⟨.entry i Name.dot (some i), ?_, rfl⟩
    refine (Fs.resolve_snoc_eq_ok hne).2 ⟨place, i, some i, htrue, hi, ?_, rfl⟩
    unfold Nodes.entry
    rw [hnode]
    exact if_pos rfl
  · exact ⟨place, h, hi⟩

/-- `open` finds what `lstat` finds, unless it is a link. -/
theorem Fs.get_true_of_false (h : fs.get false path = .ok (i, x))
    (hlink : fs.node.link i = none) : fs.get true path = .ok (i, x) := by
  obtain ⟨place, hplace, hi, hx⟩ := Fs.get_eq_ok.1 h
  have hne := Fs.ne_nil_of_resolve hplace
  refine Fs.get_eq_ok.2 ⟨place, ?_, hi, hx⟩
  unfold Fs.find Fs.resolve at hplace ⊢
  rw [if_neg hne] at hplace ⊢
  exact Fs.walk_follow hplace hi hlink

/-- **Where less is left**, a path that led to something other than a link leads to it, if
`open` finds anything. -/
theorem Fs.get_sub {j : Ino} {y : Node} (hs : Sub fs' fs) (hget : fs.get false path = .ok (i, x))
    (hlink : fs.node.link i = none) (hopen : fs'.get true path = .ok (j, y)) :
    j = i ∧ fs'.get false path = .ok (i, y) := by
  obtain ⟨place', hplace', hj, hy⟩ := Fs.get_eq_ok.1 hopen
  obtain ⟨place, hplace, hi, -⟩ := Fs.get_eq_ok.1 (Fs.get_true_of_false hget hlink)
  obtain rfl := Except.ok.inj (hplace.symm.trans (Fs.resolve_mono hs hplace' hj))
  obtain rfl := Option.some.inj (hj.symm.trans hi)
  obtain ⟨place₁, k, hplace₁, hk⟩ := Fs.find_exists hplace' hj
  obtain ⟨place₂, hplace₂, hi₂, -⟩ := Fs.get_eq_ok.1 hget
  obtain rfl := Except.ok.inj (hplace₂.symm.trans (Fs.resolve_mono hs hplace₁ hk))
  exact ⟨rfl, Fs.get_eq_ok.2 ⟨place₂, hplace₁, hi₂, hy⟩⟩

/-- **The path of a child** leads to what the directory has under its name. -/
theorem Fs.get_below_iff (hbelow : Below dir p n) (hget : fs.get false dir = .ok (d, x))
    (hlink : fs.node.link d = none) (hn : ¬n.IsDots) :
    (∃ y, fs.get false p = .ok (i, y)) ↔ fs.child d n = some i := by
  obtain ⟨place, hplace, hd⟩ := Fs.resolve_comps_of_get hget hlink
  constructor
  · rintro ⟨y, hy⟩
    obtain ⟨place', hplace', hi, -⟩ := Fs.get_eq_ok.1 hy
    obtain ⟨place₁, d', o, hplace₁, hd', hentry, rfl⟩ := (Fs.find_below hbelow).1 hplace'
    obtain rfl := Except.ok.inj (hplace.symm.trans hplace₁)
    obtain rfl := Option.some.inj (hd.symm.trans hd')
    obtain rfl : o = some i := hi
    exact Fs.child_of_entry hentry hn
  · intro hchild
    have hentry := Fs.entry_of_child hchild
    obtain ⟨y, hy⟩ := Option.isSome_iff_exists.1 (fs.closed d n i hentry)
    have hfind := (Fs.find_below hbelow).2 ⟨place, d, some i, hplace, hd, hentry, rfl⟩
    exact ⟨y, Fs.get_eq_ok.2 ⟨_, hfind, rfl, hy⟩⟩

/-- The path of a child that the directory does not have leads nowhere. -/
theorem Fs.get_missing (hbelow : Below dir p n) (hget : fs.get false dir = .ok (i, x))
    (hlink : fs.node.link i = none) (hentry : fs.node.entry i n = .ok none) :
    fs.get false p = .error .enoent := by
  obtain ⟨place, hplace, hi⟩ := Fs.resolve_comps_of_get hget hlink
  have hfind := (Fs.find_below hbelow).2 ⟨place, i, none, hplace, hi, hentry, rfl⟩
  unfold Fs.get
  rw [hfind]
  rfl

end Vfs
end V6User
