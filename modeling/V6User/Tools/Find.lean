import Mathlib.Data.Int.Init
import Mathlib.Data.List.Nodup
import V6User.Vfs.Path

/-!
# Searching a directory tree

`programs/find/find.c`: `find` as it is built for the host.

A directory tree is what `lstat`, `opendir` and `readdir` show of it, and some of these calls may
fail.  `find` prints the path of every entry with the name that is looked for, once each, and
goes on where something fails, so it prints exactly those that can be reached where nothing
does (`Seen`).  It returns `-1` if anything below the path failed.  It never goes down through
a symbolic link (`find_spec`).
-/

namespace V6User
namespace Tools
namespace Find

open Vfs (Name Path slash)

/-! ### Directory trees -/

/-- The name of an entry, which is neither `.` nor `..`. -/
abbrev EntryName := {n : Name // ¬n.IsDots}

mutual

/-- What `lstat` finds at a path, and for a directory whether `opendir` succeeds. -/
inductive Node
  | file
  | symlink
  | dir (opens : Bool) (entries : Entries)

/-- What `readdir` returns, one after the other: entries for `.` or `..`, and those with a name,
for which `lstat` succeeds or fails. -/
inductive Entries
  | nil
  | dots (rest : Entries)
  | cons (name : EntryName) (examined : Bool) (node : Node) (rest : Entries)

end

/-- `S_ISDIR(st.st_mode)`. -/
def Node.isDir : Node → Bool
  | .dir _ _ => true
  | _ => false

/-- An entry with a name. -/
structure Entry where
  name : EntryName
  examined : Bool
  node : Node

/-- The entries with a name. -/
def Entries.toList : Entries → List Entry
  | .nil => []
  | .dots rest => rest.toList
  | .cons name examined node rest => ⟨name, examined, node⟩ :: rest.toList

mutual

/-- No directory has two entries with one name. -/
def Node.Distinct : Node → Prop
  | .dir _ entries => entries.Distinct
  | _ => True

def Entries.Distinct : Entries → Prop
  | .nil => True
  | .dots rest => rest.Distinct
  | .cons name _ node rest =>
    (∀ e ∈ rest.toList, name ≠ e.name) ∧ node.Distinct ∧ rest.Distinct

end

/-- A directory tree. -/
structure Tree where
  node : Node
  distinct : node.Distinct

/-! ### The program -/

/-- `MAXPATH`. -/
def maxPath : ℕ := 512

/-- What the program does that can be observed: lines on standard output, directories that it
opened, and messages. -/
inductive Event
  | print (path : Path)
  | opened (path : Path)
  | cannotStat (path : Path)
  | notDirectory (path : Path)
  | cannotOpen (path : Path)
  | tooLong (path : Path)

/-- `"%s/%s"` with `path` and `de->d_name`. -/
def childPath (path : Path) (n : EntryName) : Path := path ++ slash :: n.val.bytes

mutual

/-- `find(path, name)` where `lstat` succeeded: what it does, and what it returns. -/
def find (path : Path) (name : List UInt8) : Node → List Event × ℤ
  | .file | .symlink => ([.notDirectory path], -1)
  | .dir opens entries =>
    if opens then
      let r := findEntries path name 0 entries
      (.opened path :: r.1, r.2)
    else ([.cannotOpen path], -1)

/-- The loop of `find` over the entries, and `status` after it. -/
def findEntries (path : Path) (name : List UInt8) (status : ℤ) : Entries → List Event × ℤ
  | .nil => ([], status)
  | .dots rest => findEntries path name status rest
  | .cons n examined node rest =>
    let child := childPath path n
    if maxPath ≤ child.length then
      let r := findEntries path name (-1) rest
      (.tooLong child :: r.1, r.2)
    else if !examined then
      let r := findEntries path name (-1) rest
      (.cannotStat child :: r.1, r.2)
    else
      let printed := if n.val.bytes = name then [.print child] else []
      let sub := if node.isDir then find child name node else ([], 0)
      let r := findEntries path name (if sub.2 < 0 then -1 else status) rest
      (printed ++ sub.1 ++ r.1, r.2)

end

/-- `find(path, name)`, where `lstat` may fail. -/
def findTop (path : Path) (name : List UInt8) : Option Tree → List Event × ℤ
  | none => ([.cannotStat path], -1)
  | some tree => find path name tree.node

/-! ### What lies in a tree -/

/-- The path of what is reached through these names. -/
def pathOf (path : Path) (names : List EntryName) : Path := names.foldl childPath path

/-- What lies in the directory or further down, and whether `lstat` succeeds for it. -/
inductive Descendant : Node → List EntryName → Bool → Node → Prop
  | entry {o es n ex m} (h : ⟨n, ex, m⟩ ∈ Entries.toList es) :
    Descendant (.dir o es) [n] ex m
  | under {o es n ex d ns ex' m} (h : ⟨n, ex, d⟩ ∈ Entries.toList es)
    (hd : Descendant d ns ex' m) : Descendant (.dir o es) (n :: ns) ex' m

/-- The same where all directories on the way can be opened, and all entries on the way and the
last one can be examined. -/
inductive Seen : Node → List EntryName → Node → Prop
  | entry {es n m} (h : ⟨n, true, m⟩ ∈ Entries.toList es) : Seen (.dir true es) [n] m
  | under {es n d ns m} (h : ⟨n, true, d⟩ ∈ Entries.toList es) (hd : Seen d ns m) :
    Seen (.dir true es) (n :: ns) m

/-- **Induction along a tree.** -/
theorem node_induction {P : Node → Prop} (file : P .file) (symlink : P .symlink)
    (dir : ∀ o es, (∀ e ∈ Entries.toList es, P e.node) → P (.dir o es)) (node : Node) :
    P node := by
  refine @Node.rec P (fun es => ∀ e ∈ es.toList, P e.node) file symlink dir ?_ ?_ ?_ node
  · exact fun e he => absurd he List.not_mem_nil
  · exact fun rest ih => ih
  · exact fun name examined node rest hnode ih => List.forall_mem_cons.2 ⟨hnode, ih⟩

theorem descendant_dir_iff {o ex : Bool} {es : Entries} {ns : List EntryName} {m : Node} :
    Descendant (.dir o es) ns ex m ↔ ∃ e ∈ es.toList,
      (ns = [e.name] ∧ ex = e.examined ∧ m = e.node) ∨
        ∃ ns', ns = e.name :: ns' ∧ Descendant e.node ns' ex m := by
  constructor
  · intro h
    cases h with
    | entry h => exact ⟨_, h, .inl ⟨rfl, rfl, rfl⟩⟩
    | under h hd => exact ⟨_, h, .inr ⟨_, rfl, hd⟩⟩
  · rintro ⟨e, he, ⟨rfl, rfl, rfl⟩ | ⟨ns', rfl, hd⟩⟩
    · exact .entry he
    · exact .under he hd

theorem seen_dir_iff {o : Bool} {es : Entries} {ns : List EntryName} {m : Node} :
    Seen (.dir o es) ns m ↔ o = true ∧ ∃ e ∈ es.toList, e.examined = true ∧
      ((ns = [e.name] ∧ m = e.node) ∨ ∃ ns', ns = e.name :: ns' ∧ Seen e.node ns' m) := by
  constructor
  · intro h
    cases h with
    | entry h => exact ⟨rfl, _, h, rfl, .inl ⟨rfl, rfl⟩⟩
    | under h hd => exact ⟨rfl, _, h, rfl, .inr ⟨_, rfl, hd⟩⟩
  · rintro ⟨rfl, ⟨n, ex, d⟩, he, rfl, ⟨rfl, rfl⟩ | ⟨ns', rfl, hd⟩⟩
    · exact .entry he
    · exact .under he hd

variable {path q : Path} {name : List UInt8} {es : Entries} {node : Node}
  {ns ns' : List EntryName} {n n' : EntryName}

/-! ### Paths -/

theorem pathOf_cons (path : Path) (n : EntryName) (ns : List EntryName) :
    pathOf path (n :: ns) = pathOf (childPath path n) ns := rfl

theorem pathOf_eq (path : Path) (ns : List EntryName) :
    pathOf path ns = path ++ ns.flatMap fun n => slash :: n.val.bytes := by
  induction ns generalizing path with
  | nil => exact (List.append_nil path).symm
  | cons n ns ih => rw [pathOf_cons, ih, childPath, List.append_assoc, List.flatMap_cons]

theorem length_le_pathOf (path : Path) (ns : List EntryName) :
    path.length ≤ (pathOf path ns).length := by
  rw [pathOf_eq, List.length_append]
  exact Nat.le_add_right ..

theorem length_lt_pathOf (path : Path) (n : EntryName) (ns : List EntryName) :
    path.length < (pathOf path (n :: ns)).length := by
  rw [pathOf_eq, List.length_append, List.flatMap_cons, List.cons_append, List.length_cons]
  omega

/-- What stands after a name is nothing, or begins with a slash, and so names can be told from
what they make together. -/
theorem name_inj {b b' t t' : List UInt8} (hb : slash ∉ b) (hb' : slash ∉ b')
    (ht : ∀ c ∈ t.head?, c = slash) (ht' : ∀ c ∈ t'.head?, c = slash) (h : b ++ t = b' ++ t') :
    b = b' := by
  have hno : ∀ {b t : List UInt8}, slash ∉ b → (∀ c ∈ t.head?, c = slash) →
      (b ++ t).takeWhile (· ≠ slash) = b := by
    intro b t hb ht
    have hall : ∀ c ∈ b, decide (c ≠ slash) = true := fun c hc =>
      decide_eq_true (ne_of_mem_of_not_mem hc hb)
    rw [List.takeWhile_append_of_pos hall]
    cases t with
    | nil => exact List.append_nil b
    | cons c t =>
      rw [ht c rfl, List.takeWhile_cons_of_neg (by simp), List.append_nil]
  rw [← hno hb ht, h, hno hb' ht']

theorem pathOf_cons_inj (h : pathOf path (n :: ns) = pathOf path (n' :: ns')) : n = n' := by
  rw [pathOf_eq, pathOf_eq] at h
  have hnames := List.append_cancel_left h
  rw [List.flatMap_cons, List.flatMap_cons, List.cons_append, List.cons_append] at hnames
  have htail : ∀ ns : List EntryName,
      ∀ c ∈ (ns.flatMap fun n => slash :: n.val.bytes).head?, c = slash := by
    intro ns
    cases ns with
    | nil => exact fun c hc => absurd hc (by simp)
    | cons n ns => rintro c ⟨rfl⟩; rfl
  have hbytes := name_inj n.val.no_slash n'.val.no_slash (htail ns) (htail ns')
    (List.cons.inj hnames).2
  obtain ⟨⟨b, hne, hslash⟩, hdots⟩ := n
  obtain ⟨⟨b', hne', hslash'⟩, hdots'⟩ := n'
  obtain rfl : b = b' := hbytes
  rfl

/-! ### One directory -/

/-- What is done for an entry. -/
def entryEvents (path : Path) (name : List UInt8) (e : Entry) : List Event :=
  if maxPath ≤ (childPath path e.name).length then [.tooLong (childPath path e.name)]
  else if !e.examined then [.cannotStat (childPath path e.name)]
  else (if e.name.val.bytes = name then [.print (childPath path e.name)] else []) ++
    if e.node.isDir then (find (childPath path e.name) name e.node).1 else []

/-- The entry sets `status`. -/
def EntryFails (path : Path) (name : List UInt8) (e : Entry) : Prop :=
  maxPath ≤ (childPath path e.name).length ∨ e.examined = false ∨
    e.node.isDir ∧ (find (childPath path e.name) name e.node).2 < 0

/-- **The loop** does for each entry what is to be done for it. -/
theorem findEntries_fst (path : Path) (name : List UInt8) (status : ℤ) : ∀ es : Entries,
    (findEntries path name status es).1 = es.toList.flatMap (entryEvents path name)
  | .nil => rfl
  | .dots rest => findEntries_fst path name status rest
  | .cons n ex node rest => by
    rw [findEntries, Entries.toList, List.flatMap_cons, entryEvents]
    dsimp only
    split_ifs <;> simp [findEntries_fst]

instance (path : Path) (name : List UInt8) (e : Entry) : Decidable (EntryFails path name e) :=
  inferInstanceAs (Decidable (_ ∨ _ ∨ _))

theorem findEntries_snd (path : Path) (name : List UInt8) (status : ℤ) : ∀ es : Entries,
    (findEntries path name status es).2 =
      if ∃ e ∈ es.toList, EntryFails path name e then -1 else status
  | .nil => (if_neg fun ⟨e, he, _⟩ => List.not_mem_nil he).symm
  | .dots rest => findEntries_snd path name status rest
  | .cons n ex node rest => by
    have hstatus : (findEntries path name status (.cons n ex node rest)).2 =
        (findEntries path name
          (if EntryFails path name ⟨n, ex, node⟩ then -1 else status) rest).2 := by
      rw [findEntries]
      dsimp only
      by_cases hlen : maxPath ≤ (childPath path n).length
      · rw [if_pos hlen, if_pos (.inl hlen)]
      rw [if_neg hlen]
      cases ex with
      | false => rw [if_pos (show (!false) = true from rfl), if_pos (.inr (.inl rfl))]
      | true =>
        have hsub : (if node.isDir then find (childPath path n) name node else ([], 0)).2 < 0 ↔
            EntryFails path name ⟨n, true, node⟩ := by
          have hfails : EntryFails path name ⟨n, true, node⟩ ↔
              node.isDir ∧ (find (childPath path n) name node).2 < 0 := by
            simp [EntryFails, hlen]
          rw [hfails]
          split_ifs with hdir
          · exact (and_iff_right hdir).symm
          · exact iff_of_false (by decide) fun h => hdir h.1
        rw [if_neg (show ¬(!true) = true from by decide)]
        dsimp only
        simp only [hsub]
    rw [hstatus, findEntries_snd, Entries.toList]
    by_cases hhead : EntryFails path name ⟨n, ex, node⟩
    · rw [if_pos hhead, ite_self, if_pos ⟨_, List.mem_cons_self, hhead⟩]
    · have hiff : (∃ e ∈ (⟨n, ex, node⟩ : Entry) :: rest.toList, EntryFails path name e) ↔
          ∃ e ∈ rest.toList, EntryFails path name e := by
        rw [List.exists_mem_cons_iff]
        exact or_iff_right hhead
      rw [if_neg hhead]
      simp only [hiff]

theorem find_dir (path : Path) (name : List UInt8) (es : Entries) :
    find path name (.dir true es) =
      (.opened path :: es.toList.flatMap (entryEvents path name),
        if ∃ e ∈ es.toList, EntryFails path name e then -1 else 0) := by
  rw [find, if_pos rfl]
  dsimp only
  rw [findEntries_fst, findEntries_snd]

theorem find_of_notDir (h : node.isDir = false) (path : Path) (name : List UInt8) :
    find path name node = ([.notDirectory path], -1) := by
  cases node with
  | dir o es => exact Bool.noConfusion h
  | file => rw [find]
  | symlink => rw [find]

/-! ### What is printed -/

/-- The paths on standard output. -/
def prints (events : List Event) : List Path := events.filterMap fun
  | .print path => some path
  | _ => none

theorem prints_append (s t : List Event) : prints (s ++ t) = prints s ++ prints t :=
  List.filterMap_append ..

/-- What is printed for an entry and below it. -/
theorem prints_entryEvents (path : Path) (name : List UInt8) (e : Entry) :
    prints (entryEvents path name e) =
      if (childPath path e.name).length < maxPath ∧ e.examined then
        (if e.name.val.bytes = name then [childPath path e.name] else []) ++
          prints (find (childPath path e.name) name e.node).1
      else [] := by
  have hsub : prints (if e.node.isDir then (find (childPath path e.name) name e.node).1 else []) =
      prints (find (childPath path e.name) name e.node).1 := by
    split_ifs with hdir
    · rfl
    · rw [find_of_notDir (Bool.eq_false_iff.2 hdir)]
      rfl
  rw [entryEvents]
  by_cases hlen : maxPath ≤ (childPath path e.name).length
  · rw [if_pos hlen, if_neg fun h => absurd h.1 (Nat.not_lt.2 hlen)]
    rfl
  rw [if_neg hlen]
  cases hex : e.examined with
  | false =>
    rw [if_pos (show (!false) = true from rfl), if_neg fun h => Bool.noConfusion h.2]
    rfl
  | true =>
    have hfits : (childPath path e.name).length < maxPath ∧ true = true :=
      ⟨Nat.lt_of_not_le hlen, rfl⟩
    rw [if_neg (show ¬(!true) = true from by decide), if_pos hfits, prints_append, hsub]
    by_cases hname : e.name.val.bytes = name
    · rw [if_pos hname, if_pos hname]
      rfl
    · rw [if_neg hname, if_neg hname]
      rfl

theorem prints_find_dir (path : Path) (name : List UInt8) (es : Entries) :
    prints (find path name (.dir true es)).1 =
      es.toList.flatMap fun e => prints (entryEvents path name e) := by
  rw [find_dir, prints, List.filterMap_cons_none rfl, List.filterMap_flatMap]
  rfl

theorem prints_find_of_notOpened (h : ∀ es, node ≠ .dir true es) (path : Path)
    (name : List UInt8) : prints (find path name node).1 = [] := by
  cases node with
  | file => rw [find]; rfl
  | symlink => rw [find]; rfl
  | dir o es =>
    cases o with
    | false => rw [find]; rfl
    | true => exact absurd rfl (h es)

/-- The last of the names is the one that is looked for, and the path fits. -/
def Wanted (path : Path) (name : List UInt8) (ns : List EntryName) : Prop :=
  (∃ n ∈ ns.getLast?, n.val.bytes = name) ∧ (pathOf path ns).length < maxPath

theorem wanted_singleton : Wanted path name [n] ↔
    n.val.bytes = name ∧ (childPath path n).length < maxPath := by
  rw [Wanted, List.getLast?_singleton]
  simp [pathOf]

theorem wanted_cons (h : ns ≠ []) :
    Wanted path name (n :: ns) ↔ Wanted (childPath path n) name ns := by
  obtain ⟨m, ms, rfl⟩ := List.exists_cons_of_ne_nil h
  rw [Wanted, Wanted, List.getLast?_cons_cons, pathOf_cons]

theorem Seen.ne_nil {m : Node} (h : Seen node ns m) : ns ≠ [] := by
  cases h <;> exact List.cons_ne_nil _ _

theorem Seen.opens {m : Node} (h : Seen node ns m) : ∃ es, node = .dir true es := by
  cases h <;> exact ⟨_, rfl⟩

/-- What is printed for an entry, when what is printed below it is known. -/
theorem mem_prints_entryEvents_iff {e : Entry}
    (ih : ∀ path, q ∈ prints (find path name e.node).1 ↔
      ∃ ns m, Seen e.node ns m ∧ Wanted path name ns ∧ q = pathOf path ns) :
    q ∈ prints (entryEvents path name e) ↔ e.examined = true ∧
      ((Wanted path name [e.name] ∧ q = pathOf path [e.name]) ∨
        ∃ ns m, Seen e.node ns m ∧ Wanted path name (e.name :: ns) ∧
          q = pathOf path (e.name :: ns)) := by
  rw [prints_entryEvents]
  constructor
  · intro hq
    split_ifs at hq with hentry hname
    · obtain ⟨hfits, hex⟩ := hentry
      refine ⟨hex, ?_⟩
      rcases List.mem_append.1 hq with hq | hq
      · exact .inl ⟨wanted_singleton.2 ⟨hname, hfits⟩, List.mem_singleton.1 hq⟩
      · obtain ⟨ns, m, hseen, hwanted, rfl⟩ := (ih _).1 hq
        exact .inr ⟨ns, m, hseen, (wanted_cons hseen.ne_nil).2 hwanted, rfl⟩
    · obtain ⟨ns, m, hseen, hwanted, rfl⟩ := (ih _).1 hq
      exact ⟨hentry.2, .inr ⟨ns, m, hseen, (wanted_cons hseen.ne_nil).2 hwanted, rfl⟩⟩
    · exact absurd hq List.not_mem_nil
  · rintro ⟨hex, ⟨hwanted, rfl⟩ | ⟨ns, m, hseen, hwanted, rfl⟩⟩
    · obtain ⟨hname, hfits⟩ := wanted_singleton.1 hwanted
      rw [if_pos ⟨hfits, hex⟩, if_pos hname]
      exact List.mem_append_left _ (List.mem_singleton.2 rfl)
    · have hfits : (childPath path e.name).length < maxPath :=
        Nat.lt_of_le_of_lt (length_le_pathOf (childPath path e.name) ns) hwanted.2
      rw [if_pos ⟨hfits, hex⟩]
      refine List.mem_append_right _ ((ih _).2 ⟨ns, m, hseen, ?_, rfl⟩)
      exact (wanted_cons hseen.ne_nil).1 hwanted

/-- **What is printed** is what is looked for and can be seen. -/
theorem mem_prints_iff (path : Path) (node : Node) : q ∈ prints (find path name node).1 ↔
    ∃ ns m, Seen node ns m ∧ Wanted path name ns ∧ q = pathOf path ns := by
  have hnone : ∀ node : Node, (∀ es, node ≠ .dir true es) → ∀ path,
      (q ∈ prints (find path name node).1 ↔
        ∃ ns m, Seen node ns m ∧ Wanted path name ns ∧ q = pathOf path ns) := by
    intro node hnode path
    rw [prints_find_of_notOpened hnode]
    refine iff_of_false List.not_mem_nil ?_
    rintro ⟨ns, m, hseen, -⟩
    obtain ⟨es, hes⟩ := hseen.opens
    exact hnode es hes
  induction node using node_induction generalizing path with
  | file => exact hnone .file (fun _ => Node.noConfusion) path
  | symlink => exact hnone .symlink (fun _ => Node.noConfusion) path
  | dir o es ih =>
    cases o with
    | false => exact hnone (.dir false es) (fun es' h => by cases h) path
    | true =>
      rw [prints_find_dir, List.mem_flatMap]
      constructor
      · rintro ⟨e, he, hq⟩
        obtain ⟨hex, ⟨hwanted, rfl⟩ | ⟨ns, m, hseen, hwanted, rfl⟩⟩ :=
          (mem_prints_entryEvents_iff (ih e he)).1 hq
        · exact ⟨_, e.node, seen_dir_iff.2 ⟨rfl, e, he, hex, .inl ⟨rfl, rfl⟩⟩, hwanted, rfl⟩
        · exact ⟨_, m, seen_dir_iff.2 ⟨rfl, e, he, hex, .inr ⟨ns, rfl, hseen⟩⟩, hwanted, rfl⟩
      · rintro ⟨ns, m, hseen, hwanted, rfl⟩
        obtain ⟨-, e, he, hex, hcases⟩ := seen_dir_iff.1 hseen
        refine ⟨e, he, (mem_prints_entryEvents_iff (ih e he)).2 ⟨hex, ?_⟩⟩
        rcases hcases with ⟨rfl, rfl⟩ | ⟨ns', rfl, hbelow⟩
        · exact .inl ⟨hwanted, rfl⟩
        · exact .inr ⟨ns', m, hbelow, hwanted, rfl⟩

theorem pairwise_toList : ∀ es : Entries, es.Distinct →
    es.toList.Pairwise fun e e' => e.name ≠ e'.name
  | .nil, _ => .nil
  | .dots rest, h => pairwise_toList rest h
  | .cons _ _ _ rest, ⟨hnames, _, hrest⟩ => .cons hnames (pairwise_toList rest hrest)

theorem distinct_of_mem : ∀ es : Entries, es.Distinct → ∀ e ∈ es.toList, e.node.Distinct
  | .nil, _ => fun _ he => absurd he List.not_mem_nil
  | .dots rest, h => distinct_of_mem rest h
  | .cons _ _ _ rest, ⟨_, hnode, hrest⟩ =>
    List.forall_mem_cons.2 ⟨hnode, distinct_of_mem rest hrest⟩

/-- What is printed for an entry is its path or further down. -/
theorem prefix_of_mem_prints {e : Entry} (hq : q ∈ prints (entryEvents path name e)) :
    ∃ ns, q = pathOf path (e.name :: ns) := by
  obtain ⟨-, ⟨-, rfl⟩ | ⟨ns, m, -, -, rfl⟩⟩ :=
    (mem_prints_entryEvents_iff fun path => mem_prints_iff path e.node).1 hq
  · exact ⟨[], rfl⟩
  · exact ⟨ns, rfl⟩

/-- **Nothing is printed twice.** -/
theorem nodup_prints (path : Path) (name : List UInt8) (h : node.Distinct) :
    (prints (find path name node).1).Nodup := by
  induction node using node_induction generalizing path with
  | file => rw [find]; exact List.nodup_nil
  | symlink => rw [find]; exact List.nodup_nil
  | dir o es ih =>
    cases o with
    | false => rw [find]; exact List.nodup_nil
    | true =>
      rw [prints_find_dir, List.nodup_flatMap]
      constructor
      · intro e he
        rw [prints_entryEvents]
        have hbelow := ih e he (childPath path e.name) (distinct_of_mem es h e he)
        split_ifs with hentry hname
        · rw [List.singleton_append, List.nodup_cons]
          refine ⟨fun hmem => ?_, hbelow⟩
          obtain ⟨ns, m, hseen, -, heq⟩ := (mem_prints_iff _ _).1 hmem
          obtain ⟨n, ns, rfl⟩ := List.exists_cons_of_ne_nil hseen.ne_nil
          have hlonger := length_lt_pathOf (childPath path e.name) n ns
          rw [← heq] at hlonger
          exact Nat.lt_irrefl _ hlonger
        · exact hbelow
        · exact List.nodup_nil
      · refine (pairwise_toList es h).imp fun {e e'} hne q hq hq' => ?_
        obtain ⟨ns, heq⟩ := prefix_of_mem_prints hq
        obtain ⟨ns', heq'⟩ := prefix_of_mem_prints hq'
        exact hne (pathOf_cons_inj (heq.symm.trans heq'))

/-! ### Where `find` goes down -/

theorem opened_of_mem_entryEvents {e : Entry} (h : .opened q ∈ entryEvents path name e) :
    e.examined = true ∧ .opened q ∈ (find (childPath path e.name) name e.node).1 := by
  rw [entryEvents] at h
  split_ifs at h with hlen hex hname hdir hdir
  · simp at h
  · simp at h
  · exact ⟨by simpa using hex, by simpa using h⟩
  · simp at h
  · exact ⟨by simpa using hex, by simpa using h⟩
  · simp at h

/-- **Only directories are opened**, and only those that can be seen. -/
theorem opened_find (path : Path) (name : List UInt8) (node : Node)
    (h : .opened q ∈ (find path name node).1) : ∃ es, (q = path ∧ node = .dir true es) ∨
      ∃ ns, Seen node ns (.dir true es) ∧ q = pathOf path ns := by
  induction node using node_induction generalizing path with
  | file =>
    rw [find] at h
    simp at h
  | symlink =>
    rw [find] at h
    simp at h
  | dir o es ih =>
    cases o with
    | false =>
      rw [find] at h
      simp at h
    | true =>
      rw [find_dir] at h
      rcases List.mem_cons.1 h with heq | h
      · cases heq
        exact ⟨es, .inl ⟨rfl, rfl⟩⟩
      obtain ⟨e, he, h⟩ := List.mem_flatMap.1 h
      obtain ⟨hex, h⟩ := opened_of_mem_entryEvents h
      obtain ⟨es', ⟨rfl, hnode⟩ | ⟨ns, hseen, rfl⟩⟩ := ih e he _ h
      · refine ⟨es', .inr ⟨[e.name], seen_dir_iff.2 ⟨rfl, e, he, hex, .inl ⟨rfl, ?_⟩⟩, rfl⟩⟩
        exact hnode.symm
      · refine ⟨es', .inr ⟨e.name :: ns, seen_dir_iff.2 ⟨rfl, e, he, hex, .inr ?_⟩, rfl⟩⟩
        exact ⟨ns, rfl, hseen⟩

/-! ### The status -/

/-- Something fails below the path: a directory that cannot be opened, or an entry that cannot
be examined or does not fit. -/
def Failure (path : Path) (node : Node) : Prop :=
  (∃ ns ex es, Descendant node ns ex (.dir false es)) ∨ (∃ ns m, Descendant node ns false m) ∨
    ∃ ns ex m, Descendant node ns ex m ∧ maxPath ≤ (pathOf path ns).length

theorem Failure.isDir (h : Failure path node) : node.isDir = true := by
  have hdir : ∀ {ns ex m}, Descendant node ns ex m → node.isDir = true := by
    intro ns ex m hd
    cases hd <;> rfl
  rcases h with ⟨ns, ex, es, hd⟩ | ⟨ns, m, hd⟩ | ⟨ns, ex, m, hd, -⟩ <;> exact hdir hd

/-- What fails below a directory fails at an entry of it or below that. -/
theorem failure_dir_iff {o : Bool} : Failure path (.dir o es) ↔ ∃ e ∈ es.toList,
    maxPath ≤ (childPath path e.name).length ∨ e.examined = false ∨
      (∃ es', e.node = .dir false es') ∨ Failure (childPath path e.name) e.node := by
  simp only [Failure, descendant_dir_iff]
  constructor
  · rintro (⟨ns, ex, es', e, he, ⟨-, -, hm⟩ | ⟨ns', -, hd⟩⟩ |
      ⟨ns, m, e, he, ⟨-, hex, -⟩ | ⟨ns', -, hd⟩⟩ |
      ⟨ns, ex, m, ⟨e, he, ⟨rfl, -, -⟩ | ⟨ns', rfl, hd⟩⟩, hlen⟩)
    · exact ⟨e, he, .inr (.inr (.inl ⟨es', hm.symm⟩))⟩
    · exact ⟨e, he, .inr (.inr (.inr (.inl ⟨ns', ex, es', hd⟩)))⟩
    · exact ⟨e, he, .inr (.inl hex.symm)⟩
    · exact ⟨e, he, .inr (.inr (.inr (.inr (.inl ⟨ns', m, hd⟩))))⟩
    · exact ⟨e, he, .inl hlen⟩
    · exact ⟨e, he, .inr (.inr (.inr (.inr (.inr ⟨ns', ex, m, hd, hlen⟩))))⟩
  · rintro ⟨e, he, hlen | hex | ⟨es', hm⟩ | ⟨ns, ex, es', hd⟩ | ⟨ns, m, hd⟩ |
      ⟨ns, ex, m, hd, hlen⟩⟩
    · exact .inr (.inr ⟨[e.name], e.examined, e.node, ⟨e, he, .inl ⟨rfl, rfl, rfl⟩⟩, hlen⟩)
    · exact .inr (.inl ⟨[e.name], e.node, e, he, .inl ⟨rfl, hex.symm, rfl⟩⟩)
    · exact .inl ⟨[e.name], e.examined, es', e, he, .inl ⟨rfl, rfl, hm.symm⟩⟩
    · exact .inl ⟨e.name :: ns, ex, es', e, he, .inr ⟨ns, rfl, hd⟩⟩
    · exact .inr (.inl ⟨e.name :: ns, m, e, he, .inr ⟨ns, rfl, hd⟩⟩)
    · exact .inr (.inr ⟨e.name :: ns, ex, m, ⟨e, he, .inr ⟨ns, rfl, hd⟩⟩, hlen⟩)

theorem find_snd_eq (path : Path) (name : List UInt8) (node : Node) :
    (find path name node).2 = 0 ∨ (find path name node).2 = -1 := by
  cases node with
  | file => rw [find]; exact .inr rfl
  | symlink => rw [find]; exact .inr rfl
  | dir o es =>
    cases o with
    | false => rw [find]; exact .inr rfl
    | true =>
      rw [find_dir]
      dsimp only
      split_ifs
      · exact .inr rfl
      · exact .inl rfl

theorem notOpened_iff : (∀ es, node ≠ .dir true es) ↔
    ¬node.isDir ∨ ∃ es, node = .dir false es := by
  cases node with
  | file => exact iff_of_true (fun _ => Node.noConfusion) (.inl (by decide))
  | symlink => exact iff_of_true (fun _ => Node.noConfusion) (.inl (by decide))
  | dir o es =>
    cases o with
    | false => exact iff_of_true (fun es' h => by cases h) (.inr ⟨es, rfl⟩)
    | true =>
      refine iff_of_false (fun h => h es rfl) ?_
      rintro (h | ⟨es', h⟩)
      · exact h rfl
      · cases h

/-- An entry sets `status` if it fails itself or something below it does. -/
theorem entryFails_iff {e : Entry}
    (ih : (find (childPath path e.name) name e.node).2 = -1 ↔
      (∀ es, e.node ≠ .dir true es) ∨ Failure (childPath path e.name) e.node) :
    EntryFails path name e ↔ maxPath ≤ (childPath path e.name).length ∨ e.examined = false ∨
      (∃ es', e.node = .dir false es') ∨ Failure (childPath path e.name) e.node := by
  refine or_congr_right (or_congr_right ?_)
  have hneg : (find (childPath path e.name) name e.node).2 < 0 ↔
      (find (childPath path e.name) name e.node).2 = -1 := by
    rcases find_snd_eq (childPath path e.name) name e.node with h | h <;> rw [h] <;> decide
  rw [hneg, ih, notOpened_iff]
  constructor
  · rintro ⟨hdir, (hnot | hclosed) | hfailure⟩
    · exact absurd hdir hnot
    · exact .inl hclosed
    · exact .inr hfailure
  · rintro (⟨es', hes⟩ | hfailure)
    · exact ⟨by rw [hes]; rfl, .inl (.inr ⟨es', hes⟩)⟩
    · exact ⟨hfailure.isDir, .inr hfailure⟩

/-- **The status** tells whether something failed at the path or below it. -/
theorem find_snd_iff (path : Path) (name : List UInt8) (node : Node) :
    (find path name node).2 = -1 ↔ (∀ es, node ≠ .dir true es) ∨ Failure path node := by
  induction node using node_induction generalizing path with
  | file => rw [find]; exact iff_of_true rfl (.inl fun _ => Node.noConfusion)
  | symlink => rw [find]; exact iff_of_true rfl (.inl fun _ => Node.noConfusion)
  | dir o es ih =>
    cases o with
    | false => rw [find]; exact iff_of_true rfl (.inl fun es' h => by cases h)
    | true =>
      have hdir : ¬∀ es', Node.dir true es ≠ .dir true es' := fun h => h es rfl
      have hexists : (∃ e ∈ es.toList, EntryFails path name e) ↔ Failure path (.dir true es) := by
        rw [failure_dir_iff]
        exact exists_congr fun e => and_congr_right fun he => entryFails_iff (ih e he _)
      rw [find_dir, or_iff_right hdir, ← hexists]
      dsimp only
      split_ifs with hfails
      · exact iff_of_true rfl hfails
      · exact iff_of_false (by decide) hfails

/-- **`find` in any directory tree**, where `lstat` may fail for the path itself.  The lines that
are printed are the paths, each of them once, of what can be seen below the path (with all
directories on the way opened and all entries on the way examined), whose last name is the one
that is looked for, and whose path fits.  Only directories that can be seen are opened, so never
what a symbolic link leads to.  The result is `-1` if the path is no directory, or a directory
cannot be opened, or an entry cannot be examined or does not fit, at any depth; else it is 0. -/
theorem find_spec (path : Path) (name : List UInt8) (top : Option Tree) :
    (prints (findTop path name top).1).Nodup ∧
    (∀ q, q ∈ prints (findTop path name top).1 ↔
      ∃ t ∈ top, ∃ ns m, Seen t.node ns m ∧ Wanted path name ns ∧ q = pathOf path ns) ∧
    (∀ q, .opened q ∈ (findTop path name top).1 → ∃ t ∈ top, ∃ es,
      (q = path ∧ t.node = .dir true es) ∨
        ∃ ns, Seen t.node ns (.dir true es) ∧ q = pathOf path ns) ∧
    ((findTop path name top).2 = -1 ↔ (∀ t ∈ top, ¬t.node.isDir) ∨
      ∃ t ∈ top, (∃ es, t.node = .dir false es) ∨ Failure path t.node) ∧
    ((findTop path name top).2 = 0 ∨ (findTop path name top).2 = -1) := by
  cases top with
  | none =>
    refine ⟨List.nodup_nil, fun q => iff_of_false List.not_mem_nil ?_, fun q h => ?_,
      iff_of_true rfl (.inl ?_), .inr rfl⟩
    · rintro ⟨t, ⟨⟩, -⟩
    · simp [findTop] at h
    · rintro t ⟨⟩
  | some t =>
    have hmem : ∀ P : Tree → Prop, (∃ t' ∈ some t, P t') ↔ P t := by
      intro P
      simp
    have hall : ∀ P : Tree → Prop, (∀ t' ∈ some t, P t') ↔ P t := by
      intro P
      simp
    simp only [hmem, hall, findTop]
    refine ⟨nodup_prints path name t.distinct, fun q => mem_prints_iff path t.node,
      fun q h => opened_find path name t.node h, ?_, find_snd_eq path name t.node⟩
    rw [find_snd_iff, notOpened_iff, or_assoc]

/-- A directory with an entry `x` for a directory that cannot be opened, with a file `y`. -/
def lockedTree : Tree where
  node := .dir true (.dots (.dots (.cons ⟨⟨[120], by decide, by decide⟩, by decide⟩ true
    (.dir false (.cons ⟨⟨[121], by decide, by decide⟩, by decide⟩ true .file .nil)) .nil)))
  distinct := by simp [Node.Distinct, Entries.Distinct, Entries.toList]

/-- **What is not printed**: the file in the directory that cannot be opened. -/
theorem find_not_all : ¬∀ ns ex m, Descendant lockedTree.node ns ex m → Wanted [46] [121] ns →
    pathOf [46] ns ∈ prints (findTop [46] [121] (some lockedTree)).1 := by
  intro h
  have hprinted := h [⟨⟨[120], by decide, by decide⟩, by decide⟩,
    ⟨⟨[121], by decide, by decide⟩, by decide⟩] true .file
    (.under List.mem_cons_self (.entry List.mem_cons_self)) ⟨⟨_, rfl, rfl⟩, by decide⟩
  exact absurd hprinted (by decide)

end Find
end Tools
end V6User
