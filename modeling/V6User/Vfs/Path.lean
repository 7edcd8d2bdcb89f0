import Mathlib.Data.List.Basic
import Mathlib.Tactic.Common

/-!
# Paths

A path is a list of bytes.  The names in it are what stands between its slashes (`comps`);
a slash at its end means that what it leads to has to be a directory, and the path is
resolved as if `.` followed (`names`).
-/

namespace V6User
namespace Vfs

/-- The slash byte. -/
abbrev slash : UInt8 := 47

/-- A path: the bytes before its terminating NUL. -/
abbrev Path := List UInt8

/-- The name of a directory entry. -/
structure Name where
  bytes : List UInt8
  ne_nil : bytes ≠ []
  no_slash : slash ∉ bytes
  deriving DecidableEq

/-- The entry of a directory for itself. -/
def Name.dot : Name := ⟨[46], by decide, by decide⟩

/-- The entry of a directory for the one above it. -/
def Name.dotdot : Name := ⟨[46, 46], by decide, by decide⟩

/-- One of these two. -/
def Name.IsDots (n : Name) : Prop := n = Name.dot ∨ n = Name.dotdot

instance (n : Name) : Decidable n.IsDots := inferInstanceAs (Decidable (_ ∨ _))

/-- The bytes between the slashes of a path. -/
def pieces : Path → List (List UInt8)
  | [] => [[]]
  | c :: s =>
    if c = slash then [] :: pieces s
    else match pieces s with
      | [] => [[c]]
      | p :: ps => (c :: p) :: ps

/-- The name that these bytes are, if any. -/
def toName (b : List UInt8) : Option Name :=
  if h : b ≠ [] ∧ slash ∉ b then some ⟨b, h.1, h.2⟩ else none

/-- The names in a path, in order. -/
def comps (path : Path) : List Name := (pieces path).filterMap toName

/-- A path that ends in a slash leads to a directory. -/
def WantsDir (path : Path) : Prop := path.getLast? = some slash

instance (path : Path) : Decidable (WantsDir path) := inferInstanceAs (Decidable (_ = _))

/-- The names that a path is resolved through: after a slash at its end there is `.`. -/
def names (path : Path) : List Name :=
  if WantsDir path then comps path ++ [Name.dot] else comps path

/-- The path `p` has the names of the path `dir`, and the name `n` at its end. -/
structure Below (dir p : Path) (n : Name) : Prop where
  dir_ne_nil : dir ≠ []
  ne_nil : p ≠ []
  head : p.head? = dir.head?
  comps : comps p = Vfs.comps dir ++ [n]
  names : names p = Vfs.comps dir ++ [n]

variable {s t path : Path} {n : Name}

theorem pieces_ne_nil (path : Path) : pieces path ≠ [] := by
  cases path with
  | nil => exact List.cons_ne_nil _ _
  | cons c s =>
    rw [pieces]
    split_ifs
    · exact List.cons_ne_nil _ _
    · split <;> exact List.cons_ne_nil _ _

theorem pieces_append_slash (s t : Path) : pieces (s ++ slash :: t) = pieces s ++ pieces t := by
  induction s with
  | nil => rfl
  | cons c s ih =>
    rw [List.cons_append, pieces, pieces, ih]
    split_ifs
    · rfl
    · obtain ⟨p, ps, hp⟩ := List.exists_cons_of_ne_nil (pieces_ne_nil s)
      rw [hp]
      rfl

theorem pieces_of_no_slash {b : List UInt8} (h : slash ∉ b) : pieces b = [b] := by
  induction b with
  | nil => rfl
  | cons c s ih =>
    obtain ⟨hc, hs⟩ := not_or.1 (fun hm => h (List.mem_cons.2 hm))
    rw [pieces, if_neg (Ne.symm hc), ih hs]

@[simp] theorem toName_bytes (n : Name) : toName n.bytes = some n :=
  dif_pos ⟨n.ne_nil, n.no_slash⟩

@[simp] theorem comps_nil : comps [] = [] := rfl

@[simp] theorem comps_append_slash (s t : Path) : comps (s ++ slash :: t) = comps s ++ comps t := by
  rw [comps, pieces_append_slash, List.filterMap_append]
  rfl

@[simp] theorem comps_bytes (n : Name) : comps n.bytes = [n] := by
  rw [comps, pieces_of_no_slash n.no_slash, List.filterMap_cons_some (toName_bytes n),
    List.filterMap_nil]

/-- A path that ends in a name does not end in a slash. -/
theorem not_wantsDir_append_name (s : Path) (n : Name) : ¬WantsDir (s ++ n.bytes) := by
  intro h
  rw [WantsDir, List.getLast?_append, List.getLast?_eq_some_getLast n.ne_nil, Option.some_or,
    Option.some.injEq] at h
  exact n.no_slash (h ▸ List.getLast_mem n.ne_nil)

/-- The names in a path that ends in a name. -/
theorem names_append_name (s : Path) (n : Name) :
    names (s ++ slash :: n.bytes) = comps s ++ [n] := by
  have hlast : ¬WantsDir (s ++ slash :: n.bytes) := by
    rw [List.append_cons]
    exact not_wantsDir_append_name _ n
  rw [names, if_neg hlast, comps_append_slash, comps_bytes]

end Vfs
end V6User
