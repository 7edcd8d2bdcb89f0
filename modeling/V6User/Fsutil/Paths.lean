import Mathlib.Data.List.Basic
import Mathlib.Tactic.Common
import V6User.Vfs.Fs

/-!
# The paths that `fsutil` builds

`lib/fsutil.c` takes the last component of a path (`fsutil_copy_basename`) and puts a name
below a directory (`fsutil_join_path`), both after the slashes at the end of the path were
dropped.  The buffers have `dstsz` bytes.

The path that is put together leads to the entry with the name in what the directory's path
leads to (`below_of_joinPath`).
-/

namespace V6User
namespace Fsutil

open Vfs

/-- `while (len > 1 && path[len - 1] == '/') len--;` -/
def dropSlashes (path : Path) : ℕ → ℕ
  | 0 => 0
  | len + 1 => if 1 < len + 1 ∧ path[len]? = some slash then dropSlashes path len else len + 1

/-- `while (start > 0 && path[start - 1] != '/') start--;` -/
def baseStart (path : Path) : ℕ → ℕ
  | 0 => 0
  | start + 1 => if path[start]? ≠ some slash then baseStart path start else start + 1

/-- `fsutil_copy_basename`. -/
def copyBasename (dstsz : ℕ) (path : Path) : Except Errno Path :=
  let len := dropSlashes path path.length
  let start := baseStart path len
  let baseLen := len - start
  if baseLen = 0 then
    if dstsz < 2 then .error .enametoolong else .ok [slash]
  else if dstsz < baseLen + 1 then .error .enametoolong
  else .ok ((path.drop start).take baseLen)

/-- `fsutil_is_dot_or_dotdot`. -/
def isDotOrDotdot (name : Path) : Bool := name == [46] || name == [46, 46]

/-- `fsutil_join_path`. -/
def joinPath (dstsz : ℕ) (dir name : Path) : Except Errno Path :=
  let dirLen := dropSlashes dir dir.length
  let needSlash := !(dirLen == 1 && dir[0]? == some slash)
  let total := dirLen + (if needSlash then 1 else 0) + name.length
  if dstsz < total + 1 then .error .enametoolong
  else .ok (dir.take dirLen ++ (if needSlash then [slash] else []) ++ name)

theorem isDotOrDotdot_iff (n : Name) : isDotOrDotdot n.bytes = true ↔ n.IsDots := by
  have hname : ∀ m : Name, n = m ↔ n.bytes = m.bytes := fun m =>
    ⟨congrArg Name.bytes, fun h => by cases n; cases m; cases h; rfl⟩
  unfold isDotOrDotdot Name.IsDots
  rw [Bool.or_eq_true, beq_iff_eq, beq_iff_eq, hname, hname]
  rfl

/-! ### Slashes at the end -/

variable {path dir p : Path} {n : Name} {dstsz k : ℕ}

theorem dropSlashes_le (path : Path) (len : ℕ) : dropSlashes path len ≤ len := by
  induction len with
  | zero => exact Nat.le_refl _
  | succ len ih =>
    rw [dropSlashes]
    split_ifs
    · exact Nat.le_succ_of_le ih
    · exact Nat.le_refl _

/-- What is dropped is slashes. -/
theorem take_dropSlashes (path : Path) {len : ℕ} (h : len ≤ path.length) :
    path.take len = path.take (dropSlashes path len) ++
      List.replicate (len - dropSlashes path len) slash := by
  induction len with
  | zero => rfl
  | succ len ih =>
    rw [dropSlashes]
    split_ifs with hslash
    · have hle := dropSlashes_le path len
      rw [List.take_add_one, hslash.2, ih (Nat.le_of_succ_le h), Nat.sub_add_comm hle,
        List.replicate_succ', List.append_assoc]
      rfl
    · rw [Nat.sub_self, List.replicate_zero, List.append_nil]

/-- A path, cut after the slashes at its end. -/
theorem dropSlashes_split (path : Path) : ∃ k, path =
    path.take (dropSlashes path path.length) ++ List.replicate k slash := by
  have h := take_dropSlashes path (Nat.le_refl path.length)
  rw [List.take_length] at h
  exact ⟨_, h⟩

theorem dropSlashes_pos {len : ℕ} (h : 0 < len) : 0 < dropSlashes path len := by
  induction len with
  | zero => exact h
  | succ len ih =>
    rw [dropSlashes]
    split_ifs with hslash
    · exact ih (by omega)
    · exact Nat.succ_pos _

theorem comps_append_replicate (s : Path) (k : ℕ) :
    comps (s ++ List.replicate k slash) = comps s := by
  induction k with
  | zero => rw [List.replicate_zero, List.append_nil]
  | succ k ih =>
    rw [List.replicate_succ', ← List.append_assoc, comps_append_slash, ih, comps_nil,
      List.append_nil]

/-- The names in a path do not depend on the slashes at its end. -/
theorem comps_take_dropSlashes (path : Path) :
    comps (path.take (dropSlashes path path.length)) = comps path := by
  obtain ⟨k, hk⟩ := dropSlashes_split path
  conv_rhs => rw [hk]
  rw [comps_append_replicate]

/-! ### A name below a directory -/

/-- The path that is put together, for a directory whose path is not empty. -/
theorem joinPath_eq (hdir : dir ≠ []) (h : joinPath dstsz dir n.bytes = .ok p) :
    ∃ s, p = s ++ slash :: n.bytes ∧ comps s = comps dir ∧ p.head? = dir.head? := by
  unfold joinPath at h
  dsimp only at h
  have hcomps := comps_take_dropSlashes dir
  have hlen : 0 < dropSlashes dir dir.length :=
    dropSlashes_pos (List.length_pos_iff.2 hdir)
  generalize dropSlashes dir dir.length = len at h hcomps hlen
  obtain ⟨c, dir, rfl⟩ := List.exists_cons_of_ne_nil hdir
  obtain ⟨len, rfl⟩ := Nat.exists_eq_succ_of_ne_zero (Nat.pos_iff_ne_zero.1 hlen)
  generalize hneed : (!(len + 1 == 1 && (c :: dir)[0]? == some slash)) = needSlash at h
  cases needSlash with
  | true =>
    simp only [if_true] at h
    split_ifs at h
    obtain rfl := Except.ok.inj h
    refine ⟨(c :: dir).take (len + 1), ?_, hcomps, rfl⟩
    rw [List.append_assoc]
    rfl
  | false =>
    -- the directory is the root
    simp only [Bool.false_eq_true, if_false] at h
    split_ifs at h
    obtain ⟨rfl, rfl⟩ : len = 0 ∧ c = slash := by simpa using hneed
    obtain rfl := Except.ok.inj h
    refine ⟨[], rfl, ?_, rfl⟩
    rw [← hcomps]
    rfl

/-- **The path of a child** leads to an entry of what the directory's path leads to. -/
theorem below_of_joinPath (hdir : dir ≠ []) (h : joinPath dstsz dir n.bytes = .ok p) :
    Below dir p n := by
  obtain ⟨s, rfl, hs, hhead⟩ := joinPath_eq hdir h
  constructor
  · exact hdir
  · exact List.append_ne_nil_of_right_ne_nil _ (List.cons_ne_nil _ _)
  · exact hhead
  · rw [comps_append_slash, comps_bytes, hs]
  · rw [names_append_name, hs]

/-! ### The last component -/

/-- The last component of a path, after the slashes at its end. -/
def LastComponent (path c : Path) : Prop :=
  ∃ s k, path = s ++ c ++ List.replicate k slash ∧ c ≠ [] ∧ slash ∉ c ∧
    (s = [] ∨ s.getLast? = some slash)

/-- The slashes at the end of a path that ends in something else before them. -/
theorem dropSlashes_replicate {q : Path} (hne : q ≠ []) (hq : q.getLast? ≠ some slash) {k j : ℕ}
    (hj : j ≤ k) : dropSlashes (q ++ List.replicate k slash) (q.length + j) = q.length := by
  induction j with
  | zero =>
    obtain ⟨m, hm⟩ := Nat.exists_eq_succ_of_ne_zero (mt List.length_eq_zero_iff.1 hne)
    have hlast : (q ++ List.replicate k slash)[m]? = q.getLast? := by
      rw [List.getElem?_append_left (by omega), List.getLast?_eq_getElem?, hm]
      rfl
    rw [Nat.add_zero, hm, dropSlashes, hlast, if_neg fun h => hq h.2]
  | succ j ih =>
    have hslash : (q ++ List.replicate k slash)[q.length + j]? = some slash := by
      rw [List.getElem?_append_right (Nat.le_add_right _ _), Nat.add_sub_cancel_left,
        List.getElem?_replicate, if_pos (Nat.lt_of_succ_le hj)]
    have hpos := List.length_pos_iff.2 hne
    rw [← Nat.add_assoc, dropSlashes, if_pos ⟨by omega, hslash⟩, ih (Nat.le_of_succ_le hj)]

/-- The start of what follows a slash. -/
theorem baseStart_component {s b r : Path} (hs : s = [] ∨ s.getLast? = some slash)
    (hc : slash ∉ b) {j : ℕ} (hj : j ≤ b.length) :
    baseStart (s ++ b ++ r) (s.length + j) = s.length := by
  induction j with
  | zero =>
    rcases hs with rfl | hs
    · rfl
    · rcases hm : s.length with _ | m
      · rfl
      · have hlast : (s ++ b ++ r)[m]? = some slash := by
          rw [List.append_assoc, List.getElem?_append_left (by omega), ← hs,
            List.getLast?_eq_getElem?, hm]
          rfl
        rw [Nat.add_zero, baseStart, hlast, if_neg (not_not.2 rfl)]
  | succ j ih =>
    have hbyte : (s ++ b ++ r)[s.length + j]? = b[j]? := by
      rw [List.append_assoc, List.getElem?_append_right (Nat.le_add_right _ _),
        Nat.add_sub_cancel_left, List.getElem?_append_left hj]
    have hne : b[j]? ≠ some slash := fun h => hc (List.mem_of_getElem? h)
    rw [← Nat.add_assoc, baseStart, hbyte, if_pos hne, ih (Nat.le_of_succ_le hj)]

/-- **The base name** is the last component, when the buffer is not too small for it. -/
theorem copyBasename_eq {c : Path} (h : LastComponent path c) :
    copyBasename dstsz path = if dstsz < c.length + 1 then .error .enametoolong else .ok c := by
  obtain ⟨s, k, rfl, hne, hc, hs⟩ := h
  have hlast : (s ++ c).getLast? ≠ some slash := by
    rw [List.getLast?_append, List.getLast?_eq_some_getLast hne, Option.some_or]
    exact fun h => hc (Option.some.inj h ▸ List.getLast_mem hne)
  have hlen : dropSlashes (s ++ c ++ List.replicate k slash)
      (s ++ c ++ List.replicate k slash).length = s.length + c.length := by
    have hdrop := dropSlashes_replicate (List.append_ne_nil_of_right_ne_nil s hne) hlast
      (Nat.le_refl k)
    rw [List.length_append, List.length_replicate, hdrop, List.length_append]
  have hpos := List.length_pos_iff.2 hne
  unfold copyBasename
  dsimp only
  rw [hlen, baseStart_component hs hc (Nat.le_refl _), Nat.add_sub_cancel_left,
    if_neg (Nat.pos_iff_ne_zero.1 hpos), List.append_assoc, List.drop_left, List.take_left]

theorem copyBasename_component {c b : Path} (h : LastComponent path c)
    (hb : copyBasename dstsz path = .ok b) : b = c := by
  rw [copyBasename_eq h] at hb
  split_ifs at hb
  exact (Except.ok.inj hb).symm

/-! ### The length of a path -/

/-- A child has a longer path, which fits the buffer. -/
theorem length_joinPath (h : joinPath dstsz dir n.bytes = .ok p) :
    dropSlashes dir dir.length < p.length ∧ p.length < dstsz ∧ n.bytes.length < dstsz := by
  have hn := List.length_pos_iff.2 n.ne_nil
  have hle := dropSlashes_le dir dir.length
  unfold joinPath at h
  dsimp only at h
  split_ifs at h with hneed hfits hfits
  all_goals
    rw [← Except.ok.inj h]
    simp only [List.length_append, List.length_take, List.length_cons, List.length_nil]
    omega

theorem lastComponent_joinPath (hdir : dir ≠ []) (h : joinPath dstsz dir n.bytes = .ok p) :
    LastComponent p n.bytes := by
  obtain ⟨s, rfl, -, -⟩ := joinPath_eq hdir h
  refine ⟨s ++ [slash], 0, ?_, n.ne_nil, n.no_slash, .inr ?_⟩
  · rw [List.replicate_zero, List.append_nil, List.append_assoc]
    rfl
  · rw [List.getLast?_append]
    rfl

theorem dropSlashes_joinPath (hdir : dir ≠ []) (h : joinPath dstsz dir n.bytes = .ok p) :
    dropSlashes p p.length = p.length := by
  obtain ⟨s, rfl, -, -⟩ := joinPath_eq hdir h
  have hne : s ++ slash :: n.bytes ≠ [] :=
    List.append_ne_nil_of_right_ne_nil s (List.cons_ne_nil _ _)
  have hlast : (s ++ slash :: n.bytes).getLast? ≠ some slash := by
    rw [List.getLast?_append, List.getLast?_cons, List.getLast?_eq_some_getLast n.ne_nil]
    exact fun h => n.no_slash (Option.some.inj h ▸ List.getLast_mem n.ne_nil)
  have hdrop := dropSlashes_replicate hne hlast (Nat.le_refl 0)
  rwa [List.replicate_zero, List.append_nil] at hdrop

end Fsutil
end V6User
