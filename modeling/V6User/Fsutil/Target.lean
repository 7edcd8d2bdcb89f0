import Mathlib.Data.List.DropRight
import V6User.Fsutil.Paths
import V6User.Vfs.Calls
import V6User.Vfs.Lookup

/-!
# Where a source goes

`fsutil_resolve_target` of `lib/fsutil.c`: for a destination that is a directory, the target is
the last component of the source in it, and for any other destination it is the destination.

The base name of a path without a last component is `/`, and `.` and `..` are taken as they
are, although `fsutil_remove_path` looks for them.  So the target is an entry of the directory
only for other sources (`resolveTarget_inside_iff`).
-/

namespace V6User
namespace Fsutil

open Vfs Effect

/-- `ret >= 0 && S_ISDIR(st.st_mode)`. -/
def isDir : Except Errno Stat → Bool
  | .ok st => st.kind == .dir
  | .error _ => false

/-- `fsutil_resolve_target`. -/
def resolveTarget (maxpath bufsz : ℕ) (src dst : Path) (dstMustBeDir : Bool) : Prog Path := do
  let ret ← attempt (lstat dst)
  if dstMustBeDir && !isDir ret then throw .enotdir
  else if isDir ret then
    let base ← ofExcept (copyBasename maxpath src)
    ofExcept (joinPath bufsz dst base)
  else if bufsz < dst.length + 1 then throw .enametoolong
  else pure dst

/-! ### Slashes at the end -/

/-- A path without the slashes at its end. -/
def stripSlashes (path : Path) : Path := path.rdropWhile (· == slash)

section Paths

variable {path dir name c : Path} {dstsz k : ℕ}

theorem exists_stripSlashes (path : Path) :
    ∃ k, path = stripSlashes path ++ List.replicate k slash := by
  refine ⟨(path.rtakeWhile (· == slash)).length, ?_⟩
  have hall : path.rtakeWhile (· == slash) =
      List.replicate (path.rtakeWhile (· == slash)).length slash := by
    refine List.eq_replicate_of_mem fun b hb => ?_
    have hslash : (b == slash) = true := List.mem_rtakeWhile_imp (p := (· == slash)) hb
    exact beq_iff_eq.1 hslash
  rw [← hall]
  exact List.rdropWhile_append_rtakeWhile.symm

theorem getLast_stripSlashes (h : stripSlashes path ≠ []) :
    (stripSlashes path).getLast? ≠ some slash := by
  intro hlast
  rw [List.getLast?_eq_some_getLast h] at hlast
  have hnot : ¬((stripSlashes path).getLast h == slash) = true :=
    List.rdropWhile_last_not (· == slash) path h
  exact hnot (beq_iff_eq.2 (Option.some.inj hlast))

/-- Of a path of slashes one is kept. -/
theorem dropSlashes_slashes (k : ℕ) {j : ℕ} (hj : j ≤ k) :
    dropSlashes (List.replicate k slash) j = min j 1 := by
  induction j with
  | zero => rfl
  | succ j ih =>
    have hslash : (List.replicate k slash)[j]? = some slash := by
      rw [List.getElem?_replicate, if_pos (Nat.lt_of_succ_le hj)]
    rw [dropSlashes, hslash]
    by_cases hone : 1 < j + 1
    · rw [if_pos ⟨hone, rfl⟩, ih (Nat.le_of_succ_le hj)]
      omega
    · rw [if_neg fun h => hone h.1]
      omega

/-- **A name below a directory**: the directory without the slashes at its end, a slash and the
name. -/
theorem joinPath_strip (hdir : dir ≠ []) (name : Path) : joinPath dstsz dir name =
    if dstsz < (stripSlashes dir).length + 1 + name.length + 1 then .error .enametoolong
    else .ok (stripSlashes dir ++ slash :: name) := by
  obtain ⟨k, hk⟩ := exists_stripSlashes dir
  unfold joinPath
  dsimp only
  by_cases hstrip : stripSlashes dir = []
  · -- the root
    rw [hstrip, List.nil_append] at hk
    obtain ⟨k, rfl⟩ := Nat.exists_eq_succ_of_ne_zero (n := k) (by
      rintro rfl
      exact hdir hk)
    have hlen : dropSlashes dir dir.length = 1 := by
      rw [hk, List.length_replicate, dropSlashes_slashes _ (Nat.le_refl _)]
      omega
    have hfirst : dir[0]? = some slash := by rw [hk]; rfl
    have htake : dir.take 1 = [slash] := by rw [hk]; rfl
    rw [hlen, hfirst, htake, hstrip]
    simp
  · have hlen : dropSlashes dir dir.length = (stripSlashes dir).length := by
      have hdrop := dropSlashes_replicate hstrip (getLast_stripSlashes hstrip) (Nat.le_refl k)
      rwa [← hk, show (stripSlashes dir).length + k = dir.length by
        conv_rhs => rw [hk, List.length_append, List.length_replicate]] at hdrop
    have htake : dir.take (stripSlashes dir).length = stripSlashes dir := by
      have hprefix : stripSlashes dir <+: dir := ⟨_, hk.symm⟩
      exact (List.prefix_iff_eq_take.1 hprefix).symm
    have hneed : (!((stripSlashes dir).length == 1 && dir[0]? == some slash)) = true := by
      rw [Bool.not_eq_true', Bool.and_eq_false_iff]
      by_cases hone : (stripSlashes dir).length = 1
      · right
        obtain ⟨b, hb⟩ := List.length_eq_one_iff.1 hone
        have hlast := getLast_stripSlashes hstrip
        rw [hb] at hlast
        have hfirst : dir[0]? = some b := by
          rw [hk, hb]
          rfl
        rw [hfirst]
        exact beq_false_of_ne hlast
      · exact .inl (beq_false_of_ne hone)
    rw [hlen, htake, hneed]
    simp

/-- A path has a last component, unless there are only slashes in it. -/
theorem lastComponent_or (path : Path) :
    (∃ c, LastComponent path c) ∨ ∃ k, path = List.replicate k slash := by
  obtain ⟨k, hk⟩ := exists_stripSlashes path
  by_cases hstrip : stripSlashes path = []
  · rw [hstrip, List.nil_append] at hk
    exact .inr ⟨k, hk⟩
  · left
    have hsplit : (stripSlashes path).rdropWhile (· != slash) ++
        (stripSlashes path).rtakeWhile (· != slash) = stripSlashes path :=
      List.rdropWhile_append_rtakeWhile
    refine ⟨(stripSlashes path).rtakeWhile (· != slash),
      (stripSlashes path).rdropWhile (· != slash), k, ?_, fun hnil => ?_, fun hmem => ?_, ?_⟩
    · rw [hsplit]
      exact hk
    · rw [List.rtakeWhile_eq_nil_iff] at hnil
      have hlast := hnil hstrip
      rw [bne_iff_ne, ne_eq, not_not] at hlast
      refine getLast_stripSlashes hstrip ?_
      rw [List.getLast?_eq_some_getLast hstrip, hlast]
    · have hne : (slash != slash) = true := List.mem_rtakeWhile_imp (p := (· != slash)) hmem
      exact absurd rfl (bne_iff_ne.1 hne)
    · by_cases hs : (stripSlashes path).rdropWhile (· != slash) = []
      · exact .inl hs
      · right
        have hlast := List.rdropWhile_last_not (· != slash) (stripSlashes path) hs
        rw [bne_iff_ne, ne_eq, not_not] at hlast
        rw [List.getLast?_eq_some_getLast hs, hlast]

/-- A path of slashes has the base name `/`. -/
theorem copyBasename_slashes (maxpath k : ℕ) : copyBasename maxpath (List.replicate k slash) =
    if maxpath < 2 then .error .enametoolong else .ok [slash] := by
  have hlen : dropSlashes (List.replicate k slash) (List.replicate k slash).length = min k 1 := by
    rw [List.length_replicate, dropSlashes_slashes k (Nat.le_refl k)]
  have hstart : baseStart (List.replicate k slash) (min k 1) = min k 1 := by
    cases k with
    | zero => rfl
    | succ k =>
      rw [Nat.min_eq_right (Nat.succ_pos k), baseStart]
      exact if_neg fun h => h rfl
  unfold copyBasename
  dsimp only
  rw [hlen, hstart, Nat.sub_self, if_pos rfl]

theorem LastComponent.not_slashes (h : LastComponent path c) : path ≠ List.replicate k slash := by
  obtain ⟨s, j, rfl, hne, hc, -⟩ := h
  intro hpath
  obtain ⟨b, hb⟩ := List.exists_mem_of_ne_nil c hne
  have hmem : b ∈ List.replicate k slash :=
    hpath ▸ List.mem_append_left _ (List.mem_append_right _ hb)
  exact hc (List.eq_of_mem_replicate hmem ▸ hb)

/-- There is only one last component. -/
theorem LastComponent.unique {c' : Path} (h : LastComponent path c) (h' : LastComponent path c') :
    c = c' := by
  have hbase : copyBasename (c.length + 1) path = _ := copyBasename_eq h
  rw [if_neg (Nat.lt_irrefl _)] at hbase
  exact copyBasename_component h' hbase

end Paths

/-! ### The target -/

section Target

variable {maxpath bufsz : ℕ} {src dst p : Path} {must : Bool} {w w' w₁ : World} {st : Stat}
  {r : Except Errno Path}

/-- The target is an entry directly inside the directory: the directory without the slashes at
its end, a slash, and the last component of the source, which is neither `.` nor `..`. -/
def TargetInside (src dst : Path) (r : Except Errno Path) : Prop :=
  ∀ p, r = .ok p → ∃ c, LastComponent src c ∧ isDotOrDotdot c = false ∧
    p = stripSlashes dst ++ slash :: c

/-- A base name that leads to no entry directly inside a directory: `.`, `..`, or the slash of a
source without a last component. -/
def Escaping (src base : Path) : Prop :=
  (LastComponent src base ∧ isDotOrDotdot base = true) ∨
    ∃ k, src = List.replicate k slash ∧ base = [slash]

/-- **The result fits** the buffer. -/
theorem length_resolveTarget
    (h : Runs (resolveTarget maxpath bufsz src dst must) w (.ok p) w') : p.length + 1 ≤ bufsz := by
  unfold resolveTarget at h
  obtain ⟨ret, w₁, -, h⟩ := runs_attempt_bind.1 h
  split_ifs at h with hmust hdir hlong
  · exact absurd (runs_throw.1 h).1 nofun
  · rcases runs_ofExcept_bind.1 h with ⟨e, -, hbad, -⟩ | ⟨base, -, hjoin⟩
    · exact absurd hbad nofun
    have hp := (runs_ofExcept.1 hjoin).1
    have hle := dropSlashes_le dst dst.length
    unfold joinPath at hp
    dsimp only at hp
    split_ifs at hp with hneed hfits hfits
    all_goals
      rw [Except.ok.inj hp]
      simp only [List.length_append, List.length_take, List.length_cons, List.length_nil]
      omega
  · exact absurd (runs_throw.1 h).1 nofun
  · obtain ⟨hp, -⟩ := runs_pure.1 h
    rw [Except.ok.inj hp]
    omega

/-- What is done where the destination is a directory. -/
theorem runs_resolveTarget_dir (hlstat : Runs (lstat dst) w (.ok st) w₁) (hdir : st.kind = .dir) :
    Runs (resolveTarget maxpath bufsz src dst must) w r w' ↔
      w' = w₁ ∧ r = (copyBasename maxpath src).bind fun base => joinPath bufsz dst base := by
  have hisdir : isDir (.ok st) = true := beq_iff_eq.2 hdir
  have hgo : ∀ w₁, Runs (do
      let base ← ofExcept (copyBasename maxpath src)
      ofExcept (joinPath bufsz dst base) : Prog Path) w₁ r w' ↔
      w' = w₁ ∧ r = (copyBasename maxpath src).bind fun base => joinPath bufsz dst base := by
    intro w₁
    rw [runs_ofExcept_bind]
    rcases copyBasename maxpath src with e | base
    · constructor
      · rintro (⟨e', he, rfl, rfl⟩ | ⟨base, hbase, -⟩)
        · exact ⟨rfl, he ▸ rfl⟩
        · exact absurd hbase nofun
      · rintro ⟨rfl, rfl⟩
        exact .inl ⟨e, rfl, rfl, rfl⟩
    · constructor
      · rintro (⟨e', he, -, -⟩ | ⟨base', hbase, h⟩)
        · exact absurd he nofun
        · obtain rfl := Except.ok.inj hbase
          obtain ⟨rfl, rfl⟩ := runs_ofExcept.1 h
          exact ⟨rfl, rfl⟩
      · rintro ⟨rfl, rfl⟩
        exact .inr ⟨base, rfl, runs_ofExcept.2 ⟨rfl, rfl⟩⟩
  have hthere : ∀ w', Runs (resolveTarget maxpath bufsz src dst must) w r w' ↔
      ∃ ret w₁, Runs (lstat dst) w ret w₁ ∧ Runs (if must && !isDir ret then throw .enotdir
        else if isDir ret then do
          let base ← ofExcept (copyBasename maxpath src)
          ofExcept (joinPath bufsz dst base)
        else if bufsz < dst.length + 1 then throw .enametoolong
        else pure dst) w₁ r w' := fun w' => runs_attempt_bind
  rw [hthere]
  constructor
  · rintro ⟨ret, w₂, hrun, h⟩
    obtain ⟨rfl, rfl⟩ := hrun.unique hlstat
    rw [hisdir, Bool.not_true, Bool.and_false, if_neg Bool.false_ne_true, if_pos rfl] at h
    exact (hgo _).1 h
  · intro h
    refine ⟨_, _, hlstat, ?_⟩
    rw [hisdir, Bool.not_true, Bool.and_false, if_neg Bool.false_ne_true, if_pos rfl]
    exact (hgo _).2 h

/-- A base name like that does not fit. -/
def Fenced (maxpath bufsz : ℕ) (src dst : Path) : Prop :=
  ∀ base, Escaping src base → maxpath < base.length + 1 ∨
    bufsz < (stripSlashes dst).length + 1 + base.length + 1

theorem Escaping.copyBasename {base : Path} (h : Escaping src base) :
    copyBasename maxpath src =
      if maxpath < base.length + 1 then .error .enametoolong else .ok base := by
  rcases h with ⟨hc, -⟩ | ⟨k, rfl, rfl⟩
  · exact copyBasename_eq hc
  · exact copyBasename_slashes maxpath k

/-- The target for a base name. -/
theorem bind_joinPath {base : Path} (hdst : dst ≠ []) (hbase : copyBasename maxpath src =
      if maxpath < base.length + 1 then .error .enametoolong else .ok base) :
    (copyBasename maxpath src).bind (fun base => joinPath bufsz dst base) =
      if maxpath < base.length + 1 ∨ bufsz < (stripSlashes dst).length + 1 + base.length + 1
      then .error .enametoolong else .ok (stripSlashes dst ++ slash :: base) := by
  rw [hbase]
  by_cases hlong : maxpath < base.length + 1
  · rw [if_pos hlong, if_pos (.inl hlong)]
    rfl
  · rw [if_neg hlong]
    refine (joinPath_strip hdst base).trans ?_
    simp only [hlong, false_or]

/-- **Where the target lies.**  The target fits the buffer; and where `lstat` finds that the
destination is a directory, the target is an entry directly inside it exactly if the source
has a last component other than `.` and `..`, or the names are too long for the buffers. -/
theorem resolveTarget_inside_iff (maxpath bufsz : ℕ) (src dst : Path) (must : Bool) (w : World) :
    (∀ p w', Runs (resolveTarget maxpath bufsz src dst must) w (.ok p) w' → p.length + 1 ≤ bufsz) ∧
    ∀ st w₁, Runs (lstat dst) w (.ok st) w₁ → st.kind = .dir →
      ((∀ r w', Runs (resolveTarget maxpath bufsz src dst must) w r w' → TargetInside src dst r) ↔
        Fenced maxpath bufsz src dst) := by
  refine ⟨fun p w' h => length_resolveTarget h, fun st w₁ hlstat hdir => ?_⟩
  have hdst : dst ≠ [] := by
    obtain ⟨-, ⟨e, hbad, -⟩ | ⟨o, st', hst, -⟩⟩ := runs_look hlstat
    · exact absurd hbad nofun
    · obtain ⟨x, hx, -⟩ := Fs.statOf_eq_ok.1 hst
      obtain ⟨place, hplace, -⟩ := Fs.get_eq_ok.1 hx
      exact Fs.ne_nil_of_resolve hplace
  constructor
  · intro hall base hbase
    by_contra hfits
    -- the base name is taken as it is
    have hr : (copyBasename maxpath src).bind (fun base => joinPath bufsz dst base) = _ :=
      bind_joinPath hdst hbase.copyBasename
    rw [if_neg hfits] at hr
    obtain ⟨c, hc, hnot, hp⟩ := hall _ _ ((runs_resolveTarget_dir hlstat hdir).2 ⟨rfl, rfl⟩) _ hr
    obtain rfl : base = c := (List.cons.inj (List.append_cancel_left hp)).2
    rcases hbase with ⟨-, hdots⟩ | ⟨k, hk, -⟩
    · rw [hdots] at hnot
      exact absurd hnot nofun
    · exact hc.not_slashes hk
  · intro hfenced r w' hrun p hp
    obtain ⟨-, rfl⟩ := (runs_resolveTarget_dir hlstat hdir).1 hrun
    have hescaping : ∀ base, Escaping src base → False := by
      intro base hbase
      rw [bind_joinPath hdst hbase.copyBasename, if_pos (hfenced base hbase)] at hp
      exact absurd hp nofun
    rcases lastComponent_or src with ⟨c, hc⟩ | ⟨k, hk⟩
    · rcases hdots : isDotOrDotdot c with _ | _
      · rw [bind_joinPath hdst (copyBasename_eq hc)] at hp
        split_ifs at hp
        exact ⟨c, hc, hdots, (Except.ok.inj hp).symm⟩
      · exact absurd (.inl ⟨hc, hdots⟩) (hescaping c)
    · exact absurd (.inr ⟨k, hk, rfl⟩) (hescaping [slash])

/-- The file `a` goes to `/d/a`. -/
theorem resolveTarget_inside_small :
    ∀ r w', Runs (resolveTarget 512 512 [97] [47, 100] false) smallWorld r w' →
      TargetInside [97] [47, 100] r := by
  have hlstat : Runs (lstat [47, 100]) smallWorld (.ok ⟨⟨0, 1⟩, .dir, 0o700⟩)
      { smallWorld with calls := [.lstat [47, 100]] } := rfl
  refine ((resolveTarget_inside_iff 512 512 [97] [47, 100] false smallWorld).2 _ _ hlstat rfl).2 ?_
  have hc : LastComponent [97] [97] := ⟨[], 0, rfl, by decide, by decide, .inl rfl⟩
  rintro base (⟨hbase, hdots⟩ | ⟨k, hk, -⟩)
  · obtain rfl := hbase.unique hc
    exact absurd hdots (by decide)
  · exact absurd hk hc.not_slashes

/-- The source `..` goes to `/d/..`, which is not in `/d`. -/
theorem resolveTarget_not_inside : ¬∀ maxpath bufsz src dst must w st w₁ r w',
    Runs (lstat dst) w (.ok st) w₁ → st.kind = .dir →
      Runs (resolveTarget maxpath bufsz src dst must) w r w' → TargetInside src dst r := by
  intro hall
  have hlstat : Runs (lstat [47, 100]) smallWorld (.ok ⟨⟨0, 1⟩, .dir, 0o700⟩)
      { smallWorld with calls := [.lstat [47, 100]] } := rfl
  have hrun : Runs (resolveTarget 512 512 [46, 46] [47, 100] false) smallWorld
      (.ok [47, 100, 47, 46, 46]) { smallWorld with calls := [.lstat [47, 100]] } :=
    (runs_resolveTarget_dir hlstat rfl).2 ⟨rfl, rfl⟩
  obtain ⟨c, hc, hnot, -⟩ := hall _ _ _ _ _ _ _ _ _ _ hlstat rfl hrun _ rfl
  have hdots : LastComponent [46, 46] [46, 46] := ⟨[], 0, rfl, by decide, by decide, .inl rfl⟩
  obtain rfl := hc.unique hdots
  exact absurd hnot (by decide)

end Target

end Fsutil
end V6User
