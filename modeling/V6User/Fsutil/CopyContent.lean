import V6User.Fsutil.CopyVia
import V6User.Vfs.Onward

/-!
# What a copied file holds

`fsutil_copy_regular` of `lib/fsutil.c`: the loop that reads pieces and the loop that writes
each of them, whatever number of bytes the calls transfer.

The loops leave everything as it is but the destination (`Moves`).  Between two reads the
destination holds the part of the source before the position (`writeLoop_data`,
`copyLoop_data`), and a call that fails ends them with an error (`Failed`).
-/

namespace V6User
namespace Fsutil

open Vfs Effect

/-- The outcome of a transfer that reports an error, or that writes nothing. -/
def Failing (o : Outcome) : Call → Prop
  | .read => o.fault.isSome
  | .write => o.fault.isSome ∨ o.count = 0
  | _ => False

/-- A call that reads or writes. -/
def Transfer (c : Call) : Prop := c = .read ∨ c = .write

/-- One of the calls after `w` up to `w'` failed to read or to write. -/
def Failed (w w' : World) : Prop :=
  ∃ k c, w.calls.length ≤ k ∧ w'.calls.reverse[k]? = some c ∧ Failing (w.env k c) c

/-- Calls that change no file but `t`. -/
structure Moves (t : Ino) (w w' : World) : Prop where
  env : w'.env = w.env
  calls : w.calls <:+ w'.calls
  sub : Sub w.fs w'.fs
  node : ∀ j, j ≠ t → w'.fs.node j = w.fs.node j

instance (t : Ino) : Std.Refl (Moves t) :=
  ⟨fun _ => ⟨rfl, List.suffix_refl _, Sub.refl _, fun _ _ => rfl⟩⟩

instance (t : Ino) : IsTrans World (Moves t) :=
  ⟨fun _ _ _ h h' => ⟨h'.env.trans h.env, h.calls.trans h'.calls, h.sub.trans h'.sub,
    fun j hj => (h'.node j hj).trans (h.node j hj)⟩⟩

section Failed

variable {w w₁ w' : World} {t : Ino} {c : Call}

/-- A failing call is one of those before or after. -/
theorem Failed.split (h : Failed w w') (henv : w₁.env = w.env) (hcalls : w₁.calls <:+ w'.calls) :
    Failed w w₁ ∨ Failed w₁ w' := by
  obtain ⟨k, c, hk, hc, hfail⟩ := h
  obtain ⟨T, hT⟩ := hcalls
  by_cases hlt : k < w₁.calls.length
  · refine .inl ⟨k, c, hk, ?_, hfail⟩
    rw [← hT, List.reverse_append, List.getElem?_append_left (by rwa [List.length_reverse])] at hc
    exact hc
  · rw [← henv] at hfail
    exact .inr ⟨k, c, Nat.le_of_not_lt hlt, hc, hfail⟩

/-- One call failed. -/
theorem Failed.of_cons (h : Failed w w') (hcalls : w'.calls = c :: w.calls) :
    Failing (w.env w.calls.length c) c := by
  obtain ⟨k, c', hk, hc, hfail⟩ := h
  rw [hcalls, List.reverse_cons, List.getElem?_append_right (by rwa [List.length_reverse]),
    List.length_reverse] at hc
  obtain ⟨hlt, hget⟩ := List.getElem?_eq_some_iff.1 hc
  rw [List.length_singleton] at hlt
  obtain rfl : k = w.calls.length := by omega
  rw [List.getElem_singleton] at hget
  rw [hget]
  exact hfail

/-- Calls that read nothing and write nothing. -/
theorem not_failed_of_others {T : List Call} (hcalls : w'.calls = T ++ w.calls)
    (hT : ∀ c ∈ T, ¬Transfer c) : ¬Failed w w' := by
  rintro ⟨k, c, hk, hc, hfail⟩
  rw [hcalls, List.reverse_append, List.getElem?_append_right (by rwa [List.length_reverse])] at hc
  have hno := hT c (List.mem_reverse.1 (List.mem_of_getElem? hc))
  cases c with
  | read => exact hno (.inl rfl)
  | write => exact hno (.inr rfl)
  | _ => exact hfail

theorem not_failed_self : ¬Failed w w :=
  not_failed_of_others (T := []) rfl fun _ h => absurd h List.not_mem_nil

end Failed

/-- A call that only looks is noted. -/
theorem runs_look_noted {α : Type} {c : Call} {f : Outcome → Fs → Except Errno α}
    {r : Except Errno α} {w w' : World} (h : Runs (look c f) w r w') :
    w'.env = w.env ∧ w'.calls = c :: w.calls ∧ w'.fs = w.fs := by
  obtain ⟨henv, hcalls, -⟩ := runs_sys h
  exact ⟨henv, hcalls, (runs_look h).1⟩

theorem runs_change_noted {c : Call} {f : Outcome → Fs → Except Errno Fs} {r : Except Errno Unit}
    {w w' : World} (h : Runs (change c f) w r w') : w'.calls = c :: w.calls := by
  obtain ⟨-, hcalls, -⟩ := runs_sys h
  exact hcalls

/-! ### The loops leave the rest as it is -/

section Loops

variable {w w₁ w' : World} {s t : Ino} {fuel pos off mode perm : ℕ} {buf data front : List UInt8}

theorem moves_look {α : Type} {c : Call} {f : Outcome → Fs → Except Errno α} :
    Keeps (Moves t) (look c f) := by
  intro w r w' h
  obtain ⟨henv, hcalls, hfs⟩ := runs_look_noted h
  refine ⟨henv, hcalls ▸ List.suffix_cons _ _, ?_, fun j _ => by rw [hfs]⟩
  rw [hfs]
  exact Sub.refl _

theorem moves_write (t : Ino) (pos : ℕ) (buf : List UInt8) : Keeps (Moves t) (write t pos buf) := by
  intro w r w' h
  obtain ⟨henv, hcalls, ⟨e, -, hfs, -⟩ | ⟨o, a, hok, -⟩⟩ := runs_sys h
  · refine ⟨henv, hcalls ▸ List.suffix_cons _ _, ?_, fun j _ => by rw [hfs]⟩
    rw [hfs]
    exact Sub.refl _
  · obtain ⟨mode, data, -, -, hfs⟩ := Fs.write_eq_ok hok
    refine ⟨henv, hcalls ▸ List.suffix_cons _ _, ?_, fun j hj => ?_⟩
    · rw [hfs]
      exact sub_alter _ _ _
    · rw [hfs]
      exact Nodes.alter_of_ne hj

theorem moves_writeLoop (t : Ino) (pos : ℕ) (buf : List UInt8) (fuel off : ℕ) :
    Keeps (Moves t) (writeLoop t pos buf fuel off) :=
  keeps_writeLoop (moves_write t) pos buf fuel off

theorem moves_copyLoop (s t : Ino) (fuel pos : ℕ) : Keeps (Moves t) (copyLoop s t fuel pos) :=
  keeps_copyLoop (fun _ => moves_look) (moves_write t) fuel pos

/-! ### What the loops have written -/

theorem writeAt_append (front bytes : List UInt8) :
    writeAt front front.length bytes = front ++ bytes := by
  rw [writeAt, Nat.sub_self, List.replicate_zero, List.append_nil, List.take_length,
    List.drop_eq_nil_of_le (Nat.le_add_right _ _), List.append_nil]

/-- One `write` at the end of the file: what it took of the buffer, at most all of it. -/
theorem runs_write_ok {n : ℕ} (h : Runs (write t front.length buf) w (.ok n) w')
    (ht : w.fs.node t = some (.reg perm front)) :
    n ≤ buf.length ∧ w'.fs.node t = some (.reg perm (front ++ buf.take n)) ∧
      (n ≠ 0 → ¬Failed w w') := by
  obtain ⟨-, hcalls, ⟨e, -, hbad, -⟩ | ⟨hfault, ⟨e, -, hbad, -⟩ | ⟨a, hok, hr⟩⟩⟩ :=
    runs_sys_outcome h
  · exact absurd hbad nofun
  · exact absurd hbad nofun
  · obtain rfl := Except.ok.inj hr
    obtain ⟨perm', front', ht', hn, hfs⟩ := Fs.write_eq_ok hok
    obtain ⟨rfl, rfl⟩ := Node.reg.inj (Option.some.inj (ht.symm.trans ht'))
    have hle : n ≤ buf.length := hn ▸ List.length_take_le' _ _
    have htake : buf.take n = buf.take (w.env w.calls.length .write).count := by
      rw [hn, List.length_take, ← List.take_eq_take_min]
    refine ⟨hle, ?_, fun hne hfailed => ?_⟩
    · rw [hfs, ← htake]
      show (w.fs.node.alter t (Node.setData _)) t = _
      rw [Nodes.alter, if_pos rfl, ht, writeAt_append]
      rfl
    · rcases hfailed.of_cons hcalls with hsome | hzero
      · rw [hfault] at hsome
        exact Bool.false_ne_true hsome
      · rw [hn, hzero, List.take_zero] at hne
        exact hne rfl

/-- One `read`: it took something, unless there was nothing left. -/
theorem runs_read_ok (h : Runs (read s pos copyBufsz) w (.ok buf) w')
    (hs : w.fs.node s = some (.reg mode data)) :
    (∃ k, 0 < k ∧ buf = (data.drop pos).take k) ∧ w'.fs = w.fs ∧ ¬Failed w w' := by
  unfold Vfs.read look at h
  obtain ⟨-, hcalls, ⟨e, -, hbad, -⟩ | ⟨hfault, ⟨e, -, hbad, -⟩ | ⟨a, hok, hr⟩⟩⟩ :=
    runs_sys_outcome h
  · exact absurd hbad nofun
  · exact absurd hbad nofun
  · obtain rfl := Except.ok.inj hr
    dsimp only at hok
    rw [hs] at hok
    have hsize : 0 < copyBufsz := by decide
    obtain ⟨hbuf, hfs⟩ := Prod.mk.inj (Except.ok.inj hok)
    refine ⟨⟨_, ?_, hbuf.symm⟩, hfs.symm, fun hfailed => ?_⟩
    · omega
    · have hsome : (w.env w.calls.length .read).fault.isSome := hfailed.of_cons hcalls
      rw [hfault] at hsome
      exact Bool.false_ne_true hsome

/-- **The loop that writes** a piece after what is there. -/
theorem writeLoop_data (h : Runs (writeLoop t front.length buf fuel off) w (.ok ()) w')
    (ht : w.fs.node t = some (.reg perm (front ++ buf.take off))) (hoff : off ≤ buf.length) :
    w'.fs.node t = some (.reg perm (front ++ buf)) ∧ ¬Failed w w' := by
  induction fuel generalizing off w with
  | zero => exact absurd h not_runs_diverge
  | succ fuel ih =>
    rw [writeLoop] at h
    split_ifs at h with hlt
    · rcases runs_bind.1 h with ⟨e, -, hbad⟩ | ⟨n, w₁, hwrite, h⟩
      · exact absurd hbad (ok_ne_error _ _)
      · split_ifs at h with hzero
        · exact absurd (runs_throw.1 h).1 (ok_ne_error _ _)
        · have hlen : (front ++ buf.take off).length = front.length + off := by
            rw [List.length_append, List.length_take_of_le hoff]
          have hmoves := moves_write t (front.length + off) (buf.drop off) _ _ _ hwrite
          rw [← hlen] at hwrite
          obtain ⟨hn, ht₁, hfine⟩ := runs_write_ok hwrite ht
          rw [List.append_assoc, ← List.take_add] at ht₁
          rw [List.length_drop] at hn
          obtain ⟨ht', hrest⟩ := ih h ht₁ (by omega)
          refine ⟨ht', fun hfailed => ?_⟩
          rcases hfailed.split hmoves.env (moves_writeLoop _ _ _ _ _ _ _ _ h).calls with hf | hf
          · exact hfine hzero hf
          · exact hrest hf
    · obtain ⟨-, rfl⟩ := runs_pure.1 h
      rw [List.take_of_length_le (by omega)] at ht
      exact ⟨ht, not_failed_self⟩

/-- **The loop that reads and writes.**  Where it ends without an error, the destination has the
bytes of the source, and no call failed. -/
theorem copyLoop_data (h : Runs (copyLoop s t fuel pos) w (.ok ()) w') (hne : s ≠ t)
    (hs : w.fs.node s = some (.reg mode data))
    (ht : w.fs.node t = some (.reg perm (data.take pos))) (hpos : pos ≤ data.length) :
    w'.fs.node t = some (.reg perm data) ∧ ¬Failed w w' := by
  induction fuel generalizing pos w with
  | zero => exact absurd h not_runs_diverge
  | succ fuel ih =>
    rw [copyLoop] at h
    rcases runs_bind.1 h with ⟨e, -, hbad⟩ | ⟨buf, w₁, hread, h⟩
    · exact absurd hbad (ok_ne_error _ _)
    obtain ⟨⟨k, hk, hbuf⟩, hfs₁, hfine⟩ := runs_read_ok hread hs
    have hmoves₁ : Moves t w w₁ := moves_look _ _ _ hread
    split_ifs at h with hnil
    · -- the end of the source
      obtain ⟨-, rfl⟩ := runs_pure.1 h
      have hend : data.length ≤ pos := by
        have hlen := congrArg List.length (hbuf.symm.trans hnil)
        rw [List.length_take, List.length_drop, List.length_nil] at hlen
        omega
      rw [hfs₁]
      rw [List.take_of_length_le hend] at ht
      exact ⟨ht, hfine⟩
    · rcases runs_bind.1 h with ⟨e, -, hbad⟩ | ⟨u, w₂, hwrite, h⟩
      · exact absurd hbad (ok_ne_error _ _)
      have hfront : (data.take pos).length = pos := List.length_take_of_le hpos
      have hmoves₂ := moves_writeLoop t pos buf fuel 0 _ _ _ hwrite
      have hle : buf.length ≤ data.length - pos := by
        rw [hbuf, List.length_take, List.length_drop]
        exact Nat.min_le_right _ _
      have hpiece : data.take pos ++ buf = data.take (pos + buf.length) := by
        rw [List.take_add, hbuf, List.length_take, ← List.take_eq_take_min]
      rw [← hfront] at hwrite
      obtain ⟨ht₂, hfine₂⟩ := writeLoop_data hwrite
        (by rw [hfs₁, ht, List.take_zero, List.append_nil]) (Nat.zero_le _)
      rw [hpiece] at ht₂
      have hs₂ : w₂.fs.node s = some (.reg mode data) := by
        rw [hmoves₂.node s hne, hfs₁, hs]
      obtain ⟨ht', hrest⟩ := ih h hs₂ ht₂ (by omega)
      refine ⟨ht', fun hfailed => ?_⟩
      have hmoves₃ := moves_copyLoop s t fuel (pos + buf.length) _ _ _ h
      rcases hfailed.split hmoves₁.env (hmoves₂.calls.trans hmoves₃.calls) with hf | hf
      · exact hfine hf
      · rcases hf.split hmoves₂.env hmoves₃.calls with hf | hf
        · exact hfine₂ hf
        · exact hrest hf

/-! ### The loops end -/

theorem exists_writeLoop_settles (t : Ino) (pos : ℕ) (buf : List UInt8) (off : ℕ) (w : World) :
    ∃ r w', Settles (fun n => writeLoop t pos buf n off) w r w' := by
  induction hk : buf.length - off using Nat.strongRecOn generalizing off w with
  | ind k ih =>
    by_cases hlt : off < buf.length
    · obtain ⟨r, w₁, hwrite⟩ : ∃ r w₁, Runs (write t (pos + off) (buf.drop off)) w r w₁ :=
        exists_runs_sys _ _ w
      cases r with
      | error e =>
        refine ⟨.error e, w₁, .of_succ fun n => ?_⟩
        rw [writeLoop, if_pos hlt]
        exact runs_bind.2 (.inl ⟨e, hwrite, rfl⟩)
      | ok a =>
        by_cases hzero : a = 0
        · refine ⟨.error .eio, w₁, .of_succ fun n => ?_⟩
          rw [writeLoop, if_pos hlt]
          refine runs_bind.2 (.inr ⟨a, w₁, hwrite, ?_⟩)
          rw [if_pos hzero]
          exact runs_throw.2 ⟨rfl, rfl⟩
        · obtain ⟨r, w', hrest⟩ := ih _ (by omega) (off + a) w₁ rfl
          refine ⟨r, w', hrest.succ fun n hn => ?_⟩
          rw [writeLoop, if_pos hlt]
          refine runs_bind.2 (.inr ⟨a, w₁, hwrite, ?_⟩)
          rw [if_neg hzero]
          exact hn
    · refine ⟨.ok (), w, .of_succ fun n => ?_⟩
      rw [writeLoop, if_neg hlt]
      exact runs_pure.2 ⟨rfl, rfl⟩

theorem exists_copyLoop_settles {pos : ℕ} {w : World} (hne : s ≠ t)
    (hs : w.fs.node s = some (.reg mode data)) :
    ∃ r w', Settles (fun n => copyLoop s t n pos) w r w' := by
  induction hk : data.length - pos using Nat.strongRecOn generalizing pos w with
  | ind k ih =>
    obtain ⟨r, w₁, hread⟩ : ∃ r w₁, Runs (Vfs.read s pos copyBufsz) w r w₁ :=
      exists_runs_look _ _ w
    cases r with
    | error e =>
      refine ⟨.error e, w₁, .of_succ fun n => ?_⟩
      rw [copyLoop]
      exact runs_bind.2 (.inl ⟨e, hread, rfl⟩)
    | ok buf =>
      obtain ⟨⟨k', hk', hbuf⟩, hfs₁, -⟩ := runs_read_ok hread hs
      by_cases hnil : buf = []
      · refine ⟨.ok (), w₁, .of_succ fun n => ?_⟩
        rw [copyLoop]
        refine runs_bind.2 (.inr ⟨buf, w₁, hread, ?_⟩)
        rw [if_pos hnil]
        exact runs_pure.2 ⟨rfl, rfl⟩
      · have hpos := List.length_pos_iff.2 hnil
        have hle : buf.length ≤ data.length - pos := by
          rw [hbuf, List.length_take, List.length_drop]
          exact Nat.min_le_right _ _
        obtain ⟨r₁, w₂, hwrite⟩ := exists_writeLoop_settles t pos buf 0 w₁
        -- what a turn of the loop does after its `read`
        have hturn : ∀ {r w'}, Settles (fun n => writeLoop t pos buf n 0 >>= fun _ =>
            copyLoop s t n (pos + buf.length)) w₁ r w' →
              ∃ r w', Settles (fun n => copyLoop s t n pos) w r w' := by
          intro r w' h
          refine ⟨r, w', h.succ fun n hn => ?_⟩
          rw [copyLoop]
          refine runs_bind.2 (.inr ⟨buf, w₁, hread, ?_⟩)
          rw [if_neg hnil]
          exact hn
        cases r₁ with
        | error e => exact hturn hwrite.bind_error
        | ok u =>
          obtain ⟨N, hN⟩ := hwrite.exists_runs
          have hs₂ : w₂.fs.node s = some (.reg mode data) := by
            rw [(moves_writeLoop t pos buf N 0 _ _ _ hN).node s hne, hfs₁, hs]
          obtain ⟨r, w', hrest⟩ :=
            ih (data.length - (pos + buf.length)) (by omega) hs₂ rfl
          exact hturn (hwrite.bind hrest)

end Loops

/-! ### The whole function -/

/-- Both files have been opened, after a `lstat` of the destination. -/
structure Opened (src dst : Path) (w : World) (s t : Ino) (w₁ : World) : Prop where
  env : w₁.env = w.env
  calls : w₁.calls = .openWrite dst :: .openRead src :: .lstat dst :: w.calls
  read : ∃ x, w.fs.get true src = .ok (s, x)
  write : ∃ k mode, w.fs.openWrite k mode dst = .ok (t, w₁.fs)

/-- What is done after the loop, which ended with `x`: both descriptors are closed, and where
the loop failed its error is returned. -/
structure Closes (dst : Path) (mode : ℕ) (s t : Ino) (w₂ : World) (x r : Except Errno Unit)
    (w₃ w' : World) : Prop where
  env : w₃.env = w₂.env
  fs : w₃.fs = w₂.fs
  calls : w₃.calls = .close s :: .close t :: w₂.calls
  failed : ∀ e, x = .error e → r = .error e ∧ w' = w₃
  done : x = .ok () → Runs (chmod dst mode) w₃ r w'

section Regular

variable {w w₁ w' : World} {s t : Ino} {fuel mode : ℕ} {src dst : Path} {st : Stat}
  {data : List UInt8} {r : Except Errno Unit}

theorem exists_of_map_fst {x : Except Errno (Ino × Node)} (h : x.map Prod.fst = .ok s) :
    ∃ y, x = .ok (s, y) := by
  cases x with
  | error e => exact absurd h nofun
  | ok p => exact ⟨p.2, congrArg Except.ok (Prod.ext (Except.ok.inj h) rfl)⟩

/-- The ways through `fsutil_copy_regular`. -/
theorem runs_copyRegular (h : Runs (copyRegular fuel src dst st) w r w') :
    ((∃ e, r = .error e) ∧ ∃ T, w'.calls = T ++ w.calls ∧ ∀ c ∈ T, ¬Transfer c) ∨
      ∃ s t w₁ x w₂ w₃, Opened src dst w s t w₁ ∧ Runs (copyLoop s t fuel 0) w₁ x w₂ ∧
        Closes dst st.perm s t w₂ x r w₃ w' := by
  rw [copyRegular, copyRegularVia, systemCalls_openRead, systemCalls_openWrite] at h
  obtain ⟨dstSt, wa, hlstat, h⟩ := runs_attempt_bind.1 h
  obtain ⟨henva, hcallsa, hfsa⟩ := runs_look_noted hlstat
  split_ifs at h
  · obtain ⟨rfl, rfl⟩ := runs_throw.1 h
    exact .inl ⟨⟨_, rfl⟩, [_], hcallsa, by simp [Transfer]⟩
  · rcases runs_bind.1 h with ⟨e, hopen, rfl⟩ | ⟨s, wb, hopen, h⟩
    · obtain ⟨-, hcallsb, -⟩ := runs_look_noted hopen
      exact .inl ⟨⟨e, rfl⟩, [_, _], by rw [hcallsb, hcallsa]; rfl, by simp [Transfer]⟩
    obtain ⟨henvb, hcallsb, hfsb⟩ := runs_look_noted hopen
    obtain ⟨-, ⟨e, hbad, -⟩ | ⟨o, s', hsrc, hs'⟩⟩ := runs_look hopen
    · exact absurd hbad nofun
    obtain rfl := Except.ok.inj hs'
    obtain ⟨y, wc, hcreate, h⟩ := runs_attempt_bind.1 h
    obtain ⟨henvc, hcallsc, hcases⟩ := runs_sys hcreate
    cases y with
    | error e =>
      obtain ⟨z, wd, hclose, h⟩ := runs_attempt_bind.1 h
      obtain ⟨-, hcallsd, -⟩ := runs_look_noted hclose
      obtain ⟨rfl, rfl⟩ := runs_throw.1 h
      refine .inl ⟨⟨e, rfl⟩, [.close s, .openWrite dst, .openRead src, .lstat dst], ?_, ?_⟩
      · rw [hcallsd, hcallsc, hcallsb, hcallsa]
        rfl
      · simp [Transfer]
    | ok t =>
      obtain ⟨x, w₂, hloop, h⟩ := runs_attempt_bind.1 h
      obtain ⟨z, wd, hclose, h⟩ := runs_attempt_bind.1 h
      obtain ⟨z', w₃, hclose', h⟩ := runs_attempt_bind.1 h
      obtain ⟨henvd, hcallsd, hfsd⟩ := runs_look_noted hclose
      obtain ⟨henv₃, hcalls₃, hfs₃⟩ := runs_look_noted hclose'
      refine .inr ⟨s, t, wc, x, w₂, w₃, ⟨?_, ?_, ?_, ?_⟩, hloop, ⟨?_, ?_, ?_, ?_, ?_⟩⟩
      · rw [henvc, henvb, henva]
      · rw [hcallsc, hcallsb, hcallsa]
      · rw [hfsa] at hsrc
        exact exists_of_map_fst hsrc
      · rcases hcases with ⟨e, hbad, -⟩ | ⟨o, t', hok, ht⟩
        · exact absurd hbad nofun
        · obtain rfl := Except.ok.inj ht
          rw [hfsb, hfsa] at hok
          exact ⟨_, _, hok⟩
      · rw [henv₃, henvd]
      · rw [hfs₃, hfsd]
      · rw [hcalls₃, hcallsd]
      · rintro e rfl
        exact runs_throw.1 h
      · rintro rfl
        exact h

/-- One computation after another, where the second ends. -/
theorem exists_settles_bind {α β : Type} {m : Prog α} {g : ℕ → α → Prog β} {a : α}
    (hm : Runs m w (.ok a) w₁) (hg : ∃ r w', Settles (fun n => g n a) w₁ r w') :
    ∃ r w', Settles (fun n => m >>= g n) w r w' := by
  obtain ⟨r, w', h⟩ := hg
  exact ⟨r, w', (Settles.of_runs hm).bind h⟩

theorem exists_settles_attempt {α β : Type} {f : ℕ → Prog α} {g : ℕ → Except Errno α → Prog β}
    {x : Except Errno α} (hf : Settles f w x w₁) (hg : ∃ r w', Settles (fun n => g n x) w₁ r w') :
    ∃ r w', Settles (fun n => attempt (f n) >>= g n) w r w' := by
  obtain ⟨r, w', h⟩ := hg
  exact ⟨r, w', hf.attempt.bind h⟩

/-- `fsutil_copy_regular` ends. -/
theorem exists_copyRegular_settles {x : Node} (hsrc : w.fs.get true src = .ok (s, x))
    (hs : w.fs.node s = some (.reg mode data)) (hother : w.fs.OtherFile s dst) :
    ∃ r w', Settles (fun n => copyRegular n src dst st) w r w' := by
  have hclose : ∀ (i : Ino) (w : World), ∃ r w', Runs (close i) w r w' := fun i w =>
    exists_runs_look _ _ w
  simp only [copyRegular, copyRegularVia, systemCalls_openRead, systemCalls_openWrite]
  obtain ⟨dstSt, wa, hlstat⟩ : ∃ r wa, Runs (lstat dst) w r wa := exists_runs_look _ _ w
  obtain ⟨-, -, hfsa⟩ := runs_look_noted hlstat
  refine exists_settles_attempt (.of_runs hlstat) ?_
  split_ifs
  · exact ⟨_, _, .of_runs (runs_throw.2 ⟨rfl, rfl⟩)⟩
  obtain ⟨y, wb, hopen⟩ : ∃ r wb, Runs (openRead src) wa r wb := exists_runs_look _ _ wa
  obtain ⟨-, -, hfsb⟩ := runs_look_noted hopen
  cases y with
  | error e => exact ⟨_, _, (Settles.of_runs hopen).bind_error⟩
  | ok s' =>
    obtain ⟨-, ⟨e, hbad, -⟩ | ⟨o, i, hsrc', hs'⟩⟩ := runs_look hopen
    · exact absurd hbad nofun
    obtain rfl := Except.ok.inj hs'
    rw [hfsa] at hsrc'
    obtain ⟨x', hx'⟩ := exists_of_map_fst hsrc'
    obtain ⟨rfl, -⟩ := Prod.mk.inj (Except.ok.inj (hsrc.symm.trans hx'))
    refine exists_settles_bind hopen ?_
    obtain ⟨z, wc, hcreate⟩ : ∃ r wc, Runs (openWrite dst) wb r wc := exists_runs_sys _ _ wb
    refine exists_settles_attempt (.of_runs hcreate) ?_
    cases z with
    | error e =>
      obtain ⟨z, wd, hd⟩ := hclose s wc
      refine exists_settles_attempt (.of_runs hd) ?_
      exact ⟨_, _, .of_runs (runs_throw.2 ⟨rfl, rfl⟩)⟩
    | ok t =>
      obtain ⟨-, -, ⟨e, hbad, -⟩ | ⟨o, t', hwrite, ht'⟩⟩ := runs_sys hcreate
      · exact absurd hbad nofun
      obtain rfl := Except.ok.inj ht'
      rw [hfsb, hfsa] at hwrite
      obtain ⟨hne, -, -, hs₁⟩ := Fs.openWrite_spec hwrite hother hs
      obtain ⟨x, w₂, hloop⟩ : ∃ x w₂, Settles (fun n => copyLoop s t n 0) wc x w₂ :=
        exists_copyLoop_settles hne.symm hs₁
      refine exists_settles_attempt hloop ?_
      obtain ⟨z, wd, hd⟩ := hclose t w₂
      refine exists_settles_attempt (.of_runs hd) ?_
      obtain ⟨z', w₃, h₃⟩ := hclose s wd
      refine exists_settles_attempt (.of_runs h₃) ?_
      cases x with
      | error e => exact ⟨_, _, .of_runs (runs_throw.2 ⟨rfl, rfl⟩)⟩
      | ok u =>
        obtain ⟨r, w', hchmod⟩ : ∃ r w', Runs (chmod dst st.perm) w₃ r w' :=
          exists_runs_change _ _ w₃
        exact ⟨r, w', .of_runs hchmod⟩

/-- What the copy of a file comes to: with the result 0 the destination is another file with the
bytes and the permission bits of the source, which is as it was; and where a call failed to read
or to write, the result is an error and both descriptors are closed. -/
structure CopiesFile (src dst : Path) (s : Ino) (mode : ℕ) (data : List UInt8) (w : World)
    (r : Except Errno Unit) (w' : World) : Prop where
  copied : r = .ok () → w'.fs.get true src = .ok (s, .reg mode data) ∧
    ∃ t, t ≠ s ∧ w'.fs.get true dst = .ok (t, .reg mode data)
  failed : Failed w w' → (∃ e, r = .error e) ∧
    ∃ t calls x, w'.calls = .close s :: .close t :: calls ∧ w'.fs.get true dst = .ok (t, x)

/-- A path leads to the same inode where there is more. -/
theorem get_of_sub {fs fs' : Fs} {path : Path} {x y : Node} (h : Sub fs fs')
    (hget : fs.get true path = .ok (s, x)) (hnode : fs'.node s = some y) :
    fs'.get true path = .ok (s, y) := by
  obtain ⟨z, hz⟩ := Fs.get_mono h hget
  obtain ⟨-, -, -, hz'⟩ := Fs.get_eq_ok.1 hz
  rw [hz, Option.some.inj (hz'.symm.trans hnode)]

/-- `chmod` sets the mode of what the path leads to, and nothing else. -/
theorem runs_chmod_ok {x : Node} (h : Runs (chmod dst mode) w (.ok ()) w')
    (hget : w.fs.get true dst = .ok (t, x)) :
    w'.fs.get true dst = .ok (t, x.setMode mode) ∧ Sub w.fs w'.fs ∧
      ∀ j, j ≠ t → w'.fs.node j = w.fs.node j := by
  obtain ⟨-, ⟨e, -, hbad, -⟩ | ⟨e, -, hbad, -⟩ | ⟨hok, -⟩⟩ := runs_change_outcome h
  · exact absurd hbad nofun
  · exact absurd hbad nofun
  · rw [hget] at hok
    obtain ⟨-, -, -, ht⟩ := Fs.get_eq_ok.1 hget
    have hfs := (Except.ok.inj hok).symm
    have hsub := sub_alter w.fs t (sameShape_setMode mode)
    rw [hfs]
    refine ⟨get_of_sub hsub hget ?_, hsub, fun j hj => Nodes.alter_of_ne hj⟩
    show (w.fs.node.alter t (Node.setMode mode)) t = _
    rw [Nodes.alter, if_pos rfl, ht]
    rfl

/-- **A copy that returned 0** has opened the destination, which has the bytes of the source
then; nothing else was changed after that. -/
theorem copyRegular_ok (h : Runs (copyRegular fuel src dst st) w (.ok ()) w')
    (hsrc : w.fs.get true src = .ok (s, .reg mode data)) (hother : w.fs.OtherFile s dst) :
    ∃ t k m fs₁, w.fs.openWrite k m dst = .ok (t, fs₁) ∧ t ≠ s ∧ Sub fs₁ w'.fs ∧
      w'.fs.get true dst = .ok (t, .reg st.perm data) ∧
      ∀ j, j ≠ t → w'.fs.node j = fs₁.node j := by
  obtain ⟨-, -, -, hs⟩ := Fs.get_eq_ok.1 hsrc
  rcases runs_copyRegular h with
    ⟨⟨e, hbad⟩, -⟩ | ⟨s', t, w₁, x, w₂, w₃, hopened, hloop, hcloses⟩
  · exact absurd hbad (ok_ne_error _ _)
  obtain ⟨y, hy⟩ := hopened.read
  obtain ⟨rfl, -⟩ := Prod.mk.inj (Except.ok.inj (hsrc.symm.trans hy))
  obtain ⟨k, m, hwrite⟩ := hopened.write
  obtain ⟨hne, -, ⟨perm, hget₁⟩, hs₁⟩ := Fs.openWrite_spec hwrite hother hs
  obtain ⟨-, -, -, ht₁⟩ := Fs.get_eq_ok.1 hget₁
  cases x with
  | error e => exact absurd (hcloses.failed e rfl).1 (ok_ne_error _ _)
  | ok u =>
    obtain ⟨ht₂, -⟩ := copyLoop_data hloop hne.symm hs₁ ht₁ (Nat.zero_le _)
    have hmoves := moves_copyLoop s t fuel 0 _ _ _ hloop
    have hget₃ : w₃.fs.get true dst = .ok (t, .reg perm data) := by
      rw [hcloses.fs]
      exact get_of_sub hmoves.sub hget₁ ht₂
    obtain ⟨hget', hsub', hnode'⟩ := runs_chmod_ok (hcloses.done rfl) hget₃
    rw [hcloses.fs] at hsub' hnode'
    refine ⟨t, k, m, w₁.fs, hwrite, hne, hmoves.sub.trans hsub', hget', fun j hj => ?_⟩
    rw [hnode' j hj, hmoves.node j hj]

/-- **`fsutil_copy_regular`**, for every source and destination that are different files, and
whatever the calls transfer or report: it ends, and it copies the file or says that it did not. -/
theorem copyRegular_copies (hsrc : w.fs.get true src = .ok (s, .reg mode data))
    (hother : w.fs.OtherFile s dst) : ∃ r w',
      Settles (fun n => copyRegular n src dst ⟨s, .reg, mode⟩) w r w' ∧
        CopiesFile src dst s mode data w r w' := by
  obtain ⟨-, -, -, hs⟩ := Fs.get_eq_ok.1 hsrc
  obtain ⟨r, w', hsettles⟩ : ∃ r w', Settles (fun n => copyRegular n src dst ⟨s, .reg, mode⟩) w r w' :=
    exists_copyRegular_settles hsrc hs hother
  refine ⟨r, w', hsettles, ?_⟩
  obtain ⟨n, hrun⟩ := hsettles.exists_runs
  refine ⟨fun hok => ?_, fun hfailed => ?_⟩
  · subst hok
    obtain ⟨t, k, m, fs₁, hwrite, hne, hsub, hget, hnode⟩ := copyRegular_ok hrun hsrc hother
    obtain ⟨-, hsub₁, -, hs₁⟩ := Fs.openWrite_spec hwrite hother hs
    exact ⟨get_of_sub (hsub₁.trans hsub) hsrc ((hnode s hne.symm).trans hs₁), t, hne, hget⟩
  rcases runs_copyRegular hrun with
    ⟨-, T, hcalls, hT⟩ | ⟨s', t, w₁, x, w₂, w₃, hopened, hloop, hcloses⟩
  · exact absurd hfailed (not_failed_of_others hcalls hT)
  · obtain ⟨y, hy⟩ := hopened.read
    obtain ⟨rfl, -⟩ := Prod.mk.inj (Except.ok.inj (hsrc.symm.trans hy))
    obtain ⟨k, m, hwrite⟩ := hopened.write
    obtain ⟨hne, -, ⟨perm, hget₁⟩, hs₁⟩ := Fs.openWrite_spec hwrite hother hs
    obtain ⟨-, -, -, ht₁⟩ := Fs.get_eq_ok.1 hget₁
    have hmoves := moves_copyLoop s t n 0 _ _ _ hloop
    obtain ⟨z, hget₂⟩ := Fs.get_mono hmoves.sub hget₁
    cases x with
    | error e =>
      obtain ⟨rfl, rfl⟩ := hcloses.failed e rfl
      refine ⟨⟨e, rfl⟩, t, _, z, hcloses.calls, ?_⟩
      rw [hcloses.fs]
      exact hget₂
    | ok u =>
      have hchmod := hcloses.done rfl
      obtain ⟨-, hfine⟩ := copyLoop_data hloop hne.symm hs₁ ht₁ (Nat.zero_le _)
      -- the other calls neither read nor write
      have hcalls' : w'.calls = [.chmod dst, .close s, .close t] ++ w₂.calls := by
        rw [runs_change_noted hchmod, hcloses.calls]
        rfl
      have hcalls₁ : w₁.calls = [.openWrite dst, .openRead src, .lstat dst] ++ w.calls :=
        hopened.calls
      have hlater : w₂.calls <:+ w'.calls := ⟨_, hcalls'.symm⟩
      rcases hfailed.split hopened.env (hmoves.calls.trans hlater) with hf | hf
      · exact absurd hf (not_failed_of_others hcalls₁ (by simp [Transfer]))
      · rcases hf.split hmoves.env hlater with hf | hf
        · exact absurd hf hfine
        · exact absurd hf (not_failed_of_others hcalls' (by simp [Transfer]))

/-! ### More fuel -/

theorem writeLoop_refines (t : Ino) (pos : ℕ) (buf : List UInt8) (n off : ℕ) :
    Refines (writeLoop t pos buf n off) (writeLoop t pos buf (n + 1) off) := by
  induction n generalizing off with
  | zero => exact fun _ _ _ h => absurd h not_runs_diverge
  | succ n ih =>
    rw [writeLoop, writeLoop]
    split_ifs
    · refine Refines.bind (Refines.refl _) fun k => ?_
      split_ifs
      · exact Refines.refl _
      · exact ih _
    · exact Refines.refl _

theorem copyLoop_refines (s t : Ino) (n pos : ℕ) :
    Refines (copyLoop s t n pos) (copyLoop s t (n + 1) pos) := by
  induction n generalizing pos with
  | zero => exact fun _ _ _ h => absurd h not_runs_diverge
  | succ n ih =>
    rw [copyLoop, copyLoop]
    refine Refines.bind (Refines.refl _) fun buf => ?_
    split_ifs
    · exact Refines.refl _
    · exact Refines.bind (writeLoop_refines _ _ _ _ _) fun _ => ih _

theorem copyRegular_refines (src dst : Path) (st : Stat) (n : ℕ) :
    Refines (copyRegular n src dst st) (copyRegular (n + 1) src dst st) := by
  rw [copyRegular, copyRegularVia, copyRegularVia]
  refine Refines.bind (Refines.refl _) fun dstSt => ?_
  split_ifs
  · exact Refines.refl _
  refine Refines.bind (Refines.refl _) fun sfd => Refines.bind (Refines.refl _) fun x => ?_
  cases x with
  | error e => exact Refines.refl _
  | ok dfd => exact Refines.bind (Refines.attempt (copyLoop_refines _ _ _ _)) fun _ => Refines.refl _

/-- The file `/d/f` has two bytes, and each call transfers one. -/
def bytesWorld : World where
  fs := smallFs.alter ⟨0, 2⟩ (Node.setData [120, 121]) (sameShape_setData _)
  env := smallWorld.env
  calls := []

/-- The two bytes of `/d/f` are copied to `/d/x`, which does not exist. -/
theorem copyRegular_copies_small : ∃ w',
    Settles (fun n => copyRegular n [47, 100, 47, 102] [47, 100, 47, 120] ⟨⟨0, 2⟩, .reg, 0o640⟩)
      bytesWorld (.ok ()) w' ∧
      CopiesFile [47, 100, 47, 102] [47, 100, 47, 120] ⟨0, 2⟩ 0o640 [120, 121] bytesWorld (.ok ())
        w' := by
  have hsrc : bytesWorld.fs.get true [47, 100, 47, 102] =
      .ok (⟨0, 2⟩, .reg 0o640 [120, 121]) := rfl
  have hmissing : bytesWorld.fs.find true [47, 100, 47, 120] =
      .ok (.entry ⟨0, 1⟩ ⟨[120], by decide, by decide⟩ none) := rfl
  have hother : bytesWorld.fs.OtherFile ⟨0, 2⟩ [47, 100, 47, 120] := by
    intro place j hfind hj
    rw [← Except.ok.inj (hmissing.symm.trans hfind)] at hj
    exact absurd hj nofun
  obtain ⟨r, w', hsettles, hcopies⟩ := copyRegular_copies hsrc hother
  have hends : endsWith (copyRegular 5 [47, 100, 47, 102] [47, 100, 47, 120]
      ⟨⟨0, 2⟩, .reg, 0o640⟩) (fun _ _ => true) bytesWorld = true := by decide +kernel
  obtain ⟨⟨⟩, w'', hrun, -⟩ := exists_of_endsWith hends
  obtain ⟨rfl, rfl⟩ := hsettles.unique (Settles.of_refines (copyRegular_refines _ _ _) hrun)
  exact ⟨_, hsettles, hcopies⟩

end Regular

end Fsutil
end V6User
