import Mathlib.Data.List.Destutter
import Mathlib.Data.List.DropRight
import V6User.Shell.Readline

/-!
# The history against the lines that were entered

`programs/sh/sh.c`: `history_add`, `history_prev` and `history_next` over all the calls of
`do_readline` of a shell.

`Entered` follows a shell from its start, with the lines that were entered so far and the keys
of the line that is being read.  The ring holds the last 32 of the lines that are `kept`, and
the arrow keys move in them: wherever they come to, the line is the one that stands there, and
past the newest it is empty (`history_follows_lines`).
-/

namespace V6User
namespace Shell

/-- The lines without the empty ones, and without those that repeat the one before. -/
def kept (lines : List CStr) : List CStr :=
  (lines.filter fun s => s.bytes ≠ []).destutter (· ≠ ·)

/-- A shell that has entered these lines, and has got these keys for the next one. -/
inductive Entered : List CStr → List Key → Prompt → Editor → Prop
  | start (p : Prompt) : Entered [] [] p (readlineStart p .initial)
  | key {lines : List CStr} {keys : List Key} {p : Prompt} {e e' : Editor}
    (h : Entered lines keys p e) (v : View) (k : Key)
    (hk : readlineKey p v lineBufSize e k = .more e') : Entered lines (keys ++ [k]) p e'
  | line {lines : List CStr} {keys : List Key} {p : Prompt} {e e' : Editor}
    (h : Entered lines keys p e) (v : View) (k : Key) {ret : ℕ} {stores : List (ℕ × Byte)}
    (hk : readlineKey p v lineBufSize e k = .line e' ret stores) (p' : Prompt) :
    Entered (lines ++ [CStr.ofBytes e.line.buf]) [] p' (readlineStart p' e')

/-- The place that a key leads to among `n` lines; the place `n` is past the newest. -/
def browse (n place : ℕ) : Key → ℕ
  | .up => place - 1
  | .down => min (place + 1) n
  | _ => place

/-- The arrow keys of the history. -/
def IsArrow (k : Key) : Prop := k = .up ∨ k = .down

/-- The line is the one at the place where the history is, or empty past the newest. -/
def ShowsPlace (e : Editor) : Prop :=
  e.line.buf.take e.line.len = ((e.history.entries[e.history.idx]?).getD .empty).bytes

/-- An arrow key goes to its place, and the line with it; at the ends both stay. -/
structure Arrow (e : Editor) (k : Key) (e' : Editor) : Prop where
  place : e'.history.idx = browse e.history.entries.length e.history.idx k
  entries : e'.history.entries = e.history.entries
  stays : e'.history.idx = e.history.idx →
    e'.line.buf = e.line.buf ∧ e'.line.len = e.line.len
  shows : e'.history.idx ≠ e.history.idx → ShowsPlace e'

/-! ### The lines that are kept -/

section Kept

variable {α : Type*} {R : α → α → Prop} [DecidableRel R] {a : α} {l : List α}

/-- An element at the end stays if it is related to the last one that did. -/
theorem destutter'_concat (b : α) : (l ++ [a]).destutter' R b =
    if R ((l.destutter' R b).getLast (List.destutter'_ne_nil l R)) a then l.destutter' R b ++ [a]
    else l.destutter' R b := by
  induction l generalizing b with
  | nil =>
    rw [List.nil_append, List.destutter'_singleton]
    rfl
  | cons c l ih =>
    rw [List.cons_append]
    by_cases hbc : R b c
    · simp only [List.destutter'_cons_pos _ hbc, ih,
        List.getLast_cons (List.destutter'_ne_nil l R)]
      split_ifs <;> rfl
    · simp only [List.destutter'_cons_neg _ hbc, ih]

theorem destutter_concat : (l ++ [a]).destutter R =
    if ∀ b ∈ (l.destutter R).getLast?, R b a then l.destutter R ++ [a] else l.destutter R := by
  cases l with
  | nil => simp
  | cons b l =>
    rw [List.cons_append, List.destutter_cons', List.destutter_cons', destutter'_concat,
      List.getLast?_eq_some_getLast (List.destutter'_ne_nil l R)]
    simp

/-- The last of the last elements. -/
theorem getLast?_rtake {n : ℕ} (hn : 0 < n) : (l.rtake n).getLast? = l.getLast? := by
  rw [List.rtake, List.getLast?_drop]
  split_ifs with hle
  · have hnil : l = [] := List.eq_nil_of_length_eq_zero (by omega)
    rw [hnil, List.getLast?_nil]
  · rfl

/-- The last elements of a longer list. -/
theorem rtake_concat {n : ℕ} (hn : 0 < n) :
    (l.rtake n ++ [a]).drop ((l.rtake n).length + 1 - n) = (l ++ [a]).rtake n := by
  rw [List.rtake, List.rtake, List.length_drop, List.length_append, List.length_singleton]
  by_cases hle : l.length < n
  · have hshort : l.length - n = 0 := by omega
    have hno : l.length - 0 + 1 - n = 0 := by omega
    have hno' : l.length + 1 - n = 0 := by omega
    rw [hshort, hno, hno', List.drop_zero, List.drop_zero, List.drop_zero]
  · have hone : l.length - (l.length - n) + 1 - n = 1 := by omega
    have hsucc : l.length + 1 - n = (l.length - n) + 1 := by omega
    have hdrop : (l ++ [a]).drop (l.length - n) = l.drop (l.length - n) ++ [a] :=
      List.drop_append_of_le_length (Nat.sub_le _ _)
    rw [hone, hsucc, ← List.drop_drop, hdrop]

end Kept

theorem kept_concat (lines : List CStr) (s : CStr) : kept (lines ++ [s]) =
    if s.bytes = [] ∨ (kept lines).getLast? = some s then kept lines else kept lines ++ [s] := by
  unfold kept
  rw [List.filter_append]
  by_cases hs : s.bytes = []
  · have hnone : [s].filter (fun s => s.bytes ≠ []) = [] := by simp [hs]
    rw [if_pos (.inl hs), hnone, List.append_nil]
  · have hone : [s].filter (fun s => s.bytes ≠ []) = [s] := by simp [hs]
    rw [hone, destutter_concat]
    generalize (List.filter (fun s => s.bytes ≠ []) lines).destutter (· ≠ ·) = k
    cases hlast : k.getLast? with
    | none => simp [hs]
    | some b =>
      by_cases hb : b = s
      · simp [hs, hb]
      · simp [hs, hb]

/-- **The ring's rule**, applied to the lines one after the other, leaves the last ones of those
that are kept. -/
theorem remember_kept {n : ℕ} (hn : 0 < n) (lines : List CStr) (s : CStr) :
    remember n ((kept lines).rtake n) s = (kept (lines ++ [s])).rtake n := by
  rw [remember, kept_concat, getLast?_rtake hn]
  split_ifs
  · rfl
  · exact rtake_concat hn

/-! ### The place among the lines -/

variable {lines : List CStr} {keys : List Key} {p : Prompt} {e e' : Editor} {r : Reference}
  {v : View} {k : Key}

theorem Reference.key_lines (v : View) (r : Reference) (k : Key) : (r.key v k).lines = r.lines := by
  have hprev : r.prev.lines = r.lines := by
    rw [Reference.prev]
    split
    · rfl
    · split <;> rfl
  have hnext : r.next.lines = r.lines := by
    rw [Reference.next]
    split
    · rfl
    · split_ifs <;> rfl
  rw [Reference.key]
  split <;> first | rfl | exact hprev | exact hnext

/-- The action of an arrow key that goes through the history. -/
def KeyAction.browses : KeyAction → Bool
  | .prev => true
  | .next => true
  | _ => false

theorem Key.browses_byte (c : Byte) : (Key.byte c).action.browses = false := by
  simp only [Key.action, apply_ite KeyAction.browses]
  simp only [KeyAction.browses, ite_self]

theorem Key.action_byte_ne (c : Byte) :
    (Key.byte c).action ≠ .prev ∧ (Key.byte c).action ≠ .next := by
  have hbrowses := Key.browses_byte c
  constructor <;>
    · intro h
      rw [h] at hbrowses
      exact absurd hbrowses (by decide)

/-- The arrow keys move the place by one, the other keys leave it. -/
theorem Reference.key_place (v : View) (r : Reference) (k : Key)
    (hr : r.place ≤ r.lines.length) :
    (r.key v k).place = browse r.lines.length r.place k := by
  cases k with
  | up =>
    show r.prev.place = r.place - 1
    rw [Reference.prev]
    rcases hplace : r.place with _ | i
    · exact hplace
    · have hlt : i < r.lines.length := by omega
      dsimp only
      rw [List.getElem?_eq_getElem hlt]
      rfl
  | down =>
    show r.next.place = min (r.place + 1) r.lines.length
    rw [Reference.next]
    by_cases hlt : r.place + 1 < r.lines.length
    · rw [List.getElem?_eq_getElem hlt]
      exact (Nat.min_eq_left hlt.le).symm
    · rw [List.getElem?_eq_none (Nat.not_lt.1 hlt), Nat.min_eq_right (Nat.not_lt.1 hlt)]
      dsimp only
      split_ifs with hlast
      · rfl
      · omega
  | byte c =>
    have hne := Key.action_byte_ne c
    rw [Reference.key]
    split
    case h_13 h => exact absurd h hne.1
    case h_14 h => exact absurd h hne.2
    all_goals rfl
  | left => rfl
  | right => rfl
  | home => rfl
  | toEnd => rfl
  | delete => rfl

/-- The shell's keys, with no condition on the bytes of prompts and names. -/
theorem Entered.session (h : Entered lines keys p e) : ∃ r, Session (fun _ => True) p e r ∧
    r.lines = (kept lines).rtake historySize ∧
    r.place = keys.foldl (browse r.lines.length) r.lines.length := by
  induction h with
  | start p => exact ⟨_, .start p fun _ _ => trivial, rfl, rfl⟩
  | key h v k hk ih =>
    obtain ⟨r, hs, hlines, hplace⟩ := ih
    have hf := session_follows hs
    have hle : r.place ≤ r.lines.length := by
      rw [← hf.place, ← hf.lines, History.length_entries hf.ok]
      exact hf.ok.idx_le
    refine ⟨_, hs.key v (fun _ _ _ _ _ _ _ => trivial) k hk, ?_, ?_⟩
    · rw [Reference.key_lines]
      exact hlines
    · rw [Reference.key_place v r k hle, Reference.key_lines, List.foldl_append, ← hplace]
      rfl
  | @line lines _ _ e _ h v k _ _ hk p' ih =>
    obtain ⟨r, hs, hlines, hplace⟩ := ih
    refine ⟨_, hs.line v k hk p' fun _ _ => trivial, ?_, rfl⟩
    show remember historySize r.lines (CStr.ofBytes r.sides.line) = _
    rw [hlines, ← (session_follows hs).edits.ofBytes_buf, remember_kept (by decide)]

/-! ### The line at the place -/

theorem ShowsPlace.readlineStart (hok : e.history.Ok) (p : Prompt) :
    ShowsPlace (readlineStart p e) := by
  have hnone : e.history.entries[e.history.count]? = none :=
    List.getElem?_eq_none (History.length_entries hok).le
  show _ = ((e.history.entries[e.history.count]?).getD .empty).bytes
  rw [hnone]
  rfl

/-- A line of the history, or the empty one, in the buffer. -/
theorem ShowsPlace.lineSet (h : Follows e r) {s : CStr} {i : ℕ}
    (hs : s.bytes.take (lineBufSize - 1) = s.bytes)
    (hi : (e.history.entries[i]?).getD .empty = s) :
    ShowsPlace ⟨lineSet e.line s, { e.history with idx := i }⟩ := by
  have hline := (h.edits.lineSet s).line
  rw [hs, TwoSided.line_ofLine] at hline
  show (Shell.lineSet e.line s).buf.take (Shell.lineSet e.line s).len =
    ((e.history.entries[i]?).getD .empty).bytes
  rw [hline, hi]

theorem Follows.arrow_up (h : Follows e r) :
    Arrow e .up ⟨(historyPrev e.history e.line).2, (historyPrev e.history e.line).1⟩ := by
  have hlen := History.length_entries h.ok
  have hle := h.ok.idx_le
  rw [historyPrev]
  by_cases hend : e.history.count = 0 ∨ e.history.idx = 0
  · rw [if_pos hend]
    refine ⟨?_, rfl, fun _ => ⟨rfl, rfl⟩, fun hne => absurd rfl hne⟩
    show e.history.idx = e.history.idx - 1
    omega
  · have hlt : e.history.idx - 1 < e.history.count := by omega
    have hentry := History.getElem?_entries hlt h.ok.count_le
    rw [if_neg hend]
    refine ⟨rfl, rfl, fun hsame => ?_, fun _ => ?_⟩
    · have hsame : e.history.idx - 1 = e.history.idx := hsame
      omega
    · exact ShowsPlace.lineSet h (e.history.take_slot _) (by rw [hentry]; rfl)

theorem Follows.arrow_down (h : Follows e r) :
    Arrow e .down ⟨(historyNext e.history e.line).2, (historyNext e.history e.line).1⟩ := by
  have hlen := History.length_entries h.ok
  have hle := h.ok.idx_le
  rw [historyNext]
  by_cases hlt : e.history.idx + 1 < e.history.count
  · have hentry := History.getElem?_entries hlt h.ok.count_le
    rw [if_pos hlt]
    refine ⟨?_, rfl, fun hsame => ?_, fun _ => ?_⟩
    · show e.history.idx + 1 = min (e.history.idx + 1) e.history.entries.length
      omega
    · exact absurd hsame (Nat.succ_ne_self _)
    · exact ShowsPlace.lineSet h (e.history.take_slot _) (by rw [hentry]; rfl)
  · rw [if_neg hlt]
    by_cases hlast : e.history.idx + 1 = e.history.count
    · have hnone : e.history.entries[e.history.count]? = none := List.getElem?_eq_none hlen.le
      rw [if_pos hlast]
      refine ⟨?_, rfl, fun hsame => ?_, fun _ => ?_⟩
      · show e.history.count = min (e.history.idx + 1) e.history.entries.length
        omega
      · have hsame : e.history.count = e.history.idx := hsame
        omega
      · exact ShowsPlace.lineSet h rfl (by rw [hnone]; rfl)
    · rw [if_neg hlast]
      refine ⟨?_, rfl, fun _ => ⟨rfl, rfl⟩, fun hne => absurd rfl hne⟩
      show e.history.idx = min (e.history.idx + 1) e.history.entries.length
      omega

/-- **One arrow key.** -/
theorem Follows.arrow (h : Follows e r) (p : Prompt) (v : View) (hk : IsArrow k) :
    ∃ e', readlineKey p v lineBufSize e k = .more e' ∧ Arrow e k e' := by
  rcases hk with rfl | rfl
  · exact ⟨_, rfl, h.arrow_up⟩
  · exact ⟨_, rfl, h.arrow_down⟩

theorem Arrow.showsPlace (h : Arrow e k e') (he : ShowsPlace e) : ShowsPlace e' := by
  by_cases hsame : e'.history.idx = e.history.idx
  · obtain ⟨hbuf, hlen⟩ := h.stays hsame
    rw [ShowsPlace, hbuf, hlen, h.entries, hsame]
    exact he
  · exact h.shows hsame

theorem Entered.follows (h : Entered lines keys p e) : ∃ r, Follows e r := by
  obtain ⟨r, hs, -, -⟩ := h.session
  exact ⟨r, session_follows hs⟩

/-- With the arrow keys alone the line is always the one at the place. -/
theorem Entered.showsPlace (h : Entered lines keys p e) (hkeys : ∀ k ∈ keys, IsArrow k) :
    ShowsPlace e := by
  induction h with
  | start p => exact ShowsPlace.readlineStart History.ok_initial p
  | key h v k hk ih =>
    obtain ⟨r, hf⟩ := h.follows
    obtain ⟨hkeys, harrow⟩ := List.forall_mem_append.1 hkeys
    obtain ⟨e₁, hk₁, ha⟩ := hf.arrow _ v (harrow k (List.mem_singleton_self k))
    obtain rfl := KeyOutcome.more.inj (hk.symm.trans hk₁)
    exact ha.showsPlace (ih hkeys)
  | line h v k hk p' ih =>
    obtain ⟨r, hf⟩ := (h.line v k hk p').follows
    exact ShowsPlace.readlineStart (e := _) hf.ok p'

/-- **The history is the lines that were entered.**  Whatever was typed, the ring holds the last
of the lines that are kept; the place in it is where the keys of this line lead; and an arrow
key brings the line of its place, the empty one past the newest. -/
theorem history_follows_lines (h : Entered lines keys p e) :
    e.history.entries = (kept lines).rtake historySize ∧
    e.history.idx = keys.foldl (browse e.history.entries.length) e.history.entries.length ∧
    ((∀ k ∈ keys, IsArrow k) → ShowsPlace e) ∧
    ∀ v k, IsArrow k → ∃ e', readlineKey p v lineBufSize e k = .more e' ∧ Arrow e k e' := by
  obtain ⟨r, hs, hlines, hplace⟩ := h.session
  have hf := session_follows hs
  refine ⟨hf.lines.trans hlines, ?_, h.showsPlace, fun v k => hf.arrow p v⟩
  rw [hf.lines, hf.place]
  exact hplace

theorem history_follows_lines_recalled : ∃ s e, Entered [s] [.up] plainPrompt e ∧ ShowsPlace e :=
  have hline := ((Entered.start plainPrompt).key emptyView (.byte 97) rfl).line emptyView
    (.byte 13) rfl plainPrompt
  have hup := hline.key emptyView .up rfl
  ⟨_, _, hup, (history_follows_lines hup).2.2.1 (List.forall_mem_singleton.2 (.inl rfl))⟩

end Shell
end V6User
