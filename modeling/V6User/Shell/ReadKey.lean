import V6User.Shell.Readline

/-!
# Keys and escape sequences

`programs/sh/sh.c`: `read_key` on the bytes that `read_char` gives, and the loop of
`do_readline` around it.

`read_key` takes at most two bytes after `ESC [`, the second only after `1`, `3`, `4`, `7` or
`8`.  What else belongs to a sequence stays in the input, and each of its bytes is a key of its
own: `readKeys_stream` says which.  So every sequence is consumed as a whole exactly where those
that begin with `ESC [` have no parameter, or one of these digits alone, and no intermediate
byte (`stream_ok_iff`).
-/

namespace V6User
namespace Shell

/-- `0x1b`. -/
abbrev escape : Byte := 27

/-- `if (read_char() == '~') return k; break;` and the `return 0x1b` after it. -/
def tildeKey (k : Key) : List Byte → Key × List Byte
  | [] => (.byte escape, [])
  | c :: s => (if c = 126 then k else .byte escape, s)

/-- `read_key` after `ESC [`. -/
def bracketKey : List Byte → Key × List Byte
  | [] => (.byte escape, [])
  | c2 :: s =>
    if c2 = 65 then (.up, s)
    else if c2 = 66 then (.down, s)
    else if c2 = 67 then (.right, s)
    else if c2 = 68 then (.left, s)
    else if c2 = 72 then (.home, s)
    else if c2 = 70 then (.toEnd, s)
    else if c2 = 51 then tildeKey .delete s
    else if c2 = 49 ∨ c2 = 55 then tildeKey .home s
    else if c2 = 52 ∨ c2 = 56 then tildeKey .toEnd s
    else (.byte escape, s)

/-- `read_key` after `ESC O`. -/
def letterKey : List Byte → Key × List Byte
  | [] => (.byte escape, [])
  | c2 :: s =>
    (if c2 = 65 then .up
      else if c2 = 66 then .down
      else if c2 = 67 then .right
      else if c2 = 68 then .left
      else if c2 = 72 then .home
      else if c2 = 70 then .toEnd
      else .byte escape, s)

/-- `read_key` after `ESC`. -/
def escapeKey : List Byte → Key × List Byte
  | [] => (.byte escape, [])
  | c1 :: s =>
    if c1 = 91 then bracketKey s
    else if c1 = 79 then letterKey s
    else (.byte escape, s)

/-- `read_key()`, with the bytes of the input: the key and the bytes after it, or nothing at the
end of the input. -/
def readKey : List Byte → Option (Key × List Byte)
  | [] => none
  | c :: s => some (if c ≠ escape then (.byte c, s) else escapeKey s)

theorem length_tildeKey (k : Key) (s : List Byte) : (tildeKey k s).2.length ≤ s.length := by
  cases s with
  | nil => exact Nat.le_refl 0
  | cons c s => exact Nat.le_succ _

/-- The digits after which `read_key` reads on. -/
def tildeDigits : List Byte := [49, 51, 52, 55, 56]

theorem mem_tildeDigits {c : Byte} :
    c ∈ tildeDigits ↔ c = 51 ∨ (c = 49 ∨ c = 55) ∨ c = 52 ∨ c = 56 := by
  simp only [tildeDigits, List.mem_cons, List.not_mem_nil, or_false]
  tauto

/-- A key is no key of a byte, but for `ESC`. -/
def Key.NoByte (k : Key) : Prop := ∀ c, k = .byte c → c = escape

theorem Key.noByte_escape : (Key.byte escape).NoByte := fun _ h => (Key.byte.inj h).symm

/-- A byte after `ESC [` has one key, and some digits are read on after. -/
def HasBracketKey (c : Byte) (read : List Byte → Key × List Byte) : Prop :=
  ∃ k : Key, k.NoByte ∧ ∀ s, read s = if c ∈ tildeDigits then tildeKey k s else (k, s)

theorem HasBracketKey.ite {c : Byte} {p : Prop} [Decidable p]
    {read read' : List Byte → Key × List Byte} (h : p → HasBracketKey c read)
    (h' : ¬p → HasBracketKey c read') :
    HasBracketKey c fun s => if p then read s else read' s := by
  by_cases hp : p
  · obtain ⟨k, hk, hread⟩ := h hp
    exact ⟨k, hk, fun s => (if_pos hp).trans (hread s)⟩
  · obtain ⟨k, hk, hread⟩ := h' hp
    exact ⟨k, hk, fun s => (if_neg hp).trans (hread s)⟩

/-- **What follows `ESC [`.** -/
theorem hasBracketKey (c : Byte) : HasBracketKey c fun s => bracketKey (c :: s) := by
  have hkey : ∀ k : Key, k.NoByte → c ∉ tildeDigits → HasBracketKey c fun s => (k, s) :=
    fun k hk hc => ⟨k, hk, fun s => (if_neg hc).symm⟩
  have hdigit : ∀ k : Key, k.NoByte → c ∈ tildeDigits → HasBracketKey c (tildeKey k) :=
    fun k hk hc => ⟨k, hk, fun s => (if_pos hc).symm⟩
  refine .ite (fun h => hkey .up (by simp [Key.NoByte]) (h ▸ by decide)) fun _ => ?_
  refine .ite (fun h => hkey .down (by simp [Key.NoByte]) (h ▸ by decide)) fun _ => ?_
  refine .ite (fun h => hkey .right (by simp [Key.NoByte]) (h ▸ by decide)) fun _ => ?_
  refine .ite (fun h => hkey .left (by simp [Key.NoByte]) (h ▸ by decide)) fun _ => ?_
  refine .ite (fun h => hkey .home (by simp [Key.NoByte]) (h ▸ by decide)) fun _ => ?_
  refine .ite (fun h => hkey .toEnd (by simp [Key.NoByte]) (h ▸ by decide)) fun _ => ?_
  refine .ite (fun h => hdigit .delete (by simp [Key.NoByte]) (mem_tildeDigits.2 (.inl h)))
    fun h₃ => ?_
  refine .ite (fun h => hdigit .home (by simp [Key.NoByte]) (mem_tildeDigits.2 (.inr (.inl h))))
    fun h₁ => ?_
  refine .ite (fun h => hdigit .toEnd (by simp [Key.NoByte]) (mem_tildeDigits.2 (.inr (.inr h))))
    fun h₄ => ?_
  refine hkey _ Key.noByte_escape fun hc => ?_
  rcases mem_tildeDigits.1 hc with h | h | h
  · exact h₃ h
  · exact h₁ h
  · exact h₄ h

theorem length_bracketKey (s : List Byte) : (bracketKey s).2.length ≤ s.length := by
  cases s with
  | nil => exact Nat.le_refl 0
  | cons c s =>
    obtain ⟨k, -, hread⟩ := hasBracketKey c
    have hs : bracketKey (c :: s) = _ := hread s
    rw [hs]
    split_ifs
    · exact (length_tildeKey k s).trans (Nat.le_succ _)
    · exact Nat.le_succ _

theorem length_letterKey (s : List Byte) : (letterKey s).2.length ≤ s.length := by
  cases s with
  | nil => exact Nat.le_refl 0
  | cons c s => exact Nat.le_succ _

theorem length_escapeKey (s : List Byte) : (escapeKey s).2.length ≤ s.length := by
  cases s with
  | nil => exact Nat.le_refl 0
  | cons c s =>
    rw [escapeKey]
    split_ifs
    · exact (length_bracketKey s).trans (Nat.le_succ _)
    · exact (length_letterKey s).trans (Nat.le_succ _)
    · exact Nat.le_succ _

/-- `read_key` takes a byte at least. -/
theorem length_readKey {s rest : List Byte} {k : Key} (h : readKey s = some (k, rest)) :
    rest.length < s.length := by
  cases s with
  | nil => exact absurd h (by simp [readKey])
  | cons c s =>
    have hrest := congrArg Prod.snd (Option.some.inj h)
    dsimp only at hrest
    rw [← hrest]
    split_ifs
    · exact Nat.lt_succ_self _
    · exact Nat.lt_succ_of_le (length_escapeKey s)

/-- The keys that `read_key` makes of the input. -/
def readKeys (s : List Byte) : List Key :=
  match _h : readKey s with
  | none => []
  | some (k, rest) => k :: readKeys rest
termination_by s.length
decreasing_by exact length_readKey _h

/-- The loop of `do_readline` on the bytes of the input. -/
def readlineLoop (p : Prompt) (v : View) (nbuf : ℕ) (e : Editor) (s : List Byte) : KeyOutcome :=
  match _h : readKey s with
  | none => .eof e
  | some (k, rest) =>
    match readlineKey p v nbuf e k with
    | .more e' => readlineLoop p v nbuf e' rest
    | out => out
termination_by s.length
decreasing_by exact length_readKey _h

/-- The same loop with its keys. -/
def runKeys (p : Prompt) (v : View) (nbuf : ℕ) (e : Editor) : List Key → KeyOutcome
  | [] => .eof e
  | k :: keys =>
    match readlineKey p v nbuf e k with
    | .more e' => runKeys p v nbuf e' keys
    | out => out

/-- A printable character, or a key sequence of a terminal: `ESC [` with its parameter bytes,
its intermediate bytes and its final byte, or `ESC O` with one byte. -/
inductive Stroke where
  | char (c : Byte) (hc : 32 ≤ c ∧ c < 127)
  | bracket (params inter : List Byte) (final : Byte) (hparams : ∀ b ∈ params, 48 ≤ b ∧ b < 64)
    (hinter : ∀ b ∈ inter, 32 ≤ b ∧ b < 48) (hfinal : 64 ≤ final ∧ final < 127)
  | letter (b : Byte)

/-- What the terminal sends. -/
def Stroke.bytes : Stroke → List Byte
  | .char c _ => [c]
  | .bracket params inter final _ _ _ => escape :: 91 :: (params ++ inter ++ [final])
  | .letter b => [escape, 79, b]

/-- The key of a character is the character; the key of a sequence is none of a byte, but for
`ESC`, which does nothing. -/
def Stroke.HasKey : Stroke → Key → Prop
  | .char c _, k => k = .byte c
  | _, k => ∀ c, k = .byte c → c = escape

example : (Key.byte escape).action = .ignore := rfl

/-- The stream is read one key for each stroke. -/
def StreamOk (strokes : List Stroke) : Prop :=
  List.Forall₂ Stroke.HasKey strokes (readKeys (strokes.flatMap Stroke.bytes))

/-- The stroke is none that begins with `ESC [`, or one with no parameter, or with one of the
digits alone, and with no intermediate byte. -/
def Stroke.Short : Stroke → Prop
  | .bracket params inter _ _ _ _ =>
    inter = [] ∧ (params = [] ∨ ∃ d ∈ tildeDigits, params = [d])
  | _ => True

/-! ### The keys of the loop -/

section Keys

variable {s rest : List Byte} {k : Key}

theorem readKeys_nil : readKeys [] = [] := by
  rw [readKeys]
  rfl

theorem readKeys_of_some (h : readKey s = some (k, rest)) : readKeys s = k :: readKeys rest := by
  rw [readKeys]
  split
  · rename_i hnone
    exact absurd (h.symm.trans hnone) (by simp)
  · rename_i k' rest' hsome
    obtain ⟨rfl, rfl⟩ := Prod.mk.inj (Option.some.inj (h.symm.trans hsome))
    rfl

/-- **The loop of `do_readline`** is run by these keys. -/
theorem readlineLoop_eq (p : Prompt) (v : View) (nbuf : ℕ) (e : Editor) (s : List Byte) :
    readlineLoop p v nbuf e s = runKeys p v nbuf e (readKeys s) := by
  induction hn : s.length using Nat.strongRecOn generalizing s e with
  | ind n ih =>
    rw [readlineLoop, readKeys]
    split
    · rfl
    · rename_i k rest hsome
      rw [runKeys]
      split
      · exact ih _ (hn ▸ length_readKey hsome) _ rest rfl
      · rfl

/-- Bytes that are no `ESC` are keys of their own. -/
theorem readKeys_append {l : List Byte} (h : ∀ b ∈ l, b ≠ escape) (rest : List Byte) :
    readKeys (l ++ rest) = l.map .byte ++ readKeys rest := by
  induction l with
  | nil => rfl
  | cons b l ih =>
    obtain ⟨hb, hl⟩ := List.forall_mem_cons.1 h
    have hkey : readKey (b :: (l ++ rest)) = some (.byte b, l ++ rest) := by
      rw [readKey, if_pos hb]
    rw [List.cons_append, readKeys_of_some hkey, ih hl]
    rfl

end Keys

/-! ### The keys of a stream -/

/-- What `read_key` leaves in the input of the bytes of a sequence after `ESC [`. -/
def leftover : List Byte → List Byte
  | [] => []
  | c2 :: s => if c2 ∈ tildeDigits then s.tail else s

/-- The keys that `read_key` makes of a stroke: the first one, and those of what it leaves. -/
def Stroke.keys : Stroke → List Key
  | .char c _ => [.byte c]
  | .bracket params inter final _ _ _ =>
    (bracketKey (params ++ inter ++ [final])).1 ::
      (leftover (params ++ inter ++ [final])).map .byte
  | .letter b => [(letterKey [b]).1]

section Stream

variable {s rest : List Byte} {x : Stroke}

theorem noByte_tildeKey {k : Key} (hk : k.NoByte) (s : List Byte) : (tildeKey k s).1.NoByte := by
  cases s with
  | nil => exact Key.noByte_escape
  | cons c s =>
    rw [tildeKey]
    split_ifs
    · exact hk
    · exact Key.noByte_escape

theorem noByte_bracketKey (s : List Byte) : (bracketKey s).1.NoByte := by
  cases s with
  | nil => exact Key.noByte_escape
  | cons c s =>
    obtain ⟨k, hk, hread⟩ := hasBracketKey c
    have hs : bracketKey (c :: s) = _ := hread s
    rw [hs]
    split_ifs
    · exact noByte_tildeKey hk s
    · exact hk

theorem noByte_letterKey (s : List Byte) : (letterKey s).1.NoByte := by
  cases s with
  | nil => exact Key.noByte_escape
  | cons c s =>
    have hite : ∀ {p : Prop} [Decidable p] {k k' : Key}, k.NoByte → k'.NoByte →
        (if p then k else k').NoByte := by
      intro p _ k k' hk hk'
      split_ifs
      · exact hk
      · exact hk'
    exact hite (by simp [Key.NoByte]) <| hite (by simp [Key.NoByte]) <|
      hite (by simp [Key.NoByte]) <| hite (by simp [Key.NoByte]) <|
      hite (by simp [Key.NoByte]) <| hite (by simp [Key.NoByte]) Key.noByte_escape

/-- `read_key` looks at no byte after a sequence. -/
theorem bracketKey_append {c : Byte} {t : List Byte} (h : c ∈ tildeDigits → t ≠ [])
    (rest : List Byte) :
    bracketKey (c :: t ++ rest) = ((bracketKey (c :: t)).1, leftover (c :: t) ++ rest) := by
  obtain ⟨k, -, hread⟩ := hasBracketKey c
  have hall : bracketKey (c :: (t ++ rest)) = _ := hread (t ++ rest)
  have hown : bracketKey (c :: t) = _ := hread t
  rw [List.cons_append, hall, hown, leftover]
  by_cases hc : c ∈ tildeDigits
  · obtain ⟨d, t', rfl⟩ := List.exists_cons_of_ne_nil (h hc)
    rw [if_pos hc, if_pos hc, if_pos hc]
    rfl
  · rw [if_neg hc, if_neg hc, if_neg hc]

/-- The bytes of a sequence after `ESC [`. -/
theorem bracket_body {params inter : List Byte} {final : Byte}
    (hparams : ∀ b ∈ params, 48 ≤ b ∧ b < 64) (hinter : ∀ b ∈ inter, 32 ≤ b ∧ b < 48)
    (hfinal : 64 ≤ final ∧ final < 127) :
    (∀ b ∈ params ++ inter ++ [final], b ≠ escape) ∧
      ∃ c t, params ++ inter ++ [final] = c :: t ∧ (c ∈ tildeDigits → t ≠ []) := by
  constructor
  · intro b hb
    rintro rfl
    rcases List.mem_append.1 hb with hb | hb
    · rcases List.mem_append.1 hb with hb | hb
      · exact absurd (hparams _ hb).1 (by decide)
      · exact absurd (hinter _ hb).1 (by decide)
    · rw [← List.mem_singleton.1 hb] at hfinal
      exact absurd hfinal.1 (by decide)
  · cases hbody : params ++ inter with
    | nil =>
      refine ⟨final, [], rfl, fun hc => ?_⟩
      rcases mem_tildeDigits.1 hc with rfl | (rfl | rfl) | rfl | rfl <;>
        exact absurd hfinal.1 (by decide)
    | cons c t =>
      exact ⟨c, t ++ [final], rfl, fun _ =>
        List.append_ne_nil_of_right_ne_nil _ (List.cons_ne_nil _ _)⟩

theorem mem_of_mem_leftover {b : Byte} (hb : b ∈ leftover s) : b ∈ s := by
  cases s with
  | nil => exact hb
  | cons c s =>
    rw [leftover] at hb
    split_ifs at hb
    · exact List.mem_cons_of_mem _ (List.mem_of_mem_tail hb)
    · exact List.mem_cons_of_mem _ hb

/-- **One stroke.** -/
theorem readKeys_stroke (x : Stroke) (rest : List Byte) :
    readKeys (x.bytes ++ rest) = x.keys ++ readKeys rest := by
  cases x with
  | char c hc =>
    have hne : c ≠ escape := by
      rintro rfl
      exact absurd hc.1 (by decide)
    exact readKeys_append (List.forall_mem_singleton.2 hne) rest
  | letter b =>
    have hkey : readKey (escape :: 79 :: b :: rest) = some ((letterKey [b]).1, rest) := rfl
    exact readKeys_of_some hkey
  | bracket params inter final hparams hinter hfinal =>
    obtain ⟨hne, c, t, hbody, htilde⟩ := bracket_body hparams hinter hfinal
    rw [Stroke.bytes, Stroke.keys, hbody]
    rw [hbody] at hne
    have hkey : readKey (escape :: 91 :: (c :: t ++ rest)) =
        some ((bracketKey (c :: t)).1, leftover (c :: t) ++ rest) := by
      rw [← bracketKey_append htilde]
      rfl
    have hrest := readKeys_append (fun b hb => hne b (mem_of_mem_leftover hb)) rest
    rw [List.cons_append, List.cons_append, readKeys_of_some hkey, hrest]
    rfl

/-- **A whole stream.** -/
theorem readKeys_stream (xs : List Stroke) :
    readKeys (xs.flatMap Stroke.bytes) = xs.flatMap Stroke.keys := by
  induction xs with
  | nil => exact readKeys_nil
  | cons x xs ih => rw [List.flatMap_cons, List.flatMap_cons, readKeys_stroke, ih]

/-- Nothing is left of a sequence exactly if it is short. -/
theorem leftover_eq_nil_iff {params inter : List Byte} {final : Byte}
    (hinter : ∀ b ∈ inter, 32 ≤ b ∧ b < 48) :
    leftover (params ++ inter ++ [final]) = [] ↔
      inter = [] ∧ (params = [] ∨ ∃ d ∈ tildeDigits, params = [d]) := by
  rcases params with _ | ⟨d, params⟩
  · rcases inter with _ | ⟨i, inter⟩
    · refine iff_of_true ?_ ⟨rfl, .inl rfl⟩
      rw [List.nil_append, List.nil_append, leftover, List.tail_nil, ite_self]
    · have hi : i ∉ tildeDigits := by
        intro hi
        have hlt := (hinter i List.mem_cons_self).2
        rcases mem_tildeDigits.1 hi with rfl | (rfl | rfl) | rfl | rfl <;>
          exact absurd hlt (by decide)
      rw [List.nil_append, List.cons_append, leftover, if_neg hi]
      simp
  · rw [List.cons_append, List.cons_append, leftover]
    by_cases hd : d ∈ tildeDigits
    · rw [if_pos hd]
      cases hbody : params ++ inter with
      | nil =>
        obtain ⟨rfl, rfl⟩ := List.append_eq_nil_iff.1 hbody
        exact iff_of_true rfl ⟨rfl, .inr ⟨d, hd, rfl⟩⟩
      | cons c t =>
        refine iff_of_false (by simp) ?_
        rintro ⟨rfl, h | ⟨d', -, h⟩⟩
        · exact absurd h (List.cons_ne_nil _ _)
        · rw [(List.cons.inj h).2] at hbody
          exact absurd hbody (by simp)
    · rw [if_neg hd]
      refine iff_of_false (by simp) ?_
      rintro ⟨rfl, h | ⟨d', hd', h⟩⟩
      · exact absurd h (List.cons_ne_nil _ _)
      · rw [(List.cons.inj h).1] at hd
        exact hd hd'

/-- A stroke has a key of its own, and it is the only one exactly if the stroke is short. -/
theorem Stroke.keys_eq (x : Stroke) : ∃ k left, x.keys = k :: left ∧ x.HasKey k ∧
    (left = [] ↔ x.Short) := by
  cases x with
  | char c hc => exact ⟨_, [], rfl, rfl, iff_of_true rfl trivial⟩
  | letter b => exact ⟨_, [], rfl, noByte_letterKey [b], iff_of_true rfl trivial⟩
  | bracket params inter final hparams hinter hfinal =>
    refine ⟨_, _, rfl, noByte_bracketKey _, ?_⟩
    rw [List.map_eq_nil_iff]
    exact leftover_eq_nil_iff hinter

theorem Stroke.length_keys_pos (x : Stroke) : 1 ≤ x.keys.length := by
  obtain ⟨k, left, hkeys, -, -⟩ := x.keys_eq
  rw [hkeys]
  exact Nat.succ_le_succ (Nat.zero_le _)

/-- As many keys as strokes: then each stroke has one. -/
theorem length_keys_eq_one {xs : List Stroke}
    (h : (xs.flatMap Stroke.keys).length = xs.length) : ∀ x ∈ xs, x.keys.length = 1 := by
  induction xs with
  | nil => exact fun x hx => absurd hx List.not_mem_nil
  | cons x xs ih =>
    have hle : ∀ xs : List Stroke, xs.length ≤ (xs.flatMap Stroke.keys).length := by
      intro xs
      induction xs with
      | nil => exact Nat.le_refl 0
      | cons x xs ih =>
        have hpos := x.length_keys_pos
        rw [List.flatMap_cons, List.length_append, List.length_cons]
        omega
    have hpos := x.length_keys_pos
    have hrest := hle xs
    rw [List.flatMap_cons, List.length_append, List.length_cons] at h
    exact List.forall_mem_cons.2 ⟨by omega, ih (by omega)⟩

/-- **When every sequence is consumed.**  For every stream of characters and sequences, in any
order: exactly if each sequence that begins with `ESC [` is short. -/
theorem stream_ok_iff (xs : List Stroke) : StreamOk xs ↔ ∀ x ∈ xs, x.Short := by
  rw [StreamOk, readKeys_stream]
  constructor
  · intro h x hx
    obtain ⟨k, left, hkeys, -, hshort⟩ := x.keys_eq
    have hone := length_keys_eq_one h.length_eq.symm x hx
    rw [hkeys, List.length_cons] at hone
    exact hshort.1 (List.eq_nil_of_length_eq_zero (by omega))
  · intro h
    induction xs with
    | nil => exact .nil
    | cons x xs ih =>
      obtain ⟨hx, hxs⟩ := List.forall_mem_cons.1 h
      obtain ⟨k, left, hkeys, hkey, hshort⟩ := x.keys_eq
      rw [List.flatMap_cons, hkeys, hshort.2 hx]
      exact .cons hkey (ih hxs)

/-- Page Up, `ESC [ 5 ~`. -/
def pageUp : Stroke :=
  .bracket [53] [] 126 (List.forall_mem_singleton.2 (by decide))
    (fun b hb => absurd hb List.not_mem_nil) (by decide)

/-- **Page Up**: its last byte is inserted into the line. -/
theorem not_streamOk : ¬StreamOk [pageUp] ∧
    readKeys [escape, 91, 53, 126] = [.byte escape, .byte 126] ∧
    (Key.byte 126).action = .insert 126 := by
  have hkeys : readKeys [escape, 91, 53, 126] = [.byte escape, .byte 126] := by
    have h := readKeys_stroke pageUp []
    rw [List.append_nil, readKeys_nil, List.append_nil] at h
    exact h
  refine ⟨fun h => ?_, hkeys, rfl⟩
  have hlen := h.length_eq
  rw [readKeys_stream] at hlen
  exact absurd hlen (by decide)

end Stream

end Shell
end V6User
