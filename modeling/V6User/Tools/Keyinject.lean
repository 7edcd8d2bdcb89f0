import V6User.Base.Script
import V6User.Shell.Token

/-!
# Keys that `keyinject` presses

`programs/keyinject/keyinject.c`, without the pauses between the events and without what is
printed.  The events are written to `/dev/kbd` one by one, and the program gives up at the first
write that fails.

For a character in upper case or a chord, the key is pressed and released while a modifier is
held down.  If one of these two writes fails, nothing releases the modifier any more; after any
other failure every key that was pressed has been released, or at least the write for it was
tried (`main_released_iff`).
-/

namespace V6User
namespace Tools
namespace Keyinject

open Shell (Byte CStr)
open Script

/-! ### The program -/

/-- `struct kbd_event`. -/
structure KbdEvent where
  scancode : UInt8
  pressed : UInt8
  modifiers : UInt8
  deriving DecidableEq

/-- What the program does not have from its own source: `KBD_MOD_SHIFT` and `KBD_MOD_CTRL`,
`sizeof(struct kbd_event)`, and the results of its calls of `write`, one after the other. -/
structure Kbd where
  modShift : UInt8
  modCtrl : UInt8
  size : ℤ
  write : ℕ → ℤ

/-- The events that were written, each with what `write` returned. -/
abbrev Log := List (KbdEvent × ℤ)

/-- `struct key_map`. -/
structure KeyMap where
  ch : Byte
  code : UInt8
  shift : UInt8

/-- `key_map[]`. -/
def keyMap : List KeyMap := [
  ⟨49, 2, 0⟩, ⟨50, 3, 0⟩, ⟨51, 4, 0⟩, ⟨52, 5, 0⟩, ⟨53, 6, 0⟩, ⟨54, 7, 0⟩, ⟨55, 8, 0⟩, ⟨56, 9, 0⟩,
  ⟨57, 10, 0⟩, ⟨48, 11, 0⟩, ⟨45, 12, 0⟩, ⟨61, 13, 0⟩,
  -- q w e r t y u i o p [ ]
  ⟨113, 16, 0⟩, ⟨119, 17, 0⟩, ⟨101, 18, 0⟩, ⟨114, 19, 0⟩, ⟨116, 20, 0⟩, ⟨121, 21, 0⟩,
  ⟨117, 22, 0⟩, ⟨105, 23, 0⟩, ⟨111, 24, 0⟩, ⟨112, 25, 0⟩, ⟨91, 26, 0⟩, ⟨93, 27, 0⟩,
  -- a s d f g h j k l ; and the quote, the backquote and the backslash
  ⟨97, 30, 0⟩, ⟨115, 31, 0⟩, ⟨100, 32, 0⟩, ⟨102, 33, 0⟩, ⟨103, 34, 0⟩, ⟨104, 35, 0⟩,
  ⟨106, 36, 0⟩, ⟨107, 37, 0⟩, ⟨108, 38, 0⟩, ⟨59, 39, 0⟩, ⟨39, 40, 0⟩, ⟨96, 41, 0⟩,
  ⟨92, 43, 0⟩,
  -- z x c v b n m , . / and the space
  ⟨122, 44, 0⟩, ⟨120, 45, 0⟩, ⟨99, 46, 0⟩, ⟨118, 47, 0⟩, ⟨98, 48, 0⟩, ⟨110, 49, 0⟩,
  ⟨109, 50, 0⟩, ⟨44, 51, 0⟩, ⟨46, 52, 0⟩, ⟨47, 53, 0⟩, ⟨32, 57, 0⟩,
  -- ! @ # $ % ^ & * ( ) _ +
  ⟨33, 2, 1⟩, ⟨64, 3, 1⟩, ⟨35, 4, 1⟩, ⟨36, 5, 1⟩, ⟨37, 6, 1⟩, ⟨94, 7, 1⟩, ⟨38, 8, 1⟩, ⟨42, 9, 1⟩,
  ⟨40, 10, 1⟩, ⟨41, 11, 1⟩, ⟨95, 12, 1⟩, ⟨43, 13, 1⟩,
  -- braces, : and the double quote, ~ | < > ?
  ⟨123, 26, 1⟩, ⟨125, 27, 1⟩, ⟨58, 39, 1⟩, ⟨34, 40, 1⟩, ⟨126, 41, 1⟩, ⟨124, 43, 1⟩,
  ⟨60, 51, 1⟩, ⟨62, 52, 1⟩, ⟨63, 53, 1⟩]

/-- `write_key(fd, code, pressed, modifiers)`. -/
def writeKey (kbd : Kbd) (code pressed modifiers : UInt8) : StateM Log ℤ := do
  let n ← step kbd.write ⟨code, pressed, modifiers⟩
  if n ≠ kbd.size then return -1
  return 0

/-- `ch >= 'A' && ch <= 'Z'`. -/
def isUpper (ch : Byte) : Bool := 65 ≤ ch && ch ≤ 90

/-- `lookup_char(ch)`. -/
def lookupChar (ch : Byte) : Option KeyMap :=
  let lower := if isUpper ch then ch - 65 + 97 else ch
  keyMap.find? (·.ch = lower)

/-- `tap_key(fd, code, modifiers)`. -/
def tapKey (kbd : Kbd) (code modifiers : UInt8) : StateM Log ℤ := do
  if (← writeKey kbd code 1 modifiers) < 0 then return -1
  if (← writeKey kbd code 0 modifiers) < 0 then return -1
  return 0

/-- `type_char(fd, ch)`. -/
def typeChar (kbd : Kbd) (ch : Byte) : StateM Log ℤ :=
  match lookupChar ch with
  | none => return -1
  | some km => do
    let shift := km.shift ≠ 0 || isUpper ch
    if shift then
      if (← writeKey kbd 42 1 kbd.modShift) < 0 then return -1
    if (← tapKey kbd km.code (if shift then kbd.modShift else 0)) < 0 then return -1
    if shift then
      if (← writeKey kbd 42 0 0) < 0 then return -1
    return 0

/-- `key_code(name)`, which tells `enter`, `tab`, `backspace`, `delete`, `esc` and `escape` from
the names of one character. -/
def keyCode (name : List Byte) : UInt8 :=
  if name = [101, 110, 116, 101, 114] then 28
  else if name = [116, 97, 98] then 15
  else if name = [98, 97, 99, 107, 115, 112, 97, 99, 101] then 14
  else if name = [100, 101, 108, 101, 116, 101] then 111
  else if name = [101, 115, 99] ∨ name = [101, 115, 99, 97, 112, 101] then 1
  else
    match name with
    | [ch] => ((lookupChar ch).map KeyMap.code).getD 0
    | _ => 0

/-- `chord_ctrl(fd, key)`. -/
def chordCtrl (kbd : Kbd) (key : List Byte) : StateM Log ℤ := do
  let code := keyCode key
  if code = 0 then return -1
  if (← writeKey kbd 29 1 kbd.modCtrl) < 0 then return -1
  if (← tapKey kbd code kbd.modCtrl) < 0 then return -1
  if (← writeKey kbd 29 0 0) < 0 then return -1
  return 0

/-- The loop of `main` over the characters of a text, and `rc` after it. -/
def typeText (kbd : Kbd) : List Byte → StateM Log ℤ
  | [] => return 0
  | ch :: s => do
    if (← typeChar kbd ch) < 0 then return 1
    typeText kbd s

/-- What the program is asked to do. -/
inductive Request where
  | text (s : List Byte)
  | key (name : List Byte)
  | chord (key : List Byte)
  | none
  deriving DecidableEq

/-- The tests of `main` for `text`, `key`, and `chord` with `ctrl+` before the key. -/
def request : List CStr → Request
  | _ :: mode :: arg :: _ =>
    if mode.bytes = [116, 101, 120, 116] then .text arg.bytes
    else if mode.bytes = [107, 101, 121] then .key arg.bytes
    else if mode.bytes = [99, 104, 111, 114, 100] ∧ arg.bytes.take 5 = [99, 116, 114, 108, 43] then
      .chord (arg.bytes.drop 5)
    else .none
  | _ => .none

/-- `main(argc, argv)`, where `open` returned `fd`. -/
def main (kbd : Kbd) (fd : ℤ) (argv : List CStr) : StateM Log ℤ := do
  if argv.length < 3 then return 1
  if fd < 0 then return 1
  match request argv with
  | .text s => typeText kbd s
  | .key name =>
    let code := keyCode name
    if code = 0 then return 1
    if (← tapKey kbd code 0) < 0 then return 1
    return 0
  | .chord key => do
    if (← chordCtrl kbd key) < 0 then return 1
    return 0
  | .none => return 1

/-! ### What is planned -/

inductive Modifier where
  | shift
  | ctrl
  deriving DecidableEq

/-- The scancode of a modifier. -/
def Modifier.code : Modifier → UInt8
  | .shift => 42
  | .ctrl => 29

def Modifier.flag (kbd : Kbd) : Modifier → UInt8
  | .shift => kbd.modShift
  | .ctrl => kbd.modCtrl

/-- A key that is pressed and released, perhaps while a modifier is held. -/
structure Stroke where
  code : UInt8
  modifier : Option Modifier

/-- An event that is to be written, and whether it is that of a key while a modifier is held. -/
structure Planned where
  event : KbdEvent
  held : Bool

/-- The events of a stroke. -/
def Stroke.planned (kbd : Kbd) (k : Stroke) : List Planned :=
  match k.modifier with
  | none => [⟨⟨k.code, 1, 0⟩, false⟩, ⟨⟨k.code, 0, 0⟩, false⟩]
  | some m => [⟨⟨m.code, 1, m.flag kbd⟩, false⟩, ⟨⟨k.code, 1, m.flag kbd⟩, true⟩,
      ⟨⟨k.code, 0, m.flag kbd⟩, true⟩, ⟨⟨m.code, 0, 0⟩, false⟩]

/-- The stroke for a character, if there is one. -/
def charStroke (ch : Byte) : Option Stroke := (lookupChar ch).map fun km =>
  ⟨km.code, if km.shift ≠ 0 || isUpper ch then some .shift else none⟩

/-- The strokes for a text, up to a character that has none. -/
def textStrokes : List Byte → List Stroke
  | [] => []
  | ch :: s =>
    match charStroke ch with
    | none => []
    | some k => k :: textStrokes s

/-- The stroke for the name of a key. -/
def namedStroke (name : List Byte) (modifier : Option Modifier) : List Stroke :=
  if keyCode name = 0 then [] else [⟨keyCode name, modifier⟩]

/-- The strokes for a request. -/
def strokes : Request → List Stroke
  | .text s => textStrokes s
  | .key name => namedStroke name none
  | .chord key => namedStroke key (some .ctrl)
  | .none => []

/-- The events that the program writes if every write succeeds. -/
def planned (kbd : Kbd) (argv : List CStr) : List Planned :=
  (strokes (request argv)).flatMap (Stroke.planned kbd)

/-- Every key whose press was written has a later event that releases it, written or not. -/
def Released (kbd : Kbd) (log : Log) : Prop :=
  ∀ before e n after, log = before ++ (e, n) :: after → e.pressed ≠ 0 → n = kbd.size →
    ∃ e' ∈ after, e'.1.scancode = e.scancode ∧ e'.1.pressed = 0

variable {kbd : Kbd}

/-! ### The program does what is planned -/

/-- The computation writes the events that are planned, up to the first write that fails. -/
abbrev Writes (kbd : Kbd) (m : StateM Log ℤ) (plan : List Planned) (r bad : ℤ) : Prop :=
  Performs kbd.write (· = kbd.size) m (plan.map Planned.event) r bad

theorem performs_writeKey (code pressed modifiers : UInt8) :
    Performs kbd.write (· = kbd.size) (writeKey kbd code pressed modifiers)
      [⟨code, pressed, modifiers⟩] 0 (-1) := by
  intro log
  have hrun : writeKey kbd code pressed modifiers log =
      (if kbd.write log.length ≠ kbd.size then -1 else 0,
        log ++ [(⟨code, pressed, modifiers⟩, kbd.write log.length)]) := by
    change (if kbd.write log.length ≠ kbd.size then (pure (-1) : StateM Log ℤ) else pure 0)
      (log ++ [(⟨code, pressed, modifiers⟩, kbd.write log.length)]) = _
    split_ifs <;> rfl
  rw [hrun, firstFailure, trace, firstFailure, trace, ite_self]
  by_cases hn : kbd.write log.length = kbd.size
  · rw [if_neg (not_not.2 hn), if_pos hn, if_pos rfl]
  · rw [if_pos hn, if_neg hn, if_neg (Option.some_ne_none _)]

theorem performs_tapKey (code modifiers : UInt8) :
    Performs kbd.write (· = kbd.size) (tapKey kbd code modifiers)
      [⟨code, 1, modifiers⟩, ⟨code, 0, modifiers⟩] 0 (-1) :=
  (performs_writeKey code 1 modifiers).unlessFails (Int.le_refl 0) (by decide)
    ((performs_writeKey code 0 modifiers).unlessFails (Int.le_refl 0) (by decide)
      (Performs.pure 0 (-1)))

/-- A stroke is written by `tap_key` alone or between two writes for the modifier. -/
theorem writes_stroke (kbd : Kbd) (k : Stroke) : Writes kbd (match k.modifier with
    | none => do
      if (← tapKey kbd k.code 0) < 0 then return -1
      return 0
    | some m => do
      if (← writeKey kbd m.code 1 (m.flag kbd)) < 0 then return -1
      if (← tapKey kbd k.code (m.flag kbd)) < 0 then return -1
      if (← writeKey kbd m.code 0 0) < 0 then return -1
      return 0) (k.planned kbd) 0 (-1) := by
  obtain ⟨code, modifier⟩ := k
  cases modifier with
  | none =>
    exact (performs_tapKey code 0).unlessFails (Int.le_refl 0) (by decide) (Performs.pure 0 (-1))
  | some m =>
    exact (performs_writeKey m.code 1 (m.flag kbd)).unlessFails (Int.le_refl 0) (by decide)
      ((performs_tapKey code (m.flag kbd)).unlessFails (Int.le_refl 0) (by decide)
        ((performs_writeKey m.code 0 0).unlessFails (Int.le_refl 0) (by decide)
          (Performs.pure 0 (-1))))

theorem typeChar_of_some {ch : Byte} {k : Stroke} (h : charStroke ch = some k) :
    Writes kbd (typeChar kbd ch) (k.planned kbd) 0 (-1) := by
  obtain ⟨km, hkm, rfl⟩ := Option.map_eq_some_iff.1 h
  have hstroke := writes_stroke kbd
    ⟨km.code, if km.shift ≠ 0 || isUpper ch then some .shift else none⟩
  unfold typeChar
  rw [hkm]
  dsimp only
  generalize (decide (km.shift ≠ 0) || isUpper ch) = shift at hstroke ⊢
  cases shift <;> exact hstroke

theorem typeChar_of_none {ch : Byte} (h : charStroke ch = none) :
    Writes kbd (typeChar kbd ch) [] (-1) (-1) := by
  rw [typeChar, Option.map_eq_none_iff.1 h]
  exact Performs.pure (-1) (-1)

/-- The loop over a text ends with the first character that has no stroke. -/
theorem writes_typeText (s : List Byte) : ∃ r, Writes kbd (typeText kbd s)
    ((textStrokes s).flatMap (Stroke.planned kbd)) r 1 := by
  induction s with
  | nil => exact ⟨0, Performs.pure 0 1⟩
  | cons ch s ih =>
    obtain ⟨r, hrest⟩ := ih
    rw [textStrokes]
    cases hch : charStroke ch with
    | none => exact ⟨1, (typeChar_of_none hch).unlessFails_of_neg (by decide) (by decide)⟩
    | some k =>
      refine ⟨r, ?_⟩
      rw [List.flatMap_cons, Writes, List.map_append]
      exact (typeChar_of_some hch).unlessFails (Int.le_refl 0) (by decide) hrest

theorem chordCtrl_of_zero {key : List Byte} (h : keyCode key = 0) :
    chordCtrl kbd key = pure (-1) := by
  unfold chordCtrl
  exact if_pos h

theorem writes_chordCtrl {key : List Byte} (h : keyCode key ≠ 0) :
    Writes kbd (chordCtrl kbd key) (Stroke.planned kbd ⟨keyCode key, some .ctrl⟩) 0 (-1) := by
  have heq : chordCtrl kbd key = _ := if_neg h
  rw [heq]
  exact writes_stroke kbd ⟨keyCode key, some .ctrl⟩

/-- **The program does what is planned**, if it can open the device. -/
theorem writes_main (kbd : Kbd) {fd : ℤ} (hfd : 0 ≤ fd) (argv : List CStr) :
    ∃ r, Writes kbd (main kbd fd argv) (planned kbd argv) r 1 := by
  unfold main planned
  by_cases hargc : argv.length < 3
  · have hnone : request argv = .none := by
      match argv with
      | [] | [_] | [_, _] => rfl
      | _ :: _ :: _ :: _ => exact absurd hargc (by simp)
    rw [if_pos hargc, hnone]
    exact ⟨1, Performs.pure 1 1⟩
  rw [if_neg hargc, if_neg (Int.not_lt.2 hfd)]
  cases request argv with
  | text s => exact writes_typeText s
  | key name =>
    rw [strokes, namedStroke]
    dsimp only
    split_ifs with hcode
    · exact ⟨1, Performs.pure 1 1⟩
    · exact ⟨0, (performs_tapKey (keyCode name) 0).unlessFails (Int.le_refl 0) (by decide)
        (Performs.pure 0 1)⟩
  | chord key =>
    rw [strokes, namedStroke]
    dsimp only
    split_ifs with hcode
    · rw [chordCtrl_of_zero hcode]
      exact ⟨1, (Performs.pure (-1) (-1)).unlessFails_of_neg (by decide) (by decide)⟩
    · exact ⟨0, (writes_chordCtrl hcode).unlessFails (Int.le_refl 0) (by decide)
        (Performs.pure 0 1)⟩
  | none => exact ⟨1, Performs.pure 1 1⟩

/-! ### Every key that was pressed -/

theorem released_nil : Released kbd [] := fun before _ _ _ h =>
  absurd h.symm (by simp)

theorem released_cons {e : KbdEvent} {n : ℤ} {log : Log} : Released kbd ((e, n) :: log) ↔
    (e.pressed ≠ 0 → n = kbd.size → ∃ e' ∈ log, e'.1.scancode = e.scancode ∧ e'.1.pressed = 0) ∧
      Released kbd log := by
  constructor
  · intro h
    exact ⟨h [] e n log rfl, fun before e' n' after hlog => h ((e, n) :: before) e' n' after
      (congrArg _ hlog)⟩
  · rintro ⟨hfirst, hrest⟩ before e' n' after hlog
    cases before with
    | nil =>
      obtain ⟨hhead, rfl⟩ := List.cons.inj hlog
      obtain ⟨rfl, rfl⟩ := Prod.mk.inj hhead
      exact hfirst
    | cons p before => exact hrest before e' n' after (List.cons.inj hlog).2

/-- A key is no modifier. -/
abbrev Clear (code : UInt8) : Prop := code ≠ Modifier.shift.code ∧ code ≠ Modifier.ctrl.code

theorem clear_of_lookupChar {ch : Byte} {km : KeyMap} (h : lookupChar ch = some km) :
    Clear km.code := by
  have htable : ∀ km ∈ keyMap, Clear km.code := by decide
  rw [lookupChar] at h
  exact htable km (List.mem_of_find?_eq_some h)

theorem clear_keyCode (name : List Byte) : Clear (keyCode name) := by
  unfold keyCode
  split_ifs
  any_goals decide
  split
  · cases hch : lookupChar _ with
    | none => decide
    | some km => exact clear_of_lookupChar hch
  · decide

theorem clear_textStrokes (s : List Byte) : ∀ k ∈ textStrokes s, Clear k.code := by
  induction s with
  | nil => exact fun k hk => absurd hk List.not_mem_nil
  | cons ch s ih =>
    rw [textStrokes]
    cases hch : charStroke ch with
    | none => exact fun k hk => absurd hk List.not_mem_nil
    | some k =>
      obtain ⟨km, hkm, rfl⟩ := Option.map_eq_some_iff.1 hch
      exact List.forall_mem_cons.2 ⟨clear_of_lookupChar hkm, ih⟩

theorem clear_namedStroke (name : List Byte) (modifier : Option Modifier) :
    ∀ k ∈ namedStroke name modifier, Clear k.code := by
  intro k hk
  rw [namedStroke] at hk
  split_ifs at hk
  · exact absurd hk List.not_mem_nil
  · rw [List.mem_singleton.1 hk]
    exact clear_keyCode name

theorem clear_strokes (r : Request) : ∀ k ∈ strokes r, Clear k.code := by
  cases r with
  | text s => exact clear_textStrokes s
  | key name => exact clear_namedStroke name none
  | chord key => exact clear_namedStroke key (some .ctrl)
  | none => exact fun k hk => absurd hk List.not_mem_nil

/-- **One stroke after another.**  Whatever the results of the writes are, a key stays pressed
exactly if the first write to fail is that of a key while a modifier is held. -/
theorem released_trace_iff {ks : List Stroke} (hks : ∀ k ∈ ks, Clear k.code) (n : ℕ) :
    Released kbd (trace kbd.write (· = kbd.size) n
      ((ks.flatMap (Stroke.planned kbd)).map Planned.event)) ↔
    ∀ p ∈ firstFailure kbd.write (· = kbd.size) n (ks.flatMap (Stroke.planned kbd)),
      p.held = false := by
  induction ks generalizing n with
  | nil => exact iff_of_true released_nil (by simp [firstFailure])
  | cons k ks ih =>
    obtain ⟨hk, hks⟩ := List.forall_mem_cons.1 hks
    replace ih := ih hks
    obtain ⟨code, modifier⟩ := k
    simp only [List.flatMap_cons, List.map_append]
    cases modifier with
    | none =>
      simp only [Stroke.planned, List.map_cons, List.map_nil, List.cons_append, List.nil_append,
        trace, firstFailure]
      by_cases h₁ : kbd.write n = kbd.size
      · by_cases h₂ : kbd.write (n + 1) = kbd.size
        · simpa [h₁, h₂, released_cons] using ih (n + 1 + 1)
        · simp [h₁, h₂, released_cons, released_nil]
      · simp [h₁, released_cons, released_nil]
    | some m =>
      have hm : code ≠ m.code := by
        cases m
        · exact hk.1
        · exact hk.2
      simp only [Stroke.planned, List.map_cons, List.map_nil, List.cons_append, List.nil_append,
        trace, firstFailure]
      by_cases h₁ : kbd.write n = kbd.size
      · by_cases h₂ : kbd.write (n + 1) = kbd.size
        · by_cases h₃ : kbd.write (n + 1 + 1) = kbd.size
          · by_cases h₄ : kbd.write (n + 1 + 1 + 1) = kbd.size
            · simpa [h₁, h₂, h₃, h₄, released_cons] using ih (n + 1 + 1 + 1 + 1)
            · simp [h₁, h₂, h₃, h₄, released_cons, released_nil]
          · simp [h₁, h₂, h₃, released_cons, released_nil, hm]
        · simp [h₁, h₂, released_cons, released_nil, hm]
      · simp [h₁, released_cons, released_nil]

/-- **When no key stays pressed.**  Whatever the program is asked to do and whatever the
results of `write` are, every key whose press was written has a later event that releases it,
exactly when the first write to fail, if the program could open the device and one of them
fails, is not that of a key while a modifier is held down for it. -/
theorem main_released_iff (kbd : Kbd) (fd : ℤ) (argv : List CStr) :
    Released kbd (main kbd fd argv []).2 ↔ (0 ≤ fd →
      ∀ p ∈ firstFailure kbd.write (· = kbd.size) 0 (planned kbd argv), p.held = false) := by
  by_cases hfd : 0 ≤ fd
  · obtain ⟨r, hwrites⟩ := writes_main kbd hfd argv
    have hlog : (main kbd fd argv []).2 =
        trace kbd.write (· = kbd.size) 0 ((planned kbd argv).map Planned.event) := by
      rw [hwrites []]
      rfl
    rw [hlog, forall_prop_of_true hfd]
    exact released_trace_iff (clear_strokes (request argv)) 0
  · have hlog : (main kbd fd argv []).2 = [] := by
      unfold main
      rw [if_pos (Int.not_le.1 hfd), ite_self]
      rfl
    rw [hlog]
    exact iff_of_true released_nil fun h => absurd h hfd

/-- **`keyinject text A`** when the second write fails: the shift key was pressed, and nothing
releases it. -/
theorem text_upper_not_released : ¬Released ⟨1, 2, 8, fun n => if n = 1 then -5 else 8⟩
    (main ⟨1, 2, 8, fun n => if n = 1 then -5 else 8⟩ 3
      [⟨[107], by decide⟩, ⟨[116, 101, 120, 116], by decide⟩, ⟨[65], by decide⟩] []).2 := by
  have hlog : (main ⟨1, 2, 8, fun n => if n = 1 then -5 else 8⟩ 3
      [⟨[107], by decide⟩, ⟨[116, 101, 120, 116], by decide⟩, ⟨[65], by decide⟩] []).2 =
      [(⟨42, 1, 1⟩, 8), (⟨30, 1, 1⟩, -5)] := by decide
  rw [hlog, released_cons]
  rintro ⟨hshift, -⟩
  obtain ⟨e, he, hcode, -⟩ := hshift (by decide) rfl
  rw [List.mem_singleton.1 he] at hcode
  exact absurd hcode (by decide)

end Keyinject
end Tools
end V6User
