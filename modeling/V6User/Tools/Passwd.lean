import V6User.Printf.Truncate
import V6User.Shell.Expand
import V6User.Tools.ParseNum
import V6User.Tools.Startup

/-!
# The names of users

`programs/sh/sh.c`: `update_user_info`; `programs/top/top.c`: `load_passwd` and `uid_to_name`.

Both read the beginning of `/etc/passwd` and take the digits behind the second colon of a line
for its uid, in an `int` that wraps; no digits make 0.  So what they take for the line of a uid
need not have its numeral in the third field, and what they do not hold is not found: they show
the right name exactly where neither happens, and the name has room (`passwd_ok_iff`).
-/

namespace V6User
namespace Tools

open CInt Lines Numeral
open Shell (Byte itoaLocal)

/-- `':'`. -/
abbrev colon : Byte := 58

/-! ### The lines -/

/-- The loop over the digits of `pw_uid`. -/
def uidLoop (u : ℤ) : List Byte → ℤ
  | [] => u
  | c :: s =>
    match decimalVal c with
    | some d => uidLoop (int32 (u * 10 + d)) s
    | none => u

/-- What is behind the next colon of a line. -/
def afterColon : List Byte → Option (List Byte)
  | [] => none
  | c :: s => if c = colon then some s else afterColon s

/-- The bytes before `c1`. -/
def nameOf (line : List Byte) : List Byte := line.takeWhile (· ≠ colon)

/-- The name and the uid of a line, which is skipped if there are no two colons in it. -/
def passwdLine (line : List Byte) : Option (List Byte × ℤ) :=
  match afterColon line with
  | none => none
  | some afterName =>
    match afterColon afterName with
    | none => none
    | some field => some (nameOf line, uidLoop 0 field)

/-! ### The shell -/

/-- `sizeof(pbuf)`. -/
def pbufSize : ℕ := 1024

/-- `sizeof(user_name)`. -/
def userNameSize : ℕ := 64

/-- `while (*p)`, from the `i`-th line on: the number of the line that is taken, and what of
its name has room in `size` bytes. -/
def userLoop (size : ℕ) (uid : ℤ) : ℕ → List (List Byte) → Option (ℕ × List Byte)
  | _, [] => none
  | i, line :: ls =>
    match passwdLine line with
    | none => userLoop size uid (i + 1) ls
    | some (name, u) =>
      if u = uid then some (i, name.take (size - 1)) else userLoop size uid (i + 1) ls

/-- `itoa_local(val, buf, bufsz)`.  For the least `int` `-val` overflows; the text begins with
the sign all the same. -/
def itoaSigned (val : ℤ) (bufsz : ℕ) : List Byte :=
  if val < 0 then 45 :: itoaLocal (-val).toNat (bufsz - 1) else itoaLocal val.toNat bufsz

/-- What is shown for a uid: the text, and the number of the line that it comes from. -/
structure Shown where
  line : Option ℕ
  text : List Byte

/-- `update_user_info()`: `user_name` then, where the reads give the first `n` bytes of the
file. -/
def shellUser (file : List Byte) (n : ℕ) (uid : UInt32) : Shown :=
  let userUid := int32 uid.toNat
  match userLoop userNameSize userUid 0 (scanLines lineEnd (held pbufSize n 0 file)) with
  | some (i, name) => ⟨some i, name⟩
  | none => ⟨none, itoaSigned userUid userNameSize⟩

/-! ### `top` -/

/-- `sizeof(buf)` in `load_passwd`. -/
def passwdBufSize : ℕ := 2048

/-- `MAX_USERS`. -/
def maxUsers : ℕ := 64

/-- `MAX_UNAME`. -/
def maxUname : ℕ := 16

/-- An entry of `uid_cache`, and the number of its line. -/
structure CachedUid where
  line : ℕ
  uid : ℤ
  name : List Byte

/-- The loop of `load_passwd`, with room for so many entries, from the `i`-th line on. -/
def loadPasswd : ℕ → ℕ → List (List Byte) → List CachedUid
  | _, _, [] => []
  | 0, _, _ :: _ => []
  | room + 1, i, line :: ls =>
    match passwdLine line with
    | none => loadPasswd (room + 1) (i + 1) ls
    | some (name, u) => ⟨i, u, name.take (maxUname - 1)⟩ :: loadPasswd room (i + 1) ls

/-- `uid_to_name(uid)`. -/
def uidToName (cache : List CachedUid) (uid : ℤ) : Option CachedUid :=
  cache.find? fun e => e.uid == uid

/-- `"%d"`. -/
def decimalFormat : Shell.CStr := ⟨[37, 100], by decide⟩

/-- `uname` in `print_procs`, where the reads of `load_passwd` give the first `n` bytes of the
file. -/
def topUser (file : List Byte) (n : ℕ) (uid : UInt32) : Shown :=
  let cache := loadPasswd maxUsers 0 (scanLines lineEnd (held passwdBufSize n 0 file))
  match uidToName cache (int32 uid.toNat) with
  | some e => ⟨some e.line, e.name⟩
  | none =>
    ⟨none, (Printf.vsnprintf (fun _ => []) 12 decimalFormat fun _ =>
      uid.toBitVec.setWidth 64).getD []⟩

/-! ### What the file says -/

/-- The fields of a line. -/
def fields (line : List Byte) : List (List Byte) := line.splitOn colon

/-- The decimal numeral of a number. -/
def decimalText (n : ℕ) : List Byte :=
  if n = 0 then [48] else ((Nat.digits 10 n).map fun d => 48 + .ofNat d).reverse

/-- The third field of the line is the numeral of the uid. -/
def IsUser (uid : UInt32) (line : List Byte) : Prop :=
  (fields line)[2]? = some (decimalText uid.toNat)

instance (uid : UInt32) : DecidablePred (IsUser uid) := fun line =>
  inferInstanceAs (Decidable ((fields line)[2]? = some (decimalText uid.toNat)))

/-- The first of the lines with a property, and its number. -/
def First (p : List Byte → Prop) (ls : List (List Byte)) (i : ℕ) (line : List Byte) : Prop :=
  ls[i]? = some line ∧ p line ∧ ∀ j < i, ∀ l, ls[j]? = some l → ¬p l

/-- What is shown is the first field of the first line of the user, or the number of the uid
if there is none. -/
def UserOk (shown : Shown) (file : List Byte) (uid : UInt32) : Prop :=
  (∃ i line, First (IsUser uid) (lines lineEnd file) i line ∧
    shown = ⟨some i, (fields line).headD []⟩) ∨
  ((∀ line ∈ lines lineEnd file, ¬IsUser uid line) ∧ shown = ⟨none, decimalText uid.toNat⟩)

/-- The line is taken for one of the uid: what is read in it makes the same `int`. -/
def Takes (uid : UInt32) (line : List Byte) : Prop :=
  ∃ name, passwdLine line = some (name, int32 uid.toNat)

/-- The lines up to that of the last entry that there is room for. -/
def cachedLines : ℕ → List (List Byte) → List (List Byte)
  | _, [] => []
  | 0, _ :: _ => []
  | room + 1, line :: ls =>
    line :: cachedLines (if passwdLine line = none then room + 1 else room) ls

/-- The first of the lines that is taken for one of the uid, if there is one, is a line of the
user in the file, with a name that has room in `size` bytes; and if there is none, then there
is none of the user in the file, and the uid is not negative as an `int`. -/
def Finds (size : ℕ) (ls : List (List Byte)) (file : List Byte) (uid : UInt32) : Prop :=
  (∀ i line, First (Takes uid) ls i line → ∃ l, (lines lineEnd file)[i]? = some l ∧
    IsUser uid l ∧ (nameOf line).length < size) ∧
  ((∀ line ∈ ls, ¬Takes uid line) →
    (∀ line ∈ lines lineEnd file, ¬IsUser uid line) ∧ uid.toNat < 2 ^ 31)

/-! ### Lines and their fields -/

section Fields

variable {s a b c rest line : List Byte} {uid : UInt32}

theorem afterColon_of_notMem (h : colon ∉ s) : afterColon s = none := by
  induction s with
  | nil => rfl
  | cons c s ih =>
    simp only [List.mem_cons, not_or] at h
    rw [afterColon, if_neg (Ne.symm h.1), ih h.2]

theorem afterColon_append (h : colon ∉ a) (s : List Byte) :
    afterColon (a ++ colon :: s) = some s := by
  induction a with
  | nil => simp [afterColon]
  | cons c a ih =>
    simp only [List.mem_cons, not_or] at h
    rw [List.cons_append, afterColon, if_neg (Ne.symm h.1), ih h.2]

theorem fields_of_notMem (h : colon ∉ s) : fields s = [s] := List.splitOn_eq_singleton h

theorem fields_append (h : colon ∉ a) (s : List Byte) :
    fields (a ++ colon :: s) = a :: fields s := List.splitOn_append_cons_self_of_not_mem h s

theorem nameOf_append (h : colon ∉ a) (s : List Byte) : nameOf (a ++ colon :: s) = a := by
  have hall : ∀ c ∈ a, decide (c ≠ colon) = true := fun c hc =>
    decide_eq_true fun heq => h (heq ▸ hc)
  rw [nameOf, List.takeWhile_append_of_pos hall]
  simp

/-- A line that is not skipped has two colons. -/
theorem exists_of_passwdLine {e : List Byte × ℤ} (h : passwdLine line = some e) :
    ∃ a b c, colon ∉ a ∧ colon ∉ b ∧ line = a ++ colon :: (b ++ colon :: c) ∧
      e = (a, uidLoop 0 c) := by
  rcases cases_line colon line with hnone | ⟨a, s, ha, rfl⟩
  · rw [passwdLine, afterColon_of_notMem hnone] at h
    simp at h
  · rcases cases_line colon s with hnone | ⟨b, c, hb, rfl⟩
    · rw [passwdLine, afterColon_append ha] at h
      simp only [afterColon_of_notMem hnone] at h
      simp at h
    · rw [passwdLine, afterColon_append ha] at h
      simp only [afterColon_append hb] at h
      rw [nameOf_append ha] at h
      exact ⟨a, b, c, ha, hb, rfl, (Option.some.inj h).symm⟩

theorem passwdLine_append (ha : colon ∉ a) (hb : colon ∉ b) (c : List Byte) :
    passwdLine (a ++ colon :: (b ++ colon :: c)) = some (a, uidLoop 0 c) := by
  rw [passwdLine, afterColon_append ha]
  simp only [afterColon_append hb, nameOf_append ha]

theorem passwdLine_eq_some (h : passwdLine line ≠ none) :
    ∃ u, passwdLine line = some (nameOf line, u) := by
  obtain ⟨e, he⟩ := Option.ne_none_iff_exists'.1 h
  obtain ⟨a, b, c, ha, -, rfl, rfl⟩ := exists_of_passwdLine he
  rw [nameOf_append ha]
  exact ⟨_, he⟩

/-- A line that goes on has the same name. -/
theorem headD_fields_of_prefix (h : Takes uid line) {l : List Byte} (hpre : line <+: l) :
    (fields l).headD [] = nameOf line := by
  obtain ⟨name, hname⟩ := h
  obtain ⟨a, b, c, ha, -, rfl, -⟩ := exists_of_passwdLine hname
  obtain ⟨r, rfl⟩ := hpre
  rw [List.append_assoc, List.cons_append, fields_append ha, nameOf_append ha]
  rfl

/-- The loop adds the digits to the number. -/
theorem uidLoop_digits (hs : ∀ c ∈ s, (decimalVal c).isSome)
    (hrest : ∀ c ∈ rest.head?, decimalVal c = none) (n : ℕ) :
    uidLoop (int32 n) (s ++ rest) = int32 (more 10 n (s.filterMap decimalVal) : ℕ) := by
  induction s generalizing n with
  | nil =>
    cases rest with
    | nil => rfl
    | cons c rest => simp [uidLoop, hrest c rfl, more]
  | cons c s ih =>
    obtain ⟨hc, hs⟩ := List.forall_mem_cons.1 hs
    obtain ⟨d, hd⟩ := Option.isSome_iff_exists.1 hc
    have hstep : int32 (int32 n * 10 + d) = int32 (n * 10 + d : ℕ) := by
      rw [int32_mul_add]
      push_cast
      rfl
    rw [List.cons_append, uidLoop, hd]
    dsimp only
    rw [hstep, ih hs, List.filterMap_cons_some hd, more_cons]

theorem decimalVal_digit {d : ℕ} (h : d < 10) : decimalVal (48 + .ofNat d) = some d := by
  interval_cases d <;> rfl

/-- The numeral of a number is read as the number. -/
theorem decimalText_digits (n : ℕ) : (∀ c ∈ decimalText n, (decimalVal c).isSome) ∧
    more 10 0 ((decimalText n).filterMap decimalVal) = n := by
  rw [decimalText]
  split_ifs with hzero
  · rw [hzero]
    exact ⟨by simp [decimalVal], rfl⟩
  · have hval : ∀ d ∈ Nat.digits 10 n, decimalVal (48 + .ofNat d) = some d := fun d hd =>
      decimalVal_digit (Nat.digits_lt_base (by decide) hd)
    constructor
    · intro c hc
      obtain ⟨d, hd, rfl⟩ := List.mem_map.1 (List.mem_reverse.1 hc)
      rw [hval d hd]
      rfl
    · rw [List.filterMap_reverse, List.filterMap_map]
      have hmap : (Nat.digits 10 n).filterMap (decimalVal ∘ fun d => 48 + UInt8.ofNat d) =
          Nat.digits 10 n :=
        (List.filterMap_congr hval).trans List.filterMap_some
      rw [hmap, more_digits]

/-- **A line of the user is taken.** -/
theorem takes_of_isUser (h : IsUser uid line) : Takes uid line := by
  obtain ⟨hdigits, hvalue⟩ := decimalText_digits uid.toNat
  rcases cases_line colon line with hnone | ⟨a, s, ha, rfl⟩
  · rw [IsUser, fields_of_notMem hnone] at h
    simp at h
  · rcases cases_line colon s with hnone | ⟨b, c, hb, rfl⟩
    · rw [IsUser, fields_append ha, fields_of_notMem hnone] at h
      simp at h
    · refine ⟨a, ?_⟩
      rw [IsUser, fields_append ha, fields_append hb] at h
      have hloop : ∀ rest, (∀ c ∈ rest.head?, decimalVal c = none) →
          uidLoop 0 (decimalText uid.toNat ++ rest) = int32 uid.toNat := by
        intro rest hrest
        have := uidLoop_digits hdigits hrest 0
        rw [hvalue] at this
        exact this
      rw [passwdLine_append ha hb]
      rcases cases_line colon c with hnone | ⟨field, rest, hfield, rfl⟩
      · rw [fields_of_notMem hnone] at h
        obtain rfl : c = decimalText uid.toNat := by simpa using h
        have := hloop [] (by simp)
        rw [List.append_nil] at this
        rw [this]
      · rw [fields_append hfield] at h
        obtain rfl : field = decimalText uid.toNat := by simpa using h
        have hcolon : decimalVal colon = none := rfl
        rw [hloop (colon :: rest) (by simp [hcolon])]

end Fields

/-! ### The loops -/

section Loops

variable {p : List Byte → Prop} {ls : List (List Byte)} {line l : List Byte} {i k size room : ℕ}
  {uid : UInt32}

theorem first_cons (h : p line) : First p (line :: ls) 0 line :=
  ⟨rfl, h, fun j hj => absurd hj (Nat.not_lt_zero j)⟩

theorem First.cons (h : First p ls k l) (hline : ¬p line) : First p (line :: ls) (k + 1) l := by
  obtain ⟨hl, hp, hbefore⟩ := h
  refine ⟨hl, hp, fun j hj l' hl' => ?_⟩
  rcases j with _ | j
  · obtain rfl := Option.some.inj hl'
    exact hline
  · exact hbefore j (by omega) l' hl'

/-- **The loop takes the first line that is taken for one of the uid**, if there is one. -/
theorem userLoop_spec (size : ℕ) (uid : UInt32) (i : ℕ) (ls : List (List Byte)) :
    (∃ k line, First (Takes uid) ls k line ∧
      userLoop size (int32 uid.toNat) i ls = some (i + k, (nameOf line).take (size - 1))) ∨
    ((∀ line ∈ ls, ¬Takes uid line) ∧ userLoop size (int32 uid.toNat) i ls = none) := by
  induction ls generalizing i with
  | nil => exact .inr ⟨fun line h => absurd h List.not_mem_nil, rfl⟩
  | cons line ls ih =>
    have hlater : ¬Takes uid line →
        userLoop size (int32 uid.toNat) i (line :: ls) =
          userLoop size (int32 uid.toNat) (i + 1) ls →
        (∃ k l, First (Takes uid) (line :: ls) k l ∧
          userLoop size (int32 uid.toNat) i (line :: ls) =
            some (i + k, (nameOf l).take (size - 1))) ∨
        ((∀ l ∈ line :: ls, ¬Takes uid l) ∧
          userLoop size (int32 uid.toNat) i (line :: ls) = none) := by
      intro hline heq
      rw [heq]
      rcases ih (i + 1) with ⟨k, l, hfirst, hl⟩ | ⟨hnone, hl⟩
      · exact .inl ⟨k + 1, l, hfirst.cons hline, by rw [hl, Nat.add_right_comm, Nat.add_assoc]⟩
      · exact .inr ⟨List.forall_mem_cons.2 ⟨hline, hnone⟩, hl⟩
    by_cases hskip : passwdLine line = none
    · refine hlater (fun ⟨name, hname⟩ => ?_) ?_
      · rw [hskip] at hname
        simp at hname
      · rw [userLoop, hskip]
    · obtain ⟨u, hu⟩ := passwdLine_eq_some hskip
      by_cases huid : u = int32 uid.toNat
      · refine .inl ⟨0, line, first_cons ⟨nameOf line, huid ▸ hu⟩, ?_⟩
        rw [userLoop, hu]
        dsimp only
        rw [if_pos huid, Nat.add_zero]
      · refine hlater (fun ⟨name, hname⟩ => ?_) ?_
        · rw [hu] at hname
          exact huid (Prod.mk.inj (Option.some.inj hname)).2
        · rw [userLoop, hu]
          dsimp only
          rw [if_neg huid]

/-- The cache finds what the loop of the shell finds in the lines that have an entry. -/
theorem uidToName_loadPasswd (uid : ℤ) (room i : ℕ) (ls : List (List Byte)) :
    (uidToName (loadPasswd room i ls) uid).map (fun e => (e.line, e.name)) =
      userLoop maxUname uid i (cachedLines room ls) := by
  induction ls generalizing room i with
  | nil => simp [loadPasswd, cachedLines, uidToName, userLoop]
  | cons line ls ih =>
    cases room with
    | zero => simp [loadPasswd, cachedLines, uidToName, userLoop]
    | succ room =>
      by_cases hskip : passwdLine line = none
      · rw [loadPasswd, cachedLines, userLoop, if_pos hskip, hskip]
        exact ih (room + 1) (i + 1)
      · obtain ⟨u, hu⟩ := passwdLine_eq_some hskip
        rw [loadPasswd, cachedLines, userLoop, if_neg hskip, hu]
        dsimp only
        rw [uidToName, List.find?_cons]
        dsimp only
        by_cases huid : u = uid
        · rw [if_pos huid, huid, beq_self_eq_true]
          rfl
        · rw [if_neg huid, beq_eq_false_iff_ne.2 huid]
          exact ih room (i + 1)

theorem cachedLines_begins (room : ℕ) (ls : List (List Byte)) : cachedLines room ls <+: ls := by
  induction ls generalizing room with
  | nil => rw [cachedLines]
  | cons line ls ih =>
    cases room with
    | zero => exact List.nil_prefix
    | succ room => exact List.cons_prefix_cons.2 ⟨rfl, ih _⟩

end Loops

/-! ### The number of a uid -/

section Number

/-- The digits of `itoa_local`, the last one first. -/
theorem itoaDigits_eq {room n : ℕ} (h : n < 10 ^ room) :
    Shell.itoaDigits room n = (Nat.digits 10 n).map fun d => 48 + .ofNat d := by
  induction room generalizing n with
  | zero =>
    obtain rfl : n = 0 := by omega
    rfl
  | succ room ih =>
    rw [Shell.itoaDigits]
    split_ifs with hzero
    · rw [hzero, Nat.digits_zero, List.map_nil]
    · have hlt : n / 10 < 10 ^ room := Nat.div_lt_of_lt_mul (by rwa [Nat.mul_comm])
      rw [ih hlt, Nat.digits_def' (by decide) (Nat.pos_of_ne_zero hzero), List.map_cons]
      simp

theorem length_digits_le {n : ℕ} (h : n < 2 ^ 32) : (Nat.digits 10 n).length ≤ 10 :=
  (Nat.digits_length_le_iff (by decide) n).2 (h.trans (by decide))

theorem itoaLocal_eq {n size : ℕ} (h : n < 2 ^ 32) (hsize : 12 ≤ size) :
    itoaLocal n size = decimalText n := by
  have hlen := length_digits_le h
  rw [itoaLocal, if_neg (by omega), decimalText]
  split_ifs with hzero
  · rfl
  · rw [itoaDigits_eq (h.trans (by decide)), List.take_of_length_le]
    rw [List.length_map]
    omega

theorem length_decimalText_le {n : ℕ} (h : n < 2 ^ 32) : (decimalText n).length ≤ 10 := by
  have hlen := length_digits_le h
  rw [decimalText]
  split_ifs
  · simp
  · simpa using hlen

/-- A sign is no digit. -/
theorem cons_ne_decimalText (s : List Byte) (n : ℕ) : 45 :: s ≠ decimalText n := by
  intro h
  have hdigit := (decimalText_digits n).1 45 (h ▸ List.mem_cons_self)
  exact absurd hdigit (by decide)

/-- The `int` of a uid. -/
theorem int32_uid (uid : UInt32) : (uid.toNat < 2 ^ 31 ∧ int32 uid.toNat = uid.toNat) ∨
    (2 ^ 31 ≤ uid.toNat ∧ int32 uid.toNat = uid.toNat - 2 ^ 32) := by
  have hlt := uid.toNat_lt
  rcases Nat.lt_or_ge uid.toNat (2 ^ 31) with h | h
  · exact .inl ⟨h, int32_of_range (by omega) (by omega)⟩
  · exact .inr ⟨h, int32_of_high (by omega) (by omega)⟩

theorem itoaSigned_eq_iff (uid : UInt32) :
    itoaSigned (int32 uid.toNat) userNameSize = decimalText uid.toNat ↔ uid.toNat < 2 ^ 31 := by
  rcases int32_uid uid with ⟨hlt, heq⟩ | ⟨hge, heq⟩
  · refine iff_of_true ?_ hlt
    rw [heq, itoaSigned, if_neg (by omega)]
    exact itoaLocal_eq uid.toNat_lt (by decide)
  · refine iff_of_false ?_ (by omega)
    have hlt := uid.toNat_lt
    rw [heq, itoaSigned, if_pos (by omega)]
    exact cons_ne_decimalText _ _

/-- `va_arg` reads the `int` of the uid. -/
theorem toInt_vaSigned (uid : UInt32) :
    (Printf.vaSigned 0 fun _ => uid.toBitVec.setWidth 64).toInt = int32 uid.toNat := by
  have hslot : (uid.toBitVec.setWidth 64).setWidth 32 = uid.toBitVec := by simp
  rw [Printf.vaSigned, if_neg (by decide), hslot, BitVec.toInt_signExtend_of_le (by decide),
    BitVec.toInt_eq_toNat_bmod]
  rfl

/-- What `snprintf` stores for `"%d"`. -/
theorem vsnprintf_decimal (uid : UInt32) :
    Printf.vsnprintf (fun _ => []) 12 decimalFormat (fun _ => uid.toBitVec.setWidth 64) =
      some ((Printf.formatInt (Printf.vaSigned 0 fun _ => uid.toBitVec.setWidth 64) 10 true
        {}).take 11) := by
  have hskip : Printf.skipSpec [100] = [100] := rfl
  have hc : Printf.endsInside decimalFormat.bytes = false := by
    rw [decimalFormat, Printf.endsInside_directive hskip, Printf.endsInside_nil]
  rw [Printf.vsnprintf_eq_take (by decide) hc, Printf.rendered, decimalFormat,
    Printf.items_directive hskip, Printf.items_nil, List.flatMap_singleton]
  rfl

theorem vsnprintf_decimal_eq_iff (uid : UInt32) :
    (Printf.vsnprintf (fun _ => []) 12 decimalFormat fun _ => uid.toBitVec.setWidth 64).getD [] =
      decimalText uid.toNat ↔ uid.toNat < 2 ^ 31 := by
  rw [vsnprintf_decimal, Option.getD_some]
  have htoInt := toInt_vaSigned uid
  generalize Printf.vaSigned 0 (fun _ => uid.toBitVec.setWidth 64) = val at htoInt
  rcases int32_uid uid with ⟨hlt, heq⟩ | ⟨hge, heq⟩
  · refine iff_of_true ?_ hlt
    rw [heq] at htoInt
    have htoNat : val.toNat = uid.toNat := by
      rw [BitVec.toInt_eq_toNat_cond] at htoInt
      split_ifs at htoInt <;> omega
    have hformat : Printf.formatInt val 10 true {} = decimalText uid.toNat := by
      have hneg : ¬val.toInt < 0 := by omega
      have hdigit : (Nat.digits 10 uid.toNat).map (Printf.digit 97) =
          (Nat.digits 10 uid.toNat).map fun d => 48 + .ofNat d :=
        List.map_congr_left fun d hd => if_pos (Nat.digits_lt_base (by decide) hd)
      by_cases hzero : uid.toNat = 0
      · simp [Printf.formatInt, Printf.reverseDigits, Printf.digit, decimalText, hneg, htoNat,
          hzero]
      · simp [Printf.formatInt, Printf.reverseDigits, decimalText, hneg, htoNat, hzero, hdigit]
    rw [hformat, List.take_of_length_le]
    have := length_decimalText_le uid.toNat_lt
    omega
  · refine iff_of_false ?_ (by omega)
    have hlt := uid.toNat_lt
    have hneg : val.toInt < 0 := by omega
    have hformat : ∃ s, Printf.formatInt val 10 true {} = 45 :: s := by
      simp [Printf.formatInt, hneg]
    obtain ⟨s, hs⟩ := hformat
    rw [hs, List.take_succ_cons]
    exact cons_ne_decimalText _ _

end Number

/-! ### The name that is shown -/

section Shows

variable {file line : List Byte} {ls : List (List Byte)} {uid : UInt32} {shown : Shown}
  {i size : ℕ}

/-- The lines are those that a buffer with the beginning of the file holds, or the first of
these. -/
def HeldLines (ls : List (List Byte)) (file : List Byte) : Prop :=
  ∃ buf, buf <+: file ∧ ls <+: lines lineEnd buf

theorem HeldLines.exists_line (h : HeldLines ls file) (hi : ls[i]? = some line) :
    ∃ l, (lines lineEnd file)[i]? = some l ∧ line <+: l := by
  obtain ⟨buf, hbuf, r, hls⟩ := h
  have hlt := (List.getElem?_eq_some_iff.1 hi).1
  refine getElem?_lines_of_prefix hbuf ?_
  rw [← hls, List.getElem?_append_left hlt, hi]

theorem HeldLines.before (h : HeldLines ls file) (hi : ls[i]? = some line) {j : ℕ} (hj : j < i) :
    (lines lineEnd file)[j]? = ls[j]? := by
  obtain ⟨buf, hbuf, r, hls⟩ := h
  have hlt := (List.getElem?_eq_some_iff.1 hi).1
  have hlen := congrArg List.length hls
  rw [List.length_append] at hlen
  rw [getElem?_lines_before hbuf hj (by omega), ← hls, List.getElem?_append_left (by omega)]

/-- **When the name of the line that is taken is right.** -/
theorem userOk_taken_iff (hls : HeldLines ls file) (hfirst : First (Takes uid) ls i line)
    (hshown : shown = ⟨some i, (nameOf line).take (size - 1)⟩) (hsize : 0 < size) :
    UserOk shown file uid ↔ ∃ l, (lines lineEnd file)[i]? = some l ∧ IsUser uid l ∧
      (nameOf line).length < size := by
  obtain ⟨hline, htakes, hbefore⟩ := hfirst
  obtain ⟨l, hl, hpre⟩ := hls.exists_line hline
  have hname := headD_fields_of_prefix htakes hpre
  constructor
  · rintro (⟨j, l', hfirst', heq⟩ | ⟨-, heq⟩)
    · obtain ⟨hi, htext⟩ := Shown.mk.inj (hshown.symm.trans heq)
      obtain rfl := Option.some.inj hi
      obtain rfl := Option.some.inj (hfirst'.1.symm.trans hl)
      rw [hname] at htext
      have hlen := congrArg List.length htext
      rw [List.length_take] at hlen
      exact ⟨l', hl, hfirst'.2.1, by omega⟩
    · obtain ⟨hi, -⟩ := Shown.mk.inj (hshown.symm.trans heq)
      exact absurd hi (Option.some_ne_none i)
  · rintro ⟨l', hl', huser, hlen⟩
    obtain rfl := Option.some.inj (hl.symm.trans hl')
    refine .inl ⟨i, l, ⟨hl, huser, fun j hj l' hl' => ?_⟩, ?_⟩
    · rw [hls.before hline hj] at hl'
      exact fun h => hbefore j hj l' hl' (takes_of_isUser h)
    · rw [hshown, hname, List.take_of_length_le (by omega)]

/-- **When the number is right.** -/
theorem userOk_number_iff {text : List Byte} (hshown : shown = ⟨none, text⟩)
    (htext : text = decimalText uid.toNat ↔ uid.toNat < 2 ^ 31) :
    UserOk shown file uid ↔
      (∀ line ∈ lines lineEnd file, ¬IsUser uid line) ∧ uid.toNat < 2 ^ 31 := by
  rw [← htext]
  constructor
  · rintro (⟨i, line, -, heq⟩ | ⟨hnone, heq⟩)
    · obtain ⟨hi, -⟩ := Shown.mk.inj (hshown.symm.trans heq)
      exact absurd hi.symm (Option.some_ne_none i)
    · exact ⟨hnone, (Shown.mk.inj (hshown.symm.trans heq)).2⟩
  · rintro ⟨hnone, rfl⟩
    exact .inr ⟨hnone, hshown⟩

theorem First.unique {p : List Byte → Prop} {j : ℕ} {l : List Byte} (h : First p ls i line)
    (h' : First p ls j l) : i = j ∧ line = l := by
  obtain rfl : i = j := by
    by_contra hne
    rcases Nat.lt_or_gt_of_ne hne with hlt | hlt
    · exact h'.2.2 i hlt line h.1 h.2.1
    · exact h.2.2 j hlt l h'.1 h'.2.1
  exact ⟨rfl, Option.some.inj (h.1.symm.trans h'.1)⟩

/-- **When a program shows the right name**, which shows what `userLoop` finds, or the number. -/
theorem userOk_iff (hls : HeldLines ls file) (hsize : 0 < size) {text : List Byte}
    (htext : text = decimalText uid.toNat ↔ uid.toNat < 2 ^ 31)
    (hshown : shown = match userLoop size (int32 uid.toNat) 0 ls with
      | some (i, name) => ⟨some i, name⟩
      | none => ⟨none, text⟩) :
    UserOk shown file uid ↔ Finds size ls file uid := by
  rcases userLoop_spec size uid 0 ls with ⟨k, line, hfirst, hloop⟩ | ⟨hnone, hloop⟩
  · rw [hloop] at hshown
    dsimp only at hshown
    rw [Nat.zero_add] at hshown
    rw [userOk_taken_iff hls hfirst hshown hsize]
    constructor
    · intro hright
      refine ⟨fun i l hl => ?_, fun hnone => ?_⟩
      · obtain ⟨rfl, rfl⟩ := hfirst.unique hl
        exact hright
      · exact absurd hfirst.2.1 (hnone line (List.mem_of_getElem? hfirst.1))
    · rintro ⟨hright, -⟩
      exact hright k line hfirst
  · rw [hloop] at hshown
    rw [userOk_number_iff hshown htext]
    constructor
    · refine fun hright => ⟨fun i l hl => ?_, fun _ => hright⟩
      exact absurd hl.2.1 (hnone l (List.mem_of_getElem? hl.1))
    · rintro ⟨-, hright⟩
      exact hright hnone

end Shows

theorem shellUser_ok_iff (file : List Byte) (n : ℕ) (uid : UInt32) :
    UserOk (shellUser file n uid) file uid ↔
      Finds userNameSize (lines lineEnd (held pbufSize n 0 file)) file uid := by
  have hls : HeldLines (lines lineEnd (held pbufSize n 0 file)) file :=
    ⟨_, held_begins _ _ _ _, List.prefix_refl _⟩
  refine userOk_iff hls (by decide) (itoaSigned_eq_iff uid) ?_
  rw [shellUser, scanLines_eq]

theorem topUser_ok_iff (file : List Byte) (n : ℕ) (uid : UInt32) :
    UserOk (topUser file n uid) file uid ↔
      Finds maxUname (cachedLines maxUsers (lines lineEnd (held passwdBufSize n 0 file))) file
        uid := by
  have hls : HeldLines (cachedLines maxUsers (lines lineEnd (held passwdBufSize n 0 file))) file :=
    ⟨_, held_begins _ _ _ _, cachedLines_begins _ _⟩
  refine userOk_iff hls (by decide) (vsnprintf_decimal_eq_iff uid) ?_
  rw [topUser, scanLines_eq, ← uidToName_loadPasswd]
  cases uidToName (loadPasswd maxUsers 0 (lines lineEnd (held passwdBufSize n 0 file)))
    (int32 uid.toNat) with
  | none => rfl
  | some e => rfl

/-- **When the names of users are right.**  For every `/etc/passwd`, every number of bytes that
the two programs read of it, and every uid: the prompt of the shell and `top` show the first
field of the first line whose third field is the numeral of the uid, or the numeral if there is
no such line, exactly if each finds it in the lines that it looks at. -/
theorem passwd_ok_iff (file : List Byte) (n m : ℕ) (uid : UInt32) :
    (UserOk (shellUser file n uid) file uid ∧ UserOk (topUser file m uid) file uid) ↔
      Finds userNameSize (lines lineEnd (held pbufSize n 0 file)) file uid ∧
      Finds maxUname (cachedLines maxUsers (lines lineEnd (held passwdBufSize m 0 file))) file
        uid :=
  and_congr (shellUser_ok_iff file n uid) (topUser_ok_iff file m uid)

/-- **A line with an empty uid**, `x:x:`, is taken for that of uid 0. -/
theorem not_passwdOk : ¬(UserOk (shellUser [120, 58, 120, 58] 4 0) [120, 58, 120, 58] 0 ∧
    UserOk (topUser [120, 58, 120, 58] 4 0) [120, 58, 120, 58] 0) := by
  rintro ⟨hshell, -⟩
  have hlines : lines lineEnd [120, 58, 120, 58] = [[120, 58, 120, 58]] := by
    rw [lines_of_notMem (by decide), if_neg (by decide)]
  have hheld : held pbufSize 4 0 ([120, 58, 120, 58] : List Byte) = [120, 58, 120, 58] := by decide
  have htakes : Takes 0 [120, 58, 120, 58] := ⟨[120], by decide⟩
  rw [shellUser_ok_iff, hheld, hlines] at hshell
  obtain ⟨l, hl, huser, -⟩ := hshell.1 0 _ (first_cons htakes)
  rw [hlines] at hl
  obtain rfl := Option.some.inj hl
  exact absurd huser (by decide)

end Tools
end V6User
