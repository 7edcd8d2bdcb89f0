import Mathlib.Data.List.DropRight
import V6User.Base.Latest
import V6User.Tools.ParseIp4
import V6User.Tools.Startup

/-!
# The network configuration

`programs/init/init.c`: `my_strncmp`, `skip_ws`, `copy_value` and `configure_network`.

One read fills `buf` with `/etc/network.conf`, a line may set the mode, one of four addresses or
the name of the host, and the request that is made of them is written to `/dev/netconf`.  What a
line says is a relation (`Says`): blanks may stand in front of a key and in front of its value, an
address ends where `parse_ip4` ends it, and a name ends at a comment, without the blanks in front
of it.  The request has, for each of its fields, what the last line says that sets it
(`configureNetwork_reads`).

`NETCONF_HOSTNAME_MAX` and the numbers of the modes come from the kernel's headers.
-/

namespace V6User
namespace Tools
namespace NetworkConf

open CInt Lines Numeral
open Shell (Byte)

/-! ### The code -/

/-- `my_strncmp(a, b, n)`. -/
def myStrncmp : List Byte → List Byte → ℕ → ℤ
  | _, _, 0 => 0
  | a, b, n + 1 =>
    if a.headD 0 ≠ b.headD 0 then (a.headD 0).toNat - (b.headD 0).toNat
    else if a.headD 0 = 0 then 0
    else myStrncmp a.tail b.tail n

/-- `skip_ws(s)`. -/
def skipWs (s : List Byte) : List Byte := s.dropWhile isSeparator

/-- What ends a value: a newline, a carriage return or `'#'`. -/
def valueEnds : List Byte := [10, 13, 35]

/-- `copy_value(dst, maxlen, src)`: what is in `dst` then. -/
def copyValue (dst : List Byte) (maxlen : ℕ) (src : List Byte) : List Byte :=
  let value := ((src.take (maxlen - 1)).takeWhile (· ∉ valueEnds)).rdropWhile isSeparator
  value ++ 0 :: dst.drop (value.length + 1)

/-- `NETCONF_MODE_DHCP` and `NETCONF_MODE_STATIC`. -/
inductive Mode where
  | dhcp
  | static
  deriving DecidableEq

/-- `struct netconf_req`. -/
structure NetconfReq where
  mode : Mode
  ip : UInt32
  netmask : UInt32
  gateway : UInt32
  dns : UInt32
  hostname : List Byte
  deriving DecidableEq

/-- `mode=`. -/
def modeKey : List Byte := [109, 111, 100, 101, 61]

/-- `static`. -/
def staticWord : List Byte := [115, 116, 97, 116, 105, 99]

/-- `ip=`. -/
def ipKey : List Byte := [105, 112, 61]

/-- `netmask=`. -/
def netmaskKey : List Byte := [110, 101, 116, 109, 97, 115, 107, 61]

/-- `gateway=`. -/
def gatewayKey : List Byte := [103, 97, 116, 101, 119, 97, 121, 61]

/-- `dns=`. -/
def dnsKey : List Byte := [100, 110, 115, 61]

/-- `hostname=`. -/
def hostnameKey : List Byte := [104, 111, 115, 116, 110, 97, 109, 101, 61]

/-- `xv6`. -/
def defaultName : List Byte := [120, 118, 54]

/-- What a line does to the request. -/
def configLine (max : ℕ) (req : NetconfReq) (line : List Byte) : NetconfReq :=
  let p := skipWs line
  if p = [] ∨ p.head? = some 35 then req
  else if myStrncmp p modeKey 5 = 0 then
    if myStrncmp (skipWs (p.drop 5)) staticWord 6 = 0 then { req with mode := .static }
    else { req with mode := .dhcp }
  else if myStrncmp p ipKey 3 = 0 then
    { req with ip := (parseIp4 (skipWs (p.drop 3)) req.ip).2 }
  else if myStrncmp p netmaskKey 8 = 0 then
    { req with netmask := (parseIp4 (skipWs (p.drop 8)) req.netmask).2 }
  else if myStrncmp p gatewayKey 8 = 0 then
    { req with gateway := (parseIp4 (skipWs (p.drop 8)) req.gateway).2 }
  else if myStrncmp p dnsKey 4 = 0 then
    { req with dns := (parseIp4 (skipWs (p.drop 4)) req.dns).2 }
  else if myStrncmp p hostnameKey 9 = 0 then
    { req with hostname := copyValue req.hostname max (skipWs (p.drop 9)) }
  else req

/-- The request before the file is read. -/
def defaultReq (max : ℕ) : NetconfReq :=
  ⟨.dhcp, 0, 0, 0, 0, defaultName ++ List.replicate (max - 3) 0⟩

/-- The string in `buf`: nothing where the file cannot be opened or read, else what a read of so
many bytes gives. -/
def configText (file : Option (List Byte)) (n : Option ℕ) : List Byte :=
  match file, n with
  | some file, some n => held 1024 n 0 file
  | _, _ => []

/-- `configure_network()`: the request that is written, and what is printed.  `device` is what
the `write` to `/dev/netconf` returns, if this can be opened. -/
def configureNetwork (max : ℕ) (file : Option (List Byte)) (n : Option ℕ) (device : Option ℤ) :
    Option NetconfReq × String :=
  let req := (scanLines lineEnd (configText file n)).foldl (configLine max) (defaultReq max)
  match device with
  | none => (none, "init: /dev/netconf unavailable\n")
  | some ret =>
    if ret < 0 then (some req, "init: /dev/netconf write failed\n")
    else (some req, "init: network configured (" ++
      (if req.mode = .dhcp then "dhcp" else "static") ++ ")\n")

/-! ### What the file says -/

/-- The addresses of a request. -/
inductive Address where
  | ip
  | netmask
  | gateway
  | dns
  deriving DecidableEq

/-- The key of an address. -/
def Address.key : Address → List Byte
  | ip => ipKey
  | netmask => netmaskKey
  | gateway => gatewayKey
  | dns => dnsKey

/-- An address of a request. -/
def NetconfReq.word (req : NetconfReq) : Address → UInt32
  | .ip => req.ip
  | .netmask => req.netmask
  | .gateway => req.gateway
  | .dns => req.dns

/-- The request with another address. -/
def NetconfReq.setWord (req : NetconfReq) (w : UInt32) : Address → NetconfReq
  | .ip => { req with ip := w }
  | .netmask => { req with netmask := w }
  | .gateway => { req with gateway := w }
  | .dns => { req with dns := w }

/-- What a line sets: the mode, an address with its four numbers, or the name of the host. -/
inductive Setting where
  | mode (m : Mode)
  | address (a : Address) (ts : List Decimal)
  | hostname (name : List Byte)

/-- Spaces and tabs. -/
def Blanks (ws : List Byte) : Prop := ∀ c ∈ ws, isSeparator c = true

instance (ws : List Byte) : Decidable (Blanks ws) :=
  inferInstanceAs (Decidable (∀ c ∈ ws, isSeparator c = true))

/-- The keys. -/
def keys : List (List Byte) :=
  [modeKey, ipKey, netmaskKey, gatewayKey, dnsKey, hostnameKey]

/-- What a line says.  A line that is empty, a comment or unknown sets nothing, nor does an
address that is none.  Four numbers of which none is from 256 to 2^31 - 1, but some are greater, are
left out: `parse_ip4` reads them in an `int` that wraps, and a line with them says nothing at all
here. -/
inductive Says : List Byte → Option Setting → Prop
  | nothing {ws p : List Byte} (hws : Blanks ws) (hp : ∀ c ∈ p.head?, isSeparator c = false)
      (hkeys : ∀ k ∈ keys, ¬k <+: p) : Says (ws ++ p) none
  | static {ws ws' rest : List Byte} (hws : Blanks ws) (hws' : Blanks ws') :
      Says (ws ++ modeKey ++ ws' ++ staticWord ++ rest) (some (.mode .static))
  | dhcp {ws ws' word : List Byte} (hws : Blanks ws) (hws' : Blanks ws')
      (hword : ∀ c ∈ word.head?, isSeparator c = false) (hstatic : ¬staticWord <+: word) :
      Says (ws ++ modeKey ++ ws' ++ word) (some (.mode .dhcp))
  | address {ws ws' s : List Byte} {ts : List Decimal} (a : Address) (hws : Blanks ws)
      (hws' : Blanks ws') (hs : IsAddress s ts) :
      Says (ws ++ a.key ++ ws' ++ s) (some (.address a ts))
  | noAddress {ws ws' s : List Byte} (a : Address) (hws : Blanks ws) (hws' : Blanks ws')
      (hblank : ∀ c ∈ s.head?, isSeparator c = false)
      (hs : ∀ ts, Dotted s ts → ts.length = 4 → ∃ t ∈ ts, 255 < t.value 10 ∧ t.value 10 < 2 ^ 31) :
      Says (ws ++ a.key ++ ws' ++ s) none
  | hostname {ws ws' name blanks rest : List Byte} (hws : Blanks ws) (hws' : Blanks ws')
      (hblanks : Blanks blanks) (hname : ∀ c ∈ name, c ∉ valueEnds)
      (hfirst : ∀ c ∈ name.head?, isSeparator c = false)
      (hlast : ∀ c ∈ name.getLast?, isSeparator c = false)
      (hrest : ∀ c ∈ rest.head?, c ∈ valueEnds) :
      Says (ws ++ hostnameKey ++ ws' ++ name ++ blanks ++ rest) (some (.hostname name))

/-- The mode that a line sets. -/
def modeOf : Option Setting → Option Mode
  | some (.mode m) => some m
  | _ => none

/-- The name that a line sets. -/
def nameOf : Option Setting → Option (List Byte)
  | some (.hostname name) => some name
  | _ => none

/-- The numbers that a line sets an address to. -/
def numbersOf (a : Address) : Option Setting → Option (List ℕ)
  | some (.address a' ts) => if a' = a then some (ts.map (Digits.value 10)) else none
  | _ => none

/-- The string in a buffer. -/
def str (buf : List Byte) : List Byte := buf.takeWhile (· ≠ 0)

/-- A name as it is kept in `max` bytes: cut, and without the blanks at its end. -/
def fitted (max : ℕ) (name : List Byte) : List Byte :=
  (name.take (max - 1)).rdropWhile isSeparator

/-! ### The steps of a line -/

section Line

variable {s k p ws rest : List Byte} {n max : ℕ} {req : NetconfReq}

/-- `my_strncmp` tells whether a string begins with a key. -/
theorem myStrncmp_eq_zero_iff (hk : 0 ∉ k) : myStrncmp s k k.length = 0 ↔ k <+: s := by
  induction k generalizing s with
  | nil => exact ⟨fun _ => List.nil_prefix, fun _ => rfl⟩
  | cons c k ih =>
    have hc : c ≠ 0 := fun hc => hk (hc ▸ List.mem_cons_self)
    have hk' : 0 ∉ k := fun hmem => hk (List.mem_cons_of_mem c hmem)
    rw [List.length_cons, myStrncmp]
    cases s with
    | nil =>
      have hpos : c.toNat ≠ 0 := fun hzero => hc (UInt8.toNat_inj.1 hzero)
      have hne : List.headD ([] : List Byte) 0 ≠ List.headD (c :: k) 0 := hc.symm
      rw [if_pos hne]
      refine ⟨fun hzero => absurd hzero ?_, fun h => absurd (List.prefix_nil.1 h) nofun⟩
      show ((0 : ℕ) : ℤ) - (c.toNat : ℤ) ≠ 0
      omega
    | cons d s =>
      rw [List.cons_prefix_cons]
      show (if d ≠ c then (d.toNat : ℤ) - c.toNat else if d = 0 then 0 else _) = 0 ↔ _
      by_cases hd : d = c
      · subst hd
        rw [if_neg (not_not.2 rfl), if_neg hc]
        exact (ih hk').trans ⟨fun h => ⟨rfl, h⟩, fun h => h.2⟩
      · have hne : d.toNat ≠ c.toNat := fun heq => hd (UInt8.toNat_inj.1 heq)
        rw [if_pos hd]
        refine ⟨fun hzero => absurd hzero (by omega), fun h => absurd h.1.symm hd⟩

theorem skipWs_append (hws : Blanks ws) (hp : ∀ c ∈ p.head?, isSeparator c = false) :
    skipWs (ws ++ p) = p := by
  rw [skipWs, List.dropWhile_append_of_pos hws]
  cases p with
  | nil => rfl
  | cons c p => exact List.dropWhile_cons_of_neg (by simpa using hp c rfl)

theorem keys_head : ∀ k ∈ keys, ∀ k' ∈ keys, k.head? = k'.head? → k = k' := by decide +kernel

theorem keys_ne_nil : ∀ k ∈ keys, k ≠ [] ∧ 0 ∉ k := by decide +kernel

theorem keys_blank : ∀ k ∈ keys, ∀ c ∈ k.head?, isSeparator c = false ∧ c ≠ 35 := by decide +kernel

/-- Of the keys only its own is found in front of a line. -/
theorem test_iff (hk : k ∈ keys) {k' : List Byte} (hk' : k' ∈ keys) (r : List Byte) :
    myStrncmp (k ++ r) k' k'.length = 0 ↔ k' = k := by
  rw [myStrncmp_eq_zero_iff (keys_ne_nil k' hk').2]
  constructor
  · rintro ⟨t, ht⟩
    refine keys_head k' hk' k hk ?_
    rw [← List.head?_append_of_ne_nil k' (keys_ne_nil k' hk').1, ht,
      List.head?_append_of_ne_nil k (keys_ne_nil k hk).1]
  · rintro rfl
    exact List.prefix_append k' r

/-- A line with a key begins with it. -/
theorem skipWs_key (hws : Blanks ws) (hk : k ∈ keys) (r : List Byte) :
    skipWs (ws ++ (k ++ r)) = k ++ r ∧ ¬(k ++ r = [] ∨ (k ++ r).head? = some 35) := by
  obtain ⟨hne, -⟩ := keys_ne_nil k hk
  obtain ⟨c, k', rfl⟩ := List.exists_cons_of_ne_nil hne
  obtain ⟨hblank, hcomment⟩ := keys_blank _ hk c rfl
  refine ⟨skipWs_append hws fun d hd => ?_, ?_⟩
  · rw [← Option.some.inj hd, hblank]
  · rintro (hnil | hhead)
    · exact absurd hnil (List.cons_ne_nil _ _)
    · exact hcomment (Option.some.inj hhead)

theorem configLine_nothing (hws : Blanks ws) (hp : ∀ c ∈ p.head?, isSeparator c = false)
    (hkeys : ∀ k ∈ keys, ¬k <+: p) : configLine max req (ws ++ p) = req := by
  have htest : ∀ k ∈ keys, ¬myStrncmp p k k.length = 0 := fun k hk hzero =>
    hkeys k hk ((myStrncmp_eq_zero_iff (keys_ne_nil k hk).2).1 hzero)
  unfold configLine
  rw [skipWs_append hws hp]
  dsimp only
  split_ifs with _ hmode hstatic hip hmask hgate hdns hname
  · rfl
  · exact absurd hmode (htest modeKey (by decide))
  · exact absurd hmode (htest modeKey (by decide))
  · exact absurd hip (htest ipKey (by decide))
  · exact absurd hmask (htest netmaskKey (by decide))
  · exact absurd hgate (htest gatewayKey (by decide))
  · exact absurd hdns (htest dnsKey (by decide))
  · exact absurd hname (htest hostnameKey (by decide))
  · rfl

theorem configLine_mode (hws : Blanks ws) (r : List Byte) :
    configLine max req (ws ++ (modeKey ++ r)) =
      { req with mode := if staticWord <+: skipWs r then .static else .dhcp } := by
  have hmem : modeKey ∈ keys := by decide
  obtain ⟨hskip, hsome⟩ := skipWs_key hws hmem r
  have htest : myStrncmp (modeKey ++ r) modeKey 5 = 0 := (test_iff hmem hmem r).2 rfl
  have hdrop : (modeKey ++ r).drop 5 = r := rfl
  have hstatic : myStrncmp (skipWs r) staticWord 6 = 0 ↔ staticWord <+: skipWs r :=
    myStrncmp_eq_zero_iff (by decide)
  unfold configLine
  rw [hskip]
  dsimp only
  rw [if_neg hsome, if_pos htest, hdrop]
  by_cases h : staticWord <+: skipWs r
  · rw [if_pos (hstatic.2 h), if_pos h]
  · rw [if_neg (mt hstatic.1 h), if_neg h]

theorem Address.key_mem (a : Address) : a.key ∈ keys := by
  cases a <;> decide

theorem configLine_address (a : Address) (hws : Blanks ws) (r : List Byte) :
    configLine max req (ws ++ (a.key ++ r)) =
      req.setWord (parseIp4 (skipWs r) (req.word a)).2 a := by
  obtain ⟨hskip, hsome⟩ := skipWs_key hws a.key_mem r
  have htest : ∀ k ∈ keys, (myStrncmp (a.key ++ r) k k.length = 0 ↔ k = a.key) :=
    fun k hk => test_iff a.key_mem hk r
  have hmode : myStrncmp (a.key ++ r) modeKey 5 = 0 ↔ _ := htest modeKey (by decide)
  have hip : myStrncmp (a.key ++ r) ipKey 3 = 0 ↔ _ := htest ipKey (by decide)
  have hmask : myStrncmp (a.key ++ r) netmaskKey 8 = 0 ↔ _ := htest netmaskKey (by decide)
  have hgate : myStrncmp (a.key ++ r) gatewayKey 8 = 0 ↔ _ := htest gatewayKey (by decide)
  have hdns : myStrncmp (a.key ++ r) dnsKey 4 = 0 ↔ _ := htest dnsKey (by decide)
  have hdrop : (a.key ++ r).drop a.key.length = r := List.drop_left
  unfold configLine
  rw [hskip]
  dsimp only
  cases a with
  | ip =>
    rw [if_neg hsome, if_neg (mt hmode.1 (by decide)), if_pos (hip.2 rfl)]
    exact congrArg (fun r => { req with ip := (parseIp4 (skipWs r) req.ip).2 }) hdrop
  | netmask =>
    rw [if_neg hsome, if_neg (mt hmode.1 (by decide)), if_neg (mt hip.1 (by decide)),
      if_pos (hmask.2 rfl)]
    exact congrArg (fun r => { req with netmask := (parseIp4 (skipWs r) req.netmask).2 }) hdrop
  | gateway =>
    rw [if_neg hsome, if_neg (mt hmode.1 (by decide)), if_neg (mt hip.1 (by decide)),
      if_neg (mt hmask.1 (by decide)), if_pos (hgate.2 rfl)]
    exact congrArg (fun r => { req with gateway := (parseIp4 (skipWs r) req.gateway).2 }) hdrop
  | dns =>
    rw [if_neg hsome, if_neg (mt hmode.1 (by decide)), if_neg (mt hip.1 (by decide)),
      if_neg (mt hmask.1 (by decide)), if_neg (mt hgate.1 (by decide)), if_pos (hdns.2 rfl)]
    exact congrArg (fun r => { req with dns := (parseIp4 (skipWs r) req.dns).2 }) hdrop

theorem configLine_hostname (hws : Blanks ws) (r : List Byte) :
    configLine max req (ws ++ (hostnameKey ++ r)) =
      { req with hostname := copyValue req.hostname max (skipWs r) } := by
  have hmem : hostnameKey ∈ keys := by decide
  obtain ⟨hskip, hsome⟩ := skipWs_key hws hmem r
  have htest : ∀ k ∈ keys, (myStrncmp (hostnameKey ++ r) k k.length = 0 ↔ k = hostnameKey) :=
    fun k hk => test_iff hmem hk r
  have hmode : myStrncmp (hostnameKey ++ r) modeKey 5 = 0 ↔ _ := htest modeKey (by decide)
  have hip : myStrncmp (hostnameKey ++ r) ipKey 3 = 0 ↔ _ := htest ipKey (by decide)
  have hmask : myStrncmp (hostnameKey ++ r) netmaskKey 8 = 0 ↔ _ := htest netmaskKey (by decide)
  have hgate : myStrncmp (hostnameKey ++ r) gatewayKey 8 = 0 ↔ _ := htest gatewayKey (by decide)
  have hdns : myStrncmp (hostnameKey ++ r) dnsKey 4 = 0 ↔ _ := htest dnsKey (by decide)
  have hname : myStrncmp (hostnameKey ++ r) hostnameKey 9 = 0 := (htest hostnameKey hmem).2 rfl
  have hdrop : (hostnameKey ++ r).drop 9 = r := rfl
  unfold configLine
  rw [hskip]
  dsimp only
  rw [if_neg hsome, if_neg (mt hmode.1 (by decide)), if_neg (mt hip.1 (by decide)),
    if_neg (mt hmask.1 (by decide)), if_neg (mt hgate.1 (by decide)),
    if_neg (mt hdns.1 (by decide)), if_pos hname, hdrop]

end Line

/-! ### The name of the host -/

section Name

variable {name blanks rest dst ws : List Byte} {max n : ℕ}

theorem not_valueEnds_of_blank {c : Byte} (h : isSeparator c = true) : c ∉ valueEnds := by
  rcases Bool.or_eq_true_iff.1 h with hc | hc
  · rw [eq_of_beq hc]
    decide
  · rw [eq_of_beq hc]
    decide

/-- Blanks at the end go. -/
theorem rdropWhile_append (name : List Byte) (h : Blanks blanks) :
    (name ++ blanks).rdropWhile isSeparator = name.rdropWhile isSeparator := by
  unfold List.rdropWhile
  rw [List.reverse_append,
    List.dropWhile_append_of_pos fun c hc => h c (List.mem_reverse.1 hc)]

/-- What is copied of a value. -/
theorem copyValue_eq (hname : ∀ c ∈ name, c ∉ valueEnds) (hblanks : Blanks blanks)
    (hrest : ∀ c ∈ rest.head?, c ∈ valueEnds) : ∃ tail,
      copyValue dst max (name ++ blanks ++ rest) = fitted max name ++ 0 :: tail := by
  have hall : ∀ c ∈ name ++ blanks, decide (c ∉ valueEnds) = true := by
    intro c hc
    rcases List.mem_append.1 hc with hc | hc
    · exact decide_eq_true (hname c hc)
    · exact decide_eq_true (not_valueEnds_of_blank (hblanks c hc))
  have htake : (name ++ blanks ++ rest).takeWhile (· ∉ valueEnds) = name ++ blanks := by
    rw [List.takeWhile_append_of_pos hall]
    cases rest with
    | nil => rw [List.takeWhile_nil, List.append_nil]
    | cons c rest =>
      have hstop : (c :: rest).takeWhile (· ∉ valueEnds) = [] :=
        List.takeWhile_cons_of_neg (by simpa using hrest c rfl)
      rw [hstop, List.append_nil]
  have hvalue : (((name ++ blanks ++ rest).take (max - 1)).takeWhile (· ∉ valueEnds)).rdropWhile
      isSeparator = fitted max name := by
    rw [← List.take_takeWhile, htake, List.take_append,
      rdropWhile_append _ fun c hc => hblanks c (List.mem_of_mem_take hc)]
    rfl
  unfold copyValue
  rw [hvalue]
  exact ⟨_, rfl⟩

theorem mem_of_mem_fitted {c : Byte} (h : c ∈ fitted max name) : c ∈ name :=
  List.mem_of_mem_take ((List.rdropWhile_prefix _ _).subset h)

theorem str_append (h : 0 ∉ name) (tail : List Byte) : str (name ++ 0 :: tail) = name := by
  have hall : ∀ c ∈ name, decide (c ≠ 0) = true := fun c hc =>
    decide_eq_true fun hzero => h (hzero ▸ hc)
  rw [str, List.takeWhile_append_of_pos hall, List.takeWhile_cons_of_neg (by simp),
    List.append_nil]

end Name

/-! ### What a line does -/

section Says

variable {line : List Byte} {s : Option Setting} {max : ℕ} {req : NetconfReq}

@[simp] theorem setWord_mode (w : UInt32) (a : Address) : (req.setWord w a).mode = req.mode := by
  cases a <;> rfl

@[simp] theorem setWord_hostname (w : UInt32) (a : Address) :
    (req.setWord w a).hostname = req.hostname := by
  cases a <;> rfl

@[simp] theorem setWord_word (w : UInt32) (a a' : Address) :
    (req.setWord w a).word a' = if a = a' then w else req.word a' := by
  cases a <;> cases a' <;> rfl

theorem setWord_self (a : Address) : req.setWord (req.word a) a = req := by
  cases a <;> rfl

/-- What a line does that sets `s`. -/
structure Sets (max : ℕ) (s : Option Setting) (req req' : NetconfReq) : Prop where
  mode : req'.mode = (modeOf s).getD req.mode
  word : ∀ a, (req'.word a).toNat =
    ((numbersOf a s).map (Nat.ofDigits 256)).getD (req.word a).toNat
  hostname : str req'.hostname = ((nameOf s).map (fitted max)).getD (str req.hostname)

theorem Sets.nothing : Sets max none req req := ⟨rfl, fun _ => rfl, rfl⟩

theorem address_head {t : List Byte} {ts : List Decimal} (h : IsAddress t ts) :
    ∀ c ∈ t.head?, isSeparator c = false := by
  obtain ⟨⟨hne, rest, rfl, -⟩, -, -⟩ := h
  obtain ⟨t, ts, rfl⟩ := List.exists_cons_of_ne_nil hne
  obtain ⟨d, ds, hd⟩ := List.exists_cons_of_ne_nil t.ne_nil
  have hdigit := t.valid d (hd ▸ List.mem_cons_self)
  have hhead : ([dot].intercalate ((t :: ts).map Digits.chars) ++ rest).head? = some d := by
    cases ts with
    | nil => simp [hd]
    | cons u ts =>
      rw [List.map_cons, List.map_cons, List.intercalate_cons_cons, hd]
      rfl
  intro c hc
  rw [hhead] at hc
  obtain rfl := Option.some.inj hc
  by_contra hblank
  rw [Bool.not_eq_false, isSeparator, Bool.or_eq_true_iff] at hblank
  rcases hblank with h | h
  · rw [eq_of_beq h] at hdigit
    cases hdigit
  · rw [eq_of_beq h] at hdigit
    cases hdigit

theorem length_le_of_dotted {t : List Byte} {ts : List Decimal} (h : Dotted t ts) {d : Decimal}
    (hd : d ∈ ts) : d.chars.length ≤ t.length := by
  induction ts generalizing t with
  | nil => exact absurd hd List.not_mem_nil
  | cons u us ih =>
    cases us with
    | nil =>
      obtain ⟨rest, rfl, -⟩ := dotted_singleton.1 h
      rw [List.mem_singleton.1 hd, List.length_append]
      exact Nat.le_add_right _ _
    | cons u' us =>
      obtain ⟨t', rfl, hrest⟩ := dotted_cons_cons.1 h
      rw [List.length_append, List.length_cons]
      rcases List.mem_cons.1 hd with rfl | hd
      · exact Nat.le_add_right _ _
      · have := ih hrest hd
        omega

/-- An address is read. -/
theorem parseIp4_address {t : List Byte} {ts : List Decimal} (h : IsAddress t ts)
    (hlen : t.length < 2 ^ 31) (out : UInt32) :
    (parseIp4 t out).2.toNat = Nat.ofDigits 256 (ts.map (Digits.value 10)) := by
  obtain ⟨hdotted, hfour, hsmall⟩ := h
  have htaken : ∀ d ∈ ts, Taken d := by
    intro d hd
    have hle := length_le_of_dotted hdotted hd
    have hpos : 0 < d.chars.length := List.length_pos_iff.2 d.ne_nil
    have hval := hsmall d hd
    have hcount : int32 d.chars.length = d.chars.length := int32_of_range (by omega) (by omega)
    have hnum : int32 (d.value 10) = d.value 10 := int32_of_range (by omega) (by omega)
    exact ⟨by omega, by omega⟩
  rw [parseIp4_dotted hdotted, if_pos ⟨htaken, hfour⟩]
  exact toNat_networkOrder_of_small hfour hsmall

/-- What is no address leaves the word as it is. -/
theorem parseIp4_none {t : List Byte} (h : ∀ ts, Dotted t ts → ts.length = 4 →
    ∃ d ∈ ts, 255 < d.value 10 ∧ d.value 10 < 2 ^ 31) (out : UInt32) :
    parseIp4 t out = (-1, out) := by
  rcases hloop : ip4Loop [] 0 0 t with _ | ps
  · rw [parseIp4, hloop]
  · obtain ⟨ts, hts⟩ := dotted_of_ip4Loop hloop
    rw [parseIp4_dotted hts, if_neg]
    rintro ⟨htaken, hfour⟩
    obtain ⟨d, hd, hlow, hhigh⟩ := h ts hts hfour
    have hnum : int32 (d.value 10) = d.value 10 := int32_of_range (by omega) (by omega)
    have hle := (htaken d hd).2
    omega

/-- **A line sets what it says.** -/
theorem Says.sets (h : Says line s) (hnul : 0 ∉ line) (hlen : line.length < 2 ^ 31) :
    Sets max s req (configLine max req line) := by
  cases h with
  | nothing hws hp hkeys =>
    rw [configLine_nothing hws hp hkeys]
    exact .nothing
  | @static ws ws' rest hws hws' =>
    have hskip : skipWs (ws' ++ (staticWord ++ rest)) = staticWord ++ rest :=
      skipWs_append hws' fun c hc => by
        rw [← Option.some.inj hc]
        rfl
    rw [List.append_assoc, List.append_assoc, List.append_assoc, configLine_mode hws, hskip,
      if_pos (List.prefix_append _ _)]
    exact ⟨rfl, fun _ => rfl, rfl⟩
  | @dhcp ws ws' word hws hws' hword hstatic =>
    rw [List.append_assoc, List.append_assoc, configLine_mode hws, skipWs_append hws' hword,
      if_neg hstatic]
    exact ⟨rfl, fun _ => rfl, rfl⟩
  | @address ws ws' t ts a hws hws' ht =>
    have hle : t.length < 2 ^ 31 := by
      rw [List.length_append] at hlen
      omega
    rw [List.append_assoc, List.append_assoc, configLine_address a hws,
      skipWs_append hws' (address_head ht)]
    refine ⟨setWord_mode _ a, fun a' => ?_, congrArg str (setWord_hostname _ a)⟩
    rw [setWord_word, numbersOf]
    split_ifs with ha
    · exact parseIp4_address ht hle _
    · rfl
  | @noAddress ws ws' t a hws hws' hblank ht =>
    rw [List.append_assoc, List.append_assoc, configLine_address a hws,
      skipWs_append hws' hblank, parseIp4_none ht, setWord_self]
    exact .nothing
  | @hostname ws ws' name blanks rest hws hws' hblanks hname hfirst hlast hrest =>
    have hnul' : 0 ∉ fitted max name := fun hmem => hnul (by simp [mem_of_mem_fitted hmem])
    have hskip : ∃ blanks', Blanks blanks' ∧
        skipWs (ws' ++ (name ++ (blanks ++ rest))) = name ++ blanks' ++ rest := by
      cases name with
      | nil =>
        refine ⟨[], fun _ hc => absurd hc List.not_mem_nil, ?_⟩
        have hall : Blanks (ws' ++ blanks) := fun c hc =>
          (List.mem_append.1 hc).elim (hws' c) (hblanks c)
        rw [List.nil_append, ← List.append_assoc]
        refine skipWs_append hall fun c hc => ?_
        by_contra hblank
        exact not_valueEnds_of_blank (Bool.not_eq_false _ ▸ hblank) (hrest c hc)
      | cons d name =>
        refine ⟨blanks, hblanks, ?_⟩
        rw [List.append_assoc]
        exact skipWs_append (p := d :: name ++ (blanks ++ rest)) hws' hfirst
    obtain ⟨blanks', hblanks', hskip⟩ := hskip
    obtain ⟨tail, htail⟩ := @copyValue_eq name blanks' rest req.hostname max hname hblanks' hrest
    rw [List.append_assoc, List.append_assoc, List.append_assoc, List.append_assoc,
      configLine_hostname hws, hskip, htail]
    exact ⟨rfl, fun _ => rfl, str_append hnul' tail⟩

end Says

/-! ### The request -/

section Request

variable {file : Option (List Byte)} {n : Option ℕ} {settings : List (Option Setting)} {max : ℕ}

theorem notMem_configText (file : Option (List Byte)) (n : Option ℕ) :
    0 ∉ configText file n ∧ (configText file n).length ≤ 1024 := by
  unfold configText
  split
  · exact ⟨notMem_held _ _ _ _, length_held_le _ _ _ _⟩
  · exact ⟨List.not_mem_nil, Nat.zero_le _⟩

/-- **What is written to `/dev/netconf`.**  When the lines that were read say `settings`, so that
none of them has an address of numbers that wrap, the request that is written has in each field what
the last line says that sets it, or else the default, and the name of the host as far as there is
room for it. -/
theorem configureNetwork_reads (hmax : 4 ≤ max)
    (hlines : List.Forall₂ Says (lines lineEnd (configText file n)) settings) (ret : ℤ) :
    ∃ req, (configureNetwork max file n (some ret)).1 = some req ∧
      req.mode = (settings.filterMap modeOf).getLast?.getD .dhcp ∧
      (∀ a, (req.word a).toNat =
        ((settings.filterMap (numbersOf a)).getLast?.map (Nat.ofDigits 256)).getD 0) ∧
      str req.hostname =
        ((settings.filterMap nameOf).getLast?.map (fitted max)).getD defaultName := by
  obtain ⟨hnul, hlen⟩ := notMem_configText file n
  have hsets : List.Forall₂ (fun line s => (0 ∉ line ∧ line.length < 2 ^ 31) ∧ Says line s)
      (lines lineEnd (configText file n)) settings := by
    refine (List.forall₂_and_left _ _).2 ⟨fun line hline => ⟨fun hzero => ?_, ?_⟩, hlines⟩
    · exact hnul (mem_of_mem_lines hline hzero)
    · have := length_le_of_mem_lines hline
      omega
  have hstep : ∀ req line s, (0 ∉ line ∧ line.length < 2 ^ 31) ∧ Says line s →
      Sets max s req (configLine max req line) := fun req line s h => h.2.sets h.1.1 h.1.2
  have hname : str (defaultReq max).hostname = defaultName := by
    obtain ⟨k, hk⟩ : ∃ k, max - 3 = k + 1 := ⟨max - 4, by omega⟩
    rw [defaultReq, hk, List.replicate_succ]
    exact str_append (by decide) _
  have hmode := Latest.foldl_override hsets (fun req line s h =>
    (hstep req line s h).mode.trans (by rw [Option.map_id'])) (defaultReq max)
  have hword := fun a => @Latest.foldl_override _ _ _ _ _ _
    (fun req : NetconfReq => (req.word a).toNat) (numbersOf a) (Nat.ofDigits 256) _ _ _ hsets
    (fun req line s h => (hstep req line s h).word a) (defaultReq max)
  have hhost := @Latest.foldl_override _ _ _ _ _ _
    (fun req : NetconfReq => str req.hostname) nameOf (fitted max) _ _ _ hsets
    (fun req line s h => (hstep req line s h).hostname) (defaultReq max)
  rw [hname] at hhost
  refine ⟨(scanLines lineEnd (configText file n)).foldl (configLine max) (defaultReq max), ?_,
    ?_, fun a => ?_, ?_⟩
  · rw [configureNetwork]
    split_ifs <;> rfl
  · rw [scanLines_eq, hmode, Option.map_id']
    rfl
  · rw [scanLines_eq, hword a]
    cases a <;> rfl
  · rw [scanLines_eq, hhost]

/-- `mode= static`. -/
def smallMode : List Byte := [] ++ modeKey ++ [32] ++ staticWord ++ []

/-- `ip=10.0.0.2#a`. -/
def smallAddress : List Byte :=
  [] ++ ipKey ++ [] ++ [49, 48, 46, 48, 46, 48, 46, 50, 35, 97]

/-- ` hostname=box  #b`. -/
def smallHost : List Byte := [32] ++ hostnameKey ++ [] ++ [98, 111, 120] ++ [32, 32] ++ [35, 98]

/-- `#c`, `mode= static`, `ip=10.0.0.2#a` and ` hostname=box  #b`. -/
def smallFile : List Byte :=
  [35, 99] ++ 10 :: (smallMode ++ 10 :: (smallAddress ++ 10 :: (smallHost ++ [10])))

theorem configureNetwork_reads_small : ∃ req,
    (configureNetwork 64 (some smallFile) (some 100) (some 0)).1 = some req ∧
      req.mode = .static ∧ (req.word .ip).toNat = Nat.ofDigits 256 [10, 0, 0, 2] ∧
      str req.hostname = [98, 111, 120] := by
  have hlines : lines lineEnd (configText (some smallFile) (some 100)) =
      [[] ++ [35, 99], smallMode, smallAddress, smallHost] := by decide +kernel
  obtain ⟨ts, haddress, hvalues⟩ : ∃ ts, IsAddress [49, 48, 46, 48, 46, 48, 46, 50, 35, 97] ts ∧
      ts.map (Digits.value 10) = [10, 0, 0, 2] :=
    ⟨[⟨[49, 48], by decide +kernel, by decide +kernel⟩, ⟨[48], by decide +kernel, by decide +kernel⟩,
      ⟨[48], by decide +kernel, by decide +kernel⟩, ⟨[50], by decide +kernel, by decide +kernel⟩],
      ⟨⟨List.cons_ne_nil _ _, [35, 97], rfl, by decide +kernel⟩, rfl, by decide +kernel⟩,
      by decide +kernel⟩
  have hsays : List.Forall₂ Says (lines lineEnd (configText (some smallFile) (some 100)))
      [none, some (.mode .static), some (.address .ip ts), some (.hostname [98, 111, 120])] := by
    rw [hlines]
    exact .cons (.nothing (by decide +kernel) (by decide +kernel) (by decide +kernel))
      (.cons (.static (by decide +kernel) (by decide +kernel))
        (.cons (.address .ip (by decide +kernel) (by decide +kernel) haddress)
          (.cons (.hostname (by decide +kernel) (by decide +kernel) (by decide +kernel)
            (by decide +kernel) (by decide +kernel) (by decide +kernel) (by decide +kernel)) .nil)))
  obtain ⟨req, hreq, hmode, hword, hname⟩ :=
    @configureNetwork_reads _ _ _ 64 (by decide +kernel) hsays 0
  have hfit : fitted 64 [98, 111, 120] = [98, 111, 120] := by decide +kernel
  refine ⟨req, hreq, hmode, (hword .ip).trans ?_, hname.trans hfit⟩
  rw [← hvalues]
  rfl

end Request

end NetworkConf
end Tools
end V6User
