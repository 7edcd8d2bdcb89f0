import V6User.Base.Pipes
import V6User.Base.Sieve

/-!
# The primes of a chain of processes

`programs/primes/primes.c`: `main` writes the numbers from 2 to 280 into a pipe.  A process that
runs `primes` prints the first number it reads, forks the next one, and passes on to it what is
no multiple of that number.

The processes run as in `V6User.Base.Pipes`: in any order, with pipes of any capacity, and `pipe`
and `fork` may fail.  A number is written and read as a whole.  What goes through each pipe is a
sequence of its own (`stream`), a process prints only while it is the last of the chain, and `At`
says what holds at each place where a process can be.
-/

namespace V6User
namespace Primes

open Process Pipes

/-! ### The program -/

/-- The `280` of the program. -/
def limit : ℕ := 280

abbrev Prog (α : Type) : Type := Pipes.Prog ℕ String α

/-- `read(pip, &n, sizeof(int))`, with nothing for the end of the file, where it returns 0.  The
comparison with `sizeof(int)` is unsigned: a `-1` would not count as less, but none comes up, since
the process has the pipe open. -/
def readInt (pip : ℕ) : Prog (Option ℕ) := call (Call.read pip)

/-- `write(msg_pip[1], &n, sizeof(int))` -/
def writeInt (msg n : ℕ) : Prog Unit := call (Call.write msg n)

def close (e : ℕ × End) : Prog Unit := call (Call.close e)

def pipe : Prog (Option ℕ) := call Call.pipe

def fork : Prog Forked := call Call.fork

def wait : Prog Unit := call Call.wait

def printf (line : String) : Prog Unit := call (Call.print line)

/-- Some calls of `close`, and `exit`. -/
def leave (status : ℕ) : List (ℕ × End) → Prog Unit
  | [] => .exit status
  | e :: es => do
    close e
    leave status es

/-- `printf("prime %d\n", n)` -/
def line (n : ℕ) : String := "prime " ++ toString n ++ "\n"

/-- The loop of `primes`, with what was read last. -/
def primesLoop (pip msg cur : ℕ) : ℕ → ℕ → Prog ℕ
  | 0, _ => .stuck
  | fuel + 1, rcv =>
    if rcv < limit then do
      match ← readInt pip with
      | none => do
        printf "read pip error\n"
        .exit 1
      | some rcv => do
        if rcv % cur ≠ 0 then
          writeInt msg rcv
        primesLoop pip msg cur fuel rcv
    else pure rcv

/-- The last steps of a process that forked another. -/
def primesEnd (msg : ℕ) : Prog Unit := do
  close (msg, .write)
  wait
  .exit 0

/-- What comes after the loop. -/
def primesLast (pip msg rcv : ℕ) : Prog Unit := do
  close (pip, .read)
  writeInt msg rcv
  primesEnd msg

/-- What comes after `fork`. -/
def primesForked (fuel : ℕ) (child : Prog Unit) (pip msg cur : ℕ) : Forked → Prog Unit
  | .child => do
    close (msg, .write)
    child
  | .failed => do
    printf "forking error\n"
    leave 1 [(pip, .read), (msg, .read), (msg, .write)]
  | .parent => do
    close (msg, .read)
    let rcv ← primesLoop pip msg cur fuel 0
    primesLast pip msg rcv

/-- What comes after `pipe`. -/
def primesPiped (fuel : ℕ) (child : ℕ → Prog Unit) (pip cur : ℕ) : Option ℕ → Prog Unit
  | none => do
    printf "creating pip error\n"
    leave 1 [(pip, .read)]
  | some msg => do
    primesForked fuel (child msg) pip msg cur (← fork)

/-- `primes` -/
def primes : ℕ → ℕ → Prog Unit
  | 0, _ => .stuck
  | fuel + 1, pip => do
    match ← readInt pip with
    | none => do
      printf "read pip error\n"
      .exit 1
    | some cur =>
      if limit ≤ cur then leave 0 [(pip, .read)]
      else do
        printf (line cur)
        primesPiped fuel (primes fuel) pip cur (← pipe)

/-- The loop of `main`, from some number on. -/
def sendAll (msg : ℕ) : List ℕ → Prog Unit
  | [] => pure ()
  | i :: is => do
    writeInt msg i
    sendAll msg is

/-- The numbers that `main` writes. -/
def numbers : List ℕ := List.range' 2 (limit - 1)

/-- What comes after the `fork` of `main`. -/
def mainForked (fuel msg : ℕ) : Forked → Prog Unit
  | .child => do
    close (msg, .write)
    primes fuel msg
  | .parent => do
    close (msg, .read)
    sendAll msg numbers
    primesEnd msg
  | .failed => do
    printf "fork error\n"
    leave 1 [(msg, .read), (msg, .write)]

/-- What comes after the `pipe` of `main`. -/
def mainPiped (fuel : ℕ) : Option ℕ → Prog Unit
  | none => do
    printf "creating pip error\n"
    leave 1 []
  | some msg => do
    mainForked fuel msg (← fork)

/-- `main` -/
def main (fuel : ℕ) : Prog Unit := do
  mainPiped fuel (← pipe)

/-! ### What goes through the pipes -/

/-- What a process writes that reads this: the numbers up to the first that is not below the limit
which are no multiples of the first one, and then that one once more. -/
def passOn : List ℕ → List ℕ
  | [] => []
  | cur :: rest =>
    let upTo := rest.takeWhile (· < limit) ++ (rest.dropWhile (· < limit)).take 1
    upTo.filter (fun x => ¬cur ∣ x) ++ (rest.dropWhile (· < limit)).take 1

/-- What goes through each pipe. -/
def stream : ℕ → List ℕ
  | 0 => numbers
  | k + 1 => passOn (stream k)

/-- The primes below the limit. -/
def found : List ℕ := primesFrom (limit - 2)

/-- What is known of the sequence of a pipe that was opened. -/
structure Live (k : ℕ) : Prop where
  body : (stream k).takeWhile (· < limit) = sift^[k] (List.range' 2 (limit - 2))
  proper : ∃ x ∈ stream k, limit ≤ x
  length_le : (stream k).length < limit
  le : k ≤ found.length

section Stream

variable {k cur x : ℕ} {a b rest : List ℕ}

theorem takeWhile_split (ha : ∀ y ∈ a, y < limit) (hx : limit ≤ x) :
    (a ++ x :: b).takeWhile (· < limit) = a := by
  rw [List.takeWhile_append_of_pos (by simpa using ha),
    List.takeWhile_cons_of_neg (by simpa using hx), List.append_nil]

theorem passOn_eq (ha : ∀ y ∈ a, y < limit) (hx : limit ≤ x) : passOn (cur :: (a ++ x :: b)) =
    (a ++ [x]).filter (fun x => ¬cur ∣ x) ++ [x] := by
  have hdrop : (a ++ x :: b).dropWhile (· < limit) = x :: b := by
    rw [List.dropWhile_append_of_pos (by simpa using ha),
      List.dropWhile_cons_of_neg (by simpa using hx)]
  rw [passOn, takeWhile_split ha hx, hdrop]
  rfl

/-- A sequence with a number that is not below the limit, cut at the first one. -/
theorem exists_split (h : ∃ x ∈ rest, limit ≤ x) :
    ∃ a x b, rest = a ++ x :: b ∧ (∀ y ∈ a, y < limit) ∧ limit ≤ x := by
  induction rest with
  | nil =>
    obtain ⟨x, hx, -⟩ := h
    exact absurd hx List.not_mem_nil
  | cons y rest ih =>
    by_cases hy : limit ≤ y
    · exact ⟨[], y, rest, rfl, fun z hz => absurd hz List.not_mem_nil, hy⟩
    · obtain ⟨x, hx, hle⟩ := h
      have hrest : ∃ x ∈ rest, limit ≤ x := by
        rcases List.mem_cons.1 hx with rfl | hx
        · exact absurd hle hy
        · exact ⟨x, hx, hle⟩
      obtain ⟨a, z, b, rfl, ha, hz⟩ := ih hrest
      refine ⟨y :: a, z, b, rfl, fun w hw => ?_, hz⟩
      rcases List.mem_cons.1 hw with rfl | hw
      · exact Nat.not_le.1 hy
      · exact ha w hw

theorem numbers_eq : numbers = List.range' 2 (limit - 2) ++ [limit] :=
  List.range'_1_concat ..

theorem live_zero : Live 0 where
  body := by
    have hsmall : ∀ y ∈ List.range' 2 (limit - 2), y < limit := by
      intro y hy
      have hlt := (List.mem_range'_1.1 hy).2
      rw [limit] at hlt ⊢
      omega
    rw [stream, numbers_eq, takeWhile_split hsmall le_rfl]
    rfl
  proper := ⟨limit, by rw [stream, numbers_eq]; simp, le_rfl⟩
  length_le := by
    rw [stream, numbers, List.length_range', limit]
    omega
  le := Nat.zero_le _

/-- **The first number is the next prime**, or there is none left. -/
theorem Live.head (h : Live k) (hstream : stream k = cur :: rest) :
    (cur < limit → found[k]? = some cur) ∧ (limit ≤ cur → found.take k = found) := by
  have hhead := head?_sift (limit - 2) k
  rw [← h.body, hstream] at hhead
  constructor
  · intro hcur
    rw [List.takeWhile_cons_of_pos (by simpa using hcur), List.head?_cons] at hhead
    exact hhead.symm
  · intro hcur
    rw [List.takeWhile_cons_of_neg (by simpa using hcur), List.head?_nil] at hhead
    exact List.take_of_length_le (List.getElem?_eq_none_iff.1 hhead.symm)

/-- What comes behind the first number, where that is below the limit. -/
theorem Live.split (h : Live k) (hstream : stream k = cur :: rest) (hcur : cur < limit) :
    ∃ a x b, rest = a ++ x :: b ∧ (∀ y ∈ a, y < limit) ∧ limit ≤ x := by
  obtain ⟨x, hx, hle⟩ := h.proper
  rw [hstream] at hx
  rcases List.mem_cons.1 hx with rfl | hx
  · exact absurd hcur (Nat.not_lt.2 hle)
  · exact exists_split ⟨x, hx, hle⟩

/-- **One process more.** -/
theorem Live.next (h : Live k) (hstream : stream k = cur :: rest) (hcur : cur < limit) :
    Live (k + 1) := by
  obtain ⟨a, x, b, rfl, ha, hx⟩ := h.split hstream hcur
  have hpass : stream (k + 1) = (a ++ [x]).filter (fun x => ¬cur ∣ x) ++ [x] := by
    rw [stream, hstream, passOn_eq ha hx]
  have hlength := h.length_le
  rw [hstream, List.length_cons, List.length_append, List.length_cons] at hlength
  refine ⟨?_, ?_, ?_, ?_⟩
  · have hsmall : ∀ y ∈ a.filter (fun x => ¬cur ∣ x), y < limit := fun y hy =>
      ha y (List.mem_of_mem_filter hy)
    have hend : ([x].filter (fun x => ¬cur ∣ x) ++ [x]).takeWhile (· < limit) = [] := by
      by_cases hdvd : cur ∣ x
      · rw [List.filter_cons_of_neg (by simpa using hdvd)]
        exact List.takeWhile_cons_of_neg (by simpa using hx)
      · rw [List.filter_cons_of_pos (by simpa using hdvd)]
        exact List.takeWhile_cons_of_neg (by simpa using hx)
    rw [Function.iterate_succ_apply', ← h.body, hstream, hpass,
      List.takeWhile_cons_of_pos (by simpa using hcur), takeWhile_split ha hx, sift,
      List.filter_append, List.append_assoc, List.takeWhile_append_of_pos (by simpa using hsmall),
      hend, List.append_nil]
  · exact ⟨x, hpass ▸ List.mem_append_right _ (List.mem_singleton_self x), hx⟩
  · rw [hpass, List.length_append, List.length_singleton]
    have hfilter := List.length_filter_le (fun x => decide ¬cur ∣ x) (a ++ [x])
    rw [List.length_append, List.length_singleton] at hfilter
    omega
  · exact (List.getElem?_eq_some_iff.1 ((h.head hstream).1 hcur)).1

end Stream

/-! ### Where a process can be -/

/-- The read ends of the first pipes: a process closes its own one only. -/
def inherited (i : ℕ) : Finset (ℕ × End) := (Finset.range i).image fun k => (k, .read)

/-- No process was forked after this one. -/
def Last (s : State ℕ String) (i : ℕ) : Prop := s.procs.length = i + 1

/-- The process has forked the next one. -/
def Inner (s : State ℕ String) (i : ℕ) : Prop := i + 1 < s.procs.length

/-- What was read from a pipe so far. -/
def Got (s : State ℕ String) (j : ℕ) (l : List ℕ) : Prop :=
  ∃ π, s.pipes[j]? = some π ∧ π.sent.take π.taken = l

/-- What was written to a pipe so far, unless nobody will ever read it. -/
def Wrote (s : State ℕ String) (i : ℕ) (l : List ℕ) : Prop :=
  ∃ π, s.pipes[i]? = some π ∧ (π.sent = l ∨ ¬s.Held (i, .read))

/-- The first primes, as they are printed. -/
def lines (k : ℕ) : List String := (found.take k).map line

/-- What is printed where `pipe` or `fork` fails. -/
def failures : List String := ["creating pip error\n", "forking error\n", "fork error\n"]

/-- All that is printed: the primes, or the first of them and a failure. -/
def Printed (l : List String) : Prop :=
  l = found.map line ∨ ∃ k, ∃ e ∈ failures, l = lines k ++ [e]

/-- What holds at each place where the process `i` can be. -/
inductive At (s : State ℕ String) : ℕ → Proc ℕ String → Prop
  | mainStart {fuel : ℕ} (hfuel : 600 ≤ fuel) (hlast : Last s 0) (hpipes : s.pipes.length = 0)
    (hprinted : s.printed = []) : At s 0 ⟨main fuel, ∅, []⟩
  | mainForking {fuel : ℕ} (hfuel : 600 ≤ fuel) (hlast : Last s 0) (hpipes : s.pipes.length = 1)
    (hprinted : s.printed = []) (hwrote : Wrote s 0 []) :
    At s 0 ⟨fork >>= mainForked fuel 0, insert (0, .write) (inherited 1), []⟩
  | mainForked {fuel : ℕ} (hinner : Inner s 0) (hwrote : Wrote s 0 []) :
    At s 0 ⟨mainForked fuel 0 .parent, insert (0, .write) (inherited 1), [1]⟩
  | mainSending {done is : List ℕ} (hinner : Inner s 0) (hnumbers : done ++ is = numbers)
    (hwrote : Wrote s 0 done) :
    At s 0 ⟨sendAll 0 is >>= fun _ => primesEnd 0, insert (0, .write) (inherited 0), [1]⟩
  | entering {fuel j : ℕ} (hfuel : 600 ≤ fuel + j) (hlast : Last s (j + 1))
    (hpipes : s.pipes.length = j + 1) (hprinted : s.printed = lines j) (hgot : Got s j []) :
    At s (j + 1) ⟨close (j, .write) >>= fun _ => primes fuel j,
      insert (j, .write) (inherited (j + 1)), []⟩
  | reading {fuel j : ℕ} (hfuel : 600 ≤ fuel + j) (hlast : Last s (j + 1))
    (hpipes : s.pipes.length = j + 1) (hprinted : s.printed = lines j) (hgot : Got s j []) :
    At s (j + 1) ⟨primes fuel j, inherited (j + 1), []⟩
  | printing {fuel j cur : ℕ} (hfuel : 600 ≤ fuel + (j + 1)) (hlast : Last s (j + 1))
    (hpipes : s.pipes.length = j + 1) (hprinted : s.printed = lines j) (hgot : Got s j [cur])
    (hcur : cur < limit) :
    At s (j + 1) ⟨printf (line cur) >>= fun _ => pipe >>= primesPiped fuel (primes fuel) j cur,
      inherited (j + 1), []⟩
  | piping {fuel j cur : ℕ} (hfuel : 600 ≤ fuel + (j + 1)) (hlast : Last s (j + 1))
    (hpipes : s.pipes.length = j + 1) (hprinted : s.printed = lines (j + 1)) (hgot : Got s j [cur])
    (hcur : cur < limit) :
    At s (j + 1) ⟨pipe >>= primesPiped fuel (primes fuel) j cur, inherited (j + 1), []⟩
  | forking {fuel j cur : ℕ} (hfuel : 600 ≤ fuel + (j + 1)) (hlast : Last s (j + 1))
    (hpipes : s.pipes.length = j + 2) (hprinted : s.printed = lines (j + 1)) (hgot : Got s j [cur])
    (hcur : cur < limit) (hwrote : Wrote s (j + 1) []) :
    At s (j + 1) ⟨fork >>= primesForked fuel (primes fuel (j + 1)) j (j + 1) cur,
      insert (j + 1, .write) (inherited (j + 2)), []⟩
  | forked {fuel j cur : ℕ} {child : Prog Unit} (hfuel : 300 ≤ fuel) (hinner : Inner s (j + 1))
    (hgot : Got s j [cur]) (hcur : cur < limit) (hwrote : Wrote s (j + 1) []) :
    At s (j + 1) ⟨primesForked fuel child j (j + 1) cur .parent,
      insert (j + 1, .write) (inherited (j + 2)), [j + 2]⟩
  | passing {fuel j cur rcv : ℕ} {r : List ℕ} (hfuel : 300 ≤ fuel + r.length)
    (hinner : Inner s (j + 1)) (hcur : cur < limit) (hrcv : rcv < limit)
    (hgot : Got s j (cur :: r)) (hr : ∀ x ∈ r, x < limit)
    (hwrote : Wrote s (j + 1) (r.filter fun x => ¬cur ∣ x)) :
    At s (j + 1) ⟨primesLoop j (j + 1) cur fuel rcv >>= primesLast j (j + 1),
      insert (j + 1, .write) (inherited (j + 1)), [j + 2]⟩
  | writing {fuel j cur x : ℕ} {r : List ℕ} (hfuel : 300 ≤ fuel + (r ++ [x]).length)
    (hinner : Inner s (j + 1)) (hcur : cur < limit) (hgot : Got s j (cur :: (r ++ [x])))
    (hr : ∀ x ∈ r, x < limit) (hx : ¬cur ∣ x)
    (hwrote : Wrote s (j + 1) (r.filter fun x => ¬cur ∣ x)) :
    At s (j + 1) ⟨writeInt (j + 1) x >>= fun _ =>
        primesLoop j (j + 1) cur fuel x >>= primesLast j (j + 1),
      insert (j + 1, .write) (inherited (j + 1)), [j + 2]⟩
  | leavingLoop {j cur x : ℕ} {r : List ℕ} (hinner : Inner s (j + 1)) (hcur : cur < limit)
    (hgot : Got s j (cur :: (r ++ [x]))) (hr : ∀ x ∈ r, x < limit) (hx : limit ≤ x)
    (hwrote : Wrote s (j + 1) ((r ++ [x]).filter fun x => ¬cur ∣ x)) :
    At s (j + 1) ⟨primesLast j (j + 1) x, insert (j + 1, .write) (inherited (j + 1)), [j + 2]⟩
  | writingLast {j x : ℕ} {l : List ℕ} (hinner : Inner s (j + 1))
    (hstream : stream (j + 1) = l ++ [x]) (hwrote : Wrote s (j + 1) l) :
    At s (j + 1) ⟨writeInt (j + 1) x >>= fun _ => primesEnd (j + 1),
      insert (j + 1, .write) (inherited j), [j + 2]⟩
  | ending {i : ℕ} (hinner : Inner s i) (hwrote : Wrote s i (stream i)) :
    At s i ⟨primesEnd i, insert (i, .write) (inherited (i - 1)), [i + 1]⟩
  | waiting {i : ℕ} (hinner : Inner s i) (hwrote : Wrote s i (stream i)) :
    At s i ⟨wait >>= fun _ => .exit 0, inherited (i - 1), [i + 1]⟩
  | ended {i status : ℕ} {ends : Finset (ℕ × End)} {kids : List ℕ} (hinner : Inner s i)
    (hwrote : Wrote s i (stream i)) : At s i ⟨.exit status, ends, kids⟩
  | failing {i k : ℕ} {e : String} {es : List (ℕ × End)} {ends : Finset (ℕ × End)}
    (hlast : Last s i) (hprinted : s.printed = lines k) (he : e ∈ failures)
    (hends : ∀ d ∈ ends, d.1 ≤ i ∧ (d.2 = .write → d.1 = i)) :
    At s i ⟨printf e >>= fun _ => leave 1 es, ends, []⟩
  | leaving {i status : ℕ} {es : List (ℕ × End)} {ends : Finset (ℕ × End)} (hlast : Last s i)
    (hprinted : Printed s.printed) (hends : ∀ d ∈ ends, d.1 ≤ i ∧ (d.2 = .write → d.1 = i)) :
    At s i ⟨leave status es, ends, []⟩

/-- **What holds in every reachable state.** -/
structure Inv (s : State ℕ String) : Prop where
  at_proc : ∀ (i : ℕ) (p : Proc ℕ String), s.procs[i]? = some p → At s i p
  pipes : ∀ (k : ℕ) (π : Pipe ℕ), s.pipes[k]? = some π →
    π.taken ≤ π.sent.length ∧ π.sent <+: stream k ∧ Live k

section Ends

variable {i k : ℕ} {e : ℕ × End}

theorem mem_inherited : e ∈ inherited i ↔ e.1 < i ∧ e.2 = .read := by
  rw [inherited, Finset.mem_image]
  constructor
  · rintro ⟨k, hk, rfl⟩
    exact ⟨Finset.mem_range.1 hk, rfl⟩
  · rintro ⟨hlt, hread⟩
    exact ⟨e.1, Finset.mem_range.2 hlt, Prod.ext rfl hread.symm⟩

theorem write_notMem (i k : ℕ) : (i, End.write) ∉ inherited k := fun h =>
  nomatch (mem_inherited.1 h).2

theorem inherited_succ (k : ℕ) : inherited (k + 1) = insert (k, .read) (inherited k) := by
  rw [inherited, Finset.range_add_one, Finset.image_insert]
  rfl

theorem erase_write (i k : ℕ) :
    (insert (i, .write) (inherited k)).erase (i, .write) = inherited k :=
  Finset.erase_insert (write_notMem i k)

theorem erase_read (i k : ℕ) : (insert (i, .write) (inherited (k + 1))).erase (k, .read) =
    insert (i, .write) (inherited k) := by
  have hread : (k, End.read) ∉ inherited k := fun h => absurd (mem_inherited.1 h).1 (lt_irrefl k)
  rw [Finset.erase_insert_of_ne (by simp), inherited_succ, Finset.erase_insert hread]

end Ends

/-! ### What the others do -/

section Frame

variable {s s' : State ℕ String} {i j t cap : ℕ} {l : List ℕ} {p : Proc ℕ String}

/-- What a step of the process `t` may change in the pipes. -/
def PipesStep (t : ℕ) (pipes pipes' : List (Pipe ℕ)) : Prop :=
  ∀ (k : ℕ) (π : Pipe ℕ), pipes[k]? = some π → ∃ π', pipes'[k]? = some π' ∧
    (k ≠ t → π'.sent = π.sent) ∧ (k + 1 ≠ t → π'.taken = π.taken) ∧ π.sent <+: π'.sent

theorem pipesStep_same (t : ℕ) (pipes : List (Pipe ℕ)) : PipesStep t pipes pipes :=
  fun _ π hπ => ⟨π, hπ, fun _ => rfl, fun _ => rfl, List.prefix_rfl⟩

/-- What the process `i` sees of a step of another one. -/
structure Frame (s s' : State ℕ String) (i : ℕ) : Prop where
  last : Last s i → s'.procs.length = s.procs.length ∧ s'.pipes.length = s.pipes.length ∧
    s'.printed = s.printed
  inner : Inner s i → Inner s' i
  got : ∀ j l, i = j + 1 → Got s j l → Got s' j l
  wrote : ∀ l, Wrote s i l → Wrote s' i l

/-- A step of the process `t`, as the others see it. -/
structure Effect (s s' : State ℕ String) (t : ℕ) : Prop where
  held : ∀ e : ℕ × End, e.1 < s.pipes.length → s'.Held e → s.Held e
  pipes : PipesStep t s.pipes s'.pipes
  procs : s.procs.length ≤ s'.procs.length
  inner : Inner s t → s'.procs.length = s.procs.length ∧ s'.pipes.length = s.pipes.length ∧
    s'.printed = s.printed

theorem Wrote.mono (h : Wrote s i l) (hpipe : s'.pipes[i]? = s.pipes[i]?)
    (hheld : ∀ e : ℕ × End, e.1 < s.pipes.length → s'.Held e → s.Held e) : Wrote s' i l := by
  obtain ⟨π, hπ, hsent⟩ := h
  refine ⟨π, hpipe.trans hπ, hsent.imp_right fun hnone hsome => hnone (hheld _ ?_ hsome)⟩
  exact (List.getElem?_eq_some_iff.1 hπ).1

theorem Effect.frame (h : Effect s s' t) (hinv : Inv s) (ht : t < s.procs.length)
    (hi : i < s.procs.length) (hne : i ≠ t) : Frame s s' i := by
  refine ⟨fun hlast => h.inner ?_, fun hinner => hinner.trans_le h.procs, ?_, ?_⟩
  · rw [Last] at hlast
    rw [Inner]
    omega
  · rintro j l rfl ⟨π, hπ, hgot⟩
    obtain ⟨hle, -, -⟩ := hinv.pipes j π hπ
    obtain ⟨π', hπ', -, htaken, r, hr⟩ := h.pipes j π hπ
    refine ⟨π', hπ', ?_⟩
    rw [htaken hne, ← hr, List.take_append_of_le_length hle, hgot]
  · rintro l ⟨π, hπ, hsent⟩
    obtain ⟨π', hπ', hsame, -, -⟩ := h.pipes i π hπ
    refine ⟨π', hπ', ?_⟩
    rw [hsame hne]
    refine hsent.imp_right fun hnone hsome => hnone (h.held _ ?_ hsome)
    exact (List.getElem?_eq_some_iff.1 hπ).1

/-- **Where a process is does not depend on the others' steps.** -/
theorem At.frame (h : At s i p) (hf : Frame s s' i) : At s' i p := by
  have hlast : Last s i → Last s' i := fun hl => (hf.last hl).1.trans hl
  cases h with
  | mainStart hfuel hl hpipes hprinted =>
    obtain ⟨-, hsame, hout⟩ := hf.last hl
    exact .mainStart hfuel (hlast hl) (hsame.trans hpipes) (hout.trans hprinted)
  | mainForking hfuel hl hpipes hprinted hwrote =>
    obtain ⟨-, hsame, hout⟩ := hf.last hl
    exact .mainForking hfuel (hlast hl) (hsame.trans hpipes) (hout.trans hprinted)
      (hf.wrote _ hwrote)
  | mainForked hinner hwrote => exact .mainForked (hf.inner hinner) (hf.wrote _ hwrote)
  | mainSending hinner hnumbers hwrote =>
    exact .mainSending (hf.inner hinner) hnumbers (hf.wrote _ hwrote)
  | entering hfuel hl hpipes hprinted hgot =>
    obtain ⟨-, hsame, hout⟩ := hf.last hl
    exact .entering hfuel (hlast hl) (hsame.trans hpipes) (hout.trans hprinted)
      (hf.got _ _ rfl hgot)
  | reading hfuel hl hpipes hprinted hgot =>
    obtain ⟨-, hsame, hout⟩ := hf.last hl
    exact .reading hfuel (hlast hl) (hsame.trans hpipes) (hout.trans hprinted) (hf.got _ _ rfl hgot)
  | printing hfuel hl hpipes hprinted hgot hcur =>
    obtain ⟨-, hsame, hout⟩ := hf.last hl
    exact .printing hfuel (hlast hl) (hsame.trans hpipes) (hout.trans hprinted)
      (hf.got _ _ rfl hgot) hcur
  | piping hfuel hl hpipes hprinted hgot hcur =>
    obtain ⟨-, hsame, hout⟩ := hf.last hl
    exact .piping hfuel (hlast hl) (hsame.trans hpipes) (hout.trans hprinted)
      (hf.got _ _ rfl hgot) hcur
  | forking hfuel hl hpipes hprinted hgot hcur hwrote =>
    obtain ⟨-, hsame, hout⟩ := hf.last hl
    exact .forking hfuel (hlast hl) (hsame.trans hpipes) (hout.trans hprinted)
      (hf.got _ _ rfl hgot) hcur (hf.wrote _ hwrote)
  | forked hfuel hinner hgot hcur hwrote =>
    exact .forked hfuel (hf.inner hinner) (hf.got _ _ rfl hgot) hcur (hf.wrote _ hwrote)
  | passing hfuel hinner hcur hrcv hgot hr hwrote =>
    exact .passing hfuel (hf.inner hinner) hcur hrcv (hf.got _ _ rfl hgot) hr (hf.wrote _ hwrote)
  | writing hfuel hinner hcur hgot hr hx hwrote =>
    exact .writing hfuel (hf.inner hinner) hcur (hf.got _ _ rfl hgot) hr hx (hf.wrote _ hwrote)
  | leavingLoop hinner hcur hgot hr hx hwrote =>
    exact .leavingLoop (hf.inner hinner) hcur (hf.got _ _ rfl hgot) hr hx (hf.wrote _ hwrote)
  | writingLast hinner hstream hwrote =>
    exact .writingLast (hf.inner hinner) hstream (hf.wrote _ hwrote)
  | ending hinner hwrote => exact .ending (hf.inner hinner) (hf.wrote _ hwrote)
  | waiting hinner hwrote => exact .waiting (hf.inner hinner) (hf.wrote _ hwrote)
  | ended hinner hwrote => exact .ended (hf.inner hinner) (hf.wrote _ hwrote)
  | failing hl hprinted he hends =>
    exact .failing (hlast hl) ((hf.last hl).2.2.trans hprinted) he hends
  | leaving hl hprinted hends =>
    exact .leaving (hlast hl) ((hf.last hl).2.2 ▸ hprinted) hends

/-- **A step that forks nothing**, from what it leaves of the process and its pipes. -/
theorem Inv.goOn (h : Inv s) (hp : s.procs[t]? = some p) {q : Prog Unit} {a : After ℕ String}
    (heffect : Effect s (s.goOn t q a) t) (hat : At (s.goOn t q a) t ⟨q, a.ends, a.kids⟩)
    (hpipes : ∀ (k : ℕ) (π : Pipe ℕ), a.pipes[k]? = some π →
      π.taken ≤ π.sent.length ∧ π.sent <+: stream k ∧ Live k) : Inv (s.goOn t q a) := by
  refine ⟨fun i c hi => ?_, hpipes⟩
  rw [State.goOn, List.getElem?_set] at hi
  split_ifs at hi with hti hlt
  · obtain rfl := Option.some.inj hi
    rw [← hti]
    exact hat
  · exact (h.at_proc i c hi).frame (heffect.frame h (List.getElem?_eq_some_iff.1 hp).1
      (List.getElem?_eq_some_iff.1 hi).1 (Ne.symm hti))

theorem length_goOn (s : State ℕ String) (t : ℕ) (q : Prog Unit) (a : After ℕ String) :
    (s.goOn t q a).procs.length = s.procs.length := List.length_set

/-- What a step leaves that writes no more than a line. -/
structure Quiet (s s' : State ℕ String) (printed : List String) : Prop where
  held : ∀ e : ℕ × End, e.1 < s.pipes.length → s'.Held e → s.Held e
  pipes : s'.pipes = s.pipes
  procs : s'.procs.length = s.procs.length
  printed : s'.printed = printed

theorem Quiet.last {printed : List String} (h : Quiet s s' printed) (hlast : Last s i) :
    Last s' i := h.procs.trans hlast

theorem Quiet.inner {printed : List String} (h : Quiet s s' printed) (hinner : Inner s i) :
    Inner s' i := hinner.trans_eq h.procs.symm

theorem Quiet.got {printed : List String} (h : Quiet s s' printed) (hgot : Got s j l) :
    Got s' j l := by
  obtain ⟨π, hπ, hgot⟩ := hgot
  exact ⟨π, h.pipes ▸ hπ, hgot⟩

theorem Quiet.wrote {printed : List String} (h : Quiet s s' printed) (hwrote : Wrote s i l) :
    Wrote s' i l := hwrote.mono (by rw [h.pipes]) h.held

/-- A step that leaves the pipes as they were. -/
theorem Inv.quiet (h : Inv s) (hstep : Step cap s t p s') (hp : s.procs[t]? = some p)
    {q : Prog Unit} {ends : Finset (ℕ × End)} {kids : List ℕ} {printed : List String}
    (hs' : s' = s.goOn t q ⟨s.pipes, ends, kids, printed⟩)
    (hprinted : Inner s t → printed = s.printed)
    (hat : Quiet s s' printed → At s' t ⟨q, ends, kids⟩) : Inv s' := by
  have hquiet : Quiet s s' printed := by
    refine ⟨fun e he => hstep.held hp he, ?_, ?_, ?_⟩
    · rw [hs']
      rfl
    · rw [hs', length_goOn]
    · rw [hs']
      rfl
  have heffect : Effect s s' t := by
    refine ⟨hquiet.held, ?_, hquiet.procs.ge, fun hinner => ⟨hquiet.procs, ?_, ?_⟩⟩
    · rw [hquiet.pipes]
      exact pipesStep_same t s.pipes
    · rw [hquiet.pipes]
    · exact hquiet.printed.trans (hprinted hinner)
  have hat' := hat hquiet
  rw [hs'] at heffect hat' ⊢
  exact h.goOn hp heffect hat' h.pipes

theorem Got.mono (h : Got s j l) (hpipe : s'.pipes[j]? = s.pipes[j]?) : Got s' j l := by
  obtain ⟨π, hπ, hgot⟩ := h
  exact ⟨π, hpipe.trans hπ, hgot⟩

/-- A step that opens a pipe, of the last process. -/
theorem Inv.pipe (h : Inv s) (hstep : Step cap s t p s') (hp : s.procs[t]? = some p)
    (hlast : Last s t) (hlive : Live s.pipes.length) {q : Prog Unit} {ends : Finset (ℕ × End)}
    {kids : List ℕ} (hs' : s' = s.goOn t q ⟨s.pipes ++ [⟨[], 0⟩], ends, kids, s.printed⟩)
    (hat : Last s' t → s'.pipes.length = s.pipes.length + 1 → s'.printed = s.printed →
      (∀ j l, Got s j l → Got s' j l) → Wrote s' s.pipes.length [] → At s' t ⟨q, ends, kids⟩) :
    Inv s' := by
  have hold : ∀ k, k < s.pipes.length → s'.pipes[k]? = s.pipes[k]? := by
    intro k hk
    rw [hs']
    exact List.getElem?_append_left hk
  have hnew : s'.pipes[s.pipes.length]? = some ⟨[], 0⟩ := by
    rw [hs']
    exact List.getElem?_concat_length
  have heffect : Effect s s' t := by
    refine ⟨fun e he => hstep.held hp he, fun k π hπ => ?_, ?_, fun hinner => ?_⟩
    · refine ⟨π, ?_, fun _ => rfl, fun _ => rfl, List.prefix_rfl⟩
      rw [hold k (List.getElem?_eq_some_iff.1 hπ).1, hπ]
    · rw [hs', length_goOn]
    · rw [Inner, hlast] at hinner
      exact absurd hinner (lt_irrefl _)
  have hat' := hat ?_ ?_ ?_ (fun j l hgot => hgot.mono ?_) ⟨_, hnew, .inl rfl⟩
  · rw [hs'] at heffect hat' ⊢
    refine h.goOn hp heffect hat' fun k π hπ => ?_
    dsimp only at hπ
    rw [List.getElem?_append] at hπ
    split_ifs at hπ with hk
    · exact h.pipes k π hπ
    · obtain rfl := List.mem_singleton.1 (List.mem_of_getElem? hπ)
      have hzero := (List.getElem?_eq_some_iff.1 hπ).1
      rw [List.length_singleton] at hzero
      have hkn : k = s.pipes.length := by omega
      exact ⟨le_rfl, List.nil_prefix, hkn ▸ hlive⟩
  · rw [hs', Last, length_goOn]
    exact hlast
  · rw [hs']
    exact List.length_append
  · rw [hs']
    rfl
  · obtain ⟨π, hπ, -⟩ := hgot
    exact hold j (List.getElem?_eq_some_iff.1 hπ).1

/-- A step that forks the next process. -/
theorem Inv.fork (h : Inv s) (hstep : Step cap s t p s') (hp : s.procs[t]? = some p)
    (hlast : Last s t) {pp c : Proc ℕ String}
    (hs' : s' = ⟨s.procs.set t pp ++ [c], s.pipes, s.printed⟩)
    (hat : Inner s' t → (∀ j l, Got s j l → Got s' j l) → (∀ i l, Wrote s i l → Wrote s' i l) →
      At s' t pp)
    (hchild : Last s' (t + 1) → s'.pipes.length = s.pipes.length → s'.printed = s.printed →
      (∀ j l, Got s j l → Got s' j l) → At s' (t + 1) c) : Inv s' := by
  have hlength : s'.procs.length = s.procs.length + 1 := by
    rw [hs', List.length_append, List.length_set, List.length_singleton]
  have hnext : Last s' (t + 1) := by rw [Last, hlength, hlast]
  have heffect : Effect s s' t := by
    refine ⟨fun e he => hstep.held hp he, ?_, ?_, fun hinner => ?_⟩
    · rw [hs']
      exact pipesStep_same t s.pipes
    · rw [hlength]
      exact Nat.le_succ _
    · rw [Inner, hlast] at hinner
      exact absurd hinner (lt_irrefl _)
  have hinner : Inner s' t := by
    rw [Inner, hnext]
    exact Nat.lt_succ_self _
  have hgot : ∀ j l, Got s j l → Got s' j l := fun j l hgot => hgot.mono (by rw [hs'])
  have hwrote : ∀ i l, Wrote s i l → Wrote s' i l := fun i l hwrote =>
    hwrote.mono (by rw [hs']) heffect.held
  refine ⟨fun i d hi => ?_, fun k π hπ => h.pipes k π (by rwa [hs'] at hπ)⟩
  have hi' : (s.procs.set t pp ++ [c])[i]? = some d := by rwa [hs'] at hi
  rw [List.getElem?_append] at hi'
  split_ifs at hi' with hlt
  · rw [List.length_set] at hlt
    rw [List.getElem?_set] at hi'
    split_ifs at hi' with hti hlt'
    · obtain rfl := Option.some.inj hi'
      rw [← hti]
      exact hat hinner hgot hwrote
    · exact (h.at_proc i d hi').frame (heffect.frame h (List.getElem?_eq_some_iff.1 hp).1 hlt
        (Ne.symm hti))
  · rw [List.length_set] at hlt
    have hd := List.mem_singleton.1 (List.mem_of_getElem? hi')
    have hile := (List.getElem?_eq_some_iff.1 hi).1
    have hit : i = t + 1 := by
      rw [Last] at hlast
      omega
    rw [hd, hit]
    exact hchild hnext (by rw [hs']) (by rw [hs']) hgot

/-- A step that reads from the pipe `j`, of the process after it. -/
theorem Inv.read (h : Inv s) (hstep : Step cap s (j + 1) p s') (hp : s.procs[j + 1]? = some p)
    {q : Prog Unit} {x : ℕ} {π : Pipe ℕ} (hπ : s.pipes[j]? = some π)
    (hx : π.sent[π.taken]? = some x)
    (hs' : s' = s.goOn (j + 1) q ⟨s.pipes.set j ⟨π.sent, π.taken + 1⟩, p.ends, p.kids, s.printed⟩)
    (hgot : Got s j l)
    (hat : s'.procs.length = s.procs.length → s'.pipes.length = s.pipes.length →
      s'.printed = s.printed → Got s' j (l ++ [x]) →
      (∀ l, Wrote s (j + 1) l → Wrote s' (j + 1) l) → At s' (j + 1) ⟨q, p.ends, p.kids⟩) :
    Inv s' := by
  have hlt := (List.getElem?_eq_some_iff.1 hx).1
  have hother : ∀ k, k ≠ j → s'.pipes[k]? = s.pipes[k]? := by
    intro k hk
    rw [hs']
    exact List.getElem?_set_ne (Ne.symm hk)
  have hself : s'.pipes[j]? = some ⟨π.sent, π.taken + 1⟩ := by
    rw [hs']
    exact List.getElem?_set_self (List.getElem?_eq_some_iff.1 hπ).1
  have heffect : Effect s s' (j + 1) := by
    refine ⟨fun e he => hstep.held hp he, fun k ρ hρ => ?_, ?_, fun hinner => ?_⟩
    · by_cases hk : k = j
      · subst hk
        obtain rfl := Option.some.inj (hπ.symm.trans hρ)
        exact ⟨_, hself, fun _ => rfl, fun hne => absurd rfl hne, List.prefix_rfl⟩
      · exact ⟨ρ, (hother k hk).trans hρ, fun _ => rfl, fun _ => rfl, List.prefix_rfl⟩
    · rw [hs', length_goOn]
    · rw [hs', length_goOn]
      exact ⟨rfl, List.length_set, rfl⟩
  have hgot' : Got s' j (l ++ [x]) := by
    obtain ⟨ρ, hρ, rfl⟩ := hgot
    obtain rfl := Option.some.inj (hπ.symm.trans hρ)
    refine ⟨_, hself, ?_⟩
    rw [List.take_add_one, hx]
    rfl
  have hsame : s'.procs.length = s.procs.length ∧ s'.pipes.length = s.pipes.length ∧
      s'.printed = s.printed := by
    rw [hs', length_goOn]
    exact ⟨rfl, List.length_set, rfl⟩
  have hat' := hat hsame.1 hsame.2.1 hsame.2.2 hgot' fun l hwrote =>
    hwrote.mono (hother _ (Nat.succ_ne_self j)) heffect.held
  obtain ⟨-, hinitial, hlive⟩ := h.pipes j π hπ
  rw [hs'] at heffect hat' ⊢
  refine h.goOn hp heffect hat' fun k ρ hρ => ?_
  by_cases hk : j = k
  · subst hk
    dsimp only at hρ
    rw [List.getElem?_set_self (List.getElem?_eq_some_iff.1 hπ).1] at hρ
    obtain rfl := Option.some.inj hρ
    exact ⟨hlt, hinitial, hlive⟩
  · dsimp only at hρ
    rw [List.getElem?_set_ne hk] at hρ
    exact h.pipes k ρ hρ

/-- A step that writes to the pipe of the process, unless nobody can read it any more. -/
theorem Inv.write (h : Inv s) (hstep : Step cap s t p s') (hp : s.procs[t]? = some p) {x : ℕ}
    {k : Unit → Prog Unit} (hprog : p.prog = .ask (.write t x) k) (hend : (t, End.write) ∈ p.ends)
    (hinner : Inner s t) (hwrote : Wrote s t l) (hinitial : l ++ [x] <+: stream t)
    (hat : Inner s' t → Wrote s' t (l ++ [x]) →
      (∀ j l, t = j + 1 → Got s j l → Got s' j l) → At s' t ⟨k (), p.ends, p.kids⟩) : Inv s' := by
  obtain ⟨π, hπ, hsent⟩ := hwrote
  rcases hstep.write_cases hprog with ⟨ρ, hπ', hheld, hs'⟩ | ⟨hnone, hs' | ⟨e, hs'⟩⟩
  · obtain rfl := Option.some.inj (hπ.symm.trans hπ')
    obtain rfl : π.sent = l := hsent.resolve_right fun hnone => hnone hheld
    have hother : ∀ k, k ≠ t → s'.pipes[k]? = s.pipes[k]? := by
      intro k hk
      rw [hs']
      exact List.getElem?_set_ne (Ne.symm hk)
    have hself : s'.pipes[t]? = some ⟨π.sent ++ [x], π.taken⟩ := by
      rw [hs']
      exact List.getElem?_set_self (List.getElem?_eq_some_iff.1 hπ).1
    have heffect : Effect s s' t := by
      refine ⟨fun e he => hstep.held hp he, fun k ρ hρ => ?_, ?_, fun hinner => ?_⟩
      · by_cases hk : k = t
        · subst hk
          obtain rfl := Option.some.inj (hπ.symm.trans hρ)
          exact ⟨_, hself, fun hne => absurd rfl hne, fun _ => rfl, List.prefix_append _ _⟩
        · exact ⟨ρ, (hother k hk).trans hρ, fun _ => rfl, fun _ => rfl, List.prefix_rfl⟩
      · rw [hs', length_goOn]
      · rw [hs', length_goOn]
        exact ⟨rfl, List.length_set, rfl⟩
    have hat' := hat (hinner.trans_le heffect.procs) ⟨_, hself, .inl rfl⟩ fun j l hj hgot =>
      hgot.mono (hother j (by omega))
    obtain ⟨hle, -, hlive⟩ := h.pipes t π hπ
    rw [hs'] at heffect hat' ⊢
    refine h.goOn hp heffect hat' fun k ρ hρ => ?_
    by_cases hk : t = k
    · subst hk
      dsimp only at hρ
      rw [List.getElem?_set_self (List.getElem?_eq_some_iff.1 hπ).1] at hρ
      obtain rfl := Option.some.inj hρ
      refine ⟨hle.trans ?_, hinitial, hlive⟩
      rw [List.length_append]
      exact Nat.le_add_right _ _
    · dsimp only at hρ
      rw [List.getElem?_set_ne hk] at hρ
      exact h.pipes k ρ hρ
  · refine h.quiet hstep hp hs' (fun _ => rfl) fun hquiet => ?_
    refine hat (hquiet.inner hinner) ⟨π, hquiet.pipes ▸ hπ, .inr fun hsome => ?_⟩
      fun j l _ hgot => hquiet.got hgot
    exact hnone π hπ hend (hquiet.held _ (List.getElem?_eq_some_iff.1 hπ).1 hsome)
  · refine h.quiet hstep hp hs' (fun _ => rfl) fun hquiet => ?_
    refine .ended (hquiet.inner hinner) ⟨π, hquiet.pipes ▸ hπ, .inr fun hsome => ?_⟩
    exact hnone π hπ hend (hquiet.held _ (List.getElem?_eq_some_iff.1 hπ).1 hsome)

/-! ### The steps of the program -/

theorem primes_succ (fuel pip : ℕ) : primes (fuel + 1) pip = .ask (.read pip) (fun r : Option ℕ =>
    match r with
    | none => .ask (.print "read pip error\n") fun _ => .exit 1
    | some cur =>
      if limit ≤ cur then leave 0 [(pip, .read)]
      else printf (line cur) >>= fun _ => pipe >>= primesPiped fuel (primes fuel) pip cur) := rfl

theorem loop_read {pip msg cur fuel rcv : ℕ} (h : rcv < limit) (g : ℕ → Prog Unit) :
    primesLoop pip msg cur (fuel + 1) rcv >>= g = .ask (.read pip) (fun r : Option ℕ =>
      match r with
      | none => .ask (.print "read pip error\n") fun _ => .exit 1
      | some x =>
        if x % cur ≠ 0 then writeInt msg x >>= fun _ => primesLoop pip msg cur fuel x >>= g
        else primesLoop pip msg cur fuel x >>= g) := by
  rw [primesLoop, if_pos h]
  refine congrArg (Process.ask (Call.read pip)) (funext fun r => ?_)
  cases r with
  | none => rfl
  | some x =>
    change Process.bind (if x % cur ≠ 0 then writeInt msg x >>= fun _ =>
      primesLoop pip msg cur fuel x else primesLoop pip msg cur fuel x) g = _
    dsimp only
    split_ifs
    · rfl
    · rfl

theorem loop_done {pip msg cur fuel rcv : ℕ} (h : limit ≤ rcv) (g : ℕ → Prog Unit) :
    primesLoop pip msg cur (fuel + 1) rcv >>= g = g rcv := by
  rw [primesLoop, if_neg (Nat.not_lt.2 h)]
  rfl

theorem length_found_le : found.length ≤ limit - 2 := by
  have hle := List.length_filter_le (fun x => decide x.Prime) (List.range' 2 (limit - 2))
  rwa [List.length_range'] at hle

/-- What was read from a pipe is the beginning of what goes through it. -/
theorem Inv.got (h : Inv s) (hgot : Got s j l) : l <+: stream j ∧ Live j ∧ l.length < limit := by
  obtain ⟨π, hπ, rfl⟩ := hgot
  obtain ⟨-, hinitial, hlive⟩ := h.pipes j π hπ
  have htake : π.sent.take π.taken <+: stream j := (List.take_prefix _ _).trans hinitial
  exact ⟨htake, hlive, htake.length_le.trans_lt hlive.length_le⟩

/-- With the number that is read next. -/
theorem Inv.got_next (h : Inv s) (hgot : Got s j l) {π : Pipe ℕ} (hπ : s.pipes[j]? = some π) {x : ℕ}
    (hx : π.sent[π.taken]? = some x) : l ++ [x] <+: stream j := by
  obtain ⟨ρ, hρ, rfl⟩ := hgot
  obtain rfl := Option.some.inj (hπ.symm.trans hρ)
  have hnext : π.sent.take (π.taken + 1) = π.sent.take π.taken ++ [x] := by
    rw [List.take_add_one, hx, Option.toList_some]
  rw [← hnext]
  exact (List.take_prefix _ _).trans (h.pipes j π hπ).2.1

/-- The first number that was read is the next prime, if it is below the limit. -/
theorem Inv.cur (h : Inv s) {cur : ℕ} {r : List ℕ} (hgot : Got s j (cur :: r))
    (hcur : cur < limit) :
    ∃ rest, stream j = cur :: rest ∧ r <+: rest ∧ found[j]? = some cur ∧ Live (j + 1) := by
  obtain ⟨⟨rest, hrest⟩, hlive, -⟩ := h.got hgot
  have hstream : stream j = cur :: (r ++ rest) := hrest.symm
  exact ⟨r ++ rest, hstream, List.prefix_append _ _, (hlive.head hstream).1 hcur,
    hlive.next hstream hcur⟩

/-- A process that has forked the next one can still write to its pipe, or has written all. -/
theorem At.inner_cases (hat : At s i p) (h : Inv s) (hinner : Inner s i) :
    ((i, End.write) ∈ p.ends ∧ p.Running) ∨ Wrote s i (stream i) := by
  have hnot : ¬Last s i := fun hlast => by
    rw [Inner, hlast] at hinner
    exact lt_irrefl _ hinner
  cases hat with
  | mainStart _ hlast => exact absurd hlast hnot
  | mainForking _ hlast => exact absurd hlast hnot
  | mainForked => exact .inl ⟨Finset.mem_insert_self .., _, _, rfl⟩
  | @mainSending done is =>
    refine .inl ⟨Finset.mem_insert_self .., ?_⟩
    cases is with
    | nil => exact ⟨_, _, rfl⟩
    | cons x is => exact ⟨_, _, rfl⟩
  | entering _ hlast => exact absurd hlast hnot
  | reading _ hlast => exact absurd hlast hnot
  | printing _ hlast => exact absurd hlast hnot
  | piping _ hlast => exact absurd hlast hnot
  | forking _ hlast => exact absurd hlast hnot
  | forked => exact .inl ⟨Finset.mem_insert_self .., _, _, rfl⟩
  | @passing fuel j cur rcv r hfuel _ _ hrcv hgot =>
    have hlength := (h.got hgot).2.2
    rw [List.length_cons, limit] at hlength
    obtain ⟨f, rfl⟩ := Nat.exists_eq_succ_of_ne_zero (show fuel ≠ 0 by omega)
    exact .inl ⟨Finset.mem_insert_self .., _, _, loop_read hrcv _⟩
  | writing => exact .inl ⟨Finset.mem_insert_self .., _, _, rfl⟩
  | leavingLoop => exact .inl ⟨Finset.mem_insert_self .., _, _, rfl⟩
  | writingLast => exact .inl ⟨Finset.mem_insert_self .., _, _, rfl⟩
  | ending => exact .inl ⟨Finset.mem_insert_self .., _, _, rfl⟩
  | waiting _ hwrote => exact .inr hwrote
  | ended _ hwrote => exact .inr hwrote
  | failing hlast => exact absurd hlast hnot
  | leaving hlast => exact absurd hlast hnot

/-- **A read finds a number**: not all was read yet, and what was not is written or still comes. -/
theorem Inv.not_endOfFile (h : Inv s) (hp : s.procs[j + 1]? = some p) (hrun : p.Running)
    (hend : (j, End.read) ∈ p.ends) (hgot : Got s j l) (hl : l ≠ stream j)
    (hnone : ∀ π, s.pipes[j]? = some π → (j, End.read) ∈ p.ends →
      π.sent.length ≤ π.taken ∧ ¬s.Held (j, .write)) : False := by
  have hlt := (List.getElem?_eq_some_iff.1 hp).1
  obtain ⟨c, hc⟩ : ∃ c, s.procs[j]? = some c :=
    ⟨s.procs.get ⟨j, by omega⟩, List.getElem?_eq_getElem (by omega)⟩
  obtain ⟨π, hπ, rfl⟩ := hgot
  obtain ⟨hempty, hheld⟩ := hnone π hπ hend
  rw [List.take_of_length_le hempty] at hl
  rcases (h.at_proc j c hc).inner_cases h hlt with ⟨hwrite, hrunning⟩ | ⟨ρ, hρ, hsent⟩
  · exact hheld ⟨j, c, hc, hrunning, hwrite⟩
  · obtain rfl := Option.some.inj (hπ.symm.trans hρ)
    exact hl (hsent.resolve_right fun hgone => hgone ⟨j + 1, p, hp, hrun, hend⟩)

theorem lines_succ {cur : ℕ} (h : found[j]? = some cur) :
    lines (j + 1) = lines j ++ [line cur] := by
  rw [lines, lines, List.take_add_one, h, Option.toList_some, List.map_append, List.map_singleton]

/-- The loop goes on, or ends, after a number. -/
theorem At.after_number {fuel cur x : ℕ} {r : List ℕ} (hfuel : 300 ≤ fuel + (r ++ [x]).length)
    (hlength : (r ++ [x]).length < limit) (hinner : Inner s (j + 1)) (hcur : cur < limit)
    (hgot : Got s j (cur :: (r ++ [x]))) (hr : ∀ y ∈ r, y < limit)
    (hwrote : Wrote s (j + 1) ((r ++ [x]).filter fun x => ¬cur ∣ x)) :
    At s (j + 1) ⟨primesLoop j (j + 1) cur fuel x >>= primesLast j (j + 1),
      insert (j + 1, .write) (inherited (j + 1)), [j + 2]⟩ := by
  rcases Nat.lt_or_ge x limit with hlt | hle
  · refine .passing hfuel hinner hcur hlt hgot (fun y hy => ?_) hwrote
    rcases List.mem_append.1 hy with hy | hy
    · exact hr y hy
    · exact List.mem_singleton.1 hy ▸ hlt
  · rw [limit] at hlength
    obtain ⟨f, rfl⟩ := Nat.exists_eq_succ_of_ne_zero (show fuel ≠ 0 by omega)
    rw [Nat.succ_eq_add_one, loop_done hle]
    exact .leavingLoop hinner hcur hgot hr hle hwrote

/-- After a number was read, the loop passes it on unless it is a multiple. -/
theorem At.after_read {fuel cur x : ℕ} {r : List ℕ} (hfuel : 300 ≤ fuel + (r ++ [x]).length)
    (hlength : (r ++ [x]).length < limit) (hinner : Inner s (j + 1)) (hcur : cur < limit)
    (hgot : Got s j (cur :: (r ++ [x]))) (hr : ∀ y ∈ r, y < limit)
    (hwrote : Wrote s (j + 1) (r.filter fun x => ¬cur ∣ x)) :
    At s (j + 1) ⟨if x % cur ≠ 0 then writeInt (j + 1) x >>= fun _ =>
        primesLoop j (j + 1) cur fuel x >>= primesLast j (j + 1)
      else primesLoop j (j + 1) cur fuel x >>= primesLast j (j + 1),
      insert (j + 1, .write) (inherited (j + 1)), [j + 2]⟩ := by
  by_cases hx : x % cur = 0
  · have hfilter : (r ++ [x]).filter (fun x => ¬cur ∣ x) = r.filter fun x => ¬cur ∣ x := by
      rw [List.filter_append, List.filter_cons_of_neg (by simpa using Nat.dvd_of_mod_eq_zero hx)]
      exact List.append_nil _
    rw [if_neg (not_not.2 hx)]
    exact .after_number hfuel hlength hinner hcur hgot hr (hfilter ▸ hwrote)
  · rw [if_pos hx]
    exact .writing hfuel hinner hcur hgot hr (fun hdvd => hx (Nat.mod_eq_zero_of_dvd hdvd)) hwrote

/-- What a process has read cuts the sequence as `passOn` does. -/
theorem Inv.passed (h : Inv s) {cur x : ℕ} {r : List ℕ} (hgot : Got s j (cur :: (r ++ [x])))
    (hcur : cur < limit) (hr : ∀ y ∈ r, y < limit) :
    (r ++ [x]).filter (fun x => ¬cur ∣ x) <+: stream (j + 1) ∧
      (limit ≤ x → stream (j + 1) = (r ++ [x]).filter (fun x => ¬cur ∣ x) ++ [x]) := by
  obtain ⟨⟨rest, hrest⟩, hlive, -⟩ := h.got hgot
  have hstream : stream j = cur :: (r ++ x :: rest) := by simpa using hrest.symm
  rcases Nat.lt_or_ge x limit with hlt | hle
  · refine ⟨?_, fun hle => absurd hlt (Nat.not_lt.2 hle)⟩
    have hr' : ∀ y ∈ r ++ [x], y < limit := by
      intro y hy
      rcases List.mem_append.1 hy with hy | hy
      · exact hr y hy
      · exact List.mem_singleton.1 hy ▸ hlt
    obtain ⟨a, z, b, hsplit, ha, hz⟩ := hlive.split hstream hcur
    -- the numbers that were read all come before the first that is not below the limit
    have hinitial : r ++ [x] <+: a := by
      have hboth : (r ++ x :: rest).takeWhile (· < limit) = a := by
        rw [hsplit, takeWhile_split ha hz]
      have happend : r ++ x :: rest = (r ++ [x]) ++ rest := by simp
      rw [← hboth, happend, List.takeWhile_append_of_pos (by simpa using hr')]
      exact List.prefix_append _ _
    rw [stream, hstream, hsplit, passOn_eq ha hz]
    exact ((hinitial.trans (List.prefix_append a [z])).filter _).trans (List.prefix_append _ _)
  · have heq : stream (j + 1) = (r ++ [x]).filter (fun x => ¬cur ∣ x) ++ [x] := by
      rw [stream, hstream, passOn_eq hr hle]
    exact ⟨heq ▸ List.prefix_append _ _, fun _ => heq⟩

theorem ne_stream {cur : ℕ} {r : List ℕ} (hlive : Live j) (hcur : cur < limit)
    (hr : ∀ y ∈ r, y < limit) : cur :: r ≠ stream j := by
  intro heq
  obtain ⟨x, hx, hle⟩ := hlive.proper
  rw [← heq] at hx
  rcases List.mem_cons.1 hx with rfl | hx
  · exact absurd hcur (Nat.not_lt.2 hle)
  · exact absurd (hr x hx) (Nat.not_lt.2 hle)

/-- A pipe to which nothing was written was not read from either, while its reader is there. -/
theorem Wrote.got_nil (h : Wrote s i []) (hheld : s.Held (i, .read)) : Got s i [] := by
  obtain ⟨π, hπ, hsent⟩ := h
  refine ⟨π, hπ, ?_⟩
  rw [hsent.resolve_right fun hnone => hnone hheld, List.take_nil]

/-- The ends of a process that is about to leave. -/
theorem ends_le (i : ℕ) {es : Finset (ℕ × End)} (h : es ⊆ insert (i, .write) (inherited (i + 1))) :
    ∀ d ∈ es, d.1 ≤ i ∧ (d.2 = .write → d.1 = i) := by
  intro d hd
  rcases Finset.mem_insert.1 (h hd) with rfl | hmem
  · exact ⟨le_rfl, fun _ => rfl⟩
  · obtain ⟨hlt, hread⟩ := mem_inherited.1 hmem
    exact ⟨Nat.lt_succ_iff.1 hlt, fun hwrite => nomatch hread.symm.trans hwrite⟩

theorem inherited_subset (j : ℕ) :
    inherited (j + 1) ⊆ insert (j + 1, .write) (inherited (j + 1 + 1)) := by
  rw [inherited_succ (j + 1)]
  exact (Finset.subset_insert ..).trans (Finset.subset_insert ..)

/-- **Every step keeps the invariant.** -/
theorem Inv.step (h : Inv s) (hp : s.procs[t]? = some p) (hstep : Step cap s t p s') : Inv s' := by
  have hat := h.at_proc t p hp
  cases hat with
  | mainStart hfuel hlast hpipes hprinted =>
    rcases hstep.pipe_cases rfl with hs' | hs'
    · refine h.pipe hstep hp hlast (hpipes ▸ live_zero) hs' fun hlast' hpipes' hout _ hwrote => ?_
      rw [hpipes] at hwrote hpipes' ⊢
      exact .mainForking hfuel hlast' hpipes' (hout.trans hprinted) hwrote
    · refine h.quiet hstep hp hs' (fun _ => rfl) fun hquiet => ?_
      exact .failing (k := 0) (hquiet.last hlast) (hquiet.printed.trans hprinted)
        (by simp [failures]) fun d hd => absurd hd (Finset.notMem_empty d)
  | mainForking hfuel hlast hpipes hprinted hwrote =>
    have hgot : Got s 0 [] := hwrote.got_nil ⟨0, _, hp, ⟨_, _, rfl⟩,
      Finset.mem_insert_of_mem (mem_inherited.2 ⟨Nat.one_pos, rfl⟩)⟩
    rcases hstep.fork_cases rfl with hs' | hs'
    · refine h.fork hstep hp hlast hs' (fun hinner _ hold => ?_) fun hlast' hpipes' hout hold => ?_
      · rw [hlast]
        exact .mainForked hinner (hold _ _ hwrote)
      · exact .entering (by omega) hlast' (hpipes'.trans hpipes) (hout.trans hprinted)
          (hold _ _ hgot)
    · refine h.quiet hstep hp hs' (fun _ => rfl) fun hquiet => ?_
      exact .failing (k := 0) (hquiet.last hlast) (hquiet.printed.trans hprinted)
        (by simp [failures]) (ends_le 0 subset_rfl)
  | mainForked hinner hwrote =>
    refine h.quiet hstep hp (hstep.close_cases rfl) (fun _ => rfl) fun hquiet => ?_
    rw [erase_read]
    exact @At.mainSending _ [] numbers (hquiet.inner hinner) rfl (hquiet.wrote hwrote)
  | @mainSending done is hinner hnumbers hwrote =>
    cases is with
    | nil =>
      refine h.quiet hstep hp (hstep.close_cases rfl) (fun _ => rfl) fun hquiet => ?_
      rw [erase_write]
      rw [List.append_nil] at hnumbers
      refine .waiting (hquiet.inner hinner) ?_
      rw [stream, ← hnumbers]
      exact hquiet.wrote hwrote
    | cons x is =>
      refine h.write hstep hp rfl (Finset.mem_insert_self ..) hinner hwrote ?_
        fun hinner' hwrote' _ => ?_
      · exact ⟨is, by rw [stream, ← hnumbers, List.append_assoc, List.singleton_append]⟩
      · exact .mainSending hinner' (by rw [← hnumbers, List.append_assoc, List.singleton_append])
          hwrote'
  | entering hfuel hlast hpipes hprinted hgot =>
    refine h.quiet hstep hp (hstep.close_cases rfl) (fun _ => rfl) fun hquiet => ?_
    rw [erase_write]
    exact .reading hfuel (hquiet.last hlast) (hquiet.pipes ▸ hpipes) (hquiet.printed.trans hprinted)
      (hquiet.got hgot)
  | @reading fuel j hfuel hlast hpipes hprinted hgot =>
    have hlive := (h.got hgot).2.1
    have hfound := hlive.le.trans length_found_le
    rw [limit] at hfound
    obtain ⟨f, rfl⟩ := Nat.exists_eq_succ_of_ne_zero (show fuel ≠ 0 by omega)
    rcases hstep.read_cases (primes_succ f j) with ⟨x, π, hπ, hx, hs'⟩ | ⟨hnone, -⟩
    · refine h.read hstep hp hπ hx hs' hgot fun hprocs hpipes' hout hgot' _ => ?_
      have hlast' : Last s' (j + 1) := hprocs.trans hlast
      dsimp only
      split_ifs with hle
      · obtain ⟨rest, hrest⟩ := h.got_next hgot hπ hx
        have hall := (hlive.head hrest.symm).2 hle
        refine .leaving hlast' (.inl ?_) (ends_le _ (inherited_subset j))
        rw [hout, hprinted, lines, hall]
      · refine .printing (by omega) hlast' (hpipes'.trans hpipes) (hout.trans hprinted) hgot'
          (Nat.not_le.1 hle)
    · refine (h.not_endOfFile hp ⟨_, _, primes_succ f j⟩ ?_ hgot ?_ hnone).elim
      · exact mem_inherited.2 ⟨Nat.lt_succ_self j, rfl⟩
      · intro hnil
        obtain ⟨x, hx, -⟩ := hlive.proper
        rw [← hnil] at hx
        exact absurd hx List.not_mem_nil
  | printing hfuel hlast hpipes hprinted hgot hcur =>
    obtain ⟨-, -, -, hfound, -⟩ := h.cur hgot hcur
    refine h.quiet hstep hp (hstep.print_cases rfl) (fun hinner => ?_) fun hquiet => ?_
    · rw [Inner, hlast] at hinner
      exact absurd hinner (lt_irrefl _)
    · refine .piping hfuel (hquiet.last hlast) (hquiet.pipes ▸ hpipes) ?_ (hquiet.got hgot) hcur
      rw [hquiet.printed, hprinted, lines_succ hfound]
  | piping hfuel hlast hpipes hprinted hgot hcur =>
    obtain ⟨-, -, -, -, hlive⟩ := h.cur hgot hcur
    rcases hstep.pipe_cases rfl with hs' | hs'
    · refine h.pipe hstep hp hlast (hpipes ▸ hlive) hs' fun hlast' hpipes' hout hold hwrote => ?_
      rw [hpipes] at hwrote hpipes' ⊢
      rw [← inherited_succ]
      exact .forking hfuel hlast' hpipes' (hout.trans hprinted) (hold _ _ hgot) hcur hwrote
    · refine h.quiet hstep hp hs' (fun _ => rfl) fun hquiet => ?_
      refine .failing (hquiet.last hlast) (hquiet.printed.trans hprinted) (by simp [failures])
        (ends_le _ (inherited_subset _))
  | @forking fuel j cur hfuel hlast hpipes hprinted hgot hcur hwrote =>
    have hgot' : Got s (j + 1) [] := hwrote.got_nil ⟨j + 1, _, hp, ⟨_, _, rfl⟩,
      Finset.mem_insert_of_mem (mem_inherited.2 ⟨Nat.lt_succ_self _, rfl⟩)⟩
    obtain ⟨-, hlive, -⟩ := h.got hgot'
    have hfound := hlive.le.trans length_found_le
    rw [limit] at hfound
    rcases hstep.fork_cases rfl with hs' | hs'
    · refine h.fork hstep hp hlast hs' (fun hinner hold hold' => ?_)
        fun hlast' hpipes' hout hold => ?_
      · rw [hlast]
        exact .forked (by omega) hinner (hold _ _ hgot) hcur (hold' _ _ hwrote)
      · exact .entering hfuel hlast' (hpipes'.trans hpipes) (hout.trans hprinted) (hold _ _ hgot')
    · refine h.quiet hstep hp hs' (fun _ => rfl) fun hquiet => ?_
      exact .failing (hquiet.last hlast) (hquiet.printed.trans hprinted) (by simp [failures])
        (ends_le _ subset_rfl)
  | @forked fuel j cur child hfuel hinner hgot hcur hwrote =>
    refine h.quiet hstep hp (hstep.close_cases rfl) (fun _ => rfl) fun hquiet => ?_
    rw [erase_read]
    exact .passing (r := []) hfuel (hquiet.inner hinner) hcur (by decide) (hquiet.got hgot)
      (fun x hx => absurd hx List.not_mem_nil) (hquiet.wrote hwrote)
  | @passing fuel j cur rcv r hfuel hinner hcur hrcv hgot hr hwrote =>
    obtain ⟨-, hlive, hlength⟩ := h.got hgot
    rw [List.length_cons, limit] at hlength
    obtain ⟨f, rfl⟩ := Nat.exists_eq_succ_of_ne_zero (show fuel ≠ 0 by omega)
    rcases hstep.read_cases (loop_read hrcv _) with ⟨x, π, hπ, hx, hs'⟩ | ⟨hnone, -⟩
    · refine h.read hstep hp hπ hx hs' hgot fun hprocs _ _ hgot' hold => ?_
      have hmore := (h.got_next hgot hπ hx).length_le.trans_lt hlive.length_le
      rw [List.length_append, List.length_cons, List.length_singleton] at hmore
      have hmore' : (r ++ [x]).length = r.length + 1 := List.length_append
      exact .after_read (by omega) (by omega) (hinner.trans_eq hprocs.symm) hcur hgot' hr
        (hold _ hwrote)
    · refine (h.not_endOfFile hp ⟨_, _, loop_read hrcv _⟩ ?_ hgot (ne_stream hlive hcur hr)
        hnone).elim
      exact Finset.mem_insert_of_mem (mem_inherited.2 ⟨Nat.lt_succ_self j, rfl⟩)
  | @writing fuel j cur x r hfuel hinner hcur hgot hr hx hwrote =>
    have hfilter : (r ++ [x]).filter (fun x => ¬cur ∣ x) = r.filter (fun x => ¬cur ∣ x) ++ [x] := by
      rw [List.filter_append, List.filter_cons_of_pos (by simpa using hx), List.filter_nil]
    refine h.write hstep hp rfl (Finset.mem_insert_self ..) hinner hwrote ?_
      fun hinner' hwrote' hold => ?_
    · rw [← hfilter]
      exact (h.passed hgot hcur hr).1
    · rw [← hfilter] at hwrote'
      have hlength := (h.got hgot).2.2
      rw [List.length_cons] at hlength
      exact .after_number hfuel (by omega) hinner' hcur (hold _ _ rfl hgot) hr hwrote'
  | @leavingLoop j cur x r hinner hcur hgot hr hx hwrote =>
    refine h.quiet hstep hp (hstep.close_cases rfl) (fun _ => rfl) fun hquiet => ?_
    rw [erase_read]
    exact .writingLast (hquiet.inner hinner) ((h.passed hgot hcur hr).2 hx) (hquiet.wrote hwrote)
  | @writingLast j x l hinner hstream hwrote =>
    refine h.write hstep hp rfl (Finset.mem_insert_self ..) hinner hwrote ?_
      fun hinner' hwrote' _ => ?_
    · rw [hstream]
    · exact .ending hinner' (hstream ▸ hwrote')
  | ending hinner hwrote =>
    refine h.quiet hstep hp (hstep.close_cases rfl) (fun _ => rfl) fun hquiet => ?_
    rw [erase_write]
    exact .waiting (hquiet.inner hinner) (hquiet.wrote hwrote)
  | waiting hinner hwrote =>
    rcases hstep.wait_cases rfl with ⟨q, hq, -, hs'⟩ | ⟨hnone, -⟩
    · exact h.quiet hstep hp hs' (fun _ => rfl) fun hquiet =>
        .ended (hquiet.inner hinner) (hquiet.wrote hwrote)
    · cases hnone
  | ended hinner hwrote =>
    obtain ⟨c, k, hprog⟩ := hstep.running
    cases hprog
  | failing hlast hprinted he hends =>
    refine h.quiet hstep hp (hstep.print_cases rfl) (fun hinner => ?_) fun hquiet => ?_
    · rw [Inner, hlast] at hinner
      exact absurd hinner (lt_irrefl _)
    · refine .leaving (hquiet.last hlast) ?_ hends
      rw [hquiet.printed, hprinted]
      exact .inr ⟨_, _, he, rfl⟩
  | @leaving i status es ends hlast hprinted hends =>
    cases es with
    | nil =>
      obtain ⟨c, k, hprog⟩ := hstep.running
      cases hprog
    | cons e es =>
      refine h.quiet hstep hp (hstep.close_cases rfl) (fun _ => rfl) fun hquiet => ?_
      refine .leaving (hquiet.last hlast) (hquiet.printed ▸ hprinted) fun d hd => ?_
      exact hends d (Finset.mem_of_mem_erase hd)

theorem Inv.start {fuel : ℕ} (hfuel : 600 ≤ fuel) : Inv ⟨[⟨main fuel, ∅, []⟩], [], []⟩ := by
  refine ⟨fun i p hi => ?_, fun k π hπ => absurd hπ (by simp)⟩
  have hzero := (List.getElem?_eq_some_iff.1 hi).1
  rw [List.length_singleton, Nat.lt_one_iff] at hzero
  subst hzero
  obtain rfl := List.mem_singleton.1 (List.mem_of_getElem? hi)
  exact .mainStart hfuel rfl rfl rfl

theorem Inv.of_reaches {fuel : ℕ} (hfuel : 600 ≤ fuel) (h : Reaches cap (main fuel) s) : Inv s := by
  induction h with
  | start => exact .start hfuel
  | step _ hnext ih =>
    obtain ⟨t, p, hp, hstep⟩ := hnext
    exact ih.step hp hstep

theorem exists_last_proc {prog : Prog Unit} (h : Reaches cap prog s) :
    ∃ i p, s.procs[i]? = some p ∧ Last s i := by
  have hpos : 0 < s.procs.length := by
    induction h with
    | start => exact Nat.one_pos
    | step _ hnext ih =>
      obtain ⟨t, p, -, hstep⟩ := hnext
      exact ih.trans_le hstep.length_le
  refine ⟨s.procs.length - 1, s.procs.get ⟨s.procs.length - 1, by omega⟩,
    List.getElem?_eq_getElem (by omega), ?_⟩
  rw [Last]
  omega

/-! ### The output -/

/-- What the last process has left of the output. -/
theorem At.printed (hat : At s i p) (hlast : Last s i) :
    (∃ k, s.printed = lines k) ∨ Printed s.printed := by
  have hnot : ¬Inner s i := fun hinner => by
    rw [Inner, hlast] at hinner
    exact lt_irrefl _ hinner
  cases hat with
  | mainStart _ _ _ hprinted => exact .inl ⟨0, hprinted⟩
  | mainForking _ _ _ hprinted => exact .inl ⟨0, hprinted⟩
  | mainForked hinner => exact absurd hinner hnot
  | mainSending hinner => exact absurd hinner hnot
  | entering _ _ _ hprinted => exact .inl ⟨_, hprinted⟩
  | reading _ _ _ hprinted => exact .inl ⟨_, hprinted⟩
  | printing _ _ _ hprinted => exact .inl ⟨_, hprinted⟩
  | piping _ _ _ hprinted => exact .inl ⟨_, hprinted⟩
  | forking _ _ _ hprinted => exact .inl ⟨_, hprinted⟩
  | forked _ hinner => exact absurd hinner hnot
  | passing _ hinner => exact absurd hinner hnot
  | writing _ hinner => exact absurd hinner hnot
  | leavingLoop hinner => exact absurd hinner hnot
  | writingLast hinner => exact absurd hinner hnot
  | ending hinner => exact absurd hinner hnot
  | waiting hinner => exact absurd hinner hnot
  | ended hinner => exact absurd hinner hnot
  | failing _ hprinted => exact .inl ⟨_, hprinted⟩
  | leaving _ hprinted => exact .inr hprinted

/-- **What is printed at any time**, in every order of the steps and for every capacity of the
pipes: the first of the primes below 280, in order, each on a line, and behind them at most one
line that says that `pipe` or `fork` failed; never that a read failed. -/
theorem primes_printed {fuel : ℕ} (hfuel : 600 ≤ fuel) (h : Reaches cap (main fuel) s) :
    ∃ k, s.printed = lines k ∨ ∃ e ∈ failures, s.printed = lines k ++ [e] := by
  obtain ⟨i, p, hp, hlast⟩ := exists_last_proc h
  rcases ((Inv.of_reaches hfuel h).at_proc i p hp).printed hlast with
    ⟨k, hk⟩ | hall | ⟨k, e, he, hk⟩
  · exact ⟨k, .inl hk⟩
  · refine ⟨found.length, .inl ?_⟩
    rw [hall, lines, List.take_length]
  · exact ⟨k, .inr ⟨e, he, hk⟩⟩

/-! ### No process waits for ever -/

theorem insert_subset {k : ℕ} (h : k ≤ i + 1) :
    insert (i, .write) (inherited k) ⊆ insert (i, .write) (inherited (i + 1)) := by
  refine Finset.insert_subset_insert _ fun e he => ?_
  obtain ⟨hlt, hread⟩ := mem_inherited.1 he
  exact mem_inherited.2 ⟨hlt.trans_le h, hread⟩

/-- What a process has open when it makes a call, and what it may wait for. -/
structure Calls (s : State ℕ String) (i : ℕ) (p : Proc ℕ String) (c : Pipes.Call ℕ String) :
    Prop where
  ends : ∀ e ∈ p.ends, e.1 ≤ i ∧ (e.2 = .write → e.1 = i ∨ c = .close e)
  read : ∀ j, c = .read j → i = j + 1 ∧ (j, End.write) ∉ p.ends
  write : ∀ j x, c = .write j x → j = i ∧ (i, End.read) ∉ p.ends
  wait : c = .wait → p.ends = inherited (i - 1) ∧ p.kids = [i + 1] ∧ Inner s i

/-- A call that does not wait. -/
theorem Calls.of_quick {c : Pipes.Call ℕ String}
    (hends : ∀ e ∈ p.ends, e.1 ≤ i ∧ (e.2 = .write → e.1 = i)) (hread : ∀ j, c ≠ .read j)
    (hwrite : ∀ j x, c ≠ .write j x) (hwait : c ≠ .wait) : Calls s i p c :=
  ⟨fun e he => ⟨(hends e he).1, fun hw => .inl ((hends e he).2 hw)⟩,
    fun j h => absurd h (hread j), fun j x h => absurd h (hwrite j x), fun h => absurd h hwait⟩

/-- A write to the pipe of the process. -/
theorem Calls.of_write {x k : ℕ} (hends : p.ends = insert (i, .write) (inherited k)) (hk : k ≤ i) :
    Calls s i p (.write i x) := by
  refine ⟨fun e he => ?_, nofun, fun j y h => ?_, nofun⟩
  · have hle := ends_le i (insert_subset (Nat.le_succ_of_le hk)) e (hends ▸ he)
    exact ⟨hle.1, fun hw => .inl (hle.2 hw)⟩
  · obtain ⟨rfl, -⟩ := Call.write.inj h
    refine ⟨rfl, fun hmem => ?_⟩
    rw [hends] at hmem
    rcases Finset.mem_insert.1 hmem with hmem | hmem
    · cases hmem
    · exact absurd (mem_inherited.1 hmem).1 (Nat.not_lt.2 hk)

/-- **Which calls a process makes where it is.** -/
theorem At.calls (hat : At s i p) {c : Pipes.Call ℕ String}
    {k : Reply c → Prog Unit} (hprog : p.prog = .ask c k) : Calls s i p c := by
  cases hat with
  | mainStart =>
    obtain ⟨rfl, -⟩ := Process.ask.inj hprog
    exact .of_quick (fun e he => absurd he (Finset.notMem_empty e)) nofun nofun nofun
  | mainForking =>
    obtain ⟨rfl, -⟩ := Process.ask.inj hprog
    exact .of_quick (ends_le 0 subset_rfl) nofun nofun nofun
  | mainForked =>
    obtain ⟨rfl, -⟩ := Process.ask.inj hprog
    exact .of_quick (ends_le 0 subset_rfl) nofun nofun nofun
  | @mainSending done is =>
    cases is with
    | nil =>
      obtain ⟨rfl, -⟩ := Process.ask.inj hprog
      exact .of_quick (ends_le 0 (insert_subset (Nat.zero_le _))) nofun nofun nofun
    | cons x is =>
      obtain ⟨rfl, -⟩ := Process.ask.inj hprog
      exact .of_write rfl le_rfl
  | @entering fuel j =>
    obtain ⟨rfl, -⟩ := Process.ask.inj hprog
    refine ⟨fun e he => ?_, nofun, nofun, nofun⟩
    rcases Finset.mem_insert.1 he with rfl | hmem
    · exact ⟨Nat.le_succ j, fun _ => .inr rfl⟩
    · obtain ⟨hlt, hread⟩ := mem_inherited.1 hmem
      exact ⟨hlt.le, fun hw => nomatch hread.symm.trans hw⟩
  | @reading fuel j hfuel hlast hpipes hprinted hgot =>
    cases fuel with
    | zero => cases hprog
    | succ f =>
      rw [primes_succ] at hprog
      obtain ⟨rfl, -⟩ := Process.ask.inj hprog
      refine ⟨fun e he => ?_, fun k h => ?_, nofun, nofun⟩
      · obtain ⟨hlt, hread⟩ := mem_inherited.1 he
        exact ⟨hlt.le, fun hw => nomatch hread.symm.trans hw⟩
      · obtain rfl := Call.read.inj h
        exact ⟨rfl, write_notMem _ _⟩
  | printing =>
    obtain ⟨rfl, -⟩ := Process.ask.inj hprog
    exact .of_quick (ends_le _ (inherited_subset _)) nofun nofun nofun
  | piping =>
    obtain ⟨rfl, -⟩ := Process.ask.inj hprog
    exact .of_quick (ends_le _ (inherited_subset _)) nofun nofun nofun
  | forking =>
    obtain ⟨rfl, -⟩ := Process.ask.inj hprog
    exact .of_quick (ends_le _ subset_rfl) nofun nofun nofun
  | forked =>
    obtain ⟨rfl, -⟩ := Process.ask.inj hprog
    exact .of_quick (ends_le _ subset_rfl) nofun nofun nofun
  | @passing fuel j cur rcv r hfuel hinner hcur hrcv =>
    cases fuel with
    | zero => cases hprog
    | succ f =>
      rw [loop_read hrcv] at hprog
      obtain ⟨rfl, -⟩ := Process.ask.inj hprog
      refine ⟨fun e he => ?_, fun k h => ?_, nofun, nofun⟩
      · have hle := ends_le _ (insert_subset (Nat.le_succ _)) e he
        exact ⟨hle.1, fun hw => .inl (hle.2 hw)⟩
      · obtain rfl := Call.read.inj h
        refine ⟨rfl, fun hmem => ?_⟩
        rcases Finset.mem_insert.1 hmem with hmem | hmem
        · exact absurd (congrArg Prod.fst hmem) (Nat.ne_of_lt (Nat.lt_succ_self _))
        · exact write_notMem _ _ hmem
  | writing =>
    obtain ⟨rfl, -⟩ := Process.ask.inj hprog
    exact .of_write rfl le_rfl
  | leavingLoop =>
    obtain ⟨rfl, -⟩ := Process.ask.inj hprog
    exact .of_quick (ends_le _ (insert_subset (Nat.le_succ _))) nofun nofun nofun
  | writingLast =>
    obtain ⟨rfl, -⟩ := Process.ask.inj hprog
    exact .of_write rfl (Nat.le_succ _)
  | ending =>
    obtain ⟨rfl, -⟩ := Process.ask.inj hprog
    exact .of_quick (ends_le _ (insert_subset (by omega))) nofun nofun nofun
  | waiting hinner =>
    obtain ⟨rfl, -⟩ := Process.ask.inj hprog
    refine ⟨fun e he => ?_, nofun, nofun, fun _ => ⟨rfl, rfl, hinner⟩⟩
    obtain ⟨hlt, hread⟩ := mem_inherited.1 he
    exact ⟨by omega, fun hw => nomatch hread.symm.trans hw⟩
  | ended => cases hprog
  | failing _ _ _ hends =>
    obtain ⟨rfl, -⟩ := Process.ask.inj hprog
    exact .of_quick hends nofun nofun nofun
  | @leaving i status es ends _ _ hends =>
    cases es with
    | nil => cases hprog
    | cons e es =>
      obtain ⟨rfl, -⟩ := Process.ask.inj hprog
      exact .of_quick hends nofun nofun nofun

/-- Who has the write end of a pipe open: the process before it, or one that closes it next. -/
theorem Inv.writer (h : Inv s) (hstuck : ∀ s', ¬Next cap s s') {k : ℕ}
    (hheld : s.Held (k, .write)) :
    ∃ p, s.procs[k]? = some p ∧ p.Running ∧ (k, End.write) ∈ p.ends := by
  obtain ⟨q, p, hp, ⟨c, g, hprog⟩, hmem⟩ := hheld
  rcases (((h.at_proc q p hp).calls hprog).ends _ hmem).2 rfl with hk | rfl
  · dsimp only at hk
    subst hk
    exact ⟨p, hp, ⟨c, g, hprog⟩, hmem⟩
  · exact absurd ⟨q, p, hp, .call hprog .close⟩ (hstuck _)

/-- **No process waits for a number** that nobody will write. -/
theorem Inv.not_blocked_read (h : Inv s) (hcap : 0 < cap) (hstuck : ∀ s', ¬Next cap s s') :
    ∀ (i : ℕ) (p : Proc ℕ String) (j : ℕ) (k : Option ℕ → Prog Unit) (π : Pipe ℕ),
      s.procs[i]? = some p → p.prog = .ask (.read j) k → s.pipes[j]? = some π →
      π.sent.length ≤ π.taken → s.Held (j, .write) → False := by
  intro i
  induction i with
  | zero =>
    intro p j k π hp hprog _ _ _
    obtain ⟨hij, -⟩ := ((h.at_proc 0 p hp).calls hprog).read j rfl
    exact absurd hij (Nat.succ_ne_zero j).symm
  | succ i ih =>
    intro p j k π hp hprog hπ hempty hheld
    obtain ⟨hij, -⟩ := ((h.at_proc (i + 1) p hp).calls hprog).read j rfl
    obtain rfl := Nat.succ.inj hij
    -- the process before it can write, and waits itself
    obtain ⟨q, hq, hrun, hmem⟩ := h.writer hstuck hheld
    have hblocked : ∀ s', ¬Step cap s i q s' := fun s' hstep => hstuck s' ⟨i, q, hq, hstep⟩
    rcases blocked_cases hrun hblocked with ⟨j, k', ρ, hprog', -, hρ, hempty', hheld'⟩ |
      ⟨j, x, k', ρ, hprog', -, hρ, hfull, -⟩ | ⟨k', hprog', -⟩
    · exact ih q j k' ρ hq hprog' hρ hempty' hheld'
    · obtain ⟨hji, -⟩ := ((h.at_proc i q hq).calls hprog').write j x rfl
      rw [hji] at hρ
      obtain rfl := Option.some.inj (hπ.symm.trans hρ)
      omega
    · obtain ⟨hends, -⟩ := ((h.at_proc i q hq).calls hprog').wait rfl
      rw [hends] at hmem
      exact write_notMem _ _ hmem

/-- Of the processes that run, one was forked last. -/
theorem exists_last_running (h : ∃ (i : ℕ) (p : Proc ℕ String), s.procs[i]? = some p ∧ p.Running) :
    ∃ i p, s.procs[i]? = some p ∧ p.Running ∧
      ∀ (q : ℕ) (c : Proc ℕ String), s.procs[q]? = some c → i < q → ¬c.Running := by
  classical
  obtain ⟨q, c, hq, hrun⟩ := h
  have hle : q ≤ s.procs.length := (List.getElem?_eq_some_iff.1 hq).1.le
  have hspec := Nat.findGreatest_spec
    (P := fun q => ∃ c : Proc ℕ String, s.procs[q]? = some c ∧ c.Running) hle ⟨c, hq, hrun⟩
  obtain ⟨p, hp, hp'⟩ := hspec
  refine ⟨_, p, hp, hp', fun r d hr hlt hd => ?_⟩
  exact Nat.findGreatest_is_greatest hlt (List.getElem?_eq_some_iff.1 hr).1.le ⟨d, hr, hd⟩

/-- **The processes go on until none of them runs.** -/
theorem Inv.next_or_ended (h : Inv s) (hcap : 0 < cap) :
    (∃ s', Next cap s s') ∨ ∀ (i : ℕ) (p : Proc ℕ String), s.procs[i]? = some p → ¬p.Running := by
  by_contra hnot
  push Not at hnot
  obtain ⟨hstuck, hsome⟩ := hnot
  obtain ⟨i, p, hp, hrun, hlater⟩ := exists_last_running hsome
  have hblocked : ∀ s', ¬Step cap s i p s' := fun s' hstep => hstuck s' ⟨i, p, hp, hstep⟩
  rcases blocked_cases hrun hblocked with ⟨j, k, π, hprog, -, hπ, hempty, hheld⟩ |
    ⟨j, x, k, π, hprog, -, -, -, hheld⟩ | ⟨k, hprog, -, hkids⟩
  · exact h.not_blocked_read hcap hstuck i p j k π hp hprog hπ hempty hheld
  · -- whoever has the read end was forked later
    obtain ⟨rfl, hread⟩ := ((h.at_proc i p hp).calls hprog).write j x rfl
    obtain ⟨q, c, hq, hcrun, hmem⟩ := hheld
    obtain ⟨d, g, hcprog⟩ := id hcrun
    have hle := (((h.at_proc q c hq).calls hcprog).ends _ hmem).1
    rcases Nat.eq_or_lt_of_le hle with heq | hlt
    · dsimp only at heq
      subst heq
      obtain rfl := Option.some.inj (hp.symm.trans hq)
      exact hread hmem
    · exact hlater q c hq hlt hcrun
  · obtain ⟨-, hown, hinner⟩ := ((h.at_proc i p hp).calls hprog).wait rfl
    have hchild : s.procs[i + 1]? = some (s.procs.get ⟨i + 1, hinner⟩) :=
      List.getElem?_eq_getElem hinner
    refine hkids (i + 1) (by rw [hown]; exact List.mem_singleton_self _) ⟨_, hchild, ?_⟩
    exact hlater (i + 1) _ hchild (Nat.lt_succ_self i)

/-- A process that does not run has exited. -/
theorem At.exited (hat : At s i p) (h : Inv s) (hended : ¬p.Running) :
    (∃ status, p.prog = .exit status) ∧ (Last s i → Printed s.printed) := by
  have hcall : ∀ c k, p.prog ≠ .ask c k := fun c k hprog => hended ⟨c, k, hprog⟩
  cases hat with
  | mainStart => exact absurd rfl (hcall _ _)
  | mainForking => exact absurd rfl (hcall _ _)
  | mainForked => exact absurd rfl (hcall _ _)
  | @mainSending done is =>
    cases is with
    | nil => exact absurd rfl (hcall _ _)
    | cons x is => exact absurd rfl (hcall _ _)
  | entering => exact absurd rfl (hcall _ _)
  | @reading fuel j hfuel hlast hpipes hprinted hgot =>
    have hfound := (h.got hgot).2.1.le.trans length_found_le
    rw [limit] at hfound
    obtain ⟨f, rfl⟩ := Nat.exists_eq_succ_of_ne_zero (show fuel ≠ 0 by omega)
    exact absurd (primes_succ f j) (hcall _ _)
  | printing => exact absurd rfl (hcall _ _)
  | piping => exact absurd rfl (hcall _ _)
  | forking => exact absurd rfl (hcall _ _)
  | forked => exact absurd rfl (hcall _ _)
  | @passing fuel j cur rcv r hfuel hinner hcur hrcv hgot =>
    have hlength := (h.got hgot).2.2
    rw [List.length_cons, limit] at hlength
    obtain ⟨f, rfl⟩ := Nat.exists_eq_succ_of_ne_zero (show fuel ≠ 0 by omega)
    exact absurd (loop_read hrcv _) (hcall _ _)
  | writing => exact absurd rfl (hcall _ _)
  | leavingLoop => exact absurd rfl (hcall _ _)
  | writingLast => exact absurd rfl (hcall _ _)
  | ending => exact absurd rfl (hcall _ _)
  | waiting => exact absurd rfl (hcall _ _)
  | ended hinner =>
    refine ⟨⟨_, rfl⟩, fun hlast => ?_⟩
    rw [Inner, hlast] at hinner
    exact absurd hinner (lt_irrefl _)
  | failing => exact absurd rfl (hcall _ _)
  | @leaving i status es ends hlast hprinted =>
    cases es with
    | nil => exact ⟨⟨status, rfl⟩, fun _ => hprinted⟩
    | cons e es => exact absurd rfl (hcall _ _)

/-- **The processes come to an end**, in every order of their steps and for every capacity of the
pipes: as long as one of them has not exited, one of them makes a step; they do not go on for
ever; and when all have exited, all the primes below 280 are printed, or the last line says that
`pipe` or `fork` failed. -/
theorem primes_completes {fuel : ℕ} (hfuel : 600 ≤ fuel) (hcap : 0 < cap)
    (h : Reaches cap (main fuel) s) :
    ((∃ s', Next cap s s') ∨ ∀ p ∈ s.procs, ∃ status, p.prog = .exit status) ∧
      (¬∃ f : ℕ → State ℕ String, f 0 = s ∧ ∀ n, Next cap (f n) (f (n + 1))) ∧
      ((∀ p ∈ s.procs, ∃ status, p.prog = .exit status) → Printed s.printed) := by
  have hinv := Inv.of_reaches hfuel h
  refine ⟨?_, ?_, fun hall => ?_⟩
  · refine (hinv.next_or_ended hcap).imp_right fun hended p hp => ?_
    obtain ⟨i, hi⟩ := List.mem_iff_getElem?.1 hp
    exact ((hinv.at_proc i p hi).exited hinv (hended i p hi)).1
  · rintro ⟨f, -, hf⟩
    exact not_infinite cap ⟨f, hf⟩
  · obtain ⟨i, p, hp, hlast⟩ := exists_last_proc h
    obtain ⟨status, hexit⟩ := hall p (List.mem_of_getElem? hp)
    refine ((hinv.at_proc i p hp).exited hinv ?_).2 hlast
    rintro ⟨c, k, hprog⟩
    exact absurd (hexit.symm.trans hprog) nofun

end Frame

/-! ### The first steps of a run -/

/-- `main` when it has written the first number, and the process that it forked. -/
def sentTwo (child : Proc ℕ String) (pip : Pipe ℕ) (printed : List String) : State ℕ String :=
  ⟨[⟨sendAll 0 numbers.tail >>= fun _ => primesEnd 0, insert (0, .write) (inherited 0), [1]⟩,
    child], [pip], printed⟩

/-- The first number goes through the first pipe, and is printed. -/
theorem reaches_line_two : Reaches 128 (main 600)
    (sentTwo ⟨pipe >>= primesPiped 599 (primes 599) 0 2, inherited 1, []⟩ ⟨[2], 1⟩ [line 2]) := by
  have hpiped : Reaches 128 (main 600)
      ⟨[⟨fork >>= mainForked 600 0, insert (0, .write) (inherited 1), []⟩], [⟨[], 0⟩], []⟩ :=
    .step .start (.call (t := 0) rfl rfl .pipe rfl)
  have hforked : Reaches 128 (main 600)
      ⟨[⟨mainForked 600 0 .parent, insert (0, .write) (inherited 1), [1]⟩,
        ⟨mainForked 600 0 .child, insert (0, .write) (inherited 1), []⟩], [⟨[], 0⟩], []⟩ :=
    .step hpiped ⟨0, _, rfl, .fork rfl⟩
  have hsending : Reaches 128 (main 600)
      ⟨[⟨sendAll 0 numbers >>= fun _ => primesEnd 0, insert (0, .write) (inherited 0), [1]⟩,
        ⟨mainForked 600 0 .child, insert (0, .write) (inherited 1), []⟩], [⟨[], 0⟩], []⟩ := by
    rw [← erase_read]
    exact .step hforked (.call (t := 0) rfl rfl .close rfl)
  have hsent : Reaches 128 (main 600)
      (sentTwo ⟨mainForked 600 0 .child, insert (0, .write) (inherited 1), []⟩ ⟨[2], 0⟩ []) :=
    .step hsending (.call (t := 0) rfl rfl (.write (by decide) rfl (by decide)
      ⟨1, _, rfl, ⟨_, _, rfl⟩, by decide⟩) rfl)
  have hentered : Reaches 128 (main 600) (sentTwo ⟨primes 600 0, inherited 1, []⟩ ⟨[2], 0⟩ []) := by
    rw [← erase_write 0 1]
    exact .step hsent (.call (t := 1) rfl rfl .close rfl)
  have hread : Reaches 128 (main 600)
      (sentTwo ⟨printf (line 2) >>= fun _ => pipe >>= primesPiped 599 (primes 599) 0 2,
        inherited 1, []⟩ ⟨[2], 1⟩ []) :=
    .step hentered (.call (t := 1) rfl rfl (.read (by decide) rfl rfl) rfl)
  exact .step hread (.call (t := 1) rfl rfl .print rfl)

/-- `main`, the first process and the second one, while numbers go through both pipes. -/
def threeProcs (is : List ℕ) (first second : Proc ℕ String) (sent taken : ℕ)
    (pip : Pipe ℕ) (printed : List String) : State ℕ String :=
  ⟨[⟨sendAll 0 is >>= fun _ => primesEnd 0, insert (0, .write) (inherited 0), [1]⟩, first, second],
    [⟨numbers.take sent, taken⟩, pip], printed⟩

/-- The run goes on with another process, and the second prime is printed. -/
theorem reaches_line_three : Reaches 128 (main 600)
    (threeProcs (numbers.drop 2)
      ⟨primesLoop 0 1 2 598 3 >>= primesLast 0 1, insert (1, .write) (inherited 1), [2]⟩
      ⟨pipe >>= primesPiped 598 (primes 598) 1 3, inherited 2, []⟩ 2 2 ⟨[3], 1⟩
      [line 2, line 3]) := by
  have hpiped : Reaches 128 (main 600)
      ⟨[⟨sendAll 0 (numbers.drop 1) >>= fun _ => primesEnd 0, insert (0, .write) (inherited 0), [1]⟩,
        ⟨fork >>= primesForked 599 (primes 599 1) 0 1 2, insert (1, .write) (inherited 2), []⟩],
        [⟨[2], 1⟩, ⟨[], 0⟩], [line 2]⟩ := by
    rw [inherited_succ 1]
    exact .step reaches_line_two (.call (t := 1) rfl rfl .pipe rfl)
  have hforked : Reaches 128 (main 600)
      (threeProcs (numbers.drop 1)
        ⟨primesForked 599 (primes 599 1) 0 1 2 .parent, insert (1, .write) (inherited 2), [2]⟩
        ⟨primesForked 599 (primes 599 1) 0 1 2 .child, insert (1, .write) (inherited 2), []⟩ 1 1
        ⟨[], 0⟩ [line 2]) :=
    .step hpiped ⟨1, _, rfl, .fork rfl⟩
  have hloop : Reaches 128 (main 600)
      (threeProcs (numbers.drop 1)
        ⟨primesLoop 0 1 2 599 0 >>= primesLast 0 1, insert (1, .write) (inherited 1), [2]⟩
        ⟨primesForked 599 (primes 599 1) 0 1 2 .child, insert (1, .write) (inherited 2), []⟩ 1 1
        ⟨[], 0⟩ [line 2]) := by
    rw [← erase_read 1 1]
    exact .step hforked (.call (t := 1) rfl rfl .close rfl)
  have hsent : Reaches 128 (main 600)
      (threeProcs (numbers.drop 2)
        ⟨primesLoop 0 1 2 599 0 >>= primesLast 0 1, insert (1, .write) (inherited 1), [2]⟩
        ⟨primesForked 599 (primes 599 1) 0 1 2 .child, insert (1, .write) (inherited 2), []⟩ 2 1
        ⟨[], 0⟩ [line 2]) :=
    .step hloop (.call (t := 0) rfl rfl (.write (by decide) rfl (by decide)
      ⟨1, _, rfl, ⟨_, _, rfl⟩, by decide⟩) rfl)
  have hread : Reaches 128 (main 600)
      (threeProcs (numbers.drop 2)
        ⟨writeInt 1 3 >>= fun _ => primesLoop 0 1 2 598 3 >>= primesLast 0 1,
          insert (1, .write) (inherited 1), [2]⟩
        ⟨primesForked 599 (primes 599 1) 0 1 2 .child, insert (1, .write) (inherited 2), []⟩ 2 2
        ⟨[], 0⟩ [line 2]) :=
    .step hsent (.call (t := 1) rfl rfl (.read (by decide) rfl rfl) rfl)
  have hpassed : Reaches 128 (main 600)
      (threeProcs (numbers.drop 2)
        ⟨primesLoop 0 1 2 598 3 >>= primesLast 0 1, insert (1, .write) (inherited 1), [2]⟩
        ⟨primesForked 599 (primes 599 1) 0 1 2 .child, insert (1, .write) (inherited 2), []⟩ 2 2
        ⟨[3], 0⟩ [line 2]) :=
    .step hread (.call (t := 1) rfl rfl (.write (by decide) rfl (by decide)
      ⟨2, _, rfl, ⟨_, _, rfl⟩, by decide⟩) rfl)
  have hentered : Reaches 128 (main 600)
      (threeProcs (numbers.drop 2)
        ⟨primesLoop 0 1 2 598 3 >>= primesLast 0 1, insert (1, .write) (inherited 1), [2]⟩
        ⟨primes 599 1, inherited 2, []⟩ 2 2 ⟨[3], 0⟩ [line 2]) := by
    rw [← erase_write 1 2]
    exact .step hpassed (.call (t := 2) rfl rfl .close rfl)
  have hfound : Reaches 128 (main 600)
      (threeProcs (numbers.drop 2)
        ⟨primesLoop 0 1 2 598 3 >>= primesLast 0 1, insert (1, .write) (inherited 1), [2]⟩
        ⟨printf (line 3) >>= fun _ => pipe >>= primesPiped 598 (primes 598) 1 3, inherited 2, []⟩
        2 2 ⟨[3], 1⟩ [line 2]) :=
    .step hentered (.call (t := 2) rfl rfl (.read (by decide) rfl rfl) rfl)
  exact .step hfound (.call (t := 2) rfl rfl .print rfl)

/-- `main` and the one process it forked have exited, and no number is on its way. -/
def failed : State ℕ String :=
  ⟨[⟨.exit 1, insert (0, .write) (inherited 0), [1]⟩, ⟨.exit 1, inherited 0, []⟩], [⟨[2], 1⟩],
    [line 2, "creating pip error\n"]⟩

/-- The run where the second `pipe` fails: the child says so and exits, and `main` is killed when it
writes the next number. -/
theorem reaches_failed : Reaches 128 (main 600) failed := by
  have hfailed : Reaches 128 (main 600)
      (sentTwo ⟨printf "creating pip error\n" >>= fun _ => leave 1 [(0, .read)], inherited 1, []⟩
        ⟨[2], 1⟩ [line 2]) :=
    .step reaches_line_two (.call (t := 1) rfl rfl .noPipe rfl)
  have hsaid : Reaches 128 (main 600)
      (sentTwo ⟨leave 1 [(0, .read)], inherited 1, []⟩ ⟨[2], 1⟩ [line 2, "creating pip error\n"]) :=
    .step hfailed (.call (t := 1) rfl rfl .print rfl)
  have hexited : Reaches 128 (main 600)
      (sentTwo ⟨.exit 1, inherited 0, []⟩ ⟨[2], 1⟩ [line 2, "creating pip error\n"]) :=
    .step hsaid (.call (t := 1) rfl rfl .close rfl)
  have hnone : ¬(sentTwo ⟨.exit 1, inherited 0, []⟩ ⟨[2], 1⟩
      [line 2, "creating pip error\n"]).Held (0, .read) := by
    rintro ⟨q, p, hq, ⟨c, k, hprog⟩, hmem⟩
    rcases List.mem_pair.1 (List.mem_of_getElem? hq) with rfl | rfl
    · exact absurd hmem (by decide)
    · cases hprog
  exact .step hexited ⟨0, _, rfl, .killed rfl hnone 1⟩

theorem primes_printed_three : ∃ s, Reaches 128 (main 600) s ∧ s.printed = [line 2, line 3] ∧
    ∃ k, s.printed = lines k ∨ ∃ e ∈ failures, s.printed = lines k ++ [e] :=
  ⟨_, reaches_line_three, rfl, primes_printed le_rfl reaches_line_three⟩

/-- At the state with two primes printed some process goes on, and the run with a failure comes to
an end that `Printed` allows. -/
theorem primes_completes_three :
    (∃ s, Reaches 128 (main 600) s ∧ s.printed = [line 2, line 3] ∧ (∃ s', Next 128 s s') ∧
      ¬∃ f : ℕ → State ℕ String, f 0 = s ∧ ∀ n, Next 128 (f n) (f (n + 1))) ∧
    ∃ s, Reaches 128 (main 600) s ∧ (∀ p ∈ s.procs, ∃ status, p.prog = .exit status) ∧
      s.printed = [line 2, "creating pip error\n"] ∧ Printed s.printed := by
  obtain ⟨hnext, hends, -⟩ := primes_completes le_rfl (by decide) reaches_line_three
  obtain ⟨-, -, hprinted⟩ := primes_completes le_rfl (by decide) reaches_failed
  have hexited : ∀ p ∈ failed.procs, ∃ status, p.prog = .exit status := by
    intro p hp
    rcases List.mem_pair.1 hp with rfl | rfl
    · exact ⟨1, rfl⟩
    · exact ⟨1, rfl⟩
  refine ⟨⟨_, reaches_line_three, rfl, hnext.resolve_right fun hall => ?_, hends⟩, _,
    reaches_failed, hexited, rfl, hprinted hexited⟩
  obtain ⟨status, hexit⟩ := hall _ List.mem_cons_self
  cases hexit

end Primes
end V6User
