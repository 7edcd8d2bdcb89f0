import Mathlib.Data.List.MinMax
import V6User.Base.Replace
import V6User.Wakestorm.Select

/-!
# The stalls that the threads record

`programs/wakestorm/wakestorm.c`: `atomic_max_u64` and `record_gui_stall`, called by any number
of threads at the same time.

Each call takes one of the sample slots by its `atomic_fetch_add_u64`, and no other call gets
that slot: what the slots stand for, together with what the threads have not counted yet, are
always the stalls of all calls (`Inv.perm`).  A value that `atomic_max_u64` leaves behind is
never above the word, since the word only grows (`Placed`).  The loop of `atomic_max_u64` goes
round again only when another thread has raised the word (`Next.weight_lt`).  So when the
threads are through, the samples are the stalls in some order and the word is their maximum
(`recordGuiStall_run`).
-/

namespace V6User
namespace Wakestorm
namespace Stalls

open Rank

/-- `gui_max_wake_to_run_ns`, `gui_stall_sample_count` and `gui_stall_samples`. -/
structure Words where
  maxWake : ℕ
  count : ℕ
  samples : Samples

/-- Where a thread is in `record_gui_stall`. -/
inductive Place
  | outside
  /-- `while (old < val && …)` of `atomic_max_u64` -/
  | compare (stall old : ℕ)
  /-- before `atomic_fetch_add_u64` -/
  | fetch (stall : ℕ)
  /-- before `if (idx < MAX_GUI_STALL_SAMPLES)` -/
  | store (stall idx : ℕ)
  deriving DecidableEq

/-- A thread, and the arguments `sent` and `started` of the calls that it will still make. -/
structure Thread where
  place : Place
  calls : List (ℕ × ℕ)
  deriving DecidableEq

/-- What a thread does to the words next. -/
def recordGuiStall (w : Words) (th : Thread) : Option (Words × Thread) :=
  match th.place, th.calls with
  | .outside, [] => none
  | .outside, (sent, started) :: calls =>
    if sent = 0 ∨ started < sent then some (w, ⟨.outside, calls⟩)
    else some (w, ⟨.compare (started - sent) w.maxWake, calls⟩)
  | .compare stall old, calls =>
    if old < stall then
      -- a compare and exchange that fails leaves what it saw in `old`
      if w.maxWake = old then some ({ w with maxWake := stall }, ⟨.fetch stall, calls⟩)
      else some (w, ⟨.compare stall w.maxWake, calls⟩)
    else some (w, ⟨.fetch stall, calls⟩)
  | .fetch stall, calls =>
    some ({ w with count := (w.count + 1) % 2 ^ 64 }, ⟨.store stall w.count, calls⟩)
  | .store stall idx, calls =>
    if idx < maxSamples then
      some ({ w with samples := Function.update w.samples idx stall }, ⟨.outside, calls⟩)
    else some (w, ⟨.outside, calls⟩)

/-- The words and all threads. -/
structure State where
  words : Words
  threads : List Thread

/-- Any thread goes on. -/
inductive Next (s : State) : State → Prop
  | step {i : ℕ} {th th' : Thread} {w : Words} (hth : s.threads[i]? = some th)
    (hstep : recordGuiStall s.words th = some (w, th')) : Next s ⟨w, s.threads.set i th'⟩

/-- The threads before their first calls. -/
def start (calls : List (List (ℕ × ℕ))) : State :=
  ⟨⟨0, 0, fun _ => 0⟩, calls.map fun l => ⟨.outside, l⟩⟩

/-- What can be reached from the start. -/
def Reaches (calls : List (List (ℕ × ℕ))) : State → Prop :=
  Relation.ReflTransGen Next (start calls)

/-- The threads have made all their calls. -/
def State.Done (s : State) : Prop := ∀ th ∈ s.threads, th = ⟨.outside, []⟩

/-- The stall that a call records. -/
def stallOf (call : ℕ × ℕ) : Option ℕ :=
  if call.1 = 0 ∨ call.2 < call.1 then none else some (call.2 - call.1)

/-- The stalls of all calls. -/
def stalls (calls : List (List (ℕ × ℕ))) : List ℕ :=
  calls.flatMap fun l => l.filterMap stallOf

variable {w w' : Words} {th th' : Thread} {s s' : State} {i : ℕ} {v : ℕ → ℕ}

/-- What one step of a thread can be. -/
inductive Moves (w : Words) : Thread → Words → Thread → Prop
  | skip {call : ℕ × ℕ} {calls : List (ℕ × ℕ)} (h : stallOf call = none) :
    Moves w ⟨.outside, call :: calls⟩ w ⟨.outside, calls⟩
  | load {call : ℕ × ℕ} {calls : List (ℕ × ℕ)} {stall : ℕ} (h : stallOf call = some stall) :
    Moves w ⟨.outside, call :: calls⟩ w ⟨.compare stall w.maxWake, calls⟩
  | swap {stall : ℕ} {calls : List (ℕ × ℕ)} (h : w.maxWake < stall) :
    Moves w ⟨.compare stall w.maxWake, calls⟩ { w with maxWake := stall } ⟨.fetch stall, calls⟩
  | retry {stall old : ℕ} {calls : List (ℕ × ℕ)} (h : old ≠ w.maxWake) :
    Moves w ⟨.compare stall old, calls⟩ w ⟨.compare stall w.maxWake, calls⟩
  | keep {stall old : ℕ} {calls : List (ℕ × ℕ)} (h : stall ≤ old) :
    Moves w ⟨.compare stall old, calls⟩ w ⟨.fetch stall, calls⟩
  | fetch {stall : ℕ} {calls : List (ℕ × ℕ)} :
    Moves w ⟨.fetch stall, calls⟩ { w with count := (w.count + 1) % 2 ^ 64 }
      ⟨.store stall w.count, calls⟩
  | store {stall idx : ℕ} {calls : List (ℕ × ℕ)} (h : idx < maxSamples) :
    Moves w ⟨.store stall idx, calls⟩
      { w with samples := Function.update w.samples idx stall } ⟨.outside, calls⟩
  | drop {stall idx : ℕ} {calls : List (ℕ × ℕ)} (h : maxSamples ≤ idx) :
    Moves w ⟨.store stall idx, calls⟩ w ⟨.outside, calls⟩

theorem moves_of_recordGuiStall (h : recordGuiStall w th = some (w', th')) :
    Moves w th w' th' := by
  obtain ⟨place, calls⟩ := th
  cases place with
  | outside =>
    cases calls with
    | nil => exact absurd h (by simp [recordGuiStall])
    | cons call calls =>
      simp only [recordGuiStall] at h
      split_ifs at h with hskip
      · obtain ⟨rfl, rfl⟩ := Prod.mk.inj (Option.some.inj h)
        exact .skip (if_pos hskip)
      · obtain ⟨rfl, rfl⟩ := Prod.mk.inj (Option.some.inj h)
        exact .load (if_neg hskip)
  | compare stall old =>
    simp only [recordGuiStall] at h
    split_ifs at h with hlt heq
    · obtain ⟨rfl, rfl⟩ := Prod.mk.inj (Option.some.inj h)
      subst heq
      exact .swap hlt
    · obtain ⟨rfl, rfl⟩ := Prod.mk.inj (Option.some.inj h)
      exact .retry (Ne.symm heq)
    · obtain ⟨rfl, rfl⟩ := Prod.mk.inj (Option.some.inj h)
      exact .keep (Nat.not_lt.1 hlt)
  | fetch stall =>
    obtain ⟨rfl, rfl⟩ := Prod.mk.inj (Option.some.inj h)
    exact .fetch
  | store stall idx =>
    simp only [recordGuiStall] at h
    split_ifs at h with hlt
    · obtain ⟨rfl, rfl⟩ := Prod.mk.inj (Option.some.inj h)
      exact .store hlt
    · obtain ⟨rfl, rfl⟩ := Prod.mk.inj (Option.some.inj h)
      exact .drop (Nat.not_lt.1 hlt)

/-- A thread that has not made all its calls goes on. -/
theorem exists_recordGuiStall (h : th ≠ ⟨.outside, []⟩) : ∃ r, recordGuiStall w th = some r := by
  rw [← Option.isSome_iff_exists]
  obtain ⟨place, calls⟩ := th
  cases place with
  | outside =>
    cases calls with
    | nil => exact absurd rfl h
    | cons call calls =>
      simp only [recordGuiStall]
      split_ifs <;> rfl
  | compare stall old =>
    simp only [recordGuiStall]
    split_ifs <;> rfl
  | fetch stall => rfl
  | store stall idx =>
    simp only [recordGuiStall]
    split_ifs <;> rfl

/-! ### The invariant -/

/-- The stalls that a thread has not counted yet. -/
def Thread.pending (th : Thread) : List ℕ :=
  (match th.place with
    | .compare stall _ | .fetch stall => [stall]
    | .outside | .store _ _ => []) ++ th.calls.filterMap stallOf

/-- What a thread knows of the words; `v` is what the slots stand for. -/
def Placed (w : Words) (v : ℕ → ℕ) : Place → Prop
  | .outside => True
  | .compare _ old => old ≤ w.maxWake
  | .fetch stall => stall ≤ w.maxWake
  | .store stall idx => idx < w.count ∧ stall = v idx

/-- Each slot that was taken stands for one of the stalls `l`. -/
structure Inv (l : List ℕ) (s : State) (v : ℕ → ℕ) : Prop where
  perm : l.Perm (window v s.words.count ++ s.threads.flatMap Thread.pending)
  slots : ∀ k, k < s.words.count → k < maxSamples → s.words.samples k = v k ∨
    ∃ (j : ℕ) (th : Thread), s.threads[j]? = some th ∧ th.place = .store (v k) k
  placed : ∀ (j : ℕ) (th : Thread), s.threads[j]? = some th → Placed s.words v th.place
  counted : ∀ k, k < s.words.count → v k ≤ s.words.maxWake
  reached : s.words.maxWake = 0 ∨ s.words.maxWake ∈ l

theorem window_succ_update (v : ℕ → ℕ) (n x : ℕ) :
    window (Function.update v n x) (n + 1) = window v n ++ [x] := by
  rw [window, window, List.range_succ, List.map_append, List.map_singleton, Function.update_self]
  congr 1
  refine List.map_congr_left fun k hk => ?_
  exact Function.update_of_ne (Nat.ne_of_lt (List.mem_range.1 hk)) ..

/-- The first values, and those from `m` on. -/
theorem window_add_rest (v : ℕ → ℕ) (n m : ℕ) :
    window v (min n m) ++ (List.range (n - m)).map (fun k => v (m + k)) = window v n := by
  rcases Nat.le_total n m with hle | hle
  · rw [Nat.min_eq_left hle, Nat.sub_eq_zero_of_le hle, List.range_zero, List.map_nil,
      List.append_nil]
  · obtain ⟨d, rfl⟩ := Nat.exists_eq_add_of_le hle
    rw [Nat.min_eq_right hle, Nat.add_sub_cancel_left, window, window, List.range_add,
      List.map_append, List.map_map]
    rfl

theorem length_window (v : ℕ → ℕ) (n : ℕ) : (window v n).length = n := by
  rw [window, List.length_map, List.length_range]

theorem inv_start (calls : List (List (ℕ × ℕ))) : Inv (stalls calls) (start calls) fun _ => 0 where
  perm := by
    show (stalls calls).Perm ((calls.map fun l => (⟨.outside, l⟩ : Thread)).flatMap _)
    rw [List.flatMap_map]
    exact .refl _
  slots := fun k hk => absurd hk (Nat.not_lt_zero k)
  placed := by
    intro j th hth
    obtain ⟨l, -, rfl⟩ := List.mem_map.1 (List.mem_of_getElem? hth)
    exact trivial
  counted := fun k hk => absurd hk (Nat.not_lt_zero k)
  reached := .inl rfl

variable {l : List ℕ}

/-- What is pending is among the stalls. -/
theorem Inv.mem_of_pending (h : Inv l s v) (hth : s.threads[i]? = some th) {x : ℕ}
    (hx : x ∈ th.pending) : x ∈ l := by
  refine h.perm.mem_iff.2 (List.mem_append_right _ ?_)
  exact List.mem_flatMap.2 ⟨th, List.mem_of_getElem? hth, hx⟩

/-- What a thread knows stays true while the words grow. -/
theorem Placed.mono {v' : ℕ → ℕ} {place : Place} (h : Placed w v place)
    (hmax : w.maxWake ≤ w'.maxWake) (hcount : w.count ≤ w'.count)
    (hv : ∀ k, k < w.count → v' k = v k) : Placed w' v' place := by
  cases place with
  | outside => exact trivial
  | compare stall old => exact le_trans (h : old ≤ w.maxWake) hmax
  | fetch stall => exact le_trans (h : stall ≤ w.maxWake) hmax
  | store stall idx => exact ⟨h.1.trans_le hcount, h.2.trans (hv idx h.1).symm⟩

/-- What holds of the threads where one has gone on. -/
theorem placed_set {ths : List Thread} {P : Place → Prop}
    (h : ∀ (j : ℕ) (th : Thread), ths[j]? = some th → P th.place) (hP : P th'.place) (j : ℕ)
    (th : Thread) (hj : (ths.set i th')[j]? = some th) : P th.place := by
  rcases List.mem_or_eq_of_mem_set (List.mem_of_getElem? hj) with hmem | rfl
  · obtain ⟨j', hj'⟩ := List.mem_iff_getElem?.1 hmem
    exact h j' th hj'
  · exact hP

/-- A thread that is about to store is still there if another one goes on. -/
theorem storing_set {ths : List Thread} {place : Place} (hth : ths[i]? = some th)
    (hne : th.place ≠ place) (h : ∃ (j : ℕ) (th : Thread), ths[j]? = some th ∧ th.place = place) :
    ∃ (j : ℕ) (th : Thread), (ths.set i th')[j]? = some th ∧ th.place = place := by
  obtain ⟨j, th₁, hj, hplace⟩ := h
  have hij : i ≠ j := by
    rintro rfl
    obtain rfl := Option.some.inj (hth.symm.trans hj)
    exact hne hplace
  exact ⟨j, th₁, (List.getElem?_set_ne hij).trans hj, hplace⟩

theorem perm_set {ths : List Thread} (hth : ths[i]? = some th) (h : th.pending = th'.pending) :
    (ths.flatMap Thread.pending).Perm ((ths.set i th').flatMap Thread.pending) := by
  have hset := perm_flatMap_set (f := Thread.pending) (b := th') (e := []) hth
    (by rw [List.append_nil, h])
  rwa [List.append_nil] at hset

/-- **A step that leaves the words alone.** -/
theorem Inv.quiet (h : Inv l s v) (hth : s.threads[i]? = some th)
    (hpending : th.pending = th'.pending) (hplaced : Placed s.words v th'.place)
    (hstore : ∀ x k, th.place = .store x k → maxSamples ≤ k) :
    Inv l ⟨s.words, s.threads.set i th'⟩ v where
  perm := h.perm.trans ((perm_set hth hpending).append_left _)
  slots := by
    intro k hk hmax
    refine (h.slots k hk hmax).imp_right (storing_set hth fun hplace => ?_)
    exact Nat.not_le.2 hmax (hstore _ _ hplace)
  placed := placed_set h.placed hplaced
  counted := h.counted
  reached := h.reached

/-- **The word grows** to one of the stalls. -/
theorem Inv.raise (h : Inv l s v) {stall : ℕ} (hle : s.words.maxWake ≤ stall) (hmem : stall ∈ l) :
    Inv l ⟨{ s.words with maxWake := stall }, s.threads⟩ v where
  perm := h.perm
  slots := h.slots
  placed := fun j th hj => (h.placed j th hj).mono hle le_rfl fun _ _ => rfl
  counted := fun k hk => (h.counted k hk).trans hle
  reached := .inr hmem

/-- **A slot is taken.** -/
theorem Inv.take (h : Inv l s v) {stall : ℕ} {calls : List (ℕ × ℕ)}
    (hth : s.threads[i]? = some ⟨.fetch stall, calls⟩) :
    Inv l ⟨{ s.words with count := s.words.count + 1 },
      s.threads.set i ⟨.store stall s.words.count, calls⟩⟩
      (Function.update v s.words.count stall) where
  perm := by
    show l.Perm (window (Function.update v s.words.count stall) (s.words.count + 1) ++ _)
    have hpending : ([stall] ++ calls.filterMap stallOf).Perm
        (calls.filterMap stallOf ++ [stall]) := List.perm_append_comm
    have hset := perm_flatMap_set (f := Thread.pending) (b := ⟨.store stall s.words.count, calls⟩)
      hth hpending
    rw [window_succ_update, List.append_assoc]
    exact h.perm.trans ((hset.trans List.perm_append_comm).append_left _)
  slots := by
    intro k hk hmax
    rcases Nat.lt_succ_iff_lt_or_eq.1 hk with hlt | rfl
    · rw [Function.update_of_ne (Nat.ne_of_lt hlt)]
      exact (h.slots k hlt hmax).imp_right (storing_set hth Place.noConfusion)
    · rw [Function.update_self]
      exact .inr ⟨i, _, List.getElem?_set_self (List.getElem?_eq_some_iff.1 hth).1, rfl⟩
  placed := by
    refine placed_set (fun j th hj => ?_) ⟨Nat.lt_succ_self _, ?_⟩
    · refine (h.placed j th hj).mono le_rfl (Nat.le_succ _) fun k hk => ?_
      exact Function.update_of_ne (Nat.ne_of_lt hk) ..
    · rw [Function.update_self]
  counted := by
    intro k hk
    rcases Nat.lt_succ_iff_lt_or_eq.1 hk with hlt | rfl
    · rw [Function.update_of_ne (Nat.ne_of_lt hlt)]
      exact h.counted k hlt
    · rw [Function.update_self]
      exact h.placed i _ hth
  reached := h.reached

/-- **A sample is stored** in the slot of its thread. -/
theorem Inv.put (h : Inv l s v) {stall idx : ℕ} {calls : List (ℕ × ℕ)}
    (hth : s.threads[i]? = some ⟨.store stall idx, calls⟩) :
    Inv l ⟨{ s.words with samples := Function.update s.words.samples idx stall },
      s.threads.set i ⟨.outside, calls⟩⟩ v where
  perm := by
    have hset : (s.threads.flatMap Thread.pending).Perm
        ((s.threads.set i ⟨.outside, calls⟩).flatMap Thread.pending) := perm_set hth rfl
    exact h.perm.trans (hset.append_left _)
  slots := by
    intro k hk hmax
    obtain ⟨-, rfl⟩ := h.placed i _ hth
    dsimp only
    rcases eq_or_ne k idx with rfl | hne
    · exact .inl (Function.update_self ..)
    · rw [Function.update_of_ne hne]
      exact (h.slots k hk hmax).imp_right
        (storing_set hth fun hplace => hne (Place.store.inj hplace).2.symm)
  placed := placed_set h.placed trivial
  counted := h.counted
  reached := h.reached

theorem Inv.count_le (h : Inv l s v) : s.words.count ≤ l.length := by
  rw [h.perm.length_eq, List.length_append, length_window]
  exact Nat.le_add_right ..

/-- **Every step keeps the invariant**, as long as the number of stalls fits the counter. -/
theorem Inv.step (hfew : l.length < 2 ^ 64) (h : Inv l s v) (hnext : Next s s') :
    ∃ v', Inv l s' v' := by
  obtain @⟨i, th, th', w, hth, hstep⟩ := hnext
  cases moves_of_recordGuiStall hstep with
  | @skip call calls hnone =>
    refine ⟨v, h.quiet hth ?_ trivial fun x k hplace => Place.noConfusion hplace⟩
    rw [Thread.pending, Thread.pending, List.filterMap_cons_none hnone]
  | @load call calls stall hsome =>
    refine ⟨v, h.quiet hth ?_ le_rfl fun x k hplace => Place.noConfusion hplace⟩
    rw [Thread.pending, Thread.pending, List.filterMap_cons_some hsome]
    rfl
  | @swap stall calls hlt =>
    have hraise := h.raise hlt.le (h.mem_of_pending hth (List.mem_cons_self ..))
    exact ⟨v, hraise.quiet hth rfl le_rfl fun x k hplace => Place.noConfusion hplace⟩
  | retry =>
    exact ⟨v, h.quiet hth rfl le_rfl fun x k hplace => Place.noConfusion hplace⟩
  | keep hle =>
    exact ⟨v, h.quiet hth rfl (hle.trans (h.placed _ _ hth))
      fun x k hplace => Place.noConfusion hplace⟩
  | @fetch stall calls =>
    have hlen : s.words.count + 1 ≤ l.length := (h.take hth).count_le
    rw [Nat.mod_eq_of_lt (by omega)]
    exact ⟨_, h.take hth⟩
  | store => exact ⟨v, h.put hth⟩
  | drop hle =>
    refine ⟨v, h.quiet hth rfl trivial fun x k hplace => ?_⟩
    obtain ⟨-, rfl⟩ := Place.store.inj hplace
    exact hle

theorem Reaches.inv {calls : List (List (ℕ × ℕ))} (hfew : (stalls calls).length < 2 ^ 64)
    (h : Reaches calls s) : ∃ v, Inv (stalls calls) s v := by
  induction h with
  | refl => exact ⟨_, inv_start calls⟩
  | tail _ hnext ih =>
    obtain ⟨v, hinv⟩ := ih
    exact hinv.step hfew hnext

/-! ### Every run ends -/

/-- How far a thread is from the end of its calls, among `n` threads.  A value that the word has
left behind costs one turn more. -/
def Thread.weight (n maxWake : ℕ) (th : Thread) : ℕ :=
  th.calls.length * (n + 5) +
    match th.place with
    | .outside => 0
    | .compare _ old => n + 3 + if old = maxWake then 0 else 1
    | .fetch _ => 2
    | .store _ _ => 1

def State.weight (s : State) : ℕ :=
  (s.threads.map (Thread.weight s.threads.length s.words.maxWake)).sum

/-- **A word that is raised** makes at most one thread more go round again for each of them. -/
theorem weight_raise (n x y : ℕ) (ths : List Thread) :
    (ths.map (Thread.weight n y)).sum ≤ (ths.map (Thread.weight n x)).sum + ths.length := by
  induction ths with
  | nil => exact le_rfl
  | cons th ths ih =>
    have hhead : th.weight n y ≤ th.weight n x + 1 := by
      unfold Thread.weight
      split <;> (try split_ifs) <;> omega
    rw [List.map_cons, List.map_cons, List.sum_cons, List.sum_cons, List.length_cons]
    omega

/-- A thread that leaves the word alone has less to do. -/
theorem Moves.weight_lt {n : ℕ} (h : Moves w th w' th') (hsame : w'.maxWake = w.maxWake) :
    th'.weight n w.maxWake < th.weight n w.maxWake := by
  cases h with
  | skip => simp [Thread.weight, Nat.succ_mul]
  | load => simp [Thread.weight, Nat.succ_mul]
  | swap hlt => exact absurd hsame (Nat.ne_of_gt hlt)
  | retry hne => simp [Thread.weight, hne]
  | keep =>
    simp only [Thread.weight]
    omega
  | fetch => simp [Thread.weight]
  | store => simp [Thread.weight]
  | drop => simp [Thread.weight]

/-- **Every step brings the threads nearer to the end.** -/
theorem Next.weight_lt (h : Next s s') : s'.weight < s.weight := by
  obtain @⟨i, th, th', w, hth, hstep⟩ := h
  have hmoves := moves_of_recordGuiStall hstep
  have hset := sum_map_set (f := Thread.weight s.threads.length w.maxWake) hth th'
  rw [State.weight, State.weight, List.length_set]
  by_cases hsame : w.maxWake = s.words.maxWake
  · have hless := hmoves.weight_lt (n := s.threads.length) hsame
    dsimp only at hset ⊢
    rw [hsame] at hset ⊢
    omega
  · have hraise := weight_raise s.threads.length s.words.maxWake w.maxWake s.threads
    cases hmoves with
    | @swap stall calls hlt =>
      simp only [Thread.weight, Nat.ne_of_lt hlt, if_false] at hset hraise ⊢
      omega
    | _ => exact absurd rfl hsame

/-! ### What the run leaves -/

/-- **What any number of threads record**, in every order of their steps.  A slot below the
count that no thread is about to store has one of the stalls, and the word is not below it.  No
run goes on for ever, and some thread can go on until all are through; then the count is the
number of stalls, the word is their maximum, and the samples are the stalls in some order, but
for those that found no slot left. -/
theorem recordGuiStall_run {calls : List (List (ℕ × ℕ))}
    (hfew : (stalls calls).length < 2 ^ 64) (h : Reaches calls s) :
    (∀ k, k < s.words.count → k < maxSamples →
      (∀ th ∈ s.threads, ∀ stall, th.place ≠ .store stall k) →
      s.words.samples k ∈ stalls calls ∧ s.words.samples k ≤ s.words.maxWake) ∧
    ((∃ s', Next s s') ∨ s.Done) ∧
    (¬∃ f : ℕ → State, f 0 = s ∧ ∀ n, Next (f n) (f (n + 1))) ∧
    (s.Done → s.words.count = (stalls calls).length ∧
      s.words.maxWake = (stalls calls).foldr max 0 ∧
      ∃ lost, (window s.words.samples (min s.words.count maxSamples) ++ lost).Perm
        (stalls calls)) := by
  obtain ⟨v, hinv⟩ := h.inv hfew
  have hslot : ∀ k, k < s.words.count → k < maxSamples →
      (∀ th ∈ s.threads, ∀ stall, th.place ≠ .store stall k) → s.words.samples k = v k := by
    intro k hk hmax hno
    refine (hinv.slots k hk hmax).resolve_right fun hex => ?_
    obtain ⟨j, th, hj, hplace⟩ := hex
    exact hno th (List.mem_of_getElem? hj) _ hplace
  refine ⟨fun k hk hmax hno => ?_, ?_, ?_, fun hdone => ?_⟩
  · rw [hslot k hk hmax hno]
    refine ⟨hinv.perm.mem_iff.2 (List.mem_append_left _ ?_), hinv.counted k hk⟩
    exact List.mem_map.2 ⟨k, List.mem_range.2 hk, rfl⟩
  · by_cases hdone : s.Done
    · exact .inr hdone
    · rw [State.Done] at hdone
      push Not at hdone
      obtain ⟨th, hmem, hne⟩ := hdone
      obtain ⟨i, hi⟩ := List.mem_iff_getElem?.1 hmem
      obtain ⟨r, hr⟩ := exists_recordGuiStall (w := s.words) hne
      exact .inl ⟨_, .step hi hr⟩
  · rintro ⟨f, -, hf⟩
    exact not_infinite_of_lt State.weight (fun _ _ hnext => hnext.weight_lt) ⟨f, hf⟩
  · have hpending : s.threads.flatMap Thread.pending = [] := by
      rw [List.flatMap_eq_nil_iff]
      intro th hmem
      rw [hdone th hmem]
      rfl
    have hperm := hinv.perm
    rw [hpending, List.append_nil] at hperm
    have hidle : ∀ th ∈ s.threads, ∀ stall k, th.place ≠ .store stall k := by
      intro th hmem stall k
      rw [hdone th hmem]
      exact Place.noConfusion
    refine ⟨?_, le_antisymm ?_ ?_,
      (List.range (s.words.count - maxSamples)).map fun k => v (maxSamples + k), ?_⟩
    · rw [hperm.length_eq, length_window]
    · rcases hinv.reached with hzero | hmem
      · rw [hzero]
        exact Nat.zero_le _
      · exact List.le_max_of_le hmem le_rfl
    · refine List.max_le_of_forall_le _ _ fun x hx => ?_
      obtain ⟨k, hk, rfl⟩ := List.mem_map.1 (hperm.mem_iff.1 hx)
      exact hinv.counted k (List.mem_range.1 hk)
    · have hwindow : window s.words.samples (min s.words.count maxSamples) =
          window v (min s.words.count maxSamples) := by
        refine List.map_congr_left fun k hk => ?_
        obtain ⟨hlt, hmax⟩ := Nat.lt_min.1 (List.mem_range.1 hk)
        exact hslot k hlt hmax fun th hmem stall => hidle th hmem stall k
      rw [hwindow, window_add_rest]
      exact hperm.symm

/-- Two threads that record a stall each. -/
def twoThreads : List (List (ℕ × ℕ)) := [[(1, 4)], [(2, 9), (0, 5)]]

theorem recordGuiStall_run_start :
    (∃ s', Next (start twoThreads) s') ∧
      ¬∃ f : ℕ → State, f 0 = start twoThreads ∧ ∀ n, Next (f n) (f (n + 1)) := by
  have hrun := @recordGuiStall_run _ twoThreads (by decide) .refl
  refine ⟨hrun.2.1.resolve_right fun hdone => ?_, hrun.2.2.1⟩
  have hfirst := hdone ⟨.outside, [(1, 4)]⟩ (List.mem_cons_self ..)
  exact absurd (congrArg Thread.calls hfirst) (List.cons_ne_nil _ _)

end Stalls
end Wakestorm
end V6User
