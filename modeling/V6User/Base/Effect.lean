import Mathlib.Order.Defs.Unbundled
import Mathlib.Tactic.Common

/-!
# Computations with a state and errors

An `Effect σ ε α` runs in a state and ends in a result or an error, in the state that it
reached; it may also not end.  `Runs m s r s'` says that `m`, started in `s`, ends with `r`
in `s'`, and there is one rule for each way to put computations together.  `Keeps R m` says
that the state where `m` ends is related to the one where it began, whether it failed or
not.  `given P m` is `m` where `P` holds of the state, and `granted P m` is `m` where it fails or
`P` holds of the state; a program in which some steps are given conditions makes those runs of the
program in which they were met (`Refines`).
-/

namespace V6User

/-- A computation on states `σ` with results `α` and errors `ε`; `none` where it does not
end. -/
def Effect (σ ε α : Type) : Type := σ → Option (Except ε α × σ)

namespace Effect

variable {σ ε α β : Type}

theorem ok_ne_error (a : α) (e : ε) : (Except.ok a : Except ε α) ≠ .error e := nofun

instance : Monad (Effect σ ε) where
  pure a := fun s => some (.ok a, s)
  bind m f := fun s => match m s with
    | some (.ok a, s') => f a s'
    | some (.error e, s') => some (.error e, s')
    | none => none

/-- End with an error. -/
def throw (e : ε) : Effect σ ε α := fun s => some (.error e, s)

/-- The end of the fuel. -/
def diverge : Effect σ ε α := fun _ => none

/-- The result, which may be an error. -/
def attempt (m : Effect σ ε α) : Effect σ ε (Except ε α) := fun s =>
  (m s).map fun x => (.ok x.1, x.2)

/-- A result that is there already. -/
def ofExcept (x : Except ε α) : Effect σ ε α := fun s => some (x, s)

/-- Started in `s`, the computation ends with `r` in `s'`. -/
def Runs (m : Effect σ ε α) (s : σ) (r : Except ε α) (s' : σ) : Prop := m s = some (r, s')

variable {m : Effect σ ε α} {f : α → Effect σ ε β} {s s' : σ}

/-- **One computation after another.** -/
theorem runs_bind {r : Except ε β} : Runs (m >>= f) s r s' ↔
    (∃ e, Runs m s (.error e) s' ∧ r = .error e) ∨
      ∃ a s₁, Runs m s (.ok a) s₁ ∧ Runs (f a) s₁ r s' := by
  have hbind : (m >>= f) s = match m s with
    | some (.ok a, s') => f a s'
    | some (.error e, s') => some (.error e, s')
    | none => none := rfl
  unfold Runs
  rw [hbind]
  constructor
  · intro h
    rcases hm : m s with _ | ⟨e | a, s₁⟩
    · rw [hm] at h
      exact absurd h nofun
    · rw [hm] at h
      obtain ⟨rfl, rfl⟩ := Prod.mk.inj (Option.some.inj h)
      exact .inl ⟨e, rfl, rfl⟩
    · rw [hm] at h
      exact .inr ⟨a, s₁, rfl, h⟩
  · rintro (⟨e, hm, rfl⟩ | ⟨a, s₁, hm, hf⟩)
    · rw [hm]
    · rw [hm]
      exact hf

theorem runs_pure {a : α} {r : Except ε α} :
    Runs (pure a : Effect σ ε α) s r s' ↔ r = .ok a ∧ s' = s := by
  constructor
  · intro h
    obtain ⟨rfl, rfl⟩ := Prod.mk.inj (Option.some.inj h)
    exact ⟨rfl, rfl⟩
  · rintro ⟨rfl, rfl⟩
    rfl

theorem runs_ofExcept {x r : Except ε α} :
    Runs (ofExcept x : Effect σ ε α) s r s' ↔ r = x ∧ s' = s := by
  constructor
  · intro h
    obtain ⟨rfl, rfl⟩ := Prod.mk.inj (Option.some.inj h)
    exact ⟨rfl, rfl⟩
  · rintro ⟨rfl, rfl⟩
    rfl

theorem runs_throw {e : ε} {r : Except ε α} :
    Runs (throw e : Effect σ ε α) s r s' ↔ r = .error e ∧ s' = s :=
  runs_ofExcept

theorem not_runs_diverge {r : Except ε α} : ¬Runs (diverge : Effect σ ε α) s r s' := nofun

theorem runs_attempt {r : Except ε (Except ε α)} :
    Runs (attempt m) s r s' ↔ ∃ x, Runs m s x s' ∧ r = .ok x := by
  unfold Runs attempt
  constructor
  · intro h
    obtain ⟨⟨x, s₁⟩, hm, hx⟩ := Option.map_eq_some_iff.1 h
    obtain ⟨rfl, rfl⟩ := Prod.mk.inj hx
    exact ⟨x, hm, rfl⟩
  · rintro ⟨x, hm, rfl⟩
    rw [hm]
    rfl

/-- The result of an attempt is handed on, whatever it is. -/
theorem runs_attempt_bind {f : Except ε α → Effect σ ε β} {r : Except ε β} :
    Runs (attempt m >>= f) s r s' ↔ ∃ x s₁, Runs m s x s₁ ∧ Runs (f x) s₁ r s' := by
  rw [runs_bind]
  constructor
  · rintro (⟨e, hm, -⟩ | ⟨x, s₁, hm, hf⟩)
    · obtain ⟨x, -, hx⟩ := runs_attempt.1 hm
      exact absurd hx nofun
    · obtain ⟨x', hm, hx⟩ := runs_attempt.1 hm
      obtain rfl := Except.ok.inj hx
      exact ⟨x, s₁, hm, hf⟩
  · rintro ⟨x, s₁, hm, hf⟩
    exact .inr ⟨x, s₁, runs_attempt.2 ⟨x, hm, rfl⟩, hf⟩

/-- A result that is there is handed on, unless it is an error. -/
theorem runs_ofExcept_bind {x : Except ε α} {r : Except ε β} :
    Runs (ofExcept x >>= f) s r s' ↔
      (∃ e, x = .error e ∧ r = .error e ∧ s' = s) ∨ ∃ a, x = .ok a ∧ Runs (f a) s r s' := by
  rw [runs_bind]
  constructor
  · rintro (⟨e, hm, rfl⟩ | ⟨a, s₁, hm, hf⟩)
    · obtain ⟨hx, rfl⟩ := runs_ofExcept.1 hm
      exact .inl ⟨e, hx.symm, rfl, rfl⟩
    · obtain ⟨hx, rfl⟩ := runs_ofExcept.1 hm
      exact .inr ⟨a, hx.symm, hf⟩
  · rintro (⟨e, hx, rfl, rfl⟩ | ⟨a, hx, hf⟩)
    · exact .inl ⟨e, runs_ofExcept.2 ⟨hx.symm, rfl⟩, rfl⟩
    · exact .inr ⟨a, s, runs_ofExcept.2 ⟨hx.symm, rfl⟩, hf⟩

/-- A computation ends if what follows the result of its first part ends. -/
theorem Runs.exists_bind {a : α} {s₁ : σ} (h : Runs m s (.ok a) s₁)
    (hf : ∃ r s', Runs (f a) s₁ r s') : ∃ r s', Runs (m >>= f) s r s' := by
  obtain ⟨r, s', hf⟩ := hf
  exact ⟨r, s', runs_bind.2 (.inr ⟨a, s₁, h, hf⟩)⟩

theorem Runs.exists_attempt_bind {x : Except ε α} {s₁ : σ} {f : Except ε α → Effect σ ε β}
    (h : Runs m s x s₁) (hf : ∃ r s', Runs (f x) s₁ r s') :
    ∃ r s', Runs (Effect.attempt m >>= f) s r s' :=
  Runs.exists_bind (runs_attempt.2 ⟨x, h, rfl⟩) hf

theorem exists_runs_throw (e : ε) (s : σ) : ∃ r s', Runs (throw e : Effect σ ε α) s r s' :=
  ⟨_, _, runs_throw.2 ⟨rfl, rfl⟩⟩

/-- A computation ends in one way. -/
theorem Runs.unique {r r' : Except ε α} {s'' : σ} (h : Runs m s r s') (h' : Runs m s r' s'') :
    r = r' ∧ s' = s'' :=
  Prod.mk.inj (Option.some.inj (h.symm.trans h'))

/-- The computation ends without an error, with a result and a state that have a property. -/
def endsWith (m : Effect σ ε α) (p : α → σ → Bool) (s : σ) : Bool :=
  match m s with
  | some (.ok a, s') => p a s'
  | _ => false

theorem exists_of_endsWith {p : α → σ → Bool} (h : endsWith m p s = true) :
    ∃ a s', Runs m s (.ok a) s' ∧ p a s' = true := by
  unfold endsWith at h
  split at h
  · next a s' hm => exact ⟨a, s', hm, h⟩
  · exact absurd h Bool.false_ne_true

/-- With enough fuel the computation ends, in one way. -/
def Settles (f : ℕ → Effect σ ε α) (s : σ) (r : Except ε α) (s' : σ) : Prop :=
  ∃ N, ∀ n, N ≤ n → Runs (f n) s r s'

theorem Settles.exists_runs {f : ℕ → Effect σ ε α} {r : Except ε α} (h : Settles f s r s') :
    ∃ n, Runs (f n) s r s' := by
  obtain ⟨N, hN⟩ := h
  exact ⟨N, hN N (Nat.le_refl N)⟩

theorem Settles.unique {f : ℕ → Effect σ ε α} {r r' : Except ε α} {s'' : σ}
    (h : Settles f s r s') (h' : Settles f s r' s'') : r = r' ∧ s' = s'' := by
  obtain ⟨N, hN⟩ := h
  obtain ⟨M, hM⟩ := h'
  exact (hN (max N M) (Nat.le_max_left N M)).unique (hM (max N M) (Nat.le_max_right N M))

/-- Some fuel is enough. -/
theorem Settles.of_succ {f : ℕ → Effect σ ε α} {r : Except ε α}
    (h : ∀ n, Runs (f (n + 1)) s r s') : Settles f s r s' := by
  refine ⟨1, fun n hn => ?_⟩
  obtain ⟨n, rfl⟩ := Nat.exists_eq_succ_of_ne_zero (Nat.ne_of_gt hn)
  exact h n

/-- One unit of fuel is used before what settles. -/
theorem Settles.succ {f g : ℕ → Effect σ ε β} {r : Except ε β} {t : σ}
    (h : Settles f t r s') (hstep : ∀ n, Runs (f n) t r s' → Runs (g (n + 1)) s r s') :
    Settles g s r s' := by
  obtain ⟨N, hN⟩ := h
  refine ⟨N + 1, fun n hn => ?_⟩
  obtain ⟨n, rfl⟩ := Nat.exists_eq_succ_of_ne_zero (Nat.ne_of_gt (Nat.lt_of_lt_of_le
    (Nat.succ_pos N) hn))
  exact hstep n (hN n (Nat.le_of_succ_le_succ hn))

/-- What needs no fuel. -/
theorem Settles.of_runs {r : Except ε α} (h : Runs m s r s') : Settles (fun _ => m) s r s' :=
  ⟨0, fun _ _ => h⟩

/-- **One computation after another**, with fuel for both. -/
theorem Settles.bind {f : ℕ → Effect σ ε α} {g : ℕ → α → Effect σ ε β} {a : α} {s₁ : σ}
    {r : Except ε β} (hf : Settles f s (.ok a) s₁) (hg : Settles (fun n => g n a) s₁ r s') :
    Settles (fun n => f n >>= g n) s r s' := by
  obtain ⟨N, hN⟩ := hf
  obtain ⟨M, hM⟩ := hg
  refine ⟨max N M, fun n hn => runs_bind.2 (.inr ⟨a, s₁, hN n ?_, hM n ?_⟩)⟩
  · exact Nat.le_trans (Nat.le_max_left N M) hn
  · exact Nat.le_trans (Nat.le_max_right N M) hn

theorem Settles.bind_error {f : ℕ → Effect σ ε α} {g : ℕ → α → Effect σ ε β} {e : ε}
    (hf : Settles f s (.error e) s') : Settles (fun n => f n >>= g n) s (.error e) s' := by
  obtain ⟨N, hN⟩ := hf
  exact ⟨N, fun n hn => runs_bind.2 (.inl ⟨e, hN n hn, rfl⟩)⟩

theorem Settles.attempt {f : ℕ → Effect σ ε α} {r : Except ε α} (h : Settles f s r s') :
    Settles (fun n => attempt (f n)) s (.ok r) s' := by
  obtain ⟨N, hN⟩ := h
  exact ⟨N, fun n hn => runs_attempt.2 ⟨r, hN n hn, rfl⟩⟩

/-! ### What stays related -/

/-- The state where the computation ends is related to the one where it began. -/
def Keeps (R : σ → σ → Prop) (m : Effect σ ε α) : Prop := ∀ s r s', Runs m s r s' → R s s'

variable {R : σ → σ → Prop}

theorem Keeps.pure [Std.Refl R] (a : α) : Keeps R (Pure.pure a : Effect σ ε α) := by
  intro s r s' h
  rw [(runs_pure.1 h).2]
  exact refl_of R s

theorem Keeps.ofExcept [Std.Refl R] (x : Except ε α) : Keeps R (ofExcept x : Effect σ ε α) := by
  intro s r s' h
  rw [(runs_ofExcept.1 h).2]
  exact refl_of R s

theorem Keeps.throw [Std.Refl R] (e : ε) : Keeps R (throw e : Effect σ ε α) :=
  Keeps.ofExcept _

theorem Keeps.diverge : Keeps R (diverge : Effect σ ε α) := fun _ _ _ h =>
  absurd h not_runs_diverge

theorem Keeps.bind [IsTrans σ R] (h : Keeps R m) (hf : ∀ a, Keeps R (f a)) :
    Keeps R (m >>= f) := by
  intro s r s' hrun
  rcases runs_bind.1 hrun with ⟨e, hm, -⟩ | ⟨a, s₁, hm, hrest⟩
  · exact h _ _ _ hm
  · exact trans_of R (h _ _ _ hm) (hf a _ _ _ hrest)

theorem Keeps.attempt (h : Keeps R m) : Keeps R (attempt m) := by
  intro s r s' hrun
  obtain ⟨x, hm, -⟩ := runs_attempt.1 hrun
  exact h _ _ _ hm

/-! ### Conditions on the states -/

open Classical in
/-- The computation where a condition holds of the state; elsewhere it does not end. -/
noncomputable def given (P : σ → Prop) (m : Effect σ ε α) : Effect σ ε α := fun s =>
  if P s then m s else none

theorem runs_given {P : σ → Prop} {r : Except ε α} :
    Runs (given P m) s r s' ↔ P s ∧ Runs m s r s' := by
  unfold Runs given
  by_cases hs : P s
  · rw [if_pos hs]
    exact ⟨fun h => ⟨hs, h⟩, And.right⟩
  · rw [if_neg hs]
    exact iff_of_false nofun fun h => hs h.1

open Classical in
/-- The computation where it ends with an error or a condition holds of the state; elsewhere it does
not end. -/
noncomputable def granted (P : σ → Prop) (m : Effect σ ε α) : Effect σ ε α := fun s =>
  if ∀ a s', Runs m s (.ok a) s' → P s then m s else none

theorem runs_granted {P : σ → Prop} {r : Except ε α} :
    Runs (granted P m) s r s' ↔ Runs m s r s' ∧ ∀ a, r = .ok a → P s := by
  by_cases hs : ∀ a s', Runs m s (.ok a) s' → P s
  · have hdef : granted P m s = m s := if_pos hs
    unfold Runs
    rw [hdef]
    exact ⟨fun h => ⟨h, fun a ha => hs a s' (ha ▸ h)⟩, And.left⟩
  · have hdef : granted P m s = none := if_neg hs
    unfold Runs
    rw [hdef]
    refine iff_of_false nofun fun ⟨h, hr⟩ => hs fun a s₁ ha => ?_
    obtain ⟨hra, -⟩ := Runs.unique h ha
    exact hr a hra

/-- Every run of `m` is a run of `m'`. -/
def Refines (m m' : Effect σ ε α) : Prop := ∀ s r s', Runs m s r s' → Runs m' s r s'

variable {m' : Effect σ ε α} {f' : α → Effect σ ε β}

theorem Refines.refl (m : Effect σ ε α) : Refines m m := fun _ _ _ h => h

theorem Refines.given (P : σ → Prop) (m : Effect σ ε α) : Refines (given P m) m :=
  fun _ _ _ h => (runs_given.1 h).2

theorem Refines.granted (P : σ → Prop) (m : Effect σ ε α) : Refines (granted P m) m :=
  fun _ _ _ h => (runs_granted.1 h).1

theorem Refines.bind (h : Refines m m') (hf : ∀ a, Refines (f a) (f' a)) :
    Refines (m >>= f) (m' >>= f') := by
  intro s r s' hrun
  rcases runs_bind.1 hrun with ⟨e, hm, hr⟩ | ⟨a, s₁, hm, hrest⟩
  · exact runs_bind.2 (.inl ⟨e, h _ _ _ hm, hr⟩)
  · exact runs_bind.2 (.inr ⟨a, s₁, h _ _ _ hm, hf a _ _ _ hrest⟩)

theorem Refines.attempt (h : Refines m m') : Refines (attempt m) (attempt m') := by
  intro s r s' hrun
  obtain ⟨x, hm, hr⟩ := runs_attempt.1 hrun
  exact runs_attempt.2 ⟨x, h _ _ _ hm, hr⟩

/-- Where more fuel keeps the runs, a run with some fuel is that with enough of it. -/
theorem Settles.of_refines {f : ℕ → Effect σ ε α} {n : ℕ} {r : Except ε α}
    (hf : ∀ n, Refines (f n) (f (n + 1))) (h : Runs (f n) s r s') : Settles f s r s' := by
  refine ⟨n, fun k hk => ?_⟩
  obtain ⟨d, rfl⟩ := Nat.exists_eq_add_of_le hk
  induction d with
  | zero => exact h
  | succ d ih => exact hf _ _ _ _ (ih (Nat.le_add_right n d))

end Effect
end V6User
