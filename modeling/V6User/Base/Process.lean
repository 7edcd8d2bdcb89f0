import Mathlib.Tactic.Common

/-!
# Programs that make calls

A `Process` makes calls one after the other, goes on with what each one answers, and ends with
a result or by an exit.  Nothing is assumed about the answers: `Reaches p t q` says that `p`
has made the calls of `t`, got the answers in it, and is now at `q`.

A `Contract` says what holds of the calls that were made before, at each call and at the end.
`Meets` checks it along the program, with one rule for each way to put programs together, and
`Meets.reaches` carries it to every run, also to one that has not ended.
-/

namespace V6User

/-- A program that makes calls; `stuck` where the fuel of its loops is used up. -/
inductive Process (Call : Type) (Reply : Call → Type) (ε α : Type) : Type
  | done (a : α)
  | exit (e : ε)
  | stuck
  | ask (c : Call) (k : Reply c → Process Call Reply ε α)

namespace Process

variable {Call : Type} {Reply : Call → Type} {ε α β : Type}

/-- A call with its answer. -/
abbrev Event (Reply : Call → Type) : Type := Σ c, Reply c

/-- Go on with the result. -/
def bind (p : Process Call Reply ε α) (f : α → Process Call Reply ε β) :
    Process Call Reply ε β :=
  match p with
  | done a => f a
  | exit e => exit e
  | stuck => stuck
  | ask c k => ask c fun r => (k r).bind f

instance : Monad (Process Call Reply ε) where
  pure := done
  bind := bind

/-- Make a call. -/
def call (c : Call) : Process Call Reply ε (Reply c) := ask c done

/-- The calls made so far, with their answers, and where the program is then. -/
inductive Reaches : Process Call Reply ε α → List (Event Reply) → Process Call Reply ε α → Prop
  | refl (p : Process Call Reply ε α) : Reaches p [] p
  | ask {c : Call} {k : Reply c → Process Call Reply ε α} {r : Reply c}
      {t : List (Event Reply)} {q : Process Call Reply ε α} (h : Reaches (k r) t q) :
      Reaches (ask c k) (⟨c, r⟩ :: t) q

/-- The run in which `answer` answers the calls, from what was called before. -/
def follow (answer : List (Event Reply) → (c : Call) → Reply c) :
    Process Call Reply ε α → List (Event Reply) →
      List (Event Reply) × Process Call Reply ε α
  | ask c k, s =>
    let later := follow answer (k (answer s c)) (s ++ [⟨c, answer s c⟩])
    (⟨c, answer s c⟩ :: later.1, later.2)
  | p, _ => ([], p)

/-- What holds of the calls made before: at each call with its answer, at the result, at the
exit, and where the fuel is used up. -/
structure Contract (Reply : Call → Type) (ε α : Type) where
  calls : List (Event Reply) → Event Reply → Prop
  returns : α → List (Event Reply) → Prop
  exits : ε → List (Event Reply) → Prop
  stuck : List (Event Reply) → Prop

/-- The same at the calls and the exits, and something else at the result. -/
def Contract.to (C : Contract Reply ε α) (Q : β → List (Event Reply) → Prop) :
    Contract Reply ε β :=
  ⟨C.calls, Q, C.exits, C.stuck⟩

/-- The program keeps the contract after the calls of `s`, whatever its calls answer. -/
def Meets (C : Contract Reply ε α) :
    Process Call Reply ε α → List (Event Reply) → Prop
  | done a, s => C.returns a s
  | exit e, s => C.exits e s
  | .stuck, s => C.stuck s
  | ask c k, s => ∀ r, C.calls s ⟨c, r⟩ ∧ Meets C (k r) (s ++ [⟨c, r⟩])

variable {C : Contract Reply ε α} {p q : Process Call Reply ε α} {s t : List (Event Reply)}
  {f : α → Process Call Reply ε β}

theorem reaches_follow (answer : List (Event Reply) → (c : Call) → Reply c)
    (p : Process Call Reply ε α) (s : List (Event Reply)) :
    Reaches p (follow answer p s).1 (follow answer p s).2 := by
  induction p generalizing s with
  | done a => exact .refl _
  | exit e => exact .refl _
  | stuck => exact .refl _
  | ask c k ih => exact .ask (ih _ _)

/-- **One program after another.** -/
theorem meets_bind {D : Contract Reply ε β} :
    Meets D (p >>= f) s ↔ Meets (D.to fun a t => Meets D (f a) t) p s := by
  induction p generalizing s with
  | done a => exact Iff.rfl
  | exit e => exact Iff.rfl
  | stuck => exact Iff.rfl
  | ask c k ih => exact forall_congr' fun r => and_congr_right fun _ => ih r

/-- **A call, and then the rest.** -/
theorem meets_call_bind {D : Contract Reply ε β} (c : Call)
    {f : Reply c → Process Call Reply ε β} :
    Meets D (call c >>= f) s ↔ ∀ r, D.calls s ⟨c, r⟩ ∧ Meets D (f r) (s ++ [⟨c, r⟩]) :=
  Iff.rfl

/-- **Every run keeps the contract.**  What follows the calls of a run keeps it too. -/
theorem Meets.reaches (h : Meets C p s) (hr : Reaches p t q) :
    Meets C q (s ++ t) ∧ ∀ t₁ e t₂, t = t₁ ++ e :: t₂ → C.calls (s ++ t₁) e := by
  induction hr generalizing s with
  | refl p =>
    refine ⟨?_, ?_⟩
    · rw [List.append_nil]
      exact h
    · intro t₁ e t₂ ht
      exact absurd ht (by simp)
  | @ask c k r t q _ ih =>
    obtain ⟨hq, hcalls⟩ := ih (h r).2
    rw [List.append_assoc, List.singleton_append] at hq
    refine ⟨hq, ?_⟩
    intro t₁ e t₂ ht
    rcases t₁ with _ | ⟨e₁, t₁⟩
    · obtain ⟨rfl, -⟩ := List.cons.inj ht
      rw [List.append_nil]
      exact (h r).1
    · obtain ⟨rfl, htail⟩ := List.cons.inj ht
      have hlater := hcalls t₁ e t₂ htail
      rw [List.append_assoc, List.singleton_append] at hlater
      exact hlater

/-! ### Programs with some calls only -/

/-- The program makes no call without `P`. -/
def Only (P : Call → Prop) : Process Call Reply ε α → Prop
  | done _ | exit _ | .stuck => True
  | ask c k => P c ∧ ∀ r, Only P (k r)

variable {P : Call → Prop}

theorem only_pure (a : α) : Only P (pure a : Process Call Reply ε α) := trivial

theorem only_call {c : Call} (hc : P c) : Only P (call c : Process Call Reply ε (Reply c)) :=
  ⟨hc, fun _ => trivial⟩

theorem only_bind (hp : Only P p) (hf : ∀ a, Only P (f a)) : Only P (p >>= f) := by
  induction p with
  | done a => exact hf a
  | exit e => exact trivial
  | stuck => exact trivial
  | ask c k ih => exact ⟨hp.1, fun r => ih r (hp.2 r)⟩

/-- **What the calls of a program keep holds at its end.** -/
theorem Only.meets {I : List (Event Reply) → Prop} (h : Only P p)
    (hcalls : ∀ c (r : Reply c) t, P c → I t → C.calls t ⟨c, r⟩ ∧ I (t ++ [⟨c, r⟩]))
    (hreturns : ∀ a t, I t → C.returns a t) (hexits : ∀ e t, I t → C.exits e t)
    (hstuck : ∀ t, I t → C.stuck t) (hs : I s) : Meets C p s := by
  induction p generalizing s with
  | done a => exact hreturns a s hs
  | exit e => exact hexits e s hs
  | stuck => exact hstuck s hs
  | ask c k ih =>
    intro r
    obtain ⟨hcall, hnext⟩ := hcalls c r s h.1 hs
    exact ⟨hcall, ih r (h.2 r) hnext⟩

/-! ### What holds at each call of a history -/

/-- `P` holds of every event and of what was before it. -/
def Each {E : Type} (P : List E → E → Prop) (t : List E) : Prop :=
  ∀ t₁ e t₂, t = t₁ ++ e :: t₂ → P t₁ e

variable {E : Type} {R : List E → E → Prop}

theorem each_nil : Each R [] := fun t₁ e t₂ h => by simp at h

theorem Each.of_append {t t' : List E} (h : Each R (t ++ t')) : Each R t := by
  intro t₁ e t₂ ht
  exact h t₁ e (t₂ ++ t') (by rw [ht, List.append_assoc, List.cons_append])

theorem Each.getElem {t : List E} {i : ℕ} {e : E} (h : Each R t) (he : t[i]? = some e) :
    R (t.take i) e := by
  obtain ⟨hlt, rfl⟩ := List.getElem?_eq_some_iff.1 he
  refine h _ _ (t.drop (i + 1)) ?_
  rw [List.getElem_cons_drop hlt, List.take_append_drop]

theorem each_snoc {t : List E} {e : E} : Each R (t ++ [e]) ↔ Each R t ∧ R t e := by
  constructor
  · intro h
    exact ⟨h.of_append, h t e [] rfl⟩
  · rintro ⟨h, he⟩ t₁ e₁ t₂ ht
    rcases List.eq_nil_or_concat t₂ with rfl | ⟨t₂, e₂, rfl⟩
    · obtain ⟨rfl, heq⟩ := List.append_inj' ht rfl
      obtain rfl := List.singleton_inj.1 heq
      exact he
    · have hsplit : t ++ [e] = (t₁ ++ e₁ :: t₂) ++ [e₂] := by simpa using ht
      exact h t₁ e₁ t₂ (List.append_inj' hsplit rfl).1

/-- What every answer does holds at each call of the run. -/
theorem each_follow {R : List (Event Reply) → Event Reply → Prop}
    {answer : List (Event Reply) → (c : Call) → Reply c} (h : ∀ s c, R s ⟨c, answer s c⟩)
    (p : Process Call Reply ε α) (s : List (Event Reply)) :
    Each (fun t e => R (s ++ t) e) (follow answer p s).1 := by
  induction p generalizing s with
  | done a => exact each_nil
  | exit e => exact each_nil
  | stuck => exact each_nil
  | ask c k ih =>
    intro t₁ e t₂ ht
    rcases t₁ with _ | ⟨e₁, t₁⟩
    · obtain ⟨rfl, -⟩ := List.cons.inj ht
      rw [List.append_nil]
      exact h s c
    · obtain ⟨rfl, htail⟩ := List.cons.inj ht
      have hlater : R (s ++ [⟨c, answer s c⟩] ++ t₁) e := ih _ _ t₁ e t₂ htail
      rwa [List.append_assoc] at hlater

/-! ### An environment that answers -/

/-- The run in which an environment with a state answers: where it ends, and the state then. -/
def run {σ : Type} (answer : σ → (c : Call) → Reply c × σ) :
    Process Call Reply ε α → σ → Process Call Reply ε α × σ
  | ask c k, w => run answer (k (answer w c).1) (answer w c).2
  | p, w => (p, w)

section Environment

variable {σ : Type} {answer : σ → (c : Call) → Reply c × σ} {w w' : σ}

/-- **A call, and then the rest.** -/
theorem run_call_bind (c : Call) (f : Reply c → Process Call Reply ε β) (w : σ) :
    run answer (call c >>= f) w = run answer (f (answer w c).1) (answer w c).2 := rfl

/-- **One program after another.** -/
theorem run_bind {a : α} (h : run answer p w = (pure a, w')) :
    run answer (p >>= f) w = run answer (f a) w' := by
  induction p generalizing w with
  | done b =>
    obtain ⟨hb, rfl⟩ := Prod.mk.inj h
    obtain rfl := Process.done.inj hb
    rfl
  | exit e => cases (Prod.mk.inj h).1
  | stuck => cases (Prod.mk.inj h).1
  | ask c k ih => exact ih _ h

end Environment

end Process
end V6User
