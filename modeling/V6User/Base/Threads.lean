import Mathlib.Logic.Function.Basic
import Mathlib.Logic.Relation
import V6User.Base.Process

/-!
# Threads that share a state

Each thread is a program that makes calls (`Process`), and `exec t s c r s'` says what the call
`c` of the thread `t` may answer in the shared state `s`, and which state it leaves.  The threads
take turns in any order, one call at a time.

A `Spec` of a thread says what it relies on, as long as it is at a certain call, what each of
its calls guarantees, and what holds when it ends.  `Safe` checks it along the program: between
two calls the other threads may change the state as far as the thread relies on it.  Where what
each thread guarantees is what the others rely on, every thread of every run stays safe
(`Step.safe`).
-/

namespace V6User
namespace Threads

open Process

variable {Tid Call : Type} {Reply : Call → Type} {ε α β σ : Type}

/-- The call that a program makes next. -/
def next : Process Call Reply ε α → Option Call
  | .ask c _ => some c
  | _ => none

/-- The shared state and where each thread is. -/
structure Config (Tid : Type) (Reply : Call → Type) (ε α σ : Type) where
  shared : σ
  prog : Tid → Process Call Reply ε α

variable (exec : Tid → σ → (c : Call) → Reply c → σ → Prop)

/-- The next call of the thread `t`. -/
inductive Step [DecidableEq Tid] (t : Tid) : Config Tid Reply ε α σ → Config Tid Reply ε α σ → Prop
  | call {s s' : σ} {prog : Tid → Process Call Reply ε α} {c : Call}
      {k : Reply c → Process Call Reply ε α} {r : Reply c} (hnext : prog t = .ask c k)
      (hexec : exec t s c r s') :
      Step t ⟨s, prog⟩ ⟨s', Function.update prog t (k r)⟩

/-- Some steps of any threads, each of which is `ok`. -/
inductive Run [DecidableEq Tid]
    (ok : Tid → Config Tid Reply ε α σ → Config Tid Reply ε α σ → Prop) :
    Config Tid Reply ε α σ → Config Tid Reply ε α σ → Prop
  | refl (cfg : Config Tid Reply ε α σ) : Run ok cfg cfg
  | step {cfg cfg₁ cfg₂ : Config Tid Reply ε α σ} {t : Tid} (hrun : Run ok cfg cfg₁)
      (hstep : Step exec t cfg₁ cfg₂) (hok : ok t cfg₁ cfg₂) : Run ok cfg cfg₂

/-- The thread `t` goes on alone. -/
inductive Alone (t : Tid) : Process Call Reply ε α → σ → Process Call Reply ε α → σ → Prop
  | refl (p : Process Call Reply ε α) (s : σ) : Alone t p s p s
  | call {c : Call} {k : Reply c → Process Call Reply ε α} {r : Reply c} {s s₁ s' : σ}
      {q : Process Call Reply ε α} (hexec : exec t s c r s₁) (hlater : Alone t (k r) s₁ q s') :
      Alone t (.ask c k) s q s'

/-- What a thread relies on when `next` is its next call, what it guarantees, and what holds
when it returns or exits. -/
structure Spec (Call ε α σ : Type) where
  rely : Option Call → σ → σ → Prop
  guar : σ → σ → Prop
  returns : α → σ → Prop
  exits : ε → σ → Prop

/-- The same with something else at the return. -/
def Spec.to (S : Spec Call ε α σ) (Q : β → σ → Prop) : Spec Call ε β σ :=
  ⟨S.rely, S.guar, Q, S.exits⟩

/-- The thread `t` keeps the specification from here on. -/
def Safe (t : Tid) (S : Spec Call ε α σ) : Process Call Reply ε α → σ → Prop
  | .done a, s => S.returns a s
  | .exit e, s => S.exits e s
  | .stuck, _ => True
  | .ask c k, s => ∀ s₁, Relation.ReflTransGen (S.rely (some c)) s s₁ →
      ∀ r s₂, exec t s₁ c r s₂ → S.guar s₁ s₂ ∧ Safe t S (k r) s₂

variable {exec} {t : Tid} {S : Spec Call ε α σ} {s : σ}

theorem Alone.trans {p q r : Process Call Reply ε α} {s s' s'' : σ}
    (h : Alone exec t p s q s') (h' : Alone exec t q s' r s'') : Alone exec t p s r s'' := by
  induction h with
  | refl => exact h'
  | call hexec _ ih => exact .call hexec (ih h')

theorem Alone.bind {p q : Process Call Reply ε α} {f : α → Process Call Reply ε β} {s s' : σ}
    (h : Alone exec t p s q s') : Alone exec t (p >>= f) s (q >>= f) s' := by
  induction h with
  | refl => exact .refl _ _
  | call hexec _ ih => exact .call hexec ih

theorem Run.trans [DecidableEq Tid]
    {ok : Tid → Config Tid Reply ε α σ → Config Tid Reply ε α σ → Prop}
    {cfg cfg₁ cfg₂ : Config Tid Reply ε α σ} (h : Run exec ok cfg cfg₁)
    (h' : Run exec ok cfg₁ cfg₂) : Run exec ok cfg cfg₂ := by
  induction h' with
  | refl => exact h
  | step _ hstep hok ih => exact .step ih hstep hok

/-- **A thread that goes on alone**, while the others stay where they are. -/
theorem Alone.run [DecidableEq Tid]
    {ok : Tid → Config Tid Reply ε α σ → Config Tid Reply ε α σ → Prop}
    {prog : Tid → Process Call Reply ε α} {q : Process Call Reply ε α} {s s' : σ}
    (h : Alone exec t (prog t) s q s')
    (hok : ∀ cfg cfg', (∀ u, u ≠ t → cfg.prog u = prog u) → Step exec t cfg cfg' →
      ok t cfg cfg') :
    Run exec ok ⟨s, prog⟩ ⟨s', Function.update prog t q⟩ := by
  generalize hp : prog t = p at h
  induction h generalizing prog with
  | refl p s =>
    rw [← hp, Function.update_eq_self]
    exact .refl _
  | @call c k r s s₁ s' q hexec _ ih =>
    have hstep : Step exec t ⟨s, prog⟩ ⟨s₁, Function.update prog t (k r)⟩ := .call hp hexec
    have hfirst : Run exec ok ⟨s, prog⟩ ⟨s₁, Function.update prog t (k r)⟩ :=
      .step (.refl _) hstep (hok _ _ (fun _ _ => rfl) hstep)
    have hlater := @ih (Function.update prog t (k r)) ?_ (Function.update_self ..)
    · rw [Function.update_idem] at hlater
      exact hfirst.trans hlater
    · intro cfg cfg' hothers hstep
      refine hok cfg cfg' (fun u hu => ?_) hstep
      rw [hothers u hu, Function.update_of_ne hu]

/-- **One program after another.** -/
theorem safe_bind {S : Spec Call ε β σ} {p : Process Call Reply ε α}
    {f : α → Process Call Reply ε β} :
    Safe exec t S (p >>= f) s ↔ Safe exec t (S.to fun a s => Safe exec t S (f a) s) p s := by
  induction p generalizing s with
  | done a => exact Iff.rfl
  | exit e => exact Iff.rfl
  | stuck => exact Iff.rfl
  | ask c k ih =>
    refine forall_congr' fun s₁ => forall_congr' fun _ => ?_
    exact forall_congr' fun r => forall_congr' fun s₂ => forall_congr' fun _ =>
      and_congr_right fun _ => ih r

/-- Something else holds at the return. -/
theorem Safe.mono {p : Process Call Reply ε α} {Q : α → σ → Prop} (h : Safe exec t S p s)
    (hQ : ∀ a s, S.returns a s → Q a s) : Safe exec t (S.to Q) p s := by
  induction p generalizing s with
  | done a => exact hQ a s h
  | exit e => exact h
  | stuck => exact trivial
  | ask c k ih =>
    intro s₁ hrely r s₂ hexec
    obtain ⟨hguar, hlater⟩ := h s₁ hrely r s₂ hexec
    exact ⟨hguar, ih r hlater⟩

/-- What the others do not change holds after any of their steps. -/
theorem holds_of_rely {R : σ → σ → Prop} {P : σ → Prop} {s' : σ}
    (hstable : ∀ s s', P s → R s s' → P s') (hP : P s) (hrely : Relation.ReflTransGen R s s') :
    P s' := by
  induction hrely with
  | refl => exact hP
  | tail _ hlast ih => exact hstable _ _ ih hlast

/-- **A call and what comes after it**, where `P` is what the thread knows before it. -/
theorem safe_call_bind (c : Call) {f : Reply c → Process Call Reply ε α} (P : σ → Prop) (hP : P s)
    (hstable : ∀ s s', P s → S.rely (some c) s s' → P s')
    (h : ∀ s r s', P s → exec t s c r s' → S.guar s s' ∧ Safe exec t S (f r) s') :
    Safe exec t S (call c >>= f) s := by
  intro s₁ hrely r s₂ hexec
  exact h s₁ r s₂ (holds_of_rely hstable hP hrely) hexec

/-- **A program with some calls only**, where `I` is what the thread knows all the time. -/
theorem safe_of_only {P : Call → Prop} {p : Process Call Reply ε α} (hp : Only P p) {I : σ → Prop}
    (hstable : ∀ c s s', I s → S.rely (some c) s s' → I s')
    (hcalls : ∀ c r s s', P c → I s → exec t s c r s' → S.guar s s' ∧ I s')
    (hreturns : ∀ a s, I s → S.returns a s) (hexits : ∀ e s, I s → S.exits e s) (hs : I s) :
    Safe exec t S p s := by
  induction p generalizing s with
  | done a => exact hreturns a s hs
  | exit e => exact hexits e s hs
  | stuck => exact trivial
  | ask c k ih =>
    intro s₁ hrely r s₂ hexec
    have hs₁ : I s₁ := holds_of_rely (hstable c) hs hrely
    obtain ⟨hguar, hs₂⟩ := hcalls c r s₁ s₂ hp.1 hs₁ hexec
    exact ⟨hguar, ih r (hp.2 r) hs₂⟩

/-- Where the others only do what it relies on, a thread stays safe. -/
theorem Safe.of_rely {p : Process Call Reply ε α} {s' : σ} (h : Safe exec t S p s)
    (hrely : S.rely (next p) s s')
    (hreturns : ∀ a s s', S.returns a s → S.rely none s s' → S.returns a s')
    (hexits : ∀ e s s', S.exits e s → S.rely none s s' → S.exits e s') :
    Safe exec t S p s' := by
  cases p with
  | done a => exact hreturns a s s' h hrely
  | exit e => exact hexits e s s' h hrely
  | stuck => exact trivial
  | ask c k => exact fun s₁ h₁ => h s₁ (.head hrely h₁)

/-- **A step of the threads.**  The thread that makes a call keeps its guarantee, and all stay
safe if that is what the others rely on. -/
theorem Step.safe [DecidableEq Tid] {S : Tid → Spec Call ε α σ} {cfg cfg' : Config Tid Reply ε α σ}
    (hstep : Step exec t cfg cfg') (hsafe : ∀ u, Safe exec u (S u) (cfg.prog u) cfg.shared)
    (hrely : ∀ u, u ≠ t → (S t).guar cfg.shared cfg'.shared →
      (S u).rely (next (cfg.prog u)) cfg.shared cfg'.shared)
    (hreturns : ∀ u a s s', (S u).returns a s → (S u).rely none s s' → (S u).returns a s')
    (hexits : ∀ u e s s', (S u).exits e s → (S u).rely none s s' → (S u).exits e s') :
    (S t).guar cfg.shared cfg'.shared ∧ ∀ u, Safe exec u (S u) (cfg'.prog u) cfg'.shared := by
  obtain @⟨s, s', prog, c, k, r, hnext, hexec⟩ := hstep
  have hcall : Safe exec t (S t) (prog t) s := hsafe t
  rw [hnext] at hcall
  obtain ⟨hguar, hlater⟩ := hcall s .refl r s' hexec
  refine ⟨hguar, fun u => ?_⟩
  change Safe exec u (S u) (Function.update prog t (k r) u) s'
  by_cases hu : u = t
  · subst hu
    rw [Function.update_self]
    exact hlater
  · rw [Function.update_of_ne hu]
    exact (hsafe u).of_rely (hrely u hu hguar) (hreturns u) (hexits u)

end Threads
end V6User
