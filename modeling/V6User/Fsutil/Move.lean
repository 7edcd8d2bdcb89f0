import V6User.Fsutil.CopyVia
import V6User.Fsutil.Remove

/-!
# Moving

`fsutil_move_path` of `lib/fsutil.c`: where `rename` says that the places are on different
devices, the tree is copied and then removed.  `rename` is a call that the other functions do
not make; it is a parameter.

As for the copy and the removal, the calls that may be given conditions are parameters
(`movePathVia`).
-/

namespace V6User
namespace Fsutil

open Vfs Effect

/-- `fsutil_move_path`, with these calls; `remove` is the `unlink` of the removal. -/
def movePathVia (rename : Path → Path → Prog Unit) (c : CopyCalls) (remove : Path → Prog Unit)
    (maxpath fuel : ℕ) (src dst : Path) : Prog Unit := do
  match ← attempt (rename src dst) with
  | .ok () => pure ()
  | .error e =>
    if e ≠ .exdev then throw e
    else
      let st ← lstat src
      copyPathVia c maxpath fuel src dst true
      if st.kind = .dir then removePathVia remove maxpath fuel src true false
      else remove src

/-- **`fsutil_move_path`.** -/
def movePath (rename : Path → Path → Prog Unit) : ℕ → ℕ → Path → Path → Prog Unit :=
  movePathVia rename systemCalls unlink

section Refines

variable {maxpath : ℕ} {remove remove' : Path → Prog Unit}

theorem removeChildren_refines (h : ∀ p, Refines (remove p) (remove' p)) (path : Path)
    (fuel : ℕ) :
    Refines (removeChildren maxpath path remove fuel)
      (removeChildren maxpath path remove' fuel) := by
  induction fuel with
  | zero => exact Refines.refl _
  | succ fuel ih =>
    rw [removeChildren, removeChildren]
    refine Refines.bind (Refines.refl _) fun fd => Refines.bind (Refines.refl _) fun found => ?_
    refine Refines.bind (Refines.refl _) fun _ => Refines.bind (Refines.refl _) fun child => ?_
    cases child with
    | none => exact Refines.refl _
    | some child => exact Refines.bind (h child) fun _ => ih

theorem removePathVia_refines (h : ∀ p, Refines (remove p) (remove' p)) (fuel : ℕ) (path : Path)
    (recursive force : Bool) :
    Refines (removePathVia remove maxpath fuel path recursive force)
      (removePathVia remove' maxpath fuel path recursive force) := by
  have hunlink : ∀ path, Refines (unlinkPathVia remove force path)
      (unlinkPathVia remove' force path) := by
    intro path
    unfold unlinkPathVia
    exact Refines.bind (Refines.attempt (h path)) fun _ => Refines.refl _
  induction fuel generalizing path recursive with
  | zero => exact Refines.refl _
  | succ fuel ih =>
    rw [removePathVia, removePathVia]
    refine Refines.bind (Refines.refl _) fun st => ?_
    cases st with
    | error e => exact Refines.refl _
    | ok st =>
      refine Refines.bind (Refines.refl _) fun base => ?_
      split_ifs
      · exact Refines.refl _
      · exact hunlink path
      · exact Refines.refl _
      · refine Refines.bind (removeChildren_refines (fun p => ih p true) path fuel) fun _ => ?_
        exact hunlink path

/-- The runs with calls that end in fewer ways are runs. -/
theorem movePathVia_refines (rename : Path → Path → Prog Unit) {c c' : CopyCalls}
    (hread : ∀ p, Refines (c.openRead p) (c'.openRead p))
    (hopen : ∀ p, Refines (c.openWrite p) (c'.openWrite p))
    (hunlink : ∀ p, Refines (c.unlink p) (c'.unlink p)) (h : ∀ p, Refines (remove p) (remove' p))
    (fuel : ℕ) (src dst : Path) :
    Refines (movePathVia rename c remove maxpath fuel src dst)
      (movePathVia rename c' remove' maxpath fuel src dst) := by
  unfold movePathVia
  refine Refines.bind (Refines.refl _) fun x => ?_
  cases x with
  | ok u => exact Refines.refl _
  | error e =>
    dsimp only
    split_ifs
    · exact Refines.refl _
    · refine Refines.bind (Refines.refl _) fun st => ?_
      refine Refines.bind (copyPathVia_refines hread hopen hunlink fuel src dst true) fun _ => ?_
      split_ifs
      · exact removePathVia_refines h fuel src true false
      · exact h src

end Refines

section Keeps

variable {R : World → World → Prop} [Std.Refl R] [IsTrans World R] {maxpath : ℕ}
  {remove : Path → Prog Unit}

/-- **What the calls keep, the removal keeps.** -/
theorem keeps_removePathVia
    (hlook : ∀ {α : Type} (c : Call) (f : Outcome → Fs → Except Errno α), Keeps R (look c f))
    (hremove : ∀ p, Keeps R (remove p)) (fuel : ℕ) (path : Path) (recursive force : Bool) :
    Keeps R (removePathVia remove maxpath fuel path recursive force) := by
  have hforced : ∀ e, Keeps R (unlessForced force e) := by
    intro e
    unfold unlessForced
    split_ifs
    · exact Keeps.pure _
    · exact Keeps.throw _
  have hunlink : ∀ path, Keeps R (unlinkPathVia remove force path) := by
    intro path
    unfold unlinkPathVia
    refine Keeps.bind (Keeps.attempt (hremove path)) fun x => ?_
    cases x with
    | ok u => exact Keeps.pure _
    | error e => exact hforced e
  have hread : ∀ path fd fuel pos, Keeps R (readChild maxpath path fd fuel pos) := by
    intro path fd fuel
    induction fuel with
    | zero => exact fun _ => Keeps.diverge
    | succ fuel ih =>
      intro pos
      rw [readChild]
      refine Keeps.bind (hlook _ _) fun des => ?_
      split_ifs
      · exact Keeps.pure _
      · refine Keeps.bind (Keeps.ofExcept _) fun found => ?_
        cases found with
        | none => exact ih _
        | some child => exact Keeps.pure _
  have hchildren : ∀ path (f : Path → Prog Unit), (∀ p, Keeps R (f p)) → ∀ fuel,
      Keeps R (removeChildren maxpath path f fuel) := by
    intro path f hf fuel
    induction fuel with
    | zero => exact Keeps.diverge
    | succ fuel ih =>
      rw [removeChildren]
      refine Keeps.bind (hlook _ _) fun fd => Keeps.bind (Keeps.attempt (hread _ _ _ _)) fun x => ?_
      refine Keeps.bind (Keeps.attempt (hlook _ _)) fun _ => ?_
      refine Keeps.bind (Keeps.ofExcept _) fun y => ?_
      cases y with
      | none => exact Keeps.pure _
      | some child => exact Keeps.bind (hf child) fun _ => ih
  induction fuel generalizing path recursive with
  | zero => exact Keeps.diverge
  | succ fuel ih =>
    rw [removePathVia]
    refine Keeps.bind (Keeps.attempt (hlook _ _)) fun st => ?_
    cases st with
    | error e => exact hforced e
    | ok st =>
      refine Keeps.bind (Keeps.ofExcept _) fun base => ?_
      split_ifs
      · exact Keeps.throw _
      · exact hunlink path
      · exact Keeps.throw _
      · exact Keeps.bind (hchildren path _ (fun p => ih p true) fuel) fun _ => hunlink path

end Keeps

end Fsutil
end V6User
