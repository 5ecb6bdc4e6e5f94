import Mathlib.Logic.Relation
import NamedLambda.Proofs.Nameless.Instantiation

/-! Nameless terms reduce wherever an abstraction is applied to an argument. -/

namespace NamedLambda.Nameless

open Relation (ReflTransGen)

/-- One application of an abstraction is carried out, anywhere in a term. -/
inductive Beta : Nameless → Nameless → Prop where
  /-- The argument takes the place of the variable bound. -/
  | contract (body arg : Nameless) : Beta (app (lam body) arg) (body.applyTo arg)
  /-- A reduction in the body of an abstraction. -/
  | lam {body reduced : Nameless} (inside : Beta body reduced) : Beta (lam body) (lam reduced)
  /-- A reduction in the function of an application. -/
  | func {func reduced : Nameless} (arg : Nameless) (inside : Beta func reduced) :
    Beta (app func arg) (app reduced arg)
  /-- A reduction in the argument of an application. -/
  | arg {arg reduced : Nameless} (func : Nameless) (inside : Beta arg reduced) :
    Beta (app func arg) (app func reduced)

/-- Any number of reductions, one after the other. -/
abbrev Reduces : Nameless → Nameless → Prop :=
  ReflTransGen Beta

/-- Reductions of a body are reductions of the abstraction. -/
theorem Reduces.lam {body reduced : Nameless} (inside : Reduces body reduced) :
    Reduces (lam body) (lam reduced) :=
  -- Each of them is made below the binder.
  ReflTransGen.lift Nameless.lam (fun _ _ => Beta.lam) _ _ inside

/-- Reductions of both parts are reductions of the application. -/
theorem Reduces.app {func arg funcReduced argReduced : Nameless}
    (inFunc : Reduces func funcReduced) (inArg : Reduces arg argReduced) :
    Reduces (app func arg) (app funcReduced argReduced) := by
  -- The function is reduced first, and then the argument beside it.
  have first : Reduces (.app func arg) (.app funcReduced arg) :=
    ReflTransGen.lift (Nameless.app · arg) (fun _ _ => Beta.func arg) _ _ inFunc
  have second : Reduces (.app funcReduced arg) (.app funcReduced argReduced) :=
    ReflTransGen.lift (Nameless.app funcReduced) (fun _ _ => Beta.arg funcReduced) _ _ inArg
  exact first.trans second

/-- A term that reduces no further. -/
def Normal (term : Nameless) : Prop :=
  ∀ reduced, ¬Beta term reduced

/-- An abstraction is normal exactly when its body is. -/
theorem normal_lam_iff {body : Nameless} : Normal (lam body) ↔ Normal body := by
  -- The body is the only place for a reduction.
  constructor
  · exact fun normal reduced step => normal (lam reduced) (.lam step)
  · intro normal reduced step
    cases step with
    | lam inside => exact normal _ inside

/-- An application is normal exactly when both parts are and the function is no abstraction. -/
theorem normal_app_iff {func arg : Nameless} :
    Normal (app func arg) ↔ (∀ body, func ≠ lam body) ∧ Normal func ∧ Normal arg := by
  -- There is one condition for each way to reduce an application.
  constructor
  · intro normal
    refine ⟨?_, ?_, ?_⟩
    · -- An abstraction in front of the argument could be contracted.
      rintro body rfl
      exact normal _ (.contract body arg)
    · exact fun reduced step => normal _ (.func arg step)
    · exact fun reduced step => normal _ (.arg func step)
  · rintro ⟨noLam, funcNormal, argNormal⟩ reduced step
    cases step with
    | contract body => exact noLam body rfl
    | func _ inside => exact funcNormal _ inside
    | arg _ inside => exact argNormal _ inside

/-- A normal term reduces to itself only. -/
theorem Normal.eq_of_reduces {term reduced : Nameless} (normal : Normal term)
    (reduces : Reduces term reduced) : reduced = term := by
  -- A first reduction would contradict that the term is normal.
  rcases reduces.cases_head with same | ⟨next, step, -⟩
  · exact same.symm
  · exact absurd step (normal next)

end NamedLambda.Nameless
