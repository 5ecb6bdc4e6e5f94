import NamedLambda.Proofs.Term.Alike
import NamedLambda.Proofs.Term.Expansion

/-! The comparison of terms decides whether their expansions have one nameless form, where each name
refers to terms of one form only. -/

namespace NamedLambda.Term

/-- Following references does not change what a term expands to. -/
theorem expand_expose (term : Term) : term.expose.expand = term.expand := by
  -- An expansion follows the outer references as well.
  induction term with
  | var name => rfl
  | lam binder body ih => rfl
  | app func arg funcIh argIh => rfl
  | ref name resolved ih => exact ih

/-- What holds throughout a term holds throughout what its references lead to. -/
theorem Throughout.expose {onName : Name → Bool} {onReference : Name → Term → Prop} {term : Term}
    (throughout : term.Throughout onName onReference) :
    term.expose.Throughout onName onReference := by
  -- The references followed carry terms that it holds throughout.
  induction term with
  | var name => exact throughout
  | lam binder body ih => exact throughout
  | app func arg funcIh argIh => exact throughout
  | ref name resolved ih => exact ih throughout.2

section

variable {term : Term} {bound : List Name}

/-- Only a term that leads to a variable expands to the form of one. -/
theorem exists_expose_var {name : Name} {otherBound : List Name}
    (same : (var name).namelessUnder otherBound = term.expand.namelessUnder bound) :
    ∃ other, term.expose = var other ∧
      (var name).namelessUnder otherBound = (var other).namelessUnder bound := by
  obtain ⟨other, isVar⟩ := eq_var_of_namelessUnder same
  rw [isVar] at same
  refine ⟨other, ?_, same⟩
  -- The references of the term lead to what it expands to.
  induction term with
  | var found => exact isVar
  | lam binder body ih => contradiction
  | app func arg funcIh argIh => contradiction
  | ref macroName resolved ih => exact ih isVar

/-- Only a term that leads to an abstraction expands to the form of one. -/
theorem exists_expose_lam {form : Nameless} (same : .lam form = term.expand.namelessUnder bound) :
    ∃ binder body, term.expose = lam binder body ∧
      form = body.expand.namelessUnder (binder :: bound) := by
  induction term with
  | var name =>
    -- The form of a variable begins with no abstraction.
    rcases namelessUnder_var_cases name bound with ⟨distance, found⟩ | found
    · exact nomatch same.trans found
    · exact nomatch same.trans found
  | lam binder body ih => exact ⟨binder, body, rfl, Nameless.lam.inj same⟩
  | app func arg funcIh argIh => contradiction
  | ref name resolved ih => exact ih same

/-- Only a term that leads to an application expands to the form of one. -/
theorem exists_expose_app {inFunc inArg : Nameless}
    (same : .app inFunc inArg = term.expand.namelessUnder bound) :
    ∃ func arg, term.expose = app func arg ∧ inFunc = func.expand.namelessUnder bound ∧
      inArg = arg.expand.namelessUnder bound := by
  induction term with
  | var name =>
    -- The form of a variable is no application.
    rcases namelessUnder_var_cases name bound with ⟨distance, found⟩ | found
    · exact nomatch same.trans found
    · exact nomatch same.trans found
  | lam binder body ih => contradiction
  | app func arg funcIh argIh => exact ⟨func, arg, rfl, Nameless.app.inj same⟩
  | ref name resolved ih => exact ih same

end

/-- Terms whose expansions have one nameless form are found equal, whatever their references are. -/
theorem alphaEqUnder_of_expand {left right : Term} {leftBound rightBound : List Name}
    (same : left.expand.namelessUnder leftBound = right.expand.namelessUnder rightBound) :
    alphaEqUnder left right leftBound rightBound := by
  -- The comparison follows the left term, and what the right one leads to has the same constructor.
  induction left generalizing right leftBound rightBound with
  | var name => exact alphaEqUnder_var_iff.mpr (exists_expose_var same)
  | lam binder body ih =>
    obtain ⟨otherBinder, otherBody, exposed, sameBody⟩ := exists_expose_lam same
    exact alphaEqUnder_lam_iff.mpr ⟨otherBinder, otherBody, exposed, ih sameBody⟩
  | app func arg funcIh argIh =>
    obtain ⟨otherFunc, otherArg, exposed, sameFunc, sameArg⟩ := exists_expose_app same
    exact alphaEqUnder_app_iff.mpr
      ⟨otherFunc, otherArg, exposed, funcIh sameFunc, argIh sameArg⟩
  | ref name resolved ih =>
    -- Even where names meet, the terms carried would be found equal.
    exact alphaEqUnder_ref_iff.mpr (.inr (ih same))

/-- All references carry closed terms that expand to the form which goes with the name. -/
abbrev Coherent (forms : Name → Nameless) (term : Term) : Prop :=
  term.Throughout (fun _ => true)
    (fun name resolved => resolved.Closed ∧ resolved.expand.nameless = forms name)

variable {forms : Name → Nameless}

/-- The references of a coherent term carry closed terms. -/
theorem Coherent.carriesClosed {term : Term} (coherent : term.Coherent forms) :
    term.CarriesClosed :=
  carriesClosed_iff.mpr (coherent.imp (fun _ _ known => known.1))

/-- A reference expands to the form of its name, below any binders. -/
theorem Coherent.namelessUnder_expand_ref {name : Name} {resolved : Term}
    (coherent : (ref name resolved).Coherent forms) (binders : List Name) :
    (ref name resolved).expand.namelessUnder binders = forms name := by
  -- What it carries is closed.
  rw [expand, namelessUnder_expand_of_closed coherent.1.1 (carriesClosed coherent.2)]
  exact coherent.1.2

/-- Terms that are found equal have expansions of one nameless form, if they are coherent. -/
theorem namelessUnder_expand_of_alphaEqUnder {left right : Term} (coherent : left.Coherent forms)
    (rightCoherent : right.Coherent forms) {leftBound rightBound : List Name}
    (same : alphaEqUnder left right leftBound rightBound) :
    left.expand.namelessUnder leftBound = right.expand.namelessUnder rightBound := by
  -- The comparison follows the left term, and looks through the references of the right one.
  induction left generalizing right leftBound rightBound with
  | var name =>
    obtain ⟨other, exposed, sameForm⟩ := alphaEqUnder_var_iff.mp same
    rw [← expand_expose right, exposed]
    exact sameForm
  | lam binder body ih =>
    obtain ⟨otherBinder, otherBody, exposed, sameBody⟩ := alphaEqUnder_lam_iff.mp same
    have exposedCoherent := rightCoherent.expose
    rw [exposed] at exposedCoherent
    rw [← expand_expose right, exposed]
    exact congrArg Nameless.lam (ih coherent.2 exposedCoherent.2 sameBody)
  | app func arg funcIh argIh =>
    obtain ⟨otherFunc, otherArg, exposed, sameFunc, sameArg⟩ := alphaEqUnder_app_iff.mp same
    have exposedCoherent := rightCoherent.expose
    rw [exposed] at exposedCoherent
    rw [← expand_expose right, exposed, expand, expand, namelessUnder, namelessUnder,
      funcIh coherent.1 exposedCoherent.1 sameFunc, argIh coherent.2 exposedCoherent.2 sameArg]
  | ref name resolved ih =>
    rcases alphaEqUnder_ref_iff.mp same with ⟨other, rfl⟩ | below
    · -- References to one macro are not compared, but they expand to the one form of its name.
      rw [coherent.namelessUnder_expand_ref, rightCoherent.namelessUnder_expand_ref]
    · exact ih coherent.2 rightCoherent below

/-- The comparison tells whether the expansions have one nameless form. -/
theorem alphaEq_iff {left right : Term} (coherent : left.Coherent forms)
    (rightCoherent : right.Coherent forms) :
    left.alphaEq right ↔ left.expand.nameless = right.expand.nameless :=
  ⟨namelessUnder_expand_of_alphaEqUnder coherent rightCoherent, alphaEqUnder_of_expand⟩

/-- It does not matter which of two terms comes first. -/
theorem alphaEq_comm {left right : Term} (coherent : left.Coherent forms)
    (rightCoherent : right.Coherent forms) : left.alphaEq right = right.alphaEq left := by
  -- To have one form is symmetric.
  rw [Bool.eq_iff_iff, alphaEq_iff coherent rightCoherent, alphaEq_iff rightCoherent coherent]
  exact eq_comm

end NamedLambda.Term
