import NamedLambda.Proofs.Term.Nameless
import NamedLambda.Term.Alpha

/-! Terms of one nameless form have the same shape, and are equal up to bound names. -/

namespace NamedLambda.Term

/-- Terms below two lists of binders that differ in the names of bound variables only. -/
inductive Alike : (leftBound rightBound : List Name) → (left right : Term) → Prop where
  /-- Variables of binders at one distance, or free ones of one name. -/
  | var {leftBound rightBound : List Name} {left right : Name}
    (same : (var left).namelessUnder leftBound = (var right).namelessUnder rightBound) :
    Alike leftBound rightBound (var left) (var right)
  /-- Abstractions whose bodies are alike below their binders. -/
  | lam {leftBound rightBound : List Name} {leftBinder rightBinder : Name}
    {leftBody rightBody : Term}
    (body : Alike (leftBinder :: leftBound) (rightBinder :: rightBound) leftBody rightBody) :
    Alike leftBound rightBound (lam leftBinder leftBody) (lam rightBinder rightBody)
  /-- Applications of functions that are alike to arguments that are alike. -/
  | app {leftBound rightBound : List Name} {leftFunc rightFunc leftArg rightArg : Term}
    (func : Alike leftBound rightBound leftFunc rightFunc)
    (arg : Alike leftBound rightBound leftArg rightArg) :
    Alike leftBound rightBound (app leftFunc leftArg) (app rightFunc rightArg)
  /-- One and the same reference. -/
  | ref (leftBound rightBound : List Name) (name : Name) (resolved : Term) :
    Alike leftBound rightBound (ref name resolved) (ref name resolved)

/-- Variables are the same below two lists of binders exactly when they have one nameless form. -/
theorem sameVariable_iff {left right : Name} {leftBound rightBound : List Name} :
    sameVariable left right leftBound rightBound ↔
      (var left).namelessUnder leftBound = (var right).namelessUnder rightBound := by
  -- Both names are bound at one distance, or both are free.
  rw [sameVariable, namelessUnder, namelessUnder]
  cases leftBound.idxOf? left with
  | none => cases rightBound.idxOf? right <;> simp
  | some distance => cases rightBound.idxOf? right <;> simp

/-- A term is taken for a reference to a macro exactly when it is one. -/
theorem isReferenceTo_iff {term : Term} {name : Name} :
    term.isReferenceTo name ↔ ∃ resolved, term = ref name resolved := by
  -- What the reference carries does not matter.
  cases term <;> simp [isReferenceTo]

section

variable {right : Term} {leftBound rightBound : List Name}

/-- A variable is equal to what leads to the same variable. -/
theorem alphaEqUnder_var_iff {name : Name} :
    alphaEqUnder (var name) right leftBound rightBound ↔ ∃ other, right.expose = var other ∧
      (var name).namelessUnder leftBound = (var other).namelessUnder rightBound := by
  rw [alphaEqUnder]
  constructor
  · intro same
    split at same
    · rename_i other exposed
      exact ⟨other, exposed, sameVariable_iff.mp same⟩
    · -- Whatever else the other term leads to is no variable.
      contradiction
  · rintro ⟨other, exposed, same⟩
    rw [exposed]
    exact sameVariable_iff.mpr same

/-- An abstraction is equal to what leads to an abstraction with an equal body. -/
theorem alphaEqUnder_lam_iff {binder : Name} {body : Term} :
    alphaEqUnder (lam binder body) right leftBound rightBound ↔
      ∃ otherBinder otherBody, right.expose = lam otherBinder otherBody ∧
        alphaEqUnder body otherBody (binder :: leftBound) (otherBinder :: rightBound) := by
  rw [alphaEqUnder]
  constructor
  · intro same
    split at same
    · rename_i otherBinder otherBody exposed
      exact ⟨otherBinder, otherBody, exposed, same⟩
    · -- Whatever else the other term leads to is no abstraction.
      contradiction
  · rintro ⟨otherBinder, otherBody, exposed, same⟩
    rw [exposed]
    exact same

/-- An application is equal to what leads to an application of equal parts. -/
theorem alphaEqUnder_app_iff {func arg : Term} :
    alphaEqUnder (app func arg) right leftBound rightBound ↔
      ∃ otherFunc otherArg, right.expose = app otherFunc otherArg ∧
        alphaEqUnder func otherFunc leftBound rightBound ∧
        alphaEqUnder arg otherArg leftBound rightBound := by
  rw [alphaEqUnder]
  constructor
  · intro same
    split at same
    · rename_i otherFunc otherArg exposed
      exact ⟨otherFunc, otherArg, exposed, Bool.and_eq_true_iff.mp same⟩
    · -- Whatever else the other term leads to is no application.
      contradiction
  · rintro ⟨otherFunc, otherArg, exposed, both⟩
    rw [exposed]
    exact Bool.and_eq_true_iff.mpr both

/-- A reference is equal to the references to its macro, and to what is equal to what it carries. -/
theorem alphaEqUnder_ref_iff {name : Name} {resolved : Term} :
    alphaEqUnder (ref name resolved) right leftBound rightBound ↔
      (∃ other, right = ref name other) ∨ alphaEqUnder resolved right leftBound rightBound := by
  -- References to the macro are looked for first.
  rw [alphaEqUnder, Bool.or_eq_true, isReferenceTo_iff]

end

/-- Only a variable has the nameless form of one. -/
theorem eq_var_of_namelessUnder {name : Name} {left right : List Name} {term : Term}
    (same : (var name).namelessUnder left = term.namelessUnder right) :
    ∃ other, term = var other := by
  -- A variable is a distance or a free name, which the other constructors are not.
  cases term with
  | var other => exact ⟨other, rfl⟩
  | lam binder body =>
    rcases namelessUnder_var_cases name left with ⟨distance, found⟩ | found <;>
      exact nomatch found.symm.trans same
  | app func arg =>
    rcases namelessUnder_var_cases name left with ⟨distance, found⟩ | found <;>
      exact nomatch found.symm.trans same
  | ref other resolved =>
    rcases namelessUnder_var_cases name left with ⟨distance, found⟩ | found <;>
      exact nomatch found.symm.trans same

/-- Terms of one nameless form are alike. -/
theorem alike_of_namelessUnder {left right : Term} {leftBound rightBound : List Name}
    (same : left.namelessUnder leftBound = right.namelessUnder rightBound) :
    Alike leftBound rightBound left right := by
  -- The nameless form shows every constructor, so both terms begin with the same one.
  induction left generalizing right leftBound rightBound with
  | var name =>
    obtain ⟨other, rfl⟩ := eq_var_of_namelessUnder same
    exact .var same
  | lam binder body ih =>
    cases right with
    | var other => simpa using eq_var_of_namelessUnder same.symm
    | lam otherBinder otherBody =>
      simp only [namelessUnder, Nameless.lam.injEq] at same
      exact .lam (ih same)
    | app func arg => simp [namelessUnder] at same
    | ref other resolved => simp [namelessUnder] at same
  | app func arg funcIh argIh =>
    cases right with
    | var other => simpa using eq_var_of_namelessUnder same.symm
    | lam binder body => simp [namelessUnder] at same
    | app otherFunc otherArg =>
      simp only [namelessUnder, Nameless.app.injEq] at same
      exact .app (funcIh same.1) (argIh same.2)
    | ref other resolved => simp [namelessUnder] at same
  | ref name resolved =>
    cases right with
    | var other => simpa using eq_var_of_namelessUnder same.symm
    | lam binder body => simp [namelessUnder] at same
    | app func arg => simp [namelessUnder] at same
    | ref other otherResolved =>
      simp only [namelessUnder, Nameless.ref.injEq] at same
      -- The form shows the macro and what the reference carries.
      obtain ⟨rfl, rfl⟩ := same
      exact .ref leftBound rightBound name resolved

namespace Alike

variable {leftBound rightBound : List Name} {left right : Term}

/-- Terms that are alike have one nameless form. -/
theorem namelessUnder_eq (alike : Alike leftBound rightBound left right) :
    left.namelessUnder leftBound = right.namelessUnder rightBound := by
  -- Both forms are built from those of the parts.
  induction alike with
  | var same => exact same
  | lam body ih => simp only [namelessUnder, ih]
  | app func arg funcIh argIh => simp only [namelessUnder, funcIh, argIh]
  | ref leftBound rightBound name resolved => rfl

/-- Terms that are alike are equal up to bound names. -/
theorem alphaEqUnder (alike : Alike leftBound rightBound left right) :
    alphaEqUnder left right leftBound rightBound := by
  -- The comparison follows the constructors, and it takes references to one macro as equal.
  induction alike with
  | var same => exact alphaEqUnder_var_iff.mpr ⟨_, rfl, same⟩
  | lam body ih => exact alphaEqUnder_lam_iff.mpr ⟨_, _, rfl, ih⟩
  | app func arg funcIh argIh => exact alphaEqUnder_app_iff.mpr ⟨_, _, rfl, funcIh, argIh⟩
  | ref leftBound rightBound name resolved => exact alphaEqUnder_ref_iff.mpr (.inl ⟨resolved, rfl⟩)

end Alike

/-- Terms of one nameless form are equal up to bound names. -/
theorem alphaEq_of_nameless {left right : Term} (same : left.nameless = right.nameless) :
    left.alphaEq right :=
  (alike_of_namelessUnder same).alphaEqUnder

end NamedLambda.Term
