import NamedLambda.Term.Basic

/-! Equality of terms up to the names of bound variables, with references seen through. -/

namespace NamedLambda.Term

/-- What a term stands for once its outer references are followed. -/
def expose : Term → Term
  | ref _ resolved => resolved.expose
  | term => term

/-- Whether a term is a reference to the named macro. -/
def isReferenceTo (name : Name) : Term → Bool
  | ref other _ => other == name
  | _ => false

/-- Whether two variables are bound by binders at the same distance, or both free and the same. -/
def sameVariable (left right : Name) (leftBound rightBound : List Name) : Bool :=
  -- The nearest binder of a name is the one that binds it.
  match leftBound.idxOf? left, rightBound.idxOf? right with
  | some i, some j => i == j
  | none, none => left == right
  | _, _ => false

/-- Equality up to bound names under two lists of enclosing binders, the nearest first. -/
def alphaEqUnder : (left right : Term) → (leftBound rightBound : List Name) → Bool
  | ref name resolved, right, leftBound, rightBound =>
    -- One name means one macro, so its two references are not compared further.
    right.isReferenceTo name || alphaEqUnder resolved right leftBound rightBound
  | var left, right, leftBound, rightBound =>
    match right.expose with
    | var right => sameVariable left right leftBound rightBound
    | _ => false
  | lam leftBinder leftBody, right, leftBound, rightBound =>
    match right.expose with
    | lam rightBinder rightBody =>
      alphaEqUnder leftBody rightBody (leftBinder :: leftBound) (rightBinder :: rightBound)
    | _ => false
  | app leftFunc leftArg, right, leftBound, rightBound =>
    match right.expose with
    | app rightFunc rightArg =>
      alphaEqUnder leftFunc rightFunc leftBound rightBound &&
        alphaEqUnder leftArg rightArg leftBound rightBound
    | _ => false

/-- Equality up to the names of bound variables. -/
def alphaEq (left right : Term) : Bool :=
  alphaEqUnder left right [] []

end NamedLambda.Term
