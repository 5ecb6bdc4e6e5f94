import NamedLambda.Term.Basic

/-! The variables of a term; references are closed and contribute none of their own. -/

namespace NamedLambda.Term

/-- Whether a name occurs as a variable that no abstraction of the term binds. -/
def occursFree (name : Name) : Term → Bool
  | var other => other == name
  | lam binder body => binder != name && body.occursFree name
  | app func arg => func.occursFree name || arg.occursFree name
  | ref _ _ => false

/-- The names of the free variables. -/
def freeNames : Term → NameSet
  | var name => {name}
  | lam binder body => body.freeNames.erase binder
  | app func arg => func.freeNames ∪ arg.freeNames
  | ref _ _ => ∅

/-- The names of all variables and all binders. -/
def names : Term → NameSet
  | var name => {name}
  | lam binder body => {binder} ∪ body.names
  | app func arg => func.names ∪ arg.names
  | ref _ _ => ∅

/-- The leftmost variable that neither the term nor the given binders bind. -/
def firstUnbound? (bound : List Name) : Term → Option Name
  | var name => if name ∈ bound then none else some name
  | lam binder body => body.firstUnbound? (binder :: bound)
  -- The function is written before its argument.
  | app func arg => (func.firstUnbound? bound).or (arg.firstUnbound? bound)
  | ref _ _ => none

/-- The leftmost free variable. -/
def firstFree? (term : Term) : Option Name :=
  term.firstUnbound? []

/-- Whether a term has no free variables. -/
def isClosed (term : Term) : Bool :=
  term.firstFree?.isNone

end NamedLambda.Term
