import NamedLambda.Name.Set

/-! Terms of the untyped lambda calculus, with references that carry what they stand for. -/

namespace NamedLambda

/-- A lambda term whose variables and binders have names. -/
inductive Term where
  /-- A variable, bound by the nearest enclosing abstraction of its name or else free. -/
  | var (name : Name)
  /-- The abstraction of a body over the variable it binds. -/
  | lam (binder : Name) (body : Term)
  /-- The application of a function to an argument. -/
  | app (func arg : Term)
  /-- A reference to a macro, with the term it stood for when it was made. -/
  | ref (name : Name) (resolved : Term)
deriving DecidableEq, Repr

namespace Term

/-- The number of nodes written in a term, where a reference is one node. -/
def size : Term → Nat
  | var _ | ref _ _ => 1
  | lam _ body => body.size + 1
  | app func arg => func.size + arg.size + 1

/-- The binder and body of a term that is an abstraction once references are looked through. -/
def abstraction? : Term → Option (Name × Term)
  | lam binder body => some (binder, body)
  | ref _ resolved => resolved.abstraction?
  | var _ | app _ _ => none

/-- Whether a term is an abstraction once references are looked through. -/
def isAbstraction (term : Term) : Bool :=
  term.abstraction?.isSome

/-- The part of a term that its outermost constructor is headed by. -/
def peel? : Term → Option Term
  | var _ => none
  | lam _ body => some body
  | app func _ => some func
  | ref _ resolved => some resolved

/-- The application of a term to arguments, one after the other. -/
def applyAll (head : Term) (args : List Term) : Term :=
  args.foldl app head

/-- The abstraction of a body over several names, the first of them outermost. -/
def bindAll (names : List Name) (body : Term) : Term :=
  names.foldr lam body

end Term

end NamedLambda
