import NamedLambda.Reduction.Redex
import NamedLambda.Term.Substitution

/-! A reduction step contracts the located redex and leaves the rest of the term as it is. -/

namespace NamedLambda

namespace Term

/-- A redex contracted: an argument passed to its function, or a reference followed. -/
def contract? : Term → Option Term
  -- The function may be a reference to an abstraction, which is then looked through.
  | app func arg => func.abstraction?.map (fun (binder, body) => body.substitute binder arg)
  | ref _ resolved => some resolved
  | var _ | lam _ _ => none

/-- The term with the redex at a path contracted. -/
def contractAt? : Path → Term → Option Term
  | [], term => term.contract?
  | .func :: rest, app func arg => (func.contractAt? rest).map (app · arg)
  | .arg :: rest, app func arg => (arg.contractAt? rest).map (app func ·)
  | .body :: rest, lam binder body => (body.contractAt? rest).map (lam binder ·)
  -- The branch does not fit the term.
  | _ :: _, _ => none

end Term

/-- One step of a strategy, if the term is not a value yet. -/
def Strategy.step? (strategy : Strategy) (term : Term) : Option Term :=
  (strategy.locate term).bind (fun path => term.contractAt? path)

end NamedLambda
