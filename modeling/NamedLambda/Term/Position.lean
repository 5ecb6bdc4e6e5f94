import NamedLambda.Term.Basic

/-! Positions in a term are paths of branches; references are leaves that no path enters. -/

namespace NamedLambda

/-- A step from a term to one of its parts. -/
inductive Branch where
  /-- To the function of an application. -/
  | func
  /-- To the argument of an application. -/
  | arg
  /-- To the body of an abstraction. -/
  | body
deriving DecidableEq, Repr

/-- The branches that lead to a part of a term, the outermost first. -/
abbrev Path := List Branch

namespace Term

/-- The part of a term at the end of a path, if the path stays inside the term. -/
def at? : Path → Term → Option Term
  | [], term => some term
  | .func :: rest, app func _ => func.at? rest
  | .arg :: rest, app _ arg => arg.at? rest
  | .body :: rest, lam _ body => body.at? rest
  -- The branch does not fit the term.
  | _ :: _, _ => none

end Term

end NamedLambda
