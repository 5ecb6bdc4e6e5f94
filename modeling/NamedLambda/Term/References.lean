import NamedLambda.Term.Basic

/-! The macros that a term refers to, and the renewal of what its references stand for. -/

namespace NamedLambda.Term

/-- The macros referred to in the term itself, not in what its references stand for. -/
def references : Term → NameSet
  | var _ => ∅
  | lam _ body => body.references
  | app func arg => func.references ∪ arg.references
  -- What the reference carries is not looked at.
  | ref name _ => {name}

/-- The term whose references stand for their current meanings, or as before without one. -/
def relink (meaning : Name → Option Term) : Term → Term
  | var name => var name
  | lam binder body => lam binder (body.relink meaning)
  | app func arg => app (func.relink meaning) (arg.relink meaning)
  -- A macro without a meaning keeps what the reference carries.
  | ref name resolved => ref name ((meaning name).getD resolved)

end NamedLambda.Term
