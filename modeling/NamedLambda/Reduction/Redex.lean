import NamedLambda.Reduction.Strategy
import NamedLambda.Term.Position

/-! Each strategy locates the redex it contracts next: an application or a reference. -/

namespace NamedLambda.Strategy

open Term

/-- Call by value: the argument first, then the application, never inside an abstraction. -/
def locateByValue : Term → Option Path
  | var _ | lam _ _ => none
  -- A reference to an abstraction is a value already.
  | ref _ resolved => if resolved.isAbstraction then none else some []
  | app func arg =>
    if func.isAbstraction then
      -- An argument that cannot be reduced counts as a value.
      some ((locateByValue arg).elim [] (.arg :: ·))
    else
      ((locateByValue func).map (.func :: ·)).or ((locateByValue arg).map (.arg :: ·))

/-- Call by name: the application before its argument, never inside an abstraction. -/
def locateByName : Term → Option Path
  | var _ | lam _ _ => none
  | ref _ resolved => if resolved.isAbstraction then none else some []
  | app func arg =>
    -- The argument is left as it is once the function can take it.
    if func.isAbstraction then some []
    else ((locateByName func).map (.func :: ·)).or ((locateByName arg).map (.arg :: ·))

/-- Applicative order: both parts of an application before the application itself. -/
def locateApplicative : Term → Option Path
  | var _ => none
  -- A reference is followed even to an abstraction.
  | ref _ _ => some []
  | lam _ body => (locateApplicative body).map (.body :: ·)
  | app func arg =>
    (((locateApplicative func).map (.func :: ·)).or
      ((locateApplicative arg).map (.arg :: ·))).or
      (if func.isAbstraction then some [] else none)

/-- Normal order: the application itself before its parts, the function before the argument. -/
def locateNormal : Term → Option Path
  | var _ => none
  -- A reference is followed even to an abstraction.
  | ref _ _ => some []
  | lam _ body => (locateNormal body).map (.body :: ·)
  | app func arg =>
    if func.isAbstraction then some []
    else ((locateNormal func).map (.func :: ·)).or ((locateNormal arg).map (.arg :: ·))

/-- The path to the redex that a strategy contracts next. -/
def locate : Strategy → Term → Option Path
  | callByValue => locateByValue
  | callByName => locateByName
  | applicative => locateApplicative
  | normal => locateNormal

/-- Whether a term is a value of the strategy, with no redex left to contract. -/
def isValue (strategy : Strategy) (term : Term) : Bool :=
  (strategy.locate term).isNone

end NamedLambda.Strategy
