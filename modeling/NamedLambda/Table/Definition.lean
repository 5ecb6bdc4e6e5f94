import NamedLambda.Reduction.Strategy
import NamedLambda.Term.Basic

/-! A definition keeps the body of a macro with the values that were found for it. -/

namespace NamedLambda

/-- The values of a closed term that were found within a budget. -/
inductive Values where
  /-- A normal form, which serves every strategy. -/
  | normalForm (term : Term)
  /-- No normal form, and what the two strategies that spare abstractions may have found. -/
  | weak (byName byValue : Option Term)
deriving DecidableEq, Repr

namespace Values

/-- The normal form, if one was found. -/
def normalForm? : Values → Option Term
  | normalForm term => some term
  | weak _ _ => none

/-- The value under call by name, if it was needed and found. -/
def byName? : Values → Option Term
  | normalForm _ => none
  | weak byName _ => byName

/-- The value under call by value, if it was needed and found. -/
def byValue? : Values → Option Term
  | normalForm _ => none
  | weak _ byValue => byValue

/-- The value that serves a strategy. -/
def valueFor? : Values → Strategy → Option Term
  | normalForm term, _ => some term
  | weak byName _, .callByName => byName
  | weak _ byValue, .callByValue => byValue
  -- Values with redexes inside of abstractions are none under these.
  | weak _ _, .applicative | weak _ _, .normal => none

end Values

/-- What a macro is defined as. -/
structure Definition where
  /-- The body as it was given. -/
  body : Term
  /-- The values found for the body. -/
  values : Values
deriving DecidableEq, Repr

/-- Why a definition is refused, or a reference not made. -/
inductive DefinitionError where
  /-- The name is no macro name. -/
  | invalidName (name : Name)
  /-- The body has a free variable. -/
  | notClosed (name variableName : Name)
  /-- A macro that is referred to is not defined. -/
  | unbound (name : Name)
  /-- Macros would depend on each other along a cycle, which ends with the macro it begins with. -/
  | cyclic (name : Name) (cycle : List Name)
deriving DecidableEq, Repr

/-- The message for a definition that is refused. -/
def DefinitionError.message : DefinitionError → String
  | invalidName name => "Invalid macro name '" ++ name ++ "'"
  | notClosed name variableName =>
    "Macro " ++ name ++ " is not closed: free variable '" ++ variableName ++ "'"
  | unbound name => "Unbound macro: " ++ name
  | cyclic name cycle =>
    "Defining " ++ name ++ " would create a dependency cycle: " ++ " -> ".intercalate cycle

end NamedLambda
