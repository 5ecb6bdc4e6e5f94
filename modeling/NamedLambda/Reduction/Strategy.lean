import NamedLambda.Name.Set

/-! The four reduction strategies and the names they go by. -/

namespace NamedLambda

/-- An order in which the redexes of a term are contracted. -/
inductive Strategy where
  /-- Arguments become values before they are passed, and abstractions are left alone. -/
  | callByValue
  /-- Arguments are passed as they are, and abstractions are left alone. -/
  | callByName
  /-- Innermost and leftmost, also inside abstractions. -/
  | applicative
  /-- Outermost and leftmost, also inside abstractions. -/
  | normal
deriving DecidableEq, Repr

/-- A text that names no strategy. -/
structure UnknownStrategy where
  /-- The text as it was given. -/
  text : String
deriving DecidableEq, Repr

/-- The message for a text that names no strategy. -/
def UnknownStrategy.message (error : UnknownStrategy) : String :=
  "Unknown reduction strategy: " ++ error.text

namespace Strategy

/-- All strategies, in the order they are listed in. -/
def all : List Strategy :=
  [callByValue, callByName, applicative, normal]

/-- The name a strategy is printed as. -/
def name : Strategy → String
  | callByValue => "call-by-value"
  | callByName => "call-by-name"
  | applicative => "applicative"
  | normal => "normal"

/-- The strategy of a name in small letters. -/
def ofLowerName? : String → Option Strategy
  | "cbv" | "call-by-value" | "value" => some callByValue
  | "cbn" | "call-by-name" | "name" => some callByName
  | "applicative" | "app" => some applicative
  | "normal" | "full" | "beta" => some normal
  | _ => none

/-- The strategy of a name, whatever the case of its ASCII letters. -/
def ofName (text : String) : Except UnknownStrategy Strategy :=
  -- Letters beyond ASCII are compared as they are.
  match ofLowerName? (text.map Char.toLower) with
  | some strategy => .ok strategy
  | none => .error ⟨text⟩

end Strategy

end NamedLambda
