import NamedLambda.Reduction.Run
import NamedLambda.Source.Reader
import NamedLambda.Table.Definition

/-! Every reason why a request is refused, with its message. -/

namespace NamedLambda

/-- Why a request is refused. -/
inductive Error where
  /-- A source text is not read. -/
  | read (error : ReadError)
  /-- A definition is refused, or a macro is not defined. -/
  | definition (error : DefinitionError)
  /-- A run found no value within its budget. -/
  | limit (error : LimitExceeded)
  /-- A text names no strategy. -/
  | strategy (error : UnknownStrategy)
deriving DecidableEq, Repr

/-- The message for a request that is refused. -/
def Error.message : Error → String
  | read error => error.message
  | definition error => error.message
  | limit error => error.message
  | strategy error => error.message

end NamedLambda
