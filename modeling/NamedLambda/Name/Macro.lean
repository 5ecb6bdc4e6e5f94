import NamedLambda.Name.Set

/-! Macro names are written in capitals, which sets them apart from most variables. -/

namespace NamedLambda

/-- Whether a character may follow the first one of a macro name. -/
def isMacroNameChar (c : Char) : Bool :=
  c.isUpper || c.isDigit || c == '_'

/-- Whether a name can name a macro: an ASCII capital, then capitals, digits and underscores. -/
def isMacroName (name : Name) : Bool :=
  match name.toList with
  | [] => false
  | first :: rest => first.isUpper && rest.all isMacroNameChar

end NamedLambda
