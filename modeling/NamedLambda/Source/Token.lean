import NamedLambda.Name.Set

/-! The tokens of a source text. -/

namespace NamedLambda

/-- A word or sign of a source text. -/
inductive Token where
  /-- A sign that opens an abstraction. -/
  | lambda
  /-- The dot between binders and body. -/
  | dot
  /-- An opening parenthesis. -/
  | openParen
  /-- A closing parenthesis. -/
  | closeParen
  /-- The sign between a macro and its body. -/
  | equals
  /-- A name. -/
  | ident (name : Name)
  /-- Blanks that directly follow a name or a closing parenthesis. -/
  | blank
  /-- The end of the text. -/
  | eof
deriving DecidableEq, Repr

namespace Token

/-- What a token is called in messages. -/
def describe : Token → String
  | lambda => "Lambda"
  | dot => "Dot"
  | openParen => "LParen"
  | closeParen => "RParen"
  | equals => "Equals"
  | ident name => "Ident(\"" ++ name ++ "\")"
  | blank => "Whitespace"
  | eof => "Eof"

/-- Whether blanks after the token are reported, as they may separate two terms. -/
def endsWord : Token → Bool
  | ident _ | closeParen => true
  | _ => false

/-- The token that a single character makes. -/
def ofSign? : Char → Option Token
  | 'λ' | '\\' | '/' | '|' => some lambda
  | '.' => some dot
  | '(' => some openParen
  | ')' => some closeParen
  | '=' => some equals
  | _ => none

end Token

/-- Whether a character can begin a name in a source text. -/
def isIdentStart (c : Char) : Bool :=
  c.isAlpha || c == '_'

/-- Whether a character can go on in a name in a source text. -/
def isIdentChar (c : Char) : Bool :=
  c.isAlphanum || c == '_'

/-- A name can go on with any character it can begin with. -/
theorem isIdentChar_of_isIdentStart {c : Char} (start : isIdentStart c) : isIdentChar c := by
  -- Letters are among the letters and digits.
  simp only [isIdentStart, isIdentChar, Char.isAlphanum, Bool.or_eq_true] at start ⊢
  exact start.imp_left .inl

end NamedLambda
