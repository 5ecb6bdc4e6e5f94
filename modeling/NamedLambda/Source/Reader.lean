import NamedLambda.Name.Macro
import NamedLambda.Source.Lexer
import NamedLambda.Term.Basic

/-! A reader builds a term from tokens one by one, with the open constructs on a stack. -/

namespace NamedLambda

/-- What a reader expects at a place where it finds something else. -/
inductive Expected where
  /-- The name of a definition. -/
  | definedName
  /-- The sign of a definition. -/
  | equals
  /-- Nothing more. -/
  | endOfInput
  /-- The first name that an abstraction binds. -/
  | binder
  /-- The dot after the names that an abstraction binds. -/
  | dot
  /-- The parenthesis that closes a group. -/
  | closeParen
  /-- A name, a group or an abstraction. -/
  | expression
deriving DecidableEq, Repr

/-- How messages say what was expected. -/
def Expected.describe : Expected → String
  | definedName => "macro name"
  | equals => "'='"
  | endOfInput => "end of input"
  | binder => "variable binding"
  | dot => "'.'"
  | closeParen => "')'"
  | expression => "expression"

/-- Why a source text is not read; positions count tokens. -/
inductive ReadError where
  /-- A character begins no token. -/
  | invalidCharacter (error : LexError)
  /-- A token stands where another is expected. -/
  | unexpectedToken (expected : Expected) (found : Token) (position : Nat)
  /-- A name that should refer to a macro refers to none. -/
  | unboundMacro (name : Name) (position : Nat)
  /-- The text ends where an expression should begin. -/
  | emptyExpression (position : Nat)
deriving DecidableEq, Repr

/-- The message for a source text that is not read. -/
def ReadError.message : ReadError → String
  | invalidCharacter error => error.message
  | unexpectedToken expected found position =>
    "Expected " ++ expected.describe ++ " but found " ++ found.describe ++
      " at position " ++ position.repr
  | unboundMacro name position => "Unbound macro '" ++ name ++ "' at position " ++ position.repr
  | emptyExpression position => "Empty expression at position " ++ position.repr

namespace Reader

/-- A construct that has been opened and not closed, with the term that came before it. -/
inductive Frame where
  /-- A group in parentheses. -/
  | group (before : Option Term)
  /-- The body of an abstraction over names, the innermost first. -/
  | abstraction (before : Option Term) (binders : List Name)
deriving DecidableEq, Repr

/-- What a reader has read so far. -/
inductive State where
  /-- An expression, of which some part may have been read. -/
  | inExpression (frames : List Frame) (head : Option Term)
  /-- The names of an abstraction, the innermost first, behind what came before it. -/
  | inBinders (frames : List Frame) (before : Option Term) (binders : List Name)
deriving DecidableEq, Repr

/-- The state before the first token. -/
def start : State :=
  .inExpression [] none

/-- The names that the open abstractions bind, the innermost first. -/
def boundNames (frames : List Frame) : List Name :=
  frames.flatMap fun
    | .group _ => []
    | .abstraction _ binders => binders

/-- The term read before, applied to the next one if there is one before. -/
def extend (before : Option Term) (next : Term) : Term :=
  before.elim next (.app · next)

/-- The abstraction of a body over names, the innermost first. -/
def closeBinders (binders : List Name) (body : Term) : Term :=
  binders.foldl (fun inner binder => .lam binder inner) body

/-- The frames around the innermost group and the term that it ends, if a group is open. -/
def closeGroup? : List Frame → Term → Option (List Frame × Term)
  | [], _ => none
  | .group before :: frames, body => some (frames, extend before body)
  -- An abstraction extends up to the end of the group it is in.
  | .abstraction before binders :: frames, body =>
    closeGroup? frames (extend before (closeBinders binders body))

/-- The whole term that the end of the text completes, unless a group is open. -/
def closeAll? : List Frame → Term → Option Term
  | [], body => some body
  -- A group does not end with the text, as an abstraction does.
  | .group _ :: _, _ => none
  | .abstraction before binders :: frames, body =>
    closeAll? frames (extend before (closeBinders binders body))

/-- What a name stands for: a variable, or the meaning of the macro it refers to. -/
def occurrence (meaning : Name → Option Term) (frames : List Frame) (name : Name) : Option Term :=
  -- An abstraction may bind a macro name, which then is a variable.
  if isMacroName name && !(boundNames frames).contains name then meaning name
  else some (.var name)

/-- The state after one more token, which stands at a position. -/
def advance (meaning : Name → Option Term) (position : Nat) :
    State → Token → Except ReadError State
  -- Blanks only keep names apart.
  | state, .blank => .ok state
  -- What opens is put on the stack with the term before it, and its own term starts anew.
  | .inExpression frames head, .lambda => .ok (.inBinders frames head [])
  | .inExpression frames head, .openParen => .ok (.inExpression (.group head :: frames) none)
  | .inExpression frames head, .ident name =>
    match occurrence meaning frames name with
    | some term => .ok (.inExpression frames (some (extend head term)))
    | none => .error (.unboundMacro name position)
  -- A group is closed only if there is a term in it.
  | .inExpression frames (some head), .closeParen =>
    match closeGroup? frames head with
    | some (frames, term) => .ok (.inExpression frames (some term))
    | none => .error (.unexpectedToken .endOfInput .closeParen position)
  | .inExpression _ _, found => .error (.unexpectedToken .expression found position)
  | .inBinders frames before binders, .ident name =>
    .ok (.inBinders frames before (name :: binders))
  -- Only behind its first name may an abstraction come to its dot.
  | .inBinders _ _ [], found => .error (.unexpectedToken .binder found position)
  | .inBinders frames before binders, .dot =>
    .ok (.inExpression (.abstraction before binders :: frames) none)
  | .inBinders _ _ _, found => .error (.unexpectedToken .dot found position)

/-- The term that is complete when the text ends at a position. -/
def finish (position : Nat) : State → Except ReadError Term
  | .inExpression _ none => .error (.emptyExpression position)
  | .inExpression frames (some head) =>
    match closeAll? frames head with
    | some term => .ok term
    | none => .error (.unexpectedToken .closeParen .eof position)
  | .inBinders _ _ [] => .error (.unexpectedToken .binder .eof position)
  | .inBinders _ _ _ => .error (.unexpectedToken .dot .eof position)

/-- The term that the tokens from a position on complete, up to the end of the text. -/
def read (meaning : Name → Option Term) : (position : Nat) → State → List Token →
    Except ReadError Term
  -- Whatever comes behind the end of the text is not looked at.
  | position, state, [] | position, state, .eof :: _ => finish position state
  | position, state, token :: rest =>
    match advance meaning position state token with
    | .ok next => read meaning (position + 1) next rest
    | .error error => .error error

/-- The tokens without leading blanks, and the position of the first of them. -/
def skipBlanks (position : Nat) : List Token → Nat × List Token
  | .blank :: rest => skipBlanks (position + 1) rest
  | tokens => (position, tokens)

/-- The name and the body of a definition. -/
def readDefinition (meaning : Name → Option Term) (tokens : List Token) :
    Except ReadError (Name × Term) :=
  match skipBlanks 0 tokens with
  | (position, .ident name :: rest) =>
    match skipBlanks (position + 1) rest with
    | (position, .equals :: body) =>
      (read meaning (position + 1) start body).map (fun term => (name, term))
    | (position, found) => .error (.unexpectedToken .equals (found.headD .eof) position)
  | (position, found) => .error (.unexpectedToken .definedName (found.headD .eof) position)

end Reader

/-- The tokens of a source text. -/
def tokensOf (source : String) : Except ReadError (List Token) :=
  (Lexer.ofText source).tokenize.1.mapError .invalidCharacter

/-- The term that a source text writes, where free macro names have the given meanings. -/
def readTerm (meaning : Name → Option Term) (source : String) : Except ReadError Term := do
  Reader.read meaning 0 Reader.start (← tokensOf source)

/-- The term that a source text writes when every name is a variable. -/
def readPlainTerm (source : String) : Except ReadError Term :=
  readTerm (fun name => some (.var name)) source

/-- The name and the body of the definition that a source text writes. -/
def readDefinition (meaning : Name → Option Term) (source : String) :
    Except ReadError (Name × Term) := do
  Reader.readDefinition meaning (← tokensOf source)

end NamedLambda
