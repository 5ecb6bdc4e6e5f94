import NamedLambda.Term.Position

/-! Terms as text: with the fewest parentheses and a marked part, or with all parentheses. -/

namespace NamedLambda.Term

/-- What is left of a path to a marked part once a branch is taken. -/
def descend (branch : Branch) : Option Path → Option Path
  | some (first :: rest) => if first = branch then some rest else none
  | _ => none

/-- A text within its parentheses, and within markers outside them if it is the marked part. -/
def enclose (parens : Bool) (target : Option Path) (text : String) : String :=
  let grouped := if parens then "(" ++ text ++ ")" else text
  if target = some [] then "[[" ++ grouped ++ "]]" else grouped

/-- Whether a function needs parentheses, as an abstraction extends as far as it can. -/
def groupsAsFunc : Term → Bool
  -- Without parentheses the argument would belong to its body.
  | lam _ _ => true
  | _ => false

/-- Whether an argument needs parentheses, as application associates to the left. -/
def groupsAsArg : Term → Bool
  | lam _ _ | app _ _ => true
  | _ => false

/-- The text of a term in its place, with the part at the target path marked. -/
def renderIn : (term : Term) → (parens : Bool) → (target : Option Path) → String
  | var name, parens, target | ref name _, parens, target => enclose parens target name
  | lam binder body, parens, target =>
    enclose parens target ("λ" ++ binder ++ "." ++ body.renderIn false (descend .body target))
  | app func arg, parens, target =>
    -- An opening parenthesis separates by itself, so only other arguments take a space.
    enclose parens target
      (func.renderIn func.groupsAsFunc (descend .func target) ++
        (if arg.groupsAsArg then "" else " ") ++
        arg.renderIn arg.groupsAsArg (descend .arg target))

/-- The text of a term with the fewest parentheses, and the part at a path in double brackets. -/
def render (term : Term) (target : Option Path) : String :=
  term.renderIn false target

/-- The text of a term with the fewest parentheses. -/
def text (term : Term) : String :=
  term.render none

/-- The text of a term with parentheses around every abstraction and application. -/
def fullText : Term → String
  | var name | ref name _ => name
  | lam binder body => "(λ" ++ binder ++ "." ++ body.fullText ++ ")"
  | app func arg => "(" ++ func.fullText ++ " " ++ arg.fullText ++ ")"

end NamedLambda.Term
