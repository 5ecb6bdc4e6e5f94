import NamedLambda.Proofs.Term.Position
import NamedLambda.Term.Text

/-! Marking a part of a term puts one pair of markers around its text, in the place that the part
has in the text of the term, and changes nothing else. -/

namespace NamedLambda

/-- What is printed before a part of a term and after it. -/
structure Margins where
  /-- The text on the left of the part. -/
  before : String
  /-- The text on the right of the part. -/
  after : String
deriving DecidableEq, Repr

namespace Margins

/-- A text between the margins. -/
def around (margins : Margins) (text : String) : String :=
  margins.before ++ text ++ margins.after

/-- The margins in a larger term, which may be in parentheses. -/
def widen (margins : Margins) (parens : Bool) (before after : String) : Margins :=
  if parens then ⟨"(" ++ before ++ margins.before, margins.after ++ after ++ ")"⟩
  else ⟨before ++ margins.before, margins.after ++ after⟩

/-- A text between wider margins is the larger term in its place. -/
theorem around_widen (margins : Margins) (parens : Bool) (before after text : String) :
    (margins.widen parens before after).around text =
      Term.enclose parens none (before ++ margins.around text ++ after) := by
  -- Parentheses stand outermost, if there are any.
  cases parens <;> simp [widen, around, Term.enclose, String.append_assoc]

end Margins

namespace Term

/-- The text of a term is how it is printed without parentheses. -/
theorem renderIn_false (term : Term) : term.renderIn false none = term.text :=
  rfl

/-- In parentheses a term is printed as its text between them. -/
theorem renderIn_true (term : Term) : term.renderIn true none = "(" ++ term.text ++ ")" := by
  -- Each constructor is enclosed in the same way.
  cases term <;> simp [renderIn, enclose, text, render]

/-- An abstraction is printed with its binder and the text of its body. -/
theorem text_lam (binder : Name) (body : Term) :
    (lam binder body).text = "λ" ++ binder ++ "." ++ body.text := by
  simp [text, render, renderIn, enclose, descend]

/-- An application is printed with its parts in parentheses where they need them. -/
theorem text_app (func arg : Term) :
    (app func arg).text = func.renderIn func.groupsAsFunc none ++
      (if arg.groupsAsArg then "" else " ") ++ arg.renderIn arg.groupsAsArg none := by
  simp [text, render, renderIn, enclose, descend]

/-- The markers of a whole term stand outside of its parentheses. -/
theorem renderIn_marked (term : Term) (parens : Bool) :
    term.renderIn parens (some []) = "[[" ++ term.renderIn parens none ++ "]]" := by
  -- No part of a marked term is marked once more.
  cases term <;> simp [renderIn, enclose, descend]

/-- What is printed on either side of the part at a path. The parentheses of the part itself belong
to the part, and the blank that may separate an argument does not. -/
def margins (parens : Bool) : Path → Term → Margins
  | .func :: rest, app func arg =>
    (func.margins func.groupsAsFunc rest).widen parens ""
      ((if arg.groupsAsArg then "" else " ") ++ arg.renderIn arg.groupsAsArg none)
  | .arg :: rest, app func arg =>
    (arg.margins arg.groupsAsArg rest).widen parens
      (func.renderIn func.groupsAsFunc none ++ (if arg.groupsAsArg then "" else " ")) ""
  | .body :: rest, lam binder body =>
    (body.margins false rest).widen parens ("λ" ++ binder ++ ".") ""
  | _, _ => ⟨"", ""⟩

variable {path : Path} {term part : Term}

/-- The part at a path is printed between its margins, marked if the path is the target. -/
theorem renderIn_of_at? (found : term.at? path = some part) (parens : Bool) :
    ∃ grouped, term.renderIn parens none = (term.margins parens path).around
        (part.renderIn grouped none) ∧
      term.renderIn parens (some path) = (term.margins parens path).around
        (part.renderIn grouped (some [])) := by
  -- Each branch leaves the text of the other parts and the parentheses of the term in the margins.
  fun_induction at? path term generalizing parens with
  | case1 term =>
    -- The term itself is the part, and its margins are empty.
    obtain rfl := Option.some.inj found
    exact ⟨parens, by simp [margins, Margins.around]⟩
  | case2 rest func arg ih =>
    -- The function has the argument on its right.
    obtain ⟨grouped, plain, marked⟩ := ih found func.groupsAsFunc
    refine ⟨grouped, ?_, ?_⟩
    · rw [margins, Margins.around_widen, ← plain]
      simp [renderIn, descend, String.append_assoc]
    · rw [margins, Margins.around_widen, ← marked]
      simp [renderIn, descend, enclose, String.append_assoc]
  | case3 rest func arg ih =>
    -- The argument has the function on its left.
    obtain ⟨grouped, plain, marked⟩ := ih found arg.groupsAsArg
    refine ⟨grouped, ?_, ?_⟩
    · rw [margins, Margins.around_widen, ← plain]
      simp [renderIn, descend]
    · rw [margins, Margins.around_widen, ← marked]
      simp [renderIn, descend, enclose]
  | case4 rest binder body ih =>
    -- The body has the binder on its left.
    obtain ⟨grouped, plain, marked⟩ := ih found false
    refine ⟨grouped, ?_, ?_⟩
    · rw [margins, Margins.around_widen, ← plain]
      simp [renderIn, descend]
    · rw [margins, Margins.around_widen, ← marked]
      simp [renderIn, descend, enclose]
  | case5 => contradiction

/-- A path that leaves the term marks nothing. -/
theorem renderIn_of_at?_eq_none (missing : term.at? path = none) (parens : Bool) :
    term.renderIn parens (some path) = term.renderIn parens none := by
  -- The target leaves the printed term at the branch at which the path does.
  fun_induction at? path term generalizing parens with
  | case1 => contradiction
  | case2 rest func arg ih => simp [renderIn, descend, enclose, ih missing]
  | case3 rest func arg ih => simp [renderIn, descend, enclose, ih missing]
  | case4 rest binder body ih => simp [renderIn, descend, enclose, ih missing]
  -- The path takes a branch that the term does not have.
  | case5 branch rest term noFunc noArg noBody =>
    cases branch <;> cases term <;> simp_all [renderIn, descend, enclose]

/-- Marking the part at a path puts one pair of markers around its text, outside of the
parentheses that it may have and between the margins of its position, and a path that leaves the
term marks nothing. -/
theorem render_marks (term : Term) (path : Path) :
    (∀ part, term.at? path = some part →
        ∃ shown, (shown = part.text ∨ shown = "(" ++ part.text ++ ")") ∧
          term.render none = (term.margins false path).before ++ shown ++
            (term.margins false path).after ∧
          term.render (some path) = (term.margins false path).before ++ "[[" ++ shown ++ "]]" ++
            (term.margins false path).after) ∧
      (term.at? path = none → term.render (some path) = term.render none) := by
  -- The part is printed in its margins both ways, and the markers enclose it there.
  refine ⟨fun part found => ?_, fun missing => renderIn_of_at?_eq_none missing false⟩
  obtain ⟨grouped, plain, marked⟩ := renderIn_of_at? found false
  refine ⟨part.renderIn grouped none, ?_, plain, ?_⟩
  · cases grouped with
    | false => exact .inl (renderIn_false part)
    | true => exact .inr (renderIn_true part)
  · rw [render, marked, renderIn_marked]
    simp [Margins.around, String.append_assoc]

/-- Marking an argument in parentheses, and one that a blank separates. -/
example :
    let term := app (var "f") (app (lam "x" (var "x")) (var "y"))
    term.render (some [.arg]) = "f[[((λx.x) y)]]" ∧
      term.render (some [.arg, .arg]) = "f((λx.x) [[y]])" ∧
      term.margins false [.arg, .arg] = ⟨"f((λx.x) ", ")"⟩ := by
  decide

end Term

end NamedLambda
