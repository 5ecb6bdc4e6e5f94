import NamedLambda.Source.Reader

/-! Reading by recursive descent: there is a routine for each construct, and the routines call each
other and share one place among the tokens. -/

namespace NamedLambda

open Reader (closeBinders skipBlanks)

namespace Descent

/-- The token at a position; behind the last one the text has ended. -/
def peek (tokens : List Token) (position : Nat) : Token :=
  tokens[position]?.getD .eof

/-- The first position from a given one on at which no blank stands. -/
def behindBlanks (tokens : List Token) (position : Nat) : Nat :=
  (skipBlanks position (tokens.drop position)).1

/-- A routine of the descent. The two loops are routines too, whose last call goes round again. -/
inductive Routine where
  /-- An abstraction or an application. -/
  | expression
  /-- A lambda sign, names, a dot and an expression. -/
  | abstraction
  /-- The names of an abstraction and its body, behind names that were read, the innermost first. -/
  | binders (names : List Name)
  /-- An atom and its arguments. -/
  | application
  /-- The arguments of a term that was read. -/
  | arguments (func : Term)
  /-- A name, a group in parentheses or an abstraction. -/
  | atom
deriving DecidableEq

/-- A call of a routine. -/
structure Call where
  /-- The routine that is called. -/
  routine : Routine
  /-- The names that the abstractions around it bind, the innermost first. -/
  bound : List Name
  /-- The position of the next token. -/
  position : Nat

/-- What is left to do: to return, or to make a call and to go on from what it returns. -/
inductive Plan where
  /-- To return from a position. -/
  | finish (result : Except ReadError Term) (position : Nat)
  /-- To make a call, and to go on with its term from where it stopped. -/
  | call (callee : Call) (resume : Term → Nat → Plan)

/-- To return what a call returns. -/
def Plan.delegate (callee : Call) : Plan :=
  .call callee fun term after => .finish (.ok term) after

variable (meaning : Name → Option Term) (tokens : List Token)

/-- What a routine does when it is called. -/
def Call.plan : Call → Plan
  | ⟨.expression, bound, position⟩ =>
    let here := behindBlanks tokens position
    match peek tokens here with
    | .eof => .finish (.error (.emptyExpression here)) here
    | .lambda => .delegate ⟨.abstraction, bound, here⟩
    | _ => .delegate ⟨.application, bound, here⟩
  | ⟨.abstraction, bound, position⟩ => .delegate ⟨.binders [], bound, position + 1⟩
  | ⟨.binders names, bound, position⟩ =>
    let here := behindBlanks tokens position
    match peek tokens here with
    | .ident name => .delegate ⟨.binders (name :: names), bound, here + 1⟩
    | found =>
      if names = [] then .finish (.error (.unexpectedToken .binder found here)) here
      else if found = .dot then .call ⟨.expression, names ++ bound, here + 1⟩ fun body after =>
        .finish (.ok (closeBinders names body)) after
      else .finish (.error (.unexpectedToken .dot found here)) here
  | ⟨.application, bound, position⟩ => .call ⟨.atom, bound, position⟩ fun func after =>
      .delegate ⟨.arguments func, bound, after⟩
  | ⟨.arguments func, bound, position⟩ =>
    let here := behindBlanks tokens position
    match peek tokens here with
    -- The loop ends where the expression does, and all arguments have been taken by then.
    | .closeParen | .eof => .finish (.ok func) here
    | _ => .call ⟨.atom, bound, here⟩ fun arg after =>
        .delegate ⟨.arguments (.app func arg), bound, after⟩
  | ⟨.atom, bound, position⟩ =>
    let here := behindBlanks tokens position
    match peek tokens here with
    -- A group is an expression, and the parenthesis behind it belongs to the atom.
    | .openParen => .call ⟨.expression, bound, here + 1⟩ fun term after =>
        if peek tokens after = .closeParen then .finish (.ok term) (after + 1)
        else .finish (.error (.unexpectedToken .closeParen (peek tokens after) after)) after
    | .ident name =>
      -- A name that an abstraction binds is a variable, even if it is named like a macro.
      match if isMacroName name && !bound.contains name then meaning name else some (.var name) with
      | some term => .finish (.ok term) (here + 1)
      | none => .finish (.error (.unboundMacro name here)) (here + 1)
    | .lambda => .delegate ⟨.abstraction, bound, here⟩
    | found => .finish (.error (.unexpectedToken .expression found here)) here

/-- To read a whole term from a position on, with nothing behind it. -/
def completed (first : Nat) : Plan :=
  .call ⟨.expression, [], first⟩ fun term after =>
    let here := behindBlanks tokens after
    match peek tokens here with
    | .eof => .finish (.ok term) here
    | found => .finish (.error (.unexpectedToken .endOfInput found here)) here

/-- What a text can be read as. -/
inductive Entry where
  /-- A term. -/
  | term
  /-- A definition. -/
  | definition

/-- What is done to read a text. -/
def Entry.plan : Entry → Plan
  | term => completed tokens 0
  | definition =>
    let name := behindBlanks tokens 0
    match peek tokens name with
    | .ident _ =>
      let sign := behindBlanks tokens (name + 1)
      match peek tokens sign with
      | .equals => completed tokens (sign + 1)
      | found => .finish (.error (.unexpectedToken .equals found sign)) sign
    | found => .finish (.error (.unexpectedToken .definedName found name)) name

/-- The term that a text writes, which is the body if it is a definition. -/
def Entry.outcome (source : String) : Entry → Except ReadError Term
  | term => readTerm meaning source
  | definition => (readDefinition meaning source).map Prod.snd

/-- A call that has returned. -/
structure Return where
  /-- The call. -/
  call : Call
  /-- What it returned. -/
  result : Except ReadError Term
  /-- The position of the next token after it. -/
  after : Nat

/-- A plan returns a result from a position, and these are the calls that return on the way. -/
inductive Runs : Plan → Except ReadError Term → Nat → List Return → Prop where
  /-- Nothing is left but to return. -/
  | finish (result : Except ReadError Term) (position : Nat) :
    Runs (.finish result position) result position []
  /-- What a call fails with is handed on. -/
  | fails {callee : Call} {error : ReadError} {after : Nat} {inner : List Return}
    (resume : Term → Nat → Plan)
    (failed : Runs (callee.plan meaning tokens) (.error error) after inner) :
    Runs (.call callee resume) (.error error) after (⟨callee, .error error, after⟩ :: inner)
  /-- The plan goes on with the term of a call. -/
  | resumes {callee : Call} {term : Term} {between after : Nat} {inner later : List Return}
    {resume : Term → Nat → Plan} {result : Except ReadError Term}
    (called : Runs (callee.plan meaning tokens) (.ok term) between inner)
    (resumed : Runs (resume term between) result after later) :
    Runs (.call callee resume) result after (⟨callee, .ok term, between⟩ :: inner ++ later)

variable {meaning tokens}

/-- A plan runs in one way only. -/
theorem Runs.unique {plan : Plan} {result other : Except ReadError Term} {after otherAfter : Nat}
    {log otherLog : List Return} (runs : Runs meaning tokens plan result after log)
    (otherRuns : Runs meaning tokens plan other otherAfter otherLog) :
    other = result ∧ otherAfter = after ∧ otherLog = log := by
  -- What a call returns decides whether the plan goes on, and from where.
  induction runs generalizing other otherAfter otherLog with
  -- A plan that is left to return does so without a call.
  | finish result position =>
    cases otherRuns with
    | finish => exact ⟨rfl, rfl, rfl⟩
  -- A call that fails in one run cannot succeed in the other.
  | fails resume failed ih =>
    cases otherRuns with
    | fails resume otherFailed =>
      obtain ⟨same, rfl, rfl⟩ := ih otherFailed
      obtain rfl := Except.error.inj same
      exact ⟨rfl, rfl, rfl⟩
    | resumes otherCalled otherResumed => simpa using (ih otherCalled).1
  -- The same term and the same position make the same plan of what is left.
  | resumes called resumed ih laterIh =>
    cases otherRuns with
    | fails resume otherFailed => simpa using (ih otherFailed).1
    | resumes otherCalled otherResumed =>
      obtain ⟨same, rfl, rfl⟩ := ih otherCalled
      obtain rfl := Except.ok.inj same
      obtain ⟨rfl, rfl, rfl⟩ := laterIh otherResumed
      exact ⟨rfl, rfl, rfl⟩

/-- A plan comes to a result if what it calls returns what is promised of it. -/
inductive Follows (promised : Return → Prop) : Plan → Except ReadError Term → Nat → Prop where
  /-- Nothing is left but to return. -/
  | finish (result : Except ReadError Term) (position : Nat) :
    Follows promised (.finish result position) result position
  /-- What a call fails with is handed on. -/
  | fails {callee : Call} {error : ReadError} {after : Nat} (resume : Term → Nat → Plan)
    (kept : promised ⟨callee, .error error, after⟩) :
    Follows promised (.call callee resume) (.error error) after
  /-- The plan goes on with the term of a call. -/
  | resumes {callee : Call} {term : Term} {between after : Nat} {resume : Term → Nat → Plan}
    {result : Except ReadError Term} (kept : promised ⟨callee, .ok term, between⟩)
    (later : Follows promised (resume term between) result after) :
    Follows promised (.call callee resume) result after

/-- What each routine keeps if its calls keep it is kept by all calls. -/
theorem Runs.follows {promised : Return → Prop}
    (keeps : ∀ call result after, Follows promised (call.plan meaning tokens) result after →
      promised ⟨call, result, after⟩)
    {plan : Plan} {result : Except ReadError Term} {after : Nat} {log : List Return}
    (runs : Runs meaning tokens plan result after log) : Follows promised plan result after := by
  -- A call on the way runs the plan of its routine, for which the promise is known by then.
  induction runs with
  -- Without a call nothing is promised.
  | finish result position => exact .finish result position
  | fails resume failed ih => exact .fails resume (keeps _ _ _ ih)
  | resumes called resumed ih laterIh => exact .resumes (keeps _ _ _ ih) laterIh

/-- A routine that hands on what a call returns keeps the promise of this call. -/
theorem Follows.of_delegate {promised : Return → Prop} {callee : Call}
    {result : Except ReadError Term} {after : Nat}
    (follows : Follows promised (.delegate callee) result after) :
    promised ⟨callee, result, after⟩ := by
  cases follows with
  | fails resume kept => exact kept
  | resumes kept later =>
    -- Behind the call nothing is left but to return.
    cases later with
    | finish => exact kept

section

variable {position : Nat} {token : Token}

/-- The first of the tokens left at a position is the token there. -/
theorem headD_drop (tokens : List Token) (position : Nat) :
    (tokens.drop position).headD .eof = peek tokens position := by
  -- Either way the end of the text stands for a token that is not there.
  rw [List.headD_eq_head?_getD, List.head?_drop, peek]

/-- The tokens left at a position begin with the token there. -/
theorem peek_of_drop {rest : List Token} (same : tokens.drop position = token :: rest) :
    peek tokens position = token := by
  rw [← headD_drop, same, List.headD_cons]

/-- What is not the end stands inside the tokens. -/
theorem lt_length_of_peek (stands : peek tokens position = token) (more : token ≠ .eof) :
    position < tokens.length := by
  -- Outside of the tokens there is only the end to see.
  refine Nat.lt_of_not_le fun outside => more ?_
  rw [← stands, peek, List.getElem?_eq_none outside, Option.getD_none]

/-- A token that is not the end is the first of those left, and the others are left behind it. -/
theorem drop_eq_cons (stands : peek tokens position = token) (more : token ≠ .eof) :
    tokens.drop position = token :: tokens.drop (position + 1) := by
  -- Such a token stands inside, where the list can be taken apart.
  have inside := lt_length_of_peek stands more
  rw [List.drop_eq_getElem_cons inside, ← stands, peek, List.getElem?_eq_getElem inside,
    Option.getD_some]

/-- A blank is skipped together with those behind it. -/
theorem skipBlanks_of_blank (blank : peek tokens position = .blank) :
    skipBlanks position (tokens.drop position) =
      skipBlanks (position + 1) (tokens.drop (position + 1)) := by
  -- The reader sees the blank at the head of the tokens that are left.
  rw [drop_eq_cons blank (by simp), skipBlanks]

/-- Where no blank stands nothing is skipped. -/
theorem skipBlanks_of_ne_blank (solid : peek tokens position ≠ .blank) :
    skipBlanks position (tokens.drop position) = (position, tokens.drop position) := by
  rw [skipBlanks]
  -- The clause for blanks does not apply.
  exact fun rest same => solid (peek_of_drop same)

/-- Blanks end where they end behind the first of them. -/
theorem behindBlanks_of_blank (blank : peek tokens position = .blank) :
    behindBlanks tokens position = behindBlanks tokens (position + 1) := by
  rw [behindBlanks, skipBlanks_of_blank blank, behindBlanks]

/-- A position at which no blank stands is behind all blanks. -/
theorem behindBlanks_of_ne_blank (solid : peek tokens position ≠ .blank) :
    behindBlanks tokens position = position := by
  rw [behindBlanks, skipBlanks_of_ne_blank solid]

end

/-- What holds behind blanks, and before a blank whenever it holds behind it, holds everywhere. -/
theorem blanks_induction (tokens : List Token) {motive : Nat → Prop}
    (solid : ∀ position, peek tokens position ≠ .blank → motive position)
    (blank : ∀ position, peek tokens position = .blank → motive (position + 1) → motive position)
    (position : Nat) : motive position := by
  -- A blank is inside the tokens, so that fewer of them are left behind it.
  induction left : tokens.length - position using Nat.strongRecOn generalizing position with
  | ind left ih =>
    by_cases stands : peek tokens position = .blank
    · have inside := lt_length_of_peek stands (by simp)
      exact blank position stands (ih _ (by omega) (position + 1) rfl)
    · exact solid position stands

/-- No blank stands behind blanks. -/
theorem peek_behindBlanks_ne (tokens : List Token) (position : Nat) :
    peek tokens (behindBlanks tokens position) ≠ .blank := by
  -- Skipping stops at the first position with another token.
  induction position using blanks_induction tokens with
  | solid position solid => rwa [behindBlanks_of_ne_blank solid]
  | blank position blank ih => rwa [behindBlanks_of_blank blank]

/-- A reader that skips blanks is left with the tokens from the position behind them on. -/
theorem skipBlanks_drop (tokens : List Token) (position : Nat) :
    skipBlanks position (tokens.drop position) =
      (behindBlanks tokens position, tokens.drop (behindBlanks tokens position)) := by
  -- Each blank that is skipped moves the position and drops its token.
  induction position using blanks_induction tokens with
  | solid position solid => rw [skipBlanks_of_ne_blank solid, behindBlanks_of_ne_blank solid]
  | blank position blank ih => rw [skipBlanks_of_blank blank, ih, behindBlanks_of_blank blank]

end Descent

end NamedLambda
