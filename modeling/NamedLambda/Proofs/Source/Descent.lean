import NamedLambda.Proofs.Source.Grammar
import NamedLambda.Proofs.Source.Routines
import NamedLambda.Proofs.Source.Scoping

/-! What the routines of recursive descent return is what a reader makes of the tokens. -/

namespace NamedLambda.Descent

open Reader (Frame Settles State advance boundNames closeBinders extend finish skipBlanks)

variable {meaning : Name → Option Term} {tokens : List Token}

/-- What a reader in a state makes of the tokens from a position on. -/
def readFrom (meaning : Name → Option Term) (tokens : List Token) (position : Nat)
    (state : State) : Except ReadError Term :=
  Reader.read meaning position state (tokens.drop position)

section

variable {position : Nat} {state next : State} {token : Token}

/-- Behind the last token a reader finds the end as well. -/
theorem readFrom_of_eof (ended : peek tokens position = .eof) :
    readFrom meaning tokens position state = finish position state := by
  -- The end may be a token of its own, or there may be no token left.
  by_cases inside : position < tokens.length
  · rw [peek, List.getElem?_eq_getElem inside, Option.getD_some] at ended
    rw [readFrom, List.drop_eq_getElem_cons inside, ended, Reader.read]
  · rw [readFrom, List.drop_eq_nil_of_le (Nat.le_of_not_lt inside), Reader.read]

/-- A token that is accepted takes the reader to its next state and the next position. -/
theorem readFrom_of_advance (stands : peek tokens position = token) (more : token ≠ .eof)
    (advanced : advance meaning position state token = .ok next) :
    readFrom meaning tokens position state = readFrom meaning tokens (position + 1) next := by
  -- The token stands at the head of those that are left to read.
  rw [readFrom, drop_eq_cons stands more, Reader.read_of_advance more advanced, readFrom]

/-- A token that is refused decides what the reader makes of all the tokens left. -/
theorem readFrom_of_refused {error : ReadError} (stands : peek tokens position = token)
    (more : token ≠ .eof) (refused : advance meaning position state token = .error error) :
    readFrom meaning tokens position state = .error error := by
  -- Nothing behind the token is looked at.
  rw [readFrom, drop_eq_cons stands more, Reader.read_of_refused more refused]

/-- A reader makes the same of the tokens from behind the blanks on. -/
theorem readFrom_behindBlanks (state : State) (position : Nat) :
    readFrom meaning tokens (behindBlanks tokens position) state =
      readFrom meaning tokens position state := by
  -- A reader leaves its state as it is at a blank.
  induction position using blanks_induction tokens with
  | solid position solid => rw [behindBlanks_of_ne_blank solid]
  | blank position blank ih =>
    rw [behindBlanks_of_blank blank, ih, ← readFrom_of_advance blank (by simp) (by rw [advance])]

end

/-- An expression ends at a position. -/
def EndsAt (tokens : List Token) (position : Nat) : Prop :=
  peek tokens position = .closeParen ∨ peek tokens position = .eof

/-- No blanks stand where an expression ends. -/
theorem EndsAt.behindBlanks_eq {position : Nat} (ends : EndsAt tokens position) :
    behindBlanks tokens position = position := by
  -- Another token stands there, or none at all.
  refine behindBlanks_of_ne_blank fun blank => ?_
  rcases ends with closed | ended
  · simp [closed] at blank
  · simp [ended] at blank

/-- A reader has read a term between open constructs, or will have when they end right here. -/
inductive Reaches (tokens : List Token) (frames : List Frame) (term : Term) (position : Nat) :
    State → Prop where
  /-- More arguments may come. -/
  | within : Reaches tokens frames term position (.inExpression frames (some term))
  /-- Abstractions inside the term are still open, and end together with it. -/
  | atEnd {state : State} (settles : Settles frames term state) (ends : EndsAt tokens position) :
    Reaches tokens frames term position state

/-- Whether or not more arguments may come, what ends the expression completes the term. -/
theorem Reaches.settles {frames : List Frame} {term : Term} {position : Nat} {state : State}
    (reaches : Reaches tokens frames term position state) : Settles frames term state := by
  cases reaches with
  -- Behind a term as such nothing is left open.
  | within => exact .pending rfl rfl
  | atEnd settles ends => exact settles

/-- The state of a reader between open constructs, behind what came before a call, as the
call is made. -/
inductive Enters (tokens : List Token) (frames : List Frame) :
    Call → (before : Option Term) → State → Prop where
  /-- An expression begins anew. -/
  | expression (position : Nat) :
    Enters tokens frames ⟨.expression, boundNames frames, position⟩ none (.inExpression frames none)
  /-- An abstraction is called at its sign. -/
  | abstraction {position : Nat} (before : Option Term) (sign : peek tokens position = .lambda) :
    Enters tokens frames ⟨.abstraction, boundNames frames, position⟩ before
      (.inExpression frames before)
  /-- The names of an abstraction are collected. -/
  | binders (names : List Name) (position : Nat) (before : Option Term) :
    Enters tokens frames ⟨.binders names, boundNames frames, position⟩ before
      (.inBinders frames before names)
  /-- An application is not called at the end. -/
  | application {position : Nat} (more : peek tokens (behindBlanks tokens position) ≠ .eof) :
    Enters tokens frames ⟨.application, boundNames frames, position⟩ none
      (.inExpression frames none)
  /-- The term before its arguments has been read. -/
  | arguments {func : Term} {position : Nat} {state : State}
    (reaches : Reaches tokens frames func position state) :
    Enters tokens frames ⟨.arguments func, boundNames frames, position⟩ none state
  /-- An atom is not called at the end, nor an argument at the end of a group. -/
  | atom {position : Nat} {before : Option Term}
    (more : peek tokens (behindBlanks tokens position) ≠ .eof)
    (inGroup : before = none ∨ peek tokens (behindBlanks tokens position) ≠ .closeParen) :
    Enters tokens frames ⟨.atom, boundNames frames, position⟩ before (.inExpression frames before)

/-- What a reader makes of all the tokens left is what a routine returns: its error, or what the
reader makes of the tokens behind its term. -/
inductive Reads (meaning : Name → Option Term) (tokens : List Token) (routine : Routine)
    (frames : List Frame) (before : Option Term) (whole : Except ReadError Term) :
    Except ReadError Term → Nat → Prop where
  /-- The reader fails as the routine does. -/
  | error {error : ReadError} (after : Nat) (failed : whole = .error error) :
    Reads meaning tokens routine frames before whole (.error error) after
  /-- The reader has the term and goes on behind it. -/
  | ok {term : Term} {after : Nat} {next : State}
    (same : whole = readFrom meaning tokens after next)
    (reaches : Reaches tokens frames (extend before term) after next)
    -- Only behind an atom can arguments come.
    (ends : routine ≠ .atom → EndsAt tokens after) :
    Reads meaning tokens routine frames before whole (.ok term) after

/-- A call that is made in step with a reader returns what the reader makes of the tokens. -/
def Return.Agrees (meaning : Name → Option Term) (tokens : List Token) (returned : Return) : Prop :=
  ∀ ⦃frames : List Frame⦄ ⦃before : Option Term⦄ ⦃state : State⦄,
    Enters tokens frames returned.call before state →
      Reads meaning tokens returned.call.routine frames before
        (readFrom meaning tokens returned.call.position state) returned.result returned.after

section

variable {frames : List Frame} {before : Option Term} {position after : Nat} {state : State}
  {result : Except ReadError Term}

/-- What a routine hands on from one that does not end like an atom. -/
theorem Reads.handOn {inner : Routine} {whole outer : Except ReadError Term} (routine : Routine)
    (reads : Reads meaning tokens inner frames before whole result after) (solid : inner ≠ .atom)
    (same : outer = whole) : Reads meaning tokens routine frames before outer result after := by
  subst same
  cases reads with
  -- A routine without a loop ends where its last call does.
  | error after failed => exact .error after failed
  | ok same reaches ends => exact .ok same reaches fun _ => ends solid

/-- Where a plan makes a call in step with a reader, both fail or both go on with the term
of the call. -/
theorem Follows.of_call {callee : Call} {resume : Term → Nat → Plan}
    (follows : Follows (Return.Agrees meaning tokens) (.call callee resume) result after)
    (enters : Enters tokens frames callee before state) :
    (∃ error, result = .error error ∧
        readFrom meaning tokens callee.position state = .error error) ∨
      ∃ term between next,
        readFrom meaning tokens callee.position state = readFrom meaning tokens between next ∧
        Reaches tokens frames (extend before term) between next ∧
        (callee.routine ≠ .atom → EndsAt tokens between) ∧
        Follows (Return.Agrees meaning tokens) (resume term between) result after := by
  cases follows with
  -- What the call returns is known to be what the reader makes of the tokens.
  | fails resume kept =>
    cases kept enters with
    | error after failed => exact .inl ⟨_, rfl, failed⟩
  | resumes kept later =>
    cases kept enters with
    | ok same reaches ends => exact .inr ⟨_, _, _, same, reaches, ends, later⟩

/-- An expression is an abstraction or an application, as its first token says. -/
theorem reads_expression
    (follows : Follows (Return.Agrees meaning tokens)
      (Call.plan meaning tokens ⟨.expression, boundNames frames, position⟩) result after) :
    Reads meaning tokens .expression frames none
      (readFrom meaning tokens position (.inExpression frames none)) result after := by
  -- The reader does nothing yet: it sees at the next token what the call decides at once.
  rw [← readFrom_behindBlanks]
  simp only [Call.plan] at follows
  split at follows
  -- Without a token there is no expression.
  next ended =>
    cases follows with
    | finish => exact .error _ (readFrom_of_eof ended)
  -- A lambda sign begins an abstraction, and any other token an application.
  next sign => exact (follows.of_delegate (.abstraction none sign)).handOn _ (by simp) rfl
  next more _ =>
    have solid := behindBlanks_of_ne_blank (peek_behindBlanks_ne tokens position)
    exact (follows.of_delegate (.application (by rwa [solid]))).handOn _ (by simp) rfl

/-- An abstraction begins with its sign. -/
theorem reads_abstraction (sign : peek tokens position = .lambda)
    (follows : Follows (Return.Agrees meaning tokens)
      (Call.plan meaning tokens ⟨.abstraction, boundNames frames, position⟩) result after) :
    Reads meaning tokens .abstraction frames before
      (readFrom meaning tokens position (.inExpression frames before)) result after := by
  -- The reader goes on to the names, none of which has been read.
  have opens : readFrom meaning tokens position (.inExpression frames before) =
      readFrom meaning tokens (position + 1) (.inBinders frames before []) :=
    readFrom_of_advance sign (by simp) (by rw [advance])
  exact (follows.of_delegate (.binders [] _ before)).handOn _ (by simp) opens

/-- A reader refuses what stands behind the names of an abstraction, if it is neither a name nor a
dot that ends some names. -/
theorem readFrom_inBinders_of_refused {names : List Name} {expected : Expected}
    (solid : peek tokens position ≠ .blank) (unnamed : ∀ name, peek tokens position ≠ .ident name)
    (refused : names = [] ∧ expected = .binder ∨
      names ≠ [] ∧ peek tokens position ≠ .dot ∧ expected = .dot) :
    readFrom meaning tokens position (.inBinders frames before names) =
      .error (.unexpectedToken expected (peek tokens position) position) := by
  cases stands : peek tokens position with
  | blank => exact absurd stands solid
  | ident name => exact absurd stands (unnamed name)
  -- At the end of the text the reader misses what the routine misses.
  | eof =>
    rw [readFrom_of_eof stands]
    rcases refused with ⟨rfl, rfl⟩ | ⟨some, -, rfl⟩
    · rfl
    · rw [finish]
      exact some
  -- A dot is refused only where no name has come before it.
  | dot =>
    obtain ⟨rfl, rfl⟩ := refused.resolve_right fun named => named.2.1 stands
    exact readFrom_of_refused stands (by simp) rfl
  -- Any other token is refused for not being a name or, behind a name, a dot.
  | _ =>
    refine readFrom_of_refused stands (by simp) ?_
    rcases refused with ⟨rfl, rfl⟩ | ⟨some, -, rfl⟩
    · rfl
    · obtain ⟨binder, rest, rfl⟩ := List.exists_cons_of_ne_nil some
      rfl

/-- Behind the dot comes the body of the abstraction, in which its names are bound. -/
theorem reads_body {names : List Name} (some : names ≠ []) (dot : peek tokens position = .dot)
    (follows : Follows (Return.Agrees meaning tokens)
      (.call ⟨.expression, names ++ boundNames frames, position + 1⟩ fun body after =>
        .finish (.ok (closeBinders names body)) after) result after) :
    Reads meaning tokens (.binders names) frames before
      (readFrom meaning tokens position (.inBinders frames before names)) result after := by
  -- The reader opens a frame for the abstraction, around an expression that begins anew.
  have opens : readFrom meaning tokens position (.inBinders frames before names) =
      readFrom meaning tokens (position + 1)
        (.inExpression (.abstraction before names :: frames) none) :=
    readFrom_of_advance dot (by simp) (by rw [advance]; exact some)
  have enters : Enters tokens (.abstraction before names :: frames)
      ⟨.expression, names ++ boundNames frames, position + 1⟩ none
      (.inExpression (.abstraction before names :: frames) none) := .expression _
  rcases follows.of_call enters with
    ⟨error, rfl, failed⟩ | ⟨body, between, next, same, reaches, ends, later⟩
  · -- An error in the body is one of the abstraction.
    exact .error _ (opens.trans failed)
  · -- Where the body ends the abstraction ends with it.
    cases later with
    | finish =>
      have stops := ends (by simp)
      exact .ok (opens.trans same) (.atEnd reaches.settles.abstraction stops) fun _ => stops

/-- Names are collected up to the dot, and bound in what comes behind it. -/
theorem reads_binders {names : List Name}
    (follows : Follows (Return.Agrees meaning tokens)
      (Call.plan meaning tokens ⟨.binders names, boundNames frames, position⟩) result after) :
    Reads meaning tokens (.binders names) frames before
      (readFrom meaning tokens position (.inBinders frames before names)) result after := by
  -- Both pass over blanks to the token that says how the names go on.
  rw [← readFrom_behindBlanks]
  have solid := peek_behindBlanks_ne tokens position
  simp only [Call.plan] at follows
  split at follows
  -- Another name is collected, and the loop goes round again.
  next name named =>
    have collects : readFrom meaning tokens (behindBlanks tokens position)
        (.inBinders frames before names) = readFrom meaning tokens
          (behindBlanks tokens position + 1) (.inBinders frames before (name :: names)) :=
      readFrom_of_advance named (by simp) (by rw [advance])
    exact (follows.of_delegate (.binders (name :: names) _ before)).handOn _ (by simp) collects
  next unnamed =>
    split at follows
    -- Without a name there is no abstraction.
    next none =>
      cases follows with
      | finish => exact .error _ (readFrom_inBinders_of_refused solid unnamed (.inl ⟨none, rfl⟩))
    next some =>
      split at follows
      next dot => exact reads_body some dot follows
      next undotted =>
        -- What is neither a name nor a dot is refused behind a name.
        cases follows with
        | finish =>
          exact .error _ (readFrom_inBinders_of_refused solid unnamed (.inr ⟨some, undotted, rfl⟩))

/-- An application begins with an atom. -/
theorem reads_application (more : peek tokens (behindBlanks tokens position) ≠ .eof)
    (follows : Follows (Return.Agrees meaning tokens)
      (Call.plan meaning tokens ⟨.application, boundNames frames, position⟩) result after) :
    Reads meaning tokens .application frames none
      (readFrom meaning tokens position (.inExpression frames none)) result after := by
  -- The atom is the first term of the application, behind which its arguments are taken.
  rcases follows.of_call (.atom more (.inl rfl)) with
    ⟨error, rfl, failed⟩ | ⟨func, between, next, same, reaches, -, later⟩
  · exact .error _ failed
  · exact (later.of_delegate (.arguments reaches)).handOn _ (by simp) same

/-- Arguments are taken up to the end of the expression. -/
theorem reads_arguments {func : Term} (reaches : Reaches tokens frames func position state)
    (follows : Follows (Return.Agrees meaning tokens)
      (Call.plan meaning tokens ⟨.arguments func, boundNames frames, position⟩) result after) :
    Reads meaning tokens (.arguments func) frames none
      (readFrom meaning tokens position state) result after := by
  rw [← readFrom_behindBlanks]
  simp only [Call.plan] at follows
  split at follows
  -- A parenthesis or the end of the text ends the expression, with all its arguments read.
  next closed =>
    cases follows with
    | finish => exact .ok rfl (.atEnd reaches.settles (.inl closed)) fun _ => .inl closed
  next ended =>
    cases follows with
    | finish => exact .ok rfl (.atEnd reaches.settles (.inr ended)) fun _ => .inr ended
  next opened more =>
    have solid := behindBlanks_of_ne_blank (peek_behindBlanks_ne tokens position)
    cases reaches with
    | atEnd settles ends =>
      -- An abstraction that is still open takes all arguments to itself.
      rw [ends.behindBlanks_eq] at opened more
      exact absurd ends (not_or.mpr ⟨opened, more⟩)
    | within =>
      -- Any other token begins an argument, which the term so far is applied to.
      have enters : Enters tokens frames
          ⟨.atom, boundNames frames, behindBlanks tokens position⟩ (some func)
          (.inExpression frames (some func)) :=
        .atom (by rwa [solid]) (.inr (by rwa [solid]))
      rcases follows.of_call enters with
        ⟨error, rfl, failed⟩ | ⟨arg, between, next, same, reaches, -, later⟩
      · exact .error _ failed
      · exact (later.of_delegate (.arguments reaches)).handOn _ (by simp) same

/-- A reader refuses what can neither begin an argument nor end the expression it is in. -/
theorem readFrom_inExpression_of_refused (more : peek tokens position ≠ .eof)
    (solid : peek tokens position ≠ .blank)
    (inGroup : before = none ∨ peek tokens position ≠ .closeParen)
    (unopened : peek tokens position ≠ .openParen)
    (unnamed : ∀ name, peek tokens position ≠ .ident name)
    (unsigned : peek tokens position ≠ .lambda) :
    readFrom meaning tokens position (.inExpression frames before) =
      .error (.unexpectedToken .expression (peek tokens position) position) := by
  refine readFrom_of_refused rfl more ?_
  cases stands : peek tokens position with
  | closeParen =>
    -- A parenthesis is refused where no term has been read for it to end.
    obtain rfl := inGroup.resolve_right (not_not_intro stands)
    rfl
  -- Neither a dot nor an equals sign has a place in an expression.
  | dot | equals => cases before <;> rfl
  | ident name => exact absurd stands (unnamed name)
  | _ => contradiction

/-- Behind an opening parenthesis comes an expression, and behind this a closing one. -/
theorem reads_group (opened : peek tokens position = .openParen)
    (follows : Follows (Return.Agrees meaning tokens)
      (.call ⟨.expression, boundNames frames, position + 1⟩ fun term after =>
        if peek tokens after = .closeParen then .finish (.ok term) (after + 1)
        else .finish (.error (.unexpectedToken .closeParen (peek tokens after) after)) after)
      result after) :
    Reads meaning tokens .atom frames before
      (readFrom meaning tokens position (.inExpression frames before)) result after := by
  -- The reader opens a frame for the group, around an expression that begins anew.
  have opens : readFrom meaning tokens position (.inExpression frames before) =
      readFrom meaning tokens (position + 1) (.inExpression (.group before :: frames) none) :=
    readFrom_of_advance opened (by simp) (by rw [advance])
  have enters : Enters tokens (.group before :: frames)
      ⟨.expression, boundNames frames, position + 1⟩ none
      (.inExpression (.group before :: frames) none) := .expression _
  rcases follows.of_call enters with
    ⟨error, rfl, failed⟩ | ⟨term, between, next, same, reaches, ends, later⟩
  · -- An error inside the parentheses is one of the group.
    exact .error _ (opens.trans failed)
  have settles : Settles (.group before :: frames) term next := reaches.settles
  split at later
  next closed =>
    -- The parenthesis closes the frame, and the group is an argument of what came before it.
    cases later with
    | finish =>
      have closes := readFrom_of_advance closed (by simp) (settles.advance_group meaning _)
      exact .ok (opens.trans (same.trans closes)) .within fun other => absurd rfl other
  next unclosed =>
    cases later with
    | finish =>
      -- An expression ends at a parenthesis or at the end of the text.
      have ended := (ends (by simp)).resolve_left unclosed
      rw [ended, opens, same, readFrom_of_eof ended, settles.finish_group]
      exact .error _ rfl

/-- An atom is a name, a group or an abstraction, as its first token says. -/
theorem reads_atom (more : peek tokens (behindBlanks tokens position) ≠ .eof)
    (inGroup : before = none ∨ peek tokens (behindBlanks tokens position) ≠ .closeParen)
    (follows : Follows (Return.Agrees meaning tokens)
      (Call.plan meaning tokens ⟨.atom, boundNames frames, position⟩) result after) :
    Reads meaning tokens .atom frames before
      (readFrom meaning tokens position (.inExpression frames before)) result after := by
  -- Both pass over blanks to the first token of the atom.
  rw [← readFrom_behindBlanks]
  have solid := peek_behindBlanks_ne tokens position
  simp only [Call.plan] at follows
  split at follows
  next opened => exact reads_group opened follows
  next name named =>
    split at follows
    next term meant =>
      -- A name with a meaning becomes an argument of what came before it.
      cases follows with
      | finish =>
        have takes : readFrom meaning tokens (behindBlanks tokens position)
            (.inExpression frames before) = readFrom meaning tokens
              (behindBlanks tokens position + 1)
              (.inExpression frames (some (extend before term))) :=
          readFrom_of_advance named (by simp) (by rw [advance, Reader.occurrence, meant])
        exact .ok takes .within fun other => absurd rfl other
    next unknown =>
      -- A macro without a meaning is refused where its name stands.
      cases follows with
      | finish =>
        exact .error _ (readFrom_of_refused named (by simp)
          (by rw [advance, Reader.occurrence, unknown]))
  next sign =>
    -- A lambda sign begins an abstraction, which no argument can follow.
    cases follows.of_delegate (.abstraction before sign) with
    | error after failed => exact .error _ failed
    | ok same reaches ends => exact .ok same reaches fun other => absurd rfl other
  next unopened unnamed unsigned =>
    -- No other token begins an atom.
    cases follows with
    | finish =>
      exact .error _
        (readFrom_inExpression_of_refused more solid inGroup unopened unnamed unsigned)

/-- Each routine agrees with a reader if the calls that it makes do. -/
theorem agrees_of_follows {call : Call}
    (follows : Follows (Return.Agrees meaning tokens) (call.plan meaning tokens) result after) :
    Return.Agrees meaning tokens ⟨call, result, after⟩ := by
  intro frames before state enters
  -- The state in which a call is made says which routine it is a call of.
  cases enters with
  | expression position => exact reads_expression follows
  | abstraction before sign => exact reads_abstraction sign follows
  | binders names position before => exact reads_binders follows
  | application more => exact reads_application more follows
  | arguments reaches => exact reads_arguments reaches follows
  | atom more inGroup => exact reads_atom more inGroup follows

end

/-- A whole term is what a reader makes of the tokens. -/
theorem eq_readFrom_of_completed {first after : Nat} {result : Except ReadError Term}
    {log : List Return} (runs : Runs meaning tokens (completed tokens first) result after log) :
    result = readFrom meaning tokens first Reader.start := by
  -- The whole term is an expression with nothing open around it.
  have enters : Enters tokens [] ⟨.expression, [], first⟩ none Reader.start := .expression first
  have follows : Follows (Return.Agrees meaning tokens) (completed tokens first) result after :=
    runs.follows fun _ _ _ => agrees_of_follows
  rcases follows.of_call enters with
    ⟨error, rfl, failed⟩ | ⟨term, between, next, same, reaches, ends, later⟩
  · exact failed.symm
  have settles : Settles [] term next := reaches.settles
  have stops : EndsAt tokens between := ends (by simp)
  rw [same]
  simp only [stops.behindBlanks_eq] at later
  -- A parenthesis closes no group here, and the end completes the term.
  rcases stops with closed | ended
  · rw [closed] at later
    cases later with
    | finish => exact (readFrom_of_refused closed (by simp) (settles.advance_whole meaning _)).symm
  · rw [ended] at later
    cases later with
    | finish => rw [readFrom_of_eof ended, settles.finish_whole]

/-- What is done to read a text comes to what is read off it. -/
theorem eq_outcome_of_runs {source : String} (cut : tokensOf source = .ok tokens) {entry : Entry}
    {result : Except ReadError Term} {after : Nat} {log : List Return}
    (runs : Runs meaning tokens (entry.plan tokens) result after log) :
    result = entry.outcome meaning source := by
  cases entry with
  -- A term is the whole text.
  | term =>
    rw [eq_readFrom_of_completed runs, Entry.outcome, readTerm, cut]
    rfl
  | definition =>
    have whole : readDefinition meaning source = Reader.readDefinition meaning tokens := by
      rw [readDefinition, cut]
      rfl
    -- Both look for a name and for the sign behind it.
    have front := skipBlanks_drop tokens 0
    rw [List.drop_zero] at front
    rw [Entry.outcome, whole, Reader.readDefinition, front]
    simp only [Entry.plan] at runs
    split at runs
    next name named =>
      rw [drop_eq_cons named (by simp)]
      simp only [skipBlanks_drop]
      split at runs
      next signed =>
        -- The body is a whole term behind the sign.
        rw [drop_eq_cons signed (by simp), eq_readFrom_of_completed runs, readFrom]
        dsimp only
        cases Reader.read meaning _ Reader.start _ <;> rfl
      -- Without the sign both miss it at the same position.
      next unsigned =>
        cases runs with
        | finish =>
          split
          next same => exact absurd (peek_of_drop (Prod.mk.inj same).2) unsigned
          next same =>
            obtain ⟨rfl, rfl⟩ := Prod.mk.inj same
            rw [headD_drop]
            rfl
    -- Without a name both miss it at the first position behind blanks.
    next unnamed =>
      cases runs with
      | finish =>
        split
        next name _ same => exact absurd (peek_of_drop (Prod.mk.inj same).2) (unnamed name)
        next same =>
          obtain ⟨rfl, rfl⟩ := Prod.mk.inj same
          rw [headD_drop]
          rfl

end NamedLambda.Descent
