import NamedLambda.Proofs.Source.Parsing

/-! Each variable of a term that is read comes from a name of its own among the tokens. -/

namespace NamedLambda

/-- The variables of a term from left to right, each with whether neither the term nor the given
binders bind it. -/
def Term.occurrences (bound : List Name) : Term → List (Name × Bool)
  | var name => [(name, !bound.contains name)]
  | lam binder body => body.occurrences (binder :: bound)
  | app func arg => func.occurrences bound ++ arg.occurrences bound
  | ref _ _ => []

/-- The names that stand for variables, each with its position; those between a lambda sign and its
dot are binders. -/
def Token.variableNames (position : Nat) (binding : Bool) : List Token → List (Nat × Name)
  | [] | .eof :: _ => []
  | .lambda :: rest => variableNames (position + 1) true rest
  | .dot :: rest => variableNames (position + 1) false rest
  | .ident name :: rest =>
    if binding then variableNames (position + 1) true rest
    else (position, name) :: variableNames (position + 1) false rest
  | _ :: rest => variableNames (position + 1) binding rest

/-- A name that is used as a variable in a text. -/
structure Use where
  /-- The position of its token. -/
  position : Nat
  /-- The name. -/
  name : Name
  /-- Whether no abstraction of the text binds it. -/
  free : Bool
deriving DecidableEq, Repr

/-- The uses of a term that has been read off tokens: its variables one by one, each with the
position of its own token. -/
def usesOf (tokens : List Token) (term : Term) : List Use :=
  List.zipWith (fun used occurrence => ⟨used.1, used.2, occurrence.2⟩)
    (Token.variableNames 0 false tokens) (term.occurrences [])

/-- Where a name is used as a variable there is a token for it. -/
theorem Token.mem_zipIdx_of_mem_variableNames {start position : Nat} {binding : Bool} {name : Name}
    {tokens : List Token} (used : (position, name) ∈ variableNames start binding tokens) :
    (.ident name, position) ∈ tokens.zipIdx start := by
  -- The positions are counted along with the tokens.
  fun_induction variableNames start binding tokens with
  -- Behind the end of the text there is no name.
  | case1 => simp at used
  | case2 => simp at used
  | case3 start binding rest ih => exact List.mem_cons_of_mem _ (ih used)
  | case4 start binding rest ih => exact List.mem_cons_of_mem _ (ih used)
  | case5 start other rest ih => exact List.mem_cons_of_mem _ (ih used)
  -- A name outside of binders is a use itself, or else the use comes behind it.
  | case6 start binding other rest noBinder ih =>
    rcases List.mem_cons.mp used with same | later
    · obtain ⟨rfl, rfl⟩ := Prod.mk.inj same
      exact List.mem_cons_self
    · exact List.mem_cons_of_mem _ (ih later)
  | case7 start binding token rest _ _ _ _ ih => exact List.mem_cons_of_mem _ (ih used)

namespace Reader

/-- The variables of a term that may have been read, below the given binders. -/
def variablesOf (bound : List Name) (last : Option Term) : List (Name × Bool) :=
  last.elim [] (Term.occurrences bound)

/-- The variables that have been read before the open constructs. -/
def Frame.occurrences : List Frame → List (Name × Bool)
  | [] => []
  | .group before :: frames | .abstraction before _ :: frames =>
    Frame.occurrences frames ++ variablesOf (boundNames frames) before

/-- The variables that have been read. -/
def State.occurrences : State → List (Name × Bool)
  | .inExpression frames last | .inBinders frames last _ =>
    Frame.occurrences frames ++ variablesOf (boundNames frames) last

/-- Whether the names that are read next are binders. -/
def State.binding : State → Bool
  | .inExpression _ _ => false
  | .inBinders _ _ _ => true

/-- The variable that a token adds to those that have been read. -/
def State.use? (position : Nat) : State → Token → Option Use
  | .inExpression frames _, .ident name =>
    some ⟨position, name, !(boundNames frames).contains name⟩
  | _, _ => none

/-- The variables of an argument come behind those of the term it is applied to. -/
theorem occurrences_extend (bound : List Name) (before : Option Term) (next : Term) :
    (extend before next).occurrences bound =
      variablesOf bound before ++ next.occurrences bound := by
  cases before <;> rfl

/-- The names of an abstraction bind in its body. -/
theorem occurrences_closeBinders (binders bound : List Name) (body : Term) :
    (closeBinders binders body).occurrences bound = body.occurrences (binders ++ bound) := by
  -- The abstraction is built from the innermost name outwards, as the names are listed.
  induction binders generalizing body with
  | nil => rfl
  | cons binder binders ih => exact ih (.lam binder body)

/-- Closing a group keeps the variables that have been read. -/
theorem occurrences_closeGroup? {frames left : List Frame} {body term : Term}
    (closed : closeGroup? frames body = some (left, term)) :
    Frame.occurrences left ++ term.occurrences (boundNames left) =
      Frame.occurrences frames ++ body.occurrences (boundNames frames) := by
  -- What an open frame binds is what the abstraction it becomes binds.
  fun_induction closeGroup? frames body with
  -- Without an open group none is closed.
  | case1 => contradiction
  -- The innermost frame is the group, and what came before it is applied to its term.
  | case2 before frames body =>
    obtain ⟨rfl, rfl⟩ : frames = left ∧ extend before body = term := by simpa using closed
    rw [occurrences_extend, Frame.occurrences, List.append_assoc]
    rfl
  -- An abstraction inside the group is closed first.
  | case3 before binders frames body ih =>
    rw [ih closed, occurrences_extend, occurrences_closeBinders, Frame.occurrences,
      List.append_assoc]
    rfl

/-- The whole term has the variables that have been read, in their order. -/
theorem occurrences_closeAll? {frames : List Frame} {body term : Term}
    (closed : closeAll? frames body = some term) :
    term.occurrences [] = Frame.occurrences frames ++ body.occurrences (boundNames frames) := by
  -- The open abstractions are closed from the innermost one outwards.
  fun_induction closeAll? frames body with
  | case1 body =>
    obtain rfl : body = term := by simpa using closed
    rfl
  | case2 => contradiction
  | case3 before binders frames body ih =>
    rw [ih closed, occurrences_extend, occurrences_closeBinders, Frame.occurrences,
      List.append_assoc]
    rfl

/-- A token adds its variable to those that have been read, and the tokens behind it add theirs. -/
theorem advance_use? {position : Nat} {state next : State} {token : Token}
    (advanced : advance (fun name => some (.var name)) position state token = .ok next) :
    next.occurrences =
        state.occurrences ++
          (state.use? position token).toList.map (fun use => (use.name, use.free)) ∧
      ∀ rest, Token.variableNames position state.binding (token :: rest) =
        (state.use? position token).toList.map (fun use => (use.position, use.name)) ++
          Token.variableNames (position + 1) next.binding rest := by
  -- Only a name outside of binders adds a variable; closing a group keeps the order of those read.
  revert advanced
  fun_cases advance (fun name => some (.var name)) position state token with
  -- A blank changes neither the state nor the names that are left.
  | case1 state =>
    rintro ⟨⟩
    cases state <;> simp [State.use?, Token.variableNames]
  -- Behind a lambda sign come binders, and behind a parenthesis a term of its own.
  | case2 frames head =>
    rintro ⟨⟩
    simp [State.use?, State.occurrences, State.binding, Token.variableNames]
  | case3 frames head =>
    rintro ⟨⟩
    simp [State.use?, State.occurrences, State.binding, Token.variableNames, Frame.occurrences,
      variablesOf]
  -- A name of an expression is a use, and plain reading makes a variable of it.
  | case4 frames head name term found =>
    rintro ⟨⟩
    obtain rfl : Term.var name = term := by simpa [occurrence_plain] using found
    simp [State.use?, State.occurrences, State.binding, Token.variableNames, variablesOf,
      occurrences_extend, Term.occurrences]
  -- A closed group is read in the place where it was opened.
  | case6 frames head left term closed =>
    rintro ⟨⟩
    have same := occurrences_closeGroup? closed
    simpa [State.use?, State.occurrences, State.binding, Token.variableNames, variablesOf]
      using same
  -- A binder is no use, and the dot behind binders opens the body.
  | case9 frames before binders name =>
    rintro ⟨⟩
    simp [State.use?, State.occurrences, State.binding, Token.variableNames]
  | case11 frames before binders nonempty =>
    rintro ⟨⟩
    simp [State.use?, State.occurrences, State.binding, Token.variableNames, Frame.occurrences,
      variablesOf]
  -- No other token is accepted.
  | _ =>
    intro refused
    contradiction

/-- The end of the text completes a term of the variables that have been read. -/
theorem finish_occurrences {position : Nat} {state : State} {term : Term}
    (finished : finish position state = .ok term) : term.occurrences [] = state.occurrences := by
  -- Only an expression without an open group is complete.
  revert finished
  fun_cases finish position state with
  | case2 frames head whole closed =>
    rintro ⟨⟩
    exact occurrences_closeAll? closed
  | _ =>
    intro refused
    contradiction

end Reader

end NamedLambda
