import Mathlib.Control.Monad.Basic
import NamedLambda.Proofs.Source.Parsing
import NamedLambda.Proofs.Source.Scoping

/-! A text is refused at the first token behind which no tokens make it a term. -/

namespace NamedLambda

/-- The token that an error is about and its position; an expression is missed at the end
of the text. -/
def ReadError.misplaced? : ReadError → Option (Token × Nat)
  | unexpectedToken _ found position => some (found, position)
  | emptyExpression position => some (.eof, position)
  | invalidCharacter _ | unboundMacro _ _ => none

namespace Reader

/-- The tokens are read as a term in which every name is a variable. -/
def Accepts (tokens : List Token) : Prop :=
  ∃ term, read (fun name => some (.var name)) 0 start tokens = .ok term

/-- A group that is closed leaves fewer constructs open. -/
theorem length_lt_of_closeGroup? {frames left : List Frame} {body term : Term}
    (closed : closeGroup? frames body = some (left, term)) : left.length < frames.length := by
  -- The innermost group and all that is open inside it are closed.
  fun_induction closeGroup? frames body with
  | case1 => contradiction
  | case2 before frames body =>
    obtain ⟨rfl, -⟩ : frames = left ∧ extend before body = term := by simpa using closed
    exact Nat.lt_succ_self _
  | case3 before binders frames body ih => exact Nat.lt_succ_of_lt (ih closed)

/-- Where no group is open the end of the text completes a term. -/
theorem exists_closeAll? {frames : List Frame} {body : Term}
    (none : closeGroup? frames body = none) : ∃ term, closeAll? frames body = some term := by
  -- Only abstractions are open, and these end with the text.
  fun_induction closeGroup? frames body with
  | case1 body => exact ⟨body, rfl⟩
  | case2 => contradiction
  | case3 before binders frames body ih => exact ih none

/-- The reader can go on from a state to the end of some text. -/
def Completable (state : State) : Prop :=
  ∀ position, ∃ inside : List Token, (∀ token ∈ inside, token.Inside) ∧
    ∃ term, read (fun name => some (.var name)) position state (inside ++ [.eof]) = .ok term

/-- A state is completable if a token leads to one that is. -/
theorem Completable.of_advance {state next : State} (completable : Completable next)
    (token : Token) (inside : token.Inside)
    (advances : ∀ position,
      advance (fun name => some (.var name)) position state token = .ok next) :
    Completable state := by
  -- The tokens that complete the next state are put behind the token.
  intro position
  obtain ⟨later, each, term, found⟩ := completable (position + 1)
  refine ⟨token :: later, List.forall_mem_cons.mpr ⟨inside, each⟩, term, ?_⟩
  have more : token ≠ .eof := by
    rintro rfl
    exact inside
  rw [List.cons_append, read_of_advance more (advances position), found]

/-- Closing parentheses complete an expression. -/
theorem completable_some (frames : List Frame) (head : Term) :
    Completable (.inExpression frames (some head)) := by
  -- Each of them leaves fewer constructs open.
  induction size : frames.length using Nat.strongRecOn generalizing frames head with
  | ind length ih =>
    cases closed : closeGroup? frames head with
    -- Without an open group the text can end here.
    | none =>
      obtain ⟨term, whole⟩ := exists_closeAll? closed
      exact fun position => ⟨[], by simp, term, by simp [read, finish, whole]⟩
    -- A parenthesis closes the innermost group, with an expression read as before.
    | some result =>
      obtain ⟨left, term⟩ := result
      have fewer := length_lt_of_closeGroup? closed
      refine (ih left.length (size ▸ fewer) left term rfl).of_advance .closeParen trivial
        (fun position => ?_)
      rw [advance, closed]

/-- There is a name that can be written. -/
theorem inside_x : (Token.ident "x").Inside := by
  -- It is a letter.
  rw [Token.Inside]
  decide

/-- A name begins whatever is missing of an expression. -/
theorem completable_none (frames : List Frame) : Completable (.inExpression frames none) := by
  -- Behind it there is an expression to complete.
  refine (completable_some frames (.var "x")).of_advance (.ident "x") inside_x
    (fun position => ?_)
  rw [advance, occurrence_plain]
  rfl

/-- Every state can be completed. -/
theorem completable (state : State) : Completable state := by
  cases state with
  | inExpression frames head =>
    -- An expression is completed by parentheses, if need be behind a name.
    cases head with
    | none => exact completable_none frames
    | some head => exact completable_some frames head
  | inBinders frames before binders =>
    -- A dot opens the body, behind a name that is bound.
    have dot (binder : Name) (others : List Name) :
        Completable (.inBinders frames before (binder :: others)) :=
      (completable_none _).of_advance .dot trivial (fun _ => rfl)
    cases binders with
    | nil => exact (dot "x" []).of_advance (.ident "x") inside_x (fun _ => rfl)
    | cons binder others => exact dot binder others

/-- Plain reading refuses a token for what it is and where it stands. -/
theorem misplaced?_of_advance {position : Nat} {state : State} {token : Token} {error : ReadError}
    (refused : advance (fun name => some (.var name)) position state token = .error error) :
    error.misplaced? = some (token, position) := by
  -- No name is without a meaning, so every error is about a token that is not expected.
  revert refused
  fun_cases advance (fun name => some (.var name)) position state token with
  | case5 frames head name none => simp [occurrence_plain] at none
  | _ => rintro ⟨⟩ <;> rfl

/-- The end of a text is refused as such. -/
theorem misplaced?_of_finish {position : Nat} {state : State} {error : ReadError}
    (refused : finish position state = .error error) :
    error.misplaced? = some (.eof, position) := by
  -- Every clause that fails says that the end of the text was found.
  revert refused
  fun_cases finish position state with
  | _ => rintro ⟨⟩ <;> rfl

/-- From a state a reader goes through tokens to one that it refuses. -/
structure Refuses (position : Nat) (state : State) (before : List Token) (found : Token)
    (error : ReadError) : Prop where
  /-- The tokens before can stand before the end of a text. -/
  inside : ∀ token ∈ before, token.Inside
  /-- Behind them the reader can still come to a term. -/
  completed : ∃ after : List Token, (∀ token ∈ after, token.Inside) ∧
    ∃ term, read (fun name => some (.var name)) position state
      (before ++ (after ++ [.eof])) = .ok term
  /-- Behind the refused token it cannot, unless that was the end. -/
  refused : found ≠ .eof → ∀ rest,
    read (fun name => some (.var name)) position state (before ++ found :: rest) = .error error
  /-- The error is about the refused token. -/
  placed : error.misplaced? = some (found, position + before.length)

/-- What is refused at once is refused behind nothing. -/
theorem Refuses.here {position : Nat} {state : State} {found : Token} {error : ReadError}
    (refused : found ≠ .eof →
      advance (fun name => some (.var name)) position state found = .error error)
    (placed : error.misplaced? = some (found, position)) :
    Refuses position state [] found error where
  inside := by simp
  completed := completable state position
  refused more rest := read_of_refused more (refused more) rest
  placed := placed

/-- What is refused behind the next state is refused behind the token that leads there. -/
theorem Refuses.cons {position : Nat} {state next : State} {token found : Token}
    {before : List Token} {error : ReadError}
    (refuses : Refuses (position + 1) next before found error) (inside : token.Inside)
    (advanced : advance (fun name => some (.var name)) position state token = .ok next) :
    Refuses position state (token :: before) found error := by
  have more : token ≠ .eof := by
    rintro rfl
    exact inside
  obtain ⟨each, ⟨after, allInside, term, read⟩, refused, placed⟩ := refuses
  -- Whatever comes behind, the token is read first and leads to the next state.
  refine ⟨List.forall_mem_cons.mpr ⟨inside, each⟩, ⟨after, allInside, term, ?_⟩, ?_, ?_⟩
  · rw [List.cons_append, read_of_advance more advanced, read]
  · intro last rest
    rw [List.cons_append, read_of_advance more advanced, refused last rest]
  · rw [placed, List.length_cons, Nat.add_right_comm, Nat.add_assoc]

/-- Tokens that are not read have a first one that is refused. -/
theorem exists_refuses {position : Nat} {state : State} {tokens : List Token} {error : ReadError}
    (ended : Token.Ended tokens)
    (failed : read (fun name => some (.var name)) position state tokens = .error error) :
    ∃ before found rest, tokens = before ++ found :: rest ∧
      Refuses position state before found error := by
  -- Each token is refused or leads to a state from which a later one is.
  fun_induction read (fun name => some (.var name)) position state tokens with
  -- Tokens that end with the end of the text are not empty.
  | case1 position state =>
    obtain ⟨inside, together, -⟩ := ended
    simp at together
  -- At the end it is the end that is refused.
  | case2 position state rest =>
    exact ⟨[], .eof, rest, rfl, .here (absurd rfl) (misplaced?_of_finish failed)⟩
  | case3 position state token rest more next advanced ih =>
    obtain ⟨inside, later⟩ := ended.uncons more
    obtain ⟨before, found, remains, same, refuses⟩ := ih later failed
    exact ⟨token :: before, found, remains, by rw [same, List.cons_append],
      refuses.cons inside advanced⟩
  -- A token that the state refuses is the first one refused.
  | case4 position state token rest more other advanced =>
    obtain rfl := Except.error.inj failed
    exact ⟨[], token, rest, rfl, .here (fun _ => advanced) (misplaced?_of_advance advanced)⟩

end Reader

open Reader

/-- A text that is cut into tokens but not read is refused at the first token behind which nothing
makes it a term: the tokens before it can be continued to those of a term, and with it they cannot,
unless it is the end of the text. -/
theorem readPlainTerm_refused {source : String} {tokens : List Token} {error : ReadError}
    (cut : tokensOf source = .ok tokens) (failed : readPlainTerm source = .error error) :
    ∃ found position, error.misplaced? = some (found, position) ∧
      tokens[position]? = some found ∧
      (∃ rest, Token.Ended (tokens.take position ++ rest) ∧
        Accepts (tokens.take position ++ rest)) ∧
      (found ≠ .eof → ∀ rest, ¬Accepts (tokens.take (position + 1) ++ rest)) := by
  -- The error is that of reading the tokens from the start.
  have refused : read (fun name => some (.var name)) 0 start tokens = .error error := by
    simpa [readPlainTerm, readTerm, cut, bind, Except.bind] using failed
  obtain ⟨before, found, remains, rfl, refuses⟩ := exists_refuses (tokensOf_ended cut) refused
  obtain ⟨inside, ⟨after, allInside, term, completed⟩, stops, placed⟩ := refuses
  rw [Nat.zero_add] at placed
  refine ⟨found, before.length, placed, by simp, ?_, ?_⟩
  · -- The tokens before the refused one are continued as its description says.
    rw [List.take_left]
    refine ⟨after ++ [.eof], ⟨before ++ after, by simp, ?_⟩, term, completed⟩
    exact List.forall_mem_append.mpr ⟨inside, allInside⟩
  · rintro more rest ⟨other, accepted⟩
    -- Together with the refused token they are continued to nothing.
    have taken : (before ++ found :: remains).take (before.length + 1) = before ++ [found] := by
      rw [List.append_cons, List.take_left' (by simp)]
    rw [taken, List.append_assoc, List.singleton_append, stops more rest] at accepted
    contradiction

/-- A group that ends before the dot of an abstraction is refused there, blanks counted; what comes
before could still become a term. -/
theorem readPlainTerm_refused_dot :
    readPlainTerm "(λx y) z" = .error (.unexpectedToken .dot .closeParen 5) ∧
      (∃ rest, Accepts ([.openParen, .lambda, .ident "x", .blank, .ident "y"] ++ rest)) ∧
      ∀ rest,
        ¬Accepts ([.openParen, .lambda, .ident "x", .blank, .ident "y", .closeParen] ++ rest) := by
  have cut : tokensOf "(λx y) z" = .ok [.openParen, .lambda, .ident "x", .blank, .ident "y",
      .closeParen, .blank, .ident "z", .eof] := by decide +kernel
  have failed : readPlainTerm "(λx y) z" =
      .error (.unexpectedToken .dot .closeParen 5) := by decide +kernel
  -- The error names the token and the position.
  obtain ⟨found, position, misplaced, -, ⟨rest, -, accepted⟩, stops⟩ :=
    readPlainTerm_refused cut failed
  obtain ⟨rfl, rfl⟩ : .closeParen = found ∧ 5 = position := by
    simpa [ReadError.misplaced?] using misplaced
  exact ⟨failed, ⟨rest, accepted⟩, stops (by decide)⟩

end NamedLambda
