import NamedLambda.Proofs.Source.Uses

/-! Reading with macros is plain reading, with the free macro names resolved afterwards. -/

namespace NamedLambda

/-- Whether a use refers to a macro without a meaning. -/
def Use.misses (meaning : Name → Option Term) (use : Use) : Bool :=
  use.free && isMacroName use.name && (meaning use.name).isNone

namespace Reader

/-- What has been read of a term is resolved, if anything has been read. -/
def Resolves (meaning : Name → Option Term) (bound : List Name) (plain resolved : Option Term) :
    Prop :=
  Option.Rel (fun term other => term.scope? meaning bound = some other) plain resolved

/-- Open constructs with the terms before them resolved. -/
inductive Frame.Tracks (meaning : Name → Option Term) : List Frame → List Frame → Prop where
  /-- Nothing is open. -/
  | nil : Frame.Tracks meaning [] []
  /-- A group is open in both. -/
  | group {frames others : List Frame} {before other : Option Term}
    (tracks : Frame.Tracks meaning frames others)
    (resolves : Resolves meaning (boundNames frames) before other) :
    Frame.Tracks meaning (.group before :: frames) (.group other :: others)
  /-- An abstraction over the same names is open in both. -/
  | abstraction {frames others : List Frame} {before other : Option Term}
    (tracks : Frame.Tracks meaning frames others)
    (resolves : Resolves meaning (boundNames frames) before other) (binders : List Name) :
    Frame.Tracks meaning (.abstraction before binders :: frames)
      (.abstraction other binders :: others)

/-- A state of plain reading, and the state that reading with macros is in by then. -/
inductive State.Tracks (meaning : Name → Option Term) : State → State → Prop where
  /-- Both are in an expression. -/
  | inExpression {frames others : List Frame} {head other : Option Term}
    (tracks : Frame.Tracks meaning frames others)
    (resolves : Resolves meaning (boundNames frames) head other) :
    State.Tracks meaning (.inExpression frames head) (.inExpression others other)
  /-- Both are at the names of an abstraction. -/
  | inBinders {frames others : List Frame} {before other : Option Term}
    (tracks : Frame.Tracks meaning frames others)
    (resolves : Resolves meaning (boundNames frames) before other) (binders : List Name) :
    State.Tracks meaning (.inBinders frames before binders) (.inBinders others other binders)

variable {meaning : Name → Option Term}

/-- Constructs that are open in both readings bind the same names. -/
theorem Frame.Tracks.boundNames_eq {frames others : List Frame}
    (tracks : Frame.Tracks meaning frames others) : boundNames others = boundNames frames := by
  -- Only the terms before the constructs may differ.
  induction tracks with
  | nil => rfl
  | group tracks resolves ih => exact ih
  | abstraction tracks resolves binders ih => exact congrArg (binders ++ ·) ih

/-- Resolving what comes next resolves the application to it of what came before. -/
theorem Resolves.extend {bound : List Name} {before other : Option Term} {next resolved : Term}
    (resolves : Resolves meaning bound before other)
    (inNext : next.scope? meaning bound = some resolved) :
    (extend before next).scope? meaning bound = some (extend other resolved) := by
  -- There is something before in both readings or in none.
  cases resolves with
  | none => exact inNext
  | some inFunc => simp [Reader.extend, Term.scope?, inFunc, inNext]

/-- Resolving a body below the names of an abstraction resolves the abstraction. -/
theorem scope?_closeBinders {binders bound : List Name} {body resolved : Term}
    (inBody : body.scope? meaning (binders ++ bound) = some resolved) :
    (closeBinders binders body).scope? meaning bound = some (closeBinders binders resolved) := by
  -- The innermost name is bound first, and its abstraction is the body of the next.
  induction binders generalizing body resolved with
  | nil => exact inBody
  | cons binder binders ih =>
    refine @ih (.lam binder body) (.lam binder resolved) ?_
    rw [Term.scope?, ← List.cons_append, inBody, Option.map_some]

/-- A group that is closed in one reading is closed in the other. -/
theorem closeGroup?_tracks {frames others : List Frame} {body resolved : Term}
    (tracks : Frame.Tracks meaning frames others)
    (inBody : body.scope? meaning (boundNames frames) = some resolved) :
    (closeGroup? frames body = none ∧ closeGroup? others resolved = none) ∨
      ∃ left term otherLeft other, closeGroup? frames body = some (left, term) ∧
        closeGroup? others resolved = some (otherLeft, other) ∧
        Frame.Tracks meaning left otherLeft ∧
        term.scope? meaning (boundNames left) = some other := by
  -- Abstractions that are open inside the group end with it, over the same names in both.
  induction tracks generalizing body resolved with
  -- Without an open group neither reading closes one.
  | nil => exact .inl ⟨rfl, rfl⟩
  | @group frames others before other tracks resolves ih =>
    exact .inr ⟨frames, _, others, _, rfl, rfl, tracks, resolves.extend inBody⟩
  | abstraction tracks resolves binders ih =>
    exact ih (resolves.extend (scope?_closeBinders inBody))

/-- The group that plain reading closes is closed in reading with macros too, and its
term is resolved. -/
theorem closeGroup?_tracks_of_some {frames others left : List Frame} {body resolved term : Term}
    (tracks : Frame.Tracks meaning frames others)
    (inBody : body.scope? meaning (boundNames frames) = some resolved)
    (closed : closeGroup? frames body = some (left, term)) :
    ∃ otherLeft other, closeGroup? others resolved = some (otherLeft, other) ∧
      Frame.Tracks meaning left otherLeft ∧ term.scope? meaning (boundNames left) = some other := by
  -- Both close a group or neither does, and here plain reading does.
  rcases closeGroup?_tracks tracks inBody with
    ⟨none, -⟩ | ⟨left', term', otherLeft, other, same, otherClosed, leftTracks, inTerm⟩
  · rw [none] at closed
    contradiction
  · obtain ⟨rfl, rfl⟩ : left' = left ∧ term' = term := by simpa [same] using closed
    exact ⟨otherLeft, other, otherClosed, leftTracks, inTerm⟩

/-- The end of the text completes the same term in both readings, with the macro names resolved. -/
theorem closeAll?_tracks {frames others : List Frame} {body resolved : Term}
    (tracks : Frame.Tracks meaning frames others)
    (inBody : body.scope? meaning (boundNames frames) = some resolved) :
    (closeAll? frames body = none ∧ closeAll? others resolved = none) ∨
      ∃ term other, closeAll? frames body = some term ∧ closeAll? others resolved = some other ∧
        term.scope? meaning [] = some other := by
  induction tracks generalizing body resolved with
  | nil => exact .inr ⟨body, resolved, rfl, rfl, inBody⟩
  -- A group that is still open is completed in neither reading.
  | group tracks resolves ih => exact .inl ⟨rfl, rfl⟩
  | abstraction tracks resolves binders ih =>
    exact ih (resolves.extend (scope?_closeBinders inBody))

/-- A name stands for what resolving makes of its variable below the names bound by then. -/
theorem Frame.Tracks.occurrence_eq {frames others : List Frame}
    (tracks : Frame.Tracks meaning frames others) (name : Name) :
    occurrence meaning others name = (Term.var name).scope? meaning (boundNames frames) := by
  -- Reading and resolving ask for a meaning under the same condition.
  rw [occurrence, tracks.boundNames_eq, Term.scope?]

/-- A name is resolved unless it is a free macro name without a meaning. -/
theorem Frame.Tracks.occurrence_isSome {frames others : List Frame}
    (tracks : Frame.Tracks meaning frames others) (name : Name) (position : Nat) :
    (occurrence meaning others name).isSome =
      !(Use.mk position name (!(boundNames frames).contains name)).misses meaning := by
  -- Whether the name is bound, is a macro name and has a meaning is all that is asked.
  rw [occurrence, tracks.boundNames_eq]
  unfold Use.misses
  cases isMacroName name <;> cases (boundNames frames).contains name <;> simp

section

variable {frames others : List Frame} {head other : Option Term} {position : Nat}

/-- A name that does not miss its macro becomes in reading with macros what its variable will be
resolved to. -/
theorem Frame.Tracks.advance_name (tracks : Frame.Tracks meaning frames others)
    (resolves : Resolves meaning (boundNames frames) head other) {name : Name}
    (known : (Use.mk position name (!(boundNames frames).contains name)).misses meaning = false) :
    ∃ reached, advance meaning position (.inExpression others other) (.ident name) = .ok reached ∧
      State.Tracks meaning (.inExpression frames (some (extend head (.var name)))) reached := by
  have isSome := tracks.occurrence_isSome name position
  rw [known] at isSome
  obtain ⟨resolved, found⟩ := Option.isSome_iff_exists.mp isSome
  -- What the name stands for is read off the term below the names that are bound here.
  have inName := found
  rw [tracks.occurrence_eq] at inName
  refine ⟨_, ?_, .inExpression tracks (.some (resolves.extend inName))⟩
  simp only [advance, found]

/-- A parenthesis that closes a group in plain reading closes it in reading with macros. -/
theorem Frame.Tracks.advance_closeParen (tracks : Frame.Tracks meaning frames others)
    {last term : Term} {left : List Frame}
    (resolves : Resolves meaning (boundNames frames) (some last) other)
    (closed : closeGroup? frames last = some (left, term)) :
    ∃ reached, advance meaning position (.inExpression others other) .closeParen = .ok reached ∧
      State.Tracks meaning (.inExpression left (some term)) reached := by
  cases resolves with
  | some inLast =>
    -- What is left open and the term of the group are tracked as well.
    obtain ⟨otherLeft, otherTerm, otherClosed, leftTracks, inTerm⟩ :=
      closeGroup?_tracks_of_some tracks inLast closed
    refine ⟨_, ?_, .inExpression leftTracks (.some inTerm)⟩
    simp only [advance, otherClosed]

end

/-- Where plain reading goes on and no use misses a macro, reading with macros goes on as well. -/
theorem advance_tracks {position : Nat} {plain next linked : State} {token : Token}
    (tracks : State.Tracks meaning plain linked)
    (advanced : advance (fun name => some (.var name)) position plain token = .ok next)
    (found : ∀ use ∈ plain.use? position token, use.misses meaning = false) :
    ∃ reached, advance meaning position linked token = .ok reached ∧
      State.Tracks meaning next reached := by
  -- Apart from names no token asks for a meaning, so both readings take the same way.
  revert advanced
  fun_cases advance (fun name => some (.var name)) position plain token with
  | case1 state =>
    -- A blank changes nothing.
    rintro ⟨⟩
    exact ⟨linked, by rw [advance], tracks⟩
  | case2 frames head =>
    -- A lambda sign and a parenthesis open the same construct in both.
    rintro ⟨⟩
    cases tracks with
    | inExpression tracks resolves => exact ⟨_, rfl, .inBinders tracks resolves []⟩
  | case3 frames head =>
    rintro ⟨⟩
    cases tracks with
    | inExpression tracks resolves => exact ⟨_, rfl, .inExpression (.group tracks resolves) .none⟩
  | case4 frames head name term meant =>
    -- Plain reading makes a variable of a name, which is a use.
    rintro ⟨⟩
    obtain rfl : Term.var name = term := by simpa [occurrence_plain] using meant
    cases tracks with
    | inExpression tracks resolves => exact tracks.advance_name resolves (found _ rfl)
  | case6 frames head left term closed =>
    rintro ⟨⟩
    cases tracks with
    | inExpression tracks resolves => exact tracks.advance_closeParen resolves closed
  | case9 frames before binders name =>
    -- Binders are collected and bound alike.
    rintro ⟨⟩
    cases tracks with
    | inBinders tracks resolves => exact ⟨_, rfl, .inBinders tracks resolves (name :: binders)⟩
  | case11 frames before binders nonempty =>
    rintro ⟨⟩
    cases tracks with
    | inBinders tracks resolves =>
      obtain ⟨binder, rest, rfl⟩ := List.exists_cons_of_ne_nil nonempty
      exact ⟨_, rfl, .inExpression (.abstraction tracks resolves (binder :: rest)) .none⟩
  | _ =>
    -- Elsewhere plain reading stops.
    intro refused
    contradiction

/-- A use that misses a macro is refused where its token stands. -/
theorem advance_misses {position : Nat} {plain linked : State} {token : Token} {use : Use}
    (tracks : State.Tracks meaning plain linked) (found : plain.use? position token = some use)
    (misses : use.misses meaning) :
    advance meaning position linked token = .error (.unboundMacro use.name use.position) := by
  -- Only a name in an expression is a use.
  cases tracks with
  | inBinders tracks resolves binders => simp [State.use?] at found
  | inExpression tracks resolves =>
    cases token with
    | ident name =>
      -- A name that misses its macro stands for nothing.
      obtain rfl := Option.some.inj found
      have unknown := tracks.occurrence_isSome name position
      rw [misses, Bool.not_true, Option.isSome_eq_false_iff, Option.isNone_iff_eq_none] at unknown
      simp only [advance, unknown]
    | _ => contradiction

/-- Where plain reading goes on, reading with macros goes on unless the token misses a macro. -/
theorem advance_linked {position : Nat} {plain next linked : State} {token : Token}
    (tracks : State.Tracks meaning plain linked)
    (advanced : advance (fun name => some (.var name)) position plain token = .ok next) :
    (∃ reached, advance meaning position linked token = .ok reached ∧
        State.Tracks meaning next reached ∧
        ∀ use ∈ plain.use? position token, use.misses meaning = false) ∨
      ∃ use, plain.use? position token = some use ∧ use.misses meaning ∧
        advance meaning position linked token = .error (.unboundMacro use.name use.position) := by
  -- The token misses a macro or it does not, and plain reading goes on either way.
  by_cases known : ∀ use ∈ plain.use? position token, use.misses meaning = false
  · obtain ⟨reached, linkedAdvanced, nextTracks⟩ := advance_tracks tracks advanced known
    exact .inl ⟨reached, linkedAdvanced, nextTracks, known⟩
  · obtain ⟨use, used, unknown⟩ : ∃ use, plain.use? position token = some use ∧
        use.misses meaning := by simpa using known
    exact .inr ⟨use, used, unknown, advance_misses tracks used unknown⟩

/-- What plain reading refuses is refused in reading with macros as well. -/
theorem advance_refuses {position : Nat} {plain linked : State} {token : Token} {error : ReadError}
    (tracks : State.Tracks meaning plain linked)
    (refused : advance (fun name => some (.var name)) position plain token = .error error) :
    ∃ other, advance meaning position linked token = .error other := by
  -- Plain reading refuses no name where an expression goes on, and other tokens for their kind.
  revert refused
  fun_cases advance (fun name => some (.var name)) position plain token with
  | case5 frames head name none => simp [occurrence_plain] at none
  -- A parenthesis that closes no group in plain reading closes none in the other.
  | case7 frames head none =>
    rintro -
    cases tracks with
    | inExpression tracks resolves =>
      cases resolves with
      | some inHead =>
        rcases closeGroup?_tracks tracks inHead with ⟨-, otherNone⟩ | ⟨_, _, _, _, closed, -⟩
        · simp [advance, otherNone]
        · simp [none] at closed
  -- Any other token that is refused is refused for its kind.
  | case8 =>
    rintro -
    cases tracks with
    | inExpression tracks resolves => cases resolves <;> cases token <;> simp_all [advance]
  | case10 =>
    rintro -
    cases tracks with
    | inBinders tracks resolves => cases token <;> simp_all [advance]
  | case12 frames before binders =>
    rintro -
    cases tracks with
    | inBinders tracks resolves => cases binders <;> cases token <;> simp_all [advance]
  | _ =>
    intro refused
    contradiction

/-- What the uses of names in a text mean for reading it with macros. -/
structure Decides (meaning : Name → Option Term) (uses : List Use) (term : Term)
    (outcome : Except ReadError Term) : Prop where
  /-- Without a use that misses a macro the term is read, with its macro names resolved. -/
  resolves : (∀ use ∈ uses, use.misses meaning = false) →
    ∃ resolved, term.scope? meaning [] = some resolved ∧ outcome = .ok resolved
  /-- The first use that misses a macro is refused. -/
  misses : ∀ use, uses.find? (Use.misses meaning) = some use →
    outcome = .error (.unboundMacro use.name use.position)

/-- A use in front that does not miss its macro decides nothing. -/
theorem Decides.resolved {use : Use} {uses : List Use} {term : Term}
    {outcome : Except ReadError Term} (decides : Decides meaning uses term outcome)
    (known : use.misses meaning = false) : Decides meaning (use :: uses) term outcome := by
  constructor
  · exact fun all => decides.resolves (List.forall_mem_cons.mp all).2
  · intro other first
    -- The search for a use that misses passes over it.
    rw [List.find?_cons_of_neg (by simp [known])] at first
    exact decides.misses other first

/-- A use in front that misses its macro decides everything. -/
theorem Decides.missed {use : Use} {term : Term} {outcome : Except ReadError Term}
    (unknown : use.misses meaning)
    (refused : outcome = .error (.unboundMacro use.name use.position)) (uses : List Use) :
    Decides meaning (use :: uses) term outcome := by
  constructor
  · -- With it not all uses are resolved, and it is the first that is not.
    intro all
    rw [(List.forall_mem_cons.mp all).1] at unknown
    contradiction
  · intro other first
    rw [List.find?_cons_of_pos unknown] at first
    obtain rfl := Option.some.inj first
    exact refused

/-- What the end of the text completes has its macro names resolved. -/
theorem finish_decides {position : Nat} {plain linked : State} {term : Term}
    (tracks : State.Tracks meaning plain linked) (finished : finish position plain = .ok term) :
    Decides meaning [] term (finish position linked) := by
  refine ⟨fun _ => ?_, by simp⟩
  -- Without a use all that counts is that the open abstractions end in both readings.
  revert finished
  fun_cases finish position plain with
  | case2 frames head whole closed =>
    rintro ⟨⟩
    cases tracks with
    | inExpression tracks resolves =>
      cases resolves with
      | some inHead =>
        rcases closeAll?_tracks tracks inHead with
          ⟨none, -⟩ | ⟨_, other, same, otherClosed, inWhole⟩
        · simp [none] at closed
        · obtain rfl := Option.some.inj (same.symm.trans closed)
          exact ⟨other, inWhole, by simp only [finish, otherClosed]⟩
  | _ =>
    intro refused
    contradiction

/-- Where the end of the text completes nothing in plain reading, it completes
nothing with macros. -/
theorem finish_refuses {position : Nat} {plain linked : State} {error : ReadError}
    (tracks : State.Tracks meaning plain linked) (refused : finish position plain = .error error) :
    ∃ other, finish position linked = .error other := by
  revert refused
  cases tracks with
  -- Binders without a body are never complete.
  | inBinders tracks resolves binders => cases binders <;> exact fun _ => ⟨_, rfl⟩
  | inExpression tracks resolves =>
    cases resolves with
    | none => exact fun _ => ⟨_, rfl⟩
    -- A group that is open in one reading is open in the other.
    | some inHead =>
      rcases closeAll?_tracks tracks inHead with ⟨-, otherNone⟩ | ⟨_, _, closed, -⟩
      · simp [finish, otherNone]
      · simp [finish, closed]

section

variable {position : Nat} {state next : State} {token : Token} {rest : List Token}

/-- A token that is accepted leaves the rest to be read from the next state. -/
theorem read_of_advance (more : token ≠ .eof)
    (advanced : advance meaning position state token = .ok next) :
    read meaning position state (token :: rest) = read meaning (position + 1) next rest := by
  -- The end of the text is the only token that is not put to the state.
  rw [read, advanced]
  exact more

/-- A token that is refused ends the reading with its error. -/
theorem read_of_refused {error : ReadError} (more : token ≠ .eof)
    (refused : advance meaning position state token = .error error) (rest : List Token) :
    read meaning position state (token :: rest) = .error error := by
  -- The rest is not looked at.
  rw [read, refused]
  exact more

end

/-- There is one use for each variable of the term that is read, and the uses decide what becomes of
reading it with macros. -/
theorem read_tracks {position : Nat} {plain : State} {tokens : List Token} {term : Term}
    (found : read (fun name => some (.var name)) position plain tokens = .ok term) :
    ∃ uses : List Use,
      term.occurrences [] = plain.occurrences ++ uses.map (fun use => (use.name, use.free)) ∧
      Token.variableNames position plain.binding tokens =
        uses.map (fun use => (use.position, use.name)) ∧
      ∀ linked, State.Tracks meaning plain linked →
        Decides meaning uses term (read meaning position linked tokens) := by
  -- A token adds its use, if it is one, in front of those of the tokens behind it.
  fun_induction read (fun name => some (.var name)) position plain tokens with
  -- At the end no variable is added.
  | case1 position state =>
    refine ⟨[], by simp [finish_occurrences found], by simp [Token.variableNames], ?_⟩
    exact fun linked tracks => finish_decides tracks found
  | case2 position state rest =>
    refine ⟨[], by simp [finish_occurrences found], by simp [Token.variableNames], ?_⟩
    exact fun linked tracks => finish_decides tracks found
  | case3 position state token rest more next advanced ih =>
    obtain ⟨occurrences, positions⟩ := advance_use? advanced
    obtain ⟨uses, laterOccurrences, laterPositions, decides⟩ := ih found
    refine ⟨(state.use? position token).toList ++ uses, ?_, ?_, ?_⟩
    · rw [laterOccurrences, occurrences, List.append_assoc, List.map_append]
    · rw [positions, laterPositions, List.map_append]
    -- The other reading goes on with the token, or stops at the use that it is.
    intro linked tracks
    rcases advance_linked tracks advanced with
      ⟨reached, goesOn, nextTracks, known⟩ | ⟨use, used, missed, refused⟩
    · rw [read_of_advance more goesOn]
      have later := decides reached nextTracks
      cases used : state.use? position token with
      | none => exact later
      | some use => exact later.resolved (known use used)
    · rw [read_of_refused more refused, used]
      exact .missed missed rfl uses
  | case4 => contradiction

/-- What plain reading refuses is refused in reading with macros as well. -/
theorem read_refuses {position : Nat} {plain linked : State} {tokens : List Token}
    {error : ReadError} (tracks : State.Tracks meaning plain linked)
    (refused : read (fun name => some (.var name)) position plain tokens = .error error) :
    ∃ other, read meaning position linked tokens = .error other := by
  -- Reading with macros may be refused earlier, but it gets no further.
  fun_induction read (fun name => some (.var name)) position plain tokens
    generalizing linked with
  | case1 position state => exact finish_refuses tracks refused
  | case2 position state rest => exact finish_refuses tracks refused
  | case3 position state token rest more next advanced ih =>
    rcases advance_linked tracks advanced with
      ⟨reached, goesOn, nextTracks, -⟩ | ⟨use, -, -, stops⟩
    · rw [read_of_advance more goesOn]
      exact ih nextTracks refused
    · exact ⟨_, read_of_refused more stops rest⟩
  -- A token that plain reading refuses is refused in the other reading as well.
  | case4 position state token rest more other advanced =>
    obtain ⟨other, stops⟩ := advance_refuses tracks advanced
    exact ⟨other, read_of_refused more stops rest⟩

end Reader

/-- A text is read with macros as it is read plainly, up to the first use that misses a macro. -/
theorem readTerm_decides {meaning : Name → Option Term} {source : String} {term : Term}
    (found : readPlainTerm source = .ok term) :
    ∃ tokens, tokensOf source = .ok tokens ∧
      Token.variableNames 0 false tokens =
        (usesOf tokens term).map (fun use => (use.position, use.name)) ∧
      term.occurrences [] = (usesOf tokens term).map (fun use => (use.name, use.free)) ∧
      Reader.Decides meaning (usesOf tokens term) term (readTerm meaning source) := by
  cases cut : tokensOf source with
  -- A text that is read has been cut into tokens.
  | error error => simp [readPlainTerm, readTerm, cut, bind, Except.bind] at found
  | ok tokens =>
    simp only [readPlainTerm, readTerm, cut, bind, Except.bind] at found ⊢
    obtain ⟨uses, occurrences, positions, decides⟩ := Reader.read_tracks found
    -- Nothing has been read before the first token.
    have nothing : Reader.start.occurrences = [] := rfl
    have noBinder : Reader.start.binding = false := rfl
    rw [nothing, List.nil_append] at occurrences
    rw [noBinder] at positions
    -- The uses are told by the variables of the term and by the names among the tokens.
    have same : usesOf tokens term = uses := by
      rw [usesOf, occurrences, positions, List.zipWith_map, List.zipWith_self, List.map_id']
    refine ⟨tokens, rfl, ?_⟩
    rw [same]
    exact ⟨positions, occurrences, decides Reader.start (.inExpression .nil .none)⟩

/-- A text that is not read plainly is not read with macros either. -/
theorem readTerm_refuses {source : String} {error : ReadError}
    (refused : readPlainTerm source = .error error) (meaning : Name → Option Term) :
    ∃ other, readTerm meaning source = .error other := by
  cases cut : tokensOf source with
  -- A text that is not cut into tokens is read in neither way.
  | error error => exact ⟨error, by simp [readTerm, cut, bind, Except.bind]⟩
  | ok tokens =>
    simp only [readPlainTerm, readTerm, cut, bind, Except.bind] at refused ⊢
    exact Reader.read_refuses (.inExpression .nil .none) refused

end NamedLambda
