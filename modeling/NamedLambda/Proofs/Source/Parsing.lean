import NamedLambda.Proofs.Source.Grammar
import NamedLambda.Proofs.Source.Layout
import NamedLambda.Proofs.Source.Reading

/-! A reader accepts exactly what the grammar derives: between two constructs that are open there is
a chain of simple terms, or nothing. -/

namespace NamedLambda

namespace Reader

/-- The words make the term that stands before an open construct, if there is one. -/
def Precedes (words : List Token) : Option Term → Prop
  | none => words = []
  | some term => Derives .chain words term

/-- What comes before a simple term is applied to it. -/
theorem Precedes.simple {words later : List Token} {before : Option Term} {term : Term}
    (precedes : Precedes words before) (derived : Derives .simple later term) :
    Derives .chain (words ++ later) (extend before term) := by
  -- Without anything before it the simple term begins a chain.
  cases before with
  | none =>
    obtain rfl : words = [] := precedes
    exact .ofSimple derived
  | some func => exact .apply precedes derived

/-- What comes before an abstraction is applied to it, and nothing more can follow. -/
theorem Precedes.abstraction {words later : List Token} {before : Option Term} {term : Term}
    (precedes : Precedes words before) (derived : Derives .abstraction later term) :
    Derives .expression (words ++ later) (extend before term) := by
  -- Without anything before it the abstraction is all of the expression.
  cases before with
  | none =>
    obtain rfl : words = [] := precedes
    exact .ofAbstraction derived
  | some func => exact .ofApplication (.applyLast precedes derived)

/-- The words up to the last construct that is open. -/
inductive Opens : List Token → List Frame → Prop where
  /-- Nothing is open. -/
  | nil : Opens [] []
  /-- A group is opened behind a chain. -/
  | group {outer words : List Token} {frames : List Frame} {before : Option Term}
    (opens : Opens outer frames) (precedes : Precedes words before) :
    Opens (outer ++ (words ++ [.openParen])) (.group before :: frames)
  /-- The body of an abstraction is opened behind a chain. -/
  | abstraction {outer words : List Token} {frames : List Frame} {before : Option Term}
    {binders : List Name} (opens : Opens outer frames) (precedes : Precedes words before)
    (nonempty : binders ≠ []) :
    Opens (outer ++ (words ++ .lambda :: (binders.reverse.map .ident ++ [.dot])))
      (.abstraction before binders :: frames)

/-- The words that have led a reader to a state. -/
inductive Reaches : List Token → State → Prop where
  /-- Within the last open construct there is a chain, or nothing yet. -/
  | inExpression {outer words : List Token} {frames : List Frame} {head : Option Term}
    (opens : Opens outer frames) (precedes : Precedes words head) :
    Reaches (outer ++ words) (.inExpression frames head)
  /-- An abstraction is opened behind it, and some of its names are there. -/
  | inBinders {outer words : List Token} {frames : List Frame} {before : Option Term}
    (opens : Opens outer frames) (precedes : Precedes words before) (binders : List Name) :
    Reaches (outer ++ (words ++ .lambda :: binders.reverse.map .ident))
      (.inBinders frames before binders)

/-- An abstraction that ends has been derived together with what comes before it. -/
theorem Precedes.closeBinders {words inner : List Token} {before : Option Term}
    {binders : List Name} {body : Term} (precedes : Precedes words before)
    (nonempty : binders ≠ []) (derived : Derives .expression inner body) :
    Derives .expression
      (words ++ .lambda :: (binders.reverse.map .ident ++ .dot :: inner))
      (extend before (closeBinders binders body)) := by
  -- The reader keeps names last first, and binds the last of them innermost.
  have bound := closeBinders_reverse binders.reverse body
  rw [List.reverse_reverse] at bound
  rw [bound]
  exact precedes.abstraction (.bind (by simpa using nonempty) derived)

/-- A group that is closed becomes a simple term at the end of a chain. -/
theorem closeGroup?_derives {outer inner : List Token} {frames left : List Frame} {body term : Term}
    (opens : Opens outer frames) (derived : Derives .expression inner body)
    (closed : closeGroup? frames body = some (left, term)) :
    ∃ before words, Opens before left ∧ Derives .chain words term ∧
      outer ++ inner ++ [.closeParen] = before ++ words := by
  -- Abstractions that are open inside the group end with it.
  induction opens generalizing inner body with
  | nil => contradiction
  -- The chain that came before the group is applied to it.
  | @group outer words frames before opens precedes ih =>
    obtain ⟨rfl, rfl⟩ : frames = left ∧ extend before body = term := by
      simpa [closeGroup?] using closed
    exact ⟨outer, _, opens, precedes.simple (.group derived), by simp⟩
  | abstraction opens precedes nonempty ih =>
    obtain ⟨before, words, leftOpens, chain, same⟩ :=
      ih (precedes.closeBinders nonempty derived) closed
    exact ⟨before, words, leftOpens, chain, by simpa using same⟩

/-- The end of the text completes an expression. -/
theorem closeAll?_derives {outer inner : List Token} {frames : List Frame} {body term : Term}
    (opens : Opens outer frames) (derived : Derives .expression inner body)
    (closed : closeAll? frames body = some term) :
    Derives .expression (outer ++ inner) term := by
  -- Only abstractions are open, and each becomes the last argument of what came before it.
  induction opens generalizing inner body with
  | nil =>
    obtain rfl : body = term := by simpa [closeAll?] using closed
    exact derived
  | group opens precedes ih => contradiction
  | abstraction opens precedes nonempty ih =>
    simpa using ih (precedes.closeBinders nonempty derived) closed

/-- Where every name is a variable, it is one below any binders. -/
theorem occurrence_plain (frames : List Frame) (name : Name) :
    occurrence (fun name => some (.var name)) frames name = some (.var name) := by
  -- It is bound, or it means itself.
  simp [occurrence]

/-- One more word leads a reader on from what has been derived. -/
theorem advance_reaches {position : Nat} {state next : State} {words : List Token} {token : Token}
    (reaches : Reaches words state) (solid : token ≠ .blank)
    (advanced : advance (fun name => some (.var name)) position state token = .ok next) :
    Reaches (words ++ [token]) next := by
  -- There is one case for each token that can go on, and the others are refused.
  revert advanced
  fun_cases advance (fun name => some (.var name)) position state token with
  -- A blank is no word.
  | case1 state => contradiction
  -- A lambda sign opens an abstraction behind the chain, and a parenthesis a group.
  | case2 frames head =>
    rintro ⟨⟩
    cases reaches with
    | inExpression opens precedes => simpa using Reaches.inBinders opens precedes []
  | case3 frames head =>
    rintro ⟨⟩
    cases reaches with
    | inExpression opens precedes =>
      simpa using Reaches.inExpression (.group opens precedes) (show Precedes [] none from rfl)
  -- A name is a simple term, which goes on with the chain.
  | case4 frames head name term found =>
    rintro ⟨⟩
    obtain rfl : Term.var name = term := by simpa [occurrence_plain] using found
    cases reaches with
    | inExpression opens precedes =>
      have chain : Precedes _ (some (extend head (.var name))) := precedes.simple (.name name)
      simpa using Reaches.inExpression opens chain
  | case6 frames head left term closed =>
    rintro ⟨⟩
    cases reaches with
    | inExpression opens precedes =>
      -- The chain that ends the group is all that its innermost expression consists of.
      obtain ⟨before, words, leftOpens, chain, same⟩ :=
        closeGroup?_derives opens (.ofApplication (.ofChain precedes)) closed
      rw [same]
      exact .inExpression leftOpens chain
  -- A name goes on with the names of an abstraction, and a dot begins its body.
  | case9 frames before binders name =>
    rintro ⟨⟩
    cases reaches with
    | inBinders opens precedes => simpa using Reaches.inBinders opens precedes (name :: binders)
  | case11 frames before binders nonempty =>
    rintro ⟨⟩
    cases reaches with
    | inBinders opens precedes =>
      simpa using Reaches.inExpression (.abstraction opens precedes nonempty)
        (show Precedes [] none from rfl)
  | _ =>
    intro refused
    contradiction

/-- The end of the text completes the expression that has been derived. -/
theorem finish_derives {position : Nat} {state : State} {words : List Token} {term : Term}
    (reaches : Reaches words state) (finished : finish position state = .ok term) :
    Derives .expression words term := by
  -- The chain is an expression, inside of all that is still open.
  revert finished
  fun_cases finish position state with
  | case2 frames head other closed =>
    rintro ⟨⟩
    cases reaches with
    | inExpression opens precedes =>
      exact closeAll?_derives opens (.ofApplication (.ofChain precedes)) closed
  | _ =>
    intro refused
    contradiction

/-- Words that are read up to the end of the text are derived, with those before them. -/
theorem read_derives {position : Nat} {state : State} {seen words : List Token} {term : Term}
    (reaches : Reaches seen state) (solid : ∀ token ∈ words, token ≠ .blank ∧ token ≠ .eof)
    (found : read (fun name => some (.var name)) position state (words ++ [.eof]) = .ok term) :
    Derives .expression (seen ++ words) term := by
  -- Each word goes over from the words to come to those that have been derived.
  induction words generalizing position state seen with
  | nil =>
    rw [List.append_nil]
    exact finish_derives reaches found
  | cons token rest ih =>
    obtain ⟨⟨noBlank, more⟩, later⟩ := List.forall_mem_cons.mp solid
    -- A word that is refused would have ended the reading with an error.
    rw [List.cons_append, read] at found
    · split at found
      · rename_i next advanced
        simpa using ih (advance_reaches reaches noBlank advanced) later found
      · contradiction
    · exact more

end Reader

/-- Words are read as an expression exactly when the grammar derives them, with the same term. -/
theorem read_plain_iff {words : List Token}
    (solid : ∀ token ∈ words, token ≠ .blank ∧ token ≠ .eof) (term : Term) :
    Reader.read (fun name => some (.var name)) 0 Reader.start (words ++ [.eof]) = .ok term ↔
      Derives .expression words term := by
  constructor
  · -- At the start nothing has been read, and nothing is open.
    have nothing : Reader.Reaches [] Reader.start :=
      .inExpression .nil (show Reader.Precedes [] none from rfl)
    exact Reader.read_derives nothing solid
  · -- What the grammar derives is read as its term, in which every name is a variable.
    exact fun derived => derived.read_start (Term.scope?_var term []) 0

/-- Of tokens that end a text only the words are left without blanks and the end. -/
theorem Token.Ended.exists_words {tokens : List Token} (ended : Token.Ended tokens) :
    ∃ words, tokens.filter (· ≠ .blank) = words ++ [.eof] ∧
      ∀ token ∈ words, token ≠ .blank ∧ token ≠ .eof := by
  -- The end is the last token, and no other token is one.
  obtain ⟨inside, rfl, each⟩ := ended
  refine ⟨inside.filter (· ≠ .blank), by simp, ?_⟩
  intro token member
  obtain ⟨among, solid⟩ := List.mem_filter.mp member
  refine ⟨by simpa using solid, ?_⟩
  rintro rfl
  exact each _ among

/-- Of the tokens of a text only the words are left without blanks and the end. -/
theorem exists_words {source : String} {tokens : List Token} (cut : tokensOf source = .ok tokens) :
    ∃ words, tokens.filter (· ≠ .blank) = words ++ [.eof] ∧
      ∀ token ∈ words, token ≠ .blank ∧ token ≠ .eof :=
  (tokensOf_ended cut).exists_words

/-- A text is read as a term exactly when its words are. -/
theorem readTerm_eq_ok_iff {meaning : Name → Option Term} {source : String} {term : Term} :
    readTerm meaning source = .ok term ↔ ∃ tokens, tokensOf source = .ok tokens ∧
      Reader.read meaning 0 Reader.start (tokens.filter (· ≠ .blank)) = .ok term := by
  -- Blanks matter to the positions in errors only.
  cases cut : tokensOf source with
  | error error => simp [readTerm, cut, bind, Except.bind]
  | ok tokens =>
    simp only [readTerm, cut, bind, Except.bind, Except.ok.injEq, exists_eq_left']
    exact Reader.read_eq_ok_iff_filter meaning 0 0 Reader.start tokens term

/-- A text is read exactly when the grammar derives its words, with the term that the grammar
derives them with, which no two terms share; its layout and its lambda signs do not matter. -/
theorem readPlainTerm_eq_ok_iff (source : String) :
    (∀ term, readPlainTerm source = .ok term ↔
      ∃ tokens words, tokensOf source = .ok tokens ∧
        tokens.filter (· ≠ .blank) = words ++ [.eof] ∧ Derives .expression words term) ∧
    (∀ words left right, Derives .expression words left → Derives .expression words right →
      left = right) ∧
    ∀ other : String, Relation.EqvGen Relaid source.toList other.toList →
      (readPlainTerm source).toOption = (readPlainTerm other).toOption := by
  refine ⟨fun term => ?_, ?_, ?_⟩
  · -- Reading the text comes to reading its words, which the grammar derives.
    rw [readPlainTerm, readTerm_eq_ok_iff]
    constructor
    · rintro ⟨tokens, cut, found⟩
      obtain ⟨words, same, solid⟩ := exists_words cut
      rw [same] at found
      exact ⟨tokens, words, cut, same, (read_plain_iff solid term).mp found⟩
    · rintro ⟨tokens, words, cut, same, derived⟩
      refine ⟨tokens, cut, ?_⟩
      rw [same]
      exact derived.read_start (Term.scope?_var term []) 0
  · -- A reader that accepts all that is derived gives derived words one term.
    intro words left right leftDerived rightDerived
    have leftRead := leftDerived.read_start (Term.scope?_var left []) 0
    have rightRead := rightDerived.read_start (Term.scope?_var right []) 0
    exact Except.ok.inj (leftRead.symm.trans rightRead)
  · -- Both texts have the same words, and the term is read off these.
    intro other relaid
    rw [readPlainTerm, readPlainTerm, readTerm_toOption, readTerm_toOption]
    unfold Lexer.ofText
    rw [sameWords_of_relaid relaid 0 0]

/-- Another lambda sign and a blank before a group make no difference. -/
theorem readPlainTerm_eq_ok_iff_respaced :
    let term := Term.bindAll ["x", "y"] (.app (.var "x") (.var "y"))
    let words := [.lambda, .ident "x", .ident "y", .dot, .ident "x", .openParen, .ident "y",
      .closeParen]
    Derives .expression words term ∧
      Relation.EqvGen Relaid "λx y.x(y)".toList "\\x y.x (y)".toList ∧
      readPlainTerm "λx y.x(y)" = .ok term ∧
        (readPlainTerm "\\x y.x (y)").toOption = some term := by
  intro term words
  -- The words are derived from the inside outwards.
  have group : Derives .simple [.openParen, .ident "y", .closeParen] (.var "y") :=
    .group (.ofApplication (.ofChain (.ofSimple (.name "y"))))
  have body : Derives .expression [.ident "x", .openParen, .ident "y", .closeParen]
      (.app (.var "x") (.var "y")) :=
    .ofApplication (.ofChain (.apply (.ofSimple (.name "x")) group))
  have derived : Derives .expression words term :=
    .ofAbstraction (@Derives.bind ["x", "y"] _ _ (by decide) body)
  -- The sign is exchanged first, and then the blank is put in.
  have sign : Relaid "λx y.x(y)".toList "\\x y.x(y)".toList :=
    .lambda [] "x y.x(y)".toList rfl rfl
  have apart : ∀ c ∈ "(y)".toList.head?, isIdentChar c = false := by
    intro c found
    obtain rfl : '(' = c := Option.some.inj found
    rfl
  have space : Relaid "\\x y.x(y)".toList "\\x y.x (y)".toList :=
    @Relaid.blank "\\x y.x".toList "(y)".toList ' ' rfl (.inr apart)
  have relaid := (Relation.EqvGen.rel _ _ sign).trans _ _ _ (.rel _ _ space)
  obtain ⟨accepts, -, layout⟩ := readPlainTerm_eq_ok_iff "λx y.x(y)"
  -- The first text spells the words, so it is read as their term.
  have argument : Spells ['(', 'y', ')'] [.openParen, .ident "y", .closeParen] :=
    .sign rfl (.append (@Spells.ident "y" rfl) rfl (.sign rfl .nil))
  have inBody : Spells ['.', 'x', '(', 'y', ')']
      [.dot, .ident "x", .openParen, .ident "y", .closeParen] :=
    .sign rfl (.append (@Spells.ident "x" rfl) rfl argument)
  have spells : Spells "λx y.x(y)".toList words :=
    .sign rfl (.append (@Spells.ident "x" rfl) rfl
      (.blank rfl (.append (@Spells.ident "y" rfl) rfl inBody)))
  obtain ⟨tokens, cut, same⟩ := spells.tokensOf
  have found : readPlainTerm "λx y.x(y)" = .ok term :=
    (accepts term).mpr ⟨tokens, words, cut, same, derived⟩
  have respaced := layout "\\x y.x (y)" relaid
  rw [found] at respaced
  exact ⟨derived, relaid, found, respaced.symm⟩

end NamedLambda
