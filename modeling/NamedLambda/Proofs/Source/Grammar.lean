import NamedLambda.Source.Reader

/-! A reader accepts all that the grammar of terms derives, and resolves macro names on the way. -/

namespace NamedLambda

/-- The constructs of the grammar. -/
inductive Construct where
  /-- An abstraction or an application. -/
  | expression
  /-- A lambda sign, names, a dot and an expression. -/
  | abstraction
  /-- A chain, which an abstraction may end. -/
  | application
  /-- Simple terms one after the other. -/
  | chain
  /-- A name, or an expression in parentheses. -/
  | simple

/-- The words that write a term, as a construct of the grammar. -/
inductive Derives : Construct → List Token → Term → Prop where
  /-- An abstraction is an expression. -/
  | ofAbstraction {words : List Token} {term : Term} (derived : Derives .abstraction words term) :
    Derives .expression words term
  /-- An application is an expression. -/
  | ofApplication {words : List Token} {term : Term} (derived : Derives .application words term) :
    Derives .expression words term
  /-- An abstraction binds its names in the order they are written in, the first outermost. -/
  | bind {binders : List Name} {words : List Token} {body : Term} (nonempty : binders ≠ [])
    (derived : Derives .expression words body) :
    Derives .abstraction (.lambda :: (binders.map .ident ++ .dot :: words))
      (Term.bindAll binders body)
  /-- A chain is an application. -/
  | ofChain {words : List Token} {term : Term} (derived : Derives .chain words term) :
    Derives .application words term
  /-- An abstraction at the end of a chain is its last argument. -/
  | applyLast {words argWords : List Token} {func arg : Term} (derived : Derives .chain words func)
    (argDerived : Derives .abstraction argWords arg) :
    Derives .application (words ++ argWords) (.app func arg)
  /-- A simple term is a chain. -/
  | ofSimple {words : List Token} {term : Term} (derived : Derives .simple words term) :
    Derives .chain words term
  /-- What comes before a simple term is applied to it. -/
  | apply {words argWords : List Token} {func arg : Term} (derived : Derives .chain words func)
    (argDerived : Derives .simple argWords arg) :
    Derives .chain (words ++ argWords) (.app func arg)
  /-- A name is a variable. -/
  | name (name : Name) : Derives .simple [.ident name] (.var name)
  /-- Parentheses make a simple term of any expression. -/
  | group {words : List Token} {term : Term} (derived : Derives .expression words term) :
    Derives .simple (.openParen :: (words ++ [.closeParen])) term

namespace Term

/-- The term with the meanings of macros in place of the variables that are named like macros and
that neither the term nor the given binders bind. -/
def scope? (meaning : Name → Option Term) (bound : List Name) : Term → Option Term
  | var name =>
    if isMacroName name && !bound.contains name then meaning name else some (var name)
  | lam binder body => (body.scope? meaning (binder :: bound)).map (lam binder)
  | app func arg =>
    (func.scope? meaning bound).bind (fun func => (arg.scope? meaning bound).map (app func))
  | ref name resolved => some (ref name resolved)

/-- When macro names mean variables, every name is a variable. -/
theorem scope?_var (term : Term) (bound : List Name) :
    term.scope? (fun name => some (var name)) bound = some term := by
  -- A bound name stays a variable, and a free one is its own meaning.
  induction term generalizing bound with
  | var name => simp [scope?]
  | lam binder body ih => simp [scope?, ih]
  | app func arg funcIh argIh => simp [scope?, funcIh, argIh]
  | ref name resolved => rfl

variable {meaning : Name → Option Term} {bound : List Name}

/-- An application is resolved by resolving both parts. -/
theorem scope?_app_eq_some {func arg resolved : Term}
    (resolves : (app func arg).scope? meaning bound = some resolved) :
    ∃ funcResolved argResolved, func.scope? meaning bound = some funcResolved ∧
      arg.scope? meaning bound = some argResolved ∧ resolved = app funcResolved argResolved := by
  -- Were one of them not resolved, the whole would not be.
  obtain ⟨funcResolved, inFunc, rest⟩ := Option.bind_eq_some_iff.mp resolves
  obtain ⟨argResolved, inArg, rfl⟩ := Option.map_eq_some_iff.mp rest
  exact ⟨funcResolved, argResolved, inFunc, inArg, rfl⟩

/-- Below several names the last of them is the nearest. -/
theorem scope?_bindAll (binders bound : List Name) (body : Term) :
    (bindAll binders body).scope? meaning bound =
      (body.scope? meaning (binders.reverse ++ bound)).map (bindAll binders) := by
  -- The first name is the outermost, and the others are bound below it.
  induction binders generalizing bound with
  | nil =>
    rw [List.reverse_nil, List.nil_append]
    exact Option.map_id'.symm
  | cons binder binders ih =>
    have inner : bindAll (binder :: binders) body = lam binder (bindAll binders body) := rfl
    rw [inner, scope?, ih, Option.map_map, List.reverse_cons, List.append_assoc]
    rfl

end Term

namespace Reader

variable {meaning : Name → Option Term}

/-- The words take a reader from one state to another, whatever comes behind them. -/
def Leads (meaning : Name → Option Term) (state : State) (words : List Token) (next : State) :
    Prop :=
  ∀ (position : Nat) (rest : List Token),
    read meaning position state (words ++ rest) = read meaning (position + words.length) next rest

/-- Words that lead from one state to the next lead on together. -/
theorem Leads.trans {state middle next : State} {words later : List Token}
    (first : Leads meaning state words middle) (second : Leads meaning middle later next) :
    Leads meaning state (words ++ later) next := by
  -- The later words are read behind the first ones.
  intro position rest
  rw [List.append_assoc, first, second, List.length_append, Nat.add_assoc]

/-- A token that every position accepts leads to the next state. -/
theorem Leads.token {state next : State} {token : Token} (more : token ≠ .eof)
    (advances : ∀ position, advance meaning position state token = .ok next) :
    Leads meaning state [token] next := by
  -- One token moves the position by one.
  intro position rest
  rw [List.singleton_append, read, advances position, List.length_singleton]
  exact more

/-- The end of a group or of the text makes of the state what it makes of a state in which the term
has been read as a whole. -/
inductive Settles (frames : List Frame) (term : Term) : State → Prop where
  /-- Abstractions that are still open will end there as well. -/
  | pending {opened : List Frame} {inner : Term}
    (group : closeGroup? opened inner = closeGroup? frames term)
    (all : closeAll? opened inner = closeAll? frames term) :
    Settles frames term (.inExpression opened (some inner))

section

variable {frames : List Frame} {before : Option Term} {names : List Name} {body term : Term}
  {state : State}

/-- What ends the body of an abstraction completes the abstraction. -/
theorem Settles.abstraction (settles : Settles (.abstraction before names :: frames) body state) :
    Settles frames (extend before (closeBinders names body)) state := by
  -- Both ways to end it close the abstraction first.
  cases settles with
  | pending group all => exact .pending group all

/-- A group is ended by its parenthesis. -/
theorem Settles.advance_group (settles : Settles (.group before :: frames) term state)
    (meaning : Name → Option Term) (position : Nat) :
    advance meaning position state .closeParen =
      .ok (.inExpression frames (some (extend before term))) := by
  -- Closing what is open inside comes to closing the group with the term in it.
  cases settles with
  | pending group all => rw [advance, group, closeGroup?]

/-- The end of the text ends no group. -/
theorem Settles.finish_group (settles : Settles (.group before :: frames) term state)
    (position : Nat) :
    finish position state = .error (.unexpectedToken .closeParen .eof position) := by
  -- Closing what is open inside comes upon the group.
  cases settles with
  | pending group all => rw [finish, all, closeAll?]

/-- Around the whole term there is no group to end. -/
theorem Settles.advance_whole (settles : Settles [] term state) (meaning : Name → Option Term)
    (position : Nat) :
    advance meaning position state .closeParen =
      .error (.unexpectedToken .endOfInput .closeParen position) := by
  -- No frame is left once the open abstractions are closed.
  cases settles with
  | pending group all => rw [advance, group, closeGroup?]

/-- The whole term is complete at the end of the text. -/
theorem Settles.finish_whole (settles : Settles [] term state) (position : Nat) :
    finish position state = .ok term := by
  cases settles with
  | pending group all => rw [finish, all, closeAll?]

end

/-- The names of an abstraction are collected one by one. -/
theorem leads_binders (frames : List Frame) (before : Option Term) (binders seen : List Name) :
    Leads meaning (.inBinders frames before seen) (binders.map .ident)
      (.inBinders frames before (binders.reverse ++ seen)) := by
  -- Each name goes in front of those that were seen before it.
  induction binders generalizing seen with
  | nil => exact fun position rest => rfl
  | cons binder binders ih =>
    have first : Leads meaning (.inBinders frames before seen) [.ident binder]
        (.inBinders frames before (binder :: seen)) := .token (by simp) (fun _ => rfl)
    simpa using first.trans (ih (binder :: seen))

/-- Names that were collected innermost first are bound in the order they were written in. -/
theorem closeBinders_reverse (binders : List Name) (body : Term) :
    closeBinders binders.reverse body = Term.bindAll binders body := by
  -- A fold over the reversed list goes through the names from the last one on.
  rw [closeBinders, List.foldl_reverse, Term.bindAll]

end Reader

open Reader

/-- What a reader makes of the words of a construct, between open frames. -/
def Construct.Read (meaning : Name → Option Term) (frames : List Frame) (words : List Token)
    (term : Term) : Construct → Prop
  -- A simple term becomes an argument of what has been read before.
  | simple => ∀ head, Leads meaning (.inExpression frames head) words
      (.inExpression frames (some (extend head term)))
  | chain => Leads meaning (.inExpression frames none) words (.inExpression frames (some term))
  -- An abstraction does so when its body ends.
  | abstraction => ∀ head, ∃ state, Leads meaning (.inExpression frames head) words state ∧
      Settles frames (extend head term) state
  | application | expression => ∃ state, Leads meaning (.inExpression frames none) words state ∧
      Settles frames term state

/-- A reader makes of derived words the term they are derived with, with macro names resolved. -/
theorem Derives.read {meaning : Name → Option Term} {construct : Construct} {words : List Token}
    {term : Term} (derived : Derives construct words term) (frames : List Frame) {resolved : Term}
    (resolves : term.scope? meaning (boundNames frames) = some resolved) :
    construct.Read meaning frames words resolved := by
  induction derived generalizing frames resolved with
  -- An expression begins with nothing before it.
  | ofAbstraction derived ih => exact ih frames resolves none
  | ofApplication derived ih => exact ih frames resolves
  | @bind binders words body nonempty derived ih =>
    rw [Term.scope?_bindAll] at resolves
    obtain ⟨bodyResolved, inBody, rfl⟩ := Option.map_eq_some_iff.mp resolves
    intro head
    obtain ⟨state, inside, settles⟩ := ih (.abstraction head binders.reverse :: frames) inBody
    -- The sign, the names and the dot lead into the body, and what ends the body
    -- ends the abstraction.
    have opens : Leads meaning (.inExpression frames head) [.lambda]
        (.inBinders frames head []) := .token (by simp) (fun _ => rfl)
    have names : Leads meaning (.inBinders frames head []) (binders.map .ident)
        (.inBinders frames head binders.reverse) := by
      simpa using leads_binders frames head binders []
    have dot : Leads meaning (.inBinders frames head binders.reverse) [.dot]
        (.inExpression (.abstraction head binders.reverse :: frames) none) := by
      refine .token (by simp) (fun position => ?_)
      cases reversed : binders.reverse with
      | nil => exact absurd (List.reverse_eq_nil_iff.mp reversed) nonempty
      | cons binder rest => rfl
    refine ⟨state, by simpa using ((opens.trans names).trans dot).trans inside, ?_⟩
    rw [← closeBinders_reverse]
    exact settles.abstraction
  | ofChain derived ih =>
    -- Nothing is open within a chain that has been read.
    exact ⟨_, ih frames resolves, .pending rfl rfl⟩
  -- The abstraction at the end is read as an argument of the chain before it.
  | applyLast derived argDerived ih argIh =>
    obtain ⟨funcResolved, argResolved, inFunc, inArg, rfl⟩ := Term.scope?_app_eq_some resolves
    obtain ⟨state, leads, settles⟩ := argIh frames inArg (some funcResolved)
    exact ⟨state, (ih frames inFunc).trans leads, settles⟩
  | ofSimple derived ih => exact ih frames resolves none
  | apply derived argDerived ih argIh =>
    obtain ⟨funcResolved, argResolved, inFunc, inArg, rfl⟩ := Term.scope?_app_eq_some resolves
    exact (ih frames inFunc).trans (argIh frames inArg (some funcResolved))
  -- A name is accepted wherever a simple term is.
  | name name =>
    intro head
    refine .token (by simp) (fun position => ?_)
    have found : occurrence meaning frames name = some resolved := resolves
    rw [advance, found]
  -- The parentheses lead into a frame of their own and out of it again.
  | group derived ih =>
    intro head
    obtain ⟨state, inside, settles⟩ := ih (.group head :: frames) resolves
    have opens : Leads meaning (.inExpression frames head) [.openParen]
        (.inExpression (.group head :: frames) none) := .token (by simp) (fun _ => rfl)
    have closes : Leads meaning state [.closeParen]
        (.inExpression frames (some (extend head resolved))) :=
      .token (by simp) (settles.advance_group meaning)
    exact (opens.trans inside).trans closes

/-- The words of an expression, up to the end of the text, are read as the term they write. -/
theorem Derives.read_start {meaning : Name → Option Term} {words : List Token} {term : Term}
    (derived : Derives .expression words term) {resolved : Term}
    (resolves : term.scope? meaning [] = some resolved) (position : Nat) :
    Reader.read meaning position start (words ++ [.eof]) = .ok resolved := by
  -- The end of the text settles what the words have led to.
  obtain ⟨state, leads, settles⟩ := derived.read [] resolves
  rw [start, leads, Reader.read, settles.finish_whole]

end NamedLambda
