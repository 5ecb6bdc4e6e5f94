import Mathlib.Control.Monad.Basic
import NamedLambda.Proofs.Source.Descent
import NamedLambda.Proofs.Source.Words

/-! Recursive descent comes to an end on every text: a routine that succeeds has moved forward, none
moves past the end, and there are no more atoms to ask for than tokens. -/

namespace NamedLambda.Descent

/-- A call has moved along tokens whose end is at a given position. -/
structure Return.Moves (last : Nat) (returned : Return) : Prop where
  /-- It has not moved back. -/
  forward : returned.call.position ≤ returned.after
  /-- It has not moved past the end. -/
  within : returned.after ≤ last
  /-- If it succeeded it has moved forward, unless it was the loop that may find no arguments. -/
  strictly : ∀ term, returned.result = .ok term →
    (∀ func, returned.call.routine ≠ .arguments func) → returned.call.position < returned.after

/-- Whether a call was for an atom. -/
def Return.forAtom (returned : Return) : Bool :=
  decide (returned.call.routine = .atom)

/-- Where a call ends at the earliest if it succeeds. -/
def Call.least (call : Call) : Nat :=
  match call.routine with
  | .arguments _ => call.position
  | _ => call.position + 1

/-- Where a call ends at the earliest if it asks for no atoms; each that it asks for is one position
more. A call for an atom is made up for by the token that the atom begins with. -/
def Call.spare (call : Call) : Nat :=
  match call.routine with
  | .atom | .abstraction => call.position + 1
  | _ => call.position

/-- How many atoms may have been asked for without a token of their own: the one that is refused. -/
def slack : Except ReadError Term → Nat
  | .ok _ => 0
  | .error _ => 1

/-- At most one atom is asked for without a token of its own. -/
theorem slack_le (result : Except ReadError Term) : slack result ≤ 1 := by
  -- It is the one whose refusal ends everything.
  cases result with
  | ok term => exact Nat.zero_le 1
  | error error => exact Nat.le_refl 1

/-- A plan comes to a result, and where it ends is bounded in three ways: by its start, by a
position that it leaves behind if it succeeds, and by the atoms that it asks for. -/
structure EndsWith (meaning : Name → Option Term) (tokens : List Token) (last : Nat) (plan : Plan)
    (start least spare : Nat) (result : Except ReadError Term) (after : Nat) (log : List Return) :
    Prop where
  /-- It comes to the result there. -/
  runs : Runs meaning tokens plan result after log
  /-- It ends at its start or later. -/
  forward : start ≤ after
  /-- It does not move past the end. -/
  within : after ≤ last
  /-- If it succeeds it has come as far as it should. -/
  success : ∀ term, result = .ok term → least ≤ after
  /-- The calls on the way have moved. -/
  moves : ∀ returned ∈ log, returned.Moves last
  /-- Each atom that is asked for takes a token of its own, save for one that is refused. -/
  atoms : log.countP Return.forAtom + spare ≤ after + slack result

/-- A plan comes to some result within bounds. -/
def Ends (meaning : Name → Option Term) (tokens : List Token) (last : Nat) (plan : Plan)
    (start least spare : Nat) : Prop :=
  ∃ result after log, EndsWith meaning tokens last plan start least spare result after log

/-- A call comes to a result. -/
def Call.Ends (meaning : Name → Option Term) (tokens : List Token) (last : Nat) (call : Call) :
    Prop :=
  Descent.Ends meaning tokens last (call.plan meaning tokens) call.position call.least call.spare

variable {meaning : Name → Option Term} {tokens : List Token} {last : Nat}

section

variable {start least spare position : Nat}

/-- Nothing is called on the way to a return. -/
theorem Ends.ok (term : Term) (forward : start ≤ position) (within : position ≤ last)
    (success : least ≤ position) (atoms : spare ≤ position) :
    Ends meaning tokens last (.finish (.ok term) position) start least spare :=
  -- Without a call no atom is counted.
  ⟨_, _, _, .finish _ _, forward, within, fun _ _ => success, nofun,
    by rw [List.countP_nil, Nat.zero_add]; exact atoms⟩

/-- An error is returned without a call as well, and may be due to an atom that has no token. -/
theorem Ends.error (error : ReadError) (forward : start ≤ position) (within : position ≤ last)
    (atoms : spare ≤ position + 1) :
    Ends meaning tokens last (.finish (.error error) position) start least spare :=
  -- The slack of an error is one.
  ⟨_, _, _, .finish _ _, forward, within, nofun, nofun,
    by rw [List.countP_nil, Nat.zero_add]; exact atoms⟩

/-- What returned from a call has moved. -/
theorem EndsWith.returned {call : Call} {result : Except ReadError Term} {after : Nat}
    {log : List Return}
    (ends : EndsWith meaning tokens last (call.plan meaning tokens) call.position call.least
      call.spare result after log) :
    Return.Moves last ⟨call, result, after⟩ := by
  -- What it left behind is its own start, but for the loop a position more.
  refine ⟨ends.forward, ends.within, fun term same solid => ?_⟩
  have success := ends.success term same
  unfold Call.least at success
  split at success
  next func loop => exact absurd loop (solid func)
  next => exact success

/-- A plan ends if its call does and it ends from where the call returned. -/
theorem Call.Ends.call {callee : Call} {resume : Term → Nat → Plan}
    (called : callee.Ends meaning tokens last) (starts : start ≤ callee.position)
    (spares : spare + (if callee.routine = .atom then 1 else 0) ≤ callee.spare)
    (resumed : ∀ term between, callee.least ≤ between → between ≤ last →
      Descent.Ends meaning tokens last (resume term between) between least between) :
    Descent.Ends meaning tokens last (.call callee resume) start least spare := by
  obtain ⟨result, between, inner, ends⟩ := called
  -- The call itself counts as an atom if it is one.
  have own : ∀ log, List.countP Return.forAtom (⟨callee, result, between⟩ :: log) =
      log.countP Return.forAtom + if callee.routine = .atom then 1 else 0 := by
    intro log
    simp [List.countP_cons, Return.forAtom]
  have begins := ends.forward
  have taken := ends.atoms
  -- After a failure nothing goes on.
  cases result with
  | error error =>
    refine ⟨_, _, _, .fails resume ends.runs, by omega, ends.within, by simp,
      List.forall_mem_cons.mpr ⟨ends.returned, ends.moves⟩, ?_⟩
    rw [own]
    omega
  | ok term =>
    -- What goes on starts where the call stopped, which its atoms have paid for by then.
    obtain ⟨result, after, later, laterEnds⟩ :=
      resumed term between (ends.success term rfl) ends.within
    have goesOn := laterEnds.forward
    have laterTaken := laterEnds.atoms
    refine ⟨_, _, _, .resumes ends.runs laterEnds.runs, by omega, laterEnds.within,
      laterEnds.success, ?_, ?_⟩
    · exact List.forall_mem_append.mpr
        ⟨List.forall_mem_cons.mpr ⟨ends.returned, ends.moves⟩, laterEnds.moves⟩
    · rw [List.countP_append, own]
      simp only [slack] at taken
      omega

/-- A plan that hands on what a call returns ends where the call does. -/
theorem Call.Ends.delegate {callee : Call} (called : callee.Ends meaning tokens last)
    (starts : start ≤ callee.position) (success : least ≤ callee.least)
    (spares : spare + (if callee.routine = .atom then 1 else 0) ≤ callee.spare) :
    Descent.Ends meaning tokens last (.delegate callee) start least spare :=
  -- Behind the call nothing is left but to return.
  called.call starts spares fun term _ enough within =>
    .ok term (Nat.le_refl _) within (Nat.le_trans success enough) (Nat.le_refl _)

end

/-- Behind blanks a position is no smaller. -/
theorem le_behindBlanks (tokens : List Token) (position : Nat) :
    position ≤ behindBlanks tokens position := by
  -- Each blank that is passed over moves it by one.
  induction position using blanks_induction tokens with
  | solid position solid => exact Nat.le_of_eq (behindBlanks_of_ne_blank solid).symm
  | blank position blank ih =>
    rw [behindBlanks_of_blank blank]
    exact Nat.le_of_succ_le ih

section

variable (ended : peek tokens last = .eof) {position : Nat}

include ended

/-- A token that is not the end stands before it. -/
theorem lt_of_peek {token : Token} (stands : peek tokens position = token) (more : token ≠ .eof)
    (within : position ≤ last) : position < last := by
  -- At the end itself there is another token.
  refine Nat.lt_of_le_of_ne within fun same => more ?_
  rw [← stands, same, ended]

/-- Blanks stand before the end, so that passing over them does not go further. -/
theorem behindBlanks_le (within : position ≤ last) : behindBlanks tokens position ≤ last := by
  induction position using blanks_induction tokens with
  | solid position solid => rwa [behindBlanks_of_ne_blank solid]
  | blank position blank ih =>
    -- A blank is not the end.
    rw [behindBlanks_of_blank blank]
    exact ih (lt_of_peek ended blank (by simp) within)

end

/-- A call is made at the end or before, for an abstraction at its sign. -/
structure Call.Placed (tokens : List Token) (last : Nat) (call : Call) : Prop where
  /-- It is not made behind the end. -/
  within : call.position ≤ last
  /-- An abstraction begins with its sign. -/
  sign : call.routine = .abstraction → peek tokens call.position = .lambda

/-- An order of the routines that call each other at one position. -/
def Routine.rank : Routine → Nat
  | abstraction | binders _ => 0
  | atom => 1
  | application | arguments _ => 2
  | expression => 3

/-- What is less for a call than for the one that makes it: the tokens that are left, and then the
rank of its routine. -/
def Call.budget (last : Nat) (call : Call) : Nat :=
  4 * (last - call.position) + call.routine.rank

/-- All calls of a smaller budget come to a result. -/
def Call.CalleesEnd (meaning : Name → Option Term) (tokens : List Token) (last : Nat)
    (call : Call) : Prop :=
  ∀ callee : Call, callee.Placed tokens last → callee.budget last < call.budget last →
    callee.Ends meaning tokens last

/-- There are four ranks. -/
theorem Routine.rank_lt (routine : Routine) : routine.rank < 4 := by
  -- Every routine has one of them.
  cases routine <;> simp [Routine.rank]

section

variable {call callee : Call} (calleesEnd : call.CalleesEnd meaning tokens last)

include calleesEnd

/-- A call further on comes to a result, whatever is called. -/
theorem Call.CalleesEnd.further (placed : callee.Placed tokens last)
    (further : call.position < callee.position) : callee.Ends meaning tokens last := by
  refine calleesEnd callee placed ?_
  -- One token less outweighs all ranks.
  have within := placed.within
  have rank := callee.routine.rank_lt
  rw [Call.budget, Call.budget]
  omega

/-- At the same place it is the order of the routines that counts. -/
theorem Call.CalleesEnd.lower (placed : callee.Placed tokens last)
    (forward : call.position ≤ callee.position) (lower : callee.routine.rank < call.routine.rank) :
    callee.Ends meaning tokens last := by
  -- There may be fewer tokens left, but not more.
  refine calleesEnd callee placed ?_
  rw [Call.budget, Call.budget]
  omega

end

section

variable {bound : List Name} {position : Nat}

/-- An atom moves forward, and the loop takes no less. -/
theorem ends_application (within : position ≤ last)
    (calleesEnd : Call.CalleesEnd meaning tokens last ⟨.application, bound, position⟩) :
    Call.Ends meaning tokens last ⟨.application, bound, position⟩ := by
  -- The atom is asked for at the place of the application, and ranks lower.
  have called : Call.Ends meaning tokens last ⟨.atom, bound, position⟩ :=
    calleesEnd.lower ⟨within, by simp⟩ (Nat.le_refl _) (by simp [Routine.rank])
  refine called.call (Nat.le_refl _) (Nat.le_refl _) fun func between far within => ?_
  -- Behind the atom the loop is further on than the application.
  have later : Call.Ends meaning tokens last ⟨.arguments func, bound, between⟩ :=
    calleesEnd.further ⟨within, by simp⟩ far
  exact later.delegate (Nat.le_refl _) far (Nat.le_refl _)

variable (ended : peek tokens last = .eof)

include ended

/-- The routine that an expression hands on to moves forward. -/
theorem ends_expression (within : position ≤ last)
    (calleesEnd : Call.CalleesEnd meaning tokens last ⟨.expression, bound, position⟩) :
    Call.Ends meaning tokens last ⟨.expression, bound, position⟩ := by
  have behind := le_behindBlanks tokens position
  have inside := behindBlanks_le ended within
  have further := Nat.succ_le_succ behind
  simp only [Call.Ends, Call.plan, Call.least, Call.spare]
  split
  -- Where nothing is left the routine fails at once.
  next => exact .error _ behind inside (Nat.le_succ_of_le behind)
  -- Both routines that it can hand on to rank lower, and move forward.
  next sign =>
    have called : Call.Ends meaning tokens last
        ⟨.abstraction, bound, behindBlanks tokens position⟩ :=
      calleesEnd.lower ⟨inside, fun _ => sign⟩ behind (by simp [Routine.rank])
    exact called.delegate behind further (Nat.le_succ_of_le behind)
  next =>
    have called : Call.Ends meaning tokens last
        ⟨.application, bound, behindBlanks tokens position⟩ :=
      calleesEnd.lower ⟨inside, by simp⟩ behind (by simp [Routine.rank])
    exact called.delegate behind further behind

/-- The sign of an abstraction is behind the place of its names. -/
theorem ends_abstraction (sign : peek tokens position = .lambda) (within : position ≤ last)
    (calleesEnd : Call.CalleesEnd meaning tokens last ⟨.abstraction, bound, position⟩) :
    Call.Ends meaning tokens last ⟨.abstraction, bound, position⟩ := by
  -- The call for the names is made behind the sign.
  have more := lt_of_peek ended sign (by simp) within
  have called : Call.Ends meaning tokens last ⟨.binders [], bound, position + 1⟩ :=
    calleesEnd.further ⟨more, by simp⟩ (Nat.lt_succ_self _)
  exact called.delegate (Nat.le_succ _) (Nat.le_succ _) (Nat.le_refl _)

/-- Each name and the dot are moved over before the next call. -/
theorem ends_binders {names : List Name} (within : position ≤ last)
    (calleesEnd : Call.CalleesEnd meaning tokens last ⟨.binders names, bound, position⟩) :
    Call.Ends meaning tokens last ⟨.binders names, bound, position⟩ := by
  have behind := le_behindBlanks tokens position
  have inside := behindBlanks_le ended within
  have further := Nat.lt_succ_of_le behind
  have refused := Nat.le_succ_of_le behind
  simp only [Call.Ends, Call.plan, Call.least, Call.spare]
  split
  -- A name is passed over, and the loop goes on behind it.
  next name named =>
    have more := lt_of_peek ended named (by simp) inside
    have called : Call.Ends meaning tokens last
        ⟨.binders (name :: names), bound, behindBlanks tokens position + 1⟩ :=
      calleesEnd.further ⟨more, by simp⟩ further
    exact called.delegate refused (Nat.le_succ_of_le further) refused
  next =>
    split
    next => exact .error _ behind inside refused
    next =>
      split
      -- The dot is passed over as well, so that the body is further on than the names.
      next dot =>
        have more := lt_of_peek ended dot (by simp) inside
        have called : Call.Ends meaning tokens last
            ⟨.expression, names ++ bound, behindBlanks tokens position + 1⟩ :=
          calleesEnd.further ⟨more, by simp⟩ further
        refine called.call refused refused fun body between far within => ?_
        have success := Nat.le_trans (Nat.le_succ_of_le further) far
        exact .ok _ (Nat.le_refl _) within success (Nat.le_refl _)
      next => exact .error _ behind inside refused

/-- Each argument is an atom, and moves forward before the loop goes round again. -/
theorem ends_arguments {func : Term} (within : position ≤ last)
    (calleesEnd : Call.CalleesEnd meaning tokens last ⟨.arguments func, bound, position⟩) :
    Call.Ends meaning tokens last ⟨.arguments func, bound, position⟩ := by
  have behind := le_behindBlanks tokens position
  have inside := behindBlanks_le ended within
  simp only [Call.Ends, Call.plan, Call.least, Call.spare]
  split
  -- At the end of the expression the loop returns without having moved.
  next => exact .ok _ behind inside behind behind
  next => exact .ok _ behind inside behind behind
  next =>
    -- The atom is asked for where the loop stands, and ranks lower.
    have called : Call.Ends meaning tokens last ⟨.atom, bound, behindBlanks tokens position⟩ :=
      calleesEnd.lower ⟨inside, by simp⟩ behind (by simp [Routine.rank])
    refine called.call behind (Nat.succ_le_succ behind) fun arg between far within => ?_
    -- Behind it the loop goes round again further on.
    have further := Nat.lt_of_le_of_lt behind far
    have later : Call.Ends meaning tokens last ⟨.arguments (.app func arg), bound, between⟩ :=
      calleesEnd.further ⟨within, by simp⟩ further
    exact later.delegate (Nat.le_refl _) (Nat.le_of_lt further) (Nat.le_refl _)

/-- An atom takes a name, two parentheses or what an abstraction takes. -/
theorem ends_atom (within : position ≤ last)
    (calleesEnd : Call.CalleesEnd meaning tokens last ⟨.atom, bound, position⟩) :
    Call.Ends meaning tokens last ⟨.atom, bound, position⟩ := by
  have behind := le_behindBlanks tokens position
  have inside := behindBlanks_le ended within
  have further := Nat.succ_le_succ behind
  simp only [Call.Ends, Call.plan, Call.least, Call.spare]
  split
  next opened =>
    -- The parenthesis is the token of this atom, and those inside have tokens of their own.
    have more := lt_of_peek ended opened (by simp) inside
    have called : Call.Ends meaning tokens last
        ⟨.expression, bound, behindBlanks tokens position + 1⟩ :=
      calleesEnd.further ⟨more, by simp⟩ further
    refine called.call (Nat.le_succ_of_le behind) further fun term between far within => ?_
    have success := Nat.le_trans (Nat.le_succ_of_le further) far
    split
    next closed =>
      have closes := lt_of_peek ended closed (by simp) within
      exact .ok _ (Nat.le_succ _) closes (Nat.le_succ_of_le success) (Nat.le_succ _)
    next => exact .error _ (Nat.le_refl _) within (Nat.le_succ _)
  -- A name is the token of its atom, whether or not it has a meaning.
  next name named =>
    have more := lt_of_peek ended named (by simp) inside
    split
    next => exact .ok _ (Nat.le_succ_of_le behind) more further further
    next => exact .error _ (Nat.le_succ_of_le behind) more (Nat.le_succ_of_le further)
  next sign =>
    -- The sign of an abstraction is the token of this atom as well.
    have called : Call.Ends meaning tokens last
        ⟨.abstraction, bound, behindBlanks tokens position⟩ :=
      calleesEnd.lower ⟨inside, fun _ => sign⟩ behind (by simp [Routine.rank])
    exact called.delegate behind further further
  -- Another token is refused where it stands, and makes up for no atom.
  next => exact .error _ behind inside further

/-- Each call comes to a result. -/
theorem Call.Placed.ends {call : Call} (placed : call.Placed tokens last) :
    call.Ends meaning tokens last := by
  -- Each call is made further on, or at the same place for a routine of lower rank.
  induction budget : call.budget last using Nat.strongRecOn generalizing call with
  | ind budget ih =>
    subst budget
    have calleesEnd : call.CalleesEnd meaning tokens last :=
      fun callee placed less => ih _ less placed rfl
    obtain ⟨routine, bound, position⟩ := call
    -- Each routine has its lemma.
    cases routine with
    | expression => exact ends_expression ended placed.within calleesEnd
    | abstraction => exact ends_abstraction ended (placed.sign rfl) placed.within calleesEnd
    | binders names => exact ends_binders ended placed.within calleesEnd
    | application => exact ends_application placed.within calleesEnd
    | arguments func => exact ends_arguments ended placed.within calleesEnd
    | atom => exact ends_atom ended placed.within calleesEnd

/-- Reading a whole term comes to a result. -/
theorem ends_completed {first : Nat} (within : first ≤ last) :
    Ends meaning tokens last (completed tokens first) 0 0 0 := by
  -- The expression is called first, and behind it only a token is looked at.
  have placed : Call.Placed tokens last ⟨.expression, [], first⟩ := ⟨within, by simp⟩
  refine (placed.ends ended).call (Nat.zero_le _) (Nat.zero_le _) fun term between _ within => ?_
  have behind := le_behindBlanks tokens between
  have inside := behindBlanks_le ended within
  dsimp only
  split
  next => exact .ok _ behind inside (Nat.zero_le _) behind
  next => exact .error _ behind inside (Nat.le_succ_of_le behind)

/-- Reading a text comes to a result, whichever tokens it begins with. -/
theorem ends_entry (entry : Entry) : Ends meaning tokens last (entry.plan tokens) 0 0 0 := by
  -- Before the term of a definition come its name and the sign.
  cases entry with
  | term => exact ends_completed ended (Nat.zero_le _)
  | definition =>
    have name := behindBlanks_le ended (Nat.zero_le last)
    simp only [Entry.plan]
    split
    next _ named =>
      have sign := behindBlanks_le ended (lt_of_peek ended named (by simp) name)
      split
      next signed => exact ends_completed ended (lt_of_peek ended signed (by simp) sign)
      next => exact .error _ (Nat.zero_le _) sign (Nat.zero_le _)
    next => exact .error _ (Nat.zero_le _) name (Nat.zero_le _)

end

/-- Reading a text by recursive descent, as a term or as a definition, comes to one result, which is
what is read off the text. The calls on the way move along the tokens: none moves past the end, the
last token, and each that succeeds has moved forward, apart from a loop that finds no more
arguments. Atoms are called for no more often than there are tokens. -/
theorem descent_ends {source : String} {tokens : List Token} (cut : tokensOf source = .ok tokens)
    (meaning : Name → Option Term) (entry : Entry) :
    ∃ last after log, tokens.length = last + 1 ∧ tokens[last]? = some .eof ∧
      (∀ result stop calls, Runs meaning tokens (entry.plan tokens) result stop calls ↔
        result = entry.outcome meaning source ∧ stop = after ∧ calls = log) ∧
      after ≤ last ∧ (∀ returned ∈ log, returned.Moves last) ∧
      log.countP Return.forAtom ≤ tokens.length := by
  -- The end of the text is the last token.
  obtain ⟨inside, rfl, -⟩ := tokensOf_ended cut
  have final : (inside ++ [.eof])[inside.length]? = some Token.eof := by simp
  have ended : peek (inside ++ [.eof]) inside.length = .eof := by rw [peek, final, Option.getD_some]
  have reads : Ends meaning (inside ++ [.eof]) inside.length (entry.plan _) 0 0 0 :=
    ends_entry ended entry
  obtain ⟨result, after, log, ends⟩ := reads
  -- The descent comes to some result, and there is only one it can come to.
  obtain rfl := eq_outcome_of_runs cut ends.runs
  refine ⟨inside.length, after, log, List.length_append, final, fun result stop calls => ?_,
    ends.within, ends.moves, ?_⟩
  · constructor
    · exact ends.runs.unique
    · rintro ⟨rfl, rfl, rfl⟩
      exact ends.runs
  · -- One atom more than the tokens before the end may be called for, where it is refused.
    have taken := ends.atoms
    have within := ends.within
    have refused := slack_le (entry.outcome meaning source)
    rw [List.length_append, List.length_singleton]
    omega

/-- A definition is read with its calls between its sign and its end. -/
theorem descent_ends_definition :
    let tokens := [.ident "I", .blank, .equals, .lambda, .ident "x", .dot, .ident "x", .eof]
    tokensOf "I = λx.x" = .ok tokens ∧
      ∃ after log,
        (∀ result stop calls,
          Runs (fun _ => none) tokens (Entry.definition.plan tokens) result stop calls ↔
            result = .ok (.lam "x" (.var "x")) ∧ stop = after ∧ calls = log) ∧
        after ≤ 7 ∧ (∀ returned ∈ log, returned.Moves 7) ∧ log.countP Return.forAtom ≤ 8 := by
  intro tokens
  -- The tokens and the outcome are evaluated, and the last position is that of the end.
  have cut : tokensOf "I = λx.x" = .ok tokens := by decide +kernel
  have outcome : Entry.definition.outcome (fun _ => none) "I = λx.x" =
      .ok (.lam "x" (.var "x")) := by decide +kernel
  obtain ⟨last, after, log, length, -, runs, within, moves, atoms⟩ :=
    descent_ends cut (fun _ => none) .definition
  obtain rfl : last = 7 := by simpa [tokens] using length
  rw [outcome] at runs
  exact ⟨cut, after, log, runs, within, moves, atoms⟩

end NamedLambda.Descent
