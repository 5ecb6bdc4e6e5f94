import NamedLambda.Source.Reader

/-! A reader makes its terms of variables and of the meanings of macro names. -/

namespace NamedLambda

/-- A term made by abstraction and application of variables and of the meanings of macro names. -/
inductive Term.Written (meaning : Name → Option Term) : Term → Prop where
  /-- A variable. -/
  | var (name : Name) : Written meaning (.var name)
  /-- What a macro name stands for. -/
  | reference {name : Name} {term : Term} (named : isMacroName name)
    (found : meaning name = some term) : Written meaning term
  /-- An abstraction. -/
  | lam (binder : Name) {body : Term} (written : Written meaning body) :
    Written meaning (.lam binder body)
  /-- An application. -/
  | app {func arg : Term} (funcWritten : Written meaning func) (argWritten : Written meaning arg) :
    Written meaning (.app func arg)

namespace Reader

variable {meaning : Name → Option Term}

/-- The term that came before an open construct is written, if there is one. -/
def Frame.Written (meaning : Name → Option Term) : Frame → Prop
  | .group before | .abstraction before _ => ∀ term ∈ before, term.Written meaning

/-- All terms that have been read are written. -/
def State.Written (meaning : Name → Option Term) : State → Prop
  | .inExpression frames last | .inBinders frames last _ =>
    (∀ frame ∈ frames, frame.Written meaning) ∧ ∀ term ∈ last, term.Written meaning

/-- A written term applied to a written term is written. -/
theorem extend_written {before : Option Term} {next : Term}
    (beforeWritten : ∀ term ∈ before, term.Written meaning) (nextWritten : next.Written meaning) :
    (extend before next).Written meaning := by
  -- Without a term before it the next one stands alone.
  cases before with
  | none => exact nextWritten
  | some func => exact .app (beforeWritten func rfl) nextWritten

/-- An abstraction over names is written if its body is. -/
theorem closeBinders_written (binders : List Name) {body : Term} (written : body.Written meaning) :
    (closeBinders binders body).Written meaning := by
  -- The names are bound one after the other, from the innermost on.
  induction binders generalizing body with
  | nil => exact written
  | cons binder rest ih => exact ih (.lam binder written)

/-- A group that is closed leaves a written term behind. -/
theorem closeGroup?_written {frames left : List Frame} {body term : Term}
    (framesWritten : ∀ frame ∈ frames, frame.Written meaning) (written : body.Written meaning)
    (closed : closeGroup? frames body = some (left, term)) :
    (∀ frame ∈ left, frame.Written meaning) ∧ term.Written meaning := by
  -- Abstractions that are open inside the group end with it.
  fun_induction closeGroup? frames body with
  | case1 => contradiction
  -- What came before the group is applied to it.
  | case2 before frames body =>
    obtain ⟨first, rest⟩ := List.forall_mem_cons.mp framesWritten
    obtain ⟨rfl, rfl⟩ : frames = left ∧ extend before body = term := by simpa using closed
    exact ⟨rest, extend_written first written⟩
  | case3 before binders frames body ih =>
    obtain ⟨first, rest⟩ := List.forall_mem_cons.mp framesWritten
    exact ih rest (extend_written first (closeBinders_written binders written)) closed

/-- The end of the text completes a written term. -/
theorem closeAll?_written {frames : List Frame} {body term : Term}
    (framesWritten : ∀ frame ∈ frames, frame.Written meaning) (written : body.Written meaning)
    (closed : closeAll? frames body = some term) : term.Written meaning := by
  -- All abstractions that are still open end with the text.
  fun_induction closeAll? frames body with
  | case1 body =>
    obtain rfl : body = term := by simpa using closed
    exact written
  -- A group that is still open leaves the text incomplete.
  | case2 => contradiction
  | case3 before binders frames body ih =>
    obtain ⟨first, rest⟩ := List.forall_mem_cons.mp framesWritten
    exact ih rest (extend_written first (closeBinders_written binders written)) closed

/-- What a name stands for is written. -/
theorem occurrence_written {frames : List Frame} {name : Name} {term : Term}
    (found : occurrence meaning frames name = some term) : term.Written meaning := by
  -- A name that is bound, or no macro name, is a variable.
  unfold occurrence at found
  split at found
  · rename_i free
    exact .reference (Bool.and_eq_true_iff.mp free).1 found
  · obtain rfl : Term.var name = term := by simpa using found
    exact .var name

/-- One more token keeps what has been read written. -/
theorem advance_written {position : Nat} {state next : State} {token : Token}
    (written : state.Written meaning) (advanced : advance meaning position state token = .ok next) :
    next.Written meaning := by
  -- Only names bring new terms, and only closed groups put terms together.
  revert advanced
  fun_cases advance meaning position state token with
  -- Blanks, signs and binders add nothing to the terms that have been read.
  | case1 state =>
    rintro ⟨⟩
    exact written
  | case2 frames head =>
    rintro ⟨⟩
    exact written
  -- A parenthesis puts what came before it into the frame of the group.
  | case3 frames head =>
    rintro ⟨⟩
    exact ⟨List.forall_mem_cons.mpr ⟨written.2, written.1⟩, by simp⟩
  | case4 frames head name term found =>
    rintro ⟨⟩
    exact ⟨written.1, by simpa using extend_written written.2 (occurrence_written found)⟩
  -- A closed group leaves one term in place of several.
  | case6 frames head left term closed =>
    rintro ⟨⟩
    obtain ⟨leftWritten, termWritten⟩ := closeGroup?_written written.1 (written.2 head rfl) closed
    exact ⟨leftWritten, by simpa using termWritten⟩
  | case9 frames before binders name =>
    rintro ⟨⟩
    exact written
  -- A dot puts what came before the abstraction into its frame.
  | case11 frames before binders =>
    rintro ⟨⟩
    exact ⟨List.forall_mem_cons.mpr ⟨written.2, written.1⟩, by simp⟩
  | _ => exact fun refused => nomatch refused

/-- The end of the text completes a written term. -/
theorem finish_written {position : Nat} {state : State} {term : Term}
    (written : state.Written meaning) (finished : finish position state = .ok term) :
    term.Written meaning := by
  -- Only an expression is completed, by closing all that is open in it.
  revert finished
  fun_cases finish position state with
  | case2 frames head other closed =>
    rintro ⟨⟩
    exact closeAll?_written written.1 (written.2 head rfl) closed
  | _ => exact fun refused => nomatch refused

/-- Tokens that are read in a written state complete a written term. -/
theorem read_written {position : Nat} {state : State} {tokens : List Token} {term : Term}
    (written : state.Written meaning) (found : read meaning position state tokens = .ok term) :
    term.Written meaning := by
  -- Every token keeps the state written.
  fun_induction read meaning position state tokens with
  | case1 position state => exact finish_written written found
  | case2 position state => exact finish_written written found
  | case3 position state token rest noEnd next advanced ih =>
    exact ih (advance_written written advanced) found
  | case4 => contradiction

end Reader

/-- A source text writes a term made of variables and of the meanings of macro names. -/
theorem readTerm_written {meaning : Name → Option Term} {source : String} {term : Term}
    (found : readTerm meaning source = .ok term) : term.Written meaning := by
  cases tokenized : tokensOf source with
  -- A text that is not cut into tokens writes no term.
  | error error => simp [readTerm, tokenized, bind, Except.bind] at found
  | ok tokens =>
    simp only [readTerm, tokenized, bind, Except.bind] at found
    refine Reader.read_written ?_ found
    -- Nothing has been read before the first token.
    exact ⟨by simp, by simp⟩

end NamedLambda
