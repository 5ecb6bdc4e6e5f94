import NamedLambda.Proofs.Source.Names
import NamedLambda.Proofs.Source.Rereading

/-! A definition is read as the name before its sign and the term behind it, so that a printed body
is read back. -/

namespace NamedLambda

/-- What comes behind a token other than the end still ends the text. -/
theorem Token.Ended.behind {token : Token} {tokens rest : List Token} (ended : Token.Ended tokens)
    (suffix : token :: rest <:+ tokens) (more : token ≠ .eof) : Token.Ended rest := by
  obtain ⟨inside, rfl, each⟩ := ended
  obtain ⟨before, same⟩ := suffix
  rcases List.eq_nil_or_concat rest with rfl | ⟨front, last, rfl⟩
  · -- The token itself would be the end.
    have ends := List.append_inj_right' same rfl
    simp [more] at ends
  · -- Otherwise the last of the tokens behind it is the end.
    have parts : (before ++ token :: front) ++ [last] = inside ++ [.eof] := by simpa using same
    obtain ⟨rfl, ends⟩ := List.append_inj' parts rfl
    obtain rfl : last = .eof := by simpa using ends
    exact ⟨front, List.concat_eq_append, fun other member => each other (by simp [member])⟩

namespace Reader

/-- Blanks in front are skipped up to the first word. -/
theorem exists_of_skipBlanks {tokens words : List Token} {token : Token} (position : Nat)
    (same : tokens.filter (· ≠ .blank) = token :: words) :
    ∃ next later, skipBlanks position tokens = (next, token :: later) ∧
      later.filter (· ≠ .blank) = words := by
  -- What is left after the blanks begins with a token that is kept among the words.
  fun_induction skipBlanks position tokens with
  | case1 position rest ih => exact ih (by simpa using same)
  | case2 position tokens solid =>
    cases tokens with
    -- Without a token there is no word.
    | nil => simp at same
    | cons first later =>
      have apart : first ≠ .blank := fun blank => solid later (by rw [blank])
      rw [List.filter_cons_of_pos (by simpa using apart)] at same
      obtain ⟨rfl, rest⟩ := List.cons.inj same
      exact ⟨position, later, rfl, rest⟩

/-- What is left behind blanks in front is the last part of the tokens. -/
theorem skipBlanks_suffix (position : Nat) (tokens : List Token) :
    (skipBlanks position tokens).2 <:+ tokens := by
  -- Each blank is taken off the front.
  fun_induction skipBlanks position tokens with
  | case1 position rest ih => exact ih.trans (List.suffix_cons _ rest)
  | case2 position tokens solid => exact List.suffix_rfl

variable {meaning : Name → Option Term} {tokens : List Token} {name : Name} {body : Term}

/-- The words of a definition are read as its name and the term of the words behind its sign. -/
theorem readDefinition_of_filter {words : List Token}
    (same : tokens.filter (· ≠ .blank) = .ident name :: .equals :: words)
    (reads : read meaning 0 start words = .ok body) :
    readDefinition meaning tokens = .ok (name, body) := by
  -- The first two words are found behind their blanks, and the body in what is left.
  obtain ⟨behindName, later, named, rest⟩ := exists_of_skipBlanks 0 same
  obtain ⟨behindSign, last, signed, inBody⟩ := exists_of_skipBlanks (behindName + 1) rest
  rw [← inBody, ← read_eq_ok_iff_filter meaning (behindSign + 1) 0] at reads
  simp [readDefinition, named, signed, reads, Except.map]

/-- The body of a definition is read from all that comes behind its sign. -/
theorem exists_of_readDefinition (found : readDefinition meaning tokens = .ok (name, body)) :
    ∃ position rest, .equals :: rest <:+ tokens ∧ read meaning position start rest = .ok body := by
  -- The name and the sign are taken off the front, each behind its blanks.
  unfold readDefinition at found
  split at found
  · rename_i position other later named
    split at found
    · rename_i next rest signed
      obtain ⟨term, inBody, same⟩ := Lexer.exists_of_map_eq_ok found
      -- Behind the name and behind the sign the tokens go on to their end.
      have behindName : later <:+ tokens := by
        have suffix := skipBlanks_suffix 0 tokens
        rw [named] at suffix
        exact (List.suffix_cons _ later).trans suffix
      have behindSign := skipBlanks_suffix (position + 1) later
      rw [signed] at behindSign
      exact ⟨next + 1, rest, behindSign.trans behindName, (Prod.mk.inj same).2 ▸ inBody⟩
    · contradiction
  · contradiction

end Reader

namespace Term

/-- A term that its text says, once the macro names of the text are resolved. -/
structure Rereadable (term : Term) : Prop where
  /-- All variables and binders can be written. -/
  named : ∀ name ∈ term.names, isIdentifier name
  /-- No reference is below a binder of its name. -/
  shows : term.showsReferences []

/-- References that are made of free macro names show. -/
theorem showsReferences_of_scope? {values : Name → Option Term} {plain term : Term}
    {bound : List Name} (absent : ∀ name, name ∉ plain.references)
    (scopes : plain.scope? (fun name => (values name).map (ref name)) bound = some term) :
    term.showsReferences bound := by
  -- A name becomes a reference only where nothing binds it.
  induction plain generalizing bound term with
  | var name =>
    simp only [scope?] at scopes
    split at scopes
    · rename_i free
      obtain ⟨resolved, -, rfl⟩ := Option.map_eq_some_iff.mp scopes
      exact (Bool.and_eq_true_iff.mp free).2
    · obtain rfl := Option.some.inj scopes
      rfl
  | lam binder body ih =>
    obtain ⟨inner, inBody, rfl⟩ := Option.map_eq_some_iff.mp scopes
    rw [showsReferences]
    exact ih absent inBody
  | app func arg funcIh argIh =>
    obtain ⟨newFunc, newArg, inFunc, inArg, rfl⟩ := scope?_app_eq_some scopes
    simp only [references, NameSet.mem_union, not_or, forall_and] at absent
    rw [showsReferences, funcIh absent.1 inFunc, argIh absent.2 inArg]
    rfl
  -- The text itself has no references.
  | ref name resolved => exact absurd (NameSet.mem_singleton.mpr rfl) (absent name)

end Term

/-- The text of a definition is read as its name and its body, with the macro names resolved. -/
theorem ReadsAs.readDefinition {meaning : Name → Option Term} {name : Name} {text : String}
    {term resolved : Term} (identifier : isIdentifier name)
    (reads : ReadsAs .expression text.toList term)
    (resolves : term.scope? meaning [] = some resolved) :
    NamedLambda.readDefinition meaning (name ++ " = " ++ text) = .ok (name, resolved) := by
  obtain ⟨words, spells, derived⟩ := reads
  have line : Spells (name ++ " = " ++ text).toList ([.ident name] ++ .equals :: words) := by
    -- Neither a blank nor the sign goes on with the name before it.
    have behindName : Spells (' ' :: '=' :: ' ' :: text.toList) (.equals :: words) :=
      .blank (by decide) (.sign rfl (.blank (by decide) spells))
    simpa using (Spells.ident identifier).append (by decide) behindName
  -- The tokens of the line have these words, of which the reader finds the first two.
  obtain ⟨tokens, cut, same⟩ := line.tokensOf
  simp only [NamedLambda.readDefinition, cut, bind, Except.bind]
  exact Reader.readDefinition_of_filter same (derived.read_start resolves 0)

/-- A body that is read from a definition can be read again. -/
theorem rereadable_of_readDefinition {values : Name → Option Term} {source : String} {name : Name}
    {body : Term}
    (found : readDefinition (fun name => (values name).map (.ref name)) source = .ok (name, body)) :
    body.Rereadable := by
  cases cut : tokensOf source with
  -- A text that is not cut into tokens defines nothing.
  | error error => simp [readDefinition, cut, bind, Except.bind] at found
  | ok tokens =>
    simp only [readDefinition, cut, bind, Except.bind] at found
    -- The tokens behind the sign are read like those of a whole text.
    obtain ⟨position, rest, suffix, inBody⟩ := Reader.exists_of_readDefinition found
    obtain ⟨plain, plainly, scopes⟩ := Reader.exists_read_plain inBody
    have ended := (tokensOf_ended cut).behind suffix (by simp)
    obtain ⟨named, absent⟩ := Reader.read_plain_names ended plainly
    exact ⟨fun used member => named used (Term.names_scope? scopes member),
      Term.showsReferences_of_scope? absent scopes⟩

/-- A closed body is read back from the line that defines it, with its references renewed. -/
theorem Term.Rereadable.readDefinition {values : Name → Option Term} {name : Name} {body : Term}
    (rereadable : body.Rereadable) (named : isMacroName name) (closed : body.Closed)
    (known : ∀ other ∈ body.references, isMacroName other ∧ (values other).isSome) :
    NamedLambda.readDefinition (fun name => (values name).map (ref name))
      (name ++ " = " ++ body.text) = .ok (name, body.relink values) := by
  -- References are to macros, whose names can be written as well.
  have legible : body.Legible := by
    rintro other (inNames | inReferences)
    · exact rereadable.named other inNames
    · exact isIdentifier_of_isMacroName (known other inReferences).1
  -- The names of the text are resolved just where references were printed.
  refine (readsAs_text legible).expression.readDefinition (isIdentifier_of_isMacroName named) ?_
  rw [scope?_unlink known (fun other free _ => absurd free (by simp [closed other])),
    asPrinted_eq_self rereadable.shows]

end NamedLambda
