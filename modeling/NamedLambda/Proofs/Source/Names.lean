import NamedLambda.Proofs.Source.Scoping
import NamedLambda.Term.References
import NamedLambda.Term.Variables

/-! A term that is read has the names of its text, and of its free names none is that of a macro. -/

namespace NamedLambda

namespace Term

/-- The names of an abstraction over several names are these and the names of the body. -/
theorem mem_names_bindAll {binders : List Name} {body : Term} {name : Name} :
    name ∈ (bindAll binders body).names ↔ name ∈ binders ∨ name ∈ body.names := by
  -- Each binder adds itself.
  induction binders with
  | nil => simp [bindAll]
  | cons binder binders ih =>
    have inner : bindAll (binder :: binders) body = lam binder (bindAll binders body) := rfl
    rw [inner, names, NameSet.mem_union, NameSet.mem_singleton, ih, List.mem_cons, or_assoc]

/-- Binding names adds no reference. -/
theorem references_bindAll (binders : List Name) (body : Term) :
    (bindAll binders body).references = body.references := by
  -- The references of an abstraction are those of its body.
  induction binders with
  | nil => rfl
  | cons binder binders ih => exact ih

end Term

/-- The names of a term are among the words that write it. -/
theorem Derives.ident_mem {construct : Construct} {words : List Token} {term : Term}
    (derived : Derives construct words term) {name : Name} (member : name ∈ term.names) :
    .ident name ∈ words := by
  -- Binders and variables are the names that the grammar asks for.
  induction derived with
  | ofAbstraction derived ih => exact ih member
  | ofApplication derived ih => exact ih member
  -- A name of an abstraction is bound by it or is in its body.
  | bind nonempty derived ih =>
    rcases Term.mem_names_bindAll.mp member with among | inBody
    · simp [among]
    · simp [ih inBody]
  | ofChain derived ih => exact ih member
  -- The words of an application are those of its parts.
  | applyLast derived argDerived ih argIh =>
    rw [Term.names, NameSet.mem_union] at member
    exact List.mem_append.mpr (member.imp ih argIh)
  | ofSimple derived ih => exact ih member
  | apply derived argDerived ih argIh =>
    rw [Term.names, NameSet.mem_union] at member
    exact List.mem_append.mpr (member.imp ih argIh)
  | name other =>
    obtain rfl := NameSet.mem_singleton.mp member
    exact List.mem_cons_self
  | group derived ih => simp [ih member]

/-- The grammar knows no references. -/
theorem Derives.not_mem_references {construct : Construct} {words : List Token} {term : Term}
    (derived : Derives construct words term) (name : Name) : name ∉ term.references := by
  -- Every name is derived as a variable.
  induction derived with
  | ofAbstraction derived ih => exact ih
  | ofApplication derived ih => exact ih
  | bind nonempty derived ih => rwa [Term.references_bindAll]
  | ofChain derived ih => exact ih
  | applyLast derived argDerived ih argIh => simp [Term.references, ih, argIh]
  | ofSimple derived ih => exact ih
  | apply derived argDerived ih argIh => simp [Term.references, ih, argIh]
  | name other => exact NameSet.not_mem_empty name
  | group derived ih => exact ih

/-- Where all names can be written, what is read plainly has identifiers as names and refers
to no macro. -/
theorem Reader.read_plain_names {position : Nat} {tokens : List Token} {term : Term}
    (ended : Token.Ended tokens)
    (found : read (fun name => some (.var name)) position start tokens = .ok term) :
    (∀ name ∈ term.names, isIdentifier name) ∧ ∀ name, name ∉ term.references := by
  -- What is read is derived from the words.
  obtain ⟨words, same, solid⟩ := ended.exists_words
  rw [read_eq_ok_iff_filter _ position 0, same] at found
  have derived := (read_plain_iff solid term).mp found
  refine ⟨fun name member => ?_, derived.not_mem_references⟩
  -- The name is a word of the text, and so one of the tokens that it is cut into.
  obtain ⟨inside, together, each⟩ := ended
  have word : .ident name ∈ tokens.filter (· ≠ .blank) := by
    rw [same]
    exact List.mem_append_left _ (derived.ident_mem member)
  have token := (List.mem_filter.mp word).1
  rw [together] at token
  rcases List.mem_append.mp token with among | last
  · exact each _ among
  · simp at last

/-- A term that is read plainly has identifiers as names and refers to no macro. -/
theorem readPlainTerm_names {source : String} {term : Term}
    (found : readPlainTerm source = .ok term) :
    (∀ name ∈ term.names, isIdentifier name) ∧ ∀ name, name ∉ term.references := by
  -- The tokens of a text are such tokens, and blanks do not matter.
  obtain ⟨tokens, cut, read⟩ := readTerm_eq_ok_iff.mp found
  rw [← Reader.read_eq_ok_iff_filter _ 0 0] at read
  exact Reader.read_plain_names (tokensOf_ended cut) read

/-- Tokens that are read with macros are read plainly, with the macro names resolved afterwards. -/
theorem Reader.exists_read_plain {meaning : Name → Option Term} {position : Nat}
    {tokens : List Token} {term : Term} (found : read meaning position start tokens = .ok term) :
    ∃ plain, read (fun name => some (.var name)) position start tokens = .ok plain ∧
      plain.scope? meaning [] = some term := by
  have nothing : State.Tracks meaning start start := .inExpression .nil .none
  cases plainly : read (fun name => some (.var name)) position start tokens with
  -- What plain reading refuses would have been refused here.
  | error error =>
    obtain ⟨other, refused⟩ := read_refuses nothing plainly
    rw [refused] at found
    contradiction
  | ok plain =>
    obtain ⟨uses, -, -, decides⟩ := read_tracks plainly
    have decided := decides start nothing
    refine ⟨plain, rfl, ?_⟩
    -- A name that missed its macro would have been refused.
    cases first : uses.find? (Use.misses meaning) with
    | some use =>
      rw [decided.misses use first] at found
      contradiction
    | none =>
      have known : ∀ use ∈ uses, use.misses meaning = false := by
        simpa [List.find?_eq_none] using first
      obtain ⟨resolved, scopes, same⟩ := decided.resolves known
      rw [found] at same
      rw [scopes, Except.ok.inj same]

/-- A term that is read with macros is one that is read plainly, with its macro names resolved. -/
theorem exists_readPlainTerm {meaning : Name → Option Term} {source : String} {term : Term}
    (found : readTerm meaning source = .ok term) :
    ∃ plain, readPlainTerm source = .ok plain ∧ plain.scope? meaning [] = some term := by
  -- A text is read off its tokens, and these plainly.
  obtain ⟨tokens, cut, read⟩ := readTerm_eq_ok_iff.mp found
  obtain ⟨plain, plainly, scopes⟩ := Reader.exists_read_plain read
  exact ⟨plain, readTerm_eq_ok_iff.mpr ⟨tokens, cut, plainly⟩, scopes⟩

/-- In a term with its macro names resolved no free macro name was without a meaning. -/
theorem Term.isSome_of_scope? {meaning : Name → Option Term} {plain term : Term}
    {bound : List Name} (scopes : plain.scope? meaning bound = some term) {name : Name}
    (free : (name, true) ∈ plain.occurrences bound) (macroName : isMacroName name) :
    (meaning name).isSome := by
  -- Its meaning has been put in its place.
  induction plain generalizing bound term with
  | var other =>
    obtain ⟨rfl, unbound⟩ : name = other ∧ other ∉ bound := by simpa [occurrences] using free
    rw [scope?, if_pos (by simpa [macroName] using unbound)] at scopes
    exact Option.isSome_of_eq_some scopes
  -- What occurs free below a binder has been resolved there.
  | lam binder body ih =>
    obtain ⟨inner, inBody, -⟩ := Option.map_eq_some_iff.mp scopes
    exact ih inBody free
  | app func arg funcIh argIh =>
    obtain ⟨newFunc, newArg, inFunc, inArg, -⟩ := scope?_app_eq_some scopes
    rcases List.mem_append.mp free with inside | inside
    · exact funcIh inFunc inside
    · exact argIh inArg inside
  | ref other resolved => simp [occurrences] at free

/-- A text that is read plainly is read with macros wherever its macro names can be resolved. -/
theorem readTerm_of_scope? {meaning : Name → Option Term} {source : String} {plain term : Term}
    (plainly : readPlainTerm source = .ok plain) (scopes : plain.scope? meaning [] = some term) :
    readTerm meaning source = .ok term := by
  obtain ⟨tokens, -, -, occurrences, decides⟩ := @readTerm_decides meaning _ _ plainly
  -- A use that missed its macro would be a free macro name of the term.
  have known : ∀ use ∈ usesOf tokens plain, use.misses meaning = false := by
    rintro ⟨position, name, free⟩ member
    have occurs : (name, free) ∈ plain.occurrences [] := by
      rw [occurrences]
      exact List.mem_map_of_mem member
    rw [Bool.eq_false_iff]
    intro missed
    obtain ⟨⟨rfl, macroName⟩, unknown⟩ :
        (free = true ∧ isMacroName name) ∧ meaning name = none := by
      simpa [Use.misses] using missed
    have found := Term.isSome_of_scope? scopes occurs macroName
    simp [unknown] at found
  obtain ⟨resolved, same, read⟩ := decides.resolves known
  rw [read, Option.some.inj (same.symm.trans scopes)]

namespace Term

variable {values : Name → Option Term}

/-- Resolving macro names to references brings no names. -/
theorem names_scope? {plain term : Term} {bound : List Name}
    (scopes : plain.scope? (fun name => (values name).map (ref name)) bound = some term)
    {name : Name} (member : name ∈ term.names) : name ∈ plain.names := by
  -- A reference has no names of its own.
  induction plain generalizing bound term with
  | var other =>
    simp only [scope?] at scopes
    split at scopes
    · obtain ⟨resolved, -, rfl⟩ := Option.map_eq_some_iff.mp scopes
      exact absurd member (NameSet.not_mem_empty name)
    · obtain rfl := Option.some.inj scopes
      exact member
  -- The binders are kept, and the names of the parts come from those before.
  | lam binder body ih =>
    obtain ⟨inner, inBody, rfl⟩ := Option.map_eq_some_iff.mp scopes
    simp only [names, NameSet.mem_union] at member ⊢
    exact member.imp_right (ih inBody)
  | app func arg funcIh argIh =>
    obtain ⟨newFunc, newArg, inFunc, inArg, rfl⟩ := scope?_app_eq_some scopes
    simp only [names, NameSet.mem_union] at member ⊢
    exact member.imp (funcIh inFunc) (argIh inArg)
  | ref other resolved =>
    obtain rfl := Option.some.inj scopes
    exact member

/-- Free names that are left are no macro names. -/
theorem isMacroName_of_scope? {plain term : Term} {bound : List Name}
    (scopes : plain.scope? (fun name => (values name).map (ref name)) bound = some term)
    {name : Name} (free : term.occursFree name) (unbound : name ∉ bound) :
    isMacroName name = false := by
  -- A macro name that nothing binds has become a reference.
  induction plain generalizing bound term with
  | var other =>
    simp only [scope?] at scopes
    split at scopes
    · obtain ⟨resolved, -, rfl⟩ := Option.map_eq_some_iff.mp scopes
      contradiction
    · -- A variable that is left was bound, or was not named like a macro.
      rename_i kept
      obtain rfl := Option.some.inj scopes
      obtain rfl : other = name := by simpa [occursFree] using free
      simpa [unbound] using kept
  -- A name that is free in an abstraction is not its binder.
  | lam binder body ih =>
    obtain ⟨inner, inBody, rfl⟩ := Option.map_eq_some_iff.mp scopes
    simp only [occursFree, Bool.and_eq_true, bne_iff_ne] at free
    refine ih inBody free.2 ?_
    rw [List.mem_cons, not_or]
    exact ⟨Ne.symm free.1, unbound⟩
  | app func arg funcIh argIh =>
    obtain ⟨newFunc, newArg, inFunc, inArg, rfl⟩ := scope?_app_eq_some scopes
    simp only [occursFree, Bool.or_eq_true] at free
    rcases free with free | free
    · exact funcIh inFunc free unbound
    · exact argIh inArg free unbound
  | ref other resolved =>
    obtain rfl := Option.some.inj scopes
    contradiction

end Term

end NamedLambda
