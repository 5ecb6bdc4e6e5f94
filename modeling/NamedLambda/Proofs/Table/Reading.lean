import NamedLambda.Proofs.Source.Scoping
import NamedLambda.Proofs.Table.History
import NamedLambda.Table.Source

/-! The free macro names of a source text become references to the macros of a table. -/

namespace NamedLambda

/-- A table has a reference to each of its macros, and to nothing else. -/
theorem Table.reference?_isSome (table : Table) (strategy : Strategy) (name : Name) :
    (table.reference? strategy name).isSome = table.contains name := by
  -- The macro is looked up once, whether it has a value or a body to stand for.
  rw [reference?, Option.isSome_map, resolve?, contains, NameMap.contains, ← get?]
  cases found : table.get? name with
  | none =>
    -- No depth finds a name without a definition.
    rw [resolveWithin_eq_none found]
    rfl
  | some definition =>
    -- A table with a macro has room for one level.
    have positive : 0 < table.size := List.length_pos_of_mem (NameMap.mem_entries_iff.mpr found)
    obtain ⟨depth, size⟩ := Nat.exists_eq_succ_of_ne_zero (Nat.ne_of_gt positive)
    rw [size, resolveWithin, found]
    rfl

/-- A text is read with the macros of a table exactly as it is read plainly, with its free macro
names replaced by the references to the macros; or else the first of these names without a macro is
refused where it stands. What is not read plainly is refused as well. -/
theorem Table.readTerm_scope (table : Table) (strategy : Strategy) (source : String) :
    (∀ term, readPlainTerm source = .ok term → ∃ tokens, tokensOf source = .ok tokens ∧
      (Token.variableNames 0 false tokens).map Prod.snd = (term.occurrences []).map Prod.fst ∧
      (∀ use ∈ usesOf tokens term, tokens[use.position]? = some (.ident use.name)) ∧
      ((∀ use ∈ usesOf tokens term, use.free → isMacroName use.name → table.contains use.name) →
        ∃ linked, term.scope? (table.reference? strategy) [] = some linked ∧
          table.readTerm strategy source = .ok linked) ∧
      ∀ use, (usesOf tokens term).find?
          (fun use => use.free && isMacroName use.name && !table.contains use.name) = some use →
        table.readTerm strategy source = .error (.unboundMacro use.name use.position)) ∧
    ∀ error, readPlainTerm source = .error error →
      ∃ other, table.readTerm strategy source = .error other := by
  -- The reader decides about each use in turn; here its questions are put to the table.
  -- A use without a reference is a free macro name that the table does not define.
  have misses : Use.misses (table.reference? strategy) =
      fun use => use.free && isMacroName use.name && !table.contains use.name := by
    funext use
    rw [Use.misses, ← Option.not_isSome, reference?_isSome]
  refine ⟨?_, fun error refused => readTerm_refuses refused _⟩
  intro term found
  obtain ⟨tokens, cut, positions, occurrences, decides⟩ := readTerm_decides found
  refine ⟨tokens, cut, ?_, ?_, ?_, ?_⟩
  · -- The names in the text are the variables of the term, from left to right.
    rw [positions, occurrences, List.map_map, List.map_map]
    rfl
  · -- Each use stands where its token does.
    intro use member
    have used : (use.position, use.name) ∈ Token.variableNames 0 false tokens := by
      rw [positions]
      exact List.mem_map_of_mem member
    exact List.mem_zipIdx_iff_getElem?.mp (Token.mem_zipIdx_of_mem_variableNames used)
  · -- With all macros defined no use misses its reference.
    intro defined
    refine decides.resolves (fun use member => ?_)
    have known := defined use member
    rw [misses]
    simpa [imp_iff_not_or, or_assoc] using known
  · -- The first use that misses is refused where it stands.
    rw [← misses]
    exact decides.misses

/-- A name that an abstraction binds stays a variable and behind the abstraction it is a
reference; the first name without a macro is refused where it stands, and a text that goes on is
refused as before. -/
theorem Table.readTerm_scope_shadowed :
    let table := ofChanges 9 [.define "I" (.lam "x" (.var "x"))]
    readPlainTerm "(λI.I) I" = .ok (.app (.lam "I" (.var "I")) (.var "I")) ∧
      table.readTerm .normal "(λI.I) I" =
        .ok (.app (.lam "I" (.var "I")) (.ref "I" (.lam "x" (.var "x")))) ∧
      readPlainTerm "λA.A B C" = .ok (.lam "A" (.app (.app (.var "A") (.var "B")) (.var "C"))) ∧
      table.readTerm .normal "λA.A B C" = .error (.unboundMacro "B" 5) ∧
      readPlainTerm "I)" = .error (.unexpectedToken .endOfInput .closeParen 1) ∧
      ∃ error, table.readTerm .normal "I)" = .error error := by
  -- The table is asked about two names only.
  have identity : (ofChanges 9 [.define "I" (.lam "x" (.var "x"))]).contains "I" = true := by
    decide +kernel
  have undefined : (ofChanges 9 [.define "I" (.lam "x" (.var "x"))]).contains "B" = false := by
    decide +kernel
  have same : (ofChanges 9 [.define "I" (.lam "x" (.var "x"))]).reference? .normal "I" =
      some (.ref "I" (.lam "x" (.var "x"))) := by decide +kernel
  intro table
  change table.contains "I" = true at identity
  change table.contains "B" = false at undefined
  change table.reference? .normal "I" = _ at same
  -- What the three texts are, read plainly.
  have plain : readPlainTerm "(λI.I) I" = .ok (.app (.lam "I" (.var "I")) (.var "I")) := by
    decide +kernel
  have missing : readPlainTerm "λA.A B C" =
      .ok (.lam "A" (.app (.app (.var "A") (.var "B")) (.var "C"))) := by decide +kernel
  have refused : readPlainTerm "I)" = .error (.unexpectedToken .endOfInput .closeParen 1) := by
    decide +kernel
  obtain ⟨tokens, cut, -, -, resolves, -⟩ := (readTerm_scope table .normal "(λI.I) I").1 _ plain
  obtain ⟨others, otherCut, -, -, -, misses⟩ :=
    (readTerm_scope table .normal "λA.A B C").1 _ missing
  -- The tokens and the uses among them are computed for the first two texts.
  have known : tokensOf "(λI.I) I" = .ok [.openParen, .lambda, .ident "I", .dot, .ident "I",
      .closeParen, .blank, .ident "I", .eof] := by decide +kernel
  have otherKnown : tokensOf "λA.A B C" = .ok [.lambda, .ident "A", .dot, .ident "A", .blank,
      .ident "B", .blank, .ident "C", .eof] := by decide +kernel
  obtain rfl := Except.ok.inj (known.symm.trans cut)
  obtain rfl := Except.ok.inj (otherKnown.symm.trans otherCut)
  have uses : usesOf [.openParen, .lambda, .ident "I", .dot, .ident "I", .closeParen, .blank,
      .ident "I", .eof] (.app (.lam "I" (.var "I")) (.var "I")) =
        [⟨4, "I", false⟩, ⟨7, "I", true⟩] := by decide +kernel
  have otherUses : usesOf [.lambda, .ident "A", .dot, .ident "A", .blank, .ident "B", .blank,
      .ident "C", .eof] (.lam "A" (.app (.app (.var "A") (.var "B")) (.var "C"))) =
        [⟨3, "A", false⟩, ⟨5, "B", true⟩, ⟨7, "C", true⟩] := by decide +kernel
  rw [uses] at resolves
  rw [otherUses] at misses
  have macroName : isMacroName "I" = true := by decide
  have otherMacroName : isMacroName "B" = true := by decide
  -- In the first text the one free use has its macro, and in the second the first has none.
  obtain ⟨linked, scopes, found⟩ := resolves (by simp [identity])
  have first := misses ⟨5, "B", true⟩ (by simp [undefined, otherMacroName])
  refine ⟨plain, ?_, missing, first, refused, (readTerm_scope table .normal "I)").2 _ refused⟩
  have linkedIs : linked = .app (.lam "I" (.var "I")) (.ref "I" (.lam "x" (.var "x"))) := by
    simpa [Term.scope?, same, macroName] using scopes.symm
  rw [found, linkedIs]

end NamedLambda
