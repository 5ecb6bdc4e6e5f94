import NamedLambda.Proofs.Table.Folding

/-! The text of a folded term is read as the folded term, except that a reference below a
binder of its name is read as a variable: folding takes references for closed, whatever the
binders around them. -/

namespace NamedLambda.Table

/-- The text of a folded term is read with the macros of the table as the term that it says. This is
the term that was folded up to bound names exactly when all references show, and then it is the
folded term itself; they do if no macro has the name of a variable or binder. -/
theorem readTerm_fold (budget : Nat) (changes : List TableChange) {strategy : Strategy}
    {term folded : Term} {changed : Bool} (plain : ∀ name, name ∉ term.references)
    (identifiers : ∀ name ∈ term.names, isIdentifier name)
    (unnamed : ∀ name, term.occursFree name → isMacroName name = false)
    (folds : (ofChanges budget changes).fold strategy term = (folded, changed)) :
    (ofChanges budget changes).readTerm strategy folded.text = .ok (folded.asPrinted []) ∧
      ((folded.asPrinted []).alphaEq term ↔ folded.showsReferences []) ∧
      (folded.showsReferences [] → folded.asPrinted [] = folded) ∧
      ((∀ name ∈ term.names, (ofChanges budget changes).contains name = false) →
        folded.showsReferences []) := by
  -- The text of any coherent term reads back as printed; the work is to see that folding keeps the
  -- names legible and the references coherent.
  obtain ⟨sound, current⟩ := ofChanges_sound_upToDate budget changes
  -- Macros mean closed terms, and the term itself makes no reference.
  have known := sound.meanings_coherent current strategy
  -- The folded term differs from the term in references that carry what the table says.
  have replaced := folds_of_fold folds
  have spelled : term.Spelled (fun _ => true) ((ofChanges budget changes).resolve? strategy) :=
    Term.throughout_of_not_mem_references (fun _ _ => rfl) plain
  have coherent := sound.coherent current spelled
  have foldedSpelled := replaced.throughout (sound.meanings_spelled current strategy) spelled
  have foldedCoherent := sound.coherent current foldedSpelled
  refine ⟨sound.readTerm_text ?_ foldedSpelled ?_, ?_, Term.asPrinted_eq_self, ?_⟩
  · -- The names that folding leaves are identifiers, and so are those of macros.
    rintro name (inNames | inReferences)
    · exact identifiers name (replaced.mem_names inNames)
    · obtain ⟨resolved, found⟩ := foldedSpelled.forall_references name inReferences
      exact isIdentifier_of_isMacroName (sound.isMacroName_of_resolve? found)
  · -- Nor does folding free a name.
    intro name free
    rw [replaced.occursFree known coherent] at free
    exact unnamed name free
  · -- A comparison sees the expansion only, and the folded term expands to what the term does.
    have printedCoherent :
        (folded.asPrinted []).Coherent ((ofChanges budget changes).form strategy) :=
      foldedCoherent.asPrinted (fun _ _ => rfl)
    have same : folded.expand.nameless = term.expand.nameless :=
      replaced.namelessUnder_expand known coherent []
    rw [← Term.alphaEq_asPrinted_iff foldedCoherent.carriesClosed,
      Term.alphaEq_iff printedCoherent coherent,
      Term.alphaEq_iff printedCoherent foldedCoherent, same]
  · -- The references that are left are to macros, and folding brings no names.
    intro apart
    refine Term.showsReferences_of_apart (fun name member => ⟨?_, List.not_mem_nil⟩)
    intro used
    obtain ⟨resolved, found⟩ := foldedSpelled.forall_references name member
    have absent := apart name (replaced.mem_names used)
    rw [contains_of_resolve? found] at absent
    contradiction

/-- A reference below a binder of another name is read as one. -/
theorem readTerm_fold_below_binder :
    let identity := Term.lam "x" (.var "x")
    let table := ofChanges 9 [.define "I" identity]
    let term := Term.app (.lam "y" (.lam "x" (.var "x"))) (.var "z")
    let folded := Term.app (.lam "y" (.ref "I" identity)) (.var "z")
    (∀ name, name ∉ term.references) ∧ (∀ name ∈ term.names, isIdentifier name) ∧
      (∀ name, term.occursFree name → isMacroName name = false) ∧
      table.fold .normal term = (folded, true) ∧ folded.text = "(λy.I) z" ∧
      table.readTerm .normal "(λy.I) z" = .ok folded ∧ folded.alphaEq term := by
  -- The table and both texts are computed; the theorem says what is read and that it
  -- means the same.
  have folds : (ofChanges 9 [.define "I" (.lam "x" (.var "x"))]).fold .normal
      (.app (.lam "y" (.lam "x" (.var "x"))) (.var "z")) =
        (.app (.lam "y" (.ref "I" (.lam "x" (.var "x")))) (.var "z"), true) := by decide +kernel
  have text : Term.text (.app (.lam "y" (.ref "I" (.lam "x" (.var "x")))) (.var "z")) =
      "(λy.I) z" := by decide +kernel
  intro identity table term folded
  have plain : ∀ name, name ∉ term.references := by
    simp [term, Term.references, NameSet.mem_union, NameSet.not_mem_empty]
  have identifiers : ∀ name ∈ term.names, isIdentifier name := by
    simp only [term, Term.names, NameSet.mem_union, NameSet.mem_singleton, or_imp, forall_and,
      forall_eq]
    decide
  have unnamed : ∀ name, term.occursFree name → isMacroName name = false := by
    intro name free
    obtain rfl : "z" = name := by simpa [term, Term.occursFree] using free
    decide
  obtain ⟨read, same, asRead, -⟩ := readTerm_fold 9 [.define "I" identity] plain identifiers unnamed
    folds
  -- The only binder around the reference is called otherwise, so that the reference shows.
  have shows : folded.showsReferences [] := by decide
  rw [asRead shows, text] at read
  rw [asRead shows] at same
  exact ⟨plain, identifiers, unnamed, folds, text, read, same.mpr shows⟩

/-- A reference below a binder of its name is read as a variable. -/
theorem readTerm_fold_captured :
    let identity := Term.lam "x" (.var "x")
    let table := ofChanges 9 [.define "I" identity]
    let term := Term.lam "I" (.lam "x" (.var "x"))
    let folded := Term.lam "I" (.ref "I" identity)
    (∀ name, name ∉ term.references) ∧ (∀ name ∈ term.names, isIdentifier name) ∧
      (∀ name, term.occursFree name = false) ∧ table.fold .normal term = (folded, true) ∧
      ∃ back, table.readTerm .normal folded.text = .ok back ∧ back.alphaEq term = false := by
  -- Both the folding and the reading are computed.
  have folds : (ofChanges 9 [.define "I" (.lam "x" (.var "x"))]).fold .normal
      (.lam "I" (.lam "x" (.var "x"))) = (.lam "I" (.ref "I" (.lam "x" (.var "x"))), true) := by
    decide +kernel
  have read : (ofChanges 9 [.define "I" (.lam "x" (.var "x"))]).readTerm .normal
      (Term.text (.lam "I" (.ref "I" (.lam "x" (.var "x"))))) = .ok (.lam "I" (.var "I")) := by
    decide +kernel
  intro identity table term folded
  refine ⟨NameSet.not_mem_empty, ?_, ?_, folds, .lam "I" (.var "I"), read, ?_⟩
  · simp only [term, Term.names, NameSet.mem_union, NameSet.mem_singleton, or_imp, forall_and,
      forall_eq]
    decide
  · simp [term, Term.occursFree]
  · decide

end NamedLambda.Table
