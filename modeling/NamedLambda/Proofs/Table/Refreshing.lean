import NamedLambda.Proofs.Source.Names
import NamedLambda.Proofs.Table.Inlining
import NamedLambda.Proofs.Table.Reading
import NamedLambda.Proofs.Term.Bare

/-! To refresh a term is to read its text again. -/

namespace NamedLambda

/-- Where references are known under a new meaning, the text that wrote them is resolved under it to
the term with its references renewed. -/
theorem Term.scope?_relink {before after : Name → Option Term} {plain term : Term}
    {bound : List Name} (absent : ∀ name, name ∉ plain.references)
    (scopes : plain.scope? (fun name => (before name).map (ref name)) bound = some term)
    (known : ∀ name ∈ term.references, (after name).isSome) :
    plain.scope? (fun name => (after name).map (ref name)) bound = some (term.relink after) := by
  -- Whether a name becomes a reference depends on the names bound around it, not on its meaning.
  induction plain generalizing bound term with
  | var name =>
    rw [scope?] at scopes ⊢
    split at scopes
    · -- A free macro name becomes a reference under both meanings.
      rename_i refers
      rw [if_pos refers]
      obtain ⟨resolved, -, rfl⟩ := Option.map_eq_some_iff.mp scopes
      obtain ⟨renewed, found⟩ :=
        Option.isSome_iff_exists.mp (known name (NameSet.mem_singleton.mpr rfl))
      rw [relink, found, Option.map_some, Option.getD_some]
    · -- Any other name stays a variable, whatever macros mean.
      rename_i stays
      rw [if_neg stays]
      obtain rfl := Option.some.inj scopes
      rfl
  | lam binder body ih =>
    obtain ⟨inner, inBody, rfl⟩ := Option.map_eq_some_iff.mp scopes
    rw [scope?, ih absent inBody known, Option.map_some, relink]
  | app func arg funcIh argIh =>
    obtain ⟨newFunc, newArg, inFunc, inArg, rfl⟩ := scope?_app_eq_some scopes
    obtain ⟨funcKnown, argKnown⟩ := forall_references_app.mp known
    simp only [references, NameSet.mem_union, not_or, forall_and] at absent
    rw [scope?, funcIh absent.1 inFunc funcKnown, argIh absent.2 inArg argKnown]
    rfl
  | ref name resolved => exact absurd (NameSet.mem_singleton.mpr rfl) (absent name)

namespace Table

/-- A text that is read with one table is read with another as its term refreshed there, exactly
when the other table has all macros that the term refers to. -/
theorem readTerm_eq_refresh_iff {table other : Table} {strategy otherStrategy : Strategy}
    {source : String} {term : Term} (found : table.readTerm strategy source = .ok term) :
    other.readTerm otherStrategy source = .ok (other.refresh otherStrategy term) ↔
      ∀ name ∈ term.references, other.contains name := by
  constructor
  · -- What is read refers only to macros of the table that it is read with.
    intro again name member
    refine (refresh_of_written (readTerm_written again)).2 name ?_
    rwa [refresh, Term.references_relink]
  · -- Read plainly the text is the same term for both tables.
    intro defined
    obtain ⟨plain, plainly, scopes⟩ := exists_readPlainTerm found
    refine readTerm_of_scope? plainly ?_
    refine Term.scope?_relink (readPlainTerm_names plainly).2 scopes (fun name member => ?_)
    have known := defined name member
    rwa [← other.reference?_isSome otherStrategy, reference?, Option.isSome_map] at known

/-- The changes that define an identity and then put a function of two steps in its place. -/
def slowIdentity : List TableChange :=
  [.define "I" (.lam "x" (.var "x")),
    .define "I" (.lam "x" (.app (.lam "y" (.var "y")) (.var "x")))]

/-- A bound name is left alone, and a free one follows its macro to a later body and to the value of
another strategy. -/
theorem readTerm_eq_refresh_slowIdentity :
    let shadowed := Term.lam "I" (.var "I")
    (ofChanges 9 (slowIdentity.take 1)).readTerm .normal "(λI.I) I" =
        .ok (.app shadowed (.ref "I" (.lam "x" (.var "x")))) ∧
      (ofChanges 1 slowIdentity).contains "I" ∧
      (ofChanges 1 slowIdentity).readTerm .callByValue "(λI.I) I" =
        .ok (.app shadowed (.ref "I" (.lam "x" (.app (.lam "y" (.var "y")) (.var "x"))))) := by
  -- What is read and what it is refreshed to are computed; the theorem says what is read again.
  intro shadowed
  have found : (ofChanges 9 (slowIdentity.take 1)).readTerm .normal "(λI.I) I" =
      .ok (.app shadowed (.ref "I" (.lam "x" (.var "x")))) := by decide +kernel
  have defined : (ofChanges 1 slowIdentity).contains "I" := by decide +kernel
  have refreshed : (ofChanges 1 slowIdentity).refresh .callByValue
      (.app shadowed (.ref "I" (.lam "x" (.var "x")))) =
        .app shadowed (.ref "I" (.lam "x" (.app (.lam "y" (.var "y")) (.var "x")))) := by
    decide +kernel
  refine ⟨found, defined, ?_⟩
  rw [← refreshed]
  refine (readTerm_eq_refresh_iff found).mpr (fun name member => ?_)
  obtain rfl : name = "I" := by simpa [shadowed, Term.references] using member
  exact defined

end Table

end NamedLambda
