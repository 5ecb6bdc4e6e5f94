import NamedLambda.Proofs.Table.History

/-! A table accepts exactly the definitions that keep it sound, and names the first fault
of the others. -/

namespace NamedLambda

/-- A cycle is one along every relation that leads from each of its names to the same names. -/
theorem IsCycle.imp {leadsTo leadsToo : Name → Name → Prop} {cycle : List Name}
    (closed : IsCycle leadsTo cycle)
    (follows : ∀ name other, name ∈ cycle → leadsTo name other → leadsToo name other) :
    IsCycle leadsToo cycle := by
  -- Only the chain speaks of the relation.
  obtain ⟨first, later, same, distinct, chain⟩ := closed
  refine ⟨first, later, same, distinct, chain.imp_of_mem_imp ?_⟩
  exact fun name other member _ leads => follows name other member leads

namespace Table

/-- What a table asks of a definition. -/
structure Admits (table : Table) (name : Name) (body : Term) : Prop where
  /-- The name is a macro name. -/
  named : isMacroName name
  /-- The body has no free variable. -/
  closed : body.Closed
  /-- The macros that the body refers to are defined, or are the new one. -/
  bound : ∀ other ∈ body.references, table.contains other ∨ other = name
  /-- No macro that the body refers to leads to the new one, nor is the new one. -/
  apart : ∀ other ∈ body.references, ¬Relation.ReflTransGen table.RefersTo other name

/-- The error that names the first thing a definition lacks. -/
inductive Refuses (table : Table) (name : Name) (body : Term) : DefinitionError → Prop where
  /-- The name is no macro name. -/
  | invalidName (unnamed : ¬isMacroName name) : Refuses table name body (.invalidName name)
  /-- The name is one, but a variable is free in the body. -/
  | notClosed {variableName : Name} (named : isMacroName name)
      (free : body.occursFree variableName) :
      Refuses table name body (.notClosed name variableName)
  /-- The body is closed, but a macro that it refers to is not defined. -/
  | unbound {other : Name} (named : isMacroName name) (closed : body.Closed)
      (member : other ∈ body.references) (unknown : ¬table.contains other)
      (different : other ≠ name) : Refuses table name body (.unbound other)
  /-- All macros are defined, but one of them leads to the new one, which is on the cycle. -/
  | cyclic {other : Name} {cycle : List Name} (named : isMacroName name) (closed : body.Closed)
      (bound : ∀ other ∈ body.references, table.contains other ∨ other = name)
      (member : other ∈ body.references) (leads : Relation.ReflTransGen table.RefersTo other name)
      (returns : IsCycle (table.candidate name body).RefersTo cycle) (through : name ∈ cycle) :
      Refuses table name body (.cyclic name cycle)

/-- A definition is not both refused and admitted. -/
theorem Refuses.not_admits {table : Table} {name : Name} {body : Term} {error : DefinitionError}
    (refused : table.Refuses name body error) : ¬table.Admits name body := by
  -- Each error denies one of the conditions.
  intro admitted
  cases refused with
  | invalidName unnamed => exact unnamed admitted.named
  | notClosed _ free => exact absurd free (by simp [admitted.closed _])
  | unbound _ _ member unknown different =>
    rcases admitted.bound _ member with known | same
    · exact unknown known
    · exact different same
  | cyclic _ _ _ member leads => exact admitted.apart _ member leads

/-- What leads to a name does not depend on where the name itself leads. -/
theorem reflTransGen_of_agree {leadsTo leadsToo : Name → Name → Prop} {name other : Name}
    (agree : ∀ start next, start ≠ name → leadsTo start next → leadsToo start next)
    (path : Relation.ReflTransGen leadsTo other name) :
    Relation.ReflTransGen leadsToo other name := by
  -- Up to its first visit to the name a path takes steps of other names only.
  induction path using Relation.ReflTransGen.head_induction_on with
  | refl => exact .refl
  | @head start next leads _ ih =>
    -- A path that is already at the name needs no further step.
    by_cases same : start = name
    · exact same ▸ .refl
    · exact ih.head (agree start next same leads)

/-- The same names lead to the new macro in the candidate table as before. -/
theorem leads_candidate {table : Table} {name : Name} {body : Term} {other : Name} :
    Relation.ReflTransGen (table.candidate name body).RefersTo other name ↔
      Relation.ReflTransGen table.RefersTo other name := by
  -- The tables differ in what the new macro refers to.
  constructor
  · exact reflTransGen_of_agree (fun _ _ different => (refersTo_candidate different).mp)
  · exact reflTransGen_of_agree (fun _ _ different => (refersTo_candidate different).mpr)

/-- The new macro leads back to itself when one of its references leads to it. -/
theorem returns_candidate {table : Table} {name : Name} {body : Term} :
    Relation.TransGen (table.candidate name body).RefersTo name name ↔
      ∃ other ∈ body.references, Relation.ReflTransGen table.RefersTo other name := by
  -- The first step of a way back is a reference of the new body.
  simp only [Relation.TransGen.head'_iff, refersTo_candidate_self, leads_candidate]

/-- A definition that passes its check is admitted. -/
theorem Passes.admits {table : Table} {name : Name} {body : Term} {dependents : List Name}
    (passes : table.Passes name body dependents) : table.Admits name body := by
  refine ⟨passes.named, passes.closed, passes.bound, ?_⟩
  -- The order that the check finds excludes every way back to the new macro.
  obtain ⟨names, found, -⟩ := passes.ordered
  intro other member leads
  have returns := returns_candidate.mpr ⟨other, member, leads⟩
  rw [← dependsOn_graph] at returns
  exact Graph.not_returns_of_order found name returns

/-- Every cycle that a definition would bring into a sound table goes through the new macro. -/
theorem Sound.mem_of_isCycle {table : Table} (sound : table.Sound) {name : Name} {body : Term}
    {cycle : List Name} (returns : IsCycle (table.candidate name body).RefersTo cycle) :
    name ∈ cycle := by
  -- Without the new macro it would have been a cycle before.
  apply Classical.byContradiction
  intro outside
  have before : IsCycle table.RefersTo cycle := by
    apply returns.imp
    intro start next member reference
    have different : start ≠ name := fun same => outside (same ▸ member)
    exact (refersTo_candidate different).mp reference
  obtain ⟨start, member⟩ := before.exists_mem
  exact sound.acyclic start (before.returns member)

/-- A check that fails on a sound table names the first thing that the definition lacks. -/
theorem Sound.refuses_of_check {table : Table} (sound : table.Sound) {name : Name} {body : Term}
    {error : DefinitionError} (checked : table.check name body = .error error) :
    table.Refuses name body error := by
  -- The conditions are tested in the order of the errors.
  unfold check at checked
  split at checked
  · -- First the name itself is tested.
    rename_i unnamed
    obtain rfl := Except.error.inj checked
    exact .invalidName (by simpa using unnamed)
  · rename_i named
    simp only [Bool.not_eq_true', Bool.not_eq_false] at named
    -- Then the body: a variable that is free, a macro that is missing, or neither.
    split at checked
    · rename_i found
      obtain rfl := Except.error.inj checked
      exact .notClosed named (Term.occursFree_of_firstUnbound? found).1
    · rename_i other unfree found
      obtain rfl := Except.error.inj checked
      -- The missing macro is the first reference that is neither defined nor the new name.
      have member := List.mem_of_find?_eq_some found
      have vain := List.find?_some found
      simp only [Bool.and_eq_true, decide_eq_true_eq, Bool.not_eq_true'] at vain
      exact .unbound named (Term.firstFree?_eq_none_iff.mp unfree) (NameSet.mem_toList.mp member)
        (by simp [vain.2]) vain.1
    · rename_i unfree unmissing
      -- Nothing is missing, so that only the order of the macros can have failed.
      rw [← graph_candidate] at checked
      simp only at checked
      split at checked
      · rename_i cycle failed
        obtain rfl := Except.error.inj checked
        -- The search reports a cycle, and the old table had none.
        have returns := Graph.order_isCycle failed
        rw [dependsOn_graph] at returns
        have through := sound.mem_of_isCycle returns
        obtain ⟨other, member, leads⟩ := returns_candidate.mp (returns.returns through)
        exact .cyclic named (Term.firstFree?_eq_none_iff.mp unfree)
          (missing?_eq_none_iff.mp unmissing) member leads returns through
      · contradiction

/-- A sound table accepts what it admits. -/
theorem Sound.exists_of_admits {table : Table} (sound : table.Sound) {name : Name} {body : Term}
    (admits : table.Admits name body) : ∃ after run, table.define name body = .ok (after, run) := by
  -- What a check does not pass is refused, and what is refused is not admitted.
  cases checked : table.check name body with
  | error error => exact absurd admits (sound.refuses_of_check checked).not_admits
  | ok dependents => exact ⟨_, _, by rw [define, checked]⟩

/-- After any changes a table accepts exactly the definitions that it admits, and refuses others
with the error for the first thing they lack. -/
theorem define_accepts (budget : Nat) (changes : List TableChange) (name : Name) (body : Term) :
    ((∃ result, (ofChanges budget changes).define name body = .ok result) ↔
        (ofChanges budget changes).Admits name body) ∧
      ∀ error, (ofChanges budget changes).define name body = .error error →
        (ofChanges budget changes).Refuses name body error := by
  have sound := ofChanges_sound budget changes
  have refused : ∀ error, (ofChanges budget changes).define name body = .error error →
      (ofChanges budget changes).Refuses name body error := by
    -- Errors of a definition are errors of its check.
    intro error failed
    unfold define at failed
    split at failed
    · rename_i checked
      obtain rfl := Except.error.inj failed
      exact sound.refuses_of_check checked
    · contradiction
  refine ⟨⟨?_, ?_⟩, refused⟩
  · -- What is accepted has passed the check.
    intro accepted
    obtain ⟨⟨after, run⟩, defined⟩ := accepted
    obtain ⟨dependents, passes, -⟩ := define_passes defined
    exact passes.admits
  · -- What is not accepted is refused, and what is refused is not admitted.
    intro admitted
    cases defined : (ofChanges budget changes).define name body with
    | ok result => exact ⟨result, rfl⟩
    | error error => exact absurd admitted (refused error defined).not_admits

end Table

end NamedLambda
