import NamedLambda.Proofs.Table.Resolution

/-! A definition that passes its check keeps the table sound. -/

namespace NamedLambda.Table

/-- The table with a macro of the given body, before any value is found for it. -/
def candidate (table : Table) (name : Name) (body : Term) : Table :=
  table.store name ⟨body, .weak none none⟩

/-- The body of the candidate macro is the given one, and the others are as before. -/
theorem body?_candidate (table : Table) (name : Name) (body : Term) (other : Name) :
    (table.candidate name body).body? other =
      if other = name then some body else table.body? other :=
  body?_store ..

/-- The macros of the candidate table are those of the table and the new one. -/
theorem contains_candidate {table : Table} {name : Name} {body : Term} {other : Name} :
    (table.candidate name body).contains other ↔ other = name ∨ table.contains other := by
  -- Only the new one has come to have a body.
  rw [contains_iff, contains_iff, body?_candidate]
  by_cases same : other = name
  · simp [same]
  · simp [same]

/-- Other macros refer to the same macros in the candidate table as before. -/
theorem refersTo_candidate {table : Table} {name : Name} {body : Term} {other needed : Name}
    (different : other ≠ name) :
    (table.candidate name body).RefersTo other needed ↔ table.RefersTo other needed := by
  -- Their bodies are the same.
  rw [RefersTo, RefersTo, body?_candidate, if_neg different]

/-- The new macro refers to the macros of the given body. -/
theorem refersTo_candidate_self {table : Table} {name : Name} {body : Term} {needed : Name} :
    (table.candidate name body).RefersTo name needed ↔ needed ∈ body.references :=
  -- The given body is its body.
  refersTo_iff (by rw [body?_candidate, if_pos rfl])

/-- The graph of the candidate table is the one that a check searches. -/
theorem graph_candidate (table : Table) (name : Name) (body : Term) :
    (table.candidate name body).graph = table.graph.insert name body.references := by
  -- Both graphs store the references of the new body in place of old ones.
  apply NameMap.ext_get?
  intro other
  simp only [candidate, graph, store, NameMap.get?_mapValues, NameMap.get?_insert]
  split <;> rfl

/-- What is known of a definition that passes its check. -/
structure Passes (table : Table) (name : Name) (body : Term) (dependents : List Name) : Prop where
  /-- The name is a macro name. -/
  named : isMacroName name
  /-- The body has no free variable. -/
  closed : body.Closed
  /-- The macros that the body refers to are defined, or are the new one. -/
  bound : ∀ other ∈ body.references, table.contains other ∨ other = name
  /-- There is an order of all macros, and the dependents are taken from it. -/
  ordered : ∃ names, (table.candidate name body).graph.order = .ok names ∧
    dependents = (table.candidate name body).graph.affectedBy [name] names

/-- No reference is in vain exactly when every other macro referred to is defined. -/
theorem missing?_eq_none_iff {table : Table} {name : Name} {body : Term} :
    table.missing? name body = none ↔
      ∀ other ∈ body.references, table.contains other ∨ other = name := by
  -- The search looks at every reference.
  simp [missing?, List.find?_eq_none, or_iff_not_imp_right]

/-- A check passes only where all of its conditions hold. -/
theorem check_passes {table : Table} {name : Name} {body : Term} {dependents : List Name}
    (checked : table.check name body = .ok dependents) : table.Passes name body dependents := by
  -- Each test that fails ends the check with an error.
  unfold check at checked
  split at checked
  · -- The name has to be a macro name.
    contradiction
  · rename_i named
    -- The body has to be closed, and its references known.
    split at checked
    · contradiction
    · contradiction
    · rename_i unfree unmissing
      rw [← graph_candidate] at checked
      simp only at checked
      -- Last, the macros with the new one have to have an order.
      split at checked
      · contradiction
      · rename_i names found
        refine ⟨by simpa using named, Term.firstFree?_eq_none_iff.mp unfree,
          missing?_eq_none_iff.mp unmissing, names, found, ?_⟩
        simpa using checked.symm

/-- A definition that passes its check leaves a sound table sound. -/
theorem Passes.sound_candidate {table : Table} {name : Name} {body : Term}
    {dependents : List Name} (passes : table.Passes name body dependents) (sound : table.Sound) :
    (table.candidate name body).Sound := by
  -- The new macro satisfies each condition by its check, and the others as before.
  refine ⟨?_, ?_, ?_, ?_⟩
  · intro other inner found
    rw [body?_candidate] at found
    split at found
    · rename_i same
      rw [same]
      exact passes.named
    · exact sound.named other inner found
  · intro other inner found
    rw [body?_candidate] at found
    split at found
    · obtain rfl : body = inner := by simpa using found
      exact passes.closed
    · exact sound.closed other inner found
  · intro other needed reference
    -- Whatever a body refers to was defined before, or is the new macro.
    rw [contains_candidate]
    by_cases same : other = name
    · rw [same, refersTo_candidate_self] at reference
      exact (passes.bound needed reference).symm
    · exact .inr (sound.bound other needed ((refersTo_candidate same).mp reference))
  · -- The order that the check finds leaves no cycle.
    obtain ⟨names, found, -⟩ := passes.ordered
    rw [← dependsOn_graph]
    exact Graph.not_returns_of_order found

end NamedLambda.Table
