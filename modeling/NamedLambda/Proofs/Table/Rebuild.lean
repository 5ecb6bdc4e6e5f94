import NamedLambda.Proofs.Table.History

/-! A table whose values are forgotten gets the same values back from its bodies. -/

namespace NamedLambda.Table

/-- The table with all values forgotten. -/
def forgetValues (table : Table) : Table :=
  ⟨table.definitions.mapValues (fun definition => ⟨definition.body, .weak none none⟩), table.budget⟩

/-- Forgetting the values keeps the bodies. -/
theorem body?_forgetValues (table : Table) : table.forgetValues.body? = table.body? := by
  -- Each definition keeps its own.
  funext name
  simp [body?, get?, forgetValues, Function.comp_def]

/-- The changes that define two macros, one referring to the other, and redefine the latter. -/
def redefinition : List TableChange :=
  [.define "B" (.lam "x" (.var "x")),
    .define "A" (.app (.ref "B" (.var "z")) (.lam "y" (.var "y"))),
    .define "B" (.lam "x" (.lam "y" (.var "x")))]

/-- Compiling every macro once more, each after those it refers to, finds the values that the table
holds already, whatever changes it went through. -/
theorem recompile_forgetValues (budget : Nat) (changes : List TableChange) {names : List Name}
    (each : names.Perm (ofChanges budget changes).definitions.keys)
    (ordered : (ofChanges budget changes).DependenciesFirst names) :
    (ofChanges budget changes).forgetValues.recompile names = ofChanges budget changes := by
  -- Two tables with the same bodies that are both up to date are the same.
  have sound := ofChanges_sound budget changes
  have bodies := body?_forgetValues (ofChanges budget changes)
  have forgotten := sound.of_bodies bodies.symm
  -- Every macro is on the list.
  have listed : ∀ name body,
      (ofChanges budget changes).forgetValues.body? name = some body → name ∈ names := by
    intro name body found
    rw [bodies] at found
    rw [each.mem_iff, NameMap.mem_keys]
    exact contains_iff.mpr ⟨body, found⟩
  -- No macro is left out, so nothing has to be settled before.
  have settled : (ofChanges budget changes).forgetValues.Settled names := by
    constructor
    · intro name outside definition found
      exact absurd (listed name definition.body (body?_of_get? found)) outside
    · intro name other outside reference
      obtain ⟨body, found, -⟩ := reference
      exact absurd (listed name body found) outside
  have forgottenOrdered : (ofChanges budget changes).forgetValues.DependenciesFirst names := by
    rw [DependenciesFirst, refersTo_congr bodies]
    exact ordered
  have current := settled.recompile forgotten forgottenOrdered
  refine (sound.eq_of_upToDate ?_ ?_ (ofChanges_upToDate budget changes) current).symm
  · rw [body?_recompile, bodies]
  · rw [budget_recompile]
    rfl

/-- Forgotten values are found again after a redefinition that other macros depend on. -/
theorem recompile_forgetValues_redefinition :
    ["B", "A"].Perm (ofChanges 5 redefinition).definitions.keys ∧
      (ofChanges 5 redefinition).DependenciesFirst ["B", "A"] ∧
      (ofChanges 5 redefinition).forgetValues.recompile ["B", "A"] = ofChanges 5 redefinition := by
  -- The two macros are listed against their alphabetical order, the new body first.
  have keys : (ofChanges 5 redefinition).definitions.keys = ["A", "B"] := by decide +kernel
  have each : ["B", "A"].Perm (ofChanges 5 redefinition).definitions.keys := by
    rw [keys]
    exact List.Perm.swap "A" "B" []
  have ordered : (ofChanges 5 redefinition).DependenciesFirst ["B", "A"] := by
    have body : (ofChanges 5 redefinition).body? "B" = some (.lam "x" (.lam "y" (.var "x"))) := by
      decide +kernel
    have apart : ¬(ofChanges 5 redefinition).RefersTo "B" "A" := by
      rw [refersTo_iff body]
      decide
    simpa [DependenciesFirst] using apart
  exact ⟨each, ordered, recompile_forgetValues 5 redefinition each ordered⟩

end NamedLambda.Table
