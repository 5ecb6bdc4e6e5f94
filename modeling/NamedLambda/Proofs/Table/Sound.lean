import NamedLambda.Name.Macro
import NamedLambda.Proofs.Table.Order
import NamedLambda.Proofs.Term.Closed
import NamedLambda.Table.Basic

/-! A sound table has closed bodies under macro names, which refer to its macros without cycles. -/

namespace NamedLambda.Table

/-- The body of a macro. -/
def body? (table : Table) (name : Name) : Option Term :=
  (table.get? name).map Definition.body

/-- The body of a macro refers directly to another macro. -/
def RefersTo (table : Table) (name other : Name) : Prop :=
  ∃ body, table.body? name = some body ∧ other ∈ body.references

/-- What a table owes to the checks of its definitions; their values play no part in it. -/
structure Sound (table : Table) : Prop where
  /-- Only macro names are defined. -/
  named : ∀ name body, table.body? name = some body → isMacroName name
  /-- No body has a free variable. -/
  closed : ∀ name body, table.body? name = some body → body.Closed
  /-- Every macro that a body refers to is defined. -/
  bound : ∀ name other, table.RefersTo name other → table.contains other
  /-- No macro refers to itself, be it through others. -/
  acyclic : ∀ name, ¬Relation.TransGen table.RefersTo name name

/-- A macro refers to the macros that occur in its body. -/
theorem refersTo_iff {table : Table} {name other : Name} {body : Term}
    (found : table.body? name = some body) :
    table.RefersTo name other ↔ other ∈ body.references := by
  -- It has no other body.
  simp [RefersTo, found]

/-- A macro that has a body is defined. -/
theorem contains_iff {table : Table} {name : Name} :
    table.contains name ↔ ∃ body, table.body? name = some body := by
  -- A definition always has a body.
  simp [contains, NameMap.contains, body?, get?, Option.isSome_iff_exists]

section

variable {table : Table} {name : Name} {definition : Definition}
  (found : table.get? name = some definition)
include found

/-- The body of a macro is that of its definition. -/
theorem body?_of_get? : table.body? name = some definition.body := by
  -- It is looked up there.
  rw [body?, found, Option.map_some]

/-- A macro that has a definition is defined. -/
theorem contains_of_get? : table.contains name :=
  contains_iff.mpr ⟨definition.body, body?_of_get? found⟩

/-- A macro refers to the macros of its body. -/
theorem refersTo_of_get? {other : Name} (member : other ∈ definition.body.references) :
    table.RefersTo name other :=
  (refersTo_iff (body?_of_get? found)).mpr member

end

/-- A definition stored under a name is found there, and the others are found as before. -/
@[simp]
theorem get?_store (table : Table) (name other : Name) (definition : Definition) :
    (table.store name definition).get? other =
      if other = name then some definition else table.get? other :=
  NameMap.get?_insert ..

/-- The body of a definition is found under its name, and the others are found as before. -/
@[simp]
theorem body?_store (table : Table) (name other : Name) (definition : Definition) :
    (table.store name definition).body? other =
      if other = name then some definition.body else table.body? other := by
  -- Only the look-up of the stored name changes.
  simp only [body?, get?_store]
  split <;> rfl

/-- The graph of a table has an edge for each reference of a body. -/
theorem dependsOn_graph (table : Table) : table.graph.DependsOn = table.RefersTo := by
  -- The graph stores the references of each body.
  funext name other
  simp only [Graph.DependsOn, RefersTo, graph, body?, get?, NameMap.get?_mapValues,
    Option.map_eq_some_iff, eq_iff_iff]
  constructor
  · rintro ⟨_, ⟨definition, found, rfl⟩, member⟩
    exact ⟨definition.body, ⟨definition, found, rfl⟩, member⟩
  · rintro ⟨_, ⟨definition, found, rfl⟩, member⟩
    exact ⟨definition.body.references, ⟨definition, found, rfl⟩, member⟩

/-- The names of the graph are the macros of the table. -/
theorem mem_keys_graph {table : Table} {name : Name} :
    name ∈ table.graph.keys ↔ table.contains name := by
  -- Each definition has one entry in the graph.
  simp [NameMap.mem_keys, graph, contains, NameMap.contains]

/-- Tables with the same bodies make the same references. -/
theorem refersTo_congr {left right : Table} (same : left.body? = right.body?) :
    left.RefersTo = right.RefersTo := by
  -- A reference is read off a body.
  funext name other
  simp only [RefersTo, same]

/-- Whether a table is sound shows in its bodies. -/
theorem Sound.of_bodies {left right : Table} (sound : left.Sound)
    (same : left.body? = right.body?) : right.Sound := by
  -- Nothing else is read.
  have refers := refersTo_congr same
  refine ⟨?_, ?_, ?_, ?_⟩
  · rw [← same]; exact sound.named
  · rw [← same]; exact sound.closed
  · intro name other reference
    rw [contains_iff, ← same, ← contains_iff]
    exact sound.bound name other (refers ▸ reference)
  · rw [← refers]; exact sound.acyclic

/-- The empty table is sound. -/
theorem sound_empty (budget : Nat) : (empty budget).Sound := by
  -- It has no bodies.
  have none : ∀ name, (empty budget).body? name = none := fun _ => rfl
  have apart : ∀ name other, ¬(empty budget).RefersTo name other := by
    rintro name other ⟨body, found, -⟩
    simp [none] at found
  refine ⟨?_, ?_, ?_, ?_⟩
  · intro name body found
    simp [none] at found
  · intro name body found
    simp [none] at found
  · exact fun name other reference => absurd reference (apart name other)
  · -- A way back would begin with a reference.
    intro name returns
    obtain ⟨other, reference, -⟩ := Relation.TransGen.head'_iff.mp returns
    exact apart name other reference

namespace Sound

variable {table : Table} (sound : table.Sound)
include sound

/-- A sound table has an order in which each macro comes after those it refers to. -/
theorem exists_order : ∃ names, table.graph.order = .ok names := by
  -- A search that failed would name a cycle.
  cases searched : table.graph.order with
  | ok names => exact ⟨names, rfl⟩
  | error cycle =>
    have closed := Graph.order_isCycle searched
    rw [dependsOn_graph] at closed
    obtain ⟨name, member⟩ := closed.exists_mem
    exact absurd (closed.returns member) (sound.acyclic name)

/-- Macros have ranks below the size of the table that fall along references. -/
theorem exists_rank : ∃ rank : Name → Nat,
    (∀ name other, table.RefersTo name other → rank other < rank name) ∧
      ∀ name, table.contains name → rank name < table.size := by
  -- The place in an order is such a rank.
  obtain ⟨names, found⟩ := sound.exists_order
  obtain ⟨sorted, covers⟩ := Graph.order_sorted found
  refine ⟨fun name => names.idxOf name, ?_, ?_⟩
  · intro name other reference
    have depends : table.graph.DependsOn name other := by rwa [dependsOn_graph]
    exact sorted.idxOf_lt ((covers name).mpr depends.mem_keys) depends
      (mem_keys_graph.mpr (sound.bound name other reference))
  · intro name defined
    -- A place is below the length of the order, which holds each macro once.
    have place := List.idxOf_lt_length_of_mem ((covers name).mpr (mem_keys_graph.mpr defined))
    have count : names.length ≤ table.graph.keys.length :=
      sorted.nodup.length_le_of_subset (fun _ => (covers _).mp)
    rw [NameMap.length_keys] at count
    simp only [graph, NameMap.size, NameMap.mapValues, List.length_map] at count
    exact Nat.lt_of_lt_of_le place count

/-- What holds of a macro as soon as it holds of all that its body refers to holds of all. -/
theorem induct {motive : Name → Prop}
    (step : ∀ name body, table.body? name = some body →
      (∀ other ∈ body.references, motive other) → motive name)
    (name : Name) (defined : table.contains name) : motive name := by
  -- References lead to macros of smaller rank.
  obtain ⟨rank, falls, -⟩ := sound.exists_rank
  induction place : rank name using Nat.strongRecOn generalizing name with
  | ind place' ih =>
    obtain ⟨body, found⟩ := contains_iff.mp defined
    refine step name body found ?_
    intro other member
    have reference : table.RefersTo name other := (refersTo_iff found).mpr member
    exact ih (rank other) (place ▸ falls name other reference) other
      (sound.bound name other reference) rfl

end Sound

end NamedLambda.Table
