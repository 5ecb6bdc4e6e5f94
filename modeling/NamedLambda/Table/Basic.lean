import NamedLambda.Name.Map
import NamedLambda.Table.Definition
import NamedLambda.Table.Graph
import NamedLambda.Term.References

/-! A table holds the macros of a session and says what a reference to each of them stands for. -/

namespace NamedLambda

/-- The macros that are defined, and the budget for finding the values of a body. -/
structure Table where
  /-- The definitions by name. -/
  definitions : NameMap Definition
  /-- The rounds allowed to each search for a value. -/
  budget : Nat
deriving DecidableEq, Repr

namespace Table

/-- The table without macros. -/
def empty (budget : Nat) : Table :=
  ⟨∅, budget⟩

/-- The number of macros. -/
def size (table : Table) : Nat :=
  table.definitions.size

/-- The definition of a macro. -/
def get? (table : Table) (name : Name) : Option Definition :=
  table.definitions.get? name

/-- Whether a macro is defined. -/
def contains (table : Table) (name : Name) : Bool :=
  table.definitions.contains name

/-- The table with its macros removed. -/
def clear (table : Table) : Table :=
  empty table.budget

/-- The table with a definition stored under a name. -/
def store (table : Table) (name : Name) (definition : Definition) : Table :=
  ⟨table.definitions.insert name definition, table.budget⟩

/-- The macros that each body refers to. -/
def graph (table : Table) : Graph :=
  table.definitions.mapValues (fun definition => definition.body.references)

/-- The names of all macros, each after those its body refers to. -/
def order (table : Table) : List Name :=
  match table.graph.order with
  | .ok names => names
  -- Without an order that respects the references, the order of the names serves.
  | .error _ => table.definitions.keys

/-- What a macro stands for under a strategy, following references to a limited depth. -/
def resolveWithin (table : Table) (strategy : Strategy) : (depth : Nat) → Name → Option Term
  | 0, _ => none
  | depth + 1, name =>
    -- A value is taken as it is, and a body has its references resolved first.
    (table.get? name).map (fun definition =>
      (definition.values.valueFor? strategy).getD
        (definition.body.relink (table.resolveWithin strategy depth)))

/-- What a macro stands for under a strategy: its value, or else its body. -/
def resolve? (table : Table) (strategy : Strategy) (name : Name) : Option Term :=
  -- Without cycles no chain of references is longer than the table.
  table.resolveWithin strategy table.size name

/-- A reference to a macro, with what it stands for under a strategy. -/
def reference? (table : Table) (strategy : Strategy) (name : Name) : Option Term :=
  (table.resolve? strategy name).map (.ref name ·)

/-- A reference to a macro, which has to be defined. -/
def reference (table : Table) (strategy : Strategy) (name : Name) :
    Except DefinitionError Term :=
  match table.reference? strategy name with
  | some term => .ok term
  | none => .error (.unbound name)

/-- The term whose references stand for what the table now says. -/
def refresh (table : Table) (strategy : Strategy) (term : Term) : Term :=
  term.relink (table.resolve? strategy)

end Table

end NamedLambda
