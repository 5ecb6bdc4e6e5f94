import NamedLambda.Name.Macro
import NamedLambda.Reduction.Run
import NamedLambda.Table.Basic

/-! Defining a macro checks it, finds its values, and finds those of its dependents again. -/

namespace NamedLambda.Table

/-- The run of a body under a strategy, with references to what the table now says. -/
def evaluateBody (table : Table) (body : Term) (strategy : Strategy) : Run :=
  (table.refresh strategy body).evaluate strategy table.budget

/-- The values of a body, and the run that looked for its normal form. -/
def compile (table : Table) (body : Term) : Values × Run :=
  let run := table.evaluateBody body .normal
  match run.value with
  | some term => (.normalForm term, run)
  -- Only without a normal form are the weaker strategies tried, each from the start.
  | none =>
    (.weak (table.evaluateBody body .callByName).value
      (table.evaluateBody body .callByValue).value, run)

/-- The table with the values of some macros found again, one after the other. -/
def recompile (table : Table) (names : List Name) : Table :=
  names.foldl (fun current name =>
    match current.get? name with
    | none => current
    | some definition =>
      current.store name ⟨definition.body, (current.compile definition.body).1⟩) table

/-- The first macro that a body refers to in vain, where the macro being defined is none. -/
def missing? (table : Table) (name : Name) (body : Term) : Option Name :=
  body.references.toList.find? (fun other => other ≠ name && !table.contains other)

/-- The macros to be compiled again once a body is defined, if the definition is sound. -/
def check (table : Table) (name : Name) (body : Term) : Except DefinitionError (List Name) :=
  if !isMacroName name then .error (.invalidName name)
  else
    -- The faults are looked for in this order, and the first one is named.
    match body.firstFree?, table.missing? name body with
    | some variableName, _ => .error (.notClosed name variableName)
    | none, some other => .error (.unbound other)
    | none, none =>
      let graph := table.graph.insert name body.references
      match Graph.order graph with
      | .error cycle => .error (.cyclic name cycle)
      | .ok names => .ok (Graph.affectedBy graph [name] names)

/-- The table with a macro defined or redefined, and the normal-order run of its body. -/
def define (table : Table) (name : Name) (body : Term) : Except DefinitionError (Table × Run) :=
  match table.check name body with
  | .error error => .error error
  | .ok dependents =>
    -- A sound body reaches no reference to its own macro, so the old table serves to compile it.
    let compiled := table.compile body
    .ok ((table.store name ⟨body, compiled.1⟩).recompile dependents, compiled.2)

end NamedLambda.Table
