import NamedLambda.Error
import NamedLambda.Source.Reader
import NamedLambda.Table.Define
import NamedLambda.Table.Folding

/-! Source texts may refer to the macros of a table and define new ones. -/

namespace NamedLambda

/-- A run with its value folded, if it found one. -/
structure FoldedRun where
  /-- The run as it went. -/
  run : Run
  /-- The folded value, and whether folding changed it. -/
  folded : Option (Term × Bool)
deriving DecidableEq, Repr

namespace Table

/-- The term that a source text writes with the macros of the table. -/
def readTerm (table : Table) (strategy : Strategy) (source : String) : Except ReadError Term :=
  NamedLambda.readTerm (table.reference? strategy) source

/-- The name and the body of the definition that a source text writes. -/
def readDefinition (table : Table) (source : String) : Except ReadError (Name × Term) :=
  NamedLambda.readDefinition (table.reference? .normal) source

/-- The table with the definition that a source text writes, and the run of its body. -/
def defineSource (table : Table) (source : String) : Except Error (Table × Run) := do
  let (name, body) ← (table.readDefinition source).mapError .read
  (table.define name body).mapError .definition

/-- The value of a source text under a strategy. -/
def evaluateSource (table : Table) (strategy : Strategy) (source : String) (budget : Nat) :
    Except Error Term := do
  let term ← (table.readTerm strategy source).mapError .read
  (term.evaluate strategy budget).result.mapError .limit

/-- The run of a source text under a strategy, with its value folded under the same strategy. -/
def evaluateFolded (table : Table) (strategy : Strategy) (source : String) (budget : Nat) :
    Except ReadError FoldedRun :=
  (table.readTerm strategy source).map (fun term =>
    -- A run without a value has nothing to fold.
    let run := term.evaluate strategy budget
    ⟨run, run.value.map (table.fold strategy)⟩)

end Table

end NamedLambda
