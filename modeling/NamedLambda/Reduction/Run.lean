import NamedLambda.Reduction.Step
import NamedLambda.Term.Text

/-! A run observes a term once a round and steps it until it is a value or the budget is spent. -/

namespace NamedLambda

/-- That a run spent its budget without finding a value. -/
structure LimitExceeded where
  /-- The number of rounds that were allowed. -/
  budget : Nat
deriving DecidableEq, Repr

/-- The message for a run without a value. -/
def LimitExceeded.message (error : LimitExceeded) : String :=
  "Reduction limit of " ++ error.budget.repr ++ " steps exceeded"

/-- What came of reducing a term for a bounded number of rounds. -/
structure Run where
  /-- The term seen in each round, the starting term first. -/
  observed : List Term
  /-- The term that no step applied to, unless the budget was spent before. -/
  value : Option Term
  /-- The number of rounds that were allowed. -/
  budget : Nat
deriving DecidableEq, Repr

namespace Run

/-- The terms seen from a round on, and the value if one is found within the rounds left. -/
def observe (step : Nat → Term → Option Term) :
    (left round : Nat) → Term → List Term × Option Term
  -- A term is known to be a value only by a round in which it does not step.
  | 0, _, _ => ([], none)
  | left + 1, round, term =>
    match step round term with
    | none => ([term], some term)
    | some next =>
      let later := observe step left (round + 1) next
      (term :: later.1, later.2)

/-- The run of a term under steps that may depend on the round. -/
def of (step : Nat → Term → Option Term) (budget : Nat) (start : Term) : Run :=
  let seen := observe step budget 0 start
  ⟨seen.1, seen.2, budget⟩

/-- Whether the budget was spent before a value was found. -/
def timedOut (run : Run) : Bool :=
  run.value.isNone

/-- The value that was found, or the limit that was not enough. -/
def result (run : Run) : Except LimitExceeded Term :=
  match run.value with
  | some value => .ok value
  | none => .error ⟨run.budget⟩

/-- The number of steps done: one after each observation, save that of a value. -/
def steps (run : Run) : Nat :=
  if run.timedOut then run.observed.length else run.observed.length - 1

/-- The texts of the terms seen. -/
def trace (run : Run) : List String :=
  run.observed.map Term.text

/-- The texts of the terms seen, each with the redex of the next step marked. -/
def markedTrace (run : Run) (strategy : Strategy) : List String :=
  run.observed.map (fun term => term.render (strategy.locate term))

end Run

namespace Term

/-- The run of a term under one strategy. -/
def evaluate (term : Term) (strategy : Strategy) (budget : Nat) : Run :=
  Run.of (fun _ => strategy.step?) budget term

/-- The run of a term under several strategies that take turns, one each round. -/
def evaluateInTurns (term : Term) (strategies : List Strategy) (budget : Nat) : Run :=
  Run.of (fun round current => do
    -- Without a strategy there is no step to take.
    let strategy ← strategies[round % strategies.length]?
    strategy.step? current) budget term

/-- The run that takes a term apart, following the part each constructor is headed by. -/
def unwind (term : Term) (budget : Nat) : Run :=
  Run.of (fun _ => peel?) budget term

end Term

end NamedLambda
