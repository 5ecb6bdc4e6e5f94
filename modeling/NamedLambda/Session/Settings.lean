import NamedLambda.Reduction.Strategy

/-! Settings say how long and in which order a session reduces terms. -/

namespace NamedLambda

/-- The choices that a session starts from. -/
structure Settings where
  /-- The rounds allowed to each search for a value of a macro. -/
  definitionBudget : Nat := 1000
  /-- The rounds allowed to the evaluation of a term. -/
  evaluationBudget : Nat := 1000
  /-- The strategy where none is chosen. -/
  strategy : Strategy := .normal
deriving DecidableEq, Repr

/-- A change of one of the settings. -/
inductive SettingsChange where
  /-- Another budget for the values of macros. -/
  | definitionBudget (budget : Nat)
  /-- Another budget for evaluations. -/
  | evaluationBudget (budget : Nat)
  /-- Another strategy. -/
  | strategy (strategy : Strategy)
deriving DecidableEq, Repr

namespace Settings

/-- The settings with one of them changed. -/
def apply (settings : Settings) : SettingsChange → Settings
  | .definitionBudget budget => { settings with definitionBudget := budget }
  | .evaluationBudget budget => { settings with evaluationBudget := budget }
  | .strategy strategy => { settings with strategy := strategy }

/-- The settings before any change and after each one. -/
def history (settings : Settings) : List SettingsChange → List Settings
  | [] => [settings]
  | change :: rest => settings :: (settings.apply change).history rest

end Settings

end NamedLambda
