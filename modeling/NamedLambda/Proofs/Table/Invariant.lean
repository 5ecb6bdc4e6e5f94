import NamedLambda.Proofs.Reduction.Values
import NamedLambda.Proofs.Table.History

/-! Whatever is defined and cleared, all values of a table are closed abstractions, and everything
that a reference may come to stand for is closed. -/

namespace NamedLambda

/-- A closed abstraction, seen through references, at which a strategy stops. -/
structure ClosedValue (strategy : Strategy) (term : Term) : Prop where
  /-- No variable is free. -/
  closed : term.Closed
  /-- All references stand for closed terms, at every depth. -/
  carries : term.CarriesClosed
  /-- The term is an abstraction, or a reference to one. -/
  applies : term.isAbstraction
  /-- The strategy has no step. -/
  value : strategy.isValue term

/-- What the values of a closed body are. -/
structure Values.WellFormed (values : Values) : Prop where
  /-- A normal form makes the other values superfluous. -/
  exclusive : values.normalForm?.isSome → values.byName? = none ∧ values.byValue? = none
  /-- A normal form has no references and is a value under every strategy. -/
  normalForm : ∀ term, values.normalForm? = some term →
    (∀ name, name ∉ term.references) ∧ ∀ strategy, ClosedValue strategy term
  /-- What call by name found is a value under it. -/
  byName : ∀ term, values.byName? = some term → ClosedValue .callByName term
  /-- What call by value found is a value under it. -/
  byValue : ∀ term, values.byValue? = some term → ClosedValue .callByValue term

/-- The value that serves a strategy is one under this strategy. -/
theorem Values.WellFormed.valueFor {values : Values} (holds : values.WellFormed)
    {strategy : Strategy} {term : Term} (found : values.valueFor? strategy = some term) :
    ClosedValue strategy term := by
  -- A normal form serves all strategies, and other values only their own.
  cases values with
  | normalForm kept =>
    obtain rfl := Option.some.inj found
    exact (holds.normalForm kept rfl).2 strategy
  | weak byName byValue =>
    cases strategy with
    | callByValue => exact holds.byValue term found
    | callByName => exact holds.byName term found
    | applicative => contradiction
    | normal => contradiction

namespace Table

/-- A name that stands for a closed term under every strategy, with closed terms at every depth. -/
def Meaningful (table : Table) (name : Name) : Prop :=
  ∀ strategy, ∃ term, table.resolve? strategy name = some term ∧ term.Closed ∧ term.CarriesClosed

variable {table : Table} {body : Term}

/-- A closed body is closed with its references renewed, and then carries closed terms. -/
theorem refresh_closed (closed : body.Closed)
    (meaningful : ∀ other ∈ body.references, table.Meaningful other) (strategy : Strategy) :
    (table.refresh strategy body).Closed ∧ (table.refresh strategy body).CarriesClosed := by
  -- The terms that the body came with are not kept.
  constructor
  · intro name
    rw [refresh, Term.occursFree_relink]
    exact closed name
  · exact Term.carriesClosed_relink (fun other member => meaningful other member strategy)

/-- The value that a run of a closed body finds is a closed one. -/
theorem evaluateBody_closedValue (closed : body.Closed)
    (meaningful : ∀ other ∈ body.references, table.Meaningful other) {strategy : Strategy}
    {term : Term} (found : (table.evaluateBody body strategy).value = some term) :
    ClosedValue strategy term := by
  -- Steps keep the body closed, and a run ends only at a value.
  obtain ⟨startClosed, startCarries⟩ := refresh_closed closed meaningful strategy
  obtain ⟨termClosed, termCarries, value⟩ := Term.evaluate_closed startClosed startCarries found
  -- A closed term at which a strategy stops has no other shape.
  exact ⟨termClosed, termCarries, Strategy.isAbstraction_of_isValue termClosed value, value⟩

/-- The values that a closed body compiles to are well-formed. -/
theorem compile_wellFormed (closed : body.Closed)
    (meaningful : ∀ other ∈ body.references, table.Meaningful other) :
    (table.compile body).1.WellFormed := by
  -- Every value that is kept was found by a run of the body.
  have values {strategy : Strategy} {term : Term}
      (found : (table.evaluateBody body strategy).value = some term) : ClosedValue strategy term :=
    evaluateBody_closedValue closed meaningful found
  cases normal : (table.evaluateBody body .normal).value with
  | some term =>
    -- With a normal form nothing else is kept.
    simp only [compile, normal]
    have kept := values normal
    refine ⟨fun _ => ⟨rfl, rfl⟩, ?_, ?_, ?_⟩
    · intro other found
      obtain rfl := Option.some.inj found
      -- A normal form is one without references, and no strategy has a step in it.
      refine ⟨Strategy.not_mem_references_of_normal kept.value, ?_⟩
      intro strategy
      have value := Strategy.isValue_of_normal kept.value strategy
      exact ⟨kept.closed, kept.carries, kept.applies, value⟩
    · intro other found
      contradiction
    · intro other found
      contradiction
  | none =>
    -- Without one the two weak strategies keep what they found.
    simp only [compile, normal]
    refine ⟨?_, ?_, ?_, ?_⟩
    · intro found
      contradiction
    · intro other found
      contradiction
    · exact fun other found => values found
    · exact fun other found => values found

/-- In a sound table that is up to date every macro is meaningful. -/
theorem Sound.meaningful (sound : table.Sound) (current : ∀ name, table.UpToDate name)
    {name : Name} (defined : table.contains name) : table.Meaningful name := by
  -- The macros that a body refers to are meaningful before the one it defines.
  refine sound.induct ?_ name defined
  intro name body has ih strategy
  obtain ⟨definition, found, rfl⟩ := Option.map_eq_some_iff.mp has
  have closed := sound.closed name definition.body has
  have values := compile_wellFormed closed ih
  rw [← current name definition found] at values
  rw [sound.resolve?_eq, found, Option.map_some]
  refine ⟨_, rfl, ?_⟩
  -- A macro stands for a value that serves the strategy, or for its body.
  cases kept : definition.values.valueFor? strategy with
  | none => exact refresh_closed closed ih strategy
  | some term => exact ⟨(values.valueFor kept).closed, (values.valueFor kept).carries⟩

/-- What holds of every table that definitions make. -/
structure WellFormed (table : Table) : Prop where
  /-- Each entry is found under its name, which is a macro name. -/
  named : ∀ entry ∈ table.definitions.entries,
    table.get? entry.1 = some entry.2 ∧ isMacroName entry.1
  /-- No body has a free variable. -/
  closed : ∀ entry ∈ table.definitions.entries, entry.2.body.Closed
  /-- Every macro that a body refers to is defined. -/
  bound : ∀ entry ∈ table.definitions.entries, ∀ other ∈ entry.2.body.references,
    table.contains other
  /-- No macro refers to itself, be it through others. -/
  acyclic : ∀ name, ¬Relation.TransGen table.RefersTo name name
  /-- All values are closed abstractions at which their strategies stop. -/
  values : ∀ entry ∈ table.definitions.entries, entry.2.values.WellFormed
  /-- Every macro stands for a closed term, with closed terms at every depth. -/
  meaningful : ∀ name, table.contains name → table.Meaningful name

end Table

end NamedLambda
