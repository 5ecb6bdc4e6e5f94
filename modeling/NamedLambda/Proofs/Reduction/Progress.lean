import NamedLambda.Proofs.Reduction.Contraction
import NamedLambda.Proofs.Reduction.Rounds

/-! Closed terms stay closed however many steps are made, and stop at abstractions only. -/

namespace NamedLambda

open Term

/-- What closed terms can stop at under a strategy. -/
structure Strategy.Answer (strategy : Strategy) (value : Term) : Prop where
  /-- It is an abstraction, or a reference to one where these count as values. -/
  shape : (∃ binder body, value = lam binder body) ∨
    (strategy = callByValue ∨ strategy = callByName) ∧
      ∃ name resolved, value = ref name resolved ∧ resolved.isAbstraction
  /-- A strategy that goes below abstractions has followed all references. -/
  unfolded : strategy = applicative ∨ strategy = normal → ∀ name, name ∉ value.references

/-- A value under a strategy that goes below abstractions refers to no macro. -/
theorem Strategy.not_mem_references_of_isValue {strategy : Strategy}
    (full : strategy = applicative ∨ strategy = normal) {term : Term}
    (value : strategy.isValue term) (name : Name) : name ∉ term.references := by
  -- Both such strategies stop at the same terms.
  have free := (redexFree_iff full).mpr value
  exact not_mem_references_of_normal ((redexFree_iff (.inr rfl)).mp free) name

/-- A closed term that does not step is an abstraction, or a reference to one where these
count as values. -/
theorem Strategy.answer_of_isValue {strategy : Strategy} {term : Term} (closed : term.Closed)
    (value : strategy.isValue term) : strategy.Answer term := by
  refine ⟨?_, fun full => not_mem_references_of_isValue full value⟩
  cases term with
  | var name =>
    -- A variable is not closed.
    have free := closed name
    simp [occursFree] at free
  | lam binder body => exact .inl ⟨binder, body, rfl⟩
  | app func arg =>
    -- An application is never seen as an abstraction.
    have applies : (app func arg).isAbstraction := isAbstraction_of_isValue closed value
    simp [isAbstraction, abstraction?] at applies
  | ref name resolved =>
    refine .inr ⟨?_, name, resolved, rfl, isAbstraction_of_isValue_ref value⟩
    -- Strategies that go below abstractions would follow the reference.
    cases strategy with
    | callByValue => exact .inl rfl
    | callByName => exact .inr rfl
    | applicative => exact absurd value (not_isValue_ref (.inl rfl))
    | normal => exact absurd value (not_isValue_ref (.inr rfl))

/-- However many steps a closed term makes, it stays closed, and so do the terms that references
carry; and it steps on unless it is an abstraction or a reference to one. -/
theorem Term.stepTimes?_closed {term : Term} (closed : term.Closed) (carries : term.CarriesClosed)
    (strategy : Strategy) :
    (∀ times reached, Run.stepTimes? strategy.step? times term = some reached →
        reached.Closed ∧ reached.CarriesClosed ∧
          (strategy.step? reached = none → strategy.Answer reached)) ∧
      ∀ budget value, (term.evaluate strategy budget).value = some value →
        strategy.Answer value := by
  -- Each step keeps the term closed, and a closed value is an answer.
  have steps : ∀ times reached, Run.stepTimes? strategy.step? times term = some reached →
      reached.Closed ∧ reached.CarriesClosed ∧
        (strategy.step? reached = none → strategy.Answer reached) := by
    intro times reached found
    obtain ⟨reachedClosed, reachedCarries⟩ :=
      Run.stepTimes?_keeps (fun _ _ => Strategy.step?_closed) ⟨closed, carries⟩ found
    refine ⟨reachedClosed, reachedCarries, fun stops => ?_⟩
    exact Strategy.answer_of_isValue reachedClosed (Strategy.step?_eq_none_iff.mp stops)
  refine ⟨steps, ?_⟩
  intro budget value found
  -- The value of a run is a term that some steps lead to and that does not step.
  obtain ⟨times, -, reached, stops⟩ := Run.observe_eq_some_iff.mp found
  exact (steps times value reached).2.2 stops

/-- Call by value keeps a reference as it is and stops there. -/
theorem Term.stepTimes?_closed_kept_reference :
    let identity := ref "I" (lam "y" (var "y"))
    let term := app (lam "x" (app (var "x") (var "x"))) (app identity identity)
    term.Closed ∧ term.CarriesClosed ∧
      Run.stepTimes? Strategy.callByValue.step? 2 term = some (app identity identity) ∧
      (app identity identity).Closed ∧
      (term.evaluate .callByValue 9).value = some identity ∧
      Strategy.callByValue.Answer identity := by
  intro identity term
  have closed : term.Closed := firstFree?_eq_none_iff.mp rfl
  -- The body of the reference is closed, and so is everything around it.
  have carried : identity.CarriesClosed := ⟨firstFree?_eq_none_iff.mp rfl, trivial⟩
  have carries : term.CarriesClosed := ⟨⟨trivial, trivial⟩, carried, carried⟩
  have reached : Run.stepTimes? Strategy.callByValue.step? 2 term =
      some (app identity identity) := by decide +kernel
  have value : (term.evaluate .callByValue 9).value = some identity := by decide +kernel
  obtain ⟨steps, values⟩ := stepTimes?_closed closed carries .callByValue
  exact ⟨closed, carries, reached, (steps 2 _ reached).1, value, values 9 identity value⟩

end NamedLambda
