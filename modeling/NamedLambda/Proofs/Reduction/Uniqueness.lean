import NamedLambda.Proofs.Nameless.Confluence
import NamedLambda.Proofs.Reduction.Contraction
import NamedLambda.Proofs.Term.Alike

/-! Whatever redexes are contracted, the terms without redexes that a term leads to are equal up to
bound names. -/

namespace NamedLambda

open Relation (ReflTransGen)

namespace Term

/-- The ways from a term to a term without redexes. -/
inductive Result (term : Term) : Term → Prop where
  /-- Redexes are contracted at any positions in any order, until none is left. -/
  | contracted {result : Term} (leads : ReflTransGen Contracts term result)
    (free : result.RedexFree) : Result term result
  /-- A strategy that goes below abstractions finds a value. -/
  | evaluated {strategy : Strategy} {budget : Nat} {value : Term}
    (full : strategy = .applicative ∨ strategy = .normal)
    (found : (term.evaluate strategy budget).value = some value) : Result term value
  /-- A mixture of strategies stops at a term without redexes. -/
  | mixed {step : Nat → Term → Option Term} {budget : Nat} {value : Term}
    (mixture : Strategy.Mixture step) (found : (Run.of step budget term).value = some value)
    (free : value.RedexFree) : Result term value

/-- A term without redexes that strategies find in turns is a result. -/
theorem Result.in_turns {term value : Term} {strategies : List Strategy} {budget : Nat}
    (found : (term.evaluateInTurns strategies budget).value = some value)
    (free : value.RedexFree) : term.Result value := by
  -- Taking turns is one way to mix strategies.
  refine .mixed ?_ found free
  intro round current next stepped
  obtain ⟨strategy, -, taken⟩ := Option.bind_eq_some_iff.mp stepped
  exact ⟨strategy, taken⟩

/-- However a result is found, contractions lead to it, and no redex is left in it. -/
theorem Result.contracts {term result : Term} (reaches : term.Result result) :
    ReflTransGen Contracts term result ∧ result.RedexFree := by
  -- Runs contract redexes, and strategies that go below abstractions stop when none is left.
  cases reaches with
  | contracted leads free => exact ⟨leads, free⟩
  | evaluated full found =>
    obtain ⟨leads, value⟩ := evaluate_contracts found
    exact ⟨leads, (redexFree_iff full).mpr value⟩
  | mixed mixture found free => exact ⟨Run.contracts mixture found, free⟩

/-- A result is a normal form of the expansion. -/
theorem Result.reduces {term result : Term} (carries : term.CarriesClosed)
    (reaches : term.Result result) :
    term.expand.nameless.Reduces result.nameless ∧ result.nameless.Normal := by
  -- All ways to a result contract redexes until none is left.
  obtain ⟨leads, free⟩ := reaches.contracts
  exact contracts_to_normal carries leads free

/-- A term has one result at most, up to bound names. -/
theorem results_alphaEq {term left right : Term} (carries : term.CarriesClosed)
    (toLeft : term.Result left) (toRight : term.Result right) :
    left.alphaEq right ∧ left.nameless = right.nameless := by
  -- Both are the normal form of the expansion, which is unique.
  obtain ⟨leftReduces, leftNormal⟩ := toLeft.reduces carries
  obtain ⟨rightReduces, rightNormal⟩ := toRight.reduces carries
  have same := Nameless.normalForm_unique leftReduces rightReduces leftNormal rightNormal
  exact ⟨alphaEq_of_nameless same, same⟩

/-- Normal order renames a binder that other orders leave alone. -/
theorem results_alphaEq_escaped_binder :
    let choose := ref "K" (lam "x" (lam "y" (var "x")))
    let term := app choose (app (lam "a" (var "b")) (var "y"))
    (term.evaluate .normal 9).value = some (lam "y1" (var "b")) ∧
      (term.evaluateInTurns [.callByValue, .applicative] 9).value = some (lam "y" (var "b")) ∧
      (lam "y1" (var "b")).alphaEq (lam "y" (var "b")) := by
  intro choose term
  have carries : term.CarriesClosed :=
    ⟨⟨firstFree?_eq_none_iff.mp rfl, trivial⟩, trivial, trivial⟩
  -- Normal order copies the argument below the binder before it reduces it.
  have byNormal : (term.evaluate .normal 9).value = some (lam "y1" (var "b")) := by decide +kernel
  have inTurns : (term.evaluateInTurns [.callByValue, .applicative] 9).value =
      some (lam "y" (var "b")) := by decide +kernel
  have free : (lam "y" (var "b")).RedexFree := (redexFree_iff (.inl rfl)).mpr rfl
  exact ⟨byNormal, inTurns,
    (results_alphaEq carries (.evaluated (.inr rfl) byNormal) (.in_turns inTurns free)).1⟩

end Term

end NamedLambda
