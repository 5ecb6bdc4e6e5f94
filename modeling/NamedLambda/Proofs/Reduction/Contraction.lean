import NamedLambda.Proofs.Nameless.Beta
import NamedLambda.Proofs.Reduction.Values
import NamedLambda.Proofs.Term.Expansion

/-! Contracting redexes, in whatever order, reduces the expansion of a term. -/

namespace NamedLambda

open Relation (ReflTransGen)

namespace Term

/-- A redex is contracted, at whatever position. -/
def Contracts (term next : Term) : Prop :=
  ∃ path, term.contractAt? path = some next

/-- No position leads to a redex. -/
def RedexFree (term : Term) : Prop :=
  ∀ path, ¬term.LeadsToRedex path

/-- A redex is contracted at whatever position the path of the contraction leads to. -/
theorem contracts_iff {term next : Term} :
    term.Contracts next ↔ ∃ path, ContractsAt path term next :=
  -- Contraction at a path rebuilds the term around the redex.
  exists_congr fun _ => contractAt?_eq_some_iff

/-- Contracting a redex carries out an application, or follows a reference, which does not show in
the expansion. -/
theorem ContractsTo.reduces {term next : Term} (contracts : term.ContractsTo next)
    (carries : term.CarriesClosed) (binders : List Name) :
    (term.expand.namelessUnder binders).Reduces (next.expand.namelessUnder binders) := by
  -- An abstraction that is seen through references shows in the expansion.
  cases contracts with
  | @apply func binder body arg found =>
    have bodyCarries := (abstraction?_sound carries.1 found).1
    rw [expand, expand_of_abstraction? found, namelessUnder, namelessUnder,
      namelessUnder_expand_substitute bodyCarries carries.2]
    exact .single (.contract _ _)
  -- A reference expands to the expansion of what it carries.
  | follow name resolved => exact .refl

/-- Contracting a redex inside a term reduces its expansion. -/
theorem ContractsAt.reduces {path : Path} {term next : Term}
    (contracts : ContractsAt path term next) (carries : term.CarriesClosed) (binders : List Name) :
    (term.expand.namelessUnder binders).Reduces (next.expand.namelessUnder binders) := by
  -- The path leads to the same place in the expansion, as it enters no reference.
  induction contracts generalizing binders with
  | here contracts => exact contracts.reduces carries binders
  | func arg inside ih => exact (ih carries.1 binders).app .refl
  | arg func inside ih => exact Nameless.Reduces.app .refl (ih carries.2 binders)
  | body binder inside ih => exact (ih carries (binder :: binders)).lam

/-- Contractions one after the other reduce the expansion, and all terms on the way
carry closed terms. -/
theorem contracts_reduces {term reached : Term} (carries : term.CarriesClosed)
    (leads : ReflTransGen Contracts term reached) :
    reached.CarriesClosed ∧ term.expand.nameless.Reduces reached.expand.nameless := by
  -- A contraction needs what the ones before it keep, that references carry closed terms.
  induction leads with
  -- Nothing has been contracted yet.
  | refl => exact ⟨carries, .refl⟩
  | tail _ step ih =>
    obtain ⟨path, contracts⟩ := contracts_iff.mp step
    exact ⟨(contracts.comesOf ih.1).1, ih.2.trans (contracts.reduces ih.1 [])⟩

/-- A term without redexes is one at which a strategy that goes below abstractions stops. -/
theorem redexFree_iff {strategy : Strategy} (full : strategy = .applicative ∨ strategy = .normal)
    {term : Term} : term.RedexFree ↔ strategy.isValue term := by
  -- Its search is one for the first redex of a walk, so it finds one unless there is none.
  rw [Strategy.isValue, Option.isNone_iff_eq_none]
  rcases full with rfl | rfl
  · exact (Strategy.locateApplicative_finds term).eq_none_iff.symm
  · exact (Strategy.locateNormal_finds term).eq_none_iff.symm

/-- The expansion of a value of normal order reduces no further. -/
theorem normal_expand {term : Term} (value : Strategy.normal.isValue term)
    (binders : List Name) : (term.expand.namelessUnder binders).Normal := by
  -- Without a reference to follow, what is no abstraction does not expand to one.
  induction term generalizing binders with
  | var name =>
    -- A variable is a distance or a free name, neither of which reduces.
    intro reduced step
    rcases namelessUnder_var_cases name binders with ⟨distance, found⟩ | found
    · rw [expand, found] at step
      cases step
    · rw [expand, found] at step
      cases step
  | lam binder body ih =>
    have bodyValue := (Strategy.isValue_lam_iff (.inr rfl)).mp value
    exact Nameless.normal_lam_iff.mpr (ih bodyValue (binder :: binders))
  | app func arg funcIh argIh =>
    -- The function does not expand to an abstraction, and neither part reduces.
    obtain ⟨applies, funcValue, argValue⟩ := Strategy.isValue_app_iff.mp value
    exact Nameless.normal_app_iff.mpr ⟨namelessUnder_expand_ne_lam applies binders,
      funcIh funcValue binders, argIh argValue binders⟩
  | ref name resolved ih => exact absurd value (Strategy.not_isValue_ref (.inr rfl))

/-- A term without redexes is its own expansion, which reduces no further. -/
theorem RedexFree.normal {term : Term} (free : term.RedexFree) :
    term.expand = term ∧ term.nameless.Normal := by
  -- Without redexes there is no reference to expand.
  have value := (redexFree_iff (.inr rfl)).mp free
  have same := expand_eq_self (Strategy.not_mem_references_of_normal value)
  have normal := normal_expand value []
  rw [same] at normal
  exact ⟨same, normal⟩

/-- Contractions that leave no redexes find a normal form of the expansion. -/
theorem contracts_to_normal {term result : Term} (carries : term.CarriesClosed)
    (leads : ReflTransGen Contracts term result) (free : result.RedexFree) :
    term.expand.nameless.Reduces result.nameless ∧ result.nameless.Normal := by
  -- The expansion of a term without redexes is the term itself.
  obtain ⟨same, normal⟩ := free.normal
  have reduces := (contracts_reduces carries leads).2
  rw [same] at reduces
  exact ⟨reduces, normal⟩

end Term

/-- In every round some strategy takes the step, not always the same one. -/
def Strategy.Mixture (step : Nat → Term → Option Term) : Prop :=
  ∀ round term next, step round term = some next →
    ∃ strategy : Strategy, strategy.step? term = some next

/-- A run in which strategies take the steps contracts redexes. -/
theorem Run.contracts {step : Nat → Term → Option Term} (mixture : Strategy.Mixture step)
    {budget : Nat} {term value : Term} (found : (Run.of step budget term).value = some value) :
    ReflTransGen Term.Contracts term value := by
  -- What every round keeps is that the term so far came of contractions.
  have kept : ∀ round current next, ReflTransGen Term.Contracts term current →
      step round current = some next → ReflTransGen Term.Contracts term next := by
    intro round current next leads stepped
    obtain ⟨strategy, taken⟩ := mixture round current next stepped
    obtain ⟨path, -, contracts⟩ := Strategy.step?_eq_some_iff.mp taken
    exact leads.tail (Term.contracts_iff.mpr ⟨path, contracts⟩)
  exact (Run.observe_value kept .refl found).1

/-- A run of one strategy contracts redexes until it stops. -/
theorem Term.evaluate_contracts {strategy : Strategy} {term value : Term} {budget : Nat}
    (found : (term.evaluate strategy budget).value = some value) :
    ReflTransGen Contracts term value ∧ strategy.isValue value := by
  -- One strategy is the simplest mixture.
  have mixture : Strategy.Mixture (fun _ => strategy.step?) :=
    fun _ _ _ stepped => ⟨strategy, stepped⟩
  exact ⟨Run.contracts mixture found, (evaluate_value (fun _ _ _ _ => trivial) trivial found).2⟩

/-- A value under normal order is a normal form of the expansion. -/
theorem Term.evaluate_to_normal {term value : Term} {budget : Nat} (carries : term.CarriesClosed)
    (found : (term.evaluate .normal budget).value = some value) :
    term.expand.nameless.Reduces value.nameless ∧ value.nameless.Normal := by
  -- Normal order stops only where no redex is left.
  obtain ⟨leads, stops⟩ := evaluate_contracts found
  exact contracts_to_normal carries leads ((redexFree_iff (.inr rfl)).mpr stops)

end NamedLambda
