import Mathlib.Control.Monad.Basic
import NamedLambda.Proofs.Reduction.Rounds
import NamedLambda.Proofs.Reduction.Values
import NamedLambda.Proofs.Source.Names
import NamedLambda.Proofs.Source.Rereading

/-! The steps of a strategy keep names writable, so that the terms of a trace can be read again. -/

namespace NamedLambda

open Term

namespace Term

variable {onName : Name → Bool} {onReference : Name → Term → Prop}
  (fresh : ∀ base avoid, onName base → onName (freshName base avoid))
include fresh

/-- What a redex gives way to has no names and references but those there were, and fresh names. -/
theorem ContractsTo.throughout {term next : Term} (contracts : term.ContractsTo next)
    (throughout : term.Throughout onName onReference) : next.Throughout onName onReference := by
  cases contracts with
  -- Substitution renames binders to fresh names only.
  | apply arg found =>
    exact throughout_substitute fresh (throughout_abstraction? throughout.1 found) throughout.2
  | follow name resolved =>
    -- What a reference carries has counted before.
    exact throughout.2

/-- The same goes for the whole term around the redex. -/
theorem ContractsAt.throughout {path : Path} {term next : Term}
    (contracts : ContractsAt path term next) (throughout : term.Throughout onName onReference) :
    next.Throughout onName onReference := by
  -- The parts that the path passes by stay as they are.
  induction contracts with
  | here contracts => exact contracts.throughout fresh throughout
  | func arg inside ih => exact ⟨ih throughout.1, throughout.2⟩
  | arg func inside ih => exact ⟨throughout.1, ih throughout.2⟩
  | body binder inside ih => exact ⟨throughout.1, ih throughout.2⟩

/-- A step invents no names but those that binders escape to, and no references. -/
theorem throughout_step? {strategy : Strategy} {term next : Term}
    (throughout : term.Throughout onName onReference) (stepped : strategy.step? term = some next) :
    next.Throughout onName onReference := by
  -- A step contracts one redex.
  obtain ⟨path, -, contracts⟩ := Strategy.step?_eq_some_iff.mp stepped
  exact contracts.throughout fresh throughout

end Term

/-- However many steps are made, no variable is freed. -/
theorem Term.stepTimes?_comesOf {strategy : Strategy} {term reached : Term} {times : Nat}
    (carries : term.CarriesClosed)
    (steps : Run.stepTimes? strategy.step? times term = some reached) : reached.ComesOf term := by
  -- Each step frees no variable of the term before it.
  have kept : ∀ current next : Term, current.ComesOf term →
      strategy.step? current = some next → next.ComesOf term := by
    intro current next comes stepped
    obtain ⟨nextCarries, free⟩ := Strategy.step?_comesOf comes.1 stepped
    exact ⟨nextCarries, fun name occurs => comes.2 name (free name occurs)⟩
  exact Run.stepTimes?_keeps kept ⟨carries, fun _ free => free⟩ steps

/-- What a run prints in a round is the term that as many steps lead to. -/
theorem Term.exists_of_trace {term : Term} {strategy : Strategy} {budget index : Nat}
    {text : String} (seen : (term.evaluate strategy budget).trace[index]? = some text) :
    ∃ reached, Run.stepTimes? strategy.step? index term = some reached ∧ reached.text = text := by
  -- The trace consists of the texts of the terms that were seen.
  rw [Run.trace, List.getElem?_map, Option.map_eq_some_iff] at seen
  obtain ⟨reached, seen, same⟩ := seen
  exact ⟨reached, (Run.observe_getElem?_eq_some_iff.mp seen).2, same⟩

/-- A text of a trace is read as the term that it was printed from, with the names that it has, if
the term that was evaluated had been read plainly. -/
theorem Term.readPlainTerm_trace {source : String} {term : Term}
    (found : readPlainTerm source = .ok term) (strategy : Strategy) (budget index : Nat)
    {text : String} (seen : (term.evaluate strategy budget).trace[index]? = some text) :
    ∃ reached, Run.stepTimes? strategy.step? index term = some reached ∧
      readPlainTerm text = .ok reached := by
  obtain ⟨reached, steps, rfl⟩ := exists_of_trace seen
  refine ⟨reached, steps, ?_⟩
  -- A binder escapes to a name that is an identifier if it was one.
  have fresh : ∀ base avoid, isIdentifier base → isIdentifier (freshName base avoid) := by
    intro base avoid identifier
    rwa [isIdentifier_freshName]
  -- Every step keeps the names identifiers, and brings no reference.
  have start : term.Spelled isIdentifier (fun _ => none) := by
    obtain ⟨named, absent⟩ := readPlainTerm_names found
    exact throughout_of_not_mem_references named absent
  have spelled : reached.Spelled isIdentifier (fun _ => none) :=
    Run.stepTimes?_keeps (fun _ _ => throughout_step? fresh) start steps
  -- So every text can be read, and says the term without references.
  have legible : reached.Legible := spelled.legible (fun _ _ none => nomatch none)
  have read := (readsAs_text legible).expression.readTerm (scope?_var reached.unlink [])
  rwa [spelled.unlink_eq_self] at read

/-- A binder that gives way in the first step is read with its new name. -/
theorem Term.readPlainTerm_trace_renamed :
    let term := app (lam "x" (lam "y" (app (var "x") (var "y")))) (var "y")
    readPlainTerm "(λx.λy.x y) y" = .ok term ∧
      (term.evaluate .normal 9).trace[1]? = some "λy1.y y1" ∧
      Run.stepTimes? Strategy.normal.step? 1 term =
        some (lam "y1" (app (var "y") (var "y1"))) ∧
      readPlainTerm "λy1.y y1" = .ok (lam "y1" (app (var "y") (var "y1"))) := by
  intro term
  have found : readPlainTerm "(λx.λy.x y) y" = .ok term := by decide +kernel
  have seen : (term.evaluate .normal 9).trace[1]? = some "λy1.y y1" := by decide +kernel
  have stepped : Run.stepTimes? Strategy.normal.step? 1 term =
      some (lam "y1" (app (var "y") (var "y1"))) := by decide +kernel
  -- The term that is read is the one that the first step leads to.
  obtain ⟨reached, steps, read⟩ := readPlainTerm_trace found .normal 9 1 seen
  obtain rfl := Option.some.inj (stepped.symm.trans steps)
  exact ⟨found, seen, stepped, read⟩

end NamedLambda
