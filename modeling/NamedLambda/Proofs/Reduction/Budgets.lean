import Mathlib.Order.Bounds.Defs
import NamedLambda.Proofs.Reduction.Rounds

/-! What runs of one term find and see within different budgets are beginnings of one run. -/

namespace NamedLambda

namespace Run

/-- So many steps can be made, and no more. -/
def StopsAfter (step : Term → Option Term) (term : Term) (times : Nat) : Prop :=
  ∃ last, stepTimes? step times term = some last ∧ step last = none

variable {step : Term → Option Term} {term : Term} {times : Nat}

/-- A further step is made from where the steps before it lead. -/
theorem stepTimes?_succ (step : Term → Option Term) (times : Nat) (term : Term) :
    stepTimes? step (times + 1) term = (stepTimes? step times term).bind step := by
  -- The count goes by first steps, so the induction takes one off at the front.
  induction times generalizing term with
  | zero => cases stepped : step term <;> simp [stepTimes?, stepped]
  | succ times ih =>
    rw [stepTimes?]
    cases stepped : step term with
    | none => simp [stepTimes?, stepped]
    | some next => simp [stepTimes?, stepped, ← ih next]

/-- As many steps can be made as come before the end of the steps, if there is one. -/
theorem isSome_stepTimes? (goesOn : ∀ earlier < times, ¬StopsAfter step term earlier) :
    (stepTimes? step times term).isSome := by
  -- One step after the other is possible.
  induction times with
  | zero => rfl
  | succ times ih =>
    obtain ⟨reached, found⟩ := Option.isSome_iff_exists.mp
      (ih fun earlier before => goesOn earlier (Nat.lt_succ_of_lt before))
    rw [stepTimes?_succ, found, Option.bind_some, Option.isSome_iff_ne_none]
    -- Without a next step the steps would have ended just there.
    intro stops
    exact goesOn times (Nat.lt_succ_self times) ⟨reached, found, stops⟩

namespace StopsAfter

/-- After the last step there is none. -/
theorem stepTimes?_eq_none (stops : StopsAfter step term times) {later : Nat}
    (after : times < later) : stepTimes? step later term = none := by
  obtain ⟨last, found, final⟩ := stops
  -- Once a step fails all later counts of steps fail as well.
  induction after with
  | refl => rw [stepTimes?_succ, found, Option.bind_some, final]
  | step after ih => rw [stepTimes?_succ, ih, Option.bind_none]

/-- Where the steps end they have not ended before. -/
theorem isLeast (stops : StopsAfter step term times) :
    IsLeast {times | StopsAfter step term times} times := by
  -- An earlier end would leave no term for the later one.
  refine ⟨stops, fun other otherStops => Nat.le_of_not_lt fun before => ?_⟩
  obtain ⟨last, found, -⟩ := stops
  rw [otherStops.stepTimes?_eq_none before] at found
  contradiction

end StopsAfter

/-- A round sees a term if the budget allows for it and as many steps can be made. -/
theorem lt_length_observe_iff {left round index : Nat} :
    index < (observe (fun _ => step) left round term).1.length ↔
      index < left ∧ (stepTimes? step index term).isSome := by
  -- A round is counted exactly if it shows a term, and it shows the one reached by then.
  constructor
  · intro within
    obtain ⟨allowed, reached⟩ :=
      observe_getElem?_eq_some_iff.mp (List.getElem?_eq_getElem within)
    exact ⟨allowed, by rw [reached]; rfl⟩
  · rintro ⟨allowed, possible⟩
    obtain ⟨reached, found⟩ := Option.isSome_iff_exists.mp possible
    have seen : (observe (fun _ => step) left round term).1[index]? = some reached :=
      observe_getElem?_eq_some_iff.mpr ⟨allowed, found⟩
    exact (List.getElem?_eq_some_iff.mp seen).1

/-- A budget with a round for the last term sees that one and none after it. -/
theorem StopsAfter.length_observe (stops : StopsAfter step term times) {left round : Nat}
    (allowed : times < left) :
    (observe (fun _ => step) left round term).1.length = times + 1 := by
  -- The round of the last term is there, and the next one would show a term past it.
  have last : times < (observe (fun _ => step) left round term).1.length := by
    obtain ⟨value, found, -⟩ := stops
    exact lt_length_observe_iff.mpr ⟨allowed, by rw [found]; rfl⟩
  have after : ¬times + 1 < (observe (fun _ => step) left round term).1.length := by
    rw [lt_length_observe_iff, stops.stepTimes?_eq_none (Nat.lt_succ_self times)]
    simp
  omega

/-- A budget that is spent before the steps end has seen a term in every round. -/
theorem length_observe {left round : Nat}
    (goesOn : ∀ earlier < left, ¬StopsAfter step term earlier) :
    (observe (fun _ => step) left round term).1.length = left := by
  -- No round is seen beyond the budget.
  have within : ¬left < (observe (fun _ => step) left round term).1.length := by
    simp [lt_length_observe_iff]
  -- In the first round that saw nothing as many steps could still be made.
  have all : ¬(observe (fun _ => step) left round term).1.length < left := by
    intro fewer
    have possible := isSome_stepTimes? fun earlier before =>
      goesOn earlier (Nat.lt_trans before fewer)
    exact Nat.lt_irrefl _ (lt_length_observe_iff.mpr ⟨fewer, possible⟩)
  omega

/-- What is seen within a budget is seen first within a larger one. -/
theorem observe_prefix_of_le {less more round : Nat} (larger : less ≤ more) :
    (observe (fun _ => step) less round term).1 <+:
      (observe (fun _ => step) more round term).1 := by
  -- In each round both see the term that as many steps lead to.
  rw [List.prefix_iff_getElem?]
  intro index within
  obtain ⟨allowed, reached⟩ := observe_getElem?_eq_some_iff.mp (List.getElem?_eq_getElem within)
  exact observe_getElem?_eq_some_iff.mpr ⟨Nat.lt_of_lt_of_le allowed larger, reached⟩

/-- Without a value every term that was seen has made a step. -/
theorem steps_of_spent {run : Run} (spent : run.value = none) :
    run.steps = run.observed.length := by
  -- The run has timed out, and every round counts.
  simp [steps, timedOut, spent]

/-- The value is seen as well, and it makes no step. -/
theorem steps_of_value {run : Run} {value : Term} (found : run.value = some value) :
    run.steps = run.observed.length - 1 := by
  -- The last round has found the value, and does not count as a step.
  simp [steps, timedOut, found]

/-- How runs of one term, and the texts of what they see, depend on their budgets. -/
structure WithinBudgets (step : Term → Option Term) (render : Term → String) (term : Term)
    (runs : Nat → Run) (traces : Nat → List String) : Prop where
  /-- A budget larger than the number of steps that can be made finds where these lead. -/
  enough : ∀ budget times, IsLeast {times | StopsAfter step term times} times → times < budget →
    ∃ value, stepTimes? step times term = some value ∧ (runs budget).value = some value ∧
      (runs budget).steps = times ∧ (traces budget).length = times + 1
  /-- Any other budget is spent without a value. -/
  spent : ∀ budget, (∀ times, IsLeast {times | StopsAfter step term times} times →
      budget ≤ times) →
    (runs budget).value = none ∧ (runs budget).steps = budget ∧ (traces budget).length = budget
  /-- The text of a round is that of the term which as many steps lead to. -/
  seen : ∀ budget index text, (traces budget)[index]? = some text →
    ∃ reached, stepTimes? step index term = some reached ∧ text = render reached
  /-- A larger budget goes on from where a smaller one ends. -/
  longer : ∀ less more, less ≤ more → traces less <+: traces more
  /-- A larger budget changes nothing once there is a value. -/
  settled : ∀ less more value, less ≤ more → (runs less).value = some value →
    traces more = traces less ∧ (runs more).value = some value ∧
      (runs more).steps = (runs less).steps

/-- Runs with steps that depend on nothing but the term are beginnings of one run. -/
theorem of_withinBudgets (step : Term → Option Term) (render : Term → String) (term : Term) :
    WithinBudgets step render term (fun budget => Run.of (fun _ => step) budget term)
      (fun budget => (Run.of (fun _ => step) budget term).observed.map render) where
  enough budget times least allowed := by
    -- The round after the last step is within the budget, and it finds no further one.
    obtain ⟨value, reached, stops⟩ := least.1
    have found : (Run.of (fun _ => step) budget term).value = some value :=
      observe_eq_some_iff.mpr ⟨times, allowed, reached, stops⟩
    have length : (Run.of (fun _ => step) budget term).observed.length = times + 1 :=
      least.1.length_observe allowed
    refine ⟨value, reached, found, ?_, ?_⟩
    · rw [steps_of_value found, length, Nat.add_sub_cancel]
    · rw [List.length_map, length]
  spent budget larger := by
    -- Wherever the steps end, the budget has no round left to see it.
    have goesOn : ∀ earlier < budget, ¬StopsAfter step term earlier :=
      fun earlier before stops => Nat.not_le_of_lt before (larger earlier stops.isLeast)
    have length : (Run.of (fun _ => step) budget term).observed.length = budget :=
      length_observe goesOn
    have spent : (Run.of (fun _ => step) budget term).value = none := by
      rw [Option.eq_none_iff_forall_ne_some]
      intro value found
      obtain ⟨times, allowed, reached, stops⟩ := observe_eq_some_iff.mp found
      exact goesOn times allowed ⟨value, reached, stops⟩
    refine ⟨spent, ?_, ?_⟩
    · rw [steps_of_spent spent, length]
    · rw [List.length_map, length]
  seen budget index text found := by
    -- A text of the trace is that of a term which was seen.
    rw [List.getElem?_map, Option.map_eq_some_iff] at found
    obtain ⟨reached, found, same⟩ := found
    exact ⟨reached, (observe_getElem?_eq_some_iff.mp found).2, same.symm⟩
  longer less more larger := (observe_prefix_of_le larger).map render
  settled less more value larger found := by
    obtain ⟨times, allowed, reached, stops⟩ := observe_eq_some_iff.mp found
    have allowedLater := Nat.lt_of_lt_of_le allowed larger
    have foundLater : (Run.of (fun _ => step) more term).value = some value :=
      observe_eq_some_iff.mpr ⟨times, allowedLater, reached, stops⟩
    -- One run begins as the other, and both see the value last.
    have last : StopsAfter step term times := ⟨value, reached, stops⟩
    have same : (Run.of (fun _ => step) less term).observed =
        (Run.of (fun _ => step) more term).observed :=
      (observe_prefix_of_le larger).eq_of_length
        ((last.length_observe allowed).trans (last.length_observe allowedLater).symm)
    refine ⟨by rw [same], foundLater, ?_⟩
    rw [steps_of_value found, steps_of_value foundLater, same]

end Run

/-- Under a strategy, as with any steps and any way to print terms, a budget larger than the number
of steps finds the value in the round after the last step, any other is spent on as many steps as it
has rounds, and what they see are beginnings of one run. -/
theorem Term.evaluate_withinBudgets (term : Term) :
    (∀ strategy : Strategy, Run.WithinBudgets strategy.step? Term.text term
        (term.evaluate strategy) (fun budget => (term.evaluate strategy budget).trace)) ∧
      ∀ (step : Term → Option Term) (render : Term → String),
        Run.WithinBudgets step render term (fun budget => Run.of (fun _ => step) budget term)
          (fun budget => (Run.of (fun _ => step) budget term).observed.map render) :=
  -- The steps of a strategy are steps that depend on the term only.
  ⟨fun strategy => Run.of_withinBudgets strategy.step? Term.text term,
    fun step render => Run.of_withinBudgets step render term⟩

/-- One step is made within either budget, but only the second has a round to see the value. -/
example :
    let term := Term.app (.lam "x" (.var "x")) (.var "y")
    ((term.evaluate .normal 1).value = none ∧ (term.evaluate .normal 1).steps = 1) ∧
      (term.evaluate .normal 2).value = some (.var "y") ∧
      (term.evaluate .normal 2).steps = 1 := by
  decide +kernel

end NamedLambda
