import NamedLambda.Proofs.Reduction.Step
import NamedLambda.Proofs.Term.Closed
import NamedLambda.Reduction.Run

/-! Steps keep terms closed, and the values that runs of closed terms find are abstractions. -/

namespace NamedLambda

namespace Strategy

open Term

/-- An application is a value when its function is no abstraction and both parts are values. -/
theorem isValue_app_iff {strategy : Strategy} {func arg : Term} :
    strategy.isValue (app func arg) ↔
      func.isAbstraction = false ∧ strategy.isValue func ∧ strategy.isValue arg := by
  -- The strategies differ in which redex comes first, not in whether there is one.
  cases strategy with
  | callByValue =>
    cases applies : func.isAbstraction <;> simp [isValue, locate, locateByValue, applies]
  | callByName =>
    cases applies : func.isAbstraction <;> simp [isValue, locate, locateByName, applies]
  | applicative =>
    cases applies : func.isAbstraction <;> simp [isValue, locate, locateApplicative, applies]
  | normal =>
    cases applies : func.isAbstraction <;> simp [isValue, locate, locateNormal, applies]

section

variable {strategy : Strategy} (full : strategy = applicative ∨ strategy = normal)
include full

/-- A strategy that goes below abstractions stops at one when it stops at its body. -/
theorem isValue_lam_iff {binder : Name} {body : Term} :
    strategy.isValue (lam binder body) ↔ strategy.isValue body := by
  -- A redex of the abstraction is one in its body.
  rcases full with rfl | rfl
  · simp [isValue, locate, locateApplicative]
  · simp [isValue, locate, locateNormal]

/-- A strategy that goes below abstractions follows every reference. -/
theorem not_isValue_ref {name : Name} {resolved : Term} :
    ¬strategy.isValue (ref name resolved) := by
  -- The reference itself is a redex.
  rcases full with rfl | rfl
  · simp [isValue, locate, locateApplicative]
  · simp [isValue, locate, locateNormal]

end

/-- A reference that is a value carries an abstraction. -/
theorem isAbstraction_of_isValue_ref {strategy : Strategy} {name : Name} {resolved : Term}
    (value : strategy.isValue (ref name resolved)) : resolved.isAbstraction := by
  -- The strategies that go below abstractions take no reference as a value.
  cases strategy with
  | callByValue => simpa [isValue, locate, locateByValue] using value
  | callByName => simpa [isValue, locate, locateByName] using value
  | applicative => exact absurd value (not_isValue_ref (.inl rfl))
  | normal => exact absurd value (not_isValue_ref (.inr rfl))

/-- A closed value is an abstraction, seen through references. -/
theorem isAbstraction_of_isValue {strategy : Strategy} {term : Term} (closed : term.Closed)
    (value : strategy.isValue term) : term.isAbstraction := by
  -- The head of an application would be a variable, which is not closed.
  induction term with
  | var name =>
    have free := closed name
    simp [occursFree] at free
  | lam binder body ih => rfl
  | app func arg funcIh argIh =>
    -- A function that is a closed value is an abstraction, with which the application is a redex.
    obtain ⟨applies, funcValue, -⟩ := isValue_app_iff.mp value
    rw [funcIh (closed_app_iff.mp closed).1 funcValue] at applies
    contradiction
  | ref name resolved ih =>
    show resolved.isAbstraction
    exact isAbstraction_of_isValue_ref value

/-- A normal form is a value under every strategy. -/
theorem isValue_of_normal {term : Term} (value : normal.isValue term) (strategy : Strategy) :
    strategy.isValue term := by
  -- It has no redex anywhere, also not below abstractions.
  induction term with
  | var name => cases strategy <;> rfl
  | lam binder body ih =>
    have bodyValue : normal.isValue body := (isValue_lam_iff (.inr rfl)).mp value
    -- Weak strategies stop at every abstraction.
    cases strategy with
    | callByValue => rfl
    | callByName => rfl
    | applicative => exact (isValue_lam_iff (.inl rfl)).mpr (ih bodyValue)
    | normal => exact value
  | app func arg funcIh argIh =>
    obtain ⟨applies, funcValue, argValue⟩ := isValue_app_iff.mp value
    exact isValue_app_iff.mpr ⟨applies, funcIh funcValue, argIh argValue⟩
  | ref name resolved ih => exact absurd value (not_isValue_ref (.inr rfl))

/-- A normal form refers to no macro. -/
theorem not_mem_references_of_normal {term : Term} (value : normal.isValue term) (name : Name) :
    name ∉ term.references := by
  -- Every reference is a redex.
  induction term with
  | var other => exact NameSet.not_mem_empty name
  | lam binder body ih => exact ih ((isValue_lam_iff (.inr rfl)).mp value)
  | app func arg funcIh argIh =>
    obtain ⟨-, funcValue, argValue⟩ := isValue_app_iff.mp value
    simp [references, funcIh funcValue, argIh argValue]
  | ref other resolved ih => exact absurd value (not_isValue_ref (.inr rfl))

end Strategy

namespace Term

/-- A term that comes of another: it carries closed terms and has no new free variables. -/
def ComesOf (next term : Term) : Prop :=
  next.CarriesClosed ∧ ∀ name, next.occursFree name → term.occursFree name

/-- Contracting a redex frees no variable. -/
theorem ContractsTo.comesOf {term next : Term} (contracts : term.ContractsTo next)
    (carries : term.CarriesClosed) : next.ComesOf term := by
  cases contracts with
  | @apply func binder body arg found =>
    obtain ⟨bodyCarries, free⟩ := abstraction?_sound carries.1 found
    refine ⟨carriesClosed_substitute bodyCarries carries.2, ?_⟩
    intro name occurs
    simp only [occursFree, Bool.or_eq_true]
    -- A free variable of the result was free in the abstraction or in the argument.
    rcases occursFree_substitute.mp occurs with inBody | inArg
    · exact .inl (free name (by simp [occursFree, Ne.symm inBody.1, inBody.2]))
    · exact .inr inArg.2
  | follow name resolved =>
    -- A reference gives way to a closed term.
    refine ⟨carries.2, ?_⟩
    intro other occurs
    rw [carries.1 other] at occurs
    contradiction

/-- Contracting a redex inside a term frees no variable of the term. -/
theorem ContractsAt.comesOf {path : Path} {term next : Term}
    (contracts : ContractsAt path term next) (carries : term.CarriesClosed) :
    next.ComesOf term := by
  -- A binder on the way binds the same variables before and after.
  induction contracts with
  | here contracts => exact contracts.comesOf carries
  | func arg inside ih =>
    obtain ⟨nextCarries, free⟩ := ih carries.1
    refine ⟨⟨nextCarries, carries.2⟩, ?_⟩
    intro name occurs
    simp only [occursFree, Bool.or_eq_true] at occurs ⊢
    exact occurs.imp_left (free name)
  | arg func inside ih =>
    obtain ⟨nextCarries, free⟩ := ih carries.2
    refine ⟨⟨carries.1, nextCarries⟩, ?_⟩
    intro name occurs
    simp only [occursFree, Bool.or_eq_true] at occurs ⊢
    exact occurs.imp_right (free name)
  | body binder inside ih =>
    obtain ⟨nextCarries, free⟩ := ih carries
    refine ⟨nextCarries, ?_⟩
    intro name occurs
    simp only [occursFree, Bool.and_eq_true] at occurs ⊢
    exact occurs.imp_right (free name)

end Term

/-- A step frees no variable. -/
theorem Strategy.step?_comesOf {strategy : Strategy} {term next : Term}
    (carries : term.CarriesClosed) (stepped : strategy.step? term = some next) :
    next.ComesOf term := by
  -- It contracts one redex.
  obtain ⟨path, -, contracts⟩ := step?_eq_some_iff.mp stepped
  exact contracts.comesOf carries

/-- A step of a closed term that carries closed terms leads to a term of the same kind. -/
theorem Strategy.step?_closed {strategy : Strategy} {term next : Term}
    (both : term.Closed ∧ term.CarriesClosed) (stepped : strategy.step? term = some next) :
    next.Closed ∧ next.CarriesClosed := by
  obtain ⟨nextCarries, free⟩ := step?_comesOf both.2 stepped
  refine ⟨fun name => ?_, nextCarries⟩
  -- A free variable after the step would have been free before.
  rw [Bool.eq_false_iff]
  intro occurs
  have before := free name occurs
  rw [both.1 name] at before
  contradiction

/-- What every step keeps holds of the value of a run, which steps no further. -/
theorem Run.observe_value {step : Nat → Term → Option Term} {keeps : Term → Prop}
    (kept : ∀ round term next, keeps term → step round term = some next → keeps next)
    {left round : Nat} {term value : Term} (start : keeps term)
    (found : (observe step left round term).2 = some value) :
    keeps value ∧ ∃ last, step last value = none := by
  -- The last round is the one that does not step.
  induction left generalizing round term with
  | zero => simp [observe] at found
  | succ left ih =>
    simp only [observe] at found
    split at found
    · -- The term that does not step is the value.
      rename_i stops
      obtain rfl : term = value := by simpa using found
      exact ⟨start, round, stops⟩
    · rename_i next stepped
      exact ih (kept round term next start stepped) found

/-- The value of a run keeps what each step of its strategy keeps. -/
theorem Term.evaluate_value {strategy : Strategy} {keeps : Term → Prop}
    (kept : ∀ term next, keeps term → strategy.step? term = some next → keeps next)
    {term value : Term} {budget : Nat} (start : keeps term)
    (found : (term.evaluate strategy budget).value = some value) :
    keeps value ∧ strategy.isValue value := by
  -- All rounds step by the same strategy.
  obtain ⟨holds, last, stops⟩ := Run.observe_value (fun _ => kept) start found
  exact ⟨holds, Strategy.step?_eq_none_iff.mp stops⟩

/-- Runs of closed terms that carry closed terms find values of the same kind. -/
theorem Term.evaluate_closed {strategy : Strategy} {term value : Term} {budget : Nat}
    (closed : term.Closed) (carries : term.CarriesClosed)
    (found : (term.evaluate strategy budget).value = some value) :
    value.Closed ∧ value.CarriesClosed ∧ strategy.isValue value := by
  -- Every step keeps both properties.
  obtain ⟨⟨valueClosed, valueCarries⟩, stops⟩ :=
    evaluate_value (fun _ _ => Strategy.step?_closed) ⟨closed, carries⟩ found
  exact ⟨valueClosed, valueCarries, stops⟩

end NamedLambda
