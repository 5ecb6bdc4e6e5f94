import NamedLambda.Proofs.Reduction.Values
import NamedLambda.Proofs.Term.Alike
import NamedLambda.Proofs.Term.Instantiation

/-! Runs of terms that differ in the names of bound variables only go the same way. -/

namespace NamedLambda

namespace Term

/-- Options of one image have one image under all that depends on it. -/
theorem map_comp_eq {α β γ δ : Type} {f : α → γ} {g : β → γ} {left : Option α} {right : Option β}
    (same : left.map f = right.map g) (h : γ → δ) : left.map (h ∘ f) = right.map (h ∘ g) := by
  -- What depends on an image is computed from it.
  rw [← Option.map_map, ← Option.map_map, same]

/-- The nameless body of the abstraction that a term is once references are looked through. -/
def bodyUnder? (binders : List Name) (term : Term) : Option Nameless :=
  term.abstraction?.map (fun (binder, body) => body.namelessUnder (binder :: binders))

/-- An application contracts to the body applied to the argument. -/
theorem contract?_app_namelessUnder (func arg : Term) (binders : List Name) :
    (app func arg).contract?.map (namelessUnder binders) =
      (func.bodyUnder? binders).map (·.applyTo (arg.namelessUnder binders)) := by
  -- Substitution is application, whatever the binders around it.
  rw [contract?, bodyUnder?, Option.map_map, Option.map_map]
  congr 1
  funext abstraction
  exact namelessUnder_substitute_applyTo abstraction.2 abstraction.1 arg binders

namespace Alike

variable {leftBound rightBound : List Name} {left right : Term}

/-- Terms that are alike are seen as abstractions alike. -/
theorem isAbstraction_eq (alike : Alike leftBound rightBound left right) :
    left.isAbstraction = right.isAbstraction := by
  -- They have the same constructor, and references carry the same term.
  cases alike with
  | var same => rfl
  | lam body => rfl
  | app func arg => rfl
  | ref leftBound rightBound name resolved => rfl

/-- A strategy contracts at the same place in terms that are alike. -/
theorem locate_eq (alike : Alike leftBound rightBound left right) (strategy : Strategy) :
    strategy.locate left = strategy.locate right := by
  -- The search asks for the constructors, and for abstractions among the functions.
  induction alike with
  | var same => cases strategy <;> rfl
  | lam body ih =>
    -- Only the strategies that go below abstractions search the body.
    cases strategy with
    | callByValue => rfl
    | callByName => rfl
    | applicative => exact congrArg (Option.map (.body :: ·)) ih
    | normal => exact congrArg (Option.map (.body :: ·)) ih
  | app func arg funcIh argIh =>
    -- Both functions are abstractions or neither is, and the parts are searched alike.
    have applies := func.isAbstraction_eq
    cases strategy with
    | callByValue =>
      simp only [Strategy.locate] at funcIh argIh ⊢
      simp only [Strategy.locateByValue, applies, funcIh, argIh]
    | callByName =>
      simp only [Strategy.locate] at funcIh argIh ⊢
      simp only [Strategy.locateByName, applies, funcIh, argIh]
    | applicative =>
      simp only [Strategy.locate] at funcIh argIh ⊢
      simp only [Strategy.locateApplicative, applies, funcIh, argIh]
    | normal =>
      simp only [Strategy.locate] at funcIh argIh ⊢
      simp only [Strategy.locateNormal, applies, funcIh, argIh]
  | ref leftBound rightBound name resolved => rfl

/-- The abstractions that terms alike are seen as have one nameless body. -/
theorem bodyUnder?_eq (alike : Alike leftBound rightBound left right)
    (carries : left.CarriesClosed) : left.bodyUnder? leftBound = right.bodyUnder? rightBound := by
  -- Behind a reference both see one and the same body, below different binders.
  cases alike with
  | var same => rfl
  | lam body => exact congrArg some body.namelessUnder_eq
  | app func arg => rfl
  | ref leftBound rightBound name resolved =>
    simp only [bodyUnder?, abstraction?]
    cases found : resolved.abstraction? with
    | none => rfl
    | some abstraction =>
      obtain ⟨binder, body⟩ := abstraction
      have free := (abstraction?_sound carries.2 found).2
      refine congrArg some (namelessUnder_congr ?_)
      -- The term carried is closed, so its own binder is the only one that counts.
      intro other occurs
      by_cases same : binder = other
      · simp [List.idxOf?_cons, same]
      · have outside := free other (by simp [occursFree, same, occurs])
        rw [carries.1 other] at outside
        contradiction

/-- Redexes that are alike contract to terms of one nameless form. -/
theorem contract?_eq (alike : Alike leftBound rightBound left right)
    (carries : left.CarriesClosed) :
    left.contract?.map (namelessUnder leftBound) =
      right.contract?.map (namelessUnder rightBound) := by
  -- Of what is alike only applications and references contract.
  cases alike with
  | var same => rfl
  | lam body => rfl
  | app func arg =>
    rw [contract?_app_namelessUnder, contract?_app_namelessUnder, func.bodyUnder?_eq carries.1,
      arg.namelessUnder_eq]
  | ref leftBound rightBound name resolved =>
    -- What a reference carries is closed, so that the binders around it make no difference.
    have closed (binders : List Name) : resolved.namelessUnder binders = resolved.nameless :=
      namelessUnder_eq_nameless (fun binder _ => carries.1 binder)
    simp only [contract?, Option.map_some, closed]

/-- Contracted at one place, terms that are alike have one nameless form. -/
theorem contractAt?_eq (alike : Alike leftBound rightBound left right)
    (carries : left.CarriesClosed) (path : Path) :
    (left.contractAt? path).map (namelessUnder leftBound) =
      (right.contractAt? path).map (namelessUnder rightBound) := by
  -- What is around the contracted part keeps its nameless form.
  induction path generalizing left right leftBound rightBound with
  | nil => exact alike.contract?_eq carries
  | cons branch rest ih =>
    cases alike with
    | var same => cases branch <;> rfl
    | ref leftBound rightBound name resolved => cases branch <;> rfl
    | lam body =>
      cases branch with
      | func => rfl
      | arg => rfl
      | body =>
        rw [contractAt?, contractAt?, Option.map_map, Option.map_map]
        exact map_comp_eq (ih body carries) Nameless.lam
    | @app _ _ leftFunc rightFunc leftArg rightArg func arg =>
      cases branch with
      | func =>
        rw [contractAt?, contractAt?, Option.map_map, Option.map_map]
        have inside := map_comp_eq (ih func carries.1)
          (Nameless.app · (leftArg.namelessUnder leftBound))
        -- The part beside the path has one nameless form as well.
        refine inside.trans ?_
        rw [arg.namelessUnder_eq]
        rfl
      | arg =>
        rw [contractAt?, contractAt?, Option.map_map, Option.map_map]
        have inside := map_comp_eq (ih arg carries.2)
          (Nameless.app (leftFunc.namelessUnder leftBound))
        refine inside.trans ?_
        rw [func.namelessUnder_eq]
        rfl
      | body => rfl

end Alike

end Term

open Term

/-- Terms of one nameless form step to one nameless form. -/
theorem Strategy.step?_nameless {left right : Term} (same : left.nameless = right.nameless)
    (carries : left.CarriesClosed) (strategy : Strategy) :
    (strategy.step? left).map nameless = (strategy.step? right).map nameless := by
  -- The place is the same, and so is what comes of contracting there.
  -- One nameless form makes terms alike, node by node.
  have alike := alike_of_namelessUnder same
  rw [step?, step?, alike.locate_eq strategy]
  cases strategy.locate right with
  | none => rfl
  | some path => exact alike.contractAt?_eq carries path

/-- Round by round, terms of one nameless form are observed as terms of one nameless form. -/
theorem Run.observe_nameless {first second : Term} (same : first.nameless = second.nameless)
    (carries : first.CarriesClosed) (strategy : Strategy) (left round : Nat) :
    (observe (fun _ => strategy.step?) left round first).1.map nameless =
        (observe (fun _ => strategy.step?) left round second).1.map nameless ∧
      (observe (fun _ => strategy.step?) left round first).2.map nameless =
        (observe (fun _ => strategy.step?) left round second).2.map nameless := by
  -- Each round looks at terms of one nameless form, and hands on such terms.
  induction left generalizing round first second with
  | zero => exact ⟨rfl, rfl⟩
  | succ left ih =>
    have stepped := Strategy.step?_nameless same carries strategy
    simp only [observe]
    -- Both runs go on, or both stop.
    cases fromFirst : strategy.step? first with
    | none =>
      rw [fromFirst, Option.map_none, eq_comm, Option.map_eq_none_iff] at stepped
      simp [stepped, same]
    | some next =>
      rw [fromFirst, Option.map_some, eq_comm, Option.map_eq_some_iff] at stepped
      obtain ⟨other, fromSecond, sameNext⟩ := stepped
      have nextCarries := (Strategy.step?_comesOf carries fromFirst).1
      obtain ⟨observed, value⟩ := ih sameNext.symm nextCarries (round + 1)
      simp [fromSecond, same, observed, value]

/-- What is the same for terms of one nameless form is the same along lists of them. -/
theorem map_eq_of_nameless {α : Type} {f : Term → α}
    (agree : ∀ left right : Term, left.nameless = right.nameless → f left = f right)
    {lefts rights : List Term} (same : lefts.map nameless = rights.map nameless) :
    lefts.map f = rights.map f := by
  -- The lists are of one length, and agree place by place.
  induction lefts generalizing rights with
  | nil =>
    obtain rfl : rights = [] := by simpa [eq_comm] using same
    rfl
  | cons left lefts ih =>
    cases rights with
    | nil => simp at same
    | cons right rights =>
      simp only [List.map_cons, List.cons.injEq] at same
      rw [List.map_cons, List.map_cons, agree left right same.1, ih same.2]

namespace Term

/-- The names of bound variables change neither the number of steps, nor where they are made, nor
whether the budget is enough, and the value only up to bound names. -/
theorem evaluate_bound_names {left right : Term} (same : left.nameless = right.nameless)
    (carries : left.CarriesClosed) (strategy : Strategy) (budget : Nat) :
    (left.evaluate strategy budget).steps = (right.evaluate strategy budget).steps ∧
      (left.evaluate strategy budget).timedOut = (right.evaluate strategy budget).timedOut ∧
      (left.evaluate strategy budget).observed.map strategy.locate =
        (right.evaluate strategy budget).observed.map strategy.locate ∧
      ∀ leftValue rightValue, (left.evaluate strategy budget).value = some leftValue →
        (right.evaluate strategy budget).value = some rightValue →
        leftValue.alphaEq rightValue ∧ leftValue.nameless = rightValue.nameless := by
  obtain ⟨observed, value⟩ : (left.evaluate strategy budget).observed.map nameless =
      (right.evaluate strategy budget).observed.map nameless ∧
      (left.evaluate strategy budget).value.map nameless =
        (right.evaluate strategy budget).value.map nameless :=
    Run.observe_nameless same carries strategy budget 0
  -- Whether there is a value, and how many rounds there were, shows in the nameless forms.
  have timedOut : (left.evaluate strategy budget).timedOut =
      (right.evaluate strategy budget).timedOut := by
    simpa [Run.timedOut] using congrArg Option.isNone value
  have rounds : (left.evaluate strategy budget).observed.length =
      (right.evaluate strategy budget).observed.length := by
    simpa using congrArg List.length observed
  refine ⟨?_, timedOut, ?_, ?_⟩
  · rw [Run.steps, Run.steps, timedOut, rounds]
  · exact map_eq_of_nameless
      (fun _ _ same => (alike_of_namelessUnder same).locate_eq strategy) observed
  · -- Values of one nameless form are equal up to bound names.
    intro leftValue rightValue inLeft inRight
    have sameValue : leftValue.nameless = rightValue.nameless := by
      simpa [inLeft, inRight] using value
    exact ⟨alphaEq_of_nameless sameValue, sameValue⟩

/-- Only one of two terms that differ in bound names has to rename a binder. -/
theorem evaluate_bound_names_captured :
    let left := app (lam "x" (lam "y" (app (var "x") (var "y")))) (var "y")
    let right := app (lam "a" (lam "b" (app (var "a") (var "b")))) (var "y")
    left.nameless = right.nameless ∧
      (left.evaluate .normal 5).value = some (lam "y1" (app (var "y") (var "y1"))) ∧
      (right.evaluate .normal 5).value = some (lam "b" (app (var "y") (var "b"))) ∧
      (left.evaluate .normal 5).steps = (right.evaluate .normal 5).steps ∧
      (lam "y1" (app (var "y") (var "y1"))).alphaEq (lam "b" (app (var "y") (var "b"))) := by
  intro left right
  -- No reference is in either term, so that nothing is carried.
  have carries : left.CarriesClosed := ⟨⟨trivial, trivial⟩, trivial⟩
  have same : left.nameless = right.nameless := by decide
  have leftValue : (left.evaluate .normal 5).value =
      some (lam "y1" (app (var "y") (var "y1"))) := by decide +kernel
  have rightValue : (right.evaluate .normal 5).value =
      some (lam "b" (app (var "y") (var "b"))) := by decide +kernel
  obtain ⟨steps, -, -, values⟩ := evaluate_bound_names same carries .normal 5
  exact ⟨same, leftValue, rightValue, steps, (values _ _ leftValue rightValue).1⟩

end Term

end NamedLambda
