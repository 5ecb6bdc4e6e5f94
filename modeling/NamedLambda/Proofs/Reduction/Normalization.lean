import NamedLambda.Proofs.Nameless.Confluence
import NamedLambda.Proofs.Nameless.Standardization
import NamedLambda.Proofs.Reduction.Contraction
import NamedLambda.Proofs.Reduction.Rounds

/-! Normal order finds a value of every term that contractions lead to a term without redexes. -/

namespace NamedLambda

open Relation (ReflTransGen)

namespace Term

/-- A strategy finds a value of the term within some budget. -/
def Halts (term : Term) (strategy : Strategy) : Prop :=
  ∃ budget value, (term.evaluate strategy budget).value = some value

/-- A strategy halts on its values. -/
theorem halts_of_isValue {term : Term} {strategy : Strategy} (value : strategy.isValue term) :
    term.Halts strategy := by
  -- One round is enough to see that there is no step.
  have stops := Strategy.step?_eq_none_iff.mpr value
  exact ⟨1, term, by simp [evaluate, Run.of, Run.observe, stops]⟩

/-- One more round finds the value of the term that a step leads to. -/
theorem halts_of_step? {term next : Term} {strategy : Strategy}
    (stepped : strategy.step? term = some next) (halts : next.Halts strategy) :
    term.Halts strategy := by
  -- The value is one step farther away, which takes one more round.
  obtain ⟨budget, value, found⟩ := halts
  obtain ⟨times, allowed, reached, stops⟩ := Run.observe_eq_some_iff.mp found
  refine ⟨budget + 1, value, Run.observe_eq_some_iff.mpr
    ⟨times + 1, Nat.succ_lt_succ allowed, ?_, stops⟩⟩
  rw [Run.stepTimes?, stepped, Option.bind_some, reached]

/-- What a step of normal order does, from the outside to the inside and from left to right. -/
inductive NormalStep : Term → Term → Prop where
  /-- A reference is followed. -/
  | follow (name : Name) (resolved : Term) : NormalStep (ref name resolved) resolved
  /-- An abstraction, seen through references, is applied. -/
  | contract {func : Term} {binder : Name} {body : Term} (arg : Term)
    (found : func.abstraction? = some (binder, body)) :
    NormalStep (app func arg) (body.substitute binder arg)
  /-- A step in the body of an abstraction. -/
  | body {body next : Term} (binder : Name) (inside : NormalStep body next) :
    NormalStep (lam binder body) (lam binder next)
  /-- A step in a function that is no abstraction. -/
  | func {func next : Term} (arg : Term) (applies : func.isAbstraction = false)
    (inside : NormalStep func next) : NormalStep (app func arg) (app next arg)
  /-- A step in the argument of a function that has no step. -/
  | arg {func arg next : Term} (applies : func.isAbstraction = false)
    (value : Strategy.normal.isValue func) (inside : NormalStep arg next) :
    NormalStep (app func arg) (app func next)

/-- Normal order takes such steps. -/
theorem normalStep_of_step? {term next : Term} (stepped : Strategy.normal.step? term = some next) :
    NormalStep term next := by
  obtain ⟨path, located, contracts⟩ := Strategy.step?_eq_some_iff.mp stepped
  replace located : Strategy.locateNormal term = some path := located
  clear stepped
  -- The search for the redex descends into the part that the contraction is in.
  induction contracts with
  -- Where the path ends the redex itself is contracted.
  | here contracts =>
    cases contracts with
    | apply arg found => exact .contract arg found
    | follow name resolved => exact .follow name _
  | body binder inside ih =>
    exact .body binder (ih (by simpa [Strategy.locateNormal] using located))
  -- The search enters the function if the application is no redex.
  | func arg inside ih =>
    simp only [Strategy.locateNormal] at located
    split at located
    · simp at located
    · rename_i applies
      rw [Bool.not_eq_true] at applies
      exact .func arg applies (ih (by simpa [Option.or_eq_some_iff] using located))
  -- It enters the argument if nothing is found in the function.
  | arg func inside ih =>
    simp only [Strategy.locateNormal] at located
    split at located
    · simp at located
    · rename_i applies
      rw [Bool.not_eq_true] at applies
      obtain ⟨absent, inArg⟩ : Strategy.locateNormal func = none ∧ _ := by
        simpa [Option.or_eq_some_iff] using located
      exact .arg applies (by simp [Strategy.isValue, Strategy.locate, absent]) (ih inArg)

/-- A step of normal order follows a reference, which makes the term smaller and does not show in
its expansion, or carries out the leftmost application there. -/
theorem NormalStep.expand {term next : Term} (step : NormalStep term next)
    (carries : term.CarriesClosed) :
    next.expand = term.expand ∧ sizeOf next < sizeOf term ∨
      ∀ binders, Nameless.Leftmost (term.expand.namelessUnder binders)
        (next.expand.namelessUnder binders) := by
  -- What stands to the left of the step is a value, whose expansion reduces no further.
  induction step with
  | follow name resolved => exact .inl ⟨rfl, by rw [ref.sizeOf_spec]; omega⟩
  | @contract func binder body arg found =>
    -- The expansion applies the same abstraction to the expanded argument.
    refine .inr fun binders => ?_
    have bodyCarries := (abstraction?_sound carries.1 found).1
    rw [Term.expand, expand_of_abstraction? found, namelessUnder, namelessUnder,
      namelessUnder_expand_substitute bodyCarries carries.2]
    exact .contract _ _
  -- A step inside a part is made at the same place of the expansion.
  | body binder inside ih =>
    rcases ih carries with ⟨same, smaller⟩ | leftmost
    · exact .inl ⟨by rw [Term.expand, Term.expand, same], by simpa using smaller⟩
    · exact .inr fun binders => .lam (leftmost (binder :: binders))
  | func arg applies inside ih =>
    rcases ih carries.1 with ⟨same, smaller⟩ | leftmost
    · exact .inl ⟨by rw [Term.expand, Term.expand, same], by simpa using smaller⟩
    · exact .inr fun binders =>
        .func _ (namelessUnder_expand_ne_lam applies binders) (leftmost binders)
  | arg applies value inside ih =>
    rcases ih carries.2 with ⟨same, smaller⟩ | leftmost
    · exact .inl ⟨by rw [Term.expand, Term.expand, same], by simpa using smaller⟩
    · exact .inr fun binders => .arg (namelessUnder_expand_ne_lam applies binders)
        (normal_expand value binders) (leftmost binders)

/-- On terms of a class that it does not leave, a strategy takes only steps of normal order. -/
structure FollowsNormal (strategy : Strategy) (keeps : Term → Prop) : Prop where
  /-- References carry closed terms. -/
  carries : ∀ term, keeps term → term.CarriesClosed
  /-- A step of the strategy is one of normal order. -/
  normalStep : ∀ term next, keeps term → strategy.step? term = some next → NormalStep term next
  /-- A step of the strategy leads to a term of the class. -/
  kept : ∀ term next, keeps term → strategy.step? term = some next → keeps next

/-- Normal order follows itself, as its steps keep carried terms closed. -/
theorem followsNormal_normal : FollowsNormal .normal CarriesClosed where
  carries := fun _ carries => carries
  normalStep := fun _ _ _ => normalStep_of_step?
  kept := fun _ _ carries stepped => (Strategy.step?_comesOf carries stepped).1

namespace FollowsNormal

variable {strategy : Strategy} {keeps : Term → Prop}

/-- A term halts if all terms do that one leftmost reduction of its expansion leads to. -/
theorem halts_of_leftmost (follows : FollowsNormal strategy keeps) {term : Term}
    (start : keeps term)
    (later : ∀ next : Term, keeps next →
      Nameless.Leftmost term.expand.nameless next.expand.nameless → next.Halts strategy) :
    term.Halts strategy := by
  -- Only finitely many references can be followed before an application is carried out.
  induction size : sizeOf term using Nat.strongRecOn generalizing term with
  | ind count ih =>
    cases stepped : strategy.step? term with
    | none => exact halts_of_isValue (Strategy.step?_eq_none_iff.mp stepped)
    | some next =>
      refine halts_of_step? stepped ?_
      have nextKept := follows.kept term next start stepped
      have step := follows.normalStep term next start stepped
      rcases step.expand (follows.carries term start) with ⟨same, smaller⟩ | leftmost
      · -- A reference was followed, so that the term is smaller and expands as before.
        refine ih (sizeOf next) (size ▸ smaller) nextKept ?_ rfl
        rwa [same]
      · exact later next nextKept (leftmost [])

/-- A term halts if leftmost reductions of its expansion lead to one whose terms halt. -/
theorem halts_of_reaches (follows : FollowsNormal strategy keeps) {term : Term}
    (start : keeps term) {reached : Nameless}
    (reaches : ReflTransGen Nameless.Leftmost term.expand.nameless reached)
    (ends : ∀ last : Term, keeps last → last.expand.nameless = reached → last.Halts strategy) :
    term.Halts strategy := by
  -- The strategy follows the leftmost reductions one by one, as there is no choice of them.
  generalize same : term.expand.nameless = expansion at reaches
  induction reaches using ReflTransGen.head_induction_on generalizing term with
  -- The leftmost reductions are over.
  | refl => exact ends term start same
  | head step rest ih =>
    refine follows.halts_of_leftmost start ?_
    intro next nextKept leftmost
    rw [same] at leftmost
    exact ih nextKept (leftmost.unique step)

end FollowsNormal

/-- A term halts if its expansion has a normal form. -/
theorem halts_of_reduces {term : Term} (carries : term.CarriesClosed) {normalForm : Nameless}
    (reduces : term.expand.nameless.Reduces normalForm) (normal : normalForm.Normal) :
    term.Halts .normal := by
  -- Leftmost reductions reach the normal form, and normal order follows them.
  refine followsNormal_normal.halts_of_reaches carries (reduces.leftmost normal) ?_
  intro last lastCarries same
  -- At the normal form there is no leftmost reduction left to follow.
  refine followsNormal_normal.halts_of_leftmost lastCarries ?_
  intro next _ leftmost
  rw [same] at leftmost
  exact absurd leftmost.beta (normal _)

section

variable {term reduced : Term} (carries : term.CarriesClosed)
  (reducedCarries : reduced.CarriesClosed)
  (reduces : term.expand.nameless.Reduces reduced.expand.nameless)
include carries reducedCarries reduces

/-- A term halts exactly when a term does that it reduces to, with both expanded. -/
theorem halts_iff_of_reduces : term.Halts .normal ↔ reduced.Halts .normal := by
  -- The value of either one is a normal form of both.
  constructor
  · rintro ⟨budget, value, found⟩
    obtain ⟨finds, normal⟩ := evaluate_to_normal carries found
    exact halts_of_reduces reducedCarries (Nameless.Reduces.to_normal reduces finds normal) normal
  · rintro ⟨budget, value, found⟩
    obtain ⟨finds, normal⟩ := evaluate_to_normal reducedCarries found
    exact halts_of_reduces carries (reduces.trans finds) normal

/-- A term has the value of a term that it reduces to, with both expanded. -/
theorem value_nameless_of_reduces {budget reducedBudget : Nat} {value reducedValue : Term}
    (found : (term.evaluate .normal budget).value = some value)
    (reducedFound : (reduced.evaluate .normal reducedBudget).value = some reducedValue) :
    value.nameless = reducedValue.nameless := by
  -- Both values are normal forms of one expansion, which has only one.
  obtain ⟨finds, normal⟩ := evaluate_to_normal carries found
  obtain ⟨reducedFinds, reducedNormal⟩ := evaluate_to_normal reducedCarries reducedFound
  exact Nameless.normalForm_unique finds (reduces.trans reducedFinds) normal reducedNormal

end

/-- Normal order finds a value of every term that some contractions lead to a
term without redexes. -/
theorem halts_of_contracts {term result : Term} (carries : term.CarriesClosed)
    (leads : ReflTransGen Contracts term result) (free : result.RedexFree) :
    term.Halts .normal := by
  -- What the contractions lead to is a normal form of the expansion.
  obtain ⟨reduces, normal⟩ := contracts_to_normal carries leads free
  exact halts_of_reduces carries reduces normal

/-- Normal order halts although the argument has no value, as it is not used. -/
theorem halts_of_contracts_unused_argument :
    let discard := app (ref "K" (lam "x" (lam "y" (var "x")))) (var "z")
    let loop := app (lam "x" (app (var "x") (var "x"))) (lam "x" (app (var "x") (var "x")))
    (app discard loop).CarriesClosed ∧
      ReflTransGen Contracts (app discard loop) (var "z") ∧ (var "z").RedexFree ∧
      (app discard loop).Halts .normal := by
  intro discard loop
  have carries : (app discard loop).CarriesClosed := by
    have closed : (lam "x" (lam "y" (var "x"))).Closed := firstFree?_eq_none_iff.mp rfl
    exact ⟨⟨⟨closed, trivial⟩, trivial⟩, ⟨trivial, trivial⟩, trivial, trivial⟩
  -- The function is contracted first, and then the application that discards the argument.
  have first : (app discard loop).Contracts (app (lam "y" (var "z")) loop) :=
    ⟨[.func], by decide +kernel⟩
  have second : (app (lam "y" (var "z")) loop).Contracts (var "z") := ⟨[], by decide +kernel⟩
  have leads := (ReflTransGen.single first).tail second
  have free : (var "z").RedexFree := (redexFree_iff (.inr rfl)).mpr rfl
  exact ⟨carries, leads, free, halts_of_contracts carries leads free⟩

end Term

end NamedLambda
