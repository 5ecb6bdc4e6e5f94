import NamedLambda.Proofs.Reduction.Normalization

/-! On closed terms call by name is normal order up to the first abstraction, and it finds one
whenever any strategy finds a value. -/

namespace NamedLambda

open Relation (ReflTransGen)

namespace Strategy

open Term

/-- Call by name leaves abstractions alone, also those seen through references. -/
theorem isValue_callByName_of_isAbstraction {term : Term} (applies : term.isAbstraction) :
    callByName.isValue term := by
  -- A term seen as an abstraction is one, or a reference that leads to one.
  cases term with
  | var name => rfl
  | lam binder body => rfl
  | app func arg => simp [isAbstraction, abstraction?] at applies
  | ref name resolved =>
    have inside : resolved.isAbstraction := applies
    simp [isValue, locate, locateByName, inside]

/-- In a closed term that is no abstraction, call by name and normal order find the same redex. -/
theorem locateByName_eq_locateNormal {term : Term} (closed : term.Closed)
    (applies : term.isAbstraction = false) : locateByName term = locateNormal term := by
  -- Both look at the function first, and in a closed term never get to the argument.
  induction term with
  | var name => rfl
  | lam binder body ih => simp [isAbstraction, abstraction?] at applies
  | ref name resolved ih =>
    have inside : resolved.isAbstraction = false := applies
    simp [locateByName, locateNormal, inside]
  | app func arg funcIh argIh =>
    cases inFunc : func.isAbstraction with
    | true => simp [locateByName, locateNormal, inFunc]
    | false =>
      have funcClosed := (closed_app_iff.mp closed).1
      have same := funcIh funcClosed inFunc
      -- A closed function without a redex would be an abstraction, so the argument has no turn.
      obtain ⟨path, found⟩ : ∃ path, locateByName func = some path := by
        rw [← Option.isSome_iff_exists, Option.isSome_iff_ne_none]
        intro absent
        have value : callByName.isValue func := by simp [isValue, locate, absent]
        rw [isAbstraction_of_isValue funcClosed value] at inFunc
        contradiction
      simp [locateByName, locateNormal, inFunc, ← same, found]

/-- On closed terms call by name is normal order that stops at abstractions. -/
theorem callByName_step?_eq {term : Term} (closed : term.Closed) :
    callByName.step? term = if term.isAbstraction then none else normal.step? term := by
  -- Where it does not stop, it steps at the redex of normal order.
  split
  · rename_i applies
    exact step?_eq_none_iff.mpr (isValue_callByName_of_isAbstraction applies)
  · rename_i applies
    rw [Bool.not_eq_true] at applies
    rw [step?, step?, locate, locate, locateByName_eq_locateNormal closed applies]

/-- As long as it steps, call by name steps as normal order does. -/
theorem normal_step?_of_callByName {term next : Term} (closed : term.Closed)
    (stepped : callByName.step? term = some next) : normal.step? term = some next := by
  rw [callByName_step?_eq closed] at stepped
  -- At an abstraction it would not have stepped.
  split at stepped
  · contradiction
  · exact stepped

end Strategy

/-- Round by round call by name observes what normal order observes, until it stops. -/
theorem Run.observe_callByName {term : Term} (closed : term.Closed)
    (carries : term.CarriesClosed) (left round : Nat) :
    (observe (fun _ => Strategy.callByName.step?) left round term).1 <+:
        (observe (fun _ => Strategy.normal.step?) left round term).1 ∧
      ((observe (fun _ => Strategy.normal.step?) left round term).2.isSome →
        (observe (fun _ => Strategy.callByName.step?) left round term).2.isSome) := by
  -- Both make the same steps until call by name comes to an abstraction.
  induction left generalizing round term with
  | zero => exact ⟨List.prefix_rfl, fun found => found⟩
  | succ left ih =>
    simp only [observe]
    cases stepped : Strategy.callByName.step? term with
    | none =>
      -- The term is observed by both, and normal order may go on.
      refine ⟨?_, fun _ => rfl⟩
      cases Strategy.normal.step? term with
      | none => exact List.prefix_rfl
      | some next => exact List.cons_prefix_cons.mpr ⟨rfl, List.nil_prefix⟩
    | some next =>
      -- The step leads to a closed term again.
      have both := Strategy.step?_closed ⟨closed, carries⟩ stepped
      obtain ⟨observed, value⟩ := ih both.1 both.2 (round + 1)
      rw [Strategy.normal_step?_of_callByName closed stepped]
      exact ⟨List.cons_prefix_cons.mpr ⟨rfl, observed⟩, value⟩

namespace Term

/-- The trace of call by name is the beginning of that of normal order, which finds no value before
call by name does. -/
theorem evaluate_callByName_prefix {term : Term} (closed : term.Closed)
    (carries : term.CarriesClosed) (budget : Nat) :
    (term.evaluate .callByName budget).trace <+: (term.evaluate .normal budget).trace ∧
      (term.evaluate .callByName budget).observed <+: (term.evaluate .normal budget).observed ∧
      ∀ value, (term.evaluate .normal budget).value = some value →
        ∃ weak, (term.evaluate .callByName budget).value = some weak ∧
          (term.evaluate .callByName budget).steps ≤ (term.evaluate .normal budget).steps := by
  -- The rounds of the runs are compared, and the texts are printed from them.
  obtain ⟨observed, halts⟩ : (term.evaluate .callByName budget).observed <+:
        (term.evaluate .normal budget).observed ∧
      ((term.evaluate .normal budget).value.isSome →
        (term.evaluate .callByName budget).value.isSome) :=
    Run.observe_callByName closed carries budget 0
  refine ⟨observed.map Term.text, observed, ?_⟩
  intro value found
  obtain ⟨weak, weakFound⟩ := Option.isSome_iff_exists.mp (halts (by simp [found]))
  refine ⟨weak, weakFound, ?_⟩
  -- Both runs stop, so each has made one step less than it has observed terms.
  have fewer := observed.length_le
  simp only [Run.steps, Run.timedOut, found, weakFound, Option.isNone_some, Bool.false_eq_true,
    if_false]
  omega

/-- Normal order goes on in the body of the abstraction at which call by name stops. -/
theorem evaluate_callByName_prefix_body :
    let term := app (lam "f" (lam "x" (app (var "f") (var "x")))) (ref "I" (lam "y" (var "y")))
    (term.evaluate .callByName 9).trace =
        ["(λf.λx.f x) I", "λx.I x"] ∧
      (term.evaluate .normal 9).trace = ["(λf.λx.f x) I", "λx.I x", "λx.x"] ∧
      (term.evaluate .callByName 9).trace <+: (term.evaluate .normal 9).trace ∧
      (term.evaluate .callByName 9).steps ≤ (term.evaluate .normal 9).steps := by
  intro term
  have closed : term.Closed := firstFree?_eq_none_iff.mp rfl
  have carries : term.CarriesClosed :=
    ⟨⟨trivial, trivial⟩, firstFree?_eq_none_iff.mp rfl, trivial⟩
  -- Normal order contracts the redex below the abstraction and is done.
  have value : (term.evaluate .normal 9).value = some (lam "x" (var "x")) := by decide +kernel
  obtain ⟨trace, -, halts⟩ := evaluate_callByName_prefix closed carries 9
  obtain ⟨-, -, steps⟩ := halts _ value
  exact ⟨by decide +kernel, by decide +kernel, trace, steps⟩

/-- On closed terms that carry closed terms call by name follows normal order. -/
theorem followsNormal_callByName :
    FollowsNormal .callByName (fun term => term.Closed ∧ term.CarriesClosed) where
  carries := fun _ both => both.2
  normalStep := fun _ _ both stepped =>
    normalStep_of_step? (Strategy.normal_step?_of_callByName both.1 stepped)
  kept := fun _ _ => Strategy.step?_closed

/-- Call by name halts on a closed term if some contractions lead to an abstraction,
seen through references. -/
theorem callByName_halts_of_contracts {term result : Term} (closed : term.Closed)
    (carries : term.CarriesClosed) (leads : ReflTransGen Contracts term result)
    (applies : result.isAbstraction) : term.Halts .callByName := by
  obtain ⟨⟨binder, body⟩, found⟩ := Option.isSome_iff_exists.mp applies
  -- The contractions reduce the expansion to an abstraction.
  have reduces := (contracts_reduces carries leads).2
  rw [expand_of_abstraction? found] at reduces
  -- Put into order, the reductions reach some abstraction by reductions at the head only.
  obtain ⟨inner, heads, -⟩ := reduces.standard.lam_inv
  refine followsNormal_callByName.halts_of_reaches ⟨closed, carries⟩
    (Nameless.Leftmost.of_heads heads) ?_
  intro last _ same
  refine halts_of_isValue (Strategy.isValue_callByName_of_isAbstraction ?_)
  -- Only an abstraction expands to one.
  cases seen : last.isAbstraction with
  | true => rfl
  | false => exact absurd same (namelessUnder_expand_ne_lam seen [] inner)

/-- Call by name halts on every closed term on which some strategy does. -/
theorem callByName_halts {term : Term} (closed : term.Closed) (carries : term.CarriesClosed)
    {strategy : Strategy} (halts : term.Halts strategy) : term.Halts .callByName := by
  -- What the strategy stops at is closed, and closed values are abstractions.
  obtain ⟨budget, value, found⟩ := halts
  obtain ⟨valueClosed, -, stops⟩ := evaluate_closed closed carries found
  exact callByName_halts_of_contracts closed carries (evaluate_contracts found).1
    (Strategy.isAbstraction_of_isValue valueClosed stops)

/-- Call by name halts, although it passes on an argument that call by value evaluates first. -/
theorem callByName_halts_copied_argument :
    let identity := ref "I" (lam "y" (var "y"))
    let term := app (lam "x" (app (var "x") (var "x"))) (app identity identity)
    term.Closed ∧ term.CarriesClosed ∧ (term.evaluate .callByValue 9).value = some identity ∧
      term.Halts .callByName := by
  intro identity term
  have closed : term.Closed := firstFree?_eq_none_iff.mp rfl
  have carried : identity.CarriesClosed := ⟨firstFree?_eq_none_iff.mp rfl, trivial⟩
  have carries : term.CarriesClosed := ⟨⟨trivial, trivial⟩, carried, carried⟩
  -- Call by value halts on the term, which is closed.
  have byValue : (term.evaluate .callByValue 9).value = some identity := by decide +kernel
  exact ⟨closed, carries, byValue, callByName_halts closed carries ⟨9, identity, byValue⟩⟩

end Term

end NamedLambda
