import NamedLambda.Proofs.Reduction.Redex

/-! The strategies that leave abstractions alone take a term apart in at most one way: it is a
value, or just one of the positions that they come to holds a redex, which is contracted next. -/

namespace NamedLambda

open Term

/-- What a strategy that leaves abstractions alone does not reduce any further. -/
inductive Term.WeakValue : Term → Prop where
  /-- A variable stands for nothing that could be reduced. -/
  | var (name : Name) : WeakValue (var name)
  /-- The body of an abstraction is left alone. -/
  | lam (binder : Name) (body : Term) : WeakValue (lam binder body)
  /-- A reference stands for the abstraction that it leads to. -/
  | ref (name : Name) {resolved : Term} (applies : (ref name resolved).isAbstraction) :
    WeakValue (ref name resolved)
  /-- Nothing is applied, and there is nothing left to reduce in either part. -/
  | app {func arg : Term} (applies : func.isAbstraction = false) (funcValue : WeakValue func)
    (argValue : WeakValue arg) : WeakValue (app func arg)

/-- How a strategy that leaves abstractions alone passes arguments. -/
inductive Passing where
  /-- An argument is reduced to a value before it is passed. -/
  | byValue
  /-- An argument is passed as it is. -/
  | byName
deriving DecidableEq, Repr

namespace Passing

/-- The strategy that passes arguments this way. -/
def strategy : Passing → Strategy
  | byValue => .callByValue
  | byName => .callByName

/-- Whether it is the turn of the argument of a function. -/
def Enters : Passing → Term → Prop
  | byValue, func => func.isAbstraction ∨ func.WeakValue
  -- An abstraction takes its argument as it is.
  | byName, func => func.isAbstraction = false ∧ func.WeakValue

/-- Whether an abstraction takes an argument as it is. -/
def Accepts : Passing → Term → Prop
  | byValue, arg => arg.WeakValue
  | byName, _ => True

/-- The positions that evaluation comes to. -/
inductive Position (passing : Passing) : Term → Path → Prop where
  /-- Evaluation begins with the whole term. -/
  | root (term : Term) : Position passing term []
  /-- It goes on in a function that is no abstraction yet. -/
  | func {func : Term} {path : Path} (arg : Term) (applies : func.isAbstraction = false)
    (inside : Position passing func path) : Position passing (app func arg) (.func :: path)
  /-- It goes on in an argument that has its turn. -/
  | arg {func arg : Term} {path : Path} (enters : passing.Enters func)
    (inside : Position passing arg path) : Position passing (app func arg) (.arg :: path)

/-- What evaluation contracts at a position that it comes to. -/
inductive Redex (passing : Passing) : Term → Prop where
  /-- A reference that does not lead to an abstraction is followed. -/
  | follow (name : Name) {resolved : Term} (applies : (ref name resolved).isAbstraction = false) :
    Redex passing (ref name resolved)
  /-- An abstraction is applied to an argument that it takes. -/
  | contract {func arg : Term} (applies : func.isAbstraction) (accepted : passing.Accepts arg) :
    Redex passing (app func arg)

/-- That evaluation of a term comes to a redex at a path. -/
def Decomposes (passing : Passing) (term : Term) (path : Path) : Prop :=
  passing.Position term path ∧ ∃ redex, term.at? path = some redex ∧ passing.Redex redex

variable {passing : Passing}

/-- A reference is a value if it leads to an abstraction. -/
theorem weakValue_ref_iff {name : Name} {resolved : Term} :
    (ref name resolved).WeakValue ↔ (ref name resolved).isAbstraction := by
  -- There is one rule for references.
  constructor
  · rintro ⟨⟩
    assumption
  · exact .ref name

/-- An application is a value if its function is no abstraction and both parts are values. -/
theorem weakValue_app_iff {func arg : Term} :
    (app func arg).WeakValue ↔ func.isAbstraction = false ∧ func.WeakValue ∧ arg.WeakValue := by
  -- There is one rule for applications, with these conditions.
  constructor
  · rintro ⟨⟩
    exact ⟨‹_›, ‹_›, ‹_›⟩
  · rintro ⟨applies, funcValue, argValue⟩
    exact .app applies funcValue argValue

/-- A variable is not taken apart. -/
theorem not_decomposes_var {name : Name} {path : Path} : ¬passing.Decomposes (var name) path := by
  -- Evaluation comes to the variable only, which is no redex.
  rintro ⟨⟨⟩, redex, located, redexes⟩
  obtain rfl : var name = redex := by simpa [at?] using located
  cases redexes

/-- An abstraction is not taken apart. -/
theorem not_decomposes_lam {binder : Name} {body : Term} {path : Path} :
    ¬passing.Decomposes (lam binder body) path := by
  -- Evaluation does not come to the body.
  rintro ⟨⟨⟩, redex, located, redexes⟩
  obtain rfl : lam binder body = redex := by simpa [at?] using located
  cases redexes

/-- A reference is taken apart at itself, if it leads to no abstraction. -/
theorem decomposes_ref_iff {name : Name} {resolved : Term} {path : Path} :
    passing.Decomposes (ref name resolved) path ↔
      path = [] ∧ (ref name resolved).isAbstraction = false := by
  -- Evaluation does not come to what the reference carries.
  constructor
  · rintro ⟨⟨⟩, redex, located, redexes⟩
    obtain rfl : ref name resolved = redex := by simpa [at?] using located
    cases redexes with
    | follow name applies => exact ⟨rfl, applies⟩
  · rintro ⟨rfl, applies⟩
    exact ⟨.root _, _, rfl, .follow name applies⟩

/-- An application is taken apart at itself, in its function or in its argument. -/
theorem decomposes_app_iff {func arg : Term} {path : Path} :
    passing.Decomposes (app func arg) path ↔
      path = [] ∧ func.isAbstraction ∧ passing.Accepts arg ∨
        (∃ rest, path = .func :: rest ∧ func.isAbstraction = false ∧
          passing.Decomposes func rest) ∨
        ∃ rest, path = .arg :: rest ∧ passing.Enters func ∧ passing.Decomposes arg rest := by
  -- A longer path goes on as one in the part behind its first branch, to the same redex.
  constructor
  · rintro ⟨position, redex, located, redexes⟩
    cases position with
    | root =>
      obtain rfl : app func arg = redex := by simpa [at?] using located
      cases redexes with
      | contract applies accepted => exact .inl ⟨rfl, applies, accepted⟩
    | func arg applies inside =>
      exact .inr (.inl ⟨_, rfl, applies, inside, redex, located, redexes⟩)
    | arg enters inside => exact .inr (.inr ⟨_, rfl, enters, inside, redex, located, redexes⟩)
  · rintro (⟨rfl, applies, accepted⟩ | ⟨rest, rfl, applies, inside, holds⟩ |
      ⟨rest, rfl, enters, inside, holds⟩)
    · -- Conversely a position in a part is one in the application, where the part has its turn.
      exact ⟨.root _, _, rfl, .contract applies accepted⟩
    · exact ⟨.func arg applies inside, holds⟩
    · exact ⟨.arg enters inside, holds⟩

/-- What evaluation contracts is a redex. -/
theorem Decomposes.leadsToRedex {term : Term} {path : Path}
    (decomposes : passing.Decomposes term path) : term.LeadsToRedex path := by
  obtain ⟨-, redex, located, redexes⟩ := decomposes
  refine ⟨redex, located, ?_⟩
  -- The strategies are only more particular about what they contract.
  cases redexes with
  | follow name applies => rfl
  | contract applies accepted => exact applies

/-- That the search of a strategy tells how a term is taken apart. -/
structure Searches (passing : Passing) (term : Term) : Prop where
  /-- A path is found exactly where the term is taken apart. -/
  found : ∀ path, passing.strategy.locate term = some path ↔ passing.Decomposes term path
  /-- Nothing is found exactly in a value. -/
  value : passing.strategy.locate term = none ↔ term.WeakValue

/-- A value in which nothing is found is searched rightly if it cannot be taken apart. -/
theorem Searches.of_value {term : Term} (value : term.WeakValue)
    (stops : passing.strategy.locate term = none) (whole : ∀ path, ¬passing.Decomposes term path) :
    passing.Searches term := by
  -- Both sides of both conditions are decided.
  refine ⟨fun path => ?_, ?_⟩
  · simp [stops, whole path]
  · simp [stops, value]

/-- A reference is searched for nothing but itself. -/
theorem searches_ref (name : Name) (resolved : Term) : passing.Searches (ref name resolved) := by
  -- Neither strategy asks for more than whether it leads to an abstraction.
  have search : passing.strategy.locate (ref name resolved) =
      if (ref name resolved).isAbstraction then none else some [] := by
    cases passing <;> rfl
  cases applies : (ref name resolved).isAbstraction with
  | true =>
    refine ⟨fun path => by simp [search, decomposes_ref_iff, applies], ?_⟩
    simp [search, weakValue_ref_iff, applies]
  | false =>
    refine ⟨fun path => by simp [search, decomposes_ref_iff, applies, eq_comm], ?_⟩
    simp [search, weakValue_ref_iff, applies]

/-- A function that is no abstraction is searched before its argument, which has its turn when the
function is a value. -/
theorem searches_stuck {func arg : Term} (applies : func.isAbstraction = false)
    (inFunc : passing.Searches func) (inArg : passing.Searches arg) :
    passing.Searches (app func arg) := by
  -- Without an abstraction to apply, the strategies differ neither in the search nor in the turns.
  have search : passing.strategy.locate (app func arg) =
      ((passing.strategy.locate func).map (.func :: ·)).or
        ((passing.strategy.locate arg).map (.arg :: ·)) := by
    cases passing <;>
      simp [strategy, Strategy.locate, Strategy.locateByValue, Strategy.locateByName, applies]
  have enters : passing.Enters func ↔ func.WeakValue := by
    cases passing <;> simp [Enters, applies]
  -- Only where nothing is found in the function is the argument searched.
  refine ⟨fun path => ?_, ?_⟩
  · rw [search, decomposes_app_iff, enters]
    simp only [Option.or_eq_some_iff, Option.map_eq_some_iff, Option.map_eq_none_iff, inFunc.found,
      inArg.found, inFunc.value]
    constructor
    · rintro (⟨rest, inside, rfl⟩ | ⟨value, rest, inside, rfl⟩)
      · exact .inr (.inl ⟨rest, rfl, applies, inside⟩)
      · exact .inr (.inr ⟨rest, rfl, value, inside⟩)
    · rintro (⟨-, applied, -⟩ | ⟨rest, rfl, -, inside⟩ | ⟨rest, rfl, value, inside⟩)
      · rw [applies] at applied
        contradiction
      · exact .inl ⟨rest, inside, rfl⟩
      · exact .inr ⟨value, rest, inside, rfl⟩
  · rw [search, weakValue_app_iff, ← inFunc.value, ← inArg.value]
    simp [applies]

/-- By name an abstraction is applied at once. -/
theorem searches_byName {func : Term} (arg : Term) (applies : func.isAbstraction) :
    byName.Searches (app func arg) := by
  -- Neither part has its turn, so the application is all that evaluation comes to.
  have search : byName.strategy.locate (app func arg) = some [] := by
    simp [strategy, Strategy.locate, Strategy.locateByName, applies]
  refine ⟨fun path => ?_, by simp [search, weakValue_app_iff, applies]⟩
  rw [search, decomposes_app_iff]
  simp [applies, Accepts, Enters, eq_comm]

/-- By value an abstraction is applied once its argument is a value. -/
theorem searches_byValue {func arg : Term} (applies : func.isAbstraction)
    (inArg : byValue.Searches arg) : byValue.Searches (app func arg) := by
  -- The search never fails here: it answers in the argument if it can, and here if it cannot.
  have search : byValue.strategy.locate (app func arg) =
      some ((byValue.strategy.locate arg).elim [] (.arg :: ·)) := by
    simp [strategy, Strategy.locate, Strategy.locateByValue, applies]
  refine ⟨fun path => ?_, by simp [search, weakValue_app_iff, applies]⟩
  rw [search, decomposes_app_iff]
  simp only [applies, Accepts, Enters, true_and, true_or, ← inArg.value, ← inArg.found]
  -- Either nothing is found in the argument, which is a value then, or its redex comes first.
  cases found : byValue.strategy.locate arg with
  | none => simp [eq_comm]
  | some rest => simp [eq_comm]

/-- The search of a strategy finds where a term is taken apart, and nothing in values only. -/
theorem searches (passing : Passing) (term : Term) : passing.Searches term := by
  -- The strategies part ways only at an abstraction that is applied.
  induction term with
  -- Variables and abstractions are values under both strategies.
  | var name =>
    have stops : passing.strategy.locate (var name) = none := by cases passing <;> rfl
    exact .of_value (.var name) stops fun _ => not_decomposes_var
  | lam binder body ih =>
    have stops : passing.strategy.locate (lam binder body) = none := by cases passing <;> rfl
    exact .of_value (.lam binder body) stops fun _ => not_decomposes_lam
  | app func arg inFunc inArg =>
    cases applies : func.isAbstraction with
    | false => exact searches_stuck applies inFunc inArg
    | true =>
      cases passing with
      | byValue => exact searches_byValue applies inArg
      | byName => exact searches_byName arg applies
  | ref name resolved ih => exact searches_ref name resolved

/-- A strategy that leaves abstractions alone takes a term apart in at most one way, and locates
just that redex; it stops exactly at terms that cannot be taken apart, which are the values. -/
theorem decomposition_unique (passing : Passing) (term : Term) :
    (∀ left right, passing.Decomposes term left → passing.Decomposes term right → left = right) ∧
      (∀ path, passing.strategy.locate term = some path ↔ passing.Decomposes term path) ∧
      (passing.strategy.locate term = none ↔ ∀ path, ¬passing.Decomposes term path) ∧
      (passing.strategy.isValue term ↔ term.WeakValue) := by
  obtain ⟨found, value⟩ := passing.searches term
  refine ⟨?_, found, ?_, ?_⟩
  · -- Each way to take the term apart is the one answer of the search.
    intro left right inLeft inRight
    exact Option.some.inj (((found left).mpr inLeft).symm.trans ((found right).mpr inRight))
  · -- Nothing is found if there is no path to find.
    rw [Option.eq_none_iff_forall_ne_some]
    exact forall_congr' fun path => not_congr (found path)
  · rw [Strategy.isValue, Option.isNone_iff_eq_none, value]

/-- Behind a variable in the place of a function it is the turn of the argument. -/
example :
    let term := app (app (var "f") (lam "x" (var "x"))) (app (lam "y" (var "y")) (var "z"))
    Strategy.callByName.locate term = some [.arg] ∧
      Strategy.callByValue.locate term = some [.arg] := by
  decide

end Passing

end NamedLambda
