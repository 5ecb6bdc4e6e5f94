import NamedLambda.Proofs.Term.Position
import NamedLambda.Reduction.Step

/-! Redexes are references and applications of abstractions, and can be contracted
wherever they stand. -/

namespace NamedLambda

namespace Term

/-- Whether a term can be contracted: a reference, or an application of an abstraction. -/
def isRedex : Term → Bool
  | ref _ _ => true
  | app func _ => func.isAbstraction
  | var _ | lam _ _ => false

/-- A term contracts exactly when it is a redex. -/
theorem contract?_isSome (term : Term) : term.contract?.isSome = term.isRedex := by
  -- Contraction asks for the same abstraction.
  cases term with
  | var name => rfl
  | lam binder body => rfl
  | app func arg => simp [contract?, isRedex, isAbstraction]
  | ref name resolved => rfl

/-- A path that ends at a redex of the term. -/
def LeadsToRedex (term : Term) (path : Path) : Prop :=
  ∃ redex, term.at? path = some redex ∧ redex.isRedex

/-- No path in a variable leads to a redex. -/
theorem not_leadsToRedex_var {name : Name} {path : Path} : ¬(var name).LeadsToRedex path := by
  -- The variable itself is no redex, and it has no parts.
  rintro ⟨redex, located, redexes⟩
  cases path with
  | nil =>
    obtain rfl : var name = redex := by simpa [at?] using located
    contradiction
  | cons branch rest => simp [at?_cons_var] at located

/-- The only redex in a reference is the reference itself. -/
theorem leadsToRedex_ref_iff {name : Name} {resolved : Term} {path : Path} :
    (ref name resolved).LeadsToRedex path ↔ path = [] := by
  -- No branch enters what it carries.
  cases path with
  | nil => simp [LeadsToRedex, at?, isRedex]
  | cons branch rest => simp [LeadsToRedex, at?_cons_ref]

/-- The redexes in an abstraction are those in its body. -/
theorem leadsToRedex_lam_iff {binder : Name} {body : Term} {path : Path} :
    (lam binder body).LeadsToRedex path ↔
      ∃ rest, path = .body :: rest ∧ body.LeadsToRedex rest := by
  -- The abstraction itself is no redex, and its body is its only part.
  cases path with
  | nil => simp [LeadsToRedex, at?, isRedex]
  | cons branch rest => cases branch <;> simp [LeadsToRedex, at?]

/-- The redexes in an application are those in its parts, and the application itself if its function
is an abstraction. -/
theorem leadsToRedex_app_iff {func arg : Term} {path : Path} :
    (app func arg).LeadsToRedex path ↔
      path = [] ∧ func.isAbstraction ∨
        (∃ rest, path = .func :: rest ∧ func.LeadsToRedex rest) ∨
          ∃ rest, path = .arg :: rest ∧ arg.LeadsToRedex rest := by
  -- A path ends here, or goes on in one of the parts.
  cases path with
  | nil => simp [LeadsToRedex, at?, isRedex]
  | cons branch rest => cases branch <;> simp [LeadsToRedex, at?]

/-- A redex at the end of a path can be contracted there. -/
theorem contractAt?_isSome {path : Path} {term : Term} (leads : term.LeadsToRedex path) :
    (term.contractAt? path).isSome := by
  -- The contraction follows the path down and rebuilds the term around the redex.
  obtain ⟨redex, located, redexes⟩ := leads
  fun_induction at? path term with
  | case1 term =>
    obtain rfl : term = redex := by simpa using located
    rw [contractAt?, contract?_isSome]
    exact redexes
  | case2 rest func arg ih => simpa [contractAt?] using ih located
  | case3 rest func arg ih => simpa [contractAt?] using ih located
  | case4 rest binder body ih => simpa [contractAt?] using ih located
  -- Elsewhere the path leads nowhere.
  | case5 => simp at located

/-- What a redex gives way to. -/
inductive ContractsTo : Term → Term → Prop where
  /-- An abstraction, seen through references, gives way to its body with the argument in it. -/
  | apply {func : Term} {binder : Name} {body : Term} (arg : Term)
    (found : func.abstraction? = some (binder, body)) :
    ContractsTo (app func arg) (body.substitute binder arg)
  /-- A reference gives way to the term that it carries. -/
  | follow (name : Name) (resolved : Term) : ContractsTo (ref name resolved) resolved

/-- Contraction answers what the redex gives way to. -/
theorem contract?_eq_some_iff {term next : Term} :
    term.contract? = some next ↔ term.ContractsTo next := by
  -- Each kind of redex gives way to one term only.
  constructor
  · intro contracted
    cases term with
    | var name => simp [contract?] at contracted
    | lam binder body => simp [contract?] at contracted
    | app func arg =>
      -- The body of the abstraction that the function is seen as takes the argument.
      simp only [contract?, Option.map_eq_some_iff] at contracted
      obtain ⟨⟨binder, body⟩, found, rfl⟩ := contracted
      exact .apply arg found
    | ref name resolved =>
      obtain rfl : resolved = next := by simpa [contract?] using contracted
      exact .follow name resolved
  · rintro (⟨arg, found⟩ | ⟨name, resolved⟩)
    · simp [contract?, found]
    · rfl

/-- A term in which the redex at the end of a path has given way. -/
inductive ContractsAt : Path → Term → Term → Prop where
  /-- The term itself is the redex. -/
  | here {term next : Term} (contracts : term.ContractsTo next) : ContractsAt [] term next
  /-- The redex is inside a function. -/
  | func {rest : Path} {func next : Term} (arg : Term) (inside : ContractsAt rest func next) :
    ContractsAt (.func :: rest) (app func arg) (app next arg)
  /-- The redex is inside an argument. -/
  | arg {rest : Path} {arg next : Term} (func : Term) (inside : ContractsAt rest arg next) :
    ContractsAt (.arg :: rest) (app func arg) (app func next)
  /-- The redex is inside the body of an abstraction. -/
  | body {rest : Path} {body next : Term} (binder : Name) (inside : ContractsAt rest body next) :
    ContractsAt (.body :: rest) (lam binder body) (lam binder next)

/-- Contraction at a path rebuilds the term around the redex. -/
theorem contractAt?_eq_some_iff {path : Path} {term next : Term} :
    term.contractAt? path = some next ↔ ContractsAt path term next := by
  -- Both go down branch by branch, and put the node back around what comes of the part.
  constructor
  · intro contracted
    fun_induction contractAt? path term generalizing next with
    | case1 term => exact .here (contract?_eq_some_iff.mp contracted)
    | case2 rest func arg ih =>
      obtain ⟨inner, found, rfl⟩ := Option.map_eq_some_iff.mp contracted
      exact .func arg (ih found)
    | case3 rest func arg ih =>
      obtain ⟨inner, found, rfl⟩ := Option.map_eq_some_iff.mp contracted
      exact .arg func (ih found)
    | case4 rest binder body ih =>
      obtain ⟨inner, found, rfl⟩ := Option.map_eq_some_iff.mp contracted
      exact .body binder (ih found)
    | case5 => simp at contracted
  · intro contracts
    induction contracts with
    | here contracts => exact contract?_eq_some_iff.mpr contracts
    | func arg inside ih => simp [contractAt?, ih]
    | arg func inside ih => simp [contractAt?, ih]
    | body binder inside ih => simp [contractAt?, ih]

end Term

end NamedLambda
