import NamedLambda.Proofs.Term.Closed
import NamedLambda.Proofs.Term.Instantiation

/-! Contractions act on the expansion of a term, as substitution and references do not get into
each other's way. -/

namespace NamedLambda

namespace Term

/-- The term with every reference replaced by the term it carries, which is expanded in turn. -/
def expand : Term → Term
  | var name => var name
  | lam binder body => lam binder body.expand
  | app func arg => app func.expand arg.expand
  | ref _ resolved => resolved.expand

/-- A term without references is its own expansion. -/
theorem expand_eq_self {term : Term} (absent : ∀ name, name ∉ term.references) :
    term.expand = term := by
  -- The only case that would change the term is that of a reference.
  induction term with
  | var name => rfl
  | lam binder body ih => rw [expand, ih absent]
  | app func arg funcIh argIh =>
    simp only [references, NameSet.mem_union, not_or] at absent
    rw [expand, funcIh (fun name => (absent name).1), argIh (fun name => (absent name).2)]
  | ref name resolved => exact absurd (NameSet.mem_singleton.mpr rfl) (absent name)

/-- A term without references carries no terms at all. -/
theorem carriesClosed_of_not_mem_references {term : Term}
    (absent : ∀ name, name ∉ term.references) : term.CarriesClosed :=
  carriesClosed_iff.mpr (throughout_of_not_mem_references (fun _ _ => rfl) absent)

/-- Closed terms bring no variables along when they are put in place of references. -/
theorem occursFree_expand {term : Term} (carries : term.CarriesClosed) (name : Name) :
    term.expand.occursFree name = term.occursFree name := by
  -- At a reference both sides are without free variables.
  induction term with
  | var other => rfl
  | lam binder body ih => simp only [expand, occursFree, ih carries]
  | app func arg funcIh argIh =>
    simp only [expand, occursFree, funcIh carries.1, argIh carries.2]
  | ref other resolved ih => exact (ih carries.2).trans (carries.1 name)

/-- What a closed term expands to has one form below any binders. -/
theorem namelessUnder_expand_of_closed {term : Term} (closed : term.Closed)
    (carries : term.CarriesClosed) (binders : List Name) :
    term.expand.namelessUnder binders = term.expand.nameless :=
  -- No variable is free in the expansion either.
  namelessUnder_eq_nameless (fun binder _ =>
    (occursFree_expand carries binder).trans (closed binder))

/-- An abstraction seen through references shows in the expansion. -/
theorem expand_of_abstraction? {term : Term} {binder : Name} {body : Term}
    (found : term.abstraction? = some (binder, body)) : term.expand = lam binder body.expand := by
  -- Both look through references, and stop at the same abstraction.
  induction term with
  | var name => simp [abstraction?] at found
  | lam other inner ih =>
    obtain ⟨rfl, rfl⟩ : other = binder ∧ inner = body := by simpa [abstraction?] using found
    rfl
  | app func arg funcIh argIh => simp [abstraction?] at found
  | ref name resolved ih => exact ih found

/-- No other term expands to an abstraction. -/
theorem namelessUnder_expand_ne_lam {term : Term} (applies : term.isAbstraction = false)
    (binders : List Name) (body : Nameless) : term.expand.namelessUnder binders ≠ .lam body := by
  -- What a reference carries decides for the reference.
  induction term with
  | var name =>
    rcases namelessUnder_var_cases name binders with ⟨distance, found⟩ | found
    · simp [expand, found]
    · simp [expand, found]
  | lam binder inner ih => simp [isAbstraction, abstraction?] at applies
  | app func arg funcIh argIh => simp [expand, namelessUnder]
  | ref name resolved ih => exact ih applies

end Term

/-- The nameless term with every reference replaced by the expansion of the term it carries. -/
def Nameless.expand : Nameless → Nameless
  | bound distance => bound distance
  | free name => free name
  | lam body => lam body.expand
  | app func arg => app func.expand arg.expand
  | ref _ resolved => resolved.expand.nameless

namespace Nameless

/-- Distances are moved in the expansion as in the term. -/
theorem expand_reindex (term : Nameless) (move : Nat → Nat) :
    (term.reindex move).expand = term.expand.reindex move := by
  -- A reference is closed, so that no distance in it is moved.
  induction term generalizing move with
  | bound distance => rfl
  | free name => rfl
  | lam body ih => rw [reindex, expand, expand, reindex, ih]
  | app func arg funcIh argIh => rw [reindex, expand, expand, reindex, funcIh, argIh]
  | ref name resolved =>
    rw [reindex_eq_instantiate (expand _)]
    exact (Term.instantiate_nameless resolved.expand _).symm

/-- Values are expanded below a binder as above it. -/
theorem expand_liftValues (values : Nat → Nameless) :
    (fun distance => (liftValues values distance).expand) =
      liftValues (fun distance => (values distance).expand) := by
  -- The nearest distance keeps its value, and the others are moved by one.
  funext distance
  cases distance with
  | zero => rfl
  | succ distance => exact expand_reindex (values distance) Nat.succ

/-- The values of distances are expanded in their places. -/
theorem expand_instantiate (term : Nameless) (values : Nat → Nameless) :
    (term.instantiate values).expand =
      term.expand.instantiate (fun distance => (values distance).expand) := by
  -- Distances take their values before or after references are replaced.
  induction term generalizing values with
  | bound distance => rfl
  | free name => rfl
  | lam body ih => rw [instantiate, expand, expand, instantiate, ih, expand_liftValues]
  | app func arg funcIh argIh => rw [instantiate, expand, expand, instantiate, funcIh, argIh]
  | ref name resolved =>
    -- What a reference stands for has no distances that point out of it.
    exact (Term.instantiate_nameless resolved.expand _).symm

/-- A body and its argument are expanded in their places. -/
theorem expand_applyTo (body arg : Nameless) :
    (body.applyTo arg).expand = body.expand.applyTo arg.expand := by
  -- The argument is the value of the nearest distance.
  rw [applyTo, applyTo, expand_instantiate]
  congr 1
  funext distance
  cases distance with
  | zero => rfl
  | succ distance => rfl

end Nameless

namespace Term

/-- The expansion of a term has the expanded nameless form. -/
theorem namelessUnder_expand {term : Term} (carries : term.CarriesClosed) (binders : List Name) :
    term.expand.namelessUnder binders = (term.namelessUnder binders).expand := by
  -- Only references are expanded, and binders around a closed term do not matter.
  induction term generalizing binders with
  | var name =>
    rcases namelessUnder_var_cases name binders with ⟨distance, found⟩ | found
    · rw [expand, found, Nameless.expand]
    · rw [expand, found, Nameless.expand]
  | lam binder body ih => simp only [expand, namelessUnder, Nameless.expand, ih carries]
  | app func arg funcIh argIh =>
    simp only [expand, namelessUnder, Nameless.expand, funcIh carries.1, argIh carries.2]
  | ref name resolved ih => exact namelessUnder_expand_of_closed carries.1 carries.2 binders

/-- Substitution and expansion do not disturb each other. -/
theorem namelessUnder_expand_substitute {body value : Term} (carries : body.CarriesClosed)
    (valueCarries : value.CarriesClosed) (name : Name) (binders : List Name) :
    (body.substitute name value).expand.namelessUnder binders =
      (body.expand.namelessUnder (name :: binders)).applyTo
        (value.expand.namelessUnder binders) := by
  -- Substitution puts the argument in the place of a distance, and this commutes with expansion.
  rw [namelessUnder_expand (carriesClosed_substitute carries valueCarries),
    namelessUnder_expand carries, namelessUnder_expand valueCarries,
    namelessUnder_substitute_applyTo, Nameless.expand_applyTo]

end Term

end NamedLambda
