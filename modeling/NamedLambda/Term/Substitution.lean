import NamedLambda.Name.Fresh
import NamedLambda.Term.Variables

/-! Substitution renames a binder only where it would capture a variable of the new value. -/

namespace NamedLambda.Term

/-- The term with the free variables of one name given another, whatever binders are called. -/
def rename (old new : Name) : Term → Term
  | var name => if name = old then var new else var name
  | lam binder body => if binder = old then lam binder body else lam binder (body.rename old new)
  | app func arg => app (func.rename old new) (arg.rename old new)
  | ref name resolved => ref name resolved

/-- Renaming keeps the shape of a term, hence its size. -/
@[simp]
theorem size_rename (old new : Name) (term : Term) : (term.rename old new).size = term.size := by
  -- Every constructor is rebuilt over parts that keep their sizes.
  induction term with
  | var name => simp only [rename]; split <;> rfl
  | lam binder body ih => simp only [rename]; split <;> simp [size, ih]
  | app func arg funcIh argIh => simp [rename, size, funcIh, argIh]
  | ref name resolved => rfl

/-- The name a binder takes when its own name is free in the value that goes below it. -/
def escapeName (name : Name) (value : Term) (binder : Name) (body : Term) : Name :=
  freshName binder (body.names ∪ value.names ∪ {name})

/-- The term with a value at the free occurrences of a name, free of capture. -/
def substitute (term : Term) (name : Name) (value : Term) : Term :=
  match term with
  | var other => if other = name then value else var other
  | app func arg => app (func.substitute name value) (arg.substitute name value)
  | ref other resolved => ref other resolved
  | lam binder body =>
    -- Nothing is to be replaced below a binder of the same name, or where the name is not free.
    if binder = name || !body.occursFree name then lam binder body
    else if value.occursFree binder then
      -- The binder would capture a variable of the value, so it makes way first.
      let escape := escapeName name value binder body
      lam escape ((body.rename binder escape).substitute name value)
    else lam binder (body.substitute name value)
termination_by term.size
decreasing_by all_goals simp only [size, size_rename]; omega

end NamedLambda.Term
