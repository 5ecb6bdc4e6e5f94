import NamedLambda.Term.References
import NamedLambda.Term.Variables

/-! What references carry does not matter where all of them are renewed. -/

namespace NamedLambda.Term

/-- Renewed references are to the same macros. -/
@[simp]
theorem references_relink (term : Term) (meaning : Name → Option Term) :
    (term.relink meaning).references = term.references := by
  -- References are renewed in their places, to the same names.
  induction term with
  | var name => rfl
  | lam binder body ih => exact ih
  | app func arg funcIh argIh => rw [relink, references, references, funcIh, argIh]
  | ref name resolved => rfl

/-- Renewing references does not bind or free a variable. -/
@[simp]
theorem firstUnbound?_relink (term : Term) (meaning : Name → Option Term) (bound : List Name) :
    (term.relink meaning).firstUnbound? bound = term.firstUnbound? bound := by
  -- The search passes references by, before and after.
  induction term generalizing bound with
  | var name => rfl
  | lam binder body ih => exact ih (binder :: bound)
  | app func arg funcIh argIh => rw [relink, firstUnbound?, firstUnbound?, funcIh, argIh]
  | ref name resolved => rfl

/-- References that are all renewed keep nothing of what they were renewed to before. -/
theorem relink_relink {term : Term} (before : Name → Option Term) {after : Name → Option Term}
    (known : ∀ name ∈ term.references, (after name).isSome) :
    (term.relink before).relink after = term.relink after := by
  -- Only a reference without a new meaning would keep its old one.
  induction term with
  | var name => rfl
  | lam binder body ih => rw [relink, relink, relink, ih known]
  | app func arg funcIh argIh =>
    have inFunc := funcIh (fun name member => known name (NameSet.mem_union.mpr (.inl member)))
    have inArg := argIh (fun name member => known name (NameSet.mem_union.mpr (.inr member)))
    rw [relink, relink, relink, inFunc, inArg]
  | ref name resolved =>
    -- Both sides end at what the name means now.
    obtain ⟨renewed, found⟩ :=
      Option.isSome_iff_exists.mp (known name (NameSet.mem_singleton.mpr rfl))
    rw [relink, relink, relink, found]
    rfl

/-- The term with references that carry nothing but their names. -/
def bare (term : Term) : Term :=
  term.relink (fun name => some (var name))

/-- A stripped term makes the same references. -/
@[simp]
theorem references_bare (term : Term) : term.bare.references = term.references :=
  references_relink ..

/-- A stripped term has the same leftmost free variable. -/
@[simp]
theorem firstFree?_bare (term : Term) : term.bare.firstFree? = term.firstFree? :=
  firstUnbound?_relink ..

/-- Whatever references carried, renewing them makes the same of the term. -/
theorem relink_bare {term : Term} {meaning : Name → Option Term}
    (known : ∀ name ∈ term.references, (meaning name).isSome) :
    term.bare.relink meaning = term.relink meaning :=
  relink_relink _ known

/-- Nothing of what references are renewed to is left in the bare term. -/
@[simp]
theorem bare_relink (term : Term) (meaning : Name → Option Term) :
    (term.relink meaning).bare = term.bare :=
  relink_relink meaning (fun _ _ => rfl)

end NamedLambda.Term
