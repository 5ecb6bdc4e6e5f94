import NamedLambda.Term.Variables
import NamedLambda.Term.Substitution

/-! Nameless terms point to binders by their distance, so the names of binders do not show. -/

namespace NamedLambda

/-- A term whose bound variables are distances to their binders; free variables keep names. -/
inductive Nameless where
  /-- A variable bound by the abstraction with so many others in between. -/
  | bound (distance : Nat)
  /-- A variable that no abstraction binds. -/
  | free (name : Name)
  /-- The abstraction of a body over the variable at distance zero. -/
  | lam (body : Nameless)
  /-- The application of a function to an argument. -/
  | app (func arg : Nameless)
  /-- A reference, taken as a constant together with the term it carries. -/
  | ref (name : Name) (resolved : Term)
deriving DecidableEq, Repr

/-- The term with a value at every free occurrence of a name. -/
def Nameless.replaceFree (term : Nameless) (name : Name) (value : Nameless) : Nameless :=
  match term with
  | bound distance => bound distance
  -- The value has no distances that point out of it, so it is the same below any binder.
  | free other => if other = name then value else free other
  | lam body => lam (body.replaceFree name value)
  | app func arg => app (func.replaceFree name value) (arg.replaceFree name value)
  | ref other resolved => ref other resolved

namespace Term

/-- The nameless form of a term below the given binders, the nearest first. -/
def namelessUnder (binders : List Name) : Term → Nameless
  | var name =>
    match binders.idxOf? name with
    | some distance => .bound distance
    | none => .free name
  | lam binder body => .lam (body.namelessUnder (binder :: binders))
  | app func arg => .app (func.namelessUnder binders) (arg.namelessUnder binders)
  | ref name resolved => .ref name resolved

/-- The nameless form of a term. -/
def nameless (term : Term) : Nameless :=
  term.namelessUnder []

/-- A variable that a binder binds becomes a distance. -/
theorem namelessUnder_var_of_mem {name : Name} {binders : List Name} (bound : name ∈ binders) :
    ∃ distance, (var name).namelessUnder binders = .bound distance := by
  -- The search for the name among the binders succeeds.
  cases found : binders.idxOf? name with
  | none => exact absurd bound (List.idxOf?_eq_none_iff.mp found)
  | some distance => exact ⟨distance, by simp [namelessUnder, found]⟩

/-- A variable that no binder binds keeps its name. -/
theorem namelessUnder_var_of_not_mem {name : Name} {binders : List Name}
    (unbound : name ∉ binders) : (var name).namelessUnder binders = .free name := by
  -- The search for the name among the binders fails.
  simp [namelessUnder, List.idxOf?_eq_none_iff.mpr unbound]

/-- A variable becomes a distance, or keeps its name. -/
theorem namelessUnder_var_cases (name : Name) (binders : List Name) :
    (∃ distance, (var name).namelessUnder binders = .bound distance) ∨
      (var name).namelessUnder binders = .free name := by
  -- It depends on whether a binder of its name is around it.
  by_cases bound : name ∈ binders
  · exact .inl (namelessUnder_var_of_mem bound)
  · exact .inr (namelessUnder_var_of_not_mem bound)

/-- A free variable is one of the names of the term. -/
theorem mem_names_of_occursFree {term : Term} {name : Name} (free : term.occursFree name) :
    name ∈ term.names := by
  -- Every variable is a name, whether or not an abstraction binds it.
  induction term with
  | var other =>
    simp only [occursFree, beq_iff_eq] at free
    exact NameSet.mem_singleton.mpr free.symm
  | lam binder body ih =>
    simp only [occursFree, Bool.and_eq_true] at free
    exact NameSet.mem_union.mpr (.inr (ih free.2))
  | app func arg funcIh argIh =>
    simp only [occursFree, Bool.or_eq_true] at free
    exact NameSet.mem_union.mpr (free.imp funcIh argIh)
  | ref other resolved => simp [occursFree] at free

/-- The nameless form depends only on where the free variables are bound. -/
theorem namelessUnder_congr {term : Term} {left right : List Name}
    (agree : ∀ name, term.occursFree name → left.idxOf? name = right.idxOf? name) :
    term.namelessUnder left = term.namelessUnder right := by
  -- A new binder comes first on both sides and pushes every other one by one place.
  induction term generalizing left right with
  | var name => rw [namelessUnder, namelessUnder, agree name (by simp [occursFree])]
  | lam binder body ih =>
    rw [namelessUnder, namelessUnder, ih]
    intro name free
    by_cases same : binder = name
    · simp [List.idxOf?_cons, same]
    · simp [List.idxOf?_cons, same, agree name (by simp [occursFree, same, free])]
  | app func arg funcIh argIh =>
    rw [namelessUnder, namelessUnder, funcIh, argIh]
    · exact fun name free => agree name (by simp [occursFree, free])
    · exact fun name free => agree name (by simp [occursFree, free])
  | ref name resolved => rfl

/-- A rename along with the binder that it follows does not show in the nameless form. -/
theorem namelessUnder_rename {term : Term} {old new : Name} {left right : List Name}
    (unused : new ∉ term.names) {distance : Nat} (bound : left.idxOf? old = some distance)
    (moved : right.idxOf? new = some distance)
    (agree : ∀ name, name ≠ old → name ≠ new → left.idxOf? name = right.idxOf? name) :
    (term.rename old new).namelessUnder right = term.namelessUnder left := by
  -- Below a binder of the old name nothing is renamed, and both sides see that binder first.
  induction term generalizing left right distance with
  | var name =>
    simp only [names, NameSet.mem_singleton] at unused
    by_cases same : name = old
    · simp [rename, namelessUnder, same, bound, moved]
    · simp [rename, namelessUnder, same, agree name same (Ne.symm unused)]
  | lam binder body ih =>
    simp only [names, NameSet.mem_union, NameSet.mem_singleton, not_or] at unused
    by_cases same : binder = old
    · -- The binder hides the old name, so that nothing below it is renamed.
      simp only [rename, if_pos same, namelessUnder]
      congr 1
      apply namelessUnder_congr
      intro name free
      by_cases shadowed : binder = name
      · simp [List.idxOf?_cons, shadowed]
      · have notOld : name ≠ old := fun hit => shadowed (same.trans hit.symm)
        have notNew : name ≠ new := fun hit => unused.2 (hit ▸ mem_names_of_occursFree free)
        simp [List.idxOf?_cons, shadowed, agree name notOld notNew]
    · -- Below any other binder both names are one binder further away.
      simp only [rename, if_neg same, namelessUnder]
      congr 1
      refine ih unused.2 (?_ : _ = some (distance + 1)) ?_ ?_
      · simp [List.idxOf?_cons, same, bound]
      · simp [List.idxOf?_cons, Ne.symm unused.1, moved]
      · intro name notOld notNew
        simp [List.idxOf?_cons, agree name notOld notNew]
  | app func arg funcIh argIh =>
    simp only [names, NameSet.mem_union, not_or] at unused
    rw [rename, namelessUnder, namelessUnder, funcIh unused.1 bound moved agree,
      argIh unused.2 bound moved agree]
  | ref name resolved => rfl

end Term

end NamedLambda
