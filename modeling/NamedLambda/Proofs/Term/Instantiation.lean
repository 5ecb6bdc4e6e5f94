import NamedLambda.Proofs.Nameless.Instantiation
import NamedLambda.Proofs.Term.Substitution

/-! Below any binders, substitution gives the value to the distance of the variable. -/

namespace NamedLambda.Term

/-- Another binder moves every other variable by one. -/
theorem namelessUnder_var_cons {name binder : Name} (different : name ≠ binder)
    (binders : List Name) :
    (var name).namelessUnder (binder :: binders) =
      ((var name).namelessUnder binders).reindex Nat.succ := by
  -- The search for the name goes one binder further.
  simp only [namelessUnder, List.idxOf?_cons, beq_false_of_ne (Ne.symm different)]
  cases binders.idxOf? name with
  | none => rfl
  | some distance => rfl

/-- A variable of the nearest binder is at distance zero. -/
theorem namelessUnder_var_self (binder : Name) (binders : List Name) :
    (var binder).namelessUnder (binder :: binders) = .bound 0 := by
  simp [namelessUnder, List.idxOf?_cons]

/-- Values that give each free variable its form below other binders give the term that form. -/
theorem instantiate_namelessUnder {term : Term} {left right : List Name}
    {values : Nat → Nameless}
    (agree : ∀ name, term.occursFree name →
      ((var name).namelessUnder left).instantiate values = (var name).namelessUnder right) :
    (term.namelessUnder left).instantiate values = term.namelessUnder right := by
  -- Every further binder is the nearest one on both sides.
  induction term generalizing left right values with
  | var name => exact agree name (by simp [occursFree])
  | lam binder body ih =>
    simp only [namelessUnder, Nameless.instantiate]
    congr 1
    apply ih
    intro name free
    by_cases same : name = binder
    · -- The variable of the new binder is the nearest one on both sides.
      rw [same, namelessUnder_var_self, namelessUnder_var_self]
      rfl
    · rw [namelessUnder_var_cons same, namelessUnder_var_cons same,
        Nameless.instantiate_reindex_succ, agree name (by simp [occursFree, Ne.symm same, free])]
  | app func arg funcIh argIh =>
    simp only [namelessUnder, Nameless.instantiate]
    rw [funcIh (fun name free => agree name (by simp [occursFree, free])),
      argIh (fun name free => agree name (by simp [occursFree, free]))]
  | ref name resolved => rfl

/-- A term below no binders has no distances that could take values. -/
theorem instantiate_nameless (term : Term) (values : Nat → Nameless) :
    term.nameless.instantiate values = term.nameless :=
  instantiate_namelessUnder (fun _ _ => rfl)

/-- A term points past a binder that is not free in it. -/
theorem namelessUnder_cons_of_not_free {term : Term} {binder : Name}
    (clear : term.occursFree binder = false) (binders : List Name) :
    term.namelessUnder (binder :: binders) =
      (term.namelessUnder binders).reindex Nat.succ := by
  -- All its free variables have other names, so they point past the binder.
  rw [Nameless.reindex_eq_instantiate]
  refine (instantiate_namelessUnder ?_).symm
  intro name free
  have different : name ≠ binder := by
    rintro rfl
    rw [clear] at free
    contradiction
  rw [namelessUnder_var_cons different, Nameless.reindex_eq_instantiate]

/-- The values that a substitution amounts to, where the binders around it change as well. -/
structure Places (name : Name) (value : Term) (left right : List Name)
    (values : Nat → Nameless) : Prop where
  /-- Other variables keep their meaning. -/
  others : ∀ other, other ≠ name →
    ((var other).namelessUnder left).instantiate values = (var other).namelessUnder right
  /-- The variable replaced takes the value. -/
  replaced : ((var name).namelessUnder left).instantiate values = value.namelessUnder right

/-- A binder that neither hides the variable nor captures one of the value may come between. -/
theorem Places.cons {name : Name} {value : Term} {left right : List Name}
    {values : Nat → Nameless} (places : Places name value left right values) {binder : Name}
    (different : binder ≠ name) (clear : value.occursFree binder = false) :
    Places name value (binder :: left) (binder :: right) (Nameless.liftValues values) := by
  -- The binder is the nearest one on both sides, and everything else is moved past it.
  constructor
  · intro other notName
    by_cases same : other = binder
    · rw [same, namelessUnder_var_self, namelessUnder_var_self]
      rfl
    · rw [namelessUnder_var_cons same, namelessUnder_var_cons same,
        Nameless.instantiate_reindex_succ, places.others other notName]
  · rw [namelessUnder_var_cons different.symm, Nameless.instantiate_reindex_succ,
      places.replaced, namelessUnder_cons_of_not_free clear]

/-- Substitution is the instance that gives the value to the distance of the variable. -/
theorem Places.instance_eq {name : Name} {value term : Term} {left right : List Name}
    {values : Nat → Nameless} (places : Places name value left right values) :
    (term.substitute name value).namelessUnder right =
      (term.namelessUnder left).instantiate values := by
  -- The induction follows the recursion of substitution, through renamed bodies as well.
  fun_induction substitute term name value generalizing left right values with
  | case1 => exact places.replaced.symm
  | case2 other different => exact (places.others other different).symm
  -- Both parts of an application are below the same binders.
  | case3 func arg funcIh argIh =>
    simp only [namelessUnder, Nameless.instantiate]
    rw [funcIh places, argIh places]
  | case4 other resolved => rfl
  -- Below this binder the variable is not free, so the value is not placed.
  | case5 binder body absent =>
    refine (instantiate_namelessUnder ?_).symm
    intro other free
    refine places.others other ?_
    rintro rfl
    simp only [occursFree, Bool.and_eq_true, bne_iff_ne] at free
    simp [free] at absent
  | case6 binder body present captures escape =>
    rename_i ih
    -- The fresh binder meets neither the variable nor the value, and its body is as before.
    have fresh : escape ∉ body.names := escapeName_not_mem_names name value binder body
    have below := places.cons (escapeName_ne name value binder body)
      (occursFree_escapeName name value binder body)
    simp only [namelessUnder, Nameless.instantiate]
    rw [ih below, namelessUnder_rename_cons left fresh]
  -- The binder captures nothing and may come between.
  | case7 binder body present spared ih =>
    simp only [Bool.or_eq_true, decide_eq_true_eq, not_or] at present
    simp only [namelessUnder, Nameless.instantiate]
    rw [ih (places.cons present.1 (by simpa using spared))]

/-- An argument substituted for the variable of a body is the body applied to it,
below any binders. -/
theorem namelessUnder_substitute_applyTo (body : Term) (name : Name) (value : Term)
    (binders : List Name) :
    (body.substitute name value).namelessUnder binders =
      (body.namelessUnder (name :: binders)).applyTo (value.namelessUnder binders) := by
  -- The binder of the body is at distance zero, and all others come nearer when it goes.
  apply Places.instance_eq
  constructor
  · intro other different
    rw [namelessUnder_var_cons different]
    exact Nameless.instantiate_nearest_reindex_succ _ _
  · rw [namelessUnder_var_self]
    rfl

end NamedLambda.Term
