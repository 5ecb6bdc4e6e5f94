import NamedLambda.Proofs.Name.Fresh
import NamedLambda.Proofs.Term.Nameless

/-! Substitution avoids capture: on nameless terms it is plain replacement of a free variable. -/

namespace NamedLambda.Term

/-- A name that is bound or does not occur has no free occurrence to replace. -/
theorem replaceFree_namelessUnder {term : Term} {binders : List Name} {name : Name}
    (value : Nameless) (absent : name ∈ binders ∨ term.occursFree name = false) :
    (term.namelessUnder binders).replaceFree name value = term.namelessUnder binders := by
  -- Passing a binder either binds the name or keeps it from occurring below.
  induction term generalizing binders with
  | var other =>
    by_cases bound : other ∈ binders
    · obtain ⟨distance, found⟩ := namelessUnder_var_of_mem bound
      rw [found, Nameless.replaceFree]
    · have distinct : other ≠ name := by
        intro same
        subst same
        rcases absent with inside | fresh
        · exact bound inside
        · simp [occursFree] at fresh
      rw [namelessUnder_var_of_not_mem bound, Nameless.replaceFree, if_neg distinct]
  | lam binder body ih =>
    simp only [namelessUnder, Nameless.replaceFree]
    rw [ih]
    simp only [occursFree, Bool.and_eq_false_iff, bne_eq_false_iff_eq] at absent
    -- The name is bound further out, by this binder, or it does not occur in the body.
    rcases absent with bound | same | fresh
    · exact .inl (List.mem_cons_of_mem _ bound)
    · exact .inl (List.mem_cons.mpr (.inl same.symm))
    · exact .inr fresh
  | app func arg funcIh argIh =>
    simp only [occursFree, Bool.or_eq_false_iff] at absent
    simp only [namelessUnder, Nameless.replaceFree]
    rw [funcIh (absent.imp_right And.left), argIh (absent.imp_right And.right)]
  | ref other resolved => rfl

/-- Binders that are not free in a term do not show in its nameless form. -/
theorem namelessUnder_eq_nameless {term : Term} {binders : List Name}
    (clear : ∀ binder ∈ binders, term.occursFree binder = false) :
    term.namelessUnder binders = term.nameless := by
  -- Each free variable is looked for in vain on both sides.
  apply namelessUnder_congr
  intro name free
  rw [List.idxOf?_nil, List.idxOf?_eq_none_iff]
  intro bound
  rw [clear name bound] at free
  contradiction

/-- The name a binder escapes to differs from the replaced name. -/
theorem escapeName_ne (name : Name) (value : Term) (binder : Name) (body : Term) :
    escapeName name value binder body ≠ name := by
  -- The replaced name is among the names to avoid.
  intro same
  exact freshName_not_mem binder (body.names ∪ value.names ∪ {name}) (by
    rw [escapeName] at same
    simp [same])

/-- The name a binder escapes to is no name of the body. -/
theorem escapeName_not_mem_names (name : Name) (value : Term) (binder : Name) (body : Term) :
    escapeName name value binder body ∉ body.names := by
  -- The names of the body are among the names to avoid.
  intro member
  exact freshName_not_mem binder (body.names ∪ value.names ∪ {name})
    (NameSet.mem_union.mpr (.inl (NameSet.mem_union.mpr (.inl member))))

/-- The name a binder escapes to is not free in the value. -/
theorem occursFree_escapeName (name : Name) (value : Term) (binder : Name) (body : Term) :
    value.occursFree (escapeName name value binder body) = false := by
  -- The names of the value, its free variables among them, are names to avoid.
  rw [Bool.eq_false_iff]
  intro free
  exact freshName_not_mem binder (body.names ∪ value.names ∪ {name})
    (NameSet.mem_union.mpr (.inl (NameSet.mem_union.mpr (.inr (mem_names_of_occursFree free)))))

/-- A binder that escapes along with its variable leaves the nameless form of its body alone. -/
theorem namelessUnder_rename_cons {body : Term} {binder escape : Name} (binders : List Name)
    (unused : escape ∉ body.names) :
    (body.rename binder escape).namelessUnder (escape :: binders) =
      body.namelessUnder (binder :: binders) := by
  -- Both binders are the nearest ones, and all others keep their distances.
  refine namelessUnder_rename unused (?_ : _ = some 0) (by simp [List.idxOf?_cons]) ?_
  · simp [List.idxOf?_cons]
  · intro name notBinder notEscape
    simp [List.idxOf?_cons, Ne.symm notBinder, Ne.symm notEscape]

/-- Below binders that neither bind the name nor capture a variable of the value, substitution
replaces the free occurrences of the name. -/
theorem namelessUnder_substitute {term : Term} {name : Name} {value : Term} {binders : List Name}
    (unbound : name ∉ binders) (clear : ∀ binder ∈ binders, value.occursFree binder = false) :
    (term.substitute name value).namelessUnder binders =
      (term.namelessUnder binders).replaceFree name value.nameless := by
  -- The induction follows the recursion of substitution, through renamed bodies as well.
  fun_induction substitute term name value generalizing binders with
  | case1 =>
    rw [namelessUnder_var_of_not_mem unbound, Nameless.replaceFree, if_pos rfl]
    exact namelessUnder_eq_nameless clear
  | case2 other different =>
    exact (replaceFree_namelessUnder _ (.inr (by simp [occursFree, different]))).symm
  | case3 func arg funcIh argIh =>
    simp only [namelessUnder, Nameless.replaceFree]
    rw [funcIh unbound clear, argIh unbound clear]
  | case4 other resolved => rfl
  -- Below this binder the name has no free occurrence.
  | case5 binder body absent =>
    refine (replaceFree_namelessUnder _ (.inr ?_)).symm
    simp only [Bool.or_eq_true, decide_eq_true_eq, Bool.not_eq_true'] at absent
    rcases absent with same | fresh
    · simp [occursFree, same]
    · simp [occursFree, fresh]
  | case6 binder body present captures escape =>
    rename_i ih
    -- The fresh binder stands for the old one, and neither meets the name or the value.
    have fresh : escape ∉ body.names := escapeName_not_mem_names name value binder body
    simp only [namelessUnder, Nameless.replaceFree]
    rw [ih, namelessUnder_rename_cons binders fresh]
    · rw [List.mem_cons, not_or]
      exact ⟨(escapeName_ne name value binder body).symm, unbound⟩
    · exact List.forall_mem_cons.mpr ⟨occursFree_escapeName name value binder body, clear⟩
  -- The binder is neither the name nor free in the value, so it joins the others.
  | case7 binder body present spared ih =>
    simp only [Bool.or_eq_true, decide_eq_true_eq, not_or] at present
    simp only [namelessUnder, Nameless.replaceFree]
    rw [ih]
    · rw [List.mem_cons, not_or]
      exact ⟨Ne.symm present.1, unbound⟩
    · exact List.forall_mem_cons.mpr ⟨by simpa using spared, clear⟩

/-- Substitution, read on nameless terms, puts the value at the free occurrences of the name. -/
theorem nameless_substitute (term : Term) (name : Name) (value : Term) :
    (term.substitute name value).nameless =
      term.nameless.replaceFree name value.nameless :=
  -- At the top there are no binders to meet.
  namelessUnder_substitute List.not_mem_nil (fun _ member => absurd member List.not_mem_nil)

end NamedLambda.Term
