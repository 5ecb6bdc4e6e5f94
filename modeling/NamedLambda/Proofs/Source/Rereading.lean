import NamedLambda.Proofs.Name.Spelling
import NamedLambda.Proofs.Source.Printing
import NamedLambda.Proofs.Term.Alike
import NamedLambda.Proofs.Term.Closed

/-! A text names references and variables alike: read again, a reference below a binder of its name
is the variable of that binder. -/

namespace NamedLambda.Term

/-- The term that its text says: a reference below a binder of its name, or below one of the given
binders, is a variable. -/
def asPrinted (bound : List Name) : Term → Term
  | var name => var name
  | lam binder body => lam binder (body.asPrinted (binder :: bound))
  | app func arg => app (func.asPrinted bound) (arg.asPrinted bound)
  | ref name resolved => if bound.contains name then var name else ref name resolved

/-- Whether no reference stands below a binder of its name, or below one of the given binders. -/
def showsReferences (bound : List Name) : Term → Bool
  | var _ => true
  | lam binder body => body.showsReferences (binder :: bound)
  | app func arg => func.showsReferences bound && arg.showsReferences bound
  | ref name _ => !bound.contains name

/-- A term whose references all show is the term that its text says. -/
theorem asPrinted_eq_self {term : Term} {bound : List Name} (shows : term.showsReferences bound) :
    term.asPrinted bound = term := by
  -- Only a reference that does not show would be changed.
  induction term generalizing bound with
  | var name => rfl
  | lam binder body ih => rw [asPrinted, ih shows]
  | app func arg funcIh argIh =>
    simp only [showsReferences, Bool.and_eq_true] at shows
    rw [asPrinted, funcIh shows.1, argIh shows.2]
  -- It shows, so that no binder of its name is around it.
  | ref name resolved =>
    simp only [showsReferences, Bool.not_eq_true'] at shows
    rw [asPrinted, shows]
    rfl

/-- What a text says has the names of the printed term, and none of its references but
those that show. -/
theorem Throughout.asPrinted {onName : Name → Bool} {onReference : Name → Term → Prop} {term : Term}
    {bound : List Name} (throughout : term.Throughout onName onReference)
    (named : ∀ name ∈ bound, onName name) :
    (term.asPrinted bound).Throughout onName onReference := by
  -- A reference that does not show becomes a variable of a binder passed on the way.
  induction term generalizing bound with
  | var name => exact throughout
  | lam binder body ih =>
    exact ⟨throughout.1, ih throughout.2 (List.forall_mem_cons.mpr ⟨throughout.1, named⟩)⟩
  | app func arg funcIh argIh => exact ⟨funcIh throughout.1 named, argIh throughout.2 named⟩
  | ref name resolved =>
    rw [Term.asPrinted]
    split
    · rename_i captured
      exact named name (List.contains_iff_mem.mp captured)
    · exact throughout

/-- References show where nothing else has their names. -/
theorem showsReferences_of_apart {term : Term} {bound : List Name}
    (apart : ∀ name ∈ term.references, name ∉ term.names ∧ name ∉ bound) :
    term.showsReferences bound := by
  -- The binder of an abstraction is one of its names, and it joins the binders passed on the way.
  induction term generalizing bound with
  | var name => rfl
  | lam binder body ih =>
    apply ih
    intro name member
    obtain ⟨unused, unbound⟩ := apart name member
    rw [names, NameSet.mem_union, NameSet.mem_singleton, not_or] at unused
    rw [List.mem_cons, not_or]
    exact ⟨unused.2, unused.1, unbound⟩
  | app func arg funcIh argIh =>
    simp only [names, NameSet.mem_union, not_or] at apart
    obtain ⟨inFunc, inArg⟩ := forall_references_app.mp apart
    rw [showsReferences, Bool.and_eq_true]
    exact ⟨funcIh (fun name member => ⟨(inFunc name member).1.1, (inFunc name member).2⟩),
      argIh (fun name member => ⟨(inArg name member).1.2, (inArg name member).2⟩)⟩
  -- No binder around it has its name.
  | ref name resolved =>
    have unbound := (apart name (NameSet.mem_singleton.mpr rfl)).2
    simp [showsReferences, unbound]

/-- A closed term is no variable, also when its references are followed. -/
theorem expose_ne_var {term : Term} (closed : term.Closed) (carries : term.CarriesClosed)
    (name : Name) : term.expose ≠ var name := by
  -- What a closed term carries is closed in turn.
  induction term with
  | var other =>
    have free := closed other
    simp [occursFree] at free
  | lam binder body ih => simp [expose]
  | app func arg funcIh argIh => simp [expose]
  | ref other resolved ih => exact ih carries.1 carries.2

/-- The term that a text says is equal to the printed one up to bound names only if
all references show. -/
theorem showsReferences_of_alphaEqUnder {term : Term} (carries : term.CarriesClosed)
    {bound leftBound rightBound : List Name}
    (same : alphaEqUnder (term.asPrinted bound) term leftBound rightBound) :
    term.showsReferences bound := by
  -- The comparison takes the same way through both terms, as far as a reference that does not show.
  induction term generalizing bound leftBound rightBound with
  | var name => rfl
  | lam binder body ih => exact ih carries same
  | app func arg funcIh argIh =>
    simp only [asPrinted, alphaEqUnder, expose, Bool.and_eq_true] at same
    simp only [showsReferences, Bool.and_eq_true]
    exact ⟨funcIh carries.1 same.1, argIh carries.2 same.2⟩
  | ref name resolved =>
    cases captured : bound.contains name with
    | false => rw [showsReferences, captured]; rfl
    | true =>
      -- A variable is equal to a reference only if the reference stands for a variable.
      rw [asPrinted, captured] at same
      simp only [if_true, alphaEqUnder, expose] at same
      split at same
      · rename_i other exposed
        exact absurd exposed (expose_ne_var carries.1 carries.2 other)
      · contradiction

/-- A text says the printed term up to bound names exactly when all references show. -/
theorem alphaEq_asPrinted_iff {term : Term} (carries : term.CarriesClosed) :
    (term.asPrinted []).alphaEq term ↔ term.showsReferences [] := by
  constructor
  · exact showsReferences_of_alphaEqUnder carries
  · -- If all of them show, the text says the very term.
    intro shows
    rw [asPrinted_eq_self shows]
    exact alphaEq_of_nameless rfl

section

variable {kind : Name → Bool} {values : Name → Option Term}

/-- Resolving the names of a term without its references finds the references that show, with what
the names mean. -/
theorem scope?_unlink {term : Term}
    (known : ∀ name ∈ term.references, isMacroName name ∧ (values name).isSome) {bound : List Name}
    (plain : ∀ name, term.occursFree name → name ∉ bound → isMacroName name = false) :
    term.unlink.scope? (fun name => (values name).map (ref name)) bound =
      some ((term.asPrinted bound).relink values) := by
  -- A name is resolved just where no binder of it is passed on the way.
  induction term generalizing bound with
  | var name =>
    have kept : (isMacroName name && !bound.contains name) = false := by
      by_cases inside : name ∈ bound
      · simp [inside]
      · simp [plain name (by simp [occursFree]) inside]
    rw [unlink, scope?, kept]
    rfl
  -- Below the binder its own name may occur free, and is bound there.
  | lam binder body ih =>
    rw [unlink, scope?, ih known, Option.map_some, asPrinted, relink]
    intro name free unbound
    rw [List.mem_cons, not_or] at unbound
    exact plain name (by simp [occursFree, free, Ne.symm unbound.1]) unbound.2
  | app func arg funcIh argIh =>
    obtain ⟨funcKnown, argKnown⟩ := forall_references_app.mp known
    have inFunc := funcIh funcKnown (fun name free => plain name (by simp [occursFree, free]))
    have inArg := argIh argKnown (fun name free => plain name (by simp [occursFree, free]))
    rw [unlink, scope?, inFunc, inArg]
    rfl
  -- The name of a reference is that of a macro, which is resolved unless a binder captures it.
  | ref name resolved =>
    obtain ⟨named, means⟩ := known name (NameSet.mem_singleton.mpr rfl)
    obtain ⟨renewed, found⟩ := Option.isSome_iff_exists.mp means
    rw [unlink, scope?, named, found, asPrinted]
    cases bound.contains name
    · simp [relink, found]
    · rfl

/-- Where references carry what their macros mean, it finds them as they are. -/
theorem Spelled.scope?_unlink {term : Term} (spelled : term.Spelled kind values)
    (named : ∀ name resolved, values name = some resolved → isMacroName name)
    (plain : ∀ name, term.occursFree name → isMacroName name = false) :
    term.unlink.scope? (fun name => (values name).map (ref name)) [] =
      some (term.asPrinted []) := by
  -- Renewed, the references carry what they carried before.
  have known : ∀ name ∈ term.references, isMacroName name ∧ (values name).isSome := by
    intro name member
    obtain ⟨resolved, found⟩ := spelled.forall_references name member
    exact ⟨named name resolved found, Option.isSome_of_eq_some found⟩
  have printed : (term.asPrinted []).Spelled kind values := spelled.asPrinted (by simp)
  rw [Term.scope?_unlink known (fun name free _ => plain name free), printed.relink_eq_self]

/-- Where variables are identifiers and references are to macros, all names can be written. -/
theorem Spelled.legible {term : Term} (spelled : term.Spelled isIdentifier values)
    (named : ∀ name resolved, values name = some resolved → isMacroName name) : term.Legible := by
  -- Its names are identifiers, and its references are to names of macros, which are.
  rintro name (inNames | inReferences)
  · exact spelled.forall_names name inNames
  · obtain ⟨resolved, found⟩ := spelled.forall_references name inReferences
    exact isIdentifier_of_isMacroName (named name resolved found)

/-- A term without references is the same without them. -/
theorem Spelled.unlink_eq_self {term : Term} (spelled : term.Spelled kind (fun _ => none)) :
    term.unlink = term := by
  -- No reference could carry what a macro means.
  induction term with
  | var name => rfl
  | lam binder body ih => rw [unlink, ih spelled.2]
  | app func arg funcIh argIh => rw [unlink, funcIh spelled.1, argIh spelled.2]
  | ref name resolved =>
    have unmeant := spelled.1
    contradiction

/-- Where no binder is named like a macro, all references show. -/
theorem Spelled.showsReferences {term : Term}
    (spelled : term.Spelled (fun name => !isMacroName name) values)
    (named : ∀ name resolved, values name = some resolved → isMacroName name) :
    term.showsReferences [] := by
  refine showsReferences_of_apart (fun name member => ⟨?_, List.not_mem_nil⟩)
  intro used
  -- References are to macros, and so they have no name of a variable or binder.
  obtain ⟨resolved, found⟩ := spelled.forall_references name member
  have different := spelled.forall_names name used
  rw [named name resolved found] at different
  contradiction

end

end NamedLambda.Term
