import NamedLambda.Term.References
import NamedLambda.Term.Substitution

/-! What holds of every name and every reference in a term goes on to hold under substitution, if it
holds of the names that binders escape to. -/

namespace NamedLambda.Term

/-- What holds of the references of an application holds of those of both parts. -/
theorem forall_references_app {func arg : Term} {holds : Name → Prop} :
    (∀ name ∈ (app func arg).references, holds name) ↔
      (∀ name ∈ func.references, holds name) ∧ ∀ name ∈ arg.references, holds name := by
  -- They are the references of either part.
  simp only [references, NameSet.mem_union, or_imp, forall_and]

/-- What holds of the names of an application holds of those of both parts. -/
theorem forall_names_app {func arg : Term} {holds : Name → Prop} :
    (∀ name ∈ (app func arg).names, holds name) ↔
      (∀ name ∈ func.names, holds name) ∧ ∀ name ∈ arg.names, holds name := by
  -- They are the names of either part.
  simp only [names, NameSet.mem_union, or_imp, forall_and]

/-- What holds of the names of an abstraction holds of its binder and of those of its body. -/
theorem forall_names_lam {binder : Name} {body : Term} {holds : Name → Prop} :
    (∀ name ∈ (lam binder body).names, holds name) ↔
      holds binder ∧ ∀ name ∈ body.names, holds name := by
  -- They are the binder and the names of the body.
  simp only [names, NameSet.mem_union, NameSet.mem_singleton, or_imp, forall_and, forall_eq]

/-- All variables and binders have names of a kind and all references are of a kind, in the term and
in the terms that its references carry. -/
def Throughout (onName : Name → Bool) (onReference : Name → Term → Prop) : Term → Prop
  | var name => onName name
  | lam binder body => onName binder ∧ body.Throughout onName onReference
  | app func arg => func.Throughout onName onReference ∧ arg.Throughout onName onReference
  | ref name resolved => onReference name resolved ∧ resolved.Throughout onName onReference

variable {onName : Name → Bool} {onReference : Name → Term → Prop}

/-- What follows of every reference holds throughout as well. -/
theorem Throughout.imp {onOther : Name → Term → Prop} {term : Term}
    (follows : ∀ name resolved, onReference name resolved → onOther name resolved)
    (throughout : term.Throughout onName onReference) : term.Throughout onName onOther := by
  -- The names are asked for the same as before.
  induction term with
  | var name => exact throughout
  | lam binder body ih => exact ⟨throughout.1, ih throughout.2⟩
  | app func arg funcIh argIh => exact ⟨funcIh throughout.1, argIh throughout.2⟩
  | ref name resolved ih => exact ⟨follows name resolved throughout.1, ih throughout.2⟩

/-- Renaming brings no name but the new one. -/
theorem throughout_rename {term : Term} {old new : Name}
    (throughout : term.Throughout onName onReference) (holds : onName new) :
    (term.rename old new).Throughout onName onReference := by
  -- References are left as they are.
  induction term with
  | var name =>
    simp only [rename]
    split
    · exact holds
    · exact throughout
  | lam binder body ih =>
    simp only [rename]
    split
    · exact throughout
    · exact ⟨throughout.1, ih throughout.2⟩
  | app func arg funcIh argIh => exact ⟨funcIh throughout.1, argIh throughout.2⟩
  | ref name resolved => exact throughout

/-- Substitution brings no names but those of the value and those that binders escape to. -/
theorem throughout_substitute (fresh : ∀ base avoid, onName base → onName (freshName base avoid))
    {term : Term} {name : Name} {value : Term} (throughout : term.Throughout onName onReference)
    (inValue : value.Throughout onName onReference) :
    (term.substitute name value).Throughout onName onReference := by
  -- Nothing is substituted below a reference, and renaming does not touch it either.
  fun_induction substitute term name value with
  | case1 => exact inValue
  | case2 => exact throughout
  | case3 func arg funcIh argIh => exact ⟨funcIh throughout.1, argIh throughout.2⟩
  | case4 => exact throughout
  | case5 => exact throughout
  | case6 binder body present captures escape =>
    rename_i ih
    -- The binder escapes to a name of the kind, and the body is renamed to it.
    have escapes : onName escape := fresh binder _ throughout.1
    exact ⟨escapes, ih (throughout_rename throughout.2 escapes)⟩
  | case7 binder body present spared ih => exact ⟨throughout.1, ih throughout.2⟩

/-- The abstraction seen through references is part of what a term carries. -/
theorem throughout_abstraction? {term : Term} {binder : Name} {body : Term}
    (throughout : term.Throughout onName onReference)
    (found : term.abstraction? = some (binder, body)) : body.Throughout onName onReference := by
  -- Looking through references stays within what they carry.
  induction term with
  | var name => contradiction
  | lam other inner ih =>
    obtain ⟨rfl, rfl⟩ : other = binder ∧ inner = body := by simpa [abstraction?] using found
    exact throughout.2
  | app func arg funcIh argIh => contradiction
  | ref name resolved ih => exact ih throughout.2 found

/-- Only what references are renewed to counts, not what they carried before. -/
theorem throughout_relink {term : Term} {meaning : Name → Option Term}
    (named : ∀ name ∈ term.names, onName name)
    (means : ∀ name ∈ term.references, ∃ resolved, meaning name = some resolved ∧
      onReference name resolved ∧ resolved.Throughout onName onReference) :
    (term.relink meaning).Throughout onName onReference := by
  -- Every reference gets its meaning, and everything else keeps its names.
  induction term with
  | var name => exact named name (NameSet.mem_singleton.mpr rfl)
  | lam binder body ih =>
    obtain ⟨atBinder, inBody⟩ := forall_names_lam.mp named
    exact ⟨atBinder, ih inBody means⟩
  | app func arg funcIh argIh =>
    obtain ⟨inFunc, inArg⟩ := forall_names_app.mp named
    obtain ⟨funcMeans, argMeans⟩ := forall_references_app.mp means
    exact ⟨funcIh inFunc funcMeans, argIh inArg argMeans⟩
  | ref name resolved =>
    obtain ⟨renewed, found, both⟩ := means name (NameSet.mem_singleton.mpr rfl)
    rw [relink, found]
    exact both

/-- Without references only the names of the term itself count. -/
theorem throughout_of_not_mem_references {term : Term} (named : ∀ name ∈ term.names, onName name)
    (absent : ∀ name, name ∉ term.references) : term.Throughout onName onReference := by
  -- What is asked of references is asked of none.
  induction term with
  | var name => exact named name (NameSet.mem_singleton.mpr rfl)
  | lam binder body ih =>
    obtain ⟨atBinder, inBody⟩ := forall_names_lam.mp named
    exact ⟨atBinder, ih inBody absent⟩
  | app func arg funcIh argIh =>
    obtain ⟨inFunc, inArg⟩ := forall_names_app.mp named
    simp only [references, NameSet.mem_union, not_or, forall_and] at absent
    exact ⟨funcIh inFunc absent.1, argIh inArg absent.2⟩
  | ref name resolved => exact absurd (NameSet.mem_singleton.mpr rfl) (absent name)

/-- The names of the term itself are of the kind. -/
theorem Throughout.forall_names {term : Term} (throughout : term.Throughout onName onReference) :
    ∀ name ∈ term.names, onName name := by
  -- What references carry is left aside.
  induction term with
  | var name => simpa [names, Throughout] using throughout
  | lam binder body ih => exact forall_names_lam.mpr ⟨throughout.1, ih throughout.2⟩
  | app func arg funcIh argIh =>
    exact forall_names_app.mpr ⟨funcIh throughout.1, argIh throughout.2⟩
  | ref name resolved => exact fun other member => absurd member (NameSet.not_mem_empty other)

/-- The references of the term itself are of the kind. -/
theorem Throughout.forall_references {term : Term}
    (throughout : term.Throughout onName onReference) :
    ∀ name ∈ term.references, ∃ resolved, onReference name resolved := by
  -- The references inside of what references carry are left aside.
  induction term with
  | var name => exact fun other member => absurd member (NameSet.not_mem_empty other)
  | lam binder body ih => exact ih throughout.2
  | app func arg funcIh argIh =>
    exact forall_references_app.mpr ⟨funcIh throughout.1, argIh throughout.2⟩
  | ref name resolved =>
    intro other member
    obtain rfl := NameSet.mem_singleton.mp member
    exact ⟨resolved, throughout.1⟩

/-- All names are of a kind, and every reference carries what its macro means. -/
abbrev Spelled (kind : Name → Bool) (values : Name → Option Term) (term : Term) : Prop :=
  term.Throughout kind (fun name resolved => values name = some resolved)

/-- References renewed to meanings that are spelled in a way leave no names that are not. -/
theorem spelled_relink {term : Term} {kind : Name → Bool} {meaning : Name → Option Term}
    (named : ∀ name ∈ term.names, kind name)
    (means : ∀ name ∈ term.references, ∃ resolved, meaning name = some resolved ∧
      resolved.Spelled kind meaning) : (term.relink meaning).Spelled kind meaning := by
  -- A renewed reference carries what its macro means.
  refine throughout_relink named (fun name member => ?_)
  obtain ⟨resolved, found, spelled⟩ := means name member
  exact ⟨resolved, found, found, spelled⟩

/-- References that carry what their macros mean are renewed to the same. -/
theorem Spelled.relink_eq_self {term : Term} {kind : Name → Bool} {meaning : Name → Option Term}
    (spelled : term.Spelled kind meaning) : term.relink meaning = term := by
  -- Every reference is renewed to what it carries already.
  induction term with
  | var name => rfl
  | lam binder body ih => rw [relink, ih spelled.2]
  | app func arg funcIh argIh => rw [relink, funcIh spelled.1, argIh spelled.2]
  | ref name resolved => rw [relink, spelled.1, Option.getD_some]

end NamedLambda.Term
