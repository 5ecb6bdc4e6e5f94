import Mathlib.Data.List.Find
import NamedLambda.Proofs.Term.Alpha
import NamedLambda.Proofs.Term.Position
import NamedLambda.Table.Folding

/-! Folding keeps what a term expands to, and leaves no part that could still be named. -/

namespace NamedLambda.Term

/-- A reference, whatever macro it is to. -/
def IsReference (term : Term) : Prop :=
  ∃ name resolved, term = ref name resolved

/-- The term with its largest nameable parts replaced, or the term itself where it has none. -/
def folded (meanings : List Meaning) (term : Term) : Term :=
  (term.foldWith? meanings).getD term

variable {meanings : List Meaning}

/-- A part that is replaced becomes a reference to one of the macros. -/
theorem exists_of_nameAs? {term named : Term} (found : term.nameAs? meanings = some named) :
    ∃ meaning ∈ meanings, named = ref meaning.1 meaning.2 ∧ term.alphaEq meaning.2 := by
  -- The search stops at a macro that passes the comparison.
  obtain ⟨meaning, located, rfl⟩ := Option.map_eq_some_iff.mp found
  have equal := List.find?_some located
  exact ⟨meaning, List.mem_of_find?_eq_some located, rfl, equal⟩

/-- A term that is named as a whole is folded to the reference that names it. -/
theorem foldWith?_of_nameAs? {term named : Term} (apart : ¬term.IsReference)
    (found : term.nameAs? meanings = some named) : term.foldWith? meanings = some named := by
  -- The whole term is tried before its parts.
  cases term with
  | var name => exact found
  | lam binder body => simp [foldWith?, found]
  | app func arg => simp [foldWith?, found]
  | ref name resolved => exact absurd ⟨name, resolved, rfl⟩ apart

/-- A variable is folded to a reference where a macro stands for it. -/
theorem folded_var (name : Name) :
    (var name).folded meanings = ((var name).nameAs? meanings).getD (var name) :=
  rfl

/-- An abstraction is named as a whole, or else its body is folded. -/
theorem folded_lam (binder : Name) (body : Term) :
    (lam binder body).folded meanings =
      ((lam binder body).nameAs? meanings).getD (lam binder (body.folded meanings)) := by
  -- Where the body has no part to fold it is the folded body itself.
  rw [folded, foldWith?]
  cases (lam binder body).nameAs? meanings with
  | some named => rfl
  | none =>
    cases inBody : body.foldWith? meanings <;> simp [folded, inBody]

/-- An application is named as a whole, or else both of its parts are folded. -/
theorem folded_app (func arg : Term) :
    (app func arg).folded meanings = ((app func arg).nameAs? meanings).getD
      (app (func.folded meanings) (arg.folded meanings)) := by
  -- A part without anything to fold is the folded part itself.
  rw [folded, foldWith?]
  cases (app func arg).nameAs? meanings with
  | some named => rfl
  | none =>
    cases inFunc : func.foldWith? meanings <;> cases inArg : arg.foldWith? meanings <;>
      simp [folded, inFunc, inArg]

/-- Folding is said to change a term only where it does. -/
theorem foldWith?_ne_self (term : Term) : term.foldWith? meanings ≠ some term := by
  -- The first part that is replaced becomes a reference, which it was not before.
  induction term with
  | var name =>
    intro found
    obtain ⟨meaning, -, same, -⟩ := exists_of_nameAs? found
    contradiction
  | lam binder body ih =>
    intro found
    rcases Option.or_eq_some_iff.mp found with named | ⟨-, inBody⟩
    · obtain ⟨meaning, -, same, -⟩ := exists_of_nameAs? named
      contradiction
    · obtain ⟨inner, inBody, same⟩ := Option.map_eq_some_iff.mp inBody
      obtain rfl : inner = body := by simpa using same
      exact ih inBody
  | app func arg funcIh argIh =>
    intro found
    rcases Option.or_eq_some_iff.mp found with named | ⟨-, inParts⟩
    · obtain ⟨meaning, -, same, -⟩ := exists_of_nameAs? named
      contradiction
    · -- One of the parts has changed, and would be itself.
      cases inFunc : func.foldWith? meanings with
      | some newFunc =>
        simp only [inFunc, Option.getD_some, Option.some.injEq, app.injEq] at inParts
        exact funcIh (inParts.1 ▸ inFunc)
      | none =>
        cases inArg : arg.foldWith? meanings with
        | some newArg =>
          simp only [inFunc, inArg, Option.getD_some, Option.some.injEq, app.injEq] at inParts
          exact argIh (inParts.2 ▸ inArg)
        | none => simp [inFunc, inArg] at inParts
  | ref name resolved => simp [foldWith?]

/-- A term of which no part can be named is left alone. -/
theorem foldWith?_eq_none {term : Term}
    (unnamed : ∀ path part, term.at? path = some part → ¬part.IsReference →
      part.nameAs? meanings = none) : term.foldWith? meanings = none := by
  -- The parts of a part are parts of the term, by one branch more.
  induction term with
  | var name => exact unnamed [] _ rfl (by simp [IsReference])
  | lam binder body ih =>
    have whole := unnamed [] (lam binder body) rfl (by simp [IsReference])
    have inBody := ih (fun path part found => unnamed (.body :: path) part found)
    simp [foldWith?, whole, inBody]
  | app func arg funcIh argIh =>
    have whole := unnamed [] (app func arg) rfl (by simp [IsReference])
    have inFunc := funcIh (fun path part found => unnamed (.func :: path) part found)
    have inArg := argIh (fun path part found => unnamed (.arg :: path) part found)
    simp [foldWith?, whole, inFunc, inArg]
  | ref name resolved => rfl

/-- A term that is named as a whole becomes a reference, unless it is one. -/
theorem isReference_folded {term named : Term} (found : term.nameAs? meanings = some named) :
    (term.folded meanings).IsReference := by
  -- A reference stays one.
  by_cases reference : term.IsReference
  · obtain ⟨name, resolved, rfl⟩ := reference
    exact ⟨name, resolved, rfl⟩
  · obtain ⟨meaning, -, rfl, -⟩ := exists_of_nameAs? found
    rw [folded, foldWith?_of_nameAs? reference found]
    exact ⟨meaning.1, meaning.2, rfl⟩

/-- The parts of a folded term are parts of the term, folded. -/
theorem exists_of_at?_folded {path : Path} {term part : Term}
    (found : (term.folded meanings).at? path = some part) :
    ∃ original, term.at? path = some original ∧ original.folded meanings = part := by
  -- A path leads on only where the term was not named as a whole, and there its shape is kept.
  induction path generalizing term with
  | nil => exact ⟨term, rfl, Option.some.inj found⟩
  | cons branch rest ih =>
    cases named : term.nameAs? meanings with
    | some other =>
      obtain ⟨name, resolved, same⟩ := isReference_folded named
      simp [same, at?_cons_ref] at found
    | none =>
      cases term with
      | var name => simp [folded_var, named, at?_cons_var] at found
      | lam binder body =>
        rw [folded_lam, named, Option.getD_none, at?_cons_lam_eq_some] at found
        obtain ⟨rfl, inBody⟩ := found
        exact ih inBody
      | app func arg =>
        rw [folded_app, named, Option.getD_none, at?_cons_app_eq_some] at found
        rcases found with ⟨rfl, inFunc⟩ | ⟨rfl, inArg⟩
        · exact ih inFunc
        · exact ih inArg
      | ref name resolved => simp [folded, foldWith?, at?_cons_ref] at found

/-- Parts of a term are replaced by references to macros that they are equal to up
to bound names. -/
inductive Folds (meanings : List Meaning) : (term next : Term) → Prop where
  /-- The whole term is named after a macro. -/
  | named {term : Term} {meaning : Meaning} (member : meaning ∈ meanings)
    (equal : term.alphaEq meaning.2) : Folds meanings term (ref meaning.1 meaning.2)
  /-- A variable is left as it is. -/
  | var (name : Name) : Folds meanings (var name) (var name)
  /-- The parts of an abstraction are those of its body. -/
  | lam {binder : Name} {body next : Term} (inBody : Folds meanings body next) :
    Folds meanings (lam binder body) (lam binder next)
  /-- Both parts of an application may change. -/
  | app {func nextFunc arg nextArg : Term} (inFunc : Folds meanings func nextFunc)
    (inArg : Folds meanings arg nextArg) : Folds meanings (app func arg) (app nextFunc nextArg)
  /-- A reference is left as it is. -/
  | ref (name : Name) (resolved : Term) : Folds meanings (ref name resolved) (ref name resolved)

/-- Whether or not the whole term is named, its parts may be replaced. -/
theorem Folds.nameAs?_getD {term next : Term} (folds : Folds meanings term next) :
    Folds meanings term ((term.nameAs? meanings).getD next) := by
  -- A name takes the place of whatever was done to the parts.
  cases found : term.nameAs? meanings with
  | none => exact folds
  | some named =>
    obtain ⟨meaning, member, rfl, equal⟩ := exists_of_nameAs? found
    exact .named member equal

/-- Folding replaces as many parts as possible. -/
theorem folds_folded (term : Term) : Folds meanings term (term.folded meanings) := by
  -- Either the whole term is named, or its parts are folded.
  induction term with
  | var name =>
    rw [folded_var]
    exact Folds.nameAs?_getD (.var name)
  | lam binder body ih =>
    rw [folded_lam]
    exact Folds.nameAs?_getD (.lam ih)
  | app func arg funcIh argIh =>
    rw [folded_app]
    exact Folds.nameAs?_getD (.app funcIh argIh)
  | ref name resolved => exact .ref name resolved

/-- Replaced parts bring no variables and no binders. -/
theorem Folds.mem_names {term next : Term} (folds : Folds meanings term next) {name : Name}
    (member : name ∈ next.names) : name ∈ term.names := by
  -- A reference has no names of its own.
  induction folds with
  | named => exact absurd member (NameSet.not_mem_empty name)
  | var other => exact member
  | lam inBody ih => exact NameSet.mem_union.mpr ((NameSet.mem_union.mp member).imp_right ih)
  | app inFunc inArg funcIh argIh =>
    exact NameSet.mem_union.mpr ((NameSet.mem_union.mp member).imp funcIh argIh)
  | ref other resolved => exact member

/-- What holds throughout a term and the macros holds throughout the term with parts replaced. -/
theorem Folds.throughout {onName : Name → Bool} {onReference : Name → Term → Prop}
    {term next : Term} (folds : Folds meanings term next)
    (known : ∀ meaning ∈ meanings, (Term.ref meaning.1 meaning.2).Throughout onName onReference)
    (throughout : term.Throughout onName onReference) : next.Throughout onName onReference := by
  -- Each part is either left or replaced by a reference to one of the macros.
  induction folds with
  | named member equal => exact known _ member
  | var name => exact throughout
  | lam inBody ih => exact ⟨throughout.1, ih throughout.2⟩
  | app inFunc inArg funcIh argIh => exact ⟨funcIh throughout.1, argIh throughout.2⟩
  | ref name resolved => exact throughout

section

variable {forms : Name → Nameless}
  (known : ∀ meaning ∈ meanings, (Term.ref meaning.1 meaning.2).Coherent forms)
include known

/-- A term with parts replaced expands to what the term expands to, also below binders. -/
theorem Folds.namelessUnder_expand {term next : Term} (folds : Folds meanings term next)
    (coherent : term.Coherent forms) (binders : List Name) :
    next.expand.namelessUnder binders = term.expand.namelessUnder binders := by
  -- The induction is on the replaced parts, for any binders that are passed on the way to them.
  induction folds generalizing binders with
  | @named term meaning member equal =>
    have both := known meaning member
    have same := (alphaEq_iff coherent both.2).mp equal
    -- The macro stands for a closed term, so the part is closed as well, whatever binds around it.
    have meaningClosed : meaning.2.expand.Closed := fun name =>
      (occursFree_expand both.carriesClosed.2 name).trans (both.1.1 name)
    have closed : term.expand.Closed := fun name =>
      (occursFree_congr same name).trans (meaningClosed name)
    rw [expand, namelessUnder_eq_nameless (fun binder _ => meaningClosed binder),
      namelessUnder_eq_nameless (fun binder _ => closed binder), same]
  | var name => rfl
  | lam inBody ih => rw [expand, expand, namelessUnder, namelessUnder, ih coherent.2]
  | app inFunc inArg funcIh argIh =>
    rw [expand, expand, namelessUnder, namelessUnder, funcIh coherent.1, argIh coherent.2]
  | ref name resolved => rfl

/-- Replacing parts of a coherent term frees no variables, and binds none. -/
theorem Folds.occursFree {term next : Term} (folds : Folds meanings term next)
    (coherent : term.Coherent forms) (name : Name) :
    next.occursFree name = term.occursFree name := by
  -- The free variables show in the expansion, which is the same.
  have nextCoherent : next.Coherent forms := folds.throughout known coherent
  rw [← occursFree_expand nextCoherent.carriesClosed name,
    ← occursFree_expand coherent.carriesClosed name]
  exact occursFree_congr (folds.namelessUnder_expand known coherent []) name

/-- Replacing parts of a term does not change what the term is named as a whole. -/
theorem Folds.nameAs?_eq {term next : Term} (folds : Folds meanings term next)
    (coherent : term.Coherent forms) : next.nameAs? meanings = term.nameAs? meanings := by
  -- The search for a name comes to the same macro on both sides.
  have nextCoherent : next.Coherent forms := folds.throughout known coherent
  have same : next.expand.nameless = term.expand.nameless :=
    folds.namelessUnder_expand known coherent []
  rw [nameAs?, nameAs?]
  congr 1
  apply List.find?_congr
  intro meaning member
  have meaningCoherent := (known meaning member).2
  -- A comparison sees the expansion only.
  rw [Bool.eq_iff_iff, alphaEq_iff nextCoherent meaningCoherent,
    alphaEq_iff coherent meaningCoherent, same]

/-- No part of a folded term can be named, save that references are left as they are. -/
theorem nameAs?_of_at?_folded {term part : Term} (coherent : term.Coherent forms) {path : Path}
    (found : (term.folded meanings).at? path = some part) (apart : ¬part.IsReference) :
    part.nameAs? meanings = none := by
  obtain ⟨original, located, rfl⟩ := exists_of_at?_folded found
  -- The part of the term in this place was not named, and folding it did not change that.
  rw [(folds_folded original).nameAs?_eq known (coherent.at? located)]
  cases named : original.nameAs? meanings with
  | none => rfl
  | some other => exact absurd (isReference_folded named) apart

/-- Folding a folded term changes nothing. -/
theorem foldWith?_folded {term : Term} (coherent : term.Coherent forms) :
    (term.folded meanings).foldWith? meanings = none :=
  foldWith?_eq_none (fun _ _ => nameAs?_of_at?_folded known coherent)

end

end NamedLambda.Term
