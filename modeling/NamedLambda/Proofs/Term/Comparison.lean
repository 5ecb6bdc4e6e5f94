import NamedLambda.Proofs.Term.Alpha

/-! The comparison of terms is exact where references of one name expand to one form. Where they do
not, it may tell which of two terms comes first, but only by references that references carry. -/

namespace NamedLambda.Term

/-- All references of a term with the terms they carry, those within the terms carried included. -/
def referencesWithin : Term → List (Name × Term)
  | var _ => []
  | lam _ body => body.referencesWithin
  | app func arg => func.referencesWithin ++ arg.referencesWithin
  | ref name resolved => (name, resolved) :: resolved.referencesWithin

/-- The references of a term, at any depth, that other references carry as they are. -/
def chainedReferences (term : Term) : List (Name × Term) :=
  term.referencesWithin.filterMap fun used =>
    match used.2 with
    | ref name resolved => some (name, resolved)
    | _ => none

/-- References of one name, one from each list, expand to terms of one nameless form. -/
def ReferencesAgree (left right : List (Name × Term)) : Prop :=
  ∀ first ∈ left, ∀ second ∈ right, first.1 = second.1 →
    first.2.expand.nameless = second.2.expand.nameless

instance (left right : List (Name × Term)) : Decidable (ReferencesAgree left right) :=
  inferInstanceAs (Decidable (∀ first ∈ left, ∀ second ∈ right, first.1 = second.1 →
    first.2.expand.nameless = second.2.expand.nameless))

/-- What holds of the references throughout a term holds of all references within it. -/
theorem throughout_iff_referencesWithin {term : Term} {onReference : Name → Term → Prop} :
    term.Throughout (fun _ => true) onReference ↔
      ∀ used ∈ term.referencesWithin, onReference used.1 used.2 := by
  -- Both sides go into the terms that references carry.
  induction term with
  | var name => simp [Throughout, referencesWithin]
  | lam binder body ih => simp [Throughout, referencesWithin, ih]
  | app func arg funcIh argIh =>
    simp only [Throughout, referencesWithin, funcIh, argIh, List.forall_mem_append]
  | ref name resolved ih =>
    simp only [Throughout, referencesWithin, ih, List.forall_mem_cons]

/-- A reference that another one carries as it is counts as chained. -/
theorem mem_chainedReferences {term : Term} {owner name : Name} {resolved : Term}
    (member : (owner, ref name resolved) ∈ term.referencesWithin) :
    (name, resolved) ∈ term.chainedReferences :=
  List.mem_filterMap.mpr ⟨_, member, rfl⟩

/-- Where the references within terms agree, all terms that make use of them are coherent. -/
theorem exists_coherent {all : List (Name × Term)} (agree : ReferencesAgree all all) :
    ∃ forms : Name → Nameless, ∀ term : Term, term.CarriesClosed →
      (∀ used ∈ term.referencesWithin, used ∈ all) → term.Coherent forms := by
  -- The first reference of a name gives the name its form.
  refine ⟨fun name => ((all.lookup name).map (fun resolved => resolved.expand.nameless)).getD
    (.free name), ?_⟩
  intro term carries known
  refine throughout_iff_referencesWithin.mpr (fun used member => ⟨?_, ?_⟩)
  · exact throughout_iff_referencesWithin.mp (carriesClosed_iff.mp carries) used member
  · -- Every reference within the term is listed, so that its name has a first one.
    cases found : all.lookup used.1 with
    | none =>
      have absent := List.lookup_eq_none_iff.mp found used (known used member)
      simp at absent
    | some resolved =>
      obtain ⟨before, after, split, -⟩ := List.lookup_eq_some_iff.mp found
      have first : (used.1, resolved) ∈ all := by simp [split]
      simp only [found, Option.map_some, Option.getD_some]
      -- The first reference of the name agrees with this one.
      exact agree used (known used member) (used.1, resolved) first rfl

/-- Where references of one name expand to one form, the comparison tells exactly whether the
expansions of two terms have one nameless form. -/
theorem alphaEq_iff_of_referencesAgree {left right : Term} (leftCarries : left.CarriesClosed)
    (rightCarries : right.CarriesClosed)
    (agree : ReferencesAgree (left.referencesWithin ++ right.referencesWithin)
      (left.referencesWithin ++ right.referencesWithin)) :
    left.alphaEq right ↔ left.expand.nameless = right.expand.nameless := by
  -- Agreement gives each name one form, and then the comparison is exact.
  obtain ⟨forms, coherent⟩ := exists_coherent agree
  have leftCoherent := coherent left leftCarries (fun _ => List.mem_append_left _)
  have rightCoherent := coherent right rightCarries (fun _ => List.mem_append_right _)
  exact alphaEq_iff leftCoherent rightCoherent

/-- A shadowed binder, a reference inside of another and bound names that differ
are seen through. -/
theorem alphaEq_iff_of_referencesAgree_nested :
    let left := lam "x" (lam "x" (app (var "x") (ref "A" (ref "B" (lam "y" (var "y"))))))
    let right := lam "a" (lam "b" (app (var "b") (ref "B" (lam "z" (var "z")))))
    let other := lam "a" (lam "b" (app (var "a") (ref "B" (lam "z" (var "z")))))
    left.CarriesClosed ∧ right.CarriesClosed ∧ other.CarriesClosed ∧
      ReferencesAgree (left.referencesWithin ++ right.referencesWithin)
        (left.referencesWithin ++ right.referencesWithin) ∧
      ReferencesAgree (left.referencesWithin ++ other.referencesWithin)
        (left.referencesWithin ++ other.referencesWithin) ∧
      left.expand.nameless = right.expand.nameless ∧ left.alphaEq right ∧
      left.expand.nameless ≠ other.expand.nameless ∧ ¬left.alphaEq other := by
  -- All references carry an identity, whatever its binder is called.
  intro left right other
  have identity (name : Name) : (lam name (var name)).Closed := by
    intro free
    simp [occursFree]
  have leftCarries : left.CarriesClosed := ⟨trivial, fun _ => rfl, identity "y", trivial⟩
  have rightCarries : right.CarriesClosed := ⟨trivial, identity "z", trivial⟩
  have otherCarries : other.CarriesClosed := ⟨trivial, identity "z", trivial⟩
  have agree : ReferencesAgree (left.referencesWithin ++ right.referencesWithin)
      (left.referencesWithin ++ right.referencesWithin) := by decide
  have otherAgree : ReferencesAgree (left.referencesWithin ++ other.referencesWithin)
      (left.referencesWithin ++ other.referencesWithin) := by decide
  have same : left.expand.nameless = right.expand.nameless := by decide
  have different : left.expand.nameless ≠ other.expand.nameless := by decide
  have equal := (alphaEq_iff_of_referencesAgree leftCarries rightCarries agree).mpr same
  have decides := alphaEq_iff_of_referencesAgree leftCarries otherCarries otherAgree
  exact ⟨leftCarries, rightCarries, otherCarries, agree, otherAgree, same, equal, different,
    fun found => different (decides.mp found)⟩

section

variable {all chains : List (Name × Term)}

/-- Every reference carries a closed term and is listed, and those that references carry are listed
as chained. -/
abbrev Listed (all chains : List (Name × Term)) (term : Term) : Prop :=
  term.Throughout (fun _ => true) (fun name resolved =>
    resolved.Closed ∧ (name, resolved) ∈ all ∧
      ∀ other inner, resolved = ref other inner → (other, inner) ∈ chains)

/-- The references of a listed term carry closed terms. -/
theorem Listed.carriesClosed {term : Term} (listed : term.Listed all chains) :
    term.CarriesClosed :=
  carriesClosed_iff.mpr (listed.imp (fun _ _ known => known.1))

/-- What a term leads to is compared last. -/
theorem alphaEqUnder_of_expose {left right : Term} {leftBound rightBound : List Name}
    (same : alphaEqUnder left.expose right leftBound rightBound) :
    alphaEqUnder left right leftBound rightBound := by
  -- A reference on the left is followed unless its name meets one on the right.
  induction left with
  | var name => exact same
  | lam binder body ih => exact same
  | app func arg funcIh argIh => exact same
  | ref name resolved ih => exact alphaEqUnder_ref_iff.mpr (.inr (ih same))

/-- What is equal to the term that a reference carries is equal to the reference, if chained
references agree with all others. -/
theorem alphaEqUnder_ref_of_resolved (agree : ReferencesAgree chains all) {left resolved : Term}
    {name : Name} (listed : left.Listed all chains)
    (refListed : (ref name resolved).Listed all chains) {leftBound rightBound : List Name}
    (same : alphaEqUnder left resolved leftBound rightBound) :
    alphaEqUnder left (ref name resolved) leftBound rightBound := by
  -- Only a reference on the left can tell the reference from what it carries.
  induction left with
  | var other => exact same
  | lam binder body ih => exact same
  | app func arg funcIh argIh => exact same
  | ref other inner ih =>
    rcases alphaEqUnder_ref_iff.mp same with ⟨deep, rfl⟩ | below
    · -- The names met below the reference, which the left term no longer gets to see.
      have chained : (other, deep) ∈ chains := refListed.1.2.2 other deep rfl
      have forms := agree _ chained _ listed.1.2.1 rfl
      apply alphaEqUnder_of_expand
      have innerForm := namelessUnder_expand_of_closed listed.1.1
        (Listed.carriesClosed listed.2) leftBound
      have deepForm := namelessUnder_expand_of_closed refListed.2.1.1
        (Listed.carriesClosed refListed.2.2) rightBound
      exact innerForm.trans (forms.symm.trans deepForm.symm)
    · -- No names meet, so the left reference is followed on both sides.
      exact alphaEqUnder_ref_iff.mpr (.inr (ih listed.2 below))

/-- Terms that are found equal are found equal the other way round, if chained references agree with
all others. -/
theorem alphaEqUnder_symm (agree : ReferencesAgree chains all) {left right : Term}
    (listed : left.Listed all chains) (rightListed : right.Listed all chains)
    {leftBound rightBound : List Name} (same : alphaEqUnder left right leftBound rightBound) :
    alphaEqUnder right left rightBound leftBound := by
  -- Where no names meet, both ways end at what the references lead to.
  induction left generalizing right leftBound rightBound with
  | var name =>
    -- A variable is met by a variable.
    obtain ⟨other, exposed, sameForm⟩ := alphaEqUnder_var_iff.mp same
    apply alphaEqUnder_of_expose
    rw [exposed]
    exact alphaEqUnder_var_iff.mpr ⟨name, rfl, sameForm.symm⟩
  | lam binder body ih =>
    -- An abstraction is met by an abstraction, and the bodies are compared below both binders.
    obtain ⟨otherBinder, otherBody, exposed, sameBody⟩ := alphaEqUnder_lam_iff.mp same
    have exposedListed := rightListed.expose
    rw [exposed] at exposedListed
    apply alphaEqUnder_of_expose
    rw [exposed]
    exact alphaEqUnder_lam_iff.mpr ⟨binder, body, rfl, ih listed.2 exposedListed.2 sameBody⟩
  | app func arg funcIh argIh =>
    -- An application is met by an application, part by part.
    obtain ⟨otherFunc, otherArg, exposed, sameFunc, sameArg⟩ := alphaEqUnder_app_iff.mp same
    have exposedListed := rightListed.expose
    rw [exposed] at exposedListed
    apply alphaEqUnder_of_expose
    rw [exposed]
    exact alphaEqUnder_app_iff.mpr ⟨func, arg, rfl, funcIh listed.1 exposedListed.1 sameFunc,
      argIh listed.2 exposedListed.2 sameArg⟩
  | ref name resolved ih =>
    rcases alphaEqUnder_ref_iff.mp same with ⟨other, rfl⟩ | below
    · -- The names that meet first meet first the other way round as well.
      exact alphaEqUnder_ref_iff.mpr (.inl ⟨resolved, rfl⟩)
    · -- What the left one carries is equal to the right one, and so is the reference to it.
      exact alphaEqUnder_ref_of_resolved agree rightListed listed (ih listed.2 rightListed below)

end

/-- It does not matter which of two terms comes first if each reference that another one carries as
it is expands to the form of all references of its name, while others may be out of date. -/
theorem alphaEq_comm_of_chains_agree {left right : Term} (leftCarries : left.CarriesClosed)
    (rightCarries : right.CarriesClosed)
    (agree : ReferencesAgree (left.chainedReferences ++ right.chainedReferences)
      (left.referencesWithin ++ right.referencesWithin)) :
    left.alphaEq right = right.alphaEq left := by
  -- The references of both terms are put on one list, and the chained ones on another.
  -- A term whose references are on the lists is listed.
  have listed {term : Term} (carries : term.CarriesClosed)
      (inAll : term.referencesWithin ⊆ left.referencesWithin ++ right.referencesWithin)
      (inChains : term.chainedReferences ⊆ left.chainedReferences ++ right.chainedReferences) :
      term.Listed (left.referencesWithin ++ right.referencesWithin)
        (left.chainedReferences ++ right.chainedReferences) := by
    have closed := throughout_iff_referencesWithin.mp (carriesClosed_iff.mp carries)
    refine throughout_iff_referencesWithin.mpr (fun used member => ?_)
    refine ⟨closed used member, inAll member, fun other inner carried => inChains ?_⟩
    have within : (used.1, ref other inner) ∈ term.referencesWithin := carried ▸ member
    exact mem_chainedReferences within
  have leftListed := listed leftCarries (List.subset_append_left ..) (List.subset_append_left ..)
  have rightListed := listed rightCarries (List.subset_append_right ..)
    (List.subset_append_right ..)
  rw [Bool.eq_iff_iff]
  exact ⟨alphaEqUnder_symm agree leftListed rightListed,
    alphaEqUnder_symm agree rightListed leftListed⟩

/-- An outdated reference inside an abstraction that a reference carries is found
equal both ways. -/
theorem alphaEq_comm_of_chains_agree_outdated :
    let left := ref "A" (lam "w" (ref "B" (lam "x" (var "x"))))
    let right := lam "w" (ref "B" (lam "x" (lam "y" (var "x"))))
    left.CarriesClosed ∧ right.CarriesClosed ∧
      ReferencesAgree (left.chainedReferences ++ right.chainedReferences)
        (left.referencesWithin ++ right.referencesWithin) ∧
      left.expand.nameless ≠ right.expand.nameless ∧ left.alphaEq right = true ∧
      left.alphaEq right = right.alphaEq left := by
  intro left right
  have leftCarries : left.CarriesClosed :=
    ⟨fun name => by simp [occursFree], fun name => by simp [occursFree], trivial⟩
  have rightCarries : right.CarriesClosed := by
    refine ⟨fun name => ?_, trivial⟩
    by_cases same : "x" = name <;> simp [occursFree, same]
  have agree : ReferencesAgree (left.chainedReferences ++ right.chainedReferences)
      (left.referencesWithin ++ right.referencesWithin) := by decide
  exact ⟨leftCarries, rightCarries, agree, by decide, by decide,
    alphaEq_comm_of_chains_agree leftCarries rightCarries agree⟩

/-- A reference that carries an outdated one is equal to the current one, but not the other way
round: the name of the outdated one is met only from the side that leads to it. -/
theorem alphaEq_outdated_chain :
    let left := ref "A" (ref "B" (lam "x" (var "x")))
    let right := ref "B" (lam "x" (lam "y" (var "x")))
    left.CarriesClosed ∧ right.CarriesClosed ∧ left.alphaEq right = true ∧
      right.alphaEq left = false := by
  -- Both comparisons are computed; no reference carries a free variable.
  intro left right
  have leftCarries : left.CarriesClosed :=
    ⟨fun _ => rfl, fun name => by simp [occursFree], trivial⟩
  have rightCarries : right.CarriesClosed := by
    refine ⟨fun name => ?_, trivial⟩
    by_cases same : "x" = name <;> simp [occursFree, same]
  exact ⟨leftCarries, rightCarries, by decide, by decide⟩

end NamedLambda.Term
