import NamedLambda.Proofs.Reduction.Decomposition
import NamedLambda.Proofs.Reduction.Traversal
import NamedLambda.Proofs.Term.Position

/-! A step contracts the redex that its strategy locates and leaves the rest of the term alone. -/

namespace NamedLambda

namespace Term

variable {path : Path} {term next : Term}

/-- That terms have the same nodes but at a path and inside. -/
structure AgreeOutside (path : Path) (left right : Term) : Prop where
  /-- Every other node is the same, those that the path passes through included. -/
  nodes : ∀ other, ¬path <+: other → (left.at? other).map node = (right.at? other).map node
  /-- Every part beside the path is the same. -/
  parts : ∀ other, ¬path <+: other → ¬other <+: path → left.at? other = right.at? other

namespace ContractsAt

/-- At the path a redex has given way. -/
theorem exists_redex (contracts : ContractsAt path term next) :
    ∃ redex result, term.at? path = some redex ∧ next.at? path = some result ∧
      redex.ContractsTo result := by
  -- The path leads to the same place before and after.
  induction contracts with
  | here contracts => exact ⟨_, _, rfl, rfl, contracts⟩
  | func arg inside ih => exact ih
  | arg func inside ih => exact ih
  | body binder inside ih => exact ih

/-- No node has changed but at the path and inside. -/
theorem node_eq (contracts : ContractsAt path term next) {other : Path}
    (outside : ¬path <+: other) : (next.at? other).map node = (term.at? other).map node := by
  -- A branch of the path keeps the node above it and the part beside it.
  induction contracts generalizing other with
  | here contracts => exact absurd List.nil_prefix outside
  | func arg inside ih =>
    match other with
    | [] | .arg :: _ | .body :: _ => rfl
    | .func :: further => exact ih (mt (List.prefix_cons_inj _).mpr outside)
  | arg func inside ih =>
    match other with
    | [] | .func :: _ | .body :: _ => rfl
    | .arg :: further => exact ih (mt (List.prefix_cons_inj _).mpr outside)
  | body binder inside ih =>
    match other with
    | [] | .func :: _ | .arg :: _ => rfl
    | .body :: further => exact ih (mt (List.prefix_cons_inj _).mpr outside)

/-- Nothing has changed but at the path and inside. -/
theorem agreeOutside (contracts : ContractsAt path term next) : AgreeOutside path next term := by
  refine ⟨fun other => contracts.node_eq, fun other outside apart => ?_⟩
  -- All nodes of a part beside the path stand outside of it.
  refine at?_eq_of_nodes fun rest => contracts.node_eq fun inside => ?_
  rcases List.prefix_or_prefix_of_prefix inside (List.prefix_append other rest) with below | above
  · exact outside below
  · exact apart above

end ContractsAt

end Term

namespace Strategy

open Term

variable {strategy : Strategy} {term next : Term} {path : Path}

/-- Every strategy locates redexes. -/
theorem locate_leadsToRedex (found : strategy.locate term = some path) :
    term.LeadsToRedex path := by
  -- What each of the searches finds has been described, as a redex among others.
  cases strategy with
  | callByValue => exact (((Passing.searches .byValue term).found path).mp found).leadsToRedex
  | callByName => exact (((Passing.searches .byName term).found path).mp found).leadsToRedex
  | applicative => exact ((locateApplicative_finds term).first path found).1
  | normal => exact ((locateNormal_finds term).first path found).1

/-- A step contracts the redex that is located. -/
theorem step?_eq_some_iff :
    strategy.step? term = some next ↔
      ∃ path, strategy.locate term = some path ∧ ContractsAt path term next := by
  -- The path is located first, and then the contraction is made there.
  simp [step?, Option.bind_eq_some_iff, contractAt?_eq_some_iff]

/-- A redex that is located is contracted. -/
theorem exists_of_locate (located : strategy.locate term = some path) :
    ∃ next, strategy.step? term = some next ∧ ContractsAt path term next := by
  -- Search and contraction go by the same redexes.
  obtain ⟨next, contracted⟩ :=
    Option.isSome_iff_exists.mp (contractAt?_isSome (locate_leadsToRedex located))
  have contracts := contractAt?_eq_some_iff.mp contracted
  exact ⟨next, step?_eq_some_iff.mpr ⟨path, located, contracts⟩, contracts⟩

/-- A term does not step exactly when it is a value. -/
theorem step?_eq_none_iff : strategy.step? term = none ↔ strategy.isValue term := by
  -- A path that is located can be followed to a redex, so the contraction there does not fail.
  rw [isValue, Option.isNone_iff_eq_none]
  cases located : strategy.locate term with
  | none => simp [step?, located]
  | some path =>
    obtain ⟨next, stepped, -⟩ := exists_of_locate located
    simp [stepped]

/-- A strategy steps exactly when it locates a path, which leads to a redex then; in the step this
redex gives way, and nothing else of the term changes. -/
theorem step?_rewrites (strategy : Strategy) (term : Term) :
    ((strategy.step? term).isSome ↔ (strategy.locate term).isSome) ∧
      ∀ path, strategy.locate term = some path →
        ∃ redex result next, term.at? path = some redex ∧ redex.isRedex ∧
          strategy.step? term = some next ∧ next.at? path = some result ∧
          redex.ContractsTo result ∧ AgreeOutside path next term := by
  refine ⟨?_, ?_⟩
  · -- A term steps unless it is a value, in which nothing is located.
    rw [Option.isSome_iff_ne_none, Option.isSome_iff_ne_none, ne_eq, step?_eq_none_iff, isValue,
      Option.isNone_iff_eq_none]
  · intro path located
    obtain ⟨redex, found, redexes⟩ := locate_leadsToRedex located
    obtain ⟨next, stepped, contracts⟩ := exists_of_locate located
    -- What gave way at the path is the redex that was located there.
    obtain ⟨other, result, same, placed, gives⟩ := contracts.exists_redex
    obtain rfl := Option.some.inj (same.symm.trans found)
    exact ⟨other, result, next, found, redexes, stepped, placed, gives, contracts.agreeOutside⟩

end Strategy

end NamedLambda
