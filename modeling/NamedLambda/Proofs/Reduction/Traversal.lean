import NamedLambda.Proofs.Reduction.Redex
import NamedLambda.Proofs.Term.Traversal

/-! The strategies that go below abstractions contract the first redex of a walk through the term:
normal order meets every node before its parts, applicative order after them. -/

namespace NamedLambda

namespace Strategy

open Term

/-- Normal order looks for the first redex of a walk in pre-order. -/
theorem locateNormal_finds (term : Term) :
    Traversal.preorder.Finds term.LeadsToRedex (locateNormal term) := by
  -- The walk meets a node, then what is inside its parts from left to right.
  induction term with
  | var name => exact ⟨nofun, fun _ _ => not_leadsToRedex_var⟩
  | lam binder body ih => exact (ih.part .body).congr fun _ => leadsToRedex_lam_iff
  | ref name resolved ih =>
    -- The walk does not go on to what the reference carries.
    exact (Traversal.Finds.here .preorder true).congr fun _ => by simp [leadsToRedex_ref_iff]
  | app func arg funcIh argIh =>
    -- If the application itself is a redex it is answered, whatever is inside.
    have search : locateNormal (app func arg) =
        (if func.isAbstraction then some [] else none).or
          (((locateNormal func).map (.func :: ·)).or ((locateNormal arg).map (.arg :: ·))) := by
      cases applies : func.isAbstraction <;> simp [locateNormal, applies]
    rw [search]
    refine ((Traversal.Finds.here .preorder _).or (funcIh.parts argIh) ?_).congr
      fun _ => leadsToRedex_app_iff
    -- The application itself comes before all that is inside its parts.
    rintro - - ⟨rfl, -⟩ (⟨rest, rfl, -⟩ | ⟨rest, rfl, -⟩)
    · exact .outside .func rest
    · exact .outside .arg rest

/-- Applicative order looks for the first redex of a walk in post-order. -/
theorem locateApplicative_finds (term : Term) :
    Traversal.postorder.Finds term.LeadsToRedex (locateApplicative term) := by
  -- The walk meets what is inside the parts from left to right, then the node.
  induction term with
  | var name => exact ⟨nofun, fun _ _ => not_leadsToRedex_var⟩
  | lam binder body ih => exact (ih.part .body).congr fun _ => leadsToRedex_lam_iff
  | ref name resolved ih =>
    exact (Traversal.Finds.here .postorder true).congr fun _ => by simp [leadsToRedex_ref_iff]
  | app func arg funcIh argIh =>
    refine ((funcIh.parts argIh).or (Traversal.Finds.here .postorder _) ?_).congr
      fun _ => leadsToRedex_app_iff.trans or_comm
    -- The application itself comes after all that is inside its parts.
    rintro - - (⟨rest, rfl, -⟩ | ⟨rest, rfl, -⟩) ⟨rfl, -⟩
    · exact .inside .func rest
    · exact .inside .arg rest

/-- Normal order locates the first redex of a walk in pre-order and applicative order the first one
of a walk in post-order, and either of them locates nothing exactly if there is no redex. -/
theorem locate_eq_some_iff_first (term : Term) :
    (∀ path, normal.locate term = some path ↔
        Traversal.preorder.First term.LeadsToRedex path) ∧
      (∀ path, applicative.locate term = some path ↔
        Traversal.postorder.First term.LeadsToRedex path) ∧
      (normal.locate term = none ↔ ∀ path, ¬term.LeadsToRedex path) ∧
      (applicative.locate term = none ↔ ∀ path, ¬term.LeadsToRedex path) := by
  -- What a search finds first is all that is to be found first.
  have inPreorder := locateNormal_finds term
  have inPostorder := locateApplicative_finds term
  exact ⟨fun _ => inPreorder.eq_some_iff, fun _ => inPostorder.eq_some_iff, inPreorder.eq_none_iff,
    inPostorder.eq_none_iff⟩

/-- A redex with another one in its argument, and a reference on the way to that. -/
example :
    let term := lam "f" (app (lam "x" (var "x")) (app (ref "I" (lam "y" (var "y"))) (var "f")))
    normal.locate term = some [.body] ∧ applicative.locate term = some [.body, .arg, .func] := by
  decide

end Strategy

end NamedLambda
