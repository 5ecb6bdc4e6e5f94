import NamedLambda.Proofs.Nameless.Beta

/-! Reduction is confluent, as everything that one round of reductions leads to is joined by the
complete development of the term. -/

namespace NamedLambda.Nameless

open Relation (ReflTransGen)

/-- Some of the applications of abstractions that a term shows are carried out at once. -/
inductive Parallel : Nameless → Nameless → Prop where
  /-- Bound variables stay. -/
  | bound (distance : Nat) : Parallel (bound distance) (bound distance)
  /-- Free variables stay. -/
  | free (name : Name) : Parallel (free name) (free name)
  /-- References stay. -/
  | ref (name : Name) (resolved : Term) : Parallel (ref name resolved) (ref name resolved)
  /-- Reductions in the body of an abstraction. -/
  | lam {body reduced : Nameless} (inside : Parallel body reduced) :
    Parallel (lam body) (lam reduced)
  /-- Reductions in both parts of an application. -/
  | app {func arg funcReduced argReduced : Nameless} (inFunc : Parallel func funcReduced)
    (inArg : Parallel arg argReduced) : Parallel (app func arg) (app funcReduced argReduced)
  /-- Reductions in both parts, after which the argument takes its place. -/
  | contract {body arg bodyReduced argReduced : Nameless} (inBody : Parallel body bodyReduced)
    (inArg : Parallel arg argReduced) :
    Parallel (app (lam body) arg) (bodyReduced.applyTo argReduced)

namespace Parallel

/-- Nothing may be carried out at all. -/
theorem refl (term : Nameless) : Parallel term term := by
  -- Every constructor has a rule that keeps it.
  induction term with
  | bound distance => exact .bound distance
  | free name => exact .free name
  | lam body ih => exact .lam ih
  | app func arg funcIh argIh => exact .app funcIh argIh
  | ref name resolved => exact .ref name resolved

/-- One reduction is one that is carried out at once with no others. -/
theorem of_beta {term reduced : Nameless} (step : Beta term reduced) : Parallel term reduced := by
  -- Beside it nothing else is reduced.
  induction step with
  | contract body arg => exact .contract (refl body) (refl arg)
  | lam inside ih => exact .lam ih
  | func arg inside ih => exact .app ih (refl arg)
  | arg func inside ih => exact .app (refl func) ih

/-- What is carried out at once can be carried out one by one. -/
theorem reduces {term reduced : Nameless} (parallel : Parallel term reduced) :
    Reduces term reduced := by
  -- The parts come first, so that an application is carried out on what they reduce to.
  induction parallel with
  | bound distance => exact .refl
  | free name => exact .refl
  | ref name resolved => exact .refl
  | lam inside ih => exact ih.lam
  | app inFunc inArg funcIh argIh => exact funcIh.app argIh
  | contract inBody inArg bodyIh argIh => exact (bodyIh.lam.app argIh).tail (.contract _ _)

/-- Moved distances do not hinder reductions. -/
theorem reindex {term reduced : Nameless} (parallel : Parallel term reduced)
    (move : Nat → Nat) : Parallel (term.reindex move) (reduced.reindex move) := by
  -- The moves go into all parts, and below a binder they are lifted.
  induction parallel generalizing move with
  | bound distance => exact .bound (move distance)
  | free name => exact .free name
  | ref name resolved => exact .ref name resolved
  | lam inside ih => exact .lam (ih _)
  | app inFunc inArg funcIh argIh => exact .app (funcIh move) (argIh move)
  | contract inBody inArg bodyIh argIh =>
    rw [reindex_applyTo]
    exact .contract (bodyIh _) (argIh move)

/-- Values that reduce do so below one more binder as well. -/
theorem liftValues {values reduced : Nat → Nameless}
    (each : ∀ distance, Parallel (values distance) (reduced distance)) (distance : Nat) :
    Parallel (Nameless.liftValues values distance) (Nameless.liftValues reduced distance) := by
  -- The nearest distance keeps its variable, and the other values are moved.
  cases distance with
  | zero => exact .bound 0
  | succ distance => exact (each distance).reindex Nat.succ

/-- A term and the values of its distances can reduce together. -/
theorem instantiate {term reduced : Nameless} (parallel : Parallel term reduced)
    {values valuesReduced : Nat → Nameless}
    (each : ∀ distance, Parallel (values distance) (valuesReduced distance)) :
    Parallel (term.instantiate values) (reduced.instantiate valuesReduced) := by
  -- Below a binder the values are moved, which does not hinder them either.
  induction parallel generalizing values valuesReduced with
  | bound distance => exact each distance
  | free name => exact .free name
  | ref name resolved => exact .ref name resolved
  | lam inside ih => exact .lam (ih (liftValues each))
  | app inFunc inArg funcIh argIh => exact .app (funcIh each) (argIh each)
  | contract inBody inArg bodyIh argIh =>
    -- Instantiating a contracted application contracts the instance.
    rw [instantiate_applyTo]
    exact .contract (bodyIh (liftValues each)) (argIh each)

/-- A body and its argument can reduce together. -/
theorem applyTo {body bodyReduced arg argReduced : Nameless} (inBody : Parallel body bodyReduced)
    (inArg : Parallel arg argReduced) :
    Parallel (body.applyTo arg) (bodyReduced.applyTo argReduced) := by
  -- The argument reduces in the place of the nearest distance, and the others stand for themselves.
  refine inBody.instantiate ?_
  intro distance
  cases distance with
  | zero => exact inArg
  | succ distance => exact .bound distance

end Parallel

/-- The term with every application of an abstraction that it shows carried out. -/
def develop : Nameless → Nameless
  | bound distance => bound distance
  | free name => free name
  | lam body => lam body.develop
  | app (lam body) arg => body.develop.applyTo arg.develop
  | app func arg => app func.develop arg.develop
  | ref name resolved => ref name resolved

/-- Whatever was carried out at once, the rest can be carried out at once as well. -/
theorem Parallel.develop {term reduced : Nameless} (parallel : Parallel term reduced) :
    Parallel reduced term.develop := by
  -- The development carries out everything, so it carries out what is left.
  induction parallel with
  | bound distance => exact .bound distance
  | free name => exact .free name
  | ref name resolved => exact .ref name resolved
  | lam inside ih => exact .lam ih
  | contract inBody inArg bodyIh argIh => exact bodyIh.applyTo argIh
  | app inFunc inArg funcIh argIh =>
    -- Only a function that was an abstraction before leaves an application to carry out.
    cases inFunc with
    | lam inside =>
      cases funcIh with
      | lam rest => exact .contract rest argIh
    | bound distance => exact .app funcIh argIh
    | free name => exact .app funcIh argIh
    | ref name resolved => exact .app funcIh argIh
    | app inFunc inArg => exact .app funcIh argIh
    | contract inBody inArg => exact .app funcIh argIh

/-- Two ways to reduce a term can be brought together again. -/
theorem Reduces.join {term left right : Nameless} (toLeft : Reduces term left)
    (toRight : Reduces term right) : ∃ common, Reduces left common ∧ Reduces right common := by
  -- The complete development closes the diamond for reductions at once, which are as many
  -- reductions one by one.
  have rounds {start reached : Nameless} (reduces : Reduces start reached) :
      ReflTransGen Parallel start reached :=
    ReflTransGen.mono (fun _ _ => Parallel.of_beta) _ _ reduces
  have singles {start reached : Nameless} (parallel : ReflTransGen Parallel start reached) :
      Reduces start reached :=
    Relation.reflTransGen_closed (fun _ _ => Parallel.reduces) _ _ parallel
  have diamond : ∀ start one other, Parallel start one → Parallel start other →
      ∃ common, Relation.ReflGen Parallel one common ∧ ReflTransGen Parallel other common := by
    intro start one other toOne toOther
    exact ⟨start.develop, .single toOne.develop, .single toOther.develop⟩
  obtain ⟨common, fromLeft, fromRight⟩ :=
    Relation.church_rosser diamond (rounds toLeft) (rounds toRight)
  exact ⟨common, singles fromLeft, singles fromRight⟩

/-- A normal form that a term reduces to is reached from all it reduces to. -/
theorem Reduces.to_normal {term reduced normalForm : Nameless} (reduces : Reduces term reduced)
    (finds : Reduces term normalForm) (normal : Normal normalForm) :
    Reduces reduced normalForm := by
  -- What joins the two can only be the normal form itself.
  obtain ⟨common, fromReduced, fromNormal⟩ := reduces.join finds
  rwa [normal.eq_of_reduces fromNormal] at fromReduced

/-- A term has one normal form at most. -/
theorem normalForm_unique {term left right : Nameless} (toLeft : Reduces term left)
    (toRight : Reduces term right) (leftNormal : Normal left) (rightNormal : Normal right) :
    left = right :=
  -- Either one is reached from the other, where nothing is left to reduce.
  rightNormal.eq_of_reduces (toRight.to_normal toLeft leftNormal)

end NamedLambda.Nameless
