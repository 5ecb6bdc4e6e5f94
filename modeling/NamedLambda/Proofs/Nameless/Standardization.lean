import NamedLambda.Proofs.Nameless.Beta

/-! Reductions can be put into the order from left to right, which finds every normal form. -/

namespace NamedLambda.Nameless

open Relation (ReflTransGen)

/-- The application at the head of a term is carried out. -/
inductive Head : Nameless → Nameless → Prop where
  /-- The head is the abstraction that the whole term applies. -/
  | contract (body arg : Nameless) : Head (app (lam body) arg) (body.applyTo arg)
  /-- The head is that of the function. -/
  | func {func reduced : Nameless} (arg : Nameless) (inside : Head func reduced) :
    Head (app func arg) (app reduced arg)

/-- Any number of reductions at the head. -/
abbrev Heads : Nameless → Nameless → Prop :=
  ReflTransGen Head

/-- Reductions at the head of a function are made at the head of the application. -/
theorem Heads.app {func reduced : Nameless} (inFunc : Heads func reduced) (arg : Nameless) :
    Heads (app func arg) (app reduced arg) :=
  -- Each of them is one at the head.
  ReflTransGen.lift (Nameless.app · arg) (fun _ _ => Head.func arg) _ _ inFunc

/-- Moved distances do not hinder a reduction at the head. -/
theorem Head.reindex {term reduced : Nameless} (step : Head term reduced) (move : Nat → Nat) :
    Head (term.reindex move) (reduced.reindex move) := by
  -- The head is in the same place after the move.
  induction step with
  | contract body arg =>
    rw [reindex_applyTo]
    exact .contract _ _
  | func arg inside ih => exact .func _ ih

/-- Values for distances do not hinder a reduction at the head. -/
theorem Head.instantiate {term reduced : Nameless} (step : Head term reduced)
    (values : Nat → Nameless) : Head (term.instantiate values) (reduced.instantiate values) := by
  -- The abstraction at the head stays one, whatever its distances stand for.
  induction step with
  | contract body arg =>
    rw [instantiate_applyTo]
    exact .contract _ _
  | func arg inside ih => exact .func _ ih

/-- A term is reduced at its head first, and its parts are then reduced in the same way. -/
inductive Standard : Nameless → Nameless → Prop where
  /-- All reductions are at the head. -/
  | head {term reached : Nameless} (heads : Heads term reached) : Standard term reached
  /-- The head reductions end at an abstraction, whose body is reduced next. -/
  | lam {term body reduced : Nameless} (heads : Heads term (lam body))
    (inBody : Standard body reduced) : Standard term (lam reduced)
  /-- The head reductions end at an application, whose parts are reduced next. -/
  | app {term func arg funcReduced argReduced : Nameless} (heads : Heads term (app func arg))
    (inFunc : Standard func funcReduced) (inArg : Standard arg argReduced) :
    Standard term (app funcReduced argReduced)

namespace Standard

/-- A term reaches itself without a reduction. -/
theorem refl (term : Nameless) : Standard term term :=
  -- There is nothing to do at the head or in the parts.
  .head .refl

/-- Reductions at the head may always come first. -/
theorem after {term middle reached : Nameless} (heads : Heads term middle)
    (standard : Standard middle reached) : Standard term reached := by
  -- They join those at the head that came first before.
  cases standard with
  | head later => exact .head (heads.trans later)
  | lam later inBody => exact .lam (heads.trans later) inBody
  | app later inFunc inArg => exact .app (heads.trans later) inFunc inArg

/-- An abstraction that is reached was one when the reductions at the head ended. -/
theorem lam_inv {term reduced : Nameless} (standard : Standard term (.lam reduced)) :
    ∃ body, Heads term (.lam body) ∧ Standard body reduced := by
  -- Where all reductions are at the head none is left for the body.
  cases standard with
  | head heads => exact ⟨reduced, heads, refl reduced⟩
  | lam heads inBody => exact ⟨_, heads, inBody⟩

/-- An application that is reached was one when the reductions at the head ended, or earlier. -/
theorem app_inv {term funcReduced argReduced : Nameless}
    (standard : Standard term (.app funcReduced argReduced)) :
    ∃ func arg, Heads term (.app func arg) ∧ Standard func funcReduced ∧
      Standard arg argReduced := by
  -- Where all reductions are at the head none is left for the parts.
  cases standard with
  | head heads => exact ⟨funcReduced, argReduced, heads, refl _, refl _⟩
  | app heads inFunc inArg => exact ⟨_, _, heads, inFunc, inArg⟩

/-- Moved distances do not hinder reductions from left to right. -/
theorem reindex {term reached : Nameless} (standard : Standard term reached)
    (move : Nat → Nat) : Standard (term.reindex move) (reached.reindex move) := by
  -- Each of the reductions is made at the same place.
  have moved {start middle : Nameless} (heads : Heads start middle) (move : Nat → Nat) :
      Heads (start.reindex move) (middle.reindex move) :=
    ReflTransGen.lift (Nameless.reindex · move) (fun _ _ step => step.reindex move) _ _ heads
  induction standard generalizing move with
  | head heads => exact .head (moved heads move)
  | lam heads inBody ih => exact .lam (moved heads move) (ih _)
  | app heads inFunc inArg funcIh argIh => exact .app (moved heads move) (funcIh move) (argIh move)

/-- Values that are reduced from left to right are so below one more binder as well. -/
theorem liftValues {values reached : Nat → Nameless}
    (each : ∀ distance, Standard (values distance) (reached distance)) (distance : Nat) :
    Standard (Nameless.liftValues values distance) (Nameless.liftValues reached distance) := by
  -- The nearest distance keeps its variable, and the other values are moved.
  cases distance with
  | zero => exact refl _
  | succ distance => exact (each distance).reindex Nat.succ

/-- The values of distances can be reduced in their places. -/
theorem instantiate_values (term : Nameless) {values reached : Nat → Nameless}
    (each : ∀ distance, Standard (values distance) (reached distance)) :
    Standard (term.instantiate values) (term.instantiate reached) := by
  -- Nothing is to be done at the head of the term, and the rest is in its parts.
  induction term generalizing values reached with
  | bound distance => exact each distance
  | free name => exact refl _
  | lam body ih => exact .lam .refl (ih (liftValues each))
  | app func arg funcIh argIh => exact .app .refl (funcIh each) (argIh each)
  | ref name resolved => exact refl _

/-- A term can be reduced with values for its distances, and the values in their places. -/
theorem instantiate {term reached : Nameless} (standard : Standard term reached)
    {values valuesReached : Nat → Nameless}
    (each : ∀ distance, Standard (values distance) (valuesReached distance)) :
    Standard (term.instantiate values) (reached.instantiate valuesReached) := by
  -- Where the reductions of the term end, those of the values begin.
  have given {start middle : Nameless} (heads : Heads start middle) (values : Nat → Nameless) :
      Heads (start.instantiate values) (middle.instantiate values) :=
    ReflTransGen.lift (Nameless.instantiate · values) (fun _ _ step => step.instantiate values)
      _ _ heads
  induction standard generalizing values valuesReached with
  | head heads => exact after (given heads values) (instantiate_values _ each)
  | lam heads inBody ih => exact .lam (given heads values) (ih (liftValues each))
  | app heads inFunc inArg funcIh argIh =>
    exact .app (given heads values) (funcIh each) (argIh each)

/-- A body and its argument can be reduced after the argument has taken its place. -/
theorem applyTo {body bodyReached arg argReached : Nameless}
    (inBody : Standard body bodyReached) (inArg : Standard arg argReached) :
    Standard (body.applyTo arg) (bodyReached.applyTo argReached) := by
  -- The argument is reduced in the place of the nearest distance.
  refine inBody.instantiate ?_
  intro distance
  cases distance with
  | zero => exact inArg
  | succ distance => exact refl _

/-- One more reduction, wherever it is, can be put into its place from left to right. -/
theorem tail {term reached reduced : Nameless} (standard : Standard term reached)
    (step : Beta reached reduced) : Standard term reduced := by
  -- The induction is on where the step is, so that the parts before it are in order already.
  induction step generalizing term with
  | contract body arg =>
    obtain ⟨func, start, heads, inFunc, inArg⟩ := standard.app_inv
    obtain ⟨inner, funcHeads, inBody⟩ := inFunc.lam_inv
    -- What was done before the abstraction was applied is done again behind that.
    have applied : Heads term (inner.applyTo start) :=
      (heads.trans (funcHeads.app start)).tail (.contract inner start)
    exact after applied (inBody.applyTo inArg)
  -- A step further inside goes into the part that it is made in.
  | lam inside ih =>
    obtain ⟨body, heads, inBody⟩ := standard.lam_inv
    exact .lam heads (ih inBody)
  | func arg inside ih =>
    obtain ⟨func, start, heads, inFunc, inArg⟩ := standard.app_inv
    exact .app heads (ih inFunc) inArg
  | arg func inside ih =>
    obtain ⟨start, arg, heads, inFunc, inArg⟩ := standard.app_inv
    exact .app heads inFunc (ih inArg)

end Standard

/-- Whatever a term reduces to is reached from left to right as well. -/
theorem Reduces.standard {term reached : Nameless} (reduces : Reduces term reached) :
    Standard term reached := by
  -- Each reduction is put into its place among those before it.
  induction reduces with
  | refl => exact .refl _
  | tail _ step ih => exact ih.tail step

/-- The leftmost of the outermost applications of abstractions is carried out. -/
inductive Leftmost : Nameless → Nameless → Prop where
  /-- The whole term applies an abstraction. -/
  | contract (body arg : Nameless) : Leftmost (app (lam body) arg) (body.applyTo arg)
  /-- The leftmost one in the body of an abstraction. -/
  | lam {body reduced : Nameless} (inside : Leftmost body reduced) :
    Leftmost (lam body) (lam reduced)
  /-- The leftmost one in the function of an application. -/
  | func {func reduced : Nameless} (arg : Nameless) (noLam : ∀ body, func ≠ lam body)
    (inside : Leftmost func reduced) : Leftmost (app func arg) (app reduced arg)
  /-- The leftmost one in the argument, with none in the function. -/
  | arg {func arg reduced : Nameless} (noLam : ∀ body, func ≠ lam body) (funcNormal : Normal func)
    (inside : Leftmost arg reduced) : Leftmost (app func arg) (app func reduced)

namespace Leftmost

/-- The leftmost reduction is a reduction. -/
theorem beta {term reduced : Nameless} (step : Leftmost term reduced) : Beta term reduced := by
  -- It is made in the same place.
  induction step with
  | contract body arg => exact .contract body arg
  | lam inside ih => exact .lam ih
  | func arg noLam inside ih => exact .func arg ih
  | arg noLam funcNormal inside ih => exact .arg _ ih

/-- A reduction at the head is the leftmost one. -/
theorem of_head {term reduced : Nameless} (step : Head term reduced) :
    Leftmost term reduced := by
  -- A function that can be reduced at its head is no abstraction.
  induction step with
  | contract body arg => exact .contract body arg
  | func arg inside ih =>
    refine .func arg ?_ ih
    rintro body rfl
    cases inside

/-- Reductions at the head are leftmost reductions. -/
theorem of_heads {term reached : Nameless} (heads : Heads term reached) :
    ReflTransGen Leftmost term reached :=
  -- Each of them is the leftmost one.
  ReflTransGen.mono (fun _ _ => of_head) _ _ heads

/-- There is one leftmost reduction at most. -/
theorem unique {term left right : Nameless} (toLeft : Leftmost term left)
    (toRight : Leftmost term right) : left = right := by
  -- A reduction further right needs what is left of it to be normal.
  induction toLeft generalizing right with
  | contract body arg =>
    -- An abstraction that is applied leaves no leftmost reduction in the parts.
    cases toRight with
    | contract => rfl
    | func _ noLam => exact absurd rfl (noLam body)
    | arg noLam => exact absurd rfl (noLam body)
  | lam inside ih =>
    cases toRight with
    | lam other => rw [ih other]
  | func arg noLam inside ih =>
    cases toRight with
    | contract body => exact absurd rfl (noLam body)
    | func _ _ other => rw [ih other]
    | arg _ funcNormal => exact absurd inside.beta (funcNormal _)
  | arg noLam funcNormal inside ih =>
    cases toRight with
    | contract body => exact absurd rfl (noLam body)
    | func _ _ other => exact absurd other.beta (funcNormal _)
    | arg _ _ other => rw [ih other]

/-- An abstraction stays one. -/
theorem lam_reaches {body reached : Nameless} (steps : ReflTransGen Leftmost (.lam body) reached) :
    ∃ reduced, reached = .lam reduced := by
  -- All leftmost reductions of an abstraction are made in its body.
  induction steps with
  | refl => exact ⟨body, rfl⟩
  | tail _ step ih =>
    obtain ⟨inner, rfl⟩ := ih
    cases step with
    | lam inside => exact ⟨_, rfl⟩

/-- Until the function has become an abstraction, the leftmost reductions are those in it. -/
theorem func_reaches {func reached : Nameless} (steps : ReflTransGen Leftmost func reached)
    (noLam : ∀ body, reached ≠ .lam body) (arg : Nameless) :
    ReflTransGen Leftmost (.app func arg) (.app reached arg) := by
  -- An abstraction on the way would still be one at the end.
  induction steps using ReflTransGen.head_induction_on with
  | refl => exact .refl
  | @head start next step rest ih =>
    refine ih.head (.func arg ?_ step)
    rintro body rfl
    obtain ⟨reduced, same⟩ := lam_reaches (rest.head step)
    exact noLam reduced same

end Leftmost

/-- Reductions from left to right that end at a normal form are all leftmost. -/
theorem Standard.leftmost {term reached : Nameless} (standard : Standard term reached)
    (normal : Normal reached) : ReflTransGen Leftmost term reached := by
  -- The parts of a normal form are normal, so every part of the reduction ends at one.
  induction standard with
  | head heads => exact Leftmost.of_heads heads
  | lam heads inBody ih =>
    have body := ih (normal_lam_iff.mp normal)
    exact (Leftmost.of_heads heads).trans
      (ReflTransGen.lift Nameless.lam (fun _ _ => Leftmost.lam) _ _ body)
  | @app term func arg funcReduced argReduced heads inFunc inArg funcIh argIh =>
    obtain ⟨noLam, funcNormal, argNormal⟩ := normal_app_iff.mp normal
    -- The argument has its turn when nothing is left to do in the function.
    have later : ReflTransGen Leftmost (.app funcReduced arg) (.app funcReduced argReduced) :=
      ReflTransGen.lift (Nameless.app funcReduced) (fun _ _ => Leftmost.arg noLam funcNormal) _ _
        (argIh argNormal)
    have inFunc := Leftmost.func_reaches (funcIh funcNormal) noLam arg
    exact ((Leftmost.of_heads heads).trans inFunc).trans later

/-- Leftmost reductions find the normal form of every term that has one. -/
theorem Reduces.leftmost {term normalForm : Nameless} (reduces : Reduces term normalForm)
    (normal : Normal normalForm) : ReflTransGen Leftmost term normalForm :=
  -- They can be put in order, and in order they are leftmost.
  reduces.standard.leftmost normal

end NamedLambda.Nameless
