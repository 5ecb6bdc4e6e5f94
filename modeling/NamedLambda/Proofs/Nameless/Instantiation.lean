import NamedLambda.Proofs.Term.Nameless

/-! The distances that point out of a nameless term can be moved, or given values all at once. -/

namespace NamedLambda.Nameless

/-- A move of distances below one more binder, which keeps its own distance. -/
def liftMove (move : Nat → Nat) : Nat → Nat
  | 0 => 0
  | distance + 1 => move distance + 1

/-- The term with the distances that point out of it moved. -/
def reindex (term : Nameless) (move : Nat → Nat) : Nameless :=
  match term with
  | bound distance => bound (move distance)
  | free name => free name
  | lam body => lam (body.reindex (liftMove move))
  | app func arg => app (func.reindex move) (arg.reindex move)
  | ref name resolved => ref name resolved

/-- The values of distances below one more binder, whose variable stays as it is. -/
def liftValues (values : Nat → Nameless) : Nat → Nameless
  | 0 => bound 0
  -- A value that goes below the binder has to point past it.
  | distance + 1 => (values distance).reindex Nat.succ

/-- The term with values in place of the distances that point out of it. -/
def instantiate (term : Nameless) (values : Nat → Nameless) : Nameless :=
  match term with
  | bound distance => values distance
  | free name => free name
  | lam body => lam (body.instantiate (liftValues values))
  | app func arg => app (func.instantiate values) (arg.instantiate values)
  | ref name resolved => ref name resolved

/-- A value for the nearest distance, while all others come one binder nearer. -/
def nearest (value : Nameless) : Nat → Nameless
  | 0 => value
  | distance + 1 => bound distance

/-- The body of an abstraction with the argument in place of the variable bound. -/
def applyTo (body arg : Nameless) : Nameless :=
  body.instantiate (nearest arg)

/-- Moves made one after the other are lifted as one. -/
theorem liftMove_comp (first second : Nat → Nat) :
    liftMove second ∘ liftMove first = liftMove (second ∘ first) := by
  -- The nearest distance stays under both, and the others are moved twice.
  funext distance
  cases distance with
  | zero => rfl
  | succ distance => rfl

/-- Two moves of the distances are one. -/
theorem reindex_reindex (term : Nameless) (first second : Nat → Nat) :
    (term.reindex first).reindex second = term.reindex (second ∘ first) := by
  -- Below a binder both moves are lifted, which is to lift them as one.
  induction term generalizing first second with
  | bound distance => rfl
  | free name => rfl
  | lam body ih => rw [reindex, reindex, reindex, ih, liftMove_comp]
  | app func arg funcIh argIh => rw [reindex, reindex, reindex, funcIh, argIh]
  | ref name resolved => rfl

/-- Values looked up behind a move are lifted together with it. -/
theorem liftValues_comp_liftMove (move : Nat → Nat) (values : Nat → Nameless) :
    liftValues values ∘ liftMove move = liftValues (values ∘ move) := by
  -- The nearest distance has its own variable either way.
  funext distance
  cases distance with
  | zero => rfl
  | succ distance => rfl

/-- A distance that was moved takes the value of the place it was moved to. -/
theorem instantiate_reindex (term : Nameless) (move : Nat → Nat) (values : Nat → Nameless) :
    (term.reindex move).instantiate values = term.instantiate (values ∘ move) := by
  -- Below a binder the values are looked up behind the lifted move.
  induction term generalizing move values with
  | bound distance => rfl
  | free name => rfl
  | lam body ih => rw [reindex, instantiate, instantiate, ih, liftValues_comp_liftMove]
  | app func arg funcIh argIh => rw [reindex, instantiate, instantiate, funcIh, argIh]
  | ref name resolved => rfl

/-- Lifted values are moved as the values are, and lifted behind it. -/
theorem reindex_liftMove_liftValues (values : Nat → Nameless) (move : Nat → Nat) :
    (fun distance => (liftValues values distance).reindex (liftMove move)) =
      liftValues (fun distance => (values distance).reindex move) := by
  -- The nearest distance stays in its place.
  funext distance
  cases distance with
  | zero => rfl
  | succ distance =>
    -- Pointing past the binder and moving the other distances do not meet.
    show ((values distance).reindex Nat.succ).reindex (liftMove move) =
      ((values distance).reindex move).reindex Nat.succ
    rw [reindex_reindex, reindex_reindex]
    rfl

/-- Moving the distances of an instance moves those of the values. -/
theorem reindex_instantiate (term : Nameless) (values : Nat → Nameless) (move : Nat → Nat) :
    (term.instantiate values).reindex move =
      term.instantiate (fun distance => (values distance).reindex move) := by
  -- Below a binder the move spares the binder, as the values there do.
  induction term generalizing values move with
  | bound distance => rfl
  | free name => rfl
  | lam body ih =>
    rw [instantiate, reindex, instantiate, ih, reindex_liftMove_liftValues]
  | app func arg funcIh argIh => rw [instantiate, reindex, instantiate, funcIh, argIh]
  | ref name resolved => rfl

/-- An instance below one more binder is the moved instance, for a term that was moved there. -/
theorem instantiate_reindex_succ (term : Nameless) (values : Nat → Nameless) :
    (term.reindex Nat.succ).instantiate (liftValues values) =
      (term.instantiate values).reindex Nat.succ := by
  -- The moved term does not point to the new binder, and its values point past it.
  rw [instantiate_reindex, reindex_instantiate]
  rfl

/-- Lifted values take lifted values for their distances, as the values do. -/
theorem instantiate_liftValues (first second : Nat → Nameless) :
    (fun distance => (liftValues first distance).instantiate (liftValues second)) =
      liftValues (fun distance => (first distance).instantiate second) := by
  -- The nearest distance is left alone twice.
  funext distance
  cases distance with
  | zero => rfl
  | succ distance => exact instantiate_reindex_succ (first distance) second

/-- An instance of an instance gives its values to those of the first. -/
theorem instantiate_instantiate (term : Nameless) (first second : Nat → Nameless) :
    (term.instantiate first).instantiate second =
      term.instantiate (fun distance => (first distance).instantiate second) := by
  -- Values that went below a binder point past it, so the second instance meets them outside.
  induction term generalizing first second with
  | bound distance => rfl
  | free name => rfl
  | lam body ih =>
    rw [instantiate, instantiate, instantiate, ih, instantiate_liftValues]
  | app func arg funcIh argIh => rw [instantiate, instantiate, instantiate, funcIh, argIh]
  | ref name resolved => rfl

/-- Distances that stand for themselves do so below one more binder. -/
theorem liftValues_bound : liftValues bound = bound := by
  -- The nearest one is kept and the others are moved past it.
  funext distance
  cases distance with
  | zero => rfl
  | succ distance => rfl

/-- A term whose distances stand for themselves is its own instance. -/
theorem instantiate_bound (term : Nameless) : term.instantiate bound = term := by
  -- This holds below every binder as well.
  induction term with
  | bound distance => rfl
  | free name => rfl
  | lam body ih => rw [instantiate, liftValues_bound, ih]
  | app func arg funcIh argIh => rw [instantiate, funcIh, argIh]
  | ref name resolved => rfl

/-- Moving distances is giving them variables as values. -/
theorem reindex_eq_instantiate (term : Nameless) (move : Nat → Nat) :
    term.reindex move = term.instantiate (bound ∘ move) := by
  -- A moved distance stands for the variable at its new place.
  rw [← instantiate_reindex, instantiate_bound]

/-- A value for the nearest distance goes nowhere in a term that was moved past it. -/
theorem instantiate_nearest_reindex_succ (term value : Nameless) :
    (term.reindex Nat.succ).instantiate (nearest value) = term := by
  -- No distance is left that the value could take.
  rw [instantiate_reindex]
  exact instantiate_bound term

/-- A move of distances passes through an application of a body. -/
theorem reindex_applyTo (body arg : Nameless) (move : Nat → Nat) :
    (body.applyTo arg).reindex move =
      (body.reindex (liftMove move)).applyTo (arg.reindex move) := by
  -- The argument is moved where it stands, and the body spares the distance that
  -- the argument takes.
  rw [applyTo, applyTo, reindex_instantiate, instantiate_reindex]
  congr 1
  funext distance
  cases distance with
  | zero => rfl
  | succ distance => rfl

/-- Values for distances pass through an application of a body. -/
theorem instantiate_applyTo (body arg : Nameless) (values : Nat → Nameless) :
    (body.applyTo arg).instantiate values =
      (body.instantiate (liftValues values)).applyTo (arg.instantiate values) := by
  -- The body spares the distance that the argument takes, and the argument is instantiated
  -- in its place.
  rw [applyTo, applyTo, instantiate_instantiate, instantiate_instantiate]
  congr 1
  funext distance
  cases distance with
  | zero => rfl
  | succ distance =>
    -- The values outside the body do not point to the argument.
    exact (instantiate_nearest_reindex_succ _ _).symm

end NamedLambda.Nameless
