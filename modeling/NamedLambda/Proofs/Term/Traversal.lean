import NamedLambda.Term.Position

/-! A walk through a term meets its nodes in an order, and a search may look for the first of some
positions in that order. -/

namespace NamedLambda

/-- A walk through all nodes of a term, which meets functions before their arguments. -/
inductive Traversal where
  /-- Every node is met before its parts. -/
  | preorder
  /-- Every node is met after its parts. -/
  | postorder
deriving DecidableEq, Repr

namespace Traversal

/-- That a walk meets one position before another. -/
inductive Before : Traversal → Path → Path → Prop where
  /-- In pre-order a node comes before all that is inside it. -/
  | outside (branch : Branch) (rest : Path) : Before preorder [] (branch :: rest)
  /-- In post-order all that is inside a node comes before it. -/
  | inside (branch : Branch) (rest : Path) : Before postorder (branch :: rest) []
  /-- All of a function comes before all of its argument. -/
  | sides (traversal : Traversal) (inFunc inArg : Path) :
    Before traversal (.func :: inFunc) (.arg :: inArg)
  /-- Positions in one part are met in the order they have there. -/
  | within {traversal : Traversal} {first second : Path} (branch : Branch)
    (before : Before traversal first second) :
    Before traversal (branch :: first) (branch :: second)

/-- That a walk meets a position before all others of some. -/
def First (traversal : Traversal) (among : Path → Prop) (path : Path) : Prop :=
  among path ∧ ∀ other, among other → other = path ∨ traversal.Before path other

/-- That an answer is the first of some positions, and that there are none without an answer. -/
structure Finds (traversal : Traversal) (among : Path → Prop) (answer : Option Path) : Prop where
  /-- The position that is answered is the first one. -/
  first : ∀ path, answer = some path → traversal.First among path
  /-- Without an answer there is no position. -/
  absent : answer = none → ∀ path, ¬among path

variable {traversal : Traversal}

/-- No two positions are each met before the other. -/
theorem Before.asymm {first second : Path} (before : traversal.Before first second) :
    ¬traversal.Before second first := by
  -- The order is decided at the branch where the positions part, and only one way round there.
  induction before with
  | outside branch rest => rintro ⟨⟩
  | inside branch rest => rintro ⟨⟩
  | sides traversal inFunc inArg => rintro ⟨⟩
  | within branch before ih =>
    intro back
    cases back with
    | within branch back => exact ih back

namespace First

variable {among first second : Path → Prop} {path : Path}

/-- At most one position is met first. -/
theorem unique {left right : Path} (leftFirst : traversal.First among left)
    (rightFirst : traversal.First among right) : left = right := by
  -- Of two different positions each would come before the other.
  rcases leftFirst.2 right rightFirst.1 with same | before
  · exact same.symm
  · rcases rightFirst.2 left leftFirst.1 with same | back
    · exact same
    · exact absurd back before.asymm

/-- Only which positions there are counts, not how they are described. -/
theorem congr (isFirst : traversal.First first path)
    (same : ∀ other, second other ↔ first other) : traversal.First second path := by
  have equal : second = first := funext fun other => propext (same other)
  rwa [equal]

/-- The first position of a part stays the first one of its part in the whole term. -/
theorem part (isFirst : traversal.First among path) (branch : Branch) :
    traversal.First (fun other => ∃ rest, other = branch :: rest ∧ among rest)
      (branch :: path) := by
  refine ⟨⟨path, rfl, isFirst.1⟩, ?_⟩
  -- The other positions are in the same part, and have the order they have there.
  rintro - ⟨other, rfl, holds⟩
  exact (isFirst.2 other holds).imp (congrArg (branch :: ·)) (.within branch)

/-- Further positions that come later leave the first one in its place. -/
theorem or_left (isFirst : traversal.First first path)
    (later : ∀ other, second other → traversal.Before path other) :
    traversal.First (fun other => first other ∨ second other) path := by
  -- Each position is one of the first kind, or comes later.
  refine ⟨.inl isFirst.1, ?_⟩
  rintro other (inFirst | inSecond)
  · exact isFirst.2 other inFirst
  · exact .inr (later other inSecond)

/-- Where there is nothing else, the first position is the first one of all. -/
theorem or_right (isFirst : traversal.First second path) (absent : ∀ other, ¬first other) :
    traversal.First (fun other => first other ∨ second other) path := by
  -- There is no position of the first kind.
  refine ⟨.inr isFirst.1, ?_⟩
  rintro other (inFirst | inSecond)
  · exact absurd inFirst (absent other)
  · exact isFirst.2 other inSecond

end First

namespace Finds

variable {among first second : Path → Prop} {answer firstAnswer secondAnswer : Option Path}

/-- A position is answered exactly if it is the first one. -/
theorem eq_some_iff (finds : traversal.Finds among answer) {path : Path} :
    answer = some path ↔ traversal.First among path := by
  -- Where there is a position there is an answer, and no two positions are the first.
  refine ⟨finds.first path, fun isFirst => ?_⟩
  cases found : answer with
  | none => exact absurd isFirst.1 (finds.absent found path)
  | some other => rw [(finds.first other found).unique isFirst]

/-- There is no answer exactly if there is no position. -/
theorem eq_none_iff (finds : traversal.Finds among answer) :
    answer = none ↔ ∀ path, ¬among path := by
  -- An answer would be a position.
  refine ⟨finds.absent, fun free => ?_⟩
  cases found : answer with
  | none => rfl
  | some path => exact absurd (finds.first path found).1 (free path)

/-- Only which positions there are counts, not how they are described. -/
theorem congr {other : Path → Prop} (finds : traversal.Finds among answer)
    (same : ∀ path, other path ↔ among path) : traversal.Finds other answer where
  first path found := (finds.first path found).congr same
  absent missing path holds := finds.absent missing path ((same path).mp holds)

/-- The node itself is answered where it is a position. -/
theorem here (traversal : Traversal) (holds : Bool) :
    traversal.Finds (fun path => path = [] ∧ holds) (if holds then some [] else none) := by
  -- There is no other position that could come before it.
  cases holds with
  | false => exact ⟨nofun, fun _ path => nofun⟩
  | true =>
    refine ⟨?_, nofun⟩
    rintro path ⟨⟩
    exact ⟨⟨rfl, rfl⟩, fun other both => .inl both.1⟩

/-- A search that goes on in a part finds the first position of the part. -/
theorem part (finds : traversal.Finds among answer) (branch : Branch) :
    traversal.Finds (fun path => ∃ rest, path = branch :: rest ∧ among rest)
      (answer.map (branch :: ·)) := by
  refine ⟨?_, ?_⟩
  · intro path found
    obtain ⟨rest, inside, rfl⟩ := Option.map_eq_some_iff.mp found
    exact (finds.first rest inside).part branch
  · rintro missing - ⟨rest, rfl, holds⟩
    exact finds.absent (Option.map_eq_none_iff.mp missing) rest holds

/-- One search after another finds the first position of both if what the walk meets first is
searched first. -/
theorem or (findsFirst : traversal.Finds first firstAnswer)
    (findsSecond : traversal.Finds second secondAnswer)
    (ordered : ∀ left right, first left → second right → traversal.Before left right) :
    traversal.Finds (fun path => first path ∨ second path) (firstAnswer.or secondAnswer) := by
  -- The first search decides where it finds anything, and else the second one does.
  refine ⟨?_, ?_⟩
  · intro path found
    rcases Option.or_eq_some_iff.mp found with found | ⟨missing, found⟩
    · -- What the first search finds comes before all that the second one could find.
      have isFirst := findsFirst.first path found
      exact isFirst.or_left fun other inSecond => ordered path other isFirst.1 inSecond
    · -- The second search has its turn only when there is nothing for the first one.
      exact (findsSecond.first path found).or_right (findsFirst.absent missing)
  · intro missing path either
    obtain ⟨missingFirst, missingSecond⟩ := Option.or_eq_none_iff.mp missing
    exact either.elim (findsFirst.absent missingFirst path) (findsSecond.absent missingSecond path)

/-- A search in the function, and then in the argument, goes the way of every walk. -/
theorem parts (findsFunc : traversal.Finds first firstAnswer)
    (findsArg : traversal.Finds second secondAnswer) :
    traversal.Finds
      (fun path => (∃ rest, path = .func :: rest ∧ first rest) ∨
        ∃ rest, path = .arg :: rest ∧ second rest)
      ((firstAnswer.map (.func :: ·)).or (secondAnswer.map (.arg :: ·))) := by
  -- All walks agree on the sides, so what is in the function comes first in every one.
  refine (findsFunc.part .func).or (findsArg.part .arg) ?_
  rintro - - ⟨left, rfl, -⟩ ⟨right, rfl, -⟩
  exact .sides traversal left right

end Finds

end Traversal

end NamedLambda
