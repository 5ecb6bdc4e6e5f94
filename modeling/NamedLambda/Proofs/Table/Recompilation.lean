import NamedLambda.Proofs.Table.Check

/-! Macros that are compiled again after all they refer to have up-to-date values. -/

namespace NamedLambda

namespace Graph

variable {graph : Graph}

/-- A name depends on one of the given names when the test says so. -/
theorem dependsOnAny_iff {name : Name} {others : List Name} :
    graph.dependsOnAny name others ↔ ∃ other ∈ others, graph.DependsOn name other := by
  -- The test looks for one of them among what the name depends on.
  simp only [dependsOnAny, DependsOn, Option.any_eq_true, List.any_eq_true, decide_eq_true_eq]
  grind

/-- The affected names of a list are some of its names, in their order. -/
theorem affectedBy_sublist (affected names : List Name) :
    (graph.affectedBy affected names).Sublist names := by
  -- Each name of the list is kept or passed over.
  fun_induction affectedBy graph affected names with
  | case1 affected => exact List.Sublist.refl _
  | case2 affected name rest depends ih => exact ih.cons_cons name
  | case3 affected name rest independent ih => exact ih.cons name

/-- Where no name depends on later ones, a name that is passed over depends neither on the given
names nor on any affected one. -/
theorem independent_of_not_mem_affectedBy {affected names : List Name}
    (ordered : names.Pairwise (fun earlier later => ¬graph.DependsOn earlier later))
    {name other : Name} (member : name ∈ names)
    (passed : name ∉ graph.affectedBy affected names) (depends : graph.DependsOn name other) :
    other ∉ affected ∧ other ∉ graph.affectedBy affected names := by
  -- The affected names that come before count as given, and those after are no dependencies.
  fun_induction affectedBy graph affected names with
  | case1 affected => contradiction
  | case2 affected first rest direct ih =>
    -- The first name is affected and counts as given from here on.
    rw [List.mem_cons, not_or] at passed
    have inRest := (List.mem_cons.mp member).resolve_left passed.1
    obtain ⟨notGiven, notLater⟩ := ih (List.pairwise_cons.mp ordered).2 inRest passed.2
    rw [List.mem_cons, not_or] at notGiven ⊢
    exact ⟨notGiven.2, notGiven.1, notLater⟩
  | case3 affected first rest independent ih =>
    -- The first name is passed over, and it may be the name itself.
    rcases List.mem_cons.mp member with same | inRest
    · subst same
      refine ⟨fun given => independent (dependsOnAny_iff.mpr ⟨other, given, depends⟩), ?_⟩
      intro later
      exact List.rel_of_pairwise_cons ordered ((affectedBy_sublist _ _).subset later) depends
    · exact ih (List.pairwise_cons.mp ordered).2 inRest passed

end Graph

namespace Table

/-- The values of a macro are those that its body compiles to now. -/
def UpToDate (table : Table) (name : Name) : Prop :=
  ∀ definition, table.get? name = some definition →
    definition.values = (table.compile definition.body).1

/-- Macros are compiled again one after the other. -/
theorem recompile_cons (table : Table) (name : Name) (rest : List Name) :
    table.recompile (name :: rest) = (table.recompile [name]).recompile rest := by
  -- The fold goes on from the table with the first macro compiled.
  simp only [recompile, List.foldl_cons, List.foldl_nil]

/-- Compiling a macro again changes the values of this macro only. -/
theorem get?_recompile_singleton (table : Table) (name other : Name) :
    (table.recompile [name]).get? other =
      if other = name then
        (table.get? name).map (fun definition =>
          ⟨definition.body, (table.compile definition.body).1⟩)
      else table.get? other := by
  simp only [recompile, List.foldl_cons, List.foldl_nil]
  cases found : table.get? name with
  | none =>
    -- Without a definition there is nothing to compile.
    by_cases same : other = name
    · simp [same, found]
    · simp [same]
  | some definition => simp

/-- Compiling macros again keeps all bodies. -/
theorem body?_recompile (table : Table) (names : List Name) :
    (table.recompile names).body? = table.body? := by
  -- Each of the macros is stored again with its own body.
  induction names generalizing table with
  | nil => rfl
  | cons name rest ih =>
    rw [recompile_cons, ih]
    funext other
    simp only [body?, get?_recompile_singleton]
    by_cases same : other = name
    · simp [same, Function.comp_def]
    · simp [same]

/-- Compiling macros again keeps the budget. -/
theorem budget_recompile (table : Table) (names : List Name) :
    (table.recompile names).budget = table.budget := by
  -- Storing a definition keeps it.
  induction names generalizing table with
  | nil => rfl
  | cons name rest ih =>
    rw [recompile_cons, ih]
    simp only [recompile, List.foldl_cons, List.foldl_nil]
    split <;> rfl

/-- A sound table is sound after macros are compiled again. -/
theorem Sound.recompile {table : Table} (sound : table.Sound) (names : List Name) :
    (table.recompile names).Sound :=
  -- The bodies are the same.
  sound.of_bodies (body?_recompile table names).symm

/-- Names that come after all macros that they refer to. -/
def DependenciesFirst (table : Table) (names : List Name) : Prop :=
  names.Pairwise (fun earlier later => ¬table.RefersTo earlier later)

/-- All macros but the pending ones are up to date and refer to no pending one. -/
structure Settled (table : Table) (pending : List Name) : Prop where
  /-- What is not pending is up to date. -/
  current : ∀ name, name ∉ pending → table.UpToDate name
  /-- What is not pending does not refer to what is. -/
  stays : ∀ name other, name ∉ pending → table.RefersTo name other → other ∉ pending

/-- A pending macro that refers to no pending one is settled by compiling it again. -/
theorem Settled.recompile_singleton {table : Table} {first : Name} {rest : List Name}
    (settled : table.Settled (first :: rest)) (sound : table.Sound)
    (apart : ∀ other, table.RefersTo first other → other ∉ first :: rest) :
    (table.recompile [first]).Settled rest := by
  have refers : (table.recompile [first]).RefersTo = table.RefersTo :=
    refersTo_congr (body?_recompile table [first])
  -- Bodies that refer to no pending macro compile alike before and after the step.
  have compiled : ∀ body : Term, (∀ other ∈ body.references, other ∉ first :: rest) →
      table.compile body = (table.recompile [first]).compile body := by
    intro body outside
    refine sound.compile_congr_among (sound.recompile [first]) (budget_recompile table [first]).symm
      (· ∉ first :: rest) ?_ settled.stays outside
    intro known outside
    rw [List.mem_cons, not_or] at outside
    rw [get?_recompile_singleton, if_neg outside.1]
  constructor
  · intro other outside definition found
    rw [get?_recompile_singleton] at found
    split at found
    · -- The macro itself has just been compiled.
      obtain ⟨stored, located, rfl⟩ := Option.map_eq_some_iff.mp found
      exact congrArg Prod.fst (compiled stored.body (fun needed member =>
        apart needed (refersTo_of_get? located member)))
    · -- The others are as they were, and compile as they did.
      rename_i different
      have spared : other ∉ first :: rest := List.not_mem_cons_of_ne_of_not_mem different outside
      rw [settled.current other spared definition found, compiled definition.body]
      intro needed member
      exact settled.stays other needed spared (refersTo_of_get? found member)
  · -- No reference to a pending macro has come about.
    intro other needed outside reference later
    rw [refers] at reference
    have pending : needed ∈ first :: rest := List.mem_cons_of_mem first later
    by_cases same : other = first
    · exact apart needed (same ▸ reference) pending
    · have spared : other ∉ first :: rest := List.not_mem_cons_of_ne_of_not_mem same outside
      exact settled.stays other needed spared reference pending

/-- Compiling the pending macros again, each after those it refers to, brings all macros
up to date. -/
theorem Settled.recompile {table : Table} {names : List Name} (settled : table.Settled names)
    (sound : table.Sound) (ordered : table.DependenciesFirst names) (name : Name) :
    (table.recompile names).UpToDate name := by
  -- One macro after the other is settled.
  induction names generalizing table with
  | nil => exact settled.current name List.not_mem_nil
  | cons first rest ih =>
    rw [recompile_cons]
    -- The first macro refers neither to itself nor, by the order, to a later one.
    have apart : ∀ other, table.RefersTo first other → other ∉ first :: rest := by
      intro other reference
      refine List.not_mem_cons_of_ne_of_not_mem ?_ ?_
      · exact fun same => sound.acyclic first (.single (same ▸ reference))
      · exact fun later => List.rel_of_pairwise_cons ordered later reference
    refine ih (settled.recompile_singleton sound apart) (sound.recompile [first]) ?_
    rw [DependenciesFirst, refersTo_congr (body?_recompile table [first])]
    exact (List.pairwise_cons.mp ordered).2

/-- In sound tables of the same bodies and budget that are up to date, macros have the same
definitions and meanings. -/
theorem Sound.agree_of_upToDate {left right : Table} (sound : left.Sound)
    (bodies : left.body? = right.body?) (budget : left.budget = right.budget)
    (leftCurrent : ∀ name, left.UpToDate name) (rightCurrent : ∀ name, right.UpToDate name) :
    ∀ name, left.contains name → left.get? name = right.get? name ∧
      ∀ strategy, left.resolve? strategy name = right.resolve? strategy name := by
  -- Where references mean the same, a body compiles to the same values.
  refine sound.induct ?_
  intro name body found ih
  obtain ⟨first, inLeft, sameLeft⟩ := Option.map_eq_some_iff.mp found
  obtain ⟨second, inRight, sameRight⟩ := Option.map_eq_some_iff.mp (bodies ▸ found)
  have compiled : left.compile body = right.compile body :=
    compile_congr budget (fun strategy other member => (ih other member).2 strategy)
  -- Values that are up to date are those that the body compiles to.
  have values : first.values = second.values := by
    rw [leftCurrent name first inLeft, rightCurrent name second inRight, sameLeft, sameRight,
      compiled]
  have located : left.get? name = right.get? name := by
    rw [inLeft, inRight, Option.some.injEq]
    cases first
    cases second
    congr
    exact sameLeft.trans sameRight.symm
  refine ⟨located, fun strategy => ?_⟩
  refine sound.resolve?_congr_of_get? (sound.of_bodies bodies) located ?_
  intro needed reference
  exact (ih needed ((refersTo_iff found).mp reference)).2 strategy

/-- Sound tables of the same bodies and budget that are up to date are the same table. -/
theorem Sound.eq_of_upToDate {left right : Table} (sound : left.Sound)
    (bodies : left.body? = right.body?) (budget : left.budget = right.budget)
    (leftCurrent : ∀ name, left.UpToDate name) (rightCurrent : ∀ name, right.UpToDate name) :
    left = right := by
  -- Tables are equal when they find the same under every name.
  have definitions : left.definitions = right.definitions := by
    apply NameMap.ext_get?
    intro name
    show left.get? name = right.get? name
    cases found : left.get? name with
    | none =>
      -- A macro without a body has no definition in the other table either.
      have missing : right.body? name = none := by rw [← bodies, body?, found, Option.map_none]
      exact (Option.map_eq_none_iff.mp missing).symm
    | some definition =>
      rw [← found]
      exact (sound.agree_of_upToDate bodies budget leftCurrent rightCurrent name
        (contains_of_get? found)).1
  cases left
  cases right
  congr

end Table

end NamedLambda
